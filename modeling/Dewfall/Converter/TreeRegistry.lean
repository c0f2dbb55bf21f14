import Dewfall.Converter.TreeGraft

/-! The registry of trees: the root that takes a unit, and the unit's insertion below it. All codes lie in
one cell of sixty digits, which is what the largest magnitude can span. Runs are not treated here. -/
namespace Dewfall.TreeRegistry
open General General.Cells General.SortedWindows StorageMap PointSplitter MortonTree TreeBuild TreeSplit TreeInsert
open TreeDescend TreeEnter TreeGraft

variable {u : Units} {reads : Location → Option Points} {limit base : Nat}
variable {Q : InputId → Nat → Nat → List Subset → Prop}

structure Ground (u : Units) (base : Nat) : Prop where
  aligned : Aligned 60 base
  top : ∀ id codes, u.codes id = some codes → formatOf codes = .m192 → ∀ c ∈ codes, c + 8 ^ 59 < 8 ^ 64

structure Rooted (u : Units) (Q : InputId → Nat → Nat → List Subset → Prop) (base : Nat) (root : Root)
    (refs : ChunkRefs) : Prop where
  magnitude : root.magnitude < 12
  aligned : Aligned (root.lod + 1) root.mortonMin
  within : base ≤ root.mortonMin ∧ root.mortonMin + 8 ^ (root.lod + 1) ≤ base + 8 ^ 60
  node : ∃ data children, root.top = .node data children
  placed : ∀ currentId, Placed u Q (fun _ => 0) (fun _ => 0) root.lod root.mortonMin root.top
    ⟨root.info.storageMap, refs, currentId⟩ []
  outside : ∀ id codes, Solid u id codes → ∀ k min, Outside k min (root.lod + 1) root.mortonMin → Q id k min []

def Covers (root : Root) (c : Nat) : Prop := Has (root.lod + 1) root.mortonMin c

-- What the registry knew stays known.
structure SameTrees (root root' : Root) : Prop where
  trees : ∀ id, treesIn (.tree root'.info root'.top) id = treesIn (.tree root.info root.top) id
  discarded : ∀ l, discardedIn (.tree root'.info root'.top) l = discardedIn (.tree root.info root.top) l

theorem rootLast (root : Root) : root.lod % 5 = 4 := by
  unfold Root.lod magnitudeToLod
  omega

theorem rootCell {root : Root} {refs} (ground : Ground u base) (rooted : Rooted u Q base root refs) :
    Cell u root.lod root.mortonMin := by
  refine ⟨rooted.aligned, Or.inr fun id codes unit wide c mem => ?_⟩
  have small : root.lod < 60 := by
    have magnitude := rooted.magnitude
    unfold Root.lod magnitudeToLod
    omega
  have most : 8 ^ root.lod ≤ 8 ^ 59 := Nat.pow_le_pow_right (by decide) (Nat.le_of_lt_succ small)
  exact (Nat.add_le_add_left most c).trans_lt (ground.top id codes unit wide c mem)

theorem magnitudeLt {a b : Nat} (first : Has 60 base a) (second : Has 60 base b) (aligned : Aligned 60 base) :
    mortonMagnitude a b < 12 := by
  have near := @lodLt a b 60 (by decide) (hasSame (Nat.le_refl 60) aligned first second)
  unfold mortonMagnitude
  omega

theorem magnitudeSpans (a b : Nat) : mortonLod a b < magnitudeToLod (mortonMagnitude a b) + 1 := by
  unfold magnitudeToLod mortonMagnitude
  omega

theorem cellNested {j k base c : Nat} (le : j ≤ k) (aligned : Aligned k base) (has : Has k base c) :
    base ≤ floor j c ∧ floor j c + 8 ^ j ≤ base + 8 ^ k := by
  have low : Aligned j base := alignedOf le aligned
  have below : floor j c ≤ c := (floorHas j c).1
  constructor
  · have same : floor j base = base := floorOf low hasSelf
    have mono := Nat.mul_le_mul_right (8 ^ j) (Nat.div_le_div_right (c := 8 ^ j) has.1)
    change floor j base ≤ floor j c at mono
    omega
  · exact stepWithin (floorAligned j c) (Nat.dvd_add low (Nat.pow_dvd_pow 8 le)) (below.trans_lt has.2)

theorem placedFresh (id : Nat) (refs : ChunkRefs) (currentId lod min : Nat)
    (blank : ∀ id codes, Solid u id codes → ∀ k min, Q id k min [])
    (unknown : ∀ id, isChunk id = true → u.codes id ≠ some [] → refs id = none) :
    Placed u Q (fun _ => 0) (fun _ => 0) lod min emptyNode ⟨(newTree id).storageMap, refs, currentId⟩ [] := by
  refine ⟨fun _ _ there => (nomatch there), ⟨fun _ mem => (nomatch mem), rfl⟩, fun id codes solid => ?_,
    fun _ _ found => (nomatch found), fun id => ⟨Nat.le_refl 0, fun _ => rfl⟩, fun _ _ => trivial,
    fun id chunk filled r found => ?_⟩
  · exact Or.inl ⟨blank id codes solid _ _, rfl⟩
  · dsimp only at found
    rw [unknown id chunk filled] at found
    cases found

-- The cell that a magnitude spans, of two codes in order.
structure Spanned (base lo hi lod min : Nat) : Prop where
  aligned : Aligned (lod + 1) min
  within : base ≤ min ∧ min + 8 ^ (lod + 1) ≤ base + 8 ^ 60
  covers : ∀ c, lo ≤ c → c ≤ hi → Has (lod + 1) min c

theorem spannedBy {lo hi} (aligned : Aligned 60 base) (first : Has 60 base lo) (last : Has 60 base hi) :
    mortonMagnitude lo hi < 12 ∧ Spanned base lo hi (magnitudeToLod (mortonMagnitude lo hi))
      (maskMin (magnitudeToLod (mortonMagnitude lo hi)) lo) := by
  have small := magnitudeLt first last aligned
  have spans := magnitudeSpans lo hi
  have le : magnitudeToLod (mortonMagnitude lo hi) + 1 ≤ 60 := by
    unfold magnitudeToLod
    omega
  generalize magnitudeToLod (mortonMagnitude lo hi) = lod at *
  refine ⟨small, floorAligned _ _, cellNested le aligned first, fun c least most => ?_⟩
  refine (hasDiv (floorAligned _ _)).mpr ((lodBetween spans least most).trans ?_)
  exact (hasDiv (floorAligned _ _)).mp (floorHas _ _)

theorem initializeSpec {h : Header} {currentId refs} (ground : Ground u base)
    (first : Has 60 base h.mortonMin) (last : Has 60 base h.mortonMax) (order : h.mortonMin ≤ h.mortonMax)
    (blank : ∀ id codes, Solid u id codes → ∀ k min, Q id k min [])
    (unknown : ∀ id, isChunk id = true → u.codes id ≠ some [] → refs id = none) :
    ∃ root, treeInitialize currentId h = some root ∧ Rooted u Q base root refs ∧ Covers root h.mortonMin ∧
      Covers root h.mortonMax ∧ root.info = newTree currentId ∧ root.top = emptyNode := by
  obtain ⟨small, spanned⟩ := spannedBy ground.aligned first last
  refine ⟨⟨mortonMagnitude h.mortonMin h.mortonMax, maskMin (magnitudeToLod (mortonMagnitude h.mortonMin h.mortonMax))
    h.mortonMin, newTree currentId, emptyNode⟩, ?_, ⟨small, spanned.aligned,
    spanned.within, ⟨_, _, rfl⟩, fun id => placedFresh currentId refs id _ _ blank unknown,
    fun id codes solid k min _ => blank id codes solid k min⟩,
    spanned.covers _ (Nat.le_refl _) order, spanned.covers _ order (Nat.le_refl _), rfl, rfl⟩
  unfold treeInitialize
  dsimp only
  rw [if_neg (Nat.not_le.mpr small)]

-- A unit that is not in the root's cell makes the span larger than the root's.
structure Widened (base min lod lo hi newMin newMax : Nat) : Prop where
  first : Has 60 base newMin
  last : Has 60 base newMax
  below : newMin ≤ min ∧ newMin ≤ lo
  above : min + (8 ^ (lod + 1) - 1) ≤ newMax ∧ hi ≤ newMax
  more : lod + 1 ≤ mortonLod newMin newMax

theorem widenedBy {min lod lo hi} (aligned : Aligned (lod + 1) min)
    (within : base ≤ min ∧ min + 8 ^ (lod + 1) ≤ base + 8 ^ 60) (first : Has 60 base lo) (last : Has 60 base hi)
    (beyond : lo < min ∨ min + (8 ^ (lod + 1) - 1) < hi) :
    Widened base min lod lo hi (if min < lo then min else lo)
      (if min + (8 ^ (lod + 1) - 1) < hi then hi else min + (8 ^ (lod + 1) - 1)) := by
  have positive := powPositive (lod + 1)
  have own := (hasDiv aligned).mp hasSelf
  unfold Has at first last
  generalize large : 8 ^ 60 = ground at *
  have bounds : (if min < lo then min else lo) ≤ min ∧ (if min < lo then min else lo) ≤ lo ∧
      min + (8 ^ (lod + 1) - 1) ≤ (if min + (8 ^ (lod + 1) - 1) < hi then hi else min + (8 ^ (lod + 1) - 1)) ∧
      hi ≤ if min + (8 ^ (lod + 1) - 1) < hi then hi else min + (8 ^ (lod + 1) - 1) := by
    split <;> split <;> omega
  refine ⟨?_, ?_, ⟨bounds.1, bounds.2.1⟩, bounds.2.2, ?_⟩
  · unfold Has
    split <;> omega
  · unfold Has
    split <;> omega
  · generalize (if min < lo then min else lo) = newMin at *
    generalize (if min + (8 ^ (lod + 1) - 1) < hi then hi else min + (8 ^ (lod + 1) - 1)) = newMax at *
    refine Nat.le_of_not_lt fun near => ?_
    have same := lodSame near
    have lower := Nat.div_le_div_right (c := 8 ^ (lod + 1)) bounds.1
    have higher : min / 8 ^ (lod + 1) ≤ newMax / 8 ^ (lod + 1) := Nat.div_le_div_right (by omega)
    have inMin : Has (lod + 1) min newMin := (hasDiv aligned).mpr (by omega)
    have inMax : Has (lod + 1) min newMax := (hasDiv aligned).mpr (by omega)
    unfold Has at inMin inMax
    omega

theorem rootStop {root : Root} (aligned : Aligned (root.lod + 1) root.mortonMin) :
    root.mortonMax = root.mortonMin + (8 ^ (root.lod + 1) - 1) := by
  unfold Root.mortonMax maskMax
  rw [floorOf aligned hasSelf]

theorem rootBalanced {root : Root} {refs} (rooted : Rooted u Q base root refs) :
    Shaped (.tree root.info root.top) root.lod ∧ TreesBalanced u (.tree root.info root.top) := by
  have placed := rooted.placed 0
  obtain ⟨data, children, shape⟩ := rooted.node
  refine ⟨⟨by rw [shape]; rfl, placed.shaped⟩, placed.describes, fun id => ?_, placed.below⟩
  have count := placed.counts id
  change Balanced u id (root.info.storageMap.refCount id) (0 + refsIn root.top id + 0) at count
  rw [Nat.zero_add, Nat.add_zero] at count
  exact count

-- What hangs in the chain is placed as it was.
theorem graftPlaced {root : Root} {refs lod id data children} (closed : ∀ id codes, Solid u id codes → Closed id codes (Q id))
    (rooted : Rooted u Q base root refs)
    (grafted : Grafted u root.mortonMin root.lod (.tree root.info root.top) (.tree (newTree id) (.node data children)) lod)
    (currentId : Nat) : Placed u Q (fun _ => 0) (fun _ => 0) lod (floor (lod + 1) root.mortonMin)
      (.node data children) ⟨(newTree id).storageMap, refs, currentId⟩ [] := by
  have placed := rooted.placed currentId
  obtain ⟨describes, counts, below⟩ := grafted.below
  refine ⟨grafted.shaped.2, grafted.leaves _ placed.leaves fun _ _ _ => ⟨fun _ mem => (nomatch mem), rfl⟩,
    fun id codes solid => ?_, describes, fun id => ?_, below, fun id chunk filled r found => ?_⟩
  · have held := pendingNil (closed id codes solid) rooted.aligned placed.shaped (placed.pending id codes solid)
    exact Or.inl ⟨grafted.leaves _ held fun k min apart => rooted.outside id codes solid k min apart, rfl⟩
  · have count := counts id
    change Balanced u id _ (0 + refsIn (.node data children) id + 0)
    rw [Nat.zero_add, Nat.add_zero]
    exact count
  · have count := placed.counted id chunk filled r found
    have trees := grafted.trees id
    change r.treeCount = 0 + holds root.info.storageMap id + treesIn root.top id at count
    change holds _ id + treesIn (.node data children) id = holds root.info.storageMap id + treesIn root.top id at trees
    dsimp only
    omega

theorem reparentSpec {root : Root} {h : Header} {refs} (currentId : Nat) (ground : Ground u base)
    (closed : ∀ id codes, Solid u id codes → Closed id codes (Q id)) (rooted : Rooted u Q base root refs)
    (first : Has 60 base h.mortonMin) (last : Has 60 base h.mortonMax) (order : h.mortonMin ≤ h.mortonMax)
    (beyond : h.mortonMin < root.mortonMin ∨ root.mortonMax < h.mortonMax) :
    ∃ root' nextId, reparentTree currentId root h.mortonMin h.mortonMax = some (root', nextId) ∧
      Rooted u Q base root' refs ∧ Covers root' h.mortonMin ∧ Covers root' h.mortonMax ∧ SameTrees root root' := by
  unfold reparentTree
  dsimp only
  rw [rootStop rooted.aligned] at beyond ⊢
  have widened := widenedBy rooted.aligned rooted.within first last beyond
  generalize (if root.mortonMin < h.mortonMin then root.mortonMin else h.mortonMin) = newMin at *
  generalize (if root.mortonMin + (8 ^ (root.lod + 1) - 1) < h.mortonMax then h.mortonMax
    else root.mortonMin + (8 ^ (root.lod + 1) - 1)) = newMax at *
  obtain ⟨small, spanned⟩ := spannedBy ground.aligned widened.first widened.last
  have more : root.magnitude < mortonMagnitude newMin newMax := by
    have high := widened.more
    unfold Root.lod magnitudeToLod at high
    unfold mortonMagnitude
    omega
  rw [if_neg (by omega)]
  have level : magnitudeToLod (mortonMagnitude newMin newMax) % 5 = 4 ∧
      root.lod < magnitudeToLod (mortonMagnitude newMin newMax) := by
    unfold Root.lod magnitudeToLod
    omega
  generalize same : magnitudeToLod (mortonMagnitude newMin newMax) = lod at *
  have positive := powPositive (root.lod + 1)
  have inside : ∀ c, Has (root.lod + 1) root.mortonMin c → Has (lod + 1) (maskMin lod newMin) c := by
    intro c has
    have below := widened.below.1
    have above := widened.above.1
    refine spanned.covers c (below.trans has.1) ?_
    have stop := has.2
    omega
  have start : floor (lod + 1) root.mortonMin = maskMin lod newMin := floorOf spanned.aligned (inside _ hasSelf)
  obtain ⟨shaped, balanced⟩ := rootBalanced rooted
  obtain ⟨grafted, roots⟩ := graftSpec rooted.aligned (rootLast root) shaped balanced (lod - root.lod) currentId
  have rise : root.lod + (lod - root.lod) = lod := by omega
  rw [rise] at grafted roots
  obtain ⟨id, data, children, made⟩ := roots (by omega) level.1
  rw [made] at grafted
  generalize insertTreeInTree root.mortonMin root.lod (.tree root.info root.top) (lod - root.lod) currentId = result at made ⊢
  obtain ⟨t, nextId⟩ := result
  dsimp only at made
  subst made
  have rootLod : Root.lod ⟨mortonMagnitude newMin newMax, maskMin lod newMin, newTree id, .node data children⟩ = lod := same
  refine ⟨_, nextId, rfl, ⟨small, ?_, ?_, ⟨data, children, rfl⟩, fun current => ?_, fun id codes solid k min apart => ?_⟩,
    ?_, ?_, grafted.trees, grafted.discarded⟩
  · rw [rootLod]
    exact spanned.aligned
  · rw [rootLod]
    exact spanned.within
  · rw [rootLod]
    have placed := graftPlaced closed rooted grafted current
    rw [start] at placed
    exact placed
  · rw [rootLod] at apart
    exact rooted.outside id codes solid k min fun c has within => apart c has (inside c within)
  · unfold Covers
    rw [rootLod]
    exact spanned.covers _ widened.below.2 (order.trans widened.above.2)
  · unfold Covers
    rw [rootLod]
    exact spanned.covers _ (widened.below.2.trans order) widened.above.2

theorem rootForSpec {r : Registry} {root : Root} {h : Header} (known : r.root = some root) (ground : Ground u base)
    (closed : ∀ id codes, Solid u id codes → Closed id codes (Q id)) (rooted : Rooted u Q base root r.chunkTreeRefs)
    (first : Has 60 base h.mortonMin) (last : Has 60 base h.mortonMax) (order : h.mortonMin ≤ h.mortonMax) :
    ∃ root' nextId, rootFor r h = some (root', nextId) ∧ Rooted u Q base root' r.chunkTreeRefs ∧
      Covers root' h.mortonMin ∧ Covers root' h.mortonMax ∧ SameTrees root root' := by
  unfold rootFor
  rw [known]
  dsimp only
  split
  · rename_i beyond
    exact reparentSpec r.currentId ground closed rooted first last order beyond
  · rename_i inside
    have positive := powPositive (root.lod + 1)
    rw [rootStop rooted.aligned] at inside
    refine ⟨root, r.currentId, rfl, rooted, ?_, ?_, fun _ => rfl, fun _ => rfl⟩
    · unfold Covers Has
      omega
    · unfold Covers Has
      omega

/-! ## A unit arrives -/

theorem unitGathered (env : Readable u reads) {n codes k min} (unit : u.codes n = some codes)
    (covers : ∀ c ∈ codes, Has k min c) : codesIn k min codes = codes ∧
      cellSubset n codes k min = ⟨n, 0, codes.length⟩ ∧
      Gathered u k min (pointsDataInitialize (sortedUnit n codes).header) := by
  have sorted := env.sorted n codes unit
  have window : codesIn k min codes = codes := betweenAll covers
  have start : offset min codes = 0 :=
    List.countP_eq_zero.mpr fun c mem => by simpa using (covers c mem).1
  have subset : cellSubset n codes k min = ⟨n, 0, codes.length⟩ := by rw [cellSubset, start, window]
  refine ⟨window, subset, fun p mem => ?_, ?_, fun _ => rfl, fun p mem other known x here => ?_⟩
  · obtain rfl := List.mem_singleton.mp mem
    refine ⟨codes, unit, subset.symm, ?_⟩
    rw [window]
    exact (Classical.em (codes = [])).symm
  · exact (Nat.add_zero _).symm
  · obtain rfl := List.mem_singleton.mp mem
    obtain rfl : codes = other := Option.some.inj (unit.symm.trans known)
    have mem := (codesInMem.mp here).1
    exact ⟨headLe sorted mem, leLast sorted mem⟩

-- What `Q'` says of a unit that arrives, and of all the others.
structure Arrives (u : Units) (Q Q' : InputId → Nat → Nat → List Subset → Prop) (n : InputId) (codes : List Nat) :
    Prop where
  unit : u.codes n = some codes
  before : ∀ k min r, Q n k min r → r = []
  same : ∀ id, id ≠ n → Q' id = Q id
  blank : ∀ k min, codesIn k min codes = [] → Q' n k min []
  whole : ∀ k min, codes ≠ [] → (∀ c ∈ codes, Has k min c) → Q' n k min [cellSubset n codes k min]

theorem arrivePlaced {Q'} (env : Readable u reads) {root : Root} {refs n codes attributesId locations}
    (arrives : Arrives u Q Q' n codes) (rooted : Rooted u Q base root refs)
    (unknown : treesIn (.tree root.info root.top) n = 0) (stored : (attributesId, locations) = u.stored n)
    (covers : ∀ c ∈ codes, Covers root c) (pointCount currentId : Nat) :
    Placed u Q' (fun _ => 0) (fun _ => 0) root.lod root.mortonMin root.top
      ⟨root.info.storageMap.addStorage n attributesId locations,
        if isChunk n then Function.update refs n (some ⟨1, pointCount⟩) else refs, currentId⟩
      [⟨n, 0, codes.length⟩] := by
  have placed := rooted.placed currentId
  have none : root.info.storageMap.refCount n = 0 :=
    (holdsZero placed.describes).mp (Nat.eq_zero_of_add_eq_zero_right unknown)
  have below : treesIn root.top n = 0 := Nat.eq_zero_of_add_eq_zero_left unknown
  obtain ⟨describes, _, counts⟩ := InputStorageMap.addStorageSpec placed.describes
    ((InputStorageMap.refCountZero placed.describes).mp none) stored
  have single : ∀ id, countOf id [⟨n, 0, codes.length⟩] = if id = n then 1 else 0 := by
    intro id
    rw [countOfCons]
    simp [countOf, eq_comm]
  refine ⟨placed.shaped, placed.leaves, fun id other solid => ?_, describes, fun id => ?_, placed.below,
    fun id chunk filled r found => ?_⟩
  · by_cases own : id = n
    · subst own
      obtain rfl : codes = other := Option.some.inj (arrives.unit.symm.trans solid.1)
      have absent : Absent id root.top root.lod root.mortonMin := by
        rcases placed.pending id codes solid with ⟨held, _⟩ | ⟨absent, _⟩
        · exact eachLeafImp (fun k min c here => arrives.before k min _ here) held
        · exact absent
      have subset := (unitGathered env solid.1 covers).2.1
      refine Or.inr ⟨absent, ?_⟩
      have whole := arrives.whole _ _ solid.2 covers
      rw [subset] at whole
      simpa [recordsOf] using whole
    · have nothing : recordsOf id [⟨n, 0, codes.length⟩] = [] := by
        simpa [recordsOf] using Ne.symm own
      rw [arrives.same id own, nothing]
      exact placed.pending id other solid
  · obtain ⟨most, exact_⟩ := placed.counts id
    dsimp only at most exact_ ⊢
    have nothing : countOf id [] = 0 := rfl
    rw [nothing] at most exact_
    rw [single, counts]
    split
    · rename_i own
      subst own
      unfold TreeInsert.Balanced
      omega
    · exact ⟨most, exact_⟩
  · dsimp only at found ⊢
    by_cases own : id = n
    · subst own
      rw [chunk, if_pos rfl, Function.update_self] at found
      cases found
      have here : holds (root.info.storageMap.addStorage id attributesId locations) id = 1 := by
        unfold holds
        rw [if_pos ((InputStorageMap.containsIff describes).mpr (by rw [counts, if_pos rfl]; exact Nat.one_pos))]
      rw [here, below]
    · have old : refs id = some r := by
        split at found
        · rwa [Function.update_of_ne own] at found
        · exact found
      have frame : holds (root.info.storageMap.addStorage n attributesId locations) id =
          holds root.info.storageMap id := holdsSame placed.describes describes (by rw [counts, if_neg own])
      rw [frame]
      exact placed.counted id chunk filled r old

theorem addSpec {Q'} (env : Env u reads limit Q') {r : Registry} {root : Root} {currentId n codes attributesId locations}
    (ground : Ground u base) (limits : r.nodeLimit = limit)
    (chosen : rootFor r (sortedUnit n codes).header = some (root, currentId))
    (arrives : Arrives u Q Q' n codes) (rooted : Rooted u Q base root r.chunkTreeRefs)
    (unknown : treesIn (.tree root.info root.top) n = 0) (stored : (attributesId, locations) = u.stored n)
    (covers : ∀ c ∈ codes, Covers root c) :
    ∃ r' root', treeAddPoints reads r (sortedUnit n codes).header attributesId locations = some r' ∧
      r'.nodeLimit = limit ∧ r'.root = some root' ∧ Rooted u Q' base root' r'.chunkTreeRefs ∧
      (∀ id, id ≠ n → treesIn (.tree root.info root.top) id = 0 → treesIn (.tree root'.info root'.top) id = 0) ∧
      (∀ id, id ≠ n → r.chunkTreeRefs id = none → r'.chunkTreeRefs id = none) ∧
      ((∀ id, u.codes id ≠ some []) → ∀ l, discardedIn (.tree root'.info root'.top) l =
        discardedIn (.tree root.info root.top) l) := by
  have placed := arrivePlaced env.readable arrives rooted unknown stored covers codes.length currentId
  have gathered := (unitGathered env.readable arrives.unit covers).2.2
  have before := rooted.placed currentId
  have fresh : root.info.storageMap.refCount n = 0 :=
    (holdsZero before.describes).mp (Nat.eq_zero_of_add_eq_zero_right unknown)
  obtain ⟨describes, discarded, counts⟩ := InputStorageMap.addStorageSpec before.describes
    ((InputStorageMap.refCountZero before.describes).mp fresh) stored
  obtain ⟨data, children, shape⟩ := rooted.node
  rw [shape] at placed
  have cell : Cell u root.lod root.mortonMin := rootCell ground rooted
  obtain ⟨data', children', s', result, after, kept⟩ := insertSpec env root.lod _ _ _ data children _
    (pointsDataInitialize (sortedUnit n codes).header) cell placed gathered (List.cons_ne_nil _ _)
  let added : Root := ⟨root.magnitude, root.mortonMin, ⟨root.info.id, s'.storageMap, true, false⟩, .node data' children'⟩
  refine ⟨⟨r.nodeLimit, s'.currentId, r.currentCollapsedNodeId, s'.refs, some added⟩, added, ?_, limits, rfl,
    ⟨rooted.magnitude, rooted.aligned, rooted.within, ⟨data', children', rfl⟩, fun _ => ?_,
    fun id other solid k min apart => ?_⟩, fun id other here => ?_, fun id other here => ?_, fun solid l => ?_⟩
  · unfold treeAddPoints
    rw [chosen]
    dsimp only
    rw [shape, limits]
    change Option.map _ (insertPoints reads limit root.lod root.mortonMin (.node data children)
      ⟨root.info.storageMap.addStorage n attributesId locations, _, currentId⟩ _) = _
    rw [show (sortedUnit n codes).header.inputId = n from rfl,
      show (sortedUnit n codes).header.pointCount = codes.length from rfl]
    rw [result]
    rfl
  · exact ⟨after.shaped, after.leaves, after.pending, after.describes, after.counts, after.below, after.counted⟩
  · by_cases own : id = n
    · subst own
      obtain rfl : codes = other := Option.some.inj (arrives.unit.symm.trans solid.1)
      refine arrives.blank k min (List.filter_eq_nil_iff.mpr fun c mem => ?_)
      rw [decide_eq_true_eq]
      exact fun has => apart c has (covers c mem)
    · rw [arrives.same id own]
      exact rooted.outside id other solid k min apart
  · refine kept.unknown id ?_
    have frame : holds (root.info.storageMap.addStorage n attributesId locations) id =
        holds root.info.storageMap id := holdsSame before.describes describes (by rw [counts, if_neg other])
    dsimp only
    rw [frame, ← shape]
    exact here
  · have points := kept.points id
    dsimp only at points
    have old : (if isChunk n then Function.update r.chunkTreeRefs n (some ⟨1, codes.length⟩) else r.chunkTreeRefs) id =
        none := by
      split
      · rw [Function.update_of_ne other]
        exact here
      · exact here
    rw [old] at points
    exact Option.map_eq_none_iff.mp points
  · have same := kept.discarded solid l
    dsimp only at same
    rw [discarded, ← shape] at same
    exact same

end Dewfall.TreeRegistry
