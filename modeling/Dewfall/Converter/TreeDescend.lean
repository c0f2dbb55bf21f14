import Dewfall.Converter.TreeInsert

/-! What one insertion does on its way down: a node keeps, adds or splits, then its children take what is
sent to them. The smallest cells are assumed to have room; who calls the insertion is not treated. -/
namespace Dewfall.TreeDescend
open General General.Cells General.SortedWindows StorageMap PointSplitter MortonTree TreeBuild TreeSplit TreeInsert

variable {u : Units} {reads : Location → Option Points} {limit : Nat}
variable {Q : InputId → Nat → Nat → List Subset → Prop} {trees rest : InputId → Nat}

-- Units that have points; the others may lose their records on the way.
def Solid (u : Units) (id : InputId) (codes : List Nat) : Prop := u.codes id = some codes ∧ codes ≠ []

-- No cell of eight codes is given more than a node may hold.
def Room (u : Units) (limit : Nat) : Prop := ∀ min data, Aligned 1 min → (∀ p ∈ data, Whole u 1 min p) →
  (∀ id codes, Solid u id codes → (recordsOf id data).length ≤ 1) → (data.map Subset.count).sum ≤ limit

structure Env (u : Units) (reads : Location → Option Points) (limit : Nat)
    (Q : InputId → Nat → Nat → List Subset → Prop) : Prop where
  readable : Readable u reads
  room : Room u limit
  closed : ∀ id codes, Solid u id codes → Closed id codes (Q id)

-- `rest` counts the records of the same tree outside the node, and `trees` the other trees with the unit.
structure Placed (u : Units) (Q : InputId → Nat → Nat → List Subset → Prop) (trees rest : InputId → Nat)
    (lod min : Nat) (node : Octree) (s : State) (coming : List Subset) : Prop where
  shaped : Shaped node lod
  leaves : EachLeaf (Leaf u) node lod min
  pending : ∀ id codes, Solid u id codes → Pending (Q id) id node lod min (recordsOf id coming)
  describes : s.storageMap.Describes u.stored
  counts : ∀ id, Balanced u id (s.storageMap.refCount id) (rest id + refsIn node id + countOf id coming)
  below : TreesBalanced u node
  counted : ∀ id, isChunk id = true → u.codes id ≠ some [] → ∀ r, s.refs id = some r →
    r.treeCount = trees id + holds s.storageMap id + treesIn node id

structure Filling (u : Units) (Q : InputId → Nat → Nat → List Subset → Prop) (trees rest : InputId → Nat)
    (lod min : Nat) (data : Collection) (children : Nat → Octree) (s : State) (coming : Nat → List Subset) : Prop where
  shaped : Shaped (.node data children) (lod + 1)
  leaves : ∀ i < 8, EachLeaf (Leaf u) (children i) lod (child (lod + 1) min i)
  pending : ∀ id codes, Solid u id codes → ∀ i < 8,
    Pending (Q id) id (children i) lod (child (lod + 1) min i) (recordsOf id (coming i))
  describes : s.storageMap.Describes u.stored
  counts : ∀ id, Balanced u id (s.storageMap.refCount id)
    (rest id + refsIn (.node data children) id + overChildren fun i => countOf id (coming i))
  below : TreesBalanced u (.node data children)
  counted : ∀ id, isChunk id = true → u.codes id ≠ some [] → ∀ r, s.refs id = some r →
    r.treeCount = trees id + holds s.storageMap id + treesIn (.node data children) id

structure Kept (u : Units) (before after : Octree × State) : Prop where
  points : ∀ id, (after.2.refs id).map ChunkRef.pointCount = (before.2.refs id).map ChunkRef.pointCount
  discarded : (∀ id, u.codes id ≠ some []) → ∀ l, after.2.storageMap.discarded.count l + discardedIn after.1 l =
    before.2.storageMap.discarded.count l + discardedIn before.1 l
  unknown : ∀ id, holds before.2.storageMap id + treesIn before.1 id = 0 →
    holds after.2.storageMap id + treesIn after.1 id = 0

theorem keptTrans {a b c : Octree × State} (first : Kept u a b) (second : Kept u b c) : Kept u a c :=
  ⟨fun id => (second.points id).trans (first.points id),
    fun solid l => (second.discarded solid l).trans (first.discarded solid l),
    fun id none => second.unknown id (first.unknown id none)⟩

/-! ## Records of units that have points -/

theorem wholeSolid {k min p codes} (whole : Whole u k min p) (solid : Solid u p.inputId codes) :
    codesIn k min codes ≠ [] ∧ p = cellSubset p.inputId codes k min := by
  obtain ⟨other, same, subset, kind⟩ := whole
  obtain rfl : codes = other := Option.some.inj (solid.1.symm.trans same)
  exact ⟨kind.resolve_right solid.2, subset⟩

theorem recordsNone {k min data id codes} (whole : ∀ p ∈ data, Whole u k min p)
    (zero : (data.map Subset.count).sum = 0) (solid : Solid u id codes) : recordsOf id data = [] := by
  refine List.filter_eq_nil_iff.mpr fun p mem same => ?_
  obtain rfl := of_decide_eq_true same
  have none := nothingCounted zero mem
  rw [wholeCount (whole p mem) solid.1] at none
  exact (wholeSolid (whole p mem) solid).1 (List.eq_nil_of_length_eq_zero none)

theorem countNone {k min data id} (whole : ∀ p ∈ data, Whole u k min p)
    (zero : (data.map Subset.count).sum = 0) (filled : u.codes id ≠ some []) : countOf id data = 0 := by
  rw [countRecords, List.length_eq_zero_iff]
  cases known : u.codes id with
  | some codes => exact recordsNone whole zero ⟨known, fun none => filled (known.trans (congrArg some none))⟩
  | none =>
    refine List.filter_eq_nil_iff.mpr fun p mem same => ?_
    obtain rfl := of_decide_eq_true same
    obtain ⟨codes, unit, _⟩ := whole p mem
    rw [known] at unit
    cases unit

theorem countSome {id : InputId} {data : List Subset} (some : 0 < countOf id data) : ∃ p ∈ data, p.inputId = id := by
  obtain ⟨p, mem, same⟩ := List.countP_pos_iff.mp some
  exact ⟨p, mem, of_decide_eq_true same⟩

theorem countMem {data : List Subset} {p} (mem : p ∈ data) : 0 < countOf p.inputId data :=
  List.countP_pos_iff.mpr ⟨p, mem, decide_eq_true rfl⟩

theorem onceRecords {id codes k min} {P : Nat → Nat → List Subset → Prop} (closed : Closed id codes P) {r}
    (here : P k min r) : r.length ≤ 1 := by
  rcases closed.known k min r here with rfl | ⟨_, rfl⟩
  · exact Nat.zero_le 1
  · exact Nat.le_refl 1

theorem innerChild {children : Nat → Octree} (inner : isLeafNode children = false) :
    ∃ i < 8, (children i).present = true := by
  obtain ⟨i, mem, there⟩ := List.all_eq_false.mp inner
  exact ⟨i, List.mem_range.mp mem, by simpa using there⟩

theorem shapedChild {data children lod i} (shaped : Shaped (.node data children) lod) (octant : i < 8) :
    Shaped (children i) (lod - 1) := by
  cases here : children i with
  | missing => trivial
  | node d c =>
    rw [← here]
    exact (shaped i octant (by rw [here]; rfl)).2.2
  | tree info root =>
    rw [← here]
    exact (shaped i octant (by rw [here]; rfl)).2.2

theorem pendingNil {id codes lod min node} {P : Nat → Nat → List Subset → Prop} (closed : Closed id codes P)
    (aligned : Aligned (lod + 1) min) (shaped : Shaped node lod) (pending : Pending P id node lod min []) :
    Holds P id node lod min := by
  rcases pending with ⟨holds, _⟩ | ⟨absent, empty⟩
  · exact holds
  · induction node generalizing lod min with
    | missing => exact empty
    | tree _ root ih => exact ih aligned shaped.2 absent empty
    | node data children ih =>
      unfold Holds EachLeaf at ⊢
      unfold Absent EachLeaf at absent
      split at absent
      · rename_i leaf
        rw [if_pos leaf, absent]
        exact empty
      · rename_i inner
        rw [if_neg inner]
        intro i octant
        obtain ⟨j, where_, present⟩ := innerChild (Bool.eq_false_iff.mpr inner)
        obtain ⟨level, rfl⟩ := Nat.exists_eq_add_one.mpr (shaped j where_ present).1
        have down := closed.down _ _ [] aligned empty i octant
        exact ih i (childAligned aligned) (shapedChild shaped octant) (absent i octant) down

/-! ## Adding to a leaf -/

theorem addData (data points : Collection) :
    (pointsDataAdd data points).data = (if data.pointCount = 0 then [] else data.data) ++ points.data := by
  unfold pointsDataAdd
  split <;> rfl

theorem addLeaf {k min data points} (leaf : Leaf u k min data) (gathered : Gathered u k min points) :
    Leaf u k min (pointsDataAdd data points) := by
  constructor
  · intro p mem
    rw [addData] at mem
    rcases List.mem_append.mp mem with old | new
    · split at old
      · cases old
      · exact leaf.whole p old
    · exact gathered.whole p new
  · rw [addData]
    unfold pointsDataAdd
    split
    · exact gathered.total
    · rw [List.map_append, List.sum_append, ← leaf.total, ← gathered.total]

theorem addRecords {k min data points id codes} (leaf : Leaf u k min data) (solid : Solid u id codes) :
    recordsOf id (pointsDataAdd data points).data = recordsOf id data.data ++ recordsOf id points.data := by
  rw [addData, recordsAppend]
  split
  · rename_i zero
    rw [recordsNone leaf.whole (leaf.total.symm.trans zero) solid]
    rfl
  · rfl

theorem addCount {k min data points id} (leaf : Leaf u k min data) :
    countOf id (pointsDataAdd data points).data ≤ countOf id data.data + countOf id points.data ∧
      (u.codes id ≠ some [] →
        countOf id (pointsDataAdd data points).data = countOf id data.data + countOf id points.data) := by
  rw [addData, countOfAppend]
  split
  · rename_i zero
    refine ⟨Nat.add_le_add_right (Nat.zero_le _) _, fun filled => ?_⟩
    rw [countNone leaf.whole (leaf.total.symm.trans zero) filled]
    rfl
  · exact ⟨Nat.le_refl _, fun _ => rfl⟩

theorem addPlaced {lod min data children s points} (leaf : isLeafNode children = true)
    (placed : Placed u Q trees rest lod min (.node data children) s points.data)
    (gathered : Gathered u (lod + 1) min points) :
    Placed u Q trees rest lod min (.node (pointsDataAdd data points) children) s [] := by
  have here := (eachLeafLeaf leaf).mp placed.leaves
  refine ⟨placed.shaped, (eachLeafLeaf leaf).mpr (addLeaf here gathered), fun id codes solid => Or.inl ⟨?_, rfl⟩,
    placed.describes, fun id => ?_, placed.below, placed.counted⟩
  · refine (eachLeafLeaf leaf).mpr ?_
    rw [addRecords here solid]
    rcases placed.pending id codes solid with ⟨held, none⟩ | ⟨absent, comes⟩
    · rw [none, List.append_nil]
      exact (eachLeafLeaf leaf).mp held
    · rw [(eachLeafLeaf leaf).mp absent, List.nil_append]
      exact comes
  · obtain ⟨most, exact_⟩ := placed.counts id
    obtain ⟨fewer, same⟩ := @addCount _ _ _ _ points id here
    unfold refsIn at most exact_ ⊢
    change _ + _ + 0 ≤ _ ∧ (_ → _ = _ + _ + 0)
    refine ⟨by omega, fun filled => ?_⟩
    have first := exact_ filled
    have second := same filled
    omega

theorem roomLeaf (env : Env u reads limit Q) {min data children s points} (aligned : Aligned 1 min)
    (placed : Placed u Q trees rest 0 min (.node data children) s points.data) (gathered : Gathered u 1 min points) :
    isLeafNode children = true ∧ data.pointCount + points.pointCount ≤ limit := by
  have leaf : isLeafNode children = true := by
    cases inner : isLeafNode children with
    | true => rfl
    | false =>
      obtain ⟨i, octant, present⟩ := innerChild inner
      exact absurd (placed.shaped i octant present).1 (Nat.lt_irrefl 0)
  have here := (eachLeafLeaf leaf).mp placed.leaves
  have all : ∀ p ∈ data.data ++ points.data, Whole u 1 min p := by
    intro p mem
    rcases List.mem_append.mp mem with old | new
    · exact here.whole p old
    · exact gathered.whole p new
  have room := env.room min (data.data ++ points.data) aligned all fun id codes solid => by
    have closed := env.closed id codes solid
    rw [recordsAppend, List.length_append]
    rcases placed.pending id codes solid with ⟨held, none⟩ | ⟨absent, comes⟩
    · rw [none]
      exact onceRecords closed ((eachLeafLeaf leaf).mp held)
    · rw [(eachLeafLeaf leaf).mp absent]
      have once := onceRecords closed comes
      simpa using once
  rw [List.map_append, List.sum_append, ← here.total, ← gathered.total] at room
  exact ⟨leaf, room⟩

/-! ## What is sent to the children -/

structure Sent (u : Units) (lod min : Nat) (data : List Subset) (parts : Children) : Prop where
  gathered : ∀ i < 8, Gathered u (lod + 1) (child (lod + 1) min i) (parts i)
  records : ∀ id codes, Solid u id codes → ∀ i < 8, recordsOf id (parts i).data =
    (recordsOf id data).flatMap fun _ => expected id codes (lod + 1) (child (lod + 1) min i)

-- The records that reach the children are those of the leaf and those that come.
theorem sentPending {id codes lod min data children parts} {coming sent : List Subset} (solid : Solid u id codes)
    (closed : Closed id codes (Q id)) (aligned : Aligned (lod + 2) min) (of : Sent u lod min sent parts)
    (all : recordsOf id sent = (if isLeafNode children then recordsOf id data.data else []) ++ recordsOf id coming)
    (pending : Pending (Q id) id (.node data children) (lod + 1) min (recordsOf id coming)) {i} (octant : i < 8) :
    Pending (Q id) id (children i) lod (child (lod + 1) min i) (recordsOf id (parts i).data) := by
  rw [of.records id codes solid i octant, all]
  cases leaf : isLeafNode children with
  | true =>
    rw [leafMissing leaf octant, if_pos rfl]
    refine Or.inr ⟨rfl, closed.down _ _ _ aligned ?_ i octant⟩
    rcases pending with ⟨held, none⟩ | ⟨absent, comes⟩
    · rw [none, List.append_nil]
      exact (eachLeafLeaf leaf).mp held
    · rw [(eachLeafLeaf leaf).mp absent, List.nil_append]
      exact comes
  | false =>
    rw [if_neg (by simp), List.nil_append]
    rcases pending with ⟨held, none⟩ | ⟨absent, comes⟩
    · rw [none]
      exact Or.inl ⟨(eachLeafNode leaf).mp held i octant, rfl⟩
    · exact Or.inr ⟨(eachLeafNode leaf).mp absent i octant, closed.down _ _ _ aligned comes i octant⟩

theorem childLeaves {lod min data children}
    (leaves : EachLeaf (Leaf u) (.node data children) (lod + 1) min) {i} (octant : i < 8) :
    EachLeaf (Leaf u) (children i) lod (child (lod + 1) min i) := by
  cases leaf : isLeafNode children with
  | true =>
    rw [leafMissing leaf octant]
    exact ⟨fun p mem => (nomatch mem), rfl⟩
  | false => exact (eachLeafNode leaf).mp leaves i octant

-- What is routed lies in the child of its smallest code.
theorem routeWindow {k min id codes c} (points : Collection) (aligned : Aligned (k + 1) min) (near : points.minLod < k)
    (gathered : Gathered u (k + 1) min points) (mem : c ∈ points.data) (same : c.inputId = id)
    (solid : Solid u id codes) {x} (here : x ∈ codesIn (k + 1) min codes) :
    Has k (child k min (getChildMask k points.min)) x := by
  have filled : points.data ≠ [] := List.ne_nil_of_mem mem
  subst same
  obtain ⟨low, high⟩ := gathered.bounds c mem codes solid.1 x here
  rw [gathered.minLod filled] at near
  have prefix_ := lodBetween near low high
  rw [getChildMask, ← digitSame prefix_]
  exact childDigit aligned (codesInMem.mp here).2

theorem routeChild {k min id codes i} (aligned : Aligned (k + 1) min) (octant : i < 8)
    (inside : ∀ x ∈ codesIn (k + 1) min codes, Has k (child k min i) x) :
    codesIn k (child k min i) codes = codesIn (k + 1) min codes ∧
      cellSubset id codes k (child k min i) = cellSubset id codes (k + 1) min ∧
      ∀ j < 8, j ≠ i → codesIn k (child k min j) codes = [] := by
  have window : codesIn k (child k min i) codes = codesIn (k + 1) min codes := by
    refine List.filter_congr fun c mem => ?_
    rw [decide_eq_decide]
    exact ⟨fun has => childWithin aligned octant has, fun has => inside c (codesInMem.mpr ⟨mem, has⟩)⟩
  have start : offset (child k min i) codes = offset min codes := by
    have none : between min (child k min i) codes = [] := by
      refine List.filter_eq_nil_iff.mpr fun c mem => ?_
      rw [decide_eq_true_eq]
      rintro ⟨low, high⟩
      have stop : child k min i ≤ min + 8 ^ (k + 1) := by
        rw [← childEnd]
        exact childLe (Nat.le_of_lt octant)
      have has := inside c (codesInMem.mpr ⟨mem, low, high.trans_le stop⟩)
      exact absurd has.1 (Nat.not_le.mpr high)
    rw [offsetBetween (show min ≤ child k min i from Nat.le_add_right _ _), none]
    rfl
  refine ⟨window, ?_, fun j where_ apart => ?_⟩
  · rw [cellSubset, cellSubset, window, start]
  · refine List.filter_eq_nil_iff.mpr fun c mem => ?_
    rw [decide_eq_true_eq]
    intro has
    have here := inside c (codesInMem.mpr ⟨mem, childWithin aligned where_ has⟩)
    exact apart ((childOf aligned where_ has).symm.trans (childOf aligned octant here))

theorem routeSent {lod min points} (aligned : Aligned (lod + 2) min) (near : points.minLod < lod + 1)
    (gathered : Gathered u (lod + 2) min points) :
    Sent u lod min points.data
      (Function.update (fun _ => empty) (getChildMask (lod + 1) points.min) points) := by
  have octant : getChildMask (lod + 1) points.min < 8 := digitLt _ _
  constructor
  · intro i _
    by_cases own : i = getChildMask (lod + 1) points.min
    · subst own
      rw [Function.update_self]
      refine ⟨fun p mem => ?_, gathered.total, gathered.minLod, fun p mem codes unit x here => ?_⟩
      · obtain ⟨codes, unit, subset, kind⟩ := gathered.whole p mem
        rcases kind with some | rfl
        · have solid : Solid u p.inputId codes := ⟨unit, fun none => some (by rw [none]; rfl)⟩
          obtain ⟨window, same, _⟩ := @routeChild _ _ p.inputId codes _ aligned octant
            fun x here => routeWindow points aligned near gathered mem rfl solid here
          exact ⟨codes, unit, by rw [same]; exact subset, Or.inl (by rw [window]; exact some)⟩
        · exact ⟨[], unit, subset, Or.inr rfl⟩
      · obtain ⟨inside, has⟩ := codesInMem.mp here
        exact gathered.bounds p mem codes unit x (codesInMem.mpr ⟨inside, childWithin aligned octant has⟩)
    · rw [Function.update_of_ne own]
      exact gatheredEmpty _ _
  · intro id codes solid i where_
    cases found : recordsOf id points.data with
    | nil =>
      by_cases own : i = getChildMask (lod + 1) points.min
      · subst own
        rw [Function.update_self, found]
        rfl
      · rw [Function.update_of_ne own]
        rfl
    | cons p others =>
      obtain ⟨mem, same⟩ := List.mem_filter.mp (found ▸ List.mem_cons_self : p ∈ recordsOf id points.data)
      obtain ⟨window, subset, none⟩ := @routeChild _ _ id codes _ aligned octant
        fun x here => routeWindow points aligned near gathered mem (of_decide_eq_true same) solid here
      have each : ∀ q ∈ recordsOf id points.data, codesIn (lod + 2) min codes ≠ [] ∧
          q = cellSubset id codes (lod + 2) min := by
        intro q here
        obtain ⟨inside, own⟩ := List.mem_filter.mp here
        obtain rfl := of_decide_eq_true own
        exact wholeSolid (gathered.whole q inside) solid
      rw [← found]
      by_cases own : i = getChildMask (lod + 1) points.min
      · subst own
        rw [Function.update_self, expected, window, subset]
        have some := (each p (found ▸ List.mem_cons_self)).1
        rw [if_neg some]
        clear found
        generalize recordsOf id points.data = records at each
        induction records with
        | nil => rfl
        | cons q rest ih =>
          obtain ⟨first, later⟩ := List.forall_mem_cons.mp each
          rw [List.flatMap_cons, ← ih later, ← first.2]
          rfl
      · rw [Function.update_of_ne own, expected, if_pos (none i where_ own)]
        simp [recordsOf, empty]

theorem dividesNil {lod min} {s : InputStorageMap × Children} (described : s.1.Describes u.stored)
    (gathered : ∀ i < 8, Gathered u lod (child lod min i) (s.2 i)) : Divides u lod min [] s s :=
  ⟨described, fun id => by simp [countOf, splitData, overChildren], fun i => by simp [splitData], gathered,
    fun _ => rfl⟩

theorem dividesTrans {lod min a b} {x y z : InputStorageMap × Children} (first : Divides u lod min a x y)
    (second : Divides u lod min b y z) : Divides u lod min (a ++ b) x z := by
  have joined : ∀ i, splitData u lod min (a ++ b) i = splitData u lod min a i ++ splitData u lod min b i :=
    fun i => List.flatMap_append
  refine ⟨second.describes, fun id => ?_, fun i => ?_, second.gathered, fun filled => ?_⟩
  · have one := first.counts id
    have two := second.counts id
    have sum : overChildren (fun i => countOf id (splitData u lod min (a ++ b) i)) =
        overChildren (fun i => countOf id (splitData u lod min a i)) +
          overChildren fun i => countOf id (splitData u lod min b i) := by
      rw [← overChildrenAdd]
      refine overChildrenCongr fun i _ => ?_
      rw [joined, countOfAppend]
    rw [countOfAppend, sum]
    omega
  · rw [second.records, first.records, joined, List.append_assoc]
  · rw [second.discarded fun p mem => filled p (List.mem_append_right _ mem),
      first.discarded fun p mem => filled p (List.mem_append_left _ mem)]

theorem dividesSent (env : Readable u reads) {lod min data after} {m : InputStorageMap} (cell : Cell u (lod + 1) min)
    (whole : ∀ p ∈ data, Whole u (lod + 2) min p)
    (divides : Divides u (lod + 1) min data (m, fun _ => empty) after) : Sent u lod min data after.2 := by
  refine ⟨divides.gathered, fun id codes solid i octant => ?_⟩
  rw [divides.records i]
  exact splitRecords env cell whole solid.1 solid.2 octant

theorem splitIds (env : Readable u reads) {lod min data i q} (cell : Cell u lod min)
    (whole : ∀ p ∈ data, Whole u (lod + 1) min p) (mem : q ∈ splitData u lod min data i) :
    ∃ p ∈ data, p.inputId = q.inputId := by
  obtain ⟨p, here, part⟩ := List.mem_flatMap.mp mem
  exact ⟨p, here, (partsAtSame (partsOfMem env cell (whole p here)) i q part).symm⟩

theorem dividesNone (env : Readable u reads) {lod min data id} {before after : InputStorageMap × Children}
    (cell : Cell u lod min) (whole : ∀ p ∈ data, Whole u (lod + 1) min p)
    (divides : Divides u lod min data before after) (none : countOf id data = 0) :
    after.1.refCount id = before.1.refCount id := by
  have count := divides.counts id
  have nothing : overChildren (fun i => countOf id (splitData u lod min data i)) = 0 := by
    refine overChildrenZero fun i _ => Nat.eq_zero_of_not_pos fun some => ?_
    obtain ⟨q, inside, rfl⟩ := countSome some
    obtain ⟨p, mem, same⟩ := splitIds env cell whole inside
    have here := countMem mem
    rw [same, none] at here
    exact Nat.lt_irrefl 0 here
  omega

-- A unit that has points stays in the map.
theorem dividesHolds (env : Readable u reads) {lod min data id} {before after : InputStorageMap × Children}
    (cell : Cell u lod min) (described : before.1.Describes u.stored) (whole : ∀ p ∈ data, Whole u (lod + 1) min p)
    (held : countOf id data ≤ before.1.refCount id) (filled : u.codes id ≠ some [])
    (divides : Divides u lod min data before after) : holds after.1 id = holds before.1 id := by
  refine holdsSame described divides.describes ?_
  by_cases here : 0 < countOf id data
  · have count := divides.counts id
    obtain ⟨p, mem, rfl⟩ := countSome here
    obtain ⟨i, octant, there⟩ := splitSome env cell mem (whole p mem) filled
    obtain ⟨q, inside, same⟩ := List.mem_map.mp there
    have one : 0 < countOf p.inputId (splitData u lod min data i) := same ▸ countMem inside
    have some := one.trans_le (@overChildrenLe (fun i => countOf p.inputId (splitData u lod min data i)) i octant)
    omega
  · rw [dividesNone env cell whole divides (Nat.eq_zero_of_not_pos here)]

/-! ## Arranging a node -/

def listed (parts : Children) : List (Nat × Collection) :=
  ((List.range 8).filter fun i => !(parts i).data.isEmpty).map fun i => (i, parts i)

theorem listedOne {i points} (octant : i < 8) (some : points.data ≠ []) :
    listed (Function.update (fun _ => empty) i points) = [(i, points)] := by
  have only : (List.range 8).filter (fun j => !(Function.update (fun _ => empty) i points j).data.isEmpty) = [i] := by
    have key : ∀ j ∈ List.range 8, (!(Function.update (fun _ => empty) i points j).data.isEmpty) = decide (j = i) := by
      intro j _
      by_cases own : j = i
      · subst own
        rw [Function.update_self]
        simpa using some
      · rw [Function.update_of_ne own]
        simpa [empty] using own
    rw [List.filter_congr key]
    interval_cases i <;> rfl
  rw [listed, only, List.map_cons, Function.update_self]
  rfl

theorem routeFilling {lod min data children s points} (env : Env u reads limit Q) (aligned : Aligned (lod + 2) min)
    (inner : isLeafNode children = false) (near : points.minLod < lod + 1)
    (placed : Placed u Q trees rest (lod + 1) min (.node data children) s points.data)
    (gathered : Gathered u (lod + 2) min points) :
    Filling u Q trees rest lod min data children s
      (fun i => (Function.update (fun _ => empty) (getChildMask (lod + 1) points.min) points i).data) := by
  have octant : getChildMask (lod + 1) points.min < 8 := digitLt _ _
  refine ⟨placed.shaped, fun i where_ => childLeaves placed.leaves where_, fun id codes solid i where_ => ?_,
    placed.describes, fun id => ?_, placed.below, placed.counted⟩
  · refine sentPending solid (env.closed id codes solid) aligned (routeSent aligned near gathered) ?_
      (placed.pending id codes solid) where_
    rw [inner, if_neg (by simp), List.nil_append]
  · have sum := overChildrenUpdate (fun c : Collection => countOf id c.data) (fun _ => empty) points octant
    have none : (overChildren fun _ => countOf id empty.data) = 0 := overChildrenZero fun _ _ => rfl
    have all : (overChildren fun i => countOf id
        (Function.update (fun _ => empty) (getChildMask (lod + 1) points.min) points i).data) =
          countOf id points.data := by
      rw [none, Nat.zero_add] at sum
      exact sum
    rw [all]
    exact placed.counts id

-- What a node gives up to its children: its own records where it was a leaf, and those that come.
def given (data : Collection) (children : Nat → Octree) (points : Collection) : List Subset :=
  (if isLeafNode children = true ∧ 0 < data.pointCount then data.data else []) ++
    if 0 < points.pointCount then points.data else []

def kept (data : Collection) (children : Nat → Octree) : Collection :=
  if isLeafNode children = true ∧ 0 < data.pointCount then empty else data

theorem givenWhole {lod min data children s points}
    (placed : Placed u Q trees rest lod min (.node data children) s points.data)
    (gathered : Gathered u (lod + 1) min points) : ∀ p ∈ given data children points, Whole u (lod + 1) min p := by
  intro p mem
  rcases List.mem_append.mp mem with old | new
  · split at old
    · rename_i split
      exact ((eachLeafLeaf split.1).mp placed.leaves).whole p old
    · cases old
  · split at new
    · exact gathered.whole p new
    · cases new

theorem givenCount {lod min points} (data : Collection) (children : Nat → Octree)
    (gathered : Gathered u (lod + 1) min points) (id : InputId) :
    countOf id (kept data children).data + countOf id (given data children points) ≤
        countOf id data.data + countOf id points.data ∧
      (u.codes id ≠ some [] → countOf id (kept data children).data + countOf id (given data children points) =
        countOf id data.data + countOf id points.data) := by
  have own : countOf id (kept data children).data +
      countOf id (if isLeafNode children = true ∧ 0 < data.pointCount then data.data else []) = countOf id data.data := by
    unfold kept
    split
    · exact Nat.zero_add _
    · exact Nat.add_zero _
  have come : countOf id (if 0 < points.pointCount then points.data else []) ≤ countOf id points.data ∧
      (u.codes id ≠ some [] → countOf id (if 0 < points.pointCount then points.data else []) = countOf id points.data) := by
    split
    · exact ⟨Nat.le_refl _, fun _ => rfl⟩
    · rename_i zero
      refine ⟨Nat.zero_le _, fun filled => ?_⟩
      have sum := gathered.total.symm.trans (Nat.eq_zero_of_not_pos zero)
      rw [countNone gathered.whole sum filled]
      rfl
  rw [given, countOfAppend]
  refine ⟨by omega, fun filled => ?_⟩
  have same := come.2 filled
  omega

theorem givenHeld {lod min data children s points}
    (placed : Placed u Q trees rest lod min (.node data children) s points.data)
    (gathered : Gathered u (lod + 1) min points) (id : InputId) :
    countOf id (given data children points) ≤ s.storageMap.refCount id := by
  have most := (placed.counts id).1
  have fewer := (givenCount data children gathered id).1
  unfold refsIn at most
  omega

theorem givenRecords {lod min data children s points id codes} (solid : Solid u id codes)
    (placed : Placed u Q trees rest lod min (.node data children) s points.data)
    (gathered : Gathered u (lod + 1) min points) : recordsOf id (given data children points) =
      (if isLeafNode children then recordsOf id data.data else []) ++ recordsOf id points.data := by
  have come : recordsOf id (if 0 < points.pointCount then points.data else []) = recordsOf id points.data := by
    split
    · rfl
    · rename_i zero
      have sum := gathered.total.symm.trans (Nat.eq_zero_of_not_pos zero)
      rw [recordsNone gathered.whole sum solid]
      rfl
  rw [given, recordsAppend, come]
  congr 1
  cases leaf : isLeafNode children with
  | false => rfl
  | true =>
    simp only [true_and, if_true]
    split
    · rfl
    · rename_i zero
      have here := (eachLeafLeaf leaf).mp placed.leaves
      rw [recordsNone here.whole (here.total.symm.trans (Nat.eq_zero_of_not_pos zero)) solid]
      rfl

theorem splitFilling {lod min data children s points m parts} (env : Env u reads limit Q) (cell : Cell u (lod + 1) min)
    (placed : Placed u Q trees rest (lod + 1) min (.node data children) s points.data)
    (gathered : Gathered u (lod + 2) min points)
    (divides : Divides u (lod + 1) min (given data children points) (s.storageMap, fun _ => empty) (m, parts)) :
    Filling u Q trees rest lod min (kept data children) children { s with storageMap := m }
      (fun i => (parts i).data) := by
  have whole := givenWhole placed gathered
  have sent := dividesSent env.readable cell whole divides
  have records : ∀ i, (parts i).data = splitData u (lod + 1) min (given data children points) i :=
    fun i => divides.records i
  refine ⟨placed.shaped, fun i octant => childLeaves placed.leaves octant, fun id codes solid i octant => ?_,
    divides.describes, fun id => ?_, placed.below, fun id chunk filled r found => ?_⟩
  · exact sentPending solid (env.closed id codes solid) cell.aligned sent (givenRecords solid placed gathered)
      (placed.pending id codes solid) octant
  · have count : m.refCount id + countOf id (given data children points) = s.storageMap.refCount id +
        overChildren fun i => countOf id (splitData u (lod + 1) min (given data children points) i) := divides.counts id
    obtain ⟨most, exact_⟩ := placed.counts id
    obtain ⟨fewer, same⟩ := givenCount data children gathered id
    have sum : overChildren (fun i => countOf id (parts i).data) =
        overChildren fun i => countOf id (splitData u (lod + 1) min (given data children points) i) :=
      overChildrenCongr fun i _ => by rw [records]
    rw [sum]
    unfold refsIn at most exact_ ⊢
    dsimp only
    refine ⟨by omega, fun filled => ?_⟩
    have first := exact_ filled
    have second := same filled
    omega
  · have stays := dividesHolds env.readable cell placed.describes whole (givenHeld placed gathered id)
      filled divides
    have before := placed.counted id chunk filled r found
    rw [← stays] at before
    exact before

theorem givenTotal {lod min data children points} (leaf : isLeafNode children = true)
    (own : Leaf u (lod + 1) min data) (gathered : Gathered u (lod + 1) min points) :
    ((given data children points).map Subset.count).sum = data.pointCount + points.pointCount := by
  have first : ((if isLeafNode children = true ∧ 0 < data.pointCount then data.data else []).map Subset.count).sum =
      data.pointCount := by
    split
    · exact own.total.symm
    · rename_i zero
      exact (Nat.eq_zero_of_not_pos fun more => zero ⟨leaf, more⟩).symm
  have second : ((if 0 < points.pointCount then points.data else []).map Subset.count).sum = points.pointCount := by
    split
    · exact gathered.total.symm
    · rename_i zero
      exact (Nat.eq_zero_of_not_pos zero).symm
  rw [given, List.map_append, List.sum_append, first, second]

theorem sentSome {lod min data parts} (aligned : Aligned (lod + 2) min) (whole : ∀ p ∈ data, Whole u (lod + 2) min p)
    (sent : Sent u lod min data parts) (some : 0 < (data.map Subset.count).sum) : ∃ i < 8, (parts i).data ≠ [] := by
  obtain ⟨p, mem, counts⟩ : ∃ p ∈ data, p.count ≠ 0 := by
    refine Classical.byContradiction fun none => Nat.ne_of_gt some ?_
    refine List.sum_eq_zero_iff_forall_eq_nat.mpr fun n mem => ?_
    obtain ⟨p, here, rfl⟩ := List.mem_map.mp mem
    exact Classical.byContradiction fun counts => none ⟨p, here, counts⟩
  obtain ⟨codes, unit, rest⟩ := id (whole p mem)
  have present : codesIn (lod + 2) min codes ≠ [] := by
    intro none
    rw [wholeCount (whole p mem) unit, none] at counts
    exact counts rfl
  have solid : Solid u p.inputId codes := ⟨unit, fun none => present (by rw [none]; rfl)⟩
  obtain ⟨i, octant, there⟩ := someChild aligned present
  refine ⟨i, octant, fun none => ?_⟩
  have records := sent.records p.inputId codes solid i octant
  have here : p ∈ recordsOf p.inputId data := List.mem_filter.mpr ⟨mem, decide_eq_true rfl⟩
  have found : cellSubset p.inputId codes (lod + 1) (child (lod + 1) min i) ∈
      (recordsOf p.inputId data).flatMap fun _ => expected p.inputId codes (lod + 1) (child (lod + 1) min i) := by
    refine List.mem_flatMap.mpr ⟨p, here, ?_⟩
    rw [expected, if_neg there]
    exact List.mem_singleton.mpr rfl
  rw [← records, none] at found
  cases found

structure Arranged (u : Units) (Q : InputId → Nat → Nat → List Subset → Prop) (trees rest : InputId → Nat)
    (lod min : Nat) (children : Nat → Octree) (s : State) (data' : Collection) (s' : State) (parts : Children) :
    Prop where
  filling : Filling u Q trees rest lod min data' children s' fun i => (parts i).data
  gathered : ∀ i < 8, Gathered u (lod + 1) (child (lod + 1) min i) (parts i)
  filled : isLeafNode children = true → ∃ i < 8, (parts i).data ≠ []
  refs : s'.refs = s.refs
  discarded : (∀ id, u.codes id ≠ some []) → s'.storageMap.discarded = s.storageMap.discarded
  absent : ∀ id, s.storageMap.refCount id = 0 → s'.storageMap.refCount id = 0

theorem dividesGiven (env : Env u reads limit Q) {lod min data children s points} (cell : Cell u lod min)
    (placed : Placed u Q trees rest lod min (.node data children) s points.data)
    (gathered : Gathered u (lod + 1) min points) :
    ∃ after, ((if isLeafNode children = true ∧ 0 < data.pointCount then
        splitPointsToChildren reads lod min (s.storageMap, fun _ => empty) data
      else some (s.storageMap, fun _ => empty)).bind fun s =>
        if 0 < points.pointCount then splitPointsToChildren reads lod min s points else some s) = some after ∧
      Divides u lod min (given data children points) (s.storageMap, fun _ => empty) after := by
  have enough : ∀ id, countOf id data.data + countOf id points.data ≤ s.storageMap.refCount id := by
    intro id
    have most := (placed.counts id).1
    unfold refsIn at most
    omega
  have nothing : Divides u lod min [] (s.storageMap, fun _ => empty) (s.storageMap, fun _ => empty) :=
    dividesNil placed.describes fun i _ => gatheredEmpty _ _
  have first : ∃ middle, (if isLeafNode children = true ∧ 0 < data.pointCount then
      splitPointsToChildren reads lod min (s.storageMap, fun _ => empty) data
      else some (s.storageMap, fun _ => empty)) = some middle ∧
      Divides u lod min (if isLeafNode children = true ∧ 0 < data.pointCount then data.data else [])
        (s.storageMap, fun _ => empty) middle := by
    split
    · rename_i split
      exact splitPointsSpec env.readable cell placed.describes (fun id => (Nat.le_add_right _ _).trans (enough id))
        ((eachLeafLeaf split.1).mp placed.leaves).whole fun i _ => gatheredEmpty _ _
    · exact ⟨_, rfl, nothing⟩
  obtain ⟨middle, old, one⟩ := first
  have second : ∃ after, (if 0 < points.pointCount then splitPointsToChildren reads lod min middle points
      else some middle) = some after ∧
      Divides u lod min (if 0 < points.pointCount then points.data else []) middle after := by
    split
    · refine splitPointsSpec env.readable cell one.describes (fun id => ?_) gathered.whole one.gathered
      have count := one.counts id
      have most := enough id
      have own : countOf id (if isLeafNode children = true ∧ 0 < data.pointCount then data.data else []) ≤
          countOf id data.data := by
        split
        · exact Nat.le_refl _
        · exact Nat.zero_le _
      change _ + _ = s.storageMap.refCount id + _ at count
      omega
    · exact ⟨_, rfl, dividesNil one.describes one.gathered⟩
  obtain ⟨after, new, two⟩ := second
  refine ⟨after, ?_, dividesTrans one two⟩
  rw [old, Option.bind_some]
  exact new

theorem arrangeSpec (env : Env u reads limit Q) {lod min data children s points} (cell : Cell u (lod + 1) min)
    (placed : Placed u Q trees rest (lod + 1) min (.node data children) s points.data)
    (gathered : Gathered u (lod + 2) min points) (some_ : points.data ≠ []) :
    (isLeafNode children = true ∧ arrange reads limit (lod + 1) min data children s points =
        some (.node (pointsDataAdd data points) children, s, [])) ∨
      ∃ data' s' parts, arrange reads limit (lod + 1) min data children s points =
          some (.node data' children, s', listed parts) ∧
        Arranged u Q trees rest lod min children s data' s' parts := by
  unfold arrange
  split
  · rename_i route
    obtain ⟨near, inner⟩ := route
    have octant : getChildMask (lod + 1) points.min < 8 := digitLt _ _
    refine Or.inr ⟨data, s, _, ?_, routeFilling env cell.aligned inner near placed gathered,
      (routeSent cell.aligned near gathered).gathered, fun leaf => ?_, rfl, fun _ => rfl, fun _ none => none⟩
    · rw [listedOne octant some_]
    · rw [inner] at leaf
      cases leaf
  · split
    · rename_i fits
      exact Or.inl ⟨fits.1, rfl⟩
    · rename_i past
      obtain ⟨⟨m, parts⟩, result, divides⟩ := dividesGiven env cell placed gathered
      have sent := dividesSent env.readable cell (givenWhole placed gathered) divides
      refine Or.inr ⟨kept data children, { s with storageMap := m }, parts, ?_, splitFilling env cell placed gathered divides,
        sent.gathered, fun leaf => ?_, rfl, fun solid => divides.discarded fun p _ => solid p.inputId, fun id none => ?_⟩
      · dsimp only
        rw [result]
        rfl
      · have own := (eachLeafLeaf leaf).mp placed.leaves
        refine sentSome cell.aligned (givenWhole placed gathered) sent ?_
        rw [givenTotal leaf own gathered]
        exact Nat.pos_of_ne_zero fun zero => past ⟨leaf, by omega⟩
      · have fewer := givenHeld placed gathered id
        have same := dividesNone env.readable cell (givenWhole placed gathered) divides
          (Nat.eq_zero_of_le_zero (none ▸ fewer))
        exact same.trans none

end Dewfall.TreeDescend
