import Dewfall.Converter.TreeRegistry

/-! Units added to a registry one after the other. The leaves below the root divide the points of every
unit among them, provided that all codes are in one cell a magnitude can span and that no smallest cell
is given more than a node holds. Collapsing is not treated here. -/
namespace Dewfall.TreeBuildRuns
open General General.Cells General.SortedWindows StorageMap PointSplitter MortonTree TreeBuild TreeSplit TreeInsert
open TreeDescend TreeEnter TreeGraft TreeRegistry

variable {u : Units} {reads : Location → Option Points} {limit base : Nat}

/-! ## Leaves -/

structure LeafRecord where
  tree : Nat
  exponent : Nat
  min : Nat
  subset : Subset
  deriving DecidableEq, Repr

def leaves (tree : Nat) : Octree → Nat → Nat → List LeafRecord
  | .missing, _, _ => []
  | .tree info root, lod, min => leaves info.id root lod min
  | .node data children, lod, min =>
    if isLeafNode children then data.data.map fun p => ⟨tree, lod + 1, min, p⟩
    else (List.range 8).flatMap fun i => leaves tree (children i) (lod - 1) (child lod min i)

def LeafRecord.covers (l : LeafRecord) (id : InputId) (j : Nat) : Bool :=
  l.subset.inputId = id ∧ l.subset.offset ≤ j ∧ j < l.subset.offset + l.subset.count

-- Everything of the unit that the cell has is in the leaf.
abbrev Full (id : InputId) (codes : List Nat) (k min : Nat) (r : List Subset) : Prop := r = expected id codes k min

theorem offsetAt {l : List Nat} (sorted : Sorted l) (a : Nat) {j} (inside : j < l.length) :
    offset a l ≤ j ↔ a ≤ l[j] := by
  induction l generalizing j with
  | nil => cases inside
  | cons c rest ih =>
    obtain ⟨least, later⟩ := List.pairwise_cons.mp sorted
    unfold offset at ih ⊢
    rw [List.countP_cons]
    cases j with
    | zero =>
      by_cases low : c < a
      · simp only [low, decide_true, if_true, List.getElem_cons_zero]
        omega
      · have none : rest.countP (· < a) = 0 := List.countP_eq_zero.mpr fun d mem => by
          have above := least d mem
          simp only [decide_eq_true_eq]
          omega
        simp only [none, low, decide_false, List.getElem_cons_zero]
        simp only [Bool.false_eq_true, if_false]
        omega
    | succ j =>
      have tail := ih later (Nat.lt_of_succ_lt_succ inside)
      rw [List.getElem_cons_succ, ← tail]
      by_cases low : c < a
      · simp only [low, decide_true, if_true]
        omega
      · have none : rest.countP (· < a) = 0 := List.countP_eq_zero.mpr fun d mem => by
          have above := least d mem
          simp only [decide_eq_true_eq]
          omega
        simp only [none, low, decide_false, Bool.false_eq_true, if_false]
        omega

theorem windowAt {l : List Nat} (sorted : Sorted l) {a b : Nat} (le : a ≤ b) {j} (inside : j < l.length) :
    (offset a l ≤ j ∧ j < offset a l + (between a b l).length) ↔ a ≤ l[j] ∧ l[j] < b := by
  have low := offsetAt sorted a inside
  have high := offsetAt sorted b inside
  have width := offsetBetween le l
  omega

theorem flatMapOne {α β : Type*} {f : α → List β} {l : List α} {a b} (once : l.Nodup) (mem : a ∈ l) (here : f a = [b])
    (others : ∀ x ∈ l, x ≠ a → f x = []) : l.flatMap f = [b] := by
  induction l with
  | nil => cases mem
  | cons x rest ih =>
    obtain ⟨fresh, later⟩ := List.nodup_cons.mp once
    rw [List.flatMap_cons]
    by_cases same : x = a
    · subst same
      have nothing : rest.flatMap f = [] := List.flatMap_eq_nil_iff.mpr fun y there =>
        others y (List.mem_cons_of_mem _ there) fun equal => fresh (equal ▸ there)
      rw [here, nothing]
      rfl
    · rw [others x List.mem_cons_self same, List.nil_append]
      exact ih later ((List.mem_cons.mp mem).resolve_left (Ne.symm same)) fun y there =>
        others y (List.mem_cons_of_mem _ there)

structure Shares (id : InputId) (codes : List Nat) (k min : Nat) (l : List LeafRecord) : Prop where
  once : ∀ j (inside : j < codes.length), Has k min codes[j] → ∃ leaf, l.filter (·.covers id j) = [leaf] ∧
    Has leaf.exponent leaf.min codes[j]
  none : ∀ j (inside : j < codes.length), ¬Has k min codes[j] → l.filter (·.covers id j) = []

theorem leafShares {id codes tree k min} {data : List Subset} (sorted : Sorted codes)
    (full : Full id codes k min (recordsOf id data)) :
    Shares id codes k min (data.map fun p => ⟨tree, k, min, p⟩) := by
  have covering : ∀ j, (data.map fun p => (⟨tree, k, min, p⟩ : LeafRecord)).filter (·.covers id j) =
      ((recordsOf id data).filter fun p => p.offset ≤ j ∧ j < p.offset + p.count).map
        fun p => ⟨tree, k, min, p⟩ := by
    intro j
    rw [List.filter_map, recordsOf, List.filter_filter]
    congr 1
    refine List.filter_congr fun p _ => ?_
    simp only [Function.comp, LeafRecord.covers]
    rw [← Bool.decide_and, decide_eq_decide]
    constructor
    · rintro ⟨own, low, high⟩
      exact ⟨⟨low, high⟩, own⟩
    · rintro ⟨⟨low, high⟩, own⟩
      exact ⟨own, low, high⟩
  refine ⟨fun j inside has => ?_, fun j inside outside => ?_⟩
  · have there : codes[j] ∈ codesIn k min codes := codesInMem.mpr ⟨List.getElem_mem inside, has⟩
    rw [covering, full, expected, if_neg (List.ne_nil_of_mem there), List.filter_cons_of_pos]
    · exact ⟨_, rfl, has⟩
    · rw [decide_eq_true_eq]
      exact (windowAt sorted (Nat.le_add_right min _) inside).mpr has
  · rw [covering, full, expected]
    split
    · rfl
    · rw [List.filter_cons_of_neg]
      · rfl
      · rw [decide_eq_true_eq]
        exact fun window => outside ((windowAt sorted (Nat.le_add_right min _) inside).mp window)

-- By induction on the tree: a code of the cell is in one child, and the other children have none of it.
theorem treeShares {id codes tree node lod min} (sorted : Sorted codes) (aligned : Aligned (lod + 1) min)
    (shaped : Shaped node lod) (held : EachLeaf (fun k min c => Full id codes k min (recordsOf id c.data)) node lod min) :
    Shares id codes (lod + 1) min (leaves tree node lod min) := by
  induction node generalizing tree lod min with
  | missing => exact @leafShares id codes tree _ _ [] sorted held
  | tree info root ih => exact ih aligned shaped.2 held
  | node data children ih =>
    unfold leaves
    split
    · rename_i leaf
      exact leafShares sorted ((eachLeafLeaf leaf).mp held)
    · rename_i inner
      have inner_ : isLeafNode children = false := Bool.eq_false_iff.mpr inner
      obtain ⟨j, where_, present⟩ := innerChild inner_
      obtain ⟨level, rfl⟩ := Nat.exists_eq_add_one.mpr (shaped j where_ present).1
      have each := fun i (octant : i < 8) => @ih i tree level _ (childAligned aligned) (shapedChild shaped octant)
        ((eachLeafNode inner_).mp held i octant)
      rw [Nat.add_sub_cancel]
      refine ⟨fun j inside has => ?_, fun j inside outside => ?_⟩
      · have octant : digit (level + 1) codes[j] < 8 := digitLt _ _
        obtain ⟨leaf, one, there⟩ := (each _ octant).once j inside (childDigit aligned has)
        refine ⟨leaf, ?_, there⟩
        rw [List.filter_flatMap]
        refine flatMapOne List.nodup_range (List.mem_range.mpr octant) one fun i mem apart => ?_
        refine (each i (List.mem_range.mp mem)).none j inside fun other => apart ?_
        exact (childOf aligned (List.mem_range.mp mem) other).symm
      · rw [List.filter_flatMap]
        refine List.flatMap_eq_nil_iff.mpr fun i mem => ?_
        have octant := List.mem_range.mp mem
        exact (each i octant).none j inside fun has => outside (childWithin aligned octant has)

theorem leavesEach {L : Nat → Nat → Collection → Prop} {tree node lod min} (each : EachLeaf L node lod min)
    (shaped : Shaped node lod) :
    ∀ leaf ∈ leaves tree node lod min, ∃ c, L leaf.exponent leaf.min c ∧ leaf.subset ∈ c.data := by
  induction node generalizing tree lod min with
  | missing => exact fun _ mem => nomatch mem
  | tree info root ih => exact ih each shaped.2
  | node data children ih =>
    intro leaf mem
    unfold leaves at mem
    split at mem
    · rename_i isLeaf
      obtain ⟨p, here, rfl⟩ := List.mem_map.mp mem
      exact ⟨data, (eachLeafLeaf isLeaf).mp each, here⟩
    · rename_i inner
      have inner_ : isLeafNode children = false := Bool.eq_false_iff.mpr inner
      obtain ⟨i, here, there⟩ := List.mem_flatMap.mp mem
      have octant := List.mem_range.mp here
      exact ih i ((eachLeafNode inner_).mp each i octant) (shapedChild shaped octant) leaf there

/-! ## Units that are added -/

structure Batch where
  id : InputId
  attributesId : Nat
  locations : List Location
  codes : List Nat

def header (b : Batch) : Header := (sortedUnit b.id b.codes).header

def addBatch (reads : Location → Option Points) (r : Registry) (b : Batch) : Option Registry :=
  treeAddPoints reads r (header b) b.attributesId b.locations

def addAll (reads : Location → Option Points) (limit : Nat) (batches : List Batch) : Option Registry :=
  batches.foldlM (addBatch reads) (newRegistry limit)

-- Sorted units with identifiers of their own; their blobs can be read.
structure Accepted (reads : Location → Option Points) (batches : List Batch) : Prop where
  sorted : ∀ b ∈ batches, Sorted b.codes
  width : ∀ b ∈ batches, ∀ c ∈ b.codes, c < 2 ^ 192
  distinct : (batches.map Batch.id).Nodup
  readable : ∀ b ∈ batches, ∃ location, b.locations[0]? = some location ∧ reads location = some (sortedUnit b.id b.codes)

structure Fits (limit : Nat) (batches : List Batch) : Prop where
  room : ∀ min, Aligned 1 min → (batches.map fun b => (codesIn 1 min b.codes).length).sum ≤ limit
  near : ∃ base, Aligned 60 base ∧ ∀ b ∈ batches, Has 60 base (header b).mortonMin ∧ Has 60 base (header b).mortonMax
  top : ∀ b ∈ batches, formatOf b.codes = .m192 → ∀ c ∈ b.codes, c + 8 ^ 59 < 8 ^ 64

def leavesOf (r : Registry) : List LeafRecord :=
  match r.root with
  | none => []
  | some root => leaves root.info.id root.top root.lod root.mortonMin

-- Every point is in one leaf subset, in whose cell its code is; subsets are within their units.
structure Partitioned (r : Registry) (b : Batch) : Prop where
  once : ∀ j (inside : j < b.codes.length), ∃ leaf, (leavesOf r).filter (·.covers b.id j) = [leaf] ∧
    Has leaf.exponent leaf.min b.codes[j]
  within : ∀ leaf ∈ leavesOf r, leaf.subset.inputId = b.id →
    leaf.subset.offset + leaf.subset.count ≤ b.codes.length

def find (batches : List Batch) (id : InputId) : Option Batch := batches.find? fun b => b.id = id

def unitsOf (batches : List Batch) : Units :=
  ⟨fun id => (find batches id).map Batch.codes,
    fun id => ((find batches id).map fun b => (b.attributesId, b.locations)).getD (0, [])⟩

theorem findSome {batches : List Batch} (distinct : (batches.map Batch.id).Nodup) {b} (mem : b ∈ batches) :
    find batches b.id = some b := by
  induction batches with
  | nil => cases mem
  | cons first rest ih =>
    obtain ⟨fresh, later⟩ := List.nodup_cons.mp (List.map_cons ▸ distinct)
    unfold find
    rcases List.mem_cons.mp mem with rfl | there
    · rw [List.find?_cons_of_pos (by simp)]
    · have apart : first.id ≠ b.id := fun same => fresh (same ▸ List.mem_map_of_mem there)
      rw [List.find?_cons_of_neg (by simpa using apart)]
      exact ih later there

theorem findMem {batches : List Batch} {id b} (found : find batches id = some b) : b ∈ batches ∧ b.id = id := by
  have own := List.find?_some found
  exact ⟨List.mem_of_find?_eq_some found, of_decide_eq_true own⟩

theorem unitFind {batches : List Batch} {id codes} (unit : (unitsOf batches).codes id = some codes) :
    ∃ b ∈ batches, b.id = id ∧ b.codes = codes := by
  obtain ⟨b, found, same⟩ := Option.map_eq_some_iff.mp unit
  obtain ⟨mem, own⟩ := findMem found
  exact ⟨b, mem, own, same⟩

theorem unitCodes {batches : List Batch} (distinct : (batches.map Batch.id).Nodup) {b} (mem : b ∈ batches) :
    (unitsOf batches).codes b.id = some b.codes ∧ (unitsOf batches).stored b.id = (b.attributesId, b.locations) := by
  unfold unitsOf
  dsimp only
  rw [findSome distinct mem]
  exact ⟨rfl, rfl⟩

theorem unitsReadable {batches} (accepted : Accepted reads batches) : Readable (unitsOf batches) reads := by
  refine ⟨fun id codes unit => ?_, fun id codes unit => ?_, fun id codes unit => ?_⟩
  · obtain ⟨b, mem, rfl, rfl⟩ := unitFind unit
    exact accepted.sorted b mem
  · obtain ⟨b, mem, rfl, rfl⟩ := unitFind unit
    intro c there
    exact (accepted.width b mem c there).trans_le (by decide)
  · obtain ⟨b, mem, rfl, rfl⟩ := unitFind unit
    rw [(unitCodes accepted.distinct mem).2]
    exact accepted.readable b mem

/-! ## Room in the smallest cells -/

theorem sumAdd {α : Type*} (f g : α → Nat) (l : List α) :
    (l.map fun x => f x + g x).sum = (l.map f).sum + (l.map g).sum := by
  induction l with
  | nil => rfl
  | cons x rest ih =>
    simp only [List.map_cons, List.sum_cons, ih]
    omega

theorem sumLe {α : Type*} {f g : α → Nat} {l : List α} (le : ∀ x ∈ l, f x ≤ g x) : (l.map f).sum ≤ (l.map g).sum := by
  induction l with
  | nil => exact Nat.le_refl 0
  | cons x rest ih =>
    obtain ⟨here, later⟩ := List.forall_mem_cons.mp le
    simp only [List.map_cons, List.sum_cons]
    exact Nat.add_le_add here (ih later)

theorem sumRecords {batches : List Batch} {data : List Subset} (known : ∀ p ∈ data, ∃ b ∈ batches, b.id = p.inputId) :
    (data.map Subset.count).sum ≤ (batches.map fun b => ((recordsOf b.id data).map Subset.count).sum).sum := by
  induction data with
  | nil => exact Nat.zero_le _
  | cons p rest ih =>
    obtain ⟨⟨b, mem, own⟩, later⟩ := List.forall_mem_cons.mp known
    have each : ∀ b : Batch, ((recordsOf b.id (p :: rest)).map Subset.count).sum =
        (if b.id = p.inputId then p.count else 0) + ((recordsOf b.id rest).map Subset.count).sum := by
      intro b
      unfold recordsOf
      by_cases same : b.id = p.inputId
      · rw [List.filter_cons_of_pos (by simpa using same.symm), if_pos same, List.map_cons, List.sum_cons]
      · rw [List.filter_cons_of_neg (by simpa using Ne.symm same), if_neg same, Nat.zero_add]
    have one : p.count ≤ (batches.map fun b => if b.id = p.inputId then p.count else 0).sum := by
      have term := List.single_le_sum (fun _ _ => Nat.zero_le _) _
        (List.mem_map_of_mem (f := fun b : Batch => if b.id = p.inputId then p.count else 0) mem)
      rwa [if_pos own] at term
    simp only [each]
    rw [List.map_cons, List.sum_cons, sumAdd]
    exact Nat.add_le_add one (ih later)

theorem unitsRoom {batches} (accepted : Accepted reads batches) (fits : Fits limit batches) :
    Room (unitsOf batches) limit := by
  intro min data aligned whole once
  have known : ∀ p ∈ data, ∃ b ∈ batches, b.id = p.inputId := by
    intro p mem
    obtain ⟨codes, unit, _⟩ := whole p mem
    obtain ⟨b, there, own, _⟩ := unitFind unit
    exact ⟨b, there, own⟩
  refine (sumRecords known).trans ((sumLe fun b mem => ?_).trans (fits.room min aligned))
  obtain ⟨unit, _⟩ := unitCodes accepted.distinct mem
  have counted : ∀ p ∈ recordsOf b.id data, p.count = (codesIn 1 min b.codes).length := by
    intro p found
    obtain ⟨there, own⟩ := List.mem_filter.mp found
    exact wholeCount (whole p there) (of_decide_eq_true own ▸ unit)
  have same : ((recordsOf b.id data).map Subset.count).sum =
      (recordsOf b.id data).length * (codesIn 1 min b.codes).length := by
    rw [List.map_congr_left counted, List.map_const', List.sum_replicate_nat]
  rw [same]
  by_cases none : b.codes = []
  · rw [none]
    exact Nat.zero_le _
  · have most := once b.id b.codes ⟨unit, none⟩
    calc (recordsOf b.id data).length * (codesIn 1 min b.codes).length
      _ ≤ 1 * (codesIn 1 min b.codes).length := Nat.mul_le_mul_right _ most
      _ = (codesIn 1 min b.codes).length := Nat.one_mul _

/-! ## Runs -/

-- A unit that was added is in the leaves with all its points; the others are not there.
def heldBy (u : Units) (done : List InputId) (id : InputId) (k min : Nat) (r : List Subset) : Prop :=
  if id ∈ done then r = expected id ((u.codes id).getD []) k min else r = []

theorem expectedDown {id codes k min} (aligned : Aligned (k + 1) min) {i} (octant : i < 8) :
    expected id codes k (child k min i) =
      (expected id codes (k + 1) min).flatMap fun _ => expected id codes k (child k min i) := by
  unfold expected
  by_cases none : codesIn (k + 1) min codes = []
  · have below : codesIn k (child k min i) codes = [] := List.filter_eq_nil_iff.mpr fun c mem => by
      rw [decide_eq_true_eq]
      intro has
      have there : c ∈ codesIn (k + 1) min codes := codesInMem.mpr ⟨mem, childWithin aligned octant has⟩
      rw [none] at there
      cases there
    rw [if_pos none, if_pos below]
    rfl
  · rw [if_neg none, List.flatMap_cons, List.flatMap_nil, List.append_nil]

theorem heldClosed {done id codes} (solid : Solid u id codes) : Closed id codes (heldBy u done id) := by
  constructor
  · intro k min r held
    unfold heldBy at held
    rw [solid.1] at held
    split at held
    · rw [held, Option.getD_some, expected]
      split
      · exact Or.inl rfl
      · rename_i some
        exact Or.inr ⟨some, rfl⟩
    · exact Or.inl held
  · intro k min r aligned held i octant
    unfold heldBy at held ⊢
    rw [solid.1] at held ⊢
    split at held
    · rename_i mem
      rw [if_pos mem, held]
      exact (expectedDown aligned octant).symm
    · rename_i absent
      rw [if_neg absent, held]
      rfl

theorem heldArrives {done n codes} (unit : u.codes n = some codes) (fresh : n ∉ done) :
    Arrives u (heldBy u done) (heldBy u (n :: done)) n codes := by
  refine ⟨unit, fun k min r held => ?_, fun id apart => ?_, fun k min none => ?_, fun k min some within => ?_⟩
  · unfold heldBy at held
    rwa [if_neg fresh] at held
  · funext k min r
    unfold heldBy
    simp only [List.mem_cons, apart, false_or]
  · unfold heldBy
    rw [if_pos List.mem_cons_self, unit, Option.getD_some, expected, if_pos none]
  · unfold heldBy
    have whole : codesIn k min codes = codes := betweenAll within
    rw [if_pos List.mem_cons_self, unit, Option.getD_some, expected, whole, if_neg some]

structure Registered (u : Units) (limit base : Nat) (done : List InputId) (r : Registry) : Prop where
  limits : r.nodeLimit = limit
  unknown : ∀ id, id ∉ done → r.chunkTreeRefs id = none
  trees : match r.root with
    | none => done = []
    | some root => Rooted u (heldBy u done) base root r.chunkTreeRefs ∧
      ∀ id, id ∉ done → treesIn (.tree root.info root.top) id = 0

theorem newRegistered (u : Units) (limit base : Nat) : Registered u limit base [] (newRegistry limit) :=
  ⟨rfl, fun _ _ => rfl, rfl⟩

theorem boundsOf {id codes base} (sorted : Sorted codes) (first : Has 60 base (sortedUnit id codes).header.mortonMin)
    (last : Has 60 base (sortedUnit id codes).header.mortonMax) :
    (sortedUnit id codes).header.mortonMin ≤ (sortedUnit id codes).header.mortonMax := by
  change codes.headD 0 ≤ codes.getLastD 0
  cases codes with
  | nil => exact Nat.le_refl 0
  | cons c rest => exact headLe sorted (lastMem (List.cons_ne_nil c rest))

theorem rootForRegistered (env : Readable u reads) {r done n codes} (ground : Ground u base)
    (registered : Registered u limit base done r) (unit : u.codes n = some codes)
    (first : Has 60 base (sortedUnit n codes).header.mortonMin) (last : Has 60 base (sortedUnit n codes).header.mortonMax) :
    ∃ root currentId, rootFor r (sortedUnit n codes).header = some (root, currentId) ∧
      Rooted u (heldBy u done) base root r.chunkTreeRefs ∧ (∀ c ∈ codes, Covers root c) ∧
      ∀ id, id ∉ done → treesIn (.tree root.info root.top) id = 0 := by
  have sorted := env.sorted n codes unit
  have order := boundsOf sorted first last
  have inside : ∀ {root : Root}, Covers root (sortedUnit n codes).header.mortonMin →
      Covers root (sortedUnit n codes).header.mortonMax → ∀ c ∈ codes, Covers root c := by
    intro root low high c mem
    exact ⟨low.1.trans (headLe sorted mem), (leLast sorted mem).trans_lt high.2⟩
  have trees := registered.trees
  cases known : r.root with
  | none =>
    rw [known] at trees
    obtain rfl : done = [] := trees
    have blank : ∀ id codes, Solid u id codes → ∀ k min, heldBy u [] id k min [] := fun _ _ _ _ _ => rfl
    obtain ⟨root, made, rooted, low, high, info, top⟩ := @initializeSpec u base (heldBy u []) (sortedUnit n codes).header
      r.currentId r.chunkTreeRefs ground first last order blank fun id _ _ => registered.unknown id List.not_mem_nil
    refine ⟨root, r.currentId + 1, ?_, rooted, inside low high, fun id _ => ?_⟩
    · unfold rootFor
      rw [known]
      dsimp only
      rw [made]
      rfl
    · rw [info, top]
      rfl
  | some root =>
    rw [known] at trees
    obtain ⟨rooted, absent⟩ := trees
    obtain ⟨root', nextId, chosen, rooted', low, high, same⟩ :=
      rootForSpec known ground (fun id codes solid => heldClosed solid) rooted first last order
    exact ⟨root', nextId, chosen, rooted', inside low high, fun id fresh => (same.trees id).trans (absent id fresh)⟩

theorem addRegistered {batches r done b} (accepted : Accepted reads batches) (fits : Fits limit batches)
    (ground : Ground (unitsOf batches) base)
    (near : Has 60 base (header b).mortonMin ∧ Has 60 base (header b).mortonMax)
    (registered : Registered (unitsOf batches) limit base done r) (mem : b ∈ batches) (fresh : b.id ∉ done) :
    ∃ r', addBatch reads r b = some r' ∧ Registered (unitsOf batches) limit base (b.id :: done) r' := by
  have readable := unitsReadable accepted
  have env : Env (unitsOf batches) reads limit (heldBy (unitsOf batches) (b.id :: done)) :=
    ⟨readable, unitsRoom accepted fits, fun id codes solid => heldClosed solid⟩
  obtain ⟨unit, stored⟩ := unitCodes accepted.distinct mem
  obtain ⟨root, currentId, chosen, rooted, covers, absent⟩ :=
    rootForRegistered readable ground registered unit near.1 near.2
  obtain ⟨r', root', added, limits, known, rooted', trees, refs, _⟩ := addSpec env ground registered.limits chosen
    (heldArrives unit fresh) rooted (absent b.id fresh) stored.symm covers
  refine ⟨r', added, limits, fun id other => ?_, ?_⟩
  · have parts := not_or.mp (mt List.mem_cons.mpr other)
    exact refs id parts.1 (registered.unknown id parts.2)
  · rw [known]
    refine ⟨rooted', fun id other => ?_⟩
    have parts := not_or.mp (mt List.mem_cons.mpr other)
    exact trees id parts.1 (absent id parts.2)

theorem runRegistered {batches rest : List Batch} {r done} (accepted : Accepted reads batches) (fits : Fits limit batches)
    (ground : Ground (unitsOf batches) base)
    (near : ∀ b ∈ batches, Has 60 base (header b).mortonMin ∧ Has 60 base (header b).mortonMax)
    (registered : Registered (unitsOf batches) limit base done r) (mem : ∀ b ∈ rest, b ∈ batches)
    (fresh : (rest.map Batch.id).Nodup ∧ ∀ b ∈ rest, b.id ∉ done) :
    ∃ r', rest.foldlM (addBatch reads) r = some r' ∧
      Registered (unitsOf batches) limit base ((rest.map Batch.id).reverse ++ done) r' := by
  induction rest generalizing r done with
  | nil => exact ⟨r, rfl, registered⟩
  | cons b later ih =>
    obtain ⟨here, others⟩ := List.forall_mem_cons.mp mem
    obtain ⟨fresh_, free⟩ := fresh
    obtain ⟨apart, once⟩ := List.nodup_cons.mp (List.map_cons ▸ fresh_)
    obtain ⟨next, step, one⟩ := addRegistered accepted fits ground (near b here) registered here (free b List.mem_cons_self)
    have left : ∀ c ∈ later, c.id ∉ b.id :: done := by
      intro c there mem
      rcases List.mem_cons.mp mem with same | old
      · exact apart (same ▸ List.mem_map_of_mem there)
      · exact free c (List.mem_cons_of_mem _ there) old
    obtain ⟨r', result, all⟩ := ih one others ⟨once, left⟩
    refine ⟨r', ?_, ?_⟩
    · rw [List.foldlM_cons, step]
      exact result
    · rw [List.map_cons, List.reverse_cons, List.append_assoc]
      exact all

theorem registeredPartitioned {batches r done b} (accepted : Accepted reads batches)
    (registered : Registered (unitsOf batches) limit base done r) (mem : b ∈ batches) (there : b.id ∈ done) :
    Partitioned r b := by
  obtain ⟨unit, _⟩ := unitCodes accepted.distinct mem
  have trees := registered.trees
  cases known : r.root with
  | none =>
    rw [known] at trees
    obtain rfl : done = [] := trees
    cases there
  | some root =>
    rw [known] at trees
    have rooted := trees.1
    have placed := rooted.placed 0
    have listed : leavesOf r = leaves root.info.id root.top root.lod root.mortonMin := by
      unfold leavesOf
      rw [known]
    constructor
    · intro j inside
      have solid : Solid (unitsOf batches) b.id b.codes := ⟨unit, List.ne_nil_of_length_pos (Nat.zero_lt_of_lt inside)⟩
      have held := pendingNil (heldClosed solid) rooted.aligned placed.shaped (placed.pending b.id b.codes solid)
      have full : EachLeaf (fun k min c => Full b.id b.codes k min (recordsOf b.id c.data)) root.top root.lod
          root.mortonMin := by
        refine eachLeafImp (fun k min c here => ?_) held
        unfold heldBy at here
        rwa [if_pos there, unit] at here
      have covered : Has (root.lod + 1) root.mortonMin b.codes[j] := by
        refine Classical.byContradiction fun beyond => ?_
        have apart : Outside 0 b.codes[j] (root.lod + 1) root.mortonMin := by
          intro c has within
          have same : c = b.codes[j] := by
            unfold Has at has
            omega
          exact beyond (same ▸ within)
        have nothing := rooted.outside b.id b.codes solid 0 _ apart
        have here : b.codes[j] ∈ codesIn 0 b.codes[j] b.codes := codesInMem.mpr ⟨List.getElem_mem inside, hasSelf⟩
        unfold heldBy at nothing
        rw [if_pos there, unit, Option.getD_some, expected, if_neg (List.ne_nil_of_mem here)] at nothing
        cases nothing
      rw [listed]
      exact (treeShares (accepted.sorted b mem) rooted.aligned placed.shaped full).once j inside covered
    · intro leaf found own
      rw [listed] at found
      obtain ⟨c, here, within⟩ := leavesEach placed.leaves placed.shaped leaf found
      obtain ⟨codes, same, subset, _⟩ := here.whole leaf.subset within
      rw [own] at same subset
      obtain rfl : b.codes = codes := Option.some.inj (unit.symm.trans same)
      rw [subset]
      change offset leaf.min b.codes + (codesIn leaf.exponent leaf.min b.codes).length ≤ b.codes.length
      rw [← offsetBetween (Nat.le_add_right leaf.min _)]
      exact List.countP_le_length

theorem groundOf {batches} (fits : Fits limit batches) : ∃ base, Ground (unitsOf batches) base ∧
    ∀ b ∈ batches, Has 60 base (header b).mortonMin ∧ Has 60 base (header b).mortonMax := by
  obtain ⟨base, aligned, near⟩ := fits.near
  refine ⟨base, ⟨aligned, fun id codes unit wide => ?_⟩, near⟩
  obtain ⟨b, mem, _, rfl⟩ := unitFind unit
  exact fits.top b mem wide

theorem pointsPartitioned {batches} (accepted : Accepted reads batches) (fits : Fits limit batches) :
    ∃ r, addAll reads limit batches = some r ∧ ∀ b ∈ batches, Partitioned r b := by
  obtain ⟨base, ground, near⟩ := groundOf fits
  obtain ⟨r, result, registered⟩ := runRegistered accepted fits ground near
    (newRegistered (unitsOf batches) limit base) (fun _ mem => mem) ⟨accepted.distinct, fun _ _ => List.not_mem_nil⟩
  refine ⟨r, result, fun b mem => registeredPartitioned accepted registered mem ?_⟩
  rw [List.append_nil, List.mem_reverse]
  exact List.mem_map_of_mem mem

/-! Leaves of three points: the first unit is split to its last digits, the second has no points, and the
third has the root re-parented. -/

def batchOf (n : Nat) (codes : List Nat) : Batch := ⟨⟨n, 0⟩, 0, [⟨0, n, 1⟩], codes⟩

def readFrom (batches : List Batch) (location : Location) : Option Points :=
  (batches.find? fun b => b.locations[0]? = some location).map fun b => sortedUnit b.id b.codes

def several : List Batch := [batchOf 1 [1, 2, 3, 9], batchOf 2 [], batchOf 3 [70, 2 ^ 40]]

theorem severalPartitioned : ∃ r, addAll (readFrom several) 3 several = some r ∧ ∀ b ∈ several, Partitioned r b := by
  refine pointsPartitioned ⟨by decide, by decide, by decide, fun b mem => ?_⟩
    ⟨fun min aligned => ?_, ⟨0, by decide, by decide⟩, by decide⟩
  · simp only [several, List.mem_cons, List.not_mem_nil, or_false] at mem
    rcases mem with rfl | rfl | rfl
    · exact ⟨⟨0, 1, 1⟩, rfl, by decide⟩
    · exact ⟨⟨0, 2, 1⟩, rfl, by decide⟩
    · exact ⟨⟨0, 3, 1⟩, rfl, by decide⟩
  · obtain ⟨q, rfl⟩ := aligned
    simp only [several, batchOf, codesIn, between, List.map_cons, List.map_nil, List.sum_cons, List.sum_nil,
      List.filter_cons, List.filter_nil, decide_eq_true_eq]
    split <;> split <;> split <;> split <;> split <;> split <;> simp only [List.length_cons, List.length_nil] <;> omega

/-! More equal codes than a node holds. The smallest cell of the smallest tree is split again, which the
source asserts does not happen. -/

def equal : List Batch := [batchOf 1 [5, 5, 5]]

theorem equalCodesLost : ¬∀ reads limit batches, Accepted reads batches →
    ∃ r, addAll reads limit batches = some r ∧ ∀ b ∈ batches, Partitioned r b := by
  intro all
  have accepted : Accepted (readFrom equal) equal := by
    refine ⟨by decide, by decide, by decide, fun b mem => ?_⟩
    obtain rfl := List.mem_singleton.mp mem
    exact ⟨⟨0, 1, 1⟩, rfl, by decide⟩
  obtain ⟨r, added, _⟩ := all (readFrom equal) 2 equal accepted
  have stuck : (addAll (readFrom equal) 2 equal).isSome = false := by decide
  rw [added] at stuck
  cases stuck

end Dewfall.TreeBuildRuns
