import Dewfall.Converter.TreeSplit

/-! One insertion into the tree of trees. What a leaf may hold of a unit is a parameter that splitting
respects; references, tree counts and discarded blobs are balanced against the rest of the forest.
Neither collapsing nor the registry is treated here. -/
namespace Dewfall.TreeInsert
open General General.Cells General.SortedWindows StorageMap PointSplitter MortonTree TreeBuild TreeSplit

variable {u : Units} {reads : Location → Option Points}

/-! ## Reading a tree -/

-- The records of the node's own tree, and those of all trees below it.
def refsIn : Octree → InputId → Nat
  | .missing, _ => 0
  | .tree _ _, _ => 0
  | .node data children, id => countOf id data.data + overChildren fun i => refsIn (children i) id

def holds (m : InputStorageMap) (id : InputId) : Nat := if m.contains id then 1 else 0

def treesIn : Octree → InputId → Nat
  | .missing, _ => 0
  | .tree info root, id => holds info.storageMap id + treesIn root id
  | .node _ children, id => overChildren fun i => treesIn (children i) id

def discardedIn : Octree → Location → Nat
  | .missing, _ => 0
  | .tree info root, l => info.storageMap.discarded.count l + discardedIn root l
  | .node _ children, l => overChildren fun i => discardedIn (children i) l

-- A missing child is a leaf that holds nothing.
def EachLeaf (L : Nat → Nat → Collection → Prop) : Octree → Nat → Nat → Prop
  | .missing, lod, min => L (lod + 1) min empty
  | .tree _ root, lod, min => EachLeaf L root lod min
  | .node data children, lod, min =>
    if isLeafNode children then L (lod + 1) min data
    else ∀ i < 8, EachLeaf L (children i) (lod - 1) (child lod min i)

def Octree.isNode : Octree → Bool
  | .node _ _ => true
  | _ => false

def Shaped : Octree → Nat → Prop
  | .missing, _ => True
  | .tree _ root, lod => Octree.isNode root = true ∧ Shaped root lod
  | .node _ children, lod => ∀ i < 8, (children i).present = true →
    0 < lod ∧ (Octree.isNode (children i) = true ↔ lod % 5 ≠ 0) ∧ Shaped (children i) (lod - 1)

-- Exact for units that have points.
def Balanced (u : Units) (id : InputId) (refs records : Nat) : Prop :=
  records ≤ refs ∧ (u.codes id ≠ some [] → refs = records)

def TreesBalanced (u : Units) : Octree → Prop
  | .missing => True
  | .tree info root => info.storageMap.Describes u.stored ∧
    (∀ id, Balanced u id (info.storageMap.refCount id) (refsIn root id)) ∧ TreesBalanced u root
  | .node _ children => ∀ i < 8, TreesBalanced u (children i)

structure Leaf (u : Units) (k min : Nat) (c : Collection) : Prop where
  whole : ∀ p ∈ c.data, Whole u k min p
  total : c.pointCount = (c.data.map Subset.count).sum

abbrev Holds (Q : Nat → Nat → List Subset → Prop) (id : InputId) : Octree → Nat → Nat → Prop :=
  EachLeaf fun k min c => Q k min (recordsOf id c.data)

abbrev Absent (id : InputId) : Octree → Nat → Nat → Prop := EachLeaf fun _ _ c => recordsOf id c.data = []

-- The unit is in the node as `Q` says, or it is on its way into the node.
def Pending (Q : Nat → Nat → List Subset → Prop) (id : InputId) (node : Octree) (lod min : Nat)
    (coming : List Subset) : Prop :=
  (Holds Q id node lod min ∧ coming = []) ∨ (Absent id node lod min ∧ Q (lod + 1) min coming)

structure Closed (id : InputId) (codes : List Nat) (Q : Nat → Nat → List Subset → Prop) : Prop where
  known : ∀ k min r, Q k min r → r = [] ∨ codesIn k min codes ≠ [] ∧ r = [cellSubset id codes k min]
  down : ∀ k min r, Aligned (k + 1) min → Q (k + 1) min r → ∀ i < 8,
    Q k (child k min i) (r.flatMap fun _ => expected id codes k (child k min i))

/-! ## Sums over children -/

theorem overChildrenUpdate {α : Type*} (f : α → Nat) (children : Nat → α) (x : α) {i} (octant : i < 8) :
    overChildren (fun j => f (Function.update children i x j)) + f (children i) =
      overChildren (fun j => f (children j)) + f x := by
  have each : ∀ l : List Nat, l.Nodup → ((l.map fun j => f (Function.update children i x j)).sum +
      if i ∈ l then f (children i) else 0) = (l.map fun j => f (children j)).sum + if i ∈ l then f x else 0 := by
    intro l once
    induction l with
    | nil => rfl
    | cons j rest ih =>
      obtain ⟨fresh, later⟩ := List.nodup_cons.mp once
      have tail := ih later
      simp only [List.map_cons, List.sum_cons, List.mem_cons]
      by_cases same : i = j
      · subst same
        simp only [fresh, if_false, true_or, if_true, Function.update_self] at tail ⊢
        omega
      · rw [Function.update_of_ne (Ne.symm same)]
        simp only [same, false_or]
        omega
  have all := each (List.range 8) List.nodup_range
  rw [if_pos (List.mem_range.mpr octant), if_pos (List.mem_range.mpr octant)] at all
  exact all

theorem overChildrenZero {f : Nat → Nat} (zero : ∀ i < 8, f i = 0) : overChildren f = 0 := by
  rw [overChildrenCongr zero]
  rfl

/-! ## Leaves -/

theorem leafMissing {children : Nat → Octree} (leaf : isLeafNode children = true) {i} (octant : i < 8) :
    children i = .missing := by
  have absent := List.all_eq_true.mp leaf i (List.mem_range.mpr octant)
  cases here : children i with
  | missing => rfl
  | node data children =>
    rw [here] at absent
    cases absent
  | tree info root =>
    rw [here] at absent
    cases absent

theorem notLeaf {children : Nat → Octree} {i} (octant : i < 8) (present : (children i).present = true) :
    isLeafNode children = false := by
  rw [Bool.eq_false_iff]
  intro leaf
  rw [leafMissing leaf octant] at present
  cases present

theorem eachLeafImp {L M : Nat → Nat → Collection → Prop} {node lod min} (imp : ∀ k min c, L k min c → M k min c)
    (each : EachLeaf L node lod min) : EachLeaf M node lod min := by
  induction node generalizing lod min with
  | missing => exact imp _ _ _ each
  | tree _ root ih => exact ih each
  | node data children ih =>
    unfold EachLeaf at each ⊢
    split at each
    · rename_i leaf
      rw [if_pos leaf]
      exact imp _ _ _ each
    · rename_i inner
      rw [if_neg inner]
      exact fun i octant => ih i (each i octant)

theorem eachLeafNode {L : Nat → Nat → Collection → Prop} {data children lod min}
    (inner : isLeafNode children = false) :
    EachLeaf L (.node data children) lod min ↔ ∀ i < 8, EachLeaf L (children i) (lod - 1) (child lod min i) := by
  rw [EachLeaf, inner]
  simp

theorem eachLeafLeaf {L : Nat → Nat → Collection → Prop} {data children lod min}
    (leaf : isLeafNode children = true) : EachLeaf L (.node data children) lod min ↔ L (lod + 1) min data := by
  rw [EachLeaf, leaf, if_pos rfl]

theorem countRecords (id : InputId) (data : List Subset) : countOf id data = (recordsOf id data).length :=
  List.countP_eq_length_filter

theorem recordsAppend (id : InputId) (a b : List Subset) : recordsOf id (a ++ b) = recordsOf id a ++ recordsOf id b :=
  List.filter_append _ _

/-! ## Moving storage to a sub-tree -/

def CountedAt (s : Moving) (base : Nat) (id : InputId) : Prop :=
  ∀ r, s.refs id = some r → r.treeCount = base + holds s.parent id + holds s.child id

structure Moved (u : Units) (data : List Subset) (before after : Moving) : Prop where
  parent : after.parent.Describes u.stored
  child : after.child.Describes u.stored
  given : ∀ id, after.parent.refCount id + countOf id data = before.parent.refCount id
  taken : ∀ id, after.child.refCount id = before.child.refCount id + countOf id data
  parentDiscarded : after.parent.discarded = before.parent.discarded
  childDiscarded : after.child.discarded = before.child.discarded
  counted : ∀ id base, isChunk id = true → CountedAt before base id → CountedAt after base id
  points : ∀ id, (after.refs id).map ChunkRef.pointCount = (before.refs id).map ChunkRef.pointCount

theorem holdsSame {m m' : InputStorageMap} (described : m.Describes u.stored) (described' : m'.Describes u.stored)
    {id} (same : 0 < m'.refCount id ↔ 0 < m.refCount id) : holds m' id = holds m id := by
  unfold holds
  have one := @InputStorageMap.containsIff _ _ id described
  have two := @InputStorageMap.containsIff _ _ id described'
  by_cases here : 0 < m.refCount id
  · rw [if_pos (one.mpr here), if_pos (two.mpr (same.mpr here))]
  · rw [if_neg (fun there => here (one.mp there)), if_neg (fun there => here (same.mp (two.mp there)))]

theorem holdsZero {m : InputStorageMap} (described : m.Describes u.stored) {id} : holds m id = 0 ↔ m.refCount id = 0 := by
  have iff := @InputStorageMap.containsIff _ _ id described
  unfold holds
  cases here : m.contains id with
  | true =>
    rw [here] at iff
    have positive := iff.mp rfl
    simp only [if_true]
    omega
  | false =>
    rw [here] at iff
    simp only [Bool.false_eq_true, false_iff, if_false, true_iff] at iff ⊢
    omega

theorem moveOneSpec {s : Moving} {p : Subset} (parent : s.parent.Describes u.stored) (child : s.child.Describes u.stored)
    (positive : 0 < s.parent.refCount p.inputId) :
    ∃ after, moveStorageLocation s p = some after ∧ Moved u [p] s after := by
  obtain ⟨left, given, describesLeft, discardedLeft, countsLeft⟩ := InputStorageMap.dereferenceSpec parent positive
  have childStep : ∃ m, (if (!s.child.contains p.inputId) = true then
        some (s.child.addStorage p.inputId (u.stored p.inputId).1 (u.stored p.inputId).2)
      else s.child.addRef p.inputId) = some m ∧ m.Describes u.stored ∧ m.discarded = s.child.discarded ∧
        ∀ other, m.refCount other = if other = p.inputId then s.child.refCount p.inputId + 1 else s.child.refCount other := by
    have iff := @InputStorageMap.containsIff _ _ p.inputId child
    split
    · rename_i absent
      have zero : s.child.refCount p.inputId = 0 := by
        refine Nat.eq_zero_of_not_pos fun here => ?_
        rw [iff.mpr here] at absent
        cases absent
      obtain ⟨described, discarded, counts⟩ := @InputStorageMap.addStorageSpec _ _ p.inputId child
        ((InputStorageMap.refCountZero child).mp zero) (u.stored p.inputId).1 (u.stored p.inputId).2 rfl
      exact ⟨_, rfl, described, discarded, fun other => by rw [counts, zero]⟩
    · rename_i present
      have here : s.child.contains p.inputId = true := by simpa using present
      exact InputStorageMap.addRefSpec child (iff.mp here)
  obtain ⟨m, taken, describesChild, discardedChild, countsChild⟩ := childStep
  have single : ∀ id, countOf id [p] = if id = p.inputId then 1 else 0 := by
    intro id
    rw [countOfCons]
    simp [countOf, eq_comm]
  unfold moveStorageLocation
  rw [given]
  dsimp only
  rw [taken]
  refine ⟨_, rfl, describesLeft, describesChild, fun id => ?_, fun id => ?_, discardedLeft, discardedChild,
    fun id base chunk counted => ?_, fun id => ?_⟩
  · rw [single, countsLeft]
    split
    · rename_i same
      rw [same]
      omega
    · rfl
  · rw [single, countsChild]
    split
    · rename_i same
      rw [same]
    · rfl
  · intro r found
    dsimp only at found ⊢
    by_cases own : id = p.inputId
    · subst own
      rw [chunk, if_pos rfl, Function.update_self] at found
      obtain ⟨old, there, rfl⟩ := Option.map_eq_some_iff.mp found
      have count := counted old there
      have has : holds s.parent p.inputId = 1 := by
        unfold holds
        rw [if_pos ((InputStorageMap.containsIff parent).mpr positive)]
      have now : holds m p.inputId = 1 := by
        have gains : 0 < m.refCount p.inputId := by
          rw [countsChild, if_pos rfl]
          exact Nat.succ_pos _
        unfold holds
        rw [if_pos ((InputStorageMap.containsIff describesChild).mpr gains)]
      have before : holds s.child p.inputId + (if (!s.child.contains p.inputId) = true then 1 else 0) = 1 := by
        unfold holds
        cases s.child.contains p.inputId <;> rfl
      have released : holds left p.inputId +
          (if (s.parent.contains p.inputId && !left.contains p.inputId) = true then 1 else 0) = 1 := by
        rw [(InputStorageMap.containsIff parent).mpr positive]
        unfold holds
        cases left.contains p.inputId <;> rfl
      rw [has] at count
      rw [now]
      dsimp only
      omega
    · have frame : s.refs id = some r := by
        split at found
        · rwa [Function.update_of_ne own] at found
        · exact found
      have before := counted r frame
      have first : holds left id = holds s.parent id := by
        refine holdsSame parent describesLeft ?_
        rw [countsLeft, if_neg own]
      have second : holds m id = holds s.child id := by
        refine holdsSame child describesChild ?_
        rw [countsChild, if_neg own]
      rw [first, second]
      exact before
  · dsimp only
    split
    · by_cases own : id = p.inputId
      · subst own
        rw [Function.update_self]
        cases s.refs p.inputId <;> rfl
      · rw [Function.update_of_ne own]
    · rfl

theorem moveSpec {data : List Subset} {s : Moving} (parent : s.parent.Describes u.stored)
    (child : s.child.Describes u.stored) (held : ∀ id, countOf id data ≤ s.parent.refCount id) :
    ∃ after, data.foldlM moveStorageLocation s = some after ∧ Moved u data s after := by
  induction data generalizing s with
  | nil => exact ⟨s, rfl, parent, child, fun _ => rfl, fun _ => rfl, rfl, rfl, fun _ _ _ h => h, fun _ => rfl⟩
  | cons p rest ih =>
    have here := held p.inputId
    rw [countOfCons, if_pos rfl] at here
    obtain ⟨next, step, one⟩ := moveOneSpec parent child (by omega : 0 < s.parent.refCount p.inputId)
    have split : ∀ id, countOf id (p :: rest) = countOf id [p] + countOf id rest :=
      fun id => countOfAppend id [p] rest
    have heldNext : ∀ id, countOf id rest ≤ next.parent.refCount id := by
      intro id
      have old := held id
      have given := one.given id
      rw [split] at old
      omega
    obtain ⟨after, result, all⟩ := ih one.parent one.child heldNext
    refine ⟨after, ?_, all.parent, all.child, fun id => ?_, fun id => ?_, all.parentDiscarded.trans one.parentDiscarded,
      all.childDiscarded.trans one.childDiscarded, fun id base chunk counted => ?_, fun id => ?_⟩
    · rw [List.foldlM_cons, step]
      exact result
    · rw [split, ← one.given, ← all.given]
      omega
    · rw [split, all.taken, one.taken]
      omega
    · exact all.counted id base chunk (one.counted id base chunk counted)
    · rw [all.points, one.points]

end Dewfall.TreeInsert
