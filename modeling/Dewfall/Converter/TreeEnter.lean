import Dewfall.Converter.TreeDescend

/-! Entering the children of a node, and the whole of an insertion: what comes is placed, and nothing else
of the tree is changed. How trees are chosen and re-parented is not treated here. -/
namespace Dewfall.TreeEnter
open General General.Cells General.SortedWindows StorageMap PointSplitter MortonTree TreeBuild TreeSplit TreeInsert
open TreeDescend

variable {u : Units} {reads : Location → Option Points} {limit : Nat}
variable {Q : InputId → Nat → Nat → List Subset → Prop} {trees rest : InputId → Nat}

-- All children but one.
def others (i : Nat) (f : Nat → Nat) : Nat := overChildren (Function.update f i 0)

theorem othersSum {i} (f : Nat → Nat) (octant : i < 8) : overChildren f = f i + others i f := by
  have sum := overChildrenUpdate (fun n : Nat => n) f 0 octant
  change others i f + f i = overChildren f + 0 at sum
  omega

theorem othersCongr {i : Nat} {f g : Nat → Nat} (same : ∀ j, j ≠ i → f j = g j) : others i f = others i g := by
  refine overChildrenCongr fun j _ => ?_
  by_cases own : j = i
  · subst own
    rw [Function.update_self, Function.update_self]
  · rw [Function.update_of_ne own, Function.update_of_ne own]
    exact same j own

theorem sumUpdate {α : Type*} {i} (f : α → Nat) (children : Nat → α) (x : α) (octant : i < 8) :
    overChildren (fun j => f (Function.update children i x j)) = f x + others i fun j => f (children j) := by
  have kept := @othersCongr i (fun j => f (Function.update children i x j)) (fun j => f (children j))
    fun j apart => by rw [Function.update_of_ne apart]
  rw [othersSum _ octant, Function.update_self, kept]

-- A child that is missing is entered as an empty node.
def entered (child : Octree) : Octree := if child.present then child else emptyNode

theorem enteredLeaf {L : Nat → Nat → Collection → Prop} {node lod min} :
    EachLeaf L (entered node) lod min ↔ EachLeaf L node lod min := by
  cases node <;> rfl

theorem enteredBelow {node} : TreesBalanced u (entered node) ↔ TreesBalanced u node := by
  cases node with
  | missing => exact ⟨fun _ => trivial, fun _ _ _ => trivial⟩
  | node data children => rfl
  | tree info root => rfl

theorem enteredRefs {node id} : refsIn (entered node) id = refsIn node id := by cases node <;> rfl

theorem enteredTrees {node id} : treesIn (entered node) id = treesIn node id := by cases node <;> rfl

theorem enteredDiscarded {node l} : discardedIn (entered node) l = discardedIn node l := by cases node <;> rfl

theorem enteredShaped {node lod} (shaped : Shaped node lod) : Shaped (entered node) lod := by
  cases node with
  | missing => exact fun _ _ there => nomatch there
  | node data children => exact shaped
  | tree info root => exact shaped

-- What is asked of the insertion one level below.
def Inserts (u : Units) (Q : InputId → Nat → Nat → List Subset → Prop) (insert : Insert) (lod : Nat) : Prop :=
  ∀ trees rest min data children s points, Cell u lod min →
    Placed u Q trees rest lod min (.node data children) s points.data → Gathered u (lod + 1) min points →
    points.data ≠ [] → ∃ data' children' s', insert min (.node data children) s points = some (.node data' children', s') ∧
      Placed u Q trees rest lod min (.node data' children') s' [] ∧
      Kept u (.node data children, s) (.node data' children', s')

theorem cellChild {lod min i} (cell : Cell u (lod + 1) min) (octant : i < 8) : Cell u lod (child (lod + 1) min i) := by
  refine ⟨childAligned cell.aligned, cell.top.imp (Nat.lt_of_le_of_lt ?_) fun room id codes unit wide c mem => ?_⟩
  · rw [childStop, ← childEnd (lod + 1) min]
    exact childLe octant
  · have more : 8 ^ lod ≤ 8 ^ (lod + 1) := Nat.pow_le_pow_right (by decide) (Nat.le_succ lod)
    exact (Nat.add_le_add_left more c).trans_lt (room id codes unit wide c mem)

-- The child has taken what came to it.
structure Taken (u : Units) (Q : InputId → Nat → Nat → List Subset → Prop) (trees rest : InputId → Nat)
    (lod min : Nat) (x : Octree) (s : State) : Prop where
  present : x.present = true
  kind : Octree.isNode x = true ↔ (lod + 1) % 5 ≠ 0
  placed : Placed u Q trees rest lod min x s []

theorem fillStep {lod min data children s s' coming i x} (env : Env u reads limit Q) (cell : Cell u (lod + 1) min)
    (octant : i < 8) (filling : Filling u Q trees rest lod min data children s coming)
    (taken : Taken u Q (fun id => trees id + others i fun j => treesIn (children j) id)
      (fun id => rest id + countOf id data.data + (others i fun j => refsIn (children j) id) +
        others i fun j => countOf id (coming j)) lod (child (lod + 1) min i) x s') :
    Filling u Q trees rest lod min data (Function.update children i x) s' (Function.update coming i []) := by
  obtain ⟨present, kind, placed⟩ := taken
  have aligned := (cellChild cell octant).aligned
  refine ⟨fun j where_ there => ?_, fun j where_ => ?_, fun id codes solid j where_ => ?_, placed.describes,
    fun id => ?_, fun j where_ => ?_, fun id chunk filled r found => ?_⟩
  · by_cases own : j = i
    · subst own
      rw [Function.update_self]
      exact ⟨Nat.succ_pos lod, kind, placed.shaped⟩
    · rw [Function.update_of_ne own] at there ⊢
      exact filling.shaped j where_ there
  · by_cases own : j = i
    · subst own
      rw [Function.update_self]
      exact placed.leaves
    · rw [Function.update_of_ne own]
      exact filling.leaves j where_
  · by_cases own : j = i
    · subst own
      rw [Function.update_self, Function.update_self]
      exact Or.inl ⟨pendingNil (env.closed id codes solid) aligned placed.shaped (placed.pending id codes solid), rfl⟩
    · rw [Function.update_of_ne own, Function.update_of_ne own]
      exact filling.pending id codes solid j where_
  · obtain ⟨most, exact_⟩ := placed.counts id
    have none : countOf id [] = 0 := rfl
    unfold refsIn
    rw [sumUpdate (fun node => refsIn node id) children x octant, sumUpdate (fun l => countOf id l) coming [] octant]
    rw [none] at most exact_ ⊢
    refine ⟨by omega, fun filled => ?_⟩
    have same := exact_ filled
    omega
  · by_cases own : j = i
    · subst own
      rw [Function.update_self]
      exact placed.below
    · rw [Function.update_of_ne own]
      exact filling.below j where_
  · have count := placed.counted id chunk filled r found
    rw [treesIn, sumUpdate (fun node => treesIn node id) children x octant]
    omega

theorem keptChild {data children s s' i x} (octant : i < 8)
    (points : ∀ id, (s'.refs id).map ChunkRef.pointCount = (s.refs id).map ChunkRef.pointCount)
    (discarded : (∀ id, u.codes id ≠ some []) → ∀ l, s'.storageMap.discarded.count l + discardedIn x l =
      s.storageMap.discarded.count l + discardedIn (children i) l)
    (unknown : ∀ id, holds s.storageMap id + treesIn (children i) id = 0 → holds s'.storageMap id + treesIn x id = 0) :
    Kept u (.node data children, s) (.node data (Function.update children i x), s') := by
  refine ⟨points, fun solid l => ?_, fun id none => ?_⟩
  · have same := discarded solid l
    unfold discardedIn
    dsimp only
    rw [sumUpdate (fun node => discardedIn node l) children x octant, othersSum _ octant]
    omega
  · unfold treesIn at none ⊢
    dsimp only at none ⊢
    rw [othersSum (fun j => treesIn (children j) id) octant] at none
    rw [sumUpdate (fun node => treesIn node id) children x octant]
    have own := unknown id (by omega)
    omega

/-! ## A child of the same tree -/

theorem enterNode {lod min data children s points coming i insert} (env : Env u reads limit Q)
    (cell : Cell u (lod + 1) min) (octant : i < 8) (inside : (lod + 1) % 5 ≠ 0)
    (filling : Filling u Q trees rest lod min data children s coming)
    (gathered : Gathered u (lod + 1) (child (lod + 1) min i) points) (some_ : points.data ≠ [])
    (comes : coming i = points.data) (inserts : Inserts u Q insert lod) :
    ∃ x s', enterChild insert (lod + 1) min (.node data children, s) (i, points) =
        some (.node data (Function.update children i x), s') ∧ x.present = true ∧
      Filling u Q trees rest lod min data (Function.update children i x) s' (Function.update coming i []) ∧
      Kept u (.node data children, s) (.node data (Function.update children i x), s') := by
  have node : ∃ d c, entered (children i) = .node d c := by
    unfold entered
    split
    · rename_i there
      have kind := (filling.shaped i octant there).2.1.mpr inside
      cases here : children i with
      | missing =>
        rw [here] at there
        cases there
      | node d c => exact ⟨d, c, rfl⟩
      | tree info root =>
        rw [here] at kind
        cases kind
    · exact ⟨_, _, rfl⟩
  obtain ⟨d, c, same⟩ := node
  have placed : Placed u Q (fun id => trees id + others i fun j => treesIn (children j) id)
      (fun id => rest id + countOf id data.data + (others i fun j => refsIn (children j) id) +
        others i fun j => countOf id (coming j)) lod (child (lod + 1) min i) (.node d c) s points.data := by
    rw [← same]
    refine ⟨enteredShaped (shapedChild filling.shaped octant), enteredLeaf.mpr (filling.leaves i octant),
      fun id codes solid => ?_, filling.describes, fun id => ?_, enteredBelow.mpr (filling.below i octant),
      fun id chunk filled r found => ?_⟩
    · rw [← comes]
      refine (filling.pending id codes solid i octant).imp (fun held => ?_) fun absent => ?_
      · exact ⟨enteredLeaf.mpr held.1, held.2⟩
      · exact ⟨enteredLeaf.mpr absent.1, absent.2⟩
    · obtain ⟨most, exact_⟩ := filling.counts id
      unfold refsIn at most exact_
      rw [othersSum (fun j => refsIn (children j) id) octant, othersSum (fun j => countOf id (coming j)) octant,
        comes] at most exact_
      rw [enteredRefs]
      refine ⟨by omega, fun filled => ?_⟩
      have equal := exact_ filled
      omega
    · have count := filling.counted id chunk filled r found
      rw [treesIn, othersSum (fun j => treesIn (children j) id) octant] at count
      rw [enteredTrees]
      omega
  obtain ⟨data', children', s', result, after, kept⟩ :=
    inserts _ _ _ d c s points (cellChild cell octant) placed gathered some_
  refine ⟨.node data' children', s', ?_, rfl, ?_, ?_⟩
  · unfold enterChild
    dsimp only
    rw [if_neg inside, setChild cell.aligned]
    unfold entered at same
    rw [same, result]
    rfl
  · exact fillStep env cell octant filling ⟨rfl, ⟨fun _ => inside, fun _ => rfl⟩, after⟩
  · refine keptChild octant kept.points (fun solid l => ?_) fun id none => ?_
    · have equal := kept.discarded solid l
      rw [← same] at equal
      rw [enteredDiscarded] at equal
      exact equal
    · refine kept.unknown id ?_
      rw [← same]
      dsimp only
      rw [enteredTrees]
      exact none

/-! ## A child that is a tree of its own -/

structure Opens (u : Units) (lod : Nat) (node : Octree) (info : TreeInfo) (data : Collection)
    (children : Nat → Octree) : Prop where
  shaped : Shaped (.node data children) lod
  leaves : ∀ L min, EachLeaf L node lod min → EachLeaf L (.node data children) lod min
  describes : info.storageMap.Describes u.stored
  counts : ∀ id, Balanced u id (info.storageMap.refCount id) (refsIn (.node data children) id)
  below : TreesBalanced u (.node data children)
  trees : ∀ id, treesIn node id = holds info.storageMap id + treesIn (.node data children) id
  discarded : ∀ l, discardedIn node l = info.storageMap.discarded.count l + discardedIn (.node data children) l

theorem opensTree {lod node} (shaped : Shaped node lod) (below : TreesBalanced u node)
    (kind : node.present = true → Octree.isNode node = false) (currentId : Nat) :
    ∃ info data children next, openTree node currentId = (info, .node data children, next) ∧
      Opens u lod node info data children := by
  cases node with
  | missing =>
    refine ⟨_, _, _, _, rfl, fun _ _ there => (nomatch there), fun _ _ each => each, fun _ _ there => (nomatch there),
      fun _ => ⟨Nat.le_refl 0, fun _ => rfl⟩, fun _ _ => trivial, fun _ => rfl, fun _ => rfl⟩
  | node data children => cases kind rfl
  | tree info root =>
    obtain ⟨isNode, shaped⟩ := shaped
    obtain ⟨describes, counts, below⟩ := below
    cases root with
    | missing => cases isNode
    | tree info root => cases isNode
    | node data children =>
      exact ⟨info, data, children, currentId, rfl, shaped, fun _ _ each => each, describes, counts, below,
        fun _ => rfl, fun _ => rfl⟩

theorem enterTree {lod min data children s points coming i insert} (env : Env u reads limit Q)
    (cell : Cell u (lod + 1) min) (octant : i < 8) (last : (lod + 1) % 5 = 0)
    (filling : Filling u Q trees rest lod min data children s coming)
    (gathered : Gathered u (lod + 1) (child (lod + 1) min i) points) (some_ : points.data ≠ [])
    (comes : coming i = points.data) (inserts : Inserts u Q insert lod) :
    ∃ x s', enterChild insert (lod + 1) min (.node data children, s) (i, points) =
        some (.node data (Function.update children i x), s') ∧ x.present = true ∧
      Filling u Q trees rest lod min data (Function.update children i x) s' (Function.update coming i []) ∧
      Kept u (.node data children, s) (.node data (Function.update children i x), s') := by
  have kind : (children i).present = true → Octree.isNode (children i) = false := by
    intro there
    have iff := (filling.shaped i octant there).2.1
    cases here : Octree.isNode (children i) with
    | false => rfl
    | true => exact absurd last (iff.mp here)
  obtain ⟨info, d, c, next, open_, opens⟩ :=
    opensTree (shapedChild filling.shaped octant) (filling.below i octant) kind s.currentId
  have held : ∀ id, countOf id points.data ≤ s.storageMap.refCount id := by
    intro id
    have most := (filling.counts id).1
    rw [othersSum (fun j => countOf id (coming j)) octant, comes] at most
    omega
  obtain ⟨moved, move, moves⟩ := @moveSpec u points.data ⟨s.storageMap, info.storageMap, s.refs⟩ filling.describes
    opens.describes held
  have placed : Placed u Q (fun id => trees id + (others i fun j => treesIn (children j) id) + holds moved.parent id)
      (fun _ => 0) lod (child (lod + 1) min i) (.node d c) ⟨moved.child, moved.refs, next⟩ points.data := by
    refine ⟨opens.shaped, opens.leaves _ _ (filling.leaves i octant), fun id codes solid => ?_, moves.child,
      fun id => ?_, opens.below, fun id chunk filled r found => ?_⟩
    · rw [← comes]
      refine (filling.pending id codes solid i octant).imp (fun held => ?_) fun absent => ?_
      · exact ⟨opens.leaves _ _ held.1, held.2⟩
      · exact ⟨opens.leaves _ _ absent.1, absent.2⟩
    · have taken := moves.taken id
      obtain ⟨most, exact_⟩ := opens.counts id
      change moved.child.refCount id = info.storageMap.refCount id + _ at taken
      refine ⟨?_, fun filled => ?_⟩
      · change 0 + _ + _ ≤ moved.child.refCount id
        omega
      · change moved.child.refCount id = 0 + _ + _
        have equal := exact_ filled
        omega
    · have before : CountedAt ⟨s.storageMap, info.storageMap, s.refs⟩
          (trees id + (others i fun j => treesIn (children j) id) + treesIn (.node d c) id) id := by
        intro r found
        have count := filling.counted id chunk filled r found
        rw [treesIn, othersSum (fun j => treesIn (children j) id) octant, opens.trees] at count
        dsimp only
        omega
      have count := moves.counted id _ chunk before r found
      dsimp only
      omega
  obtain ⟨data', children', s', result, after, kept⟩ :=
    inserts _ _ _ d c _ points (cellChild cell octant) placed gathered some_
  refine ⟨.tree ⟨info.id, s'.storageMap, true, false⟩ (.node data' children'), ⟨moved.parent, s'.refs, s'.currentId⟩,
    ?_, rfl, ?_, ?_⟩
  · unfold enterChild
    dsimp only
    rw [if_pos last, setChild cell.aligned, open_]
    dsimp only
    rw [moveStorageLocationsToSubtree, move]
    dsimp only
    rw [result]
    rfl
  · refine fillStep env cell octant filling ⟨rfl, ⟨fun there => (nomatch there), fun inside => absurd last inside⟩, ?_⟩
    refine ⟨⟨rfl, after.shaped⟩, after.leaves, after.pending, moves.parent, fun id => ?_, ⟨after.describes, fun id => ?_,
      after.below⟩, fun id chunk filled r found => ?_⟩
    · have given := moves.given id
      obtain ⟨most, exact_⟩ := filling.counts id
      unfold refsIn at most exact_
      rw [othersSum (fun j => countOf id (coming j)) octant, comes] at most exact_
      have tree : refsIn (children i) id = 0 := by
        cases here : children i with
        | missing => rfl
        | tree _ _ => rfl
        | node _ _ =>
          have no := kind (by rw [here]; rfl)
          rw [here] at no
          cases no
      rw [othersSum (fun j => refsIn (children j) id) octant, tree] at most exact_
      change moved.parent.refCount id + _ = s.storageMap.refCount id at given
      have none : refsIn (.tree ⟨info.id, s'.storageMap, true, false⟩ (.node data' children')) id = 0 := rfl
      have nothing : countOf id [] = 0 := rfl
      rw [none, nothing]
      change _ ≤ moved.parent.refCount id ∧ (_ → moved.parent.refCount id = _)
      refine ⟨by omega, fun filled => ?_⟩
      have equal := exact_ filled
      omega
    · have count := after.counts id
      have nothing : countOf id [] = 0 := rfl
      rw [nothing, Nat.zero_add, Nat.add_zero] at count
      exact count
    · have count := after.counted id chunk filled r found
      change r.treeCount = _ + holds moved.parent id + (holds s'.storageMap id + treesIn (.node data' children') id)
      omega
  · refine keptChild octant (fun id => (kept.points id).trans (moves.points id)) (fun solid l => ?_) fun id none => ?_
    · have equal := kept.discarded solid l
      have parent : moved.parent.discarded = s.storageMap.discarded := moves.parentDiscarded
      have child : moved.child.discarded = info.storageMap.discarded := moves.childDiscarded
      change s'.storageMap.discarded.count l + _ = moved.child.discarded.count l + _ at equal
      rw [child] at equal
      change moved.parent.discarded.count l + (s'.storageMap.discarded.count l + discardedIn (.node data' children') l) = _
      rw [parent, opens.discarded]
      dsimp only at equal
      omega
    · have given := moves.given id
      have taken := moves.taken id
      change moved.parent.refCount id + _ = s.storageMap.refCount id at given
      change moved.child.refCount id = info.storageMap.refCount id + _ at taken
      rw [opens.trees] at none
      have parentNone := (holdsZero filling.describes).mp (Nat.eq_zero_of_add_eq_zero_right none)
      have below := Nat.eq_zero_of_add_eq_zero_left none
      have childNone := (holdsZero opens.describes).mp (Nat.eq_zero_of_add_eq_zero_right below)
      have left : holds moved.parent id = 0 := (holdsZero moves.parent).mpr (by omega)
      have entered_ : holds moved.child id = 0 := (holdsZero moves.child).mpr (by omega)
      have inner := kept.unknown id (by rw [entered_]; exact (Nat.zero_add _).trans (Nat.eq_zero_of_add_eq_zero_left below))
      change holds moved.parent id + (holds s'.storageMap id + treesIn (.node data' children') id) = 0
      rw [left]
      exact (Nat.zero_add _).trans inner

/-! ## The children in turn, and the whole insertion -/

theorem enterSpec {lod min data children s points coming i insert} (env : Env u reads limit Q)
    (cell : Cell u (lod + 1) min) (octant : i < 8)
    (filling : Filling u Q trees rest lod min data children s coming)
    (gathered : Gathered u (lod + 1) (child (lod + 1) min i) points) (some_ : points.data ≠ [])
    (comes : coming i = points.data) (inserts : Inserts u Q insert lod) :
    ∃ x s', enterChild insert (lod + 1) min (.node data children, s) (i, points) =
        some (.node data (Function.update children i x), s') ∧ x.present = true ∧
      Filling u Q trees rest lod min data (Function.update children i x) s' (Function.update coming i []) ∧
      Kept u (.node data children, s) (.node data (Function.update children i x), s') := by
  by_cases last : (lod + 1) % 5 = 0
  · exact enterTree env cell octant last filling gathered some_ comes inserts
  · exact enterNode env cell octant last filling gathered some_ comes inserts

theorem keptRefl (place : Octree × State) : Kept u place place := ⟨fun _ => rfl, fun _ _ => rfl, fun _ none => none⟩

theorem fillCongr {lod min data children s} {a b : Nat → List Subset} (same : ∀ i < 8, a i = b i)
    (filling : Filling u Q trees rest lod min data children s a) :
    Filling u Q trees rest lod min data children s b := by
  refine ⟨filling.shaped, filling.leaves, fun id codes solid i octant => ?_, filling.describes, fun id => ?_,
    filling.below, filling.counted⟩
  · rw [← same i octant]
    exact filling.pending id codes solid i octant
  · have equal : overChildren (fun i => countOf id (b i)) = overChildren fun i => countOf id (a i) :=
      overChildrenCongr fun i octant => by rw [same i octant]
    rw [equal]
    exact filling.counts id

theorem enterAll {lod min data children s insert} {parts : Children} (env : Env u reads limit Q) (cell : Cell u (lod + 1) min)
    (inserts : Inserts u Q insert lod) (gathered : ∀ i < 8, Gathered u (lod + 1) (child (lod + 1) min i) (parts i))
    {indices : List Nat} (once : indices.Nodup) (some_ : ∀ i ∈ indices, i < 8 ∧ (parts i).data ≠ [])
    (filling : Filling u Q trees rest lod min data children s fun i => if i ∈ indices then (parts i).data else []) :
    ∃ children' s', (indices.map fun i => (i, parts i)).foldlM (enterChild insert (lod + 1) min)
        (.node data children, s) = some (.node data children', s') ∧
      Filling u Q trees rest lod min data children' s' (fun _ => []) ∧
      (∀ i, i ∈ indices ∨ (children i).present = true → (children' i).present = true) ∧
      Kept u (.node data children, s) (.node data children', s') := by
  induction indices generalizing children s with
  | nil =>
    refine ⟨children, s, rfl, fillCongr (fun i _ => by simp) filling, fun i there => ?_, keptRefl _⟩
    exact there.resolve_left List.not_mem_nil
  | cons i later ih =>
    obtain ⟨fresh, once⟩ := List.nodup_cons.mp once
    obtain ⟨here, others_⟩ := List.forall_mem_cons.mp some_
    obtain ⟨x, next, step, present, filled, kept⟩ := enterSpec env cell here.1 filling (gathered i here.1) here.2
      (by simp) inserts
    have left : Filling u Q trees rest lod min data (Function.update children i x) next
        fun j => if j ∈ later then (parts j).data else [] := by
      refine fillCongr (fun j _ => ?_) filled
      by_cases own : j = i
      · subst own
        rw [Function.update_self, if_neg fresh]
      · rw [Function.update_of_ne own]
        simp only [List.mem_cons, own, false_or]
    obtain ⟨children', s', result, done, stays, keeps⟩ := ih once others_ left
    refine ⟨children', s', ?_, done, fun j there => ?_, keptTrans kept keeps⟩
    · rw [List.map_cons, List.foldlM_cons, step]
      exact result
    · refine stays j ?_
      by_cases own : j = i
      · subst own
        rw [Function.update_self]
        exact Or.inr present
      · rw [Function.update_of_ne own]
        exact there.imp_left fun mem => (List.mem_cons.mp mem).resolve_left own

theorem fillingDone {lod min data children s} (env : Env u reads limit Q) (cell : Cell u (lod + 1) min)
    (inner : isLeafNode children = false)
    (filling : Filling u Q trees rest lod min data children s fun _ => []) :
    Placed u Q trees rest (lod + 1) min (.node data children) s [] := by
  refine ⟨filling.shaped, (eachLeafNode inner).mpr filling.leaves, fun id codes solid => ?_, filling.describes,
    fun id => ?_, filling.below, filling.counted⟩
  · refine Or.inl ⟨(eachLeafNode inner).mpr fun i octant => ?_, rfl⟩
    exact pendingNil (env.closed id codes solid) (cellChild cell octant).aligned (shapedChild filling.shaped octant)
      (filling.pending id codes solid i octant)
  · have count := filling.counts id
    have none : overChildren (fun _ => countOf id []) = 0 := rfl
    rw [none] at count
    exact count

theorem listedIndices (parts : Children) : ∀ i ∈ (List.range 8).filter fun i => !(parts i).data.isEmpty,
    i < 8 ∧ (parts i).data ≠ [] := by
  intro i mem
  obtain ⟨low, there⟩ := List.mem_filter.mp mem
  exact ⟨List.mem_range.mp low, fun none => by simp [none] at there⟩

theorem addKept {data children s points} :
    Kept u (.node data children, s) (.node (pointsDataAdd data points) children, s) :=
  ⟨fun _ => rfl, fun _ _ => rfl, fun _ none => none⟩

-- A node with its children below it, whatever inserts into them.
def insertNode (reads : Location → Option Points) (limit : Nat) (insert : Insert) (lod : Nat) : Insert
  | min, .node data children, s, points =>
    match arrange reads limit lod min data children s points with
    | none => none
    | some (node, s, parts) => parts.foldlM (enterChild insert lod min) (node, s)
  | _, _, _, _ => none

theorem deepestSpec (env : Env u reads limit Q) {min data children s points} (cell : Cell u 0 min)
    (placed : Placed u Q trees rest 0 min (.node data children) s points.data) (gathered : Gathered u 1 min points) :
    isLeafNode children = true ∧ data.pointCount + points.pointCount ≤ limit ∧
      arrange reads limit 0 min data children s points = some (.node (pointsDataAdd data points) children, s, []) ∧
      Placed u Q trees rest 0 min (.node (pointsDataAdd data points) children) s [] := by
  obtain ⟨leaf, fits⟩ := roomLeaf env cell.aligned placed gathered
  refine ⟨leaf, fits, ?_, addPlaced leaf placed gathered⟩
  unfold arrange
  rw [if_neg (by rw [leaf]; simp), if_pos ⟨leaf, fits⟩]

theorem nodeSpec (env : Env u reads limit Q) {lod insert} (inserts : Inserts u Q insert lod) :
    Inserts u Q (insertNode reads limit insert (lod + 1)) (lod + 1) := by
  intro trees rest min data children s points cell placed gathered some_
  rcases arrangeSpec env cell placed gathered some_ with ⟨leaf, kept⟩ | ⟨data', s', parts, sends, arranged⟩
  · refine ⟨pointsDataAdd data points, children, s, ?_, addPlaced leaf placed gathered, addKept⟩
    rw [insertNode, kept]
    rfl
  · have start : Filling u Q trees rest lod min data' children s'
        fun i => if i ∈ (List.range 8).filter (fun i => !(parts i).data.isEmpty) then (parts i).data else [] := by
      refine fillCongr (fun i octant => ?_) arranged.filling
      split
      · rfl
      · rename_i absent
        refine Classical.byContradiction fun filled => absent (List.mem_filter.mpr ⟨List.mem_range.mpr octant, ?_⟩)
        simpa using filled
    obtain ⟨children', last, result, filled, stays, kept⟩ := enterAll env cell inserts arranged.gathered
      (List.nodup_range.filter _) (listedIndices parts) start
    have inner : isLeafNode children' = false := by
      cases leaf : isLeafNode children with
      | true =>
        obtain ⟨i, octant, some_⟩ := arranged.filled leaf
        refine notLeaf octant (stays i (Or.inl (List.mem_filter.mpr ⟨List.mem_range.mpr octant, ?_⟩)))
        simpa using some_
      | false =>
        obtain ⟨i, octant, there⟩ := innerChild leaf
        exact notLeaf octant (stays i (Or.inr there))
    refine ⟨data', children', last, ?_, fillingDone env cell inner filled, keptTrans
      ⟨fun id => ?_, fun solid l => ?_, fun id none => ?_⟩ kept⟩
    · rw [insertNode, sends]
      exact result
    · rw [arranged.refs]
    · dsimp only
      rw [arranged.discarded solid]
      rfl
    · dsimp only at none ⊢
      have own := arranged.absent id ((holdsZero placed.describes).mp (Nat.eq_zero_of_add_eq_zero_right none))
      rw [(holdsZero arranged.filling.describes).mpr own]
      exact (Nat.zero_add _).trans (Nat.eq_zero_of_add_eq_zero_left none)

theorem insertSpec (env : Env u reads limit Q) (lod : Nat) : Inserts u Q (insertPoints reads limit lod) lod := by
  induction lod with
  | zero =>
    intro trees rest min data children s points cell placed gathered some_
    obtain ⟨leaf, _, kept, after⟩ := deepestSpec env cell placed gathered
    refine ⟨pointsDataAdd data points, children, s, ?_, after, addKept⟩
    rw [insertPoints, kept]
  | succ lod ih =>
    intro trees rest min data children s points cell placed gathered some_
    obtain ⟨data', children', s', result, after, kept⟩ := nodeSpec env ih trees rest min data children s points cell
      placed gathered some_
    exact ⟨data', children', s', result, after, kept⟩

end Dewfall.TreeEnter
