import Dewfall.Converter.TreeEnter

/-! Where the collections of an insertion begin: in the cells of the nodes they come to. Units without points, whose
codes are in no cell, are not treated. -/
namespace Dewfall.TreeNear
open General General.Cells General.SortedWindows StorageMap PointSplitter MortonTree TreeBuild TreeSplit TreeInsert
open TreeDescend TreeEnter

variable {u : Units} {reads : Location → Option Points} {limit : Nat} {Q : InputId → Nat → Nat → List Subset → Prop}

abbrev Pointed (u : Units) : Prop := ∀ id, u.codes id ≠ some []

def Near (lod min : Nat) (parts : Children) : Prop :=
  ∀ i < 8, 0 < (parts i).pointCount ∨ (parts i).data ≠ [] → Has lod (child lod min i) (parts i).min

theorem nearEmpty (lod min : Nat) : Near lod min fun _ => empty := fun _ _ some_ =>
  some_.elim (fun more => absurd more (Nat.lt_irrefl 0)) fun filled => absurd rfl filled

theorem firstHas {lod min : Nat} {id : InputId} {part : Part} (pointed : Pointed u) (of : PartOf u lod min id part) :
    Has lod (child lod min part.child) part.first := by
  obtain ⟨codes, unit, _, kind⟩ := of.whole
  rw [of.same] at unit
  have present := kind.resolve_right fun none_ => pointed id (none_ ▸ unit)
  rw [of.first codes unit]
  exact (codesInMem.mp (headMem present)).2

theorem addNear {lod min : Nat} {parts : Children} {part : Part} (near : Near lod min parts)
    (first : Has lod (child lod min part.child) part.first) :
    Near lod min (Function.update parts part.child (addSubsetToChild part (parts part.child))) := by
  intro i octant some_
  by_cases own : i = part.child
  · subst own
    rw [Function.update_self] at some_ ⊢
    unfold addSubsetToChild
    dsimp only
    split
    · exact first
    · rename_i more
      have old := near part.child octant (Or.inl (Nat.pos_of_ne_zero more))
      dsimp only
      split
      · exact first
      · exact old
  · rw [Function.update_of_ne own] at some_ ⊢
    exact near i octant some_

theorem addPartsNear {lod min : Nat} {id : InputId} {parts : List Part} {s after : InputStorageMap × Children}
    (pointed : Pointed u) (of : ∀ part ∈ parts, PartOf u lod min id part) (near : Near lod min s.2)
    (run : parts.foldlM (addPart id) s = some after) : Near lod min after.2 := by
  induction parts generalizing s with
  | nil =>
    cases run
    exact near
  | cons part rest ih =>
    obtain ⟨here, later⟩ := List.forall_mem_cons.mp of
    rw [List.foldlM_cons] at run
    obtain ⟨next, step, run⟩ := Option.bind_eq_some_iff.mp run
    obtain ⟨m, _, rfl⟩ := Option.map_eq_some_iff.mp step
    exact ih later (addNear near (firstHas pointed here)) run

theorem splitSubsetNear (env : Readable u reads) (pointed : Pointed u) {lod min : Nat} {p : Subset}
    {s after : InputStorageMap × Children} (cell : Cell u lod min) (described : s.1.Describes u.stored)
    (positive : 0 < s.1.refCount p.inputId) (whole : Whole u (lod + 1) min p) (near : Near lod min s.2)
    (run : splitSubset reads lod min s p = some after) : Near lod min after.2 := by
  obtain ⟨codes, unit, _⟩ := id whole
  obtain ⟨location, there, read⟩ := env.readable _ _ unit
  have of := partsOfMem env cell whole
  unfold splitSubset at run
  rw [InputStorageMap.locationSpec described positive, there] at run
  dsimp only at run
  rw [read] at run
  dsimp only at run
  rw [partsOf, unit, Option.getD_some] at of
  exact addPartsNear pointed of near run

theorem splitAllNear (env : Readable u reads) (pointed : Pointed u) {lod min : Nat} {data : List Subset}
    {s after : InputStorageMap × Children} (cell : Cell u lod min) (described : s.1.Describes u.stored)
    (held : ∀ p ∈ data, 0 < s.1.refCount p.inputId) (whole : ∀ p ∈ data, Whole u (lod + 1) min p)
    (gathered : ∀ i < 8, TreeSplit.Gathered u lod (child lod min i) (s.2 i)) (near : Near lod min s.2)
    (run : data.foldlM (splitSubset reads lod min) s = some after) : Near lod min after.2 := by
  induction data generalizing s with
  | nil =>
    cases run
    exact near
  | cons p rest ih =>
    obtain ⟨here, others⟩ := List.forall_mem_cons.mp held
    obtain ⟨wholeHere, wholeLater⟩ := List.forall_mem_cons.mp whole
    obtain ⟨next, step, added⟩ := splitSubsetSpec env cell described here wholeHere gathered
    rw [List.foldlM_cons, step] at run
    refine ih added.describes (fun q mem => ?_) wholeLater added.gathered
      (splitSubsetNear env pointed cell described here wholeHere near step) run
    rw [added.counts]
    have old := others q mem
    omega

theorem splitPointsNear (env : Readable u reads) (pointed : Pointed u) {lod min : Nat} {points : Collection}
    {s after : InputStorageMap × Children} (cell : Cell u lod min) (described : s.1.Describes u.stored)
    (held : ∀ id, countOf id points.data ≤ s.1.refCount id) (whole : ∀ p ∈ points.data, Whole u (lod + 1) min p)
    (gathered : ∀ i < 8, TreeSplit.Gathered u lod (child lod min i) (s.2 i)) (near : Near lod min s.2)
    (run : splitPointsToChildren reads lod min s points = some after) : Near lod min after.2 := by
  have present : ∀ p ∈ points.data, 0 < s.1.refCount p.inputId := fun p mem => (countMem mem).trans_le (held p.inputId)
  unfold splitPointsToChildren at run
  cases split : points.data.foldlM (splitSubset reads lod min) s with
  | none =>
    rw [split] at run
    cases run
  | some middle =>
    rw [split] at run
    obtain ⟨m, _, rfl⟩ := Option.map_eq_some_iff.mp run
    have divided : Near lod min middle.2 := splitAllNear env pointed cell described present whole gathered near split
    exact divided

-- The two splits of a node that overflows, its own points first.
theorem givenNear (env : Env u reads limit Q) (pointed : Pointed u) {trees rest : InputId → Nat} {lod min : Nat}
    {data : Collection} {children : Nat → Octree} {s : State} {points : Collection}
    {after : InputStorageMap × Children} (cell : Cell u lod min)
    (placed : Placed u Q trees rest lod min (.node data children) s points.data)
    (gathered : TreeSplit.Gathered u (lod + 1) min points)
    (run : ((if isLeafNode children = true ∧ 0 < data.pointCount then
        splitPointsToChildren reads lod min (s.storageMap, fun _ => empty) data
      else some (s.storageMap, fun _ => empty)).bind fun s =>
        if 0 < points.pointCount then splitPointsToChildren reads lod min s points else some s) = some after) :
    Near lod min after.2 := by
  have enough : ∀ id, countOf id data.data + countOf id points.data ≤ s.storageMap.refCount id := by
    intro id
    have most := (placed.counts id).1
    unfold refsIn at most
    omega
  have fresh : ∀ i < 8, TreeSplit.Gathered u lod (child lod min i) empty := fun i _ => gatheredEmpty _ _
  obtain ⟨middle, old, new⟩ := Option.bind_eq_some_iff.mp run
  have first : Near lod min middle.2 ∧ Divides u lod min (if isLeafNode children = true ∧ 0 < data.pointCount then data.data
      else []) (s.storageMap, fun _ => empty) middle := by
    split at old
    · rename_i split
      have whole := ((eachLeafLeaf split.1).mp placed.leaves).whole
      have held : ∀ id, countOf id data.data ≤ s.storageMap.refCount id := fun id => (Nat.le_add_right _ _).trans (enough id)
      obtain ⟨middle', same, divides⟩ := splitPointsSpec
        (s := (s.storageMap, fun _ => empty)) env.readable cell placed.describes held whole fresh
      obtain rfl := Option.some.inj (old.symm.trans same)
      rw [if_pos split]
      exact ⟨splitPointsNear env.readable pointed cell placed.describes held whole fresh (nearEmpty lod min) old, divides⟩
    · rename_i stays
      cases old
      rw [if_neg stays]
      exact ⟨nearEmpty lod min, dividesNil placed.describes fresh⟩
  split at new
  · refine splitPointsNear env.readable pointed cell first.2.describes (fun id => ?_) gathered.whole first.2.gathered first.1
      new
    have count := first.2.counts id
    have most := enough id
    have own : countOf id (if isLeafNode children = true ∧ 0 < data.pointCount then data.data else []) ≤
        countOf id data.data := by
      split
      · exact Nat.le_refl _
      · exact Nat.zero_le _
    change _ + _ = s.storageMap.refCount id + _ at count
    omega
  · cases new
    exact first.1

/-! ## Insertion that is given only what it may be given -/

structure Allowed (u : Units) (Q : InputId → Nat → Nat → List Subset → Prop) (lod min : Nat) (node : Octree) (s : State)
    (points : Collection) : Prop where
  isNode : ∃ data children, node = .node data children
  cell : Cell u lod min
  placed : ∃ trees rest, Placed u Q trees rest lod min node s points.data
  gathered : TreeSplit.Gathered u (lod + 1) min points
  filled : points.data ≠ []

open Classical in
noncomputable def allowedOnly (u : Units) (Q : InputId → Nat → Nat → List Subset → Prop) (insert : Insert) (lod : Nat) :
    Insert :=
  fun min node s points => if Allowed u Q lod min node s points then insert min node s points else none

theorem allowedRun {insert : Insert} {lod min : Nat} {node : Octree} {s : State} {points : Collection} {done : Octree × State}
    (run : allowedOnly u Q insert lod min node s points = some done) :
    Allowed u Q lod min node s points ∧ insert min node s points = some done := by
  unfold allowedOnly at run
  split at run
  · rename_i allowed
    exact ⟨allowed, run⟩
  · cases run

theorem allowedInserts (env : Env u reads limit Q) (lod : Nat) :
    Inserts u Q (allowedOnly u Q (insertPoints reads limit lod) lod) lod := by
  intro trees rest min data children s points cell placed gathered some_
  obtain ⟨data', children', s', result, after, kept⟩ := insertSpec env lod trees rest min data children s points cell placed
    gathered some_
  refine ⟨data', children', s', ?_, after, kept⟩
  unfold allowedOnly
  rw [if_pos ⟨⟨data, children, rfl⟩, cell, ⟨trees, rest, placed⟩, gathered, some_⟩]
  exact result

theorem enterMore {few more : Insert} (less : ∀ {min node s points done}, few min node s points = some done →
    more min node s points = some done) {lod min : Nat} {place done : Octree × State} {part : Nat × Collection}
    (run : enterChild few lod min place part = some done) : enterChild more lod min place part = some done := by
  obtain ⟨node, s⟩ := place
  cases node with
  | missing => cases run
  | tree info root => cases run
  | node data children =>
    unfold enterChild at run ⊢
    dsimp only at run ⊢
    split at run
    · rename_i last
      rw [if_pos last]
      split at run
      · cases run
      · rename_i moved move
        obtain ⟨x, below, rfl⟩ := Option.map_eq_some_iff.mp run
        rw [less below]
        rfl
    · rename_i inner
      rw [if_neg inner]
      obtain ⟨x, below, rfl⟩ := Option.map_eq_some_iff.mp run
      rw [less below]
      rfl

theorem nodeMore {few more : Insert} (less : ∀ {min node s points done}, few min node s points = some done →
    more min node s points = some done) {lod min : Nat} {node : Octree} {s : State} {points : Collection}
    {done : Octree × State} (run : insertNode reads limit few lod min node s points = some done) :
    insertNode reads limit more lod min node s points = some done := by
  cases node with
  | missing => cases run
  | tree info root => cases run
  | node data children =>
    unfold insertNode at run ⊢
    dsimp only at run ⊢
    cases arranged : arrange reads limit lod min data children s points with
    | none =>
      rw [arranged] at run
      cases run
    | some all =>
      rw [arranged] at run
      obtain ⟨kept, s', parts⟩ := all
      dsimp only at run ⊢
      clear arranged
      generalize (kept, s') = place at run ⊢
      induction parts generalizing place with
      | nil => exact run
      | cons part parts ih =>
        rw [List.foldlM_cons] at run ⊢
        obtain ⟨next, step, rest⟩ := Option.bind_eq_some_iff.mp run
        rw [enterMore less step]
        exact ih next rest

-- What is inserted below goes only to where it may.
theorem allowedNode (env : Env u reads limit Q) {lod min : Nat} {data : Collection} {children : Nat → Octree} {s : State}
    {points : Collection} {done : Octree × State} (allowed : Allowed u Q (lod + 1) min (.node data children) s points)
    (run : insertPoints reads limit (lod + 1) min (.node data children) s points = some done) :
    insertNode reads limit (allowedOnly u Q (insertPoints reads limit lod) lod) (lod + 1) min (.node data children) s points =
      some done := by
  obtain ⟨trees, rest, placed⟩ := allowed.placed
  obtain ⟨data', children', s', result, _, _⟩ := nodeSpec env (allowedInserts env lod) trees rest min data children s points
    allowed.cell placed allowed.gathered allowed.filled
  have same : insertNode reads limit (insertPoints reads limit lod) (lod + 1) min (.node data children) s points =
      some (.node data' children', s') := nodeMore (fun run => (allowedRun run).2) result
  have both : some done = some (.node data' children', s') := run.symm.trans same
  rw [both]
  exact result

end Dewfall.TreeNear
