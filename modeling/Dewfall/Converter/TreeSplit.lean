import Dewfall.Converter.TreeBuild
import Mathlib.Tactic.IntervalCases
import Mathlib.Algebra.Order.BigOperators.Group.List

/-! What splitting the subsets of a node gives its children. A subset is known by its unit: it is
the whole of what the unit has in the node's cell. Reads are taken to succeed; units of no points may
be among them. -/
namespace Dewfall.TreeSplit
open General General.Cells General.SortedWindows StorageMap PointSplitter MortonTree TreeBuild

-- The units there are by their absolute codes, and where each is stored.
structure Units where
  codes : InputId → Option (List Nat)
  stored : InputId → Nat × List Location

structure Readable (u : Units) (reads : Location → Option Points) : Prop where
  sorted : ∀ id codes, u.codes id = some codes → Sorted codes
  width : ∀ id codes, u.codes id = some codes → ∀ c ∈ codes, c < 8 ^ 64
  readable : ∀ id codes, u.codes id = some codes → ∃ location, (u.stored id).2[0]? = some location ∧
    reads location = some (sortedUnit id codes)

variable {u : Units} {reads : Location → Option Points}

-- All of a unit in the cell. A unit of no points may be in any.
def Whole (u : Units) (k min : Nat) (p : Subset) : Prop :=
  ∃ codes, u.codes p.inputId = some codes ∧ p = cellSubset p.inputId codes k min ∧
    (codesIn k min codes ≠ [] ∨ codes = [])

structure PartOf (u : Units) (lod min : Nat) (id : InputId) (part : Part) : Prop where
  octant : part.child < 8
  same : part.subset.inputId = id
  whole : Whole u lod (child lod min part.child) part.subset
  first : ∀ codes, u.codes id = some codes → part.first = (codesIn lod (child lod min part.child) codes).headD 0
  last : ∀ codes, u.codes id = some codes → part.last = (codesIn lod (child lod min part.child) codes).getLastD 0

-- At the top of the code space the bound behind the last octant of a full-width unit is zero.
structure Cell (u : Units) (lod min : Nat) : Prop where
  aligned : Aligned (lod + 1) min
  top : min + 8 ^ (lod + 1) < 8 ^ 64 ∨ ∀ id codes, u.codes id = some codes → formatOf codes = .m192 →
    ∀ c ∈ codes, c + 8 ^ lod < 8 ^ 64

theorem Cell.lastOctant {u : Units} {lod min : Nat} (cell : Cell u lod min) {id : InputId} {codes : List Nat}
    (unit : u.codes id = some codes) :
    min + 8 ^ (lod + 1) < 8 ^ 64 ∨ formatOf codes ≠ .m192 ∨ codesIn lod (child lod min 7) codes = [] := by
  rcases cell.top with below | narrow
  · exact Or.inl below
  by_cases wide : formatOf codes = .m192
  · by_cases below : min + 8 ^ (lod + 1) < 8 ^ 64
    · exact Or.inl below
    refine Or.inr (Or.inr (List.eq_nil_iff_forall_not_mem.mpr fun c mem => ?_))
    obtain ⟨known, start, _⟩ := codesInMem.mp mem
    have room := narrow id codes unit wide c known
    have stop := childEnd lod min
    have last : child lod min 7 + 8 ^ lod = child lod min 8 := childStop lod min 7
    omega
  · exact Or.inr (Or.inl wide)

-- What a unit's record in the cell becomes in a child.
def expected (id : InputId) (codes : List Nat) (k min : Nat) : List Subset :=
  if codesIn k min codes = [] then [] else [cellSubset id codes k min]

def partsAt (parts : List Part) (i : Nat) : List Subset := (parts.filter fun part => part.child = i).map Part.subset

theorem expectedMem {id codes lod min part} (mem : part ∈ expectedParts id codes lod min) :
    part.child < 8 ∧ codesIn lod (child lod min part.child) codes ≠ [] ∧
      part = ⟨part.child, cellSubset id codes lod (child lod min part.child),
        (codesIn lod (child lod min part.child) codes).headD 0,
        (codesIn lod (child lod min part.child) codes).getLastD 0⟩ := by
  obtain ⟨i, octant, found⟩ := List.mem_filterMap.mp mem
  rw [List.mem_range'_1] at octant
  unfold expectedPart at found
  split at found
  · cases found
  · rename_i present
    cases found
    exact ⟨octant.2, present, rfl⟩

theorem filterMapKey {α β : Type*} [DecidableEq α] {g : α → Option β} {key : β → α}
    (keyed : ∀ a b, g a = some b → key b = a) {l : List α} (once : l.Nodup) {a} (mem : a ∈ l) :
    (l.filterMap g).filter (fun b => key b = a) = (g a).toList := by
  induction l with
  | nil => cases mem
  | cons x rest ih =>
    obtain ⟨fresh, later⟩ := List.nodup_cons.mp once
    by_cases same : x = a
    · subst same
      have others : (rest.filterMap g).filter (fun b => key b = x) = [] := by
        refine List.filter_eq_nil_iff.mpr fun b found => ?_
        obtain ⟨y, there, made⟩ := List.mem_filterMap.mp found
        have own := keyed y b made
        rw [decide_eq_true_eq, own]
        exact fun equal => fresh (equal ▸ there)
      cases made : g x with
      | none => rw [List.filterMap_cons_none made, others]; rfl
      | some b =>
        rw [List.filterMap_cons_some made, List.filter_cons_of_pos (by simpa using keyed x b made), others]
        rfl
    · have rest_ := ih later ((List.mem_cons.mp mem).resolve_left (Ne.symm same))
      cases made : g x with
      | none => rw [List.filterMap_cons_none made, rest_]
      | some b =>
        have other : key b ≠ a := fun equal => same ((keyed x b made).symm.trans equal)
        rw [List.filterMap_cons_some made, List.filter_cons_of_neg (by simpa using other), rest_]

theorem expectedAt {id codes lod min i} (octant : i < 8) :
    partsAt (expectedParts id codes lod min) i = expected id codes lod (child lod min i) := by
  have keyed : ∀ a b, expectedPart id codes lod min a = some b → b.child = a := by
    intro a b made
    unfold expectedPart at made
    split at made
    · cases made
    · cases made
      rfl
  have mem : i ∈ List.range' 0 8 := by
    rw [List.mem_range'_1]
    omega
  unfold partsAt expectedParts
  rw [filterMapKey keyed List.nodup_range' mem, expectedPart, expected]
  split <;> rfl

theorem emptyParts (id : InputId) (lod min : Nat) :
    pointBufferSubdivide (sortedUnit id []) ⟨id, 0, 0⟩ lod min = [] ∨
      pointBufferSubdivide (sortedUnit id []) ⟨id, 0, 0⟩ lod min = [⟨0, ⟨id, 0, 0⟩, 0, 0⟩] := by
  unfold pointBufferSubdivide
  dsimp only
  split
  · right
    have zero : getChildMask lod 0 = 0 := by simp [getChildMask, digit]
    change [(⟨getChildMask lod 0, ⟨id, 0, 0⟩, 0, 0⟩ : Part)] = _
    rw [zero]
  · left
    rfl

theorem subdivideParts (env : Readable u reads) {lod min p} (cell : Cell u lod min) (whole : Whole u (lod + 1) min p)
    {codes} (unit : u.codes p.inputId = some codes) :
    (∀ part ∈ pointBufferSubdivide (sortedUnit p.inputId codes) p lod min, PartOf u lod min p.inputId part) ∧
      (codes ≠ [] → pointBufferSubdivide (sortedUnit p.inputId codes) p lod min =
        expectedParts p.inputId codes lod min) := by
  obtain ⟨other, same, subset, kind⟩ := whole
  obtain rfl : codes = other := Option.some.inj (unit.symm.trans same)
  rcases kind with present | rfl
  · have exact_ := @subdivideExact p.inputId _ _ _ (env.sorted _ _ unit) (env.width _ _ unit) cell.aligned
      (cell.lastOctant unit) present
    rw [← subset] at exact_
    rw [exact_]
    refine ⟨fun part mem => ?_, fun _ => rfl⟩
    obtain ⟨octant, some, same⟩ := expectedMem mem
    rw [same]
    refine ⟨octant, rfl, ⟨codes, unit, rfl, Or.inl some⟩, fun other known => ?_, fun other known => ?_⟩
    · obtain rfl : codes = other := Option.some.inj (unit.symm.trans known)
      rfl
    · obtain rfl : codes = other := Option.some.inj (unit.symm.trans known)
      rfl
  · refine ⟨fun part mem => ?_, fun some => absurd rfl some⟩
    rw [subset] at mem
    change part ∈ pointBufferSubdivide (sortedUnit p.inputId []) ⟨p.inputId, 0, 0⟩ lod min at mem
    rcases emptyParts p.inputId lod min with none | one
    · rw [none] at mem
      cases mem
    · rw [one, List.mem_singleton] at mem
      rw [mem]
      refine ⟨Nat.zero_lt_succ 7, rfl, ⟨[], unit, rfl, Or.inr rfl⟩, fun other known => ?_, fun other known => ?_⟩
      · obtain rfl : [] = other := Option.some.inj (unit.symm.trans known)
        rfl
      · obtain rfl : [] = other := Option.some.inj (unit.symm.trans known)
        rfl

/-! ## Gathering a child's collection -/

structure Gathered (u : Units) (k min : Nat) (c : Collection) : Prop where
  whole : ∀ p ∈ c.data, Whole u k min p
  total : c.pointCount = (c.data.map Subset.count).sum
  minLod : c.data ≠ [] → c.minLod = mortonLod c.min c.max
  bounds : ∀ p ∈ c.data, ∀ codes, u.codes p.inputId = some codes → ∀ x ∈ codesIn k min codes, c.min ≤ x ∧ x ≤ c.max

theorem gatheredEmpty (k min : Nat) : Gathered u k min empty := by
  refine ⟨fun p mem => ?_, rfl, fun some => absurd rfl some, fun p mem => ?_⟩ <;> cases mem

theorem wholeCount {k min p codes} (whole : Whole u k min p) (unit : u.codes p.inputId = some codes) :
    p.count = (codesIn k min codes).length := by
  obtain ⟨other, same, subset, _⟩ := whole
  obtain rfl : codes = other := Option.some.inj (unit.symm.trans same)
  rw [subset]
  rfl

theorem nothingCounted {data : List Subset} (zero : (data.map Subset.count).sum = 0) {p} (mem : p ∈ data) :
    p.count = 0 :=
  List.sum_eq_zero_iff_forall_eq_nat.mp zero _ (List.mem_map_of_mem mem)

theorem partBounds (env : Readable u reads) {lod min id part} (part_ : PartOf u lod min id part) {codes}
    (unit : u.codes id = some codes) :
    ∀ x ∈ codesIn lod (child lod min part.child) codes, part.first ≤ x ∧ x ≤ part.last := by
  have sorted : Sorted (codesIn lod (child lod min part.child) codes) := (env.sorted _ _ unit).filter _
  rw [part_.first codes unit, part_.last codes unit]
  exact fun x mem => ⟨headLe sorted mem, leLast sorted mem⟩

theorem addSubsetGathered (env : Readable u reads) {lod min id part c} (part_ : PartOf u lod min id part)
    (gathered : Gathered u lod (child lod min part.child) c) :
    Gathered u lod (child lod min part.child) (addSubsetToChild part c) := by
  have total : c.pointCount + part.subset.count = ((c.data ++ [part.subset]).map Subset.count).sum := by
    rw [List.map_append, List.sum_append, ← gathered.total]
    rfl
  have whole : ∀ p ∈ c.data ++ [part.subset], Whole u lod (child lod min part.child) p := by
    intro p mem
    rcases List.mem_append.mp mem with old | new
    · exact gathered.whole p old
    · rw [List.mem_singleton.mp new]
      exact part_.whole
  unfold addSubsetToChild
  dsimp only
  split
  · rename_i zero
    refine ⟨whole, total, fun _ => rfl, fun p mem codes unit x here => ?_⟩
    dsimp only at mem
    rcases List.mem_append.mp mem with old | new
    · have none := nothingCounted (gathered.total.symm.trans zero) old
      rw [wholeCount (gathered.whole p old) unit] at none
      rw [List.eq_nil_of_length_eq_zero none] at here
      cases here
    · rw [List.mem_singleton.mp new, part_.same] at unit
      exact partBounds env part_ unit x here
  · rename_i more
    have filled : c.data ≠ [] := by
      intro none
      rw [gathered.total, none] at more
      exact more rfl
    have lodOld := gathered.minLod filled
    refine ⟨whole, total, fun _ => ?_, fun p mem codes unit x here => ?_⟩
    · dsimp only
      split
      · rfl
      · rename_i same
        rw [if_neg (fun low => same (Or.inl low)), if_neg (fun high => same (Or.inr high))]
        exact lodOld
    · have between : part.first ≤ x ∧ x ≤ part.last ∨ c.min ≤ x ∧ x ≤ c.max := by
        dsimp only at mem
        rcases List.mem_append.mp mem with old | new
        · exact Or.inr (gathered.bounds p old codes unit x here)
        · rw [List.mem_singleton.mp new, part_.same] at unit
          exact Or.inl (partBounds env part_ unit x here)
      dsimp only
      split <;> split <;> omega

/-! ## Splitting a collection -/

def countOf (id : InputId) (data : List Subset) : Nat := data.countP fun p => p.inputId = id
def recordsOf (id : InputId) (data : List Subset) : List Subset := data.filter fun p => p.inputId = id

-- What a subset of a readable unit is split into.
def partsOf (u : Units) (lod min : Nat) (p : Subset) : List Part :=
  pointBufferSubdivide (sortedUnit p.inputId ((u.codes p.inputId).getD [])) p lod min

theorem partsOfMem (env : Readable u reads) {lod min p} (cell : Cell u lod min) (whole : Whole u (lod + 1) min p) :
    ∀ part ∈ partsOf u lod min p, PartOf u lod min p.inputId part := by
  obtain ⟨codes, unit, rest⟩ := whole
  rw [partsOf, unit]
  exact (subdivideParts env cell ⟨codes, unit, rest⟩ unit).1

theorem partsOfWhole (env : Readable u reads) {lod min p codes} (cell : Cell u lod min)
    (whole : Whole u (lod + 1) min p) (unit : u.codes p.inputId = some codes) (some : codes ≠ []) {i} (octant : i < 8) :
    partsAt (partsOf u lod min p) i = expected p.inputId codes lod (child lod min i) := by
  rw [partsOf, unit, Option.getD_some, (subdivideParts env cell whole unit).2 some, expectedAt octant]

structure Added (u : Units) (lod min : Nat) (id : InputId) (parts : List Part) (before after : InputStorageMap × Children) :
    Prop where
  describes : after.1.Describes u.stored
  discarded : after.1.discarded = before.1.discarded
  counts : ∀ other, after.1.refCount other = before.1.refCount other + if other = id then parts.length else 0
  data : ∀ i, (after.2 i).data = (before.2 i).data ++ partsAt parts i
  gathered : ∀ i < 8, Gathered u lod (child lod min i) (after.2 i)

theorem addPartsSpec (env : Readable u reads) {lod min id parts} {s : InputStorageMap × Children}
    (described : s.1.Describes u.stored) (positive : 0 < s.1.refCount id)
    (of : ∀ part ∈ parts, PartOf u lod min id part) (gathered : ∀ i < 8, Gathered u lod (child lod min i) (s.2 i)) :
    ∃ after, parts.foldlM (addPart id) s = some after ∧ Added u lod min id parts s after := by
  induction parts generalizing s with
  | nil => exact ⟨s, rfl, described, rfl, fun other => by simp, fun i => by simp [partsAt], gathered⟩
  | cons part rest ih =>
    obtain ⟨here, later⟩ := List.forall_mem_cons.mp of
    obtain ⟨m, added, describesNext, discardedNext, countsNext⟩ := InputStorageMap.addRefSpec described positive
    have gatheredNext : ∀ i < 8, Gathered u lod (child lod min i)
        (Function.update s.2 part.child (addSubsetToChild part (s.2 part.child)) i) := by
      intro i octant
      by_cases same : i = part.child
      · subst same
        rw [Function.update_self]
        exact addSubsetGathered env here (gathered _ octant)
      · rw [Function.update_of_ne same]
        exact gathered i octant
    have more : 0 < m.refCount id := by
      have count := countsNext id
      rw [if_pos rfl] at count
      omega
    obtain ⟨after, result, all⟩ := @ih (m, _) describesNext more later gatheredNext
    refine ⟨after, ?_, all.describes, all.discarded.trans discardedNext, fun other => ?_, fun i => ?_, all.gathered⟩
    · rw [List.foldlM_cons]
      change ((s.1.addRef id).map _).bind _ = _
      rw [added]
      exact result
    · rw [all.counts other]
      change m.refCount other + _ = _
      rw [countsNext other, List.length_cons]
      split
      · rename_i same
        rw [same]
        omega
      · omega
    · rw [all.data i]
      change (Function.update s.2 part.child _ i).data ++ _ = _
      by_cases same : i = part.child
      · subst same
        rw [Function.update_self, partsAt, partsAt, List.filter_cons_of_pos (by simp), List.map_cons]
        unfold addSubsetToChild
        dsimp only
        split <;> simp
      · rw [Function.update_of_ne same, partsAt, partsAt,
          List.filter_cons_of_neg (by simpa using Ne.symm same)]

def splitData (u : Units) (lod min : Nat) (data : List Subset) (i : Nat) : List Subset :=
  data.flatMap fun p => partsAt (partsOf u lod min p) i

def overChildren (f : Nat → Nat) : Nat := ((List.range 8).map f).sum

theorem overChildrenAdd (f g : Nat → Nat) : overChildren (fun i => f i + g i) = overChildren f + overChildren g := by
  unfold overChildren
  induction List.range 8 with
  | nil => rfl
  | cons i rest ih => simp only [List.map_cons, List.sum_cons, ih]; omega

theorem overChildrenCongr {f g : Nat → Nat} (same : ∀ i < 8, f i = g i) : overChildren f = overChildren g := by
  unfold overChildren
  congr 1
  exact List.map_congr_left fun i mem => same i (List.mem_range.mp mem)

theorem overChildrenLe {f : Nat → Nat} {i} (octant : i < 8) : f i ≤ overChildren f :=
  List.single_le_sum (fun _ _ => Nat.zero_le _) _ (List.mem_map_of_mem (List.mem_range.mpr octant))

theorem countOfAppend (id : InputId) (a b : List Subset) : countOf id (a ++ b) = countOf id a + countOf id b :=
  List.countP_append

theorem countOfCons (id : InputId) (p : Subset) (rest : List Subset) :
    countOf id (p :: rest) = countOf id rest + if p.inputId = id then 1 else 0 := by
  unfold countOf
  rw [List.countP_cons]
  simp

theorem countOfAll {id : InputId} {data : List Subset} (all : ∀ p ∈ data, p.inputId = id) (other : InputId) :
    countOf other data = if other = id then data.length else 0 := by
  unfold countOf
  split
  · rename_i same
    subst same
    exact List.countP_eq_length.mpr fun p mem => decide_eq_true (all p mem)
  · rename_i apart
    exact List.countP_eq_zero.mpr fun p mem => by simpa using fun same => apart (same.symm.trans (all p mem))

theorem partsAtLength {parts : List Part} (octants : ∀ part ∈ parts, part.child < 8) :
    overChildren (fun i => (partsAt parts i).length) = parts.length := by
  induction parts with
  | nil => rfl
  | cons part rest ih =>
    obtain ⟨here, later⟩ := List.forall_mem_cons.mp octants
    have each : ∀ i, (partsAt (part :: rest) i).length = (if part.child = i then 1 else 0) + (partsAt rest i).length := by
      intro i
      unfold partsAt
      by_cases same : part.child = i
      · rw [List.filter_cons_of_pos (by simpa using same), if_pos same, List.map_cons, List.length_cons, Nat.add_comm]
      · rw [List.filter_cons_of_neg (by simpa using same), if_neg same, Nat.zero_add]
    have one : overChildren (fun i => if part.child = i then 1 else 0) = 1 := by
      unfold overChildren
      generalize part.child = c at here
      interval_cases c <;> rfl
    rw [show (fun i => (partsAt (part :: rest) i).length) =
      fun i => (if part.child = i then 1 else 0) + (partsAt rest i).length from funext each, overChildrenAdd, one,
      ih later, List.length_cons, Nat.add_comm]

theorem partsAtSame {lod min id} {parts : List Part} (of : ∀ part ∈ parts, PartOf u lod min id part) (i : Nat) :
    ∀ p ∈ partsAt parts i, p.inputId = id := by
  intro p mem
  obtain ⟨part, here, rfl⟩ := List.mem_map.mp mem
  exact (of part (List.mem_filter.mp here).1).same

-- The records of one subset over all children.
theorem partsCount {lod min id} {parts : List Part} (of : ∀ part ∈ parts, PartOf u lod min id part) (other : InputId) :
    overChildren (fun i => countOf other (partsAt parts i)) = if other = id then parts.length else 0 := by
  have each : ∀ i, countOf other (partsAt parts i) = if other = id then (partsAt parts i).length else 0 :=
    fun i => countOfAll (partsAtSame of i) other
  rw [show (fun i => countOf other (partsAt parts i)) = _ from funext each]
  split
  · exact partsAtLength fun part mem => (of part mem).octant
  · rfl

structure Divided (u : Units) (lod min : Nat) (data : List Subset) (before after : InputStorageMap × Children) :
    Prop where
  describes : after.1.Describes u.stored
  discarded : after.1.discarded = before.1.discarded
  counts : ∀ id, after.1.refCount id = before.1.refCount id + overChildren fun i => countOf id (splitData u lod min data i)
  data : ∀ i, (after.2 i).data = (before.2 i).data ++ splitData u lod min data i
  gathered : ∀ i < 8, Gathered u lod (child lod min i) (after.2 i)

theorem splitSubsetSpec (env : Readable u reads) {lod min p} {s : InputStorageMap × Children} (cell : Cell u lod min)
    (described : s.1.Describes u.stored) (positive : 0 < s.1.refCount p.inputId) (whole : Whole u (lod + 1) min p)
    (gathered : ∀ i < 8, Gathered u lod (child lod min i) (s.2 i)) :
    ∃ after, splitSubset reads lod min s p = some after ∧
      Added u lod min p.inputId (partsOf u lod min p) s after := by
  obtain ⟨codes, unit, _⟩ := id whole
  obtain ⟨location, there, read⟩ := env.readable _ _ unit
  have of := partsOfMem env cell whole
  obtain ⟨after, result, all⟩ := addPartsSpec env described positive of gathered
  refine ⟨after, ?_, all⟩
  rw [splitSubset, InputStorageMap.locationSpec described positive, there]
  dsimp only
  rw [read]
  dsimp only
  rw [← result, partsOf, unit, Option.getD_some]

theorem splitAllSpec (env : Readable u reads) {lod min data} {s : InputStorageMap × Children} (cell : Cell u lod min)
    (described : s.1.Describes u.stored) (held : ∀ p ∈ data, 0 < s.1.refCount p.inputId)
    (whole : ∀ p ∈ data, Whole u (lod + 1) min p)
    (gathered : ∀ i < 8, Gathered u lod (child lod min i) (s.2 i)) :
    ∃ after, data.foldlM (splitSubset reads lod min) s = some after ∧ Divided u lod min data s after := by
  induction data generalizing s with
  | nil => exact ⟨s, rfl, described, rfl, fun id => by simp [splitData, overChildren, countOf], by simp [splitData], gathered⟩
  | cons p rest ih =>
    obtain ⟨here, others⟩ := List.forall_mem_cons.mp held
    obtain ⟨wholeHere, wholeLater⟩ := List.forall_mem_cons.mp whole
    obtain ⟨next, step, added⟩ := splitSubsetSpec env cell described here wholeHere gathered
    have heldNext : ∀ q ∈ rest, 0 < next.1.refCount q.inputId := by
      intro q mem
      rw [added.counts]
      have old := others q mem
      omega
    obtain ⟨after, result, all⟩ := ih added.describes heldNext wholeLater added.gathered
    refine ⟨after, ?_, all.describes, all.discarded.trans added.discarded, fun id => ?_, fun i => ?_, all.gathered⟩
    · rw [List.foldlM_cons, step]
      exact result
    · have sum : overChildren (fun i => countOf id (splitData u lod min (p :: rest) i)) =
          (if id = p.inputId then (partsOf u lod min p).length else 0) +
            overChildren fun i => countOf id (splitData u lod min rest i) := by
        rw [← partsCount (partsOfMem env cell wholeHere), ← overChildrenAdd]
        refine overChildrenCongr fun i _ => ?_
        rw [splitData, List.flatMap_cons, countOfAppend]
        rfl
      rw [all.counts, added.counts, sum]
      omega
    · rw [all.data, added.data, splitData, splitData, List.flatMap_cons, List.append_assoc]

theorem releaseAllSpec {data : List Subset} {m : InputStorageMap} (described : m.Describes u.stored)
    (held : ∀ id, countOf id data ≤ m.refCount id) :
    ∃ after, data.foldlM (fun (m : InputStorageMap) p => m.dereferenceDiscard p.inputId) m = some after ∧
      after.Describes u.stored ∧ (∀ id, after.refCount id + countOf id data = m.refCount id) ∧
      ((∀ p ∈ data, countOf p.inputId data < m.refCount p.inputId) → after.discarded = m.discarded) := by
  induction data generalizing m with
  | nil => exact ⟨m, rfl, described, fun _ => rfl, fun _ => rfl⟩
  | cons p rest ih =>
    have here := held p.inputId
    rw [countOfCons, if_pos rfl] at here
    obtain ⟨next, step, describedNext, same, counts⟩ :=
      InputStorageMap.dereferenceDiscardSpec described (by omega : 0 < m.refCount p.inputId)
    have heldNext : ∀ id, countOf id rest ≤ next.refCount id := by
      intro id
      have old := held id
      rw [countOfCons] at old
      rw [counts]
      split
      · rename_i equal
        subst equal
        rw [if_pos rfl] at old
        omega
      · omega
    obtain ⟨after, result, describedAfter, countsAfter, sameAfter⟩ := ih describedNext heldNext
    refine ⟨after, ?_, describedAfter, fun id => ?_, fun more => ?_⟩
    · rw [List.foldlM_cons, step]
      exact result
    · have tail := countsAfter id
      rw [counts] at tail
      rw [countOfCons]
      split at tail
      · rename_i equal
        subst equal
        rw [if_pos rfl]
        omega
      · rename_i apart
        rw [if_neg (Ne.symm apart)]
        exact tail
    · have first := more p List.mem_cons_self
      rw [countOfCons, if_pos rfl] at first
      have later : ∀ q ∈ rest, countOf q.inputId rest < next.refCount q.inputId := by
        intro q mem
        have old := more q (List.mem_cons_of_mem _ mem)
        rw [countOfCons] at old
        rw [counts]
        split
        · rename_i equal
          rw [equal] at old ⊢
          rw [if_pos rfl] at old
          omega
        · omega
      rw [sameAfter later, same (by omega)]

theorem someChild {k min : Nat} (aligned : Aligned (k + 1) min) {codes} (present : codesIn (k + 1) min codes ≠ []) :
    ∃ i < 8, codesIn k (child k min i) codes ≠ [] := by
  obtain ⟨mem, has⟩ := codesInMem.mp (headMem present)
  refine ⟨_, digitLt k _, List.ne_nil_of_mem (codesInMem.mpr ⟨mem, childDigit aligned has⟩)⟩

-- A record of a unit that has points leaves at least one record below.
theorem splitSome (env : Readable u reads) {lod min data p} (cell : Cell u lod min) (mem : p ∈ data)
    (whole : Whole u (lod + 1) min p) (filled : u.codes p.inputId ≠ some []) :
    ∃ i < 8, p.inputId ∈ (splitData u lod min data i).map Subset.inputId := by
  obtain ⟨codes, unit, _, kind⟩ := id whole
  have some_ : codes ≠ [] := fun none => filled (unit.trans (congrArg some none))
  have present := kind.resolve_right some_
  obtain ⟨i, octant, there⟩ := someChild cell.aligned present
  refine ⟨i, octant, List.mem_map.mpr ⟨cellSubset p.inputId codes lod (child lod min i), ?_, rfl⟩⟩
  refine List.mem_flatMap.mpr ⟨p, mem, ?_⟩
  rw [partsOfWhole env cell whole unit some_ octant, expected, if_neg there]
  exact List.mem_singleton.mpr rfl

structure Divides (u : Units) (lod min : Nat) (data : List Subset) (before after : InputStorageMap × Children) :
    Prop where
  describes : after.1.Describes u.stored
  counts : ∀ id, after.1.refCount id + countOf id data =
    before.1.refCount id + overChildren fun i => countOf id (splitData u lod min data i)
  records : ∀ i, (after.2 i).data = (before.2 i).data ++ splitData u lod min data i
  gathered : ∀ i < 8, Gathered u lod (child lod min i) (after.2 i)
  discarded : (∀ p ∈ data, u.codes p.inputId ≠ some []) → after.1.discarded = before.1.discarded

theorem splitPointsSpec (env : Readable u reads) {lod min points} {s : InputStorageMap × Children} (cell : Cell u lod min)
    (described : s.1.Describes u.stored) (held : ∀ id, countOf id points.data ≤ s.1.refCount id)
    (whole : ∀ p ∈ points.data, Whole u (lod + 1) min p)
    (gathered : ∀ i < 8, Gathered u lod (child lod min i) (s.2 i)) :
    ∃ after, splitPointsToChildren reads lod min s points = some after ∧ Divides u lod min points.data s after := by
  have present : ∀ p ∈ points.data, 0 < s.1.refCount p.inputId := by
    intro p mem
    have one : 0 < countOf p.inputId points.data := List.countP_pos_iff.mpr ⟨p, mem, decide_eq_true rfl⟩
    exact one.trans_le (held p.inputId)
  obtain ⟨middle, split, all⟩ := splitAllSpec env cell described present whole gathered
  have enough : ∀ id, countOf id points.data ≤ middle.1.refCount id := by
    intro id
    rw [all.counts]
    exact (held id).trans (Nat.le_add_right _ _)
  obtain ⟨after, released, describedAfter, counts, same⟩ := releaseAllSpec all.describes enough
  refine ⟨(after, middle.2), ?_, describedAfter, fun id => ?_, all.data, all.gathered, fun filled => ?_⟩
  · rw [splitPointsToChildren, split]
    dsimp only
    rw [released]
    rfl
  · rw [counts, all.counts]
  · refine (same fun p mem => ?_).trans all.discarded
    obtain ⟨i, octant, there⟩ := splitSome env cell mem (whole p mem) (filled p mem)
    obtain ⟨q, here, equal⟩ := List.mem_map.mp there
    have one : 0 < countOf p.inputId (splitData u lod min points.data i) :=
      List.countP_pos_iff.mpr ⟨q, here, decide_eq_true equal⟩
    have some := one.trans_le (overChildrenLe (f := fun i => countOf p.inputId (splitData u lod min points.data i)) octant)
    have old := held p.inputId
    rw [all.counts]
    omega

-- The records of one unit, where it has at most one.
theorem splitRecords (env : Readable u reads) {lod min data id codes} (cell : Cell u lod min)
    (whole : ∀ p ∈ data, Whole u (lod + 1) min p) (unit : u.codes id = some codes) (some : codes ≠ []) {i}
    (octant : i < 8) :
    recordsOf id (splitData u lod min data i) =
      (recordsOf id data).flatMap fun _ => expected id codes lod (child lod min i) := by
  induction data with
  | nil => rfl
  | cons p rest ih =>
    obtain ⟨here, later⟩ := List.forall_mem_cons.mp whole
    have tail := ih later
    unfold recordsOf splitData at tail ⊢
    rw [List.flatMap_cons, List.filter_append, tail]
    have same := partsAtSame (partsOfMem env cell here) i
    by_cases own : p.inputId = id
    · have all : (partsAt (partsOf u lod min p) i).filter (fun q => q.inputId = id) = partsAt (partsOf u lod min p) i :=
        List.filter_eq_self.mpr fun q mem => decide_eq_true ((same q mem).trans own)
      rw [List.filter_cons_of_pos (by simpa using own), List.flatMap_cons, all]
      subst own
      rw [partsOfWhole env cell here unit some octant]
    · have none : (partsAt (partsOf u lod min p) i).filter (fun q => q.inputId = id) = [] := by
        refine List.filter_eq_nil_iff.mpr fun q mem => ?_
        rw [decide_eq_true_eq, same q mem]
        exact own
      rw [List.filter_cons_of_neg (by simpa using own), none, List.nil_append]

end Dewfall.TreeSplit
