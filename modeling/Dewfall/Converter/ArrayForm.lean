import Dewfall.Converter.ArrayBuild
import Dewfall.General.Blocks

/-! The arrays of one tree as they are kept: each level lists its nodes' children one node behind the other, and the
skips say where each node's begin. Putting a child or a sub-tree into the middle keeps them so. -/
namespace Dewfall.ArrayForm
open General.Blocks StorageMap PointSplitter MortonTree TreeReparent ArrayBuild
open LodWork (nodeAt dataAt setData setDataAt setDataSame)

/-! ## The octants of a mask -/

def octantsOf (node : Nat) : List Nat := (List.range 8).filter fun i => node.testBit i

def wide (node : Nat) : Nat := countSkips node 8

theorem wideLength (node : Nat) : (octantsOf node).length = wide node := rfl

theorem wideZero : wide 0 = 0 := countNone 8

theorem withBit (node i j : Nat) : (node ||| 1 <<< i).testBit j = (node.testBit j || decide (i = j)) := by
  rw [Nat.testBit_or, linkBit]

theorem filterBefore {node i n : Nat} (le : n ≤ i) :
    (List.range n).filter (fun j => (node ||| 1 <<< i).testBit j) = (List.range n).filter fun j => node.testBit j := by
  refine List.filter_congr fun j mem => ?_
  have less := List.mem_range.mp mem
  rw [withBit, decide_eq_false (by omega), Bool.or_false]

theorem skipsBefore {node i j : Nat} (le : j ≤ i) : countSkips (node ||| 1 <<< i) j = countSkips node j := by
  unfold countSkips
  rw [filterBefore le]

theorem skipsSplit (node : Nat) {i n : Nat} (less : i < n) : (List.range n).filter (fun j => node.testBit j) =
    (List.range i).filter (fun j => node.testBit j) ++ ((if node.testBit i then [i] else []) ++
      ((List.range' (i + 1) (n - i - 1)).filter fun j => node.testBit j)) := by
  have split : List.range n = List.range i ++ (i :: List.range' (i + 1) (n - i - 1)) := by
    rw [List.range_eq_range', List.range_eq_range']
    have cons : i :: List.range' (i + 1) (n - i - 1) = List.range' i (n - i) := by
      obtain ⟨m, same⟩ := Nat.exists_eq_add_one.mpr (Nat.sub_pos_of_lt less)
      rw [same, List.range'_succ]
      rfl
    rw [cons]
    have join := @List.range'_append 0 i (n - i) 1
    rw [Nat.one_mul, Nat.zero_add] at join
    rw [join]
    congr 1
    omega
  rw [split, List.filter_append, List.filter_cons]
  split <;> rfl

theorem filterAfter (node i n : Nat) : (List.range' (i + 1) n).filter (fun j => (node ||| 1 <<< i).testBit j) =
    (List.range' (i + 1) n).filter fun j => node.testBit j := by
  refine List.filter_congr fun j mem => ?_
  have above := (List.mem_range'_1.mp mem).1
  rw [withBit, decide_eq_false (by omega), Bool.or_false]

theorem octantsPut {node i : Nat} (octant : i < 8) (absent : node.testBit i = false) :
    octantsOf (node ||| 1 <<< i) = (octantsOf node).insertIdx (countSkips node i) i := by
  unfold octantsOf countSkips
  rw [skipsSplit _ octant, skipsSplit node octant, filterBefore (Nat.le_refl i), filterAfter, withBit, absent,
    decide_eq_true rfl, Bool.or_true]
  have put := @putRight Nat ((List.range i).filter fun j => node.testBit j)
    ((List.range' (i + 1) (8 - i - 1)).filter fun j => node.testBit j) 0 i
  simp only [if_true, Bool.false_eq_true, if_false, List.nil_append]
  exact put.symm

theorem skipsAfter {node i j : Nat} (absent : node.testBit i = false) (less : i < j) :
    countSkips (node ||| 1 <<< i) j = countSkips node j + 1 := by
  unfold countSkips
  rw [skipsSplit _ less, skipsSplit node less, filterBefore (Nat.le_refl i), filterAfter, withBit, absent,
    decide_eq_true rfl, Bool.or_true]
  simp only [if_true, Bool.false_eq_true, if_false, List.nil_append, List.length_append, List.length_singleton]
  omega

theorem wideWith {node i : Nat} (octant : i < 8) (absent : node.testBit i = false) : wide (node ||| 1 <<< i) = wide node + 1 :=
  skipsAfter absent octant

theorem skipsMono (node : Nat) {i j : Nat} (le : i ≤ j) : countSkips node i ≤ countSkips node j := by
  unfold countSkips
  exact (List.Sublist.filter _ (List.range_sublist.mpr le)).length_le

theorem skipsOne {node i : Nat} (here : node.testBit i = true) : countSkips node (i + 1) = countSkips node i + 1 := by
  unfold countSkips
  rw [List.range_succ, List.filter_append, List.length_append, List.filter_cons, if_pos here]
  rfl

theorem skipsLess {node i j : Nat} (here : node.testBit i = true) (less : i < j) : countSkips node i < countSkips node j := by
  have one := skipsOne here
  have mono := skipsMono node (show i + 1 ≤ j from less)
  omega

theorem octantAt {node i : Nat} (octant : i < 8) (here : node.testBit i = true) :
    (octantsOf node)[countSkips node i]? = some i := by
  unfold octantsOf countSkips
  rw [skipsSplit node octant, here, List.getElem?_append_right (Nat.le_refl _), Nat.sub_self]
  rfl

theorem wideNone (node : Nat) (small : node < 256) : wide node = 0 ↔ node = 0 := by
  constructor
  · intro none_
    refine Nat.eq_of_testBit_eq fun i => ?_
    rw [Nat.zero_testBit]
    by_cases octant : i < 8
    · by_contra here
      have less := skipsLess (Bool.eq_true_of_not_eq_false here) octant
      unfold wide at none_
      omega
    · exact Nat.testBit_lt_two_pow (small.trans_le (show 2 ^ 8 ≤ 2 ^ i from
        Nat.pow_le_pow_right (by decide) (Nat.le_of_not_lt octant)))
  · rintro rfl
    exact countNone 8

/-! ## The arrays -/

def childNames (level name node : Nat) : List Nat := (octantsOf node).map (getName name level ·)

theorem childNone (level name : Nat) : childNames level name 0 = [] :=
  List.map_eq_nil_iff.mpr (List.eq_nil_of_length_eq_zero wideZero)

def rows (l : Level) : List (Nat × Nat) := l.nodeIds.zip l.nodes

structure Formed (t : Tree) : Prop where
  ids : ∀ l < 5, (t.levels l).nodeIds.length = (t.levels l).nodes.length
  data : ∀ l < 5, (t.levels l).data.length = (t.levels l).nodes.length
  skips : ∀ l < 5, (t.levels l).skips = starts wide 0 (t.levels l).nodes
  masks : ∀ l < 5, ∀ node ∈ (t.levels l).nodes, node < 256
  root : (t.levels 0).nodes.length = 1
  rootName : (t.levels 0).nodeIds = [getName 0 0 (getChildMask (t.lod + 1) t.mortonMin)]
  names : ∀ l < 4, (t.levels (l + 1)).nodeIds = (rows (t.levels l)).flatMap fun row => childNames (l + 1) row.1 row.2
  subTrees : t.subTrees.length = total wide (t.levels 4).nodes

def childIndex (t : Tree) (l k i : Nat) : Option Nat :=
  match nodeAt t l k, (t.levels l).skips[k]? with
  | some node, some skips => if node.testBit i then some (skips + countSkips node i) else none
  | _, _ => none

theorem indexNone {t : Tree} {l k : Nat} (leaf : nodeAt t l k = some 0) (i : Nat) : childIndex t l k i = none := by
  unfold childIndex
  rw [leaf]
  cases (t.levels l).skips[k]? with
  | none => rfl
  | some skips => exact if_neg (by rw [Nat.zero_testBit]; exact Bool.false_ne_true)

theorem zipRight {α β : Type} (f : β → Nat) (a : List α) (b : List β) (same : a.length = b.length) :
    total (fun p : α × β => f p.2) (a.zip b) = total f b := by
  induction a generalizing b with
  | nil =>
    obtain rfl : b = [] := List.eq_nil_of_length_eq_zero same.symm
    rfl
  | cons x a ih =>
    cases b with
    | nil => cases same
    | cons y b => rw [List.zip_cons_cons, totalCons, totalCons, ih b (Nat.succ.inj same)]

namespace Formed
variable {t : Tree} (formed : Formed t)
include formed

theorem start {l k : Nat} (level : l < 5) (inside : k < (t.levels l).nodes.length) :
    (t.levels l).skips[k]? = some (total wide ((t.levels l).nodes.take k)) := by
  rw [formed.skips l level, startsAt 0 _ inside, Nat.zero_add]

theorem below {l : Nat} (level : l < 4) : (t.levels (l + 1)).nodes.length = total wide (t.levels l).nodes := by
  rw [← formed.ids (l + 1) (by omega), formed.names l level, flatLength]
  have each : (fun row : Nat × Nat => (childNames (l + 1) row.1 row.2).length) = fun row => wide row.2 := by
    funext row
    rw [childNames, List.length_map]
    rfl
  rw [each]
  exact @zipRight Nat Nat wide (t.levels l).nodeIds (t.levels l).nodes (formed.ids l (by omega))

theorem child {l k i node : Nat} (level : l < 5) (here : nodeAt t l k = some node) (there : node.testBit i = true) :
    childIndex t l k i = some (total wide ((t.levels l).nodes.take k) + countSkips node i) := by
  unfold childIndex
  rw [here, formed.start level (List.getElem?_eq_some_iff.mp here).1]
  dsimp only
  rw [if_pos there]

theorem childFound {l k i index : Nat} (level : l < 5) (found : childIndex t l k i = some index) :
    ∃ node, nodeAt t l k = some node ∧ node.testBit i = true ∧
      index = total wide ((t.levels l).nodes.take k) + countSkips node i := by
  unfold childIndex at found
  cases here : nodeAt t l k with
  | none => rw [here] at found; cases found
  | some node =>
    rw [here, formed.start level (List.getElem?_eq_some_iff.mp here).1] at found
    dsimp only at found
    split at found
    · rename_i there
      exact ⟨node, rfl, there, (Option.some.inj found).symm⟩
    · cases found

theorem childInside {l k i index : Nat} (level : l < 5) (octant : i < 8) (found : childIndex t l k i = some index) :
    index < total wide (t.levels l).nodes := by
  obtain ⟨node, here, there, rfl⟩ := formed.childFound level found
  have next := @totalTake Nat wide (t.levels l).nodes k node here
  have all := @totalAll Nat wide (t.levels l).nodes (k + 1)
  have less := skipsLess there octant
  unfold wide at *
  omega

theorem childUnique {l k k' i i' index : Nat} (level : l < 5) (octant : i < 8) (octant' : i' < 8)
    (found : childIndex t l k i = some index) (found' : childIndex t l k' i' = some index) : k = k' ∧ i = i' := by
  obtain ⟨node, here, there, rfl⟩ := formed.childFound level found
  obtain ⟨node', here', there', same⟩ := formed.childFound level found'
  obtain ⟨rfl, count⟩ :=
    @blockUnique _ wide _ _ _ _ _ _ _ here here' (skipsLess there octant) (skipsLess there' octant') same
  obtain rfl : node = node' := Option.some.inj (here.symm.trans here')
  refine ⟨rfl, ?_⟩
  rcases Nat.lt_trichotomy i i' with below | same | above
  · have less := skipsLess there below
    omega
  · exact same
  · have less := skipsLess there' above
    omega

theorem childName {l k i index : Nat} (level : l < 4) (octant : i < 8) (found : childIndex t l k i = some index) {name : Nat}
    (named : (t.levels l).nodeIds[k]? = some name) : (t.levels (l + 1)).nodeIds[index]? = some (getName name (l + 1) i) := by
  obtain ⟨node, here, there, rfl⟩ := formed.childFound (by omega) found
  have row : (rows (t.levels l))[k]? = some (name, node) := by
    rw [rows, List.getElem?_zip_eq_some]
    exact ⟨named, here⟩
  have same : total wide ((t.levels l).nodes.take k) =
      total (fun row : Nat × Nat => (childNames (l + 1) row.1 row.2).length) ((rows (t.levels l)).take k) := by
    have each : (fun row : Nat × Nat => (childNames (l + 1) row.1 row.2).length) = fun row => wide row.2 := by
      funext row
      rw [childNames, List.length_map]
      rfl
    rw [each, rows, List.zip, List.take_zipWith]
    refine (@zipRight Nat Nat wide _ _ ?_).symm
    rw [List.length_take, List.length_take, formed.ids l (by omega)]
  rw [formed.names l level, same, blockAt row]
  · change ((octantsOf node).map _)[_]? = _
    rw [List.getElem?_map, octantAt octant there]
    rfl
  · change _ < ((octantsOf node).map _).length
    rw [List.length_map]
    exact skipsLess there octant

end Formed

/-! ## A child more -/

def oldSkip (l : Level) (skip : Nat) : Nat :=
  if skip < l.skips.length then l.skips.getD skip 0
  else if 0 < skip ∧ skip = l.skips.length then l.skips.getLastD 0 + countSkips (l.nodes.getLastD 0) 8 else 0

def widened (l : Level) (k node i : Nat) : Level :=
  ⟨l.nodes.set k (node ||| 1 <<< i), l.skips.mapIdx fun j s => if k < j then s + 1 else s, l.nodeIds, l.data⟩

def filled (l : Level) (place name : Nat) : Level :=
  ⟨l.nodes.insertIdx place 0, l.skips.insertIdx place (oldSkip l place), (l.nodeIds.insertIdx place 0).set place name,
    l.data.insertIdx place empty⟩

theorem growLevels (t : Tree) (l k node i place name : Nat) : growChild t l k node i place name = { t with
    levels := Function.update (Function.update t.levels l (widened (t.levels l) k node i)) (l + 1)
      (filled (t.levels (l + 1)) place name) } := by
  have apart : l + 1 ≠ l := Nat.succ_ne_self l
  unfold growChild setNode increaseSkips allocChildren setName setLevel
  simp only [Function.update_self, Function.update_of_ne apart, Function.update_of_ne apart.symm]
  congr 1
  funext j
  by_cases top : j = l + 1
  · rw [top, Function.update_self, Function.update_self]
    rfl
  · rw [Function.update_of_ne top, Function.update_of_ne top]
    by_cases own : j = l
    · rw [own, Function.update_self, Function.update_self]
      rfl
    · rw [Function.update_of_ne own, Function.update_of_ne own, Function.update_of_ne top, Function.update_of_ne own]

theorem nameSet {list : List Nat} {place : Nat} (name : Nat) (within : place ≤ list.length) :
    (list.insertIdx place 0).set place name = list.insertIdx place name := by
  induction list generalizing place with
  | nil =>
    obtain rfl : place = 0 := Nat.le_zero.mp within
    rfl
  | cons x list ih =>
    cases place with
    | zero => rfl
    | succ place =>
      rw [List.insertIdx_succ_cons, List.set_cons_succ, ih (Nat.le_of_succ_le_succ within), List.insertIdx_succ_cons]

theorem lastTotal {list : List Nat} (some_ : list ≠ []) :
    (starts wide 0 list).getLastD 0 + wide (list.getLastD 0) = total wide list := by
  obtain ⟨front, last, rfl⟩ := List.eq_nil_or_concat list |>.resolve_left some_
  rw [List.concat_eq_append]
  have here : (front ++ [last])[front.length]? = some last := by
    rw [List.getElem?_append_right (Nat.le_refl _), Nat.sub_self]
    rfl
  have at_ := @startsAt Nat wide 0 (front ++ [last]) front.length (by rw [List.length_append]; exact Nat.lt_succ_self _)
  have length := @startsLength Nat wide 0 (front ++ [last])
  have next := @totalTake Nat wide (front ++ [last]) front.length last here
  have all : (front ++ [last]).take (front.length + 1) = front ++ [last] :=
    List.take_of_length_le (by rw [List.length_append]; exact Nat.le_refl _)
  rw [all] at next
  rw [List.getLastD_eq_getLast?, List.getLast?_eq_getElem?, length, List.length_append, List.length_singleton,
    Nat.add_sub_cancel, at_, List.getLastD_eq_getLast?, List.getLast?_append]
  simp only [Option.getD_some, List.getLast?_singleton, Option.some_or, Nat.zero_add]
  exact next.symm

theorem oldStart {l : Level} (skips : l.skips = starts wide 0 l.nodes) {place : Nat} (within : place ≤ l.nodes.length) :
    oldSkip l place = total wide (l.nodes.take place) := by
  unfold oldSkip
  rw [skips, startsLength]
  split
  · rename_i inside
    rw [List.getD_eq_getElem?_getD, startsAt 0 _ inside, Nat.zero_add]
    rfl
  · rename_i beyond
    have last : place = l.nodes.length := by omega
    split
    · rename_i some_
      have filled_ : l.nodes ≠ [] := by
        rintro none_
        rw [none_] at some_
        exact absurd some_.1 (by rw [some_.2]; decide)
      rw [last, List.take_length]
      exact lastTotal filled_
    · rename_i none_
      have empty_ : l.nodes = [] := by
        refine List.eq_nil_of_length_eq_zero ?_
        omega
      rw [empty_, List.take_nil]
      rfl

-- Where a child that is missing would be.
def placeOf (t : Tree) (l k node i : Nat) : Nat := total wide ((t.levels l).nodes.take k) + countSkips node i

structure Gap (t : Tree) (l k node i : Nat) : Prop where
  here : nodeAt t l k = some node
  octant : i < 8
  absent : node.testBit i = false

section
variable {t : Tree} {l k node i name : Nat}

theorem gapWithin (formed : Formed t) (level : l < 4) (gap : Gap t l k node i) :
    placeOf t l k node i ≤ (t.levels (l + 1)).nodes.length := by
  have next := @totalTake Nat wide (t.levels l).nodes k node gap.here
  have all := @totalAll Nat wide (t.levels l).nodes (k + 1)
  have mono := skipsMono node (Nat.le_of_lt gap.octant)
  rw [formed.below level]
  unfold placeOf
  unfold wide at *
  omega

theorem gapRows (formed : Formed t) (level : l < 4) (gap : Gap t l k node i) (named : (t.levels l).nodeIds[k]? = some name) :
    ((rows (t.levels l)).set k (name, node ||| 1 <<< i)).flatMap (fun row => childNames (l + 1) row.1 row.2) =
      (t.levels (l + 1)).nodeIds.insertIdx (placeOf t l k node i) (getName name (l + 1) i) := by
  have row : (rows (t.levels l))[k]? = some (name, node) := by
    rw [rows, List.getElem?_zip_eq_some]
    exact ⟨named, gap.here⟩
  have each : (fun row : Nat × Nat => (childNames (l + 1) row.1 row.2).length) = fun row => wide row.2 := by
    funext row
    rw [childNames, List.length_map]
    rfl
  have wider : childNames (l + 1) name (node ||| 1 <<< i) =
      (childNames (l + 1) name node).insertIdx (countSkips node i) (getName name (l + 1) i) := by
    unfold childNames
    rw [octantsPut gap.octant gap.absent, List.map_insertIdx]
  rw [flatWider (f := fun row : Nat × Nat => childNames (l + 1) row.1 row.2) row wider, formed.names l level]
  · congr 1
    rw [placeOf, each, rows, List.zip, List.take_zipWith]
    refine congrArg (· + _) (@zipRight Nat Nat wide _ _ ?_)
    rw [List.length_take, List.length_take, formed.ids l (by omega)]
  · change _ ≤ ((octantsOf node).map _).length
    rw [List.length_map]
    exact skipsMono node (Nat.le_of_lt gap.octant)

theorem rowsFilled {level : Level} {place : Nat} (even : level.nodeIds.length = level.nodes.length)
    (within : place ≤ level.nodes.length) :
    rows (filled level place name) = (rows level).insertIdx place (name, 0) := by
  unfold rows filled
  dsimp only
  rw [nameSet _ (even ▸ within), zipPut _ _ even]

theorem rowsWidened {level : Level} (named : level.nodeIds[k]? = some name) :
    rows (widened level k node i) = (rows level).set k (name, node ||| 1 <<< i) := zipSet named _

structure ChildGrown (t t' : Tree) (l k node i name : Nat) : Prop where
  own : t'.levels l = widened (t.levels l) k node i
  below : t'.levels (l + 1) = filled (t.levels (l + 1)) (placeOf t l k node i) name
  other : ∀ j, j ≠ l → j ≠ l + 1 → t'.levels j = t.levels j
  rest : t' = { t with levels := t'.levels }

theorem growGrown (t : Tree) (l k node i name : Nat) :
    ChildGrown t (growChild t l k node i (placeOf t l k node i) name) l k node i name := by
  rw [growLevels]
  refine ⟨?_, Function.update_self .., fun j apart apart' => ?_, rfl⟩
  · dsimp only
    rw [Function.update_of_ne (Nat.ne_of_lt (Nat.lt_succ_self l)), Function.update_self]
  · dsimp only
    rw [Function.update_of_ne apart', Function.update_of_ne apart]

theorem growFormed {t' : Tree} (formed : Formed t) (level : l < 4) (gap : Gap t l k node i)
    (named : (t.levels l).nodeIds[k]? = some name) (grown : ChildGrown t t' l k node i (getName name (l + 1) i)) :
    Formed t' := by
  obtain ⟨own, below, other, rest⟩ := grown
  have within := gapWithin formed level gap
  have low : l < 5 := by omega
  have next : l + 1 < 5 := by omega
  have wider : wide (node ||| 1 <<< i) = wide node + 1 := wideWith gap.octant gap.absent
  have lod : t'.lod = t.lod := by rw [rest]; rfl
  have min : t'.mortonMin = t.mortonMin := by rw [rest]
  have subTrees : t'.subTrees = t.subTrees := by rw [rest]
  refine ⟨fun j less => ?_, fun j less => ?_, fun j less => ?_, fun j less n mem => ?_, ?_, ?_, fun j less => ?_, ?_⟩
  · by_cases top : j = l + 1
    · rw [top, below, filled, List.length_set, List.length_insertIdx, List.length_insertIdx, formed.ids (l + 1) next]
    · by_cases here : j = l
      · rw [here, own, widened, List.length_set]
        exact formed.ids l low
      · rw [other j here top]
        exact formed.ids j less
  · by_cases top : j = l + 1
    · rw [top, below, filled, List.length_insertIdx, List.length_insertIdx, formed.data (l + 1) next]
    · by_cases here : j = l
      · rw [here, own, widened, List.length_set]
        exact formed.data l low
      · rw [other j here top]
        exact formed.data j less
  · by_cases top : j = l + 1
    · rw [top, below, filled, startsPut 0 within wideZero, oldStart (formed.skips (l + 1) next) within,
        formed.skips (l + 1) next, Nat.zero_add]
    · by_cases here : j = l
      · rw [here, own, widened, startsWider 0 gap.here wider, formed.skips l low]
      · rw [other j here top]
        exact formed.skips j less
  · by_cases top : j = l + 1
    · rw [top, below, filled] at mem
      rcases List.eq_or_mem_of_mem_insertIdx mem with rfl | old
      · decide
      · exact formed.masks (l + 1) next n old
    · by_cases here : j = l
      · rw [here, own, widened] at mem
        rcases List.mem_or_eq_of_mem_set mem with old | rfl
        · exact formed.masks l low n old
        · have old := formed.masks l low node (List.mem_of_getElem? gap.here)
          exact Nat.or_lt_two_pow (n := 8) old (by
            rw [Nat.one_shiftLeft]
            exact Nat.pow_lt_pow_right (by decide) gap.octant)
      · rw [other j here top] at mem
        exact formed.masks j less n mem
  · by_cases first : l = 0
    · rw [← first, own, widened, List.length_set, first]
      exact formed.root
    · rw [other 0 (Ne.symm first) (Nat.succ_ne_zero l).symm]
      exact formed.root
  · rw [lod, min]
    by_cases first : l = 0
    · rw [← first, own, widened, first]
      exact formed.rootName
    · rw [other 0 (Ne.symm first) (Nat.succ_ne_zero l).symm]
      exact formed.rootName
  · by_cases top : j = l + 1
    · subst top
      have even : (t.levels (l + 1)).nodeIds.length = (t.levels (l + 1)).nodes.length := formed.ids (l + 1) next
      rw [below, other (l + 2) (by omega) (by omega), formed.names (l + 1) less, rowsFilled even within]
      exact (flatPut (f := fun row : Nat × Nat => childNames (l + 2) row.1 row.2) (childNone ..)).symm
    · by_cases here : j = l
      · subst here
        have even : (t.levels (j + 1)).nodeIds.length = (t.levels (j + 1)).nodes.length := formed.ids (j + 1) next
        rw [below, own, rowsWidened named, filled]
        dsimp only
        rw [nameSet _ (even ▸ within)]
        exact (gapRows formed level gap named).symm
      · rw [other j here top]
        by_cases above : j + 1 = l
        · rw [above, own, widened, ← above]
          exact formed.names j less
        · rw [other (j + 1) above (by omega)]
          exact formed.names j less
  · rw [subTrees]
    by_cases last : l + 1 = 4
    · rw [← last, below, filled, totalPut wideZero, last]
      exact formed.subTrees
    · by_cases own4 : 4 = l
      · omega
      · rw [other 4 own4 (Ne.symm last)]
        exact formed.subTrees

/-! ## What the others see of it -/

theorem widenedSkip {l : Level} {k k' : Nat} (node i : Nat) :
    (widened l k node i).skips[k']? = l.skips[k']?.map fun s => if k < k' then s + 1 else s := by
  unfold widened
  dsimp only
  rw [List.getElem?_mapIdx]

-- A child that was there is found where the element put in has moved it.
theorem widenedChild {t' : Tree} (formed : Formed t) (level : l < 5) (gap : Gap t l k node i)
    (own : t'.levels l = widened (t.levels l) k node i) {k' j : Nat} (octant : j < 8) : childIndex t' l k' j =
      if k' = k ∧ j = i then some (placeOf t l k node i) else (childIndex t l k' j).map (moved (placeOf t l k node i)) := by
  have inside : k < (t.levels l).nodes.length := (List.getElem?_eq_some_iff.mp gap.here).1
  have here' : nodeAt t' l k' = if k = k' then some (node ||| 1 <<< i) else nodeAt t l k' := by
    unfold nodeAt
    rw [own, widened]
    dsimp only
    rw [List.getElem?_set]
    by_cases same : k = k'
    · rw [if_pos same, if_pos same, if_pos inside]
    · rw [if_neg same, if_neg same]
  have skip' : (t'.levels l).skips[k']? = (t.levels l).skips[k']?.map fun s => if k < k' then s + 1 else s := by
    rw [own, widenedSkip]
  by_cases same : k' = k
  · subst same
    have start := formed.start level inside
    by_cases new : j = i
    · subst new
      rw [if_pos ⟨rfl, rfl⟩]
      unfold childIndex
      rw [here', if_pos rfl, skip', start]
      dsimp only [Option.map_some]
      rw [if_neg (Nat.lt_irrefl _), withBit, decide_eq_true rfl, Bool.or_true, if_pos rfl, skipsBefore (Nat.le_refl j)]
      rfl
    · rw [if_neg (show ¬(k' = k' ∧ j = i) from fun both => new both.2)]
      unfold childIndex
      rw [here', if_pos rfl, skip', start, gap.here]
      dsimp only [Option.map_some]
      rw [if_neg (Nat.lt_irrefl _), withBit, decide_eq_false (Ne.symm new), Bool.or_false]
      by_cases there : node.testBit j = true
      · rw [if_pos there, if_pos there, Option.map_some]
        rcases Nat.lt_or_gt_of_ne new with before | after
        · have less := skipsLess there before
          rw [skipsBefore (Nat.le_of_lt before), movedBelow (by unfold placeOf; omega)]
        · have le := skipsMono node (Nat.le_of_lt after)
          rw [skipsAfter gap.absent after, movedAbove (by unfold placeOf; omega), Nat.add_assoc]
      · rw [if_neg there, if_neg there]
        rfl
  · rw [if_neg fun both => same both.1]
    unfold childIndex
    rw [here', if_neg (Ne.symm same), skip']
    cases there : nodeAt t l k' with
    | none => rfl
    | some other =>
      have inside' : k' < (t.levels l).nodes.length := (List.getElem?_eq_some_iff.mp there).1
      rw [formed.start level inside', Option.map_some]
      dsimp only
      by_cases bit : other.testBit j = true
      · rw [if_pos bit, if_pos bit, Option.map_some]
        have next := @totalTake Nat wide (t.levels l).nodes k node gap.here
        have next' := @totalTake Nat wide (t.levels l).nodes k' other there
        have most := skipsMono node (Nat.le_of_lt gap.octant)
        have less := skipsLess bit octant
        unfold wide at next next'
        rcases Nat.lt_or_gt_of_ne same with before | after
        · have mono := @totalMono Nat wide (t.levels l).nodes (k' + 1) k before
          unfold wide at mono
          rw [if_neg (by omega), movedBelow (by unfold placeOf wide; omega)]
        · have mono := @totalMono Nat wide (t.levels l).nodes (k + 1) k' after
          unfold wide at mono
          rw [if_pos after, movedAbove (by unfold placeOf wide; omega)]
          exact congrArg some (by omega)
      · rw [if_neg bit, if_neg bit]
        rfl

namespace ChildGrown
variable {t' : Tree} (grown : ChildGrown t t' l k node i name)
include grown

theorem nodeBelow (k' : Nat) : nodeAt t' (l + 1) (moved (placeOf t l k node i) k') = nodeAt t (l + 1) k' := by
  unfold nodeAt
  rw [grown.below, filled]
  exact putMoved ..

theorem dataBelow (k' : Nat) : dataAt t' (l + 1) (moved (placeOf t l k node i) k') = dataAt t (l + 1) k' := by
  unfold dataAt
  rw [grown.below, filled]
  exact putMoved ..

theorem childBelow (k' j : Nat) :
    childIndex t' (l + 1) (moved (placeOf t l k node i) k') j = childIndex t (l + 1) k' j := by
  unfold childIndex
  rw [grown.nodeBelow, grown.below, filled]
  dsimp only
  rw [putMoved]

theorem dataOwn (k' : Nat) : dataAt t' l k' = dataAt t l k' := by
  unfold dataAt
  rw [grown.own, widened]

theorem dataOther {m : Nat} (apart : m ≠ l) (apart' : m ≠ l + 1) (k' : Nat) : dataAt t' m k' = dataAt t m k' := by
  unfold dataAt
  rw [grown.other m apart apart']

theorem childOther {m : Nat} (apart : m ≠ l) (apart' : m ≠ l + 1) (k' j : Nat) :
    childIndex t' m k' j = childIndex t m k' j := by
  unfold childIndex nodeAt
  rw [grown.other m apart apart']

-- The child itself has nothing yet.
theorem fresh (formed : Formed t) (level : l < 4) (gap : Gap t l k node i) :
    nodeAt t' (l + 1) (placeOf t l k node i) = some 0 ∧ dataAt t' (l + 1) (placeOf t l k node i) = some empty ∧
      (t'.levels (l + 1)).nodeIds[placeOf t l k node i]? = some name := by
  have within := gapWithin formed level gap
  unfold nodeAt dataAt
  rw [grown.below, filled]
  dsimp only
  refine ⟨putHere _ within, putHere _ (formed.data (l + 1) (by omega) ▸ within), ?_⟩
  rw [nameSet _ (formed.ids (l + 1) (by omega) ▸ within)]
  exact putHere _ (formed.ids (l + 1) (by omega) ▸ within)

end ChildGrown

/-! ## A sub-tree more -/

structure TreeHung (t t' : Tree) (k node i sub : Nat) : Prop where
  own : t'.levels 4 = widened (t.levels 4) k node i
  other : ∀ j, j ≠ 4 → t'.levels j = t.levels j
  subTrees : t'.subTrees = t.subTrees.insertIdx (placeOf t 4 k node i) sub
  rest : t' = { t with levels := t'.levels, subTrees := t'.subTrees }

theorem hangHung (t : Tree) (k node i sub : Nat) :
    TreeHung t (hangTree t k node i (placeOf t 4 k node i) sub) k node i sub := by
  unfold hangTree increaseSkips addSubTree setNode setLevel
  refine ⟨?_, fun j apart => ?_, rfl, rfl⟩
  · simp only [Function.update_self]
    rfl
  · simp only [Function.update_of_ne apart]

theorem hungFormed {t' : Tree} {sub : Nat} (formed : Formed t) (gap : Gap t 4 k node i) (hung : TreeHung t t' k node i sub) :
    Formed t' := by
  obtain ⟨own, other, subTrees, rest⟩ := hung
  have wider : wide (node ||| 1 <<< i) = wide node + 1 := wideWith gap.octant gap.absent
  have lod : t'.lod = t.lod := by rw [rest]; rfl
  have min : t'.mortonMin = t.mortonMin := by rw [rest]
  have next := @totalTake Nat wide (t.levels 4).nodes k node gap.here
  have all := @totalAll Nat wide (t.levels 4).nodes (k + 1)
  have most := skipsMono node (Nat.le_of_lt gap.octant)
  refine ⟨fun j less => ?_, fun j less => ?_, fun j less => ?_, fun j less n mem => ?_, ?_, ?_, fun j less => ?_, ?_⟩
  · by_cases last : j = 4
    · rw [last, own, widened, List.length_set]
      exact formed.ids 4 (by decide)
    · rw [other j last]
      exact formed.ids j less
  · by_cases last : j = 4
    · rw [last, own, widened, List.length_set]
      exact formed.data 4 (by decide)
    · rw [other j last]
      exact formed.data j less
  · by_cases last : j = 4
    · rw [last, own, widened, startsWider 0 gap.here wider, formed.skips 4 (by decide)]
    · rw [other j last]
      exact formed.skips j less
  · by_cases last : j = 4
    · rw [last, own, widened] at mem
      rcases List.mem_or_eq_of_mem_set mem with old | rfl
      · exact formed.masks 4 (by decide) n old
      · have old := formed.masks 4 (by decide) node (List.mem_of_getElem? gap.here)
        exact Nat.or_lt_two_pow (n := 8) old (by
          rw [Nat.one_shiftLeft]
          exact Nat.pow_lt_pow_right (by decide) gap.octant)
    · rw [other j last] at mem
      exact formed.masks j less n mem
  · rw [other 0 (by decide)]
    exact formed.root
  · rw [lod, min, other 0 (by decide)]
    exact formed.rootName
  · rw [other j (by omega)]
    by_cases last : j + 1 = 4
    · rw [last, own, widened]
      dsimp only
      rw [← last]
      exact formed.names j less
    · rw [other (j + 1) last]
      exact formed.names j less
  · rw [subTrees, own, widened, totalWider gap.here wider, List.length_insertIdx, formed.subTrees, if_pos]
    unfold placeOf wide at *
    omega

end

/-! ## New trees -/

theorem rootFormed {t : Tree} {name : Nat} (blank : t.levels = fun _ => blankLevel) (none_ : t.subTrees = [])
    (named : name = getName 0 0 (getChildMask (t.lod + 1) t.mortonMin)) : Formed (pushRoot t name) := by
  have first : (pushRoot t name).levels 0 = ⟨[0], [0], [name], [empty]⟩ := by
    unfold pushRoot
    rw [setLevelSelf, blank]
    rfl
  have later : ∀ l, (pushRoot t name).levels (l + 1) = blankLevel := by
    intro l
    unfold pushRoot setLevel
    dsimp only
    rw [Function.update_of_ne (Nat.succ_ne_zero l), blank]
  have each : ∀ P : Level → Prop, P ⟨[0], [0], [name], [empty]⟩ → P blankLevel →
      ∀ l, P ((pushRoot t name).levels l) := by
    intro P start rest l
    cases l with
    | zero => exact first ▸ start
    | succ l => exact later l ▸ rest
  refine ⟨fun l _ => each (fun level => level.nodeIds.length = level.nodes.length) rfl rfl l,
    fun l _ => each (fun level => level.data.length = level.nodes.length) rfl rfl l,
    fun l _ => each (fun level => level.skips = starts wide 0 level.nodes) rfl rfl l,
    fun l _ => each (fun level => ∀ node ∈ level.nodes, node < 256) (fun node mem => ?_) (fun _ mem => nomatch mem) l,
    by rw [first]; rfl,
    by rw [first, named]; rfl, fun l _ => ?_, ?_⟩
  · rw [List.mem_singleton.mp mem]
    decide
  · rw [later]
    exact each (fun level => [] = (rows level).flatMap fun row => childNames (l + 1) row.1 row.2)
      (by
        change [] = childNames (l + 1) name 0 ++ []
        rw [childNone]
        rfl) rfl l
  · rw [later]
    exact congrArg List.length none_

end Dewfall.ArrayForm
