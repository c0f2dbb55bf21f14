import Dewfall.Core.MortonTree
import Dewfall.Core.StorageMap
import Dewfall.General.SortedWindows
import Mathlib.Data.List.Basic

/-! Splitting a window of a stored unit into the octants of a cell. A unit is stored in the narrowest
format its span allows; its codes are compared in that format. Attributes are left out, and so are
assertions that a release build drops. -/
namespace Dewfall.PointSplitter
open General General.Cells General.SortedWindows MortonTree
open Morton (Format)
open StorageMap (InputId)

structure Header where
  inputId : InputId
  pointCount : Nat
  mortonMin : Nat
  mortonMax : Nat
  lodSpan : Nat
  format : Format
  deriving DecidableEq, Repr

-- What a read of a unit's first blob gives.
structure Points where
  header : Header
  codes : List Nat
  deriving DecidableEq, Repr

structure Subset where
  inputId : InputId
  offset : Nat
  count : Nat
  deriving DecidableEq, Repr

structure Collection where
  pointCount : Nat
  min : Nat
  max : Nat
  minLod : Nat
  data : List Subset
  deriving DecidableEq, Repr

def empty : Collection := ⟨0, 0, 0, 0, []⟩

-- What the sorter stores for codes in ascending order; an empty batch has zero bounds.
def sortedUnit (id : InputId) (codes : List Nat) : Points :=
  let first := codes.headD 0
  let last := codes.getLastD 0
  let lodSpan := mortonLod first last
  let format := typeFromLod lodSpan
  ⟨⟨id, codes.length, first, last, lodSpan, format⟩, codes.map (downcast format)⟩

structure Octant where
  index : Nat
  offset : Nat
  codes : List Nat
  deriving DecidableEq, Repr

def octantRanges (nodeMask : Nat → Nat) : Nat → Nat → Nat → List Nat → List Octant
  | 0, _, _, _ => []
  | _ + 1, _, _, [] => []
  | turns + 1, i, offset, first :: rest =>
    if nodeMask i ≤ first then octantRanges nodeMask turns (i + 1) offset (first :: rest)
    else
      -- `std::lower_bound`
      let range := (first :: rest).takeWhile (· < nodeMask i)
      ⟨i, offset, range⟩ ::
        octantRanges nodeMask turns (i + 1) (offset + range.length) ((first :: rest).drop range.length)

-- Behind the last octant the mask is one more than the cell's largest code, in the stored width.
def nodeMask (f : Format) (lod nodeMin i : Nat) : Nat :=
  if i = 7 then (maskMax lod (downcast f nodeMin) + 1) % 2 ^ f.total
  else setChildMask lod (i + 1) (downcast f nodeMin)

def forEachOctantRange (f : Format) (lod nodeMin offset : Nat) (codes : List Nat) : List Octant :=
  octantRanges (nodeMask f lod nodeMin) 8 0 offset codes

structure Part where
  child : Nat
  subset : Subset
  first : Nat
  last : Nat
  deriving DecidableEq, Repr

-- A level above every stored digit takes the whole unit.
def pointBufferSubdivide (points : Points) (subset : Subset) (lod nodeMin : Nat) : List Part :=
  let f := points.header.format
  if f.total < lod * 3 + 3 then
    [⟨getChildMask lod points.header.mortonMin, ⟨subset.inputId, 0, points.header.pointCount⟩,
      points.header.mortonMin, points.header.mortonMax⟩]
  else
    (forEachOctantRange f lod nodeMin subset.offset ((points.codes.drop subset.offset).take subset.count)).map
      fun o => ⟨o.index, ⟨subset.inputId, o.offset, o.codes.length⟩, upcast f (o.codes.headD 0) nodeMin,
        upcast f (o.codes.getLastD 0) nodeMin⟩

def addSubsetToChild (part : Part) (child : Collection) : Collection :=
  let data := child.data ++ [part.subset]
  let pointCount := child.pointCount + part.subset.count
  if child.pointCount = 0 then ⟨pointCount, part.first, part.last, mortonLod part.first part.last, data⟩
  else
    let min := if part.first < child.min then part.first else child.min
    let max := if child.max < part.last then part.last else child.max
    let modified := part.first < child.min ∨ child.max < part.last
    ⟨pointCount, min, max, if modified then mortonLod min max else child.minLod, data⟩

/-! ## Windows -/

abbrev codesIn (k min : Nat) (codes : List Nat) : List Nat := between min (min + 8 ^ k) codes

def cellSubset (id : InputId) (codes : List Nat) (k min : Nat) : Subset :=
  ⟨id, offset min codes, (codesIn k min codes).length⟩

theorem codesInMem {k min c codes} : c ∈ codesIn k min codes ↔ c ∈ codes ∧ Has k min c := betweenMem

-- The octants that a sorted list has codes in, between bounds that do not fall.
def expectedOctants (bound : Nat → Nat) (base : Nat) (codes : List Nat) (indices : List Nat) : List Octant :=
  indices.filterMap fun i =>
    if between (bound i) (bound (i + 1)) codes = [] then none
    else some ⟨i, base + offset (bound i) codes, between (bound i) (bound (i + 1)) codes⟩

theorem expectedCons (bound : Nat → Nat) (base : Nat) (codes : List Nat) (i : Nat) (rest : List Nat) :
    expectedOctants bound base codes (i :: rest) =
      if between (bound i) (bound (i + 1)) codes = [] then expectedOctants bound base codes rest
      else ⟨i, base + offset (bound i) codes, between (bound i) (bound (i + 1)) codes⟩ ::
        expectedOctants bound base codes rest := by
  unfold expectedOctants
  rw [List.filterMap_cons]
  split <;> rename_i found
  · split at found
    · rename_i none
      rw [if_pos none]
    · cases found
  · split at found
    · cases found
    · rename_i some
      rw [if_neg some]
      cases found
      rfl

theorem octantRangesNil (mask : Nat → Nat) (turns i offset : Nat) : octantRanges mask turns i offset [] = [] := by
  cases turns <;> rfl

theorem octantsSorted {mask : Nat → Nat} (bound : Nat → Nat) (base : Nat) {codes} (sorted : Sorted codes)
    (rising : ∀ i j, i ≤ j → bound i ≤ bound j) {turns i}
    (same : ∀ j, i ≤ j → j < i + turns → codes.filter (bound j ≤ ·) ≠ [] → mask j = bound (j + 1)) :
    octantRanges mask turns i (base + offset (bound i) codes) (codes.filter (bound i ≤ ·)) =
      expectedOctants bound base codes (List.range' i turns) := by
  induction turns generalizing i with
  | zero => rfl
  | succ turns ih =>
    have next := ih (i := i + 1) fun j low high => same j (by omega) (by omega)
    have step : bound i ≤ bound (i + 1) := rising _ _ (Nat.le_succ i)
    have ahead := offsetBetween step codes
    rw [List.range'_succ, expectedCons]
    have rest : (codes.filter (bound i ≤ ·)).filter (bound (i + 1) ≤ ·) = codes.filter (bound (i + 1) ≤ ·) := by
      rw [List.filter_filter]
      refine List.filter_congr fun c _ => ?_
      rw [← Bool.decide_and, decide_eq_decide]
      omega
    have kept := sorted.filter (bound i ≤ ·)
    have range : (codes.filter (bound i ≤ ·)).takeWhile (· < bound (i + 1)) =
        between (bound i) (bound (i + 1)) codes := by rw [takeWhileFilter kept, filterBetween]
    have left : (codes.filter (bound i ≤ ·)).drop (between (bound i) (bound (i + 1)) codes).length =
        codes.filter (bound (i + 1) ≤ ·) := by
      have whole : codes.filter (bound i ≤ ·) =
          between (bound i) (bound (i + 1)) codes ++ codes.filter (bound (i + 1) ≤ ·) := by
        rw [← range, ← rest, ← dropWhileFilter kept, List.takeWhile_append_dropWhile]
      rw [whole]
      exact List.drop_left
    cases cur : codes.filter (bound i ≤ ·) with
    | nil =>
      rw [cur] at range left
      have none : between (bound i) (bound (i + 1)) codes = [] := range.symm
      rw [none] at ahead
      rw [if_pos none, octantRanges]
      rw [← left, List.drop_nil, octantRangesNil] at next
      exact next
    | cons first later =>
      have here : mask i = bound (i + 1) := same i (Nat.le_refl i) (by omega) (cur ▸ List.cons_ne_nil first later)
      rw [cur] at range left
      rw [octantRanges, here]
      split
      · rename_i above
        have none : between (bound i) (bound (i + 1)) codes = [] := by
          rw [← range, List.takeWhile_cons_of_neg (by simpa using above)]
        rw [none] at ahead left
        rw [if_pos none, ← next, ahead, ← left]
        rfl
      · rename_i below
        have some : between (bound i) (bound (i + 1)) codes ≠ [] := by
          rw [← range, List.takeWhile_cons_of_pos (by simpa using below)]
          exact List.cons_ne_nil _ _
        rw [if_neg some, range]
        dsimp only
        rw [left, ← next, ahead, Nat.add_assoc]

/-! ## A sorted unit -/

def formatOf (codes : List Nat) : Format := (sortedUnit ⟨0, 0⟩ codes).header.format

theorem headLe {codes : List Nat} (sorted : Sorted codes) {c} (mem : c ∈ codes) : codes.headD 0 ≤ c := by
  cases codes with
  | nil => cases mem
  | cons first rest =>
    rcases List.mem_cons.mp mem with rfl | later
    · exact Nat.le_refl _
    · exact (List.pairwise_cons.mp sorted).1 c later

theorem leLast {codes : List Nat} (sorted : Sorted codes) {c} (mem : c ∈ codes) : c ≤ codes.getLastD 0 := by
  obtain ⟨before, last, rfl⟩ := List.eq_nil_or_concat codes |>.resolve_left (List.ne_nil_of_mem mem)
  rw [List.concat_eq_append] at mem sorted ⊢
  rw [List.getLastD_concat]
  rcases List.mem_append.mp mem with inside | here
  · exact (List.pairwise_append.mp sorted).2.2 c inside last (List.mem_singleton.mpr rfl)
  · exact Nat.le_of_eq (List.mem_singleton.mp here)

theorem headMem {codes : List Nat} (some : codes ≠ []) : codes.headD 0 ∈ codes := by
  cases codes with
  | nil => contradiction
  | cons first rest => exact List.mem_cons_self

theorem lastMem {codes : List Nat} (some : codes ≠ []) : codes.getLastD 0 ∈ codes := by
  rw [List.getLastD_eq_getLast?, List.getLast?_eq_some_getLast some]
  exact List.getLast_mem some

theorem spanLt {a b : Nat} (first : a < 8 ^ 64) (second : b < 8 ^ 64) : mortonLod a b < 64 := by
  have power : (8 : Nat) ^ 64 = 2 ^ 192 := by decide
  rw [power] at first second
  have both : a ^^^ b < 2 ^ 192 := Nat.xor_lt_two_pow first second
  unfold mortonLod
  rcases Nat.eq_zero_or_pos (a ^^^ b) with same | apart
  · rw [same]
    decide
  · have near := (Nat.log2_lt (Nat.pos_iff_ne_zero.mp apart)).mpr both
    omega

theorem unitSame {codes : List Nat} (sorted : Sorted codes) {k}
    (wide : mortonLod (codes.headD 0) (codes.getLastD 0) < k) :
    ∀ c ∈ codes, c / 8 ^ k = codes.headD 0 / 8 ^ k :=
  fun _ mem => lodBetween wide (headLe sorted mem) (leLast sorted mem)

theorem formatWide {codes : List Nat} (width : ∀ c ∈ codes, c < 8 ^ 64) :
    mortonLod (codes.headD 0) (codes.getLastD 0) < digits (formatOf codes) := by
  refine typeWide ?_
  by_cases some : codes = []
  · subst some
    decide
  · exact spanLt (width _ (headMem some)) (width _ (lastMem some))

theorem storedWindow {id codes k min} (sorted : Sorted codes) :
    ((sortedUnit id codes).codes.drop (cellSubset id codes k min).offset).take (cellSubset id codes k min).count =
      (codesIn k min codes).map (downcast (formatOf codes)) := by
  change ((codes.map (downcast (formatOf codes))).drop (offset min codes)).take (codesIn k min codes).length = _
  rw [← List.map_drop, ← List.map_take, windowSorted sorted]

theorem localCode {f : Format} {k min c} (le : k ≤ digits f) (aligned : Aligned k min) (has : Has k min c) :
    downcast f c + floor (digits f) min = c ∧ c / 8 ^ digits f = min / 8 ^ digits f := by
  have same : c / 8 ^ digits f = min / 8 ^ digits f := by
    obtain ⟨j, wide⟩ := Nat.exists_eq_add_of_le le
    have low := (hasDiv aligned).mp has
    rw [wide, Nat.pow_add, ← Nat.div_div_eq_div_mul, ← Nat.div_div_eq_div_mul, low]
  refine ⟨?_, same⟩
  rw [downcast, floor, ← same, Nat.add_comm]
  exact Nat.div_add_mod' c _

def expectedPart (id : InputId) (codes : List Nat) (lod min i : Nat) : Option Part :=
  if codesIn lod (child lod min i) codes = [] then none
  else some ⟨i, cellSubset id codes lod (child lod min i), (codesIn lod (child lod min i) codes).headD 0,
    (codesIn lod (child lod min i) codes).getLastD 0⟩

def expectedParts (id : InputId) (codes : List Nat) (lod min : Nat) : List Part :=
  (List.range' 0 8).filterMap (expectedPart id codes lod min)

theorem childRising {k min : Nat} (i j : Nat) (le : i ≤ j) : child k min i ≤ child k min j := childLe le

theorem stepWithin {w a b : Nat} (first : w ∣ a) (second : w ∣ b) (lt : a < b) : a + w ≤ b := by
  obtain ⟨p, rfl⟩ := first
  obtain ⟨q, rfl⟩ := second
  have step : p < q := Nat.lt_of_mul_lt_mul_left lt
  exact Nat.mul_le_mul_left w step

theorem maskBound {f : Format} {lod min i} (octant : i < 8) (le : lod + 1 ≤ digits f)
    (aligned : Aligned (lod + 1) min) (top : (min + 8 ^ (lod + 1) < 8 ^ 64 ∨ f ≠ .m192) ∨ i ≠ 7) :
    nodeMask f lod min i = child lod (downcast f min) (i + 1) := by
  obtain ⟨sum, _⟩ := localCode le aligned hasSelf
  have low : Aligned (lod + 1) (downcast f min) := by
    have above : Aligned (lod + 1) (floor (digits f) min) := alignedOf le (floorAligned _ _)
    rw [← sum] at aligned
    exact (Nat.dvd_add_left above).mp aligned
  unfold nodeMask
  split
  · rename_i last
    subst last
    have positive := powPositive (lod + 1)
    have bound : downcast f min + 8 ^ (lod + 1) < 2 ^ f.total := by
      have inside : downcast f min < 8 ^ digits f := Nat.mod_lt _ (powPositive _)
      have room := stepWithin low (Nat.pow_dvd_pow 8 le) inside
      have below : downcast f min ≤ min := Nat.mod_le _ _
      generalize downcast f min = localMin at *
      generalize 8 ^ (lod + 1) = width at *
      cases f with
      | m32 => exact room.trans_lt (by decide)
      | m64 => exact room.trans_lt (by decide)
      | m128 => exact room.trans_lt (by decide)
      | m192 =>
        have inCode := (top.resolve_right fun inner => inner rfl).resolve_right fun narrow => narrow rfl
        exact (Nat.add_le_add_right below width).trans_lt (inCode.trans_le (by decide))
    rw [maskMax, floorOf low hasSelf, Nat.add_assoc, Nat.sub_add_cancel positive, Nat.mod_eq_of_lt bound, childEnd]
  · exact setChild low

theorem filterMapOne {α β : Type*} {g : α → Option β} {l : List α} {a b} (mem : a ∈ l) (once : l.Nodup)
    (here : g a = some b) (others : ∀ x ∈ l, x ≠ a → g x = none) : l.filterMap g = [b] := by
  induction l with
  | nil => cases mem
  | cons x rest ih =>
    obtain ⟨fresh, distinct⟩ := List.nodup_cons.mp once
    by_cases same : x = a
    · subst same
      have nothing : rest.filterMap g = [] := List.filterMap_eq_nil_iff.mpr fun y later =>
        others y (List.mem_cons_of_mem _ later) fun equal => fresh (equal ▸ later)
      rw [List.filterMap_cons_some here, nothing]
    · rw [List.filterMap_cons_none (others x List.mem_cons_self same)]
      exact ih ((List.mem_cons.mp mem).resolve_left (Ne.symm same)) distinct
        fun y later => others y (List.mem_cons_of_mem _ later)

theorem narrowExact {id codes lod min} (sorted : Sorted codes) (width : ∀ c ∈ codes, c < 8 ^ 64)
    (aligned : Aligned (lod + 1) min) (present : codesIn (lod + 1) min codes ≠ [])
    (narrow : digits (formatOf codes) ≤ lod) :
    expectedParts id codes lod min = [⟨getChildMask lod (codes.headD 0), ⟨id, 0, codes.length⟩, codes.headD 0,
      codes.getLastD 0⟩] := by
  have wide : mortonLod (codes.headD 0) (codes.getLastD 0) < lod := (formatWide width).trans_le narrow
  obtain ⟨mem, inside⟩ := codesInMem.mp (headMem present)
  have all : ∀ c ∈ codes, Has lod (child lod min (digit lod (codes.headD 0))) c := by
    intro c here
    have same := unitSame sorted wide c here
    have first := unitSame sorted wide _ mem
    have cell : Has (lod + 1) min c := by
      rw [hasDiv aligned] at inside ⊢
      rw [Nat.pow_succ, ← Nat.div_div_eq_div_mul] at inside ⊢
      rw [same, ← first, inside]
    rw [← digitSame same]
    exact childDigit aligned cell
  refine filterMapOne (a := digit lod (codes.headD 0)) ?_ List.nodup_range' ?_ ?_
  · rw [List.mem_range'_1]
    have octant := digitLt lod (codes.headD 0)
    omega
  · have whole : codesIn lod (child lod min (digit lod (codes.headD 0))) codes = codes := betweenAll all
    have zero : offset (child lod min (digit lod (codes.headD 0))) codes = 0 :=
      List.countP_eq_zero.mpr fun c here => by simpa using (all c here).1
    have some : codes ≠ [] := List.ne_nil_of_mem mem
    rw [expectedPart, whole, if_neg some, cellSubset, whole, zero]
    rfl
  · intro i octant other
    rw [List.mem_range'_1] at octant
    refine if_pos (List.eq_nil_iff_forall_not_mem.mpr fun c here => other ?_)
    obtain ⟨here, cell⟩ := codesInMem.mp here
    have own := childOf aligned (digitLt lod _) (all c here)
    rw [← own]
    exact (childOf aligned (by omega) cell).symm

-- A window in a stored width is the window shifted down to the node's place in that width.
structure Shifted (f : Format) (codes : List Nat) (lod min i : Nat) : Prop where
  window : between (child lod (downcast f min) i) (child lod (downcast f min) (i + 1))
    ((codesIn (lod + 1) min codes).map (downcast f)) = (codesIn lod (child lod min i) codes).map (downcast f)
  place : offset min codes + offset (child lod (downcast f min) i) ((codesIn (lod + 1) min codes).map (downcast f)) =
    offset (child lod min i) codes

theorem shiftedOctant {f : Format} (codes : List Nat) {lod min i} (le : lod + 1 ≤ digits f) (aligned : Aligned (lod + 1) min)
    (octant : i < 8) : Shifted f codes lod min i := by
  have here : ∀ c ∈ codesIn (lod + 1) min codes, downcast f c + floor (digits f) min = c :=
    fun c mem => (localCode le aligned (codesInMem.mp mem).2).1
  obtain ⟨place, _⟩ := localCode le aligned hasSelf
  have moved : ∀ j, child lod (downcast f min) j + floor (digits f) min = child lod min j := by
    intro j
    unfold child
    omega
  have first := moved i
  have second := moved (i + 1)
  have start : min ≤ child lod min i := Nat.le_add_right _ _
  have stop : child lod min (i + 1) ≤ min + 8 ^ (lod + 1) := by
    rw [← childEnd]
    exact childLe octant
  constructor
  · have window : codesIn lod (child lod min i) codes =
        between (child lod min i) (child lod min (i + 1)) (codesIn (lod + 1) min codes) := by
      rw [betweenNested start stop, codesIn, childStop]
    rw [window, between, List.filter_map]
    congr 1
    refine List.filter_congr fun c mem => ?_
    have shift := here c mem
    simp only [Function.comp, decide_eq_decide]
    omega
  · have before : offset (child lod (downcast f min) i) ((codesIn (lod + 1) min codes).map (downcast f)) =
        (between min (child lod min i) codes).length := by
      have below : child lod min i ≤ min + 8 ^ (lod + 1) := (childLe (Nat.le_succ i)).trans stop
      rw [← betweenNested (Nat.le_refl min) below, offset, List.countP_map, List.countP_eq_length_filter, between]
      congr 1
      refine List.filter_congr fun c mem => ?_
      have shift := here c mem
      have inside := (codesInMem.mp mem).2.1
      simp only [Function.comp, decide_eq_decide]
      omega
    rw [before, offsetBetween start]

theorem forEachOctantExact {f : Format} {codes lod min} (sorted : Sorted codes) (le : lod + 1 ≤ digits f)
    (aligned : Aligned (lod + 1) min)
    (top : min + 8 ^ (lod + 1) < 8 ^ 64 ∨ f ≠ .m192 ∨ codesIn lod (child lod min 7) codes = []) :
    forEachOctantRange f lod min (offset min codes) ((codesIn (lod + 1) min codes).map (downcast f)) =
      (List.range' 0 8).filterMap fun i =>
        if codesIn lod (child lod min i) codes = [] then none
        else some ⟨i, offset (child lod min i) codes, (codesIn lod (child lod min i) codes).map (downcast f)⟩ := by
  have here : ∀ c ∈ codesIn (lod + 1) min codes, downcast f c + floor (digits f) min = c :=
    fun c mem => (localCode le aligned (codesInMem.mp mem).2).1
  obtain ⟨place, _⟩ := localCode le aligned hasSelf
  have inOrder : Sorted ((codesIn (lod + 1) min codes).map (downcast f)) := by
    have kept : Sorted (codesIn (lod + 1) min codes) := sorted.filter _
    refine List.pairwise_map.mpr (kept.imp_of_mem fun {a b} first second low => ?_)
    have one := here a first
    have two := here b second
    omega
  have above : ∀ c ∈ (codesIn (lod + 1) min codes).map (downcast f), child lod (downcast f min) 0 ≤ c := by
    intro c mem
    obtain ⟨d, inside, rfl⟩ := List.mem_map.mp mem
    have shift := here d inside
    have low := (codesInMem.mp inside).2.1
    rw [childZero]
    omega
  have masks : ∀ j, 0 ≤ j → j < 0 + 8 → ((codesIn (lod + 1) min codes).map (downcast f)).filter
      (child lod (downcast f min) j ≤ ·) ≠ [] → nodeMask f lod min j = child lod (downcast f min) (j + 1) := by
    intro j _ octant reached
    refine maskBound (by omega) le aligned ?_
    rcases top with below | narrow | bare
    · exact Or.inl (Or.inl below)
    · exact Or.inl (Or.inr narrow)
    · refine Or.inr fun last => reached ?_
      subst last
      refine List.filter_eq_nil_iff.mpr fun c mem => ?_
      obtain ⟨d, inside, rfl⟩ := List.mem_map.mp mem
      have shift := here d inside
      obtain ⟨known, _, stop⟩ := codesInMem.mp inside
      rw [decide_eq_true_eq, Nat.not_le]
      by_contra high
      have own : d ∈ codesIn lod (child lod min 7) codes := by
        refine codesInMem.mpr ⟨known, ?_, ?_⟩
        · unfold child at high ⊢
          omega
        · rw [childStop, childEnd]
          exact stop
      rw [bare] at own
      cases own
  have ranges := octantsSorted (child lod (downcast f min)) (offset min codes) inOrder childRising masks
  have none : offset (child lod (downcast f min) 0) ((codesIn (lod + 1) min codes).map (downcast f)) = 0 :=
    List.countP_eq_zero.mpr fun c mem => by simpa using above c mem
  have all : ((codesIn (lod + 1) min codes).map (downcast f)).filter (child lod (downcast f min) 0 ≤ ·) =
      (codesIn (lod + 1) min codes).map (downcast f) :=
    List.filter_eq_self.mpr fun c mem => decide_eq_true (above c mem)
  rw [none, all, Nat.add_zero] at ranges
  rw [forEachOctantRange, ranges]
  refine List.filterMap_congr fun i mem => ?_
  rw [List.mem_range'_1] at mem
  obtain ⟨window, spot⟩ := shiftedOctant codes le aligned (i := i) (by omega)
  rw [window, spot]
  simp only [List.map_eq_nil_iff]

theorem subdivideExact {id codes lod min} (sorted : Sorted codes) (width : ∀ c ∈ codes, c < 8 ^ 64)
    (aligned : Aligned (lod + 1) min)
    (top : min + 8 ^ (lod + 1) < 8 ^ 64 ∨ formatOf codes ≠ .m192 ∨ codesIn lod (child lod min 7) codes = [])
    (present : codesIn (lod + 1) min codes ≠ []) :
    pointBufferSubdivide (sortedUnit id codes) (cellSubset id codes (lod + 1) min) lod min =
      expectedParts id codes lod min := by
  unfold pointBufferSubdivide
  dsimp only
  rw [show (sortedUnit id codes).header.format = formatOf codes from rfl]
  split
  · rename_i narrow
    rw [narrowExact sorted width aligned present ((levelSplit _ _).mp narrow)]
    rfl
  · rename_i stored
    have le : lod + 1 ≤ digits (formatOf codes) := Nat.lt_of_not_le fun high => stored ((levelSplit _ _).mpr high)
    rw [storedWindow sorted]
    change (forEachOctantRange (formatOf codes) lod min (offset min codes) _).map _ = _
    rw [forEachOctantExact sorted le aligned top, List.map_filterMap]
    refine List.filterMap_congr fun i mem => ?_
    rw [List.mem_range'_1] at mem
    unfold expectedPart
    by_cases nothing : codesIn lod (child lod min i) codes = []
    · rw [if_pos nothing, if_pos nothing]
      rfl
    · have back : ∀ c ∈ codesIn lod (child lod min i) codes,
          upcast (formatOf codes) (downcast (formatOf codes) c) min = c := by
        intro c here
        have inside := childWithin aligned (by omega) (codesInMem.mp here).2
        exact upcastStored (localCode le aligned inside).2
      rw [if_neg nothing, if_neg nothing, Option.map_some]
      have first := back _ (headMem nothing)
      have last := back _ (lastMem nothing)
      have zero : downcast (formatOf codes) 0 = 0 := Nat.zero_mod _
      have headMap := List.headD_map (f := downcast (formatOf codes)) (l := codesIn lod (child lod min i) codes) (a := 0)
      have lastMap := List.getLastD_map (f := downcast (formatOf codes)) (l := codesIn lod (child lod min i) codes) (a := 0)
      rw [zero] at headMap lastMap
      rw [headMap, lastMap, first, last, List.length_map]
      rfl

end Dewfall.PointSplitter
