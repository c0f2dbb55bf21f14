import Dewfall.Core.MortonDigits
import Dewfall.Core.StorageMap
import Mathlib.Data.List.TakeWhile

/-! The splitter on the words of the stored codes: any of the four widths, any window of a unit and any
level. Point counts are 32-bit in the header, so offsets do not wrap. References counted in the
storage map are left out. -/
namespace Dewfall.OctantSplit
open General General.Cells Morton MortonDigits
open MortonTree (digits)
open StorageMap (InputId)

structure Subset where
  inputId : InputId
  offset : Nat
  count : Nat

structure Points (f : Format) where
  pointCount : Nat
  mortonMin : Code .m192
  mortonMax : Code .m192
  codes : List (Code f)

structure Part where
  child : Nat
  subset : Subset
  first : Code .m192
  last : Code .m192

structure Octant (f : Format) where
  index : Nat
  offset : Nat
  codes : List (Code f)

def nodeMask (f : Format) (lod : Nat) (nodeMin : Code .m192) (i : Nat) : Code f :=
  let localNodeMin : Code f := downcast nodeMin
  if i = 7 then addOne (mortonOr localNodeMin (maskCreate f lod)) else setChildMask lod (i + 1) localNodeMin

variable {f : Format}

def octantRanges (mask : Nat → Code f) : Nat → Nat → Nat → List (Code f) → List (Octant f)
  | 0, _, _, _ => []
  | _ + 1, _, _, [] => []
  | turns + 1, i, offset, first :: rest =>
    if less first (mask i) then
      -- `std::lower_bound`
      let range := (first :: rest).takeWhile (less · (mask i))
      ⟨i, offset, range⟩ ::
        octantRanges mask turns (i + 1) (offset + range.length) ((first :: rest).dropWhile (less · (mask i)))
    else octantRanges mask turns (i + 1) offset (first :: rest)

def forEachOctantRange (lod : Nat) (nodeMin : Code .m192) (offset : Nat) (codes : List (Code f)) : List (Octant f) :=
  octantRanges (nodeMask f lod nodeMin) 8 0 offset codes

def nothing : Code f := ⟨fun _ => 0⟩

def pointBufferSubdivide (undefined : BitVec 64 → Nat → BitVec 64) (points : Points f) (subset : Subset) (lod : Nat)
    (nodeMin : Code .m192) : List Part :=
  if f.total < lod * 3 + 3 then
    [⟨getChildMask undefined lod points.mortonMin, ⟨subset.inputId, 0, points.pointCount⟩, points.mortonMin,
      points.mortonMax⟩]
  else
    (forEachOctantRange lod nodeMin subset.offset ((points.codes.drop subset.offset).take subset.count)).map fun o =>
      ⟨o.index, ⟨subset.inputId, o.offset, o.codes.length⟩, upcast (o.codes.headD nothing) nodeMin,
        upcast (o.codes.getLastD nothing) nodeMin⟩

/-! ## What a split is for -/

-- A unit in this width holds these absolute codes.
structure Stored (points : Points f) (codes : List (Code .m192)) : Prop where
  data : points.codes = codes.map downcast
  count : points.pointCount = codes.length
  ascending : codes.Pairwise fun a b => value a ≤ value b
  min : ∀ first, codes.head? = some first → points.mortonMin = first
  max : ∀ last, codes.getLast? = some last → points.mortonMax = last
  fits : ∀ c ∈ codes, Agree f c points.mortonMin

structure Window (codes : List (Code .m192)) (subset : Subset) (lod : Nat) (nodeMin : Code .m192) : Prop where
  within : subset.offset + subset.count ≤ codes.length
  cell : Aligned (lod + 1) (value nodeMin)
  inside : ∀ n c, subset.offset ≤ n → n < subset.offset + subset.count → codes[n]? = some c →
    Has (lod + 1) (value nodeMin) (value c)

structure Partitioned (codes : List (Code .m192)) (subset : Subset) (lod : Nat) (parts : List Part) : Prop where
  nonEmpty : ∀ p ∈ parts, 0 < p.subset.count
  rising : parts.Pairwise fun p q => p.child < q.child
  exactly : (parts.flatMap fun p => List.range' p.subset.offset p.subset.count) =
    List.range' subset.offset subset.count
  unit : ∀ p ∈ parts, p.subset.inputId = subset.inputId
  octant : ∀ p ∈ parts, ∀ n, p.subset.offset ≤ n → n < p.subset.offset + p.subset.count →
    ∃ c, codes[n]? = some c ∧ digit lod (value c) = p.child
  ends : ∀ p ∈ parts, codes[p.subset.offset]? = some p.first ∧
    codes[p.subset.offset + p.subset.count - 1]? = some p.last

-- The cell that ends where the widest code does.
def TopCell (f : Format) (lod : Nat) (nodeMin : Code .m192) : Prop :=
  f = .m192 ∧ value nodeMin + 8 ^ (lod + 1) = 8 ^ 64

def Splittable (undefined : BitVec 64 → Nat → BitVec 64) (points : Points f) (codes : List (Code .m192)) (subset : Subset)
    (lod : Nat) (nodeMin : Code .m192) : Prop :=
  if f.total < lod * 3 + 3 then
    codes ≠ [] ∧ subset.offset = 0 ∧ subset.count = codes.length ∧
      (64 ≤ lod → getChildMask undefined lod points.mortonMin = 0)
  else
    TopCell f lod nodeMin → ∀ n c, subset.offset ≤ n → n < subset.offset + subset.count → codes[n]? = some c →
      digit lod (value c) ≠ 7

/-! ## Octants of a sorted list -/

inductive Carved (bound : Nat → Nat) (stop : Nat) : Nat → Nat → List (Code f) → List (Octant f) → Prop
  | done {i offset} : Carved bound stop i offset [] []
  | octant {i offset index range rest later} : i ≤ index → index < stop → range ≠ [] →
      (∀ c ∈ range, bound index ≤ value c ∧ value c < bound (index + 1)) →
      Carved bound stop (index + 1) (offset + range.length) rest later →
      Carved bound stop i offset (range ++ rest) (⟨index, offset, range⟩ :: later)

theorem carvedFrom {bound stop i j offset} {codes : List (Code f)} {octants} (le : j ≤ i)
    (carved : Carved bound stop i offset codes octants) : Carved bound stop j offset codes octants := by
  cases carved with
  | done => exact .done
  | octant from_ below some within later => exact .octant (le.trans from_) below some within later

theorem octantRangesNil (mask : Nat → Code f) (turns i offset : Nat) : octantRanges mask turns i offset [] = [] := by
  cases turns <;> rfl

theorem dropWhileAbove {codes : List (Code f)} (sorted : codes.Pairwise fun a b => value a ≤ value b) (m : Code f) :
    ∀ c ∈ codes.dropWhile (less · m), value m ≤ value c := by
  induction codes with
  | nil => simp
  | cons first rest ih =>
    obtain ⟨least, later⟩ := List.pairwise_cons.mp sorted
    by_cases below : less first m = true
    · rw [List.dropWhile_cons_of_pos (p := fun c => less c m) below]
      exact ih later
    · rw [List.dropWhile_cons_of_neg (p := fun c => less c m) below]
      rw [lessValue] at below
      intro c mem
      rcases List.mem_cons.mp mem with rfl | mem
      · omega
      · have above := least c mem
        omega

theorem octantRangesCarved (mask : Nat → Code f) (bound : Nat → Nat) (more turns i offset : Nat)
    {codes : List (Code f)} (sorted : codes.Pairwise fun a b => value a ≤ value b) (above : ∀ c ∈ codes, bound i ≤ value c)
    (below : ∀ c ∈ codes, value c < bound (i + turns))
    (same : ∀ j, i ≤ j → j < i + turns → value (mask j) = bound (j + 1)) :
    Carved bound (i + turns) i offset codes (octantRanges mask (turns + more) i offset codes) := by
  induction turns generalizing i offset codes with
  | zero =>
    cases codes with
    | nil =>
      rw [octantRangesNil]
      exact .done
    | cons first rest =>
      have low := above first List.mem_cons_self
      have high := below first List.mem_cons_self
      rw [Nat.add_zero] at high
      omega
  | succ turns ih =>
    have here : value (mask i) = bound (i + 1) := same i (Nat.le_refl i) (by omega)
    have next : i + (turns + 1) = i + 1 + turns := by omega
    rw [next] at below ⊢
    have later : ∀ j, i + 1 ≤ j → j < i + 1 + turns → value (mask j) = bound (j + 1) :=
      fun j low high => same j (by omega) (by omega)
    cases codes with
    | nil =>
      rw [octantRangesNil]
      exact .done
    | cons first rest =>
      rw [show turns + 1 + more = turns + more + 1 by omega, octantRanges]
      split
      · rename_i inside
        have split := List.takeWhile_append_dropWhile (p := (less · (mask i))) (l := first :: rest)
        have rising : ((first :: rest).dropWhile (less · (mask i))).Pairwise fun a b => value a ≤ value b :=
          sorted.sublist (List.dropWhile_sublist _)
        have remaining := ih (i + 1) (offset + ((first :: rest).takeWhile (less · (mask i))).length) rising
          (fun c mem => here ▸ dropWhileAbove sorted (mask i) c mem)
          (fun c mem => below c ((List.dropWhile_sublist _).subset mem)) later
        have some : (first :: rest).takeWhile (less · (mask i)) ≠ [] := by
          rw [List.takeWhile_cons_of_pos (p := fun c => less c (mask i)) inside]
          exact List.cons_ne_nil _ _
        have within : ∀ c ∈ (first :: rest).takeWhile (less · (mask i)), bound i ≤ value c ∧ value c < bound (i + 1) := by
          intro c mem
          have lower := List.mem_takeWhile_imp mem
          rw [lessValue, here] at lower
          exact ⟨above c ((List.takeWhile_sublist _).subset mem), lower⟩
        have whole := Carved.octant (Nat.le_refl i) (by omega) some within remaining
        rw [split] at whole
        exact whole
      · rename_i outside
        rw [lessValue, here] at outside
        refine carvedFrom (Nat.le_succ i) (ih (i + 1) offset sorted ?_ below later)
        intro c mem
        rcases List.mem_cons.mp mem with rfl | mem
        · omega
        · have least := (List.pairwise_cons.mp sorted).1 c mem
          omega

theorem carvedRising {bound stop i offset} {codes : List (Code f)} {octants}
    (carved : Carved bound stop i offset codes octants) :
    (∀ o ∈ octants, i ≤ o.index) ∧ octants.Pairwise fun o p => o.index < p.index := by
  induction carved with
  | done => simp
  | octant from_ below some within later ih =>
    constructor
    · intro o mem
      rcases List.mem_cons.mp mem with rfl | mem
      · exact from_
      · have above := ih.1 o mem
        omega
    · exact List.pairwise_cons.mpr ⟨fun p mem => ih.1 p mem, ih.2⟩

theorem carvedExactly {bound stop i offset} {codes : List (Code f)} {octants}
    (carved : Carved bound stop i offset codes octants) :
    (octants.flatMap fun o => List.range' o.offset o.codes.length) = List.range' offset codes.length := by
  induction carved with
  | done => rfl
  | octant from_ below some within later ih =>
    rw [List.flatMap_cons, ih, List.length_append, ← List.range'_append_1]

theorem carvedWithin {bound stop i offset} {codes : List (Code f)} {octants}
    (carved : Carved bound stop i offset codes octants) : ∀ o ∈ octants, o.codes ≠ [] ∧ o.index < stop ∧
      ∀ c ∈ o.codes, bound o.index ≤ value c ∧ value c < bound (o.index + 1) := by
  induction carved with
  | done => simp
  | octant from_ below some within later ih =>
    intro o mem
    rcases List.mem_cons.mp mem with rfl | mem
    · exact ⟨some, below, within⟩
    · exact ih o mem

-- Whatever the masks are, a range is the stretch of the list that its offset and length name.
theorem octantSlice {mask : Nat → Code f} {turns i offset : Nat} {codes : List (Code f)} :
    ∀ o ∈ octantRanges mask turns i offset codes, (∃ before after, codes = before ++ o.codes ++ after ∧
      o.offset = offset + before.length) ∧ ∃ j, i ≤ j ∧ j < i + turns ∧ ∀ c ∈ o.codes, value c < value (mask j) := by
  induction turns generalizing i offset codes with
  | zero => simp [octantRanges]
  | succ turns ih =>
    cases codes with
    | nil => simp [octantRanges]
    | cons first rest =>
      intro o mem
      rw [octantRanges] at mem
      split at mem
      · rcases List.mem_cons.mp mem with rfl | mem
        · refine ⟨⟨[], (first :: rest).dropWhile (less · (mask i)), ?_, rfl⟩, i, Nat.le_refl i, by omega, ?_⟩
          · exact (List.takeWhile_append_dropWhile (p := fun c => less c (mask i)) (l := first :: rest)).symm
          · intro c mem
            have lower := List.mem_takeWhile_imp mem
            rwa [lessValue] at lower
        · obtain ⟨⟨before, after, split, place⟩, j, low, high, below⟩ := ih o mem
          refine ⟨⟨(first :: rest).takeWhile (less · (mask i)) ++ before, after, ?_, ?_⟩, j, by omega, by omega, below⟩
          · rw [List.append_assoc, List.append_assoc, ← List.append_assoc before, ← split,
              List.takeWhile_append_dropWhile]
          · rw [place, List.length_append, Nat.add_assoc]
      · obtain ⟨place, j, low, high, below⟩ := ih o mem
        exact ⟨place, j, by omega, by omega, below⟩

/-! ## Masks of a cell -/

theorem storedLevel {lod : Nat} : ¬f.total < lod * 3 + 3 ↔ lod + 1 ≤ digits f := by
  have split := MortonTree.levelSplit f lod
  omega

theorem shiftedCode {lod : Nat} {nodeMin c : Code .m192} (le : lod + 1 ≤ digits f) (cell : Aligned (lod + 1) (value nodeMin))
    (inside : Has (lod + 1) (value nodeMin) (value c)) :
    value (downcast c : Code f) + floor (digits f) (value nodeMin) = value c ∧
      value c / 8 ^ digits f = value nodeMin / 8 ^ digits f := by
  have same : value c / 8 ^ digits f = value nodeMin / 8 ^ digits f := by
    obtain ⟨j, wide⟩ := Nat.exists_eq_add_of_le le
    rw [wide, Nat.pow_add, ← Nat.div_div_eq_div_mul, ← Nat.div_div_eq_div_mul, (hasDiv cell).mp inside]
  refine ⟨?_, same⟩
  rw [downcastValue, MortonTree.downcast, floor, ← same, Nat.add_comm]
  exact Nat.div_add_mod' (value c) _

theorem localAligned {lod : Nat} {nodeMin : Code .m192} (le : lod + 1 ≤ digits f)
    (cell : Aligned (lod + 1) (value nodeMin)) : Aligned (lod + 1) (value (downcast nodeMin : Code f)) := by
  have whole := (shiftedCode (f := f) le cell hasSelf).1
  have above : Aligned (lod + 1) (floor (digits f) (value nodeMin)) := alignedOf le (floorAligned _ _)
  rw [← whole] at cell
  exact (Nat.dvd_add_left above).mp cell

theorem lowMask {lod i : Nat} {nodeMin : Code .m192} (le : lod + 1 ≤ digits f) (cell : Aligned (lod + 1) (value nodeMin))
    (octant : i < 7) :
    value (nodeMask f lod nodeMin i) = child lod (value (downcast nodeMin : Code f)) (i + 1) := by
  have stored : lod * 3 + 3 ≤ f.total := Nat.le_of_not_lt (storedLevel.mpr le)
  rw [nodeMask, if_neg (by omega), setChildMaskValue _ (by omega) stored, MortonTree.setChild (localAligned le cell)]

theorem lastMask {lod : Nat} {nodeMin : Code .m192} (le : lod + 1 ≤ digits f) (cell : Aligned (lod + 1) (value nodeMin)) :
    value (nodeMask f lod nodeMin 7) =
      (value (downcast nodeMin : Code f) + 2 ^ (if lod * 3 + 3 = 192 then 128 else lod * 3 + 3)) % 2 ^ f.total := by
  have stored : lod * 3 + 3 ≤ f.total := Nat.le_of_not_lt (storedLevel.mpr le)
  obtain ⟨q, whole⟩ := localAligned le cell
  generalize stop : (if lod * 3 + 3 = 192 then 128 else lod * 3 + 3) = n
  have positive : 0 < 2 ^ n := Nat.two_pow_pos n
  have low : 2 ^ n - 1 < 2 ^ (3 * (lod + 1)) := by
    have power : 2 ^ n ≤ 2 ^ (3 * (lod + 1)) := by
      refine Nat.pow_le_pow_right (by decide) ?_
      split at stop <;> omega
    omega
  rw [nodeMask, if_pos rfl, addOneValue, orValue, maskCreateValue stored, stop, whole, eightPower,
    ← Nat.two_pow_add_eq_or_of_lt low, Nat.add_assoc, Nat.sub_add_cancel positive]

theorem lastMaskInside {lod : Nat} {nodeMin : Code .m192} (le : lod + 1 ≤ digits f)
    (cell : Aligned (lod + 1) (value nodeMin)) (inner : ¬TopCell f lod nodeMin) :
    value (nodeMask f lod nodeMin 7) = child lod (value (downcast nodeMin : Code f)) 8 := by
  have aligned := localAligned le cell
  have small : value (downcast nodeMin : Code f) < 8 ^ digits f := by
    rw [downcastValue]
    exact Nat.mod_lt _ (powPositive _)
  have room : value (downcast nodeMin : Code f) + 8 ^ (lod + 1) ≤ 8 ^ digits f := by
    obtain ⟨p, first⟩ := aligned
    obtain ⟨q, second⟩ := Nat.pow_dvd_pow 8 le
    rw [first, second] at small ⊢
    have step : p < q := Nat.lt_of_mul_lt_mul_left small
    exact Nat.mul_le_mul_left _ step
  have bounds : lod * 3 + 3 ≠ 192 ∧ value (downcast nodeMin : Code f) + 8 ^ (lod + 1) < 2 ^ f.total := by
    have narrow : f ≠ .m192 → lod + 1 ≤ 42 ∧ 8 ^ digits f < 2 ^ f.total := by
      intro other
      cases f with
      | m32 => exact ⟨le.trans (by decide), by decide⟩
      | m64 => exact ⟨le.trans (by decide), by decide⟩
      | m128 => exact ⟨le, by decide⟩
      | m192 => exact absurd rfl other
    by_cases widest : f = .m192
    · subst widest
      have same : value (downcast nodeMin : Code .m192) = value nodeMin := by
        rw [downcastValue]
        exact Nat.mod_eq_of_lt ((valueLt nodeMin).trans_eq (by decide))
      have power : 2 ^ Format.total .m192 = 8 ^ 64 := by decide
      rw [same] at room ⊢
      rw [power]
      have apart : value nodeMin + 8 ^ (lod + 1) ≠ 8 ^ 64 := fun top => inner ⟨rfl, top⟩
      refine ⟨fun whole => apart ?_, Nat.lt_of_le_of_ne room apart⟩
      have level : lod + 1 = 64 := by omega
      rw [level] at cell ⊢
      have zero : value nodeMin = 0 := Nat.eq_zero_of_dvd_of_lt cell ((valueLt nodeMin).trans_eq power)
      rw [zero, Nat.zero_add]
    · obtain ⟨low, below⟩ := narrow widest
      exact ⟨by omega, room.trans_lt below⟩
  rw [lastMask le cell, if_neg bounds.1, show lod * 3 + 3 = 3 * (lod + 1) by omega, ← eightPower,
    Nat.mod_eq_of_lt bounds.2, childEnd]

/-! ## Windows -/

variable {points : Points f} {codes : List (Code .m192)} {subset : Subset} {lod : Nat} {nodeMin : Code .m192}

def slice (subset : Subset) {α : Type} (codes : List α) : List α := (codes.drop subset.offset).take subset.count

theorem sliceStored (stored : Stored points codes) :
    slice subset points.codes = (slice subset codes).map (downcast : Code .m192 → Code f) := by
  rw [slice, slice, stored.data, List.map_take, List.map_drop]

theorem sliceAt (subset : Subset) {α : Type} {codes : List α} {n : Nat} (small : n < subset.count) :
    (slice subset codes)[n]? = codes[subset.offset + n]? := by
  rw [slice, List.getElem?_take_of_lt small, List.getElem?_drop]

theorem sliceLength (window : Window codes subset lod nodeMin) : (slice subset codes).length = subset.count := by
  have within := window.within
  rw [slice, List.length_take, List.length_drop]
  omega

theorem sliceInside (window : Window codes subset lod nodeMin) :
    ∀ c ∈ slice subset codes, Has (lod + 1) (value nodeMin) (value c) ∧
      ∃ n, subset.offset ≤ n ∧ n < subset.offset + subset.count ∧ codes[n]? = some c := by
  intro c mem
  obtain ⟨n, small, rfl⟩ := List.mem_iff_getElem.mp mem
  have length := sliceLength window
  have here : codes[subset.offset + n]? = some (slice subset codes)[n] := by
    rw [← sliceAt subset (length ▸ small)]
    exact List.getElem?_eq_getElem small
  exact ⟨window.inside _ _ (by omega) (by omega) here, _, by omega, by omega, here⟩

theorem storedCarved (stored : Stored points codes) (window : Window codes subset lod nodeMin)
    (le : lod + 1 ≤ digits f) (kept : TopCell f lod nodeMin → ∀ n c, subset.offset ≤ n →
      n < subset.offset + subset.count → codes[n]? = some c → digit lod (value c) ≠ 7) :
    ∃ stop, stop ≤ 8 ∧ Carved (child lod (value (downcast nodeMin : Code f))) stop 0 subset.offset
      (slice subset points.codes) (forEachOctantRange lod nodeMin subset.offset (slice subset points.codes)) := by
  have shift : ∀ d ∈ slice subset codes,
      value (downcast d : Code f) + floor (digits f) (value nodeMin) = value d :=
    fun d mem => (shiftedCode le window.cell (sliceInside window d mem).1).1
  have start := (shiftedCode (f := f) le window.cell hasSelf).1
  have sorted : (slice subset points.codes).Pairwise fun a b => value a ≤ value b := by
    rw [sliceStored stored]
    have kept : (slice subset codes).Pairwise fun a b => value a ≤ value b :=
      stored.ascending.sublist ((List.take_sublist _ _).trans (List.drop_sublist _ _))
    refine List.pairwise_map.mpr (kept.imp_of_mem fun {a b} first second low => ?_)
    have one := shift a first
    have two := shift b second
    omega
  have above : ∀ c ∈ slice subset points.codes, child lod (value (downcast nodeMin : Code f)) 0 ≤ value c := by
    rw [sliceStored stored, childZero]
    intro c mem
    obtain ⟨d, here, rfl⟩ := List.mem_map.mp mem
    have low := (sliceInside window d here).1.1
    have moved := shift d here
    omega
  have bounded : ∀ stop, stop ≤ 8 → (∀ d ∈ slice subset codes, digit lod (value d) < stop) →
      ∀ c ∈ slice subset points.codes, value c < child lod (value (downcast nodeMin : Code f)) stop := by
    intro stop few digits c mem
    rw [sliceStored stored] at mem
    obtain ⟨d, here, rfl⟩ := List.mem_map.mp mem
    have own := (childDigit window.cell (sliceInside window d here).1).2
    have moved := shift d here
    have later : child lod (value nodeMin) (digit lod (value d) + 1) ≤ child lod (value nodeMin) stop :=
      childLe (digits d here)
    rw [childStop] at own
    unfold child at own later ⊢
    omega
  by_cases top : TopCell f lod nodeMin
  · refine ⟨7, by decide, ?_⟩
    have below := bounded 7 (by decide) fun d mem => by
      obtain ⟨_, n, low, high, here⟩ := sliceInside window d mem
      have digit := digitLt lod (value d)
      have other := kept top n d low high here
      omega
    have carved := octantRangesCarved (nodeMask f lod nodeMin) (child lod (value (downcast nodeMin : Code f))) 1 7 0
      subset.offset sorted above (by rwa [Nat.zero_add]) fun j _ high => lowMask le window.cell (by omega)
    exact carved
  · refine ⟨8, Nat.le_refl 8, ?_⟩
    have below := bounded 8 (Nat.le_refl 8) fun d _ => digitLt lod (value d)
    have carved := octantRangesCarved (nodeMask f lod nodeMin) (child lod (value (downcast nodeMin : Code f))) 0 8 0
      subset.offset sorted above (by rwa [Nat.zero_add]) fun j _ high => by
        by_cases last : j = 7
        · rw [last]
          exact lastMaskInside le window.cell top
        · exact lowMask le window.cell (by omega)
    exact carved

structure Named (codes : List (Code .m192)) (subset : Subset) (o : Octant f) (n : Nat) (c : Code .m192) : Prop where
  code : codes[n]? = some c
  low : subset.offset ≤ n
  high : n < subset.offset + subset.count
  local_ : o.codes[n - o.offset]? = some (downcast c)

theorem octantNamed (stored : Stored points codes) (window : Window codes subset lod nodeMin) {o : Octant f}
    (mem : o ∈ forEachOctantRange lod nodeMin subset.offset (slice subset points.codes)) {n : Nat} (low : o.offset ≤ n)
    (high : n < o.offset + o.codes.length) : ∃ c, Named codes subset o n c := by
  obtain ⟨⟨before, after, split, place⟩, _⟩ := octantSlice o mem
  have length := sliceLength window
  have total := congrArg List.length split
  rw [sliceStored stored, List.length_map, List.length_append, List.length_append] at total
  obtain ⟨k, position⟩ : ∃ k, n = subset.offset + k := ⟨n - subset.offset, by omega⟩
  have small : k < (slice subset codes).length := by omega
  refine ⟨(slice subset codes)[k], ?_, by omega, by omega, ?_⟩
  · rw [position, ← sliceAt subset (by omega)]
    exact List.getElem?_eq_getElem small
  · have moved : (slice subset points.codes)[k]? = some (downcast (slice subset codes)[k]) := by
      rw [sliceStored stored, List.getElem?_map, List.getElem?_eq_getElem small]
      rfl
    rw [split, List.append_assoc, List.getElem?_append_right (by omega), List.getElem?_append_left (by omega)] at moved
    rw [← moved]
    congr 1
    omega

theorem splitsStored (undefined : BitVec 64 → Nat → BitVec 64) (stored : Stored points codes)
    (window : Window codes subset lod nodeMin) (le : lod + 1 ≤ digits f) (kept : TopCell f lod nodeMin → ∀ n c,
      subset.offset ≤ n → n < subset.offset + subset.count → codes[n]? = some c → digit lod (value c) ≠ 7) :
    Partitioned codes subset lod (pointBufferSubdivide undefined points subset lod nodeMin) := by
  obtain ⟨stop, few, carved⟩ := storedCarved stored window le kept
  rw [pointBufferSubdivide, if_neg (storedLevel.mpr le)]
  change Partitioned codes subset lod ((forEachOctantRange lod nodeMin subset.offset (slice subset points.codes)).map _)
  have length : (slice subset points.codes).length = subset.count := by
    rw [sliceStored stored, List.length_map, sliceLength window]
  have back : ∀ {o : Octant f} {n c}, Named codes subset o n c → upcast (downcast c : Code f) nodeMin = c :=
    fun named => upcastBack (shiftedCode le window.cell (window.inside _ _ named.low named.high named.code)).2
  constructor
  · intro p mem
    obtain ⟨o, here, rfl⟩ := List.mem_map.mp mem
    exact List.length_pos_iff.mpr (carvedWithin carved o here).1
  · exact List.pairwise_map.mpr (carvedRising carved).2
  · rw [List.flatMap_map]
    exact (carvedExactly carved).trans (by rw [length])
  · intro p mem
    obtain ⟨o, here, rfl⟩ := List.mem_map.mp mem
    rfl
  · intro p mem n low high
    obtain ⟨o, here, rfl⟩ := List.mem_map.mp mem
    obtain ⟨c, named⟩ := octantNamed stored window here low high
    refine ⟨c, named.code, ?_⟩
    obtain ⟨_, below, within⟩ := carvedWithin carved o here
    obtain ⟨lower, upper⟩ := within _ (List.mem_of_getElem? named.local_)
    have moved := (shiftedCode (f := f) le window.cell (window.inside _ _ named.low named.high named.code)).1
    have start := (shiftedCode (f := f) le window.cell hasSelf).1
    have inside : Has lod (child lod (value nodeMin) o.index) (value c) := by
      rw [← childStop] at upper
      unfold child at lower upper
      unfold Has child
      generalize 8 ^ lod = width at *
      omega
    have octant : o.index < 8 := by omega
    exact childOf window.cell octant inside
  · intro p mem
    obtain ⟨o, here, rfl⟩ := List.mem_map.mp mem
    have some := List.length_pos_iff.mpr (carvedWithin carved o here).1
    obtain ⟨first, atFirst⟩ := octantNamed stored window here (Nat.le_refl o.offset) (by omega)
    obtain ⟨last, atLast⟩ := octantNamed stored window here (n := o.offset + o.codes.length - 1) (by omega) (by omega)
    have head : o.codes.headD nothing = downcast first := by
      have named := atFirst.local_
      rw [Nat.sub_self] at named
      rw [List.headD_eq_head?_getD, List.head?_eq_getElem?, named]
      rfl
    have tail : o.codes.getLastD nothing = downcast last := by
      have named := atLast.local_
      rw [show o.offset + o.codes.length - 1 - o.offset = o.codes.length - 1 by omega] at named
      rw [List.getLastD_eq_getLast?, List.getLast?_eq_getElem?, named]
      rfl
    refine ⟨?_, ?_⟩
    · rw [atFirst.code]
      dsimp only
      rw [head, back atFirst]
    · dsimp only
      rw [atLast.code, tail, back atLast]

theorem topMask {j : Nat} (le : lod + 1 ≤ digits f) (cell : Aligned (lod + 1) (value nodeMin)) (top : TopCell f lod nodeMin)
    (octant : j < 8) : value (nodeMask f lod nodeMin j) ≤ child lod (value nodeMin) 7 := by
  obtain ⟨rfl, ends⟩ := top
  have same : value (downcast nodeMin : Code .m192) = value nodeMin := by rw [downcastSelf]
  have power : 2 ^ Format.total .m192 = 8 ^ 64 := by decide
  by_cases last : j = 7
  · rw [last, lastMask le cell, same, power]
    split
    · rename_i whole
      have level : lod = 63 := by omega
      subst level
      have zero : value nodeMin = 0 := by
        have whole : (8 : Nat) ^ 64 = 8 ^ (63 + 1) := rfl
        omega
      rw [zero, child, Nat.zero_add, Nat.zero_add]
      exact (Nat.mod_le _ _).trans (by decide)
    · rw [show lod * 3 + 3 = 3 * (lod + 1) by omega, ← eightPower, ends, Nat.mod_self]
      exact Nat.zero_le _
  · rw [lowMask le cell (by omega), same]
    exact childLe (by omega)

-- In the top cell the last mask wraps, and the last octant is left out.
theorem topDropped (undefined : BitVec 64 → Nat → BitVec 64) (stored : Stored points codes)
    (window : Window codes subset lod nodeMin) (le : lod + 1 ≤ digits f) (top : TopCell f lod nodeMin) {n : Nat}
    {c : Code .m192} (low : subset.offset ≤ n) (high : n < subset.offset + subset.count) (here : codes[n]? = some c)
    (last : digit lod (value c) = 7) :
    ¬Partitioned codes subset lod (pointBufferSubdivide undefined points subset lod nodeMin) := by
  intro parts
  rw [pointBufferSubdivide, if_neg (storedLevel.mpr le)] at parts
  change Partitioned codes subset lod
    ((forEachOctantRange lod nodeMin subset.offset (slice subset points.codes)).map _) at parts
  have covered : n ∈ List.range' subset.offset subset.count := List.mem_range'_1.mpr ⟨low, high⟩
  rw [← parts.exactly, List.mem_flatMap] at covered
  obtain ⟨p, mem, range⟩ := covered
  obtain ⟨o, octant, rfl⟩ := List.mem_map.mp mem
  obtain ⟨start, stop⟩ := List.mem_range'_1.mp range
  obtain ⟨d, named⟩ := octantNamed stored window octant start stop
  have same : d = c := Option.some.inj (named.code.symm.trans here)
  obtain ⟨_, j, _, few, below⟩ := octantSlice o octant
  have less := below _ (List.mem_of_getElem? named.local_)
  have mask := topMask le window.cell top (show j < 8 by omega)
  have own := (childDigit window.cell (window.inside n c low high here)).1
  have value_ : value (downcast c : Code f) = value c := by
    obtain ⟨rfl, _⟩ := top
    rw [downcastSelf]
  rw [last] at own
  rw [same, value_] at less
  omega

/-! ## A level above the stored digits -/

theorem unitDigit (stored : Stored points codes) (wide : digits f ≤ lod) :
    ∀ c ∈ codes, digit lod (value c) = digit lod (value points.mortonMin) := by
  intro c mem
  have same := divOfAgree (stored.fits c mem)
  refine digitSame ?_
  obtain ⟨j, rfl⟩ := Nat.exists_eq_add_of_le wide
  rw [Nat.pow_add, ← Nat.div_div_eq_div_mul, ← Nat.div_div_eq_div_mul, same]

theorem digitBeyond (c : Code .m192) (far : 64 ≤ lod) : digit lod (value c) = 0 := by
  have small : value c < 8 ^ lod :=
    (valueLt c).trans_le ((show 2 ^ Format.total .m192 ≤ 8 ^ 64 by decide).trans (Nat.pow_le_pow_right (by decide) far))
  rw [digit, Nat.div_eq_of_lt small]

theorem wholeIff (undefined : BitVec 64 → Nat → BitVec 64) (stored : Stored points codes) (wide : f.total < lod * 3 + 3) :
    Partitioned codes subset lod (pointBufferSubdivide undefined points subset lod nodeMin) ↔
      codes ≠ [] ∧ subset.offset = 0 ∧ subset.count = codes.length ∧
        (64 ≤ lod → getChildMask undefined lod points.mortonMin = 0) := by
  have above : digits f ≤ lod := (MortonTree.levelSplit f lod).mp wide
  rw [pointBufferSubdivide, if_pos wide, stored.count]
  constructor
  · intro parts
    have some : 0 < codes.length := parts.nonEmpty _ (List.mem_singleton.mpr rfl)
    have whole := parts.exactly
    rw [List.flatMap_singleton] at whole
    have length := congrArg List.length whole
    rw [List.length_range', List.length_range'] at length
    change codes.length = subset.count at length
    have start : subset.offset = 0 := by
      have first := congrArg (·[0]?) whole
      change (List.range' 0 codes.length)[0]? = (List.range' subset.offset subset.count)[0]? at first
      rw [List.getElem?_range' some, List.getElem?_range' (by omega)] at first
      simpa using first.symm
    refine ⟨List.length_pos_iff.mp some, start, length.symm, fun far => ?_⟩
    obtain ⟨c, here, digit⟩ := parts.octant _ (List.mem_singleton.mpr rfl) 0 (Nat.le_refl 0) (by simpa using some)
    rw [digitBeyond c far] at digit
    exact digit.symm
  · rintro ⟨some, start, count, top⟩
    have long : 0 < codes.length := List.length_pos_iff.mpr some
    constructor
    · intro p mem
      rw [List.mem_singleton.mp mem]
      exact long
    · exact List.pairwise_singleton _ _
    · rw [List.flatMap_singleton, start, count]
    · intro p mem
      rw [List.mem_singleton.mp mem]
    · intro p mem n low high
      rw [List.mem_singleton.mp mem] at low high ⊢
      have inside : n < codes.length := by simpa using high
      refine ⟨codes[n], List.getElem?_eq_getElem inside, ?_⟩
      by_cases far : 64 ≤ lod
      · rw [digitBeyond _ far]
        exact (top far).symm
      · rw [unitDigit stored above _ (List.getElem_mem inside)]
        exact (getChildMaskDigit undefined points.mortonMin (Nat.lt_of_not_le far)).symm
    · intro p mem
      rw [List.mem_singleton.mp mem]
      dsimp only
      rw [Nat.zero_add, ← List.head?_eq_getElem?, ← List.getLast?_eq_getElem?]
      obtain ⟨first, head⟩ := Option.ne_none_iff_exists'.mp (mt List.head?_eq_none_iff.mp some)
      obtain ⟨last, tail⟩ := Option.ne_none_iff_exists'.mp (mt List.getLast?_eq_none_iff.mp some)
      rw [head, tail, stored.min first head, stored.max last tail]
      exact ⟨rfl, rfl⟩

-- Any width, any window in the cell, any level: exactly when the ranges partition the window by octant.
theorem splitIff (undefined : BitVec 64 → Nat → BitVec 64) (stored : Stored points codes)
    (window : Window codes subset lod nodeMin) :
    Partitioned codes subset lod (pointBufferSubdivide undefined points subset lod nodeMin) ↔
      Splittable undefined points codes subset lod nodeMin := by
  unfold Splittable
  split
  · rename_i wide
    exact wholeIff undefined stored wide
  · rename_i within
    have le := storedLevel.mp within
    constructor
    · intro parts top n c low high here last
      exact topDropped undefined stored window le top low high here last parts
    · exact splitsStored undefined stored window le

/-! ## Two units -/

def wordCode (n : BitVec 64) : Code .m192 := ⟨fun k => if k.val = 0 then n else 0⟩

def spreadCodes : List (Code .m192) := [wordCode 3, wordCode 13, wordCode 14, wordCode 20, wordCode 42, wordCode 70]
def spreadUnit : Points .m64 := ⟨6, wordCode 3, wordCode 70, spreadCodes.map downcast⟩

theorem spreadStored : Stored spreadUnit spreadCodes where
  data := rfl
  count := rfl
  ascending := by decide
  min first head := Option.some.inj head
  max last tail := Option.some.inj tail
  fits c mem := by
    refine agreeAbove ?_
    revert c
    decide

-- The window leaves out the first point and the last, and its own lie in three octants.
theorem spreadSplit : Stored spreadUnit spreadCodes ∧ Window spreadCodes ⟨⟨7, 0⟩, 1, 4⟩ 1 (wordCode 0) ∧
    Partitioned spreadCodes ⟨⟨7, 0⟩, 1, 4⟩ 1
      (pointBufferSubdivide (fun data _ => data) spreadUnit ⟨⟨7, 0⟩, 1, 4⟩ 1 (wordCode 0)) := by
  have window : Window spreadCodes ⟨⟨7, 0⟩, 1, 4⟩ 1 (wordCode 0) := by
    refine ⟨by decide, by decide, ?_⟩
    intro n c low high here
    have four : n = 1 ∨ n = 2 ∨ n = 3 ∨ n = 4 := by
      change 1 ≤ n at low
      change n < 1 + 4 at high
      omega
    rcases four with rfl | rfl | rfl | rfl <;> cases here <;> decide
  refine ⟨spreadStored, window, (splitIff (fun data _ => data) spreadStored window).mpr ?_⟩
  exact fun top => absurd top.1 (by decide)

-- The last code of the widest format, and the cell it ends.
def lastCode : Code .m192 := ⟨fun _ => 0xffffffffffffffff#64⟩
def lastCell : Code .m192 := ⟨fun k => if k.val = 0 then 0xfffffffffffffff8#64 else 0xffffffffffffffff#64⟩
def lastUnit : Points .m192 := ⟨1, lastCode, lastCode, [lastCode]⟩

theorem lastCodeDropped : Stored lastUnit [lastCode] ∧ Window [lastCode] ⟨⟨7, 0⟩, 0, 1⟩ 0 lastCell ∧
    pointBufferSubdivide (fun data _ => data) lastUnit ⟨⟨7, 0⟩, 0, 1⟩ 0 lastCell = [] ∧
    ¬Partitioned [lastCode] ⟨⟨7, 0⟩, 0, 1⟩ 0
      (pointBufferSubdivide (fun data _ => data) lastUnit ⟨⟨7, 0⟩, 0, 1⟩ 0 lastCell) := by
  have stored : Stored lastUnit [lastCode] := by
    refine ⟨?_, rfl, List.pairwise_singleton _ _, fun _ head => Option.some.inj head, fun _ tail => Option.some.inj tail, ?_⟩
    · exact congrArg (· :: []) (downcastSelf lastCode).symm
    · intro c mem i high below
      have high : 192 ≤ i := high
      have below : i < 192 := below
      omega
  have window : Window [lastCode] ⟨⟨7, 0⟩, 0, 1⟩ 0 lastCell := by
    refine ⟨by decide, by decide +kernel, ?_⟩
    intro n c low high here
    have first : n = 0 := by
      change n < 0 + 1 at high
      omega
    subst first
    cases here
    decide +kernel
  have none : pointBufferSubdivide (fun data _ => data) lastUnit ⟨⟨7, 0⟩, 0, 1⟩ 0 lastCell = [] :=
    List.length_eq_zero_iff.mp (by decide +kernel)
  refine ⟨stored, window, none, fun parts => ?_⟩
  have whole := parts.exactly
  rw [none] at whole
  exact absurd whole (by decide)

end Dewfall.OctantSplit
