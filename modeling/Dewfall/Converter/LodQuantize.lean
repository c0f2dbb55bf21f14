import Dewfall.Core.MortonDigits
import Dewfall.Converter.PointSplitter
import Dewfall.General.Representatives

/-! The choice of the points of a LOD unit: one representative for each cell in every run of a child unit,
cast into the node's format, sorted, and thinned again across the runs. The random offsets of the float
arithmetic are a parameter; attributes are left out. -/
namespace Dewfall.LodQuantize
open General.Representatives Morton MortonDigits
open MortonTree (digits typeFromLod)
open StorageMap (InputId)
open PointSplitter (Subset Collection)

def lodQuantizeFullDetailLevel : Nat := 3 * 3

def lodQuantizeMaskWidth (lod : Nat) : Nat :=
  if lodQuantizeFullDetailLevel < lod then lod - lodQuantizeFullDetailLevel else 0

structure Entry (t : Format) where
  morton : Code t
  index : Nat
  id : InputId

-- `uint32_t(random_offsets[slot] * size)`, for offsets in [0, 1).
structure RandomOffsets where
  scaled : Nat → Nat → Nat
  inside : ∀ slot size, 0 < size → scaled slot size < size

structure SourceUnit where
  format : Format
  mortonMin : Code .m192
  codes : List (Code format)

def maxMaskForType (f : Format) : Nat := (f.total - 4) / 3

def createMax (lod : Nat) (min : Code f) : Code f := mortonOr (maskCreate f lod) min

-- `!(c <= create_max(width, first))`
def exceeds {f : Format} (width : Nat) (first c : Code f) : Bool := less (createMax width first) c

variable (offsets : RandomOffsets)

def randomPick (start size : Nat) : Nat := offsets.scaled ((start + size / 2) % 256) size

def emitted {s : Format} (t : Format) (inputId : InputId) (nodeMin : Code .m192) (source : List (Code s))
    (offset maskWidth : Nat) : List (Entry t) :=
  (representatives (exceeds (min maskWidth (maxMaskForType s))) (randomPick offsets) source).filterMap fun i =>
    source[i]?.map fun c => ⟨cast t c nodeMin, offset + i, inputId⟩

-- The first code is read, and the last entry emitted, whatever the count: an empty window is read beyond its end.
def findIndicesToQuantize {s : Format} (t : Format) (inputId : InputId) (nodeMin : Code .m192) (source : List (Code s))
    (offset maskWidth : Nat) : Option (List (Entry t)) :=
  if source.isEmpty then none else some (emitted offsets t inputId nodeMin source offset maskWidth)

/-! ## The units of a node -/

-- `morton_mask_create(lod - 1)`
def maskBelow : Nat → Code .m192
  | 0 => ⟨fun _ => 0⟩
  | lod + 1 => maskCreate .m192 lod

def subsetMin (lod : Nat) (mortonMin : Code .m192) : Code .m192 := mortonAnd (mortonNegate (maskBelow lod)) mortonMin

-- A count of zero stands for the whole unit.
def Subset.first (p : Subset) : Nat := if p.count = 0 then 0 else p.offset
def Subset.size (p : Subset) (u : SourceUnit) : Nat := if p.count = 0 then u.codes.length else p.count
def window (p : Subset) (u : SourceUnit) : List (Code u.format) := (u.codes.drop (Subset.first p)).take (Subset.size p u)

structure LodNode where
  lod : Nat
  nodeMin : Code .m192
  childData : List Collection
  adaptiveSampling : Bool

def LodNode.format (node : LodNode) : Format := typeFromLod node.lod
def LodNode.subsets (node : LodNode) : List Subset := node.childData.flatMap Collection.data

-- What a read of a unit gives; a read that fails gives nothing.
variable (reads : InputId → Option SourceUnit)

def quantizeSubset (t : Format) (lod : Nat) (p : Subset) : Option (List (Entry t)) :=
  match reads p.inputId with
  | none => some []
  | some u => findIndicesToQuantize offsets t p.inputId (subsetMin lod u.mortonMin) (window p u) (Subset.first p)
      (lodQuantizeMaskWidth lod)

def quantizePointsCollection (t : Format) (lod : Nat) : List Subset → Option (List (Entry t))
  | [] => some []
  | p :: rest => (quantizeSubset offsets reads t lod p).bind fun entries =>
    (quantizePointsCollection t lod rest).map (entries ++ ·)

def gathered (node : LodNode) : Option (List (Entry node.format)) :=
  quantizePointsCollection offsets reads node.format node.lod node.subsets

/-! ## Across the units -/

def starts {t : Format} (width : Nat) (first e : Entry t) : Bool := exceeds width first.morton e.morton

-- Cells of a width, counted up to one more than the target.
def probe {t : Format} (width target : Nat) : List (Entry t) → Nat → Entry t → Nat
  | [], cells, _ => cells
  | e :: rest, cells, first =>
    if target < cells then cells
    else if starts width first e then probe width target rest (cells + 1) e
    else probe width target rest cells first

def widen {t : Format} (target : Nat) (first : Entry t) (rest : List (Entry t)) : Nat → Nat → Nat
  | 0, width => width
  | more + 1, width => if probe width target rest 1 first ≤ target then width else widen target first rest more (width + 1)

def mergeWidth (node : LodNode) : List (Entry node.format) → Nat
  | [] => lodQuantizeMaskWidth node.lod
  | first :: rest =>
    if node.adaptiveSampling then
      let childPointTotal := (node.childData.map Collection.pointCount).sum
      widen (max 1 (childPointTotal / 4)) first rest (maxMaskForType node.format - lodQuantizeMaskWidth node.lod)
        (lodQuantizeMaskWidth node.lod)
    else lodQuantizeMaskWidth node.lod

def medianPick (_ size : Nat) : Nat := size / 2

def chosen {t : Format} (width : Nat) (sorted : List (Entry t)) : List (Entry t) :=
  (representatives (starts width) medianPick sorted).filterMap fun i => sorted[i]?

structure LodUnit (t : Format) where
  min : Code .m192
  max : Code .m192
  points : List (Entry t)

-- The ends of an empty vector are not read.
def quantizeSorted (node : LodNode) (sorted : List (Entry node.format)) : Option (LodUnit node.format) :=
  match sorted, sorted.getLast? with
  | first :: _, some last => some ⟨upcast first.morton node.nodeMin, upcast last.morton node.nodeMin,
      chosen (mergeWidth node sorted) sorted⟩
  | _, _ => none

-- `std::sort` leaves equal codes in any order.
structure Sorted (node : LodNode) (sorted : List (Entry node.format)) : Prop where
  permuted : ∃ entries, gathered offsets reads node = some entries ∧ sorted.Perm entries
  rising : sorted.Pairwise fun a b => less b.morton a.morton = false

/-! ## Cells -/

variable {f s t : Format}

theorem belowCell {x v c : Nat} : v / 8 ^ x * 8 ^ x + (8 ^ x - 1) < c ↔ v / 8 ^ x < c / 8 ^ x := by
  have positive : 0 < 8 ^ x := Nat.pow_pos (by decide)
  rw [← Nat.succ_le_iff, ← Nat.succ_le_iff, Nat.le_div_iff_mul_le positive, Nat.succ_mul]
  omega

theorem createMaxValue {width : Nat} (c : Code f) (fits : width < digits f) (below : width < 63) :
    value (createMax width c) = value c / 8 ^ (width + 1) * 8 ^ (width + 1) + (8 ^ (width + 1) - 1) := by
  have capacity : 3 * digits f = f.capacity := by cases f <;> rfl
  have stored : width * 3 + 3 ≤ f.total := by
    have le : f.capacity ≤ f.total := Nat.sub_le _ _
    omega
  apply Nat.eq_of_testBit_eq
  intro i
  have power : 8 ^ (width + 1) = 2 ^ (3 * (width + 1)) := eightPower _
  rw [createMax, orValue, maskCreateValue stored, if_neg (by omega), Nat.testBit_lor, Nat.testBit_two_pow_sub_one, power,
    Nat.mul_comm (value c / _), Nat.testBit_two_pow_mul_add _ (Nat.sub_lt (Nat.two_pow_pos _) Nat.one_pos),
      Nat.testBit_two_pow_sub_one,
    ← Nat.shiftRight_eq_div_pow, Nat.testBit_shiftRight]
  by_cases low : i < 3 * (width + 1)
  · simp [low, show i < width * 3 + 3 by omega]
  · simp [low, show ¬i < width * 3 + 3 by omega, Nat.add_sub_cancel' (Nat.le_of_not_lt low)]

def cell (width : Nat) (c : Code f) : Nat := value c / 8 ^ (width + 1)

-- A code starts a new cell when it lies in a later one.
theorem exceedsCell {width : Nat} {first c : Code f} (fits : width < digits f) (below : width < 63) :
    exceeds width first c = true ↔ cell width first < cell width c := by
  rw [exceeds, lessValue, createMaxValue first fits below, belowCell]
  rfl

theorem clampFits (width : Nat) : min width (maxMaskForType f) < digits f ∧ min width (maxMaskForType f) < 63 := by
  cases f <;> simp [maxMaskForType, digits, Format.total, Format.capacity, Format.bits, Format.count]

-- The low digits of a value, and what stands above them.
theorem cellSplit {v D x : Nat} (le : x ≤ D) : v / 8 ^ x = v / 8 ^ D * 8 ^ (D - x) + v % 8 ^ D / 8 ^ x := by
  have power : 8 ^ D = 8 ^ x * 8 ^ (D - x) := by rw [← Nat.pow_add, Nat.add_sub_cancel' le]
  have positive : 0 < 8 ^ x := Nat.pow_pos (by decide)
  calc v / 8 ^ x = (v / 8 ^ D * 8 ^ D + v % 8 ^ D) / 8 ^ x := by rw [Nat.div_add_mod']
    _ = (8 ^ x * (v / 8 ^ D * 8 ^ (D - x)) + v % 8 ^ D) / 8 ^ x := by
        rw [power]
        congr 2
        ring
    _ = v / 8 ^ D * 8 ^ (D - x) + v % 8 ^ D / 8 ^ x := by rw [Nat.mul_add_div positive]

-- Two numbers with the same low digits have the same cells, as far as each is compared above its own.
theorem cellLe {a b a' b' D x : Nat} (le : x ≤ D) (high : a / 8 ^ D = b / 8 ^ D) (high' : a' / 8 ^ D = b' / 8 ^ D)
    (first : a % 8 ^ D = a' % 8 ^ D) (second : b % 8 ^ D = b' % 8 ^ D) :
    a / 8 ^ x ≤ b / 8 ^ x ↔ a' / 8 ^ x ≤ b' / 8 ^ x := by
  rw [cellSplit le, @cellSplit b D x le, @cellSplit a' D x le, @cellSplit b' D x le, high, high', first, second]
  omega

theorem capacityDigits (f : Format) : 3 * digits f = f.capacity := by cases f <;> rfl

theorem lowDigits {k : Nat} {a : Code f} {b : Code t} (same : ∀ i, i < 3 * k → a.bit i = b.bit i) :
    value a % 8 ^ k = value b % 8 ^ k := by
  apply Nat.eq_of_testBit_eq
  intro i
  rw [eightPower, Nat.testBit_mod_two_pow, Nat.testBit_mod_two_pow, valueBit, valueBit]
  by_cases low : i < 3 * k
  · rw [same i low]
  · simp [low]

theorem highDigits {k : Nat} {a : Code f} {b : Code t} (same : ∀ i, 3 * k ≤ i → a.bit i = b.bit i) :
    value a / 8 ^ k = value b / 8 ^ k := by
  apply Nat.eq_of_testBit_eq
  intro i
  rw [eightPower, ← Nat.shiftRight_eq_div_pow, ← Nat.shiftRight_eq_div_pow, Nat.testBit_shiftRight, Nat.testBit_shiftRight,
    valueBit, valueBit]
  exact same _ (Nat.le_add_right _ _)

theorem bitsOfHigh {k : Nat} {a : Code f} {b : Code t} (same : value a / 8 ^ k = value b / 8 ^ k) {i : Nat}
    (high : 3 * k ≤ i) : a.bit i = b.bit i := by
  have bit := congrArg (fun n => n.testBit (i - 3 * k)) same
  simp only [eightPower, ← Nat.shiftRight_eq_div_pow, Nat.testBit_shiftRight, Nat.add_sub_cancel' high, valueBit] at bit
  exact bit

/-! ## One unit -/

def absolute (u : SourceUnit) (c : Code u.format) : Code .m192 := upcast c u.mortonMin

-- Bits of a word above the whole digits are clear, or those of the unit's minimum.
structure Stored (u : SourceUnit) (carried : Bool) : Prop where
  rising : u.codes.Pairwise fun a b => less b a = false
  spare : ∀ c ∈ u.codes, ∀ i, u.format.capacity ≤ i → i < u.format.total → c.bit i = (carried && u.mortonMin.bit i)

variable {u : SourceUnit} {carried : Bool} {c c' : Code u.format} {lod width : Nat}

theorem absoluteBit (stored : Stored u carried) (mem : c ∈ u.codes) {i : Nat} :
    (absolute u c).bit i = if i < u.format.capacity then c.bit i else u.mortonMin.bit i := by
  have narrower : u.format.total ≤ Format.total .m192 := by cases u.format <;> decide
  by_cases inside : i < Format.total .m192
  · rw [absolute, upcastBit c u.mortonMin narrower inside, if_neg (by decide)]
    split
    · rename_i low
      simp [Nat.not_le_of_lt low]
    · rename_i high
      simp only [Nat.le_of_not_lt high, decide_true, Bool.true_and]
      by_cases held : i < u.format.total
      · rw [stored.spare c mem i (Nat.le_of_not_lt high) held]
        cases carried <;> simp
      · rw [bitBeyond (Nat.le_of_not_lt held), Bool.false_or]
  · have high : ¬i < u.format.capacity := by
      have le : u.format.capacity ≤ u.format.total := Nat.sub_le _ _
      omega
    rw [if_neg high, bitBeyond (Nat.le_of_not_lt inside), bitBeyond (Nat.le_of_not_lt inside)]

theorem absoluteLow (stored : Stored u carried) (mem : c ∈ u.codes) :
    value (absolute u c) % 8 ^ digits u.format = value c % 8 ^ digits u.format := by
  refine lowDigits fun i low => ?_
  rw [absoluteBit stored mem, if_pos (capacityDigits u.format ▸ low)]

theorem absoluteHigh (stored : Stored u carried) (mem : c ∈ u.codes) :
    value (absolute u c) / 8 ^ digits u.format = value u.mortonMin / 8 ^ digits u.format := by
  refine highDigits fun i high => ?_
  rw [capacityDigits] at high
  rw [absoluteBit stored mem, if_neg (Nat.not_lt_of_le high)]

theorem storedHigh (stored : Stored u carried) (mem : c ∈ u.codes) (mem' : c' ∈ u.codes) :
    value c / 8 ^ digits u.format = value c' / 8 ^ digits u.format := by
  refine highDigits fun i high => ?_
  rw [capacityDigits] at high
  by_cases inside : i < u.format.total
  · rw [stored.spare c mem i high inside, stored.spare c' mem' i high inside]
  · rw [bitBeyond (Nat.le_of_not_lt inside), bitBeyond (Nat.le_of_not_lt inside)]

theorem divFurther {a b D x : Nat} (le : D ≤ x) (same : a / 8 ^ D = b / 8 ^ D) : a / 8 ^ x = b / 8 ^ x := by
  obtain ⟨more, rfl⟩ := Nat.exists_eq_add_of_le le
  rw [Nat.pow_add, ← Nat.div_div_eq_div_mul, ← Nat.div_div_eq_div_mul, same]

-- The width of the stored type groups the codes of a unit as the width of the node does.
theorem clampedCell (stored : Stored u carried) (small : width < 63) (mem : c ∈ u.codes) (mem' : c' ∈ u.codes) :
    cell (min width (maxMaskForType u.format)) c ≤ cell (min width (maxMaskForType u.format)) c' ↔
      cell width (absolute u c) ≤ cell width (absolute u c') := by
  have same := storedHigh stored mem mem'
  have high := (absoluteHigh stored mem).trans (absoluteHigh stored mem').symm
  have fits := (clampFits width : min width (maxMaskForType u.format) < digits u.format ∧ _).1
  unfold cell
  by_cases low : width ≤ maxMaskForType u.format
  · rw [Nat.min_eq_left low] at fits ⊢
    exact cellLe fits same high (absoluteLow stored mem).symm (absoluteLow stored mem').symm
  · have whole : min width (maxMaskForType u.format) + 1 = digits u.format := by
      rw [Nat.min_eq_right (by omega)]
      revert low
      cases u.format <;> simp [maxMaskForType, digits, Format.total, Format.capacity, Format.bits, Format.count]
      all_goals omega
    rw [whole, same, divFurther (show digits u.format ≤ width + 1 by omega) high]
    exact ⟨fun _ => Nat.le_refl _, fun _ => Nat.le_refl _⟩

theorem subsetMinBit {m : Code .m192} (inside : lod < 64) (i : Nat) :
    (subsetMin lod m).bit i = (decide (3 * lod ≤ i) && m.bit i) := by
  rw [subsetMin, andBit]
  by_cases here : i < Format.total .m192
  · rw [negateBit _ here]
    cases lod with
    | zero =>
      have clear : (maskBelow 0).bit i = false := by
        rw [Code.bit]
        by_cases word : i / Format.bits .m192 < Format.count .m192
        · rw [wordHere word]
          exact BitVec.getLsbD_zero
        · rw [wordBeyond (Nat.le_of_not_lt word)]
          exact BitVec.getLsbD_zero
      simp [clear]
    | succ lod =>
      rw [maskBelow, maskCreateEnd (.inl (by decide)) here, maskEnd, if_pos (by omega)]
      simp only [Nat.mul_comm lod 3, ← decide_not, Nat.not_lt]
      rfl
  · rw [bitBeyond (c := m) (Nat.le_of_not_lt here), Bool.and_false, Bool.and_false]

-- No set bit of a unit's minimum is left out when its codes are widened.
def Kept (u : SourceUnit) (carried : Bool) (t : Format) (lod : Nat) : Prop :=
  u.format.total < t.total → ∀ i, u.format.capacity ≤ i → i < t.capacity → u.mortonMin.bit i = true →
    (3 * lod ≤ i ∧ (if t.count = 1 then u.format.total else u.format.capacity) ≤ i) ∨ (carried = true ∧ i < u.format.total)

-- Whether the codes cast to a format have the minimum's bits above its whole digits.
def carries (u : SourceUnit) (carried : Bool) (t : Format) : Bool :=
  decide (u.format.total < t.total) || (decide (u.format = t) && carried)

theorem castLow (stored : Stored u carried) (kept : Kept u carried t lod) (inside : lod < 64) (mem : c ∈ u.codes) {i : Nat}
    (low : i < t.capacity) : (cast t c (subsetMin lod u.mortonMin)).bit i = (absolute u c).bit i := by
  have within : t.capacity ≤ t.total := Nat.sub_le _ _
  rw [absoluteBit stored mem, Morton.cast]
  split
  · rename_i same
    subst same
    rw [if_pos low]
  · rename_i other
    split
    · rename_i narrower
      have wide : i < u.format.capacity := by
        have less : t.capacity ≤ u.format.capacity := by
          revert narrower
          cases t <;> cases u.format <;> decide
        omega
      rw [narrowedBit c (Nat.le_of_lt narrower) (by omega), decide_eq_true low, Bool.true_and, if_pos wide]
    · rename_i wider
      have narrow : u.format.total < t.total := by
        have apart : u.format.total ≠ t.total := fun same => other (formatTotal same)
        omega
      rw [upcastBit c _ (Nat.le_of_lt narrow) (by omega), subsetMinBit inside]
      by_cases held : i < u.format.capacity
      · have least : u.format.capacity ≤ u.format.total := Nat.sub_le _ _
        have above : ¬(if t.count = 1 then u.format.total else u.format.capacity) ≤ i := by split <;> omega
        simp [above, held]
      · have beyond := held
        rw [if_neg beyond]
        cases set : u.mortonMin.bit i with
        | false =>
          by_cases held : i < u.format.total
          · simp [stored.spare c mem i (Nat.le_of_not_lt beyond) held, set]
          · simp [bitBeyond (c := c) (Nat.le_of_not_lt held)]
        | true =>
          rcases kept narrow i (Nat.le_of_not_lt beyond) low set with ⟨digit, copied⟩ | ⟨spare, held⟩
          · simp [digit, copied]
          · simp [stored.spare c mem i (Nat.le_of_not_lt beyond) held, spare, set]

theorem castHigh (stored : Stored u carried) (inside : lod < 64) (deep : 3 * lod ≤ t.capacity) (mem : c ∈ u.codes) {i : Nat}
    (high : t.capacity ≤ i) (held : i < t.total) :
    (cast t c (subsetMin lod u.mortonMin)).bit i = (carries u carried t && u.mortonMin.bit i) := by
  rw [Morton.cast]
  split
  · rename_i same
    subst same
    rw [stored.spare c mem i high held, carries]
    simp
  · rename_i other
    split
    · rename_i narrower
      rw [narrowedBit c (Nat.le_of_lt narrower) held, decide_eq_false (Nat.not_lt_of_le high), Bool.false_and, carries,
        decide_eq_false (Nat.not_lt_of_lt narrower), decide_eq_false other]
      rfl
    · rename_i wider
      have narrow : u.format.total < t.total := by
        have apart : u.format.total ≠ t.total := fun same => other (formatTotal same)
        omega
      have beyond : u.format.total ≤ t.capacity := by
        revert narrow
        cases t <;> cases u.format <;> decide
      have copied : (if t.count = 1 then u.format.total else u.format.capacity) ≤ i := by
        have least : u.format.capacity ≤ u.format.total := Nat.sub_le _ _
        split <;> omega
      rw [upcastBit c _ (Nat.le_of_lt narrow) held, subsetMinBit inside, bitBeyond (by omega), carries,
        decide_eq_true narrow, decide_eq_true copied, decide_eq_true (deep.trans high)]
      rfl

end Dewfall.LodQuantize
