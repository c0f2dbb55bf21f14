import Dewfall.Converter.PointSplitter
import Dewfall.Core.MortonDigits
import Dewfall.Core.MortonInterleave
import Dewfall.Core.MortonTree
import Dewfall.General.Residues
import Dewfall.General.ZOrder
import Mathlib.Algebra.Order.Floor.Ring
import Mathlib.Data.Rat.Floor
import Mathlib.Tactic.FieldSimp
import Mathlib.Tactic.Linarith

/-! The order of an input file, the code of the minimum corner that its pre-init declares, beside the codes
its sorted points get. Doubles are exact rationals, rounded and truncated where the source does. The
narrowing of a sorted buffer to its own span is left out. -/
namespace Dewfall.DoneCorner
open General.Residues General.ZOrder Morton MortonInterleave
open MortonDigits (value less mortonNegate lessValue valueBit bitBeyond upcastBit negateBit)
open MortonTree (mortonLod typeFromLod)

structure TreeConfig where
  scale : ℚ
  offset : Fin 3 → ℚ
  positive : 0 < scale

structure Header where
  scale : Fin 3 → ℚ
  offset : Fin 3 → ℚ
  min : Fin 3 → ℚ
  max : Fin 3 → ℚ
  positive : ∀ k, 0 < scale k

structure PreInit where
  foundMin : Bool
  min : Fin 3 → ℚ

abbrev Point := Fin 3 → BitVec 32

def doubleMax : ℚ := (2 ^ 53 - 1) * 2 ^ 971

-- `std::round` takes halves away from zero, a conversion to `int64_t` takes everything to zero.
def round (x : ℚ) : ℤ := if 0 ≤ x then ⌊x + 1 / 2⌋ else -⌊-x + 1 / 2⌋
def truncate (x : ℚ) : ℤ := if 0 ≤ x then ⌊x⌋ else ⌈x⌉

/-! ## The two routes to a code -/

section
variable (lib : Libmorton) (tree : TreeConfig)

def convertMortonToPos (morton : Code .m192) (k : Fin 3) : ℚ :=
  (decode192 lib morton k).toNat * tree.scale + tree.offset k

def nearest (pos : Fin 3 → ℚ) (k : Fin 3) : ℤ := round ((pos k - tree.offset k) / tree.scale)

def convertPosToMorton (pos : Fin 3 → ℚ) : Code .m192 :=
  encode192 lib fun k => BitVec.ofInt 64 (nearest tree pos k)

-- `register_pre_init_result`
def inputOrder (preInit : PreInit) : Code .m192 :=
  if preInit.foundMin then convertPosToMorton lib tree preInit.min else ⟨fun _ => 0⟩

variable (header : Header)

def ScaleIsSame : Prop := ∀ k, tree.scale = header.scale k
instance : Decidable (ScaleIsSame tree header) := by unfold ScaleIsSame; infer_instance

def localOffsetDiff (k : Fin 3) : ℤ :=
  -truncate (header.offset k * (1 / tree.scale)) + truncate (tree.offset k * (1 / tree.scale))

def coordinate (k : Fin 3) (x : ℤ) : ℤ :=
  if ScaleIsSame tree header then x - localOffsetDiff tree header k
  else truncate ((x * header.scale k + header.offset k - tree.offset k) * (1 / tree.scale))

def converted (point : Point) : Position := fun k => BitVec.ofInt 64 (coordinate tree header k (point k).toInt)

-- The upper digits of a narrow code come back from the last point converted.
def convertAndSortMorton (f : Format) (points : List Point) : List (Code .m192) :=
  let tmp := points.map (converted tree header)
  let morton := tmp.map fun pos => encode lib pos f
  let base := encode192 lib (tmp.getLastD fun _ => 0)
  (morton.mergeSort fun a b => !less b a).map fun code => upcast code base

def OutsideRange : Prop :=
  let globalMin := convertMortonToPos lib tree ⟨fun _ => 0⟩
  let globalMax := convertMortonToPos lib tree (mortonNegate ⟨fun _ => 0⟩)
  ∃ k, header.min k < globalMin k ∨ globalMax k < header.max k

instance : Decidable (OutsideRange lib tree header) := by unfold OutsideRange; infer_instance

-- A box that was left as it was initialized.
def Unbounded : Prop := ∀ k, header.min k = -doubleMax ∧ header.max k = doubleMax

instance : Decidable (Unbounded header) := by unfold Unbounded; infer_instance

def targetFormat : Format :=
  if Unbounded header then .m192
  else typeFromLod
    (mortonLod (value (convertPosToMorton lib tree header.min)) (value (convertPosToMorton lib tree header.max)))

def convertAndSort (points : List Point) : Except String (List (Code .m192)) :=
  if ¬Unbounded header ∧ OutsideRange lib tree header then .error "Data for is outside the dataset range."
  else .ok (convertAndSortMorton lib tree header (targetFormat lib tree header) points)

end

/-! ## The bound -/

def InBox (header : Header) (point : Point) : Prop :=
  ∀ k, header.min k ≤ (point k).toInt * header.scale k + header.offset k ∧
    (point k).toInt * header.scale k + header.offset k ≤ header.max k

instance (header point) : Decidable (InBox header point) := by unfold InBox; infer_instance

-- Every chunk of every file with this header.
def LowerBound (lib : Libmorton) (tree : TreeConfig) (header : Header) (preInit : PreInit) : Prop :=
  ∀ points : List Point, (∀ p ∈ points, InBox header p) →
    ∀ codes, convertAndSort lib tree header points = .ok codes →
      ∀ code ∈ codes, less code (inputOrder lib tree preInit) = false

section
variable (tree : TreeConfig) (header : Header)

def unsigned (i : ℤ) : Nat := (BitVec.ofInt 64 i).toNat

def leastRaw (k : Fin 3) : ℤ := max ⌈(header.min k - header.offset k) / header.scale k⌉ (-2 ^ 31)
def greatestRaw (k : Fin 3) : ℤ := min ⌊(header.max k - header.offset k) / header.scale k⌋ (2 ^ 31 - 1)

def grid (pos : Fin 3 → ℚ) (k : Fin 3) : Nat := unsigned (nearest tree pos k)

def cellFormat : Format :=
  if Unbounded header then .m192
  else typeFromLod (mortonLod (interleave (grid tree header.min)) (interleave (grid tree header.max)))

def cellSide : Nat := 2 ^ Format.axis (cellFormat tree header)

-- The least raw coordinate that is converted to `m` or more.
def firstRaw (k : Fin 3) (m : ℤ) : ℤ :=
  if ScaleIsSame tree header then m + localOffsetDiff tree header k
  else if 0 < m then ⌈(m * tree.scale + tree.offset k - header.offset k) / header.scale k⌉
  else ⌊((m - 1) * tree.scale + tree.offset k - header.offset k) / header.scale k⌋ + 1

-- The least residue that a raw coordinate of the box is converted to.
def leastCoordinate (n : ℤ) (k : Fin 3) : Nat :=
  (leastResidue (coordinate tree header k) (firstRaw tree header k) n (leastRaw header k) (greatestRaw header k)).toNat

-- The least coordinate a stored point can have: a cell may come from one point and the place in it from another.
def leastCorner (k : Fin 3) : Nat :=
  leastCoordinate tree header (2 ^ 64) k / cellSide tree header * cellSide tree header +
    leastCoordinate tree header (cellSide tree header) k

def CornerHolds (preInit : PreInit) : Prop :=
  preInit.foundMin = false ∨
  (¬Unbounded header ∧
    ∃ k, header.min k < tree.offset k ∨ (2 ^ 64 - 1) * tree.scale + tree.offset k < header.max k) ∨
  (∃ k, greatestRaw header k < leastRaw header k) ∨
  interleave (grid tree preInit.min) ≤ interleave (leastCorner tree header)

instance (preInit) : Decidable (CornerHolds tree header preInit) := by unfold CornerHolds; infer_instance

end

/-! ## Codes as interleaved triples -/

-- A stored code takes its upper digits from another point.
def mix (side v u : Nat) : Nat := v / side * side + u % side

theorem mixBit (l v u q : Nat) : (mix (2 ^ l) v u).testBit q = if q < l then u.testBit q else v.testBit q := by
  have small : u % 2 ^ l < 2 ^ l := Nat.mod_lt _ (Nat.two_pow_pos l)
  rw [mix, Nat.mul_comm, Nat.testBit_two_pow_mul_add _ small, Nat.testBit_mod_two_pow, Nat.testBit_div_two_pow]
  split
  · rename_i low
    rw [decide_eq_true low, Bool.true_and]
  · rename_i high
    rw [Nat.sub_add_cancel (Nat.le_of_not_lt high)]

theorem mixSelf (side u : Nat) : mix side u u = u := by rw [mix, Nat.mul_comm, Nat.div_add_mod]

section
variable {lib : Libmorton}

theorem storedValue (works : lib.Interleaves) (f : Format) (last pos : Position) :
    value (upcast (encode lib pos f) (encode192 lib last) : Code .m192) =
      interleave fun k => mix (2 ^ Format.axis f) (last k).toNat (pos k).toNat := by
  apply Nat.eq_of_testBit_eq
  intro i
  have place : i = 3 * (i / 3) + i % 3 := (Nat.div_add_mod i 3).symm
  have digit : i % 3 < 3 := Nat.mod_lt _ (by decide)
  have axis := capacityAxis f
  have stored := capacityLe f
  generalize hq : i / 3 = q at place
  let k : Fin 3 := ⟨i % 3, digit⟩
  have right : (interleave fun k => mix (2 ^ Format.axis f) (last k).toNat (pos k).toNat).testBit i =
      if q < Format.axis f then (pos k).getLsbD q else (last k).getLsbD q := by
    rw [place, interleaveBit _ k, mixBit]
    rfl
  rw [right, valueBit]
  by_cases inside : i < Format.total .m192
  · have wide : Format.count .m192 ≠ 1 := by decide
    have upper : (encode192 lib last).bit i = (last k).getLsbD q := by
      have whole : i < Format.capacity .m192 := inside
      have bit := encodeBit works last .m192 inside
      rw [decide_eq_true whole, Bool.true_and] at bit
      rw [← axisBitAt last k q]
      show (encode lib last .m192).bit i = _
      rw [bit, ← place]
    rw [upcastBit _ _ (by cases f <;> decide) inside, if_neg wide, upper]
    by_cases low : i < f.capacity
    · have lower : (encode lib pos f).bit i = (pos k).getLsbD q := by
        rw [encodeBit works pos f (by omega), decide_eq_true low, Bool.true_and, ← axisBitAt pos k q, ← place]
      rw [lower, decide_eq_false (by omega), Bool.false_and, Bool.or_false, if_pos (by omega)]
    · have lower : (encode lib pos f).bit i = false := by
        by_cases here : i < f.total
        · rw [encodeBit works pos f here, decide_eq_false low, Bool.false_and]
        · exact bitBeyond (Nat.le_of_not_lt here)
      rw [lower, decide_eq_true (by omega), Bool.true_and, Bool.false_or, if_neg (by omega)]
  · have far : 64 ≤ q := by
      have total : Format.total .m192 = 192 := rfl
      omega
    rw [bitBeyond (Nat.le_of_not_lt inside), BitVec.getLsbD_of_ge _ _ far, BitVec.getLsbD_of_ge _ _ far, ite_self]


theorem encodedValue (works : lib.Interleaves) (pos : Position) :
    value (encode192 lib pos) = interleave fun k => (pos k).toNat := by
  have same := storedValue works .m192 pos pos
  simp only [mixSelf] at same
  rw [← same]
  rfl

theorem cornerValue (works : lib.Interleaves) (tree : TreeConfig) (pos : Fin 3 → ℚ) :
    value (convertPosToMorton lib tree pos) = interleave (grid tree pos) := encodedValue works _

theorem zeroBit (i : Nat) : (⟨fun _ => 0⟩ : Code .m192).bit i = false := by
  rw [Code.bit, Code.word]
  split
  · exact BitVec.getLsbD_zero
  · exact BitVec.getLsbD_zero

theorem globalMin (works : lib.Interleaves) (tree : TreeConfig) (k : Fin 3) :
    convertMortonToPos lib tree ⟨fun _ => 0⟩ k = tree.offset k := by
  have zero : decode192 lib ⟨fun _ => 0⟩ k = 0#64 := by
    apply BitVec.eq_of_getLsbD_eq
    intro q inside
    have bit := decodeBit works (⟨fun _ => 0⟩ : Code .m192) k inside
    rw [zeroBit] at bit
    exact bit.trans (by simp)
  rw [convertMortonToPos, zero]
  simp

theorem globalMax (works : lib.Interleaves) (tree : TreeConfig) (k : Fin 3) :
    convertMortonToPos lib tree (mortonNegate ⟨fun _ => 0⟩) k = (2 ^ 64 - 1) * tree.scale + tree.offset k := by
  have ones : decode192 lib (mortonNegate ⟨fun _ => 0⟩) k = BitVec.allOnes 64 := by
    apply BitVec.eq_of_getLsbD_eq
    intro q inside
    have whole : 3 * q + k.val < Format.total .m192 := by
      have total : Format.total .m192 = 192 := rfl
      omega
    have bit := decodeBit works (mortonNegate (⟨fun _ => 0⟩ : Code .m192)) k inside
    rw [negateBit _ whole, zeroBit] at bit
    rw [BitVec.getLsbD_allOnes, decide_eq_true inside]
    exact bit
  rw [convertMortonToPos, ones, BitVec.toNat_allOnes]
  norm_num

theorem outsideIff (works : lib.Interleaves) (tree : TreeConfig) (header : Header) :
    OutsideRange lib tree header ↔
      ∃ k, header.min k < tree.offset k ∨ (2 ^ 64 - 1) * tree.scale + tree.offset k < header.max k := by
  simp only [OutsideRange, globalMin works, globalMax works]

theorem sideOfTarget (works : lib.Interleaves) (tree : TreeConfig) (header : Header) :
    2 ^ Format.axis (targetFormat lib tree header) = cellSide tree header := by
  rw [targetFormat, cornerValue works, cornerValue works]
  rfl

/-! ## The points of the box -/

theorem inBoxRaw (header : Header) (point : Point) :
    InBox header point ↔ ∀ k, leastRaw header k ≤ (point k).toInt ∧ (point k).toInt ≤ greatestRaw header k := by
  have low : ∀ k, -2 ^ 31 ≤ (point k).toInt := fun k => BitVec.le_toInt _
  have high : ∀ k, (point k).toInt ≤ 2 ^ 31 - 1 := fun k => Int.le_sub_one_of_lt BitVec.toInt_lt
  refine forall_congr' fun k => ?_
  have positive := header.positive k
  rw [leastRaw, greatestRaw, max_le_iff, le_min_iff, Int.ceil_le, Int.le_floor, div_le_iff₀ positive,
    le_div_iff₀ positive, sub_le_iff_le_add, le_sub_iff_add_le]
  exact ⟨fun inside => ⟨⟨inside.1, low k⟩, inside.2, high k⟩, fun raw => ⟨raw.1.1, raw.2.1⟩⟩

theorem pointOf (header : Header) {x : Fin 3 → ℤ} (first : ∀ k, leastRaw header k ≤ x k)
    (last : ∀ k, x k ≤ greatestRaw header k) : ∃ point, InBox header point ∧ ∀ k, (point k).toInt = x k := by
  have exact_ : ∀ k, (BitVec.ofInt 32 (x k)).toInt = x k := by
    intro k
    have low : -2 ^ 31 ≤ x k := (le_max_right _ _).trans (first k)
    have high : x k ≤ 2 ^ 31 - 1 := (last k).trans (min_le_right _ _)
    rw [BitVec.toInt_ofInt, Int.bmod_eq_of_le] <;> omega
  refine ⟨fun k => BitVec.ofInt 32 (x k), (inBoxRaw header _).mpr fun k => ?_, exact_⟩
  rw [exact_]
  exact ⟨first k, last k⟩

theorem codeMem (tree : TreeConfig) (header : Header) (f : Format) (points : List Point) (code : Code .m192) :
    code ∈ convertAndSortMorton lib tree header f points ↔ ∃ p ∈ points, code =
      upcast (encode lib (converted tree header p) f)
        (encode192 lib ((points.map (converted tree header)).getLastD fun _ => 0)) := by
  simp only [convertAndSortMorton, List.mem_map, List.mem_mergeSort, List.map_map]
  constructor
  · rintro ⟨_, ⟨p, here, rfl⟩, rfl⟩
    exact ⟨p, here, rfl⟩
  · rintro ⟨p, here, rfl⟩
    exact ⟨_, ⟨p, here, rfl⟩, rfl⟩

end


/-! ## The least stored coordinate -/

theorem unsignedInt (i : ℤ) : (unsigned i : ℤ) = i % 2 ^ 64 := by
  have value : unsigned i = (i % 2 ^ 64).toNat := by
    rw [unsigned, BitVec.toNat_ofInt]
    rfl
  rw [value, Int.toNat_of_nonneg (Int.emod_nonneg i (by decide))]

theorem unsignedMod {l : Nat} (small : l ≤ 64) (i : ℤ) : ((unsigned i % 2 ^ l : Nat) : ℤ) = i % 2 ^ l := by
  rw [Int.natCast_mod, unsignedInt, Nat.cast_pow, Nat.cast_ofNat, Int.emod_emod_of_dvd]
  exact pow_dvd_pow 2 small

/-! ## Rounding and truncating -/

theorem truncateNonneg {x : ℚ} (nonneg : 0 ≤ x) : truncate x = ⌊x⌋ := if_pos nonneg

theorem roundNonneg {x : ℚ} (nonneg : 0 ≤ x) : round x = ⌊x + 1 / 2⌋ := if_pos nonneg

theorem truncateMono {x y : ℚ} (le : x ≤ y) : truncate x ≤ truncate y := by
  unfold truncate
  split
  · rename_i nonneg
    rw [if_pos (nonneg.trans le)]
    exact Int.floor_mono le
  · rename_i negative
    split
    · rename_i nonneg
      have below : ⌈x⌉ ≤ 0 := Int.ceil_le.mpr (by exact_mod_cast (not_le.mp negative).le)
      exact below.trans (Int.floor_nonneg.mpr nonneg)
    · exact Int.ceil_mono le

section
variable (tree : TreeConfig) (header : Header)

theorem coordinateMono (k : Fin 3) {x y : ℤ} (le : x ≤ y) : coordinate tree header k x ≤ coordinate tree header k y := by
  unfold coordinate
  split
  · omega
  · apply truncateMono
    have larger : (x : ℚ) * header.scale k ≤ y * header.scale k :=
      mul_le_mul_of_nonneg_right (by exact_mod_cast le) (header.positive k).le
    have inverse : 0 ≤ 1 / tree.scale := (one_div_pos.mpr tree.positive).le
    exact mul_le_mul_of_nonneg_right (by linarith) inverse

theorem coordinateShift (same : ScaleIsSame tree header) (k : Fin 3) (x : ℤ) :
    coordinate tree header k x = x - localOffsetDiff tree header k := if_pos same

theorem truncateLe {m : ℤ} {x : ℚ} : m ≤ truncate x ↔ if 0 < m then (m : ℚ) ≤ x else (m - 1 : ℚ) < x := by
  unfold truncate
  split
  · rename_i nonneg
    rw [Int.le_floor]
    split
    · rfl
    · rename_i low
      have small : (m : ℚ) ≤ 0 := by exact_mod_cast not_lt.mp low
      exact ⟨fun _ => by linarith, fun _ => by linarith⟩
  · rename_i negative
    split
    · rename_i high
      have large : (0 : ℚ) < m := by exact_mod_cast high
      have below : ⌈x⌉ ≤ 0 := Int.ceil_le.mpr (by exact_mod_cast (not_le.mp negative).le)
      exact ⟨fun le => by omega, fun le => by linarith⟩
    · rw [← Int.sub_one_lt_iff, Int.lt_ceil]
      push_cast
      rfl

-- The conversion and the first raw coordinates are adjoint.
theorem firstRawAdjoint (k : Fin 3) : GaloisConnection (firstRaw tree header k) (coordinate tree header k) := by
  intro m x
  unfold firstRaw coordinate
  split
  · omega
  · have scale := header.positive k
    have moved : ∀ y : ℚ, y ≤ (x * header.scale k + header.offset k - tree.offset k) * (1 / tree.scale) ↔
        (y * tree.scale + tree.offset k - header.offset k) / header.scale k ≤ x := by
      intro y
      rw [mul_one_div, le_div_iff₀ tree.positive, div_le_iff₀ scale]
      constructor
      · intro le
        linarith
      · intro le
        linarith
    have movedLt : ∀ y : ℚ, y < (x * header.scale k + header.offset k - tree.offset k) * (1 / tree.scale) ↔
        (y * tree.scale + tree.offset k - header.offset k) / header.scale k < x := by
      intro y
      rw [mul_one_div, lt_div_iff₀ tree.positive, div_lt_iff₀ scale]
      constructor
      · intro less
        linarith
      · intro less
        linarith
    rw [truncateLe]
    split
    · rw [moved, Int.ceil_le]
    · rw [movedLt, Int.add_one_le_iff, Int.floor_lt]

theorem gridInside (pos : Fin 3 → ℚ) (k : Fin 3) : grid tree pos k < 2 ^ 64 := BitVec.isLt _

theorem gridExact {pos : Fin 3 → ℚ} {k : Fin 3} (low : tree.offset k ≤ pos k)
    (high : pos k ≤ (2 ^ 64 - 1) * tree.scale + tree.offset k) : (grid tree pos k : ℤ) = nearest tree pos k := by
  have nonneg : 0 ≤ (pos k - tree.offset k) / tree.scale := div_nonneg (by linarith) tree.positive.le
  have bounded : (pos k - tree.offset k) / tree.scale ≤ 2 ^ 64 - 1 := by
    rw [div_le_iff₀ tree.positive]
    linarith
  have value : nearest tree pos k = ⌊(pos k - tree.offset k) / tree.scale + 1 / 2⌋ := roundNonneg nonneg
  have least : 0 ≤ nearest tree pos k := by
    rw [value, Int.floor_nonneg]
    linarith
  have greatest : nearest tree pos k < 2 ^ 64 := by
    rw [value, Int.floor_lt]
    norm_num at bounded ⊢
    linarith
  rw [grid, unsignedInt, Int.emod_eq_of_lt least greatest]

-- The truncated points never pass the rounded maximum.
theorem truncatedWithin (apart : ¬ScaleIsSame tree header) {k : Fin 3} {x : ℤ}
    (low : tree.offset k ≤ x * header.scale k + header.offset k)
    (below : x * header.scale k + header.offset k ≤ header.max k) :
    0 ≤ coordinate tree header k x ∧ coordinate tree header k x ≤ nearest tree header.max k := by
  have inverse : 0 < 1 / tree.scale := one_div_pos.mpr tree.positive
  have nonneg : 0 ≤ (x * header.scale k + header.offset k - tree.offset k) * (1 / tree.scale) :=
    mul_nonneg (by linarith) inverse.le
  have least : (x * header.scale k + header.offset k - tree.offset k) * (1 / tree.scale) ≤
      (header.max k - tree.offset k) / tree.scale := by
    rw [div_eq_mul_one_div (header.max k - tree.offset k)]
    exact mul_le_mul_of_nonneg_right (by linarith) inverse.le
  rw [coordinate, if_neg apart, truncateNonneg nonneg, nearest, roundNonneg (nonneg.trans least)]
  exact ⟨Int.floor_nonneg.mpr nonneg, Int.floor_mono (by linarith)⟩

theorem cornersShareCell (k : Fin 3) :
    grid tree header.min k / cellSide tree header = grid tree header.max k / cellSide tree header := by
  have low := interleaveInside (gridInside tree header.min)
  have high := interleaveInside (gridInside tree header.max)
  have span := PointSplitter.spanLt low high
  have near : mortonLod (interleave (grid tree header.min)) (interleave (grid tree header.max)) <
      Format.axis (cellFormat tree header) := by
    unfold cellFormat
    split
    · exact span
    · exact MortonTree.typeWide span
  have same := MortonTree.lodSame near
  rw [interleaveCell, interleaveCell] at same
  exact congrFun (interleaveInj same) k

end


/-! ## The corner and the points -/

section
variable {lib : Libmorton}

def Boxed (tree : TreeConfig) (header : Header) (min : Fin 3 → ℚ) : Prop :=
  ∀ p q, InBox header p → InBox header q → interleave (grid tree min) ≤
    interleave fun k => mix (cellSide tree header) (unsigned (coordinate tree header k (q k).toInt))
      (unsigned (coordinate tree header k (p k).toInt))

theorem storedCode (works : lib.Interleaves) (tree : TreeConfig) (header : Header) (p q : Point) :
    value (upcast (encode lib (converted tree header p) (targetFormat lib tree header))
      (encode192 lib (converted tree header q)) : Code .m192) =
    interleave fun k => mix (cellSide tree header) (unsigned (coordinate tree header k (q k).toInt))
      (unsigned (coordinate tree header k (p k).toInt)) := by
  rw [storedValue works, sideOfTarget works]
  rfl

theorem notLess (a b : Code .m192) : less a b = false ↔ value b ≤ value a := by
  rw [← Bool.not_eq_true, lessValue, Nat.not_lt]

theorem lastConverted (tree : TreeConfig) (header : Header) {points : List Point} {p : Point} (here : p ∈ points) :
    ∃ q ∈ points, (points.map (converted tree header)).getLastD (fun _ => 0) = converted tree header q := by
  have some_ : points ≠ [] := List.ne_nil_of_mem here
  refine ⟨points.getLast some_, List.getLast_mem some_, ?_⟩
  rw [List.getLastD_eq_getLast?, List.getLast?_map, List.getLast?_eq_some_getLast some_]
  rfl

theorem lowerBoundIff (works : lib.Interleaves) (tree : TreeConfig) (header : Header) (preInit : PreInit) :
    LowerBound lib tree header preInit ↔
      preInit.foundMin = false ∨ (¬Unbounded header ∧ OutsideRange lib tree header) ∨ Boxed tree header preInit.min := by
  have zero : value (⟨fun _ => 0⟩ : Code .m192) = 0 := by decide
  constructor
  · intro bound
    by_cases found : preInit.foundMin = false
    · exact Or.inl found
    · by_cases outside : ¬Unbounded header ∧ OutsideRange lib tree header
      · exact Or.inr (Or.inl outside)
      · refine Or.inr (Or.inr fun p q inP inQ => ?_)
        -- A chunk of two points shows every pair.
        have all : ∀ r ∈ [p, q], InBox header r := by
          intro r here
          rcases List.mem_pair.mp here with rfl | rfl
          · exact inP
          · exact inQ
        have sorted := bound [p, q] all _ (if_neg outside) _
          ((codeMem tree header _ [p, q] _).mpr ⟨p, List.mem_cons_self, rfl⟩)
        rw [notLess, inputOrder, if_pos (by simpa using found), cornerValue works] at sorted
        exact sorted.trans_eq (storedCode works tree header p q)
  · intro cases_ points inside codes sorted code here
    rw [convertAndSort] at sorted
    split at sorted
    · cases sorted
    · rename_i within
      cases sorted
      obtain ⟨p, member, rfl⟩ := (codeMem tree header _ points code).mp here
      obtain ⟨q, memberQ, last⟩ := lastConverted tree header member
      rw [notLess, last, storedCode works]
      rcases cases_ with absent | outside | boxed
      · rw [inputOrder, absent, if_neg (by decide), zero]
        exact Nat.zero_le _
      · exact absurd outside within
      · rw [inputOrder]
        split
        · rw [cornerValue works]
          exact boxed p q (inside p member) (inside q memberQ)
        · rw [zero]
          exact Nat.zero_le _

end

section
variable {tree : TreeConfig} {header : Header}

theorem cellSidePower (tree : TreeConfig) (header : Header) : ∃ l, l ≤ 64 ∧ cellSide tree header = 2 ^ l :=
  ⟨_, axisLe _, rfl⟩

theorem unsignedResidue {l : Nat} (small : l ≤ 64) (i : ℤ) : unsigned i % 2 ^ l = (i % 2 ^ l).toNat := by
  have residue := unsignedMod small i
  have nonneg := Int.emod_nonneg i (pow_ne_zero l (two_ne_zero (α := ℤ)))
  omega

theorem unsignedWhole (i : ℤ) : unsigned i = (i % 2 ^ 64).toNat := by
  have value := unsignedInt i
  omega

theorem leastCornerLe {p q : Point} (inP : InBox header p) (inQ : InBox header q) (k : Fin 3) :
    leastCorner tree header k ≤ mix (cellSide tree header) (unsigned (coordinate tree header k (q k).toInt))
      (unsigned (coordinate tree header k (p k).toInt)) := by
  obtain ⟨l, small, side⟩ := cellSidePower tree header
  have rawP := (inBoxRaw header p).mp inP k
  have rawQ := (inBoxRaw header q).mp inQ k
  have cell := leastResidueLe (firstRawAdjoint tree header k) (show (0 : ℤ) < 2 ^ 64 by decide) rawQ.1 rawQ.2
  have place := leastResidueLe (firstRawAdjoint tree header k) (show (0 : ℤ) < 2 ^ l by positivity) rawP.1 rawP.2
  rw [leastCorner, mix, side, unsignedResidue small, unsignedWhole (coordinate tree header k (q k).toInt)]
  unfold leastCoordinate
  push_cast
  have first := Int.toNat_le_toNat cell
  have second := Int.toNat_le_toNat place
  exact Nat.add_le_add (Nat.mul_le_mul_right _ (Nat.div_le_div_right first)) second

theorem leastCornerMet (filled : ∀ k, leastRaw header k ≤ greatestRaw header k) :
    ∃ p q, InBox header p ∧ InBox header q ∧ leastCorner tree header = fun k =>
      mix (cellSide tree header) (unsigned (coordinate tree header k (q k).toInt))
        (unsigned (coordinate tree header k (p k).toInt)) := by
  obtain ⟨l, small, side⟩ := cellSidePower tree header
  have cells := fun k => leastResidueMet (firstRawAdjoint tree header k) (show (0 : ℤ) < 2 ^ 64 by decide) (filled k)
  have places := fun k => leastResidueMet (firstRawAdjoint tree header k) (show (0 : ℤ) < 2 ^ l by positivity) (filled k)
  choose x lowX highX cell using cells
  choose y lowY highY place using places
  obtain ⟨p, inP, rawP⟩ := pointOf header lowY highY
  obtain ⟨q, inQ, rawQ⟩ := pointOf header lowX highX
  refine ⟨p, q, inP, inQ, funext fun k => ?_⟩
  rw [leastCorner, mix, rawP, rawQ, side, unsignedResidue small, unsignedWhole (coordinate tree header k (x k)), ← cell,
    ← place]
  unfold leastCoordinate
  push_cast
  rfl

theorem unsignedExact {i : ℤ} (nonneg : 0 ≤ i) (small : i < 2 ^ 64) : (unsigned i : ℤ) = i := by
  rw [unsignedInt, Int.emod_eq_of_lt nonneg small]

theorem gridTop (tree : TreeConfig) (pos : Fin 3 → ℚ) (k : Fin 3) : (grid tree pos k : ℤ) < 2 ^ 64 := by
  have below := gridInside tree pos k
  omega

theorem leastInCell {k : Fin 3} (nonneg : 0 ≤ coordinate tree header k (leastRaw header k))
    (le : coordinate tree header k (leastRaw header k) ≤ coordinate tree header k (greatestRaw header k))
    (below : coordinate tree header k (greatestRaw header k) ≤ grid tree header.max k)
    (cell : unsigned (coordinate tree header k (leastRaw header k)) / cellSide tree header =
      grid tree header.max k / cellSide tree header) :
    leastCorner tree header k = unsigned (coordinate tree header k (leastRaw header k)) := by
  have top := gridTop tree header.max k
  have first := unsignedExact nonneg (by omega)
  obtain ⟨last, lastEq⟩ := Int.eq_ofNat_of_zero_le (nonneg.trans le)
  have run : coordinate tree header k (greatestRaw header k) / 2 ^ 64 =
      coordinate tree header k (leastRaw header k) / 2 ^ 64 := by
    rw [Int.ediv_eq_zero_of_lt nonneg (by omega), Int.ediv_eq_zero_of_lt (by omega) (by omega)]
  have same : coordinate tree header k (greatestRaw header k) / (cellSide tree header : ℤ) =
      coordinate tree header k (leastRaw header k) / (cellSide tree header : ℤ) := by
    have cells := General.Cells.betweenSame (show unsigned _ ≤ last by omega) (show last ≤ _ by omega) cell
    rw [lastEq, ← first]
    exact_mod_cast cells
  obtain ⟨l, small, side⟩ := cellSidePower tree header
  have power : ((2 ^ l : Nat) : ℤ) = 2 ^ l := Nat.cast_pow 2 l
  rw [side, power] at same
  rw [leastCorner, leastCoordinate, leastCoordinate, leastResidueOne run, side, power, leastResidueOne same,
    ← unsignedWhole, ← unsignedResidue small]
  exact mixSelf _ _

end

section
variable {tree : TreeConfig} {header : Header}

theorem cornerWithin (inside : ∀ k, tree.offset k ≤ header.min k ∧
      header.max k ≤ (2 ^ 64 - 1) * tree.scale + tree.offset k)
    (filled : ∀ k, leastRaw header k ≤ greatestRaw header k)
    (low : ∀ k, nearest tree header.min k ≤ coordinate tree header k (leastRaw header k))
    (high : ∀ k, coordinate tree header k (greatestRaw header k) ≤ nearest tree header.max k) :
    interleave (grid tree header.min) ≤ interleave (leastCorner tree header) := by
  obtain ⟨point, inBox, _⟩ := pointOf header (fun _ => le_refl _) filled
  refine interleaveLe fun k => ?_
  have bounded : header.min k ≤ header.max k := (inBox k).1.trans (inBox k).2
  have first := gridExact tree (inside k).1 (bounded.trans (inside k).2)
  have last := gridExact tree ((inside k).1.trans bounded) (inside k).2
  have top := gridTop tree header.max k
  have le := coordinateMono tree header k (filled k)
  have start := low k
  have finish := high k
  have exact_ : (unsigned (coordinate tree header k (leastRaw header k)) : ℤ) = _ :=
    unsignedExact (by omega) (by omega)
  have shared := cornersShareCell tree header k
  have corner : grid tree header.min k ≤ unsigned (coordinate tree header k (leastRaw header k)) := by omega
  have above := General.Cells.betweenSame corner (by omega) shared
  rw [leastInCell (by omega) le (by omega) (above.trans shared)]
  exact corner

theorem holdsWithin {preInit : PreInit} (own : preInit.min = header.min) (bounded : ¬Unbounded header)
    (low : ∀ k, header.min k ≤ leastRaw header k * header.scale k + header.offset k →
      tree.offset k ≤ header.min k → nearest tree header.min k ≤ coordinate tree header k (leastRaw header k))
    (high : ∀ k, greatestRaw header k * header.scale k + header.offset k ≤ header.max k →
      tree.offset k ≤ greatestRaw header k * header.scale k + header.offset k →
      coordinate tree header k (greatestRaw header k) ≤ nearest tree header.max k) :
    CornerHolds tree header preInit := by
  by_cases outside : ∃ k, header.min k < tree.offset k ∨ (2 ^ 64 - 1) * tree.scale + tree.offset k < header.max k
  · exact Or.inr (Or.inl ⟨bounded, outside⟩)
  · by_cases empty : ∃ k, greatestRaw header k < leastRaw header k
    · exact Or.inr (Or.inr (Or.inl empty))
    · have inside : ∀ k, tree.offset k ≤ header.min k ∧
          header.max k ≤ (2 ^ 64 - 1) * tree.scale + tree.offset k :=
        fun k => ⟨not_lt.mp fun below => outside ⟨k, Or.inl below⟩, not_lt.mp fun above => outside ⟨k, Or.inr above⟩⟩
      have filled : ∀ k, leastRaw header k ≤ greatestRaw header k :=
        fun k => not_lt.mp fun less => empty ⟨k, less⟩
      obtain ⟨first, inFirst, rawFirst⟩ := pointOf header (fun _ => le_refl _) filled
      obtain ⟨last, inLast, rawLast⟩ := pointOf header filled fun _ => le_refl _
      refine Or.inr (Or.inr (Or.inr (own ▸ cornerWithin inside filled (fun k => ?_) fun k => ?_)))
      · have here := inFirst k
        rw [rawFirst] at here
        exact low k here.1 (inside k).1
      · have here := inLast k
        rw [rawLast] at here
        exact high k here.2 ((inside k).1.trans here.1)

-- A corner less than half a step above the tree's grid is rounded down, as its points are.
theorem lowFractionHolds (apart : ¬ScaleIsSame tree header)
    (below : ∀ k, Int.fract ((header.min k - tree.offset k) / tree.scale) < 1 / 2) {preInit : PreInit}
    (own : preInit.min = header.min) (bounded : ¬Unbounded header) : CornerHolds tree header preInit := by
  have inverse : 0 < 1 / tree.scale := one_div_pos.mpr tree.positive
  refine holdsWithin own bounded (fun k above low => ?_) fun k within high => ?_
  · have nonneg : 0 ≤ (header.min k - tree.offset k) / tree.scale := div_nonneg (by linarith) tree.positive.le
    have larger : (header.min k - tree.offset k) / tree.scale ≤
        (leastRaw header k * header.scale k + header.offset k - tree.offset k) * (1 / tree.scale) := by
      rw [div_eq_mul_one_div (header.min k - tree.offset k)]
      exact mul_le_mul_of_nonneg_right (by linarith) inverse.le
    have down : nearest tree header.min k = ⌊(header.min k - tree.offset k) / tree.scale⌋ := by
      have part := below k
      have split := Int.floor_add_fract ((header.min k - tree.offset k) / tree.scale)
      have whole := Int.fract_nonneg ((header.min k - tree.offset k) / tree.scale)
      rw [nearest, roundNonneg nonneg, Int.floor_eq_iff]
      constructor
      · linarith
      · linarith
    rw [down, coordinate, if_neg apart, truncateNonneg (nonneg.trans larger)]
    exact Int.floor_mono larger
  · exact (truncatedWithin tree header apart high within).2

-- With one scale and both offsets on the tree's grid the shift is exact.
theorem gridOffsetsHold (same : ScaleIsSame tree header)
    (file : ∀ k, Int.fract (header.offset k / tree.scale) = 0)
    (whole : ∀ k, Int.fract (tree.offset k / tree.scale) = 0) {preInit : PreInit} (own : preInit.min = header.min)
    (bounded : ¬Unbounded header) : CornerHolds tree header preInit := by
  have positive := tree.positive
  have kept : ∀ x : ℚ, Int.fract x = 0 → (truncate x : ℚ) = x := by
    intro x integral
    obtain ⟨n, rfl⟩ : ∃ n : ℤ, x = n := ⟨⌊x⌋, by
      have split := Int.floor_add_fract x
      rw [integral, add_zero] at split
      exact split.symm⟩
    unfold truncate
    split
    · rw [Int.floor_intCast]
    · rw [Int.ceil_intCast]
  have exact_ : ∀ k (x : ℤ), (coordinate tree header k x : ℚ) =
      (x * header.scale k + header.offset k - tree.offset k) / tree.scale := by
    intro k x
    have fileShift := kept _ (file k)
    have treeShift := kept _ (whole k)
    rw [coordinateShift tree header same, localOffsetDiff, mul_one_div, mul_one_div, ← same k]
    push_cast
    rw [fileShift, treeShift]
    field_simp
    ring
  refine holdsWithin own bounded (fun k above low => ?_) fun k within high => ?_
  · have nonneg : 0 ≤ (header.min k - tree.offset k) / tree.scale := div_nonneg (by linarith) positive.le
    have larger : (header.min k - tree.offset k) / tree.scale ≤ coordinate tree header k (leastRaw header k) := by
      rw [exact_]
      exact (div_le_div_iff_of_pos_right positive).mpr (by linarith)
    rw [nearest, roundNonneg nonneg, ← Int.lt_add_one_iff, Int.floor_lt]
    push_cast
    linarith
  · have nonneg : 0 ≤ (header.max k - tree.offset k) / tree.scale := div_nonneg (by linarith) positive.le
    have smaller : (coordinate tree header k (greatestRaw header k) : ℚ) ≤ (header.max k - tree.offset k) / tree.scale := by
      rw [exact_]
      exact (div_le_div_iff_of_pos_right positive).mpr (by linarith)
    rw [nearest, roundNonneg nonneg, Int.le_floor]
    linarith

end

/-! ## One axis each way -/

def unitTree : TreeConfig := ⟨1, fun _ => 0, by decide +kernel⟩

def halfHeader : Header := ⟨fun _ => 1 / 2, fun _ => 0, fun _ => 1 / 2, fun _ => 8, by decide +kernel⟩

def wholeHeader : Header := ⟨fun _ => 1 / 2, fun _ => 0, fun _ => 1, fun _ => 8, by decide +kernel⟩

-- One scale, with offsets of different sign off the grid: the two truncations leave a step out.
def shiftedTree : TreeConfig := ⟨1, fun _ => -1 / 2, by decide +kernel⟩

def shiftedHeader : Header := ⟨fun _ => 1, fun _ => 1 / 2, fun _ => 1 / 2, fun _ => 8, by decide +kernel⟩

example : ¬CornerHolds shiftedTree shiftedHeader ⟨true, shiftedHeader.min⟩ := by decide +kernel

-- Without a box the points are anywhere, and only the lowest corner is below them all.
def openHeader : Header := ⟨fun _ => 1, fun _ => 0, fun _ => -doubleMax, fun _ => doubleMax, by decide +kernel⟩

example : CornerHolds unitTree openHeader ⟨true, fun _ => 0⟩ ∧ ¬CornerHolds unitTree openHeader ⟨true, fun _ => 1⟩ := by
  decide +kernel

end Dewfall.DoneCorner
