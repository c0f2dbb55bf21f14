import Dewfall.Core.MortonDigits
import Dewfall.Core.MortonInterleave

/-! The two decoders of a stored unit's positions: the access library's grid format and the render
decoder. Both give an integer origin for the unit and an integer for each point; scaling to
world units and to floats is not treated. -/
namespace Dewfall.PositionDecoders
open General General.Cells Morton MortonDigits MortonInterleave
open MortonTree (digits typeFromLod mortonLod)

-- What the sorter, the collapse merge and the LOD writer store: the width follows from the level.
structure PointUnit where
  lodSpan : Nat
  mortonMin : Code .m192
  codes : List (Code (typeFromLod lodSpan))

/-! ## decode_positions -/

section
variable (lib : Libmorton)

def cellMin (headerMin : Code .m192) (lodSpan : Nat) : Code .m192 :=
  mortonAnd headerMin (mortonNegate (maskCreate .m192 lodSpan))

def nodeOrigin (headerMin : Code .m192) (lodSpan : Nat) : Position := decode192 lib (cellMin headerMin lodSpan)

def decodeOne {f : Format} (code : Code f) (least : Code .m192) : Position := decode192 lib (upcast code least)

def gridOf : {f : Format} → Code f → Code .m192 → Position
  | .m32, code, least => decodeOne lib code least
  | .m64, code, least => decodeOne lib code least
  | .m128, code, least => decodeOne lib code least
  | .m192, code, _ => decode192 lib code

-- `int32_t(int64_t(grid[c]) - int64_t(origin_grid[c]))`
def i32Grid (unit : PointUnit) (code : Code (typeFromLod unit.lodSpan)) (c : Fin 3) : BitVec 32 :=
  (gridOf lib code (cellMin unit.mortonMin unit.lodSpan) c -
    nodeOrigin lib unit.mortonMin unit.lodSpan c).setWidth 32

def decodePositions (unit : PointUnit) : List (Fin 3 → BitVec 32) := unit.codes.map (i32Grid lib unit)

/-! ## convert_points_to_vertex_data_morton -/

def localMask (f : Format) (lodSpan : Nat) : Code f :=
  mortonNegate (downcast (mortonNegate (maskCreate .m192 lodSpan)))

def outputOffset (unit : PointUnit) : Position := decode192 lib (cellMin unit.mortonMin unit.lodSpan)

def vertexPositions (unit : PointUnit) : List Position :=
  unit.codes.map fun code => decode lib (mortonAnd code (localMask _ unit.lodSpan))

end

/-! ## Bits -/

variable {f : Format}

theorem cellMinBit (headerMin : Code .m192) (lodSpan i : Nat) :
    (cellMin headerMin lodSpan).bit i = (headerMin.bit i && decide (maskEnd lodSpan ≤ i)) := by
  by_cases inside : i < Format.total .m192
  · rw [cellMin, andBit, negateBit _ inside, maskCreateEnd (.inl (by decide)) inside]
    by_cases low : i < maskEnd lodSpan
    · simp [low, Nat.not_le.mpr low]
    · simp [low, Nat.le_of_not_lt low]
  · rw [bitBeyond (Nat.le_of_not_lt inside), bitBeyond (Nat.le_of_not_lt inside), Bool.false_and]

theorem localMaskBit (lodSpan : Nat) {i : Nat} (inside : i < f.capacity) :
    (localMask f lodSpan).bit i = decide (i < maskEnd lodSpan) := by
  have total : f.capacity ≤ f.total := capacityLe f
  have widest : f.total ≤ Format.total .m192 := by cases f <;> decide
  rw [localMask, negateBit _ (by omega), downcastBit _ (by omega), negateBit _ (by omega),
    maskCreateEnd (.inl (by decide)) (by omega), decide_eq_true inside, Bool.true_and, Bool.not_not]

/-! ## The narrowed difference -/

theorem narrowedDifference (origin grid : BitVec 64) : ∃ turns : Int,
    ((grid - origin).setWidth 32).toInt = grid.toNat - origin.toNat + turns * 4294967296 ∧
      -2147483648 ≤ ((grid - origin).setWidth 32).toInt ∧ ((grid - origin).setWidth 32).toInt < 2147483648 := by
  have low := BitVec.le_toInt ((grid - origin).setWidth 32)
  have high := BitVec.toInt_lt (x := (grid - origin).setWidth 32)
  have same : ((grid - origin).setWidth 32).toInt % 4294967296 = ((grid - origin).toNat : Int) % 4294967296 := by
    rw [BitVec.toInt_setWidth]
    exact Int.bmod_emod
  have first := origin.isLt
  have second := grid.isLt
  rw [BitVec.toNat_sub] at same
  generalize ((grid - origin).setWidth 32).toInt = out at *
  refine ⟨(out - (grid.toNat - origin.toNat)) / 4294967296, ?_, ?_, ?_⟩ <;> omega

/-! ## Stored units -/

structure Holds (lib : Libmorton) (unit : PointUnit) (least : Position) (positions : List Position) : Prop where
  min : unit.mortonMin = encode192 lib least
  data : unit.codes = positions.map fun pos => downcast (encode192 lib pos)
  cell : ∀ pos ∈ positions, value (encode192 lib pos) / 8 ^ (unit.lodSpan + 1) =
    value unit.mortonMin / 8 ^ (unit.lodSpan + 1)

-- The sorter and the collapse merge: the level is that of the first and the last code.
def sortedUnit (lib : Libmorton) (first last : Position) (positions : List Position) : PointUnit :=
  ⟨mortonLod (value (encode192 lib first)) (value (encode192 lib last)), encode192 lib first,
    positions.map fun pos => downcast (encode192 lib pos)⟩

-- The LOD writer: the level is the node's.
def lodUnit (lib : Libmorton) (lod : Nat) (first : Position) (positions : List Position) : PointUnit :=
  ⟨lod, encode192 lib first, positions.map fun pos => downcast (encode192 lib pos)⟩

variable {lib : Libmorton}

theorem sortedHolds {first last : Position} {positions : List Position}
    (between : ∀ pos ∈ positions, value (encode192 lib first) ≤ value (encode192 lib pos) ∧
      value (encode192 lib pos) ≤ value (encode192 lib last)) :
    Holds lib (sortedUnit lib first last positions) first positions :=
  ⟨rfl, rfl, fun pos mem => MortonTree.lodBetween (Nat.lt_succ_self _) (between pos mem).1 (between pos mem).2⟩

theorem lodHolds {lod nodeMin : Nat} {first : Position} {positions : List Position} (aligned : Aligned (lod + 1) nodeMin)
    (inside : ∀ pos ∈ first :: positions, Has (lod + 1) nodeMin (value (encode192 lib pos))) :
    Holds lib (lodUnit lib lod first positions) first positions :=
  ⟨rfl, rfl, fun pos mem => ((hasDiv aligned).mp (inside pos (List.mem_cons_of_mem _ mem))).trans
    ((hasDiv aligned).mp (inside first List.mem_cons_self)).symm⟩

/-! ## What each decoder gives for one point -/

theorem wideCode (works : lib.Interleaves) (pos : Position) (k : Fin 3) {q : Nat} (inside : q < 64) :
    (encode192 lib pos).bit (3 * q + k.val) = (pos k).getLsbD q :=
  (encodeInterleaved works .m192 pos).2 k q inside

theorem levelType (lodSpan : Nat) : (lodSpan ≤ 9 ∧ typeFromLod lodSpan = .m32) ∨
    (10 ≤ lodSpan ∧ lodSpan ≤ 20 ∧ typeFromLod lodSpan = .m64) ∨
    (21 ≤ lodSpan ∧ lodSpan ≤ 41 ∧ typeFromLod lodSpan = .m128) ∨ (42 ≤ lodSpan ∧ typeFromLod lodSpan = .m192) := by
  unfold typeFromLod
  dsimp only
  by_cases first : lodSpan * 3 + 3 < 32
  · exact .inl ⟨by omega, if_pos first⟩
  · by_cases second : lodSpan * 3 + 3 < 64
    · exact .inr (.inl ⟨by omega, by omega, by rw [if_neg first, if_pos second]⟩)
    · by_cases third : lodSpan * 3 + 3 < 128
      · exact .inr (.inr (.inl ⟨by omega, by omega, by rw [if_neg first, if_neg second, if_pos third]⟩))
      · exact .inr (.inr (.inr ⟨by omega, by rw [if_neg first, if_neg second, if_neg third]⟩))

theorem levelFits {lodSpan : Nat} (narrow : typeFromLod lodSpan ≠ .m192) :
    maskEnd lodSpan = 3 * (lodSpan + 1) ∧ 3 * (lodSpan + 1) ≤ (typeFromLod lodSpan).capacity := by
  have ends : lodSpan ≤ 41 → maskEnd lodSpan = 3 * (lodSpan + 1) := by
    intro low
    rw [maskEnd, if_pos (by omega)]
    omega
  rcases levelType lodSpan with ⟨low, type⟩ | ⟨_, low, type⟩ | ⟨_, low, type⟩ | ⟨_, type⟩
  · rw [type]
    exact ⟨ends (by omega), by show _ ≤ 30; omega⟩
  · rw [type]
    exact ⟨ends (by omega), by show _ ≤ 63; omega⟩
  · rw [type]
    exact ⟨ends (by omega), by show _ ≤ 126; omega⟩
  · exact absurd type narrow

theorem cellBit {lodSpan : Nat} {c m : Code .m192} (same : value c / 8 ^ (lodSpan + 1) = value m / 8 ^ (lodSpan + 1))
    {i : Nat} (high : 3 * (lodSpan + 1) ≤ i) : c.bit i = m.bit i := by
  have bit := congrArg (fun n => n.testBit (i - 3 * (lodSpan + 1))) same
  rw [eightPower, ← Nat.shiftRight_eq_div_pow, ← Nat.shiftRight_eq_div_pow, Nat.testBit_shiftRight,
    Nat.testBit_shiftRight, Nat.add_sub_cancel' high, valueBit, valueBit] at bit
  exact bit

-- The access decoder's codes are the absolute ones again.
theorem gridExact (lodSpan : Nat) {c m : Code .m192}
    (same : value c / 8 ^ (lodSpan + 1) = value m / 8 ^ (lodSpan + 1)) :
    gridOf lib (downcast c : Code (typeFromLod lodSpan)) (cellMin m lodSpan) = decode192 lib c := by
  have back : typeFromLod lodSpan ≠ .m192 →
      (upcast (downcast c : Code (typeFromLod lodSpan)) (cellMin m lodSpan) : Code .m192) = c := by
    intro narrow
    obtain ⟨ends, fits⟩ := levelFits narrow
    refine (roundTrip (by cases typeFromLod lodSpan <;> decide) ?_).mpr fun single => absurd single (by decide)
    intro i high _
    rw [cellMinBit, ends, decide_eq_true (fits.trans high), Bool.and_true]
    exact cellBit same (fits.trans high)
  generalize typeFromLod lodSpan = f at back
  cases f with
  | m32 => exact congrArg (decode192 lib) (back (by decide))
  | m64 => exact congrArg (decode192 lib) (back (by decide))
  | m128 => exact congrArg (decode192 lib) (back (by decide))
  | m192 =>
    refine congrArg (decode192 lib) (valueInj ?_)
    rw [downcastValue]
    exact Nat.mod_eq_of_lt ((valueLt c).trans_eq (by decide))

-- How many low bits of a coordinate are local to the node.
def localBits (lodSpan : Nat) (k : Fin 3) : Nat := (maskEnd lodSpan + 2 - k.val) / 3

theorem localBit (lodSpan : Nat) (k : Fin 3) (q : Nat) : localBits lodSpan k ≤ q ↔ maskEnd lodSpan ≤ 3 * q + k.val := by
  have small := k.isLt
  unfold localBits
  omega

theorem localBitsLow {lodSpan : Nat} (low : lodSpan ≤ 62) (k : Fin 3) : localBits lodSpan k = lodSpan + 1 := by
  have small := k.isLt
  rw [localBits, maskEnd, if_pos (by omega)]
  omega

theorem wideBack (works : lib.Interleaves) (pos : Position) : decode192 lib (encode192 lib pos) = pos :=
  @decodeEncoded lib works .m192 pos fun k => (pos k).isLt

theorem originBit (works : lib.Interleaves) (least : Position) (lodSpan : Nat) (k : Fin 3) {q : Nat} (inside : q < 64) :
    (nodeOrigin lib (encode192 lib least) lodSpan k).getLsbD q =
      ((least k).getLsbD q && decide (localBits lodSpan k ≤ q)) := by
  have first := decodeBit works (cellMin (encode192 lib least) lodSpan) k inside
  rwa [cellMinBit, wideCode works least k inside, ← decide_eq_decide.mpr (localBit lodSpan k q)] at first

theorem vertexBit (works : lib.Interleaves) (pos : Position) (lodSpan : Nat) (k : Fin 3) {q : Nat} (inside : q < 64) :
    (decode lib (mortonAnd (downcast (encode192 lib pos) : Code f) (localMask f lodSpan)) k).getLsbD q =
      ((pos k).getLsbD q && decide (q < localBits lodSpan k ∧ 3 * q + k.val < f.capacity)) := by
  have bit : ∀ i, (mortonAnd (downcast (encode192 lib pos) : Code f) (localMask f lodSpan)).bit i =
      ((encode192 lib pos).bit i && decide (i < maskEnd lodSpan ∧ i < f.capacity)) := by
    intro i
    have total : f.capacity ≤ f.total := capacityLe f
    rw [andBit]
    by_cases low : i < f.capacity
    · rw [downcastBit _ (by omega), localMaskBit lodSpan low]
      simp [low]
    · by_cases inside : i < f.total
      · rw [downcastBit _ inside]
        simp [low]
      · rw [bitBeyond (Nat.le_of_not_lt inside)]
        simp [low]
  have place := localBit lodSpan k q
  rw [decodeBit works _ k inside, bit, wideCode works pos k inside]
  congr 1
  apply decide_eq_decide.mpr
  omega

/-! ## Recovered coordinates -/

-- On every axis the point is in the cell that the mask leaves of the unit's minimum, and an `int32_t` away from its origin.
def Recoverable (lodSpan : Nat) (least pos : Position) : Prop :=
  ∀ k, (pos k).toNat / 2 ^ localBits lodSpan k = (least k).toNat / 2 ^ localBits lodSpan k ∧
    (pos k).toNat % 2 ^ localBits lodSpan k < 2 ^ 31

structure Recovered (origin offset : Position) (grid : Fin 3 → BitVec 32) (vertex : Position) (pos : Position) : Prop where
  grid : ∀ k, ((origin k).toNat : Int) + (grid k).toInt = (pos k).toNat
  vertex : ∀ k, (offset k).toNat + (vertex k).toNat = (pos k).toNat

theorem splitBits (n x : Nat) (q : Nat) : (x / 2 ^ n * 2 ^ n).testBit q = (x.testBit q && decide (n ≤ q)) := by
  rw [Nat.testBit_mul_two_pow]
  by_cases low : n ≤ q
  · rw [← Nat.shiftRight_eq_div_pow, Nat.testBit_shiftRight, Nat.add_sub_cancel' low]
    simp [low]
  · simp [low]

theorem natBits {x : BitVec 64} {n : Nat} (small : n < 2 ^ 64) (bits : ∀ q, q < 64 → x.getLsbD q = n.testBit q) :
    x.toNat = n := by
  apply Nat.eq_of_testBit_eq
  intro q
  by_cases inside : q < 64
  · exact bits q inside
  · rw [Nat.testBit_lt_two_pow (small.trans_le (Nat.pow_le_pow_right (by decide) (Nat.le_of_not_lt inside)))]
    exact BitVec.getLsbD_of_ge x q (Nat.le_of_not_lt inside)

section
variable {lodSpan : Nat} {least pos : Position}

abbrev SameCell (lib : Libmorton) (lodSpan : Nat) (least pos : Position) : Prop :=
  value (encode192 lib pos) / 8 ^ (lodSpan + 1) = value (encode192 lib least) / 8 ^ (lodSpan + 1)

theorem sameAbove (works : lib.Interleaves) (same : SameCell lib lodSpan least pos) (k : Fin 3) {q : Nat}
    (inside : q < 64) (high : lodSpan + 1 ≤ q) : (pos k).getLsbD q = (least k).getLsbD q := by
  rw [← wideCode works pos k inside, ← wideCode works least k inside]
  exact cellBit same (by omega)

theorem originParts (works : lib.Interleaves) (k : Fin 3) :
    (nodeOrigin lib (encode192 lib least) lodSpan k).toNat =
      (least k).toNat / 2 ^ localBits lodSpan k * 2 ^ localBits lodSpan k := by
  have bound := (least k).isLt
  have floor := Nat.div_mul_le_self (least k).toNat (2 ^ localBits lodSpan k)
  refine natBits (by omega) fun q inside => ?_
  rw [splitBits, originBit works least lodSpan k inside]
  rfl

theorem vertexParts (works : lib.Interleaves) (k : Fin 3) :
    (decode lib (mortonAnd (downcast (encode192 lib pos) : Code (typeFromLod lodSpan)) (localMask _ lodSpan)) k).toNat =
      (pos k).toNat % 2 ^ localBits lodSpan k := by
  have bound := (pos k).isLt
  have less := Nat.mod_le (pos k).toNat (2 ^ localBits lodSpan k)
  refine natBits (by omega) fun q inside => ?_
  rw [Nat.testBit_mod_two_pow, vertexBit works pos lodSpan k inside, Bool.and_comm]
  change _ = (_ && (pos k).getLsbD q)
  congr 1
  apply decide_eq_decide.mpr
  have place := localBit lodSpan k q
  have axis := k.isLt
  by_cases widest : typeFromLod lodSpan = .m192
  · have capacity : (typeFromLod lodSpan).capacity = 192 := by rw [widest]; rfl
    omega
  · have fits := levelFits widest
    omega

theorem recoveredGrid {origin pos : BitVec 64} :
    ((origin.toNat : Int) + ((pos - origin).setWidth 32).toInt = pos.toNat) ↔
      -(2 ^ 31) ≤ (pos.toNat : Int) - origin.toNat ∧ (pos.toNat : Int) - origin.toNat < 2 ^ 31 := by
  obtain ⟨turns, value, low, high⟩ := narrowedDifference origin pos
  generalize ((pos - origin).setWidth 32).toInt = out at *
  constructor
  · intro recovered
    omega
  · intro near
    omega

theorem pointRecovered (works : lib.Interleaves) :
    Recovered (nodeOrigin lib (encode192 lib least) lodSpan) (nodeOrigin lib (encode192 lib least) lodSpan)
      (fun k => (pos k - nodeOrigin lib (encode192 lib least) lodSpan k).setWidth 32)
      (decode lib (mortonAnd (downcast (encode192 lib pos) : Code (typeFromLod lodSpan)) (localMask _ lodSpan))) pos ↔
      Recoverable lodSpan least pos := by
  have split : ∀ k, (pos k).toNat / 2 ^ localBits lodSpan k * 2 ^ localBits lodSpan k +
      (pos k).toNat % 2 ^ localBits lodSpan k = (pos k).toNat := fun k => Nat.div_add_mod' _ _
  constructor
  · intro recovered k
    have bound := recoveredGrid.mp (recovered.grid k)
    have vertex := recovered.vertex k
    rw [vertexParts works k, originParts works k] at vertex
    rw [originParts works k] at bound
    have whole := split k
    have scaled : (pos k).toNat / 2 ^ localBits lodSpan k * 2 ^ localBits lodSpan k =
        (least k).toNat / 2 ^ localBits lodSpan k * 2 ^ localBits lodSpan k := by omega
    have same := Nat.eq_of_mul_eq_mul_right (Nat.two_pow_pos _) scaled
    refine ⟨same, ?_⟩
    rw [same] at whole
    omega
  · intro near
    constructor
    · intro k
      obtain ⟨same, bound⟩ := near k
      have whole := split k
      refine recoveredGrid.mpr ?_
      rw [originParts works k, ← same]
      omega
    · intro k
      rw [vertexParts works k, originParts works k, ← (near k).1]
      exact split k

-- Up to level 62 the mask is the cell's, and up to level 30 a cell is no wider than an `int32_t` reaches.
theorem sameRecoverable (works : lib.Interleaves) (same : SameCell lib lodSpan least pos) (low : lodSpan ≤ 62) :
    Recoverable lodSpan least pos ↔ ∀ k, (pos k).toNat % 2 ^ (lodSpan + 1) < 2 ^ 31 := by
  have cells : ∀ k, (pos k).toNat / 2 ^ (lodSpan + 1) = (least k).toNat / 2 ^ (lodSpan + 1) := by
    intro k
    apply Nat.eq_of_testBit_eq
    intro q
    rw [← Nat.shiftRight_eq_div_pow, ← Nat.shiftRight_eq_div_pow, Nat.testBit_shiftRight, Nat.testBit_shiftRight]
    by_cases inside : lodSpan + 1 + q < 64
    · exact sameAbove works same k inside (Nat.le_add_right _ _)
    · exact (BitVec.getLsbD_of_ge _ _ (by omega)).trans (BitVec.getLsbD_of_ge _ _ (by omega)).symm
  unfold Recoverable
  simp only [localBitsLow low, cells, true_and]

theorem lowRecoverable (works : lib.Interleaves) (same : SameCell lib lodSpan least pos) (low : lodSpan ≤ 30) :
    Recoverable lodSpan least pos := by
  refine (sameRecoverable works same (by omega)).mpr fun k => ?_
  exact (Nat.mod_lt _ (Nat.two_pow_pos _)).trans_le (Nat.pow_le_pow_right (by decide) (by omega))

end

/-! ## A whole unit -/

theorem unitPoint {unit : PointUnit} {least : Position} {positions : List Position} (works : lib.Interleaves)
    (holds : Holds lib unit least positions) {i : Nat} {pos : Position} (here : positions[i]? = some pos) :
    (decodePositions lib unit)[i]? =
      some (fun k => (pos k - nodeOrigin lib (encode192 lib least) unit.lodSpan k).setWidth 32) ∧
    (vertexPositions lib unit)[i]? =
      some (decode lib (mortonAnd (downcast (encode192 lib pos) : Code (typeFromLod unit.lodSpan))
        (localMask _ unit.lodSpan))) := by
  have same := holds.cell pos (List.mem_of_getElem? here)
  have min := holds.min
  have data := holds.data
  clear holds
  obtain ⟨lodSpan, mortonMin, codes⟩ := unit
  dsimp only at min data
  subst min
  subst data
  constructor
  · rw [decodePositions, List.map_map, List.getElem?_map, here]
    refine congrArg some ?_
    funext k
    change (gridOf lib (downcast (encode192 lib pos)) (cellMin (encode192 lib least) lodSpan) k - _).setWidth 32 = _
    rw [gridExact lodSpan same, wideBack works]
  · rw [vertexPositions, List.map_map, List.getElem?_map, here]
    rfl

-- Both decoders give every point its absolute coordinates, and so the same ones.
def BothExact (lib : Libmorton) (unit : PointUnit) (positions : List Position) : Prop :=
  ∀ (i : Nat) (pos : Position), positions[i]? = some pos → ∃ grid vertex, (decodePositions lib unit)[i]? = some grid ∧
    (vertexPositions lib unit)[i]? = some vertex ∧
    Recovered (nodeOrigin lib unit.mortonMin unit.lodSpan) (outputOffset lib unit) grid vertex pos

theorem exactPoint {unit : PointUnit} {least : Position} {positions : List Position} (works : lib.Interleaves)
    (holds : Holds lib unit least positions) (exactly : BothExact lib unit positions) :
    ∀ pos ∈ positions, Recoverable unit.lodSpan least pos := by
  intro pos mem
  obtain ⟨i, here⟩ := List.getElem?_of_mem mem
  obtain ⟨grid, vertex, first, second, recovered⟩ := exactly i pos here
  rw [(unitPoint works holds here).1] at first
  rw [(unitPoint works holds here).2] at second
  cases first
  cases second
  rw [outputOffset, holds.min] at recovered
  exact (pointRecovered works).mp recovered

theorem unitRecovered {unit : PointUnit} {least : Position} {positions : List Position} (works : lib.Interleaves)
    (holds : Holds lib unit least positions) :
    BothExact lib unit positions ↔ ∀ pos ∈ positions, Recoverable unit.lodSpan least pos := by
  refine ⟨exactPoint works holds, fun all i pos here => ?_⟩
  have mem := List.mem_of_getElem? here
  have recovered := (pointRecovered works).mpr (all pos mem)
  refine ⟨_, _, (unitPoint works holds here).1, (unitPoint works holds here).2, ?_⟩
  rw [outputOffset, holds.min]
  exact recovered

/-! ## Two neighbours -/

def onAxis (x : Nat) : Position := lane (BitVec.ofNat 64 x) 0 0 ∘ Fin.val

def pairUnit (x : Nat) : PointUnit := sortedUnit bitwise (onAxis x) (onAxis (x + 1)) [onAxis x, onAxis (x + 1)]

theorem pairHolds {x : Nat}
    (rising : value (encode192 bitwise (onAxis x)) ≤ value (encode192 bitwise (onAxis (x + 1)))) :
    Holds bitwise (pairUnit x) (onAxis x) [onAxis x, onAxis (x + 1)] := by
  refine sortedHolds fun pos mem => ?_
  rcases List.mem_pair.mp mem with rfl | rfl
  · exact ⟨Nat.le_refl _, rising⟩
  · exact ⟨rising, Nat.le_refl _⟩

-- The neighbours of 2^21, whose codes part in the last bit of the first word.
theorem nearPairRecovered : bitwise.Interleaves ∧
    Holds bitwise (pairUnit (2 ^ 21 - 1)) (onAxis (2 ^ 21 - 1)) [onAxis (2 ^ 21 - 1), onAxis (2 ^ 21)] ∧
    BothExact bitwise (pairUnit (2 ^ 21 - 1)) [onAxis (2 ^ 21 - 1), onAxis (2 ^ 21)] := by
  have holds : Holds bitwise (pairUnit (2 ^ 21 - 1)) (onAxis (2 ^ 21 - 1)) [onAxis (2 ^ 21 - 1), onAxis (2 ^ 21)] :=
    pairHolds (by decide +kernel)
  have level : (pairUnit (2 ^ 21 - 1)).lodSpan = 21 := by decide +kernel
  refine ⟨bitwiseInterleaves, holds, (unitRecovered bitwiseInterleaves holds).mpr fun pos mem => ?_⟩
  have same := holds.cell pos mem
  rw [holds.min] at same
  exact lowRecoverable bitwiseInterleaves same (by rw [level]; decide)

-- The neighbours of 2^31: the larger one is 2^31 steps from the origin of their cell, and comes back negative.
theorem farPairLost : bitwise.Interleaves ∧
    Holds bitwise (pairUnit (2 ^ 31 - 1)) (onAxis (2 ^ 31 - 1)) [onAxis (2 ^ 31 - 1), onAxis (2 ^ 31)] ∧
    ¬BothExact bitwise (pairUnit (2 ^ 31 - 1)) [onAxis (2 ^ 31 - 1), onAxis (2 ^ 31)] := by
  have holds : Holds bitwise (pairUnit (2 ^ 31 - 1)) (onAxis (2 ^ 31 - 1)) [onAxis (2 ^ 31 - 1), onAxis (2 ^ 31)] :=
    pairHolds (by decide +kernel)
  have level : (pairUnit (2 ^ 31 - 1)).lodSpan = 31 := by decide +kernel
  refine ⟨bitwiseInterleaves, holds, fun exactly => ?_⟩
  have near := exactPoint bitwiseInterleaves holds exactly (onAxis (2 ^ 31)) (List.mem_pair.mpr (.inr rfl))
  rw [level] at near
  exact absurd (near 0).2 (by decide +kernel)

end Dewfall.PositionDecoders
