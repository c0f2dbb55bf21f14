import Dewfall.Core.AttributeConfigs
import Dewfall.Core.CoordinateTransform
import Dewfall.General.Buffers
import Mathlib.Algebra.Order.BigOperators.Group.List

/-! Sorting a batch of points by their codes: the working width from the header's box, the stored width from the
codes, one permutation for everything. Positions are three 32-bit integers; other types are not treated. -/
namespace Dewfall.Sorter
open General General.Codec General.Buffers Morton MortonDigits MortonInterleave MortonTree AttributeConfigs CoordinateTransform

/-! ## The batch -/

-- In the order of `dew_type_t`.
def typeSize (type : BitVec 32) : Nat := [1, 1, 2, 2, 4, 4, 4, 4, 8, 8, 8, 8, 16, 24].getD type.toNat 0

def sizeForFormat (a : Attribute) : Nat := typeSize a.type * a.components.toNat

-- `dew_components_4x4` is 5.
def copySize (a : Attribute) : Nat := typeSize a.type * if a.components = 5 then 16 else a.components.toNat

structure Header (α : Type) where
  offset : Point α
  scale : Point α
  min : Point α
  max : Point α

structure TreeConfig (α : Type) where
  scale : α
  offset : Point α

abbrev Position32 := Fin 3 → BitVec 32

structure Batch where
  positions : List Position32
  counted : positions.length < 2 ^ 32
  position : Attribute
  others : List (Attribute × Bytes)
  typed : position.type = 5 ∧ position.components = 3
  known : ∀ a ∈ others, a.1.type.toNat < 14 ∧ 0 < a.1.components.toNat ∧ a.1.components.toNat ≤ 5
  sized : ∀ a ∈ others, a.2.length = sizeForFormat a.1 * positions.length

def Batch.attributes (batch : Batch) : Attributes := batch.position :: batch.others.map Prod.fst

structure Sorted where
  type : Format
  codes : List (Code type)
  buffers : List Bytes
  originalOrder : Option Bytes
  configs : Configs
  attributesId : Nat
  mortonMin : Code .m192
  mortonMax : Code .m192
  lodSpan : Nat

structure Error where
  code : Int
  msg : String
  deriving DecidableEq, Repr

def zero {f : Format} : Code f := ⟨fun _ => 0⟩

/-! ## The points of a batch as integers of the tree -/

section
variable {α : Type} (d : Doubles α) (lib : Libmorton)

def localOffsetDiff (tree : TreeConfig α) (header : Header α) (k : Fin 3) : BitVec 64 :=
  -d.toInt64 (d.mul (header.offset k) (d.div d.one tree.scale)) + d.toInt64 (d.mul (tree.offset k) (d.div d.one tree.scale))

def scaleIsSame (tree : TreeConfig α) (header : Header α) : Bool := decide (∀ k, d.same tree.scale (header.scale k) = true)

def converted (tree : TreeConfig α) (header : Header α) (point : Position32) : MortonInterleave.Position := fun k =>
  if scaleIsSame d tree header then (point k).signExtend 64 - localOffsetDiff d tree header k
  else d.toInt64 (d.mul (d.sub (d.add (d.mul (d.ofInt32 (point k)) (header.scale k)) (header.offset k)) (tree.offset k))
    (d.div d.one tree.scale))

/-! ## The working width -/

def unbounded (header : Header α) : Prop := ∀ k, d.same (header.min k) d.lowest = true ∧ d.same (header.max k) d.max = true

def outside (tree : TreeConfig α) (header : Header α) : Prop :=
  ∃ k, d.less (header.min k) (convertMortonToPos d lib tree.scale tree.offset (zero : Code .m192) k) = true ∨
    d.less (convertMortonToPos d lib tree.scale tree.offset (mortonNegate (zero : Code .m192)) k) (header.max k) = true

instance (header : Header α) : Decidable (unbounded d header) := by unfold unbounded; infer_instance
instance (tree : TreeConfig α) (header : Header α) : Decidable (outside d lib tree header) := by unfold outside; infer_instance

def corner (tree : TreeConfig α) (pos : Point α) : Code .m192 := convertPosToMorton d lib .m192 tree.scale tree.offset pos

def targetFormat (tree : TreeConfig α) (header : Header α) : Except Error Format :=
  if unbounded d header then .ok .m192
  else if outside d lib tree header then .error ⟨-1, "Data for is outside the dataset range."⟩
  else .ok (typeFromLod (codeLod (corner d lib tree header.min) (corner d lib tree header.max)))

/-! ## Sorting -/

-- Any sort of the indices by the codes they stand for.
def Sorts (sort : (Nat → Nat → Bool) → List Nat → List Nat) : Prop :=
  ∀ (less : Nat → Nat → Bool) (key : Nat → Nat) (l : List Nat), (∀ a b, less a b = true ↔ key a < key b) →
    (sort less l).Perm l ∧ (sort less l).Pairwise fun a b => key a ≤ key b

variable (sort : (Nat → Nat → Bool) → List Nat → List Nat)

def order {f : Format} (codes : List (Code f)) : List Nat :=
  sort (fun a b => less (codes.getD a zero) (codes.getD b zero)) (List.range codes.length)

-- The first or the last code; an empty batch has none.
def endOf {f : Format} (codes : List (Code f)) (i : Option Nat) : Code f := (i.map fun i => codes.getD i zero).getD zero

-- The last branch is the assert that the type stayed.
def stored {f : Format} (type : Format) (order : List Nat) (codes : List (Code f)) : Option (List (Code type)) :=
  if type.total < f.total then some (order.map fun i => Morton.downcast (codes.getD i zero))
  else if same : f = type then some (order.map fun i => same ▸ codes.getD i zero)
  else none

-- Reads at the source's elements and writes at the block's next ones: nothing for what lies outside of either.
def reorderInto (order : List Nat) : Nat → List (Attribute × Bytes) → Option (List Bytes)
  | _, [] => some []
  | room, (a, source) :: rest =>
    if copySize a * order.length ≤ source.length ∧ copySize a * order.length ≤ room then
      (reorderInto order (room - sizeForFormat a * order.length) rest).map
        (order.flatMap (block (copySize a) source) :: ·)
    else none

def indexBytes (count : Nat) : Nat := if count < 2 ^ 16 - 1 then 2 else if count < 2 ^ 32 - 1 then 4 else 8
def indexType (count : Nat) : BitVec 32 := if count < 2 ^ 16 - 1 then 2 else if count < 2 ^ 32 - 1 then 4 else 8

def totalReorderSize (batch : Batch) : Nat :=
  (batch.others.map fun a => sizeForFormat a.1 * batch.positions.length).sum

-- Nothing when the 32 bits of a size are too few and the block is written past its end.
def convertAndSortMorton (tree : TreeConfig α) (header : Header α) (batch : Batch) (configs : Configs)
    (storeOriginalOrder : Bool) (f : Format) : Option Sorted :=
  let codes : List (Code f) := batch.positions.map fun p => encode lib (converted d tree header p) f
  let order := order sort codes
  let base : Code .m192 := encode lib ((batch.positions.getLast?.map (converted d tree header)).getD fun _ => 0) .m192
  let first := endOf codes order.head?
  let last := endOf codes order.getLast?
  let lodSpan := codeLod first last
  if 2 ^ 32 ≤ f.total / 8 * batch.positions.length then none
  else match stored (typeFromLod lodSpan) order codes, reorderInto order (totalReorderSize batch % 2 ^ 32) batch.others with
    | some stored, some buffers =>
      let interned := getAttributeConfigIndex configs (sortedAttributes batch.attributes (ofFormat (typeFromLod lodSpan))
        storeOriginalOrder (indexType batch.positions.length))
      some ⟨typeFromLod lodSpan, stored, buffers,
        if storeOriginalOrder then some (order.flatMap (littleEndian (indexBytes batch.positions.length))) else none,
        interned.1, interned.2, upcast first base, upcast last base, lodSpan⟩
    | _, _ => none

def sortPoints (tree : TreeConfig α) (header : Header α) (batch : Batch) (configs : Configs)
    (storeOriginalOrder : Bool) : Except Error (Option Sorted) :=
  (targetFormat d lib tree header).map
    (convertAndSortMorton d lib sort tree header batch configs storeOriginalOrder)

end

/-! ## Codes in the working width -/

section
variable {f : Format}

theorem capacityDigits (f : Format) : 3 * digits f = f.capacity := by cases f <;> rfl

theorem encodeDowncast {lib : Libmorton} (works : lib.Interleaves) (pos : MortonInterleave.Position) (f : Format) :
    encode lib pos f = Morton.downcast (encode lib pos .m192) := by
  refine codeBits.mpr fun i inside => ?_
  have wide : i < Format.total .m192 := Nat.lt_of_lt_of_le inside (by cases f <;> decide)
  rw [encodeBit works pos f inside, downcastBit _ inside, encodeBit works pos .m192 wide]
  by_cases low : i < f.capacity
  · rw [decide_eq_true low, decide_eq_true (Nat.lt_of_lt_of_le low (by cases f <;> decide)), Bool.true_and, Bool.true_and]
  · rw [decide_eq_false low, Bool.false_and, Bool.false_and]

theorem downcastLt (c : Code .m192) : value (Morton.downcast c : Code f) < 8 ^ digits f := by
  rw [downcastValue]
  exact Nat.mod_lt _ (Nat.pow_pos (by decide))

theorem downcastTwice {narrow : Format} (c : Code .m192) (narrower : narrow.total ≤ f.total) :
    (Morton.downcast (Morton.downcast c : Code f) : Code narrow) = Morton.downcast c := by
  refine codeBits.mpr fun i inside => ?_
  have wide : i < f.total := Nat.lt_of_lt_of_le inside narrower
  have capacity : narrow.capacity ≤ f.capacity := by
    cases narrow <;> cases f <;> revert narrower <;> decide
  rw [narrowedBit _ narrower inside, downcastBit c wide, downcastBit c inside]
  by_cases low : i < narrow.capacity
  · rw [decide_eq_true low, decide_eq_true (Nat.lt_of_lt_of_le low capacity), Bool.true_and]
  · rw [decide_eq_false low, Bool.false_and, Bool.false_and]

theorem zeroDowncast : (Morton.downcast (zero : Code .m192) : Code f) = zero := by
  apply valueInj
  rw [downcastValue]
  have nothing : ∀ g : Format, value (zero : Code g) = 0 := fun g => by cases g <;> rfl
  rw [nothing, nothing]
  exact Nat.zero_mod _

theorem beyondCapacity {a : Code f} (low : value a < 8 ^ digits f) {i : Nat} (high : f.capacity ≤ i) : a.bit i = false := by
  rw [← valueBit]
  rw [eightPower, capacityDigits] at low
  exact Nat.testBit_lt_two_pow (Nat.lt_of_lt_of_le low (Nat.pow_le_pow_right (by decide) high))

theorem upcastBits (a : Code f) (m : Code .m192) (i : Nat) : (value (upcast a m : Code .m192)).testBit i =
    ((value a).testBit i || (decide (f.capacity ≤ i) && (value m).testBit i)) := by
  have narrower : f.total ≤ Format.total .m192 := by cases f <;> decide
  rw [valueBit, valueBit, valueBit]
  by_cases inside : i < Format.total .m192
  · rw [upcastBit a m narrower inside, if_neg (by decide)]
  · rw [bitBeyond (by omega), bitBeyond (by omega), bitBeyond (by omega), Bool.and_false, Bool.or_false]

-- The digits above the narrow width come from the minimum.
theorem upcastHigh {a : Code f} (low : value a < 8 ^ digits f) (m : Code .m192) :
    value (upcast a m : Code .m192) / 8 ^ digits f = value m / 8 ^ digits f := by
  apply Nat.eq_of_testBit_eq
  intro i
  rw [eightPower, capacityDigits, ← Nat.shiftRight_eq_div_pow, ← Nat.shiftRight_eq_div_pow, Nat.testBit_shiftRight,
    Nat.testBit_shiftRight, upcastBits, decide_eq_true (Nat.le_add_right _ _), Bool.true_and, valueBit,
    beyondCapacity low (Nat.le_add_right _ _), Bool.false_or]

theorem upcastXor {a b : Code f} (low : value a < 8 ^ digits f) (low' : value b < 8 ^ digits f) (m : Code .m192) :
    value (upcast a m : Code .m192) ^^^ value (upcast b m : Code .m192) = value a ^^^ value b := by
  apply Nat.eq_of_testBit_eq
  intro i
  rw [Nat.testBit_xor, Nat.testBit_xor, upcastBits, upcastBits]
  by_cases high : f.capacity ≤ i
  · rw [valueBit a, valueBit b, beyondCapacity low high, beyondCapacity low' high, Bool.false_or, Bool.xor_self]
    rfl
  · rw [decide_eq_false high, Bool.false_and, Bool.or_false, Bool.or_false]

theorem upcastLod {a b : Code f} (low : value a < 8 ^ digits f) (low' : value b < 8 ^ digits f) (m : Code .m192) :
    codeLod (upcast a m : Code .m192) (upcast b m) = codeLod a b := by
  rw [codeLodValue, codeLodValue, mortonLod, mortonLod, upcastXor low low']

-- Two codes of a width span no more than its digits, so they are stored in no wider one.
theorem lodInside {a b : Code f} (low : value a < 8 ^ digits f) (low' : value b < 8 ^ digits f) : codeLod a b < digits f := by
  rw [codeLodValue]
  refine lodLt (by cases f <;> decide) ?_
  rw [Nat.div_eq_of_lt low, Nat.div_eq_of_lt low']

theorem typeInside {lod : Nat} (inside : lod < digits f) : (typeFromLod lod).total ≤ f.total := by
  unfold typeFromLod
  dsimp only
  split
  · cases f <;> decide
  · split
    · cases f <;> simp [digits, Format.capacity, Format.total, Format.bits, Format.count] at inside ⊢
      omega
    · split
      · cases f <;> simp [digits, Format.capacity, Format.total, Format.bits, Format.count] at inside ⊢ <;> omega
      · cases f <;> simp [digits, Format.capacity, Format.total, Format.bits, Format.count] at inside ⊢ <;> omega

end

/-! ## The attributes -/

def Known (a : Attribute) : Prop := a.type.toNat < 14 ∧ 0 < a.components.toNat ∧ a.components.toNat ≤ 5

theorem typeSizePositive {type : BitVec 32} (known : type.toNat < 14) : 0 < typeSize type := by
  have all : ∀ i : Fin 14, 0 < [1, 1, 2, 2, 4, 4, 4, 4, 8, 8, 8, 8, 16, 24].getD i.val 0 := by decide
  exact all ⟨type.toNat, known⟩

-- Sixteen components are copied where five are stored.
theorem copyFits {a : Attribute} (known : Known a) (n : Nat) :
    copySize a * n ≤ sizeForFormat a * n ↔ n = 0 ∨ a.components ≠ 5 := by
  have some_ := typeSizePositive known.1
  by_cases matrix : a.components = 5
  · have five : a.components.toNat = 5 := by rw [matrix]; rfl
    rw [copySize, sizeForFormat, if_pos matrix, five]
    constructor
    · intro fits
      by_contra wide
      rw [not_or] at wide
      have less := Nat.mul_lt_mul_of_pos_right (Nat.mul_lt_mul_of_pos_left (show 5 < 16 by decide) some_)
        (Nat.pos_of_ne_zero wide.1)
      omega
    · rintro (rfl | other)
      · exact Nat.le_refl _
      · exact absurd matrix other
  · rw [copySize, sizeForFormat, if_neg matrix]
    exact ⟨fun _ => .inr matrix, fun _ => Nat.le_refl _⟩

theorem copySame {a : Attribute} (other : a.components ≠ 5) : copySize a = sizeForFormat a := by
  rw [copySize, if_neg other, sizeForFormat]

def reordered (order : List Nat) (a : Attribute × Bytes) : Bytes := order.flatMap (block (sizeForFormat a.1) a.2)

theorem reorderIff {order : List Nat} {others : List (Attribute × Bytes)} (known : ∀ a ∈ others, Known a.1)
    (sized : ∀ a ∈ others, a.2.length = sizeForFormat a.1 * order.length) (room : Nat) (buffers : List Bytes) :
    reorderInto order room others = some buffers ↔ (∀ a ∈ others, order.length = 0 ∨ a.1.components ≠ 5) ∧
      (others.map fun a => sizeForFormat a.1 * order.length).sum ≤ room ∧ buffers = others.map (reordered order) := by
  induction others generalizing room buffers with
  | nil =>
    constructor
    · intro h
      cases h
      exact ⟨fun _ mem => (nomatch mem), Nat.zero_le _, rfl⟩
    · rintro ⟨_, _, rfl⟩
      rfl
  | cons first rest ih =>
    obtain ⟨a, source⟩ := first
    obtain ⟨knownHere, knownRest⟩ := List.forall_mem_cons.mp known
    obtain ⟨here, later⟩ := List.forall_mem_cons.mp sized
    have fits := copyFits knownHere order.length
    rw [List.forall_mem_cons, List.map_cons, List.sum_cons, List.map_cons]
    dsimp only at here fits ⊢
    unfold reorderInto
    rw [here]
    by_cases plain : order.length = 0 ∨ a.components ≠ 5
    · have same : copySize a * order.length = sizeForFormat a * order.length := by
        rcases plain with none_ | other
        · rw [none_, Nat.mul_zero, Nat.mul_zero]
        · rw [copySame other]
      have bytes : order.flatMap (block (copySize a) source) = reordered order (a, source) := by
        rcases plain with none_ | other
        · rw [List.eq_nil_of_length_eq_zero none_]
          rfl
        · rw [copySame other]
          rfl
      rw [same, bytes]
      split
      · rename_i room_
        rw [Option.map_eq_some_iff]
        constructor
        · rintro ⟨more, run, rfl⟩
          obtain ⟨all, total, rfl⟩ := (ih knownRest later _ _).mp run
          exact ⟨⟨plain, all⟩, by omega, rfl⟩
        · rintro ⟨⟨_, all⟩, total, rfl⟩
          exact ⟨_, (ih knownRest later _ _).mpr ⟨all, by omega, rfl⟩, rfl⟩
      · rename_i full
        refine ⟨fun h => (nomatch h), ?_⟩
        rintro ⟨_, total, _⟩
        exact absurd ⟨Nat.le_refl _, by omega⟩ full
    · rw [if_neg fun both => plain (fits.mp both.1)]
      refine ⟨fun h => (nomatch h), ?_⟩
      rintro ⟨⟨here_, _⟩, _⟩
      exact absurd here_ plain

/-! ## What the sorted batch is -/

-- The codes of the points in the widest format.
def absolute {α : Type} (d : Doubles α) (lib : Libmorton) (tree : TreeConfig α) (header : Header α) (batch : Batch) :
    List (Code .m192) :=
  batch.positions.map fun p => encode lib (converted d tree header p) .m192

structure SortedRight (codes : List (Code .m192)) (batch : Batch) (storeOriginalOrder : Bool) (out : Sorted)
    (order : List Nat) : Prop where
  permuted : order.Perm (List.range batch.positions.length)
  ascending : out.codes.Pairwise fun a b => value a ≤ value b
  absoluteAscending : order.Pairwise fun i j => value (codes.getD i zero) ≤ value (codes.getD j zero)
  restored : out.codes.map (upcast · out.mortonMin) = order.map fun i => codes.getD i zero
  attributes : List.Forall₂ (fun a b => b.length = a.2.length ∧ ∀ (j i : Nat), order[j]? = some i →
    block (sizeForFormat a.1) b j = block (sizeForFormat a.1) a.2 i) batch.others out.buffers
  recorded : if storeOriginalOrder then ∃ b ∈ out.originalOrder, b.length = indexBytes order.length * order.length ∧
      ∀ (j i : Nat), order[j]? = some i → ofLittleEndian (block (indexBytes order.length) b j) = i
    else out.originalOrder = none
  interned : out.configs[out.attributesId]? = some (sortedAttributes batch.attributes (ofFormat out.type)
    storeOriginalOrder (indexType order.length))
  wide : out.lodSpan < digits out.type
  ends : ∀ first ∈ order.head?, ∀ last ∈ order.getLast?,
    out.mortonMin = codes.getD first zero ∧ out.mortonMax = codes.getD last zero
  span : out.lodSpan = codeLod out.mortonMin out.mortonMax

-- All points in one aligned cell of the working width.
def Together (f : Format) (codes : List (Code .m192)) : Prop :=
  ∀ a ∈ codes, ∀ b ∈ codes, value a / 8 ^ digits f = value b / 8 ^ digits f

structure Fits (f : Format) (batch : Batch) : Prop where
  codes : f.total / 8 * batch.positions.length < 2 ^ 32
  attributes : totalReorderSize batch < 2 ^ 32
  plain : ∀ a ∈ batch.others, batch.positions.length = 0 ∨ a.1.components ≠ 5

/-! ## Sorting the codes -/

section
variable {f : Format} {codes : List (Code .m192)} {sort : (Nat → Nat → Bool) → List Nat → List Nat}

theorem narrowAt (codes : List (Code .m192)) (i : Nat) :
    (codes.map fun c => (Morton.downcast c : Code f)).getD i zero = Morton.downcast (codes.getD i zero) := by
  rw [← zeroDowncast, List.getD_map]

theorem orderRight (sorts : Sorts sort) (codes : List (Code f)) : (order sort codes).Perm (List.range codes.length) ∧
    (order sort codes).Pairwise fun i j => value (codes.getD i zero) ≤ value (codes.getD j zero) :=
  sorts _ (fun i => value (codes.getD i zero)) _ fun _ _ => lessValue _ _

theorem togetherAt (together : Together f codes) {i j : Nat} (inside : i < codes.length) (inside' : j < codes.length) :
    value (codes.getD i zero) / 8 ^ digits f = value (codes.getD j zero) / 8 ^ digits f := by
  rw [List.getD_eq_getElem _ _ inside, List.getD_eq_getElem _ _ inside']
  exact together _ (List.getElem_mem inside) _ (List.getElem_mem inside')

-- Within one cell the narrow codes have the order of the wide ones.
theorem narrowLe {a b : Code .m192} (same : value a / 8 ^ digits f = value b / 8 ^ digits f) :
    value (Morton.downcast a : Code f) ≤ value (Morton.downcast b : Code f) ↔ value a ≤ value b := by
  rw [downcastValue, downcastValue, MortonTree.downcast, MortonTree.downcast]
  have first := Nat.div_add_mod (value a) (8 ^ digits f)
  have second := Nat.div_add_mod (value b) (8 ^ digits f)
  rw [same] at first
  omega

theorem storedRight {type : Format} (narrower : type.total ≤ f.total) (order : List Nat) (codes : List (Code .m192)) :
    stored type order (codes.map fun c => (Morton.downcast c : Code f)) =
      some (order.map fun i => Morton.downcast (codes.getD i zero)) := by
  unfold stored
  by_cases less_ : type.total < f.total
  · rw [if_pos less_]
    refine congrArg some (List.map_congr_left fun i _ => ?_)
    rw [narrowAt, downcastTwice _ narrower]
  · obtain rfl : f = type := formatTotal (Nat.le_antisymm (Nat.le_of_not_lt less_) narrower)
    rw [if_neg less_, dif_pos rfl]
    exact congrArg some (List.map_congr_left fun i _ => narrowAt codes i)

-- What lies between the first and the last code of an order.
theorem betweenEnds {key : Nat → Nat} {l : List Nat} (sorted : l.Pairwise fun i j => key i ≤ key j) {first last i : Nat}
    (head : first ∈ l.head?) (tail_ : last ∈ l.getLast?) (mem : i ∈ l) : key first ≤ key i ∧ key i ≤ key last := by
  obtain ⟨rest, rfl⟩ := List.head?_eq_some_iff.mp head
  constructor
  · rcases List.mem_cons.mp mem with rfl | later
    · exact Nat.le_refl _
    · exact (List.pairwise_cons.mp sorted).1 i later
  · obtain ⟨before, whole⟩ := List.getLast?_eq_some_iff.mp tail_
    rw [whole] at sorted mem
    rcases List.mem_append.mp mem with early | own
    · exact (List.pairwise_append.mp sorted).2.2 i early last (List.mem_singleton.mpr rfl)
    · rw [List.mem_singleton.mp own]

end

/-! ## The run as a whole -/

def endCode (f : Format) (codes : List (Code .m192)) (i : Option Nat) : Code f :=
  (i.map fun i => Morton.downcast (codes.getD i zero)).getD zero

def produced (codes : List (Code .m192)) (base : Code .m192) (batch : Batch) (configs : Configs) (storeOriginalOrder : Bool)
    (f : Format) (order : List Nat) : Sorted :=
  let first := endCode f codes order.head?
  let last := endCode f codes order.getLast?
  let interned := getAttributeConfigIndex configs (sortedAttributes batch.attributes (ofFormat (typeFromLod (codeLod first last)))
    storeOriginalOrder (indexType batch.positions.length))
  ⟨typeFromLod (codeLod first last), order.map fun i => Morton.downcast (codes.getD i zero), batch.others.map (reordered order),
    if storeOriginalOrder then some (order.flatMap (littleEndian (indexBytes batch.positions.length))) else none,
    interned.1, interned.2, upcast first base, upcast last base, codeLod first last⟩

theorem endLow (f : Format) (codes : List (Code .m192)) (i : Option Nat) : value (endCode f codes i) < 8 ^ digits f := by
  cases i with
  | some i => exact downcastLt _
  | none =>
    change value (zero : Code f) < _
    rw [← zeroDowncast]
    exact downcastLt zero

theorem endNarrow (f : Format) (codes : List (Code .m192)) (i : Option Nat) :
    endOf (codes.map fun c => (Morton.downcast c : Code f)) i = endCode f codes i := by
  unfold endOf endCode
  simp only [narrowAt]

theorem spanInside (f : Format) (codes : List (Code .m192)) (order : List Nat) :
    codeLod (endCode f codes order.head?) (endCode f codes order.getLast?) < digits f :=
  lodInside (endLow ..) (endLow ..)

def lastPosition {α : Type} (d : Doubles α) (tree : TreeConfig α) (header : Header α)
    (batch : Batch) : MortonInterleave.Position :=
  (batch.positions.getLast?.map (converted d tree header)).getD fun _ => 0

section
variable {α : Type} {d : Doubles α} {lib : Libmorton} {sort : (Nat → Nat → Bool) → List Nat → List Nat}
  {tree : TreeConfig α} {header : Header α} {batch : Batch} {configs : Configs} {storeOriginalOrder : Bool} {f : Format}

theorem ranWhen (works : lib.Interleaves) (sorts : Sorts sort) {out : Sorted} :
    convertAndSortMorton d lib sort tree header batch configs storeOriginalOrder f = some out ↔
      Fits f batch ∧ out = produced (absolute d lib tree header batch) (encode lib (lastPosition d tree header batch) .m192)
        batch configs storeOriginalOrder f
        (order sort ((absolute d lib tree header batch).map fun c => (Morton.downcast c : Code f))) := by
  have narrow : (batch.positions.map fun p => encode lib (converted d tree header p) f) =
      (absolute d lib tree header batch).map fun c => Morton.downcast c := by
    rw [absolute, List.map_map]
    exact List.map_congr_left fun p _ => encodeDowncast works _ f
  have count : (order sort ((absolute d lib tree header batch).map fun c => (Morton.downcast c : Code f))).length =
      batch.positions.length := by
    rw [(orderRight sorts _).1.length_eq, List.length_range, List.length_map, absolute, List.length_map]
  unfold convertAndSortMorton
  dsimp only
  rw [narrow, endNarrow, endNarrow]
  generalize absolute d lib tree header batch = codes at count ⊢
  generalize order sort (codes.map fun c => (Morton.downcast c : Code f)) = order at count ⊢
  rw [storedRight (typeInside (spanInside f codes order))]
  have room := @reorderIff order batch.others batch.known (count ▸ batch.sized) (totalReorderSize batch % 2 ^ 32)
  rw [count] at room
  have total : totalReorderSize batch ≤ totalReorderSize batch % 2 ^ 32 ↔ totalReorderSize batch < 2 ^ 32 := by omega
  constructor
  · intro ran
    split at ran
    · cases ran
    · rename_i small
      split at ran
      · rename_i found buffers same reordered_
        cases same
        cases ran
        obtain ⟨plain, within, rfl⟩ := (room buffers).mp reordered_
        exact ⟨⟨Nat.lt_of_not_le small, total.mp within, plain⟩, rfl⟩
      · cases ran
  · rintro ⟨fits, rfl⟩
    rw [if_neg (Nat.not_le.mpr fits.codes), (room _).mpr ⟨fits.plain, total.mpr fits.attributes, rfl⟩]
    rfl

end

theorem indexSmall {count i : Nat} (counted : count < 2 ^ 32) (inside : i < count) : i < 256 ^ indexBytes count := by
  unfold indexBytes
  split
  · omega
  · split <;> omega

section
variable {codes : List (Code .m192)} {base : Code .m192} {batch : Batch} {configs : Configs} {storeOriginalOrder : Bool}
  {f : Format} {order : List Nat}

theorem producedBuffers (counted : codes.length = batch.positions.length) (permuted : order.Perm (List.range codes.length)) :
    List.Forall₂ (fun a b => b.length = a.2.length ∧ ∀ (j i : Nat), order[j]? = some i →
      block (sizeForFormat a.1) b j = block (sizeForFormat a.1) a.2 i)
      batch.others (produced codes base batch configs storeOriginalOrder f order).buffers := by
  refine List.forall₂_map_right_iff.mpr (List.forall₂_same.mpr fun a mem => ?_)
  have size := batch.sized a mem
  have whole : ∀ i ∈ order, (block (sizeForFormat a.1) a.2 i).length = sizeForFormat a.1 := fun i there => by
    have inside := List.mem_range.mp (permuted.mem_iff.mp there)
    refine blockLength ?_
    rw [size, Nat.mul_comm, ← counted]
    exact Nat.mul_le_mul_left _ inside
  obtain ⟨length, blocks⟩ := blockJoined whole
  refine ⟨?_, blocks⟩
  rw [reordered, length, permuted.length_eq, List.length_range, size, counted]

theorem producedRecorded (counted : codes.length = batch.positions.length) (permuted : order.Perm (List.range codes.length)) :
    if storeOriginalOrder then ∃ b ∈ (produced codes base batch configs storeOriginalOrder f order).originalOrder,
        b.length = indexBytes order.length * order.length ∧
          ∀ (j i : Nat), order[j]? = some i → ofLittleEndian (block (indexBytes order.length) b j) = i
      else (produced codes base batch configs storeOriginalOrder f order).originalOrder = none := by
  have count : order.length = batch.positions.length := by rw [permuted.length_eq, List.length_range, counted]
  rw [count]
  unfold produced
  dsimp only
  split
  · obtain ⟨length, blocks⟩ := @blockJoined _ (indexBytes batch.positions.length) _
      (littleEndian (indexBytes batch.positions.length)) order fun _ _ => littleEndianLength ..
    refine ⟨_, rfl, length.trans (by rw [count]), fun j i found => ?_⟩
    have inside : i < batch.positions.length := by
      rw [← counted]
      exact List.mem_range.mp (permuted.mem_iff.mp (List.mem_of_getElem? found))
    rw [blocks j i found, ofLittleEndianBack]
    exact Nat.mod_eq_of_lt (indexSmall batch.counted inside)
  · rfl

-- The points of one cell.
theorem producedRight (counted : codes.length = batch.positions.length) (permuted : order.Perm (List.range codes.length))
    (sorted : order.Pairwise fun i j => value (Morton.downcast (codes.getD i zero) : Code f) ≤
      value (Morton.downcast (codes.getD j zero) : Code f))
    (together : Together f codes) (based : codes ≠ [] → base ∈ codes) :
    SortedRight codes batch storeOriginalOrder (produced codes base batch configs storeOriginalOrder f order) order := by
  have inside : ∀ i ∈ order, i < codes.length := fun i mem => List.mem_range.mp (permuted.mem_iff.mp mem)
  have ascending : order.Pairwise fun i j => value (codes.getD i zero) ≤ value (codes.getD j zero) :=
    sorted.imp_of_mem fun {i j} here there le => (narrowLe (togetherAt together (inside i here) (inside j there))).mp le
  have atBase : ∀ i ∈ order, value (codes.getD i zero) / 8 ^ digits f = value base / 8 ^ digits f := fun i mem => by
    rw [List.getD_eq_getElem _ _ (inside i mem)]
    exact together _ (List.getElem_mem _) _ (based (List.ne_nil_of_length_pos (Nat.zero_lt_of_lt (inside i mem))))
  have back : ∀ {end_ : Option Nat} {i : Nat}, i ∈ end_ → i ∈ order →
      upcast (endCode f codes end_) base = codes.getD i zero := fun {end_ i} found mem => by
    rw [Option.mem_def.mp found]
    exact upcastBack (atBase i mem)
  have span : codeLod (endCode f codes order.head?) (endCode f codes order.getLast?) =
      codeLod (upcast (endCode f codes order.head?) base : Code .m192) (upcast (endCode f codes order.getLast?) base) :=
    (upcastLod (endLow ..) (endLow ..) base).symm
  have wide := typeWide (Nat.lt_of_lt_of_le (spanInside f codes order) (show digits f ≤ 64 by cases f <;> decide))
  -- Between the first and the last code the stored width has all the digits that differ.
  have ofMin : ∀ i ∈ order, value (codes.getD i zero) /
      8 ^ digits (typeFromLod (codeLod (endCode f codes order.head?) (endCode f codes order.getLast?))) =
      value (upcast (endCode f codes order.head?) base : Code .m192) /
        8 ^ digits (typeFromLod (codeLod (endCode f codes order.head?) (endCode f codes order.getLast?))) := fun i mem => by
    obtain ⟨first, head⟩ := Option.isSome_iff_exists.mp (List.isSome_head?.mpr (List.ne_nil_of_mem mem))
    obtain ⟨last, tail_⟩ := Option.isSome_iff_exists.mp (List.getLast?_isSome.mpr (List.ne_nil_of_mem mem))
    obtain ⟨low, high⟩ := betweenEnds ascending head tail_ mem
    rw [back head (List.mem_of_mem_head? head)]
    refine lodBetween ?_ low high
    rw [← codeLodValue, ← back head (List.mem_of_mem_head? head), ← back tail_ (List.mem_of_mem_getLast? tail_), ← span]
    exact wide
  have count : order.length = batch.positions.length := by rw [permuted.length_eq, List.length_range, counted]
  refine ⟨counted ▸ permuted, ?_, ascending, ?_, producedBuffers counted permuted, producedRecorded counted permuted, ?_,
    wide, ?_, span⟩
  · refine List.pairwise_map.mpr (ascending.imp_of_mem fun {i j} here there le => ?_)
    exact (narrowLe ((ofMin i here).trans (ofMin j there).symm)).mpr le
  · rw [produced, List.map_map]
    exact List.map_congr_left fun i mem => upcastBack (ofMin i mem)
  · rw [count]
    exact internAt ..
  · exact fun first head last tail_ => ⟨back head (List.mem_of_mem_head? head), back tail_ (List.mem_of_mem_getLast? tail_)⟩

-- A code from another cell is no sum of the stored digits and the header's minimum.
theorem producedTogether {order' : List Nat} (counted : codes.length = batch.positions.length)
    (right : SortedRight codes batch storeOriginalOrder (produced codes base batch configs storeOriginalOrder f order) order') :
    Together f codes := by
  have cell : ∀ a ∈ codes, value a / 8 ^ digits f =
      value (produced codes base batch configs storeOriginalOrder f order).mortonMin / 8 ^ digits f := fun a mem => by
    obtain ⟨i, inside, rfl⟩ := List.getElem_of_mem mem
    have turn : i ∈ order' := right.permuted.mem_iff.mpr (List.mem_range.mpr (counted ▸ inside))
    have there : codes[i] ∈ order'.map fun i => codes.getD i zero :=
      List.mem_map.mpr ⟨i, turn, List.getD_eq_getElem _ _ inside⟩
    rw [← right.restored] at there
    obtain ⟨stored, from_, same⟩ := List.mem_map.mp there
    have low : value stored < 8 ^ digits (produced codes base batch configs storeOriginalOrder f order).type := by
      obtain ⟨k, _, rfl⟩ := List.mem_map.mp from_
      exact downcastLt _
    have narrow := upcastHigh low (produced codes base batch configs storeOriginalOrder f order).mortonMin
    rw [show upcast stored (produced codes base batch configs storeOriginalOrder f order).mortonMin = codes[i] from same]
      at narrow
    have narrower : digits (produced codes base batch configs storeOriginalOrder f order).type ≤ digits f := by
      have le := typeInside (spanInside f codes order)
      change digits (typeFromLod _) ≤ digits f
      generalize typeFromLod _ = g at le ⊢
      cases g <;> cases f <;> revert le <;> decide
    obtain ⟨more, split⟩ := Nat.exists_eq_add_of_le narrower
    rw [split, Nat.pow_add, ← Nat.div_div_eq_div_mul, ← Nat.div_div_eq_div_mul, narrow]
  exact fun a here b there => (cell a here).trans (cell b there).symm

end

section
variable {α : Type} {d : Doubles α} {lib : Libmorton} {sort : (Nat → Nat → Bool) → List Nat → List Nat}
  {tree : TreeConfig α} {header : Header α} {batch : Batch} {configs : Configs} {storeOriginalOrder : Bool}

theorem absoluteCount : (absolute d lib tree header batch).length = batch.positions.length := List.length_map _

theorem lastIsPoint (some_ : absolute d lib tree header batch ≠ []) :
    encode lib (lastPosition d tree header batch) .m192 ∈ absolute d lib tree header batch := by
  have points : batch.positions ≠ [] := fun none_ => some_ (by rw [absolute, none_]; rfl)
  rw [lastPosition, List.getLast?_eq_some_getLast points]
  exact List.mem_map.mpr ⟨_, List.getLast_mem points, rfl⟩

theorem sortPointsOf {f : Format} {out : Sorted} (target : targetFormat d lib tree header = .ok f)
    (ran : convertAndSortMorton d lib sort tree header batch configs storeOriginalOrder f = some out) :
    sortPoints d lib sort tree header batch configs storeOriginalOrder = .ok (some out) := by
  unfold sortPoints
  rw [target]
  exact congrArg Except.ok ran

theorem sortedTogether (works : lib.Interleaves) (sorts : Sorts sort) {out : Sorted} {order : List Nat}
    (ran : sortPoints d lib sort tree header batch configs storeOriginalOrder = .ok (some out))
    (right : SortedRight (absolute d lib tree header batch) batch storeOriginalOrder out order) :
    ∃ f, targetFormat d lib tree header = .ok f ∧ Fits f batch ∧ Together f (absolute d lib tree header batch) := by
  unfold sortPoints at ran
  cases target : targetFormat d lib tree header with
  | error e =>
    rw [target] at ran
    cases ran
  | ok f =>
    rw [target] at ran
    obtain ⟨fits, rfl⟩ := (ranWhen works sorts).mp (Except.ok.inj ran)
    exact ⟨f, rfl, fits, producedTogether absoluteCount right⟩

-- A box whose corners' codes enclose the points' codes keeps them together.
theorem boxTogether {f : Format} (target : targetFormat d lib tree header = .ok f) {codes : List (Code .m192)}
    (enclosed : ∀ c ∈ codes, value (corner d lib tree header.min) ≤ value c ∧ value c ≤ value (corner d lib tree header.max)) :
    Together f codes := by
  intro a here b there
  unfold targetFormat at target
  split at target
  · cases target
    have high : ∀ c : Code .m192, value c / 8 ^ digits .m192 = 0 := fun c =>
      Nat.div_eq_of_lt ((valueLt c).trans_eq (by decide))
    rw [high, high]
  · split at target
    · cases target
    · cases target
      have near := lodInside (f := .m192) (a := corner d lib tree header.min) (b := corner d lib tree header.max)
        ((valueLt _).trans_eq (by decide)) ((valueLt _).trans_eq (by decide))
      have wide := typeWide (show codeLod (corner d lib tree header.min) (corner d lib tree header.max) < 64 from near)
      rw [codeLodValue] at wide ⊢
      rw [lodBetween wide (enclosed a here).1 (enclosed a here).2, lodBetween wide (enclosed b there).1 (enclosed b there).2]

theorem pointsSorted (works : lib.Interleaves) (sorts : Sorts sort) :
    (∃ out order, sortPoints d lib sort tree header batch configs storeOriginalOrder = .ok (some out) ∧
      SortedRight (absolute d lib tree header batch) batch storeOriginalOrder out order) ↔
      ∃ f, targetFormat d lib tree header = .ok f ∧ Fits f batch ∧ Together f (absolute d lib tree header batch) := by
  constructor
  · rintro ⟨out, order, ran, right⟩
    exact sortedTogether works sorts ran right
  · rintro ⟨f, target, fits, together⟩
    obtain ⟨permuted, sorted⟩ := orderRight sorts ((absolute d lib tree header batch).map fun c => (Morton.downcast c : Code f))
    rw [List.length_map] at permuted
    simp only [narrowAt] at sorted
    have ran := (@ranWhen _ d lib sort tree header batch configs storeOriginalOrder f works sorts _).mpr ⟨fits, rfl⟩
    exact ⟨_, _, sortPointsOf target ran, producedRight absoluteCount permuted sorted together lastIsPoint⟩

end

/-! ## A point at half a cell -/

def sortIndices (less : Nat → Nat → Bool) (l : List Nat) : List Nat := l.insertionSort fun a b => less b a = false

theorem sortIndicesSorts : Sorts sortIndices := by
  intro less key l keyed
  have le : ∀ a b, less b a = false ↔ key a ≤ key b := fun a b => by
    rw [← Bool.not_eq_true, keyed, Nat.not_lt]
  have total : Std.Total fun a b => less b a = false := ⟨fun a b => by rw [le, le]; exact Nat.le_total _ _⟩
  have trans_ : IsTrans Nat fun a b => less b a = false := ⟨fun a b c => by rw [le, le, le]; exact Nat.le_trans⟩
  exact ⟨List.perm_insertionSort _ l, (List.pairwise_insertionSort _ l).imp fun {a b} => (le a b).mp⟩

-- One proof for the numerals of the three axes.
local instance axesNonzero : NeZero 3 := ⟨by decide⟩

-- Two points per cell of the tree along each axis; the header's corners are rounded and the points are cut off.
def unitTree : TreeConfig Rat := ⟨1, fun _ => 0⟩
def halfHeader (min max : Rat) : Header Rat :=
  ⟨fun _ => 0, fun _ => 1 / 2, fun k => if k = 0 then min else 0, fun k => if k = 0 then max else 0⟩
def twoPoints : Batch where
  positions := [fun k => if k = 0 then 2047 else 0, fun k => if k = 0 then 2048 else 0]
  counted := by decide
  position := ⟨xyz, 5, 3, by decide⟩
  others := []
  typed := by decide
  known := by decide
  sized := by decide

def InsideBox {α : Type} (d : Doubles α) (header : Header α) (batch : Batch) : Prop := ∀ p ∈ batch.positions, ∀ k,
  d.less (d.add (d.mul (d.ofInt32 (p k)) (header.scale k)) (header.offset k)) (header.min k) = false ∧
    d.less (header.max k) (d.add (d.mul (d.ofInt32 (p k)) (header.scale k)) (header.offset k)) = false

-- Out of order, each with an intensity of two bytes.
def threePoints : Batch where
  positions := [fun k => if k = 0 then 2048 else 0, fun k => if k = 1 then 3 else 0, fun k => if k = 0 then 2047 else 1]
  counted := by decide
  position := ⟨xyz, 5, 3, by decide⟩
  others := [(⟨intensity, 2, 1, by decide⟩, [1, 0, 2, 0, 3, 0])]
  typed := by decide
  known := by decide
  sized := by decide

theorem pointsSortedWide : ∃ out order,
    sortPoints rational bitwise sortIndices unitTree (halfHeader 0 1024) threePoints [] true = .ok (some out) ∧
      SortedRight (absolute rational bitwise unitTree (halfHeader 0 1024) threePoints) threePoints true out order := by
  refine (pointsSorted bitwiseInterleaves sortIndicesSorts).mpr ⟨.m64, by decide +kernel, ⟨by decide, by decide, by decide⟩, ?_⟩
  unfold Together
  decide +kernel

theorem halfCellUnsorted : InsideBox rational (halfHeader (2047 / 2) 1024) twoPoints ∧ ¬∃ out order,
    sortPoints rational bitwise sortIndices unitTree (halfHeader (2047 / 2) 1024) twoPoints [] true = .ok (some out) ∧
      SortedRight (absolute rational bitwise unitTree (halfHeader (2047 / 2) 1024) twoPoints) twoPoints true out order := by
  constructor
  · intro p mem
    rcases List.mem_cons.mp mem with rfl | mem
    · decide +kernel
    · rcases List.mem_singleton.mp mem with rfl
      decide +kernel
  · rintro ⟨out, order, ran, right⟩
    obtain ⟨f, target, _, together⟩ := sortedTogether bitwiseInterleaves sortIndicesSorts ran right
    have narrow : targetFormat rational bitwise unitTree (halfHeader (2047 / 2) 1024) = .ok .m32 := by decide +kernel
    cases narrow.symm.trans target
    revert together
    unfold Together
    decide +kernel

end Dewfall.Sorter
