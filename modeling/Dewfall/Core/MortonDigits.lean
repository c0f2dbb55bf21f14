import Dewfall.Core.MortonTree

/-! Digits of a morton code on its words: order, child masks, the mask of a level and the increment,
each as the number the code stands for. Signed levels are not treated. -/
namespace Dewfall.MortonDigits
open General General.Cells Morton MortonTree

variable {f : Format}

def value (c : Code f) : Nat :=
  (c.word 0).toNat + 2 ^ f.bits * ((c.word 1).toNat + 2 ^ f.bits * (c.word 2).toNat)

/-! ## Order, masks and digits in words -/

-- `operator<`
def less (a b : Code f) : Bool :=
  if 2 < f.count ∧ a.word 2 ≠ b.word 2 then decide (a.word 2 < b.word 2)
  else if 1 < f.count ∧ a.word 1 ≠ b.word 1 then decide (a.word 1 < b.word 1)
  else decide (a.word 0 < b.word 0)

def mortonOr (a b : Code f) : Code f where
  data k := a.data k ||| b.data k

def mortonXor (a b : Code f) : Code f where
  data k := a.data k ^^^ b.data k

def mortonAnd (a b : Code f) : Code f where
  data k := a.data k &&& b.data k

def mortonNegate (a : Code f) : Code f where
  data k := ~~~a.data k

def addOne (a : Code f) : Code f where
  data k :=
    if a.word 0 ≠ BitVec.allOnes f.bits then if k.val = 0 then a.data k + 1 else a.data k
    else if k.val = 0 then 0
    else if a.word 1 ≠ BitVec.allOnes f.bits then if k.val = 1 then a.data k + 1 else a.data k
    else if k.val = 1 then 0
    else a.data k + 1

def bitScanReverse {w : Nat} (a : BitVec w) : Nat := Nat.log2 a.toNat

def mortonMsb (a : Code f) : Nat :=
  if 2 < f.count ∧ a.word 2 ≠ 0 then 64 * 2 + bitScanReverse (a.word 2)
  else if 1 < f.count ∧ a.word 1 ≠ 0 then 64 * 1 + bitScanReverse (a.word 1)
  else if a.word 0 ≠ 0 then bitScanReverse (a.word 0)
  else 0

-- `morton_lod`
def codeLod (a b : Code f) : Nat := mortonMsb (mortonXor a b) / 3

-- Behind the width of a word the shift is undefined; `undefined` is what the machine makes of it.
def getChildMask (undefined : BitVec 64 → Nat → BitVec 64) (lod : Nat) (morton : Code .m192) : Nat :=
  let index := lod * 3
  let data : Nat → BitVec 64 := morton.word
  if index < 64 then
    let ret := (data 0 >>> index) &&& 7#64
    (if index = 63 then ret ||| ((data 1 &&& 3#64) <<< 1) else ret).toNat
  else if index < 64 * 2 then
    let ret := (data 1 >>> (index - 64)) &&& 7#64
    (if index - 64 = 62 then ret ||| ((data 2 &&& 1#64) <<< 2) else ret).toNat
  else
    let index := index - 64 * 2
    ((if index < 64 then data 2 >>> index else undefined (data 2) index) &&& 7#64).toNat

-- The same for every type; levels that fit it read inside its words.
def getChildMaskIn (lod : Nat) (morton : Code f) : Nat :=
  let index := lod * 3
  let low (k index : Nat) : BitVec f.bits := (morton.word k >>> index) &&& BitVec.ofNat f.bits 7
  let ret :=
    if index < f.bits then
      if index = 63 then low 0 index ||| ((morton.word 1 &&& BitVec.ofNat f.bits 3) <<< 1) else low 0 index
    else if index < 64 * 2 then
      if index - 64 = 62 then low 1 (index - 64) ||| ((morton.word 2 &&& BitVec.ofNat f.bits 1) <<< 2)
      else low 1 (index - 64)
    else low 2 (index - 64 * 2)
  ret.toNat

def putDigit {w : Nat} (index mask : Nat) (data : BitVec w) : BitVec w :=
  data &&& ~~~(BitVec.ofNat w 7 <<< index) ||| BitVec.ofNat w mask <<< index

def setChildMask (lod mask : Nat) (morton : Code f) : Code f where
  data k :=
    let index := lod * 3
    let data := morton.data k
    if index < f.bits then
      if k.val = 0 then putDigit index mask data
      else if k.val = 1 ∧ index = 63 then data &&& ~~~BitVec.ofNat f.bits 3 ||| BitVec.ofNat f.bits (mask >>> 1)
      else data
    else if index < 64 * 2 then
      if k.val = 1 then putDigit (index - 64) mask data
      else if k.val = 2 ∧ index - 64 = 62 then data &&& ~~~BitVec.ofNat f.bits 1 ||| BitVec.ofNat f.bits (mask >>> 2)
      else data
    else if k.val = 2 then putDigit (index - 64 * 2) mask data
    else data

def maskCreate (f : Format) (lod : Nat) : Code f where
  data k :=
    let index := lod * 3 + 3
    if 1 < f.count ∧ 63 < index then
      let macroIndex := if 2 < f.count ∧ 63 * 2 < index then 2 else 1
      if k.val < macroIndex then BitVec.allOnes f.bits
      else if k.val = macroIndex then (BitVec.ofNat f.bits 1 <<< (index % 64)) - 1
      else BitVec.ofNat f.bits 0
    else if k.val = 0 then (BitVec.ofNat f.bits 1 <<< index) - 1
    else BitVec.ofNat f.bits 0

/-! ## The number a code stands for -/

theorem wordBeyond {c : Code f} {k : Nat} (far : f.count ≤ k) : c.word k = 0 := dif_neg (by omega)

theorem valueBit (c : Code f) (i : Nat) : (value c).testBit i = c.bit i := by
  have positive := bitsPositive f
  rw [value, Nat.add_comm, Nat.testBit_two_pow_mul_add _ (c.word 0).isLt]
  split
  · rename_i first
    rw [Code.bit, Nat.div_eq_of_lt first, Nat.mod_eq_of_lt first]
    rfl
  · rename_i first
    obtain ⟨j, rfl⟩ : ∃ j, i = f.bits + j := ⟨i - f.bits, by omega⟩
    rw [Nat.add_sub_cancel_left, Nat.add_comm (c.word 1).toNat, Nat.testBit_two_pow_mul_add _ (c.word 1).isLt]
    split
    · rename_i second
      have split := bitWord (a := c) (k := 1) second
      rw [Nat.mul_one] at split
      exact split.symm
    · rename_i second
      obtain ⟨j, rfl⟩ : ∃ n, j = f.bits + n := ⟨j - f.bits, by omega⟩
      rw [Nat.add_sub_cancel_left]
      by_cases third : j < f.bits
      · have split := bitWord (a := c) (k := 2) third
        rw [Nat.mul_comm, Nat.two_mul, Nat.add_assoc] at split
        exact split.symm
      · obtain ⟨j, rfl⟩ : ∃ n, j = f.bits + n := ⟨j - f.bits, by omega⟩
        have index : 3 ≤ (f.bits + (f.bits + (f.bits + j))) / f.bits := (Nat.le_div_iff_mul_le positive).mpr (by omega)
        have small : f.count ≤ 3 := by cases f <;> decide
        rw [Code.bit, wordBeyond (small.trans index)]
        exact (BitVec.getLsbD_of_ge _ _ (by omega)).trans BitVec.getLsbD_zero.symm

theorem bitBeyond {c : Code f} {i : Nat} (far : f.total ≤ i) : c.bit i = false := by
  have index : f.count ≤ i / f.bits := (Nat.le_div_iff_mul_le (bitsPositive f)).mpr (by rw [Nat.mul_comm]; exact far)
  rw [Code.bit, wordBeyond index]
  exact BitVec.getLsbD_zero

theorem valueLt (c : Code f) : value c < 2 ^ f.total := by
  apply Nat.lt_pow_two_of_testBit
  intro i far
  rw [valueBit, bitBeyond far]

theorem valueInj {a b : Code f} (same : value a = value b) : a = b := by
  apply codeExt
  intro k j _ inside
  rw [← bitWord inside, ← bitWord inside, ← valueBit, ← valueBit, same]

theorem hornerLt {w a b x y : Nat} (first : a < w) (second : b < w) :
    a + w * x < b + w * y ↔ x < y ∨ (x = y ∧ a < b) := by
  rcases Nat.lt_trichotomy x y with low | same | high
  · have step := Nat.mul_le_mul_left w low
    rw [Nat.mul_succ] at step
    omega
  · subst same
    omega
  · have step := Nat.mul_le_mul_left w high
    rw [Nat.mul_succ] at step
    omega

theorem hornerEq {w a b x y : Nat} (first : a < w) (second : b < w) :
    a + w * x = b + w * y ↔ x = y ∧ a = b := by
  have less := hornerLt (x := x) (y := y) first second
  have more := hornerLt (x := y) (y := x) second first
  omega

theorem lessValue (a b : Code f) : less a b = true ↔ value a < value b := by
  have top : ¬2 < f.count → a.word 2 = b.word 2 := fun few => by rw [wordBeyond (by omega), wordBeyond (by omega)]
  have middle : ¬1 < f.count → a.word 1 = b.word 1 := fun few => by rw [wordBeyond (by omega), wordBeyond (by omega)]
  rw [value, value, hornerLt (a.word 0).isLt (b.word 0).isLt, hornerLt (a.word 1).isLt (b.word 1).isLt,
    hornerEq (a.word 1).isLt (b.word 1).isLt, BitVec.toNat_inj, BitVec.toNat_inj, ← BitVec.lt_def, ← BitVec.lt_def,
    ← BitVec.lt_def, less]
  by_cases third : 2 < f.count ∧ a.word 2 ≠ b.word 2
  · rw [if_pos third, decide_eq_true_eq]
    simp [third.2]
  · have same : a.word 2 = b.word 2 := by
      by_cases wide : 2 < f.count
      · exact Decidable.not_not.mp fun apart => third ⟨wide, apart⟩
      · exact top wide
    rw [if_neg third]
    by_cases second : 1 < f.count ∧ a.word 1 ≠ b.word 1
    · rw [if_pos second, decide_eq_true_eq]
      simp [same, second.2]
    · have same' : a.word 1 = b.word 1 := by
        by_cases wide : 1 < f.count
        · exact Decidable.not_not.mp fun apart => second ⟨wide, apart⟩
        · exact middle wide
      rw [if_neg second, decide_eq_true_eq]
      simp [same, same']

theorem orValue (a b : Code f) : value (mortonOr a b) = value a ||| value b := by
  apply Nat.eq_of_testBit_eq
  intro i
  rw [valueBit, Nat.testBit_lor, valueBit, valueBit, Code.bit, Code.bit, Code.bit]
  by_cases here : i / f.bits < f.count
  · rw [wordHere here, wordHere here, wordHere here]
    exact BitVec.getLsbD_or
  · rw [wordBeyond (Nat.le_of_not_lt here), wordBeyond (Nat.le_of_not_lt here), wordBeyond (Nat.le_of_not_lt here)]
    exact (Bool.or_self _).symm

theorem xorValue (a b : Code f) : value (mortonXor a b) = value a ^^^ value b := by
  apply Nat.eq_of_testBit_eq
  intro i
  rw [valueBit, Nat.testBit_xor, valueBit, valueBit, Code.bit, Code.bit, Code.bit]
  by_cases here : i / f.bits < f.count
  · rw [wordHere here, wordHere here, wordHere here]
    exact BitVec.getLsbD_xor
  · rw [wordBeyond (Nat.le_of_not_lt here), wordBeyond (Nat.le_of_not_lt here), wordBeyond (Nat.le_of_not_lt here)]
    exact BitVec.getLsbD_zero.trans (Bool.xor_self _).symm

theorem log2High {a k y : Nat} (low : a < 2 ^ k) (some_ : y ≠ 0) : Nat.log2 (a + 2 ^ k * y) = k + Nat.log2 y := by
  have positive := Nat.two_pow_pos k
  have bounds := (Nat.log2_eq_iff some_).mp rfl
  have least := Nat.mul_le_mul_left (2 ^ k) bounds.1
  have most : 2 ^ k * (y + 1) ≤ 2 ^ k * 2 ^ (Nat.log2 y + 1) := Nat.mul_le_mul_left (2 ^ k) bounds.2
  rw [Nat.mul_add, Nat.mul_one] at most
  have filled : a + 2 ^ k * y ≠ 0 := by
    have more := Nat.mul_pos positive (Nat.pos_of_ne_zero some_)
    omega
  refine (Nat.log2_eq_iff filled).mpr ⟨?_, ?_⟩
  · rw [Nat.pow_add]
    omega
  · rw [Nat.add_assoc, Nat.pow_add]
    omega

theorem msbValue (c : Code f) : mortonMsb c = Nat.log2 (value c) := by
  have absent : ∀ k, ¬(k < f.count ∧ c.word k ≠ 0) → c.word k = 0 := fun k none_ => by
    by_cases here : k < f.count
    · exact Decidable.not_not.mp fun some_ => none_ ⟨here, some_⟩
    · exact wordBeyond (Nat.le_of_not_lt here)
  have wide : 1 < f.count → f.bits = 64 := by cases f <;> decide
  have filled : ∀ k, c.word k ≠ 0 → (c.word k).toNat ≠ 0 := fun k some_ zero =>
    some_ (BitVec.eq_of_toNat_eq (zero.trans rfl))
  unfold mortonMsb value bitScanReverse
  split
  · rename_i third
    have high := log2High (c.word 1).isLt (filled 2 third.2)
    have more : (c.word 1).toNat + 2 ^ f.bits * (c.word 2).toNat ≠ 0 := by
      have positive := Nat.mul_pos (Nat.two_pow_pos f.bits) (Nat.pos_of_ne_zero (filled 2 third.2))
      omega
    have bits := wide (by omega)
    rw [log2High (c.word 0).isLt more, high]
    omega
  · rename_i third
    rw [absent 2 third]
    have zero : (0 : BitVec f.bits).toNat = 0 := rfl
    rw [zero, Nat.mul_zero, Nat.add_zero]
    split
    · rename_i second
      have bits := wide second.1
      rw [log2High (c.word 0).isLt (filled 1 second.2)]
      omega
    · rename_i second
      rw [absent 1 second, zero, Nat.mul_zero, Nat.add_zero]
      split
      · rfl
      · rename_i first
        rw [Decidable.not_not.mp first]
        rfl

theorem codeLodValue (a b : Code f) : codeLod a b = mortonLod (value a) (value b) := by
  rw [codeLod, msbValue, xorValue]
  rfl

theorem totalPower (f : Format) : 2 ^ f.total = (2 ^ f.bits) ^ f.count := by rw [Format.total, Nat.pow_mul]

theorem wordAddOne (a : Code f) {k : Nat} (here : k < f.count) : (addOne a).word k =
    if a.word 0 ≠ BitVec.allOnes f.bits then if k = 0 then a.word k + 1 else a.word k
    else if k = 0 then 0
    else if a.word 1 ≠ BitVec.allOnes f.bits then if k = 1 then a.word k + 1 else a.word k
    else if k = 1 then 0
    else a.word k + 1 := by
  rw [wordHere here, wordHere here]
  rfl

theorem addOneValue (a : Code f) : value (addOne a) = (value a + 1) % 2 ^ f.total := by
  have wide : 0 < f.bits := bitsPositive f
  have many : 0 < f.count := countPositive f
  have ones : (BitVec.allOnes f.bits).toNat + 1 = 2 ^ f.bits := by
    rw [BitVec.toNat_allOnes]
    exact Nat.sub_add_cancel (Nat.two_pow_pos _)
  have one : (1 : BitVec f.bits).toNat = 1 := BitVec.toNat_one wide
  have nil : (0 : BitVec f.bits).toNat = 0 := BitVec.toNat_zero
  have step : ∀ w : BitVec f.bits, w ≠ BitVec.allOnes f.bits → (w + 1).toNat = w.toNat + 1 := by
    intro w below
    have small : w.toNat ≠ (BitVec.allOnes f.bits).toNat := fun same => below (BitVec.eq_of_toNat_eq same)
    have bound := w.isLt
    rw [BitVec.toNat_add, one, Nat.mod_eq_of_lt (by omega)]
  have inside := valueLt (addOne a)
  have later : ∀ k, f.count ≤ k → (addOne a).word k = a.word k := fun k far => by rw [wordBeyond far, wordBeyond far]
  by_cases first : a.word 0 = BitVec.allOnes f.bits
  · have zero : (addOne a).word 0 = 0 := by
      rw [wordAddOne a many, if_neg (not_not_intro first), if_pos rfl]
    have carried : (a.word 0).toNat + 1 = 2 ^ f.bits := by rw [first, ones]
    by_cases second : a.word 1 = BitVec.allOnes f.bits
    · have carried' : (a.word 1).toNat + 1 = 2 ^ f.bits := by rw [second, ones]
      have two : 1 < f.count := by
        by_contra few
        have room : 2 ≤ 2 ^ f.bits := Nat.le_self_pow (Nat.pos_iff_ne_zero.mp wide) 2
        rw [wordBeyond (by omega), nil] at carried'
        omega
      have middle : (addOne a).word 1 = 0 := by
        rw [wordAddOne a two, if_neg (not_not_intro first), if_neg (by decide), if_neg (not_not_intro second), if_pos rfl]
      have next : value a + 1 = 2 ^ f.bits * 2 ^ f.bits * ((a.word 2).toNat + 1) := by
        rw [value, show (a.word 0).toNat = 2 ^ f.bits - 1 by omega, show (a.word 1).toNat = 2 ^ f.bits - 1 by omega]
        have positive := Nat.two_pow_pos f.bits
        generalize 2 ^ f.bits = n at *
        obtain ⟨m, rfl⟩ : ∃ m, n = m + 1 := ⟨n - 1, by omega⟩
        rw [Nat.add_sub_cancel]
        ring
      rw [next, totalPower, value, zero, middle, nil, Nat.zero_add, Nat.zero_add, ← Nat.mul_assoc]
      by_cases three : 2 < f.count
      · have whole : f.count = 3 := by cases f <;> simp only [Format.count] at three ⊢ <;> omega
        have top : (addOne a).word 2 = a.word 2 + 1 := by
          rw [wordAddOne a three, if_neg (not_not_intro first), if_neg (by decide), if_neg (not_not_intro second),
            if_neg (by decide)]
        have power : (2 ^ f.bits) ^ 3 = 2 ^ f.bits * 2 ^ f.bits * 2 ^ f.bits := by ring
        rw [top, whole, power, Nat.mul_mod_mul_left, BitVec.toNat_add, one]
      · have whole : f.count = 2 := by omega
        rw [later 2 (by omega), wordBeyond (by omega), nil, whole, Nat.mul_zero, Nat.zero_add, Nat.mul_one, Nat.pow_two,
          Nat.mod_self]
    · by_cases two : 1 < f.count
      · have middle : (addOne a).word 1 = a.word 1 + 1 := by
          rw [wordAddOne a two, if_neg (not_not_intro first), if_neg (by decide), if_pos second, if_pos rfl]
        have top : (addOne a).word 2 = a.word 2 := by
          by_cases three : 2 < f.count
          · rw [wordAddOne a three, if_neg (not_not_intro first), if_neg (by decide), if_pos second, if_neg (by decide)]
          · exact later 2 (by omega)
        have same : value (addOne a) = value a + 1 := by
          rw [value, value, zero, middle, top, step _ second, nil, Nat.mul_add, Nat.mul_add, Nat.mul_add]
          omega
        rw [← same, Nat.mod_eq_of_lt inside]
      · have whole : f.count = 1 := by omega
        have same : value (addOne a) = 0 := by
          rw [value, zero, later 1 (by omega), later 2 (by omega), wordBeyond (by omega), wordBeyond (by omega), nil]
          rfl
        have next : value a + 1 = 2 ^ f.bits := by
          rw [value, wordBeyond (k := 1) (by omega), wordBeyond (k := 2) (by omega), nil, ← carried]
          rfl
        rw [same, next, totalPower, whole, Nat.pow_one, Nat.mod_self]
  · have zero : (addOne a).word 0 = a.word 0 + 1 := by rw [wordAddOne a many, if_pos first, if_pos rfl]
    have higher : ∀ k, k ≠ 0 → (addOne a).word k = a.word k := by
      intro k other
      by_cases here : k < f.count
      · rw [wordAddOne a here, if_pos first, if_neg other]
      · exact later k (Nat.le_of_not_lt here)
    have same : value (addOne a) = value a + 1 := by
      rw [value, zero, higher 1 (by decide), higher 2 (by decide), step _ first, value]
      omega
    rw [← same, Nat.mod_eq_of_lt inside]

/-! ## Digits -/

theorem sevenBit (j : Nat) : Nat.testBit 7 j = decide (j < 3) := Nat.testBit_two_pow_sub_one 3 j

theorem putDigitBit {w : Nat} (index : Nat) {mask : Nat} (octant : mask < 8) (data : BitVec w) (j : Nat) :
    (putDigit index mask data).getLsbD j =
      if index ≤ j ∧ j < index + 3 then decide (j < w) && mask.testBit (j - index) else data.getLsbD j := by
  have high : ∀ i, 3 ≤ i → mask.testBit i = false := fun i far =>
    Nat.testBit_lt_two_pow (Nat.lt_of_lt_of_le octant (Nat.pow_le_pow_right (by decide) far : 2 ^ 3 ≤ 2 ^ i))
  rw [putDigit, BitVec.getLsbD_or, BitVec.getLsbD_and, BitVec.getLsbD_not, BitVec.getLsbD_shiftLeft,
    BitVec.getLsbD_shiftLeft, BitVec.getLsbD_ofNat, BitVec.getLsbD_ofNat, sevenBit]
  by_cases inside : j < w
  · have near : j - index < w := by omega
    by_cases low : j < index
    · simp [inside, low, Nat.not_le.mpr low]
    · by_cases here : j < index + 3
      · have digit : j - index < 3 := by omega
        simp [inside, low, near, here, digit, Nat.le_of_not_lt low]
      · have beyond : ¬j - index < 3 := by omega
        simp [inside, low, near, here, beyond, high (j - index) (by omega)]
  · simp [inside, BitVec.getLsbD_of_ge data j (Nat.le_of_not_lt inside)]

theorem bitOfData {c : Code f} {i : Nat} (k j : Nat) (place : i = f.bits * k + j) (inside : j < f.bits)
    (here : k < f.count) : c.bit i = (c.data ⟨k, here⟩).getLsbD j := by
  rw [place, bitWord inside, wordHere here]

-- Where bit `i` of a code is.
theorem bitPlace (f : Format) {i : Nat} (inside : i < f.total) : ∃ k j, i = f.bits * k + j ∧ j < f.bits ∧ k < f.count ∧
    ((f.bits = 32 ∧ f.total = 32 ∧ k = 0 ∧ i = j) ∨ (f.bits = 64 ∧ i = 64 * k + j ∧ k < 3 ∧ f.total = 64 * f.count)) := by
  have positive := bitsPositive f
  have many : i / f.bits < f.count := (Nat.div_lt_iff_lt_mul positive).mpr (by rw [Nat.mul_comm]; exact inside)
  refine ⟨i / f.bits, i % f.bits, (Nat.div_add_mod i f.bits).symm, Nat.mod_lt i positive, many, ?_⟩
  cases f with
  | m32 =>
    have low : i < 32 := inside
    exact .inl ⟨rfl, rfl, Nat.div_eq_of_lt low, (Nat.mod_eq_of_lt low).symm⟩
  | m64 => exact .inr ⟨rfl, (Nat.div_add_mod i 64).symm, many.trans (by decide), rfl⟩
  | m128 => exact .inr ⟨rfl, (Nat.div_add_mod i 64).symm, many.trans (by decide), rfl⟩
  | m192 => exact .inr ⟨rfl, (Nat.div_add_mod i 64).symm, many, rfl⟩

-- A digit that straddles two words leaves its high `3 - low` bits at the bottom of the upper one.
theorem putRestBit {w low : Nat} {mask : Nat} (octant : mask < 8) (data : BitVec w) (j : Nat)
    (inside : j < w) :
    (data &&& ~~~BitVec.ofNat w (2 ^ (3 - low) - 1) ||| BitVec.ofNat w (mask >>> low)).getLsbD j =
      if j < 3 - low then mask.testBit (low + j) else data.getLsbD j := by
  have high : ∀ i, 3 ≤ i → mask.testBit i = false := fun i far =>
    Nat.testBit_lt_two_pow (Nat.lt_of_lt_of_le octant (Nat.pow_le_pow_right (by decide) far : 2 ^ 3 ≤ 2 ^ i))
  rw [BitVec.getLsbD_or, BitVec.getLsbD_and, BitVec.getLsbD_not, BitVec.getLsbD_ofNat, BitVec.getLsbD_ofNat,
    Nat.testBit_two_pow_sub_one, Nat.testBit_shiftRight]
  by_cases rest : j < 3 - low
  · simp [inside, rest]
  · simp [inside, rest, high (low + j) (by omega)]

theorem setChildMaskBit {lod mask : Nat} (c : Code f) (octant : mask < 8) (stored : lod * 3 + 3 ≤ f.total) {i : Nat}
    (inside : i < f.total) : (setChildMask lod mask c).bit i =
      if lod * 3 ≤ i ∧ i < lod * 3 + 3 then mask.testBit (i - lod * 3) else c.bit i := by
  obtain ⟨k, j, place, low, here, shape⟩ := bitPlace f inside
  have body : (setChildMask lod mask c).data ⟨k, here⟩ =
      if lod * 3 < f.bits then
        if k = 0 then putDigit (lod * 3) mask (c.data ⟨k, here⟩)
        else if k = 1 ∧ lod * 3 = 63 then c.data ⟨k, here⟩ &&& ~~~BitVec.ofNat f.bits (2 ^ (3 - 1) - 1) |||
          BitVec.ofNat f.bits (mask >>> 1)
        else c.data ⟨k, here⟩
      else if lod * 3 < 64 * 2 then
        if k = 1 then putDigit (lod * 3 - 64) mask (c.data ⟨k, here⟩)
        else if k = 2 ∧ lod * 3 - 64 = 62 then c.data ⟨k, here⟩ &&& ~~~BitVec.ofNat f.bits (2 ^ (3 - 2) - 1) |||
          BitVec.ofNat f.bits (mask >>> 2)
        else c.data ⟨k, here⟩
      else if k = 2 then putDigit (lod * 3 - 64 * 2) mask (c.data ⟨k, here⟩)
      else c.data ⟨k, here⟩ := rfl
  rw [bitOfData k j place low here, bitOfData k j place low here, body]
  generalize c.data ⟨k, here⟩ = data
  -- One case for each place the word of bit `i` can have against the word of the digit.
  split
  · rename_i first
    split
    · rename_i word
      rw [putDigitBit _ octant, decide_eq_true low, Bool.true_and, show j = i by omega]
    · rename_i later
      split
      · rename_i edge
        rw [putRestBit octant data j low]
        by_cases rest : j < 3 - 1
        · rw [if_pos rest, if_pos (by omega), show i - lod * 3 = 1 + j by omega]
        · rw [if_neg rest, if_neg (by omega)]
      · rename_i other
        rw [if_neg (by omega)]
  · rename_i second
    split
    · rename_i first
      split
      · rename_i word
        rw [putDigitBit _ octant, decide_eq_true low, Bool.true_and]
        by_cases digit : lod * 3 ≤ i ∧ i < lod * 3 + 3
        · rw [if_pos digit, if_pos (by omega), show i - lod * 3 = j - (lod * 3 - 64) by omega]
        · rw [if_neg digit, if_neg (by omega)]
      · rename_i other
        split
        · rename_i edge
          rw [putRestBit octant data j low]
          by_cases rest : j < 3 - 2
          · rw [if_pos rest, if_pos (by omega), show i - lod * 3 = 2 + j by omega]
          · rw [if_neg rest, if_neg (by omega)]
        · rename_i apart
          rw [if_neg (by omega)]
    · rename_i third
      split
      · rename_i word
        rw [putDigitBit _ octant, decide_eq_true low, Bool.true_and]
        by_cases digit : lod * 3 ≤ i ∧ i < lod * 3 + 3
        · rw [if_pos digit, if_pos (by omega), show i - lod * 3 = j - (lod * 3 - 64 * 2) by omega]
        · rw [if_neg digit, if_neg (by omega)]
      · rename_i other
        rw [if_neg (by omega)]

theorem lowOnesBit {w : Nat} (n j : Nat) (small : n < w) : ((BitVec.ofNat w 1 <<< n) - 1).getLsbD j = decide (j < n) := by
  have value : ((BitVec.ofNat w 1 <<< n) - 1).toNat = 2 ^ n - 1 := by
    have bound : 2 ^ n < 2 ^ w := Nat.pow_lt_pow_right (by decide) small
    have positive : 0 < 2 ^ n := Nat.two_pow_pos n
    have one : (BitVec.ofNat w 1).toNat = 1 := BitVec.toNat_one (by omega)
    have same : (1 : BitVec w) = BitVec.ofNat w 1 := rfl
    rw [same, BitVec.toNat_sub, BitVec.toNat_shiftLeft, one, Nat.shiftLeft_eq, Nat.one_mul, Nat.mod_eq_of_lt bound]
    have wrap : 2 ^ w - 1 + 2 ^ n = (2 ^ n - 1) + 2 ^ w := by omega
    rw [wrap, Nat.add_mod_right, Nat.mod_eq_of_lt (by omega)]
  rw [BitVec.getLsbD, value, Nat.testBit_two_pow_sub_one]

-- Where the mask of a level ends. From the top level of the widest code on, the index is reduced to the top word.
def maskEnd (lod : Nat) : Nat := if lod * 3 + 3 < 192 then lod * 3 + 3 else 128 + (lod * 3 + 3) % 64

theorem maskCreateEnd {lod i : Nat} (stored : 2 < f.count ∨ lod * 3 + 3 ≤ f.total) (inside : i < f.total) :
    (maskCreate f lod).bit i = decide (i < maskEnd lod) := by
  obtain ⟨k, j, place, low, here, shape⟩ := bitPlace f inside
  have body : (maskCreate f lod).data ⟨k, here⟩ =
      if 1 < f.count ∧ 63 < lod * 3 + 3 then
        if k < (if 2 < f.count ∧ 63 * 2 < lod * 3 + 3 then 2 else 1) then BitVec.allOnes f.bits
        else if k = (if 2 < f.count ∧ 63 * 2 < lod * 3 + 3 then 2 else 1) then (BitVec.ofNat f.bits 1 <<< ((lod * 3 + 3) % 64)) - 1
        else BitVec.ofNat f.bits 0
      else if k = 0 then (BitVec.ofNat f.bits 1 <<< (lod * 3 + 3)) - 1
      else BitVec.ofNat f.bits 0 := rfl
  have small : f.count ≤ 3 := by cases f <;> decide
  have single : f.bits = 32 → f.count = 1 := by cases f <;> decide
  have wide : f.count = 3 → f.bits = 64 := by cases f <;> decide
  rw [bitOfData k j place low here, body]
  rw [maskEnd]
  generalize ends : (if lod * 3 + 3 < 192 then lod * 3 + 3 else 128 + (lod * 3 + 3) % 64) = stop
  split
  · rename_i wide
    generalize words : (if 2 < f.count ∧ 63 * 2 < lod * 3 + 3 then 2 else 1) = macroIndex
    split
    · rename_i below
      rw [BitVec.getLsbD_allOnes, decide_eq_true low, eq_comm, decide_eq_true_eq]
      split at ends <;> split at words <;> omega
    · rename_i above
      split
      · rename_i word
        rw [lowOnesBit _ _ (by omega), decide_eq_decide]
        split at ends <;> split at words <;> omega
      · rename_i other
        rw [BitVec.getLsbD_zero, eq_comm, decide_eq_false_iff_not]
        split at ends <;> split at words <;> omega
  · rename_i narrow
    split
    · rename_i word
      rw [lowOnesBit _ _ (by omega), decide_eq_decide]
      split at ends <;> omega
    · rename_i other
      rw [BitVec.getLsbD_zero, eq_comm, decide_eq_false_iff_not]
      split at ends <;> omega

theorem maskCreateBit {lod i : Nat} (stored : lod * 3 + 3 ≤ f.total) (inside : i < f.total) :
    (maskCreate f lod).bit i = decide (i < if lod * 3 + 3 = 192 then 128 else lod * 3 + 3) := by
  have widest : f.total ≤ 192 := by cases f <;> decide
  have same : maskEnd lod = if lod * 3 + 3 = 192 then 128 else lod * 3 + 3 := by
    rw [maskEnd]
    split <;> split <;> omega
  rw [maskCreateEnd (.inr stored) inside, same]

theorem eightPower (k : Nat) : 8 ^ k = 2 ^ (3 * k) := by rw [Nat.pow_mul]

theorem digitBit (k c j : Nat) : (digit k c).testBit j = (decide (j < 3) && c.testBit (3 * k + j)) := by
  rw [digit, eightPower, ← Nat.shiftRight_eq_div_pow, show 8 = 2 ^ 3 from rfl, Nat.testBit_mod_two_pow,
    Nat.testBit_shiftRight]

theorem lowBits {w : Nat} (wide : 3 ≤ w) (data : BitVec w) (index j : Nat) :
    ((data >>> index) &&& BitVec.ofNat w 7).getLsbD j = (decide (j < 3) && data.getLsbD (index + j)) := by
  rw [BitVec.getLsbD_and, BitVec.getLsbD_ushiftRight, BitVec.getLsbD_ofNat, sevenBit]
  by_cases low : j < 3
  · simp [low, show j < w by omega]
  · simp [low]

theorem restBits {w low : Nat} (wide : 3 ≤ w) (data : BitVec w) (j : Nat) (small : low < 3) :
    ((data &&& BitVec.ofNat w (2 ^ (3 - low) - 1)) <<< low).getLsbD j =
      (decide (low ≤ j ∧ j < 3) && data.getLsbD (j - low)) := by
  rw [BitVec.getLsbD_shiftLeft, BitVec.getLsbD_and, BitVec.getLsbD_ofNat, Nat.testBit_two_pow_sub_one]
  by_cases here : low ≤ j ∧ j < 3
  · simp [here, show j < w by omega, show ¬j < low by omega, show j - low < w by omega, show j - low < 3 - low by omega]
  · by_cases below : j < low
    · simp [below, Nat.not_le.mpr below]
    · simp [here, show ¬j - low < 3 - low by omega]

theorem getChildMaskInDigit {lod : Nat} (c : Code f) (stored : lod * 3 + 3 ≤ f.total) :
    getChildMaskIn lod c = digit lod (value c) := by
  have wide : 3 ≤ f.bits := by cases f <;> decide
  apply Nat.eq_of_testBit_eq
  intro j
  rw [digitBit, valueBit]
  have body : getChildMaskIn lod c =
      (if lod * 3 < f.bits then
        if lod * 3 = 63 then ((c.word 0 >>> (lod * 3)) &&& BitVec.ofNat f.bits 7) |||
            ((c.word 1 &&& BitVec.ofNat f.bits (2 ^ (3 - 1) - 1)) <<< 1)
        else (c.word 0 >>> (lod * 3)) &&& BitVec.ofNat f.bits 7
      else if lod * 3 < 64 * 2 then
        if lod * 3 - 64 = 62 then ((c.word 1 >>> (lod * 3 - 64)) &&& BitVec.ofNat f.bits 7) |||
            ((c.word 2 &&& BitVec.ofNat f.bits (2 ^ (3 - 2) - 1)) <<< 2)
        else (c.word 1 >>> (lod * 3 - 64)) &&& BitVec.ofNat f.bits 7
      else (c.word 2 >>> (lod * 3 - 64 * 2)) &&& BitVec.ofNat f.bits 7).toNat := rfl
  rw [body]
  generalize read : (if lod * 3 < f.bits then _ else _ : BitVec f.bits) = ret
  change ret.getLsbD j = _
  by_cases low : j < 3
  · obtain ⟨k, q, place, inside, here, shape⟩ := bitPlace f (show 3 * lod + j < f.total by omega)
    have bit : c.bit (3 * lod + j) = (c.word k).getLsbD q := by rw [place, bitWord inside]
    have beyond : ∀ n i, f.bits ≤ i → (c.word n).getLsbD i = false := fun n i far => BitVec.getLsbD_of_ge _ i far
    rw [decide_eq_true low, Bool.true_and, bit, ← read]
    split
    · split
      · rename_i first edge
        rw [BitVec.getLsbD_or, lowBits wide, restBits wide _ _ (by decide), decide_eq_true low]
        rcases Nat.eq_zero_or_pos j with zero | rest
        · subst zero
          obtain rfl : k = 0 := by omega
          obtain rfl : q = lod * 3 := by omega
          simp
        · obtain rfl : k = 1 := by omega
          obtain rfl : q = j - 1 := by omega
          have above : 1 ≤ j := rest
          simp [beyond 0 (lod * 3 + j) (by omega), above, low]
      · rename_i first other
        rw [lowBits wide, decide_eq_true low, Bool.true_and]
        obtain rfl : k = 0 := by omega
        obtain rfl : q = lod * 3 + j := by omega
        rfl
    · rename_i above
      split
      · split
        · rename_i second edge
          rw [BitVec.getLsbD_or, lowBits wide, restBits wide _ _ (by decide), decide_eq_true low]
          by_cases rest : j = 2
          · subst rest
            obtain rfl : k = 2 := by omega
            obtain rfl : q = 0 := by omega
            simp [beyond 1 (lod * 3 - 64 + 2) (by omega)]
          · obtain rfl : k = 1 := by omega
            obtain rfl : q = lod * 3 - 64 + j := by omega
            simp [show ¬2 ≤ j by omega]
        · rename_i second other
          rw [lowBits wide, decide_eq_true low, Bool.true_and]
          obtain rfl : k = 1 := by omega
          obtain rfl : q = lod * 3 - 64 + j := by omega
          rfl
      · rename_i third
        rw [lowBits wide, decide_eq_true low, Bool.true_and]
        obtain rfl : k = 2 := by omega
        obtain rfl : q = lod * 3 - 64 * 2 + j := by omega
        rfl
  · rw [decide_eq_false low, Bool.false_and, ← read]
    split
    · split
      · rw [BitVec.getLsbD_or, lowBits wide, restBits wide _ _ (by decide)]
        simp [low]
      · rw [lowBits wide]
        simp [low]
    · split
      · split
        · rw [BitVec.getLsbD_or, lowBits wide, restBits wide _ _ (by decide)]
          simp [low]
        · rw [lowBits wide]
          simp [low]
      · rw [lowBits wide]
        simp [low]

theorem getChildMaskDigit (undefined : BitVec 64 → Nat → BitVec 64) {lod : Nat} (c : Code .m192) (inside : lod < 64) :
    getChildMask undefined lod c = digit lod (value c) := by
  refine Eq.trans ?_ (getChildMaskInDigit c (show lod * 3 + 3 ≤ 192 by omega))
  obtain ⟨data, words⟩ : ∃ data : Nat → BitVec 64, data = c.word := ⟨_, rfl⟩
  have same : getChildMaskIn lod c = (if lod * 3 < 64 then
      if lod * 3 = 63 then ((data 0 >>> (lod * 3)) &&& 7#64) ||| ((data 1 &&& 3#64) <<< 1)
      else (data 0 >>> (lod * 3)) &&& 7#64
    else if lod * 3 < 64 * 2 then
      if lod * 3 - 64 = 62 then ((data 1 >>> (lod * 3 - 64)) &&& 7#64) ||| ((data 2 &&& 1#64) <<< 2)
      else (data 1 >>> (lod * 3 - 64)) &&& 7#64
    else (data 2 >>> (lod * 3 - 64 * 2)) &&& 7#64).toNat := by
    rw [words]
    rfl
  rw [same]
  unfold getChildMask
  dsimp only
  rw [← words, if_pos (show lod * 3 - 64 * 2 < 64 by omega)]
  split
  · split <;> rfl
  · split
    · split <;> rfl
    · rfl

theorem setChildMaskValue {lod mask : Nat} (c : Code f) (octant : mask < 8) (stored : lod * 3 + 3 ≤ f.total) :
    value (setChildMask lod mask c) = MortonTree.setChildMask lod mask (value c) := by
  have shape : MortonTree.setChildMask lod mask (value c) =
      2 ^ (3 * lod) * (2 ^ 3 * (value c / 2 ^ (3 * lod + 3)) + mask) + value c % 2 ^ (3 * lod) := by
    rw [MortonTree.setChildMask, floor, eightPower, eightPower, Nat.mul_add 3, Nat.pow_add _ (3 * lod)]
    ring
  apply Nat.eq_of_testBit_eq
  intro i
  rw [shape, Nat.testBit_two_pow_mul_add _ (Nat.mod_lt _ (Nat.two_pow_pos _)), valueBit]
  by_cases inside : i < f.total
  · rw [setChildMaskBit c octant stored inside]
    by_cases low : i < 3 * lod
    · rw [if_neg (by omega), if_pos low, Nat.testBit_mod_two_pow, decide_eq_true low, Bool.true_and, valueBit]
    · rw [if_neg low, Nat.testBit_two_pow_mul_add _ octant]
      by_cases here : i - 3 * lod < 3
      · rw [if_pos (by omega), if_pos here, Nat.mul_comm]
      · rw [if_neg (by omega), if_neg here, ← Nat.shiftRight_eq_div_pow, Nat.testBit_shiftRight, valueBit]
        congr 1
        omega
  · rw [bitBeyond (by omega), if_neg (by omega), Nat.testBit_two_pow_mul_add _ octant, if_neg (by omega),
      ← Nat.shiftRight_eq_div_pow, Nat.testBit_shiftRight, valueBit, bitBeyond (by omega)]

theorem maskCreateValue {lod : Nat} (stored : lod * 3 + 3 ≤ f.total) :
    value (maskCreate f lod) = 2 ^ (if lod * 3 + 3 = 192 then 128 else lod * 3 + 3) - 1 := by
  apply Nat.eq_of_testBit_eq
  intro i
  rw [valueBit, Nat.testBit_two_pow_sub_one]
  by_cases inside : i < f.total
  · exact maskCreateBit stored inside
  · rw [bitBeyond (by omega), eq_comm, decide_eq_false_iff_not]
    split <;> omega

theorem narrowedBit {wide : Format} (c : Code wide) (narrower : f.total ≤ wide.total) {i : Nat} (inside : i < f.total) :
    (Morton.downcast c : Code f).bit i = (decide (i < f.capacity) && c.bit i) := by
  obtain ⟨k, j, place, low, here, shape⟩ := bitPlace f inside
  have source : c.bit i = (c.word k).getLsbD j := by
    rw [place]
    by_cases same : f.bits = wide.bits
    · rw [same] at low ⊢
      exact bitWord low
    · have single : k = 0 ∧ f.bits ≤ wide.bits := by
        cases f <;> cases wide <;> simp [Format.bits, Format.total, Format.count] at same narrower here ⊢ <;> omega
      rw [single.1, Nat.mul_zero, ← Nat.mul_zero wide.bits]
      exact bitWord (Nat.lt_of_lt_of_le low single.2)
  rw [source, place, bitWord low]
  have few : f.count ≤ 3 := by cases f <;> decide
  obtain rfl | rfl | rfl : k = 0 ∨ k = 1 ∨ k = 2 := by omega
  · rw [downcastFirstBit low, Bool.and_comm]
    congr 1
    apply decide_eq_decide.mpr
    cases f <;> simp [Format.capacity, Format.total, Format.bits, Format.count] at low ⊢ <;> omega
  · rw [downcastSecondBit here low, Bool.and_comm]
    congr 1
    apply decide_eq_decide.mpr
    cases f <;> simp [Format.capacity, Format.total, Format.bits, Format.count] at here low ⊢ <;> omega
  · have wide : f.bits * 2 + j < f.capacity := by
      cases f <;> simp only [Format.capacity, Format.total, Format.bits, Format.count] at here low ⊢ <;> omega
    rw [decide_eq_true wide, Bool.true_and, wordHere here]
    change ((c.word 2).setWidth f.bits).getLsbD j = _
    rw [BitVec.getLsbD_setWidth, decide_eq_true low, Bool.true_and]

theorem downcastBit (c : Code .m192) {i : Nat} (inside : i < f.total) :
    (Morton.downcast c : Code f).bit i = (decide (i < f.capacity) && c.bit i) :=
  narrowedBit c (by cases f <;> decide) inside

theorem downcastValue (c : Code .m192) : value (Morton.downcast c : Code f) = MortonTree.downcast f (value c) := by
  apply Nat.eq_of_testBit_eq
  intro i
  have capacity : 3 * digits f = f.capacity := by cases f <;> rfl
  rw [MortonTree.downcast, eightPower, Nat.testBit_mod_two_pow, valueBit, valueBit, capacity]
  by_cases inside : i < f.total
  · exact downcastBit c inside
  · have le : f.capacity ≤ f.total := Nat.sub_le _ _
    rw [bitBeyond (by omega), decide_eq_false (by omega), Bool.false_and]

theorem andBit (a b : Code f) (i : Nat) : (mortonAnd a b).bit i = (a.bit i && b.bit i) := by
  by_cases inside : i < f.total
  · obtain ⟨k, j, place, low, here, _⟩ := bitPlace f inside
    rw [bitOfData k j place low here, bitOfData k j place low here, bitOfData k j place low here]
    exact BitVec.getLsbD_and
  · rw [bitBeyond (Nat.le_of_not_lt inside), bitBeyond (Nat.le_of_not_lt inside), Bool.false_and]

theorem negateBit (a : Code f) {i : Nat} (inside : i < f.total) : (mortonNegate a).bit i = !a.bit i := by
  obtain ⟨k, j, place, low, here, _⟩ := bitPlace f inside
  rw [bitOfData k j place low here, bitOfData k j place low here]
  change (~~~a.data ⟨k, here⟩).getLsbD j = _
  rw [BitVec.getLsbD_not, decide_eq_true low, Bool.true_and]

/-! ## Casts -/

theorem agreeAbove {c m : Code .m192} (same : value c / 8 ^ digits f = value m / 8 ^ digits f) : Agree f c m := by
  intro i high _
  have capacity : 3 * digits f = f.capacity := by cases f <;> rfl
  have bit := congrArg (fun n => n.testBit (i - f.capacity)) same
  rw [eightPower, capacity, ← Nat.shiftRight_eq_div_pow, ← Nat.shiftRight_eq_div_pow, Nat.testBit_shiftRight,
    Nat.testBit_shiftRight, Nat.add_sub_cancel' high, valueBit, valueBit] at bit
  exact bit

theorem divOfAgree {c m : Code .m192} (agree : Agree f c m) : value c / 8 ^ digits f = value m / 8 ^ digits f := by
  have capacity : 3 * digits f = f.capacity := by cases f <;> rfl
  apply Nat.eq_of_testBit_eq
  intro i
  rw [eightPower, capacity, ← Nat.shiftRight_eq_div_pow, ← Nat.shiftRight_eq_div_pow, Nat.testBit_shiftRight,
    Nat.testBit_shiftRight, valueBit, valueBit]
  by_cases inside : f.capacity + i < Format.total .m192
  · exact agree _ (Nat.le_add_right _ _) inside
  · rw [bitBeyond (Nat.le_of_not_lt inside), bitBeyond (Nat.le_of_not_lt inside)]

theorem upcastBack {c m : Code .m192} (same : value c / 8 ^ digits f = value m / 8 ^ digits f) :
    upcast (downcast c : Code f) m = c :=
  (roundTrip (by cases f <;> decide) (agreeAbove same)).mpr fun single => absurd single (by decide)

theorem downcastSelf (c : Code .m192) : (downcast c : Code .m192) = c := by
  apply valueInj
  rw [downcastValue]
  exact Nat.mod_eq_of_lt ((valueLt c).trans_eq (by decide))


theorem narrowBit {narrow wide : Format} (a : Code narrow) {k j : Nat} (narrower : narrow.total ≤ wide.total)
    (inside : j < wide.bits) : a.bit (wide.bits * k + j) = (a.word k).getLsbD j := by
  by_cases same : narrow.bits = wide.bits
  · rw [← same] at inside ⊢
    exact bitWord inside
  · have shape : narrow = .m32 ∧ wide.bits = 64 := by
      cases narrow <;> cases wide <;> simp [Format.bits, Format.total, Format.count] at same narrower ⊢
    obtain ⟨rfl, wider⟩ := shape
    rw [wider] at inside ⊢
    by_cases first : k = 0
    · subst first
      by_cases low : j < 32
      · rw [Nat.mul_zero, ← Nat.mul_zero (Format.bits .m32)]
        exact bitWord low
      · rw [bitBeyond (show 32 ≤ 64 * 0 + j by omega)]
        exact (BitVec.getLsbD_of_ge _ _ (Nat.le_of_not_lt low)).symm
    · rw [bitBeyond (show 32 ≤ 64 * k + j by omega), wordBeyond (show 1 ≤ k by omega)]
      exact BitVec.getLsbD_zero.symm

theorem upcastBit {narrow wide : Format} (a : Code narrow) (m : Code .m192) (narrower : narrow.total ≤ wide.total)
    {i : Nat} (inside : i < wide.total) : (upcast a m : Code wide).bit i =
      (a.bit i || (decide ((if wide.count = 1 then narrow.total else narrow.capacity) ≤ i) && m.bit i)) := by
  obtain ⟨k, j, place, low, here, _⟩ := bitPlace wide inside
  rw [place, bitWord low, narrowBit a narrower low, minimumBit here low]
  have few : k < 3 := by cases wide <;> simp only [Format.count] at here <;> omega
  have short : ∀ n, narrow.bits ≤ j → (a.word n).getLsbD j = false := fun n far => BitVec.getLsbD_of_ge _ j far
  have empty : ∀ n, narrow.count ≤ n → (a.word n).getLsbD j = false := fun n far => by
    rw [wordBeyond far]
    exact BitVec.getLsbD_zero
  obtain rfl | rfl | rfl : k = 0 ∨ k = 1 ∨ k = 2 := by omega
  · rw [upcastFirstBit low]
    have short := short 0
    generalize (a.word 0).getLsbD j = x at short ⊢
    generalize (m.word 0).getLsbD j = y
    cases narrow <;> cases wide <;>
      simp [Format.total, Format.capacity, Format.bits, Format.count] at narrower low short ⊢ <;> grind
  · rw [upcastSecondBit here low]
    have short := short 1
    have empty := empty 1
    generalize (a.word 1).getLsbD j = x at short empty ⊢
    generalize (m.word 1).getLsbD j = y
    cases narrow <;> cases wide <;>
      simp [Format.total, Format.capacity, Format.bits, Format.count] at narrower here low short empty ⊢ <;> grind
  · rw [wordHere here]
    change (upcastThird wide a m).getLsbD j = _
    have value : (upcastThird wide a m).getLsbD j =
        if 2 < narrow.count then (a.word 2).getLsbD j else (m.word 2).getLsbD j := by
      unfold upcastThird
      split
      · rw [BitVec.getLsbD_setWidth, decide_eq_true low, Bool.true_and]
      · rw [BitVec.getLsbD_setWidth, decide_eq_true low, Bool.true_and]
    rw [value]
    have empty := empty 2
    generalize (a.word 2).getLsbD j = x at empty ⊢
    generalize (m.word 2).getLsbD j = y
    cases narrow <;> cases wide <;>
      simp [Format.total, Format.capacity, Format.bits, Format.count] at narrower here low empty ⊢ <;> grind

end Dewfall.MortonDigits
