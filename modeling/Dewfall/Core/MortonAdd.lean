import Dewfall.Core.MortonDigits
import Dewfall.General.Limbs

/-! The sum of two morton codes, word by word. Where the words are those of the sum modulo the width is
decided exactly; what the cell maxima computed with it mean is not treated. -/
namespace Dewfall.MortonAdd
open General.Limbs Morton MortonDigits

variable {f : Format}

-- `morton_add`
def mortonAdd (a b : Code f) : Code f where
  data k :=
    let first := a.word 0 + b.word 0
    if k.val = 0 then first
    else
      let carry : BitVec f.bits := if first < a.word 0 then 1 else 0
      let second := a.word 1 + b.word 1 + carry
      if k.val = 1 then second
      else
        let carry : BitVec f.bits := if second < a.word 1 then 1 else 0
        a.word 2 + b.word 2 + carry

/-! ## Words of a sum -/

def words (c : Code f) : List Nat := (List.range f.count).map fun k => (c.word k).toNat

theorem wordsNumber (c : Code f) : number (2 ^ f.bits) (words c) = value c := by
  have none : ∀ k, f.count ≤ k → (c.word k).toNat = 0 := fun k far => by
    rw [wordBeyond far]
    rfl
  unfold value words
  cases f with
  | m32 | m64 =>
    rw [none 1 (by decide), none 2 (by decide)]
    rfl
  | m128 =>
    rw [none 2 (by decide)]
    rfl
  | m192 => rfl

theorem wordsBounded (c : Code f) : Bounded (2 ^ f.bits) (words c) := by
  intro a mem
  obtain ⟨k, _, rfl⟩ := List.mem_map.mp mem
  exact (c.word k).isLt

theorem wordsLength (c : Code f) : (words c).length = f.count := by
  rw [words, List.length_map, List.length_range]

def first (a b : Code f) : Nat := (a.word 0).toNat + (b.word 0).toNat
def second (a b : Code f) : Nat := (a.word 1).toNat + (b.word 1).toNat + first a b / 2 ^ f.bits

-- What the source takes for the carry out of the second word.
def detected (a b : Code f) : Nat := if second a b % 2 ^ f.bits < (a.word 1).toNat then 1 else 0

theorem firstWord (a b : Code f) : ((mortonAdd a b).word 0).toNat = first a b % 2 ^ f.bits := by
  rw [wordHere (countPositive f)]
  exact BitVec.toNat_add _ _

theorem carried (a b : Code f) :
    (if a.word 0 + b.word 0 < a.word 0 then 1 else 0 : BitVec f.bits).toNat = first a b / 2 ^ f.bits := by
  have low := (a.word 0).isLt
  have low' := (b.word 0).isLt
  have wraps := wraps low low'
  have out := @carryOut (2 ^ f.bits) (first a b) (by unfold first; omega)
  rw [out]
  have less : a.word 0 + b.word 0 < a.word 0 ↔ 2 ^ f.bits ≤ first a b := by
    rw [BitVec.lt_def, BitVec.toNat_add]
    exact wraps
  by_cases wrapped : a.word 0 + b.word 0 < a.word 0
  · rw [if_pos wrapped, if_pos (less.mp wrapped)]
    exact BitVec.toNat_one (bitsPositive f)
  · rw [if_neg wrapped, if_neg fun past => wrapped (less.mpr past)]
    rfl

theorem secondSum (a b : Code f) :
    (a.word 1 + b.word 1 + (if a.word 0 + b.word 0 < a.word 0 then 1 else 0 : BitVec f.bits)).toNat =
      second a b % 2 ^ f.bits := by
  rw [BitVec.toNat_add, BitVec.toNat_add, carried, Nat.mod_add_mod]
  rfl

theorem secondWord (a b : Code f) (here : 1 < f.count) :
    ((mortonAdd a b).word 1).toNat = second a b % 2 ^ f.bits := by
  rw [wordHere here]
  exact secondSum a b

theorem thirdWord (a b : Code f) (here : 2 < f.count) :
    ((mortonAdd a b).word 2).toNat = ((a.word 2).toNat + (b.word 2).toNat + detected a b) % 2 ^ f.bits := by
  rw [wordHere here]
  change (a.word 2 + b.word 2 + _).toNat = _
  rw [BitVec.toNat_add, BitVec.toNat_add, Nat.mod_add_mod]
  congr 2
  have less := secondSum a b
  unfold detected
  rw [← less]
  by_cases wrapped : a.word 1 + b.word 1 + (if a.word 0 + b.word 0 < a.word 0 then 1 else 0 : BitVec f.bits) < a.word 1
  · rw [if_pos wrapped, if_pos (BitVec.lt_def.mp wrapped)]
    exact BitVec.toNat_one (bitsPositive f)
  · rw [if_neg wrapped, if_neg fun past => wrapped (BitVec.lt_def.mpr past)]
    rfl

/-! ## Where the sum is exact -/

-- The second word of the sum was carried into, and it wraps although it is not less than a summand.
def Missed (a b : Code f) : Prop :=
  2 < f.count ∧ 2 ^ f.bits ≤ (a.word 0).toNat + (b.word 0).toNat ∧ b.word 1 = BitVec.allOnes f.bits

theorem detectedIff (a b : Code f) : detected a b = second a b / 2 ^ f.bits ↔
    ¬(2 ^ f.bits ≤ first a b ∧ b.word 1 = BitVec.allOnes f.bits) := by
  have low := (a.word 0).isLt
  have low' := (b.word 0).isLt
  have high := (a.word 1).isLt
  have high' := (b.word 1).isLt
  have carry := @carryOut (2 ^ f.bits) (first a b) (by unfold first; omega)
  have full : b.word 1 = BitVec.allOnes f.bits ↔ (b.word 1).toNat + 1 = 2 ^ f.bits := by
    rw [← BitVec.toNat_inj, BitVec.toNat_allOnes]
    omega
  have out := @carryOut (2 ^ f.bits) (second a b) (by unfold second; rw [carry]; split <;> omega)
  rw [out, full]
  unfold detected
  by_cases wrapped : 2 ^ f.bits ≤ first a b
  · have shape : second a b = (a.word 1).toNat + (b.word 1).toNat + 1 := by
      unfold second
      rw [carry, if_pos wrapped]
    by_cases past : 2 ^ f.bits ≤ second a b
    · have wrapped : second a b % 2 ^ f.bits = second a b - 2 ^ f.bits := by
        rw [Nat.mod_eq_sub_mod past, Nat.mod_eq_of_lt (by omega)]
      rw [wrapped, if_pos past]
      split <;> omega
    · rw [Nat.mod_eq_of_lt (Nat.lt_of_not_le past), if_neg past]
      split <;> omega
  · have shape : second a b = (a.word 1).toNat + (b.word 1).toNat := by
      unfold second
      rw [carry, if_neg wrapped, Nat.add_zero]
    have wraps := wraps high high'
    rw [← shape] at wraps
    simp only [wraps, wrapped, false_and, not_false_eq_true]

theorem sumWords (a b : Code f) : value (mortonAdd a b) = (value a + value b) % 2 ^ f.total ↔
    words (mortonAdd a b) = sum (2 ^ f.bits) 0 (words a) (words b) := by
  have positive := Nat.two_pow_pos f.bits
  have same : (words a).length = (words b).length := (wordsLength a).trans (wordsLength b).symm
  have exact_ := @sumNumber (2 ^ f.bits) positive (words a) (words b) same 0
  rw [wordsNumber, wordsNumber, wordsLength, ← totalPower, Nat.add_zero] at exact_
  rw [← exact_, ← wordsNumber]
  constructor
  · refine numberInj ?_ (wordsBounded _) (sumBounded positive 0 _ _)
    rw [sumLength same, wordsLength, wordsLength]
  · exact fun equal => by rw [equal]

theorem addExact (a b : Code f) : value (mortonAdd a b) = (value a + value b) % 2 ^ f.total ↔ ¬Missed a b := by
  rw [sumWords]
  have exact_ := detectedIff a b
  have one := firstWord a b
  have two := secondWord a b
  have three := thirdWord a b
  unfold Missed words
  cases f with
  | m32 | m64 =>
    refine iff_of_true ?_ fun missed => absurd missed.1 (by decide)
    change [((mortonAdd a b).word 0).toNat] = _
    rw [one]
    rfl
  | m128 =>
    refine iff_of_true ?_ fun missed => absurd missed.1 (by decide)
    change [((mortonAdd a b).word 0).toNat, ((mortonAdd a b).word 1).toNat] = _
    rw [one, two (by decide)]
    rfl
  | m192 =>
    have some_ : (2 < Format.count .m192) = True := eq_true (by decide)
    rw [some_, true_and]
    refine Iff.trans ?_ exact_
    change [((mortonAdd a b).word 0).toNat, ((mortonAdd a b).word 1).toNat, ((mortonAdd a b).word 2).toNat] =
      [first a b % 2 ^ 64, second a b % 2 ^ 64, ((a.word 2).toNat + (b.word 2).toNat + second a b / 2 ^ 64) % 2 ^ 64] ↔ _
    rw [one, two (by decide), three (by decide)]
    have least : detected a b ≤ 1 := by
      unfold detected
      split <;> omega
    have most : second a b / 2 ^ 64 ≤ 1 := by
      have low := (a.word 0).isLt
      have low' := (b.word 0).isLt
      have high := (a.word 1).isLt
      have high' := (b.word 1).isLt
      change _ < 2 ^ 64 at low low' high high'
      change ((a.word 1).toNat + (b.word 1).toNat + ((a.word 0).toNat + (b.word 0).toNat) / 2 ^ 64) / 2 ^ 64 ≤ 1
      omega
    simp only [List.cons.injEq, and_true]
    change _ ∧ _ ∧ ((a.word 2).toNat + (b.word 2).toNat + detected a b) % 2 ^ 64 =
      ((a.word 2).toNat + (b.word 2).toNat + second a b / 2 ^ 64) % 2 ^ 64 ↔ detected a b = second a b / 2 ^ 64
    constructor
    · rintro ⟨_, _, same⟩
      omega
    · intro same
      rw [same]
      exact ⟨rfl, rfl, rfl⟩

-- The carry out of the middle word is lost: the first words wrap, and the second ones are zero and all ones.
def firstFull : Code .m192 := ⟨fun k => if k.val = 0 then BitVec.allOnes 64 else 0⟩
def rippling : Code .m192 := ⟨fun k => if k.val = 0 then 1 else if k.val = 1 then BitVec.allOnes 64 else 0⟩

theorem rippleLost : ¬∀ (f : Format) (a b : Code f), 1 < f.count →
    value (mortonAdd a b) = (value a + value b) % 2 ^ f.total := by
  intro all
  have lost : value (mortonAdd firstFull rippling) ≠ (value firstFull + value rippling) % 2 ^ Format.total .m192 := by
    decide
  exact lost (all .m192 firstFull rippling (by decide))

end Dewfall.MortonAdd
