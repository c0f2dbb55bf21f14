import Dewfall.Core.MortonDigits

/-! Child masks written and read level by level, the mask of a level, and the order of codes. Levels are
those whose three bits the type has; the bits above the last of them belong to no level. -/
namespace Dewfall.MortonLevels
open General.Cells Morton MortonTree MortonDigits

variable {f : Format}

/-! ## Comparison -/

-- The higher words decide with the first relation, the lowest one with the second.
def ordered (strict last : Nat → Nat → Bool) (a b : Code f) : Bool :=
  if 2 < f.count ∧ a.word 2 ≠ b.word 2 then strict (a.word 2).toNat (b.word 2).toNat
  else if 1 < f.count ∧ a.word 1 ≠ b.word 1 then strict (a.word 1).toNat (b.word 1).toNat
  else last (a.word 0).toNat (b.word 0).toNat

def lessEqual (a b : Code f) : Bool := ordered (· < ·) (· ≤ ·) a b
def greater (a b : Code f) : Bool := ordered (· > ·) (· > ·) a b
def greaterEqual (a b : Code f) : Bool := ordered (· > ·) (· ≥ ·) a b

-- Child masks from the highest of so many levels down.
def masksLess (a b : Code f) : Nat → Bool
  | 0 => false
  | lod + 1 =>
    if getChildMaskIn lod a = getChildMaskIn lod b then masksLess a b lod
    else getChildMaskIn lod a < getChildMaskIn lod b

def levels (f : Format) : Nat := f.total / 3

-- The bits above the highest level.
def spare (c : Code f) : Nat := value c / 8 ^ levels f

theorem lessOrdered (a b : Code f) : less a b = ordered (· < ·) (· < ·) a b := rfl

theorem orderedSwapped {strict last strict' last' : Nat → Nat → Bool} (a b : Code f)
    (high : ∀ x y, x ≠ y → strict x y = strict' y x) (low : ∀ x y, last x y = last' y x) :
    ordered strict last a b = ordered strict' last' b a := by
  unfold ordered
  by_cases two : 2 < f.count ∧ a.word 2 ≠ b.word 2
  · rw [if_pos two, if_pos (two.imp_right Ne.symm)]
    exact high _ _ fun same => two.2 (BitVec.eq_of_toNat_eq same)
  · have two' : ¬(2 < f.count ∧ b.word 2 ≠ a.word 2) := fun swapped => two (swapped.imp_right Ne.symm)
    rw [if_neg two, if_neg two']
    by_cases one : 1 < f.count ∧ a.word 1 ≠ b.word 1
    · rw [if_pos one, if_pos (one.imp_right Ne.symm)]
      exact high _ _ fun same => one.2 (BitVec.eq_of_toNat_eq same)
    · have one' : ¬(1 < f.count ∧ b.word 1 ≠ a.word 1) := fun swapped => one (swapped.imp_right Ne.symm)
      rw [if_neg one, if_neg one']
      exact low _ _

theorem orderedNot (strict last : Nat → Nat → Bool) (a b : Code f) :
    ordered (fun x y => !strict x y) (fun x y => !last x y) a b = !ordered strict last a b := by
  unfold ordered
  split
  · rfl
  · split <;> rfl

theorem lessEqualNot (a b : Code f) : lessEqual a b = !less b a := by
  rw [lessOrdered, ← orderedNot]
  refine orderedSwapped a b (fun x y apart => ?_) fun x y => ?_
  · rw [← decide_not, decide_eq_decide]
    omega
  · rw [← decide_not, decide_eq_decide]
    omega

theorem greaterLess (a b : Code f) : greater a b = less b a := orderedSwapped a b (fun _ _ _ => rfl) fun _ _ => rfl

theorem greaterEqualNot (a b : Code f) : greaterEqual a b = !less a b :=
  (orderedSwapped a b (fun _ _ _ => rfl) fun _ _ => rfl : greaterEqual a b = lessEqual b a).trans (lessEqualNot b a)

/-! ## Levels of a code -/

theorem levelsWhole (f : Format) : levels f * 3 ≤ f.total := Nat.div_mul_le_self _ _

theorem masksBelow (a b : Code f) {n : Nat} (stored : n * 3 ≤ f.total) :
    masksLess a b n = decide (value a % 8 ^ n < value b % 8 ^ n) := by
  induction n with
  | zero => simp [masksLess, Nat.mod_one]
  | succ n ih =>
    have fits : n * 3 + 3 ≤ f.total := by omega
    have split : ∀ c : Nat, c % 8 ^ (n + 1) = c % 8 ^ n + 8 ^ n * digit n c := fun c => by
      rw [digit, Nat.pow_succ, Nat.mod_mul]
    have least := Nat.mod_lt (value a) (powPositive n)
    have least' := Nat.mod_lt (value b) (powPositive n)
    rw [masksLess, getChildMaskInDigit a fits, getChildMaskInDigit b fits, split, split]
    by_cases same : digit n (value a) = digit n (value b)
    · rw [if_pos same, ih (by omega), same, decide_eq_decide]
      omega
    · rw [if_neg same, decide_eq_decide, hornerLt least least']
      exact ⟨Or.inl, fun less => less.resolve_right fun both => same both.1⟩

theorem getSet {lod mask : Nat} (c : Code f) (octant : mask < 8) (stored : lod * 3 + 3 ≤ f.total) :
    getChildMaskIn lod (setChildMask lod mask c) = mask := by
  rw [getChildMaskInDigit _ stored]
  apply Nat.eq_of_testBit_eq
  intro j
  rw [digitBit, valueBit]
  by_cases low : j < 3
  · rw [setChildMaskBit c octant stored (by omega), if_pos (by omega), decide_eq_true low, Bool.true_and]
    congr 1
    omega
  · have high : mask < 2 ^ j := octant.trans_le (Nat.pow_le_pow_right (by decide) (by omega) : 2 ^ 3 ≤ 2 ^ j)
    rw [decide_eq_false low, Bool.false_and, Nat.testBit_lt_two_pow high]

theorem getSetOther {lod mask other : Nat} (c : Code f) (octant : mask < 8) (stored : lod * 3 + 3 ≤ f.total)
    (inside : other * 3 + 3 ≤ f.total) (apart : other ≠ lod) :
    getChildMaskIn other (setChildMask lod mask c) = getChildMaskIn other c := by
  rw [getChildMaskInDigit _ inside, getChildMaskInDigit _ inside]
  apply Nat.eq_of_testBit_eq
  intro j
  rw [digitBit, digitBit, valueBit, valueBit]
  by_cases low : j < 3
  · rw [setChildMaskBit c octant stored (by omega), if_neg (by omega)]
  · rw [decide_eq_false low, Bool.false_and, Bool.false_and]

theorem maskOnes {lod : Nat} (stored : lod * 3 + 3 ≤ f.total) :
    (∀ i < f.total, (maskCreate f lod).bit i = decide (i < lod * 3 + 3)) ↔ ¬(f = .m192 ∧ lod = 63) := by
  constructor
  · rintro exact_ ⟨rfl, rfl⟩
    have bit := exact_ 128 (by decide)
    rw [maskCreateBit stored (by decide)] at bit
    exact absurd bit (by decide)
  · intro inner i inside
    rw [maskCreateBit stored inside, if_neg]
    intro whole
    refine inner ⟨?_, by omega⟩
    cases f with
    | m192 => rfl
    | m32 | m64 | m128 =>
      have short := stored.trans (by decide : _ ≤ 128)
      omega

-- The spare bits are the same, or they are in the order of the masks.
def SpareAgree (a b : Code f) : Prop :=
  spare a = spare b ∨ (spare a < spare b ∧ masksLess a b (levels f)) ∨ (spare b < spare a ∧ masksLess b a (levels f))

theorem lessDecide (a b : Code f) : less a b = decide (value a < value b) := by
  rw [Bool.eq_iff_iff, lessValue, decide_eq_true_eq]

theorem masksDecide (a b : Code f) : (less a b = masksLess a b (levels f) ∧ less b a = masksLess b a (levels f)) ↔
    SpareAgree a b := by
  have least := Nat.mod_lt (value a) (powPositive (levels f))
  have least' := Nat.mod_lt (value b) (powPositive (levels f))
  have split : ∀ c : Code f, value c = value c % 8 ^ levels f + 8 ^ levels f * spare c := fun c =>
    (Nat.mod_add_div (value c) (8 ^ levels f)).symm
  have forward := hornerLt (x := spare a) (y := spare b) least least'
  have backward := hornerLt (x := spare b) (y := spare a) least' least
  rw [← split, ← split] at forward backward
  unfold SpareAgree
  rw [lessDecide, lessDecide, masksBelow a b (levelsWhole f), masksBelow b a (levelsWhole f), decide_eq_decide,
    decide_eq_decide, decide_eq_true_eq, decide_eq_true_eq, forward, backward]
  omega

structure LevelExact (lod mask : Nat) (c a b : Code f) : Prop where
  back : getChildMaskIn lod (setChildMask lod mask c) = mask
  others : ∀ other, other * 3 + 3 ≤ f.total → other ≠ lod →
    getChildMaskIn other (setChildMask lod mask c) = getChildMaskIn other c
  ones : ∀ i < f.total, (maskCreate f lod).bit i = decide (i < lod * 3 + 3)
  less : less a b = masksLess a b (levels f)
  lessEqual : lessEqual a b = !masksLess b a (levels f)
  greater : greater a b = masksLess b a (levels f)
  greaterEqual : greaterEqual a b = !masksLess a b (levels f)

theorem levelExactIff {lod mask : Nat} (c a b : Code f) (octant : mask < 8) (stored : lod * 3 + 3 ≤ f.total) :
    LevelExact lod mask c a b ↔ ¬(f = .m192 ∧ lod = 63) ∧ SpareAgree a b := by
  constructor
  · intro level
    exact ⟨(maskOnes stored).mp level.ones, (masksDecide a b).mp ⟨level.less, (greaterLess a b).symm.trans level.greater⟩⟩
  · rintro ⟨inner, agree⟩
    obtain ⟨forward, backward⟩ := (masksDecide a b).mpr agree
    exact ⟨getSet c octant stored, fun other inside apart => getSetOther c octant stored inside apart,
      (maskOnes stored).mpr inner, forward, (lessEqualNot a b).trans (congrArg not backward),
      (greaterLess a b).trans backward, (greaterEqualNot a b).trans (congrArg not forward)⟩

-- The level whose bits are split over the words of the widest type.
theorem straddlingExact : LevelExact (f := .m192) 42 5 (maskCreate .m192 62) (maskCreate .m192 41) (maskCreate .m192 42) :=
  (levelExactIff _ _ _ (by decide) (by decide)).mpr ⟨by decide, Or.inl (by decide)⟩

theorem topMaskShort : ¬∀ (f : Format) (lod mask : Nat) (c a b : Code f), mask < 8 → lod * 3 + 3 ≤ f.total →
    LevelExact lod mask c a b := by
  intro all
  have level := all .m192 63 0 (maskCreate .m192 0) (maskCreate .m192 0) (maskCreate .m192 0) (by decide) (by decide)
  exact absurd (level.ones 191 (by decide)) (by decide)

end Dewfall.MortonLevels
