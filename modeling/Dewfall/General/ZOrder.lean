import Mathlib.Algebra.Group.Nat.Defs
import Mathlib.Data.Fin.Basic
import Mathlib.Data.Nat.Bitwise

/-! The order of triples by their interleaved bits, as an order of numbers. It grows with each
coordinate, and a cell of the order is a box of equal sides. -/
namespace General.ZOrder

-- Every bit three places further apart.
def spread (x : Nat) : Nat := if x = 0 then 0 else x % 2 + 8 * spread (x / 2)
termination_by x
decreasing_by omega

-- One proof for the numerals of the three axes.
local instance axesNonzero : NeZero 3 := ⟨by decide⟩

def interleave (p : Fin 3 → Nat) : Nat := spread (p 0) + 2 * spread (p 1) + 4 * spread (p 2)

theorem spreadStep (x : Nat) : spread x = x % 2 + 8 * spread (x / 2) := by
  by_cases zero : x = 0
  · subst zero
    simp [spread]
  · rw [spread, if_neg zero]

theorem spreadLt {x y : Nat} (lt : x < y) : spread x < spread y := by
  induction y using Nat.strong_induction_on generalizing x with
  | _ y ih =>
    rw [spreadStep x, spreadStep y]
    rcases Nat.lt_or_ge (x / 2) (y / 2) with below | above
    · have grown := ih (y / 2) (by omega) below
      omega
    · have same : x / 2 = y / 2 := by omega
      rw [same]
      omega

theorem spreadLe {x y : Nat} (le : x ≤ y) : spread x ≤ spread y := by
  rcases Nat.eq_or_lt_of_le le with same | lt
  · rw [same]
  · exact (spreadLt lt).le

theorem interleaveStep (p : Fin 3 → Nat) :
    interleave p = p 0 % 2 + 2 * (p 1 % 2) + 4 * (p 2 % 2) + 8 * interleave fun k => p k / 2 := by
  simp only [interleave]
  rw [spreadStep (p 0), spreadStep (p 1), spreadStep (p 2)]
  omega

theorem interleaveRest (p : Fin 3 → Nat) : interleave p / 8 = interleave fun k => p k / 2 := by
  rw [interleaveStep]
  omega

theorem interleaveDigit (p : Fin 3 → Nat) : interleave p % 8 = p 0 % 2 + 2 * (p 1 % 2) + 4 * (p 2 % 2) := by
  rw [interleaveStep]
  omega

/-! ## Order -/

theorem interleaveLe {p q : Fin 3 → Nat} (le : ∀ k, p k ≤ q k) : interleave p ≤ interleave q := by
  have x := spreadLe (le 0)
  have y := spreadLe (le 1)
  have z := spreadLe (le 2)
  simp only [interleave]
  omega

/-! ## Bits and cells -/

theorem digitOf {i : Nat} (first : i < 3) (n : Nat) : n.testBit i = (n % 8).testBit i := by
  rw [show 8 = 2 ^ 3 from rfl, Nat.testBit_mod_two_pow, decide_eq_true first, Bool.true_and]

theorem restOf (i n : Nat) : n.testBit (i + 3) = (n / 8).testBit i := by
  rw [show 8 = 2 ^ 3 from rfl, Nat.testBit_div_two_pow]

theorem interleaveBit (p : Fin 3 → Nat) (k : Fin 3) (q : Nat) :
    (interleave p).testBit (3 * q + k.val) = (p k).testBit q := by
  induction q generalizing p with
  | zero =>
    rw [Nat.mul_zero, Nat.zero_add, digitOf k.isLt, interleaveDigit, Nat.testBit_zero]
    have x := Nat.mod_two_eq_zero_or_one (p 0)
    have y := Nat.mod_two_eq_zero_or_one (p 1)
    have z := Nat.mod_two_eq_zero_or_one (p 2)
    obtain rfl | rfl | rfl : k = 0 ∨ k = 1 ∨ k = 2 := by revert k; decide
    · rcases x with x | x <;> rcases y with y | y <;> rcases z with z | z <;> simp [x, y, z]
    · rcases x with x | x <;> rcases y with y | y <;> rcases z with z | z <;> simp [x, y, z] <;> decide
    · rcases x with x | x <;> rcases y with y | y <;> rcases z with z | z <;> simp [x, y, z] <;> decide
  | succ q ih =>
    have place : 3 * (q + 1) + k.val = 3 * q + k.val + 3 := by omega
    rw [place, restOf, interleaveRest, ih, Nat.testBit_succ]

theorem interleaveCell (l : Nat) (p : Fin 3 → Nat) : interleave p / 8 ^ l = interleave fun k => p k / 2 ^ l := by
  induction l generalizing p with
  | zero => simp
  | succ l ih =>
    rw [Nat.pow_succ, Nat.mul_comm, ← Nat.div_div_eq_div_mul, interleaveRest, ih]
    simp only [Nat.div_div_eq_div_mul, Nat.pow_succ, Nat.mul_comm]

theorem interleaveInside {l : Nat} {p : Fin 3 → Nat} (inside : ∀ k, p k < 2 ^ l) : interleave p < 8 ^ l := by
  have none_ : (fun k => p k / 2 ^ l) = fun _ => 0 := funext fun k => Nat.div_eq_of_lt (inside k)
  have cell : interleave p / 8 ^ l = 0 := by
    rw [interleaveCell, none_]
    simp [interleave, spread]
  exact (Nat.div_eq_zero_iff_lt (Nat.pow_pos (by decide))).mp cell

theorem interleaveInj {p q : Fin 3 → Nat} (same : interleave p = interleave q) : p = q := by
  funext k
  apply Nat.eq_of_testBit_eq
  intro i
  rw [← interleaveBit p, same, interleaveBit]

end General.ZOrder
