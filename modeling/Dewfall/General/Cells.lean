import Mathlib.Algebra.Order.Ring.Nat
import Mathlib.Data.Nat.Bitwise
import Mathlib.Tactic.Ring

/-! Cells of codes read as base-eight numerals. A cell of exponent `k` that starts at `min` holds the
codes that agree with it above digit `k`; its eight children have exponent one less. What a tree
keeps in its cells is not treated. -/
namespace General.Cells

def floor (k c : Nat) : Nat := c / 8 ^ k * 8 ^ k

def digit (k c : Nat) : Nat := c / 8 ^ k % 8

def child (k min i : Nat) : Nat := min + i * 8 ^ k

def Has (k min c : Nat) : Prop := min ≤ c ∧ c < min + 8 ^ k

instance (k min c) : Decidable (Has k min c) := by unfold Has; infer_instance

abbrev Aligned (k min : Nat) : Prop := 8 ^ k ∣ min

theorem powPositive (k : Nat) : 0 < 8 ^ k := Nat.pow_pos (by decide)

theorem digitLt (k c : Nat) : digit k c < 8 := Nat.mod_lt _ (by decide)

theorem floorAligned (k c : Nat) : Aligned k (floor k c) := Nat.dvd_mul_left _ _

theorem floorHas (k c : Nat) : Has k (floor k c) c := by
  have split := Nat.div_add_mod c (8 ^ k)
  have small := Nat.mod_lt c (powPositive k)
  rw [Nat.mul_comm] at split
  unfold Has floor
  omega

theorem hasDiv {k min c} (aligned : Aligned k min) : Has k min c ↔ c / 8 ^ k = min / 8 ^ k := by
  obtain ⟨q, rfl⟩ := aligned
  rw [Nat.mul_div_cancel_left q (powPositive k), Nat.div_eq_iff (powPositive k), Has, Nat.mul_comm]
  have positive := powPositive k
  omega

theorem floorOf {k min c} (aligned : Aligned k min) (has : Has k min c) : floor k c = min := by
  rw [floor, (hasDiv aligned).mp has, Nat.div_mul_cancel aligned]

theorem hasSelf {k min : Nat} : Has k min min := ⟨Nat.le_refl _, Nat.lt_add_of_pos_right (powPositive k)⟩

theorem alignedOf {k j min : Nat} (le : j ≤ k) (aligned : Aligned k min) : Aligned j min :=
  (Nat.pow_dvd_pow 8 le).trans aligned

theorem childAligned {k min i} (aligned : Aligned (k + 1) min) : Aligned k (child k min i) :=
  Nat.dvd_add (alignedOf (Nat.le_succ k) aligned) (Nat.dvd_mul_left _ _)

theorem childDiv {k min i} (aligned : Aligned (k + 1) min) (octant : i < 8) :
    child k min i / 8 ^ k = min / 8 ^ (k + 1) * 8 + i ∧ child k min i / 8 ^ (k + 1) = min / 8 ^ (k + 1) := by
  obtain ⟨q, rfl⟩ := aligned
  have whole : child k (8 ^ (k + 1) * q) i = 8 ^ k * (q * 8 + i) := by unfold child; ring
  have above : 8 ^ k * (q * 8 + i) / 8 ^ (k + 1) = q := by
    rw [Nat.pow_succ, ← Nat.div_div_eq_div_mul, Nat.mul_div_cancel_left _ (powPositive k)]
    omega
  rw [whole, Nat.mul_div_cancel_left _ (powPositive k), Nat.mul_div_cancel_left _ (powPositive (k + 1))]
  exact ⟨rfl, above⟩

theorem childHas {k min i c} (aligned : Aligned (k + 1) min) (octant : i < 8) :
    Has k (child k min i) c ↔ Has (k + 1) min c ∧ digit k c = i := by
  rw [hasDiv (childAligned aligned), hasDiv aligned, (childDiv aligned octant).1, digit]
  have split : c / 8 ^ (k + 1) = c / 8 ^ k / 8 := by rw [Nat.div_div_eq_div_mul, Nat.pow_succ]
  rw [split]
  omega

theorem childWithin {k min i c} (aligned : Aligned (k + 1) min) (octant : i < 8) (has : Has k (child k min i) c) :
    Has (k + 1) min c := ((childHas aligned octant).mp has).1

theorem childDigit {k min c} (aligned : Aligned (k + 1) min) (has : Has (k + 1) min c) :
    Has k (child k min (digit k c)) c := (childHas aligned (digitLt k c)).mpr ⟨has, rfl⟩

theorem childOf {k min i c} (aligned : Aligned (k + 1) min) (octant : i < 8) (has : Has k (child k min i) c) :
    digit k c = i := ((childHas aligned octant).mp has).2

theorem childEnd (k min : Nat) : child k min 8 = min + 8 ^ (k + 1) := by
  unfold child
  rw [Nat.pow_succ]
  ring

theorem childStop (k min i : Nat) : child k min i + 8 ^ k = child k min (i + 1) := by
  unfold child
  ring

theorem childZero (k min : Nat) : child k min 0 = min := by simp [child]

theorem childLe {k min i j : Nat} (le : i ≤ j) : child k min i ≤ child k min j :=
  Nat.add_le_add_left (Nat.mul_le_mul_right _ le) _

/-! ## Codes that agree above a digit -/

theorem divSame {k a b} (near : Nat.log2 (a ^^^ b) < 3 * k) : a / 8 ^ k = b / 8 ^ k := by
  have power : 8 ^ k = 2 ^ (3 * k) := by rw [Nat.pow_mul]
  have small : a ^^^ b < 2 ^ (3 * k) := by
    rcases Nat.eq_zero_or_pos (a ^^^ b) with same | apart
    · rw [same]
      exact Nat.pow_pos (by decide)
    · exact (Nat.log2_lt (Nat.pos_iff_ne_zero.mp apart)).mp near
  have zero : a / 2 ^ (3 * k) ^^^ b / 2 ^ (3 * k) = 0 := by
    rw [← Nat.xor_div_two_pow]
    exact Nat.div_eq_of_lt small
  rw [power]
  exact Nat.xor_eq_zero_iff.mp zero

theorem betweenSame {w a b c : Nat} (low : a ≤ c) (high : c ≤ b) (same : a / w = b / w) : c / w = a / w := by
  have first := Nat.div_le_div_right (c := w) low
  have second := Nat.div_le_div_right (c := w) high
  omega

theorem digitSame {k a b} (same : a / 8 ^ k = b / 8 ^ k) : digit k a = digit k b := by
  rw [digit, digit, same]

end General.Cells
