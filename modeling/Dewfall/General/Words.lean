import Mathlib.Algebra.Group.Nat.Defs
import Mathlib.Tactic.Common

/-! Unsigned machine words as natural numbers reduced modulo their width. -/
namespace General

def u32 (n : Nat) : Nat := n % 2 ^ 32
def u64 (n : Nat) : Nat := n % 2 ^ 64

/-- Subtraction as the word computes it, wrapping below zero. -/
def sub32 (a b : Nat) : Nat := u32 (a + (2 ^ 32 - u32 b))
def sub64 (a b : Nat) : Nat := u64 (a + (2 ^ 64 - u64 b))

theorem u32Small {n : Nat} (small : n < 2 ^ 32) : u32 n = n := Nat.mod_eq_of_lt small
theorem u64Small {n : Nat} (small : n < 2 ^ 64) : u64 n = n := Nat.mod_eq_of_lt small
theorem u32Le (n : Nat) : u32 n ≤ n := Nat.mod_le n _
theorem u32Lt (n : Nat) : u32 n < 2 ^ 32 := Nat.mod_lt n (by decide)

theorem sub32Small {a b : Nat} (small : a < 2 ^ 32) (le : b ≤ a) : sub32 a b = a - b := by
  unfold sub32
  rw [u32Small (by omega : b < 2 ^ 32)]
  unfold u32
  omega

theorem sub64Small {a b : Nat} (small : a < 2 ^ 64) (le : b ≤ a) : sub64 a b = a - b := by
  unfold sub64
  rw [u64Small (by omega : b < 2 ^ 64)]
  unfold u64
  omega

end General
