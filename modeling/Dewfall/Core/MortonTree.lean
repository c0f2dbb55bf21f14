import Dewfall.Core.Morton
import Dewfall.General.Cells

/-! Morton codes as numbers: the level at which two codes part, child masks, the cells of nodes and
trees, and the casts to a stored width. Shifts past the code's width are left out: a tree's
magnitude stays below twelve. -/
namespace Dewfall.MortonTree
open General General.Cells Morton

def digits (f : Format) : Nat := f.capacity / 3

def mortonLod (a b : Nat) : Nat := Nat.log2 (a ^^^ b) / 3
def mortonMagnitude (a b : Nat) : Nat := mortonLod a b / 5
def magnitudeToLod (magnitude : Nat) : Nat := magnitude * 5 + 4

def getChildMask (lod c : Nat) : Nat := digit lod c
def setChildMask (lod mask c : Nat) : Nat := floor (lod + 1) c + mask * 8 ^ lod + c % 8 ^ lod

-- `morton_and` with the negated mask of a level, and `morton_or` with the mask.
def maskMin (lod c : Nat) : Nat := floor (lod + 1) c
def maskMax (lod c : Nat) : Nat := floor (lod + 1) c + (8 ^ (lod + 1) - 1)

def downcast (f : Format) (c : Nat) : Nat := c % 8 ^ digits f
def upcast (f : Format) (c min : Nat) : Nat := c ||| floor (digits f) min

def typeFromLod (lod : Nat) : Format :=
  let topIndex := lod * 3 + 3
  if topIndex < 32 then .m32
  else if topIndex < 64 then .m64
  else if topIndex < 128 then .m128
  else .m192

theorem levelSplit (f : Format) (lod : Nat) : f.total < lod * 3 + 3 ↔ digits f ≤ lod := by
  cases f <;> simp only [Format.total, Format.bits, Format.count, digits, Format.capacity] <;> omega

-- The narrowest format keeps every digit in which the codes of a unit differ.
theorem typeWide {lod : Nat} (inside : lod < 64) : lod < digits (typeFromLod lod) := by
  unfold typeFromLod
  dsimp only
  split
  · simp only [digits, Format.capacity, Format.total, Format.bits, Format.count]
    omega
  · split
    · simp only [digits, Format.capacity, Format.total, Format.bits, Format.count]
      omega
    · split
      · simp only [digits, Format.capacity, Format.total, Format.bits, Format.count]
        omega
      · simp only [digits, Format.capacity, Format.total, Format.bits, Format.count]
        omega

theorem setChild {lod i min} (aligned : Aligned (lod + 1) min) : setChildMask lod i min = child lod min i := by
  have low : min % 8 ^ lod = 0 := Nat.mod_eq_zero_of_dvd (alignedOf (Nat.le_succ lod) aligned)
  rw [setChildMask, floorOf aligned hasSelf, low, child, Nat.add_zero]

theorem lodSame {a b k : Nat} (near : mortonLod a b < k) : a / 8 ^ k = b / 8 ^ k := by
  refine divSame ?_
  unfold mortonLod at near
  omega

theorem lodLt {a b k : Nat} (positive : 0 < k) (same : a / 8 ^ k = b / 8 ^ k) : mortonLod a b < k := by
  have power : 8 ^ k = 2 ^ (3 * k) := by rw [Nat.pow_mul]
  rw [power] at same
  have zero : (a ^^^ b) / 2 ^ (3 * k) = 0 := by rw [Nat.xor_div_two_pow, same, Nat.xor_self]
  have small : a ^^^ b < 2 ^ (3 * k) := (Nat.div_eq_zero_iff.mp zero).resolve_left
    (Nat.pos_iff_ne_zero.mp (Nat.pow_pos (by decide)))
  unfold mortonLod
  rcases Nat.eq_zero_or_pos (a ^^^ b) with none | apart
  · rw [none]
    exact positive
  · have near := (Nat.log2_lt (Nat.pos_iff_ne_zero.mp apart)).mpr small
    omega

theorem lodBetween {a b c k : Nat} (near : mortonLod a b < k) (low : a ≤ c) (high : c ≤ b) :
    c / 8 ^ k = a / 8 ^ k := betweenSame low high (lodSame near)

theorem upcastSum {f c min} (low : c < 8 ^ digits f) : upcast f c min = floor (digits f) min + c := by
  have power : 8 ^ digits f = 2 ^ (3 * digits f) := by rw [Nat.pow_mul]
  unfold upcast floor
  rw [power] at low ⊢
  rw [Nat.lor_comm, Nat.mul_comm, Nat.two_pow_add_eq_or_of_lt low]

theorem upcastStored {f c min} (same : c / 8 ^ digits f = min / 8 ^ digits f) :
    upcast f (downcast f c) min = c := by
  have low : downcast f c < 8 ^ digits f := Nat.mod_lt _ (powPositive _)
  rw [upcastSum low, downcast, floor, ← same]
  exact Nat.div_add_mod' c (8 ^ digits f)

end Dewfall.MortonTree
