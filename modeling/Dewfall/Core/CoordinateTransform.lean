import Dewfall.Core.MortonDigits
import Dewfall.Core.MortonInterleave
import Mathlib.Data.Rat.Floor

/-! Positions as codes and codes as positions. The arithmetic of doubles is a parameter; its rational instance is
exact where no result has to be rounded. Nothing is claimed about rounding. -/
namespace Dewfall.CoordinateTransform
open Morton MortonInterleave

structure Doubles (α : Type) where
  ofInt32 : BitVec 32 → α
  ofUInt64 : BitVec 64 → α
  toInt64 : α → BitVec 64
  toUInt64 : α → BitVec 64
  add : α → α → α
  sub : α → α → α
  mul : α → α → α
  div : α → α → α
  round : α → α
  less : α → α → Bool
  same : α → α → Bool
  one : α
  max : α
  lowest : α

abbrev Point (α : Type) := Fin 3 → α

section
variable {α : Type} (d : Doubles α) (lib : Libmorton)

def convertMortonToPos {f : Format} (scale : α) (offset : Point α) (morton : Code f) : Point α := fun k =>
  d.add (d.mul (d.ofUInt64 (decode lib morton k)) scale) (offset k)

def convertPosToMorton (f : Format) (scale : α) (offset pos : Point α) : Code f :=
  encode lib (fun k => d.toUInt64 (d.round (d.div (d.sub (pos k) (offset k)) scale))) f

end

/-! ## Rationals for doubles -/

-- A word above 53 bits is rounded to the nearest even.
def nearest (n : Nat) : Nat :=
  let shift := Nat.log2 n - 52
  let half := 2 ^ shift
  let rest := n % half
  if half < 2 * rest ∨ 2 * rest = half ∧ n / half % 2 = 1 then (n / half + 1) * half else n / half * half

-- Half away from zero.
def roundAway (q : Rat) : Rat := if q < 0 then -((1 / 2 - q).floor : Rat) else (q + 1 / 2).floor

def towardsZero (q : Rat) : Int := if q < 0 then -(-q).floor else q.floor

def rational : Doubles Rat where
  ofInt32 w := w.toInt
  ofUInt64 w := nearest w.toNat
  toInt64 q := BitVec.ofInt 64 (towardsZero q)
  toUInt64 q := BitVec.ofInt 64 (towardsZero q)
  add := (· + ·)
  sub := (· - ·)
  mul := (· * ·)
  div := (· / ·)
  round := roundAway
  less a b := decide (a < b)
  same a b := decide (a = b)
  one := 1
  max := 2 ^ 1024 - 2 ^ 971
  lowest := 2 ^ 971 - 2 ^ 1024

end Dewfall.CoordinateTransform
