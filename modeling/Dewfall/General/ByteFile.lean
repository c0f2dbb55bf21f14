import Mathlib.Data.List.Basic
import Mathlib.Tactic.Common

/-! Files as functions from positions to bytes: reading a range, writing one, and when a range
keeps its contents. End of file is not modelled. -/
namespace General.ByteFile

abbrev File := Nat → UInt8

def slice (f : File) (offset count : Nat) : List UInt8 :=
  (List.range count).map fun i => f (offset + i)

def overlay (f : File) (offset : Nat) (data : List UInt8) : File := fun p =>
  if offset ≤ p then (data[p - offset]?).getD (f p) else f p

def Holds (f : File) (offset : Nat) (data : List UInt8) : Prop :=
  ∀ i (h : i < data.length), f (offset + i) = data[i]

def Apart (a m b n : Nat) : Prop := a + m ≤ b ∨ b + n ≤ a

instance (a m b n) : Decidable (Apart a m b n) := by unfold Apart; infer_instance

theorem apartSymm {a m b n : Nat} (apart : Apart a m b n) : Apart b n a m := Or.symm apart

theorem apartOther {a m b n : Nat} (apart : Apart a m b n) (first : 0 < m) (second : 0 < n) : a ≠ b := by
  unfold Apart at apart
  omega

@[simp] theorem sliceLength (f : File) (offset count : Nat) : (slice f offset count).length = count := by
  simp [slice]

theorem sliceGet {f : File} {offset count i : Nat} (h : i < (slice f offset count).length) :
    (slice f offset count)[i] = f (offset + i) := by
  simp [slice]

theorem overlayInside {f : File} {offset i : Nat} {data : List UInt8} (h : i < data.length) :
    overlay f offset data (offset + i) = data[i] := by
  unfold overlay
  rw [if_pos (Nat.le_add_right _ _), Nat.add_sub_cancel_left, List.getElem?_eq_getElem h]
  rfl

theorem overlayOutside {f : File} {offset p : Nat} {data : List UInt8}
    (h : p < offset ∨ offset + data.length ≤ p) : overlay f offset data p = f p := by
  unfold overlay
  split
  · rename_i le
    rw [List.getElem?_eq_none (by omega)]
    rfl
  · rfl

theorem holdsNil (f : File) (offset : Nat) : Holds f offset [] := fun _ h => absurd h (Nat.not_lt_zero _)

theorem holdsOverlay (f : File) (offset : Nat) (data : List UInt8) :
    Holds (overlay f offset data) offset data := fun _ h => overlayInside h

theorem holdsApart {f : File} {a b : Nat} {data other : List UInt8} (holds : Holds f a data)
    (apart : Apart a data.length b other.length) : Holds (overlay f b other) a data := by
  intro i h
  rw [overlayOutside (by unfold Apart at apart; omega)]
  exact holds i h

theorem holdsAppend {f : File} {offset : Nat} {data more : List UInt8} :
    Holds f offset (data ++ more) ↔ Holds f offset data ∧ Holds f (offset + data.length) more := by
  constructor
  · intro holds
    refine ⟨fun i h => ?_, fun i h => ?_⟩
    · have step := holds i (by rw [List.length_append]; omega)
      rwa [List.getElem_append_left h] at step
    · have step := holds (data.length + i) (by rw [List.length_append]; omega)
      rw [List.getElem_append_right (Nat.le_add_right _ _)] at step
      rw [Nat.add_assoc, step]
      congr 1
      omega
  · rintro ⟨first, second⟩ i h
    by_cases low : i < data.length
    · rw [List.getElem_append_left low]
      exact first i low
    · rw [List.getElem_append_right (Nat.le_of_not_lt low)]
      have step := second (i - data.length) (by rw [List.length_append] at h; omega)
      rwa [Nat.add_assoc, Nat.add_sub_cancel' (Nat.le_of_not_lt low)] at step

theorem holdsSlice {f : File} {offset : Nat} {data : List UInt8} (holds : Holds f offset data)
    {skip count : Nat} (fits : skip + count ≤ data.length) :
    slice f (offset + skip) count = (data.drop skip).take count := by
  refine List.ext_getElem ?_ fun i h _ => ?_
  · rw [sliceLength, List.length_take, List.length_drop]
    omega
  · rw [sliceLength] at h
    rw [sliceGet, List.getElem_take, List.getElem_drop, Nat.add_assoc]
    exact holds (skip + i) (by omega)

end General.ByteFile
