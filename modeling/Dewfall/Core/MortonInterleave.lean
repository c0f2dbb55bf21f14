import Mathlib.Data.BitVec
import Dewfall.Core.Morton

/-! Encoding three coordinates to a morton code and decoding it, in the four widths. The single-word
interleave of libmorton is a parameter; how the wide codes are stitched from it is not. -/
namespace Dewfall.MortonInterleave
open Morton

abbrev Position := Fin 3 → BitVec 64

def lane {α : Type} (x y z : α) (k : Nat) : α :=
  if k = 0 then x else if k = 1 then y else z

structure Libmorton where
  morton3D_64_encode : BitVec 64 → BitVec 64 → BitVec 64 → BitVec 64
  morton3D_64_decode : BitVec 64 → Fin 3 → BitVec 64
  morton3D_32_encode : BitVec 64 → BitVec 64 → BitVec 64 → BitVec 32
  morton3D_32_decode : BitVec 32 → Fin 3 → BitVec 64

-- Whether a word's last bit, the 22nd of its first lane, is decoded depends on the library's method.
structure Libmorton.Interleaves (lib : Libmorton) : Prop where
  encoded64 : ∀ x y z j, j < 64 →
    (lib.morton3D_64_encode x y z).getLsbD j = (lane x y z (j % 3)).getLsbD (j / 3)
  decoded64 : ∀ m k q, q < 21 → (lib.morton3D_64_decode m k).getLsbD q = m.getLsbD (3 * q + k.val)
  spare64 : ∀ m k q, 21 ≤ q → (lib.morton3D_64_decode m k).getLsbD q = true → m.getLsbD (3 * q + k.val) = true
  encoded32 : ∀ x y z j, j < 32 →
    (lib.morton3D_32_encode x y z).getLsbD j = (lane x y z (j % 3)).getLsbD (j / 3)
  decoded32 : ∀ m k q, (lib.morton3D_32_decode m k).getLsbD q = m.getLsbD (3 * q + k.val)

-- `(uint64_t(1) << n) - 1`
def mask64 (n : Nat) : BitVec 64 := (1#64 <<< n) - 1#64

/-! ## encode -/

section
variable (lib : Libmorton) (pos : Position)

-- The pieces are `uint32_t`.
def piece (p : BitVec 64) : BitVec 64 := (p.setWidth 32).setWidth 64

def encodeLow : BitVec 64 :=
  lib.morton3D_64_encode (piece (pos 0 &&& mask64 22)) (piece (pos 1 &&& mask64 21)) (piece (pos 2 &&& mask64 21))

def encodeMid : BitVec 64 :=
  lib.morton3D_64_encode (piece (pos 1 >>> 21 &&& mask64 22)) (piece (pos 2 >>> 21 &&& mask64 21))
    (piece (pos 0 >>> 22 &&& mask64 21))

def encodeHigh : BitVec 64 :=
  lib.morton3D_64_encode (piece (pos 2 >>> (21 + 21))) (piece (pos 0 >>> (22 + 21))) (piece (pos 1 >>> (21 + 22)))

def encode192 : Code .m192 where
  data k := match k.val with
    | 0 => encodeLow lib pos
    | 1 => encodeMid lib pos
    | _ => encodeHigh lib pos

def encode128 : Code .m128 where
  data k := match k.val with
    | 0 => encodeLow lib pos
    | _ => encodeMid lib pos &&& mask64 62

def encode64 : Code .m64 where
  data _ := lib.morton3D_64_encode (piece (pos 0)) (piece (pos 1)) (piece (pos 2)) &&& mask64 63

def encode32 : Code .m32 where
  data _ := lib.morton3D_32_encode (pos 0) (pos 1) (pos 2) &&& ((1#32 <<< 30) - 1#32)

def encode : (f : Format) → Code f
  | .m32 => encode32 lib pos
  | .m64 => encode64 lib pos
  | .m128 => encode128 lib pos
  | .m192 => encode192 lib pos

end

/-! ## decode -/

section
variable (lib : Libmorton)

def decode192 (morton : Code .m192) : Position :=
  let data : Nat → BitVec 64 := morton.word
  let lower := lib.morton3D_64_decode (data 0)
  let mid := lib.morton3D_64_decode (data 1)
  let high := lib.morton3D_64_decode (data 2)
  lane
    (lower 0 ||| (data 0 >>> 63) <<< 21 ||| mid 2 <<< 22 ||| high 1 <<< (22 + 21))
    (lower 1 ||| (data 1 >>> 63) <<< (21 + 21) ||| mid 0 <<< 21 ||| high 2 <<< (21 + 22))
    (lower 2 ||| (data 2 >>> 63) <<< 63 ||| mid 1 <<< 21 ||| high 0 <<< (21 + 21)) ∘ Fin.val

def decode128 (morton : Code .m128) : Position :=
  let data : Nat → BitVec 64 := morton.word
  let lower := lib.morton3D_64_decode (data 0)
  let mid := lib.morton3D_64_decode (data 1)
  lane
    (lower 0 ||| (data 0 >>> 63) <<< 21 ||| mid 2 <<< 22)
    (lower 1 ||| (data 1 >>> 63) <<< (21 + 21) ||| mid 0 <<< 21)
    (lower 2 ||| mid 1 <<< 21) ∘ Fin.val

-- The overloads differ in the width of the decoded integers.
def decode64 (width : Nat) (morton : Code .m64) : Fin 3 → BitVec width :=
  let data : BitVec 64 := morton.word 0
  let tmp := lib.morton3D_64_decode data
  lane ((tmp 0 ||| (data >>> 63) <<< 21).setWidth width) ((tmp 1).setWidth width)
    ((tmp 2).setWidth width) ∘ Fin.val

def decode32 (width : Nat) (morton : Code .m32) : Fin 3 → BitVec width :=
  let tmp := lib.morton3D_32_decode (morton.word 0)
  fun k => (tmp k).setWidth width

def decode : {f : Format} → Code f → Position
  | .m32, morton => decode32 lib 64 morton
  | .m64, morton => decode64 lib 64 morton
  | .m128, morton => decode128 lib morton
  | .m192, morton => decode192 lib morton

end

/-! ## What each bit is -/

section
variable {lib : Libmorton}

def axisBit (pos : Position) (k q : Nat) : Bool := (lane (pos 0) (pos 1) (pos 2) k).getLsbD q

theorem wordBit {f : Format} (a : Code f) {i : Nat} (k j : Nat) (place : i = f.bits * k + j) (inside : j < f.bits) :
    a.bit i = (a.word k).getLsbD j := by
  rw [place]
  exact bitWord inside

theorem mask64Bit {n : Nat} (q : Nat) (small : n < 64) : (mask64 n).getLsbD q = decide (q < n) := by
  have value : (mask64 n).toNat = 2 ^ n - 1 := by
    have bound : 2 ^ n < 2 ^ 64 := Nat.pow_lt_pow_right (by decide) small
    have positive : 0 < 2 ^ n := Nat.two_pow_pos n
    rw [mask64, BitVec.toNat_sub, BitVec.toNat_shiftLeft, Nat.shiftLeft_eq]
    simp only [BitVec.toNat_ofNat]
    omega
  rw [BitVec.getLsbD, value, Nat.testBit_two_pow_sub_one]

theorem pieceBit (p : BitVec 64) (q : Nat) : (piece p).getLsbD q = (decide (q < 32) && p.getLsbD q) := by
  rw [piece, BitVec.getLsbD_setWidth, BitVec.getLsbD_setWidth]
  by_cases low : q < 32
  · simp [low, show q < 64 by omega]
  · simp [low]

theorem encodeLowBit (works : lib.Interleaves) (pos : Position) {j : Nat} (inside : j < 64) :
    (encodeLow lib pos).getLsbD j = axisBit pos (j % 3) (j / 3) := by
  rw [encodeLow, works.encoded64 _ _ _ j inside, axisBit]
  have digit : j % 3 = 0 ∨ j % 3 = 1 ∨ j % 3 = 2 := by omega
  rcases digit with zero | one | two
  · simp [lane, zero, pieceBit, mask64Bit, show j / 3 < 22 by omega, show j / 3 < 32 by omega]
  · simp [lane, one, pieceBit, mask64Bit, show j / 3 < 21 by omega, show j / 3 < 32 by omega]
  · simp [lane, two, pieceBit, mask64Bit, show j / 3 < 21 by omega, show j / 3 < 32 by omega]

theorem encodeMidBit (works : lib.Interleaves) (pos : Position) {j : Nat} (inside : j < 64) :
    (encodeMid lib pos).getLsbD j = axisBit pos ((64 + j) % 3) ((64 + j) / 3) := by
  rw [encodeMid, works.encoded64 _ _ _ j inside, axisBit]
  have digit : j % 3 = 0 ∨ j % 3 = 1 ∨ j % 3 = 2 := by omega
  rcases digit with zero | one | two
  · simp [lane, zero, pieceBit, mask64Bit, show j / 3 < 22 by omega, show j / 3 < 32 by omega,
      show (64 + j) % 3 = 1 by omega, show (64 + j) / 3 = 21 + j / 3 by omega]
  · simp [lane, one, pieceBit, mask64Bit, show j / 3 < 21 by omega, show j / 3 < 32 by omega,
      show (64 + j) % 3 = 2 by omega, show (64 + j) / 3 = 21 + j / 3 by omega]
  · simp [lane, two, pieceBit, mask64Bit, show j / 3 < 21 by omega, show j / 3 < 32 by omega,
      show (64 + j) % 3 = 0 by omega, show (64 + j) / 3 = 22 + j / 3 by omega]

theorem encodeHighBit (works : lib.Interleaves) (pos : Position) {j : Nat} (inside : j < 64) :
    (encodeHigh lib pos).getLsbD j = axisBit pos ((128 + j) % 3) ((128 + j) / 3) := by
  rw [encodeHigh, works.encoded64 _ _ _ j inside, axisBit]
  have digit : j % 3 = 0 ∨ j % 3 = 1 ∨ j % 3 = 2 := by omega
  rcases digit with zero | one | two
  · simp [lane, zero, pieceBit, show j / 3 < 32 by omega,
      show (128 + j) % 3 = 2 by omega, show (128 + j) / 3 = 42 + j / 3 by omega]
  · simp [lane, one, pieceBit, show j / 3 < 32 by omega,
      show (128 + j) % 3 = 0 by omega, show (128 + j) / 3 = 43 + j / 3 by omega]
  · simp [lane, two, pieceBit, show j / 3 < 32 by omega,
      show (128 + j) % 3 = 1 by omega, show (128 + j) / 3 = 43 + j / 3 by omega]

-- A lane that starts at bit `s`, with the word's last bit put in behind it where the lane has it.
theorem partBit (works : lib.Interleaves) (m : BitVec 64) (k : Fin 3) (s q : Nat) :
    ((lib.morton3D_64_decode m k <<< s).getLsbD q || (decide (k.val = 0 ∧ q = s + 21 ∧ q < 64) && m.getLsbD 63)) =
      (decide (s ≤ q ∧ q < 64) && m.getLsbD (3 * (q - s) + k.val)) := by
  rw [BitVec.getLsbD_shiftLeft]
  by_cases inside : s ≤ q ∧ q < 64
  · obtain ⟨d, rfl⟩ : ∃ d, q = s + d := ⟨q - s, by omega⟩
    rw [Nat.add_sub_cancel_left, decide_eq_true inside.2, decide_eq_true inside, decide_eq_false (by omega)]
    rcases Nat.lt_or_ge d 21 with low | high
    · rw [works.decoded64 m k d low, decide_eq_false (by omega)]
      simp
    · by_cases last : k.val = 0 ∧ d = 21
      · obtain ⟨first, rfl⟩ := last
        have kept := works.spare64 m k 21 (Nat.le_refl _)
        rw [first] at kept ⊢
        rw [decide_eq_true ⟨rfl, rfl, inside.2⟩]
        cases bit : (lib.morton3D_64_decode m k).getLsbD 21 with
        | false => rfl
        | true =>
          rw [kept bit]
          rfl
      · have beyond : m.getLsbD (3 * d + k.val) = false := BitVec.getLsbD_of_ge m _ (by omega)
        have none_ : (lib.morton3D_64_decode m k).getLsbD d = false := by
          cases set : (lib.morton3D_64_decode m k).getLsbD d with
          | false => rfl
          | true => rw [works.spare64 m k d high set] at beyond; cases beyond
        rw [beyond, none_, decide_eq_false (by omega)]
        simp
  · have beyond : ¬(k.val = 0 ∧ q = s + 21 ∧ q < 64) := by omega
    rw [decide_eq_false beyond, decide_eq_false inside, Bool.false_and, Bool.or_false, Bool.false_and]
    by_cases small : q < 64
    · simp [show q < s by omega]
    · simp [small]

theorem topBit (m : BitVec 64) (s q : Nat) (small : s < 64) :
    ((m >>> 63) <<< s).getLsbD q = (decide (q = s) && m.getLsbD 63) := by
  rw [BitVec.getLsbD_shiftLeft, BitVec.getLsbD_ushiftRight]
  by_cases here : q = s
  · simp [here, small]
  · by_cases low : q < s
    · simp [here, low]
    · have beyond : m.getLsbD (63 + (q - s)) = false := BitVec.getLsbD_of_ge m _ (by omega)
      simp [here, beyond]

-- The exact interleave, for any coordinates: the bits above the width's axes are dropped.
theorem encodeBit (works : lib.Interleaves) (pos : Position) (f : Format) {i : Nat} (inside : i < f.total) :
    (encode lib pos f).bit i = (decide (i < f.capacity) && axisBit pos (i % 3) (i / 3)) := by
  cases f with
  | m32 =>
    have small : i < 32 := inside
    have masked : ((1#32 <<< 30) - 1#32 : BitVec 32).getLsbD i = decide (i < 30) := by
      have all : ∀ i : Fin 32, ((1#32 <<< 30) - 1#32 : BitVec 32).getLsbD i.val = decide (i.val < 30) := by decide
      exact all ⟨i, small⟩
    rw [wordBit (encode lib pos .m32) 0 i (by simp) small]
    change (lib.morton3D_32_encode (pos 0) (pos 1) (pos 2) &&& ((1#32 <<< 30) - 1#32)).getLsbD i = _
    rw [BitVec.getLsbD_and, works.encoded32 _ _ _ i small, masked, Bool.and_comm]
    rfl
  | m64 =>
    have small : i < 64 := inside
    have low : i / 3 < 32 := by omega
    rw [wordBit (encode lib pos .m64) 0 i (by simp) small]
    change (lib.morton3D_64_encode (piece (pos 0)) (piece (pos 1)) (piece (pos 2)) &&& mask64 63).getLsbD i = _
    rw [BitVec.getLsbD_and, works.encoded64 _ _ _ i small, mask64Bit _ (by decide), Bool.and_comm, axisBit]
    have digit : i % 3 = 0 ∨ i % 3 = 1 ∨ i % 3 = 2 := by omega
    rcases digit with zero | one | two
    · simp [lane, zero, pieceBit, low, Format.capacity, Format.total, Format.bits, Format.count]
    · simp [lane, one, pieceBit, low, Format.capacity, Format.total, Format.bits, Format.count]
    · simp [lane, two, pieceBit, low, Format.capacity, Format.total, Format.bits, Format.count]
  | m128 =>
    have small : i < 128 := inside
    by_cases first : i < 64
    · rw [wordBit (encode lib pos .m128) 0 i (by simp) first, decide_eq_true (by show i < 126; omega), Bool.true_and]
      exact encodeLowBit works pos first
    · obtain ⟨j, rfl⟩ : ∃ j, i = 64 + j := ⟨i - 64, by omega⟩
      have inside : j < 64 := by omega
      rw [wordBit (encode lib pos .m128) 1 j (by rfl) inside]
      change (encodeMid lib pos &&& mask64 62).getLsbD j = _
      rw [BitVec.getLsbD_and, encodeMidBit works pos inside, mask64Bit _ (by decide), Bool.and_comm]
      congr 1
      apply decide_eq_decide.mpr
      change j < 62 ↔ 64 + j < 126
      omega
  | m192 =>
    have small : i < 192 := inside
    rw [decide_eq_true (by show i < 192; omega), Bool.true_and]
    by_cases first : i < 64
    · rw [wordBit (encode lib pos .m192) 0 i (by simp) first]
      exact encodeLowBit works pos first
    · by_cases second : i < 128
      · obtain ⟨j, rfl⟩ : ∃ j, i = 64 + j := ⟨i - 64, by omega⟩
        rw [wordBit (encode lib pos .m192) 1 j (by rfl) (show j < 64 by omega)]
        exact encodeMidBit works pos (by omega)
      · obtain ⟨j, rfl⟩ : ∃ j, i = 128 + j := ⟨i - 128, by omega⟩
        rw [wordBit (encode lib pos .m192) 2 j (by rfl) (show j < 64 by omega)]
        exact encodeHighBit works pos (by omega)

theorem wideBit {f : Format} {m : Code f} {data : Nat → BitVec 64} (wide : f.bits = 64)
    (words : ∀ n j, (m.word n).getLsbD j = (data n).getLsbD j) (i : Nat) :
    m.bit i = (data (i / 64)).getLsbD (i % 64) := by
  rw [Code.bit, words, wide]

-- The three parts of one axis: the middle word's lane `a` starts at bit `s`, the high word's `b` at `t`.
theorem stitchBit (works : lib.Interleaves) (data : Nat → BitVec 64) (k a b : Fin 3) {s t q : Nat} (inside : q < 64)
    (middle : 3 * s + k.val = 64 + a.val) (high : 3 * t + k.val = 128 + b.val) :
    (((lib.morton3D_64_decode (data 0) k <<< 0).getLsbD q ||
        (decide (k.val = 0 ∧ q = 0 + 21 ∧ q < 64) && (data 0).getLsbD 63)) ||
      ((lib.morton3D_64_decode (data 1) a <<< s).getLsbD q ||
        (decide (a.val = 0 ∧ q = s + 21 ∧ q < 64) && (data 1).getLsbD 63)) ||
      ((lib.morton3D_64_decode (data 2) b <<< t).getLsbD q ||
        (decide (b.val = 0 ∧ q = t + 21 ∧ q < 64) && (data 2).getLsbD 63))) =
        (data ((3 * q + k.val) / 64)).getLsbD ((3 * q + k.val) % 64) := by
  have beyond : ∀ n i, 64 ≤ i → (data n).getLsbD i = false := fun n i far => BitVec.getLsbD_of_ge _ i far
  rw [partBit works, partBit works, partBit works, Nat.sub_zero]
  rcases (by omega : q < s ∨ s ≤ q ∧ q < t ∨ t ≤ q) with low | between | top
  · have word : (3 * q + k.val) / 64 = 0 := by omega
    have place : (3 * q + k.val) % 64 = 3 * q + k.val := by omega
    rw [word, place]
    simp [Nat.not_le.mpr low, show ¬t ≤ q by omega, inside]
  · have word : (3 * q + k.val) / 64 = 1 := by omega
    have place : (3 * q + k.val) % 64 = 3 * (q - s) + a.val := by omega
    rw [word, place]
    simp [beyond 0 (3 * q + k.val) (by omega), between.1, inside, show ¬t ≤ q by omega]
  · have word : (3 * q + k.val) / 64 = 2 := by omega
    have place : (3 * q + k.val) % 64 = 3 * (q - t) + b.val := by omega
    rw [word, place]
    simp [beyond 0 (3 * q + k.val) (by omega), beyond 1 (3 * (q - s) + a.val) (by omega), inside, top]

-- Each word's last bit goes to the axis whose lane it ends: x, y and z.
theorem decode192Bit (works : lib.Interleaves) (m : Code .m192) (k : Fin 3) {q : Nat} (inside : q < 64) :
    (decode192 lib m k).getLsbD q = m.bit (3 * q + k.val) := by
  obtain ⟨data, words⟩ : ∃ data : Nat → BitVec 64, data = m.word := ⟨_, rfl⟩
  have here : ∀ i, m.bit i = (data (i / 64)).getLsbD (i % 64) := wideBit rfl (fun n j => by rw [words]; rfl)
  match k with
  | 0 =>
    rw [here, ← stitchBit works data 0 2 1 inside (s := 22) (t := 43) (by decide) (by decide), decode192, ← words]
    change (lib.morton3D_64_decode (data 0) 0 ||| (data 0 >>> 63) <<< 21 |||
      lib.morton3D_64_decode (data 1) 2 <<< 22 ||| lib.morton3D_64_decode (data 2) 1 <<< 43).getLsbD q = _
    rw [BitVec.getLsbD_or, BitVec.getLsbD_or, BitVec.getLsbD_or, topBit _ 21 _ (by decide)]
    simp [inside]
  | 1 =>
    rw [here, ← stitchBit works data 1 0 2 inside (s := 21) (t := 43) (by decide) (by decide), decode192, ← words]
    change (lib.morton3D_64_decode (data 0) 1 ||| (data 1 >>> 63) <<< 42 |||
      lib.morton3D_64_decode (data 1) 0 <<< 21 ||| lib.morton3D_64_decode (data 2) 2 <<< 43).getLsbD q = _
    rw [BitVec.getLsbD_or, BitVec.getLsbD_or, BitVec.getLsbD_or, topBit _ 42 _ (by decide)]
    simp [inside, Bool.or_comm, Bool.or_left_comm, Bool.or_assoc]
  | 2 =>
    rw [here, ← stitchBit works data 2 1 0 inside (s := 21) (t := 42) (by decide) (by decide), decode192, ← words]
    change (lib.morton3D_64_decode (data 0) 2 ||| (data 2 >>> 63) <<< 63 |||
      lib.morton3D_64_decode (data 1) 1 <<< 21 ||| lib.morton3D_64_decode (data 2) 0 <<< 42).getLsbD q = _
    rw [BitVec.getLsbD_or, BitVec.getLsbD_or, BitVec.getLsbD_or, topBit _ 63 _ (by decide)]
    simp [inside, Bool.or_comm, Bool.or_left_comm, Bool.or_assoc]

theorem decode128Bit (works : lib.Interleaves) (m : Code .m128) (k : Fin 3) {q : Nat} (inside : q < 64) :
    (decode128 lib m k).getLsbD q = m.bit (3 * q + k.val) := by
  obtain ⟨data, words⟩ : ∃ data : Nat → BitVec 64, data = m.word := ⟨_, rfl⟩
  have here : ∀ i, m.bit i = (data (i / 64)).getLsbD (i % 64) := wideBit rfl (fun n j => by rw [words]; rfl)
  have third : data 2 = 0 := by rw [words]; rfl
  have empty : ∀ (b : Fin 3) (t : Nat), ((lib.morton3D_64_decode (data 2) b <<< t).getLsbD q ||
      (decide (b.val = 0 ∧ q = t + 21 ∧ q < 64) && (data 2).getLsbD 63)) = false := by
    intro b t
    rw [partBit works, third]
    simp
  match k with
  | 0 =>
    rw [here, ← stitchBit works data 0 2 1 inside (s := 22) (t := 43) (by decide) (by decide), empty, decode128, ← words]
    change (lib.morton3D_64_decode (data 0) 0 ||| (data 0 >>> 63) <<< 21 |||
      lib.morton3D_64_decode (data 1) 2 <<< 22).getLsbD q = _
    rw [BitVec.getLsbD_or, BitVec.getLsbD_or, topBit _ 21 _ (by decide)]
    simp [inside]
  | 1 =>
    rw [here, ← stitchBit works data 1 0 2 inside (s := 21) (t := 43) (by decide) (by decide), empty, decode128, ← words]
    change (lib.morton3D_64_decode (data 0) 1 ||| (data 1 >>> 63) <<< 42 |||
      lib.morton3D_64_decode (data 1) 0 <<< 21).getLsbD q = _
    rw [BitVec.getLsbD_or, BitVec.getLsbD_or, topBit _ 42 _ (by decide)]
    simp [inside, Bool.or_comm, Bool.or_left_comm, Bool.or_assoc]
  | 2 =>
    rw [here, ← stitchBit works data 2 1 0 inside (s := 21) (t := 42) (by decide) (by decide), empty, decode128, ← words]
    change (lib.morton3D_64_decode (data 0) 2 ||| lib.morton3D_64_decode (data 1) 1 <<< 21).getLsbD q = _
    rw [BitVec.getLsbD_or]
    simp

theorem singleBit {f : Format} (m : Code f) (single : f.count = 1) (i : Nat) : m.bit i = (m.word 0).getLsbD i := by
  by_cases inside : i < f.bits
  · exact wordBit m 0 i (by simp) inside
  · have outside : m.word (i / f.bits) = 0 := by
      have later : 1 ≤ i / f.bits := (Nat.one_le_div_iff (bitsPositive f)).mpr (Nat.le_of_not_lt inside)
      exact dif_neg (by omega)
    rw [Code.bit, outside, BitVec.getLsbD_of_ge (m.word 0) i (Nat.le_of_not_lt inside)]
    exact BitVec.getLsbD_zero

theorem decode64Bit (works : lib.Interleaves) (m : Code .m64) (k : Fin 3) (width q : Nat) :
    (decode64 lib width m k).getLsbD q = (decide (q < width) && m.bit (3 * q + k.val)) := by
  obtain ⟨data, same⟩ : ∃ data : BitVec 64, data = m.word 0 := ⟨_, rfl⟩
  have here : ∀ i, m.bit i = data.getLsbD i := fun i => by rw [singleBit m rfl, same]; rfl
  have lane_ : ((lib.morton3D_64_decode data k).getLsbD q || (decide (k.val = 0 ∧ q = 21) && data.getLsbD 63)) =
      data.getLsbD (3 * q + k.val) := by
    have parted := partBit works data k 0 q
    by_cases inside : q < 64
    · simpa [inside] using parted
    · rw [BitVec.getLsbD_of_ge _ q (Nat.le_of_not_lt inside), decide_eq_false (by omega),
        BitVec.getLsbD_of_ge data _ (show 64 ≤ 3 * q + k.val by omega)]
      rfl
  rw [here, decode64, ← same, ← lane_]
  match k with
  | 0 =>
    change ((lib.morton3D_64_decode data 0 ||| (data >>> 63) <<< 21).setWidth width).getLsbD q = _
    rw [BitVec.getLsbD_setWidth, BitVec.getLsbD_or, topBit _ 21 _ (by decide)]
    simp
  | 1 =>
    change ((lib.morton3D_64_decode data 1).setWidth width).getLsbD q = _
    rw [BitVec.getLsbD_setWidth]
    simp
  | 2 =>
    change ((lib.morton3D_64_decode data 2).setWidth width).getLsbD q = _
    rw [BitVec.getLsbD_setWidth]
    simp

theorem decode32Bit (works : lib.Interleaves) (m : Code .m32) (k : Fin 3) (width q : Nat) :
    (decode32 lib width m k).getLsbD q = (decide (q < width) && m.bit (3 * q + k.val)) := by
  rw [singleBit m rfl, decode32, BitVec.getLsbD_setWidth]
  exact congrArg _ (works.decoded32 _ k q)

theorem decodeBit (works : lib.Interleaves) {f : Format} (m : Code f) (k : Fin 3) {q : Nat} (inside : q < 64) :
    (decode lib m k).getLsbD q = m.bit (3 * q + k.val) := by
  cases f with
  | m32 =>
    refine (decode32Bit works m k 64 q).trans ?_
    rw [decide_eq_true inside, Bool.true_and]
  | m64 =>
    refine (decode64Bit works m k 64 q).trans ?_
    rw [decide_eq_true inside, Bool.true_and]
  | m128 => exact decode128Bit works m k inside
  | m192 => exact decode192Bit works m k inside

end

/-! ## The two round trips -/

def Format.axis (f : Format) : Nat := f.capacity / 3

def InRange (f : Format) (pos : Position) : Prop := ∀ k, (pos k).toNat < 2 ^ Format.axis f
instance (f pos) : Decidable (InRange f pos) := by unfold InRange; infer_instance

-- A code some triple in range has.
def Whole {f : Format} (m : Code f) : Prop := ∀ i, f.capacity ≤ i → i < f.total → m.bit i = false

def Interleaved {f : Format} (pos : Position) (m : Code f) : Prop :=
  Whole m ∧ ∀ (k : Fin 3) (q : Nat), q < Format.axis f → m.bit (3 * q + k.val) = (pos k).getLsbD q

section
variable {lib : Libmorton}

theorem capacityAxis (f : Format) : f.capacity = 3 * Format.axis f := by cases f <;> rfl

theorem axisLe (f : Format) : Format.axis f ≤ 64 := by cases f <;> decide

theorem capacityLe (f : Format) : f.capacity ≤ f.total := by cases f <;> decide

theorem axisBitAt (pos : Position) (k : Fin 3) (q : Nat) :
    axisBit pos ((3 * q + k.val) % 3) ((3 * q + k.val) / 3) = (pos k).getLsbD q := by
  have digit : (3 * q + k.val) % 3 = k.val := by omega
  have place : (3 * q + k.val) / 3 = q := by omega
  rw [digit, place, axisBit]
  match k with
  | 0 => rfl
  | 1 => rfl
  | 2 => rfl

theorem encodeInterleaved (works : lib.Interleaves) (f : Format) (pos : Position) :
    Interleaved pos (encode lib pos f) := by
  constructor
  · intro i beyond inside
    rw [encodeBit works pos f inside, decide_eq_false (by omega), Bool.false_and]
  · intro k q bound
    have axis := capacityAxis f
    have total := capacityLe f
    have here : 3 * q + k.val < f.capacity := by omega
    rw [encodeBit works pos f (by omega), decide_eq_true here, Bool.true_and, axisBitAt]

theorem inRangeBit {f : Format} {pos : Position} (inRange : InRange f pos) (k : Fin 3) {q : Nat}
    (beyond : Format.axis f ≤ q) : (pos k).getLsbD q = false := by
  apply Nat.testBit_lt_two_pow
  exact Nat.lt_of_lt_of_le (inRange k) (Nat.pow_le_pow_right (by decide) beyond)

-- What lies above the axis is in no code.
theorem decodeEncoded (works : lib.Interleaves) {f : Format} {pos : Position} (inRange : InRange f pos) :
    decode lib (encode lib pos f) = pos := by
  funext k
  apply BitVec.eq_of_getLsbD_eq
  intro q inside
  rw [decodeBit works _ k inside]
  by_cases here : q < Format.axis f
  · exact (encodeInterleaved works f pos).2 k q here
  · rw [inRangeBit inRange k (Nat.le_of_not_lt here)]
    have axis := capacityAxis f
    by_cases total : 3 * q + k.val < f.total
    · exact (encodeInterleaved works f pos).1 _ (by omega) total
    · have outside : ¬(3 * q + k.val) / f.bits < f.count := by
        rw [Nat.div_lt_iff_lt_mul (bitsPositive f), Nat.mul_comm f.count]
        exact total
      rw [Code.bit, Code.word, dif_neg outside]
      exact BitVec.getLsbD_zero

theorem codeBits {f : Format} {a b : Code f} : a = b ↔ ∀ i, i < f.total → a.bit i = b.bit i := by
  constructor
  · intro same i inside
    rw [same]
  · intro same
    apply codeExt
    intro k j here inside
    rw [← bitWord inside, ← bitWord inside]
    apply same
    calc f.bits * k + j < f.bits * (k + 1) := by rw [Nat.mul_succ]; omega
      _ ≤ f.total := Nat.mul_le_mul_left _ here

theorem encodeDecoded (works : lib.Interleaves) {f : Format} {m : Code f} (whole : Whole m) :
    encode lib (decode lib m) f = m := by
  rw [codeBits]
  intro i inside
  have interleaved := encodeInterleaved works f (decode lib m)
  by_cases low : i < f.capacity
  · have axis := capacityAxis f
    have narrow := axisLe f
    obtain ⟨k, digit⟩ : ∃ k : Fin 3, k.val = i % 3 := ⟨⟨i % 3, by omega⟩, rfl⟩
    have place : i = 3 * (i / 3) + k.val := by omega
    have bit := interleaved.2 k (i / 3) (by omega)
    rwa [decodeBit works m k (by omega), ← place] at bit
  · rw [interleaved.1 i (by omega) inside, whole i (by omega) inside]

theorem decodeNarrow {f : Format} {width : Nat} {pos : Position} (inRange : InRange f pos) (k : Fin 3)
    {out : BitVec width} (wide : Format.axis f ≤ width) {m : Code f} (interleaved : Interleaved pos m)
    (bits : ∀ q, out.getLsbD q = (decide (q < width) && m.bit (3 * q + k.val))) (single : f.count = 1) :
    out.toNat = (pos k).toNat := by
  apply Nat.eq_of_testBit_eq
  intro q
  change out.getLsbD q = (pos k).getLsbD q
  rw [bits]
  by_cases here : q < Format.axis f
  · rw [decide_eq_true (by omega), Bool.true_and, interleaved.2 k q here]
  · have axis := capacityAxis f
    rw [inRangeBit inRange k (Nat.le_of_not_lt here)]
    by_cases total : 3 * q + k.val < f.total
    · rw [interleaved.1 _ (by omega) total, Bool.and_false]
    · rw [singleBit m single, BitVec.getLsbD_of_ge, Bool.and_false]
      rw [Format.total, single] at total
      omega

theorem decodeNarrow64 (works : lib.Interleaves) {pos : Position} (inRange : InRange .m64 pos) {width : Nat}
    (wide : 21 ≤ width) (k : Fin 3) : (decode64 lib width (encode64 lib pos) k).toNat = (pos k).toNat :=
  decodeNarrow inRange k wide (encodeInterleaved works .m64 pos) (decode64Bit works _ k width) rfl

theorem decodeNarrow32 (works : lib.Interleaves) {pos : Position} (inRange : InRange .m32 pos) {width : Nat}
    (wide : 10 ≤ width) (k : Fin 3) : (decode32 lib width (encode32 lib pos) k).toNat = (pos k).toNat :=
  decodeNarrow inRange k wide (encodeInterleaved works .m32 pos) (decode32Bit works _ k width) rfl

-- Every coordinate triple in range of each width, and every code such a triple has.
theorem interleaveAndBack (works : lib.Interleaves) (f : Format) :
    (∀ pos, InRange f pos → Interleaved pos (encode lib pos f) ∧ decode lib (encode lib pos f) = pos) ∧
    (∀ m : Code f, Whole m → encode lib (decode lib m) f = m) ∧
    (∀ pos, InRange .m64 pos → ∀ k, (decode64 lib 32 (encode64 lib pos) k).toNat = (pos k).toNat) ∧
    (∀ pos, InRange .m32 pos → ∀ k, (decode32 lib 16 (encode32 lib pos) k).toNat = (pos k).toNat) :=
  ⟨fun pos inRange => ⟨encodeInterleaved works f pos, decodeEncoded works inRange⟩,
    fun _ whole => encodeDecoded works whole,
    fun _ inRange k => decodeNarrow64 works inRange (by decide) k,
    fun _ inRange k => decodeNarrow32 works inRange (by decide) k⟩

end

/-! ## A library that interleaves bit by bit -/

def gather (width : Nat) (bits : Nat → Bool) : BitVec width :=
  (BitVec.ofBoolListLE ((List.range width).map bits)).setWidth width

theorem gatherBit (width : Nat) (bits : Nat → Bool) (q : Nat) :
    (gather width bits).getLsbD q = (decide (q < width) && bits q) := by
  rw [gather, BitVec.getLsbD_setWidth, BitVec.getLsbD_ofBoolListLE]
  by_cases inside : q < width
  · simp [inside]
  · simp [inside]

-- Like libmorton's tables, it decodes 63 bits of a 64-bit word.
def bitwise : Libmorton where
  morton3D_64_encode x y z := gather 64 fun j => (lane x y z (j % 3)).getLsbD (j / 3)
  morton3D_64_decode m k := gather 64 fun q => decide (q < 21) && m.getLsbD (3 * q + k.val)
  morton3D_32_encode x y z := gather 32 fun j => (lane x y z (j % 3)).getLsbD (j / 3)
  morton3D_32_decode m k := gather 64 fun q => m.getLsbD (3 * q + k.val)

theorem bitwiseInterleaves : bitwise.Interleaves where
  encoded64 x y z j inside := by
    refine (gatherBit 64 _ j).trans ?_
    rw [decide_eq_true inside, Bool.true_and]
  decoded64 m k q low := by
    refine (gatherBit 64 _ q).trans ?_
    rw [decide_eq_true (Nat.lt_trans low (by decide)), decide_eq_true low, Bool.true_and, Bool.true_and]
  spare64 m k q high set := by
    have bit := (gatherBit 64 _ q).symm.trans set
    rw [decide_eq_false (Nat.not_lt.mpr high), Bool.false_and, Bool.and_false] at bit
    cases bit
  encoded32 x y z j inside := by
    refine (gatherBit 32 _ j).trans ?_
    rw [decide_eq_true inside, Bool.true_and]
  decoded32 m k q := by
    refine (gatherBit 64 _ q).trans ?_
    by_cases inside : q < 64
    · rw [decide_eq_true inside, Bool.true_and]
    · rw [decide_eq_false inside, Bool.false_and, BitVec.getLsbD_of_ge m _ (by omega)]

-- The bits on both sides of the words' ends: x's 21, y's 42 and z's 63 are the last of a word.
def straddling : Position := lane (2 ^ 21 + 2 ^ 22 + 5) (2 ^ 42 + 2 ^ 43) (2 ^ 63 + 2 ^ 21) ∘ Fin.val

theorem straddlingBack : bitwise.Interleaves ∧ InRange .m192 straddling ∧
    Interleaved straddling (encode bitwise straddling .m192) ∧
    decode bitwise (encode bitwise straddling .m192) = straddling ∧
    encode bitwise (decode bitwise (encode bitwise straddling .m192)) .m192 = encode bitwise straddling .m192 :=
  have inRange : InRange .m192 straddling := by decide
  have both := (interleaveAndBack bitwiseInterleaves .m192).1 straddling inRange
  ⟨bitwiseInterleaves, inRange, both.1, both.2, (interleaveAndBack bitwiseInterleaves .m192).2.1 _ both.1.1⟩

end Dewfall.MortonInterleave
