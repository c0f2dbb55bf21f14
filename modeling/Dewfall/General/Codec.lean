import Mathlib.Algebra.Group.Nat.Defs
import Mathlib.Data.BitVec
import Mathlib.Tactic.Ring

/-! Values as runs of bytes: memory images of a fixed size, readers that give up with one error, and
the rules by which a reader reads back what a writer wrote and refuses every shorter input. -/
namespace General.Codec

abbrev Bytes := List (BitVec 8)

def littleEndian : Nat → Nat → Bytes
  | 0, _ => []
  | width + 1, n => BitVec.ofNat 8 n :: littleEndian width (n / 256)

def ofLittleEndian : Bytes → Nat
  | [] => 0
  | byte :: rest => byte.toNat + 256 * ofLittleEndian rest

@[simp] theorem littleEndianLength (width n : Nat) : (littleEndian width n).length = width := by
  induction width generalizing n with
  | zero => rfl
  | succ width ih => simp [littleEndian, ih]

theorem ofLittleEndianBack (width n : Nat) : ofLittleEndian (littleEndian width n) = n % 256 ^ width := by
  induction width generalizing n with
  | zero => simp [littleEndian, ofLittleEndian, Nat.mod_one]
  | succ width ih => simp [littleEndian, ofLittleEndian, ih, Nat.pow_succ', Nat.mod_mul]

theorem ofLittleEndianForth (bytes : Bytes) : littleEndian bytes.length (ofLittleEndian bytes) = bytes := by
  induction bytes with
  | nil => rfl
  | cons byte rest ih =>
    have small : byte.toNat < 256 := byte.isLt
    have low : BitVec.ofNat 8 (byte.toNat + 256 * ofLittleEndian rest) = byte := by
      refine BitVec.eq_of_toNat_eq ?_
      rw [BitVec.toNat_ofNat]
      omega
    have high : (byte.toNat + 256 * ofLittleEndian rest) / 256 = ofLittleEndian rest := by omega
    rw [ofLittleEndian, List.length_cons, littleEndian, low, high, ih]

theorem ofLittleEndianLt (bytes : Bytes) : ofLittleEndian bytes < 256 ^ bytes.length := by
  have forth := congrArg ofLittleEndian (ofLittleEndianForth bytes)
  rw [ofLittleEndianBack] at forth
  rw [← forth]
  exact Nat.mod_lt _ (Nat.pow_pos (by decide))

theorem ofLittleEndianAppend (first second : Bytes) :
    ofLittleEndian (first ++ second) = ofLittleEndian first + 256 ^ first.length * ofLittleEndian second := by
  induction first with
  | nil => simp [ofLittleEndian]
  | cons byte rest ih =>
    rw [List.cons_append, ofLittleEndian, ih, ofLittleEndian, List.length_cons, Nat.pow_succ]
    ring

/-! ## Images -/

structure Image (α : Type) where
  size : Nat
  encode : α → Bytes
  decode : Bytes → α
  sized : ∀ a, (encode a).length = size
  back : ∀ a, decode (encode a) = a

namespace Image
variable {α β : Type}

attribute [simp] sized back

-- `count` bytes hold `8 * count` bits.
def word (count : Nat) : Image (BitVec (8 * count)) where
  size := count
  encode v := littleEndian count v.toNat
  decode bytes := BitVec.ofNat (8 * count) (ofLittleEndian bytes)
  sized _ := littleEndianLength _ _
  back v := by
    have small : v.toNat < 256 ^ count := by
      have bound := v.isLt
      rwa [Nat.pow_mul] at bound
    simp [ofLittleEndianBack, Nat.mod_eq_of_lt small]

def pair (first : Image α) (second : Image β) : Image (α × β) where
  size := first.size + second.size
  encode v := first.encode v.1 ++ second.encode v.2
  decode bytes := (first.decode (bytes.take first.size), second.decode (bytes.drop first.size))
  sized _ := by simp
  back v := by simp [List.take_left' (first.sized v.1), List.drop_left' (first.sized v.1)]

-- A record with the same image as the tuple of its fields.
def record (image : Image α) (make : α → β) (fields : β → α) (same : ∀ b, make (fields b) = b) : Image β where
  size := image.size
  encode b := image.encode (fields b)
  decode bytes := make (image.decode bytes)
  sized _ := by simp
  back b := by simp [same]

-- One proof for the numerals of the three axes.
local instance axesNonzero : NeZero 3 := ⟨by decide⟩

def triple (image : Image α) : Image (Fin 3 → α) :=
  ((image.pair image).pair image).record
    (fun v k => match k with
      | 0 => v.1.1
      | 1 => v.1.2
      | 2 => v.2)
    (fun f => ((f 0, f 1), f 2)) fun _ => funext fun k => match k with
      | 0 | 1 | 2 => rfl

def block (image : Image α) (values : List α) : Bytes := values.flatMap image.encode

def split (image : Image α) : Nat → Bytes → List α
  | 0, _ => []
  | count + 1, bytes => image.decode (bytes.take image.size) :: image.split count (bytes.drop image.size)

@[simp] theorem blockLength (image : Image α) (values : List α) :
    (image.block values).length = image.size * values.length := by
  induction values with
  | nil => rfl
  | cons a values ih =>
    rw [block, List.flatMap_cons, List.length_append, ← block, ih, image.sized, List.length_cons]
    ring

theorem splitBlock (image : Image α) (values : List α) : image.split values.length (image.block values) = values := by
  induction values with
  | nil => rfl
  | cons a values ih =>
    have whole : image.block (a :: values) = image.encode a ++ image.block values := List.flatMap_cons
    simp [whole, split, List.take_left' (image.sized a), List.drop_left' (image.sized a), ih]

end Image

/-! ## Readers -/

abbrev Reader (ε α : Type) := StateT Bytes (Except ε) α

section
variable {ε α β : Type}

def take (error : ε) (count : Nat) : Reader ε Bytes := fun input =>
  if input.length < count then .error error else .ok (input.take count, input.drop count)

def readMemory (error : ε) (image : Image α) : Reader ε α := do
  let bytes ← take error image.size
  pure (image.decode bytes)

def readVector (error : ε) (image : Image α) (count : Nat) : Reader ε (List α) := do
  let bytes ← take error (image.size * count)
  pure (image.split count bytes)

def times (read : Reader ε α) : Nat → Reader ε (List α)
  | 0 => pure []
  | count + 1 => do
    let a ← read
    let rest ← times read count
    pure (a :: rest)

-- Reads exactly `bytes`, whatever follows them, and nothing shorter.
def Reads (error : ε) (read : Reader ε α) (bytes : Bytes) (a : α) : Prop :=
  (∀ rest, read (bytes ++ rest) = .ok (a, rest)) ∧ ∀ n < bytes.length, read (bytes.take n) = .error error

variable {error : ε}

theorem readsPure (a : α) : Reads error (pure a) [] a :=
  ⟨fun _ => rfl, fun _ less => absurd less (Nat.not_lt_zero _)⟩

theorem readsBind {read : Reader ε α} {next : α → Reader ε β} {first second : Bytes} {a : α} {b : β}
    (here : Reads error read first a) (after : Reads error (next a) second b) :
    Reads error (read >>= next) (first ++ second) b := by
  constructor
  · intro rest
    show (read (first ++ second ++ rest) >>= fun p => next p.1 p.2) = _
    rw [List.append_assoc, here.1]
    exact after.1 rest
  · intro n less
    show (read ((first ++ second).take n) >>= fun p => next p.1 p.2) = _
    rw [List.take_append]
    rcases Nat.lt_or_ge n first.length with short | long
    · rw [show n - first.length = 0 by omega, List.take_zero, List.append_nil, here.2 n short]
      rfl
    · rw [List.take_of_length_le long, here.1]
      refine after.2 _ ?_
      rw [List.length_append] at less
      omega

theorem readsTake (bytes : Bytes) : Reads error (take error bytes.length) bytes bytes := by
  constructor
  · intro rest
    simp [take]
  · intro n less
    simp [take, less]

theorem readsMap {read : Reader ε α} {bytes : Bytes} {a : α} (here : Reads error read bytes a) (f : α → β) :
    Reads error (read >>= fun a => pure (f a)) bytes (f a) := by
  have whole : Reads error (read >>= fun a => pure (f a)) (bytes ++ []) (f a) := readsBind here (readsPure (f a))
  rwa [List.append_nil] at whole

theorem readsMemory (image : Image α) (a : α) : Reads error (readMemory error image) (image.encode a) a := by
  have bytes : Reads error (take error (image.encode a).length) _ _ := readsTake (image.encode a)
  have whole := readsMap bytes image.decode
  rwa [image.sized, image.back] at whole

theorem readsVector (image : Image α) (values : List α) :
    Reads error (readVector error image values.length) (image.block values) values := by
  have bytes : Reads error (take error (image.block values).length) _ _ := readsTake (image.block values)
  have whole := readsMap bytes (image.split values.length)
  rwa [image.blockLength, image.splitBlock] at whole

theorem readsTimes {read : Reader ε α} {write : α → Bytes} {values : List α}
    (each : ∀ a ∈ values, Reads error read (write a) a) :
    Reads error (times read values.length) (values.flatMap write) values := by
  induction values with
  | nil => exact readsPure []
  | cons a values ih =>
    have rest := ih fun b here => each b (List.mem_cons_of_mem a here)
    exact readsBind (each a List.mem_cons_self) (readsMap rest (a :: ·))

end
end General.Codec
