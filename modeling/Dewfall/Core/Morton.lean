import Mathlib.Data.BitVec
import Mathlib.Tactic.ByContra

/-! Morton codes in the four stored widths and the casts between them. A narrow code keeps the low
digits of the wide one; the digits above come back from a minimum. The interleaving of the three
coordinates is not treated here. -/
namespace Dewfall.Morton

inductive Format where
  | m32 | m64 | m128 | m192
  deriving DecidableEq, Repr

-- The width of one component and the number of components.
def Format.bits : Format → Nat
  | .m32 => 32
  | _ => 64

def Format.count : Format → Nat
  | .m32 | .m64 => 1
  | .m128 => 2
  | .m192 => 3

def Format.total (f : Format) : Nat := f.bits * f.count

-- Whole base-eight digits only.
def Format.capacity (f : Format) : Nat := f.total - f.total % 3

structure Code (f : Format) where
  data : Fin f.count → BitVec f.bits

variable {f narrow wide : Format}

def Code.word (a : Code f) (k : Nat) : BitVec f.bits := if h : k < f.count then a.data ⟨k, h⟩ else 0

def Code.bit (a : Code f) (i : Nat) : Bool := (a.word (i / f.bits)).getLsbD (i % f.bits)

-- `(~T(0)) << k`
def ones (w k : Nat) : BitVec w := ~~~(0 : BitVec w) <<< k

/-! ## morton_downcast -/

def downcastFirst (narrow : Format) (a : Code wide) : BitVec narrow.bits :=
  let first := (a.word 0).setWidth narrow.bits
  if narrow.count = 1 then first &&& ~~~ones narrow.bits (narrow.bits - narrow.bits % 3) else first

def downcastSecond (narrow : Format) (a : Code wide) : BitVec narrow.bits :=
  let second := (a.word 1).setWidth narrow.bits
  if narrow.count = 2 then second &&& ~~~ones narrow.bits (narrow.bits - narrow.bits * 2 % 3) else second

def downcast (a : Code wide) : Code narrow where
  data k := match k.val with
    | 0 => downcastFirst narrow a
    | 1 => downcastSecond narrow a
    | _ => (a.word 2).setWidth narrow.bits

/-! ## morton_upcast -/

def upcastFirst (wide : Format) (a : Code narrow) (min : Code .m192) : BitVec wide.bits :=
  let first := (a.word 0).setWidth wide.bits
  let halved :=
    if narrow.bits = 32 ∧ wide.bits = 64 then
      first ||| ((min.word 0).setWidth wide.bits &&& ones wide.bits (wide.bits / 2))
    else first
  if narrow.count = 1 ∧ narrow.count < wide.count then
    halved ||| ((ones narrow.bits (narrow.bits - narrow.bits % 3)).setWidth wide.bits &&&
      (min.word 0).setWidth wide.bits)
  else halved

def upcastSecond (wide : Format) (a : Code narrow) (min : Code .m192) : BitVec wide.bits :=
  if 1 < narrow.count then
    let second := (a.word 1).setWidth wide.bits
    if narrow.count = 2 then
      second ||| (ones wide.bits (wide.bits - wide.bits * 2 % 3) &&& (min.word 1).setWidth wide.bits)
    else second
  else (min.word 1).setWidth wide.bits

def upcastThird (wide : Format) (a : Code narrow) (min : Code .m192) : BitVec wide.bits :=
  if 2 < narrow.count then (a.word 2).setWidth wide.bits else (min.word 2).setWidth wide.bits

def upcast (a : Code narrow) (min : Code .m192) : Code wide where
  data k := match k.val with
    | 0 => upcastFirst wide a min
    | 1 => upcastSecond wide a min
    | _ => upcastThird wide a min

/-! ## morton_cast -/

def cast (target : Format) (a : Code f) (min : Code .m192) : Code target :=
  if same : f = target then same ▸ a
  else if target.total < f.total then downcast a
  else upcast a min

/-! ## Words and bits -/

-- Equal on every bit of the wide code at and above the narrow format's capacity.
def Agree (narrow : Format) (c : Code wide) (m : Code .m192) : Prop :=
  ∀ i, narrow.capacity ≤ i → i < wide.total → c.bit i = m.bit i

theorem bitsPositive (f : Format) : 0 < f.bits := by cases f <;> decide

theorem countPositive (f : Format) : 0 < f.count := by cases f <;> decide

theorem wordHere {a : Code f} {k} (here : k < f.count) : a.word k = a.data ⟨k, here⟩ := dif_pos here

theorem bitWord {a : Code f} {k j} (inside : j < f.bits) : a.bit (f.bits * k + j) = (a.word k).getLsbD j := by
  rw [Code.bit, Nat.mul_add_div (bitsPositive f), Nat.div_eq_of_lt inside, Nat.add_zero, Nat.mul_add_mod,
    Nat.mod_eq_of_lt inside]

theorem codeExt {a b : Code f} (same : ∀ k j, k < f.count → j < f.bits →
    (a.word k).getLsbD j = (b.word k).getLsbD j) : a = b := by
  obtain ⟨a⟩ := a
  obtain ⟨b⟩ := b
  congr
  funext ⟨k, bound⟩
  apply BitVec.eq_of_getLsbD_eq
  intro j inside
  simpa only [Code.word, bound, dif_pos] using same k j bound inside

theorem onesBit (w k j : Nat) : (ones w k).getLsbD j = (decide (k ≤ j) && decide (j < w)) := by
  unfold ones
  by_cases inside : j < w
  · by_cases low : j < k
    · simp [inside, low]
    · have high : k ≤ j := Nat.le_of_not_lt low
      simp [inside, high]
  · simp [inside]

theorem clearedBit {w} (b : BitVec w) (k j : Nat) :
    (b &&& ~~~ones w k).getLsbD j = (b.getLsbD j && decide (j < k)) := by
  rw [BitVec.getLsbD_and, BitVec.getLsbD_not, onesBit]
  by_cases inside : j < w
  · by_cases low : j < k
    · simp [inside, low]
    · simp [inside, low, Nat.le_of_not_lt low]
  · simp [BitVec.getLsbD_of_ge b j (Nat.le_of_not_lt inside)]

theorem downcastFirstBit {c : Code wide} {j} (inside : j < narrow.bits) :
    ((downcast c : Code narrow).word 0).getLsbD j =
      ((c.word 0).getLsbD j && decide (narrow.count = 1 → j < narrow.bits - narrow.bits % 3)) := by
  rw [wordHere (countPositive narrow)]
  change (downcastFirst narrow c).getLsbD j = _
  unfold downcastFirst
  dsimp only
  split
  · rename_i single
    rw [clearedBit, BitVec.getLsbD_setWidth]
    simp [inside, single]
  · rename_i several
    rw [BitVec.getLsbD_setWidth]
    simp [inside, several]

theorem downcastSecondBit {c : Code wide} {j} (here : 1 < narrow.count) (inside : j < narrow.bits) :
    ((downcast c : Code narrow).word 1).getLsbD j =
      ((c.word 1).getLsbD j && decide (narrow.count = 2 → j < narrow.bits - narrow.bits * 2 % 3)) := by
  rw [wordHere here]
  change (downcastSecond narrow c).getLsbD j = _
  unfold downcastSecond
  dsimp only
  split
  · rename_i two
    rw [clearedBit, BitVec.getLsbD_setWidth]
    simp [inside, two]
  · rename_i three
    rw [BitVec.getLsbD_setWidth]
    simp [inside, three]

theorem upcastFirstBit {a : Code narrow} {m : Code .m192} {j} (inside : j < wide.bits) :
    ((upcast a m : Code wide).word 0).getLsbD j = ((a.word 0).getLsbD j ||
      ((m.word 0).getLsbD j && (decide ((narrow.bits = 32 ∧ wide.bits = 64) ∧ wide.bits / 2 ≤ j) ||
        decide ((narrow.count = 1 ∧ narrow.count < wide.count) ∧
          narrow.bits - narrow.bits % 3 ≤ j ∧ j < narrow.bits)))) := by
  rw [wordHere (countPositive wide)]
  change (upcastFirst wide a m).getLsbD j = _
  unfold upcastFirst
  dsimp only
  by_cases halved : narrow.bits = 32 ∧ wide.bits = 64
  · by_cases single : narrow.count = 1 ∧ narrow.count < wide.count
    · rw [if_pos halved, if_pos single]
      simp only [BitVec.getLsbD_or, BitVec.getLsbD_and, BitVec.getLsbD_setWidth, onesBit, halved, single]
      grind
    · rw [if_pos halved, if_neg single]
      simp only [BitVec.getLsbD_or, BitVec.getLsbD_and, BitVec.getLsbD_setWidth, onesBit, halved, single]
      grind
  · by_cases single : narrow.count = 1 ∧ narrow.count < wide.count
    · rw [if_neg halved, if_pos single]
      simp only [BitVec.getLsbD_or, BitVec.getLsbD_and, BitVec.getLsbD_setWidth, onesBit, inside, halved, single]
      grind
    · rw [if_neg halved, if_neg single]
      simp only [BitVec.getLsbD_setWidth, inside, halved, single]
      grind

theorem upcastSecondBit {a : Code narrow} {m : Code .m192} {j} (here : 1 < wide.count) (inside : j < wide.bits) :
    ((upcast a m : Code wide).word 1).getLsbD j =
      if 1 < narrow.count then (a.word 1).getLsbD j ||
        ((m.word 1).getLsbD j && decide (narrow.count = 2 ∧ wide.bits - wide.bits * 2 % 3 ≤ j))
      else (m.word 1).getLsbD j := by
  rw [wordHere here]
  change (upcastSecond wide a m).getLsbD j = _
  unfold upcastSecond
  dsimp only
  split
  · split
    · rename_i two
      simp only [BitVec.getLsbD_or, BitVec.getLsbD_and, BitVec.getLsbD_setWidth, onesBit, inside, two]
      grind
    · rename_i three
      simp only [BitVec.getLsbD_setWidth, inside, three]
      grind
  · rw [BitVec.getLsbD_setWidth]
    simp [inside]

theorem minimumBit {m : Code .m192} {k j} (here : k < wide.count) (inside : j < wide.bits) :
    m.bit (wide.bits * k + j) = (m.word k).getLsbD j := by
  by_cases halved : wide.bits = 64
  · rw [halved] at inside ⊢
    exact bitWord (f := .m192) inside
  · have single : k = 0 ∧ wide.bits ≤ 64 := by
      cases wide <;> simp only [Format.bits, Format.count, not_true_eq_false] at halved here ⊢ <;> omega
    rw [single.1, Nat.mul_zero, ← Nat.mul_zero 64]
    exact bitWord (f := .m192) (Nat.lt_of_lt_of_le inside single.2)

/-! ## Down and up again -/

theorem castBit {c : Code wide} {m : Code .m192} {k j} (narrower : narrow.total ≤ wide.total)
    (here : k < wide.count) (inside : j < wide.bits) :
    ((upcast (downcast c : Code narrow) m : Code wide).word k).getLsbD j =
      ((decide (wide.bits * k + j < narrow.capacity) && (c.word k).getLsbD j) ||
        (decide ((if wide.count = 1 then narrow.total else narrow.capacity) ≤ wide.bits * k + j) &&
          (m.word k).getLsbD j)) := by
  have word : k = 0 ∨ k = 1 ∨ k = 2 := by
    cases wide <;> simp only [Format.count] at here <;> omega
  rcases word with rfl | rfl | rfl
  · rw [upcastFirstBit inside]
    by_cases low : j < narrow.bits
    · rw [downcastFirstBit low]
      cases narrow <;> cases wide <;>
        simp only [Format.total, Format.capacity, Format.bits, Format.count] at narrower inside low ⊢ <;>
        grind
    · rw [BitVec.getLsbD_of_ge _ j (Nat.le_of_not_lt low)]
      cases narrow <;> cases wide <;>
        simp only [Format.total, Format.capacity, Format.bits, Format.count] at narrower inside low ⊢ <;>
        grind
  · rw [upcastSecondBit here inside]
    split
    · rename_i several
      have low : j < narrow.bits := by
        cases narrow <;> cases wide <;> simp only [Format.bits, Format.count] at several inside ⊢ <;> omega
      rw [downcastSecondBit several low]
      cases narrow <;> cases wide <;>
        simp only [Format.total, Format.capacity, Format.bits, Format.count] at narrower inside several ⊢ <;>
        grind
    · rename_i single
      cases narrow <;> cases wide <;>
        simp only [Format.total, Format.capacity, Format.bits, Format.count] at narrower here inside single ⊢ <;>
        grind
  · rw [wordHere here]
    change (upcastThird wide (downcast c : Code narrow) m).getLsbD j = _
    unfold upcastThird
    split
    · rename_i several
      rw [BitVec.getLsbD_setWidth, wordHere several]
      change (decide (j < wide.bits) && ((c.word 2).setWidth narrow.bits).getLsbD j) = _
      rw [BitVec.getLsbD_setWidth]
      cases narrow <;> cases wide <;>
        simp only [Format.total, Format.capacity, Format.bits, Format.count] at narrower here inside several ⊢ <;>
        grind
    · rename_i few
      rw [BitVec.getLsbD_setWidth]
      cases narrow <;> cases wide <;>
        simp only [Format.total, Format.capacity, Format.bits, Format.count] at narrower here inside few ⊢ <;>
        grind

-- Into a single component the first digits above the capacity are not taken from the minimum.
theorem roundTrip {c : Code wide} {m : Code .m192} (narrower : narrow.total ≤ wide.total)
    (agree : Agree narrow c m) : (upcast (downcast c : Code narrow) m : Code wide) = c ↔
      (wide.count = 1 → ∀ i, narrow.capacity ≤ i → i < narrow.total → c.bit i = false) := by
  constructor
  · intro same single i high low
    have inside : i < wide.bits := by
      unfold Format.total at narrower low
      rw [single] at narrower
      omega
    have bit := castBit (c := c) (m := m) (k := 0) narrower (countPositive wide) inside
    rw [same, if_pos single, Nat.mul_zero, Nat.zero_add] at bit
    have here : c.bit i = (c.word 0).getLsbD i := by
      simpa only [Nat.mul_zero, Nat.zero_add] using bitWord (a := c) (k := 0) inside
    rw [here, bit]
    simp [Nat.not_lt.mpr high, Nat.not_le.mpr low]
  · intro spare
    refine codeExt fun k j here inside => ?_
    rw [castBit narrower here inside]
    have below : wide.bits * k + j < wide.total := by
      have next : wide.bits * (k + 1) ≤ wide.bits * wide.count := Nat.mul_le_mul_left _ here
      rw [Nat.mul_succ] at next
      unfold Format.total
      omega
    by_cases low : wide.bits * k + j < narrow.capacity
    · have later : ¬(if wide.count = 1 then narrow.total else narrow.capacity) ≤ wide.bits * k + j := by
        have whole : narrow.capacity ≤ narrow.total := Nat.sub_le _ _
        split <;> omega
      simp [low, later]
    · have high : narrow.capacity ≤ wide.bits * k + j := Nat.le_of_not_lt low
      have bit := agree _ high below
      rw [bitWord inside, minimumBit here inside] at bit
      by_cases restored : (if wide.count = 1 then narrow.total else narrow.capacity) ≤ wide.bits * k + j
      · simp [low, restored, bit]
      · have single : wide.count = 1 := by
          by_contra several
          rw [if_neg several] at restored
          exact restored high
        rw [if_pos single, Nat.not_le] at restored
        have clear := spare single _ high restored
        rw [bitWord inside] at clear
        simp [low, single, Nat.not_le.mpr restored, clear]

theorem formatTotal {f g : Format} (same : f.total = g.total) : f = g := by
  cases f <;> cases g <;> first | rfl | exact absurd same (by decide)

theorem castAndBack {c : Code wide} {m : Code .m192} (narrower : narrow.total ≤ wide.total)
    (agree : Agree narrow c m) : cast wide (cast narrow c m) m = c ↔
      (narrow ≠ wide → wide.count = 1 → ∀ i, narrow.capacity ≤ i → i < narrow.total → c.bit i = false) := by
  by_cases same : narrow = wide
  · subst same
    simp [cast]
  · have smaller : narrow.total < wide.total :=
      Nat.lt_of_le_of_ne narrower fun total => same (formatTotal total)
    have down : cast narrow c m = downcast c := by
      rw [cast, dif_neg (Ne.symm same), if_pos smaller]
    have up : ∀ a : Code narrow, cast wide a m = upcast a m := by
      intro a
      rw [cast, dif_neg same, if_neg (Nat.not_lt.mpr narrower)]
    rw [down, up, roundTrip narrower agree]
    exact ⟨fun spare _ => spare, fun spare => spare same⟩

theorem upcastDowncast {c : Code wide} {m : Code .m192} (narrower : narrow.total ≤ wide.total)
    (agree : Agree narrow c m) :
    ((upcast (downcast c : Code narrow) m : Code wide) = c ↔
      (wide.count = 1 → ∀ i, narrow.capacity ≤ i → i < narrow.total → c.bit i = false)) ∧
    (cast wide (cast narrow c m) m = c ↔ (narrow ≠ wide → wide.count = 1 →
      ∀ i, narrow.capacity ≤ i → i < narrow.total → c.bit i = false)) :=
  ⟨roundTrip narrower agree, castAndBack narrower agree⟩

theorem highCodeCast : let c : Code .m192 := ⟨fun _ => 2 ^ 63⟩
    (upcast (downcast c : Code .m64) c : Code .m192) = c :=
  (upcastDowncast (by decide) fun _ _ _ => rfl).1.mpr fun single => absurd single (by decide)

-- Bit 30 is above the capacity of the narrow code and inside its word.
def lostCode : Code .m64 := ⟨fun _ => 2 ^ 30⟩

theorem lostCodeCast :
    (upcast (downcast lostCode : Code .m32) ⟨fun _ => 2 ^ 30⟩ : Code .m64).word 0 ≠ lostCode.word 0 := by
  decide

theorem digitLost : ¬∀ narrow wide : Format, narrow.total ≤ wide.total → ∀ (c : Code wide) (m : Code .m192),
    Agree narrow c m → (upcast (downcast c : Code narrow) m : Code wide) = c := by
  intro all
  have same := all .m32 .m64 (by decide) lostCode ⟨fun _ => 2 ^ 30⟩ ?_
  · exact lostCodeCast (congrArg (fun a => a.word 0) same)
  · intro i high below
    have inside : i < 64 := below
    have first := bitWord (a := lostCode) (k := 0) (j := i) inside
    have second := @minimumBit .m64 ⟨fun _ => 2 ^ 30⟩ 0 i (by decide) inside
    rw [Nat.mul_zero, Nat.zero_add] at first second
    rw [first, second]
    rfl

end Dewfall.Morton
