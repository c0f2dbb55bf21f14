import Dewfall.General.Codec
import Dewfall.General.Limbs

/-! The subtractions and additions over 32, 64, 128 and 192 bits that the delta coding of morton codes runs
on its bytes: the addition as one modulo the width, and each as the exact inverse of the other. -/
namespace Dewfall.WordArithmetic
open General General.Codec

-- `memcpy(&v, p + count * k, count)`
def load (count : Nat) (p : Bytes) (k : Nat) : BitVec (8 * count) :=
  (Image.word count).decode ((p.drop (count * k)).take count)

-- `memcpy(dst, &v, count)`
def store {count : Nat} (v : BitVec (8 * count)) : Bytes := (Image.word count).encode v

def u32 (p : Bytes) (k : Nat) : BitVec 32 := load 4 p k
def u64 (p : Bytes) (k : Nat) : BitVec 64 := load 8 p k
def put (v : BitVec 64) : Bytes := @store 8 v

/-! ## The operations -/

def lessThanU32 (a b : Bytes) : Bool := u32 a 0 < u32 b 0

def lessThanU64 (a b : Bytes) : Bool := u64 a 0 < u64 b 0

def lessThanU128 (a b : Bytes) : Bool :=
  if u64 a 1 ≠ u64 b 1 then u64 a 1 < u64 b 1
  else u64 a 0 < u64 b 0

def lessThanU192 (a b : Bytes) : Bool :=
  if u64 a 2 ≠ u64 b 2 then u64 a 2 < u64 b 2
  else if u64 a 1 ≠ u64 b 1 then u64 a 1 < u64 b 1
  else u64 a 0 < u64 b 0

def subWord (count : Nat) (a b : Bytes) : Bytes := store (load count a 0 - load count b 0)

def addWord (count : Nat) (a b : Bytes) : Bytes := store (load count a 0 + load count b 0)

def subU32 : Bytes → Bytes → Bytes := subWord 4
def subU64 : Bytes → Bytes → Bytes := subWord 8
def addU32 : Bytes → Bytes → Bytes := addWord 4
def addU64 : Bytes → Bytes → Bytes := addWord 8

def flag (p : Prop) [Decidable p] : BitVec 64 := if p then 1 else 0

def subU128 (a b : Bytes) : Bytes :=
  let r0 := u64 a 0 - u64 b 0
  let borrow := flag (u64 a 0 < u64 b 0)
  let r1 := u64 a 1 - u64 b 1 - borrow
  put r0 ++ put r1

def subU192 (a b : Bytes) : Bytes :=
  let r0 := u64 a 0 - u64 b 0
  let borrow := flag (u64 a 0 < u64 b 0)
  let r1 := u64 a 1 - u64 b 1 - borrow
  let borrow := flag (u64 a 1 < u64 b 1 + borrow ∨ borrow ≠ 0 ∧ u64 b 1 = BitVec.allOnes 64)
  let r2 := u64 a 2 - u64 b 2 - borrow
  put r0 ++ (put r1 ++ put r2)

def addU128 (a b : Bytes) : Bytes :=
  let r0 := u64 a 0 + u64 b 0
  let carry := flag (r0 < u64 a 0)
  let r1 := u64 a 1 + u64 b 1 + carry
  put r0 ++ put r1

def addU192 (a b : Bytes) : Bytes :=
  let r0 := u64 a 0 + u64 b 0
  let carry := flag (r0 < u64 a 0)
  let r1 := u64 a 1 + u64 b 1 + carry
  let carry := flag (r1 < u64 a 1 ∨ carry ≠ 0 ∧ r1 = u64 a 1)
  let r2 := u64 a 2 + u64 b 2 + carry
  put r0 ++ (put r1 ++ put r2)

structure MortonOps where
  less : Bytes → Bytes → Bool
  sub : Bytes → Bytes → Bytes
  add : Bytes → Bytes → Bytes

def getMortonOps : Nat → Option MortonOps
  | 4 => some ⟨lessThanU32, subU32, addU32⟩
  | 8 => some ⟨lessThanU64, subU64, addU64⟩
  | 16 => some ⟨lessThanU128, subU128, addU128⟩
  | 24 => some ⟨lessThanU192, subU192, addU192⟩
  | _ => none

/-! ## Words of bytes -/

theorem storeLength {count : Nat} (v : BitVec (8 * count)) : (store v).length = count := (Image.word count).sized v

theorem loadStore {count : Nat} (v : BitVec (8 * count)) (rest : Bytes) : load count (store v ++ rest) 0 = v := by
  rw [load, Nat.mul_zero, List.drop_zero, List.take_left' (storeLength v)]
  exact (Image.word count).back v

theorem loadOnly {count : Nat} (v : BitVec (8 * count)) : load count (store v) 0 = v := by
  have first := loadStore v []
  rwa [List.append_nil] at first

theorem loadLater {count : Nat} (v : BitVec (8 * count)) (rest : Bytes) (k : Nat) :
    load count (store v ++ rest) (k + 1) = load count rest k := by
  rw [load, load, Nat.mul_succ, Nat.add_comm, ← List.drop_drop, List.drop_left' (storeLength v)]

theorem storeLoad {count : Nat} {p : Bytes} {k : Nat} (room : count * (k + 1) ≤ p.length) :
    store (load count p k) = (p.drop (count * k)).take count := by
  have whole : ((p.drop (count * k)).take count).length = count := by
    rw [Nat.mul_succ] at room
    rw [List.length_take, List.length_drop]
    omega
  have small := ofLittleEndianLt ((p.drop (count * k)).take count)
  have back := ofLittleEndianForth ((p.drop (count * k)).take count)
  rw [whole] at small back
  have fits : ofLittleEndian ((p.drop (count * k)).take count) < 2 ^ (8 * count) := by
    rw [Nat.pow_mul]
    exact small
  have value : (load count p k).toNat = ofLittleEndian ((p.drop (count * k)).take count) :=
    (BitVec.toNat_ofNat ..).trans (Nat.mod_eq_of_lt fits)
  change littleEndian count (load count p k).toNat = _
  rw [value, back]

theorem threeWords {count : Nat} {p : Bytes} (whole : p.length = count * 3) :
    store (load count p 0) ++ (store (load count p 1) ++ store (load count p 2)) = p := by
  rw [storeLoad (by omega), storeLoad (by omega), storeLoad (by omega), Nat.mul_zero, List.drop_zero, Nat.mul_one,
    Nat.mul_two, ← List.drop_drop, List.take_of_length_le (l := (p.drop count).drop count)
      (by rw [List.length_drop, List.length_drop]; omega), List.take_append_drop, List.take_append_drop]

theorem putLength (v : BitVec 64) : (put v).length = 8 := @storeLength 8 v

theorem putNumber (v : BitVec 64) : ofLittleEndian (put v) = v.toNat := by
  have small : v.toNat < 256 ^ 8 := v.isLt
  exact (ofLittleEndianBack 8 v.toNat).trans (Nat.mod_eq_of_lt small)

theorem u64First (v : BitVec 64) (rest : Bytes) : u64 (put v ++ rest) 0 = v := @loadStore 8 v rest

theorem u64Later (v : BitVec 64) (rest : Bytes) (k : Nat) : u64 (put v ++ rest) (k + 1) = u64 rest k :=
  @loadLater 8 v rest k

theorem u64Only (v : BitVec 64) : u64 (put v) 0 = v := @loadOnly 8 v

/-! ## Numbers of limbs -/

def limbs : Nat → Bytes → List Nat
  | 0, _ => []
  | count + 1, p => (u64 p 0).toNat :: limbs count (p.drop 8)

theorem limbsPut (v : BitVec 64) (rest : Bytes) (count : Nat) :
    limbs (count + 1) (put v ++ rest) = v.toNat :: limbs count rest := by
  rw [limbs, u64First, List.drop_left' (putLength v)]

theorem limbsLength (count : Nat) (p : Bytes) : (limbs count p).length = count := by
  induction count generalizing p with
  | zero => rfl
  | succ count ih => exact congrArg Nat.succ (ih _)

theorem limbsBounded (count : Nat) (p : Bytes) : Limbs.Bounded (2 ^ 64) (limbs count p) := by
  induction count generalizing p with
  | zero => exact fun _ mem => nomatch mem
  | succ count ih => exact List.forall_mem_cons.mpr ⟨(u64 p 0).isLt, ih _⟩

theorem limbsNumber {count : Nat} {p : Bytes} (whole : p.length = 8 * count) :
    Limbs.number (2 ^ 64) (limbs count p) = ofLittleEndian p := by
  induction count generalizing p with
  | zero => rw [List.length_eq_zero_iff.mp whole]; rfl
  | succ count ih =>
    have rest : (p.drop 8).length = 8 * count := by
      rw [List.length_drop]
      omega
    have first : put (u64 p 0) = p.take 8 := @storeLoad 8 p 0 (by omega)
    have split := ofLittleEndianAppend (put (u64 p 0)) (p.drop 8)
    rw [putNumber, putLength, first, List.take_append_drop] at split
    have base : (2 : Nat) ^ 64 = 256 ^ 8 := by decide
    rw [limbs, Limbs.number, ih rest, split, base]

theorem limbsInj {count : Nat} {p q : Bytes} (first : p.length = 8 * count) (second : q.length = 8 * count)
    (same : limbs count p = limbs count q) : p = q := by
  have equal : ofLittleEndian p = ofLittleEndian q := by rw [← limbsNumber first, ← limbsNumber second, same]
  rw [← ofLittleEndianForth p, ← ofLittleEndianForth q, equal, first, second]

theorem limbsLast (v : BitVec 64) : limbs 1 (put v) = [v.toNat] := by
  rw [limbs, u64Only]
  rfl

theorem limbsTwo (p : Bytes) : limbs 2 p = [(u64 p 0).toNat, (u64 p 1).toNat] := by
  have second : u64 (p.drop 8) 0 = u64 p 1 := rfl
  rw [limbs, limbs, second]
  rfl

theorem limbsThree (p : Bytes) : limbs 3 p = [(u64 p 0).toNat, (u64 p 1).toNat, (u64 p 2).toNat] := by
  have second : u64 (p.drop 8) 0 = u64 p 1 := rfl
  have third : u64 ((p.drop 8).drop 8) 0 = u64 p 2 := by
    rw [List.drop_drop]
    rfl
  rw [limbs, limbs, limbs, second, third]
  rfl

theorem flagNat (p : Prop) [Decidable p] : (flag p).toNat = if p then 1 else 0 := by
  unfold flag
  split <;> rfl

theorem flagSet (p : Prop) [Decidable p] : flag p ≠ 0 ↔ p := by
  unfold flag
  split
  · rename_i set
    exact iff_of_true (by decide) set
  · rename_i clear
    exact iff_of_false (fun different => different rfl) clear

/-! ## Borrows and carries -/

theorem subFirst (x y : BitVec 64) : (x - y).toNat = (x.toNat + 2 * 2 ^ 64 - (y.toNat + 0)) % 2 ^ 64 := by
  have low := y.isLt
  rw [BitVec.toNat_sub]
  omega

theorem subLimb (x y : BitVec 64) (p : Prop) [Decidable p] :
    (x - y - flag p).toNat = (x.toNat + 2 * 2 ^ 64 - (y.toNat + if p then 1 else 0)) % 2 ^ 64 := by
  have high := x.isLt
  have low := y.isLt
  rw [BitVec.toNat_sub, BitVec.toNat_sub, flagNat]
  split <;> omega

theorem borrowOut (x y : BitVec 64) (p : Prop) [Decidable p] :
    (x < y + flag p ∨ flag p ≠ 0 ∧ y = BitVec.allOnes 64) ↔ x.toNat < y.toNat + if p then 1 else 0 := by
  have high := x.isLt
  have low := y.isLt
  have full : y = BitVec.allOnes 64 ↔ y.toNat = 2 ^ 64 - 1 :=
    ⟨fun same => by rw [same]; rfl, fun same => BitVec.eq_of_toNat_eq same⟩
  rw [flagSet, full, BitVec.lt_def, BitVec.toNat_add, flagNat]
  split
  · rename_i set
    simp only [set, true_and]
    omega
  · rename_i clear
    simp only [clear, false_and, or_false]
    omega

theorem addFirst (x y : BitVec 64) : (x + y).toNat = (x.toNat + y.toNat + 0) % 2 ^ 64 := BitVec.toNat_add ..

theorem addLimb (x y : BitVec 64) (p : Prop) [Decidable p] :
    (x + y + flag p).toNat = (x.toNat + y.toNat + if p then 1 else 0) % 2 ^ 64 := by
  rw [BitVec.toNat_add, BitVec.toNat_add, flagNat]
  omega

theorem carryFirst (x y : BitVec 64) : x + y < x ↔ 2 ^ 64 ≤ x.toNat + y.toNat + 0 := by
  have high := x.isLt
  have low := y.isLt
  rw [BitVec.lt_def, BitVec.toNat_add]
  omega

-- With a carry coming in, a sum equal to its first part has wrapped as well.
theorem carryOut (x y : BitVec 64) (p : Prop) [Decidable p] :
    (x + y + flag p < x ∨ flag p ≠ 0 ∧ x + y + flag p = x) ↔ 2 ^ 64 ≤ x.toNat + y.toNat + if p then 1 else 0 := by
  have high := x.isLt
  have low := y.isLt
  have equal : x + y + flag p = x ↔ (x + y + flag p).toNat = x.toNat :=
    ⟨congrArg BitVec.toNat, BitVec.eq_of_toNat_eq⟩
  rw [equal, flagSet, BitVec.lt_def, addLimb]
  by_cases set : p
  · simp only [set, true_and, if_true]
    omega
  · simp only [set, false_and, or_false, if_false]
    omega

theorem carried (x y : BitVec 64) {carry : Nat} (one : carry ≤ 1) :
    (x.toNat + y.toNat + carry) / 2 ^ 64 = if 2 ^ 64 ≤ x.toNat + y.toNat + carry then 1 else 0 := by
  have high := x.isLt
  have low := y.isLt
  exact Limbs.carryOut (by omega)

theorem bitAtMost (p : Prop) [Decidable p] : (if p then 1 else 0) ≤ 1 := by split <;> decide

theorem subU128Limbs (a b : Bytes) :
    limbs 2 (subU128 a b) = Limbs.difference (2 ^ 64) 0 (limbs 2 a) (limbs 2 b) := by
  rw [subU128, limbsPut, limbsLast, limbsTwo, limbsTwo, subFirst, subLimb]
  rfl

theorem subU192Limbs (a b : Bytes) :
    limbs 3 (subU192 a b) = Limbs.difference (2 ^ 64) 0 (limbs 3 a) (limbs 3 b) := by
  rw [subU192, limbsPut, limbsPut, limbsLast, limbsThree, limbsThree, subFirst, subLimb, subLimb]
  simp only [borrowOut]
  rfl

theorem addU128Limbs (a b : Bytes) : limbs 2 (addU128 a b) = Limbs.sum (2 ^ 64) 0 (limbs 2 a) (limbs 2 b) := by
  rw [addU128, limbsPut, limbsLast, limbsTwo, limbsTwo, addLimb, addFirst]
  simp only [carryFirst, Limbs.sum, carried _ _ (Nat.zero_le 1)]

theorem addU192Limbs (a b : Bytes) : limbs 3 (addU192 a b) = Limbs.sum (2 ^ 64) 0 (limbs 3 a) (limbs 3 b) := by
  rw [addU192, limbsPut, limbsPut, limbsLast, limbsThree, limbsThree, addLimb, addLimb, addFirst]
  simp only [carryOut, carryFirst, Limbs.sum, carried _ _ (Nat.zero_le 1), carried _ _ (bitAtMost _)]

/-! ## The inverses -/

structure Inverses (size : Nat) (sub add : Bytes → Bytes → Bytes) : Prop where
  subLength : ∀ a b, a.length = size → b.length = size → (sub a b).length = size
  addLength : ∀ a b, a.length = size → b.length = size → (add a b).length = size
  addSub : ∀ a b, a.length = size → b.length = size → add (sub a b) b = a
  subAdd : ∀ a b, a.length = size → b.length = size → sub (add a b) b = a
  addModulo : ∀ a b, a.length = size → b.length = size →
    ofLittleEndian (add a b) = (ofLittleEndian a + ofLittleEndian b) % 256 ^ size

theorem wordInverses (count : Nat) : Inverses count (subWord count) (addWord count) := by
  have back : ∀ p : Bytes, p.length = count → store (load count p 0) = p := fun p whole => by
    rw [storeLoad (by omega), Nat.mul_zero, List.drop_zero, List.take_of_length_le (by omega)]
  have number : ∀ p : Bytes, p.length = count → (load count p 0).toNat = ofLittleEndian p := fun p whole => by
    have small := ofLittleEndianLt p
    rw [whole] at small
    have fits : ofLittleEndian p < 2 ^ (8 * count) := by
      rw [Nat.pow_mul]
      exact small
    rw [load, Nat.mul_zero, List.drop_zero, List.take_of_length_le (by omega)]
    exact (BitVec.toNat_ofNat ..).trans (Nat.mod_eq_of_lt fits)
  have power : 2 ^ (8 * count) = 256 ^ count := Nat.pow_mul ..
  refine ⟨fun a b _ _ => storeLength _, fun a b _ _ => storeLength _, fun a b whole _ => ?_, fun a b whole _ => ?_,
    fun a b whole also_ => ?_⟩
  · rw [subWord, addWord, loadOnly, BitVec.sub_add_cancel, back a whole]
  · rw [subWord, addWord, loadOnly, BitVec.add_sub_cancel, back a whole]
  · rw [← number (addWord count a b) (storeLength _), addWord, loadOnly, BitVec.toNat_add, number a whole, number b also_, power]

theorem limbInverses {count : Nat} {sub add : Bytes → Bytes → Bytes}
    (subLength : ∀ a b, (sub a b).length = 8 * count) (addLength : ∀ a b, (add a b).length = 8 * count)
    (subLimbs : ∀ a b, limbs count (sub a b) = Limbs.difference (2 ^ 64) 0 (limbs count a) (limbs count b))
    (addLimbs : ∀ a b, limbs count (add a b) = Limbs.sum (2 ^ 64) 0 (limbs count a) (limbs count b)) :
    Inverses (8 * count) sub add := by
  have same : ∀ a b : Bytes, (limbs count a).length = (limbs count b).length := fun a b => by
    rw [limbsLength, limbsLength]
  refine ⟨fun a b _ _ => subLength a b, fun a b _ _ => addLength a b, fun a b whole _ => ?_, fun a b whole _ => ?_,
    fun a b whole also_ => ?_⟩
  · refine limbsInj (addLength _ _) whole ?_
    rw [addLimbs, subLimbs, Limbs.sumDifference (same a b) (limbsBounded count a) (limbsBounded count b) (Nat.zero_le 1)]
  · refine limbsInj (subLength _ _) whole ?_
    rw [subLimbs, addLimbs, Limbs.differenceSum (same a b) (limbsBounded count a) (limbsBounded count b) (Nat.zero_le 1)]
  · have power : ((2 : Nat) ^ 64) ^ count = 256 ^ (8 * count) := by
      rw [Nat.pow_mul]
      exact congrArg (· ^ count) (by decide)
    rw [← limbsNumber (addLength a b), addLimbs, Limbs.sumNumber (by decide) (same a b), limbsNumber whole,
      limbsNumber also_, limbsLength, power, Nat.add_zero]

theorem opsInverses {typeSize : Nat} {ops : MortonOps} (found : getMortonOps typeSize = some ops) :
    Inverses typeSize ops.sub ops.add := by
  unfold getMortonOps at found
  split at found <;> cases found
  · exact wordInverses 4
  · exact wordInverses 8
  · refine @limbInverses 2 subU128 addU128 (fun a b => ?_) (fun a b => ?_) subU128Limbs addU128Limbs
    · simp only [subU128, List.length_append, putLength]
    · simp only [addU128, List.length_append, putLength]
  · refine @limbInverses 3 subU192 addU192 (fun a b => ?_) (fun a b => ?_) subU192Limbs addU192Limbs
    · simp only [subU192, List.length_append, putLength]
    · simp only [addU192, List.length_append, putLength]

end Dewfall.WordArithmetic
