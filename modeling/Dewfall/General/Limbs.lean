import Mathlib.Algebra.Group.Nat.Defs
import Mathlib.Tactic.Ring

/-! Numbers as lists of limbs in a base, least limb first: addition with a carry, subtraction with a
borrow, and how a carry shows in a wrapped sum. Limbs are below the base wherever that is stated. -/
namespace General.Limbs

def number (w : Nat) : List Nat → Nat
  | [] => 0
  | a :: rest => a + w * number w rest

def Bounded (w : Nat) (limbs : List Nat) : Prop := ∀ a ∈ limbs, a < w

def sum (w : Nat) : Nat → List Nat → List Nat → List Nat
  | carry, a :: as, b :: bs => (a + b + carry) % w :: sum w ((a + b + carry) / w) as bs
  | _, _, _ => []

def difference (w : Nat) : Nat → List Nat → List Nat → List Nat
  | borrow, a :: as, b :: bs =>
    (a + 2 * w - (b + borrow)) % w :: difference w (if a < b + borrow then 1 else 0) as bs
  | _, _, _ => []

variable {w : Nat}

theorem numberInj {as bs : List Nat} (same : as.length = bs.length) (first : Bounded w as) (second : Bounded w bs)
    (equal : number w as = number w bs) : as = bs := by
  induction as generalizing bs with
  | nil =>
    cases bs with
    | nil => rfl
    | cons b bs => cases same
  | cons a as ih =>
    cases bs with
    | nil => cases same
    | cons b bs =>
      obtain ⟨here, later⟩ := List.forall_mem_cons.mp first
      obtain ⟨there, others⟩ := List.forall_mem_cons.mp second
      have positive := Nat.zero_lt_of_lt here
      rw [number, number] at equal
      have low := congrArg (· % w) equal
      have high := congrArg (· / w) equal
      simp only [Nat.add_mul_mod_self_left, Nat.mod_eq_of_lt here, Nat.mod_eq_of_lt there] at low
      simp only [Nat.add_mul_div_left _ _ positive, Nat.div_eq_of_lt here, Nat.div_eq_of_lt there, Nat.zero_add] at high
      rw [low, ih (Nat.succ.inj same) later others high]

theorem sumBounded (positive : 0 < w) (carry : Nat) (as bs : List Nat) : Bounded w (sum w carry as bs) := by
  induction as generalizing bs carry with
  | nil => exact fun _ mem => nomatch mem
  | cons a as ih =>
    cases bs with
    | nil => exact fun _ mem => nomatch mem
    | cons b bs => exact List.forall_mem_cons.mpr ⟨Nat.mod_lt _ positive, ih _ _⟩

theorem sumLength {as bs : List Nat} (same : as.length = bs.length) (carry : Nat) :
    (sum w carry as bs).length = as.length := by
  induction as generalizing bs carry with
  | nil => rfl
  | cons a as ih =>
    cases bs with
    | nil => cases same
    | cons b bs => exact congrArg Nat.succ (ih (Nat.succ.inj same) _)

theorem sumNumber (positive : 0 < w) {as bs : List Nat} (same : as.length = bs.length) (carry : Nat) :
    number w (sum w carry as bs) = (number w as + number w bs + carry) % w ^ as.length := by
  induction as generalizing bs carry with
  | nil =>
    cases bs with
    | nil => exact (Nat.mod_one _).symm
    | cons b bs => cases same
  | cons a as ih =>
    cases bs with
    | nil => cases same
    | cons b bs =>
      have rest := ih (Nat.succ.inj same) ((a + b + carry) / w)
      have whole : number w (a :: as) + number w (b :: bs) + carry =
          a + b + carry + w * (number w as + number w bs) := by
        rw [number, number]
        ring
      rw [sum, number, rest, whole, List.length_cons, Nat.pow_succ, Nat.mul_comm (w ^ as.length), Nat.mod_mul,
        Nat.add_mul_mod_self_left]
      congr 3
      rw [Nat.add_mul_div_left _ _ positive, Nat.add_comm]

theorem differenceLimb {a b borrow : Nat} (first : a < w) (second : b < w) (one : borrow ≤ 1) :
    (a + 2 * w - (b + borrow)) % w + (b + borrow) = a + w * if a < b + borrow then 1 else 0 := by
  split
  · rename_i short
    have wrapped : a + 2 * w - (b + borrow) = a + w - (b + borrow) + w := by omega
    rw [wrapped, Nat.add_mod_right, Nat.mod_eq_of_lt (by omega)]
    omega
  · rename_i enough
    have wrapped : a + 2 * w - (b + borrow) = a - (b + borrow) + 2 * w := by omega
    rw [wrapped, Nat.add_mul_mod_self_right, Nat.mod_eq_of_lt (by omega)]
    omega

theorem carryOut {n : Nat} (bound : n < 2 * w) : n / w = if w ≤ n then 1 else 0 := by
  split
  · rename_i wrapped
    rw [Nat.div_eq_sub_div (by omega) wrapped, Nat.div_eq_of_lt (by omega)]
  · rename_i under
    exact Nat.div_eq_of_lt (Nat.lt_of_not_le under)

-- What a subtraction borrows, the addition carries.
theorem sumDifference {as bs : List Nat} (same : as.length = bs.length) (first : Bounded w as)
    (second : Bounded w bs) {borrow : Nat} (one : borrow ≤ 1) : sum w borrow (difference w borrow as bs) bs = as := by
  induction as generalizing bs borrow with
  | nil => rfl
  | cons a as ih =>
    cases bs with
    | nil => cases same
    | cons b bs =>
      obtain ⟨here, later⟩ := List.forall_mem_cons.mp first
      obtain ⟨there, others⟩ := List.forall_mem_cons.mp second
      have limb := differenceLimb here there one
      have next : (if a < b + borrow then 1 else 0) ≤ 1 := by split <;> omega
      have rest := ih (Nat.succ.inj same) later others next
      rw [difference, sum, Nat.add_assoc, limb, Nat.add_mul_mod_self_left, Nat.mod_eq_of_lt here,
        Nat.add_mul_div_left _ _ (Nat.zero_lt_of_lt here), Nat.div_eq_of_lt here, Nat.zero_add, rest]

theorem differenceSum {as bs : List Nat} (same : as.length = bs.length) (first : Bounded w as)
    (second : Bounded w bs) {carry : Nat} (one : carry ≤ 1) : difference w carry (sum w carry as bs) bs = as := by
  induction as generalizing bs carry with
  | nil => rfl
  | cons a as ih =>
    cases bs with
    | nil => cases same
    | cons b bs =>
      obtain ⟨here, later⟩ := List.forall_mem_cons.mp first
      obtain ⟨there, others⟩ := List.forall_mem_cons.mp second
      have out := @carryOut w (a + b + carry) (by omega)
      have limb := Nat.div_add_mod (a + b + carry) w
      have next : (a + b + carry) / w ≤ 1 := by
        rw [out]
        split <;> omega
      have rest := ih (Nat.succ.inj same) later others next
      have borrows : (if (a + b + carry) % w < b + carry then 1 else 0) = (a + b + carry) / w := by
        rw [out] at limb ⊢
        split at limb <;> split <;> omega
      have back : ((a + b + carry) % w + 2 * w - (b + carry)) % w = a := by
        rw [out] at limb
        split at limb
        · have wrapped : (a + b + carry) % w + 2 * w - (b + carry) = a + w := by omega
          rw [wrapped, Nat.add_mod_right, Nat.mod_eq_of_lt here]
        · have wrapped : (a + b + carry) % w + 2 * w - (b + carry) = a + 2 * w := by omega
          rw [wrapped, Nat.add_mul_mod_self_right, Nat.mod_eq_of_lt here]
      rw [sum, difference, borrows, back, rest]

/-! ## Carries and borrows of one limb -/

-- Without a carry that comes in, the sum wraps where it is less than a summand; with one, where it is not more.
theorem wraps {a b : Nat} (first : a < w) (second : b < w) : (a + b) % w < a ↔ w ≤ a + b := by
  by_cases wrapped : w ≤ a + b
  · have wrapped : (a + b) % w = a + b - w := by
      rw [Nat.mod_eq_sub_mod wrapped, Nat.mod_eq_of_lt (by omega)]
    omega
  · rw [Nat.mod_eq_of_lt (Nat.lt_of_not_le wrapped)]
    omega

end General.Limbs
