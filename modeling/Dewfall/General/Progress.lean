import Dewfall.General.Transition
import Mathlib.Algebra.Order.Ring.Nat
import Mathlib.Data.List.Nodup

/-! Runs that end: from a state every run comes to the goal, whichever steps it takes. A step is possible as
long as the goal is not reached, and a measure bounds how many there are. No step is assumed to be fair. -/
namespace General.Transition

variable {σ α : Type*}

inductive Inevitable (M : System σ α) (goal : σ → Prop) : σ → Prop where
  | now {s} (here : goal s) : Inevitable M goal s
  | later {s} (moves : ∃ a t, M.step s a t) (all : ∀ a t, M.step s a t → Inevitable M goal t) :
      Inevitable M goal s

theorem inevitable {M : System σ α} {inv goal : σ → Prop} (measure : σ → Nat)
    (keeps : ∀ s a t, inv s → M.step s a t → inv t)
    (drops : ∀ s a t, inv s → M.step s a t → measure t < measure s)
    (moves : ∀ s, inv s → ¬goal s → ∃ a t, M.step s a t) {s} (start : inv s) : Inevitable M goal s := by
  induction bound : measure s using Nat.strong_induction_on generalizing s with
  | h n ih =>
    by_cases here : goal s
    · exact .now here
    · refine .later (moves s start here) fun a t step => ?_
      exact ih (measure t) (bound ▸ drops s a t start step) (keeps s a t start step) rfl

/-! ## A measure that is a sum over keys -/

theorem sumOther {κ : Type*} {keys : List κ} {k : κ} {f g : κ → Nat} (away : k ∉ keys)
    (others : ∀ j, j ≠ k → g j = f j) : (keys.map g).sum = (keys.map f).sum := by
  rw [List.map_congr_left fun j mem => others j fun same => away (same ▸ mem)]

-- Only the part of one key changes.
theorem sumUpdate {κ : Type*} {keys : List κ} {k : κ} {f g : κ → Nat} (distinct : keys.Nodup) (mem : k ∈ keys)
    (others : ∀ j, j ≠ k → g j = f j) : (keys.map g).sum + f k = (keys.map f).sum + g k := by
  induction keys with
  | nil => cases mem
  | cons first rest ih =>
    obtain ⟨away, distinct⟩ := List.nodup_cons.mp distinct
    simp only [List.map_cons, List.sum_cons]
    rcases List.mem_cons.mp mem with rfl | later
    · rw [sumOther away others]
      omega
    · have apart : first ≠ k := fun same => away (same ▸ later)
      have tail := ih distinct later
      rw [others first apart]
      omega

end General.Transition
