import Mathlib.Algebra.Group.Nat.Defs
import Mathlib.Logic.Basic
import Mathlib.Tactic.TypeStar

/-! Labelled transition systems over arbitrary state and label types. A run is a finite
list of labels; a condition on single steps restricts a system without changing its steps.
Liveness and fairness are not treated. -/
namespace General.Transition

structure System (σ α : Type*) where
  initial : σ → Prop
  step : σ → α → σ → Prop

variable {σ α : Type*}

/-- The same system, with only the steps that meet `cond` in the state they start from. -/
def System.under (M : System σ α) (cond : σ → α → Prop) : System σ α where
  initial := M.initial
  step s a t := cond s a ∧ M.step s a t

inductive Run (M : System σ α) : σ → List α → σ → Prop where
  | nil (s) : Run M s [] s
  | cons {s a t rest u} (first : M.step s a t) (later : Run M t rest u) : Run M s (a :: rest) u

def Reachable (M : System σ α) (t : σ) : Prop :=
  ∃ s labels, M.initial s ∧ Run M s labels t

theorem runAppend {M : System σ α} {s t u labels more}
    (first : Run M s labels t) (later : Run M t more u) : Run M s (labels ++ more) u := by
  induction first with
  | nil => exact later
  | cons step _ ih => exact .cons step (ih later)

theorem runOne {M : System σ α} {s a t} (step : M.step s a t) : Run M s [a] t :=
  .cons step (.nil t)

theorem reachableInitial {M : System σ α} {s} (start : M.initial s) : Reachable M s :=
  ⟨s, [], start, .nil s⟩

theorem reachableStep {M : System σ α} {s a t} (reach : Reachable M s) (step : M.step s a t) :
    Reachable M t := by
  obtain ⟨start, labels, initial, run⟩ := reach
  exact ⟨start, labels ++ [a], initial, runAppend run (runOne step)⟩

theorem runUnder {M : System σ α} {cond s labels t} (run : Run (M.under cond) s labels t) :
    Run M s labels t := by
  induction run with
  | nil => exact .nil _
  | cons step _ ih => exact .cons step.2 ih

theorem reachableUnder {M : System σ α} {cond t} (reach : Reachable (M.under cond) t) :
    Reachable M t := by
  obtain ⟨s, labels, initial, run⟩ := reach
  exact ⟨s, labels, initial, runUnder run⟩

/-! ## Systems given by a function -/

def System.ofFunction (start : σ) (allowed : σ → α → Prop) (next : σ → α → σ) : System σ α where
  initial s := s = start
  step s a t := allowed s a ∧ t = next s a

def AllAllowed (allowed : σ → α → Prop) (next : σ → α → σ) : σ → List α → Prop
  | _, [] => True
  | s, a :: rest => allowed s a ∧ AllAllowed allowed next (next s a) rest

def decideAllAllowed (allowed : σ → α → Prop) (next : σ → α → σ) [∀ s a, Decidable (allowed s a)] :
    (s : σ) → (labels : List α) → Decidable (AllAllowed allowed next s labels)
  | _, [] => .isTrue trivial
  | s, a :: rest =>
    have := decideAllAllowed allowed next (next s a) rest
    inferInstanceAs (Decidable (allowed s a ∧ AllAllowed allowed next (next s a) rest))

instance (allowed : σ → α → Prop) (next : σ → α → σ) [∀ s a, Decidable (allowed s a)]
    (s : σ) (labels : List α) : Decidable (AllAllowed allowed next s labels) :=
  decideAllAllowed allowed next s labels

theorem runAllowed {start : σ} {allowed cond : σ → α → Prop} {next : σ → α → σ} {s labels}
    (all : AllAllowed (fun s a => cond s a ∧ allowed s a) next s labels) :
    Run ((System.ofFunction start allowed next).under cond) s labels (labels.foldl next s) := by
  induction labels generalizing s with
  | nil => exact .nil s
  | cons a rest ih => exact .cons ⟨all.1.1, all.1.2, rfl⟩ (ih all.2)

theorem reachableAllowed {start : σ} {allowed cond : σ → α → Prop} {next : σ → α → σ} {labels}
    (all : AllAllowed (fun s a => cond s a ∧ allowed s a) next start labels) :
    Reachable ((System.ofFunction start allowed next).under cond) (labels.foldl next start) :=
  ⟨start, labels, rfl, runAllowed all⟩

/-! ## Invariants -/

structure Inductive (M : System σ α) (inv : σ → Prop) : Prop where
  initial : ∀ s, M.initial s → inv s
  step : ∀ s a t, inv s → M.step s a t → inv t

theorem runInvariant {M : System σ α} {inv : σ → Prop} {s labels t}
    (keeps : ∀ s a t, inv s → M.step s a t → inv t) (run : Run M s labels t) (start : inv s) :
    inv t := by
  induction run with
  | nil => exact start
  | cons step _ ih => exact ih (keeps _ _ _ start step)

theorem reachableInvariant {M : System σ α} {inv : σ → Prop} {t}
    (holds : Inductive M inv) (reach : Reachable M t) : inv t := by
  obtain ⟨s, _, initial, run⟩ := reach
  exact runInvariant holds.step run (holds.initial s initial)

/-- Where two systems step alike in the states that an invariant of the first allows, what the second
reaches the first reaches too. -/
theorem reachableInto {M N : System σ α} {inv : σ → Prop} {t} (holds : Inductive M inv)
    (starts : ∀ s, N.initial s → M.initial s) (steps : ∀ s a t, inv s → N.step s a t → M.step s a t)
    (reach : Reachable N t) : Reachable M t := by
  refine (reachableInvariant (show Inductive N fun s => Reachable M s ∧ inv s from ⟨fun s initial => ?_, ?_⟩) reach).1
  · exact ⟨reachableInitial (starts s initial), holds.initial s (starts s initial)⟩
  · rintro s a t ⟨reached, kept⟩ step
    have taken := steps s a t kept step
    exact ⟨reachableStep reached taken, holds.step s a t kept taken⟩

end General.Transition
