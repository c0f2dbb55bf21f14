import Mathlib.Data.List.Basic

/-! Histories: lists of events to which more are appended, and a condition on each event given those before it.
What comes after an event is not looked at. -/
namespace General.History

variable {ε : Type*}

def Each (P : List ε → ε → Prop) (history : List ε) : Prop :=
  ∀ before e after, history = before ++ e :: after → P before e

theorem eachNil (P : List ε → ε → Prop) : Each P [] := fun before e after none_ => by
  have some_ := congrArg List.length none_
  simp at some_

-- An event of two histories in a row is one of the first, or comes after all of it.
theorem eachAppend {P : List ε → ε → Prop} {history more : List ε} (first : Each P history)
    (then_ : ∀ before e after, more = before ++ e :: after → P (history ++ before) e) : Each P (history ++ more) := by
  intro before e after whole
  rcases List.append_eq_append_iff.mp whole with ⟨middle, rfl, rest⟩ | ⟨middle, own, rest⟩
  · exact then_ middle e after rest
  · cases middle with
    | nil =>
      rw [List.append_nil] at own
      subst own
      have later := then_ [] e after rest.symm
      rwa [List.append_nil] at later
    | cons e' middle =>
      rw [List.cons_append] at rest
      cases rest
      exact first before e middle own

theorem eachSnoc {P : List ε → ε → Prop} {history : List ε} {e : ε} (first : Each P history) (last : P history e) :
    Each P (history ++ [e]) := by
  refine eachAppend first fun before e' after own => ?_
  cases before with
  | nil =>
    cases own
    rwa [List.append_nil]
  | cons x rest =>
    have length := congrArg List.length own
    simp at length

end General.History
