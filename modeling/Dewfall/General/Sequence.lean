import Mathlib.Data.List.Forall2

/-! Partial functions along a list: a run over the list that ended has one value for each element. -/
namespace General.Sequence

theorem mapMOk {ε α β : Type} {f : α → Except ε β} {l : List α} {r : List β} (done : l.mapM f = .ok r) :
    List.Forall₂ (fun a b => f a = .ok b) l r := by
  induction l generalizing r with
  | nil =>
    cases done
    exact .nil
  | cons a rest ih =>
    rw [List.mapM_cons] at done
    cases first : f a with
    | error e =>
      rw [first] at done
      cases done
    | ok b =>
      rw [first] at done
      cases later : rest.mapM f with
      | error e =>
        rw [later] at done
        cases done
      | ok bs =>
        rw [later] at done
        cases done
        exact .cons first (ih later)

theorem mapMSome {α β : Type} {f : α → Option β} {l : List α} {r : List β} (done : l.mapM f = some r) :
    List.Forall₂ (fun a b => f a = some b) l r := by
  induction l generalizing r with
  | nil =>
    cases done
    exact .nil
  | cons a rest ih =>
    rw [List.mapM_cons] at done
    cases first : f a with
    | none =>
      rw [first] at done
      cases done
    | some b =>
      rw [first] at done
      cases later : rest.mapM f with
      | none =>
        rw [later] at done
        cases done
      | some bs =>
        rw [later] at done
        cases done
        exact .cons first (ih later)

theorem mapMTotal {α β : Type} {f : α → Option β} {l : List α} (each : ∀ a ∈ l, ∃ b, f a = some b) :
    ∃ r, l.mapM f = some r := by
  induction l with
  | nil => exact ⟨[], rfl⟩
  | cons a rest ih =>
    obtain ⟨b, first⟩ := each a (List.mem_cons_self ..)
    obtain ⟨bs, later⟩ := ih fun c mem => each c (List.mem_cons_of_mem a mem)
    exact ⟨b :: bs, by rw [List.mapM_cons, first, later]; rfl⟩

theorem forall₂Compose {α β γ : Type} {p : α → β → Prop} {q : β → γ → Prop} {as : List α} {bs : List β} {cs : List γ}
    (first : List.Forall₂ p as bs) (later : List.Forall₂ q bs cs) :
    List.Forall₂ (fun a c => ∃ b, p a b ∧ q b c) as cs := by
  induction first generalizing cs with
  | nil =>
    cases later
    exact .nil
  | cons one _ ih =>
    cases later with
    | cons two rest => exact .cons ⟨_, one, two⟩ (ih rest)

theorem forall₂Get {α β : Type} {p : α → β → Prop} {as : List α} {bs : List β} (all : List.Forall₂ p as bs) {i : Nat}
    {a : α} (here : as[i]? = some a) : ∃ b, bs[i]? = some b ∧ p a b := by
  induction all generalizing i with
  | nil => simp at here
  | cons one _ ih =>
    cases i with
    | zero =>
      cases here
      exact ⟨_, rfl, one⟩
    | succ i => exact ih here

theorem forall₂Mem {α β : Type} {p : α → β → Prop} {as : List α} {bs : List β} (all : List.Forall₂ p as bs) {a : α}
    (mem : a ∈ as) : ∃ b ∈ bs, p a b := by
  obtain ⟨i, here⟩ := List.getElem?_of_mem mem
  obtain ⟨b, there, holds⟩ := forall₂Get all here
  exact ⟨b, List.mem_of_getElem? there, holds⟩

theorem forall₂Zip {α β γ : Type} {p : α → β → Prop} {q : α → γ → Prop} {as : List α} {bs : List β} {cs : List γ}
    (first : List.Forall₂ p as bs) (second : List.Forall₂ q as cs) :
    List.Forall₂ (fun a both => p a both.1 ∧ q a both.2) as (bs.zip cs) := by
  induction first generalizing cs with
  | nil =>
    cases second
    exact .nil
  | cons one _ ih =>
    cases second with
    | cons two later => exact .cons ⟨one, two⟩ (ih later)

end General.Sequence
