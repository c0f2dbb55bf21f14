import Mathlib.Data.List.Basic

/-! What the members of a list hold together, counted with multiplicity. Any types; nothing is said
about the order in which it is held. -/
namespace General.Holdings

variable {σ α : Type*} {hold : σ → List α} {members : List σ}

theorem countModify [DecidableEq α] (hold : σ → List α) (f : σ → σ) {i : Nat} {s : σ} (here : members[i]? = some s) (a : α) :
    ((members.modify i f).flatMap hold).count a + (hold s).count a =
      (members.flatMap hold).count a + (hold (f s)).count a := by
  induction members generalizing i with
  | nil => cases here
  | cons first rest ih =>
    cases i with
    | zero =>
      cases here
      simp only [List.modify_zero_cons, List.flatMap_cons, List.count_append]
      omega
    | succ i =>
      have later := ih (i := i) here
      simp only [List.modify_succ_cons, List.flatMap_cons, List.count_append]
      omega

theorem modifyMissing {i : Nat} {f : σ → σ} (missing : members[i]? = none) : members.modify i f = members := by
  induction members generalizing i with
  | nil => cases i <;> rfl
  | cons first rest ih =>
    cases i with
    | zero => cases missing
    | succ i => rw [List.modify_succ_cons, ih (i := i) missing]

theorem flatMapModify {i : Nat} {f : σ → σ} (same : ∀ s, members[i]? = some s → hold (f s) = hold s) :
    (members.modify i f).flatMap hold = members.flatMap hold := by
  induction members generalizing i with
  | nil => cases i <;> rfl
  | cons first rest ih =>
    cases i with
    | zero => simp only [List.modify_zero_cons, List.flatMap_cons, same first rfl]
    | succ i => simp only [List.modify_succ_cons, List.flatMap_cons, ih (i := i) same]

theorem memModify {i : Nat} {f : σ → σ} {s : σ} (mem : s ∈ members.modify i f) :
    s ∈ members ∨ ∃ before ∈ members, s = f before := by
  obtain ⟨k, here⟩ := List.mem_iff_getElem?.mp mem
  rw [List.getElem?_modify] at here
  obtain ⟨before, there, same⟩ := Option.map_eq_some_iff.mp here
  have known := List.mem_of_getElem? there
  split at same
  · exact Or.inr ⟨before, known, same.symm⟩
  · exact Or.inl (same ▸ known)

theorem flatMapMap {f : σ → σ} (same : ∀ s, hold (f s) = hold s) :
    (members.map f).flatMap hold = members.flatMap hold := by
  rw [List.flatMap_map]
  exact List.flatMap_congr fun s _ => same s

end General.Holdings
