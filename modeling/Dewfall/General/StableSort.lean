import Mathlib.Data.List.Sort

/-! Sorting by a key. Elements of one key stay in the order they had; this determines the sorted list.
How the sort is carried out is not treated. -/
namespace General.StableSort

variable {α κ : Type*} [LinearOrder κ]

def sortBy (key : α → κ) (l : List α) : List α := l.insertionSort fun a b => key a ≤ key b

-- Sorted by key, and by `R` where keys are equal.
abbrev Follows (key : α → κ) (R : α → α → Prop) (a b : α) : Prop := key a < key b ∨ key a = key b ∧ R a b

theorem sortByPerm (key : α → κ) (l : List α) : (sortBy key l).Perm l := List.perm_insertionSort _ l

theorem insertFollows {key : α → κ} {R : α → α → Prop} {a : α} {l : List α} (before : ∀ b ∈ l, R a b)
    (sorted : l.Pairwise (Follows key R)) : (l.orderedInsert (fun a b => key a ≤ key b) a).Pairwise (Follows key R) := by
  induction l with
  | nil => exact List.pairwise_singleton _ _
  | cons b rest ih =>
    obtain ⟨first, later⟩ := List.pairwise_cons.mp sorted
    obtain ⟨here, others⟩ := List.forall_mem_cons.mp before
    rw [List.orderedInsert_cons]
    split
    · rename_i le
      refine List.pairwise_cons.mpr ⟨fun c mem => ?_, sorted⟩
      have above : key a ≤ key c := by
        rcases List.mem_cons.mp mem with rfl | there
        · exact le
        · exact le.trans ((first c there).elim le_of_lt fun same => le_of_eq same.1)
      exact above.lt_or_eq.imp_right fun same => ⟨same, before c mem⟩
    · rename_i above
      refine List.pairwise_cons.mpr ⟨fun c mem => ?_, ih others later⟩
      rcases (List.mem_orderedInsert _).mp mem with rfl | there
      · exact Or.inl (not_le.mp above)
      · exact first c there

theorem sortByFollows {key : α → κ} {R : α → α → Prop} {l : List α} (ordered : l.Pairwise R) :
    (sortBy key l).Pairwise (Follows key R) := by
  induction l with
  | nil => exact List.Pairwise.nil
  | cons a rest ih =>
    obtain ⟨first, later⟩ := List.pairwise_cons.mp ordered
    refine insertFollows (fun b mem => first b ?_) (ih later)
    exact (sortByPerm key rest).mem_iff.mp mem

theorem sortBySorted (key : α → κ) (l : List α) : (sortBy key l).Pairwise fun a b => key a ≤ key b := by
  have follows := @sortByFollows _ _ _ key (fun _ _ => True) l (List.pairwise_of_forall fun _ _ => trivial)
  exact follows.imp fun either => either.elim le_of_lt fun same => le_of_eq same.1

theorem sortByUnique {key : α → κ} {R : α → α → Prop} {l order : List α} (asymm : ∀ a b, R a b → ¬R b a)
    (ordered : l.Pairwise R) (perm : order.Perm l) (sorted : order.Pairwise (Follows key R)) : order = sortBy key l := by
  refine (perm.trans (sortByPerm key l).symm).eq_of_pairwise (fun a b _ _ first second => ?_) sorted
    (sortByFollows ordered)
  exfalso
  rcases first with less | ⟨same, before⟩
  · exact second.elim (lt_asymm less) fun other => less.ne' other.1
  · exact second.elim (fun less => less.ne' same) fun other => asymm _ _ before other.2

theorem eraseDupsAscending {l : List κ} (sorted : l.Pairwise (· ≤ ·)) : l.eraseDups.Pairwise (· < ·) := by
  induction length : l.length using Nat.strongRecOn generalizing l with
  | ind n ih =>
    cases l with
    | nil => exact .nil
    | cons a rest =>
      obtain ⟨first, later⟩ := List.pairwise_cons.mp sorted
      rw [List.eraseDups_cons]
      refine List.pairwise_cons.mpr ⟨fun b mem => ?_, ?_⟩
      · obtain ⟨there, other⟩ := List.mem_filter.mp (List.mem_eraseDups.mp mem)
        exact lt_of_le_of_ne (first b there) fun same => by simp [same] at other
      · exact ih _ (length ▸ Nat.lt_succ_of_le (List.length_filter_le ..)) (later.filter _) rfl

end General.StableSort
