import Mathlib.Data.List.Basic

/-! What a list keeps when elements are given up from its end until the rest fits, and no more of them than needed.
Which rests fit is a parameter; nothing is asked of it. -/
namespace General.Eviction

variable {α : Type*} {fits : List α → Prop}

/-- `kept` is what is left of `before`; with any shorter suffix given up the rest would not fit. -/
structure Shortest (fits : List α → Prop) (before kept : List α) : Prop where
  suffix : ∃ gone, before = kept ++ gone
  restored : fits kept
  shortest : ∀ front back, before = front ++ back → kept.length < front.length → ¬fits front

theorem shortestStay {l : List α} (fit : fits l) : Shortest fits l l where
  suffix := ⟨[], (List.append_nil l).symm⟩
  restored := fit
  shortest front back split longer := by
    have total := congrArg List.length split
    rw [List.length_append] at total
    omega

theorem shortestWhole {l kept : List α} (fit : fits l) (short : Shortest fits l kept) : kept = l := by
  obtain ⟨gone, split⟩ := short.suffix
  by_contra less
  have some_ : gone ≠ [] := fun empty => less (by rw [split, empty, List.append_nil])
  have longer : kept.length < l.length := by
    rw [split, List.length_append]
    exact Nat.lt_add_of_pos_right (List.length_pos_iff.mpr some_)
  exact short.shortest l [] (List.append_nil l).symm longer fit

theorem shortestPop {l kept : List α} {x : α} (crowded : ¬fits (l ++ [x])) (rest : Shortest fits l kept) :
    Shortest fits (l ++ [x]) kept where
  suffix := by
    obtain ⟨gone, split⟩ := rest.suffix
    exact ⟨gone ++ [x], by rw [split, List.append_assoc]⟩
  restored := rest.restored
  shortest front back split longer := by
    -- Nothing given up is the list that did not fit; otherwise the last element is among what is.
    cases List.eq_nil_or_concat back with
    | inl empty =>
      rw [empty, List.append_nil] at split
      exact split ▸ crowded
    | inr more =>
      obtain ⟨back, last, rfl⟩ := more
      rw [List.concat_eq_append, ← List.append_assoc] at split
      exact rest.shortest front back (List.append_inj' split rfl).1 longer

theorem shortestCongr {fits' : List α → Prop} {l kept : List α}
    (same : ∀ front back, l = front ++ back → (fits front ↔ fits' front)) (short : Shortest fits l kept) :
    Shortest fits' l kept where
  suffix := short.suffix
  restored := by
    obtain ⟨gone, split⟩ := short.suffix
    exact (same kept gone split).mp short.restored
  shortest front back split longer fit := short.shortest front back split longer ((same front back split).mpr fit)

end General.Eviction
