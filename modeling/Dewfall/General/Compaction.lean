import Mathlib.Data.List.Basic

/-! Compaction of a list in place: the elements at chosen places, in rising order, are moved to its front
one by one while it is read. Any number of lists may be compacted by the same choice of places. -/
namespace General.Compaction

variable {α : Type*} {original xs : List α} {kept : List Nat} {i : Nat}

def move (i k : Nat) (xs : List α) : List α :=
  match xs[i]? with
  | none => xs
  | some x => xs.set k x

-- The elements at `kept`, all of them before `i`, have been moved; nothing from `i` on has changed.
structure Compacted (original : List α) (kept : List Nat) (i : Nat) (xs : List α) : Prop where
  rest : ∀ j : Nat, i ≤ j → xs[j]? = original[j]?
  front : ∀ k j : Nat, kept[k]? = some j → xs[k]? = original[j]?
  room : kept.length ≤ i

theorem compactedStart : Compacted original [] 0 original :=
  ⟨fun _ _ => rfl, fun _ _ here => by simp at here, Nat.le_refl _⟩

theorem compactedSkip (before : Compacted original kept i xs) : Compacted original kept (i + 1) xs :=
  ⟨fun j later => before.rest j (by omega), before.front, Nat.le_succ_of_le before.room⟩

theorem moveSelf : move i i xs = xs := by
  unfold move
  split
  · rfl
  · rename_i x here
    obtain ⟨short, rfl⟩ := List.getElem?_eq_some_iff.mp here
    exact List.set_getElem_self short

theorem moveGet {k : Nat} (short : i < xs.length) (room : k ≤ i) (j : Nat) :
    (move i k xs)[j]? = if j = k then xs[i]? else xs[j]? := by
  unfold move
  rw [List.getElem?_eq_getElem short]
  dsimp only
  rw [List.getElem?_set]
  by_cases same : k = j
  · rw [if_pos same, if_pos same.symm, if_pos (by omega)]
  · rw [if_neg same, if_neg (Ne.symm same)]

theorem compactedMove (before : Compacted original kept i xs) (inside : i < original.length) :
    Compacted original (kept ++ [i]) (i + 1) (move i kept.length xs) := by
  have here := before.rest i (Nat.le_refl _)
  have short : i < xs.length := by
    by_contra long
    rw [List.getElem?_eq_none (Nat.le_of_not_lt long), List.getElem?_eq_getElem inside] at here
    cases here
  have get := moveGet short before.room
  refine ⟨fun j later => ?_, fun k j place => ?_, ?_⟩
  · rw [get, if_neg (by have := before.room; omega)]
    exact before.rest j (by omega)
  · rw [get]
    rcases Nat.lt_or_ge k kept.length with old | new
    · rw [if_neg (Nat.ne_of_lt old)]
      rw [List.getElem?_append_left old] at place
      exact before.front k j place
    · rw [List.getElem?_append_right new] at place
      have first : k = kept.length := by
        obtain ⟨bound, -⟩ := List.getElem?_eq_some_iff.mp place
        simp only [List.length_singleton] at bound
        omega
      rw [if_pos first]
      rw [first, Nat.sub_self] at place
      cases place
      exact here
  · rw [List.length_append, List.length_singleton]
    exact Nat.succ_le_succ before.room

-- What the front then holds.
theorem compactedTake (done : Compacted original kept i xs) {f : Nat → α}
    (places : ∀ j ∈ kept, original[j]? = some (f j)) : xs.take kept.length = kept.map f := by
  refine List.ext_getElem? fun k => ?_
  rcases Nat.lt_or_ge k kept.length with short | long
  · have place : kept[k]? = some kept[k] := List.getElem?_eq_getElem short
    rw [List.getElem?_take_of_lt short, done.front k _ place, places _ (List.getElem_mem short),
      List.getElem?_map, place]
    rfl
  · rw [List.getElem?_eq_none, List.getElem?_eq_none]
    · rwa [List.length_map]
    · exact Nat.le_trans (List.length_take_le _ _) long

end General.Compaction
