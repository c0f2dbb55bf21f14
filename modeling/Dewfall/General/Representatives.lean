import Mathlib.Data.List.Basic

/-! One scan over a list in order of its cells, which closes a group when the next element starts
another cell and picks one index in each group. How an index is picked is a parameter. -/
namespace General.Representatives

variable {α : Type*}

def scan (starts : α → α → Bool) (pick : Nat → Nat → Nat) : List α → Nat → Nat → α → List Nat
  | [], i, start, _ => [start + (i - start) / 2]
  | c :: rest, i, start, first =>
    if starts first c then (start + pick start (i - start)) :: scan starts pick rest (i + 1) i c
    else scan starts pick rest (i + 1) start first

def representatives (starts : α → α → Bool) (pick : Nat → Nat → Nat) : List α → List Nat
  | [] => []
  | first :: rest => scan starts pick rest 1 0 first

-- From `start` on: one index for each cell, in the order of the cells.
structure Represents (cell : α → Nat) (all : List α) (start : Nat) (picks : List Nat) : Prop where
  inside : ∀ j ∈ picks, start ≤ j ∧ j < all.length
  rising : picks.Pairwise fun i j => ∀ a b, all[i]? = some a → all[j]? = some b → cell a < cell b
  covers : ∀ (n : Nat) (c : α), start ≤ n → all[n]? = some c → ∃ j ∈ picks, ∃ a, all[j]? = some a ∧ cell a = cell c

variable {cell : α → Nat} {starts : α → α → Bool} {pick : Nat → Nat → Nat}

theorem cellsMonotone {all : List α} (sorted : all.Pairwise fun a b => cell a ≤ cell b) {i j : Nat} {a b : α}
    (le : i ≤ j) (first : all[i]? = some a) (second : all[j]? = some b) : cell a ≤ cell b := by
  obtain ⟨inside, rfl⟩ := List.getElem?_eq_some_iff.mp first
  obtain ⟨inside', rfl⟩ := List.getElem?_eq_some_iff.mp second
  rcases Nat.lt_or_eq_of_le le with less | same
  · exact List.pairwise_iff_getElem.mp sorted i j inside inside' less
  · subst same
    exact Nat.le_refl _

theorem scanRepresents {all : List α} (sorted : all.Pairwise fun a b => cell a ≤ cell b)
    (parts : ∀ a ∈ all, ∀ c ∈ all, cell a ≤ cell c → (starts a c = true ↔ cell a < cell c))
    (picked : ∀ start size, 0 < size → pick start size < size) {rest : List α} {i start : Nat} {first : α}
    (here : all.drop i = rest) (few : i ≤ all.length) (open_ : start < i) (known : first ∈ all)
    (group : ∀ n, start ≤ n → n < i → ∀ a, all[n]? = some a → cell a = cell first) :
    Represents cell all start (scan starts pick rest i start first) := by
  induction rest generalizing i start first with
  | nil =>
    have whole : i = all.length := by
      have short := List.drop_eq_nil_iff.mp here
      omega
    have middle : start + (i - start) / 2 < i := by omega
    refine ⟨?_, List.pairwise_singleton _ _, ?_⟩
    · intro j mem
      rw [List.mem_singleton.mp mem]
      omega
    · intro n c low at_
      have inside := (List.getElem?_eq_some_iff.mp at_).1
      have some := List.getElem?_eq_getElem (show start + (i - start) / 2 < all.length by omega)
      refine ⟨_, List.mem_singleton.mpr rfl, _, some, ?_⟩
      rw [group _ (by omega) middle _ some, group n low (by omega) c at_]
  | cons c rest ih =>
    have inside : i < all.length := by
      by_contra far
      rw [List.drop_eq_nil_of_le (by omega)] at here
      cases here
    have at_ : all[i]? = some c := by
      rw [← List.head?_drop, here]
      rfl
    have mem : c ∈ all := List.mem_of_getElem? at_
    have later : all.drop (i + 1) = rest := by rw [← List.drop_drop, here]; rfl
    have below : cell first ≤ cell c := by
      obtain ⟨a, value⟩ : ∃ a, all[start]? = some a := ⟨_, List.getElem?_eq_getElem (by omega)⟩
      rw [← group start (Nat.le_refl _) open_ a value]
      exact cellsMonotone sorted (Nat.le_of_lt open_) value at_
    have starting := parts first known c mem below
    rw [scan]
    split
    · rename_i fresh
      have less := starting.mp fresh
      have next := ih later inside (Nat.lt_succ_self i) mem fun n low high a value => by
        have same : n = i := by omega
        rw [same, at_] at value
        rw [Option.some.inj value]
      have size := picked start (i - start) (by omega)
      refine ⟨?_, List.pairwise_cons.mpr ⟨?_, next.rising⟩, ?_⟩
      · intro j mem
        rcases List.mem_cons.mp mem with rfl | mem
        · omega
        · have bounds := next.inside j mem
          omega
      · intro j mem a b first_ second
        rw [group _ (by omega) (by omega) a first_]
        exact Nat.lt_of_lt_of_le less (cellsMonotone sorted (next.inside j mem).1 at_ second)
      · intro n d low value
        by_cases closed : n < i
        · obtain ⟨a, chosen⟩ : ∃ a, all[start + pick start (i - start)]? = some a :=
            ⟨_, List.getElem?_eq_getElem (by omega)⟩
          refine ⟨_, List.mem_cons_self, a, chosen, ?_⟩
          rw [group _ (by omega) (by omega) a chosen, group n low closed d value]
        · obtain ⟨j, mem, a, chosen, same⟩ := next.covers n d (by omega) value
          exact ⟨j, List.mem_cons_of_mem _ mem, a, chosen, same⟩
    · rename_i same
      refine ih later inside (by omega) known fun n low high a value => ?_
      by_cases last : n = i
      · rw [last, at_] at value
        rw [← Option.some.inj value]
        have more := mt starting.mpr same
        omega
      · exact group n low (by omega) a value

theorem representsAll {all : List α} (sorted : all.Pairwise fun a b => cell a ≤ cell b)
    (parts : ∀ a ∈ all, ∀ c ∈ all, cell a ≤ cell c → (starts a c = true ↔ cell a < cell c))
    (picked : ∀ start size, 0 < size → pick start size < size) :
    Represents cell all 0 (representatives starts pick all) := by
  cases all with
  | nil => exact ⟨by simp [representatives], List.Pairwise.nil, by simp⟩
  | cons first rest =>
    refine scanRepresents sorted parts picked rfl (by simp) Nat.one_pos List.mem_cons_self ?_
    intro n _ high a value
    have zero : n = 0 := by omega
    subst zero
    rw [Option.some.inj value]

end General.Representatives
