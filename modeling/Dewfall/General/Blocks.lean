import Mathlib.Algebra.BigOperators.Group.List.Basic
import Mathlib.Algebra.Order.Ring.Nat

/-! Blocks laid out one behind the other: where each starts, and what an element that is put into one of them moves.
What the blocks hold is not treated. -/
namespace General.Blocks

variable {α β : Type*}

def total (width : α → Nat) (list : List α) : Nat := (list.map width).sum

def starts (width : α → Nat) : Nat → List α → List Nat
  | _, [] => []
  | start, x :: rest => start :: starts width (start + width x) rest

-- Where an index is once an element has been put in at a place.
def moved (place i : Nat) : Nat := if place ≤ i then i + 1 else i

theorem movedApart {place i : Nat} : moved place i ≠ place := by
  unfold moved
  split <;> omega

theorem movedInjective {place i j : Nat} (same : moved place i = moved place j) : i = j := by
  unfold moved at same
  split at same <;> split at same <;> omega

theorem movedBelow {place i : Nat} (below : i < place) : moved place i = i := if_neg (Nat.not_le.mpr below)

theorem movedAbove {place i : Nat} (above : place ≤ i) : moved place i = i + 1 := if_pos above

theorem movedOr {place i : Nat} : i = place ∨ ∃ j, i = moved place j := by
  rcases Nat.lt_trichotomy i place with below | same | above
  · exact Or.inr ⟨i, (movedBelow below).symm⟩
  · exact Or.inl same
  · exact Or.inr ⟨i - 1, by rw [movedAbove (by omega)]; omega⟩

theorem putMoved (list : List α) (place i : Nat) (x : α) :
    (list.insertIdx place x)[moved place i]? = list[i]? := by
  rcases Nat.lt_or_ge i place with below | above
  · rw [movedBelow below, List.getElem?_insertIdx_of_lt below]
  · rw [movedAbove above, List.getElem?_insertIdx_of_gt (by omega), Nat.add_sub_cancel]

theorem putHere {list : List α} {place : Nat} (x : α) (within : place ≤ list.length) :
    (list.insertIdx place x)[place]? = some x := by
  rw [List.getElem?_insertIdx_self, if_pos within]

theorem zipPut {l : List α} {m : List β} {k : Nat} (a : α) (b : β) (same : l.length = m.length) :
    (l.insertIdx k a).zip (m.insertIdx k b) = (l.zip m).insertIdx k (a, b) := by
  induction k generalizing l m with
  | zero => rfl
  | succ k ih =>
    cases l with
    | nil =>
      obtain rfl : m = [] := List.eq_nil_of_length_eq_zero same.symm
      rfl
    | cons x l =>
      cases m with
      | nil => cases same
      | cons y m =>
        rw [List.insertIdx_succ_cons, List.insertIdx_succ_cons, List.zip_cons_cons, ih (Nat.succ.inj same)]
        rfl

theorem zipSet {l : List α} {m : List β} {k : Nat} {a : α} (here : l[k]? = some a) (b : β) :
    l.zip (m.set k b) = (l.zip m).set k (a, b) := by
  induction l generalizing m k with
  | nil => cases here
  | cons x l ih =>
    cases m with
    | nil => rfl
    | cons y m =>
      cases k with
      | zero =>
        cases here
        rfl
      | succ k =>
        change (x, y) :: l.zip (m.set k b) = (x, y) :: (l.zip m).set k (a, b)
        rw [ih here]

/-! ## Totals -/

section
variable {width : α → Nat}

theorem totalCons (x : α) (list : List α) : total width (x :: list) = width x + total width list := by
  rw [total, List.map_cons, List.sum_cons, total]

theorem totalTake (list : List α) (k : Nat) {x : α} (here : list[k]? = some x) :
    total width (list.take (k + 1)) = total width (list.take k) + width x := by
  induction list generalizing k with
  | nil => cases here
  | cons y list ih =>
    cases k with
    | zero =>
      cases here
      rw [List.take_succ_cons, totalCons, Nat.add_comm]
      rfl
    | succ k =>
      rw [List.take_succ_cons, totalCons, ih k here, List.take_succ_cons, totalCons, Nat.add_assoc]

theorem totalMono (list : List α) {j k : Nat} (le : j ≤ k) : total width (list.take j) ≤ total width (list.take k) := by
  induction list generalizing j k with
  | nil => simp [total]
  | cons x list ih =>
    cases j with
    | zero => exact Nat.zero_le _
    | succ j =>
      obtain ⟨k, rfl⟩ := Nat.exists_eq_add_one.mpr (Nat.lt_of_lt_of_le (Nat.succ_pos j) le)
      rw [List.take_succ_cons, totalCons, List.take_succ_cons, totalCons]
      exact Nat.add_le_add_left (ih (Nat.le_of_succ_le_succ le)) _

theorem totalAll (list : List α) (k : Nat) : total width (list.take k) ≤ total width list := by
  have whole := @totalMono α width list k (k + list.length) (Nat.le_add_right ..)
  rwa [List.take_of_length_le (Nat.le_add_left ..)] at whole

theorem totalPut {list : List α} {k : Nat} {x : α} (zero : width x = 0) :
    total width (list.insertIdx k x) = total width list := by
  induction list generalizing k with
  | nil =>
    cases k with
    | zero => rw [List.insertIdx_zero, totalCons, zero, Nat.zero_add]
    | succ k => rfl
  | cons y list ih =>
    cases k with
    | zero => rw [List.insertIdx_zero, totalCons, zero, Nat.zero_add]
    | succ k => rw [List.insertIdx_succ_cons, totalCons, ih, totalCons]

theorem totalWider {list : List α} {k : Nat} {x y : α} (here : list[k]? = some x) (wider : width y = width x + 1) :
    total width (list.set k y) = total width list + 1 := by
  induction list generalizing k with
  | nil => cases here
  | cons z list ih =>
    cases k with
    | zero =>
      cases here
      rw [List.set_cons_zero, totalCons, totalCons, wider]
      omega
    | succ k =>
      rw [List.set_cons_succ, totalCons, ih here, totalCons]
      omega

/-! ## Where the blocks start -/

theorem startsLength (start : Nat) (list : List α) : (starts width start list).length = list.length := by
  induction list generalizing start with
  | nil => rfl
  | cons x list ih => rw [starts, List.length_cons, ih, List.length_cons]

theorem startsAt (start : Nat) (list : List α) {k : Nat} (inside : k < list.length) :
    (starts width start list)[k]? = some (start + total width (list.take k)) := by
  induction list generalizing start k with
  | nil => cases inside
  | cons x list ih =>
    cases k with
    | zero => rfl
    | succ k =>
      rw [starts, List.getElem?_cons_succ, ih _ (Nat.lt_of_succ_lt_succ inside), List.take_succ_cons, totalCons,
        Nat.add_assoc]

theorem startsUp (start : Nat) (list : List α) :
    starts width (start + 1) list = (starts width start list).map (· + 1) := by
  induction list generalizing start with
  | nil => rfl
  | cons x list ih => rw [starts, starts, List.map_cons, ← ih, Nat.add_right_comm]

theorem startsPut (start : Nat) {list : List α} {k : Nat} {x : α} (within : k ≤ list.length) (zero : width x = 0) :
    starts width start (list.insertIdx k x) =
      (starts width start list).insertIdx k (start + total width (list.take k)) := by
  induction list generalizing start k with
  | nil =>
    obtain rfl : k = 0 := Nat.le_zero.mp within
    rfl
  | cons y list ih =>
    cases k with
    | zero =>
      rw [List.insertIdx_zero, starts, zero, Nat.add_zero, List.insertIdx_zero]
      rfl
    | succ k =>
      rw [List.insertIdx_succ_cons, starts, starts, ih _ (Nat.le_of_succ_le_succ within), List.insertIdx_succ_cons,
        List.take_succ_cons, totalCons, Nat.add_assoc]

-- An element more in one block: the later ones start one further on.
theorem startsWider (start : Nat) {list : List α} {k : Nat} {x y : α} (here : list[k]? = some x)
    (wider : width y = width x + 1) :
    starts width start (list.set k y) = (starts width start list).mapIdx fun i s => if k < i then s + 1 else s := by
  induction list generalizing start k with
  | nil => cases here
  | cons z list ih =>
    cases k with
    | zero =>
      cases here
      rw [List.set_cons_zero, starts, starts, wider, ← Nat.add_assoc, startsUp, List.mapIdx_cons,
        if_neg (Nat.lt_irrefl 0)]
      refine congrArg _ (List.ext_getElem (by simp) fun i _ _ => ?_)
      rw [List.getElem_map, List.getElem_mapIdx, if_pos (Nat.succ_pos i)]
    | succ k =>
      rw [List.set_cons_succ, starts, starts, ih _ here, List.mapIdx_cons, if_neg (Nat.not_lt_zero _)]
      refine congrArg _ (List.ext_getElem (by simp) fun i _ _ => ?_)
      rw [List.getElem_mapIdx, List.getElem_mapIdx]
      exact if_congr Nat.succ_lt_succ_iff.symm rfl rfl

theorem blockUnique {list : List α} {k k' j j' : Nat} {x x' : α} (here : list[k]? = some x) (here' : list[k']? = some x')
    (less : j < width x) (less' : j' < width x')
    (same : total width (list.take k) + j = total width (list.take k') + j') : k = k' ∧ j = j' := by
  have next := @totalTake α width list k x here
  have next' := @totalTake α width list k' x' here'
  rcases Nat.lt_trichotomy k k' with below | rfl | above
  · have mono := @totalMono α width list (k + 1) k' below
    omega
  · exact ⟨rfl, by omega⟩
  · have mono := @totalMono α width list (k' + 1) k above
    omega

end

/-! ## What the blocks hold -/

section
variable {f : α → List β}

theorem flatLength (f : α → List β) (list : List α) :
    (list.flatMap f).length = total (fun x => (f x).length) list := by
  rw [List.length_flatMap]
  rfl

theorem blockAt {list : List α} {k j : Nat} {x : α} (here : list[k]? = some x) (inside : j < (f x).length) :
    (list.flatMap f)[total (fun x => (f x).length) (list.take k) + j]? = (f x)[j]? := by
  induction list generalizing k with
  | nil => cases here
  | cons y list ih =>
    rw [List.flatMap_cons]
    cases k with
    | zero =>
      cases here
      rw [List.take_zero]
      change (f x ++ list.flatMap f)[0 + j]? = _
      rw [Nat.zero_add, List.getElem?_append_left inside]
    | succ k =>
      rw [List.take_succ_cons, totalCons, Nat.add_assoc, List.getElem?_append_right (Nat.le_add_right ..),
        Nat.add_sub_cancel_left]
      exact ih here

theorem flatPut {list : List α} {k : Nat} {x : α} (none_ : f x = []) : (list.insertIdx k x).flatMap f = list.flatMap f := by
  induction list generalizing k with
  | nil =>
    cases k with
    | zero => rw [List.insertIdx_zero, List.flatMap_cons, none_, List.nil_append]
    | succ k => rfl
  | cons y list ih =>
    cases k with
    | zero => rw [List.insertIdx_zero, List.flatMap_cons, none_, List.nil_append]
    | succ k => rw [List.insertIdx_succ_cons, List.flatMap_cons, ih, List.flatMap_cons]

theorem putRight (first : List β) {second : List β} {k : Nat} (b : β) :
    (first ++ second).insertIdx (first.length + k) b = first ++ second.insertIdx k b := by
  induction first with
  | nil => rw [List.length_nil, Nat.zero_add, List.nil_append, List.nil_append]
  | cons a first ih => rw [List.cons_append, List.length_cons, Nat.add_right_comm, List.insertIdx_succ_cons, ih, List.cons_append]

theorem putLeft {first second : List β} {k : Nat} (b : β) (within : k ≤ first.length) :
    (first ++ second).insertIdx k b = first.insertIdx k b ++ second := by
  induction first generalizing k with
  | nil =>
    obtain rfl : k = 0 := Nat.le_zero.mp within
    rfl
  | cons a first ih =>
    cases k with
    | zero => rfl
    | succ k =>
      rw [List.cons_append, List.insertIdx_succ_cons, ih (Nat.le_of_succ_le_succ within), List.insertIdx_succ_cons,
        List.cons_append]

theorem flatWider {list : List α} {k j : Nat} {x y : α} {b : β} (here : list[k]? = some x)
    (wider : f y = (f x).insertIdx j b) (within : j ≤ (f x).length) :
    (list.set k y).flatMap f = (list.flatMap f).insertIdx (total (fun x => (f x).length) (list.take k) + j) b := by
  induction list generalizing k with
  | nil => cases here
  | cons z list ih =>
    cases k with
    | zero =>
      cases here
      rw [List.set_cons_zero, List.flatMap_cons, List.flatMap_cons, wider, List.take_zero]
      change _ = (f x ++ list.flatMap f).insertIdx (0 + j) b
      rw [Nat.zero_add, putLeft b within]
    | succ k =>
      rw [List.set_cons_succ, List.flatMap_cons, ih here, List.flatMap_cons, List.take_succ_cons, totalCons, Nat.add_assoc,
        putRight]

end

end General.Blocks
