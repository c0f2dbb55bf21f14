import Mathlib.Data.List.Nodup
import Mathlib.Logic.Function.Basic

/-! Doubly linked lists whose links stand beside the elements, as indices. `Holds` says which list the
links hold; an element that is not in it has no links. -/
namespace General.LinkedList

structure Links where
  prev : Nat → Option Nat
  next : Nat → Option Nat
  head : Option Nat
  tail : Option Nat

def empty : Links := ⟨fun _ => none, fun _ => none, none, none⟩

def setPrev (l : Links) (i : Nat) (link : Option Nat) : Links := { l with prev := Function.update l.prev i link }

def setNext (l : Links) (i : Nat) (link : Option Nat) : Links := { l with next := Function.update l.next i link }

def clear (l : Links) (i : Nat) : Links := setNext (setPrev l i none) i none

def leave (l : Links) (i : Nat) : Links :=
  match l.prev i with
  | some before => setNext l before (l.next i)
  | none => if l.head = some i then { l with head := l.next i } else l

def arrive (l : Links) (i : Nat) : Links :=
  match l.next i with
  | some after => setPrev l after (l.prev i)
  | none => if l.tail = some i then { l with tail := l.prev i } else l

def unlink (l : Links) (i : Nat) : Links := clear (arrive (leave l i) i) i

def pushFront (l : Links) (i : Nat) : Links :=
  let placed := setNext (setPrev l i none) i l.head
  let joined := match l.head with
    | some first => setPrev placed first (some i)
    | none => placed
  { joined with head := some i, tail := if joined.tail = none then some i else joined.tail }

-- The walk from the tail; `none` when the fuel or the list ends.
def walkBack (l : Links) (good : Nat → Bool) : Nat → Option Nat → Option Nat
  | 0, _ => none
  | _, none => none
  | fuel + 1, some i => if good i then some i else walkBack l good fuel (l.prev i)

/-! ## The element behind another one -/

def behind : List Nat → Nat → Option Nat
  | [], _ => none
  | a :: rest, i => if a = i then rest.head? else behind rest i

theorem behindSplit {xs : List Nat} {i j} (nodup : xs.Nodup) :
    behind xs i = some j ↔ ∃ front back, xs = front ++ i :: j :: back := by
  induction xs with
  | nil => simp [behind]
  | cons a rest ih =>
    obtain ⟨fresh, nodup⟩ := List.nodup_cons.mp nodup
    rw [behind]
    split
    · rename_i same
      subst same
      constructor
      · intro here
        obtain ⟨back, rfl⟩ := List.head?_eq_some_iff.mp here
        exact ⟨[], back, rfl⟩
      · rintro ⟨front, back, same⟩
        cases front with
        | nil =>
          cases same
          rfl
        | cons b front =>
          cases same
          exact absurd (List.mem_append_right _ List.mem_cons_self) fresh
    · rename_i other
      rw [ih nodup]
      constructor
      · rintro ⟨front, back, rfl⟩
        exact ⟨a :: front, back, rfl⟩
      · rintro ⟨front, back, same⟩
        cases front with
        | nil =>
          cases same
          exact absurd rfl other
        | cons b front =>
          cases same
          exact ⟨front, back, rfl⟩

theorem behindReverse {xs : List Nat} {i j} (nodup : xs.Nodup) :
    behind xs.reverse i = some j ↔ behind xs j = some i := by
  rw [behindSplit nodup, behindSplit (List.nodup_reverse.mpr nodup)]
  constructor
  · rintro ⟨front, back, same⟩
    refine ⟨back.reverse, front.reverse, ?_⟩
    rw [← List.reverse_reverse xs, same]
    simp
  · rintro ⟨front, back, rfl⟩
    exact ⟨back.reverse, front.reverse, by simp⟩

theorem behindOutside {xs : List Nat} {i} (away : i ∉ xs) : behind xs i = none := by
  induction xs with
  | nil => rfl
  | cons a rest ih =>
    have other : a ≠ i := fun same => away (same ▸ List.mem_cons_self)
    rw [behind, if_neg other]
    exact ih fun mem => away (List.mem_cons_of_mem _ mem)

theorem behindMem {xs : List Nat} {i j} (here : behind xs i = some j) : j ∈ xs := by
  induction xs with
  | nil => cases here
  | cons a rest ih =>
    rw [behind] at here
    split at here
    · exact List.mem_cons_of_mem _ (List.mem_of_mem_head? here)
    · exact List.mem_cons_of_mem _ (ih here)

theorem filterFresh {xs : List Nat} {i} (fresh : i ∉ xs) : xs.filter (· ≠ i) = xs := by
  refine List.filter_eq_self.mpr fun b mem => ?_
  have other : b ≠ i := fun same => fresh (same ▸ mem)
  simpa using other

theorem headRemoved {xs : List Nat} (i : Nat) (nodup : xs.Nodup) :
    (xs.filter (· ≠ i)).head? = if xs.head? = some i then behind xs i else xs.head? := by
  cases xs with
  | nil => rfl
  | cons a rest =>
    obtain ⟨fresh, _⟩ := List.nodup_cons.mp nodup
    by_cases same : a = i
    · subst same
      rw [List.filter_cons_of_neg (by simp), filterFresh fresh, List.head?_cons, if_pos rfl, behind, if_pos rfl]
    · rw [List.filter_cons_of_pos (by simpa using same), List.head?_cons, List.head?_cons,
        if_neg (by simpa using same)]

theorem behindRemoved {xs : List Nat} (i k : Nat) (nodup : xs.Nodup) :
    behind (xs.filter (· ≠ i)) k =
      if k = i then none else if behind xs k = some i then behind xs i else behind xs k := by
  induction xs with
  | nil => simp [behind]
  | cons a rest ih =>
    obtain ⟨fresh, nodup⟩ := List.nodup_cons.mp nodup
    by_cases same : a = i
    · subst same
      have other : ¬behind rest k = some a := fun there => fresh (behindMem there)
      rw [List.filter_cons_of_neg (by simp), filterFresh fresh]
      by_cases here : k = a
      · rw [if_pos here, here, behindOutside fresh]
      · have step : behind (a :: rest) k = behind rest k := if_neg fun same => here same.symm
        rw [if_neg here, step, if_neg other]
    · rw [List.filter_cons_of_pos (by simpa using same)]
      by_cases here : a = k
      · subst here
        rw [behind, if_pos rfl, behind, if_pos rfl, behind, if_neg same, headRemoved i nodup, if_neg same]
      · rw [behind, if_neg here, behind, if_neg here, behind, if_neg same]
        exact ih nodup

theorem behindAppended {xs : List Nat} {i : Nat} (k : Nat) (fresh : i ∉ xs) (nodup : xs.Nodup) :
    behind (xs ++ [i]) k = if xs.getLast? = some k then some i else behind xs k := by
  induction xs with
  | nil => simp [behind]
  | cons a rest ih =>
    obtain ⟨away, nodup⟩ := List.nodup_cons.mp nodup
    rw [List.cons_append, behind, behind]
    cases rest with
    | nil =>
      rw [List.nil_append, List.getLast?_singleton]
      by_cases here : a = k
      · rw [if_pos here, if_pos (by rw [here])]
        rfl
      · rw [if_neg here, if_neg (by simpa using here), if_neg here]
        simp [behind]
    | cons b rest =>
      rw [List.getLast?_cons_cons, ih (fun mem => fresh (List.mem_cons_of_mem _ mem)) nodup]
      by_cases here : a = k
      · subst here
        have last : ¬(b :: rest).getLast? = some a := fun last => away (List.mem_of_getLast? last)
        rw [if_pos rfl, if_neg last, if_pos rfl]
        rfl
      · rw [if_neg here, if_neg here]

/-! ## The list that the links hold -/

structure Holds (l : Links) (xs : List Nat) : Prop where
  nodup : xs.Nodup
  next : ∀ i, l.next i = behind xs i
  prev : ∀ i, l.prev i = behind xs.reverse i
  head : l.head = xs.head?
  tail : l.tail = xs.getLast?

theorem holdsEmpty : Holds empty [] := ⟨List.nodup_nil, fun _ => rfl, fun _ => rfl, rfl, rfl⟩

theorem holdsClear {l xs i} (holds : Holds l xs) (away : i ∉ xs) : Holds (clear l i) xs := by
  refine ⟨holds.nodup, fun k => ?_, fun k => ?_, holds.head, holds.tail⟩
  all_goals
    unfold clear setNext setPrev
    dsimp only
    by_cases same : k = i
  · rw [same, Function.update_self, behindOutside away]
  · rw [Function.update_of_ne same, holds.next]
  · rw [same, Function.update_self, behindOutside fun mem => away (List.mem_reverse.mp mem)]
  · rw [Function.update_of_ne same, holds.prev]

theorem headBehind {xs : List Nat} {i} (nodup : xs.Nodup) (mem : i ∈ xs) :
    behind xs.reverse i = none ↔ xs.head? = some i := by
  cases xs with
  | nil => cases mem
  | cons a rest =>
    obtain ⟨fresh, _⟩ := List.nodup_cons.mp nodup
    constructor
    · intro none_
      by_contra other
      have later : i ∈ rest := (List.mem_cons.mp mem).resolve_left fun same => other (by rw [same]; rfl)
      obtain ⟨front, back, rfl⟩ := List.append_of_mem later
      rcases List.eq_nil_or_concat front with rfl | ⟨before, last, rfl⟩
      · have here : behind (a :: ([] ++ i :: back)) a = some i := (behindSplit nodup).mpr ⟨[], back, rfl⟩
        rw [(behindReverse nodup).mpr here] at none_
        cases none_
      · have here : behind (a :: (before.concat last ++ i :: back)) last = some i :=
          (behindSplit nodup).mpr ⟨a :: before, back, by simp⟩
        rw [(behindReverse nodup).mpr here] at none_
        cases none_
    · intro first
      cases first
      cases there : behind (i :: rest).reverse i with
      | none => rfl
      | some j =>
        obtain ⟨front, back, same⟩ := (behindSplit nodup).mp ((behindReverse nodup).mp there)
        cases front with
        | nil =>
          cases same
          exact absurd List.mem_cons_self fresh
        | cons b front =>
          cases same
          exact absurd (List.mem_append_right _ (List.mem_cons_of_mem _ List.mem_cons_self)) fresh

theorem tailBehind {xs : List Nat} {i} (nodup : xs.Nodup) (mem : i ∈ xs) :
    behind xs i = none ↔ xs.getLast? = some i := by
  have back := headBehind (List.nodup_reverse.mpr nodup) (List.mem_reverse.mpr mem)
  rwa [List.reverse_reverse, List.head?_reverse] at back

theorem leaveNext (l : Links) (i k : Nat) :
    (leave l i).next k = if l.prev i = some k then l.next i else l.next k := by
  unfold leave
  cases l.prev i with
  | none =>
    dsimp only
    split
    · rfl
    · rfl
  | some before =>
    unfold setNext
    dsimp only
    by_cases same : k = before
    · rw [same, Function.update_self, if_pos rfl]
    · rw [Function.update_of_ne same, if_neg (by simpa using fun h => same h.symm)]

theorem leaveKeeps (l : Links) (i : Nat) : (leave l i).prev = l.prev ∧ (leave l i).tail = l.tail ∧
    (leave l i).head = if l.prev i = none ∧ l.head = some i then l.next i else l.head := by
  unfold leave
  cases l.prev i with
  | none =>
    dsimp only
    split
    · rename_i first
      exact ⟨rfl, rfl, (if_pos ⟨rfl, first⟩).symm⟩
    · rename_i other
      exact ⟨rfl, rfl, (if_neg fun both => other both.2).symm⟩
  | some before => exact ⟨rfl, rfl, (if_neg fun both => by cases both.1).symm⟩

theorem arrivePrev (l : Links) (i k : Nat) :
    (arrive l i).prev k = if l.next i = some k then l.prev i else l.prev k := by
  unfold arrive
  cases l.next i with
  | none =>
    dsimp only
    split
    · rfl
    · rfl
  | some after =>
    unfold setPrev
    dsimp only
    by_cases same : k = after
    · rw [same, Function.update_self, if_pos rfl]
    · rw [Function.update_of_ne same, if_neg (by simpa using fun h => same h.symm)]

theorem arriveKeeps (l : Links) (i : Nat) : (arrive l i).next = l.next ∧ (arrive l i).head = l.head ∧
    (arrive l i).tail = if l.next i = none ∧ l.tail = some i then l.prev i else l.tail := by
  unfold arrive
  cases l.next i with
  | none =>
    dsimp only
    split
    · rename_i last
      exact ⟨rfl, rfl, (if_pos ⟨rfl, last⟩).symm⟩
    · rename_i other
      exact ⟨rfl, rfl, (if_neg fun both => other both.2).symm⟩
  | some after => exact ⟨rfl, rfl, (if_neg fun both => by cases both.1).symm⟩

theorem unlinkMem {l xs i} (holds : Holds l xs) (mem : i ∈ xs) : Holds (unlink l i) (xs.filter (· ≠ i)) := by
  obtain ⟨nodup, next, prev, head, tail⟩ := holds
  have turned := List.nodup_reverse.mpr nodup
  have own : (leave l i).next i = l.next i := by
    rw [leaveNext, if_neg]
    intro here
    rw [prev, behindReverse nodup] at here
    obtain ⟨front, back, rfl⟩ := (behindSplit nodup).mp here
    exact absurd List.mem_cons_self (List.nodup_cons.mp (List.nodup_append.mp nodup).2.1).1
  obtain ⟨samePrev, sameTail, leftHead⟩ := leaveKeeps l i
  obtain ⟨sameNext, sameHead, leftTail⟩ := arriveKeeps (leave l i) i
  have reversed : (xs.filter (· ≠ i)).reverse = xs.reverse.filter (· ≠ i) := List.filter_reverse.symm
  refine ⟨nodup.filter _, fun k => ?_, fun k => ?_, ?_, ?_⟩
  · rw [behindRemoved i k nodup]
    unfold unlink clear setNext setPrev
    dsimp only
    by_cases same : k = i
    · rw [same, Function.update_self, if_pos rfl]
    · rw [Function.update_of_ne same, if_neg same, sameNext, leaveNext, prev, next, next]
      exact if_congr (behindReverse nodup) rfl rfl
  · rw [reversed, behindRemoved i k turned]
    unfold unlink clear setNext setPrev
    dsimp only
    by_cases same : k = i
    · rw [same, Function.update_self, if_pos rfl]
    · rw [Function.update_of_ne same, if_neg same, arrivePrev, own, samePrev, next, prev, prev]
      exact if_congr (behindReverse nodup).symm rfl rfl
  · show (arrive (leave l i) i).head = _
    rw [sameHead, leftHead, headRemoved i nodup, prev, head, next]
    refine if_congr ?_ rfl rfl
    rw [headBehind nodup mem, and_self_iff]
  · show (arrive (leave l i) i).tail = _
    rw [leftTail, own, samePrev, sameTail, ← List.head?_reverse, reversed, headRemoved i turned, next, tail,
      List.head?_reverse, prev]
    refine if_congr ?_ rfl rfl
    rw [tailBehind nodup mem, and_self_iff]

theorem unlinkFresh {l xs i} (holds : Holds l xs) (away : i ∉ xs) : Holds (unlink l i) xs := by
  have before : l.prev i = none := by
    rw [holds.prev, behindOutside fun mem => away (List.mem_reverse.mp mem)]
  have after : l.next i = none := by rw [holds.next, behindOutside away]
  have left : leave l i = l := by
    unfold leave
    rw [before]
    dsimp only
    rw [if_neg]
    rw [holds.head]
    exact fun first => away (List.mem_of_mem_head? first)
  have arrived : arrive l i = l := by
    unfold arrive
    rw [after]
    dsimp only
    rw [if_neg]
    rw [holds.tail]
    exact fun last => away (List.mem_of_getLast? last)
  rw [unlink, left, arrived]
  exact holdsClear holds away

theorem holdsUnlink {l xs} (i : Nat) (holds : Holds l xs) : Holds (unlink l i) (xs.filter (· ≠ i)) := by
  by_cases mem : i ∈ xs
  · exact unlinkMem holds mem
  · rw [filterFresh mem]
    exact unlinkFresh holds mem

theorem holdsPush {l xs i} (holds : Holds l xs) (fresh : i ∉ xs) : Holds (pushFront l i) (i :: xs) := by
  obtain ⟨nodup, next, prev, head, tail⟩ := holds
  have turned : (i :: xs).reverse = xs.reverse ++ [i] := List.reverse_cons
  have away : i ∉ xs.reverse := fun mem => fresh (List.mem_reverse.mp mem)
  refine ⟨List.nodup_cons.mpr ⟨fresh, nodup⟩, fun k => ?_, fun k => ?_, rfl, ?_⟩
  · have step : (pushFront l i).next k = Function.update l.next i l.head k := by
      unfold pushFront setNext setPrev
      dsimp only
      split
      · rfl
      · rfl
    rw [step, behind, head]
    by_cases same : k = i
    · rw [same, Function.update_self, if_pos rfl]
    · rw [Function.update_of_ne same, if_neg fun h => same h.symm, next]
  · rw [turned, behindAppended k away (List.nodup_reverse.mpr nodup), List.getLast?_reverse, ← head]
    have own : ¬l.head = some i := by
      rw [head]
      exact fun first => fresh (List.mem_of_mem_head? first)
    unfold pushFront setNext setPrev
    dsimp only
    cases first : l.head with
    | none =>
      dsimp only
      rw [if_neg (by simp)]
      by_cases same : k = i
      · rw [same, Function.update_self, behindOutside away]
      · rw [Function.update_of_ne same, prev]
    | some f =>
      dsimp only
      by_cases here : k = f
      · rw [here, Function.update_self, if_pos rfl]
      · rw [Function.update_of_ne here, if_neg (by simpa using fun h => here h.symm)]
        by_cases same : k = i
        · rw [same, Function.update_self, behindOutside away]
        · rw [Function.update_of_ne same, prev]
  · have step : (pushFront l i).tail = if l.tail = none then some i else l.tail := by
      unfold pushFront setNext setPrev
      dsimp only
      split
      · rfl
      · rfl
    rw [step, tail]
    cases xs with
    | nil => rfl
    | cons a rest => rw [if_neg (by simp), List.getLast?_cons_cons]

theorem walkTail {l xs} (holds : Holds l xs) (good : Nat → Bool) {fuel : Nat} (enough : xs.length ≤ fuel) :
    walkBack l good fuel l.tail = xs.reverse.find? good := by
  have along : ∀ (seen rest : List Nat) (fuel : Nat), xs.reverse = seen ++ rest → rest.length ≤ fuel →
      walkBack l good fuel rest.head? = rest.find? good := by
    intro seen rest fuel
    induction rest generalizing seen fuel with
    | nil =>
      intro _ _
      cases fuel with
      | zero => rfl
      | succ fuel => rfl
    | cons a rest ih =>
      intro split enough
      cases fuel with
      | zero => cases enough
      | succ fuel =>
        have step : l.prev a = rest.head? := by
          rw [holds.prev, split]
          cases rest with
          | nil =>
            refine (tailBehind ?_ (List.mem_append_right _ List.mem_cons_self)).mpr (by simp)
            exact split ▸ List.nodup_reverse.mpr holds.nodup
          | cons b rest =>
            refine (behindSplit ?_).mpr ⟨seen, rest, rfl⟩
            exact split ▸ List.nodup_reverse.mpr holds.nodup
        rw [List.head?_cons, walkBack, List.find?_cons]
        cases good a with
        | true => rfl
        | false =>
          rw [if_neg (by simp), step]
          exact ih (seen ++ [a]) fuel (by rw [split]; simp) (Nat.le_of_succ_le_succ enough)
  rw [holds.tail, ← List.head?_reverse]
  exact along [] xs.reverse fuel rfl (by rw [List.length_reverse]; exact enough)

end General.LinkedList
