import Mathlib.Data.List.Pairwise
import Mathlib.Data.List.TakeWhile
import Mathlib.Data.List.Count

/-! Stretches of a sorted list of numbers. What lies between two bounds is contiguous, and where it
begins and how long it is are counts. Elements are not required to be distinct. -/
namespace General.SortedWindows

abbrev Sorted (l : List Nat) : Prop := l.Pairwise (· ≤ ·)

variable {l : List Nat}

def between (a b : Nat) (l : List Nat) : List Nat := l.filter fun c => a ≤ c ∧ c < b

def offset (a : Nat) (l : List Nat) : Nat := l.countP (· < a)

theorem takeWhileFilter (sorted : Sorted l) (b : Nat) : l.takeWhile (· < b) = l.filter (· < b) := by
  induction l with
  | nil => rfl
  | cons c rest ih =>
    obtain ⟨least, later⟩ := List.pairwise_cons.mp sorted
    by_cases low : c < b
    · rw [List.takeWhile_cons_of_pos (by simpa using low), List.filter_cons_of_pos (by simpa using low), ih later]
    · rw [List.takeWhile_cons_of_neg (by simpa using low), List.filter_cons_of_neg (by simpa using low)]
      refine (List.filter_eq_nil_iff.mpr fun d mem => ?_).symm
      have above := least d mem
      simp only [decide_eq_true_eq]
      omega

theorem dropWhileFilter (sorted : Sorted l) (b : Nat) : l.dropWhile (· < b) = l.filter (b ≤ ·) := by
  induction l with
  | nil => rfl
  | cons c rest ih =>
    obtain ⟨least, later⟩ := List.pairwise_cons.mp sorted
    by_cases low : c < b
    · rw [List.dropWhile_cons_of_pos (by simpa using low), List.filter_cons_of_neg (by simpa using low), ih later]
    · rw [List.dropWhile_cons_of_neg (by simpa using low)]
      refine (List.filter_eq_self.mpr fun d mem => ?_).symm
      rcases List.mem_cons.mp mem with rfl | mem
      · simpa using low
      · have above := least d mem
        simp only [decide_eq_true_eq]
        omega

theorem splitAt (sorted : Sorted l) (b : Nat) : l.filter (· < b) ++ l.filter (b ≤ ·) = l := by
  rw [← takeWhileFilter sorted, ← dropWhileFilter sorted, List.takeWhile_append_dropWhile]

theorem offsetLength (a : Nat) (l : List Nat) : offset a l = (l.filter (· < a)).length := List.countP_eq_length_filter

theorem dropOffset (sorted : Sorted l) (a : Nat) : l.drop (offset a l) = l.filter (a ≤ ·) := by
  have whole : l.drop (offset a l) = (l.filter (· < a) ++ l.filter (a ≤ ·)).drop (offset a l) := by
    rw [splitAt sorted a]
  rw [whole, offsetLength]
  exact List.drop_left

theorem filterBetween (a b : Nat) (l : List Nat) : (l.filter (a ≤ ·)).filter (· < b) = between a b l := by
  rw [List.filter_filter, between]
  congr
  funext c
  simp [Bool.and_comm]

theorem takeLength {α} (p : α → Bool) (l : List α) : l.take (l.takeWhile p).length = l.takeWhile p := by
  have whole : l.take (l.takeWhile p).length = (l.takeWhile p ++ l.dropWhile p).take (l.takeWhile p).length := by
    rw [List.takeWhile_append_dropWhile]
  rw [whole]
  exact List.take_left

theorem windowSorted (sorted : Sorted l) (a b : Nat) :
    (l.drop (offset a l)).take (between a b l).length = between a b l := by
  rw [dropOffset sorted, ← filterBetween, ← takeWhileFilter (sorted.filter _)]
  exact takeLength _ _

theorem offsetBetween {a b : Nat} (le : a ≤ b) (l : List Nat) :
    offset b l = offset a l + (between a b l).length := by
  induction l with
  | nil => rfl
  | cons c rest ih =>
    unfold offset between at *
    simp only [List.countP_cons, List.filter_cons, decide_eq_true_eq]
    rw [ih]
    by_cases low : c < a
    · have here : c < b := by omega
      simp only [low, here, if_true]
      rw [if_neg (by omega)]
      omega
    · by_cases inside : c < b
      · simp only [low, inside, if_true, if_false, and_true]
        rw [if_pos (by omega), List.length_cons]
        omega
      · simp only [low, inside, if_false, and_false, Nat.add_zero]

theorem betweenMem {a b c : Nat} : c ∈ between a b l ↔ c ∈ l ∧ a ≤ c ∧ c < b := by
  simp [between]

theorem betweenAll {a b : Nat} (all : ∀ c ∈ l, a ≤ c ∧ c < b) : between a b l = l :=
  List.filter_eq_self.mpr fun c mem => decide_eq_true (all c mem)

theorem betweenNested {a b x y : Nat} (low : a ≤ x) (high : y ≤ b) (l : List Nat) :
    between x y (between a b l) = between x y l := by
  unfold between
  rw [List.filter_filter]
  refine List.filter_congr fun c _ => ?_
  rw [← Bool.decide_and, decide_eq_decide]
  omega

end General.SortedWindows
