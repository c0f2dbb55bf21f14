import Mathlib.Logic.Function.Basic
import Mathlib.Data.List.Nodup
import Mathlib.Data.List.Perm.Basic

/-! A counting sort by levels, the highest level first: where the groups of the levels start, and the
placement of the indices one after the other. Memory and time are not treated. -/
namespace General.CountingSort

/-! ## Groups laid out one after the other -/

-- What the levels from `w` on, below `m`, hold together.
def atLeast (size : Nat → Nat) : Nat → Nat → Nat
  | 0, _ => 0
  | m + 1, w => if w ≤ m then size m + atLeast size m w else 0

def laidOut {α : Type*} (groups : Nat → List α) (m : Nat) : List α := (List.range m).reverse.flatMap groups

variable {α : Type*} {groups : Nat → List α} {size : Nat → Nat} {m : Nat}

theorem laidOutSucc (groups : Nat → List α) (m : Nat) : laidOut groups (m + 1) = groups m ++ laidOut groups m := by
  unfold laidOut
  rw [List.range_succ, List.reverse_append]
  rfl

theorem atLeastBeyond {w : Nat} (beyond : m ≤ w) : atLeast size m w = 0 := by
  cases m with
  | zero => rfl
  | succ m => exact if_neg (Nat.not_le.mpr beyond)

theorem atLeastStep {w : Nat} (below : w < m) : atLeast size m w = atLeast size m (w + 1) + size w := by
  induction m with
  | zero => cases below
  | succ m ih =>
    rw [atLeast, if_pos (Nat.le_of_lt_succ below), atLeast]
    by_cases last : w = m
    · subst last
      rw [atLeastBeyond (Nat.le_refl w), if_neg (by omega)]
      omega
    · rw [if_pos (by omega), ih (by omega)]
      omega

theorem atLeastMono {w v : Nat} (le : w ≤ v) : atLeast size m v ≤ atLeast size m w := by
  induction m with
  | zero => exact Nat.le_refl 0
  | succ m ih =>
    rw [atLeast, atLeast]
    split
    · rw [if_pos (by omega)]
      omega
    · exact Nat.zero_le _

theorem laidOutLength (groups : Nat → List α) (m : Nat) :
    (laidOut groups m).length = atLeast (fun l => (groups l).length) m 0 := by
  induction m with
  | zero => rfl
  | succ m ih => rw [laidOutSucc, List.length_append, ih, atLeast, if_pos (Nat.zero_le m)]

-- A list with every group at the place where the higher levels end is the groups laid out.
theorem laidOutAt {l : List α} (whole : l.length = atLeast (fun l => (groups l).length) m 0)
    (placed : ∀ k < m, ∀ t < (groups k).length,
      l[atLeast (fun l => (groups l).length) m (k + 1) + t]? = (groups k)[t]?) : l = laidOut groups m := by
  induction m generalizing l with
  | zero => exact List.length_eq_zero_iff.mp whole
  | succ m ih =>
    rw [atLeast, if_pos (Nat.zero_le m)] at whole
    have first : l.take (groups m).length = groups m := by
      refine List.ext_getElem? fun t => ?_
      by_cases inside : t < (groups m).length
      · have here := placed m (Nat.lt_succ_self m) t inside
        rw [atLeastBeyond (Nat.le_refl _), Nat.zero_add] at here
        rw [List.getElem?_take_of_lt inside, here]
      · rw [List.getElem?_eq_none (by rw [List.length_take]; omega), List.getElem?_eq_none (by omega)]
    have rest : l.drop (groups m).length = laidOut groups m := by
      refine ih ?_ fun k below t inside => ?_
      · rw [List.length_drop]
        omega
      · have here := placed k (by omega) t inside
        rw [atLeast, if_pos (by omega), Nat.add_assoc] at here
        rw [List.getElem?_drop, here]
    calc l = l.take (groups m).length ++ l.drop (groups m).length := (List.take_append_drop _ l).symm
      _ = laidOut groups (m + 1) := by rw [first, rest, laidOutSucc]

theorem laidOutTake (groups : Nat → List α) (m w : Nat) :
    (laidOut groups m).take (atLeast (fun l => (groups l).length) m w) =
      ((List.range m).reverse.filter (w ≤ ·)).flatMap groups := by
  induction m with
  | zero => rfl
  | succ m ih =>
    have split : (List.range (m + 1)).reverse = m :: (List.range m).reverse := by
      rw [List.range_succ, List.reverse_append]
      rfl
    rw [laidOutSucc, atLeast, split]
    split
    · rename_i low
      rw [List.take_length_add_append, ih, List.filter_cons_of_pos (by simpa using low)]
      rfl
    · rename_i high
      have none_ : (m :: (List.range m).reverse).filter (w ≤ ·) = [] := by
        refine List.filter_eq_nil_iff.mpr fun k mem => ?_
        have below : k ≤ m := by
          rcases List.mem_cons.mp mem with same | later
          · exact Nat.le_of_eq same
          · exact Nat.le_of_lt (List.mem_range.mp (List.mem_reverse.mp later))
        rw [decide_eq_true_eq]
        omega
      rw [none_]
      rfl

-- One step of a scan from the highest level down: the level's entry is made from the total so far.
def fillDown (size : Nat → Nat) (entry : Nat → Nat → Nat) (s : (Nat → Nat) × Nat) (l : Nat) : (Nat → Nat) × Nat :=
  (Function.update s.1 l (entry s.2 (size l)), s.2 + size l)

theorem filledDown (entry : Nat → Nat → Nat) (s : Nat → Nat) (total l : Nat) :
    ((List.range m).reverse.foldl (fillDown size entry) (s, total)).1 l =
      if l < m then entry (total + atLeast size m (l + 1)) (size l) else s l := by
  induction m generalizing s total with
  | zero => rfl
  | succ m ih =>
    rw [List.range_succ, List.reverse_append]
    refine (ih _ _).trans ?_
    by_cases lower : l < m
    · rw [if_pos lower, if_pos (by omega), atLeast, if_pos (by omega), Nat.add_assoc]
    · rw [if_neg lower]
      by_cases here : l = m
      · subst here
        rw [if_pos (by omega), atLeastBeyond (Nat.le_refl _)]
        exact Function.update_self ..
      · rw [if_neg (by omega)]
        exact Function.update_of_ne here ..

/-! ## Indices placed by their level -/

variable (key : Nat → Nat)

-- The indices of a level below `n`.
def group (n l : Nat) : List Nat := (List.range n).filter (key · = l)

def counts (n l : Nat) : Nat := (group key n l).length

def place (s : (Nat → Nat) × List Nat) (i : Nat) : (Nat → Nat) × List Nat :=
  (Function.update s.1 (key i) (s.1 (key i) + 1), s.2.set (s.1 (key i)) i)

variable {key} {n : Nat}

theorem groupSucc (i l : Nat) : group key (i + 1) l = group key i l ++ if key i = l then [i] else [] := by
  unfold group
  rw [List.range_succ, List.filter_append]
  by_cases own : key i = l <;> simp [own]

theorem countsSucc (i l : Nat) : counts key (i + 1) l = counts key i l + if key i = l then 1 else 0 := by
  unfold counts
  rw [groupSucc, List.length_append]
  split <;> rfl

theorem groupMono {i l : Nat} (le : i ≤ n) : counts key i l ≤ counts key n l := by
  obtain ⟨more, rfl⟩ := Nat.exists_eq_add_of_le le
  induction more with
  | zero => exact Nat.le_refl _
  | succ more ih =>
    have step := ih (Nat.le_add_right i more)
    rw [← Nat.add_assoc, countsSucc]
    omega

theorem countsAll (below : ∀ i < n, key i < m) : atLeast (counts key n) m 0 = n := by
  induction n with
  | zero =>
    have none : ∀ m, atLeast (counts key 0) m 0 = 0 := by
      intro m
      induction m with
      | zero => rfl
      | succ m ih => exact (if_pos (Nat.zero_le m)).trans ((Nat.zero_add _).trans ih)
    exact none m
  | succ n ih =>
    have one : ∀ m, atLeast (counts key (n + 1)) m 0 = atLeast (counts key n) m 0 + if key n < m then 1 else 0 := by
      intro m
      induction m with
      | zero => rfl
      | succ m ih =>
        rw [atLeast, if_pos (Nat.zero_le m), atLeast, if_pos (Nat.zero_le m), ih, countsSucc]
        split <;> split <;> split <;> omega
    rw [one, ih fun i inside => below i (by omega), if_pos (below n (Nat.lt_succ_self n))]

structure Placing (key : Nat → Nat) (m n i : Nat) (s : (Nat → Nat) × List Nat) : Prop where
  length : s.2.length = n
  start : ∀ l < m, s.1 l = atLeast (counts key n) m (l + 1) + counts key i l
  filled : ∀ l < m, ∀ t < counts key i l, s.2[atLeast (counts key n) m (l + 1) + t]? = (group key i l)[t]?

-- The places of different levels are apart.
theorem placesApart {k l t : Nat} (other : l ≠ k) (inside : l < m ∧ k < m) (part : t < counts key n l)
    {q : Nat} (place : q < counts key n k) :
    atLeast (counts key n) m (k + 1) + q ≠ atLeast (counts key n) m (l + 1) + t := by
  rcases Nat.lt_or_gt_of_ne other with less | more
  · have step := @atLeastStep (counts key n) m k inside.2
    have mono := @atLeastMono (counts key n) m (l + 1) k less
    omega
  · have step := @atLeastStep (counts key n) m l inside.1
    have mono := @atLeastMono (counts key n) m (k + 1) l more
    omega

theorem placeStep {i : Nat} {s : (Nat → Nat) × List Nat} (inside : i < n) (below : ∀ j < n, key j < m)
    (placing : Placing key m n i s) : s.1 (key i) < n ∧ Placing key m n (i + 1) (place key s i) := by
  obtain ⟨length, start, filled⟩ := placing
  have level := below i inside
  have room : counts key i (key i) < counts key n (key i) := by
    have next := @groupMono key n (i + 1) (key i) inside
    rw [countsSucc, if_pos rfl] at next
    omega
  have whole := countsAll below
  have step := @atLeastStep (counts key n) m (key i) level
  have mono := @atLeastMono (counts key n) m 0 (key i) (Nat.zero_le _)
  have bound : s.1 (key i) < n := by
    rw [start _ level]
    omega
  refine ⟨bound, (List.length_set ..).trans length, fun l low => ?_, fun l low t part => ?_⟩
  · by_cases own : l = key i
    · subst own
      refine (Function.update_self ..).trans ?_
      rw [start _ level, countsSucc, if_pos rfl]
      omega
    · refine (Function.update_of_ne own ..).trans ?_
      rw [start _ low, countsSucc, if_neg (Ne.symm own)]
      rfl
  · have place : (place key s i).2 = s.2.set (atLeast (counts key n) m (key i + 1) + counts key i (key i)) i :=
      congrArg (fun q => s.2.set q i) (start _ level)
    rw [place, groupSucc]
    by_cases own : l = key i
    · subst own
      rw [countsSucc, if_pos rfl] at part
      rw [if_pos rfl]
      rcases Nat.lt_or_eq_of_le (Nat.le_of_lt_succ part) with before | last
      · rw [List.getElem?_set_ne (by omega), filled _ level t before, List.getElem?_append_left before]
      · rw [last, List.getElem?_set_self (by rw [length, ← start _ level]; exact bound)]
        have end_ : (group key i (key i) ++ [i])[(group key i (key i)).length]? = some i := List.getElem?_concat_length
        exact end_.symm
    · rw [countsSucc, if_neg (Ne.symm own), Nat.add_zero] at part
      have most := @groupMono key n i l (Nat.le_of_lt inside)
      rw [if_neg (Ne.symm own), List.append_nil, List.getElem?_set_ne (placesApart own ⟨low, level⟩ (by omega) room),
        filled l low t part]

theorem placedAll {start : Nat → Nat} (below : ∀ i < n, key i < m)
    (starts : ∀ l < m, start l = atLeast (counts key n) m (l + 1)) {l : List Nat} (length : l.length = n) :
    ((List.range n).foldl (place key) (start, l)).2 = laidOut (group key n) m := by
  have run : ∀ i ≤ n, Placing key m n i ((List.range i).foldl (place key) (start, l)) := by
    intro i
    induction i with
    | zero =>
      exact fun _ => ⟨length, fun k low => starts k low, fun k low t part => absurd part (Nat.not_lt_zero t)⟩
    | succ i ih =>
      intro inside
      rw [List.range_succ, List.foldl_append]
      exact (placeStep inside below (ih (by omega))).2
  obtain ⟨same, _, filled⟩ := run n (Nat.le_refl n)
  exact laidOutAt (same.trans (countsAll below).symm) filled

theorem groupMember {l i : Nat} : i ∈ group key n l ↔ i < n ∧ key i = l := by
  rw [group, List.mem_filter, List.mem_range, decide_eq_true_eq]

theorem laidOutPerm (below : ∀ i < n, key i < m) : (laidOut (group key n) m).Perm (List.range n) := by
  refine (List.perm_ext_iff_of_nodup ?_ List.nodup_range).mpr fun i => ?_
  · refine List.nodup_flatMap.mpr ⟨fun l _ => List.nodup_range.filter _, ?_⟩
    refine (List.nodup_reverse.mpr List.nodup_range).imp fun {k l} apart i here there => apart ?_
    exact (groupMember.mp here).2.symm.trans (groupMember.mp there).2
  · unfold laidOut
    rw [List.mem_flatMap, List.mem_range]
    constructor
    · rintro ⟨l, _, here⟩
      exact (groupMember.mp here).1
    · intro inside
      exact ⟨key i, List.mem_reverse.mpr (List.mem_range.mpr (below i inside)), groupMember.mpr ⟨inside, rfl⟩⟩

-- Higher levels stand first, and the indices of one level ascend.
theorem laidOutStable (key : Nat → Nat) (n m : Nat) :
    (laidOut (group key n) m).Pairwise fun i j => key j ≤ key i ∧ (key j = key i → i < j) := by
  refine List.pairwise_flatMap.mpr ⟨fun l _ => ?_, ?_⟩
  · refine (List.pairwise_lt_range.filter _).imp_of_mem fun {i j} here there less => ?_
    have first := (groupMember.mp here).2
    have second := (groupMember.mp there).2
    exact ⟨Nat.le_of_eq (second.trans first.symm), fun _ => less⟩
  · refine (List.pairwise_reverse.mpr List.pairwise_lt_range).imp fun {l k} less i here j there => ?_
    have first := (groupMember.mp here).2
    have second := (groupMember.mp there).2
    exact ⟨by omega, fun same => by omega⟩

theorem takenMember {w i : Nat} (below : ∀ i < n, key i < m) :
    i ∈ (laidOut (group key n) m).take (atLeast (counts key n) m w) ↔ i < n ∧ w ≤ key i := by
  have taken := laidOutTake (group key n) m w
  rw [show atLeast (counts key n) m w = atLeast (fun l => (group key n l).length) m w from rfl, taken,
    List.mem_flatMap]
  constructor
  · rintro ⟨l, kept, here⟩
    have high : w ≤ l := by simpa using (List.mem_filter.mp kept).2
    obtain ⟨inside, level⟩ := groupMember.mp here
    exact ⟨inside, level ▸ high⟩
  · rintro ⟨inside, high⟩
    have level : key i ∈ (List.range m).reverse := List.mem_reverse.mpr (List.mem_range.mpr (below i inside))
    exact ⟨key i, List.mem_filter.mpr ⟨level, by simpa using high⟩, groupMember.mpr ⟨inside, rfl⟩⟩

end General.CountingSort
