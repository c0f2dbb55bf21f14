import Mathlib.Data.Set.Lattice
import Mathlib.Order.CompletePartialOrder
import Mathlib.Order.Interval.Set.Basic
import Mathlib.Tactic.Tauto

/-! Lists of half-open intervals kept in order and apart. `lo` and `hi` read the bounds of an
element, which may be empty. One element is replaced by any ordered list inside its bounds;
adjacent intervals are not required to be merged. -/
namespace General.OrderedIntervals

variable {ι α : Type*} [LinearOrder α] (lo hi : ι → α)

def Ordered (xs : List ι) : Prop := xs.Pairwise fun a b => hi a ≤ lo b

def cover (xs : List ι) : Set α := {b | ∃ x ∈ xs, lo x ≤ b ∧ b < hi x}

@[simp] theorem coverNil : cover lo hi [] = ∅ := by simp [cover]

@[simp] theorem coverCons (x : ι) (xs : List ι) :
    cover lo hi (x :: xs) = Set.Ico (lo x) (hi x) ∪ cover lo hi xs := by
  ext b
  simp [cover]

@[simp] theorem coverAppend (xs ys : List ι) :
    cover lo hi (xs ++ ys) = cover lo hi xs ∪ cover lo hi ys := by
  ext b
  simp only [cover, List.mem_append, Set.mem_ofPred_eq, Set.mem_union, or_and_right, exists_or]

variable {lo hi}

theorem coverMember {xs : List ι} {x} (mem : x ∈ xs) : Set.Ico (lo x) (hi x) ⊆ cover lo hi xs :=
  fun _ inside => ⟨x, mem, inside⟩

omit [LinearOrder α] in
theorem pairwiseInsert {R : ι → ι → Prop} {before after : List ι} {z}
    (kept : (before ++ after).Pairwise R) (above : ∀ x ∈ before, R x z) (below : ∀ y ∈ after, R z y) :
    (before ++ z :: after).Pairwise R := by
  obtain ⟨left, right, across⟩ := List.pairwise_append.mp kept
  apply List.pairwise_append.mpr ⟨left, List.pairwise_cons.mpr ⟨below, right⟩, _⟩
  intro x memX y memY
  rcases List.mem_cons.mp memY with rfl | old
  · exact above x memX
  · exact across x memX y old

omit [LinearOrder α] in
/-- Elements that keep clear of whatever the replaced one kept clear of. -/
theorem pairwiseReplace {R : ι → ι → Prop} {before after zs : List ι} {x}
    (kept : (before ++ x :: after).Pairwise R) (small : zs.Pairwise R)
    (left : ∀ z ∈ zs, ∀ a, R a x → R a z) (right : ∀ z ∈ zs, ∀ b, R x b → R z b) :
    (before ++ zs ++ after).Pairwise R := by
  obtain ⟨first, rest, across⟩ := List.pairwise_append.mp kept
  obtain ⟨below, last⟩ := List.pairwise_cons.mp rest
  apply List.pairwise_append.mpr ⟨_, last, _⟩
  · apply List.pairwise_append.mpr ⟨first, small, _⟩
    intro a memA z memZ
    exact left z memZ a (across a memA x List.mem_cons_self)
  · intro a memA b memB
    rcases List.mem_append.mp memA with old | new
    · exact across a old b (List.mem_cons_of_mem x memB)
    · exact right a new b (below b memB)

theorem orderedInsert {before after : List ι} {z} (ordered : Ordered lo hi (before ++ after))
    (above : ∀ x ∈ before, hi x ≤ lo z) (below : ∀ y ∈ after, hi z ≤ lo y) :
    Ordered lo hi (before ++ z :: after) :=
  pairwiseInsert ordered above below

theorem orderedAround {before after : List ι} {x} (ordered : Ordered lo hi (before ++ x :: after)) :
    (∀ a ∈ before, hi a ≤ lo x) ∧ ∀ b ∈ after, hi x ≤ lo b := by
  obtain ⟨_, right, across⟩ := List.pairwise_append.mp ordered
  exact ⟨fun a mem => across a mem x List.mem_cons_self, (List.pairwise_cons.mp right).1⟩

theorem orderedReplace {before after zs : List ι} {x}
    (ordered : Ordered lo hi (before ++ x :: after)) (small : Ordered lo hi zs)
    (within : ∀ z ∈ zs, lo x ≤ lo z ∧ hi z ≤ hi x) : Ordered lo hi (before ++ zs ++ after) :=
  pairwiseReplace ordered small (fun z mem _ clear => clear.trans (within z mem).1)
    fun z mem _ clear => (within z mem).2.trans clear

theorem elementApart {before after : List ι} {x} (ordered : Ordered lo hi (before ++ x :: after)) :
    Disjoint (Set.Ico (lo x) (hi x)) (cover lo hi (before ++ after)) := by
  obtain ⟨above, below⟩ := orderedAround ordered
  rw [Set.disjoint_left]
  intro b here there
  obtain ⟨y, mem, low, high⟩ := there
  rcases List.mem_append.mp mem with first | last
  · exact absurd (high.trans_le (above y first)) (not_lt.mpr here.1)
  · exact absurd (here.2.trans_le (below y last)) (not_lt.mpr low)

theorem coverReplace {before after zs : List ι} {x}
    (ordered : Ordered lo hi (before ++ x :: after))
    (within : cover lo hi zs ⊆ Set.Ico (lo x) (hi x)) :
    cover lo hi (before ++ zs ++ after) =
      cover lo hi (before ++ x :: after) \ (Set.Ico (lo x) (hi x) \ cover lo hi zs) := by
  have apart := elementApart ordered
  ext b
  have outside : b ∈ Set.Ico (lo x) (hi x) → b ∉ cover lo hi (before ++ after) :=
    fun inside => Set.disjoint_left.mp apart inside
  have kept : b ∈ cover lo hi zs → b ∈ Set.Ico (lo x) (hi x) := fun inside => within inside
  simp only [coverAppend, coverCons, Set.mem_union, Set.mem_sdiff] at outside ⊢
  tauto

/-- Of an ordered list of proper intervals the last reaches highest. -/
theorem lastHighest {xs : List ι} {x} (ordered : Ordered lo hi (xs ++ [x])) (proper : lo x ≤ hi x) :
    ∀ y ∈ xs ++ [x], hi y ≤ hi x := by
  intro y mem
  rcases List.mem_append.mp mem with first | last
  · exact ((orderedAround ordered).1 y first).trans proper
  · rw [List.mem_singleton.mp last]

end General.OrderedIntervals
