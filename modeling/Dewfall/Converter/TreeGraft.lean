import Dewfall.Converter.TreeEnter

/-! Re-parenting: a tree is hung into a larger one by a chain of nodes and fresh trees. The chain holds
nothing, so what the tree held is what the larger one holds. How large it must be follows from the codes. -/
namespace Dewfall.TreeGraft
open General General.Cells StorageMap PointSplitter MortonTree TreeBuild TreeSplit TreeInsert TreeDescend TreeEnter

variable {u : Units}

theorem floorChild (k c : Nat) : child k (floor (k + 1) c) (digit k c) = floor k c := by
  have inside := childDigit (floorAligned (k + 1) c) (floorHas (k + 1) c)
  exact (floorOf (childAligned (floorAligned (k + 1) c)) inside).symm

theorem hasSame {j k min c d : Nat} (le : j ≤ k) (aligned : Aligned j min) (first : Has j min c) (second : Has j min d) :
    c / 8 ^ k = d / 8 ^ k := by
  obtain ⟨i, rfl⟩ := Nat.exists_eq_add_of_le le
  rw [Nat.pow_add, ← Nat.div_div_eq_div_mul, ← Nat.div_div_eq_div_mul, (hasDiv aligned).mp first,
    (hasDiv aligned).mp second]

-- The cell has no code of the other.
def Outside (k min k' min' : Nat) : Prop := ∀ c, Has k min c → ¬Has k' min' c

structure Grafted (u : Units) (childMin childLod : Nat) (node t : Octree) (lod : Nat) : Prop where
  present : t.present = true
  kind : Octree.isNode t = true ↔ lod % 5 ≠ 4
  shaped : Shaped t lod
  leaves : ∀ P, EachLeaf P node childLod childMin → (∀ k min, Outside k min (childLod + 1) childMin → P k min empty) →
    EachLeaf P t lod (floor (lod + 1) childMin)
  below : TreesBalanced u t
  refs : ∀ id, refsIn t id = 0
  trees : ∀ id, treesIn t id = treesIn node id
  discarded : ∀ l, discardedIn t l = discardedIn node l

def linked (mask : Nat) (below : Octree) : Octree :=
  .node empty (Function.update (fun _ => .missing) mask below)

theorem linkedSum {α : Octree → Nat} {mask below} (octant : mask < 8) (none : α .missing = 0) :
    overChildren (fun i => α (Function.update (fun _ => .missing) mask below i)) = α below := by
  rw [sumUpdate α (fun _ => .missing) below octant]
  have nothing : (others mask fun _ => α .missing) = 0 := by
    refine overChildrenZero fun j _ => ?_
    by_cases own : j = mask
    · rw [own, Function.update_self]
    · rw [Function.update_of_ne own]
      exact none
  rw [nothing, Nat.add_zero]

theorem linkGrafted {childMin childLod node below lod} (aligned : Aligned (childLod + 1) childMin)
    (past : childLod ≤ lod) (grafted : Grafted u childMin childLod node below lod) :
    Shaped (linked (getChildMask (lod + 1) childMin) below) (lod + 1) ∧
      (∀ P, EachLeaf P node childLod childMin → (∀ k min, Outside k min (childLod + 1) childMin → P k min empty) →
        EachLeaf P (linked (getChildMask (lod + 1) childMin) below) (lod + 1) (floor (lod + 2) childMin)) ∧
      TreesBalanced u (linked (getChildMask (lod + 1) childMin) below) ∧
      (∀ id, refsIn (linked (getChildMask (lod + 1) childMin) below) id = 0) ∧
      (∀ id, treesIn (linked (getChildMask (lod + 1) childMin) below) id = treesIn node id) ∧
      ∀ l, discardedIn (linked (getChildMask (lod + 1) childMin) below) l = discardedIn node l := by
  have octant : getChildMask (lod + 1) childMin < 8 := digitLt _ _
  have inner : isLeafNode (Function.update (fun _ => .missing) (getChildMask (lod + 1) childMin) below) = false := by
    refine notLeaf octant ?_
    rw [Function.update_self]
    exact grafted.present
  refine ⟨fun i where_ there => ?_, fun P here blank => (eachLeafNode inner).mpr fun i where_ => ?_, fun i _ => ?_,
    fun id => ?_, fun id => ?_, fun l => ?_⟩
  · by_cases own : i = getChildMask (lod + 1) childMin
    · subst own
      rw [Function.update_self]
      exact ⟨Nat.succ_pos lod, grafted.kind.trans (by omega), grafted.shaped⟩
    · rw [Function.update_of_ne own] at there
      cases there
  · by_cases own : i = getChildMask (lod + 1) childMin
    · subst own
      rw [Function.update_self, getChildMask, floorChild]
      exact grafted.leaves P here blank
    · rw [Function.update_of_ne own]
      refine blank _ _ fun c has inside => own ?_
      have digit_ := childOf (floorAligned (lod + 2) childMin) where_ has
      have same : c / 8 ^ (lod + 1) = childMin / 8 ^ (lod + 1) :=
        hasSame (Nat.succ_le_succ past) aligned inside hasSelf
      exact digit_.symm.trans (digitSame same)
  · by_cases own : i = getChildMask (lod + 1) childMin
    · subst own
      rw [Function.update_self]
      exact grafted.below
    · rw [Function.update_of_ne own]
      trivial
  · change 0 + overChildren _ = 0
    rw [@linkedSum (fun t => refsIn t id) _ _ octant rfl, grafted.refs]
  · exact (@linkedSum (fun t => treesIn t id) _ _ octant rfl).trans (grafted.trees id)
  · exact (@linkedSum (fun t => discardedIn t l) _ _ octant rfl).trans (grafted.discarded l)

theorem graftSpec {childMin childLod} {info : TreeInfo} {top : Octree} (aligned : Aligned (childLod + 1) childMin)
    (last : childLod % 5 = 4) (shaped : Shaped (.tree info top) childLod) (balanced : TreesBalanced u (.tree info top))
    (above currentId : Nat) : Grafted u childMin childLod (.tree info top)
      (insertTreeInTree childMin childLod (.tree info top) above currentId).1 (childLod + above) ∧
      (0 < above → (childLod + above) % 5 = 4 → ∃ id data children,
        (insertTreeInTree childMin childLod (.tree info top) above currentId).1 =
          .tree (newTree id) (.node data children)) := by
  induction above generalizing currentId with
  | zero =>
    refine ⟨⟨rfl, ⟨fun there => (nomatch there), fun other => absurd last other⟩, shaped, fun P here _ => ?_, balanced,
      fun _ => rfl, fun _ => rfl, fun _ => rfl⟩, fun more => absurd more (Nat.lt_irrefl 0)⟩
    change EachLeaf P _ childLod (floor (childLod + 1) childMin)
    rw [floorOf aligned hasSelf]
    exact here
  | succ above ih =>
    obtain ⟨grafted, _⟩ := ih (if (childLod + above + 1) % 5 = 4 then currentId + 1 else currentId)
    obtain ⟨shapedLink, leaves, below, refs, trees, discarded⟩ := linkGrafted aligned (Nat.le_add_right _ above) grafted
    unfold insertTreeInTree
    dsimp only
    by_cases root : (childLod + above + 1) % 5 = 4
    · rw [if_pos root, if_pos root] at *
      refine ⟨⟨rfl, ⟨fun there => (nomatch there), fun other => absurd root other⟩, ⟨rfl, shapedLink⟩, leaves,
        ⟨fun _ _ found => (nomatch found), fun id => ?_, below⟩, fun _ => rfl, fun id => ?_, fun l => ?_⟩,
        fun _ _ => ⟨_, _, _, rfl⟩⟩
      · exact ⟨Nat.le_of_eq (refs id), fun _ => (refs id).symm⟩
      · exact (Nat.zero_add _).trans (trees id)
      · exact (Nat.zero_add _).trans (discarded l)
    · rw [if_neg root, if_neg root] at *
      exact ⟨⟨rfl, ⟨fun _ => root, fun _ => rfl⟩, shapedLink, leaves, below, refs, trees, discarded⟩,
        fun _ equal => absurd equal root⟩

end Dewfall.TreeGraft
