import Dewfall.Converter.ArrayNest
import Dewfall.Converter.LodGather

/-! The arrays that the builder keeps are those that a pass gathers from: where every tree's arrays are formed and every
sub-tree hangs in its octant, names and places ascend and each child is found under its name. -/
namespace Dewfall.LodBuilt
open General.Blocks StorageMap PointSplitter MortonTree TreeReparent ArrayForm ArrayNest LodWork LodGather

/-! ## The names of a level -/

theorem octantsAscend (node : Nat) : (octantsOf node).Pairwise (· < ·) :=
  List.Pairwise.filter _ List.pairwise_lt_range

theorem octantSmall {node i : Nat} (mem : i ∈ octantsOf node) : i < 8 :=
  List.mem_range.mp (List.mem_filter.mp mem).1

-- Three bits of a name for each level, the root's on top.
def step (level : Nat) : Nat := 2 ^ (3 * (4 - level))

theorem stepNext {level : Nat} (below : level < 4) : step level = 8 * step (level + 1) := by
  unfold step
  rw [show 3 * (4 - level) = 3 + 3 * (4 - (level + 1)) by omega, Nat.pow_add]

theorem nameAdds {level name i : Nat} (below : level < 4) (whole : step level ∣ name) (octant : i < 8) :
    getName name (level + 1) i = name + i * step (level + 1) := by
  obtain ⟨count, rfl⟩ := whole
  have short : i * step (level + 1) < step level := by
    rw [stepNext below]
    exact Nat.mul_lt_mul_of_pos_right octant (Nat.two_pow_pos _)
  rw [getName, Nat.shiftLeft_eq, Nat.mul_comm (4 - (level + 1)) 3]
  exact (Nat.two_pow_add_eq_or_of_lt short count).symm

theorem childWhole {level name i : Nat} (below : level < 4) (whole : step level ∣ name) (octant : i < 8) :
    step (level + 1) ∣ getName name (level + 1) i := by
  rw [nameAdds below whole octant]
  have next : step (level + 1) ∣ step level := ⟨8, by rw [stepNext below, Nat.mul_comm]⟩
  exact Nat.dvd_add (next.trans whole) (Nat.dvd_mul_left ..)

-- A node's children are named before the next node's, which is a step away.
theorem childrenApart {level name name' i j : Nat} (below : level < 4) (whole : step level ∣ name)
    (whole' : step level ∣ name') (less : name < name') (octant : i < 8) (octant' : j < 8) :
    getName name (level + 1) i < getName name' (level + 1) j := by
  have room : name + step level ≤ name' := by
    obtain ⟨count, rfl⟩ := whole
    obtain ⟨count', rfl⟩ := whole'
    have fewer : count < count' := Nat.lt_of_mul_lt_mul_left less
    calc step level * count + step level = step level * (count + 1) := (Nat.mul_succ ..).symm
      _ ≤ step level * count' := Nat.mul_le_mul_left _ fewer
  have short : i * step (level + 1) < step level := by
    rw [stepNext below]
    exact Nat.mul_lt_mul_of_pos_right octant (Nat.two_pow_pos _)
  rw [nameAdds below whole octant, nameAdds below whole' octant']
  omega

structure Named (l : Level) (level : Nat) : Prop where
  whole : ∀ id ∈ l.nodeIds, step level ∣ id
  ascending : l.nodeIds.Pairwise (· < ·)

theorem namedNext {t : Tree} {level : Nat} (formed : Formed t) (below : level < 4) (named : Named (t.levels level) level) :
    Named (t.levels (level + 1)) (level + 1) := by
  have rowName : ∀ row ∈ rows (t.levels level), step level ∣ row.1 := fun row mem =>
    named.whole row.1 (List.of_mem_zip mem).1
  have names := formed.names level below
  constructor
  · intro id mem
    rw [names] at mem
    obtain ⟨row, here, own⟩ := List.mem_flatMap.mp mem
    obtain ⟨i, octant, rfl⟩ := List.mem_map.mp own
    exact childWhole below (rowName row here) (octantSmall octant)
  · rw [names, List.pairwise_flatMap]
    constructor
    · intro row here
      refine List.pairwise_map.mpr ((octantsAscend row.2).imp_of_mem fun {i j} mem mem' less => ?_)
      rw [nameAdds below (rowName row here) (octantSmall mem), nameAdds below (rowName row here) (octantSmall mem')]
      exact Nat.add_lt_add_left (Nat.mul_lt_mul_of_pos_right less (Nat.two_pow_pos _)) _
    · have order : ((rows (t.levels level)).map Prod.fst).Pairwise (· < ·) := by
        rw [rows, List.map_fst_zip (formed.ids level (by omega)).le]
        exact named.ascending
      refine (List.pairwise_map.mp order).imp_of_mem fun {row row'} here here' less x mem y mem' => ?_
      obtain ⟨i, octant, rfl⟩ := List.mem_map.mp mem
      obtain ⟨j, octant', rfl⟩ := List.mem_map.mp mem'
      exact childrenApart below (rowName row here) (rowName row' here') less (octantSmall octant) (octantSmall octant')

theorem levelsNamed {t : Tree} (formed : Formed t) : ∀ level < 5, Named (t.levels level) level := by
  intro level deep
  induction level with
  | zero =>
    constructor
    · intro id mem
      rw [formed.rootName, List.mem_singleton] at mem
      rw [mem, getName, Nat.zero_or, Nat.shiftLeft_eq]
      exact Nat.dvd_mul_left ..
    · rw [formed.rootName]
      exact List.pairwise_singleton ..
  | succ level ih => exact namedNext formed (by omega) (ih (by omega))

/-! ## Places -/

theorem childPlaced {t : Tree} {level k node skips : Nat} {p : Nat × Nat} (here : nodeAt t level k = some node)
    (skipped : (t.levels level).skips[k]? = some skips) (mem : p ∈ children t level k) :
    p.2 < 8 ∧ childIndex t level k p.2 = some p.1 := by
  have octant := octantBelow mem
  unfold children at mem
  dsimp only at mem
  simp only [List.getD_eq_getElem?_getD, show (t.levels level).nodes[k]? = some node from here, skipped,
    Option.getD_some] at mem
  change p ∈ (octantsOf node).mapIdx fun count i => (skips + count, i) at mem
  obtain ⟨count, inside, rfl⟩ := List.mem_mapIdx.mp mem
  refine ⟨octant, ?_⟩
  dsimp only at octant ⊢
  have own := List.getElem_mem inside
  have there : node.testBit ((octantsOf node)[count]) = true := (List.mem_filter.mp own).2
  have first := octantAt octant there
  have once : (octantsOf node).Nodup := (octantsAscend node).imp Nat.ne_of_lt
  have same : countSkips node ((octantsOf node)[count]) = count := by
    have inside' := (List.getElem?_eq_some_iff.mp first).1
    exact (List.Nodup.getElem_inj_iff once).mp ((List.getElem?_eq_some_iff.mp first).2)
  unfold childIndex
  rw [here, skipped]
  dsimp only
  rw [if_pos there]
  exact congrArg (fun n => some (skips + n)) same

theorem formedShaped {r : Registry} {t : Tree} (formed : Formed t)
    (links : ∀ {x sub}, t.subTrees[x]? = some sub → ∃ s, Linked r t x sub s) : Shaped r.get t := by
  have present : ∀ {l k name : Nat}, l < 5 → (t.levels l).nodeIds[k]? = some name →
      ∃ node skips data, nodeAt t l k = some node ∧ (t.levels l).skips[k]? = some skips ∧ dataAt t l k = some data := by
    intro l k name deep named
    have inside := (List.getElem?_eq_some_iff.mp named).1
    rw [formed.ids l deep] at inside
    have filled : k < (t.levels l).data.length := by rw [formed.data l deep]; exact inside
    exact ⟨_, _, _, List.getElem?_eq_getElem inside, formed.start deep inside, List.getElem?_eq_getElem filled⟩
  refine ⟨present, fun _ => ⟨_, by rw [formed.rootName]; rfl⟩, fun l deep => (levelsNamed formed l deep).ascending,
    fun {l k k' node s s'} deep less here start start' => ?_, fun name named => ?_, fun {l k name} below named p mem => ?_,
    fun {k name} named p mem => ?_⟩
  · have inside := (List.getElem?_eq_some_iff.mp here).1
    have inside' := (List.getElem?_eq_some_iff.mp start').1
    rw [formed.skips l deep, startsLength] at inside'
    rw [formed.start deep inside, Option.some.injEq] at start
    rw [formed.start deep inside', Option.some.injEq] at start'
    have next := @totalTake Nat wide (t.levels l).nodes k node here
    have mono := @totalMono Nat wide (t.levels l).nodes (k + 1) k' less
    unfold wide at *
    omega
  · rw [formed.rootName] at named
    exact (Option.some.inj named).symm
  · obtain ⟨node, skips, _, here, start, _⟩ := present (by omega) named
    obtain ⟨octant, index⟩ := childPlaced here start mem
    exact formed.childName below octant index named
  · obtain ⟨node, skips, _, here, start, _⟩ := present (by decide) named
    obtain ⟨octant, index⟩ := childPlaced here start mem
    have inside := formed.childInside (by decide) octant index
    rw [← formed.subTrees] at inside
    obtain ⟨sub, linked⟩ := links (List.getElem?_eq_getElem inside)
    exact ⟨_, sub, List.getElem?_eq_getElem inside, linked.found, linked.magnitude, linked.min k p.2 name index octant named⟩

-- Before any pass the nodes with children have no data.
theorem freshPlain {t : Tree} (each : ∀ l < 5, ∀ p ∈ (t.levels l).nodes.zip (t.levels l).data,
    if p.1 = 0 then ∀ s ∈ p.2.data, t.storageMap.contains s.inputId else p.2.data = [] ∧ p.2.pointCount = 0) : Plain t := by
  have row {l k node : Nat} {d : Collection} (at_ : nodeAt t l k = some node) (here : dataAt t l k = some d) :
      (node, d) ∈ (t.levels l).nodes.zip (t.levels l).data :=
    List.mem_of_getElem? (List.getElem?_zip_eq_some.mpr ⟨at_, here⟩)
  refine ⟨fun deep zero here => ?_, fun deep inner some_ here => Or.inl ?_⟩
  · have own := each _ deep _ (row zero here)
    rwa [if_pos rfl] at own
  · have own := each _ deep _ (row inner here)
    rwa [if_neg some_] at own

theorem wiredGood {r : Registry} (wired : Wired r) (plain : ∀ {id t}, r.get id = some t → Plain t) : Good r :=
  fun found => ⟨plain found, formedShaped (wired.formed found) (wired.links found)⟩

end Dewfall.LodBuilt
