import Mathlib.Order.CompletePartialOrder
import Mathlib.Data.Set.Lattice

/-! Ownership of addresses by granted ranges. A range is any set of addresses; granting takes
addresses from the free set, releasing may give them back, and free addresses may be lost.
Nothing is said about which range a request receives. -/
namespace General

structure Ledger (β : Type*) where
  free : Set β
  granted : List (Set β)

namespace Ledger

variable {β : Type*}

structure Sound (l : Ledger β) : Prop where
  apart : l.granted.Pairwise Disjoint
  unfree : ∀ r ∈ l.granted, Disjoint r l.free

inductive Step : Ledger β → Ledger β → Prop where
  | grant {l free r} (room : r ⊆ l.free) (left : free ⊆ l.free \ r) :
      Step l ⟨free, r :: l.granted⟩
  | release {l free r rest} (held : l.granted.Perm (r :: rest)) (gained : free ⊆ l.free ∪ r) :
      Step l ⟨free, rest⟩
  | lose {l free} (smaller : free ⊆ l.free) : Step l ⟨free, l.granted⟩

theorem permSound {l : Ledger β} {granted} (same : l.granted.Perm granted) (sound : Sound l) :
    Sound ⟨l.free, granted⟩ :=
  ⟨(same.pairwise_iff fun h => h.symm).mp sound.apart,
    fun r mem => sound.unfree r (same.mem_iff.mpr mem)⟩

theorem stepSound {l m : Ledger β} (step : Step l m) (sound : Sound l) : Sound m := by
  cases step with
  | grant room left =>
    constructor
    · refine List.pairwise_cons.mpr ⟨fun r mem => ?_, sound.apart⟩
      exact ((sound.unfree r mem).mono_right room).symm
    · intro r mem
      rcases List.mem_cons.mp mem with rfl | old
      · exact Set.disjoint_sdiff_right.mono_right left
      · exact (sound.unfree r old).mono_right (left.trans Set.sdiff_subset)
  | @release free r rest held gained =>
    have split := permSound held sound
    obtain ⟨fresh, apart⟩ := List.pairwise_cons.mp split.apart
    refine ⟨apart, fun s mem => ?_⟩
    have unfree := split.unfree s (List.mem_cons_of_mem _ mem)
    exact (unfree.union_right (fresh s mem).symm).mono_right gained
  | lose smaller =>
    exact ⟨sound.apart, fun r mem => (sound.unfree r mem).mono_right smaller⟩

end Ledger

end General
