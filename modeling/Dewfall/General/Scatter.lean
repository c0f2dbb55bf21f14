import Mathlib.Data.List.Basic

/-! Updates that each change the value at one place. Where their places differ, the order of the updates
does not matter: every place named takes its own update, and the others keep their values. -/
namespace General.Scatter

variable {σ π β ν : Type*} [DecidableEq π]

structure Scatters (get : σ → π → Option ν) (update : σ → β → σ) (place : β → π) (change : β → ν → ν) : Prop where
  step : ∀ s b p, get (update s b) p = if place b = p then (get s p).map (change b) else get s p

variable {get : σ → π → Option ν} {update : σ → β → σ} {place : β → π} {change : β → ν → ν}

theorem scatterOthers (scatters : Scatters get update place change) {targets : List β} {p : π}
    (apart : p ∉ targets.map place) (s : σ) : get (targets.foldl update s) p = get s p := by
  induction targets generalizing s with
  | nil => rfl
  | cons b rest ih =>
    rw [List.map_cons, List.mem_cons, not_or] at apart
    rw [List.foldl_cons, ih apart.2, scatters.step, if_neg (Ne.symm apart.1)]

theorem scatterOwn (scatters : Scatters get update place change) {targets : List β}
    (distinct : (targets.map place).Nodup) {b : β} (mem : b ∈ targets) (s : σ) :
    get (targets.foldl update s) (place b) = (get s (place b)).map (change b) := by
  induction targets generalizing s with
  | nil => cases mem
  | cons first rest ih =>
    obtain ⟨fresh, later⟩ := List.nodup_cons.mp (List.map_cons ▸ distinct)
    rw [List.foldl_cons]
    rcases List.mem_cons.mp mem with rfl | there
    · rw [scatterOthers scatters fresh, scatters.step, if_pos rfl]
    · have other : place first ≠ place b := fun same => fresh (same ▸ List.mem_map_of_mem there)
      rw [ih later there, scatters.step, if_neg other]

end General.Scatter
