import Mathlib.Data.Int.ConditionallyCompleteOrder
import Mathlib.Order.GaloisConnection.Defs
import Mathlib.Tactic.Linarith

/-! The least residue of a monotone function on a run of integers. Each run of `n` values that the
function enters is looked at where it is entered; the lower adjoint says where that is. -/
namespace General.Residues

variable {c first : ℤ → ℤ} {n a b x : ℤ}

-- The residues at which the later runs are entered.
def entries (c first : ℤ → ℤ) (n a b : ℤ) : List ℤ :=
  (List.range (c b / n - c a / n).toNat).map fun j : Nat => c (first ((c a / n + 1 + j) * n)) % n

def leastResidue (c first : ℤ → ℤ) (n a b : ℤ) : ℤ := (c a % n :: entries c first n a b).min (List.cons_ne_nil _ _)

theorem leastResidueOne (same : c b / n = c a / n) : leastResidue c first n a b = c a % n := by
  have none_ : entries c first n a b = [] := by
    unfold entries
    rw [same, Int.sub_self]
    rfl
  simp [leastResidue, none_]

theorem leastResidueLe (adjoint : GaloisConnection first c) (positive : 0 < n) (low : a ≤ x) (high : x ≤ b) :
    leastResidue c first n a b ≤ c x % n := by
  have from_ := adjoint.monotone_u low
  have split := Int.mul_ediv_add_emod (c x) n
  rcases (Int.ediv_le_ediv positive from_).lt_or_eq with later | same
  · have until_ := Int.ediv_le_ediv positive (adjoint.monotone_u high)
    -- The run of `x` is entered at or before `x`.
    have entered : c (first (c x / n * n)) ≤ c x :=
      adjoint.monotone_u (adjoint.l_le (Int.ediv_mul_le (c x) positive.ne'))
    have start : c x / n * n ≤ c (first (c x / n * n)) := adjoint.le_u_l _
    have run : c (first (c x / n * n)) / n = c x / n := by
      refine le_antisymm (Int.ediv_le_ediv positive entered) ?_
      have down := Int.ediv_le_ediv positive start
      rwa [Int.mul_ediv_cancel _ positive.ne'] at down
    have split' := Int.mul_ediv_add_emod (c (first (c x / n * n))) n
    rw [run] at split'
    have listed : c (first (c x / n * n)) % n ∈ c a % n :: entries c first n a b := by
      refine List.mem_cons_of_mem _ (List.mem_map.mpr ⟨(c x / n - c a / n - 1).toNat, List.mem_range.mpr (by omega), ?_⟩)
      rw [show c a / n + 1 + ((c x / n - c a / n - 1).toNat : ℤ) = c x / n by omega]
    exact (List.min_le_of_mem listed).trans (by linarith)
  · have split' := Int.mul_ediv_add_emod (c a) n
    rw [same] at split'
    exact (List.min_le_of_mem List.mem_cons_self).trans (by linarith)

theorem leastResidueMet (adjoint : GaloisConnection first c) (positive : 0 < n) (le : a ≤ b) :
    ∃ x, a ≤ x ∧ x ≤ b ∧ leastResidue c first n a b = c x % n := by
  unfold leastResidue
  rcases List.mem_cons.mp (List.min_mem (List.cons_ne_nil (c a % n) (entries c first n a b))) with same | listed
  · exact ⟨a, le_refl a, le, same⟩
  · obtain ⟨j, turn, same⟩ := List.mem_map.mp listed
    have inside := List.mem_range.mp turn
    refine ⟨first ((c a / n + 1 + j) * n), ?_, adjoint.l_le ?_, same.symm⟩
    · have above : c a < (c a / n + 1 + j) * n := by
        have next := Int.lt_ediv_add_one_mul_self (c a) positive
        have more := Int.mul_le_mul_of_nonneg_right (show c a / n + 1 ≤ c a / n + 1 + j by omega) positive.le
        exact next.trans_le more
      exact (adjoint.monotone_u.reflect_lt (above.trans_le (adjoint.le_u_l _))).le
    · have within := Int.mul_le_mul_of_nonneg_right (show c a / n + 1 + j ≤ c b / n by omega) positive.le
      exact within.trans (Int.ediv_mul_le (c b) positive.ne')

end General.Residues
