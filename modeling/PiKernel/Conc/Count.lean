import Mathlib.Algebra.Order.BigOperators.Group.Finset
import Mathlib.Data.Fintype.BigOperators

/-!
# Counting over processes

How a sum over all processes changes when the entry of one process does.
-/

namespace PiKernel.Conc

variable {Pid α : Type} [DecidableEq Pid] [Fintype Pid]

theorem sum_update (weight : α → Nat) (entry : Pid → α) (p : Pid) (new : α) :
    ∑ q, weight (Function.update entry p new q) + weight (entry p) =
      ∑ q, weight (entry q) + weight new := by
  have split : ∀ f : Pid → Nat, ∑ q, f q = f p + ∑ q ∈ Finset.univ.erase p, f q :=
    fun f => (Finset.add_sum_erase _ f (Finset.mem_univ p)).symm
  have rest : ∑ q ∈ Finset.univ.erase p, weight (Function.update entry p new q) =
      ∑ q ∈ Finset.univ.erase p, weight (entry q) := by
    apply Finset.sum_congr rfl
    intro q other
    rw [Function.update_of_ne (Finset.ne_of_mem_erase other)]
  rw [split, split fun q => weight (entry q), rest, Function.update_self]
  omega

/-- The number of processes with an entry of a kind. -/
theorem card_update (kind : α → Prop) [DecidablePred kind] (entry : Pid → α)
    (p : Pid) (new : α) :
    (Finset.univ.filter fun q => kind (Function.update entry p new q)).card +
        (if kind (entry p) then 1 else 0) =
      (Finset.univ.filter fun q => kind (entry q)).card +
        if kind new then 1 else 0 := by
  simp only [Finset.card_filter]
  exact sum_update (fun value => if kind value then 1 else 0) entry p new

end PiKernel.Conc
