import Mathlib.Tactic

/-! Sums over the threads of a system of what each thread stands for at its place: how
many threads are at certain places, or which items they hold together. A step that moves
one thread changes one summand. -/

namespace Tally

variable {ι β M : Type*} [Fintype ι]

/-- The sum of `f` over the places of all threads. -/
def tally [AddCommMonoid M] (f : β → M) (g : ι → β) : M := ∑ i, f (g i)

section

variable [AddCommMonoid M] [DecidableEq ι]

/-- One thread goes from `g i` to `b`. -/
theorem tally_update (f : β → M) (g : ι → β) (i : ι) (b : β) :
    tally f (Function.update g i b) + f (g i) = tally f g + f b := by
  have hrest : ∑ j ∈ Finset.univ.erase i, f (Function.update g i b j) =
      ∑ j ∈ Finset.univ.erase i, f (g j) :=
    Finset.sum_congr rfl fun j hj => by rw [Function.update_of_ne (Finset.ne_of_mem_erase hj)]
  unfold tally
  rw [← Finset.add_sum_erase _ _ (Finset.mem_univ i),
    ← Finset.add_sum_erase _ (fun j => f (g j)) (Finset.mem_univ i), hrest, Function.update_self]
  abel

end

theorem tally_add [AddCommMonoid M] (f f' : β → M) (g : ι → β) :
    tally (fun b => f b + f' b) g = tally f g + tally f' g := Finset.sum_add_distrib

section

variable [AddCommMonoid M] [PartialOrder M] [CanonicallyOrderedAdd M]

theorem tally_eq_zero [IsOrderedAddMonoid M] {f : β → M} {g : ι → β} :
    tally f g = 0 ↔ ∀ i, f (g i) = 0 := by
  unfold tally
  rw [Finset.sum_eq_zero_iff]
  simp

theorem le_tally [IsOrderedAddMonoid M] (f : β → M) (g : ι → β) (i : ι) : f (g i) ≤ tally f g := by
  unfold tally
  exact Finset.single_le_sum (f := fun i => f (g i)) (fun _ _ => zero_le) (Finset.mem_univ i)

/-- Two threads hold no more than all of them. -/
theorem pair_le_tally [IsOrderedAddMonoid M] [DecidableEq ι] (f : β → M) (g : ι → β) {i j : ι}
    (h : i ≠ j) : f (g i) + f (g j) ≤ tally f g := by
  have hrest : f (g j) ≤ ∑ k ∈ Finset.univ.erase i, f (g k) :=
    Finset.single_le_sum (f := fun k => f (g k)) (fun _ _ => zero_le)
      (Finset.mem_erase.2 ⟨h.symm, Finset.mem_univ j⟩)
  unfold tally
  rw [← Finset.add_sum_erase _ _ (Finset.mem_univ i)]
  gcongr

end

end Tally
