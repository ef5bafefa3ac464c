/-
  Xv6.Lib.Counting

  Weights over a finite number of threads.  Each thread is in some local
  state; `total w loc` adds up a weight of the local states.  When one thread
  moves, the total changes by the difference of the two weights.
-/

import Mathlib.Tactic

namespace Counting

open Function Finset

variable {ι α : Type*} [Fintype ι]
variable (w : α → ℕ) (loc : ι → α)

/-- The weight of all threads together. -/
def total (w : α → ℕ) (loc : ι → α) : ℕ := ∑ q, w (loc q)

theorem total_eq_zero {w : α → ℕ} {loc : ι → α} : total w loc = 0 ↔ ∀ q, w (loc q) = 0 := by
  simp [total]

theorem le_total (p : ι) : w (loc p) ≤ total w loc :=
  single_le_sum (f := fun q => w (loc q)) (fun _ _ => Nat.zero_le _) (mem_univ p)

theorem total_congr {w : α → ℕ} {loc loc' : ι → α} (h : ∀ q, w (loc' q) = w (loc q)) :
    total w loc' = total w loc :=
  sum_congr rfl fun q _ => h q

variable [DecidableEq ι]

theorem total_update (p : ι) (x : α) :
    total w (update loc p x) + w (loc p) = total w loc + w x := by
  have hrest : ∀ g : ι → α, total w g = w (g p) + ∑ q ∈ Finset.univ.erase p, w (g q) := fun g =>
    (add_sum_erase Finset.univ (fun q => w (g q)) (mem_univ p)).symm
  have hsame : ∑ q ∈ Finset.univ.erase p, w (update loc p x q)
      = ∑ q ∈ Finset.univ.erase p, w (loc q) := by
    refine sum_congr rfl fun q hq => ?_
    rw [update_of_ne (ne_of_mem_erase hq)]
  rw [hrest (update loc p x), hrest loc, update_self, hsame]
  omega

theorem add_le_total {p q : ι} (h : p ≠ q) : w (loc p) + w (loc q) ≤ total w loc := by
  have hpair : ∑ r ∈ ({p, q} : Finset ι), w (loc r) = w (loc p) + w (loc q) := sum_pair h
  rw [← hpair]
  exact sum_le_sum_of_subset (subset_univ _)

end Counting
