/-
  Xv6.Lib.CrashSafe

  Straight-line programs that may be cut off at any point.

  `Safe exec C Q prog v` says that the program `prog`, started in `v`, meets
  the crash condition `C` before its first instruction and after each one,
  and ends in a state with `Q`.  The rules are those of a sequential program
  logic: skip an instruction without effect, put two programs together, go
  round a loop.
-/

import Mathlib.Tactic

namespace CrashSafe

variable {σ α : Type*} {exec : α → σ → σ} {C Q R : σ → Prop} {p q : List α} {v : σ}

def Safe (exec : α → σ → σ) (C Q : σ → Prop) : List α → σ → Prop
  | [], v => C v ∧ Q v
  | i :: is, v => C v ∧ Safe exec C Q is (exec i v)

namespace Safe

theorem here (h : Safe exec C Q p v) : C v := by
  cases p with
  | nil => exact h.1
  | cons i is => exact h.1

theorem next {i : α} {is : List α} (h : Safe exec C Q (i :: is) v) :
    Safe exec C Q is (exec i v) := h.2

theorem post (h : Safe exec C Q [] v) : Q v := h.2

theorem mono (hQ : ∀ w, Q w → R w) (h : Safe exec C Q p v) : Safe exec C R p v := by
  induction p generalizing v with
  | nil => exact ⟨h.1, hQ v h.2⟩
  | cons i is ih => exact ⟨h.1, ih h.2⟩

theorem append (h : Safe exec C (Safe exec C Q q) p v) : Safe exec C Q (p ++ q) v := by
  induction p generalizing v with
  | nil => exact h.2
  | cons i is ih => exact ⟨h.1, ih h.2⟩

/-- **The loop rule**: the rounds `t`, …, `n - 1` of a loop with invariant `I`. -/
theorem loop {I : Nat → σ → Prop} {body : Nat → List α} {n : Nat} (hC : ∀ w, I n w → C w)
    (hbody : ∀ t w, t < n → I t w → Safe exec C (I (t + 1)) (body t) w) {t : Nat} (ht : t ≤ n)
    (hI : I t v) : Safe exec C (I n) ((List.range' t (n - t)).flatMap body) v := by
  -- on the number of rounds left
  induction hk : n - t generalizing t v with
  | zero =>
    have hend : t = n := by omega
    subst hend
    exact ⟨hC v hI, hI⟩
  | succ k ih =>
    have hround := hbody t v (by omega) hI
    rw [List.range'_succ, List.flatMap_cons]
    refine append (hround.mono fun w hw => ?_)
    exact ih (by omega) hw (by omega)

end Safe
end CrashSafe
