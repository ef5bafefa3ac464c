/-
  Xv6.Lib.Ring

  Ring buffers indexed by counters that wrap around.

  `Holds buf r q` says that a ring of `N` cells contains the queue `q` from
  position `r` on.  Positions are natural numbers that only grow; a 32-bit
  counter stands for a position (`UInt32.ofNat`), and picks the right cell
  because `N` divides `2 ^ 32`.
-/

import Mathlib.Tactic

namespace Ring

open Function List

variable {α : Type*} {N : ℕ} [NeZero N] {buf : Fin N → α} {r n m : ℕ} {q : List α} {c : α}

/-- The cell of position `i`. -/
def cell (N : ℕ) [NeZero N] (i : ℕ) : Fin N := Fin.ofNat N i

theorem cell_eq_cell {i j : ℕ} : cell N i = cell N j ↔ i % N = j % N := by
  unfold cell
  rw [Fin.ext_iff]
  rfl

theorem cell_ne {i j : ℕ} (hij : i < j) (hlt : j < i + N) : cell N i ≠ cell N j := by
  intro h
  rw [cell_eq_cell] at h
  have hdvd : N ∣ j - i := (Nat.modEq_iff_dvd' hij.le).mp h
  have hle := Nat.le_of_dvd (by omega) hdvd
  omega

/-- The ring contains `q` from position `r` on. -/
structure Holds (buf : Fin N → α) (r : ℕ) (q : List α) : Prop where
  short : q.length ≤ N
  get : ∀ k (hk : k < q.length), buf (cell N (r + k)) = q[k]

theorem Holds.nil : Holds buf r ([] : List α) := ⟨Nat.zero_le N, fun _ hk => absurd hk (Nat.not_lt_zero _)⟩

theorem Holds.push (h : Holds buf r q) (hlt : q.length < N) :
    Holds (update buf (cell N (r + q.length)) c) r (q ++ [c]) := by
  refine ⟨by rw [length_append, length_singleton]; omega, fun k hk => ?_⟩
  rw [length_append, length_singleton] at hk
  by_cases hlast : k = q.length
  · subst hlast
    rw [update_self, getElem_concat_length rfl]
  · have hk' : k < q.length := by omega
    have hne : cell N (r + k) ≠ cell N (r + q.length) := cell_ne (by omega) (by omega)
    rw [update_of_ne hne, getElem_append_left hk', h.get k hk']

theorem Holds.head (h : Holds buf r (c :: q)) : buf (cell N r) = c := by
  have hget := h.get 0 (by simp)
  simpa using hget

theorem Holds.pop (h : Holds buf r (c :: q)) : Holds buf (r + 1) q := by
  have hshort := h.short
  rw [length_cons] at hshort
  refine ⟨by omega, fun k hk => ?_⟩
  have hget := h.get (k + 1) (by rw [length_cons]; omega)
  rw [getElem_cons_succ] at hget
  rw [show r + 1 + k = r + (k + 1) by omega]
  exact hget

theorem Holds.unpush (h : Holds buf r (q ++ [c])) : Holds buf r q := by
  have hshort := h.short
  rw [length_append, length_singleton] at hshort
  refine ⟨by omega, fun k hk => ?_⟩
  rw [h.get k (by rw [length_append]; omega), getElem_append_left hk]

theorem Holds.last (h : Holds buf r (q ++ [c])) : buf (cell N (r + q.length)) = c := by
  rw [h.get q.length (by simp), getElem_concat_length rfl]

/-! ## Counters -/

theorem cell_counter (hN : N ∣ 2 ^ 32) (n : ℕ) : cell N (UInt32.ofNat n).toNat = cell N n := by
  rw [cell_eq_cell, UInt32.toNat_ofNat']
  exact Nat.mod_mod_of_dvd n hN

theorem counter_inj {n m : ℕ} (hle : n ≤ m) (hlt : m < n + 2 ^ 32) :
    UInt32.ofNat m = UInt32.ofNat n ↔ m = n := by
  refine ⟨fun h => ?_, fun h => by rw [h]⟩
  have hmod := congrArg UInt32.toNat h
  rw [UInt32.toNat_ofNat', UInt32.toNat_ofNat'] at hmod
  omega

theorem counter_succ (n : ℕ) : UInt32.ofNat n + 1 = UInt32.ofNat (n + 1) :=
  (UInt32.ofNat_add n 1).symm

theorem toNat_counter_sub {n k : ℕ} (hk : k < 2 ^ 32) :
    (UInt32.ofNat (n + k) - UInt32.ofNat n).toNat = k := by
  rw [UInt32.ofNat_add, UInt32.add_comm, UInt32.add_sub_cancel, UInt32.toNat_ofNat',
    Nat.mod_eq_of_lt hk]

end Ring
