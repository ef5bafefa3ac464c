/-
  Xv6.Vm.Memmove

  `memmove` (string.c:31-49) over a memory of 32-bit addresses.
-/

import Mathlib.Logic.Function.Basic
import Mathlib.Tactic

namespace Xv6
namespace Memmove

open Function

abbrev Addr := BitVec 32

variable {s d a : Addr} {n : ℕ} {m : Addr → UInt8}

/-- `while(n-- > 0) *d++ = *s++;` -/
def forward : ℕ → Addr → Addr → (Addr → UInt8) → Addr → UInt8
  | 0, _, _, m => m
  | n + 1, s, d, m => forward n (s + 1) (d + 1) (update m d (m s))

/-- `while(n-- > 0) *--d = *--s;` -/
def backward : ℕ → Addr → Addr → (Addr → UInt8) → Addr → UInt8
  | 0, _, _, m => m
  | n + 1, s, d, m => backward n (s - 1) (d - 1) (update m (d - 1) (m (s - 1)))

def memmove (dst src n : Addr) (m : Addr → UInt8) : Addr → UInt8 :=
  if src < dst ∧ src + n > dst then backward n.toNat (src + n) (dst + n) m
  else forward n.toNat src dst m

theorem forward_apply (hs : s.toNat + n ≤ 2 ^ 32) (hd : d.toNat + n ≤ 2 ^ 32)
    (hdir : n = 0 ∨ d.toNat ≤ s.toNat ∨ s.toNat + n ≤ d.toNat) :
    forward n s d m a = if (a - d).toNat < n then m (s + (a - d)) else m a := by
  induction n generalizing s d m with
  | zero => rw [forward, if_neg (Nat.not_lt_zero _)]
  | succ n ih =>
    rw [forward, ih (by bv_omega) (by bv_omega) (by bv_omega)]
    by_cases had : a = d
    · subst had
      rw [if_neg (by bv_omega), if_pos (by bv_omega), update_self]
      congr 1
      bv_omega
    · by_cases hin : (a - (d + 1)).toNat < n
      · rw [if_pos hin, if_pos (by bv_omega), update_of_ne (by bv_omega)]
        congr 1
        bv_omega
      · rw [if_neg hin, if_neg (by bv_omega), update_of_ne had]

theorem backward_apply (hs : s.toNat + n ≤ 2 ^ 32) (hd : d.toNat + n ≤ 2 ^ 32)
    (hdir : s.toNat ≤ d.toNat) : backward n (s + BitVec.ofNat 32 n) (d + BitVec.ofNat 32 n) m a
      = if (a - d).toNat < n then m (s + (a - d)) else m a := by
  induction n generalizing m with
  | zero => rw [backward, if_neg (Nat.not_lt_zero _)]
  | succ n ih =>
    have hlast : ∀ x : Addr, x + BitVec.ofNat 32 (n + 1) - 1 = x + BitVec.ofNat 32 n := by
      intro x
      bv_omega
    rw [backward, hlast, hlast, ih (by omega) (by omega)]
    by_cases had : a = d + BitVec.ofNat 32 n
    · have hn : a - d = BitVec.ofNat 32 n := by bv_omega
      rw [hn, if_neg (by bv_omega), if_pos (by bv_omega), had, update_self]
    · by_cases hin : (a - d).toNat < n
      · rw [if_pos hin, if_pos (by omega), update_of_ne (by bv_omega)]
      · rw [if_neg hin, if_neg (by bv_omega), update_of_ne had]

/-- **`memmove` copies whatever the overlap.**  The destination holds the bytes the source held,
    and the other addresses keep theirs. -/
theorem memmove_apply (dst src n : Addr) (hsrc : src.toNat + n.toNat ≤ 2 ^ 32)
    (hdst : dst.toNat + n.toNat ≤ 2 ^ 32) (m : Addr → UInt8) :
    (∀ i : Addr, i < n → memmove dst src n m (dst + i) = m (src + i)) ∧
      ∀ a, (∀ i < n, a ≠ dst + i) → memmove dst src n m a = m a := by
  have hif : ∀ a, memmove dst src n m a
      = if (a - dst).toNat < n.toNat then m (src + (a - dst)) else m a := by
    intro a
    unfold memmove
    by_cases hdir : src < dst ∧ src + n > dst
    · have hback := backward_apply (m := m) (a := a) hsrc hdst (by bv_omega)
      rw [BitVec.ofNat_toNat, BitVec.setWidth_eq] at hback
      rw [if_pos hdir, hback]
    · rw [if_neg hdir, forward_apply hsrc hdst (by bv_omega)]
  refine ⟨fun i hi => ?_, fun a ha => ?_⟩
  · rw [hif, if_pos (by bv_omega)]
    congr 1
    bv_omega
  · rw [hif, if_neg]
    intro hin
    exact ha (a - dst) (by bv_omega) (by bv_omega)

/-- Three bytes moved up by one, over two of themselves. -/
theorem memmove_apply_overlap :
    memmove 0x101 0x100 3 (fun a => if a = 0x102 then 7 else 0) 0x103 = 7 :=
  (memmove_apply 0x101 0x100 3 (by decide) (by decide) _).1 2 (by decide)

end Memmove
end Xv6
