/-
  Xv6.Vm.Syscall

  Fetching the arguments of a system call (syscall.c).

  A pointer is a 32-bit number, and so is every sum of pointers.  Reading user
  memory at or above `sz` is an error.
-/

import Xv6.Vm.Basic

namespace Xv6.Syscall

/-- The calling process: `sz`, `tf->esp` and its memory. -/
structure Caller where
  sz : ℕ
  esp : ℕ
  mem : ℕ → UInt8

namespace Caller

variable (c : Caller)

/-- A byte of user memory; beyond `sz` the address is the error. -/
def load (a : ℕ) : Except ℕ UInt8 := if a < c.sz then .ok (c.mem a) else .error a

/-- `*(int*)addr`, as an unsigned number. -/
def loadWord (addr : ℕ) : Except ℕ ℕ := do
  let b0 ← c.load addr
  let b1 ← c.load (addr + 1)
  let b2 ← c.load (addr + 2)
  let b3 ← c.load (addr + 3)
  pure (b0.toNat + 2 ^ 8 * b1.toNat + 2 ^ 16 * b2.toNat + 2 ^ 24 * b3.toNat)

/-- `fetchint(addr, ip)`; `none` is -1. -/
def fetchint (addr : ℕ) : Except ℕ (Option ℕ) :=
  if c.sz ≤ addr ∨ c.sz < (addr + 4) % 2 ^ 32 then pure none else some <$> c.loadWord addr

/-- The loop of `fetchstr`, for the `k` bytes from `s` up to `ep`. -/
def findNul : ℕ → ℕ → Except ℕ (Option ℕ)
  | 0, _ => pure none
  | k + 1, s => do if (← c.load s) = 0 then pure (some s) else findNul k (s + 1)

/-- `fetchstr(addr, pp)`: the length of the string. -/
def fetchstr (addr : ℕ) : Except ℕ (Option ℕ) :=
  if c.sz ≤ addr then pure none else do pure ((← c.findNul (c.sz - addr) addr).map (· - addr))

/-- Where argument `n` is. -/
def argAddr (n : ℤ) : ℕ := ((c.esp + 4 + 4 * n) % 2 ^ 32).toNat

/-- `argint(n, ip)` -/
def argint (n : ℤ) : Except ℕ (Option ℕ) := c.fetchint (c.argAddr n)

/-- `argptr(n, pp, size)`: the pointer. -/
def argptr (n size : ℤ) : Except ℕ (Option ℕ) := do
  match ← c.argint n with
  | none => pure none
  | some i =>
    if size < 0 ∨ c.sz ≤ i ∨ c.sz < ((i + size) % 2 ^ 32).toNat then pure none else pure (some i)

/-- `argstr(n, pp)`: the pointer and the length. -/
def argstr (n : ℤ) : Except ℕ (Option (ℕ × ℕ)) := do
  match ← c.argint n with
  | none => pure none
  | some addr => do pure ((← c.fetchstr addr).map fun len => (addr, len))

/-! ## What the checks let through -/

/-- The number that the four bytes at `a` stand for. -/
def word (a : ℕ) : ℕ := (c.mem a).toNat + 2 ^ 8 * (c.mem (a + 1)).toNat +
  2 ^ 16 * (c.mem (a + 2)).toNat + 2 ^ 24 * (c.mem (a + 3)).toNat

/-- The first NUL from `a` on is `len` bytes further, below `sz`. -/
structure IsStr (a len : ℕ) : Prop where
  below : a + len < c.sz
  nul : c.mem (a + len) = 0
  before : ∀ i < len, c.mem (a + i) ≠ 0

variable {c}

theorem load_of_lt {a : ℕ} (h : a < c.sz) : c.load a = .ok (c.mem a) := if_pos h

/-- `fetchint` succeeds exactly when the four bytes are below `sz`. -/
theorem fetchint_eq (hsz : c.sz ≤ KERNBASE) (addr : ℕ) :
    c.fetchint addr = .ok (if addr + 4 ≤ c.sz then some (c.word addr) else none) := by
  unfold KERNBASE at hsz
  unfold fetchint
  by_cases h : addr + 4 ≤ c.sz
  · rw [if_neg (by omega), if_pos h, loadWord, load_of_lt (by omega), load_of_lt (by omega),
      load_of_lt (by omega), load_of_lt (by omega)]
    rfl
  · rw [if_pos (by omega), if_neg h]
    rfl

theorem findNul_eq {k s : ℕ} (hk : s + k = c.sz) :
    ∃ r, c.findNul k s = .ok r ∧
      ∀ e, r = some e ↔ s ≤ e ∧ e < c.sz ∧ c.mem e = 0 ∧ ∀ i, s ≤ i → i < e → c.mem i ≠ 0 := by
  -- on the bytes that are left
  induction k generalizing s with
  | zero =>
    refine ⟨none, rfl, fun e => iff_of_false (by simp) ?_⟩
    rintro ⟨hlo, hhi, -⟩
    omega
  | succ k ih =>
    rw [findNul, load_of_lt (by omega)]
    show ∃ r, (if c.mem s = 0 then _ else _) = _ ∧ _
    by_cases h0 : c.mem s = 0
    · rw [if_pos h0]
      refine ⟨some s, rfl, fun e => ⟨?_, ?_⟩⟩
      · rintro ⟨⟩
        exact ⟨le_rfl, by omega, h0, fun i hlo hhi => absurd hlo (by omega)⟩
      · rintro ⟨hlo, -, -, hne⟩
        by_contra hse
        exact hne s le_rfl (lt_of_le_of_ne hlo fun heq => hse (by rw [heq])) h0
    · rw [if_neg h0]
      obtain ⟨r, hrun, hr⟩ := ih (s := s + 1) (by omega)
      refine ⟨r, hrun, fun e => (hr e).trans ⟨?_, ?_⟩⟩
      · rintro ⟨hlo, hhi, hnul, hne⟩
        refine ⟨by omega, hhi, hnul, fun i hi hie => ?_⟩
        rcases Nat.eq_or_lt_of_le hi with rfl | hlt
        · exact h0
        · exact hne i hlt hie
      · rintro ⟨hlo, hhi, hnul, hne⟩
        have hse : s ≠ e := fun heq => h0 (heq ▸ hnul)
        exact ⟨by omega, hhi, hnul, fun i hi hie => hne i (by omega) hie⟩

/-- `fetchstr` succeeds exactly when there is a NUL below `sz`. -/
theorem fetchstr_iff (addr : ℕ) :
    ∃ r, c.fetchstr addr = .ok r ∧ ∀ len, r = some len ↔ c.IsStr addr len := by
  unfold fetchstr
  by_cases h : c.sz ≤ addr
  · rw [if_pos h]
    refine ⟨none, rfl, fun len => iff_of_false (by simp) fun hs => ?_⟩
    have := hs.below
    omega
  · rw [if_neg h]
    obtain ⟨r, hrun, hr⟩ := findNul_eq (c := c) (k := c.sz - addr) (s := addr) (by omega)
    rw [hrun]
    refine ⟨_, rfl, fun len => Option.map_eq_some_iff.trans ⟨?_, fun hs => ?_⟩⟩
    · rintro ⟨e, he, rfl⟩
      obtain ⟨hlo, hhi, hnul, hne⟩ := (hr e).mp he
      obtain ⟨len, rfl⟩ := Nat.exists_eq_add_of_le hlo
      rw [Nat.add_sub_cancel_left]
      exact ⟨hhi, hnul, fun i hi => hne _ (by omega) (by omega)⟩
    · refine ⟨addr + len, (hr _).mpr ⟨by omega, hs.below, hs.nul, fun i hlo hhi => ?_⟩, by omega⟩
      have hne := hs.before (i - addr) (by omega)
      rwa [show addr + (i - addr) = i by omega] at hne

/-- **The checks of system call arguments are exact** and read no address at or
    above `sz`.  Sizes are of type `int`. -/
theorem arg_checks (hsz : c.sz ≤ KERNBASE) (n : ℤ) :
    (∀ size < 2 ^ 31, c.argptr n size = .ok (if c.argAddr n + 4 ≤ c.sz ∧ 0 ≤ size ∧
      c.word (c.argAddr n) < c.sz ∧ c.word (c.argAddr n) + size ≤ c.sz
      then some (c.word (c.argAddr n)) else none)) ∧
    ∃ r, c.argstr n = .ok r ∧ ∀ p len, r = some (p, len) ↔
      c.argAddr n + 4 ≤ c.sz ∧ p = c.word (c.argAddr n) ∧ c.IsStr p len := by
  unfold argptr argstr argint
  rw [fetchint_eq hsz]
  unfold KERNBASE at hsz
  by_cases h : c.argAddr n + 4 ≤ c.sz
  · rw [if_pos h]
    generalize c.word (c.argAddr n) = i
    refine ⟨fun size hsize => ?_, ?_⟩
    · show (if size < 0 ∨ c.sz ≤ i ∨ c.sz < ((i + size) % 2 ^ 32).toNat then pure none
        else pure (some i)) = _
      by_cases hin : 0 ≤ size ∧ i < c.sz ∧ i + size ≤ c.sz
      · rw [if_neg (by omega), if_pos ⟨h, hin⟩]
        rfl
      · rw [if_pos (by omega), if_neg fun hall => hin hall.2]
        rfl
    · obtain ⟨r, hrun, hr⟩ := fetchstr_iff (c := c) i
      refine ⟨r.map fun len => (i, len), ?_, fun p len => Option.map_eq_some_iff.trans ⟨?_, ?_⟩⟩
      · show (do pure ((← c.fetchstr i).map fun len => (i, len))) = _
        rw [hrun]
        rfl
      · rintro ⟨len', hlen, ⟨⟩⟩
        exact ⟨h, rfl, (hr len).mp hlen⟩
      · rintro ⟨-, rfl, hs⟩
        exact ⟨len, (hr len).mpr hs, rfl⟩
  · rw [if_neg h]
    refine ⟨fun size _ => ?_, none, rfl, fun p len => iff_of_false (by simp) fun hall => h hall.1⟩
    rw [if_neg fun hall => h hall.1]
    rfl

/-- A process whose stack pointer is at the end of the address space. -/
theorem arg_checks_wrap : (Caller.mk 4096 (2 ^ 32 - 4) fun _ => 0).sz ≤ KERNBASE ∧
    ∃ r, (Caller.mk 4096 (2 ^ 32 - 4) fun _ => 0).argstr 0 = .ok r ∧ r = some (0, 0) := by
  obtain ⟨-, r, hrun, hr⟩ := arg_checks (c := ⟨4096, 2 ^ 32 - 4, fun _ => 0⟩) (by decide) 0
  exact ⟨by decide, r, hrun,
    (hr 0 0).mpr ⟨by decide, by decide, by decide, rfl, fun i hi => by omega⟩⟩

end Caller
end Xv6.Syscall
