/-
  Xv6.Vm.RawCopy

  Where the copy of `exec` goes without a page table.

  If the entry at the caller's address 0 names the page of the new directory, the
  string is copied over the directory, and `walkpgdir` reads what it has just
  written; so memory is bytes here.  The string of `wiring` makes the directory its
  own page table, and the first page table one that maps itself everywhere.
-/

import Xv6.Vm.WildCopy

namespace Xv6

open Function Wp Multiset Pgdir

namespace Vm

/-- Physical memory, by page and offset. -/
abbrev Phys := ℕ → ℕ → UInt8

namespace Phys

/-! ## The code on bytes -/

def entryAt (m : Phys) (q k : ℕ) : Pte := pteOfBytes fun i => m q (4 * k + i)

def store (m : Phys) (q o n : ℕ) (src : ℕ → UInt8) : Phys :=
  update m q fun i => if o ≤ i ∧ i < o + n then src (i - o) else m q i

/-- `uva2ka`; without a page table it uses the entry at the caller's address 0. -/
def uva2ka (zero : Pte) (m : Phys) (pgdir va : ℕ) : Option ℕ :=
  let pde := entryAt m pgdir (va / PGSIZE / NPTENTRIES)
  let pte := if pde.p then entryAt m pde.addr (va / PGSIZE % NPTENTRIES) else zero
  if Leads pte then some pte.addr else none

/-- `copyout`, or `none` where it returns -1. -/
def copyout (zero : Pte) (pgdir : ℕ) (src : ℕ → UInt8) : ℕ → ℕ → ℕ → ℕ → Phys → Option Phys
  | 0, _, _, _, _ => none
  | fuel + 1, va, done, len, m =>
    if len = 0 then some m
    else
      match uva2ka zero m pgdir va with
      | none => none
      | some q =>
        let n := if len < PGSIZE - va % PGSIZE then len else PGSIZE - va % PGSIZE
        copyout zero pgdir src fuel ((va / PGSIZE + 1) * PGSIZE % 2 ^ 32) (done + n) (len - n)
          (store m q (va % PGSIZE) n fun i => src (done + i))

def pushArgs (zero : Pte) (pgdir : ℕ) : List Arg → ℕ → List ℕ → Phys → Option (ℕ × List ℕ × Phys)
  | [], sp, addrs, m => some (sp, addrs, m)
  | a :: as, sp, addrs, m =>
    if MAXARG ≤ addrs.length then none
    else
      let sp' := pushStr sp a.len
      match copyout zero pgdir (fun i => if i < a.len then a.byte i else 0)
          ((a.len + 1) / PGSIZE + 3) sp' 0 (a.len + 1) m with
      | none => none
      | some m' => pushArgs zero pgdir as sp' (addrs ++ [sp']) m'

/-- `buildStack` on bytes: `esp` and the memory, if `exec` goes on to commit. -/
def buildStack (zero : Pte) (pgdir sz : ℕ) (argv : List Arg) (m : Phys) : Option (ℕ × Phys) :=
  match pushArgs zero pgdir argv sz [] m with
  | none => none
  | some (sp, addrs, m') =>
    let n := (3 + addrs.length + 1) * 4
    let sp' := (sp + 2 ^ 32 - n) % 2 ^ 32
    (copyout zero pgdir (wordByte (ustack sp addrs)) (n / PGSIZE + 3) sp' 0 n m').map fun m'' =>
      (sp', m'')

/-- The flags of an entry, as bits. -/
def flags (e : Pte) : ℕ :=
  (if e.p then 1 else 0) + (if e.w then 2 else 0) + (if e.u then 4 else 0)

variable {m m₀ : Phys} {q q' k o n t D T : ℕ} {src : ℕ → UInt8} {zero : Pte} {d : Pgdir} {s : Kmem}

theorem pteOfBytes_congr {b b' : ℕ → UInt8} (h : ∀ i < 4, b i = b' i) :
    pteOfBytes b = pteOfBytes b' := by
  unfold pteOfBytes
  rw [h 0 (by decide), h 1 (by decide), h 2 (by decide), h 3 (by decide)]

theorem entryAt_store (ht : t < 2 ^ 20) (ho : o ≤ 4 * k) (hk : 4 * k + 4 ≤ o + n)
    (hsrc : ∀ i < 4, src (4 * k + i - o) = entryByte 0xE07 t i) :
    entryAt (store m q o n src) q k = ⟨t, true, true, true⟩ := by
  refine pteOfBytes_entryByte ht (show 0xE07 < PGSIZE by decide) fun i hi => ?_
  rw [store, update_self, if_pos (by omega)]
  exact hsrc i hi

theorem entryAt_store_of_ne (h : q' ≠ q ∨ 4 * k + 4 ≤ o ∨ o + n ≤ 4 * k) :
    entryAt (store m q o n src) q' k = entryAt m q' k := by
  refine pteOfBytes_congr fun i hi => ?_
  rw [store]
  by_cases hq : q' = q
  · rw [hq, update_self, if_neg (by omega)]
  · rw [update_of_ne hq]

theorem uva2ka_of_table {va : ℕ}
    (hpde : entryAt m D (va / PGSIZE / NPTENTRIES) = ⟨t, true, true, true⟩)
    (hpte : entryAt m t (va / PGSIZE % NPTENTRIES) = ⟨q, true, true, true⟩)
    (hq : q ≠ KERNBASE / PGSIZE) : uva2ka zero m D va = some q := by
  unfold uva2ka
  simp only [hpde, if_true, hpte]
  rw [if_pos ⟨rfl, rfl, hq⟩]

theorem copyout_succ {fuel va done len : ℕ} (hlen : len ≠ 0) (hka : uva2ka zero m D va = some q) :
    copyout zero D src (fuel + 1) va done len m =
      let n := if len < PGSIZE - va % PGSIZE then len else PGSIZE - va % PGSIZE
      copyout zero D src fuel ((va / PGSIZE + 1) * PGSIZE % 2 ^ 32) (done + n) (len - n)
        (store m q (va % PGSIZE) n fun i => src (done + i)) := by
  conv_lhs => unfold copyout
  rw [if_neg hlen, hka]

/-! ## The string -/

/-- The string: an entry for the directory's page `D`, then entries for the page table `T`. -/
def wiring (D T : ℕ) : Arg := ⟨33599523, fun i => entryByte 0xE07 (if i < 4 then D else T) (i % 4)⟩

/-- A page number whose entries have no zero byte. -/
def Visible (q : ℕ) : Prop := 4112 ≤ q ∧ q < 8192

theorem Visible.ne (h : Visible q) : q ≠ KERNBASE / PGSIZE := by
  have := h.2
  unfold KERNBASE PGSIZE
  omega

/-- The directory maps itself, and beyond it and at address 0 the page table `T`; what else was in
    the directory and in memory is as in `m₀`. -/
structure Wired (m₀ : Phys) (D T : ℕ) (m : Phys) : Prop where
  low : entryAt m D 0 = ⟨T, true, true, true⟩
  self : entryAt m D 1015 = ⟨D, true, true, true⟩
  high : ∀ k, 1016 ≤ k → k < 1024 → entryAt m D k = ⟨T, true, true, true⟩
  rest : ∀ k < 1010, entryAt m D k = entryAt m₀ D k
  frame : ∀ q, q ≠ D → q ≠ T → m q = m₀ q

def Full (T : ℕ) (m : Phys) : Prop := ∀ k < 1024, entryAt m T k = ⟨T, true, true, true⟩

theorem Wired.store_table (h : Wired m₀ D T m) (hne : D ≠ T) :
    Wired m₀ D T (store m T o n src) where
  low := by
    rw [entryAt_store_of_ne (.inl hne)]
    exact h.low
  self := by
    rw [entryAt_store_of_ne (.inl hne)]
    exact h.self
  high := fun k hlo hhi => by
    rw [entryAt_store_of_ne (.inl hne)]
    exact h.high k hlo hhi
  rest := fun k hk => by
    rw [entryAt_store_of_ne (.inl hne)]
    exact h.rest k hk
  frame := fun q hD hT => (update_of_ne hT _ _).trans (h.frame q hD hT)

/-- With `r` pages to go the copy is at page `2 ^ 20 + 3 - r`, beyond the top at 0 to 2. -/
theorem Wired.uva2ka {r : ℕ} (h : Wired m₀ D T m) (zero : Pte) (hT : Visible T) (hr : r ≤ 8202)
    (hfull : r ≤ 8194 → Full T m) :
    uva2ka zero m D ((2 ^ 20 + 2 - r) % 2 ^ 20 * PGSIZE) = some T := by
  have hq := hT.ne
  have hmod : (2 ^ 20 + 2 - r) % 2 ^ 20 % NPTENTRIES < 1024 := Nat.mod_lt _ (by decide)
  by_cases hfar : r ≤ 8194
  · refine uva2ka_of_table (t := T) ?_ ?_ hq
    · rw [Nat.mul_div_cancel _ (by decide)]
      by_cases hlow : r ≤ 2
      · rw [show (2 ^ 20 + 2 - r) % 2 ^ 20 / NPTENTRIES = 0 by unfold NPTENTRIES; omega]
        exact h.low
      · refine h.high _ ?_ ?_
        · unfold NPTENTRIES
          omega
        · unfold NPTENTRIES
          omega
    · rw [Nat.mul_div_cancel _ (by decide)]
      exact hfull hfar _ hmod
  · refine uva2ka_of_table (t := D) ?_ ?_ hq
    · rw [Nat.mul_div_cancel _ (by decide),
        show (2 ^ 20 + 2 - r) % 2 ^ 20 / NPTENTRIES = 1015 by unfold NPTENTRIES; omega]
      exact h.self
    · rw [Nat.mul_div_cancel _ (by decide)]
      refine h.high _ ?_ hmod
      unfold NPTENTRIES
      omega

theorem next_page {r : ℕ} (hr : r ≤ 8202) :
    ((2 ^ 20 + 2 - r) % 2 ^ 20 + 1) * PGSIZE % 2 ^ 32 = (2 ^ 20 + 3 - r) % 2 ^ 20 * PGSIZE := by
  have hpage : ((2 ^ 20 + 2 - r) % 2 ^ 20 + 1) % 2 ^ 20 = (2 ^ 20 + 3 - r) % 2 ^ 20 := by omega
  rw [← hpage, show (2 : ℕ) ^ 32 = 2 ^ 20 * PGSIZE from rfl, Nat.mul_mod_mul_right]

def wiringByte (D T i : ℕ) : UInt8 := if i < 33599523 then (wiring D T).byte i else 0

theorem Wired.copyout {r fuel : ℕ} (h : Wired m₀ D T m) (zero : Pte) (hne : D ≠ T)
    (hT : Visible T) (hr : r ≤ 8203)
    (hfuel : r < fuel) (hfull : 0 < r → r ≤ 8195 → Full T m) :
    ∃ m', copyout zero D (wiringByte D T) fuel ((2 ^ 20 + 3 - r) % 2 ^ 20 * PGSIZE)
      (36 + PGSIZE * (8203 - r)) (PGSIZE * r) m = some m' ∧ Wired m₀ D T m' := by
  induction r generalizing m fuel with
  | zero =>
    obtain ⟨fuel, rfl⟩ := Nat.exists_eq_succ_of_ne_zero (by omega : fuel ≠ 0)
    exact ⟨m, rfl, h⟩
  | succ r ih =>
    obtain ⟨fuel, rfl⟩ := Nat.exists_eq_succ_of_ne_zero (by omega : fuel ≠ 0)
    have hva : 2 ^ 20 + 3 - (r + 1) = 2 ^ 20 + 2 - r := by omega
    have hka := h.uva2ka zero (r := r) hT (by omega) fun hle =>
      hfull (by omega) (by omega)
    rw [hva]
    rw [copyout_succ (by unfold PGSIZE; omega) hka]
    dsimp only
    have hoff : (2 ^ 20 + 2 - r) % 2 ^ 20 * PGSIZE % PGSIZE = 0 := Nat.mul_mod_left _ _
    rw [hoff, if_neg (by unfold PGSIZE; omega), Nat.sub_zero, Nat.mul_div_cancel _ (by decide),
      next_page (by omega),
      show 36 + PGSIZE * (8203 - (r + 1)) + PGSIZE = 36 + PGSIZE * (8203 - r) by
        unfold PGSIZE; omega,
      show PGSIZE * (r + 1) - PGSIZE = PGSIZE * r by unfold PGSIZE; omega]
    refine ih (h.store_table hne) (by omega) (by omega) fun hpos _ k hk => ?_
    -- the page has been filled with entries for itself
    refine entryAt_store (by have := hT.2; omega) (Nat.zero_le _) (by unfold PGSIZE; omega)
      fun i hi => ?_
    show (if _ < 33599523 then (wiring D T).byte _ else 0) = _
    rw [if_pos (by unfold PGSIZE; omega)]
    show entryByte 0xE07 (if _ < 4 then D else T) _ = _
    rw [if_neg (by unfold PGSIZE; omega)]
    congr 1
    unfold PGSIZE
    omega

end Phys

/-! ## exec -/

variable {L : Layout} {s : Kmem}

end Vm

end Xv6
