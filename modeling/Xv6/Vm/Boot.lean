/-
  Xv6.Vm.Boot

  The pages from the start of `main` on (main.c, kalloc.c): those up to 4 MB
  serve for the kernel's own page table and the stacks of the other CPUs, before
  `kinit2` frees the rest of memory.
-/

import Xv6.Vm.WildCopy

namespace Xv6.Vm

open List Wp

variable {L : Layout} {s : Kmem} {E : String → Kmem → Prop} {a k : ℕ}

/-- The loop of `freerange`. -/
def freeLoop (L : Layout) (p vend : ℕ) : M Unit :=
  if p + PGSIZE ≤ vend then do
    kfree L ((p - KERNBASE) / PGSIZE)
    freeLoop L (p + PGSIZE) vend
  else pure ()
termination_by vend - p
decreasing_by unfold PGSIZE at *; omega

def freerange (L : Layout) (vstart vend : ℕ) : M Unit := freeLoop L (pgroundup vstart) vend

/-- The stacks of `n` CPUs, as `kalloc` returns them. -/
def startothers : ℕ → M (List (Option ℕ))
  | 0 => pure []
  | n + 1 => do
    let stack ← kalloc
    let others ← startothers n
    pure (stack :: others)

/-- `P2V(4*1024*1024)` -/
def fourMB : ℕ := KERNBASE + 4 * 1024 * 1024

/-- With a null `kpgdir` the machine does not survive `switchkvm`. -/
def kvmalloc (L : Layout) : M Pgdir := do
  match ← setupkvm L with
  | none => fail "switchkvm: no kpgdir"
  | some kpgdir => pure kpgdir

/-- `main`, as far as it takes or frees pages before `userinit`. -/
def main (L : Layout) (n : ℕ) : M (Pgdir × List (Option ℕ)) := do
  freerange L L.kend fourMB
  let kpgdir ← kvmalloc L
  let others ← startothers n
  freerange L fourMB (KERNBASE + PHYSTOP)
  pure (kpgdir, others)

theorem wp_freeLoop {Q : Unit → Kmem → Prop} (hram : ∀ q, a ≤ q → q < a + k → L.Ram q)
    (hQ : ∀ s', s'.total = s.total + (range' a k : Multiset ℕ) →
      s'.free.length = s.free.length + k → Q () s') :
    wp (freeLoop L (KERNBASE + a * PGSIZE) (KERNBASE + (a + k) * PGSIZE)) Q E s := by
  induction k generalizing a s with
  | zero =>
    rw [freeLoop, if_neg (by unfold PGSIZE; omega)]
    exact hQ s (add_zero _).symm rfl
  | succ k ih =>
    rw [freeLoop, if_pos (by unfold PGSIZE; omega), Nat.add_sub_cancel_left,
      Nat.mul_div_cancel _ (by decide)]
    refine wp_seq (wp_kfree (hram a le_rfl (by omega)) ?_)
    rw [show KERNBASE + a * PGSIZE + PGSIZE = KERNBASE + (a + 1) * PGSIZE by unfold PGSIZE; omega,
      show a + (k + 1) = a + 1 + k by omega]
    refine ih (fun q hlo hhi => hram q (by omega) (by omega)) fun s' ht hl => hQ s' ?_ ?_
    · rw [ht, total_freed, add_assoc, range'_succ, ← Multiset.cons_coe, Multiset.singleton_add]
    · rw [hl]
      show s.free.length + 1 + k = _
      omega

theorem wp_startothers {n : ℕ} {Q : List (Option ℕ) → Kmem → Prop} (hn : n ≤ s.free.length)
    (hQ : ∀ (l : List ℕ) s', l.length = n → (l : Multiset ℕ) + s'.total = s.total →
      Q (l.map some) s') : wp (startothers n) Q E s := by
  induction n generalizing s Q with
  | zero => exact hQ [] s rfl (zero_add _)
  | succ n ih =>
    rw [startothers]
    refine wp_seq (wp_kalloc (fun hnil => ?_) fun p rest hfree => ?_)
    · rw [hnil, length_nil] at hn
      omega
    · rw [hfree, length_cons] at hn
      refine wp_seq (ih (show n ≤ rest.length by omega) fun l s' hlen hl =>
        hQ (p :: l) s' (by rw [length_cons, hlen]) ?_)
      rw [← Multiset.cons_coe, Multiset.cons_add, hl, ← Multiset.singleton_add, add_comm]
      exact (total_taken hfree).symm

theorem exists_first (hend : L.kend ≤ fourMB) : ∃ a ≤ 1024,
    pgroundup L.kend = KERNBASE + a * PGSIZE ∧ ∀ q, a ≤ q ∧ q < 57344 ↔ L.Ram q := by
  have hlo := L.lo.trans_le L.order
  unfold fourMB at hend
  unfold pgroundup Layout.Ram
  unfold KERNLINK EXTMEM at hlo
  unfold KERNBASE PGSIZE PHYSTOP at *
  refine ⟨(L.kend + 4095) / 4096 - 0x80000, by omega, by omega, fun q => ?_⟩
  omega

theorem wp_main {n : ℕ} {data : ℕ → ℕ → UInt8} (ha : a + (KPAGES + n) ≤ 1024)
    (hround : pgroundup L.kend = KERNBASE + a * PGSIZE)
    (hram : ∀ q, a ≤ q ∧ q < 57344 ↔ L.Ram q) : wp (main L n) (fun r s => ∃ l : List ℕ,
      r.2 = l.map some ∧ l.length = n ∧ Kern L r.1 ∧
      r.1.pages + l + s.total = (range' a (57344 - a) : Multiset ℕ) ∧ 4096 ≤ s.free.length) E
      ⟨[], data, []⟩ := by
  have hfour : fourMB = KERNBASE + (a + (1024 - a)) * PGSIZE := by unfold fourMB PGSIZE; omega
  rw [main, freerange, hround, freerange, show pgroundup fourMB = KERNBASE + 1024 * PGSIZE from rfl,
    show KERNBASE + PHYSTOP = KERNBASE + (1024 + 56320) * PGSIZE from rfl, hfour]
  refine wp_seq (wp_freeLoop (fun q hlo hhi => (hram q).mp (by omega)) fun s1 h1 hlen1 => ?_)
  rw [show (⟨[], data, []⟩ : Kmem).free.length = 0 from rfl, Nat.zero_add] at hlen1
  -- the pages below 4 MB suffice for the kernel's page table and the stacks
  refine wp_seq (wp_seq (wp_setupkvm (fun hnil => ?_) (fun _ _ _ _ _ _ hlt => ?_) fun d s2 hset => ?_))
  · rw [hnil, length_nil] at hlen1
    unfold KPAGES at ha
    omega
  · omega
  have hcount := hset.count
  refine wp_seq (wp_startothers (by omega) fun l s3 hl h3 => wp_seq (wp_freeLoop
    (fun q hlo hhi => (hram q).mp (by omega)) fun s4 h4 hlen4 =>
      ⟨l, rfl, hl, hset.kern, ?_, by omega⟩))
  calc d.pages + l + s4.total
      = d.pages + (l + s3.total) + (range' 1024 56320 : Multiset ℕ) := by rw [h4]; abel
    _ = (range' a (1024 - a) : Multiset ℕ) + (range' 1024 56320 : Multiset ℕ) := by
      rw [h3, hset.pages, h1]
      exact congrArg (· + _) (zero_add _)
    _ = (range' a (57344 - a) : Multiset ℕ) := by
      rw [Multiset.coe_add, show 57344 - a = 1024 - a + 56320 by omega, ← range'_append_1,
        show a + (1024 - a) = 1024 by omega]

variable {ι : Type} [Fintype ι] [DecidableEq ι]

/-- **Every page is accounted for, from the start on.**  If the kernel leaves enough pages below
    4 MB for its page table and the stacks of the other CPUs, `main` gets both and reaches the
    first process without a panic.  In every run from there in which no argument of `exec` goes
    astray, each page of memory behind the kernel is one of those `main` keeps, in one place, or
    dropped by a failing call. -/
theorem boot_pages (hend : L.kend ≤ fourMB) (n : ℕ)
    (hroom : KPAGES + n ≤ (fourMB - pgroundup L.kend) / PGSIZE) (data : ℕ → ℕ → UInt8)
    (init : List UInt8) (hinit : init.length < PGSIZE) (i : ι) :
    ∃ (T : Multiset ℕ) (kpgdir : Pgdir) (others : List ℕ) (s : Kmem) (p : Space) (s' : Kmem),
      T.Nodup ∧ (∀ q, q ∈ T ↔ L.Ram q) ∧
      main L n ⟨[], data, []⟩ = .ok (kpgdir, others.map some) s ∧ others.length = n ∧
      Kern L kpgdir ∧ userinit L init s = .ok p s' ∧
      ∀ as, Transition.Meets (MemSys.step L) (fun m a => ¬ m.Wild a) (.boot i p s') as →
        Transition.Along (MemSys.step L) (fun m =>
          kpgdir.pages + others + (m.places + (m.kmem.dropped : Multiset ℕ)) = T)
          (.boot i p s') as := by
  obtain ⟨a, ha, hround, hram⟩ := exists_first hend
  have hpages : a + (KPAGES + n) ≤ 1024 := by
    rw [hround] at hroom
    unfold fourMB PGSIZE at hroom
    omega
  obtain ⟨⟨kpgdir, _⟩, s, hmain, others, rfl, hlen, hkern, hpages, hfree⟩ :=
    exists_ok (wp_main hpages hround hram : wp (main L n) _ _ ⟨[], data, []⟩)
  have hT : (range' a (57344 - a) : Multiset ℕ).Nodup := Multiset.coe_nodup.mpr nodup_range'
  have hmem : ∀ q, q ∈ (range' a (57344 - a) : Multiset ℕ) ↔ L.Ram q := by
    intro q
    rw [Multiset.mem_coe, mem_range'_1, ← hram q]
    omega
  have hle : s.total ≤ (range' a (57344 - a) : Multiset ℕ) :=
    hpages ▸ Multiset.le_add_left _ _
  have hstart : MemSys.StartMem L s :=
    ⟨Multiset.nodup_of_le hle hT, fun q hq => (hmem q).mp (Multiset.mem_of_le hle hq), hfree⟩
  obtain ⟨p, s', hboot, -⟩ := exists_ok (show wp (userinit L init) _ (fun _ _ => False) s from
    hstart.wp_userinit fun hbig => absurd hbig (by omega))
  refine ⟨_, kpgdir, others, s, p, s', hT, hmem, hmain, hlen, hkern, hboot, fun as hwild => ?_⟩
  refine (MemSys.inv_along hstart hboot i hwild).mono fun m h => ?_
  rw [MemSys.places_add_dropped, h.pages, hpages]

/-- A small kernel with one more CPU. -/
theorem boot_pages_small : smallKernel.kend ≤ fourMB ∧
    KPAGES + 1 ≤ (fourMB - pgroundup smallKernel.kend) / PGSIZE ∧
    ∃ (T : Multiset ℕ) (kpgdir : Pgdir) (k : ℕ) (s : Kmem) (p : Space) (s' : Kmem),
      main smallKernel 1 ⟨[], fun _ _ => 0, []⟩ = .ok (kpgdir, [some k]) s ∧
      userinit smallKernel [] s = .ok p s' ∧
      Transition.Along (MemSys.step smallKernel) (fun m =>
        kpgdir.pages + {k} + (m.places + (m.kmem.dropped : Multiset ℕ)) = T)
        (.boot (0 : Fin 2) p s') [.fork 0 1, .sbrk 1 4096, .exit 1, .wait 1] := by
  have hend : smallKernel.kend ≤ fourMB := by decide
  have hroom : KPAGES + 1 ≤ (fourMB - pgroundup smallKernel.kend) / PGSIZE := by decide
  obtain ⟨T, kpgdir, others, s, p, s', -, -, hmain, hlen, -, hboot, hrun⟩ :=
    boot_pages hend 1 hroom (fun _ _ => 0) [] (by decide) (0 : Fin 2)
  obtain ⟨k, rfl⟩ := length_eq_one_iff.mp hlen
  exact ⟨hend, hroom, T, kpgdir, k, s, p, s', hmain, hboot, hrun _ MemSys.meets_fork_exit⟩

end Xv6.Vm
