/-
  Xv6.User.HeapRun

  The calls a program makes to `malloc` and `free`.

  A program may ask for any number of bytes below 2^31, and may free what it
  has got and not yet freed.  Whenever `sbrk` is called it fails, or returns
  memory above all that it has returned before.  The last section is about
  larger requests.
-/

import Xv6.User.HeapInv
import Xv6.Vm.Basic

namespace Xv6

open Function Finset Transition Heap Option

inductive HeapCall where
  | malloc (nbytes : Nat) (brk : Option (Nat × Nat))
  | free (ap : Nat)

structure Program where
  heap : Heap
  live : Finset Nat

namespace Program

def start (base : Nat) (ptr size : Nat → Nat) : Program := ⟨⟨base, ptr, size, 0, []⟩, ∅⟩

/-- A request whose size in bytes, rounded up, is below 2^31, and what `sbrk` may return: memory
    above all that it has returned before, as much as was asked for. -/
def Request (u : Program) (nbytes : Nat) (brk : Option (Nat × Nat)) : Prop :=
  HEADER * ((nbytes + HEADER - 1) / HEADER + 1) < 2 ^ 31 ∧
    ∀ r ∈ brk, u.heap.Fresh r.1 ∧ r.1 + HEADER * coreUnits (nunits nbytes) ≤ r.2

instance (u : Program) (nbytes : Nat) (brk : Option (Nat × Nat)) :
    Decidable (u.Request nbytes brk) := inferInstanceAs (Decidable (_ ∧ _))

def Has (u : Program) (ap : Nat) : Prop := HEADER ≤ ap ∧ ap - HEADER ∈ u.live

instance (u : Program) (ap : Nat) : Decidable (u.Has ap) := inferInstanceAs (Decidable (_ ∧ _))

/-- The loops need no more rounds than this. -/
def fuel (u : Program) : Nat := 2 * (u.heap.obtained + 1) + 1

def malloc (u : Program) (nbytes : Nat) (brk : Option (Nat × Nat)) : Option (Program × Nat) := do
  let r ← u.heap.malloc u.fuel nbytes brk
  pure (⟨r.1, if r.2 = 0 then u.live else insert (r.2 - HEADER) u.live⟩, r.2)

def free (u : Program) (ap : Nat) : Option Program := do
  let h ← u.heap.free u.fuel ap
  pure ⟨h, u.live.erase (ap - HEADER)⟩

def step (u : Program) : HeapCall → Option Program
  | .malloc nbytes brk =>
    if u.Request nbytes brk then (u.malloc nbytes brk).map Prod.fst else none
  | .free ap => if u.Has ap then u.free ap else none

/-- **The heap is in order**, once `base` is linked. -/
structure Ok (u : Program) : Prop where
  base : 0 < u.heap.base
  unlinked : u.heap.freep = 0 → u.live = ∅
  sound : ∃ F, Sound u.heap.init F u.live

structure Allocated (u : Program) (nbytes : Nat) (u' : Program) (p : Nat) : Prop where
  header : HEADER ≤ p
  new : p - HEADER ∉ u.live
  live : u'.live = insert (p - HEADER) u.live
  room : p + nbytes ≤ p - HEADER + HEADER * u'.heap.size (p - HEADER)
  inside : ∀ x, p - HEADER ≤ x → x < p - HEADER + HEADER * u'.heap.size (p - HEADER) →
    u'.heap.InMem x

variable {u u' : Program}
variable {h : Heap} {F V : Finset Nat}

/-! ## The first call -/

theorem init_of_linked (hf : h.freep ≠ 0) : h.init = h := if_neg hf

theorem init_base (h : Heap) : h.init.base = h.base := by
  unfold Heap.init
  split <;> rfl

theorem init_mem (h : Heap) : h.init.mem = h.mem := by
  unfold Heap.init
  split <;> rfl

theorem freep_ne_zero (hs : Sound h F V) (hbase : 0 < h.base) : h.freep ≠ 0 := by
  have := hs.base_le hs.freep
  omega

theorem ok_of_sound (hs : Sound h F V) (hbase : 0 < h.base) : Ok ⟨h, V⟩ := by
  have hne := freep_ne_zero hs hbase
  refine ⟨hbase, fun h0 => absurd h0 hne, F, ?_⟩
  show Sound h.init F V
  rw [init_of_linked hne]
  exact hs

theorem ok_start {base : Nat} (hbase : 0 < base) (ptr size : Nat → Nat) :
    (start base ptr size).Ok := by
  refine ⟨hbase, fun _ => rfl, {base}, ?_⟩
  have hinit : (start base ptr size).heap.init
      = ⟨base, update ptr base base, update size base 0, base, []⟩ := rfl
  have hsize : update size base 0 base = 0 := update_self ..
  rw [hinit]
  refine ⟨⟨⟨mem_singleton_self _, hsize, fun a ha => ?_, fun a ha hne => ?_,
    fun a c ha hc hlt => ?_, fun a ha => absurd ha (notMem_empty a)⟩, fun a ha hne => ?_,
    mem_singleton_self _⟩, fun x hx => ?_, fun x hx => ?_, ?_⟩
  · obtain rfl := mem_singleton.mp ha
    exact .inr ⟨update_self .., fun c hc => (mem_singleton.mp hc).le⟩
  · rcases ha with ha | ha
    · exact absurd (mem_singleton.mp ha) hne
    · exact absurd ha (notMem_empty a)
  · rcases ha with ha | ha
    · rcases hc with hc | hc
      · rw [mem_singleton.mp ha, mem_singleton.mp hc] at hlt
        exact absurd hlt (Nat.lt_irrefl _)
      · exact absurd hc (notMem_empty c)
    · exact absurd ha (notMem_empty a)
  · exact absurd (mem_singleton.mp ha) hne
  · obtain ⟨a, ha, hlo, hhi⟩ := hx
    obtain rfl := mem_singleton.mp ha
    have hhi' : x < a + HEADER * update size a 0 a := hhi
    rw [update_self] at hhi'
    omega
  · obtain ⟨a, ha, -⟩ := hx
    exact absurd ha (notMem_empty a)
  · show ∑ a ∈ {base}, update size base 0 a + ∑ a ∈ (∅ : Finset Nat), _ = 0
    rw [sum_singleton, hsize, sum_empty, Nat.add_zero]

/-! ## The calls -/

theorem card_le_fuel (hs : Sound u.heap.init F V) : 2 * F.card + 1 ≤ u.fuel := by
  have hcard := hs.card_le
  rw [obtained, init_mem] at hcard
  unfold fuel obtained
  omega

/-- The loop of `malloc`, on the list as the first call leaves it. -/
theorem Ok.serves (hok : u.Ok) (nbytes : Nat) {brk : Option (Nat × Nat)}
    (hbrk : ∀ r ∈ brk, u.heap.Fresh r.1 ∧ r.1 + HEADER ≤ r.2) :
    ∃ F h' q, Sound u.heap.init F u.live ∧
      Served u.heap.init F u.live (nunits nbytes) brk h' q ∧
      u.malloc nbytes brk = some (⟨h', if q = 0 then u.live else insert q u.live⟩,
        if q = 0 then 0 else q + HEADER) := by
  obtain ⟨hbase, -, F, hs⟩ := hok
  have hfresh : ∀ r ∈ brk, u.heap.init.Fresh r.1 ∧ r.1 + HEADER ≤ r.2 := by
    intro r hr
    unfold Heap.Fresh
    rw [init_base, init_mem]
    exact hbrk r hr
  have hpos : 0 < nunits nbytes := Nat.succ_pos _
  obtain ⟨h', q, hrun, hserved⟩ := hs.mallocLoop hpos hfresh (card_le_fuel hs)
  refine ⟨F, h', q, hs, hserved, ?_⟩
  rw [Program.malloc, Heap.malloc, hrun]
  by_cases hq : q = 0
  · subst hq
    rfl
  · have hne : q + HEADER ≠ 0 := by
      simp only [HEADER]
      omega
    show some (Program.mk h' (if (if q = 0 then 0 else q + HEADER) = 0 then u.live
      else insert ((if q = 0 then 0 else q + HEADER) - HEADER) u.live), _) = _
    rw [if_neg hq, if_neg hne, if_neg hq, Nat.add_sub_cancel]

/-- **`malloc` returns** and leaves the heap in order; it fails only if `sbrk` does. -/
theorem Ok.malloc (hok : u.Ok) {nbytes : Nat} {brk : Option (Nat × Nat)}
    (hreq : u.Request nbytes brk) :
    ∃ u' p, u.malloc nbytes brk = some (u', p) ∧ u'.Ok ∧ ((p = 0 → brk = none ∧ u'.live = u.live) ∧
      (p ≠ 0 → Allocated u nbytes u' p)) ∧ (u'.heap.mem = u.heap.mem ∨
        ∃ r ∈ brk, u'.heap.mem = (r.1, coreUnits (nunits nbytes)) :: u.heap.mem) := by
  obtain ⟨hbytes, hbrk⟩ := hreq
  have hunits : nunits nbytes = (nbytes + HEADER - 1) / HEADER + 1 := by
    unfold nunits
    simp only [HEADER] at hbytes ⊢
    omega
  have hcore : 0 < coreUnits (nunits nbytes) :=
    lt_of_lt_of_le (Nat.succ_pos _) (le_coreUnits (nunits nbytes))
  obtain ⟨F, h', q, -, hserved, hmalloc⟩ := hok.serves nbytes fun r hr => by
    obtain ⟨hfresh, hroom⟩ := hbrk r hr
    exact ⟨hfresh, by unfold HEADER at hroom ⊢; omega⟩
  have hmem := hserved.mem.imp_left And.left
  rw [init_mem] at hmem
  have hbase' : 0 < h'.base := by
    rw [hserved.base, init_base]
    exact hok.base
  obtain ⟨F', hs'⟩ := hserved.found
  by_cases hq : q = 0
  · simp only [hq, if_true] at hmalloc hs'
    exact ⟨_, 0, hmalloc, ok_of_sound hs' hbase', ⟨fun _ => ⟨(hserved.fails hq).1, rfl⟩,
      fun h0 => absurd rfl h0⟩, hmem⟩
  · have hne : q + HEADER ≠ 0 := by
      simp only [HEADER]
      omega
    rw [if_neg hq] at hs'
    rw [if_neg hq, if_neg hq] at hmalloc
    obtain ⟨hnew, hsize⟩ := hserved.block hq
    refine ⟨_, q + HEADER, hmalloc, ok_of_sound hs' hbase', ⟨fun h0 => absurd h0 hne, fun _ =>
      ⟨Nat.le_add_left .., ?_, ?_, ?_, ?_⟩⟩, hmem⟩
    · rw [Nat.add_sub_cancel]
      exact hnew
    · rw [Nat.add_sub_cancel]
    · rw [Nat.add_sub_cancel]
      show q + HEADER + nbytes ≤ q + HEADER * h'.size q
      rw [hsize, hunits]
      simp only [HEADER]
      omega
    · rw [Nat.add_sub_cancel]
      intro x hlo hhi
      exact hs'.used_mem x ⟨q, mem_insert_self .., hlo, hhi⟩

/-- **`free` returns** and leaves the heap in order. -/
theorem Ok.free (hok : u.Ok) {ap : Nat} (hap : u.Has ap) : ∃ u', u.free ap = some u' ∧ u'.Ok := by
  obtain ⟨hbase, hempty, F, hs⟩ := hok
  -- a program that has a block has called `malloc`
  have hlinked : u.heap.init = u.heap := by
    refine init_of_linked fun h0 => ?_
    have hmem := hap.2
    rw [hempty h0] at hmem
    exact notMem_empty _ hmem
  rw [hlinked] at hs
  have hfuel : F.card ≤ u.fuel := by
    have := hs.card_le
    unfold fuel
    omega
  obtain ⟨h', F', hrun, hs', -, hbase'⟩ := hs.free hap.2 hfuel
  have hpos : 0 < h'.base := by
    rw [hbase']
    exact hbase
  refine ⟨⟨h', u.live.erase (ap - HEADER)⟩, ?_, ok_of_sound hs' hpos⟩
  rw [Program.free, Heap.free, hrun]
  rfl

theorem Ok.step {c : HeapCall} (hok : u.Ok) (hs : u.step c = some u') : u'.Ok := by
  cases c with
  | malloc nbytes brk =>
    by_cases hreq : u.Request nbytes brk
    · obtain ⟨u1, p, hrun, hok1, -⟩ := hok.malloc hreq
      rw [Program.step, if_pos hreq, hrun] at hs
      obtain rfl : u1 = u' := some.inj hs
      exact hok1
    · rw [Program.step, if_neg hreq] at hs
      cases hs
  | free ap =>
    by_cases hap : u.Has ap
    · obtain ⟨u1, hrun, hok1⟩ := hok.free hap
      rw [Program.step, if_pos hap, hrun] at hs
      obtain rfl : u1 = u' := some.inj hs
      exact hok1
    · rw [Program.step, if_neg hap] at hs
      cases hs

/-- **The integrity of the heap.**  After any history the heap is in order.
    The next call returns and leaves it in order, and a block that `malloc`
    returns is new, large enough and in the memory of the program. -/
theorem heap_integrity {base : Nat} {ptr size : Nat → Nat} (hbase : 0 < base)
    {calls : List HeapCall} (hrun : run step (start base ptr size) calls = some u) :
    u.Ok ∧
      (∀ nbytes brk, u.Request nbytes brk → ∃ u' p, u.malloc nbytes brk = some (u', p) ∧ u'.Ok ∧
        (p = 0 → brk = none ∧ u'.live = u.live) ∧ (p ≠ 0 → Allocated u nbytes u' p)) ∧
      ∀ ap, u.Has ap → ∃ u', u.free ap = some u' ∧ u'.Ok := by
  have hok : u.Ok := (Reachable.of_run hrun).invariant (ok_start hbase ptr size)
    fun u c u' hok hs => hok.step hs
  refine ⟨hok, fun nbytes brk hreq => ?_, fun ap hap => hok.free hap⟩
  obtain ⟨u', p, hmalloc, hok', hp, -⟩ := hok.malloc hreq
  exact ⟨u', p, hmalloc, hok', hp⟩

/-- Two blocks are allocated, and the first is freed. -/
theorem two_blocks : ∃ u, run step (start 4096 (fun _ => 0) fun _ => 0)
    [.malloc 10 (some (8192, 40960)), .malloc 100 none, .free 40944] = some u ∧ u.Ok := by
  have hrun : (run step (start 4096 (fun _ => 0) fun _ => 0)
      [.malloc 10 (some (8192, 40960)), .malloc 100 none, .free 40944]).isSome = true := by
    decide +kernel
  obtain ⟨u, hu⟩ := isSome_iff_exists.mp hrun
  exact ⟨u, hu, (heap_integrity (by decide) hu).1⟩

end Program

/-! ## What `morecore` asks of `sbrk`: from 2^31 bytes on it shrinks the heap -/

def asInt (x : ℕ) : ℤ := if x < 2 ^ 31 then x else x - 2 ^ 32

/-- `sbrk(n)` of a process of `sz` bytes: whether it returns the old size, and the size
    afterwards.  Growing may fail for want of memory. -/
def sbrk (memory : Bool) (sz : ℕ) (n : ℤ) : Bool × ℕ :=
  let newsz := ((sz + n) % 2 ^ 32).toNat
  if 0 < n then
    if memory = false ∨ KERNBASE ≤ newsz then (false, sz) else (true, max sz newsz)
  else if n < 0 then
    -- deallocuvm returns the smaller size, where 0 means failure: all the pages are gone
    (decide (min sz newsz ≠ 0), min sz newsz)
  else (true, sz)

namespace Program

def asked (nbytes : ℕ) : ℤ := asInt (HEADER * coreUnits (nunits nbytes) % 2 ^ 32)

/-- What `morecore` sees of `sbrk`: its result, and the end of the last page.  Without any page
    left the program does not see the failure; it faults. -/
def brk (memory : Bool) (sz nbytes : ℕ) : Option (ℕ × ℕ) :=
  let r := sbrk memory sz (asked nbytes)
  if r.1 ∨ r.2 = 0 then some (sz, pgroundup r.2) else none

/-- A request whose size, rounded up and with a header, is below 2^31 bytes. -/
def Small (nbytes : ℕ) : Prop := HEADER * ((nbytes + HEADER - 1) / HEADER + 1) < 2 ^ 31

/-- A request that wraps around to no bytes at all, and is refused: no block is free, and
    `sbrk` cannot add the 32768 bytes that are then asked for. -/
def Refused (u : Program) (memory : Bool) (sz nbytes : ℕ) : Prop :=
  2 ^ 32 - HEADER < nbytes ∧ u.heap.init.ptr u.heap.base = u.heap.base ∧
    (memory = false ∨ KERNBASE ≤ sz + 32768)

/-- `malloc` returns 0 or a new block that is large enough, and records only a region that `sbrk`
    has added. -/
def Enough (u : Program) (memory : Bool) (sz nbytes : ℕ) : Prop :=
  ∃ u' p, u.malloc nbytes (brk memory sz nbytes) = some (u', p) ∧
    (p ≠ 0 → Allocated u nbytes u' p) ∧
    (u'.heap.mem = u.heap.mem ∨ ∃ n, u'.heap.mem = (sz, n) :: u.heap.mem ∧
      (sbrk memory sz (asked nbytes)).1 = true ∧
      sz + HEADER * n ≤ (sbrk memory sz (asked nbytes)).2)

variable {u : Program} {F : Finset ℕ} {nbytes sz : ℕ} {memory : Bool}

/-- The units of a large request, none of which has wrapped around. -/
theorem nunits_large (hlarge : ¬Small nbytes) (hwrap : nbytes ≤ 2 ^ 32 - HEADER) :
    nunits nbytes = (nbytes + HEADER - 1) / HEADER + 1 ∧ 2 ^ 31 ≤ HEADER * nunits nbytes ∧
      HEADER * nunits nbytes ≤ 2 ^ 32 := by
  have hunits : nunits nbytes = (nbytes + HEADER - 1) / HEADER + 1 := by
    unfold nunits
    simp only [HEADER] at hwrap ⊢
    omega
  refine ⟨hunits, ?_⟩
  unfold Small at hlarge
  rw [hunits]
  simp only [HEADER] at hlarge hwrap ⊢
  omega

/-- **A large request never adds memory**: `sbrk` does not see a failure, and shrinks. -/
theorem sbrk_large (memory : Bool) (sz : ℕ) (hlarge : ¬Small nbytes)
    (hwrap : nbytes ≤ 2 ^ 32 - HEADER) :
    (sbrk memory sz (asked nbytes)).2 ≤ sz ∧
      brk memory sz nbytes = some (sz, pgroundup (sbrk memory sz (asked nbytes)).2) := by
  obtain ⟨-, hlo, hhi⟩ := nunits_large hlarge hwrap
  have hcore : coreUnits (nunits nbytes) = nunits nbytes := by
    unfold coreUnits
    rw [if_neg (by unfold HEADER at hlo; omega)]
  have hnpos : ¬0 < asked nbytes := by
    unfold asked asInt
    rw [hcore]
    split <;> omega
  have hr : ∀ r, sbrk memory sz (asked nbytes) = r → r.2 ≤ sz ∧ (r.1 = true ∨ r.2 = 0) := by
    rintro _ rfl
    simp only [sbrk, if_neg hnpos]
    split
    · refine ⟨min_le_left _ _, ?_⟩
      by_cases h0 : min sz ((sz + asked nbytes) % 2 ^ 32).toNat = 0
      · exact .inr h0
      · exact .inl (decide_eq_true h0)
    · exact ⟨le_rfl, .inl rfl⟩
  exact ⟨(hr _ rfl).1, if_pos (hr _ rfl).2⟩

/-- What is asked for when it is below 2^31 bytes. -/
theorem sbrk_small (memory : Bool) (hpos : 0 < sz) (hsz : sz < KERNBASE)
    (hle : HEADER * coreUnits (nunits nbytes) < 2 ^ 31) :
    (brk memory sz nbytes = none ∧
      (memory = false ∨ KERNBASE ≤ sz + HEADER * coreUnits (nunits nbytes))) ∨
    (brk memory sz nbytes = some (sz, pgroundup (sz + HEADER * coreUnits (nunits nbytes))) ∧
      sbrk memory sz (asked nbytes) = (true, sz + HEADER * coreUnits (nunits nbytes)) ∧
      memory = true ∧ sz + HEADER * coreUnits (nunits nbytes) < KERNBASE) := by
  have hask : asked nbytes = (HEADER * coreUnits (nunits nbytes) : ℕ) := by
    unfold asked asInt
    rw [Nat.mod_eq_of_lt (by omega), if_pos hle]
  have hn : 0 < HEADER * coreUnits (nunits nbytes) :=
    Nat.mul_pos (by decide) (lt_of_lt_of_le (Nat.succ_pos _) (le_coreUnits _))
  unfold brk
  rw [hask]
  generalize HEADER * coreUnits (nunits nbytes) = n at hle hn ⊢
  have hnew : ((sz + (n : ℤ)) % 2 ^ 32).toNat = sz + n := by
    unfold KERNBASE at hsz
    omega
  have hsbrk : sbrk memory sz (n : ℤ)
      = if memory = false ∨ KERNBASE ≤ sz + n then (false, sz) else (true, sz + n) := by
    simp only [sbrk, hnew]
    rw [if_pos (Int.natCast_pos.mpr hn), max_eq_right (Nat.le_add_right sz n)]
  rw [hsbrk]
  by_cases hfull : memory = false ∨ KERNBASE ≤ sz + n
  · rw [if_pos hfull]
    refine .inl ⟨if_neg ?_, hfull⟩
    rintro (h | h)
    · cases h
    · exact absurd h (Nat.ne_of_gt hpos)
  · rw [if_neg hfull]
    rw [not_or, Bool.not_eq_false, Nat.not_le] at hfull
    exact .inr ⟨if_pos (.inl rfl), rfl, hfull⟩

theorem le_pgroundup {n : ℕ} (h : n < KERNBASE) : n ≤ pgroundup n := by
  unfold pgroundup PGSIZE
  unfold KERNBASE at h
  omega

/-- Small requests are served as they should be. -/
theorem Ok.enough (hok : u.Ok) (hfresh : u.heap.Fresh sz) (hsz : sz < KERNBASE)
    (hsmall : Small nbytes) : u.Enough memory sz nbytes := by
  have hpos : 0 < sz := lt_of_lt_of_le hok.base (le_trans (Nat.le_add_right _ _) hfresh.1)
  have hle : HEADER * coreUnits (nunits nbytes) < 2 ^ 31 := by
    unfold Small HEADER at hsmall
    unfold coreUnits nunits HEADER
    split
    · decide
    · omega
  have hbrk := sbrk_small memory hpos hsz hle
  have hreq : u.Request nbytes (brk memory sz nbytes) := by
    refine ⟨hsmall, fun r hr => ?_⟩
    rcases hbrk with ⟨hnone, -⟩ | ⟨hsome, -, -, hlt⟩
    · rw [hnone] at hr
      cases hr
    · rw [hsome] at hr
      obtain rfl := some.inj hr
      exact ⟨hfresh, le_pgroundup hlt⟩
  obtain ⟨u', p, hmalloc, -, hp, hmem⟩ := hok.malloc hreq
  refine ⟨u', p, hmalloc, hp.2, hmem.imp_right ?_⟩
  rintro ⟨r, hr, hnew⟩
  rcases hbrk with ⟨hnone, -⟩ | ⟨hsome, hsbrk, -⟩
  · rw [hnone] at hr
    cases hr
  · rw [hsome] at hr
    obtain rfl := some.inj hr
    rw [hsbrk]
    exact ⟨_, hnew, rfl, le_rfl⟩

/-- A free block is too small for a large request: it lies below `sz`. -/
theorem size_lt_large (hs : Sound u.heap.init F u.live)
    (hfresh : u.heap.Fresh sz)
    (hsz : sz < KERNBASE) (hlarge : 2 ^ 31 ≤ HEADER * nunits nbytes) {c : ℕ} (hc : c ∈ F) :
    u.heap.init.size c < nunits nbytes := by
  have hfresh' : u.heap.init.Fresh sz := by
    unfold Heap.Fresh
    rw [init_base, init_mem]
    exact hfresh
  have hend := hs.end_le (.inl hc) hfresh'
  unfold KERNBASE at hsz
  simp only [HEADER] at hend hlarge
  omega

/-- A large request that does not wrap around faults, or records what was not added. -/
theorem Ok.not_enough_large (hok : u.Ok) (hfresh : u.heap.Fresh sz)
    (hsz : sz < KERNBASE) (hlarge : ¬Small nbytes) (hwrap : nbytes ≤ 2 ^ 32 - HEADER) :
    ¬u.Enough memory sz nbytes := by
  rintro ⟨u', p, hmalloc, -, hmem⟩
  obtain ⟨-, hlo, -⟩ := nunits_large hlarge hwrap
  obtain ⟨hsbrk, hbrk⟩ := sbrk_large memory sz hlarge hwrap
  rw [hbrk] at hmalloc
  by_cases htop : pgroundup (sbrk memory sz (asked nbytes)).2 < sz + HEADER
  · -- the header of the new block lies beyond the end
    obtain ⟨hbase, -, F, hs⟩ := hok
    have hnone := hs.mallocLoop_faults (fun c hc => size_lt_large hs hfresh hsz hlo hc) htop
      (by have := card_le_fuel hs; omega : F.card ≤ u.fuel)
    rw [Program.malloc, Heap.malloc, hnone] at hmalloc
    cases hmalloc
  · obtain ⟨F, h', q, hs, hserved, hrun⟩ := hok.serves nbytes
      (show ∀ r ∈ some (sz, pgroundup (sbrk memory sz (asked nbytes)).2), _ by
        intro r hr
        obtain rfl := some.inj hr
        exact ⟨hfresh, Nat.not_lt.mp htop⟩)
    obtain ⟨rfl, -⟩ := Prod.mk.inj (some.inj (hrun.symm.trans hmalloc))
    rcases hserved.mem with ⟨-, hq | ⟨c, hc, hle⟩⟩ | ⟨r, hr, hnew⟩
    · cases (hserved.fails hq).1
    · exact absurd hle (Nat.not_le.mpr (size_lt_large hs hfresh hsz hlo hc))
    · rw [init_mem] at hnew
      rcases hmem with hsame | ⟨n, hn, -, hadded⟩
      · exact List.cons_ne_self _ _ (hnew.symm.trans hsame)
      · obtain rfl : coreUnits (nunits nbytes) = n :=
          (Prod.mk.inj (List.cons.inj (hnew.symm.trans hn)).1).2
        have := le_coreUnits (nunits nbytes)
        simp only [HEADER] at hadded hlo
        omega

/-- A request that wraps around is refused, or gets a block without room. -/
theorem Ok.enough_wrapped_iff (hok : u.Ok) (hfresh : u.heap.Fresh sz)
    (hsz : sz < KERNBASE) (hlt : nbytes < 2 ^ 32) (hwrap : 2 ^ 32 - HEADER < nbytes) :
    u.Enough memory sz nbytes ↔ u.heap.init.ptr u.heap.base = u.heap.base ∧
      (memory = false ∨ KERNBASE ≤ sz + 32768) := by
  have hpos : 0 < sz := lt_of_lt_of_le hok.base (le_trans (Nat.le_add_right _ _) hfresh.1)
  have hunits : nunits nbytes = 1 := by
    unfold nunits
    simp only [HEADER] at hwrap ⊢
    omega
  have hcore : HEADER * coreUnits (nunits nbytes) = 32768 := by
    rw [hunits]
    rfl
  have hbrk := sbrk_small memory hpos hsz
    (show HEADER * coreUnits (nunits nbytes) < 2 ^ 31 by rw [hcore]; decide)
  rw [hcore] at hbrk
  obtain ⟨F, h', q, hs, hserved, hrun⟩ := hok.serves nbytes
    (show ∀ r ∈ brk memory sz nbytes, _ by
      intro r hr
      rcases hbrk with ⟨hnone, -⟩ | ⟨hsome, -, -, hend⟩
      · rw [hnone] at hr
        cases hr
      · rw [hsome] at hr
        obtain rfl := some.inj hr
        have := le_pgroundup hend
        exact ⟨hfresh, by simp only [HEADER]; omega⟩)
  -- the blocks of the list other than `base` have a unit at least
  have hfree : (∀ c ∈ F, u.heap.init.size c < nunits nbytes) ↔
      u.heap.init.ptr u.heap.base = u.heap.base := by
    rw [hunits, ← init_base]
    exact hs.only_base_iff
  have hroom : ∀ u' p, p ≠ 0 → u.malloc nbytes (brk memory sz nbytes) = some (u', p) →
      ¬Allocated u nbytes u' p := by
    intro u' p hp hmalloc halloc
    by_cases hq : q = 0
    · rw [hrun, if_pos hq, if_pos hq] at hmalloc
      exact hp (Prod.mk.inj (some.inj hmalloc)).2.symm
    · rw [hrun, if_neg hq, if_neg hq] at hmalloc
      obtain ⟨rfl, rfl⟩ := Prod.mk.inj (some.inj hmalloc)
      have hle := halloc.room
      rw [Nat.add_sub_cancel] at hle
      have hsize : h'.size q = 1 := (hserved.block hq).2.trans hunits
      rw [hsize] at hle
      simp only [HEADER] at hle hwrap
      omega
  constructor
  · rintro ⟨u', p, hmalloc, hp, -⟩
    have hp0 : p = 0 := by
      by_contra hne
      exact hroom u' p hne hmalloc (hp hne)
    have hq : q = 0 := by
      by_contra hne
      rw [hrun, if_neg hne, if_neg hne] at hmalloc
      have := (Prod.mk.inj (some.inj hmalloc)).2
      simp only [HEADER] at this
      omega
    obtain ⟨hnone, hsmall⟩ := hserved.fails hq
    refine ⟨hfree.mp hsmall, ?_⟩
    rcases hbrk with ⟨-, hfull⟩ | ⟨hsome, -⟩
    · exact hfull
    · rw [hsome] at hnone
      cases hnone
  · rintro ⟨hbase, hfull⟩
    have hnone : brk memory sz nbytes = none := by
      rcases hbrk with ⟨hnone, -⟩ | ⟨-, -, hmem, hend⟩
      · exact hnone
      · rcases hfull with hfalse | hle
        · rw [hmem] at hfalse
          cases hfalse
        · omega
    have hmem := hserved.mem
    rw [hnone] at hmem
    obtain ⟨hsame, hq | ⟨c, hc, hle⟩⟩ := hmem.resolve_right (by rintro ⟨r, hr, -⟩; cases hr)
    · refine ⟨_, _, hrun, fun h0 => absurd (if_pos hq) h0, .inl ?_⟩
      rw [← init_mem u.heap]
      exact hsame
    · exact absurd hle (Nat.not_le.mpr (hfree.mpr hbase c hc))

/-- **When `malloc` returns enough.**  After any history, in a process whose memory ends at `sz`,
    this is so exactly if the request is small, or wraps around and is refused. -/
theorem malloc_enough {base : ℕ} {ptr size : ℕ → ℕ} (hbase : 0 < base)
    {calls : List HeapCall} (hrun : run step (start base ptr size) calls = some u)
    (hfresh : u.heap.Fresh sz) (hsz : sz < KERNBASE) (hlt : nbytes < 2 ^ 32) :
    u.Enough memory sz nbytes ↔ Small nbytes ∨ u.Refused memory sz nbytes := by
  have hok : u.Ok := (Reachable.of_run hrun).invariant (ok_start hbase ptr size)
    fun u c u' hok hs => hok.step hs
  by_cases hsmall : Small nbytes
  · exact iff_of_true (hok.enough hfresh hsz hsmall) (.inl hsmall)
  by_cases hwrap : 2 ^ 32 - HEADER < nbytes
  · rw [hok.enough_wrapped_iff hfresh hsz hlt hwrap]
    exact ⟨fun h => .inr ⟨hwrap, h⟩, fun h => (h.resolve_left hsmall).2⟩
  · refine iff_of_false (hok.not_enough_large hfresh hsz hsmall (Nat.not_lt.mp hwrap)) ?_
    rintro (h | h)
    · exact hsmall h
    · exact hwrap h.1

def fresh : Program := start 4096 (fun _ => 0) fun _ => 0

theorem malloc_enough_first : fresh.Enough true 8192 10 :=
  (malloc_enough (by decide) (show run step fresh [] = some fresh from rfl) (by decide) (by decide)
    (by decide)).mpr (.inl (show HEADER * ((10 + HEADER - 1) / HEADER + 1) < 2 ^ 31 by decide))

/-- **Too little.**  For 2^32 - 1 bytes the block that is returned has none. -/
theorem malloc_too_little :
    ∃ u' p, fresh.malloc (2 ^ 32 - 1) (brk true 8192 (2 ^ 32 - 1)) = some (u', p) ∧ p ≠ 0 ∧
      HEADER * u'.heap.size (p - HEADER) = HEADER :=
  ⟨_, _, rfl, by decide, rfl⟩

end Program

end Xv6
