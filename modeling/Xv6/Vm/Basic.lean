/-
  Xv6.Vm.Basic

  Page allocation and page tables (kalloc.c, vm.c).

  Physical pages are numbers.  A page directory is a value: the page it lies
  in, the page of each page table, and the entries by virtual page number.
  Functions that change a page table in place return it, also when they fail.
  A panic of the kernel is an error.

  `dropped` records the pages that `setupkvm` and `copyuvm` forget when they
  give up; the code does not have it.
-/

import Xv6.Lib.Wp

namespace Xv6

open Function

/-! ## Memory layout (mmu.h, memlayout.h) -/

abbrev PGSIZE : ℕ := 4096
abbrev NPDENTRIES : ℕ := 1024
abbrev NPTENTRIES : ℕ := 1024
abbrev KERNBASE : ℕ := 0x80000000
abbrev EXTMEM : ℕ := 0x100000
abbrev KERNLINK : ℕ := KERNBASE + EXTMEM
abbrev PHYSTOP : ℕ := 0xE000000
abbrev DEVSPACE : ℕ := 0xFE000000

def pgroundup (a : ℕ) : ℕ := (a + PGSIZE - 1) % 2 ^ 32 / PGSIZE * PGSIZE

/-- Where the linker puts the kernel: `data` and `end`. -/
structure Layout where
  data : ℕ
  kend : ℕ
  aligned : data % PGSIZE = 0
  lo : KERNLINK < data
  order : data ≤ kend
  hi : kend < KERNBASE + PHYSTOP

def Layout.Ram (L : Layout) (p : ℕ) : Prop := L.kend ≤ p * PGSIZE + KERNBASE ∧ p * PGSIZE < PHYSTOP

instance (L : Layout) (p : ℕ) : Decidable (L.Ram p) :=
  inferInstanceAs (Decidable (_ ∧ _))

/-! ## Page tables -/

/-- A page table entry: `PTE_ADDR` as a page number, `PTE_P`, `PTE_W`, `PTE_U`. -/
structure Pte where
  addr : ℕ
  p : Bool
  w : Bool
  u : Bool
deriving DecidableEq

def Pte.zero : Pte := ⟨0, false, false, false⟩

structure Pgdir where
  page : ℕ
  tab : ℕ → Option ℕ
  pte : ℕ → Pte

namespace Pgdir

/-- A directory whose page was just cleared. -/
def new (page : ℕ) : Pgdir := ⟨page, fun _ => none, fun _ => Pte.zero⟩

def addTable (d : Pgdir) (i p : ℕ) : Pgdir :=
  { d with
    tab := update d.tab i (some p)
    pte := fun v => if v / NPTENTRIES = i then Pte.zero else d.pte v }

def setPte (d : Pgdir) (v : ℕ) (e : Pte) : Pgdir := { d with pte := update d.pte v e }

@[irreducible] def tables (d : Pgdir) : List ℕ := (List.range NPDENTRIES).filterMap d.tab

/-- The pages of the directory and of its page tables. -/
def ownPages (d : Pgdir) : List ℕ := d.page :: d.tables

end Pgdir

/-! ## The allocator -/

structure Kmem where
  free : List ℕ
  data : ℕ → ℕ → UInt8
  dropped : List ℕ

namespace Vm

abbrev M := EStateM String Kmem

open Wp

def kalloc : M (Option ℕ) := fun s =>
  match s.free with
  | [] => .ok none s
  | p :: rest => .ok (some p) { s with free := rest }

def memset (p : ℕ) (c : UInt8) : M Unit :=
  change fun s => { s with data := update s.data p fun _ => c }

/-- The code forgets these pages. -/
def drop (l : List ℕ) : M Unit := change fun s => { s with dropped := l ++ s.dropped }

variable (L : Layout)

def kfree (p : ℕ) : M Unit :=
  if L.Ram p then do
    memset p 1
    change fun s => { s with free := p :: s.free }
  else fail "kfree"

def walkpgdir (d : Pgdir) (v : ℕ) (alloc : Bool) : M (Option Pgdir) :=
  if (d.tab (v / NPTENTRIES)).isSome then pure (some d)
  else if alloc then do
    match ← kalloc with
    | none => pure none
    | some p => pure (some (d.addTable (v / NPTENTRIES) p))
  else pure none

def mapLoop (w u : Bool) : ℕ → ℕ → ℕ → Pgdir → M (Pgdir × Bool)
  | 0, _, _, d => pure (d, true)
  | k + 1, v, pa, d => do
      match ← walkpgdir d v true with
      | none => pure (d, false)
      | some d' =>
        if (d'.pte v).p then fail "remap"
        else mapLoop w u k (v + 1) (pa + 1) (d'.setPte v ⟨pa, true, w, u⟩)

def mappages (d : Pgdir) (va size pa : ℕ) (w u : Bool) : M (Pgdir × Bool) :=
  let a := va / PGSIZE
  let last := (va + size - 1) % 2 ^ 32 / PGSIZE
  mapLoop w u (last + 1 - a) a (pa / PGSIZE) d

structure Kmap where
  virt : ℕ
  physStart : ℕ
  physEnd : ℕ
  w : Bool

def kmap : List Kmap :=
  [⟨KERNBASE, 0, EXTMEM, true⟩, ⟨KERNLINK, KERNLINK - KERNBASE, L.data - KERNBASE, false⟩,
   ⟨L.data, L.data - KERNBASE, PHYSTOP, true⟩,
   ⟨DEVSPACE, DEVSPACE, 0, true⟩]

def mapKernel : List Kmap → Pgdir → M (Option Pgdir)
  | [], d => pure (some d)
  | k :: ks, d => do
      let (d', ok) ← mappages d k.virt ((k.physEnd + 2 ^ 32 - k.physStart) % 2 ^ 32) k.physStart
        k.w false
      if ok then mapKernel ks d'
      else do
        drop d'.ownPages
        pure none

def setupkvm : M (Option Pgdir) := do
  match ← kalloc with
  | none => pure none
  | some p => mapKernel (kmap L) (Pgdir.new p)

def deallocLoop (oldsz : ℕ) : ℕ → ℕ → Pgdir → M Pgdir
  | 0, _, _ => fail "deallocuvm: out of fuel"
  | fuel + 1, v, d =>
    if v * PGSIZE < oldsz then
      if (d.tab (v / NPTENTRIES)).isNone then deallocLoop oldsz fuel (v + NPTENTRIES) d
      else if (d.pte v).p then
        if (d.pte v).addr = 0 then fail "kfree"
        else do
          kfree L (d.pte v).addr
          deallocLoop oldsz fuel (v + 1) (d.setPte v Pte.zero)
      else deallocLoop oldsz fuel (v + 1) d
    else pure d

def deallocuvm (d : Pgdir) (oldsz newsz : ℕ) : M (Pgdir × ℕ) :=
  if oldsz ≤ newsz then pure (d, oldsz)
  else do
    let d' ← deallocLoop L oldsz (oldsz / PGSIZE + 2) (pgroundup newsz / PGSIZE) d
    pure (d', newsz)

def allocLoop (oldsz newsz : ℕ) : ℕ → ℕ → Pgdir → M (Pgdir × ℕ)
  | 0, _, d => pure (d, newsz)
  | k + 1, v, d => do
      match ← kalloc with
      | none => do
          let (d', _) ← deallocuvm L d newsz oldsz
          pure (d', 0)
      | some mem => do
          memset mem 0
          let (d', ok) ← mappages d (v * PGSIZE) PGSIZE (mem * PGSIZE) true true
          if ok then allocLoop oldsz newsz k (v + 1) d'
          else do
            let (d'', _) ← deallocuvm L d' newsz oldsz
            kfree L mem
            pure (d'', 0)

def allocuvm (d : Pgdir) (oldsz newsz : ℕ) : M (Pgdir × ℕ) :=
  if KERNBASE ≤ newsz then pure (d, 0)
  else if newsz < oldsz then pure (d, oldsz)
  else
    let v := pgroundup oldsz / PGSIZE
    allocLoop L oldsz newsz ((newsz + PGSIZE - 1) / PGSIZE - v) v d

def freevm (d : Pgdir) : M Unit := do
  let (d', _) ← deallocuvm L d KERNBASE 0
  d'.tables.forM (kfree L)
  kfree L d'.page

def clearpteu (d : Pgdir) (v : ℕ) : M Pgdir := do
  match ← walkpgdir d v false with
  | none => fail "clearpteu"
  | some d' => pure (d'.setPte v { d'.pte v with u := false })

def copyLoop (d : Pgdir) : ℕ → ℕ → Pgdir → M (Option Pgdir)
  | 0, _, e => pure (some e)
  | k + 1, v, e => do
      match ← walkpgdir d v false with
      | none => fail "copyuvm: pte should exist"
      | some _ =>
        if (d.pte v).p = false then fail "copyuvm: page not present"
        else do
          match ← kalloc with
          | none => do
              freevm L e
              pure none
          | some mem => do
              change fun s => { s with data := update s.data mem (s.data (d.pte v).addr) }
              let (e', ok) ← mappages e (v * PGSIZE) PGSIZE (mem * PGSIZE) (d.pte v).w (d.pte v).u
              if ok then copyLoop d k (v + 1) e'
              else do
                -- `mem` is neither mapped nor freed
                drop [mem]
                freevm L e'
                pure none

def copyuvm (d : Pgdir) (sz : ℕ) : M (Option Pgdir) := do
  match ← setupkvm L with
  | none => pure none
  | some e => copyLoop L d ((sz + PGSIZE - 1) / PGSIZE) 0 e

def inituvm (d : Pgdir) (init : List UInt8) : M Pgdir :=
  if PGSIZE ≤ init.length then fail "inituvm: more than a page"
  else do
    match ← kalloc with
    | none => fail "inituvm: no memory"
    | some mem => do
        memset mem 0
        let (d', _) ← mappages d 0 PGSIZE (mem * PGSIZE) true true
        change fun s => { s with
          data := update s.data mem fun i => (init[i]?).getD (s.data mem i) }
        pure d'

structure Space where
  pgdir : Pgdir
  sz : ℕ
  kstack : ℕ

def growproc (p : Space) (n : ℤ) : M (Space × ℤ) :=
  let newsz := ((p.sz + n) % 2 ^ 32).toNat
  if 0 < n then do
    let (d, sz) ← allocuvm L p.pgdir p.sz newsz
    if sz = 0 then pure ({ p with pgdir := d }, -1) else pure ({ p with pgdir := d, sz := sz }, 0)
  else if n < 0 then do
    let (d, sz) ← deallocuvm L p.pgdir p.sz newsz
    if sz = 0 then pure ({ p with pgdir := d }, -1) else pure ({ p with pgdir := d, sz := sz }, 0)
  else pure (p, 0)

end Vm

end Xv6
