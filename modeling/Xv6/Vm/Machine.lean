/-
  Xv6.Vm.Machine

  Processes and the pages they own (kalloc.c, vm.c, proc.c, exec.c, pipe.c).

  A step is one call, or user code that changes its own memory.  `places` lists
  where the pages are: on the free list, in a process or as a pipe.

  `exec` can end in `uva2ka` without a page table and with an entry, read from
  the caller's address 0, that sends the string anywhere.  Here that write is
  followed where it hits a page table of a process and the rest of the copy
  fails; in other cases there is no step.
-/

import Xv6.Lib.Transition
import Xv6.Vm.Calls

namespace Xv6

open Function Wp

structure MemProc where
  mem : Vm.Space
  zombie : Bool

/-- The page of a `struct pipe` and its open ends. -/
structure PipePage where
  page : ℕ
  readopen : Bool
  writeopen : Bool

/-- The processes, the pipes and the page allocator. -/
structure MemSys (ι : Type) where
  procs : ι → Option MemProc
  pipes : List PipePage
  kmem : Kmem

inductive MemAct (ι : Type)
  | fork (i j : ι)
  | exec (i : ι) (f : ExecFile) (uargv : List ℕ)
  | sbrk (i : ι) (n : ℤ)
  | exit (i : ι)
  | wait (j : ι)
  | pipe (i : ι)
  | close (k : ℕ) (writable : Bool)
  | user (i : ι) (mem : ℕ → UInt8)

namespace Vm

/-! ## The memory of a process as the kernel reads it -/

def userByte (p : Space) (s : Kmem) (a : ℕ) : UInt8 :=
  s.data (p.pgdir.pte (a / PGSIZE)).addr (a % PGSIZE)

/-- `fetchstr`: the string at `a`, if it ends below `sz`. -/
def fetchstr (p : Space) (s : Kmem) (a : ℕ) : Option Arg :=
  ((List.range (p.sz - a)).find? fun k => userByte p s (a + k) == 0).map fun len =>
    ⟨len, fun i => userByte p s (a + i)⟩

/-- The arguments as `sys_exec` gathers them. -/
def fetchArgs (p : Space) (s : Kmem) (uargv : List ℕ) : Option (List Arg) :=
  if uargv.length < MAXARG then uargv.mapM (fetchstr p s) else none

/-- Four bytes as a page table entry. -/
def pteOfBytes (b : ℕ → UInt8) : Pte :=
  let word := (b 0).toNat + 2 ^ 8 * (b 1).toNat + 2 ^ 16 * (b 2).toNat + 2 ^ 24 * (b 3).toNat
  ⟨word / PGSIZE, word % 2 = 1, word / 2 % 2 = 1, word / 4 % 2 = 1⟩

/-- The process's pages with the bytes `mem`. -/
def storeUser (p : Space) (mem : ℕ → UInt8) (s : Kmem) : Kmem :=
  { s with
    data := fun q =>
      match (List.range (npages p.sz)).find? fun v =>
          (p.pgdir.pte v).p && (p.pgdir.pte v).w && (p.pgdir.pte v).u &&
            (p.pgdir.pte v).addr == q with
      | some v => fun i => mem (v * PGSIZE + i)
      | none => s.data q }

/-- A directory after bytes `b` were written to the page `q` from offset `o` on:
    if `q` is one of its page tables, entries have changed. -/
def overwrite (q o : ℕ) (b : ℕ → UInt8) (d : Pgdir) : Pgdir :=
  { d with
    pte := fun v =>
      if d.tab (v / NPTENTRIES) = some q ∧ o ≤ 4 * (v % NPTENTRIES) then
        pteOfBytes fun i => b (4 * (v % NPTENTRIES) - o + i)
      else d.pte v }

@[irreducible] def userinit (L : Layout) (init : List UInt8) : M Space := do
  match ← kalloc with
  | none => fail "userinit: no stack"
  | some k => do
      match ← setupkvm L with
      | none => fail "userinit: out of memory?"
      | some d => do
          let d' ← inituvm d init
          pure ⟨d', PGSIZE, k⟩

end Vm

namespace MemSys

open Vm

variable {ι : Type} (L : Layout)

/-- The memory of a process that can make calls. -/
def live (m : MemSys ι) (i : ι) : Option Space :=
  match m.procs i with
  | some ⟨p, false⟩ => some p
  | _ => none

def execRun (m : MemSys ι) (p : Space) (f : ExecFile) (args : List Arg) :
    EStateM.Result String Kmem ExecRun :=
  Vm.exec L (pteOfBytes (userByte p m.kmem)) f args m.kmem

variable [DecidableEq ι]

def setMem (m : MemSys ι) (i : ι) (p : Space) (s : Kmem) : MemSys ι :=
  { m with procs := update m.procs i (some ⟨p, false⟩), kmem := s }

variable [Fintype ι]

/-- The copy of the string `a` goes on from `sp` to the page `q`, a page table of
    some process, and fails at the next page. -/
def wildCopy (m : MemSys ι) (q : ℕ) (a : Arg) (d : Pgdir) (sp : ℕ) (s : Kmem) :
    Option (MemSys ι) :=
  if sp / PGSIZE + 1 = DEVSPACE / PGSIZE ∧
      ∃ j, (m.procs j).any (fun x => q ∈ x.mem.pgdir.tables) = true then
    match Vm.freevm L d s with
    | .ok _ s' => some { m with
        procs := fun j => (m.procs j).map fun x =>
          { x with mem := { x.mem with pgdir := overwrite q (sp % PGSIZE) a.byte x.mem.pgdir } }
        kmem := s' }
    | .error _ _ => none
  else none

/-- A step; there is none where the kernel panics. -/
def step (m : MemSys ι) : MemAct ι → Option (MemSys ι)
  | .fork i j =>
    match m.live i, m.procs j with
    | some p, none =>
      match Vm.fork L p m.kmem with
      | .ok (some p') s => some (m.setMem j p' s)
      | .ok none s => some { m with kmem := s }
      | .error _ _ => none
    | _, _ => none
  | .exec i f uargv =>
    match m.live i with
    | none => none
    | some p =>
      match fetchArgs p m.kmem uargv with
      | none => some m
      | some args =>
        match m.execRun L p f args with
        | .error _ _ => none
        | .ok r s =>
          -- address 0 of the caller has to be there
          if r.looked = true ∧ (p.pgdir.pte 0).p = false then none
          else
            match r.ends with
            | .fail => some { m with kmem := s }
            | .commit d sz _ =>
              match Vm.freevm L p.pgdir s with
              | .ok _ s' => some (m.setMem i ⟨d, sz, p.kstack⟩ s')
              | .error _ _ => none
            | .wild d _ sp =>
              match args with
              | [a] => m.wildCopy L (pteOfBytes (userByte p m.kmem)).addr a d sp s
              | _ => none
  | .sbrk i n =>
    match m.live i with
    | none => none
    | some p =>
      match growproc L p n m.kmem with
      | .ok (p', _) s => some (m.setMem i p' s)
      | .error _ _ => none
  | .exit i =>
    match m.live i with
    | none => none
    | some p => some { m with procs := update m.procs i (some ⟨p, true⟩) }
  | .wait j =>
    match m.procs j with
    | some ⟨p, true⟩ =>
      match (do
        kfree L p.kstack
        Vm.freevm L p.pgdir : Vm.M Unit) m.kmem with
      | .ok _ s => some { m with procs := update m.procs j none, kmem := s }
      | .error _ _ => none
    | _ => none
  | .pipe i =>
    match m.live i with
    | none => none
    | some _ =>
      match Vm.kalloc m.kmem with
      | .ok (some q) s => some { m with pipes := ⟨q, true, true⟩ :: m.pipes, kmem := s }
      | .ok none s => some { m with kmem := s }
      | .error _ _ => none
  | .close k writable =>
    match m.pipes[k]? with
    | none => none
    | some x =>
      if writable && x.writeopen || !writable && x.readopen then
        let y : PipePage := ⟨x.page, x.readopen && writable, x.writeopen && !writable⟩
        if y.readopen || y.writeopen then some { m with pipes := m.pipes.set k y }
        else
          match kfree L x.page m.kmem with
          | .ok _ s => some { m with pipes := m.pipes.eraseIdx k, kmem := s }
          | .error _ _ => none
      else none
  | .user i mem =>
    match m.live i with
    | none => none
    | some p => some { m with kmem := storeUser p mem m.kmem }

/-- `exec` is called with arguments of which one goes to where there is no page table. -/
def Wild (m : MemSys ι) : MemAct ι → Prop
  | .exec i f uargv => ∃ p args, m.live i = some p ∧ fetchArgs p m.kmem uargv = some args ∧
      GoesWild (pteOfBytes (userByte p m.kmem)) f args
  | _ => False

def slotPages (x : Option MemProc) : Multiset ℕ :=
  x.elim 0 fun p => p.mem.pgdir.pages + {p.mem.kstack}

/-- Every place a page can be in: the free list, directories, page tables, user
    pages and kernel stacks of the processes, and pipes. -/
def places (m : MemSys ι) : Multiset ℕ :=
  (m.kmem.free : Multiset ℕ) + ∑ i, slotPages (m.procs i) +
    ((m.pipes.map PipePage.page : List ℕ) : Multiset ℕ)

def boot (i : ι) (p : Space) (s : Kmem) : MemSys ι :=
  ⟨update (fun _ => none) i (some ⟨p, false⟩), [], s⟩

end MemSys

end Xv6
