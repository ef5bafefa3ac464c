/-
  Xv6.Vm.Exec

  Loading a program (exec.c, loaduvm and copyout of vm.c).

  `uva2ka` uses the result of `walkpgdir` without looking whether there is one:
  where the page table is missing it reads an entry at address 0 of the caller,
  which the program there has chosen.  If that entry lets the copy go on, `exec`
  stops here with the outcome `wild`.

  The lists `ws` and `wrote` record the virtual pages that `loaduvm` and
  `copyout` write to.
-/

import Xv6.Vm.Copy

namespace Xv6

abbrev MAXARG : ℕ := 32

abbrev ELF_MAGIC : ℕ := 0x464C457F

/-- A file, as `readi` sees it. -/
structure ExecFile where
  size : ℕ
  byte : ℕ → UInt8

namespace ExecFile

def readi (f : ExecFile) (off n : ℕ) : Option ℕ :=
  if f.size < off ∨ (off + n) % 2 ^ 32 < off then none
  else if f.size < off + n then some (f.size - off)
  else some n

def ushort (f : ExecFile) (off : ℕ) : ℕ := (f.byte off).toNat + 2 ^ 8 * (f.byte (off + 1)).toNat

def uint (f : ExecFile) (off : ℕ) : ℕ := f.ushort off + 2 ^ 16 * f.ushort (off + 2)

end ExecFile

/-- `struct proghdr`, the fields that `exec` uses. -/
structure Proghdr where
  type : ℕ
  off : ℕ
  vaddr : ℕ
  filesz : ℕ
  memsz : ℕ
deriving DecidableEq

def ExecFile.proghdr (f : ExecFile) (off : ℕ) : Proghdr :=
  ⟨f.uint off, f.uint (off + 4), f.uint (off + 8), f.uint (off + 16), f.uint (off + 20)⟩

structure Arg where
  len : ℕ
  byte : ℕ → UInt8

namespace Vm

open Wp

variable (L : Layout)

/-- `memmove` of `n` bytes to offset `o` of page `p`. -/
def store (p o n : ℕ) (src : ℕ → UInt8) : M Unit :=
  change fun s => { s with
    data := Function.update s.data p fun i => if o ≤ i ∧ i < o + n then src (i - o) else s.data p i }

def loadLoop (d : Pgdir) (f : ExecFile) (addr offset sz : ℕ) : ℕ → ℕ → List ℕ → M (Bool × List ℕ)
  | 0, _, ws => pure (true, ws)
  | k + 1, j, ws => do
      match ← walkpgdir d (addr / PGSIZE + j) false with
      | none => fail "loaduvm: address should exist"
      | some _ =>
        let n := if sz - j * PGSIZE < PGSIZE then sz - j * PGSIZE else PGSIZE
        let off := (offset + j * PGSIZE) % 2 ^ 32
        match f.readi off n with
        | none => pure (false, ws)
        | some c => do
            store (d.pte (addr / PGSIZE + j)).addr 0 c fun i => f.byte (off + i)
            if c = n then loadLoop d f addr offset sz k (j + 1) ((addr / PGSIZE + j) :: ws)
            else pure (false, (addr / PGSIZE + j) :: ws)

def loaduvm (d : Pgdir) (addr : ℕ) (f : ExecFile) (offset sz : ℕ) (ws : List ℕ) :
    M (Bool × List ℕ) :=
  if addr % PGSIZE ≠ 0 then fail "loaduvm: addr must be page aligned"
  else loadLoop d f addr offset sz ((sz + PGSIZE - 1) / PGSIZE) 0 ws

def loadSegments (f : ExecFile) : ℕ → ℕ → Pgdir → ℕ → List ℕ → M (Pgdir × Option ℕ × List ℕ)
  | 0, _, d, sz, ws => pure (d, some sz, ws)
  | k + 1, off, d, sz, ws =>
    let ph := f.proghdr off
    if f.readi off 32 ≠ some 32 then pure (d, none, ws)
    else if ph.type ≠ 1 then loadSegments f k ((off + 32) % 2 ^ 32) d sz ws
    else if ph.memsz < ph.filesz then pure (d, none, ws)
    else if (ph.vaddr + ph.memsz) % 2 ^ 32 < ph.vaddr then pure (d, none, ws)
    else do
      let (d', sz') ← allocuvm L d sz ((ph.vaddr + ph.memsz) % 2 ^ 32)
      if sz' = 0 then pure (d', none, ws)
      else if ph.vaddr % PGSIZE ≠ 0 then pure (d', none, ws)
      else do
        let (ok, ws') ← loaduvm d' ph.vaddr f ph.off ph.filesz ws
        if ok then loadSegments f k ((off + 32) % 2 ^ 32) d' sz' ws' else pure (d', none, ws')

/-! ## Arguments -/

inductive CopyRes
  | ok
  | fail
  /-- `uva2ka` has no page table to look at. -/
  | wild
deriving DecidableEq

def copyoutLoop (d : Pgdir) (src : ℕ → UInt8) : ℕ → ℕ → ℕ → ℕ → List ℕ → M (CopyRes × List ℕ)
  | 0, _, _, _, _ => fail "copyout: out of fuel"
  | fuel + 1, va, done, len, wrote =>
    if len = 0 then pure (.ok, wrote)
    else
      let v := va / PGSIZE
      if (d.tab (v / NPTENTRIES)).isNone then pure (.wild, wrote)
      else if (d.pte v).p = false then pure (.fail, wrote)
      else if (d.pte v).u = false then pure (.fail, wrote)
      else do
        let n := if len < PGSIZE - va % PGSIZE then len else PGSIZE - va % PGSIZE
        store (d.pte v).addr (va % PGSIZE) n fun i => src (done + i)
        copyoutLoop d src fuel ((v + 1) * PGSIZE % 2 ^ 32) (done + n) (len - n) (v :: wrote)

def copyout (d : Pgdir) (va : ℕ) (src : ℕ → UInt8) (len : ℕ) (wrote : List ℕ) :
    M (CopyRes × List ℕ) :=
  copyoutLoop d src (len / PGSIZE + 3) va 0 len wrote

/-- `sp = (sp - (len + 1)) & ~3` -/
@[irreducible] def pushStr (sp len : ℕ) : ℕ := (sp + 2 ^ 32 - (len + 1)) % 2 ^ 32 / 4 * 4

def pushArgs (d : Pgdir) : List Arg → ℕ → List ℕ → List ℕ → M (CopyRes × ℕ × List ℕ × List ℕ)
  | [], sp, addrs, wrote => pure (.ok, sp, addrs, wrote)
  | a :: as, sp, addrs, wrote =>
    if MAXARG ≤ addrs.length then pure (.fail, sp, addrs, wrote)
    else do
      let sp' := pushStr sp a.len
      let (res, wrote') ← copyout d sp' (fun i => if i < a.len then a.byte i else 0) (a.len + 1)
        wrote
      if res = .ok then pushArgs d as sp' (addrs ++ [sp']) wrote'
      else pure (res, sp', addrs, wrote')

def ustack (sp : ℕ) (addrs : List ℕ) : List ℕ :=
  [0xffffffff, addrs.length, (sp + 2 ^ 32 - (addrs.length + 1) * 4) % 2 ^ 32] ++ addrs ++ [0]

/-- Byte `i` of a list of words. -/
def wordByte (l : List ℕ) (i : ℕ) : UInt8 := UInt8.ofNat ((l[i / 4]?).getD 0 / 2 ^ (8 * (i % 4)))

/-- The arguments and `ustack` go to the stack. -/
def buildStack (d : Pgdir) (sz : ℕ) (argv : List Arg) : M (CopyRes × ℕ × List ℕ) := do
  let (res, sp, addrs, wrote) ← pushArgs d argv sz [] []
  if res = .ok then do
    let sp' := (sp + 2 ^ 32 - (3 + addrs.length + 1) * 4) % 2 ^ 32
    let (res', wrote') ← copyout d sp' (wordByte (ustack sp addrs)) ((3 + addrs.length + 1) * 4) wrote
    pure (res', sp', wrote')
  else pure (res, sp, wrote)

/-! ## exec -/

/-- With this entry at the caller's address 0 `copyout` goes on: it is present, of the user, and
    `P2V` of its page is not 0. -/
abbrev Leads (zero : Pte) : Prop := zero.p ∧ zero.u ∧ zero.addr ≠ KERNBASE / PGSIZE

/-- How `exec` ends: -1, a new image, or in `uva2ka` without a page table. -/
inductive ExecEnd
  | fail
  | commit (d : Pgdir) (sz sp : ℕ)
  | wild (d : Pgdir) (sz sp : ℕ)

/-- The end of `exec`, the size of the new image if its stack was made, the pages `loaduvm` and
    `copyout` wrote to, and whether `uva2ka` was without a page table. -/
structure ExecRun where
  ends : ExecEnd
  stack : Option ℕ
  loaded : List ℕ
  wrote : List ℕ
  looked : Bool

/-- `exec` after the program is loaded: guard page, stack page and arguments. Without a page table
    `uva2ka` reads the caller's address 0, where the entry `zero` is. -/
@[irreducible] def execStack (zero : Pte) (argv : List Arg) (d : Pgdir) (sz : ℕ) (ws : List ℕ) :
    M ExecRun := do
  let (d', sz') ← allocuvm L d (pgroundup sz) ((pgroundup sz + 2 * PGSIZE) % 2 ^ 32)
  if sz' = 0 then do
    freevm L d'
    pure ⟨.fail, none, ws, [], false⟩
  else do
    let d'' ← clearpteu d' ((sz' - 2 * PGSIZE) / PGSIZE)
    let (res, sp, wrote) ← buildStack d'' sz' argv
    if res = .ok then pure ⟨.commit d'' sz' sp, some sz', ws, wrote, false⟩
    else if res = .wild ∧ Leads zero then
      pure ⟨.wild d'' sz' sp, some sz', ws, wrote, true⟩
    else do
      freevm L d''
      pure ⟨.fail, some sz', ws, wrote, res = .wild⟩

/-- `exec(path, argv)`, up to committing to the new image; `elf.phnum` is at
    byte 44 of the header and `elf.phoff` at byte 28. -/
@[irreducible] def exec (zero : Pte) (f : ExecFile) (argv : List Arg) : M ExecRun :=
  -- -1 would pass this test, but at offset 0 `readi` does not return it
  if (f.readi 0 52).any (· < 52) then pure ⟨.fail, none, [], [], false⟩
  else if f.uint 0 ≠ ELF_MAGIC then pure ⟨.fail, none, [], [], false⟩
  else do
    match ← setupkvm L with
    | none => pure ⟨.fail, none, [], [], false⟩
    | some d => do
        let (d', r, ws) ← loadSegments L f (f.ushort 44) (f.uint 28) d 0 []
        match r with
        | none => do
            freevm L d'
            pure ⟨.fail, none, ws, [], false⟩
        | some sz => execStack L zero argv d' sz ws

end Vm

end Xv6
