/-
  Xv6.Fs.Bio

  The buffer cache: bio.c over memide.c's `iderw` and the sleep-locks of the
  buffers.

  One label is one section under `bcache.lock` or under a sleep-lock's
  spinlock, or what a process does with a buffer it has locked.  Each process
  reads, modifies, writes and releases buffers as it likes, but does not release
  a buffer it has modified without `bwrite` or `log_write`.

  The contents of a block are opaque here.  There is no step where the code
  panics.
-/

import Xv6.Fs.Log

namespace Xv6

open Function

abbrev NBUF : Nat := MAXOPBLOCKS * 3

abbrev ROOTDEV : Nat := 1

/-- A pointer into `bcache.buf`. -/
abbrev BufPtr := Fin NBUF

/-- `struct buf`; `locked` is its sleep-lock. -/
structure Buf (β : Type) where
  dev : Nat
  blockno : Nat
  valid : Bool
  dirty : Bool
  locked : Bool
  refcnt : Nat
  data : β

inductive BufPc where
  | idle
  /-- In `bget`, at `acquiresleep`. -/
  | locking (b : BufPtr)
  /-- In `bread`, behind `bget`. -/
  | reading (b : BufPtr)
  /-- In `brelse`, behind `releasesleep`. -/
  | releasing (b : BufPtr)
deriving DecidableEq

structure BufUser where
  pc : BufPc
  held : List BufPtr
  touched : List BufPtr
deriving DecidableEq

structure Bcache (ι β : Type) where
  buf : BufPtr → Buf β
  /-- The list through `next`, from `head.next` on. -/
  lru : List BufPtr
  disk : Nat → β
  disksize : Nat
  user : ι → BufUser

inductive BufAct (ι β : Type) where
  /-- `bget` up to `acquiresleep`. -/
  | bget (p : ι) (blockno : Nat)
  | acquiresleep (p : ι)
  /-- `bread` behind `bget`. -/
  | bread (p : ι)
  /-- The process changes the data of a buffer it holds. -/
  | store (p : ι) (b : BufPtr) (v : β)
  | bwrite (p : ι) (b : BufPtr)
  /-- `log_write`, as far as the buffer goes. -/
  | logWrite (p : ι) (b : BufPtr)
  /-- `brelse` up to the end of `releasesleep`. -/
  | brelse (p : ι) (b : BufPtr)
  /-- `brelse` under `bcache.lock`. -/
  | unref (p : ι)

namespace Bcache

variable {ι β : Type} [DecidableEq ι]
variable (c : Bcache ι β)

def boot [Inhabited β] (disk : Nat → β) (disksize : Nat) : Bcache ι β where
  buf := fun _ =>
    { dev := 0, blockno := 0, valid := false, dirty := false, locked := false, refcnt := 0,
      data := default }
  lru := (List.finRange NBUF).reverse
  disk := disk
  disksize := disksize
  user := fun _ => ⟨.idle, [], []⟩

def setBuf (c : Bcache ι β) (b : BufPtr) (f : Buf β → Buf β) : Bcache ι β :=
  { c with buf := update c.buf b (f (c.buf b)) }

def setUser (c : Bcache ι β) (p : ι) (f : BufUser → BufUser) : Bcache ι β :=
  { c with user := update c.user p (f (c.user p)) }

@[simp] theorem setBuf_user (b : BufPtr) (f : Buf β → Buf β) : (c.setBuf b f).user = c.user := rfl

@[simp] theorem setUser_buf (p : ι) (f : BufUser → BufUser) : (c.setUser p f).buf = c.buf := rfl

@[simp] theorem setUser_disk (p : ι) (f : BufUser → BufUser) : (c.setUser p f).disk = c.disk := rfl

/-- Is the block already cached? -/
def cached (c : Bcache ι β) (dev blockno : Nat) : Option BufPtr :=
  c.lru.find? fun b => decide ((c.buf b).dev = dev ∧ (c.buf b).blockno = blockno)

def spare (c : Bcache ι β) : Option BufPtr :=
  c.lru.reverse.find? fun b => decide ((c.buf b).refcnt = 0 ∧ (c.buf b).dirty = false)

/-- `bget` under `bcache.lock`. -/
def bget (c : Bcache ι β) (dev blockno : Nat) : Option (Bcache ι β × BufPtr) :=
  match c.cached dev blockno with
  | some b => some (c.setBuf b fun r => { r with refcnt := r.refcnt + 1 }, b)
  | none =>
    -- the caller panics when there is none
    c.spare.map fun b => (c.setBuf b fun r =>
      { r with dev := dev, blockno := blockno, valid := false, dirty := false, refcnt := 1 }, b)

/-- memide.c's `iderw`; `none` where it panics. -/
def iderw (c : Bcache ι β) (b : BufPtr) : Option (Bcache ι β) :=
  let r := c.buf b
  if r.locked = false ∨ (r.valid = true ∧ r.dirty = false) ∨ r.dev ≠ ROOTDEV
      ∨ r.blockno ≥ c.disksize then none
  else if r.dirty then
    some { c.setBuf b fun r => { r with dirty := false, valid := true } with
      disk := update c.disk r.blockno r.data }
  else some (c.setBuf b fun r => { r with data := c.disk r.blockno, valid := true })

def unref (c : Bcache ι β) (b : BufPtr) : Bcache ι β :=
  let c := c.setBuf b fun r => { r with refcnt := r.refcnt - 1 }
  -- no one is waiting for it
  if (c.buf b).refcnt = 0 then { c with lru := b :: c.lru.erase b } else c

def step (c : Bcache ι β) : BufAct ι β → Option (Bcache ι β)
  | .bget p blockno =>
    if (c.user p).pc = .idle then
      (c.bget ROOTDEV blockno).map fun (c, b) =>
        c.setUser p fun u => { u with pc := .locking b }
    else none
  | .acquiresleep p =>
    match (c.user p).pc with
    | .locking b =>
      if (c.buf b).locked then none
      else some ((c.setBuf b fun r => { r with locked := true }).setUser p fun u =>
        { u with pc := .reading b })
    | _ => none
  | .bread p =>
    match (c.user p).pc with
    | .reading b =>
      (if (c.buf b).valid then some c else c.iderw b).map fun c =>
        c.setUser p fun u => { u with pc := .idle, held := b :: u.held }
    | _ => none
  | .store p b v =>
    if (c.user p).pc = .idle ∧ b ∈ (c.user p).held then
      some ((c.setBuf b fun r => { r with data := v }).setUser p fun u =>
        { u with touched := b :: u.touched })
    else none
  | .bwrite p b =>
    if (c.user p).pc = .idle ∧ b ∈ (c.user p).held ∧ (c.buf b).locked = true then
      ((c.setBuf b fun r => { r with dirty := true }).iderw b).map fun c =>
        c.setUser p fun u => { u with touched := u.touched.filter (· ≠ b) }
    else none
  | .logWrite p b =>
    if (c.user p).pc = .idle ∧ b ∈ (c.user p).held then
      some ((c.setBuf b fun r => { r with dirty := true }).setUser p fun u =>
        { u with touched := u.touched.filter (· ≠ b) })
    else none
  | .brelse p b =>
    if (c.user p).pc = .idle ∧ b ∈ (c.user p).held ∧ b ∉ (c.user p).touched
        ∧ (c.buf b).locked = true then
      some ((c.setBuf b fun r => { r with locked := false }).setUser p fun u =>
        { u with pc := .releasing b, held := u.held.erase b })
    else none
  | .unref p =>
    match (c.user p).pc with
    | .releasing b => some ((c.unref b).setUser p fun u => { u with pc := .idle })
    | _ => none

end Bcache
end Xv6
