/-
  Xv6.Fs.Inode

  The lower half of fs.c: blocks, inodes and their contents.

  The functions run one call at a time over the contents of the disk as the
  buffer cache shows them.  Only one device exists, so there are no device
  numbers.  Two fields are kept for what is proved only: the block numbers
  passed to `log_write` in each transaction, and whether `balloc` has ever
  handed out a block that was in use.
-/

import Xv6.Fs.Format
import Xv6.Lib.Wp

namespace Xv6

open Wp List Bytes

abbrev NINODE : Nat := 50

/-- `&icache.inode[i]`. -/
abbrev ISlot := Fin NINODE

def u32 (x : Nat) : Nat := x % 2 ^ 32

/-- The ways a call can fail to return. -/
inductive Halt where
  | panic (msg : String)
  /-- It sleeps on a lock its own process holds. -/
  | deadlock
deriving DecidableEq

structure Inode where
  inum : Nat
  ref : Int
  /-- The sleep-lock is held. -/
  locked : Bool
  valid : Bool
  copy : Dinode

structure Fs where
  disk : Nat → Block
  sb : Superblock
  inode : ISlot → Inode
  /-- The blocks passed to `log_write` since `begin_op`. -/
  op : Option (List Nat)
  ops : List (List Nat)
  /-- `balloc` has handed out a block that was in use. -/
  overlap : Bool

abbrev FsM := EStateM Halt Fs

namespace Fs

/-- The inodes at boot: nothing is cached. -/
def empty (disk : Nat → Block) : Fs where
  disk := disk
  sb := getSuper (disk 1)
  inode := fun _ => ⟨0, 0, false, false, Dinode.fresh 0⟩
  op := none
  ops := []
  overlap := false

def setInode (s : Fs) (ip : ISlot) (f : Inode → Inode) : Fs :=
  { s with inode := Function.update s.inode ip (f (s.inode ip)) }

def setCopy (s : Fs) (ip : ISlot) (f : Dinode → Dinode) : Fs :=
  s.setInode ip fun i => { i with copy := f i.copy }

/-! ## Who uses which block -/

def dinodeAt (s : Fs) (i : Nat) : Dinode := getDinode (s.disk (s.sb.iblock i)) (i % IPB)

/-- The slot that holds a valid copy of inode `i`. -/
def live (s : Fs) (i : Nat) : Option ISlot :=
  (finRange NINODE).find? fun j =>
    decide (0 < (s.inode j).ref ∧ (s.inode j).inum = i ∧ (s.inode j).valid = true)

def cur (s : Fs) (i : Nat) : Dinode :=
  match s.live i with
  | some j => (s.inode j).copy
  | none => s.dinodeAt i

/-- The `j`-th address listed in the indirect block. -/
def listed (disk : Nat → Block) (d : Dinode) (j : Nat) : Nat :=
  if d.addr NDIRECT = 0 then 0 else word (disk (d.addr NDIRECT)) j

/-- The block at place `k` of an inode: its `k`-th data block for
    `k < MAXFILE`, its indirect block for `k = MAXFILE`; 0 if there is none. -/
def place (disk : Nat → Block) (d : Dinode) (k : Nat) : Nat :=
  if k < NDIRECT then d.addr k
  else if k < MAXFILE then listed disk d (k - NDIRECT)
  else if k = MAXFILE then d.addr NDIRECT
  else 0

/-- An allocated inode refers to block `b`. -/
def refersTo (s : Fs) (i b : Nat) : Bool :=
  decide ((s.cur i).type ≠ 0) &&
    (range (MAXFILE + 1)).any fun k => decide (place s.disk (s.cur i) k = b)

def inUse (s : Fs) (b : Nat) : Bool :=
  decide (b < s.sb.datastart) || (range s.sb.ninodes).any fun i => s.refersTo i b

end Fs

open Fs

/-! ## The log and the buffer cache, as they are used here -/

def beginOp : FsM Unit := change fun s => { s with op := some (s.op.getD []) }

def endOp : FsM Unit := change fun s => { s with op := none, ops := s.op.getD [] :: s.ops }

def bread (b : Nat) : FsM Block := look fun s => s.disk b

/-- `log_write`, for a buffer that has just been changed.  Its other test, on the size of the log,
    is made by `transact` over all calls of the transaction. -/
def logWrite (b : Nat) (data : Block) : FsM Unit := do
  change fun s => { s with disk := Function.update s.disk b data }
  let op ← look fun s => s.op
  match op with
  | none => fail (.panic "log_write outside of trans")
  | some l => change fun s => { s with op := some (b :: l) }

/-- `log.lh.n >= LOGSIZE || log.lh.n >= log.size - 1`. -/
def logFull (nlog n : Nat) : Bool := decide (LOGSIZE ≤ n ∨ nlog - 1 ≤ n)

/-- One of these calls of `log_write`, the last one first, panics.  A block that is in the header
    is not entered again, but the test comes before that. -/
def tooBig (nlog : Nat) : List Nat → Bool
  | [] => false
  | _ :: l => tooBig nlog l || logFull nlog l.toFinset.card

/-- A transaction in which nobody else takes part.  The test of `log_write` is made at the end: no
    call reads what it is made of, and a panic is final. -/
def transact {α : Type} (f : FsM α) : FsM α := do
  beginOp
  let a ← f
  if (← look fun s => tooBig s.sb.nlog (s.op.getD [])) then fail (.panic "too big a transaction")
  else do
    endOp
    pure a

/-! ## Blocks -/

def Fs.readsb : FsM Superblock := look fun s => getSuper (s.disk 1)

def bzero (b : Nat) : FsM Unit := logWrite b zero

def ballocFrom : List Nat → FsM Nat
  | [] => fail (.panic "balloc: out of blocks")
  | b :: bs => do
      let sb ← look fun s => s.sb
      let bp ← bread (sb.bblock b)
      match (range (min BPB (sb.size - b))).find? fun bi => !bit bp bi with
      | some bi => do
          change fun s => { s with overlap := s.overlap || s.inUse (b + bi) }
          logWrite (sb.bblock b) (raise bp bi)
          bzero (b + bi)
          pure (b + bi)
      | none => ballocFrom bs

/-- `for (b = 0; b < sb.size; b += BPB)`. -/
def bitmapStarts (size : Nat) : List Nat := (range ((size + BPB - 1) / BPB)).map (· * BPB)

def balloc : FsM Nat := do
  let sb ← look fun s => s.sb
  ballocFrom (bitmapStarts sb.size)

def bfree (b : Nat) : FsM Unit := do
  let sb ← Fs.readsb
  change fun s => { s with sb := sb }
  let bp ← bread (sb.bblock b)
  if bit bp (b % BPB) = false then fail (.panic "freeing free block")
  else logWrite (sb.bblock b) (lower bp (b % BPB))

/-! ## Inodes -/

def onInode (ip : ISlot) (f : Inode → Inode) : FsM Unit := change fun s => s.setInode ip f

def onCopy (ip : ISlot) (f : Dinode → Dinode) : FsM Unit := change fun s => s.setCopy ip f

def copyOf (ip : ISlot) : FsM Dinode := look fun s => (s.inode ip).copy

def iget (inum : Nat) : FsM ISlot := do
  let hit ← look fun s => (finRange NINODE).find? fun j =>
    decide (0 < (s.inode j).ref ∧ (s.inode j).inum = inum)
  match hit with
  | some ip => do
      onInode ip fun i => { i with ref := i.ref + 1 }
      pure ip
  | none => do
      let empty ← look fun s => (finRange NINODE).find? fun j => decide ((s.inode j).ref = 0)
      match empty with
      | none => fail (.panic "iget: no inodes")
      | some ip => do
          onInode ip fun i => { i with inum := inum, ref := 1, valid := false }
          pure ip

def ialloc (type : Int16) : FsM ISlot := do
  let free ← look fun s =>
    (range' 1 (s.sb.ninodes - 1)).find? fun i => decide ((s.dinodeAt i).type = 0)
  match free with
  | none => fail (.panic "ialloc: no inodes")
  | some inum => do
      let sb ← look fun s => s.sb
      let bp ← bread (sb.iblock inum)
      logWrite (sb.iblock inum) (putDinode bp (inum % IPB) (Dinode.fresh type))
      iget inum

def iupdate (ip : ISlot) : FsM Unit := do
  let sb ← look fun s => s.sb
  let i ← look fun s => s.inode ip
  let bp ← bread (sb.iblock i.inum)
  logWrite (sb.iblock i.inum) (putDinode bp (i.inum % IPB) i.copy)

def idup (ip : ISlot) : FsM ISlot := do
  onInode ip fun i => { i with ref := i.ref + 1 }
  pure ip

def ilock (ip : ISlot) : FsM Unit := do
  let i ← look fun s => s.inode ip
  if i.ref < 1 then fail (.panic "ilock")
  else if i.locked then fail .deadlock
  else do
    onInode ip fun i => { i with locked := true }
    if i.valid then pure ()
    else do
      let d ← look fun s => s.dinodeAt i.inum
      onInode ip fun i => { i with copy := d, valid := true }
      if d.type = 0 then fail (.panic "ilock: no type") else pure ()

def iunlock (ip : ISlot) : FsM Unit := do
  let i ← look fun s => s.inode ip
  if i.locked = false ∨ i.ref < 1 then fail (.panic "iunlock")
  else onInode ip fun i => { i with locked := false }

/-! ## Inode content -/

def bmapAddr (ip : ISlot) (a : Nat) : FsM Nat := do
  let d ← copyOf ip
  if d.addr a = 0 then do
    let addr ← balloc
    onCopy ip fun d => d.setAddr a addr
    pure addr
  else pure (d.addr a)

def bmapListed (addr j : Nat) : FsM Nat := do
  let bp ← bread addr
  if word bp j = 0 then do
    let b ← balloc
    logWrite addr (setWord bp j b)
    pure b
  else pure (word bp j)

def bmap (ip : ISlot) (bn : Nat) : FsM Nat :=
  if bn < NDIRECT then bmapAddr ip bn
  else if bn - NDIRECT < NINDIRECT then do
    -- load indirect block, allocating if necessary
    let addr ← bmapAddr ip NDIRECT
    bmapListed addr (bn - NDIRECT)
  else fail (.panic "bmap: out of range")

def truncDirect (ip : ISlot) (i : Nat) : FsM Unit := do
  let d ← copyOf ip
  if d.addr i = 0 then pure ()
  else do
    bfree (d.addr i)
    onCopy ip fun d => d.setAddr i 0

def truncIndirect (ip : ISlot) : FsM Unit := do
  let d ← copyOf ip
  if d.addr NDIRECT = 0 then pure ()
  else do
    let bp ← bread (d.addr NDIRECT)
    (range NINDIRECT).forM fun j => if word bp j = 0 then pure () else bfree (word bp j)
    bfree (d.addr NDIRECT)
    onCopy ip fun d => d.setAddr NDIRECT 0

def itrunc (ip : ISlot) : FsM Unit := do
  (range NDIRECT).forM (truncDirect ip)
  truncIndirect ip
  onCopy ip fun d => { d with size := 0 }
  iupdate ip

def ifree (ip : ISlot) : FsM Unit := do
  itrunc ip
  onCopy ip fun d => { d with type := 0 }
  iupdate ip
  onInode ip fun i => { i with valid := false }

def ifreeUnused (ip : ISlot) : FsM Unit := do
  let i ← look fun s => s.inode ip
  if i.ref = 1 ∧ i.valid = true ∧ i.copy.nlink = 0 then ifree ip else pure ()

/-- Drop a reference to an in-memory inode. -/
def iput (ip : ISlot) : FsM Unit := do
  ifreeUnused ip
  onInode ip fun i => { i with ref := i.ref - 1 }

def iunlockput (ip : ISlot) : FsM Unit := do
  iunlock ip
  iput ip

structure Stat where
  ino : Nat
  type : Int16
  nlink : Int16
  size : Nat
deriving DecidableEq

def stati (ip : ISlot) : FsM Stat := look fun s =>
  let i := s.inode ip
  ⟨i.inum, i.copy.type, i.copy.nlink, i.copy.size.toNat⟩

def driver (major : Int16) : Bool := decide (major = 1)

def readLoop (ip : ISlot) : Nat → Nat → Nat → FsM (List UInt8)
  | 0, _, _ => pure []
  | fuel + 1, off, n =>
    if n = 0 then pure []
    else do
      let b ← bmap ip (off / BSIZE)
      let bp ← bread b
      let m := min n (BSIZE - off % BSIZE)
      let rest ← readLoop ip fuel (off + m) (n - m)
      pure (slice bp (off % BSIZE) m ++ rest)

def readi (dev : Int) (ip : ISlot) (off n : Nat) : FsM (Int × List UInt8) := do
  let d ← copyOf ip
  if d.type = T_DEV then pure (if driver d.major then dev else -1, [])
  else if d.size.toNat < off ∨ u32 (off + n) < off then pure (-1, [])
  else do
    let n := if d.size.toNat < off + n then d.size.toNat - off else n
    let data ← readLoop ip n off n
    pure ((n : Int), data)

/-- The loop of `writei`, with the bytes still to write. -/
def writeLoop (ip : ISlot) : Nat → Nat → List UInt8 → FsM Unit
  | 0, _, _ => pure ()
  | fuel + 1, off, src =>
    if src = [] then pure ()
    else do
      let b ← bmap ip (off / BSIZE)
      let bp ← bread b
      let m := min src.length (BSIZE - off % BSIZE)
      logWrite b (blit bp (off % BSIZE) (src.take m))
      writeLoop ip fuel (off + m) (src.drop m)

def growTo (ip : ISlot) (n off : Nat) : FsM Unit := do
  let d ← copyOf ip
  if 0 < n ∧ d.size.toNat < off then do
    onCopy ip fun d => { d with size := UInt32.ofNat off }
    iupdate ip
  else pure ()

def writei (dev : Int) (ip : ISlot) (src : List UInt8) (off : Nat) : FsM Int := do
  let d ← copyOf ip
  let n := src.length
  if d.type = T_DEV then pure (if driver d.major then dev else -1)
  else if d.size.toNat < off ∨ u32 (off + n) < off then pure (-1)
  else if MAXFILE * BSIZE < off + n then pure (-1)
  else do
    writeLoop ip n off src
    growTo ip n (off + n)
    pure (n : Int)

end Xv6
