/-
  Xv6.Fs.Mkfs

  The program that makes the file system (mkfs.c).

  The image is a file of `FSSIZE` blocks that are zero to begin with.  Inodes
  and blocks come from two counters.  A failed `assert` and `exit(1)` end the
  program; a block that is read must be in the file.  Numbers do not wrap: the
  root directory is full before they become large.
-/

import Xv6.Fs.Dir
import Xv6.Fs.Image

namespace Xv6

open Wp Fs Bytes

inductive Stop where
  | assertion
  | exit
deriving DecidableEq

/-- The image, and the global variables of mkfs. -/
structure Mkfs where
  img : Nat → Block
  /-- The blocks of the file. -/
  len : Nat
  freeinode : Nat
  freeblock : Nat

abbrev MkM := EStateM Stop Mkfs

structure Source where
  name : List UInt8
  content : Option (List UInt8)

namespace Mkfs

abbrev NINODES : Nat := 200

/-! ## The layout of the disk -/

abbrev FSSIZE : Nat := 1000

abbrev nbitmap : Nat := FSSIZE / (BSIZE * 8) + 1
abbrev ninodeblocks : Nat := NINODES / IPB + 1

abbrev nmeta : Nat := 2 + nlog + ninodeblocks + nbitmap

abbrev nblocks : Nat := FSSIZE - nmeta

def sb : Superblock where
  size := FSSIZE
  nblocks := nblocks
  ninodes := NINODES
  nlog := nlog
  logstart := 2
  inodestart := 2 + nlog
  bmapstart := 2 + nlog + ninodeblocks

def superBlock : Block :=
  putWords zero 0 [sb.size, sb.nblocks, sb.ninodes, sb.nlog, sb.logstart, sb.inodestart,
    sb.bmapstart]

/-! ## Sectors and inodes -/

def wsect (sec : Nat) (buf : Block) : MkM Unit := change fun m =>
  { m with img := Function.update m.img sec buf, len := max m.len (sec + 1) }

def rsect (sec : Nat) : MkM Block := do
  let len ← look fun m => m.len
  if sec < len then look fun m => m.img sec else fail .exit

def winode (inum : Nat) (ip : Dinode) : MkM Unit := do
  let buf ← rsect (sb.iblock inum)
  wsect (sb.iblock inum) (putDinode buf (inum % IPB) ip)

def rinode (inum : Nat) : MkM Dinode := do
  let buf ← rsect (sb.iblock inum)
  pure (getDinode buf (inum % IPB))

def ialloc (type : Int16) : MkM Nat := do
  let inum ← look fun m => m.freeinode
  change fun m => { m with freeinode := m.freeinode + 1 }
  winode inum { Dinode.fresh type with nlink := 1 }
  pure inum

def bitmap (used : Nat) : Block := (List.range used).foldl raise zero

def balloc (used : Nat) : MkM Unit :=
  if used < BSIZE * 8 then wsect sb.bmapstart (bitmap used) else fail .assertion

/-! ## Appending to a file -/

def nextBlock : MkM Nat := do
  let b ← look fun m => m.freeblock
  change fun m => { m with freeblock := m.freeblock + 1 }
  pure b

def indirectBlock (din : Dinode) : MkM Dinode :=
  if din.addr NDIRECT = 0 then do
    let b ← nextBlock
    pure (din.setAddr NDIRECT b)
  else pure din

def listedBlock (din : Dinode) (fbn : Nat) : MkM (Dinode × Nat) := do
  let indirect ← rsect (din.addr NDIRECT)
  if word indirect (fbn - NDIRECT) = 0 then do
    let b ← nextBlock
    wsect (din.addr NDIRECT) (setWord indirect (fbn - NDIRECT) b)
    pure (din, word (setWord indirect (fbn - NDIRECT) b) (fbn - NDIRECT))
  else pure (din, word indirect (fbn - NDIRECT))

def fileBlock (din : Dinode) (fbn : Nat) : MkM (Dinode × Nat) :=
  if fbn < NDIRECT then
    if din.addr fbn = 0 then do
      let b ← nextBlock
      pure (din.setAddr fbn b, (din.setAddr fbn b).addr fbn)
    else pure (din, din.addr fbn)
  else do
    let din ← indirectBlock din
    listedBlock din fbn

/-- The loop of `iappend`, with the bytes still to write. -/
def appendLoop : Nat → Dinode → Nat → List UInt8 → MkM (Dinode × Nat)
  -- not reached with bytes left: every round writes some
  | 0, din, off, _ => pure (din, off)
  | fuel + 1, din, off, p =>
    if p = [] then pure (din, off)
    else if off / BSIZE < MAXFILE then do
      let fbn := off / BSIZE
      let r ← fileBlock din fbn
      let n1 := min p.length ((fbn + 1) * BSIZE - off)
      let buf ← rsect r.2
      wsect r.2 (blit buf (off - fbn * BSIZE) (p.take n1))
      appendLoop fuel r.1 (off + n1) (p.drop n1)
    else fail .assertion

def iappend (inum : Nat) (p : List UInt8) : MkM Unit := do
  let din ← rinode inum
  let r ← appendLoop p.length din din.size.toNat p
  winode inum { r.1 with size := UInt32.ofNat r.2 }

/-! ## The program -/

abbrev underscore : UInt8 := 95

/-- Skip leading _ in name when writing to file system. -/
def skipUnderscore : List UInt8 → List UInt8
  | [] => []
  | c :: name => if c = underscore then name else c :: name

def copyLoop (inum : Nat) : Nat → List UInt8 → MkM Unit
  | 0, _ => pure ()
  | fuel + 1, content =>
    if content = [] then pure ()
    else do
      iappend inum (content.take BSIZE)
      copyLoop inum fuel (content.drop BSIZE)

def addFile (f : Source) : MkM Unit :=
  if slash ∈ f.name then fail .assertion
  else match f.content with
    | none => fail .exit
    | some content => do
        let inum ← ialloc T_FILE
        iappend ROOTINO (dirent inum (skipUnderscore f.name))
        copyLoop inum content.length content

def fixRoot : MkM Unit := do
  let din ← rinode ROOTINO
  winode ROOTINO { din with size := UInt32.ofNat ((din.size.toNat / BSIZE + 1) * BSIZE) }

def main (files : List Source) : MkM Unit := do
  wsect 1 superBlock
  let rootino ← ialloc T_DIR
  if rootino ≠ ROOTINO then fail .assertion
  else do
    iappend rootino (dirent rootino [dot])
    iappend rootino (dirent rootino [dot, dot])
    files.forM addFile
    fixRoot
    let used ← look fun m => m.freeblock
    balloc used

/-- The file has been filled with zeroes. -/
def zeroes : Mkfs where
  img := fun _ => zero
  len := FSSIZE
  freeinode := 1
  freeblock := nmeta

def mkfs (files : List Source) : EStateM.Result Stop Mkfs Unit := main files zeroes

end Mkfs
end Xv6
