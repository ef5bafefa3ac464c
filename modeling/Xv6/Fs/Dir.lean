/-
  Xv6.Fs.Dir

  The upper half of fs.c: directories and paths.

  A name or a path is the list of its bytes before the terminating NUL; a name
  in a directory entry has `DIRSIZ` bytes and no NUL if it is that long.
-/

import Xv6.Fs.Inode

namespace Xv6

open Wp Fs

/-! ## Directories -/

def namecmp (s t : List UInt8) : Int := strncmp DIRSIZ s t

/-- `for(off = lo; off < size; off += sizeof(de))`. -/
def offsets (lo size : Nat) : List Nat :=
  (List.range ((size - lo + DIRENT - 1) / DIRENT)).map fun k => lo + k * DIRENT

def readDirent (msg : String) (dp : ISlot) (off : Nat) : FsM (List UInt8) := do
  let r ← readi 0 dp off DIRENT
  if r.1 ≠ DIRENT then fail (.panic msg) else pure r.2

def dirScan (dp : ISlot) (name : List UInt8) : List Nat → FsM (Option (Nat × Nat))
  | [] => pure none
  | off :: offs => do
      let de ← readDirent "dirlink read" dp off
      if direntInum de ≠ 0 ∧ namecmp name (direntName de) = 0 then pure (some (direntInum de, off))
      else dirScan dp name offs

def dirlookup (dp : ISlot) (name : List UInt8) : FsM (Option (ISlot × Nat)) := do
  let d ← copyOf dp
  if d.type ≠ T_DIR then fail (.panic "dirlookup not DIR")
  else do
    let hit ← dirScan dp name (offsets 0 d.size.toNat)
    match hit with
    | none => pure none
    | some (inum, off) => do
        let ip ← iget inum
        pure (some (ip, off))

def dirEmpty (dp : ISlot) (last : Nat) : List Nat → FsM Nat
  | [] => pure last
  | off :: offs => do
      let de ← readDirent "dirlink read" dp off
      if direntInum de = 0 then pure off else dirEmpty dp last offs

/-- Write a new directory entry into the directory `dp`. -/
def dirlink (dp : ISlot) (name : List UInt8) (inum : Nat) : FsM Int := do
  -- check that name is not present
  let hit ← dirlookup dp name
  match hit with
  | some (ip, _) => do
      iput ip
      pure (-1)
  | none => do
      let d ← copyOf dp
      let off ← dirEmpty dp ((offsets 0 d.size.toNat).length * DIRENT) (offsets 0 d.size.toNat)
      let r ← writei 0 dp (dirent inum name) off
      if r ≠ DIRENT then fail (.panic "dirlink") else pure 0

/-! ## Paths -/

abbrev slash : UInt8 := 47

abbrev dot : UInt8 := 46

def skipelem (path : List UInt8) : Option (List UInt8 × List UInt8) :=
  match path.dropWhile (· == slash) with
  | [] => none
  | c :: s =>
    some (((c :: s).takeWhile (· != slash)).take DIRSIZ,
      ((c :: s).dropWhile (· != slash)).dropWhile (· == slash))

def namexLoop (parent : Bool) : Nat → List UInt8 → ISlot → FsM (Option (ISlot × List UInt8))
  -- not reached: every element takes a byte of the path
  | 0, _, _ => pure none
  | fuel + 1, path, ip =>
    match skipelem path with
    | none =>
      if parent then do
        iput ip
        pure none
      else pure (some (ip, []))
    | some (name, rest) => do
        ilock ip
        let d ← copyOf ip
        if d.type ≠ T_DIR then do
          iunlockput ip
          pure none
        else if parent = true ∧ rest = [] then do
          -- stop one level early
          iunlock ip
          pure (some (ip, name))
        else do
          let next ← dirlookup ip name
          match next with
          | none => do
              iunlockput ip
              pure none
          | some (next, _) => do
              iunlockput ip
              namexLoop parent fuel rest next

def namexStart (cwd : ISlot) (path : List UInt8) : FsM ISlot :=
  if path.headD 0 = slash then iget ROOTINO else idup cwd

def namex (cwd : ISlot) (path : List UInt8) (parent : Bool) :
    FsM (Option (ISlot × List UInt8)) := do
  let ip ← namexStart cwd path
  namexLoop parent (path.length + 1) path ip

def namei (cwd : ISlot) (path : List UInt8) : FsM (Option ISlot) := do
  let r ← namex cwd path false
  pure (r.map Prod.fst)

def nameiparent (cwd : ISlot) (path : List UInt8) : FsM (Option (ISlot × List UInt8)) :=
  namex cwd path true

end Xv6
