/-
  Xv6.Fs.SysFile

  file.c and sysfile.c: open files, descriptors and the system calls on them,
  with what `fork`, `exit` and `exec` do to files.

  Arguments that cannot be fetched from user memory are `none`.  What is decided
  elsewhere is an argument too: the page `kalloc` returns, the process slot
  `fork` gets, what a device or a pipe returns, and the parts of a program file
  that `exec` reads.
-/

import Xv6.Fs.Dir

namespace Xv6

open Function Wp Fs

/-! ## Open files -/

abbrev NFILE : Nat := 100

abbrev NOFILE : Nat := 16

/-- `&ftable.file[i]`. -/
abbrev FSlot := Fin NFILE

/-- `&ptable.proc[i]`. -/
abbrev PSlot := Fin 64

def initproc : PSlot := 0

inductive FType where
  | none
  | pipe
  | inode
deriving DecidableEq

structure File where
  type : FType
  ref : Int
  readable : Bool
  writable : Bool
  pipe : Nat
  ip : ISlot
  off : Nat
deriving DecidableEq

/-- The ends of a pipe that are open. -/
structure Pipe where
  readopen : Bool
  writeopen : Bool
deriving DecidableEq

structure Task where
  ofile : Fin NOFILE → Option FSlot
  cwd : Option ISlot

structure Files where
  fs : Fs
  file : FSlot → File
  /-- The pages that are pipes. -/
  pipe : Nat → Option Pipe
  proc : PSlot → Task

abbrev FileM := EStateM Halt Files

namespace Files

def setFile (s : Files) (f : FSlot) (g : File → File) : Files :=
  { s with file := update s.file f (g (s.file f)) }

def setProc (s : Files) (p : PSlot) (g : Task → Task) : Files :=
  { s with proc := update s.proc p (g (s.proc p)) }

def setFd (s : Files) (p : PSlot) (fd : Fin NOFILE) (f : Option FSlot) : Files :=
  s.setProc p fun t => { t with ofile := update t.ofile fd f }

def setPipe (s : Files) (page : Nat) (q : Option Pipe) : Files :=
  { s with pipe := update s.pipe page q }

end Files

def onFs {α : Type} (f : FsM α) : FileM α := zoom Files.fs (fun fs s => { s with fs := fs }) f

def onFile (f : FSlot) (g : File → File) : FileM Unit := change fun s => s.setFile f g

/-! ## file.c -/

def filealloc : FileM (Option FSlot) := do
  let empty ← look fun s => (List.finRange NFILE).find? fun f => decide ((s.file f).ref = 0)
  match empty with
  | none => pure none
  | some f => do
      onFile f fun x => { x with ref := 1 }
      pure (some f)

def filedup (f : FSlot) : FileM Unit := do
  let x ← look fun s => s.file f
  if x.ref < 1 then fail (.panic "filedup") else onFile f fun x => { x with ref := x.ref + 1 }

def pipeclose (page : Nat) (writable : Bool) : FileM Unit := change fun s =>
  match s.pipe page with
  | none => s
  | some q =>
    let q := if writable then { q with writeopen := false } else { q with readopen := false }
    s.setPipe page (if q.readopen || q.writeopen then some q else none)

def fileclose (f : FSlot) : FileM Unit := do
  let ff ← look fun s => s.file f
  if ff.ref < 1 then fail (.panic "fileclose")
  else if 0 < ff.ref - 1 then onFile f fun x => { x with ref := x.ref - 1 }
  else do
    onFile f fun x => { x with ref := 0, type := .none }
    match ff.type with
    | .none => pure ()
    | .pipe => pipeclose ff.pipe ff.writable
    | .inode => onFs do
        beginOp
        iput ff.ip
        endOp

def filestat (f : FSlot) : FileM (Option Stat) := do
  let ff ← look fun s => s.file f
  match ff.type with
  | .inode => onFs do
      ilock ff.ip
      let st ← stati ff.ip
      iunlock ff.ip
      pure (some st)
  | _ => pure none

def fileread (dev : Int) (f : FSlot) (n : Nat) : FileM (Int × List UInt8) := do
  let ff ← look fun s => s.file f
  if ff.readable = false then pure (-1, [])
  else match ff.type with
    | .pipe => pure (dev, [])
    | .none => fail (.panic "fileread")
    | .inode => do
        onFs (ilock ff.ip)
        let r ← onFs (readi dev ff.ip ff.off n)
        onFile f fun x => { x with off := if 0 < r.1 then u32 (x.off + r.1.toNat) else x.off }
        onFs (iunlock ff.ip)
        pure r

/-- The number of bytes `filewrite` writes at a time. -/
def maxChunk : Nat := ((LOGSIZE - 1 - 1 - 2) / 2) * 512

/-- One round of the loop of `filewrite`. -/
def writeChunk (dev : Int) (f : FSlot) (src : List UInt8) : FileM Int := do
  let ff ← look fun s => s.file f
  onFs beginOp
  onFs (ilock ff.ip)
  let r ← onFs (writei dev ff.ip src ff.off)
  onFile f fun x => { x with off := if 0 < r then u32 (x.off + r.toNat) else x.off }
  onFs (iunlock ff.ip)
  onFs endOp
  pure r

/-- The loop of `filewrite`, with the bytes still to write: whether all have
    been written.  What a driver returns is given by `dev`, call by call. -/
def writeChunks (dev : Nat → Int) (f : FSlot) : Nat → List UInt8 → FileM Bool
  | 0, src => pure (src.isEmpty)
  | fuel + 1, src =>
    if src = [] then pure true
    else do
      let r ← writeChunk (dev fuel) f (src.take maxChunk)
      if r < 0 then pure false
      else if r ≠ (src.take maxChunk).length then fail (.panic "short filewrite")
      else writeChunks dev f fuel (src.drop maxChunk)

def filewrite (dev : Nat → Int) (f : FSlot) (src : List UInt8) : FileM Int := do
  let ff ← look fun s => s.file f
  if ff.writable = false then pure (-1)
  else match ff.type with
    | .pipe => pure (dev 0)
    | .none => fail (.panic "filewrite")
    | .inode => do
        let all ← writeChunks dev f src.length src
        pure (if all then (src.length : Int) else -1)

/-! ## Descriptors -/

def argfd (p : PSlot) (fd : Int) : FileM (Option (Fin NOFILE × FSlot)) := look fun s =>
  if h : 0 ≤ fd ∧ fd < NOFILE then
    ((s.proc p).ofile ⟨fd.toNat, by omega⟩).map fun f => (⟨fd.toNat, by omega⟩, f)
  else none

def fdalloc (p : PSlot) (f : FSlot) : FileM (Option (Fin NOFILE)) := do
  let empty ← look fun s =>
    (List.finRange NOFILE).find? fun fd => decide ((s.proc p).ofile fd = none)
  match empty with
  | none => pure none
  | some fd => do
      change fun s => s.setFd p fd (some f)
      pure (some fd)

def sysDup (p : PSlot) (fd : Int) : FileM Int := do
  let arg ← argfd p fd
  match arg with
  | none => pure (-1)
  | some (_, f) => do
      let fd ← fdalloc p f
      match fd with
      | none => pure (-1)
      | some fd => do
          filedup f
          pure fd.val

def sysRead (dev : Int) (p : PSlot) (fd : Int) (n : Option Nat) : FileM Int := do
  let arg ← argfd p fd
  match arg, n with
  | some (_, f), some n => do
      let r ← fileread dev f n
      pure r.1
  | _, _ => pure (-1)

def sysWrite (dev : Nat → Int) (p : PSlot) (fd : Int) (src : Option (List UInt8)) : FileM Int := do
  let arg ← argfd p fd
  match arg, src with
  | some (_, f), some src => filewrite dev f src
  | _, _ => pure (-1)

def sysClose (p : PSlot) (fd : Int) : FileM Int := do
  let arg ← argfd p fd
  match arg with
  | none => pure (-1)
  | some (fd, f) => do
      change fun s => s.setFd p fd none
      fileclose f
      pure 0

def sysFstat (p : PSlot) (fd : Int) (st : Bool) : FileM Int := do
  let arg ← argfd p fd
  match arg, st with
  | some (_, f), true => do
      let st ← filestat f
      pure (if st.isSome then 0 else -1)
  | _, _ => pure (-1)

def onSome {α : Type} (r : Option α) (f : α → FsM Int) : FsM Int :=
  match r with
  | none => pure (-1)
  | some a => f a

/-! ## Links -/

/-- `ip->nlink++` or `ip->nlink--`, written to disk. -/
def addLink (ip : ISlot) (n : Int16) : FsM Unit := do
  onCopy ip fun d => { d with nlink := d.nlink + n }
  iupdate ip

def linkAt (cwd ip : ISlot) (new : List UInt8) : FsM Bool := do
  let r ← nameiparent cwd new
  match r with
  | none => pure false
  | some (dp, name) => do
      ilock dp
      let inum ← look fun s => (s.inode ip).inum
      let r ← dirlink dp name inum
      iunlockput dp
      pure (decide (0 ≤ r))

/-- `sys_link` with the inode at the old path. -/
def linkInode (cwd ip : ISlot) (new : List UInt8) : FsM Int := do
  ilock ip
  let d ← copyOf ip
  if d.type = T_DIR then do
    iunlockput ip
    pure (-1)
  else do
    addLink ip 1
    iunlock ip
    let ok ← linkAt cwd ip new
    if ok then do
      iput ip
      pure 0
    else do
      ilock ip
      addLink ip (-1)
      iunlockput ip
      pure (-1)

def link (cwd : ISlot) (old new : List UInt8) : FsM Int := do
  beginOp
  let r ← namei cwd old
  let r ← onSome r fun ip => linkInode cwd ip new
  endOp
  pure r

def dirEmptyFrom (dp : ISlot) : List Nat → FsM Bool
  | [] => pure true
  | off :: offs => do
      let de ← readDirent "isdirempty: readi" dp off
      if direntInum de ≠ 0 then pure false else dirEmptyFrom dp offs

/-- Is the directory `dp` empty except for "." and ".." ? -/
def isdirempty (dp : ISlot) : FsM Bool := do
  let d ← copyOf dp
  dirEmptyFrom dp (offsets (2 * DIRENT) d.size.toNat)

/-- `ip->type == T_DIR && !isdirempty(ip)`. -/
def notEmpty (ip : ISlot) : FsM Bool := do
  let d ← copyOf ip
  if d.type = T_DIR then do
    let e ← isdirempty ip
    pure (!e)
  else pure false

/-- `dp->nlink--` for the ".." of a directory. -/
def dropDots (dp ip : ISlot) : FsM Unit := do
  let d ← copyOf ip
  if d.type = T_DIR then addLink dp (-1) else pure ()

def unlinkInode (dp ip : ISlot) (off : Nat) : FsM Int := do
  ilock ip
  let d ← copyOf ip
  if d.nlink < 1 then fail (.panic "unlink: nlink < 1")
  else do
    let full ← notEmpty ip
    if full then do
      iunlockput ip
      iunlockput dp
      pure (-1)
    else do
      let r ← writei 0 dp (List.replicate DIRENT 0) off
      if r ≠ DIRENT then fail (.panic "unlink: writei")
      else do
        dropDots dp ip
        iunlockput dp
        addLink ip (-1)
        iunlockput ip
        pure 0

/-- `sys_unlink` with the parent directory. -/
def unlinkAt (dp : ISlot) (name : List UInt8) : FsM Int := do
  ilock dp
  -- cannot unlink "." or ".."
  if namecmp name [dot] = 0 ∨ namecmp name [dot, dot] = 0 then do
    iunlockput dp
    pure (-1)
  else do
    let hit ← dirlookup dp name
    match hit with
    | none => do
        iunlockput dp
        pure (-1)
    | some (ip, off) => unlinkInode dp ip off

def unlink (cwd : ISlot) (path : List UInt8) : FsM Int := do
  beginOp
  let r ← nameiparent cwd path
  let r ← onSome r fun d => unlinkAt d.1 d.2
  endOp
  pure r

/-! ## Creating -/

def makeDots (dp ip : ISlot) (type : Int16) : FsM Unit :=
  if type = T_DIR then do
    -- for ".."; no ip->nlink++ for "."
    addLink dp 1
    let i ← look fun s => (s.inode ip).inum
    let d ← look fun s => (s.inode dp).inum
    let r ← dirlink ip [dot] i
    if r < 0 then fail (.panic "create dots")
    else do
      let r ← dirlink ip [dot, dot] d
      if r < 0 then fail (.panic "create dots") else pure ()
  else pure ()

def createNew (dp : ISlot) (name : List UInt8) (type major minor : Int16) : FsM ISlot := do
  let ip ← ialloc type
  ilock ip
  onCopy ip fun d => { d with major := major, minor := minor, nlink := 1 }
  iupdate ip
  makeDots dp ip type
  let i ← look fun s => (s.inode ip).inum
  let r ← dirlink dp name i
  if r < 0 then fail (.panic "create: dirlink")
  else do
    iunlockput dp
    pure ip

/-- `create` where the name is that of `ip`. -/
def createOld (dp ip : ISlot) (type : Int16) : FsM (Option ISlot) := do
  iunlockput dp
  ilock ip
  let d ← copyOf ip
  if type = T_FILE ∧ d.type = T_FILE then pure (some ip)
  else do
    iunlockput ip
    pure none

/-- Create an inode at a path; it is returned locked. -/
def create (cwd : ISlot) (path : List UInt8) (type major minor : Int16) : FsM (Option ISlot) := do
  let r ← nameiparent cwd path
  match r with
  | none => pure none
  | some (dp, name) => do
      ilock dp
      let hit ← dirlookup dp name
      match hit with
      | some (ip, _) => createOld dp ip type
      | none => do
          let ip ← createNew dp name type major minor
          pure (some ip)

def make (cwd : ISlot) (path : Option (List UInt8)) (type major minor : Int16) : FsM Int := do
  beginOp
  let r ← onSome path fun path => do
    let r ← create cwd path type major minor
    onSome r fun ip => do
      iunlockput ip
      pure 0
  endOp
  pure r

/-! ## Opening -/

abbrev O_RDONLY : UInt32 := 0x000
abbrev O_WRONLY : UInt32 := 0x001
abbrev O_RDWR : UInt32 := 0x002
abbrev O_CREATE : UInt32 := 0x200

def openInode (cwd : ISlot) (path : List UInt8) (omode : UInt32) : FsM (Option ISlot) :=
  if omode &&& O_CREATE ≠ 0 then create cwd path T_FILE 0 0
  else do
    let r ← namei cwd path
    match r with
    | none => pure none
    | some ip => do
        ilock ip
        let d ← copyOf ip
        if d.type = T_DIR ∧ omode ≠ O_RDONLY then do
          iunlockput ip
          pure none
        else pure (some ip)

def openFile (p : PSlot) : FileM (Option (FSlot × Fin NOFILE)) := do
  let f ← filealloc
  match f with
  | none => pure none
  | some f => do
      let fd ← fdalloc p f
      match fd with
      | none => do
          fileclose f
          pure none
      | some fd => pure (some (f, fd))

def openRest (p : PSlot) (omode : UInt32) (ip : ISlot) : FileM Int := do
  let r ← openFile p
  match r with
  | none => do
      onFs (iunlockput ip)
      onFs endOp
      pure (-1)
  | some (f, fd) => do
      onFs (iunlock ip)
      onFs endOp
      onFile f fun x => { x with
        type := .inode
        ip := ip
        off := 0
        readable := decide (omode &&& O_WRONLY = 0)
        writable := decide (omode &&& O_WRONLY ≠ 0 ∨ omode &&& O_RDWR ≠ 0) }
      pure fd.val

def sysOpen (p : PSlot) (cwd : ISlot) (path : Option (List UInt8)) (omode : UInt32) : FileM Int :=
  match path with
  | none => pure (-1)
  | some path => do
      onFs beginOp
      let r ← onFs (openInode cwd path omode)
      match r with
      | none => do
          onFs endOp
          pure (-1)
      | some ip => openRest p omode ip

/-! ## Pipes -/

/-- A page that is not a pipe, if there is one. -/
def kalloc (page : Option Nat) : FileM (Option Nat) := look fun s =>
  page.filter fun page => decide (s.pipe page = none)

def pipeFiles (rf wf : FSlot) (page : Option Nat) : FileM (Option (FSlot × FSlot)) := do
  let page ← kalloc page
  match page with
  | none => do
      fileclose rf
      fileclose wf
      pure none
  | some page => do
      change fun s => s.setPipe page (some ⟨true, true⟩)
      onFile rf fun x => { x with type := .pipe, readable := true, writable := false, pipe := page }
      onFile wf fun x => { x with type := .pipe, readable := false, writable := true, pipe := page }
      pure (some (rf, wf))

def pipealloc (page : Option Nat) : FileM (Option (FSlot × FSlot)) := do
  let rf ← filealloc
  match rf with
  | none => pure none
  | some rf => do
      let wf ← filealloc
      match wf with
      | none => do
          fileclose rf
          pure none
      | some wf => pipeFiles rf wf page

def pipeFds (p : PSlot) (rf wf : FSlot) : FileM Int := do
  let fd0 ← fdalloc p rf
  match fd0 with
  | none => do
      fileclose rf
      fileclose wf
      pure (-1)
  | some fd0 => do
      let fd1 ← fdalloc p wf
      match fd1 with
      | none => do
          change fun s => s.setFd p fd0 none
          fileclose rf
          fileclose wf
          pure (-1)
      | some _ => pure 0

/-- `arg` says whether the argument could be fetched. -/
def sysPipe (p : PSlot) (arg : Bool) (page : Option Nat) : FileM Int :=
  if arg then do
    let r ← pipealloc page
    match r with
    | none => pure (-1)
    | some (rf, wf) => pipeFds p rf wf
  else pure (-1)

/-! ## Processes -/

/-- `sys_chdir` with the inode at the path. -/
def chdirTo (cwd ip : ISlot) : FsM Bool := do
  ilock ip
  let d ← copyOf ip
  if d.type ≠ T_DIR then do
    iunlockput ip
    pure false
  else do
    iunlock ip
    iput cwd
    pure true

def chdir (cwd : ISlot) (path : Option (List UInt8)) : FsM (Option ISlot) := do
  beginOp
  match path with
  | none => do
      endOp
      pure none
  | some path => do
      let r ← namei cwd path
      match r with
      | none => do
          endOp
          pure none
      | some ip => do
          let ok ← chdirTo cwd ip
          endOp
          pure (if ok then some ip else none)

def sysChdir (p : PSlot) (cwd : ISlot) (path : Option (List UInt8)) : FileM Int := do
  let r ← onFs (chdir cwd path)
  match r with
  | none => pure (-1)
  | some ip => do
      change fun s => s.setProc p fun t => { t with cwd := some ip }
      pure 0

def closeFd (p : PSlot) (fd : Fin NOFILE) : FileM Unit := do
  let f ← look fun s => (s.proc p).ofile fd
  match f with
  | none => pure ()
  | some f => do
      fileclose f
      change fun s => s.setFd p fd none

def sysExit (p : PSlot) (cwd : ISlot) : FileM Int :=
  if p = initproc then fail (.panic "init exiting")
  else do
    (List.finRange NOFILE).forM (closeFd p)
    onFs beginOp
    onFs (iput cwd)
    onFs endOp
    change fun s => s.setProc p fun t => { t with cwd := none }
    pure 0

/-- The child gets the file of descriptor `fd`. -/
def dupFd (p np : PSlot) (fd : Fin NOFILE) : FileM Unit := do
  let f ← look fun s => (s.proc p).ofile fd
  match f with
  | none => pure ()
  | some f => do
      filedup f
      change fun s => s.setFd np fd (some f)

/-- What `fork` does to files.  `np` is the process from `allocproc`, one that
    does not run; there is none if the process table or the memory is full.
    When the child finds no place in the run queue, the parent exits. -/
def sysFork (p : PSlot) (cwd : ISlot) (np : Option PSlot) (queued : Bool) : FileM Int := do
  let np ← look fun s => np.filter fun np => decide ((s.proc np).cwd = none)
  match np with
  | none => pure (-1)
  | some np => do
      (List.finRange NOFILE).forM (dupFd p np)
      let ip ← onFs (idup cwd)
      change fun s => s.setProc np fun t => { t with cwd := some ip }
      if queued then pure 0 else sysExit p cwd

def readProgram (ip : ISlot) (reads : List (Nat × Nat)) : FsM Unit :=
  reads.forM fun r => do
    let _ ← readi 0 ip r.1 r.2
    pure ()

/-- What `exec` does to files: `reads` are the offsets and lengths it reads
    before it gives up or has loaded the program. -/
def exec (cwd : ISlot) (path : Option (List UInt8)) (reads : List (Nat × Nat)) : FsM Int :=
  onSome path fun path => do
    beginOp
    let r ← namei cwd path
    let r ← onSome r fun ip => do
      ilock ip
      readProgram ip reads
      iunlockput ip
      pure 0
    endOp
    pure r

/-! ## System calls -/

inductive SysCall where
  | fork (np : Option PSlot) (queued : Bool)
  | exit
  | exec (path : Option (List UInt8)) (reads : List (Nat × Nat))
  | openPath (path : Option (List UInt8)) (omode : UInt32)
  | close (fd : Int)
  | dup (fd : Int)
  | pipe (arg : Bool) (page : Option Nat)
  | read (dev : Int) (fd : Int) (n : Option Nat)
  | write (dev : Nat → Int) (fd : Int) (src : Option (List UInt8))
  | fstat (fd : Int) (st : Bool)
  | link (old new : Option (List UInt8))
  | unlink (path : Option (List UInt8))
  | mkdir (path : Option (List UInt8))
  | mknod (path : Option (List UInt8)) (major minor : Int16)
  | chdir (path : Option (List UInt8))

def SysCall.run (p : PSlot) (cwd : ISlot) : SysCall → FileM Int
  | fork np queued => sysFork p cwd np queued
  | exit => sysExit p cwd
  | exec path reads => onFs (Xv6.exec cwd path reads)
  | openPath path omode => sysOpen p cwd path omode
  | close fd => sysClose p fd
  | dup fd => sysDup p fd
  | pipe arg page => sysPipe p arg page
  | read dev fd n => sysRead dev p fd n
  | write dev fd src => sysWrite dev p fd src
  | fstat fd st => sysFstat p fd st
  | link old new => onFs (onSome old fun old => onSome new fun new => Xv6.link cwd old new)
  | unlink path => onFs (onSome path fun path => Xv6.unlink cwd path)
  | mkdir path => onFs (make cwd path T_DIR 0 0)
  | mknod path major minor => onFs (make cwd path T_DEV major minor)
  | chdir path => sysChdir p cwd path

namespace Files

def call (s : Files) (p : PSlot) (c : SysCall) : EStateM.Result Halt Files (Option Int) :=
  match (s.proc p).cwd with
  | none => .ok none s
  | some cwd =>
    match c.run p cwd s with
    | .ok r s' => .ok (some r) s'
    | .error e s' => .error e s'

def step (s : Files) (a : PSlot × SysCall) : Option Files :=
  match s.call a.1 a.2 with
  | .ok _ s' => some s'
  | .error _ _ => none

/-- The first process runs, in the root directory: `userinit` has set its `cwd` to `namei("/")`. -/
def boot (disk : Nat → Block) : Files where
  fs := (Fs.empty disk).setInode 0 fun i => { i with inum := ROOTINO, ref := 1 }
  file := fun _ => ⟨.none, 0, false, false, 0, 0, 0⟩
  pipe := fun _ => none
  proc := fun p => ⟨fun _ => none, if p = initproc then some 0 else none⟩

end Files
end Xv6
