/-
  Xv6.Fs.Crash

  The file system with its log, its buffer cache and its disk, under crashes.

  Operations run between `begin_op` and `end_op`, in any interleaving.  Commits
  and recoveries run the code of `Xv6.Fs.LogCode` on the cache, one section
  under a lock at a time.  A crash may come between any two labels; it loses the
  memory and keeps the disk, and `initlog` is then run by one process alone.

  The fields `op`, `nextOp`, `pending`, `ended` and `committed` are read by no
  function: they record which operation logged what.
-/

import Xv6.Fs.Coherent
import Xv6.Fs.LogCode
import Xv6.Fs.LogInv

namespace Xv6

open Function Transition

/-- A block that an operation passed to `log_write`. -/
structure Update where
  op : Nat
  block : Nat
  data : Block

def replay (base : Nat → Block) : List Update → Nat → Block
  | [] => base
  | u :: us => replay (update base u.block u.data) us

/-- The part of `initlog` that comes next. -/
inductive Boot where
  | readsb
  | readHead
  | log (next : Stage)
deriving DecidableEq

inductive Mode (ι : Type) where
  | down
  /-- The first process is in `initlog`. -/
  | booting (p : ι) (next : Boot)
  | up
deriving DecidableEq

structure Fsys (ι : Type) where
  log : LogState ι
  start : Nat
  cache : Bcache ι Block
  todo : ι → List Instr
  mode : Mode ι
  /-- The operation a process is in. -/
  op : ι → Nat
  nextOp : Nat
  /-- What was logged since the last commit. -/
  pending : List Update
  ended : List Nat
  /-- What the operations of the finished commits logged, in order.  A commit
      is finished when its first `write_head` has written the header. -/
  committed : List Update

inductive FsAct (ι : Type) where
  | bio (a : BufAct ι Block)
  | log (a : LogAct ι)
  | exec (p : ι)
  | initlog (p : ι)
  /-- The next stage of `initlog`. -/
  | recover (p : ι)
  | crash

/-- A disk as mkfs leaves it: the superblock says where the log is, and the log is empty. -/
structure Image where
  disk : Nat → Block
  disksize : Nat
  logstart : Nat
  sb : SbAt logstart (disk 1)
  one : Outside logstart 1
  head : getHead (disk logstart) = []

namespace Fsys

variable {ι : Type} [DecidableEq ι]

/-- The machine is switched on with a disk from mkfs. -/
def boot (img : Image) : Fsys ι where
  log := LogState.boot
  start := 0
  cache := Bcache.boot img.disk img.disksize
  todo := fun _ => []
  mode := .down
  op := fun _ => 0
  nextOp := 0
  pending := []
  ended := []
  committed := []

def holding (s : Fsys ι) (p : ι) (n : Nat) : Option BufPtr :=
  (s.cache.user p).held.find? fun b => decide ((s.cache.buf b).blockno = n)

def setTodo (s : Fsys ι) (p : ι) (is : List Instr) : Fsys ι :=
  { s with todo := update s.todo p is }

def bio (s : Fsys ι) (a : BufAct ι Block) : Option (Fsys ι) :=
  (s.cache.step a).map fun c => { s with cache := c }

/-- What the processes do with the cache outside of log.c.  A block is modified
    inside of an operation only, and the log stays where the superblock says. -/
def Allowed (s : Fsys ι) : BufAct ι Block → Prop
  | .store p b v =>
    s.log.pc p = .inOp ∧ Outside s.start (s.cache.buf b).blockno ∧
      ((s.cache.buf b).blockno = 1 → sbLog v = sbLog (s.cache.buf b).data)
  | .bwrite _ _ | .logWrite _ _ => False
  | .bget p _ | .acquiresleep p | .bread p | .brelse p _ | .unref p =>
    s.log.pc p = .out ∨ s.log.pc p = .inOp

instance (s : Fsys ι) (a : BufAct ι Block) : Decidable (s.Allowed a) := by
  unfold Allowed
  cases a <;> infer_instance

def finish (s : Fsys ι) : Fsys ι :=
  { s with
    committed := s.committed ++ s.pending.filter (·.op ∈ s.ended)
    pending := s.pending.filter (·.op ∉ s.ended)
    ended := [] }

def statement (s : Fsys ι) (p : ι) : Instr → Option (Fsys ι)
  | .bread n => s.bio (.bget p n)
  | .memmove dst src => do
      let d ← s.holding p dst
      let b ← s.holding p src
      s.bio (.store p d (s.cache.buf b).data)
  | .putHead n => do
      let b ← s.holding p n
      s.bio (.store p b (putHead (s.cache.buf b).data s.log.lh))
  | .getHead n => do
      let b ← s.holding p n
      some { s with log := { s.log with lh := getHead (s.cache.buf b).data } }
  | .getSb n => do
      let b ← s.holding p n
      some { s with start := (sbLog (s.cache.buf b).data).2 }
  | .bwrite n commits => do
      let b ← s.holding p n
      let s' ← s.bio (.bwrite p b)
      some (if commits then s'.finish else s')
  | .brelse n => do
      let b ← s.holding p n
      s.bio (.brelse p b)
  -- an assignment to `log.lh.n`, made by `commit` and `recover`
  | .clear => none

/-- A process goes on with its stage. -/
def exec (s : Fsys ι) (p : ι) : Option (Fsys ι) :=
  match (s.cache.user p).pc, s.todo p with
  | .releasing _, _ => s.bio (.unref p)
  | .locking _, .bread _ :: _ => s.bio (.acquiresleep p)
  | .reading _, .bread _ :: is => (s.bio (.bread p)).map (·.setTodo p is)
  | .idle, .bread n :: _ => s.statement p (.bread n)
  | .idle, i :: is => (s.statement p i).map (·.setTodo p is)
  | _, _ => none

/-- The process stands between two statements. -/
def Between (s : Fsys ι) (p : ι) : Prop := (s.cache.user p).pc = .idle ∧ s.todo p = []

instance (s : Fsys ι) (p : ι) : Decidable (s.Between p) := inferInstanceAs (Decidable (_ ∧ _))

/-- The functions of log.c.  The callers of `log_write` hold the buffer, and
    those of `end_op` have logged everything they modified. -/
def logStep (s : Fsys ι) : LogAct ι → Option (Fsys ι)
  | .beginOp p =>
    if s.Between p then
      (s.log.step (.beginOp p)).map fun l =>
        if l.pc p = .inOp then
          { s with log := l, op := update s.op p s.nextOp, nextOp := s.nextOp + 1 }
        else { s with log := l }
    else none
  | .logWrite p n =>
    -- block numbers are `uint`s
    if s.Between p ∧ s.holding p n ≠ none ∧ Outside s.start n ∧ n < 2 ^ 32 then
      (s.log.step (.logWrite p n)).map fun l => { s with log := l }
    else none
  | .record p =>
    match s.log.pc p with
    | .logging n => do
        let b ← s.holding p n
        let l ← s.log.step (.record p)
        let c ← s.cache.step (.logWrite p b)
        some { s with
          log := l, cache := c
          pending := s.pending ++ [⟨s.op p, n, (s.cache.buf b).data⟩] }
    | _ => none
  | .endOp p =>
    if s.Between p ∧ (s.cache.user p).touched = [] then
      (s.log.step (.endOp p)).map fun l => { s with log := l, ended := s.ended ++ [s.op p] }
    else none
  | .commit p =>
    if s.Between p then
      match s.log.pc p, s.log.step (.commit p) with
      | .commit st, some l =>
        some ({ s with log := l }.setTodo p
          ((st.next s.log.lh.length).code s.start s.log.lh))
      | _, _ => none
    else none
  | .commitEnd p =>
    if s.Between p then (s.log.step (.commitEnd p)).map fun l => { s with log := l } else none
  | .wake p => (s.log.step (.wake p)).map fun l => { s with log := l }

def enter (s : Fsys ι) (p : ι) (st : Stage) : Fsys ι :=
  if st = .done then { s with mode := .up }
  else { s.setTodo p (st.code s.start s.log.lh) with mode := .booting p (.log st) }

def recover (s : Fsys ι) (p : ι) : Boot → Fsys ι
  | .readsb => { s.setTodo p (readHead s.start) with mode := .booting p .readHead }
  | .readHead => s.enter p (if 0 < s.log.lh.length then .install 0 else .clear)
  | .log .clear => ({ s with log := { s.log with lh := [] } }).enter p .erase
  | .log st => s.enter p (st.next s.log.lh.length)

def crash (s : Fsys ι) : Fsys ι :=
  { s with
    log := LogState.boot
    start := 0
    cache := Bcache.boot s.cache.disk s.cache.disksize
    todo := fun _ => []
    mode := .down
    pending := []
    ended := [] }

def step (s : Fsys ι) : FsAct ι → Option (Fsys ι)
  | .crash => some s.crash
  | .initlog p =>
    if s.mode = .down then
      some { s.setTodo p readsb with mode := .booting p .readsb }
    else none
  | .recover p =>
    match s.mode with
    | .booting q b => if p = q ∧ s.Between p then some (s.recover p b) else none
    | _ => none
  | .exec p =>
    match s.mode with
    | .booting q _ => if p = q then s.exec p else none
    | .up => if (s.log.pc p).commits = 1 then s.exec p else none
    | .down => none
  | .bio a => if s.mode = .up ∧ s.log.panicked = none ∧ s.Allowed a then s.bio a else none
  | .log a => if s.mode = .up then s.logStep a else none

/-- Every block outside the log area holds what the committed operations, and
    nothing but these, have made of it. -/
def Restored (img : Image) (s : Fsys ι) : Prop :=
  ∀ n, Outside img.logstart n → s.cache.disk n = replay img.disk s.committed n ∧
    s.cache.contents n = replay img.disk s.committed n

end Fsys
end Xv6
