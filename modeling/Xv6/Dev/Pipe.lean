/-
  Xv6.Dev.Pipe

  One pipe with any number of readers and writers (pipe.c).

  `pipewrite` and `piperead` run under `p->lock` from one `sleep` to the next;
  the functions below compute one such section.  A process that was woken runs
  its next section from the condition of its loop.

  The system also records, for the statements only, the bytes each `pipewrite`
  was given, the bytes stored (with the call that stored them) and the bytes
  handed out.
-/

import Xv6.Lib.Ring
import Xv6.Lib.Transition

namespace Xv6

open Function

abbrev PIPESIZE : ℕ := 512

/-- `struct pipe`, without its lock. -/
structure PipeBuf where
  data : Fin PIPESIZE → UInt8
  nread : UInt32
  nwrite : UInt32
  readopen : Bool
  writeopen : Bool

inductive PipeChan
  | nread
  | nwrite
deriving DecidableEq

inductive PipeExit
  | sleep
  | ret (r : ℤ)
deriving DecidableEq

/-- What a lock section did: the bytes it stored or copied, what is left to
    store, the channel it woke and how it ended. -/
structure PipeSection where
  buf : PipeBuf
  bytes : List UInt8
  rest : List UInt8
  wakes : Option PipeChan
  ends : PipeExit

namespace PipeBuf

def alloc (data : Fin PIPESIZE → UInt8) : PipeBuf where
  data := data
  nread := 0
  nwrite := 0
  readopen := true
  writeopen := true

def full (b : PipeBuf) : Bool := b.nwrite == b.nread + UInt32.ofNat PIPESIZE

def empty (b : PipeBuf) : Bool := b.nread == b.nwrite

/-- `p->data[p->nwrite++ % PIPESIZE] = c` -/
def put (b : PipeBuf) (c : UInt8) : PipeBuf :=
  { b with
    data := update b.data (Ring.cell PIPESIZE b.nwrite.toNat) c
    nwrite := b.nwrite + 1 }

/-- `p->data[p->nread++ % PIPESIZE]` -/
def next (b : PipeBuf) : UInt8 := b.data (Ring.cell PIPESIZE b.nread.toNat)

def skip (b : PipeBuf) : PipeBuf := { b with nread := b.nread + 1 }

def pipewrite (killed : Bool) (n : ℤ) : List UInt8 → PipeBuf → PipeSection
  | [], b => ⟨b, [], [], some .nread, .ret n⟩
  | c :: rest, b =>
    if b.full then
      if !b.readopen || killed then
        ⟨b, [], c :: rest, none, .ret (-1)⟩
      else
        ⟨b, [], c :: rest, some .nread, .sleep⟩
    else
      let r := pipewrite killed n rest (b.put c)
      { r with bytes := c :: r.bytes }

def drain : ℕ → PipeBuf → PipeBuf × List UInt8
  | 0, b => (b, [])
  | n + 1, b =>
    if b.empty then
      (b, [])
    else
      let r := drain n b.skip
      (r.1, b.next :: r.2)

/-- A section of `piperead(p, addr, n)`. -/
def piperead (killed : Bool) (n : ℤ) (b : PipeBuf) : PipeSection :=
  if b.empty && b.writeopen then
    if killed then
      ⟨b, [], [], none, .ret (-1)⟩
    else
      ⟨b, [], [], none, .sleep⟩
  else
    let r := b.drain n.toNat
    ⟨r.1, r.2, [], some .nwrite, .ret r.2.length⟩

def close (b : PipeBuf) (writable : Bool) : PipeBuf :=
  if writable then { b with writeopen := false } else { b with readopen := false }

def isOpen (b : PipeBuf) (writable : Bool) : Bool := if writable then b.writeopen else b.readopen

end PipeBuf

/-- Where a process is: outside the pipe's functions, or inside `pipewrite` or `piperead`, asleep or
    woken.  A write carries the number of the call and the bytes still to store. -/
inductive PipePc
  | user
  | write (id : ℕ) (n : ℤ) (rest : List UInt8) (asleep : Bool)
  | read (n : ℤ) (asleep : Bool)
deriving DecidableEq

namespace PipePc

def chan : PipePc → Option PipeChan
  | .write _ _ _ true => some .nwrite
  | .read _ true => some .nread
  | _ => none

def awake : PipePc → PipePc
  | .user => .user
  | .write id n rest _ => .write id n rest false
  | .read n _ => .read n false

@[simp] theorem chan_awake (pc : PipePc) : pc.awake.chan = none := by cases pc <;> rfl

end PipePc

/-- The pipe and the processes `ι` that use it. -/
structure PipeSys (ι : Type) where
  buf : PipeBuf
  pc : ι → PipePc
  killed : ι → Bool
  src : ℕ → List UInt8
  calls : ℕ
  stored : List (ℕ × UInt8)
  returned : List UInt8

inductive PipeAct (ι : Type)
  | write (p : ι) (n : ℤ) (addr : ℕ → UInt8)
  | read (p : ι) (n : ℤ)
  | resume (p : ι)
  | close (writable : Bool)
  | kill (p : ι)

namespace PipeSys

variable {ι : Type} [DecidableEq ι]

def init (data : Fin PIPESIZE → UInt8) : PipeSys ι where
  buf := .alloc data
  pc := fun _ => .user
  killed := fun _ => false
  src := fun _ => []
  calls := 0
  stored := []
  returned := []

def wakeup (s : PipeSys ι) (c : PipeChan) : PipeSys ι :=
  { s with pc := fun p => if (s.pc p).chan = some c then (s.pc p).awake else s.pc p }

def wakes (s : PipeSys ι) (c : Option PipeChan) : PipeSys ι := c.elim s s.wakeup

def runWrite (s : PipeSys ι) (p : ι) (id : ℕ) (n : ℤ) (rest : List UInt8) : PipeSys ι :=
  let r := s.buf.pipewrite (s.killed p) n rest
  { s with
    buf := r.buf
    pc := update (s.wakes r.wakes).pc p
      (match r.ends with | .sleep => .write id n r.rest true | .ret _ => .user)
    stored := s.stored ++ r.bytes.map (Prod.mk id) }

def runRead (s : PipeSys ι) (p : ι) (n : ℤ) : PipeSys ι :=
  let r := s.buf.piperead (s.killed p) n
  { s with
    buf := r.buf
    pc := update (s.wakes r.wakes).pc p
      (match r.ends with | .sleep => .read n true | .ret _ => .user)
    returned := s.returned ++ r.bytes }

def call (s : PipeSys ι) (src : List UInt8) : PipeSys ι :=
  { s with src := update s.src s.calls src, calls := s.calls + 1 }

def bytesAt (addr : ℕ → UInt8) (n : ℤ) : List UInt8 := (List.range n.toNat).map addr

/-- The end is closed and its sleepers' channel is woken. -/
def pipeclose (s : PipeSys ι) (writable : Bool) : PipeSys ι :=
  { s.wakeup (if writable then .nread else .nwrite) with buf := s.buf.close writable }

def kill (s : PipeSys ι) (p : ι) : PipeSys ι :=
  { s with
    pc := update s.pc p (s.pc p).awake
    killed := update s.killed p true }

/-- One step.  A call comes through an open file of its end; the page is freed
    when both ends are closed, and nobody runs in it after that. -/
def step (s : PipeSys ι) : PipeAct ι → Option (PipeSys ι)
  | .write p n addr =>
    if s.pc p = .user ∧ s.buf.writeopen = true then
      some ((s.call (bytesAt addr n)).runWrite p s.calls n (bytesAt addr n))
    else none
  | .read p n =>
    if s.pc p = .user ∧ s.buf.readopen = true then some (s.runRead p n) else none
  | .resume p =>
    if s.buf.readopen || s.buf.writeopen then
      match s.pc p with
      | .write id n rest false => some (s.runWrite p id n rest)
      | .read n false => some (s.runRead p n)
      | _ => none
    else none
  | .close writable => if s.buf.isOpen writable then some (s.pipeclose writable) else none
  | .kill p => some (s.kill p)

/-- What a step does.  `t` is the state in which the section of a writer runs:
    the state itself, or the one in which its call has got a number. -/
inductive Does (s : PipeSys ι) : PipeSys ι → Prop
  | begin (p : ι) (n : ℤ) (src : List UInt8) (hp : s.pc p = .user) :
      Does s ((s.call src).runWrite p s.calls n src)
  | write (p : ι) (id : ℕ) (n : ℤ) (rest : List UInt8) (hp : s.pc p = .write id n rest false) :
      Does s (s.runWrite p id n rest)
  | read (p : ι) (n : ℤ) (hp : s.pc p = .user ∨ s.pc p = .read n false) : Does s (s.runRead p n)
  | close (writable : Bool) : Does s (s.pipeclose writable)
  | kill (p : ι) : Does s (s.kill p)

variable {s s' : PipeSys ι} {a : PipeAct ι}

theorem does_of_step (h : s.step a = some s') : Does s s' := by
  cases a with
  | write p n addr =>
    simp only [step] at h
    split at h
    · cases h
      exact .begin p n _ (by tauto)
    · cases h
  | read p n =>
    simp only [step] at h
    split at h
    · cases h
      exact .read p n (.inl (by tauto))
    · cases h
  | resume p =>
    simp only [step] at h
    split at h
    · split at h
      · cases h
        exact .write p _ _ _ (by assumption)
      · cases h
        exact .read p _ (.inr (by assumption))
      · cases h
    · cases h
  | close writable =>
    simp only [step] at h
    split at h
    · cases h
      exact .close writable
    · cases h
  | kill p =>
    cases h
    exact .kill p

end PipeSys

end Xv6
