/-
  Xv6.Proc.Kernel

  The functions of proc.c as transformers of one kernel state.  A function
  that gives up `ptable.lock` in the middle (`fork`, `nice`) is cut there; the
  parts are put together in `Xv6.Proc.Machine`.

  `kalloc()` and `copyuvm()` appear through their results, which the caller of
  the model supplies.
-/

import Xv6.Proc.RunQueue

namespace Xv6

open Function

/-- The state the process code reads and writes. -/
structure Kernel where
  proc : Slot → Proc
  rq : RunQueue
  nextpid : Int
  initproc : Option Slot
  cpu : Nat → Cpu
  lock : Option Nat
  frame : Slot → Frame
  trace : List Event
  calls : List Int

inductive Outcome where
  | ret (v : Int)
  | exits
deriving DecidableEq

namespace Kernel

def boot : Kernel where
  proc := fun _ => Proc.zero
  rq := RunQueue.empty
  nextpid := 1
  initproc := none
  cpu := fun _ => ⟨none, none⟩
  lock := none
  frame := fun _ => .idle
  trace := []
  calls := []

/-! ## Field access -/

abbrev state (k : Kernel) (p : Slot) : ProcState := (k.proc p).state
abbrev pid (k : Kernel) (p : Slot) : Int := (k.proc p).pid
abbrev parent (k : Kernel) (p : Slot) : Option Slot := (k.proc p).parent
abbrev priority (k : Kernel) (p : Slot) : Int := (k.proc p).priority

abbrev row (k : Kernel) (l : Int) : List Slot := k.rq.row l

def setProc (k : Kernel) (p : Slot) (f : Proc → Proc) : Kernel :=
  { k with proc := update k.proc p (f (k.proc p)) }

def setFrame (k : Kernel) (c : Slot) (f : Frame) : Kernel :=
  { k with frame := update k.frame c f }

def setCpu (k : Kernel) (i : Nat) (c : Cpu) : Kernel :=
  { k with cpu := update k.cpu i c }

def log (k : Kernel) (e : Event) : Kernel :=
  { k with trace := e :: k.trace }

/-! ## The run queues -/

def addProcessToQueue (k : Kernel) (p : Slot) (pr : Int) : Kernel × Int :=
  ({ k with rq := (k.rq.add k.pid p pr).1, calls := pr :: k.calls }, (k.rq.add k.pid p pr).2)

def removeProcessFromQueue (k : Kernel) (p : Slot) (pr : Int) : Kernel × Int :=
  ({ k with rq := (k.rq.remove k.pid p pr).1, calls := pr :: k.calls }, (k.rq.remove k.pid p pr).2)

/-- `#ifndef CUSTOM_SCHEDULER` `add_process_to_queue(p, p->priority-1)` `#endif`. -/
def enqueue (b : Build) (k : Kernel) (p : Slot) : Kernel × Int :=
  match b with
  | .priority => k.addProcessToQueue p (k.priority p - 1)
  | .custom => (k, 1)

def makeRunnable (b : Build) (k : Kernel) (p : Slot) : Kernel × Int :=
  (k.setProc p fun r => { r with state := .RUNNABLE }).enqueue b p

/-! ## `allocproc`, `fork` -/

def firstUnused (k : Kernel) : Option Slot :=
  slots.find? fun p => decide (k.state p = .UNUSED)

/-- `allocproc`, `found:` up to `release`. -/
def allocproc (k : Kernel) (p : Slot) : Kernel :=
  { k.setProc p fun r => { r with state := .EMBRYO, pid := k.nextpid, priority := 3 } with
    nextpid := k.nextpid + 1 }

/-- `allocproc` behind `release`: the kernel stack and the context, or back to
    `UNUSED` when `kalloc` fails. -/
def allocStack (k : Kernel) (np : Slot) (kalloc : Option Nat) : Kernel :=
  match kalloc with
  | none => k.setProc np fun r => { r with kstack := none, state := .UNUSED }
  | some page => k.setProc np fun r => { r with kstack := some page, context := .forkret }

/-- `fork` behind `allocproc`: copy the process state, or give the slot back
    when `copyuvm` fails. -/
def forkCopy (k : Kernel) (c np : Slot) (copyuvm : Option Nat) : Kernel :=
  match copyuvm with
  | none => k.setProc np fun r => { r with pgdir := none, kstack := none, state := .UNUSED }
  | some pgdir => k.setProc np fun r =>
    { r with pgdir := some pgdir, sz := (k.proc c).sz, parent := some c, name := (k.proc c).name }

def forkReady (b : Build) (k : Kernel) (c np : Slot) : Kernel × Outcome :=
  let (k', res) := k.makeRunnable b np
  if res = -1 then (k', .exits)
  else (k'.log (.forked (k.pid c) (k.pid np)), .ret (k.pid np))

def userinit (b : Build) (k : Kernel) (p : Slot) (kstack pgdir : Nat) : Kernel :=
  let k := (k.allocproc p).allocStack p (some kstack)
  let k := { k with initproc := some p }
  let k := k.setProc p fun r => { r with pgdir := some pgdir, sz := 4096, name := "initcode" }
  (k.makeRunnable b p).1

/-! ## `wakeup1`, `kill` -/

def wakeOne (b : Build) (chan : Chan) (k : Kernel) (p : Slot) : Kernel :=
  if k.state p = .SLEEPING ∧ (k.proc p).chan = chan then (k.makeRunnable b p).1 else k

def wakeup1 (b : Build) (k : Kernel) (chan : Chan) : Kernel :=
  slots.foldl (wakeOne b chan) k

def findPid (k : Kernel) (pid : Int) : Option Slot :=
  slots.find? fun p => decide (k.pid p = pid)

/-- `kill`.  The enqueue stands below the `SLEEPING` test but is not part of its branch. -/
def kill (b : Build) (k : Kernel) (pid : Int) : Kernel × Outcome :=
  match k.findPid pid with
  | none => (k, .ret (-1))
  | some p =>
    let k := k.setProc p fun r => { r with killed := true }
    let k := if k.state p = .SLEEPING then
        k.setProc p fun r => { r with state := .RUNNABLE } else k
    -- for every process found, asleep or not
    let (k, res) := k.enqueue b p
    if res = -1 then (k, .exits) else (k, .ret 0)

/-! ## `nice` -/

/-- The checks of `nice` and its search: the slot found, or `none` when the
    call ends in `exit()`. -/
def niceFind (k : Kernel) (pid priority : Int) : Option Slot :=
  if priority < 1 ∨ priority > 5 then none else k.findPid pid

def niceSet (k : Kernel) (p : Slot) (priority : Int) : Kernel :=
  k.setProc p fun r => { r with priority := priority }

/-- The unlocked rest of `nice`.  The levels are the priorities themselves,
    not the priorities minus one. -/
def niceTail (k : Kernel) (p : Slot) (priority : Int) : Kernel :=
  let old := k.priority p
  let k := (k.niceSet p priority).removeProcessFromQueue p old
  (k.1.addProcessToQueue p priority).1

/-! ## The scheduler -/

/-- Switch CPU `i` to `p`: the process leaves `swtch` holding `ptable.lock`. -/
def dispatch (k : Kernel) (i : Nat) (p : Slot) : Kernel :=
  { (k.setProc p fun r => { r with state := .RUNNING }).setCpu i ⟨some p, some p⟩ with
    lock := some i, trace := .dispatched i p (k.state p) :: k.trace }

def levels : List Int := [0, 1, 2, 3, 4]

def firstLevel (k : Kernel) : Option Int :=
  levels.find? fun l => decide (0 < k.rq.marker l)

/-- The loop of the priority scheduler: pop the first entry of the first level
    that has one, and leave `p` as it was when there is none. -/
def pop (k : Kernel) (i : Nat) : Kernel :=
  match k.firstLevel with
  | none => k
  | some l =>
    let k' := k.setCpu i { k.cpu i with p := k.rq.priorityQ l 0 }
    match k.rq.priorityQ l 0 with
    | none => k'
    | some p => (k'.removeProcessFromQueue p l).1

def choice (k : Kernel) (i : Nat) : Option Slot :=
  (k.cpu i).p.filter fun p => decide (k.state p = .RUNNABLE)

def nextRunnable (k : Kernel) (n : Nat) : Option Slot :=
  slots.find? fun p => decide (n ≤ p.val) && decide (k.state p = .RUNNABLE)

def scanFrom (k : Kernel) (i n : Nat) : Kernel :=
  match k.nextRunnable n with
  | some p => k.dispatch i p
  | none => { k.setCpu i ⟨none, none⟩ with lock := none }

def scheduler (b : Build) (k : Kernel) (i : Nat) : Kernel :=
  match b with
  | .priority =>
    let k := k.pop i
    -- an entry that is not `RUNNABLE` has been dropped all the same
    match k.choice i with
    | some p => k.dispatch i p
    | none => k
  | .custom => k.scanFrom i 0

def swtchBack (b : Build) (k : Kernel) (i : Nat) : Kernel :=
  let k' := k.setCpu i { k.cpu i with proc := none }
  match b with
  | .priority => { k' with lock := none }
  | .custom => k'.scanFrom i ((k.cpu i).p.elim 0 fun p => p.val + 1)

/-! ## `yield`, `sleep`, `exit`, `wait` -/

def yield (b : Build) (k : Kernel) (i : Nat) (c : Slot) : Kernel :=
  let k := (k.makeRunnable b c).1
  (k.setProc c fun r => { r with context := .yield }).swtchBack b i

def sleep (b : Build) (k : Kernel) (i : Nat) (c : Slot) (chan : Chan) (ctx : Context) : Kernel :=
  (k.setProc c fun r => { r with chan := chan, state := .SLEEPING, context := ctx }).swtchBack b i

def reparentOne (b : Build) (c : Slot) (k : Kernel) (p : Slot) : Kernel :=
  if k.parent p = some c then
    let k := k.setProc p fun r => { r with parent := k.initproc }
    if k.state p = .ZOMBIE then k.wakeup1 b (Chan.ofProc k.initproc) else k
  else k

def passChildren (b : Build) (k : Kernel) (c : Slot) : Kernel :=
  slots.foldl (reparentOne b c) (k.wakeup1 b (Chan.ofProc (k.parent c)))

/-- `exit()` from `acquire` to `sched()`. -/
def exit (b : Build) (k : Kernel) (i : Nat) (c : Slot) : Kernel :=
  let k := (k.passChildren b c).setProc c fun r => { r with state := .ZOMBIE }
  (k.log (.exited (k.pid c))).swtchBack b i

/-- The child the loop in `wait` stops at. -/
def zombieChild (k : Kernel) (c : Slot) : Option Slot :=
  slots.find? fun p => decide (k.parent p = some c) && decide (k.state p = .ZOMBIE)

/-- `wait()`, `// Found one.`  The pid is cleared before the queue is searched for it. -/
def reap (b : Build) (k : Kernel) (c p : Slot) : Kernel :=
  let pid := k.pid p
  let k := k.setProc p fun r =>
    { r with kstack := none, pid := 0, parent := none, name := "", killed := false, state := .UNUSED }
  let k := match b with
    -- searches for pid 0 by now
    | .priority => (k.removeProcessFromQueue p (k.priority p - 1)).1
    | .custom => k
  k.log (.reaped (k.pid c) pid)

def wait (b : Build) (k : Kernel) (i : Nat) (c : Slot) : Kernel :=
  match k.zombieChild c with
  | some p => { k.reap b c p with lock := none }
  | none =>
    if (slots.any fun p => decide (k.parent p = some c)) = false ∨ (k.proc c).killed then
      { k with lock := none }
    else k.sleep b i c (.proc c) .wait

def resume (b : Build) (k : Kernel) (i : Nat) (c : Slot) : Kernel :=
  match (k.proc c).context with
  | .forkret | .yield => { k with lock := none }
  | .sleep => { k.setProc c fun r => { r with chan := .null } with lock := none }
  | .wait => (k.setProc c fun r => { r with chan := .null }).wait b i c

end Kernel
end Xv6
