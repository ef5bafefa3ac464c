/-
  Xv6.Proc.Machine

  Two transition systems over the functions of `Xv6.Proc.Kernel`.

  `step` interleaves: one label is one section under `ptable.lock`, or one of
  the unlocked parts of `allocproc`, `fork` and `nice`.  A switch to a process
  ends a label too, with the lock in the hands of that CPU until `resume`.  The
  label `race` replaces the queue arrays by arbitrary ones, for whatever the
  unlocked accesses of `nice` do to them in the middle of other sections.

  `sysStep` runs every system call to its end as one step.
-/

import Xv6.Proc.Kernel

namespace Xv6

open Transition

/-- One label of the interleaved machine; `i` is the CPU it happens on. -/
inductive Act where
  | userinit (kstack pgdir : Nat)
  | scheduler (i : Nat)
  | resume (i : Nat)
  | forkAlloc (i : Nat)
  | forkKalloc (i : Nat) (kalloc : Option Nat)
  | forkCopy (i : Nat) (copyuvm : Option Nat)
  | forkReady (i : Nat)
  | exit (i : Nat)
  | wait (i : Nat)
  | yield (i : Nat)
  | sleep (i : Nat) (chan : Chan)
  | wakeup (chan : Chan)
  | kill (i : Nat) (pid : Int)
  | niceFind (i : Nat) (pid priority : Int)
  | niceSet (i : Nat)
  | niceRemove (i : Nat)
  | niceAdd (i : Nat)
  /-- The default branch of `trap`: `proc->killed = 1`. -/
  | fault (i : Nat)
  | race (rq : RunQueue)

/-- One label of the machine with atomic system calls. -/
inductive Sys where
  | userinit (kstack pgdir : Nat)
  | scheduler (i : Nat)
  | resume (i : Nat)
  | fork (i : Nat) (kalloc copyuvm : Option Nat)
  | exit (i : Nat)
  | wait (i : Nat)
  | yield (i : Nat)
  | sleep (i : Nat) (chan : Chan)
  | wakeup (chan : Chan)
  | kill (i : Nat) (pid : Int)
  | nice (i : Nat) (pid priority : Int)
  | fault (i : Nat)

namespace Kernel

/-- Do `f` with the process that runs on CPU `i`. -/
def onCpu (k : Kernel) (i : Nat) (f : Slot → Option Kernel) : Option Kernel :=
  (k.cpu i).proc.bind f

/-- A call that may return normally or run into `exit()`. -/
def settle (c : Slot) : Kernel × Outcome → Kernel
  | (k, .ret _) => k.setFrame c .idle
  | (k, .exits) => k.setFrame c .exiting

/-- The interleaved machine.  There is no step where the code panics (`init` exiting) and none where
    `nextpid++` would overflow, which C leaves undefined. -/
def step (b : Build) (k : Kernel) : Act → Option Kernel
  | .userinit kstack pgdir =>
    if k.initproc = none ∧ k.lock = none ∧ k.nextpid < INT_MAX then
      k.firstUnused.map fun p => k.userinit b p kstack pgdir
    else none
  | .scheduler i =>
    if k.lock = none ∧ (k.cpu i).proc = none then some (k.scheduler b i) else none
  | .resume i => k.onCpu i fun c =>
    if k.lock = some i then some (k.resume b i c) else none
  | .forkAlloc i => k.onCpu i fun c =>
    if k.lock = none ∧ k.frame c = .idle then
      match k.firstUnused with
      | none => some k
      | some np =>
        if k.nextpid < INT_MAX then
          some ((k.allocproc np).setFrame c (.forkKalloc np))
        else none
    else none
  | .forkKalloc i kalloc => k.onCpu i fun c =>
    match k.frame c with
    | .forkKalloc np =>
      if k.lock ≠ some i then
        some ((k.allocStack np kalloc).setFrame c
          (if kalloc.isSome then .forkCopy np else .idle))
      else none
    | _ => none
  | .forkCopy i copyuvm => k.onCpu i fun c =>
    match k.frame c with
    | .forkCopy np =>
      if k.lock ≠ some i then
        some ((k.forkCopy c np copyuvm).setFrame c
          (if copyuvm.isSome then .forkReady np else .idle))
      else none
    | _ => none
  | .forkReady i => k.onCpu i fun c =>
    match k.frame c with
    | .forkReady np =>
      if k.lock = none then some (settle c (k.forkReady b c np)) else none
    | _ => none
  | .exit i => k.onCpu i fun c =>
    if k.lock = none ∧ (k.frame c = .idle ∨ k.frame c = .exiting) ∧ k.initproc ≠ some c then
      some ((k.setFrame c .idle).exit b i c)
    else none
  | .wait i => k.onCpu i fun c =>
    if k.lock = none ∧ k.frame c = .idle then some (k.wait b i c) else none
  | .yield i => k.onCpu i fun c =>
    if k.lock = none then some (k.yield b i c) else none
  | .sleep i chan => k.onCpu i fun c =>
    if k.lock = none ∧ (k.frame c = .idle ∨ k.frame c = .exiting) then
      some (k.sleep b i c chan .sleep)
    else none
  | .wakeup chan => if k.lock = none then some (k.wakeup1 b chan) else none
  | .kill i pid => k.onCpu i fun c =>
    if k.lock = none ∧ k.frame c = .idle then some (settle c (k.kill b pid)) else none
  | .niceFind i pid priority => k.onCpu i fun c =>
    if k.lock = none ∧ k.frame c = .idle then
      some (k.setFrame c (match k.niceFind pid priority with
        | some p => .niceSet p priority
        | none => .exiting))
    else none
  | .niceSet i => k.onCpu i fun c =>
    match k.frame c with
    | .niceSet p priority =>
      if k.lock ≠ some i then
        some ((k.niceSet p priority).setFrame c (.niceRemove p (k.priority p) priority))
      else none
    | _ => none
  | .niceRemove i => k.onCpu i fun c =>
    match k.frame c with
    | .niceRemove p old priority =>
      if k.lock ≠ some i then
        some ((k.removeProcessFromQueue p old).1.setFrame c (.niceAdd p priority))
      else none
    | _ => none
  | .niceAdd i => k.onCpu i fun c =>
    match k.frame c with
    | .niceAdd p priority =>
      if k.lock ≠ some i then
        some ((k.addProcessToQueue p priority).1.setFrame c .idle)
      else none
    | _ => none
  | .fault i => k.onCpu i fun c =>
    if k.lock ≠ some i then some (k.setProc c fun r => { r with killed := true }) else none
  | .race rq => some { k with rq := rq }

/-- `exit()` called by `c`, which panics in `initproc`. -/
def exitOrPanic (b : Build) (k : Kernel) (i : Nat) (c : Slot) : Option Kernel :=
  if k.initproc = some c then none else some (k.exit b i c)

/-- The rest of a call: back to its caller, or `exit()`. -/
def finish (b : Build) (i : Nat) (c : Slot) : Kernel × Outcome → Option Kernel
  | (k, .ret _) => some k
  | (k, .exits) => k.exitOrPanic b i c

def fork (b : Build) (k : Kernel) (i : Nat) (c : Slot) (kalloc copyuvm : Option Nat) :
    Option Kernel :=
  match k.firstUnused with
  | none => some k
  | some np =>
    if k.nextpid < INT_MAX then
      if kalloc = none then some ((k.allocproc np).allocStack np none)
      else if copyuvm = none then
        some (((k.allocproc np).allocStack np kalloc).forkCopy c np none)
      else
        finish b i c
          ((((k.allocproc np).allocStack np kalloc).forkCopy c np copyuvm).forkReady b c np)
    else none

/-- The machine with atomic system calls. -/
def sysStep (b : Build) (k : Kernel) : Sys → Option Kernel
  | .userinit kstack pgdir => k.step b (.userinit kstack pgdir)
  | .scheduler i => k.step b (.scheduler i)
  | .resume i => k.step b (.resume i)
  | .fork i kalloc copyuvm => k.onCpu i fun c =>
    if k.lock = none then k.fork b i c kalloc copyuvm else none
  | .exit i => k.onCpu i fun c => if k.lock = none then k.exitOrPanic b i c else none
  | .wait i => k.onCpu i fun c => if k.lock = none then some (k.wait b i c) else none
  | .yield i => k.step b (.yield i)
  | .sleep i chan => k.onCpu i fun c =>
    if k.lock = none then some (k.sleep b i c chan .sleep) else none
  | .wakeup chan => k.step b (.wakeup chan)
  | .kill i pid => k.onCpu i fun c =>
    if k.lock = none then finish b i c (k.kill b pid) else none
  | .nice i pid priority => k.onCpu i fun c =>
    if k.lock = none then
      match k.niceFind pid priority with
      | none => k.exitOrPanic b i c
      | some p => some (k.niceTail p priority)
    else none
  | .fault i => k.step b (.fault i)

end Kernel
end Xv6
