/-
  Xv6.Proc.Basic

  The data of `proc.h` and `param.h` that the process code works on.

  Pointers into `ptable.proc` are slots (`Fin NPROC`); a null pointer is
  `none`.  Three components are not variables of the source:

    * `Context` names the place `p->context` resumes at;
    * `Frame` is what a process keeps on its kernel stack between two
      separately locked parts of one call;
    * `trace` and `calls` record events, newest first, and are read by no
      function.
-/

import Mathlib.Tactic

namespace Xv6

abbrev NPROC : Nat := 64

abbrev PLEVELS : Int := 5

abbrev MOD : Int := 65

abbrev INT_MAX : Int := 2 ^ 31 - 1

/-- A pointer into `ptable.proc`. -/
abbrev Slot := Fin NPROC

def slots : List Slot := List.finRange NPROC

@[simp] theorem mem_slots (p : Slot) : p ∈ slots := List.mem_finRange p

inductive ProcState where
  | UNUSED | EMBRYO | SLEEPING | RUNNABLE | RUNNING | ZOMBIE
deriving DecidableEq

/-- The two compile-time schedulers: `CUSTOM_SCHEDULER` undefined (priority
    queues) and defined (round robin). -/
inductive Build where
  | priority | custom
deriving DecidableEq

/-- A sleep channel: the null pointer, a process, or any other address. -/
inductive Chan where
  | null
  | proc (p : Slot)
  | addr (a : Nat)
deriving DecidableEq

def Chan.ofProc : Option Slot → Chan
  | none => .null
  | some p => .proc p

/-- Where `p->context` resumes: a new child in `forkret`, the others behind
    the `sched()` of `yield`, of `sleep`, or of the `sleep` inside `wait`. -/
inductive Context where
  | forkret | yield | sleep | wait
deriving DecidableEq

/-- `struct proc`, without the file-system fields and the trap frame. -/
structure Proc where
  sz : Nat
  pgdir : Option Nat
  kstack : Option Nat
  state : ProcState
  pid : Int
  parent : Option Slot
  context : Context
  chan : Chan
  killed : Bool
  name : String
  priority : Int
deriving DecidableEq

/-- A slot as the zero-filled `ptable` holds it at boot. -/
def Proc.zero : Proc where
  sz := 0
  pgdir := none
  kstack := none
  state := .UNUSED
  pid := 0
  parent := none
  context := .forkret
  chan := .null
  killed := false
  name := ""
  priority := 0

/-- A system call between two of its parts that run without `ptable.lock` in
    between; `idle` when no such call is under way. -/
inductive Frame where
  | idle
  | forkKalloc (np : Slot)
  /-- `fork`: `allocproc` has returned `np`. -/
  | forkCopy (np : Slot)
  | forkReady (np : Slot)
  /-- `nice`: `p` is found and `ptable.lock` released. -/
  | niceSet (p : Slot) (priority : Int)
  | niceRemove (p : Slot) (old priority : Int)
  /-- `nice`: `add_process_to_queue` is next. -/
  | niceAdd (p : Slot) (priority : Int)
  | exiting
deriving DecidableEq

/-- What a run is remembered for. -/
inductive Event where
  /-- `fork` by the process `parent` returned `child`. -/
  | forked (parent child : Int)
  /-- The process `pid` became a zombie. -/
  | exited (pid : Int)
  /-- `wait` by the process `parent` returned `child`. -/
  | reaped (parent child : Int)
  | dispatched (cpu : Nat) (p : Slot) (found : ProcState)
deriving DecidableEq

/-- `struct cpu`: the running process, and the variable `p` of the
    `scheduler()` that runs on this CPU. -/
structure Cpu where
  proc : Option Slot
  p : Option Slot
deriving DecidableEq

end Xv6
