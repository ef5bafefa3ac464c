/-
  Xv6.Fs.Log

  The control part of log.c: who may start an operation, what `log_write`
  records, and who commits.

  One label is one section under `log.lock`, the two tests `log_write` makes
  before it takes the lock, or one step of `commit()`, which runs without the
  lock.  What `commit()` does to buffers and disk is added in `Xv6.Fs.Crash`.

  The log is as large as mkfs makes it: `sb.nlog = LOGSIZE`.  `wrote` and
  `group` are read by no function.
-/

import Xv6.Lib.Counting
import Xv6.Lib.Transition

namespace Xv6

open Function Transition

abbrev MAXOPBLOCKS : Nat := 10

abbrev LOGSIZE : Nat := MAXOPBLOCKS * 3

abbrev nlog : Nat := LOGSIZE

/-- The step of `commit()` that comes next. -/
inductive Stage where
  /-- `if (log.lh.n > 0)`. -/
  | test
  /-- The body of the loop in `write_log`. -/
  | writeLog (tail : Nat)
  | writeHead
  | install (tail : Nat)
  | clear
  | erase
  | done
deriving DecidableEq

inductive LogPc where
  | out
  /-- In `begin_op`, woken up or not yet asleep. -/
  | begins
  /-- `SLEEPING` on `&log` in `begin_op`. -/
  | asleep
  | inOp
  /-- In `log_write` for a block, behind its two tests. -/
  | logging (b : Nat)
  /-- In the `commit()` of `end_op`. -/
  | commit (next : Stage)
deriving DecidableEq

/-- `struct log` and the places of the processes. -/
structure LogState (ι : Type) where
  outstanding : Int
  committing : Bool
  /-- `log.lh.block[0..n)`. -/
  lh : List Nat
  pc : ι → LogPc
  wrote : ι → List Nat
  group : List Nat
  panicked : Option String

inductive LogAct (ι : Type) where
  | beginOp (p : ι)
  | logWrite (p : ι) (b : Nat)
  | record (p : ι)
  | endOp (p : ι)
  | commit (p : ι)
  | commitEnd (p : ι)
  /-- A sleeper is woken by `kill`. -/
  | wake (p : ι)
deriving DecidableEq

def Stage.next (n : Nat) : Stage → Stage
  | .test => if 0 < n then .writeLog 0 else .done
  | .writeLog tail => if tail + 1 < n then .writeLog (tail + 1) else .writeHead
  | .writeHead => if 0 < n then .install 0 else .clear
  | .install tail => if tail + 1 < n then .install (tail + 1) else .clear
  | .clear => .erase
  | .erase => .done
  | .done => .done

namespace LogState

variable {ι : Type} [DecidableEq ι]

def boot : LogState ι where
  outstanding := 0
  committing := false
  lh := []
  pc := fun _ => .out
  wrote := fun _ => []
  group := []
  panicked := none

def setPc (s : LogState ι) (p : ι) (pc : LogPc) : LogState ι :=
  { s with pc := update s.pc p pc }

def wakeup (s : LogState ι) : LogState ι :=
  { s with pc := fun q => if s.pc q = .asleep then .begins else s.pc q }

def panic (s : LogState ι) (msg : String) : LogState ι := { s with panicked := some msg }

def full (s : LogState ι) : Prop :=
  s.lh.length + (s.outstanding + 1) * MAXOPBLOCKS > LOGSIZE

instance (s : LogState ι) : Decidable s.full := inferInstanceAs (Decidable (_ > _))

/-- One round of the loop in `begin_op`. -/
def beginOp (s : LogState ι) (p : ι) : LogState ι :=
  if s.committing then s.setPc p .asleep
  else if s.full then s.setPc p .asleep
  else { s.setPc p .inOp with
    outstanding := s.outstanding + 1, wrote := update s.wrote p [] }

/-- The tests `log_write` makes without `log.lock`. -/
def logWrite (s : LogState ι) (p : ι) (b : Nat) : LogState ι :=
  let s := { s with wrote := update s.wrote p (List.insert b (s.wrote p)) }
  if s.lh.length ≥ LOGSIZE ∨ s.lh.length ≥ nlog - 1 then s.panic "too big a transaction"
  else if s.outstanding < 1 then s.panic "log_write outside of trans"
  else s.setPc p (.logging b)

def record (s : LogState ι) (p : ι) (b : Nat) : LogState ι :=
  { s.setPc p .inOp with
    lh := if b ∈ s.lh then s.lh else s.lh ++ [b], group := s.group ++ [b] }

def endOp (s : LogState ι) (p : ι) : LogState ι :=
  let s := { s with outstanding := s.outstanding - 1 }
  if s.committing then s.panic "log.committing"
  else if s.outstanding = 0 then { s.setPc p (.commit .test) with committing := true }
  else (s.setPc p .out).wakeup

def commit (s : LogState ι) (p : ι) (st : Stage) : LogState ι :=
  let s' := s.setPc p (.commit (st.next s.lh.length))
  if st = .clear then { s' with lh := [], group := [] } else s'

def commitEnd (s : LogState ι) (p : ι) : LogState ι :=
  ({ s.setPc p .out with committing := false }).wakeup

def step (s : LogState ι) (a : LogAct ι) : Option (LogState ι) :=
  if s.panicked ≠ none then none
  else match a with
    | .beginOp p => if s.pc p = .out ∨ s.pc p = .begins then some (s.beginOp p) else none
    | .logWrite p b => if s.pc p = .inOp then some (s.logWrite p b) else none
    | .record p =>
      match s.pc p with
      | .logging b => some (s.record p b)
      | _ => none
    | .endOp p => if s.pc p = .inOp then some (s.endOp p) else none
    | .commit p =>
      match s.pc p with
      | .commit st => if st = .done then none else some (s.commit p st)
      | _ => none
    | .commitEnd p => if s.pc p = .commit .done then some (s.commitEnd p) else none
    | .wake p => if s.pc p = .asleep then some (s.setPc p .begins) else none

end LogState
end Xv6
