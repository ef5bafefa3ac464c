/-
  Xv6.Proc.Wakeup

  `sleep` and `wakeup` statement by statement, with `acquire` and `release`
  as atomic steps.

  Any number of processes wait for conditions and signal them.  `c` stands for
  a channel; `lk c` is the lock its condition is tested and changed under,
  `none` for `ptable.lock` itself.  Several channels may share a lock.

    * a waiter acquires `lk`, tests the condition, and calls
      `sleep(chan, lk)` while it is false;
    * a signaller acquires `lk`, changes the condition, and calls
      `wakeup(chan)`, before or after it releases `lk`.

  `wakeups` and `mark` are read by no function.
-/

import Xv6.Proc.Sched

namespace Xv6

open Function List Transition

/-- Where a process is: the statement that comes next. -/
inductive WaitPc (n : Nat) (κ : Type) where
  | out
  | holds (c : κ) (owes : Bool)
  /-- Behind `release(lk)`, about to call `wakeup(chan)`. -/
  | owing (c : κ)
  | sleepAcquire (c : κ)
  | sleepRelease (c : κ)
  | setChan (c : κ)
  | setState (c : κ)
  | sched (c : κ)
  /-- Switched away from. -/
  | off (c : κ)
  | tidy (c : κ)
  | sleepUnlock (c : κ)
  | sleepRelock (c : κ)
  | wakeupAcquire (c : κ) (held : Bool)
  | wakeup1 (c : κ) (held : Bool) (rest : List (Fin n))
  | wakeupRelease (c : κ) (held : Bool)
deriving DecidableEq

inductive Holder (n : Nat) where
  | proc (p : Fin n)
  /-- The scheduler of some CPU. -/
  | cpu
deriving DecidableEq

structure WaitState (n : Nat) (κ Λ : Type) where
  state : Fin n → ProcState
  chan : Fin n → Option κ
  ptableLock : Option (Holder n)
  lock : Λ → Option (Fin n)
  cond : κ → Bool
  pc : Fin n → WaitPc n κ
  /-- The calls of `wakeup(chan)` executed so far. -/
  wakeups : κ → Nat
  mark : Fin n → Nat

inductive WaitAct (n : Nat) (κ : Type) where
  | acquire (p : Fin n) (c : κ)
  | turn (p : Fin n) (c : κ)
  /-- The process changes the condition. -/
  | change (p : Fin n) (v : Bool)
  | test (p : Fin n)
  | release (p : Fin n)
  | wakeup (p : Fin n) (c : κ)
  /-- The next statement of `sleep` or `wakeup`. -/
  | next (p : Fin n)
  | scheduler
  | dispatch (p : Fin n)
  | schedulerRelease
  /-- `kill` makes a sleeper `RUNNABLE`. -/
  | kill (p : Fin n)
deriving DecidableEq

namespace WaitState

variable {n : Nat} {κ Λ : Type} [DecidableEq κ] [DecidableEq Λ]
variable {c : Chan} {s : WaitState NPROC Chan Λ} {k : Kernel}

/-- All processes run, outside of any section. -/
def boot (cond : κ → Bool) : WaitState n κ Λ where
  state := fun _ => .RUNNING
  chan := fun _ => none
  ptableLock := none
  lock := fun _ => none
  cond := cond
  pc := fun _ => .out
  wakeups := fun _ => 0
  mark := fun _ => 0

def setPc (s : WaitState n κ Λ) (p : Fin n) (pc : WaitPc n κ) : WaitState n κ Λ :=
  { s with pc := update s.pc p pc }

def setState (s : WaitState n κ Λ) (p : Fin n) (st : ProcState) : WaitState n κ Λ :=
  { s with state := update s.state p st }

def acquireLk (lk : κ → Option Λ) (s : WaitState n κ Λ) (p : Fin n) (c : κ) :
    Option (WaitState n κ Λ) :=
  match lk c with
  | none => if s.ptableLock = none then some { s with ptableLock := some (.proc p) } else none
  | some l =>
    if s.lock l = none then some { s with lock := update s.lock l (some p) } else none

def releaseLk (lk : κ → Option Λ) (s : WaitState n κ Λ) (c : κ) : WaitState n κ Λ :=
  match lk c with
  | none => { s with ptableLock := none }
  | some l => { s with lock := update s.lock l none }

def acquirePtable (s : WaitState n κ Λ) (h : Holder n) : Option (WaitState n κ Λ) :=
  if s.ptableLock = none then some { s with ptableLock := some h } else none

def wakeOne (c : κ) (s : WaitState n κ Λ) (q : Fin n) : WaitState n κ Λ :=
  if s.state q = .SLEEPING ∧ s.chan q = some c then s.setState q .RUNNABLE else s

/-- The statements of `sleep` and `wakeup`. -/
def next (lk : κ → Option Λ) (s : WaitState n κ Λ) (p : Fin n) : Option (WaitState n κ Λ) :=
  match s.pc p with
  | .sleepAcquire c => (s.acquirePtable (.proc p)).map (·.setPc p (.sleepRelease c))
  | .sleepRelease c =>
    some ({ s.releaseLk lk c with mark := update s.mark p (s.wakeups c) }.setPc p
      (.setChan c))
  | .setChan c =>
    some ({ s with chan := update s.chan p (some c) }.setPc p (.setState c))
  | .setState c => some ((s.setState p .SLEEPING).setPc p (.sched c))
  | .sched c =>
    -- `ptable.lock` passes to the scheduler, which is where a caller that
    -- came with it as `lk` gives it up
    some ({ s with
      ptableLock := some .cpu
      mark := if lk c = none then update s.mark p (s.wakeups c) else s.mark }.setPc p
        (.off c))
  | .tidy c =>
    some ({ s with chan := update s.chan p none }.setPc p
      (if lk c = none then .holds c false else .sleepUnlock c))
  | .sleepUnlock c => some ({ s with ptableLock := none }.setPc p (.sleepRelock c))
  | .sleepRelock c => (s.acquireLk lk p c).map (·.setPc p (.holds c false))
  | .wakeupAcquire c held =>
    (s.acquirePtable (.proc p)).map (·.setPc p (.wakeup1 c held (List.finRange n)))
  | .wakeup1 c held (q :: rest) => some ((wakeOne c s q).setPc p (.wakeup1 c held rest))
  | .wakeup1 c held [] =>
    some ({ s with wakeups := update s.wakeups c (s.wakeups c + 1) }.setPc p
      -- who called `wakeup1` goes on with `ptable.lock`
      (if lk c = none ∧ held = true then .holds c false else .wakeupRelease c held))
  | .wakeupRelease c held =>
    some ({ s with ptableLock := none }.setPc p (if held then .holds c false else .out))
  | .out | .holds _ _ | .owing _ | .off _ => none

def step (lk : κ → Option Λ) (s : WaitState n κ Λ) : WaitAct n κ → Option (WaitState n κ Λ)
  | .acquire p c =>
    if s.pc p = .out then (s.acquireLk lk p c).map (·.setPc p (.holds c false)) else none
  | .turn p c' =>
    match s.pc p with
    | .holds c false => if lk c' = lk c then some (s.setPc p (.holds c' false)) else none
    | _ => none
  | .change p v =>
    match s.pc p with
    | .holds c owes =>
      some ({ s with cond := update s.cond c v }.setPc p (.holds c (owes || v)))
    | _ => none
  | .test p =>
    match s.pc p with
    | .holds c _ =>
      if s.cond c then some s
      -- `if (lk != &ptable.lock)`
      else some (s.setPc p (if lk c = none then .setChan c else .sleepAcquire c))
    | _ => none
  | .release p =>
    match s.pc p with
    | .holds c owes => some ((s.releaseLk lk c).setPc p (if owes then .owing c else .out))
    | _ => none
  | .wakeup p c =>
    match s.pc p with
    | .out => some (s.setPc p (.wakeupAcquire c false))
    | .owing c' => if c' = c then some (s.setPc p (.wakeupAcquire c false)) else none
    | .holds c' _ =>
      if c' = c then
        -- who holds `ptable.lock` calls `wakeup1` instead
        some (s.setPc p (if lk c = none then .wakeup1 c true (List.finRange n)
          else .wakeupAcquire c true))
      else none
    | _ => none
  | .next p => s.next lk p
  | .scheduler => s.acquirePtable .cpu
  | .dispatch p =>
    match s.pc p with
    | .off c =>
      if s.ptableLock = some .cpu ∧ s.state p = .RUNNABLE then
        some ({ s.setState p .RUNNING with ptableLock := some (.proc p) }.setPc p (.tidy c))
      else none
    | _ => none
  | .schedulerRelease =>
    if s.ptableLock = some .cpu then some { s with ptableLock := none } else none
  | .kill p =>
    if s.ptableLock = none ∧ s.state p = .SLEEPING then some (s.setState p .RUNNABLE) else none

def GaveUp (lk : κ → Option Λ) (s : WaitState n κ Λ) (p : Fin n) (c : κ) : Prop :=
  s.pc p = .off c ∨ lk c ≠ none ∧ (s.pc p = .setChan c ∨ s.pc p = .setState c ∨ s.pc p = .sched c)

/-- No process sleeps although a `wakeup` on its channel was executed after it gave up `lk`. -/
def NoneLost (lk : κ → Option Λ) (s : WaitState n κ Λ) : Prop :=
  ∀ p c, s.GaveUp lk p c → s.state p = .SLEEPING → s.chan p = some c → s.wakeups c = s.mark p

/-! ## The sections of `Xv6.Proc.Kernel`

Taken as a whole, the statements of `sleep` and the loop of `wakeup1` do to
states and channels what the functions of the kernel model do. -/

def chanOf : Chan → Option Chan
  | .null => none
  | c => some c

theorem chanOf_eq {d : Chan} (hc : c ≠ .null) : chanOf d = some c ↔ d = c := by
  cases d with
  | null => simp [chanOf, Ne.symm hc]
  | proc p => simp [chanOf]
  | addr a => simp [chanOf]

/-- The two models agree on who sleeps where. -/
def Agrees (s : WaitState NPROC Chan Λ) (k : Kernel) : Prop :=
  ∀ p, s.state p = k.state p ∧ s.chan p = chanOf (k.proc p).chan

theorem Agrees.setPc (h : s.Agrees k) (p : Slot) (pc : WaitPc NPROC Chan) :
    (s.setPc p pc).Agrees k := h

theorem Agrees.wakeOne (hc : c ≠ .null) (h : s.Agrees k) (b : Build) (q : Slot) :
    (WaitState.wakeOne c s q).Agrees (k.wakeOne b c q) := by
  have htest : (s.state q = .SLEEPING ∧ s.chan q = some c) ↔
      (k.state q = .SLEEPING ∧ (k.proc q).chan = c) := by
    rw [(h q).1, (h q).2, chanOf_eq hc]
  unfold WaitState.wakeOne Kernel.wakeOne
  by_cases hq : k.state q = .SLEEPING ∧ (k.proc q).chan = c
  · rw [if_pos (htest.mpr hq), if_pos hq]
    intro p
    simp only [Kernel.makeRunnable, Kernel.state, Kernel.enqueue_proc, Kernel.setProc,
      WaitState.setState]
    by_cases hpq : p = q
    · subst hpq
      simp only [update_self]
      exact ⟨trivial, (h p).2⟩
    · simp only [update_of_ne hpq]
      exact h p
  · rw [if_neg (mt htest.mp hq), if_neg hq]
    exact h

theorem Agrees.wakeup1 (hc : c ≠ .null) (h : s.Agrees k) (b : Build) :
    (slots.foldl (WaitState.wakeOne c) s).Agrees (k.wakeup1 b c) := by
  unfold Kernel.wakeup1
  generalize slots = table
  induction table generalizing s k with
  | nil => exact h
  | cons q table ih => exact ih (h.wakeOne hc b q)

theorem wakeOne_setPc (c : κ) (t : WaitState n κ Λ) (p r : Fin n) (pc : WaitPc n κ) :
    wakeOne c (t.setPc p pc) r = (wakeOne c t r).setPc p pc := by
  by_cases hr : t.state r = .SLEEPING ∧ t.chan r = some c
  · have hone : wakeOne c t r = t.setState r .RUNNABLE := if_pos hr
    rw [hone]
    exact if_pos hr
  · have hone : wakeOne c t r = t := if_neg hr
    rw [hone]
    exact if_neg hr

theorem foldl_wakeOne_setPc (c : κ) (p : Fin n) (pc pc' : WaitPc n κ) (rest : List (Fin n))
    (t : WaitState n κ Λ) :
    (rest.foldl (wakeOne c) (t.setPc p pc)).setPc p pc'
      = (rest.foldl (wakeOne c) t).setPc p pc' := by
  induction rest generalizing t with
  | nil => simp only [foldl_nil, setPc, update_idem]
  | cons r rest ih => rw [foldl_cons, foldl_cons, wakeOne_setPc, ih]

theorem run_wakeup1 (lk : κ → Option Λ) {p : Fin n} {c : κ} {held : Bool} (rest : List (Fin n))
    {s : WaitState n κ Λ} (hp : s.pc p = .wakeup1 c held rest) :
    run (step lk) s (List.replicate rest.length (.next p))
      = some ((rest.foldl (wakeOne c) s).setPc p (.wakeup1 c held [])) := by
  induction rest generalizing s with
  | nil =>
    have hsame : s.setPc p (.wakeup1 c held []) = s := by
      simp only [setPc, ← hp, update_eq_self]
    rw [foldl_nil, hsame]
    rfl
  | cons q rest ih =>
    have hstep : s.step lk (.next p) = some ((wakeOne c s q).setPc p (.wakeup1 c held rest)) := by
      simp only [step, next, hp]
    rw [length_cons, replicate_succ, run, hstep, Option.bind_some,
      ih (by simp [setPc]), foldl_wakeOne_setPc]
    rfl

theorem Agrees.sleep (hc : c ≠ .null) (h : s.Agrees k) (p : Slot) (ctx : Context) :
    ({ s with chan := update s.chan p (some c) }.setState p .SLEEPING).Agrees
      (k.setProc p fun r => { r with chan := c, state := .SLEEPING, context := ctx }) := by
  intro q
  simp only [Kernel.state, Kernel.setProc, WaitState.setState]
  by_cases hqp : q = p
  · subst hqp
    simp only [update_self]
    exact ⟨trivial, ((chanOf_eq hc).mpr rfl).symm⟩
  · simp only [update_of_ne hqp]
    exact h q

/-- **The sections refine the kernel's functions.**  From states that agree, the statements of
    `wakeup1` lead to a state that agrees with what the kernel's `wakeup1` makes, and those of
    `sleep` with what its `sleep` does to the slot. -/
theorem sections_refine (b : Build) (lk : Chan → Option Λ) (hc : c ≠ .null) (h : s.Agrees k)
    (p : Slot) :
    (∀ held, s.pc p = .wakeup1 c held slots → ∃ s',
      run (step lk) s (List.replicate NPROC (.next p)) = some s' ∧ s'.Agrees (k.wakeup1 b c)) ∧
    (∀ ctx, s.pc p = .setChan c → ∃ s', run (step lk) s [.next p, .next p] = some s' ∧
      s'.Agrees
        (k.setProc p fun r => { r with chan := c, state := .SLEEPING, context := ctx })) := by
  refine ⟨fun held hp => ?_, fun ctx hp => ?_⟩
  · have hrun := run_wakeup1 lk slots hp
    have hlen : slots.length = NPROC := length_finRange
    rw [hlen] at hrun
    exact ⟨_, hrun, (h.wakeup1 hc b).setPc p _⟩
  · refine ⟨_, ?_, ((h.sleep hc p ctx).setPc p (.setState c)).setPc p (.sched c)⟩
    simp only [run, step, next, hp, Option.bind_some, setPc, setState, update_self]

/-- A process that wakes all the others. -/
theorem sections_refine_all : ∃ s', run (step fun _ => (none : Option Unit))
      { boot (fun _ => false) with
        state := fun _ => .SLEEPING
        chan := fun _ => some (.addr 0)
        pc := fun _ => .wakeup1 (.addr 0) false slots } (List.replicate NPROC (.next 0)) = some s' ∧
      s'.Agrees (({ Kernel.boot with
        proc := fun _ => { Proc.zero with state := .SLEEPING, chan := .addr 0 } }).wakeup1 .priority
          (.addr 0)) :=
  (sections_refine .priority _ (by decide) (fun _ => ⟨rfl, rfl⟩) 0).1 false rfl

end WaitState
end Xv6
