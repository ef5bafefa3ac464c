/-
  Xv6.Proc.Sched

  What the functions of `Xv6.Proc.Kernel` change, said once.

  A slot goes through a life cycle — free, embryo, live, dead — and a live one
  is asleep, runnable or running.  `Sched k k'` says that `k'` differs from `k`
  in the scheduling only, so an invariant of the life cycle needs one lemma for
  dispatching, switching back, yielding, sleeping and waking.
-/

import Xv6.Lib.ProcessTree
import Xv6.Proc.Machine

namespace Xv6

open Function List

open ProcessTree (Life)

variable {s : ProcState}

def ProcState.life : ProcState → Life
  | .UNUSED => .free
  | .EMBRYO => .embryo
  | .SLEEPING | .RUNNABLE | .RUNNING => .live
  | .ZOMBIE => .dead

@[simp] theorem ProcState.life_eq_free : s.life = .free ↔ s = .UNUSED := by
  cases s <;> simp [life]

@[simp] theorem ProcState.life_eq_embryo : s.life = .embryo ↔ s = .EMBRYO := by
  cases s <;> simp [life]

@[simp] theorem ProcState.life_eq_dead : s.life = .dead ↔ s = .ZOMBIE := by
  cases s <;> simp [life]

def Proc.passFrom (c : Slot) (init : Option Slot) (r : Proc) : Proc :=
  if r.parent = some c then { r with parent := init } else r

namespace Proc

variable (c : Slot) (init : Option Slot) (r : Proc)

@[simp] theorem passFrom_parent :
    (r.passFrom c init).parent = if r.parent = some c then init else r.parent := by
  unfold passFrom
  split <;> rfl

@[simp] theorem passFrom_state : (r.passFrom c init).state = r.state := by
  unfold passFrom
  split <;> rfl

@[simp] theorem passFrom_pid : (r.passFrom c init).pid = r.pid := by
  unfold passFrom
  split <;> rfl

@[simp] theorem passFrom_priority : (r.passFrom c init).priority = r.priority := by
  unfold passFrom
  split <;> rfl

@[simp] theorem passFrom_killed : (r.passFrom c init).killed = r.killed := by
  unfold passFrom
  split <;> rfl

@[simp] theorem passFrom_passFrom : (r.passFrom c init).passFrom c init = r.passFrom c init := by
  by_cases h : r.parent = some c
  · by_cases hi : init = some c
    · simp [passFrom, h, hi]
    · simp [passFrom, h, hi]
  · simp [passFrom, h]

theorem passFrom_sched (st : ProcState) (chan : Chan) (ctx : Context) :
    ({ r with state := st, chan := chan, context := ctx } : Proc).passFrom c init
      = { r.passFrom c init with state := st, chan := chan, context := ctx } := by
  unfold passFrom
  split <;> rfl

end Proc

def Build.logCall (b : Build) (l : Int) (calls : List Int) : List Int :=
  match b with
  | .priority => l :: calls
  | .custom => calls

namespace Kernel

variable {k k' : Kernel} {p : Slot} {l : Int}

abbrev life (k : Kernel) (p : Slot) : Life := (k.state p).life

/-! ## One slot at a time -/

section OneSlot

variable {α : Type} (k : Kernel) (p q : Slot) (f : Proc → Proc)

theorem setProc_proc : (k.setProc p f).proc q = if q = p then f (k.proc p) else k.proc q := by
  unfold setProc
  exact update_apply ..

theorem setProc_field (g : Proc → α) :
    g ((k.setProc p f).proc q) = if q = p then g (f (k.proc p)) else g (k.proc q) := by
  rw [setProc_proc]
  exact apply_ite g ..

theorem setProc_kept (g : Proc → α) (h : g (f (k.proc p)) = g (k.proc p)) :
    g ((k.setProc p f).proc q) = g (k.proc q) := by
  rw [setProc_proc]
  split
  · rename_i hq
    rw [hq]
    exact h
  · rfl

theorem state_setState (st : ProcState) :
    (k.setProc p fun r => { r with state := st }).state q = if q = p then st else k.state q :=
  setProc_field k p q _ Proc.state

theorem priority_setState (st : ProcState) :
    (k.setProc p fun r => { r with state := st }).priority q = k.priority q :=
  setProc_kept k p q _ Proc.priority rfl

theorem state_dispatch (i : Nat) :
    (k.dispatch i p).state q = if q = p then .RUNNING else k.state q :=
  state_setState k p q .RUNNING

theorem priority_dispatch (i : Nat) : (k.dispatch i p).priority q = k.priority q :=
  priority_setState k p q .RUNNING

end OneSlot

/-! ## Queue operations touch the queue arrays only -/

@[simp] theorem enqueue_proc (b : Build) (k : Kernel) (p : Slot) :
    (k.enqueue b p).1.proc = k.proc := by cases b <;> rfl

@[simp] theorem enqueue_nextpid (b : Build) (k : Kernel) (p : Slot) :
    (k.enqueue b p).1.nextpid = k.nextpid := by cases b <;> rfl

@[simp] theorem enqueue_initproc (b : Build) (k : Kernel) (p : Slot) :
    (k.enqueue b p).1.initproc = k.initproc := by cases b <;> rfl

@[simp] theorem enqueue_cpu (b : Build) (k : Kernel) (p : Slot) :
    (k.enqueue b p).1.cpu = k.cpu := by cases b <;> rfl

@[simp] theorem enqueue_lock (b : Build) (k : Kernel) (p : Slot) :
    (k.enqueue b p).1.lock = k.lock := by cases b <;> rfl

@[simp] theorem enqueue_frame (b : Build) (k : Kernel) (p : Slot) :
    (k.enqueue b p).1.frame = k.frame := by cases b <;> rfl

@[simp] theorem enqueue_trace (b : Build) (k : Kernel) (p : Slot) :
    (k.enqueue b p).1.trace = k.trace := by cases b <;> rfl

@[simp] theorem enqueue_calls (b : Build) (k : Kernel) (p : Slot) :
    (k.enqueue b p).1.calls = b.logCall (k.priority p - 1) k.calls := by cases b <;> rfl

/-! ## Changes of the scheduling -/

/-- The queue calls between `k` and `k'` are at scanned levels or at the level
    of a process that is live in `k`. -/
def SchedCalls (k k' : Kernel) : Prop :=
  ∃ cs, k'.calls = cs ++ k.calls ∧
    ∀ pr ∈ cs, (0 ≤ pr ∧ pr < PLEVELS) ∨ ∃ p, k.life p = .live ∧ pr = k.priority p - 1

theorem SchedCalls.of_eq (h : k'.calls = k.calls) : SchedCalls k k' :=
  ⟨[], h, by simp⟩

/-- `k'` differs from `k` only in who is asleep, runnable or running. -/
structure Sched (k k' : Kernel) : Prop where
  proc : ∀ p, ∃ st chan ctx, k'.proc p = { k.proc p with state := st, chan := chan, context := ctx } ∧
    st.life = k.life p
  nextpid : k'.nextpid = k.nextpid
  initproc : k'.initproc = k.initproc
  frame : k'.frame = k.frame
  trace : ∃ ds, k'.trace = ds ++ k.trace ∧ ∀ e ∈ ds, ∃ i p, e = .dispatched i p .RUNNABLE
  calls : SchedCalls k k'

namespace Sched

variable {k k' k'' : Kernel}
variable {p : Slot}

theorem life_eq (h : Sched k k') (p : Slot) : k'.life p = k.life p := by
  obtain ⟨st, chan, ctx, hp, hlife⟩ := h.proc p
  rw [life, state, hp]
  exact hlife

theorem pid_eq (h : Sched k k') (p : Slot) : k'.pid p = k.pid p := by
  obtain ⟨st, chan, ctx, hp, -⟩ := h.proc p
  rw [pid, hp]

theorem parent_eq (h : Sched k k') (p : Slot) : k'.parent p = k.parent p := by
  obtain ⟨st, chan, ctx, hp, -⟩ := h.proc p
  rw [parent, hp]

theorem priority_eq (h : Sched k k') (p : Slot) : k'.priority p = k.priority p := by
  obtain ⟨st, chan, ctx, hp, -⟩ := h.proc p
  rw [priority, hp]

theorem killed_eq (h : Sched k k') (p : Slot) : (k'.proc p).killed = (k.proc p).killed := by
  obtain ⟨st, chan, ctx, hp, -⟩ := h.proc p
  rw [hp]

theorem of_proc_eq (hproc : k'.proc = k.proc) (hnext : k'.nextpid = k.nextpid)
    (hinit : k'.initproc = k.initproc) (hframe : k'.frame = k.frame)
    (htrace : k'.trace = k.trace) (hcalls : SchedCalls k k') : Sched k k' where
  proc := fun p => ⟨k.state p, (k.proc p).chan, (k.proc p).context, by rw [hproc], rfl⟩
  nextpid := hnext
  initproc := hinit
  frame := hframe
  trace := ⟨[], htrace, by simp⟩
  calls := hcalls

protected theorem refl (k : Kernel) : Sched k k :=
  of_proc_eq rfl rfl rfl rfl rfl (SchedCalls.of_eq rfl)

protected theorem trans (h1 : Sched k k') (h2 : Sched k' k'') : Sched k k'' where
  proc := by
    intro p
    -- the later rewrite of the scheduling fields hides the earlier one
    obtain ⟨st1, chan1, ctx1, hp1, hl1⟩ := h1.proc p
    obtain ⟨st2, chan2, ctx2, hp2, hl2⟩ := h2.proc p
    refine ⟨st2, chan2, ctx2, ?_, hl2.trans (h1.life_eq p)⟩
    rw [hp2, hp1]
  nextpid := h2.nextpid.trans h1.nextpid
  initproc := h2.initproc.trans h1.initproc
  frame := h2.frame.trans h1.frame
  trace := by
    obtain ⟨ds1, ht1, hd1⟩ := h1.trace
    obtain ⟨ds2, ht2, hd2⟩ := h2.trace
    refine ⟨ds2 ++ ds1, by rw [ht2, ht1, append_assoc], fun e he => ?_⟩
    rcases mem_append.mp he with he | he
    · exact hd2 e he
    · exact hd1 e he
  calls := by
    obtain ⟨cs1, hc1, hr1⟩ := h1.calls
    obtain ⟨cs2, hc2, hr2⟩ := h2.calls
    refine ⟨cs2 ++ cs1, by rw [hc2, hc1, append_assoc], fun pr hpr => ?_⟩
    rcases mem_append.mp hpr with hpr | hpr
    · -- live in the middle state is live in the first, at the same priority
      rcases hr2 pr hpr with h | ⟨p, hlive, hp⟩
      · exact .inl h
      · exact .inr ⟨p, (h1.life_eq p).symm.trans hlive, by rw [hp, h1.priority_eq]⟩
    · exact hr1 pr hpr

theorem setProc {f : Proc → Proc} (st : ProcState) (chan : Chan) (ctx : Context)
    (hf : f (k.proc p) = { k.proc p with state := st, chan := chan, context := ctx })
    (hlife : st.life = k.life p) : Sched k (k.setProc p f) where
  proc := by
    intro q
    rw [setProc_proc]
    by_cases hq : q = p
    · rw [if_pos hq, hq]
      exact ⟨st, chan, ctx, hf, hlife⟩
    · rw [if_neg hq]
      exact ⟨k.state q, (k.proc q).chan, (k.proc q).context, rfl, rfl⟩
  nextpid := rfl
  initproc := rfl
  frame := rfl
  trace := ⟨[], rfl, by simp⟩
  calls := .of_eq rfl

theorem enqueue (b : Build) (hp : k.life p = .live) : Sched k (k.enqueue b p).1 := by
  refine of_proc_eq (by simp) (by simp) (by simp) (by simp) (by simp) ?_
  cases b with
  | priority =>
    refine ⟨[k.priority p - 1], rfl, fun pr hpr => .inr ⟨p, hp, ?_⟩⟩
    exact mem_singleton.mp hpr
  | custom => exact .of_eq rfl

theorem makeRunnable (b : Build) (hp : k.life p = .live) : Sched k (k.makeRunnable b p).1 := by
  have h : Sched k (k.setProc p fun r => { r with state := .RUNNABLE }) :=
    Sched.setProc .RUNNABLE (k.proc p).chan (k.proc p).context rfl hp.symm
  exact h.trans (Sched.enqueue b ((h.life_eq p).trans hp))

theorem wakeup1 (b : Build) (k : Kernel) (chan : Chan) : Sched k (k.wakeup1 b chan) := by
  -- the invariant of the loop is the relation to the state before it
  refine List.foldlRecOn (motive := Sched k) slots (wakeOne b chan) (Sched.refl k) ?_
  intro m hm p _
  unfold wakeOne
  by_cases hw : m.state p = .SLEEPING ∧ (m.proc p).chan = chan
  · rw [if_pos hw]
    refine hm.trans (Sched.makeRunnable b ?_)
    rw [life, hw.1]
    rfl
  · rw [if_neg hw]
    exact hm

theorem dispatch (i : Nat) (hp : k.state p = .RUNNABLE) : Sched k (k.dispatch i p) where
  proc := by
    -- on the table it is a change of state alone
    have hlife : (ProcState.RUNNING).life = k.life p := by
      rw [life, hp]
      rfl
    have hset : Sched k (k.setProc p fun r => { r with state := .RUNNING }) :=
      Sched.setProc .RUNNING (k.proc p).chan (k.proc p).context rfl hlife
    exact hset.proc
  nextpid := rfl
  initproc := rfl
  frame := rfl
  trace := ⟨[.dispatched i p .RUNNABLE], by rw [← hp]; rfl, by simp⟩
  calls := .of_eq rfl

theorem cpu_lock (k : Kernel) (cpu : Nat → Cpu) (lock : Option Nat) :
    Sched k { k with cpu := cpu, lock := lock } :=
  of_proc_eq rfl rfl rfl rfl rfl (.of_eq rfl)

end Sched

theorem nextRunnable_state {n : Nat} (h : k.nextRunnable n = some p) : k.state p = .RUNNABLE := by
  have := List.find?_some h
  simp only [Bool.and_eq_true, decide_eq_true_eq] at this
  exact this.2

theorem choice_state {i : Nat} (h : k.choice i = some p) : k.state p = .RUNNABLE := by
  obtain ⟨-, hp⟩ := Option.filter_eq_some_iff.mp h
  exact of_decide_eq_true hp

theorem mem_levels : l ∈ levels ↔ 0 ≤ l ∧ l < 5 := by
  simp only [levels, mem_cons, not_mem_nil, or_false]
  omega

theorem firstLevel_range (h : k.firstLevel = some l) : 0 ≤ l ∧ l < PLEVELS :=
  mem_levels.mp (mem_of_find?_eq_some h)

namespace Sched

variable {k : Kernel}
variable {c : Slot}

theorem scanFrom (k : Kernel) (i n : Nat) : Sched k (k.scanFrom i n) := by
  unfold Kernel.scanFrom
  cases h : k.nextRunnable n with
  | some p => exact Sched.dispatch i (nextRunnable_state h)
  | none => exact Sched.cpu_lock k _ _

theorem swtchBack (b : Build) (k : Kernel) (i : Nat) : Sched k (k.swtchBack b i) := by
  cases b with
  | priority => exact Sched.cpu_lock k _ _
  | custom => exact (Sched.cpu_lock k _ k.lock).trans (Sched.scanFrom _ i _)

theorem removeProcessFromQueue (p : Slot) {l : Int} (hl : 0 ≤ l ∧ l < PLEVELS) :
    Sched k (k.removeProcessFromQueue p l).1 := by
  refine of_proc_eq rfl rfl rfl rfl rfl ⟨[l], rfl, fun pr hpr => .inl ?_⟩
  rw [mem_singleton.mp hpr]
  exact hl

theorem pop (k : Kernel) (i : Nat) : Sched k (k.pop i) := by
  unfold Kernel.pop
  cases hl : k.firstLevel with
  | none => exact Sched.refl k
  | some l =>
    have hcpu : Sched k (k.setCpu i { k.cpu i with p := k.rq.priorityQ l 0 }) :=
      Sched.cpu_lock k _ k.lock
    cases hq : k.rq.priorityQ l 0 with
    | none =>
      -- a null entry, which the C code would dereference
      simp only [hq] at hcpu ⊢
      exact hcpu
    | some p =>
      simp only [hq] at hcpu ⊢
      exact hcpu.trans (Sched.removeProcessFromQueue p (firstLevel_range hl))

theorem scheduler (b : Build) (k : Kernel) (i : Nat) : Sched k (k.scheduler b i) := by
  cases b with
  | priority =>
    simp only [Kernel.scheduler]
    cases h : (k.pop i).choice i with
    | some p => exact (Sched.pop k i).trans (Sched.dispatch i (choice_state h))
    | none => exact Sched.pop k i
  | custom => exact Sched.scanFrom k i 0

theorem yield (b : Build) (i : Nat) (hc : k.life c = .live) : Sched k (k.yield b i c) := by
  have h1 := Sched.makeRunnable b hc
  have h2 : Sched (k.makeRunnable b c).1
      ((k.makeRunnable b c).1.setProc c fun r => { r with context := .yield }) :=
    Sched.setProc ((k.makeRunnable b c).1.state c) ((k.makeRunnable b c).1.proc c).chan .yield
      rfl rfl
  exact (h1.trans h2).trans (Sched.swtchBack b _ i)

theorem sleep (b : Build) (i : Nat) (chan : Chan) (ctx : Context)
    (hc : k.life c = .live) : Sched k (k.sleep b i c chan ctx) :=
  (Sched.setProc .SLEEPING chan ctx rfl hc.symm).trans (Sched.swtchBack b _ i)

end Sched

/-! ## Passing children to `initproc`

The loop of `exit` mixes two things, new parents and wakeups.  Up to
scheduling it is the map `reparent`. -/

def reparentIn (l : List Slot) (c : Slot) (k : Kernel) : Kernel :=
  { k with proc := fun p => if p ∈ l then (k.proc p).passFrom c k.initproc else k.proc p }

def reparent (c : Slot) (k : Kernel) : Kernel := k.reparentIn slots c

theorem reparent_proc (c : Slot) (k : Kernel) (p : Slot) :
    (k.reparent c).proc p = (k.proc p).passFrom c k.initproc := by
  simp [reparent, reparentIn]

theorem life_reparentIn (l : List Slot) (c : Slot) (k : Kernel) (p : Slot) :
    (k.reparentIn l c).life p = k.life p := by
  simp only [life, state, reparentIn]
  split
  · rw [Proc.passFrom_state]
  · rfl

theorem priority_reparentIn (l : List Slot) (c : Slot) (k : Kernel) (p : Slot) :
    (k.reparentIn l c).priority p = k.priority p := by
  simp only [priority, reparentIn]
  split
  · rw [Proc.passFrom_priority]
  · rfl

theorem reparentIn_cons (l : List Slot) (c p : Slot) (k : Kernel) :
    k.reparentIn (p :: l) c = (k.reparentIn [p] c).reparentIn l c := by
  unfold reparentIn
  congr 1
  funext q
  by_cases hq : q = p
  · subst hq
    -- a second visit finds nothing left to change
    by_cases hl : q ∈ l
    · simp [hl]
    · simp [hl]
  · simp [hq]

theorem Sched.reparentIn (h : Sched k k') (l : List Slot) (c : Slot) :
    Sched (k.reparentIn l c) (k'.reparentIn l c) where
  proc := by
    intro p
    obtain ⟨st, chan, ctx, hp, hlife⟩ := h.proc p
    refine ⟨st, chan, ctx, ?_, ?_⟩
    · simp only [Kernel.reparentIn, h.initproc, hp]
      by_cases hl : p ∈ l
      · rw [if_pos hl, if_pos hl]
        exact Proc.passFrom_sched ..
      · rw [if_neg hl, if_neg hl]
    · rw [hlife, life_reparentIn]
  nextpid := h.nextpid
  initproc := h.initproc
  frame := h.frame
  trace := h.trace
  calls := by
    obtain ⟨cs, hcs, hr⟩ := h.calls
    refine ⟨cs, hcs, fun pr hpr => ?_⟩
    rcases hr pr hpr with h | ⟨p, hlive, hp⟩
    · exact .inl h
    · exact .inr ⟨p, (life_reparentIn l c k p).trans hlive, by rw [hp, priority_reparentIn]⟩

theorem reparentIn_singleton (c p : Slot) (k : Kernel) :
    k.reparentIn [p] c = k.setProc p fun r => r.passFrom c k.initproc := by
  unfold reparentIn setProc
  congr 1
  funext q
  rw [update_apply]
  by_cases hq : q = p
  · simp [hq]
  · simp [hq]

theorem Sched.reparentOne (b : Build) (c : Slot) (k : Kernel) (p : Slot) :
    Sched (k.reparentIn [p] c) (k.reparentOne b c p) := by
  unfold Kernel.reparentOne
  rw [reparentIn_singleton]
  by_cases hc : k.parent p = some c
  · -- a child of `c`; a zombie among them wakes `initproc`
    have heq : k.setProc p (fun r => r.passFrom c k.initproc)
        = k.setProc p fun r => { r with parent := k.initproc } := by
      simp only [Kernel.setProc, Proc.passFrom, if_pos hc]
    rw [if_pos hc, heq]
    simp only
    split
    · exact Sched.wakeup1 b _ _
    · exact Sched.refl _
  · have heq : k.setProc p (fun r => r.passFrom c k.initproc) = k := by
      simp only [Kernel.setProc, Proc.passFrom, if_neg hc, update_eq_self]
    rw [if_neg hc, heq]
    exact Sched.refl k

theorem Sched.passLoop (b : Build) (c : Slot) (l : List Slot) (k : Kernel) :
    Sched (k.reparentIn l c) (l.foldl (Kernel.reparentOne b c) k) := by
  induction l generalizing k with
  | nil =>
    have heq : k.reparentIn [] c = k := by
      simp [Kernel.reparentIn]
    rw [heq]
    exact Sched.refl k
  | cons p l ih =>
    -- the rest of the loop commutes with the scheduling of this round
    rw [reparentIn_cons, foldl_cons]
    exact ((Sched.reparentOne b c k p).reparentIn l c).trans (ih _)

theorem Sched.passChildren (b : Build) (k : Kernel) (c : Slot) :
    Sched (k.reparent c) (k.passChildren b c) :=
  ((Sched.wakeup1 b k _).reparentIn slots c).trans (Sched.passLoop b c slots _)

end Kernel
end Xv6
