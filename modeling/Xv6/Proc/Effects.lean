/-
  Xv6.Proc.Effects

  What a step of the interleaved machine leaves behind in the process table,
  the call frames and the records of the run.  `Effect b k k'` writes the new
  state out, with the queue arrays, the CPUs and the lock left open: the
  invariants of the table do not depend on them.
-/

import Xv6.Proc.Cpus

namespace Xv6

open Function

/-- The labels that may do nothing but move processes between sleeping,
    waiting for a CPU and running, or reap a zombie. -/
def Act.schedules : Act → Bool
  | .scheduler _ | .resume _ | .forkAlloc _ | .wait _ | .yield _ | .sleep _ _ | .wakeup _
  | .race _ => true
  | _ => false

namespace Kernel

open ProcessTree (Life)

variable {k : Kernel} {pid : Int} {p c : Slot} {a : Act}

/-- `c` is the process that makes the call, `rq` whatever the queue arrays have become. -/
inductive Effect (b : Build) (k : Kernel) : Act → Kernel → Prop
  | sched {a : Act} {k' : Kernel} (ha : a.schedules = true) (hs : Sched k k') : Effect b k a k'
  | userinit {p : Slot} {kstack pgdir : Nat} {rq : RunQueue} (hi : k.initproc = none)
      (hn : k.nextpid < INT_MAX) (hp : k.state p = .UNUSED) :
      Effect b k (.userinit kstack pgdir) { k with
        proc := update k.proc p { k.proc p with
          sz := 4096, pgdir := some pgdir, kstack := some kstack, state := .RUNNABLE
          pid := k.nextpid, context := .forkret, name := "initcode", priority := 3 }
        rq := rq
        nextpid := k.nextpid + 1
        initproc := some p
        calls := b.logCall 2 k.calls }
  | claim {i : Nat} {c np : Slot} (hc : k.life c = .live) (hf : k.frame c = .idle)
      (hn : k.nextpid < INT_MAX) (hp : k.state np = .UNUSED) :
      Effect b k (.forkAlloc i) { k with
        proc := update k.proc np { k.proc np with
          state := .EMBRYO, pid := k.nextpid, priority := 3 }
        nextpid := k.nextpid + 1
        frame := update k.frame c (.forkKalloc np) }
  | stack {i : Nat} {c np : Slot} {page : Nat} (hc : k.life c = .live)
      (hf : k.frame c = .forkKalloc np) :
      Effect b k (.forkKalloc i (some page)) { k with
        proc := update k.proc np { k.proc np with
          kstack := some page, context := .forkret }
        frame := update k.frame c (.forkCopy np) }
  | abandon {a : Act} {i : Nat} {c np : Slot} {pgdir : Option Nat}
      (ha : a = .forkKalloc i none ∨ a = .forkCopy i none) (hi : (k.cpu i).proc = some c)
      (hc : k.life c = .live) (hf : (k.frame c).forking = some np) :
      Effect b k a { k with
        proc := update k.proc np { k.proc np with
          pgdir := pgdir, kstack := none, state := .UNUSED }
        frame := update k.frame c .idle }
  | copy {i : Nat} {c np : Slot} {pgdir : Nat} (hc : k.life c = .live)
      (hf : k.frame c = .forkCopy np) :
      Effect b k (.forkCopy i (some pgdir)) { k with
        proc := update k.proc np { k.proc np with
          pgdir := some pgdir, sz := (k.proc c).sz, parent := some c, name := (k.proc c).name }
        frame := update k.frame c (.forkReady np) }
  | ready {i : Nat} {c np : Slot} {rq : RunQueue} (hc : k.life c = .live)
      (hf : k.frame c = .forkReady np) :
      Effect b k (.forkReady i) { k with
        proc := update k.proc np { k.proc np with state := .RUNNABLE }
        rq := rq
        frame := update k.frame c .idle
        trace := .forked (k.pid c) (k.pid np) :: k.trace
        calls := b.logCall (k.priority np - 1) k.calls }
  /-- The error branch of `fork`. -/
  | readyLost {i : Nat} {c np : Slot} {rq : RunQueue} (hc : k.life c = .live)
      (hf : k.frame c = .forkReady np) :
      Effect b k (.forkReady i) { k with
        proc := update k.proc np { k.proc np with state := .RUNNABLE }
        rq := rq
        frame := update k.frame c .exiting
        calls := b.logCall (k.priority np - 1) k.calls }
  | exit {i : Nat} {c : Slot} {k₁ k' : Kernel} (hc : k.life c = .live)
      (hf : k.frame c = .idle ∨ k.frame c = .exiting) (hi : k.initproc ≠ some c)
      (h₁ : Sched ((k.setFrame c .idle).reparent c) k₁)
      (h₂ : Sched ((k₁.setProc c fun r => { r with state := .ZOMBIE }).log (.exited (k.pid c))) k') :
      Effect b k (.exit i) k'
  | reap {a : Act} {c p : Slot} {k₁ : Kernel} {rq : RunQueue} (ha : a.schedules = true)
      (hs : Sched k k₁) (hc : k.life c = .live) (hpar : k.parent p = some c) (hp : k.life p = .dead) :
      Effect b k a { k₁ with
        proc := update k₁.proc p { k₁.proc p with
          kstack := none, pid := 0, parent := none, name := "", killed := false, state := .UNUSED }
        rq := rq
        lock := none
        trace := .reaped (k.pid c) (k.pid p) :: k₁.trace
        calls := b.logCall (k.priority p - 1) k₁.calls }
  | kill {i : Nat} {c p : Slot} {pid : Int} {rq : RunQueue} {f : Frame} (hc : k.life c = .live)
      (hf : k.frame c = .idle) (hp : k.findPid pid = some p) (hend : f = .idle ∨ f = .exiting) :
      Effect b k (.kill i pid) { k with
        proc := update k.proc p { k.proc p with
          killed := true, state := if k.state p = .SLEEPING then .RUNNABLE else k.state p }
        rq := rq
        frame := update k.frame c f
        calls := b.logCall (k.priority p - 1) k.calls }
  | killMiss {i : Nat} {c : Slot} {pid : Int} (hc : k.life c = .live) (hf : k.frame c = .idle)
      (hp : k.findPid pid = none) :
      Effect b k (.kill i pid) { k with frame := update k.frame c .idle }
  | niceMiss {i : Nat} {c : Slot} {pid priority : Int} (hc : k.life c = .live)
      (hf : k.frame c = .idle) (hp : k.niceFind pid priority = none) :
      Effect b k (.niceFind i pid priority) { k with frame := update k.frame c .exiting }
  | niceFind {i : Nat} {c p : Slot} {pid priority : Int} (hc : k.life c = .live)
      (hf : k.frame c = .idle) (hp : k.findPid pid = some p) (hlo : 1 ≤ priority)
      (hhi : priority ≤ 5) :
      Effect b k (.niceFind i pid priority) { k with frame := update k.frame c (.niceSet p priority) }
  | niceSet {i : Nat} {c p : Slot} {priority : Int} (hc : k.life c = .live)
      (hf : k.frame c = .niceSet p priority) :
      Effect b k (.niceSet i) { k with
        proc := update k.proc p { k.proc p with priority := priority }
        frame := update k.frame c (.niceRemove p (k.priority p) priority) }
  | niceRemove {i : Nat} {c p : Slot} {old priority : Int} {rq : RunQueue}
      (hc : k.life c = .live) (hf : k.frame c = .niceRemove p old priority) :
      Effect b k (.niceRemove i) { k with
        rq := rq
        frame := update k.frame c (.niceAdd p priority)
        calls := old :: k.calls }
  | niceAdd {i : Nat} {c p : Slot} {priority : Int} {rq : RunQueue} (hc : k.life c = .live)
      (hf : k.frame c = .niceAdd p priority) :
      Effect b k (.niceAdd i) { k with
        rq := rq
        frame := update k.frame c .idle
        calls := priority :: k.calls }
  | fault {i : Nat} {c : Slot} (hc : k.life c = .live) :
      Effect b k (.fault i) { k with proc := update k.proc c { k.proc c with killed := true } }

/-! ## `exit` before the caller becomes a zombie

Passing on the children changes parents and the scheduling. -/

section Reparent

variable {k k₁ : Kernel} {c : Slot} (h₁ : Sched ((k.setFrame c .idle).reparent c) k₁)

include h₁

theorem Sched.reparented_life (q : Slot) : k₁.life q = k.life q := by
  rw [h₁.life_eq, life, state, reparent_proc, Proc.passFrom_state]
  rfl

theorem Sched.reparented_pid (q : Slot) : k₁.pid q = k.pid q := by
  rw [h₁.pid_eq, pid, reparent_proc, Proc.passFrom_pid]
  rfl

theorem Sched.reparented_priority (q : Slot) : k₁.priority q = k.priority q := by
  rw [h₁.priority_eq, priority, reparent_proc, Proc.passFrom_priority]
  rfl

theorem Sched.reparented_killed (q : Slot) : (k₁.proc q).killed = (k.proc q).killed := by
  rw [h₁.killed_eq, reparent_proc, Proc.passFrom_killed]
  rfl

theorem Sched.reparented_parent (q : Slot) :
    k₁.parent q = if k.parent q = some c then k.initproc else k.parent q := by
  rw [h₁.parent_eq, parent, reparent_proc, Proc.passFrom_parent]
  rfl

end Reparent

/-! ## The functions that touch several fields -/

theorem userinit_eq (b : Build) (k : Kernel) (p : Slot) (kstack pgdir : Nat) :
    ∃ rq, k.userinit b p kstack pgdir = { k with
      proc := update k.proc p { k.proc p with
        sz := 4096, pgdir := some pgdir, kstack := some kstack, state := .RUNNABLE
        pid := k.nextpid, context := .forkret, name := "initcode", priority := 3 }
      rq := rq
      nextpid := k.nextpid + 1
      initproc := some p
      calls := b.logCall 2 k.calls } := by
  cases b with
  | priority =>
    refine ⟨(k.userinit .priority p kstack pgdir).rq, ?_⟩
    simp [userinit, makeRunnable, enqueue, addProcessToQueue, setProc, allocStack, allocproc,
      Build.logCall, priority]
  | custom =>
    refine ⟨k.rq, ?_⟩
    simp [userinit, makeRunnable, enqueue, setProc, allocStack, allocproc, Build.logCall]

theorem makeRunnable_eq (b : Build) (k : Kernel) (p : Slot) :
    ∃ rq, (k.makeRunnable b p).1 = { k with
      proc := update k.proc p { k.proc p with state := .RUNNABLE }
      rq := rq
      calls := b.logCall (k.priority p - 1) k.calls } := by
  cases b with
  | priority =>
    refine ⟨(k.makeRunnable .priority p).1.rq, ?_⟩
    simp [makeRunnable, enqueue, addProcessToQueue, setProc, Build.logCall, priority]
  | custom =>
    refine ⟨k.rq, ?_⟩
    simp [makeRunnable, enqueue, setProc, Build.logCall]

theorem enqueue_eq (b : Build) (k : Kernel) (p : Slot) :
    ∃ rq, (k.enqueue b p).1 = { k with
      rq := rq
      calls := b.logCall (k.priority p - 1) k.calls } := by
  cases b with
  | priority => exact ⟨_, rfl⟩
  | custom => exact ⟨k.rq, rfl⟩

theorem forkReady_eq (b : Build) (k : Kernel) (c np : Slot) :
    ∃ rq, settle c (k.forkReady b c np) = { k with
        proc := update k.proc np { k.proc np with state := .RUNNABLE }
        rq := rq
        frame := update k.frame c .idle
        trace := .forked (k.pid c) (k.pid np) :: k.trace
        calls := b.logCall (k.priority np - 1) k.calls } ∨
      settle c (k.forkReady b c np) = { k with
        proc := update k.proc np { k.proc np with state := .RUNNABLE }
        rq := rq
        frame := update k.frame c .exiting
        calls := b.logCall (k.priority np - 1) k.calls } := by
  obtain ⟨rq, hrq⟩ := makeRunnable_eq b k np
  refine ⟨rq, ?_⟩
  simp only [forkReady]
  split
  · -- the child is `RUNNABLE` although its parent will exit instead of returning
    refine .inr ?_
    simp only [settle, setFrame, hrq]
  · refine .inl ?_
    simp only [settle, setFrame, log, hrq]

def marked (k : Kernel) (p : Slot) : Kernel :=
  { k with proc := update k.proc p { k.proc p with
      killed := true, state := if k.state p = .SLEEPING then .RUNNABLE else k.state p } }

theorem marked_eq (k : Kernel) (p : Slot) :
    k.marked p = k.setProc p fun r => { r with
      killed := true, state := if k.state p = .SLEEPING then .RUNNABLE else k.state p } := rfl

theorem pid_marked (k : Kernel) (p q : Slot) : (k.marked p).pid q = k.pid q := by
  rw [marked_eq]
  exact setProc_kept k p q _ Proc.pid rfl

theorem priority_marked (k : Kernel) (p q : Slot) : (k.marked p).priority q = k.priority q := by
  rw [marked_eq]
  exact setProc_kept k p q _ Proc.priority rfl

theorem kill_found (b : Build) (hp : k.findPid pid = some p) :
    k.kill b pid = (((k.marked p).enqueue b p).1,
      if ((k.marked p).enqueue b p).2 = -1 then .exits else .ret 0) := by
  have hbody : (if (k.setProc p fun r => { r with killed := true }).state p = .SLEEPING then
        (k.setProc p fun r => { r with killed := true }).setProc p
          fun r => { r with state := .RUNNABLE }
      else k.setProc p fun r => { r with killed := true }) = k.marked p := by
    by_cases hs : (k.proc p).state = .SLEEPING
    · simp [marked, setProc, state, hs]
    · simp [marked, setProc, state, hs]
  simp only [kill, hp, hbody]
  split
  · rfl
  · rfl

theorem kill_eq (b : Build) (hp : k.findPid pid = some p) (c : Slot) :
    ∃ rq f, (f = .idle ∨ f = .exiting) ∧ settle c (k.kill b pid) = { k with
      proc := update k.proc p { k.proc p with
        killed := true, state := if k.state p = .SLEEPING then .RUNNABLE else k.state p }
      rq := rq
      frame := update k.frame c f
      calls := b.logCall (k.priority p - 1) k.calls } := by
  obtain ⟨rq, hrq⟩ := enqueue_eq b (k.marked p) p
  rw [kill_found b hp, hrq, priority_marked]
  split
  · exact ⟨rq, .exiting, .inr rfl, rfl⟩
  · exact ⟨rq, .idle, .inl rfl, rfl⟩

theorem CpuInv.live (h : k.CpuInv) {i : Nat} (hc : (k.cpu i).proc = some c) : k.life c = .live := by
  have hrun : k.state c = .RUNNING := h.run_of_some i c hc
  rw [life, hrun]
  rfl

theorem reap_eq (b : Build) (k : Kernel) (hne : c ≠ p) :
    ∃ rq, ({ k.reap b c p with lock := none } : Kernel) = { k with
      proc := update k.proc p { k.proc p with
        kstack := none, pid := 0, parent := none, name := "", killed := false, state := .UNUSED }
      rq := rq
      lock := none
      trace := .reaped (k.pid c) (k.pid p) :: k.trace
      calls := b.logCall (k.priority p - 1) k.calls } := by
  -- `c ≠ p` is needed for the pid of `c` that the record shows
  cases b with
  | priority =>
    refine ⟨(k.reap .priority c p).rq, ?_⟩
    simp [reap, removeProcessFromQueue, setProc, log, Build.logCall, priority, pid, hne]
  | custom =>
    refine ⟨k.rq, ?_⟩
    simp [reap, setProc, log, Build.logCall, pid, hne]

theorem Effect.wait (b : Build) {k₁ : Kernel} (hs : Sched k k₁) (i : Nat)
    (hc : k.life c = .live) (ha : a.schedules = true) : Effect b k a (k₁.wait b i c) := by
  have hend := WaitEnd.wait b k₁ i c
  generalize k₁.wait b i c = k' at hend ⊢
  have hc1 : k₁.life c = .live := (hs.life_eq c).trans hc
  cases hend with
  | @reaped p hpar hz hfind =>
    have hp : k.life p = .dead := by
      rw [← hs.life_eq p, life, hz]
      rfl
    -- the caller is alive, the child is not
    have hne : c ≠ p := by
      rintro rfl
      rw [hc] at hp
      cases hp
    obtain ⟨rq, hrq⟩ := reap_eq b k₁ hne
    rw [hrq, hs.pid_eq, hs.pid_eq, hs.priority_eq]
    exact .reap ha hs hc ((hs.parent_eq p).symm.trans hpar) hp
  | failed => exact .sched ha (hs.trans (Sched.cpu_lock k₁ k₁.cpu none))
  | asleep => exact .sched ha (hs.trans (Sched.sleep b i _ _ hc1))

theorem Effect.of_step {b : Build} {k' : Kernel} (hcpu : k.CpuInv)
    (st : Step b k a k') : Effect b k a k' := by
  cases st with
  | @userinit p kstack pgdir hi hl hn hp =>
    obtain ⟨rq, hrq⟩ := userinit_eq b k p kstack pgdir
    rw [hrq]
    exact .userinit hi hn (firstUnused_state hp)
  | scheduler hl hc => exact .sched rfl (Sched.scheduler b k _)
  | @resume i c hc hl =>
    have hlive := hcpu.live hc
    have hchan : Sched k (k.setProc c fun r => { r with chan := .null }) :=
      Sched.setProc (k.state c) .null (k.proc c).context rfl rfl
    rcases resume_cases b k i c with he | ⟨m, rfl, he | he⟩
    · rw [he]
      exact .sched rfl (Sched.cpu_lock k k.cpu none)
    · rw [he]
      exact .sched rfl (hchan.trans (Sched.cpu_lock _ k.cpu none))
    · rw [he]
      exact Effect.wait b hchan i hlive rfl
  | forkFull => exact .sched rfl (Sched.refl k)
  | forkAlloc hc hl hf hu hn => exact .claim (hcpu.live hc) hf hn (firstUnused_state hu)
  | @forkKalloc i c np kalloc hc hf =>
    have hlive := hcpu.live hc
    cases kalloc with
    | some page => exact .stack hlive hf
    | none => exact .abandon (.inl rfl) hc hlive (congrArg Frame.forking hf)
  | @forkCopy i c np copyuvm hc hf =>
    have hlive := hcpu.live hc
    cases copyuvm with
    | some pgdir => exact .copy hlive hf
    | none => exact .abandon (.inr rfl) hc hlive (congrArg Frame.forking hf)
  | @forkReady i c np hc hl hf =>
    have hlive := hcpu.live hc
    obtain ⟨rq, hrq | hrq⟩ := forkReady_eq b k c np
    · rw [hrq]
      exact .ready hlive hf
    · rw [hrq]
      exact .readyLost hlive hf
  | @exit i c hc hl hf hi =>
    have h₁ := Sched.passChildren b (k.setFrame c .idle) c
    refine .exit (hcpu.live hc) hf hi h₁ ?_
    -- `passChildren` touches no pid, so the record shows the pid from before
    have hpid := h₁.reparented_pid c
    unfold Kernel.exit
    generalize (k.setFrame c .idle).passChildren b c = m at hpid ⊢
    have hpid' : (m.setProc c fun r => { r with state := .ZOMBIE }).pid c = k.pid c := by
      rw [← hpid]
      simp [pid, setProc]
    simp only [hpid']
    exact Sched.swtchBack b _ i
  | wait hc hl hf => exact Effect.wait b (Sched.refl k) _ (hcpu.live hc) rfl
  | yield hc hl => exact .sched rfl (Sched.yield b _ (hcpu.live hc))
  | sleep hc hl => exact .sched rfl (Sched.sleep b _ _ _ (hcpu.live hc))
  | wakeup hl => exact .sched rfl (Sched.wakeup1 b k _)
  | @kill i c pid hc hl hf =>
    have hlive := hcpu.live hc
    cases hp : k.findPid pid with
    | some p =>
      obtain ⟨rq, f, hend, he⟩ := kill_eq b hp c
      rw [he]
      exact .kill hlive hf hp hend
    | none =>
      have he : settle c (k.kill b pid) = k.setFrame c .idle := by
        simp only [Kernel.kill, hp, settle]
      rw [he]
      exact .killMiss hlive hf hp
  | niceFail hc hf hp => exact .niceMiss (hcpu.live hc) hf hp
  | niceFind hc hf hp =>
    obtain ⟨hlo, hhi, hfind⟩ := niceFind_some hp
    exact .niceFind (hcpu.live hc) hf hfind hlo hhi
  | niceSet hc hf => exact .niceSet (hcpu.live hc) hf
  | niceRemove hc hf => exact .niceRemove (hcpu.live hc) hf
  | niceAdd hc hf => exact .niceAdd (hcpu.live hc) hf
  | fault hc => exact .fault (hcpu.live hc)
  | race => exact .sched rfl (Sched.of_proc_eq rfl rfl rfl rfl rfl (.of_eq rfl))

end Kernel
end Xv6
