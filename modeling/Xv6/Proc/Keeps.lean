/-
  Xv6.Proc.Keeps

  Properties of the run queues over whole runs of the priority build.

  `Keeps P C` lists what a property `P` has to withstand: a process is made
  runnable, stops running, is dispatched, a slot is claimed, given back or
  reaped, and `kill` and `nice`.  `Keeps.sysStep` puts the calls together from
  it, and `Keeps.along` is the run rule.  `C` restricts the calls that are
  considered.
-/

import Xv6.Proc.Rows

namespace Xv6

/-- The calls that begin with `allocproc`. -/
def Sys.claims : Sys → Bool
  | .userinit _ _ | .fork _ _ _ => true
  | _ => false

namespace Kernel

open Transition Option

variable {k k' : Kernel} {p c : Slot}
variable {P : Kernel → Prop} {acts : List Sys}

/-! ## What a property of the queues has to withstand -/

/-- `P` survives what the sections under `ptable.lock` do to processes that
    stay in use, short of switching to them. -/
structure Withstands (P : Kernel → Prop) : Prop where
  view : ∀ {k k'}, SameView k k' → P k → P k'
  wake : ∀ {k p}, k.Tidy → P k →
    k.state p = .EMBRYO ∨ k.state p = .SLEEPING ∨ k.state p = .RUNNING →
    P (k.makeRunnable .priority p).1
  stop : ∀ {k c st}, k.Tidy → P k → k.state c = .RUNNING → st = .SLEEPING ∨ st = .ZOMBIE →
    P (k.setProc c fun r => { r with state := st })

namespace Withstands

variable {P : Kernel → Prop} {i : Nat}

theorem wakeup1 (K : Withstands P) (ht : k.Tidy) (hP : P k) (chan : Chan) :
    (k.wakeup1 .priority chan).Tidy ∧ P (k.wakeup1 .priority chan) := by
  refine List.foldlRecOn (motive := fun m => Tidy m ∧ P m) slots (wakeOne .priority chan)
    ⟨ht, hP⟩ ?_
  -- every round needs the setting of the round before as well
  rintro m ⟨htm, hPm⟩ p -
  unfold wakeOne
  by_cases hw : m.state p = .SLEEPING ∧ (m.proc p).chan = chan
  · rw [if_pos hw]
    refine ⟨htm.makeRunnable ?_, K.wake htm hPm (.inr (.inl hw.1))⟩
    rw [hw.1]
    decide
  · rw [if_neg hw]
    exact ⟨htm, hPm⟩

theorem passChildren (K : Withstands P) (ht : k.Tidy) (hP : P k) (c : Slot) :
    (k.passChildren .priority c).Tidy ∧ P (k.passChildren .priority c) := by
  refine List.foldlRecOn (motive := fun m => Tidy m ∧ P m) slots (reparentOne .priority c)
    (K.wakeup1 ht hP _) ?_
  rintro m ⟨htm, hPm⟩ p -
  have hv : SameView m (m.setProc p fun r => { r with parent := m.initproc }) :=
    SameView.setProc rfl rfl rfl
  unfold reparentOne
  split
  · simp only
    split
    · exact K.wakeup1 (htm.view hv) (K.view hv hPm) _
    · exact ⟨htm.view hv, K.view hv hPm⟩
  · exact ⟨htm, hPm⟩

theorem stop_swtchBack (K : Withstands P) (ht : k.Tidy) (hP : P k) (hc : k.state c = .RUNNING)
    {st : ProcState} (hst : st = .SLEEPING ∨ st = .ZOMBIE)
    (hv : SameView (k.setProc c fun r => { r with state := st }) k') :
    P (k'.swtchBack .priority i) := by
  have hback : SameView k' (k'.swtchBack .priority i) := ⟨rfl, rfl, rfl, rfl, rfl, rfl⟩
  exact K.view (hv.trans hback) (K.stop ht hP hc hst)

theorem sleep (K : Withstands P) (ht : k.Tidy) (hP : P k) (hc : k.state c = .RUNNING) (chan : Chan)
    (ctx : Context) : P (k.sleep .priority i c chan ctx) := by
  -- the channel and the context are out of view
  have he : (k.setProc c fun r => { r with chan := chan, state := .SLEEPING, context := ctx })
      = (k.setProc c fun r => { r with state := .SLEEPING }).setProc c
        fun r => { r with chan := chan, context := ctx } := by
    simp [setProc]
  unfold Kernel.sleep
  rw [he]
  exact K.stop_swtchBack ht hP hc (.inl rfl) (SameView.setProc rfl rfl rfl)

theorem exit (K : Withstands P) (ht : k.Tidy) (hP : P k) (hc : k.state c = .RUNNING) :
    P (k.exit .priority i c) := by
  obtain ⟨ht1, hP1⟩ := K.passChildren ht hP c
  have hc1 : (k.passChildren .priority c).state c = .RUNNING :=
    ((Still.passChildren .priority k c).running c).mpr hc
  unfold Kernel.exit
  generalize k.passChildren .priority c = m at ht1 hP1 hc1 ⊢
  exact K.stop_swtchBack ht1 hP1 hc1 (.inr rfl) ⟨rfl, rfl, rfl, rfl, rfl, rfl⟩

theorem yield (K : Withstands P) (ht : k.Tidy) (hP : P k) (hc : k.state c = .RUNNING) :
    P (k.yield .priority i c) := by
  have hv : SameView (k.makeRunnable .priority c).1 (k.yield .priority i c) := by
    have hctx : SameView (k.makeRunnable .priority c).1
        ((k.makeRunnable .priority c).1.setProc c fun r => { r with context := .yield }) :=
      SameView.setProc rfl rfl rfl
    exact hctx.trans ⟨rfl, rfl, rfl, rfl, rfl, rfl⟩
  exact K.view hv (K.wake ht hP (.inr (.inr hc)))

end Withstands

theorem SameView.reap {k0 : Kernel} (hv : SameView k0 k) (c p : Slot) :
    SameView (k0.freed p) { k.reap .priority c p with lock := none } := by
  have hprio : k.priority p = k0.priority p := congrFun hv.priority p
  have hslot : SameView (k0.setProc p fun r => { r with pid := 0, state := .UNUSED })
      (k.setProc p fun r => { r with
        kstack := none, pid := 0, parent := none, name := "", killed := false
        state := .UNUSED }) :=
    hv.setProc_both rfl rfl hprio
  have hlevel : (k.setProc p fun r => { r with
        kstack := none, pid := 0, parent := none, name := "", killed := false
        state := .UNUSED }).priority p = k0.priority p := by
    rw [← hprio]
    exact setProc_kept k p p _ Proc.priority rfl
  refine (hslot.remove p (k0.priority p - 1)).trans ?_
  simp only [Kernel.reap, hlevel]
  exact ⟨rfl, rfl, rfl, rfl, rfl, rfl⟩

theorem Withstands.userinit (K : Withstands P) (ht : k.Tidy)
    (hP : P (k.allocproc p)) (kstack pgdir : Nat) : P (k.userinit .priority p kstack pgdir) := by
  have ht1 := ht.allocproc p
  have hemb : (k.allocproc p).state p = .EMBRYO := by
    rw [state_allocproc, if_pos rfl]
  unfold Kernel.userinit
  generalize k.allocproc p = m at ht1 hP hemb
  have hv2 : SameView m { m.allocStack p (some kstack) with initproc := some p } :=
    (sameView_allocStack m p kstack).trans ⟨rfl, rfl, rfl, rfl, rfl, rfl⟩
  have hv3 := hv2.trans (SameView.setProc (p := p)
    (f := fun r => { r with pgdir := some pgdir, sz := 4096, name := "initcode" }) rfl rfl rfl)
  refine K.wake (ht1.view hv3) (K.view hv3 hP) (.inl ?_)
  rw [hv3.state]
  exact hemb

/-- The zombie that a `wait` under way is about to reap. -/
def reaps (k : Kernel) : Sys → Option Slot
  | .wait i => (k.cpu i).proc.bind k.zombieChild
  | .resume i => (k.cpu i).proc.bind fun c =>
    if (k.proc c).context = .wait then k.zombieChild c else none
  | _ => none

/-- `P` survives the calls that `C` admits. -/
structure Keeps (P : Kernel → Prop) (C : Kernel → Sys → Prop) : Prop where
  view : ∀ {k k'}, SameView k k' → P k → P k'
  wake : ∀ {k p}, k.Tidy → P k →
    k.state p = .EMBRYO ∨ k.state p = .SLEEPING ∨ k.state p = .RUNNING →
    P (k.makeRunnable .priority p).1
  stop : ∀ {k c st}, k.Tidy → P k → k.state c = .RUNNING → st = .SLEEPING ∨ st = .ZOMBIE →
    P (k.setProc c fun r => { r with state := st })
  sched : ∀ {k i}, k.Tidy → P k → P (k.scheduler .priority i)
  claim : ∀ {k np a}, k.Tidy → P k → C k a → a.claims = true → k.firstUnused = some np →
    P (k.allocproc np)
  abandon : ∀ {k np}, k.Tidy → P k → k.state np = .EMBRYO →
    P (k.setProc np fun r => { r with state := .UNUSED })
  reap : ∀ {k p a}, k.Tidy → P k → C k a → k.reaps a = some p → k.state p = .ZOMBIE → P (k.freed p)
  /-- A `kill` of a process that is not asleep. -/
  requeue : ∀ {k p i pid}, k.Tidy → P k → C k (.kill i pid) → k.findPid pid = some p →
    k.state p ≠ .SLEEPING → P (k.enqueue .priority p).1
  nice : ∀ {k p i pid priority}, k.Tidy → P k → C k (.nice i pid priority) →
    k.niceFind pid priority = some p → P (k.niceTail p priority)

namespace Keeps

variable {P : Kernel → Prop} {C : Kernel → Sys → Prop} {a : Sys} {i : Nat}

theorem withstands (K : Keeps P C) : Withstands P := ⟨K.view, K.wake, K.stop⟩

theorem exitOrPanic (K : Keeps P C) (ht : k.Tidy) (hP : P k) (hc : k.state c = .RUNNING)
    (h : k.exitOrPanic .priority i c = some k') : P k' := by
  unfold Kernel.exitOrPanic at h
  split at h
  · cases h
  · rw [← some.inj h]
    exact K.withstands.exit ht hP hc

theorem finish (K : Keeps P C) {r : Kernel × Outcome} (ht : r.1.Tidy) (hP : P r.1)
    (hc : r.1.state c = .RUNNING) (h : finish .priority i c r = some k') : P k' := by
  obtain ⟨m, o⟩ := r
  cases o with
  | ret v =>
    rw [← some.inj h]
    exact hP
  | exits => exact K.exitOrPanic ht hP hc h

theorem wait {k0 : Kernel} (K : Keeps P C)
    (ht : k0.Tidy) (hP : P k0) (hC : C k0 a) (hv : SameView k0 k) (hc : k.state c = .RUNNING)
    (hreap : ∀ p, k.zombieChild c = some p → k0.reaps a = some p) : P (k.wait .priority i c) := by
  have hend := WaitEnd.wait .priority k i c
  generalize k.wait .priority i c = k' at hend ⊢
  cases hend with
  | @reaped p hpar hz hfind =>
    have hz0 : k0.state p = .ZOMBIE := by rw [← hv.state]; exact hz
    exact K.view (hv.reap c p) (K.reap ht hP hC (hreap p hfind) hz0)
  | failed => exact K.view (hv.trans ⟨rfl, rfl, rfl, rfl, rfl, rfl⟩) hP
  | asleep => exact K.withstands.sleep (ht.view hv) (K.view hv hP) hc _ _

theorem resume (K : Keeps P C) (ht : k.Tidy) (hP : P k) (hC : C k (.resume i))
    (hi : (k.cpu i).proc = some c) (hc : k.state c = .RUNNING) : P (k.resume .priority i c) := by
  have hv : SameView k (k.setProc c fun r => { r with chan := .null }) :=
    SameView.setProc rfl rfl rfl
  have hlock : ∀ m : Kernel, SameView m { m with lock := none } :=
    fun m => ⟨rfl, rfl, rfl, rfl, rfl, rfl⟩
  unfold Kernel.resume
  split
  · exact K.view (hlock k) hP
  · exact K.view (hlock k) hP
  · exact K.view (hv.trans (hlock _)) hP
  · rename_i hctx
    refine K.wait ht hP hC hv ?_ fun p hp => ?_
    · rw [hv.state]
      exact hc
    · have hfind : (k.setProc c fun r => { r with chan := .null }).zombieChild c
          = k.zombieChild c := by
        unfold zombieChild
        congr 1
        funext q
        have hpar := setProc_kept k c q (fun r => { r with chan := .null }) Proc.parent rfl
        have hst := setProc_kept k c q (fun r => { r with chan := .null }) Proc.state rfl
        rw [parent, state, hpar, hst]
      simp only [reaps, hi, bind_some, hctx, if_true]
      rw [← hfind]
      exact hp

theorem kill (K : Keeps P C) (ht : k.Tidy) (hP : P k) {pid : Int} (hC : C k (.kill i pid)) :
    (k.kill .priority pid).1.Tidy ∧ P (k.kill .priority pid).1 := by
  cases hp : k.findPid pid with
  | none =>
    simp only [Kernel.kill, hp]
    exact ⟨ht, hP⟩
  | some p =>
    rw [kill_found .priority hp]
    by_cases hs : k.state p = .SLEEPING
    · -- a sleeper is made runnable
      have hv : SameView (k.setProc p fun r => { r with state := .RUNNABLE }) (k.marked p) := by
        rw [marked_eq]
        exact (SameView.refl k).setProc_both (if_pos hs) rfl rfl
      have hused : k.state p ≠ .UNUSED := by
        rw [hs]
        decide
      have hve := hv.enqueue p
      exact ⟨(ht.makeRunnable hused).view hve, K.view hve (K.wake ht hP (.inr (.inl hs)))⟩
    · -- any other process is queued in the state it is in
      have hv : SameView k (k.marked p) := by
        rw [marked_eq]
        exact SameView.setProc (if_neg hs) rfl rfl
      have hve := hv.enqueue p
      have hte : (k.enqueue .priority p).1.Tidy :=
        ⟨ht.pids.same (fun _ => rfl) (fun _ h => h) rfl,
          ht.prios.same (fun _ => rfl) (fun _ => rfl) ht.prios.frames, ht.wf.add _ _ _⟩
      exact ⟨hte.view hve, K.view hve (K.requeue ht hP hC hp hs)⟩

theorem forkReady (K : Keeps P C) (ht : k.Tidy) (hP : P k) {np : Slot}
    (hemb : k.state np = .EMBRYO) (hc : k.state c = .RUNNING)
    (h : Kernel.finish .priority i c (k.forkReady .priority c np) = some k') : P k' := by
  have hne : c ≠ np := by
    rintro rfl
    rw [hc] at hemb
    cases hemb
  have ht1 : (k.makeRunnable .priority np).1.Tidy := by
    refine ht.makeRunnable ?_
    rw [hemb]
    decide
  have hP1 := K.wake ht hP (.inl hemb)
  have hc1 : (k.makeRunnable .priority np).1.state c = .RUNNING := by
    rw [state_makeRunnable, if_neg hne]
    exact hc
  unfold Kernel.forkReady at h
  simp only at h
  split at h
  · -- the child was taken for queued: the parent exits
    exact K.finish ht1 hP1 hc1 h
  · have hv : SameView (k.makeRunnable .priority np).1
        ((k.makeRunnable .priority np).1.log (.forked (k.pid c) (k.pid np))) :=
      ⟨rfl, rfl, rfl, rfl, rfl, rfl⟩
    refine K.finish (ht1.view hv) (K.view hv hP1) ?_ h
    exact hc1

theorem fork (K : Keeps P C) (ht : k.Tidy) (hP : P k) {kalloc copyuvm : Option Nat}
    (hC : C k (.fork i kalloc copyuvm)) (hc : k.state c = .RUNNING)
    (h : k.fork .priority i c kalloc copyuvm = some k') : P k' := by
  unfold Kernel.fork at h
  cases hu : k.firstUnused with
  | none =>
    simp only [hu] at h
    rw [← some.inj h]
    exact hP
  | some np =>
    simp only [hu] at h
    split at h
    case isFalse => cases h
    have ht1 := ht.allocproc np
    have hP1 := K.claim ht hP hC rfl hu
    have hemb : (k.allocproc np).state np = .EMBRYO := by
      rw [state_allocproc, if_pos rfl]
    have hne : c ≠ np := by
      rintro rfl
      rw [firstUnused_state hu] at hc
      cases hc
    have hc1 : (k.allocproc np).state c = .RUNNING := by
      rw [state_allocproc, if_neg hne]
      exact hc
    -- from here on the claimed state is all that counts
    generalize k.allocproc np = m at h ht1 hP1 hemb hc1
    cases kalloc with
    | none =>
      simp only [if_true] at h
      rw [← some.inj h]
      refine K.view ?_ (K.abandon ht1 hP1 hemb)
      show SameView _ (m.setProc np fun r => { r with kstack := none, state := .UNUSED })
      exact (SameView.refl m).setProc_both rfl rfl rfl
    | some page =>
      simp only [reduceCtorEq, if_false] at h
      have hv2 : SameView m (m.allocStack np (some page)) := sameView_allocStack m np page
      generalize m.allocStack np (some page) = m2 at h hv2
      cases copyuvm with
      | none =>
        simp only [if_true] at h
        rw [← some.inj h]
        refine K.view ?_ (K.abandon ht1 hP1 hemb)
        show SameView _ (m2.setProc np fun r =>
          { r with pgdir := none, kstack := none, state := .UNUSED })
        exact hv2.setProc_both rfl (congrFun hv2.pid np) (congrFun hv2.priority np)
      | some pgdir =>
        simp only [reduceCtorEq, if_false] at h
        have hv3 : SameView m (m2.forkCopy c np (some pgdir)) :=
          hv2.trans (sameView_forkCopy m2 c np pgdir)
        generalize m2.forkCopy c np (some pgdir) = m3 at h hv3
        have hemb3 : m3.state np = .EMBRYO := by
          rw [hv3.state]
          exact hemb
        have hc3 : m3.state c = .RUNNING := by
          rw [hv3.state]
          exact hc1
        exact K.forkReady (ht1.view hv3) (K.view hv3 hP1) hemb3 hc3 h

theorem sysStep (K : Keeps P C) (hsound : k.Sound) (hwf : k.rq.Wf) (hP : P k) (hC : C k a)
    (h : k.sysStep .priority a = some k') : P k' := by
  have ht : k.Tidy := ⟨hsound.pids, hsound.prios, hwf⟩
  have hrun : ∀ {i c}, (k.cpu i).proc = some c → k.state c = .RUNNING :=
    fun hi => hsound.base.cpus.run_of_some _ _ hi
  cases a with
  | userinit kstack pgdir =>
    cases Step.of_step (show k.step .priority (.userinit kstack pgdir) = some k' from h) with
    | @userinit p _ _ hi hl hn hp =>
      exact K.withstands.userinit ht (K.claim ht hP hC rfl hp) kstack pgdir
  | scheduler i =>
    cases Step.of_step (show k.step .priority (.scheduler i) = some k' from h) with
    | scheduler hl hc => exact K.sched ht hP
  | resume i =>
    cases Step.of_step (show k.step .priority (.resume i) = some k' from h) with
    | resume hc hl => exact K.resume ht hP hC hc (hrun hc)
  | fork i kalloc copyuvm =>
    obtain ⟨c, hc, -, h⟩ := onCpu_guard h
    exact K.fork ht hP hC (hrun hc) h
  | exit i =>
    obtain ⟨c, hc, -, h⟩ := onCpu_guard h
    exact K.exitOrPanic ht hP (hrun hc) h
  | wait i =>
    obtain ⟨c, hc, -, h⟩ := onCpu_guard h
    rw [← some.inj h]
    refine K.wait ht hP hC ⟨rfl, rfl, rfl, rfl, rfl, rfl⟩ (hrun hc) fun p hp => ?_
    simp only [reaps, hc, bind_some, hp]
  | yield i =>
    cases Step.of_step (show k.step .priority (.yield i) = some k' from h) with
    | yield hc hl => exact K.withstands.yield ht hP (hrun hc)
  | sleep i chan =>
    obtain ⟨c, hc, -, h⟩ := onCpu_guard h
    rw [← some.inj h]
    exact K.withstands.sleep ht hP (hrun hc) _ _
  | wakeup chan =>
    cases Step.of_step (show k.step .priority (.wakeup chan) = some k' from h) with
    | wakeup hl => exact (K.withstands.wakeup1 ht hP chan).2
  | kill i pid =>
    obtain ⟨c, hc, -, h⟩ := onCpu_guard h
    obtain ⟨ht', hP'⟩ := K.kill ht hP hC
    refine K.finish ht' hP' ?_ h
    rw [(Still.kill .priority k pid).running]
    exact hrun hc
  | nice i pid priority =>
    obtain ⟨c, hc, -, h⟩ := onCpu_guard h
    split at h
    · exact K.exitOrPanic ht hP (hrun hc) h
    · rename_i p hp
      rw [← some.inj h]
      exact K.nice ht hP hC hp
  | fault i =>
    cases Step.of_step (show k.step .priority (.fault i) = some k' from h) with
    | fault hc => exact K.view (SameView.setProc rfl rfl rfl) hP

end Keeps

/-! ## Whole runs -/

theorem wf_scheduler (hwf : k.rq.Wf) (i : Nat) : (k.scheduler .priority i).rq.Wf := by
  have hpop : (k.pop i).rq.Wf := by
    cases hf : k.firstLevel with
    | none =>
      simp only [pop, hf]
      exact hwf
    | some l =>
      obtain ⟨p, rest, hq, -⟩ := exists_head hwf (firstLevel_spec hf).2.1
      rw [pop_of_head hf hq]
      exact hwf.remove _ _ _
  cases hc : (k.pop i).choice i with
  | none =>
    rw [scheduler_of_no_choice hc]
    exact hpop
  | some p =>
    rw [scheduler_of_choice hc]
    exact hpop

theorem keeps_wf : Keeps (fun k => k.rq.Wf) fun _ _ => True where
  view := fun hv hwf => hv.rq ▸ hwf
  wake := by
    intro k p ht hwf _
    rw [makeRunnable_eq_add]
    exact hwf.add _ _ _
  stop := fun _ hwf _ _ => hwf
  sched := fun _ hwf => wf_scheduler hwf _
  claim := fun _ hwf _ _ _ => hwf
  abandon := fun _ hwf _ => hwf
  reap := fun _ hwf _ _ _ => hwf.remove _ _ _
  requeue := fun _ hwf _ _ _ => hwf.add _ _ _
  nice := fun _ hwf _ _ => (hwf.remove _ _ _).add _ _ _

/-- **The run rule.**  A property that survives the admitted calls holds along every run of them. -/
theorem Keeps.along {C : Kernel → Sys → Prop} (K : Keeps P C) (h0 : P boot)
    (hC : Meets (Kernel.sysStep .priority) C boot acts) :
    Along (Kernel.sysStep .priority) (fun k => k.Tidy ∧ P k) boot acts := by
  have hrun : Along (Kernel.sysStep .priority) (fun k => (k.Sound ∧ k.Idle) ∧ k.rq.Wf ∧ P k) boot acts := by
    refine along_of_meets ⟨⟨sound_boot, fun _ => rfl⟩, RunQueue.wf_empty, h0⟩ ?_ hC
    rintro k a k' ⟨⟨hsound, hidle⟩, hwf, hP⟩ hCa hs
    exact ⟨hsound.sysStep hidle hs, keeps_wf.sysStep hsound hwf hwf trivial hs,
      K.sysStep hsound hwf hP hCa hs⟩
  refine hrun.mono fun k hk => ?_
  obtain ⟨⟨hsound, -⟩, hwf, hP⟩ := hk
  exact ⟨⟨hsound.pids, hsound.prios, hwf⟩, hP⟩

theorem wf_of_run (h : run (sysStep .priority) boot acts = some k) : k.rq.Wf := by
  have hany : Meets (sysStep .priority) (fun _ _ => True) boot acts :=
    meets_of_labels fun _ _ _ => trivial
  have halong := keeps_wf.along RunQueue.wf_empty hany
  exact (along_iff_run.mp halong acts [] k (List.append_nil acts).symm h).2

/-- `nice` does not reach a process with priority 5 and `kill` does not find a
    slot of priority 0: all queue accesses stay inside the arrays. -/
def InArrays (k : Kernel) : Sys → Prop
  | .nice _ pid priority => priority = 5 → k.findPid pid = none
  | .kill _ pid => ∀ p, k.findPid pid = some p → k.priority p ≠ 0
  | _ => True

instance : ∀ a, Decidable (k.InArrays a)
  | .nice _ pid priority => inferInstanceAs (Decidable (priority = 5 → k.findPid pid = none))
  | .kill _ pid => inferInstanceAs (Decidable (∀ p, k.findPid pid = some p → k.priority p ≠ 0))
  | .userinit _ _ | .scheduler _ | .resume _ | .fork _ _ _ | .exit _ | .wait _ | .yield _
  | .sleep _ _ | .wakeup _ | .fault _ => .isTrue trivial

theorem InArrays.nice_level {i : Nat} {pid priority : Int} (h : k.InArrays (.nice i pid priority))
    (hp : k.niceFind pid priority = some p) : 0 ≤ priority ∧ priority < 5 := by
  obtain ⟨hlo, hhi, hfind⟩ := niceFind_some hp
  have hne : priority ≠ 5 := by
    intro he
    rw [h he] at hfind
    cases hfind
  omega

end Kernel
end Xv6
