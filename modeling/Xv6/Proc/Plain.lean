/-
  Xv6.Proc.Plain

  Runs of the interleaved machine without `nice` and `kill`, in the priority
  build.
-/

import Xv6.Proc.Strict

namespace Xv6

/-- The labels of a run without `nice` and `kill`. -/
def Act.plain : Act → Bool
  | .kill _ _ | .niceFind _ _ _ | .niceSet _ | .niceRemove _ | .niceAdd _ | .race _ => false
  | _ => true

/-- The calls of such a run. -/
def Sys.plain : Sys → Bool
  | .kill _ _ | .nice _ _ _ => false
  | _ => true

namespace Kernel

open Transition

variable {k k' : Kernel} {p c : Slot} {i : Nat} {a : Act} {P : Kernel → Prop}

/-! ## What a property has to withstand -/

structure Endures (P : Kernel → Prop) : Prop extends Withstands P where
  claim : ∀ {k np}, k.Tidy → P k → k.firstUnused = some np → P (k.allocproc np)
  abandon : ∀ {k np}, k.Tidy → P k → k.state np = .EMBRYO →
    P (k.setProc np fun r => { r with state := .UNUSED })
  reap : ∀ {k i c p}, k.Tidy → P k → (k.cpu i).proc = some c → k.zombieChild c = some p →
    P (k.freed p)
  frame : ∀ {k c f}, P k → P (k.setFrame c f)

theorem Keeps.endures {C : Kernel → Sys → Prop} (K : Keeps P C) (hC : ∀ k a, a.plain = true → C k a)
    (hframe : ∀ {k c f}, P k → P (k.setFrame c f)) : Endures P where
  toWithstands := K.withstands
  claim := fun {k np} ht hP hnp =>
    K.claim ht hP (hC k (.fork 0 none none) rfl) rfl hnp
  abandon := K.abandon
  reap := by
    intro k i c p ht hP hc hp
    refine K.reap ht hP (hC k (.wait i) rfl) ?_ (zombieChild_spec hp).2
    simp only [reaps, hc, Option.bind_some, hp]
  frame := hframe

theorem Tidy.idle (ht : k.Tidy) (c : Slot) : (k.setFrame c .idle).Tidy where
  pids := ht.pids.same (fun _ => rfl) (fun _ h => h) rfl
  prios := ht.prios.same (fun _ => rfl) (fun _ => rfl) (ht.prios.frames_update c (f := .idle) trivial)
  wf := ht.wf

theorem SameView.unlock (k : Kernel) : SameView k { k with lock := none } :=
  ⟨rfl, rfl, rfl, rfl, rfl, rfl⟩

namespace Endures

theorem forkKalloc (K : Endures P) (ht : k.Tidy) (hP : P k) {np : Slot}
    (hemb : k.state np = .EMBRYO) (kalloc : Option Nat) : P (k.allocStack np kalloc) := by
  cases kalloc with
  | none =>
    refine K.view ?_ (K.abandon ht hP hemb)
    show SameView _ (k.setProc np fun r => { r with kstack := none, state := .UNUSED })
    exact (SameView.refl k).setProc_both rfl rfl rfl
  | some page => exact K.view (sameView_allocStack k np page) hP

theorem forkCopy (K : Endures P) (ht : k.Tidy) (hP : P k) {np : Slot} (hemb : k.state np = .EMBRYO)
    (c : Slot) (copyuvm : Option Nat) : P (k.forkCopy c np copyuvm) := by
  cases copyuvm with
  | none =>
    refine K.view ?_ (K.abandon ht hP hemb)
    show SameView _ (k.setProc np fun r =>
      { r with pgdir := none, kstack := none, state := .UNUSED })
    exact (SameView.refl k).setProc_both rfl rfl rfl
  | some pgdir => exact K.view (sameView_forkCopy k c np pgdir) hP

theorem forkReady (K : Endures P) (ht : k.Tidy) (hP : P k) {np : Slot}
    (hemb : k.state np = .EMBRYO) (c : Slot) : P (settle c (k.forkReady .priority c np)) := by
  have hwake : P (k.makeRunnable .priority np).1 := K.wake ht hP (.inl hemb)
  unfold Kernel.forkReady
  by_cases hres : (k.makeRunnable .priority np).2 = -1
  · simp only [hres, if_true]
    exact K.frame hwake
  · simp only [hres, if_false]
    have hv : SameView (k.makeRunnable .priority np).1
        ((k.makeRunnable .priority np).1.log (.forked (k.pid c) (k.pid np))) :=
      ⟨rfl, rfl, rfl, rfl, rfl, rfl⟩
    exact K.frame (K.view hv hwake)

theorem wait (K : Endures P) (ht : k.Tidy) (hP : P k) (hc : (k.cpu i).proc = some c)
    (hrun : k.state c = .RUNNING) : P (k.wait .priority i c) := by
  have hend := WaitEnd.wait .priority k i c
  generalize k.wait .priority i c = k' at hend ⊢
  cases hend with
  | @reaped p hpar hz hfind =>
    exact K.view ((SameView.refl k).reap c p) (K.reap ht hP hc hfind)
  | failed => exact K.view (SameView.unlock k) hP
  | asleep => exact K.sleep ht hP hrun _ _

theorem resume (K : Endures P) (ht : k.Tidy) (hP : P k) (hc : (k.cpu i).proc = some c)
    (hrun : k.state c = .RUNNING) : P (k.resume .priority i c) := by
  rcases resume_cases .priority k i c with he | ⟨m, hm, he⟩
  · rw [he]
    exact K.view (SameView.unlock k) hP
  · have hv : SameView k m := by
      rw [hm]
      exact SameView.setProc rfl rfl rfl
    have hPm : P m := K.view hv hP
    rcases he with he | he
    · rw [he]
      exact K.view (SameView.unlock m) hPm
    · rw [he]
      have hcm : (m.cpu i).proc = some c := by
        rw [hm]
        exact hc
      have hrunm : m.state c = .RUNNING := by
        rw [hv.state]
        exact hrun
      exact K.wait (ht.view hv) hPm hcm hrunm

/-- **Putting the labels together.**  The switch to a process is left to the caller. -/
theorem step (K : Endures P) (hsound : k.Sound) (hwf : k.rq.Wf) (hP : P k)
    (ha : a.plain = true) (h : k.step .priority a = some k')
    (hsched : ∀ i, a = .scheduler i → k' = k.scheduler .priority i → P k') : P k' := by
  have ht : k.Tidy := ⟨hsound.pids, hsound.prios, hwf⟩
  have hrun : ∀ {i c}, (k.cpu i).proc = some c → k.state c = .RUNNING :=
    fun hi => hsound.base.cpus.run_of_some _ _ hi
  -- the slot a `fork` under way works on
  have hemb : ∀ {c np}, (k.frame c).forking = some np → k.state np = .EMBRYO :=
    fun hf => hsound.base.forks.embryo _ _ hf
  cases Step.of_step h with
  | userinit hi hl hn hp => exact K.userinit ht (K.claim ht hP hp) _ _
  | scheduler hl hc => exact hsched _ rfl rfl
  | resume hc hl => exact K.resume ht hP hc (hrun hc)
  | forkFull => exact hP
  | forkAlloc hc hl hf hu hn => exact K.frame (K.claim ht hP hu)
  | forkKalloc hc hf => exact K.frame (K.forkKalloc ht hP (hemb (congrArg Frame.forking hf)) _)
  | forkCopy hc hf => exact K.frame (K.forkCopy ht hP (hemb (congrArg Frame.forking hf)) _ _)
  | forkReady hc hl hf => exact K.forkReady ht hP (hemb (congrArg Frame.forking hf)) _
  | exit hc hl hf hi => exact K.exit (ht.idle _) (K.frame hP) (hrun hc)
  | wait hc hl hf => exact K.wait ht hP hc (hrun hc)
  | yield hc hl => exact K.yield ht hP (hrun hc)
  | sleep hc hl => exact K.sleep ht hP (hrun hc) _ _
  | wakeup hl => exact (K.wakeup1 ht hP _).2
  | fault hc => exact K.view (SameView.setProc rfl rfl rfl) hP
  | kill | niceFail | niceFind | niceSet | niceRemove | niceAdd | race => cases ha

end Endures

/-! ## The queues in such runs -/

/-- Every process has the priority `allocproc` gives it. -/
def BornPriority (k : Kernel) : Prop := ∀ p, k.state p ≠ .UNUSED → k.priority p = 3

theorem endures_wf : Endures fun k => k.rq.Wf :=
  keeps_wf.endures (fun _ _ _ => trivial) id

theorem endures_atHome : Endures (Entries AtHome) := by
  refine keeps_atHome.endures (fun k a ha => ?_) fun h => h
  cases a with
  | kill | nice => cases ha
  | _ => trivial

theorem keeps_ownLevel_plain : Keeps (Placed OwnLevel) fun _ a => a.plain = true := by
  refine keeps_placed (fun pr _ _ => rfl) (fun pr l hlo hhi hl => ?_) ?_
  · rw [show l = pr - 1 from hl]
    exact mem_levels.mpr ⟨hlo, hhi⟩
  · intro k p i pid priority _ _ hC
    cases hC

theorem endures_ownLevel : Endures (Placed OwnLevel) :=
  keeps_ownLevel_plain.endures (fun _ _ ha => ha) id

theorem BornPriority.update (h : k.BornPriority) (p : Slot) (st : ProcState)
    (hstate : ∀ q, k'.state q = if q = p then st else k.state q)
    (hprio : ∀ q, k'.priority q = k.priority q)
    (hst : st ≠ .UNUSED → k.state p ≠ .UNUSED) : k'.BornPriority := by
  intro q hq
  rw [hprio]
  rw [hstate] at hq
  by_cases hqp : q = p
  · rw [if_pos hqp] at hq
    rw [hqp]
    exact h p (hst hq)
  · rw [if_neg hqp] at hq
    exact h q hq

theorem endures_bornPriority : Endures BornPriority where
  view := by
    intro k k' hv h q hq
    rw [hv.state] at hq
    rw [hv.priority]
    exact h q hq
  wake := by
    intro k p _ h hp
    exact h.update p .RUNNABLE (state_makeRunnable k p) (priority_makeRunnable k p)
      fun _ => used_of_wakes hp
  stop := by
    intro k c st _ h hc _
    refine h.update c st (fun q => state_setState k c q st) (fun q => priority_setState k c q st)
      fun _ => ?_
    rw [hc]
    decide
  claim := by
    intro k np _ h _ q hq
    rw [priority_allocproc]
    rw [state_allocproc] at hq
    by_cases hqp : q = np
    · rw [if_pos hqp]
    · rw [if_neg hqp] at hq ⊢
      exact h q hq
  abandon := by
    intro k np _ h _
    exact h.update np .UNUSED (fun q => state_setState k np q .UNUSED)
      (fun q => priority_setState k np q .UNUSED) fun hne => absurd rfl hne
  reap := by
    intro k i c p _ h _ _
    exact h.update p .UNUSED (state_freed k p) (priority_freed k p) fun hne => absurd rfl hne
  frame := fun h => h

theorem BornPriority.scheduler (h : k.BornPriority) (hwf : k.rq.Wf) (i : Nat) :
    (k.scheduler .priority i).BornPriority := by
  cases SchedEnd.scheduler hwf i with
  | @pop l p rest hlo hhi hrow hfirst hrest hother hprio hstate hchoice =>
    by_cases hr : k.state p = .RUNNABLE
    · refine h.update p .RUNNING (fun q => ?_) hprio fun _ => ?_
      · rw [hstate]
        simp only [hr, and_true]
      · rw [hr]
        decide
    · intro q hq
      rw [hstate, if_neg fun hself => hr hself.2] at hq
      rw [hprio]
      exact h q hq
  | empty hnone hrow hprio hstate hchoice =>
    rcases hstate with hsame | ⟨p, hp, hstate⟩
    · intro q hq
      rw [hsame] at hq
      rw [hprio]
      exact h q hq
    · refine h.update p .RUNNING hstate hprio fun _ => ?_
      rw [hp]
      decide

structure Orderly (k : Kernel) : Prop where
  sound : k.Sound
  wf : k.rq.Wf
  home : Entries AtHome k
  placed : Placed OwnLevel k
  born : k.BornPriority

theorem Orderly.tidy (h : k.Orderly) : k.Tidy := ⟨h.sound.pids, h.sound.prios, h.wf⟩

theorem orderly_boot : boot.Orderly where
  sound := sound_boot
  wf := RunQueue.wf_empty
  home := Entries.boot
  placed := Placed.boot
  born := fun _ h => absurd rfl h

theorem Orderly.step (h : k.Orderly) (ha : a.plain = true) (hs : k.step .priority a = some k') :
    k'.Orderly where
  sound := h.sound.step hs
  wf := endures_wf.step h.sound h.wf h.wf ha hs fun i _ he => he ▸ wf_scheduler h.wf i
  home := endures_atHome.step h.sound h.wf h.home ha hs fun i _ he => he ▸ h.home.popped h.tidy i
  placed := endures_ownLevel.step h.sound h.wf h.placed ha hs
    fun _ _ he => he ▸ keeps_ownLevel_plain.sched h.tidy h.placed
  born := endures_bornPriority.step h.sound h.wf h.born ha hs
    fun i _ he => he ▸ h.born.scheduler h.wf i

theorem Orderly.run {acts : List Act} (h : k.Orderly) (ha : ∀ a ∈ acts, a.plain = true)
    (hrun : Transition.run (Kernel.step .priority) k acts = some k') : k'.Orderly := by
  induction acts generalizing k with
  | nil =>
    cases hrun
    exact h
  | cons a acts ih =>
    obtain ⟨m, hm, hrest⟩ := Option.bind_eq_some_iff.mp hrun
    exact ih (h.step (ha a List.mem_cons_self) hm) (fun b hb => ha b (List.mem_cons_of_mem a hb))
      hrest

end Kernel
end Xv6
