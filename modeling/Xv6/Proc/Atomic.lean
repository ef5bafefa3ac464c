/-
  Xv6.Proc.Atomic

  The machine with atomic system calls is a part of the interleaved one: each
  of its steps is a run of the latter from and to a state with no call under
  way.  So whatever holds in the reachable states of the interleaved machine
  holds in those of the atomic one.
-/

import Xv6.Proc.Slots

namespace Xv6
namespace Kernel

open Transition Option

variable {b : Build} {k k' : Kernel} {a : Sys} {i : Nat} {c p : Slot} {f g : Frame}

/-- No system call is between two of its parts. -/
def Idle (k : Kernel) : Prop := ∀ c, k.frame c = .idle

/-! ## Frames -/

theorem setFrame_setFrame : (k.setFrame c f).setFrame c g = k.setFrame c g := by
  simp [setFrame]

theorem setFrame_self (h : k.frame c = f) : k.setFrame c f = k := by
  subst h
  simp [setFrame]

theorem wait_frame (b : Build) (k : Kernel) (i : Nat) (c : Slot) (hc : k.life c = .live) :
    (k.wait b i c).frame = k.frame := by
  have hend := WaitEnd.wait b k i c
  generalize k.wait b i c = k' at hend ⊢
  cases hend with
  | reaped hpar hz hfind => cases b <;> rfl
  | failed => rfl
  | asleep => exact (Sched.sleep b i _ _ hc).frame

theorem resume_frame (b : Build) (k : Kernel) (i : Nat) (c : Slot) (hc : k.life c = .live) :
    (k.resume b i c).frame = k.frame := by
  rcases resume_cases b k i c with he | ⟨m, rfl, he | he⟩
  · rw [he]
  · rw [he]
    rfl
  · rw [he]
    refine wait_frame b _ i c ?_
    simpa [life, state, setProc] using hc

theorem exit_frame (b : Build) (k : Kernel) (i : Nat) (c : Slot) :
    (k.exit b i c).frame = k.frame := by
  have h1 := (Sched.passChildren b k c).frame
  unfold Kernel.exit
  generalize k.passChildren b c = m at h1 ⊢
  exact (Sched.swtchBack b _ i).frame.trans h1

/-! ## The simulation -/

theorem exit_reachable {m : Kernel} (hidle : m.Idle) (hc : (m.cpu i).proc = some c)
    (hl : m.lock = none) (hr : Reachable (step b) k (m.setFrame c .exiting))
    (h : m.exitOrPanic b i c = some k') : Reachable (step b) k k' ∧ k'.Idle := by
  unfold exitOrPanic at h
  split at h
  · cases h
  · rename_i hinit
    -- the exit clears the frame that the error branch has set
    have he : (m.setFrame c .exiting).step b (.exit i) = some k' := by
      rw [← h]
      show onCpu _ _ _ = _
      rw [onCpu, show ((m.setFrame c .exiting).cpu i).proc = some c from hc]
      show (if _ then _ else _) = _
      rw [if_pos, setFrame_setFrame, setFrame_self (hidle c)]
      exact ⟨hl, .inr (by simp [setFrame]), hinit⟩
    refine ⟨hr.tail he, fun c' => ?_⟩
    rw [← some.inj h, exit_frame]
    exact hidle c'

theorem reachable_of_step {a : Act} (hidle : k.Idle) (h : k.step b a = some k')
    (hframe : k'.frame = k.frame) : Reachable (step b) k k' ∧ k'.Idle :=
  ⟨Reachable.refl.tail h, fun c => by rw [hframe]; exact hidle c⟩

/-! The parts of a call, started from the frame the previous part has left. -/

section Parts

variable {m : Kernel} {np : Slot} {old priority : Int}

theorem step_forkKalloc (hc : (m.cpu i).proc = some c) (hl : m.lock = none)
    (kalloc : Option Nat) :
    (m.setFrame c (.forkKalloc np)).step b (.forkKalloc i kalloc) =
      some ((m.allocStack np kalloc).setFrame c
        (if kalloc.isSome then .forkCopy np else .idle)) := by
  cases kalloc <;> simp [step, onCpu, setFrame, allocStack, setProc, hc, hl]

theorem step_forkCopy (hc : (m.cpu i).proc = some c) (hl : m.lock = none)
    (copyuvm : Option Nat) :
    (m.setFrame c (.forkCopy np)).step b (.forkCopy i copyuvm) =
      some ((m.forkCopy c np copyuvm).setFrame c
        (if copyuvm.isSome then .forkReady np else .idle)) := by
  cases copyuvm <;> simp [step, onCpu, setFrame, forkCopy, setProc, hc, hl]

theorem setFrame_makeRunnable :
    (m.setFrame c f).makeRunnable b p = ((m.makeRunnable b p).1.setFrame c f, (m.makeRunnable b p).2) := by
  cases b <;> rfl

theorem step_forkReady (hc : (m.cpu i).proc = some c) (hl : m.lock = none) :
    (m.setFrame c (.forkReady np)).step b (.forkReady i) = some (settle c (m.forkReady b c np)) := by
  have hready : settle c ((m.setFrame c (.forkReady np)).forkReady b c np)
      = settle c (m.forkReady b c np) := by
    simp only [forkReady, setFrame_makeRunnable]
    split
    · exact setFrame_setFrame
    · simp [settle, setFrame, log, pid]
  rw [← hready]
  simp only [step, onCpu]
  rw [show ((m.setFrame c (.forkReady np)).cpu i).proc = some c from hc]
  simp [setFrame, hl]

theorem step_niceSet (hc : (m.cpu i).proc = some c) (hl : m.lock = none) :
    (m.setFrame c (.niceSet p priority)).step b (.niceSet i) =
      some ((m.niceSet p priority).setFrame c (.niceRemove p (m.priority p) priority)) := by
  simp [step, onCpu, setFrame, niceSet, setProc, hc, hl]

theorem step_niceRemove (hc : (m.cpu i).proc = some c) (hl : m.lock = none) :
    (m.setFrame c (.niceRemove p old priority)).step b (.niceRemove i) =
      some ((m.removeProcessFromQueue p old).1.setFrame c (.niceAdd p priority)) := by
  simp [step, onCpu, setFrame, removeProcessFromQueue, hc, hl]

theorem step_niceAdd (hc : (m.cpu i).proc = some c) (hl : m.lock = none) :
    (m.setFrame c (.niceAdd p priority)).step b (.niceAdd i) =
      some ((m.addProcessToQueue p priority).1.setFrame c .idle) := by
  simp [step, onCpu, setFrame, addProcessToQueue, hc, hl]

end Parts

theorem Idle.of_frame (hidle : k.Idle) {m : Kernel} (hm : m.frame = k.frame) :
    m.setFrame c .idle = m ∧ m.Idle := by
  refine ⟨setFrame_self (by rw [hm]; exact hidle c), fun c' => ?_⟩
  rw [hm]
  exact hidle c'

theorem settle_reachable (hidle : k.Idle) (hc : (k.cpu i).proc = some c) (hl : k.lock = none)
    {r : Kernel × Outcome} (hframe : r.1.frame = k.frame)
    (hcpu : r.1.cpu = k.cpu) (hlock : r.1.lock = k.lock) (hr : Reachable (step b) k (settle c r))
    (h : finish b i c r = some k') : Reachable (step b) k k' ∧ k'.Idle := by
  obtain ⟨m, o⟩ := r
  obtain ⟨hset, hidle'⟩ := hidle.of_frame (c := c) hframe
  cases o with
  | ret v =>
    cases h
    rw [settle, hset] at hr
    exact ⟨hr, hidle'⟩
  | exits => exact exit_reachable hidle' (by rw [hcpu]; exact hc) (hlock.trans hl) hr h

theorem fork_reachable (hidle : k.Idle) (hc : (k.cpu i).proc = some c) (hl : k.lock = none)
    {kalloc copyuvm : Option Nat} (h : k.fork b i c kalloc copyuvm = some k') :
    Reachable (step b) k k' ∧ k'.Idle := by
  unfold fork at h
  cases hu : k.firstUnused with
  | none =>
    simp only [hu] at h
    rw [← some.inj h]
    exact ⟨.refl, hidle⟩
  | some np =>
    simp only [hu] at h
    split at h
    case isFalse => cases h
    rename_i hn
    -- up to four labels: claim, stack, copy, ready
    have h1 : k.step b (.forkAlloc i) = some ((k.allocproc np).setFrame c (.forkKalloc np)) := by
      simp [step, onCpu, hc, hl, hidle c, hu, hn]
    have hr1 := (@Reachable.refl _ _ (step b) k).tail h1
    cases kalloc with
    | none =>
      simp only [if_true] at h
      obtain ⟨hset, hidle'⟩ := hidle.of_frame (c := c)
        (m := (k.allocproc np).allocStack np none) rfl
      have hr2 := hr1.tail (step_forkKalloc (m := k.allocproc np) hc hl none)
      rw [← some.inj h]
      refine ⟨?_, hidle'⟩
      rw [← hset]
      exact hr2
    | some page =>
      simp only [reduceCtorEq, if_false] at h
      have hr2 := hr1.tail (step_forkKalloc (m := k.allocproc np) hc hl (some page))
      generalize hm : (k.allocproc np).allocStack np (some page) = m at h hr2
      have hmc : (m.cpu i).proc = some c := by
        rw [← hm]
        exact hc
      have hml : m.lock = none := by
        rw [← hm]
        exact hl
      have hmf : m.frame = k.frame := by rw [← hm]; rfl
      cases copyuvm with
      | none =>
        simp only [if_true] at h
        obtain ⟨hset, hidle'⟩ := hidle.of_frame (c := c) (m := m.forkCopy c np none) hmf
        have hr3 := hr2.tail (step_forkCopy hmc hml none)
        rw [← some.inj h]
        refine ⟨?_, hidle'⟩
        rw [← hset]
        exact hr3
      | some pgdir =>
        simp only [reduceCtorEq, if_false] at h
        have hr3 := hr2.tail (step_forkCopy hmc hml (some pgdir))
        have hr4 := hr3.tail (step_forkReady (m := m.forkCopy c np (some pgdir)) hmc hml)
        have hready : ∀ m : Kernel, (m.forkReady b c np).1.frame = m.frame ∧
            (m.forkReady b c np).1.cpu = m.cpu ∧ (m.forkReady b c np).1.lock = m.lock := by
          intro m
          unfold forkReady makeRunnable
          simp only
          split <;> simp [log, setProc]
        obtain ⟨hf, hcpu, hlock⟩ := hready (m.forkCopy c np (some pgdir))
        refine settle_reachable hidle hc hl (hf.trans hmf) (hcpu.trans ?_) (hlock.trans ?_) hr4 h
        · rw [← hm]
          rfl
        · rw [← hm]
          rfl

theorem kill_reachable (hidle : k.Idle) (hc : (k.cpu i).proc = some c) (hl : k.lock = none)
    {pid : Int} (h : finish b i c (k.kill b pid) = some k') :
    Reachable (step b) k k' ∧ k'.Idle := by
  have h1 : k.step b (.kill i pid) = some (settle c (k.kill b pid)) := by
    simp [step, onCpu, hc, hl, hidle c]
  have hkill : (k.kill b pid).1.frame = k.frame ∧ (k.kill b pid).1.cpu = k.cpu ∧
      (k.kill b pid).1.lock = k.lock := by
    cases hp : k.findPid pid with
    | none => simp [kill, hp]
    | some p =>
      rw [kill_found b hp]
      simp [marked]
  exact settle_reachable hidle hc hl hkill.1 hkill.2.1 hkill.2.2 (Reachable.refl.tail h1) h

theorem nice_reachable (hidle : k.Idle) (hc : (k.cpu i).proc = some c) (hl : k.lock = none)
    {pid priority : Int}
    (h : (match k.niceFind pid priority with
      | none => k.exitOrPanic b i c
      | some p => some (k.niceTail p priority)) = some k') :
    Reachable (step b) k k' ∧ k'.Idle := by
  cases hp : k.niceFind pid priority with
  | none =>
    simp only [hp] at h
    have h1 : k.step b (.niceFind i pid priority) = some (k.setFrame c .exiting) := by
      simp [step, onCpu, hc, hl, hidle c, hp]
    exact exit_reachable hidle hc hl (Reachable.refl.tail h1) h
  | some p =>
    simp only [hp] at h
    have h1 : k.step b (.niceFind i pid priority) = some (k.setFrame c (.niceSet p priority)) := by
      simp [step, onCpu, hc, hl, hidle c, hp]
    -- the unlocked parts follow one another
    have hr1 := (@Reachable.refl _ _ (step b) k).tail h1
    have hr2 := hr1.tail (step_niceSet hc hl)
    have hr3 := hr2.tail (step_niceRemove (m := k.niceSet p priority) hc hl)
    have hr4 := hr3.tail (step_niceAdd
      (m := ((k.niceSet p priority).removeProcessFromQueue p (k.priority p)).1) hc hl)
    obtain ⟨hset, hidle'⟩ := hidle.of_frame (c := c) (m := k.niceTail p priority) rfl
    rw [← some.inj h]
    refine ⟨?_, hidle'⟩
    rw [← hset]
    exact hr4

/-- **Simulation.**  A step of the atomic machine is a run of the interleaved one. -/
theorem sysStep_reachable (hidle : k.Idle) (hcpu : k.CpuInv) (h : k.sysStep b a = some k') :
    Reachable (step b) k k' ∧ k'.Idle := by
  cases a with
  | userinit kstack pgdir =>
    have h : k.step b (.userinit kstack pgdir) = some k' := h
    refine reachable_of_step hidle h ?_
    cases Step.of_step h with
    | @userinit p _ _ hi hl hn hp =>
      obtain ⟨rq, hrq⟩ := userinit_eq b k p kstack pgdir
      rw [hrq]
  | scheduler i =>
    have h : k.step b (.scheduler i) = some k' := h
    refine reachable_of_step hidle h ?_
    cases Step.of_step h with
    | scheduler hl hc => exact (Sched.scheduler b k i).frame
  | resume i =>
    have h : k.step b (.resume i) = some k' := h
    refine reachable_of_step hidle h ?_
    cases Step.of_step h with
    | resume hc hl => exact resume_frame b k i _ (hcpu.live hc)
  | fork i kalloc copyuvm =>
    obtain ⟨c, hc, hl, h⟩ := onCpu_guard h
    exact fork_reachable hidle hc hl h
  | exit i =>
    obtain ⟨c, hc, hl, h⟩ := onCpu_guard h
    unfold exitOrPanic at h
    split at h
    · cases h
    · rename_i hinit
      have h1 : k.step b (.exit i) = some k' := by
        rw [← h]
        simp [step, onCpu, hc, hl, hidle c, hinit, setFrame_self (hidle c)]
      refine reachable_of_step hidle h1 ?_
      rw [← some.inj h]
      exact exit_frame b k i c
  | wait i =>
    obtain ⟨c, hc, hl, h⟩ := onCpu_guard h
    have h1 : k.step b (.wait i) = some k' := by
      rw [← h]
      simp [step, onCpu, hc, hl, hidle c]
    refine reachable_of_step hidle h1 ?_
    rw [← some.inj h]
    exact wait_frame b k i c (hcpu.live hc)
  | yield i =>
    have h : k.step b (.yield i) = some k' := h
    refine reachable_of_step hidle h ?_
    cases Step.of_step h with
    | yield hc hl => exact (Sched.yield b i (hcpu.live hc)).frame
  | sleep i chan =>
    obtain ⟨c, hc, hl, h⟩ := onCpu_guard h
    have h1 : k.step b (.sleep i chan) = some k' := by
      rw [← h]
      simp [step, onCpu, hc, hl, hidle c]
    refine reachable_of_step hidle h1 ?_
    rw [← some.inj h]
    exact (Sched.sleep b i chan .sleep (hcpu.live hc)).frame
  | wakeup chan =>
    have h : k.step b (.wakeup chan) = some k' := h
    refine reachable_of_step hidle h ?_
    cases Step.of_step h with
    | wakeup hl => exact (Sched.wakeup1 b k chan).frame
  | kill i pid =>
    obtain ⟨c, hc, hl, h⟩ := onCpu_guard h
    exact kill_reachable hidle hc hl h
  | nice i pid priority =>
    obtain ⟨c, hc, hl, h⟩ := onCpu_guard h
    exact nice_reachable hidle hc hl h
  | fault i =>
    have h : k.step b (.fault i) = some k' := h
    refine reachable_of_step hidle h ?_
    cases Step.of_step h with
    | fault hc => rfl

theorem Sound.reachable (h : k.Sound) (hr : Reachable (Kernel.step b) k k') : k'.Sound :=
  hr.invariant h fun _ _ _ hk hs => hk.step hs

theorem Sound.sysStep (h : k.Sound) (hidle : k.Idle) (hs : k.sysStep b a = some k') :
    k'.Sound ∧ k'.Idle := by
  obtain ⟨hr, hidle'⟩ := sysStep_reachable hidle h.base.cpus hs
  exact ⟨h.reachable hr, hidle'⟩

/-- **Atomic calls.**  What system calls do that are executed one after the other, each as a whole,
    is among what their interleavings do. -/
theorem calls_are_runs (b : Build) (calls : List Sys) :
    Along (Kernel.sysStep b) (fun k => Reachable (Kernel.step b) boot k ∧ k.Idle) boot calls := by
  refine along_of_invariant ⟨.refl, fun _ => rfl⟩ (fun k a k' hk hs => ?_) calls
  obtain ⟨hr, hidle⟩ := sysStep_reachable hk.2 (sound_boot.reachable hk.1).base.cpus hs
  exact ⟨hk.1.trans hr, hidle⟩

end Kernel
end Xv6
