/-
  Xv6.Proc.Steps

  The steps of the interleaved machine, inverted: `Step b k a k'` lists for
  every label its guard and its result, and `Step.of_step` is the only place
  where the definition of `step` is unfolded.
-/

import Xv6.Proc.Sched

namespace Xv6
namespace Kernel

open Transition

variable {k k' : Kernel} {p : Slot} {pid : Int}

/-- The graph of `step`, one rule for every way a label can go. -/
inductive Step (b : Build) (k : Kernel) : Act → Kernel → Prop
  | userinit {p : Slot} {kstack pgdir : Nat} (hi : k.initproc = none) (hl : k.lock = none)
      (hn : k.nextpid < INT_MAX) (hp : k.firstUnused = some p) :
      Step b k (.userinit kstack pgdir) (k.userinit b p kstack pgdir)
  | scheduler {i : Nat} (hl : k.lock = none) (hc : (k.cpu i).proc = none) :
      Step b k (.scheduler i) (k.scheduler b i)
  | resume {i : Nat} {c : Slot} (hc : (k.cpu i).proc = some c) (hl : k.lock = some i) :
      Step b k (.resume i) (k.resume b i c)
  | forkFull {i : Nat} : Step b k (.forkAlloc i) k
  | forkAlloc {i : Nat} {c np : Slot} (hc : (k.cpu i).proc = some c) (hl : k.lock = none)
      (hf : k.frame c = .idle) (hu : k.firstUnused = some np) (hn : k.nextpid < INT_MAX) :
      Step b k (.forkAlloc i) ((k.allocproc np).setFrame c (.forkKalloc np))
  | forkKalloc {i : Nat} {c np : Slot} {kalloc : Option Nat} (hc : (k.cpu i).proc = some c)
      (hf : k.frame c = .forkKalloc np) :
      Step b k (.forkKalloc i kalloc)
        ((k.allocStack np kalloc).setFrame c (if kalloc.isSome then .forkCopy np else .idle))
  | forkCopy {i : Nat} {c np : Slot} {copyuvm : Option Nat} (hc : (k.cpu i).proc = some c)
      (hf : k.frame c = .forkCopy np) :
      Step b k (.forkCopy i copyuvm)
        ((k.forkCopy c np copyuvm).setFrame c (if copyuvm.isSome then .forkReady np else .idle))
  | forkReady {i : Nat} {c np : Slot} (hc : (k.cpu i).proc = some c) (hl : k.lock = none)
      (hf : k.frame c = .forkReady np) :
      Step b k (.forkReady i) (settle c (k.forkReady b c np))
  | exit {i : Nat} {c : Slot} (hc : (k.cpu i).proc = some c) (hl : k.lock = none)
      (hf : k.frame c = .idle ∨ k.frame c = .exiting) (hi : k.initproc ≠ some c) :
      Step b k (.exit i) ((k.setFrame c .idle).exit b i c)
  | wait {i : Nat} {c : Slot} (hc : (k.cpu i).proc = some c) (hl : k.lock = none)
      (hf : k.frame c = .idle) : Step b k (.wait i) (k.wait b i c)
  | yield {i : Nat} {c : Slot} (hc : (k.cpu i).proc = some c) (hl : k.lock = none) :
      Step b k (.yield i) (k.yield b i c)
  | sleep {i : Nat} {c : Slot} {chan : Chan} (hc : (k.cpu i).proc = some c) (hl : k.lock = none) :
      Step b k (.sleep i chan) (k.sleep b i c chan .sleep)
  | wakeup {chan : Chan} (hl : k.lock = none) : Step b k (.wakeup chan) (k.wakeup1 b chan)
  | kill {i : Nat} {c : Slot} {pid : Int} (hc : (k.cpu i).proc = some c) (hl : k.lock = none)
      (hf : k.frame c = .idle) : Step b k (.kill i pid) (settle c (k.kill b pid))
  | niceFail {i : Nat} {c : Slot} {pid priority : Int} (hc : (k.cpu i).proc = some c)
      (hf : k.frame c = .idle) (hp : k.niceFind pid priority = none) :
      Step b k (.niceFind i pid priority) (k.setFrame c .exiting)
  | niceFind {i : Nat} {c p : Slot} {pid priority : Int} (hc : (k.cpu i).proc = some c)
      (hf : k.frame c = .idle) (hp : k.niceFind pid priority = some p) :
      Step b k (.niceFind i pid priority) (k.setFrame c (.niceSet p priority))
  | niceSet {i : Nat} {c p : Slot} {priority : Int} (hc : (k.cpu i).proc = some c)
      (hf : k.frame c = .niceSet p priority) :
      Step b k (.niceSet i)
        ((k.niceSet p priority).setFrame c (.niceRemove p (k.priority p) priority))
  | niceRemove {i : Nat} {c p : Slot} {old priority : Int} (hc : (k.cpu i).proc = some c)
      (hf : k.frame c = .niceRemove p old priority) :
      Step b k (.niceRemove i) ((k.removeProcessFromQueue p old).1.setFrame c (.niceAdd p priority))
  | niceAdd {i : Nat} {c p : Slot} {priority : Int} (hc : (k.cpu i).proc = some c)
      (hf : k.frame c = .niceAdd p priority) :
      Step b k (.niceAdd i) ((k.addProcessToQueue p priority).1.setFrame c .idle)
  | fault {i : Nat} {c : Slot} (hc : (k.cpu i).proc = some c) :
      Step b k (.fault i) (k.setProc c fun r => { r with killed := true })
  | race {rq : RunQueue} : Step b k (.race rq) { k with rq := rq }

theorem onCpu_eq_some {i : Nat} {f : Slot → Option Kernel} :
    k.onCpu i f = some k' ↔ ∃ c, (k.cpu i).proc = some c ∧ f c = some k' :=
  Option.bind_eq_some_iff

/-- A call that the process on CPU `i` makes under a guard. -/
theorem onCpu_guard {i : Nat} {P : Slot → Prop} [∀ c, Decidable (P c)] {f : Slot → Option Kernel}
    (h : k.onCpu i (fun c => if P c then f c else none) = some k') :
    ∃ c, (k.cpu i).proc = some c ∧ P c ∧ f c = some k' := by
  obtain ⟨c, hc, h⟩ := onCpu_eq_some.mp h
  exact ⟨c, hc, Option.ite_none_right_eq_some.mp h⟩

theorem Step.of_step {b : Build} {a : Act} (h : k.step b a = some k') : Step b k a k' := by
  -- a label whose guard fails has no result, which closes the other branches
  cases a with
  | userinit kstack pgdir =>
    simp only [step] at h
    split at h
    · rename_i hg
      obtain ⟨p, hp, rfl⟩ := Option.map_eq_some_iff.mp h
      exact .userinit hg.1 hg.2.1 hg.2.2 hp
    · cases h
  | scheduler i =>
    simp only [step] at h
    split at h
    · rename_i hg
      cases h
      exact .scheduler hg.1 hg.2
    · cases h
  | resume i =>
    obtain ⟨c, hc, hg, ⟨⟩⟩ := onCpu_guard h
    exact .resume hc hg
  | forkAlloc i =>
    obtain ⟨c, hc, h⟩ := onCpu_eq_some.mp h
    split at h
    · rename_i hg
      split at h
      · -- the table is full: `fork` returns -1 and nothing has changed
        cases h
        exact .forkFull
      · rename_i np hu
        split at h
        · rename_i hn
          cases h
          exact .forkAlloc hc hg.1 hg.2 hu hn
        · cases h
    · cases h
  | forkKalloc i kalloc =>
    obtain ⟨c, hc, h⟩ := onCpu_eq_some.mp h
    split at h
    · rename_i np hf
      split at h
      · cases h
        exact .forkKalloc hc hf
      · cases h
    · cases h
  | forkCopy i copyuvm =>
    obtain ⟨c, hc, h⟩ := onCpu_eq_some.mp h
    split at h
    · rename_i np hf
      split at h
      · cases h
        exact .forkCopy hc hf
      · cases h
    · cases h
  | forkReady i =>
    obtain ⟨c, hc, h⟩ := onCpu_eq_some.mp h
    split at h
    · rename_i np hf
      split at h
      · rename_i hl
        cases h
        exact .forkReady hc hl hf
      · cases h
    · cases h
  | exit i =>
    obtain ⟨c, hc, hg, ⟨⟩⟩ := onCpu_guard h
    exact .exit hc hg.1 hg.2.1 hg.2.2
  | wait i =>
    obtain ⟨c, hc, hg, ⟨⟩⟩ := onCpu_guard h
    exact .wait hc hg.1 hg.2
  | yield i =>
    obtain ⟨c, hc, hg, ⟨⟩⟩ := onCpu_guard h
    exact .yield hc hg
  | sleep i chan =>
    obtain ⟨c, hc, hg, ⟨⟩⟩ := onCpu_guard h
    exact .sleep hc hg.1
  | wakeup chan =>
    simp only [step] at h
    split at h
    · rename_i hg
      rw [← Option.some.inj h]
      exact .wakeup hg
    · cases h
  | kill i pid =>
    obtain ⟨c, hc, hg, ⟨⟩⟩ := onCpu_guard h
    exact .kill hc hg.1 hg.2
  | niceFind i pid priority =>
    obtain ⟨c, hc, hg, ⟨⟩⟩ := onCpu_guard h
    split
    · rename_i p hp
      exact .niceFind hc hg.2 hp
    · rename_i hp
      exact .niceFail hc hg.2 hp
  | niceSet i =>
    obtain ⟨c, hc, h⟩ := onCpu_eq_some.mp h
    split at h
    · rename_i p priority hf
      split at h
      · cases h
        exact .niceSet hc hf
      · cases h
    · cases h
  | niceRemove i =>
    obtain ⟨c, hc, h⟩ := onCpu_eq_some.mp h
    split at h
    · rename_i p old priority hf
      split at h
      · cases h
        exact .niceRemove hc hf
      · cases h
    · cases h
  | niceAdd i =>
    obtain ⟨c, hc, h⟩ := onCpu_eq_some.mp h
    split at h
    · rename_i p priority hf
      split at h
      · cases h
        exact .niceAdd hc hf
      · cases h
    · cases h
  | fault i =>
    obtain ⟨c, hc, -, ⟨⟩⟩ := onCpu_guard h
    exact .fault hc
  | race rq =>
    cases h
    exact .race

/-! ## The ways `wait` can go -/

inductive WaitEnd (b : Build) (k : Kernel) (i : Nat) (c : Slot) : Kernel → Prop
  | reaped {p : Slot} (hpar : k.parent p = some c) (hz : k.state p = .ZOMBIE)
      (hfind : k.zombieChild c = some p) : WaitEnd b k i c { k.reap b c p with lock := none }
  | failed : WaitEnd b k i c { k with lock := none }
  | asleep : WaitEnd b k i c (k.sleep b i c (.proc c) .wait)

theorem zombieChild_spec {c : Slot} (h : k.zombieChild c = some p) :
    k.parent p = some c ∧ k.state p = .ZOMBIE := by
  have := List.find?_some h
  simpa using this

theorem WaitEnd.wait (b : Build) (k : Kernel) (i : Nat) (c : Slot) :
    WaitEnd b k i c (k.wait b i c) := by
  simp only [Kernel.wait]
  cases h : k.zombieChild c with
  | some p =>
    obtain ⟨hpar, hz⟩ := zombieChild_spec h
    exact .reaped hpar hz h
  | none =>
    simp only
    split
    · exact .failed
    · exact .asleep

theorem resume_cases (b : Build) (k : Kernel) (i : Nat) (c : Slot) :
    k.resume b i c = { k with lock := none } ∨
      ∃ m, m = k.setProc c (fun r => { r with chan := .null }) ∧
        (k.resume b i c = { m with lock := none } ∨ k.resume b i c = m.wait b i c) := by
  unfold resume
  split
  -- a new child in `forkret`, and the end of `yield`
  · exact .inl rfl
  · exact .inl rfl
  -- `proc->chan = 0` behind the two kinds of sleep
  · exact .inr ⟨_, rfl, .inl rfl⟩
  · exact .inr ⟨_, rfl, .inr rfl⟩

/-! ## `allocproc` and the search by pid -/

theorem firstUnused_state (h : k.firstUnused = some p) : k.state p = .UNUSED := by
  have := List.find?_some h
  simpa using this

theorem findPid_pid (h : k.findPid pid = some p) : k.pid p = pid := by
  have := List.find?_some h
  simpa using this

theorem findPid_eq_none : k.findPid pid = none ↔ ∀ p, k.pid p ≠ pid := by
  simp [findPid]

theorem niceFind_some {priority : Int} (h : k.niceFind pid priority = some p) :
    1 ≤ priority ∧ priority ≤ 5 ∧ k.findPid pid = some p := by
  unfold niceFind at h
  split at h
  · cases h
  · exact ⟨by omega, by omega, h⟩

end Kernel
end Xv6
