/-
  Xv6.Proc.Cpus

  Who runs where.  `CpuInv` says that the `RUNNING` processes are exactly the
  ones in `cpus[i].proc`, each on one CPU; `CpuInv.step` shows that every step
  of the interleaved machine keeps it.
-/

import Xv6.Proc.Steps

namespace Xv6

/-! ## Occupied CPUs -/

structure Occupied (run : Slot → Prop) (m : Nat → Option Slot) : Prop where
  run_of_some : ∀ i p, m i = some p → run p
  exists_cpu : ∀ p, run p → ∃ i, m i = some p
  inj : ∀ i j p, m i = some p → m j = some p → i = j

namespace Occupied

variable {run run' : Slot → Prop} {m m' : Nat → Option Slot} {i : Nat} {c p : Slot}

theorem congr (h : Occupied run m) (hrun : ∀ q, run' q ↔ run q) (hm : ∀ j, m' j = m j) :
    Occupied run' m' := by
  have hrun' : run' = run := funext fun q => propext (hrun q)
  have hm' : m' = m := funext hm
  rw [hrun', hm']
  exact h

theorem leave (h : Occupied run m) (hi : m i = some c) (hrun : ∀ q, run' q ↔ run q ∧ q ≠ c)
    (hm : ∀ j, m' j = if j = i then none else m j) : Occupied run' m' where
  run_of_some := by
    intro j q hq
    rw [hm] at hq
    by_cases hj : j = i
    · rw [if_pos hj] at hq
      cases hq
    · rw [if_neg hj] at hq
      refine (hrun q).mpr ⟨h.run_of_some j q hq, ?_⟩
      -- `c` on a second CPU would be on `i` twice
      rintro rfl
      exact hj (h.inj j i q hq hi)
  exists_cpu := by
    intro q hq
    obtain ⟨hq, hne⟩ := (hrun q).mp hq
    obtain ⟨j, hj⟩ := h.exists_cpu q hq
    refine ⟨j, ?_⟩
    rw [hm, if_neg]
    · exact hj
    · rintro rfl
      exact hne (Option.some.inj (hj.symm.trans hi))
  inj := by
    intro j j' q hj hj'
    rw [hm] at hj hj'
    split at hj
    · cases hj
    · split at hj'
      · cases hj'
      · exact h.inj j j' q hj hj'

theorem enter (h : Occupied run m) (hi : m i = none) (hp : ¬ run p)
    (hrun : ∀ q, run' q ↔ run q ∨ q = p)
    (hm : ∀ j, m' j = if j = i then some p else m j) : Occupied run' m' where
  run_of_some := by
    intro j q hq
    rw [hm] at hq
    split at hq
    · exact (hrun q).mpr (.inr (Option.some.inj hq).symm)
    · exact (hrun q).mpr (.inl (h.run_of_some j q hq))
  exists_cpu := by
    intro q hq
    rcases (hrun q).mp hq with hq | rfl
    · obtain ⟨j, hj⟩ := h.exists_cpu q hq
      refine ⟨j, ?_⟩
      rw [hm, if_neg]
      · exact hj
      · rintro rfl
        rw [hi] at hj
        cases hj
    · exact ⟨i, by rw [hm, if_pos rfl]⟩
  inj := by
    intro j j' q hj hj'
    rw [hm] at hj hj'
    split at hj
    · split at hj'
      · omega
      · -- an old occupant `p` contradicts that `p` ran nowhere
        cases hj
        exact absurd (h.run_of_some j' p hj') hp
    · split at hj'
      · cases hj'
        exact absurd (h.run_of_some j p hj) hp
      · exact h.inj j j' q hj hj'

end Occupied

/-- The child a `fork` under way has claimed. -/
def Frame.forking : Frame → Option Slot
  | .forkKalloc np | .forkCopy np | .forkReady np => some np
  | _ => none

namespace Kernel

variable {k k' : Kernel}

/-- A process is `RUNNING` exactly when it is `cpus[i].proc` of one CPU. -/
def CpuInv (k : Kernel) : Prop :=
  Occupied (fun p => k.state p = .RUNNING) fun i => (k.cpu i).proc

/-! ## Changes that no CPU notices -/

/-- The same processes run on the same CPUs. -/
structure Still (k k' : Kernel) : Prop where
  running : ∀ p, k'.state p = .RUNNING ↔ k.state p = .RUNNING
  cpu : ∀ i, (k'.cpu i).proc = (k.cpu i).proc

theorem CpuInv.still (h : k.CpuInv) (hs : Still k k') : k'.CpuInv :=
  h.congr hs.running hs.cpu

namespace Still

variable {k k' k'' : Kernel}
variable {p c : Slot}

protected theorem refl (k : Kernel) : Still k k := ⟨fun _ => Iff.rfl, fun _ => rfl⟩

protected theorem trans (h1 : Still k k') (h2 : Still k' k'') : Still k k'' :=
  ⟨fun p => (h2.running p).trans (h1.running p), fun i => (h2.cpu i).trans (h1.cpu i)⟩

theorem of_eq (hproc : k'.proc = k.proc) (hcpu : k'.cpu = k.cpu) : Still k k' :=
  ⟨fun p => by rw [state, state, hproc], fun i => by rw [hcpu]⟩

theorem of_slot (p : Slot) (hother : ∀ q, q ≠ p → k'.proc q = k.proc q)
    (hp : k'.state p = .RUNNING ↔ k.state p = .RUNNING) (hcpu : k'.cpu = k.cpu) : Still k k' where
  running := by
    intro q
    by_cases hq : q = p
    · rw [hq]
      exact hp
    · rw [state, state, hother q hq]
  cpu := fun i => by rw [hcpu]

theorem setProc {f : Proc → Proc}
    (hf : (f (k.proc p)).state = .RUNNING ↔ k.state p = .RUNNING) : Still k (k.setProc p f) :=
  of_slot p (fun q hq => by simp [Kernel.setProc, hq]) (by simpa [Kernel.setProc, state] using hf) rfl

theorem enqueue (b : Build) (k : Kernel) (p : Slot) : Still k (k.enqueue b p).1 :=
  of_eq (enqueue_proc b k p) (enqueue_cpu b k p)

theorem makeRunnable (b : Build) (hp : k.state p ≠ .RUNNING) : Still k (k.makeRunnable b p).1 := by
  have h : Still k (k.setProc p fun r => { r with state := .RUNNABLE }) :=
    Still.setProc (by simp [hp])
  exact h.trans (Still.enqueue b _ p)

theorem wakeup1 (b : Build) (k : Kernel) (chan : Chan) : Still k (k.wakeup1 b chan) := by
  -- round by round of the loop over the table
  refine List.foldlRecOn (motive := Still k) slots (wakeOne b chan) (Still.refl k) ?_
  intro m hm p _
  unfold wakeOne
  by_cases hw : m.state p = .SLEEPING ∧ (m.proc p).chan = chan
  · rw [if_pos hw]
    refine hm.trans (Still.makeRunnable b ?_)
    rw [hw.1]
    decide
  · rw [if_neg hw]
    exact hm

theorem reparentOne (b : Build) (c : Slot) (k : Kernel) (p : Slot) :
    Still k (k.reparentOne b c p) := by
  have h : Still k (k.setProc p fun r => { r with parent := k.initproc }) := Still.setProc Iff.rfl
  unfold Kernel.reparentOne
  split
  · simp only
    split
    · exact h.trans (Still.wakeup1 b _ _)
    · exact h
  · exact Still.refl k

theorem passChildren (b : Build) (k : Kernel) (c : Slot) : Still k (k.passChildren b c) := by
  refine List.foldlRecOn (motive := Still k) slots (Kernel.reparentOne b c) (Still.wakeup1 b k _) ?_
  intro m hm p _
  exact hm.trans (Still.reparentOne b c m p)

theorem pop (k : Kernel) (i : Nat) : Still k (k.pop i) := by
  refine ⟨fun p => ?_, fun j => ?_⟩
  · unfold Kernel.pop
    split
    · rfl
    · simp only
      split <;> rfl
  · -- `pop` stores the entry it took in the variable `p` of the CPU
    have hcpu : ∀ q, ((k.setCpu i { k.cpu i with p := q }).cpu j).proc = (k.cpu j).proc := by
      intro q
      by_cases hj : j = i
      · subst hj
        simp [setCpu]
      · simp [setCpu, hj]
    unfold Kernel.pop
    split
    · rfl
    · simp only
      split
      · exact hcpu _
      · exact hcpu _

theorem reap (b : Build) (hp : k.state p = .ZOMBIE) : Still k (k.reap b c p) := by
  have h : Still k (k.setProc p fun r =>
      { r with kstack := none, pid := 0, parent := none, name := "", killed := false, state := .UNUSED }) :=
    Still.setProc (by simp [hp])
  cases b with
  | priority => exact h.trans (of_eq rfl rfl)
  | custom => exact h.trans (of_eq rfl rfl)

theorem settle {r : Kernel × Outcome} (h : Still k r.1) : Still k (settle c r) := by
  obtain ⟨k', o⟩ := r
  cases o with
  | ret v => exact h.trans (of_eq rfl rfl)
  | exits => exact h.trans (of_eq rfl rfl)

theorem forkReady (b : Build) {np : Slot} (hp : k.state np ≠ .RUNNING) :
    Still k (k.forkReady b c np).1 := by
  have h := Still.makeRunnable b hp
  unfold Kernel.forkReady
  simp only
  split
  · exact h
  · exact h.trans (of_eq rfl rfl)

theorem kill (b : Build) (k : Kernel) (pid : Int) : Still k (k.kill b pid).1 := by
  unfold Kernel.kill
  split
  · -- no slot carries the pid
    exact Still.refl k
  · rename_i p hp
    have h1 : Still k (k.setProc p fun r => { r with killed := true }) := Still.setProc Iff.rfl
    simp only
    split
    · rename_i hs
      have h2 : Still k ((k.setProc p fun r => { r with killed := true }).setProc p
          fun r => { r with state := .RUNNABLE }) := h1.trans (Still.setProc (by simp [hs]))
      split
      · exact h2.trans (Still.enqueue b _ p)
      · exact h2.trans (Still.enqueue b _ p)
    · split
      · exact h1.trans (Still.enqueue b _ p)
      · exact h1.trans (Still.enqueue b _ p)

end Still

/-! ## Switches -/

section Switch

variable {k k₁ : Kernel} {i : Nat} {c p : Slot}

theorem CpuInv.dispatch (h : k.CpuInv) (hi : (k.cpu i).proc = none) (hp : k.state p = .RUNNABLE) :
    (k.dispatch i p).CpuInv := by
  have hnot : ¬ k.state p = .RUNNING := by
    rw [hp]
    decide
  refine h.enter hi hnot (fun q => ?_) (fun j => ?_)
  · rw [state_dispatch]
    by_cases hq : q = p
    · simp [hq]
    · simp [hq]
  · by_cases hj : j = i
    · subst hj
      simp [Kernel.dispatch, setCpu]
    · simp [Kernel.dispatch, setCpu, setProc, hj]

theorem CpuInv.scanFrom (h : k.CpuInv) (hi : (k.cpu i).proc = none) (n : Nat) :
    (k.scanFrom i n).CpuInv := by
  unfold Kernel.scanFrom
  cases hn : k.nextRunnable n with
  | some p => exact h.dispatch hi (nextRunnable_state hn)
  | none =>
    -- at the end of the table `c->proc` is as empty as before
    refine h.still ⟨fun p => Iff.rfl, fun j => ?_⟩
    by_cases hj : j = i
    · subst hj
      simp [setCpu, hi]
    · simp [setCpu, hj]

theorem CpuInv.scheduler (b : Build) (h : k.CpuInv) (hi : (k.cpu i).proc = none) :
    (k.scheduler b i).CpuInv := by
  cases b with
  | priority =>
    have hpop : (k.pop i).CpuInv := h.still (Still.pop k i)
    simp only [Kernel.scheduler]
    cases hc : (k.pop i).choice i with
    | some p => exact hpop.dispatch (((Still.pop k i).cpu i).trans hi) (choice_state hc)
    | none => exact hpop
  | custom => exact h.scanFrom hi 0

theorem CpuInv.swtchBack (b : Build) (h : k.CpuInv) (hi : (k.cpu i).proc = some c)
    (hrun : ∀ q, k₁.state q = .RUNNING ↔ k.state q = .RUNNING ∧ q ≠ c)
    (hcpu : ∀ j, (k₁.cpu j).proc = (k.cpu j).proc) : (k₁.swtchBack b i).CpuInv := by
  have hleft : (k₁.setCpu i { k₁.cpu i with proc := none }).CpuInv := by
    refine h.leave hi hrun fun j => ?_
    by_cases hj : j = i
    · subst hj
      simp [setCpu]
    · simp [setCpu, hj, hcpu]
  cases b with
  | priority => exact hleft.still (Still.of_eq rfl rfl)
  | custom =>
    -- the round-robin loop goes on and may switch again at once
    exact hleft.scanFrom (by simp [setCpu]) _

theorem running_of_stop (st : ProcState) (hst : st ≠ .RUNNING)
    (hstate : ∀ q, k₁.state q = if q = c then st else k.state q) (q : Slot) :
    k₁.state q = .RUNNING ↔ k.state q = .RUNNING ∧ q ≠ c := by
  rw [hstate]
  by_cases hq : q = c
  · simp [hq, hst]
  · simp [hq]

theorem CpuInv.sleep (b : Build) (h : k.CpuInv) (hi : (k.cpu i).proc = some c) (chan : Chan)
    (ctx : Context) : (k.sleep b i c chan ctx).CpuInv := by
  refine h.swtchBack b hi (running_of_stop .SLEEPING (by decide) fun q => ?_) fun _ => rfl
  exact setProc_field k c q _ Proc.state

theorem CpuInv.yield (b : Build) (h : k.CpuInv) (hi : (k.cpu i).proc = some c) :
    (k.yield b i c).CpuInv := by
  refine h.swtchBack b hi (running_of_stop .RUNNABLE (by decide) fun q => ?_) fun j => ?_
  · have hctx := setProc_kept (k.makeRunnable b c).1 c q
      (fun r => { r with context := .yield }) Proc.state rfl
    rw [state, hctx, makeRunnable, enqueue_proc]
    exact state_setState k c q .RUNNABLE
  · simp [makeRunnable, setProc]

theorem CpuInv.exit (b : Build) (h : k.CpuInv) (hi : (k.cpu i).proc = some c)
    (hs : Still k (k₁.passChildren b c)) : (k₁.exit b i c).CpuInv := by
  unfold Kernel.exit
  generalize k₁.passChildren b c = m at hs ⊢
  refine h.swtchBack b hi (fun q => ?_) hs.cpu
  have hstop : (m.setProc c fun r => { r with state := .ZOMBIE }).state q = .RUNNING ↔
      m.state q = .RUNNING ∧ q ≠ c :=
    running_of_stop .ZOMBIE (by decide) (fun q => state_setState m c q .ZOMBIE) q
  exact hstop.trans (and_congr_left fun _ => hs.running q)

theorem CpuInv.wait (b : Build) (h : k.CpuInv) (hi : (k.cpu i).proc = some c) :
    (k.wait b i c).CpuInv := by
  have hend := WaitEnd.wait b k i c
  generalize k.wait b i c = k' at hend ⊢
  cases hend with
  | @reaped p hpar hz hfind =>
    have hreap : Still k (k.reap b c p) := Still.reap b hz
    exact h.still (hreap.trans (Still.of_eq rfl rfl))
  | failed => exact h.still (Still.of_eq rfl rfl)
  | asleep => exact h.sleep b hi _ _

end Switch

structure ForkInv (k : Kernel) : Prop where
  embryo : ∀ c np, (k.frame c).forking = some np → k.state np = .EMBRYO
  unique : ∀ c c' np, (k.frame c).forking = some np → (k.frame c').forking = some np → c = c'
  parent : ∀ c np, k.frame c = .forkReady np → k.parent np = some c

theorem ForkInv.not_running (h : k.ForkInv) {c np : Slot}
    (hf : (k.frame c).forking = some np) : k.state np ≠ .RUNNING := by
  rw [h.embryo c np hf]
  decide

/-- **Every step keeps the processes and the CPUs in agreement.** -/
theorem CpuInv.step {b : Build} {a : Act} (h : k.CpuInv) (hfork : k.ForkInv)
    (st : Step b k a k') : k'.CpuInv := by
  cases st with
  | @userinit p kstack pgdir hi hl hn hp =>
    have hfree := firstUnused_state hp
    refine h.still (Still.of_slot p (fun q hq => ?_) ?_ ?_)
    · simp [Kernel.userinit, Kernel.makeRunnable, setProc, allocStack, allocproc, hq]
    · simp [Kernel.userinit, Kernel.makeRunnable, setProc, state, hfree]
    · simp [Kernel.userinit, Kernel.makeRunnable, setProc, allocStack, allocproc]
  | scheduler hl hc => exact h.scheduler b hc
  | @resume i c hc hl =>
    have hchan : Still k (k.setProc c fun r => { r with chan := .null }) := Still.setProc Iff.rfl
    rcases resume_cases b k i c with he | ⟨m, rfl, he | he⟩
    · rw [he]
      exact h.still (Still.of_eq rfl rfl)
    · rw [he]
      exact h.still (hchan.trans (Still.of_eq rfl rfl))
    · rw [he]
      exact (h.still hchan).wait b hc
  | forkFull => exact h
  | @forkAlloc i c np hc hl hf hu hn =>
    have hfree := firstUnused_state hu
    refine h.still (Still.of_slot np (fun q hq => ?_) ?_ rfl)
    · simp [setFrame, allocproc, setProc, hq]
    · simp [setFrame, allocproc, setProc, state, hfree]
  | @forkKalloc i c np kalloc hc hf =>
    -- the slot is written without the lock, but it is the embryo of this `fork`
    have hnp := hfork.not_running (congrArg Frame.forking hf)
    refine h.still (Still.of_slot np (fun q hq => ?_) ?_ ?_)
    · cases kalloc <;> simp [setFrame, allocStack, setProc, hq]
    · cases kalloc <;> simp [setFrame, allocStack, setProc, state, hnp]
    · cases kalloc <;> rfl
  | @forkCopy i c np copyuvm hc hf =>
    have hnp := hfork.not_running (congrArg Frame.forking hf)
    refine h.still (Still.of_slot np (fun q hq => ?_) ?_ ?_)
    · cases copyuvm <;> simp [setFrame, Kernel.forkCopy, setProc, hq]
    · cases copyuvm <;> simp [setFrame, Kernel.forkCopy, setProc, state, hnp]
    · cases copyuvm <;> rfl
  | forkReady hc hl hf =>
    have hnp := hfork.not_running (congrArg Frame.forking hf)
    exact h.still (Still.settle (Still.forkReady b hnp))
  | @exit i c hc hl hf hi =>
    have hframe : Still k (k.setFrame c .idle) := Still.of_eq rfl rfl
    exact h.exit b hc (hframe.trans (Still.passChildren b _ c))
  | wait hc hl hf => exact h.wait b hc
  | yield hc hl => exact h.yield b hc
  | sleep hc hl => exact h.sleep b hc _ _
  | wakeup hl => exact h.still (Still.wakeup1 b k _)
  | kill hc hl hf => exact h.still (Still.settle (Still.kill b k _))
  | niceFail hc hf hp => exact h.still (Still.of_eq rfl rfl)
  | niceFind hc hf hp => exact h.still (Still.of_eq rfl rfl)
  | @niceSet i c p priority hc hf =>
    have hset : Still k (k.niceSet p priority) := Still.setProc Iff.rfl
    exact h.still (hset.trans (Still.of_eq rfl rfl))
  | niceRemove hc hf => exact h.still (Still.of_eq rfl rfl)
  | niceAdd hc hf => exact h.still (Still.of_eq rfl rfl)
  | fault hc => exact h.still (Still.setProc Iff.rfl)
  | race =>
    -- the arrays may be anything: no dispatch relies on them
    exact h.still (Still.of_eq rfl rfl)

end Kernel
end Xv6
