/-
  Xv6.Proc.Fifo

  Do the processes of one priority take turns?

  A process that is switched to has left the queue, and comes back behind all
  others.  Entries only go when they are popped, and what is popped is
  switched to, so a process `q` that waits with `p` not before it stays so
  until `q` itself is switched to; `Ahead` is this invariant.
-/

import Xv6.Proc.Plain

namespace Xv6
namespace Kernel

open Function List Transition Option

variable {k k' : Kernel} {p q : Slot} {n : Int} {i : Nat}

def Dispatches (k : Kernel) (i : Nat) (p : Slot) (k' : Kernel) : Prop :=
  k.step .priority (.scheduler i) = some k' ∧ (k'.cpu i).proc = some p

/-- The process `q` with pid `n` waits for its turn, and `p` is not before it. -/
structure Ahead (q p : Slot) (n : Int) (k : Kernel) : Prop where
  runnable : k.state q = .RUNNABLE
  pid : k.pid q = n
  queued : ∃ before after, k.row (k.priority q - 1) = before ++ q :: after ∧ p ∉ before

namespace Ahead

/-! ## Nobody overtakes -/

theorem others (h : Ahead q p n k) (hstate : k'.state q = k.state q) (hpid : k'.pid q = k.pid q)
    (hprio : k'.priority q = k.priority q) (hrow : ∀ l, ∃ new, k'.row l = k.row l ++ new) :
    Ahead q p n k' where
  runnable := hstate.trans h.runnable
  pid := hpid.trans h.pid
  queued := by
    obtain ⟨before, after, hsplit, hp⟩ := h.queued
    obtain ⟨new, hnew⟩ := hrow (k.priority q - 1)
    refine ⟨before, after ++ new, ?_, hp⟩
    rw [hprio, hnew, hsplit, append_assoc, cons_append]

theorem setProc {c : Slot} {f : Proc → Proc} (h : Ahead q p n k) (hc : k.state c ≠ .RUNNABLE) :
    Ahead q p n (k.setProc c f) := by
  have hne : q ≠ c := by
    rintro rfl
    exact hc h.runnable
  have hq : (k.setProc c f).proc q = k.proc q := by rw [setProc_proc, if_neg hne]
  exact h.others (congrArg Proc.state hq) (congrArg Proc.pid hq) (congrArg Proc.priority hq)
    fun l => ⟨[], (append_nil _).symm⟩

theorem makeRunnable {c : Slot} (h : Ahead q p n k) (ht : k.Tidy) (hc : k.state c ≠ .RUNNABLE) :
    Ahead q p n (k.makeRunnable .priority c).1 := by
  have hset := h.setProc (f := fun r => { r with state := .RUNNABLE }) hc
  refine hset.others rfl rfl rfl fun l => ?_
  exact RunQueue.exists_row_add _ c (ht.wf.marker_nonneg _) l

theorem freed {c : Slot} (h : Ahead q p n k) (ht : k.Tidy) (hc : k.state c = .ZOMBIE) :
    Ahead q p n (k.freed c) := by
  have hnot : k.state c ≠ .RUNNABLE := by
    rw [hc]
    decide
  have hne : q ≠ c := by
    rintro rfl
    exact hnot h.runnable
  have hset := h.setProc (f := fun r => { r with pid := 0, state := .UNUSED }) hnot
  refine ⟨hset.runnable, hset.pid, ?_⟩
  obtain ⟨before, after, hsplit, hp⟩ := h.queued
  have hpid : update k.pid c 0 q ≠ update k.pid c 0 c := by
    rw [update_self, update_of_ne hne]
    refine ht.pids.pos q ?_
    rw [h.runnable]
    decide
  rw [priority_freed, row_freed]
  obtain ⟨before', after', hrow, hsub⟩ := RunQueue.exists_row_remove hsplit hpid
  exact ⟨before', after', hrow, fun hmem => hp (hsub hmem)⟩

end Ahead

theorem endures_ahead (q p : Slot) (n : Int) : Endures (Ahead q p n) where
  view := by
    intro k k' hv h
    refine h.others (congrFun hv.state q) (congrFun hv.pid q) (congrFun hv.priority q) fun l => ?_
    rw [row, hv.rq]
    exact ⟨[], (append_nil _).symm⟩
  wake := by
    intro k c ht h hc
    refine h.makeRunnable ht ?_
    rcases hc with hc | hc | hc
    all_goals
      rw [hc]
      decide
  stop := by
    intro k c st _ h hc _
    refine h.setProc ?_
    rw [hc]
    decide
  claim := by
    intro k np _ h hnp
    have hnot : k.state np ≠ .RUNNABLE := by
      rw [firstUnused_state hnp]
      decide
    have hset := h.setProc
      (f := fun r => { r with state := .EMBRYO, pid := k.nextpid, priority := 3 }) hnot
    exact ⟨hset.runnable, hset.pid, hset.queued⟩
  abandon := by
    intro k np _ h hnp
    refine h.setProc ?_
    rw [hnp]
    decide
  reap := fun ht h _ hp => h.freed ht (zombieChild_spec hp).2
  frame := fun h => ⟨h.runnable, h.pid, h.queued⟩

/-! ## The scheduler -/

theorem pop_proc (k : Kernel) (i : Nat) : (k.pop i).proc = k.proc := by
  unfold pop
  split
  · rfl
  · simp only
    split <;> rfl

theorem dispatched_of_running (hq : k.state q = .RUNNABLE)
    (hrun : (k.scheduler .priority i).state q = .RUNNING) :
    ((k.scheduler .priority i).cpu i).proc = some q := by
  have hnot : (k.pop i).state q ≠ .RUNNING := by
    rw [state, pop_proc, show (k.proc q).state = .RUNNABLE from hq]
    decide
  cases hc : (k.pop i).choice i with
  | none =>
    rw [scheduler_of_no_choice hc] at hrun
    exact absurd hrun hnot
  | some r =>
    rw [scheduler_of_choice hc] at hrun ⊢
    rw [state_dispatch] at hrun
    by_cases hqr : q = r
    · rw [hqr]
      simp [dispatch, setCpu]
    · rw [if_neg hqr] at hrun
      exact absurd hrun hnot

namespace Ahead

theorem mem_levels (h : Ahead q p n k) (ht : k.Tidy) :
    0 ≤ k.priority q - 1 ∧ k.priority q - 1 < 5 := by
  refine ht.level ?_
  rw [h.runnable]
  decide

theorem scheduler (h : Ahead q p n k) (ht : k.Tidy) (i : Nat) :
    Ahead q p n (k.scheduler .priority i) ∨ ((k.scheduler .priority i).cpu i).proc = some q := by
  obtain ⟨before, after, hsplit, hp⟩ := h.queued
  have hpid : (k.scheduler .priority i).pid q = k.pid q := (Sched.scheduler .priority k i).pid_eq q
  cases SchedEnd.scheduler ht.wf i with
  | @pop l r rest hlo hhi hrow hfirst hrest hother hprio hstate hchoice =>
    by_cases hqr : q = r
    · right
      refine dispatched_of_running h.runnable ?_
      rw [hstate, if_pos ⟨hqr, hqr ▸ h.runnable⟩]
    · left
      refine ⟨?_, hpid.trans h.pid, ?_⟩
      · rw [hstate, if_neg fun hself => hqr hself.1]
        exact h.runnable
      · rw [hprio]
        by_cases hl : k.priority q - 1 = l
        · -- the popped process stood before `q`
          rw [hl, hrow] at hsplit
          rw [hl, hrest]
          cases before with
          | nil => exact absurd (List.cons.inj hsplit).1.symm hqr
          | cons r' before =>
            obtain ⟨-, hrest'⟩ := List.cons.inj hsplit
            exact ⟨before, after, hrest', fun hmem => hp (mem_cons_of_mem r' hmem)⟩
        · rw [hother _ hl]
          exact ⟨before, after, hsplit, hp⟩
  | empty hnone hrow hprio hstate hchoice =>
    obtain ⟨hlo, hhi⟩ := h.mem_levels ht
    rw [hnone _ hlo hhi] at hsplit
    cases before <;> cases hsplit

theorem not_dispatches (h : Ahead q p n k) (ho : k.Orderly) (hne : q ≠ p) :
    ¬ k.Dispatches i p k' := by
  rintro ⟨hs, hcpu⟩
  obtain ⟨-, hchoice⟩ := scheduler_proc hs hcpu
  obtain ⟨before, after, hsplit, hp⟩ := h.queued
  cases SchedEnd.scheduler ho.wf i with
  | @pop l r rest hlo hhi hrow hfirst hrest hother hprio hstate hchosen =>
    obtain ⟨rfl, hrun⟩ := hchosen p hchoice
    have hhead : p ∈ k.row l := by
      rw [hrow]
      exact mem_cons_self
    have hlevel : k.priority p = l + 1 := (ho.home l (Kernel.mem_levels.mpr ⟨hlo, hhi⟩) p hhead).2
    have hsame : k.priority q = k.priority p := by
      have hq := ho.born q (by rw [h.runnable]; decide)
      have hp := ho.born p (by rw [hrun]; decide)
      rw [hq, hp]
    have hl : k.priority q - 1 = l := by omega
    rw [hl, hrow] at hsplit
    cases before with
    | nil => exact hne (List.cons.inj hsplit).1.symm
    | cons r' before =>
      obtain ⟨rfl, -⟩ := List.cons.inj hsplit
      exact hp mem_cons_self
  | empty hnone hrow hprio hstate hchosen =>
    obtain ⟨hlo, hhi⟩ := h.mem_levels ho.tidy
    rw [hnone _ hlo hhi] at hsplit
    cases before <;> cases hsplit

theorem step {a : Act} (h : Ahead q p n k) (ho : k.Orderly) (ha : a.plain = true)
    (hs : k.step .priority a = some k') :
    Ahead q p n k' ∨ ∃ i, a = .scheduler i ∧ k.Dispatches i q k' := by
  by_cases hsched : ∃ i, a = .scheduler i
  · obtain ⟨i, rfl⟩ := hsched
    cases Step.of_step hs with
    | scheduler hl hc =>
      rcases h.scheduler ho.tidy i with hahead | hcpu
      · exact .inl hahead
      · exact .inr ⟨i, rfl, hs, hcpu⟩
  · left
    exact (endures_ahead q p n).step ho.sound ho.wf h ha hs fun i hi _ => absurd ⟨i, hi⟩ hsched

/-- **The run lemma.**  `q` keeps its place until it is switched to. -/
theorem run {acts : List Act} (h : Ahead q p n k) (ho : k.Orderly) (ha : ∀ a ∈ acts, a.plain = true)
    (hrun : Transition.run (Kernel.step .priority) k acts = some k') :
    Ahead q p n k' ∨ ∃ before i after m m', acts = before ++ .scheduler i :: after ∧
    Transition.run (Kernel.step .priority) k before = some m ∧ m.Dispatches i q m' ∧
    m.pid q = n := by
  induction acts generalizing k with
  | nil =>
    cases hrun
    exact .inl h
  | cons a acts ih =>
    obtain ⟨m, hm, hrest⟩ := bind_eq_some_iff.mp hrun
    have hplain := ha a mem_cons_self
    rcases h.step ho hplain hm with hahead | ⟨i, rfl, hd⟩
    · rcases ih hahead (ho.step hplain hm) (fun b hb => ha b (mem_cons_of_mem a hb)) hrest
        with hend | ⟨before, i, after, m1, m2, rfl, hbefore, hd, hpid⟩
      · exact .inl hend
      · right
        exact ⟨a :: before, i, after, m1, m2, rfl, bind_eq_some_iff.mpr ⟨m, hm, hbefore⟩, hd, hpid⟩
    · exact .inr ⟨[], i, acts, k, m, rfl, rfl, hd, h.pid⟩

end Ahead

theorem Dispatches.ahead (hd : k.Dispatches i p k') (ho : k'.Orderly) (hne : q ≠ p)
    (hq : k.state q = .RUNNABLE) : Ahead q p (k.pid q) k' := by
  obtain ⟨hs, hcpu⟩ := hd
  obtain ⟨rfl, hchoice⟩ := scheduler_proc hs hcpu
  have hstate : ∀ r, (k.scheduler .priority i).state r = if r = p then .RUNNING else k.state r := by
    intro r
    rw [scheduler_of_choice hchoice, state_dispatch, state, state, pop_proc]
  have hq' : (k.scheduler .priority i).state q = .RUNNABLE := by
    rw [hstate, if_neg hne]
    exact hq
  obtain ⟨l, hl, hmem⟩ := ho.placed q hq'
  have hl : l = (k.scheduler .priority i).priority q - 1 := hl
  subst hl
  obtain ⟨before, after, hsplit⟩ := append_of_mem hmem
  refine ⟨hq', (Sched.scheduler .priority k i).pid_eq q, before, after, hsplit, fun hp => ?_⟩
  -- `p` is running and therefore not queued
  have hlevel := ho.tidy.level (p := q) (by rw [hq']; decide)
  have hhome := (ho.home _ (mem_levels.mpr hlevel) p
    (by rw [hsplit]; exact mem_append_left _ hp)).1
  rw [hstate, if_pos rfl] at hhome
  cases hhome

/-- **The processes of one priority take turns.**  Between two switches to `p` there is one to every
    other process that was runnable at the first of them. -/
theorem fifo_rotation (acts mid : List Act) (hplain : ∀ a ∈ acts ++ mid, a.plain = true)
    {i j : Nat} {p : Slot} {k k₁ k₂ k₃ : Kernel}
    (hrun : run (step .priority) boot acts = some k) (hfirst : k.Dispatches i p k₁)
    (hmid : run (step .priority) k₁ mid = some k₂) (hsecond : k₂.Dispatches j p k₃) :
    ∀ q, q ≠ p → k.state q = .RUNNABLE → k.priority q = k.priority p →
      ∃ before i' after m m', mid = before ++ .scheduler i' :: after ∧
        run (step .priority) k₁ before = some m ∧ m.Dispatches i' q m' ∧ m.pid q = k.pid q := by
  intro q hne hq _
  have hplain₀ : ∀ a ∈ acts, a.plain = true := fun a ha => hplain a (mem_append_left mid ha)
  have hplain₁ : ∀ a ∈ mid, a.plain = true := fun a ha => hplain a (mem_append_right acts ha)
  have ho : k.Orderly := orderly_boot.run hplain₀ hrun
  have ho₁ : k₁.Orderly := ho.step rfl hfirst.1
  have hahead : Ahead q p (k.pid q) k₁ := hfirst.ahead ho₁ hne hq
  rcases hahead.run ho₁ hplain₁ hmid with hend | hturn
  · exact absurd hsecond (hend.not_dispatches (ho₁.run hplain₁ hmid) hne)
  · exact hturn

/-- The first process forks a child and yields; then both yield once. -/
theorem fifo_rotation_two :
    ∃ k k₁ k₂ k₃, run (step .priority) boot
        [.userinit 1 2, .scheduler 0, .resume 0, .forkAlloc 0, .forkKalloc 0 (some 3),
          .forkCopy 0 (some 4), .forkReady 0, .yield 0] = some k ∧
      k.state 0 = .RUNNABLE ∧ k.priority 0 = k.priority 1 ∧ k.Dispatches 0 1 k₁ ∧
      run (step .priority) k₁ [.resume 0, .yield 0, .scheduler 1, .resume 1, .yield 1] = some k₂ ∧
      k₂.Dispatches 0 1 k₃ ∧
      ∃ before i' after m m',
        [.resume 0, .yield 0, .scheduler 1, .resume 1, .yield 1] = before ++ .scheduler i' :: after ∧
        run (step .priority) k₁ before = some m ∧ m.Dispatches i' 0 m' ∧ m.pid 0 = k.pid 0 := by
  have hcomputed : ∃ k, run (step .priority) boot
        [.userinit 1 2, .scheduler 0, .resume 0, .forkAlloc 0, .forkKalloc 0 (some 3),
          .forkCopy 0 (some 4), .forkReady 0, .yield 0] = some k ∧
      k.state 0 = .RUNNABLE ∧ k.priority 0 = k.priority 1 ∧
      (k.step .priority (.scheduler 0)).any fun k₁ => (k₁.cpu 0).proc = some 1 ∧
        (run (step .priority) k₁ [.resume 0, .yield 0, .scheduler 1, .resume 1, .yield 1]).any
          fun k₂ => (k₂.step .priority (.scheduler 0)).any fun k₃ => (k₃.cpu 0).proc = some 1 := by
    exact exists_run (by decide +kernel)
  obtain ⟨k, hk, hq, hprio, hany⟩ := hcomputed
  obtain ⟨k₁, hk₁, hrest⟩ := (any_eq_true _ _).mp hany
  obtain ⟨hp₁, hany₂⟩ := of_decide_eq_true hrest
  obtain ⟨k₂, hk₂, hany₃⟩ := (any_eq_true _ _).mp hany₂
  obtain ⟨k₃, hk₃, hp₃⟩ := (any_eq_true _ _).mp hany₃
  have hfirst : k.Dispatches 0 1 k₁ := ⟨hk₁, hp₁⟩
  have hsecond : k₂.Dispatches 0 1 k₃ := ⟨hk₃, of_decide_eq_true hp₃⟩
  exact ⟨k, k₁, k₂, k₃, hk, hq, hprio, hfirst, hk₂, hsecond,
    fifo_rotation _ _ (by decide) hk hfirst hk₂ hsecond 0 (by decide) hq hprio⟩

end Kernel
end Xv6
