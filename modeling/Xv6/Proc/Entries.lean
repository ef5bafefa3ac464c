/-
  Xv6.Proc.Entries

  Two kinds of properties of the queues.

    * `Entries Q k` — every entry at a level the scheduler scans satisfies `Q`.
      Each operation changes one slot and adds entries of that slot only, so
      `Q` has to be shown for those (`Entries.update`).
    * `Placed R k` — every runnable process has an entry at a level related to
      its priority by `R`.  Only `nice` takes such entries away, so it is all
      that is left to show (`keeps_placed`).
-/

import Xv6.Proc.Keeps

namespace Xv6
namespace Kernel

variable {Q : Int → ProcState → Int → Prop} {k k' : Kernel} {p : Slot}

def Entries (Q : Int → ProcState → Int → Prop) (k : Kernel) : Prop :=
  ∀ l ∈ levels, ∀ p ∈ k.row l, Q l (k.state p) (k.priority p)

instance [∀ l st pr, Decidable (Q l st pr)] : Decidable (Entries Q k) :=
  inferInstanceAs (Decidable (∀ l ∈ levels, ∀ p ∈ k.row l, Q l (k.state p) (k.priority p)))

namespace Entries

theorem boot : Entries Q boot := by
  intro l hl p hp
  have hnil : Kernel.boot.row l = [] := RunQueue.row_eq_nil le_rfl
  rw [hnil] at hp
  cases hp

theorem view (h : Entries Q k) (hv : SameView k k') : Entries Q k' := by
  intro l hl p hp
  rw [row, hv.rq] at hp
  rw [hv.state, hv.priority]
  exact h l hl p hp

theorem update (h : Entries Q k) (hrow : ∀ q l, q ≠ p → q ∈ k'.row l → q ∈ k.row l)
    (hstate : ∀ q, q ≠ p → k'.state q = k.state q)
    (hprio : ∀ q, q ≠ p → k'.priority q = k.priority q)
    (hself : ∀ l ∈ levels, p ∈ k'.row l → Q l (k'.state p) (k'.priority p)) : Entries Q k' := by
  intro l hl q hq
  by_cases hqp : q = p
  · subst hqp
    exact hself l hl hq
  · rw [hstate q hqp, hprio q hqp]
    exact h l hl q (hrow q l hqp hq)

theorem setState (h : Entries Q k) {st : ProcState}
    (hself : ∀ l ∈ levels, p ∈ k.row l → Q l st (k.priority p)) :
    Entries Q (k.setProc p fun r => { r with state := st }) := by
  refine h.update (p := p) (fun q l _ hq => hq) (fun q hq => ?_) (fun q hq => ?_) fun l hl hp => ?_
  · rw [state_setState, if_neg hq]
  · rw [priority_setState]
  · rw [state_setState, if_pos rfl, priority_setState]
    exact hself l hl hp

theorem makeRunnable (ht : k.Tidy) (h : Entries Q k) (hused : k.state p ≠ .UNUSED)
    (hold : ∀ l ∈ levels, p ∈ k.row l → Q l .RUNNABLE (k.priority p))
    (hnew : Q (k.priority p - 1) .RUNNABLE (k.priority p)) :
    Entries Q (k.makeRunnable .priority p).1 := by
  refine h.update (p := p) (fun q l hq hmem => ?_) (fun q hq => ?_) (fun q hq => ?_)
    fun l hl hp => ?_
  · rw [mem_row_makeRunnable ht hused] at hmem
    exact hmem.resolve_right fun hself => hq hself.2
  · rw [state_makeRunnable, if_neg hq]
  · rw [priority_makeRunnable]
  · rw [state_makeRunnable, if_pos rfl, priority_makeRunnable]
    rw [mem_row_makeRunnable ht hused] at hp
    rcases hp with hp | ⟨rfl, -⟩
    · exact hold l hl hp
    · exact hnew

theorem scheduler (ht : k.Tidy) (h : Entries Q k) (i : Nat)
    (hrun : ∀ l0 ∈ levels, ∀ p rest, k.row l0 = p :: rest → k.state p = .RUNNABLE →
      ∀ l ∈ levels, p ∈ (if l = l0 then rest else k.row l) → Q l .RUNNING (k.priority p)) :
    Entries Q (k.scheduler .priority i) := by
  cases SchedEnd.scheduler ht.wf i with
  | @pop l0 p rest hlo hhi hrow hfirst hrest hother hprio hstate hchoice =>
    -- only the head of one level has gone
    have hleft : ∀ l, (k.scheduler .priority i).row l = if l = l0 then rest else k.row l := by
      intro l
      by_cases hl : l = l0
      · rw [if_pos hl, hl]
        exact hrest
      · rw [if_neg hl]
        exact hother l hl
    have hsub : ∀ q l, q ∈ (k.scheduler .priority i).row l → q ∈ k.row l := by
      intro q l hq
      rw [hleft] at hq
      split at hq
      · rename_i hl
        rw [hl, hrow]
        exact List.mem_cons_of_mem p hq
      · exact hq
    refine h.update (p := p) (fun q l _ => hsub q l) (fun q hq => ?_) (fun q _ => hprio q)
      fun l hl hp => ?_
    · rw [hstate, if_neg fun hself => hq hself.1]
    · rw [hstate, hprio]
      by_cases hr : k.state p = .RUNNABLE
      · rw [if_pos ⟨rfl, hr⟩]
        rw [hleft] at hp
        exact hrun l0 (mem_levels.mpr ⟨hlo, hhi⟩) p rest hrow hr l hl hp
      · rw [if_neg fun hself => hr hself.2]
        exact h l hl p (hsub p l hp)
  | empty hnone hrow hprio hstate hchoice =>
    intro l hl q hq
    obtain ⟨hlo, hhi⟩ := mem_levels.mp hl
    rw [hrow, hnone l hlo hhi] at hq
    cases hq

theorem scheduler_of_run (ht : k.Tidy) (h : Entries Q k) (i : Nat)
    (hQ : ∀ l pr, Q l .RUNNABLE pr → Q l .RUNNING pr) : Entries Q (k.scheduler .priority i) := by
  refine h.scheduler ht i fun l0 _ p rest hrow hr l hl hp => hQ l _ ?_
  rw [← hr]
  refine h l hl p ?_
  split at hp
  · rename_i he
    rw [he, hrow]
    exact List.mem_cons_of_mem p hp
  · exact hp

theorem allocproc (h : Entries Q k) (hself : ∀ l ∈ levels, p ∈ k.row l → Q l .EMBRYO 3) :
    Entries Q (k.allocproc p) := by
  refine h.update (p := p) (fun q l _ hq => hq) (fun q hq => ?_) (fun q hq => ?_) fun l hl hp => ?_
  · rw [state_allocproc, if_neg hq]
  · rw [priority_allocproc, if_neg hq]
  · rw [state_allocproc, if_pos rfl, priority_allocproc, if_pos rfl]
    exact hself l hl hp

theorem freed (h : Entries Q k)
    (hself : ∀ l ∈ levels, p ∈ (k.freed p).row l → Q l .UNUSED (k.priority p)) :
    Entries Q (k.freed p) := by
  refine h.update (p := p) (fun q l _ hq => mem_row_of_freed hq) (fun q hq => ?_) (fun q _ => ?_)
    fun l hl hp => ?_
  · rw [state_freed, if_neg hq]
  · rw [priority_freed]
  · rw [state_freed, if_pos rfl, priority_freed]
    exact hself l hl hp

theorem enqueue (ht : k.Tidy) (h : Entries Q k)
    (hself : Q (k.priority p - 1) (k.state p) (k.priority p)) :
    Entries Q (k.enqueue .priority p).1 := by
  intro l hl q hq
  rcases (RunQueue.mem_row_add (ht.wf.marker_nonneg _)).mp hq with hq | ⟨rfl, rfl, -⟩
  · exact h l hl q hq
  · exact hself

theorem niceTail (ht : k.Tidy) (h : Entries Q k) {v : Int}
    (hself : ∀ l ∈ levels, p ∈ (k.niceTail p v).row l → Q l (k.state p) v) :
    Entries Q (k.niceTail p v) := by
  refine h.update (p := p) (fun q l hq hmem => ?_) (fun q _ => state_niceTail k p q v)
    (fun q hq => ?_) fun l hl hp => ?_
  · exact (mem_row_of_niceTail ht.wf hmem).resolve_right fun hself => hq hself.2
  · rw [priority_niceTail, if_neg hq]
  · rw [state_niceTail, priority_niceTail, if_pos rfl]
    exact hself l hl hp

end Entries

/-! ## Runnable processes have entries -/

variable {R : Int → Int → Prop}

def Placed (R : Int → Int → Prop) (k : Kernel) : Prop :=
  ∀ p, k.state p = .RUNNABLE → ∃ l, R (k.priority p) l ∧ p ∈ k.row l

namespace Placed

theorem boot : Placed R boot := fun p hp => by cases hp

theorem view (h : Placed R k) (hv : SameView k k') : Placed R k' := by
  intro p hp
  rw [hv.state] at hp
  obtain ⟨l, hl, hmem⟩ := h p hp
  rw [hv.priority]
  refine ⟨l, hl, ?_⟩
  rw [row, hv.rq]
  exact hmem

theorem leave (h : Placed R k) {st : ProcState}
    (hst : st ≠ .RUNNABLE) (hstate : ∀ q, k'.state q = if q = p then st else k.state q)
    (hprio : ∀ q, q ≠ p → k'.priority q = k.priority q)
    (hrow : ∀ q l, q ≠ p → k.state q = .RUNNABLE → q ∈ k.row l → q ∈ k'.row l) : Placed R k' := by
  intro q hq
  rw [hstate] at hq
  split at hq
  · exact absurd hq hst
  · rename_i hne
    obtain ⟨l, hl, hmem⟩ := h q hq
    rw [hprio q hne]
    exact ⟨l, hl, hrow q l hne hq hmem⟩

theorem makeRunnable (ht : k.Tidy) (h : Placed R k) (hused : k.state p ≠ .UNUSED)
    (hR : R (k.priority p) (k.priority p - 1)) : Placed R (k.makeRunnable .priority p).1 := by
  intro q hq
  rw [priority_makeRunnable]
  by_cases hqp : q = p
  · subst hqp
    exact ⟨k.priority q - 1, hR, (mem_row_makeRunnable ht hused q _).mpr (.inr ⟨rfl, rfl⟩)⟩
  · rw [state_makeRunnable, if_neg hqp] at hq
    obtain ⟨l, hl, hmem⟩ := h q hq
    exact ⟨l, hl, (mem_row_makeRunnable ht hused q l).mpr (.inl hmem)⟩

theorem scheduler (ht : k.Tidy) (h : Placed R k) (i : Nat)
    (hR : ∀ p l, k.state p = .RUNNABLE → R (k.priority p) l → l ∈ levels) :
    Placed R (k.scheduler .priority i) := by
  intro q hq
  cases SchedEnd.scheduler ht.wf i with
  | @pop l p rest hlo hhi hrow hfirst hrest hother hprio hstate hchoice =>
    rw [hstate] at hq
    split at hq
    · cases hq
    · rename_i hnot
      have hne : q ≠ p := by
        rintro rfl
        exact hnot ⟨rfl, hq⟩
      obtain ⟨l', hl', hmem⟩ := h q hq
      refine ⟨l', ?_, ?_⟩
      · rw [hprio]
        exact hl'
      · -- the entry that went is that of another process
        by_cases hll : l' = l
        · subst hll
          rw [hrow] at hmem
          rw [hrest]
          exact (List.mem_cons.mp hmem).resolve_left hne
        · rw [hother l' hll]
          exact hmem
  | empty hnone hrow hprio hstate hchoice =>
    -- with nothing queued there is no runnable process
    have hrun : k.state q = .RUNNABLE := by
      rcases hstate with hsame | ⟨p, -, hp⟩
      · rwa [hsame] at hq
      · rw [hp] at hq
        split at hq
        · cases hq
        · exact hq
    obtain ⟨l, hl, hmem⟩ := h q hrun
    obtain ⟨hlo, hhi⟩ := mem_levels.mp (hR q l hrun hl)
    rw [hnone l hlo hhi] at hmem
    cases hmem

theorem niceTail (ht : k.Tidy) (h : Placed R k) {v : Int}
    (hself : k.state p = .RUNNABLE → ∃ l, R v l ∧ p ∈ (k.niceTail p v).row l) :
    Placed R (k.niceTail p v) := by
  intro q hq
  rw [state_niceTail] at hq
  rw [priority_niceTail]
  by_cases hqp : q = p
  · rw [if_pos hqp]
    subst hqp
    exact hself hq
  · rw [if_neg hqp]
    obtain ⟨l, hl, hmem⟩ := h q hq
    -- `nice` may have found a free slot, but `q` has a pid of its own
    refine ⟨l, hl, mem_row_niceTail_of_pid_ne ht.wf hmem fun hpid => hqp ?_⟩
    have hused : k.state q ≠ .UNUSED := by
      rw [hq]
      decide
    exact (ht.unique hused p hpid.symm).symm

end Placed

/-- **Places are kept by every call but `nice`.** -/
theorem keeps_placed {C : Kernel → Sys → Prop}
    (hhome : ∀ pr, 0 ≤ pr - 1 → pr - 1 < 5 → R pr (pr - 1))
    (hlevel : ∀ pr l, 0 ≤ pr - 1 → pr - 1 < 5 → R pr l → l ∈ levels)
    (hnice : ∀ {k p i pid priority}, k.Tidy → Placed R k → C k (.nice i pid priority) →
      k.niceFind pid priority = some p → k.state p = .RUNNABLE →
      ∃ l, R priority l ∧ p ∈ (k.niceTail p priority).row l) :
    Keeps (Placed R) C where
  view := fun hv h => h.view hv
  wake := by
    intro k p ht h hp
    have hused := used_of_wakes hp
    obtain ⟨hlo, hhi⟩ := ht.level hused
    exact h.makeRunnable ht hused (hhome _ hlo hhi)
  stop := by
    intro k c st ht h hc hst
    refine h.leave ?_ (fun q => state_setState k c q st) (fun q _ => priority_setState k c q st)
      fun q l _ _ hmem => hmem
    rcases hst with rfl | rfl
    · decide
    · decide
  sched := by
    intro k i ht h
    refine h.scheduler ht i fun p l hp hl => ?_
    have hused : k.state p ≠ .UNUSED := by
      rw [hp]
      decide
    obtain ⟨hlo, hhi⟩ := ht.level hused
    exact hlevel _ l hlo hhi hl
  claim := by
    intro k np a ht h _ _ _
    refine h.leave (by decide) (fun q => state_allocproc k np q) (fun q hq => ?_)
      fun q l _ _ hmem => hmem
    rw [priority_allocproc, if_neg hq]
  abandon := by
    intro k np ht h _
    exact h.leave (by decide) (fun q => state_setState k np q .UNUSED)
      (fun q _ => priority_setState k np q .UNUSED) fun q l _ _ hmem => hmem
  reap := by
    intro k p a ht h _ _ _
    refine h.leave (by decide) (fun q => state_freed k p q) (fun q _ => priority_freed k p q)
      fun q l hne hq hmem => ?_
    -- the search for pid 0 passes over a runnable process
    refine mem_row_freed hmem hne (ht.pids.pos q ?_)
    rw [hq]
    decide
  requeue := by
    intro k p i pid ht h _ _ _ q hq
    obtain ⟨l, hl, hmem⟩ := h q hq
    exact ⟨l, hl, (RunQueue.mem_row_add (ht.wf.marker_nonneg _)).mpr (.inl hmem)⟩
  nice := fun ht h hC hp => h.niceTail ht fun hr => hnice ht h hC hp hr

/-! ## Is a runnable process always in a queue that the scheduler scans?

  Only `nice` takes away entries of a runnable process; with priority 5 the new
  level lies behind the arrays. -/

section

open Transition

variable {k : Kernel}

def NoLost (k : Kernel) : Prop := ∀ p, k.state p = .RUNNABLE → ∃ l ∈ levels, p ∈ k.row l

instance : Decidable k.NoLost :=
  inferInstanceAs (Decidable (∀ p, k.state p = .RUNNABLE → ∃ l ∈ levels, p ∈ k.row l))

theorem keeps_noLost : Keeps NoLost InArrays := by
  refine keeps_placed (R := fun _ l => l ∈ levels) (fun pr hlo hhi => mem_levels.mpr ⟨hlo, hhi⟩)
    (fun pr l _ _ hl => hl) ?_
  intro k p i pid priority ht _ hC hp hr
  have hused : k.state p ≠ .UNUSED := by
    rw [hr]
    decide
  exact ⟨priority, mem_levels.mpr (hC.nice_level hp),
    (mem_row_niceTail ht hused).mpr (.inr ⟨rfl, rfl⟩)⟩

/-- **No runnable process is lost, inside the arrays.** -/
theorem runnable_queued (acts : List Sys) (h : Meets (sysStep .priority) InArrays boot acts) :
    Along (sysStep .priority) NoLost boot acts := by
  have hboot : boot.NoLost := Placed.boot (R := fun _ l => l ∈ levels)
  exact (keeps_noLost.along hboot h).mono fun _ hk => hk.2

/-- A run with a `nice` to priority 4. -/
theorem runnable_queued_nice_four :
    (run (sysStep .priority) boot
      [.userinit 1 2, .scheduler 0, .resume 0, .fork 0 (some 3) (some 4), .nice 0 2 4,
        .yield 0, .scheduler 0]).isSome ∧
    Along (sysStep .priority) NoLost boot
      [.userinit 1 2, .scheduler 0, .resume 0, .fork 0 (some 3) (some 4), .nice 0 2 4,
        .yield 0, .scheduler 0] := by
  refine ⟨by decide +kernel, runnable_queued _ (meets_of_labels ?_)⟩
  intro a ha k
  simp only [List.mem_cons, List.not_mem_nil, or_false] at ha
  rcases ha with rfl | rfl | rfl | rfl | rfl | rfl | rfl
  case inr.inr.inr.inr.inl => exact fun h => absurd h (by decide)
  all_goals trivial

/-- The first process sets the nice value of its child, queued at level 2, to 2
    and then to 5.  The first call leaves the entry at level 2 as it is; the
    second removes it and puts the child at level 5, which nobody scans. -/
theorem nice_twice_loses_child :
    ∃ k, run (sysStep .priority) boot
      [.userinit 1 2, .scheduler 0, .resume 0, .fork 0 (some 3) (some 4), .nice 0 2 2,
        .nice 0 2 5] = some k ∧
      k.state 1 = .RUNNABLE ∧ k.pid 1 = 2 ∧ (∀ l ∈ levels, 1 ∉ k.row l) ∧ ¬ k.NoLost := by
  exact exists_run (by decide +kernel)

end

/-! ## Can an entry refer to a slot that is not in use?

  `wait` searches one level of the queue, so an entry that `nice` or `kill` has
  left at another level stays behind, and passes for one of the next process in
  the slot: `fork` takes its own child for queued already and calls `exit()`. -/

section

open Transition

variable {k : Kernel} {np : Slot}

def InUse (_ : Int) (st : ProcState) (_ : Int) : Prop := st ≠ .UNUSED ∧ st ≠ .EMBRYO

instance (l : Int) (st : ProcState) (priority : Int) : Decidable (InUse l st priority) :=
  inferInstanceAs (Decidable (_ ∧ _))

/-- The slot that `kill` and `nice` look up. -/
def finds (k : Kernel) : Sys → Option Slot
  | .kill _ pid | .nice _ pid _ => k.findPid pid
  | _ => none

/-- The queue calls stay inside the arrays, `kill` and `nice` find no slot that is not in use, and a
    zombie that is reaped is queued at its own level at most. -/
def SlotsSafe (k : Kernel) (a : Sys) : Prop :=
  k.InArrays a ∧ (∀ p, k.finds a = some p → k.state p ≠ .UNUSED ∧ k.state p ≠ .EMBRYO) ∧
    ∀ p, k.reaps a = some p → ∀ l ∈ levels, p ∈ k.row l → l = k.priority p - 1

instance (a : Sys) : Decidable (k.SlotsSafe a) := inferInstanceAs (Decidable (_ ∧ _ ∧ _))

def ForkReturns (k : Kernel) : Prop :=
  ∀ c np kstack pgdir, k.firstUnused = some np →
    ((((k.allocproc np).allocStack np (some kstack)).forkCopy c np (some pgdir)).forkReady
      .priority c np).2 ≠ .exits

theorem forkReady_exits {k : Kernel} {c : Slot} :
    (k.forkReady .priority c np).2 = .exits ↔ ∃ e ∈ k.row (k.priority np - 1), k.pid e = k.pid np := by
  rw [← RunQueue.add_eq_neg_one]
  unfold forkReady
  rw [makeRunnable_eq_add]
  by_cases h : (k.rq.add k.pid np (k.priority np - 1)).2 = -1
  · simp [h]
  · simp [h]

theorem Entries.forkReturns (ht : k.Tidy) (h : Entries InUse k) : k.ForkReturns := by
  intro c np kstack pgdir hnp hexits
  have hunused := firstUnused_state hnp
  have hv : SameView (k.allocproc np)
      (((k.allocproc np).allocStack np (some kstack)).forkCopy c np (some pgdir)) := by
    refine (sameView_allocStack _ np kstack).trans ?_
    exact sameView_forkCopy _ c np pgdir
  obtain ⟨e, he, hpid⟩ := forkReady_exits.mp hexits
  rw [row, hv.rq, hv.priority, priority_allocproc, if_pos rfl] at he
  rw [hv.pid, pid_allocproc, pid_allocproc, if_pos rfl] at hpid
  have hlevel : (3 : Int) - 1 ∈ levels := by decide
  by_cases hep : e = np
  · -- an entry of the slot from its former life
    subst hep
    exact (h _ hlevel e he).1 hunused
  · -- pids in use are below `nextpid`
    rw [if_neg hep] at hpid
    have hlt := (ht.pids.range e).2
    omega

theorem keeps_inUse : Keeps (Entries InUse) SlotsSafe where
  view := fun hv h => h.view hv
  wake := by
    intro k p ht h hp
    have hrun : InUse 0 .RUNNABLE 0 := by decide
    exact h.makeRunnable ht (used_of_wakes hp) (fun l _ _ => hrun) hrun
  stop := by
    intro k c st ht h _ hst
    refine h.setState fun l _ _ => ?_
    rcases hst with rfl | rfl
    · exact ⟨by decide, by decide⟩
    · exact ⟨by decide, by decide⟩
  sched := fun ht h => h.scheduler_of_run ht _ fun l pr _ => ⟨by decide, by decide⟩
  claim := by
    intro k np a ht h _ _ hnp
    refine h.allocproc fun l hl hmem => ?_
    exact absurd (firstUnused_state hnp) (h l hl np hmem).1
  abandon := by
    intro k np ht h hemb
    refine h.setState fun l hl hmem => ?_
    exact absurd hemb (h l hl np hmem).2
  reap := by
    intro k p a ht h hC hp hz
    refine h.freed fun l hl hmem => ?_
    exfalso
    -- at the level that is searched the entry goes, and by the condition there is no other
    have hlevel : l = k.priority p - 1 := hC.2.2 p hp l hl (mem_row_of_freed hmem)
    rw [hlevel] at hmem hl
    refine not_mem_row_freed ht.wf (fun q hq _ => ?_) hmem
    exact ht.pids.pos q (h _ hl q hq).1
  requeue := by
    intro k p i pid ht h hC hp _
    exact h.enqueue ht (hC.2.1 p hp)
  nice := by
    intro k p i pid priority ht h hC hp
    obtain ⟨-, -, hfind⟩ := niceFind_some hp
    exact h.niceTail ht fun l _ _ => hC.2.1 p hfind

/-- **No entry dangles and `fork` returns, short of stale entries at the time of a reap.** -/
theorem no_dangling_entries (acts : List Sys)
    (h : Meets (sysStep .priority) SlotsSafe boot acts) :
    Along (sysStep .priority) (fun k => Entries InUse k ∧ k.ForkReturns) boot acts := by
  refine (keeps_inUse.along Entries.boot h).mono fun k hk => ?_
  obtain ⟨ht, hin⟩ := hk
  exact ⟨hin, hin.forkReturns ht⟩

/-- A run in which the parent changes its own nice value and reaps a child. -/
theorem no_dangling_entries_reap :
    (run (sysStep .priority) boot
      [.userinit 1 2, .scheduler 0, .resume 0, .fork 0 (some 3) (some 4), .nice 0 1 4, .wait 0,
        .scheduler 0, .resume 0, .exit 0, .scheduler 0, .resume 0,
        .fork 0 (some 5) (some 6)]).isSome ∧
    Along (sysStep .priority) (fun k => Entries InUse k ∧ k.ForkReturns) boot
      [.userinit 1 2, .scheduler 0, .resume 0, .fork 0 (some 3) (some 4), .nice 0 1 4, .wait 0,
        .scheduler 0, .resume 0, .exit 0, .scheduler 0, .resume 0, .fork 0 (some 5) (some 6)] :=
  ⟨by decide +kernel, no_dangling_entries _ (by decide +kernel)⟩

/-- A child sets its own nice value to 2, which queues it at level 2, and exits.
    Its parent reaps it and removes it from level 1.  The free slot stays
    queued, and the next `fork` takes its own child for queued already. -/
theorem reaped_slot_stays_queued :
    ∃ k, run (sysStep .priority) boot
      [.userinit 1 2, .scheduler 0, .resume 0, .fork 0 (some 3) (some 4), .yield 0, .scheduler 0,
        .resume 0, .nice 0 2 2, .exit 0, .scheduler 0, .resume 0, .wait 0] = some k ∧
      k.state 1 = .UNUSED ∧ 1 ∈ k.row 2 ∧ ¬ Entries InUse k ∧
      (k.cpu 0).proc = some 0 ∧ k.firstUnused = some 1 ∧ ¬ k.ForkReturns := by
  have hstate : ∃ k, run (sysStep .priority) boot
      [.userinit 1 2, .scheduler 0, .resume 0, .fork 0 (some 3) (some 4), .yield 0, .scheduler 0,
        .resume 0, .nice 0 2 2, .exit 0, .scheduler 0, .resume 0, .wait 0] = some k ∧
      k.state 1 = .UNUSED ∧ 1 ∈ k.row 2 ∧ ¬ Entries InUse k ∧
      (k.cpu 0).proc = some 0 ∧ k.firstUnused = some 1 ∧
      ((((k.allocproc 1).allocStack 1 (some 5)).forkCopy 0 1 (some 6)).forkReady
        .priority 0 1).2 = .exits := by
    exact exists_run (by decide +kernel)
  obtain ⟨k, hrun, hunused, hrow, hnot, hcpu, hfirst, hexits⟩ := hstate
  exact ⟨k, hrun, hunused, hrow, hnot, hcpu, hfirst, fun h => h 0 1 5 6 hfirst hexits⟩

end

/-! ## Do the queues agree with the process table?

  They do as long as processes are only queued when they are made runnable,
  which `kill` and `nice` do not keep to. -/

section

open Transition

variable {k : Kernel} {p : Slot}

/-- The process of an entry at level `l` is runnable and has priority `l + 1`. -/
def AtHome (l : Int) (st : ProcState) (priority : Int) : Prop :=
  st = .RUNNABLE ∧ priority = l + 1

instance (l : Int) (st : ProcState) (priority : Int) : Decidable (AtHome l st priority) :=
  inferInstanceAs (Decidable (_ ∧ _))

def AtMostOnce (k : Kernel) : Prop := (levels.flatMap k.row).Nodup

instance : Decidable k.AtMostOnce := inferInstanceAs (Decidable (List.Nodup _))

/-- `nice` finds nobody, and `kill` finds a sleeping or runnable process or nobody. -/
def QueueSafe (k : Kernel) : Sys → Prop
  | .nice _ pid priority => k.niceFind pid priority = none
  | .kill _ pid => ∀ p, k.findPid pid = some p → k.state p = .SLEEPING ∨ k.state p = .RUNNABLE
  | _ => True

theorem Entries.atMostOnce (hwf : k.rq.Wf) (h : Entries AtHome k) : k.AtMostOnce := by
  rw [AtMostOnce, List.nodup_flatMap]
  refine ⟨fun l _ => hwf.nodup l, ?_⟩
  have hsorted : levels.Pairwise (· ≠ ·) := by decide
  refine hsorted.imp_of_mem fun hl hl' hne => ?_
  intro p hp hp'
  have h1 := (h _ hl p hp).2
  have h2 := (h _ hl' p hp').2
  omega

theorem Entries.popped (ht : k.Tidy) (h : Entries AtHome k) (i : Nat) :
    Entries AtHome (k.scheduler .priority i) := by
  refine h.scheduler ht i fun l0 hl0 p rest hrow _ l hl hp => ?_
  exfalso
  have hnodup : (p :: rest).Nodup := hrow ▸ ht.wf.nodup l0
  split at hp
  · exact hnodup.notMem hp
  · -- an entry at another level belongs to another priority
    rename_i hne
    have hhead : p ∈ k.row l0 := by
      rw [hrow]
      exact List.mem_cons_self
    have h1 := (h l hl p hp).2
    have h2 := (h l0 hl0 p hhead).2
    omega

theorem keeps_atHome : Keeps (Entries AtHome) QueueSafe where
  view := fun hv h => h.view hv
  wake := by
    intro k p ht h hp
    refine h.makeRunnable ht (used_of_wakes hp) (fun l hl hmem => ?_) ⟨rfl, by omega⟩
    exact ⟨rfl, (h l hl p hmem).2⟩
  stop := by
    intro k c st ht h hc hst
    -- a running process has no entry
    refine h.setState fun l hl hmem => ?_
    have hrun := (h l hl c hmem).1
    rw [hc] at hrun
    cases hrun
  sched := fun ht h => h.popped ht _
  claim := by
    intro k np a ht h _ _ hnp
    refine h.allocproc fun l hl hmem => ?_
    have hrun := (h l hl np hmem).1
    rw [firstUnused_state hnp] at hrun
    cases hrun
  abandon := by
    intro k np ht h hemb
    refine h.setState fun l hl hmem => ?_
    have hrun := (h l hl np hmem).1
    rw [hemb] at hrun
    cases hrun
  reap := by
    intro k p a ht h _ _ hz
    refine h.freed fun l hl hmem => ?_
    have hrun := (h l hl p (mem_row_of_freed hmem)).1
    rw [hz] at hrun
    cases hrun
  requeue := by
    intro k p i pid ht h hC hp hs
    have hrun : k.state p = .RUNNABLE := (hC p hp).resolve_left hs
    exact h.enqueue ht ⟨hrun, by omega⟩
  nice := by
    intro k p i pid priority ht h hC hp
    rw [show k.niceFind pid priority = none from hC] at hp
    cases hp

/-- **The queues agree with the table, short of `nice` and stray kills.** -/
theorem queues_agree (acts : List Sys) (h : Meets (sysStep .priority) QueueSafe boot acts) :
    Along (sysStep .priority) (fun k => Entries AtHome k ∧ k.AtMostOnce) boot acts := by
  refine (keeps_atHome.along Entries.boot h).mono fun k hk => ?_
  obtain ⟨ht, hhome⟩ := hk
  exact ⟨hhome, hhome.atMostOnce ht.wf⟩

/-- A run in which a parent sleeps in `wait` while its child is scheduled, and
    an exit wakes it up. -/
theorem queues_agree_wait :
    (run (sysStep .priority) boot
      [.userinit 1 2, .scheduler 0, .resume 0, .fork 0 (some 3) (some 4), .wait 0, .scheduler 0,
        .resume 0, .exit 0, .scheduler 0, .resume 0]).isSome ∧
    Along (sysStep .priority) (fun k => Entries AtHome k ∧ k.AtMostOnce) boot
      [.userinit 1 2, .scheduler 0, .resume 0, .fork 0 (some 3) (some 4), .wait 0, .scheduler 0,
        .resume 0, .exit 0, .scheduler 0, .resume 0] := by
  refine ⟨by decide +kernel, queues_agree _ (meets_of_labels ?_)⟩
  intro a ha k
  simp only [List.mem_cons, List.not_mem_nil, or_false] at ha
  rcases ha with rfl | rfl | rfl | rfl | rfl | rfl | rfl | rfl | rfl | rfl
  all_goals trivial

/-- The first process sets the nice value of its child to 4: the child keeps its entry at level 2
    and gets another one at level 4, and neither is the level of priority 4. -/
theorem nice_queues_child_twice :
    ∃ k, run (sysStep .priority) boot
      [.userinit 1 2, .scheduler 0, .resume 0, .fork 0 (some 3) (some 4), .nice 0 2 4] = some k ∧
      k.priority 1 = 4 ∧ k.row 2 = [1] ∧ k.row 4 = [1] ∧
      ¬ Entries AtHome k ∧ ¬ k.AtMostOnce := by
  exact exists_run (by decide +kernel)

end

end Kernel
end Xv6
