/-
  Xv6.Proc.Strict

  Does the scheduler give the CPU to a runnable process of the best priority?

  It does where every runnable process is queued at the level of its priority
  and no process at a better level.  `nice` breaks both: it gives a queued
  process another priority and leaves its entry where it is.  Entries of slots
  that have been reaped pass for entries of the next process in the slot, which
  starts with priority 3.
-/

import Xv6.Proc.Entries

namespace Xv6
namespace Kernel

open Transition

variable {k k' : Kernel} {p : Slot}

/-- A scheduler that switches to a process finds no runnable process with a
    smaller priority number. -/
def StrictDispatch (k : Kernel) : Prop :=
  ∀ i p k', k.sysStep .priority (.scheduler i) = some k' → (k'.cpu i).proc = some p →
    ∀ q, k.state q = .RUNNABLE → k.priority p ≤ k.priority q

def NotAbove (l : Int) (st : ProcState) (priority : Int) : Prop :=
  st ≠ .UNUSED → priority ≤ l + 1

def OwnLevel (priority l : Int) : Prop := l = priority - 1

/-- `nice` gives a runnable process the priority it has, and a process that is queued at other
    levels no priority worse than theirs; the slot for a new process is not queued above level 2. -/
def PriorityKept (k : Kernel) : Sys → Prop
  | .nice _ pid priority => ∀ p, k.findPid pid = some p →
      (k.state p = .RUNNABLE → priority = k.priority p) ∧
      ∀ l ∈ levels, p ∈ k.row l → l ≠ k.priority p → priority ≤ l + 1
  | .userinit _ _ | .fork _ _ _ => ∀ np, k.firstUnused = some np → np ∉ k.row 0 ∧ np ∉ k.row 1
  | _ => True

instance : ∀ a, Decidable (k.PriorityKept a)
  | .nice _ pid priority => inferInstanceAs (Decidable (∀ p, k.findPid pid = some p →
      (k.state p = .RUNNABLE → priority = k.priority p) ∧
      ∀ l ∈ levels, p ∈ k.row l → l ≠ k.priority p → priority ≤ l + 1))
  | .userinit _ _ | .fork _ _ _ => inferInstanceAs
      (Decidable (∀ np, k.firstUnused = some np → np ∉ k.row 0 ∧ np ∉ k.row 1))
  | .scheduler _ | .resume _ | .exit _ | .wait _ | .yield _ | .sleep _ _ | .wakeup _ | .kill _ _
  | .fault _ => .isTrue trivial

def StrictSafe (k : Kernel) (a : Sys) : Prop := k.InArrays a ∧ k.PriorityKept a

instance (a : Sys) : Decidable (k.StrictSafe a) := inferInstanceAs (Decidable (_ ∧ _))

/-! ## The two invariants -/

theorem keeps_ownLevel : Keeps (Placed OwnLevel) StrictSafe := by
  refine keeps_placed (fun pr _ _ => rfl) (fun pr l hlo hhi hl => ?_) ?_
  · rw [show l = pr - 1 from hl]
    exact mem_levels.mpr ⟨hlo, hhi⟩
  · intro k p i pid priority ht h hC hp hr
    obtain ⟨-, -, hfind⟩ := niceFind_some hp
    have hsame : priority = k.priority p := (hC.2 p hfind).1 hr
    have hused : k.state p ≠ .UNUSED := by
      rw [hr]
      decide
    obtain ⟨l, hl, hmem⟩ := h p hr
    have hl : l = k.priority p - 1 := hl
    refine ⟨l, ?_, (mem_row_niceTail ht hused).mpr (.inl ⟨hmem, fun hold => ?_⟩)⟩
    · rw [hsame]
      exact hl
    · -- the removal is at the level behind
      have := hold.1
      omega

theorem keeps_notAbove : Keeps (Entries NotAbove) StrictSafe where
  view := fun hv h => h.view hv
  wake := by
    intro k p ht h hp
    have hused := used_of_wakes hp
    refine h.makeRunnable ht hused (fun l hl hmem _ => h l hl p hmem hused) fun _ => ?_
    omega
  stop := by
    intro k c st ht h hc _
    refine h.setState fun l hl hmem _ => h l hl c hmem ?_
    rw [hc]
    decide
  sched := fun ht h => h.scheduler_of_run ht _ fun l pr hQ _ => hQ (by decide)
  claim := by
    intro k np a ht h hC ha hnp
    refine h.allocproc fun l hl hmem _ => ?_
    -- priority 3 belongs to level 2, so entries at 0 and 1 would be too good
    have hkept : np ∉ k.row 0 ∧ np ∉ k.row 1 := by
      cases a with
      | userinit kstack pgdir => exact hC.2 np hnp
      | fork i kalloc copyuvm => exact hC.2 np hnp
      | _ => cases ha
    have h0 : l ≠ 0 := fun he => hkept.1 (he ▸ hmem)
    have h1 : l ≠ 1 := fun he => hkept.2 (he ▸ hmem)
    have hlo := (mem_levels.mp hl).1
    omega
  abandon := fun _ h _ => h.setState fun l _ _ hst => absurd rfl hst
  reap := fun _ h _ _ _ => h.freed fun l _ _ hst => absurd rfl hst
  requeue := by
    intro k p i pid ht h _ _ _
    refine h.enqueue ht fun _ => ?_
    omega
  nice := by
    intro k p i pid priority ht h hC hp
    obtain ⟨-, -, hfind⟩ := niceFind_some hp
    refine h.niceTail ht fun l hl hmem hused => ?_
    rcases (mem_row_niceTail ht hused).mp hmem with ⟨hold, hnot⟩ | ⟨rfl, -⟩
    · exact (hC.2 p hfind).2 l hl hold fun he => hnot ⟨he, rfl⟩
    · -- the new entry is one level worse than it should be, never better
      omega

/-! ## The dispatch -/

theorem scheduler_proc {i : Nat} (hs : k.sysStep .priority (.scheduler i) = some k')
    (hp : (k'.cpu i).proc = some p) :
    k' = k.scheduler .priority i ∧ (k.pop i).choice i = some p := by
  cases Step.of_step (show k.step .priority (.scheduler i) = some k' from hs) with
  | scheduler hl hc =>
    refine ⟨rfl, ?_⟩
    cases hchoice : (k.pop i).choice i with
    | none =>
      -- nobody was chosen, and the CPU stays without a process
      rw [scheduler_of_no_choice hchoice] at hp
      have hpop : ((k.pop i).cpu i).proc = (k.cpu i).proc := by
        unfold pop
        split
        · rfl
        · simp only
          split
          · simp [setCpu]
          · simp [setCpu, removeProcessFromQueue]
      rw [hpop, hc] at hp
      cases hp
    | some p' =>
      rw [scheduler_of_choice hchoice] at hp
      have hproc : (((k.pop i).dispatch i p').cpu i).proc = some p' := by
        simp [dispatch, setCpu]
      rw [hproc] at hp
      exact hp

/-- The first entry of the first level has the best priority there is. -/
theorem strictDispatch (ht : k.Tidy) (hown : Placed OwnLevel k) (habove : Entries NotAbove k) :
    k.StrictDispatch := by
  intro i p k' hs hp q hq
  obtain ⟨-, hchoice⟩ := scheduler_proc hs hp
  obtain ⟨lq, hlq, hmemq⟩ := hown q hq
  have hlq : lq = k.priority q - 1 := hlq
  have hlevel : 0 ≤ k.priority q - 1 ∧ k.priority q - 1 < 5 := by
    refine ht.level ?_
    rw [hq]
    decide
  cases SchedEnd.scheduler ht.wf i with
  | @pop l p' rest hlo hhi hrow hfirst hrest hother hprio hstate hchosen =>
    obtain ⟨rfl, hrun⟩ := hchosen p hchoice
    have hhead : p ∈ k.row l := by
      rw [hrow]
      exact List.mem_cons_self
    have hused : k.state p ≠ .UNUSED := by
      rw [hrun]
      decide
    have hle := habove l (mem_levels.mpr ⟨hlo, hhi⟩) p hhead hused
    -- `q` is queued behind the empty levels
    have hge : l ≤ lq := by
      by_contra hlt
      rw [hfirst lq (by omega) (by omega)] at hmemq
      cases hmemq
    omega
  | empty hnone hrow hprio hstate hchosen =>
    -- a stale `p` is only dispatched when nobody is queued, so nobody is runnable
    rw [hnone lq (by omega) (by omega)] at hmemq
    cases hmemq

/-- **Strict priority, short of `nice` on queued processes.** -/
theorem strict_priority (acts : List Sys)
    (h : Meets (sysStep .priority) StrictSafe boot acts) :
    Along (sysStep .priority) StrictDispatch boot acts := by
  have hown := keeps_ownLevel.along Placed.boot h
  have habove := keeps_notAbove.along Entries.boot h
  exact (hown.and habove).mono fun k hk => strictDispatch hk.1.1 hk.1.2 hk.2.2

/-- A run in which a process lowers its own priority and yields. -/
theorem strict_priority_nice_self :
    (run (sysStep .priority) boot
      [.userinit 1 2, .scheduler 0, .resume 0, .fork 0 (some 3) (some 4), .nice 0 1 4, .yield 0,
        .scheduler 0, .resume 0, .yield 0, .scheduler 0]).isSome ∧
    Along (sysStep .priority) StrictDispatch boot
      [.userinit 1 2, .scheduler 0, .resume 0, .fork 0 (some 3) (some 4), .nice 0 1 4, .yield 0,
        .scheduler 0, .resume 0, .yield 0, .scheduler 0] :=
  ⟨by decide +kernel, strict_priority _ (by decide +kernel)⟩

/-- The first process sets the nice value of its child to 4 and yields.  The child stands first at
    level 2 and is switched to, although the first process has priority 3. -/
theorem nice_child_overtakes :
    ∃ k, run (sysStep .priority) boot
      [.userinit 1 2, .scheduler 0, .resume 0, .fork 0 (some 3) (some 4), .nice 0 2 4,
        .yield 0] = some k ∧
      k.state 0 = .RUNNABLE ∧ k.priority 0 = 3 ∧ k.priority 1 = 4 ∧
      (∃ k', k.sysStep .priority (.scheduler 0) = some k' ∧ (k'.cpu 0).proc = some 1) ∧
      ¬ k.StrictDispatch := by
  have hstate : ∃ k, run (sysStep .priority) boot
      [.userinit 1 2, .scheduler 0, .resume 0, .fork 0 (some 3) (some 4), .nice 0 2 4,
        .yield 0] = some k ∧
      k.state 0 = .RUNNABLE ∧ k.priority 0 = 3 ∧ k.priority 1 = 4 ∧
      (k.sysStep .priority (.scheduler 0)).any (fun k' => (k'.cpu 0).proc = some 1) := by
    exact exists_run (by decide +kernel)
  obtain ⟨k, hrun, hr, h0, h1, hany⟩ := hstate
  obtain ⟨k', hs, hp⟩ := (Option.any_eq_true _ _).mp hany
  have hp : (k'.cpu 0).proc = some 1 := of_decide_eq_true hp
  refine ⟨k, hrun, hr, h0, h1, ⟨k', hs, hp⟩, fun h => ?_⟩
  have hle := h 0 1 k' hs hp 0 hr
  omega

end Kernel
end Xv6
