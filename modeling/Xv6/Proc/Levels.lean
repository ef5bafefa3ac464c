/-
  Xv6.Proc.Levels

  The level arguments of `add_process_to_queue` and
  `remove_process_from_queue`.

  Everybody but `nice` computes the level as `priority - 1`, which is in range
  for a slot that has been allocated; `nice` uses the priorities themselves.
  So two calls can leave the arrays: a successful `nice` with priority 5, in
  both builds, and a `kill` that finds a slot which was never allocated.
-/

import Xv6.Proc.Slots

namespace Xv6
namespace Kernel

open Transition

variable {b : Build} {k k' : Kernel} {a : Act}

/-- Every queue call so far was at a level of the arrays. -/
def CallsInRange (k : Kernel) : Prop := ∀ pr ∈ k.calls, 0 ≤ pr ∧ pr < PLEVELS

/-- `nice` does not reach a process with priority 5, and `kill`, where it
    enqueues, does not find a slot of priority 0. -/
def LevelsSafe (b : Build) (k : Kernel) : Act → Prop
  | .niceFind _ pid priority => priority = 5 → k.findPid pid = none
  | .kill _ pid => b = .priority → ∀ p, k.findPid pid = some p → k.priority p ≠ 0
  | _ => True

theorem level_range (hpid : k.PidInv) (hprio : k.PrioInv 4) {p : Slot} (hp : k.life p ≠ .free) :
    0 ≤ k.priority p - 1 ∧ k.priority p - 1 < PLEVELS := by
  have hused : k.state p ≠ .UNUSED := fun hu => hp (ProcState.life_eq_free.mpr hu)
  have hlo := hprio.pos p (hpid.pos p hused)
  have hhi := (hprio.range p).2
  show 0 ≤ k.priority p - 1 ∧ k.priority p - 1 < 5
  omega

theorem CallsInRange.cons (h : k.CallsInRange) {pr : Int} (hpr : 0 ≤ pr ∧ pr < PLEVELS)
    (hcalls : k'.calls = pr :: k.calls) : k'.CallsInRange := by
  intro l hl
  rw [hcalls] at hl
  rcases List.mem_cons.mp hl with rfl | hl
  · exact hpr
  · exact h l hl

theorem CallsInRange.logCall (h : k.CallsInRange) {pr : Int}
    (hpr : b = .priority → 0 ≤ pr ∧ pr < PLEVELS)
    (hcalls : k'.calls = b.logCall pr k.calls) : k'.CallsInRange := by
  cases b with
  | priority => exact h.cons (hpr rfl) hcalls
  | custom =>
    intro l hl
    rw [hcalls] at hl
    exact h l hl

theorem CallsInRange.sched (h : k.CallsInRange)
    (hlevel : ∀ p, k.life p = .live → 0 ≤ k.priority p - 1 ∧ k.priority p - 1 < PLEVELS)
    (hs : Sched k k') : k'.CallsInRange := by
  obtain ⟨cs, hcs, hall⟩ := hs.calls
  intro pr hpr
  rw [hcs, List.mem_append] at hpr
  rcases hpr with hnew | hold
  · rcases hall pr hnew with hr | ⟨p, hlive, rfl⟩
    · exact hr
    · exact hlevel p hlive
  · exact h pr hold

theorem CallsInRange.effect (h : k.CallsInRange) (hsound : k.Sound) (hprio : k.PrioInv 4)
    (hsafe : LevelsSafe b k a) (e : Effect b k a k') : k'.CallsInRange := by
  have hpid := hsound.pids
  have hlive : ∀ p, k.life p = .live → 0 ≤ k.priority p - 1 ∧ k.priority p - 1 < PLEVELS :=
    fun p hp => level_range hpid hprio (by rw [hp]; decide)
  cases e with
  | sched ha hs => exact h.sched hlive hs
  | userinit hi hn hp => exact h.logCall (fun _ => by decide) rfl
  | @ready i c np rq hc hf =>
    have hemb := hsound.base.forks.embryo c np (congrArg Frame.forking hf)
    refine h.logCall (fun _ => level_range hpid hprio ?_) rfl
    rw [life, hemb]
    decide
  | @readyLost i c np rq hc hf =>
    have hemb := hsound.base.forks.embryo c np (congrArg Frame.forking hf)
    refine h.logCall (fun _ => level_range hpid hprio ?_) rfl
    rw [life, hemb]
    decide
  | @exit i c k1 k' hc hf hi h1 h2 =>
    have hrep : CallsInRange k1 := by
      refine CallsInRange.sched (k := (k.setFrame c .idle).reparent c) h (fun p hp => ?_) h1
      rw [← h1.priority_eq, h1.reparented_priority]
      rw [← h1.life_eq, h1.reparented_life] at hp
      exact hlive p hp
    refine CallsInRange.sched ?_ (fun p hp => ?_) h2
    · exact hrep
    · -- the caller is a zombie by now, the others are as before
      by_cases hpc : p = c
      · subst hpc
        simp [life, state, log, setProc, ProcState.life] at hp
      · simp only [life, state, priority, log, setProc, ne_eq, hpc, not_false_eq_true,
          Function.update_of_ne] at hp ⊢
        have hprio1 := h1.reparented_priority p
        have hlife1 := h1.reparented_life p
        rw [show (k1.proc p).priority = k.priority p from hprio1]
        exact hlive p (hlife1.symm.trans hp)
  | @reap _ c p k1 rq ha hs hc hpar hp =>
    refine (h.sched hlive hs).logCall (fun _ => level_range hpid hprio ?_) rfl
    rw [hp]
    decide
  | @kill i c p pid rq f hc hf hp hend =>
    -- the slot may be free, so that only the condition keeps its priority from 0
    refine h.logCall (fun hb => ?_) rfl
    have hne := hsafe hb p hp
    have hr := hprio.range p
    show 0 ≤ k.priority p - 1 ∧ k.priority p - 1 < 5
    omega
  | @niceRemove i c p old priority rq hc hf =>
    -- no `- 1` here, so the bound has to be 4 instead of 5
    have hframe : (Frame.niceRemove p old priority).Within 4 := hf ▸ hprio.frames c
    obtain ⟨⟨hlo, hhi⟩, -⟩ := hframe
    have hold : 0 ≤ old ∧ old < 5 := by omega
    exact h.cons hold rfl
  | @niceAdd i c p priority rq hc hf =>
    have hframe : (Frame.niceAdd p priority).Within 4 := hf ▸ hprio.frames c
    obtain ⟨hlo, hhi⟩ := hframe
    refine h.cons ?_ rfl
    show 0 ≤ priority ∧ priority < 5
    omega
  | _ => exact h

/-- **Levels are in range, short of the two calls.**  In every run in which no `nice` reaches a
    process with priority 5 and no `kill` of the priority build finds a never allocated slot, all
    queue calls are at levels of the arrays. -/
theorem queue_levels_in_range (b : Build) (acts : List Act)
    (h : Meets (step b) (LevelsSafe b) boot acts) : Along (step b) CallsInRange boot acts := by
  have hrun : Along (step b) (fun k => k.Sound ∧ k.PrioInv 4 ∧ k.CallsInRange) boot acts := by
    refine along_of_meets ⟨sound_boot, prioInv_boot (by decide), ?_⟩ ?_ h
    · intro pr hpr
      cases hpr
    · rintro k a k' ⟨hsound, hprio, hcalls⟩ hsafe hs
      have e := hsound.base.effect_of_step hs
      refine ⟨hsound.step hs, ?_, hcalls.effect hsound hprio hsafe e⟩
      -- a `nice` that finds its process asks for at most 4
      refine hprio.effect (by decide) (fun i pid v p ha hp hv => ?_) e
      subst ha
      by_contra hlt
      have hnone := hsafe (by omega)
      rw [hp] at hnone
      cases hnone
  exact hrun.mono fun _ hk => hk.2.2

/-- A run with a `nice` to priority 4. -/
theorem queue_levels_in_range_nice_four :
    (run (step .priority) boot
      [.userinit 1 2, .scheduler 0, .resume 0, .niceFind 0 1 4, .niceSet 0, .niceRemove 0,
        .niceAdd 0, .yield 0, .scheduler 0]).isSome ∧
    Along (step .priority) CallsInRange boot
      [.userinit 1 2, .scheduler 0, .resume 0, .niceFind 0 1 4, .niceSet 0, .niceRemove 0,
        .niceAdd 0, .yield 0, .scheduler 0] := by
  refine ⟨by decide +kernel, queue_levels_in_range .priority _ (meets_of_labels ?_)⟩
  intro a ha k
  simp only [List.mem_cons, List.not_mem_nil, or_false] at ha
  rcases ha with rfl | rfl | rfl | rfl | rfl | rfl | rfl | rfl | rfl
  case inr.inr.inr.inl => exact fun h => absurd h (by decide)
  all_goals trivial

/-- The first process raises its own nice value to 5 and both builds index the
    arrays at level 5; a `kill(0)` of the priority build indexes them at -1. -/
theorem queue_levels_out_of_range :
    (∃ k, run (step .priority) boot
      [.userinit 1 2, .scheduler 0, .resume 0, .niceFind 0 1 5, .niceSet 0, .niceRemove 0,
        .niceAdd 0] = some k ∧ PLEVELS ∈ k.calls) ∧
    (∃ k, run (step .custom) boot
      [.userinit 1 2, .scheduler 0, .resume 0, .niceFind 0 1 5, .niceSet 0, .niceRemove 0,
        .niceAdd 0] = some k ∧ PLEVELS ∈ k.calls) ∧
    ∃ k, run (step .priority) boot
      [.userinit 1 2, .scheduler 0, .resume 0, .kill 0 0] = some k ∧ -1 ∈ k.calls := by
  refine ⟨exists_run ?_, exists_run ?_, exists_run ?_⟩
  · decide +kernel
  · decide +kernel
  · decide +kernel

end Kernel
end Xv6
