/-
  Xv6.Proc.Kill

  What `kill` does to its target, to its caller and to everybody else, and
  which slots it can mark as killed.

  The enqueue of the priority build stands below the `SLEEPING` test without
  being part of it, so a `kill` only behaves as its comment says on a sleeping
  process that is not queued.  In both builds the search goes by pid alone and
  finds free slots as well.
-/

import Xv6.Proc.Slots

namespace Xv6
namespace Kernel

open Function Transition RunQueue

variable {b : Build} {k k' : Kernel} {a : Act} {p : Slot} {pid : Int}

/-! ## The effect on a process that was found -/

theorem kill_priority_eq (hp : k.findPid pid = some p) :
    k.kill .priority pid = ({ k with
          proc := update k.proc p { k.proc p with
            killed := true, state := if k.state p = .SLEEPING then .RUNNABLE else k.state p }
          rq := (k.rq.add k.pid p (k.priority p - 1)).1
          calls := (k.priority p - 1) :: k.calls },
        if (k.rq.add k.pid p (k.priority p - 1)).2 = -1 then .exits else .ret 0) := by
  have hpids : (k.marked p).pid = k.pid := funext (pid_marked k p)
  rw [kill_found .priority hp]
  simp only [enqueue, addProcessToQueue, hpids, priority_marked]
  rfl

/-- What `kill` is to do to a process: return 0, mark it, wake it up and queue
    it if it sleeps, and touch nothing else. -/
structure KillFrame (k : Kernel) (p : Slot) : Prop where
  returns : (k.kill .priority (k.pid p)).2 = .ret 0
  killed : ((k.kill .priority (k.pid p)).1.proc p).killed = true
  asleep : k.state p = .SLEEPING → (k.kill .priority (k.pid p)).1.state p = .RUNNABLE ∧
    (k.kill .priority (k.pid p)).1.row (k.priority p - 1) = k.row (k.priority p - 1) ++ [p] ∧
    ∀ l, l ≠ k.priority p - 1 → (k.kill .priority (k.pid p)).1.row l = k.row l
  awake : k.state p ≠ .SLEEPING → (k.kill .priority (k.pid p)).1.state p = k.state p ∧
    (k.kill .priority (k.pid p)).1.rq = k.rq
  others : ∀ q, q ≠ p → (k.kill .priority (k.pid p)).1.proc q = k.proc q

theorem KillFrame.not_queued (h : k.KillFrame p) (hp : k.findPid (k.pid p) = some p) :
    ∀ e ∈ k.row (k.priority p - 1), k.pid e ≠ k.pid p := by
  intro e he hpid
  have hret := h.returns
  rw [kill_priority_eq hp] at hret
  have hfull : (k.rq.add k.pid p (k.priority p - 1)).2 = -1 := add_eq_neg_one.mpr ⟨e, he, hpid⟩
  rw [if_pos hfull] at hret
  cases hret

theorem killFrame_iff (hp : k.findPid (k.pid p) = some p) : k.KillFrame p ↔ k.state p = .SLEEPING ∧
    0 ≤ k.rq.marker (k.priority p - 1) ∧ ∀ e ∈ k.row (k.priority p - 1), k.pid e ≠ k.pid p := by
  constructor
  · intro h
    have hfree := h.not_queued hp
    have hsleep : k.state p = .SLEEPING := by
      by_contra hs
      -- awake processes are queued all the same
      have hrq : (k.rq.add k.pid p (k.priority p - 1)).1 = k.rq := by
        have hsame := (h.awake hs).2
        rw [kill_priority_eq hp] at hsame
        exact hsame
      have hmark := marker_add hfree
      rw [hrq] at hmark
      omega
    refine ⟨hsleep, ?_, hfree⟩
    have hrow : (k.rq.add k.pid p (k.priority p - 1)).1.row (k.priority p - 1)
        = k.row (k.priority p - 1) ++ [p] := by
      have hqueued := (h.asleep hsleep).2.1
      rw [kill_priority_eq hp] at hqueued
      exact hqueued
    -- below a negative mark nothing is ever queued
    by_contra hneg
    have hmark := marker_add hfree
    have hnil : (k.rq.add k.pid p (k.priority p - 1)).1.row (k.priority p - 1) = [] :=
      row_eq_nil (by omega)
    rw [hnil] at hrow
    simp at hrow
  · rintro ⟨hs, hm, hfree⟩
    -- the enqueue succeeds, so all fields can be read off the result
    obtain ⟨hret, hrow⟩ := row_add_append hm hfree
    have hne : ¬ (k.rq.add k.pid p (k.priority p - 1)).2 = -1 := by
      rw [hret]
      decide
    have hkill := kill_priority_eq hp
    rw [if_neg hne] at hkill
    refine ⟨?_, ?_, fun _ => ⟨?_, ?_, fun l hl => ?_⟩, fun hn => absurd hs hn, fun q hq => ?_⟩
    · rw [hkill]
    · rw [hkill]
      simp
    · rw [hkill]
      simp [state, hs]
    · rw [hkill]
      exact hrow
    · rw [hkill]
      exact row_add_of_ne hl
    · rw [hkill]
      simp [hq]

/-- **The target and the caller of `kill`.**  In every reachable state of the priority build, `kill`
    of a process that is not free keeps to `KillFrame` exactly if the process is asleep and its pid
    is not queued at its level (whose fill mark no race has made negative). -/
theorem kill_frame_exact (acts : List Act) :
    Along (step .priority)
      (fun k => ∀ p, k.state p ≠ .UNUSED →
        (k.KillFrame p ↔ k.state p = .SLEEPING ∧ 0 ≤ k.rq.marker (k.priority p - 1) ∧
          ∀ e ∈ k.row (k.priority p - 1), k.pid e ≠ k.pid p))
      boot acts :=
  (sound_run .priority acts).mono fun _ h _ hp =>
    killFrame_iff (h.pids.findPid_eq (h.pids.pos _ hp))

/-- The parent of a fresh child, which is queued, kills the child and is made to `exit()` by it. -/
theorem kill_runnable_ends_caller :
    ∃ k, run (step .priority) boot
      [.userinit 1 2, .scheduler 0, .resume 0, .forkAlloc 0, .forkKalloc 0 (some 3),
        .forkCopy 0 (some 4), .forkReady 0] = some k ∧
      (k.cpu 0).proc = some 0 ∧ k.state 1 = .RUNNABLE ∧ k.pid 1 = 2 ∧
      (k.kill .priority 2).2 = .exits ∧ ¬ k.KillFrame 1 := by
  have hstate : ∃ k, run (step .priority) boot
      [.userinit 1 2, .scheduler 0, .resume 0, .forkAlloc 0, .forkKalloc 0 (some 3),
        .forkCopy 0 (some 4), .forkReady 0] = some k ∧
      (k.cpu 0).proc = some 0 ∧ k.state 1 = .RUNNABLE ∧ k.pid 1 = 2 ∧
      (k.kill .priority 2).2 = .exits := by
    exact exists_run (by decide +kernel)
  obtain ⟨k, hrun, hcpu, hst, hpid, hex⟩ := hstate
  refine ⟨k, hrun, hcpu, hst, hpid, hex, fun h => ?_⟩
  have hret := h.returns
  rw [hpid, hex] at hret
  cases hret

/-! ## Marks on free slots -/

def KillSpec (b : Build) (k : Kernel) (pid : Int) : Prop :=
  (∃ p, k.state p ≠ .UNUSED ∧ k.pid p = pid) ∨ k.kill b pid = (k, .ret (-1))

theorem killSpec_iff (h : k.PidInv) :
    k.KillSpec b pid ↔ ∀ p, k.pid p = pid → k.state p ≠ .UNUSED := by
  constructor
  · rintro (⟨q, hq, rfl⟩ | hkill) p hp hu
    · -- a pid in use belongs to one slot
      rw [h.inj q p (h.pos q hq) hp] at hu
      exact hq hu
    · cases hf : k.findPid pid with
      | none => exact findPid_eq_none.mp hf p hp
      | some q =>
        -- a `kill` that finds a slot returns 0 or ends its caller
        have hout := congrArg Prod.snd hkill
        rw [kill_found b hf] at hout
        simp only at hout
        split at hout
        · cases hout
        · cases hout
  · intro hall
    cases hf : k.findPid pid with
    | none =>
      right
      simp only [kill, hf]
    | some q => exact .inl ⟨q, hall q (findPid_pid hf), findPid_pid hf⟩

def FreeUnmarked (k : Kernel) : Prop := ∀ p, k.state p = .UNUSED → (k.proc p).killed = false

def FreshUnmarked (k : Kernel) : Prop :=
  ∀ np, k.firstUnused = some np → ((k.allocproc np).proc np).killed = false

/-- `kill` finds no free slot, and a `fork` that fails gives back a slot that
    was not marked in the meantime. -/
def MarksSafe (k : Kernel) : Act → Prop
  | .kill _ pid => ∀ p, k.findPid pid = some p → k.state p ≠ .UNUSED
  | .forkKalloc i none | .forkCopy i none => ∀ c np, (k.cpu i).proc = some c →
      (k.frame c).forking = some np → (k.proc np).killed = false
  | _ => True

theorem FreeUnmarked.fresh (h : k.FreeUnmarked) : k.FreshUnmarked := by
  intro np hnp
  have hfree := h np (firstUnused_state hnp)
  simpa [allocproc, setProc] using hfree

theorem FreeUnmarked.same (h : k.FreeUnmarked)
    (hproc : ∀ q, k'.state q = .UNUSED → k.state q = .UNUSED ∧ (k'.proc q).killed = (k.proc q).killed) :
    k'.FreeUnmarked := by
  intro q hq
  obtain ⟨hu, hk⟩ := hproc q hq
  rw [hk]
  exact h q hu

theorem FreeUnmarked.sched (h : k.FreeUnmarked) (hs : Sched k k') : k'.FreeUnmarked := by
  refine h.same fun q hq => ⟨?_, hs.killed_eq q⟩
  rw [← ProcState.life_eq_free] at hq ⊢
  exact (hs.life_eq q).symm.trans hq

theorem freeUnmarked_update {r : Proc} (h : k.FreeUnmarked) (hproc : k'.proc = update k.proc p r) :
    k'.FreeUnmarked ↔ (r.state = .UNUSED → r.killed = false) := by
  constructor
  · intro h' hr
    have hp := h' p
    rw [state, hproc, update_self] at hp
    exact hp hr
  · intro hr q hq
    rw [state, hproc] at hq
    rw [hproc]
    by_cases hqp : q = p
    · subst hqp
      rw [update_self] at hq ⊢
      exact hr hq
    · rw [update_of_ne hqp] at hq ⊢
      exact h q hq

theorem MarksSafe.of_schedules (ha : a.schedules = true) : k.MarksSafe a := by
  cases a <;> trivial

theorem freeUnmarked_effect (h : k.FreeUnmarked) (e : Effect b k a k') :
    k'.FreeUnmarked ↔ k.MarksSafe a := by
  cases e with
  | sched ha hs => exact iff_of_true (h.sched hs) (MarksSafe.of_schedules ha)
  | userinit hi hn hp =>
    refine iff_of_true ((freeUnmarked_update h rfl).mpr fun hu => ?_) trivial
    cases hu
  | claim hc hf hn hp =>
    refine iff_of_true ((freeUnmarked_update h rfl).mpr fun hu => ?_) trivial
    cases hu
  | @stack i c np page hc hf =>
    refine iff_of_true ((freeUnmarked_update h rfl).mpr ?_) trivial
    exact h np
  | @abandon _ i c np pgdir ha hi hc hf =>
    -- the mark of the embryo goes over to the free slot
    have hsafe : k.MarksSafe a ↔ ∀ c np, (k.cpu i).proc = some c →
        (k.frame c).forking = some np → (k.proc np).killed = false := by
      rcases ha with rfl | rfl
      · exact Iff.rfl
      · exact Iff.rfl
    rw [hsafe, freeUnmarked_update h rfl]
    constructor
    · intro hk c' np' hi' hf'
      cases hi.symm.trans hi'
      cases hf.symm.trans hf'
      exact hk rfl
    · intro hk _
      exact hk c np hi hf
  | @copy i c np pgdir hc hf =>
    refine iff_of_true ((freeUnmarked_update h rfl).mpr ?_) trivial
    exact h np
  | ready hc hf =>
    refine iff_of_true ((freeUnmarked_update h rfl).mpr fun hu => ?_) trivial
    cases hu
  | readyLost hc hf =>
    refine iff_of_true ((freeUnmarked_update h rfl).mpr fun hu => ?_) trivial
    cases hu
  | @exit i c k1 k' hc hf hi h1 h2 =>
    have h1' : k1.FreeUnmarked := by
      refine h.same fun q hq => ⟨?_, h1.reparented_killed q⟩
      rw [← ProcState.life_eq_free] at hq ⊢
      exact (h1.reparented_life q).symm.trans hq
    refine iff_of_true (FreeUnmarked.sched ?_ h2) trivial
    refine (freeUnmarked_update (p := c) h1' rfl).mpr fun hu => ?_
    cases hu
  | reap ha hs hc hpar hp =>
    refine iff_of_true ((freeUnmarked_update (h.sched hs) rfl).mpr fun _ => ?_)
      (MarksSafe.of_schedules ha)
    rfl
  | @kill i c p pid rq f hc hf hp hend =>
    -- the slot found is marked in any case, so it must not be free
    rw [freeUnmarked_update h rfl]
    constructor
    · intro hk q hq hu
      cases hp.symm.trans hq
      have hclear := hk (by simp only [hu, reduceCtorEq, if_false])
      cases hclear
    · intro hsafe hu
      refine absurd ?_ (hsafe p hp)
      by_contra hne
      simp only at hu
      split at hu
      · cases hu
      · exact hne hu
  | killMiss hc hf hp =>
    refine iff_of_true h fun q hq => ?_
    rw [hp] at hq
    cases hq
  | niceMiss hc hf hp => exact iff_of_true h trivial
  | niceFind hc hf hp hlo hhi => exact iff_of_true h trivial
  | @niceSet i c p priority hc hf =>
    refine iff_of_true ((freeUnmarked_update h rfl).mpr ?_) trivial
    exact h p
  | niceRemove hc hf => exact iff_of_true h trivial
  | niceAdd hc hf => exact iff_of_true h trivial
  | @fault i c hc =>
    refine iff_of_true ((freeUnmarked_update h rfl).mpr fun hu => ?_) trivial
    have hfree : k.life c = .free := ProcState.life_eq_free.mpr hu
    rw [hc] at hfree
    cases hfree

/-- **Who `kill` can mark, in both builds.**  In every reachable state `kill`
    of a pid meets `KillSpec` exactly if no free slot carries the pid.  Over a
    run, free slots and fresh children stay unmarked exactly if no `kill` finds
    a free slot and no `fork` fails on a child that was marked meanwhile. -/
theorem kill_marks_exact (b : Build) (acts : List Act) :
    Along (step b)
      (fun k => ∀ pid, k.KillSpec b pid ↔ ∀ p, k.pid p = pid → k.state p ≠ .UNUSED) boot acts ∧
    (Along (step b) (fun k => k.FreeUnmarked ∧ k.FreshUnmarked) boot acts ↔
      Meets (step b) MarksSafe boot acts) := by
  refine ⟨(sound_run b acts).mono fun k h pid => killSpec_iff h.pids, ?_⟩
  have hexact : Along (step b) FreeUnmarked boot acts ↔ Meets (step b) MarksSafe boot acts := by
    -- `Base` survives every step, safe or not
    refine along_iff_meets (I := Base) base_boot (fun _ _ => rfl) ?_ ?_
    · intro k a k' hbase _ _ hs
      exact hbase.step hs
    · intro k a k' hbase h hs
      exact freeUnmarked_effect h (hbase.effect_of_step hs)
  rw [← hexact]
  exact ⟨fun h => h.mono fun _ hk => hk.1, fun h => h.mono fun _ hk => ⟨hk, hk.fresh⟩⟩

/-- The first process calls `kill(0)`: a free slot carries that pid, is marked,
    and the next child is born killed. -/
theorem kill_zero_marks_free_slot :
    ∃ k, run (step .custom) boot [.userinit 1 2, .scheduler 0, .resume 0, .kill 0 0] = some k ∧
      ¬ k.KillSpec .custom 0 ∧ ¬ k.FreeUnmarked ∧ ¬ k.FreshUnmarked := by
  have hstate : ∃ k, run (step .custom) boot
      [.userinit 1 2, .scheduler 0, .resume 0, .kill 0 0] = some k ∧
      (∀ p, k.pid p = 0 → k.state p = .UNUSED) ∧ (k.kill .custom 0).2 = .ret 0 ∧
      k.firstUnused = some 1 ∧ k.state 1 = .UNUSED ∧ (k.proc 1).killed = true := by
    exact exists_run (by decide +kernel)
  obtain ⟨k, hrun, hfree, hret, hfirst, hunused, hkilled⟩ := hstate
  refine ⟨k, hrun, ?_, fun h => ?_, fun h => ?_⟩
  · rintro (⟨p, hp, hpid⟩ | hkill)
    · exact hp (hfree p hpid)
    · rw [hkill] at hret
      cases hret
  · rw [h 1 hunused] at hkilled
    cases hkilled
  · have hborn := h 1 hfirst
    simp only [allocproc, setProc, update_self] at hborn
    rw [hborn] at hkilled
    cases hkilled

end Kernel
end Xv6
