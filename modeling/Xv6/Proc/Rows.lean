/-
  Xv6.Proc.Rows

  What the operations of the priority build do to the queues, in terms of
  which process is queued at which level.
-/

import Xv6.Proc.Atomic

namespace Xv6
namespace Kernel

open Function List RunQueue

variable {l : Int} {q : Slot} {i : Nat}
variable {k k' : Kernel} {p c : Slot} {f : Proc → Proc}

/-! ## The view of a property of the queues -/

structure SameView (k k' : Kernel) : Prop where
  state : k'.state = k.state
  pid : k'.pid = k.pid
  priority : k'.priority = k.priority
  rq : k'.rq = k.rq
  nextpid : k'.nextpid = k.nextpid
  frame : k'.frame = k.frame

theorem SameView.trans {k'' : Kernel} (h1 : SameView k k') (h2 : SameView k' k'') :
    SameView k k'' where
  state := h2.state.trans h1.state
  pid := h2.pid.trans h1.pid
  priority := h2.priority.trans h1.priority
  rq := h2.rq.trans h1.rq
  nextpid := h2.nextpid.trans h1.nextpid
  frame := h2.frame.trans h1.frame

theorem SameView.setProc_both (hv : SameView k k') {g : Proc → Proc}
    (hstate : (g (k'.proc p)).state = (f (k.proc p)).state)
    (hpid : (g (k'.proc p)).pid = (f (k.proc p)).pid)
    (hprio : (g (k'.proc p)).priority = (f (k.proc p)).priority) :
    SameView (k.setProc p f) (k'.setProc p g) := by
  have hfield : ∀ {α : Type} (φ : Proc → α), φ (g (k'.proc p)) = φ (f (k.proc p)) →
      (∀ q, φ (k'.proc q) = φ (k.proc q)) →
      ∀ q, φ ((k'.setProc p g).proc q) = φ ((k.setProc p f).proc q) := by
    intro α φ hself hother q
    rw [setProc_proc, setProc_proc]
    by_cases hq : q = p
    · rw [if_pos hq, if_pos hq]
      exact hself
    · rw [if_neg hq, if_neg hq]
      exact hother q
  refine ⟨funext fun q => ?_, funext fun q => ?_, funext fun q => ?_, hv.rq, hv.nextpid, hv.frame⟩
  · exact hfield Proc.state hstate (congrFun hv.state) q
  · exact hfield Proc.pid hpid (congrFun hv.pid) q
  · exact hfield Proc.priority hprio (congrFun hv.priority) q

protected theorem SameView.refl (k : Kernel) : SameView k k := ⟨rfl, rfl, rfl, rfl, rfl, rfl⟩

theorem SameView.setProc (hstate : (f (k.proc p)).state = (k.proc p).state)
    (hpid : (f (k.proc p)).pid = (k.proc p).pid)
    (hprio : (f (k.proc p)).priority = (k.proc p).priority) : SameView k (k.setProc p f) := by
  have hboth := (SameView.refl k).setProc_both (f := id) (g := f) hstate hpid hprio
  simpa [Kernel.setProc] using hboth

theorem SameView.remove (hv : SameView k k') (p : Slot) (l : Int) :
    SameView (k.removeProcessFromQueue p l).1 (k'.removeProcessFromQueue p l).1 := by
  refine ⟨hv.state, hv.pid, hv.priority, ?_, hv.nextpid, hv.frame⟩
  show (k'.rq.remove k'.pid p l).1 = (k.rq.remove k.pid p l).1
  rw [hv.rq, hv.pid]

theorem SameView.enqueue (hv : SameView k k') (p : Slot) :
    SameView (k.enqueue .priority p).1 (k'.enqueue .priority p).1 := by
  refine ⟨hv.state, hv.pid, hv.priority, ?_, hv.nextpid, hv.frame⟩
  show (k'.rq.add k'.pid p (k'.priority p - 1)).1 = (k.rq.add k.pid p (k.priority p - 1)).1
  rw [hv.rq, hv.pid, hv.priority]

/-! ## The setting -/

/-- Pids, priorities and arrays are in order. -/
structure Tidy (k : Kernel) : Prop where
  pids : k.PidInv
  prios : k.PrioInv 5
  wf : k.rq.Wf

namespace Tidy

theorem view (h : k.Tidy) (hv : SameView k k') : k'.Tidy where
  pids := h.pids.same (congrFun hv.pid) (fun q hq => by rw [← hv.state]; exact hq) hv.nextpid
  prios := h.prios.same (congrFun hv.priority) (congrFun hv.pid)
    fun c => by rw [hv.frame]; exact h.prios.frames c
  wf := hv.rq ▸ h.wf

theorem unique (h : k.Tidy) (hp : k.state p ≠ .UNUSED) (q : Slot) (hq : k.pid q = k.pid p) :
    q = p :=
  h.pids.inj p q (h.pids.pos p hp) hq

theorem level (h : k.Tidy) (hp : k.state p ≠ .UNUSED) :
    0 ≤ k.priority p - 1 ∧ k.priority p - 1 < 5 := by
  have hlo := h.prios.pos p (h.pids.pos p hp)
  have hhi := (h.prios.range p).2
  omega

end Tidy

/-! ## Making a process runnable -/

section Wake

theorem used_of_wakes (h : k.state p = .EMBRYO ∨ k.state p = .SLEEPING ∨ k.state p = .RUNNING) :
    k.state p ≠ .UNUSED := by
  rcases h with h | h | h
  all_goals
    rw [h]
    decide

theorem makeRunnable_eq_add (k : Kernel) (p : Slot) :
    k.makeRunnable .priority p = ({ k with
          proc := update k.proc p { k.proc p with state := .RUNNABLE }
          rq := (k.rq.add k.pid p (k.priority p - 1)).1
          calls := (k.priority p - 1) :: k.calls },
        (k.rq.add k.pid p (k.priority p - 1)).2) := by
  have hpids : (k.setProc p fun r => { r with state := .RUNNABLE }).pid = k.pid :=
    funext fun q => setProc_kept k p q _ Proc.pid rfl
  simp only [makeRunnable, enqueue, addProcessToQueue, hpids, priority_setState]
  rfl

theorem state_makeRunnable (k : Kernel) (p q : Slot) :
    (k.makeRunnable .priority p).1.state q = if q = p then .RUNNABLE else k.state q :=
  state_setState k p q .RUNNABLE

theorem priority_makeRunnable (k : Kernel) (p q : Slot) :
    (k.makeRunnable .priority p).1.priority q = k.priority q :=
  priority_setState k p q .RUNNABLE

theorem mem_row_makeRunnable (h : k.Tidy) (hp : k.state p ≠ .UNUSED) (q : Slot) (l : Int) :
    q ∈ (k.makeRunnable .priority p).1.row l ↔ q ∈ k.row l ∨ (l = k.priority p - 1 ∧ q = p) := by
  rw [makeRunnable_eq_add]
  exact mem_row_add_unique (h.wf.marker_nonneg _) (h.unique hp)

theorem Tidy.makeRunnable (h : k.Tidy) (hp : k.state p ≠ .UNUSED) :
    (k.makeRunnable .priority p).1.Tidy := by
  rw [makeRunnable_eq_add]
  refine ⟨?_, ?_, h.wf.add _ _ _⟩
  · exact h.pids.update rfl le_rfl (.inr (.inl rfl)) fun _ => h.pids.pos p hp
  · exact h.prios.update rfl (h.prios.range p) (h.prios.pos p) h.prios.frames

end Wake

theorem sameView_allocStack (k : Kernel) (np : Slot) (page : Nat) :
    SameView k (k.allocStack np (some page)) := by
  show SameView k (k.setProc np fun r => { r with kstack := some page, context := .forkret })
  exact SameView.setProc rfl rfl rfl

theorem sameView_forkCopy (k : Kernel) (c np : Slot) (pgdir : Nat) :
    SameView k (k.forkCopy c np (some pgdir)) := by
  show SameView k (k.setProc np fun r => { r with
    pgdir := some pgdir, sz := (k.proc c).sz, parent := some c, name := (k.proc c).name })
  exact SameView.setProc rfl rfl rfl

theorem Tidy.allocproc (h : k.Tidy) (np : Slot) : (k.allocproc np).Tidy := by
  have hnp := h.pids.range np
  refine ⟨h.pids.update rfl ?_ (.inr (.inr ⟨rfl, ?_⟩)) fun _ => ?_,
    h.prios.update rfl ⟨?_, ?_⟩ (fun _ => ?_) h.prios.frames, h.wf⟩
  · show k.nextpid ≤ k.nextpid + 1
    omega
  · show k.nextpid < k.nextpid + 1
    omega
  · show k.nextpid ≠ 0
    omega
  · show (0 : Int) ≤ 3
    decide
  · show (3 : Int) ≤ 5
    decide
  · show (1 : Int) ≤ 3
    decide

/-! ## Single changes -/

theorem allocproc_proc (k : Kernel) (np : Slot) :
    (k.allocproc np).proc
      = (k.setProc np fun r => { r with state := .EMBRYO, pid := k.nextpid, priority := 3 }).proc :=
  rfl

theorem state_allocproc (k : Kernel) (np q : Slot) :
    (k.allocproc np).state q = if q = np then .EMBRYO else k.state q := by
  rw [state, allocproc_proc]
  exact setProc_field k np q _ Proc.state

theorem pid_allocproc (k : Kernel) (np q : Slot) :
    (k.allocproc np).pid q = if q = np then k.nextpid else k.pid q := by
  rw [pid, allocproc_proc]
  exact setProc_field k np q _ Proc.pid

theorem priority_allocproc (k : Kernel) (np q : Slot) :
    (k.allocproc np).priority q = if q = np then 3 else k.priority q := by
  rw [priority, allocproc_proc]
  exact setProc_field k np q _ Proc.priority

def freed (k : Kernel) (p : Slot) : Kernel :=
  ((k.setProc p fun r => { r with pid := 0, state := .UNUSED }).removeProcessFromQueue p
    (k.priority p - 1)).1

theorem freed_proc (k : Kernel) (p : Slot) :
    (k.freed p).proc = (k.setProc p fun r => { r with pid := 0, state := .UNUSED }).proc := rfl

theorem state_freed (k : Kernel) (p q : Slot) :
    (k.freed p).state q = if q = p then .UNUSED else k.state q := by
  rw [state, freed_proc]
  exact setProc_field k p q _ Proc.state

theorem priority_freed (k : Kernel) (p q : Slot) : (k.freed p).priority q = k.priority q := by
  rw [priority, freed_proc]
  exact setProc_kept k p q _ Proc.priority rfl

theorem row_freed (k : Kernel) (p : Slot) (l : Int) :
    (k.freed p).row l = (k.rq.remove (update k.pid p 0) p (k.priority p - 1)).1.row l := by
  have hpids : (k.setProc p fun r => { r with pid := 0, state := .UNUSED }).pid
      = update k.pid p 0 := by
    funext q
    rw [update_apply]
    exact setProc_field k p q _ Proc.pid
  show ((k.setProc p fun r => { r with pid := 0, state := .UNUSED }).rq.remove
    (k.setProc p fun r => { r with pid := 0, state := .UNUSED }).pid p (k.priority p - 1)).1.row l = _
  rw [hpids]
  rfl

theorem mem_row_of_freed (h : q ∈ (k.freed p).row l) : q ∈ k.row l := by
  rw [row_freed] at h
  exact mem_row_of_remove h

theorem mem_row_freed (h : q ∈ k.row l) (hne : q ≠ p) (hpid : k.pid q ≠ 0) :
    q ∈ (k.freed p).row l := by
  rw [row_freed]
  refine mem_row_remove_of_pid_ne h ?_
  rw [update_self, update_of_ne hne]
  exact hpid

theorem not_mem_row_freed (hwf : k.rq.Wf)
    (hothers : ∀ q ∈ k.row (k.priority p - 1), q ≠ p → k.pid q ≠ 0) :
    p ∉ (k.freed p).row (k.priority p - 1) := by
  rw [row_freed]
  -- the search is for pid 0, and the reaped slot is the only entry with it
  refine not_mem_row_remove hwf fun e he hpid => ?_
  by_contra hne
  rw [update_self, update_of_ne hne] at hpid
  exact hothers e he hne hpid

/-! ## `nice` -/

theorem niceTail_proc (k : Kernel) (p : Slot) (v : Int) :
    (k.niceTail p v).proc = (k.setProc p fun r => { r with priority := v }).proc := rfl

theorem state_niceTail (k : Kernel) (p q : Slot) (v : Int) :
    (k.niceTail p v).state q = k.state q := by
  rw [state, niceTail_proc]
  exact setProc_kept k p q _ Proc.state rfl

theorem priority_niceTail (k : Kernel) (p q : Slot) (v : Int) :
    (k.niceTail p v).priority q = if q = p then v else k.priority q := by
  rw [priority, niceTail_proc]
  exact setProc_field k p q _ Proc.priority

theorem rq_niceTail (k : Kernel) (p : Slot) (v : Int) :
    (k.niceTail p v).rq = ((k.rq.remove k.pid p (k.priority p)).1.add k.pid p v).1 := by
  have hpids : (k.niceSet p v).pid = k.pid :=
    funext fun q => setProc_kept k p q _ Proc.pid rfl
  show (((k.niceSet p v).rq.remove (k.niceSet p v).pid p (k.priority p)).1.add
    (k.niceSet p v).pid p v).1 = _
  rw [hpids]
  rfl

theorem mem_row_of_niceTail (hwf : k.rq.Wf) {v l : Int}
    (h : q ∈ (k.niceTail p v).row l) : q ∈ k.row l ∨ (l = v ∧ q = p) := by
  rw [row, rq_niceTail, mem_row_add ((hwf.remove _ _ _).marker_nonneg _)] at h
  rcases h with h | ⟨hl, hq, -⟩
  · exact .inl (mem_row_of_remove h)
  · exact .inr ⟨hl, hq⟩

theorem mem_row_niceTail_of_pid_ne (hwf : k.rq.Wf) {v l : Int} (h : q ∈ k.row l)
    (hpid : k.pid q ≠ k.pid p) : q ∈ (k.niceTail p v).row l := by
  rw [row, rq_niceTail, mem_row_add ((hwf.remove _ _ _).marker_nonneg _)]
  exact .inl (mem_row_remove_of_pid_ne h hpid)

theorem mem_row_niceTail (h : k.Tidy) (hp : k.state p ≠ .UNUSED) {v l : Int} :
    q ∈ (k.niceTail p v).row l ↔
      (q ∈ k.row l ∧ ¬ (l = k.priority p ∧ q = p)) ∨ (l = v ∧ q = p) := by
  have hu := h.unique hp
  rw [row, rq_niceTail, mem_row_add_unique ((h.wf.remove _ _ _).marker_nonneg _) hu,
    mem_row_remove_unique h.wf hu]

/-! ## One iteration of the priority scheduler -/

/-- What the scheduler finds and leaves: it takes the first entry of the first
    level that has one and switches to it if it is `RUNNABLE`; if all levels
    are empty it may switch to the process of an earlier iteration. -/
inductive SchedEnd (k : Kernel) (i : Nat) (m : Kernel) : Prop
  | pop {l : Int} {p : Slot} {rest : List Slot} (hlo : 0 ≤ l) (hhi : l < 5)
      (hrow : k.row l = p :: rest) (hfirst : ∀ l', 0 ≤ l' → l' < l → k.row l' = [])
      (hrest : m.row l = rest) (hother : ∀ l', l' ≠ l → m.row l' = k.row l')
      (hprio : ∀ q, m.priority q = k.priority q)
      (hstate : ∀ q, m.state q = if q = p ∧ k.state p = .RUNNABLE then .RUNNING else k.state q)
      (hchoice : ∀ q, (k.pop i).choice i = some q → q = p ∧ k.state p = .RUNNABLE) :
      SchedEnd k i m
  | empty (hnone : ∀ l, 0 ≤ l → l < 5 → k.row l = []) (hrow : ∀ l, m.row l = k.row l)
      (hprio : ∀ q, m.priority q = k.priority q)
      (hstate : m.state = k.state ∨
        ∃ p, k.state p = .RUNNABLE ∧ ∀ q, m.state q = if q = p then .RUNNING else k.state q)
      (hchoice : ∀ q, (k.pop i).choice i = some q → k.state q = .RUNNABLE) : SchedEnd k i m

theorem exists_head (hwf : k.rq.Wf) (h : 0 < k.rq.marker l) :
    ∃ p rest, k.rq.priorityQ l 0 = some p ∧ k.row l = p :: rest := by
  obtain ⟨n, hn⟩ : ∃ n, (k.rq.marker l).toNat = n + 1 := ⟨(k.rq.marker l).toNat - 1, by omega⟩
  have hcells : ArrayPrefix.cellsTo (k.rq.priorityQ l) (k.rq.marker l)
      = k.rq.priorityQ l 0 :: (List.range n).map fun i : Nat => k.rq.priorityQ l ↑(i + 1) := by
    rw [ArrayPrefix.cellsTo, hn, range_succ_eq_map, map_cons, map_map]
    rfl
  -- the first cell lies below the mark and is therefore no null pointer
  have hentries := hwf.entries l
  rw [hcells] at hentries
  show ∃ p rest, _ ∧ (ArrayPrefix.cellsTo (k.rq.priorityQ l) (k.rq.marker l)).filterMap id = _
  rw [hcells]
  cases hx : k.rq.priorityQ l 0 with
  | none =>
    rw [hx] at hentries
    exact absurd mem_cons_self hentries
  | some p => exact ⟨p, _, rfl, rfl⟩

theorem firstLevel_spec (h : k.firstLevel = some l) :
    (0 ≤ l ∧ l < 5) ∧ 0 < k.rq.marker l ∧ ∀ l', 0 ≤ l' → l' < l → k.row l' = [] := by
  obtain ⟨hl, before, after, hsplit, hbefore⟩ := List.find?_eq_some_iff_append.mp h
  have hrange : 0 ≤ l ∧ l < 5 := firstLevel_range h
  have hsorted : levels.Pairwise (· < ·) := by decide
  rw [hsplit, pairwise_append] at hsorted
  refine ⟨hrange, by simpa using hl, fun l' hlo hlt => ?_⟩
  have hl' : l' ∈ levels := mem_levels.mpr ⟨hlo, by omega⟩
  rw [hsplit, mem_append, mem_cons] at hl'
  rcases hl' with hin | rfl | hin
  · have := hbefore l' hin
    simp only [Bool.not_eq_eq_eq_not, Bool.not_true, decide_eq_false_iff_not] at this
    exact row_eq_nil (by omega)
  · omega
  · -- the levels behind `l` are larger
    have := (pairwise_cons.mp hsorted.2.1).1 l' hin
    omega

theorem firstLevel_eq_none (h : k.firstLevel = none) (hlo : 0 ≤ l) (hhi : l < 5) :
    k.row l = [] := by
  have hnot := List.find?_eq_none.mp h l (mem_levels.mpr ⟨hlo, hhi⟩)
  simp only [decide_eq_true_eq] at hnot
  exact row_eq_nil (by omega)

theorem pop_of_head (hf : k.firstLevel = some l) (hq : k.rq.priorityQ l 0 = some p) :
    k.pop i = ((k.setCpu i { k.cpu i with p := some p }).removeProcessFromQueue p l).1 := by
  simp only [pop, hf, hq]

theorem scheduler_of_choice (h : (k.pop i).choice i = some p) :
    k.scheduler .priority i = (k.pop i).dispatch i p := by
  simp only [scheduler, h]

theorem scheduler_of_no_choice (h : (k.pop i).choice i = none) :
    k.scheduler .priority i = k.pop i := by
  simp only [scheduler, h]

theorem SchedEnd.of_head {rest : List Slot} (hf : k.firstLevel = some l)
    (hq : k.rq.priorityQ l 0 = some p) (hrow : k.row l = p :: rest) :
    SchedEnd k i (k.scheduler .priority i) := by
  obtain ⟨⟨hlo, hhi⟩, -, hfirst⟩ := firstLevel_spec hf
  have hpop := pop_of_head (i := i) hf hq
  -- the pid searched for is that of the head, so the head goes
  have hrest : (k.pop i).row l = rest := by
    rw [hpop]
    show (k.rq.remove k.pid p l).1.row l = rest
    rw [row_remove_self, show k.rq.row l = p :: rest from hrow]
    exact eraseP_cons_of_pos (by simp)
  have hother : ∀ l', l' ≠ l → (k.pop i).row l' = k.row l' := by
    intro l' hne
    rw [hpop]
    exact row_remove_of_ne hne
  have hstate : (k.pop i).state = k.state := by rw [hpop]; rfl
  have hprio : (k.pop i).priority = k.priority := by rw [hpop]; rfl
  have hchoice : (k.pop i).choice i = if k.state p = .RUNNABLE then some p else none := by
    have hcpu : ((k.pop i).cpu i).p = some p := by
      rw [hpop]
      simp [removeProcessFromQueue, setCpu]
    rw [choice, hcpu, hstate]
    by_cases hr : k.state p = .RUNNABLE
    · simp [hr]
    · simp [hr]
  by_cases hr : k.state p = .RUNNABLE
  · -- the popped process is switched to
    rw [if_pos hr] at hchoice
    rw [scheduler_of_choice hchoice]
    refine .pop hlo hhi hrow hfirst hrest hother (fun q => ?_) (fun q => ?_) (fun q hq' => ?_)
    · rw [priority_dispatch, hprio]
    · rw [state_dispatch, hstate]
      simp only [hr, and_true]
    · rw [hchoice] at hq'
      exact ⟨(Option.some.inj hq').symm, hr⟩
  · -- the popped entry is dropped
    rw [if_neg hr] at hchoice
    rw [scheduler_of_no_choice hchoice]
    refine .pop hlo hhi hrow hfirst hrest hother (congrFun hprio) (fun q => ?_) (fun q hq' => ?_)
    · rw [hstate, if_neg fun h => hr h.2]
    · rw [hchoice] at hq'
      cases hq'

theorem SchedEnd.of_empty (hf : k.firstLevel = none) : SchedEnd k i (k.scheduler .priority i) := by
  have hpop : k.pop i = k := by simp only [Kernel.pop, hf]
  have hchoice : ∀ q, (k.pop i).choice i = some q → k.state q = .RUNNABLE := by
    intro q hq
    rw [hpop] at hq
    exact choice_state hq
  have hnone : ∀ l, 0 ≤ l → l < 5 → k.row l = [] := fun l => firstLevel_eq_none hf
  cases hc : (k.pop i).choice i with
  | none =>
    rw [scheduler_of_no_choice hc, hpop]
    exact .empty hnone (fun _ => rfl) (fun _ => rfl) (.inl rfl) hchoice
  | some p =>
    -- left over from an earlier iteration, and runnable again
    rw [scheduler_of_choice hc, hpop]
    refine .empty hnone (fun _ => rfl) (fun q => priority_dispatch k p q i) (.inr ?_) hchoice
    exact ⟨p, hchoice p hc, fun q => state_dispatch k p q i⟩

theorem SchedEnd.scheduler (hwf : k.rq.Wf) (i : Nat) : SchedEnd k i (k.scheduler .priority i) := by
  cases hf : k.firstLevel with
  | none => exact .of_empty hf
  | some l =>
    obtain ⟨p, rest, hq, hrow⟩ := exists_head hwf (firstLevel_spec hf).2.1
    exact .of_head hf hq hrow

end Kernel
end Xv6
