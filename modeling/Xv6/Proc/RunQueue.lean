/-
  Xv6.Proc.RunQueue

  `priority_q`, `marker`, `add_process_to_queue` and
  `remove_process_from_queue` (proc.c:15-57).

  The code never checks the level it is given: a level outside
  `0 .. PLEVELS-1` names the memory next to the arrays, which the model takes as
  further rows.  `row` is the abstract view of a level, the list of the queued
  processes.
-/

import Mathlib.Data.List.ReduceOption
import Xv6.Lib.ArrayPrefix
import Xv6.Lib.Transition
import Xv6.Proc.Basic

namespace Xv6

open Function List ArrayPrefix Transition

/-- `struct node priority_q[PLEVELS][NPROC]` (its `p` fields; `none` is the
    null pointer) and `int marker[PLEVELS]`. -/
structure RunQueue where
  priorityQ : Int → Int → Option Slot
  marker : Int → Int

namespace RunQueue

variable {q : RunQueue} {pr l : Int} {e p : Slot} {pid : Slot → Int}

def empty : RunQueue where
  priorityQ := fun _ _ => none
  marker := fun _ => 0

/-- `priority_q[pr][i].p->pid == key`; a null entry matches nothing. -/
def hasPid (pid : Slot → Int) (key : Int) : Option Slot → Bool
  | some e => decide (pid e = key)
  | none => false

def add (pid : Slot → Int) (q : RunQueue) (p : Slot) (pr : Int) : RunQueue × Int :=
  match findBelow (hasPid pid (pid p)) (q.priorityQ pr) (q.marker pr) with
  | some _ => (q, -1)
  | none =>
    -- no check that `marker[pr]` is below `NPROC`
    ({ priorityQ := update q.priorityQ pr
         (update (q.priorityQ pr) (q.marker pr) (some p))
       marker := update q.marker pr (q.marker pr + 1) }, 1)

def remove (pid : Slot → Int) (q : RunQueue) (p : Slot) (pr : Int) : RunQueue × Int :=
  match findBelow (hasPid pid (pid p)) (q.priorityQ pr) (q.marker pr) with
  | none => (q, -1)
  | some i =>
    ({ priorityQ := update q.priorityQ pr
         (shiftDown (q.priorityQ pr) i (q.marker pr))
       marker := update q.marker pr (q.marker pr - 1) }, 1)

/-- The processes queued at a level, first to run first. -/
def row (q : RunQueue) (pr : Int) : List Slot :=
  (cellsTo (q.priorityQ pr) (q.marker pr)).filterMap id

structure Wf (q : RunQueue) : Prop where
  marker_nonneg : ∀ pr, 0 ≤ q.marker pr
  entries : ∀ pr, none ∉ cellsTo (q.priorityQ pr) (q.marker pr)
  nodup : ∀ pr, (q.row pr).Nodup

/-! ## The search loop -/

theorem mem_row : e ∈ q.row pr ↔ some e ∈ cellsTo (q.priorityQ pr) (q.marker pr) := by
  simp [row]

theorem row_eq_nil (h : q.marker pr ≤ 0) : q.row pr = [] := by
  have hlen : cellsTo (q.priorityQ pr) (q.marker pr) = [] := by
    rw [← length_eq_zero_iff, length_cellsTo]
    omega
  rw [row, hlen]
  rfl

/-- The search loop shared by both operations comes to its end exactly when no
    queued process carries the pid. -/
theorem search_eq_none {key : Int} : findBelow (hasPid pid key) (q.priorityQ pr)
    (q.marker pr) = none ↔ ∀ e ∈ q.row pr, pid e ≠ key := by
  rw [findBelow_eq, List.findIdx?_eq_none_iff]
  constructor
  · intro h e he
    have := h (some e) (mem_row.mp he)
    simpa [hasPid] using this
  · intro h c hc
    cases c with
    | none => rfl
    | some e => simpa [hasPid] using h e (mem_row.mpr hc)

/-! ## `add_process_to_queue` -/

theorem add_of_queued (he : e ∈ q.row pr) (hpid : pid e = pid p) : add pid q p pr = (q, -1) := by
  unfold add
  cases hs : findBelow (hasPid pid (pid p)) (q.priorityQ pr) (q.marker pr) with
  | some i => rfl
  | none => exact absurd hpid (search_eq_none.mp hs e he)

theorem row_add_append (hm : 0 ≤ q.marker pr) (h : ∀ e ∈ q.row pr, pid e ≠ pid p) :
    (add pid q p pr).2 = 1 ∧ (add pid q p pr).1.row pr = q.row pr ++ [p] := by
  unfold add
  rw [search_eq_none.mpr h]
  refine ⟨rfl, ?_⟩
  simp only [row, update_self]
  rw [cellsTo_push _ hm, filterMap_append]
  rfl

theorem marker_add (h : ∀ e ∈ q.row pr, pid e ≠ pid p) :
    (add pid q p pr).1.marker pr = q.marker pr + 1 := by
  unfold add
  rw [search_eq_none.mpr h]
  simp only [update_self]

theorem row_add_of_ne (h : l ≠ pr) : (add pid q p pr).1.row l = q.row l := by
  unfold add
  cases findBelow (hasPid pid (pid p)) (q.priorityQ pr) (q.marker pr) with
  | some i => rfl
  | none => simp only [row, update_of_ne h]

theorem exists_row_add (pid : Slot → Int) (p : Slot)
    (hm : 0 ≤ q.marker pr) (l : Int) : ∃ new, (add pid q p pr).1.row l = q.row l ++ new := by
  by_cases hl : l = pr
  · subst hl
    by_cases hq : ∃ e ∈ q.row l, pid e = pid p
    · obtain ⟨e, he, hpid⟩ := hq
      rw [add_of_queued he hpid]
      exact ⟨[], (append_nil _).symm⟩
    · exact ⟨[p], (row_add_append hm fun e he hpid => hq ⟨e, he, hpid⟩).2⟩
  · rw [row_add_of_ne hl]
    exact ⟨[], (append_nil _).symm⟩

theorem add_eq_neg_one : (add pid q p pr).2 = -1 ↔ ∃ e ∈ q.row pr, pid e = pid p := by
  constructor
  · intro h
    by_contra hno
    push Not at hno
    unfold add at h
    rw [search_eq_none.mpr hno] at h
    simp at h
  · rintro ⟨e, he, hpid⟩
    rw [add_of_queued he hpid]

theorem mem_row_add (hm : 0 ≤ q.marker pr) : e ∈ (add pid q p pr).1.row l ↔
      e ∈ q.row l ∨ (l = pr ∧ e = p ∧ ∀ e' ∈ q.row pr, pid e' ≠ pid p) := by
  by_cases hl : l = pr
  · subst hl
    by_cases hq : ∀ e' ∈ q.row l, pid e' ≠ pid p
    · rw [(row_add_append hm hq).2]
      simp only [mem_append, mem_singleton, true_and]
      constructor
      · rintro (h | h)
        · exact .inl h
        · exact .inr ⟨h, hq⟩
      · rintro (h | h)
        · exact .inl h
        · exact .inr h.1
    · -- some entry carries the pid already: the call returns early
      have hex := hq
      push Not at hex
      obtain ⟨e', he', hpid⟩ := hex
      rw [add_of_queued he' hpid]
      exact ⟨.inl, fun h => h.resolve_right fun h' => hq h'.2.2⟩
  · rw [row_add_of_ne hl]
    exact ⟨.inl, fun h => h.resolve_right fun h' => hl h'.1⟩

/-! ## `remove_process_from_queue` -/

theorem row_remove_self :
    (remove pid q p pr).1.row pr = (q.row pr).eraseP fun e => decide (pid e = pid p) := by
  -- erasing commutes with dropping the null entries, which match nothing
  have herase : (q.row pr).eraseP (fun e => decide (pid e = pid p))
      = ((cellsTo (q.priorityQ pr) (q.marker pr)).eraseP (hasPid pid (pid p))).filterMap id := by
    rw [row, eraseP_filterMap]
    congr 2
    funext c
    cases c <;> rfl
  rw [herase]
  unfold remove
  cases hs : findBelow (hasPid pid (pid p)) (q.priorityQ pr) (q.marker pr) with
  | none =>
    rw [findBelow_eq] at hs
    rw [eraseP_eq_eraseIdx, hs]
    rfl
  | some i =>
    simp only [row, update_self]
    rw [cellsTo_removeFirst _ _ hs]

theorem row_remove_of_ne (h : l ≠ pr) : (remove pid q p pr).1.row l = q.row l := by
  unfold remove
  cases findBelow (hasPid pid (pid p)) (q.priorityQ pr) (q.marker pr) with
  | none => rfl
  | some i => simp only [row, update_of_ne h]

theorem mem_row_of_remove (h : e ∈ (remove pid q p pr).1.row l) : e ∈ q.row l := by
  by_cases hl : l = pr
  · subst hl
    rw [row_remove_self] at h
    exact mem_of_mem_eraseP h
  · rwa [row_remove_of_ne hl] at h

theorem mem_row_remove_of_pid_ne
    (he : e ∈ q.row l) (hpid : pid e ≠ pid p) : e ∈ (remove pid q p pr).1.row l := by
  by_cases hl : l = pr
  · subst hl
    rw [row_remove_self, mem_eraseP_of_neg (by simpa using hpid)]
    exact he
  · rwa [row_remove_of_ne hl]

theorem exists_row_remove
    {before after : List Slot} (hrow : q.row l = before ++ e :: after) (hpid : pid e ≠ pid p) :
    ∃ before' after', (remove pid q p pr).1.row l = before' ++ e :: after' ∧ before' ⊆ before := by
  by_cases hl : l = pr
  · subst hl
    have he : decide (pid e = pid p) = false := decide_eq_false hpid
    rw [row_remove_self, hrow, eraseP_append]
    split
    · exact ⟨_, after, rfl, eraseP_subset⟩
    · rw [eraseP_cons, he]
      exact ⟨before, _, rfl, List.Subset.refl before⟩
  · rw [row_remove_of_ne hl]
    exact ⟨before, after, hrow, List.Subset.refl before⟩

/-! ## Well-formedness -/

theorem wf_empty : empty.Wf where
  marker_nonneg := fun _ => le_refl 0
  entries := fun _ => by simp [empty, cellsTo]
  nodup := fun _ => by simp [empty, row, cellsTo]

theorem Wf.add (h : q.Wf) (pid : Slot → Int) (p : Slot) (pr : Int) : (add pid q p pr).1.Wf := by
  by_cases hq : ∀ e ∈ q.row pr, pid e ≠ pid p
  · have hm := h.marker_nonneg pr
    have hrow := (row_add_append hm hq).2
    unfold RunQueue.add at hrow ⊢
    rw [search_eq_none.mpr hq] at hrow ⊢
    refine ⟨fun l => ?_, fun l => ?_, fun l => ?_⟩
    · by_cases hl : l = pr
      · subst hl
        simp only [update_self]
        omega
      · simp only [update_of_ne hl]
        exact h.marker_nonneg l
    · by_cases hl : l = pr
      · subst hl
        simp only [update_self]
        rw [cellsTo_push _ hm]
        simpa using h.entries l
      · simp only [update_of_ne hl]
        exact h.entries l
    · by_cases hl : l = pr
      · -- a second entry of `p` would carry the pid of `p`
        subst hl
        rw [hrow, nodup_append]
        refine ⟨h.nodup l, nodup_singleton p, ?_⟩
        rintro e he _ hp rfl
        exact hq e he (by rw [mem_singleton.mp hp])
      · simp only [row, update_of_ne hl]
        exact h.nodup l
  · push Not at hq
    obtain ⟨e, he, hpid⟩ := hq
    rw [add_of_queued he hpid]
    exact h

theorem Wf.remove (h : q.Wf) (pid : Slot → Int) (p : Slot) (pr : Int) :
    (remove pid q p pr).1.Wf := by
  have hnodup : ∀ l, ((RunQueue.remove pid q p pr).1.row l).Nodup := by
    intro l
    by_cases hl : l = pr
    · subst hl
      rw [row_remove_self]
      exact (h.nodup l).eraseP _
    · rw [row_remove_of_ne hl]
      exact h.nodup l
  unfold RunQueue.remove at hnodup ⊢
  cases hs : findBelow (hasPid pid (pid p)) (q.priorityQ pr) (q.marker pr) with
  | none => exact h
  | some i =>
    rw [hs] at hnodup
    refine ⟨fun l => ?_, fun l => ?_, hnodup⟩
    · by_cases hl : l = pr
      · subst hl
        -- the search only stops below the mark, so the mark is positive
        have hlt : i < (cellsTo (q.priorityQ l) (q.marker l)).length := by
          rw [findBelow_eq] at hs
          exact (List.findIdx?_eq_some_iff_getElem.mp hs).1
        rw [length_cellsTo] at hlt
        simp only [update_self]
        omega
      · simp only [update_of_ne hl]
        exact h.marker_nonneg l
    · by_cases hl : l = pr
      · subst hl
        simp only [update_self]
        rw [cellsTo_removeFirst _ _ hs]
        exact fun hmem => h.entries l (mem_of_mem_eraseP hmem)
      · simp only [update_of_ne hl]
        exact h.entries l

theorem not_mem_row_remove (hw : q.Wf)
    (hu : ∀ e ∈ q.row pr, pid e = pid p → e = p) : p ∉ (RunQueue.remove pid q p pr).1.row pr := by
  intro hmem
  have hin : p ∈ q.row pr := mem_row_of_remove hmem
  obtain ⟨e, before, after, -, he, hsplit, herase⟩ :=
    exists_of_eraseP (p := fun e => decide (pid e = pid p)) hin (by simp)
  -- the entry that goes is the first with the pid, hence that of `p`
  have hep : e = p := hu e (by rw [hsplit]; simp) (of_decide_eq_true he)
  subst hep
  rw [row_remove_self, herase] at hmem
  have hnodup := hw.nodup pr
  rw [hsplit] at hnodup
  exact (nodup_middle.mp hnodup).notMem hmem

section Unique

variable {pid : Slot → Int} {q : RunQueue} {p e : Slot} {pr l : Int}

theorem mem_row_add_unique (hm : 0 ≤ q.marker pr) (hu : ∀ e, pid e = pid p → e = p) :
    e ∈ (add pid q p pr).1.row l ↔ e ∈ q.row l ∨ (l = pr ∧ e = p) := by
  rw [mem_row_add hm]
  constructor
  · rintro (h | ⟨hl, he, -⟩)
    · exact .inl h
    · exact .inr ⟨hl, he⟩
  · rintro (h | ⟨rfl, rfl⟩)
    · exact .inl h
    · by_cases hq : e ∈ q.row l
      · exact .inl hq
      · refine .inr ⟨rfl, rfl, fun e' he' hpid => hq ?_⟩
        rw [← hu e' hpid]
        exact he'

theorem mem_row_remove_unique (hw : q.Wf) (hu : ∀ e, pid e = pid p → e = p) :
    e ∈ (remove pid q p pr).1.row l ↔ e ∈ q.row l ∧ ¬ (l = pr ∧ e = p) := by
  constructor
  · intro h
    refine ⟨mem_row_of_remove h, ?_⟩
    rintro ⟨rfl, rfl⟩
    exact not_mem_row_remove hw (fun e' _ => hu e') h
  · rintro ⟨h, hnot⟩
    by_cases hl : l = pr
    · exact mem_row_remove_of_pid_ne h fun hpid => hnot ⟨hl, hu e hpid⟩
    · rwa [row_remove_of_ne hl]

end Unique

/-! ## Sequences of calls -/

/-- A call of one of the two functions, with the pids the slots carry at the time. -/
inductive QueueCall
  | add (pid : Slot → Int) (p : Slot) (pr : Int)
  | remove (pid : Slot → Int) (p : Slot) (pr : Int)

def QueueCall.level : QueueCall → Int
  | .add _ _ pr => pr
  | .remove _ _ pr => pr

/-- One call, at a level of the table. -/
def call (q : RunQueue) (c : QueueCall) : Option RunQueue :=
  if 0 ≤ c.level ∧ c.level < PLEVELS then
    match c with
    | .add pid p pr => some (add pid q p pr).1
    | .remove pid p pr => some (remove pid q p pr).1
  else none

theorem Wf.call {q' : RunQueue} {c : QueueCall} (h : q.Wf) (hc : call q c = some q') : q'.Wf := by
  unfold RunQueue.call at hc
  split at hc
  · cases c with
    | add pid p pr =>
      cases hc
      exact h.add pid p pr
    | remove pid p pr =>
      cases hc
      exact h.remove pid p pr
  · cases hc

/-- What a call does to the lists of queued processes. -/
def QueueCall.onRows (rows : Int → List Slot) : QueueCall → Int → List Slot
  | .add pid p pr =>
    if (rows pr).any (pid · = pid p) then rows else update rows pr (rows pr ++ [p])
  | .remove pid p pr =>
    update rows pr ((rows pr).eraseP (pid · = pid p))

theorem Wf.row_add (h : q.Wf) (pid : Slot → Int) (p : Slot) (pr : Int) :
    (RunQueue.add pid q p pr).1.row = (QueueCall.add pid p pr).onRows q.row := by
  rw [QueueCall.onRows]
  by_cases hq : (q.row pr).any (pid · = pid p)
  · obtain ⟨e, he, hpid⟩ := any_eq_true.mp hq
    rw [if_pos hq, add_of_queued he (of_decide_eq_true hpid)]
  · rw [if_neg hq]
    have hno : ∀ e ∈ q.row pr, pid e ≠ pid p := fun e he hpid =>
      hq (any_eq_true.mpr ⟨e, he, decide_eq_true hpid⟩)
    funext l
    by_cases hl : l = pr
    · rw [hl, update_self, (row_add_append (h.marker_nonneg pr) hno).2]
    · rw [update_of_ne hl, row_add_of_ne hl]

theorem row_remove (pid : Slot → Int) (p : Slot) (pr : Int) :
    (RunQueue.remove pid q p pr).1.row = (QueueCall.remove pid p pr).onRows q.row := by
  funext l
  rw [QueueCall.onRows]
  by_cases hl : l = pr
  · rw [hl, update_self, row_remove_self]
  · rw [update_of_ne hl, row_remove_of_ne hl]

/-- The run lemma: call after call, as long as the levels are those of the table. -/
theorem rows_run (h : q.Wf) (calls : List QueueCall) : (run call q calls).map row =
    if ∀ c ∈ calls, 0 ≤ c.level ∧ c.level < PLEVELS then
      some (calls.foldl QueueCall.onRows q.row) else none := by
  induction calls generalizing q with
  | nil => simp [run]
  | cons c calls ih =>
    simp only [run, forall_mem_cons, foldl_cons]
    by_cases hc : 0 ≤ c.level ∧ c.level < PLEVELS
    · cases c with
      | add pid p pr =>
        have hcall : call q (.add pid p pr) = some (RunQueue.add pid q p pr).1 := if_pos hc
        rw [hcall, Option.bind_some, ih (h.call hcall), h.row_add pid p pr]
        simp only [hc, true_and]
      | remove pid p pr =>
        have hcall : call q (.remove pid p pr) = some (RunQueue.remove pid q p pr).1 := if_pos hc
        rw [hcall, Option.bind_some, ih (h.call hcall), row_remove pid p pr]
        simp only [hc, true_and]
    · have hcall : call q c = none := if_neg hc
      rw [hcall, if_neg fun hall => hc hall.1]
      rfl

theorem Wf.length_row (h : q.Wf) (pr : Int) : ((q.row pr).length : Int) = q.marker pr := by
  have hsome : ∀ c ∈ cellsTo (q.priorityQ pr) (q.marker pr), c.isSome := by
    intro c hc
    cases c with
    | none => exact absurd hc (h.entries pr)
    | some e => rfl
  have hlen : (q.row pr).length = (cellsTo (q.priorityQ pr) (q.marker pr)).length :=
    reduceOption_length_eq_iff.mpr hsome
  rw [hlen, length_cellsTo, Int.toNat_of_nonneg (h.marker_nonneg pr)]

theorem Wf.marker_le (h : q.Wf) (pr : Int) : q.marker pr ≤ NPROC := by
  have hcard := (h.nodup pr).length_le_card
  rw [Fintype.card_fin] at hcard
  rw [← h.length_row pr]
  exact_mod_cast hcard

theorem remove_split (h : (remove pid q p pr).2 = 1) :
    ∃ before e after, q.row pr = before ++ e :: after ∧ pid e = pid p ∧
      (remove pid q p pr).1.row pr = before ++ after := by
  have hmem : ∃ e ∈ q.row pr, pid e = pid p := by
    by_contra hno
    push Not at hno
    unfold remove at h
    rw [search_eq_none.mpr hno] at h
    cases h
  obtain ⟨e, he, hpid⟩ := hmem
  obtain ⟨e', before, after, -, he', hsplit, herase⟩ :=
    exists_of_eraseP (p := fun e => decide (pid e = pid p)) he (decide_eq_true hpid)
  refine ⟨before, e', after, hsplit, of_decide_eq_true he', ?_⟩
  rw [row_remove_self, herase]

/-- **The queues never overflow.**  After any calls of the two functions, with any pids at each
    call, a level holds distinct slots, so that an append finds a cell of the row and a removal
    takes out one entry. -/
theorem queues_in_bounds {q : RunQueue} (h : Reachable call empty q) (pr : Int) :
    (q.row pr).Nodup ∧ ((q.row pr).length : Int) = q.marker pr ∧
      0 ≤ q.marker pr ∧ q.marker pr ≤ NPROC ∧
      (∀ pid p, (add pid q p pr).2 = 1 → q.marker pr < NPROC ∧
        (add pid q p pr).1.row pr = q.row pr ++ [p]) ∧
      ∀ pid p, (remove pid q p pr).2 = 1 → ∃ before e after, q.row pr = before ++ e :: after ∧
        pid e = pid p ∧ (remove pid q p pr).1.row pr = before ++ after := by
  have hwf : q.Wf := h.invariant wf_empty fun _ _ _ hq hs => hq.call hs
  refine ⟨hwf.nodup pr, hwf.length_row pr, hwf.marker_nonneg pr, hwf.marker_le pr,
    fun pid p hadd => ?_, fun pid p => remove_split⟩
  have hno : ∀ e ∈ q.row pr, pid e ≠ pid p := by
    intro e he hpid
    rw [add_of_queued he hpid] at hadd
    cases hadd
  -- the row the append leaves has room for `p` too
  have hmark := (hwf.add pid p pr).marker_le pr
  rw [marker_add hno] at hmark
  exact ⟨by omega, (row_add_append (hwf.marker_nonneg pr) hno).2⟩

/-- Slot 1 takes slot 0 out of the queue while both have pid 0. -/
theorem queues_in_bounds_shared :
    ∃ q, run call empty [.add (fun _ => 0) 0 4, .add (fun e => e) 1 4,
      .remove (fun _ => 0) 1 4] = some q ∧ q.row 4 = [1] ∧ q.marker 4 ≤ NPROC :=
  ⟨_, rfl, by decide, (queues_in_bounds (.of_run (show run call empty
    [.add (fun _ => 0) 0 4, .add (fun e => e) 1 4, .remove (fun _ => 0) 1 4] = _ from rfl))
    4).2.2.2.1⟩

/-- **The arrays are lists.**  Calls at levels of the table, with any pids at each of them, do to
    the rows of the arrays, which are shifted in place, what they do to lists. -/
theorem queues_are_lists (calls : List QueueCall) : (run call empty calls).map row =
    if ∀ c ∈ calls, 0 ≤ c.level ∧ c.level < PLEVELS then
      some (calls.foldl QueueCall.onRows fun _ => []) else none := by
  have hempty : empty.row = fun _ => [] := funext fun pr => row_eq_nil (le_refl 0)
  rw [rows_run wf_empty calls, hempty]

end RunQueue
end Xv6
