/-
  Xv6.Proc.Race

  The queue calls of `nice`, which run without `ptable.lock`, against queue
  calls of others.

  The queue functions are cut into single reads and writes of `marker[pr]` and
  `priority_q[pr][i]` (`micro`).  Left alone they do what the functions of
  `Xv6.Proc.RunQueue` do (`total`), and they work on one level, or, for the
  pop, on the scanned levels (`local_rows`), so calls on different levels cannot
  disturb each other.  Calls on one level can: the two accesses to `marker[pr]`
  behind the search overwrite the entry of a call in between.
-/

import Xv6.Lib.Interleave
import Xv6.Proc.Keeps

namespace Xv6

open Function List Transition Interleave RunQueue Kernel

structure Level where
  cells : Int → Option Slot
  marker : Int

namespace RunQueue

/-- The arrays, level by level. -/
def mem (q : RunQueue) : Int → Level := fun pr => ⟨q.priorityQ pr, q.marker pr⟩

def ofMem (m : Int → Level) : RunQueue where
  priorityQ := fun pr => (m pr).cells
  marker := fun pr => (m pr).marker

def popFrom (pid : Slot → Int) (q : RunQueue) (ls : List Int) : RunQueue :=
  match ls.find? fun l => decide (0 < q.marker l) with
  | none => q
  | some l =>
    match q.priorityQ l 0 with
    | none => q
    | some p => (q.remove pid p l).1

end RunQueue

inductive QueueOp where
  | add (p : Slot) (pr : Int)
  | remove (p : Slot) (pr : Int)
  | pop
deriving DecidableEq

inductive QueuePc where
  /-- `i < marker[pr]` in `add_process_to_queue`. -/
  | addTest (p : Slot) (pr : Int) (i : Nat)
  /-- `p->pid == priority_q[pr][i].p->pid`. -/
  | addCompare (p : Slot) (pr : Int) (i : Nat)
  /-- The index of `priority_q[pr][marker[pr]].p = p`. -/
  | addIndex (p : Slot) (pr : Int)
  | addStore (p : Slot) (pr n : Int)
  | addRead (pr : Int)
  | addWrite (pr n : Int)
  /-- `i < marker[pr]` in `remove_process_from_queue`. -/
  | removeTest (p : Slot) (pr : Int) (i : Nat)
  /-- `priority_q[pr][i].p->pid == p->pid`. -/
  | removeCompare (p : Slot) (pr : Int) (i : Nat)
  /-- `j < marker[pr] - 1`. -/
  | shiftTest (pr : Int) (j : Nat)
  | shiftLoad (pr : Int) (j : Nat)
  | shiftStore (pr : Int) (j : Nat) (e : Option Slot)
  | removeRead (pr : Int)
  | removeWrite (pr n : Int)
  | popTest (l : Int) (ls : List Int)
  /-- `p = priority_q[i][0].p`. -/
  | popHead (l : Int)
deriving DecidableEq

namespace QueueOp

/-- The operation as one step, on the arrays. -/
def run (pid : Slot → Int) (q : RunQueue) : QueueOp → RunQueue
  | .add p pr => (q.add pid p pr).1
  | .remove p pr => (q.remove pid p pr).1
  | .pop => q.popFrom pid levels

def start : QueueOp → QueuePc
  | .add p pr => .addTest p pr 0
  | .remove p pr => .removeTest p pr 0
  | .pop => .popTest 0 [1, 2, 3, 4]

def rows : QueueOp → List Int
  | .add _ pr | .remove _ pr => [pr]
  | .pop => levels

end QueueOp

def QueuePc.row : QueuePc → Int
  | .addTest _ pr _ | .addCompare _ pr _ | .addIndex _ pr | .addStore _ pr _ | .addRead pr
  | .addWrite pr _ | .removeTest _ pr _ | .removeCompare _ pr _ | .shiftTest pr _
  | .shiftLoad pr _ | .shiftStore pr _ _ | .removeRead pr | .removeWrite pr _ | .popTest pr _
  | .popHead pr => pr

def access (pid : Slot → Int) : QueuePc → Level → Option QueuePc × Level
  | .addTest p pr i, r =>
    (some (if (i : Int) < r.marker then .addCompare p pr i else .addIndex p pr), r)
  | .addCompare p pr i, r =>
    (if hasPid pid (pid p) (r.cells i) then none else some (.addTest p pr (i + 1)), r)
  | .addIndex p pr, r => (some (.addStore p pr r.marker), r)
  | .addStore p pr n, r => (some (.addRead pr), { r with cells := update r.cells n (some p) })
  | .addRead pr, r => (some (.addWrite pr r.marker), r)
  | .addWrite _ n, r => (none, { r with marker := n + 1 })
  | .removeTest p pr i, r =>
    (if (i : Int) < r.marker then some (.removeCompare p pr i) else none, r)
  | .removeCompare p pr i, r =>
    (some (if hasPid pid (pid p) (r.cells i) then .shiftTest pr i
      else .removeTest p pr (i + 1)), r)
  | .shiftTest pr j, r =>
    (some (if (j : Int) < r.marker - 1 then .shiftLoad pr j else .removeRead pr), r)
  | .shiftLoad pr j, r => (some (.shiftStore pr j (r.cells (j + 1))), r)
  | .shiftStore pr j e, r =>
    (some (.shiftTest pr (j + 1)), { r with cells := update r.cells j e })
  | .removeRead pr, r => (some (.removeWrite pr r.marker), r)
  | .removeWrite _ n, r => (none, { r with marker := n - 1 })
  | .popTest l ls, r =>
    (if 0 < r.marker then some (.popHead l)
      else match ls with
        | [] => none
        | l' :: ls' => some (.popTest l' ls'), r)
  | .popHead l, r => ((r.cells 0).map fun p => .removeTest p l 0, r)

def code (pid : Slot → Int) : Code Int Level QueueOp QueuePc :=
  Code.ofAccess QueueOp.start QueuePc.row (access pid)

def QueuePc.rows : QueuePc → List Int
  | .popTest l ls => l :: ls
  | pc => [pc.row]

def scope (pc : QueuePc) (l : Int) : Prop := l ∈ pc.rows

variable {pid : Slot → Int}

theorem rows_start (o : QueueOp) : o.start.rows = o.rows := by
  cases o with
  | add p pr => rfl
  | remove p pr => rfl
  | pop => rfl

/-! ## Left alone, the accesses add up to the functions -/

section Alone

variable {m : Int → Level} {p : Slot} {pr : Int}

theorem mem_add_of_hit {i : Nat}
    (h : ArrayPrefix.findBelow (hasPid pid (pid p)) (m pr).cells (m pr).marker = some i) :
    ((ofMem m).add pid p pr).1.mem = m := by
  simp only [add, ofMem, h]
  rfl

theorem mem_add_of_miss
    (h : ArrayPrefix.findBelow (hasPid pid (pid p)) (m pr).cells (m pr).marker = none) :
    ((ofMem m).add pid p pr).1.mem = update m pr
      ⟨update (m pr).cells (m pr).marker (some p), (m pr).marker + 1⟩ := by
  simp only [add, ofMem, h]
  funext l
  by_cases hl : l = pr
  · subst hl
    simp [mem]
  · simp [mem, hl]

theorem mem_remove_of_miss
    (h : ArrayPrefix.findBelow (hasPid pid (pid p)) (m pr).cells (m pr).marker = none) :
    ((ofMem m).remove pid p pr).1.mem = m := by
  simp only [remove, ofMem, h]
  rfl

theorem mem_remove_of_hit {i : Nat}
    (h : ArrayPrefix.findBelow (hasPid pid (pid p)) (m pr).cells (m pr).marker = some i) :
    ((ofMem m).remove pid p pr).1.mem = update m pr
      ⟨ArrayPrefix.shiftDown (m pr).cells i (m pr).marker, (m pr).marker - 1⟩ := by
  simp only [remove, ofMem, h]
  funext l
  by_cases hl : l = pr
  · subst hl
    simp [mem]
  · simp [mem, hl]

theorem no_match_succ {test : Option Slot → Bool} {cells : Int → Option Slot} {i : Nat}
    (hbelow : ∀ j < i, test (cells (j : Nat)) = false) (hmiss : ¬ test (cells i) = true) :
    ∀ j < i + 1, test (cells (j : Nat)) = false := by
  intro j hj
  by_cases hji : j = i
  · rw [hji]
    exact Bool.eq_false_iff.mpr hmiss
  · exact hbelow j (by omega)

theorem ends_add (i : Nat) (hbelow : ∀ j < i, hasPid pid (pid p) ((m pr).cells (j : Nat)) = false) :
    Ends (code pid) (.addTest p pr i) m ((ofMem m).add pid p pr).1.mem := by
  -- the induction is on the number of entries that are left
  induction hn : ((m pr).marker - i).toNat generalizing i with
  | zero =>
    have hi : ¬ (i : Int) < (m pr).marker := by omega
    have htest : access pid (.addTest p pr i) (m pr) = (some (.addIndex p pr), m pr) := by
      simp only [access, if_neg hi]
    rw [mem_add_of_miss (ArrayPrefix.findBelow_of_miss (by omega) hbelow)]
    -- index, store, read of the mark, write of the mark
    refine .next (micro_read htest) (.next (micro_read rfl) (.next (micro_write rfl)
      (.next (micro_read rfl) (.last ?_))))
    rw [code, micro_write rfl]
    simp only [QueuePc.row, update_self, update_idem]
  | succ n ih =>
    have hi : (i : Int) < (m pr).marker := by omega
    have htest : access pid (.addTest p pr i) (m pr) = (some (.addCompare p pr i), m pr) := by
      simp only [access, if_pos hi]
    refine .next (micro_read htest) ?_
    by_cases hit : hasPid pid (pid p) ((m pr).cells i) = true
    · -- `return -1`
      have hcompare : access pid (.addCompare p pr i) (m pr) = (none, m pr) := by
        simp only [access, if_pos hit]
      rw [mem_add_of_hit (ArrayPrefix.findBelow_of_hit hi hit hbelow)]
      exact .last (micro_read hcompare)
    · have hcompare : access pid (.addCompare p pr i) (m pr)
          = (some (.addTest p pr (i + 1)), m pr) := by
        simp only [access, if_neg hit]
      exact .next (micro_read hcompare) (ih (i + 1) (no_match_succ hbelow hit) (by omega))

theorem access_shiftLoad (pid : Slot → Int) (pr : Int) (j : Nat) (r : Level) :
    access pid (.shiftLoad pr j) r = (some (.shiftStore pr j (r.cells (j + 1))), r) := rfl

theorem access_removeRead (pid : Slot → Int) (pr : Int) (r : Level) :
    access pid (.removeRead pr) r = (some (.removeWrite pr r.marker), r) := rfl

theorem ends_shift (m : Int → Level) (pr : Int) {i : Nat} (j : Nat)
    (hij : i ≤ j) (hj : (j : Int) ≤ (m pr).marker - 1) : Ends (code pid)
    (.shiftTest pr j) (update m pr ⟨ArrayPrefix.shiftDown (m pr).cells i (j + 1), (m pr).marker⟩)
    (update m pr ⟨ArrayPrefix.shiftDown (m pr).cells i (m pr).marker, (m pr).marker - 1⟩) := by
  -- on the number of rounds that are left
  induction hn : ((m pr).marker - 1 - j).toNat generalizing j with
  | zero =>
    have hlast : (j : Int) + 1 = (m pr).marker := by omega
    have hstop : ¬ (j : Int) < (m pr).marker - 1 := by omega
    have htest : ∀ c, access pid (.shiftTest pr j) ⟨c, (m pr).marker⟩
        = (some (.removeRead pr), ⟨c, (m pr).marker⟩) := by
      intro c
      simp only [access, if_neg hstop]
    rw [hlast]
    refine .next (micro_read ?_) (.next (micro_read (access_removeRead pid pr _)) (.last ?_))
    · rw [QueuePc.row, update_self]
      exact htest _
    · rw [code, micro_write rfl]
      simp only [QueuePc.row, update_self, update_idem]
  | succ n ih =>
    have hgo : (j : Int) < (m pr).marker - 1 := by omega
    have hround := ArrayPrefix.shiftDown_round (m pr).cells (show (i : Int) ≤ (j : Int) by omega)
    have htest : ∀ c, access pid (.shiftTest pr j) ⟨c, (m pr).marker⟩
        = (some (.shiftLoad pr j), ⟨c, (m pr).marker⟩) := by
      intro c
      simp only [access, if_pos hgo]
    refine .next (micro_read ?_) (.next (micro_read (access_shiftLoad pid pr j _)) (.next ?_
      (ih (j + 1) (by omega) (by omega) (by omega))))
    · rw [QueuePc.row, update_self]
      exact htest _
    · rw [code, micro_write rfl]
      simp only [QueuePc.row, update_self, update_idem]
      rw [hround]
      rfl

theorem ends_remove (i : Nat)
    (hbelow : ∀ j < i, hasPid pid (pid p) ((m pr).cells (j : Nat)) = false) :
    Ends (code pid) (.removeTest p pr i) m ((ofMem m).remove pid p pr).1.mem := by
  induction hn : ((m pr).marker - i).toNat generalizing i with
  | zero =>
    have hi : ¬ (i : Int) < (m pr).marker := by omega
    have htest : access pid (.removeTest p pr i) (m pr) = (none, m pr) := by
      simp only [access, if_neg hi]
    rw [mem_remove_of_miss (ArrayPrefix.findBelow_of_miss (by omega) hbelow)]
    exact .last (micro_read htest)
  | succ n ih =>
    have hi : (i : Int) < (m pr).marker := by omega
    have htest : access pid (.removeTest p pr i) (m pr)
        = (some (.removeCompare p pr i), m pr) := by
      simp only [access, if_pos hi]
    refine .next (micro_read htest) ?_
    by_cases hit : hasPid pid (pid p) ((m pr).cells i) = true
    · have hcompare : access pid (.removeCompare p pr i) (m pr)
          = (some (.shiftTest pr i), m pr) := by
        simp only [access, if_pos hit]
      rw [mem_remove_of_hit (ArrayPrefix.findBelow_of_hit hi hit hbelow)]
      refine .next (micro_read hcompare) ?_
      -- the shift loop starts where the search has stopped, with nothing moved
      have hshift := @ends_shift pid m pr i i (le_refl i) (by omega)
      rwa [ArrayPrefix.shiftDown_start, update_eq_self] at hshift
    · have hcompare : access pid (.removeCompare p pr i) (m pr)
          = (some (.removeTest p pr (i + 1)), m pr) := by
        simp only [access, if_neg hit]
      exact .next (micro_read hcompare) (ih (i + 1) (no_match_succ hbelow hit) (by omega))

theorem ends_popHead {l : Int} {ls : List Int} (hl : 0 < (m l).marker) :
    Ends (code pid) (.popHead l) m ((ofMem m).popFrom pid (l :: ls)).mem := by
  have hfind : (l :: ls).find? (fun l => decide (0 < (ofMem m).marker l)) = some l :=
    List.find?_cons_of_pos (decide_eq_true hl)
  cases hp : (m l).cells 0 with
  | none =>
    have hhead : (ofMem m).priorityQ l 0 = none := hp
    have hload : access pid (.popHead l) (m l) = (none, m l) := by
      simp only [access, hp, Option.map_none]
    simp only [popFrom, hfind, hhead]
    exact .last (micro_read hload)
  | some p =>
    have hhead : (ofMem m).priorityQ l 0 = some p := hp
    have hload : access pid (.popHead l) (m l) = (some (.removeTest p l 0), m l) := by
      simp only [access, hp, Option.map_some]
    simp only [popFrom, hfind, hhead]
    exact .next (micro_read hload) (ends_remove 0 fun j hj => by omega)

theorem ends_pop (l : Int) (ls : List Int) :
    Ends (code pid) (.popTest l ls) m ((ofMem m).popFrom pid (l :: ls)).mem := by
  -- on the levels that come after
  induction ls generalizing l with
  | nil =>
    by_cases hl : 0 < (m l).marker
    · have htest : access pid (.popTest l []) (m l) = (some (.popHead l), m l) := by
        simp only [access, if_pos hl]
      exact .next (micro_read htest) (ends_popHead hl)
    · have htest : access pid (.popTest l []) (m l) = (none, m l) := by
        simp only [access, if_neg hl]
      have hfind : [l].find? (fun l => decide (0 < (ofMem m).marker l)) = none :=
        List.find?_cons_of_neg fun h => hl (of_decide_eq_true h)
      simp only [popFrom, hfind]
      exact .last (micro_read htest)
  | cons l' ls ih =>
    by_cases hl : 0 < (m l).marker
    · have htest : access pid (.popTest l (l' :: ls)) (m l) = (some (.popHead l), m l) := by
        simp only [access, if_pos hl]
      exact .next (micro_read htest) (ends_popHead hl)
    · have htest : access pid (.popTest l (l' :: ls)) (m l) = (some (.popTest l' ls), m l) := by
        simp only [access, if_neg hl]
      have hfind : (l :: l' :: ls).find? (fun l => decide (0 < (ofMem m).marker l))
          = (l' :: ls).find? fun l => decide (0 < (ofMem m).marker l) :=
        List.find?_cons_of_neg fun h => hl (of_decide_eq_true h)
      have hrest := ih l'
      refine .next (micro_read htest) ?_
      simp only [popFrom, hfind] at hrest ⊢
      exact hrest

end Alone

/-- **The accesses of an operation, left alone, are the operation.** -/
theorem total (pid : Slot → Int) : Total (code pid) fun o m => (o.run pid (ofMem m)).mem := by
  intro o m
  cases o with
  | add p pr => exact ends_add 0 fun j hj => by omega
  | remove p pr => exact ends_remove 0 fun j hj => by omega
  | pop => exact ends_pop 0 [1, 2, 3, 4]

theorem row_mem_rows (pc : QueuePc) : pc.row ∈ pc.rows := by
  cases pc <;> exact mem_cons_self

theorem rows_of_access {pc pc' : QueuePc} {r : Level} (h : (access pid pc r).1 = some pc') :
    ∀ l ∈ pc'.rows, l ∈ pc.rows := by
  intro l hl
  cases pc with
  | popTest l0 ls =>
    simp only [access] at h
    split at h
    · cases h
      exact mem_cons.mpr (.inl (mem_singleton.mp hl))
    · cases ls with
      | nil => cases h
      | cons l' ls' =>
        cases h
        exact mem_cons_of_mem l0 hl
  | popHead l0 =>
    obtain ⟨p, -, rfl⟩ := Option.map_eq_some_iff.mp h
    exact hl
  | addTest | removeCompare | shiftTest =>
    -- both ways on stay at the level
    simp only [access] at h
    split at h
    · cases h
      exact hl
    · cases h
      exact hl
  | addCompare =>
    simp only [access] at h
    split at h
    · cases h
    · cases h
      exact hl
  | removeTest =>
    simp only [access] at h
    split at h
    · cases h
      exact hl
    · cases h
  | addIndex | addStore | addRead | shiftLoad | shiftStore | removeRead =>
    cases h
    exact hl
  | addWrite | removeWrite => cases h

/-- **Accesses keep to the levels of their operation.** -/
theorem local_rows (pid : Slot → Int) : Local (code pid) scope :=
  local_ofAccess row_mem_rows fun _ _ _ h => rows_of_access h

/-! ## `nice` and another agent -/

inductive Agent where
  | nice | other
deriving DecidableEq

instance : Fintype Agent := ⟨{.nice, .other}, fun a => by cases a <;> simp⟩

def niceCalls (p : Slot) (old priority : Int) : List QueueOp := [.remove p old, .add p priority]

def programs (p : Slot) (old priority : Int) (ops : List QueueOp) : Agent → List QueueOp
  | .nice => niceCalls p old priority
  | .other => ops

def runAll (pid : Slot → Int) (q : RunQueue) (ops : List QueueOp) : RunQueue :=
  ops.foldl (QueueOp.run pid) q

/-- The queues hold at every level what some sequential order of the operations leaves there. -/
def Serializable (pid : Slot → Int) (q₀ : RunQueue) (ops : List QueueOp) (q : RunQueue) : Prop :=
  ∃ order : List QueueOp, order.Perm ops ∧
    ∀ l ∈ levels, (q.row l).Perm ((runAll pid q₀ order).row l)

/-- An operation begins inside the arrays, and not on a level on which the other
    agent is in the middle of an operation. -/
def RowsApart (s : State Int Level QueueOp QueuePc Agent) (a : Agent) : Prop :=
  (s.thread a).busy = none → ∀ o ∈ (s.thread a).todo.head?, (∀ l ∈ o.rows, l ∈ levels) ∧
    ∀ b, ∀ op ∈ (s.thread b).busy, ∀ l ∈ o.rows, l ∉ op.1.rows

instance (s : State Int Level QueueOp QueuePc Agent) (a : Agent) : Decidable (RowsApart s a) :=
  inferInstanceAs (Decidable (_ → _))

theorem RowsApart.apart {s : State Int Level QueueOp QueuePc Agent} {a : Agent}
    (h : RowsApart s a) : Apart (code pid) scope s a := by
  intro hidle o ho b o' pc hbusy l hl hl'
  have hrows := (h hidle o ho).2 b (o', pc) hbusy
  refine hrows l ?_ ?_
  · rw [← rows_start]
    exact hl
  · rw [← rows_start]
    exact hl'

theorem mem_runAll (pid : Slot → Int) (q : RunQueue) (ops : List QueueOp) :
    execAll (fun o m => (o.run pid (ofMem m)).mem) q.mem ops = (runAll pid q ops).mem := by
  induction ops generalizing q with
  | nil => rfl
  | cons o ops ih => exact ih (o.run pid q)

theorem perm_programs {p : Slot} {old priority : Int} {ops : List QueueOp}
    {order : List (Agent × QueueOp)}
    (h : ∀ a, (order.filter fun e => e.1 = a).map Prod.snd = programs p old priority ops a) :
    (order.map Prod.snd).Perm (niceCalls p old priority ++ ops) := by
  have hsplit := (filter_append_perm (fun e : Agent × QueueOp => decide (e.1 = .nice)) order).map
    Prod.snd
  rw [map_append] at hsplit
  have hother : (order.filter fun e => !decide (e.1 = .nice)) = order.filter fun e => e.1 = .other := by
    congr 1
    funext e
    cases e.1 <;> rfl
  rw [hother, h .nice, h .other] at hsplit
  exact hsplit.symm

/-- **Queue calls that keep apart are serializable.** -/
theorem nice_calls_serializable (pid : Slot → Int) (q : RunQueue) (p : Slot) (old priority : Int)
    (ops : List QueueOp) (turns : List Agent)
    (h : Meets (step (code pid)) RowsApart (init q.mem (programs p old priority ops)) turns) :
    Along (step (code pid))
      (fun s => s.Finished →
        Serializable pid q (niceCalls p old priority ++ ops) (ofMem s.mem))
      (init q.mem (programs p old priority ops)) turns := by
  have hserial := serial (total pid) (local_rows pid) (h.mono fun _ _ hs => hs.apart)
  refine hserial.mono fun s hs hf => ?_
  obtain ⟨order, horder, hmem⟩ := hs hf
  refine ⟨order.map Prod.snd, perm_programs horder, fun l _ => ?_⟩
  rw [hmem, mem_runAll]
  exact List.Perm.refl _

/-- The calls of `nice` at levels 3 and 2 and, between their accesses, a call at level 4. -/
theorem nice_calls_serializable_other_level :
    (run (step (code fun p => p.val + 1)) (init empty.mem (programs 0 3 2 [.add 1 4]))
      [.nice, .other, .nice, .other, .nice, .other, .nice, .other, .nice, .other, .nice, .other,
        .nice, .nice]).any (fun s => decide s.Finished) = true ∧
    Along (step (code fun p => p.val + 1))
      (fun s => s.Finished → Serializable (fun p => p.val + 1) empty
        (niceCalls 0 3 2 ++ [.add 1 4]) (ofMem s.mem))
      (init empty.mem (programs 0 3 2 [.add 1 4]))
      [.nice, .other, .nice, .other, .nice, .other, .nice, .other, .nice, .other, .nice, .other,
        .nice, .nice] :=
  ⟨by decide +kernel, nice_calls_serializable _ _ _ _ _ _ _ (by decide +kernel)⟩

theorem mem_row_runAll {q : RunQueue} {p : Slot} {l : Int} {ops : List QueueOp} (hwf : q.Wf)
    (hu : ∀ e, pid e = pid p → e = p) (hmem : p ∈ q.row l ∨ .add p l ∈ ops)
    (hkeep : ∀ o ∈ ops, (∃ p' pr, o = .add p' pr) ∨ ∃ p' pr, o = .remove p' pr ∧ l ≠ pr) :
    p ∈ (runAll pid q ops).row l := by
  induction ops generalizing q with
  | nil => exact hmem.resolve_right not_mem_nil
  | cons o ops ih =>
    have hrest : ∀ o' ∈ ops, (∃ p' pr, o' = .add p' pr) ∨ ∃ p' pr, o' = .remove p' pr ∧ l ≠ pr :=
      fun o' ho' => hkeep o' (mem_cons_of_mem o ho')
    rcases hkeep o mem_cons_self with ⟨p', pr, rfl⟩ | ⟨p', pr, rfl, hne⟩
    · -- additions keep all entries, and the one of `p` puts it there
      refine ih (hwf.add pid p' pr) ?_ hrest
      rcases hmem with hq | hq
      · exact .inl ((mem_row_add (hwf.marker_nonneg pr)).mpr (.inl hq))
      · rcases mem_cons.mp hq with he | hq
        · cases he
          exact .inl ((mem_row_add_unique (hwf.marker_nonneg l) hu).mpr (.inr ⟨rfl, rfl⟩))
        · exact .inr hq
    · -- removals are at other levels
      refine ih (hwf.remove pid p' pr) ?_ hrest
      rcases hmem with hq | hq
      · left
        show p ∈ (q.remove pid p' pr).1.row l
        rw [row_remove_of_ne hne]
        exact hq
      · exact .inr ((mem_cons.mp hq).resolve_left (by simp))

/-- The first process sets its own nice value to 2.  Between its store into `priority_q[2]` and its
    `marker[2]++` the timer interrupt wakes up a sleeper of priority 3, whose entry goes to the same
    place: the first process is in no queue, and the fill mark counts a null pointer. -/
theorem nice_interrupted_loses_entry :
    ∃ k, run (sysStep .priority) boot
      [.userinit 1 2, .scheduler 0, .resume 0, .fork 0 (some 3) (some 4), .scheduler 1, .resume 1,
        .sleep 1 (.addr 7)] = some k ∧
      (k.cpu 0).proc = some 0 ∧ k.priority 0 = 3 ∧ k.state 1 = .SLEEPING ∧ k.priority 1 - 1 = 2 ∧
      ∃ s, run (step (code k.pid)) (init k.rq.mem (programs 0 3 2 [.add 1 2]))
        [.nice, .nice, .nice, .nice, .nice, .nice, .other, .other, .other, .other, .other, .other,
          .nice, .nice] = some s ∧
        s.Finished ∧ (s.mem 2).marker = 2 ∧ (s.mem 2).cells 0 = some 1 ∧ (s.mem 2).cells 1 = none ∧
        (∀ l ∈ levels, 0 ∉ (ofMem s.mem).row l) ∧
        ¬ Serializable k.pid k.rq (niceCalls 0 3 2 ++ [.add 1 2]) (ofMem s.mem) := by
  have hstate : ∃ k, run (sysStep .priority) boot
      [.userinit 1 2, .scheduler 0, .resume 0, .fork 0 (some 3) (some 4), .scheduler 1, .resume 1,
        .sleep 1 (.addr 7)] = some k ∧
      ((k.cpu 0).proc = some 0 ∧ k.priority 0 = 3 ∧ k.state 1 = .SLEEPING ∧
        k.priority 1 - 1 = 2) ∧ (∀ e, k.pid e = k.pid 0 → e = 0) ∧
      (run (step (code k.pid)) (init k.rq.mem (programs 0 3 2 [.add 1 2]))
        [.nice, .nice, .nice, .nice, .nice, .nice, .other, .other, .other, .other, .other, .other,
          .nice, .nice]).any (fun s => decide (s.Finished ∧ (s.mem 2).marker = 2 ∧
            (s.mem 2).cells 0 = some 1 ∧ (s.mem 2).cells 1 = none ∧
            ∀ l ∈ levels, 0 ∉ (ofMem s.mem).row l)) = true := by
    exact exists_run (by decide +kernel)
  obtain ⟨k, hrun, ⟨hcpu, h0, h1, h2⟩, hu, hrace⟩ := hstate
  obtain ⟨s, hs, hfin, hmark, hc0, hc1, hlost⟩ := exists_run hrace
  refine ⟨k, hrun, hcpu, h0, h1, h2, s, hs, hfin, hmark, hc0, hc1, hlost, ?_⟩
  -- in every order the first process ends up at level 2
  rintro ⟨order, hperm, hrows⟩
  refine hlost 2 (by decide) ((hrows 2 (by decide)).mem_iff.mpr ?_)
  refine mem_row_runAll (wf_of_run hrun) hu (.inr ?_) fun o ho => ?_
  · exact hperm.mem_iff.mpr (by decide)
  · have ho' := hperm.mem_iff.mp ho
    simp only [niceCalls, cons_append, nil_append, mem_cons, not_mem_nil, or_false] at ho'
    rcases ho' with rfl | rfl | rfl
    · exact .inr ⟨0, 3, rfl, by decide⟩
    · exact .inl ⟨0, 2, rfl⟩
    · exact .inl ⟨1, 2, rfl⟩

end Xv6
