/-
  Xv6.Proc.Tree

  The interleaved machine refines the process life cycle of
  `Xv6.Lib.ProcessTree`, in both builds.  `table` forgets the scheduling, the
  queues, the pids of free slots and the parents of slots that hold no process
  yet; under it every step of the machine is a sequence of life-cycle steps.
-/

import Xv6.Proc.Exclusive

namespace Xv6

open Function List Proc Event

open ProcessTree (Life Table)
open Transition

/-! ## The abstraction -/

/-- The life-cycle event an event of the kernel is. -/
def Event.life? : Event → Option ProcessTree.Event
  | .forked f n => some (.forked f n)
  | .exited n => some (.exited n)
  | .reaped w n => some (.reaped w n)
  | .dispatched _ _ _ => none

theorem Event.life?_inj {e1 e2 : Event} {e : ProcessTree.Event} (h1 : e1.life? = some e)
    (h2 : e2.life? = some e) : e1 = e2 := by
  cases e1 <;> cases e2 <;> cases h1 <;> cases h2 <;> rfl

theorem Event.mem_lives {e : Event} {e' : ProcessTree.Event} (he : e.life? = some e')
    {es : List Event} : e' ∈ es.filterMap life? ↔ e ∈ es := by
  rw [mem_filterMap]
  constructor
  · rintro ⟨e1, hmem, h1⟩
    rwa [← life?_inj h1 he]
  · exact fun hmem => ⟨e, hmem, he⟩

namespace Proc

/-- The pid, unless the slot is free. -/
def shownPid (r : Proc) : Int := if r.state.life = .free then 0 else r.pid

/-- The parent, once there is a process in the slot. -/
def shownParent (r : Proc) : Option Slot :=
  if r.state.life = .live ∨ r.state.life = .dead then r.parent else none

end Proc

namespace Kernel

/-- The life-cycle view of the kernel. -/
def table (k : Kernel) : Table Slot where
  life := k.life
  pid := fun p => (k.proc p).shownPid
  parent := fun p => (k.proc p).shownParent
  init := k.initproc
  next := k.nextpid
  trace := k.trace.filterMap life?

variable {b : Build} {k k' : Kernel} {a : Act}
variable {p : Slot} {r : Proc}

theorem table_pid (hp : k.life p ≠ .free) : k.table.pid p = k.pid p := if_neg hp

theorem table_parent (hp : k.life p = .live ∨ k.life p = .dead) :
    k.table.parent p = k.parent p := if_pos hp

theorem table_eq (hlife : ∀ p, k'.life p = k.life p)
    (hpid : ∀ p, k.life p ≠ .free → k'.pid p = k.pid p)
    (hparent : ∀ p, k.life p = .live ∨ k.life p = .dead → k'.parent p = k.parent p)
    (hinit : k'.initproc = k.initproc) (hnext : k'.nextpid = k.nextpid)
    (htrace : k'.trace.filterMap life? = k.trace.filterMap life?) : k'.table = k.table := by
  refine Table.ext (funext hlife) (funext fun p => ?_) (funext fun p => ?_) hinit hnext htrace
  · show (if k'.life p = .free then 0 else k'.pid p) = if k.life p = .free then 0 else k.pid p
    rw [hlife p]
    by_cases hf : k.life p = .free
    · rw [if_pos hf, if_pos hf]
    · rw [if_neg hf, if_neg hf, hpid p hf]
  · show (if k'.life p = .live ∨ k'.life p = .dead then k'.parent p else none)
        = if k.life p = .live ∨ k.life p = .dead then k.parent p else none
    rw [hlife p]
    by_cases hf : k.life p = .live ∨ k.life p = .dead
    · rw [if_pos hf, if_pos hf, hparent p hf]
    · rw [if_neg hf, if_neg hf]

theorem Sched.table_eq (hs : Sched k k') : k'.table = k.table := by
  refine Kernel.table_eq hs.life_eq (fun p _ => hs.pid_eq p) (fun p _ => hs.parent_eq p)
    hs.initproc hs.nextpid ?_
  -- dispatches are no events of the life cycle
  obtain ⟨ds, hds, hall⟩ := hs.trace
  have hnone : ds.filterMap life? = [] := by
    refine filterMap_eq_nil_iff.mpr fun e he => ?_
    obtain ⟨i, p, rfl⟩ := hall e he
    rfl
  rw [hds, filterMap_append, hnone, nil_append]

theorem table_update {t : Table Slot} (hproc : k'.proc = update k.proc p r)
    (hp : r.state.life = t.life p ∧ r.shownPid = t.pid p ∧ r.shownParent = t.parent p)
    (hother : ∀ q, q ≠ p → k.table.life q = t.life q ∧ k.table.pid q = t.pid q ∧
      k.table.parent q = t.parent q)
    (hinit : k'.initproc = t.init) (hnext : k'.nextpid = t.next)
    (htrace : k'.trace.filterMap life? = t.trace) : k'.table = t := by
  have hslot : ∀ q, k'.table.life q = t.life q ∧ k'.table.pid q = t.pid q ∧
      k'.table.parent q = t.parent q := by
    intro q
    simp only [table, life, state]
    rw [hproc]
    by_cases hq : q = p
    · subst hq
      rw [update_self]
      exact hp
    · rw [update_of_ne hq]
      exact hother q hq
  exact Table.ext (funext fun q => (hslot q).1) (funext fun q => (hslot q).2.1)
    (funext fun q => (hslot q).2.2) hinit hnext htrace

theorem table_update_same (hproc : k'.proc = update k.proc p r) (hlife : r.state.life = k.life p)
    (hpid : r.pid = k.pid p) (hparent : k.life p ≠ .embryo → r.parent = k.parent p)
    (hinit : k'.initproc = k.initproc) (hnext : k'.nextpid = k.nextpid)
    (htrace : k'.trace = k.trace) : k'.table = k.table := by
  refine table_update hproc ⟨hlife, ?_, ?_⟩ (fun _ _ => ⟨rfl, rfl, rfl⟩) hinit hnext
    (by rw [htrace]; rfl)
  · show (if r.state.life = .free then 0 else r.pid) = if k.life p = .free then 0 else k.pid p
    rw [hlife, hpid]
  · show (if r.state.life = .live ∨ r.state.life = .dead then r.parent else none)
        = if k.life p = .live ∨ k.life p = .dead then k.parent p else none
    rw [hlife]
    by_cases hf : k.life p = .live ∨ k.life p = .dead
    · rw [if_pos hf, if_pos hf]
      refine hparent fun he => ?_
      rw [he] at hf
      revert hf
      decide
    · rw [if_neg hf, if_neg hf]

/-! ## The refinement -/

open Relation (ReflTransGen)

theorem table_parent_eq_none (hp : k.life p = .free ∨ k.life p = .embryo) :
    k.table.parent p = none := by
  refine if_neg ?_
  rcases hp with hp | hp
  · show ¬ (k.life p = .live ∨ k.life p = .dead)
    rw [hp]
    decide
  · show ¬ (k.life p = .live ∨ k.life p = .dead)
    rw [hp]
    decide

theorem table_exit {c : Slot} {k1 : Kernel} (hc : k.life c = .live)
    (h1 : Sched ((k.setFrame c .idle).reparent c) k1) :
    ((k1.setProc c fun r => { r with state := .ZOMBIE }).log (.exited (k.pid c))).table
      = k.table.exit c := by
  have hparent : ∀ q, k.life q = .live ∨ k.life q = .dead → k1.parent q = k.table.heir c q := by
    intro q hq
    rw [h1.reparented_parent, Table.heir, table_parent hq]
    rfl
  have hcpid : k.table.pid c = k.pid c := table_pid (by rw [hc]; decide)
  refine table_update (k := k1) rfl ⟨?_, ?_, ?_⟩ (fun q hq => ⟨?_, ?_, ?_⟩) ?_ ?_ ?_
  · simp [ProcState.life]
  · simp only [shownPid, ProcState.life, reduceCtorEq, if_false, Table.exit_pid]
    rw [hcpid]
    exact h1.reparented_pid c
  · simp only [shownParent, ProcState.life, or_true, if_true, Table.exit_parent]
    exact hparent c (.inl hc)
  · rw [Table.exit_life, if_neg hq]
    exact h1.reparented_life q
  · show (if k1.life q = .free then 0 else k1.pid q) = if k.life q = .free then 0 else k.pid q
    rw [h1.reparented_life, h1.reparented_pid]
  · -- an embryo of `c` changes its parent too, but does not show it
    rw [Table.exit_parent]
    by_cases hpres : k.life q = .live ∨ k.life q = .dead
    · rw [← hparent q hpres]
      exact table_parent (by rw [h1.reparented_life]; exact hpres)
    · have hnone : k.table.parent q = none := if_neg hpres
      rw [Table.heir, hnone]
      exact if_neg (by rw [show (k1.proc q).state.life = k.life q from h1.reparented_life q]; exact hpres)
  · exact h1.initproc
  · exact h1.nextpid
  · have htrace : k1.table.trace = k.table.trace := by
      rw [h1.table_eq]
      rfl
    rw [Table.exit_trace, hcpid, ← htrace]
    rfl

/-- **Refinement.**  Every step of the kernel is a sequence of life-cycle steps. -/
theorem Effect.refines (h : k.ForkInv) (e : Effect b k a k') :
    ReflTransGen Table.Step k.table k'.table := by
  have hsame : ∀ {m : Kernel}, m.table = k.table → ReflTransGen Table.Step k.table m.table := by
    intro m hm
    rw [hm]
  have hemb : ∀ {c np}, (k.frame c).forking = some np → k.table.life np = .embryo :=
    fun hf => ProcState.life_eq_embryo.mpr (h.embryo _ _ hf)
  have hused : ∀ {p l}, k.table.life p = l → l ≠ .free → k.life p ≠ .free := by
    rintro p l rfl hl
    exact hl
  cases e with
  | sched ha hs => exact hsame hs.table_eq
  | @userinit p kstack pgdir rq hi hn hp =>
    have hfree : k.table.life p = .free := ProcState.life_eq_free.mpr hp
    -- `userinit` claims and starts in one step
    have hstart : (k.table.claim p).Step ((k.table.claim p).start p (k.parent p)) :=
      .start hi (if_pos rfl)
    refine (ReflTransGen.single (.claim hfree)).tail ?_
    convert hstart using 1
    refine table_update rfl ⟨?_, ?_, ?_⟩ (fun q hq => ?_) rfl rfl rfl
    · simp [ProcState.life]
    · simp [shownPid, table]
    · simp [shownParent, ProcState.life]
    · simp [hq]
  | @claim i c np hc hf hn hp =>
    have hfree : k.table.life np = .free := ProcState.life_eq_free.mpr hp
    refine ReflTransGen.single ?_
    convert Table.Step.claim hfree using 1
    refine table_update rfl ⟨?_, ?_, ?_⟩ (fun q hq => ?_) rfl rfl rfl
    · simp [ProcState.life]
    · simp [shownPid, table]
    · exact (table_parent_eq_none (.inl hfree)).symm
    · simp [hq]
  | stack hc hf => exact hsame (table_update_same rfl rfl rfl (fun _ => rfl) rfl rfl rfl)
  | @abandon _ i c np pgdir ha hi hc hf =>
    refine ReflTransGen.single ?_
    convert Table.Step.abandon (hemb hf) using 1
    refine table_update rfl ⟨?_, ?_, ?_⟩ (fun q hq => ?_) rfl rfl rfl
    · simp [ProcState.life]
    · simp [shownPid]
    · exact (table_parent_eq_none (.inr (hemb hf))).symm
    · simp [hq]
  | @copy i c np pgdir hc hf =>
    -- the new parent is that of an embryo, which does not show
    have hnp := hemb (congrArg Frame.forking hf)
    exact hsame (table_update_same rfl rfl rfl (fun hne => absurd hnp hne) rfl rfl rfl)
  | @ready i c np rq hc hf =>
    have hnp := hemb (congrArg Frame.forking hf)
    have hpar := h.parent c np hf
    have hpid := table_pid (hused hnp (by decide))
    refine ReflTransGen.single ?_
    convert Table.Step.fork (c := c) hc hnp using 1
    refine table_update rfl ⟨?_, ?_, ?_⟩ (fun q hq => ?_) rfl rfl ?_
    · simp [ProcState.life]
    · simp [shownPid, hpid]
    · simp [shownParent, ProcState.life]
      exact hpar
    · simp [hq]
    · rw [Table.log_trace, hpid, table_pid (hused hc (by decide))]
      rfl
  | @readyLost i c np rq hc hf =>
    have hnp := hemb (congrArg Frame.forking hf)
    have hpar := h.parent c np hf
    have hpid := table_pid (hused hnp (by decide))
    -- the child exists, but no `fork` ever returns it
    refine ReflTransGen.single ?_
    convert Table.Step.spawn (c := c) hc hnp using 1
    refine table_update rfl ⟨?_, ?_, ?_⟩ (fun q hq => ?_) rfl rfl rfl
    · simp [ProcState.life]
    · simp [shownPid, hpid]
    · simp [shownParent, ProcState.life]
      exact hpar
    · simp [hq]
  | @exit i c k1 k' hc hf hi h1 h2 =>
    rw [h2.table_eq, table_exit hc h1]
    exact .single (.exit hc hi)
  | @reap _ c p k1 rq ha hs hc hpar hp =>
    have hp' : k.table.life p = .dead := hp
    have hpar' : k.table.parent p = some c := (table_parent (.inr hp)).trans hpar
    refine ReflTransGen.single ?_
    convert Table.Step.reap hc hp' hpar' using 1
    refine table_update rfl ⟨?_, ?_, ?_⟩ (fun q hq => ?_) ?_ ?_ ?_
    · simp [ProcState.life]
    · simp [shownPid]
    · simp [shownParent]
    · -- the `wait` may follow a `resume`, which the table does not see
      simp [hq, hs.table_eq]
    · exact hs.initproc
    · exact hs.nextpid
    · rw [Table.reap_trace, table_pid (hused hc (by decide)), table_pid (hused hp (by decide)),
        ← hs.table_eq]
      rfl
  | @kill i c p pid rq f hc hf hp hend =>
    refine hsame (table_update_same rfl ?_ rfl (fun _ => rfl) rfl rfl rfl)
    -- a sleeper and a runnable process are both live
    by_cases hsl : k.state p = .SLEEPING
    · simp only [hsl, if_true, life]
      rfl
    · simp only [hsl, if_false]
  | killMiss hc hf hp => exact .refl
  | niceMiss hc hf hp => exact .refl
  | niceFind hc hf hp hlo hhi => exact .refl
  | niceSet hc hf => exact hsame (table_update_same rfl rfl rfl (fun _ => rfl) rfl rfl rfl)
  | niceRemove hc hf => exact .refl
  | niceAdd hc hf => exact .refl
  | fault hc => exact hsame (table_update_same rfl rfl rfl (fun _ => rfl) rfl rfl rfl)

/-- The life cycle's invariant, of the kernel. -/
def TreeInv (k : Kernel) : Prop := k.table.Inv

theorem table_boot : boot.table = Table.empty :=
  Table.ext rfl rfl (funext fun _ => table_parent_eq_none (.inl rfl)) rfl rfl rfl

theorem treeInv_boot : boot.TreeInv := by
  rw [TreeInv, table_boot]
  exact Table.inv_empty

theorem tree_run (b : Build) (acts : List Act) :
    Along (step b) (fun k => k.Base ∧ k.TreeInv) boot acts :=
  invariant_of_effect treeInv_boot (fun _ _ _ hbase h e => h.steps (e.refines hbase.forks)) acts

/-- **The kernel refines the life cycle of processes**: seen through `table`, every interleaving is
    a run of the abstract system. -/
theorem kernel_refines_table (b : Build) (acts : List Act) :
    Along (step b) (fun k => ReflTransGen Table.Step Table.empty k.table) boot acts :=
  (invariant_of_effect (I := fun k => ReflTransGen Table.Step Table.empty k.table)
    (by rw [table_boot]) (fun _ _ _ hbase h e => h.trans (e.refines hbase.forks)) acts).mono
    fun _ h => h.2

/-! ## What the kernel inherits -/

/-- What a run records about the child `n` of the process `f`: at most one `wait` returned it, after
    its `exit`, and to `f` or, once `f` had exited, to `initproc`. -/
structure ReapedOnce (k : Kernel) (f n : Int) : Prop where
  once : ∀ (i j : Nat) (w w' : Int), k.trace[i]? = some (reaped w n) →
    k.trace[j]? = some (reaped w' n) → i = j
  after : ∀ pre w past, k.trace = pre ++ .reaped w n :: past →
    .exited n ∈ past ∧ .forked f n ∈ past ∧
      (w = f ∨ ∃ q, k.initproc = some q ∧ k.pid q = w ∧ .exited f ∈ past)

theorem TreeInv.justified (h : k.TreeInv) {pre past : List Event} {w n : Int}
    (ht : k.trace = pre ++ .reaped w n :: past) : k.table.Justified w n (past.filterMap life?) := by
  refine h.history (pre.filterMap life?) w n _ ?_
  show k.trace.filterMap life? = _
  rw [ht, filterMap_append]
  rfl

theorem TreeInv.reapedOnce (h : k.TreeInv) {f n : Int} (hf : .forked f n ∈ k.trace) :
    k.ReapedOnce f n where
  once := by
    -- the earlier of two such events lies in the past of the later one
    have hlt : ∀ (i j : Nat) (w w' : Int), k.trace[i]? = some (reaped w n) →
        k.trace[j]? = some (reaped w' n) → ¬ i < j := by
      intro i j w w' hi hj hij
      obtain ⟨hlen, hget⟩ := List.getElem?_eq_some_iff.mp hi
      have hsplit : k.trace = k.trace.take i ++ .reaped w n :: k.trace.drop (i + 1) := by
        rw [← hget, getElem_cons_drop, take_append_drop]
      have hmem : reaped w' n ∈ k.trace.drop (i + 1) := by
        refine mem_of_getElem? (i := j - (i + 1)) ?_
        rw [List.getElem?_drop, show i + 1 + (j - (i + 1)) = j by omega]
        exact hj
      exact (h.justified hsplit).first w' ((mem_lives rfl).mpr hmem)
    intro i j w w' hi hj
    have h1 := hlt i j w w' hi hj
    have h2 := hlt j i w' w hj hi
    omega
  after := by
    intro pre w past ht
    have hj := h.justified ht
    obtain ⟨hpast, hw⟩ := hj.forker f (show _ ∈ k.trace.filterMap life? from (mem_lives rfl).mpr hf)
    refine ⟨(mem_lives rfl).mp hj.exited, (mem_lives rfl).mp hpast, hw.imp_right ?_⟩
    rintro ⟨q, hq, hpid, he⟩
    have hlive : k.life q = .live := h.init_live q hq
    rw [table_pid (by rw [hlive]; decide)] at hpid
    exact ⟨q, hq, hpid, (mem_lives rfl).mp he⟩

/-- **Every child is reaped at most once, by its parent, after it exited.** Over any interleaving,
    in both builds: a process other than `initproc` that is asleep, runnable, running or a zombie
    has a parent that is neither free nor a zombie, and the record of each forked child is as
    `ReapedOnce` says. -/
theorem children_reaped_once (b : Build) (acts : List Act) :
    Along (step b)
      (fun k =>
        (∀ p, k.initproc ≠ some p → k.state p ≠ .UNUSED → k.state p ≠ .EMBRYO →
          ∃ q, k.parent p = some q ∧ k.state q ≠ .UNUSED ∧ k.state q ≠ .ZOMBIE) ∧
        ∀ f n, .forked f n ∈ k.trace → k.ReapedOnce f n)
      boot acts := by
  refine (tree_run b acts).mono fun k ⟨hbase, htree⟩ => ⟨fun p hpi hu he => ?_, fun f n hf => ?_⟩
  · have hpres : k.life p = .live ∨ k.life p = .dead := by
      cases hst : k.state p with
      | UNUSED => exact absurd hst hu
      | EMBRYO => exact absurd hst he
      | ZOMBIE => exact .inr (ProcState.life_eq_dead.mpr hst)
      | _ => exact .inl (by rw [life, hst]; rfl)
    obtain ⟨q, hq, hlive⟩ := htree.parent_live p hpres hpi
    rw [table_parent hpres] at hq
    have hlive' : k.life q = .live := hlive
    refine ⟨q, hq, fun hf => ?_, fun hz => ?_⟩
    · rw [← ProcState.life_eq_free] at hf
      rw [life, hf] at hlive'
      cases hlive'
    · rw [← ProcState.life_eq_dead] at hz
      rw [life, hz] at hlive'
      cases hlive'
  · exact htree.reapedOnce hf

end Kernel
end Xv6
