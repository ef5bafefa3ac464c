/-
  Xv6.Proc.RoundRobin

  The round-robin scheduler on one CPU: does everybody get a turn?
-/

import Xv6.Proc.Slots

namespace Xv6

open List Transition Option

def Act.first : Act → Bool
  | .scheduler i | .resume i | .forkAlloc i | .forkKalloc i _ | .forkCopy i _ | .forkReady i
  | .exit i | .wait i | .yield i | .sleep i _ | .kill i _ | .niceFind i _ _ | .niceSet i
  | .niceRemove i | .niceAdd i | .fault i => i == 0
  | .userinit _ _ | .wakeup _ | .race _ => true

namespace Kernel

variable {k k' k'' m : Kernel} {a : Act} {c p q : Slot} {n : Nat}
variable {r : Slot} {cpu : Nat → Cpu} {acts : List Act}

def SwitchesTo (k : Kernel) (p : Slot) (k' : Kernel) : Prop :=
  ∃ found es, k'.trace = .dispatched 0 p found :: (es ++ k.trace)

/-! ## Between two steps of the loop -/

structure Undisturbed (k k' : Kernel) : Prop where
  waits : ∀ q, k.state q = .RUNNABLE → k'.state q = .RUNNABLE ∧ k'.pid q = k.pid q
  cpu : k'.cpu = k.cpu
  trace : ∃ es, k'.trace = es ++ k.trace ∧ ∀ i p found, Event.dispatched i p found ∉ es

namespace Undisturbed

variable {f : Proc → Proc}

protected theorem refl (k : Kernel) : Undisturbed k k :=
  ⟨fun _ h => ⟨h, rfl⟩, rfl, [], rfl, fun _ _ _ => not_mem_nil⟩

protected theorem trans (h1 : Undisturbed k k') (h2 : Undisturbed k' k'') : Undisturbed k k'' where
  waits := by
    intro q hq
    obtain ⟨hq', hpid⟩ := h1.waits q hq
    obtain ⟨hq'', hpid'⟩ := h2.waits q hq'
    exact ⟨hq'', hpid'.trans hpid⟩
  cpu := h2.cpu.trans h1.cpu
  trace := by
    obtain ⟨es1, htrace1, hnot1⟩ := h1.trace
    obtain ⟨es2, htrace2, hnot2⟩ := h2.trace
    refine ⟨es2 ++ es1, ?_, ?_⟩
    · rw [htrace2, htrace1, append_assoc]
    · intro i p found hmem
      rcases mem_append.mp hmem with h | h
      · exact hnot2 i p found h
      · exact hnot1 i p found h

theorem of_eq (hproc : k'.proc = k.proc) (hcpu : k'.cpu = k.cpu) (htrace : k'.trace = k.trace) :
    Undisturbed k k' where
  waits := by
    intro q hq
    refine ⟨?_, ?_⟩
    · rw [state, hproc]
      exact hq
    · rw [pid, hproc]
  cpu := hcpu
  trace := ⟨[], htrace, fun _ _ _ => not_mem_nil⟩

theorem setProc
    (hf : k.state c = .RUNNABLE → (f (k.proc c)).state = .RUNNABLE ∧ (f (k.proc c)).pid = k.pid c) :
    Undisturbed k (k.setProc c f) where
  waits := by
    intro q hq
    rw [state, pid, setProc_proc]
    by_cases hqc : q = c
    · subst hqc
      rw [if_pos rfl]
      exact hf hq
    · rw [if_neg hqc]
      exact ⟨hq, rfl⟩
  cpu := rfl
  trace := ⟨[], rfl, fun _ _ _ => not_mem_nil⟩

theorem setProc_of_ne (hc : k.state c ≠ .RUNNABLE) : Undisturbed k (k.setProc c f) :=
  setProc fun h => absurd h hc

theorem of_slot (c : Slot) (hc : k.state c ≠ .RUNNABLE) (hother : ∀ q, q ≠ c → k'.proc q = k.proc q)
    (hcpu : k'.cpu = k.cpu) (htrace : k'.trace = k.trace) : Undisturbed k k' where
  waits := by
    intro q hq
    have hne : q ≠ c := fun he => hc (he ▸ hq)
    rw [state, pid, hother q hne]
    exact ⟨hq, rfl⟩
  cpu := hcpu
  trace := ⟨[], htrace, fun _ _ _ => not_mem_nil⟩

theorem log (k : Kernel) {e : Event} (he : ∀ i p found, e ≠ .dispatched i p found) :
    Undisturbed k (k.log e) where
  waits := fun _ h => ⟨h, rfl⟩
  cpu := rfl
  trace := by
    refine ⟨[e], rfl, fun i p found hmem => ?_⟩
    exact he i p found (mem_singleton.mp hmem).symm

theorem makeRunnable (k : Kernel) (p : Slot) : Undisturbed k (k.makeRunnable .custom p).1 := by
  show Undisturbed k (k.setProc p fun r => { r with state := .RUNNABLE })
  exact setProc fun _ => ⟨rfl, rfl⟩

theorem wakeup1 (k : Kernel) (chan : Chan) : Undisturbed k (k.wakeup1 .custom chan) := by
  -- round by round of the loop over the table
  refine foldlRecOn (motive := Undisturbed k) slots (wakeOne .custom chan) (Undisturbed.refl k) ?_
  intro m hm p _
  unfold wakeOne
  split
  · exact hm.trans (makeRunnable m p)
  · exact hm

theorem passChildren (k : Kernel) (c : Slot) : Undisturbed k (k.passChildren .custom c) := by
  refine foldlRecOn (motive := Undisturbed k) slots (Kernel.reparentOne .custom c) (wakeup1 k _) ?_
  intro m hm p _
  have hpass : Undisturbed m (m.setProc p fun r => { r with parent := m.initproc }) :=
    setProc fun h => ⟨h, rfl⟩
  unfold Kernel.reparentOne
  split
  · dsimp only
    split
    · exact (hm.trans hpass).trans (wakeup1 _ _)
    · exact hm.trans hpass
  · exact hm

theorem reap (hp : k.state p = .ZOMBIE) : Undisturbed k (k.reap .custom c p) := by
  have hfree : Undisturbed k (k.setProc p fun r =>
      { r with kstack := none, pid := 0, parent := none, name := "", killed := false, state := .UNUSED }) := by
    apply setProc_of_ne
    rw [hp]
    decide
  exact hfree.trans (log _ fun _ _ _ h => nomatch h)

theorem settle {r : Kernel × Outcome} (h : Undisturbed k r.1) : Undisturbed k (settle c r) := by
  obtain ⟨k', o⟩ := r
  cases o with
  | ret v => exact h.trans (of_eq rfl rfl rfl)
  | exits => exact h.trans (of_eq rfl rfl rfl)

theorem forkReady (k : Kernel) (c np : Slot) : Undisturbed k (k.forkReady .custom c np).1 :=
  (makeRunnable k np).trans (log _ fun _ _ _ h => nomatch h)

theorem kill (k : Kernel) (pid : Int) : Undisturbed k (k.kill .custom pid).1 := by
  cases hp : k.findPid pid with
  | none =>
    unfold Kernel.kill
    rw [hp]
    exact .refl k
  | some p =>
    rw [kill_found .custom hp]
    show Undisturbed k (k.marked p)
    rw [marked_eq]
    apply setProc
    intro h
    rw [h]
    exact ⟨rfl, rfl⟩

end Undisturbed

/-! ## One label -/

def position (k : Kernel) : Nat := (k.cpu 0).p.elim 0 fun p => p.val + 1

inductive Turn (k : Kernel) : Kernel → Prop
  | quiet {k' : Kernel} (h : Undisturbed k k') : Turn k k'
  | walk {m : Kernel} {cpu : Nat → Cpu} (h : Undisturbed k m) :
      Turn k ({ m with cpu := cpu }.scanFrom 0 k.position)

theorem Turn.swtchBack (h : Undisturbed k m) : Turn k (m.swtchBack .custom 0) := by
  have hpos : k.position = (m.cpu 0).p.elim 0 fun p => p.val + 1 := by
    unfold position
    rw [h.cpu]
  have hwalk : Turn k ({ m with cpu := Function.update m.cpu 0 { m.cpu 0 with proc := none } }.scanFrom
      0 k.position) := .walk h
  rw [hpos] at hwalk
  exact hwalk

theorem Turn.sleep (h : Undisturbed k m) (hc : m.state c = .RUNNING) (chan : Chan)
    (ctx : Context) : Turn k (m.sleep .custom 0 c chan ctx) := by
  apply Turn.swtchBack
  apply h.trans
  apply Undisturbed.setProc_of_ne
  rw [hc]
  decide

theorem Turn.wait (h : Undisturbed k m) (hc : m.state c = .RUNNING) :
    Turn k (m.wait .custom 0 c) := by
  have hend := WaitEnd.wait .custom m 0 c
  generalize m.wait .custom 0 c = k' at hend ⊢
  cases hend with
  | @reaped p hpar hz hfind =>
    exact .quiet ((h.trans (Undisturbed.reap hz)).trans (.of_eq rfl rfl rfl))
  | failed => exact .quiet (h.trans (.of_eq rfl rfl rfl))
  | asleep => exact Turn.sleep h hc _ _

/-- `scheduler()` starts at the first slot when its loop has come to the end. -/
def Rested (k : Kernel) : Prop := (k.cpu 0).proc = none → (k.cpu 0).p = none

/-- **What a label of CPU 0 can do.** -/
theorem Turn.of_step (hb : k.Base) (hr : k.Rested) (ha : a.first = true)
    (hs : k.step .custom a = some k') : Turn k k' := by
  have st := Step.of_step hs
  cases st with
  | @userinit p kstack pgdir hi hl hn hp =>
    have hfree : k.state p ≠ .RUNNABLE := by
      rw [firstUnused_state hp]
      decide
    refine .quiet (.of_slot p hfree (fun q hq => ?_) rfl rfl)
    simp [Kernel.userinit, Kernel.makeRunnable, Kernel.setProc, allocStack, allocproc, hq]
  | @scheduler i hl hc =>
    obtain rfl : i = 0 := eq_of_beq ha
    -- the loop is at its beginning
    have hpos : k.position = 0 := by
      unfold position
      rw [hr hc]
      rfl
    have hwalk : Turn k (k.scanFrom 0 k.position) := .walk (Undisturbed.refl k)
    rw [hpos] at hwalk
    exact hwalk
  | @resume i c hc hl =>
    obtain rfl : i = 0 := eq_of_beq ha
    have hchan : Undisturbed k (k.setProc c fun r => { r with chan := .null }) :=
      Undisturbed.setProc fun h => ⟨h, rfl⟩
    rcases resume_cases .custom k 0 c with he | ⟨m, rfl, he | he⟩
    · rw [he]
      exact .quiet (.of_eq rfl rfl rfl)
    · rw [he]
      exact .quiet (hchan.trans (.of_eq rfl rfl rfl))
    · rw [he]
      refine Turn.wait hchan ?_
      rw [state, setProc_proc, if_pos rfl]
      exact hb.cpus.run_of_some 0 c hc
  | forkFull => exact .quiet (.refl k)
  | @forkAlloc i c np hc hl hf hu hn =>
    have hfree : k.state np ≠ .RUNNABLE := by
      rw [firstUnused_state hu]
      decide
    refine .quiet (.of_slot np hfree (fun q hq => ?_) rfl rfl)
    simp [setFrame, allocproc, Kernel.setProc, hq]
  | @forkKalloc i c np kalloc hc hf =>
    -- the slot is written without the lock, but it is the embryo of this `fork`
    have hembryo : k.state np ≠ .RUNNABLE := by
      rw [hb.forks.embryo c np (congrArg Frame.forking hf)]
      decide
    refine .quiet (.of_slot np hembryo (fun q hq => ?_) ?_ ?_)
    · cases kalloc <;> simp [setFrame, allocStack, Kernel.setProc, hq]
    · cases kalloc <;> rfl
    · cases kalloc <;> rfl
  | @forkCopy i c np copyuvm hc hf =>
    have hembryo : k.state np ≠ .RUNNABLE := by
      rw [hb.forks.embryo c np (congrArg Frame.forking hf)]
      decide
    refine .quiet (.of_slot np hembryo (fun q hq => ?_) ?_ ?_)
    · cases copyuvm <;> simp [setFrame, Kernel.forkCopy, Kernel.setProc, hq]
    · cases copyuvm <;> rfl
    · cases copyuvm <;> rfl
  | forkReady hc hl hf => exact .quiet (Undisturbed.settle (Undisturbed.forkReady k _ _))
  | @exit i c hc hl hf hi =>
    obtain rfl : i = 0 := eq_of_beq ha
    have hframe : Undisturbed k (k.setFrame c .idle) := .of_eq rfl rfl rfl
    have hpass := hframe.trans (Undisturbed.passChildren _ c)
    have hstill : Still k ((k.setFrame c .idle).passChildren .custom c) :=
      (Still.of_eq rfl rfl : Still k (k.setFrame c .idle)).trans (Still.passChildren .custom _ c)
    -- the process that exits was running, not waiting
    have hrunning := (hstill.running c).mpr (hb.cpus.run_of_some 0 c hc)
    unfold Kernel.exit
    generalize (k.setFrame c .idle).passChildren .custom c = m at hpass hrunning ⊢
    apply Turn.swtchBack
    refine (hpass.trans (Undisturbed.setProc_of_ne ?_)).trans
      (Undisturbed.log _ fun _ _ _ h => by cases h)
    rw [hrunning]
    decide
  | @wait i c hc hl hf =>
    obtain rfl : i = 0 := eq_of_beq ha
    exact Turn.wait (.refl k) (hb.cpus.run_of_some 0 c hc)
  | @yield i c hc hl =>
    obtain rfl : i = 0 := eq_of_beq ha
    apply Turn.swtchBack
    exact (Undisturbed.makeRunnable k c).trans (Undisturbed.setProc fun h => ⟨h, rfl⟩)
  | @sleep i c chan hc hl =>
    obtain rfl : i = 0 := eq_of_beq ha
    exact Turn.sleep (.refl k) (hb.cpus.run_of_some 0 c hc) _ _
  | wakeup hl => exact .quiet (Undisturbed.wakeup1 k _)
  | kill hc hl hf => exact .quiet (Undisturbed.settle (Undisturbed.kill k _))
  | niceFail hc hf hp => exact .quiet (.of_eq rfl rfl rfl)
  | niceFind hc hf hp => exact .quiet (.of_eq rfl rfl rfl)
  | @niceSet i c p priority hc hf =>
    have hset : Undisturbed k (k.niceSet p priority) := Undisturbed.setProc fun h => ⟨h, rfl⟩
    exact .quiet (hset.trans (.of_eq rfl rfl rfl))
  | niceRemove hc hf => exact .quiet (.of_eq rfl rfl rfl)
  | niceAdd hc hf => exact .quiet (.of_eq rfl rfl rfl)
  | fault hc => exact .quiet (Undisturbed.setProc fun h => ⟨h, rfl⟩)
  | race => exact .quiet (.of_eq rfl rfl rfl)

/-! ## The walk -/

/-- How many slots a walk from `n` passes before it comes to `q`, when it goes
    on at the first slot behind the last one. -/
def distance (n : Nat) (q : Slot) : Nat := if n ≤ q.val then q.val - n else q.val + NPROC - n

theorem distance_behind {r : Nat} (hnr : n ≤ r) (hr : r < NPROC) (hpass : n ≤ q.val → r < q.val)
    (h : distance n q < distance n p) : distance (r + 1) q < distance (r + 1) p := by
  have hp64 : p.val < NPROC := p.isLt
  have hq64 : q.val < NPROC := q.isLt
  unfold distance at h ⊢
  grind

theorem distance_last (hne : q ≠ p) : distance (p.val + 1) q < distance (p.val + 1) p := by
  have hp64 : p.val < NPROC := p.isLt
  have hq64 : q.val < NPROC := q.isLt
  have hval : q.val ≠ p.val := fun he => hne (Fin.ext he)
  unfold distance
  grind

theorem nextRunnable_le (hq : k.state q = .RUNNABLE) (hn : n ≤ q.val) :
    ∃ r, k.nextRunnable n = some r ∧ n ≤ r.val ∧ r.val ≤ q.val := by
  have hsome : (k.nextRunnable n).isSome := by
    unfold nextRunnable
    rw [find?_isSome]
    exact ⟨q, mem_slots q, by simp [hn, hq]⟩
  obtain ⟨r, hr⟩ := isSome_iff_exists.mp hsome
  have hr' := hr
  unfold nextRunnable at hr'
  rw [find?_eq_some_iff_append] at hr'
  obtain ⟨hprop, before, after, hsplit, hbefore⟩ := hr'
  have hnr : n ≤ r.val := by
    simp only [Bool.and_eq_true, decide_eq_true_eq] at hprop
    exact hprop.1
  refine ⟨r, hr, hnr, ?_⟩
  -- `q` is not among the slots in front of `r`, and the table is in order
  by_contra hlt
  have hsorted : (before ++ r :: after).Pairwise (· < ·) := by
    rw [← hsplit]
    exact pairwise_lt_finRange NPROC
  have hmem : q ∈ before ++ r :: after := by
    rw [← hsplit]
    exact mem_slots q
  have hq' : q ∈ before := by
    rcases mem_append.mp hmem with h | h
    · exact h
    · exfalso
      have htail := (pairwise_append.mp hsorted).2.1
      rcases mem_cons.mp h with h | h
      · subst h
        exact hlt (le_refl _)
      · have hrq : r < q := rel_of_pairwise_cons htail h
        have : r.val < q.val := hrq
        omega
  have := hbefore q hq'
  simp [hn, hq] at this

theorem nextRunnable_ge (h : k.nextRunnable n = some r) : n ≤ r.val := by
  have := find?_some h
  simp only [Bool.and_eq_true, decide_eq_true_eq] at this
  exact this.1

structure Before (q p : Slot) (pid : Int) (k : Kernel) : Prop where
  runnable : k.state q = .RUNNABLE
  pid : k.pid q = pid
  sooner : distance k.position q < distance k.position p

variable {pid : Int}

theorem position_scanFrom (k : Kernel) (n : Nat) :
    (k.scanFrom 0 n).position = (k.nextRunnable n).elim 0 fun r => r.val + 1 := by
  unfold scanFrom
  cases k.nextRunnable n with
  | some r => simp [position, dispatch, setCpu]
  | none => simp [position, setCpu]

theorem rested_scanFrom (k : Kernel) (n : Nat) : (k.scanFrom 0 n).Rested := by
  unfold scanFrom
  cases k.nextRunnable n with
  | some r => simp [Rested, dispatch, setCpu]
  | none => simp [Rested, setCpu]

theorem Before.scanFrom (hq : k.state q = .RUNNABLE) (hpid : k.pid q = pid)
    (h : distance n q < distance n p) : (k.nextRunnable n = some q) ∨
    (k.nextRunnable n ≠ some p ∧ Before q p pid (k.scanFrom 0 n)) := by
  have hp64 := p.isLt
  have hq64 := q.isLt
  cases hr : k.nextRunnable n with
  | none =>
    -- the end of the table: `q` was behind the walk, and `p` even further
    refine .inr ⟨nofun, ?_, ?_, ?_⟩
    · simpa [Kernel.scanFrom, hr, setCpu] using hq
    · simpa [Kernel.scanFrom, hr, setCpu] using hpid
    · have hlt : q.val < n := by
        by_contra hle
        obtain ⟨r, hr', -⟩ := nextRunnable_le hq (not_lt.mp hle)
        rw [hr] at hr'
        cases hr'
      rw [position_scanFrom, hr]
      simp only [distance, elim_none, Nat.zero_le, if_true] at h ⊢
      split_ifs at h <;> omega
  | some r =>
    by_cases hrq : r = q
    · exact .inl (by rw [hrq])
    · have hne : q.val ≠ r.val := fun he => hrq (Fin.ext he).symm
      have hnr := nextRunnable_ge hr
      have hpass : n ≤ q.val → r.val < q.val := by
        intro hle
        obtain ⟨r', hr', -, hle'⟩ := nextRunnable_le hq hle
        rw [hr, some.injEq] at hr'
        subst hr'
        omega
      refine .inr ⟨?_, ?_, ?_, ?_⟩
      · rintro hrp
        obtain rfl := some.inj hrp
        simp only [distance] at h
        split_ifs at h <;> omega
      · have hstate := state_dispatch k r q 0
        rw [if_neg fun he => hrq he.symm] at hstate
        simpa [Kernel.scanFrom, hr, hstate] using hq
      · have hproc : ((k.dispatch 0 r).proc q).pid = k.pid q :=
          setProc_kept k r q (fun r => { r with state := .RUNNING }) Proc.pid rfl
        simpa [Kernel.scanFrom, hr, Kernel.pid, hproc] using hpid
      · rw [position_scanFrom, hr]
        exact distance_behind hnr r.isLt hpass h

/-! ## Runs -/

theorem SwitchesTo.not_undisturbed (h : k.SwitchesTo p k') : ¬ Undisturbed k k' := by
  intro hu
  obtain ⟨found, es, hes⟩ := h
  obtain ⟨es', hes', hnot⟩ := hu.trace
  have hcancel : Event.dispatched 0 p found :: es ++ k.trace = es' ++ k.trace := hes.symm.trans hes'
  have heq := append_cancel_right hcancel
  exact hnot 0 p found (heq ▸ mem_cons_self)

theorem Undisturbed.walk_trace (h : Undisturbed k m)
    (hr : ({ m with cpu := cpu } : Kernel).nextRunnable n = some r) :
    k.SwitchesTo r ({ m with cpu := cpu }.scanFrom 0 n) := by
  obtain ⟨es, hes, -⟩ := h.trace
  refine ⟨m.state r, es, ?_⟩
  unfold scanFrom
  rw [hr]
  show Event.dispatched 0 r (m.state r) :: m.trace = _
  rw [hes]

theorem SwitchesTo.walk (hu : Undisturbed k m)
    (h : k.SwitchesTo p ({ m with cpu := cpu }.scanFrom 0 n)) :
    ({ m with cpu := cpu } : Kernel).nextRunnable n = some p := by
  cases hr : ({ m with cpu := cpu } : Kernel).nextRunnable n with
  | none =>
    -- a walk to the end of the table logs nothing
    have hm : k.SwitchesTo p m := by
      unfold scanFrom at h
      rw [hr] at h
      exact h
    exact absurd hu hm.not_undisturbed
  | some r =>
    obtain ⟨found, es, hes⟩ := h
    obtain ⟨found', es', hes'⟩ := hu.walk_trace hr
    have hcons := hes.symm.trans hes'
    simp only [cons.injEq, Event.dispatched.injEq] at hcons
    rw [hcons.1.2.1]

theorem Rested.turn (h : k.Rested) (ht : Turn k k') : k'.Rested := by
  cases ht with
  | quiet hu =>
    unfold Rested
    rw [hu.cpu]
    exact h
  | walk hu => exact rested_scanFrom _ _

/-- **One label does not change who is first**, except that it is switched to;
    and the other one is not. -/
theorem Before.turn (h : Before q p pid k) (ht : Turn k k') :
    ¬ k.SwitchesTo p k' ∧ (Before q p pid k' ∨ (k.SwitchesTo q k' ∧ k'.pid q = pid)) := by
  cases ht with
  | quiet hu =>
    obtain ⟨hrun, hpid⟩ := hu.waits q h.runnable
    refine ⟨fun hp => hp.not_undisturbed hu, .inl ⟨hrun, hpid.trans h.pid, ?_⟩⟩
    have hpos : k'.position = k.position := by
      unfold position
      rw [hu.cpu]
    rw [hpos]
    exact h.sooner
  | @walk m cpu hu =>
    obtain ⟨hrun, hpid⟩ := hu.waits q h.runnable
    have hscan := Before.scanFrom (k := { m with cpu := cpu }) hrun (hpid.trans h.pid) h.sooner
    rcases hscan with hq | ⟨hp, hbefore⟩
    · refine ⟨fun hswitch => ?_, .inr ⟨hu.walk_trace hq, ?_⟩⟩
      · -- `p` would be `q`, and no walk comes to `q` before `q`
        have hpq : some q = some p := hq.symm.trans (hswitch.walk hu)
        obtain rfl := some.inj hpq
        exact lt_irrefl _ h.sooner
      · unfold Kernel.scanFrom
        rw [hq]
        have hkept : ((m.setProc q fun r => { r with state := .RUNNING }).proc q).pid = m.pid q :=
          setProc_kept m q q _ Proc.pid rfl
        exact hkept.trans (hpid.trans h.pid)
    · exact ⟨fun hswitch => hp (hswitch.walk hu), .inl hbefore⟩

theorem base_rested_step (hb : k.Base ∧ k.Rested) (ha : a.first = true)
    (hs : k.step .custom a = some k') : k'.Base ∧ k'.Rested :=
  ⟨hb.1.step hs, hb.2.turn (Turn.of_step hb.1 hb.2 ha hs)⟩

theorem base_rested_run (hb : k.Base ∧ k.Rested) (ha : ∀ a ∈ acts, a.first = true)
    (hrun : run (step .custom) k acts = some k') : k'.Base ∧ k'.Rested := by
  induction acts generalizing k with
  | nil =>
    cases hrun
    exact hb
  | cons a acts ih =>
    obtain ⟨t, ht, hrun'⟩ := bind_eq_some_iff.mp hrun
    exact ih (base_rested_step hb (ha a mem_cons_self) ht)
      (fun a' ha' => ha a' (mem_cons_of_mem a ha')) hrun'

theorem Before.run (h : Before q p pid k) (hb : k.Base ∧ k.Rested) (ha : ∀ a ∈ acts, a.first = true)
    (hrun : Transition.run (Kernel.step .custom) k acts = some k') : Before q p pid k' ∨
    ∃ before a after m m', acts = before ++ a :: after ∧ Transition.run (Kernel.step .custom)
    k before = some m ∧ m.step .custom a = some m' ∧ m.SwitchesTo q m' ∧ m'.pid q = pid := by
  induction acts generalizing k with
  | nil =>
    cases hrun
    exact .inl h
  | cons a acts ih =>
    obtain ⟨t, ht, hrun'⟩ := bind_eq_some_iff.mp hrun
    have hfirst := ha a mem_cons_self
    have hturn := Turn.of_step hb.1 hb.2 hfirst ht
    rcases (h.turn hturn).2 with hstill | ⟨hswitch, hpid⟩
    · have hrest := ih hstill (base_rested_step hb hfirst ht)
        (fun a' ha' => ha a' (mem_cons_of_mem a ha')) hrun'
      rcases hrest with hend | ⟨before, a', after, m, m', rfl, hpre, hs, hswitch, hpid⟩
      · exact .inl hend
      · refine .inr ⟨a :: before, a', after, m, m', rfl, ?_, hs, hswitch, hpid⟩
        exact bind_eq_some_iff.mpr ⟨t, ht, hpre⟩
    · exact .inr ⟨[], a, acts, k, t, rfl, rfl, ht, hswitch, hpid⟩

theorem SwitchesTo.before (h : k.SwitchesTo p k') (ht : Turn k k') (hne : q ≠ p)
    (hq : k'.state q = .RUNNABLE) : Before q p (k'.pid q) k' := by
  refine ⟨hq, rfl, ?_⟩
  cases ht with
  | quiet hu => exact absurd hu h.not_undisturbed
  | walk hu =>
    rw [position_scanFrom, h.walk hu]
    exact distance_last hne

/-- **Everybody gets a turn.**  Take any run of the round-robin kernel on one CPU, and any two
    labels of it at which the scheduler switches to the slot `p`.  Every other process that is
    `RUNNABLE` after the first switch is switched to in between.  The two need not be consecutive,
    nor the same process. -/
theorem round_robin (acts mid : List Act) {a₁ a₂ : Act}
    (hone : ∀ a ∈ acts ++ a₁ :: (mid ++ [a₂]), a.first = true) {p : Slot} {k k₁ k₂ k₃ : Kernel}
    (hrun : run (step .custom) boot acts = some k)
    (hfirst : k.step .custom a₁ = some k₁) (hp₁ : k.SwitchesTo p k₁)
    (hmid : run (step .custom) k₁ mid = some k₂)
    (hsecond : k₂.step .custom a₂ = some k₃) (hp₂ : k₂.SwitchesTo p k₃) :
    ∀ q, q ≠ p → k₁.state q = .RUNNABLE → ∃ before a after m m', mid = before ++ a :: after ∧
        run (step .custom) k₁ before = some m ∧ m.step .custom a = some m' ∧
        m.SwitchesTo q m' ∧ m'.pid q = k₁.pid q := by
  intro q hne hq
  have hboot : boot.Base ∧ boot.Rested := ⟨base_boot, fun _ => rfl⟩
  have hk := base_rested_run hboot (fun a ha => hone a (mem_append_left _ ha)) hrun
  have ha₁ : a₁.first = true := hone a₁ (by simp)
  have ha₂ : a₂.first = true := hone a₂ (by simp)
  have hmids : ∀ a ∈ mid, a.first = true := fun a ha => hone a (by simp [ha])
  have hk₁ := base_rested_step hk ha₁ hfirst
  have hk₂ := base_rested_run hk₁ hmids hmid
  have hbefore : Before q p (k₁.pid q) k₁ := hp₁.before (Turn.of_step hk.1 hk.2 ha₁ hfirst) hne hq
  rcases hbefore.run hk₁ hmids hmid with hend | hturn
  · exact absurd hp₂ (hend.turn (Turn.of_step hk₂.1 hk₂.2 ha₂ hsecond)).1
  · exact hturn

/-- Two processes that yield to each other. -/
theorem round_robin_two :
    ∃ k k₁ k₂ k₃, run (step .custom) boot
        [.userinit 1 2, .scheduler 0, .resume 0, .forkAlloc 0, .forkKalloc 0 (some 3),
          .forkCopy 0 (some 4), .forkReady 0] = some k ∧
      k.step .custom (.yield 0) = some k₁ ∧ k.SwitchesTo 1 k₁ ∧ k₁.state 0 = .RUNNABLE ∧
      run (step .custom) k₁ [.resume 0, .yield 0, .scheduler 0, .resume 0] = some k₂ ∧
      k₂.step .custom (.yield 0) = some k₃ ∧ k₂.SwitchesTo 1 k₃ ∧
      ∃ before a after m m', [.resume 0, .yield 0, .scheduler 0, .resume 0] = before ++ a :: after ∧
        run (step .custom) k₁ before = some m ∧ m.step .custom a = some m' ∧
        m.SwitchesTo 0 m' ∧ m'.pid 0 = k₁.pid 0 := by
  have hcomputed : ∃ k, run (step .custom) boot
        [.userinit 1 2, .scheduler 0, .resume 0, .forkAlloc 0, .forkKalloc 0 (some 3),
          .forkCopy 0 (some 4), .forkReady 0] = some k ∧
      (k.step .custom (.yield 0)).any fun k₁ =>
        k₁.trace = .dispatched 0 1 .RUNNABLE :: k.trace ∧ k₁.state 0 = .RUNNABLE ∧
        (run (step .custom) k₁ [.resume 0, .yield 0, .scheduler 0, .resume 0]).any fun k₂ =>
          (k₂.step .custom (.yield 0)).any fun k₃ =>
            k₃.trace = .dispatched 0 1 .RUNNABLE :: k₂.trace := by
    exact exists_run (by decide +kernel)
  obtain ⟨k, hk, hany⟩ := hcomputed
  obtain ⟨k₁, hk₁, hrest⟩ := (any_eq_true _ _).mp hany
  obtain ⟨htrace₁, hq, hany₂⟩ := of_decide_eq_true hrest
  obtain ⟨k₂, hk₂, hany₃⟩ := (any_eq_true _ _).mp hany₂
  obtain ⟨k₃, hk₃, htrace₃⟩ := (any_eq_true _ _).mp hany₃
  have hp₁ : k.SwitchesTo 1 k₁ := ⟨_, [], htrace₁⟩
  have hp₃ : k₂.SwitchesTo 1 k₃ := ⟨_, [], of_decide_eq_true htrace₃⟩
  exact ⟨k, k₁, k₂, k₃, hk, hk₁, hp₁, hq, hk₂, hk₃, hp₃,
    round_robin _ _ (by decide) hk hk₁ hp₁ hk₂ hk₃ hp₃ 0 (by decide) hq⟩

end Kernel
end Xv6
