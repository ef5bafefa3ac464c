/-
  Xv6.Proc.Exclusive

  One CPU per process, over whole runs.  `ForkInv` and `CpuInv` are invariants
  of the interleaved machine in both builds; with them, so is the record of
  the states in which processes were dispatched.
-/

import Xv6.Proc.Effects

namespace Xv6
namespace Kernel

open Function Transition Frame

variable {b : Build} {k k' : Kernel} {a : Act}
variable {p c np : Slot} {f : Frame}

/-! ## Children under construction stay with their `fork` -/

theorem ForkInv.keep (h : k.ForkInv)
    (hframe : ∀ c, k'.frame c = k.frame c ∨ (k'.frame c).forking = none)
    (hchild : ∀ c np, (k.frame c).forking = some np → k'.frame c = k.frame c →
      k'.state np = .EMBRYO ∧ (k.frame c = .forkReady np → k'.parent np = k.parent np)) :
    k'.ForkInv := by
  -- who is inside `fork` afterwards was there before, in the same frame
  have hsame : ∀ c np, (k'.frame c).forking = some np → k'.frame c = k.frame c := by
    intro c np hf
    rcases hframe c with he | hn
    · exact he
    · rw [hn] at hf
      cases hf
  have hold : ∀ c np, (k'.frame c).forking = some np → (k.frame c).forking = some np := by
    intro c np hf
    rw [← hsame c np hf]
    exact hf
  refine ⟨fun c np hf => ?_, fun c c' np hf hf' => ?_, fun c np hf => ?_⟩
  · exact (hchild c np (hold c np hf) (hsame c np hf)).1
  · exact h.unique c c' np (hold c np hf) (hold c' np hf')
  · have hfork : (k'.frame c).forking = some np := congrArg forking hf
    have he := hsame c np hfork
    have hf0 : k.frame c = .forkReady np := he.symm.trans hf
    rw [(hchild c np (hold c np hfork) he).2 hf0]
    exact h.parent c np hf0

theorem ForkInv.sched (h : k.ForkInv) (hs : Sched k k') : k'.ForkInv := by
  refine h.keep (fun c => .inl (congrFun hs.frame c)) fun c np hf _ =>
    ⟨?_, fun _ => hs.parent_eq np⟩
  rw [← ProcState.life_eq_embryo]
  exact (hs.life_eq np).trans (ProcState.life_eq_embryo.mpr (h.embryo c np hf))

theorem ForkInv.other (h : k.ForkInv)
    (hframe : ∀ c, k'.frame c = k.frame c ∨ (k'.frame c).forking = none)
    (hproc : ∀ q, q ≠ p → k'.proc q = k.proc q)
    (hp : ∀ c, (k.frame c).forking = some p → k'.frame c ≠ k.frame c ∨
      (k'.state p = .EMBRYO ∧ k'.parent p = k.parent p)) : k'.ForkInv := by
  refine h.keep hframe fun c np hf he => ?_
  by_cases hnp : np = p
  · subst hnp
    obtain ⟨hstate, hpar⟩ := (hp c hf).resolve_left (not_not_intro he)
    exact ⟨hstate, fun _ => hpar⟩
  · rw [state, Kernel.parent, hproc np hnp]
    exact ⟨h.embryo c np hf, fun _ => rfl⟩

theorem update_frame (hf : f.forking = none) (c' : Slot) :
    update k.frame c f c' = k.frame c' ∨ (update k.frame c f c').forking = none := by
  by_cases hc : c' = c
  · right
    rw [hc, update_self]
    exact hf
  · left
    rw [update_of_ne hc]

theorem update_ne_of_forking (hf : f.forking = none)
    (hfork : (k.frame c).forking = some np) : update k.frame c f c ≠ k.frame c := by
  rw [update_self]
  rintro rfl
  rw [hf] at hfork
  cases hfork

theorem ForkInv.frames (h : k.ForkInv) (hproc : k'.proc = k.proc)
    (hframe : ∀ c, k'.frame c = k.frame c ∨ (k'.frame c).forking = none) : k'.ForkInv := by
  refine h.keep hframe fun c np hf _ => ?_
  rw [state, Kernel.parent, hproc]
  exact ⟨h.embryo c np hf, fun _ => rfl⟩

theorem ForkInv.done (h : k.ForkInv) (hc : (k.frame c).forking = some np)
    (hf : f.forking = none) (hframe : k'.frame = update k.frame c f)
    (hproc : ∀ q, q ≠ np → k'.proc q = k.proc q) : k'.ForkInv := by
  refine h.other (fun c' => ?_) hproc fun c' hf' => ?_
  · rw [hframe]
    exact update_frame hf c'
  · -- nobody else was building the child
    left
    rw [h.unique c' c np hf' hc, hframe]
    exact update_ne_of_forking hf hc

theorem ForkInv.not_forking (h : k.ForkInv) (hp : k.life p ≠ .embryo) (c : Slot) :
    (k.frame c).forking ≠ some p :=
  fun hf => hp (ProcState.life_eq_embryo.mpr (h.embryo c p hf))

theorem ForkInv.advance (h : k.ForkInv) {r : Proc}
    (hf : f.forking = some np) (hr : r.state = .EMBRYO)
    (hpar : f = .forkReady np → r.parent = some c)
    (hfree : ∀ c', c' ≠ c → (k.frame c').forking ≠ some np) (n : Int) :
    ({ k with proc := update k.proc np r, nextpid := n
              frame := update k.frame c f } : Kernel).ForkInv where
  embryo := by
    intro c' np' hf'
    simp only [state, update_apply] at hf' ⊢
    by_cases hnp : np' = np
    · rw [if_pos hnp]
      exact hr
    · rw [if_neg hnp]
      by_cases hc : c' = c
      · rw [if_pos hc, hf] at hf'
        exact absurd (Option.some.inj hf').symm hnp
      · rw [if_neg hc] at hf'
        exact h.embryo c' np' hf'
  unique := by
    intro c1 c2 np' hf1 hf2
    simp only [update_apply] at hf1 hf2
    -- the child `np` belongs to `c`, and every other child to its old owner
    have hkey : ∀ c', (if c' = c then f else k.frame c').forking = some np →
        c' = c := fun c' hc' => by
      by_contra hne
      rw [if_neg hne] at hc'
      exact hfree c' hne hc'
    by_cases hnp : np' = np
    · subst hnp
      rw [hkey c1 hf1, hkey c2 hf2]
    · have hold : ∀ c', (if c' = c then f else k.frame c').forking = some np' →
          (k.frame c').forking = some np' := fun c' hc' => by
        by_cases hc : c' = c
        · rw [if_pos hc, hf] at hc'
          exact absurd (Option.some.inj hc').symm hnp
        · rwa [if_neg hc] at hc'
      exact h.unique c1 c2 np' (hold c1 hf1) (hold c2 hf2)
  parent := by
    intro c' np' hf'
    simp only [Kernel.parent, update_apply] at hf' ⊢
    by_cases hc : c' = c
    · rw [if_pos hc] at hf'
      have hnp : np' = np := by
        rw [hf'] at hf
        exact Option.some.inj hf
      subst hnp
      rw [if_pos rfl, hc]
      exact hpar hf'
    · rw [if_neg hc] at hf'
      have hnp : np' ≠ np := by
        rintro rfl
        exact hfree c' hc (congrArg forking hf')
      rw [if_neg hnp]
      exact h.parent c' np' hf'

theorem ForkInv.effect (h : k.ForkInv) (e : Effect b k a k') : k'.ForkInv := by
  have hown : ∀ {c np}, (k.frame c).forking = some np →
      ∀ c', c' ≠ c → (k.frame c').forking ≠ some np :=
    fun hf c' hne hf' => hne (h.unique c' _ _ hf' hf)
  cases e with
  | sched ha hs => exact h.sched hs
  | @userinit p kstack pgdir rq hi hn hp =>
    refine h.other (fun c => .inl rfl) (fun q hq => update_of_ne hq ..) fun c hf => ?_
    refine absurd hf (h.not_forking ?_ c)
    rw [life, hp]
    decide
  | @claim i c np hc hf hn hp =>
    refine h.advance (f := .forkKalloc np) rfl rfl (fun he => by cases he) (fun c' _ => ?_) _
    refine h.not_forking ?_ c'
    rw [life, hp]
    decide
  | @stack i c np page hc hf =>
    have hfork : (k.frame c).forking = some np := congrArg forking hf
    refine h.advance (f := .forkCopy np) rfl ?_ (fun he => by cases he) (hown hfork) _
    exact h.embryo c np hfork
  | abandon ha hi hc hf => exact h.done hf rfl rfl fun q hq => update_of_ne hq ..
  | @copy i c np pgdir hc hf =>
    have hfork : (k.frame c).forking = some np := congrArg forking hf
    refine h.advance (f := .forkReady np) rfl ?_ (fun _ => rfl) (hown hfork) _
    exact h.embryo c np hfork
  | ready hc hf =>
    have hfork := congrArg forking hf
    exact h.done hfork rfl rfl fun q hq => update_of_ne hq ..
  | readyLost hc hf =>
    have hfork := congrArg forking hf
    exact h.done hfork rfl rfl fun q hq => update_of_ne hq ..
  | @exit i c k1 k' hc hf hi h1 h2 =>
    have hidle : (k.setFrame c .idle).ForkInv := h.frames rfl (update_frame rfl)
    have hrep : ((k.setFrame c .idle).reparent c).ForkInv := by
      refine hidle.keep (fun _ => .inl rfl) fun c' np hf' _ => ?_
      rw [state, Kernel.parent, reparent_proc, Proc.passFrom_state, Proc.passFrom_parent]
      refine ⟨hidle.embryo c' np hf', fun hr => if_neg ?_⟩
      -- the one who exits has no child under construction
      intro hpar
      cases hpar.symm.trans (hidle.parent c' np hr)
      simp [setFrame] at hr
    have h1' := hrep.sched h1
    refine ForkInv.sched ?_ h2
    refine h1'.other (p := c) (fun _ => .inl rfl) (fun q hq => ?_) fun c' hf' => ?_
    · simp [log, setProc, hq]
    · refine absurd hf' (h1'.not_forking ?_ c')
      rw [h1.reparented_life, hc]
      decide
  | @reap _ c p k1 rq ha hs hc hpar hp =>
    have h1 := h.sched hs
    refine h1.other (p := p) (fun _ => .inl rfl) (fun q hq => update_of_ne hq ..) fun c' hf' => ?_
    refine absurd hf' (h1.not_forking ?_ c')
    rw [hs.life_eq, hp]
    decide
  | @kill i c p pid rq f hc hf hp hend =>
    have hfork : f.forking = none := by
      rcases hend with rfl | rfl
      · rfl
      · rfl
    refine h.other (update_frame hfork) (fun q hq => update_of_ne hq ..) fun c' hf' => ?_
    -- an embryo is marked, but it does not sleep
    right
    have hemb := h.embryo c' p hf'
    simp [state, Kernel.parent] at hemb ⊢
    simp [hemb]
  | killMiss hc hf hp => exact h.frames rfl (update_frame rfl)
  | niceMiss hc hf hp => exact h.frames rfl (update_frame rfl)
  | niceFind hc hf hp hlo hhi => exact h.frames rfl (update_frame rfl)
  | @niceSet i c p priority hc hf =>
    refine h.other (update_frame rfl) (fun q hq => update_of_ne hq ..) fun c' hf' => ?_
    right
    simp [state, Kernel.parent]
    exact h.embryo c' p hf'
  | niceRemove hc hf => exact h.frames rfl (update_frame rfl)
  | niceAdd hc hf => exact h.frames rfl (update_frame rfl)
  | @fault i c hc =>
    refine h.other (fun _ => .inl rfl) (fun q hq => update_of_ne hq ..) fun c' hf' => ?_
    right
    simp [state, Kernel.parent]
    exact h.embryo c' c hf'

/-! ## Whole runs -/

/-- What the table invariants rest on. -/
structure Base (k : Kernel) : Prop where
  cpus : k.CpuInv
  forks : k.ForkInv

theorem base_boot : boot.Base where
  cpus := ⟨fun _ _ h => (by cases h), fun _ h => (by cases h), fun _ _ _ h => (by cases h)⟩
  forks := ⟨fun _ _ h => (by cases h), fun _ _ _ h => (by cases h), fun _ _ h => (by cases h)⟩

theorem Base.effect_of_step (h : k.Base) (hs : k.step b a = some k') : Effect b k a k' :=
  Effect.of_step h.cpus (Step.of_step hs)

theorem Base.step (h : k.Base) (hs : k.step b a = some k') : k'.Base where
  cpus := h.cpus.step h.forks (Step.of_step hs)
  forks := h.forks.effect (h.effect_of_step hs)

theorem invariant_of_effect {I : Kernel → Prop} (h0 : I boot)
    (hstep : ∀ k a k', k.Base → I k → Effect b k a k' → I k') (acts : List Act) :
    Along (step b) (fun k => k.Base ∧ I k) boot acts := by
  refine along_of_invariant ⟨base_boot, h0⟩ ?_ acts
  rintro k a k' ⟨hbase, hI⟩ hs
  exact ⟨hbase.step hs, hstep k a k' hbase hI (hbase.effect_of_step hs)⟩

/-- Every dispatch found its process `RUNNABLE`. -/
def DispatchInv (k : Kernel) : Prop :=
  ∀ i p st, .dispatched i p st ∈ k.trace → st = .RUNNABLE

theorem DispatchInv.effect (h : k.DispatchInv) (e : Effect b k a k') : k'.DispatchInv := by
  -- the states that scheduling passes through
  have hsched : ∀ {m m' : Kernel}, m.DispatchInv → Sched m m' → m'.DispatchInv := by
    intro m m' hm hs i p st hmem
    obtain ⟨ds, hds, hall⟩ := hs.trace
    rw [hds, List.mem_append] at hmem
    rcases hmem with hd | hold
    · obtain ⟨i', p', he⟩ := hall _ hd
      cases he
      rfl
    · exact hm i p st hold
  -- and an event of another kind in front
  have hcons : ∀ {m m' : Kernel} {e : Event}, m.DispatchInv → m'.trace = e :: m.trace →
      (∀ i p st, e ≠ .dispatched i p st) → m'.DispatchInv := by
    intro m m' e hm ht he i p st hmem
    rw [ht] at hmem
    rcases List.mem_cons.mp hmem with hd | hold
    · exact absurd hd.symm (he i p st)
    · exact hm i p st hold
  cases e with
  | sched ha hs => exact hsched h hs
  | ready hc hf => exact hcons h rfl (by simp)
  | exit hc hf hi h1 h2 =>
    refine hsched (hcons (hsched ?_ h1) rfl (by simp)) h2
    exact h
  | reap ha hs hc hpar hp => exact hcons (hsched h hs) rfl (by simp)
  | _ => exact h

/-- **One CPU per process, in both builds.**  Over any interleaving, a process
    is `RUNNING` exactly when it is `cpus[i].proc` for exactly one CPU, and a
    scheduler only ever switched to processes it found `RUNNABLE`.  Nothing is
    assumed about the queue entries or about `p` in the schedulers. -/
theorem one_cpu_per_process (b : Build) (acts : List Act) :
    Along (step b)
      (fun k => (∀ p, k.state p = .RUNNING ↔ ∃! i, (k.cpu i).proc = some p) ∧ k.DispatchInv)
      boot acts := by
  have hrun := invariant_of_effect (b := b) (I := DispatchInv) (fun i p st h => by cases h)
    (fun k a k' _ h e => h.effect e) acts
  refine hrun.mono fun k ⟨hbase, hdisp⟩ => ⟨fun p => ⟨fun hp => ?_, fun hi => ?_⟩, hdisp⟩
  · obtain ⟨i, hi⟩ := hbase.cpus.exists_cpu p hp
    exact ⟨i, hi, fun j hj => hbase.cpus.inj j i p hj hi⟩
  · obtain ⟨i, hi, -⟩ := hi
    exact hbase.cpus.run_of_some i p hi

end Kernel
end Xv6
