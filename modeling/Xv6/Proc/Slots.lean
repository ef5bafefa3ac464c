/-
  Xv6.Proc.Slots

  What every slot carries at all times: a pid below `nextpid` that no other
  slot carries unless it is 0, and a priority in the range that `nice` accepts,
  or 0 as long as the slot has never been allocated.
-/

import Xv6.Proc.Exclusive

namespace Xv6

def Frame.Within (m : Int) : Frame → Prop
  | .niceSet _ priority => 1 ≤ priority ∧ priority ≤ m
  | .niceRemove _ old priority => (0 ≤ old ∧ old ≤ m) ∧ 1 ≤ priority ∧ priority ≤ m
  | .niceAdd _ priority => 1 ≤ priority ∧ priority ≤ m
  | _ => True

namespace Kernel

open Transition Function

variable {b : Build} {k k' : Kernel} {a : Act} {p : Slot} {r : Proc}

/-! ## Pids -/

structure PidInv (k : Kernel) : Prop where
  range : ∀ p, 0 ≤ k.pid p ∧ k.pid p < k.nextpid
  pos : ∀ p, k.state p ≠ .UNUSED → k.pid p ≠ 0
  inj : ∀ p q, k.pid p ≠ 0 → k.pid q = k.pid p → q = p

theorem PidInv.update (h : k.PidInv) (hproc : k'.proc = Function.update k.proc p r)
    (hnext : k.nextpid ≤ k'.nextpid)
    (hpid : r.pid = 0 ∨ r.pid = k.pid p ∨ (r.pid = k.nextpid ∧ k.nextpid < k'.nextpid))
    (hpos : r.state ≠ .UNUSED → r.pid ≠ 0) : k'.PidInv := by
  have hself : k'.proc p = r := by rw [hproc, Function.update_self]
  have hother : ∀ q, q ≠ p → k'.proc q = k.proc q := by
    intro q hq
    rw [hproc, update_of_ne hq]
  have hpid_self : k'.pid p = r.pid := by rw [pid, hself]
  have hpid_other : ∀ q, q ≠ p → k'.pid q = k.pid q := by
    intro q hq
    rw [pid, hother q hq]
  have hp := h.range p
  refine ⟨fun q => ?_, fun q hq => ?_, fun q q' hq he => ?_⟩
  · by_cases hqp : q = p
    · subst hqp
      rw [hpid_self]
      omega
    · have hq := h.range q
      rw [hpid_other q hqp]
      omega
  · by_cases hqp : q = p
    · subst hqp
      rw [state, hself] at hq
      rw [hpid_self]
      exact hpos hq
    · rw [state, hother q hqp] at hq
      rw [hpid_other q hqp]
      exact h.pos q hq
  · -- a new pid is above all others, a kept one is the only one of its kind
    by_cases hqp : q = p
    · subst hqp
      by_contra hne
      have hq' := h.range q'
      rw [hpid_self] at hq he
      rw [hpid_other q' hne] at he
      rcases hpid with h0 | hold | ⟨hnew, -⟩
      · exact hq h0
      · exact hne (h.inj q q' (by rw [← hold]; exact hq) (he.trans hold))
      · omega
    · by_cases hq'p : q' = p
      · subst hq'p
        have hq0 := h.range q
        rw [hpid_other q hqp] at hq he
        rw [hpid_self] at he
        rcases hpid with h0 | hold | ⟨hnew, -⟩
        · exact absurd (he.symm.trans h0) hq
        · exact h.inj q q' hq (hold.symm.trans he)
        · omega
      · rw [hpid_other q hqp] at hq he
        rw [hpid_other q' hq'p] at he
        exact h.inj q q' hq he

theorem PidInv.same (h : k.PidInv) (hproc : ∀ q, k'.pid q = k.pid q)
    (hused : ∀ q, k'.state q ≠ .UNUSED → k.state q ≠ .UNUSED) (hnext : k'.nextpid = k.nextpid) :
    k'.PidInv := by
  refine ⟨fun q => ?_, fun q hq => ?_, fun q q' hq he => ?_⟩
  · rw [hproc, hnext]
    exact h.range q
  · rw [hproc]
    exact h.pos q (hused q hq)
  · rw [hproc] at hq
    rw [hproc, hproc] at he
    exact h.inj q q' hq he

theorem PidInv.sched (h : k.PidInv) (hs : Sched k k') : k'.PidInv := by
  refine h.same hs.pid_eq (fun q hq hu => hq ?_) hs.nextpid
  rw [← ProcState.life_eq_free] at hu ⊢
  exact (hs.life_eq q).trans hu

theorem PidInv.effect (h : k.PidInv) (hfork : k.ForkInv) (e : Effect b k a k') : k'.PidInv := by
  -- three kinds of steps: a new pid, a cleared pid, and pids as they were
  cases e with
  | sched ha hs => exact h.sched hs
  | @userinit p kstack pgdir rq hi hn hp =>
    have hr := h.range p
    refine h.update rfl ?_ (.inr (.inr ⟨rfl, ?_⟩)) fun _ => ?_
    · show k.nextpid ≤ k.nextpid + 1
      omega
    · show k.nextpid < k.nextpid + 1
      omega
    · show k.nextpid ≠ 0
      omega
  | @claim i c np hc hf hn hp =>
    have hr := h.range np
    refine h.update rfl ?_ (.inr (.inr ⟨rfl, ?_⟩)) fun _ => ?_
    · show k.nextpid ≤ k.nextpid + 1
      omega
    · show k.nextpid < k.nextpid + 1
      omega
    · show k.nextpid ≠ 0
      omega
  | @stack i c np page hc hf =>
    exact h.update rfl le_rfl (.inr (.inl rfl)) (h.pos np)
  | @abandon _ i c np pgdir ha hi hc hf =>
    -- a failed `fork` leaves its pid in the free slot
    exact h.update rfl le_rfl (.inr (.inl rfl)) fun hu => absurd rfl hu
  | @copy i c np pgdir hc hf =>
    exact h.update rfl le_rfl (.inr (.inl rfl)) (h.pos np)
  | @ready i c np rq hc hf =>
    have hemb := hfork.embryo c np (congrArg Frame.forking hf)
    exact h.update rfl le_rfl (.inr (.inl rfl)) fun _ => h.pos np (by rw [hemb]; decide)
  | @readyLost i c np rq hc hf =>
    have hemb := hfork.embryo c np (congrArg Frame.forking hf)
    exact h.update rfl le_rfl (.inr (.inl rfl)) fun _ => h.pos np (by rw [hemb]; decide)
  | @exit i c k1 k' hc hf hi h1 h2 =>
    have h1' : k1.PidInv := by
      refine h.same h1.reparented_pid (fun q hq hu => hq ?_) h1.nextpid
      rw [← ProcState.life_eq_free] at hu ⊢
      exact (h1.reparented_life q).trans hu
    refine PidInv.sched ?_ h2
    refine h1'.update (p := c) rfl le_rfl (.inr (.inl rfl)) fun _ => ?_
    refine h1'.pos c fun hu => ?_
    rw [← ProcState.life_eq_free] at hu
    have hlive : (k1.state c).life = .live := (h1.reparented_life c).trans hc
    rw [hlive] at hu
    cases hu
  | reap ha hs hc hpar hp =>
    exact (h.sched hs).update rfl le_rfl (.inl rfl) fun hu => absurd rfl hu
  | @kill i c p pid rq f hc hf hp hend =>
    -- a free slot stays free: `kill` only wakes sleepers
    refine h.update rfl le_rfl (.inr (.inl rfl)) fun hu => h.pos p fun hfree => hu ?_
    simp only [hfree, reduceCtorEq, if_false]
  | killMiss hc hf hp => exact h.same (fun _ => rfl) (fun _ hu => hu) rfl
  | niceMiss hc hf hp => exact h.same (fun _ => rfl) (fun _ hu => hu) rfl
  | niceFind hc hf hp hlo hhi => exact h.same (fun _ => rfl) (fun _ hu => hu) rfl
  | @niceSet i c p priority hc hf =>
    exact h.update rfl le_rfl (.inr (.inl rfl)) (h.pos p)
  | niceRemove hc hf => exact h.same (fun _ => rfl) (fun _ hu => hu) rfl
  | niceAdd hc hf => exact h.same (fun _ => rfl) (fun _ hu => hu) rfl
  | @fault i c hc => exact h.update rfl le_rfl (.inr (.inl rfl)) (h.pos c)

theorem pidInv_boot : boot.PidInv where
  range := fun _ => ⟨le_refl 0, Int.zero_lt_one⟩
  pos := fun _ h => absurd rfl h
  inj := fun _ _ h => absurd rfl h

/-! ## Priorities -/

structure PrioInv (m : Int) (k : Kernel) : Prop where
  range : ∀ p, 0 ≤ k.priority p ∧ k.priority p ≤ m
  pos : ∀ p, k.pid p ≠ 0 → 1 ≤ k.priority p
  frames : ∀ c, (k.frame c).Within m

variable {m : Int}

theorem PrioInv.update (h : k.PrioInv m) (hproc : k'.proc = Function.update k.proc p r)
    (hr : 0 ≤ r.priority ∧ r.priority ≤ m) (hpos : r.pid ≠ 0 → 1 ≤ r.priority)
    (hframes : ∀ c, (k'.frame c).Within m) : k'.PrioInv m := by
  refine ⟨fun q => ?_, fun q hq => ?_, hframes⟩
  · rw [priority, hproc]
    by_cases hqp : q = p
    · subst hqp
      rw [Function.update_self]
      exact hr
    · rw [update_of_ne hqp]
      exact h.range q
  · rw [pid, hproc] at hq
    rw [priority, hproc]
    by_cases hqp : q = p
    · subst hqp
      rw [Function.update_self] at hq ⊢
      exact hpos hq
    · rw [update_of_ne hqp] at hq ⊢
      exact h.pos q hq

theorem PrioInv.same (h : k.PrioInv m) (hprio : ∀ q, k'.priority q = k.priority q)
    (hpid : ∀ q, k'.pid q = k.pid q) (hframes : ∀ c, (k'.frame c).Within m) : k'.PrioInv m := by
  refine ⟨fun q => ?_, fun q hq => ?_, hframes⟩
  · rw [hprio]
    exact h.range q
  · rw [hpid] at hq
    rw [hprio]
    exact h.pos q hq

theorem PrioInv.sched (h : k.PrioInv m) (hs : Sched k k') : k'.PrioInv m :=
  h.same hs.priority_eq hs.pid_eq (fun c => by rw [hs.frame]; exact h.frames c)

theorem PrioInv.frames_update (h : k.PrioInv m) (c : Slot) {f : Frame} (hf : f.Within m)
    (c' : Slot) : (Function.update k.frame c f c').Within m := by
  by_cases hc : c' = c
  · rw [hc, Function.update_self]
    exact hf
  · rw [update_of_ne hc]
    exact h.frames c'

theorem PrioInv.effect (h : k.PrioInv m) (hm : 3 ≤ m)
    (hnice : ∀ i pid v p, a = .niceFind i pid v → k.findPid pid = some p → v ≤ 5 → v ≤ m)
    (e : Effect b k a k') : k'.PrioInv m := by
  -- the priority `allocproc` hands out
  have hlo : (0 : Int) ≤ 3 := by decide
  have hone : (1 : Int) ≤ 3 := by decide
  cases e with
  | sched ha hs => exact h.sched hs
  | @userinit p kstack pgdir rq hi hn hp =>
    exact h.update rfl ⟨hlo, hm⟩ (fun _ => hone) h.frames
  | @claim i c np hc hf hn hp =>
    exact h.update rfl ⟨hlo, hm⟩ (fun _ => hone) (h.frames_update c trivial)
  | @stack i c np page hc hf =>
    exact h.update rfl (h.range np) (h.pos np) (h.frames_update c trivial)
  | @abandon _ i c np pgdir ha hi hc hf =>
    exact h.update rfl (h.range np) (h.pos np) (h.frames_update c trivial)
  | @copy i c np pgdir hc hf =>
    exact h.update rfl (h.range np) (h.pos np) (h.frames_update c trivial)
  | @ready i c np rq hc hf =>
    exact h.update rfl (h.range np) (h.pos np) (h.frames_update c trivial)
  | @readyLost i c np rq hc hf =>
    exact h.update rfl (h.range np) (h.pos np) (h.frames_update c trivial)
  | @exit i c k1 k' hc hf hi h1 h2 =>
    have h1' : k1.PrioInv m := by
      refine h.same h1.reparented_priority h1.reparented_pid fun c' => ?_
      rw [h1.frame]
      exact h.frames_update (f := .idle) c trivial c'
    refine PrioInv.sched ?_ h2
    exact h1'.update (p := c) rfl (h1'.range c) (h1'.pos c) h1'.frames
  | @reap _ c p k1 rq ha hs hc hpar hp =>
    -- the priority outlives the process, but the pid is 0 from here on
    exact (h.sched hs).update rfl ((h.sched hs).range p) (fun h0 => absurd rfl h0) (h.sched hs).frames
  | @kill i c p pid rq f hc hf hp hend =>
    have hf' : f.Within m := by
      rcases hend with rfl | rfl
      · trivial
      · trivial
    exact h.update rfl (h.range p) (h.pos p) (h.frames_update c hf')
  | @killMiss i c pid hc hf hp =>
    exact h.same (fun _ => rfl) (fun _ => rfl) (h.frames_update c trivial)
  | @niceMiss i c pid priority hc hf hp =>
    exact h.same (fun _ => rfl) (fun _ => rfl) (h.frames_update c trivial)
  | @niceFind i c p pid priority hc hf hp hlo hhi =>
    have hle := hnice i pid priority p rfl hp hhi
    exact h.same (fun _ => rfl) (fun _ => rfl) (h.frames_update c ⟨hlo, hle⟩)
  | @niceSet i c p priority hc hf =>
    -- the bounds checked at the beginning of `nice` are in the frame
    have hset : (Frame.niceSet p priority).Within m := hf ▸ h.frames c
    obtain ⟨hlo, hle⟩ := hset
    refine h.update rfl ⟨?_, hle⟩ (fun _ => hlo) (h.frames_update c ⟨h.range p, hlo, hle⟩)
    show 0 ≤ priority
    omega
  | @niceRemove i c p old priority rq hc hf =>
    have hrem : (Frame.niceRemove p old priority).Within m := hf ▸ h.frames c
    exact h.same (fun _ => rfl) (fun _ => rfl) (h.frames_update c hrem.2)
  | @niceAdd i c p priority rq hc hf =>
    exact h.same (fun _ => rfl) (fun _ => rfl) (h.frames_update c trivial)
  | @fault i c hc => exact h.update rfl (h.range c) (h.pos c) h.frames

theorem prioInv_boot (hm : 3 ≤ m) : boot.PrioInv m where
  range := fun _ => ⟨le_refl 0, le_trans (by decide : (0 : Int) ≤ 3) hm⟩
  pos := fun _ h => absurd rfl h
  frames := fun _ => trivial

/-! ## Every reachable state -/

structure Sound (k : Kernel) : Prop where
  base : k.Base
  pids : k.PidInv
  prios : k.PrioInv 5

theorem sound_boot : boot.Sound := ⟨base_boot, pidInv_boot, prioInv_boot (by decide)⟩

theorem Sound.step (h : k.Sound) (hs : k.step b a = some k') : k'.Sound := by
  have e := h.base.effect_of_step hs
  refine ⟨h.base.step hs, h.pids.effect h.base.forks e, ?_⟩
  exact h.prios.effect (by decide) (fun _ _ _ _ _ _ hv => hv) e

theorem sound_run (b : Build) (acts : List Act) : Along (Kernel.step b) Sound boot acts :=
  along_of_invariant sound_boot (fun _ _ _ h hs => h.step hs) acts

theorem PidInv.findPid_eq (h : k.PidInv) (hp : k.pid p ≠ 0) : k.findPid (k.pid p) = some p := by
  cases hf : k.findPid (k.pid p) with
  | none => exact absurd rfl (findPid_eq_none.mp hf p)
  | some q => rw [h.inj p q hp (findPid_pid hf)]

/-- **Process numbers.**  In every interleaving a slot in use has a pid of its own, by which the
    searches of `kill` and `nice` find it and no other, and a priority from 1 to 5. -/
theorem pids_identify (b : Build) (acts : List Act) :
    Along (Kernel.step b) (fun k => ∀ p, k.state p ≠ .UNUSED →
      0 < k.pid p ∧ k.pid p < k.nextpid ∧ (∀ q, k.pid q = k.pid p → q = p) ∧
      k.findPid (k.pid p) = some p ∧ 1 ≤ k.priority p ∧ k.priority p ≤ 5) boot acts := by
  refine (sound_run b acts).mono fun k h p hp => ?_
  have h0 := h.pids.pos p hp
  have hr := h.pids.range p
  exact ⟨by omega, hr.2, fun q => h.pids.inj p q h0, h.pids.findPid_eq h0, h.prios.pos p h0,
    (h.prios.range p).2⟩

end Kernel
end Xv6
