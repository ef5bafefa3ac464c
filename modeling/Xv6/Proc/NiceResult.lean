/-
  Xv6.Proc.NiceResult

  The value `nice` returns and what its callers read out of it.

  The kernel returns `pid*MOD+old_priority`; nice.c and test1_nice.c take it
  apart with `res/MOD` and `res%MOD`, and test1_nice.c takes a negative value
  for a failure.  Here the size of `int` matters: `nextpid` counts up with every
  `fork`, and nothing keeps it below `INT_MAX / MOD`.
-/

import Xv6.Proc.Slots

namespace Xv6

open Function Transition

/-! ## 32-bit results -/

def wrapInt (x : Int) : Int := x.bmod (2 ^ 32)

theorem wrapInt_of_range {x : Int} (h0 : -2 ^ 31 ≤ x) (h1 : x < 2 ^ 31) : wrapInt x = x := by
  unfold wrapInt
  apply Int.bmod_eq_of_le
  · omega
  · omega

theorem wrapInt_le (x : Int) : wrapInt x ≤ INT_MAX := by
  have h : x.bmod (2 ^ 32) < (((2 ^ 32 : Nat) : Int) + 1) / 2 := Int.bmod_lt (by decide)
  unfold wrapInt
  simp only [INT_MAX]
  omega

/-- `return (pid*MOD+old_priority)`. -/
def niceResult (pid old : Int) : Int := wrapInt (wrapInt (pid * MOD) + old)

/-- What the callers print as the pid: `res/MOD`. -/
def resultPid (res : Int) : Int := wrapInt (res.tdiv MOD)

def resultPriority (res : Int) : Int := wrapInt (res.tmod MOD)

/-- The caller does not take the result for a failure and reads out of it what went in. -/
structure Decodes (res pid old : Int) : Prop where
  nonneg : 0 ≤ res
  pid : resultPid res = pid
  priority : resultPriority res = old

theorem decodes_of_fits {pid old : Int} (hpid : 0 ≤ pid) (hold : 0 ≤ old ∧ old ≤ 5)
    (hfits : pid * MOD + old ≤ INT_MAX) : Decodes (niceResult pid old) pid old := by
  simp only [INT_MAX, MOD] at hfits
  have hprod : wrapInt (pid * 65) = pid * 65 := wrapInt_of_range (by omega) (by omega)
  have hres : niceResult pid old = pid * 65 + old := by
    unfold niceResult MOD
    rw [hprod]
    exact wrapInt_of_range (by omega) (by omega)
  have hdiv : (pid * 65 + old).tdiv 65 = pid := by
    rw [Int.tdiv_eq_ediv_of_nonneg (by omega)]
    omega
  have hmod : (pid * 65 + old).tmod 65 = old := by
    rw [Int.tmod_eq_emod_of_nonneg (by omega)]
    omega
  rw [hres]
  refine ⟨by omega, ?_, ?_⟩
  · unfold resultPid MOD
    rw [hdiv]
    exact wrapInt_of_range (by omega) (by omega)
  · unfold resultPriority MOD
    rw [hmod]
    exact wrapInt_of_range (by omega) (by omega)

/-- Dividing brings a number back only from a product at least as large, and no
    `int` is larger than `INT_MAX`. -/
theorem Decodes.fits {res pid old : Int} (hres : res ≤ INT_MAX) (h : Decodes res pid old) :
    pid * MOD + old ≤ INT_MAX := by
  obtain ⟨hnonneg, hpid, hprio⟩ := h
  unfold resultPid MOD at hpid
  unfold resultPriority MOD at hprio
  simp only [INT_MAX, MOD] at hres ⊢
  rw [Int.tdiv_eq_ediv_of_nonneg hnonneg] at hpid
  rw [Int.tmod_eq_emod_of_nonneg hnonneg] at hprio
  rw [wrapInt_of_range (by omega) (by omega)] at hpid hprio
  omega

namespace Kernel

variable {b : Build} {k k' : Kernel} {c np p : Slot} {n : Int}

def nice (k : Kernel) (pid priority : Int) : Kernel × Outcome :=
  match k.niceFind pid priority with
  | none => (k, .exits)
  | some p => (k.niceTail p priority, .ret (niceResult pid (k.priority p)))

theorem Sound.nice_live (h : k.Sound) (hp : k.state p ≠ .UNUSED) {v : Int} (hv : 1 ≤ v ∧ v ≤ 5) :
    k.nice (k.pid p) v = (k.niceTail p v, .ret (niceResult (k.pid p) (k.priority p))) := by
  have hfind : k.niceFind (k.pid p) v = some p := by
    unfold niceFind
    rw [if_neg (by omega)]
    exact h.pids.findPid_eq (h.pids.pos p hp)
  unfold nice
  rw [hfind]

/-- **What `nice` returns decodes** to the pid and the old priority of the process, in every state a
    run can reach, exactly as long as the packed value fits an `int`. -/
theorem nice_decodes_iff (hk : Reachable (step b) boot k) (hp : k.state p ≠ .UNUSED) {v : Int}
    (hv : 1 ≤ v ∧ v ≤ 5) :
    ∃ res, k.nice (k.pid p) v = (k.niceTail p v, .ret res) ∧
      (Decodes res (k.pid p) (k.priority p) ↔ k.pid p * MOD + k.priority p ≤ INT_MAX) := by
  have hsound : k.Sound := hk.invariant sound_boot fun s a s' hs hstep => Sound.step hs hstep
  refine ⟨_, hsound.nice_live hp hv, ?_, ?_⟩
  · intro h
    exact h.fits (wrapInt_le _)
  · intro hfits
    exact decodes_of_fits (hsound.pids.range p).1 (hsound.prios.range p) hfits

/-! ## A long run of forks

A `fork` that finds a slot takes a pid from `nextpid`, also when it then finds
no page for the kernel stack and gives the slot back. -/

/-- A process runs on CPU 0 outside of any call, and `allocproc` would find
    `np` and give it the pid `n`. -/
structure CanFork (k : Kernel) (c np : Slot) (n : Int) : Prop where
  cpu : (k.cpu 0).proc = some c
  lock : k.lock = none
  frame : k.frame c = .idle
  unused : k.firstUnused = some np
  nextpid : k.nextpid = n

theorem CanFork.alloc (h : k.CanFork c np n) (hn : n < INT_MAX) :
    k.step b (.forkAlloc 0) = some ((k.allocproc np).setFrame c (.forkKalloc np)) := by
  have hnext : k.nextpid < INT_MAX := by
    rw [h.nextpid]
    exact hn
  simp only [step, onCpu, h.cpu, Option.bind_some, h.lock, h.frame, and_self, if_true, h.unused,
    hnext]

theorem CanFork.fork_fails (h : k.CanFork c np n) (hn : n < INT_MAX) :
    ∃ k', Reachable (step b) k k' ∧ k'.CanFork c np (n + 1) := by
  let k1 := (k.allocproc np).setFrame c (.forkKalloc np)
  have hcpu : (k1.cpu 0).proc = some c := h.cpu
  have hlock : k1.lock = none := h.lock
  have hframe : k1.frame c = .forkKalloc np := update_self ..
  have hstep : k1.step b (.forkKalloc 0 none) =
      some ((k1.allocStack np none).setFrame c .idle) := by
    simp [step, onCpu, hcpu, hlock, hframe]
  refine ⟨_, .tail (.tail .refl (h.alloc hn)) hstep, hcpu, hlock, update_self .., ?_, ?_⟩
  · -- the slot is as unused as before
    have hnp : k.state np = .UNUSED := firstUnused_state h.unused
    have hstate : ∀ q, ((k1.allocStack np none).setFrame c .idle).state q = k.state q := by
      intro q
      by_cases hq : q = np
      · subst hq
        rw [hnp]
        simp [state, setFrame, allocStack, setProc]
      · simp [k1, state, setFrame, allocStack, setProc, allocproc, hq]
    unfold firstUnused
    simp only [hstate]
    exact h.unused
  · show k.nextpid + 1 = n + 1
    rw [h.nextpid]

theorem CanFork.forks_fail (h : k.CanFork c np n) (m : Nat) (hm : n + m ≤ INT_MAX) :
    ∃ k', Reachable (step b) k k' ∧ k'.CanFork c np (n + m) := by
  induction m with
  | zero => exact ⟨k, .refl, by simpa using h⟩
  | succ m ih =>
    obtain ⟨k1, hreach1, hcan1⟩ := ih (by omega)
    obtain ⟨k2, hreach2, hcan2⟩ := hcan1.fork_fails (b := b) (by omega)
    refine ⟨k2, hreach1.trans hreach2, ?_⟩
    rw [show n + ((m + 1 : Nat) : Int) = n + m + 1 by omega]
    exact hcan2

theorem CanFork.fork_succeeds (h : k.CanFork c np n) (hn : n < INT_MAX) : ∃ k', Reachable (step b)
    k k' ∧ k'.state np = .RUNNABLE ∧ k'.pid np = n ∧ k'.priority np = 3 := by
  let k1 := (k.allocproc np).setFrame c (.forkKalloc np)
  let k2 := (k1.allocStack np (some 1)).setFrame c (.forkCopy np)
  let k3 := (k2.forkCopy c np (some 1)).setFrame c (.forkReady np)
  have hkalloc : k1.step b (.forkKalloc 0 (some 1)) = some k2 := by
    have hframe : k1.frame c = .forkKalloc np := update_self ..
    have hcpu : (k1.cpu 0).proc = some c := h.cpu
    have hlock : k1.lock = none := h.lock
    simp [step, onCpu, hcpu, hlock, hframe, k2]
  have hcopy : k2.step b (.forkCopy 0 (some 1)) = some k3 := by
    have hframe : k2.frame c = .forkCopy np := update_self ..
    have hcpu : (k2.cpu 0).proc = some c := h.cpu
    have hlock : k2.lock = none := h.lock
    simp [step, onCpu, hcpu, hlock, hframe, k3]
  have hready : k3.step b (.forkReady 0) = some (settle c (k3.forkReady b c np)) := by
    have hframe : k3.frame c = .forkReady np := update_self ..
    have hcpu : (k3.cpu 0).proc = some c := h.cpu
    have hlock : k3.lock = none := h.lock
    simp [step, onCpu, hcpu, hlock, hframe]
  have hproc : (settle c (k3.forkReady b c np)).proc np =
      { k3.proc np with state := .RUNNABLE } := by
    have hmake : (k3.makeRunnable b np).1.proc np = { k3.proc np with state := .RUNNABLE } := by
      cases b <;> exact update_self ..
    unfold forkReady
    dsimp only
    split
    · exact hmake
    · exact hmake
  have hpid : (k3.proc np).pid = n := by
    simp [k3, k2, k1, setFrame, forkCopy, allocStack, setProc, allocproc, h.nextpid]
  have hprio : (k3.proc np).priority = 3 := by
    simp [k3, k2, k1, setFrame, forkCopy, allocStack, setProc, allocproc]
  refine ⟨_, .tail (.tail (.tail (.tail .refl (h.alloc hn)) hkalloc) hcopy) hready, ?_, ?_, ?_⟩
  · show (Kernel.proc _ np).state = _
    rw [hproc]
  · show (Kernel.proc _ np).pid = _
    rw [hproc]
    exact hpid
  · show (Kernel.proc _ np).priority = _
    rw [hproc]
    exact hprio

theorem canFork_init (b : Build) : ∃ k c np, Reachable (step b) boot k ∧ k.CanFork c np 2 := by
  obtain ⟨k, hrun, hcpu, hlock, hnp, hnext⟩ :
      ∃ k, run (step b) boot [.userinit 1 2, .scheduler 0, .resume 0] = some k ∧
        (k.cpu 0).proc.any (fun c => decide (k.frame c = .idle)) = true ∧ k.lock = none ∧
        k.firstUnused.isSome ∧ k.nextpid = 2 := by
    cases b
    · exact exists_run (by decide +kernel)
    · exact exists_run (by decide +kernel)
  obtain ⟨c, hc, hframe⟩ := (Option.any_eq_true _ _).mp hcpu
  obtain ⟨np, hnp⟩ := Option.isSome_iff_exists.mp hnp
  exact ⟨k, c, np, Reachable.of_run hrun, hc, hlock, of_decide_eq_true hframe, hnp, hnext⟩

theorem exists_child (b : Build) (pid : Int) (h2 : 2 ≤ pid) (hmax : pid < INT_MAX) : ∃ k p,
    Reachable (step b) boot k ∧ k.state p = .RUNNABLE ∧ k.pid p = pid ∧ k.priority p = 3 := by
  obtain ⟨k0, c, np, hreach0, hcan0⟩ := canFork_init b
  obtain ⟨k1, hreach1, hcan1⟩ := hcan0.forks_fail (b := b) (pid - 2).toNat (by omega)
  obtain ⟨k2, hreach2, hstate, hpid, hprio⟩ := hcan1.fork_succeeds (b := b) (by omega)
  refine ⟨k2, np, (hreach0.trans hreach1).trans hreach2, hstate, ?_, hprio⟩
  rw [hpid]
  omega

/-- The child with pid 2 gets its pid and its priority back. -/
theorem nice_small_pid :
    ∃ k p, Reachable (step .priority) boot k ∧ k.state p ≠ .UNUSED ∧
      ∃ res, k.nice (k.pid p) 4 = (k.niceTail p 4, .ret res) ∧ Decodes res 2 3 := by
  obtain ⟨k, p, hreach, hstate, hpid, hprio⟩ := exists_child .priority 2 (by decide) (by decide)
  have hlive : k.state p ≠ .UNUSED := by
    rw [hstate]
    decide
  obtain ⟨res, hnice, hiff⟩ := nice_decodes_iff hreach hlive (v := 4) (by decide)
  rw [hpid, hprio] at hiff
  exact ⟨k, p, hreach, hlive, res, hnice, hiff.mpr (by decide)⟩

/-- A child with the pid 33038210 is reached, and what `nice` returns for it is negative. -/
theorem nice_large_pid :
    ∃ k p, Reachable (step .priority) boot k ∧ k.state p = .RUNNABLE ∧
      k.pid p = 33038210 ∧ k.priority p = 3 ∧
      k.nice (k.pid p) 4 = (k.niceTail p 4, .ret (-2147483643)) := by
  obtain ⟨k, p, hreach, hstate, hpid, hprio⟩ :=
    exists_child .priority 33038210 (by decide) (by decide)
  have hsound : k.Sound := hreach.invariant sound_boot fun s a s' hs hstep => Sound.step hs hstep
  have hlive : k.state p ≠ .UNUSED := by
    rw [hstate]
    decide
  refine ⟨k, p, hreach, hstate, hpid, hprio, ?_⟩
  rw [hsound.nice_live hlive (v := 4) (by decide), hpid, hprio]
  rfl

end Kernel
end Xv6
