/-
  Xv6.Proc.Sleeplock

  Sleep-locks (sleeplock.c): any number of processes at one lock.

  `holdingsleep` returns `lk->locked` and does not look at `lk->pid`.  It
  tells the holder from the others as long as only the holder asks, or nobody
  holds the lock; asked by anybody else it says yes, and the `releasesleep`
  after it takes the lock from its holder.
-/

import Xv6.Lib.Transition

namespace Xv6

open Function Transition

/-- Where a process is in the functions of sleeplock.c. -/
inductive SleepPc
  | out
  | asleep
  | awake
  | passed
deriving DecidableEq

structure SleepState (ι : Type) where
  locked : Bool
  /-- `lk->pid`; `none` is 0. -/
  pid : Option ι
  pc : ι → SleepPc
  inside : ι → Bool
  /-- Whose `acquiresleep` was the last to succeed. -/
  last : Option ι
  panicked : Bool

/-- What a process does in one section of the inner lock. -/
inductive SleepOp
  | acquire
  | retry
  | kill
  | bwrite
  /-- `brelse` or `iunlock`, up to `holdingsleep`. -/
  | check
  | release
deriving DecidableEq

def SleepOp.place : SleepOp → SleepPc
  | .acquire | .bwrite | .check => .out
  | .retry => .awake
  | .kill => .asleep
  | .release => .passed

namespace SleepState

variable {ι : Type} [DecidableEq ι] {s s' : SleepState ι} {p q : ι} {o : SleepOp}

def init : SleepState ι := ⟨false, none, fun _ => .out, fun _ => false, none, false⟩

/-- `acquiresleep`, from the test of `locked` on. -/
def acquiresleep (s : SleepState ι) (p : ι) : SleepState ι :=
  if s.locked then { s with pc := update s.pc p .asleep }
  else
    { s with
      locked := true
      pid := some p
      pc := update s.pc p .out
      inside := update s.inside p true
      last := some p }

/-- `releasesleep`, with the `wakeup` of all who sleep. -/
def releasesleep (s : SleepState ι) (p : ι) : SleepState ι :=
  { s with
    locked := false
    pid := none
    pc := update (fun q => if s.pc q = .asleep then .awake else s.pc q) p .out
    inside := update s.inside p false }

def holdingsleep (s : SleepState ι) : Bool := s.locked

/-- `if(!holdingsleep(lk)) panic(…);` -/
def guarded (s : SleepState ι) (next : SleepState ι) : SleepState ι :=
  if s.holdingsleep then next else { s with panicked := true }

def act (s : SleepState ι) (p : ι) : SleepOp → SleepState ι
  | .acquire | .retry => s.acquiresleep p
  | .kill => { s with pc := update s.pc p .awake }
  | .bwrite => s.guarded s
  | .check => s.guarded { s with pc := update s.pc p .passed }
  | .release => s.releasesleep p

def step (s : SleepState ι) (a : ι × SleepOp) : Option (SleepState ι) :=
  if s.panicked = false ∧ s.pc a.1 = a.2.place then some (s.act a.1 a.2) else none

/-- The process holds the lock, or nobody does. -/
def MayAsk (s : SleepState ι) (p : ι) : Prop := s.inside p = true ∨ ∀ q, s.inside q = false

def Disciplined (s : SleepState ι) (a : ι × SleepOp) : Prop :=
  a.2 = .bwrite ∨ a.2 = .check → s.MayAsk a.1

instance [Fintype ι] (s : SleepState ι) (a : ι × SleepOp) : Decidable (s.Disciplined a) :=
  inferInstanceAs (Decidable (_ → _ = _ ∨ ∀ _, _ = _))

def Holder (s : SleepState ι) (p : ι) : Prop := s.last = some p ∧ s.inside p = true

structure Inv (s : SleepState ι) : Prop where
  locked : s.locked = true ↔ ∃ p, s.inside p = true
  last : ∀ p, s.inside p = true → s.last = some p
  passed : ∀ p, s.pc p = .passed → s.inside p = true

namespace Inv

theorem unique (h : s.Inv) (hp : s.inside p = true) (hq : s.inside q = true) : p = q := by
  have hpq := (h.last p hp).symm.trans (h.last q hq)
  cases hpq
  rfl

theorem move (h : s.Inv) {pc : SleepPc} (hpc : pc = .passed → s.inside p = true) :
    { s with pc := update s.pc p pc }.Inv := by
  refine ⟨h.locked, h.last, fun q hq => ?_⟩
  by_cases hqp : q = p
  · subst hqp
    exact hpc ((update_self ..).symm.trans hq)
  · exact h.passed q ((update_of_ne hqp ..).symm.trans hq)

theorem acquiresleep (h : s.Inv) (p : ι) : (s.acquiresleep p).Inv := by
  unfold SleepState.acquiresleep
  split
  · exact h.move (by simp)
  · rename_i hfree
    have hout : ∀ q, s.inside q ≠ true := fun q hq => hfree (h.locked.mpr ⟨q, hq⟩)
    refine ⟨iff_of_true rfl ⟨p, update_self ..⟩, fun q hq => ?_, fun q hq => ?_⟩
    · by_cases hqp : q = p
      · rw [hqp]
      · exact absurd ((update_of_ne hqp ..).symm.trans hq) (hout q)
    · by_cases hqp : q = p
      · rw [hqp]
        exact update_self ..
      · exact absurd (h.passed q ((update_of_ne hqp ..).symm.trans hq)) (hout q)

theorem releasesleep (h : s.Inv) (hp : s.pc p = .passed) : (s.releasesleep p).Inv := by
  -- the one process inside leaves
  have hout : ∀ q, update s.inside p false q ≠ true := by
    intro q
    by_cases hqp : q = p
    · subst hqp
      simp
    · rw [update_of_ne hqp]
      exact fun hq => hqp (h.unique hq (h.passed p hp))
  refine ⟨iff_of_false (by simp [SleepState.releasesleep]) fun ⟨q, hq⟩ => hout q hq,
    fun q hq => absurd hq (hout q), fun q hq => ?_⟩
  have hpc : update (fun q => if s.pc q = .asleep then .awake else s.pc q) p .out q
      = SleepPc.passed := hq
  by_cases hqp : q = p
  · rw [hqp, update_self] at hpc
    cases hpc
  · rw [update_of_ne hqp] at hpc
    split at hpc
    · cases hpc
    · exact absurd (h.unique (h.passed q hpc) (h.passed p hp)) hqp

theorem guarded {next : SleepState ι} (h : s.Inv) (hnext : s.locked = true → next.Inv) :
    (s.guarded next).Inv := by
  unfold SleepState.guarded
  split
  · rename_i hlocked
    exact hnext hlocked
  · exact ⟨h.locked, h.last, h.passed⟩

theorem act (h : s.Inv) (hd : s.Disciplined (p, o)) (hp : s.pc p = o.place) : (s.act p o).Inv := by
  cases o with
  | acquire => exact h.acquiresleep p
  | retry => exact h.acquiresleep p
  | kill => exact h.move (by simp)
  | bwrite => exact h.guarded fun _ => h
  | check =>
    -- somebody holds the lock, so the caller does
    refine h.guarded fun hlocked => h.move fun _ => (hd (.inr rfl)).resolve_right fun hout => ?_
    obtain ⟨q, hq⟩ := h.locked.mp hlocked
    exact Bool.false_ne_true ((hout q).symm.trans hq)
  | release => exact h.releasesleep hp

/-- `holdingsleep` is wrong for those who ask while another process holds the lock. -/
theorem holdingsleep_iff (h : s.Inv) (p : ι) :
    (s.holdingsleep = true ↔ s.Holder p) ↔ s.MayAsk p := by
  unfold holdingsleep
  rw [h.locked]
  constructor
  · intro hiff
    by_cases hin : ∃ q, s.inside q = true
    · exact .inl (hiff.mp hin).2
    · push Not at hin
      exact .inr fun q => Bool.eq_false_of_not_eq_true (hin q)
  · rintro (hp | hout)
    · exact iff_of_true ⟨p, hp⟩ ⟨h.last p hp, hp⟩
    · refine iff_of_false (fun ⟨q, hq⟩ => ?_) fun hp => ?_
      · exact Bool.false_ne_true ((hout q).symm.trans hq)
      · exact Bool.false_ne_true ((hout p).symm.trans hp.2)

end Inv

/-- **Sleep-locks exclude as long as only the holder releases.**  Along such runs at most one
    process is between acquire and release, and `holdingsleep` is right for exactly those who
    ask as the holder or while there is none. -/
theorem sleeplock_excludes {acts : List (ι × SleepOp)} (h : Meets step Disciplined init acts) :
    Along step (fun s : SleepState ι =>
      (∀ p q, s.inside p = true → s.inside q = true → p = q) ∧
        ∀ p, (s.holdingsleep = true ↔ s.Holder p) ↔ s.MayAsk p) init acts := by
  have hinit : (init : SleepState ι).Inv := ⟨by simp [init], by simp [init], by simp [init]⟩
  have hinv : Along step Inv init acts := along_of_meets hinit (fun s a s' hs hd hstep => by
    obtain ⟨hguard, hact⟩ := Option.ite_none_right_eq_some.mp hstep
    cases hact
    exact hs.act hd hguard.2) h
  exact hinv.mono fun s hs => ⟨fun p q => hs.unique, hs.holdingsleep_iff⟩

/-- A second process waits until the first has released. -/
theorem sleeplock_excludes_two :
    Along step (fun s : SleepState (Fin 2) => ∀ p q, s.inside p = true → s.inside q = true → p = q)
      init [(0, .acquire), (1, .acquire), (0, .check), (0, .release), (1, .retry)] :=
  (sleeplock_excludes (by decide)).mono fun _ h => h.1

/-- Process 1 holds nothing, yet its `brelse` passes the check and releases the lock of
    process 0; process 2 then is inside as well. -/
theorem brelse_releases_others_lock :
    ∃ s : SleepState (Fin 3), run step init [(0, .acquire), (1, .check), (1, .release),
      (2, .acquire)] = some s ∧ s.panicked = false ∧ s.inside 0 = true ∧ s.inside 2 = true := by
  exact exists_run (by decide)

end SleepState
end Xv6
