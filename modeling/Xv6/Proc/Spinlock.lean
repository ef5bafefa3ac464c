/-
  Xv6.Proc.Spinlock

  Spin-locks and the interrupt flag (spinlock.c), on any number of CPUs.

  A step of `acquire` or `release` is one access to the lock; `pushcli` and
  `popcli` concern one CPU only.  An interrupt may come whenever the flag is set.
  Its handler starts with the flag cleared, and returns when it holds no lock
  and has undone its `pushcli`s.

  `held`, `pushed` and `base` are read by no function: the locks a CPU has
  acquired, its calls of `pushcli`, and the flag outside of all of them.
-/

import Mathlib.Data.Finset.Card
import Xv6.Lib.Transition

namespace Xv6

open Function Transition Option

/-- Where a CPU is: outside, in `acquire` before and behind the `xchg`, or in `release` before the
    store to `locked` and before `popcli`. -/
inductive LockPc (Λ : Type)
  | out
  | spin (l : Λ)
  | got (l : Λ)
  | unlock (l : Λ)
  | pop
deriving DecidableEq

structure LockCpu (Λ : Type) where
  ncli : ℤ
  intena : Bool
  /-- `FL_IF` -/
  flag : Bool
  pc : LockPc Λ
  held : Finset Λ
  pushed : ℕ
  base : Bool

structure LockSys (ι Λ : Type) where
  locked : Λ → Bool
  /-- `lk->cpu` -/
  owner : Λ → Option ι
  cpus : ι → LockCpu Λ

inductive LockAct (Λ : Type)
  | acquire (l : Λ)
  | release (l : Λ)
  | pushcli
  | popcli
  /-- `sti`, or the return of an interrupt handler. -/
  | sti
  | intr

variable {ι Λ : Type}

/-- Behind `pushcli` of `acquire`, and before `popcli` of `release`. -/
def LockPc.pushes : LockPc Λ → ℕ
  | .out => 0
  | _ => 1

namespace LockCpu

variable {c c' : LockCpu Λ}

def boot : LockCpu Λ := ⟨0, false, false, .out, ∅, 0, false⟩

def pushcli (c : LockCpu Λ) : LockCpu Λ :=
  { c with flag := false, intena := if c.ncli = 0 then c.flag else c.intena, ncli := c.ncli + 1 }

/-- `none` is one of the two panics. -/
def popcli (c : LockCpu Λ) : Option (LockCpu Λ) :=
  if c.flag then none
  else if c.ncli - 1 < 0 then none
  else some { c with ncli := c.ncli - 1, flag := decide (c.ncli - 1 = 0) && c.intena }

/-- How many sections the CPU is in that are to be free of interrupts. -/
def level (c : LockCpu Λ) : ℕ := c.held.card + c.pushed + c.pc.pushes

end LockCpu

namespace LockSys

variable [DecidableEq ι] [DecidableEq Λ]

def boot : LockSys ι Λ := ⟨fun _ => false, fun _ => none, fun _ => .boot⟩

def set (s : LockSys ι Λ) (i : ι) (c : LockCpu Λ) : LockSys ι Λ :=
  { s with cpus := update s.cpus i c }

def holding (s : LockSys ι Λ) (i : ι) (l : Λ) : Bool := s.locked l && decide (s.owner l = some i)

/-- The next access of the call that CPU `i` is in; `none` outside of calls, and for a panic. -/
def next (s : LockSys ι Λ) (i : ι) : Option (LockSys ι Λ) :=
  let c := s.cpus i
  match c.pc with
  | .out => none
  | .spin l =>
    -- `xchg(&lk->locked, 1)`, until it returns 0
    if s.locked l then some s
    else some { s.set i { c with pc := .got l } with locked := update s.locked l true }
  | .got l =>
    -- `lk->cpu = cpu`
    some { s.set i { c with pc := .out, held := insert l c.held } with
      owner := update s.owner l (some i) }
  | .unlock l => some { s.set i { c with pc := .pop } with locked := update s.locked l false }
  | .pop => c.popcli.map fun c => s.set i { c with pc := .out }

/-- What CPU `i` begins outside of calls; `none` for a panic.  The test `holding` is no step of
    its own: nobody else makes `lk->cpu` this CPU, or clears it then. -/
def call (s : LockSys ι Λ) (i : ι) : LockAct Λ → Option (LockSys ι Λ)
  | .acquire l =>
    if s.holding i l then none else some (s.set i { (s.cpus i).pushcli with pc := .spin l })
  | .release l =>
    if s.holding i l then
      some { s.set i { s.cpus i with pc := .unlock l, held := (s.cpus i).held.erase l } with
        owner := update s.owner l none }
    else none
  | .pushcli => some (s.set i { (s.cpus i).pushcli with pushed := (s.cpus i).pushed + 1 })
  | .popcli =>
    if 0 < (s.cpus i).pushed then
      (s.cpus i).popcli.map fun c => s.set i { c with pushed := c.pushed - 1 }
    else none
  | .sti =>
    if (s.cpus i).level = 0 then some (s.set i { s.cpus i with flag := true, base := true })
    else none
  | .intr =>
    if (s.cpus i).flag then some (s.set i { s.cpus i with flag := false, base := false }) else none

/-- `none` is the next access of the call under way. -/
def step (s : LockSys ι Λ) : ι × Option (LockAct Λ) → Option (LockSys ι Λ)
  | (i, none) => s.next i
  | (i, some a) => if (s.cpus i).pc = .out then s.call i a else none

end LockSys

/-! ## The flag of one CPU -/

/-- The lock that a CPU has taken and not entered yet, or left and not released yet. -/
def LockPc.inHand : LockPc Λ → Option Λ
  | .got l => some l
  | .unlock l => some l
  | _ => none

namespace LockCpu

variable {c c' : LockCpu Λ}

/-- The flag is off in sections, and will be what it was before. -/
def Masked (c : LockCpu Λ) : Prop :=
  if c.ncli = 0 then c.flag = c.base else c.flag = false ∧ c.intena = c.base

/-- The CPU is between the `xchg` and the store that releases the lock. -/
def Holds (c : LockCpu Λ) (l : Λ) : Prop := l ∈ c.held ∨ c.pc.inHand = some l

structure Ok (c : LockCpu Λ) : Prop where
  ncli : c.ncli = c.level
  masked : c.Masked
  apart : ∀ l, c.pc.inHand = some l → l ∉ c.held

theorem Holds.level_pos {l : Λ} (h : c.Holds l) : 0 < c.level := by
  unfold level
  cases h with
  | inl hl =>
    have hcard := Finset.card_pos.mpr ⟨l, hl⟩
    omega
  | inr hl =>
    cases hpc : c.pc with
    | out =>
      rw [hpc] at hl
      cases hl
    | _ => exact Nat.succ_pos _

theorem Ok.flag_off (h : c.Ok) (hin : 0 < c.level) : c.flag = false ∧ c.intena = c.base := by
  have hm := h.masked
  have hn := h.ncli
  rwa [Masked, if_neg (by omega)] at hm

theorem Ok.flag_base (h : c.Ok) (hout : c.level = 0) : c.flag = c.base := by
  have hm := h.masked
  have hn := h.ncli
  rwa [Masked, if_pos (by omega)] at hm

theorem Ok.pushcli (h : c.Ok) : c.pushcli.Masked := by
  have hn := h.ncli
  have hin : c.pushcli.ncli ≠ 0 := show c.ncli + 1 ≠ 0 by omega
  rw [Masked, if_neg hin]
  refine ⟨rfl, ?_⟩
  show (if c.ncli = 0 then c.flag else c.intena) = c.base
  by_cases hout : c.ncli = 0
  · rw [if_pos hout, h.flag_base (by omega)]
  · rw [if_neg hout, (h.flag_off (by omega)).2]

theorem Ok.popcli (h : c.Ok) (hin : 0 < c.level) :
    ∃ fl, c.popcli = some { c with ncli := c.ncli - 1, flag := fl } ∧
      ({ c with ncli := c.ncli - 1, flag := fl } : LockCpu Λ).Masked := by
  obtain ⟨hoff, hen⟩ := h.flag_off hin
  have hn := h.ncli
  refine ⟨decide (c.ncli - 1 = 0) && c.intena, ?_, ?_⟩
  · rw [LockCpu.popcli, hoff, if_neg Bool.false_ne_true, if_neg (by omega)]
  · unfold Masked
    dsimp only
    by_cases hlast : c.ncli - 1 = 0
    · rw [if_pos hlast, decide_eq_true hlast, Bool.true_and, hen]
    · rw [if_neg hlast, decide_eq_false hlast, Bool.false_and]
      exact ⟨rfl, hen⟩

end LockCpu

/-! ## The locks -/

namespace LockSys

variable {s s' : LockSys ι Λ} {i j : ι} {l : Λ} {c : LockCpu Λ}

structure Inv (s : LockSys ι Λ) : Prop where
  ok : ∀ i, (s.cpus i).Ok
  owner : ∀ i l, s.owner l = some i ↔ l ∈ (s.cpus i).held
  locked : ∀ i l, (s.cpus i).Holds l → s.locked l = true
  excl : ∀ i j l, (s.cpus i).Holds l → (s.cpus j).Holds l → i = j

theorem inv_boot : (boot : LockSys ι Λ).Inv where
  ok _ := ⟨rfl, rfl, fun l _ => Finset.notMem_empty l⟩
  owner i l := by simp [boot, LockCpu.boot]
  locked i l h := by simp [boot, LockCpu.boot, LockCpu.Holds, LockPc.inHand] at h
  excl i j l h := by simp [boot, LockCpu.boot, LockCpu.Holds, LockPc.inHand] at h

variable [DecidableEq ι]

theorem Inv.holding (h : s.Inv) : s.holding i l = true ↔ l ∈ (s.cpus i).held := by
  rw [LockSys.holding, Bool.and_eq_true, decide_eq_true_iff, h.owner]
  exact ⟨And.right, fun hl => ⟨h.locked i l (.inl hl), hl⟩⟩

/-- A step of CPU `i`: what it holds is locked, and nobody else's. -/
theorem Inv.update {locked : Λ → Bool} {owner : Λ → Option ι} (h : s.Inv) (hc : c.Ok)
    (howner : ∀ j l, owner l = some j ↔ if j = i then l ∈ c.held else s.owner l = some j)
    (hlocked : ∀ l, c.Holds l → locked l = true)
    (hother : ∀ j ≠ i, ∀ l, (s.cpus j).Holds l → locked l = true ∧ ¬ c.Holds l) :
    (⟨locked, owner, Function.update s.cpus i c⟩ : LockSys ι Λ).Inv where
  ok := (forall_update_iff s.cpus fun _ c => c.Ok).mpr ⟨hc, fun j _ => h.ok j⟩
  owner j l := by
    have hj := h.owner j l
    simp only [update_apply]
    grind
  locked j l hl := by
    simp only [update_apply] at hl
    grind
  excl j k l hj hk := by
    have hexcl := h.excl j k l
    simp only [update_apply] at hj hk
    grind

/-- A step that leaves the locks alone. -/
theorem Inv.set (h : s.Inv) (hn : c.ncli = c.level) (hm : c.Masked)
    (hheld : c.held = (s.cpus i).held) (hpc : c.pc.inHand = (s.cpus i).pc.inHand) :
    (s.set i c).Inv := by
  have hholds : ∀ l, c.Holds l ↔ (s.cpus i).Holds l := by
    intro l
    rw [LockCpu.Holds, hheld, hpc, LockCpu.Holds]
  refine h.update ⟨hn, hm, ?_⟩ (fun j l => ?_) (fun l hl => h.locked i l ((hholds l).mp hl))
    fun j hj l hl => ⟨h.locked j l hl, fun hc => hj (h.excl j i l hl ((hholds l).mp hc))⟩
  · rw [hheld, hpc]
    exact (h.ok i).apart
  · rw [hheld, ← h.owner]
    grind

/-- A step that touches the lock `l` only, which nobody else holds. -/
theorem Inv.touch (h : s.Inv) (hcpus : s'.cpus = Function.update s.cpus i c) (hc : c.Ok)
    (hother : ∀ j ≠ i, ¬ (s.cpus j).Holds l)
    (hsame : ∀ k ≠ l, s'.locked k = s.locked k ∧ s'.owner k = s.owner k ∧
      (k ∈ c.held ↔ k ∈ (s.cpus i).held) ∧ (c.Holds k ↔ (s.cpus i).Holds k))
    (hlocked : c.Holds l → s'.locked l = true)
    (howner : ∀ j, s'.owner l = some j ↔ j = i ∧ l ∈ c.held) : s'.Inv := by
  obtain ⟨locked, owner, cpus⟩ := s'
  subst hcpus
  refine h.update hc (fun j k => ?_) (fun k hk => ?_) fun j hj k hk => ?_
  · have hj := h.owner j k
    have ho := hother j
    grind [LockCpu.Holds]
  · have hold := h.locked i k
    by_cases hkl : k = l <;> grind
  · have hex := h.excl j i k hk
    have hold := h.locked j k hk
    grind

variable [DecidableEq Λ]

theorem Inv.next (h : s.Inv) (hs : s.next i = some s') : s'.Inv := by
  have hn := (h.ok i).ncli
  have hlevel : (s.cpus i).level = _ + _ + (s.cpus i).pc.pushes := rfl
  have hapart := (h.ok i).apart
  unfold LockSys.next at hs
  dsimp only at hs
  split at hs <;> rename_i hpc <;> rw [hpc] at hlevel hapart
  case h_1 => cases hs
  case h_2 l =>
    -- a free lock is taken: nobody held it
    split at hs
    case isTrue => exact some.inj hs ▸ h
    case isFalse hfree =>
      cases hs
      have hnobody : ∀ j, ¬ (s.cpus j).Holds l := fun j hl => hfree (h.locked j l hl)
      have hnew : l ∉ (s.cpus i).held := fun hl => hnobody i (.inl hl)
      refine h.touch (l := l) rfl ⟨hn.trans (congrArg _ hlevel), (h.ok i).masked, ?_⟩
        (fun j _ => hnobody j) (fun k hk => ?_) (fun _ => update_self ..) fun j => ?_
      · exact fun k hk => some.inj hk ▸ hnew
      · exact ⟨update_of_ne hk .., rfl, .rfl, by simp [LockCpu.Holds, hpc, LockPc.inHand, hk.symm]⟩
      · have hj := h.owner j l
        have hnot := hnobody j
        grind [LockCpu.Holds, LockSys.set]
  case h_3 l =>
    -- the lock in hand is entered
    cases hs
    have hl : (s.cpus i).Holds l := .inr (by rw [hpc]; rfl)
    have hcard := Finset.card_insert_of_notMem (hapart l rfl)
    refine h.touch (l := l) rfl ⟨?_, (h.ok i).masked, fun k hk => by cases hk⟩
      (fun j hj hjl => hj (h.excl j i l hjl hl)) (fun k hk => ?_)
      (fun _ => h.locked i l hl) fun j => ?_
    · simp only [LockCpu.level, LockPc.pushes] at hlevel hn ⊢
      omega
    · exact ⟨rfl, update_of_ne hk .., by simp [hk],
        by simp [LockCpu.Holds, hpc, LockPc.inHand, hk, hk.symm]⟩
    · simp [eq_comm]
  case h_4 l =>
    -- the lock in hand is given up
    cases hs
    have hl : (s.cpus i).Holds l := .inr (by rw [hpc]; rfl)
    refine h.touch (l := l) rfl
      ⟨hn.trans (congrArg _ hlevel), (h.ok i).masked, fun k hk => by cases hk⟩
      (fun j hj hjl => hj (h.excl j i l hjl hl)) (fun k hk => ?_) (fun hl => ?_) fun j => ?_
    · exact ⟨update_of_ne hk .., rfl, .rfl, by simp [LockCpu.Holds, hpc, LockPc.inHand, hk.symm]⟩
    · exact absurd (hl.resolve_right fun h => by cases h) (hapart l rfl)
    · have hj := h.owner j l
      have hex := h.excl j i l
      grind [LockCpu.Holds, LockSys.set]
  case h_5 =>
    simp only [LockPc.pushes] at hlevel
    obtain ⟨fl, hpop, hm⟩ := (h.ok i).popcli (by omega)
    rw [hpop] at hs
    cases hs
    refine h.set ?_ hm rfl (by rw [hpc]; rfl)
    simp only [LockCpu.level, LockPc.pushes] at hlevel hn ⊢
    omega

theorem Inv.call {a : LockAct Λ} (h : s.Inv) (hpc : (s.cpus i).pc = .out)
    (hs : s.call i a = some s') : s'.Inv := by
  have hn := (h.ok i).ncli
  have hlevel : (s.cpus i).level = _ + _ + (s.cpus i).pc.pushes := rfl
  rw [hpc, LockPc.pushes] at hlevel
  cases a with
  | acquire l =>
    simp only [LockSys.call, ite_none_left_eq_some, some.injEq] at hs
    obtain ⟨-, rfl⟩ := hs
    refine h.set ?_ (h.ok i).pushcli rfl (by rw [hpc]; rfl)
    simp only [LockCpu.pushcli, LockCpu.level, LockPc.pushes]
    omega
  | release l =>
    simp only [LockSys.call, ite_none_right_eq_some, some.injEq, h.holding] at hs
    obtain ⟨hl, rfl⟩ := hs
    have hcard := Finset.card_erase_add_one hl
    refine h.touch (l := l) rfl ⟨?_, (h.ok i).masked, ?_⟩
      (fun j hj hjl => hj (h.excl j i l hjl (.inl hl))) (fun k hk => ?_)
      (fun _ => h.locked i l (.inl hl)) fun j => ?_
    · simp only [LockCpu.level, LockPc.pushes]
      omega
    · rintro k hk hmem
      exact Finset.ne_of_mem_erase hmem (some.inj hk).symm
    · exact ⟨rfl, update_of_ne hk .., by simp [hk],
        by simp [LockCpu.Holds, hpc, LockPc.inHand, hk, hk.symm]⟩
    · simp
  | pushcli =>
    cases hs
    refine h.set ?_ (h.ok i).pushcli rfl rfl
    simp only [LockCpu.pushcli, LockCpu.level, hpc, LockPc.pushes]
    omega
  | popcli =>
    rw [LockSys.call, ite_none_right_eq_some] at hs
    obtain ⟨hpos, hs⟩ := hs
    obtain ⟨fl, hpop, hm⟩ := (h.ok i).popcli (by omega)
    rw [hpop] at hs
    cases hs
    refine h.set ?_ hm rfl rfl
    simp only [LockCpu.level, hpc, LockPc.pushes]
    omega
  | sti =>
    simp only [LockSys.call, ite_none_right_eq_some, some.injEq] at hs
    obtain ⟨hidle, rfl⟩ := hs
    refine h.set hn ?_ rfl rfl
    rw [LockCpu.Masked, if_pos (by simp [hn, hidle])]
  | intr =>
    simp only [LockSys.call, ite_none_right_eq_some, some.injEq] at hs
    obtain ⟨hflag, rfl⟩ := hs
    -- an interrupt comes outside of all sections only, where the flag is on
    have hout : (s.cpus i).level = 0 := by
      by_contra hin
      rw [((h.ok i).flag_off (Nat.pos_of_ne_zero hin)).1] at hflag
      cases hflag
    refine h.set hn ?_ rfl rfl
    rw [LockCpu.Masked, if_pos (by simp [hn, hout])]

theorem Inv.step {a : ι × Option (LockAct Λ)} (h : s.Inv) (hs : s.step a = some s') : s'.Inv := by
  obtain ⟨i, a⟩ := a
  cases a with
  | none => exact h.next hs
  | some a =>
    rw [LockSys.step, ite_none_right_eq_some] at hs
    exact h.call hs.1 hs.2

/-- **Spin-locks.**  In every run, whatever the order of the CPUs' accesses and of the interrupts,
    no two CPUs hold a lock.  `holding` tells a CPU exactly which locks it has: `acquire` panics for
    these and for no other, `release` for none of them.  A CPU that holds a lock has its
    interrupts off, outside of all sections the flag is what it was before them, and
    `popcli` does not panic. -/
theorem spinlocks_exclude (acts : List (ι × Option (LockAct Λ))) :
    Along step (fun s => (∀ i j l, (s.cpus i).Holds l → (s.cpus j).Holds l → i = j) ∧
      ∀ i, (∀ l, s.holding i l = true ↔ l ∈ (s.cpus i).held) ∧
        (∀ l, (s.cpus i).Holds l → (s.cpus i).flag = false) ∧
        ((s.cpus i).level = 0 → (s.cpus i).flag = (s.cpus i).base) ∧
        (0 < (s.cpus i).level → (s.cpus i).popcli.isSome)) boot acts := by
  refine (along_of_invariant inv_boot (fun _ _ _ => Inv.step) acts).mono fun s h =>
    ⟨h.excl, fun i => ⟨fun l => h.holding, fun l hl => ((h.ok i).flag_off hl.level_pos).1,
      (h.ok i).flag_base, fun hin => ?_⟩⟩
  obtain ⟨fl, hpop, -⟩ := (h.ok i).popcli hin
  rw [hpop]
  rfl

end LockSys
end Xv6
