/-
  Xv6.Fs.LogInv

  The states the log control can be in.  `Step` says what a label can do,
  `Inv` holds in every reachable state, and `log_state_machine` reads off it
  what callers rely on: a commit runs alone, the log is empty between
  commits, `end_op` does not panic and nobody sleeps on an idle log.
-/

import Xv6.Fs.Log

namespace Xv6

open Function Transition Counting LogPc

/-- `1` for a process between `begin_op` and `end_op`. -/
def LogPc.ops : LogPc → Nat
  | .inOp | .logging _ => 1
  | _ => 0

/-- `1` for a process in `commit()`. -/
def LogPc.commits : LogPc → Nat
  | .commit _ => 1
  | _ => 0

namespace LogState

variable {ι : Type} [DecidableEq ι]

inductive Step (s : LogState ι) : LogAct ι → LogState ι → Prop
  | sleep {p : ι} (hp : s.pc p = .out ∨ s.pc p = .begins) (h : s.committing = true ∨ s.full) :
      Step s (.beginOp p) (s.setPc p .asleep)
  | enter {p : ι} (hp : s.pc p = .out ∨ s.pc p = .begins) (hc : s.committing = false)
      (hf : ¬ s.full) :
      Step s (.beginOp p) { s.setPc p .inOp with
        outstanding := s.outstanding + 1, wrote := update s.wrote p [] }
  | refuse {p : ι} {b : Nat} {msg : String} (hp : s.pc p = .inOp)
      (hmsg : msg = "too big a transaction" ∧ nlog - 1 ≤ s.lh.length
        ∨ msg = "log_write outside of trans" ∧ s.outstanding < 1) :
      Step s (.logWrite p b) ({ s with
        wrote := update s.wrote p (List.insert b (s.wrote p)) }.panic msg)
  | logWrite {p : ι} {b : Nat} (hp : s.pc p = .inOp) (hroom : s.lh.length < nlog - 1) :
      Step s (.logWrite p b) ({ s with
        wrote := update s.wrote p (List.insert b (s.wrote p)) }.setPc p (.logging b))
  | record {p : ι} {b : Nat} (hp : s.pc p = .logging b) : Step s (.record p) (s.record p b)
  | endPanic {p : ι} (hp : s.pc p = .inOp) (hc : s.committing = true) :
      Step s (.endOp p) ({ s with outstanding := s.outstanding - 1 }.panic "log.committing")
  | endCommit {p : ι} (hp : s.pc p = .inOp) (hc : s.committing = false)
      (ho : s.outstanding - 1 = 0) :
      Step s (.endOp p) { s.setPc p (.commit .test) with
        outstanding := s.outstanding - 1, committing := true }
  | endWake {p : ι} (hp : s.pc p = .inOp) (hc : s.committing = false)
      (ho : s.outstanding - 1 ≠ 0) :
      Step s (.endOp p) ({ s with outstanding := s.outstanding - 1 }.setPc p .out).wakeup
  | commit {p : ι} {st : Stage} (hp : s.pc p = .commit st) (hd : st ≠ .done) (hc : st ≠ .clear) :
      Step s (.commit p) (s.setPc p (.commit (st.next s.lh.length)))
  | clear {p : ι} (hp : s.pc p = .commit .clear) :
      Step s (.commit p) { s.setPc p (.commit .erase) with lh := [], group := [] }
  | commitEnd {p : ι} (hp : s.pc p = .commit .done) : Step s (.commitEnd p) (s.commitEnd p)
  | wake {p : ι} (hp : s.pc p = .asleep) : Step s (.wake p) (s.setPc p .begins)

variable {s s' : LogState ι} {a : LogAct ι}

theorem Step.of_step (h : s.step a = some s') : Step s a s' := by
  unfold step at h
  split at h
  · cases h
  cases a with
  | beginOp p =>
    simp only at h
    split at h
    · rename_i hp
      cases h
      unfold beginOp
      split
      · exact .sleep hp (.inl ‹_›)
      · split
        · exact .sleep hp (.inr ‹_›)
        · exact .enter hp (by simpa using ‹¬ s.committing = true›) ‹_›
    · cases h
  | logWrite p b =>
    simp only at h
    split at h
    · rename_i hp
      cases h
      unfold LogState.logWrite
      simp only
      split
      · rename_i hfull
        refine .refuse hp (.inl ⟨rfl, ?_⟩)
        simp only [nlog] at hfull ⊢
        omega
      · rename_i hroom
        split
        · exact .refuse hp (.inr ⟨rfl, ‹_›⟩)
        · exact .logWrite hp (by omega)
    · cases h
  | record p =>
    simp only at h
    split at h
    · cases h
      exact .record ‹_›
    · cases h
  | endOp p =>
    simp only at h
    split at h
    · rename_i hp
      cases h
      unfold endOp
      simp only
      split
      · exact .endPanic hp ‹_›
      · have hc : s.committing = false := by simpa using ‹¬ s.committing = true›
        split
        · exact .endCommit hp hc ‹_›
        · exact .endWake hp hc ‹_›
    · cases h
  | commit p =>
    simp only at h
    split at h
    · rename_i st hp
      split at h
      · cases h
      · cases h
        unfold LogState.commit
        by_cases hc : st = .clear
        · subst hc
          exact .clear hp
        · simp only [if_neg hc]
          exact .commit hp ‹_› hc
    · cases h
  | commitEnd p =>
    simp only at h
    split at h
    · cases h
      exact .commitEnd ‹_›
    · cases h
  | wake p =>
    simp only at h
    split at h
    · cases h
      exact .wake ‹_›
    · cases h

/-! ## The invariant -/

variable [Fintype ι]

structure Inv (s : LogState ι) : Prop where
  outstanding : s.outstanding = total ops s.pc
  committer : total commits s.pc = if s.committing then 1 else 0
  alone : s.committing = true → s.outstanding = 0
  idle : s.committing = false → s.outstanding = 0 → s.lh = []
  erased : ∀ p, s.pc p = .commit .erase ∨ s.pc p = .commit .done → s.lh = []
  awaited : ∀ p, s.pc p = .asleep → s.committing = true ∨ 0 < s.outstanding
  noPanic : s.panicked ≠ some "log.committing"

theorem inv_boot : (boot : LogState ι).Inv where
  outstanding := by simp [boot, total, ops]
  committer := by simp [boot, total, commits]
  alone := fun _ => rfl
  idle := fun _ _ => rfl
  erased := fun _ _ => rfl
  awaited := fun p hp => by cases hp
  noPanic := by simp [boot]

namespace Inv

variable {p q : ι} {st : Stage}

theorem outstanding_nonneg (h : s.Inv) : 0 ≤ s.outstanding := by
  rw [h.outstanding]
  exact Int.natCast_nonneg _

theorem outstanding_pos (h : s.Inv) (hp : (s.pc p).ops = 1) : 0 < s.outstanding := by
  have hle := le_total ops s.pc p
  rw [h.outstanding]
  omega

theorem not_committing (h : s.Inv) (hp : (s.pc p).ops = 1) : s.committing = false := by
  have hpos := h.outstanding_pos hp
  by_contra hc
  have hzero := h.alone (by simpa using hc)
  omega

theorem not_commit (h : s.Inv) (hc : s.committing = false) (q : ι) (st : Stage) :
    s.pc q ≠ .commit st := by
  intro hq
  have hzero : total commits s.pc = 0 := by
    rw [h.committer, hc]
    rfl
  have hq' := total_eq_zero.mp hzero q
  rw [hq] at hq'
  cases hq'

theorem committer_unique (h : s.Inv) {st' : Stage} (hp : s.pc p = .commit st)
    (hq : s.pc q = .commit st') : p = q := by
  by_contra hne
  have hle := add_le_total commits s.pc hne
  have hone := h.committer
  rw [hp, hq] at hle
  simp only [commits] at hle
  split at hone <;> omega

theorem committing_of_commit (h : s.Inv) (hp : s.pc p = .commit st) : s.committing = true := by
  by_contra hc
  exact h.not_commit (by simpa using hc) p st hp

theorem move (h : s.Inv) {pc : LogPc} (hops : pc.ops = (s.pc p).ops)
    (hcommits : pc.commits = (s.pc p).commits)
    (herased : pc = .commit .erase ∨ pc = .commit .done → s.lh = [])
    (hasleep : pc = .asleep → s.committing = true ∨ 0 < s.outstanding) : (s.setPc p pc).Inv where
  outstanding := by
    have hw := total_update ops s.pc p pc
    have hout := h.outstanding
    simp only [setPc]
    omega
  committer := by
    have hw := total_update commits s.pc p pc
    have hsame : total commits (s.setPc p pc).pc = total commits s.pc := by
      simp only [setPc]
      omega
    exact hsame.trans h.committer
  alone := h.alone
  idle := h.idle
  erased := by
    intro q hq
    by_cases hqp : q = p
    · subst hqp
      simp only [setPc, update_self] at hq
      exact herased hq
    · simp only [setPc, update_of_ne hqp] at hq
      exact h.erased q hq
  awaited := by
    intro q hq
    by_cases hqp : q = p
    · subst hqp
      simp only [setPc, update_self] at hq
      exact hasleep hq
    · simp only [setPc, update_of_ne hqp] at hq
      exact h.awaited q hq
  noPanic := h.noPanic

theorem wakeup_pc_ne (s : LogState ι) (q : ι) : s.wakeup.pc q ≠ .asleep := by
  simp only [wakeup]
  split
  · simp
  · assumption

theorem total_wakeup (w : LogPc → ℕ) (hw : w .begins = w .asleep) (s : LogState ι) :
    total w s.wakeup.pc = total w s.pc := by
  refine total_congr fun q => ?_
  simp only [wakeup]
  split
  · rename_i hq
    rw [hw, hq]
  · rfl

theorem wakeup_commit (h : s.wakeup.pc q = .commit st) : s.pc q = .commit st := by
  simp only [wakeup] at h
  split at h
  · cases h
  · exact h

theorem outstanding_pos_of_full (h : s.Inv) (hc : s.committing = false) (hf : s.full) :
    0 < s.outstanding := by
  have hnn := h.outstanding_nonneg
  by_contra hle
  have hzero : s.outstanding = 0 := by omega
  unfold full at hf
  rw [h.idle hc hzero, hzero] at hf
  simp at hf

theorem step (h : s.Inv) (hs : s.step a = some s') : s'.Inv := by
  cases Step.of_step hs with
  | @sleep p hp hwhy =>
    refine h.move ?_ ?_ (by simp) fun _ => ?_
    · rcases hp with hp | hp <;> rw [hp] <;> rfl
    · rcases hp with hp | hp <;> rw [hp] <;> rfl
    · by_cases hc : s.committing = true
      · exact .inl hc
      · have hf : s.full := hwhy.resolve_left hc
        exact .inr (h.outstanding_pos_of_full (by simpa using hc) hf)
  | @enter p hp hc hf =>
    have hzero : (s.pc p).ops = 0 ∧ (s.pc p).commits = 0 := by
      rcases hp with hp | hp <;> rw [hp] <;> exact ⟨rfl, rfl⟩
    have hnn := h.outstanding_nonneg
    have hops := total_update ops s.pc p .inOp
    have hcom := total_update commits s.pc p .inOp
    have hout := h.outstanding
    rw [hzero.1] at hops
    rw [hzero.2] at hcom
    simp only [ops, commits] at hops hcom
    refine ⟨?_, ?_, ?_, ?_, ?_, ?_, h.noPanic⟩
    · simp only [setPc]
      omega
    · exact hcom.trans h.committer
    · intro hc'
      rw [show s.committing = true from hc'] at hc
      cases hc
    · intro _ ho
      simp only at ho
      omega
    · intro q hq
      by_cases hqp : q = p
      · subst hqp
        simp [setPc] at hq
      · simp only [setPc, update_of_ne hqp] at hq
        exact h.erased q hq
    · intro _ _
      right
      simp only
      omega
  | @refuse p b msg hp hmsg =>
    refine ⟨h.outstanding, h.committer, h.alone, h.idle, h.erased, h.awaited, ?_⟩
    rcases hmsg with ⟨rfl, -⟩ | ⟨rfl, -⟩ <;> simp [panic]
  | @logWrite p b hp hroom =>
    have h' : ({ s with wrote := update s.wrote p (List.insert b (s.wrote p)) }).Inv :=
      ⟨h.outstanding, h.committer, h.alone, h.idle, h.erased, h.awaited, h.noPanic⟩
    refine h'.move ?_ ?_ (by simp) (by simp)
    · simp only [hp, ops]
    · simp only [hp, commits]
  | @record p b hp =>
    have hop : (s.pc p).ops = 1 := by rw [hp]; rfl
    have hnc := h.not_committing hop
    have hpos := h.outstanding_pos hop
    have hm : (s.setPc p .inOp).Inv := by
      refine h.move ?_ ?_ (by simp) (by simp)
      · rw [hp]; rfl
      · rw [hp]; rfl
    refine ⟨hm.outstanding, hm.committer, hm.alone, ?_, ?_, hm.awaited, hm.noPanic⟩
    · intro _ ho
      simp only [LogState.record, setPc] at ho
      omega
    · intro q hq
      rcases hq with hq | hq <;> exact absurd hq (hm.not_commit hnc q _)
  | @endPanic p hp hc =>
    have hnc := h.not_committing (p := p) (by rw [hp]; rfl)
    rw [hc] at hnc
    cases hnc
  | @endCommit p hp hc ho =>
    have hops := total_update ops s.pc p (.commit .test)
    have hcom := total_update commits s.pc p (.commit .test)
    have hzero : total commits s.pc = 0 := by rw [h.committer, hc]; rfl
    have hout := h.outstanding
    rw [hp] at hops hcom
    simp only [ops, commits] at hops hcom
    refine ⟨?_, ?_, fun _ => ho, ?_, ?_, fun _ _ => .inl rfl, h.noPanic⟩
    · simp only [setPc]
      omega
    · simp only [setPc, if_true]
      omega
    · intro hc'
      cases hc'
    · intro q hq
      by_cases hqp : q = p
      · subst hqp
        simp [setPc] at hq
      · simp only [setPc, update_of_ne hqp] at hq
        rcases hq with hq | hq <;> exact absurd hq (h.not_commit hc q _)
  | @endWake p hp hc ho =>
    have hops := total_update ops s.pc p .out
    have hcom := total_update commits s.pc p .out
    have hout := h.outstanding
    have hnn : 0 < s.outstanding := h.outstanding_pos (p := p) (by rw [hp]; rfl)
    rw [hp] at hops hcom
    simp only [ops, commits] at hops hcom
    refine ⟨?_, ?_, ?_, ?_, ?_, ?_, h.noPanic⟩
    · rw [total_wakeup ops rfl]
      simp only [wakeup, setPc]
      omega
    · rw [total_wakeup commits rfl]
      exact hcom.trans h.committer
    · intro hc'
      rw [show s.committing = true from hc'] at hc
      cases hc
    · intro _ ho'
      exact absurd ho' ho
    · intro q hq
      have hq' : ∃ st, ({ s with outstanding := s.outstanding - 1 }.setPc p .out).pc q
          = .commit st := by
        rcases hq with hq | hq <;> exact ⟨_, wakeup_commit hq⟩
      obtain ⟨st, hst⟩ := hq'
      by_cases hqp : q = p
      · subst hqp
        simp [setPc] at hst
      · simp only [setPc, update_of_ne hqp] at hst
        exact absurd hst (h.not_commit hc q st)
    · intro q hq
      exact absurd hq (wakeup_pc_ne _ q)
  | @commit p st hp hd hc =>
    refine h.move ?_ ?_ ?_ (by simp)
    · rw [hp]; rfl
    · rw [hp]; rfl
    · intro hst
      cases st with
      | test =>
        simp only [Stage.next] at hst
        split at hst
        · simp at hst
        · exact List.length_eq_zero_iff.mp (by omega)
      | writeLog t =>
        simp only [Stage.next] at hst
        split at hst <;> simp at hst
      | writeHead =>
        simp only [Stage.next] at hst
        split at hst <;> simp at hst
      | install t =>
        simp only [Stage.next] at hst
        split at hst <;> simp at hst
      | clear => exact absurd rfl hc
      | erase => exact h.erased p (.inl hp)
      | done => exact absurd rfl hd
  | @clear p hp =>
    have hcom := h.committing_of_commit hp
    have hops := total_update ops s.pc p (.commit .erase)
    have hcs := total_update commits s.pc p (.commit .erase)
    have hout := h.outstanding
    rw [hp] at hops hcs
    simp only [ops, commits] at hops hcs
    refine ⟨?_, ?_, h.alone, fun _ _ => rfl, fun _ _ => rfl, fun _ _ => .inl hcom, h.noPanic⟩
    · simp only [setPc]
      omega
    · have hsame : total commits (s.setPc p (.commit .erase)).pc
          = total commits s.pc := by
        simp only [setPc]
        omega
      exact hsame.trans h.committer
  | @commitEnd p hp =>
    have hcom := h.committing_of_commit hp
    have hlh : s.lh = [] := h.erased p (.inr hp)
    have hops := total_update ops s.pc p .out
    have hcs := total_update commits s.pc p .out
    have hout := h.outstanding
    have hone : total commits s.pc = 1 := by rw [h.committer, hcom]; rfl
    rw [hp] at hops hcs
    simp only [ops, commits] at hops hcs
    unfold LogState.commitEnd
    refine ⟨?_, ?_, ?_, fun _ _ => hlh, fun _ _ => hlh, ?_, h.noPanic⟩
    · rw [total_wakeup ops rfl]
      simp only [wakeup, setPc]
      omega
    · rw [total_wakeup commits rfl]
      simp only [wakeup, setPc]
      have : total commits (update s.pc p out) = 0 := by omega
      rw [this]
      rfl
    · intro hc'
      cases hc'
    · intro q hq
      exact absurd hq (wakeup_pc_ne _ q)
  | @wake p hp =>
    refine h.move ?_ ?_ (by simp) (by simp)
    · rw [hp]; rfl
    · rw [hp]; rfl

end Inv

structure Orderly (s : LogState ι) : Prop where
  alone : s.committing = true → s.outstanding = 0 ∧
    ∀ p, (∀ b, s.step (.logWrite p b) = none) ∧ s.step (.record p) = none
  /-- The log of an idle file system is empty. -/
  idle : s.committing = false → s.outstanding = 0 → s.lh.length = 0
  /-- `end_op` returns, or goes on to `commit()`. -/
  endOp : ∀ p s', s.step (.endOp p) = some s' → s'.panicked = none
  /-- Whoever sleeps on `&log` is going to be woken up. -/
  awaited : ∀ p, s.pc p = .asleep → s.committing = true ∨ 0 < s.outstanding

theorem Inv.orderly (h : s.Inv) : s.Orderly where
  alone := by
    intro hc
    have hnot : ∀ p, (s.pc p).ops ≠ 1 := by
      intro p hp
      have hnc := h.not_committing hp
      rw [hc] at hnc
      cases hnc
    refine ⟨h.alone hc, fun p => ⟨fun b => ?_, ?_⟩⟩
    · cases hs : s.step (.logWrite p b) with
      | none => rfl
      | some s' =>
        cases Step.of_step hs with
        | refuse hp _ => exact absurd (by rw [hp]; rfl) (hnot p)
        | logWrite hp _ => exact absurd (by rw [hp]; rfl) (hnot p)
    · cases hs : s.step (.record p) with
      | none => rfl
      | some s' =>
        cases Step.of_step hs with
        | record hp => exact absurd (by rw [hp]; rfl) (hnot p)
  idle := by
    intro hc ho
    rw [h.idle hc ho]
    rfl
  endOp := by
    intro p s' hs
    have hnone : s.panicked = none := by
      by_contra hne
      simp only [LogState.step, if_pos hne] at hs
      cases hs
    cases Step.of_step hs with
    | endPanic hp hc =>
      have hnc := h.not_committing (p := p) (by rw [hp]; rfl)
      rw [hc] at hnc
      cases hnc
    | endCommit hp hc ho => exact hnone
    | endWake hp hc ho => exact hnone
  awaited := h.awaited

/-- **The log state machine.**  In every state that any number of processes reaches in any
    interleaving, a commit runs alone, an idle log is empty, `end_op` does not panic, and a process
    sleeping on `&log` has somebody left to wake it. -/
theorem log_state_machine (acts : List (LogAct ι)) : Along LogState.step Orderly boot acts := by
  have hinv : Along LogState.step Inv boot acts :=
    along_of_invariant inv_boot (fun _ _ _ hi hs => hi.step hs) acts
  exact hinv.mono fun s hs => hs.orderly

end LogState
end Xv6
