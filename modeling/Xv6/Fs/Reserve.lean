/-
  Xv6.Fs.Reserve

  How far the reservation of `begin_op` carries.

  `begin_op` sets `MAXOPBLOCKS` blocks aside for every operation, out of
  `LOGSIZE`.  That keeps the header in memory from overflowing.  The log on
  disk has `LOGSIZE` blocks too, but the first of them is the header: it holds
  one block less than what is handed out, and `log_write` panics one block
  early.
-/

import Xv6.Fs.LogInv

namespace Xv6.LogState

open Function List Transition Counting LogPc

variable {ι : Type} [DecidableEq ι] [Fintype ι] {s s' : LogState ι} {a : LogAct ι}

/-! ## The conditions -/

def Modest (s : LogState ι) : LogAct ι → Prop
  | .logWrite p b => (List.insert b (s.wrote p)).length ≤ MAXOPBLOCKS
  | _ => True

instance : ∀ a, Decidable (Modest s a)
  | .logWrite p b => inferInstanceAs (Decidable ((List.insert b (s.wrote p)).length ≤ MAXOPBLOCKS))
  | .beginOp _ | .record _ | .endOp _ | .commit _ | .commitEnd _ | .wake _ => .isTrue trivial

def logged (s : LogState ι) : Nat := s.group.toFinset.card

/-- The operations of one transaction leave a block of the log on disk free
    for a `log_write` that is called, and do not exceed it together. -/
def Room (s : LogState ι) : LogAct ι → Prop
  | .logWrite _ _ => s.logged < nlog - 1
  | .record p => ∀ b, s.pc p = .logging b → (insert b s.group.toFinset).card ≤ nlog - 1
  | _ => True

def Fits (s : LogState ι) : Prop :=
  s.panicked ≠ some "too big a transaction" ∧ s.lh.length ≤ nlog - 1

instance : Decidable s.Fits := inferInstanceAs (Decidable (_ ∧ _))

/-! ## Absorption -/

/-- The header lists every block of the transaction once. -/
structure Recorded (s : LogState ι) : Prop where
  nodup : s.lh.Nodup
  mem : ∀ b, b ∈ s.lh ↔ b ∈ s.group

theorem Recorded.length (h : s.Recorded) : s.lh.length = s.logged := by
  have hset : s.lh.toFinset = s.group.toFinset := by
    ext b
    rw [mem_toFinset, mem_toFinset]
    exact h.mem b
  rw [logged, ← hset, toFinset_card_of_nodup h.nodup]

theorem Recorded.record (h : s.Recorded) (p : ι) (b : Nat) : (s.record p b).Recorded where
  nodup := by
    simp only [LogState.record]
    split
    · exact h.nodup
    · exact nodup_append.mpr ⟨h.nodup, nodup_singleton b, by
        rintro x hx y hy rfl
        rw [mem_singleton.mp hy] at hx
        contradiction⟩
  mem := by
    intro c
    simp only [LogState.record]
    split
    · rename_i hb
      rw [h.mem, mem_append, mem_singleton]
      constructor
      · exact .inl
      · rintro (hc | rfl)
        · exact hc
        · exact (h.mem c).mp hb
    · rw [mem_append, mem_append, h.mem]

theorem Recorded.step (h : s.Recorded) (hs : s.step a = some s') : s'.Recorded := by
  cases Step.of_step hs with
  | record hp => exact h.record _ _
  | clear hp => exact ⟨nodup_nil, fun _ => Iff.rfl⟩
  | sleep | enter | refuse | logWrite | endPanic | endCommit | endWake | commit | commitEnd | wake =>
    exact ⟨h.nodup, h.mem⟩

theorem recorded_boot : (boot : LogState ι).Recorded := ⟨nodup_nil, fun _ => Iff.rfl⟩

theorem length_record (h : s.Recorded) {p : ι} {b : Nat} :
    (s.record p b).lh.length = (insert b s.group.toFinset).card := by
  rw [(h.record p b).length, logged]
  congr 1
  ext c
  simp [LogState.record]

theorem fits_iff_room (hi : s.Inv) (hr : s.Recorded) (hf : s.Fits) (hs : s.step a = some s') :
    s'.Fits ↔ s.Room a := by
  have hnone : s.panicked = none := by
    by_contra hne
    simp only [LogState.step, if_pos hne] at hs
    cases hs
  have hkeep : s'.panicked = none → s'.lh = s.lh → s'.Fits := by
    intro hp hl
    rw [Fits, hp, hl]
    exact ⟨by simp, hf.2⟩
  cases Step.of_step hs with
  | @refuse p b msg hp hmsg =>
    have hpos := hi.outstanding_pos (p := p) (by rw [hp]; rfl)
    rcases hmsg with ⟨rfl, hn⟩ | ⟨-, hn⟩
    · rw [hr.length] at hn
      constructor
      · intro h
        exact absurd rfl h.1
      · intro h
        exact absurd hn (Nat.not_le_of_lt h)
    · omega
  | logWrite hp hroom =>
    rw [hr.length] at hroom
    exact ⟨fun _ => hroom, fun _ => hkeep hnone rfl⟩
  | @record p b hp =>
    have hlen := length_record hr (p := p) (b := b)
    constructor
    · intro h c hc
      rw [hp] at hc
      cases hc
      rw [← hlen]
      exact h.2
    · intro h
      refine ⟨?_, ?_⟩
      · show s.panicked ≠ _
        rw [hnone]
        simp
      · rw [hlen]
        exact h b hp
  | clear hp =>
    refine ⟨fun _ => trivial, fun _ => ⟨?_, Nat.zero_le _⟩⟩
    show s.panicked ≠ _
    rw [hnone]
    simp
  | @endPanic p hp hc =>
    have hnc := hi.not_committing (p := p) (by rw [hp]; rfl)
    rw [hc] at hnc
    cases hnc
  | sleep | enter | endCommit | endWake | commit | commitEnd | wake =>
    exact ⟨fun _ => trivial, fun _ => hkeep hnone rfl⟩

/-! ## The reservation -/

/-- The blocks an operation may still add to the header. -/
def reserve (lh : List Nat) : LogPc × List Nat → Nat
  | (.inOp, w) => MAXOPBLOCKS - w.length
  | (.logging b, w) => MAXOPBLOCKS - w.length + if b ∈ lh then 0 else 1
  | _ => 0

structure Reserved (s : LogState ι) : Prop where
  within : s.lh.length + total (reserve s.lh) (fun q => (s.pc q, s.wrote q)) ≤ LOGSIZE
  modest : ∀ q, (s.pc q).ops = 1 → (s.wrote q).length ≤ MAXOPBLOCKS
  named : ∀ q b, s.pc q = .logging b → b ∈ s.wrote q
  stored : s.panicked = none → ∀ q b, b ∈ s.wrote q → (s.pc q).ops = 1 →
    b ∈ s.lh ∨ s.pc q = .logging b

theorem reserve_of_ops {pc : LogPc} (h : pc.ops = 0) (lh w : List Nat) : reserve lh (pc, w) = 0 := by
  cases pc with
  | inOp => cases h
  | logging b => cases h
  | out | begins | asleep | commit _ => rfl

theorem reserve_mono {lh lh' : List Nat} (h : ∀ b ∈ lh, b ∈ lh') (x : LogPc × List Nat) :
    reserve lh' x ≤ reserve lh x := by
  obtain ⟨pc, w⟩ := x
  cases pc with
  | logging b =>
    simp only [reserve]
    by_cases hb : b ∈ lh
    · rw [if_pos hb, if_pos (h b hb)]
    · rw [if_neg hb]
      split <;> omega
  | out | begins | asleep | inOp | commit _ => exact Nat.le_refl _

namespace Reserved

variable {p : ι} {b : Nat}

theorem total_le (h : s.Reserved) (hi : s.Inv) :
    (total (reserve s.lh) (fun q => (s.pc q, s.wrote q)) : Int) ≤ s.outstanding * MAXOPBLOCKS := by
  have hone : ∀ q, reserve s.lh (s.pc q, s.wrote q) ≤ (s.pc q).ops * MAXOPBLOCKS := by
    intro q
    cases hq : s.pc q with
    | inOp => simp [reserve, ops]
    | logging b =>
      have hb : b ∈ s.wrote q := h.named q b hq
      have hlen : 0 < (s.wrote q).length := length_pos_of_mem hb
      simp only [reserve, ops, MAXOPBLOCKS]
      split <;> omega
    | out | begins | asleep | commit _ => simp [reserve, ops]
  have hsum : total (reserve s.lh) (fun q => (s.pc q, s.wrote q))
      ≤ total ops s.pc * MAXOPBLOCKS := by
    rw [total, total, Finset.sum_mul]
    exact Finset.sum_le_sum fun q _ => hone q
  rw [hi.outstanding]
  exact_mod_cast hsum

theorem total_move (lh : List Nat) (s : LogState ι) (p : ι) (pc : LogPc) (w : List Nat) :
    total (reserve lh) (fun q => (update s.pc p pc q, update s.wrote p w q))
      + reserve lh (s.pc p, s.wrote p)
      = total (reserve lh) (fun q => (s.pc q, s.wrote q)) + reserve lh (pc, w) := by
  have hpair : (fun q => (update s.pc p pc q, update s.wrote p w q))
      = update (fun q => (s.pc q, s.wrote q)) p (pc, w) := by
    funext q
    by_cases hq : q = p
    · subst hq
      simp
    · simp [hq]
  rw [hpair]
  exact total_update (reserve lh) (fun q => (s.pc q, s.wrote q)) p (pc, w)

theorem boot : (boot : LogState ι).Reserved where
  within := by simp [LogState.boot, total, reserve]
  modest := fun q hq => by cases hq
  named := fun q b hq => by cases hq
  stored := fun _ q b hb => by cases hb

theorem leave (h : s.Reserved) {pc : LogPc} (hpc : pc.ops = 0) : (s.setPc p pc).Reserved where
  within := by
    have hmove := total_move s.lh s p pc (s.wrote p)
    rw [reserve_of_ops hpc, update_eq_self] at hmove
    have hwithin := h.within
    simp only [setPc]
    omega
  modest := by
    intro q hq
    by_cases hqp : q = p
    · subst hqp
      simp only [setPc, update_self] at hq
      omega
    · simp only [setPc, update_of_ne hqp] at hq
      exact h.modest q hq
  named := by
    intro q b hq
    by_cases hqp : q = p
    · subst hqp
      simp only [setPc, update_self] at hq
      rw [hq] at hpc
      cases hpc
    · simp only [setPc, update_of_ne hqp] at hq
      exact h.named q b hq
  stored := by
    intro hn q b hb hq
    by_cases hqp : q = p
    · subst hqp
      simp only [setPc, update_self] at hq
      omega
    · simp only [setPc, update_of_ne hqp] at hq ⊢
      exact h.stored hn q b hb hq

theorem wakeup (h : s.Reserved) : s.wakeup.Reserved := by
  have hops : ∀ q, (s.wakeup.pc q).ops = (s.pc q).ops := by
    intro q
    simp only [LogState.wakeup]
    split
    · rename_i hq
      rw [hq]
      rfl
    · rfl
  have hlog : ∀ q b, s.wakeup.pc q = .logging b ↔ s.pc q = .logging b := by
    intro q b
    simp only [LogState.wakeup]
    split
    · rename_i hq
      rw [hq]
      simp
    · rfl
  refine ⟨?_, fun q hq => h.modest q ((hops q).symm.trans hq),
    fun q b hq => h.named q b ((hlog q b).mp hq), ?_⟩
  · have hsame : total (reserve s.lh) (fun q => (s.wakeup.pc q, s.wrote q))
        = total (reserve s.lh) (fun q => (s.pc q, s.wrote q)) := by
      refine total_congr fun q => ?_
      simp only [LogState.wakeup]
      split
      · rename_i hq
        rw [hq]
        rfl
      · rfl
    exact hsame ▸ h.within
  · intro hn q b hb hq
    rw [hlog]
    exact h.stored hn q b hb ((hops q).symm.trans hq)

theorem enter (h : s.Reserved) (hi : s.Inv) (hp : (s.pc p).ops = 0) (hf : ¬ s.full) :
    ({ s.setPc p .inOp with
      outstanding := s.outstanding + 1, wrote := update s.wrote p [] }).Reserved where
  within := by
    have hmove := total_move s.lh s p .inOp []
    have hle := h.total_le hi
    rw [reserve_of_ops hp] at hmove
    simp only [full, not_lt, gt_iff_lt] at hf
    simp only [setPc, reserve, length_nil] at hmove ⊢
    simp only [LOGSIZE, MAXOPBLOCKS, Nat.cast_ofNat, Nat.cast_mul] at hf hle hmove ⊢
    omega
  modest := by
    intro q hq
    by_cases hqp : q = p
    · subst hqp
      simp
    · simp only [setPc, update_of_ne hqp] at hq ⊢
      exact h.modest q hq
  named := by
    intro q b hq
    by_cases hqp : q = p
    · subst hqp
      simp [setPc] at hq
    · simp only [setPc, update_of_ne hqp] at hq ⊢
      exact h.named q b hq
  stored := by
    intro hn q b hb hq
    by_cases hqp : q = p
    · subst hqp
      simp at hb
    · simp only [setPc, update_of_ne hqp] at hb hq ⊢
      exact h.stored hn q b hb hq

theorem logWrite (h : s.Reserved) (hn : s.panicked = none) (hp : s.pc p = .inOp)
    (hm : (List.insert b (s.wrote p)).length ≤ MAXOPBLOCKS) :
    ({ s with wrote := update s.wrote p (List.insert b (s.wrote p)) }.setPc p
      (.logging b)).Reserved where
  within := by
    have hmove := total_move s.lh s p (.logging b) (List.insert b (s.wrote p))
    have hle : reserve s.lh (.logging b, List.insert b (s.wrote p))
        ≤ reserve s.lh (s.pc p, s.wrote p) := by
      rw [hp]
      simp only [reserve]
      by_cases hb : b ∈ s.wrote p
      · have hlh : b ∈ s.lh := by
          rcases h.stored hn p b hb (by rw [hp]; rfl) with hlh | hpc
          · exact hlh
          · rw [hp] at hpc
            cases hpc
        rw [insert_of_mem hb, if_pos hlh]
        exact Nat.le_refl _
      · rw [length_insert_of_not_mem hb] at hm ⊢
        split <;> omega
    have hwithin := h.within
    simp only [setPc]
    omega
  modest := by
    intro q hq
    by_cases hqp : q = p
    · subst hqp
      simpa [setPc] using hm
    · simp only [setPc, update_of_ne hqp] at hq ⊢
      exact h.modest q hq
  named := by
    intro q c hq
    by_cases hqp : q = p
    · subst hqp
      simp only [setPc, update_self, logging.injEq] at hq ⊢
      rw [← hq]
      exact mem_insert_self
    · simp only [setPc, update_of_ne hqp] at hq ⊢
      exact h.named q c hq
  stored := by
    intro _ q c hc hq
    by_cases hqp : q = p
    · subst hqp
      simp only [setPc, update_self] at hc ⊢
      rcases mem_insert_iff.mp hc with rfl | hc
      · exact .inr rfl
      · rcases h.stored hn q c hc (by rw [hp]; rfl) with hlh | hpc
        · exact .inl hlh
        · rw [hp] at hpc
          cases hpc
    · simp only [setPc, update_of_ne hqp] at hc hq ⊢
      exact h.stored hn q c hc hq

theorem record (h : s.Reserved) (hp : s.pc p = .logging b) : (s.record p b).Reserved := by
  have hsub : ∀ c ∈ s.lh, c ∈ (s.record p b).lh := by
    intro c hc
    simp only [LogState.record]
    split
    · exact hc
    · exact mem_append_left _ hc
  have hb : b ∈ (s.record p b).lh := by
    simp only [LogState.record]
    split
    · assumption
    · simp
  refine ⟨?_, ?_, ?_, ?_⟩
  · -- the others lose nothing, `p` its one block if the header grew
    have hother : total (reserve (s.record p b).lh)
          (fun q => (update s.pc p .inOp q, update s.wrote p (s.wrote p) q))
        ≤ total (reserve s.lh)
          (fun q => (update s.pc p .inOp q, update s.wrote p (s.wrote p) q)) :=
      Finset.sum_le_sum fun q _ => reserve_mono hsub _
    have hmove := total_move s.lh s p .inOp (s.wrote p)
    have hwithin := h.within
    rw [hp] at hmove
    rw [update_eq_self] at hother hmove
    have hgoal : (s.record p b).lh.length + total (reserve (s.record p b).lh)
        (fun q => (update s.pc p .inOp q, s.wrote q)) ≤ LOGSIZE := by
      simp only [reserve] at hmove
      by_cases hmem : b ∈ s.lh
      · have hlh : (s.record p b).lh = s.lh := by simp only [LogState.record, if_pos hmem]
        rw [hlh] at hother ⊢
        omega
      · have hlh : (s.record p b).lh.length = s.lh.length + 1 := by
          simp only [LogState.record, if_neg hmem, length_append, length_singleton]
        rw [hlh]
        rw [if_neg hmem] at hmove
        omega
    exact hgoal
  · intro q hq
    by_cases hqp : q = p
    · subst hqp
      exact h.modest q (by rw [hp]; rfl)
    · simp only [LogState.record, setPc, update_of_ne hqp] at hq ⊢
      exact h.modest q hq
  · intro q c hq
    by_cases hqp : q = p
    · subst hqp
      simp [LogState.record, setPc] at hq
    · simp only [LogState.record, setPc, update_of_ne hqp] at hq ⊢
      exact h.named q c hq
  · intro hn q c hc hq
    by_cases hqp : q = p
    · subst hqp
      rcases h.stored hn q c hc (by rw [hp]; rfl) with hlh | hpc
      · exact .inl (hsub c hlh)
      · rw [hp] at hpc
        cases hpc
        exact .inl hb
    · simp only [LogState.record, setPc, update_of_ne hqp] at hq ⊢
      rcases h.stored hn q c hc hq with hlh | hpc
      · exact .inl (hsub c hlh)
      · exact .inr hpc

/-- **Every label of a modest operation keeps the reservation.** -/
theorem step (h : s.Reserved) (hi : s.Inv) (hm : s.Modest a) (hs : s.step a = some s') :
    s'.Reserved := by
  have hnone : s.panicked = none := by
    by_contra hne
    simp only [LogState.step, if_pos hne] at hs
    cases hs
  cases Step.of_step hs with
  | sleep hp hwhy => exact h.leave rfl
  | enter hp hc hf =>
    refine h.enter hi ?_ hf
    rcases hp with hp | hp <;> rw [hp] <;> rfl
  | @refuse p b msg hp hmsg =>
    -- the machine stops here; only the header matters
    have hmove := total_move s.lh s p (s.pc p) (List.insert b (s.wrote p))
    have hle : reserve s.lh (s.pc p, List.insert b (s.wrote p))
        ≤ reserve s.lh (s.pc p, s.wrote p) := by
      have hlen : (s.wrote p).length ≤ (List.insert b (s.wrote p)).length := length_le_length_insert
      rw [hp]
      simp only [reserve]
      omega
    have hwithin := h.within
    rw [update_eq_self] at hmove
    refine ⟨?_, ?_, ?_, fun hn => by cases hn⟩
    · simp only [panic]
      omega
    · intro q hq
      by_cases hqp : q = p
      · subst hqp
        have hle : (List.insert b (s.wrote q)).length ≤ MAXOPBLOCKS := hm
        simpa [panic] using hle
      · simp only [panic, update_of_ne hqp] at hq ⊢
        exact h.modest q hq
    · intro q c hq
      by_cases hqp : q = p
      · subst hqp
        rw [show s.pc q = .logging c from hq] at hp
        cases hp
      · simp only [panic, update_of_ne hqp] at hq ⊢
        exact h.named q c hq
  | logWrite hp hroom => exact h.logWrite hnone hp hm
  | record hp => exact h.record hp
  | endPanic hp hc => exact ⟨h.within, h.modest, h.named, fun hn => by cases hn⟩
  | @endCommit p hp hc ho =>
    have hl : (s.setPc p (.commit .test)).Reserved := h.leave rfl
    exact ⟨hl.within, hl.modest, hl.named, hl.stored⟩
  | @endWake p hp hc ho =>
    have hl : (s.setPc p .out).Reserved := h.leave rfl
    have hl' : ({ s with outstanding := s.outstanding - 1 }.setPc p .out).Reserved :=
      ⟨hl.within, hl.modest, hl.named, hl.stored⟩
    exact hl'.wakeup
  | commit hp hd hc => exact h.leave rfl
  | @clear p hp =>
    have hl : (s.setPc p (.commit .erase)).Reserved := h.leave rfl
    have hquiet : ∀ q, ((s.setPc p (.commit .erase)).pc q).ops = 0 := by
      have hzero := hi.alone (hi.committing_of_commit hp)
      have hmove := total_update ops s.pc p (.commit .erase)
      have hout := hi.outstanding
      refine total_eq_zero.mp ?_
      rw [hp] at hmove
      simp only [ops, setPc] at hmove ⊢
      omega
    refine ⟨?_, hl.modest, hl.named, ?_⟩
    · have hzero : total (reserve []) (fun q => ((s.setPc p (.commit .erase)).pc q, s.wrote q))
          = 0 := total_eq_zero.mpr fun q => reserve_of_ops (hquiet q) _ _
      simp only [length_nil, Nat.zero_add]
      exact (le_of_eq hzero).trans (Nat.zero_le _)
    · intro _ q b _ hq
      have hzero := hquiet q
      simp only [setPc] at hq hzero
      omega
  | @commitEnd p hp =>
    have hl : (s.setPc p .out).Reserved := h.leave rfl
    have hl' : ({ s.setPc p .out with committing := false }).Reserved :=
      ⟨hl.within, hl.modest, hl.named, hl.stored⟩
    exact hl'.wakeup
  | wake hp => exact h.leave rfl

end Reserved

/-- **What `begin_op` reserves.**  If no operation passes more than `MAXOPBLOCKS` different blocks
    to `log_write`, the header in memory never holds more than `LOGSIZE` blocks.  On disk, where the
    log has one block less, the transaction fits and `log_write` does not panic exactly in the runs
    that leave that block free. -/
theorem log_space_one_short (acts : List (LogAct ι))
    (hm : Meets LogState.step Modest boot acts) :
    Along LogState.step (fun s => s.lh.length ≤ LOGSIZE) boot acts ∧
    (Along LogState.step Fits boot acts ↔ Meets LogState.step Room boot acts) := by
  constructor
  · have hkept : Along LogState.step (fun s => s.Inv ∧ s.Reserved) boot acts := by
      refine along_of_meets ⟨inv_boot, Reserved.boot⟩ ?_ hm
      rintro s a s' ⟨hi, hr⟩ hma hs
      exact ⟨hi.step hs, hr.step hi hma hs⟩
    refine hkept.mono fun s hs => ?_
    have hwithin := hs.2.within
    omega
  · refine along_iff_meets (I := fun s => s.Inv ∧ s.Recorded) ⟨inv_boot, recorded_boot⟩ ?_ ?_ ?_
    · exact ⟨by simp [LogState.boot], Nat.zero_le _⟩
    · rintro s a s' ⟨hi, hr⟩ _ _ hs
      exact ⟨hi.step hs, hr.step hs⟩
    · rintro s a s' ⟨hi, hr⟩ hf hs
      exact fits_iff_room hi hr hf hs

def logAll (p : ι) (bs : List Nat) : List (LogAct ι) :=
  bs.flatMap fun b => [.logWrite p b, .record p]

def threeOps : List (LogAct (Fin 3)) :=
  [.beginOp 0, .beginOp 1, .beginOp 2] ++ logAll 0 (List.range' 100 10)
    ++ logAll 1 (List.range' 110 10) ++ logAll 2 (List.range' 120 10)

theorem log_space_one_short_three_ops :
    Meets LogState.step Modest boot threeOps ∧
    Along LogState.step (fun s => s.lh.length ≤ LOGSIZE) boot threeOps := by
  have hm : Meets LogState.step Modest boot threeOps := by decide +kernel
  exact ⟨hm, (log_space_one_short threeOps hm).1⟩

/-- All three operations were admitted and none of them exceeds its share, but
    the last `log_write` finds the log full. -/
theorem third_operation_panics :
    Meets LogState.step Modest boot (threeOps.take 62) ∧
    ∃ s, run LogState.step boot (threeOps.take 62) = some s ∧
      s.panicked = some "too big a transaction" :=
  ⟨by decide +kernel, exists_run (by decide +kernel)⟩

end Xv6.LogState
