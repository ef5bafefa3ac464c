/-
  Xv6.Fs.CrashInv

  Crash atomicity of the log.
-/

import Xv6.Fs.CrashPhase
import Xv6.Fs.Image

namespace Xv6.Fsys

open Function List Transition CrashSafe Option

variable {ι : Type} [DecidableEq ι] [Fintype ι] {img : Image} {s s' : Fsys ι}

/-! ## Committing -/

theorem Allowed.place {a : BufAct ι Block} (h : s.Allowed a) :
    s.log.pc (Bcache.proc a) = .out ∨ s.log.pc (Bcache.proc a) = .inOp := by
  cases a with
  | store => exact .inr h.1
  | bwrite | logWrite => exact absurd h id
  | bget | acquiresleep | bread | brelse | unref => exact h

theorem Stuck.bget {p : ι} {st : Stage} (h : s.Stuck img p st) {q : ι} {n : Nat}
    (hn : ¬ Outside img.logstart n) : s.cache.step (.bget q n) = none := by
  have hmiss : s.cache.cached ROOTDEV n = none := by
    refine List.find?_eq_none.mpr fun b _ hb => ?_
    have hb' := of_decide_eq_true hb
    rw [← hb'.2] at hn
    exact hn (h.pinned b).2
  have hspare : s.cache.spare = none := by
    refine List.find?_eq_none.mpr fun b _ hb => ?_
    have hb' := of_decide_eq_true hb
    rw [(h.pinned b).1] at hb'
    exact absurd hb'.2 (by simp)
  simp only [Bcache.step]
  split
  · simp only [Bcache.bget, hmiss, hspare, map_none]
  · rfl

namespace Committing

variable {p : ι} {st : Stage}

theorem committing (h : s.Committing img p st) : s.log.committing = true :=
  h.log.committing_of_commit h.pc

theorem no_ops (h : s.Committing img p st) (q : ι) : (s.log.pc q).ops ≠ 1 := by
  intro hq
  have hc := h.log.not_committing hq
  rw [h.committing] at hc
  cases hc

theorem bio (hi : s.cache.Inv) (h : s.Committing img p st) {a : BufAct ι Block}
    {c : Bcache ι Block} (ha : s.Allowed a) (hs : s.cache.step a = some c) :
    Committing img { s with cache := c } p st := by
  have hreads : Bcache.Reads a := by
    cases a with
    | store q b v => exact absurd (by rw [ha.1]; rfl) (h.no_ops q)
    | bwrite | logWrite => exact absurd ha id
    | bget | acquiresleep | bread | brelse | unref => trivial
  have hother : p ≠ Bcache.proc a := by
    rintro rfl
    have hplace := ha.place
    rw [h.pc] at hplace
    simp at hplace
  have hview := view_reads img hi hs hreads
  refine ⟨h.mode, h.log, h.pc, h.todo, h.noHead, h.ops, ?_⟩
  rw [hview]
  refine h.safe.imp_right fun hstuck => ⟨?_, hstuck.full, ?_, ?_, hstuck.place⟩
  · rw [hview]
    exact hstuck.recoverable
  · intro b
    have hw : ∀ q x, a ≠ .bwrite q x := by
      rintro q x rfl
      exact hreads
    obtain ⟨hd, hn⟩ := Bcache.step_dirty hi hs hw (hstuck.pinned b).1
    refine ⟨hd, ?_⟩
    show Outside _ (c.buf b).blockno
    rw [hn]
    exact (hstuck.pinned b).2
  · show (c.user p).pc = .idle
    rw [Bcache.step_user_of_ne hi hs hother]
    exact hstuck.idle

theorem exec (hi : s.cache.Inv) (h : s.Committing img p st) (hs : s.exec p = some s') :
    s'.Committing img p st := by
  rcases h.safe with hsafe | hstuck
  · obtain ⟨hm, hcases⟩ := exec_cases img hi hs
    rcases hcases with ⟨htodo, hview, hlog⟩ | ⟨i, is, htodo, htodo', hview, hlog⟩
    · refine ⟨hm.mode.trans h.mode, by rw [hlog]; exact h.log, by rw [hlog]; exact h.pc,
        by rw [htodo]; exact h.todo, by rw [htodo]; exact h.noHead, hm.ops h.ops, .inl ?_⟩
      rw [htodo, hview, hlog]
      exact hsafe
    · have hself : s'.todo p = is := by rw [htodo', update_self]
      have hne : ∀ n, i ≠ .getHead n := by
        rintro n rfl
        exact h.noHead n (by rw [htodo]; exact mem_cons_self)
      have hsame := hlog hne
      refine ⟨hm.mode.trans h.mode, by rw [hsame]; exact h.log, by rw [hsame]; exact h.pc, ?_, ?_,
        hm.ops h.ops, .inl ?_⟩
      · intro q hq
        rw [htodo', update_of_ne hq]
        exact h.todo q hq
      · intro n hn
        rw [hself] at hn
        exact h.noHead n (by rw [htodo]; exact mem_cons_of_mem _ hn)
      · rw [htodo, cons_append] at hsafe
        rw [hself, hview, hsame]
        exact hsafe.next
  · -- the first `bread` of the commit panics
    exfalso
    rcases hstuck.place with ⟨-, htodo⟩ | ⟨-, htodo⟩
    · simp only [Fsys.exec, hstuck.idle, htodo] at hs
      cases hs
    · have hlog : ¬ Outside img.logstart (img.logstart + 0 + 1) := by
        simp only [Outside, nlog, LOGSIZE, MAXOPBLOCKS]
        omega
      simp only [Fsys.exec, hstuck.idle, htodo, Xv6.writeLog, statement, Fsys.bio,
        hstuck.bget hlog, map_none] at hs
      cases hs

theorem move (h : s.Committing img p st) {q : ι} {pc : LogPc} (hq : q ≠ p)
    (hl : (s.log.setPc q pc).Inv) : Committing img { s with log := s.log.setPc q pc } p st := by
  refine ⟨h.mode, hl, ?_, h.todo, h.noHead, h.ops, ?_⟩
  · show (s.log.setPc q pc).pc p = _
    rw [ops_setPc_of_ne _ (Ne.symm hq)]
    exact h.pc
  · refine h.safe.imp_right fun hstuck => ?_
    exact ⟨hstuck.recoverable, hstuck.full, hstuck.pinned, hstuck.idle, hstuck.place⟩

theorem next (h : s.Committing img p st) (hbetween : s.Between p) {l : LogState ι}
    (hl : s.log.step (.commit p) = some l) :
    ∃ st', Committing img (({ s with log := l } : Fsys ι).setTodo p
      ((st.next s.log.lh.length).code s.start s.log.lh)) p st' := by
  have hlinv := h.log.step hl
  have htodo : ∀ q is, q ≠ p → update s.todo p is q = [] := by
    intro q is hq
    rw [update_of_ne hq]
    exact h.todo q hq
  have hcode : ∀ is, update s.todo p is p = is := fun is => update_self _ _ _
  have hnoHead : ∀ st' : Stage, ∀ n, .getHead n ∉ update s.todo p (st'.code s.start s.log.lh) p := by
    intro st' n
    rw [hcode]
    exact code_noHead _ _ _ n
  refine ⟨st.next s.log.lh.length, ?_⟩
  rcases h.safe with hsafe | hstuck
  · rw [hbetween.2, nil_append] at hsafe
    have hstart : s.start = img.logstart := hsafe.here.1
    cases LogState.Step.of_step hl with
    | @commit _ st0 hp hd hc =>
      rw [h.pc] at hp
      cases hp
      refine ⟨h.mode, hlinv, setPc_self _ _ _, fun q hq => htodo q _ hq, hnoHead _, h.ops, .inl ?_⟩
      · show Safe _ _ _ (update s.todo p _ p ++ _) (s.view img)
        rw [hcode, hstart]
        rw [Stage.rest_next _ _ hc] at hsafe
        exact hsafe
    | clear hp =>
      rw [h.pc] at hp
      cases hp
      refine ⟨h.mode, hlinv, setPc_self _ _ _, fun q hq => htodo q _ hq, hnoHead _, h.ops, .inl ?_⟩
      · show Safe _ _ _ (update s.todo p (Xv6.writeHead s.start false) p ++ [])
          (View.exec .clear (s.view img))
        rw [hcode, hstart]
        exact hsafe.next
  · rcases hstuck.place with ⟨rfl, -⟩ | ⟨-, htodo'⟩
    · have hpos : 0 < s.log.lh.length := lt_of_lt_of_le (by decide) hstuck.full
      have hstart : s.start = img.logstart := hstuck.recoverable.1
      cases LogState.Step.of_step hl with
      | @commit _ st0 hp hd hc =>
        rw [h.pc] at hp
        cases hp
        have hnext : Stage.test.next s.log.lh.length = .writeLog 0 := by
          simp only [Stage.next, if_pos hpos]
        rw [hnext] at hlinv ⊢
        refine ⟨h.mode, hlinv, setPc_self _ _ _, fun q hq => htodo q _ hq, hnoHead _, h.ops, .inr
          ⟨hstuck.recoverable, hstuck.full, hstuck.pinned, hstuck.idle, .inr ⟨rfl, ?_⟩⟩⟩
        · show update s.todo p _ p = _
          rw [hcode, hstart]
          rfl
      | clear hp =>
        rw [h.pc] at hp
        cases hp
    · rw [hbetween.2] at htodo'
      cases htodo'

theorem commitEnd (h : s.Committing img p st) (hbetween : s.Between p) {l : LogState ι}
    (hl : s.log.step (.commitEnd p) = some l) : Quiet img { s with log := l } := by
  have hlinv := h.log.step hl
  cases LogState.Step.of_step hl with
  | commitEnd hp =>
    rw [h.pc] at hp
    cases hp
    have hset : Settled img.logstart (s.view img) := by
      rcases h.safe with hsafe | hstuck
      · rw [hbetween.2] at hsafe
        exact hsafe.post
      · rcases hstuck.place with ⟨hst, -⟩ | ⟨hst, -⟩ <;> cases hst
    have hlh : s.log.lh = [] := hset.lh
    have hcur : (s.view img).new = s.current img := by
      have hall : s.pending.filter (·.op ∈ s.ended) = s.pending :=
        filter_eq_self.mpr fun u hu => by simpa using h.ops u hu
      simp only [view, hall]
      rfl
    have hnew : ∀ n, Outside img.logstart n → s.current img n = s.durable img n := by
      intro n hn
      rw [← hcur]
      exact hset.new n hn
    have htodo : ∀ q, s.todo q = [] := by
      intro q
      by_cases hq : q = p
      · rw [hq]
        exact hbetween.2
      · exact h.todo q hq
    refine ⟨h.mode, hlinv, rfl, htodo, hset.placed, hset.head, hset.disk, ?_, ?_, ?_, ?_, ?_,
      ?_, fun u hu => .inl (h.ops u hu), ?_, hset.sb, ?_⟩
    · intro n hn _
      show s.cache.contents n = s.current img n
      rw [hnew n hn]
      exact hset.map n hn
    · exact fun n hn _ => hnew n hn
    · show ∀ n ∈ s.log.lh, _
      rw [hlh]
      exact fun n hn => absurd hn not_mem_nil
    · show s.log.lh.Nodup
      rw [hlh]
      exact nodup_nil
    · show ∀ n ∈ s.log.lh, _
      rw [hlh]
      exact fun n hn => absurd hn not_mem_nil
    · intro q n hq
      have hq' := wakeup_logging hq
      by_cases hqp : q = p
      · rw [hqp, show _ = LogPc.out from setPc_self s.log p .out] at hq'
        cases hq'
      · rw [show _ = s.log.pc q from ops_setPc_of_ne .out hqp] at hq'
        exact absurd (by rw [hq']; rfl) (h.no_ops q)
    · rw [show ({ s with log := s.log.commitEnd p } : Fsys ι).cache.contents 1
        = s.durable img 1 from hset.map 1 img.one]
      exact hset.sb
    · show SbAt _ (s.current img 1)
      rw [hnew 1 img.one]
      exact hset.sb

theorem logStep (hi : s.cache.Inv) (h : s.Committing img p st) {a : LogAct ι}
    (hs : s.logStep a = some s') : s'.Inv img := by
  cases a with
  | beginOp q =>
    simp only [Fsys.logStep] at hs
    split at hs
    · obtain ⟨l, hl, rfl⟩ := map_eq_some_iff.mp hs
      have hlinv := h.log.step hl
      cases LogState.Step.of_step hl with
      | sleep hq hwhy =>
        have hpc := setPc_self s.log q .asleep
        have hne : q ≠ p := by
          rintro rfl
          rw [h.pc] at hq
          simp at hq
        rw [if_neg (by rw [hpc]; simp)]
        exact ⟨hi, .committing p st (h.move hne hlinv)⟩
      | enter hq hc hf =>
        rw [h.committing] at hc
        cases hc
    · cases hs
  | logWrite q n =>
    simp only [Fsys.logStep] at hs
    split at hs
    · obtain ⟨l, hl, rfl⟩ := map_eq_some_iff.mp hs
      cases LogState.Step.of_step hl with
      | refuse hq => exact absurd (by rw [hq]; rfl) (h.no_ops q)
      | logWrite hq => exact absurd (by rw [hq]; rfl) (h.no_ops q)
    · cases hs
  | record q =>
    simp only [Fsys.logStep] at hs
    split at hs
    · rename_i n hq
      exact absurd (by rw [hq]; rfl) (h.no_ops q)
    · cases hs
  | endOp q =>
    simp only [Fsys.logStep] at hs
    split at hs
    · obtain ⟨l, hl, rfl⟩ := map_eq_some_iff.mp hs
      cases LogState.Step.of_step hl with
      | endPanic hq | endCommit hq | endWake hq =>
        exact absurd (by rw [hq]; rfl) (h.no_ops q)
    · cases hs
  | commit q =>
    simp only [Fsys.logStep] at hs
    split at hs
    · rename_i hbetween
      split at hs
      · rename_i st0 l hq hl
        obtain rfl := h.log.committer_unique hq h.pc
        rw [h.pc] at hq
        cases hq
        cases hs
        obtain ⟨st', hst'⟩ := h.next hbetween hl
        exact ⟨hi, .committing _ st' hst'⟩
      · cases hs
    · cases hs
  | commitEnd q =>
    simp only [Fsys.logStep] at hs
    split at hs
    · rename_i hbetween
      obtain ⟨l, hl, rfl⟩ := map_eq_some_iff.mp hs
      have hq : s.log.pc q = .commit .done := by
        cases LogState.Step.of_step hl with
        | commitEnd hq => exact hq
      obtain rfl := h.log.committer_unique hq h.pc
      exact ⟨hi, .quiet (h.commitEnd hbetween hl)⟩
    · cases hs
  | wake q =>
    obtain ⟨l, hl, rfl⟩ := map_eq_some_iff.mp hs
    have hlinv := h.log.step hl
    cases LogState.Step.of_step hl with
    | wake hq =>
      have hne : q ≠ p := by
        rintro rfl
        rw [h.pc] at hq
        cases hq
      exact ⟨hi, .committing p st (h.move hne hlinv)⟩

end Committing

/-! ## Crash atomicity -/

theorem Inv.step (h : s.Inv img) {a : FsAct ι} (hs : s.step a = some s') : s'.Inv img := by
  obtain ⟨hi, hphase⟩ := h
  have h := hphase.of_mode
  cases a with
  | crash =>
    cases hs
    exact Inv.crash ⟨hi, hphase⟩
  | initlog p =>
    simp only [Fsys.step] at hs
    split at hs
    · rename_i hmode
      cases hs
      rw [hmode] at h
      exact ⟨hi, .booting p .readsb (Down.initlog h p)⟩
    · cases hs
  | recover p =>
    simp only [Fsys.step] at hs
    split at hs
    · rename_i q b hmode
      split at hs
      · rename_i hguard
        obtain ⟨rfl, hbetween⟩ := hguard
        cases hs
        rw [hmode] at h
        exact Booting.recover hi h hbetween
      · cases hs
    · cases hs
  | exec p =>
    simp only [Fsys.step] at hs
    split at hs
    · rename_i q b hmode
      split at hs
      · rename_i hq
        subst hq
        have hm := (exec_cases img hi hs).1
        rw [hmode] at h
        exact ⟨hm.cache, .booting _ _ (Booting.exec hi h hs)⟩
      · cases hs
    · rename_i hmode
      split at hs
      · rename_i hp
        have hm := (exec_cases img hi hs).1
        rw [hmode] at h
        obtain h | ⟨q, st, h⟩ := h
        · have hpos := Counting.le_total LogPc.commits s.log.pc p
          rw [h.log.committer, h.idle, hp] at hpos
          simp at hpos
        · have hpq : p = q := by
            cases hpc : s.log.pc p with
            | commit st' => exact h.log.committer_unique hpc h.pc
            | out | begins | asleep | inOp | logging => rw [hpc] at hp; cases hp
          subst hpq
          exact ⟨hm.cache, .committing _ _ (h.exec hi hs)⟩
      · cases hs
    · cases hs
  | bio a =>
    simp only [Fsys.step] at hs
    split at hs
    · rename_i hguard
      obtain ⟨hmode, -, ha⟩ := hguard
      obtain ⟨c, hc, rfl⟩ := bio_some hs
      rw [hmode] at h
      obtain h | ⟨q, st, h⟩ := h
      · exact ⟨hi.step hc, .quiet (h.bio hi ha hc)⟩
      · exact ⟨hi.step hc, .committing q st (h.bio hi ha hc)⟩
    · cases hs
  | log a =>
    simp only [Fsys.step] at hs
    split at hs
    · rename_i hmode
      rw [hmode] at h
      obtain h | ⟨q, st, h⟩ := h
      · exact h.logStep hi hs
      · exact h.logStep hi hs
    · cases hs

theorem recover_frame (s : Fsys ι) (p : ι) (b : Boot) :
    (s.recover p b).log.pc = s.log.pc ∧ (s.recover p b).pending = s.pending := by
  have henter : ∀ (t : Fsys ι) (st : Stage),
      (t.enter p st).log.pc = t.log.pc ∧ (t.enter p st).pending = t.pending := by
    intro t st
    unfold Fsys.enter
    split <;> exact ⟨rfl, rfl⟩
  cases b with
  | readsb => exact ⟨rfl, rfl⟩
  | readHead => exact henter s _
  | log st => cases st <;> exact henter _ _

/-- **Crash atomicity.**  Any number of processes run operations in any interleaving, with crashes
    at any point of operations, commits and recoveries.  Whenever a recovery completes, every block
    outside the log area holds what the operations of the finished commits have made of it, and
    nothing of any other operation. -/
theorem recovery_restores_commits (img : Image) (acts : List (FsAct ι)) :
    Along Fsys.step (fun s => ∀ p s', s.step (.recover p) = some s' → s'.mode = .up →
      s'.Restored img) (boot img) acts := by
  have hinv : Along Fsys.step (Inv img) (boot img : Fsys ι) acts :=
    along_of_invariant (inv_boot img) (fun _ _ _ hi hs => hi.step hs) acts
  refine hinv.mono fun s hs p s' hrec hup => ?_
  -- only a booting file system recovers, and nobody has used it yet
  obtain ⟨hpc, hpending⟩ : (∀ q, s'.log.pc q = .out) ∧ s'.pending = [] := by
    simp only [Fsys.step] at hrec
    split at hrec
    · rename_i q b hmode
      split at hrec
      · cases hrec
        obtain ⟨hpc, hpending⟩ := recover_frame s p b
        have h := hs.phase.of_mode
        rw [hmode] at h
        rw [hpc, hpending, Booting.pending h, Booting.log h]
        exact ⟨fun _ => rfl, rfl⟩
      · cases hrec
    · cases hrec
  have h := (hs.step hrec).phase.of_mode
  rw [hup] at h
  obtain h | ⟨q, st, h⟩ := h
  · intro n hn
    have hcur : s'.current img n = s'.durable img n := by
      simp only [current, hpending, replay]
    refine ⟨h.disk n hn, ?_⟩
    refine (h.map n hn fun q hq => ?_).trans hcur
    rw [hpc q] at hq
    cases hq
  · have hq := h.pc
    rw [hpc q] at hq
    cases hq

/-- The image of mkfs, with the log from block 2 on. -/
def mkfsDisk : Image := ⟨mkfsImage, 1000, 2, by decide +kernel, by decide, by decide +kernel⟩

/-- The machine boots, an operation writes block 100, and the machine crashes in the commit, when
    the header has been written.  It then recovers, up to the last step. -/
def crashInCommit : List (FsAct (Fin 1)) :=
  let execs n := replicate n (FsAct.exec (0 : Fin 1))
  .initlog 0 :: execs 6 ++ .recover 0 :: execs 6 ++ .recover 0 :: .recover 0 :: execs 7 ++
    [.recover 0, .log (.beginOp 0), .bio (.bget 0 100), .bio (.acquiresleep 0), .bio (.bread 0),
      .bio (.store 0 2 fun _ => 7), .log (.logWrite 0 100), .log (.record 0), .bio (.brelse 0 2),
      .bio (.unref 0), .log (.endOp 0), .log (.commit 0)] ++
    execs 12 ++ .log (.commit 0) :: execs 5 ++ [.crash, .initlog 0] ++
    execs 6 ++ .recover 0 :: execs 6 ++ .recover 0 :: execs 12 ++ .recover 0 ::
      .recover 0 :: execs 7

theorem block_survives_crash : ∃ s s', run Fsys.step (boot mkfsDisk) crashInCommit = some s ∧
    s.step (.recover 0) = some s' ∧ s'.Restored mkfsDisk ∧ s'.cache.disk 100 0 = 7 := by
  have hrun : (run Fsys.step (boot mkfsDisk) crashInCommit).any (fun s =>
      (s.step (.recover 0)).any fun s' => decide (s'.mode = .up ∧ s'.cache.disk 100 0 = 7))
        = true := by
    decide +kernel
  obtain ⟨s, hs, hnext⟩ := (any_eq_true _ _).mp hrun
  obtain ⟨s', hs', hend⟩ := (any_eq_true _ _).mp hnext
  obtain ⟨hup, hbyte⟩ := of_decide_eq_true hend
  have hrestores := along_iff_run.mp (recovery_restores_commits mkfsDisk crashInCommit)
    crashInCommit [] s (append_nil _).symm hs
  exact ⟨s, s', hs, hs', hrestores 0 s' hs' hup, hbyte⟩

end Xv6.Fsys
