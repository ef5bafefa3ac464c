/-
  Xv6.Fs.CrashPhase

  The phases of the file system: down, booting, quiet and committing.
-/

import Xv6.Fs.CrashView

namespace Xv6.Fsys

open Function Finset Transition CrashSafe Option

variable {ι : Type} [DecidableEq ι] [Fintype ι] {img : Image} {s s' : Fsys ι}
variable {p q : ι} {b : Boot} {l : LogState ι}

/-! ## The phases -/

structure Down (img : Image) (s : Fsys ι) : Prop where
  mode : s.mode = .down
  log : s.log = LogState.boot
  todo : ∀ q, s.todo q = []
  pending : s.pending = []
  map : s.cache.contents = s.cache.disk
  recoverable : Recoverable img.logstart s.cache.disk (s.durable img)

def BootSafe (img : Image) (s : Fsys ι) (p : ι) : Boot → Prop
  | .readsb =>
    Safe View.exec (Fresh img.logstart) (fun v => v.start = img.logstart) (s.todo p) (s.view img)
  | .readHead =>
    Safe View.exec (fun v => v.start = img.logstart ∧ Fresh img.logstart v)
      (fun v => v.lh = getHead (v.disk img.logstart)) (s.todo p) (s.view img)
  | .log st =>
    (∀ n, .getHead n ∉ s.todo p) ∧
    Safe View.exec (View.Recoverable img.logstart) (Settled img.logstart)
      (s.todo p ++ st.rest img.logstart s.log.lh) (s.view img)

structure Booting (img : Image) (s : Fsys ι) (p : ι) (b : Boot) : Prop where
  mode : s.mode = .booting p b
  log : s.log = { LogState.boot with lh := s.log.lh }
  todo : ∀ q, q ≠ p → s.todo q = []
  pending : s.pending = []
  safe : s.BootSafe img p b

/-- No operation is in the middle of modifying block `n`. -/
def Untouched (s : Fsys ι) (n : Nat) : Prop :=
  ∀ p, (s.log.pc p).ops = 1 → ∀ b ∈ (s.cache.user p).touched, (s.cache.buf b).blockno ≠ n

/-- Operations may be under way, but no commit. -/
structure Quiet (img : Image) (s : Fsys ι) : Prop where
  mode : s.mode = .up
  log : s.log.Inv
  idle : s.log.committing = false
  todo : ∀ q, s.todo q = []
  start : s.start = img.logstart
  head : getHead (s.cache.disk img.logstart) = []
  disk : ∀ n, Outside img.logstart n → s.cache.disk n = s.durable img n
  map : ∀ n, Outside img.logstart n → s.Untouched n → s.cache.contents n = s.current img n
  /-- What the operations have changed is in the header. -/
  same : ∀ n, Outside img.logstart n → n ∉ s.log.lh → s.current img n = s.durable img n
  lh : ∀ n ∈ s.log.lh, Outside img.logstart n ∧ n < 2 ^ 32
  nodup : s.log.lh.Nodup
  pinned : ∀ n ∈ s.log.lh, ∃ b, (s.cache.buf b).dirty = true ∧ (s.cache.buf b).blockno = n
  logging : ∀ p n, s.log.pc p = .logging n → Outside img.logstart n ∧ n < 2 ^ 32
  ops : ∀ u ∈ s.pending, u.op ∈ s.ended ∨ ∃ p, (s.log.pc p).ops = 1 ∧ s.op p = u.op
  sbMap : SbAt img.logstart (s.cache.contents 1)
  sbOld : SbAt img.logstart (s.durable img 1)
  sbNew : SbAt img.logstart (s.current img 1)

structure Stuck (img : Image) (s : Fsys ι) (p : ι) (st : Stage) : Prop where
  recoverable : (s.view img).Recoverable img.logstart
  full : nlog ≤ s.log.lh.length
  pinned : ∀ b, (s.cache.buf b).dirty = true ∧ Outside img.logstart (s.cache.buf b).blockno
  idle : (s.cache.user p).pc = .idle
  place : st = .test ∧ s.todo p = [] ∨
    st = .writeLog 0 ∧ s.todo p = Xv6.writeLog img.logstart s.log.lh 0

structure Committing (img : Image) (s : Fsys ι) (p : ι) (st : Stage) : Prop where
  mode : s.mode = .up
  log : s.log.Inv
  pc : s.log.pc p = .commit st
  todo : ∀ q, q ≠ p → s.todo q = []
  noHead : ∀ n, .getHead n ∉ s.todo p
  ops : ∀ u ∈ s.pending, u.op ∈ s.ended
  safe : Safe View.exec (View.Recoverable img.logstart) (Settled img.logstart)
      (s.todo p ++ st.rest img.logstart s.log.lh) (s.view img) ∨ s.Stuck img p st

inductive Phase (img : Image) (s : Fsys ι) : Prop
  | down (h : s.Down img)
  | booting (p : ι) (b : Boot) (h : s.Booting img p b)
  | quiet (h : s.Quiet img)
  | committing (p : ι) (st : Stage) (h : s.Committing img p st)

/-- The mode tells the phase. -/
theorem Phase.of_mode (h : s.Phase img) : match s.mode with
    | .down => s.Down img
    | .booting p b => s.Booting img p b
    | .up => s.Quiet img ∨ ∃ p st, s.Committing img p st := by
  cases h with
  | down h => rw [h.mode]; exact h
  | booting p b h => rw [h.mode]; exact h
  | quiet h => rw [h.mode]; exact .inl h
  | committing p st h => rw [h.mode]; exact .inr ⟨p, st, h⟩

structure Inv (img : Image) (s : Fsys ι) : Prop where
  cache : s.cache.Inv
  phase : s.Phase img

theorem Phase.recoverable (h : s.Phase img) :
    Recoverable img.logstart s.cache.disk (s.durable img) := by
  cases h with
  | down h => exact h.recoverable
  | booting p b h =>
    have hsafe := h.safe
    cases b with
    | readsb => exact hsafe.here.recoverable
    | readHead => exact hsafe.here.2.recoverable
    | log st => exact hsafe.2.here.2
  | quiet h => exact recoverable_of_empty img.one h.head h.disk h.sbOld
  | committing p st h =>
    rcases h.safe with hsafe | hstuck
    · exact hsafe.here.2
    · exact hstuck.recoverable.2

theorem Inv.crash (h : s.Inv img) : s.crash.Inv img where
  cache := Bcache.inv_boot _ _
  phase := .down ⟨rfl, rfl, fun _ => rfl, rfl, Bcache.contents_boot _ _, h.phase.recoverable⟩

theorem inv_boot (img : Image) : (boot img : Fsys ι).Inv img where
  cache := Bcache.inv_boot _ _
  phase := .down ⟨rfl, rfl, fun _ => rfl, rfl, Bcache.contents_boot _ _,
    recoverable_of_empty img.one img.head (fun _ _ => rfl) img.sb⟩

/-! ## Booting -/

theorem Down.initlog (h : s.Down img) (p : ι) :
    Booting img { s.setTodo p readsb with mode := .booting p .readsb } p .readsb where
  mode := rfl
  log := by
    show s.log = { LogState.boot with lh := s.log.lh }
    rw [h.log]
  todo := by
    intro q hq
    show update s.todo p readsb q = []
    rw [update_of_ne hq, h.todo]
  pending := h.pending
  safe := by
    have hfresh : Fresh img.logstart (s.view img) := by
      refine ⟨h.recoverable, h.map, ?_⟩
      simp only [view, h.pending, List.filter_nil, replay]
    show Safe _ _ _ (update s.todo p readsb p) _
    rw [update_self]
    exact safe_readsb hfresh

theorem Booting.exec (hi : s.cache.Inv) (h : s.Booting img p b)
    (hs : s.exec p = some s') : s'.Booting img p b := by
  obtain ⟨hm, hcases⟩ := exec_cases img hi hs
  have hlog : s'.log = { LogState.boot with lh := s'.log.lh } := by
    have hl := hm.log
    rw [h.log] at hl
    exact hl
  rcases hcases with ⟨htodo, hview, hsame⟩ | ⟨i, is, htodo, htodo', hview, hsame⟩
  · refine ⟨hm.mode.trans h.mode, hlog, by rw [htodo]; exact h.todo, hm.pending h.pending, ?_⟩
    have hsafe := h.safe
    cases b <;> simpa only [BootSafe, htodo, hview, hsame] using hsafe
  · have hself : s'.todo p = is := by rw [htodo', update_self]
    refine ⟨hm.mode.trans h.mode, hlog, ?_, hm.pending h.pending, ?_⟩
    · intro q hq
      rw [htodo', update_of_ne hq]
      exact h.todo q hq
    · have hsafe := h.safe
      cases b with
      | readsb | readHead =>
        simp only [BootSafe, htodo] at hsafe
        simp only [BootSafe, hself, hview]
        exact hsafe.next
      | log st =>
        simp only [BootSafe, htodo, List.cons_append] at hsafe
        have hne : ∀ n, i ≠ .getHead n := by
          rintro n rfl
          exact hsafe.1 n List.mem_cons_self
        simp only [BootSafe, hself, hview, hsame hne]
        exact ⟨fun n hn => hsafe.1 n (List.mem_cons_of_mem _ hn), hsafe.2.next⟩

theorem code_noHead (start : Nat) (lh : List Nat) (st : Stage) (n : Nat) :
    .getHead n ∉ st.code start lh := by
  cases st <;> simp [Stage.code, Xv6.writeLog, Xv6.writeHead, installTrans]

theorem Settled.quiet (hlog : s.log = { LogState.boot with lh := s.log.lh })
    (hmode : s.mode = .up) (htodo : ∀ q, s.todo q = []) (hpending : s.pending = [])
    (h : Settled img.logstart (s.view img)) : s.Quiet img := by
  have hlh : s.log.lh = [] := h.lh
  have hboot : s.log = LogState.boot := by
    rw [hlog, hlh]
    rfl
  have hcur : s.current img = s.durable img := by
    simp only [current, hpending, replay]
  refine ⟨hmode, ?_, ?_, htodo, h.placed, h.head, h.disk, ?_, ?_, ?_, ?_, ?_, ?_, ?_, ?_, h.sb, ?_⟩
  · rw [hboot]
    exact LogState.inv_boot
  · rw [hboot]
    rfl
  · intro n hn _
    rw [hcur]
    exact h.map n hn
  · intro n _ _
    rw [hcur]
  · rw [hlh]
    exact fun n hn => absurd hn List.not_mem_nil
  · rw [hlh]
    exact List.nodup_nil
  · rw [hlh]
    exact fun n hn => absurd hn List.not_mem_nil
  · rw [hboot]
    intro p n hp
    cases hp
  · rw [hpending]
    exact fun u hu => absurd hu List.not_mem_nil
  · rw [show s.cache.contents 1 = s.durable img 1 from h.map 1 img.one]
    exact h.sb
  · rw [hcur]
    exact h.sb

theorem Booting.enter (hi : s.cache.Inv) (hlog : s.log = { LogState.boot with lh := s.log.lh })
    (htodo : ∀ q, s.todo q = []) (hpending : s.pending = []) (st : Stage)
    (h : Safe View.exec (View.Recoverable img.logstart) (Settled img.logstart)
      (st.code img.logstart s.log.lh ++ st.rest img.logstart s.log.lh) (s.view img)) :
    (s.enter p st).Inv img := by
  have hstart : s.start = img.logstart := h.here.1
  unfold Fsys.enter
  split
  · rename_i hdone
    subst hdone
    exact ⟨hi, .quiet (Settled.quiet (s := { s with mode := .up }) hlog rfl htodo hpending h.post)⟩
  · refine ⟨hi, .booting p (.log st) ⟨rfl, hlog, ?_, hpending, ?_, ?_⟩⟩
    · intro q hq
      show update s.todo p _ q = []
      rw [update_of_ne hq, htodo]
    · intro n
      show _ ∉ update s.todo p _ p
      rw [update_self]
      exact code_noHead _ _ _ n
    · show Safe _ _ _ (update s.todo p _ p ++ _) (s.view img)
      rw [update_self, hstart]
      exact h

theorem Booting.recover (hi : s.cache.Inv) (h : s.Booting img p b)
    (hbetween : s.Between p) : (s.recover p b).Inv img := by
  have htodo : ∀ q, s.todo q = [] := by
    intro q
    by_cases hq : q = p
    · rw [hq]
      exact hbetween.2
    · exact h.todo q hq
  have hsafe := h.safe
  cases b with
  | readsb =>
    simp only [BootSafe, hbetween.2] at hsafe
    have hstart : s.start = img.logstart := hsafe.post
    refine ⟨hi, .booting p .readHead ⟨rfl, h.log, ?_, h.pending, ?_⟩⟩
    · intro q hq
      show update s.todo p _ q = []
      rw [update_of_ne hq, htodo]
    · show Safe _ _ _ (update s.todo p _ p) (s.view img)
      rw [update_self, hstart]
      exact safe_readHead hstart hsafe.here
  | readHead =>
    simp only [BootSafe, hbetween.2] at hsafe
    have hnext := Stage.rest_next img.logstart s.log.lh (show Stage.writeHead ≠ .clear by simp)
    refine Booting.enter hi h.log htodo h.pending _ ?_
    rw [show (if 0 < s.log.lh.length then Stage.install 0 else .clear)
      = Stage.writeHead.next s.log.lh.length from rfl, ← hnext]
    exact safe_recovery img.one hsafe.here.1 hsafe.here.2 hsafe.post
  | log st =>
    simp only [BootSafe, hbetween.2, List.nil_append] at hsafe
    by_cases hc : st = .clear
    · subst hc
      refine Booting.enter (s := { s with log := { s.log with lh := [] } }) hi ?_ htodo h.pending
        .erase ?_
      · show ({ s.log with lh := [] } : LogState ι) = { LogState.boot with lh := [] }
        rw [h.log]
      · have hnext := hsafe.2.next
        exact hnext
    · have hrecover : s.recover p (.log st) = s.enter p (st.next s.log.lh.length) := by
        cases st <;> first | rfl | exact absurd rfl hc
      rw [hrecover]
      refine Booting.enter hi h.log htodo h.pending _ ?_
      rw [← Stage.rest_next _ _ hc]
      exact hsafe.2

/-! ## The quiet phase -/

theorem ops_setPc_of_ne (pc : LogPc) (h : q ≠ p) : (l.setPc p pc).pc q = l.pc q := by
  simp only [LogState.setPc, update_of_ne h]

theorem setPc_self (l : LogState ι) (p : ι) (pc : LogPc) : (l.setPc p pc).pc p = pc := by
  simp only [LogState.setPc, update_self]

theorem wakeup_ops (l : LogState ι) (q : ι) : (l.wakeup.pc q).ops = (l.pc q).ops := by
  simp only [LogState.wakeup]
  split
  · rename_i hq
    rw [hq]
    rfl
  · rfl

theorem wakeup_logging {n : Nat} (h : l.wakeup.pc q = .logging n) : l.pc q = .logging n := by
  simp only [LogState.wakeup] at h
  split at h
  · cases h
  · exact h

namespace Quiet

variable {l : LogState ι} {op : ι → Nat} {nextOp : Nat} {p : ι} {c : Bcache ι Block}

theorem relog (h : s.Quiet img) {ended : List Nat}
    (hl : l.Inv) (hc : l.committing = false) (hlh : l.lh = s.log.lh)
    (htouched : ∀ q, (s.log.pc q).ops = 1 → (l.pc q).ops = 1 ∨ (s.cache.user q).touched = [])
    (hlogging : ∀ q n, l.pc q = .logging n → Outside img.logstart n ∧ n < 2 ^ 32)
    (hops : ∀ u ∈ s.pending, u.op ∈ ended ∨ ∃ q, (l.pc q).ops = 1 ∧ op q = u.op) :
    Quiet img { s with log := l, op := op, nextOp := nextOp, ended := ended } := by
  refine ⟨h.mode, hl, hc, h.todo, h.start, h.head, h.disk, ?_, ?_, ?_, ?_, ?_, hlogging, hops,
    h.sbMap, h.sbOld, h.sbNew⟩
  · intro n hn hun
    refine h.map n hn fun q hq b hb => ?_
    rcases htouched q hq with hq' | hnil
    · exact hun q hq' b hb
    · rw [hnil] at hb
      cases hb
  · intro n hn hmem
    refine h.same n hn ?_
    rw [← hlh]
    exact hmem
  · intro n hmem
    refine h.lh n ?_
    rw [← hlh]
    exact hmem
  · show l.lh.Nodup
    rw [hlh]
    exact h.nodup
  · intro n hmem
    refine h.pinned n ?_
    rw [← hlh]
    exact hmem

theorem move (h : s.Quiet img) {pc : LogPc} (hl : l.Inv)
    (hc : l.committing = false) (hlh : l.lh = s.log.lh) (hpc : l.pc = update s.log.pc p pc)
    (hplace : (s.log.pc p).ops = 0 ∨ pc.ops = 1 ∧ op p = s.op p) (hop : ∀ q, q ≠ p → op q = s.op q)
    (hlogging : ∀ n, pc = .logging n → Outside img.logstart n ∧ n < 2 ^ 32) :
    Quiet img { s with log := l, op := op, nextOp := nextOp } := by
  have hkeep : ∀ q, (s.log.pc q).ops = 1 → (l.pc q).ops = 1 ∧ op q = s.op q := by
    intro q hq
    rw [hpc]
    by_cases hqp : q = p
    · subst hqp
      rw [update_self]
      rcases hplace with hzero | hone
      · rw [hzero] at hq
        cases hq
      · exact hone
    · rw [update_of_ne hqp]
      exact ⟨hq, hop q hqp⟩
  refine h.relog hl hc hlh (fun q hq => .inl (hkeep q hq).1) ?_ ?_
  · intro q n hq
    rw [hpc] at hq
    by_cases hqp : q = p
    · rw [hqp, update_self] at hq
      exact hlogging n hq
    · rw [update_of_ne hqp] at hq
      exact h.logging q n hq
  · intro u hu
    refine (h.ops u hu).imp_right ?_
    rintro ⟨q, hq, hu⟩
    exact ⟨q, (hkeep q hq).1, (hkeep q hq).2.trans hu⟩

theorem bio (hi : s.cache.Inv) (h : s.Quiet img) {a : BufAct ι Block} (ha : s.Allowed a)
    (hs : s.cache.step a = some c) : Quiet img { s with cache := c } := by
  have hw : ∀ p b, a ≠ .bwrite p b := by
    rintro p b rfl
    exact ha
  have hdisk : c.disk = s.cache.disk := Bcache.step_disk hi hs hw
  -- what is left is how the contents change
  have hrest : (∀ n, Outside img.logstart n → Untouched { s with cache := c } n →
        c.contents n = s.current img n) → SbAt img.logstart (c.contents 1) →
      Quiet img { s with cache := c } := by
    intro hmap hsb
    refine ⟨h.mode, h.log, h.idle, h.todo, h.start, ?_, ?_, hmap, h.same, h.lh, h.nodup, ?_,
      h.logging, h.ops, hsb, h.sbOld, h.sbNew⟩
    · show getHead (c.disk _) = []
      rw [hdisk]
      exact h.head
    · intro n hn
      show c.disk n = _
      rw [hdisk]
      exact h.disk n hn
    · intro n hn
      obtain ⟨b, hd, hb⟩ := h.pinned n hn
      obtain ⟨hd', hb'⟩ := Bcache.step_dirty hi hs hw hd
      exact ⟨b, hd', hb'.trans hb⟩
  have hreads : Bcache.Reads a → Quiet img { s with cache := c } := by
    intro hr
    have hmap := Bcache.reads_contents hi hs hr
    refine hrest (fun n hn hun => ?_) ?_
    · rw [hmap]
      refine h.map n hn fun q hq b hb => ?_
      rw [← Bcache.touched_blockno hi hs hb]
      refine hun q hq b ?_
      rw [show (({ s with cache := c } : Fsys ι).cache.user q).touched = _ from
        Bcache.reads_touched hi hs hr q]
      exact hb
    · rw [hmap]
      exact h.sbMap
  cases a with
  | bwrite | logWrite => exact absurd ha id
  | bget | acquiresleep | bread | brelse | unref => exact hreads trivial
  | store p b v =>
    obtain ⟨hp, hout, hsb⟩ := ha
    have hmap : c.contents = update s.cache.contents (s.cache.buf b).blockno v :=
      Bcache.step_contents hi hs
    have hheld : b ∈ (s.cache.user p).held := by
      cases Bcache.Step.of_step hi hs with
      | store hp hb => exact hb
    have huser : (c.user p).touched = b :: (s.cache.user p).touched ∧
        (∀ q, q ≠ p → c.user q = s.cache.user q) ∧
        (∀ x, (c.buf x).blockno = (s.cache.buf x).blockno) := by
      cases Bcache.Step.of_step hi hs with
      | store hp hb =>
        refine ⟨by simp [Bcache.setUser], fun q hq => ?_, fun x => ?_⟩
        · simp only [Bcache.setUser, Bcache.setBuf_user, update_of_ne hq]
        · by_cases hx : x = b
          · subst hx
            simp [Bcache.setBuf]
          · simp only [Bcache.setUser_buf, Bcache.setBuf, update_of_ne hx]
    refine hrest (fun n hn hun => ?_) ?_
    · have hne : n ≠ (s.cache.buf b).blockno := by
        rintro rfl
        refine hun p (by rw [show ({ s with cache := c } : Fsys ι).log.pc p = .inOp from hp]; rfl)
          b ?_ (huser.2.2 b)
        rw [show (({ s with cache := c } : Fsys ι).cache.user p).touched = _ from huser.1]
        exact List.mem_cons_self
      rw [hmap, update_of_ne hne]
      refine h.map n hn fun q hq x hx => ?_
      rw [← huser.2.2 x]
      refine hun q hq x ?_
      by_cases hqp : q = p
      · subst hqp
        rw [show (({ s with cache := c } : Fsys ι).cache.user q).touched = _ from huser.1]
        exact List.mem_cons_of_mem _ hx
      · rw [show ({ s with cache := c } : Fsys ι).cache.user q = _ from huser.2.1 q hqp]
        exact hx
    · rw [hmap]
      by_cases hone : (s.cache.buf b).blockno = 1
      · rw [hone, update_self]
        unfold SbAt
        rw [hsb hone, ← Bcache.contents_of_held hi hheld, hone]
        exact h.sbMap
      · rw [update_of_ne (Ne.symm hone)]
        exact h.sbMap

theorem record (hi : s.cache.Inv) (h : s.Quiet img) {n : Nat} {b : BufPtr}
    (hp : s.log.pc p = .logging n)
    (hb : s.holding p n = some b) (hl : s.log.step (.record p) = some l)
    (hc : s.cache.step (.logWrite p b) = some c) :
    Quiet img { s with
      log := l, cache := c
      pending := s.pending ++ [⟨s.op p, n, (s.cache.buf b).data⟩] } := by
  obtain ⟨hout, hlt⟩ := h.logging p n hp
  have hlinv : l.Inv := h.log.step hl
  obtain ⟨hpc, hlh, hcom⟩ : l.pc = update s.log.pc p .inOp ∧
      l.lh = (if n ∈ s.log.lh then s.log.lh else s.log.lh ++ [n]) ∧
      l.committing = s.log.committing := by
    cases LogState.Step.of_step hl with
    | record hp' =>
      rw [hp] at hp'
      cases hp'
      exact ⟨rfl, rfl, rfl⟩
  have hpself : l.pc p = .inOp := by rw [hpc, update_self]
  have hpne : ∀ q, q ≠ p → l.pc q = s.log.pc q := fun q hq => by
    rw [hpc, update_of_ne hq]
  have hmem : ∀ m, m ∈ l.lh ↔ m = n ∨ m ∈ s.log.lh := by
    intro m
    rw [hlh]
    split
    · constructor
      · exact .inr
      · rintro (rfl | hm)
        · assumption
        · exact hm
    · simp [or_comm]
  have hmap : c.contents = s.cache.contents := Bcache.step_contents hi hc
  have hdisk : c.disk = s.cache.disk := Bcache.step_disk hi hc fun _ _ hab => by cases hab
  have hdata : (s.cache.buf b).data = s.cache.contents n := holding_contents hi hb
  have hblock := (holding_some hb).2
  have hcur : replay (s.durable img) (s.pending ++ [⟨s.op p, n, (s.cache.buf b).data⟩])
      = update (s.current img) n (s.cache.contents n) := by
    rw [replay_append, hdata]
    rfl
  have huser : (∀ x ∈ (s.cache.user p).touched, x ≠ b → x ∈ (c.user p).touched) ∧
      (∀ q, q ≠ p → c.user q = s.cache.user q) ∧
      (∀ x, (c.buf x).blockno = (s.cache.buf x).blockno) ∧ (c.buf b).dirty = true := by
    cases Bcache.Step.of_step hi hc with
    | logWrite hp hb =>
      refine ⟨fun x hx hne => ?_, fun q hq => ?_, fun x => ?_, by simp [Bcache.setBuf]⟩
      · simp only [Bcache.setUser, Bcache.setBuf_user, update_self]
        exact List.mem_filter.mpr ⟨hx, by simpa using hne⟩
      · simp only [Bcache.setUser, Bcache.setBuf_user, update_of_ne hq]
      · by_cases hx : x = b
        · subst hx
          simp [Bcache.setBuf]
        · simp only [Bcache.setUser_buf, Bcache.setBuf, update_of_ne hx]
  refine ⟨h.mode, hlinv, hcom.trans h.idle, h.todo, h.start, ?_, ?_, ?_, ?_, ?_, ?_, ?_, ?_, ?_,
    ?_, h.sbOld, ?_⟩
  · show getHead (c.disk _) = []
    rw [hdisk]
    exact h.head
  · intro m hm
    show c.disk m = _
    rw [hdisk]
    exact h.disk m hm
  · intro m hm hun
    show c.contents m = replay (s.durable img) _ m
    rw [hmap, hcur]
    by_cases hmn : m = n
    · rw [hmn, update_self]
    · rw [update_of_ne hmn]
      refine h.map m hm fun q hq x hx => ?_
      rw [← huser.2.2.1 x]
      by_cases hqp : q = p
      · subst hqp
        by_cases hxb : x = b
        · rw [hxb, huser.2.2.1 b, hblock]
          exact Ne.symm hmn
        · exact hun q (by rw [show _ = LogPc.inOp from hpself]; rfl) x (huser.1 x hx hxb)
      · refine hun q ?_ x ?_
        · rw [show _ = s.log.pc q from hpne q hqp]
          exact hq
        · rw [show _ = s.cache.user q from huser.2.1 q hqp]
          exact hx
  · intro m hm hnot
    have hnot' := mt (hmem m).mpr hnot
    rw [not_or] at hnot'
    show replay (s.durable img) _ m = _
    rw [hcur, update_of_ne hnot'.1]
    exact h.same m hm hnot'.2
  · intro m hm
    rcases (hmem m).mp hm with rfl | hm
    · exact ⟨hout, hlt⟩
    · exact h.lh m hm
  · show l.lh.Nodup
    rw [hlh]
    split
    · exact h.nodup
    · rename_i hnot
      rw [← List.concat_eq_append]
      exact List.Nodup.concat hnot h.nodup
  · intro m hm
    rcases (hmem m).mp hm with rfl | hm
    · exact ⟨b, huser.2.2.2, (huser.2.2.1 b).trans hblock⟩
    · obtain ⟨x, hd, hx⟩ := h.pinned m hm
      obtain ⟨hd', hx'⟩ := Bcache.step_dirty hi hc (fun _ _ hab => by cases hab) hd
      exact ⟨x, hd', hx'.trans hx⟩
  · intro q m hq
    by_cases hqp : q = p
    · subst hqp
      rw [show ({ s with log := l } : Fsys ι).log.pc q = _ from hpself] at hq
      cases hq
    · rw [show ({ s with log := l } : Fsys ι).log.pc q = _ from hpne q hqp] at hq
      exact h.logging q m hq
  · intro u hu
    rcases List.mem_append.mp hu with hu | hu
    · rcases h.ops u hu with he | ⟨q, hq, hop⟩
      · exact .inl he
      · refine .inr ⟨q, ?_, hop⟩
        by_cases hqp : q = p
        · subst hqp
          show (l.pc q).ops = 1
          rw [hpself]
          rfl
        · show (l.pc q).ops = 1
          rw [hpne q hqp]
          exact hq
    · rw [List.mem_singleton.mp hu]
      refine .inr ⟨p, ?_, rfl⟩
      show (l.pc p).ops = 1
      rw [hpself]
      rfl
  · show SbAt _ (c.contents 1)
    rw [hmap]
    exact h.sbMap
  · show SbAt _ (replay (s.durable img) _ 1)
    rw [hcur]
    by_cases hone : 1 = n
    · rw [← hone, update_self]
      exact h.sbMap
    · rw [update_of_ne hone]
      exact h.sbNew

theorem all_pinned (h : s.Quiet img) (hfull : nlog ≤ s.log.lh.length) (b : BufPtr) :
    (s.cache.buf b).dirty = true ∧ (s.cache.buf b).blockno ∈ s.log.lh := by
  classical
  let pinned : Finset BufPtr := Finset.univ.filter fun b =>
    (s.cache.buf b).dirty = true ∧ (s.cache.buf b).blockno ∈ s.log.lh
  have hsub : s.log.lh.toFinset ⊆ pinned.image fun b => (s.cache.buf b).blockno := by
    intro n hn
    rw [List.mem_toFinset] at hn
    obtain ⟨x, hd, hx⟩ := h.pinned n hn
    refine mem_image.mpr ⟨x, ?_, hx⟩
    simp only [pinned, mem_filter, mem_univ, true_and]
    exact ⟨hd, by rw [hx]; exact hn⟩
  have hcard : Fintype.card BufPtr ≤ pinned.card := by
    have h1 := card_le_card hsub
    have h2 := card_image_le (s := pinned) (f := fun b => (s.cache.buf b).blockno)
    rw [List.toFinset_card_of_nodup h.nodup] at h1
    rw [Fintype.card_fin]
    exact (hfull.trans h1).trans h2
  have hall : pinned = Finset.univ :=
    eq_univ_of_card pinned (le_antisymm (card_le_univ pinned) hcard)
  have hb : b ∈ pinned := by
    rw [hall]
    exact mem_univ b
  exact (mem_filter.mp hb).2

theorem endCommit (h : s.Quiet img) (hbetween : s.Between p)
    (htouched : (s.cache.user p).touched = []) (hl : l.Inv)
    (hpc : l.pc = update s.log.pc p (.commit .test)) (hlh : l.lh = s.log.lh)
    (hout : l.outstanding = 0) :
    Committing img { s with log := l, ended := s.ended ++ [s.op p] } p .test := by
  have honly : ∀ q, (s.log.pc q).ops = 1 → q = p := by
    intro q hq
    by_contra hne
    have hzero : (l.pc q).ops = 0 := by
      have hsum := hl.outstanding
      rw [hout] at hsum
      exact Counting.total_eq_zero.mp (by exact_mod_cast hsum.symm) q
    rw [hpc, update_of_ne hne, hq] at hzero
    cases hzero
  have hops : ∀ u ∈ s.pending, u.op ∈ s.ended ++ [s.op p] := by
    intro u hu
    rcases h.ops u hu with he | ⟨q, hq, hop⟩
    · exact List.mem_append_left _ he
    · rw [honly q hq] at hop
      rw [← hop]
      exact List.mem_append_right _ List.mem_cons_self
  have hview : ({ s with log := l, ended := s.ended ++ [s.op p] } : Fsys ι).view img
      = { s.view img with new := s.current img } := by
    have hfilter : s.pending.filter (·.op ∈ s.ended ++ [s.op p]) = s.pending :=
      List.filter_eq_self.mpr fun u hu => by simpa using hops u hu
    have hview' : ({ s with log := l, ended := s.ended ++ [s.op p] } : Fsys ι).view img
        = { s.view img with
            lh := l.lh
            new := replay (s.durable img) (s.pending.filter (·.op ∈ s.ended ++ [s.op p])) } := rfl
    rw [hview', hfilter, hlh]
    rfl
  have hmap : ∀ n, Outside img.logstart n → s.cache.contents n = s.current img n := by
    intro n hn
    refine h.map n hn fun q hq b hb => ?_
    rw [honly q hq, htouched] at hb
    cases hb
  refine ⟨h.mode, hl, by rw [hpc, update_self], fun q _ => h.todo q, ?_, hops, ?_⟩
  · intro n
    show _ ∉ s.todo p
    rw [hbetween.2]
    exact List.not_mem_nil
  · rw [hview]
    show Safe _ _ _ (s.todo p ++ Stage.rest _ l.lh _) _ ∨ _
    rw [hbetween.2, hlh, List.nil_append]
    by_cases hfull : s.log.lh.length < nlog
    · left
      refine safe_commit (v := { s.view img with new := s.current img }) img.one
        ⟨h.start, h.head, hfull, h.lh, fun i hi => absurd hi (Nat.not_lt_zero i), h.disk, hmap,
          h.same, h.sbOld, h.sbNew⟩
    · right
      rw [not_lt] at hfull
      refine ⟨?_, ?_, ?_, hbetween.1, .inl ⟨rfl, hbetween.2⟩⟩
      · rw [hview]
        exact ⟨h.start, recoverable_of_empty img.one h.head h.disk h.sbOld⟩
      · show nlog ≤ l.lh.length
        rw [hlh]
        exact hfull
      · intro b
        obtain ⟨hd, hmem⟩ := h.all_pinned hfull b
        exact ⟨hd, (h.lh _ hmem).1⟩

theorem logStep (hi : s.cache.Inv) (h : s.Quiet img) {a : LogAct ι}
    (hs : s.logStep a = some s') : s'.Inv img := by
  cases a with
  | beginOp p =>
    simp only [Fsys.logStep] at hs
    split at hs
    · obtain ⟨l, hl, rfl⟩ := map_eq_some_iff.mp hs
      have hlinv := h.log.step hl
      cases LogState.Step.of_step hl with
      | sleep hp hwhy =>
        have hpc := setPc_self s.log p .asleep
        rw [if_neg (by rw [hpc]; simp)]
        have hzero : (s.log.pc p).ops = 0 := by rcases hp with hp | hp <;> rw [hp] <;> rfl
        exact ⟨hi, .quiet (h.move hlinv h.idle rfl rfl (.inl hzero) (fun _ _ => rfl)
          fun n hn => by cases hn)⟩
      | enter hp hc hf =>
        have hpc := setPc_self s.log p .inOp
        rw [if_pos (show _ from hpc)]
        have hzero : (s.log.pc p).ops = 0 := by rcases hp with hp | hp <;> rw [hp] <;> rfl
        exact ⟨hi, .quiet (h.move hlinv h.idle rfl rfl (.inl hzero)
          (fun q hq => update_of_ne hq _ _) fun n hn => by cases hn)⟩
    · cases hs
  | logWrite p n =>
    simp only [Fsys.logStep] at hs
    split at hs
    · rename_i hguard
      obtain ⟨l, hl, rfl⟩ := map_eq_some_iff.mp hs
      have hlinv := h.log.step hl
      cases LogState.Step.of_step hl with
      | refuse hp hmsg =>
        exact ⟨hi, .quiet (h.relog hlinv h.idle rfl (fun q hq => .inl hq) h.logging h.ops)⟩
      | logWrite hp hroom =>
        refine ⟨hi, .quiet (h.move hlinv h.idle rfl rfl (.inr ⟨rfl, rfl⟩) (fun _ _ => rfl) ?_)⟩
        intro m hm
        cases hm
        rw [← h.start]
        exact hguard.2.2
    · cases hs
  | record p =>
    simp only [Fsys.logStep] at hs
    split at hs
    · rename_i n hp
      obtain ⟨b, hb, hs⟩ := bind_eq_some_iff.mp hs
      obtain ⟨l, hl, hs⟩ := bind_eq_some_iff.mp hs
      obtain ⟨c, hc, hs⟩ := bind_eq_some_iff.mp hs
      cases hs
      exact ⟨hi.step hc, .quiet (h.record hi hp hb hl hc)⟩
    · cases hs
  | endOp p =>
    simp only [Fsys.logStep] at hs
    split at hs
    · rename_i hguard
      obtain ⟨l, hl, rfl⟩ := map_eq_some_iff.mp hs
      have hlinv := h.log.step hl
      cases LogState.Step.of_step hl with
      | endPanic hp hc =>
        rw [h.idle] at hc
        cases hc
      | endCommit hp hc ho =>
        exact ⟨hi, .committing p .test (h.endCommit hguard.1 hguard.2 hlinv rfl rfl ho)⟩
      | endWake hp hc ho =>
        have hother : ∀ q, q ≠ p → (((LogState.setPc { s.log with
            outstanding := s.log.outstanding - 1 } p .out).wakeup).pc q).ops
            = (s.log.pc q).ops := by
          intro q hq
          rw [wakeup_ops, ops_setPc_of_ne _ hq]
        refine ⟨hi, .quiet (h.relog hlinv h.idle rfl ?_ ?_ ?_)⟩
        · intro q hq
          by_cases hqp : q = p
          · rw [hqp]
            exact .inr hguard.2
          · rw [hother q hqp]
            exact .inl hq
        · intro q n hq
          have hq' := wakeup_logging hq
          by_cases hqp : q = p
          · rw [hqp, setPc_self] at hq'
            cases hq'
          · rw [ops_setPc_of_ne _ hqp] at hq'
            exact h.logging q n hq'
        · intro u hu
          rcases h.ops u hu with he | ⟨q, hq, hop⟩
          · exact .inl (List.mem_append_left _ he)
          · by_cases hqp : q = p
            · rw [hqp] at hop
              rw [← hop]
              exact .inl (List.mem_append_right _ List.mem_cons_self)
            · exact .inr ⟨q, by rw [hother q hqp]; exact hq, hop⟩
    · cases hs
  | commit p =>
    simp only [Fsys.logStep] at hs
    split at hs
    · split at hs
      · rename_i st l hp hl
        exact absurd hp (h.log.not_commit h.idle p st)
      · cases hs
    · cases hs
  | commitEnd p =>
    simp only [Fsys.logStep] at hs
    split at hs
    · obtain ⟨l, hl, rfl⟩ := map_eq_some_iff.mp hs
      cases LogState.Step.of_step hl with
      | commitEnd hp => exact absurd hp (h.log.not_commit h.idle p .done)
    · cases hs
  | wake p =>
    obtain ⟨l, hl, rfl⟩ := map_eq_some_iff.mp hs
    have hlinv := h.log.step hl
    cases LogState.Step.of_step hl with
    | wake hp =>
      have hzero : (s.log.pc p).ops = 0 := by rw [hp]; rfl
      exact ⟨hi, .quiet (h.move hlinv h.idle rfl rfl (.inl hzero) (fun _ _ => rfl)
        fun n hn => by cases hn)⟩

end Quiet

end Xv6.Fsys
