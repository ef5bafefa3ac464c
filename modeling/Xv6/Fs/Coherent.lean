/-
  Xv6.Fs.Coherent

  The buffer cache is coherent: with the disk below it, it behaves as a plain
  map from block numbers to contents.
-/

import Xv6.Fs.Cache

namespace Xv6

open Function Transition Counting

variable {b : BufPtr} {n : Nat}

namespace Bcache

variable {ι β : Type} [DecidableEq ι] [Fintype ι] {c c' : Bcache ι β} {a : BufAct ι β}
variable {p q : ι} {r : Buf β}

/-! ## The plain map -/

def Shows (c : Bcache ι β) (n : Nat) (b : BufPtr) : Prop :=
  (c.buf b).dev = ROOTDEV ∧ (c.buf b).blockno = n ∧ (c.buf b).valid = true

instance (n : Nat) (b : BufPtr) : Decidable (c.Shows n b) := inferInstanceAs (Decidable (_ ∧ _))

def shown (c : Bcache ι β) (n : Nat) : Option BufPtr :=
  (List.finRange NBUF).find? fun b => decide (c.Shows n b)

theorem shows_of_shown (h : c.shown n = some b) : c.Shows n b := by
  have hb := List.find?_some h
  exact of_decide_eq_true hb

/-- What the cache and the disk hold for a block. -/
def contents (c : Bcache ι β) (n : Nat) : β :=
  match c.shown n with
  | some b => (c.buf b).data
  | none => c.disk n

theorem contents_of_shows (h : c.Inv) (hb : c.Shows n b) : c.contents n = (c.buf b).data := by
  unfold contents
  split
  · rename_i x hx
    have hx' : c.Shows n x := shows_of_shown hx
    rw [h.unique x b hx'.1 hb.1 (hx'.2.1.trans hb.2.1.symm)]
  · rename_i hnone
    have hno := List.find?_eq_none.mp hnone b (List.mem_finRange b)
    exact absurd (decide_eq_true hb) hno

theorem contents_of_none (hb : ∀ b, ¬ c.Shows n b) : c.contents n = c.disk n := by
  unfold contents
  split
  · rename_i x hx
    exact absurd (shows_of_shown hx) (hb x)
  · rfl

theorem contents_of_held (h : c.Inv) (hb : b ∈ (c.user p).held) :
    c.contents (c.buf b).blockno = (c.buf b).data :=
  contents_of_shows h ⟨h.held_dev hb, rfl, h.held p b hb⟩

theorem contents_congr (hshow : ∀ x, c'.Shows n x ↔ c.Shows n x)
    (hdata : ∀ x, c.Shows n x → (c'.buf x).data = (c.buf x).data) (hdisk : c'.disk n = c.disk n) :
    c'.contents n = c.contents n := by
  have hfind : c'.shown n = c.shown n := by
    unfold shown
    congr 1
    funext x
    rw [decide_eq_decide]
    exact hshow x
  unfold contents
  rw [hfind]
  split
  · rename_i x hx
    exact hdata x (shows_of_shown hx)
  · exact hdisk

theorem contents_same {f : Buf β → Buf β} {g : BufUser → BufUser}
    (hdev : (f (c.buf b)).dev = (c.buf b).dev) (hno : (f (c.buf b)).blockno = (c.buf b).blockno)
    (hv : (f (c.buf b)).valid = (c.buf b).valid) (hdata : (f (c.buf b)).data = (c.buf b).data) :
    ((c.setBuf b f).setUser p g).contents = c.contents := by
  have hfields : ∀ x, ((c.setBuf b f).buf x).dev = (c.buf x).dev ∧
      ((c.setBuf b f).buf x).blockno = (c.buf x).blockno ∧
      ((c.setBuf b f).buf x).valid = (c.buf x).valid ∧
      ((c.setBuf b f).buf x).data = (c.buf x).data := by
    intro x
    by_cases hx : x = b
    · subst hx
      simp only [setBuf, update_self]
      exact ⟨hdev, hno, hv, hdata⟩
    · simp only [setBuf, update_of_ne hx, and_self]
  funext n
  refine contents_congr (fun x => ?_) (fun x _ => (hfields x).2.2.2) rfl
  obtain ⟨h1, h2, h3, -⟩ := hfields x
  simp only [Shows, setUser_buf, h1, h2, h3]

theorem contents_other (hbuf : c'.buf = update c.buf b r) (hdisk : c'.disk n = c.disk n)
    (hold : ¬ c.Shows n b) (hnew : ¬ c'.Shows n b) : c'.contents n = c.contents n := by
  have hx : ∀ x, x ≠ b → c'.buf x = c.buf x := fun x hx => by rw [hbuf, update_of_ne hx]
  refine contents_congr (fun x => ?_) (fun x hsx => ?_) hdisk
  · by_cases hxb : x = b
    · subst hxb
      exact iff_of_false hnew hold
    · simp only [Shows, hx x hxb]
  · by_cases hxb : x = b
    · subst hxb
      exact absurd hsx hold
    · rw [hx x hxb]

theorem Inv.not_shows (h : c.Inv) (hdev : (c.buf b).dev = ROOTDEV)
    (hv : (c.buf b).valid = false) (x : BufPtr) : ¬ c.Shows (c.buf b).blockno x := by
  rintro ⟨hxd, hxn, hxv⟩
  rw [h.unique x b hxd hdev hxn, hv] at hxv
  cases hxv

/-- What a label stores. -/
def stores (c : Bcache ι β) : BufAct ι β → Option (Nat × β)
  | .store _ b v => some ((c.buf b).blockno, v)
  | _ => none

/-- **The map under a label.**  Only `store` changes it, in one place. -/
theorem step_contents (h : c.Inv) (hs : c.step a = some c') :
    c'.contents = match c.stores a with
      | some (n, v) => update c.contents n v
      | none => c.contents := by
  have h' := h.step hs
  cases Step.of_step h hs with
  | hit | acquiresleep | logWrite | brelse => exact contents_same rfl rfl rfl rfl
  | cachedRead hp hv => rfl
  | @unref p b hp =>
    have hsame : ((c.setBuf b fun r => { r with refcnt := r.refcnt - 1 }).setUser p id).contents
        = c.contents := contents_same rfl rfl rfl rfl
    rw [← hsame]
    funext n
    exact contents_congr (fun x => by simp only [Shows, setUser_buf, unref_buf, setBuf])
      (fun x _ => by simp only [setUser_buf, unref_buf, setBuf]) (congrFun (unref_disk c b) n)
  | @recycle p n b hp hmiss href hclean =>
    -- the old block is on disk as well, the new one was nowhere else
    funext m
    show _ = c.contents m
    have hno : ∀ x, ¬ c.Shows n x := fun x hx => hmiss x (h.lru x) ⟨hx.1, hx.2.1⟩
    have huntouched : ∀ q, b ∉ (c.user q).touched := by
      intro q hq
      have hpos := h.refcnt_pos (Inv.uses_of_held (h.touched q b hq))
      omega
    have hnew : ∀ k, ¬ ((c.setBuf b fun r => { r with
        dev := ROOTDEV, blockno := n, valid := false, dirty := false, refcnt := 1 }).setUser p
        fun u => { u with pc := .locking b }).Shows k b := by
      rintro k ⟨-, -, hv⟩
      simp [setBuf] at hv
    by_cases hold : c.Shows m b
    · have hdata := h.clean b hold.1 hold.2.2 hclean huntouched
      rw [contents_of_shows h hold, hdata, hold.2.1]
      refine contents_of_none fun x => ?_
      by_cases hx : x = b
      · rw [hx]
        exact hnew m
      · rintro ⟨hxd, hxn, hxv⟩
        simp only [setUser_buf, setBuf, update_of_ne hx] at hxd hxn
        exact hx (h.unique x b hxd hold.1 (hxn.trans hold.2.1.symm))
    · exact contents_other rfl rfl hold (hnew m)
  | @diskRead p b hp hv hd =>
    have hdev : (c.buf b).dev = ROOTDEV := h.used b (h.refcnt_pos (p := p) (by
      simp [BufUser.uses, hp, BufPc.uses]))
    funext m
    show _ = c.contents m
    have hold : ¬ c.Shows m b := by
      rintro ⟨-, -, hv'⟩
      rw [hv] at hv'
      cases hv'
    by_cases hm : m = (c.buf b).blockno
    · subst hm
      rw [contents_of_none (h.not_shows hdev hv)]
      rw [contents_of_shows h' (b := b) ⟨by simpa [setBuf] using hdev, by simp [setBuf],
        by simp [setBuf]⟩]
      simp [setBuf]
    · refine contents_other rfl rfl hold ?_
      rintro ⟨-, hn, -⟩
      simp only [setUser_buf, setBuf, update_self] at hn
      exact hm hn.symm
  | @store p b v hp hb =>
    have hdev := h.held_dev hb
    have hv := h.held p b hb
    funext m
    show _ = update c.contents (c.buf b).blockno v m
    by_cases hm : m = (c.buf b).blockno
    · subst hm
      rw [update_self, contents_of_shows h' (b := b) ⟨by simpa [setBuf] using hdev,
        by simp [setBuf], by simpa [setBuf] using hv⟩]
      simp [setBuf]
    · rw [update_of_ne hm]
      refine contents_other rfl rfl (fun hs => hm hs.2.1.symm) ?_
      rintro ⟨-, hn, -⟩
      simp only [setUser_buf, setBuf, update_self] at hn
      exact hm hn.symm
  | @bwrite p b hp hb hsize =>
    have hdev := h.held_dev hb
    have hv := h.held p b hb
    funext m
    show _ = c.contents m
    by_cases hm : m = (c.buf b).blockno
    · subst hm
      rw [contents_of_held h hb, contents_of_shows h' (b := b) ⟨by simpa [setBuf] using hdev,
        by simp [setBuf], by simp [setBuf]⟩]
      simp [setBuf]
    · refine contents_other rfl ?_ (fun hs => hm hs.2.1.symm) ?_
      · exact update_of_ne hm _ _
      · rintro ⟨-, hn, -⟩
        simp only [setUser_buf, setBuf, update_self] at hn
        exact hm hn.symm

theorem contents_boot [Inhabited β] (disk : Nat → β) (disksize : Nat) :
    (boot disk disksize : Bcache ι β).contents = disk := by
  funext n
  refine contents_of_none fun b => ?_
  simp [Shows, boot]

/-- What a user of the cache sees of a label. -/
inductive Obs (β : Type) where
  | read (n : Nat) (v : β)
  | store (n : Nat) (v : β)
  | silent

/-- A plain map from block numbers to contents. -/
inductive MapStep (m : Nat → β) : Obs β → (Nat → β) → Prop
  | read (n : Nat) : MapStep m (.read n (m n)) m
  | store (n : Nat) (v : β) : MapStep m (.store n v) (update m n v)
  | silent : MapStep m .silent m

def observe (c : Bcache ι β) (a : BufAct ι β) (c' : Bcache ι β) : Obs β :=
  match a with
  | .bread p =>
    match (c.user p).pc with
    | .reading b => .read (c.buf b).blockno (c'.buf b).data
    | _ => .silent
  | .store _ b v => .store (c.buf b).blockno v
  | _ => .silent

theorem step_refines (h : c.Inv) (hs : c.step a = some c') :
    MapStep c.contents (c.observe a c') c'.contents := by
  have h' := h.step hs
  have hmap := step_contents h hs
  have hread : ∀ p b, (c.user p).pc = .reading b → a = .bread p → b ∈ (c'.user p).held →
      (c'.buf b).blockno = (c.buf b).blockno →
      MapStep c.contents (.read (c.buf b).blockno (c'.buf b).data) c'.contents := by
    intro p b hp ha hb hn
    subst ha
    have hval : (c'.buf b).data = c.contents (c.buf b).blockno := by
      rw [← contents_of_held h' hb, hn, hmap]
      rfl
    rw [hval, show c'.contents = c.contents from hmap]
    exact .read _
  have hsilent : c.stores a = none → c.observe a c' = .silent →
      MapStep c.contents (c.observe a c') c'.contents := by
    intro hn ho
    rw [hn] at hmap
    rw [hmap, ho]
    exact .silent
  cases Step.of_step h hs with
  | store hp hb =>
    rw [hmap]
    exact .store _ _
  | @cachedRead p b hp hv =>
    simp only [observe, hp]
    exact hread p b hp rfl (by simp [setUser]) rfl
  | @diskRead p b hp hv hd =>
    simp only [observe, hp]
    exact hread p b hp rfl (by simp [setUser]) (by simp [setBuf])
  | hit | recycle | acquiresleep | bwrite | logWrite | brelse | unref => exact hsilent rfl rfl

/-- What the buffers of a state guarantee their users. -/
structure Exclusive (c : Bcache ι β) : Prop where
  /-- At most one buffer carries a block of device 1. -/
  unique : ∀ b b', (c.buf b).dev = ROOTDEV → (c.buf b').dev = ROOTDEV →
    (c.buf b).blockno = (c.buf b').blockno → b = b'
  referenced : ∀ p b, 0 < (c.user p).uses b → 0 < (c.buf b).refcnt
  kept : ∀ a c' b, c.step a = some c' → 0 < (c.buf b).refcnt ∨ (c.buf b).dirty = true →
    (c'.buf b).dev = (c.buf b).dev ∧ (c'.buf b).blockno = (c.buf b).blockno
  /-- Two processes do not hold the same buffer. -/
  held : ∀ p q b, b ∈ (c.user p).held → b ∈ (c.user q).held → p = q

theorem kept_of_update (hbuf : c'.buf = update c.buf b r)
    (hdev : r.dev = (c.buf b).dev) (hno : r.blockno = (c.buf b).blockno) (x : BufPtr) :
    (c'.buf x).dev = (c.buf x).dev ∧ (c'.buf x).blockno = (c.buf x).blockno := by
  rw [hbuf]
  by_cases hx : x = b
  · subst hx
    rw [update_self]
    exact ⟨hdev, hno⟩
  · rw [update_of_ne hx]
    exact ⟨rfl, rfl⟩

theorem Inv.exclusive (h : c.Inv) : c.Exclusive where
  unique := h.unique
  referenced := fun _ _ hb => h.refcnt_pos hb
  kept := by
    intro a c' x hs hx
    cases Step.of_step h hs with
    | @recycle p n b hp hmiss href hclean =>
      have hne : x ≠ b := by
        rintro rfl
        rw [href, hclean] at hx
        simp at hx
      simp only [setUser_buf, setBuf, update_of_ne hne, and_self]
    | @unref p b hp =>
      exact kept_of_update (unref_buf c b) rfl rfl x
    | cachedRead hp hv => exact ⟨rfl, rfl⟩
    | hit | acquiresleep | diskRead | store | bwrite | logWrite | brelse =>
      refine kept_of_update rfl ?_ ?_ x
      · rfl
      · rfl
  held := fun p q b hp hq => h.owner_unique (owns_of_held hp) (owns_of_held hq)

/-- **The buffer cache is coherent.**  Whatever the processes do in whatever order, the cache over
    the disk is a plain map: every `bread` returns what was stored last in its block.  A block of
    the disk is in at most one buffer, a buffer in use or dirty keeps its block, and no two
    processes hold the same buffer. -/
theorem buffer_cache_coherent [Inhabited β] (disk : Nat → β) (disksize : Nat)
    (acts : List (BufAct ι β)) :
    (∀ c, run step (boot disk disksize) acts = some c →
      Trace MapStep disk (observations step observe (boot disk disksize) acts) c.contents) ∧
    Along step Exclusive (boot disk disksize : Bcache ι β) acts := by
  constructor
  · intro c hrun
    have htrace := trace_of_run contents observe MapStep
      (fun s a s' (hi : s.Inv) hs => ⟨hi.step hs, step_refines hi hs⟩) (inv_boot disk disksize) hrun
    rwa [contents_boot] at htrace
  · have hinv : Along step Inv (boot disk disksize : Bcache ι β) acts :=
      along_of_invariant (inv_boot disk disksize) (fun _ _ _ hi hs => hi.step hs) acts
    exact hinv.mono fun c hc => hc.exclusive

/-! ## What a label of the cache leaves alone -/

theorem step_disk (h : c.Inv) (hs : c.step a = some c') (hw : ∀ p b, a ≠ .bwrite p b) :
    c'.disk = c.disk := by
  cases Step.of_step h hs with
  | bwrite => exact absurd rfl (hw _ _)
  | unref => exact unref_disk c _
  | hit | recycle | acquiresleep | cachedRead | diskRead | store | logWrite | brelse => rfl

theorem bwrite_disk (h : c.Inv) (hs : c.step (.bwrite p b) = some c') :
    c'.disk = update c.disk (c.buf b).blockno (c.contents (c.buf b).blockno) := by
  cases Step.of_step h hs with
  | bwrite hp hb hsize =>
    rw [contents_of_held h hb]
    rfl

theorem step_dirty (h : c.Inv) (hs : c.step a = some c') (hw : ∀ p b, a ≠ .bwrite p b)
    {x : BufPtr} (hd : (c.buf x).dirty = true) :
    (c'.buf x).dirty = true ∧ (c'.buf x).blockno = (c.buf x).blockno := by
  have hupd : ∀ (b : BufPtr) (r : Buf β), r.dirty = (c.buf b).dirty ∨ r.dirty = true →
      r.blockno = (c.buf b).blockno →
      (update c.buf b r x).dirty = true ∧ (update c.buf b r x).blockno = (c.buf x).blockno := by
    intro b r hr hn
    by_cases hx : x = b
    · subst hx
      rw [update_self]
      refine ⟨?_, hn⟩
      rcases hr with hr | hr
      · rw [hr, hd]
      · exact hr
    · rw [update_of_ne hx]
      exact ⟨hd, rfl⟩
  cases Step.of_step h hs with
  | bwrite => exact absurd rfl (hw _ _)
  | @recycle p n b hp hmiss href hclean =>
    have hx : x ≠ b := by
      rintro rfl
      rw [hd] at hclean
      cases hclean
    simp only [setUser_buf, setBuf, update_of_ne hx, hd, and_self]
  | @unref p b hp =>
    rw [setUser_buf, unref_buf]
    exact hupd b _ (.inl rfl) rfl
  | cachedRead => exact ⟨hd, rfl⟩
  | hit | acquiresleep | diskRead | store | brelse => exact hupd _ _ (.inl rfl) rfl
  | logWrite => exact hupd _ _ (.inr rfl) rfl

/-- A label that neither stores nor writes. -/
def Reads : BufAct ι β → Prop
  | .store _ _ _ | .bwrite _ _ | .logWrite _ _ => False
  | _ => True

theorem reads_touched (h : c.Inv) (hs : c.step a = some c') (ha : Reads a) (q : ι) :
    (c'.user q).touched = (c.user q).touched := by
  have hupd : ∀ (p : ι) (u : BufUser), u.touched = (c.user p).touched →
      (update c.user p u q).touched = (c.user q).touched := by
    intro p u hu
    by_cases hq : q = p
    · subst hq
      rw [update_self, hu]
    · rw [update_of_ne hq]
  cases Step.of_step h hs with
  | store | bwrite | logWrite => exact absurd ha id
  | @unref p b hp =>
    simp only [setUser, unref_user]
    exact hupd p _ rfl
  | hit | recycle | acquiresleep | cachedRead | diskRead | brelse => exact hupd _ _ rfl

def proc : BufAct ι β → ι
  | .bget p _ | .acquiresleep p | .bread p | .store p _ _ | .bwrite p _ | .logWrite p _
  | .brelse p _ | .unref p => p

theorem step_user_of_ne (h : c.Inv) (hs : c.step a = some c') (hq : q ≠ proc a) :
    c'.user q = c.user q := by
  cases Step.of_step h hs with
  | unref =>
    simp only [setUser, unref_user]
    exact update_of_ne hq _ _
  | hit | recycle | acquiresleep | cachedRead | diskRead | store | bwrite | logWrite | brelse =>
    exact update_of_ne hq _ _

theorem touched_blockno (h : c.Inv) (hs : c.step a = some c')
    (hb : b ∈ (c.user q).touched) : (c'.buf b).blockno = (c.buf b).blockno :=
  (h.exclusive.kept a c' b hs
    (.inl (h.refcnt_pos (Inv.uses_of_held (h.touched q b hb))))).2

theorem reads_contents (h : c.Inv) (hs : c.step a = some c') (ha : Reads a) :
    c'.contents = c.contents := by
  have hmap := step_contents h hs
  cases a with
  | store | bwrite | logWrite => exact absurd ha id
  | bget | acquiresleep | bread | brelse | unref => exact hmap

theorem reads_disk (h : c.Inv) (hs : c.step a = some c') (ha : Reads a) : c'.disk = c.disk := by
  refine step_disk h hs fun p b hab => ?_
  subst hab
  exact ha

end Bcache
end Xv6
