/-
  Xv6.Fs.Cache

  What holds of the buffer cache between any two labels: every block of the
  disk is in at most one buffer, reference counts and locks are those of the
  processes, and a buffer that is clean and that nobody has modified agrees
  with the disk.
-/

import Xv6.Fs.Bio

namespace Xv6

open Function List Transition Counting BufUser

variable {b : BufPtr} {u : BufUser}

/-- How often a place in bio.c counts in `b->refcnt`. -/
def BufPc.uses (b : BufPtr) : BufPc → Nat
  | .idle => 0
  | .locking x | .reading x | .releasing x => if x = b then 1 else 0

def BufPc.owns (b : BufPtr) : BufPc → Nat
  | .reading x => if x = b then 1 else 0
  | _ => 0

def BufUser.uses (b : BufPtr) (u : BufUser) : Nat := u.pc.uses b + u.held.count b

def BufUser.owns (b : BufPtr) (u : BufUser) : Nat := u.pc.owns b + u.held.count b

namespace Bcache

variable {ι β : Type} [DecidableEq ι] [Fintype ι] {c c' : Bcache ι β} {a : BufAct ι β}
variable {dev n : Nat}

/-! ## The invariant -/

structure Inv (c : Bcache ι β) : Prop where
  lru : ∀ b, b ∈ c.lru
  unique : ∀ b b', (c.buf b).dev = ROOTDEV → (c.buf b').dev = ROOTDEV →
    (c.buf b).blockno = (c.buf b').blockno → b = b'
  refcnt : ∀ b, (c.buf b).refcnt = total (uses b) c.user
  locked : ∀ b, total (owns b) c.user = if (c.buf b).locked then 1 else 0
  used : ∀ b, 0 < (c.buf b).refcnt → (c.buf b).dev = ROOTDEV
  dirty : ∀ b, (c.buf b).dirty = true → (c.buf b).valid = true ∧ (c.buf b).dev = ROOTDEV
  held : ∀ p b, b ∈ (c.user p).held → (c.buf b).valid = true
  touched : ∀ p b, b ∈ (c.user p).touched → b ∈ (c.user p).held
  clean : ∀ b, (c.buf b).dev = ROOTDEV → (c.buf b).valid = true → (c.buf b).dirty = false →
    (∀ p, b ∉ (c.user p).touched) → (c.buf b).data = c.disk (c.buf b).blockno

theorem inv_boot [Inhabited β] (disk : Nat → β) (disksize : Nat) :
    (boot disk disksize : Bcache ι β).Inv where
  lru := fun b => by simp [boot]
  unique := fun b b' hb => by simp [boot] at hb
  refcnt := fun b => by simp [boot, total, uses, BufPc.uses]
  locked := fun b => by simp [boot, total, owns, BufPc.owns]
  used := fun b hb => by simp [boot] at hb
  dirty := fun b hb => by simp [boot] at hb
  held := fun p b hb => by simp [boot] at hb
  touched := fun p b hb => by simp [boot] at hb
  clean := fun b hb => by simp [boot] at hb

namespace Inv

variable {p : ι}

theorem refcnt_pos (h : c.Inv) (hb : 0 < (c.user p).uses b) : 0 < (c.buf b).refcnt := by
  rw [h.refcnt b]
  exact lt_of_lt_of_le hb (le_total (uses b) c.user p)

theorem uses_of_held (hb : b ∈ u.held) : 0 < u.uses b :=
  Nat.lt_of_lt_of_le (count_pos_iff.mpr hb) (Nat.le_add_left _ _)

theorem owns_of_held (hb : b ∈ u.held) : 0 < u.owns b :=
  Nat.lt_of_lt_of_le (count_pos_iff.mpr hb) (Nat.le_add_left _ _)

theorem held_dev (h : c.Inv) (hb : b ∈ (c.user p).held) : (c.buf b).dev = ROOTDEV :=
  h.used b (h.refcnt_pos (uses_of_held hb))

theorem owner_unique (h : c.Inv) {q : ι} (hp : 0 < (c.user p).owns b)
    (hq : 0 < (c.user q).owns b) : p = q := by
  by_contra hne
  have hle := add_le_total (owns b) c.user hne
  have hone := h.locked b
  split at hone <;> omega

theorem clean_of_others (h : c.Inv) (hdev : (c.buf b).dev = ROOTDEV)
    (hv : (c.buf b).valid = true) (hd : (c.buf b).dirty = false) (hp : b ∉ (c.user p).touched)
    (hq : ∀ q, q ≠ p → b ∉ (c.user q).touched) : (c.buf b).data = c.disk (c.buf b).blockno := by
  refine h.clean b hdev hv hd fun q => ?_
  by_cases hqp : q = p
  · subst hqp
    exact hp
  · exact hq q hqp

theorem valid_of_held (h : c.Inv)
    (hb : b ∈ (c.user p).held ∨ ∃ q, q ≠ p ∧ b ∈ (c.user q).held) : (c.buf b).valid = true := by
  rcases hb with hb | ⟨q, -, hb⟩
  · exact h.held p b hb
  · exact h.held q b hb

theorem unique_ne (h : c.Inv) (hdev : (c.buf b).dev = ROOTDEV) :
    ∀ x, x ≠ b → (c.buf x).dev = ROOTDEV → (c.buf x).blockno ≠ (c.buf b).blockno :=
  fun x hx hxd hxn => hx (h.unique x b hxd hdev hxn)

end Inv

/-! ## What a label can do -/

inductive Step (c : Bcache ι β) : BufAct ι β → Bcache ι β → Prop
  | hit {p : ι} {n : Nat} {b : BufPtr} (hp : (c.user p).pc = .idle)
      (hdev : (c.buf b).dev = ROOTDEV) (hn : (c.buf b).blockno = n) :
      Step c (.bget p n) ((c.setBuf b fun r => { r with refcnt := r.refcnt + 1 }).setUser p
        fun u => { u with pc := .locking b })
  | recycle {p : ι} {n : Nat} {b : BufPtr} (hp : (c.user p).pc = .idle)
      (hmiss : ∀ x ∈ c.lru, ¬ ((c.buf x).dev = ROOTDEV ∧ (c.buf x).blockno = n))
      (href : (c.buf b).refcnt = 0) (hclean : (c.buf b).dirty = false) :
      Step c (.bget p n) ((c.setBuf b fun r => { r with
        dev := ROOTDEV, blockno := n, valid := false, dirty := false, refcnt := 1 }).setUser p
        fun u => { u with pc := .locking b })
  | acquiresleep {p : ι} {b : BufPtr} (hp : (c.user p).pc = .locking b)
      (hfree : (c.buf b).locked = false) :
      Step c (.acquiresleep p) ((c.setBuf b fun r => { r with locked := true }).setUser p
        fun u => { u with pc := .reading b })
  | cachedRead {p : ι} {b : BufPtr} (hp : (c.user p).pc = .reading b)
      (hv : (c.buf b).valid = true) :
      Step c (.bread p) (c.setUser p fun u => { u with pc := .idle, held := b :: u.held })
  | diskRead {p : ι} {b : BufPtr} (hp : (c.user p).pc = .reading b)
      (hv : (c.buf b).valid = false) (hd : (c.buf b).dirty = false) :
      Step c (.bread p) ((c.setBuf b fun r => { r with
        data := c.disk r.blockno, valid := true }).setUser p
        fun u => { u with pc := .idle, held := b :: u.held })
  | store {p : ι} {b : BufPtr} {v : β} (hp : (c.user p).pc = .idle) (hb : b ∈ (c.user p).held) :
      Step c (.store p b v) ((c.setBuf b fun r => { r with data := v }).setUser p
        fun u => { u with touched := b :: u.touched })
  | bwrite {p : ι} {b : BufPtr} (hp : (c.user p).pc = .idle) (hb : b ∈ (c.user p).held)
      (hsize : (c.buf b).blockno < c.disksize) :
      Step c (.bwrite p b) (({ c.setBuf b fun r => { r with dirty := false, valid := true } with
        disk := update c.disk (c.buf b).blockno (c.buf b).data }).setUser p
        fun u => { u with touched := u.touched.filter (· ≠ b) })
  | logWrite {p : ι} {b : BufPtr} (hp : (c.user p).pc = .idle) (hb : b ∈ (c.user p).held) :
      Step c (.logWrite p b) ((c.setBuf b fun r => { r with dirty := true }).setUser p
        fun u => { u with touched := u.touched.filter (· ≠ b) })
  | brelse {p : ι} {b : BufPtr} (hp : (c.user p).pc = .idle) (hb : b ∈ (c.user p).held)
      (ht : b ∉ (c.user p).touched) :
      Step c (.brelse p b) ((c.setBuf b fun r => { r with locked := false }).setUser p
        fun u => { u with pc := .releasing b, held := u.held.erase b })
  | unref {p : ι} {b : BufPtr} (hp : (c.user p).pc = .releasing b) :
      Step c (.unref p) ((c.unref b).setUser p fun u => { u with pc := .idle })

theorem cached_some (h : c.cached dev n = some b) :
    (c.buf b).dev = dev ∧ (c.buf b).blockno = n := by
  have hb := List.find?_some h
  exact of_decide_eq_true hb

theorem cached_none (h : c.cached dev n = none) (x : BufPtr) (hx : x ∈ c.lru) :
    ¬ ((c.buf x).dev = dev ∧ (c.buf x).blockno = n) := by
  have hx' := List.find?_eq_none.mp h x hx
  simpa using hx'

theorem spare_some (h : c.spare = some b) : (c.buf b).refcnt = 0 ∧ (c.buf b).dirty = false := by
  have hb := List.find?_some h
  exact of_decide_eq_true hb

theorem Step.of_step (hi : c.Inv) (h : c.step a = some c') : Step c a c' := by
  cases a with
  | bget p n =>
    simp only [step] at h
    split at h
    · rename_i hp
      unfold bget at h
      split at h
      · rename_i b hb
        cases h
        exact .hit hp (cached_some hb).1 (cached_some hb).2
      · rename_i hmiss
        cases hsp : c.spare with
        | none => rw [hsp] at h; cases h
        | some b =>
          rw [hsp] at h
          cases h
          exact .recycle hp (cached_none hmiss) (spare_some hsp).1 (spare_some hsp).2
    · cases h
  | acquiresleep p =>
    simp only [step] at h
    split at h
    · rename_i b hp
      split at h
      · cases h
      · cases h
        exact .acquiresleep hp (by simpa using ‹¬ (c.buf b).locked = true›)
    · cases h
  | bread p =>
    simp only [step] at h
    split at h
    · rename_i b hp
      by_cases hv : (c.buf b).valid = true
      · rw [if_pos hv] at h
        cases h
        exact .cachedRead hp hv
      · have hd : (c.buf b).dirty = false := by
          by_contra hd
          exact hv (hi.dirty b (by simpa using hd)).1
        rw [if_neg hv] at h
        unfold iderw at h
        simp only [hd] at h
        split at h
        · cases h
        · cases h
          exact .diskRead hp (by simpa using hv) hd
    · cases h
  | store p b v =>
    simp only [step] at h
    split at h
    · rename_i hp
      cases h
      exact .store hp.1 hp.2
    · cases h
  | bwrite p b =>
    simp only [step] at h
    split at h
    · rename_i hp
      unfold iderw at h
      simp only [setBuf, update_self, update_idem] at h
      split at h
      · cases h
      · rename_i hok
        cases h
        refine .bwrite hp.1 hp.2.1 ?_
        simp only [ge_iff_le, not_or, not_le] at hok
        exact hok.2.2.2
    · cases h
  | logWrite p b =>
    simp only [step] at h
    split at h
    · rename_i hp
      cases h
      exact .logWrite hp.1 hp.2
    · cases h
  | brelse p b =>
    simp only [step] at h
    split at h
    · rename_i hp
      cases h
      exact .brelse hp.1 hp.2.1 hp.2.2.1
    · cases h
  | unref p =>
    simp only [step] at h
    split at h
    · rename_i b hp
      cases h
      exact .unref hp
    · cases h

theorem unref_buf (c : Bcache ι β) (b : BufPtr) : (c.unref b).buf
    = update c.buf b { c.buf b with refcnt := (c.buf b).refcnt - 1 } := by
  unfold Bcache.unref
  simp only
  split <;> rfl

theorem unref_user (c : Bcache ι β) (b : BufPtr) : (c.unref b).user = c.user := by
  unfold Bcache.unref
  simp only
  split <;> rfl

theorem unref_disk (c : Bcache ι β) (b : BufPtr) : (c.unref b).disk = c.disk := by
  unfold Bcache.unref
  simp only
  split <;> rfl

/-! ## Every label keeps the invariant -/

structure Change (c : Bcache ι β) (b : BufPtr) (p : ι) (r : Buf β) (u : BufUser)
    (disk : Nat → β) : Prop where
  unique : r.dev = ROOTDEV → ∀ x, x ≠ b → (c.buf x).dev = ROOTDEV → (c.buf x).blockno ≠ r.blockno
  uses : ∀ x, x ≠ b → u.uses x = (c.user p).uses x
  owns : ∀ x, x ≠ b → u.owns x = (c.user p).owns x
  refcnt : r.refcnt + (c.user p).uses b = (c.buf b).refcnt + u.uses b
  locked : (if r.locked then 1 else 0) + (c.user p).owns b
    = (if (c.buf b).locked then 1 else 0) + u.owns b
  used : 0 < r.refcnt → r.dev = ROOTDEV
  dirty : r.dirty = true → r.valid = true ∧ r.dev = ROOTDEV
  valid : b ∈ u.held ∨ (∃ q, q ≠ p ∧ b ∈ (c.user q).held) → r.valid = true
  held : ∀ x, x ≠ b → x ∈ u.held → x ∈ (c.user p).held
  touched : ∀ x ∈ u.touched, x ∈ u.held
  kept : ∀ x, x ≠ b → x ∈ (c.user p).touched → x ∈ u.touched
  same : ∀ x, x ≠ b → (c.buf x).dev = ROOTDEV → disk (c.buf x).blockno = c.disk (c.buf x).blockno
  clean : r.dev = ROOTDEV → r.valid = true → r.dirty = false → b ∉ u.touched →
    (∀ q, q ≠ p → b ∉ (c.user q).touched) → r.data = disk r.blockno

theorem Inv.change (h : c.Inv) {p : ι} {r : Buf β}
    (hc : Change c b p r u c'.disk) (hbuf : c'.buf = update c.buf b r)
    (huser : c'.user = update c.user p u) (hlru : ∀ x, x ∈ c'.lru) : c'.Inv := by
  have hself : c'.buf b = r := by rw [hbuf, update_self]
  have hother : ∀ x, x ≠ b → c'.buf x = c.buf x := fun x hx => by
    rw [hbuf, update_of_ne hx]
  have hp : c'.user p = u := by rw [huser, update_self]
  have hq : ∀ q, q ≠ p → c'.user q = c.user q := fun q hq => by
    rw [huser, update_of_ne hq]
  refine ⟨hlru, ?_, ?_, ?_, ?_, ?_, ?_, ?_, ?_⟩
  · intro x y hx hy hxy
    by_cases hxb : x = b <;> by_cases hyb : y = b
    · rw [hxb, hyb]
    · subst hxb
      rw [hself] at hx hxy
      rw [hother y hyb] at hy hxy
      exact absurd hxy.symm (hc.unique hx y hyb hy)
    · subst hyb
      rw [hself] at hy hxy
      rw [hother x hxb] at hx hxy
      exact absurd hxy (hc.unique hy x hxb hx)
    · rw [hother x hxb] at hx hxy
      rw [hother y hyb] at hy hxy
      exact h.unique x y hx hy hxy
  · intro x
    have hmove := total_update (uses x) c.user p u
    have href := h.refcnt x
    rw [← huser] at hmove
    by_cases hxb : x = b
    · subst hxb
      have hdelta := hc.refcnt
      rw [hself]
      omega
    · rw [hother x hxb]
      have hdelta := hc.uses x hxb
      omega
  · intro x
    have hmove := total_update (owns x) c.user p u
    have hlock := h.locked x
    rw [← huser] at hmove
    by_cases hxb : x = b
    · subst hxb
      have hdelta := hc.locked
      rw [hself]
      omega
    · rw [hother x hxb, ← hlock]
      have hdelta := hc.owns x hxb
      omega
  · intro x hx
    by_cases hxb : x = b
    · subst hxb
      rw [hself] at hx ⊢
      exact hc.used hx
    · rw [hother x hxb] at hx ⊢
      exact h.used x hx
  · intro x hx
    by_cases hxb : x = b
    · subst hxb
      rw [hself] at hx ⊢
      exact hc.dirty hx
    · rw [hother x hxb] at hx ⊢
      exact h.dirty x hx
  · intro q x hx
    by_cases hqp : q = p
    · subst hqp
      rw [hp] at hx
      by_cases hxb : x = b
      · subst hxb
        rw [hself]
        exact hc.valid (.inl hx)
      · rw [hother x hxb]
        exact h.held q x (hc.held x hxb hx)
    · rw [hq q hqp] at hx
      by_cases hxb : x = b
      · subst hxb
        rw [hself]
        exact hc.valid (.inr ⟨q, hqp, hx⟩)
      · rw [hother x hxb]
        exact h.held q x hx
  · intro q x hx
    by_cases hqp : q = p
    · subst hqp
      rw [hp] at hx ⊢
      exact hc.touched x hx
    · rw [hq q hqp] at hx ⊢
      exact h.touched q x hx
  · intro x hdev hv hd ht
    by_cases hxb : x = b
    · subst hxb
      rw [hself] at hdev hv hd ⊢
      refine hc.clean hdev hv hd ?_ fun q hqp => ?_
      · rw [← hp]
        exact ht p
      · rw [← hq q hqp]
        exact ht q
    · rw [hother x hxb] at hdev hv hd ⊢
      rw [hc.same x hxb hdev]
      refine h.clean x hdev hv hd fun q => ?_
      by_cases hqp : q = p
      · subst hqp
        intro hmem
        refine ht q ?_
        rw [hp]
        exact hc.kept x hxb hmem
      · rw [← hq q hqp]
        exact ht q

theorem Inv.step (h : c.Inv) (hs : c.step a = some c') : c'.Inv := by
  cases Step.of_step h hs with
  | @hit p n b hp hdev hn =>
    refine h.change (b := b) (p := p) ?_ rfl rfl h.lru
    refine ⟨fun _ => h.unique_ne hdev, ?_, ?_, ?_, ?_, fun _ => hdev,
      h.dirty b, ?_, fun _ _ hx => hx, h.touched p, fun _ _ hx => hx, fun _ _ _ => rfl, ?_⟩
    · intro x hx
      simp [uses, hp, BufPc.uses, Ne.symm hx]
    · intro x hx
      simp [owns, hp, BufPc.owns]
    · simp [uses, hp, BufPc.uses]
      omega
    · simp [owns, hp, BufPc.owns]
    · exact h.valid_of_held
    · intro _ hv hd ht hq
      exact h.clean_of_others hdev hv hd ht hq
  | @recycle p n b hp hmiss href hclean =>
    have hunheld : ∀ q, b ∉ (c.user q).held := by
      intro q hb
      have hpos := h.refcnt_pos (uses_of_held hb)
      omega
    have hfree : (c.buf b).locked = false := by
      have hzero : total (owns b) c.user = 0 := by
        have hle : total (owns b) c.user ≤ total (uses b) c.user := by
          refine Finset.sum_le_sum fun q _ => Nat.add_le_add_right ?_ _
          cases (c.user q).pc <;> simp [BufPc.owns, BufPc.uses]
        have href' := h.refcnt b
        omega
      have hlock := h.locked b
      by_contra hl
      rw [if_pos (by simpa using hl)] at hlock
      omega
    refine h.change (b := b) (p := p) ?_ rfl rfl h.lru
    refine ⟨fun _ x _ hxd hxn => hmiss x (h.lru x) ⟨hxd, hxn⟩, ?_, ?_, ?_, ?_, fun _ => rfl,
      fun hd => (by cases hd), ?_, fun _ _ hx => hx, h.touched p, fun _ _ hx => hx,
      fun _ _ _ => rfl, fun _ hv => (by cases hv)⟩
    · intro x hx
      simp [uses, hp, BufPc.uses, Ne.symm hx]
    · intro x hx
      simp [owns, hp, BufPc.owns]
    · simp [uses, hp, BufPc.uses, href]
    · simp [owns, hp, BufPc.owns]
    · rintro (hb | ⟨q, -, hb⟩)
      · exact absurd hb (hunheld p)
      · exact absurd hb (hunheld q)
  | @acquiresleep p b hp hfree =>
    have hdev : (c.buf b).dev = ROOTDEV := h.used b (h.refcnt_pos (p := p) (by
      simp [uses, hp, BufPc.uses]))
    refine h.change (b := b) (p := p) ?_ rfl rfl h.lru
    refine ⟨fun _ => h.unique_ne hdev, ?_, ?_, ?_, ?_, fun _ => hdev,
      h.dirty b, ?_, fun _ _ hx => hx, h.touched p, fun _ _ hx => hx, fun _ _ _ => rfl, ?_⟩
    · intro x hx
      simp [uses, hp, BufPc.uses]
    · intro x hx
      simp [owns, hp, BufPc.owns, Ne.symm hx]
    · simp [uses, hp, BufPc.uses]
    · simp [owns, hp, BufPc.owns, hfree]
    · exact h.valid_of_held
    · intro _ hv hd ht hq
      exact h.clean_of_others hdev hv hd ht hq
  | @cachedRead p b hp hv =>
    have hdev : (c.buf b).dev = ROOTDEV := h.used b (h.refcnt_pos (p := p) (by
      simp [uses, hp, BufPc.uses]))
    refine h.change (b := b) (p := p) (r := c.buf b) ?_ (update_eq_self _ _).symm rfl h.lru
    refine ⟨fun _ => h.unique_ne hdev, ?_, ?_, ?_, ?_, fun _ => hdev,
      h.dirty b, fun _ => hv, ?_, ?_, fun _ _ hx => hx, fun _ _ _ => rfl, ?_⟩
    · intro x hx
      simp [uses, hp, BufPc.uses, Ne.symm hx]
    · intro x hx
      simp [owns, hp, BufPc.owns, Ne.symm hx]
    · simp [uses, hp, BufPc.uses]
      omega
    · simp [owns, hp, BufPc.owns]
      omega
    · intro x hx hmem
      rcases mem_cons.mp hmem with rfl | hmem
      · exact absurd rfl hx
      · exact hmem
    · intro x hx
      exact mem_cons_of_mem _ (h.touched p x hx)
    · intro _ hv hd ht hq
      exact h.clean_of_others hdev hv hd ht hq
  | @diskRead p b hp hv hd =>
    have hdev : (c.buf b).dev = ROOTDEV := h.used b (h.refcnt_pos (p := p) (by
      simp [uses, hp, BufPc.uses]))
    refine h.change (b := b) (p := p) ?_ rfl rfl h.lru
    refine ⟨fun _ => h.unique_ne hdev, ?_, ?_, ?_, ?_, fun _ => hdev,
      ?_, fun _ => rfl, ?_, ?_, fun _ _ hx => hx, fun _ _ _ => rfl, fun _ _ _ _ _ => rfl⟩
    · intro x hx
      simp [uses, hp, BufPc.uses, Ne.symm hx]
    · intro x hx
      simp [owns, hp, BufPc.owns, Ne.symm hx]
    · simp [uses, hp, BufPc.uses]
      omega
    · simp [owns, hp, BufPc.owns]
      omega
    · intro hd'
      rw [show (c.buf b).dirty = true from hd'] at hd
      cases hd
    · intro x hx hmem
      rcases mem_cons.mp hmem with rfl | hmem
      · exact absurd rfl hx
      · exact hmem
    · intro x hx
      exact mem_cons_of_mem _ (h.touched p x hx)
  | @store p b v hp hb =>
    have hdev := h.held_dev hb
    refine h.change (b := b) (p := p) ?_ rfl rfl h.lru
    refine ⟨fun _ => h.unique_ne hdev, fun _ _ => rfl, fun _ _ => rfl,
      rfl, rfl, fun _ => hdev, h.dirty b, fun _ => h.held p b hb, fun _ _ hx => hx, ?_,
      fun _ _ hx => mem_cons_of_mem _ hx, fun _ _ _ => rfl, ?_⟩
    · intro x hx
      rcases mem_cons.mp hx with rfl | hx
      · exact hb
      · exact h.touched p x hx
    · intro _ _ _ ht
      exact absurd mem_cons_self ht
  | @bwrite p b hp hb hsize =>
    have hdev := h.held_dev hb
    refine h.change (b := b) (p := p) ?_ rfl rfl h.lru
    refine ⟨fun _ => h.unique_ne hdev, fun _ _ => rfl, fun _ _ => rfl,
      rfl, rfl, fun _ => hdev, fun hd => (by cases hd), fun _ => rfl, fun _ _ hx => hx, ?_, ?_,
      ?_, ?_⟩
    · intro x hx
      exact h.touched p x (mem_filter.mp hx).1
    · intro x hx hmem
      exact mem_filter.mpr ⟨hmem, by simpa using hx⟩
    · intro x hx hxd
      exact update_of_ne (h.unique_ne hdev x hx hxd) _ _
    · intro _ _ _ _ _
      show (c.buf b).data = update c.disk (c.buf b).blockno (c.buf b).data (c.buf b).blockno
      rw [update_self]
  | @logWrite p b hp hb =>
    have hdev := h.held_dev hb
    refine h.change (b := b) (p := p) ?_ rfl rfl h.lru
    refine ⟨fun _ => h.unique_ne hdev, fun _ _ => rfl, fun _ _ => rfl,
      rfl, rfl, fun _ => hdev, fun _ => ⟨h.held p b hb, hdev⟩, fun _ => h.held p b hb,
      fun _ _ hx => hx, ?_, ?_, fun _ _ _ => rfl, fun _ _ hd => (by cases hd)⟩
    · intro x hx
      exact h.touched p x (mem_filter.mp hx).1
    · intro x hx hmem
      exact mem_filter.mpr ⟨hmem, by simpa using hx⟩
  | @brelse p b hp hb ht =>
    have hdev := h.held_dev hb
    have hcount : 0 < (c.user p).held.count b := count_pos_iff.mpr hb
    have hlock : (c.buf b).locked = true := by
      have hle := le_total (owns b) c.user p
      have hone := h.locked b
      have hpos := owns_of_held hb
      by_contra hl
      rw [if_neg hl] at hone
      omega
    have honce : (c.user p).held.count b = 1 := by
      have hle := le_total (owns b) c.user p
      have hone := h.locked b
      rw [if_pos hlock] at hone
      simp only [owns] at hle
      omega
    refine h.change (b := b) (p := p) ?_ rfl rfl h.lru
    refine ⟨fun _ => h.unique_ne hdev, ?_, ?_, ?_, ?_, fun _ => hdev, h.dirty b, fun _ =>
      h.held p b hb, fun _ _ hx => mem_of_mem_erase hx, ?_, fun _ _ hx => hx, fun _ _ _ => rfl, ?_⟩
    · intro x hx
      simp [uses, hp, BufPc.uses, Ne.symm hx, count_erase_of_ne hx]
    · intro x hx
      simp [owns, hp, BufPc.owns, count_erase_of_ne hx]
    · simp [uses, hp, BufPc.uses, count_erase_self]
      omega
    · simp [owns, hp, BufPc.owns, count_erase_self, hlock, honce]
    · intro x hx
      have hxb : x ≠ b := by
        rintro rfl
        exact ht hx
      exact (mem_erase_of_ne hxb).mpr (h.touched p x hx)
    · intro _ hv hd ht' hq
      exact h.clean_of_others hdev hv hd ht' hq
  | @unref p b hp =>
    have huse : (c.user p).uses b = (c.user p).held.count b + 1 := by
      simp [uses, hp, BufPc.uses]
      omega
    have hpos : 0 < (c.buf b).refcnt := h.refcnt_pos (p := p) (by omega)
    have hdev := h.used b hpos
    have hlru : ∀ x, x ∈ (c.unref b).lru := by
      intro x
      unfold Bcache.unref
      simp only
      split
      · by_cases hx : x = b
        · subst hx
          exact mem_cons_self
        · exact mem_cons_of_mem _ ((mem_erase_of_ne hx).mpr (h.lru x))
      · exact h.lru x
    refine h.change (b := b) (p := p) (u := { c.user p with pc := .idle }) ?_ (unref_buf c b)
      (by simp only [setUser, unref_user]) hlru
    rw [setUser_disk, unref_disk]
    refine ⟨fun _ => h.unique_ne hdev, ?_, ?_, ?_, ?_, fun _ => hdev,
      h.dirty b, ?_, fun _ _ hx => hx, h.touched p, fun _ _ hx => hx, fun _ _ _ => rfl, ?_⟩
    · intro x hx
      simp [uses, hp, BufPc.uses, Ne.symm hx]
    · intro x hx
      simp [owns, hp, BufPc.owns]
    · simp only [uses, BufPc.uses] at huse ⊢
      omega
    · simp [owns, hp, BufPc.owns]
    · exact h.valid_of_held
    · intro _ hv hd ht hq
      exact h.clean_of_others hdev hv hd ht hq

end Bcache
end Xv6
