/-
  Xv6.Fs.Lru

  The list of buffers as bio.c keeps it, in `prev` and `next` pointers, and the
  order it is in.

  `binit`, the two loops of `bget` and the assignments in `brelse` are those of
  the source.  Every label of the cache with pointers is the same label of
  `Bcache` (`step_listed`), and the list is in the order of the moments at which
  the `refcnt` of the buffers last dropped to zero (`Timed`).
-/

import Xv6.Lib.Circular
import Xv6.Fs.Cache

namespace Xv6

open Function List Circular Transition Option

abbrev BufNode := Option BufPtr

/-- The label looks at the list. -/
def BufAct.listed {ι β : Type} : BufAct ι β → Bool
  | .bget _ _ | .unref _ => true
  | _ => false

/-- `bcache` with its pointers. -/
structure PtrCache (ι β : Type) where
  buf : BufPtr → Buf β
  links : Links BufNode
  disk : Nat → β
  disksize : Nat
  user : ι → BufUser

namespace PtrCache

variable {ι β : Type} [DecidableEq ι] {s s' : PtrCache ι β} {a : BufAct ι β} {l : List BufPtr}
  {b : BufPtr}
variable {L : Links BufNode}

/-! ## bio.c over pointers -/

def binit : Links BufNode :=
  (finRange NBUF).foldl (fun L b => L.pushFront none (some b)) ⟨fun _ => none, fun _ => none⟩

def boot [Inhabited β] (disk : Nat → β) (disksize : Nat) : PtrCache ι β where
  buf := (Bcache.boot disk disksize : Bcache ι β).buf
  links := binit
  disk := disk
  disksize := disksize
  user := fun _ => ⟨.idle, [], []⟩

def setBuf (s : PtrCache ι β) (b : BufPtr) (f : Buf β → Buf β) : PtrCache ι β :=
  { s with buf := update s.buf b (f (s.buf b)) }

def setUser (s : PtrCache ι β) (p : ι) (f : BufUser → BufUser) : PtrCache ι β :=
  { s with user := update s.user p (f (s.user p)) }

/-- The test in a loop of `bget`, on what `b` points at. -/
def test (s : PtrCache ι β) (f : Buf β → Bool) (x : BufNode) : Bool := x.any fun b => f (s.buf b)

def cached (s : PtrCache ι β) (dev blockno : Nat) : Option (Option BufNode) :=
  walk s.links.next none (s.test fun r => decide (r.dev = dev ∧ r.blockno = blockno)) (NBUF + 1)
    (s.links.next none)

def spare (s : PtrCache ι β) : Option (Option BufNode) :=
  walk s.links.prev none (s.test fun r => decide (r.refcnt = 0 ∧ r.dirty = false)) (NBUF + 1)
    (s.links.prev none)

def bget (s : PtrCache ι β) (dev blockno : Nat) : Option (PtrCache ι β × BufPtr) :=
  match s.cached dev blockno with
  | some (some (some b)) => some (s.setBuf b fun r => { r with refcnt := r.refcnt + 1 }, b)
  | some none =>
    match s.spare with
    | some (some (some b)) => some (s.setBuf b fun r =>
      { r with dev := dev, blockno := blockno, valid := false, dirty := false, refcnt := 1 }, b)
    -- "bget: no buffers"
    | _ => none
  | _ => none

def unref (s : PtrCache ι β) (b : BufPtr) : PtrCache ι β :=
  let s := s.setBuf b fun r => { r with refcnt := r.refcnt - 1 }
  if (s.buf b).refcnt = 0 then
    { s with links := (s.links.unlink (some b)).pushFront none (some b) }
  else s

/-- The cache with a list in place of the pointers. -/
def listed (s : PtrCache ι β) (l : List BufPtr) : Bcache ι β := ⟨s.buf, l, s.disk, s.disksize, s.user⟩

/-- The cache with pointers in place of the list. -/
def linked (L : Links BufNode) (c : Bcache ι β) : PtrCache ι β :=
  ⟨c.buf, L, c.disk, c.disksize, c.user⟩

def step (s : PtrCache ι β) : BufAct ι β → Option (PtrCache ι β)
  | .bget p blockno =>
    if (s.user p).pc = .idle then
      (s.bget ROOTDEV blockno).map fun (s, b) => s.setUser p fun u => { u with pc := .locking b }
    else none
  | .unref p =>
    match (s.user p).pc with
    | .releasing b => some ((s.unref b).setUser p fun u => { u with pc := .idle })
    | _ => none
  -- the others do not look at the list
  | a => ((s.listed []).step a).map (linked s.links)

/-! ## The pointers spell out the list -/

def Spells (L : Links BufNode) (l : List BufPtr) : Prop := Circle L none (l.map some)

theorem Spells.nodup (h : Spells L l) : l.Nodup :=
  (nodup_cons.mp (Circle.nodup h)).2.of_map some

theorem spells_binit : Spells binit (finRange NBUF).reverse := by
  -- one round of the loop puts the next buffer to the front
  have hloop : ∀ (bs l : List BufPtr) (L : Links BufNode), Spells L l → (bs ++ l).Nodup →
      Spells (bs.foldl (fun L b => L.pushFront none (some b)) L) (bs.reverse ++ l) := by
    intro bs
    induction bs with
    | nil =>
      intro l L h _
      exact h
    | cons b bs ih =>
      intro l L h hnodup
      rw [foldl_cons, reverse_cons, append_assoc, singleton_append]
      obtain ⟨hb, hrest⟩ := nodup_cons.mp hnodup
      apply ih
      · apply Circle.pushFront h
        intro hmem
        rcases mem_cons.mp hmem with hmem | hmem
        · cases hmem
        · obtain ⟨x, hx, hxb⟩ := mem_map.mp hmem
          obtain rfl := some.inj hxb
          exact hb (mem_append_right _ hx)
      · exact nodup_middle.mpr hnodup
  have h := hloop (finRange NBUF) [] ⟨fun _ => none, fun _ => none⟩ (circle_nil rfl rfl)
    (by rw [append_nil]; exact nodup_finRange NBUF)
  rw [append_nil] at h
  exact h

theorem Spells.move (h : Spells L l) (hb : b ∈ l) :
    Spells ((L.unlink (some b)).pushFront none (some b)) (b :: l.erase b) := by
  obtain ⟨xs, ys, rfl⟩ := append_of_mem hb
  have hnodup := h.nodup
  have hxs : b ∉ xs := by
    intro hm
    exact (nodup_append.mp hnodup).2.2 b hm b mem_cons_self rfl
  have hys : b ∉ ys := (nodup_cons.mp (nodup_append.mp hnodup).2.1).1
  have herase : (xs ++ b :: ys).erase b = xs ++ ys := by
    rw [erase_append_right _ hxs, erase_cons_head]
  rw [herase]
  have hun : Spells (L.unlink (some b)) (xs ++ ys) := by
    unfold Spells at h ⊢
    rw [map_append, map_cons] at h
    rw [map_append]
    exact h.unlink
  apply Circle.pushFront hun
  intro hmem
  rcases mem_cons.mp hmem with hmem | hmem
  · cases hmem
  · obtain ⟨x, hx, hxb⟩ := mem_map.mp hmem
    obtain rfl := some.inj hxb
    rcases mem_append.mp hx with hx | hx
    · exact hxs hx
    · exact hys hx

theorem find_map_some (s : PtrCache ι β) (f : Buf β → Bool) (l : List BufPtr) :
    (l.map some).find? (s.test f) = (l.find? fun b => f (s.buf b)).map some := by
  rw [find?_map]
  rfl

theorem Spells.length_lt (h : Spells L l) : (l.map some).length < NBUF + 1 := by
  have := h.nodup.length_le_card
  rw [Fintype.card_fin] at this
  rw [length_map]
  omega

theorem cached_eq (h : Spells s.links l) (dev blockno : Nat) :
    s.cached dev blockno = some (((s.listed l).cached dev blockno).map some) := by
  unfold cached
  rw [h.walk_next _ h.length_lt, find_map_some]
  rfl

theorem spare_eq (h : Spells s.links l) : s.spare = some ((s.listed l).spare.map some) := by
  unfold spare
  rw [h.walk_prev _ h.length_lt, ← map_reverse, find_map_some]
  rfl

theorem bget_eq (h : Spells s.links l) (dev blockno : Nat) :
    s.bget dev blockno =
      ((s.listed l).bget dev blockno).map fun (c, b) => (linked s.links c, b) := by
  unfold bget Bcache.bget
  rw [cached_eq h]
  cases (s.listed l).cached dev blockno with
  | some b => rfl
  | none =>
    rw [spare_eq h]
    cases (s.listed l).spare with
    | some b => rfl
    | none => rfl

end PtrCache

namespace Bcache

variable {ι β : Type} [DecidableEq ι] {c c' : Bcache ι β} {a : BufAct ι β}

theorem iderw_relist (c : Bcache ι β) (b : BufPtr) (l : List BufPtr) :
    ({ c with lru := l } : Bcache ι β).iderw b = (c.iderw b).map fun c' => { c' with lru := l } := by
  simp only [iderw]
  split
  · rfl
  · split <;> rfl

theorem step_relist (ha : a.listed = false) (l : List BufPtr) :
    ({ c with lru := l } : Bcache ι β).step a = (c.step a).map fun c' => { c' with lru := l } := by
  cases a with
  | bget p n => cases ha
  | unref p => cases ha
  | acquiresleep p =>
    simp only [step]
    split
    · split <;> rfl
    · rfl
  | bread p =>
    simp only [step]
    split
    · split
      · rfl
      · rw [iderw_relist]
        cases c.iderw _ <;> rfl
    · rfl
  | store p b v =>
    simp only [step]
    split <;> rfl
  | bwrite p b =>
    simp only [step]
    split
    · have hset : ∀ f, ({ c with lru := l } : Bcache ι β).setBuf b f =
          { c.setBuf b f with lru := l } := fun _ => rfl
      rw [hset, iderw_relist]
      cases (c.setBuf b _).iderw b <;> rfl
    · rfl
  | logWrite p b =>
    simp only [step]
    split <;> rfl
  | brelse p b =>
    simp only [step]
    split <;> rfl

end Bcache

namespace PtrCache

variable {ι β : Type} [DecidableEq ι] {s s' : PtrCache ι β} {a : BufAct ι β} {l : List BufPtr}
  {b : BufPtr}

theorem unref_listed (h : Spells s.links l) (hb : b ∈ l) :
    ∃ l', (s.listed l).unref b = (s.unref b).listed l' ∧ Spells (s.unref b).links l' := by
  let dec : Buf β → Buf β := fun r => { r with refcnt := r.refcnt - 1 }
  unfold unref Bcache.unref
  dsimp only
  by_cases hz : ((s.setBuf b dec).buf b).refcnt = 0
  · have hz' : (((s.listed l).setBuf b dec).buf b).refcnt = 0 := hz
    refine ⟨b :: l.erase b, ?_, ?_⟩
    · rw [if_pos hz', if_pos hz]
      rfl
    · rw [if_pos hz]
      exact h.move hb
  · have hz' : ¬ (((s.listed l).setBuf b dec).buf b).refcnt = 0 := hz
    refine ⟨l, ?_, ?_⟩
    · rw [if_neg hz', if_neg hz]
      rfl
    · rw [if_neg hz]
      exact h

/-- **A label of the pointer cache is the label of the cache with the list.** -/
theorem step_listed (h : Spells s.links l) (hall : ∀ b, b ∈ l) (hs : s.step a = some s') :
    ∃ l', (s.listed l).step a = some (s'.listed l') ∧ Spells s'.links l' := by
  by_cases ha : a.listed = false
  · -- the pointers stay, and so does the list
    have hstep : s.step a = ((s.listed []).step a).map (linked s.links) := by
      cases a with
      | bget p n => cases ha
      | unref p => cases ha
      | _ => rfl
    rw [hstep] at hs
    obtain ⟨c, hc, rfl⟩ := map_eq_some_iff.mp hs
    refine ⟨l, ?_, h⟩
    have hl := Bcache.step_relist (c := s.listed []) ha l
    rw [hc] at hl
    exact hl
  · cases a with
    | bget p n =>
      simp only [step] at hs
      by_cases hp : (s.user p).pc = .idle
      · rw [if_pos hp, bget_eq h] at hs
        have hp' : ((s.listed l).user p).pc = .idle := hp
        cases hg : (s.listed l).bget ROOTDEV n with
        | none => rw [hg] at hs; cases hs
        | some r =>
          obtain ⟨c, b⟩ := r
          rw [hg] at hs
          cases hs
          refine ⟨c.lru, ?_, ?_⟩
          · simp only [Bcache.step]
            rw [if_pos hp', hg]
            rfl
          · have hlru : c.lru = l := by
              unfold Bcache.bget at hg
              split at hg
              · cases hg
                rfl
              · obtain ⟨x, -, hx⟩ := map_eq_some_iff.mp hg
                cases hx
                rfl
            rw [hlru]
            exact h
      · rw [if_neg hp] at hs
        cases hs
    | unref p =>
      cases hp : (s.user p).pc with
      | releasing b =>
        simp only [step, hp] at hs
        cases hs
        obtain ⟨l', hl', hspells⟩ := unref_listed h (hall b)
        refine ⟨l', ?_, hspells⟩
        have hp' : ((s.listed l).user p).pc = .releasing b := hp
        simp only [Bcache.step, hp', hl']
        rfl
      | idle => simp [step, hp] at hs
      | locking b => simp [step, hp] at hs
      | reading b => simp [step, hp] at hs
    | _ => exact absurd rfl ha

end PtrCache

/-! ## The order of the list -/

/-- The cache with a clock that ticks with every label, and the moment the
    `refcnt` of every buffer last dropped to zero; 0 when it never did. -/
structure Timed (ι β : Type) where
  cache : PtrCache ι β
  now : Nat
  lastDrop : BufPtr → Nat

namespace Bcache

variable {ι β : Type} [DecidableEq ι] [Fintype ι] {c c' : Bcache ι β} {a : BufAct ι β}

theorem Inv.drops (h : c.Inv) (hs : c.step a = some c') :
    (c'.lru = c.lru ∧ ∀ b, 0 < (c.buf b).refcnt → 0 < (c'.buf b).refcnt) ∨
      ∃ b, 0 < (c.buf b).refcnt ∧ (c'.buf b).refcnt = 0 ∧ c'.lru = b :: c.lru.erase b ∧
        ∀ x, x ≠ b → (c'.buf x).refcnt = (c.buf x).refcnt := by
  have hset : ∀ (b : BufPtr) (f : Buf β → Buf β) (p : ι) (g : BufUser → BufUser),
      (0 < (c.buf b).refcnt → 0 < (f (c.buf b)).refcnt) →
      ∀ x, 0 < (c.buf x).refcnt → 0 < (((c.setBuf b f).setUser p g).buf x).refcnt := by
    intro b f p g hf x hx
    show 0 < (update c.buf b (f (c.buf b)) x).refcnt
    by_cases hxb : x = b
    · subst hxb
      rw [update_self]
      exact hf hx
    · rw [update_of_ne hxb]
      exact hx
  cases Step.of_step h hs with
  | hit hp hdev hn => exact .inl ⟨rfl, hset _ _ _ _ fun _ => Nat.succ_pos _⟩
  | recycle hp hmiss href hclean => exact .inl ⟨rfl, hset _ _ _ _ fun _ => Nat.one_pos⟩
  | acquiresleep hp hfree => exact .inl ⟨rfl, hset _ _ _ _ id⟩
  | cachedRead hp hv => exact .inl ⟨rfl, fun _ hb => hb⟩
  | diskRead hp hv hd => exact .inl ⟨rfl, hset _ _ _ _ id⟩
  | store hp hb => exact .inl ⟨rfl, hset _ _ _ _ id⟩
  | @bwrite p b hp hb hsize =>
    exact .inl ⟨rfl, hset b (fun r => { r with dirty := false, valid := true }) p id id⟩
  | logWrite hp hb => exact .inl ⟨rfl, hset _ _ _ _ id⟩
  | brelse hp hb ht => exact .inl ⟨rfl, hset _ _ _ _ id⟩
  | @unref p b hp =>
    -- the process that releases the buffer is one of those `refcnt` counts
    have hpos : 0 < (c.buf b).refcnt := by
      apply h.refcnt_pos (p := p)
      simp [BufUser.uses, hp, BufPc.uses]
    have hbuf : ((c.unref b).setUser p fun u => { u with pc := .idle }).buf =
        update c.buf b { c.buf b with refcnt := (c.buf b).refcnt - 1 } := unref_buf c b
    by_cases hz : (c.buf b).refcnt - 1 = 0
    · refine .inr ⟨b, hpos, ?_, ?_, ?_⟩
      · rw [hbuf, update_self]
        exact hz
      · show (c.unref b).lru = _
        unfold Bcache.unref
        dsimp only
        rw [if_pos (by simpa [setBuf] using hz)]
        rfl
      · intro x hx
        rw [hbuf, update_of_ne hx]
    · refine .inl ⟨?_, ?_⟩
      · show (c.unref b).lru = _
        unfold Bcache.unref
        dsimp only
        rw [if_neg (by simpa [setBuf] using hz)]
        rfl
      · rw [hbuf]
        exact hset b (fun r => { r with refcnt := r.refcnt - 1 }) p id fun _ => Nat.pos_of_ne_zero hz

end Bcache

namespace Timed

variable {ι β : Type} [DecidableEq ι] {t t' : Timed ι β} {a : BufAct ι β}

def boot [Inhabited β] (disk : Nat → β) (disksize : Nat) : Timed ι β :=
  ⟨PtrCache.boot disk disksize, 0, fun _ => 0⟩

def step (t : Timed ι β) (a : BufAct ι β) : Option (Timed ι β) :=
  (t.cache.step a).map fun s =>
    { cache := s
      now := t.now + 1
      lastDrop := fun b =>
        if 0 < (t.cache.buf b).refcnt ∧ (s.buf b).refcnt = 0 then t.now + 1 else t.lastDrop b }

/-- The last drop of `b` is longer ago than that of `b'`; two buffers that were
    never dropped are equally old. -/
def Older (t : Timed ι β) (b b' : BufPtr) : Prop :=
  t.lastDrop b ≤ t.lastDrop b' ∧ (0 < t.lastDrop b' → t.lastDrop b < t.lastDrop b')

/-- The pointers form one circle through `head` with every buffer on it once,
    and the buffers stand in the order of their last drops. -/
structure Inv [Fintype ι] (t : Timed ι β) (l : List BufPtr) : Prop where
  spells : PtrCache.Spells t.cache.links l
  cache : (t.cache.listed l).Inv
  order : l.Pairwise fun b b' => t.Older b' b
  past : ∀ b, t.lastDrop b ≤ t.now

variable [Fintype ι] {l : List BufPtr}

theorem inv_boot [Inhabited β] (disk : Nat → β) (disksize : Nat) :
    (boot disk disksize : Timed ι β).Inv (finRange NBUF).reverse where
  spells := PtrCache.spells_binit
  cache := Bcache.inv_boot disk disksize
  order := by
    rw [pairwise_iff_forall_sublist]
    intro b b' _
    exact ⟨le_refl _, fun h => absurd h (lt_irrefl _)⟩
  past := fun _ => le_refl _

/-- **Every label keeps the circle and its order.** -/
theorem Inv.step (h : t.Inv l) (hs : t.step a = some t') : ∃ l', t'.Inv l' := by
  obtain ⟨s, hstep, rfl⟩ := map_eq_some_iff.mp hs
  obtain ⟨l', hlisted, hspells⟩ := PtrCache.step_listed h.spells h.cache.lru hstep
  refine ⟨l', hspells, h.cache.step hlisted, ?_, ?_⟩
  · rcases h.cache.drops hlisted with ⟨hlru, hkeep⟩ | ⟨b, hpos, hzero, hlru, hother⟩
    · -- no buffer drops to zero
      have hl : l' = l := hlru
      subst hl
      refine h.order.imp fun {x y} hxy => ?_
      have hsame : ∀ x, (if 0 < (t.cache.buf x).refcnt ∧ (s.buf x).refcnt = 0 then t.now + 1
          else t.lastDrop x) = t.lastDrop x := by
        intro x
        apply if_neg
        rintro ⟨hp, hz⟩
        have : 0 < (s.buf x).refcnt := hkeep x hp
        omega
      unfold Older
      dsimp only
      rw [hsame, hsame]
      exact hxy
    · -- `b` drops now, later than all others
      have hl : l' = b :: l.erase b := hlru
      subst hl
      have hnow : (if 0 < (t.cache.buf b).refcnt ∧ (s.buf b).refcnt = 0 then t.now + 1
          else t.lastDrop b) = t.now + 1 := if_pos ⟨hpos, hzero⟩
      have hsame : ∀ x, x ≠ b → (if 0 < (t.cache.buf x).refcnt ∧ (s.buf x).refcnt = 0 then t.now + 1
          else t.lastDrop x) = t.lastDrop x := by
        intro x hx
        apply if_neg
        rintro ⟨hp, hz⟩
        have hx' : (s.buf x).refcnt = (t.cache.buf x).refcnt := hother x hx
        omega
      have hnodup := h.spells.nodup
      rw [pairwise_cons]
      refine ⟨fun x hx => ?_, ?_⟩
      · have hxb : x ≠ b := (List.Nodup.mem_erase_iff hnodup).mp hx |>.1
        unfold Older
        dsimp only
        rw [hsame x hxb, hnow]
        have := h.past x
        omega
      · have hsub : (l.erase b).Pairwise fun b b' => t.Older b' b := h.order.sublist erase_sublist
        refine hsub.imp_of_mem fun {x y} hx hy hxy => ?_
        have hxb : x ≠ b := (List.Nodup.mem_erase_iff hnodup).mp hx |>.1
        have hyb : y ≠ b := (List.Nodup.mem_erase_iff hnodup).mp hy |>.1
        unfold Older
        dsimp only
        rw [hsame x hxb, hsame y hyb]
        exact hxy
  · intro b
    dsimp only
    have := h.past b
    split_ifs
    · exact le_refl _
    · omega

def OneCircle (t : Timed ι β) : Prop :=
  ∃ l : List BufPtr, Circle t.cache.links none (l.map some) ∧ ∀ b, l.count b = 1

/-- A `bget` that finds no buffer with the block takes an unused and clean
    one, and of those the one whose last drop is the longest ago. -/
def RecyclesOldest (t : Timed ι β) : Prop :=
  ∀ p n s', t.cache.step (.bget p n) = some s' →
    (∀ b, ¬ ((t.cache.buf b).dev = ROOTDEV ∧ (t.cache.buf b).blockno = n)) →
    ∃ b, (s'.user p).pc = .locking b ∧
      ((t.cache.buf b).refcnt = 0 ∧ (t.cache.buf b).dirty = false) ∧
      ∀ b', b' ≠ b → (t.cache.buf b').refcnt = 0 → (t.cache.buf b').dirty = false → t.Older b b'

theorem Inv.oneCircle (h : t.Inv l) : t.OneCircle := by
  refine ⟨l, h.spells, fun b => ?_⟩
  exact count_eq_one_of_mem h.spells.nodup (h.cache.lru b)

theorem Inv.recyclesOldest (h : t.Inv l) : t.RecyclesOldest := by
  intro p n s' hs hmiss
  have hcached : (t.cache.listed l).cached ROOTDEV n = none := by
    apply find?_eq_none.mpr
    intro b _ hb
    exact hmiss b (of_decide_eq_true hb)
  simp only [PtrCache.step] at hs
  split at hs
  · rw [PtrCache.bget_eq h.spells] at hs
    unfold Bcache.bget at hs
    rw [hcached] at hs
    cases hsp : (t.cache.listed l).spare with
    | none => rw [hsp] at hs; cases hs
    | some b =>
      rw [hsp] at hs
      cases hs
      refine ⟨b, ?_, Bcache.spare_some hsp, fun b' hne href hclean => ?_⟩
      · simp [PtrCache.setUser]
      · -- the search goes backwards: the other candidates stand in front
        unfold Bcache.spare at hsp
        obtain ⟨-, before, after, hsplit, hnot⟩ := find?_eq_some_iff_append.mp hsp
        have hl : l = after.reverse ++ b :: before.reverse := by
          have : l = (before ++ b :: after).reverse := by
            rw [← hsplit, reverse_reverse]
            rfl
          rw [this]
          simp
        have hb' : b' ∈ after.reverse := by
          have hmem : b' ∈ l := h.cache.lru b'
          rw [hl] at hmem
          rcases mem_append.mp hmem with hm | hm
          · exact hm
          · exfalso
            rcases mem_cons.mp hm with hm | hm
            · exact hne hm
            · have := hnot b' (mem_reverse.mp hm)
              simp [PtrCache.listed, href, hclean] at this
        have horder := h.order
        rw [hl] at horder
        exact (pairwise_append.mp horder).2.2 b' hb' b mem_cons_self
  · cases hs

/-- **The buffers form one list in the order of their last drops**, after any sequence of labels of
    any number of processes, and `bget` recycles the least recently used one. -/
theorem lru_along [Inhabited β] (disk : Nat → β) (disksize : Nat) (acts : List (BufAct ι β)) :
    Along step (fun t => t.OneCircle ∧ t.RecyclesOldest) (boot disk disksize) acts := by
  have hinv : Along step (fun t => ∃ l, t.Inv l) (boot disk disksize : Timed ι β) acts := by
    refine along_of_invariant ⟨_, inv_boot disk disksize⟩ ?_ acts
    rintro t a t' ⟨l, h⟩ hs
    exact h.step hs
  refine hinv.mono fun t => ?_
  rintro ⟨l, h⟩
  exact ⟨h.oneCircle, h.recyclesOldest⟩

/-- **The pointers implement the list.**  Every run of bio.c with its pointers is a run of the cache
    that keeps a list, so what holds in all runs of the latter holds here. -/
theorem pointers_refine_list [Inhabited β] (disk : Nat → β) (disksize : Nat)
    (acts : List (BufAct ι β)) : Along PtrCache.step (fun s => ∃ l, PtrCache.Spells s.links l ∧
      Reachable Bcache.step (Bcache.boot disk disksize) (s.listed l))
      (PtrCache.boot disk disksize) acts := by
  refine along_of_invariant ⟨_, PtrCache.spells_binit, .refl⟩ ?_ acts
  rintro s a s' ⟨l, hspells, hr⟩ hs
  have hinv : (s.listed l).Inv :=
    hr.invariant (Bcache.inv_boot disk disksize) fun _ _ _ h hc => h.step hc
  obtain ⟨l', hlisted, hspells'⟩ := PtrCache.step_listed hspells hinv.lru hs
  exact ⟨l', hspells', hr.tail hlisted⟩

end Timed
end Xv6
