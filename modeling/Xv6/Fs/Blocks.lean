/-
  Xv6.Fs.Blocks

  The bitmap of the blocks in use, and what `balloc` and `bfree` do to it.
-/

import Xv6.Fs.Inode

namespace Xv6

open Function List Wp Bytes Transition

/-- The blocks before the first data block have room for the superblock, the
    inodes and the bitmap, and these do not overlap. -/
structure Superblock.Layout (sb : Superblock) : Prop where
  nblocks_le : sb.nblocks ≤ sb.size
  size_lt : sb.size < 2 ^ 32
  super : 1 < sb.datastart
  root : ROOTINO < sb.ninodes
  inodes : ∀ i < sb.ninodes, 1 < sb.iblock i ∧ sb.iblock i < sb.datastart
  bitmap : ∀ b < sb.size, 1 < sb.bblock b ∧ sb.bblock b < sb.datastart
  apart : ∀ i < sb.ninodes, ∀ b < sb.size, sb.iblock i ≠ sb.bblock b

namespace Fs

variable {s : Fs} {b c : Nat} {data : Block}
variable {U : Nat → Prop} {x : Nat}

/-! ## Writing a block -/

def put (s : Fs) (b : Nat) (data : Block) : Fs :=
  { s with disk := update s.disk b data, op := s.op.map (b :: ·) }

@[simp] theorem put_disk_self : (s.put b data).disk b = data := update_self ..

theorem put_disk_of_ne (h : c ≠ b) : (s.put b data).disk c = s.disk c := update_of_ne h ..

@[simp] theorem put_sb : (s.put b data).sb = s.sb := rfl
@[simp] theorem put_inode : (s.put b data).inode = s.inode := rfl

@[simp] theorem put_isSome : (s.put b data).op.isSome = s.op.isSome := by
  simp [put]

def lg (s : Fs) : Finset Nat := (s.op.getD []).toFinset

theorem lg_put (hop : s.op.isSome) : (s.put b data).lg = insert b s.lg := by
  obtain ⟨l, hl⟩ := Option.isSome_iff_exists.mp hop
  simp [lg, put, hl]

/-! ## The bitmap -/

def bitOf (s : Fs) (b : Nat) : Bool := bit (s.disk (s.sb.bblock b)) (b % BPB)

def Bits (s : Fs) (U : Nat → Prop) : Prop :=
  ∀ b < s.sb.size, s.bitOf b = true ↔ b < s.sb.datastart ∨ U b

theorem Bits.congr {V : Nat → Prop} (h : s.Bits U) (hUV : ∀ b, U b ↔ V b) : s.Bits V := by
  intro b hb
  rw [h b hb, hUV]

theorem bitOf_put_of_ne (h : s.sb.bblock b ≠ c) : (s.put c data).bitOf b = s.bitOf b := by
  unfold bitOf
  rw [put_sb, put_disk_of_ne h]

theorem Bits.put (h : s.Bits U) (hc : ∀ b < s.sb.size, s.sb.bblock b ≠ c) :
    (s.put c data).Bits U := by
  intro b hb
  rw [bitOf_put_of_ne (hc b hb)]
  exact h b hb

def freeBlocks (s : Fs) : Nat := ((range s.sb.size).filter fun b => !s.bitOf b).length

def mark (s : Fs) (b : Nat) : Fs :=
  { s with overlap := s.overlap || s.inUse b }.put (s.sb.bblock b)
    (raise (s.disk (s.sb.bblock b)) (b % BPB))

def alloc (s : Fs) (b : Nat) : Fs := (s.mark b).put b zero

def free (s : Fs) (b : Nat) : Fs :=
  s.put (s.sb.bblock b) (lower (s.disk (s.sb.bblock b)) (b % BPB))

@[simp] theorem alloc_sb : (s.alloc b).sb = s.sb := rfl
@[simp] theorem alloc_inode : (s.alloc b).inode = s.inode := rfl
@[simp] theorem alloc_overlap : (s.alloc b).overlap = (s.overlap || s.inUse b) := rfl
@[simp] theorem free_sb : (s.free b).sb = s.sb := rfl

@[simp] theorem mark_isSome : (s.mark b).op.isSome = s.op.isSome := put_isSome

@[simp] theorem alloc_isSome : (s.alloc b).op.isSome = s.op.isSome := by
  simp [alloc]

@[simp] theorem free_isSome : (s.free b).op.isSome = s.op.isSome := put_isSome

@[simp] theorem alloc_disk_self : (s.alloc b).disk b = zero := put_disk_self

theorem mark_disk_of_ne (hc : c ≠ s.sb.bblock b) : (s.mark b).disk c = s.disk c :=
  update_of_ne hc ..

theorem alloc_disk_of_ne (hb : c ≠ b) (hc : c ≠ s.sb.bblock b) : (s.alloc b).disk c = s.disk c :=
  (put_disk_of_ne hb).trans (mark_disk_of_ne hc)

theorem free_disk_of_ne (hc : c ≠ s.sb.bblock b) : (s.free b).disk c = s.disk c := put_disk_of_ne hc

theorem lg_alloc (hop : s.op.isSome) : (s.alloc b).lg = insert b (insert (s.sb.bblock b) s.lg) := by
  have hmark : (s.mark b).lg = insert (s.sb.bblock b) s.lg :=
    lg_put (s := { s with overlap := s.overlap || s.inUse b }) hop
  rw [alloc, lg_put (by simpa using hop), hmark]

theorem lg_free (hop : s.op.isSome) : (s.free b).lg = insert (s.sb.bblock b) s.lg := lg_put hop

theorem bit_place_lt (b : Nat) : b % BPB / 8 < BSIZE := by
  have hlt : b % BPB < BPB := Nat.mod_lt _ (by decide)
  simp only [BPB, BSIZE] at hlt ⊢
  omega

theorem bit_place_eq (h : s.sb.bblock x = s.sb.bblock b) : x % BPB = b % BPB ↔ x = b := by
  simp only [Superblock.bblock, BPB] at h ⊢
  omega

theorem bitOf_alloc_of_ne {x : Nat} (hne : s.sb.bblock x ≠ b) :
    (s.alloc b).bitOf x = (decide (x = b) || s.bitOf x) := by
  have hmark : (s.alloc b).bitOf x = (s.mark b).bitOf x := bitOf_put_of_ne (s := s.mark b) hne
  rw [hmark]
  by_cases h : s.sb.bblock x = s.sb.bblock b
  · have hself : (s.mark b).disk (s.sb.bblock b)
        = raise (s.disk (s.sb.bblock b)) (b % BPB) := update_self ..
    show bit ((s.mark b).disk (s.sb.bblock x)) (x % BPB) = _
    rw [h, hself, bit_raise _ _ (bit_place_lt b), decide_eq_decide.mpr (bit_place_eq h), bitOf, h]
  · have hxb : x ≠ b := fun he => h (by rw [he])
    rw [decide_eq_false hxb, Bool.false_or]
    show bit ((s.mark b).disk (s.sb.bblock x)) (x % BPB) = _
    rw [mark_disk_of_ne h]
    rfl

theorem bitOf_alloc (hl : s.sb.Layout) (hdata : s.sb.datastart ≤ b) {x : Nat}
    (hx : x < s.sb.size) : (s.alloc b).bitOf x = (decide (x = b) || s.bitOf x) := by
  refine bitOf_alloc_of_ne ?_
  have hlt := (hl.bitmap x hx).2
  omega

theorem bitOf_free : (s.free b).bitOf x = (decide (x ≠ b) && s.bitOf x) := by
  unfold free
  by_cases h : s.sb.bblock x = s.sb.bblock b
  · have hplace : x % BPB ≠ b % BPB ↔ x ≠ b := not_congr (bit_place_eq h)
    unfold bitOf
    rw [put_sb, h, put_disk_self, bit_lower _ _ (bit_place_lt b), decide_eq_decide.mpr hplace]
  · have hxb : x ≠ b := fun he => h (by rw [he])
    rw [bitOf_put_of_ne h, decide_eq_true hxb, Bool.true_and]

theorem Bits.alloc (h : s.Bits U) (hl : s.sb.Layout)
    (hdata : s.sb.datastart ≤ b) : (s.alloc b).Bits fun x => U x ∨ x = b := by
  intro x hx
  rw [alloc_sb] at hx ⊢
  rw [bitOf_alloc hl hdata hx, Bool.or_eq_true, decide_eq_true_eq, h x hx]
  tauto

theorem Bits.free (h : s.Bits U) (hdata : s.sb.datastart ≤ b) :
    (s.free b).Bits fun x => U x ∧ x ≠ b := by
  intro x hx
  rw [free_sb] at hx ⊢
  have hmeta : x < s.sb.datastart → x ≠ b := by omega
  rw [bitOf_free, Bool.and_eq_true, decide_eq_true_eq, h x hx]
  tauto

theorem Bits.fresh (h : s.Bits U) (hb : b < s.sb.size)
    (hbit : s.bitOf b = false) : s.sb.datastart ≤ b ∧ ¬ U b := by
  have hnot : ¬ (b < s.sb.datastart ∨ U b) := by
    rw [← h b hb, hbit]
    decide
  rw [not_or, not_lt] at hnot
  exact hnot

theorem freeBlocks_alloc (hl : s.sb.Layout) (hb : b < s.sb.size) (hdata : s.sb.datastart ≤ b)
    (hbit : s.bitOf b = false) : (s.alloc b).freeBlocks + 1 = s.freeBlocks := by
  -- one block less passes the test
  have hfilter : (range s.sb.size).filter (fun x => !(s.alloc b).bitOf x)
      = ((range s.sb.size).filter fun x => !s.bitOf x).filter fun x => decide (x ≠ b) := by
    rw [filter_filter]
    refine filter_congr fun x hx => ?_
    rw [bitOf_alloc hl hdata (mem_range.mp hx)]
    simp
  have hmem : b ∈ (range s.sb.size).filter fun x => !s.bitOf x := by
    simp [hb, hbit]
  have hnodup : ((range s.sb.size).filter fun x => !s.bitOf x).Nodup := nodup_range.filter _
  have hdrop : ((range s.sb.size).filter fun x => !s.bitOf x).erase b
      = ((range s.sb.size).filter fun x => !s.bitOf x).filter fun x => decide (x ≠ b) := by
    rw [List.Nodup.erase_eq_filter hnodup]
    refine filter_congr fun x _ => ?_
    by_cases hx : x = b <;> simp [hx]
  have herase := length_erase_of_mem hmem
  have hpos := length_pos_of_mem hmem
  unfold freeBlocks
  rw [alloc_sb, hfilter, ← hdrop, herase]
  omega

/-! ## `log_write`, `balloc`, `bfree` -/

variable {Q : Unit → Fs → Prop} {E : Halt → Fs → Prop}

theorem wp_logWrite (hop : s.op.isSome) (hQ : Q () (s.put b data)) :
    wp (logWrite b data) Q E s := by
  obtain ⟨l, hl⟩ := Option.isSome_iff_exists.mp hop
  have hput : s.put b data = { s with disk := update s.disk b data, op := some (b :: l) } := by
    simp [put, hl]
  simp only [logWrite, wp_bind, wp_change, wp_look, hl]
  rw [hput] at hQ
  exact hQ

def begun (s : Fs) : Fs := { s with op := some (s.op.getD []) }

def ended (s : Fs) : Fs := { s with op := none, ops := s.op.getD [] :: s.ops }

theorem wp_beginOp : wp beginOp Q E s ↔ Q () s.begun := Iff.rfl

theorem wp_endOp : wp endOp Q E s ↔ Q () s.ended := Iff.rfl

theorem wp_transact {α : Type} {f : FsM α} {Q : α → Fs → Prop}
    (h : wp f (fun a s' => tooBig s'.sb.nlog (s'.op.getD []) = false ∧ Q a s'.ended) E s.begun) :
    wp (transact f) Q E s := by
  refine wp_seq (wp_beginOp.mpr (wp_seq (wp_mono h (fun a s' ha => ?_) fun _ _ he => he)))
  refine wp_read (wp_ite (fun hbig => ?_) fun _ => ha.2)
  rw [ha.1] at hbig
  cases hbig

theorem wp_bfree (hop : s.op.isSome) (hsb : getSuper (s.disk 1) = s.sb) (hbit : s.bitOf b = true)
    (hQ : Q () (s.free b)) : wp (bfree b) Q E s := by
  have hsame : { s with sb := s.sb } = s := rfl
  have hset : bit (s.disk (s.sb.bblock b)) (b % BPB) = true := hbit
  simp only [bfree, Fs.readsb, bread, wp_bind, wp_look, wp_change, hsb, hset, Bool.true_eq_false,
    if_false]
  exact wp_logWrite hop hQ

theorem find_clear_none (hb : b % BPB = 0) (h : ((range (min BPB (s.sb.size - b))).find? fun bi =>
      !bit (s.disk (s.sb.bblock b)) bi) = none) :
    ∀ x, b ≤ x → x < b + BPB → x < s.sb.size → s.bitOf x = true := by
  intro x hlo hhi hx
  have hnot := find?_eq_none.mp h (x - b) (mem_range.mpr (by omega))
  have hblock : s.sb.bblock x = s.sb.bblock b := by
    simp only [Superblock.bblock, BPB] at *
    omega
  have hplace : x % BPB = x - b := by
    simp only [BPB] at *
    omega
  unfold bitOf
  rw [hblock, hplace]
  simpa using hnot

theorem find_clear_some {bi : Nat} (hb : b % BPB = 0)
    (h : ((range (min BPB (s.sb.size - b))).find? fun bi =>
      !bit (s.disk (s.sb.bblock b)) bi) = some bi) :
    s.sb.bblock (b + bi) = s.sb.bblock b ∧ (b + bi) % BPB = bi ∧ b + bi < s.sb.size ∧
      s.bitOf (b + bi) = false ∧
      ∀ x, b ≤ x → x < b + bi → s.bitOf x = true := by
  obtain ⟨hclear, before, after, hsplit, hbefore⟩ := find?_eq_some_iff_append.mp h
  have hmem : bi ∈ range (min BPB (s.sb.size - b)) := by
    rw [hsplit]
    simp
  have hlt := mem_range.mp hmem
  have hblock : ∀ y, y < BPB → s.sb.bblock (b + y) = s.sb.bblock b := by
    intro y hy
    simp only [Superblock.bblock, BPB] at *
    omega
  have hplace : ∀ y, y < BPB → (b + y) % BPB = y := by
    intro y hy
    simp only [BPB] at *
    omega
  refine ⟨hblock bi (by omega), hplace bi (by omega), by omega, ?_, fun x hlo hhi => ?_⟩
  · unfold bitOf
    rw [hblock bi (by omega), hplace bi (by omega)]
    simpa using hclear
  · -- the places before the one found have been looked at
    obtain ⟨y, rfl⟩ := Nat.exists_eq_add_of_le hlo
    have hy : y ∈ before := by
      have hsorted : (range (min BPB (s.sb.size - b))).Pairwise (· < ·) := pairwise_lt_range
      have hyr : y ∈ range (min BPB (s.sb.size - b)) := mem_range.mpr (by omega)
      rw [hsplit] at hsorted hyr
      rcases mem_append.mp hyr with hy | hy
      · exact hy
      · have hge : bi ≤ y := by
          rcases mem_cons.mp hy with rfl | hy
          · exact le_rfl
          · exact ((pairwise_cons.mp (pairwise_append.mp hsorted).2.1).1 y hy).le
        omega
    unfold bitOf
    rw [hblock y (by omega), hplace y (by omega)]
    simpa using hbefore y hy

theorem wp_ballocFrom {Q : Nat → Fs → Prop} (hop : s.op.isSome) {j m : Nat}
    (hdone : ∀ x < j * BPB, x < s.sb.size → s.bitOf x = true)
    (hcover : s.sb.size ≤ (j + m) * BPB)
    (hQ : ∀ b < s.sb.size, s.bitOf b = false → (∀ x < b, s.bitOf x = true) → Q b (s.alloc b))
    (hE : (∀ b < s.sb.size, s.bitOf b = true) → E (.panic "balloc: out of blocks") s) :
    wp (ballocFrom ((range' j m).map (· * BPB))) Q E s := by
  induction m generalizing j with
  | zero =>
    refine hE fun x hx => hdone x ?_ hx
    simpa using lt_of_lt_of_le hx hcover
  | succ m ih =>
    have hmod : j * BPB % BPB = 0 := Nat.mul_mod_left j BPB
    rw [range'_succ, map_cons, ballocFrom]
    simp only [bread, wp_bind, wp_look]
    cases hfind : (range (min BPB (s.sb.size - j * BPB))).find? fun bi =>
        !bit (s.disk (s.sb.bblock (j * BPB))) bi with
    | none =>
      have hblock := find_clear_none hmod hfind
      refine ih (j := j + 1) (fun x hx hsize => ?_) ?_
      · by_cases hlo : x < j * BPB
        · exact hdone x hlo hsize
        · refine hblock x (by omega) ?_ hsize
          rw [Nat.add_mul] at hx
          omega
      · rw [show j + 1 + m = j + (m + 1) by omega]
        exact hcover
    | some bi =>
      obtain ⟨hbb, hplace, hlt, hclear, hfirst⟩ := find_clear_some hmod hfind
      have hlow : ∀ x < j * BPB + bi, s.bitOf x = true := by
        intro x hx
        by_cases hlo : x < j * BPB
        · exact hdone x hlo (by omega)
        · exact hfirst x (by omega) hx
      have hfinal := hQ (j * BPB + bi) hlt hclear hlow
      simp only [wp_bind, wp_change]
      refine wp_logWrite hop (wp_logWrite (by simpa using hop) ?_)
      unfold alloc mark at hfinal
      rw [hbb, hplace] at hfinal
      exact hfinal

/-- **`balloc` hands out the first block that is not marked.** -/
theorem wp_balloc {Q : Nat → Fs → Prop} (hop : s.op.isSome)
    (hQ : ∀ b < s.sb.size, s.bitOf b = false → (∀ x < b, s.bitOf x = true) → Q b (s.alloc b))
    (hE : (∀ b < s.sb.size, s.bitOf b = true) → E (.panic "balloc: out of blocks") s) :
    wp balloc Q E s := by
  simp only [balloc, bitmapStarts, range_eq_range', wp_bind, wp_look]
  refine wp_ballocFrom hop (fun x hx => ?_) ?_ hQ hE
  · simp at hx
  · rw [Nat.zero_add]
    simp only [BPB]
    omega

/-! ## Sequences of `balloc` and `bfree` -/

inductive BlockCall
  | balloc
  | bfree (b : Nat)

/-- One call, in a transaction of its own; beside the file system stand the blocks handed out. -/
def blockCall (x : Fs × Finset Nat) : BlockCall → Option (Fs × Finset Nat)
  | .balloc =>
    match transact balloc x.1 with
    | .ok b s => some (s, insert b x.2)
    | .error _ _ => none
  | .bfree b =>
    match transact (bfree b) x.1 with
    | .ok _ s => some (s, x.2.erase b)
    | .error _ _ => none

/-- The superblock or a block of the bitmap. -/
def OwnBlock (s : Fs) (b : Nat) : Prop := b = 1 ∨ ∃ x < s.sb.size, s.sb.bblock x = b

/-- The superblock is the one on disk, and the bitmap marks it and its own blocks. -/
structure SelfMarked (s : Fs) : Prop where
  size_le : s.sb.size ≤ 2 ^ 31
  super : getSuper (s.disk 1) = s.sb
  apart : ∀ x < s.sb.size, s.sb.bblock x ≠ 1
  marked : ∀ b < s.sb.size, s.OwnBlock b → s.bitOf b = true

theorem SelfMarked.bblock_ne (h : s.SelfMarked) (hb : b < s.sb.size) (hbit : s.bitOf b = false) :
    b ≠ 1 ∧ ∀ x < s.sb.size, s.sb.bblock x ≠ b := by
  have hown : ¬ s.OwnBlock b := by
    intro hown
    rw [h.marked b hb hown] at hbit
    cases hbit
  exact ⟨fun h1 => hown (.inl h1), fun x hx hxb => hown (.inr ⟨x, hx, hxb⟩)⟩

theorem SelfMarked.alloc (h : s.SelfMarked) (hb : b < s.sb.size) (hbit : s.bitOf b = false) :
    (s.alloc b).SelfMarked := by
  obtain ⟨h1, hne⟩ := h.bblock_ne hb hbit
  refine ⟨h.size_le, ?_, h.apart, fun c hc hown => ?_⟩
  · rw [alloc_disk_of_ne h1.symm (h.apart b hb).symm]
    exact h.super
  · rw [bitOf_alloc_of_ne (hne c hc), h.marked c hc hown, Bool.or_true]

theorem SelfMarked.free (h : s.SelfMarked) (hb : b < s.sb.size) (hown : ¬ s.OwnBlock b) :
    (s.free b).SelfMarked := by
  refine ⟨h.size_le, ?_, h.apart, fun c hc hc' => ?_⟩
  · rw [free_disk_of_ne (h.apart b hb).symm]
    exact h.super
  · have hcb : c ≠ b := by
      rintro rfl
      exact hown hc'
    rw [bitOf_free, h.marked c hc hc', decide_eq_true hcb, Bool.true_and]

structure Accounts (x : Fs × Finset Nat) : Prop where
  op : x.1.op = none
  log : 3 ≤ x.1.sb.nlog
  self : x.1.SelfMarked
  out : ∀ b ∈ x.2, b < x.1.sb.size ∧ x.1.bitOf b = true

def MayFree (x : Fs × Finset Nat) : BlockCall → Prop
  | .balloc => True
  | .bfree b => b < x.1.sb.size ∧ ¬ x.1.OwnBlock b

/-- `b` was the lowest free block; now its bit is set and its bytes are 0, all else is as it was. -/
structure Handed (x : Fs × Finset Nat) (b : Nat) (s : Fs) : Prop where
  lt : b < x.1.sb.size
  clear : x.1.bitOf b = false
  lowest : ∀ c < b, x.1.bitOf c = true
  fresh : b ∉ x.2
  bits : ∀ c < x.1.sb.size, s.bitOf c = (decide (c = b) || x.1.bitOf c)
  zeroed : s.disk b = zero
  frame : ∀ c, c ≠ b → c ≠ x.1.sb.bblock b → s.disk c = x.1.disk c

structure Freed (x : Fs × Finset Nat) (b : Nat) (s : Fs) : Prop where
  bits : ∀ c, s.bitOf c = (decide (c ≠ b) && x.1.bitOf c)
  frame : ∀ c, c ≠ x.1.sb.bblock b → s.disk c = x.1.disk c

namespace Accounts

variable {x x' : Fs × Finset Nat}

theorem balloc (h : Accounts x) : wp (transact balloc)
    (fun b s => Handed x b s ∧ Accounts (s, insert b x.2))
    (fun e _ => e = .panic "balloc: out of blocks" ∧ ∀ b < x.1.sb.size, x.1.bitOf b = true)
    x.1 := by
  refine wp_transact (wp_balloc rfl (fun b hb hbit hlow => ?_) fun hall => ⟨rfl, hall⟩)
  have hself : x.1.begun.SelfMarked := ⟨h.self.1, h.self.2, h.self.3, h.self.4⟩
  have hbits : ∀ c < x.1.sb.size, (x.1.begun.alloc b).bitOf c = (decide (c = b) || x.1.bitOf c) :=
    fun c hc => bitOf_alloc_of_ne ((hself.bblock_ne hb hbit).2 c hc)
  have halloc := hself.alloc hb hbit
  refine ⟨?_, ⟨hb, hbit, hlow, fun hmem => ?_, hbits, alloc_disk_self, fun c => alloc_disk_of_ne⟩,
    rfl, h.log, ⟨halloc.1, halloc.2, halloc.3, halloc.4⟩, fun c hc => ?_⟩
  · have hlog := h.log
    have hop : (x.1.begun.alloc b).op = some [b, x.1.sb.bblock b] := by
      simp [alloc, mark, put, begun, h.op]
    rw [hop]
    simp [tooBig, logFull, begun, LOGSIZE, MAXOPBLOCKS]
    omega
  · have hset : x.1.begun.bitOf b = true := (h.out b hmem).2
    rw [hset] at hbit
    cases hbit
  · show c < x.1.sb.size ∧ (x.1.begun.alloc b).bitOf c = true
    rcases Finset.mem_insert.mp hc with rfl | hc
    · exact ⟨hb, by rw [hbits c hb, decide_eq_true rfl, Bool.true_or]⟩
    · obtain ⟨hlt, hset⟩ := h.out c hc
      exact ⟨hlt, by rw [hbits c hlt, hset, Bool.or_true]⟩

theorem bfree (h : Accounts x) (hbit : x.1.bitOf b = true) :
    wp (transact (bfree b)) (fun _ s => s = (x.1.begun.free b).ended ∧ Freed x b s)
      (fun _ _ => False) x.1 := by
  refine wp_transact (wp_bfree rfl h.self.super hbit
    ⟨?_, rfl, fun c => bitOf_free (s := x.1.begun), fun c => free_disk_of_ne (s := x.1.begun)⟩)
  have hlog := h.log
  have hop : (x.1.begun.free b).op = some [x.1.sb.bblock b] := by
    simp [free, put, begun, h.op]
  rw [hop]
  simp [tooBig, logFull, begun, LOGSIZE, MAXOPBLOCKS]
  omega

theorem step {a : BlockCall} (h : Accounts x) (hf : MayFree x a) (hs : blockCall x a = some x') :
    Accounts x' := by
  cases a with
  | balloc =>
    simp only [blockCall] at hs
    split at hs
    · rename_i b s hrun
      cases hs
      exact ((wp_of_ok hrun).mp h.balloc).2
    · cases hs
  | bfree b =>
    simp only [blockCall] at hs
    split at hs
    · rename_i u s hrun
      cases hs
      cases hbit : x.1.bitOf b with
      | false =>
        -- `bfree` would have panicked
        have hclear : bit (x.1.disk (x.1.sb.bblock b)) (b % BPB) = false := hbit
        have hpanic : wp (transact (Xv6.bfree b)) (fun _ _ => False) (fun _ _ => True) x.1 := by
          refine wp_transact (?_ : wp (Xv6.bfree b) _ _ x.1.begun)
          have hsuper : getSuper (x.1.begun.disk 1) = x.1.sb := h.self.super
          simp only [Xv6.bfree, Fs.readsb, bread, wp_bind, wp_look, wp_change, hsuper]
          refine wp_ite (fun _ => trivial) fun hset => absurd hclear hset
        exact ((wp_of_ok hrun).mp hpanic).elim
      | true =>
        obtain ⟨rfl, hfreed⟩ := (wp_of_ok hrun).mp (h.bfree hbit)
        have hself : x.1.begun.SelfMarked := ⟨h.self.1, h.self.2, h.self.3, h.self.4⟩
        have hfree := hself.free hf.1 hf.2
        refine ⟨rfl, h.log, ⟨hfree.1, hfree.2, hfree.3, hfree.4⟩, fun c hc => ?_⟩
        obtain ⟨hcb, hc⟩ := Finset.mem_erase.mp hc
        refine ⟨(h.out c hc).1, ?_⟩
        rw [hfreed.bits, (h.out c hc).2, decide_eq_true hcb, Bool.true_and]
    · cases hs

end Accounts

/-- **No block is handed out twice** unless it has been freed in between: where the bitmap marks
    its own blocks, `balloc` returns the lowest free block and sets its bit only, `bfree` clears
    one bit only, over any sequence of calls. -/
theorem blocks_handed_once {calls : List BlockCall} (hop : s.op = none) (hlog : 3 ≤ s.sb.nlog)
    (hself : s.SelfMarked) (hcalls : Meets blockCall MayFree (s, ∅) calls) :
    Along blockCall (fun x =>
      wp (transact balloc) (Handed x) (fun e _ => e = .panic "balloc: out of blocks" ∧
        ∀ b < x.1.sb.size, x.1.bitOf b = true) x.1 ∧
      ∀ b, x.1.bitOf b = true → wp (transact (bfree b)) (fun _ => Freed x b) (fun _ _ => False) x.1)
      (s, ∅) calls := by
  have hstart : Accounts (s, ∅) := ⟨hop, hlog, hself, fun b hb => absurd hb (Finset.notMem_empty b)⟩
  have hinv := along_of_meets hstart (fun _ _ _ h hf hs => h.step hf hs) hcalls
  exact hinv.mono fun x h => ⟨wp_mono h.balloc (fun _ _ hb => hb.1) fun _ _ he => he,
    fun b hbit => wp_mono (h.bfree hbit) (fun _ _ hb => hb.2) fun _ _ he => he⟩

/-- A disk of fifty blocks as mkfs lays it out: 30 blocks of log, the inodes in block 32, the
    bitmap in block 33.  The first 33 bits are set; `last` are the bits from block 32 on. -/
def fiftyBlocks (last : UInt8) : Fs :=
  let sb := set (set (set (set (set zero 0 50) 12 30) 16 2) 20 32) 24 33
  let bitmap := set (set (set (set (set zero 0 255) 1 255) 2 255) 3 255) 4 last
  empty (update (update (fun _ => zero) 1 sb) 33 bitmap)

/-- Two calls in a row, with the blocks 0 to 33 in use. -/
theorem blocks_handed_once_two :
    Along blockCall (fun x => wp (transact balloc) (Handed x) (fun _ _ => True) x.1)
      (fiftyBlocks 3, ∅) [.balloc, .balloc] := by
  have hmarked : (fiftyBlocks 3).bitOf 1 = true ∧ (fiftyBlocks 3).bitOf 33 = true := by decide
  have hbitmap : ∀ c < 50, (fiftyBlocks 3).sb.bblock c = 33 := by decide
  have hself : (fiftyBlocks 3).SelfMarked := by
    refine ⟨by decide, by decide, by decide, ?_⟩
    rintro b - (rfl | ⟨c, hc, rfl⟩)
    · exact hmarked.1
    · rw [hbitmap c hc]
      exact hmarked.2
  exact (blocks_handed_once rfl (by decide) hself (meets_of_labels (by simp [MayFree]))).mono
    fun x h => wp_loose h.1

/-- The bitmap does not mark its own block.  `balloc` returns it and clears it, and with it all
    the bits that were set, so that the next call hands out block 0. -/
theorem balloc_clears_bitmap : (∀ b < 33, (fiftyBlocks 1).bitOf b = true) ∧
    passes (transact balloc (fiftyBlocks 1)) (fun b s => b == 33 && !s.bitOf 33 && !s.bitOf 0 &&
      passes (transact balloc s) fun b' _ => b' == 0) = true :=
  ⟨by decide, by decide +kernel⟩

end Fs
end Xv6
