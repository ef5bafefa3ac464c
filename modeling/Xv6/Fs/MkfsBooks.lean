/-
  Xv6.Fs.MkfsBooks

  What mkfs has written when it is under way.
-/

import Mathlib.Algebra.BigOperators.Group.Finset.Basic
import Xv6.Fs.Mkfs

namespace Xv6.Mkfs

open Function Finset Wp Fs Bytes

structure Own (blk : Nat → Nat → Nat) (fb : Nat) : Prop where
  range : ∀ i k, blk i k ≠ 0 → nmeta ≤ blk i k ∧ blk i k < fb
  inj : ∀ i k j l, blk i k ≠ 0 → blk i k = blk j l → i = j ∧ k = l
  onto : ∀ b, nmeta ≤ b → b < fb → ∃ i k, blk i k = b

theorem Own.attach {blk blk' : Nat → Nat → Nat} {fb i k : Nat} (h : Own blk fb) (hlo : nmeta ≤ fb)
    (hk : blk i k = 0) (hself : blk' i k = fb)
    (hother : ∀ i' k', ¬ (i' = i ∧ k' = k) → blk' i' k' = blk i' k') : Own blk' (fb + 1) where
  range := by
    intro i' k' hne
    by_cases heq : i' = i ∧ k' = k
    · rw [heq.1, heq.2, hself]
      exact ⟨hlo, by omega⟩
    · rw [hother i' k' heq] at hne ⊢
      have := h.range i' k' hne
      omega
  inj := by
    intro i1 k1 i2 k2 hne heq
    by_cases h1 : i1 = i ∧ k1 = k <;> by_cases h2 : i2 = i ∧ k2 = k
    · exact ⟨h1.1.trans h2.1.symm, h1.2.trans h2.2.symm⟩
    · rw [h1.1, h1.2, hself, hother i2 k2 h2] at heq
      have hne2 : blk i2 k2 ≠ 0 := by
        simp only [nmeta] at hlo
        omega
      have := h.range i2 k2 hne2
      omega
    · rw [hother i1 k1 h1] at hne heq
      rw [h2.1, h2.2, hself] at heq
      have := h.range i1 k1 hne
      omega
    · rw [hother i1 k1 h1] at hne heq
      rw [hother i2 k2 h2] at heq
      exact h.inj i1 k1 i2 k2 hne heq
  onto := by
    intro b hb hlt
    by_cases heq : b = fb
    · exact ⟨i, k, hself.trans heq.symm⟩
    · obtain ⟨i', k', hb'⟩ := h.onto b hb (by omega)
      refine ⟨i', k', (hother i' k' ?_).trans hb'⟩
      rintro ⟨rfl, rfl⟩
      simp only [nmeta] at hb
      omega

theorem sum_bump {f g : Nat → Nat} {s : Finset Nat} {i : Nat} (hi : i ∈ s)
    (hself : g i = f i + 1) (hother : ∀ j ≠ i, g j = f j) : ∑ j ∈ s, g j = ∑ j ∈ s, f j + 1 := by
  have hrest : ∑ j ∈ s.erase i, g j = ∑ j ∈ s.erase i, f j :=
    sum_congr rfl fun j hj => hother j (ne_of_mem_erase hj)
  have hf := add_sum_erase s f hi
  have hg := add_sum_erase s g hi
  omega

/-! ## The books -/

def setPlace (P : Nat → Nat → Nat) (i k b : Nat) : Nat → Nat → Nat :=
  update P i (update (P i) k b)

@[simp] theorem setPlace_self (P : Nat → Nat → Nat) (i k b : Nat) : setPlace P i k b i k = b := by
  rw [setPlace, update_self, update_self]

theorem setPlace_of_ne (P : Nat → Nat → Nat) {i k i' k' : Nat} (b : Nat) (h : ¬ (i' = i ∧ k' = k)) :
    setPlace P i k b i' k' = P i' k' := by
  rw [setPlace]
  by_cases hi : i' = i
  · rw [hi, update_self, update_of_ne fun hk => h ⟨hi, hk⟩]
  · rw [update_of_ne hi]

/-- What mkfs has allocated: the blocks of the inodes, and what they hold. -/
structure Books (img : Nat → Block) (P : Nat → Nat → Nat) (data : Nat → List UInt8) (mb : Nat → Nat)
    (tb : Nat → Bool) (fb : Nat) : Prop where
  own : Own P fb
  mapped : ∀ i k, k < MAXFILE → (P i k ≠ 0 ↔ k < mb i)
  table : ∀ i, P i MAXFILE ≠ 0 ↔ tb i = true
  content : ∀ i x, x / BSIZE < mb i →
    get (img (P i (x / BSIZE))) (x % BSIZE) = (data i).getD x 0
  long : ∀ i, (data i).length ≤ mb i * BSIZE
  small : ∀ i, mb i ≤ MAXFILE
  zero : ∀ b, fb ≤ b → img b = zero
  total : fb = nmeta + ∑ i ∈ range NINODES, (mb i + if tb i then 1 else 0)

section Books

variable {img img' : Nat → Block} {P : Nat → Nat → Nat} {data : Nat → List UInt8} {mb : Nat → Nat}
  {tb : Nat → Bool} {fb inum fbn : Nat}

theorem Books.lo (h : Books img P data mb tb fb) : nmeta ≤ fb := by
  have := h.total
  omega

theorem Books.fb_ne (h : Books img P data mb tb fb) : fb ≠ 0 := by
  have := h.lo
  simp only [nmeta] at this
  omega

theorem Books.growTable (h : Books img P data mb tb fb) (hi : inum < NINODES)
    (hno : tb inum = false) :
    Books img (setPlace P inum MAXFILE fb) data mb (update tb inum true) (fb + 1) := by
  have hempty : P inum MAXFILE = 0 := by
    have htable := h.table inum
    rw [hno] at htable
    simpa using htable
  have hdata : ∀ i k, k < MAXFILE → setPlace P inum MAXFILE fb i k = P i k := fun i k hk =>
    setPlace_of_ne P fb (by omega)
  refine ⟨h.own.attach h.lo hempty (setPlace_self ..) fun _ _ hne => setPlace_of_ne P fb hne,
    fun i k hk => ?_, fun i => ?_, fun i x hx => ?_, h.long, h.small, fun b hb => h.zero b (by omega), ?_⟩
  · rw [hdata i k hk]
    exact h.mapped i k hk
  · by_cases hin : i = inum
    · rw [hin, setPlace_self, update_self]
      exact iff_of_true h.fb_ne rfl
    · rw [setPlace_of_ne P fb (fun heq => hin heq.1), update_of_ne hin]
      exact h.table i
  · rw [hdata i _ (lt_of_lt_of_le hx (h.small i))]
    exact h.content i x hx
  · have hsum := sum_bump (f := fun i => mb i + if tb i then 1 else 0)
      (g := fun i => mb i + if update tb inum true i then 1 else 0)
      (mem_range.mpr hi) (by simp [hno]) fun j hj => by rw [update_of_ne hj]
    have htotal := h.total
    omega

theorem Books.growBlock (h : Books img P data mb tb fb) (hi : inum < NINODES) (hfbn : fbn = mb inum)
    (hmax : fbn < MAXFILE)
    (hsame : ∀ b, b = 0 ∨ b ≠ P inum MAXFILE → img' b = img b) (hlt : P inum MAXFILE < fb) :
    Books img' (setPlace P inum fbn fb) data (update mb inum (fbn + 1)) tb (fb + 1) := by
  have hempty : P inum fbn = 0 := by
    by_contra hne
    have := (h.mapped inum fbn hmax).mp hne
    omega
  -- data blocks are not indirect blocks
  have hcontent : ∀ i k, k < mb i → img' (P i k) = img (P i k) := by
    intro i k hk
    have hk' : k < MAXFILE := lt_of_lt_of_le hk (h.small i)
    refine hsame _ (.inr fun heq => ?_)
    have := (h.own.inj i k inum MAXFILE ((h.mapped i k hk').mpr hk) heq).2
    omega
  refine ⟨h.own.attach h.lo hempty (setPlace_self ..) fun _ _ hne => setPlace_of_ne P fb hne,
    fun i k hk => ?_, fun i => ?_, fun i x hx => ?_, fun i => ?_, fun i => ?_, fun b hb => ?_, ?_⟩
  · by_cases heq : i = inum ∧ k = fbn
    · rw [heq.1, heq.2, setPlace_self, update_self]
      exact iff_of_true h.fb_ne (by omega)
    · rw [setPlace_of_ne P fb heq, h.mapped i k hk]
      by_cases hin : i = inum
      · rw [hin, update_self]
        omega
      · rw [update_of_ne hin]
  · rw [setPlace_of_ne P fb (by omega)]
    exact h.table i
  · by_cases heq : i = inum ∧ x / BSIZE = fbn
    · -- the new block is empty, and there are no bytes for it
      rw [heq.1, heq.2, setPlace_self, hsame fb (.inr (by omega)), h.zero fb le_rfl, get_zero]
      have hlong := h.long inum
      rw [List.getD_eq_default _ _]
      rw [← hfbn, ← heq.2] at hlong
      exact hlong.trans (Nat.div_mul_le_self x BSIZE)
    · have hx' : x / BSIZE < mb i := by
        by_cases hin : i = inum
        · rw [hin, update_self] at hx
          rw [hin]
          omega
        · rwa [update_of_ne hin] at hx
      rw [setPlace_of_ne P fb heq, hcontent i _ hx']
      exact h.content i x hx'
  · by_cases hin : i = inum
    · rw [hin, update_self, hfbn]
      exact (h.long inum).trans (Nat.mul_le_mul_right _ (by omega))
    · rw [update_of_ne hin]
      exact h.long i
  · by_cases hin : i = inum
    · rw [hin, update_self]
      omega
    · rw [update_of_ne hin]
      exact h.small i
  · rw [hsame b (.inr (by omega))]
    exact h.zero b (by omega)
  · have hsum := sum_bump (f := fun i => mb i + if tb i then 1 else 0)
      (g := fun i => update mb inum (fbn + 1) i + if tb i then 1 else 0)
      (mem_range.mpr hi) (by simp only [update_self]; omega)
      fun j hj => by rw [update_of_ne hj]
    have htotal := h.total
    omega

theorem Books.write (h : Books img P data mb tb fb) {p : List UInt8}
    (hfbn : (data inum).length / BSIZE < mb inum)
    (hfit : (data inum).length % BSIZE + p.length ≤ BSIZE)
    (hself : img' (P inum ((data inum).length / BSIZE))
      = blit (img (P inum ((data inum).length / BSIZE))) ((data inum).length % BSIZE) p)
    (hother : ∀ b, b ≠ P inum ((data inum).length / BSIZE) → img' b = img b) :
    Books img' P (update data inum (data inum ++ p)) mb tb fb := by
  have hmax : (data inum).length / BSIZE < MAXFILE := lt_of_lt_of_le hfbn (h.small inum)
  have hne := (h.mapped inum _ hmax).mpr hfbn
  refine ⟨h.own, h.mapped, h.table, fun i x hx => ?_, fun i => ?_, h.small, fun b hb => ?_, h.total⟩
  · by_cases heq : i = inum ∧ x / BSIZE = (data inum).length / BSIZE
    · obtain ⟨rfl, hxk⟩ := heq
      have hold := h.content i x hx
      rw [hxk] at hold ⊢
      rw [hself, get_blit _ _ (Nat.mod_lt _ (by decide)), update_self, hold]
      have hdiv := Nat.div_add_mod x BSIZE
      have hdiv' := Nat.div_add_mod (data i).length BSIZE
      rw [hxk] at hdiv
      by_cases hin : x < (data i).length
      · rw [if_neg (by omega), List.getD_append _ _ _ _ hin]
      · rw [List.getD_append_right _ _ _ _ (by omega)]
        by_cases hp : x < (data i).length + p.length
        · rw [if_pos (by omega)]
          congr 1
          omega
        · rw [if_neg (by omega), List.getD_eq_default _ _ (by omega),
            List.getD_eq_default _ _ (by omega)]
    · have hother' : P i (x / BSIZE) ≠ P inum ((data inum).length / BSIZE) := by
        intro hsame
        exact heq (h.own.inj i _ inum _ (by rw [hsame]; exact hne) hsame)
      rw [hother _ hother', h.content i x hx]
      by_cases hin : i = inum
      · subst hin
        rw [update_self]
        -- another block of the same file
        by_cases hlt : x < (data i).length
        · rw [List.getD_append _ _ _ _ hlt]
        · rw [List.getD_append_right _ _ _ _ (by omega), List.getD_eq_default _ _ (by omega),
            List.getD_eq_default]
          by_contra hshort
          refine heq ⟨rfl, ?_⟩
          have hdiv' := Nat.div_add_mod (data i).length BSIZE
          simp only [BSIZE] at *
          omega
      · rw [update_of_ne hin]
  · by_cases hin : i = inum
    · rw [hin, update_self, List.length_append]
      have hdiv' := Nat.div_add_mod (data inum).length BSIZE
      simp only [BSIZE] at *
      omega
    · rw [update_of_ne hin]
      exact h.long i
  · rw [hother b fun heq => ?_]
    · exact h.zero b hb
    · have := (h.own.range inum _ hne).2
      omega

end Books

/-! ## Allocating a block -/

def places (img : Nat → Block) (D : Nat → Dinode) : Nat → Nat → Nat := fun i => place img (D i)

/-- Which inodes need an indirect block. -/
def tables (mb : Nat → Nat) : Nat → Bool := fun i => decide (NDIRECT < mb i)

theorem tables_update {mb : Nat → Nat} {inum n : Nat} (h : NDIRECT < n ↔ NDIRECT < mb inum) :
    tables (update mb inum n) = tables mb := by
  funext i
  by_cases hi : i = inum
  · rw [hi, tables, update_self, tables]
    exact decide_eq_decide.mpr h
  · rw [tables, update_of_ne hi, tables]

def Fits (mb : Nat → Nat) : Prop :=
  nmeta + ∑ i ∈ range NINODES, (mb i + if tables mb i then 1 else 0) ≤ FSSIZE

theorem Fits.mono {mb mb' : Nat → Nat} (h : Fits mb') (hle : ∀ i, mb i ≤ mb' i) : Fits mb := by
  refine le_trans (Nat.add_le_add_left (sum_le_sum fun i _ => ?_) _) h
  have := hle i
  simp only [tables, decide_eq_true_eq]
  split <;> split <;> omega

def SameFields (d d' : Dinode) : Prop :=
  d'.type = d.type ∧ d'.major = d.major ∧ d'.minor = d.minor ∧ d'.nlink = d.nlink ∧ d'.size = d.size

/-- Only data blocks have been written. -/
structure DataOnly (m m' : Mkfs) : Prop where
  img : ∀ b, b < nmeta → m'.img b = m.img b
  freeinode : m'.freeinode = m.freeinode

theorem DataOnly.refl {m : Mkfs} : DataOnly m m := ⟨fun _ _ => rfl, rfl⟩

theorem DataOnly.trans {m m' m'' : Mkfs} (h : DataOnly m m') (h' : DataOnly m' m'') :
    DataOnly m m'' :=
  ⟨fun b hb => (h'.img b hb).trans (h.img b hb), h'.freeinode.trans h.freeinode⟩

/-- Inode `inum` is `d`, the others are in `D`. -/
structure Working (D : Nat → Dinode) (inum : Nat) (d : Dinode) (data : Nat → List UInt8)
    (mb : Nat → Nat) (tb : Nat → Bool) (m : Mkfs) : Prop where
  books : Books m.img (places m.img (update D inum d)) data mb tb m.freeblock
  len : m.len = FSSIZE

section Blocks

variable {D : Nat → Dinode} {inum fbn : Nat} {d d' : Dinode} {data : Nat → List UInt8}
  {mb : Nat → Nat} {tb : Nat → Bool} {m : Mkfs} {img img' : Nat → Block} {E : Stop → Mkfs → Prop}

theorem places_update {k b : Nat} (hself : place img' d' = update (place img d) k b)
    (hother : ∀ j, j ≠ inum → place img' (D j) = place img (D j)) :
    places img' (update D inum d') = setPlace (places img (update D inum d)) inum k b := by
  funext i
  by_cases hi : i = inum
  · rw [hi, places, setPlace, update_self, update_self, hself, places, update_self]
  · rw [places, update_of_ne hi, hother i hi, setPlace, update_of_ne hi, places, update_of_ne hi]

@[simp] theorem places_self : places img (update D inum d) inum = place img d := by
  rw [places, update_self]

theorem Working.place_lt (h : Working D inum d data mb tb m) (k : Nat) :
    place m.img d k < m.freeblock := by
  have hfb := h.books.fb_ne
  by_cases h0 : place m.img d k = 0
  · omega
  · have hrange := h.books.own.range inum k
    rw [places_self] at hrange
    exact (hrange h0).2

theorem wp_nextBlock {Q : Nat → Mkfs → Prop}
    (hQ : Q m.freeblock { m with freeblock := m.freeblock + 1 }) : wp nextBlock Q E m := hQ

theorem wp_rsect {sec : Nat} {Q : Block → Mkfs → Prop} (hE : sec < m.len ∨ ∀ e m', E e m')
    (hQ : sec < m.len → Q (m.img sec) m) : wp (rsect sec) Q E m := by
  refine wp_read (wp_ite (fun hlt => hQ hlt) fun hge => ?_)
  obtain hlt | hblind := hE
  · exact absurd hlt hge
  · exact hblind _ _

theorem wp_indirectBlock {Q : Dinode → Mkfs → Prop} (h : Working D inum d data mb tb m)
    (hi : inum < NINODES) (hfb : m.freeblock ≤ FSSIZE)
    (hold : tb inum = true → Q d m)
    (hnew : tb inum = false →
      Working D inum (d.setAddr NDIRECT m.freeblock) data mb (update tb inum true)
        { m with freeblock := m.freeblock + 1 } →
      Q (d.setAddr NDIRECT m.freeblock) { m with freeblock := m.freeblock + 1 }) :
    wp (indirectBlock d) Q E m := by
  have htable := h.books.table inum
  rw [places_self, place_indirect] at htable
  refine wp_ite (fun h0 => ?_) fun hne => hold (htable.mp hne)
  have hno : tb inum = false := by
    by_contra hyes
    exact htable.mpr (by simpa using hyes) h0
  refine wp_seq (wp_nextBlock (hnew hno ⟨?_, h.len⟩))
  have hlt : m.freeblock < 2 ^ 32 := by
    simp only [FSSIZE] at hfb
    omega
  have hplaces : places m.img (update D inum (d.setAddr NDIRECT m.freeblock))
      = setPlace (places m.img (update D inum d)) inum MAXFILE m.freeblock :=
    places_update (place_setTable h0 hlt (h.books.zero _ le_rfl)) fun _ _ => rfl
  show Books m.img _ _ _ _ _
  rw [hplaces]
  exact h.books.growTable hi hno

/-- What a function that finds a block returns. -/
structure Finds (D : Nat → Dinode) (inum : Nat) (d : Dinode) (data : Nat → List UInt8)
    (mb : Nat → Nat) (tb : Nat → Bool) (fbn : Nat) (m : Mkfs) (r : Dinode × Nat) (m' : Mkfs) :
    Prop where
  working : Working D inum r.1 data (update mb inum (max (mb inum) (fbn + 1))) tb m'
  block : r.2 = place m'.img r.1 fbn
  fields : SameFields d r.1
  only : DataOnly m m'
  old : fbn < mb inum → m'.freeblock = m.freeblock
  new : fbn = mb inum → m'.freeblock = r.2 + 1

theorem wp_listedBlock {Q : Dinode × Nat → Mkfs → Prop} (h : Working D inum d data mb tb m)
    (hi : inum < NINODES) (htb : tb inum = true) (hlow : NDIRECT ≤ fbn) (hmax : fbn < MAXFILE)
    (hle : fbn ≤ mb inum) (hfb : m.freeblock < 2 ^ 32)
    (hE : place m.img d MAXFILE < m.len ∨ ∀ e m', E e m')
    (hQ : ∀ r m', Finds D inum d data mb tb fbn m r m' → Q r m') :
    wp (listedBlock d fbn) Q E m := by
  have htable : place m.img d MAXFILE ≠ 0 := by
    have := h.books.table inum
    rw [places_self] at this
    exact this.mpr htb
  rw [place_indirect] at htable hE
  have hword : word (m.img (d.addr NDIRECT)) (fbn - NDIRECT) = place m.img d fbn := by
    rw [place_listed hlow hmax, listed, if_neg htable]
  have hmapped := h.books.mapped inum fbn hmax
  rw [places_self] at hmapped
  refine wp_seq (wp_rsect hE fun hlt => ?_)
  rw [hword]
  refine wp_ite (fun h0 => ?_) fun hne => ?_
  · have heq : fbn = mb inum := by
      by_contra hlt
      exact hmapped.mpr (by omega) h0
    refine wp_seq (wp_nextBlock (wp_write ((wp_pure _).mpr ?_)))
    have hj : fbn - NDIRECT < NINDIRECT := by
      simp only [MAXFILE] at hmax
      omega
    have hself : place (update m.img (d.addr NDIRECT)
        (setWord (m.img (d.addr NDIRECT)) (fbn - NDIRECT) m.freeblock)) d
        = update (place m.img d) (NDIRECT + (fbn - NDIRECT)) m.freeblock :=
      place_setWord htable hj hfb (update_self ..)
    rw [Nat.add_sub_cancel' hlow] at hself
    -- nobody else has this indirect block
    have hother : ∀ j, j ≠ inum → place (update m.img (d.addr NDIRECT)
        (setWord (m.img (d.addr NDIRECT)) (fbn - NDIRECT) m.freeblock)) (D j) = place m.img (D j) := by
      intro j hj
      refine place_congr fun _ => update_of_ne (fun heq => hj ?_) ..
      have hinj := h.books.own.inj inum MAXFILE j MAXFILE
      rw [places_self, places, update_of_ne hj, place_indirect, place_indirect] at hinj
      exact (hinj htable heq.symm).1.symm
    refine hQ _ _ ⟨⟨?_, ?_⟩, ?_, ⟨rfl, rfl, rfl, rfl, rfl⟩, ⟨fun b hb => ?_, rfl⟩,
      fun hlt => ?_, fun _ => ?_⟩
    · show Books (update m.img _ _) _ _ _ _ _
      rw [places_update hself hother, Nat.max_eq_right (by omega)]
      refine h.books.growBlock hi heq hmax (fun b hb => update_of_ne ?_ ..) ?_
      · rw [places_self, place_indirect] at hb
        rintro rfl
        exact hb.elim htable fun hne => hne rfl
      · rw [places_self]
        exact h.place_lt MAXFILE
    · show max m.len _ = FSSIZE
      have hlen := h.len
      omega
    · show word (setWord _ _ _) _ = place (update m.img _ _) d fbn
      rw [hself, update_self, word_setWord_self _ hj hfb]
    · refine update_of_ne (fun heq => ?_) ..
      have hrange := h.books.own.range inum MAXFILE
      rw [places_self, place_indirect] at hrange
      have := (hrange htable).1
      omega
    · omega
    · show m.freeblock + 1 = word (setWord _ _ _) _ + 1
      rw [word_setWord_self _ hj hfb]
  · have hlt' := hmapped.mp hne
    refine hQ (d, place m.img d fbn) m ⟨?_, rfl, ⟨rfl, rfl, rfl, rfl, rfl⟩, .refl, fun _ => rfl,
      fun heq => absurd heq (by omega)⟩
    rw [Nat.max_eq_left (by omega), update_eq_self]
    exact h

/-- **A block of a file is found or allocated.** -/
theorem wp_fileBlock {Q : Dinode × Nat → Mkfs → Prop} (h : Working D inum d data mb (tables mb) m)
    (hi : inum < NINODES) (hmax : fbn < MAXFILE) (hle : fbn ≤ mb inum) (hfb : m.freeblock ≤ FSSIZE)
    (hE : Fits (update mb inum (max (mb inum) (fbn + 1))) ∨ ∀ e m', E e m')
    (hQ : ∀ r m', Finds D inum d data mb
      (tables (update mb inum (max (mb inum) (fbn + 1)))) fbn m r m' → Q r m') :
    wp (fileBlock d fbn) Q E m := by
  have hlt : m.freeblock < 2 ^ 32 := by
    simp only [FSSIZE] at hfb
    omega
  refine wp_ite (fun hdirect => ?_) fun hlisted => ?_
  · -- no indirect block is needed
    have htables : tables (update mb inum (max (mb inum) (fbn + 1))) = tables mb := by
      refine tables_update ?_
      omega
    rw [htables] at hQ
    have hmapped := h.books.mapped inum fbn hmax
    rw [places_self, place_direct hdirect] at hmapped
    refine wp_ite (fun h0 => ?_) fun hne => ?_
    · have heq : fbn = mb inum := by
        by_contra hlt
        exact hmapped.mpr (by omega) h0
      have haddr : (d.setAddr fbn m.freeblock).addr fbn = m.freeblock :=
        d.addr_setAddr_self (by omega) hlt
      have hplaces : places m.img (update D inum (d.setAddr fbn m.freeblock))
          = setPlace (places m.img (update D inum d)) inum fbn m.freeblock :=
        places_update (place_setAddr hdirect hlt fun _ => rfl) fun _ _ => rfl
      refine wp_seq (wp_nextBlock (hQ _ _ ⟨⟨?_, h.len⟩, (place_direct hdirect).symm,
        ⟨rfl, rfl, rfl, rfl, rfl⟩, ⟨fun _ _ => rfl, rfl⟩, fun hlt => by omega, fun _ => ?_⟩))
      · show Books m.img _ _ _ _ _
        rw [hplaces, Nat.max_eq_right (by omega)]
        refine h.books.growBlock hi heq hmax (fun _ _ => rfl) ?_
        rw [places_self]
        exact h.place_lt MAXFILE
      · show m.freeblock + 1 = (d.setAddr fbn m.freeblock).addr fbn + 1
        rw [haddr]
    · have hlt' := hmapped.mp hne
      refine hQ (d, d.addr fbn) m ⟨?_, (place_direct hdirect).symm, ⟨rfl, rfl, rfl, rfl, rfl⟩, .refl,
        fun _ => rfl, fun heq => absurd heq (by omega)⟩
      rw [Nat.max_eq_left (by omega), update_eq_self]
      exact h
  · have hlow : NDIRECT ≤ fbn := Nat.not_lt.mp hlisted
    refine wp_seq (wp_indirectBlock h hi hfb (fun htb => ?_) fun hno hw => ?_)
    · -- there is an indirect block
      have hmany : NDIRECT < mb inum := of_decide_eq_true htb
      have htables : tables (update mb inum (max (mb inum) (fbn + 1))) = tables mb := by
        refine tables_update ?_
        omega
      rw [htables] at hQ
      refine wp_listedBlock h hi htb hlow hmax hle hlt (.inl ?_) hQ
      have := h.place_lt MAXFILE
      rw [h.len]
      omega
    · -- the first block that is listed
      have hfew : ¬ NDIRECT < mb inum := of_decide_eq_false hno
      have htables : tables (update mb inum (max (mb inum) (fbn + 1)))
          = update (tables mb) inum true := by
        funext i
        by_cases hin : i = inum
        · rw [hin, update_self, tables, update_self]
          exact decide_eq_true (by omega)
        · rw [tables, update_of_ne hin, update_of_ne hin, tables]
      rw [htables] at hQ
      have hself : place m.img (d.setAddr NDIRECT m.freeblock) MAXFILE = m.freeblock := by
        rw [place_indirect, d.addr_setAddr_self (by omega) hlt]
      refine wp_listedBlock hw hi (update_self ..) hlow hmax hle ?_ (hE.imp_left fun hfits => ?_)
        fun r m' hr => hQ r m' ⟨hr.working, hr.block, hr.fields, ⟨hr.only.img, hr.only.freeinode⟩,
          fun hlt => absurd hlt (by omega), hr.new⟩
      · simp only [FSSIZE] at hfb
        show m.freeblock + 1 < 2 ^ 32
        omega
      · show place m.img _ MAXFILE < m.len
        have htotal : m.freeblock + 1
            = nmeta + ∑ i ∈ range NINODES, (mb i + if update (tables mb) inum true i then 1 else 0) :=
          hw.books.total
        have hle' : ∑ i ∈ range NINODES, (mb i + if update (tables mb) inum true i then 1 else 0)
            ≤ ∑ i ∈ range NINODES, (update mb inum (max (mb inum) (fbn + 1)) i
              + if update (tables mb) inum true i then 1 else 0) := by
          refine sum_le_sum fun i _ => Nat.add_le_add_right ?_ _
          by_cases hin : i = inum
          · rw [hin, update_self]
            exact le_max_left _ _
          · rw [update_of_ne hin]
        unfold Fits at hfits
        rw [htables] at hfits
        rw [hself, h.len]
        omega

end Blocks

end Xv6.Mkfs
