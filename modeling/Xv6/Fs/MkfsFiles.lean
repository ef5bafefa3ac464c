/-
  Xv6.Fs.MkfsFiles

  The runs of mkfs.
-/

import Xv6.Fs.MkfsBooks

namespace Xv6

open Function Wp Fs Dinode List Nat

variable {Q : Unit → Mkfs → Prop} {type : Int16} {n k : Nat}

namespace Mkfs

def blocks (n : Nat) : Nat := (n + BSIZE - 1) / BSIZE

@[simp] theorem blocks_zero : blocks 0 = 0 := by decide

theorem blocks_mono (h : n ≤ k) : blocks n ≤ blocks k :=
  Nat.div_le_div_right (by omega)

theorem lt_blocks : k < blocks n ↔ k * BSIZE < n := by
  simp only [blocks, BSIZE]
  omega

theorem blocks_le : blocks n ≤ k ↔ n ≤ k * BSIZE := by
  have := lt_blocks (n := n) (k := k)
  omega

theorem blocks_add {off : Nat} (hpos : 0 < n) (hn : n ≤ (off / BSIZE + 1) * BSIZE - off) :
    blocks (off + n) = max (blocks off) (off / BSIZE + 1) := by
  simp only [blocks, BSIZE] at *
  omega

/-! ## Appending -/

section Append

variable {D : Nat → Dinode} {inum off : Nat} {d : Dinode} {data : Nat → List UInt8}
  {mb : Nat → Nat} {m : Mkfs} {p : List UInt8} {E : Stop → Mkfs → Prop}
variable {d' d'' : Dinode}

theorem Working.write {buf : Block} {b : Nat} (h : Working D inum d data mb (tables mb) m)
    (hb : b = place m.img d ((data inum).length / BSIZE))
    (hlt : (data inum).length / BSIZE < mb inum)
    (hfit : (data inum).length % BSIZE + p.length ≤ BSIZE)
    (hbuf : buf = Bytes.blit (m.img b) ((data inum).length % BSIZE) p) (hlen : b < m.len) :
    Working D inum d (update data inum (data inum ++ p)) mb (tables mb)
      { m with img := update m.img b buf, len := max m.len (b + 1) } := by
  have hmax : (data inum).length / BSIZE < MAXFILE := lt_of_lt_of_le hlt (h.books.small inum)
  have hplace : places m.img (update D inum d) inum ((data inum).length / BSIZE) = b := by
    rw [places_self, hb]
  -- a data block is nobody's indirect block
  have hsame : places (update m.img b buf) (update D inum d)
      = places m.img (update D inum d) := by
    funext i
    refine place_congr fun hne => update_of_ne (fun heq => ?_) ..
    have htable : places m.img (update D inum d) i MAXFILE = b := by
      rw [← heq]
      exact place_indirect
    have hinj := h.books.own.inj i MAXFILE inum ((data inum).length / BSIZE)
      (by rw [htable, ← heq]; exact hne) (htable.trans hplace.symm)
    omega
  refine ⟨?_, ?_⟩
  · show Books (update m.img b buf) _ _ _ _ m.freeblock
    rw [hsame]
    refine h.books.write hlt hfit ?_ fun b' hb' => update_of_ne ?_ ..
    · rw [hplace, update_self]
      exact hbuf
    · rwa [hplace] at hb'
  · show max m.len (b + 1) = FSSIZE
    rw [← h.len]
    omega

structure Appended (D : Nat → Dinode) (inum : Nat) (d : Dinode) (data : Nat → List UInt8)
    (mb : Nat → Nat) (p : List UInt8) (m : Mkfs) (d' : Dinode) (m' : Mkfs) : Prop where
  working : Working D inum d' (update data inum (data inum ++ p))
    (update mb inum (blocks ((data inum).length + p.length)))
    (tables (update mb inum (blocks ((data inum).length + p.length)))) m'
  fields : SameFields d d'
  only : DataOnly m m'
  freeblock : m'.freeblock ≤ FSSIZE

def Room (data : Nat → List UInt8) (mb : Nat → Nat) (inum n : Nat) : Prop :=
  Fits (update mb inum (blocks ((data inum).length + n))) ∧ (data inum).length + n ≤ MAXFILE * BSIZE

theorem SameFields.refl : SameFields d d := ⟨rfl, rfl, rfl, rfl, rfl⟩

theorem SameFields.trans (h : SameFields d d') (h' : SameFields d' d'') : SameFields d d'' := by
  obtain ⟨h1, h2, h3, h4, h5⟩ := h
  obtain ⟨h1', h2', h3', h4', h5'⟩ := h'
  exact ⟨h1'.trans h1, h2'.trans h2, h3'.trans h3, h4'.trans h4, h5'.trans h5⟩

theorem Appended.nil (h : Working D inum d data mb (tables mb) m)
    (hmb : mb inum = blocks (data inum).length) (hfb : m.freeblock ≤ FSSIZE) :
    Appended D inum d data mb [] m d m := by
  have hmb' : update mb inum (blocks ((data inum).length + ([] : List UInt8).length)) = mb := by
    rw [length_nil, add_zero, ← hmb, update_eq_self]
  refine ⟨?_, .refl, .refl, hfb⟩
  rw [hmb', List.append_nil, update_eq_self]
  exact h

theorem Appended.append {q : List UInt8} {m' m'' : Mkfs}
    {mb' : Nat → Nat} (h : Appended D inum d' (update data inum (data inum ++ p)) mb' q m' d'' m'')
    (hsame : SameFields d d') (honly : DataOnly m m') (hmb' : mb' = update mb inum (mb' inum)) :
    Appended D inum d data mb (p ++ q) m d'' m'' := by
  obtain ⟨hw, hfields, hdata, hfb⟩ := h
  refine ⟨?_, hsame.trans hfields, honly.trans hdata, hfb⟩
  rw [hmb', update_idem, update_idem, update_self, append_assoc,
    length_append, add_assoc, ← length_append] at hw
  exact hw

theorem wp_appendLoop {Q : Dinode × Nat → Mkfs → Prop} (fuel : Nat)
    (h : Working D inum d data mb (tables mb) m) (hi : inum < NINODES)
    (hoff : off = (data inum).length) (hmb : mb inum = blocks (data inum).length)
    (hfb : m.freeblock ≤ FSSIZE) (hfuel : p.length ≤ fuel)
    (hE : Room data mb inum p.length ∨ ∀ e m', E e m')
    (hQ : ∀ d' m', Appended D inum d data mb p m d' m' → Q (d', off + p.length) m') :
    wp (appendLoop fuel d off p) Q E m := by
  induction fuel generalizing d off p data mb m with
  | zero =>
    obtain rfl : p = [] := eq_nil_of_length_eq_zero (by omega)
    exact hQ d m (.nil h hmb hfb)
  | succ fuel ih =>
    refine wp_ite (fun hp => ?_) fun hp => ?_
    · subst hp
      exact hQ d m (.nil h hmb hfb)
    · have hpos : 0 < p.length := length_pos_of_ne_nil hp
      have hmod : off - off / BSIZE * BSIZE = off % BSIZE := by
        simp only [BSIZE]
        omega
      refine wp_ite (fun hmax => ?_) fun hmax => ?_
      · generalize hn1 : min p.length ((off / BSIZE + 1) * BSIZE - off) = n1
        have hn1pos : 0 < n1 := by
          simp only [BSIZE] at hn1
          omega
        have hn1le : n1 ≤ p.length := by omega
        have hin : n1 ≤ (off / BSIZE + 1) * BSIZE - off := by omega
        have hadd := blocks_add hn1pos hin
        have htake : (p.take n1).length = n1 := by
          rw [length_take]
          omega
        have hdrop : (p.drop n1).length = p.length - n1 := length_drop ..
        rw [hoff] at hmax hadd hin hn1 hmod ⊢
        have hfits : Room data mb inum p.length →
            Fits (update mb inum (max (mb inum) ((data inum).length / BSIZE + 1))) := by
          refine fun hroom => hroom.1.mono fun i => ?_
          by_cases heq : i = inum
          · rw [heq, update_self, update_self, hmb, ← hadd]
            exact blocks_mono (by omega)
          · rw [update_of_ne heq, update_of_ne heq]
        have hle : (data inum).length / BSIZE ≤ mb inum := by
          rw [hmb]
          simp only [blocks, BSIZE]
          omega
        -- the block of the file
        refine wp_seq (wp_fileBlock h hi hmax hle hfb (hE.imp_left hfits) fun r m1 hr => ?_)
        · have hlen1 := hr.working.len
          have hblk := hr.working.place_lt ((data inum).length / BSIZE)
          rw [← hr.block] at hblk
          -- it is in the file when the files fit
          refine wp_seq (wp_rsect (hE.imp_left fun hroom => ?_) fun hlt => ?_)
          · have htotal := hr.working.books.total
            have hfit := hfits hroom
            unfold Fits at hfit
            omega
          · have hfb1 : m1.freeblock ≤ FSSIZE := by
              rcases lt_or_ge ((data inum).length / BSIZE) (mb inum) with hold | hnew
              · rw [hr.old hold]
                exact hfb
              · rw [hr.new (le_antisymm hle hnew)]
                omega
            have hge : nmeta ≤ r.2 := by
              have hne := (hr.working.books.mapped inum ((data inum).length / BSIZE) hmax).mpr (by
                rw [update_self]
                omega)
              have hrange := hr.working.books.own.range inum _ hne
              rw [places_self, ← hr.block] at hrange
              exact hrange.1
            refine wp_write ?_
            rw [hn1, hmod]
            have hw := hr.working.write (p := p.take n1) hr.block (by
              rw [update_self]
              omega) (by
              simp only [BSIZE] at hin
              simp only [BSIZE, htake]
              omega) rfl hlt
            have hself : update data inum (data inum ++ p.take n1) inum
              = data inum ++ p.take n1 := update_self ..
            refine ih hw ?_ ?_ hfb1 ?_ ?_ ?_
            · rw [hself, length_append, htake]
            · rw [hself, update_self, length_append, htake, hadd, hmb]
            · omega
            · refine hE.imp_left fun hroom => ?_
              have htotal : (data inum).length + n1 + (p.length - n1) = (data inum).length + p.length := by
                omega
              unfold Room
              rw [hself, length_append, htake, hdrop, update_idem, htotal]
              exact hroom
            · intro d' m' happ
              have honly : ∀ buf, DataOnly m { m1 with
                  img := update m1.img r.2 buf, len := max m1.len (r.2 + 1) } :=
                fun buf => hr.only.trans ⟨fun b hb => update_of_ne (by omega) .., rfl⟩
              have happ' : Appended D inum d data mb (p.take n1 ++ p.drop n1) m d' m' :=
                happ.append hr.fields (honly _) (by rw [update_self])
              rw [take_append_drop] at happ'
              have hlen : (data inum).length + n1 + (p.drop n1).length
                  = (data inum).length + p.length := by omega
              rw [hlen]
              exact hoff ▸ hQ d' m' happ'
      · -- the file is too large
        refine hE.elim (fun hroom => absurd ?_ hmax) fun hblind => hblind _ _
        have := hroom.2
        rw [hoff]
        exact Nat.div_lt_of_lt_mul (by rw [Nat.mul_comm]; omega)

end Append

/-! ## Inodes -/

def inode (img : Nat → Block) (i : Nat) : Dinode := getDinode (img (sb.iblock i)) (i % IPB)

def dinodes (img : Nat → Block) (i : Nat) : Dinode :=
  if i < NINODES then inode img i else fresh 0

def written (img : Nat → Block) (inum : Nat) (d : Dinode) : Nat → Block :=
  update img (sb.iblock inum) (putDinode (img (sb.iblock inum)) (inum % IPB) d)

section Inodes

variable {img img' : Nat → Block} {D : Nat → Dinode} {inum : Nat} {d : Dinode}
  {data : Nat → List UInt8} {mb : Nat → Nat} {m : Mkfs} {E : Stop → Mkfs → Prop}
variable {i fb : Nat}

theorem iblock_eq (i : Nat) : sb.iblock i = i / 8 + 32 := rfl

theorem inode_written_of_ne (h : i ≠ inum) : inode (written img inum d) i = inode img i := by
  unfold inode written
  by_cases hblock : sb.iblock i = sb.iblock inum
  · rw [hblock, update_self, getDinode_putDinode_of_ne]
    rw [iblock_eq, iblock_eq] at hblock
    simp only [IPB]
    omega
  · rw [update_of_ne hblock]

theorem inode_written_self : inode (written img inum d) inum = d := by
  unfold inode written
  rw [update_self, getDinode_putDinode_self _ _ (mod_lt _ (by decide))]

theorem dinodes_written (hi : inum < NINODES) :
    dinodes (written img inum d) = update (dinodes img) inum d := by
  funext i
  by_cases h : i = inum
  · rw [h, update_self, dinodes, if_pos hi, inode_written_self]
  · rw [update_of_ne h, dinodes, dinodes, inode_written_of_ne h]

theorem dinodes_written_beyond (hi : NINODES ≤ inum) :
    dinodes (written img inum d) = dinodes img := by
  funext i
  unfold dinodes
  by_cases h : i < NINODES
  · rw [if_pos h, if_pos h, inode_written_of_ne (by omega)]
  · rw [if_neg h, if_neg h]

theorem dinodes_congr (h : ∀ b, 32 ≤ b → b < 57 → img' b = img b) : dinodes img' = dinodes img := by
  funext i
  unfold dinodes
  by_cases hi : i < NINODES
  · rw [if_pos hi, if_pos hi, inode, inode, h]
    · rw [iblock_eq]
      omega
    · rw [iblock_eq]
      simp only [NINODES] at hi
      omega
  · rw [if_neg hi, if_neg hi]

theorem places_congr (h : Own (places img D) fb)
    (hsame : ∀ b, nmeta ≤ b → img' b = img b) : places img' D = places img D := by
  funext i
  refine place_congr fun hne => hsame _ ?_
  have hrange := h.range i MAXFILE
  unfold places at hrange
  rw [place_indirect] at hrange
  exact (hrange hne).1

theorem Books.congr {P : Nat → Nat → Nat} {tb : Nat → Bool} (h : Books img P data mb tb fb)
    (hsame : ∀ b, nmeta ≤ b → img' b = img b) : Books img' P data mb tb fb := by
  refine ⟨h.own, h.mapped, h.table, fun i x hx => ?_, h.long, h.small, fun b hb => ?_, h.total⟩
  · have hne := (h.mapped i (x / BSIZE) (lt_of_lt_of_le hx (h.small i))).mpr hx
    rw [hsame _ (h.own.range i _ hne).1]
    exact h.content i x hx
  · rw [hsame b (le_trans h.lo hb)]
    exact h.zero b hb

theorem Books.nothing (h : Books img (places img D) data mb (tables mb) fb)
    (hmb : mb i = 0) : place img (D i) = fun _ => 0 := by
  funext k
  by_contra hne
  rcases lt_trichotomy k MAXFILE with hk | hk | hk
  · have := (h.mapped i k hk).mp hne
    omega
  · have := (h.table i).mp (hk ▸ hne)
    rw [tables, hmb] at this
    exact absurd this (by decide)
  · exact hne (place_beyond hk)

theorem place_fresh (hd : d.addrs = (fresh type).addrs) : place img d = fun _ => 0 := by
  rw [place_of_addrs hd]
  funext k
  rw [Image.place_of_direct _ (addr_fresh ..), addr_fresh, ite_self]

theorem written_data (hi : inum / 8 + 32 < nmeta) (b : Nat) (hb : nmeta ≤ b) :
    written img inum d b = img b := by
  refine update_of_ne ?_ ..
  rw [iblock_eq]
  omega

theorem written_boot (img : Nat → Block) (inum : Nat) (d : Dinode) :
    written img inum d 1 = img 1 := by
  refine update_of_ne ?_ ..
  rw [iblock_eq]
  omega

theorem wp_winode (hlen : m.len = FSSIZE) (hi : inum / 8 + 32 < nmeta)
    (hQ : Q () { m with img := written m.img inum d }) : wp (winode inum d) Q E m := by
  have hlt : sb.iblock inum < m.len := by
    rw [iblock_eq, hlen]
    exact lt_trans hi (by decide)
  refine wp_seq (wp_rsect (.inl hlt) fun _ => (wp_change _).mpr ?_)
  rw [max_eq_left hlt]
  exact hQ

end Inodes

/-! ## What has been written -/

def sizes (data : Nat → List UInt8) (i : Nat) : Nat := blocks (data i).length

theorem sizes_update (data : Nat → List UInt8) (i : Nat) (p : List UInt8) :
    sizes (update data i p) = update (sizes data) i (blocks p.length) := by
  funext j
  by_cases h : j = i
  · rw [h, sizes, update_self, update_self]
  · rw [sizes, update_of_ne h, update_of_ne h, sizes]

structure Kept (d : Dinode) (t : Int16) (n : Nat) : Prop where
  type : d.type = t
  major : d.major = 0
  minor : d.minor = 0
  nlink : d.nlink = if t = 0 then 0 else 1
  size : d.size.toNat = n

structure Good (ty : Nat → Int16) (data : Nat → List UInt8) (m : Mkfs) : Prop where
  books : Books m.img (places m.img (dinodes m.img)) data (sizes data) (tables (sizes data)) m.freeblock
  len : m.len = FSSIZE
  freeblock : m.freeblock ≤ FSSIZE
  fields : ∀ i, i < NINODES → Kept (dinodes m.img i) (ty i) (data i).length
  free : ∀ i, m.freeinode ≤ i → ty i = 0 ∧ data i = []
  super : m.img 1 = superBlock

/-- These contents fit on the disk. -/
def Fitting (data : Nat → List UInt8) : Prop :=
  Fits (sizes data) ∧ ∀ i, (data i).length ≤ MAXFILE * BSIZE

section Files

variable {ty : Nat → Int16} {data data' : Nat → List UInt8} {inum : Nat} {m : Mkfs}
  {p : List UInt8} {E : Stop → Mkfs → Prop}

theorem Fitting.mono (h : Fitting data') (hle : ∀ i, (data i).length ≤ (data' i).length) :
    Fitting data :=
  ⟨h.1.mono fun i => blocks_mono (hle i), fun i => (hle i).trans (h.2 i)⟩

theorem Fitting.room (h : Fitting (update data inum (data inum ++ p))) :
    Room data (sizes data) inum p.length := by
  obtain ⟨hfits, hlen⟩ := h
  have hmax := hlen inum
  rw [sizes_update, length_append] at hfits
  rw [update_self, length_append] at hmax
  exact ⟨hfits, hmax⟩

theorem nmeta_eq : nmeta = 59 := rfl

theorem wp_iappend (h : Good ty data m) (hi : inum < NINODES)
    (hused : inum < m.freeinode)
    (hE : Fitting (update data inum (data inum ++ p)) ∨ ∀ e m', E e m')
    (hQ : ∀ m', Good ty (update data inum (data inum ++ p)) m' →
      m'.freeinode = m.freeinode → Q () m') :
    wp (iappend inum p) Q E m := by
  have hmeta : inum / 8 + 32 < nmeta := by
    rw [nmeta_eq]
    simp only [NINODES] at hi
    omega
  have hlt : sb.iblock inum < m.len := by
    rw [iblock_eq, h.len]
    exact lt_trans hmeta (by decide)
  have hdin : getDinode (m.img (sb.iblock inum)) (inum % IPB) = dinodes m.img inum :=
    (if_pos hi).symm
  have hkept := h.fields inum hi
  have hw : Working (dinodes m.img) inum (dinodes m.img inum) data (sizes data)
      (tables (sizes data)) m := by
    refine ⟨?_, h.len⟩
    rw [update_eq_self]
    exact h.books
  refine wp_seq (wp_seq (wp_rsect (.inl hlt) fun _ => (wp_pure _).mpr ?_))
  rw [hdin, hkept.size]
  refine wp_seq (wp_appendLoop _ hw hi rfl rfl h.freeblock le_rfl
    (hE.imp_left Fitting.room) fun d' m' happ => ?_)
  have hsizes : update (sizes data) inum (blocks ((data inum).length + p.length))
      = sizes (update data inum (data inum ++ p)) := by
    rw [sizes_update, length_append]
  have hbooks := happ.working.books
  rw [hsizes] at hbooks
  have hlong := hbooks.long inum
  have hsmall := hbooks.small inum
  rw [update_self, length_append] at hlong
  have hsame : dinodes m'.img = dinodes m.img :=
    dinodes_congr fun b _ hb => happ.only.img b (by rw [nmeta_eq]; omega)
  generalize hd'' : ({ d' with size := UInt32.ofNat ((data inum).length + p.length) } : Dinode) = d''
  -- the blocks are those of the inode that was worked on
  have hplaces : places m'.img (update (dinodes m.img) inum d'')
      = places m'.img (update (dinodes m.img) inum d') := by
    funext i
    by_cases heq : i = inum
    · rw [heq, places_self, places_self]
      exact place_of_addrs (by rw [← hd''])
    · rw [places, places, update_of_ne heq, update_of_ne heq]
  have hdinodes : dinodes (written m'.img inum d'') = update (dinodes m.img) inum d'' := by
    rw [dinodes_written hi, hsame]
  refine wp_winode happ.working.len hmeta (hQ _ ⟨?_, happ.working.len, happ.freeblock,
    fun i hi' => ?_, fun i hi' => ?_, ?_⟩ happ.only.freeinode)
  · show Books (written m'.img inum d'') (places (written m'.img inum d'')
      (dinodes (written m'.img inum d''))) _ _ _ m'.freeblock
    rw [hdinodes]
    rw [← hplaces] at hbooks
    rw [places_congr hbooks.own (written_data hmeta)]
    exact hbooks.congr (written_data hmeta)
  · show Kept (dinodes (written m'.img inum d'') i) _ _
    rw [hdinodes]
    by_cases heq : i = inum
    · subst heq
      obtain ⟨htype, hmajor, hminor, hnlink, _⟩ := happ.fields
      rw [update_self, update_self, length_append, ← hd'']
      refine ⟨htype.trans hkept.type, hmajor.trans hkept.major, hminor.trans hkept.minor,
        hnlink.trans hkept.nlink, ?_⟩
      show (UInt32.ofNat ((data i).length + p.length)).toNat = _
      rw [UInt32.toNat_ofNat', mod_eq_of_lt]
      simp only [MAXFILE, NDIRECT, NINDIRECT, BSIZE] at hsmall hlong
      omega
    · rw [update_of_ne heq, update_of_ne heq]
      exact h.fields i hi'
  · have hne : i ≠ inum := by
      have : m'.freeinode ≤ i := hi'
      have := happ.only.freeinode
      omega
    rw [update_of_ne hne]
    exact h.free i (happ.only.freeinode ▸ hi')
  · show written m'.img inum d'' 1 = superBlock
    rw [written_boot, happ.only.img 1 (by decide)]
    exact h.super

theorem wp_ialloc {Q : Nat → Mkfs → Prop} (h : Good ty data m) (htype : type ≠ 0)
    (hlt : m.freeinode < NINODES)
    (hQ : ∀ m', Good (update ty m.freeinode type) data m' →
      m'.freeinode = m.freeinode + 1 → Q m.freeinode m') :
    wp (ialloc type) Q E m := by
  have hmeta : m.freeinode / 8 + 32 < nmeta := by
    rw [nmeta_eq]
    simp only [NINODES] at hlt
    omega
  obtain ⟨_, hnil⟩ := h.free m.freeinode le_rfl
  generalize hd : ({ fresh type with nlink := 1 } : Dinode) = d
  -- the inode had no blocks before
  have hplaces : places m.img (update (dinodes m.img) m.freeinode d)
      = places m.img (dinodes m.img) := by
    funext i
    by_cases heq : i = m.freeinode
    · rw [heq, places_self]
      have hnone : sizes data m.freeinode = 0 := by
        rw [sizes, hnil]
        exact blocks_zero
      exact (place_fresh (by rw [← hd])).trans (h.books.nothing hnone).symm
    · rw [places, places, update_of_ne heq]
  refine wp_read (wp_write (wp_seq
    (wp_winode (m := { m with freeinode := m.freeinode + 1 }) h.len hmeta ((wp_pure _).mpr
      (hQ _ ⟨?_, h.len, h.freeblock, fun i hi => ?_, fun i hi => ?_, ?_⟩ rfl)))))
  · show Books (written m.img m.freeinode _) (places (written m.img m.freeinode _)
      (dinodes (written m.img m.freeinode _))) _ _ _ m.freeblock
    rw [hd, dinodes_written hlt]
    have hbooks := h.books
    rw [← hplaces] at hbooks
    rw [places_congr hbooks.own (written_data hmeta)]
    exact hbooks.congr (written_data hmeta)
  · show Kept (dinodes (written m.img m.freeinode _) i) _ _
    rw [hd, dinodes_written hlt]
    by_cases heq : i = m.freeinode
    · rw [heq, update_self, update_self, hnil, ← hd]
      exact ⟨rfl, rfl, rfl, (if_neg htype).symm, rfl⟩
    · rw [update_of_ne heq, update_of_ne heq]
      exact h.fields i hi
  · have hi' : m.freeinode + 1 ≤ i := hi
    rw [update_of_ne (by omega)]
    exact h.free i (by omega)
  · show written m.img m.freeinode { fresh type with nlink := 1 } 1 = superBlock
    rw [written_boot]
    exact h.super

theorem wp_ialloc_beyond {Q : Nat → Mkfs → Prop} (h : Good ty data m)
    (hge : NINODES ≤ m.freeinode) (hmeta : m.freeinode / 8 + 32 < nmeta)
    (hQ : ∀ m', Good ty data m' → m'.freeinode = m.freeinode + 1 → Q m.freeinode m') :
    wp (ialloc type) Q E m := by
  refine wp_read (wp_write (wp_seq
    (wp_winode (m := { m with freeinode := m.freeinode + 1 }) h.len hmeta ((wp_pure _).mpr
      (hQ _ ⟨?_, h.len, h.freeblock, fun i hi => ?_, fun i hi => ?_, ?_⟩ rfl)))))
  · show Books (written m.img m.freeinode _) (places (written m.img m.freeinode _)
      (dinodes (written m.img m.freeinode _))) _ _ _ m.freeblock
    rw [dinodes_written_beyond hge, places_congr h.books.own (written_data hmeta)]
    exact h.books.congr (written_data hmeta)
  · show Kept (dinodes (written m.img m.freeinode _) i) _ _
    rw [dinodes_written_beyond hge]
    exact h.fields i hi
  · exact h.free i (le_of_succ_le hi)
  · show written m.img m.freeinode { fresh type with nlink := 1 } 1 = superBlock
    rw [written_boot]
    exact h.super

theorem Good.append_nil (h : Good ty data m) : Good ty (update data inum (data inum ++ [])) m := by
  rw [List.append_nil, update_eq_self]
  exact h

theorem wp_copyLoop {content : List UInt8} (fuel : Nat)
    (h : Good ty data m) (hi : inum < NINODES) (hused : inum < m.freeinode)
    (hfuel : content.length ≤ fuel)
    (hE : Fitting (update data inum (data inum ++ content)) ∨ ∀ e m', E e m')
    (hQ : ∀ m', Good ty (update data inum (data inum ++ content)) m' →
      m'.freeinode = m.freeinode → Q () m') :
    wp (copyLoop inum fuel content) Q E m := by
  induction fuel generalizing content data m with
  | zero =>
    obtain rfl : content = [] := eq_nil_of_length_eq_zero (by omega)
    exact hQ m h.append_nil rfl
  | succ fuel ih =>
    refine wp_ite (fun hnil => ?_) fun hne => ?_
    · subst hnil
      exact hQ m h.append_nil rfl
    have hpos : 0 < content.length := length_pos_of_ne_nil hne
    have hE' : Fitting (update data inum (data inum ++ content.take BSIZE)) ∨ ∀ e m', E e m' := by
      refine hE.imp_left fun hfit => hfit.mono fun i => ?_
      by_cases heq : i = inum
      · rw [heq, update_self, update_self, length_append, length_append, length_take]
        omega
      · rw [update_of_ne heq, update_of_ne heq]
    have hdata : update (update data inum (data inum ++ content.take BSIZE)) inum
        (update data inum (data inum ++ content.take BSIZE) inum ++ content.drop BSIZE)
        = update data inum (data inum ++ content) := by
      rw [update_idem, update_self, append_assoc, take_append_drop]
    refine wp_seq (wp_iappend h hi hused hE' fun m' hgood hfree => ?_)
    refine ih hgood (hfree ▸ hused) ?_ ?_ fun m'' hgood' hfree' => ?_
    · rw [length_drop]
      simp only [BSIZE]
      omega
    · rw [hdata]
      exact hE
    · rw [hdata] at hgood'
      exact hQ m'' hgood' (hfree'.trans hfree)

def addData (inum : Nat) (f : Source) (data : Nat → List UInt8) : Nat → List UInt8 :=
  update
    (update data ROOTINO (data ROOTINO ++ dirent inum (skipUnderscore f.name))) inum
    (f.content.getD [])

/-- mkfs can read this file. -/
def Readable (f : Source) : Prop := slash ∉ f.name ∧ f.content.isSome = true

theorem wp_addFile {f : Source} (h : Good ty data m)
    (hroot : ROOTINO < m.freeinode) (hlt : m.freeinode < NINODES)
    (hE : Readable f ∧ Fitting (addData m.freeinode f data) ∨ ∀ e m', E e m')
    (hQ : ∀ m', Readable f → Good (update ty m.freeinode T_FILE) (addData m.freeinode f data) m' →
      m'.freeinode = m.freeinode + 1 → Q () m') :
    wp (addFile f) Q E m := by
  refine wp_ite (fun hslash => ?_) fun hslash => ?_
  · exact hE.elim (fun hok => absurd hslash hok.1.1) fun hblind => hblind _ _
  cases hcontent : f.content with
  | none =>
    refine hE.elim (fun hok => ?_) fun hblind => hblind _ _
    have := hok.1.2
    rw [hcontent] at this
    cases this
  | some content =>
    have hgetD : f.content.getD [] = content := by rw [hcontent]; rfl
    have hne : m.freeinode ≠ ROOTINO := ne_of_gt hroot
    have hadd : addData m.freeinode f data = update (update data ROOTINO
        (data ROOTINO ++ dirent m.freeinode (skipUnderscore f.name))) m.freeinode
        (update data ROOTINO (data ROOTINO ++ dirent m.freeinode (skipUnderscore f.name))
          m.freeinode ++ content) := by
      rw [addData, hgetD, update_of_ne hne, (h.free m.freeinode le_rfl).2, nil_append]
    refine wp_seq (wp_ialloc h (by decide) hlt fun m1 h1 hfree1 => ?_)
    refine wp_seq (wp_iappend h1 (by decide) (by omega) (hE.imp_left fun hok => ?_)
      fun m2 h2 hfree2 => ?_)
    · refine hok.2.mono fun i => ?_
      rw [addData]
      by_cases heq : i = m.freeinode
      · rw [heq, update_self, update_of_ne hne, (h.free m.freeinode le_rfl).2]
        exact zero_le _
      · rw [update_of_ne heq]
    · refine wp_copyLoop content.length h2 hlt (by omega) le_rfl (hE.imp_left fun hok => ?_)
        fun m3 h3 hfree3 => ?_
      · rw [← hadd]
        exact hok.2
      · rw [← hadd] at h3
        refine hQ m3 ⟨hslash, by rw [hcontent]; rfl⟩ h3 ?_
        omega

/-! ## The program -/

def entries (files : List Source) : List UInt8 :=
  dirent ROOTINO [dot] ++ dirent ROOTINO [dot, dot] ++
    (files.mapIdx fun k f => dirent (k + 2) (skipUnderscore f.name)).flatten

def contents (files : List Source) (i : Nat) : List UInt8 :=
  if i = ROOTINO then entries files
  else if 2 ≤ i then (files[i - 2]?.bind Source.content).getD []
  else []

def types (n : Nat) (i : Nat) : Int16 :=
  if i = ROOTINO then T_DIR else if 2 ≤ i ∧ i < n + 2 then T_FILE else 0

theorem contents_root (files : List Source) : contents files ROOTINO = entries files := if_pos rfl

theorem entries_append (files : List Source) (f : Source) :
    entries (files ++ [f]) = entries files ++ dirent (files.length + 2) (skipUnderscore f.name) := by
  simp [entries, mapIdx_append]

theorem contents_append (files : List Source) (f : Source) :
    contents (files ++ [f]) = addData (files.length + 2) f (contents files) := by
  funext i
  unfold addData
  by_cases hlast : i = files.length + 2
  · subst hlast
    rw [update_self, contents, if_neg (by simp only [ROOTINO]; omega), if_pos (by omega)]
    simp
  · rw [update_of_ne hlast]
    by_cases hroot : i = ROOTINO
    · rw [hroot, update_self, contents, if_pos rfl, contents, if_pos rfl, entries_append]
    · rw [update_of_ne hroot, contents, contents, if_neg hroot, if_neg hroot]
      by_cases h2 : 2 ≤ i
      · rw [if_pos h2, if_pos h2]
        congr 2
        rcases lt_or_ge (i - 2) files.length with hlt | hge
        · rw [getElem?_append_left hlt]
        · rw [getElem?_eq_none hge, getElem?_eq_none]
          rw [length_append, length_singleton]
          omega
      · rw [if_neg h2, if_neg h2]

theorem types_succ (n : Nat) : types (n + 1) = update (types n) (n + 2) T_FILE := by
  funext i
  unfold types
  by_cases hlast : i = n + 2
  · rw [hlast, update_self, if_neg (by simp only [ROOTINO]; omega), if_pos (by omega)]
  · rw [update_of_ne hlast]
    refine if_congr Iff.rfl rfl (if_congr ?_ rfl rfl)
    omega

theorem length_entries (files : List Source) : (entries files).length = 16 * (files.length + 2) := by
  induction files using reverseRecOn with
  | nil => rfl
  | append_singleton files f ih =>
    rw [entries_append, length_append, ih, length_dirent, length_append, length_singleton]
    rfl

theorem length_contents_le (files rest : List Source) (i : Nat) :
    (contents files i).length ≤ (contents (files ++ rest) i).length := by
  unfold contents
  by_cases hroot : i = ROOTINO
  · rw [if_pos hroot, if_pos hroot, length_entries, length_entries, length_append]
    omega
  rw [if_neg hroot, if_neg hroot]
  by_cases h2 : 2 ≤ i
  · rw [if_pos h2, if_pos h2]
    rcases lt_or_ge (i - 2) files.length with hlt | hge
    · rw [getElem?_append_left hlt]
    · rw [getElem?_eq_none hge]
      exact zero_le _
  · rw [if_neg h2, if_neg h2]

theorem wp_addFiles {more : List Source} (rest files : List Source)
    (h : Good (types files.length) (contents files) m) (hfree : m.freeinode = files.length + 2)
    (hlt : files.length + rest.length + 2 ≤ NINODES)
    (hE : (∀ f ∈ rest, Readable f) ∧ Fitting (contents (files ++ rest)) ∨ ∀ e m', E e m')
    (hQ : ∀ m', (∀ f ∈ rest, Readable f) → Good (types (files ++ rest).length) (contents (files ++ rest)) m' →
      m'.freeinode = (files ++ rest).length + 2 → wp (more.forM addFile) Q E m') :
    wp ((rest ++ more).forM addFile) Q E m := by
  induction rest generalizing files m with
  | nil =>
    rw [List.append_nil] at hQ
    exact hQ m (fun _ hf => absurd hf not_mem_nil) h hfree
  | cons f rest ih =>
    have happend : files ++ f :: rest = (files ++ [f]) ++ rest := by
      rw [append_assoc, singleton_append]
    rw [happend] at hE hQ
    rw [length_cons] at hlt
    refine wp_seq (wp_addFile h ?_ ?_ (hE.imp_left fun hok => ⟨hok.1 f mem_cons_self, ?_⟩)
      fun m' hread h' hfree' => ?_)
    · rw [hfree]
      simp only [ROOTINO]
      omega
    · omega
    · rw [hfree, ← contents_append]
      exact hok.2.mono fun i => length_contents_le (files ++ [f]) rest i
    · rw [hfree, ← contents_append, ← types_succ] at h'
      refine ih (files ++ [f]) ?_ ?_ ?_ ?_ ?_
      · rw [length_append, length_singleton]
        exact h'
      · rw [hfree', hfree, length_append, length_singleton]
      · rw [length_append, length_singleton]
        omega
      · exact hE.imp_left fun hok => ⟨fun g hg => hok.1 g (mem_cons_of_mem _ hg), hok.2⟩
      · intro m'' hreads
        refine hQ m'' fun g hg => ?_
        rcases mem_cons.mp hg with rfl | hg
        · exact hread
        · exact hreads g hg

structure Finished (ty : Nat → Int16) (data : Nat → List UInt8) (m : Mkfs) : Prop where
  books : Books m.img (places m.img (dinodes m.img)) data (sizes data) (tables (sizes data)) m.freeblock
  freeblock : m.freeblock ≤ FSSIZE
  file : ∀ i, i < NINODES → i ≠ ROOTINO → Kept (dinodes m.img i) (ty i) (data i).length
  root : Kept (dinodes m.img ROOTINO) (ty ROOTINO) (((data ROOTINO).length / BSIZE + 1) * BSIZE)
  super : m.img 1 = superBlock
  bitmap : m.img sb.bmapstart = bitmap m.freeblock

theorem wp_finish (h : Good ty data m)
    (hQ : ∀ m', Finished ty data m' → m'.freeinode = m.freeinode → Q () m') :
    wp (do fixRoot; let used ← look fun m => m.freeblock; balloc used) Q E m := by
  have hdin : getDinode (m.img (sb.iblock ROOTINO)) (ROOTINO % IPB) = dinodes m.img ROOTINO := rfl
  have hkept := h.fields ROOTINO (by decide)
  have hlong := h.books.long ROOTINO
  have hsmall := h.books.small ROOTINO
  refine wp_seq (wp_seq (wp_seq (wp_rsect (.inl ?_) fun _ => (wp_pure _).mpr ?_)))
  · rw [h.len]
    decide
  rw [hdin, hkept.size]
  generalize hd : ({ dinodes m.img ROOTINO with
    size := UInt32.ofNat (((data ROOTINO).length / BSIZE + 1) * BSIZE) } : Dinode) = d
  have hroot : (1 : Nat) / 8 + 32 < nmeta := by decide
  have hplaces : places m.img (update (dinodes m.img) ROOTINO d)
      = places m.img (dinodes m.img) := by
    funext i
    by_cases heq : i = ROOTINO
    · rw [heq, places_self]
      exact place_of_addrs (by rw [← hd])
    · rw [places, places, update_of_ne heq]
  refine wp_winode h.len hroot (wp_read ?_)
  refine wp_ite (fun _ => (wp_change _).mpr ?_) fun hfull => absurd ?_ hfull
  · have hsame : ∀ b, nmeta ≤ b → update (written m.img ROOTINO d) sb.bmapstart
        (Mkfs.bitmap m.freeblock) b = m.img b := by
      intro b hb
      rw [update_of_ne (by rintro rfl; exact absurd hb (by decide)), written_data hroot b hb]
    have hdinodes : dinodes (update (written m.img ROOTINO d) sb.bmapstart
        (Mkfs.bitmap m.freeblock)) = update (dinodes m.img) ROOTINO d := by
      refine Eq.trans (dinodes_congr fun b _ hb => update_of_ne ?_ ..) (dinodes_written (by decide))
      rintro rfl
      exact absurd hb (by decide)
    refine hQ _ ⟨?_, h.freeblock, fun i hi hne => ?_, ?_, ?_, ?_⟩ rfl
    · show Books (update (written m.img ROOTINO d) sb.bmapstart (Mkfs.bitmap m.freeblock))
        (places _ (dinodes (update (written m.img ROOTINO d) sb.bmapstart
          (Mkfs.bitmap m.freeblock)))) _ _ _ m.freeblock
      rw [hdinodes]
      have hbooks := h.books
      rw [← hplaces] at hbooks
      rw [places_congr hbooks.own hsame]
      exact hbooks.congr hsame
    · show Kept (dinodes (update (written m.img ROOTINO d) sb.bmapstart _) i) _ _
      rw [hdinodes, update_of_ne hne]
      exact h.fields i hi
    · show Kept (dinodes (update (written m.img ROOTINO d) sb.bmapstart _) ROOTINO) _ _
      rw [hdinodes, update_self, ← hd]
      refine ⟨hkept.type, hkept.major, hkept.minor, hkept.nlink, ?_⟩
      show (UInt32.ofNat (((data ROOTINO).length / BSIZE + 1) * BSIZE)).toNat = _
      rw [UInt32.toNat_ofNat', mod_eq_of_lt]
      simp only [MAXFILE, NDIRECT, NINDIRECT, BSIZE] at hsmall hlong ⊢
      omega
    · show update (written m.img ROOTINO d) sb.bmapstart (Mkfs.bitmap m.freeblock) 1 = superBlock
      rw [update_of_ne (by decide), written_boot]
      exact h.super
    · exact update_self sb.bmapstart (Mkfs.bitmap m.freeblock) (written m.img ROOTINO d)
  · have := h.freeblock
    show m.freeblock < BSIZE * 8
    simp only [FSSIZE] at this
    simp only [BSIZE]
    omega

theorem getDinode_zero (k : Nat) : getDinode Bytes.zero k = fresh 0 := by
  unfold getDinode short word
  simp only [Bytes.getLE_zero]
  rfl

theorem fitting_of_root (hdata : ∀ i, i ≠ ROOTINO → data i = [])
    (hroot : (data ROOTINO).length ≤ NDIRECT * BSIZE) : Fitting data := by
  have hblocks : sizes data ROOTINO ≤ NDIRECT := blocks_le.mpr hroot
  have hnone : ∀ i, i ≠ ROOTINO → sizes data i = 0 := by
    intro i hi
    rw [sizes, hdata i hi]
    exact blocks_zero
  refine ⟨?_, fun i => ?_⟩
  · have hsum : ∑ i ∈ Finset.range NINODES, (sizes data i + if tables (sizes data) i then 1 else 0)
        = sizes data ROOTINO := by
      rw [Finset.sum_eq_single ROOTINO]
      · rw [tables, if_neg]
        · rfl
        · rw [decide_eq_true_eq]
          omega
      · intro i _ hi
        rw [tables, hnone i hi]
        rfl
      · exact fun h => absurd (Finset.mem_range.mpr (by decide)) h
    unfold Fits
    rw [hsum, nmeta_eq]
    simp only [NDIRECT] at hblocks
    simp only [FSSIZE]
    omega
  · by_cases hi : i = ROOTINO
    · rw [hi]
      exact hroot.trans (by decide)
    · rw [hdata i hi]
      exact zero_le _

theorem good_blank :
    Good (fun _ => 0) (fun _ => []) { zeroes with img := update zeroes.img 1 superBlock } := by
  have hdinodes : dinodes (update zeroes.img 1 superBlock) = fun _ => fresh 0 := by
    refine Eq.trans (dinodes_congr fun b hb _ => update_of_ne (by omega) ..) ?_
    funext i
    unfold dinodes
    rw [show inode zeroes.img i = fresh 0 from getDinode_zero _, ite_self]
  have hplaces : places (update zeroes.img 1 superBlock)
      (dinodes (update zeroes.img 1 superBlock)) = fun _ _ => 0 := by
    funext i
    rw [hdinodes]
    exact place_fresh rfl
  refine ⟨?_, rfl, by decide, fun i hi => ?_, fun _ _ => ⟨rfl, rfl⟩,
    update_self 1 superBlock zeroes.img⟩
  · have hsizes : sizes (fun _ => []) = fun _ => 0 := funext fun _ => blocks_zero
    have htables : tables (fun _ => 0) = fun _ => false := rfl
    show Books (update zeroes.img 1 superBlock) _ _ _ _ nmeta
    rw [hplaces, hsizes, htables]
    refine ⟨⟨fun _ _ h => absurd rfl h, fun _ _ _ _ h => absurd rfl h, fun b hlo hhi => by omega⟩,
      fun _ k _ => ⟨fun h => absurd rfl h, fun h => absurd h (not_lt_zero k)⟩,
      fun _ => ⟨fun h => absurd rfl h, fun h => by cases h⟩, fun _ x hx => absurd hx (not_lt_zero _),
      fun _ => zero_le _, fun _ => zero_le _, fun b hb => update_of_ne ?_ .., ?_⟩
    · rintro rfl
      exact absurd hb (by decide)
    · simp
  · show Kept (dinodes (update zeroes.img 1 superBlock) i) _ _
    rw [hdinodes]
    exact ⟨rfl, rfl, rfl, rfl, rfl⟩

theorem wp_main {files : List Source}
    (hQ : ∀ m, Good (types 0) (contents []) m → m.freeinode = 2 →
      wp (do files.forM addFile; fixRoot; let used ← look fun m => m.freeblock; balloc used) Q E m) :
    wp (main files) Q E zeroes := by
  refine wp_write (wp_seq (wp_ialloc good_blank (by decide) (by decide)
    fun m1 h1 hfree1 => wp_ite (fun hne => absurd rfl hne) fun _ => ?_))
  have htypes : update (fun _ => (0 : Int16)) ROOTINO T_DIR = types 0 := by
    funext i
    unfold types
    by_cases hi : i = ROOTINO
    · rw [hi, update_self, if_pos rfl]
    · rw [update_of_ne hi, if_neg hi, if_neg (by omega)]
  have hcontents : update (fun _ => ([] : List UInt8)) ROOTINO (entries []) = contents [] := by
    funext i
    unfold contents
    by_cases hi : i = ROOTINO
    · rw [hi, update_self, if_pos rfl]
    · rw [update_of_ne hi, if_neg hi, getElem?_nil]
      exact (ite_self _).symm
  have hfree : ROOTINO < m1.freeinode := by
    rw [hfree1]
    decide
  -- the two entries need one block
  have hsmall : ∀ p : List UInt8, p.length ≤ 32 → Fitting (update (fun _ => []) ROOTINO p) := by
    intro p hp
    refine fitting_of_root (fun i hi => update_of_ne hi ..) ?_
    rw [update_self]
    exact hp.trans (by decide)
  refine wp_seq (wp_iappend h1 (by decide) hfree (.inl (hsmall _ ?_)) fun m2 h2 hfree2 => ?_)
  · rw [nil_append, length_dirent]
    decide
  refine wp_seq (wp_iappend h2 (by decide) (hfree2 ▸ hfree) (.inl ?_) fun m3 h3 hfree3 => ?_)
  · rw [update_idem, update_self]
    refine hsmall _ ?_
    rw [length_append, nil_append, length_dirent, length_dirent]
    decide
  rw [update_idem, update_self, nil_append] at h3
  refine hQ m3 ?_ ?_
  · rw [← htypes, ← hcontents]
    exact h3
  · rw [hfree3, hfree2, hfree1]
    rfl

end Files

end Mkfs
end Xv6
