/-
  Xv6.Fs.ReadWrite

  `writei` and `readi` on the bytes of an inode.
-/

import Xv6.Fs.Content

namespace Xv6

open Function Finset Wp Bytes

variable {E : Halt → Fs → Prop} {fuel : Nat}

namespace Fs

variable {s s' : Fs} {cnt : ISlot → Nat} {ip : ISlot} {i k off n : Nat} {src : List UInt8}
variable {d : Option ISlot} {Q : Unit → Fs → Prop} {s1 : Fs} {dev : Int}

theorem Inv.putData {m : Nat} (h : s.Inv cnt d) (hk : k < MAXFILE)
    (hne : (s.node m).block k ≠ 0) (data : Block) :
    (s.put ((s.node m).block k) data).Inv cnt d ∧ (s.put ((s.node m).block k) data).node = s.node ∧
      ∀ i < s.sb.ninodes, (s.put ((s.node m).block k) data).dinodeAt i = s.dinodeAt i := by
  have hlo := (h.own.range hne).1
  have hdinode : ∀ i < s.sb.ninodes,
      (s.put ((s.node m).block k) data).dinodeAt i = s.dinodeAt i := by
    intro i hi
    unfold dinodeAt
    rw [put_sb, put_disk_of_ne (h.iblock_ne hi hne).symm]
  have hnode : (s.put ((s.node m).block k) data).node = s.node := by
    refine node_congr rfl (fun i hi => ?_) fun i htable => ?_
    · exact cur_congr (fun _ => Iff.rfl) (fun _ _ => rfl) (hdinode i hi)
    · -- an indirect block is not a data block
      refine put_disk_of_ne fun heq => ?_
      have := (h.own.inj htable heq).2
      omega
  have hbits : ∀ b < s.sb.size, s.sb.bblock b ≠ (s.node m).block k := by
    intro b hb
    have := (h.layout.bitmap b hb).2
    omega
  refine ⟨⟨⟨h.layout, ?_, ?_, ?_, ?_, h.overlap⟩, ?_⟩, hnode, hdinode⟩
  · have := h.layout.super
    rw [put_disk_of_ne (by omega), h.super, put_sb]
  · refine { h.slots with sync := fun j hj hv hd => ?_ }
    rw [put_inode, hdinode _ (h.slots.inum j hj hv)]
    exact h.slots.sync j hj hv hd
  · rw [hnode]
    exact h.own
  · rw [hnode]
    exact h.bits.put hbits
  · rw [hnode]
    exact h.full

theorem Inv.wrotePut (h : s.Inv cnt d) (hop : s.op.isSome) (hk : off / BSIZE = k)
    (hmax : k < MAXFILE) (hne : (s.node i).block k ≠ 0) (hlen : off % BSIZE + src.length ≤ BSIZE) :
    Wrote s (s.put ((s.node i).block k) (blit (s.disk ((s.node i).block k)) (off % BSIZE) src))
    i ∅ {k} off src := by
  obtain ⟨-, hnode, hdinode⟩ := h.putData hmax hne
    (blit (s.disk ((s.node i).block k)) (off % BSIZE) src)
  -- all bytes of the piece are in this block
  have hplace : ∀ t < src.length, (off + t) / BSIZE = k ∧ (off + t) % BSIZE = off % BSIZE + t := by
    intro t ht
    simp only [BSIZE] at *
    omega
  have hbits : ∀ b < s.sb.size, s.sb.bblock b ≠ (s.node i).block k := by
    intro b hb
    have hhi := (h.layout.bitmap b hb).2
    have hlo := (h.own.range hne).1
    omega
  exact {
    sb := rfl
    isSome := put_isSome
    ops := rfl
    inum := fun _ => rfl
    valid := fun _ => rfl
    others := fun m _ => by rw [hnode]
    self := by rw [hnode]
    keep := fun x _ => by rw [hnode]
    only := fun x _ => by rw [hnode]
    mapped := by simp
    cover := fun t ht => by
      rw [(hplace t ht).1, hnode]
      exact ⟨hmax, hne⟩
    written := fun t ht => by
      obtain ⟨hdiv, hmod⟩ := hplace t ht
      rw [byteAt, hnode, hdiv, hmod, put_disk_self, get_blit _ _ (by omega),
        if_pos ⟨by omega, by omega⟩, Nat.add_sub_cancel_left, List.getD_eq_getElem _ _ ht]
    bytes := fun m x hx hmx hout => by
      rw [byteAt, byteAt, hnode]
      by_cases hsame : (s.node m).block (x / BSIZE) = (s.node i).block k
      · obtain ⟨rfl, hxk⟩ := h.own.inj hmx hsame
        have hlt : x % BSIZE < BSIZE := Nat.mod_lt _ (by decide)
        have hoff : ¬ (off % BSIZE ≤ x % BSIZE ∧ x % BSIZE < off % BSIZE + src.length) := by
          rintro ⟨hlo, hhi⟩
          refine hout ⟨rfl, ?_⟩
          simp only [BSIZE] at *
          omega
        rw [hxk, put_disk_self, get_blit _ _ hlt, if_neg hoff]
      · rw [put_disk_of_ne hsame]
    dinode := hdinode
    still := fun _ => rfl
    free := by
      rw [show s.missing i ∅ = ∅ from rfl, card_empty, Nat.add_zero]
      exact freeBlocks_congr rfl fun b hb => bitOf_put_of_ne (hbits b hb)
    more := by
      rw [lg_put hop]
      exact subset_insert ..
    logged := fun t ht => by
      rw [(hplace t ht).1, hnode, lg_put hop]
      exact mem_insert_self ..
    log := fun c hc => by
      rw [lg_put hop, mem_insert] at hc
      rcases hc with rfl | hc
      · exact .inr (.inl ⟨hne, k, mem_singleton_self k, by rw [hnode]⟩)
      · exact .inl hc }

/-! ## The loop of `writei` -/

def spans (off n : Nat) : Finset Nat :=
  (Finset.range MAXFILE).filter fun k => 0 < n ∧ off < (k + 1) * BSIZE ∧ k * BSIZE < off + n

theorem mem_spans : k ∈ spans off n ↔
    k < MAXFILE ∧ 0 < n ∧ off < (k + 1) * BSIZE ∧ k * BSIZE < off + n := by
  rw [spans, mem_filter, mem_range]

theorem spans_zero : spans off 0 = ∅ := by
  ext k
  simp [mem_spans]

theorem spans_step (hn : 0 < n) (hmax : off + n ≤ MAXFILE * BSIZE) : spans off n = {off / BSIZE}
    ∪ spans (off + min n (BSIZE - off % BSIZE)) (n - min n (BSIZE - off % BSIZE)) := by
  ext k
  rw [mem_union, mem_singleton, mem_spans, mem_spans]
  simp only [MAXFILE, NDIRECT, NINDIRECT, BSIZE] at *
  omega

theorem wp_writeLoop (h : s.Inv cnt (some ip)) (hip : 0 < cnt ip) (hv : (s.inode ip).valid = true)
    (hop : s.op.isSome) (hfuel : src.length ≤ fuel) (hmax : off + src.length ≤ MAXFILE * BSIZE)
    (hQ : ∀ s', s'.Inv cnt (some ip) →
      Wrote s s' (s.inode ip).inum (places (spans off src.length)) (spans off src.length) off src →
      Q () s')
    (hE : s.freeBlocks < (s.missing (s.inode ip).inum (places (spans off src.length))).card →
      ∀ s', s'.overlap = false → E (.panic "balloc: out of blocks") s') :
    wp (writeLoop ip fuel off src) Q E s := by
  induction fuel generalizing s off src with
  | zero =>
    obtain rfl : src = [] := List.length_eq_zero_iff.mp (by omega)
    refine hQ s h ?_
    rw [List.length_nil, spans_zero]
    exact Wrote.refl
  | succ fuel ih =>
    rw [writeLoop]
    by_cases hnil : src = []
    · subst hnil
      rw [if_pos rfl]
      refine hQ s h ?_
      rw [List.length_nil, spans_zero]
      exact Wrote.refl
    rw [if_neg hnil]
    have hpos : 0 < src.length := List.length_pos_iff.mpr hnil
    have hstep := spans_step hpos hmax
    have hlt : off / BSIZE < MAXFILE := by
      simp only [MAXFILE, NDIRECT, NINDIRECT, BSIZE] at *
      omega
    have hmod : off % BSIZE < BSIZE := Nat.mod_lt _ (by decide)
    obtain ⟨m, hm⟩ : ∃ m, m = min src.length (BSIZE - off % BSIZE) := ⟨_, rfl⟩
    rw [← hm] at hstep
    have hlen : (src.take m).length = m := by
      rw [List.length_take]
      omega
    have hdrop : (src.drop m).length = src.length - m := List.length_drop ..
    simp only [bread, wp_bind, wp_look]
    refine wp_bmap h hip hv off hop hlt (fun b s1 hinv1 hw1 hb => ?_) fun hfree => hE ?_
    · rw [← hb, ← hm]
      have hne1 : (s1.node (s.inode ip).inum).block (off / BSIZE) ≠ 0 :=
        hw1.mapped _ (mem_places_singleton.mpr (.inl rfl))
      refine wp_logWrite (by rw [hw1.isSome]; exact hop) ?_
      obtain ⟨hinv2, -, -⟩ := hinv1.putData hlt hne1
        (blit (s1.disk ((s1.node (s.inode ip).inum).block (off / BSIZE))) (off % BSIZE)
          (src.take m))
      have hput : Wrote s1 _ (s.inode ip).inum ∅ {off / BSIZE} off (src.take m) :=
        hinv1.wrotePut (by rw [hw1.isSome]; exact hop) rfl hlt hne1 (by rw [hlen]; omega)
      have hw2 := hw1.trans hput
      rw [union_empty, union_idempotent, List.nil_append] at hw2
      refine ih hinv2 (by rw [hw2.valid]; exact hv) (by rw [hw2.isSome]; exact hop)
        (by omega) (by omega) (fun s' hinv' hw' => hQ s' hinv' ?_) fun hfree => hE ?_
      · rw [hw2.inum, hdrop] at hw'
        have hw := hw2.trans (by rw [hlen]; exact hw')
        rw [List.take_append_drop, ← places_union, ← hstep] at hw
        exact hw
      · rw [hw2.inum, hdrop] at hfree
        rw [hstep, places_union, hw2.missing_union]
        have := hw2.free
        omega
    · refine lt_of_lt_of_le hfree (missing_mono ?_)
      rw [hstep, places_union]
      exact subset_union_left

theorem getElem?_bytes (s : Fs) (i x : Nat) :
    (s.ino i).bytes[x]? = if x < (s.node i).size then some (s.byteAt i x) else none := by
  rw [ino, List.getElem?_map]
  by_cases hx : x < (s.node i).size
  · rw [List.getElem?_range hx, if_pos hx]
    rfl
  · rw [List.getElem?_eq_none (by rw [List.length_range]; omega), if_neg hx]
    rfl

theorem Full.byte_mapped (h : Full s.node) {x : Nat} (hx : x < (s.node i).size) :
    x / BSIZE < MAXFILE ∧ (s.node i).block (x / BSIZE) ≠ 0 := by
  have hsmall := h.small i
  constructor
  · simp only [MAXFILE, NDIRECT, NINDIRECT, BSIZE] at hsmall ⊢
    omega
  · exact h.mapped i _ (lt_of_le_of_lt (Nat.div_mul_le_self x BSIZE) hx)

theorem Wrote.ino {P K : Finset Nat}
    (hw : Wrote s s1 i P K off src) (hfull : Full s.node) (hoff : off ≤ (s.node i).size)
    (hdisk : s'.disk = s1.disk) (hothers : ∀ m, m ≠ i → s'.node m = s1.node m)
    (hself : s'.node i = { s1.node i with size := max (s.node i).size (off + src.length) }) :
    s'.ino = update s.ino i { s.ino i with bytes := splice (s.ino i).bytes off src } := by
  have hblock : ∀ m, (s'.node m).block = (s1.node m).block := by
    intro m
    by_cases hm : m = i
    · rw [hm, hself]
    · rw [hothers m hm]
  have hbyte : s'.byteAt = s1.byteAt := by
    funext m x
    rw [byteAt, byteAt, hblock, hdisk]
  obtain ⟨htype, hmajor, hminor, hnlink, -⟩ := Node.of_bare hw.self
  funext m
  by_cases hm : m = i
  · subst hm
    rw [update_self]
    ext1
    case bytes =>
      refine List.ext_getElem? fun x => ?_
      rw [getElem?_splice (by rw [length_bytes]; exact hoff), getElem?_bytes, getElem?_bytes, hbyte,
        hself]
      show (if x < max (s.node m).size (off + src.length) then _ else _) = _
      by_cases hx : off ≤ x ∧ x < off + src.length
      · have hw' := hw.written (x - off) (by omega)
        rw [Nat.add_sub_cancel' hx.1] at hw'
        rw [if_pos (by omega), if_pos hx, hw', List.getElem?_eq_getElem]
      · rw [if_neg hx]
        by_cases hsize : x < (s.node m).size
        · obtain ⟨hmax, hne⟩ := Full.byte_mapped hfull hsize
          rw [if_pos (by omega), if_pos hsize, hw.bytes m x hmax hne fun hin => hx hin.2]
        · rw [if_neg (by omega), if_neg hsize]
    all_goals
      simp only [Fs.ino, hself, htype, hmajor, hminor, hnlink]
  · rw [update_of_ne hm]
    have hnode : s'.node m = s.node m := (hothers m hm).trans (hw.others m hm)
    ext1
    case bytes =>
      refine List.ext_getElem? fun x => ?_
      rw [getElem?_bytes, getElem?_bytes, hnode, hbyte]
      by_cases hsize : x < (s.node m).size
      · obtain ⟨hmax, hne⟩ := Full.byte_mapped hfull hsize
        rw [if_pos hsize, if_pos hsize, hw.bytes m x hmax hne fun hin => hm hin.1]
      · rw [if_neg hsize, if_neg hsize]
    all_goals
      simp only [Fs.ino, hnode]

/-! ## `writei` -/

structure Stored (cnt : ISlot → Nat) (s s' : Fs) (ip : ISlot) (off : Nat) (src : List UInt8) :
    Prop where
  inv : s'.Inv cnt none
  sb : s'.sb = s.sb
  isSome : s'.op.isSome = s.op.isSome
  ops : s'.ops = s.ops
  inum : ∀ j, (s'.inode j).inum = (s.inode j).inum
  valid : ∀ j, (s'.inode j).valid = (s.inode j).valid
  size : (s'.node (s.inode ip).inum).size = max (s.node (s.inode ip).inum).size (off + src.length)
  others : ∀ m, m ≠ (s.inode ip).inum → s'.node m = s.node m
  keep : ∀ x, (s.node (s.inode ip).inum).block x ≠ 0 →
    (s'.node (s.inode ip).inum).block x = (s.node (s.inode ip).inum).block x
  only : ∀ x, x ∉ places (spans off src.length) →
    (s'.node (s.inode ip).inum).block x = (s.node (s.inode ip).inum).block x
  mapped : ∀ x ∈ places (spans off src.length), (s'.node (s.inode ip).inum).block x ≠ 0
  free : s'.freeBlocks + (s.missing (s.inode ip).inum (places (spans off src.length))).card
    = s.freeBlocks
  ino : s'.ino = update s.ino (s.inode ip).inum
    { s.ino (s.inode ip).inum with bytes := splice (s.ino (s.inode ip).inum).bytes off src }
  logged : ∀ t < src.length, (s'.node (s.inode ip).inum).block ((off + t) / BSIZE) ∈ s'.lg
  log : ∀ c ∈ s'.lg, c ∈ s.lg ∨
    (∃ k ∈ spans off src.length, c = (s'.node (s.inode ip).inum).block k) ∨
    (∃ k ∈ spans off src.length, (s.node (s.inode ip).inum).block k = 0 ∧
      ((∃ x < s.sb.size, s.sb.bblock x = c) ∨
        (NDIRECT ≤ k ∧ c = (s'.node (s.inode ip).inum).block MAXFILE))) ∨
    ((s.node (s.inode ip).inum).size < off + src.length ∧ c = s.sb.iblock (s.inode ip).inum)

def setSize (s : Fs) (ip : ISlot) (N : Nat) : Fs :=
  s.setCopy ip fun d => { d with size := UInt32.ofNat N }

theorem Inv.setSize {N : Nat} (h : s.Inv cnt (some ip)) (hip : 0 < cnt ip)
    (hv : (s.inode ip).valid = true) (hN : N ≤ MAXFILE * BSIZE)
    (hmapped : ∀ k, k * BSIZE < N → (s.node (s.inode ip).inum).block k ≠ 0) :
    (s.setSize ip N).Inv cnt (some ip) ∧
      (s.setSize ip N).node (s.inode ip).inum = { s.node (s.inode ip).inum with size := N } ∧
      ∀ m, m ≠ (s.inode ip).inum → (s.setSize ip N).node m = s.node m := by
  have htoNat : (UInt32.ofNat N).toNat = N := by
    rw [UInt32.toNat_ofNat', Nat.mod_eq_of_lt]
    simp only [MAXFILE, NDIRECT, NINDIRECT, BSIZE] at hN
    omega
  have hslots : (s.setSize ip N).Slots cnt (some ip) :=
    h.slots.setCopy fun _ => h.slots.typed ip hip hv
  have hself : (s.setSize ip N).node (s.inode ip).inum
      = { s.node (s.inode ip).inum with size := N } := by
    have hnew := hslots.node_setCopy_self hip hv
    rw [htoNat] at hnew
    refine hnew.trans ?_
    rw [h.slots.node_of_valid hip hv]
    rfl
  have hothers : ∀ m, m ≠ (s.inode ip).inum → (s.setSize ip N).node m = s.node m :=
    fun m hm => node_setCopy_of_ne hm
  have hblock : ∀ m, ((s.setSize ip N).node m).block = (s.node m).block := by
    intro m
    by_cases hm : m = (s.inode ip).inum
    · rw [hm, hself]
    · rw [hothers m hm]
  refine ⟨⟨⟨h.layout, h.super, hslots, h.own.congr hblock, ?_, h.overlap⟩, ?_, ?_⟩, hself, hothers⟩
  · exact Bits.congr (s := s.setSize ip N) h.bits fun b => (used_congr hblock).symm
  · intro m
    by_cases hm : m = (s.inode ip).inum
    · rw [hm, hself]
      exact hN
    · rw [hothers m hm]
      exact h.full.small m
  · intro m k hk
    rw [hblock]
    by_cases hm : m = (s.inode ip).inum
    · rw [hm, hself] at hk
      rw [hm]
      exact hmapped k hk
    · rw [hothers m hm] at hk
      exact h.full.mapped m k hk

theorem wp_growTo (h : s.Inv cnt none)
    (hip : 0 < cnt ip) (hv : (s.inode ip).valid = true) (hop : s.op.isSome)
    (hoff : off ≤ (s.node (s.inode ip).inum).size) (hmax : off + src.length ≤ MAXFILE * BSIZE)
    (h1 : s1.Inv cnt (some ip))
    (hw : Wrote s s1 (s.inode ip).inum (places (spans off src.length)) (spans off src.length) off src)
    (hQ : ∀ s', Stored cnt s s' ip off src → Q () s') :
    wp (growTo ip src.length (off + src.length)) Q E s1 := by
  have hv1 : (s1.inode ip).valid = true := by
    rw [hw.valid]
    exact hv
  have hnode1 := h1.slots.node_of_valid hip hv1
  rw [hw.inum] at hnode1
  have hsize : (s1.inode ip).copy.size.toNat = (s.node (s.inode ip).inum).size := by
    rw [← (Node.of_bare hw.self).2.2.2.2, hnode1]
  have hlog : ∀ c ∈ s1.lg, c ∈ s.lg ∨
      (∃ k ∈ spans off src.length, c = (s1.node (s.inode ip).inum).block k) ∨
      (∃ k ∈ spans off src.length, (s.node (s.inode ip).inum).block k = 0 ∧
        ((∃ x < s.sb.size, s.sb.bblock x = c) ∨
          (NDIRECT ≤ k ∧ c = (s1.node (s.inode ip).inum).block MAXFILE))) ∨
      ((s.node (s.inode ip).inum).size < off + src.length ∧ c = s.sb.iblock (s.inode ip).inum) := by
    intro c hc
    rcases hw.log c hc with hc | ⟨-, hk⟩ | ⟨k, hk, h0, hbm | ⟨hk12, -, hct⟩⟩
    · exact .inl hc
    · exact .inr (.inl hk)
    · exact .inr (.inr (.inl ⟨k, hk, h0, .inl hbm⟩))
    · exact .inr (.inr (.inl ⟨k, hk, h0, .inr ⟨hk12, hct⟩⟩))
  simp only [growTo, copyOf, wp_bind, wp_look]
  refine wp_ite (fun hgrow => ?_) fun hstay => ?_
  · rw [hsize] at hgrow
    have hbig : max (s.node (s.inode ip).inum).size (off + src.length) = off + src.length := by
      omega
    -- below the old size there was a block, above it one has been written
    have hmapped : ∀ k, k * BSIZE < off + src.length →
        (s1.node (s1.inode ip).inum).block k ≠ 0 := by
      intro k hk
      rw [hw.inum]
      by_cases hold : k * BSIZE < (s.node (s.inode ip).inum).size
      · have hne := h.full.mapped _ k hold
        rw [hw.keep k hne]
        exact hne
      · refine hw.mapped k (mem_places.mpr (.inl (mem_spans.mpr ?_)))
        simp only [MAXFILE, NDIRECT, NINDIRECT, BSIZE] at *
        omega
    obtain ⟨hinv2, hself2, hothers2⟩ := h1.setSize hip hv1 hmax hmapped
    rw [hw.inum] at hself2 hothers2
    have hdisk2 : (s1.setSize ip (off + src.length)).disk = s1.disk := rfl
    have hlg2 : (s1.setSize ip (off + src.length)).lg = s1.lg := rfl
    have hfree2 : (s1.setSize ip (off + src.length)).freeBlocks = s1.freeBlocks := rfl
    have hsb2 : (s1.setSize ip (off + src.length)).sb = s.sb := hw.sb
    have hops2 : (s1.setSize ip (off + src.length)).ops = s.ops := hw.ops
    have hop2 : (s1.setSize ip (off + src.length)).op.isSome = s.op.isSome := hw.isSome
    have hinum2 : ∀ j, ((s1.setSize ip (off + src.length)).inode j).inum = (s.inode j).inum :=
      fun j => setCopy_inum.trans (hw.inum j)
    have hvalid2 : ∀ j, ((s1.setSize ip (off + src.length)).inode j).valid = (s.inode j).valid :=
      fun j => setCopy_valid.trans (hw.valid j)
    simp only [onCopy, wp_bind, wp_change]
    show wp (iupdate ip) _ _ (s1.setSize ip (off + src.length))
    generalize s1.setSize ip (off + src.length) = s2 at *
    have hino2 := hw.ino h.full hoff hdisk2 hothers2 (by rw [hself2, hbig])
    obtain ⟨hinv3, hnode3, hino3⟩ := hinv2.store hip (by rw [hvalid2]; exact hv)
    refine wp_iupdate_store (by rw [hop2]; exact hop) (hQ _ ?_)
    refine ⟨hinv3, hsb2, ?_, hops2, hinum2, hvalid2, ?_, fun m hm => ?_, fun x hne => ?_,
      fun x hx => ?_, fun x hx => ?_, ?_, hino3.trans hino2, fun t ht => ?_, fun c hc => ?_⟩
    · rw [store_isSome, hop2]
    · rw [hnode3, hself2, hbig]
    · rw [hnode3, hothers2 m hm, hw.others m hm]
    · rw [hnode3, hself2]
      exact hw.keep x hne
    · rw [hnode3, hself2]
      exact hw.only x hx
    · rw [hnode3, hself2]
      exact hw.mapped x hx
    · rw [← hw.free, ← hfree2, hinum2, freeBlocks_congr store_sb fun b hb => bitOf_put_of_ne ?_]
      rw [hsb2] at hb ⊢
      exact (h.layout.apart _ (h.slots.inum ip hip hv) b hb).symm
    · rw [hnode3, hself2, lg_store (by rw [hop2]; exact hop), hlg2]
      exact mem_insert_of_mem (hw.logged t ht)
    · rw [hnode3, hself2]
      rw [lg_store (by rw [hop2]; exact hop), mem_insert, hinum2, hlg2, hsb2] at hc
      rcases hc with rfl | hc
      · exact .inr (.inr (.inr ⟨hgrow.2, rfl⟩))
      · exact hlog c hc
  · -- everything written was below the size, so nothing was missing
    rw [hsize] at hstay
    have hbig : max (s.node (s.inode ip).inum).size (off + src.length)
        = (s.node (s.inode ip).inum).size := by
      omega
    have hmapped : ∀ k ∈ spans off src.length, (s.node (s.inode ip).inum).block k ≠ 0 := by
      intro k hk
      obtain ⟨-, hpos, -, hhi⟩ := mem_spans.mp hk
      exact h.full.mapped _ k (by omega)
    have hmissing : s.missing (s.inode ip).inum (places (spans off src.length)) = ∅ := by
      refine filter_eq_empty_iff.mpr fun x hx => ?_
      rcases mem_places.mp hx with hx | ⟨rfl, k, hk, hk12⟩
      · exact hmapped x hx
      · exact h.dirty.table_ne hip hv hk12 (mem_spans.mp hk).1 (hmapped k hk)
    have hslots : s1.Slots cnt none := by
      refine { h1.slots with sync := fun j hj hvj hd => ?_ }
      rw [hw.still hmissing] at hvj ⊢
      rw [hw.dinode _ (h.slots.inum j hj hvj)]
      exact h.slots.sync j hj hvj hd
    have hself1 : s1.node (s.inode ip).inum = { s1.node (s.inode ip).inum with
        size := max (s.node (s.inode ip).inum).size (off + src.length) } := by
      rw [hbig, ← (Node.of_bare hw.self).2.2.2.2]
    have hino1 := hw.ino h.full hoff rfl (fun _ _ => rfl) hself1
    refine hQ s1 ⟨{ h1 with slots := hslots }, hw.sb, hw.isSome, hw.ops, hw.inum, hw.valid, ?_,
      hw.others, hw.keep, hw.only, hw.mapped, hw.free, hino1, hw.logged, hlog⟩
    rw [hbig, (Node.of_bare hw.self).2.2.2.2]

theorem Inv.copy_fields (h : s.Inv cnt none) (hip : 0 < cnt ip) (hv : (s.inode ip).valid = true) :
    (s.ino (s.inode ip).inum).type = (s.inode ip).copy.type ∧
      (s.ino (s.inode ip).inum).major = (s.inode ip).copy.major ∧
      (s.node (s.inode ip).inum).size = (s.inode ip).copy.size.toNat :=
  have hnode := h.slots.node_of_valid hip hv
  ⟨congrArg Node.type hnode, congrArg Node.major hnode, congrArg Node.size hnode⟩

/-- **`writei` stores the bytes**, or refuses; it fails only if there are not enough free blocks. -/
theorem wp_writei {Q : Int → Fs → Prop} (h : s.Inv cnt none)
    (hip : 0 < cnt ip) (hv : (s.inode ip).valid = true) (hop : s.op.isSome)
    (hdev : (s.ino (s.inode ip).inum).type = T_DEV →
      Q (if driver (s.ino (s.inode ip).inum).major then dev else -1) s)
    (hbad : (s.ino (s.inode ip).inum).type ≠ T_DEV →
      (s.node (s.inode ip).inum).size < off ∨ u32 (off + src.length) < off ∨
        MAXFILE * BSIZE < off + src.length → Q (-1) s)
    (hgood : (s.ino (s.inode ip).inum).type ≠ T_DEV → off ≤ (s.node (s.inode ip).inum).size →
      off + src.length ≤ MAXFILE * BSIZE → ∀ s', Stored cnt s s' ip off src →
      Q (src.length : Int) s')
    (hE : (s.ino (s.inode ip).inum).type ≠ T_DEV → off ≤ (s.node (s.inode ip).inum).size →
      off + src.length ≤ MAXFILE * BSIZE →
      s.freeBlocks < (s.missing (s.inode ip).inum (places (spans off src.length))).card →
      ∀ s', s'.overlap = false → E (.panic "balloc: out of blocks") s') :
    wp (writei dev ip src off) Q E s := by
  obtain ⟨htype, hmajor, hsize⟩ := h.copy_fields hip hv
  rw [htype] at hdev hbad hgood hE
  rw [hmajor] at hdev
  simp only [writei, copyOf, wp_bind, wp_look]
  refine wp_ite (fun ht => hdev ht) fun ht => wp_ite (fun hlt => ?_) fun hlt =>
    wp_ite (fun hmax => hbad ht (.inr (.inr hmax))) fun hmax => ?_
  · rw [hsize] at hbad
    exact hbad ht (hlt.imp_right .inl)
  · rw [← hsize, not_or, not_lt] at hlt
    simp only [wp_bind, wp_pure]
    refine wp_writeLoop h.dirty hip hv hop le_rfl (by omega) (fun s1 hinv1 hw => ?_)
      (hE ht hlt.1 (by omega))
    exact wp_growTo h hip hv hop hlt.1 (by omega) hinv1 hw (hgood ht hlt.1 (by omega))

/-! ## `readi` -/

theorem map_byteAt_range (hsize : off + n ≤ (s.node i).size) :
    ((List.range n).map fun t => s.byteAt i (off + t)) = ((s.ino i).bytes.drop off).take n := by
  refine List.ext_getElem? fun x => ?_
  by_cases hx : x < n
  · rw [List.getElem?_map, List.getElem?_range hx, List.getElem?_take_of_lt hx, List.getElem?_drop,
      getElem?_bytes, if_pos (by omega)]
    rfl
  · have hlen : (((s.ino i).bytes.drop off).take n).length ≤ n := List.length_take_le ..
    rw [List.getElem?_eq_none (by simpa using hx), List.getElem?_eq_none (by omega)]

theorem wp_readLoop_places {Q : List UInt8 → Fs → Prop}
    (hfuel : n ≤ fuel)
    (hplaces : ∀ x, off ≤ x → x < off + n → x / BSIZE < MAXFILE ∧
      place s.disk (s.inode ip).copy (x / BSIZE) ≠ 0)
    (hQ : Q ((List.range n).map fun t =>
      get (s.disk (place s.disk (s.inode ip).copy ((off + t) / BSIZE))) ((off + t) % BSIZE)) s) :
    wp (readLoop ip fuel off n) Q E s := by
  induction fuel generalizing off n Q with
  | zero =>
    obtain rfl : n = 0 := by omega
    exact hQ
  | succ fuel ih =>
    rw [readLoop]
    by_cases hn : n = 0
    · subst hn
      rw [if_pos rfl]
      exact hQ
    rw [if_neg hn]
    obtain ⟨hlt, hne⟩ := hplaces off le_rfl (by omega)
    have hmod : off % BSIZE < BSIZE := Nat.mod_lt _ (by decide)
    obtain ⟨m, hm⟩ : ∃ m, m = min n (BSIZE - off % BSIZE) := ⟨_, rfl⟩
    generalize hbyte : (fun x => get (s.disk (place s.disk (s.inode ip).copy (x / BSIZE)))
      (x % BSIZE)) = byte at *
    have hbyte' : ∀ x, get (s.disk (place s.disk (s.inode ip).copy (x / BSIZE))) (x % BSIZE)
        = byte x := fun x => congrFun hbyte x
    simp only [hbyte'] at hQ ih
    -- the piece in this block, and the rest
    have hpiece : slice (s.disk (place s.disk (s.inode ip).copy (off / BSIZE)))
        (off % BSIZE) m = (List.range m).map fun t => byte (off + t) := by
      refine List.map_congr_left fun t ht => ?_
      rw [List.mem_range] at ht
      have hdiv : (off + t) / BSIZE = off / BSIZE := by
        simp only [BSIZE] at *
        omega
      have hmod' : (off + t) % BSIZE = off % BSIZE + t := by
        simp only [BSIZE] at *
        omega
      rw [← hbyte', hdiv, hmod']
    have hsplit : ((List.range n).map fun t => byte (off + t))
        = ((List.range m).map fun t => byte (off + t))
          ++ (List.range (n - m)).map fun t => byte (off + m + t) := by
      rw [show n = m + (n - m) by omega, List.range_add, List.map_append, List.map_map,
        Nat.add_sub_cancel_left]
      congr 1
      refine List.map_congr_left fun t _ => ?_
      rw [Function.comp_apply, Nat.add_assoc]
    simp only [wp_bind]
    refine wp_bmap_place hlt hne ?_
    rw [← hm]
    simp only [bread, wp_look, wp_pure]
    refine ih (by omega) (fun x hlo hhi => hplaces x (by omega) (by omega)) ?_
    rw [hpiece, ← hsplit]
    exact hQ

theorem wp_readLoop {Q : List UInt8 → Fs → Prop}
    (h : s.Inv cnt none) (hip : 0 < cnt ip) (hv : (s.inode ip).valid = true) (hfuel : n ≤ fuel)
    (hsize : off + n ≤ (s.node (s.inode ip).inum).size)
    (hQ : Q ((List.range n).map fun t => s.byteAt (s.inode ip).inum (off + t)) s) :
    wp (readLoop ip fuel off n) Q E s := by
  simp only [byteAt, h.dirty.block_eq hip hv] at hQ
  refine wp_readLoop_places hfuel (fun x hlo hhi => ?_) hQ
  obtain ⟨hlt, hne⟩ := Full.byte_mapped h.full (show x < (s.node (s.inode ip).inum).size by omega)
  rw [h.dirty.block_eq hip hv] at hne
  exact ⟨hlt, hne⟩

/-- **`readi` returns the bytes** and changes nothing. -/
theorem wp_readi {Q : Int × List UInt8 → Fs → Prop}
    (h : s.Inv cnt none) (hip : 0 < cnt ip) (hv : (s.inode ip).valid = true)
    (hdev : (s.ino (s.inode ip).inum).type = T_DEV →
      Q (if driver (s.ino (s.inode ip).inum).major then dev else -1, []) s)
    (hbad : (s.ino (s.inode ip).inum).type ≠ T_DEV →
      (s.ino (s.inode ip).inum).bytes.length < off ∨ u32 (off + n) < off → Q (-1, []) s)
    (hgood : (s.ino (s.inode ip).inum).type ≠ T_DEV →
      off ≤ (s.ino (s.inode ip).inum).bytes.length → off ≤ u32 (off + n) →
      Q ((min n ((s.ino (s.inode ip).inum).bytes.length - off) : Nat),
        ((s.ino (s.inode ip).inum).bytes.drop off).take n) s) :
    wp (readi dev ip off n) Q E s := by
  obtain ⟨htype, hmajor, hsize⟩ := h.copy_fields hip hv
  rw [length_bytes] at hbad hgood
  rw [htype] at hdev hbad hgood
  rw [hmajor] at hdev
  simp only [readi, copyOf, wp_bind, wp_look]
  refine wp_ite (fun ht => hdev ht) fun ht => wp_ite (fun hlt => ?_) fun hlt => ?_
  · rw [hsize] at hbad
    exact hbad ht hlt
  · rw [← hsize, not_or, not_lt, not_lt] at hlt
    simp only [← hsize, wp_bind, wp_pure]
    have hread := hgood ht hlt.1 hlt.2
    by_cases hlong : (s.node (s.inode ip).inum).size < off + n
    · rw [if_pos hlong]
      refine wp_readLoop h hip hv le_rfl (by omega) ?_
      rw [map_byteAt_range (by omega)]
      have hall : ((s.ino (s.inode ip).inum).bytes.drop off).length
          = (s.node (s.inode ip).inum).size - off := by
        rw [List.length_drop, length_bytes]
      rw [List.take_of_length_le (by omega), min_eq_right (by omega)] at hread
      rw [List.take_of_length_le (by omega)]
      exact hread
    · rw [if_neg hlong]
      refine wp_readLoop h hip hv le_rfl (by omega) ?_
      rw [map_byteAt_range (by omega)]
      rw [min_eq_left (by omega)] at hread
      exact hread

end Fs
end Xv6
