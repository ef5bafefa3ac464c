/-
  Xv6.Fs.Bmap

  What `bmap` does to an inode.
-/

import Xv6.Fs.Update

namespace Xv6.Fs

open Function Finset Wp

variable {s s' : Fs} {cnt : ISlot → Nat} {ip : ISlot} {k b : Nat}

section Places

variable {disk disk' : Nat → Block} {dip : Dinode}

theorem place_setAddr (hk : k < NDIRECT) (hb : b < 2 ^ 32)
    (hdisk : dip.addr NDIRECT ≠ 0 → disk' (dip.addr NDIRECT) = disk (dip.addr NDIRECT)) :
    place disk' (dip.setAddr k b) = update (place disk dip) k b := by
  have htable : (dip.setAddr k b).addr NDIRECT = dip.addr NDIRECT :=
    dip.addr_setAddr_of_ne b (by omega)
  have hrest : place disk' dip = place disk dip := place_congr hdisk
  funext x
  by_cases hx : x = k
  · subst hx
    rw [update_self, place_direct hk, dip.addr_setAddr_self (by omega) hb]
  · rw [update_of_ne hx, ← hrest]
    simp only [place, listed, htable, dip.addr_setAddr_of_ne b hx]

theorem place_setTable (hnone : dip.addr NDIRECT = 0) (hb : b < 2 ^ 32)
    (hzero : disk' b = Bytes.zero) :
    place disk' (dip.setAddr NDIRECT b) = update (place disk dip) MAXFILE b := by
  have htable : (dip.setAddr NDIRECT b).addr NDIRECT = b := dip.addr_setAddr_self (by omega) hb
  funext x
  by_cases hx : x = MAXFILE
  · rw [hx, update_self, place_indirect, htable]
  · rw [update_of_ne hx]
    by_cases hdirect : x < NDIRECT
    · rw [place_direct hdirect, place_direct hdirect, dip.addr_setAddr_of_ne b (by omega)]
    · by_cases hlisted : x < MAXFILE
      · rw [place_listed (by omega) hlisted, place_listed (by omega) hlisted, listed, listed, htable,
          hzero, if_pos hnone]
        simp [word]
      · rw [place_beyond (by omega), place_beyond (by omega)]

theorem place_setWord {j : Nat} (hsome : dip.addr NDIRECT ≠ 0) (hj : j < NINDIRECT)
    (hb : b < 2 ^ 32) (hdisk : disk' (dip.addr NDIRECT) = setWord (disk (dip.addr NDIRECT)) j b) :
    place disk' dip = update (place disk dip) (NDIRECT + j) b := by
  funext x
  by_cases hx : x = NDIRECT + j
  · rw [hx, update_self, place_listed (by omega) (Nat.add_lt_add_left hj NDIRECT), listed,
      if_neg hsome, hdisk, Nat.add_sub_cancel_left, word_setWord_self _ hj hb]
  · rw [update_of_ne hx]
    by_cases hlisted : NDIRECT ≤ x ∧ x < MAXFILE
    · have hother : x - NDIRECT ≠ j := by
        have := hlisted.1
        omega
      rw [place_listed hlisted.1 hlisted.2, place_listed hlisted.1 hlisted.2, listed, listed,
        if_neg hsome, if_neg hsome, hdisk, word_setWord_of_ne _ _ hother]
    · unfold place
      by_cases hdirect : x < NDIRECT
      · rw [if_pos hdirect, if_pos hdirect]
      · have hlast : ¬ x < MAXFILE := fun hlt => hlisted ⟨by omega, hlt⟩
        rw [if_neg hdirect, if_neg hdirect, if_neg hlast, if_neg hlast]

end Places

/-! ## A block nobody had -/

structure Fresh (s : Fs) (b : Nat) : Prop where
  lt : b < s.sb.size
  data : s.sb.datastart ≤ b
  unused : ¬ Used s.node b
  bit : s.bitOf b = false

section Alloc

variable {d : Option ISlot} (h : s.Inv cnt d)

include h

theorem Inv.fresh (hb : b < s.sb.size) (hbit : s.bitOf b = false) : s.Fresh b := by
  obtain ⟨hdata, hunused⟩ := h.bits.fresh hb hbit
  exact ⟨hb, hdata, hunused, hbit⟩

variable (hf : s.Fresh b)
variable {m : Nat}

include hf

theorem Inv.fresh_pos : b ≠ 0 := by
  have := h.layout.super
  have := hf.data
  omega

theorem Inv.fresh_lt : b < 2 ^ 32 := hf.lt.trans h.layout.size_lt

theorem Inv.alloc_used {x : Nat} (hne : (s.node m).block x ≠ 0) :
    (s.alloc b).disk ((s.node m).block x) = s.disk ((s.node m).block x) := by
  refine alloc_disk_of_ne (fun heq => hf.unused ⟨heq ▸ hne, m, x, heq⟩) ?_
  have hlo := (h.own.range hne).1
  have hhi := (h.layout.bitmap b hf.lt).2
  omega

omit h in
theorem Fresh.alloc_meta {c : Nat} (hc : c < s.sb.datastart)
    (hne : c ≠ s.sb.bblock b) : (s.alloc b).disk c = s.disk c := by
  have := hf.data
  exact alloc_disk_of_ne (by omega) hne

theorem Inv.alloc_dinodeAt (hm : m < s.sb.ninodes) : (s.alloc b).dinodeAt m = s.dinodeAt m := by
  have hmeta := hf.alloc_meta (h.layout.inodes m hm).2 (h.layout.apart m hm b hf.lt)
  unfold dinodeAt
  rw [alloc_sb, hmeta]

theorem Inv.alloc_super : getSuper ((s.alloc b).disk 1) = s.sb := by
  have hb := (h.layout.bitmap b hf.lt).1
  rw [hf.alloc_meta h.layout.super (by omega), h.super]

theorem Inv.alloc_node : (s.alloc b).node = s.node := by
  refine node_congr rfl (fun m hm => ?_) fun m hne => h.alloc_used hf hne
  exact cur_congr (fun _ => Iff.rfl) (fun _ _ => rfl) (h.alloc_dinodeAt hf hm)

theorem Inv.alloc_slots : (s.alloc b).Slots cnt d := by
  refine { h.slots with sync := fun j hj hv hd => ?_ }
  rw [alloc_inode, h.alloc_dinodeAt hf (h.slots.inum j hj hv)]
  exact h.slots.sync j hj hv hd

theorem Inv.alloc_overlap : (s.alloc b).overlap = false := by
  have hnot : ¬ s.inUse b = true := by
    rw [inUse_iff (h.fresh_pos hf)]
    rintro (hlt | hused)
    · exact absurd hf.data (by omega)
    · exact hf.unused hused
  rw [Fs.alloc_overlap, h.overlap, Bool.false_or]
  exact eq_false_of_ne_true hnot

theorem Inv.alloc_bits : (s.alloc b).Bits fun x => Used s.node x ∨ x = b :=
  h.bits.alloc h.layout hf.data

end Alloc

/-! ## Attaching it -/

structure Attach (s s' : Fs) (ip : ISlot) (k b : Nat) : Prop where
  sb : s'.sb = s.sb
  isSome : s'.op.isSome = s.op.isSome
  ops : s'.ops = s.ops
  inum : ∀ j, (s'.inode j).inum = (s.inode j).inum
  valid : ∀ j, (s'.inode j).valid = (s.inode j).valid
  node : s'.node = update s.node (s.inode ip).inum
    ((s.node (s.inode ip).inum).attach k b)
  pos : b ≠ 0
  data : ∀ m x, x < MAXFILE → (s.node m).block x ≠ 0 →
    s'.disk ((s.node m).block x) = s.disk ((s.node m).block x)
  dinode : ∀ m < s.sb.ninodes, s'.dinodeAt m = s.dinodeAt m
  free : s'.freeBlocks + 1 = s.freeBlocks
  more : s.lg ⊆ s'.lg
  log : ∀ c ∈ s'.lg, c ∈ s.lg ∨ (∃ x < s.sb.size, s.sb.bblock x = c) ∨ c = b ∨
    (NDIRECT ≤ k ∧ c ≠ 0 ∧ c = (s.node (s.inode ip).inum).block MAXFILE)

theorem Inv.attach {d : Option ISlot} (h : s.Inv cnt d) (hf : s.Fresh b)
    (hk : (s.node (s.inode ip).inum).block k = 0) (ha : Attach s s' ip k b)
    (hslots : s'.Slots cnt d) (hsuper : getSuper (s'.disk 1) = s.sb)
    (hbits : s'.Bits fun x => Used s.node x ∨ x = b) (hover : s'.overlap = false) :
    s'.Inv cnt d := by
  refine ⟨⟨?_, ?_, hslots, ?_, ?_, hover⟩, ?_⟩
  · rw [ha.sb]
    exact h.layout
  · rw [hsuper, ha.sb]
  · rw [ha.sb, ha.node]
    exact h.own.attach hf.unused hf.data hf.lt
  · rw [ha.node]
    exact hbits.congr fun x => (used_attach hk ha.pos).symm
  · rw [ha.node]
    exact h.full.attach ha.pos

theorem freeBlocks_congr (hsb : s'.sb = s.sb) (hbit : ∀ x < s.sb.size, s'.bitOf x = s.bitOf x) :
    s'.freeBlocks = s.freeBlocks := by
  unfold freeBlocks
  rw [hsb, List.filter_congr fun x hx => by rw [hbit x (List.mem_range.mp hx)]]

theorem freeBlocks_eq_zero (hall : ∀ x < s.sb.size, s.bitOf x = true) : s.freeBlocks = 0 := by
  unfold freeBlocks
  rw [List.length_eq_zero_iff, List.filter_eq_nil_iff]
  intro x hx
  simp [hall x (List.mem_range.mp hx)]

section Addr

variable {a : Nat} (h : s.Inv cnt (some ip)) (hip : 0 < cnt ip) (hv : (s.inode ip).valid = true)
variable {Q : Nat → Fs → Prop} {E : Halt → Fs → Prop}

include h hip hv

theorem Inv.block_eq (x : Nat) :
    (s.node (s.inode ip).inum).block x = place s.disk (s.inode ip).copy x := by
  rw [h.slots.node_of_valid hip hv]

theorem wp_bmapAddr (hop : s.op.isSome) (ha : a < NDIRECT ∧ k = a ∨ a = NDIRECT ∧ k = MAXFILE)
    (hk : (s.node (s.inode ip).inum).block k = 0)
    (hQ : ∀ b s', s'.Inv cnt (some ip) → Attach s s' ip k b → Q b s')
    (hE : s.freeBlocks = 0 → E (.panic "balloc: out of blocks") s) :
    wp (bmapAddr ip a) Q E s := by
  have haddr : (s.inode ip).copy.addr a = 0 := by
    rw [h.block_eq hip hv] at hk
    rcases ha with ⟨hlt, rfl⟩ | ⟨rfl, rfl⟩
    · rw [← hk, place_direct hlt]
    · rw [← hk, place_indirect]
  simp only [bmapAddr, copyOf, onCopy, wp_bind, wp_look]
  rw [if_pos haddr]
  simp only [wp_bind, wp_change, wp_pure]
  refine wp_balloc hop (fun b hb hbit _ => ?_) fun hall => hE (freeBlocks_eq_zero hall)
  have hf := h.fresh hb hbit
  have ht := h.slots.typed ip hip hv
  have hslots : ((s.alloc b).setCopy ip fun dip => dip.setAddr a b).Slots cnt (some ip) :=
    (h.alloc_slots hf).setCopy fun _ => ht
  have hempty : place s.disk (s.inode ip).copy k = 0 := by
    rw [← h.block_eq hip hv, hk]
  -- the new block is at place `k`, all others are where they were
  have hplace : place (s.alloc b).disk ((s.inode ip).copy.setAddr a b)
      = update (place s.disk (s.inode ip).copy) k b := by
    rcases ha with ⟨hlt, rfl⟩ | ⟨rfl, rfl⟩
    · refine place_setAddr hlt (h.fresh_lt hf) fun hne => ?_
      have hblock := h.block_eq hip hv MAXFILE
      rw [place_indirect] at hblock
      rw [← hblock] at hne ⊢
      exact h.alloc_used hf hne
    · rw [place_indirect] at hempty
      exact place_setTable hempty (h.fresh_lt hf) alloc_disk_self
  have hnode : ((s.alloc b).setCopy ip fun dip => dip.setAddr a b).node
      = update s.node (s.inode ip).inum ((s.node (s.inode ip).inum).attach k b) := by
    funext m
    by_cases hm : m = (s.inode ip).inum
    · rw [hm, update_self, h.slots.node_of_valid hip hv]
      refine (hslots.node_setCopy_self hip hv).trans ?_
      show Node.mk _ _ _ _ _ (place (s.alloc b).disk ((s.inode ip).copy.setAddr a b)) = _
      rw [hplace]
      rfl
    · rw [update_of_ne hm, node_setCopy_of_ne (s := s.alloc b) hm, h.alloc_node hf]
  have hattach : Attach s ((s.alloc b).setCopy ip fun dip => dip.setAddr a b) ip k b := by
    refine ⟨rfl, alloc_isSome, rfl, fun j => setCopy_inum, fun j => setCopy_valid, hnode,
      h.fresh_pos hf, fun m x _ hne => h.alloc_used hf hne, fun m hm => h.alloc_dinodeAt hf hm,
      freeBlocks_alloc h.layout hb hf.data hbit, fun c hc => ?_, fun c hc => ?_⟩
    · show c ∈ (s.alloc b).lg
      rw [lg_alloc hop]
      exact mem_insert_of_mem (mem_insert_of_mem hc)
    · have hlg : c ∈ (s.alloc b).lg := hc
      rw [lg_alloc hop, mem_insert, mem_insert] at hlg
      rcases hlg with rfl | rfl | hlg
      · exact .inr (.inr (.inl rfl))
      · exact .inr (.inl ⟨b, hb, rfl⟩)
      · exact .inl hlg
  refine hQ b _ (h.attach hf hk hattach hslots (h.alloc_super hf) ?_ ?_) hattach
  · exact h.alloc_bits hf
  · exact h.alloc_overlap hf

/-- Block `b` is allocated and entered at place `j` of the indirect block `t`. -/
abbrev list (s : Fs) (t j b : Nat) : Fs := (s.alloc b).put t (setWord (s.disk t) j b)

theorem wp_bmapListed {j t : Nat}
    (hop : s.op.isSome) (hj : j < NINDIRECT) (ht : (s.node (s.inode ip).inum).block MAXFILE = t)
    (ht0 : t ≠ 0) (hk : (s.node (s.inode ip).inum).block (NDIRECT + j) = 0)
    (hQ : ∀ b s', s'.Inv cnt (some ip) → Attach s s' ip (NDIRECT + j) b → Q b s')
    (hE : s.freeBlocks = 0 → E (.panic "balloc: out of blocks") s) :
    wp (bmapListed t j) Q E s := by
  have hplace : NDIRECT + j < MAXFILE := Nat.add_lt_add_left hj NDIRECT
  have htable := ht
  rw [h.block_eq hip hv, place_indirect] at htable
  have hword := hk
  rw [h.block_eq hip hv, place_listed (by omega) hplace, listed, htable, if_neg ht0,
    Nat.add_sub_cancel_left] at hword
  simp only [bmapListed, bread, wp_bind, wp_look]
  rw [if_pos hword]
  simp only [wp_bind, wp_pure]
  refine wp_balloc hop (fun b hb hbit _ => ?_) fun hall => hE (freeBlocks_eq_zero hall)
  refine wp_logWrite (by simpa using hop) ?_
  have hf := h.fresh hb hbit
  have hne : (s.node (s.inode ip).inum).block MAXFILE ≠ 0 := by
    rw [ht]
    exact ht0
  have hrange := h.own.range hne
  rw [ht] at hrange
  have hbit_ne : ∀ x < s.sb.size, s.sb.bblock x ≠ t := by
    intro x hx
    have := (h.layout.bitmap x hx).2
    omega
  have hdinode : ∀ m < s.sb.ninodes,
      (s.list t j b).dinodeAt m = s.dinodeAt m := by
    intro m hm
    have hiblock := (h.layout.inodes m hm).2
    rw [← h.alloc_dinodeAt hf hm]
    unfold dinodeAt
    rw [put_sb, put_disk_of_ne (by rw [alloc_sb]; omega)]
  have hslots : (s.list t j b).Slots cnt (some ip) := by
    refine { h.slots with sync := fun j' hj' hv' hd' => ?_ }
    rw [put_inode, alloc_inode, hdinode _ (h.slots.inum j' hj' hv')]
    exact h.slots.sync j' hj' hv' hd'
  have hcur : ∀ m < s.sb.ninodes, (s.list t j b).cur m = s.cur m :=
    fun m hm => cur_congr (fun _ => Iff.rfl) (fun _ _ => rfl) (hdinode m hm)
  -- blocks of inodes other than the indirect block are as they were
  have hdata : ∀ m x, ¬ (m = (s.inode ip).inum ∧ x = MAXFILE) → (s.node m).block x ≠ 0 →
      (s.list t j b).disk ((s.node m).block x)
        = s.disk ((s.node m).block x) := by
    intro m x hplace hmx
    have hother : (s.node m).block x ≠ t := fun heq => hplace (h.own.inj hmx (heq.trans ht.symm))
    rw [put_disk_of_ne hother, h.alloc_used hf hmx]
  have hnode : (s.list t j b).node
      = update s.node (s.inode ip).inum
        ((s.node (s.inode ip).inum).attach (NDIRECT + j) b) := by
    funext m
    by_cases hm : m = (s.inode ip).inum
    · have hplace : place (s.list t j b).disk (s.inode ip).copy
          = update (place s.disk (s.inode ip).copy) (NDIRECT + j) b := by
        refine place_setWord (by rw [htable]; exact ht0) hj (h.fresh_lt hf) ?_
        rw [htable, put_disk_self]
      rw [hm, update_self, h.slots.node_of_valid hip hv]
      refine (hslots.node_of_valid hip hv).trans ?_
      show Node.mk _ _ _ _ _ (place _ (s.inode ip).copy) = _
      rw [hplace]
      rfl
    · rw [update_of_ne hm]
      exact node_congr_at rfl (hcur m) (hdata m MAXFILE fun heq => hm heq.1)
  have hbitOf : ∀ x < s.sb.size,
      (s.list t j b).bitOf x = (s.alloc b).bitOf x :=
    fun x hx => bitOf_put_of_ne (hbit_ne x hx)
  have hfree : (s.list t j b).freeBlocks = (s.alloc b).freeBlocks :=
    freeBlocks_congr rfl hbitOf
  have hlg : (s.list t j b).lg
      = insert t (insert b (insert (s.sb.bblock b) s.lg)) := by
    rw [lg_put (by simpa using hop), lg_alloc hop]
  have hattach : Attach s (s.list t j b) ip (NDIRECT + j) b := by
    refine ⟨rfl, by rw [put_isSome, alloc_isSome], rfl, fun j => rfl, fun j => rfl, hnode,
      h.fresh_pos hf, fun m x hx hmx => hdata m x (fun heq => by omega) hmx, hdinode, ?_,
      fun c hc => ?_, fun c hc => ?_⟩
    · rw [hfree]
      exact freeBlocks_alloc h.layout hb hf.data hbit
    · rw [hlg]
      exact mem_insert_of_mem (mem_insert_of_mem (mem_insert_of_mem hc))
    · rw [hlg, mem_insert, mem_insert, mem_insert] at hc
      rcases hc with rfl | rfl | rfl | hc
      · exact .inr (.inr (.inr ⟨by omega, ht0, ht.symm⟩))
      · exact .inr (.inr (.inl rfl))
      · exact .inr (.inl ⟨b, hb, rfl⟩)
      · exact .inl hc
  refine hQ b _ (h.attach hf hk hattach hslots ?_ ?_ (h.alloc_overlap hf)) hattach
  · rw [put_disk_of_ne (by have := h.layout.super; omega), h.alloc_super hf]
  · exact (h.alloc_bits hf).put hbit_ne

end Addr

end Xv6.Fs
