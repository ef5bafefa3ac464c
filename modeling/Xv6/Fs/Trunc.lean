/-
  Xv6.Fs.Trunc

  Giving blocks back: `itrunc`, and what `iput` does with an inode that nobody
  needs any more.
-/

import Xv6.Fs.ReadWrite

namespace Xv6.Fs

open Function List Wp

variable {s s' s'' : Fs} {cnt : ISlot → Nat} {ip : ISlot} {i k b : Nat} {d : Option ISlot}
  {U V S S' : Nat → Prop} {E : Halt → Fs → Prop}
variable {Q : Unit → Fs → Prop}

/-! ## Freeing blocks -/

structure Frees (s s' : Fs) : Prop where
  sb : s'.sb = s.sb
  inode : s'.inode = s.inode
  isSome : s'.op.isSome = s.op.isSome
  ops : s'.ops = s.ops
  overlap : s'.overlap = s.overlap
  disk : ∀ c, (∀ x < s.sb.size, s.sb.bblock x ≠ c) → s'.disk c = s.disk c
  log : ∀ c ∈ s'.lg, c ∈ s.lg ∨ ∃ x < s.sb.size, s.sb.bblock x = c

theorem Frees.refl : Frees s s :=
  ⟨rfl, rfl, rfl, rfl, rfl, fun _ _ => rfl, fun _ hc => .inl hc⟩

theorem Frees.trans (h : Frees s s') (h' : Frees s' s'') : Frees s s'' where
  sb := h'.sb.trans h.sb
  inode := h'.inode.trans h.inode
  isSome := h'.isSome.trans h.isSome
  ops := h'.ops.trans h.ops
  overlap := h'.overlap.trans h.overlap
  disk := by
    intro c hc
    rw [h'.disk c (by rw [h.sb]; exact hc), h.disk c hc]
  log := by
    intro c hc
    rcases h'.log c hc with hc | hbm
    · exact h.log c hc
    · rw [h.sb] at hbm
      exact .inr hbm

theorem frees_free (hop : s.op.isSome) (hb : b < s.sb.size) : Frees s (s.free b) where
  sb := rfl
  inode := rfl
  isSome := free_isSome
  ops := rfl
  overlap := rfl
  disk := fun c hc => free_disk_of_ne (hc b hb).symm
  log := by
    intro c hc
    rw [lg_free hop, Finset.mem_insert] at hc
    rcases hc with rfl | hc
    · exact .inr ⟨b, hb, rfl⟩
    · exact .inl hc

theorem Core.of_frees (h : s.Core cnt d U) (hf : Frees s s') (hbits : s'.Bits V) :
    s'.Core cnt d V ∧ s'.node = s.node := by
  have hinode : ∀ m < s.sb.ninodes, s'.disk (s.sb.iblock m) = s.disk (s.sb.iblock m) :=
    fun m hm => hf.disk _ fun x hx => (h.layout.apart m hm x hx).symm
  have hdinode : ∀ m < s.sb.ninodes, s'.dinodeAt m = s.dinodeAt m := by
    intro m hm
    unfold dinodeAt
    rw [hf.sb, hinode m hm]
  have hnode : s'.node = s.node := by
    refine node_congr hf.sb (fun m hm => ?_) fun m hne => hf.disk _ fun x hx => ?_
    · refine cur_congr (fun j => ?_) (fun j _ => by rw [hf.inode]) (hdinode m hm)
      unfold Live
      rw [hf.inode]
    · have hlo := (h.own.range hne).1
      have hhi := (h.layout.bitmap x hx).2
      omega
  refine ⟨⟨?_, ?_, ?_, ?_, hbits, ?_⟩, hnode⟩
  · rw [hf.sb]
    exact h.layout
  · rw [hf.sb, hf.disk 1 fun x hx => ?_, h.super]
    have := (h.layout.bitmap x hx).1
    omega
  · refine ⟨⟨fun j => ?_, fun j j' hj hj' => ?_, fun j hj hv => ?_⟩, fun j hj hv hd => ?_,
      fun j hj hv => ?_⟩
    · rw [hf.inode, h.slots.ref]
    · rw [hf.inode]
      exact h.slots.uniq j j' hj hj'
    · rw [hf.inode] at hv ⊢
      rw [hf.sb]
      exact h.slots.inum j hj hv
    · rw [hf.inode] at hv ⊢
      rw [hdinode _ (h.slots.inum j hj hv)]
      exact h.slots.sync j hj hv hd
    · rw [hf.inode] at hv ⊢
      exact h.slots.typed j hj hv
  · rw [hf.sb, hnode]
    exact h.own
  · rw [hf.overlap, h.overlap]

theorem Core.wp_bfree (h : s.Core cnt d U) (hop : s.op.isSome)
    (hb : b < s.sb.size) (hdata : s.sb.datastart ≤ b) (hU : U b)
    (hQ : Frees s (s.free b) → (s.free b).Bits (fun x => U x ∧ x ≠ b) → Q () (s.free b)) :
    wp (bfree b) Q E s :=
  Fs.wp_bfree hop h.super ((h.bits b hb).mpr (.inr hU))
    (hQ (frees_free hop hb) (h.bits.free hdata))

/-! ## Emptying places -/

structure Cut (s s' : Fs) (ip : ISlot) (S : Nat → Prop) : Prop where
  sb : s'.sb = s.sb
  isSome : s'.op.isSome = s.op.isSome
  ops : s'.ops = s.ops
  inum : ∀ j, (s'.inode j).inum = (s.inode j).inum
  valid : ∀ j, (s'.inode j).valid = (s.inode j).valid
  others : ∀ m, m ≠ (s.inode ip).inum → s'.node m = s.node m
  self : (s'.node (s.inode ip).inum).bare = (s.node (s.inode ip).inum).bare
  cut : ∀ k, S k → (s'.node (s.inode ip).inum).block k = 0
  rest : ∀ k, ¬ S k → (s'.node (s.inode ip).inum).block k = (s.node (s.inode ip).inum).block k
  disk : ∀ c, (∀ x < s.sb.size, s.sb.bblock x ≠ c) → s'.disk c = s.disk c
  log : ∀ c ∈ s'.lg, c ∈ s.lg ∨ ∃ x < s.sb.size, s.sb.bblock x = c

theorem Cut.refl (h : ∀ k, S k → (s.node (s.inode ip).inum).block k = 0) : Cut s s ip S :=
  ⟨rfl, rfl, rfl, fun _ => rfl, fun _ => rfl, fun _ _ => rfl, rfl, h, fun _ _ => rfl,
    fun _ _ => rfl, fun _ hc => .inl hc⟩

theorem Cut.trans (h : Cut s s' ip S) (h' : Cut s' s'' ip S') : Cut s s'' ip fun k => S k ∨ S' k where
  sb := h'.sb.trans h.sb
  isSome := h'.isSome.trans h.isSome
  ops := h'.ops.trans h.ops
  inum := fun j => (h'.inum j).trans (h.inum j)
  valid := fun j => (h'.valid j).trans (h.valid j)
  others := fun m hm => (h'.others m (by rw [h.inum]; exact hm)).trans (h.others m hm)
  self := by
    have h2 := h'.self
    rw [h.inum] at h2
    exact h2.trans h.self
  cut := by
    intro k hk
    have hcut := h'.cut k
    have hrest := h'.rest k
    rw [h.inum] at hcut hrest
    by_cases hk' : S' k
    · exact hcut hk'
    · rw [hrest hk', h.cut k (hk.resolve_right hk')]
  rest := by
    intro k hk
    rw [not_or] at hk
    have hrest := h'.rest k hk.2
    rw [h.inum] at hrest
    rw [hrest, h.rest k hk.1]
  disk := by
    intro c hc
    rw [h'.disk c (by rw [h.sb]; exact hc), h.disk c hc]
  log := by
    intro c hc
    rcases h'.log c hc with hc | hbm
    · exact h.log c hc
    · rw [h.sb] at hbm
      exact .inr hbm

theorem Cut.congr (h : Cut s s' ip S) (hS : ∀ k, S k ↔ S' k) : Cut s s' ip S' :=
  { h with
    cut := fun k hk => h.cut k ((hS k).mpr hk)
    rest := fun k hk => h.rest k fun hk' => hk ((hS k).mp hk') }

theorem Core.cutCopy {f : Dinode → Dinode} {s1 : Fs} (h : s.Core cnt (some ip) (Used s.node))
    (hip : 0 < cnt ip) (hv : (s.inode ip).valid = true) (hf : Frees s s1)
    (hbits : s1.Bits fun x =>
      Used s.node x ∧ ∀ k, S k → x ≠ (s.node (s.inode ip).inum).block k)
    (hkeep : ∀ dip, (f dip).type = dip.type ∧ (f dip).major = dip.major ∧
      (f dip).minor = dip.minor ∧ (f dip).nlink = dip.nlink ∧ (f dip).size = dip.size)
    (hcut : ∀ k, S k → place s1.disk (f (s.inode ip).copy) k = 0)
    (hrest : ∀ k, ¬ S k →
      place s1.disk (f (s.inode ip).copy) k = place s1.disk (s.inode ip).copy k) :
    (s1.setCopy ip f).Core cnt (some ip) (Used (s1.setCopy ip f).node) ∧
      Cut s (s1.setCopy ip f) ip S := by
  obtain ⟨h1, hnode1⟩ := h.of_frees hf hbits
  obtain ⟨htype, hmajor, hminor, hnlink, hsize⟩ := hkeep (s.inode ip).copy
  have hv1 : (s1.inode ip).valid = true := by
    rw [hf.inode]
    exact hv
  have hslots : (s1.setCopy ip f).Slots cnt (some ip) := by
    refine h1.slots.setCopy fun _ => ?_
    rw [hf.inode, htype]
    exact h.slots.typed ip hip hv
  have hold := h1.slots.node_of_valid hip hv1
  have hnew := hslots.node_setCopy_self hip hv1
  rw [hf.inode, hnode1] at hold
  rw [hf.inode, htype, hmajor, hminor, hnlink, hsize] at hnew
  have hothers : ∀ m, m ≠ (s.inode ip).inum → (s1.setCopy ip f).node m = s.node m := by
    intro m hm
    rw [node_setCopy_of_ne (by rw [hf.inode]; exact hm), hnode1]
  have hcut' : ∀ k, S k → ((s1.setCopy ip f).node (s.inode ip).inum).block k = 0 := by
    intro k hk
    rw [hnew]
    exact hcut k hk
  have hrest' : ∀ k, ¬ S k → ((s1.setCopy ip f).node (s.inode ip).inum).block k
      = (s.node (s.inode ip).inum).block k := by
    intro k hk
    rw [hnew, hold]
    exact hrest k hk
  have hblock : ∀ m, m ≠ (s.inode ip).inum →
      ((s1.setCopy ip f).node m).block = (s.node m).block := fun m hm => by rw [hothers m hm]
  refine ⟨⟨h1.layout, h1.super, hslots, ?_, ?_, h1.overlap⟩, ?_⟩
  · have hown := h.own.cut hblock hcut' hrest'
    rw [← hf.sb] at hown
    exact hown
  · exact Bits.congr (s := s1.setCopy ip f) hbits fun x => (used_cut hblock hcut' hrest' h.own).symm
  · refine ⟨hf.sb, hf.isSome, hf.ops, fun j => ?_, fun j => ?_, hothers, ?_, hcut', hrest',
      hf.disk, hf.log⟩
    · rw [setCopy_inum, hf.inode]
    · rw [setCopy_valid, hf.inode]
    · rw [hnew, hold]
      rfl

/-! ## `itrunc` -/

section Itrunc

variable {Q : Unit → Fs → Prop} (hip : 0 < cnt ip)

include hip

theorem Core.block_eq (h : s.Core cnt d U) (hv : (s.inode ip).valid = true) (x : Nat) :
    (s.node (s.inode ip).inum).block x = place s.disk (s.inode ip).copy x := by
  rw [h.slots.node_of_valid hip hv]

theorem wp_truncDirect (h : s.Core cnt (some ip) (Used s.node)) (hv : (s.inode ip).valid = true)
    (hop : s.op.isSome) (hk : k < NDIRECT)
    (hQ : ∀ s', s'.Core cnt (some ip) (Used s'.node) → Cut s s' ip (fun x => x = k) → Q () s') :
    wp (truncDirect ip k) Q E s := by
  have hblock := h.block_eq hip hv k
  rw [place_direct hk] at hblock
  simp only [truncDirect, copyOf, onCopy, wp_bind, wp_look]
  refine wp_ite (fun h0 => ?_) fun hne => ?_
  · refine hQ s h (Cut.refl fun x hx => ?_)
    rw [hx, hblock, h0]
  · have hne' := hne
    rw [← hblock] at hne'
    have hrange := h.own.range hne'
    simp only [wp_bind, wp_change]
    refine h.wp_bfree hop (by rw [← hblock]; exact hrange.2) (by rw [← hblock]; exact hrange.1)
      (by rw [← hblock]; exact used_of_block hne') fun hf hbits => ?_
    have htable : (s.inode ip).copy.addr NDIRECT ≠ 0 →
        (s.free ((s.inode ip).copy.addr k)).disk ((s.inode ip).copy.addr NDIRECT)
          = (s.free ((s.inode ip).copy.addr k)).disk ((s.inode ip).copy.addr NDIRECT) :=
      fun _ => rfl
    have hplace := place_setAddr (b := 0) hk (by decide) htable
    have hcut := h.cutCopy (f := fun dip => dip.setAddr k 0) (S := fun x => x = k) hip hv hf
    suffices hQ' : _ ∧ _ from hQ _ hQ'.1 hQ'.2
    refine hcut (hbits.congr fun x => ?_) (fun _ => ⟨rfl, rfl, rfl, rfl, rfl⟩) (fun x hx => ?_)
      fun x hx => ?_
    · rw [← hblock]
      exact and_congr_right fun _ => ⟨fun hx y hy => hy ▸ hx, fun hx => hx k rfl⟩
    · rw [hplace, hx, update_self]
    · rw [hplace, update_of_ne hx]

theorem wp_truncDirects (h : s.Core cnt (some ip) (Used s.node)) (hv : (s.inode ip).valid = true)
    (hop : s.op.isSome)
    (hQ : ∀ s', s'.Core cnt (some ip) (Used s'.node) → Cut s s' ip (fun x => x < NDIRECT) →
      Q () s') :
    wp ((List.range NDIRECT).forM (truncDirect ip)) Q E s := by
  -- what is not left to do has been emptied
  refine wp_forM (fun rest s' => rest.Nodup ∧ (∀ x ∈ rest, x < NDIRECT) ∧
      s'.Core cnt (some ip) (Used s'.node) ∧ Cut s s' ip fun x => x < NDIRECT ∧ x ∉ rest)
    ⟨nodup_range, fun x hx => mem_range.mp hx, h, Cut.refl fun x hx => ?_⟩
    (fun k rest s1 hinv => ?_) fun s1 hinv => ?_
  · exact absurd (mem_range.mpr hx.1) hx.2
  · obtain ⟨hnodup, hlt, hcore, hcut⟩ := hinv
    rw [nodup_cons] at hnodup
    have hk := hlt k (by simp)
    refine wp_truncDirect hip hcore (by rw [hcut.valid]; exact hv) (by rw [hcut.isSome]; exact hop)
      hk fun s2 hcore2 hcut2 => ⟨hnodup.2, fun x hx => hlt x (by simp [hx]), hcore2, ?_⟩
    refine (hcut.trans hcut2).congr fun x => ?_
    rw [mem_cons, not_or]
    constructor
    · rintro (⟨hx, -, hr⟩ | rfl)
      · exact ⟨hx, hr⟩
      · exact ⟨hk, hnodup.1⟩
    · rintro ⟨hx, hr⟩
      by_cases hxk : x = k
      · exact .inr hxk
      · exact .inl ⟨hx, hxk, hr⟩
  · refine hQ s1 hinv.2.2.1 (hinv.2.2.2.congr fun x => ?_)
    simp

theorem wp_truncListed (h : s.Core cnt (some ip) (Used s.node)) (hv : (s.inode ip).valid = true)
    (hop : s.op.isSome) (ht : (s.inode ip).copy.addr NDIRECT ≠ 0)
    (hQ : ∀ s', Frees s s' → s'.Bits (fun x => Used s.node x ∧
      ∀ k, NDIRECT ≤ k → k < MAXFILE → x ≠ (s.node (s.inode ip).inum).block k) → Q () s') :
    wp ((List.range NINDIRECT).forM fun j =>
      if word (s.disk ((s.inode ip).copy.addr NDIRECT)) j = 0 then pure ()
      else bfree (word (s.disk ((s.inode ip).copy.addr NDIRECT)) j)) Q E s := by
  have hlisted : ∀ j < NINDIRECT, (s.node (s.inode ip).inum).block (NDIRECT + j)
      = word (s.disk ((s.inode ip).copy.addr NDIRECT)) j := by
    intro j hj
    rw [h.block_eq hip hv, place_listed (by omega) (Nat.add_lt_add_left hj NDIRECT), listed,
      if_neg ht, Nat.add_sub_cancel_left]
  refine wp_forM (fun rest s' => rest.Nodup ∧ (∀ x ∈ rest, x < NINDIRECT) ∧ Frees s s' ∧
      s'.Bits fun x => Used s.node x ∧ ∀ j < NINDIRECT, j ∉ rest →
        x ≠ (s.node (s.inode ip).inum).block (NDIRECT + j))
    ⟨nodup_range, fun x hx => mem_range.mp hx, Frees.refl, h.bits.congr fun x => ?_⟩
    (fun j rest s1 hinv => ?_) fun s1 hinv => ?_
  · refine ⟨fun hx => ⟨hx, fun j hj hn => ?_⟩, fun hx => hx.1⟩
    exact absurd (mem_range.mpr hj) hn
  · obtain ⟨hnodup, hlt, hf, hbits⟩ := hinv
    rw [nodup_cons] at hnodup
    have hj := hlt j (by simp)
    have hdone : ∀ y, y ∉ rest ↔ y ∉ j :: rest ∨ y = j := by
      intro y
      rw [mem_cons, not_or]
      constructor
      · intro hy
        by_cases hyj : y = j
        · exact .inr hyj
        · exact .inl ⟨hyj, hy⟩
      · rintro (hy | rfl)
        · exact hy.2
        · exact hnodup.1
    refine wp_ite (fun h0 => ⟨hnodup.2, fun x hx => hlt x (by simp [hx]), hf, ?_⟩) fun hne => ?_
    · refine hbits.congr fun x => and_congr_right fun hx => ⟨fun hall y hy hyr => ?_,
        fun hall y hy hyr => hall y hy ((hdone y).mpr (.inl hyr))⟩
      rcases (hdone y).mp hyr with hyr | rfl
      · exact hall y hy hyr
      · rw [hlisted y hy, h0]
        exact hx.1
    · rw [← hlisted j hj] at hne ⊢
      have hrange := h.own.range hne
      obtain ⟨hcore, -⟩ := h.of_frees hf hbits
      refine hcore.wp_bfree (by rw [hf.isSome]; exact hop) (by rw [hf.sb]; exact hrange.2)
        (by rw [hf.sb]; exact hrange.1) ⟨used_of_block hne, fun y hy hyr heq => ?_⟩
        fun hf' hbits' => ⟨hnodup.2, fun x hx => hlt x (by simp [hx]), hf.trans hf', ?_⟩
      · -- no other place lists this block
        have := (h.own.inj hne heq).2
        have hyj : y = j := by omega
        exact hyr (by simp [hyj])
      · refine hbits'.congr fun x => ⟨fun hx => ⟨hx.1.1, fun y hy hyr => ?_⟩,
          fun hx => ⟨⟨hx.1, fun y hy hyr => hx.2 y hy ((hdone y).mpr (.inl hyr))⟩,
            hx.2 j hj hnodup.1⟩⟩
        rcases (hdone y).mp hyr with hyr | rfl
        · exact hx.1.2 y hy hyr
        · exact hx.2
  · obtain ⟨-, -, hf, hbits⟩ := hinv
    refine hQ s1 hf (hbits.congr fun x => and_congr_right fun _ => ⟨fun hall k hk hlt => ?_,
      fun hall j hj _ => hall _ (by omega) (Nat.add_lt_add_left hj NDIRECT)⟩)
    have hj : k - NDIRECT < NINDIRECT := by
      simp only [MAXFILE, NDIRECT, NINDIRECT] at hlt ⊢
      omega
    have hne := hall (k - NDIRECT) hj (by simp)
    rwa [show NDIRECT + (k - NDIRECT) = k by omega] at hne

theorem wp_truncIndirect (h : s.Core cnt (some ip) (Used s.node)) (hv : (s.inode ip).valid = true)
    (hop : s.op.isSome)
    (hQ : ∀ s', s'.Core cnt (some ip) (Used s'.node) → Cut s s' ip (fun x => NDIRECT ≤ x) →
      Q () s') :
    wp (truncIndirect ip) Q E s := by
  have htable := h.block_eq hip hv MAXFILE
  rw [place_indirect] at htable
  simp only [truncIndirect, copyOf, onCopy, wp_bind, wp_look]
  refine wp_ite (fun h0 => ?_) fun hne => ?_
  · refine hQ s h (Cut.refl fun x hx => ?_)
    rw [h.block_eq hip hv]
    by_cases hlt : x < MAXFILE
    · rw [place_listed hx hlt, listed, if_pos h0]
    · by_cases hlast : x = MAXFILE
      · rw [hlast, place_indirect, h0]
      · exact place_beyond (by omega)
  · have hne' := hne
    rw [← htable] at hne'
    have hrange := h.own.range hne'
    rw [htable] at hrange
    simp only [bread, wp_bind, wp_look, wp_change]
    refine wp_truncListed hip h hv hop hne fun s1 hf hbits => ?_
    obtain ⟨hcore, -⟩ := h.of_frees hf hbits
    refine hcore.wp_bfree (by rw [hf.isSome]; exact hop) (by rw [hf.sb]; exact hrange.2)
      (by rw [hf.sb]; exact hrange.1) ⟨?_, fun k hk hlt heq => ?_⟩ fun hf' hbits' => ?_
    · rw [← htable]
      exact used_of_block hne'
    · -- the indirect block does not list itself
      rw [← htable] at heq
      have := (h.own.inj hne' heq).2
      omega
    · have hplace : ∀ disk : Nat → Block, ∀ k, NDIRECT ≤ k →
          place disk ((s.inode ip).copy.setAddr NDIRECT 0) k = 0 := by
        intro disk k hk
        have h12 : ((s.inode ip).copy.setAddr NDIRECT 0).addr NDIRECT = 0 :=
          (s.inode ip).copy.addr_setAddr_self (by omega) (by decide)
        by_cases hlt : k < MAXFILE
        · rw [place_listed hk hlt, listed, if_pos h12]
        · by_cases hlast : k = MAXFILE
          · rw [hlast, place_indirect, h12]
          · exact place_beyond (by omega)
      have hcut := h.cutCopy (f := fun dip => dip.setAddr NDIRECT 0)
        (S := fun x => NDIRECT ≤ x) hip hv (hf.trans hf')
      suffices hQ' : _ ∧ _ from hQ _ hQ'.1 hQ'.2
      refine hcut (hbits'.congr fun x => ?_) (fun _ => ⟨rfl, rfl, rfl, rfl, rfl⟩)
        (fun k hk => hplace _ k hk) fun k hk => ?_
      · constructor
        · rintro ⟨⟨hx, hall⟩, hxt⟩
          refine ⟨hx, fun k hk => ?_⟩
          by_cases hlt : k < MAXFILE
          · exact hall k hk hlt
          · by_cases hlast : k = MAXFILE
            · rw [hlast, htable]
              exact hxt
            · rw [node_block_beyond (by omega)]
              exact hx.1
        · rintro ⟨hx, hall⟩
          refine ⟨⟨hx, fun k hk _ => hall k hk⟩, ?_⟩
          rw [← htable]
          exact hall MAXFILE (by decide)
      · have hlt : k < NDIRECT := by omega
        rw [place_direct hlt, place_direct hlt]
        exact (s.inode ip).copy.addr_setAddr_of_ne 0 (by omega)

theorem wp_itrunc (h : s.Inv cnt none) (hv : (s.inode ip).valid = true) (hop : s.op.isSome)
    (hQ : ∀ s', s'.Inv cnt none → s'.sb = s.sb → s'.op.isSome = s.op.isSome → s'.ops = s.ops →
      (∀ j, (s'.inode j).inum = (s.inode j).inum) → (∀ j, (s'.inode j).valid = (s.inode j).valid) →
      Spent s s' [s.sb.iblock (s.inode ip).inum] 0 →
      s'.ino = update s.ino (s.inode ip).inum
        { s.ino (s.inode ip).inum with bytes := [] } →
      ((s'.node (s.inode ip).inum).size = 0 ∧ (s'.node (s.inode ip).inum).block = fun _ => 0) →
      Q () s') : wp (itrunc ip) Q E s := by
  simp only [itrunc, onCopy, wp_bind, wp_change]
  refine wp_truncDirects hip h.dirty.toCore hv hop fun s1 hcore1 hcut1 => ?_
  refine wp_truncIndirect hip hcore1 (by rw [hcut1.valid]; exact hv)
    (by rw [hcut1.isSome]; exact hop) fun s2 hcore hcut2 => ?_
  have hcut : Cut s s2 ip fun _ => True :=
    (hcut1.trans hcut2).congr fun x => iff_true_intro (lt_or_ge x NDIRECT)
  clear hcore1 hcut1 hcut2
  have hv2 : (s2.inode ip).valid = true := by
    rw [hcut.valid]
    exact hv
  have hi := h.slots.inum ip hip hv
  -- with size 0 nothing is missing
  have hslots : (s2.setCopy ip fun dip => { dip with size := 0 }).Slots cnt (some ip) :=
    hcore.slots.setCopy fun _ => hcore.slots.typed ip hip hv2
  have hold := hcore.slots.node_of_valid hip hv2
  have hnew := hslots.node_setCopy_self hip hv2
  rw [hcut.inum] at hold hnew
  have hothers : ∀ m, m ≠ (s.inode ip).inum →
      (s2.setCopy ip fun dip => { dip with size := 0 }).node m = s.node m := by
    intro m hm
    rw [node_setCopy_of_ne (by rw [hcut.inum]; exact hm), hcut.others m hm]
  have hblock : ∀ m, ((s2.setCopy ip fun dip => { dip with size := 0 }).node m).block
      = (s2.node m).block := by
    intro m
    by_cases hm : m = (s.inode ip).inum
    · rw [hm, hnew, hold]
      rfl
    · rw [hothers m hm, hcut.others m hm]
  have hempty : ((s2.setCopy ip fun dip => { dip with size := 0 }).node (s.inode ip).inum).size = 0 := by
    rw [hnew]
    rfl
  have hinv : (s2.setCopy ip fun dip => { dip with size := 0 }).Inv cnt (some ip) := by
    refine ⟨⟨hcore.layout, hcore.super, hslots, hcore.own.congr hblock, ?_, hcore.overlap⟩,
      fun m => ?_, fun m k hk => ?_⟩
    · exact Bits.congr (s := s2.setCopy ip fun dip => { dip with size := 0 }) hcore.bits fun x =>
        (used_congr hblock).symm
    · by_cases hm : m = (s.inode ip).inum
      · rw [hm, hempty]
        exact Nat.zero_le _
      · rw [hothers m hm]
        exact h.full.small m
    · by_cases hm : m = (s.inode ip).inum
      · rw [hm, hempty] at hk
        omega
      · rw [hothers m hm] at hk ⊢
        exact h.full.mapped m k hk
  obtain ⟨hinv', hnode', hino'⟩ := hinv.store hip (by rw [setCopy_valid]; exact hv2)
  rw [setCopy_inum, setCopy_self] at hinv' hnode' hino'
  refine wp_iupdate_store (by rw [setCopy_op, hcut.isSome]; exact hop) ?_
  rw [setCopy_inum, setCopy_self]
  refine hQ _ hinv' hcut.sb ?_ hcut.ops (fun j => ?_) (fun j => ?_) ⟨[], by simp, fun c hc => ?_⟩ ?_
    ⟨?_, ?_⟩
  · rw [store_isSome, setCopy_op, hcut.isSome]
  · rw [store_inode, setCopy_inum, hcut.inum]
  · rw [store_inode, setCopy_valid, hcut.valid]
  · rw [lg_store (by rw [setCopy_op, hcut.isSome]; exact hop), Finset.mem_insert] at hc
    rcases hc with rfl | hc
    · refine .inr (.inr (.inl ?_))
      rw [setCopy_sb, hcut.sb, hcut.inum]
      exact mem_singleton_self _
    · rcases hcut.log c hc with hc | hbm
      · exact .inl hc
      · exact .inr (.inl hbm)
  · rw [hino']
    funext m
    by_cases hm : m = (s.inode ip).inum
    · obtain ⟨htype, hmajor, hminor, hnlink, -⟩ := Node.of_bare hcut.self
      rw [hold] at htype hmajor hminor hnlink
      subst hm
      rw [update_self]
      simp only [ino, hnew]
      rw [← htype, ← hmajor, ← hminor, ← hnlink]
      rfl
    · rw [update_of_ne hm]
      have hbytes : ∀ x < (s.node m).size, (s2.setCopy ip fun dip => { dip with size := 0 }).byteAt m x
          = s.byteAt m x := by
        intro x hx
        have hmapped := h.full.mapped m _ (lt_of_le_of_lt (Nat.div_mul_le_self x BSIZE) hx)
        rw [byteAt, byteAt, hothers m hm, setCopy_disk, hcut.disk _ fun b hb => ?_]
        have hlo := (h.own.range hmapped).1
        have hhi := (h.layout.bitmap b hb).2
        omega
      unfold ino
      rw [hothers m hm]
      congr 1
      exact map_congr_left fun x hx => hbytes x (mem_range.mp hx)
  · rw [hnode', hempty]
  · rw [hnode', hblock]
    funext k
    exact hcut.cut k trivial

end Itrunc

/-! ## `iput` -/

/-- What is written when an inode is freed. -/
def untyped (dip : Dinode) : Dinode := { dip with type := 0 }

def release (s : Fs) (ip : ISlot) : Fs :=
  ((s.setCopy ip untyped).store (s.inode ip).inum (untyped (s.inode ip).copy)).setInode ip
    fun i => { i with valid := false }

theorem release_inum (j : ISlot) : ((s.release ip).inode j).inum = (s.inode j).inum := by
  by_cases hj : j = ip
  · rw [hj]
    simp only [release, setInode_self, store_inode, setCopy_inum]
  · rw [release, setInode_of_ne hj, store_inode, setCopy_inum]

theorem release_of_ne {j : ISlot} (hj : j ≠ ip) : (s.release ip).inode j = s.inode j := by
  rw [release, setInode_of_ne hj, store_inode, setCopy_of_ne hj]

theorem release_ref : ((s.release ip).inode ip).ref = (s.inode ip).ref := by
  simp only [release, setInode_self, store_inode, setCopy_ref]

theorem release_valid : ((s.release ip).inode ip).valid = false := by
  simp only [release, setInode_self]

theorem release_isSome : (s.release ip).op.isSome = s.op.isSome := by
  simp only [release, setInode_op, store_isSome, setCopy_op]

theorem lg_release (hop : s.op.isSome) :
    (s.release ip).lg = insert (s.sb.iblock (s.inode ip).inum) s.lg := by
  show ((s.setCopy ip untyped).store (s.inode ip).inum (untyped (s.inode ip).copy)).lg = _
  rw [lg_store (s := s.setCopy ip untyped) hop]
  rfl

theorem Inv.release (h : s.Inv cnt none) (hip : 0 < cnt ip) (hv : (s.inode ip).valid = true)
    (hsize : (s.node (s.inode ip).inum).size = 0)
    (hblock : (s.node (s.inode ip).inum).block = fun _ => 0) :
    (s.release ip).Inv cnt none ∧ (s.release ip).ino = update s.ino (s.inode ip).inum Ino.free := by
  have hi := h.slots.inum ip hip hv
  have hdinode : ∀ m, m ≠ (s.inode ip).inum → (s.release ip).dinodeAt m = s.dinodeAt m := fun m hm =>
    dinodeAt_store_of_ne (s := s.setCopy ip untyped) hm
  have hslots : (s.release ip).Slots cnt none := by
    refine ⟨⟨fun j => ?_, fun j j' hj hj' heq => ?_, fun j hj hvj => ?_⟩, fun j hj hvj hd => ?_,
      fun j hj hvj => ?_⟩
    · by_cases hji : j = ip
      · rw [hji, release_ref, h.slots.ref]
      · rw [release_of_ne hji, h.slots.ref]
    · rw [release_inum, release_inum] at heq
      exact h.slots.uniq j j' hj hj' heq
    all_goals
      have hji : j ≠ ip := by
        rintro rfl
        rw [release_valid] at hvj
        exact absurd hvj (by simp)
      rw [release_of_ne hji] at hvj ⊢
    · exact h.slots.inum j hj hvj
    · rw [hdinode _ fun heq => hji (h.slots.uniq j ip hj hip heq)]
      exact h.slots.sync j hj hvj hd
    · exact h.slots.typed j hj hvj
  have hself : (s.release ip).node (s.inode ip).inum = Node.free := by
    rw [node_of_lt (show _ < (s.release ip).sb.ninodes from hi), hslots.cur_eq]
    have hd : (s.release ip).dinodeAt (s.inode ip).inum = untyped (s.inode ip).copy := by
      rw [Fs.release, setInode_dinodeAt, dinodeAt_store_self]
    rw [hd]
    exact if_pos rfl
  have hdisk : ∀ c, c ≠ s.sb.iblock (s.inode ip).inum → (s.release ip).disk c = s.disk c := fun c hc =>
    store_disk_of_ne (s := s.setCopy ip untyped) hc
  have hothers : ∀ m, m ≠ (s.inode ip).inum → (s.release ip).node m = s.node m := by
    intro m hm
    refine node_congr_at rfl (fun _ => ?_) fun hne => hdisk _ (h.iblock_ne hi hne)
    rw [hslots.cur_eq, h.slots.cur_eq, hdinode m hm]
  refine ⟨h.of_blocks hslots rfl ?_ rfl (fun b hb => ?_) fun m => ?_, ?_⟩
  · have hlo := (h.layout.inodes _ hi).1
    rw [hdisk 1 (by omega), h.super]
  · unfold bitOf
    rw [show (s.release ip).sb = s.sb from rfl, hdisk _ (h.layout.apart _ hi b hb).symm]
  · by_cases hm : m = (s.inode ip).inum
    · rw [hm, hself, hsize, hblock]
      exact ⟨rfl, rfl⟩
    · rw [hothers m hm]
      exact ⟨rfl, rfl⟩
  · funext m
    by_cases hm : m = (s.inode ip).inum
    · rw [hm, update_self]
      exact ino_eq_free hself
    · rw [update_of_ne hm]
      have hbytes : ∀ x < (s.node m).size, (s.release ip).byteAt m x = s.byteAt m x := by
        intro x hx
        have hmapped := h.full.mapped m _ (lt_of_le_of_lt (Nat.div_mul_le_self x BSIZE) hx)
        rw [byteAt, byteAt, hothers m hm, hdisk _ (h.iblock_ne hi hmapped)]
      unfold ino
      rw [hothers m hm]
      congr 1
      exact map_congr_left fun x hx => hbytes x (mem_range.mp hx)

theorem wp_ifree (h : s.Inv cnt none) (hip : 0 < cnt ip)
    (hv : (s.inode ip).valid = true) (hop : s.op.isSome)
    (hQ : ∀ s', s'.Inv cnt none → s'.sb = s.sb → s'.op.isSome = s.op.isSome → s'.ops = s.ops →
      (∀ j, (s'.inode j).inum = (s.inode j).inum) →
      (∀ j, j ≠ ip → (s'.inode j).valid = (s.inode j).valid) →
      Spent s s' [s.sb.iblock (s.inode ip).inum] 0 →
      s'.ino = update s.ino (s.inode ip).inum Ino.free → Q () s') :
    wp (ifree ip) Q E s := by
  simp only [ifree, onCopy, onInode, wp_bind, wp_change]
  refine wp_itrunc hip h hv hop fun s1 h1 hsb hop1 hops hinum hvalid hspent hino hempty => ?_
  rw [← hinum] at hempty
  obtain ⟨hinv, hfree⟩ := h1.release hip (by rw [hvalid]; exact hv) hempty.1 hempty.2
  refine wp_iupdate_store (by rw [setCopy_op, hop1]; exact hop) ?_
  rw [setCopy_inum, setCopy_self]
  refine hQ (s1.release ip) hinv hsb ?_ hops (fun j => ?_) (fun j hj => ?_) ?_ ?_
  · rw [release_isSome, hop1]
  · rw [release_inum, hinum]
  · rw [release_of_ne hj, hvalid]
  · obtain ⟨X, hX, hspent⟩ := hspent
    refine ⟨X, hX, fun c hc => ?_⟩
    rw [lg_release (by rw [hop1]; exact hop), hsb, hinum, Finset.mem_insert] at hc
    rcases hc with rfl | hc
    · exact .inr (.inr (.inl (by simp)))
    · exact hspent c hc
  · rw [hfree, hino, hinum, update_idem]

def Last (s : Fs) (cnt : ISlot → Nat) (ip : ISlot) : Prop :=
  cnt ip = 0 ∧ (s.inode ip).valid = true ∧ (s.ino (s.inode ip).inum).nlink = 0

structure Dropped (cnt : ISlot → Nat) (s s' : Fs) (ip : ISlot) : Prop where
  kept : Kept cnt s s'
  same : ¬ s.Last cnt ip → s'.ino = s.ino ∧ s'.lg = s.lg
  free : s.Last cnt ip → s'.ino = update s.ino (s.inode ip).inum Ino.free ∧
    Spent s s' [s.sb.iblock (s.inode ip).inum] 0

theorem Inv.putRef (h : s.Inv (plus cnt ip) none) :
    (s.setInode ip fun i => { i with ref := i.ref - 1 }).Inv cnt none ∧
      Quiet cnt s (s.setInode ip fun i => { i with ref := i.ref - 1 }) := by
  obtain ⟨hinv, hquiet⟩ := h.set_same ip (fun i => { i with ref := i.ref - 1 })
    (fun j hj => (plus_of_ne hj).symm) (by simp [h.slots.ref]) plus_pos rfl rfl rfl
  exact ⟨hinv, hquiet.less⟩

theorem wp_iput (h : s.Inv (plus cnt ip) none) (hop : s.op.isSome)
    (hQ : ∀ s', s'.Inv cnt none → Dropped cnt s s' ip → Q () s') : wp (iput ip) Q E s := by
  simp only [iput, ifreeUnused, onInode, wp_bind, wp_look, wp_change]
  have href := h.slots.ref ip
  rw [plus_self] at href
  have hnlink : (s.inode ip).valid = true →
      (s.inode ip).copy.nlink = (s.ino (s.inode ip).inum).nlink := by
    intro hv
    show _ = (s.node (s.inode ip).inum).nlink
    rw [h.slots.node_of_valid plus_pos hv]
  refine wp_ite (fun hc => ?_) fun hc => ?_
  · obtain ⟨h1, hv, h0⟩ := hc
    have hzero : cnt ip = 0 := by omega
    have hlast : s.Last cnt ip := ⟨hzero, hv, (hnlink hv).symm.trans h0⟩
    refine wp_ifree h plus_pos hv hop fun s1 h₁ hsb hop1 hops hinum hvalid hspent hino => ?_
    obtain ⟨hinv, hquiet⟩ := h₁.putRef
    have hne : ∀ j, 0 < cnt j → j ≠ ip := by
      rintro j hj rfl
      omega
    refine hQ _ hinv ⟨⟨hsb, hop1, hops, fun j hj => ?_, fun j hj hvj => ?_, fun j hj _ => ?_⟩,
      fun hnot => absurd hlast hnot, fun _ => ⟨?_, ?_⟩⟩
    · rw [hquiet.inum j hj, hinum]
    · exact hquiet.valid j hj (by rw [hvalid j (hne j hj)]; exact hvj)
    · rw [hquiet.ino, hino, update_of_ne]
      intro heq
      exact hne j hj (h.slots.uniq j ip (plus_pos_of_pos hj) plus_pos heq)
    · rw [hquiet.ino, hino]
    · exact hspent.quiet hquiet
  · obtain ⟨hinv, hquiet⟩ := h.putRef
    refine hQ _ hinv ⟨hquiet.kept, fun _ => ⟨hquiet.ino, hquiet.lg⟩, fun hlast => absurd ?_ hc⟩
    exact ⟨by rw [href, hlast.1]; rfl, hlast.2.1, (hnlink hlast.2.1).trans hlast.2.2⟩

theorem Dropped.of_quiet (hquiet : Quiet (plus cnt ip) s s') (hv : (s.inode ip).valid = true)
    (h : Dropped cnt s' s'' ip) : Dropped cnt s s'' ip := by
  have hinum := hquiet.inum ip plus_pos
  have hlast : s'.Last cnt ip ↔ s.Last cnt ip := by
    unfold Last
    rw [hquiet.valid ip plus_pos hv, hv, hinum, hquiet.ino]
  refine ⟨hquiet.less.kept.trans h.kept, fun hnot => ?_, fun hl => ?_⟩
  · obtain ⟨hino, hlg⟩ := h.same fun hl => hnot (hlast.mp hl)
    exact ⟨hino.trans hquiet.ino, hlg.trans hquiet.lg⟩
  · obtain ⟨hino, hspent⟩ := h.free (hlast.mpr hl)
    rw [hinum, hquiet.ino] at hino
    rw [hinum, hquiet.sb] at hspent
    exact ⟨hino, hquiet.then_spent hspent⟩

theorem wp_iunlockput {lax : Prop} (h : s.Inv (plus cnt ip) none) (hv : (s.inode ip).valid = true)
    (hop : s.op.isSome) (hQ : ∀ s', s'.Inv cnt none → Dropped cnt s s' ip → Q () s') :
    wp (iunlockput ip) Q (Fails lax) s := by
  simp only [iunlockput, wp_bind]
  refine wp_iunlock h plus_pos fun s1 h1 hquiet => ?_
  exact wp_iput h1 (by rw [hquiet.op]; exact hop) fun s2 h2 hdrop =>
    hQ s2 h2 (hdrop.of_quiet hquiet hv)

end Xv6.Fs
