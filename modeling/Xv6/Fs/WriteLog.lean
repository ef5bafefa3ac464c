/-
  Xv6.Fs.WriteLog

  Which blocks `writei` passes to `log_write`.
-/

import Xv6.Fs.LinkOps

namespace Xv6.Fs

open Finset Wp

variable {s s' s'' : Fs} {ip : ISlot} {cnt : ISlot → Nat} {off i : Nat} {src : List UInt8} {α β : Type}
variable {P : α → Fs → Prop}

/-! ## What has changed has been logged -/

structure Logs (ip : ISlot) (s s' : Fs) : Prop where
  mono : s.lg ⊆ s'.lg
  disk : ∀ b, s'.disk b = s.disk b ∨ b ∈ s'.lg
  table : (s'.inode ip).copy.addr NDIRECT = (s.inode ip).copy.addr NDIRECT ∨
    ∃ b ∈ s'.lg, (s'.inode ip).copy.addr NDIRECT = b % 2 ^ 32

theorem Logs.refl : Logs ip s s := ⟨fun _ h => h, fun _ => .inl rfl, .inl rfl⟩

theorem Logs.trans (h : Logs ip s s') (h' : Logs ip s' s'') : Logs ip s s'' where
  mono := h.mono.trans h'.mono
  disk := by
    intro b
    rcases h'.disk b with heq | hb
    · rcases h.disk b with heq' | hb
      · exact .inl (heq.trans heq')
      · exact .inr (h'.mono hb)
    · exact .inr hb
  table := by
    rcases h'.table with heq | hnew
    · rcases h.table with heq' | ⟨b, hb, hnew⟩
      · exact .inl (heq.trans heq')
      · exact .inr ⟨b, h'.mono hb, heq.trans hnew⟩
    · exact .inr hnew

def Logging (ip : ISlot) (f : FsM α) (P : α → Fs → Prop) : Prop :=
  ∀ s, wp f (fun a s' => Logs ip s s' ∧ P a s') (fun _ _ => True) s

theorem Logging.bind {f : FsM α} {g : α → FsM β} {R : β → Fs → Prop} (hf : Logging ip f P)
    (hg : ∀ a s, P a s → wp (g a) (fun b s' => Logs ip s s' ∧ R b s') (fun _ _ => True) s) :
    Logging ip (f >>= g) R := by
  intro s
  refine wp_seq (wp_mono (hf s) (fun a s1 h1 => ?_) fun _ _ _ => trivial)
  exact wp_mono (hg a s1 h1.2) (fun b s2 h2 => ⟨h1.1.trans h2.1, h2.2⟩) fun _ _ _ => trivial

theorem logging_look {g : Fs → α} : Logging ip (look g) fun _ _ => True := fun _ => ⟨.refl, trivial⟩

theorem logging_pure {a : α} : Logging ip (pure a) fun _ _ => True := fun _ => ⟨.refl, trivial⟩

theorem logging_fail {e : Halt} : Logging ip (fail e) P := fun _ => trivial

theorem logging_logWrite {b : Nat} {data : Block} :
    Logging ip (logWrite b data) fun _ s' => b ∈ s'.lg := by
  intro s
  cases hop : s.op with
  | none =>
    unfold logWrite
    refine wp_write (wp_read ?_)
    dsimp only
    rw [hop]
    trivial
  | some l =>
    have hsome : s.op.isSome := by rw [hop]; rfl
    refine wp_logWrite hsome ⟨⟨?_, fun c => ?_, .inl rfl⟩, ?_⟩
    · rw [lg_put hsome]
      exact subset_insert b s.lg
    · by_cases hc : c = b
      · rw [hc, lg_put hsome]
        exact .inr (mem_insert_self b s.lg)
      · exact .inl (put_disk_of_ne hc)
    · show b ∈ (s.put b data).lg
      rw [lg_put hsome]
      exact mem_insert_self b s.lg

theorem logging_balloc : Logging ip balloc fun b s' => b ∈ s'.lg := by
  have hfrom : ∀ bs, Logging ip (ballocFrom bs) fun b s' => b ∈ s'.lg := by
    intro bs
    induction bs with
    | nil => exact logging_fail
    | cons b bs ih =>
      unfold ballocFrom
      refine logging_look.bind fun sb s1 _ => ?_
      refine logging_look.bind (fun bp s2 _ => ?_) s1
      split
      · rename_i bi _
        refine wp_write ?_
        have hrest : Logging ip (do
            logWrite (sb.bblock b) (Bytes.raise bp bi)
            bzero (b + bi)
            pure (b + bi)) fun b s' => b ∈ s'.lg := by
          refine logging_logWrite.bind fun _ s3 _ => ?_
          exact logging_logWrite.bind (fun _ s4 hlog => (wp_pure _).mpr ⟨.refl, hlog⟩) s3
        exact wp_mono (hrest _) (fun b' s3 h3 => ⟨⟨h3.1.mono, h3.1.disk, h3.1.table⟩, h3.2⟩)
          fun _ _ h => h
      · exact ih s2
  exact logging_look.bind fun sb s1 _ => hfrom _ s1

theorem addr_setAddr (d : Dinode) (a k v : Nat) :
    (d.setAddr a v).addr k = d.addr k ∨ (d.setAddr a v).addr k = v % 2 ^ 32 := by
  by_cases hk : k < NDIRECT + 1
  · by_cases hka : k = a
    · right
      simp only [Dinode.addr, Dinode.setAddr, hka ▸ hk, dif_pos, hka, if_true]
      exact UInt32.toNat_ofNat'
    · left
      simp only [Dinode.addr, Dinode.setAddr, hk, dif_pos, hka, if_false]
  · left
    simp only [Dinode.addr, hk, dif_neg, not_false_eq_true]

theorem logging_bmapAddr {a : Nat} : Logging ip (bmapAddr ip a) fun _ _ => True := by
  unfold bmapAddr
  refine logging_look.bind fun d s1 _ => wp_ite (fun _ => ?_) fun _ => logging_pure s1
  refine logging_balloc.bind (fun b s2 hb => ?_) s1
  refine wp_write ⟨⟨fun _ h => h, fun _ => .inl rfl, ?_⟩, trivial⟩
  have hcopy : ((s2.setCopy ip fun d => d.setAddr a b).inode ip).copy
      = (s2.inode ip).copy.setAddr a b := by
    simp [setCopy, setInode]
  rw [hcopy]
  rcases addr_setAddr (s2.inode ip).copy a NDIRECT b with heq | hnew
  · exact .inl heq
  · exact .inr ⟨b, hb, hnew⟩

theorem logging_bmap {k : Nat} : Logging ip (bmap ip k) fun _ _ => True := by
  intro s
  refine wp_ite (fun _ => logging_bmapAddr s) fun _ => wp_ite (fun _ => ?_) fun _ => trivial
  refine logging_bmapAddr.bind (fun addr s1 _ => ?_) s
  refine logging_look.bind (fun bp s2 _ => wp_ite (fun _ => ?_) fun _ => logging_pure s2) s1
  refine logging_balloc.bind (fun b s3 _ => ?_) s2
  exact logging_logWrite.bind (fun _ s4 _ => logging_pure s4) s3

theorem logging_writeLoop {fuel : Nat} : Logging ip (writeLoop ip fuel off src) fun _ _ => True := by
  induction fuel generalizing off src with
  | zero => exact logging_pure
  | succ fuel ih =>
    intro s
    refine wp_ite (fun _ => logging_pure s) fun _ => ?_
    refine logging_bmap.bind (fun b s1 _ => ?_) s
    refine logging_look.bind (fun bp s2 _ => ?_) s1
    exact logging_logWrite.bind (fun _ s3 _ => ih s3) s2

theorem logging_writei {dev : Int} : Logging ip (writei dev ip src off) fun _ _ => True := by
  unfold writei
  refine logging_look.bind fun d s1 _ => wp_ite (fun _ => logging_pure s1) fun _ =>
    wp_ite (fun _ => logging_pure s1) fun _ => wp_ite (fun _ => logging_pure s1) fun _ => ?_
  have hgrow : Logging ip (growTo ip src.length (off + src.length)) fun _ _ => True := by
    unfold growTo
    refine logging_look.bind fun d s2 _ => wp_ite (fun _ => ?_) fun _ => logging_pure s2
    refine wp_write ?_
    have hupdate : Logging ip (iupdate ip) fun _ _ => True := by
      unfold iupdate
      refine logging_look.bind fun sb s3 _ => logging_look.bind (fun j s4 _ => ?_) s3
      refine logging_look.bind (fun bp s5 _ => ?_) s4
      exact wp_mono (logging_logWrite s5) (fun _ _ h => ⟨h.1, trivial⟩) fun _ _ h => h
    refine wp_mono (hupdate _) (fun _ s3 h3 => ⟨⟨h3.1.mono, h3.1.disk, ?_⟩, trivial⟩) fun _ _ h => h
    have htable := h3.1.table
    have hcopy : ((s2.setCopy ip fun d => { d with size := UInt32.ofNat (off + src.length) }).inode ip).copy
        = { (s2.inode ip).copy with size := UInt32.ofNat (off + src.length) } := by
      simp [setCopy, setInode]
    rw [hcopy] at htable
    exact htable
  refine logging_writeLoop.bind (fun _ s2 _ => ?_) s1
  exact hgrow.bind (fun _ s3 _ => logging_pure s3) s2

/-! ## The number of blocks -/

def OneBitmap (sb : Superblock) : Prop := ∀ a < sb.size, ∀ b < sb.size, sb.bblock a = sb.bblock b

/-- The blocks that `writei` passes to `log_write` for `n` bytes from `off` on:
    those of the bytes, the bitmap and the indirect block if blocks are missing,
    and that of the inode if the file grows. -/
def chunkCost (s : Fs) (i off n : Nat) : Nat :=
  (spans off n).card
    + (if ∃ k ∈ spans off n, (s.node i).block k = 0 then 1 else 0)
    + (if ∃ k ∈ spans off n, NDIRECT ≤ k ∧ (s.node i).block k = 0 then 1 else 0)
    + (if (s.node i).size < off + n then 1 else 0)

section Cost

variable (hinv : s.Inv cnt none) (hip : 0 < cnt ip) (hv : (s.inode ip).valid = true)
  (h : Stored cnt s s' ip off src) (hlogs : Logs ip s s')
variable {k b x : Nat} {c : Prop}

theorem exists_byte {n : Nat} (hk : k ∈ spans off n) : ∃ t < n, (off + t) / BSIZE = k := by
  obtain ⟨-, hn, hlo, hhi⟩ := mem_spans.mp hk
  simp only [BSIZE] at *
  refine ⟨max off (k * 512) - off, by omega, by omega⟩

include h in
theorem Stored.data_logged (hk : k ∈ spans off src.length) :
    (s'.node (s.inode ip).inum).block k ∈ s'.lg := by
  obtain ⟨t, ht, heq⟩ := exists_byte hk
  rw [← heq]
  exact h.logged t ht

include h in
theorem Stored.block_ne (hk : k ∈ spans off src.length) : (s'.node (s.inode ip).inum).block k ≠ 0 :=
  h.mapped k (mem_places.mpr (.inl hk))

include h in
theorem Stored.not_used (h0 : (s.node (s.inode ip).inum).block k = 0) :
    ¬ Used s.node ((s'.node (s.inode ip).inum).block k) := by
  rintro ⟨hne, i', k', heq⟩
  by_cases hi : i' = (s.inode ip).inum
  · rw [hi] at heq
    have hkeep := h.keep k' (by rw [heq]; exact hne)
    have hsame := (h.inv.own.inj hne (heq.symm.trans hkeep.symm)).2
    rw [← hsame, h0] at heq
    exact hne heq.symm
  · have hother := h.others i' hi
    rw [← hother] at heq
    exact hi (h.inv.own.inj hne heq.symm).1.symm

include hinv h hlogs in
theorem Stored.bitmap_logged (hk : k ∈ spans off src.length)
    (h0 : (s.node (s.inode ip).inum).block k = 0) :
    s.sb.bblock ((s'.node (s.inode ip).inum).block k) ∈ s'.lg := by
  have hne := h.block_ne hk
  obtain ⟨hlo, hlt⟩ := h.inv.own.range hne
  rcases hlogs.disk (s.sb.bblock ((s'.node (s.inode ip).inum).block k)) with hsame | hlog
  · have hset := (h.inv.bits _ hlt).mpr (.inr (used_of_block hne))
    unfold bitOf at hset
    rw [h.sb, hsame] at hset
    rw [h.sb] at hlo hlt
    rcases (hinv.bits _ hlt).mp hset with hmeta | hused
    · omega
    · exact absurd hused (h.not_used h0)
  · exact hlog

include hinv hip hv h in
theorem Stored.logged_lt (hempty : s.lg = ∅) (hb : b ∈ s'.lg) : b < 2 ^ 32 := by
  have hsize := hinv.layout.size_lt
  have hdata : ∀ k, (s'.node (s.inode ip).inum).block k < 2 ^ 32 := by
    intro k
    by_cases h0 : (s'.node (s.inode ip).inum).block k = 0
    · rw [h0]
      decide
    · have hlt := (h.inv.own.range h0).2
      rw [h.sb] at hlt
      omega
  have hstart : s.sb.datastart ≤ s.sb.size := Nat.sub_le ..
  rcases h.log b hb with hold | ⟨k, -, rfl⟩ | ⟨k, -, -, ⟨x, hx, rfl⟩ | ⟨-, rfl⟩⟩ | ⟨-, rfl⟩
  · rw [hempty] at hold
    exact absurd hold (notMem_empty b)
  · exact hdata k
  · have hlt := (hinv.layout.bitmap x hx).2
    omega
  · exact hdata MAXFILE
  · have hlt := (hinv.layout.inodes _ (hinv.slots.inum ip hip hv)).2
    omega

include hinv hip hv h hlogs in
theorem Stored.table_logged (hempty : s.lg = ∅) (hk : k ∈ spans off src.length)
    (hlisted : NDIRECT ≤ k) (h0 : (s.node (s.inode ip).inum).block k = 0) :
    (s'.node (s.inode ip).inum).block MAXFILE ∈ s'.lg := by
  have hv' : (s'.inode ip).valid = true := (h.valid ip).trans hv
  have hnode := hinv.slots.node_of_valid hip hv
  have hnode' := h.inv.slots.node_of_valid hip hv'
  rw [h.inum ip] at hnode'
  have hne : (s'.node (s.inode ip).inum).block MAXFILE ≠ 0 :=
    h.mapped MAXFILE (mem_places.mpr (.inr ⟨rfl, k, hk, hlisted⟩))
  have hkmax := (mem_spans.mp hk).1
  have htable' : (s'.node (s.inode ip).inum).block MAXFILE = (s'.inode ip).copy.addr NDIRECT := by
    rw [hnode']
    rfl
  have hentry : ∀ (disk : Nat → Block) (d : Dinode), place disk d k = listed disk d (k - NDIRECT) :=
    fun disk d => by rw [place, if_neg (by omega), if_pos hkmax]
  rw [htable'] at hne ⊢
  rcases hlogs.table with hsame | ⟨b, hb, hnew⟩
  · rcases hlogs.disk ((s'.inode ip).copy.addr NDIRECT) with hdisk | hlog
    · have hblock := h.block_ne hk
      rw [hnode'] at hblock
      rw [hnode] at h0
      dsimp only at hblock h0
      rw [hentry, listed, if_neg hne, hdisk] at hblock
      rw [hsame] at hne hblock
      rw [hentry, listed, if_neg hne] at h0
      exact absurd h0 hblock
    · exact hlog
  · rw [hnew, Nat.mod_eq_of_lt (h.logged_lt hinv hip hv hempty hb)]
    exact hb

include hinv hip hv h hlogs in
theorem Stored.inode_logged (hgrow : (s.node (s.inode ip).inum).size < off + src.length) :
    s.sb.iblock (s.inode ip).inum ∈ s'.lg := by
  have hi := hinv.slots.inum ip hip hv
  have hi' : (s.inode ip).inum < s'.sb.ninodes := by
    rw [h.sb]
    exact hi
  rcases hlogs.disk (s.sb.iblock (s.inode ip).inum) with hsame | hlog
  · have hdinode : s'.dinodeAt (s.inode ip).inum = s.dinodeAt (s.inode ip).inum := by
      unfold dinodeAt
      rw [h.sb, hsame]
    have hsize := h.size
    rw [node_of_lt hi', h.inv.slots.cur_eq, hdinode] at hsize
    rw [node_of_lt hi, hinv.slots.cur_eq] at hsize hgrow
    unfold Dinode.node at hsize hgrow
    split at hsize
    · rename_i hfree
      rw [if_pos hfree] at hgrow
      simp only [Node.free] at hsize hgrow
      omega
    · rename_i hfree
      rw [if_neg hfree] at hgrow
      simp only at hsize hgrow
      omega
  · exact hlog

theorem mem_ite_singleton [Decidable c] : b ∈ (if c then {x} else ∅ : Finset Nat) ↔ c ∧ b = x := by
  split
  · rename_i hc
    simp [hc]
  · rename_i hc
    simp [hc]

theorem card_ite_singleton [Decidable c] :
    (if c then {x} else ∅ : Finset Nat).card = if c then 1 else 0 := by
  split
  · rfl
  · rfl

include hinv hip hv h hlogs in
theorem Stored.lg_eq (hempty : s.lg = ∅) (hone : OneBitmap s.sb) : s'.lg
    = (spans off src.length).image (s'.node (s.inode ip).inum).block
      ∪ (if ∃ k ∈ spans off src.length, (s.node (s.inode ip).inum).block k = 0
        then {s.sb.bblock 0} else ∅)
      ∪ (if ∃ k ∈ spans off src.length, NDIRECT ≤ k ∧ (s.node (s.inode ip).inum).block k = 0
        then {(s'.node (s.inode ip).inum).block MAXFILE} else ∅)
      ∪ (if (s.node (s.inode ip).inum).size < off + src.length
        then {s.sb.iblock (s.inode ip).inum} else ∅) := by
  ext b
  rw [mem_union, mem_union, mem_union, mem_image, mem_ite_singleton,
    mem_ite_singleton, mem_ite_singleton]
  constructor
  · intro hb
    rcases h.log b hb with hold | ⟨k, hk, rfl⟩ | ⟨k, hk, h0, ⟨x, hx, rfl⟩ | ⟨hlisted, rfl⟩⟩ | hgrow
    · rw [hempty] at hold
      exact absurd hold (notMem_empty b)
    · exact .inl (.inl (.inl ⟨k, hk, rfl⟩))
    · exact .inl (.inl (.inr ⟨⟨k, hk, h0⟩, hone x hx 0 (by omega)⟩))
    · exact .inl (.inr ⟨⟨k, hk, hlisted, h0⟩, rfl⟩)
    · exact .inr hgrow
  · rintro (((⟨k, hk, rfl⟩ | ⟨⟨k, hk, h0⟩, rfl⟩) | ⟨⟨k, hk, hlisted, h0⟩, rfl⟩) | ⟨hgrow, rfl⟩)
    · exact h.data_logged hk
    · have hlt := (h.inv.own.range (h.block_ne hk)).2
      rw [h.sb] at hlt
      rw [hone 0 (by omega) _ hlt]
      exact h.bitmap_logged hinv hlogs hk h0
    · exact h.table_logged hinv hip hv hlogs hempty hk hlisted h0
    · exact h.inode_logged hinv hip hv hlogs hgrow

include hinv hip hv h hlogs in
/-- **The blocks that `writei` logs are as many as `chunkCost` says.** -/
theorem Stored.card_lg (hempty : s.lg = ∅) (hone : OneBitmap s.sb) :
    s'.lg.card = s.chunkCost (s.inode ip).inum off src.length := by
  -- data blocks lie behind the bitmap and the inodes
  have hdata : ∀ k, (s'.node (s.inode ip).inum).block k ≠ 0 →
      s.sb.datastart ≤ (s'.node (s.inode ip).inum).block k := by
    intro k hne
    rw [← h.sb]
    exact (h.inv.own.range hne).1
  have hi := hinv.slots.inum ip hip hv
  have hinode := (hinv.layout.inodes _ hi).2
  have hinj : Set.InjOn (s'.node (s.inode ip).inum).block (spans off src.length) := by
    intro k hk k' _ heq
    exact (h.inv.own.inj (h.block_ne hk) heq).2
  have htable : (∃ k ∈ spans off src.length, NDIRECT ≤ k ∧
      (s.node (s.inode ip).inum).block k = 0) → (s'.node (s.inode ip).inum).block MAXFILE ≠ 0 := by
    rintro ⟨k, hk, hlisted, -⟩
    exact h.mapped MAXFILE (mem_places.mpr (.inr ⟨rfl, k, hk, hlisted⟩))
  have hbitmap : (∃ k ∈ spans off src.length, (s.node (s.inode ip).inum).block k = 0) →
      0 < s.sb.size := by
    rintro ⟨k, hk, -⟩
    have hlt := (h.inv.own.range (h.block_ne hk)).2
    rw [h.sb] at hlt
    omega
  rw [h.lg_eq hinv hip hv hlogs hempty hone, card_union_of_disjoint,
    card_union_of_disjoint, card_union_of_disjoint, card_image_of_injOn hinj,
    card_ite_singleton, card_ite_singleton, card_ite_singleton, chunkCost]
  · refine disjoint_left.mpr fun b hb hmap => ?_
    obtain ⟨k, hk, rfl⟩ := mem_image.mp hb
    obtain ⟨hmissing, heq⟩ := mem_ite_singleton.mp hmap
    have hlo := hdata k (h.block_ne hk)
    have hhi := (hinv.layout.bitmap 0 (hbitmap hmissing)).2
    omega
  · refine disjoint_left.mpr fun b hb hmap => ?_
    obtain ⟨hmissing, heq⟩ := mem_ite_singleton.mp hmap
    have hne := htable hmissing
    have hlo := hdata MAXFILE hne
    rcases mem_union.mp hb with hb | hb
    · obtain ⟨k, hk, rfl⟩ := mem_image.mp hb
      have hsame := (h.inv.own.inj hne heq.symm).2
      have hlt := (mem_spans.mp hk).1
      omega
    · obtain ⟨hany, hbm⟩ := mem_ite_singleton.mp hb
      have hhi := (hinv.layout.bitmap 0 (hbitmap hany)).2
      omega
  · refine disjoint_left.mpr fun b hb hmap => ?_
    obtain ⟨-, heq⟩ := mem_ite_singleton.mp hmap
    rcases mem_union.mp hb with hb | hb
    · rcases mem_union.mp hb with hb | hb
      · obtain ⟨k, hk, rfl⟩ := mem_image.mp hb
        have hlo := hdata k (h.block_ne hk)
        omega
      · obtain ⟨hany, hbm⟩ := mem_ite_singleton.mp hb
        exact hinv.layout.apart _ hi 0 (hbitmap hany) (heq.symm.trans hbm)
    · obtain ⟨hmissing, htb⟩ := mem_ite_singleton.mp hb
      have hlo := hdata MAXFILE (htable hmissing)
      omega

end Cost

end Xv6.Fs
