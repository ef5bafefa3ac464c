/-
  Xv6.Fs.Update

  Inodes written to disk: `iupdate`, the changes of an inode's fields that are
  followed by it, and `ialloc`.
-/

import Xv6.Fs.Icache

namespace Xv6.Fs

open Function List Wp

variable {s s' s'' : Fs} {cnt cnt' : ISlot → Nat} {ip j : ISlot} {i : Nat} {d : Option ISlot}
  {U : Nat → Prop} {lax : Prop}
variable {F : List Nat} {k k' : Nat} {Q : Unit → Fs → Prop} {type : Int16}

/-! ## What a function keeps -/

structure Kept (cnt : ISlot → Nat) (s s' : Fs) : Prop where
  sb : s'.sb = s.sb
  isSome : s'.op.isSome = s.op.isSome
  ops : s'.ops = s.ops
  inum : ∀ j, 0 < cnt j → (s'.inode j).inum = (s.inode j).inum
  valid : ∀ j, 0 < cnt j → (s.inode j).valid = true → (s'.inode j).valid = true
  type : ∀ j, 0 < cnt j → (s.ino (s.inode j).inum).type ≠ 0 →
    (s'.ino (s.inode j).inum).type = (s.ino (s.inode j).inum).type

theorem Kept.trans (h : Kept cnt s s') (h' : Kept cnt s' s'') : Kept cnt s s'' where
  sb := h'.sb.trans h.sb
  isSome := h'.isSome.trans h.isSome
  ops := h'.ops.trans h.ops
  inum := fun j hj => (h'.inum j hj).trans (h.inum j hj)
  valid := fun j hj hv => h'.valid j hj (h.valid j hj hv)
  type := by
    intro j hj ht
    have h1 := h.type j hj ht
    have h2 := h'.type j hj
    rw [h.inum j hj, h1] at h2
    exact h2 ht

theorem Kept.mono (h : Kept cnt' s s') (hle : ∀ j, 0 < cnt j → 0 < cnt' j) : Kept cnt s s' :=
  { h with
    inum := fun j hj => h.inum j (hle j hj)
    valid := fun j hj => h.valid j (hle j hj)
    type := fun j hj => h.type j (hle j hj) }

theorem Kept.less (h : Kept (plus cnt ip) s s') : Kept cnt s s' := h.mono fun _ => plus_pos_of_pos

theorem Quiet.kept (h : Quiet cnt s s') : Kept cnt s s' where
  sb := h.sb
  isSome := by rw [h.op]
  ops := h.ops
  inum := h.inum
  valid := h.valid
  type := fun j _ _ => by rw [h.ino]

/-! ## How much a function writes -/

def Spent (s s' : Fs) (F : List Nat) (k : Nat) : Prop :=
  ∃ X : List Nat, X.length ≤ k ∧
    ∀ c ∈ s'.lg, c ∈ s.lg ∨ (∃ b < s.sb.size, s.sb.bblock b = c) ∨ c ∈ F ∨ c ∈ X

theorem Spent.refl : Spent s s F k := ⟨[], by simp, fun _ hc => .inl hc⟩

theorem Quiet.spent (h : Quiet cnt s s') : Spent s s' F k := by
  refine ⟨[], by simp, fun c hc => .inl ?_⟩
  rw [h.lg] at hc
  exact hc

theorem Spent.trans (h : Spent s s' F k) (hsb : s'.sb = s.sb)
    (h' : Spent s' s'' F k') : Spent s s'' F (k + k') := by
  obtain ⟨X, hX, hspent⟩ := h
  obtain ⟨X', hX', hspent'⟩ := h'
  refine ⟨X ++ X', by rw [length_append]; omega, fun c hc => ?_⟩
  rw [hsb] at hspent'
  rcases hspent' c hc with hold | hbm | hF | hnew
  · rcases hspent c hold with h0 | hbm | hF | hnew
    · exact .inl h0
    · exact .inr (.inl hbm)
    · exact .inr (.inr (.inl hF))
    · exact .inr (.inr (.inr (mem_append_left _ hnew)))
  · exact .inr (.inl hbm)
  · exact .inr (.inr (.inl hF))
  · exact .inr (.inr (.inr (mem_append_right _ hnew)))

theorem Spent.quiet (h : Spent s s' F k) (hq : Quiet cnt s' s'') : Spent s s'' F k := by
  obtain ⟨X, hX, hspent⟩ := h
  refine ⟨X, hX, fun c hc => hspent c ?_⟩
  rw [hq.lg] at hc
  exact hc

theorem Quiet.then_spent (hq : Quiet cnt s s') (h : Spent s' s'' F k) : Spent s s'' F k := by
  obtain ⟨X, hX, hspent⟩ := h
  rw [hq.lg, hq.sb] at hspent
  exact ⟨X, hX, hspent⟩

theorem Spent.mono {F' : List Nat} (h : Spent s s' F k) (hF : F ⊆ F') (hk : k ≤ k') :
    Spent s s' F' k' := by
  obtain ⟨X, hX, hspent⟩ := h
  refine ⟨X, by omega, fun c hc => ?_⟩
  rcases hspent c hc with h0 | hbm | hmem | hnew
  · exact .inl h0
  · exact .inr (.inl hbm)
  · exact .inr (.inr (.inl (hF hmem)))
  · exact .inr (.inr (.inr hnew))

/-! ## The inode as it is now -/

section Copy

variable {f : Dinode → Dinode}

@[simp] theorem setCopy_disk : (s.setCopy ip f).disk = s.disk := rfl
@[simp] theorem setCopy_sb : (s.setCopy ip f).sb = s.sb := rfl
@[simp] theorem setCopy_op : (s.setCopy ip f).op = s.op := rfl

@[simp] theorem setCopy_self : ((s.setCopy ip f).inode ip).copy = f (s.inode ip).copy := by
  simp [setCopy]

@[simp] theorem setCopy_inum : ((s.setCopy ip f).inode j).inum = (s.inode j).inum := by
  by_cases hj : j = ip
  · subst hj
    simp [setCopy]
  · rw [setCopy, setInode_of_ne hj]

@[simp] theorem setCopy_valid : ((s.setCopy ip f).inode j).valid = (s.inode j).valid := by
  by_cases hj : j = ip
  · subst hj
    simp [setCopy]
  · rw [setCopy, setInode_of_ne hj]

@[simp] theorem setCopy_ref : ((s.setCopy ip f).inode j).ref = (s.inode j).ref := by
  by_cases hj : j = ip
  · subst hj
    simp [setCopy]
  · rw [setCopy, setInode_of_ne hj]

theorem setCopy_of_ne (h : j ≠ ip) : (s.setCopy ip f).inode j = s.inode j := setInode_of_ne h

theorem Slots.setCopy (h : s.Slots cnt (some ip))
    (hf : (s.inode ip).valid = true → (f (s.inode ip).copy).type ≠ 0) :
    (s.setCopy ip f).Slots cnt (some ip) where
  ref := fun j => by rw [setCopy_ref, h.ref]
  uniq := by
    intro j j' hj hj' heq
    rw [setCopy_inum, setCopy_inum] at heq
    exact h.uniq j j' hj hj' heq
  inum := fun j hj hv => by
    rw [setCopy_valid] at hv
    rw [setCopy_inum]
    exact h.inum j hj hv
  sync := by
    intro j hj hv hd
    have hne : j ≠ ip := fun heq => hd (by rw [heq])
    rw [setCopy_of_ne hne] at hv ⊢
    exact h.sync j hj hv hd
  typed := by
    intro j hj hv
    rw [setCopy_valid] at hv
    by_cases hji : j = ip
    · subst hji
      rw [setCopy_self]
      exact hf hv
    · rw [setCopy_of_ne hji]
      exact h.typed j hj hv

theorem live_setCopy : (s.setCopy ip f).Live j i ↔ s.Live j i := by
  unfold Live
  rw [setCopy_ref, setCopy_inum, setCopy_valid]

theorem cur_setCopy_of_ne (hi : i ≠ (s.inode ip).inum) : (s.setCopy ip f).cur i = s.cur i := by
  refine cur_congr (fun j => live_setCopy) (fun j hj => ?_) rfl
  have hne : j ≠ ip := by
    rintro rfl
    exact hi hj.2.1.symm
  rw [setCopy_of_ne hne]

theorem node_setCopy_of_ne (hi : i ≠ (s.inode ip).inum) : (s.setCopy ip f).node i = s.node i := by
  unfold node
  rw [setCopy_sb, setCopy_disk, cur_setCopy_of_ne hi]

theorem Slots.node_setCopy_self (h : (s.setCopy ip f).Slots cnt d) (hip : 0 < cnt ip)
    (hv : (s.inode ip).valid = true) :
    (s.setCopy ip f).node (s.inode ip).inum
      = ⟨(f (s.inode ip).copy).type, (f (s.inode ip).copy).major, (f (s.inode ip).copy).minor,
          (f (s.inode ip).copy).nlink, (f (s.inode ip).copy).size.toNat,
          place s.disk (f (s.inode ip).copy)⟩ := by
  have hnode := h.node_of_valid hip (by rw [setCopy_valid]; exact hv)
  rw [setCopy_inum, setCopy_self, setCopy_disk] at hnode
  exact hnode

end Copy

/-! ## Writing an inode -/

def store (s : Fs) (i : Nat) (dip : Dinode) : Fs :=
  s.put (s.sb.iblock i) (putDinode (s.disk (s.sb.iblock i)) (i % IPB) dip)

section Store

variable {dip : Dinode}
variable {k m : Nat}

@[simp] theorem store_sb : (s.store i dip).sb = s.sb := rfl
@[simp] theorem store_inode : (s.store i dip).inode = s.inode := rfl
@[simp] theorem store_isSome : (s.store i dip).op.isSome = s.op.isSome := put_isSome

theorem store_disk_of_ne {c : Nat} (h : c ≠ s.sb.iblock i) : (s.store i dip).disk c = s.disk c :=
  put_disk_of_ne h

theorem lg_store (hop : s.op.isSome) : (s.store i dip).lg = insert (s.sb.iblock i) s.lg := lg_put hop

@[simp] theorem dinodeAt_store_self : (s.store i dip).dinodeAt i = dip := by
  show getDinode ((s.store i dip).disk (s.sb.iblock i)) (i % IPB) = dip
  rw [store, put_disk_self]
  exact getDinode_putDinode_self _ _ (Nat.mod_lt _ (by decide))

theorem dinodeAt_store_of_ne (h : k ≠ i) : (s.store i dip).dinodeAt k = s.dinodeAt k := by
  show getDinode ((s.store i dip).disk (s.sb.iblock k)) (k % IPB) = s.dinodeAt k
  by_cases hb : s.sb.iblock k = s.sb.iblock i
  · -- the inodes share a block, so they are at different places in it
    have hplace : k % IPB ≠ i % IPB := by
      simp only [Superblock.iblock, IPB] at hb ⊢
      omega
    rw [hb, store, put_disk_self, getDinode_putDinode_of_ne _ _ hplace, dinodeAt, hb]
  · rw [store_disk_of_ne hb, dinodeAt]

theorem cur_store_of_ne (h : k ≠ i) : (s.store i dip).cur k = s.cur k :=
  cur_congr (fun _ => Iff.rfl) (fun _ _ => rfl) (dinodeAt_store_of_ne h)

theorem Core.iblock_ne (h : s.Core cnt d U) (hi : i < s.sb.ninodes)
    (hne : (s.node m).block k ≠ 0) : (s.node m).block k ≠ s.sb.iblock i := by
  have hlo := (h.own.range hne).1
  have hhi := (h.layout.inodes i hi).2
  omega

theorem Core.node_store_of_ne (h : s.Core cnt d U) (hi : i < s.sb.ninodes) (hm : m ≠ i) :
    (s.store i dip).node m = s.node m :=
  node_congr_at rfl (fun _ => cur_store_of_ne hm) fun hne => store_disk_of_ne (h.iblock_ne hi hne)

theorem Bits.store (h : s.Bits U) (hl : s.sb.Layout) (hi : i < s.sb.ninodes) :
    (s.store i dip).Bits U := h.put fun b hb => (hl.apart i hi b hb).symm

theorem Core.super_store (h : s.Core cnt d U) (hi : i < s.sb.ninodes) :
    getSuper ((s.store i dip).disk 1) = s.sb := by
  have hlo := (h.layout.inodes i hi).1
  rw [store_disk_of_ne (by omega), h.super]

end Store

theorem wp_iupdate_store {E : Halt → Fs → Prop} (hop : s.op.isSome)
    (hQ : Q () (s.store (s.inode ip).inum (s.inode ip).copy)) : wp (iupdate ip) Q E s := by
  simp only [iupdate, bread, wp_bind, wp_look]
  exact wp_logWrite hop hQ

theorem Inv.store (h : s.Inv cnt (some ip)) (hip : 0 < cnt ip) (hv : (s.inode ip).valid = true) :
    (s.store (s.inode ip).inum (s.inode ip).copy).Inv cnt none ∧
      (s.store (s.inode ip).inum (s.inode ip).copy).node = s.node ∧
      (s.store (s.inode ip).inum (s.inode ip).copy).ino = s.ino := by
  have hi := h.slots.inum ip hip hv
  have hslots : (s.store (s.inode ip).inum (s.inode ip).copy).Slots cnt none := by
    refine { h.slots with sync := fun j hj hvj _ => ?_ }
    by_cases hji : j = ip
    · subst hji
      rw [store_inode, dinodeAt_store_self]
    · have hne : (s.inode j).inum ≠ (s.inode ip).inum := fun heq =>
        hji (h.slots.uniq j ip hj hip heq)
      rw [store_inode, dinodeAt_store_of_ne hne]
      exact h.slots.sync j hj hvj fun heq => hji (Option.some.inj heq).symm
  have hnode : (s.store (s.inode ip).inum (s.inode ip).copy).node = s.node := by
    refine node_congr rfl (fun m _ => ?_) fun m hne => store_disk_of_ne (h.iblock_ne hi hne)
    by_cases hm : m = (s.inode ip).inum
    · rw [hm, h.slots.cur_of_valid hip hv]
      exact hslots.cur_of_valid hip hv
    · exact cur_store_of_ne hm
  refine ⟨⟨⟨h.layout, h.super_store hi, hslots, ?_, ?_, h.overlap⟩, ?_⟩, hnode, ?_⟩
  · rw [hnode]
    exact h.own
  · rw [hnode]
    exact h.bits.store h.layout hi
  · rw [hnode]
    exact h.full
  · exact ino_congr h.full hnode fun m k _ hne => store_disk_of_ne (h.iblock_ne hi hne)

theorem Inv.of_blocks {d' : Option ISlot} (h : s.Inv cnt d) (hslots : s'.Slots cnt' d')
    (hsb : s'.sb = s.sb) (hsuper : getSuper (s'.disk 1) = s.sb)
    (hover : s'.overlap = s.overlap) (hbit : ∀ b < s.sb.size, s'.bitOf b = s.bitOf b)
    (hblock : ∀ m, (s'.node m).block = (s.node m).block ∧ (s'.node m).size = (s.node m).size) :
    s'.Inv cnt' d' := by
  refine ⟨⟨?_, ?_, hslots, ?_, fun b hb => ?_, hover.trans h.overlap⟩, fun m => ?_, fun m k hk => ?_⟩
  · rw [hsb]
    exact h.layout
  · rw [hsb, hsuper]
  · rw [hsb]
    exact h.own.congr fun m => (hblock m).1
  · rw [hsb] at hb ⊢
    rw [hbit b hb, h.bits b hb, used_congr fun m => (hblock m).1]
  · rw [(hblock m).2]
    exact h.full.small m
  · rw [(hblock m).2] at hk
    rw [(hblock m).1]
    exact h.full.mapped m k hk

theorem wp_setMeta {f : Dinode → Dinode} (h : s.Inv cnt none)
    (hip : 0 < cnt ip) (hv : (s.inode ip).valid = true) (hop : s.op.isSome)
    (hf : ∀ dip, (f dip).type = dip.type ∧ (f dip).size = dip.size ∧ (f dip).addrs = dip.addrs)
    (hQ : ∀ s', s'.Inv cnt none → Kept cnt s s' → Spent s s' [s.sb.iblock (s.inode ip).inum] 0 →
      s'.ino = update s.ino (s.inode ip).inum
        { s.ino (s.inode ip).inum with
          major := (f (s.inode ip).copy).major
          minor := (f (s.inode ip).copy).minor
          nlink := (f (s.inode ip).copy).nlink } → Q () s') :
    wp (do onCopy ip f; iupdate ip) Q (Fails lax) s := by
  obtain ⟨htype, hsize, haddrs⟩ := hf (s.inode ip).copy
  have ht := h.slots.typed ip hip hv
  have hslots : (s.setCopy ip f).Slots cnt (some ip) :=
    h.dirty.slots.setCopy fun _ => by rw [htype]; exact ht
  -- the node changes in these fields only
  have hplace : place s.disk (f (s.inode ip).copy) = place s.disk (s.inode ip).copy :=
    place_of_addrs haddrs
  have hold := h.slots.node_of_valid hip hv
  have hnew := hslots.node_setCopy_self hip hv
  rw [hplace, htype, hsize] at hnew
  have hblock : ∀ m, ((s.setCopy ip f).node m).block = (s.node m).block ∧
      ((s.setCopy ip f).node m).size = (s.node m).size := by
    intro m
    by_cases hm : m = (s.inode ip).inum
    · rw [hm, hnew, hold]
      exact ⟨rfl, rfl⟩
    · rw [node_setCopy_of_ne hm]
      exact ⟨rfl, rfl⟩
  have hinv : (s.setCopy ip f).Inv cnt (some ip) :=
    h.of_blocks hslots rfl h.super rfl (fun _ _ => rfl) hblock
  have hino : (s.setCopy ip f).ino = update s.ino (s.inode ip).inum
      { s.ino (s.inode ip).inum with
        major := (f (s.inode ip).copy).major
        minor := (f (s.inode ip).copy).minor
        nlink := (f (s.inode ip).copy).nlink } := by
    have hbyte : (s.setCopy ip f).byteAt = s.byteAt := by
      funext m x
      simp only [byteAt, (hblock m).1, setCopy_disk]
    funext m
    by_cases hm : m = (s.inode ip).inum
    · subst hm
      rw [update_self]
      simp only [ino, hbyte, hnew, hold]
    · rw [update_of_ne hm]
      simp only [ino, hbyte, node_setCopy_of_ne hm]
  obtain ⟨hinv', -, hino'⟩ := hinv.store hip (by rw [setCopy_valid]; exact hv)
  rw [setCopy_inum, setCopy_self] at hinv' hino'
  rw [hino] at hino'
  simp only [onCopy, wp_bind, wp_change]
  refine wp_iupdate_store hop ?_
  rw [setCopy_inum, setCopy_self]
  refine hQ _ hinv' ⟨rfl, ?_, rfl, fun j _ => ?_, fun j _ hvj => ?_, fun j _ _ => ?_⟩
    ⟨[], by simp, fun c hc => ?_⟩ hino'
  · rw [store_isSome, setCopy_op]
  · rw [store_inode, setCopy_inum]
  · rw [store_inode, setCopy_valid, hvj]
  · rw [hino']
    by_cases hm : (s.inode j).inum = (s.inode ip).inum
    · rw [hm, update_self]
    · rw [update_of_ne hm]
  · rw [lg_store (s := s.setCopy ip f) hop, Finset.mem_insert] at hc
    rcases hc with rfl | hc
    · exact .inr (.inr (.inl (by simp)))
    · exact .inl hc

/-! ## Allocating an inode -/

theorem Inv.inum_ne_of_free (h : s.Inv cnt none) (hfree : (s.dinodeAt i).type = 0) (hj : 0 < cnt j)
    (hv : (s.inode j).valid = true) : (s.inode j).inum ≠ i := by
  intro heq
  have ht := h.slots.typed j hj hv
  rw [h.slots.sync j hj hv (by simp), heq] at ht
  exact ht hfree

theorem Inv.node_of_free (h : s.Inv cnt none) (hfree : (s.dinodeAt i).type = 0) :
    s.node i = Node.free := by
  by_cases hi : i < s.sb.ninodes
  · rw [node_of_lt hi, h.slots.cur_eq, Dinode.node, if_pos hfree]
  · exact node_of_ge (by omega)

theorem Inv.storeFresh (h : s.Inv cnt none) (hi : i < s.sb.ninodes)
    (hfree : (s.dinodeAt i).type = 0) (ht : type ≠ 0) :
    (s.store i (Dinode.fresh type)).Inv cnt none ∧
      (s.store i (Dinode.fresh type)).ino = update s.ino i (Ino.fresh type) := by
  have hslots : (s.store i (Dinode.fresh type)).Slots cnt none := by
    refine { h.slots with sync := fun j hj hv hd => ?_ }
    rw [store_inode, dinodeAt_store_of_ne (h.inum_ne_of_free hfree hj hv)]
    exact h.slots.sync j hj hv hd
  have hplace : place (s.store i (Dinode.fresh type)).disk (Dinode.fresh type) = fun _ => 0 := by
    funext k
    simp [place, listed, Dinode.addr_fresh]
  have hnew : (s.store i (Dinode.fresh type)).node i = ⟨type, 0, 0, 0, 0, fun _ => 0⟩ := by
    rw [node_of_lt (by rw [store_sb]; exact hi), hslots.cur_eq, dinodeAt_store_self,
      Dinode.node_of_type ht, hplace]
    rfl
  have hold : s.node i = Node.free := h.node_of_free hfree
  refine ⟨h.of_blocks hslots rfl (h.super_store hi) rfl (fun b hb => ?_) fun m => ?_, ?_⟩
  · exact bitOf_put_of_ne (h.layout.apart i hi b hb).symm
  · by_cases hm : m = i
    · rw [hm, hnew, hold]
      exact ⟨rfl, rfl⟩
    · rw [h.node_store_of_ne hi hm]
      exact ⟨rfl, rfl⟩
  · funext m
    by_cases hm : m = i
    · rw [hm, update_self]
      simp only [ino, hnew]
      rfl
    · rw [update_of_ne hm]
      have hnode : (s.store i (Dinode.fresh type)).node m = s.node m := h.node_store_of_ne hi hm
      have hbytes : ∀ x < (s.node m).size, (s.store i (Dinode.fresh type)).byteAt m x = s.byteAt m x := by
        intro x hx
        have hmapped := h.full.mapped m _ (lt_of_le_of_lt (Nat.div_mul_le_self x BSIZE) hx)
        rw [byteAt, byteAt, hnode, store_disk_of_ne (h.iblock_ne hi hmapped)]
      unfold ino
      rw [hnode]
      congr 1
      exact map_congr_left fun x hx => hbytes x (mem_range.mp hx)

theorem wp_ialloc {Q : ISlot → Fs → Prop} (h : s.Inv cnt none) (hop : s.op.isSome) (ht : type ≠ 0)
    (hQ : ∀ ip s', s'.Inv (plus cnt ip) none → Kept cnt s s' →
      Spent s s' [s.sb.iblock (s'.inode ip).inum] 0 → 0 < (s'.inode ip).inum →
      (s'.inode ip).inum < s.sb.ninodes → s.ino (s'.inode ip).inum = Ino.free →
      s'.ino = update s.ino (s'.inode ip).inum (Ino.fresh type) → Q ip s') :
    wp (ialloc type) Q (Fails lax) s := by
  simp only [ialloc, wp_bind, wp_look]
  cases hfind : (List.range' 1 (s.sb.ninodes - 1)).find? fun i =>
      decide ((s.dinodeAt i).type = 0) with
  | none => exact ⟨by simp, by simp, by simp, h.overlap⟩
  | some i =>
    have hmem := mem_range'_1.mp (mem_of_find?_eq_some hfind)
    have hi : i < s.sb.ninodes := by omega
    have hfree : (s.dinodeAt i).type = 0 := by
      simpa using List.find?_some hfind
    obtain ⟨hinv, hino⟩ := h.storeFresh hi hfree ht
    have hnode := h.node_of_free hfree
    simp only [bread, wp_bind, wp_look]
    refine wp_logWrite hop (wp_iget hinv (fun ip s' hinv' hquiet hinum _ => ?_) fun _ =>
      hinv.fails (by simp))
    refine hQ ip s' hinv' ⟨hquiet.sb, ?_, hquiet.ops, fun j hj => ?_, fun j hj hv => ?_,
      fun j hj htj => ?_⟩ ⟨[], by simp, fun c hc => ?_⟩ (by rw [hinum]; omega)
      (by rw [hinum]; exact hi) ?_ ?_
    · rw [hquiet.op]
      exact store_isSome
    · exact hquiet.inum j hj
    · exact hquiet.valid j hj hv
    · have hne : (s.inode j).inum ≠ i := by
        intro heq
        rw [heq, ino_eq_free hnode] at htj
        exact htj rfl
      rw [hquiet.ino]
      show ((s.store i (Dinode.fresh type)).ino (s.inode j).inum).type = _
      rw [hino, update_of_ne hne]
    · rw [hquiet.lg] at hc
      have hlg : (s.store i (Dinode.fresh type)).lg = insert (s.sb.iblock i) s.lg := lg_store hop
      have hc' : c ∈ (s.store i (Dinode.fresh type)).lg := hc
      rw [hlg, Finset.mem_insert] at hc'
      rcases hc' with rfl | hc'
      · exact .inr (.inr (.inl (by rw [hinum]; simp)))
      · exact .inl hc'
    · rw [hinum]
      exact ino_eq_free hnode
    · rw [hquiet.ino, hinum]
      exact hino

end Xv6.Fs
