/-
  Xv6.Fs.Icache

  The invariant of the file system, and the functions that only handle slots of
  the inode cache.
-/

import Xv6.Fs.Nodes

namespace Xv6.Fs

open Function Wp List

variable {s s' s'' : Fs} {cnt cnt' : ISlot → Nat} {ip j : ISlot} {i : Nat} {f : Inode → Inode}
  {lax : Prop}
variable {msg : String} {d : Option ISlot} {Q : ISlot → Fs → Prop}

/-! ## Counting references -/

def plus (cnt : ISlot → Nat) (ip : ISlot) : ISlot → Nat := update cnt ip (cnt ip + 1)

@[simp] theorem plus_self : plus cnt ip ip = cnt ip + 1 := update_self ..

theorem plus_of_ne (h : j ≠ ip) : plus cnt ip j = cnt j := update_of_ne h ..

theorem le_plus : cnt j ≤ plus cnt ip j := by
  by_cases h : j = ip
  · subst h
    rw [plus_self]
    omega
  · rw [plus_of_ne h]

theorem plus_pos : 0 < plus cnt ip ip := by
  rw [plus_self]
  omega

theorem plus_pos_of_pos (h : 0 < cnt j) : 0 < plus cnt ip j := lt_of_lt_of_le h le_plus

theorem plus_comm (cnt : ISlot → Nat) (ip jp : ISlot) :
    plus (plus cnt ip) jp = plus (plus cnt jp) ip := by
  funext k
  by_cases hi : k = ip <;> by_cases hj : k = jp
  · subst hi
    subst hj
    rfl
  · subst hi
    rw [plus_of_ne hj, plus_self, plus_self, plus_of_ne hj]
  · subst hj
    rw [plus_self, plus_of_ne hi, plus_of_ne hi, plus_self]
  · rw [plus_of_ne hj, plus_of_ne hi, plus_of_ne hi, plus_of_ne hj]

/-! ## The invariant -/

structure Slots (s : Fs) (cnt : ISlot → Nat) (dirty : Option ISlot) : Prop extends s.Cache cnt where
  sync : ∀ j, 0 < cnt j → (s.inode j).valid = true → dirty ≠ some j →
    (s.inode j).copy = s.dinodeAt (s.inode j).inum
  typed : ∀ j, 0 < cnt j → (s.inode j).valid = true → (s.inode j).copy.type ≠ 0

structure Core (s : Fs) (cnt : ISlot → Nat) (dirty : Option ISlot) (U : Nat → Prop) : Prop where
  layout : s.sb.Layout
  super : getSuper (s.disk 1) = s.sb
  slots : s.Slots cnt dirty
  own : Owned s.sb s.node
  bits : s.Bits U
  overlap : s.overlap = false

structure Inv (s : Fs) (cnt : ISlot → Nat) (dirty : Option ISlot) : Prop extends
    s.Core cnt dirty (Used s.node) where
  full : Full s.node

structure Fails (lax : Prop) (e : Halt) (s : Fs) : Prop where
  blocks : e ≠ .panic "freeing free block"
  type : e = .panic "ilock: no type" → lax
  files : e ≠ .panic "filedup" ∧ e ≠ .panic "fileclose"
  overlap : s.overlap = false

theorem Fails.of_panic (h : s.overlap = false)
    (hmsg : msg ∉ ["freeing free block", "ilock: no type", "filedup", "fileclose"]) :
    Fails lax (.panic msg) s where
  blocks := fun he => hmsg (by rw [Halt.panic.inj he]; decide)
  type := fun he => absurd (by rw [Halt.panic.inj he]; decide) hmsg
  files := ⟨fun he => hmsg (by rw [Halt.panic.inj he]; decide),
    fun he => hmsg (by rw [Halt.panic.inj he]; decide)⟩
  overlap := h

theorem Core.fails {U : Nat → Prop} (h : s.Core cnt d U)
    (hmsg : msg ∉ ["freeing free block", "ilock: no type", "filedup", "fileclose"]) :
    Fails lax (.panic msg) s :=
  .of_panic h.overlap hmsg

theorem Slots.cur_eq (h : s.Slots cnt none) : s.cur i = s.dinodeAt i := by
  by_cases hlive : ∃ j, s.Live j i
  · obtain ⟨j, hj⟩ := hlive
    obtain ⟨hpos, hinum, hvalid⟩ := h.live_iff.mp hj
    rw [h.cur_of_live hj, h.sync j hpos hvalid (by simp), hinum]
  · exact cur_of_idle (not_exists.mp hlive)

theorem Slots.cur_of_valid (h : s.Slots cnt d) (hip : 0 < cnt ip)
    (hv : (s.inode ip).valid = true) : s.cur (s.inode ip).inum = (s.inode ip).copy :=
  h.cur_of_live (h.live_iff.mpr ⟨hip, rfl, hv⟩)

theorem Slots.node_of_valid (h : s.Slots cnt d) (hip : 0 < cnt ip)
    (hv : (s.inode ip).valid = true) :
    s.node (s.inode ip).inum
      = ⟨(s.inode ip).copy.type, (s.inode ip).copy.major, (s.inode ip).copy.minor,
          (s.inode ip).copy.nlink, (s.inode ip).copy.size.toNat,
          place s.disk (s.inode ip).copy⟩ := by
  rw [node_of_lt (h.inum ip hip hv), h.cur_of_valid hip hv, Dinode.node_of_type (h.typed ip hip hv)]

theorem Inv.dirty (h : s.Inv cnt none) : s.Inv cnt (some ip) :=
  { h with slots := { h.slots with sync := fun j hj hv _ => h.slots.sync j hj hv (by simp) } }

/-! ## Changing a slot -/

@[simp] theorem setInode_op : (s.setInode ip f).op = s.op := rfl
@[simp] theorem setInode_dinodeAt : (s.setInode ip f).dinodeAt i = s.dinodeAt i := rfl

@[simp] theorem setInode_self : (s.setInode ip f).inode ip = f (s.inode ip) := update_self ..

theorem setInode_of_ne (h : j ≠ ip) : (s.setInode ip f).inode j = s.inode j :=
  update_of_ne h ..

theorem Slots.set (h : s.Slots cnt none) (hcnt : ∀ j ≠ ip, cnt' j = cnt j)
    (href : (f (s.inode ip)).ref = cnt' ip)
    (hinum : 0 < cnt' ip → ∀ j ≠ ip, 0 < cnt j → (s.inode j).inum ≠ (f (s.inode ip)).inum)
    (hvalid : 0 < cnt' ip → (f (s.inode ip)).valid = true → (f (s.inode ip)).inum < s.sb.ninodes ∧
      (f (s.inode ip)).copy = s.dinodeAt (f (s.inode ip)).inum ∧ (f (s.inode ip)).copy.type ≠ 0) :
    (s.setInode ip f).Slots cnt' none where
  ref := by
    intro j
    by_cases hj : j = ip
    · rw [hj, setInode_self, href]
    · rw [setInode_of_ne hj, hcnt j hj, h.ref]
  uniq := by
    intro j j' hpos hpos' heq
    by_cases hj : j = ip <;> by_cases hj' : j' = ip
    · rw [hj, hj']
    · subst hj
      rw [setInode_self, setInode_of_ne hj'] at heq
      rw [hcnt j' hj'] at hpos'
      exact absurd heq.symm (hinum hpos j' hj' hpos')
    · subst hj'
      rw [setInode_self, setInode_of_ne hj] at heq
      rw [hcnt j hj] at hpos
      exact absurd heq (hinum hpos' j hj hpos)
    · rw [setInode_of_ne hj, setInode_of_ne hj'] at heq
      rw [hcnt j hj] at hpos
      rw [hcnt j' hj'] at hpos'
      exact h.uniq j j' hpos hpos' heq
  inum := by
    intro j hpos hv
    by_cases hj : j = ip
    · subst hj
      rw [setInode_self] at hv ⊢
      exact (hvalid hpos hv).1
    · rw [setInode_of_ne hj] at hv ⊢
      rw [hcnt j hj] at hpos
      exact h.inum j hpos hv
  sync := by
    intro j hpos hv hd
    by_cases hj : j = ip
    · subst hj
      rw [setInode_self] at hv ⊢
      exact (hvalid hpos hv).2.1
    · rw [setInode_of_ne hj] at hv ⊢
      rw [hcnt j hj] at hpos
      exact h.sync j hpos hv hd
  typed := by
    intro j hpos hv
    by_cases hj : j = ip
    · subst hj
      rw [setInode_self] at hv ⊢
      exact (hvalid hpos hv).2.2
    · rw [setInode_of_ne hj] at hv ⊢
      rw [hcnt j hj] at hpos
      exact h.typed j hpos hv

theorem Slots.set_same (h : s.Slots cnt none) (hcnt : ∀ j ≠ ip, cnt' j = cnt j)
    (href : (f (s.inode ip)).ref = cnt' ip) (hpos : 0 < cnt ip)
    (hinum : (f (s.inode ip)).inum = (s.inode ip).inum)
    (hcopy : (f (s.inode ip)).copy = (s.inode ip).copy)
    (hvalid : (f (s.inode ip)).valid = true → (s.inode ip).valid = true) :
    (s.setInode ip f).Slots cnt' none := by
  refine h.set hcnt href (fun _ j hj hcj heq => ?_) fun _ hv => ⟨?_, ?_, ?_⟩
  · rw [hinum] at heq
    exact hj (h.uniq j ip hcj hpos heq)
  · rw [hinum]
    exact h.inum ip hpos (hvalid hv)
  · rw [hcopy, hinum]
    exact h.sync ip hpos (hvalid hv) (by simp)
  · rw [hcopy]
    exact h.typed ip hpos (hvalid hv)

/-! ## Functions that only handle slots -/

structure Quiet (cnt : ISlot → Nat) (s s' : Fs) : Prop where
  disk : s'.disk = s.disk
  sb : s'.sb = s.sb
  op : s'.op = s.op
  ops : s'.ops = s.ops
  node : s'.node = s.node
  inum : ∀ j, 0 < cnt j → (s'.inode j).inum = (s.inode j).inum
  valid : ∀ j, 0 < cnt j → (s.inode j).valid = true → (s'.inode j).valid = true

theorem Quiet.refl : Quiet cnt s s := ⟨rfl, rfl, rfl, rfl, rfl, fun _ _ => rfl, fun _ _ h => h⟩

theorem Quiet.trans (h : Quiet cnt s s') (h' : Quiet cnt s' s'') : Quiet cnt s s'' where
  disk := h'.disk.trans h.disk
  sb := h'.sb.trans h.sb
  op := h'.op.trans h.op
  ops := h'.ops.trans h.ops
  node := h'.node.trans h.node
  inum := fun j hj => (h'.inum j hj).trans (h.inum j hj)
  valid := fun j hj hv => h'.valid j hj (h.valid j hj hv)

theorem Quiet.mono (h : Quiet cnt' s s') (hle : ∀ j, 0 < cnt j → 0 < cnt' j) : Quiet cnt s s' :=
  { h with inum := fun j hj => h.inum j (hle j hj), valid := fun j hj => h.valid j (hle j hj) }

theorem Quiet.less (h : Quiet (plus cnt ip) s s') : Quiet cnt s s' := h.mono fun _ => plus_pos_of_pos

theorem Quiet.ino (h : Quiet cnt s s') : s'.ino = s.ino := by
  funext i
  have hbyte : s'.byteAt = s.byteAt := by
    funext i x
    simp only [byteAt, h.node, h.disk]
  simp only [Fs.ino, h.node, hbyte]

theorem Quiet.lg (h : Quiet cnt s s') : s'.lg = s.lg := by
  rw [Fs.lg, Fs.lg, h.op]

theorem Inv.of_slots (h : s.Inv cnt none) (hslots : s'.Slots cnt' none) (hdisk : s'.disk = s.disk)
    (hsb : s'.sb = s.sb) (hover : s'.overlap = s.overlap) :
    s'.Inv cnt' none ∧ s'.node = s.node := by
  have hnode : s'.node = s.node := by
    refine node_congr hsb (fun i _ => ?_) fun i _ => by rw [hdisk]
    rw [hslots.cur_eq, h.slots.cur_eq, dinodeAt, dinodeAt, hsb, hdisk]
  have hbit : s'.bitOf = s.bitOf := by
    funext b
    rw [bitOf, bitOf, hdisk, hsb]
  refine ⟨⟨⟨?_, ?_, hslots, ?_, ?_, ?_⟩, ?_⟩, hnode⟩
  · rw [hsb]
    exact h.layout
  · rw [hdisk, hsb]
    exact h.super
  · rw [hsb, hnode]
    exact h.own
  · intro b hb
    rw [hbit, hsb, hnode]
    rw [hsb] at hb
    exact h.bits b hb
  · rw [hover]
    exact h.overlap
  · rw [hnode]
    exact h.full

theorem Inv.of_op (h : s.Inv cnt none) (hdisk : s'.disk = s.disk) (hsb : s'.sb = s.sb)
    (hinode : s'.inode = s.inode) (hover : s'.overlap = s.overlap) : s'.Inv cnt none := by
  refine (h.of_slots ⟨⟨?_, ?_, ?_⟩, ?_, ?_⟩ hdisk hsb hover).1
  · rw [hinode]
    exact h.slots.ref
  · rw [hinode]
    exact h.slots.uniq
  · rw [hinode, hsb]
    exact h.slots.inum
  · rw [hinode]
    intro j hj hv hd
    rw [h.slots.sync j hj hv hd, dinodeAt, dinodeAt, hdisk, hsb]
  · rw [hinode]
    exact h.slots.typed

theorem Inv.begun (h : s.Inv cnt none) : s.begun.Inv cnt none := h.of_op rfl rfl rfl rfl

theorem Inv.ended (h : s.Inv cnt none) : s.ended.Inv cnt none := h.of_op rfl rfl rfl rfl

theorem Inv.set_same (h : s.Inv cnt none) (ip : ISlot) (f : Inode → Inode) (hcnt : ∀ j ≠ ip, cnt' j = cnt j)
    (href : (f (s.inode ip)).ref = cnt' ip) (hpos : 0 < cnt ip)
    (hinum : (f (s.inode ip)).inum = (s.inode ip).inum)
    (hcopy : (f (s.inode ip)).copy = (s.inode ip).copy)
    (hvalid : (f (s.inode ip)).valid = (s.inode ip).valid) :
    (s.setInode ip f).Inv cnt' none ∧ Quiet cnt s (s.setInode ip f) := by
  have hslots : (s.setInode ip f).Slots cnt' none :=
    h.slots.set_same hcnt href hpos hinum hcopy fun hv => hvalid ▸ hv
  obtain ⟨hinv, hnode⟩ := h.of_slots hslots rfl rfl rfl
  refine ⟨hinv, rfl, rfl, rfl, rfl, hnode, fun j _ => ?_, fun j _ hv => ?_⟩
  · by_cases hj : j = ip
    · rw [hj, setInode_self, hinum]
    · rw [setInode_of_ne hj]
  · by_cases hj : j = ip
    · rw [hj] at hv ⊢
      rw [setInode_self, hvalid, hv]
    · rw [setInode_of_ne hj, hv]

theorem wp_idup (h : s.Inv cnt none) (hip : 0 < cnt ip)
    (hQ : ∀ s', s'.Inv (plus cnt ip) none → Quiet cnt s s' → Q ip s') :
    wp (idup ip) Q (Fails lax) s := by
  simp only [idup, onInode, wp_bind, wp_change, wp_pure]
  obtain ⟨hinv, hquiet⟩ := h.set_same ip (fun i => { i with ref := i.ref + 1 })
    (fun j hj => plus_of_ne hj) (by simp [h.slots.ref]) hip rfl rfl rfl
  exact hQ _ hinv hquiet

theorem wp_iget {E : Halt → Fs → Prop} (h : s.Inv cnt none)
    (hQ : ∀ ip s', s'.Inv (plus cnt ip) none → Quiet cnt s s' → (s'.inode ip).inum = i →
      (cnt ip = 0 → (s'.inode ip).valid = false) → Q ip s')
    (hfull : (∀ j, 0 < cnt j) → E (.panic "iget: no inodes") s) : wp (iget i) Q E s := by
  simp only [iget, wp_bind, wp_look]
  cases hhit : (finRange NINODE).find? fun j =>
      decide (0 < (s.inode j).ref ∧ (s.inode j).inum = i) with
  | some ip =>
    have hfound := find?_some hhit
    simp only [decide_eq_true_eq, h.slots.ref, Int.natCast_pos] at hfound
    simp only [onInode, wp_bind, wp_change, wp_pure]
    obtain ⟨hinv, hquiet⟩ := h.set_same ip (fun i => { i with ref := i.ref + 1 })
      (fun j hj => plus_of_ne hj) (by simp [h.slots.ref]) hfound.1 rfl rfl rfl
    refine hQ ip _ hinv hquiet ?_ fun h0 => ?_
    · rw [hquiet.inum ip hfound.1, hfound.2]
    · have := hfound.1
      omega
  | none =>
    have hmiss : ∀ j, 0 < cnt j → (s.inode j).inum ≠ i := by
      intro j hj heq
      have := find?_eq_none.mp hhit j (mem_finRange j)
      simp [h.slots.ref, hj, heq] at this
    simp only [wp_bind, wp_look]
    cases hempty : (finRange NINODE).find? fun j => decide ((s.inode j).ref = 0) with
    | none =>
      refine hfull fun j => ?_
      have := find?_eq_none.mp hempty j (mem_finRange j)
      simp only [h.slots.ref, decide_eq_true_eq] at this
      omega
    | some ip =>
      have hzero : cnt ip = 0 := by
        have := find?_some hempty
        simpa [h.slots.ref] using this
      simp only [onInode, wp_bind, wp_change, wp_pure]
      -- nobody refers to the slot, so its old content does not matter
      have hslots : (s.setInode ip fun x => { x with inum := i, ref := 1, valid := false }).Slots
          (plus cnt ip) none := by
        refine h.slots.set (fun j hj => plus_of_ne hj) (by simp [hzero])
          (fun _ j _ hj => hmiss j hj) fun _ hv => ?_
        exact absurd hv (by simp)
      obtain ⟨hinv, hnode⟩ := h.of_slots hslots rfl rfl rfl
      have hother : ∀ j, 0 < cnt j → j ≠ ip := by
        intro j hj heq
        rw [heq, hzero] at hj
        omega
      refine hQ ip _ hinv ⟨rfl, rfl, rfl, rfl, hnode, fun j hj => ?_, fun j hj hv => ?_⟩ (by simp)
        (by simp)
      · rw [setInode_of_ne (hother j hj)]
      · rw [setInode_of_ne (hother j hj), hv]

theorem wp_ilock {Q : Unit → Fs → Prop} (h : s.Inv cnt none) (hip : 0 < cnt ip)
    (hi : (s.inode ip).inum < s.sb.ninodes) (htype : lax ∨ (s.ino (s.inode ip).inum).type ≠ 0)
    (hQ : ∀ s', s'.Inv cnt none → Quiet cnt s s' → (s'.inode ip).valid = true → Q () s') :
    wp (ilock ip) Q (Fails lax) s := by
  simp only [ilock, onInode, wp_bind, wp_look]
  refine wp_ite (fun _ => ⟨by simp, by simp, by simp, h.overlap⟩) fun _ =>
    wp_ite (fun _ => ⟨by simp, by simp, by simp, h.overlap⟩) fun _ => ?_
  simp only [wp_bind, wp_change]
  refine wp_ite (fun hv => ?_) fun hv => ?_
  · obtain ⟨hinv, hquiet⟩ := h.set_same ip (fun i => { i with locked := true })
      (fun j hj => rfl) (by simp [h.slots.ref]) hip rfl rfl rfl
    exact hQ _ hinv hquiet (by simpa using hv)
  · simp only [wp_bind, wp_look, wp_change]
    have hdisk : (s.ino (s.inode ip).inum).type = (s.dinodeAt (s.inode ip).inum).type := by
      show (s.node (s.inode ip).inum).type = _
      rw [node_of_lt hi, h.slots.cur_eq, Dinode.node_type]
    refine wp_ite (fun h0 => ⟨by simp, fun _ => ?_, by simp, h.overlap⟩) fun hne => ?_
    · exact htype.resolve_right fun ht => ht (hdisk.trans h0)
    -- both changes at once
    have hboth : (s.setInode ip fun i => { i with locked := true }).setInode ip
          (fun i => { i with
            copy := (s.setInode ip fun i => { i with locked := true }).dinodeAt (s.inode ip).inum
            valid := true })
        = s.setInode ip fun i => { i with
            locked := true, copy := s.dinodeAt (s.inode ip).inum, valid := true } := by
      simp only [setInode, update_self, update_idem]
      rfl
    rw [hboth]
    have hslots : (s.setInode ip fun i => { i with
        locked := true, copy := s.dinodeAt (s.inode ip).inum, valid := true }).Slots cnt none :=
      h.slots.set (fun j hj => rfl) (by simp [h.slots.ref])
        (fun _ j hj hcj heq => hj (h.slots.uniq j ip hcj hip heq))
        fun _ _ => ⟨hi, rfl, hne⟩
    obtain ⟨hinv, hnode⟩ := h.of_slots hslots rfl rfl rfl
    refine hQ _ hinv ⟨rfl, rfl, rfl, rfl, hnode, fun j _ => ?_, fun j _ hvj => ?_⟩ (by simp)
    · by_cases hj : j = ip
      · rw [hj, setInode_self]
      · rw [setInode_of_ne hj]
    · by_cases hj : j = ip
      · rw [hj, setInode_self]
      · rw [setInode_of_ne hj, hvj]

theorem wp_iunlock {Q : Unit → Fs → Prop} (h : s.Inv cnt none) (hip : 0 < cnt ip)
    (hQ : ∀ s', s'.Inv cnt none → Quiet cnt s s' → Q () s') : wp (iunlock ip) Q (Fails lax) s := by
  simp only [iunlock, onInode, wp_bind, wp_look]
  refine wp_ite (fun _ => ⟨by simp, by simp, by simp, h.overlap⟩) fun _ => ?_
  simp only [wp_change]
  obtain ⟨hinv, hquiet⟩ := h.set_same ip (fun i => { i with locked := false })
    (fun j hj => rfl) (by simp [h.slots.ref]) hip rfl rfl rfl
  exact hQ _ hinv hquiet

end Xv6.Fs
