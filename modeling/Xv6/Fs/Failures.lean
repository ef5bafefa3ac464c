/-
  Xv6.Fs.Failures

  System calls on names that return -1: what they leave behind.

  A call gives up before it has written anything (`Left`), or it takes back
  what it has written: `sys_link` counts the new link first, and uncounts it.
  Only `sys_open` does neither.  It creates a file before it looks for a
  descriptor, and when there is none the file stays.
-/

import Xv6.Fs.Resolve

namespace Xv6

open Wp Transition Tree

namespace Fs

variable {s s' s'' s₀ : Fs} {cnt : ISlot → Nat} {ip dp cwd : ISlot} {lax : Prop}
  {path name : List UInt8}

structure Unchanged (s s' : Fs) : Prop where
  inode : ∀ i, s'.dinodeAt i = s.dinodeAt i
  content : s'.ino = s.ino
  bitmap : ∀ b < s.sb.size, s'.bitOf b = s.bitOf b

theorem Left.unchanged (h : Left cnt s₀ s) (htended : s₀.Tended cnt) : Unchanged s₀ s where
  inode := fun i => by rw [dinodeAt, dinodeAt, h.disk, h.walk.kept.sb]
  content := (h.walk.still htended).1
  bitmap := fun b _ => by rw [bitOf, bitOf, h.disk, h.walk.kept.sb]

section Got

variable {Q : Unit → Fs → Prop} (h : Got lax cnt s₀ s ip)

include h

theorem Got.quiet (hq : Quiet (plus cnt ip) s s') (hinv : s'.Inv (plus cnt ip) none) :
    Got lax cnt s₀ s' ip :=
  ⟨h.found.quiet hq hinv, hq.disk.trans h.disk⟩

theorem Got.isSome (hop : s₀.op.isSome) : s.op.isSome := by
  rw [h.found.walk.kept.isSome]
  exact hop

theorem Got.wp_ilock (hQ : ∀ s', Got lax cnt s₀ s' ip → Quiet (plus cnt ip) s s' →
    (s'.inode ip).valid = true → Q () s') : wp (ilock ip) Q (fun _ _ => True) s :=
  wp_loose (h.found.wp_ilock fun s' hf hq hv => hQ s' ⟨hf, hq.disk.trans h.disk⟩ hq hv)

theorem Got.wp_iunlockput (hv : (s.inode ip).valid = true) (hop : s₀.op.isSome)
    (htended : s₀.Tended cnt) (hQ : ∀ s', Left cnt s₀ s' → Q () s') :
    wp (iunlockput ip) Q (fun _ _ => True) s :=
  wp_iunlockput_held h.found.inv hv (h.isSome hop) (.inr fun _ _ => trivial)
    fun s' hinv hdrop _ hdisk => hQ s'
      ⟨hinv, h.found.walk.drop hdrop (fun _ hj => hj) h.found.not_last,
        (hdisk (h.found.not_last htended)).trans h.disk⟩

end Got

section Unlink

variable (h : Starts lax cnt cwd s₀) (htended : s₀.Tended cnt)

include h htended

theorem wp_unlinkInode_fails {off x : Nat} (hg : Got lax cnt s₀ s dp)
    (hv : (s.inode dp).valid = true) (hdir : (s.ino (s.inode dp).inum).type = T_DIR)
    (hfound : dirFind (s.dirBytes dp) name = some (x, off))
    (hinv : s'.Inv (plus (plus cnt dp) ip) none) (hq : Quiet (plus cnt dp) s s')
    (hx : (s'.inode ip).inum = x) :
    wp (unlinkInode dp ip off) (fun r s1 => r = -1 → Left cnt s₀ s1) (fun _ _ => True) s' := by
  have hf := hg.found
  have hwalk : Walk cnt s₀ s' := hf.walk.trans hq.less.walk
  have hi : (s'.inode ip).inum < s'.sb.ninodes := by
    rw [hx, hwalk.kept.sb]
    exact hf.entry_lt hdir hfound h.sane
  have htype : lax ∨ (s'.ino (s'.inode ip).inum).type ≠ 0 := by
    rw [hx, hq.ino]
    exact hf.entry_type hdir hfound h.calm
  refine wp_seq (wp_loose (wp_ilock hinv plus_pos hi htype fun s1 hinv1 hq1 hv1 => ?_))
  obtain ⟨-, -, hnlink⟩ := hinv1.copy_eq plus_pos hv1
  refine wp_read ?_
  rw [hnlink]
  refine wp_ite (fun _ => trivial) fun hlinks => ?_
  have hwalk1 : Walk cnt s₀ s1 := hwalk.trans hq1.less.less.walk
  have hsane1 : Tree.Sane s1.ino s1.sb.ninodes := by
    rw [hwalk1.kept.sb]
    exact hwalk1.sane h.sane
  refine wp_seq (wp_notEmpty hinv1 plus_pos hv1 hsane1 fun full _ => ?_)
  refine wp_ite (fun _ => ?_) fun _ => ?_
  · -- the inode has links, so it stays when it is put
    have hnot : ¬ s1.Last (plus cnt dp) ip := by
      rintro ⟨-, -, hn⟩
      rw [hn] at hlinks
      exact hlinks (by decide)
    have hvd1 : (s1.inode dp).valid = true :=
      hq1.valid dp (plus_pos_of_pos plus_pos) (hq.valid dp plus_pos hv)
    refine wp_seq (wp_iunlockput_held hinv1 hv1 (by rw [hwalk1.kept.isSome]; exact h.op)
      (.inr fun _ _ => trivial) fun s2 hinv2 hdrop2 _ hdisk2 => ?_)
    have hd2 : (s2.inode dp).inum = (s.inode dp).inum :=
      (hdrop2.kept.inum dp plus_pos).trans
        ((hq1.inum dp (plus_pos_of_pos plus_pos)).trans (hq.inum dp plus_pos))
    have hino2 : s2.ino = s.ino := (hdrop2.same hnot).1.trans (hq1.ino.trans hq.ino)
    have hg2 : Got lax cnt s₀ s2 dp := by
      refine ⟨⟨hwalk1.drop hdrop2 (fun j => plus_pos_of_pos) fun _ => hnot, hinv2, ?_, ?_, ?_⟩,
        (hdisk2 hnot).trans (hq1.disk.trans (hq.disk.trans hg.disk))⟩
      · rw [hd2]
        exact hf.inum
      · rw [hd2, hino2]
        exact hf.type
      · rw [hd2]
        exact hf.known
    exact wp_seq (hg2.wp_iunlockput (hdrop2.kept.valid dp plus_pos hvd1) h.op htended
      fun s3 hleft _ => hleft)
  · -- the rest returns 0
    refine wp_seq (wp_any fun r s2 => wp_ite (fun _ => trivial) fun _ => ?_)
    refine wp_seq (wp_any fun _ _ => wp_seq (wp_any fun _ _ => wp_seq (wp_any
      fun _ _ => wp_seq (wp_any fun _ _ => ?_))))
    exact fun h0 => absurd h0 (by decide)

theorem wp_unlinkAt_fails (hg : Got lax cnt s₀ s dp) :
    wp (unlinkAt dp name) (fun r s1 => r = -1 → Left cnt s₀ s1) (fun _ _ => True) s := by
  refine wp_seq (hg.wp_ilock fun s1 hg1 _ hv1 => wp_ite (fun _ => ?_) fun _ => ?_)
  · exact wp_seq (hg1.wp_iunlockput hv1 h.op htended fun _ hleft _ => hleft)
  · refine wp_seq (wp_dirlookup hg1.found.inv plus_pos hv1 (fun _ _ _ => ?_)
      (fun x off ip s2 hdir hfound hinv2 hq2 hx _ => ?_) (fun _ => trivial) (fun _ => trivial)
      fun _ => trivial)
    · exact wp_seq (hg1.wp_iunlockput hv1 h.op htended fun _ hleft _ => hleft)
    · exact wp_unlinkInode_fails h htended hg1 hv1 hdir hfound hinv2 hq2 hx

end Unlink

def NewName (s : Fs) (cwd : ISlot) (path : List UInt8) : Prop :=
  ∃ x name, steps s.ino true (s.origin cwd path) (components path) = some (x, name) ∧
    lookup s.ino x name = none

structure Created (cnt : ISlot → Nat) (s₀ s : Fs) (ip : ISlot) : Prop where
  inv : s.Inv (plus cnt ip) none
  valid : (s.inode ip).valid = true
  isSome : s.op.isSome = s₀.op.isSome
  sb : s.sb = s₀.sb
  free : s₀.ino (s.inode ip).inum = Ino.free
  type : (s.ino (s.inode ip).inum).type = T_FILE
  nlink : (s.ino (s.inode ip).inum).nlink = 1

section Create

variable (h : Starts lax cnt cwd s₀) (htended : s₀.Tended cnt)

include h htended

/-- **`create`** finds a file or makes one, or has written nothing. -/
theorem wp_create_fails {type major minor : Int16} (ht : type ≠ 0)
    {Q : Option ISlot → Fs → Prop}
    (hnone : ∀ s', Left cnt s₀ s' → ¬ s₀.NewName cwd path → Q none s')
    (hold : ∀ ip s', Got lax cnt s₀ s' ip → (s'.inode ip).valid = true → ¬ s₀.NewName cwd path →
      Q (some ip) s')
    (hnew : ∀ ip s', (type = T_FILE → Created cnt s₀ s' ip) → s₀.NewName cwd path → Q (some ip) s') :
    wp (create cwd path type major minor) Q (fun _ _ => True) s₀ := by
  refine wp_seq (wp_namex_steps h htended (.inr fun _ _ => trivial)
    (fun s1 hleft _ hno => hnone s1 hleft ?_) fun dp x name s1 hat hsteps => ?_)
  · rintro ⟨x, name, hsteps, -⟩
    rw [hno] at hsteps
    cases hsteps
  refine wp_seq (hat.toGot.wp_ilock fun s2 hg2 hq2 hv2 => ?_)
  have hd2 : (s2.inode dp).inum = x := (hq2.inum dp plus_pos).trans hat.inum
  have hino2 := (hg2.found.walk.still htended).1
  have hlook : (s2.ino (s2.inode dp).inum).type = T_DIR →
      lookup s₀.ino x name = (dirFind (s2.dirBytes dp) name).map Prod.fst := by
    intro hdir
    rw [hino2, hd2] at hdir
    rw [lookup, if_pos hdir, dirBytes, hino2, hd2]
  refine wp_seq (wp_dirlookup hg2.found.inv plus_pos hv2 (fun hdir hmiss _ => ?_)
    (fun y off ip s3 hdir hfound hinv3 hq3 hy _ => ?_) (fun _ => trivial) (fun _ => trivial)
    fun _ => trivial)
  · have hname : s₀.NewName cwd path := by
      refine ⟨x, name, hsteps, ?_⟩
      rw [hlook hdir, hmiss]
      rfl
    refine wp_seq (wp_loose (E := Fails lax) (wp_createNew hg2.found.inv hv2 (hg2.isSome h.op) hdir
      hmiss ht fun ip s4 hinv4 hv4 hm4 _ hfree htype hlink => hnew ip s4 (fun hfile => ?_) hname))
    refine ⟨hinv4, hv4, hm4.kept.isSome.trans hg2.found.walk.kept.isSome,
      hm4.kept.sb.trans hg2.found.walk.kept.sb, ?_, htype.trans hfile, hlink ?_⟩
    · rw [← hino2]
      exact hfree
    · rw [hfile]
      decide
  · have hname : ¬ s₀.NewName cwd path := by
      rintro ⟨x', name', hsteps', hno⟩
      rw [hsteps] at hsteps'
      obtain ⟨rfl, rfl⟩ := Prod.mk.inj (Option.some.inj hsteps')
      rw [hlook hdir, hfound] at hno
      exact absurd hno (by simp)
    rw [plus_comm] at hinv3
    refine wp_seq (wp_iunlockput_held hinv3 (hq3.valid dp plus_pos hv2)
      (by rw [hq3.op]; exact hg2.isSome h.op) (.inr fun _ _ => trivial)
      fun s4 hinv4 hdrop4 _ hdisk4 => ?_)
    have hg4 : Got lax cnt s₀ s4 ip :=
      ⟨hg2.found.next hdir hfound h.sane h.calm hv2 hq3 hy hdrop4 hinv4,
        (hdisk4 (hg2.found.not_last_next htended hv2 hq3)).trans (hq3.disk.trans hg2.disk)⟩
    refine wp_seq (hg4.wp_ilock fun s5 hg5 _ hv5 => wp_read ?_)
    refine wp_ite (fun _ => hold ip s5 hg5 hv5 hname) fun _ => ?_
    exact wp_seq (hg5.wp_iunlockput hv5 h.op htended fun s' hleft => hnone s' hleft hname)

end Create

/-! ## `sys_link` -/

structure Rewritten (x : Nat) (d : Dinode) (s s' : Fs) : Prop where
  self : s'.dinodeAt x = d
  other : ∀ i, i ≠ x → s'.dinodeAt i = s.dinodeAt i
  bitmap : ∀ b < s.sb.size, s'.bitOf b = s.bitOf b

theorem wp_addLink_rewrites {Q : Unit → Fs → Prop} {k : Int16} (h : s.Inv cnt none)
    (hip : 0 < cnt ip) (hv : (s.inode ip).valid = true) (hop : s.op.isSome)
    (hQ : ∀ s', s'.Inv cnt none → Moves cnt cnt cnt s s' →
      s'.ino = addLinks s.ino (s.inode ip).inum k →
      Rewritten (s.inode ip).inum
        { s.dinodeAt (s.inode ip).inum with nlink := (s.dinodeAt (s.inode ip).inum).nlink + k } s s' →
      Q () s') : wp (addLink ip k) Q (fun _ _ => True) s := by
  have hadd : wp (addLink ip k) (fun _ s' => s'.Inv cnt none ∧ Moves cnt cnt cnt s s' ∧
      s'.ino = addLinks s.ino (s.inode ip).inum k) (Fails False) s :=
    wp_addLink h hip hv hop fun s' hinv hm _ hino => ⟨hinv, hm, hino⟩
  have hi := h.slots.inum ip hip hv
  have hsync := h.slots.sync ip hip hv (by simp)
  have hwrite : wp (addLink ip k) (fun _ s' => Rewritten (s.inode ip).inum
      { s.dinodeAt (s.inode ip).inum with nlink := (s.dinodeAt (s.inode ip).inum).nlink + k } s s')
      (fun _ _ => True) s := by
    refine wp_write (wp_iupdate_store hop ⟨?_, fun i hne => ?_, fun b hb => ?_⟩)
    · have hcopy : ((s.setCopy ip fun d => { d with nlink := d.nlink + k }).inode ip).copy
          = { (s.inode ip).copy with nlink := (s.inode ip).copy.nlink + k } :=
        congrArg Inode.copy setInode_self
      rw [setCopy_inum, dinodeAt_store_self, hcopy, hsync]
    · rw [setCopy_inum, dinodeAt_store_of_ne hne]
      rfl
    · rw [setCopy_inum, bitOf, store_disk_of_ne]
      · rfl
      · exact fun heq => h.layout.apart _ hi b hb heq.symm
  refine wp_mono (wp_and hadd hwrite) (fun _ s' h' => ?_) fun _ _ _ => trivial
  exact hQ s' h'.1.1 h'.1.2.1 h'.1.2.2 h'.2

theorem wp_linkAt_fails (h : Starts lax cnt cwd s) (htended : s.Tended cnt) (hip : 0 < cnt ip)
    (hi : (s.inode ip).inum < s.sb.ninodes) :
    wp (linkAt cwd ip path) (fun ok s1 => ok = false → Left cnt s s1) (fun _ _ => True) s := by
  refine wp_seq (wp_namex_steps h htended (.inr fun _ _ => trivial)
    (fun s1 hleft _ _ _ => hleft) fun dp x name s1 hat _ => ?_)
  refine wp_seq (hat.toGot.wp_ilock fun s2 hg2 hq2 hv2 => ?_)
  have hx : (s2.inode ip).inum = (s.inode ip).inum := hg2.found.walk.kept.inum ip hip
  refine wp_read (wp_seq ?_)
  have henter : wp (dirlink dp name (s2.inode ip).inum) (fun r s3 =>
      (r = -1 ∧ Got lax cnt s s3 dp ∧ (s3.inode dp).valid = true) ∨ r = 0) (Fails lax) s2 := by
    refine wp_enter hg2.found.inv plus_pos hv2 (hg2.isSome h.op) ?_ (fun s3 _ _ hinv3 hq3 =>
      .inl ⟨rfl, hg2.quiet hq3 hinv3, hq3.valid dp plus_pos hv2⟩) fun s3 _ _ _ _ _ _ => .inr rfl
    rw [hx, hg2.found.walk.kept.sb]
    exact hi
  refine wp_mono henter (fun r s3 h3 => ?_) fun _ _ _ => trivial
  obtain ⟨-, hg3, hv3⟩ | rfl := h3
  · exact wp_seq (hg3.wp_iunlockput hv3 h.op htended fun s4 hleft _ => hleft)
  · exact wp_seq (wp_any fun _ _ h0 => absurd h0 (by decide))

theorem dinodeAt_of_disk (hdisk : s'.disk = s.disk) (hsb : s'.sb = s.sb) (i : Nat) :
    s'.dinodeAt i = s.dinodeAt i := by
  rw [dinodeAt, dinodeAt, hdisk, hsb]

theorem bitOf_of_disk (hdisk : s'.disk = s.disk) (hsb : s'.sb = s.sb) (b : Nat) :
    s'.bitOf b = s.bitOf b := by
  rw [bitOf, bitOf, hdisk, hsb]

theorem Rewritten.back {x : Nat} {s1 s2 s3 : Fs} {d : Dinode} (h : Rewritten x d s s1)
    (hd : d = { s.dinodeAt x with nlink := (s.dinodeAt x).nlink + 1 })
    (hdisk : s2.disk = s1.disk) (hsb : s2.sb = s1.sb) (hsb1 : s1.sb = s.sb)
    (h' : Rewritten x { s2.dinodeAt x with nlink := (s2.dinodeAt x).nlink + -1 } s2 s3) :
    (∀ i, s3.dinodeAt i = s.dinodeAt i) ∧ ∀ b < s.sb.size, s3.bitOf b = s.bitOf b := by
  refine ⟨fun i => ?_, fun b hb => ?_⟩
  · by_cases hi : i = x
    · rw [hi, h'.self, dinodeAt_of_disk hdisk hsb, h.self, hd]
      have hback : (s.dinodeAt x).nlink + 1 + -1 = (s.dinodeAt x).nlink := by
        rw [Int16.add_assoc]
        exact Int16.add_zero _
      simp only [hback]
    · rw [h'.other i hi, dinodeAt_of_disk hdisk hsb, h.other i hi]
  · rw [h'.bitmap b (by rw [hsb, hsb1]; exact hb), bitOf_of_disk hdisk hsb, h.bitmap b hb]

theorem wp_linkInode_fails (h : Starts lax cnt cwd s₀) (htended : s₀.Tended cnt)
    (hg : Got lax cnt s₀ s ip) :
    wp (linkInode cwd ip path) (fun r s1 => r = -1 → Unchanged s₀ s1) (fun _ _ => True) s := by
  refine wp_seq (hg.wp_ilock fun s1 hg1 _ hv1 => wp_read ?_)
  have hf1 := hg1.found
  refine wp_ite (fun _ => ?_) fun _ => ?_
  · exact wp_seq (hg1.wp_iunlockput hv1 h.op htended fun _ hleft _ => hleft.unchanged htended)
  refine wp_seq (wp_addLink_rewrites hf1.inv plus_pos hv1 (hg1.isSome h.op)
    fun s2 hinv2 hm2 hi2 hw2 => ?_)
  refine wp_seq (wp_iunlock_held hinv2 plus_pos (.inr fun _ _ => trivial) fun s3 hinv3 hq3 _ => ?_)
  -- the state in which the new path is resolved
  have hm3 : Moves (plus cnt ip) (plus cnt ip) (plus cnt ip) s1 s3 := hm2.trans hq3.moves
  have hi3 : s3.ino = addLinks s1.ino (s1.inode ip).inum 1 := hq3.ino.trans hi2
  have hx3 : (s3.inode ip).inum = (s1.inode ip).inum := hm3.kept.inum ip plus_pos
  have hstart : Starts lax (plus cnt ip) cwd s3 :=
    hf1.starts_of_addLinks hv1 hm3.kept hi3 h hinv3 hm3.sane
  have htd3 : s3.Tended (plus cnt ip) := hf1.tended_of_addLinks hv1 hm3.kept hi3 htended
  have hlt3 : (s3.inode ip).inum < s3.sb.ninodes := by
    rw [hx3, hm3.kept.sb, hf1.walk.kept.sb]
    exact hf1.inum
  refine wp_seq (wp_mono (wp_linkAt_fails hstart htd3 plus_pos hlt3) (fun ok s4 h4 => ?_)
    fun _ _ _ => trivial)
  cases ok with
  | true => exact wp_seq (wp_any fun _ _ h0 => absurd h0 (by decide))
  | false =>
    -- the count goes back
    have hleft := h4 rfl
    have hx4 : (s4.inode ip).inum = (s1.inode ip).inum :=
      (hleft.walk.kept.inum ip plus_pos).trans hx3
    have hlt4 : (s4.inode ip).inum < s4.sb.ninodes := by
      rw [hleft.walk.kept.inum ip plus_pos, hleft.walk.kept.sb]
      exact hlt3
    refine wp_seq (wp_ilock_free hleft.inv plus_pos hlt4 (.inr fun _ _ => trivial)
      fun s5 hinv5 hq5 hv5 _ _ => ?_)
    have hx5 : (s5.inode ip).inum = (s1.inode ip).inum := (hq5.inum ip plus_pos).trans hx4
    have hop5 : s5.op.isSome := by
      rw [hq5.op, hleft.walk.kept.isSome]
      exact hstart.op
    refine wp_seq (wp_addLink_rewrites hinv5 plus_pos hv5 hop5 fun s6 hinv6 hm6 hi6 hw6 => ?_)
    have hino6 : s6.ino = s1.ino := by
      rw [hi6, hx5, hq5.ino, (hleft.walk.still htd3).1, hi3, addLinks_cancel]
    have hnot : ¬ s6.Last cnt ip := by
      rintro ⟨h0, -, hn⟩
      rw [hm6.kept.inum ip plus_pos, hx5, hino6] at hn
      exact hf1.not_last htended ⟨h0, hv1, hn⟩
    refine wp_seq (wp_iunlockput_held hinv6 (hm6.kept.valid ip plus_pos hv5)
      (by rw [hm6.kept.isSome]; exact hop5) (.inr fun _ _ => trivial)
      fun s7 _ hdrop7 _ hdisk7 => ?_)
    have hdisk5 : s5.disk = s2.disk := hq5.disk.trans (hleft.disk.trans hq3.disk)
    have hsb5 : s5.sb = s2.sb := hq5.sb.trans (hleft.walk.kept.sb.trans hq3.sb)
    rw [hx5] at hw6
    obtain ⟨hdinode, hbit⟩ := hw2.back rfl hdisk5 hsb5 hm2.kept.sb hw6
    have hsb1 := hf1.walk.kept.sb
    refine fun _ => ⟨fun i => ?_, ?_, fun b hb => ?_⟩
    · rw [dinodeAt_of_disk (hdisk7 hnot) hdrop7.kept.sb, hdinode, dinodeAt_of_disk hg1.disk hsb1]
    · rw [(hdrop7.same hnot).1, hino6, (hf1.walk.still htended).1]
    · rw [bitOf_of_disk (hdisk7 hnot) hdrop7.kept.sb, hbit b (by rw [hsb1]; exact hb),
        bitOf_of_disk hg1.disk hsb1]

/-! ## The calls -/

theorem Unchanged.ended (h : Unchanged s.begun s') : Unchanged s s'.ended :=
  ⟨h.inode, h.content, h.bitmap⟩

section Calls

variable (h : Calls lax cnt cwd s) (htended : s.Tended cnt)

include h htended

theorem wp_link_fails {old new : List UInt8} :
    wp (link cwd old new) (fun r s' => r = -1 → Unchanged s s') (fun _ _ => True) s := by
  refine wp_seq (wp_beginOp.mpr (wp_seq (wp_seq (wp_namex_steps h.starts htended
    (.inr fun _ _ => trivial) (fun s1 hleft _ _ => ?_) fun ip x name s1 hat _ => ?_))))
  · exact fun _ => (hleft.unchanged htended).ended
  · refine wp_seq (wp_mono (wp_linkInode_fails h.starts htended hat.toGot) (fun r s2 h2 => ?_)
      fun _ _ _ => trivial)
    exact fun hr => (h2 hr).ended

theorem wp_unlink_fails :
    wp (unlink cwd path) (fun r s' => r = -1 → Unchanged s s') (fun _ _ => True) s := by
  refine wp_seq (wp_beginOp.mpr (wp_seq (wp_namex_steps h.starts htended
    (.inr fun _ _ => trivial) (fun s1 hleft _ _ => ?_) fun dp x name s1 hat _ => ?_)))
  · exact fun _ => (hleft.unchanged htended).ended
  · refine wp_seq (wp_mono (wp_unlinkAt_fails h.starts htended hat.toGot) (fun r s2 h2 => ?_)
      fun _ _ _ => trivial)
    exact fun hr => ((h2 hr).unchanged htended).ended

theorem wp_make_fails {path : Option (List UInt8)} {type major minor : Int16} (ht : type ≠ 0) :
    wp (make cwd path type major minor) (fun r s' => r = -1 → Unchanged s s') (fun _ _ => True) s := by
  refine wp_seq (wp_beginOp.mpr (wp_seq ?_))
  cases path with
  | none => exact fun _ => Unchanged.ended ⟨fun _ => rfl, rfl, fun _ _ => rfl⟩
  | some path =>
    have hzero : ∀ (ip : ISlot) (s1 : Fs), wp (do iunlockput ip; pure 0)
        (fun r s2 => r = -1 → Unchanged s s2.ended) (fun _ _ => True) s1 := fun ip s1 =>
      wp_seq (wp_any fun _ _ h0 => absurd h0 (by decide))
    refine wp_seq (wp_create_fails h.starts htended ht
      (fun s1 hleft _ _ => (hleft.unchanged htended).ended)
      (fun ip s1 _ _ _ => hzero ip s1) fun ip s1 _ _ => hzero ip s1)

end Calls

theorem wp_openInode_fails {omode : UInt32} {Q : Option ISlot → Fs → Prop}
    (h : Starts lax cnt cwd s₀) (htended : s₀.Tended cnt)
    (hnone : ∀ s', Left cnt s₀ s' → ¬ (omode &&& O_CREATE ≠ 0 ∧ s₀.NewName cwd path) → Q none s')
    (hold : ∀ ip s', Got lax cnt s₀ s' ip → (s'.inode ip).valid = true →
      ¬ (omode &&& O_CREATE ≠ 0 ∧ s₀.NewName cwd path) → Q (some ip) s')
    (hnew : ∀ ip s', Created cnt s₀ s' ip → omode &&& O_CREATE ≠ 0 ∧ s₀.NewName cwd path →
      Q (some ip) s') :
    wp (openInode cwd path omode) Q (fun _ _ => True) s₀ := by
  refine wp_ite (fun hc => ?_) fun hc => ?_
  · exact wp_create_fails h htended (by decide) (fun s1 hleft hno => hnone s1 hleft fun hnew =>
      hno hnew.2) (fun ip s1 hg hv hno => hold ip s1 hg hv fun hnew => hno hnew.2)
      fun ip s1 hcr hname => hnew ip s1 (hcr rfl) ⟨hc, hname⟩
  · refine wp_seq (wp_seq (wp_namex_steps h htended (.inr fun _ _ => trivial)
      (fun s1 hleft _ _ => hnone s1 hleft fun hnew => hc hnew.1) fun ip x name s1 hat _ => ?_))
    refine wp_seq (hat.toGot.wp_ilock fun s2 hg2 _ hv2 => wp_read ?_)
    refine wp_ite (fun _ => ?_) fun _ => hold ip s2 hg2 hv2 fun hnew => hc hnew.1
    exact wp_seq (hg2.wp_iunlockput hv2 h.op htended
      fun s' hleft => hnone s' hleft fun hnew => hc hnew.1)

theorem Created.changed {s1 : Fs} (h : Created cnt s₀ s ip) (hdrop : Dropped cnt s s1 ip) :
    s1.ino ≠ s₀.ino := by
  have hnot : ¬ s.Last cnt ip := by
    rintro ⟨-, -, hn⟩
    rw [h.nlink] at hn
    exact absurd hn (by decide)
  intro heq
  have htype := h.type
  rw [← (hdrop.same hnot).1, heq, h.free] at htype
  exact absurd htype (by decide)

end Fs

namespace Files

variable {s s' : Files} {p : PSlot} {cwd : ISlot}

/-- **`sys_open`** leaves a new file behind. -/
theorem wp_sysOpen_fails {path : List UInt8} {omode : UInt32} (hok : s.Ok)
    (hcwd : (s.proc p).cwd = some cwd) (htended : s.fs.Tended s.held) :
    wp (sysOpen p cwd (some path) omode)
      (fun r s' => r = -1 → (s.fs.Unchanged s'.fs ↔
        ¬ (omode &&& O_CREATE ≠ 0 ∧ s.fs.NewName cwd path))) (fun _ _ => True) s := by
  have hcalls : Fs.Calls True s.held cwd s.fs := hok.calls hcwd (.inl trivial)
  refine wp_seq (wp_zoom.mpr (Fs.wp_beginOp.mpr (wp_seq (wp_zoom.mpr ?_))))
  refine Fs.wp_openInode_fails hcalls.starts htended (fun fs1 hleft hno => ?_)
    (fun ip fs1 hg hv hno => ?_) fun ip fs1 hcr hname => ?_
  · exact fun _ => iff_of_true (hleft.unchanged htended).ended hno
  all_goals
    -- there are a file and a descriptor, or the inode is put again
    refine wp_seq (wp_openFile (hok.table.withFs fs1) hcwd (fun t hapart => ?_)
      fun f fd t _ _ _ => ?_)
    rotate_left
    · refine wp_seq (wp_any fun _ _ => wp_seq (wp_any fun _ _ => wp_seq (wp_any fun _ _ => ?_)))
      have hfd : (fd.val : Int) ≠ -1 := by omega
      exact fun h0 => absurd h0 hfd
  · refine wp_seq (wp_zoom.mpr ?_)
    rw [hapart.fs]
    refine hg.wp_iunlockput hv hcalls.starts.op htended fun fs2 hleft => ?_
    exact fun _ => iff_of_true (hleft.unchanged htended).ended hno
  · refine wp_seq (wp_zoom.mpr ?_)
    rw [hapart.fs]
    refine Fs.wp_iunlockput_held hcr.inv hcr.valid (by rw [hcr.isSome]; rfl)
      (.inr fun _ _ => trivial) fun fs2 _ hdrop _ _ => ?_
    exact fun _ => iff_of_false (fun h => hcr.changed hdrop h.content) (not_not.mpr hname)

/-- The calls that open, make and remove names. -/
def OnNames : SysCall → Prop
  | .openPath _ _ | .link _ _ | .unlink _ | .mkdir _ | .mknod _ _ _ => True
  | _ => False

def OpensNew (s : Files) (p : PSlot) : SysCall → Prop
  | .openPath (some path) omode => omode &&& O_CREATE ≠ 0 ∧
      ∃ cwd, (s.proc p).cwd = some cwd ∧ s.fs.NewName cwd path
  | _ => False

/-- **A call that returns -1 leaves the file system as it was**, unless it was to
    open a new file: the file is there then. -/
theorem failed_call_unchanged_iff {c : SysCall} (hok : s.Ok) (htended : s.fs.Tended s.held)
    (hc : OnNames c) (hcall : s.call p c = .ok (some (-1)) s') :
    s.fs.Unchanged s'.fs ↔ ¬ s.OpensNew p c := by
  have hsame : s.fs.Unchanged s.fs := ⟨fun _ => rfl, rfl, fun _ _ => rfl⟩
  unfold Files.call at hcall
  split at hcall
  · cases hcall
  · rename_i cwd hcwd
    split at hcall
    · rename_i r t hrun
      obtain ⟨hr, rfl⟩ := EStateM.Result.ok.inj hcall
      obtain rfl := Option.some.inj hr
      have hcalls : Fs.Calls True s.held cwd s.fs := hok.calls hcwd (.inl trivial)
      -- a call of the file system
      have hfs : ∀ f : FsM Int, c.run p cwd = onFs f → ¬ s.OpensNew p c →
          wp f (fun r fs => r = -1 → s.fs.Unchanged fs) (fun _ _ => True) s.fs →
          (s.fs.Unchanged t.fs ↔ ¬ s.OpensNew p c) := by
        intro f hf hno hwp
        rw [hf] at hrun
        have hpost : wp (onFs f) (fun r t => r = -1 → s.fs.Unchanged t.fs) (fun _ _ => True) s :=
          wp_zoom.mpr hwp
        exact iff_of_true ((wp_of_ok hrun).mp hpost rfl) hno
      cases c with
      | openPath path omode =>
        cases path with
        | none =>
          obtain ⟨-, rfl⟩ := EStateM.Result.ok.inj hrun
          exact iff_of_true hsame id
        | some path =>
          have hpost := (wp_of_ok hrun).mp (wp_sysOpen_fails hok hcwd htended) rfl
          refine hpost.trans (not_congr (and_congr_right fun _ => ⟨fun hn => ⟨cwd, hcwd, hn⟩, ?_⟩))
          rintro ⟨cwd', hcwd', hn⟩
          obtain rfl := Option.some.inj (hcwd.symm.trans hcwd')
          exact hn
      | link old new =>
        refine hfs _ rfl id ?_
        cases old with
        | none => exact fun _ => hsame
        | some old =>
          cases new with
          | none => exact fun _ => hsame
          | some new => exact Fs.wp_link_fails hcalls htended
      | unlink path =>
        refine hfs _ rfl id ?_
        cases path with
        | none => exact fun _ => hsame
        | some path => exact Fs.wp_unlink_fails hcalls htended
      | mkdir path => exact hfs _ rfl id (Fs.wp_make_fails hcalls htended (by decide))
      | mknod path major minor => exact hfs _ rfl id (Fs.wp_make_fails hcalls htended (by decide))
      | _ => exact hc.elim
    · cases hcall

/-- There is no `x` to remove. -/
theorem unlink_missing : ∃ s', (boot mkfsImage).call initproc (.unlink (some [120]))
      = .ok (some (-1)) s' ∧ (boot mkfsImage).fs.Unchanged s'.fs := by
  have hrun : passes ((boot mkfsImage).call initproc (.unlink (some [120])))
      (fun r _ => decide (r = some (-1))) = true := by decide +kernel
  obtain ⟨r, s', hcall, hr⟩ := of_passes hrun
  rw [of_decide_eq_true hr] at hcall
  have hnames : OnNames (.unlink (some [120])) := trivial
  exact ⟨s', hcall, (failed_call_unchanged_iff bootable_mkfsImage.ok
    (bootable_mkfsImage.tidy tidy_mkfsImage).tended hnames hcall).mpr id⟩

def allFds : List (PSlot × SysCall) :=
  (initproc, .openPath (some [102]) O_RDONLY) :: List.replicate 15 (initproc, .dup 0)

/-- With no descriptor left, opening a new file `x` fails, and inode 3 is the file then. -/
theorem open_leaves_file : ∃ s s', run Files.step (boot mkfsImage) allFds = some s ∧ s.Ok ∧
    s.fs.Tended s.held ∧
    s.call initproc (.openPath (some [120]) O_CREATE) = .ok (some (-1)) s' ∧
    (s.fs.dinodeAt 3).type = 0 ∧ (s'.fs.dinodeAt 3).type = T_FILE := by
  have hrun : ((run Files.step (boot mkfsImage) allFds).any fun s =>
      passes (s.call initproc (.openPath (some [120]) O_CREATE)) fun r s' =>
        decide (r = some (-1)) && decide ((s.fs.dinodeAt 3).type = 0) &&
          decide ((s'.fs.dinodeAt 3).type = T_FILE)) = true := by decide +kernel
  obtain ⟨s, hs, hcheck⟩ := (Option.any_eq_true _ _).mp hrun
  have hgood := along_iff_run.mp (tidy_along bootable_mkfsImage tidy_mkfsImage allFds) _ [] s
    (List.append_nil _).symm hs
  obtain ⟨r, s', hcall, hpass⟩ := of_passes hcheck
  simp only [Bool.and_eq_true, decide_eq_true_eq] at hpass
  obtain ⟨⟨rfl, hfree⟩, hfile⟩ := hpass
  exact ⟨s, s', hs, hgood.1, hgood.2.tended, hcall, hfree, hfile⟩

end Files

end Xv6
