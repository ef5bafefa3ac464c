/-
  Xv6.Fs.LinkOps

  The functions of sysfile.c that enter and erase names: `link`, `unlink` and
  `create`, from path resolution to the last `iput`.
-/

import Xv6.Fs.Effects
import Xv6.Fs.SysFile

namespace Xv6

open Function Wp List Tree

variable {Q : Int → Fs → Prop} {type major minor : Int16} {F : List Nat}

namespace Fs

variable {s s' s'' s₀ : Fs} {c cnt cnt' : ISlot → Nat} {ip dp cwd : ISlot} {i k x off inum : Nat}
  {lax : Prop} {name path src : List UInt8}

/-! ## Effects -/

/-- What a call has done: one change, after which inodes that have no links and
    no references are freed; besides those in `F` it has written `k` blocks. -/
structure Effect (cnt : ISlot → Nat) (F : List Nat) (k : Nat) (s s' : Fs) : Prop where
  change : ∃ m, Tree.Change s.ino m ∧ Tree.Reaped (s'.Refs cnt) m s'.ino
  spent : Spent s s' F k

theorem Effect.of_still (h : Effect cnt F k s s') (hsb : s.sb = s₀.sb)
    (hino : s.ino = s₀.ino) (hlg : s.lg = s₀.lg) : Effect cnt F k s₀ s' := by
  refine ⟨?_, ?_⟩
  · rw [← hino]
    exact h.change
  · have hspent := h.spent
    unfold Spent at hspent ⊢
    rwa [hsb, hlg] at hspent

theorem Refs.mono (h : s.Refs cnt i) (hle : ∀ j, 0 < cnt j → 0 < cnt' j) : s.Refs cnt' i := by
  obtain ⟨j, hj, hinum⟩ := h
  exact ⟨j, hle j hj, hinum⟩

theorem Effect.drop (h : Effect (plus cnt ip) F k s s') (hsb : s'.sb = s.sb)
    (hinv : s'.Inv (plus cnt ip) none) (hdrop : Dropped cnt s' s'' ip)
    (hF : s.sb.iblock (s'.inode ip).inum ∈ F) : Effect cnt F k s s'' := by
  obtain ⟨hreaped, hspent⟩ := hdrop.reaped hinv
  obtain ⟨m, hchange, hm⟩ := h.change
  refine ⟨⟨m, hchange, ?_⟩, ?_⟩
  · rw [hdrop.kept.refs]
    exact (hm.mono fun i hi => hi.mono fun _ hj => plus_pos_of_pos hj).trans hreaped
  · rw [hsb] at hspent
    exact h.spent.trans hsb (hspent.mono (by simpa using hF) le_rfl)

structure Acted (c cnt cnt' : ISlot → Nat) (s s' : Fs) : Prop where
  inv : s'.Inv cnt' none
  moves : Moves c cnt cnt' s s'
  effect : s.Tended cnt → ∃ F : List Nat, F.length ≤ 2 ∧ Effect cnt' F 6 s s'

theorem Spent.of_lg (hlg : s'.lg = s.lg) : Spent s s' F k :=
  ⟨[], Nat.zero_le k, fun c hc => .inl (by rwa [hlg] at hc)⟩

theorem Effect.same (hino : s'.ino = s.ino) (hspent : Spent s s' F k) : Effect cnt F k s s' := by
  refine ⟨⟨s.ino, .same, ?_⟩, hspent⟩
  rw [hino]
  exact .refl

theorem Walk.acted (h : Walk cnt s s') (hinv : s'.Inv cnt none) : Acted cnt cnt cnt s s' where
  inv := hinv
  moves := h.moves
  effect := by
    intro ht
    obtain ⟨hino, hlg⟩ := h.still ht
    exact ⟨[], by simp, .same hino (.of_lg hlg)⟩

/-! ## Entries -/

theorem eq_of_mem_spans (hoff : DIRENT ∣ off) (hk : k ∈ spans off DIRENT) : k = off / BSIZE := by
  obtain ⟨-, -, hlt, hgt⟩ := mem_spans.mp hk
  obtain ⟨q, rfl⟩ := hoff
  simp only [DIRENT, BSIZE] at *
  omega

theorem Stored.kept (h : Stored cnt s s' ip off src) : Kept cnt s s' where
  sb := h.sb
  isSome := h.isSome
  ops := h.ops
  inum := fun j _ => h.inum j
  valid := fun j _ hv => (h.valid j).trans hv
  type := by
    intro j _ _
    rw [h.ino]
    by_cases hj : (s.inode j).inum = (s.inode ip).inum
    · rw [hj, update_self]
    · rw [update_of_ne hj]

theorem Stored.spent_entry (h : Stored cnt s s' ip off src) (hsrc : src.length = DIRENT)
    (hoff : DIRENT ∣ off) : Spent s s' [s.sb.iblock (s.inode ip).inum] 2 := by
  refine ⟨[(s'.node (s.inode ip).inum).block (off / BSIZE),
    (s'.node (s.inode ip).inum).block MAXFILE], by simp, fun b hb => ?_⟩
  rcases h.log b hb with hold | ⟨k, hk, rfl⟩ | ⟨k, hk, -, hbit | ⟨-, rfl⟩⟩ | ⟨-, rfl⟩
  · exact .inl hold
  · rw [hsrc] at hk
    rw [eq_of_mem_spans hoff hk]
    simp
  · exact .inr (.inl hbit)
  · simp
  · simp

theorem Stored.tidy (h : Stored cnt s s' ip off src) (ht : s.Tidy cnt) : s'.Tidy cnt := by
  intro i htype hn
  refine h.kept.held (ht i ?_ ?_)
  · rw [h.ino] at htype
    by_cases hi : i = (s.inode ip).inum
    · rwa [hi, update_self, ← hi] at htype
    · rwa [update_of_ne hi] at htype
  · rw [h.ino] at hn
    by_cases hi : i = (s.inode ip).inum
    · rwa [hi, update_self, ← hi] at hn
    · rwa [update_of_ne hi] at hn

theorem wp_enter (h : s.Inv cnt none) (hdp : 0 < cnt dp)
    (hv : (s.inode dp).valid = true) (hop : s.op.isSome) (hinum : inum < s.sb.ninodes)
    (hold : ∀ s' x, dirFind (s.dirBytes dp) name = some x → s'.Inv cnt none → Quiet cnt s s' →
      Q (-1) s')
    (hnew : ∀ s', (s.ino (s.inode dp).inum).type = T_DIR → dirFind (s.dirBytes dp) name = none →
      s'.Inv cnt none → Moves cnt cnt cnt s s' →
      Spent s s' [s.sb.iblock (s.inode dp).inum] 2 →
      s'.ino = enter s.ino (s.inode dp).inum name inum → Q 0 s') :
    wp (dirlink dp name inum) Q (Fails lax) s := by
  refine wp_dirlink h hdp hv hop hold (fun s' hdir hnone hwhole hst => ?_)
    (fun _ => h.fails (by simp)) (fun _ => h.fails (by simp)) (fun _ => h.fails (by simp))
    (fun _ => h.fails (by simp)) fun _ s' hover => .of_panic hover (by simp)
  refine hnew s' hdir hnone hst.inv ⟨hst.kept, fun hs => ?_, hst.tidy⟩
    (hst.spent_entry (length_dirent inum name) (dirSlot_le hwhole).2) hst.ino
  rw [hst.ino]
  exact hs.enter hdir hinum

theorem wp_erase (h : s.Inv cnt none) (hdp : 0 < cnt dp)
    (hv : (s.inode dp).valid = true) (hop : s.op.isSome)
    (hdir : (s.ino (s.inode dp).inum).type = T_DIR)
    (hwhole : DIRENT ∣ (s.dirBytes dp).length) (hoff : off ∈ offsets 0 (s.dirBytes dp).length)
    (hQ : ∀ s', s'.Inv cnt none → Moves cnt cnt cnt s s' →
      Spent s s' [s.sb.iblock (s.inode dp).inum] 2 →
      s'.ino = erase s.ino (s.inode dp).inum off → Q DIRENT s') :
    wp (writei 0 dp (replicate DIRENT 0) off) Q (Fails lax) s := by
  have hle := le_of_mem_offsets hwhole (dvd_zero _) hoff
  have hmax := h.full.small (s.inode dp).inum
  rw [← length_dirBytes] at hmax
  have hlen : (replicate DIRENT (0 : UInt8)).length = DIRENT := length_replicate
  refine wp_writei h hdp hv hop (fun hdev => ?_) (fun _ hbad => ?_) (fun _ _ _ s' hst => ?_)
    fun _ _ _ _ s' hover => .of_panic hover (by simp)
  · rw [hdir] at hdev
    exact absurd hdev (by decide)
  · rw [hlen, ← length_dirBytes] at hbad
    simp only [u32, MAXFILE, NDIRECT, NINDIRECT, BSIZE, DIRENT] at *
    omega
  · rw [hlen]
    refine hQ s' hst.inv ⟨hst.kept, fun hs => ?_, hst.tidy⟩
      (hst.spent_entry hlen (dvd_of_mem_offsets hoff)) hst.ino
    rw [hst.ino]
    exact hs.erase hdir hoff

theorem wp_addLink {Q : Unit → Fs → Prop} {k : Int16} (h : s.Inv cnt none) (hip : 0 < cnt ip)
    (hv : (s.inode ip).valid = true) (hop : s.op.isSome)
    (hQ : ∀ s', s'.Inv cnt none → Moves cnt cnt cnt s s' →
      Spent s s' [s.sb.iblock (s.inode ip).inum] 0 →
      s'.ino = addLinks s.ino (s.inode ip).inum k → Q () s') :
    wp (addLink ip k) Q (Fails lax) s := by
  refine wp_setMeta h hip hv hop (fun _ => ⟨rfl, rfl, rfl⟩) fun s' hinv hkept hspent hino => ?_
  have hold := h.slots.node_of_valid hip hv
  have heq : s'.ino = addLinks s.ino (s.inode ip).inum k := by
    rw [hino, addLinks]
    congr 1
    show Ino.mk _ _ _ _ _ = Ino.mk _ _ _ _ _
    simp only [ino, hold]
  refine hQ s' hinv ⟨hkept, fun hs => ?_, fun ht i htype hn => ?_⟩ hspent heq
  · rw [heq]
    exact hs.addLinks
  · rw [heq] at htype hn
    by_cases hi : i = (s.inode ip).inum
    · exact hkept.held ⟨ip, hip, hi.symm, hv⟩
    · rw [addLinks_of_ne hi] at htype hn
      exact hkept.held (ht i htype hn)

/-! ## `sys_unlink` -/

section Empty

variable {E : Halt → Fs → Prop} (h : s.Inv cnt none) (hdp : 0 < cnt dp)
  (hv : (s.inode dp).valid = true)

include h hdp hv

theorem wp_dirEmptyFrom {Q : Bool → Fs → Prop} {offs : List Nat}
    (hdir : (s.ino (s.inode dp).inum).type = T_DIR)
    (hoffs : ∀ off ∈ offs, off + DIRENT ≤ (s.dirBytes dp).length)
    (hQ : Q (offs.all fun off => decide (direntInum (entry (s.dirBytes dp) off) = 0)) s) :
    wp (dirEmptyFrom dp offs) Q E s := by
  induction offs with
  | nil => exact hQ
  | cons off offs ih =>
    have hlen := hoffs off mem_cons_self
    simp only [dirEmptyFrom, wp_bind]
    refine wp_readDirent h hdp hv hdir (fun _ => ?_) fun hshort => absurd hlen (by omega)
    refine wp_ite (fun hused => ?_) fun hfree => ih (fun o ho => hoffs o (mem_cons_of_mem _ ho)) ?_
    · simpa [hused] using hQ
    · simpa [not_not.mp hfree] using hQ

/-- **`isdirempty`** looks at every entry after the first two. -/
theorem wp_isdirempty {Q : Bool → Fs → Prop} (hdir : (s.ino (s.inode dp).inum).type = T_DIR)
    (hwhole : DIRENT ∣ (s.dirBytes dp).length)
    (hQ : ∀ e, (e = true → Tree.Bare s.ino (s.inode dp).inum) → Q e s) :
    wp (isdirempty dp) Q E s := by
  obtain ⟨-, hsize, -⟩ := h.copy_eq hdp hv
  simp only [isdirempty, copyOf, wp_bind, wp_look]
  rw [hsize]
  refine wp_dirEmptyFrom h hdp hv hdir
    (fun off hoff => le_of_mem_offsets hwhole (dvd_mul_left DIRENT 2) hoff) (hQ _ fun hall off hat => ?_)
  by_contra hge
  -- the entry is one of those the loop has seen
  obtain ⟨q, hq⟩ := hat.dvd
  have hmem : off ∈ offsets (2 * DIRENT) (s.dirBytes dp).length := by
    refine mem_offsets.mpr ⟨(mem_offsets.mp hat.1).1, q - 2, ?_⟩
    simp only [DIRENT] at *
    omega
  exact hat.2 (of_decide_eq_true (all_eq_true.mp hall off hmem))

theorem wp_notEmpty {Q : Bool → Fs → Prop} (hs : Tree.Sane s.ino s.sb.ninodes)
    (hQ : ∀ e, (e = false → (s.ino (s.inode dp).inum).type = T_DIR →
      Tree.Bare s.ino (s.inode dp).inum) → Q e s) : wp (notEmpty dp) Q E s := by
  obtain ⟨htype, -, -⟩ := h.copy_eq hdp hv
  simp only [notEmpty, copyOf, wp_bind, wp_look]
  rw [htype]
  refine wp_ite (fun hdir => ?_) fun hfile => hQ false fun _ hdir => absurd hdir hfile
  simp only [wp_bind, wp_pure]
  refine wp_isdirempty h hdp hv hdir (hs.whole _ hdir) fun e hbare => hQ (!e) fun he _ => hbare ?_
  simpa using he

end Empty

theorem wp_dropDots {Q : Unit → Fs → Prop} (h : s.Inv cnt none) (hdp : 0 < cnt dp)
    (hip : 0 < cnt ip) (hvd : (s.inode dp).valid = true) (hv : (s.inode ip).valid = true)
    (hop : s.op.isSome)
    (hQ : ∀ s', s'.Inv cnt none → Moves cnt cnt cnt s s' →
      Spent s s' [s.sb.iblock (s.inode dp).inum] 0 →
      s'.ino = Tree.dropDots s.ino (s.inode dp).inum (s.inode ip).inum → Q () s') :
    wp (dropDots dp ip) Q (Fails lax) s := by
  obtain ⟨htype, -, -⟩ := h.copy_eq hip hv
  simp only [dropDots, copyOf, wp_bind, wp_look]
  rw [htype]
  refine wp_ite (fun hdir => ?_) fun hfile => ?_
  · refine wp_addLink h hdp hvd hop fun s' hinv hmoves hspent hino => hQ s' hinv hmoves hspent ?_
    rw [hino, Tree.dropDots, if_pos hdir]
  · refine hQ s h Quiet.refl.moves .refl ?_
    rw [Tree.dropDots, if_neg hfile]

/-! ### The call -/

section UnlinkInode

variable (h : s.Inv (plus (plus cnt dp) ip) none) (hvd : (s.inode dp).valid = true)
  (hop : s.op.isSome) (hs : Tree.Sane s.ino s.sb.ninodes)
  (hdir : (s.ino (s.inode dp).inum).type = T_DIR)
  (hfound : dirFind (s.dirBytes dp) name = some ((s.inode ip).inum, off))

include h hvd hop hs hdir hfound

theorem wp_unlinkFound (hv : (s.inode ip).valid = true)
    (hdots : key name ≠ key [dot] ∧ key name ≠ key [dot, dot])
    (hlinks : 1 ≤ (s.ino (s.inode ip).inum).nlink)
    (hbare : (s.ino (s.inode ip).inum).type = T_DIR → Tree.Bare s.ino (s.inode ip).inum)
    (hQ : ∀ r s', s'.Inv cnt none → Moves cnt (plus (plus cnt dp) ip) cnt s s' →
      Effect cnt [s.sb.iblock (s.inode dp).inum, s.sb.iblock (s.inode ip).inum] 6 s s' → Q r s') :
    wp (do
      let r ← writei 0 dp (replicate DIRENT 0) off
      if r ≠ DIRENT then fail (.panic "unlink: writei")
      else do
        dropDots dp ip
        iunlockput dp
        addLink ip (-1)
        iunlockput ip
        pure 0) Q (Fails lax) s := by
  have hdp : 0 < plus (plus cnt dp) ip dp := plus_pos_of_pos plus_pos
  have hip : 0 < plus (plus cnt dp) ip ip := plus_pos
  have hip' : 0 < plus cnt ip ip := plus_pos
  have htype : (s.ino (s.inode ip).inum).type ≠ 0 := by
    rw [← (h.copy_eq hip hv).1]
    exact h.slots.typed ip hip hv
  have hoff := (dirFind_some hfound).1
  simp only [wp_bind]
  refine wp_erase h hdp hvd hop hdir (hs.whole _ hdir) hoff fun s1 h1 hm1 hc1 hi1 => ?_
  rw [if_neg (by simp)]
  simp only [wp_bind]
  refine wp_dropDots h1 hdp hip (hm1.kept.valid dp hdp hvd) (hm1.kept.valid ip hip hv)
    (by rw [hm1.kept.isSome]; exact hop) fun s2 h2 hm2 hc2 hi2 => ?_
  have hm : Moves (plus (plus cnt dp) ip) (plus (plus cnt dp) ip) (plus (plus cnt dp) ip) s s2 :=
    hm1.trans hm2
  have hd := hm.kept.inum dp hdp
  have hx := hm.kept.inum ip hip
  have hop2 : s2.op.isSome := by rw [hm.kept.isSome]; exact hop
  have hvd2 := hm.kept.valid dp hdp hvd
  have hv2 := hm.kept.valid ip hip hv
  rw [hm1.kept.inum dp hdp, hm1.kept.inum ip hip, hi1] at hi2
  rw [hm1.kept.inum dp hdp, hm1.kept.sb] at hc2
  rw [plus_comm] at h2
  refine wp_iunlockput h2 hvd2 hop2 fun s3 h3 hdrop3 => ?_
  obtain ⟨hr3, hc3⟩ := hdrop3.reaped h2
  have hx3 : (s3.inode ip).inum = (s.inode ip).inum := (hdrop3.kept.inum ip hip').trans hx
  have hsb3 : s3.sb = s.sb := hdrop3.kept.sb.trans hm.kept.sb
  rw [hd, hm.kept.sb] at hc3
  refine wp_addLink h3 hip' (hdrop3.kept.valid ip hip' hv2) (by rw [hdrop3.kept.isSome]; exact hop2)
    fun s4 h4 hm4 hc4 hi4 => ?_
  have hx4 : (s4.inode ip).inum = (s.inode ip).inum := (hm4.kept.inum ip hip').trans hx3
  have hsb4 : s4.sb = s.sb := hm4.kept.sb.trans hsb3
  rw [hx3, hsb3] at hc4
  rw [hx3] at hi4
  refine wp_iunlockput h4 (hm4.kept.valid ip hip' (hdrop3.kept.valid ip hip' hv2))
    (by rw [hm4.kept.isSome, hdrop3.kept.isSome]; exact hop2) fun s5 h5 hdrop5 => hQ 0 s5 h5 ?_ ?_
  · have hm3 : Moves cnt (plus (plus cnt dp) ip) (plus cnt ip) s2 s3 := by
      rw [plus_comm]
      exact (hdrop3.moves h2).less
    exact (hm.less.less.trans hm3).trans (hm4.less.trans (hdrop5.moves h4))
  · refine Effect.drop ⟨⟨_, .unlink hdir hfound hdots htype hlinks hbare, ?_⟩, ?_⟩ hsb4 h4 hdrop5
      (by rw [hx4]; simp)
    · -- the inode is referred to while the directory is put
      have hin : s2.Refs (plus cnt ip) (s.inode ip).inum := ⟨ip, hip', hx⟩
      rw [hm4.kept.refs, hdrop3.kept.refs, hi4]
      have hr := hr3.addLinks (k := -1) hin
      rwa [hi2] at hr
    · refine Spent.mono (k := ((2 + 0) + 0) + 0) ?_ (List.Subset.refl _) (by omega)
      refine Spent.trans (Spent.trans (Spent.trans ?_ hm1.kept.sb ?_) hm.kept.sb ?_) hsb3 ?_
      · exact hc1.mono (by simp) le_rfl
      · exact hc2.mono (by simp) le_rfl
      · exact hc3.mono (by simp) le_rfl
      · exact hc4.mono (by simp) le_rfl

theorem wp_unlinkInode (hi : (s.inode ip).inum < s.sb.ninodes)
    (htype : lax ∨ (s.ino (s.inode ip).inum).type ≠ 0)
    (hdots : key name ≠ key [dot] ∧ key name ≠ key [dot, dot])
    (hQ : ∀ r s', s'.Inv cnt none → Moves cnt (plus (plus cnt dp) ip) cnt s s' →
      Effect cnt [s.sb.iblock (s.inode dp).inum, s.sb.iblock (s.inode ip).inum] 6 s s' → Q r s') :
    wp (unlinkInode dp ip off) Q (Fails lax) s := by
  have hdp : 0 < plus (plus cnt dp) ip dp := plus_pos_of_pos plus_pos
  have hip : 0 < plus (plus cnt dp) ip ip := plus_pos
  simp only [unlinkInode, wp_bind]
  refine wp_ilock h hip hi htype fun s1 h1 hq1 hv1 => ?_
  obtain ⟨-, -, hnlink⟩ := h1.copy_eq hip hv1
  have hx := hq1.inum ip hip
  have hd := hq1.inum dp hdp
  have hbytes : s1.dirBytes dp = s.dirBytes dp := by rw [dirBytes, dirBytes, hq1.ino, hd]
  have hop1 : s1.op.isSome := by rw [hq1.op]; exact hop
  have hvd1 := hq1.valid dp hdp hvd
  simp only [copyOf, wp_look]
  refine wp_ite (fun _ => h1.fails (by simp)) fun hlinks => ?_
  rw [hnlink, Int16.not_lt] at hlinks
  simp only [wp_bind]
  refine wp_notEmpty h1 hip hv1 (by rw [hq1.ino, hq1.sb]; exact hs) fun e he => wp_ite (fun _ => ?_)
    fun hne => ?_
  · -- a directory that is not empty is left alone
    have hstart : Effect (plus (plus cnt dp) ip)
        [s.sb.iblock (s.inode dp).inum, s.sb.iblock (s.inode ip).inum] 6 s s1 :=
      .same hq1.ino hq1.spent
    simp only [wp_bind, wp_pure]
    refine wp_iunlockput h1 hv1 hop1 fun s2 h2 hdrop2 => ?_
    refine wp_iunlockput h2 (hdrop2.kept.valid dp plus_pos hvd1) (by rw [hdrop2.kept.isSome]; exact hop1)
      fun s3 h3 hdrop3 => hQ (-1) s3 h3 ?_ ?_
    · exact (hq1.moves.less.less.trans (hdrop2.moves h1).less).trans (hdrop3.moves h2)
    · refine (hstart.drop hq1.sb h1 hdrop2 (by rw [hx]; simp)).drop
        (hdrop2.kept.sb.trans hq1.sb) h2 hdrop3 ?_
      rw [hdrop2.kept.inum dp plus_pos, hd]
      simp
  · have hbare := he (by simpa using hne)
    rw [← hx, ← hbytes] at hfound
    rw [← hd, ← hq1.ino] at hdir
    rw [← hq1.ino, ← hq1.sb] at hs
    refine wp_unlinkFound h1 hvd1 hop1 hs hdir hfound hv1 hdots hlinks hbare
      fun r s' hinv hmoves heff => hQ r s' hinv (hq1.moves.less.less.trans hmoves) ?_
    rw [hx, hd, hq1.sb] at heff
    exact heff.of_still hq1.sb hq1.ino hq1.lg

end UnlinkInode

theorem wp_unlinkAt (h : Starts lax cnt cwd s₀) (hf : Found lax cnt s₀ s dp)
    (hQ : ∀ r s', Acted cnt cnt cnt s₀ s' → Q r s') : wp (unlinkAt dp name) Q (Fails lax) s := by
  simp only [unlinkAt, wp_bind]
  refine hf.wp_ilock fun s1 hf1 hq1 hv1 => wp_ite (fun _ => ?_) fun hdots => ?_
  · simp only [wp_bind, wp_pure]
    exact hf1.wp_iunlockput hv1 h.op fun s' hinv hwalk => hQ _ s' (hwalk.acted hinv)
  · simp only [wp_bind]
    refine wp_dirlookup hf1.inv plus_pos hv1 (fun _ _ _ => ?_)
      (fun x off ip s2 hdir1 hfound hinv2 hq2 hx _ => ?_) (fun _ => hf1.inv.fails (by simp))
      (fun _ => hf1.inv.fails (by simp)) fun _ => hf1.inv.fails (by simp)
    · simp only [wp_bind, wp_pure]
      exact hf1.wp_iunlockput hv1 h.op fun s' hinv hwalk => hQ _ s' (hwalk.acted hinv)
    · have hd := hq2.inum dp plus_pos
      have hwalk2 : Walk cnt s₀ s2 := hf1.walk.trans hq2.less.walk
      have hbytes : s2.dirBytes dp = s1.dirBytes dp := by rw [dirBytes, dirBytes, hq2.ino, hd]
      rw [namecmp_eq_zero, namecmp_eq_zero, not_or] at hdots
      refine wp_unlinkInode hinv2 (hq2.valid dp plus_pos hv1) ?_ ?_ ?_ ?_ ?_ ?_ hdots
        fun r s' hinv hmoves heff => hQ r s' ⟨hinv, ?_, fun htd => ?_⟩
      · rw [hwalk2.kept.isSome]
        exact h.op
      · rw [hwalk2.kept.sb]
        exact hwalk2.sane h.sane
      · rw [hq2.ino, hd]
        exact hdir1
      · rw [hbytes, hx]
        exact hfound
      · rw [hx, hwalk2.kept.sb]
        exact hf1.entry_lt hdir1 hfound h.sane
      · rw [hx, hq2.ino]
        exact hf1.entry_type hdir1 hfound h.calm
      · exact (hf1.moves.trans hq2.moves_plus.less).trans hmoves
      · exact ⟨_, le_rfl, heff.of_still hwalk2.kept.sb (hwalk2.still htd).1 (hwalk2.still htd).2⟩

/-! ## `sys_link` -/

section Linking

/- The link count of an inode that a path has led to is changed. -/
variable {k : Int16} (hf : Found lax cnt s₀ s ip) (hv : (s.inode ip).valid = true)
  (hkept : Kept (plus cnt ip) s s') (hino : s'.ino = addLinks s.ino (s.inode ip).inum k)

include hf hkept hino

theorem Found.reach_of_addLinks (htd : s₀.Tended cnt) {y : Nat} (hy : s'.Reach (plus cnt ip) y) :
    s₀.Reach cnt y := by
  have hsame := (hf.walk.still htd).1
  induction hy with
  | root => exact .root
  | start hx =>
    obtain ⟨j, hj, hinum⟩ := hx
    rw [hkept.inum j hj] at hinum
    by_cases hji : j = ip
    · rw [← hinum, hji]
      exact hf.known htd
    · rw [plus_of_ne hji] at hj
      exact .start ⟨j, hj, (hf.walk.kept.inum j hj).symm.trans hinum⟩
  | entry _ hn ih =>
    rw [hino, names_addLinks, hsame] at hn
    exact .entry ih hn

include hv

theorem Found.tended_of_addLinks (htd : s₀.Tended cnt) : s'.Tended (plus cnt ip) := by
  intro y hy htype hn
  have hreach := hf.reach_of_addLinks hkept hino htd hy
  by_cases hyi : y = (s.inode ip).inum
  · rw [hyi]
    exact hkept.held ⟨ip, plus_pos, rfl, hv⟩
  · rw [hino, addLinks_of_ne hyi, (hf.walk.still htd).1] at htype hn
    exact hkept.held ((hf.walk.kept.held (htd y hreach htype hn)).mono fun _ => plus_pos_of_pos)

theorem Found.calm_of_addLinks (hc : s₀.Calm cnt) : s'.Calm (plus cnt ip) := by
  refine ⟨fun y hy => ?_, hf.tended_of_addLinks hv hkept hino hc.tended⟩
  rw [hino, addLinks_type, (hf.walk.still hc.tended).1]
  exact hc.solid y (hf.reach_of_addLinks hkept hino hc.tended hy)

theorem Found.starts_of_addLinks (h : Starts lax cnt cwd s₀) (hinv : s'.Inv (plus cnt ip) none)
    (hsane : Tree.Sane s.ino s.sb.ninodes → Tree.Sane s'.ino s.sb.ninodes) :
    Starts lax (plus cnt ip) cwd s' := by
  have hsb : s'.sb = s₀.sb := hkept.sb.trans hf.walk.kept.sb
  refine ⟨hinv, by rw [hkept.isSome, hf.walk.kept.isSome]; exact h.op, ?_, ?_,
    plus_pos_of_pos h.pos, ?_⟩
  · rw [hsb, ← hf.walk.kept.sb]
    refine hsane ?_
    rw [hf.walk.kept.sb]
    exact hf.walk.sane h.sane
  · exact h.calm.imp_right fun hc => hf.calm_of_addLinks hv hkept hino hc
  · rw [hkept.inum cwd (plus_pos_of_pos h.pos), hf.walk.kept.inum cwd h.pos, hsb]
    exact h.inum

end Linking

/-- A name has been entered for inode `x`. -/
structure Entered (cnt : ISlot → Nat) (x : Nat) (s s' : Fs) : Prop where
  inv : s'.Inv cnt none
  moves : Moves cnt cnt cnt s s'
  effect : s.Tended cnt → ∃ d name, (s.ino d).type = T_DIR ∧ dirFind (s.ino d).bytes name = none ∧
    Tree.Reaped (s'.Refs cnt) (enter s.ino d name x) s'.ino ∧ Spent s s' [s.sb.iblock d] 2

theorem wp_linkAt {Q : Bool → Fs → Prop} (h : Starts lax cnt cwd s) (hip : 0 < cnt ip)
    (hi : (s.inode ip).inum < s.sb.ninodes)
    (hno : ∀ s', s'.Inv cnt none → Walk cnt s s' → Q false s')
    (hyes : ∀ s', Entered cnt (s.inode ip).inum s s' → Q true s') :
    wp (linkAt cwd ip path) Q (Fails lax) s := by
  simp only [linkAt, wp_bind]
  refine wp_nameiparent h (fun s1 hinv1 hwalk1 => hno s1 hinv1 hwalk1) fun dp name s1 hf1 _ hdir1 => ?_
  simp only [wp_bind, wp_look, wp_pure]
  refine hf1.wp_ilock fun s2 hf2 hq2 hv2 => ?_
  have hx : (s2.inode ip).inum = (s.inode ip).inum := hf2.walk.kept.inum ip hip
  have hsb := hf2.walk.kept.sb
  have hop : s2.op.isSome := by rw [hf2.walk.kept.isSome]; exact h.op
  rw [hx]
  refine wp_enter hf2.inv plus_pos hv2 hop (by rw [hsb]; exact hi)
    (fun s3 _ _ hinv3 hq3 => ?_) fun s3 hdir hnew hinv3 hm3 hc3 hi3 => ?_
  · exact (hf2.quiet hq3 hinv3).wp_iunlockput (hq3.valid dp plus_pos hv2) h.op hno
  · refine wp_iunlockput hinv3 (hm3.kept.valid dp plus_pos hv2) (by rw [hm3.kept.isSome]; exact hop)
      fun s4 hinv4 hdrop4 => hyes s4 ⟨hinv4, ?_, fun htd => ?_⟩
    · exact (hf2.moves.trans hm3.less).trans (hdrop4.moves hinv3)
    · obtain ⟨hino, hlg⟩ := hf2.walk.still htd
      obtain ⟨hr4, hc4⟩ := hdrop4.reaped hinv3
      rw [dirBytes, hino] at hnew
      rw [hino] at hdir hi3
      rw [hsb] at hc3
      rw [hm3.kept.inum dp plus_pos, hm3.kept.sb, hsb] at hc4
      refine ⟨_, name, hdir, hnew, ?_, ?_⟩
      · rw [hdrop4.kept.refs, ← hi3]
        exact hr4
      · have hc := hc3.trans hm3.kept.sb hc4
        unfold Spent at hc ⊢
        rwa [hsb, hlg] at hc

theorem wp_linkInode (h : Starts lax cnt cwd s₀) (hf : Found lax cnt s₀ s ip)
    (hQ : ∀ r s', Acted cnt cnt cnt s₀ s' → Q r s') :
    wp (linkInode cwd ip path) Q (Fails lax) s := by
  simp only [linkInode, wp_bind]
  refine hf.wp_ilock fun s1 hf1 hq1 hv1 => ?_
  obtain ⟨htype, -, -⟩ := hf1.inv.copy_eq plus_pos hv1
  have htyped := hf1.inv.slots.typed ip plus_pos hv1
  have hop1 : s1.op.isSome := by rw [hf1.walk.kept.isSome]; exact h.op
  rw [htype] at htyped
  simp only [copyOf, wp_look]
  rw [htype]
  refine wp_ite (fun _ => ?_) fun hfile => ?_
  · simp only [wp_bind, wp_pure]
    exact hf1.wp_iunlockput hv1 h.op fun s' hinv hwalk => hQ _ s' (hwalk.acted hinv)
  simp only [wp_bind]
  refine wp_addLink hf1.inv plus_pos hv1 hop1 fun s2 hinv2 hm2 hc2 hi2 => ?_
  refine wp_iunlock hinv2 plus_pos fun s3 hinv3 hq3 => ?_
  -- the state in which the new path is resolved
  have hm3 : Moves (plus cnt ip) (plus cnt ip) (plus cnt ip) s1 s3 := hm2.trans hq3.moves
  have hi3 : s3.ino = addLinks s1.ino (s1.inode ip).inum 1 := hq3.ino.trans hi2
  have hx3 : (s3.inode ip).inum = (s1.inode ip).inum := hm3.kept.inum ip plus_pos
  have hsb3 : s3.sb = s₀.sb := hm3.kept.sb.trans hf1.walk.kept.sb
  have hstart : Starts lax (plus cnt ip) cwd s3 := hf1.starts_of_addLinks hv1 hm3.kept hi3 h hinv3
    hm3.sane
  have htd3 : s₀.Tended cnt → s3.Tended (plus cnt ip) :=
    fun htd => hf1.tended_of_addLinks hv1 hm3.kept hi3 htd
  have hc3 : Spent s1 s3 [s1.sb.iblock (s1.inode ip).inum] 0 := hc2.quiet hq3
  refine wp_linkAt hstart plus_pos (by rw [hx3, hsb3]; exact hf1.inum) (fun s4 hinv4 hwalk4 => ?_)
    fun s4 hent => ?_
  · -- the count goes back
    have hv4 := hwalk4.kept.valid ip plus_pos (hm3.kept.valid ip plus_pos hv1)
    have hx4 := (hwalk4.kept.inum ip plus_pos).trans hx3
    have hsb4 : s4.sb = s₀.sb := hwalk4.kept.sb.trans hsb3
    simp only [Bool.false_eq_true, if_false, wp_bind, wp_pure]
    refine wp_ilock hinv4 plus_pos (by rw [hx4, hsb4]; exact hf1.inum) (.inr ?_)
      fun s5 hinv5 hq5 hv5 => ?_
    · rw [← (hinv4.copy_eq plus_pos hv4).1]
      exact hinv4.slots.typed ip plus_pos hv4
    have hx5 := (hq5.inum ip plus_pos).trans hx4
    have hop5 : s5.op.isSome := by rw [hq5.op, hwalk4.kept.isSome]; exact hstart.op
    refine wp_addLink hinv5 plus_pos hv5 hop5 fun s6 hinv6 hm6 hc6 hi6 => ?_
    refine wp_iunlockput hinv6 (hm6.kept.valid ip plus_pos hv5) (by rw [hm6.kept.isSome]; exact hop5)
      fun s7 hinv7 hdrop7 => hQ (-1) s7 ⟨hinv7, ?_, fun htd => ?_⟩
    · have hm : Moves (plus cnt ip) (plus cnt ip) (plus cnt ip) s1 s6 :=
        hm3.trans (hwalk4.moves.trans (hq5.moves.trans hm6))
      exact hf1.moves.trans (hm.less.trans (hdrop7.moves hinv6))
    · obtain ⟨hino4, hlg4⟩ := hwalk4.still (htd3 htd)
      obtain ⟨hino1, hlg1⟩ := hf1.walk.still htd
      have hsb6 : s6.sb = s1.sb :=
        hm6.kept.sb.trans (hq5.sb.trans (hwalk4.kept.sb.trans hm3.kept.sb))
      have hback : s6.ino = s1.ino := by
        rw [hi6, hx5, hq5.ino, hino4, hi3, addLinks_cancel]
      have heff : Effect (plus cnt ip) [s1.sb.iblock (s1.inode ip).inum] 6 s1 s6 := by
        refine .same hback (Spent.mono (k := ((0 + 0) + 0) + 0) ?_ (List.Subset.refl _) (by omega))
        rw [hx5, hq5.sb, hwalk4.kept.sb, hm3.kept.sb] at hc6
        exact ((hc3.trans hm3.kept.sb (.of_lg hlg4)).trans (hwalk4.kept.sb.trans hm3.kept.sb)
          hq5.spent).trans (hq5.sb.trans (hwalk4.kept.sb.trans hm3.kept.sb)) hc6
      refine ⟨_, ?_, (heff.drop hsb6 hinv6 hdrop7 ?_).of_still hf1.walk.kept.sb hino1 hlg1⟩
      · simp
      · rw [hm6.kept.inum ip plus_pos, hx5]
        simp
  · simp only [if_true, wp_bind, wp_pure]
    refine wp_iput hent.inv (by rw [hent.moves.kept.isSome]; exact hstart.op)
      fun s5 hinv5 hdrop5 => hQ 0 s5 ⟨hinv5, ?_, fun htd => ?_⟩
    · exact hf1.moves.trans ((hm3.trans hent.moves).less.trans (hdrop5.moves hent.inv))
    · obtain ⟨d, name, hdir, hnew, hreaped, hc4⟩ := hent.effect (htd3 htd)
      obtain ⟨hino1, hlg1⟩ := hf1.walk.still htd
      rw [hi3, addLinks_type] at hdir
      rw [hi3, addLinks_bytes] at hnew
      rw [hi3, hx3] at hreaped
      rw [hm3.kept.sb] at hc4
      have heff : Effect (plus cnt ip) [s1.sb.iblock d, s1.sb.iblock (s1.inode ip).inum] 6 s1 s4 := by
        refine ⟨⟨_, .link htyped hfile hdir hnew, hreaped⟩,
          Spent.mono (k := 0 + 2) ?_ (List.Subset.refl _) (by omega)⟩
        exact (hc3.mono (by simp) le_rfl).trans hm3.kept.sb (hc4.mono (by simp) le_rfl)
      refine ⟨_, ?_, (heff.drop (hent.moves.kept.sb.trans hm3.kept.sb) hent.inv hdrop5 ?_).of_still
        hf1.walk.kept.sb hino1 hlg1⟩
      · simp
      · rw [hent.moves.kept.inum ip plus_pos, hx3]
        simp

/-! ## `create` -/

/-- A call has got at inode `ip`, which it has locked. -/
structure Made (cnt : ISlot → Nat) (s₀ s : Fs) (ip : ISlot) : Prop where
  inv : s.Inv (plus cnt ip) none
  valid : (s.inode ip).valid = true
  moves : Moves cnt cnt (plus cnt ip) s₀ s
  effect : s₀.Tended cnt →
    ∃ d, Effect (plus cnt ip) [s₀.sb.iblock d, s₀.sb.iblock (s.inode ip).inum] 6 s₀ s

theorem Found.made (h : Found lax cnt s₀ s ip) (hv : (s.inode ip).valid = true) :
    Made cnt s₀ s ip := by
  refine ⟨h.inv, hv, h.moves, fun htd => ⟨0, ?_⟩⟩
  obtain ⟨hino, hlg⟩ := h.walk.still htd
  exact .same hino (.of_lg hlg)

theorem wp_fresh {α : Type} {g : ISlot → FsM α} {Q : α → Fs → Prop}
    (h : s.Inv cnt none) (hop : s.op.isSome) (ht : type ≠ 0)
    (hQ : ∀ ip s', s'.Inv (plus cnt ip) none → (s'.inode ip).valid = true →
      Moves cnt cnt (plus cnt ip) s s' → Spent s s' [s.sb.iblock (s'.inode ip).inum] 0 →
      0 < (s'.inode ip).inum → (s'.inode ip).inum < s.sb.ninodes →
      s.ino (s'.inode ip).inum = Ino.free →
      s'.ino = Tree.make s.ino (s'.inode ip).inum type major minor → wp (g ip) Q (Fails lax) s') :
    wp (do
      let ip ← ialloc type
      ilock ip
      onCopy ip fun d => { d with major := major, minor := minor, nlink := 1 }
      iupdate ip
      g ip) Q (Fails lax) s := by
  simp only [wp_bind]
  refine wp_ialloc h hop ht fun ip s1 hinv1 hkept1 hc1 hpos hlt hfree hi1 => ?_
  refine wp_ilock hinv1 plus_pos (by rw [hkept1.sb]; exact hlt) (.inr ?_) fun s2 hinv2 hq2 hv2 => ?_
  · rw [hi1, update_self]
    exact ht
  have hx2 := hq2.inum ip plus_pos
  refine wp_bind.mp (wp_setMeta hinv2 plus_pos hv2 (by rw [hq2.op, hkept1.isSome]; exact hop)
    (fun _ => ⟨rfl, rfl, rfl⟩) fun s3 hinv3 hkept3 hc3 hi3 => ?_)
  have hx3 := (hkept3.inum ip plus_pos).trans hx2
  have hino : s3.ino = Tree.make s.ino (s3.inode ip).inum type major minor := by
    rw [hi3, hx2, hq2.ino, hi1, hx3, update_self, update_idem]
    rfl
  have hkept : Kept cnt s s3 := hkept1.trans (hq2.kept.trans hkept3).less
  refine hQ ip s3 hinv3 (hkept3.valid ip plus_pos hv2) ⟨hkept, fun hs => ?_, fun htd i htype hn => ?_⟩
    ?_ (by rw [hx3]; exact hpos) (by rw [hx3]; exact hlt) (by rw [hx3]; exact hfree) hino
  · rw [hino]
    exact hs.make
  · -- the new inode has a link
    have hi : i ≠ (s3.inode ip).inum := by
      intro hi
      rw [hino, hi, make_self] at hn
      exact absurd (show (1 : Int16) = 0 from hn) (by decide)
    rw [hino, make_of_ne hi] at htype hn
    exact (hkept.held (htd i htype hn)).mono fun _ => plus_pos_of_pos
  · rw [hx2, hq2.sb, hkept1.sb] at hc3
    rw [hx3]
    exact (hc1.quiet hq2).trans (hq2.sb.trans hkept1.sb) hc3

theorem wp_makeDots {Q : Unit → Fs → Prop} {type : Int16} (h : s.Inv cnt none) (hdp : 0 < cnt dp)
    (hip : 0 < cnt ip) (hvd : (s.inode dp).valid = true) (hv : (s.inode ip).valid = true)
    (hop : s.op.isSome) (hd : (s.inode dp).inum < s.sb.ninodes)
    (hQ : ∀ s', s'.Inv cnt none → Moves cnt cnt cnt s s' →
      Spent s s' [s.sb.iblock (s.inode dp).inum, s.sb.iblock (s.inode ip).inum] 4 →
      s'.ino = (if type = T_DIR then Tree.makeDots s.ino (s.inode dp).inum (s.inode ip).inum
        else s.ino) → Q () s') : wp (makeDots dp ip type) Q (Fails lax) s := by
  rw [makeDots]
  refine wp_ite (fun htype => ?_) fun htype => ?_
  · refine wp_seq (wp_addLink h hdp hvd hop fun s1 hinv1 hm1 hc1 hi1 => ?_)
    refine wp_read (wp_read ?_)
    have hd1 := hm1.kept.inum dp hdp
    have hx1 := hm1.kept.inum ip hip
    have hv1 := hm1.kept.valid ip hip hv
    have hi := hinv1.slots.inum ip hip hv1
    have hop1 : s1.op.isSome := by rw [hm1.kept.isSome]; exact hop
    refine wp_seq (wp_enter hinv1 hip hv1 hop1 hi (fun s2 _ _ hinv2 _ => ?_)
      fun s2 _ _ hinv2 hm2 hc2 hi2 => ?_)
    · rw [if_pos (by decide)]
      exact hinv2.fails (by simp)
    rw [if_neg (by decide)]
    have hx2 := (hm2.kept.inum ip hip).trans hx1
    have hsb2 : s2.sb = s.sb := hm2.kept.sb.trans hm1.kept.sb
    refine wp_seq (wp_enter hinv2 hip (hm2.kept.valid ip hip hv1)
      (by rw [hm2.kept.isSome]; exact hop1) (by rw [hd1, hsb2]; exact hd)
      (fun s3 _ _ hinv3 _ => ?_) fun s3 _ _ hinv3 hm3 hc3 hi3 => ?_)
    · rw [if_pos (by decide)]
      exact hinv3.fails (by simp)
    rw [if_neg (by decide)]
    refine hQ s3 hinv3 (hm1.trans (hm2.trans hm3)) ?_ ?_
    · rw [hx1, hm1.kept.sb] at hc2
      rw [hx2, hsb2] at hc3
      refine Spent.mono (k := (0 + 2) + 2) ?_ (List.Subset.refl _) le_rfl
      exact ((hc1.mono (by simp) le_rfl).trans hm1.kept.sb (hc2.mono (by simp) le_rfl)).trans hsb2
        (hc3.mono (by simp) le_rfl)
    · rw [if_pos htype, hi3, hi2, hi1, hx1, hx2, hd1, Tree.makeDots]
  · refine hQ s h Quiet.refl.moves .refl ?_
    rw [if_neg htype]


theorem wp_createNew {Q : ISlot → Fs → Prop}
    (h : s.Inv (plus cnt dp) none) (hvd : (s.inode dp).valid = true) (hop : s.op.isSome)
    (hdir : (s.ino (s.inode dp).inum).type = T_DIR) (hnew : dirFind (s.dirBytes dp) name = none)
    (ht : type ≠ 0)
    (hQ : ∀ ip s', s'.Inv (plus cnt ip) none → (s'.inode ip).valid = true →
      Moves cnt (plus cnt dp) (plus cnt ip) s s' →
      Effect (plus cnt ip) [s.sb.iblock (s.inode dp).inum, s.sb.iblock (s'.inode ip).inum] 6 s s' →
      s.ino (s'.inode ip).inum = Ino.free → (s'.ino (s'.inode ip).inum).type = type →
      (type ≠ T_DIR → (s'.ino (s'.inode ip).inum).nlink = 1) → Q ip s') :
    wp (createNew dp name type major minor) Q (Fails lax) s := by
  rw [createNew]
  refine wp_fresh h hop ht fun ip s1 hinv1 hv1 hm1 hc1 hpos hlt hfree hi1 => ?_
  have hdp : 0 < plus (plus cnt dp) ip dp := plus_pos_of_pos plus_pos
  have hip : 0 < plus (plus cnt dp) ip ip := plus_pos
  have hd1 := hm1.kept.inum dp plus_pos
  have hd := h.slots.inum dp plus_pos hvd
  have hvd1 := hm1.kept.valid dp plus_pos hvd
  have hop1 : s1.op.isSome := by rw [hm1.kept.isSome]; exact hop
  refine wp_seq (wp_makeDots hinv1 hdp hip hvd1 hv1 hop1 (by rw [hd1, hm1.kept.sb]; exact hd)
    fun s2 hinv2 hm2 hc2 hi2 => ?_)
  refine wp_read ?_
  have hd2 := (hm2.kept.inum dp hdp).trans hd1
  have hx2 := hm2.kept.inum ip hip
  have hsb2 : s2.sb = s.sb := hm2.kept.sb.trans hm1.kept.sb
  have hop2 : s2.op.isSome := by rw [hm2.kept.isSome]; exact hop1
  refine wp_seq (wp_enter hinv2 hdp (hm2.kept.valid dp hdp hvd1) hop2
    (by rw [hx2, hsb2]; exact hlt) (fun s3 _ _ hinv3 _ => ?_) fun s3 _ _ hinv3 hm3 hc3 hi3 => ?_)
  · rw [if_pos (by decide)]
    exact hinv3.fails (by simp)
  rw [if_neg (by decide)]
  simp only [wp_bind, wp_pure]
  have hd3 := (hm3.kept.inum dp hdp).trans hd2
  have hx3 := (hm3.kept.inum ip hip).trans hx2
  have hsb3 : s3.sb = s.sb := hm3.kept.sb.trans hsb2
  have hv3 := hm3.kept.valid ip hip (hm2.kept.valid ip hip hv1)
  rw [plus_comm] at hinv3
  refine wp_iunlockput hinv3 (hm3.kept.valid dp hdp (hm2.kept.valid dp hdp hvd1))
    (by rw [hm3.kept.isSome]; exact hop2) fun s4 hinv4 hdrop4 => ?_
  have hip' : 0 < plus cnt ip ip := plus_pos
  have hx4 := (hdrop4.kept.inum ip hip').trans hx3
  rw [hd1, hi1] at hi2
  rw [hd2, hx2] at hi3
  have htype3 : (s3.ino (s1.inode ip).inum).type = type := by
    rw [hi3, enter_type, hi2]
    split <;> simp
  refine hQ ip s4 hinv4 (hdrop4.kept.valid ip hip' hv3) ?_ ?_ ?_ ?_ fun hfile => ?_
  · have hm4 : Moves cnt (plus (plus cnt dp) ip) (plus cnt ip) s3 s4 := by
      rw [plus_comm]
      exact (hdrop4.moves hinv3).less
    exact hm1.less.trans ((hm2.trans hm3).less.less.trans hm4)
  · rw [hx4]
    refine Effect.drop ⟨⟨s3.ino, ?_, .refl⟩, ?_⟩ hsb3 hinv3 hdrop4 (by rw [hd3]; simp)
    · rw [hi3, hi2]
      by_cases htype : type = T_DIR
      · rw [if_pos htype, htype]
        exact .mkdir hpos hfree hdir hnew
      · rw [if_neg htype]
        exact .create hpos hfree ht htype hdir hnew
    · rw [hd1, hm1.kept.sb] at hc2
      rw [hd2, hsb2] at hc3
      refine Spent.mono (k := (0 + 4) + 2) ?_ (List.Subset.refl _) le_rfl
      exact ((hc1.mono (by simp) le_rfl).trans hm1.kept.sb hc2).trans hsb2 (hc3.mono (by simp) le_rfl)
  · rw [hx4]
    exact hfree
  · have hkeep := hdrop4.kept.type ip hip'
    rw [hx3, htype3] at hkeep
    rw [hx4]
    exact hkeep ht
  · have hne : (s1.inode ip).inum ≠ (s.inode dp).inum := by
      intro heq
      rw [← heq, hfree] at hdir
      exact absurd hdir (by decide)
    have hlink : (s3.ino (s1.inode ip).inum).nlink = 1 := by
      rw [hi3, enter_nlink, hi2, if_neg hfile, make_self]
    rw [hx4]
    by_cases hlast : s3.Last (plus cnt ip) dp
    · rw [(hdrop4.free hlast).1, hd3, update_of_ne hne, hlink]
    · rw [(hdrop4.same hlast).1, hlink]

/-- **`create`** makes an inode, or finds a file. -/
theorem wp_create {Q : Option ISlot → Fs → Prop}
    (h : Starts lax cnt cwd s₀) (ht : type ≠ 0) (hnone : ∀ s', Acted cnt cnt cnt s₀ s' → Q none s')
    (hsome : ∀ ip s', Made cnt s₀ s' ip →
      (type ≠ T_DIR → (s'.ino (s'.inode ip).inum).type ≠ T_DIR) → Q (some ip) s') :
    wp (create cwd path type major minor) Q (Fails lax) s₀ := by
  rw [create]
  refine wp_seq (wp_nameiparent h (fun s1 hinv1 hwalk1 => hnone s1 (hwalk1.acted hinv1))
    fun dp name s1 hf1 _ _ => ?_)
  refine wp_seq (hf1.wp_ilock fun s2 hf2 hq2 hv2 => ?_)
  have hop2 : s2.op.isSome := by rw [hf2.walk.kept.isSome]; exact h.op
  refine wp_seq (wp_dirlookup hf2.inv plus_pos hv2 (fun hdir hnew _ => ?_)
    (fun x off ip s3 hdir hfound hinv3 hq3 hx _ => ?_) (fun _ => hf2.inv.fails (by simp))
    (fun _ => hf2.inv.fails (by simp)) fun _ => hf2.inv.fails (by simp))
  · simp only [wp_bind, wp_pure]
    refine wp_createNew hf2.inv hv2 hop2 hdir hnew ht fun ip s4 hinv4 hv4 hm4 heff _ htype _ => ?_
    refine hsome ip s4 ⟨hinv4, hv4, hf2.moves.trans hm4, fun htd => ⟨(s2.inode dp).inum, ?_⟩⟩ fun hne => by rwa [htype]
    rw [← hf2.walk.kept.sb]
    exact heff.of_still hf2.walk.kept.sb (hf2.walk.still htd).1 (hf2.walk.still htd).2
  · simp only [createOld, wp_bind]
    rw [plus_comm] at hinv3
    refine wp_iunlockput hinv3 (hq3.valid dp plus_pos hv2) (by rw [hq3.op]; exact hop2)
      fun s4 hinv4 hdrop4 => ?_
    have hf4 : Found lax cnt s₀ s4 ip := hf2.next hdir hfound h.sane h.calm hv2 hq3 hx hdrop4 hinv4
    refine hf4.wp_ilock fun s5 hf5 _ hv5 => ?_
    obtain ⟨htype, -, -⟩ := hf5.inv.copy_eq plus_pos hv5
    simp only [copyOf, wp_look]
    rw [htype]
    refine wp_ite (fun hfile => ?_) fun _ => ?_
    · refine hsome ip s5 (hf5.made hv5) fun _ => ?_
      rw [hfile.2]
      decide
    · simp only [wp_bind, wp_pure]
      exact hf5.wp_iunlockput hv5 h.op fun s' hinv hwalk => hnone s' (hwalk.acted hinv)

end Fs
end Xv6
