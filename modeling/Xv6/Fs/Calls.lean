/-
  Xv6.Fs.Calls

  System calls on paths as transactions, from `begin_op` to `end_op`.
-/

import Xv6.Fs.LinkOps

namespace Xv6.Fs

open Wp

variable {s s' s'' s₀ : Fs} {c cnt cnt' cnt'' : ISlot → Nat} {ip cwd : ISlot} {i k : Nat}
  {lax : Prop} {path : List UInt8}
variable {Q : Unit → Fs → Prop} {E : Halt → Fs → Prop}

/-! ## Transactions -/

structure Stays (c : ISlot → Nat) (s s' : Fs) : Prop where
  sb : s'.sb = s.sb
  inum : ∀ j, 0 < c j → (s'.inode j).inum = (s.inode j).inum
  type : ∀ j, 0 < c j → (s.ino (s.inode j).inum).type ≠ 0 →
    (s'.ino (s.inode j).inum).type = (s.ino (s.inode j).inum).type

theorem Kept.stays (h : Kept c s s') : Stays c s s' := ⟨h.sb, h.inum, h.type⟩

theorem Stays.refl : Stays c s s := ⟨rfl, fun _ _ => rfl, fun _ _ _ => rfl⟩

def Cheap (sb : Superblock) (o : List Nat) : Prop :=
  ∃ X : List Nat, X.length ≤ 8 ∧ ∀ b ∈ o, (∃ a < sb.size, sb.bblock a = b) ∨ b ∈ X

structure Ran (c cnt cnt' : ISlot → Nat) (s s' : Fs) : Prop where
  inv : s'.Inv cnt' none
  op : s'.op = none
  stays : Stays c s s'
  sane : Tree.Sane s.ino s.sb.ninodes → Tree.Sane s'.ino s'.sb.ninodes
  tidy : s.Tidy cnt → s'.Tidy cnt'
  change : s.Tended cnt → ∃ m, Tree.Change s.ino m ∧ Tree.Reaped (s'.Refs cnt') m s'.ino
  ops : ∃ o, s'.ops = o :: s.ops ∧ (s.Tended cnt → Cheap s.sb o)

theorem Effect.cheap {F : List Nat} (h : Effect cnt F k s.begun s') (hop : s.op = none)
    (hF : F.length + k ≤ 8) : Cheap s.sb (s'.op.getD []) := by
  obtain ⟨X, hX, hlog⟩ := h.spent
  refine ⟨F ++ X, by rw [List.length_append]; omega, fun b hb => ?_⟩
  rcases hlog b (List.mem_toFinset.mpr hb) with hold | hbit | hF | hX
  · rw [lg, begun, hop] at hold
    exact absurd hold (by simp)
  · exact .inl hbit
  · exact .inr (List.mem_append_left X hF)
  · exact .inr (List.mem_append_right F hX)

theorem Acted.ran (h : Acted c cnt cnt' s.begun s') (hop : s.op = none) :
    Ran c cnt cnt' s s'.ended where
  inv := h.inv.ended
  op := rfl
  stays := ⟨h.moves.kept.sb, h.moves.kept.inum, h.moves.kept.type⟩
  sane := by
    intro hs
    have hs' := h.moves.sane hs
    rw [← h.moves.kept.sb] at hs'
    exact hs'
  tidy := h.moves.tidy
  change := by
    intro ht
    obtain ⟨F, -, heff⟩ := h.effect ht
    exact heff.change
  ops := by
    have hops : s'.ops = s.ops := h.moves.kept.ops
    refine ⟨s'.op.getD [], by rw [Fs.ended, hops], fun ht => ?_⟩
    obtain ⟨F, hF, heff⟩ := h.effect ht
    exact heff.cheap hop (by omega)

theorem Made.drop (h : Made cnt s₀ s ip) (hdrop : Dropped cnt s s' ip) (hinv : s'.Inv cnt none) :
    Acted cnt cnt cnt s₀ s' where
  inv := hinv
  moves := h.moves.trans (hdrop.moves h.inv)
  effect := by
    intro ht
    obtain ⟨d, heff⟩ := h.effect ht
    exact ⟨_, by simp, heff.drop h.moves.kept.sb h.inv hdrop (by simp)⟩

theorem wp_readProgram {reads : List (Nat × Nat)} (h : s.Inv cnt none) (hip : 0 < cnt ip)
    (hv : (s.inode ip).valid = true) (hQ : Q () s) : wp (readProgram ip reads) Q E s := by
  refine wp_forM (fun _ t => t = s) rfl (fun r rest t ht => ?_) fun t ht => by rw [ht]; exact hQ
  rw [ht]
  refine wp_seq (wp_readi h hip hv (fun _ => ?_) (fun _ _ => ?_) fun _ _ _ => ?_)
  · rfl
  · rfl
  · rfl

structure Calls (lax : Prop) (cnt : ISlot → Nat) (cwd : ISlot) (s : Fs) : Prop where
  inv : s.Inv cnt none
  op : s.op = none
  sane : Tree.Sane s.ino s.sb.ninodes
  calm : lax ∨ s.Calm cnt
  pos : 0 < cnt cwd
  inum : (s.inode cwd).inum < s.sb.ninodes

theorem Calls.starts (h : Calls lax cnt cwd s) : Starts lax cnt cwd s.begun where
  inv := h.inv.begun
  op := rfl
  sane := h.sane
  calm := h.calm.imp_right fun hc => ⟨hc.solid, hc.tended⟩
  pos := h.pos
  inum := h.inum

section Calls

/- A call of a process in directory `cwd`. -/
variable {Q : Int → Fs → Prop} (h : Calls lax cnt cwd s)
  (hQ : ∀ r s', Ran cnt cnt cnt s s' → Q r s')

include h hQ

theorem wp_link {old new : List UInt8} : wp (link cwd old new) Q (Fails lax) s := by
  rw [link]
  refine wp_seq (wp_beginOp.mpr (wp_seq ?_))
  refine wp_namei h.starts (fun s1 hinv hwalk => ?_) fun ip s1 hf => ?_
  · exact hQ _ _ ((hwalk.acted hinv).ran h.op)
  · refine wp_seq (wp_linkInode h.starts hf fun r s2 hacted => ?_)
    exact hQ r _ (hacted.ran h.op)

theorem wp_unlink : wp (unlink cwd path) Q (Fails lax) s := by
  rw [unlink]
  refine wp_seq (wp_beginOp.mpr (wp_seq ?_))
  refine wp_nameiparent h.starts (fun s1 hinv hwalk => ?_) fun dp name s1 hf _ _ => ?_
  · exact hQ _ _ ((hwalk.acted hinv).ran h.op)
  · refine wp_seq (wp_unlinkAt h.starts hf fun r s2 hacted => ?_)
    exact hQ r _ (hacted.ran h.op)

theorem wp_make {path : Option (List UInt8)} {type major minor : Int16} (ht : type ≠ 0) :
    wp (make cwd path type major minor) Q (Fails lax) s := by
  rw [make]
  refine wp_seq (wp_beginOp.mpr (wp_seq ?_))
  cases path with
  | none => exact hQ _ _ ((Walk.refl.acted h.starts.inv).ran h.op)
  | some path =>
    refine wp_seq (wp_create h.starts ht (fun s1 hacted => ?_) fun ip s1 hmade _ => ?_)
    · exact hQ _ _ (hacted.ran h.op)
    · refine wp_seq (wp_iunlockput hmade.inv hmade.valid ?_ fun s2 hinv2 hdrop2 => ?_)
      · rw [hmade.moves.kept.isSome]
        rfl
      · exact hQ _ _ ((hmade.drop hdrop2 hinv2).ran h.op)

/-- What **`exec`** does with the file of the program. -/
theorem wp_exec {path : Option (List UInt8)} {reads : List (Nat × Nat)} (hsame : Q (-1) s) :
    wp (exec cwd path reads) Q (Fails lax) s := by
  rw [exec]
  cases path with
  | none => exact hsame
  | some path =>
    refine wp_seq (wp_beginOp.mpr (wp_seq ?_))
    refine wp_namei h.starts (fun s1 hinv hwalk => ?_) fun ip s1 hf => ?_
    · exact hQ _ _ ((hwalk.acted hinv).ran h.op)
    · refine wp_seq (wp_seq (hf.wp_ilock fun s2 hf2 _ hv2 => ?_))
      refine wp_seq (wp_readProgram hf2.inv plus_pos hv2 ?_)
      refine wp_seq (hf2.wp_iunlockput hv2 h.starts.op fun s3 hinv3 hwalk3 => ?_)
      exact hQ _ _ ((hwalk3.acted hinv3).ran h.op)

end Calls

/-! ## References that are given up -/

theorem Dropped.acted (h : Dropped cnt s s' ip) (hinv : s.Inv (plus cnt ip) none)
    (hinv' : s'.Inv cnt none) : Acted cnt (plus cnt ip) cnt s s' where
  inv := hinv'
  moves := h.moves hinv
  effect := by
    intro _
    have hstart : Effect (plus cnt ip) [s.sb.iblock (s.inode ip).inum] 6 s s := .same rfl .refl
    exact ⟨_, by simp, hstart.drop rfl hinv h (by simp)⟩

structure Put (c : ISlot → Nat) (ip : ISlot) (s s' : Fs) : Prop extends Ran c (plus c ip) c s s' where
  reaped : Tree.Reaped (s'.Refs c) s.ino s'.ino
  cheap : ∃ o, s'.ops = o :: s.ops ∧ Cheap s.sb o

theorem Dropped.put (h : Dropped c s.begun s' ip) (hinv : s.Inv (plus c ip) none)
    (hinv' : s'.Inv c none) (hop : s.op = none) : Put c ip s s'.ended := by
  have hacted := h.acted hinv.begun hinv'
  obtain ⟨hreaped, hspent⟩ := h.reaped hinv.begun
  refine ⟨hacted.ran hop, ?_, s'.op.getD [], ?_, ?_⟩
  · show Tree.Reaped (s'.Refs c) _ _
    rw [h.kept.refs]
    exact hreaped
  · rw [Fs.ended, h.kept.ops]
    rfl
  · have heff : Effect c [s.sb.iblock (s.inode ip).inum] 0 s.begun s' :=
      ⟨⟨s.begun.ino, .same, by rw [h.kept.refs]; exact hreaped⟩, hspent⟩
    exact heff.cheap hop (by simp)

theorem wp_iputOp (h : s.Inv (plus c ip) none)
    (hop : s.op = none) (hQ : ∀ s', Put c ip s s' → Q () s') :
    wp (do beginOp; iput ip; endOp) Q E s := by
  refine wp_seq (wp_beginOp.mpr (wp_seq ?_))
  exact wp_iput h.begun rfl fun s1 hinv1 hdrop1 => hQ _ (hdrop1.put h hinv1 hop)

section Chdir

variable {c : ISlot → Nat} (h : Starts lax (plus c cwd) cwd s₀)
  (hf : Found lax (plus c cwd) s₀ s ip)

include h hf

theorem wp_chdirTo {Q : Bool → Fs → Prop}
    (hno : ∀ s', Acted (plus c cwd) (plus c cwd) (plus c cwd) s₀ s' → Q false s')
    (hyes : ∀ s', Acted c (plus c cwd) (plus c ip) s₀ s' →
      (s'.inode ip).inum < s₀.sb.ninodes → Q true s') :
    wp (chdirTo cwd ip) Q (Fails lax) s := by
  rw [chdirTo]
  refine wp_seq (hf.wp_ilock fun s1 hf1 _ hv1 => ?_)
  refine wp_read (wp_ite (fun _ => ?_) fun _ => ?_)
  · refine wp_seq (hf1.wp_iunlockput hv1 h.op fun s2 hinv2 hwalk2 => ?_)
    exact hno s2 (hwalk2.acted hinv2)
  · refine wp_seq (hf1.wp_iunlock fun s2 hf2 _ => wp_seq ?_)
    have hop2 : s2.op.isSome := by rw [hf2.walk.kept.isSome]; exact h.op
    have hinv2 := hf2.inv
    rw [plus_comm] at hinv2
    refine wp_iput hinv2 hop2 fun s3 hinv3 hdrop3 => hyes s3 ⟨hinv3, ?_, fun htd => ?_⟩ ?_
    · have hm2 := hf2.moves
      rw [plus_comm] at hm2
      exact hm2.less.trans (hdrop3.moves hinv2).less
    · obtain ⟨hino, hlg⟩ := hf2.walk.still htd
      have hstart : Effect (plus (plus c ip) cwd) [s₀.sb.iblock (s2.inode cwd).inum] 6 s₀ s2 :=
        .same hino (.of_lg hlg)
      exact ⟨_, by simp, hstart.drop hf2.walk.kept.sb hinv2 hdrop3 (by simp)⟩
    · rw [hdrop3.kept.inum ip plus_pos]
      exact hf2.inum

end Chdir

theorem wp_chdir {Q : Option ISlot → Fs → Prop} {path : Option (List UInt8)}
    (h : Calls lax (plus c cwd) cwd s)
    (hno : ∀ s', Ran (plus c cwd) (plus c cwd) (plus c cwd) s s' → Q none s')
    (hyes : ∀ ip s', Ran c (plus c cwd) (plus c ip) s s' →
      (s'.inode ip).inum < s.sb.ninodes → Q (some ip) s') :
    wp (chdir cwd path) Q (Fails lax) s := by
  unfold chdir
  refine wp_seq (wp_beginOp.mpr ?_)
  cases path with
  | none => exact hno _ ((Walk.refl.acted h.starts.inv).ran h.op)
  | some path =>
    refine wp_seq (wp_namei h.starts (fun s1 hinv hwalk => ?_) fun ip s1 hf => ?_)
    · exact hno _ ((hwalk.acted hinv).ran h.op)
    · refine wp_seq (wp_chdirTo h.starts hf (fun s2 hacted => ?_) fun s2 hacted hi => ?_)
      · exact hno _ (hacted.ran h.op)
      · exact hyes ip _ (hacted.ran h.op) hi

/-! ## `sys_open` -/

theorem wp_openInode {Q : Option ISlot → Fs → Prop} {omode : UInt32} (h : Starts lax cnt cwd s₀)
    (hnone : ∀ s', Acted cnt cnt cnt s₀ s' → Q none s')
    (hsome : ∀ ip s', Made cnt s₀ s' ip →
      (omode ≠ O_RDONLY → (s'.ino (s'.inode ip).inum).type ≠ T_DIR) → Q (some ip) s') :
    wp (openInode cwd path omode) Q (Fails lax) s₀ := by
  refine wp_ite (fun _ => ?_) fun _ => ?_
  · exact wp_create h (by decide) hnone fun ip s' hmade htype => hsome ip s' hmade
      fun _ => htype (by decide)
  · refine wp_seq (wp_namei h (fun s1 hinv hwalk => hnone s1 (hwalk.acted hinv)) fun ip s1 hf => ?_)
    refine wp_seq (hf.wp_ilock fun s2 hf2 _ hv2 => ?_)
    refine wp_read (wp_ite (fun _ => ?_) fun hok => ?_)
    · refine wp_seq (hf2.wp_iunlockput hv2 h.op fun s3 hinv3 hwalk3 => ?_)
      exact hnone s3 (hwalk3.acted hinv3)
    · refine hsome ip s2 (hf2.made hv2) fun hmode htype => hok ⟨?_, hmode⟩
      rw [(hf2.inv.copy_eq plus_pos hv2).1]
      exact htype

theorem Made.ran (h : Made cnt s.begun s' ip) (hop : s.op = none) :
    Ran cnt cnt (plus cnt ip) s s'.ended := by
  refine Acted.ran ⟨h.inv, h.moves, fun htd => ?_⟩ hop
  obtain ⟨d, heff⟩ := h.effect htd
  exact ⟨_, by simp, heff⟩

theorem Made.quiet (h : Made cnt s₀ s ip) (hinv : s'.Inv (plus cnt ip) none)
    (hq : Quiet (plus cnt ip) s s') : Made cnt s₀ s' ip where
  inv := hinv
  valid := hq.valid ip plus_pos h.valid
  moves := h.moves.trans hq.moves.less
  effect := by
    intro htd
    obtain ⟨d, hchange, hspent⟩ := h.effect htd
    refine ⟨d, ?_, ?_⟩
    · rw [hq.kept.refs, hq.ino]
      exact hchange
    · rw [hq.inum ip plus_pos]
      unfold Spent at hspent ⊢
      rw [hq.lg]
      exact hspent

end Xv6.Fs
