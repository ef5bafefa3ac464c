/-
  Xv6.Fs.Path

  Path resolution.

  `namex` drops the last reference to an inode it has locked, and frees the
  inode if that has no links; in a tree where an inode without links is always
  referred to by somebody (`Tended`) this does not happen, and `namex` changes
  nothing.  Every inode it locks is the root directory, the current directory or
  named by an entry (`Reach`), so it finds no free inode if no entry names one
  (`Solid`).
-/

import Xv6.Fs.DirOps

namespace Xv6

open Function List Wp

/-! ## Trees of inodes -/

/-- The inodes as their users see them. -/
abbrev Tree := Nat → Ino

namespace Tree

variable {n n' : Tree} {H H' : Nat → Prop} {d off x i N : Nat}

structure Names (n : Tree) (d off x : Nat) : Prop where
  dir : (n d).type = T_DIR
  used : EntryAt (n d).bytes off
  inum : direntInum (entry (n d).bytes off) = x

inductive Reach (n : Tree) (H : Nat → Prop) : Nat → Prop
  | root : Reach n H ROOTINO
  | start {x : Nat} (h : H x) : Reach n H x
  | entry {d off x : Nat} (hd : Reach n H d) (hn : n.Names d off x) : Reach n H x

structure Sane (n : Tree) (N : Nat) : Prop where
  root : ROOTINO < N
  whole : ∀ d, (n d).type = T_DIR → DIRENT ∣ (n d).bytes.length
  entry : ∀ d off x, n.Names d off x → x < N

/-- No path leads to a free inode. -/
def Solid (n : Tree) (H : Nat → Prop) : Prop := ∀ x, n.Reach H x → (n x).type ≠ 0

def Tended (n : Tree) (H K : Nat → Prop) : Prop :=
  ∀ x, n.Reach H x → (n x).type ≠ 0 → (n x).nlink = 0 → K x

theorem Names.of_free (h : Names (update n i Ino.free) d off x) : n.Names d off x := by
  obtain ⟨hdir, hused, hinum⟩ := h
  by_cases hd : d = i
  · rw [hd, update_self] at hdir
    exact absurd hdir (by decide)
  · rw [update_of_ne hd] at hdir hused hinum
    exact ⟨hdir, hused, hinum⟩

theorem Sane.free (h : n.Sane N) : Sane (update n i Ino.free) N := by
  refine ⟨h.root, fun d hd => ?_, fun d off x hn => h.entry d off x hn.of_free⟩
  by_cases hi : d = i
  · rw [hi, update_self] at hd
    exact absurd hd (by decide)
  · rw [update_of_ne hi] at hd ⊢
    exact h.whole d hd

theorem Names.of_dirFind {name : List UInt8} (ht : (n d).type = T_DIR)
    (h : dirFind (n d).bytes name = some (x, off)) : n.Names d off x := by
  obtain ⟨hat, hx, -⟩ := EntryAt.of_dirFind h
  exact ⟨ht, hat, hx⟩

end Tree

namespace Fs

variable {s s' s'' s₀ : Fs} {cnt cnt' : ISlot → Nat} {ip jp : ISlot} {i x off : Nat} {lax : Prop}
  {path name : List UInt8}
variable {Q : Option (ISlot × List UInt8) → Fs → Prop} {cwd : ISlot}

/-- Inode `i` has a slot that is referred to. -/
def Refs (s : Fs) (cnt : ISlot → Nat) (i : Nat) : Prop := ∃ j, 0 < cnt j ∧ (s.inode j).inum = i

def Held (s : Fs) (cnt : ISlot → Nat) (i : Nat) : Prop :=
  ∃ j, 0 < cnt j ∧ (s.inode j).inum = i ∧ (s.inode j).valid = true

def Reach (s : Fs) (cnt : ISlot → Nat) : Nat → Prop := Tree.Reach s.ino (s.Refs cnt)

def Tended (s : Fs) (cnt : ISlot → Nat) : Prop := Tree.Tended s.ino (s.Refs cnt) (s.Held cnt)

theorem Kept.held (h : Kept cnt s s') (hi : s.Held cnt i) : s'.Held cnt i := by
  obtain ⟨j, hj, hinum, hv⟩ := hi
  exact ⟨j, hj, (h.inum j hj).trans hinum, h.valid j hj hv⟩

theorem Kept.refs (h : Kept cnt s s') : s'.Refs cnt = s.Refs cnt := by
  funext i
  refine propext (exists_congr fun j => and_congr_right fun hj => ?_)
  rw [h.inum j hj]

/-! ## Walks -/

structure Walk (cnt : ISlot → Nat) (s s' : Fs) : Prop where
  kept : Kept cnt s s'
  sane : Tree.Sane s.ino s.sb.ninodes → Tree.Sane s'.ino s.sb.ninodes
  still : s.Tended cnt → s'.ino = s.ino ∧ s'.lg = s.lg

theorem Walk.reach (h : Walk cnt s s') (ht : s.Tended cnt) : s'.Reach cnt = s.Reach cnt := by
  rw [Reach, Reach, (h.still ht).1, h.kept.refs]

theorem Walk.tended (h : Walk cnt s s') (ht : s.Tended cnt) : s'.Tended cnt := by
  intro x hx
  rw [← Reach, h.reach ht] at hx
  rw [(h.still ht).1]
  exact fun htype hn => h.kept.held (ht x hx htype hn)

theorem Walk.trans (h : Walk cnt s s') (h' : Walk cnt s' s'') : Walk cnt s s'' where
  kept := h.kept.trans h'.kept
  sane := by
    intro hw
    have hw' := h'.sane
    rw [h.kept.sb] at hw'
    exact hw' (h.sane hw)
  still := by
    intro ht
    obtain ⟨hino, hlg⟩ := h.still ht
    obtain ⟨hino', hlg'⟩ := h'.still (h.tended ht)
    exact ⟨hino'.trans hino, hlg'.trans hlg⟩

theorem Quiet.walk (h : Quiet cnt s s') : Walk cnt s s' where
  kept := h.kept
  sane := fun hw => by rw [h.ino]; exact hw
  still := fun _ => ⟨h.ino, h.lg⟩

theorem Walk.refl : Walk cnt s s := Quiet.refl.walk

theorem Walk.drop (h : Walk cnt s₀ s) (hdrop : Dropped cnt' s s' ip)
    (hle : ∀ j, 0 < cnt j → 0 < cnt' j) (hlast : s₀.Tended cnt → ¬ s.Last cnt' ip) :
    Walk cnt s₀ s' where
  kept := h.kept.trans (hdrop.kept.mono hle)
  sane := by
    intro hw
    by_cases hl : s.Last cnt' ip
    · rw [(hdrop.free hl).1]
      exact Tree.Sane.free (h.sane hw)
    · rw [(hdrop.same hl).1]
      exact h.sane hw
  still := by
    intro ht
    obtain ⟨hino, hlg⟩ := h.still ht
    obtain ⟨hino', hlg'⟩ := hdrop.same (hlast ht)
    exact ⟨hino'.trans hino, hlg'.trans hlg⟩

theorem Last.of_plus (h : s.Last (plus cnt jp) ip) : s.Last cnt ip := by
  obtain ⟨h0, hv, hn⟩ := h
  have hle : cnt ip ≤ plus cnt jp ip := le_plus
  exact ⟨by omega, hv, hn⟩

/-! ## Slots on the way -/

structure Found (lax : Prop) (cnt : ISlot → Nat) (s₀ s : Fs) (ip : ISlot) : Prop where
  walk : Walk cnt s₀ s
  inv : s.Inv (plus cnt ip) none
  inum : (s.inode ip).inum < s₀.sb.ninodes
  type : lax ∨ (s.ino (s.inode ip).inum).type ≠ 0
  known : s₀.Tended cnt → s₀.Reach cnt (s.inode ip).inum

theorem Found.not_last (h : Found lax cnt s₀ s ip) (ht : s₀.Tended cnt) : ¬ s.Last cnt ip := by
  rintro ⟨h0, hv, hn⟩
  have htype : (s.ino (s.inode ip).inum).type ≠ 0 := by
    rw [← (h.inv.copy_eq plus_pos hv).1]
    exact h.inv.slots.typed ip plus_pos hv
  have hreach : s.Reach cnt (s.inode ip).inum := by
    rw [h.walk.reach ht]
    exact h.known ht
  obtain ⟨j, hj, hinum, -⟩ := h.walk.tended ht _ hreach htype hn
  have heq := h.inv.slots.uniq j ip (plus_pos_of_pos hj) plus_pos hinum
  rw [heq, h0] at hj
  exact Nat.lt_irrefl 0 hj

theorem Found.quiet (h : Found lax cnt s₀ s ip) (hq : Quiet (plus cnt ip) s s')
    (hinv : s'.Inv (plus cnt ip) none) : Found lax cnt s₀ s' ip := by
  have hinum := hq.inum ip plus_pos
  refine ⟨h.walk.trans hq.less.walk, hinv, ?_, ?_, fun ht => ?_⟩
  · rw [hinum]
    exact h.inum
  · rw [hq.ino, hinum]
    exact h.type
  · rw [hinum]
    exact h.known ht

section Found

variable {Q : Unit → Fs → Prop} (h : Found lax cnt s₀ s ip)

include h

theorem Found.wp_ilock (hQ : ∀ s', Found lax cnt s₀ s' ip → Quiet (plus cnt ip) s s' →
    (s'.inode ip).valid = true → Q () s') : wp (ilock ip) Q (Fails lax) s :=
  Fs.wp_ilock h.inv plus_pos (by rw [h.walk.kept.sb]; exact h.inum) h.type fun s' hinv hq hv =>
    hQ s' (h.quiet hq hinv) hq hv

theorem Found.wp_iunlock (hQ : ∀ s', Found lax cnt s₀ s' ip → Quiet (plus cnt ip) s s' → Q () s') :
    wp (iunlock ip) Q (Fails lax) s :=
  Fs.wp_iunlock h.inv plus_pos fun s' hinv hq => hQ s' (h.quiet hq hinv) hq

theorem Found.wp_iput {E : Halt → Fs → Prop} (hop : s₀.op.isSome)
    (hQ : ∀ s', s'.Inv cnt none → Walk cnt s₀ s' → Q () s') : wp (iput ip) Q E s :=
  Fs.wp_iput h.inv (by rw [h.walk.kept.isSome]; exact hop) fun s' hinv hdrop =>
    hQ s' hinv (h.walk.drop hdrop (fun _ hj => hj) h.not_last)

theorem Found.wp_iunlockput (hv : (s.inode ip).valid = true) (hop : s₀.op.isSome)
    (hQ : ∀ s', s'.Inv cnt none → Walk cnt s₀ s' → Q () s') : wp (iunlockput ip) Q (Fails lax) s :=
  Fs.wp_iunlockput h.inv hv (by rw [h.walk.kept.isSome]; exact hop) fun s' hinv hdrop =>
    hQ s' hinv (h.walk.drop hdrop (fun _ hj => hj) h.not_last)

end Found

theorem skipelem_length {rest : List UInt8} (h : skipelem path = some (name, rest)) :
    rest.length < path.length := by
  unfold skipelem at h
  split at h
  · exact absurd h (by simp)
  · rename_i c t hdrop
    obtain ⟨-, rfl⟩ := Prod.mk.inj (Option.some.inj h)
    -- the element starts with a byte that is not a slash
    have hc : (c == slash) = false := by
      have hhead := List.head?_dropWhile_not (p := (· == slash)) path
      rw [hdrop] at hhead
      simpa using hhead
    have hne : (c != slash) = true := by
      simpa [bne] using hc
    have hshort : (((c :: t).dropWhile (· != slash)).dropWhile (· == slash)).length ≤ t.length := by
      rw [dropWhile_cons, if_pos hne]
      exact ((dropWhile_suffix _).length_le).trans (dropWhile_suffix _).length_le
    have hle : (c :: t).length ≤ path.length := by
      rw [← hdrop]
      exact (dropWhile_suffix _).length_le
    rw [length_cons] at hle
    omega

/-! ## `namex` -/

structure Calm (s : Fs) (cnt : ISlot → Nat) : Prop where
  solid : Tree.Solid s.ino (s.Refs cnt)
  tended : s.Tended cnt

section Entry

/- An entry of a directory on the way. -/
variable (h : Found lax cnt s₀ s ip) (ht : (s.ino (s.inode ip).inum).type = T_DIR)
  (hfound : dirFind (s.dirBytes ip) name = some (x, off))

include h ht hfound

theorem Found.entry_lt (hs : Tree.Sane s₀.ino s₀.sb.ninodes) : x < s₀.sb.ninodes :=
  (h.walk.sane hs).entry _ _ x (.of_dirFind ht hfound)

theorem Found.entry_reach (htd : s₀.Tended cnt) : s₀.Reach cnt x := by
  have hnames : Tree.Names s.ino (s.inode ip).inum off x := .of_dirFind ht hfound
  rw [(h.walk.still htd).1] at hnames
  exact (h.known htd).entry hnames

theorem Found.entry_type (hl : lax ∨ s₀.Calm cnt) : lax ∨ (s.ino x).type ≠ 0 := by
  refine hl.imp_right fun hcalm => ?_
  rw [(h.walk.still hcalm.tended).1]
  exact hcalm.solid x (h.entry_reach ht hfound hcalm.tended)

theorem Found.next (hs : Tree.Sane s₀.ino s₀.sb.ninodes) (hl : lax ∨ s₀.Calm cnt)
    (hv : (s.inode ip).valid = true) (hq : Quiet (plus cnt ip) s s')
    (hx : (s'.inode jp).inum = x) (hdrop : Dropped (plus cnt jp) s' s'' ip)
    (hinv : s''.Inv (plus cnt jp) none) : Found lax cnt s₀ s'' jp := by
  have hwalk' : Walk cnt s₀ s' := h.walk.trans hq.less.walk
  -- the directory is not freed in a tended tree
  have hlast : s₀.Tended cnt → ¬ s'.Last (plus cnt jp) ip := by
    intro htd hl
    obtain ⟨h0, -, hn⟩ := hl.of_plus
    rw [hq.inum ip plus_pos, hq.ino] at hn
    exact h.not_last htd ⟨h0, hv, hn⟩
  have hwalk : Walk cnt s₀ s'' := hwalk'.drop hdrop (fun j => plus_pos_of_pos) hlast
  have hinum : (s''.inode jp).inum = x := (hdrop.kept.inum jp plus_pos).trans hx
  refine ⟨hwalk, hinv, ?_, ?_, fun htd => ?_⟩
  · rw [hinum]
    exact h.entry_lt ht hfound hs
  · refine hl.imp_right fun hcalm => ?_
    rw [hinum, (hwalk.still hcalm.tended).1]
    exact hcalm.solid x (h.entry_reach ht hfound hcalm.tended)
  · rw [hinum]
    exact h.entry_reach ht hfound htd

end Entry

section Namex

/- Paths are resolved in a transaction, for a process in directory `cwd`. -/
variable (hs : Tree.Sane s₀.ino s₀.sb.ninodes) (hl : lax ∨ s₀.Calm cnt) (hop : s₀.op.isSome)

include hs hl hop

theorem wp_namexLoop {Q : Option (ISlot × List UInt8) → Fs → Prop} {parent : Bool} {fuel : Nat}
    (h : Found lax cnt s₀ s ip) (hfuel : path.length < fuel)
    (hnone : ∀ s', s'.Inv cnt none → Walk cnt s₀ s' → Q none s')
    (hsome : ∀ jp name s', Found lax cnt s₀ s' jp → (parent = true → (s'.inode jp).valid = true ∧
        (s'.ino (s'.inode jp).inum).type = T_DIR) → Q (some (jp, name)) s') :
    wp (namexLoop parent fuel path ip) Q (Fails lax) s := by
  -- the induction follows the path; each round ends with the slot of the next element
  induction fuel generalizing path ip s with
  | zero => omega
  | succ fuel ih =>
    rw [namexLoop]
    cases hskip : skipelem path with
    | none =>
      refine wp_ite (fun _ => ?_) fun hp => ?_
      · simp only [wp_bind, wp_pure]
        exact h.wp_iput hop hnone
      · exact hsome ip [] s h fun hp' => absurd hp' hp
    | some elem =>
      obtain ⟨name, rest⟩ := elem
      have hlen := skipelem_length hskip
      simp only [wp_bind]
      refine h.wp_ilock fun s1 h1 hq1 hv1 => ?_
      obtain ⟨htype, hsize, -⟩ := h1.inv.copy_eq plus_pos hv1
      have hop1 : s1.op.isSome := by
        rw [h1.walk.kept.isSome]
        exact hop
      simp only [copyOf, wp_look]
      rw [htype]
      refine wp_ite (fun _ => ?_) fun hdir => wp_ite (fun hp => ?_) fun _ => ?_
      · simp only [wp_bind, wp_pure]
        exact h1.wp_iunlockput hv1 hop hnone
      · simp only [wp_bind, wp_pure]
        refine h1.wp_iunlock fun s2 h2 hq2 => hsome ip name s2 h2 fun _ => ⟨?_, ?_⟩
        · exact hq2.valid ip plus_pos hv1
        · rw [hq2.ino, hq2.inum ip plus_pos]
          exact not_not.mp hdir
      · simp only [wp_bind]
        refine wp_dirlookup h1.inv plus_pos hv1 (fun _ _ _ => ?_)
          (fun x off jp s2 ht hfound hinv2 hq2 hx _ => ?_) (fun hne => absurd hne hdir)
          (fun _ => h1.inv.fails (by simp)) fun _ => h1.inv.fails (by simp)
        · simp only [wp_bind, wp_pure]
          exact h1.wp_iunlockput hv1 hop hnone
        · simp only [wp_bind]
          rw [plus_comm] at hinv2
          refine Fs.wp_iunlockput hinv2 (hq2.valid ip plus_pos hv1) (by rw [hq2.op]; exact hop1)
            fun s3 hinv3 hdrop => ?_
          exact ih (h1.next ht hfound hs hl hv1 hq2 hx hdrop hinv3) (by omega)

end Namex

structure Starts (lax : Prop) (cnt : ISlot → Nat) (cwd : ISlot) (s : Fs) : Prop where
  inv : s.Inv cnt none
  op : s.op.isSome
  sane : Tree.Sane s.ino s.sb.ninodes
  calm : lax ∨ s.Calm cnt
  pos : 0 < cnt cwd
  inum : (s.inode cwd).inum < s.sb.ninodes

/-- **`namex`** returns a slot with a reference, or gives up all it has taken. -/
theorem wp_namex {parent : Bool} (h : Starts lax cnt cwd s₀)
    (hnone : ∀ s', s'.Inv cnt none → Walk cnt s₀ s' → Q none s')
    (hsome : ∀ jp name s', Found lax cnt s₀ s' jp → (parent = true → (s'.inode jp).valid = true ∧
        (s'.ino (s'.inode jp).inum).type = T_DIR) → Q (some (jp, name)) s') :
    wp (namex cwd path parent) Q (Fails lax) s₀ := by
  simp only [namex, namexStart, wp_bind]
  refine wp_ite (fun _ => ?_) fun _ => ?_
  · refine wp_iget h.inv (fun ip s1 hinv1 hq1 hx _ => ?_) fun _ => h.inv.fails (by simp)
    refine wp_namexLoop h.sane h.calm h.op ⟨hq1.walk, hinv1, ?_, ?_, fun _ => ?_⟩
      (Nat.lt_succ_self _) hnone hsome
    · rw [hx]
      exact h.sane.root
    · rw [hx, hq1.ino]
      exact h.calm.imp_right fun hcalm => hcalm.solid _ .root
    · rw [hx]
      exact .root
  · refine wp_idup h.inv h.pos fun s1 hinv1 hq1 => ?_
    have hinum := hq1.inum cwd h.pos
    refine wp_namexLoop h.sane h.calm h.op ⟨hq1.walk, hinv1, ?_, ?_, fun _ => ?_⟩
      (Nat.lt_succ_self _) hnone hsome
    · rw [hinum]
      exact h.inum
    · rw [hinum, hq1.ino]
      exact h.calm.imp_right fun hcalm => hcalm.solid _ (.start ⟨cwd, h.pos, rfl⟩)
    · exact .start ⟨cwd, h.pos, hinum.symm⟩

theorem wp_namei {Q : Option ISlot → Fs → Prop} (h : Starts lax cnt cwd s₀)
    (hnone : ∀ s', s'.Inv cnt none → Walk cnt s₀ s' → Q none s')
    (hsome : ∀ jp s', Found lax cnt s₀ s' jp → Q (some jp) s') :
    wp (namei cwd path) Q (Fails lax) s₀ := by
  simp only [namei, wp_bind, wp_pure]
  exact wp_namex h hnone fun jp _ s' hf _ => hsome jp s' hf

theorem wp_nameiparent (h : Starts lax cnt cwd s₀)
    (hnone : ∀ s', s'.Inv cnt none → Walk cnt s₀ s' → Q none s')
    (hsome : ∀ jp name s', Found lax cnt s₀ s' jp → (s'.inode jp).valid = true →
      (s'.ino (s'.inode jp).inum).type = T_DIR → Q (some (jp, name)) s') :
    wp (nameiparent cwd path) Q (Fails lax) s₀ :=
  wp_namex h hnone fun jp name s' hf hp => hsome jp name s' hf (hp rfl).1 (hp rfl).2

end Fs
end Xv6
