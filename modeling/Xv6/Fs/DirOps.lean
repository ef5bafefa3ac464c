/-
  Xv6.Fs.DirOps

  `dirlookup` and `dirlink` do what `dirFind` and `dirAdd` say.
-/

import Xv6.Fs.Dirents
import Xv6.Fs.Trunc

namespace Xv6.Fs

open Wp

variable {s s' : Fs} {cnt : ISlot → Nat} {dp : ISlot} {off inum : Nat} {name : List UInt8}
  {E : Halt → Fs → Prop}

def dirBytes (s : Fs) (dp : ISlot) : List UInt8 := (s.ino (s.inode dp).inum).bytes

theorem length_dirBytes : (s.dirBytes dp).length = (s.node (s.inode dp).inum).size := length_bytes

section Reading

variable (h : s.Inv cnt none) (hdp : 0 < cnt dp) (hv : (s.inode dp).valid = true)
  (ht : (s.ino (s.inode dp).inum).type = T_DIR)

include h hdp hv ht

theorem wp_readDirent {Q : List UInt8 → Fs → Prop} {msg : String}
    (hQ : off + DIRENT ≤ (s.dirBytes dp).length → Q (entry (s.dirBytes dp) off) s)
    (hE : (s.dirBytes dp).length < off + DIRENT → E (.panic msg) s) :
    wp (readDirent msg dp off) Q E s := by
  have hdir : (s.ino (s.inode dp).inum).type ≠ T_DEV := by
    rw [ht]
    decide
  have hsmall := h.full.small (s.inode dp).inum
  rw [← length_dirBytes] at hsmall
  have hbytes : (s.ino (s.inode dp).inum).bytes.length = (s.dirBytes dp).length := rfl
  simp only [readDirent, wp_bind]
  refine wp_readi h hdp hv (fun hdev => absurd hdev hdir) (fun _ hbad => ?_) fun _ hlen _ => ?_
  · -- nothing can be read behind the end
    rw [hbytes] at hbad
    rw [if_pos (by decide)]
    refine hE ?_
    simp only [MAXFILE, NDIRECT, NINDIRECT, BSIZE, DIRENT, u32] at *
    omega
  · rw [hbytes] at hlen ⊢
    by_cases hlong : off + DIRENT ≤ (s.dirBytes dp).length
    · rw [if_neg (by rw [min_eq_left (by omega)]; simp)]
      exact hQ hlong
    · rw [if_pos]
      · exact hE (by omega)
      · rw [min_eq_right (by omega)]
        intro heq
        have : (s.dirBytes dp).length - off = DIRENT := Int.ofNat.inj heq
        omega

theorem wp_dirScan {Q : Option (Nat × Nat) → Fs → Prop} {offs : List Nat}
    (hoffs : ∀ off ∈ offs, DIRENT ∣ (s.dirBytes dp).length → off + DIRENT ≤ (s.dirBytes dp).length)
    (hnone : offs.findSome? (entryIf (s.dirBytes dp) name) = none →
      (∀ off ∈ offs, off + DIRENT ≤ (s.dirBytes dp).length) → Q none s)
    (hsome : ∀ x, offs.findSome? (entryIf (s.dirBytes dp) name) = some x → Q (some x) s)
    (hE : ¬ DIRENT ∣ (s.dirBytes dp).length → E (.panic "dirlink read") s) :
    wp (dirScan dp name offs) Q E s := by
  induction offs with
  | nil => exact hnone rfl (by simp)
  | cons off offs ih =>
    simp only [dirScan, wp_bind]
    refine wp_readDirent h hdp hv ht (fun hlen => ?_) fun hshort => hE fun hmod => ?_
    · rw [List.findSome?_cons] at hnone hsome
      refine wp_ite (fun hc => ?_) fun hc => ?_
      · rw [entryIf, if_pos hc] at hsome
        exact hsome _ rfl
      · rw [entryIf, if_neg hc] at hnone hsome
        refine ih (fun o ho => hoffs o (by simp [ho])) (fun hn hrest => hnone hn fun o ho => ?_) hsome
        rcases List.mem_cons.mp ho with rfl | ho
        · exact hlen
        · exact hrest o ho
    · have := hoffs off (by simp) hmod
      omega

theorem wp_dirEmpty {Q : Nat → Fs → Prop} {offs : List Nat} {last : Nat}
    (hoffs : ∀ off ∈ offs, DIRENT ∣ (s.dirBytes dp).length → off + DIRENT ≤ (s.dirBytes dp).length)
    (hQ : Q ((offs.find? fun off => decide
      (direntInum (entry (s.dirBytes dp) off) = 0)).getD last) s)
    (hE : ¬ DIRENT ∣ (s.dirBytes dp).length → E (.panic "dirlink read") s) :
    wp (dirEmpty dp last offs) Q E s := by
  induction offs with
  | nil => exact hQ
  | cons off offs ih =>
    simp only [dirEmpty, wp_bind]
    refine wp_readDirent h hdp hv ht (fun _ => ?_) fun hshort => hE fun hmod => ?_
    · rw [List.find?_cons] at hQ
      refine wp_ite (fun hc => ?_) fun hc => ?_
      · rw [decide_eq_true hc] at hQ
        exact hQ
      · rw [decide_eq_false hc] at hQ
        exact ih (fun o ho => hoffs o (by simp [ho])) hQ
    · have := hoffs off (by simp) hmod
      omega

end Reading

theorem Inv.copy_eq (h : s.Inv cnt none) (hdp : 0 < cnt dp) (hv : (s.inode dp).valid = true) :
    (s.inode dp).copy.type = (s.ino (s.inode dp).inum).type ∧
      (s.inode dp).copy.size.toNat = (s.dirBytes dp).length ∧
      (s.inode dp).copy.nlink = (s.ino (s.inode dp).inum).nlink := by
  have hnode := h.slots.node_of_valid hdp hv
  rw [length_dirBytes]
  show _ = (s.node (s.inode dp).inum).type ∧ _ ∧ _ = (s.node (s.inode dp).inum).nlink
  rw [hnode]
  exact ⟨rfl, rfl, rfl⟩

/-- **`dirlookup` finds what the bytes say.** -/
theorem wp_dirlookup {Q : Option (ISlot × Nat) → Fs → Prop} (h : s.Inv cnt none)
    (hdp : 0 < cnt dp) (hv : (s.inode dp).valid = true)
    (hnone : (s.ino (s.inode dp).inum).type = T_DIR → dirFind (s.dirBytes dp) name = none →
      DIRENT ∣ (s.dirBytes dp).length → Q none s)
    (hsome : ∀ x off ip s', (s.ino (s.inode dp).inum).type = T_DIR →
      dirFind (s.dirBytes dp) name = some (x, off) →
      s'.Inv (plus cnt ip) none → Quiet cnt s s' → (s'.inode ip).inum = x →
      (cnt ip = 0 → (s'.inode ip).valid = false) → Q (some (ip, off)) s')
    (hdir : (s.ino (s.inode dp).inum).type ≠ T_DIR → E (.panic "dirlookup not DIR") s)
    (hshort : ¬ DIRENT ∣ (s.dirBytes dp).length → E (.panic "dirlink read") s)
    (hfull : (∀ j, 0 < cnt j) → E (.panic "iget: no inodes") s) :
    wp (dirlookup dp name) Q E s := by
  obtain ⟨htype, hsize, -⟩ := h.copy_eq hdp hv
  simp only [dirlookup, copyOf, wp_bind, wp_look]
  rw [htype, hsize]
  refine wp_ite (fun hne => hdir hne) fun heq => ?_
  have ht := not_not.mp heq
  simp only [wp_bind]
  refine wp_dirScan h hdp hv ht (fun off hoff hmod => le_of_mem_offsets hmod (Nat.dvd_zero _) hoff)
    (fun hn hall => hnone ht hn (dvd_of_offsets hall)) (fun found hfound => ?_) hshort
  obtain ⟨x, off⟩ := found
  simp only [wp_bind, wp_pure]
  exact wp_iget h (fun ip s' hinv hquiet hinum hidle =>
    hsome x off ip s' ht hfound hinv hquiet hinum hidle) hfull

theorem wp_iput_found {Q : Unit → Fs → Prop} {ip : ISlot} {s1 : Fs} (h1 : s1.Inv (plus cnt ip) none)
    (hquiet : Quiet cnt s s1) (hidle : cnt ip = 0 → (s1.inode ip).valid = false)
    (hQ : ∀ s', s'.Inv cnt none → Quiet cnt s s' → Q () s') : wp (iput ip) Q E s1 := by
  simp only [iput, ifreeUnused, onInode, wp_bind, wp_look, wp_change]
  refine wp_ite (fun hc => ?_) fun _ => ?_
  · -- with no other reference, the slot would have been read in
    have href := h1.slots.ref ip
    rw [plus_self, hc.1] at href
    have := hidle (by omega)
    rw [hc.2.1] at this
    exact absurd this (by simp)
  · obtain ⟨hinv, hquiet'⟩ := h1.putRef
    exact hQ _ hinv (hquiet.trans hquiet')

/-- **`dirlink` adds an entry**, unless there is one with the name. -/
theorem wp_dirlink {Q : Int → Fs → Prop} (h : s.Inv cnt none) (hdp : 0 < cnt dp)
    (hv : (s.inode dp).valid = true) (hop : s.op.isSome)
    (hold : ∀ s' x, dirFind (s.dirBytes dp) name = some x → s'.Inv cnt none →
      Quiet cnt s s' → Q (-1) s')
    (hnew : ∀ s', (s.ino (s.inode dp).inum).type = T_DIR → dirFind (s.dirBytes dp) name = none →
      DIRENT ∣ (s.dirBytes dp).length →
      Stored cnt s s' dp (dirSlot (s.dirBytes dp)) (dirent inum name) → Q 0 s')
    (hdir : (s.ino (s.inode dp).inum).type ≠ T_DIR → E (.panic "dirlookup not DIR") s)
    (hshort : ¬ DIRENT ∣ (s.dirBytes dp).length → E (.panic "dirlink read") s)
    (hfull : (∀ j, 0 < cnt j) → E (.panic "iget: no inodes") s)
    (hlong : MAXFILE * BSIZE < dirSlot (s.dirBytes dp) + DIRENT → E (.panic "dirlink") s)
    (hfew : s.freeBlocks < (s.missing (s.inode dp).inum
        (places (spans (dirSlot (s.dirBytes dp)) DIRENT))).card →
      ∀ s', s'.overlap = false → E (.panic "balloc: out of blocks") s') :
    wp (dirlink dp name inum) Q E s := by
  obtain ⟨htype, hsize, -⟩ := h.copy_eq hdp hv
  simp only [dirlink, wp_bind]
  refine wp_dirlookup h hdp hv (fun ht hnone hmod => ?_)
    (fun x off ip s1 _ hfound hinv hquiet _ hidle => ?_) hdir hshort hfull
  · have hdev : (s.ino (s.inode dp).inum).type ≠ T_DEV := by
      rw [ht]
      decide
    have hslot := (dirSlot_le hmod).1
    have hsmall := h.full.small (s.inode dp).inum
    rw [← length_dirBytes] at hsmall
    simp only [copyOf, wp_bind, wp_look]
    rw [hsize]
    refine wp_dirEmpty h hdp hv ht (fun off hoff hmod =>
      le_of_mem_offsets hmod (Nat.dvd_zero _) hoff) ?_ hshort
    change wp (writei 0 dp (dirent inum name) (dirSlot _)) _ _ _
    refine wp_writei h hdp hv hop (fun hd => absurd hd hdev) (fun _ hbad => ?_)
      (fun _ _ _ s' hst => ?_) fun _ _ _ hcard => ?_
    · rw [← length_dirBytes, length_dirent] at hbad
      rw [if_pos (by decide)]
      refine hlong ?_
      simp only [MAXFILE, NDIRECT, NINDIRECT, BSIZE, DIRENT, u32] at *
      omega
    · rw [length_dirent, if_neg (by simp)]
      exact hnew s' ht hnone hmod hst
    · rw [length_dirent] at hcard
      exact hfew hcard
  · simp only [wp_bind, wp_pure]
    exact wp_iput_found hinv hquiet hidle fun s' hinv' hquiet' =>
      hold s' (x, off) hfound hinv' hquiet'

end Xv6.Fs
