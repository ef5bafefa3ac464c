/-
  Xv6.Fs.DirMap

  A directory is a finite map from names to inode numbers.
-/

import Xv6.Fs.Flat

namespace Xv6

open Function Finset Wp Fs

variable {E : Halt → Fs → Prop} {Q : Int → Fs → Prop}

/-! ## Operations -/

/-- Remove an entry as `sys_unlink` does. -/
def dirRemove (dp : ISlot) (name : List UInt8) : FsM Int := do
  let hit ← dirlookup dp name
  match hit with
  | none => pure (-1)
  | some (ip, off) => do
      let r ← writei 0 dp (List.replicate DIRENT 0) off
      if r ≠ DIRENT then fail (.panic "unlink: writei")
      else do
        iput ip
        pure 0

def dirInum (dp : ISlot) (name : List UInt8) : FsM Int := do
  let hit ← dirlookup dp name
  match hit with
  | none => pure 0
  | some (ip, _) => do
      let i ← look fun s => (s.inode ip).inum
      iput ip
      pure i

inductive DirOp where
  | link (name : List UInt8) (inum : Nat)
  | remove (name : List UInt8)
  | lookup (name : List UInt8)

namespace DirOp

def body (dp : ISlot) : DirOp → FsM Int
  | link name inum => dirlink dp name inum
  | remove name => dirRemove dp name
  | lookup name => dirInum dp name

/-- The callers of these functions are transactions. -/
def run (dp : ISlot) (op : DirOp) : FsM Int := do
  beginOp
  let r ← op.body dp
  endOp
  pure r

def bindName (m : List UInt8 → Option Nat) (name : List UInt8) (v : Option Nat) :
    List UInt8 → Option Nat := fun n => if key n = key name then v else m n

/-- What the operation returns and does to a map from names to inode numbers. -/
def onMap (m : List UInt8 → Option Nat) : DirOp → Int × (List UInt8 → Option Nat)
  | link name inum => if (m name).isSome then (-1, m) else (0, bindName m name (some inum))
  | remove name => if (m name).isSome then (0, bindName m name none) else (-1, m)
  | lookup name => ((m name).getD 0, m)

def adds : DirOp → Nat
  | link _ _ => 1
  | _ => 0

def Proper : DirOp → Prop
  | link _ inum => 1 ≤ inum ∧ inum ≤ 65535
  | _ => True

end DirOp

/-- The map that the bytes of a directory stand for. -/
def dirMap (bytes : List UInt8) : List UInt8 → Option Nat := fun name =>
  (dirFind bytes name).map Prod.fst

section Map

variable {bytes name : List UInt8} {inum off x : Nat}

theorem dirMap_add (hok : DirOk bytes) (hinum : 1 ≤ inum ∧ inum ≤ 65535)
    (hnew : dirFind bytes name = none) :
    dirMap (dirAdd bytes name inum) = DirOp.bindName (dirMap bytes) name (some inum) := by
  have hlt : inum % 65536 = inum := Nat.mod_eq_of_lt (by omega)
  have hne : inum % 65536 ≠ 0 := by omega
  have hok' : DirOk (dirAdd bytes name inum) := hok.add hne hnew
  funext n
  unfold DirOp.bindName dirMap
  by_cases hkey : key n = key name
  · -- the new entry
    have hfind : dirFind (dirAdd bytes name inum) n = some (inum, dirSlot bytes) := by
      rw [hok'.dirFind_eq_some, entryAt_dirAdd hok.whole hne, entry_dirAdd_self hok.whole,
        direntInum_dirent, hlt, nameAt_dirAdd_self hok.whole]
      exact ⟨.inr rfl, rfl, hkey.symm⟩
    rw [hfind, if_pos hkey]
    rfl
  · rw [if_neg hkey]
    cases hfind : dirFind bytes n with
    | none =>
      have hnone : dirFind (dirAdd bytes name inum) n = none := by
        rw [dirFind_eq_none] at hfind ⊢
        intro o ho heq
        rw [entryAt_dirAdd hok.whole hne] at ho
        by_cases hslot : o = dirSlot bytes
        · rw [hslot, nameAt_dirAdd_self hok.whole] at heq
          exact hkey heq.symm
        · have ho := ho.resolve_right hslot
          rw [nameAt_dirAdd_of_ne hok.whole ho.dvd hslot] at heq
          exact hfind o ho heq
      rw [hnone]
    | some found =>
      obtain ⟨y, o⟩ := found
      obtain ⟨hat, hy, hname⟩ := EntryAt.of_dirFind hfind
      have hslot : o ≠ dirSlot bytes := fun heq => not_entryAt_dirSlot (heq ▸ hat)
      have hsame : dirFind (dirAdd bytes name inum) n = some (y, o) := by
        rw [hok'.dirFind_eq_some, entryAt_dirAdd hok.whole hne,
          entry_dirAdd_of_ne hok.whole hat.dvd hslot, nameAt_dirAdd_of_ne hok.whole hat.dvd hslot]
        exact ⟨.inl hat, hy, hname⟩
      rw [hsame]

theorem dirMap_erase (hok : DirOk bytes) (hfound : dirFind bytes name = some (x, off)) :
    dirMap (dirErase bytes off) = DirOp.bindName (dirMap bytes) name none := by
  obtain ⟨hat, -, hname⟩ := EntryAt.of_dirFind hfound
  have hok' := hok.erase hat.1
  have hentry : ∀ o, EntryAt bytes o → o ≠ off →
      nameAt (dirErase bytes off) o = nameAt bytes o := by
    intro o ho hne
    unfold nameAt
    rw [entry_dirErase_of_ne hat.1 ho.dvd hne]
  funext n
  unfold DirOp.bindName dirMap
  by_cases hkey : key n = key name
  · have hnone : dirFind (dirErase bytes off) n = none := by
      rw [dirFind_eq_none]
      intro o ho heq
      rw [entryAt_dirErase hok.whole hat.1] at ho
      rw [hentry o ho.1 ho.2, hkey, ← hname] at heq
      exact ho.2 (hok.distinct o off ho.1 hat heq)
    rw [if_pos hkey, hnone]
    rfl
  · rw [if_neg hkey]
    cases hfind : dirFind bytes n with
    | none =>
      have hnone : dirFind (dirErase bytes off) n = none := by
        rw [dirFind_eq_none] at hfind ⊢
        intro o ho heq
        rw [entryAt_dirErase hok.whole hat.1] at ho
        rw [hentry o ho.1 ho.2] at heq
        exact hfind o ho.1 heq
      rw [hnone]
    | some found =>
      obtain ⟨y, o⟩ := found
      obtain ⟨hat', hy, hname'⟩ := EntryAt.of_dirFind hfind
      have hne : o ≠ off := by
        rintro rfl
        exact hkey (hname'.symm.trans hname)
      have hsame : dirFind (dirErase bytes off) n = some (y, o) := by
        rw [hok'.dirFind_eq_some, entryAt_dirErase hok.whole hat.1, hentry o hat' hne,
          entry_dirErase_of_ne hat.1 hat'.dvd hne]
        exact ⟨⟨hat', hne⟩, hy, hname'⟩
      rw [hsame]

end Map

namespace Fs

variable {s s' : Fs} {cnt : ISlot → Nat} {dp : ISlot} {name : List UInt8} {n inum : Nat}
variable {off m : Nat} {op : DirOp}

/-! ## Room to grow -/

/-- The directory can take `n` more entries. -/
structure Grows (s : Fs) (dp : ISlot) (n : Nat) : Prop where
  size : (s.dirBytes dp).length + n * DIRENT ≤ MAXFILE * BSIZE
  room : s.Room ((places (spans (s.dirBytes dp).length (n * DIRENT))).image
    (Prod.mk (s.inode dp).inum))

/-- A directory in a slot, ready for operations. -/
structure Ready (s : Fs) (cnt : ISlot → Nat) (dp : ISlot) (n : Nat) : Prop where
  inv : s.Inv cnt none
  op : s.op.isSome
  held : 0 < cnt dp
  valid : (s.inode dp).valid = true
  dir : (s.ino (s.inode dp).inum).type = T_DIR
  ok : DirOk (s.dirBytes dp)
  grows : s.Grows dp n

theorem Room.congr {D : Finset (Nat × Nat)} (h : s.Room D) (hnode : s'.node = s.node)
    (hdisk : s'.disk = s.disk) (hsb : s'.sb = s.sb) : s'.Room D := by
  have hfree : s'.freeBlocks = s.freeBlocks := freeBlocks_congr hsb fun x _ => by
    rw [bitOf, bitOf, hdisk, hsb]
  unfold Room
  rw [hnode, hfree]
  exact h

theorem places_mono {K K' : Finset Nat} (h : K ⊆ K') : places K ⊆ places K' := by
  intro x hx
  rcases mem_places.mp hx with hx | ⟨rfl, k, hk, hk12⟩
  · exact mem_places.mpr (.inl (h hx))
  · exact mem_places.mpr (.inr ⟨rfl, k, h hk, hk12⟩)

theorem spans_mono {off' m' : Nat} (hlo : off' ≤ off) (hhi : off + m ≤ off' + m') :
    spans off m ⊆ spans off' m' := by
  intro k hk
  rw [mem_spans] at hk ⊢
  obtain ⟨hmax, hpos, hk1, hk2⟩ := hk
  refine ⟨hmax, by omega, by omega, by omega⟩

theorem Grows.mono (h : s.Grows dp n) (hle : m ≤ n) : s.Grows dp m := by
  have hmul : m * DIRENT ≤ n * DIRENT := Nat.mul_le_mul_right _ hle
  exact ⟨by have := h.size; omega,
    h.room.mono (image_subset_image (places_mono (spans_mono le_rfl (by omega))))⟩

theorem Ready.mono (h : s.Ready cnt dp n) (hle : m ≤ n) : s.Ready cnt dp m :=
  { h with grows := h.grows.mono hle }

theorem Ready.quiet {cnt1 cnt' : ISlot → Nat} (h : s.Ready cnt dp n) (hq : Quiet cnt1 s s')
    (hdp1 : 0 < cnt1 dp) (hinv : s'.Inv cnt' none) (hdp : 0 < cnt' dp) :
    s'.Ready cnt' dp n ∧ s'.dirBytes dp = s.dirBytes dp := by
  have hinum := hq.inum dp hdp1
  have hbytes : s'.dirBytes dp = s.dirBytes dp := by rw [dirBytes, dirBytes, hinum, hq.ino]
  refine ⟨⟨hinv, by rw [hq.op]; exact h.op, hdp, hq.valid dp hdp1 h.valid, ?_, ?_, ?_, ?_⟩, hbytes⟩
  · rw [hinum, hq.ino]
    exact h.dir
  · rw [hbytes]
    exact h.ok
  · rw [hbytes]
    exact h.grows.size
  · rw [hbytes, hinum]
    exact h.grows.room.congr hq.node hq.disk hq.sb

theorem missing_below (h : s.Inv cnt none) (hdp : 0 < cnt dp)
    (hv : (s.inode dp).valid = true) (hlen : off + m ≤ (s.dirBytes dp).length) :
    s.missing (s.inode dp).inum (places (spans off m)) = ∅ := by
  rw [length_dirBytes] at hlen
  have hmapped : ∀ k ∈ spans off m, (s.node (s.inode dp).inum).block k ≠ 0 := by
    intro k hk
    obtain ⟨-, hpos, -, hhi⟩ := mem_spans.mp hk
    exact h.full.mapped _ k (by omega)
  refine filter_eq_empty_iff.mpr fun x hx => ?_
  rcases mem_places.mp hx with hx | ⟨rfl, k, hk, hk12⟩
  · exact hmapped x hx
  · exact h.dirty.table_ne hdp hv hk12 (mem_spans.mp hk).1 (hmapped k hk)

theorem Ready.stored {src : List UInt8} (h : s.Ready cnt dp n)
    (hst : Stored cnt s s' dp off src) (hoff : off ≤ (s.dirBytes dp).length) (hmod : DIRENT ∣ off)
    (hsrc : src.length = DIRENT) (hm : m * DIRENT + (splice (s.dirBytes dp) off src).length
      ≤ n * DIRENT + (s.dirBytes dp).length) (hok : DirOk (splice (s.dirBytes dp) off src)) :
    s'.Ready cnt dp m ∧ s'.dirBytes dp = splice (s.dirBytes dp) off src := by
  have hinum := hst.inum dp
  have hbytes : s'.dirBytes dp = splice (s.dirBytes dp) off src := by
    rw [dirBytes, hinum, hst.ino, update_self]
    rfl
  have hlen : (splice (s.dirBytes dp) off src).length = _ := length_splice hoff
  have hsize := h.grows.size
  refine ⟨⟨hst.inv, by rw [hst.isSome]; exact h.op, h.held, by rw [hst.valid]; exact h.valid, ?_,
    by rw [hbytes]; exact hok, by rw [hbytes]; omega, ?_⟩, hbytes⟩
  · rw [hinum, hst.ino, update_self]
    exact h.dir
  · rw [hbytes, hinum]
    refine hst.room ?_
    rw [hsrc]
    by_cases hin : off + DIRENT ≤ (s.dirBytes dp).length
    · -- nothing was missing for the entry
      unfold Room
      rw [filter_union]
      have hempty := missing_below h.inv h.held h.valid hin
      have hcard := card_missing (s := s) (i := (s.inode dp).inum) (P := places (spans off DIRENT))
      rw [hempty, card_empty, card_eq_zero] at hcard
      rw [hcard, empty_union]
      refine h.grows.room.mono (image_subset_image (places_mono (spans_mono ?_ ?_)))
      · omega
      · omega
    · rw [← image_union, ← places_union]
      refine h.grows.room.mono (image_subset_image (places_mono ?_))
      have hend : off = (s.dirBytes dp).length := by
        have hwhole := h.ok.whole
        simp only [DIRENT] at *
        omega
      exact union_subset (spans_mono (by omega) (by omega)) (spans_mono (by omega) (by omega))

/-! ## One operation -/

/-- What an operation with result `r` has done: what the map says, and nothing
    if it fails; the other inodes stay as they are. -/
structure Did (op : DirOp) (s s' : Fs) (dp : ISlot) (r : Int) : Prop where
  result : (r, dirMap (s'.dirBytes dp)) = op.onMap (dirMap (s.dirBytes dp))
  failed : r = -1 → s'.ino = s.ino
  others : ∀ i, i ≠ (s.inode dp).inum → s'.ino i = s.ino i
  ok : DirOk (s'.dirBytes dp)

theorem Ready.did_nothing {r : Int} (h : s.Ready cnt dp n) (hq : Quiet cnt s s')
    (hres : (r, dirMap (s.dirBytes dp)) = op.onMap (dirMap (s.dirBytes dp))) : Did op s s' dp r := by
  have hbytes : s'.dirBytes dp = s.dirBytes dp := by
    rw [dirBytes, dirBytes, hq.inum dp h.held, hq.ino]
  refine ⟨by rw [hbytes]; exact hres, fun _ => hq.ino, fun i _ => by rw [hq.ino], ?_⟩
  rw [hbytes]
  exact h.ok

theorem Ready.wp_dirlookup {Q : Option (ISlot × Nat) → Fs → Prop}
    (h : s.Ready cnt dp n) (hspare : ∃ j, cnt j = 0)
    (hnone : dirFind (s.dirBytes dp) name = none → Q none s)
    (hsome : ∀ x off ip s', dirFind (s.dirBytes dp) name = some (x, off) →
      s'.Inv (plus cnt ip) none → Quiet cnt s s' → (s'.inode ip).inum = x →
      (cnt ip = 0 → (s'.inode ip).valid = false) → Q (some (ip, off)) s') :
    wp (dirlookup dp name) Q E s := by
  refine Fs.wp_dirlookup h.inv h.held h.valid (fun _ hn _ => hnone hn)
    (fun x off ip s' _ => hsome x off ip s') (fun hne => absurd h.dir hne)
    (fun hne => absurd h.ok.whole hne) fun hall => ?_
  obtain ⟨j, hj⟩ := hspare
  have := hall j
  omega

theorem Ready.wp_link (h : s.Ready cnt dp (n + 1))
    (hinum : 1 ≤ inum ∧ inum ≤ 65535) (hspare : ∃ j, cnt j = 0)
    (hQ : ∀ r s', s'.Ready cnt dp n → Did (.link name inum) s s' dp r → Q r s') :
    wp (dirlink dp name inum) Q E s := by
  obtain ⟨hslot, hmod⟩ := dirSlot_le h.ok.whole
  have hsize := h.grows.size
  have hroom := h.grows.room
  rw [Nat.add_one_mul] at hsize hroom
  refine wp_dirlink h.inv h.held h.valid h.op (fun s' x hfound hinv hquiet => ?_)
    (fun s' _ hnone _ hst => ?_) (fun hne => absurd h.dir hne) (fun hne => absurd h.ok.whole hne)
    (fun hall => ?_) (fun hlong => ?_) fun hfew => ?_
  · refine hQ _ s' ((h.quiet hquiet h.held hinv h.held).1.mono (Nat.le_succ n))
      (h.did_nothing hquiet ?_)
    have hsome : (dirMap (s.dirBytes dp) name).isSome = true := by
      rw [dirMap, hfound]
      rfl
    simp only [DirOp.onMap, hsome, if_true]
  · have hpos : inum % 65536 ≠ 0 := by omega
    have hlen : (dirAdd (s.dirBytes dp) name inum).length ≤ (s.dirBytes dp).length + DIRENT := by
      rw [dirAdd, length_splice hslot, length_dirent]
      omega
    obtain ⟨hready, hbytes⟩ := h.stored (m := n) hst hslot hmod (length_dirent inum name)
      (by rw [Nat.add_one_mul]; rw [dirAdd] at hlen; omega) (h.ok.add hpos hnone)
    refine hQ _ s' hready ⟨?_, fun hneg => absurd hneg (by decide), fun i hi => ?_, hready.ok⟩
    · have hfree : (dirMap (s.dirBytes dp) name).isSome = false := by
        rw [dirMap, hnone]
        rfl
      simp only [DirOp.onMap, hfree, Bool.false_eq_true, if_false]
      rw [hbytes]
      exact congrArg (Prod.mk 0) (dirMap_add h.ok hinum hnone)
    · rw [hst.ino, update_of_ne hi]
  · obtain ⟨j, hj⟩ := hspare
    have := hall j
    omega
  · -- the directory is not too large
    omega
  · -- and there are blocks, if the entry needs any
    by_cases hin : dirSlot (s.dirBytes dp) + DIRENT ≤ (s.dirBytes dp).length
    · rw [missing_below h.inv h.held h.valid hin, card_empty] at hfew
      exact absurd hfew (Nat.not_lt_zero _)
    · have hend : dirSlot (s.dirBytes dp) = (s.dirBytes dp).length := by
        have hwhole := h.ok.whole
        simp only [DIRENT] at *
        omega
      have hone := hroom.mono (image_subset_image (places_mono
        (spans_mono hend.ge (show dirSlot (s.dirBytes dp) + DIRENT ≤ _ by omega))))
      rw [Room, card_missing] at hone
      exact absurd hone (Nat.not_le.mpr hfew)

theorem Ready.wp_remove (h : s.Ready cnt dp n) (hspare : ∃ j, cnt j = 0)
    (hQ : ∀ r s', s'.Ready cnt dp n → Did (.remove name) s s' dp r → Q r s') :
    wp (dirRemove dp name) Q E s := by
  simp only [dirRemove, wp_bind]
  refine h.wp_dirlookup hspare (fun hnone => ?_) fun x off ip s1 hfound hinv hquiet _ hidle => ?_
  · refine hQ _ s h (h.did_nothing Quiet.refl ?_)
    simp only [DirOp.onMap, dirMap, hnone]
    rfl
  · obtain ⟨hat, -, -⟩ := EntryAt.of_dirFind hfound
    obtain ⟨h1, hbytes1⟩ := h.quiet hquiet h.held hinv (plus_pos_of_pos h.held)
    have hin : off + DIRENT ≤ (s1.dirBytes dp).length := by
      rw [hbytes1]
      exact le_of_mem_offsets h.ok.whole (Nat.dvd_zero _) hat.1
    have hdev : (s1.ino (s1.inode dp).inum).type ≠ T_DEV := by
      rw [h1.dir]
      decide
    have hsize := h1.grows.size
    simp only [wp_bind]
    refine wp_writei h1.inv h1.held h1.valid h1.op (fun hd => absurd hd hdev) (fun _ hbad => ?_)
      (fun _ _ _ s2 hst => ?_) fun _ _ _ hfew => ?_
    · -- the entry is in the directory
      exfalso
      rw [← length_dirBytes, List.length_replicate] at hbad
      simp only [MAXFILE, NDIRECT, NINDIRECT, BSIZE, DIRENT, u32] at *
      omega
    · rw [List.length_replicate, if_neg (by simp)]
      obtain ⟨h2, hbytes2⟩ := h1.stored (m := n) hst (by omega) hat.dvd (by simp)
        (by rw [length_splice (by omega), List.length_replicate]; omega)
        (by rw [hbytes1]; exact h.ok.erase hat.1)
      simp only [wp_bind, wp_pure]
      refine wp_iput_found hst.inv Quiet.refl (fun h0 => ?_) fun s3 hinv3 hquiet3 => ?_
      · rw [hst.valid]
        exact hidle h0
      · obtain ⟨h3, hbytes3⟩ := h2.quiet hquiet3 h.held hinv3 h.held
        refine hQ _ s3 h3 ⟨?_, fun hneg => absurd hneg (by decide), fun i hi => ?_, h3.ok⟩
        · have hsome : (dirMap (s.dirBytes dp) name).isSome = true := by
            rw [dirMap, hfound]
            rfl
          simp only [DirOp.onMap, hsome, if_true]
          rw [hbytes3, hbytes2, hbytes1]
          exact congrArg (Prod.mk 0) (dirMap_erase h.ok hfound)
        · rw [hquiet3.ino, hst.ino, hquiet.inum dp h.held, update_of_ne hi, hquiet.ino]
    · rw [List.length_replicate, missing_below h1.inv h1.held h1.valid hin, card_empty] at hfew
      exact absurd hfew (Nat.not_lt_zero _)

theorem Ready.wp_inum (h : s.Ready cnt dp n) (hspare : ∃ j, cnt j = 0)
    (hQ : ∀ r s', s'.Ready cnt dp n → Did (.lookup name) s s' dp r → Q r s') : wp (dirInum dp name)
    Q E s := by
  simp only [dirInum, wp_bind]
  refine h.wp_dirlookup hspare (fun hnone => ?_) fun x off ip s1 hfound hinv hquiet hx hidle => ?_
  · refine hQ _ s h (h.did_nothing Quiet.refl ?_)
    simp only [DirOp.onMap, dirMap, hnone]
    rfl
  · simp only [wp_bind, wp_look, wp_pure]
    refine wp_iput_found hinv hquiet hidle fun s2 hinv2 hquiet2 => ?_
    refine hQ _ s2 (h.quiet hquiet2 h.held hinv2 h.held).1 (h.did_nothing hquiet2 ?_)
    simp only [DirOp.onMap, dirMap, hfound, hx]
    rfl

/-! ## Sequences of operations -/

def Behaves (dp : ISlot) : Fs → List DirOp → Prop
  | _, [] => True
  | s, op :: ops => ∃ r s', op.run dp s = .ok r s' ∧ Did op s s' dp r ∧ Behaves dp s' ops

theorem wp_dirOp (h : s.Ready cnt dp (n + op.adds)) (hop : op.Proper) (hspare : ∃ j, cnt j = 0)
    (hQ : ∀ r s', s'.Ready cnt dp n → Did op s s' dp r → Q r s') : wp (op.body dp) Q E s := by
  cases op with
  | link name inum => exact h.wp_link hop hspare hQ
  | remove name => exact h.wp_remove hspare hQ
  | lookup name => exact h.wp_inum hspare hQ

theorem Ready.again (h : s.Ready cnt dp n) : s.ended.begun.Ready cnt dp n :=
  ⟨h.inv.ended.begun, rfl, h.held, h.valid, h.dir, h.ok, h.grows.size, h.grows.room⟩

theorem wp_dirRun (h : s.begun.Ready cnt dp (n + op.adds)) (hop : op.Proper)
    (hspare : ∃ j, cnt j = 0)
    (hQ : ∀ r s', s'.begun.Ready cnt dp n → Did op s s' dp r → Q r s') : wp (op.run dp) Q E s :=
  wp_seq (wp_beginOp.mpr (wp_seq (wp_dirOp h hop hspare fun r s' hready hdid => wp_seq
    (wp_endOp.mpr (hQ r s'.ended hready.again ⟨hdid.1, hdid.2, hdid.3, hdid.4⟩)))))

/-- **A directory is a finite map.** -/
theorem directory_is_map (s : Fs) (cnt : ISlot → Nat) (dp : ISlot) (ops : List DirOp)
    (h : s.begun.Ready cnt dp (ops.map DirOp.adds).sum) (hspare : ∃ j, cnt j = 0)
    (hops : ∀ op ∈ ops, op.Proper) : Behaves dp s ops := by
  induction ops generalizing s with
  | nil => trivial
  | cons op ops ih =>
    rw [List.map_cons, List.sum_cons, Nat.add_comm] at h
    obtain ⟨r, s', hrun, hready, hdid⟩ := exists_ok (wp_dirRun (Q := fun r s' =>
      s'.begun.Ready cnt dp (ops.map DirOp.adds).sum ∧ Did op s s' dp r) h (hops op (by simp)) hspare
      fun r s' hr hd => ⟨hr, hd⟩)
    exact ⟨r, s', hrun, hdid, ih s' hready fun o ho => hops o (by simp [ho])⟩

def rootInSlot : Fs := (Fs.empty mkfsImage).withInode ⟨0, ninode_pos⟩ ROOTINO

theorem rootInSlot_ready : rootInSlot.begun.Ready (plus (fun _ => 0) 0) 0 2 := by
  have hslot : rootInSlot.inode 0 = ⟨1, 1, true, true, (Fs.empty mkfsImage).dinodeAt 1⟩ :=
    withInode_inode
  obtain ⟨hinv, hnode⟩ := Inv.withInode 0 (i := ROOTINO) Image.wellFormed
    (by rw [show (Fs.empty mkfsImage).sb = _ from Image.sb_eq]; decide)
    (by rw [Image.root_type]; decide)
  refine ⟨hinv.begun, rfl, by decide, congrArg Inode.valid hslot, ?_, ⟨by decide +kernel, ?_⟩, by decide +kernel,
    by decide +kernel⟩
  · show (rootInSlot.node (rootInSlot.inode 0).inum).type = T_DIR
    rw [hslot]
    rw [show rootInSlot.node = _ from hnode]
    exact Image.node_root.1
  · have hall : ∀ off ∈ offsets 0 512, ∀ o ∈ offsets 0 512, EntryAt (rootInSlot.begun.dirBytes 0) off →
        EntryAt (rootInSlot.begun.dirBytes 0) o →
        nameAt (rootInSlot.begun.dirBytes 0) off = nameAt (rootInSlot.begun.dirBytes 0) o → off = o := by
      decide +kernel
    have hlen : (rootInSlot.begun.dirBytes 0).length = 512 := by decide +kernel
    intro off o hoff ho
    have h1 := hoff.1
    have h2 := ho.1
    rw [hlen] at h1 h2
    exact hall off h1 o h2 hoff ho

/-- The directory grows and shrinks; the third name is the first one again. -/
theorem root_of_image_is_map : Behaves 0 rootInSlot
    [.link [97] 7, .link [97, 0, 98] 8, .remove [97], .lookup [102]] :=
  directory_is_map rootInSlot (plus (fun _ => 0) 0) 0 _ rootInSlot_ready ⟨1, by decide⟩ (by
    intro op hop
    simp only [List.mem_cons, List.not_mem_nil, or_false] at hop
    rcases hop with rfl | rfl | rfl | rfl
    · exact ⟨by omega, by omega⟩
    · exact ⟨by omega, by omega⟩
    · trivial
    · trivial)

end Fs
end Xv6
