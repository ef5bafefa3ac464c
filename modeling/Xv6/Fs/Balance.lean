/-
  Xv6.Fs.Balance

  System calls keep the books: every reference to an inode slot belongs to an
  open file or a current directory, and every reference to an open file to a
  descriptor.
-/

import Xv6.Fs.Calls
import Xv6.Fs.FileTable

namespace Xv6.Files

open Wp Counting Fs

variable {s s' s'' : Files} {f g : FSlot} {p : PSlot} {fd : Fin NOFILE} {j ip cwd : ISlot}
  {e : FSlot → Int} {c : ISlot → Nat} {lax : Prop}
variable {v : Option FSlot}

/-! ## The invariant -/

structure OnInode (s : Files) (f : FSlot) (ip : ISlot) : Prop where
  pos : 0 < (s.file f).ref
  type : (s.file f).type = .inode
  ip : (s.file f).ip = ip

def inodeOf (s : Files) (ip : ISlot) : Ino := s.fs.ino (s.fs.inode ip).inum

structure Hold (s : Files) : Prop where
  inv : s.fs.Inv s.held none
  op : s.fs.op = none
  sane : Tree.Sane s.fs.ino s.fs.sb.ninodes
  slots : ∀ j, 0 < s.held j → (s.fs.inode j).inum < s.fs.sb.ninodes
  files : ∀ f ip, s.OnInode f ip → (s.inodeOf ip).type ≠ 0 ∧
    ((s.file f).writable = true → (s.inodeOf ip).type ≠ T_DIR)

structure Ok (s : Files) : Prop extends s.Hold where
  table : s.Table fun _ => 0
  idle : ∀ p, (s.proc p).cwd = none → ∀ fd, (s.proc p).ofile fd = none

theorem OnInode.held_pos (h : s.OnInode f ip) : 0 < s.held ip := by
  have hle := le_total (fun x : File => x.holds ip) s.file f
  simp only [File.holds, h.pos, h.type, h.ip, and_self, if_true] at hle
  unfold held
  simp only [File.holds] at *
  omega

theorem held_pos_of_cwd (h : (s.proc p).cwd = some j) : 0 < s.held j := by
  have hle := le_total (fun t : Task => t.holds j) s.proc p
  simp only [Task.holds, h, if_true] at hle
  unfold held
  simp only [Task.holds] at *
  omega

theorem Hold.of_stays (h : s.Hold) (hinv : s'.fs.Inv s'.held none) (hop : s'.fs.op = none)
    (hsane : Tree.Sane s.fs.ino s.fs.sb.ninodes → Tree.Sane s'.fs.ino s'.fs.sb.ninodes)
    (hst : Stays c s.fs s'.fs)
    (hslots : ∀ j, 0 < s'.held j →
      (0 < c j ∧ 0 < s.held j) ∨ (s'.fs.inode j).inum < s'.fs.sb.ninodes)
    (hfiles : ∀ f ip, s'.OnInode f ip → (s.OnInode f ip ∧ 0 < c ip ∧
        (s'.file f).writable = (s.file f).writable) ∨
      ((s'.inodeOf ip).type ≠ 0 ∧ ((s'.file f).writable = true → (s'.inodeOf ip).type ≠ T_DIR))) :
    s'.Hold := by
  refine ⟨hinv, hop, hsane h.sane, fun j hj => ?_, fun f ip hf => ?_⟩
  · rcases hslots j hj with ⟨hc, hold⟩ | hnew
    · rw [hst.inum j hc, hst.sb]
      exact h.slots j hold
    · exact hnew
  · rcases hfiles f ip hf with ⟨hold, hc, hw⟩ | hnew
    · obtain ⟨hne, hdir⟩ := h.files f ip hold
      unfold inodeOf at *
      rw [hst.inum ip hc, hst.type ip hc hne, hw]
      exact ⟨hne, hdir⟩
    · exact hnew

theorem Hold.of_fs (h : s.Hold) (hfs : s'.fs = s.fs) (hheld : s'.held = s.held)
    (hfiles : ∀ f ip, s'.OnInode f ip → s.OnInode f ip ∧
      (s'.file f).writable = (s.file f).writable) : s'.Hold := by
  refine h.of_stays (c := s.held) ?_ (by rw [hfs]; exact h.op) (by rw [hfs]; exact id)
    (by rw [hfs]; exact .refl) (fun j hj => ?_) fun g ip hg => ?_
  · rw [hfs, hheld]
    exact h.inv
  · rw [hheld] at hj
    exact .inl ⟨hj, hj⟩
  · obtain ⟨hg', hw⟩ := hfiles g ip hg
    exact .inl ⟨hg', hg'.held_pos, hw⟩

theorem Hold.setFd (h : s.Hold) : (s.setFd p fd v).Hold :=
  h.of_fs rfl held_setFd fun _ _ hf => ⟨⟨hf.pos, hf.type, hf.ip⟩, rfl⟩

/-! ## What calls do -/

structure Sheds (s s' : Files) : Prop where
  sb : s'.fs.sb = s.fs.sb
  slots : ∀ j, 0 < s'.held j → 0 < s.held j ∧ (s'.fs.inode j).inum = (s.fs.inode j).inum
  tidy : s.fs.Tidy s.held → s'.fs.Tidy s'.held
  reaped : Tree.Reaped (s'.fs.Refs s'.held) s.fs.ino s'.fs.ino
  ops : ∃ new, s'.fs.ops = new ++ s.fs.ops ∧ ∀ o ∈ new, Cheap s.fs.sb o

theorem Sheds.refs (h : Sheds s s') (i : Nat) (hi : s'.fs.Refs s'.held i) : s.fs.Refs s.held i := by
  obtain ⟨j, hj, hinum⟩ := hi
  obtain ⟨hpos, hsame⟩ := h.slots j hj
  exact ⟨j, hpos, hsame.symm.trans hinum⟩

theorem Sheds.trans (h : Sheds s s') (h' : Sheds s' s'') : Sheds s s'' where
  sb := h'.sb.trans h.sb
  slots := by
    intro j hj
    obtain ⟨hpos', hsame'⟩ := h'.slots j hj
    obtain ⟨hpos, hsame⟩ := h.slots j hpos'
    exact ⟨hpos, hsame'.trans hsame⟩
  tidy := fun ht => h'.tidy (h.tidy ht)
  reaped := (h.reaped.mono h'.refs).trans h'.reaped
  ops := by
    obtain ⟨new, hnew, hcheap⟩ := h.ops
    obtain ⟨new', hnew', hcheap'⟩ := h'.ops
    refine ⟨new' ++ new, by rw [hnew', hnew, List.append_assoc], fun o ho => ?_⟩
    rcases List.mem_append.mp ho with ho | ho
    · rw [← h.sb]
      exact hcheap' o ho
    · exact hcheap o ho

theorem Sheds.of_quiet (hq : Quiet s.held s.fs s'.fs) (hheld : ∀ j, 0 < s'.held j ↔ 0 < s.held j) :
    Sheds s s' where
  sb := hq.sb
  slots := fun j hj => ⟨(hheld j).mp hj, hq.inum j ((hheld j).mp hj)⟩
  tidy := by
    intro ht i
    rw [hq.ino]
    exact fun htype hn => (hq.kept.held (ht i htype hn)).mono fun j hj => (hheld j).mpr hj
  reaped := by
    rw [hq.ino]
    exact .refl
  ops := ⟨[], hq.ops, by simp⟩

theorem Sheds.of_fs (hfs : s'.fs = s.fs) (hheld : s'.held = s.held) : Sheds s s' :=
  .of_quiet (by rw [hfs]; exact Quiet.refl) fun j => by rw [hheld]

theorem Sheds.refl : Sheds s s := .of_fs rfl rfl

theorem Sheds.setFd : Sheds s (s.setFd p fd v) := .of_fs rfl held_setFd

/-- A call that may resolve paths makes one change; then inodes are freed that
    have no links and that nobody refers to. -/
structure Outcome (s s' : Files) : Prop where
  sb : s'.fs.sb = s.fs.sb
  slots : ∀ f ip, s.OnInode f ip → s'.OnInode f ip → (s'.fs.inode ip).inum = (s.fs.inode ip).inum
  tidy : s.fs.Tidy s.held → s'.fs.Tidy s'.held
  change : s.fs.Tended s.held → ∃ m, Tree.Change s.fs.ino m ∧
    Tree.Reaped (s'.fs.Refs s'.held) m s'.fs.ino
  ops : ∃ new, s'.fs.ops = new ++ s.fs.ops ∧ (s.fs.Tended s.held → ∀ o ∈ new, Cheap s.fs.sb o)

theorem Sheds.outcome (h : Sheds s s') : Outcome s s' where
  sb := h.sb
  slots := fun _ ip _ hf => (h.slots ip hf.held_pos).2
  tidy := h.tidy
  change := fun _ => ⟨s.fs.ino, .same, h.reaped⟩
  ops := by
    obtain ⟨new, hnew, hcheap⟩ := h.ops
    exact ⟨new, hnew, fun _ => hcheap⟩

theorem Outcome.of_ran (h : Ran c s.held s'.held s.fs s'.fs)
    (hc : ∀ f ip, s.OnInode f ip → 0 < c ip) : Outcome s s' where
  sb := h.stays.sb
  slots := fun f ip hf _ => h.stays.inum ip (hc f ip hf)
  tidy := h.tidy
  change := h.change
  ops := by
    obtain ⟨o, ho, hcheap⟩ := h.ops
    refine ⟨[o], ho, fun ht o' ho' => ?_⟩
    rw [List.mem_singleton.mp ho']
    exact hcheap ht

theorem Outcome.congr (h : Outcome s s') (hfs : s''.fs = s'.fs) (hheld : s''.held = s'.held)
    (hfiles : ∀ f ip, s''.OnInode f ip → s'.OnInode f ip) : Outcome s s'' := by
  refine ⟨?_, fun f ip hf hf' => ?_, ?_, ?_, ?_⟩
  · rw [hfs]
    exact h.sb
  · rw [hfs]
    exact h.slots f ip hf (hfiles f ip hf')
  · rw [hfs, hheld]
    exact h.tidy
  · rw [hfs, hheld]
    exact h.change
  · rw [hfs]
    exact h.ops

/-! ## Closing files -/

theorem Hold.put (h : s.Hold) (hheld : s.held = plus s'.held ip) (hput : Put s'.held ip s.fs s'.fs)
    (hfiles : ∀ g jp, s'.OnInode g jp → s.OnInode g jp ∧
      (s'.file g).writable = (s.file g).writable) : s'.Hold ∧ Sheds s s' := by
  constructor
  · refine h.of_stays (c := s'.held) hput.inv hput.op hput.sane hput.stays
      (fun j hj => .inl ⟨hj, ?_⟩) fun g jp hg => ?_
    · rw [hheld]
      exact plus_pos_of_pos hj
    · obtain ⟨hg', hw⟩ := hfiles g jp hg
      exact .inl ⟨hg', hg.held_pos, hw⟩
  · obtain ⟨o, ho, hcheap⟩ := hput.cheap
    refine ⟨hput.stays.sb, ?_, ?_, hput.reaped, [o], ho, by simpa using hcheap⟩
    · intro j hj
      refine ⟨?_, hput.stays.inum j hj⟩
      rw [hheld]
      exact plus_pos_of_pos hj
    · intro htidy
      rw [hheld] at htidy
      exact hput.tidy htidy

theorem held_eq_plus (href : (s.file f).ref = 1) (htype : (s.file f).type = .inode) :
    s.held = plus (s.closeFile f).held (s.file f).ip := by
  funext j
  rw [held_closeFile (f := f) (by omega)]
  by_cases hj : j = (s.file f).ip
  · rw [hj, plus_self]
    simp [href, htype]
  · rw [plus_of_ne hj]
    have hne : ¬ (s.file f).ip = j := fun h => hj h.symm
    simp [hne]

theorem OnInode.of_closeFile (h : (s.closeFile f).OnInode g ip) :
    s.OnInode g ip ∧ ((s.closeFile f).file g).writable = (s.file g).writable := by
  by_cases hg : g = f
  · subst hg
    obtain ⟨hpos, htype, hip⟩ := h
    rw [closeFile_self] at hpos htype hip ⊢
    split at hpos
    · rename_i hmore
      rw [if_pos hmore] at htype hip ⊢
      exact ⟨⟨by omega, htype, hip⟩, rfl⟩
    · exact absurd hpos (by simp)
  · obtain ⟨hpos, htype, hip⟩ := h
    rw [closeFile_of_ne hg] at hpos htype hip ⊢
    exact ⟨⟨hpos, htype, hip⟩, rfl⟩

theorem wp_close {Q : Unit → Files → Prop} {E : Halt → Files → Prop} (h : s.Hold) (ht : s.Table e)
    (href : 1 ≤ (s.file f).ref)
    (hQ : ∀ s', s'.Hold → s'.Table (more e f (-1)) → Sheds s s' → s'.proc = s.proc → Q () s') :
    wp (fileclose f) Q E s := by
  refine wp_fileclose href (fun hlast => ?_) fun hone htype => ?_
  · have hheld : (s.closeFile f).held = s.held := by
      funext j
      rw [held_closeFile (s := s) href, if_neg fun h => hlast ⟨h.1, h.2.1⟩, Nat.add_zero]
    exact hQ _ (h.of_fs closeFile_fs hheld fun g ip hg => hg.of_closeFile) (ht.closeFile href)
      (.of_fs closeFile_fs hheld) closeFile_proc
  · have hplus := held_eq_plus hone htype
    have hinv := h.inv
    rw [hplus] at hinv
    refine wp_iputOp hinv h.op fun fs' hput => ?_
    have hkeep : ({ s.closeFile f with fs := fs' } : Files).Hold ∧
        Sheds s { s.closeFile f with fs := fs' } :=
      h.put hplus hput fun g ip hg => OnInode.of_closeFile (f := f) ⟨hg.pos, hg.type, hg.ip⟩
    obtain ⟨hhold, hsheds⟩ := hkeep
    have htable := ht.closeFile href
    exact hQ _ hhold ⟨htable.refs, htable.closed, htable.ends, htable.uniq⟩ hsheds closeFile_proc

/-! ## Descriptors -/

theorem Table.ref_pos (ht : s.Table fun _ => 0) (hopen : (s.proc p).ofile fd = some f) :
    1 ≤ (s.file f).ref := by
  have hrefs := ht.refs f
  have hpos := fds_pos hopen
  omega

theorem idle_setFd (h : ∀ q, (s.proc q).cwd = none → ∀ fd, (s.proc q).ofile fd = none)
    (hcwd : (s.proc p).cwd = some cwd) (q : PSlot) (hq : ((s.setFd p fd v).proc q).cwd = none) :
    ∀ n, ((s.setFd p fd v).proc q).ofile n = none := by
  rw [setFd_cwd] at hq
  have hne : q ≠ p := by
    intro heq
    rw [heq, hcwd] at hq
    exact absurd hq (by simp)
  rw [setFd_of_ne hne]
  exact h q hq

structure Apart (s : Files) (e : FSlot → Int) (t : Files) : Prop where
  fs : t.fs = s.fs
  held : t.held = s.held
  files : ∀ g ip, t.OnInode g ip → s.OnInode g ip ∧ (t.file g).writable = (s.file g).writable
  cwd : ∀ q, (t.proc q).cwd = (s.proc q).cwd
  idle : (∀ q, (s.proc q).cwd = none → ∀ fd, (s.proc q).ofile fd = none) →
    ∀ q, (t.proc q).cwd = none → ∀ fd, (t.proc q).ofile fd = none
  table : t.Table e

section Apart

variable {t : Files} {v : Option FSlot}
variable {e' : FSlot → Int}

theorem Apart.refl (ht : s.Table e) : Apart s e s :=
  ⟨rfl, rfl, fun _ _ hg => ⟨hg, rfl⟩, fun _ => rfl, id, ht⟩

theorem Apart.setFile {k : File → File} (h : Apart s e t)
    (hno : (k (t.file f)).type ≠ .inode) (hold : ∀ ip, ¬ t.OnInode f ip)
    (htable : (t.setFile f k).Table e') : Apart s e' (t.setFile f k) := by
  refine ⟨h.fs, ?_, fun g ip hg => ?_, h.cwd, h.idle, htable⟩
  · rw [← h.held]
    refine held_setFile_same fun j => ?_
    have hold' : ¬ (0 < (t.file f).ref ∧ (t.file f).type = .inode ∧ (t.file f).ip = j) :=
      fun hf => hold j ⟨hf.1, hf.2.1, hf.2.2⟩
    rw [File.holds, File.holds, if_neg hold', if_neg fun hf => hno hf.2.1]
  · obtain ⟨hpos, htype, hip⟩ := hg
    by_cases hgf : g = f
    · rw [hgf, setFile_self] at htype
      exact absurd htype hno
    · rw [setFile_of_ne hgf] at hpos htype hip ⊢
      exact h.files g ip ⟨hpos, htype, hip⟩

theorem Apart.alloc (h : Apart s e t) (h0 : (t.file f).ref = 0) :
    Apart s (more e f 1) (t.setFile f fun x => { x with ref := 1 }) := by
  have htype := h.table.closed f h0
  refine h.setFile (by simp [htype]) (fun ip hf => ?_) (h.table.alloc h0)
  have hpos := hf.pos
  omega

theorem Apart.close (h : Apart s e t) (href : 1 ≤ (t.file f).ref) (hno : (t.file f).type ≠ .inode) :
    Apart s (more e f (-1)) (t.closeFile f) := by
  refine ⟨closeFile_fs.trans h.fs, ?_, fun g ip hg => ?_, ?_, ?_, h.table.closeFile href⟩
  · rw [← h.held]
    funext j
    rw [held_closeFile (s := t) href, if_neg fun hf => hno hf.2.1, Nat.add_zero]
  · obtain ⟨hg', hw⟩ := hg.of_closeFile
    obtain ⟨hs, hw'⟩ := h.files g ip hg'
    exact ⟨hs, hw.trans hw'⟩
  · rw [closeFile_proc]
    exact h.cwd
  · rw [closeFile_proc]
    exact h.idle

theorem Apart.setFd (h : Apart s e t) (hcwd : (s.proc p).cwd = some cwd)
    (htable : (t.setFd p fd v).Table e') : Apart s e' (t.setFd p fd v) where
  fs := h.fs
  held := held_setFd.trans h.held
  files := fun g ip hg => h.files g ip ⟨hg.pos, hg.type, hg.ip⟩
  cwd := fun q => (setFd_cwd q).trans (h.cwd q)
  idle := fun hidle => idle_setFd (h.idle hidle) ((h.cwd p).trans hcwd)
  table := htable

theorem Apart.openPipe {rf wf : FSlot} {page : Nat} (h : Apart s e t) (hne : rf ≠ wf)
    (hr : 0 < (t.file rf).ref) (hw : 0 < (t.file wf).ref) (hrt : (t.file rf).type = .none)
    (hwt : (t.file wf).type = .none) (hpage : t.pipe page = none) :
    Apart s e (t.openPipe rf wf page) := by
  refine ⟨h.fs, ?_, fun g ip hg => ?_, h.cwd, h.idle, h.table.openPipe hne hr hw hrt hwt hpage⟩
  · rw [← h.held, Files.openPipe, held_setFile_same fun j => ?_, held_setFile_same fun j => ?_]
    · rfl
    · show File.holds { t.file rf with type := _, readable := _, writable := _, pipe := _ } j
        = (t.file rf).holds j
      simp [File.holds, hrt]
    · rw [setFile_of_ne (Ne.symm hne)]
      show File.holds { t.file wf with type := _, readable := _, writable := _, pipe := _ } j
        = (t.file wf).holds j
      simp [File.holds, hwt]
  · obtain ⟨hpos, htype, hip⟩ := hg
    have hgr : g ≠ rf := by
      intro hg
      rw [hg, openPipe_read hne] at htype
      exact absurd htype (by simp)
    have hgw : g ≠ wf := by
      intro hg
      rw [hg, openPipe_write hne] at htype
      exact absurd htype (by simp)
    rw [openPipe_of_ne hgr hgw] at hpos htype hip ⊢
    exact h.files g ip ⟨hpos, htype, hip⟩

theorem Apart.withFs (h : Apart s e t) (fs : Fs) :
    Apart { s with fs := fs } e { t with fs := fs } where
  fs := rfl
  held := h.held
  files := by
    intro g ip hg
    obtain ⟨hg', hw⟩ := h.files g ip ⟨hg.pos, hg.type, hg.ip⟩
    exact ⟨⟨hg'.pos, hg'.type, hg'.ip⟩, hw⟩
  cwd := h.cwd
  idle := h.idle
  table := ⟨h.table.refs, h.table.closed, h.table.ends, h.table.uniq⟩

theorem Apart.ok (h : Apart s (fun _ => 0) t) (hs : s.Ok) : t.Ok :=
  ⟨hs.of_fs h.fs h.held h.files, h.table, h.idle hs.idle⟩

theorem wp_closeApart {Q : Unit → Files → Prop} {E : Halt → Files → Prop} (h : Apart s e t)
    (href : 1 ≤ (t.file f).ref) (hno : (t.file f).type ≠ .inode)
    (hQ : Apart s (more e f (-1)) (t.closeFile f) → Q () (t.closeFile f)) :
    wp (fileclose f) Q E t :=
  wp_fileclose href (fun _ => hQ (h.close href hno)) fun _ htype => absurd htype hno

end Apart

/-! ## Pipes -/

section Pipes

variable {E : Halt → Files → Prop} {page : Option Nat} {t : Files} {rf wf : FSlot}
variable {Q : Option (FSlot × FSlot) → Files → Prop}

theorem wp_pipeFiles (hne : rf ≠ wf)
    (h : Apart s (more (more (fun _ => 0) rf 1) wf 1) t) (hr : (t.file rf).ref = 1)
    (hw : (t.file wf).ref = 1) (hrt : (t.file rf).type = .none) (hwt : (t.file wf).type = .none)
    (hnone : ∀ t, Apart s (fun _ => 0) t → Q none t)
    (hsome : ∀ t, Apart s (more (more (fun _ => 0) rf 1) wf 1) t → (t.file rf).type = .pipe →
      (t.file wf).type = .pipe → Q (some (rf, wf)) t) : wp (pipeFiles rf wf page) Q E t := by
  simp only [pipeFiles, kalloc, wp_bind, wp_look]
  cases hpage : page.filter fun page => decide (t.pipe page = none) with
  | none =>
    simp only [wp_bind, wp_pure]
    refine wp_closeApart h (by omega) (by simp [hrt]) fun h1 => ?_
    have hwf : (t.closeFile rf).file wf = t.file wf := closeFile_of_ne (Ne.symm hne)
    refine wp_closeApart h1 (by rw [hwf]; omega) (by rw [hwf]; simp [hwt]) fun h2 => hnone _ ?_
    have heq : more (more (more (more (fun _ => 0) rf 1) wf 1) rf (-1)) wf (-1) = fun _ => 0 := by
      rw [more_comm (f := wf), more_more, more_more, Int.add_right_neg, more_zero, more_zero]
    rwa [heq] at h2
  | some page =>
    have hfree : t.pipe page = none := by
      have hmem := Option.mem_filter_iff.mp hpage
      simpa using hmem.2
    have hopen := h.openPipe hne (by omega) (by omega) hrt hwt hfree
    refine hsome (t.openPipe rf wf page) hopen ?_ ?_
    · rw [openPipe_read hne]
    · rw [openPipe_write hne]

theorem wp_pipealloc (ht : s.Table fun _ => 0) (hnone : ∀ t, Apart s (fun _ => 0) t → Q none t)
    (hsome : ∀ rf wf t, rf ≠ wf → Apart s (more (more (fun _ => 0) rf 1) wf 1) t →
      (t.file rf).type = .pipe → (t.file wf).type = .pipe → Q (some (rf, wf)) t) :
    wp (pipealloc page) Q E s := by
  rw [pipealloc]
  refine wp_seq (wp_filealloc (hnone s (.refl ht)) fun rf hrf => ?_)
  have h1 := (Apart.refl ht).alloc hrf
  have hrt := ht.closed rf hrf
  refine wp_seq (wp_filealloc ?_ fun wf hwf => ?_)
  · refine wp_seq (wp_closeApart h1 (by simp) (by simp [hrt]) fun h2 => hnone _ ?_)
    rwa [more_more, Int.add_right_neg, more_zero] at h2
  · have hne : rf ≠ wf := by
      intro heq
      rw [← heq, setFile_self] at hwf
      exact absurd hwf (by simp)
    have hwt := h1.table.closed wf hwf
    refine wp_pipeFiles hne (h1.alloc hwf) ?_ (by simp) ?_ (by simpa using hwt) hnone fun t => hsome rf wf t hne
    · rw [setFile_of_ne hne, setFile_self]
    · rw [setFile_of_ne hne, setFile_self]
      exact hrt

theorem wp_pipeFds {Q : Int → Files → Prop} (hcwd : (s.proc p).cwd = some cwd) (hne : rf ≠ wf)
    (h : Apart s (more (more (fun _ => 0) rf 1) wf 1) t) (hrt : (t.file rf).type = .pipe)
    (hwt : (t.file wf).type = .pipe) (hQ : ∀ r t, Apart s (fun _ => 0) t → Q r t) :
    wp (pipeFds p rf wf) Q E t := by
  -- as long as a file has no descriptor, the reference is the caller's
  have hrefs : ∀ (u : Files) (d : FSlot → Int) f, Apart s d u → 1 ≤ d f → 1 ≤ (u.file f).ref := by
    intro u d f hu hd
    have hf := hu.table.refs f
    omega
  have hcloses : ∀ (u : Files), Apart s (more (more (fun _ => 0) rf 1) wf 1) u →
      u.file = t.file → wp (do fileclose rf; fileclose wf; pure (-1)) Q E u := by
    intro u hu hfile
    have hwf : (u.closeFile rf).file wf = u.file wf := closeFile_of_ne (Ne.symm hne)
    refine wp_seq (wp_closeApart hu (hrefs u _ rf hu ?_) (by simp [hfile, hrt]) fun h1 => ?_)
    · rw [more_of_ne hne, more_self]
      omega
    refine wp_seq (wp_closeApart h1 ?_ (by rw [hwf]; simp [hfile, hwt]) fun h2 => hQ _ _ ?_)
    · rw [hwf]
      refine hrefs u _ wf hu ?_
      rw [more_self, more_of_ne (Ne.symm hne)]
      omega
    · have heq : more (more (more (more (fun _ => 0) rf 1) wf 1) rf (-1)) wf (-1) = fun _ => 0 := by
        rw [more_comm (f := wf), more_more, more_more, Int.add_right_neg, more_zero, more_zero]
      rwa [heq] at h2
  rw [pipeFds]
  refine wp_seq (wp_fdalloc (hcloses t h rfl) fun fd0 hfree0 => ?_)
  have h1 := h.setFd hcwd (h.table.openFd (f := rf) hfree0)
  refine wp_seq (wp_fdalloc ?_ fun fd1 hfree1 => ?_)
  · have h2 := h1.setFd hcwd (h1.table.clearFd setFd_self)
    rw [more_more, Int.add_left_neg, more_zero] at h2
    exact wp_seq (hcloses _ h2 rfl)
  · have h2 := h1.setFd hcwd (h1.table.openFd (f := wf) hfree1)
    have heq : more (more (more (more (fun _ => 0) rf 1) wf 1) rf (-1)) wf (-1) = fun _ => 0 := by
      rw [more_comm (f := wf), more_more, more_more, Int.add_right_neg, more_zero, more_zero]
    rw [heq] at h2
    exact hQ 0 _ h2

end Pipes

section Descriptors

variable {Q : Int → Files → Prop} {E : Halt → Files → Prop} {n : Int} (h : s.Ok)
  (hcwd : (s.proc p).cwd = some cwd) (hQ : ∀ r s', s'.Ok → Sheds s s' → Q r s')

include h hcwd hQ

theorem wp_sysClose : wp (sysClose p n) Q E s := by
  rw [sysClose]
  refine wp_seq (wp_argfd (hQ _ s h .refl) fun fd f hopen => ?_)
  refine wp_write (wp_seq ?_)
  have href : 1 ≤ (s.file f).ref := h.table.ref_pos hopen
  refine wp_close h.setFd (h.table.clearFd hopen) href fun s' hhold htable hsheds hproc => ?_
  refine hQ 0 s' ⟨hhold, ?_, ?_⟩ (Sheds.setFd.trans hsheds)
  · rwa [more_more, Int.add_right_neg, more_zero] at htable
  · rw [hproc]
    exact idle_setFd h.idle hcwd

theorem wp_sysDup : wp (sysDup p n) Q E s := by
  rw [sysDup]
  refine wp_seq (wp_argfd (hQ _ s h .refl) fun fd f hopen => ?_)
  refine wp_seq (wp_fdalloc (hQ _ s h .refl) fun fd' hfree => ?_)
  have href : 1 ≤ (s.file f).ref := h.table.ref_pos hopen
  refine wp_seq (wp_filedup (s := s.setFd p fd' (some f)) href ?_)
  have htable := (h.table.openFd (f := f) hfree).dup href
  rw [more_more, Int.add_left_neg, more_zero] at htable
  have hheld : ((s.setFd p fd' (some f)).setFile f fun x => { x with ref := x.ref + 1 }).held = s.held :=
    (held_dup (s := s.setFd p fd' (some f)) href).trans held_setFd
  have hhold : ((s.setFd p fd' (some f)).setFile f fun x => { x with ref := x.ref + 1 }).Hold := by
    refine h.of_fs rfl hheld fun g ip hg => ?_
    obtain ⟨hpos, htype, hip⟩ := hg
    by_cases hgf : g = f
    · subst hgf
      rw [setFile_self] at hpos htype hip ⊢
      exact ⟨⟨href, htype, hip⟩, rfl⟩
    · rw [setFile_of_ne hgf] at hpos htype hip ⊢
      exact ⟨⟨hpos, htype, hip⟩, rfl⟩
  have hsheds : Sheds s ((s.setFd p fd' (some f)).setFile f fun x => { x with ref := x.ref + 1 }) :=
    .of_fs rfl hheld
  exact hQ _ _ ⟨hhold, htable, idle_setFd h.idle hcwd⟩ hsheds

theorem wp_sysPipe {arg : Bool} {page : Option Nat} : wp (sysPipe p arg page) Q E s := by
  have hdone : ∀ r t, Apart s (fun _ => 0) t → Q r t :=
    fun r t ht => hQ r t (ht.ok h) (.of_fs ht.fs ht.held)
  refine wp_ite (fun _ => wp_seq ?_) fun _ => hQ _ s h .refl
  exact wp_pipealloc h.table (fun t ht => hdone _ t ht) fun rf wf t hne ht hrt hwt =>
    wp_pipeFds hcwd hne ht hrt hwt hdone

end Descriptors

end Xv6.Files
