/-
  Xv6.Fs.Processes

  The system calls that read and write files, open them, and change what a
  process holds: its current directory, and all of its files when it is forked
  or exits.  Each keeps the books (`Ok`).
-/

import Xv6.Fs.Balance
import Xv6.Fs.WriteLog

namespace Xv6

open Wp Counting Fs List

variable {k : File → Nat} {E : Halt → Files → Prop} {cnt : ISlot → Nat} {i : Nat} {d : Option ISlot}

namespace Files

variable {s s' s'' t : Files} {f g : FSlot} {p np : PSlot} {fd : Fin NOFILE} {j ip cwd : ISlot}
  {e : FSlot → Int} {lax : Prop} {fs : Fs}
variable {fs' : Fs} {Q : Int → Files → Prop} {dev : Nat → Int} {src : List UInt8}
    {rest : List (Fin NOFILE)}

/-- The ways a system call may fail. -/
abbrev Halts (lax : Prop) (e : Halt) (s : Files) : Prop := Fails lax e s.fs

/-! ## Calls that only concern the file system -/

theorem Table.withFs (ht : s.Table e) (fs : Fs) : ({ s with fs := fs } : Files).Table e :=
  ⟨ht.refs, ht.closed, ht.ends, ht.uniq⟩

theorem Hold.calls (h : s.Hold) (hcwd : (s.proc p).cwd = some cwd)
    (hcalm : lax ∨ s.fs.Calm s.held) : Calls lax s.held cwd s.fs where
  inv := h.inv
  op := h.op
  sane := h.sane
  calm := hcalm
  pos := held_pos_of_cwd hcwd
  inum := h.slots cwd (held_pos_of_cwd hcwd)

theorem Ok.ran (h : s.Ok) (hran : Ran s.held s.held s.held s.fs fs) :
    ({ s with fs := fs } : Files).Ok ∧ Outcome s { s with fs := fs } := by
  refine ⟨⟨?_, h.table.withFs fs, h.idle⟩, .of_ran hran fun _ _ hf => hf.held_pos⟩
  refine h.of_stays hran.inv hran.op hran.sane hran.stays (fun j hj => .inl ⟨hj, hj⟩) fun g ip hg => ?_
  have hg' : s.OnInode g ip := ⟨hg.pos, hg.type, hg.ip⟩
  exact .inl ⟨hg', hg'.held_pos, rfl⟩

theorem Ok.quiet (h : s.Ok) (hinv : fs.Inv s.held none) (hq : Quiet s.held s.fs fs) :
    ({ s with fs := fs } : Files).Ok ∧ Sheds s { s with fs := fs } := by
  refine ⟨⟨?_, h.table.withFs fs, h.idle⟩, .of_quiet hq fun j => Iff.rfl⟩
  refine h.of_stays hinv (hq.op.trans h.op) (fun hs => ?_) hq.kept.stays
    (fun j hj => .inl ⟨hj, hj⟩) fun g ip hg => ?_
  · show Tree.Sane fs.ino fs.sb.ninodes
    rw [hq.ino, hq.sb]
    exact hs
  · have hg' : s.OnInode g ip := ⟨hg.pos, hg.type, hg.ip⟩
    exact .inl ⟨hg', hg'.held_pos, rfl⟩

/-! ## Offsets -/

def setOff (s : Files) (f : FSlot) (k : File → Nat) : Files :=
  s.setFile f fun x => { x with off := k x }

theorem setOff_file (g : FSlot) : ∃ o, (s.setOff f k).file g = { s.file g with off := o } := by
  by_cases hg : g = f
  · rw [hg]
    exact ⟨k (s.file f), setFile_self⟩
  · exact ⟨(s.file g).off, setFile_of_ne hg⟩

theorem setOff_held : (s.setOff f k).held = s.held := held_setFile_same fun _ => rfl

theorem OnInode.setOff (h : s.OnInode g ip) : (s.setOff f k).OnInode g ip := by
  obtain ⟨o, ho⟩ := setOff_file (s := s) (f := f) (k := k) g
  refine ⟨?_, ?_, ?_⟩
  · rw [ho]
    exact h.pos
  · rw [ho]
    exact h.type
  · rw [ho]
    exact h.ip

theorem OnInode.of_setOff (h : (s.setOff f k).OnInode g ip) :
    s.OnInode g ip ∧ ((s.setOff f k).file g).writable = (s.file g).writable := by
  obtain ⟨o, ho⟩ := setOff_file (s := s) (f := f) (k := k) g
  obtain ⟨hpos, htype, hip⟩ := h
  rw [ho] at hpos htype hip ⊢
  exact ⟨⟨hpos, htype, hip⟩, rfl⟩

theorem Table.setOff (ht : s.Table e) : (s.setOff f k).Table e := by
  have h := ht.setFile (f := f) (n := 0) (h := fun x => { x with off := k x }) (by simp)
    (fun h0 => ht.closed f h0) fun page w => ⟨fun he => ⟨he.pos, he.type, he.pipe, he.writable⟩,
      fun he => ⟨he.pos, he.type, he.pipe, he.writable⟩⟩
  rwa [more_zero] at h

theorem Ok.setOff (h : s.Ok) : (s.setOff f k).Ok ∧ Sheds s (s.setOff f k) :=
  ⟨⟨h.of_fs rfl setOff_held fun _ _ hg => hg.of_setOff, h.table.setOff, h.idle⟩,
    .of_fs rfl setOff_held⟩

/-! ## Reading -/

section Reading

variable {n : Option Nat} {num dev : Int}

theorem wp_filestat {Q : Option Stat → Files → Prop} (h : s.Ok) (href : 1 ≤ (s.file f).ref)
    (hQ : ∀ r s', s'.Ok → Sheds s s' → Q r s') : wp (filestat f) Q (Halts lax) s := by
  unfold filestat
  refine wp_read ?_
  cases htype : (s.file f).type with
  | none => exact hQ _ s h .refl
  | pipe => exact hQ _ s h .refl
  | inode =>
    have hon : s.OnInode f (s.file f).ip := ⟨by omega, htype, rfl⟩
    refine wp_zoom.mpr (wp_seq (wp_ilock h.inv hon.held_pos (h.slots _ hon.held_pos)
      (.inr (h.files f _ hon).1) fun fs1 hinv1 hq1 _ => ?_))
    refine wp_read (wp_seq ?_)
    refine wp_iunlock hinv1 hon.held_pos fun fs2 hinv2 hq2 => ?_
    obtain ⟨hok, hsheds⟩ := h.quiet hinv2 (hq1.trans hq2)
    exact hQ _ _ hok hsheds

theorem wp_fileread {Q : Int × List UInt8 → Files → Prop} {n : Nat} (h : s.Ok)
    (href : 1 ≤ (s.file f).ref) (hQ : ∀ r s', s'.Ok → Sheds s s' → Q r s') :
    wp (fileread dev f n) Q (Halts lax) s := by
  unfold fileread
  refine wp_read (wp_ite (fun _ => hQ _ s h .refl) fun _ => ?_)
  cases htype : (s.file f).type with
  | none => exact h.inv.fails (by decide)
  | pipe => exact hQ _ s h .refl
  | inode =>
    have hon : s.OnInode f (s.file f).ip := ⟨by omega, htype, rfl⟩
    refine wp_seq (wp_zoom.mpr (wp_ilock h.inv hon.held_pos (h.slots _ hon.held_pos)
      (.inr (h.files f _ hon).1) fun fs1 hinv1 hq1 hv1 => ?_))
    obtain ⟨hok1, hsheds1⟩ := h.quiet hinv1 hq1
    -- the offset is moved before the inode is unlocked
    have hrest : ∀ r : Int × List UInt8, wp (do
        onFile f fun x => { x with off := if 0 < r.1 then u32 (x.off + r.1.toNat) else x.off }
        onFs (iunlock (s.file f).ip)
        pure r) Q (Halts lax) { s with fs := fs1 } := by
      intro r
      refine wp_write (wp_seq (wp_zoom.mpr ?_))
      obtain ⟨hok2, hsheds2⟩ := hok1.setOff (f := f)
        (k := fun x => if 0 < r.1 then u32 (x.off + r.1.toNat) else x.off)
      have hheld := setOff_held (s := { s with fs := fs1 }) (f := f)
        (k := fun x => if 0 < r.1 then u32 (x.off + r.1.toNat) else x.off)
      refine wp_iunlock hok2.inv ?_ fun fs2 hinv2 hq2 => ?_
      · rw [hheld]
        exact hon.held_pos
      · obtain ⟨hok3, hsheds3⟩ := hok2.quiet hinv2 hq2
        exact hQ r _ hok3 ((hsheds1.trans hsheds2).trans hsheds3)
    refine wp_seq (wp_zoom.mpr ?_)
    exact wp_readi hinv1 hon.held_pos hv1 (fun _ => hrest _) (fun _ _ => hrest _) fun _ _ _ => hrest _

variable {Q : Int → Files → Prop} (h : s.Ok) (hQ : ∀ r s', s'.Ok → Sheds s s' → Q r s')

include h hQ

theorem wp_sysRead : wp (sysRead dev p num n) Q (Halts lax) s := by
  unfold sysRead
  refine wp_seq (wp_argfd (hQ _ s h .refl) fun fd f hopen => ?_)
  cases n with
  | none => exact hQ _ s h .refl
  | some n =>
    exact wp_seq (wp_fileread h (h.table.ref_pos hopen) fun r s' hok hsheds => hQ _ s' hok hsheds)

theorem wp_sysFstat {st : Bool} : wp (sysFstat p num st) Q (Halts lax) s := by
  unfold sysFstat
  refine wp_seq (wp_argfd (hQ _ s h .refl) fun fd f hopen => ?_)
  cases st with
  | false => exact hQ _ s h .refl
  | true =>
    exact wp_seq (wp_filestat h (h.table.ref_pos hopen) fun r s' hok hsheds => hQ _ s' hok hsheds)

end Reading

/-! ## Writing -/

/-- Only the contents of inode `i` change. -/
structure Writes (i : Nat) (s s' : Files) : Prop where
  sb : s'.fs.sb = s.fs.sb
  refs : s'.fs.Refs s'.held = s.fs.Refs s.held
  tidy : s.fs.Tidy s.held → s'.fs.Tidy s'.held
  others : ∀ x ≠ i, s'.fs.ino x = s.fs.ino x
  type : (s'.fs.ino i).type = (s.fs.ino i).type
  nlink : (s'.fs.ino i).nlink = (s.fs.ino i).nlink

theorem Writes.refl : Writes i s s := ⟨rfl, rfl, id, fun _ _ => rfl, rfl, rfl⟩

theorem Writes.trans (h : Writes i s s') (h' : Writes i s' s'') : Writes i s s'' where
  sb := h'.sb.trans h.sb
  refs := h'.refs.trans h.refs
  tidy := fun ht => h'.tidy (h.tidy ht)
  others := fun x hx => (h'.others x hx).trans (h.others x hx)
  type := h'.type.trans h.type
  nlink := h'.nlink.trans h.nlink

structure Chunk (cnt : ISlot → Nat) (i : Nat) (s s' : Fs) : Prop where
  inv : s'.Inv cnt none
  kept : Kept cnt s s'
  tidy : s.Tidy cnt → s'.Tidy cnt
  ino : s'.ino = s.ino ∨ ∃ off src, s'.ino = Tree.write s.ino i off src

theorem Chunk.of_quiet (hinv : fs'.Inv cnt none) (hq : Quiet cnt fs fs') : Chunk cnt i fs fs' :=
  ⟨hinv, hq.kept, hq.moves.tidy, .inl hq.ino⟩

theorem Chunk.quiet {fs'' : Fs} (h : Chunk cnt i fs fs')
    (hinv : fs''.Inv cnt none) (hq : Quiet cnt fs' fs'') : Chunk cnt i fs fs'' := by
  refine ⟨hinv, h.kept.trans hq.kept, fun ht => hq.moves.tidy (h.tidy ht), ?_⟩
  rw [hq.ino]
  exact h.ino

theorem Chunk.sane (h : Chunk cnt i fs fs') (hfile : (fs.ino i).type ≠ T_DIR)
    (hs : Tree.Sane fs.ino fs.sb.ninodes) : Tree.Sane fs'.ino fs'.sb.ninodes := by
  rw [h.kept.sb]
  rcases h.ino with hino | ⟨off, src, hino⟩
  · rw [hino]
    exact hs
  · rw [hino]
    exact hs.write hfile

theorem Chunk.writes (h : Chunk s.held i s.fs.begun fs) (hheld : s'.held = s.held)
    (hfs : s'.fs = fs.ended) : Writes i s s' where
  sb := by rw [hfs]; exact h.kept.sb
  refs := by rw [hfs, hheld]; exact h.kept.refs
  tidy := by rw [hfs, hheld]; exact h.tidy
  others := by
    intro x hx
    rw [hfs]
    show fs.ino x = s.fs.begun.ino x
    rcases h.ino with hino | ⟨off, src, hino⟩
    · rw [hino]
    · rw [hino]
      exact Function.update_of_ne hx ..
  type := by
    rw [hfs]
    show (fs.ino i).type = (s.fs.begun.ino i).type
    rcases h.ino with hino | ⟨off, src, hino⟩
    · rw [hino]
    · rw [hino, Tree.write, Function.update_self]
  nlink := by
    rw [hfs]
    show (fs.ino i).nlink = (s.fs.begun.ino i).nlink
    rcases h.ino with hino | ⟨off, src, hino⟩
    · rw [hino]
    · rw [hino, Tree.write, Function.update_self]

def Stores (f : FSlot) (ip : ISlot) (src : List UInt8) (r : Int) (s : Files) (fs : Fs) : Prop :=
  (s.inodeOf ip).type ≠ T_DEV → (r = -1 ∧ fs.ino = s.fs.ino) ∨
    (r = src.length ∧ (s.file f).off + src.length ≤ MAXFILE * BSIZE ∧
      (s.file f).off ≤ (s.inodeOf ip).bytes.length ∧
      fs.ino = Tree.write s.fs.ino (s.fs.inode ip).inum (s.file f).off src)

/-- The number of blocks logged for it. -/
def Costs (f : FSlot) (ip : ISlot) (src : List UInt8) (r : Int) (s : Files) (fs : Fs) : Prop :=
  OneBitmap s.fs.sb → (s.inodeOf ip).type ≠ T_DEV → fs.lg.card
    = if r < 0 then 0 else s.fs.chunkCost (s.fs.inode ip).inum (s.file f).off src.length

/-- A chunk has been written to the inode in slot `ip`. -/
structure Chunked (f : FSlot) (ip : ISlot) (src : List UInt8) (r : Int) (s s' : Files) : Prop where
  ok : s'.Ok
  writes : Writes (s.fs.inode ip).inum s s'
  on : s'.OnInode f ip
  writable : (s'.file f).writable = true
  inum : (s'.fs.inode ip).inum = (s.fs.inode ip).inum
  proc : s'.proc = s.proc
  stores : Stores f ip src r s s'.fs
  off : (s'.file f).off = if 0 < r then u32 ((s.file f).off + r.toNat) else (s.file f).off
  cost : OneBitmap s.fs.sb → (s.inodeOf ip).type ≠ T_DEV → ∃ o, s'.fs.ops = o :: s.fs.ops ∧
    o.toFinset.card
      = if r < 0 then 0 else s.fs.chunkCost (s.fs.inode ip).inum (s.file f).off src.length

theorem wp_writeChunk {dev : Int} (h : s.Ok) (hon : s.OnInode f ip)
    (hw : (s.file f).writable = true) (hQ : ∀ r s', Chunked f ip src r s s' → Q r s') :
    wp (writeChunk dev f src) Q (Halts lax) s := by
  have hpos := hon.held_pos
  obtain ⟨htype, hdir⟩ := h.files f ip hon
  have hfile := hdir hw
  unfold writeChunk
  refine wp_read (wp_seq (wp_zoom.mpr (wp_beginOp.mpr ?_)))
  refine wp_seq (wp_zoom.mpr ?_)
  dsimp only
  rw [hon.ip]
  refine wp_ilock h.inv.begun hpos (h.slots ip hpos) (.inr htype) fun fs1 hinv1 hq1 hv1 => ?_
  have hinum1 : (fs1.inode ip).inum = (s.fs.inode ip).inum := hq1.inum ip hpos
  -- what is left to do when `writei` has returned
  have hrest : ∀ (r : Int) (fs2 : Fs), Chunk s.held (s.fs.inode ip).inum s.fs.begun fs2 →
      Stores f ip src r s fs2 → Costs f ip src r s fs2 → wp (do
      onFile f fun x => { x with off := if 0 < r then u32 (x.off + r.toNat) else x.off }
      onFs (iunlock ip)
      onFs endOp
      pure r) Q (Halts lax) { s with fs := fs2 } := by
    intro r fs2 hchunk hstores hcosts
    refine wp_write (wp_seq (wp_zoom.mpr ?_))
    refine wp_iunlock hchunk.inv hpos fun fs3 hinv3 hq3 => ?_
    refine wp_seq (wp_zoom.mpr (wp_endOp.mpr ?_))
    have hchunk3 := hchunk.quiet hinv3 hq3
    have hstays : Stays s.held s.fs fs3.ended :=
      ⟨hchunk3.kept.sb, hchunk3.kept.inum, hchunk3.kept.type⟩
    have hfile_eq : (({ s with fs := fs3.ended } : Files).setOff f
        fun x => if 0 < r then u32 (x.off + r.toNat) else x.off).file f
          = { s.file f with off := if 0 < r then u32 ((s.file f).off + r.toNat) else (s.file f).off } :=
      setFile_self
    refine hQ r (({ s with fs := fs3.ended } : Files).setOff f
      fun x => if 0 < r then u32 (x.off + r.toNat) else x.off) ⟨⟨?_, ?_, h.idle⟩,
      hchunk3.writes setOff_held rfl, ?_, ?_, hchunk3.kept.inum ip hpos, rfl, ?_, ?_,
      fun hone hdev => ⟨fs3.op.getD [], congrArg _ hchunk3.kept.ops, ?_⟩⟩
    · refine h.of_stays (c := s.held) ?_ rfl (hchunk3.sane hfile) hstays (fun j hj => ?_) fun g jp hg => ?_
      · rw [setOff_held]
        exact hchunk3.inv.ended
      · rw [setOff_held] at hj
        exact .inl ⟨hj, hj⟩
      · obtain ⟨hg', hw'⟩ := hg.of_setOff
        have hg0 : s.OnInode g jp := ⟨hg'.pos, hg'.type, hg'.ip⟩
        exact .inl ⟨hg0, hg0.held_pos, hw'⟩
    · exact (h.table.withFs _).setOff
    · exact OnInode.setOff (s := { s with fs := fs3.ended }) ⟨hon.pos, hon.type, hon.ip⟩
    · rw [hfile_eq]
      exact hw
    · intro hdev
      have hino : fs3.ino = fs2.ino := hq3.ino
      show (r = -1 ∧ fs3.ino = s.fs.ino) ∨ (_ ∧ _ ∧ _ ∧ fs3.ino = _)
      rw [hino]
      exact hstores hdev
    · rw [hfile_eq]
    · have hlg : fs3.lg = fs2.lg := hq3.lg
      rw [← hcosts hone hdev, ← hlg]
      rfl
  have hsame : Chunk s.held (s.fs.inode ip).inum s.fs.begun fs1 := .of_quiet hinv1 hq1
  have hino1 : fs1.ino = s.fs.ino := hq1.ino
  have htype1 : (fs1.ino (fs1.inode ip).inum).type = (s.inodeOf ip).type := by
    rw [hinum1, hino1]
    rfl
  have hempty : fs1.lg = ∅ := by
    have hop : s.fs.begun.lg = ∅ := by
      show (s.fs.op.getD []).toFinset = ∅
      rw [h.op]
      rfl
    rw [hq1.lg]
    exact hop
  have hnone : ∀ r : Int, (s.inodeOf ip).type = T_DEV ∨ r < 0 → Costs f ip src r s fs1 := by
    intro r hr _ hdev
    rw [hempty, if_pos (hr.resolve_left hdev)]
    rfl
  refine wp_seq (wp_zoom.mpr (wp_mono (wp_and (wp_writei
    (Q := fun r fs2 => Fs.Logs ip fs1 fs2 → wp (do
      onFile f fun x => { x with off := if 0 < r then u32 (x.off + r.toNat) else x.off }
      onFs (iunlock ip)
      onFs endOp
      pure r) Q (Halts lax) { s with fs := fs2 }) (E := Fails lax) hinv1 hpos hv1
    (by rw [hq1.op]; rfl)
    (fun hdev _ => hrest _ _ hsame (fun hno => absurd (htype1.symm.trans hdev) hno)
      (hnone _ (.inl (htype1.symm.trans hdev))))
    (fun _ _ _ => hrest _ _ hsame (fun _ => .inl ⟨rfl, hino1⟩) (hnone _ (.inr (by decide))))
    (fun _ hoff hmax fs2 hstored hlogs => ?_) fun _ _ _ _ fs2 hover => .of_panic hover (by decide))
    (logging_writei fs1)) (fun r fs2 hboth => hboth.1 hboth.2.1) fun e fs2 hboth => hboth.1))
  have hino : fs2.ino = Tree.write fs1.ino (fs1.inode ip).inum (s.file f).off src := hstored.ino
  rw [hinum1, hino1] at hino
  refine hrest _ _ ⟨hstored.inv, hq1.kept.trans hstored.kept,
    fun ht => hstored.tidy (hq1.moves.tidy ht), .inr ⟨(s.file f).off, src, hino⟩⟩
    (fun _ => .inr ⟨rfl, hmax, ?_, hino⟩) fun hone _ => ?_
  · rw [inodeOf, ← hinum1, ← hino1, length_bytes]
    exact hoff
  · have hsb1 : fs1.sb = s.fs.sb := hq1.sb
    have hnode1 : fs1.node = s.fs.node := hq1.node
    rw [hstored.card_lg hinv1 hpos hv1 hlogs hempty (by rw [hsb1]; exact hone), hinum1,
      if_neg (by omega), chunkCost, hnode1]
    rfl

theorem wp_writeChunks {Q : Bool → Files → Prop} {fuel : Nat}
    (h : s.Ok) (hon : s.OnInode f ip) (hw : (s.file f).writable = true)
    (hQ : ∀ r s', s'.Ok → Writes (s.fs.inode ip).inum s s' → s'.proc = s.proc → Q r s') :
    wp (writeChunks dev f fuel src) Q (Halts lax) s := by
  induction fuel generalizing s src with
  | zero => exact hQ _ s h .refl rfl
  | succ fuel ih =>
    refine wp_ite (fun _ => hQ _ s h .refl rfl) fun _ => wp_seq ?_
    refine wp_writeChunk h hon hw fun r s1 h1 => ?_
    refine wp_ite (fun _ => hQ _ s1 h1.ok h1.writes h1.proc) fun _ => ?_
    refine wp_ite (fun _ => h1.ok.inv.fails (by decide)) fun _ => ?_
    refine ih h1.ok h1.on h1.writable fun r' s2 hok2 hwrites2 hproc2 =>
      hQ r' s2 hok2 ?_ (hproc2.trans h1.proc)
    rw [h1.inum] at hwrites2
    exact h1.writes.trans hwrites2

theorem wp_sysWrite {num : Int} {src : Option (List UInt8)} (h : s.Ok)
    (hQ : ∀ r s' i, s'.Ok → Writes i s s' → Q r s') :
    wp (sysWrite dev p num src) Q (Halts lax) s := by
  unfold sysWrite
  refine wp_seq (wp_argfd (hQ _ s 0 h .refl) fun fd f hopen => ?_)
  cases src with
  | none => exact hQ _ s 0 h .refl
  | some src =>
    have href := h.table.ref_pos hopen
    show wp (filewrite dev f src) Q (Halts lax) s
    unfold filewrite
    refine wp_read (wp_ite (fun _ => hQ _ s 0 h .refl) fun hw => ?_)
    cases htype : (s.file f).type with
    | none => exact h.inv.fails (by decide)
    | pipe => exact hQ _ s 0 h .refl
    | inode =>
      have hon : s.OnInode f (s.file f).ip := ⟨by omega, htype, rfl⟩
      refine wp_seq (wp_writeChunks h hon (by simpa using hw) fun r s' hok hwrites _ => ?_)
      exact hQ _ s' _ hok hwrites

/-! ## Opening -/

section Opening

variable {omode : UInt32}

theorem wp_openFile {Q : Option (FSlot × Fin NOFILE) → Files → Prop}
    (ht : s.Table fun _ => 0) (hcwd : (s.proc p).cwd = some cwd)
    (hnone : ∀ t, Apart s (fun _ => 0) t → Q none t)
    (hsome : ∀ f fd t, Apart s (fun _ => 0) t → (t.file f).ref = 1 → (t.file f).type = .none →
      Q (some (f, fd)) t) : wp (openFile p) Q E s := by
  unfold openFile
  refine wp_seq (wp_filealloc (hnone s (.refl ht)) fun f hfree => ?_)
  have h1 := (Apart.refl ht).alloc hfree
  have htype := ht.closed f hfree
  refine wp_seq (wp_fdalloc ?_ fun fd hfd => ?_)
  · refine wp_seq (wp_closeApart h1 (by simp) (by simp [htype]) fun h2 => hnone _ ?_)
    rwa [more_more, Int.add_right_neg, more_zero] at h2
  · have h2 := h1.setFd hcwd (h1.table.openFd (f := f) hfd)
    rw [more_more, Int.add_right_neg, more_zero] at h2
    refine hsome f fd _ h2 ?_ ?_
    · show ((s.setFile f fun x => { x with ref := 1 }).file f).ref = 1
      rw [setFile_self]
    · show ((s.setFile f fun x => { x with ref := 1 }).file f).type = .none
      rw [setFile_self]
      exact htype

def openOn (s : Files) (f : FSlot) (ip : ISlot) (omode : UInt32) : Files :=
  s.setFile f fun x => { x with
    type := .inode
    ip := ip
    off := 0
    readable := decide (omode &&& O_WRONLY = 0)
    writable := decide (omode &&& O_WRONLY ≠ 0 ∨ omode &&& O_RDWR ≠ 0) }

theorem held_openOn (href : (s.file f).ref = 1) (htype : (s.file f).type = .none) :
    (s.openOn f ip omode).held = plus s.held ip := by
  funext j
  have hsum : (s.openOn f ip omode).held j + (s.file f).holds j = s.held j + _ := held_setFile _
  simp only [File.holds, href, htype] at hsum
  by_cases hj : j = ip
  · rw [hj, plus_self]
    rw [hj] at hsum
    simpa using hsum
  · rw [plus_of_ne hj]
    have hne : ¬ ip = j := fun h => hj h.symm
    simpa [hne] using hsum

theorem Table.openOn (ht : s.Table e) (href : (s.file f).ref = 1) (htype : (s.file f).type = .none) :
    (s.openOn f ip omode).Table e := by
  have h := ht.setFile (f := f) (n := 0) (h := fun x => { x with
    type := .inode
    ip := ip
    off := 0
    readable := decide (omode &&& O_WRONLY = 0)
    writable := decide (omode &&& O_WRONLY ≠ 0 ∨ omode &&& O_RDWR ≠ 0) }) (by simp)
    (fun h0 => absurd (href.symm.trans h0) (by decide)) fun page w =>
      ⟨fun he => absurd he.type (by simp), fun he => absurd (htype.symm.trans he.type) (by simp)⟩
  rwa [more_zero] at h

theorem OnInode.of_openOn (h : (s.openOn f ip omode).OnInode g j) :
    (g = f ∧ j = ip ∧ (((s.openOn f ip omode).file g).writable = true → omode ≠ O_RDONLY)) ∨
      (s.OnInode g j ∧ ((s.openOn f ip omode).file g).writable = (s.file g).writable) := by
  obtain ⟨hpos, htype, hip⟩ := h
  by_cases hg : g = f
  · left
    subst hg
    unfold openOn at *
    rw [setFile_self] at hip ⊢
    refine ⟨rfl, hip.symm, fun hw hmode => ?_⟩
    have hno : ¬ (O_RDONLY &&& O_WRONLY ≠ 0 ∨ O_RDONLY &&& O_RDWR ≠ 0) := by decide
    rw [hmode] at hw
    exact hno (of_decide_eq_true hw)
  · right
    unfold openOn at *
    rw [setFile_of_ne hg] at hpos htype hip ⊢
    exact ⟨⟨hpos, htype, hip⟩, rfl⟩

theorem wp_sysOpen {Q : Int → Files → Prop} {path : Option (List UInt8)} (h : s.Ok)
    (hcwd : (s.proc p).cwd = some cwd) (hcalm : lax ∨ s.fs.Calm s.held)
    (hQ : ∀ r s', s'.Ok → Outcome s s' → Q r s') :
    wp (sysOpen p cwd path omode) Q (Halts lax) s := by
  cases path with
  | none => exact hQ _ s h Sheds.refl.outcome
  | some path =>
    have hcalls := h.calls hcwd hcalm
    refine wp_seq (wp_zoom.mpr (wp_beginOp.mpr (wp_seq (wp_zoom.mpr ?_))))
    refine wp_openInode hcalls.starts (fun fs1 hacted => ?_) fun ip fs1 hmade hdir => ?_
    · obtain ⟨hok, hout⟩ := h.ran (hacted.ran h.op)
      exact hQ _ _ hok hout
    · show wp (openRest p omode ip) Q (Halts lax) { s with fs := fs1 }
      unfold openRest
      refine wp_seq (wp_openFile (h.table.withFs fs1) hcwd (fun t hapart => ?_) fun f fd t hapart href htype => ?_)
      · -- no file or no descriptor is left: the inode is put again
        refine wp_seq (wp_zoom.mpr ?_)
        rw [hapart.fs]
        refine wp_iunlockput hmade.inv hmade.valid ?_ fun fs2 hinv2 hdrop2 => ?_
        · rw [hmade.moves.kept.isSome]
          rfl
        refine wp_seq (wp_zoom.mpr (wp_endOp.mpr ?_))
        obtain ⟨hok, hout⟩ := h.ran ((hmade.drop hdrop2 hinv2).ran h.op)
        exact hQ _ _ ((hapart.withFs fs2.ended).ok hok)
          (hout.congr rfl hapart.held fun g jp hg => ((hapart.withFs fs2.ended).files g jp hg).1)
      · refine wp_seq (wp_zoom.mpr ?_)
        rw [hapart.fs]
        refine wp_iunlock hmade.inv plus_pos fun fs2 hinv2 hq2 => ?_
        refine wp_seq (wp_zoom.mpr (wp_endOp.mpr (wp_write ?_)))
        have hmade2 : Made s.held s.fs.begun fs2 ip := hmade.quiet hinv2 hq2
        have hran := hmade2.ran h.op
        have href' : (({ t with fs := fs2.ended } : Files).file f).ref = 1 := href
        have hheld : (({ t with fs := fs2.ended } : Files).openOn f ip omode).held
            = plus s.held ip := by
          rw [held_openOn href' htype]
          exact congrArg (plus · ip) hapart.held
        refine hQ _ (({ t with fs := fs2.ended } : Files).openOn f ip omode) ⟨?_, ?_, ?_⟩
          (.of_ran (c := s.held) ?_ fun _ _ hf => hf.held_pos)
        · refine h.of_stays (c := s.held) ?_ rfl hran.sane hran.stays (fun j hj => ?_) fun g jp hg => ?_
          · rw [hheld]
            exact hran.inv
          · rw [hheld] at hj
            by_cases hjp : j = ip
            · right
              rw [hjp]
              exact hran.inv.slots.inum ip plus_pos hmade2.valid
            · rw [plus_of_ne hjp] at hj
              exact .inl ⟨hj, hj⟩
          · rcases hg.of_openOn with ⟨rfl, rfl, hmode⟩ | ⟨hg', hw⟩
            · right
              show (fs2.ino (fs2.inode jp).inum).type ≠ 0 ∧
                (_ → (fs2.ino (fs2.inode jp).inum).type ≠ T_DIR)
              refine ⟨?_, fun hw => ?_⟩
              · rw [← (hinv2.copy_eq plus_pos hmade2.valid).1]
                exact hinv2.slots.typed jp plus_pos hmade2.valid
              · rw [hq2.inum jp plus_pos, hq2.ino]
                exact hdir (hmode hw)
            · obtain ⟨hg1, hw1⟩ := hapart.files g jp ⟨hg'.pos, hg'.type, hg'.ip⟩
              have hg0 : s.OnInode g jp := ⟨hg1.pos, hg1.type, hg1.ip⟩
              exact .inl ⟨hg0, hg0.held_pos, hw.trans hw1⟩
        · exact (hapart.table.withFs fs2.ended).openOn href' htype
        · exact hapart.idle h.idle
        · rw [hheld]
          exact hran

end Opening

/-! ## Current directories -/

def setCwd (s : Files) (p : PSlot) (d : Option ISlot) : Files :=
  s.setProc p fun t => { t with cwd := d }

theorem setCwd_ofile (q : PSlot) : ((s.setCwd p d).proc q).ofile = (s.proc q).ofile := by
  by_cases hq : q = p
  · rw [hq, setCwd, setProc_self]
  · rw [setCwd, setProc_of_ne hq]

theorem setCwd_cwd (q : PSlot) :
    ((s.setCwd p d).proc q).cwd = if q = p then d else (s.proc q).cwd := by
  by_cases hq : q = p
  · rw [hq, setCwd, setProc_self, if_pos rfl]
  · rw [setCwd, setProc_of_ne hq, if_neg hq]

theorem held_setCwd (s : Files) (p : PSlot) (d : Option ISlot) (j : ISlot) :
    (s.setCwd p d).held j + (if (s.proc p).cwd = some j then 1 else 0)
      = s.held j + (if d = some j then 1 else 0) :=
  held_setProc fun t => { t with cwd := d }

theorem held_leave (hcwd : (s.proc p).cwd = some cwd) : s.held = plus (s.setCwd p none).held cwd := by
  funext j
  have hsum := held_setCwd s p none j
  rw [hcwd] at hsum
  by_cases hj : j = cwd
  · rw [hj, plus_self]
    rw [hj] at hsum
    simpa using hsum.symm
  · rw [plus_of_ne hj]
    have hne : ¬ cwd = j := fun h => hj h.symm
    simpa [hne] using hsum.symm

theorem held_enter : (s.setCwd p (some ip)).held = plus (s.setCwd p none).held ip := by
  funext j
  have hsum := held_setCwd s p none j
  have hsum' := held_setCwd s p (some ip) j
  by_cases hj : j = ip
  · rw [hj, plus_self]
    rw [hj] at hsum hsum'
    simp only [reduceCtorEq, if_false, if_true] at hsum hsum'
    omega
  · rw [plus_of_ne hj]
    have hne : ¬ ip = j := fun h => hj h.symm
    simp only [reduceCtorEq, Option.some.injEq, hne, if_false] at hsum hsum'
    omega

theorem Table.setCwd (ht : s.Table e) : (s.setCwd p d).Table e := by
  have hfds : ∀ f, (s.setCwd p d).fds f = s.fds f := by
    intro f
    refine total_congr fun q => ?_
    unfold Task.fds
    rw [setCwd_ofile]
  refine ⟨fun f => ?_, ht.closed, ht.ends, ht.uniq⟩
  rw [hfds]
  exact ht.refs f

theorem wp_sysChdir {path : Option (List UInt8)} (h : s.Ok) (hcwd : (s.proc p).cwd = some cwd)
    (hcalm : lax ∨ s.fs.Calm s.held) (hQ : ∀ r s', s'.Ok → Outcome s s' → Q r s') :
    wp (sysChdir p cwd path) Q (Halts lax) s := by
  have hcalls := h.calls hcwd hcalm
  have hleave := held_leave hcwd
  rw [hleave] at hcalls
  unfold sysChdir
  refine wp_seq (wp_zoom.mpr (wp_chdir hcalls (fun fs1 hran => ?_) fun ip fs1 hran hlt => ?_))
  · rw [← hleave] at hran
    obtain ⟨hok, hout⟩ := h.ran hran
    exact hQ _ _ hok hout
  · refine wp_write ?_
    have hheld : (({ s with fs := fs1 } : Files).setCwd p (some ip)).held
        = plus (s.setCwd p none).held ip := held_enter (s := { s with fs := fs1 })
    refine hQ 0 (({ s with fs := fs1 } : Files).setCwd p (some ip)) ⟨?_, ?_, fun q hq => ?_⟩ ?_
    · refine h.of_stays ?_ hran.op hran.sane hran.stays (fun j hj => ?_) fun g jp hg => ?_
      · rw [hheld]
        exact hran.inv
      · rw [hheld] at hj
        by_cases hjp : j = ip
        · right
          rw [hjp]
          show (fs1.inode ip).inum < fs1.sb.ninodes
          rw [hran.stays.sb]
          exact hlt
        · rw [plus_of_ne hjp] at hj
          refine .inl ⟨hj, ?_⟩
          rw [hleave]
          exact plus_pos_of_pos hj
      · have hg1 : (s.setCwd p none).OnInode g jp := ⟨hg.pos, hg.type, hg.ip⟩
        exact .inl ⟨⟨hg.pos, hg.type, hg.ip⟩, hg1.held_pos, rfl⟩
    · exact (h.table.withFs fs1).setCwd
    · rw [setCwd_cwd] at hq
      split at hq
      · exact absurd hq (by simp)
      · rw [setCwd_ofile]
        exact h.idle q hq
    · refine .of_ran (c := (s.setCwd p none).held) ?_ fun g jp hg =>
        OnInode.held_pos (f := g) (s := s.setCwd p none) ⟨hg.pos, hg.type, hg.ip⟩
      rw [hheld, hleave]
      exact hran

/-! ## `exit` -/

structure Closing (s : Files) (p : PSlot) (cwd : ISlot) (rest : List (Fin NOFILE)) (t : Files) :
    Prop where
  ok : t.Ok
  cwd : (t.proc p).cwd = some cwd
  sheds : Sheds s t
  closed : ∀ fd, fd ∉ rest → (t.proc p).ofile fd = none

theorem wp_closeFd {Q : Unit → Files → Prop} (h : Closing s p cwd (fd :: rest) t)
    (hQ : ∀ t', Closing s p cwd rest t' → Q () t') : wp (closeFd p fd) Q E t := by
  unfold closeFd
  refine wp_read ?_
  cases hopen : (t.proc p).ofile fd with
  | none =>
    refine hQ t ⟨h.ok, h.cwd, h.sheds, fun fd' hfd' => ?_⟩
    by_cases heq : fd' = fd
    · rw [heq]
      exact hopen
    · exact h.closed fd' (by simp [heq, hfd'])
  | some f =>
    have href := h.ok.table.ref_pos hopen
    refine wp_seq (wp_close h.ok.toHold h.ok.table href fun t' hhold htable hsheds hproc => ?_)
    refine (wp_change _).mpr (hQ _ ⟨⟨hhold.setFd, ?_, ?_⟩, ?_, (h.sheds.trans hsheds).trans .setFd, ?_⟩)
    · rw [← hproc] at hopen
      have hclear := htable.clearFd hopen
      rwa [more_more, Int.add_left_neg, more_zero] at hclear
    · have hidle := h.ok.idle
      have hcwd := h.cwd
      rw [← hproc] at hidle hcwd
      exact idle_setFd hidle hcwd
    · rw [setFd_cwd, hproc]
      exact h.cwd
    · intro fd' hfd'
      by_cases heq : fd' = fd
      · rw [heq]
        exact setFd_self
      · rw [setFd_other heq, hproc]
        exact h.closed fd' (by simp [heq, hfd'])

theorem wp_sysExit (h : s.Ok) (hcwd : (s.proc p).cwd = some cwd)
    (hQ : ∀ r s', s'.Ok → Sheds s s' → Q r s') : wp (sysExit p cwd) Q (Halts lax) s := by
  refine wp_ite (fun _ => h.inv.fails (by decide)) fun _ => wp_seq ?_
  refine wp_forM (fun rest t => Closing s p cwd rest t) ⟨h, hcwd, .refl, ?_⟩
    (fun fd rest t hc => wp_closeFd hc fun t' hc' => hc') fun t hc => ?_
  · intro fd hfd
    exact absurd (mem_finRange fd) hfd
  · have hleave := held_leave hc.cwd
    have hinv := hc.ok.inv
    rw [hleave] at hinv
    have hput : wp (do beginOp; iput cwd; endOp) (fun _ fs1 => wp (do
        change fun s => s.setProc p fun t => { t with cwd := none }
        pure 0) Q (Halts lax) { t with fs := fs1 }) (fun e fs1 => Fails lax e fs1) t.fs := by
      refine wp_iputOp hinv hc.ok.op fun fs1 hput => wp_write ?_
      have hkeep : (({ t with fs := fs1 } : Files).setCwd p none).Hold ∧
          Sheds t (({ t with fs := fs1 } : Files).setCwd p none) :=
        hc.ok.put hleave hput fun g jp hg => ⟨⟨hg.pos, hg.type, hg.ip⟩, rfl⟩
      obtain ⟨hhold, hsheds⟩ := hkeep
      refine hQ 0 (({ t with fs := fs1 } : Files).setCwd p none)
        ⟨hhold, (hc.ok.table.withFs fs1).setCwd, fun q hq fd => ?_⟩ (hc.sheds.trans hsheds)
      rw [setCwd_ofile]
      by_cases hqp : q = p
      · rw [hqp]
        exact hc.closed fd (by simp)
      · rw [setCwd_cwd, if_neg hqp] at hq
        exact hc.ok.idle q hq fd
    refine wp_seq (wp_zoom.mpr (wp_beginOp.mpr (wp_seq (wp_zoom.mpr ?_))))
    exact wp_mono (wp_bind.mp (wp_beginOp.mp (wp_bind.mp hput)))
      (fun _ fs1 hend => wp_seq (wp_zoom.mpr hend)) fun _ _ he => he

/-! ## `fork` -/

structure Copying (s : Files) (np : PSlot) (rest : List (Fin NOFILE)) (t : Files) : Prop where
  fs : t.fs = s.fs
  held : t.held = s.held
  files : ∀ g ip, t.OnInode g ip → s.OnInode g ip ∧ (t.file g).writable = (s.file g).writable
  table : t.Table fun _ => 0
  others : ∀ q ≠ np, t.proc q = s.proc q
  cwd : (t.proc np).cwd = none
  nodup : rest.Nodup
  missing : ∀ fd ∈ rest, (t.proc np).ofile fd = none

theorem wp_dupFd {Q : Unit → Files → Prop} (h : Copying s np (fd :: rest) t)
    (hQ : ∀ t', Copying s np rest t' → Q () t') : wp (dupFd p np fd) Q E t := by
  obtain ⟨hfd, hrest⟩ := nodup_cons.mp h.nodup
  unfold dupFd
  refine wp_read ?_
  cases hopen : (t.proc p).ofile fd with
  | none =>
    exact hQ t { h with
      nodup := hrest
      missing := fun fd' hfd' => h.missing fd' (mem_cons_of_mem fd hfd') }
  | some f =>
    have href := h.table.ref_pos hopen
    refine wp_seq (wp_filedup href ((wp_change _).mpr (hQ _ ?_)))
    have htable := (h.table.dup href).openFd (p := np) (f := f) (h.missing fd mem_cons_self)
    rw [more_more, Int.add_right_neg, more_zero] at htable
    refine ⟨h.fs, ?_, fun g ip hg => ?_, htable, fun q hq => ?_, ?_, hrest, fun fd' hfd' => ?_⟩
    · rw [held_setFd, held_dup href]
      exact h.held
    · obtain ⟨hpos, htype, hip⟩ := hg
      show s.OnInode g ip ∧ ((t.setFile f fun x => { x with ref := x.ref + 1 }).file g).writable = _
      change 0 < ((t.setFile f fun x => { x with ref := x.ref + 1 }).file g).ref at hpos
      change ((t.setFile f fun x => { x with ref := x.ref + 1 }).file g).type = .inode at htype
      change ((t.setFile f fun x => { x with ref := x.ref + 1 }).file g).ip = ip at hip
      by_cases hgf : g = f
      · subst hgf
        rw [setFile_self] at htype hip ⊢
        exact h.files g ip ⟨href, htype, hip⟩
      · rw [setFile_of_ne hgf] at hpos htype hip ⊢
        exact h.files g ip ⟨hpos, htype, hip⟩
    · rw [setFd_of_ne hq]
      exact h.others q hq
    · rw [setFd_cwd]
      exact h.cwd
    · have hne' : fd' ≠ fd := fun heq => hfd (by rwa [← heq])
      rw [setFd_other hne']
      exact h.missing fd' (mem_cons_of_mem fd hfd')

theorem wp_sysFork {child : Option PSlot} {queued : Bool} (h : s.Ok)
    (hcwd : (s.proc p).cwd = some cwd) (hQ : ∀ r s', s'.Ok → Sheds s s' → Q r s') :
    wp (sysFork p cwd child queued) Q (Halts lax) s := by
  unfold sysFork
  refine wp_read ?_
  cases hnp : child.filter fun np => decide ((s.proc np).cwd = none) with
  | none => exact hQ _ s h .refl
  | some np =>
    have hidle : (s.proc np).cwd = none := by
      have hmem := Option.mem_filter_iff.mp hnp
      simpa using hmem.2
    have hne : p ≠ np := by
      intro heq
      rw [heq, hidle] at hcwd
      exact absurd hcwd (by simp)
    refine wp_seq (wp_forM (fun rest t => Copying s np rest t) ?_
      (fun fd rest t hc => wp_dupFd hc fun t' hc' => hc') fun t hc => ?_)
    · exact ⟨rfl, rfl, fun _ _ hg => ⟨hg, rfl⟩, h.table, fun _ _ => rfl, hidle,
        nodup_finRange NOFILE, fun fd _ => h.idle np hidle fd⟩
    have hpos := held_pos_of_cwd hcwd
    have hinv : t.fs.Inv t.held none := by
      rw [hc.fs, hc.held]
      exact h.inv
    refine wp_seq (wp_zoom.mpr (wp_idup hinv (by rw [hc.held]; exact hpos) fun fs1 hinv1 hq1 => ?_))
    refine wp_write ?_
    rw [hc.held] at hinv1 hq1
    rw [hc.fs] at hq1
    have hsame : t.held = (t.setCwd np none).held := by
      funext j
      have hsum := held_setCwd t np none j
      rw [hc.cwd] at hsum
      simpa using hsum.symm
    have hheld : (({ t with fs := fs1 } : Files).setCwd np (some cwd)).held = plus s.held cwd := by
      rw [← hc.held, hsame]
      exact held_enter (s := { t with fs := fs1 })
    have hpositive : ∀ j, 0 < plus s.held cwd j ↔ 0 < s.held j := by
      intro j
      by_cases hj : j = cwd
      · rw [hj]
        exact ⟨fun _ => hpos, fun _ => plus_pos⟩
      · rw [plus_of_ne hj]
    have hok : (({ t with fs := fs1 } : Files).setCwd np (some cwd)).Ok := by
      refine ⟨?_, (hc.table.withFs fs1).setCwd, fun q hq => ?_⟩
      · refine h.of_stays (c := s.held) ?_ (hq1.op.trans h.op) (fun hs => ?_) hq1.kept.stays
          (fun j hj => ?_) fun g jp hg => ?_
        · rw [hheld]
          exact hinv1
        · show Tree.Sane fs1.ino fs1.sb.ninodes
          rw [hq1.ino, hq1.sb]
          exact hs
        · rw [hheld] at hj
          exact .inl ⟨(hpositive j).mp hj, (hpositive j).mp hj⟩
        · obtain ⟨hg', hw⟩ := hc.files g jp ⟨hg.pos, hg.type, hg.ip⟩
          exact .inl ⟨hg', hg'.held_pos, hw⟩
      · rw [setCwd_cwd] at hq
        split at hq
        · exact absurd hq (by simp)
        · rename_i hqn
          rw [setCwd_ofile]
          show ∀ fd, (t.proc q).ofile fd = none
          change (t.proc q).cwd = none at hq
          rw [hc.others q hqn] at hq ⊢
          exact h.idle q hq
    have hsheds : Sheds s (({ t with fs := fs1 } : Files).setCwd np (some cwd)) := by
      refine .of_quiet hq1 fun j => ?_
      rw [hheld]
      exact hpositive j
    refine wp_ite (fun _ => hQ _ _ hok hsheds) fun _ => ?_
    refine wp_sysExit hok ?_ fun r s' hok' hsheds' => hQ r s' hok' (hsheds.trans hsheds')
    show ((({ t with fs := fs1 } : Files).setCwd np (some cwd)).proc p).cwd = some cwd
    rw [setCwd_cwd, if_neg hne]
    show (t.proc p).cwd = some cwd
    rw [hc.others p hne]
    exact hcwd

end Files
end Xv6
