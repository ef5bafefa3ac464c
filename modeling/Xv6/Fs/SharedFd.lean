/-
  Xv6.Fs.SharedFd

  Several processes write to one open file, which they share since a `fork` or
  a `dup`.

  A call of `filewrite` writes one chunk at a time (`writeChunk`), from
  `begin_op` to `end_op` and with the inode locked; between the chunks of a call
  the other processes may write theirs.  The offset is in the file and is read
  and moved while the inode is locked.
-/

import Xv6.Fs.Runs

namespace Xv6

open Wp Fs Files Transition List

structure ChunkRec (ι : Type) where
  proc : ι
  off : Nat
  bytes : List UInt8

/-- The processes that write to a file. -/
structure SharedFd (ι : Type) where
  files : Files
  /-- The bytes a process has still to write, call by call; the first call is the one under way. -/
  calls : ι → List (List UInt8)
  /-- The chunks written, the last one last. -/
  log : List (ChunkRec ι)
  failed : Bool

namespace SharedFd

variable {ι : Type} [DecidableEq ι] {f : FSlot} {ip : ISlot} {s s' s₀ : SharedFd ι} {p : ι}
variable {src : List UInt8} {rest : List (List UInt8)}

def step (f : FSlot) (s : SharedFd ι) (p : ι) : Option (SharedFd ι) :=
  match s.calls p with
  | [] => none
  | [] :: rest => some { s with calls := Function.update s.calls p rest }
  | src :: rest =>
    match writeChunk 0 f (src.take maxChunk) s.files with
    | .error _ _ => none
    | .ok r files =>
      if r < 0 then
        some { s with files := files, calls := Function.update s.calls p rest, failed := true }
      else if r ≠ (src.take maxChunk).length then none
      else some { s with
        files := files
        calls := Function.update s.calls p (src.drop maxChunk :: rest)
        log := s.log ++ [⟨p, (s.files.file f).off, src.take maxChunk⟩] }

/-! ## What has been written -/

def written (log : List (ChunkRec ι)) : List UInt8 := (log.map ChunkRec.bytes).flatten

def writtenBy (log : List (ChunkRec ι)) (p : ι) : List UInt8 :=
  written (log.filter fun x => x.proc = p)

theorem written_append (log log' : List (ChunkRec ι)) :
    written (log ++ log') = written log ++ written log' := by
  simp [written]

theorem writtenBy_append (log log' : List (ChunkRec ι)) (p : ι) :
    writtenBy (log ++ log') p = writtenBy log p ++ writtenBy log' p := by
  rw [writtenBy, filter_append, written_append]
  rfl

theorem length_written [Fintype ι] (log : List (ChunkRec ι)) :
    (written log).length = ∑ p, (writtenBy log p).length := by
  induction log with
  | nil => simp [written, writtenBy]
  | cons x log ih =>
    have hsplit : ∀ p, (writtenBy (x :: log) p).length
        = (if x.proc = p then x.bytes.length else 0) + (writtenBy log p).length := by
      intro p
      rw [← singleton_append, writtenBy_append, length_append]
      congr 1
      by_cases hp : x.proc = p
      · simp [writtenBy, written, hp]
      · simp [writtenBy, written, hp]
    have hcons : (written (x :: log)).length = x.bytes.length + (written log).length := by
      simp [written]
    rw [hcons, ih, Finset.sum_congr rfl fun p _ => hsplit p, Finset.sum_add_distrib]
    simp

theorem splice_splice {bytes a b : List UInt8} {off : Nat} (h : off ≤ bytes.length) :
    splice (splice bytes off a) (off + a.length) b = splice bytes off (a ++ b) := by
  have hlen : (bytes.take off ++ a).length = off + a.length := by
    rw [length_append, length_take, Nat.min_eq_left h]
  have htake : (splice bytes off a).take (off + a.length) = bytes.take off ++ a := by
    rw [splice, ← hlen, take_left]
  have hdrop : (splice bytes off a).drop (off + a.length + b.length)
      = bytes.drop (off + (a ++ b).length) := by
    rw [splice, ← drop_drop, ← hlen, drop_left, drop_drop, hlen, length_append, Nat.add_assoc]
  rw [splice, htake, hdrop, splice, append_assoc (bytes.take off)]

/-! ## The invariant -/

structure Inv (f : FSlot) (ip : ISlot) (s₀ s : SharedFd ι) : Prop where
  ok : s.files.Ok
  on : s.files.OnInode f ip
  writable : (s.files.file f).writable = true
  inum : (s.files.fs.inode ip).inum = (s₀.files.fs.inode ip).inum
  type : (s.files.inodeOf ip).type = T_FILE
  off : (s.files.file f).off = (s₀.files.file f).off + (written s.log).length
  bytes : (s.files.inodeOf ip).bytes
    = splice (s₀.files.inodeOf ip).bytes (s₀.files.file f).off (written s.log)
  start : s.log = [] ∨ (s₀.files.file f).off ≤ (s₀.files.inodeOf ip).bytes.length
  consecutive : ∀ pre x post, s.log = pre ++ x :: post →
    x.off = (s₀.files.file f).off + (written pre).length
  order : s.failed = false → ∀ p, writtenBy s.log p ++ (s.calls p).flatten = (s₀.calls p).flatten

theorem Inv.chunk {r : Int} {t : Files} (h : Inv f ip s₀ s) (hcalls : s.calls p = src :: rest)
    (hchunk : Chunked f ip (src.take maxChunk) r s.files t) (htype : (t.inodeOf ip).type = T_FILE)
    (hr : r = (src.take maxChunk).length)
    (hmax : (s.files.file f).off + (src.take maxChunk).length ≤ MAXFILE * BSIZE)
    (hle : (s.files.file f).off ≤ (s.files.inodeOf ip).bytes.length)
    (hino : t.fs.ino = Tree.write s.files.fs.ino (s.files.fs.inode ip).inum (s.files.file f).off
      (src.take maxChunk)) :
    Inv f ip s₀ { s with
      files := t
      calls := Function.update s.calls p (src.drop maxChunk :: rest)
      log := s.log ++ [⟨p, (s.files.file f).off, src.take maxChunk⟩] } := by
  have hoff : (t.file f).off = (s.files.file f).off + (src.take maxChunk).length := by
    rw [hchunk.off, hr]
    split
    · rw [Int.toNat_natCast]
      refine Nat.mod_eq_of_lt (lt_of_le_of_lt hmax (by decide))
    · omega
  have hstart : (s₀.files.file f).off ≤ (s₀.files.inodeOf ip).bytes.length := by
    rcases h.start with hnil | hstart
    · have hoff0 := h.off
      have hbytes0 := h.bytes
      rw [hnil] at hoff0 hbytes0
      rw [hoff0, hbytes0] at hle
      simpa [written, splice] using hle
    · exact hstart
  have hone : written [(⟨p, (s.files.file f).off, src.take maxChunk⟩ : ChunkRec ι)]
      = src.take maxChunk := by simp [written]
  refine ⟨hchunk.ok, hchunk.on, hchunk.writable, hchunk.inum.trans h.inum, htype, ?_, ?_,
    .inr hstart, fun pre x post hlog => ?_, fun hfailed q => ?_⟩
  · rw [written_append, length_append, hone, hoff, h.off, Nat.add_assoc]
  · show (t.fs.ino (t.fs.inode ip).inum).bytes = _
    rw [hino, hchunk.inum, Tree.write, Function.update_self, written_append, hone,
      ← splice_splice hstart, ← h.bytes, ← h.off]
    rfl
  · rcases eq_nil_or_concat post with rfl | ⟨post', y, rfl⟩
    · obtain ⟨rfl, hx⟩ := append_inj' hlog rfl
      rw [← cons.inj hx |>.1]
      exact h.off
    · rw [concat_eq_append, ← cons_append, ← append_assoc] at hlog
      exact h.consecutive pre x post' (append_inj' hlog rfl).1
  · dsimp only
    rw [← h.order hfailed q, writtenBy_append]
    by_cases hq : q = p
    · have hself : writtenBy [(⟨p, (s.files.file f).off, src.take maxChunk⟩ : ChunkRec ι)] q
          = src.take maxChunk := by simp [writtenBy, written, hq]
      rw [hself, hq, Function.update_self, hcalls, flatten_cons, flatten_cons,
        append_assoc, ← append_assoc (src.take maxChunk), take_append_drop]
    · have hother : writtenBy [(⟨p, (s.files.file f).off, src.take maxChunk⟩ : ChunkRec ι)] q = [] := by
        simp [writtenBy, written, Ne.symm hq]
      rw [hother, Function.update_of_ne hq, append_nil]

theorem Inv.step (h : Inv f ip s₀ s) (hs : s.step f p = some s') : Inv f ip s₀ s' := by
  unfold SharedFd.step at hs
  split at hs
  · cases hs
  · -- the call returns
    rename_i rest hcalls
    cases hs
    refine { h with order := fun hfailed q => ?_ }
    rw [← h.order hfailed q]
    dsimp only
    by_cases hq : q = p
    · rw [hq, Function.update_self, hcalls, flatten_cons, nil_append]
    · rw [Function.update_of_ne hq]
  · rename_i src rest hsrc hcalls
    have hspec : wp (writeChunk 0 f (src.take maxChunk)) (fun r t =>
        Chunked f ip (src.take maxChunk) r s.files t) (Halts True) s.files :=
      wp_writeChunk h.ok h.on h.writable fun r t hchunk => hchunk
    split at hs
    · cases hs
    · rename_i r t hrun
      have hchunk := (wp_of_ok hrun).mp hspec
      have hinum := hchunk.inum.trans h.inum
      have htype : (t.inodeOf ip).type = T_FILE := by
        unfold inodeOf
        rw [hchunk.inum, hchunk.writes.type]
        exact h.type
      have hstores := hchunk.stores (by rw [h.type]; decide)
      have hoff := hchunk.off
      split at hs
      · -- the call fails, and nothing has been written
        rename_i hneg
        cases hs
        obtain ⟨hr, hino⟩ | ⟨hr, -⟩ := hstores
        · rw [hr, if_neg (by decide)] at hoff
          refine ⟨hchunk.ok, hchunk.on, hchunk.writable, hinum, htype, hoff.trans h.off, ?_, h.start,
            h.consecutive, fun hfailed => absurd hfailed (by simp)⟩
          rw [← h.bytes]
          show (t.fs.ino (t.fs.inode ip).inum).bytes = _
          rw [hino, hchunk.inum]
          rfl
        · omega
      · split at hs
        · cases hs
        · rename_i hpos hlen
          cases hs
          obtain ⟨hr, -⟩ | ⟨hr, hmax, hle, hino⟩ := hstores
          · omega
          · exact h.chunk hcalls hchunk htype hr hmax hle hino

/-! ## Nothing is lost -/

/-- The chunks lie behind each other from the first offset on, and all of them
    are in the file; those of a process are in the order of its calls. -/
structure NothingLost [Fintype ι] (f : FSlot) (ip : ISlot) (s₀ s : SharedFd ι) : Prop where
  consecutive : ∀ pre x post, s.log = pre ++ x :: post →
    x.off = (s₀.files.file f).off + (written pre).length
  bytes : (s.files.inodeOf ip).bytes
    = splice (s₀.files.inodeOf ip).bytes (s₀.files.file f).off (written s.log)
  off : (s.files.file f).off = (s₀.files.file f).off + (written s.log).length
  order : s.failed = false → ∀ p, writtenBy s.log p ++ (s.calls p).flatten = (s₀.calls p).flatten
  atEnd : s.failed = false → (∀ p, s.calls p = []) →
    (s.files.file f).off = (s₀.files.file f).off + ∑ p, (s₀.calls p).flatten.length

theorem Inv.nothingLost [Fintype ι] (h : Inv f ip s₀ s) : NothingLost f ip s₀ s where
  consecutive := h.consecutive
  bytes := h.bytes
  off := h.off
  order := h.order
  atEnd := by
    intro hfailed hdone
    rw [h.off, length_written]
    congr 1
    refine Finset.sum_congr rfl fun p _ => ?_
    rw [← h.order hfailed p, hdone p, flatten_nil, append_nil]

/-- **No update is lost on a shared descriptor**, however the chunks of the
    writers follow each other. -/
theorem nothing_lost_along [Fintype ι] (s₀ : SharedFd ι) (hok : s₀.files.Ok)
    (hon : s₀.files.OnInode f ip) (hw : (s₀.files.file f).writable = true)
    (hfile : (s₀.files.inodeOf ip).type = T_FILE) (hlog : s₀.log = []) (as : List ι) :
    Along (step f) (NothingLost f ip s₀) s₀ as := by
  have hinv : Inv f ip s₀ s₀ := by
    refine ⟨hok, hon, hw, rfl, hfile, ?_, ?_, .inl hlog, fun pre x post h => ?_, fun _ p => ?_⟩
    · rw [hlog]
      rfl
    · rw [hlog]
      simp [written, splice]
    · rw [hlog] at h
      exact absurd h.symm (by simp)
    · rw [hlog]
      rfl
  exact (along_of_invariant hinv (fun _ _ _ h hs => h.step hs) as).mono fun _ h => h.nothingLost

/-- Two processes that make two calls each. -/
def twoCalls (files : Files) : SharedFd Bool := ⟨files, fun _ => [[1, 2], [3]], [], false⟩

/-- A process opens the file of the image and shares it with another one. -/
theorem two_writers : ∃ files s, run Files.step (boot mkfsImage)
      [(initproc, .openPath (some [102]) O_RDWR)] = some files ∧
    run (step firstFile) (twoCalls files) [true, false, true, false, true, false] = some s ∧
    written s.log = [1, 2, 1, 2, 3, 3] ∧ ∃ ip, NothingLost firstFile ip (twoCalls files) s := by
  have hwrites : (run Files.step (boot mkfsImage)
      [(initproc, .openPath (some [102]) O_RDWR)]).any (fun files => (run (step firstFile)
        (twoCalls files) [true, false, true, false, true, false]).any fun s =>
          written s.log == [1, 2, 1, 2, 3, 3]) = true := by decide +kernel
  obtain ⟨files, hrun, hok, hon, hw, htype, -⟩ := opened_file
  rw [hrun, Option.any_some] at hwrites
  obtain ⟨s, hs, hlog⟩ := (Option.any_eq_true _ _).mp hwrites
  have hlost := nothing_lost_along (twoCalls files) hok hon hw htype rfl
  exact ⟨files, s, hrun, hs, eq_of_beq hlog, _,
    along_iff_run.mp (hlost _) _ [] s (append_nil _).symm hs⟩

end SharedFd
end Xv6
