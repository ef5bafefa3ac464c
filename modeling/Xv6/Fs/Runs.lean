/-
  Xv6.Fs.Runs

  Runs of the file system: after the boot, processes make system calls one at
  a time, in any order and with any arguments.
-/

import Xv6.Fs.Image
import Xv6.Fs.Processes

namespace Xv6.Files

open Finset Wp Counting Fs Transition Image

variable {s s' : Files} {p : PSlot} {cwd : ISlot} {lax : Prop} {disk : Nat → Block}
variable {c : SysCall} {e : Halt} {a : PSlot × SysCall} {d : Nat} {m : Tree}

/-! ## One system call -/

def Does (c : SysCall) (s s' : Files) : Prop :=
  match c with
  | .write .. => ∃ i, Writes i s s'
  | _ => Outcome s s'

theorem Does.refl : Does c s s := by
  cases c with
  | write => exact ⟨0, .refl⟩
  | _ => exact Sheds.refl.outcome

theorem Does.tidy (h : Does c s s') (ht : s.fs.Tidy s.held) : s'.fs.Tidy s'.held := by
  cases c with
  | write =>
    obtain ⟨i, hw⟩ := h
    exact hw.tidy ht
  | _ => exact Outcome.tidy h ht

theorem Does.outcome (h : Does c s s') (hc : ∀ dev fd src, c ≠ .write dev fd src) :
    Outcome s s' := by
  cases c with
  | write dev fd src => exact absurd rfl (hc dev fd src)
  | _ => exact h

theorem wp_sysCall (h : s.Ok) (hcwd : (s.proc p).cwd = some cwd) (hcalm : lax ∨ s.fs.Calm s.held)
    (c : SysCall) : wp (c.run p cwd) (fun _ s' => s'.Ok ∧ Does c s s') (Halts lax) s := by
  have hcalls := h.calls hcwd hcalm
  have hsame : s.Ok ∧ Outcome s s := ⟨h, Sheds.refl.outcome⟩
  cases c with
  | fork child queued => exact wp_sysFork h hcwd fun _ _ hok hsheds => ⟨hok, hsheds.outcome⟩
  | exit => exact wp_sysExit h hcwd fun _ _ hok hsheds => ⟨hok, hsheds.outcome⟩
  | exec path reads => exact wp_zoom.mpr (wp_exec hcalls (fun _ _ hran => h.ran hran) hsame)
  | openPath path omode => exact wp_sysOpen h hcwd hcalm fun _ _ hok hout => ⟨hok, hout⟩
  | close fd => exact wp_sysClose h hcwd fun _ _ hok hsheds => ⟨hok, hsheds.outcome⟩
  | dup fd => exact wp_sysDup h hcwd fun _ _ hok hsheds => ⟨hok, hsheds.outcome⟩
  | pipe arg page => exact wp_sysPipe h hcwd fun _ _ hok hsheds => ⟨hok, hsheds.outcome⟩
  | read dev fd n => exact wp_sysRead h fun _ _ hok hsheds => ⟨hok, hsheds.outcome⟩
  | write dev fd src => exact wp_sysWrite h fun _ _ i hok hwrites => ⟨hok, i, hwrites⟩
  | fstat fd st => exact wp_sysFstat h fun _ _ hok hsheds => ⟨hok, hsheds.outcome⟩
  | link old new =>
    refine wp_zoom.mpr ?_
    cases old with
    | none => exact hsame
    | some old =>
      cases new with
      | none => exact hsame
      | some new => exact wp_link hcalls fun _ _ hran => h.ran hran
  | unlink path =>
    refine wp_zoom.mpr ?_
    cases path with
    | none => exact hsame
    | some path => exact wp_unlink hcalls fun _ _ hran => h.ran hran
  | mkdir path => exact wp_zoom.mpr (wp_make hcalls (fun _ _ hran => h.ran hran) (by decide))
  | mknod path major minor => exact wp_zoom.mpr (wp_make hcalls (fun _ _ hran => h.ran hran) (by decide))
  | chdir path => exact wp_sysChdir h hcwd hcalm fun _ _ hok hout => ⟨hok, hout⟩

theorem Ok.call_ok {r : Option Int} (h : s.Ok) (hcall : s.call p c = .ok r s') :
    s'.Ok ∧ Does c s s' := by
  unfold call at hcall
  split at hcall
  · injection hcall with _ hs
    rw [← hs]
    exact ⟨h, .refl⟩
  · rename_i cwd hcwd
    have hspec : wp (c.run p cwd) _ (Halts True) s := wp_sysCall h hcwd (.inl trivial) c
    split at hcall
    · rename_i r' t hrun
      injection hcall with _ hs
      rw [← hs]
      exact (wp_of_ok hrun).mp hspec
    · cases hcall

theorem Ok.call_error (h : s.Ok) (hcalm : lax ∨ s.fs.Calm s.held)
    (hcall : s.call p c = .error e s') : Halts lax e s' := by
  unfold call at hcall
  split at hcall
  · cases hcall
  · rename_i cwd hcwd
    have hspec := wp_sysCall h hcwd hcalm c
    split at hcall
    · cases hcall
    · rename_i e' t hrun
      injection hcall with he hs
      rw [← he, ← hs]
      exact (wp_of_error hrun).mp hspec

theorem Ok.call_fails (h : s.Ok) (hcall : s.call p c = .error e s') : Halts True e s' :=
  h.call_error (.inl trivial) hcall

theorem Ok.step (h : s.Ok) (hstep : s.step a = some s') : s'.Ok ∧ Does a.2 s s' := by
  unfold Files.step at hstep
  split at hstep
  · rename_i r t hcall
    rw [Option.some.inj hstep] at hcall
    exact h.call_ok hcall
  · cases hstep

/-! ## Booting -/

structure Bootable (disk : Nat → Block) : Prop where
  wellFormed : WellFormed disk
  sane : Tree.Sane (Fs.empty disk).ino (Fs.empty disk).sb.ninodes

theorem held_boot : (boot disk).held = plus (fun _ => 0) 0 := by
  have hzero : ((boot disk).setCwd initproc none).held = fun _ => 0 := by
    funext j
    have hfiles : total (fun x : File => x.holds j) ((boot disk).setCwd initproc none).file = 0 :=
      total_eq_zero.mpr fun f => if_neg fun h => Int.lt_irrefl 0 h.1
    have hprocs : total (fun t : Task => t.holds j) ((boot disk).setCwd initproc none).proc = 0 := by
      refine total_eq_zero.mpr fun q => if_neg ?_
      rw [setCwd_cwd]
      split
      · simp
      · rename_i hq
        simp [boot, hq]
    unfold held
    rw [hfiles, hprocs]
  have hleave : (boot disk).held = plus ((boot disk).setCwd initproc none).held 0 := held_leave rfl
  rw [hleave, hzero]

theorem Bootable.fs (h : Bootable disk) : (boot disk).fs.Inv (boot disk).held none ∧
    (boot disk).fs.node = (Fs.empty disk).node := by
  rw [held_boot]
  refine Inv.of_slots h.wellFormed ?_ rfl rfl rfl
  have hslots : ((Fs.empty disk).setInode 0 fun i => { i with inum := ROOTINO, ref := 1 }).Slots
      (plus (fun _ => 0) 0) none :=
    h.wellFormed.slots.set (fun j hj => plus_of_ne hj) (by simp)
      (fun _ j _ hj => absurd hj (Nat.lt_irrefl 0)) fun _ hv => absurd hv Bool.false_ne_true
  exact hslots

theorem Bootable.ino (h : Bootable disk) : (boot disk).fs.ino = (Fs.empty disk).ino := by
  have hq : Quiet (fun _ => 0) (Fs.empty disk) (boot disk).fs :=
    ⟨rfl, rfl, rfl, rfl, h.fs.2, fun _ hj => absurd hj (Nat.lt_irrefl 0),
      fun _ hj => absurd hj (Nat.lt_irrefl 0)⟩
  exact hq.ino

theorem Bootable.ok (h : Bootable disk) : (boot disk).Ok := by
  refine ⟨⟨h.fs.1, rfl, ?_, fun j hj => ?_, fun f ip hf => ?_⟩, ⟨fun f => ?_, fun f _ => rfl,
    fun page w => ?_, fun page w f g hf => ?_⟩, fun q _ fd => rfl⟩
  · rw [h.ino]
    exact h.sane
  · rw [held_boot] at hj
    have hj0 : j = 0 := by
      by_contra hne
      rw [plus_of_ne hne] at hj
      exact absurd hj (Nat.lt_irrefl 0)
    rw [hj0]
    exact h.sane.root
  · exact absurd hf.pos (Int.lt_irrefl 0)
  · have hfds : (boot disk).fds f = 0 := by
      refine total_eq_zero.mpr fun q => total_eq_zero.mpr fun fd => ?_
      exact if_neg (by simp [boot])
    rw [hfds]
    rfl
  · refine ⟨fun hopen => absurd hopen (by simp [pipeOpen, boot]), fun ⟨f, hf⟩ => absurd hf.pos (Int.lt_irrefl 0)⟩
  · exact absurd hf.pos (Int.lt_irrefl 0)

theorem ok_along (h : Bootable disk) (as : List (PSlot × SysCall)) :
    Along Files.step Ok (boot disk) as :=
  along_of_invariant h.ok (fun _ _ _ hok hstep => (hok.step hstep).1) as

/-! ### The image of mkfs -/

theorem dir_mkfsImage (hd : ((Fs.empty mkfsImage).ino d).type = T_DIR) : d = 1 := by
  by_contra h1
  by_cases h2 : d = 2
  · rw [h2] at hd
    exact absurd (node_file.1.symm.trans hd) (by decide)
  · rw [ino_eq_free (node_free h1 h2)] at hd
    exact absurd hd (by decide)

theorem names_mkfsImage {off x : Nat} (hx : Tree.Names (Fs.empty mkfsImage).ino d off x) :
    x = 1 ∨ x = 2 := by
  have hall : ∀ off ∈ offsets 0 512, EntryAt ((Fs.empty mkfsImage).ino 1).bytes off →
      direntInum (entry ((Fs.empty mkfsImage).ino 1).bytes off) = 1 ∨
      direntInum (entry ((Fs.empty mkfsImage).ino 1).bytes off) = 2 := by decide +kernel
  have hlen : ((Fs.empty mkfsImage).ino 1).bytes.length = 512 := by decide +kernel
  obtain ⟨hd, hused, hinum⟩ := hx
  rw [dir_mkfsImage hd] at hused hinum
  have hoff := hused.1
  rw [hlen] at hoff
  rw [← hinum]
  exact hall off hoff hused

theorem bootable_mkfsImage : Bootable mkfsImage := by
  have hsb : (Fs.empty mkfsImage).sb.ninodes = 200 := congrArg Superblock.ninodes sb_eq
  have hlen : ((Fs.empty mkfsImage).ino 1).bytes.length = 512 := by decide +kernel
  refine ⟨wellFormed, by rw [hsb]; decide, fun d hd => ?_, fun d off x hx => ?_⟩
  · rw [dir_mkfsImage hd, hlen]
    decide
  · rw [hsb]
    obtain rfl | rfl := names_mkfsImage hx <;> decide

/-! ## References -/

/-- Every slot of the inode cache has as many references as there are open
    files and current directories that refer to it. -/
def InodeRefsBalance (s : Files) : Prop :=
  ∀ j, (s.fs.inode j).ref
    = ((univ.filter fun f =>
        0 < (s.file f).ref ∧ (s.file f).type = .inode ∧ (s.file f).ip = j).card
      + (univ.filter fun p => (s.proc p).cwd = some j).card : Nat)

/-- **References to inodes balance.** -/
theorem inode_refs_balance_along (himg : Bootable disk) (as : List (PSlot × SysCall)) :
    Along Files.step InodeRefsBalance (boot disk) as := by
  refine (ok_along himg as).mono fun s hok j => ?_
  rw [card_filter, card_filter]
  exact hok.inv.slots.ref j

theorem one_lt_nproc : 1 < 64 := by decide

def childproc : PSlot := ⟨1, one_lt_nproc⟩

def twoProcesses : List (PSlot × SysCall) :=
  [(initproc, .openPath (some [102]) O_RDWR), (initproc, .write (fun _ => 0) 0 (some [1, 2, 3])),
    (initproc, .pipe true (some 5)), (initproc, .fork (some childproc) true),
    (childproc, .unlink (some [102])), (childproc, .exit), (initproc, .close 0)]

theorem twoProcesses_runs : (run Files.step (boot mkfsImage) twoProcesses).isSome = true := by
  decide +kernel

theorem twoProcesses_balance : (run Files.step (boot mkfsImage) twoProcesses).isSome = true ∧
    Along Files.step InodeRefsBalance (boot mkfsImage) twoProcesses :=
  ⟨twoProcesses_runs, inode_refs_balance_along bootable_mkfsImage twoProcesses⟩

/-- Every open file has as many references as there are descriptors of running processes for it, and
    an end of a pipe is open as long as there is a file for it. -/
structure FileRefsBalance (s : Files) : Prop where
  refs : ∀ f, (s.file f).ref = (univ.filter fun x : PSlot × Fin NOFILE =>
    (s.proc x.1).cwd ≠ none ∧ (s.proc x.1).ofile x.2 = some f).card
  ends : ∀ page w, s.pipeOpen page w = true ↔ ∃ f, (s.file f).End page w
  noPanic : ∀ p c e s', s.call p c = .error e s' → e ≠ .panic "filedup" ∧ e ≠ .panic "fileclose"

theorem fds_eq_card (h : s.Ok) (f : FSlot) : s.fds f
    = (univ.filter fun x : PSlot × Fin NOFILE =>
        (s.proc x.1).cwd ≠ none ∧ (s.proc x.1).ofile x.2 = some f).card := by
  have hlive : (univ.filter fun x : PSlot × Fin NOFILE =>
      (s.proc x.1).cwd ≠ none ∧ (s.proc x.1).ofile x.2 = some f)
        = univ.filter fun x : PSlot × Fin NOFILE => (s.proc x.1).ofile x.2 = some f := by
    refine filter_congr fun x _ => ⟨fun hx => hx.2, fun hx => ⟨fun hidle => ?_, hx⟩⟩
    rw [h.idle x.1 hidle x.2] at hx
    cases hx
  rw [hlive, card_filter, Fintype.sum_prod_type]
  rfl

/-- **References to open files balance.** -/
theorem file_refs_balance_along (himg : Bootable disk) (as : List (PSlot × SysCall)) :
    Along Files.step FileRefsBalance (boot disk) as := by
  refine (ok_along himg as).mono fun s hok => ⟨fun f => ?_, hok.table.ends, fun p c e s' hcall => ?_⟩
  · rw [hok.table.refs f, fds_eq_card hok f, Int.add_zero]
  · exact (hok.call_fails hcall).files

theorem twoProcesses_files : (run Files.step (boot mkfsImage) twoProcesses).isSome = true ∧
    Along Files.step FileRefsBalance (boot mkfsImage) twoProcesses :=
  ⟨twoProcesses_runs, file_refs_balance_along bootable_mkfsImage twoProcesses⟩

/-! ## Blocks -/

/-- A block is marked in the bitmap when it is metadata or an allocated inode
    on disk refers to it; only one does, and only once.  So no block is freed
    twice, and none is handed out that is in use. -/
structure BlocksOwned (s : Files) : Prop where
  marked : ∀ b < s.fs.sb.size, s.fs.bitOf b = true ↔ b < s.fs.sb.datastart ∨ Used s.fs.node b
  once : ∀ i k i' k', (s.fs.node i).block k ≠ 0 →
    (s.fs.node i).block k = (s.fs.node i').block k' → i = i' ∧ k = k'
  below : ∀ i k, (s.fs.node i).block k < s.fs.sb.size
  onDisk : ∀ i < s.fs.sb.ninodes, s.fs.node i = (s.fs.dinodeAt i).node s.fs.disk
  bfree : ∀ p c e s', s.call p c = .error e s' → e ≠ .panic "freeing free block"
  balloc : ∀ p c, (∀ r s', s.call p c = .ok r s' → s'.fs.overlap = false) ∧
    ∀ e s', s.call p c = .error e s' → s'.fs.overlap = false

theorem Ok.blocksOwned (h : s.Ok) : BlocksOwned s where
  marked := h.inv.bits
  once := fun _ _ _ _ hne heq => h.inv.own.inj hne heq
  below := by
    intro i k
    have hsuper := h.inv.layout.super
    unfold Superblock.datastart at hsuper
    by_cases h0 : (s.fs.node i).block k = 0
    · rw [h0]
      omega
    · exact (h.inv.own.range h0).2
  onDisk := by
    intro i hi
    rw [node_of_lt hi, h.inv.slots.cur_eq]
  bfree := fun _ _ _ _ hcall => (h.call_fails hcall).blocks
  balloc := fun _ _ => ⟨fun _ _ hcall => (h.call_ok hcall).1.inv.overlap,
    fun _ _ hcall => (h.call_fails hcall).overlap⟩

/-- **Blocks have one owner.** -/
theorem blocks_owned_along (himg : Bootable disk) (as : List (PSlot × SysCall)) :
    Along Files.step BlocksOwned (boot disk) as :=
  (ok_along himg as).mono fun _ hok => hok.blocksOwned

theorem twoProcesses_blocks : (run Files.step (boot mkfsImage) twoProcesses).isSome = true ∧
    Along Files.step BlocksOwned (boot mkfsImage) twoProcesses :=
  ⟨twoProcesses_runs, blocks_owned_along bootable_mkfsImage twoProcesses⟩

/-! ### An open file -/

theorem nfile_pos : 0 < NFILE := by decide

def firstFile : FSlot := ⟨0, nfile_pos⟩

theorem opened_file : ∃ s, run Files.step (boot mkfsImage)
      [(initproc, .openPath (some [102]) O_RDWR)] = some s ∧ s.Ok ∧
    s.OnInode firstFile (s.file firstFile).ip ∧ (s.file firstFile).writable = true ∧
    (s.inodeOf (s.file firstFile).ip).type = T_FILE ∧ (s.file firstFile).off = 0 ∧
    (s.fs.inode (s.file firstFile).ip).inum = 2 ∧ s.fs.sb = ⟨1000, 941, 200, 30, 2, 32, 58⟩ ∧
    (s.fs.node 2).size = 5632 := by
  have hopen : (run Files.step (boot mkfsImage)
      [(initproc, .openPath (some [102]) O_RDWR)]).any (fun s => decide (
        0 < (s.file firstFile).ref ∧ (s.file firstFile).type = .inode ∧
        (s.file firstFile).writable = true ∧ (s.inodeOf (s.file firstFile).ip).type = T_FILE ∧
        (s.file firstFile).off = 0 ∧ (s.fs.inode (s.file firstFile).ip).inum = 2 ∧
        s.fs.sb = ⟨1000, 941, 200, 30, 2, 32, 58⟩ ∧ (s.fs.node 2).size = 5632)) = true := by
    decide +kernel
  obtain ⟨s, hrun, href, htype, hw, hfile, hoff, hinum, hsb, hsize⟩ := exists_run hopen
  have hok : s.Ok := along_iff_run.mp (ok_along bootable_mkfsImage
    [(initproc, .openPath (some [102]) O_RDWR)]) _ [] s (List.append_nil _).symm hrun
  exact ⟨s, hrun, hok, ⟨href, htype, rfl⟩, hw, hfile, hoff, hinum, hsb, hsize⟩

/-! ## Transactions -/

theorem card_le_of_cheap {sb : Superblock} {o : List Nat} (h : Cheap sb o)
    (hone : ∀ a < sb.size, ∀ b < sb.size, sb.bblock a = sb.bblock b) :
    o.toFinset.card ≤ MAXOPBLOCKS := by
  obtain ⟨X, hX, hall⟩ := h
  have hsub : o.toFinset ⊆ insert (sb.bblock 0) X.toFinset := by
    intro b hb
    rw [mem_insert, List.mem_toFinset]
    rcases hall b (List.mem_toFinset.mp hb) with ⟨a, ha, rfl⟩ | hb
    · exact .inl (hone a ha 0 (by omega))
    · exact .inr hb
  have hcard := card_le_card hsub
  have hinsert := card_insert_le (sb.bblock 0) X.toFinset
  have hlen := X.toFinset_card_le
  unfold MAXOPBLOCKS
  omega

/-- **No call but `write` logs more blocks in a transaction than are reserved
    for it**, on a file system with one bitmap block. -/
theorem ops_fit_reservation (h : s.Ok) (htd : s.fs.Tended s.held)
    (hone : ∀ a < s.fs.sb.size, ∀ b < s.fs.sb.size, s.fs.sb.bblock a = s.fs.sb.bblock b)
    {c : SysCall} (hc : ∀ dev fd src, c ≠ .write dev fd src) {r : Option Int}
    (hcall : s.call p c = .ok r s') :
    ∃ new, s'.fs.ops = new ++ s.fs.ops ∧ ∀ o ∈ new, o.toFinset.card ≤ MAXOPBLOCKS := by
  obtain ⟨new, hnew, hcheap⟩ := ((h.call_ok hcall).2.outcome hc).ops
  exact ⟨new, hnew, fun o ho => card_le_of_cheap (hcheap htd o ho) hone⟩

theorem exists_call (h : (s.step a).isSome = true) : ∃ r s', s.call a.1 a.2 = .ok r s' := by
  unfold Files.step at h
  split at h
  · rename_i r s' hcall
    exact ⟨r, s', hcall⟩
  · cases h

theorem tidy_mkfsImage (i : Nat) (htype : ((Fs.empty mkfsImage).ino i).type ≠ 0) :
    ((Fs.empty mkfsImage).ino i).nlink ≠ 0 := by
  by_cases h1 : i = 1
  · rw [h1]
    exact fun hn => absurd (node_root.2.1.symm.trans hn) (by decide)
  · by_cases h2 : i = 2
    · rw [h2]
      exact fun hn => absurd (node_file.2.1.symm.trans hn) (by decide)
    · rw [ino_eq_free (node_free h1 h2)] at htype
      exact absurd rfl htype

theorem Bootable.tidy (h : Bootable disk)
    (hlinks : ∀ i, ((Fs.empty disk).ino i).type ≠ 0 → ((Fs.empty disk).ino i).nlink ≠ 0) :
    (boot disk).fs.Tidy (boot disk).held := by
  intro i htype hn
  rw [h.ino] at htype hn
  exact absurd hn (hlinks i htype)

theorem unlink_fits_reservation : ∃ r s' new, (boot mkfsImage).call initproc (.unlink (some [102])) = .ok r s' ∧
    s'.fs.ops = new ++ (boot mkfsImage).fs.ops ∧ ∀ o ∈ new, o.toFinset.card ≤ MAXOPBLOCKS := by
  have hstep : ((boot mkfsImage).step (initproc, .unlink (some [102]))).isSome = true := by decide +kernel
  obtain ⟨r, s', hcall⟩ := exists_call hstep
  have hsb : (boot mkfsImage).fs.sb = ⟨1000, 941, 200, 30, 2, 32, 58⟩ := sb_eq
  obtain ⟨new, hnew, hcard⟩ := ops_fit_reservation bootable_mkfsImage.ok
    (bootable_mkfsImage.tidy tidy_mkfsImage).tended (fun a ha b hb => by
      rw [hsb] at ha hb ⊢
      simp only [Superblock.bblock, BPB] at *
      omega) (fun _ _ _ => by simp) hcall
  exact ⟨r, s', new, hcall, hnew, hcard⟩

/-! ## Freeing files -/

instance {fs : Fs} {cnt : ISlot → Nat} {i : Nat} : Decidable (fs.Refs cnt i) :=
  inferInstanceAs (Decidable (∃ _, _))

theorem bytes_of_change {n : Tree} {i : Nat} (h : Tree.Change n m) (htype : (n i).type ≠ 0)
    (hfile : (n i).type ≠ T_DIR) : (m i).bytes = (n i).bytes := by
  have hne_of_dir : ∀ {d}, (n d).type = T_DIR → i ≠ d := by
    intro d hd heq
    rw [heq] at hfile
    exact hfile hd
  have hne_of_free : ∀ {x}, n x = Ino.free → i ≠ x := by
    intro x hx heq
    rw [heq, hx] at htype
    exact htype rfl
  cases h with
  | same => rfl
  | link _ _ hdir => rw [Tree.enter_of_ne (hne_of_dir hdir), Tree.addLinks_bytes]
  | create _ hfree _ _ hdir =>
    rw [Tree.enter_of_ne (hne_of_dir hdir), Tree.make_of_ne (hne_of_free hfree)]
  | mkdir _ hfree hdir =>
    rw [Tree.enter_of_ne (hne_of_dir hdir), Tree.makeDots, Tree.enter_of_ne (hne_of_free hfree),
      Tree.enter_of_ne (hne_of_free hfree), Tree.addLinks_bytes, Tree.make_of_ne (hne_of_free hfree)]
  | unlink hdir =>
    rw [Tree.addLinks_bytes, Tree.dropDots]
    split
    · rw [Tree.addLinks_bytes, Tree.erase_of_ne (hne_of_dir hdir)]
    · rw [Tree.erase_of_ne (hne_of_dir hdir)]

structure FreesUnused (s : Files) : Prop where
  /-- No inode is left over. -/
  noOrphan : ∀ i, (s.fs.ino i).type ≠ 0 → (s.fs.ino i).nlink = 0 → s.fs.Refs s.held i
  frees : ∀ p c r s', s.call p c = .ok r s' → (∀ dev fd src, c ≠ .write dev fd src) →
    ∃ m, Tree.Change s.fs.ino m ∧ ∀ i, s'.fs.ino i =
      if (m i).type ≠ 0 ∧ (m i).nlink = 0 ∧ ¬ s'.fs.Refs s'.held i then Ino.free else m i
  writes : ∀ p dev fd src r s', s.call p (.write dev fd src) = .ok r s' →
    ∀ i, (s'.fs.ino i).type = (s.fs.ino i).type ∧ (s'.fs.ino i).nlink = (s.fs.ino i).nlink
  seen : ∀ p c r s', s.call p c = .ok r s' → (∀ dev fd src, c ≠ .write dev fd src) →
    ∀ f ip, s.OnInode f ip → s'.OnInode f ip → (s.inodeOf ip).type ≠ T_DIR →
      (s'.inodeOf ip).bytes = (s.inodeOf ip).bytes
  /-- Blocks are in use only if an inode refers to them. -/
  blocks : ∀ b < s.fs.sb.size, s.fs.bitOf b = true → b < s.fs.sb.datastart ∨ Used s.fs.node b

theorem ino_of_reaped (hreaped : Tree.Reaped (s'.fs.Refs s'.held) m s'.fs.ino)
    (htidy : s'.fs.Tidy s'.held) (i : Nat) : s'.fs.ino i =
      if (m i).type ≠ 0 ∧ (m i).nlink = 0 ∧ ¬ s'.fs.Refs s'.held i then Ino.free else m i := by
  rcases hreaped.step i with hsame | ⟨hfree, htype, hn, hrefs⟩
  · split
    · rename_i hunused
      obtain ⟨htype, hn, hrefs⟩ := hunused
      rw [← hsame] at htype hn
      obtain ⟨j, hj, hinum, -⟩ := htidy i htype hn
      exact absurd ⟨j, hj, hinum⟩ hrefs
    · exact hsame
  · rw [if_pos ⟨htype, hn, hrefs⟩]
    exact hfree

theorem Ok.freesUnused (h : s.Ok) (htidy : s.fs.Tidy s.held) : FreesUnused s where
  noOrphan := by
    intro i htype hn
    obtain ⟨j, hj, hinum, -⟩ := htidy i htype hn
    exact ⟨j, hj, hinum⟩
  frees := by
    intro p c r s' hcall hc
    have hdoes := (h.call_ok hcall).2
    obtain ⟨m, hchange, hreaped⟩ := (hdoes.outcome hc).change htidy.tended
    exact ⟨m, hchange, ino_of_reaped hreaped (hdoes.tidy htidy)⟩
  writes := by
    intro p dev fd src r s' hcall i
    obtain ⟨x, hw⟩ := (h.call_ok hcall).2
    by_cases hi : i = x
    · rw [hi]
      exact ⟨hw.type, hw.nlink⟩
    · rw [hw.others i hi]
      exact ⟨rfl, rfl⟩
  seen := by
    intro p c r s' hcall hc f ip hf hf' hfile
    have hdoes := (h.call_ok hcall).2
    have hout := hdoes.outcome hc
    obtain ⟨m, hchange, hreaped⟩ := hout.change htidy.tended
    have hrefs : s'.fs.Refs s'.held (s'.fs.inode ip).inum := ⟨ip, hf'.held_pos, rfl⟩
    unfold inodeOf at hfile ⊢
    rw [hout.slots f ip hf hf'] at hrefs ⊢
    rcases hreaped.step (s.fs.inode ip).inum with hsame | ⟨-, -, -, hno⟩
    · rw [hsame]
      exact bytes_of_change hchange (h.files f ip hf).1 hfile
    · exact absurd hrefs hno
  blocks := fun b hb => (h.inv.bits b hb).mp

/-- The last `iput` of an inode without links frees it, and no other does. -/
theorem iput_frees_iff {fs : Fs} {cnt : ISlot → Nat} {ip : ISlot} (h : fs.Inv (plus cnt ip) none)
    (hop : fs.op.isSome) (htidy : fs.Tidy (plus cnt ip)) : ∃ fs', iput ip fs = .ok () fs' ∧
      fs'.ino = if cnt ip = 0 ∧ (fs.ino (fs.inode ip).inum).type ≠ 0 ∧
          (fs.ino (fs.inode ip).inum).nlink = 0
        then Function.update fs.ino (fs.inode ip).inum Ino.free else fs.ino := by
  have hspec : wp (iput ip) (fun _ fs' => Dropped cnt fs fs' ip) (fun _ _ => False) fs :=
    wp_iput h hop fun _ _ hdrop => hdrop
  obtain ⟨⟨⟩, fs', hrun, hdrop⟩ := exists_ok hspec
  refine ⟨fs', hrun, ?_⟩
  split
  · rename_i hlast
    obtain ⟨h0, htype, hn⟩ := hlast
    -- the copy in the slot is valid, or the inode would be left over
    obtain ⟨j, hj, hinum, hv⟩ := htidy _ htype hn
    have hjp : j = ip := h.slots.uniq j ip hj plus_pos hinum
    rw [hjp] at hv
    exact (hdrop.free ⟨h0, hv, hn⟩).1
  · rename_i hmore
    refine (hdrop.same fun hlast => hmore ?_).1
    obtain ⟨h0, hv, hn⟩ := hlast
    refine ⟨h0, ?_, hn⟩
    rw [← (h.copy_eq plus_pos hv).1]
    exact h.slots.typed ip plus_pos hv

theorem tidy_along (himg : Bootable disk)
    (hlinks : ∀ i, ((Fs.empty disk).ino i).type ≠ 0 → ((Fs.empty disk).ino i).nlink ≠ 0)
    (as : List (PSlot × SysCall)) :
    Along Files.step (fun s => s.Ok ∧ s.fs.Tidy s.held) (boot disk) as :=
  along_of_invariant ⟨himg.ok, himg.tidy hlinks⟩ (fun _ _ _ hs hstep =>
    ⟨(hs.1.step hstep).1, (hs.1.step hstep).2.tidy hs.2⟩) as

/-- **Inodes are freed exactly when they are not in use any more.** -/
theorem freed_when_unused_along (himg : Bootable disk)
    (hlinks : ∀ i, ((Fs.empty disk).ino i).type ≠ 0 → ((Fs.empty disk).ino i).nlink ≠ 0)
    (as : List (PSlot × SysCall)) :
    Along Files.step FreesUnused (boot disk) as ∧
      ∀ (fs : Fs) cnt ip, fs.Inv (plus cnt ip) none → fs.op.isSome → fs.Tidy (plus cnt ip) →
        ∃ fs', iput ip fs = .ok () fs' ∧
          fs'.ino = if cnt ip = 0 ∧ (fs.ino (fs.inode ip).inum).type ≠ 0 ∧
              (fs.ino (fs.inode ip).inum).nlink = 0
            then Function.update fs.ino (fs.inode ip).inum Ino.free else fs.ino := by
  refine ⟨?_, fun fs cnt ip h hop htidy => iput_frees_iff h hop htidy⟩
  exact (tidy_along himg hlinks as).mono fun s hs => hs.1.freesUnused hs.2

theorem twoProcesses_frees : (run Files.step (boot mkfsImage) twoProcesses).isSome = true ∧
    Along Files.step FreesUnused (boot mkfsImage) twoProcesses :=
  ⟨twoProcesses_runs, (freed_when_unused_along bootable_mkfsImage tidy_mkfsImage twoProcesses).1⟩

/-! ## The transactions of `filewrite`

  A chunk may take half of the log, while `begin_op` reserves a third of it; the
  exact number of blocks a chunk logs is `chunkCost`. -/

section

open List

variable {s s' : Files} {f : FSlot} {ip : ISlot} {src : List UInt8} {dev : Nat → Int}

def ChunksFit (dev : Nat → Int) (f : FSlot) (ip : ISlot) : Nat → List UInt8 → Files → Prop
  | 0, _, _ => True
  | fuel + 1, src, s =>
    src ≠ [] → ∀ r t, writeChunk (dev fuel) f (src.take maxChunk) s = .ok r t → 0 ≤ r →
      s.fs.chunkCost (s.fs.inode ip).inum (s.file f).off (src.take maxChunk).length ≤ MAXOPBLOCKS ∧
      ChunksFit dev f ip fuel (src.drop maxChunk) t

theorem writeChunks_fit_iff {fuel : Nat} {all : Bool} (h : s.Ok) (hon : s.OnInode f ip)
    (hw : (s.file f).writable = true) (hfile : (s.inodeOf ip).type = T_FILE)
    (hone : OneBitmap s.fs.sb) (hrun : writeChunks dev f fuel src s = .ok all s') :
    ∃ new, s'.fs.ops = new ++ s.fs.ops ∧
      ((∀ o ∈ new, o.toFinset.card ≤ MAXOPBLOCKS) ↔ ChunksFit dev f ip fuel src s) := by
  induction fuel generalizing s src with
  | zero =>
    cases hrun
    exact ⟨[], rfl, fun _ => trivial, fun _ o ho => absurd ho (by simp)⟩
  | succ fuel ih =>
    rw [writeChunks] at hrun
    by_cases hnil : src = []
    · rw [if_pos hnil] at hrun
      cases hrun
      exact ⟨[], rfl, fun _ hne => absurd hnil hne, fun _ o ho => absurd ho (by simp)⟩
    rw [if_neg hnil] at hrun
    change EStateM.bind _ _ s = _ at hrun
    unfold EStateM.bind at hrun
    split at hrun
    · rename_i r t hchunk
      dsimp only at hrun
      have hspec : wp (writeChunk (dev fuel) f (src.take maxChunk))
          (fun r t => Chunked f ip (src.take maxChunk) r s t) (Halts True) s :=
        wp_writeChunk h hon hw fun _ _ hc => hc
      have hc := (wp_of_ok hchunk).mp hspec
      obtain ⟨o, hops, hcard⟩ := hc.cost hone (by rw [hfile]; decide)
      by_cases hneg : r < 0
      · -- nothing has been written
        rw [if_pos hneg] at hrun hcard
        cases hrun
        refine ⟨[o], hops, fun _ _ r' t' hchunk' hpos => ?_, fun _ o' ho' => ?_⟩
        · rw [hchunk] at hchunk'
          injection hchunk' with hr
          omega
        · rw [List.mem_singleton.mp ho', hcard]
          exact Nat.zero_le _
      · rw [if_neg hneg] at hrun hcard
        by_cases hlen : r ≠ (src.take maxChunk).length
        · rw [if_pos hlen] at hrun
          cases hrun
        rw [if_neg hlen] at hrun
        have htype : (t.inodeOf ip).type = T_FILE := by
          unfold inodeOf
          rw [hc.inum, hc.writes.type]
          exact hfile
        obtain ⟨new, hnew, hiff⟩ := ih hc.ok hc.on hc.writable htype
          (by rw [hc.writes.sb]; exact hone) hrun
        refine ⟨new ++ [o], ?_, fun hall _ r' t' hchunk' _ => ?_, fun hfit o' ho' => ?_⟩
        · rw [hnew, hops, append_assoc]
          rfl
        · rw [hchunk] at hchunk'
          injection hchunk' with _ ht
          rw [← ht]
          refine ⟨?_, hiff.mp fun o' ho' => hall o' (mem_append_left _ ho')⟩
          rw [← hcard]
          exact hall o (by simp)
        · obtain ⟨hcost, hrest⟩ := hfit hnil r t hchunk (by omega)
          rcases mem_append.mp ho' with ho' | ho'
          · exact hiff.mpr hrest o' ho'
          · rw [List.mem_singleton.mp ho', hcard]
            exact hcost
    · cases hrun

/-- **The transactions of `filewrite` fit the reservation exactly if its chunks do.** -/
theorem filewrite_fits_iff {r : Int} (h : s.Ok) (hon : s.OnInode f ip)
    (hw : (s.file f).writable = true) (hfile : (s.inodeOf ip).type = T_FILE)
    (hone : OneBitmap s.fs.sb) (hrun : filewrite dev f src s = .ok r s') :
    ∃ new, s'.fs.ops = new ++ s.fs.ops ∧
      ((∀ o ∈ new, o.toFinset.card ≤ MAXOPBLOCKS) ↔ ChunksFit dev f ip src.length src s) := by
  unfold filewrite at hrun
  change EStateM.bind _ _ s = _ at hrun
  unfold EStateM.bind at hrun
  simp only [look] at hrun
  rw [if_neg (by rw [hw]; simp), hon.type] at hrun
  change EStateM.bind _ _ s = _ at hrun
  unfold EStateM.bind at hrun
  split at hrun
  · rename_i all t hloop
    injection hrun with _ ht
    rw [← ht]
    exact writeChunks_fit_iff h hon hw hfile hone hloop
  · cases hrun

theorem chunkCost_le (fs : Fs) (i off n : Nat) : fs.chunkCost i off n ≤ (spans off n).card + 3 := by
  have hite : ∀ (c : Prop) [Decidable c], (if c then 1 else 0 : Nat) ≤ 1 := by
    intro c _
    split
    · exact le_rfl
    · exact Nat.zero_le 1
  unfold chunkCost
  have h1 := hite (∃ k ∈ spans off n, (fs.node i).block k = 0)
  have h2 := hite (∃ k ∈ spans off n, NDIRECT ≤ k ∧ (fs.node i).block k = 0)
  have h3 := hite ((fs.node i).size < off + n)
  omega

/-- Three bytes fit. -/
theorem short_write_fits : ∃ s r s' new, run Files.step (boot mkfsImage)
      [(initproc, .openPath (some [102]) O_RDWR)] = some s ∧
    filewrite (fun _ => 0) firstFile [1, 2, 3] s = .ok r s' ∧
    s'.fs.ops = new ++ s.fs.ops ∧ ∀ o ∈ new, o.toFinset.card ≤ MAXOPBLOCKS := by
  obtain ⟨s, hrun, hok, hon, hw, hfile, hoff, -, hsb, -⟩ := opened_file
  have hwrite : (run Files.step (boot mkfsImage)
      [(initproc, .openPath (some [102]) O_RDWR)]).any (fun s =>
        passes (filewrite (fun _ => 0) firstFile [1, 2, 3] s) fun _ _ => true) = true := by
    decide +kernel
  rw [hrun, Option.any_some] at hwrite
  have hone : OneBitmap s.fs.sb := by
    intro a ha b hb
    rw [hsb] at ha hb ⊢
    simp only [Superblock.bblock, BPB] at *
    omega
  obtain ⟨r, s', hdone, -⟩ := of_passes hwrite
  obtain ⟨new, hnew, hiff⟩ := filewrite_fits_iff hok hon hw hfile hone hdone
  refine ⟨s, r, s', new, hrun, hdone, hnew, hiff.mpr fun _ r' t _ _ => ⟨?_, fun hne => ?_⟩⟩
  · refine (chunkCost_le ..).trans ?_
    rw [hoff]
    decide
  · exact absurd rfl hne

/-- Eleven blocks that are all there already do not. -/
theorem long_write_exceeds : ∃ s o, run Files.step (boot mkfsImage)
      [(initproc, .openPath (some [102]) O_RDWR),
        (initproc, .write (fun _ => 0) 0 (some (List.replicate 5632 0)))] = some s ∧
    o ∈ s.fs.ops ∧ MAXOPBLOCKS < o.toFinset.card := by
  have hrun : (run Files.step (boot mkfsImage)
      [(initproc, .openPath (some [102]) O_RDWR),
        (initproc, .write (fun _ => 0) 0 (some (List.replicate 5632 0)))]).any
      (fun s => decide (∃ o ∈ s.fs.ops, MAXOPBLOCKS < o.toFinset.card)) = true := by
    decide +kernel
  obtain ⟨s, hs, o, ho, hcard⟩ := exists_run hrun
  exact ⟨s, o, hs, ho, hcard⟩

end

end Xv6.Files
