/-
  Xv6.Fs.MkfsImage

  The images that mkfs writes.

  mkfs checks neither the number of inodes nor that of the blocks.  Too many
  blocks are noticed when one behind the end of the file is read; too many
  inodes are not noticed.  The size of the root directory is rounded up to the
  next block even if the entries fill their blocks, and the block that is then
  missing is a hole.
-/

import Xv6.Fs.MkfsFiles

namespace Xv6.Mkfs

open Function List Wp Fs Bytes

/-! ## Inodes are counted -/

theorem leaves_rsect (sec : Nat) : Leaves Mkfs.freeinode (rsect sec) :=
  (leaves_look _).bind fun _ => .ite (leaves_look _) (leaves_fail _)

theorem leaves_wsect (sec : Nat) (buf : Block) : Leaves Mkfs.freeinode (wsect sec buf) :=
  leaves_change (by intro; rfl)

theorem leaves_winode (inum : Nat) (d : Dinode) : Leaves Mkfs.freeinode (winode inum d) :=
  (leaves_rsect _).bind fun _ => leaves_wsect _ _

theorem leaves_nextBlock : Leaves Mkfs.freeinode nextBlock :=
  (leaves_look _).bind fun _ => (leaves_change (by intro; rfl)).bind fun _ => leaves_pure _

theorem leaves_listedBlock (d : Dinode) (fbn : Nat) : Leaves Mkfs.freeinode (listedBlock d fbn) :=
  (leaves_rsect _).bind fun _ =>
    .ite (leaves_nextBlock.bind fun _ => (leaves_wsect _ _).bind fun _ => leaves_pure _) (leaves_pure _)

theorem leaves_fileBlock (d : Dinode) (fbn : Nat) : Leaves Mkfs.freeinode (fileBlock d fbn) :=
  .ite (.ite (leaves_nextBlock.bind fun _ => leaves_pure _) (leaves_pure _))
    (.bind (.ite (leaves_nextBlock.bind fun _ => leaves_pure _) (leaves_pure _))
      fun _ => leaves_listedBlock _ _)

theorem leaves_appendLoop (fuel : Nat) (d : Dinode) (off : Nat) (p : List UInt8) :
    Leaves Mkfs.freeinode (appendLoop fuel d off p) := by
  induction fuel generalizing d off p with
  | zero => exact leaves_pure _
  | succ fuel ih =>
    exact .ite (leaves_pure _) (.ite ((leaves_fileBlock _ _).bind fun _ => (leaves_rsect _).bind
      fun _ => (leaves_wsect _ _).bind fun _ => ih _ _ _) (leaves_fail _))

theorem leaves_iappend (inum : Nat) (p : List UInt8) : Leaves Mkfs.freeinode (iappend inum p) :=
  ((leaves_rsect _).bind fun _ => leaves_pure _).bind fun _ =>
    (leaves_appendLoop _ _ _ _).bind fun _ => leaves_winode _ _

theorem leaves_copyLoop (inum fuel : Nat) (content : List UInt8) :
    Leaves Mkfs.freeinode (copyLoop inum fuel content) := by
  induction fuel generalizing content with
  | zero => exact leaves_pure _
  | succ fuel ih => exact .ite (leaves_pure _) ((leaves_iappend _ _).bind fun _ => ih _)

variable {m : Mkfs} {files : List Source}
variable {i n : Nat}

theorem counts_ialloc (type : Int16) (m : Mkfs) :
    wp (ialloc type) (fun _ m' => m'.freeinode = m.freeinode + 1) (fun _ _ => True) m := by
  refine wp_read (wp_write (wp_seq ?_))
  exact wp_mono (leaves_winode _ _ _) (fun _ _ h => h) fun _ _ h => h

theorem counts_addFile (f : Source) (m : Mkfs) :
    wp (addFile f) (fun _ m' => m'.freeinode = m.freeinode + 1) (fun _ _ => True) m := by
  refine wp_ite (fun _ => trivial) fun _ => ?_
  cases f.content with
  | none => trivial
  | some content =>
    refine wp_seq (wp_mono (counts_ialloc _ m) (fun inum m1 h1 => ?_) fun _ _ h => h)
    have hrest : Leaves Mkfs.freeinode (do
        iappend ROOTINO (dirent inum (skipUnderscore f.name))
        copyLoop inum content.length content) :=
      (leaves_iappend _ _).bind fun _ => leaves_copyLoop _ _ _
    exact wp_mono (hrest m1) (fun _ m2 h2 => h2.trans h1) fun _ _ h => h

theorem counts_files (files : List Source) (m : Mkfs) : wp (files.forM addFile)
    (fun _ m' => m'.freeinode = m.freeinode + files.length) (fun _ _ => True) m := by
  refine wp_forM (fun rest m' => m'.freeinode + rest.length = m.freeinode + files.length) rfl
    (fun f rest m1 h1 => ?_) fun m' h' => h'
  refine wp_mono (counts_addFile f m1) (fun _ m2 h2 => ?_) fun _ _ h => h
  rw [length_cons] at h1
  omega

theorem freeinode_mkfs (h : mkfs files = .ok () m) : m.freeinode = files.length + 2 := by
  have hwp : wp (main files) (fun _ m => m.freeinode = files.length + 2) (fun _ _ => True) zeroes := by
    refine wp_write (wp_seq (wp_mono (counts_ialloc _ _)
      (fun rootino m1 h1 => wp_ite (fun _ => trivial) fun _ => ?_) fun _ _ h => h))
    have hend : Leaves Mkfs.freeinode (do
        fixRoot
        let used ← look fun m => m.freeblock
        balloc used) :=
      (((leaves_rsect _).bind fun _ => leaves_pure _).bind fun _ => leaves_winode _ _).bind fun _ =>
        (leaves_look _).bind fun _ => .ite (leaves_wsect _ _) (leaves_fail _)
    refine wp_seq (wp_mono (leaves_iappend _ _ m1) (fun _ m2 h2 => ?_) fun _ _ h => h)
    refine wp_seq (wp_mono (leaves_iappend _ _ m2) (fun _ m3 h3 => ?_) fun _ _ h => h)
    refine wp_seq (wp_mono (counts_files files m3) (fun _ m4 h4 => ?_) fun _ _ h => h)
    refine wp_mono (hend m4) (fun _ m5 h5 => ?_) fun _ _ h => h
    have h1' : m1.freeinode = 2 := h1
    omega
  exact (wp_of_ok h).mp hwp

theorem bit_bitmap {used : Nat} (h : used ≤ BSIZE * 8) (b : Nat) :
    bit (bitmap used) b = decide (b < used) := by
  induction used with
  | zero => simp [bitmap, bit]
  | succ used ih =>
    have hstep : bitmap (used + 1) = raise (bitmap used) used := by
      rw [bitmap, range_succ, foldl_append]
      rfl
    rw [hstep, bit_raise _ _ (by omega), ih (by omega)]
    by_cases hb : b = used
    · rw [hb]
      simp
    · rw [decide_eq_false hb, Bool.false_or, decide_eq_decide]
      omega

/-! ## The image as the kernel sees it -/

/-- The image that mkfs makes of these files. -/
abbrev Made (files : List Source) (m : Mkfs) : Prop :=
  Finished (types files.length) (contents files) m

theorem made_mkfs (h : mkfs files = .ok () m) (hfew : files.length + 2 ≤ NINODES) : Made files m := by
  have hwp : wp (main files) (fun _ m => Made files m) (fun _ _ => True) zeroes := by
    refine wp_main fun m1 h1 hfree1 => wp_seq ?_
    rw [← append_nil files]
    refine wp_addFiles files [] h1 hfree1 (by rw [length_nil, Nat.zero_add]; exact hfew)
      (.inr fun _ _ => trivial) fun m2 _ h2 hfree2 => wp_finish h2 fun m3 h3 _ => ?_
    rw [append_nil]
    exact h3
  exact (wp_of_ok h).mp hwp

theorem mkfs_ok (hread : ∀ f ∈ files, Readable f) (hfew : files.length + 2 ≤ NINODES)
    (hfit : Fitting (contents files)) : ∃ m, mkfs files = .ok () m := by
  have hwp : wp (main files) (fun _ _ => True) (fun _ _ => False) zeroes := by
    refine wp_main fun m1 h1 hfree1 => wp_seq ?_
    rw [← append_nil files]
    exact wp_addFiles files [] h1 hfree1 (by rw [length_nil, Nat.zero_add]; exact hfew)
      (.inl ⟨hread, hfit⟩) fun m2 _ h2 hfree2 => wp_finish h2 fun m3 h3 _ => trivial
  obtain ⟨⟨⟩, m, hm, -⟩ := exists_ok hwp
  exact ⟨m, hm⟩

theorem getSuper_superBlock : getSuper superBlock = sb := by decide +kernel

theorem layout_sb : sb.Layout := by
  refine ⟨by decide, by decide, by decide, by decide, fun i hi => ?_, fun b hb => ?_,
    fun i hi b hb => ?_⟩
  · have hi' : i < 200 := hi
    show 1 < i / 8 + 32 ∧ i / 8 + 32 < 59
    omega
  · have hb' : b < 1000 := hb
    show 1 < b / 4096 + 58 ∧ b / 4096 + 58 < 59
    omega
  · have hi' : i < 200 := hi
    have hb' : b < 1000 := hb
    show i / 8 + 32 ≠ b / 4096 + 58
    omega

theorem types_ne_zero (hi : ROOTINO ≤ i) (hlt : i < files.length + 2) :
    types files.length i ≠ 0 := by
  unfold types
  by_cases hroot : i = ROOTINO
  · rw [if_pos hroot]
    decide
  · rw [if_neg hroot, if_pos (by simp only [ROOTINO] at *; omega)]
    decide

theorem types_eq_zero (h : ¬ (ROOTINO ≤ i ∧ i < n + 2)) : types n i = 0 := by
  simp only [ROOTINO] at h
  rw [types, if_neg (by simp only [ROOTINO]; omega), if_neg (by omega)]

theorem contents_of_free (hi : types files.length i = 0) : contents files i = [] := by
  unfold types at hi
  unfold contents
  by_cases hroot : i = ROOTINO
  · rw [if_pos hroot] at hi
    exact absurd hi (by decide)
  rw [if_neg hroot] at hi ⊢
  by_cases h2 : 2 ≤ i ∧ i < files.length + 2
  · rw [if_pos h2] at hi
    exact absurd hi (by decide)
  · by_cases hle : 2 ≤ i
    · rw [if_pos hle, List.getElem?_eq_none (by omega)]
      rfl
    · rw [if_neg hle]

section Kernel

variable (h : Made files m)
variable {i : Nat}

include h

theorem Made.sb_eq : (Fs.empty m.img).sb = sb := by
  show getSuper (m.img 1) = sb
  rw [h.super, getSuper_superBlock]

theorem Made.dinodeAt_eq (i : Nat) : (Fs.empty m.img).dinodeAt i = inode m.img i := by
  rw [dinodeAt, h.sb_eq]
  rfl

theorem Made.node_lt (hi : i < NINODES) : (Fs.empty m.img).node i = (inode m.img i).node m.img := by
  rw [node_of_lt (by rw [h.sb_eq]; exact hi), cur_of_idle, h.dinodeAt_eq]
  · rfl
  · exact fun _ hlive => absurd hlive.1 (by simp [Fs.empty])

theorem Made.node_ge (hi : NINODES ≤ i) : (Fs.empty m.img).node i = Node.free :=
  node_of_ge (by rw [h.sb_eq]; exact hi)

theorem Made.type_eq (hi : i < NINODES) : (inode m.img i).type = types files.length i := by
  have hdin : dinodes m.img i = inode m.img i := if_pos hi
  rw [← hdin]
  by_cases hroot : i = ROOTINO
  · rw [hroot]
    exact h.root.type
  · exact (h.file i hi hroot).type

theorem Made.nlink_eq (hi : i < NINODES) :
    (inode m.img i).nlink = if types files.length i = 0 then 0 else 1 := by
  have hdin : dinodes m.img i = inode m.img i := if_pos hi
  rw [← hdin]
  by_cases hroot : i = ROOTINO
  · rw [hroot]
    exact h.root.nlink
  · exact (h.file i hi hroot).nlink

theorem Made.block_eq (i k : Nat) :
    ((Fs.empty m.img).node i).block k = places m.img (dinodes m.img) i k := by
  by_cases hi : i < NINODES
  · have hdin : dinodes m.img i = inode m.img i := if_pos hi
    rw [h.node_lt hi, places, hdin]
    by_cases htype : (inode m.img i).type = 0
    · have hnone : sizes (contents files) i = 0 := by
        rw [sizes, contents_of_free (h.type_eq hi ▸ htype)]
        exact blocks_zero
      rw [Dinode.node, if_pos htype, ← hdin, h.books.nothing hnone]
      rfl
    · rw [Dinode.node_of_type htype]
  · have hdin : dinodes m.img i = Dinode.fresh 0 := if_neg hi
    rw [h.node_ge (Nat.not_lt.mp hi), places, hdin, place_fresh rfl]
    rfl

theorem Made.size_cases (i : Nat) :
    (((Fs.empty m.img).node i).size = 0 ∧ ((Fs.empty m.img).node i).type = 0) ∨
      (i < NINODES ∧ ((Fs.empty m.img).node i).size = (inode m.img i).size.toNat) := by
  by_cases hi : i < NINODES
  · rw [h.node_lt hi]
    by_cases htype : (inode m.img i).type = 0
    · rw [Dinode.node, if_pos htype]
      exact .inl ⟨rfl, rfl⟩
    · rw [Dinode.node_of_type htype]
      exact .inr ⟨hi, rfl⟩
  · rw [h.node_ge (Nat.not_lt.mp hi)]
    exact .inl ⟨rfl, rfl⟩

theorem Made.root_size : (inode m.img ROOTINO).size.toNat = ((files.length + 2) / 32 + 1) * BSIZE := by
  have hsize := h.root.size
  rw [contents_root, length_entries] at hsize
  rw [show inode m.img ROOTINO = dinodes m.img ROOTINO from rfl, hsize]
  congr 2
  simp only [BSIZE]
  omega

theorem Made.file_size (hi : i < NINODES) (hne : i ≠ ROOTINO) :
    (inode m.img i).size.toNat = (contents files i).length := by
  have hdin : dinodes m.img i = inode m.img i := if_pos hi
  rw [← hdin]
  exact (h.file i hi hne).size

theorem Made.mapped {k : Nat} (hi : i < NINODES) (hk : k < MAXFILE) :
    place m.img (inode m.img i) k ≠ 0 ↔ k < sizes (contents files) i := by
  have hdin : dinodes m.img i = inode m.img i := if_pos hi
  rw [← hdin]
  exact h.books.mapped i k hk

end Kernel

/-- Every inode has all the blocks that its size says. -/
def NoHoles (m : Mkfs) : Prop :=
  ∀ i, i < sb.ninodes → ∀ k, k < blocks (inode m.img i).size.toNat → place m.img (inode m.img i) k ≠ 0

theorem Made.noHoles_iff (h : Made files m) (hfew : files.length + 2 ≤ NINODES) :
    NoHoles m ↔ (files.length + 2) % 32 ≠ 0 := by
  have hroot : sizes (contents files) ROOTINO = blocks (16 * (files.length + 2)) := by
    rw [sizes, contents_root, length_entries]
  simp only [NINODES] at hfew
  constructor
  · -- the block behind the entries
    intro hno hmod
    have hk := hno ROOTINO (by decide) ((files.length + 2) / 32) (by
      rw [h.root_size, lt_blocks]
      simp only [BSIZE]
      omega)
    rw [h.mapped (by decide) (by simp only [MAXFILE, NDIRECT, NINDIRECT]; omega), hroot,
      lt_blocks] at hk
    simp only [BSIZE] at hk
    omega
  · intro hmod i hi k hk
    by_cases hne : i = ROOTINO
    · subst hne
      rw [h.root_size, lt_blocks] at hk
      simp only [BSIZE] at hk
      rw [h.mapped (by decide) (by simp only [MAXFILE, NDIRECT, NINDIRECT]; omega), hroot, lt_blocks]
      simp only [BSIZE]
      omega
    · rw [h.file_size hi hne] at hk
      exact (h.mapped hi (Nat.lt_of_lt_of_le hk (h.books.small i))).mpr hk

/-- **An image without holes is well-formed.** -/
theorem Made.wellFormed (h : Made files m) (hfew : files.length + 2 ≤ NINODES) (hno : NoHoles m) :
    WellFormed m.img := by
  have hown := h.books.own
  have hused : ∀ b, Used (Fs.empty m.img).node b ↔ nmeta ≤ b ∧ b < m.freeblock := by
    intro b
    unfold Used
    simp only [h.block_eq]
    constructor
    · rintro ⟨hne, i, k, rfl⟩
      exact hown.range i k hne
    · rintro ⟨hlo, hhi⟩
      exact ⟨by rw [nmeta_eq] at hlo; omega, hown.onto b hlo hhi⟩
  refine ⟨⟨?_, rfl, ⟨⟨fun _ => rfl, ?_, ?_⟩, ?_, ?_⟩, ⟨?_, ?_⟩, fun b hb => ?_, rfl⟩, fun i => ?_,
    fun i k hk => ?_⟩
  · rw [h.sb_eq]
    exact layout_sb
  -- no slot is in use
  · exact fun _ _ hj => absurd hj (Nat.lt_irrefl 0)
  · exact fun _ hj => absurd hj (Nat.lt_irrefl 0)
  · exact fun _ hj => absurd hj (Nat.lt_irrefl 0)
  · exact fun _ hj => absurd hj (Nat.lt_irrefl 0)
  · intro i k i' k' hne heq
    rw [h.block_eq] at hne
    rw [h.block_eq, h.block_eq] at heq
    exact hown.inj i k i' k' hne heq
  · intro i k hne
    rw [h.block_eq] at hne ⊢
    obtain ⟨hlo, hhi⟩ := hown.range i k hne
    rw [h.sb_eq]
    exact ⟨hlo, Nat.lt_of_lt_of_le hhi h.freeblock⟩
  · rw [h.sb_eq] at hb ⊢
    have hb' : b < 1000 := hb
    have hblock : sb.bblock b = sb.bmapstart := by
      show b / 4096 + sb.bmapstart = sb.bmapstart
      omega
    have hmod : b % BPB = b := Nat.mod_eq_of_lt (by simp only [BPB]; omega)
    rw [bitOf, h.sb_eq, hblock, hmod, show (Fs.empty m.img).disk = m.img from rfl, h.bitmap,
      bit_bitmap (h.freeblock.trans (by decide)), decide_eq_true_iff, hused]
    show b < m.freeblock ↔ b < nmeta ∨ nmeta ≤ b ∧ b < m.freeblock
    have := h.books.lo
    omega
  · rcases h.size_cases i with ⟨h0, -⟩ | ⟨hi, hsize⟩
    · rw [h0]
      exact Nat.zero_le _
    · rw [hsize]
      by_cases hne : i = ROOTINO
      · rw [hne, h.root_size]
        simp only [NINODES] at hfew
        simp only [MAXFILE, NDIRECT, NINDIRECT, BSIZE]
        omega
      · rw [h.file_size hi hne]
        exact (h.books.long i).trans (Nat.mul_le_mul_right _ (h.books.small i))
  · rcases h.size_cases i with ⟨h0, -⟩ | ⟨hi, hsize⟩
    · rw [h0] at hk
      exact absurd hk (Nat.not_lt_zero _)
    · rw [hsize] at hk
      have hplace := hno i hi k (lt_blocks.mpr hk)
      have hdin : dinodes m.img i = inode m.img i := if_pos hi
      rwa [h.block_eq, places, hdin]

def reading (img : Nat → Block) (ip : ISlot) (i : Nat) : Fs :=
  (Fs.empty img).setInode ip fun _ => ⟨i, 1, true, true, (Fs.empty img).dinodeAt i⟩

theorem inv_reading {img : Nat → Block} (ip : ISlot) (h : WellFormed img)
    (hi : i < (Fs.empty img).sb.ninodes) (ht : ((Fs.empty img).dinodeAt i).type ≠ 0) :
    (reading img ip i).Inv (plus (fun _ => 0) ip) none ∧
      (reading img ip i).node = (Fs.empty img).node := by
  obtain ⟨hinv, hnode⟩ := Inv.withInode ip h hi ht
  have hslots : (reading img ip i).Slots (plus (fun _ => 0) ip) none :=
    ⟨⟨hinv.slots.ref, hinv.slots.uniq, hinv.slots.inum⟩, hinv.slots.sync, hinv.slots.typed⟩
  obtain ⟨hinv', hnode'⟩ := hinv.of_slots hslots rfl rfl rfl
  exact ⟨hinv', hnode'.trans hnode⟩

/-- **Directories that fill their blocks have a hole.**  If the files fit, an image of mkfs has no
    holes unless the entries of the root directory fill its blocks; and then the kernel reads any
    inode without changing anything, also when there is no transaction. -/
theorem no_holes_unless_full (h : mkfs files = .ok () m) (hfew : files.length + 2 ≤ NINODES) :
    (NoHoles m ↔ (files.length + 2) % 32 ≠ 0) ∧
      ((files.length + 2) % 32 ≠ 0 → ∀ i, i < sb.ninodes → (inode m.img i).type ≠ 0 →
        ∀ (dev : Int) (ip : ISlot) (off n : Nat), ∃ r, readi dev ip off n (reading m.img ip i)
          = .ok r (reading m.img ip i)) := by
  have hmade := made_mkfs h hfew
  have hiff := hmade.noHoles_iff hfew
  refine ⟨hiff, fun hmod i hi htype dev ip off n => ?_⟩
  have hwf := hmade.wellFormed hfew (hiff.mpr hmod)
  obtain ⟨hinv, hnode⟩ := inv_reading ip hwf (by rw [hmade.sb_eq]; exact hi)
    (by rw [hmade.dinodeAt_eq]; exact htype)
  have hip : 0 < plus (fun _ => 0) ip ip := by simp
  have hv : ((reading m.img ip i).inode ip).valid = true := by
    rw [reading]
    simp [setInode]
  have hwp : wp (readi dev ip off n) (fun _ s' => s' = reading m.img ip i) (fun _ _ => False)
      (reading m.img ip i) :=
    wp_readi hinv hip hv (fun _ => rfl) (fun _ _ => rfl) fun _ _ _ => rfl
  obtain ⟨r, s', hr, rfl⟩ := exists_ok hwp
  exact ⟨r, hr⟩

/-! ## Files without contents -/

/-- An empty file, for each `k` with another name. -/
def empty (k : Nat) : Source := ⟨[UInt8.ofNat (97 + k / 16), UInt8.ofNat (97 + k % 16)], some []⟩

def empties (n : Nat) : List Source := (List.range n).map empty

@[simp] theorem length_empties (n : Nat) : (empties n).length = n := by simp [empties]

theorem empties_succ (n : Nat) : empties (n + 1) = empties n ++ [empty n] := by
  rw [empties, range_succ, map_append]
  rfl

theorem contents_empties (hi : i ≠ ROOTINO) : contents (empties n) i = [] := by
  rw [contents, if_neg hi]
  by_cases h2 : 2 ≤ i
  · rw [if_pos h2, empties, List.getElem?_map]
    cases (List.range n)[i - 2]? <;> rfl
  · rw [if_neg h2]

theorem fitting_empties (hn : n ≤ 382) : Fitting (contents (empties n)) := by
  refine fitting_of_root (fun i hi => contents_empties hi) ?_
  rw [contents_root, length_entries, length_empties]
  simp only [NDIRECT, BSIZE]
  omega

theorem readable_empty {k : Nat} (hk : k < 256) : Readable (empty k) := by
  have hname : ∀ j < 16, slash ≠ UInt8.ofNat (97 + j) := by decide
  refine ⟨?_, rfl⟩
  rw [empty, mem_cons, mem_singleton, not_or]
  exact ⟨hname (k / 16) (by omega), hname (k % 16) (by omega)⟩

theorem readable_empties (hn : n ≤ 256) : ∀ f ∈ empties n, Readable f := by
  intro f hf
  obtain ⟨k, hk, rfl⟩ := mem_map.mp hf
  rw [mem_range] at hk
  exact readable_empty (by omega)

theorem mkfs_empties (hn : n + 2 ≤ NINODES) : ∃ m, mkfs (empties n) = .ok () m := by
  simp only [NINODES] at hn
  refine mkfs_ok (readable_empties (by omega)) ?_ (fitting_empties (by omega))
  rw [length_empties]
  exact hn

/-- One empty file leaves no hole. -/
theorem one_file_no_hole : ∃ m, mkfs (empties 1) = .ok () m ∧ NoHoles m := by
  have hfew : (empties 1).length + 2 ≤ NINODES := by
    rw [length_empties]
    decide
  obtain ⟨m, hm⟩ := mkfs_empties (n := 1) (by decide)
  refine ⟨m, hm, (no_holes_unless_full hm hfew).1.mpr ?_⟩
  rw [length_empties]
  decide

/-- The entries of 30 files, with those for "." and "..", fill a block. -/
theorem thirty_files_hole : ∃ m, mkfs (empties 30) = .ok () m ∧ ¬ NoHoles m := by
  have hfew : (empties 30).length + 2 ≤ NINODES := by
    rw [length_empties]
    decide
  obtain ⟨m, hm⟩ := mkfs_empties (n := 30) (by decide)
  refine ⟨m, hm, ?_⟩
  rw [(made_mkfs hm hfew).noHoles_iff hfew, length_empties]
  decide

/-! ## Consistency -/

/-- An inode number that mkfs has given out. -/
def Given (m : Mkfs) (i : Nat) : Prop := ROOTINO ≤ i ∧ i < m.freeinode

/-- The image of these files is consistent. -/
structure Consistent (files : List Source) (m : Mkfs) : Prop where
  inums : ∀ i, Given m i → i < sb.ninodes
  /-- Every block is a data block on the disk. -/
  range : ∀ i k, Given m i → place m.img (inode m.img i) k ≠ 0 →
    nmeta ≤ place m.img (inode m.img i) k ∧ place m.img (inode m.img i) k < sb.size
  /-- No block is used twice. -/
  once : ∀ i k j l, Given m i → Given m j → place m.img (inode m.img i) k ≠ 0 →
    place m.img (inode m.img i) k = place m.img (inode m.img j) l → i = j ∧ k = l
  /-- The bitmap marks the metadata and the blocks used. -/
  marks : ∀ b, bit (m.img sb.bmapstart) b = true ↔
    b < nmeta ∨ ∃ i k, Given m i ∧ place m.img (inode m.img i) k = b
  /-- The areas do not overlap. -/
  areas : ∀ i, Given m i → sb.inodestart ≤ sb.iblock i ∧ sb.iblock i < sb.bmapstart ∧
    sb.bmapstart < nmeta
  /-- Nothing has been overwritten: the superblock, -/
  super : getSuper (m.img 1) = sb
  /-- the inodes, -/
  inodes : ∀ i, Given m i → (inode m.img i).type = types files.length i ∧ (inode m.img i).nlink = 1
  /-- and the bytes in the data blocks. -/
  bytes : ∀ i x, Given m i → x < (contents files i).length →
    get (m.img (place m.img (inode m.img i) (x / BSIZE))) (x % BSIZE)
      = (contents files i).getD x 0

theorem Made.consistent (h : Made files m) (hcount : m.freeinode = files.length + 2)
    (hfew : files.length + 2 ≤ NINODES) : Consistent files m := by
  have hlt : ∀ {i}, Given m i → i < NINODES := fun hi => by
    have := hi.2
    omega
  have hplaces : ∀ {i}, i < NINODES → places m.img (dinodes m.img) i = place m.img (inode m.img i) := by
    intro i hi
    rw [places, show dinodes m.img i = inode m.img i from if_pos hi]
  have hown := h.books.own
  refine ⟨fun i hi => hlt hi, fun i k hi hne => ?_, fun i k j l hi hj hne heq => ?_, fun b => ?_,
    fun i hi => ?_, by rw [h.super, getSuper_superBlock], fun i hi => ?_, fun i x hi hx => ?_⟩
  · rw [← hplaces (hlt hi)] at hne ⊢
    obtain ⟨hlo, hhi⟩ := hown.range i k hne
    exact ⟨hlo, Nat.lt_of_lt_of_le hhi h.freeblock⟩
  · rw [← hplaces (hlt hi)] at hne heq
    rw [← hplaces (hlt hj)] at heq
    exact hown.inj i k j l hne heq
  · rw [h.bitmap, bit_bitmap (h.freeblock.trans (by decide)), decide_eq_true_iff]
    constructor
    · intro hb
      refine (Nat.lt_or_ge b nmeta).imp_right fun hlo => ?_
      obtain ⟨i, k, hik⟩ := hown.onto b hlo hb
      have hne : places m.img (dinodes m.img) i k ≠ 0 := by
        rw [hik]
        rw [nmeta_eq] at hlo
        omega
      -- an inode with a block has been given out
      have hi : Given m i := by
        by_contra hnot
        have hnone : sizes (contents files) i = 0 := by
          rw [sizes, contents_of_free (types_eq_zero fun hi => hnot ⟨hi.1, by omega⟩)]
          exact blocks_zero
        exact hne (congrFun (h.books.nothing hnone) k)
      rw [hplaces (hlt hi)] at hik
      exact ⟨i, k, hi, hik⟩
    · rintro (hb | ⟨i, k, hi, rfl⟩)
      · exact Nat.lt_of_lt_of_le hb h.books.lo
      · rw [← hplaces (hlt hi)]
        by_cases h0 : places m.img (dinodes m.img) i k = 0
        · rw [h0]
          exact Nat.pos_of_ne_zero h.books.fb_ne
        · exact (hown.range i k h0).2
  · have hi' : i < 200 := hlt hi
    show 32 ≤ i / 8 + 32 ∧ i / 8 + 32 < 58 ∧ 58 < 59
    omega
  · have htype := types_ne_zero hi.1 (hcount ▸ hi.2)
    refine ⟨h.type_eq (hlt hi), ?_⟩
    rw [h.nlink_eq (hlt hi), if_neg htype]
  · rw [← hplaces (hlt hi)]
    refine h.books.content i x ?_
    rw [sizes, lt_blocks]
    exact Nat.lt_of_le_of_lt (Nat.div_mul_le_self _ _) hx

/-- **The number of inodes is not checked.**  Unless mkfs gives up, the image is consistent if and
    only if there are inodes for the files and for the root directory. -/
theorem consistent_iff (h : mkfs files = .ok () m) :
    Consistent files m ↔ files.length + 2 ≤ NINODES := by
  have hcount := freeinode_mkfs h
  constructor
  · intro hcons
    have hlast := hcons.inums (files.length + 1) ⟨by simp only [ROOTINO]; omega, by omega⟩
    exact hlast
  · exact fun hfew => (made_mkfs h hfew).consistent hcount hfew

/-- There are inodes for 198 files. -/
theorem consistent_198 : ∃ m, mkfs (empties 198) = .ok () m ∧ Consistent (empties 198) m := by
  obtain ⟨m, hm⟩ := mkfs_empties (n := 198) (by decide)
  refine ⟨m, hm, (consistent_iff hm).mpr ?_⟩
  rw [length_empties]

theorem wp_addFile_beyond {ty : Nat → Int16} {data : Nat → List UInt8} {f : Source}
    {Q : Unit → Mkfs → Prop} {E : Stop → Mkfs → Prop} (h : Good ty data m)
    (hge : NINODES ≤ m.freeinode) (hmeta : m.freeinode / 8 + 32 < nmeta) (hname : slash ∉ f.name)
    (hcontent : f.content = some [])
    (hfit : Fitting (update data ROOTINO
      (data ROOTINO ++ dirent m.freeinode (skipUnderscore f.name))))
    (hQ : ∀ m', Good ty (update data ROOTINO
      (data ROOTINO ++ dirent m.freeinode (skipUnderscore f.name))) m' → Q () m') :
    wp (addFile f) Q E m := by
  unfold addFile
  rw [if_neg hname, hcontent]
  refine wp_seq (wp_ialloc_beyond h hge hmeta fun m1 h1 hfree1 => ?_)
  have hroot : ROOTINO < m1.freeinode := by
    simp only [NINODES] at hge
    simp only [ROOTINO]
    omega
  exact wp_seq (wp_iappend h1 (by decide) hroot (.inl hfit) fun m2 h2 _ => hQ m2 h2)

/-- The inode of the last of 199 files does not exist. -/
theorem files_beyond_inodes : ∃ m, mkfs (empties 199) = .ok () m ∧ ¬ Consistent (empties 199) m := by
  have hwp : wp (main (empties 199)) (fun _ _ => True) (fun _ _ => False) zeroes := by
    refine wp_main fun m₁ h₁ hfree₁ => wp_seq ?_
    rw [empties_succ]
    refine wp_addFiles (empties 198) [] h₁ hfree₁ (by rw [length_empties]; decide)
      (.inl ⟨readable_empties (by decide), fitting_empties (by decide)⟩) fun m₂ _ h₂ hfree₂ => ?_
    have hfree₂' : m₂.freeinode = 200 := by
      rw [hfree₂, nil_append, length_empties]
    refine wp_seq (wp_addFile_beyond h₂ (by rw [hfree₂']) (by rw [hfree₂']; decide)
      (readable_empty (by decide)).1 rfl ?_ fun m₃ h₃ =>
        (wp_pure _).mpr (wp_finish h₃ fun _ _ _ => trivial))
    refine fitting_of_root (fun i hi => ?_) ?_
    · rw [update_of_ne hi]
      exact contents_empties hi
    · rw [update_self, length_append, length_dirent, contents_root, length_entries,
        nil_append, length_empties]
      decide
  obtain ⟨⟨⟩, m, hm, -⟩ := exists_ok hwp
  refine ⟨m, hm, fun hcons => ?_⟩
  have hcount := freeinode_mkfs hm
  rw [length_empties] at hcount
  have hlast := hcons.inums 200 ⟨by decide, by omega⟩
  exact absurd hlast (by decide)

end Xv6.Mkfs
