/-
  Xv6.Fs.MkfsKernel

  The kernel reads what mkfs has written.
-/

import Mathlib.Data.List.TakeWhile
import Xv6.Fs.Calls
import Xv6.Fs.MkfsImage

namespace Xv6

open List Wp Fs Bytes Dinode

variable {j : Nat} {Q : Unit → Fs → Prop} {msg : String}

namespace Mkfs

theorem take_drop_flatten {α : Type} {w : Nat} {rows : List (List α)} (h : ∀ r ∈ rows, r.length = w) {r : List α} (hj : rows[j]? = some r) : (rows.flatten.drop (w * j)).take w = r := by
  induction rows generalizing j with
  | nil => cases hj
  | cons row rows ih =>
    have hrow : row.length = w := h row mem_cons_self
    cases j with
    | zero =>
      rw [List.getElem?_cons_zero, Option.some.injEq] at hj
      rw [Nat.mul_zero, drop_zero, flatten_cons, ← hrow, take_left, hj]
    | succ j =>
      rw [List.getElem?_cons_succ] at hj
      have hdrop : (row ++ rows.flatten).drop (w * (j + 1)) = rows.flatten.drop (w * j) := by
        rw [Nat.mul_succ, Nat.add_comm, ← hrow, drop_append, drop_of_length_le (by omega),
          nil_append, Nat.add_sub_cancel_left]
      rw [flatten_cons, hdrop]
      exact ih (fun r hr => h r (mem_cons_of_mem _ hr)) hj

theorem map_getD_range {α : Type} (l : List α) (d : α) {off n : Nat} (h : off + n ≤ l.length) :
    ((range n).map fun t => l.getD (off + t) d) = (l.drop off).take n := by
  refine ext_getElem? fun x => ?_
  by_cases hx : x < n
  · rw [List.getElem?_map, List.getElem?_range hx, List.getElem?_take_of_lt hx, List.getElem?_drop,
      Option.map_some, getD_eq_getElem?_getD, List.getElem?_eq_getElem (by omega)]
    rfl
  · have hlen : ((l.drop off).take n).length ≤ n := length_take_le ..
    rw [List.getElem?_eq_none (by simpa using hx), List.getElem?_eq_none (by omega)]

/-! ## The entries -/

def rows (files : List Source) : List (List UInt8) :=
  dirent ROOTINO [dot] :: dirent ROOTINO [dot, dot] ::
    files.mapIdx fun k f => dirent (k + 2) (skipUnderscore f.name)

theorem entries_eq (files : List Source) : entries files = (rows files).flatten := by
  simp [entries, rows]

theorem length_rows (files : List Source) : ∀ r ∈ rows files, r.length = DIRENT := by
  intro r hr
  simp only [rows, mem_cons, mem_mapIdx] at hr
  rcases hr with rfl | rfl | ⟨k, hk, rfl⟩ <;> exact length_dirent ..

/-- What the kernel reads as the `j`-th entry. -/
def row (files : List Source) (j : Nat) : List UInt8 :=
  (range DIRENT).map fun t => (entries files).getD (DIRENT * j + t) 0

theorem row_eq {files : List Source} {r : List UInt8} (h : (rows files)[j]? = some r) :
    row files j = r := by
  have hj : j < files.length + 2 := by
    have hlt := (List.getElem?_eq_some_iff.mp h).1
    rwa [rows, length_cons, length_cons, length_mapIdx] at hlt
  rw [row, map_getD_range _ _ (by rw [length_entries]; simp only [DIRENT]; omega), entries_eq]
  exact take_drop_flatten (length_rows files) h

theorem row_beyond {files : List Source} (h : files.length + 2 ≤ j) :
    row files j = replicate DIRENT 0 := by
  refine eq_replicate_iff.mpr ⟨by simp [row], fun x hx => ?_⟩
  obtain ⟨t, -, rfl⟩ := mem_map.mp hx
  rw [getD_eq_getElem?_getD, List.getElem?_eq_none]
  · rfl
  · rw [length_entries]
    simp only [DIRENT]
    omega

def Hits (name de : List UInt8) : Prop := direntInum de ≠ 0 ∧ namecmp name (direntName de) = 0

instance (name de : List UInt8) : Decidable (Hits name de) := inferInstanceAs (Decidable (_ ∧ _))

theorem hits_dirent {name name' : List UInt8} {inum : Nat} (h0 : inum ≠ 0) (hlt : inum < 65536) :
    Hits name (dirent inum name') ↔ key name = key name' := by
  unfold Hits
  rw [direntInum_dirent, Nat.mod_eq_of_lt hlt, namecmp_eq_zero, key_direntName_dirent]
  exact and_iff_right h0

theorem not_hits_zero (name : List UInt8) : ¬ Hits name (replicate DIRENT 0) :=
  fun h => h.1 (by decide)

section Scan

variable {s : Fs} {ip : ISlot} {name : List UInt8} {E : Halt → Fs → Prop}

theorem wp_dirScan_skip {Q : Option (Nat × Nat) → Fs → Prop} {pre post : List Nat}
    (de : Nat → List UInt8)
    (hread : ∀ o ∈ pre, ∀ Q : List UInt8 → Fs → Prop, Q (de o) s →
      wp (readDirent "dirlink read" ip o) Q E s)
    (hpre : ∀ o ∈ pre, ¬ Hits name (de o)) (hrest : wp (dirScan ip name post) Q E s) :
    wp (dirScan ip name (pre ++ post)) Q E s := by
  induction pre with
  | nil => exact hrest
  | cons o pre ih =>
    refine wp_seq (hread o mem_cons_self _ ?_)
    refine wp_ite (fun hhit => absurd hhit (hpre o mem_cons_self)) fun _ => ?_
    exact ih (fun o' ho' => hread o' (mem_cons_of_mem _ ho'))
      fun o' ho' => hpre o' (mem_cons_of_mem _ ho')

theorem wp_readDirent_place {Q : List UInt8 → Fs → Prop}
    (htype : (s.inode ip).copy.type = T_DIR)
    (hsize : DIRENT * j + DIRENT ≤ (s.inode ip).copy.size.toNat)
    (hmax : (s.inode ip).copy.size.toNat ≤ MAXFILE * BSIZE)
    (hplace : place s.disk (s.inode ip).copy (j / 32) ≠ 0)
    (hQ : Q ((range DIRENT).map fun t => get
      (s.disk (place s.disk (s.inode ip).copy (j / 32))) ((DIRENT * j + t) % BSIZE)) s) :
    wp (readDirent msg ip (DIRENT * j)) Q E s := by
  have hblock : ∀ x, DIRENT * j ≤ x → x < DIRENT * j + DIRENT → x / BSIZE = j / 32 := by
    intro x hlo hhi
    simp only [DIRENT, BSIZE] at *
    omega
  refine wp_seq (wp_read ?_)
  refine wp_ite (fun hdev => ?_) fun _ => wp_ite (fun hbad => ?_) fun _ => ?_
  · rw [htype] at hdev
    exact absurd hdev (by decide)
  · simp only [u32, MAXFILE, NDIRECT, NINDIRECT, BSIZE, DIRENT] at *
    omega
  · rw [if_neg (by omega)]
    refine wp_seq (wp_readLoop_places le_rfl (fun x hlo hhi => ?_) ((wp_pure _).mpr
      (wp_ite (fun hne => absurd rfl hne) fun _ => (wp_pure _).mpr ?_)))
    · rw [hblock x hlo hhi]
      refine ⟨?_, hplace⟩
      simp only [MAXFILE, NDIRECT, NINDIRECT, BSIZE, DIRENT] at *
      omega
    · have hsame : ((range DIRENT).map fun t => get (s.disk (place s.disk (s.inode ip).copy
          ((DIRENT * j + t) / BSIZE))) ((DIRENT * j + t) % BSIZE))
          = (range DIRENT).map fun t => get
            (s.disk (place s.disk (s.inode ip).copy (j / 32))) ((DIRENT * j + t) % BSIZE) := by
        refine map_congr_left fun t ht => ?_
        rw [mem_range] at ht
        rw [hblock _ (by omega) (by omega)]
      rw [hsame]
      exact hQ

end Scan

/-! ## The root directory -/

variable {files : List Source} {m : Mkfs}

structure Entered (m : Mkfs) (ip : ISlot) (s : Fs) : Prop where
  disk : s.disk = m.img
  sb : s.sb = sb
  op : s.op = some []
  self : s.inode ip = ⟨ROOTINO, 1, true, true, inode m.img ROOTINO⟩
  other : ∀ j, j ≠ ip → s.inode j = ⟨0, 0, false, false, fresh 0⟩

theorem offsets_split {j n : Nat} (hj : j ≤ 32 * n) :
    offsets 0 (n * BSIZE) = (range j).map (fun k => DIRENT * k) ++
      (range (32 * n - j)).map fun k => DIRENT * (j + k) := by
  have hcount : (n * BSIZE - 0 + DIRENT - 1) / DIRENT = j + (32 * n - j) := by
    simp only [BSIZE, DIRENT]
    omega
  rw [offsets, hcount, range_add, map_append, map_map]
  congr 1
  · refine map_congr_left fun k _ => ?_
    rw [Nat.zero_add, Nat.mul_comm]
  · refine map_congr_left fun k _ => ?_
    rw [Function.comp_apply, Nat.zero_add, Nat.mul_comm]

theorem Made.root_place (h : Made files m) {k : Nat} (hk : k < MAXFILE) :
    place m.img (inode m.img ROOTINO) k ≠ 0 ↔ k < blocks (16 * (files.length + 2)) := by
  rw [h.mapped (by decide) hk, sizes, contents_root, length_entries]

theorem Made.wp_readDirent (h : Made files m) (hfew : files.length + 2 ≤ NINODES) {s : Fs} {ip : ISlot}
    {E : Halt → Fs → Prop} (hdisk : s.disk = m.img)
    (hcopy : (s.inode ip).copy = inode m.img ROOTINO)
    (hj : j / 32 < blocks (16 * (files.length + 2))) (Q : List UInt8 → Fs → Prop)
    (hQ : Q (row files j) s) : wp (readDirent msg ip (DIRENT * j)) Q E s := by
  have hj' := hj
  rw [lt_blocks] at hj'
  simp only [NINODES, BSIZE] at hfew hj'
  have hplace := (h.root_place (k := j / 32) (by simp only [MAXFILE, NDIRECT, NINDIRECT]; omega)).mpr hj
  refine wp_readDirent_place ?_ ?_ ?_ ?_ ?_
  · rw [hcopy, h.type_eq (by decide)]
    rfl
  · rw [hcopy, h.root_size]
    simp only [DIRENT, BSIZE]
    omega
  · rw [hcopy, h.root_size]
    simp only [MAXFILE, NDIRECT, NINDIRECT, BSIZE]
    omega
  · rw [hcopy, hdisk]
    exact hplace
  · have hrow : ((range DIRENT).map fun t => get
        (m.img (place m.img (inode m.img ROOTINO) (j / 32))) ((DIRENT * j + t) % BSIZE)) = row files j := by
      refine map_congr_left fun t ht => ?_
      rw [mem_range] at ht
      have hblock : (DIRENT * j + t) / BSIZE = j / 32 := by
        simp only [DIRENT, BSIZE] at *
        omega
      have hcontent := h.books.content ROOTINO (DIRENT * j + t) (by
        rw [hblock, sizes, contents_root, length_entries]
        exact hj)
      rw [hblock, contents_root] at hcontent
      exact hcontent
    rw [hcopy, hdisk, hrow]
    exact hQ

/-! ## Looking up a name -/

section Lookup

variable {s : Fs} {ip : ISlot} {name : List UInt8} {E : Halt → Fs → Prop}

theorem wp_iget_fresh {Q : ISlot → Fs → Prop} {i : Nat}
    (hno : ∀ j, 0 < (s.inode j).ref → (s.inode j).inum ≠ i) (hfree : ∃ j, (s.inode j).ref = 0)
    (hQ : ∀ jp, (s.inode jp).ref = 0 →
      Q jp (s.setInode jp fun x => { x with inum := i, ref := 1, valid := false })) :
    wp (iget i) Q E s := by
  simp only [iget, wp_bind, wp_look]
  cases hhit : (finRange NINODE).find? fun j =>
      decide (0 < (s.inode j).ref ∧ (s.inode j).inum = i) with
  | some jp =>
    have hfound := find?_some hhit
    rw [decide_eq_true_eq] at hfound
    exact absurd hfound.2 (hno jp hfound.1)
  | none =>
    simp only [wp_bind, wp_look]
    cases hempty : (finRange NINODE).find? fun j => decide ((s.inode j).ref = 0) with
    | some jp =>
      have hfound := find?_some hempty
      rw [decide_eq_true_eq] at hfound
      exact hQ jp hfound
    | none =>
      obtain ⟨j, hj⟩ := hfree
      rw [find?_eq_none] at hempty
      exact absurd (decide_eq_true hj) (hempty j (mem_finRange j))

theorem Made.wp_dirlookup_hit {Q : Option (ISlot × Nat) → Fs → Prop} (h : Made files m)
    (hfew : files.length + 2 ≤ NINODES) (hs : Entered m ip s) {j inum : Nat} {name' : List UInt8}
    (hrow : (rows files)[j]? = some (dirent inum name')) (h0 : inum ≠ 0) (hroot : inum ≠ ROOTINO)
    (hlt : inum < 65536) (hkey : key name = key name') (hpre : ∀ j' < j, ¬ Hits name (row files j'))
    (hQ : ∀ jp, jp ≠ ip → Q (some (jp, DIRENT * j))
      (s.setInode jp fun x => { x with inum := inum, ref := 1, valid := false })) :
    wp (dirlookup ip name) Q E s := by
  have hj : j < files.length + 2 := by
    have hlt := (List.getElem?_eq_some_iff.mp hrow).1
    rwa [rows, length_cons, length_cons, length_mapIdx] at hlt
  have hmapped : ∀ j' ≤ j, j' / 32 < blocks (16 * (files.length + 2)) := by
    intro j' hle
    rw [lt_blocks]
    simp only [BSIZE]
    omega
  have hcopy : (s.inode ip).copy = inode m.img ROOTINO := by rw [hs.self]
  have hread : ∀ j' ≤ j, ∀ Q : List UInt8 → Fs → Prop, Q (row files j') s →
      wp (readDirent "dirlink read" ip (DIRENT * j')) Q E s :=
    fun j' hle => h.wp_readDirent hfew hs.disk hcopy (hmapped j' hle)
  refine wp_read (wp_ite (fun htype => ?_) fun _ => wp_seq ?_)
  · rw [hcopy, h.type_eq (by decide)] at htype
    exact absurd rfl htype
  have hsplit : 32 * ((files.length + 2) / 32 + 1) - j
      = (32 * ((files.length + 2) / 32 + 1) - j - 1) + 1 := by omega
  rw [hcopy, h.root_size, offsets_split (j := j) (by omega), hsplit, range_succ_eq_map,
    map_cons, Nat.add_zero]
  refine wp_dirScan_skip (fun o => row files (o / DIRENT)) (fun o ho Q hQ => ?_) (fun o ho => ?_)
    (wp_seq (hread j le_rfl _ (wp_ite (fun _ => ?_) fun hmiss => absurd ?_ hmiss)))
  · obtain ⟨k, hk, rfl⟩ := mem_map.mp ho
    rw [mem_range] at hk
    rw [Nat.mul_div_cancel_left k (by decide)] at hQ
    exact hread k (by omega) Q hQ
  · obtain ⟨k, hk, rfl⟩ := mem_map.mp ho
    rw [Nat.mul_div_cancel_left k (by decide)]
    exact hpre k (mem_range.mp hk)
  · rw [row_eq hrow, direntInum_dirent, Nat.mod_eq_of_lt hlt]
    refine (wp_pure _).mpr (wp_seq (wp_iget_fresh (fun k hk => ?_) ?_ fun jp hjp =>
      (wp_pure _).mpr (hQ jp ?_)))
    · by_cases hkip : k = ip
      · rw [hkip, hs.self]
        exact Ne.symm hroot
      · rw [hs.other k hkip] at hk
        exact absurd hk (by decide)
    · obtain ⟨k, hk⟩ := exists_ne ip
      exact ⟨k, by rw [hs.other k hk]⟩
    · rintro rfl
      rw [hs.self] at hjp
      exact absurd hjp one_ne_zero
  · rw [row_eq hrow]
    exact (hits_dirent h0 hlt).mpr hkey

structure Visited (ip : ISlot) (s : Fs) : Prop where
  ref : (s.inode ip).ref = 1
  locked : (s.inode ip).locked = true
  nlink : (s.inode ip).copy.nlink = 1

theorem Visited.wp_iunlockput (h : Visited ip s)
    (hQ : ∀ s', s'.disk = s.disk → s'.sb = s.sb → (∀ j, j ≠ ip → s'.inode j = s.inode j) → Q () s') :
    wp (iunlockput ip) Q E s := by
  refine wp_seq (wp_read (wp_ite (fun hbad => ?_) fun _ => ?_))
  · rw [h.locked, h.ref] at hbad
    exact absurd hbad (by decide)
  refine (wp_change _).mpr (wp_seq (wp_read (wp_ite (fun hlast => ?_) fun _ => ?_)))
  · rw [setInode_self] at hlast
    have : (s.inode ip).copy.nlink = 0 := hlast.2.2
    rw [h.nlink] at this
    exact absurd this (by decide)
  · refine (wp_pure _).mpr ((wp_change _).mpr (hQ _ rfl rfl fun j hj => ?_))
    rw [setInode_of_ne hj, setInode_of_ne hj]

theorem wp_ilock_fresh {i : Nat} {d : Dinode}
    (hself : s.inode ip = ⟨i, 1, false, false, d⟩) (htype : (s.dinodeAt i).type ≠ 0)
    (hQ : ∀ s', s'.disk = s.disk → s'.sb = s.sb → s'.op = s.op →
      s'.inode ip = ⟨i, 1, true, true, s.dinodeAt i⟩ → (∀ j, j ≠ ip → s'.inode j = s.inode j) →
      Q () s') :
    wp (ilock ip) Q E s := by
  refine wp_read ?_
  rw [hself]
  refine wp_ite (fun hbad => absurd hbad (Int.lt_irrefl 1)) fun _ =>
    wp_ite (fun hbad => by cases hbad) fun _ => ?_
  refine wp_write (wp_ite (fun hbad => by cases hbad) fun _ => ?_)
  refine wp_read (wp_write ?_)
  refine wp_ite (fun h0 => absurd h0 htype) fun _ => (wp_pure _).mpr (hQ _ rfl rfl rfl ?_ fun j hj => ?_)
  · rw [setInode_self, setInode_self, hself]
    rfl
  · rw [setInode_of_ne hj, setInode_of_ne hj]

theorem skipelem_name (hslash : slash ∉ name) (hne : name ≠ []) :
    skipelem (slash :: name) = some (name.take DIRSIZ, []) := by
  obtain ⟨c, t, rfl⟩ := exists_cons_of_ne_nil hne
  have hall : ∀ x ∈ c :: t, (x != slash) = true := by
    intro x hx
    rw [bne_iff_ne]
    rintro rfl
    exact hslash hx
  have hc : (c == slash) = false := by
    have := hall c mem_cons_self
    simpa using this
  have hdrop : (slash :: c :: t).dropWhile (· == slash) = c :: t := by
    rw [dropWhile_cons, if_pos (beq_self_eq_true slash), dropWhile_cons, if_neg (by rw [hc]; decide)]
  unfold skipelem
  rw [hdrop]
  have htake : (c :: t).takeWhile (· != slash) = c :: t := takeWhile_eq_self_iff.mpr hall
  have hrest : (c :: t).dropWhile (· != slash) = [] := dropWhile_eq_nil_iff.mpr hall
  simp only [htake, hrest, dropWhile_nil]

/-- **A path of one name** is looked up in the root directory. -/
theorem Made.wp_namei {Q : Option ISlot → Fs → Prop} (h : Made files m) {cwd : ISlot}
    (hslash : slash ∉ name) (hne : name ≠ [])
    (hlook : ∀ ip s, Entered m ip s → wp (dirlookup ip (name.take DIRSIZ)) (fun r s' => Visited ip s' ∧
      (r = none → ∀ s'', Q none s'') ∧ ∀ jp off, r = some (jp, off) → jp ≠ ip ∧
        ∀ s'', s''.disk = s'.disk → s''.sb = s'.sb → s''.inode jp = s'.inode jp → Q (some jp) s'') E s) :
    wp (namei cwd (slash :: name)) Q E (Fs.empty m.img).begun := by
  refine wp_seq (wp_seq (wp_ite (fun _ => ?_) fun hno => absurd rfl hno))
  refine wp_iget_fresh (fun j hj => absurd hj (Int.lt_irrefl 0)) ⟨0, rfl⟩ fun ip _ => ?_
  generalize hs1 : ((Fs.empty m.img).begun.setInode ip fun x =>
    { x with inum := ROOTINO, ref := 1, valid := false }) = s1
  have hself1 : s1.inode ip = ⟨ROOTINO, 1, false, false, fresh 0⟩ := by
    rw [← hs1, setInode_self]
    rfl
  have hother1 : ∀ j, j ≠ ip → s1.inode j = ⟨0, 0, false, false, fresh 0⟩ := by
    intro j hj
    rw [← hs1, setInode_of_ne hj]
    rfl
  have hdin : s1.dinodeAt ROOTINO = inode m.img ROOTINO := by
    rw [← hs1]
    exact h.dinodeAt_eq ROOTINO
  have htype : (inode m.img ROOTINO).type = T_DIR := by
    rw [h.type_eq (by decide)]
    rfl
  show wp (namexLoop false (name.length + 1 + 1) (slash :: name) ip) _ _ s1
  rw [namexLoop, skipelem_name hslash hne]
  refine wp_seq (wp_ilock_fresh hself1 (by rw [hdin, htype]; decide)
    fun s2 hdisk2 hsb2 hop2 hself2 hother2 => ?_)
  rw [hdin] at hself2
  have hs2 : Entered m ip s2 := by
    refine ⟨?_, ?_, ?_, hself2, fun j hj => by rw [hother2 j hj, hother1 j hj]⟩
    · rw [hdisk2, ← hs1]
      rfl
    · rw [hsb2, ← hs1]
      exact h.sb_eq
    · rw [hop2, ← hs1]
      rfl
  refine wp_read (wp_ite (fun hbad => ?_) fun _ => ?_)
  · rw [hself2] at hbad
    exact absurd htype hbad
  refine wp_ite (fun hbad => by cases hbad.1) fun _ => ?_
  refine wp_seq (wp_mono (hlook ip s2 hs2) (fun r s3 h3 => ?_) fun _ _ h => h)
  obtain ⟨hvisited, hnone, hsome⟩ := h3
  cases r with
  | none =>
    exact wp_seq (hvisited.wp_iunlockput fun s4 _ _ _ => (wp_pure _).mpr
      ((wp_pure _).mpr (hnone rfl s4)))
  | some r =>
    obtain ⟨hjp, hQ⟩ := hsome r.1 r.2 rfl
    refine wp_seq (hvisited.wp_iunlockput fun s4 hdisk4 hsb4 hother4 => ?_)
    exact hQ s4 hdisk4 hsb4 (hother4 r.1 hjp)

/-! ## The hole -/

theorem wp_logWrite_op {b : Nat} {data : Block} {l : List Nat} (hop : s.op = some l)
    (hQ : Q () { s with disk := Function.update s.disk b data, op := some (b :: l) }) :
    wp (logWrite b data) Q E s := by
  refine wp_write (wp_read ?_)
  rw [hop]
  exact hQ

theorem Made.wp_balloc {Q : Nat → Fs → Prop} (h : Made files m) (hdisk : s.disk = m.img)
    (hsb : s.sb = sb) (hop : s.op.isSome)
    (hfull : m.freeblock = FSSIZE → E (.panic "balloc: out of blocks") s)
    (hQ : ∀ b s', nmeta ≤ b → b < FSSIZE → s'.disk b = zero → s'.inode = s.inode → Q b s') :
    wp Xv6.balloc Q E s := by
  have hstarts : bitmapStarts sb.size = [0] := by decide
  obtain ⟨l, hl⟩ := Option.isSome_iff_exists.mp hop
  refine wp_read ?_
  rw [hsb, hstarts]
  refine wp_read (wp_read ?_)
  have hbitmap : s.disk (s.sb.bblock 0) = bitmap m.freeblock := by
    rw [hsb, hdisk]
    exact h.bitmap
  rw [hbitmap, hsb]
  have hbit : ∀ b, bit (bitmap m.freeblock) b = decide (b < m.freeblock) :=
    bit_bitmap (h.freeblock.trans (by decide))
  cases hfind : (range (min BPB (sb.size - 0))).find? fun bi =>
      !bit (bitmap m.freeblock) bi with
  | none =>
    refine hfull (Nat.le_antisymm h.freeblock ?_)
    have hlast := find?_eq_none.mp hfind 999 (mem_range.mpr (by decide))
    rw [hbit, Bool.not_eq_true', decide_eq_false_iff_not] at hlast
    simp only [FSSIZE]
    omega
  | some bi =>
    have hfree := find?_some hfind
    have hlt := mem_range.mp (mem_of_find?_eq_some hfind)
    have hlt' : bi < 1000 := hlt
    rw [hbit, Bool.not_eq_true', decide_eq_false_iff_not] at hfree
    have hlo := h.books.lo
    simp only [Nat.zero_add]
    refine wp_write (wp_seq (wp_logWrite_op hl ?_))
    refine wp_seq (wp_logWrite_op rfl ((wp_pure _).mpr (hQ bi _ (by omega) hlt' ?_ rfl)))
    exact Function.update_self ..

structure Behind (files : List Source) (m : Mkfs) (ip : ISlot) (s : Fs) : Prop extends
    Visited ip s where
  type : (s.inode ip).copy.type = T_DIR
  size : (s.inode ip).copy.size.toNat = ((files.length + 2) / 32 + 1) * BSIZE
  zero : ∃ b, (s.inode ip).copy.addr ((files.length + 2) / 32) = b ∧ b ≠ 0 ∧ s.disk b = zero

theorem Behind.wp_readDirent (h : Behind files m ip s) (hfew : files.length + 2 ≤ NINODES) (hj : j / 32 = (files.length + 2) / 32)
    (Q : List UInt8 → Fs → Prop) (hQ : Q (replicate DIRENT 0) s) :
    wp (readDirent msg ip (DIRENT * j)) Q E s := by
  obtain ⟨b, haddr, hne, hzero⟩ := h.zero
  have hplace : place s.disk (s.inode ip).copy (j / 32) = b := by
    rw [hj, place_direct, haddr]
    simp only [NINODES] at hfew
    simp only [NDIRECT]
    omega
  simp only [NINODES] at hfew
  refine wp_readDirent_place h.type ?_ ?_ (by rw [hplace]; exact hne) ?_
  · rw [h.size]
    simp only [DIRENT, BSIZE]
    omega
  · rw [h.size]
    simp only [MAXFILE, NDIRECT, NINDIRECT, BSIZE]
    omega
  · rw [hplace, hzero]
    simp only [get_zero]
    exact hQ

theorem Made.wp_readDirent_hole {Q : List UInt8 → Fs → Prop} (h : Made files m)
    (hfew : files.length + 2 ≤ NINODES) (hs : Entered m ip s) (hfull : (files.length + 2) % 32 = 0) (hj : j / 32 = (files.length + 2) / 32)
    (hE : m.freeblock = FSSIZE → E (.panic "balloc: out of blocks") s)
    (hQ : ∀ s', Behind files m ip s' → Q (replicate DIRENT 0) s') :
    wp (readDirent msg ip (DIRENT * j)) Q E s := by
  have hcopy : (s.inode ip).copy = inode m.img ROOTINO := by rw [hs.self]
  have htype : (inode m.img ROOTINO).type = T_DIR := by
    rw [h.type_eq (by decide)]
    rfl
  simp only [NINODES] at hfew
  have hdirect : (files.length + 2) / 32 < NDIRECT := by
    simp only [NDIRECT]
    omega
  have hblock : DIRENT * j / BSIZE = (files.length + 2) / 32 := by
    simp only [DIRENT, BSIZE]
    omega
  have hpiece : min DIRENT (BSIZE - DIRENT * j % BSIZE) = DIRENT := by
    simp only [DIRENT, BSIZE]
    omega
  -- mkfs has not allocated the block
  have haddr : (inode m.img ROOTINO).addr ((files.length + 2) / 32) = 0 := by
    have hplace := h.root_place (k := (files.length + 2) / 32) (by simp only [MAXFILE]; omega)
    rw [place_direct hdirect, lt_blocks] at hplace
    by_contra hne
    have := hplace.mp hne
    simp only [BSIZE] at this
    omega
  have hroot := h.root_size
  refine wp_seq (wp_read ?_)
  rw [hcopy]
  refine wp_ite (fun hdev => ?_) fun _ => wp_ite (fun hbad => ?_) fun _ => ?_
  · rw [htype] at hdev
    exact absurd hdev (by decide)
  · rw [hroot] at hbad
    simp only [u32, BSIZE, DIRENT] at hbad
    omega
  rw [if_neg (by rw [hroot]; simp only [BSIZE, DIRENT]; omega)]
  refine wp_seq ?_
  rw [readLoop, if_neg (by decide), hblock, hpiece, bmap, if_pos hdirect]
  refine wp_seq (wp_read ?_)
  rw [hcopy]
  refine wp_ite (fun _ => ?_) fun hne => absurd haddr hne
  refine wp_seq (h.wp_balloc hs.disk hs.sb (by rw [hs.op]; rfl) hE
    fun b s1 hlo hhi hzero hinode => ?_)
  refine wp_write ((wp_pure _).mpr (wp_read ?_))
  have hself : ((s1.setCopy ip fun d => d.setAddr ((files.length + 2) / 32) b).inode ip)
      = ⟨ROOTINO, 1, true, true, (inode m.img ROOTINO).setAddr ((files.length + 2) / 32) b⟩ := by
    rw [setCopy, setInode_self, hinode, hs.self]
  have hbytes : slice (s1.disk b) (DIRENT * j % BSIZE) DIRENT ++ [] = replicate DIRENT 0 := by
    rw [hzero, append_nil, slice]
    simp only [get_zero]
    rfl
  refine wp_seq ?_
  rw [Nat.sub_self, readLoop, if_pos rfl]
  refine (wp_pure _).mpr ((wp_pure _).mpr ((wp_pure _).mpr (wp_ite (fun hbad => absurd rfl hbad)
    fun _ => (wp_pure _).mpr ?_)))
  have hdisk : (s1.setCopy ip fun d => d.setAddr ((files.length + 2) / 32) b).disk = s1.disk := rfl
  rw [hdisk, hbytes]
  have hnlink : (inode m.img ROOTINO).nlink = 1 := by
    rw [h.nlink_eq (by decide)]
    rfl
  have hb : b < 2 ^ 32 := by
    simp only [FSSIZE] at hhi
    omega
  refine hQ _ ⟨⟨?_, ?_, ?_⟩, ?_, ?_, b, ?_, ?_, hzero⟩
  · rw [hself]
  · rw [hself]
  · rw [hself]
    exact hnlink
  · rw [hself]
    exact htype
  · rw [hself]
    exact hroot
  · rw [hself]
    exact addr_setAddr_self _ (by omega) hb
  · rw [nmeta_eq] at hlo
    omega

/-- **A name that is not in the directory** is not found. -/
theorem Made.wp_dirlookup_miss {Q : Option (ISlot × Nat) → Fs → Prop} (h : Made files m)
    (hfew : files.length + 2 ≤ NINODES) (hs : Entered m ip s)
    (hno : ∀ j, ¬ Hits name (row files j))
    (hE : (files.length + 2) % 32 = 0 → m.freeblock = FSSIZE → E (.panic "balloc: out of blocks") s)
    (hQ : ∀ s', Visited ip s' → Q none s') : wp (dirlookup ip name) Q E s := by
  have hcopy : (s.inode ip).copy = inode m.img ROOTINO := by rw [hs.self]
  have hvisited : Visited ip s := by
    refine ⟨by rw [hs.self], by rw [hs.self], ?_⟩
    rw [hcopy, h.nlink_eq (by decide)]
    rfl
  refine wp_read (wp_ite (fun htype => ?_) fun _ => wp_seq ?_)
  · rw [hcopy, h.type_eq (by decide)] at htype
    exact absurd rfl htype
  rw [hcopy, h.root_size]
  -- the entries in the blocks that mkfs has allocated
  have hskip : ∀ n (post : List Nat) (Q' : Option (Nat × Nat) → Fs → Prop),
      (∀ k < n, k / 32 < blocks (16 * (files.length + 2))) → wp (dirScan ip name post) Q' E s →
      wp (dirScan ip name ((range n).map (fun k => DIRENT * k) ++ post)) Q' E s := by
    intro n post Q' hmapped hpost
    refine wp_dirScan_skip (fun o => row files (o / DIRENT)) (fun o ho Q hQ => ?_)
      (fun o _ => hno _) hpost
    obtain ⟨k, hk, rfl⟩ := mem_map.mp ho
    rw [Nat.mul_div_cancel_left k (by decide)] at hQ
    exact h.wp_readDirent hfew hs.disk hcopy (hmapped k (mem_range.mp hk)) Q hQ
  by_cases hfull : (files.length + 2) % 32 = 0
  · have hcount : 32 * ((files.length + 2) / 32 + 1) - (files.length + 2) = 31 + 1 := by omega
    have hbehind : (range (31 + 1)).map (fun k => DIRENT * (files.length + 2 + k))
        = DIRENT * (files.length + 2) ::
          (range 31).map fun k => DIRENT * (files.length + 2 + (k + 1)) := by
      rw [range_succ_eq_map, map_cons, map_map]
      rfl
    rw [offsets_split (j := files.length + 2) (by omega), hcount, hbehind]
    refine hskip _ _ _ (fun k hk => ?_) ?_
    · rw [lt_blocks]
      simp only [BSIZE]
      omega
    · refine wp_seq (h.wp_readDirent_hole hfew hs hfull rfl (hE hfull) fun s1 h1 =>
        wp_ite (fun hhit => absurd hhit (not_hits_zero name)) fun _ => ?_)
      -- the block is there now
      rw [← append_nil (map _ _)]
      refine wp_dirScan_skip (fun _ => replicate DIRENT 0) (fun o ho => ?_)
        (fun _ _ => not_hits_zero name) ((wp_pure _).mpr ((wp_pure _).mpr (hQ s1 h1.toVisited)))
      obtain ⟨k, hk, rfl⟩ := mem_map.mp ho
      rw [mem_range] at hk
      exact h1.wp_readDirent hfew (by omega)
  · rw [offsets_split (j := 32 * ((files.length + 2) / 32 + 1)) le_rfl, Nat.sub_self]
    refine hskip _ _ _ (fun k hk => ?_) ((wp_pure _).mpr ((wp_pure _).mpr (hQ s hvisited)))
    rw [lt_blocks]
    simp only [BSIZE]
    omega

end Lookup

/-! ## mkfs and the kernel agree -/

def shown (f : Source) : List UInt8 := skipUnderscore f.name

theorem mem_of_mem_skipUnderscore {c : UInt8} {name : List UInt8} (h : c ∈ skipUnderscore name) :
    c ∈ name := by
  cases name with
  | nil => exact h
  | cons d name =>
    by_cases hd : d = underscore
    · rw [skipUnderscore, if_pos hd] at h
      exact mem_cons_of_mem _ h
    · rw [skipUnderscore, if_neg hd] at h
      exact h

/-- The names that may be given to mkfs: strings that name something, and that
    differ in the bytes that are stored. -/
structure Named (files : List Source) : Prop where
  nul : ∀ f ∈ files, (0 : UInt8) ∉ shown f
  ne_nil : ∀ f ∈ files, shown f ≠ []
  ne_dot : ∀ f ∈ files, shown f ≠ [dot]
  ne_dots : ∀ f ∈ files, shown f ≠ [dot, dot]
  distinct : (files.map fun f => (shown f).take DIRSIZ).Nodup

theorem key_of_nul {name : List UInt8} (h : (0 : UInt8) ∉ name) : key name = name.take DIRSIZ := by
  have hall : ∀ x ∈ name, (x != 0) = true := by
    intro x hx
    rw [bne_iff_ne]
    rintro rfl
    exact h hx
  rw [key, strKey, takeWhile_eq_self_iff.mpr hall]

theorem key_take {name : List UInt8} (h : (0 : UInt8) ∉ name) :
    key (name.take DIRSIZ) = name.take DIRSIZ := by
  rw [key_of_nul fun hx => h (mem_of_mem_take hx), take_take, Nat.min_self]

theorem eq_of_take {name name' : List UInt8} (hlen : name'.length < DIRSIZ)
    (h : name.take DIRSIZ = name') : name = name' := by
  have hname : name.length < DIRSIZ := by
    have := congrArg length h
    rw [length_take] at this
    omega
  rwa [take_of_length_le (by omega)] at h

theorem rows_file {files : List Source} {k : Nat} {f : Source} (hk : files[k]? = some f) :
    (rows files)[k + 2]? = some (dirent (k + 2) (shown f)) := by
  rw [rows, List.getElem?_cons_succ, List.getElem?_cons_succ, List.getElem?_mapIdx, hk]
  rfl

theorem hits_row {name : List UInt8} (hnamed : Named files)
    (hfew : files.length + 2 ≤ NINODES) (hnul : (0 : UInt8) ∉ name) (hdot : name ≠ [dot])
    (hdots : name ≠ [dot, dot]) (hhit : Hits (name.take DIRSIZ) (row files j)) :
    ∃ k f, j = k + 2 ∧ files[k]? = some f ∧ (shown f).take DIRSIZ = name.take DIRSIZ := by
  match j with
  | 0 =>
    rw [row_eq (r := dirent ROOTINO [dot]) rfl, hits_dirent (by decide) (by decide), key_take hnul] at hhit
    exact absurd (eq_of_take (by decide) hhit) hdot
  | 1 =>
    rw [row_eq (r := dirent ROOTINO [dot, dot]) rfl, hits_dirent (by decide) (by decide),
      key_take hnul] at hhit
    exact absurd (eq_of_take (by decide) hhit) hdots
  | k + 2 =>
    cases hf : files[k]? with
    | none =>
      rw [List.getElem?_eq_none_iff] at hf
      rw [row_beyond (by omega)] at hhit
      exact absurd hhit (not_hits_zero _)
    | some f =>
      have hlt := (List.getElem?_eq_some_iff.mp hf).1
      have hmem : f ∈ files := mem_of_getElem? hf
      simp only [NINODES] at hfew
      rw [row_eq (rows_file hf), hits_dirent (by omega) (by omega), key_take hnul,
        key_of_nul (hnamed.nul f hmem)] at hhit
      exact ⟨k, f, rfl, hf, hhit.symm⟩

section File

variable (h : Made files m) (hfew : files.length + 2 ≤ NINODES) {k : Nat} {f : Source}
  (hk : files[k]? = some f)

include h hfew hk

theorem Made.namei_file (hnamed : Named files) (hslash : slash ∉ f.name) (cwd : ISlot) :
    ∃ ip s1, namei cwd (slash :: shown f) (Fs.empty m.img).begun = .ok (some ip) s1 ∧
      s1.disk = m.img ∧ s1.sb = sb ∧ s1.inode ip = ⟨k + 2, 1, false, false, fresh 0⟩ := by
  have hmem : f ∈ files := mem_of_getElem? hk
  have hlt := (List.getElem?_eq_some_iff.mp hk).1
  have hnul := hnamed.nul f hmem
  have hshown : slash ∉ shown f := fun hx => hslash (mem_of_mem_skipUnderscore hx)
  have hwp : wp (namei cwd (slash :: shown f)) (fun r s1 => ∃ ip, r = some ip ∧ s1.disk = m.img ∧
      s1.sb = sb ∧ s1.inode ip = ⟨k + 2, 1, false, false, fresh 0⟩) (fun _ _ => False)
      (Fs.empty m.img).begun := by
    refine h.wp_namei hshown (hnamed.ne_nil f hmem) fun ip s hs => h.wp_dirlookup_hit hfew hs
      (rows_file hk) (by omega) (by simp only [ROOTINO]; omega) (by simp only [NINODES] at hfew; omega)
      ?_ (fun j hj hhit => ?_) fun jp hjp => ⟨?_, (fun hr => by cases hr), fun jp' off hr => ?_⟩
    · rw [key_take hnul, key_of_nul hnul]
    · -- an earlier file has another name
      obtain ⟨k', f', rfl, hk', htake⟩ := hits_row hnamed hfew hnul (hnamed.ne_dot f hmem)
        (hnamed.ne_dots f hmem) hhit
      refine nodup_iff_getElem?_ne_getElem?.mp hnamed.distinct k' k (by omega)
        (by rw [length_map]; exact hlt) ?_
      rw [List.getElem?_map, List.getElem?_map, hk', hk, Option.map_some, Option.map_some, htake]
    · have hroot : (s.setInode jp fun x => { x with inum := k + 2, ref := 1, valid := false }).inode ip
          = ⟨ROOTINO, 1, true, true, inode m.img ROOTINO⟩ := by
        rw [setInode_of_ne hjp.symm, hs.self]
      refine ⟨by rw [hroot], by rw [hroot], ?_⟩
      rw [hroot, h.nlink_eq (by decide)]
      rfl
    · obtain ⟨rfl, -⟩ := Prod.mk.inj (Option.some.inj hr)
      refine ⟨hjp, fun s'' hdisk hsb hinode => ⟨jp, rfl, hdisk.trans hs.disk, hsb.trans hs.sb, ?_⟩⟩
      rw [hinode, setInode_self, hs.other jp hjp]
  obtain ⟨r, s1, hrun, ip, rfl, hrest⟩ := exists_ok hwp
  exact ⟨ip, s1, hrun, hrest⟩

theorem Made.ilock_file {ip : ISlot} {s1 : Fs} (hdisk : s1.disk = m.img) (hsb : s1.sb = sb)
    (hself : s1.inode ip = ⟨k + 2, 1, false, false, fresh 0⟩) : ∃ s2, ilock ip s1 = .ok () s2 ∧
    s2.disk = m.img ∧ s2.inode ip = ⟨k + 2, 1, true, true, inode m.img (k + 2)⟩ := by
  have hlt := (List.getElem?_eq_some_iff.mp hk).1
  have hdin : s1.dinodeAt (k + 2) = inode m.img (k + 2) := by
    rw [dinodeAt, hsb, hdisk]
    rfl
  have htype : (s1.dinodeAt (k + 2)).type ≠ 0 := by
    rw [hdin, h.type_eq (by omega)]
    exact types_ne_zero (by simp only [ROOTINO]; omega) (by omega)
  have hwp : wp (ilock ip) (fun _ s2 => s2.disk = m.img ∧
      s2.inode ip = ⟨k + 2, 1, true, true, inode m.img (k + 2)⟩) (fun _ _ => False) s1 :=
    wp_ilock_fresh hself htype fun s2 hdisk2 _ _ hself2 _ => ⟨hdisk2.trans hdisk, by rw [hself2, hdin]⟩
  obtain ⟨⟨⟩, s2, hrun, hrest⟩ := exists_ok hwp
  exact ⟨s2, hrun, hrest⟩

theorem Made.readi_file {ip : ISlot} {s2 : Fs} {bytes : List UInt8} (hbytes : f.content = some bytes)
    (hdisk : s2.disk = m.img) (hself : s2.inode ip = ⟨k + 2, 1, true, true, inode m.img (k + 2)⟩) :
    (s2.inode ip).copy.type = T_FILE ∧ (s2.inode ip).copy.nlink = 1 ∧
      (s2.inode ip).copy.size.toNat = bytes.length ∧
      ∀ dev, readi dev ip 0 (s2.inode ip).copy.size.toNat s2 = .ok ((bytes.length : Int), bytes) s2 := by
  have hlt := (List.getElem?_eq_some_iff.mp hk).1
  have hi : k + 2 < NINODES := by omega
  have hne : k + 2 ≠ ROOTINO := by
    simp only [ROOTINO]
    omega
  have hcontents : contents files (k + 2) = bytes := by
    rw [contents, if_neg hne, if_pos (by omega), Nat.add_sub_cancel, hk, Option.bind_some, hbytes]
    rfl
  have htype : (inode m.img (k + 2)).type = T_FILE := by
    rw [h.type_eq hi, types, if_neg hne, if_pos (by omega)]
  have hsize : (inode m.img (k + 2)).size.toNat = bytes.length := by
    rw [h.file_size hi hne, hcontents]
  have hdin : dinodes m.img (k + 2) = inode m.img (k + 2) := if_pos hi
  have hblock : ∀ x, x < bytes.length → x / BSIZE < sizes (contents files) (k + 2) := by
    intro x hx
    rw [sizes, hcontents, lt_blocks]
    exact Nat.lt_of_le_of_lt (Nat.div_mul_le_self _ _) hx
  have hall : ((range bytes.length).map fun t => get
      (m.img (place m.img (inode m.img (k + 2)) ((0 + t) / BSIZE))) ((0 + t) % BSIZE)) = bytes := by
    have hget : ∀ t ∈ range bytes.length, get
        (m.img (place m.img (inode m.img (k + 2)) ((0 + t) / BSIZE))) ((0 + t) % BSIZE)
        = bytes.getD (0 + t) 0 := by
      intro t ht
      rw [mem_range] at ht
      have hcontent := h.books.content (k + 2) (0 + t) (hblock _ (by omega))
      rw [places, hdin, hcontents] at hcontent
      exact hcontent
    rw [map_congr_left hget, map_getD_range bytes 0 (by omega), drop_zero, take_length]
  rw [hself]
  refine ⟨htype, ?_, hsize, fun dev => ?_⟩
  · show (inode m.img (k + 2)).nlink = 1
    rw [h.nlink_eq hi, if_neg (types_ne_zero (by simp only [ROOTINO]; omega) (by omega))]
  · show readi dev ip 0 (inode m.img (k + 2)).size.toNat s2 = _
    rw [hsize]
    have hwp : wp (readi dev ip 0 bytes.length) (fun r s' => r = ((bytes.length : Int), bytes) ∧ s' = s2)
        (fun _ _ => False) s2 := by
      refine wp_read ?_
      rw [hself]
      refine wp_ite (fun hdev => ?_) fun _ => wp_ite (fun hbad => by omega) fun _ => ?_
      · rw [htype] at hdev
        exact absurd hdev (by decide)
      rw [if_neg (by rw [hsize]; omega)]
      refine wp_seq (wp_readLoop_places le_rfl (fun x _ hx => ?_) ((wp_pure _).mpr ⟨?_, rfl⟩))
      · have hlt' := hblock x (by omega)
        have hmax := Nat.lt_of_lt_of_le hlt' (h.books.small (k + 2))
        rw [hself, hdisk]
        exact ⟨hmax, (h.mapped hi hmax).mpr hlt'⟩
      · rw [hself, hdisk, hall]
    obtain ⟨r, s', hrun, rfl, rfl⟩ := exists_ok hwp
    exact hrun

end File

/-- **mkfs and the kernel agree on the format.** -/
theorem mkfs_agrees (hread : ∀ f ∈ files, Readable f) (hnamed : Named files)
    (hfew : files.length + 2 ≤ NINODES) (hfit : Fitting (contents files)) :
    ∃ m, mkfs files = .ok () m ∧ (∀ f ∈ files, ∀ cwd, ∃ ip s₁ s₂ bytes,
        namei cwd (slash :: shown f) (Fs.empty m.img).begun = .ok (some ip) s₁ ∧
        ilock ip s₁ = .ok () s₂ ∧ (s₂.inode ip).copy.type = T_FILE ∧
        (s₂.inode ip).copy.nlink = 1 ∧ f.content = some bytes ∧
        (s₂.inode ip).copy.size.toNat = bytes.length ∧
        ∀ dev, readi dev ip 0 (s₂.inode ip).copy.size.toNat s₂ = .ok ((bytes.length : Int), bytes) s₂) ∧
      ∀ name, name ≠ [] → slash ∉ name → (0 : UInt8) ∉ name → name ≠ [dot] → name ≠ [dot, dot] →
        (∀ f ∈ files, (shown f).take DIRSIZ ≠ name.take DIRSIZ) → ∀ cwd,
        (∃ s', namei cwd (slash :: name) (Fs.empty m.img).begun = .ok none s') ∨
          ((files.length + 2) % 32 = 0 ∧ m.freeblock = FSSIZE ∧
            ∃ s', namei cwd (slash :: name) (Fs.empty m.img).begun
              = .error (.panic "balloc: out of blocks") s') := by
  obtain ⟨m, hm⟩ := mkfs_ok hread hfew hfit
  have h := made_mkfs hm hfew
  refine ⟨m, hm, fun f hf cwd => ?_, fun name hne hslash hnul hdot hdots hother cwd => ?_⟩
  · obtain ⟨k, hk⟩ := mem_iff_getElem?.mp hf
    obtain ⟨bytes, hbytes⟩ := Option.isSome_iff_exists.mp (hread f hf).2
    obtain ⟨ip, s₁, hnamei, hdisk₁, hsb₁, hself₁⟩ := h.namei_file hfew hk hnamed (hread f hf).1 cwd
    obtain ⟨s₂, hlock, hdisk₂, hself₂⟩ := h.ilock_file hfew hk hdisk₁ hsb₁ hself₁
    obtain ⟨htype, hnlink, hsize, hreadi⟩ := h.readi_file hfew hk hbytes hdisk₂ hself₂
    exact ⟨ip, s₁, s₂, bytes, hnamei, hlock, htype, hnlink, hbytes, hsize, hreadi⟩
  · have hwp : wp (namei cwd (slash :: name)) (fun r _ => r = none)
        (fun e _ => (files.length + 2) % 32 = 0 ∧ m.freeblock = FSSIZE ∧
          e = .panic "balloc: out of blocks") (Fs.empty m.img).begun := by
      refine h.wp_namei hslash hne fun ip s hs => h.wp_dirlookup_miss hfew hs (fun j hhit => ?_)
        (fun hfull hblocks => ⟨hfull, hblocks, rfl⟩) fun s' hs' => ⟨hs', fun _ _ => rfl, (fun _ _ hr => by cases hr)⟩
      obtain ⟨k, f, -, hk, htake⟩ := hits_row hnamed hfew hnul hdot hdots hhit
      exact hother f (mem_of_getElem? hk) htake
    unfold wp at hwp
    split at hwp
    · rename_i r s' hrun
      subst hwp
      exact .inl ⟨s', hrun⟩
    · rename_i e s' hrun
      obtain ⟨hfull, hblocks, rfl⟩ := hwp
      exact .inr ⟨hfull, hblocks, s', hrun⟩

/-- The program `_hi`, of three bytes. -/
def sayHi : Source := ⟨[95, 104, 105], some [1, 2, 3]⟩

theorem fitting_sayHi : Fitting (contents [sayHi]) := by
  refine ⟨?_, fun i => ?_⟩
  · unfold Fits
    decide +kernel
  · by_cases hfree : types [sayHi].length i = 0
    · rw [contents_of_free hfree]
      exact Nat.zero_le _
    · have hlt : ROOTINO ≤ i ∧ i < 3 := by
        by_contra hnot
        exact hfree (types_eq_zero hnot)
      obtain rfl | rfl : i = 1 ∨ i = 2 := by
        simp only [ROOTINO] at hlt
        omega
      all_goals decide +kernel

/-- The file is `/hi` in the image. -/
theorem hi_is_read : ∃ m, mkfs [sayHi] = .ok () m ∧ ∃ ip s₁ s₂,
    namei 0 [slash, 104, 105] (Fs.empty m.img).begun = .ok (some ip) s₁ ∧ ilock ip s₁ = .ok () s₂ ∧
    ∀ dev, readi dev ip 0 (s₂.inode ip).copy.size.toNat s₂ = .ok (3, [1, 2, 3]) s₂ := by
  have hnamed : Named [sayHi] := by
    refine ⟨?_, ?_, ?_, ?_, ?_⟩ <;> decide
  have hread : ∀ f ∈ [sayHi], Readable f := by
    intro f hf
    obtain rfl := mem_singleton.mp hf
    exact ⟨by decide, rfl⟩
  obtain ⟨m, hm, hfiles, -⟩ := mkfs_agrees hread hnamed (by decide) fitting_sayHi
  obtain ⟨ip, s₁, s₂, bytes, hnamei, hlock, -, -, hbytes, -, hreadi⟩ := hfiles sayHi mem_cons_self 0
  obtain rfl : [1, 2, 3] = bytes := Option.some.inj hbytes
  exact ⟨m, hm, ip, s₁, s₂, hnamei, hlock, hreadi⟩

end Mkfs
end Xv6
