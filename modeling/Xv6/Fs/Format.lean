/-
  Xv6.Fs.Format

  The blocks of the disk and what is in them: the header of the log, and the
  superblock, inodes, bitmap and directory entries of the file system (fs.h).

  A `short` is an `Int16`, a `uint` field of an inode a `UInt32`; both are
  stored with the low byte first.
-/

import Mathlib.Data.List.GetD
import Xv6.Fs.Log
import Xv6.Lib.Bytes

namespace Xv6

open List Bytes

abbrev BSIZE : Nat := 512

abbrev Block := Bytes BSIZE

instance : Inhabited Block := ⟨zero⟩

/-- The `i`-th `uint` of a block. -/
def word (b : Block) (i : Nat) : Nat := getLE b (4 * i) 4

def setWord (b : Block) (i v : Nat) : Block := putLE b (4 * i) 4 v

theorem word_setWord_self (b : Block) {i v : Nat} (hi : i < 128) (hv : v < 2 ^ 32) :
    word (setWord b i v) i = v := by
  unfold word setWord
  rw [getLE_putLE_self b v (by simp only [BSIZE]; omega)]
  exact Nat.mod_eq_of_lt hv

theorem word_setWord_of_ne (b : Block) {i j : Nat} (v : Nat) (h : j ≠ i) :
    word (setWord b i v) j = word b j := by
  unfold word setWord
  exact getLE_putLE_of_disjoint b v (by omega)

/-! ## The header of the log -/

/-- The value of an `int`. -/
def toInt (v : Nat) : Int := (v : Int).bmod (2 ^ 32)

theorem toInt_of_lt {v : Nat} (h : v < 2 ^ 31) : toInt v = v := by
  unfold toInt
  rw [Int.bmod_eq_of_le] <;> omega

def getHead (b : Block) : List Nat :=
  (List.range (toInt (word b 0)).toNat).map fun i => word b (i + 1)

/-- The loop of `write_head`, from word `i` on. -/
def putWords (b : Block) (i : Nat) : List Nat → Block
  | [] => b
  | v :: vs => putWords (setWord b i v) (i + 1) vs

def putHead (b : Block) (lh : List Nat) : Block := putWords (setWord b 0 lh.length) 1 lh

theorem getLE_putWords_of_outside (b : Block) {i o w : Nat} (vs : List Nat)
    (h : o + w ≤ 4 * i ∨ 4 * (i + vs.length) ≤ o) : getLE (putWords b i vs) o w = getLE b o w := by
  induction vs generalizing b i with
  | nil => rfl
  | cons v vs ih =>
    simp only [length_cons] at h
    rw [putWords, ih _ (by omega), setWord]
    exact getLE_putLE_of_disjoint b v (by omega)

theorem word_putWords_of_lt (b : Block) {i j : Nat} (vs : List Nat) (h : j < i) :
    word (putWords b i vs) j = word b j :=
  getLE_putWords_of_outside b vs (.inl (by omega))

theorem word_putWords (b : Block) {i k : Nat} {vs : List Nat} (hk : k < vs.length)
    (hfit : i + vs.length ≤ 128) (hv : ∀ v ∈ vs, v < 2 ^ 32) :
    word (putWords b i vs) (i + k) = vs[k] := by
  induction vs generalizing b i k with
  | nil => cases hk
  | cons v vs ih =>
    have hv' : ∀ x ∈ vs, x < 2 ^ 32 := fun x hx => hv x (mem_cons_of_mem v hx)
    simp only [length_cons] at hk hfit
    rw [putWords]
    cases k with
    | zero =>
      rw [Nat.add_zero, word_putWords_of_lt _ vs (by omega)]
      exact word_setWord_self b (by omega) (hv v mem_cons_self)
    | succ k =>
      have hrest := ih (setWord b i v) (i := i + 1) (k := k) (by omega) (by omega) hv'
      rw [show i + (k + 1) = i + 1 + k by omega, hrest]
      rfl

/-- **What `write_head` writes, `read_head` reads.** -/
theorem getHead_putHead (b : Block) {lh : List Nat} (hlen : lh.length ≤ LOGSIZE)
    (hlh : ∀ n ∈ lh, n < 2 ^ 32) : getHead (putHead b lh) = lh := by
  simp only [LOGSIZE, MAXOPBLOCKS] at hlen
  have hn : word (putHead b lh) 0 = lh.length := by
    unfold putHead
    rw [word_putWords_of_lt _ lh (by omega), word_setWord_self b (by omega) (by omega)]
  unfold getHead
  rw [hn, toInt_of_lt (by omega), Int.toNat_natCast]
  refine ext_getElem (by simp) fun k hk hk' => ?_
  rw [getElem_map, getElem_range, Nat.add_comm k 1]
  exact word_putWords _ hk' (by omega) hlh

-- what a header means follows from the round trip alone
attribute [irreducible] getHead putHead

def sbLog (b : Block) : Nat × Nat := (word b 3, word b 4)

/-! ## Constants -/

variable {i j k : Nat}

abbrev NDIRECT : Nat := 12

/-- The number of block addresses in an indirect block. -/
abbrev NINDIRECT : Nat := 128

abbrev MAXFILE : Nat := NDIRECT + NINDIRECT

abbrev IPB : Nat := 8

abbrev BPB : Nat := 4096

abbrev ROOTINO : Nat := 1

abbrev DIRSIZ : Nat := 14

abbrev DIRENT : Nat := 16

abbrev T_DIR : Int16 := 1
abbrev T_FILE : Int16 := 2
abbrev T_DEV : Int16 := 3

/-! ## The superblock -/

@[ext] structure Superblock where
  size : Nat
  nblocks : Nat
  ninodes : Nat
  nlog : Nat
  logstart : Nat
  inodestart : Nat
  bmapstart : Nat
deriving DecidableEq

def getSuper (b : Block) : Superblock where
  size := word b 0
  nblocks := word b 1
  ninodes := word b 2
  nlog := word b 3
  logstart := word b 4
  inodestart := word b 5
  bmapstart := word b 6

namespace Superblock

def iblock (sb : Superblock) (i : Nat) : Nat := i / IPB + sb.inodestart

/-- Block of the bitmap containing the bit for block `b`. -/
def bblock (sb : Superblock) (b : Nat) : Nat := b / BPB + sb.bmapstart

def datastart (sb : Superblock) : Nat := sb.size - sb.nblocks

end Superblock

/-! ## Inodes -/

@[ext] structure Dinode where
  type : Int16
  major : Int16
  minor : Int16
  nlink : Int16
  size : UInt32
  addrs : Fin (NDIRECT + 1) → UInt32
deriving DecidableEq

namespace Dinode

/-- `memset(dip, 0, sizeof(*dip)); dip->type = type`. -/
def fresh (type : Int16) : Dinode where
  type := type
  major := 0
  minor := 0
  nlink := 0
  size := 0
  addrs := fun _ => 0

def addr (d : Dinode) (k : Nat) : Nat := if h : k < NDIRECT + 1 then (d.addrs ⟨k, h⟩).toNat else 0

def setAddr (d : Dinode) (k v : Nat) : Dinode :=
  { d with addrs := fun i => if i.val = k then UInt32.ofNat v else d.addrs i }

theorem addr_setAddr_self (d : Dinode) {k v : Nat} (hk : k < NDIRECT + 1) (hv : v < 2 ^ 32) :
    (d.setAddr k v).addr k = v := by
  simp only [addr, setAddr, hk, dif_pos, if_true]
  rw [UInt32.toNat_ofNat', Nat.mod_eq_of_lt hv]

theorem addr_setAddr_of_ne (d : Dinode) {j k : Nat} (v : Nat) (h : j ≠ k) :
    (d.setAddr k v).addr j = d.addr j := by
  simp only [addr, setAddr, h, if_false]

@[simp] theorem addr_fresh (type : Int16) (k : Nat) : (fresh type).addr k = 0 := by
  unfold addr fresh
  split <;> rfl

end Dinode

/-- The `i`-th `short` of a block. -/
def short (b : Block) (i : Nat) : Int16 := (UInt16.ofNat (getLE b (2 * i) 2)).toInt16

def setShort (b : Block) (i : Nat) (v : Int16) : Block := putLE b (2 * i) 2 v.toUInt16.toNat

/-- `(struct dinode*)bp->data + k`. -/
def getDinode (b : Block) (k : Nat) : Dinode where
  type := short b (32 * k)
  major := short b (32 * k + 1)
  minor := short b (32 * k + 2)
  nlink := short b (32 * k + 3)
  size := UInt32.ofNat (word b (16 * k + 2))
  addrs := fun i => UInt32.ofNat (word b (16 * k + 3 + i.val))

def Dinode.words (d : Dinode) : List Nat := d.size.toNat :: List.ofFn fun i => (d.addrs i).toNat

/-- The first four fields of an inode. -/
def putShorts (b : Block) (k : Nat) (d : Dinode) : Block :=
  let b := setShort b (32 * k) d.type
  let b := setShort b (32 * k + 1) d.major
  let b := setShort b (32 * k + 2) d.minor
  setShort b (32 * k + 3) d.nlink

def putDinode (b : Block) (k : Nat) (d : Dinode) : Block :=
  putWords (putShorts b k d) (16 * k + 2) d.words

theorem short_setShort_self (b : Block) (v : Int16) (hi : i < 256) :
    short (setShort b i v) i = v := by
  have hlt : v.toUInt16.toNat < 256 ^ 2 := UInt16.toNat_lt _
  unfold short setShort
  rw [getLE_putLE_self b _ (by simp only [BSIZE]; omega), Nat.mod_eq_of_lt hlt,
    UInt16.ofNat_toNat]
  exact Int16.toInt16_toUInt16 v

theorem short_setShort_of_ne (b : Block) (v : Int16) (h : j ≠ i) :
    short (setShort b i v) j = short b j := by
  unfold short setShort
  rw [getLE_putLE_of_disjoint b _ (by omega)]

theorem short_putWords (b : Block) (vs : List Nat)
    (h : 2 * j + 2 ≤ 4 * i ∨ 4 * (i + vs.length) ≤ 2 * j) :
    short (putWords b i vs) j = short b j := by
  unfold short
  rw [getLE_putWords_of_outside b vs h]

namespace Dinode

@[simp] theorem length_words (d : Dinode) : d.words.length = 14 := by
  simp [words]

theorem words_lt (d : Dinode) : ∀ v ∈ d.words, v < 2 ^ 32 := by
  intro v hv
  rcases mem_cons.mp hv with rfl | hv
  · exact UInt32.toNat_lt _
  · obtain ⟨i, rfl⟩ := (mem_ofFn' _ _).mp hv
    exact UInt32.toNat_lt _

end Dinode

namespace Dinode

theorem getD_words_succ (d : Dinode) (i : Fin (NDIRECT + 1)) :
    d.words.getD (i.val + 1) 0 = (d.addrs i).toNat := by
  have hi : i.val < (List.ofFn fun i => (d.addrs i).toNat).length := by
    rw [List.length_ofFn]
    exact i.isLt
  rw [words, List.getD_cons_succ, List.getD_eq_getElem _ _ hi, List.getElem_ofFn]

end Dinode

theorem word_putDinode (b : Block) (d : Dinode) (hk : k < IPB) (hi : i < 14) :
    word (putDinode b k d) (16 * k + 2 + i) = d.words.getD i 0 := by
  have hlen : i < d.words.length := by
    rw [Dinode.length_words]
    exact hi
  simp only [IPB] at hk
  rw [List.getD_eq_getElem _ _ hlen, putDinode]
  exact word_putWords (putShorts b k d) hlen (by rw [Dinode.length_words]; omega) d.words_lt

/-- **What `iupdate` writes, `ilock` reads.** -/
theorem getDinode_putDinode_self (b : Block) (d : Dinode) (hk : k < IPB) :
    getDinode (putDinode b k d) k = d := by
  have hk' : k < 8 := hk
  ext1
  case size =>
    show UInt32.ofNat (word (putDinode b k d) (16 * k + 2)) = d.size
    have hword := word_putDinode b (i := 0) d hk (by omega)
    rw [show 16 * k + 2 = 16 * k + 2 + 0 by omega, hword]
    exact UInt32.ofNat_toNat
  case addrs =>
    funext i
    have hi : i.val < 13 := i.isLt
    show UInt32.ofNat (word (putDinode b k d) (16 * k + 3 + i.val)) = d.addrs i
    have hword := word_putDinode b (i := i.val + 1) d hk (by omega)
    rw [show 16 * k + 3 + i.val = 16 * k + 2 + (i.val + 1) by omega, hword, d.getD_words_succ]
    exact UInt32.ofNat_toNat
  -- the shorts are stored one after the other, and the words behind them
  all_goals
    unfold getDinode putDinode
    simp only
    rw [short_putWords _ _ (by omega)]
    unfold putShorts
    simp only
  · rw [short_setShort_of_ne _ _ (by omega), short_setShort_of_ne _ _ (by omega),
      short_setShort_of_ne _ _ (by omega), short_setShort_self _ _ (by omega)]
  · rw [short_setShort_of_ne _ _ (by omega), short_setShort_of_ne _ _ (by omega),
      short_setShort_self _ _ (by omega)]
  · rw [short_setShort_of_ne _ _ (by omega), short_setShort_self _ _ (by omega)]
  · rw [short_setShort_self _ _ (by omega)]

theorem getLE_putDinode_of_outside (b : Block) {o w : Nat} (d : Dinode)
    (h : o + w ≤ 64 * k ∨ 64 * k + 64 ≤ o) : getLE (putDinode b k d) o w = getLE b o w := by
  rw [putDinode, getLE_putWords_of_outside _ _ (by simp only [Dinode.length_words]; omega)]
  simp only [putShorts, setShort]
  rw [getLE_putLE_of_disjoint _ _ (by omega), getLE_putLE_of_disjoint _ _ (by omega),
    getLE_putLE_of_disjoint _ _ (by omega), getLE_putLE_of_disjoint _ _ (by omega)]

theorem getDinode_putDinode_of_ne (b : Block) (d : Dinode) (h : j ≠ k) :
    getDinode (putDinode b k d) j = getDinode b j := by
  unfold getDinode
  ext1
  case addrs =>
    funext i
    have hi : i.val < 13 := i.isLt
    simp only [word]
    rw [getLE_putDinode_of_outside b d (by omega)]
  case size =>
    simp only [word]
    rw [getLE_putDinode_of_outside b d (by omega)]
  all_goals
    simp only [short]
    rw [getLE_putDinode_of_outside b d (by omega)]

attribute [irreducible] getDinode putDinode

/-- **A block of inodes is an array.**  Whatever inodes `iupdate` writes to a block, one after the
    other, `ilock` reads in every place the last one written there, or what was there before. -/
theorem inode_block_is_array (b : Block) (ws : List (Fin IPB × Dinode)) :
    (fun j : Fin IPB => getDinode (ws.foldl (fun b w => putDinode b w.1 w.2) b) j)
      = ws.foldl (fun m w => Function.update m w.1 w.2) fun j : Fin IPB => getDinode b j := by
  induction ws generalizing b with
  | nil => rfl
  | cons w ws ih =>
    rw [foldl_cons, foldl_cons, ih]
    congr 1
    funext j
    by_cases hj : j = w.1
    · rw [hj, Function.update_self, getDinode_putDinode_self b w.2 w.1.isLt]
    · rw [Function.update_of_ne hj, getDinode_putDinode_of_ne b w.2 (Fin.val_ne_of_ne hj)]

/-! ## Directory entries -/

def direntInum (de : List UInt8) : Nat := (de.getD 0 0).toNat + 256 * (de.getD 1 0).toNat

def direntName (de : List UInt8) : List UInt8 := de.drop 2

/-- A byte string in C ends before its first zero byte. -/
def strncmp : Nat → List UInt8 → List UInt8 → Int
  | 0, _, _ => 0
  | n + 1, p, q =>
    if p.headD 0 ≠ 0 ∧ p.headD 0 = q.headD 0 then strncmp n p.tail q.tail
    else (p.headD 0).toNat - (q.headD 0).toNat

/-- The `n` bytes `strncpy` stores. -/
def strncpy : Nat → List UInt8 → List UInt8
  | 0, _ => []
  | n + 1, t =>
    if t.headD 0 = 0 then replicate (n + 1) 0 else t.headD 0 :: strncpy n t.tail

def dirent (inum : Nat) (name : List UInt8) : List UInt8 :=
  UInt8.ofNat (inum % 256) :: UInt8.ofNat (inum / 256 % 256) :: strncpy DIRSIZ name

@[simp] theorem length_strncpy (n : Nat) (t : List UInt8) : (strncpy n t).length = n := by
  induction n generalizing t with
  | zero => rfl
  | succ n ih =>
    unfold strncpy
    split
    · simp
    · simp [ih]

@[simp] theorem length_dirent (inum : Nat) (name : List UInt8) :
    (dirent inum name).length = DIRENT := by
  simp [dirent]

theorem direntInum_dirent (inum : Nat) (name : List UInt8) :
    direntInum (dirent inum name) = inum % 65536 := by
  simp only [direntInum, dirent, getD_cons_zero, List.getD_cons_succ, UInt8.toNat_ofNat']
  omega

end Xv6
