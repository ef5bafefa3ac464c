/-
  Xv6.Fs.Image

  Disk images.

  The state before anything is read in satisfies the invariant if the image is
  well-formed.  `mkfsImage` is what mkfs makes with one file: block 32 holds the
  inodes of the root directory and of the file, block 59 the entries of the root
  directory, and the eleven blocks from 60 on belong to the file.
-/

import Xv6.Fs.ReadWrite

namespace Xv6

open Fs Superblock

/-! ## Well-formed images -/

/-- The blocks marked in the bitmap are the metadata and the blocks of the
    allocated inodes, each referred to once, and the inodes have no holes. -/
def WellFormed (disk : Nat → Block) : Prop := (Fs.empty disk).Inv (fun _ => 0) none

namespace Fs

variable {s : Fs} {ip : ISlot} {i : Nat}

def withInode (s : Fs) (ip : ISlot) (i : Nat) : Fs :=
  s.setInode ip fun _ => ⟨i, 1, true, true, s.dinodeAt i⟩

theorem withInode_inode : (s.withInode ip i).inode ip = ⟨i, 1, true, true, s.dinodeAt i⟩ := by
  rw [withInode]
  exact Function.update_self ..

theorem Inv.withInode (ip : ISlot) (h : s.Inv (fun _ => 0) none) (hi : i < s.sb.ninodes)
    (ht : (s.dinodeAt i).type ≠ 0) :
    (s.withInode ip i).Inv (plus (fun _ => 0) ip) none ∧ (s.withInode ip i).node = s.node :=
  h.of_slots (h.slots.set (fun j hj => plus_of_ne hj) (by simp)
    (fun _ j _ hj => absurd hj (Nat.lt_irrefl 0)) fun _ _ => ⟨hi, rfl, ht⟩) rfl rfl rfl

end Fs

/-! ## An image -/

namespace Image

def super : Block := fun i =>
  match i.val with
  | 0 => 232
  | 1 => 3
  | 4 => 173
  | 5 => 3
  | 8 => 200
  | 12 => 30
  | 16 => 2
  | 20 => 32
  | 24 => 58
  | _ => 0

def inodes : Block := fun i =>
  match i.val with
  | 64 => 1
  | 70 => 1
  | 73 => 2
  | 76 => 59
  | 128 => 2
  | 134 => 1
  | 137 => 22
  | n => if 140 ≤ n ∧ n < 184 ∧ n % 4 = 0 then UInt8.ofNat (60 + (n - 140) / 4) else 0

/-- The first 71 blocks are in use. -/
def bitmap : Block := fun i => if i.val < 8 then 255 else if i.val = 8 then 127 else 0

/-- ".", ".." and "f". -/
def root : Block := fun i =>
  match i.val with
  | 0 => 1
  | 2 => 46
  | 16 => 1
  | 18 => 46
  | 19 => 46
  | 32 => 2
  | 34 => 102
  | _ => 0

end Image

def mkfsImage : Nat → Block := fun b =>
  match b with
  | 1 => Image.super
  | 32 => Image.inodes
  | 58 => Image.bitmap
  | 59 => Image.root
  | _ => Bytes.zero

namespace Image

theorem sb_eq : getSuper (mkfsImage 1) = ⟨1000, 941, 200, 30, 2, 32, 58⟩ := by decide +kernel

theorem root_type : ((Fs.empty mkfsImage).dinodeAt 1).type = T_DIR := by decide +kernel

theorem type_eq_zero : ∀ i < 200, i ≠ 1 → i ≠ 2 →
    ((Fs.empty mkfsImage).dinodeAt i).type = 0 := by decide +kernel

theorem bitOf_eq : ∀ b < 1000, (Fs.empty mkfsImage).bitOf b = decide (b < 71) := by decide +kernel

theorem place_of_direct (disk : Nat → Block) {d : Dinode} (h : d.addr NDIRECT = 0) (k : Nat) :
    place disk d k = if k < NDIRECT then d.addr k else 0 := by
  unfold place listed
  rw [h]
  simp

theorem cur_eq (i : Nat) : (Fs.empty mkfsImage).cur i = (Fs.empty mkfsImage).dinodeAt i :=
  cur_of_idle fun _ hlive => absurd hlive.1 (by simp [Fs.empty])

theorem node_of_fields {i n : Nat} {t : Int16} {f : Nat → Nat} (hi : i < 200) (ht0 : t ≠ 0)
    (hf : ∀ k, 12 ≤ k → f k = 0) (h : ((Fs.empty mkfsImage).dinodeAt i).type = t ∧
      ((Fs.empty mkfsImage).dinodeAt i).nlink = 1 ∧
      ((Fs.empty mkfsImage).dinodeAt i).size.toNat = n ∧
      ∀ k < 13, ((Fs.empty mkfsImage).dinodeAt i).addr k = f k) :
    ((Fs.empty mkfsImage).node i).type = t ∧ ((Fs.empty mkfsImage).node i).nlink = 1 ∧
      ((Fs.empty mkfsImage).node i).size = n ∧ ∀ k, ((Fs.empty mkfsImage).node i).block k = f k := by
  obtain ⟨ht, hn, hs, ha⟩ := h
  rw [node_of_lt (by rw [show (Fs.empty mkfsImage).sb = _ from sb_eq]; exact hi), cur_eq,
    Dinode.node_of_type (by rw [ht]; exact ht0)]
  refine ⟨ht, hn, hs, fun k => ?_⟩
  have hplace := place_of_direct mkfsImage ((ha 12 (by omega)).trans (hf 12 le_rfl)) k
  by_cases hk : k < NDIRECT
  · rw [if_pos hk, ha k (Nat.lt_succ_of_lt hk)] at hplace
    exact hplace
  · rw [if_neg hk, ← hf k (Nat.not_lt.mp hk)] at hplace
    exact hplace

theorem node_root : ((Fs.empty mkfsImage).node 1).type = T_DIR ∧
    ((Fs.empty mkfsImage).node 1).nlink = 1 ∧ ((Fs.empty mkfsImage).node 1).size = 512 ∧
    ∀ k, ((Fs.empty mkfsImage).node 1).block k = if k = 0 then 59 else 0 :=
  node_of_fields (by decide) (by decide) (fun k hk => if_neg (by omega)) (by decide +kernel)

theorem node_file : ((Fs.empty mkfsImage).node 2).type = T_FILE ∧
    ((Fs.empty mkfsImage).node 2).nlink = 1 ∧ ((Fs.empty mkfsImage).node 2).size = 5632 ∧
    ∀ k, ((Fs.empty mkfsImage).node 2).block k = if k < 11 then 60 + k else 0 :=
  node_of_fields (by decide) (by decide) (fun k hk => if_neg (by omega)) (by decide +kernel)

theorem node_free {i : Nat} (h1 : i ≠ 1) (h2 : i ≠ 2) : (Fs.empty mkfsImage).node i = Node.free := by
  by_cases hi : i < 200
  · rw [node_of_lt (by rw [show (Fs.empty mkfsImage).sb = _ from sb_eq]; exact hi), cur_eq]
    exact if_pos (type_eq_zero i hi h1 h2)
  · exact node_of_ge (by rw [show (Fs.empty mkfsImage).sb = _ from sb_eq]; exact Nat.not_lt.mp hi)

theorem block_eq (i k : Nat) : ((Fs.empty mkfsImage).node i).block k
    = if i = 1 ∧ k = 0 then 59 else if i = 2 ∧ k < 11 then 60 + k else 0 := by
  by_cases h1 : i = 1
  · subst h1
    rw [node_root.2.2.2]
    simp
  · by_cases h2 : i = 2
    · subst h2
      rw [node_file.2.2.2]
      simp
    · rw [node_free h1 h2]
      simp [h1, h2, Node.free]

theorem used_iff (b : Nat) : Used (Fs.empty mkfsImage).node b ↔ 59 ≤ b ∧ b < 71 := by
  unfold Used
  simp only [block_eq]
  constructor
  · rintro ⟨hne, i, k, hb⟩
    split at hb
    · omega
    · split at hb
      · omega
      · exact absurd hb.symm hne
  · rintro ⟨hlo, hhi⟩
    refine ⟨by omega, ?_⟩
    by_cases h59 : b = 59
    · exact ⟨1, 0, by simp [h59]⟩
    · refine ⟨2, b - 60, ?_⟩
      rw [if_neg (by omega), if_pos (by omega)]
      omega

theorem wellFormed : WellFormed mkfsImage := by
  have hsb : (Fs.empty mkfsImage).sb = ⟨1000, 941, 200, 30, 2, 32, 58⟩ := sb_eq
  refine ⟨⟨?_, rfl, ⟨⟨fun _ => rfl, ?_, ?_⟩, ?_, ?_⟩, ⟨?_, ?_⟩, fun b hb => ?_, rfl⟩, fun i => ?_,
    fun i k hk => ?_⟩
  · rw [hsb]
    refine ⟨by decide, by decide, by decide, by decide, fun i hi => ?_, fun b hb => ?_,
      fun i hi b hb => ?_⟩
    all_goals
      simp only [iblock, bblock, datastart, IPB, BPB] at *
      omega
  -- no slot is in use
  · exact fun _ _ hj => absurd hj (Nat.lt_irrefl 0)
  · exact fun _ hj => absurd hj (Nat.lt_irrefl 0)
  · exact fun _ hj => absurd hj (Nat.lt_irrefl 0)
  · exact fun _ hj => absurd hj (Nat.lt_irrefl 0)
  · intro i k i' k' hne heq
    simp only [block_eq] at hne heq
    split at heq <;> split at heq <;> (try split at heq) <;> (try split at heq) <;>
      first | omega | simp_all
  · intro i k hne
    have hused := (used_iff _).mp (used_of_block hne)
    rw [hsb]
    simp only [datastart]
    omega
  · rw [hsb] at hb ⊢
    rw [bitOf_eq b hb, used_iff, decide_eq_true_iff]
    simp only [datastart]
    omega
  · by_cases h1 : i = 1
    · rw [h1, node_root.2.2.1]
      decide
    · by_cases h2 : i = 2
      · rw [h2, node_file.2.2.1]
        decide
      · rw [node_free h1 h2]
        exact Nat.zero_le _
  · rw [block_eq]
    by_cases h1 : i = 1
    · rw [h1, node_root.2.2.1] at hk
      simp only [BSIZE] at hk
      rw [if_pos ⟨h1, by omega⟩]
      decide
    · by_cases h2 : i = 2
      · rw [h2, node_file.2.2.1] at hk
        simp only [BSIZE] at hk
        rw [if_neg (by omega), if_pos ⟨h2, by omega⟩]
        omega
      · rw [node_free h1 h2] at hk
        exact absurd hk (Nat.not_lt_zero _)

end Image
end Xv6
