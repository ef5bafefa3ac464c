/-
  Xv6.Fs.Flat

  A file is an array of bytes, if the blocks of each write fit one transaction.
-/

import Xv6.Fs.Image
import Xv6.Fs.WriteLog

namespace Xv6

open Function Finset Wp Fs

inductive Call where
  | read (ip : ISlot) (off n : UInt32)
  | write (ip : ISlot) (src : Nat → UInt8) (off n : UInt32)

namespace Call

def ip : Call → ISlot
  | read ip _ _ => ip
  | write ip _ _ _ => ip

def memory (src : Nat → UInt8) (n : UInt32) : List UInt8 := (List.range n.toNat).map src

/-- The result of the call and the bytes it copies out.  A write is a transaction of its own. -/
def run : Call → FsM (Int × List UInt8)
  | read ip off n => readi 0 ip off.toNat n.toNat
  | write ip src off n => do
      let r ← transact (writei 0 ip (memory src n) off.toNat)
      pure (r, [])

/-- The blocks of the bytes, those of the bitmap, the indirect block and the block of the inode
    leave room in the log. -/
def Fits (sb : Superblock) : Call → Prop
  | read _ _ _ => True
  | write _ _ off n => off.toNat + n.toNat ≤ MAXFILE * BSIZE →
      logFull sb.nlog ((spans off.toNat n.toNat).card + ((range sb.size).image sb.bblock).card + 2)
        = false

def runAll : List Call → FsM (List (Int × List UInt8))
  | [] => pure []
  | c :: cs => do
      let r ← c.run
      let rs ← runAll cs
      pure (r :: rs)

end Call

namespace Fs

variable {s s' : Fs} {cnt : ISlot → Nat} {ip : ISlot} {off : Nat} {src : List UInt8}
variable {D : Finset (Nat × Nat)} {E : Halt → Fs → Prop}

/-! ## Room -/

def Room (s : Fs) (D : Finset (Nat × Nat)) : Prop :=
  (D.filter fun p => (s.node p.1).block p.2 = 0).card ≤ s.freeBlocks

instance (D : Finset (Nat × Nat)) : Decidable (s.Room D) := inferInstanceAs (Decidable (_ ≤ _))

theorem Room.mono {D' : Finset (Nat × Nat)} (h : s.Room D') (hD : D ⊆ D') : s.Room D :=
  (card_le_card (filter_subset_filter _ hD)).trans h

theorem card_missing {i : Nat} {P : Finset Nat} :
    ((P.image (Prod.mk i)).filter fun p => (s.node p.1).block p.2 = 0).card
      = (s.missing i P).card := by
  rw [filter_image, card_image_of_injective _ (Prod.mk_right_injective i)]
  rfl

theorem Stored.room (h : Stored cnt s s' ip off src)
    (hroom : s.Room ((places (spans off src.length)).image (Prod.mk (s.inode ip).inum) ∪ D)) :
    s'.Room D := by
  obtain ⟨P, hP⟩ : ∃ P, P = places (spans off src.length) := ⟨_, rfl⟩
  have hfree := h.free
  have hmapped := h.mapped
  rw [← hP] at hroom hfree hmapped
  unfold Room at hroom ⊢
  -- a place that is still empty was empty before, and the write did not need it
  have hsub : (D.filter fun p => (s'.node p.1).block p.2 = 0) ⊆
      ((P.image (Prod.mk (s.inode ip).inum) ∪ D).filter fun p => (s.node p.1).block p.2 = 0) \
        (P.image (Prod.mk (s.inode ip).inum)).filter fun p => (s.node p.1).block p.2 = 0 := by
    rintro ⟨i, k⟩ hmem
    obtain ⟨hD, h0⟩ := mem_filter.mp hmem
    rw [mem_sdiff, mem_filter, mem_filter]
    have hold : (s.node i).block k = 0 := by
      by_cases hi : i = (s.inode ip).inum
      · subst hi
        by_contra hne
        rw [h.keep k hne] at h0
        exact hne h0
      · rw [h.others i hi] at h0
        exact h0
    refine ⟨⟨mem_union_right _ hD, hold⟩, fun hP => ?_⟩
    obtain ⟨k', hk', heq⟩ := mem_image.mp hP.1
    obtain ⟨rfl, rfl⟩ := Prod.mk.inj heq
    exact hmapped k' hk' h0
  have hle := card_le_card hsub
  rw [card_sdiff_of_subset (filter_subset_filter _ subset_union_left), card_missing] at hle
  omega

/-! ## The log -/

theorem ninode_pos : 0 < NINODE := by decide

end Fs
end Xv6
