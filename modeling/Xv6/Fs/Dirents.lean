/-
  Xv6.Fs.Dirents

  Directories as lists of bytes.
-/

import Xv6.Fs.Dir
import Xv6.Fs.Nodes

namespace Xv6

open List Wp

variable {lo size off : Nat} {bytes : List UInt8}
variable (n : Nat) (t : List UInt8)

/-! ## Names -/

def strKey (n : Nat) (t : List UInt8) : List UInt8 := (t.takeWhile (· != 0)).take n

/-- The bytes of a name that count. -/
def key (name : List UInt8) : List UInt8 := strKey DIRSIZ name

theorem strKey_zero : strKey 0 t = [] := take_zero

theorem strKey_succ :
    strKey (n + 1) t = if t.headD 0 = 0 then [] else t.headD 0 :: strKey n t.tail := by
  cases t with
  | nil => rfl
  | cons c t =>
    simp only [strKey, headD_cons, tail_cons, takeWhile_cons]
    by_cases hc : c = 0
    · simp [hc]
    · simp [hc]

theorem strncmp_eq_zero (p q : List UInt8) : strncmp n p q = 0 ↔ strKey n p = strKey n q := by
  induction n generalizing p q with
  | zero => simp [strncmp, strKey_zero]
  | succ n ih =>
    rw [strncmp, strKey_succ, strKey_succ]
    by_cases hp : p.headD 0 = 0
    · rw [if_neg fun hc => hc.1 hp, if_pos hp, hp]
      by_cases hq : q.headD 0 = 0
      · rw [hq, if_pos rfl]
        exact ⟨fun _ => rfl, fun _ => rfl⟩
      · rw [if_neg hq]
        have hpos : 0 < (q.headD 0).toNat := by
          refine Nat.pos_of_ne_zero fun h0 => hq ?_
          exact UInt8.toNat_inj.mp h0
        simp only [UInt8.toNat_zero, reduceCtorEq, iff_false]
        omega
    · rw [if_neg hp]
      by_cases heq : p.headD 0 = q.headD 0
      · rw [if_pos ⟨hp, heq⟩, if_neg (by rw [← heq]; exact hp), heq, ih]
        simp
      · rw [if_neg fun hc => heq hc.2]
        have hne : (p.headD 0).toNat ≠ (q.headD 0).toNat := fun h => heq (UInt8.toNat_inj.mp h)
        constructor
        · intro hzero
          omega
        · intro hcons
          split at hcons
          · exact absurd hcons (by simp)
          · exact absurd (cons.inj hcons).1 heq

theorem strKey_strncpy : strKey n (strncpy n t) = strKey n t := by
  induction n generalizing t with
  | zero => rw [strKey_zero, strKey_zero]
  | succ n ih =>
    rw [strKey_succ n t, strncpy]
    by_cases h0 : t.headD 0 = 0
    · rw [if_pos h0, if_pos h0, strKey_succ, replicate_succ, headD_cons, if_pos rfl]
    · rw [if_neg h0, if_neg h0, strKey_succ, headD_cons, if_neg h0, tail_cons, ih]

theorem namecmp_eq_zero {s t : List UInt8} : namecmp s t = 0 ↔ key s = key t :=
  strncmp_eq_zero DIRSIZ s t

theorem key_direntName_dirent (inum : Nat) (name : List UInt8) :
    key (direntName (dirent inum name)) = key name := strKey_strncpy DIRSIZ name

/-! ## Directories as bytes -/

def entry (bytes : List UInt8) (off : Nat) : List UInt8 := (bytes.drop off).take DIRENT

/-- The entry at `off` if it is in use and has the name. -/
def entryIf (bytes name : List UInt8) (off : Nat) : Option (Nat × Nat) :=
  if direntInum (entry bytes off) ≠ 0 ∧ namecmp name (direntName (entry bytes off)) = 0 then
    some (direntInum (entry bytes off), off)
  else none

def dirFind (bytes name : List UInt8) : Option (Nat × Nat) :=
  (offsets 0 bytes.length).findSome? (entryIf bytes name)

def dirSlot (bytes : List UInt8) : Nat :=
  ((offsets 0 bytes.length).find? fun off => decide (direntInum (entry bytes off) = 0)).getD
    ((offsets 0 bytes.length).length * DIRENT)

def dirAdd (bytes name : List UInt8) (inum : Nat) : List UInt8 :=
  splice bytes (dirSlot bytes) (dirent inum name)

def dirErase (bytes : List UInt8) (off : Nat) : List UInt8 :=
  splice bytes off (replicate DIRENT 0)

theorem mem_offsets : off ∈ offsets lo size ↔ off < size ∧ ∃ k, off = lo + k * DIRENT := by
  simp only [offsets, mem_map, mem_range, DIRENT]
  constructor
  · rintro ⟨k, hk, rfl⟩
    exact ⟨by omega, k, rfl⟩
  · rintro ⟨hlt, k, rfl⟩
    exact ⟨k, by omega, rfl⟩

theorem length_offsets (size : Nat) : (offsets 0 size).length = (size + DIRENT - 1) / DIRENT := by
  simp [offsets]

theorem le_of_mem_offsets (hmod : DIRENT ∣ size) (hlo : DIRENT ∣ lo)
    (h : off ∈ offsets lo size) : off + DIRENT ≤ size := by
  obtain ⟨hlt, k, rfl⟩ := mem_offsets.mp h
  simp only [DIRENT] at *
  omega

theorem dvd_of_offsets (h : ∀ off ∈ offsets 0 size, off + DIRENT ≤ size) : DIRENT ∣ size := by
  by_contra hmod
  have hmem : size / DIRENT * DIRENT ∈ offsets 0 size := by
    refine mem_offsets.mpr ⟨?_, size / DIRENT, by rw [Nat.zero_add]⟩
    simp only [DIRENT] at *
    omega
  have hle := h _ hmem
  simp only [DIRENT] at *
  omega

theorem dirFind_some {name : List UInt8} {inum : Nat} (h : dirFind bytes name = some (inum, off)) :
    off ∈ offsets 0 bytes.length ∧ direntInum (entry bytes off) = inum ∧ inum ≠ 0 ∧
      namecmp name (direntName (entry bytes off)) = 0 := by
  obtain ⟨o, ho, hif⟩ := exists_of_findSome?_eq_some h
  unfold entryIf at hif
  split at hif
  · rename_i hc
    obtain ⟨rfl, rfl⟩ := Prod.mk.inj (Option.some.inj hif)
    exact ⟨ho, rfl, hc.1, hc.2⟩
  · exact absurd hif (by simp)

theorem dirSlot_cases (bytes : List UInt8) :
    (dirSlot bytes ∈ offsets 0 bytes.length ∧ direntInum (entry bytes (dirSlot bytes)) = 0) ∨
      dirSlot bytes = (bytes.length + DIRENT - 1) / DIRENT * DIRENT := by
  unfold dirSlot
  cases hf : (offsets 0 bytes.length).find? fun off =>
      decide (direntInum (entry bytes off) = 0) with
  | none => exact .inr (by rw [Option.getD_none, length_offsets])
  | some off =>
    refine .inl ⟨mem_of_find?_eq_some hf, ?_⟩
    simpa using find?_some hf

theorem dirSlot_le (hmod : DIRENT ∣ bytes.length) :
    dirSlot bytes ≤ bytes.length ∧ DIRENT ∣ dirSlot bytes := by
  rcases dirSlot_cases bytes with ⟨hmem, -⟩ | heq
  · obtain ⟨hlt, k, hk⟩ := mem_offsets.mp hmem
    exact ⟨by omega, k, by rw [hk, Nat.zero_add, Nat.mul_comm]⟩
  · rw [heq]
    simp only [DIRENT] at *
    omega

/-! ## Entries -/

section Entries

variable {bytes src name : List UInt8} {off o inum x : Nat}

def EntryAt (bytes : List UInt8) (off : Nat) : Prop :=
  off ∈ offsets 0 bytes.length ∧ direntInum (entry bytes off) ≠ 0

instance : Decidable (EntryAt bytes off) := inferInstanceAs (Decidable (_ ∧ _))

def nameAt (bytes : List UInt8) (off : Nat) : List UInt8 := key (direntName (entry bytes off))

/-- A directory of whole entries, with different names. -/
structure DirOk (bytes : List UInt8) : Prop where
  whole : DIRENT ∣ bytes.length
  distinct : ∀ off o, EntryAt bytes off → EntryAt bytes o → nameAt bytes off = nameAt bytes o → off = o

theorem length_splice_entry (hwhole : DIRENT ∣ bytes.length) (ho : o ≤ bytes.length)
    (hmod : DIRENT ∣ o) (hsrc : src.length = DIRENT) :
    (splice bytes o src).length = if o = bytes.length then o + DIRENT else bytes.length := by
  rw [length_splice ho, hsrc]
  split
  · omega
  · simp only [DIRENT] at *
    omega

theorem mem_offsets_splice (hwhole : DIRENT ∣ bytes.length) (ho : o ≤ bytes.length)
    (hmod : DIRENT ∣ o) (hsrc : src.length = DIRENT) :
    off ∈ offsets 0 (splice bytes o src).length ↔ off ∈ offsets 0 bytes.length ∨ off = o := by
  rw [mem_offsets, mem_offsets, length_splice_entry hwhole ho hmod hsrc]
  simp only [DIRENT] at *
  split
  · constructor
    · rintro ⟨hlt, k, hk⟩
      by_cases hoff : off = o
      · exact .inr hoff
      · exact .inl ⟨by omega, k, hk⟩
    · rintro (⟨hlt, k, hk⟩ | rfl)
      · exact ⟨by omega, k, hk⟩
      · exact ⟨by omega, off / 16, by omega⟩
  · constructor
    · exact .inl
    · rintro (hoff | rfl)
      · exact hoff
      · exact ⟨by omega, off / 16, by omega⟩

theorem entry_splice (ho : o ≤ bytes.length) (hmod : DIRENT ∣ o) (hsrc : src.length = DIRENT)
    (hoff : DIRENT ∣ off) :
    entry (splice bytes o src) off = if off = o then src else entry bytes off := by
  refine ext_getElem? fun t => ?_
  by_cases ht : t < DIRENT
  · rw [entry, getElem?_take_of_lt ht, getElem?_drop, getElem?_splice ho, hsrc]
    by_cases heq : off = o
    · rw [if_pos heq, if_pos (by omega)]
      congr 1
      omega
    · rw [if_neg heq, if_neg, entry, getElem?_take_of_lt ht, getElem?_drop]
      simp only [DIRENT] at *
      omega
  · have hlen : (entry (splice bytes o src) off).length ≤ DIRENT := length_take_le ..
    have hlen' : (if off = o then src else entry bytes off).length ≤ DIRENT := by
      split
      · omega
      · exact length_take_le ..
    rw [getElem?_eq_none (by omega), getElem?_eq_none (by omega)]

theorem dvd_of_mem_offsets (h : off ∈ offsets 0 bytes.length) : DIRENT ∣ off := by
  obtain ⟨-, k, hk⟩ := mem_offsets.mp h
  exact ⟨k, by rw [hk, Nat.zero_add, Nat.mul_comm]⟩

theorem dirFind_eq_none : dirFind bytes name = none ↔
    ∀ off, EntryAt bytes off → nameAt bytes off ≠ key name := by
  rw [dirFind, findSome?_eq_none_iff]
  constructor
  · intro h off hat heq
    have hif := h off hat.1
    rw [entryIf, if_pos ⟨hat.2, namecmp_eq_zero.mpr heq.symm⟩] at hif
    exact absurd hif (by simp)
  · intro h off hoff
    rw [entryIf, if_neg]
    rintro ⟨hne, hcmp⟩
    exact h off ⟨hoff, hne⟩ (namecmp_eq_zero.mp hcmp).symm

theorem EntryAt.of_dirFind (h : dirFind bytes name = some (x, off)) :
    EntryAt bytes off ∧ direntInum (entry bytes off) = x ∧ nameAt bytes off = key name := by
  obtain ⟨hoff, hx, hne, hcmp⟩ := dirFind_some h
  exact ⟨⟨hoff, by rw [hx]; exact hne⟩, hx, (namecmp_eq_zero.mp hcmp).symm⟩

theorem DirOk.dirFind_eq_some (hok : DirOk bytes) : dirFind bytes name = some (x, off) ↔
    EntryAt bytes off ∧ direntInum (entry bytes off) = x ∧ nameAt bytes off = key name := by
  refine ⟨EntryAt.of_dirFind, ?_⟩
  rintro ⟨hat, hx, hname⟩
  cases hfind : dirFind bytes name with
  | none => exact absurd hname (dirFind_eq_none.mp hfind off hat)
  | some found =>
    obtain ⟨y, o⟩ := found
    obtain ⟨hat', hy, hname'⟩ := EntryAt.of_dirFind hfind
    obtain rfl := hok.distinct off o hat hat' (hname.trans hname'.symm)
    rw [← hx, ← hy]

/-! ## Adding and removing entries -/

section Splice

variable (hwhole : DIRENT ∣ bytes.length) (ho : o ≤ bytes.length) (hmod : DIRENT ∣ o)
  (hsrc : src.length = DIRENT)

include hwhole ho hmod hsrc

theorem entryAt_splice : EntryAt (splice bytes o src) off ↔
    if off = o then direntInum src ≠ 0 else EntryAt bytes off := by
  unfold EntryAt
  rw [mem_offsets_splice hwhole ho hmod hsrc]
  by_cases heq : off = o
  · rw [if_pos heq, entry_splice ho hmod hsrc (by rw [heq]; exact hmod), if_pos heq]
    exact ⟨fun h => h.2, fun h => ⟨.inr heq, h⟩⟩
  · rw [if_neg heq]
    constructor
    · rintro ⟨hoff, hne⟩
      have hoff := hoff.resolve_right heq
      rw [entry_splice ho hmod hsrc (dvd_of_mem_offsets hoff), if_neg heq] at hne
      exact ⟨hoff, hne⟩
    · rintro ⟨hoff, hne⟩
      rw [entry_splice ho hmod hsrc (dvd_of_mem_offsets hoff), if_neg heq]
      exact ⟨.inl hoff, hne⟩

theorem dvd_splice : DIRENT ∣ (splice bytes o src).length := by
  rw [length_splice_entry hwhole ho hmod hsrc]
  split
  · simp only [DIRENT] at *
    omega
  · exact hwhole

end Splice

theorem entry_dirAdd_self (hwhole : DIRENT ∣ bytes.length) :
    entry (dirAdd bytes name inum) (dirSlot bytes) = dirent inum name := by
  obtain ⟨hle, hmod⟩ := dirSlot_le hwhole
  rw [dirAdd, entry_splice hle hmod (length_dirent inum name) hmod, if_pos rfl]

theorem entry_dirAdd_of_ne (hwhole : DIRENT ∣ bytes.length) (hoff : DIRENT ∣ off)
    (hne : off ≠ dirSlot bytes) : entry (dirAdd bytes name inum) off = entry bytes off := by
  obtain ⟨hle, hmod⟩ := dirSlot_le hwhole
  rw [dirAdd, entry_splice hle hmod (length_dirent inum name) hoff, if_neg hne]

theorem dvd_dirAdd (hwhole : DIRENT ∣ bytes.length) : DIRENT ∣ (dirAdd bytes name inum).length := by
  obtain ⟨hle, hmod⟩ := dirSlot_le hwhole
  exact dvd_splice hwhole hle hmod (length_dirent inum name)

theorem not_entryAt_dirSlot : ¬ EntryAt bytes (dirSlot bytes) := by
  rintro ⟨hmem, hne⟩
  rcases dirSlot_cases bytes with ⟨-, h0⟩ | heq
  · exact hne h0
  · rw [heq] at hmem
    obtain ⟨hlt, -⟩ := mem_offsets.mp hmem
    simp only [DIRENT] at hlt
    omega

theorem entryAt_dirAdd (hwhole : DIRENT ∣ bytes.length) (hinum : inum % 65536 ≠ 0) :
    EntryAt (dirAdd bytes name inum) off ↔ EntryAt bytes off ∨ off = dirSlot bytes := by
  obtain ⟨hle, hmod⟩ := dirSlot_le hwhole
  rw [dirAdd, entryAt_splice hwhole hle hmod (length_dirent inum name), direntInum_dirent]
  by_cases heq : off = dirSlot bytes
  · simp [heq, hinum]
  · simp [heq]

theorem nameAt_dirAdd_self (hwhole : DIRENT ∣ bytes.length) :
    nameAt (dirAdd bytes name inum) (dirSlot bytes) = key name := by
  rw [nameAt, entry_dirAdd_self hwhole, key_direntName_dirent]

theorem nameAt_dirAdd_of_ne (hwhole : DIRENT ∣ bytes.length) (hoff : DIRENT ∣ off)
    (hne : off ≠ dirSlot bytes) : nameAt (dirAdd bytes name inum) off = nameAt bytes off := by
  rw [nameAt, entry_dirAdd_of_ne hwhole hoff hne, nameAt]

theorem length_dirErase (hwhole : DIRENT ∣ bytes.length) (ho : o ∈ offsets 0 bytes.length) :
    (dirErase bytes o).length = bytes.length := by
  obtain ⟨hlt, -⟩ := mem_offsets.mp ho
  rw [dirErase, length_splice_entry hwhole (by omega) (dvd_of_mem_offsets ho) (by simp),
    if_neg (by omega)]

theorem entryAt_dirErase (hwhole : DIRENT ∣ bytes.length) (ho : o ∈ offsets 0 bytes.length) :
    EntryAt (dirErase bytes o) off ↔ EntryAt bytes off ∧ off ≠ o := by
  obtain ⟨hlt, -⟩ := mem_offsets.mp ho
  rw [dirErase, entryAt_splice hwhole (by omega) (dvd_of_mem_offsets ho) (by simp)]
  have h0 : direntInum (replicate DIRENT 0) = 0 := by decide
  by_cases heq : off = o
  · simp [heq, h0]
  · simp [heq]

theorem entry_dirErase_of_ne (ho : o ∈ offsets 0 bytes.length) (hoff : DIRENT ∣ off)
    (hne : off ≠ o) : entry (dirErase bytes o) off = entry bytes off := by
  obtain ⟨hlt, -⟩ := mem_offsets.mp ho
  rw [dirErase, entry_splice (by omega) (dvd_of_mem_offsets ho) (by simp) hoff, if_neg hne]

theorem EntryAt.dvd (h : EntryAt bytes off) : DIRENT ∣ off := dvd_of_mem_offsets h.1

theorem DirOk.add (hok : DirOk bytes) (hinum : inum % 65536 ≠ 0) (hnew : dirFind bytes name = none) :
    DirOk (dirAdd bytes name inum) := by
  refine ⟨dvd_dirAdd hok.whole, fun off o hoff ho heq => ?_⟩
  have hfresh := dirFind_eq_none.mp hnew
  rw [entryAt_dirAdd hok.whole hinum] at hoff ho
  by_cases h1 : off = dirSlot bytes <;> by_cases h2 : o = dirSlot bytes
  · rw [h1, h2]
  · have ho := ho.resolve_right h2
    rw [h1, nameAt_dirAdd_self hok.whole, nameAt_dirAdd_of_ne hok.whole ho.dvd h2] at heq
    exact absurd heq.symm (hfresh o ho)
  · have hoff := hoff.resolve_right h1
    rw [h2, nameAt_dirAdd_self hok.whole, nameAt_dirAdd_of_ne hok.whole hoff.dvd h1] at heq
    exact absurd heq (hfresh off hoff)
  · have hoff := hoff.resolve_right h1
    have ho := ho.resolve_right h2
    rw [nameAt_dirAdd_of_ne hok.whole hoff.dvd h1, nameAt_dirAdd_of_ne hok.whole ho.dvd h2] at heq
    exact hok.distinct off o hoff ho heq

theorem DirOk.erase (hok : DirOk bytes) (ho : o ∈ offsets 0 bytes.length) :
    DirOk (dirErase bytes o) := by
  refine ⟨by rw [length_dirErase hok.whole ho]; exact hok.whole, fun off p hoff hp heq => ?_⟩
  rw [entryAt_dirErase hok.whole ho] at hoff hp
  unfold nameAt at heq
  rw [entry_dirErase_of_ne ho hoff.1.dvd hoff.2, entry_dirErase_of_ne ho hp.1.dvd hp.2] at heq
  exact hok.distinct off p hoff.1 hp.1 heq

end Entries
end Xv6
