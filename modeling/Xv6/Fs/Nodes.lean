/-
  Xv6.Fs.Nodes

  Two views of the inodes; the copy in memory counts where there is one.

    * `Fs.node s i` — inode `i` with the blocks it refers to, direct, listed
      in its indirect block, or the indirect block itself.  `Owned` says that
      no block is referred to twice.
    * `Fs.ino s i` — inode `i` as its users see it: type, link count and
      contents.
-/

import Xv6.Fs.Blocks

namespace Xv6

open Function List

variable {bytes src : List UInt8} {off : Nat}

/-! ## Inodes and their blocks -/

@[ext] structure Node where
  type : Int16
  major : Int16
  minor : Int16
  nlink : Int16
  size : Nat
  /-- The block at a place, as in `Fs.place`. -/
  block : Nat → Nat

namespace Node

def free : Node := ⟨0, 0, 0, 0, 0, fun _ => 0⟩

def attach (n : Node) (k b : Nat) : Node := { n with block := update n.block k b }

def bare (n : Node) : Node := { n with block := fun _ => 0 }

theorem of_bare {n n' : Node} (h : n.bare = n'.bare) : n.type = n'.type ∧ n.major = n'.major ∧
    n.minor = n'.minor ∧ n.nlink = n'.nlink ∧ n.size = n'.size := by
  simpa [bare] using h

end Node

def Dinode.node (disk : Nat → Block) (d : Dinode) : Node :=
  if d.type = 0 then Node.free
  else ⟨d.type, d.major, d.minor, d.nlink, d.size.toNat, Fs.place disk d⟩

theorem Dinode.node_of_type {disk : Nat → Block} {d : Dinode} (h : d.type ≠ 0) :
    d.node disk = ⟨d.type, d.major, d.minor, d.nlink, d.size.toNat, Fs.place disk d⟩ := if_neg h

@[simp] theorem Dinode.node_type (disk : Nat → Block) (d : Dinode) : (d.node disk).type = d.type := by
  unfold Dinode.node
  split
  · rename_i h
    exact h.symm
  · rfl

def Fs.node (s : Fs) (i : Nat) : Node :=
  if i < s.sb.ninodes then (s.cur i).node s.disk else Node.free

def Used (n : Nat → Node) (b : Nat) : Prop := b ≠ 0 ∧ ∃ i k, (n i).block k = b

structure Owned (sb : Superblock) (n : Nat → Node) : Prop where
  inj : ∀ {i k i' k'}, (n i).block k ≠ 0 → (n i).block k = (n i').block k' → i = i' ∧ k = k'
  range : ∀ {i k}, (n i).block k ≠ 0 → sb.datastart ≤ (n i).block k ∧ (n i).block k < sb.size

/-- No inode is too large, and none has holes. -/
structure Full (n : Nat → Node) : Prop where
  small : ∀ i, (n i).size ≤ MAXFILE * BSIZE
  mapped : ∀ i k, k * BSIZE < (n i).size → (n i).block k ≠ 0

section Ownership

variable {sb : Superblock} {n : Nat → Node} {i k b x : Nat}
variable {n' : Nat → Node}

theorem block_update (i k b : Nat) (i' k' : Nat) :
    (update n i ((n i).attach k b) i').block k'
      = if i' = i ∧ k' = k then b else (n i').block k' := by
  by_cases hi : i' = i
  · subst hi
    rw [update_self]
    by_cases hk : k' = k
    · rw [if_pos ⟨rfl, hk⟩, hk]
      exact update_self ..
    · rw [if_neg fun h => hk h.2]
      exact update_of_ne hk ..
  · rw [update_of_ne hi, if_neg fun h => hi h.1]

theorem used_of_block (h : (n i).block k ≠ 0) : Used n ((n i).block k) := ⟨h, i, k, rfl⟩

theorem used_attach (hk : (n i).block k = 0) (hb : b ≠ 0) :
    Used (update n i ((n i).attach k b)) x ↔ Used n x ∨ x = b := by
  constructor
  · rintro ⟨hx, i', k', hblock⟩
    rw [block_update] at hblock
    split at hblock
    · exact .inr hblock.symm
    · exact .inl ⟨hx, i', k', hblock⟩
  · rintro (⟨hx, i', k', hblock⟩ | rfl)
    · refine ⟨hx, i', k', ?_⟩
      rw [block_update, if_neg, hblock]
      rintro ⟨rfl, rfl⟩
      exact hx (hblock.symm.trans hk)
    · exact ⟨hb, i, k, by rw [block_update, if_pos ⟨rfl, rfl⟩]⟩

theorem Owned.attach (h : Owned sb n) (hb : ¬ Used n b) (hlo : sb.datastart ≤ b)
    (hhi : b < sb.size) : Owned sb (update n i ((n i).attach k b)) where
  inj := by
    intro i1 k1 i2 k2 hne heq
    rw [block_update] at hne heq
    rw [block_update] at heq
    split at heq
    · rename_i h1
      split at heq
      · rename_i h2
        exact ⟨h1.1.trans h2.1.symm, h1.2.trans h2.2.symm⟩
      · rename_i h2
        rw [if_pos h1] at hne
        exact absurd ⟨hne, i2, k2, heq.symm⟩ hb
    · rename_i h1
      rw [if_neg h1] at hne
      split at heq
      · exact absurd ⟨heq ▸ hne, i1, k1, heq⟩ hb
      · exact h.inj hne heq
  range := by
    intro i' k' hne
    rw [block_update] at hne ⊢
    by_cases hplace : i' = i ∧ k' = k
    · rw [if_pos hplace]
      exact ⟨hlo, hhi⟩
    · rw [if_neg hplace] at hne ⊢
      exact h.range hne

theorem Owned.congr (h : Owned sb n) (hblock : ∀ j, (n' j).block = (n j).block) : Owned sb n' where
  inj := by
    intro i1 k1 i2 k2
    rw [hblock, hblock]
    exact h.inj
  range := by
    intro i' k'
    rw [hblock]
    exact h.range

theorem used_congr (hblock : ∀ j, (n' j).block = (n j).block) : Used n' x ↔ Used n x := by
  simp only [Used, hblock]

section Cut

/- `n'` is `n` with some places of inode `i` emptied. -/
variable {n' : Nat → Node} {S : Nat → Prop} (hothers : ∀ j ≠ i, (n' j).block = (n j).block)
  (hcut : ∀ k, S k → (n' i).block k = 0)
  (hrest : ∀ k, ¬ S k → (n' i).block k = (n i).block k)

include hothers hcut hrest

theorem block_cut {j : Nat} (hne : (n' j).block k ≠ 0) :
    (n' j).block k = (n j).block k ∧ ¬ (j = i ∧ S k) := by
  by_cases hj : j = i
  · subst hj
    have hk : ¬ S k := fun hk => hne (hcut k hk)
    exact ⟨hrest k hk, fun h => hk h.2⟩
  · exact ⟨by rw [hothers j hj], fun h => hj h.1⟩

theorem Owned.cut (h : Owned sb n) : Owned sb n' where
  inj := by
    intro i1 k1 i2 k2 hne heq
    have h1 := (block_cut hothers hcut hrest hne).1
    have h2 := (block_cut hothers hcut hrest (heq ▸ hne)).1
    rw [h1] at hne heq
    rw [h2] at heq
    exact h.inj hne heq
  range := by
    intro i' k' hne
    have hsame := (block_cut hothers hcut hrest hne).1
    rw [hsame] at hne ⊢
    exact h.range hne

theorem used_cut (h : Owned sb n) : Used n' x ↔ Used n x ∧ ∀ k, S k → x ≠ (n i).block k := by
  constructor
  · rintro ⟨hx, j, k, hblock⟩
    obtain ⟨hsame, hplace⟩ := block_cut hothers hcut hrest (hblock ▸ hx)
    rw [hsame] at hblock
    refine ⟨⟨hx, j, k, hblock⟩, fun k' hk' heq => hplace ?_⟩
    obtain ⟨rfl, rfl⟩ := h.inj (hblock ▸ hx) (hblock.trans heq)
    exact ⟨rfl, hk'⟩
  · rintro ⟨⟨hx, j, k, hblock⟩, hne⟩
    refine ⟨hx, j, k, ?_⟩
    by_cases hj : j = i
    · subst hj
      rw [hrest k fun hk => hne k hk hblock.symm, hblock]
    · rw [hothers j hj, hblock]

end Cut

theorem Full.attach (h : Full n) (hb : b ≠ 0) : Full (update n i ((n i).attach k b)) := by
  have hsize : ∀ j, (update n i ((n i).attach k b) j).size = (n j).size := by
    intro j
    by_cases hj : j = i
    · rw [hj, update_self]
      rfl
    · rw [update_of_ne hj]
  refine ⟨fun j => ?_, fun j k' hk' => ?_⟩
  · rw [hsize]
    exact h.small j
  · rw [hsize] at hk'
    rw [block_update]
    split
    · exact hb
    · exact h.mapped j k' hk'

end Ownership

/-! ## Places -/

namespace Fs

section Places

variable {disk : Nat → Block} {d : Dinode} {k : Nat}

theorem place_direct (h : k < NDIRECT) : place disk d k = d.addr k := if_pos h

theorem place_indirect : place disk d MAXFILE = d.addr NDIRECT := by
  simp [place]

theorem place_listed (h : NDIRECT ≤ k) (hk : k < MAXFILE) :
    place disk d k = listed disk d (k - NDIRECT) := by
  rw [place, if_neg (by omega), if_pos hk]

theorem place_beyond (h : MAXFILE < k) : place disk d k = 0 := by
  simp only [MAXFILE, NDIRECT, NINDIRECT] at h
  simp only [place, MAXFILE, NDIRECT, NINDIRECT]
  rw [if_neg (by omega), if_neg (by omega), if_neg (by omega)]

theorem place_of_addrs {d' : Dinode} (h : d'.addrs = d.addrs) : place disk d' = place disk d := by
  have haddr : d'.addr = d.addr := by
    funext k
    unfold Dinode.addr
    rw [h]
  funext k
  simp only [place, listed, haddr]

theorem place_congr {disk' : Nat → Block}
    (h : d.addr NDIRECT ≠ 0 → disk' (d.addr NDIRECT) = disk (d.addr NDIRECT)) :
    place disk' d = place disk d := by
  funext k
  unfold place listed
  by_cases h0 : d.addr NDIRECT = 0
  · simp only [h0, if_true]
  · simp only [h0, if_false, h h0]

end Places

/-! ## The inode cache -/

variable {s s' : Fs} {cnt : ISlot → Nat} {i : Nat} {j : ISlot}

structure Cache (s : Fs) (cnt : ISlot → Nat) : Prop where
  ref : ∀ j, (s.inode j).ref = cnt j
  uniq : ∀ j j', 0 < cnt j → 0 < cnt j' → (s.inode j).inum = (s.inode j').inum → j = j'
  inum : ∀ j, 0 < cnt j → (s.inode j).valid = true → (s.inode j).inum < s.sb.ninodes

/-- Slot `j` holds a valid copy of inode `i`. -/
def Live (s : Fs) (j : ISlot) (i : Nat) : Prop :=
  0 < (s.inode j).ref ∧ (s.inode j).inum = i ∧ (s.inode j).valid = true

instance : Decidable (s.Live j i) := inferInstanceAs (Decidable (_ ∧ _ ∧ _))

theorem live_eq_none : s.live i = none ↔ ∀ j, ¬ s.Live j i := by
  simp [live, Live]

theorem live_spec (h : s.live i = some j) : s.Live j i := by
  have := find?_some h
  simpa [Live] using this

theorem Cache.live_iff (h : s.Cache cnt) :
    s.Live j i ↔ 0 < cnt j ∧ (s.inode j).inum = i ∧ (s.inode j).valid = true := by
  unfold Live
  rw [h.ref, Int.natCast_pos]

theorem cur_of_idle (h : ∀ j, ¬ s.Live j i) : s.cur i = s.dinodeAt i := by
  unfold cur
  rw [live_eq_none.mpr h]

theorem Cache.cur_of_live (h : s.Cache cnt) (hl : s.Live j i) : s.cur i = (s.inode j).copy := by
  unfold cur
  cases hlive : s.live i with
  | none => exact absurd hl (live_eq_none.mp hlive j)
  | some j' =>
    obtain ⟨hpos', hinum', -⟩ := h.live_iff.mp (live_spec hlive)
    obtain ⟨hpos, hinum, -⟩ := h.live_iff.mp hl
    have hj : j' = j := h.uniq j' j hpos' hpos (hinum'.trans hinum.symm)
    rw [hj]

theorem cur_congr (hlive : ∀ j, s'.Live j i ↔ s.Live j i)
    (hcopy : ∀ j, s.Live j i → (s'.inode j).copy = (s.inode j).copy)
    (hdisk : s'.dinodeAt i = s.dinodeAt i) : s'.cur i = s.cur i := by
  have hsame : s'.live i = s.live i := by
    unfold live
    congr 1
    funext j
    exact decide_eq_decide.mpr (hlive j)
  unfold cur
  rw [hsame]
  cases h : s.live i with
  | none => exact hdisk
  | some j => exact hcopy j (live_spec h)

/-! ## What the views depend on -/

theorem node_of_lt (h : i < s.sb.ninodes) : s.node i = (s.cur i).node s.disk := if_pos h

theorem node_of_ge (h : s.sb.ninodes ≤ i) : s.node i = Node.free := if_neg (by omega)

theorem node_block_beyond {k : Nat} (h : MAXFILE < k) : (s.node i).block k = 0 := by
  unfold node Dinode.node
  split
  · split
    · rfl
    · exact place_beyond h
  · rfl

theorem node_congr_at (hsb : s'.sb = s.sb) (hcur : i < s.sb.ninodes → s'.cur i = s.cur i)
    (htable : (s.node i).block MAXFILE ≠ 0 →
      s'.disk ((s.node i).block MAXFILE) = s.disk ((s.node i).block MAXFILE)) :
    s'.node i = s.node i := by
  by_cases hi : i < s.sb.ninodes
  · rw [node_of_lt hi] at htable ⊢
    rw [node_of_lt (by rw [hsb]; exact hi), hcur hi]
    by_cases ht : (s.cur i).type = 0
    · rw [Dinode.node, Dinode.node, if_pos ht, if_pos ht]
    · rw [Dinode.node_of_type ht] at htable ⊢
      rw [Dinode.node_of_type ht]
      simp only [place_indirect] at htable
      rw [place_congr htable]
  · rw [node_of_ge (by rw [hsb]; omega), node_of_ge (by omega)]

theorem node_congr (hsb : s'.sb = s.sb) (hcur : ∀ i < s.sb.ninodes, s'.cur i = s.cur i)
    (htable : ∀ i, (s.node i).block MAXFILE ≠ 0 →
      s'.disk ((s.node i).block MAXFILE) = s.disk ((s.node i).block MAXFILE)) :
    s'.node = s.node := by
  funext i
  exact node_congr_at hsb (hcur i) (htable i)

theorem inUse_iff {b : Nat} (hb : b ≠ 0) : s.inUse b = true ↔ b < s.sb.datastart ∨ Used s.node b := by
  simp only [inUse, refersTo, Bool.or_eq_true, decide_eq_true_eq, any_eq_true, mem_range,
    Bool.and_eq_true]
  refine or_congr_right ⟨?_, ?_⟩
  · rintro ⟨i, hi, ht, k, -, hk⟩
    refine ⟨hb, i, k, ?_⟩
    rw [node_of_lt hi, Dinode.node_of_type ht]
    exact hk
  · rintro ⟨-, i, k, hk⟩
    have hne : (s.node i).block k ≠ 0 := by
      rw [hk]
      exact hb
    have hi : i < s.sb.ninodes := by
      by_contra hge
      rw [node_of_ge (by omega)] at hne
      exact hne rfl
    have ht : (s.cur i).type ≠ 0 := by
      intro h0
      rw [node_of_lt hi, Dinode.node, if_pos h0] at hne
      exact hne rfl
    have hle : k < MAXFILE + 1 := by
      by_contra hgt
      exact hne (node_block_beyond (by omega))
    rw [node_of_lt hi, Dinode.node_of_type ht] at hk
    exact ⟨i, hi, ht, k, hle, hk⟩

end Fs

/-! ## Inodes and their contents -/

@[ext] structure Ino where
  type : Int16
  major : Int16
  minor : Int16
  nlink : Int16
  bytes : List UInt8

def Ino.free : Ino := ⟨0, 0, 0, 0, []⟩

/-- The inode `ialloc` makes. -/
def Ino.fresh (type : Int16) : Ino := ⟨type, 0, 0, 0, []⟩

def splice (bytes : List UInt8) (off : Nat) (src : List UInt8) : List UInt8 :=
  bytes.take off ++ src ++ bytes.drop (off + src.length)

theorem length_splice (h : off ≤ bytes.length) :
    (splice bytes off src).length = max bytes.length (off + src.length) := by
  simp only [splice, length_append, length_take, length_drop]
  omega

theorem getElem?_splice (h : off ≤ bytes.length) (x : Nat) : (splice bytes off src)[x]?
      = if off ≤ x ∧ x < off + src.length then src[x - off]? else bytes[x]? := by
  have htake : (bytes.take off).length = off := by
    rw [length_take]
    omega
  unfold splice
  rw [append_assoc, getElem?_append, htake]
  by_cases hlo : x < off
  · rw [if_pos hlo, if_neg (by omega), getElem?_take_of_lt hlo]
  · rw [if_neg hlo, getElem?_append]
    by_cases hhi : x - off < src.length
    · rw [if_pos hhi, if_pos (by omega)]
    · rw [if_neg hhi, if_neg (by omega), getElem?_drop]
      congr 1
      omega

namespace Fs

variable {s s' : Fs} {i : Nat}

def byteAt (s : Fs) (i x : Nat) : UInt8 :=
  Bytes.get (s.disk ((s.node i).block (x / BSIZE))) (x % BSIZE)

def ino (s : Fs) (i : Nat) : Ino where
  type := (s.node i).type
  major := (s.node i).major
  minor := (s.node i).minor
  nlink := (s.node i).nlink
  bytes := (range (s.node i).size).map (s.byteAt i)

@[simp] theorem length_bytes : (s.ino i).bytes.length = (s.node i).size := by
  simp [ino]

theorem ino_eq_free (h : s.node i = Node.free) : s.ino i = Ino.free := by
  unfold ino
  rw [h]
  rfl

theorem ino_congr (hfull : Full s.node) (hnode : s'.node = s.node)
    (hdata : ∀ i k, k < MAXFILE → (s.node i).block k ≠ 0 →
      s'.disk ((s.node i).block k) = s.disk ((s.node i).block k)) : s'.ino = s.ino := by
  funext i
  have hbytes : ∀ x, x < (s.node i).size → s'.byteAt i x = s.byteAt i x := by
    intro x hx
    have hsmall := hfull.small i
    have hk : x / BSIZE < MAXFILE := by
      simp only [MAXFILE, NDIRECT, NINDIRECT, BSIZE] at hsmall ⊢
      omega
    have hmapped : (s.node i).block (x / BSIZE) ≠ 0 :=
      hfull.mapped i _ (lt_of_le_of_lt (Nat.div_mul_le_self x BSIZE) hx)
    unfold byteAt
    rw [hnode, hdata i _ hk hmapped]
  ext1
  case bytes =>
    show (range (s'.node i).size).map (s'.byteAt i) = (range (s.node i).size).map (s.byteAt i)
    rw [hnode]
    exact map_congr_left fun x hx => hbytes x (mem_range.mp hx)
  all_goals
    simp only [ino, hnode]

end Fs
end Xv6
