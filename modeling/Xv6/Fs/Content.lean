/-
  Xv6.Fs.Content

  Reading and writing the contents of an inode.
-/

import Xv6.Fs.Bmap

namespace Xv6

open Finset Wp

variable {E : Halt → Fs → Prop} {Q : Nat → Fs → Prop} {x : Nat}

namespace Fs

variable {s s' s'' : Fs} {cnt : ISlot → Nat} {ip : ISlot} {i k b off : Nat} {P P' K K' : Finset Nat}
  {src src' : List UInt8}

/-! ## Effects of writing -/

/-- The places in `P` of inode `i` without a block. -/
def missing (s : Fs) (i : Nat) (P : Finset Nat) : Finset Nat := P.filter fun x => (s.node i).block x = 0

theorem mem_missing : x ∈ s.missing i P ↔ x ∈ P ∧ (s.node i).block x = 0 := mem_filter

structure Wrote (s s' : Fs) (i : Nat) (P K : Finset Nat) (off : Nat) (src : List UInt8) : Prop where
  sb : s'.sb = s.sb
  isSome : s'.op.isSome = s.op.isSome
  ops : s'.ops = s.ops
  inum : ∀ j, (s'.inode j).inum = (s.inode j).inum
  valid : ∀ j, (s'.inode j).valid = (s.inode j).valid
  others : ∀ m, m ≠ i → s'.node m = s.node m
  self : (s'.node i).bare = (s.node i).bare
  keep : ∀ x, (s.node i).block x ≠ 0 → (s'.node i).block x = (s.node i).block x
  only : ∀ x, x ∉ P → (s'.node i).block x = (s.node i).block x
  mapped : ∀ x ∈ P, (s'.node i).block x ≠ 0
  /-- The bytes at `off` are in data blocks that exist. -/
  cover : ∀ t < src.length, (off + t) / BSIZE < MAXFILE ∧ (s'.node i).block ((off + t) / BSIZE) ≠ 0
  written : ∀ t (ht : t < src.length), s'.byteAt i (off + t) = src[t]
  bytes : ∀ m x, x / BSIZE < MAXFILE → (s.node m).block (x / BSIZE) ≠ 0 →
    ¬ (m = i ∧ off ≤ x ∧ x < off + src.length) → s'.byteAt m x = s.byteAt m x
  dinode : ∀ m < s.sb.ninodes, s'.dinodeAt m = s.dinodeAt m
  still : s.missing i P = ∅ → s'.inode = s.inode
  free : s'.freeBlocks + (s.missing i P).card = s.freeBlocks
  more : s.lg ⊆ s'.lg
  logged : ∀ t < src.length, (s'.node i).block ((off + t) / BSIZE) ∈ s'.lg
  log : ∀ c ∈ s'.lg, c ∈ s.lg ∨ (c ≠ 0 ∧ ∃ k ∈ K, c = (s'.node i).block k) ∨
    ∃ k ∈ K, (s.node i).block k = 0 ∧ ((∃ x < s.sb.size, s.sb.bblock x = c) ∨
      (NDIRECT ≤ k ∧ c ≠ 0 ∧ c = (s'.node i).block MAXFILE))

theorem Wrote.refl : Wrote s s i ∅ K off [] where
  sb := rfl
  isSome := rfl
  ops := rfl
  inum := fun _ => rfl
  valid := fun _ => rfl
  others := fun _ _ => rfl
  self := rfl
  keep := fun _ _ => rfl
  only := fun _ _ => rfl
  mapped := by simp
  cover := by simp
  written := by simp
  bytes := fun _ _ _ _ _ => rfl
  dinode := fun _ _ => rfl
  still := fun _ => rfl
  free := by simp [missing]
  more := fun _ hc => hc
  logged := by simp
  log := fun _ hc => .inl hc

theorem Wrote.enlarge (h : Wrote s s' i P K off src) (hP : P ⊆ P')
    (hrest : ∀ x ∈ P', x ∉ P → (s.node i).block x ≠ 0) : Wrote s s' i P' K off src := by
  have hmissing : s.missing i P' = s.missing i P := by
    ext x
    rw [mem_missing, mem_missing]
    constructor
    · rintro ⟨hx, h0⟩
      by_cases hxP : x ∈ P
      · exact ⟨hxP, h0⟩
      · exact absurd h0 (hrest x hx hxP)
    · rintro ⟨hx, h0⟩
      exact ⟨hP hx, h0⟩
  refine { h with
    only := fun x hx => h.only x fun hxP => hx (hP hxP)
    mapped := fun x hx => ?_
    still := fun h0 => h.still (by rw [← hmissing, h0])
    free := by rw [hmissing, h.free] }
  by_cases hxP : x ∈ P
  · exact h.mapped x hxP
  · have hne := hrest x hx hxP
    rw [h.keep x hne]
    exact hne

theorem Wrote.keep_at (h : Wrote s s' i P K off src) {m x : Nat} (hne : (s.node m).block x ≠ 0) :
    (s'.node m).block x = (s.node m).block x := by
  by_cases hm : m = i
  · subst hm
    exact h.keep x hne
  · rw [h.others m hm]

theorem Wrote.missing_union (h : Wrote s s' i P K off src) (P' : Finset Nat) :
    (s.missing i (P ∪ P')).card = (s.missing i P).card + (s'.missing i P').card := by
  have hsplit : s.missing i (P ∪ P') = s.missing i P ∪ s'.missing i P' := by
    ext x
    simp only [mem_union, mem_missing]
    constructor
    · rintro ⟨hx, h0⟩
      by_cases hxP : x ∈ P
      · exact .inl ⟨hxP, h0⟩
      · exact .inr ⟨hx.resolve_left hxP, (h.only x hxP).trans h0⟩
    · rintro (⟨hx, h0⟩ | ⟨hx, h0⟩)
      · exact ⟨.inl hx, h0⟩
      · refine ⟨.inr hx, ?_⟩
        by_contra hne
        exact hne ((h.keep x hne).symm.trans h0)
  have hdisjoint : Disjoint (s.missing i P) (s'.missing i P') := by
    rw [disjoint_left]
    intro x hx hx'
    exact h.mapped x (mem_missing.mp hx).1 (mem_missing.mp hx').2
  rw [hsplit, card_union_of_disjoint hdisjoint]

theorem Wrote.trans (h : Wrote s s' i P K off src)
    (h' : Wrote s' s'' i P' K' (off + src.length) src') :
    Wrote s s'' i (P ∪ P') (K ∪ K') off (src ++ src') where
  sb := h'.sb.trans h.sb
  isSome := h'.isSome.trans h.isSome
  ops := h'.ops.trans h.ops
  inum := fun j => (h'.inum j).trans (h.inum j)
  valid := fun j => (h'.valid j).trans (h.valid j)
  others := fun m hm => (h'.others m hm).trans (h.others m hm)
  self := h'.self.trans h.self
  keep := by
    intro x hne
    have h1 := h.keep x hne
    rw [h'.keep x (h1 ▸ hne), h1]
  only := by
    intro x hx
    rw [notMem_union] at hx
    rw [h'.only x hx.2, h.only x hx.1]
  mapped := by
    intro x hx
    by_cases hxP' : x ∈ P'
    · exact h'.mapped x hxP'
    · have hne := h.mapped x ((mem_union.mp hx).resolve_right hxP')
      rw [h'.keep x hne]
      exact hne
  cover := by
    intro t ht
    by_cases hlt : t < src.length
    · obtain ⟨hmax, hne⟩ := h.cover t hlt
      refine ⟨hmax, ?_⟩
      rw [h'.keep _ hne]
      exact hne
    · rw [List.length_append] at ht
      have hc := h'.cover (t - src.length) (by omega)
      rwa [show off + src.length + (t - src.length) = off + t by omega] at hc
  written := by
    intro t ht
    by_cases hlt : t < src.length
    · obtain ⟨hmax, hne⟩ := h.cover t hlt
      rw [h'.bytes i _ hmax hne (by omega), h.written t hlt, List.getElem_append_left hlt]
    · have hlen := ht
      rw [List.length_append] at hlen
      have hw := h'.written (t - src.length) (by omega)
      rw [show off + src.length + (t - src.length) = off + t by omega] at hw
      rw [hw, List.getElem_append_right (by omega)]
  bytes := by
    intro m x hmax hne hout
    rw [List.length_append] at hout
    have h1 := h.bytes m x hmax hne (by omega)
    rw [h'.bytes m x hmax (by rw [h.keep_at hne]; exact hne) (by omega), h1]
  dinode := by
    intro m hm
    rw [h'.dinode m (by rw [h.sb]; exact hm), h.dinode m hm]
  still := by
    intro h0
    have hsum := h.missing_union P'
    rw [h0, card_empty] at hsum
    have h1 : s.missing i P = ∅ := card_eq_zero.mp (by omega)
    have h2 : s'.missing i P' = ∅ := card_eq_zero.mp (by omega)
    rw [h'.still h2, h.still h1]
  free := by
    have h1 := h.free
    have h2 := h'.free
    have hsum := h.missing_union P'
    omega
  more := fun c hc => h'.more (h.more hc)
  logged := by
    intro t ht
    by_cases hlt : t < src.length
    · rw [h'.keep _ (h.cover t hlt).2]
      exact h'.more (h.logged t hlt)
    · rw [List.length_append] at ht
      have hlg := h'.logged (t - src.length) (by omega)
      rwa [show off + src.length + (t - src.length) = off + t by omega] at hlg
  log := by
    intro c hc
    rcases h'.log c hc with hc | ⟨h0, k, hk, rfl⟩ | ⟨k, hk, hk0, hcase⟩
    · rcases h.log c hc with hc | ⟨h0, k, hk, hck⟩ | ⟨k, hk, hk0, hbm | ⟨hk12, h0, hct⟩⟩
      · exact .inl hc
      · refine .inr (.inl ⟨h0, k, mem_union_left _ hk, ?_⟩)
        rw [h'.keep k (hck ▸ h0), hck]
      · exact .inr (.inr ⟨k, mem_union_left _ hk, hk0, .inl hbm⟩)
      · refine .inr (.inr ⟨k, mem_union_left _ hk, hk0, .inr ⟨hk12, h0, ?_⟩⟩)
        rw [h'.keep MAXFILE (hct ▸ h0), hct]
    · exact .inr (.inl ⟨h0, k, mem_union_right _ hk, rfl⟩)
    · -- a place that is missing now was missing before
      have hbefore : (s.node i).block k = 0 := by
        by_contra hne
        exact hne ((h.keep k hne).symm.trans hk0)
      rw [h.sb] at hcase
      exact .inr (.inr ⟨k, mem_union_right _ hk, hbefore, hcase⟩)

theorem Attach.wrote (ha : Attach s s' ip x b)
    (hx : (s.node (s.inode ip).inum).block x = 0) (hk : (s.node (s.inode ip).inum).block k = 0)
    (hcase : x = k ∧ k < MAXFILE ∨ x = MAXFILE ∧ NDIRECT ≤ k) :
    Wrote s s' (s.inode ip).inum {x} {k} off [] := by
  have hblock : ∀ m y, (s'.node m).block y
      = if m = (s.inode ip).inum ∧ y = x then b else (s.node m).block y := by
    intro m y
    rw [ha.node, block_update]
  have hkeep : ∀ m y, (s.node m).block y ≠ 0 → (s'.node m).block y = (s.node m).block y := by
    intro m y hne
    rw [hblock, if_neg]
    rintro ⟨rfl, rfl⟩
    exact hne hx
  have hmissing : s.missing (s.inode ip).inum {x} = {x} := by
    ext y
    rw [mem_missing, mem_singleton]
    constructor
    · exact fun h => h.1
    · rintro rfl
      exact ⟨rfl, hx⟩
  exact {
    sb := ha.sb
    isSome := ha.isSome
    ops := ha.ops
    inum := ha.inum
    valid := ha.valid
    others := fun m hm => by rw [ha.node, Function.update_of_ne hm]
    self := by
      rw [ha.node, Function.update_self]
      rfl
    keep := hkeep _
    only := fun y hy => by
      rw [mem_singleton] at hy
      rw [hblock, if_neg fun heq => hy heq.2]
    mapped := fun y hy => by
      rw [mem_singleton] at hy
      rw [hblock, if_pos ⟨rfl, hy⟩]
      exact ha.pos
    cover := by simp
    written := by simp
    bytes := fun m y hmax hne _ => by
      rw [byteAt, byteAt, hkeep m _ hne, ha.data m _ hmax hne]
    dinode := ha.dinode
    still := fun h0 => by
      rw [hmissing] at h0
      exact absurd h0 (singleton_ne_empty x)
    free := by
      rw [hmissing, card_singleton]
      exact ha.free
    more := ha.more
    logged := by simp
    log := fun c hc => by
      rcases ha.log c hc with hc | hbm | rfl | ⟨hx12, h0, hct⟩
      · exact .inl hc
      · exact .inr (.inr ⟨k, mem_singleton_self k, hk, .inl hbm⟩)
      · rcases hcase with ⟨rfl, -⟩ | ⟨rfl, hk12⟩
        · refine .inr (.inl ⟨ha.pos, x, mem_singleton_self x, ?_⟩)
          rw [hblock, if_pos ⟨rfl, rfl⟩]
        · refine .inr (.inr ⟨k, mem_singleton_self k, hk, .inr ⟨hk12, ha.pos, ?_⟩⟩)
          rw [hblock, if_pos ⟨rfl, rfl⟩]
      · rcases hcase with ⟨rfl, -⟩ | ⟨rfl, -⟩
        · refine .inr (.inr ⟨x, mem_singleton_self x, hk, .inr ⟨hx12, h0, ?_⟩⟩)
          rw [hkeep _ _ (hct ▸ h0), hct]
        · exact absurd (hct.trans hx) h0 }

/-! ## `bmap` -/

def places (K : Finset Nat) : Finset Nat :=
  K ∪ (K.filter (NDIRECT ≤ ·)).image fun _ => MAXFILE

theorem places_union : places (K ∪ K') = places K ∪ places K' := by
  unfold places
  rw [filter_union, image_union]
  exact union_union_union_comm ..

theorem mem_places : x ∈ places K ↔ x ∈ K ∨ (x = MAXFILE ∧ ∃ k ∈ K, NDIRECT ≤ k) := by
  simp only [places, mem_union, mem_image, mem_filter]
  constructor
  · rintro (hx | ⟨k, ⟨hk, hk12⟩, rfl⟩)
    · exact .inl hx
    · exact .inr ⟨rfl, k, hk, hk12⟩
  · rintro (hx | ⟨rfl, k, hk, hk12⟩)
    · exact .inl hx
    · exact .inr ⟨k, ⟨hk, hk12⟩, rfl⟩

theorem mem_places_singleton : x ∈ places {k} ↔ x = k ∨ (x = MAXFILE ∧ NDIRECT ≤ k) := by
  rw [mem_places]
  simp

theorem missing_mono (h : P ⊆ P') : (s.missing i P).card ≤ (s.missing i P').card :=
  card_le_card (filter_subset_filter _ h)

theorem missing_pos (hx : x ∈ P) (h0 : (s.node i).block x = 0) : 0 < (s.missing i P).card :=
  card_pos.mpr ⟨x, mem_missing.mpr ⟨hx, h0⟩⟩

theorem wp_bmap_place (hk : k < MAXFILE) (hne : place s.disk (s.inode ip).copy k ≠ 0)
    (hQ : Q (place s.disk (s.inode ip).copy k) s) : wp (bmap ip k) Q E s := by
  unfold bmap
  by_cases hdirect : k < NDIRECT
  · rw [place_direct hdirect] at hne hQ
    rw [if_pos hdirect]
    simp only [bmapAddr, copyOf, wp_bind, wp_look]
    rw [if_neg hne]
    exact hQ
  · rw [place_listed (by omega) hk] at hne hQ
    have htable : (s.inode ip).copy.addr NDIRECT ≠ 0 := fun h0 => hne (by rw [listed, if_pos h0])
    rw [listed, if_neg htable] at hne hQ
    have hind : k - NDIRECT < NINDIRECT := by
      simp only [MAXFILE, NDIRECT, NINDIRECT] at hk ⊢
      omega
    rw [if_neg hdirect, if_pos hind]
    simp only [bmapAddr, bmapListed, copyOf, bread, wp_bind, wp_look]
    rw [if_neg htable]
    simp only [wp_pure]
    rw [if_neg hne]
    exact hQ

section Bmap

variable (h : s.Inv cnt (some ip)) (hip : 0 < cnt ip) (hv : (s.inode ip).valid = true)

include h hip hv

theorem Inv.table_ne (hk : NDIRECT ≤ k) (hlt : k < MAXFILE)
    (hne : (s.node (s.inode ip).inum).block k ≠ 0) :
    (s.node (s.inode ip).inum).block MAXFILE ≠ 0 := by
  rw [h.block_eq hip hv, place_listed hk hlt] at hne
  rw [h.block_eq hip hv, place_indirect]
  intro h0
  exact hne (by rw [listed, if_pos h0])

theorem wp_bmap (off : Nat) (hop : s.op.isSome)
    (hk : k < MAXFILE)
    (hQ : ∀ b s', s'.Inv cnt (some ip) → Wrote s s' (s.inode ip).inum (places {k}) {k} off [] →
      (s'.node (s.inode ip).inum).block k = b → Q b s')
    (hE : s.freeBlocks < (s.missing (s.inode ip).inum (places {k})).card →
      ∀ s', s'.overlap = false → E (.panic "balloc: out of blocks") s') :
    wp (bmap ip k) Q E s := by
  by_cases hne : (s.node (s.inode ip).inum).block k ≠ 0
  · have hplace := hne
    rw [h.block_eq hip hv] at hplace
    refine wp_bmap_place hk hplace (hQ _ _ h (Wrote.refl.enlarge (by simp) ?_) (h.block_eq hip hv _))
    intro x hx _
    rcases mem_places_singleton.mp hx with rfl | ⟨rfl, hk12⟩
    · exact hne
    · exact h.table_ne hip hv hk12 hk hne
  have hzero := not_ne_iff.mp hne
  have hself : {k} ⊆ places {k} := singleton_subset_iff.mpr (mem_places_singleton.mpr (.inl rfl))
  have hmiss : 0 < (s.missing (s.inode ip).inum (places {k})).card :=
    missing_pos (mem_places_singleton.mpr (.inl rfl)) hzero
  unfold bmap
  by_cases hdirect : k < NDIRECT
  · rw [if_pos hdirect]
    refine wp_bmapAddr h hip hv hop (.inl ⟨hdirect, rfl⟩) hzero (fun b s' hinv ha => ?_)
      fun hfree => hE (by omega) s h.overlap
    refine hQ b s' hinv ((ha.wrote hzero hzero (.inl ⟨rfl, hk⟩)).enlarge hself ?_) ?_
    · intro x hx hxk
      rcases mem_places_singleton.mp hx with rfl | ⟨-, hk12⟩
      · exact absurd (mem_singleton_self x) hxk
      · omega
    · rw [ha.node, block_update, if_pos ⟨rfl, rfl⟩]
  have hk12 : NDIRECT ≤ k := by omega
  have hj : k - NDIRECT < NINDIRECT := by
    simp only [MAXFILE, NDIRECT, NINDIRECT] at hk ⊢
    omega
  have hplace : NDIRECT + (k - NDIRECT) = k := by omega
  rw [if_neg hdirect, if_pos hj, wp_bind]
  by_cases htable : (s.node (s.inode ip).inum).block MAXFILE = 0
  · -- the indirect block comes first
    refine wp_bmapAddr h hip hv hop (.inr ⟨rfl, rfl⟩) htable (fun t s1 hinv1 ha1 => ?_)
      fun hfree => hE (by omega) s h.overlap
    have hw1 : Wrote s s1 (s.inode ip).inum {MAXFILE} {k} off [] :=
      ha1.wrote htable hzero (.inr ⟨rfl, hk12⟩)
    have hzero1 : (s1.node (s1.inode ip).inum).block k = 0 := by
      rw [ha1.inum, hw1.only k (by rw [mem_singleton]; omega), hzero]
    have ht1 : (s1.node (s1.inode ip).inum).block MAXFILE = t := by
      rw [ha1.inum, ha1.node, block_update, if_pos ⟨rfl, rfl⟩]
    refine wp_bmapListed hinv1 hip (by rw [ha1.valid]; exact hv) (by rw [ha1.isSome]; exact hop)
      hj ht1 ha1.pos (by rw [hplace]; exact hzero1) (fun b s2 hinv2 ha2 => ?_) fun hfree => ?_
    · rw [hplace] at ha2
      have hw2 : Wrote s1 s2 (s1.inode ip).inum {k} {k} off [] :=
        ha2.wrote hzero1 hzero1 (.inl ⟨rfl, hk⟩)
      rw [ha1.inum] at hw2
      have hw := hw1.trans hw2
      rw [union_idempotent] at hw
      refine hQ b s2 hinv2 (hw.enlarge (fun x hx => ?_) fun x hx hxP => ?_) ?_
      · rw [mem_union, mem_singleton, mem_singleton] at hx
        exact mem_places_singleton.mpr (hx.symm.imp_right fun heq => ⟨heq, hk12⟩)
      · refine absurd ?_ hxP
        rw [mem_union, mem_singleton, mem_singleton]
        exact (mem_places_singleton.mp hx).symm.imp_left fun heq => heq.1
      · rw [← ha1.inum ip, ha2.node, block_update, if_pos ⟨rfl, rfl⟩]
    · -- two blocks are missing, and there was one
      refine hE ?_ s1 hinv1.overlap
      have hpair : s.missing (s.inode ip).inum (places {k}) = {k, MAXFILE} := by
        ext x
        rw [mem_missing, mem_places_singleton, mem_insert, mem_singleton]
        constructor
        · rintro ⟨hx, -⟩
          exact hx.imp_right fun heq => heq.1
        · rintro (rfl | rfl)
          · exact ⟨.inl rfl, hzero⟩
          · exact ⟨.inr ⟨rfl, hk12⟩, htable⟩
      have hone := ha1.free
      rw [hpair, card_pair (by omega)]
      omega
  · have haddr := htable
    rw [h.block_eq hip hv, place_indirect] at haddr
    have hsame : (s.node (s.inode ip).inum).block MAXFILE = (s.inode ip).copy.addr NDIRECT := by
      rw [h.block_eq hip hv, place_indirect]
    simp only [bmapAddr, copyOf, wp_bind, wp_look]
    rw [if_neg haddr, wp_pure]
    refine wp_bmapListed h hip hv hop hj hsame haddr (by rw [hplace]; exact hzero)
      (fun b s' hinv ha => ?_) fun hfree => hE (by omega) s h.overlap
    rw [hplace] at ha
    refine hQ b s' hinv ((ha.wrote hzero hzero (.inl ⟨rfl, hk⟩)).enlarge hself ?_) ?_
    · intro x hx hxk
      rcases mem_places_singleton.mp hx with rfl | ⟨rfl, -⟩
      · exact absurd (mem_singleton_self x) hxk
      · exact htable
    · rw [ha.node, block_update, if_pos ⟨rfl, rfl⟩]

end Bmap

end Fs
end Xv6
