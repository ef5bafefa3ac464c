/-
  Xv6.User.HeapInv

  The heap of a user program.
-/

import Xv6.Lib.Transition
import Xv6.User.FreeList

namespace Xv6
namespace Heap

open Function Finset

variable {h : Heap} {F V : Finset Nat} {n p prevp : Nat}
variable {fuel a q top : Nat} {brk : Option (Nat × Nat)} {h' : Heap} {F' : Finset Nat}

/-! ## Taking a block -/

structure Taken (h : Heap) (F V : Finset Nat) (n : Nat) (h' : Heap) (F' : Finset Nat) (q : Nat) :
    Prop where
  good : Good h' F' (insert q V)
  base : h'.base = h.base
  mem : h'.mem = h.mem
  new : q ∉ V
  size : h'.size q = n
  units : h'.units F' + n = h.units F
  covers : ∀ x, h'.Covers F' x → h.Covers F x
  block : ∀ x, q ≤ x → x < q + HEADER * n → h.Covers F x
  used : ∀ v ∈ V, h'.size v = h.size v

theorem Good.take_all (hg : Good h F V) (hprev : prevp ∈ F) (hp : h.ptr prevp = p)
    (hn : 0 < n) (hsize : h.size p = n) :
    Taken h F V n { h.setPtr prevp (h.ptr p) with freep := prevp } (F.erase p) p := by
  have hpF : p ∈ F := hp ▸ hg.ptr_mem hprev
  have hpbase : p ≠ h.base := by
    rintro rfl
    have := hg.base_size
    omega
  have hlt : prevp < p := by
    rcases hg.next prevp hprev with ⟨hlt, -, -⟩ | ⟨hwrap, -⟩
    · omega
    · exact absurd (hp.symm.trans hwrap) hpbase
  have hmem : ∀ a, a ∈ F.erase p ∨ a ∈ insert p V → a ∈ F ∨ a ∈ V := by
    rintro a (ha | ha)
    · exact .inl (mem_of_mem_erase ha)
    · rcases mem_insert.mp ha with rfl | ha
      · exact .inl hpF
      · exact .inr ha
  refine ⟨⟨⟨mem_erase.mpr ⟨Ne.symm hpbase, hg.base_mem⟩, hg.base_size, fun a ha => ?_,
    fun a ha => hg.block a (hmem a ha), fun a c ha hc => hg.apart a c (hmem a ha) (hmem c hc),
    fun a ha hF => ?_⟩, fun a ha hne _ => ?_, mem_erase.mpr ⟨Nat.ne_of_lt hlt, hprev⟩⟩, rfl, rfl,
    fun hV => hg.used p hV hpF, hsize, ?_, ?_, fun x hlo hhi => ⟨p, hpF, hlo, by rw [hsize]; exact hhi⟩,
    fun _ _ => rfl⟩
  · subst hp
    exact hg.next_erase hprev hpbase ha
  · rcases mem_insert.mp ha with rfl | ha
    · exact (mem_erase.mp hF).1 rfl
    · exact hg.used a ha (mem_of_mem_erase hF)
  · -- the gap before the block has become larger
    obtain ⟨hap, haF⟩ := mem_erase.mp ha
    show a + HEADER * h.size a ≠ update h.ptr prevp (h.ptr p) a
    by_cases hprevp : a = prevp
    · rw [hprevp] at hne ⊢
      rw [update_self]
      have happ := hg.apart prevp p (.inl hprev) (.inl hpF) hlt
      have hne' : prevp ≠ h.base := hne
      have hbase := hg.base_le hprev
      rcases hg.next p hpF with ⟨hgt, -, -⟩ | ⟨hwrap, -⟩
      · omega
      · rw [hwrap]
        omega
    · rw [update_of_ne hprevp]
      exact hg.gaps a haF hne id
  · show ∑ a ∈ F.erase p, h.size a + n = ∑ a ∈ F, h.size a
    rw [← add_sum_erase F h.size hpF, hsize, Nat.add_comm]
  · rintro x ⟨a, ha, hlo, hhi⟩
    exact ⟨a, mem_of_mem_erase ha, hlo, hhi⟩

theorem Good.take_tail (hg : Good h F V) (hpF : p ∈ F) (hprev : prevp ∈ F)
    (hn : 0 < n) (hsize : n < h.size p) :
    Taken h F V n
      { (h.setSize p (h.size p - n)).setSize (p + HEADER * (h.size p - n)) n with freep := prevp } F
      (p + HEADER * (h.size p - n)) := by
  generalize hq : p + HEADER * (h.size p - n) = q
  have hpbase : p ≠ h.base := by
    rintro rfl
    have := hg.base_size
    omega
  have hlow := (hg.block p (.inl hpF) hpbase).1
  simp only [HEADER] at hq hlow
  have hpq : p < q := by omega
  -- the tail end is in nobody else's way
  have hout : ∀ a, a ∈ F ∨ a ∈ V → a ≤ p ∨ p + 8 * h.size p ≤ a := by
    intro a ha
    rcases Nat.lt_or_ge p a with hlt | hge
    · exact .inr (hg.apart p a (.inl hpF) ha hlt)
    · exact .inl hge
  have hqF : q ∉ F := fun hmem => by
    have := hout q (.inl hmem)
    omega
  have hqV : q ∉ V := fun hmem => by
    have := hout q (.inr hmem)
    omega
  have hsizeq : update (update h.size p (h.size p - n)) q n q = n := update_self ..
  have hsizep : update (update h.size p (h.size p - n)) q n p = h.size p - n := by
    rw [update_of_ne (by omega), update_self]
  have hsizea : ∀ a, a ≠ p → a ≠ q → update (update h.size p (h.size p - n)) q n a = h.size a := by
    intro a hap haq
    rw [update_of_ne haq, update_of_ne hap]
  have hin : ∀ a, a ∈ F ∨ a ∈ insert q V → a = q ∨ (a ≠ q ∧ (a ∈ F ∨ a ∈ V)) := by
    intro a ha
    by_cases haq : a = q
    · exact .inl haq
    · exact .inr ⟨haq, ha.imp_right fun ha => (mem_insert.mp ha).resolve_left haq⟩
  have hne : ∀ a ∈ F, a ≠ q := fun a ha heq => hqF (heq ▸ ha)
  refine ⟨⟨⟨hg.base_mem, ?_, hg.next, fun a ha hab => ?_, fun a c ha hc hac => ?_, fun a ha hF => ?_⟩,
    fun a ha hab _ => ?_, hprev⟩, rfl, rfl, hqV, hsizeq, ?_, ?_, fun x hlo hhi => ?_, fun v hv => ?_⟩
  · show update (update h.size p (h.size p - n)) q n h.base = 0
    rw [hsizea _ (Ne.symm hpbase) (hne _ hg.base_mem)]
    exact hg.base_size
  · show h.base + HEADER ≤ a ∧ 0 < update (update h.size p (h.size p - n)) q n a
    rcases hin a ha with rfl | ⟨haq, ha'⟩
    · rw [hsizeq]
      simp only [HEADER]
      omega
    · by_cases hap : a = p
      · rw [hap, hsizep]
        simp only [HEADER]
        omega
      · rw [hsizea a hap haq]
        exact hg.block a ha' hab
  · show a + HEADER * update (update h.size p (h.size p - n)) q n a ≤ c
    simp only [HEADER]
    rcases hin a ha with rfl | ⟨haq, ha'⟩
    · rw [hsizeq]
      rcases hin c hc with rfl | ⟨hcq, hc'⟩
      · omega
      · have := hout c hc'
        omega
    · by_cases hap : a = p
      · subst hap
        rw [hsizep]
        rcases hin c hc with rfl | ⟨hcq, hc'⟩
        · omega
        · have := hout c hc'
          omega
      · rw [hsizea a hap haq]
        rcases hin c hc with rfl | ⟨hcq, hc'⟩
        · have h1 := hout a ha'
          have h2 := hg.apart a p ha' (.inl hpF) (by omega)
          simp only [HEADER] at h2
          omega
        · exact hg.apart a c ha' hc' hac
  · rcases mem_insert.mp ha with rfl | ha
    · exact hqF hF
    · exact hg.used a ha hF
  · show a + HEADER * update (update h.size p (h.size p - n)) q n a ≠ h.ptr a
    by_cases hap : a = p
    · subst hap
      rw [hsizep]
      simp only [HEADER]
      rw [hq]
      exact fun heq => hqF (heq ▸ hg.ptr_mem ha)
    · rw [hsizea a hap (hne a ha)]
      exact hg.gaps a ha hab id
  · show ∑ a ∈ F, update (update h.size p (h.size p - n)) q n a + n = ∑ a ∈ F, h.size a
    rw [← add_sum_erase F _ hpF, ← add_sum_erase F h.size hpF, hsizep]
    have hsame : ∑ a ∈ F.erase p, update (update h.size p (h.size p - n)) q n a
        = ∑ a ∈ F.erase p, h.size a :=
      sum_congr rfl fun a ha => hsizea a (ne_of_mem_erase ha)
        (hne a (mem_of_mem_erase ha))
    rw [hsame]
    omega
  · rintro x ⟨a, ha, hlo, hhi⟩
    have hhi' : x < a + HEADER * update (update h.size p (h.size p - n)) q n a := hhi
    by_cases hap : a = p
    · rw [hap, hsizep] at hhi'
      rw [hap] at hlo
      refine ⟨p, hpF, hlo, ?_⟩
      simp only [HEADER] at *
      omega
    · rw [hsizea a hap (hne a ha)] at hhi'
      exact ⟨a, ha, hlo, hhi'⟩
  · refine ⟨p, hpF, by omega, ?_⟩
    simp only [HEADER] at *
    omega
  · have hvp : v ≠ p := fun heq => hg.used v hv (heq ▸ hpF)
    have hvq : v ≠ q := fun heq => hqV (heq ▸ hv)
    exact hsizea v hvp hvq

theorem Good.take (hg : Good h F V) (hprev : prevp ∈ F) (hp : h.ptr prevp = p)
    (hn : 0 < n) (hsize : n ≤ h.size p) : ∃ F', Taken h F V n (h.take n prevp p).1 F' (h.take n prevp p).2 := by
  have hpF : p ∈ F := hp ▸ hg.ptr_mem hprev
  unfold Heap.take
  by_cases heq : h.size p = n
  · rw [if_pos heq]
    exact ⟨_, hg.take_all hprev hp hn heq⟩
  · rw [if_neg heq]
    have hself : (h.setSize p (h.size p - n)).size p = h.size p - n := update_self ..
    simp only [hself]
    exact ⟨F, hg.take_tail hpF hprev hn (by omega)⟩

/-! ## Walking around the list -/

theorem mallocLoop_fits (hsize : n ≤ h.size p) :
    h.mallocLoop n (fuel + 1) brk prevp p = some (h.take n prevp p) := by
  unfold mallocLoop
  exact if_pos hsize

theorem mallocLoop_next (hsize : ¬ n ≤ h.size p) (hp : p ≠ h.freep) :
    h.mallocLoop n (fuel + 1) brk prevp p = h.mallocLoop n fuel brk p (h.ptr p) := by
  conv_lhs => unfold mallocLoop
  rw [if_neg hsize, if_neg hp]

theorem mallocLoop_fails (hsize : ¬ n ≤ h.size h.freep) :
    h.mallocLoop n (fuel + 1) none prevp h.freep = some (h, 0) := by
  unfold mallocLoop
  rw [if_neg hsize, if_pos rfl]

theorem mallocLoop_grows (hsize : ¬ n ≤ h.size h.freep) :
    h.mallocLoop n (fuel + 1) (some (a, top)) prevp h.freep
      = (h.morecore (fuel + 1) n a top).bind fun h' =>
      h'.mallocLoop n fuel none h'.freep (h'.ptr h'.freep) := by
  conv_lhs => unfold mallocLoop
  rw [if_neg hsize, if_pos rfl]
  rfl

theorem Links.not_passed_next (hl : Links h F V) {f c : Nat} (hf : f ∈ F) (hc : c ∈ F) :
    ¬ Passed f (h.ptr f) c := by
  have hbase := hl.base_le hc
  rintro (⟨hlt, hfc, hcp⟩ | ⟨hge, hout⟩)
  · rcases hl.next f hf with ⟨-, -, hnext⟩ | ⟨hwrap, hlast⟩
    · have := hnext c hc hfc
      omega
    · have := hlast c hc
      omega
  · rcases hl.next f hf with ⟨hlt, -, -⟩ | ⟨hwrap, hlast⟩
    · omega
    · have := hlast c hc
      omega

/-- **The loop of `malloc`** finds a block that is large enough, or comes to
    `freep` and all blocks are too small. -/
theorem Good.search (hg : Good h F V) (fuel : Nat) (brk : Option (Nat × Nat)) (hprev : prevp ∈ F)
    (hp : h.ptr prevp = p) (hsmall : ∀ c ∈ F, Passed h.freep p c → h.size c < n)
    (hfuel : (F.filter fun c => ¬ Passed h.freep p c).card ≤ fuel) :
    (∃ prevp' p', prevp' ∈ F ∧ h.ptr prevp' = p' ∧ n ≤ h.size p' ∧
      h.mallocLoop n fuel brk prevp p = some (h.take n prevp' p')) ∨
    ((∀ c ∈ F, h.size c < n) ∧ ∃ f prevp',
      fuel ≤ f + (F.filter fun c => ¬ Passed h.freep p c).card ∧
      h.mallocLoop n fuel brk prevp p = h.mallocLoop n (f + 1) brk prevp' h.freep) := by
  have hpF : p ∈ F := hp ▸ hg.ptr_mem hprev
  have hfree : ∀ p, h.freep ∈ F.filter fun c => ¬ Passed h.freep p c := fun p =>
    mem_filter.mpr ⟨hg.freep, not_passed_self h.freep p⟩
  induction fuel generalizing prevp p with
  | zero => exact absurd (card_pos.mpr ⟨_, hfree p⟩) (by omega)
  | succ fuel ih =>
    by_cases hsize : n ≤ h.size p
    · refine .inl ⟨prevp, p, hprev, hp, hsize, ?_⟩
      exact mallocLoop_fits hsize
    · by_cases hpf : p = h.freep
      · -- the walk is over
        refine .inr ⟨fun c hc => ?_, fuel, prevp, ?_, by rw [← hpf]⟩
        · by_cases hcp : c = p
          · rw [hcp]
            omega
          · refine hsmall c hc ?_
            unfold Passed
            omega
        · have := card_pos.mpr ⟨_, hfree p⟩
          omega
      · have hless := hg.left_step hg.freep hpF hpf
        rw [mallocLoop_next hsize hpf]
        refine (ih hpF rfl (fun c hc hpass => ?_) (by omega) (hg.ptr_mem hpF)).imp_right ?_
        · rcases (hg.passed_step hg.freep hpF hpf hc).mp hpass with hpass | rfl
          · exact hsmall c hc hpass
          · omega
        · rintro ⟨hall, f, prevp', hf, heq⟩
          exact ⟨hall, f, prevp', by omega, heq⟩

theorem Good.finds (hg : Good h F V) (hn : 0 < n) (brk : Option (Nat × Nat))
    (hfuel : F.card ≤ fuel) (hlarge : ∃ a ∈ F, n ≤ h.size a) : ∃ h' F' q,
    h.mallocLoop n fuel brk h.freep (h.ptr h.freep) = some (h', q) ∧ Taken h F V n h' F' q := by
  rcases hg.search (n := n) fuel brk hg.freep rfl
    (fun c hc hpass => absurd hpass (hg.not_passed_next hg.freep hc))
    ((card_le_card (filter_subset _ _)).trans hfuel) with
    ⟨prevp', p', hprev, hp, hsize, heq⟩ | ⟨hall, -⟩
  · obtain ⟨F', htaken⟩ := hg.take hprev hp hn hsize
    exact ⟨_, F', _, heq, htaken⟩
  · obtain ⟨a, ha, hsize⟩ := hlarge
    exact absurd (hall a ha) (by omega)

/-! ## Memory -/

def InMem (h : Heap) (x : Nat) : Prop := ∃ r ∈ h.mem, r.1 ≤ x ∧ x < r.1 + HEADER * r.2

def obtained (h : Heap) : Nat := (h.mem.map Prod.snd).sum

/-- **The heap is in order**: the free list `F`, and the blocks `V` in use. -/
structure Sound (h : Heap) (F V : Finset Nat) : Prop extends Good h F V where
  free_mem : ∀ x, h.Covers F x → h.InMem x
  used_mem : ∀ x, h.Covers V x → h.InMem x
  total : h.units F + h.units V = h.obtained

def Fresh (h : Heap) (a : Nat) : Prop :=
  h.base + HEADER ≤ a ∧ ∀ r ∈ h.mem, r.1 + HEADER * r.2 ≤ a

instance (h : Heap) (a : Nat) : Decidable (Fresh h a) := inferInstanceAs (Decidable (_ ∧ _))

theorem Sound.end_le (hs : Sound h F V) {c : Nat} (ha : a ∈ F ∨ a ∈ V) (hc : h.Fresh c) :
    a + HEADER * h.size a ≤ c := by
  obtain ⟨hbase, habove⟩ := hc
  by_cases hab : a = h.base
  · rw [hab, hs.base_size]
    omega
  · have hpos := (hs.block a ha hab).2
    have hcover : h.InMem (a + HEADER * h.size a - 1) := by
      simp only [HEADER]
      rcases ha with ha | ha
      · exact hs.free_mem _ ⟨a, ha, by omega, by simp only [HEADER]; omega⟩
      · exact hs.used_mem _ ⟨a, ha, by omega, by simp only [HEADER]; omega⟩
    obtain ⟨r, hr, -, hlt⟩ := hcover
    have := habove r hr
    omega

theorem Good.of_subset {V' : Finset Nat} (hg : Good h F V) (hsub : V' ⊆ V) : Good h F V' :=
  ⟨⟨hg.base_mem, hg.base_size, hg.next, fun a ha => hg.block a (ha.imp_right fun ha => hsub ha),
    fun a c ha hc => hg.apart a c (ha.imp_right fun ha => hsub ha) (hc.imp_right fun hc => hsub hc),
    fun a ha => hg.used a (hsub ha)⟩, hg.gaps, hg.freep⟩

theorem Sound.free (hs : Sound h F V) {b : Nat} (hb : b ∈ V) (hfuel : F.card ≤ fuel) : ∃ h' F',
    h.freeBlock fuel b = some h' ∧ Sound h' F' (V.erase b) ∧ h'.mem = h.mem ∧ h'.base = h.base := by
  have hbF := hs.used b hb
  have hbbase : b ≠ h.base := fun heq => hbF (heq ▸ hs.base_mem)
  have hin : ∀ a, a ∈ F ∨ a ∈ V.erase b → a ∈ F ∨ a ∈ V := fun a ha => ha.imp_right mem_of_mem_erase
  have hloose : Loose h F (V.erase b) b :=
    ⟨hbF, notMem_erase b V, (hs.block b (.inr hb) hbbase).1, (hs.block b (.inr hb) hbbase).2,
      fun a ha hlt => hs.apart a b (hin a ha) (.inr hb) hlt,
      fun a ha hlt => hs.apart b a (.inr hb) (hin a ha) hlt⟩
  obtain ⟨h', F', hrun, hgood, -, hr⟩ := (hs.toGood.of_subset (erase_subset b V)).freeBlock
    hloose hfuel
  have hsame : ∀ v ∈ V.erase b, h'.size v = h.size v := by
    intro v hv
    refine hr.rest v fun hmem => ?_
    rcases mem_insert.mp hmem with rfl | hmem
    · exact notMem_erase v V hv
    · exact hs.used v (mem_of_mem_erase hv) hmem
  have hmem : ∀ x, h'.InMem x ↔ h.InMem x := fun x => by rw [InMem, InMem, hr.mem]
  refine ⟨h', F', hrun, ⟨hgood, fun x hx => (hmem x).mpr ?_, fun x hx => (hmem x).mpr ?_, ?_⟩, hr.mem,
    hr.base⟩
  · obtain ⟨a, ha, hlo, hhi⟩ := hr.covers x hx
    rcases mem_insert.mp ha with rfl | ha
    · exact hs.used_mem x ⟨a, hb, hlo, hhi⟩
    · exact hs.free_mem x ⟨a, ha, hlo, hhi⟩
  · obtain ⟨v, hv, hlo, hhi⟩ := hx
    rw [hsame v hv] at hhi
    exact hs.used_mem x ⟨v, mem_of_mem_erase hv, hlo, hhi⟩
  · have htotal := hs.total
    have hfree : h'.units F' = h.size b + h.units F := by
      rw [hr.units]
      exact sum_insert hbF
    have hused : h'.units (V.erase b) = h.units (V.erase b) := sum_congr rfl hsame
    have hsplit : h.size b + h.units (V.erase b) = h.units V := add_sum_erase V h.size hb
    have hobt : h'.obtained = h.obtained := by rw [obtained, obtained, hr.mem]
    omega

theorem le_coreUnits (n : Nat) : n ≤ coreUnits n := by
  unfold coreUnits
  split <;> omega

theorem Sound.morecore (hs : Sound h F V) (ha : h.Fresh a) (htop : a + HEADER ≤ top) (hn : 0 < n)
    (hfuel : F.card ≤ fuel) : ∃ h' F', h.morecore fuel n a top = some h' ∧ Sound h' F' V ∧ h'.base = h.base ∧
      F'.card ≤ F.card + 1 ∧ (∃ c ∈ F', n ≤ h'.size c) ∧ (∀ v ∈ V, h'.size v = h.size v) ∧
      h'.mem = (a, coreUnits n) :: h.mem := by
  have hcore := le_coreUnits n
  have hbase := ha.1
  have hend : ∀ c, c ∈ F ∨ c ∈ V → c + HEADER * h.size c ≤ a := fun c hc => hs.end_le hc ha
  -- the new block is none of the old ones
  have hne : ∀ c, c ∈ F ∨ c ∈ V → c ≠ a := by
    rintro c hc rfl
    by_cases hcb : c = h.base
    · simp only [HEADER] at hbase
      omega
    · have h1 := (hs.block c hc hcb).2
      have h2 := hend c hc
      simp only [HEADER] at h2
      omega
  generalize hh1 : ({ h.setSize a (coreUnits n) with mem := (a, coreUnits n) :: h.mem } : Heap) = h₁
  have hself : h₁.size a = coreUnits n := by
    rw [← hh1]
    exact update_self ..
  have hsize : ∀ c, c ∈ F ∨ c ∈ V → h₁.size c = h.size c := by
    intro c hc
    rw [← hh1]
    exact update_of_ne (hne c hc) ..
  have hbase1 : h₁.base = h.base := by rw [← hh1]; rfl
  have hptr1 : h₁.ptr = h.ptr := by rw [← hh1]; rfl
  have hfreep1 : h₁.freep = h.freep := by rw [← hh1]; rfl
  have hmem1 : h₁.mem = (a, coreUnits n) :: h.mem := by rw [← hh1]
  have hgood1 : Good h₁ F V := by
    refine ⟨⟨?_, ?_, fun c hc => ?_, fun c hc hcb => ?_, fun c d hc hd hlt => ?_, hs.used⟩,
      fun c hc hcb _ => ?_, ?_⟩
    · rw [hbase1]
      exact hs.base_mem
    · rw [hbase1, hsize _ (.inl hs.base_mem)]
      exact hs.base_size
    · rw [hbase1, hptr1]
      exact hs.next c hc
    · rw [hbase1] at hcb ⊢
      rw [hsize c hc]
      exact hs.block c hc hcb
    · rw [hsize c hc]
      exact hs.apart c d hc hd hlt
    · rw [hbase1] at hcb
      rw [hsize c (.inl hc), hptr1]
      exact hs.gaps c hc hcb id
    · rw [hfreep1]
      exact hs.freep
  have hloose : Loose h₁ F V a := by
    refine ⟨fun hmem => hne a (.inl hmem) rfl, fun hmem => hne a (.inr hmem) rfl, ?_, ?_,
      fun c hc _ => ?_, fun c hc hlt => ?_⟩
    · rw [hbase1]
      exact hbase
    · rw [hself]
      omega
    · rw [hsize c hc]
      exact hend c hc
    · have := hend c hc
      omega
  obtain ⟨h', F', hrun, hgood, -, hr⟩ := hgood1.freeBlock hloose hfuel
  have haF : a ∉ F := fun hmem => hne a (.inl hmem) rfl
  have hsame : ∀ v ∈ V, h'.size v = h.size v := by
    intro v hv
    rw [hr.rest v fun hmem => ?_, hsize v (.inr hv)]
    rcases mem_insert.mp hmem with rfl | hmem
    · exact hne v (.inr hv) rfl
    · exact hs.used v hv hmem
  have hmem' : h'.mem = (a, coreUnits n) :: h.mem := hr.mem.trans hmem1
  have hold : ∀ x, h.InMem x → h'.InMem x := by
    rintro x ⟨r, hr, hx⟩
    refine ⟨r, ?_, hx⟩
    rw [hmem']
    exact List.mem_cons_of_mem _ hr
  refine ⟨h', F', ?_, ⟨hgood, fun x hx => ?_, fun x hx => hold x ?_, ?_⟩, hr.base.trans hbase1,
    hr.card.trans (card_insert_le _ _), ?_, hsame, hmem'⟩
  · rw [Heap.morecore, if_neg (by omega), ← hrun, ← hh1]
  · obtain ⟨c, hc, hlo, hhi⟩ := hr.covers x hx
    rcases mem_insert.mp hc with rfl | hc
    · rw [hself] at hhi
      refine ⟨(c, coreUnits n), ?_, hlo, hhi⟩
      rw [hmem']
      exact List.mem_cons_self
    · rw [hsize c (.inl hc)] at hhi
      exact hold x (hs.free_mem x ⟨c, hc, hlo, hhi⟩)
  · obtain ⟨v, hv, hlo, hhi⟩ := hx
    rw [hsame v hv] at hhi
    exact hs.used_mem x ⟨v, hv, hlo, hhi⟩
  · have htotal := hs.total
    have hfree : h'.units F' = coreUnits n + h.units F := by
      rw [hr.units, ← hself]
      have hsum : h₁.units F = h.units F := sum_congr rfl fun c hc => hsize c (.inl hc)
      rw [← hsum]
      exact sum_insert haF
    have hused : h'.units V = h.units V := sum_congr rfl hsame
    have hobt : h'.obtained = coreUnits n + h.obtained := by
      rw [obtained, obtained, hmem', List.map_cons, List.sum_cons]
    omega
  · obtain ⟨c, hc, hle⟩ := hr.large a (mem_insert_self ..)
    rw [hself] at hle
    exact ⟨c, hc, hcore.trans hle⟩

/-! ## `malloc` -/

theorem Sound.card_le (hs : Sound h F V) : F.card ≤ h.obtained + 1 := by
  have hsum : (F.erase h.base).card ≤ ∑ a ∈ F.erase h.base, h.size a := by
    rw [card_eq_sum_ones]
    refine sum_le_sum fun a ha => ?_
    obtain ⟨hne, ha⟩ := mem_erase.mp ha
    exact (hs.block a (.inl ha) hne).2
  have hsplit : h.size h.base + ∑ a ∈ F.erase h.base, h.size a = h.units F :=
    add_sum_erase F h.size hs.base_mem
  have hcard := card_erase_of_mem hs.base_mem
  have htotal := hs.total
  omega

theorem Taken.sound (hs : Sound h F V) (ht : Taken h F V n h' F' q) : Sound h' F' (insert q V) := by
  have hmem : ∀ x, h.InMem x → h'.InMem x := fun x hx => by rwa [InMem, ht.mem]
  refine ⟨ht.good, fun x hx => hmem x (hs.free_mem x (ht.covers x hx)), fun x hx => hmem x ?_, ?_⟩
  · obtain ⟨v, hv, hlo, hhi⟩ := hx
    rcases mem_insert.mp hv with rfl | hv
    · rw [ht.size] at hhi
      exact hs.free_mem x (ht.block x hlo hhi)
    · rw [ht.used v hv] at hhi
      exact hs.used_mem x ⟨v, hv, hlo, hhi⟩
  · have hused : h'.units (insert q V) = n + h.units V := by
      rw [Heap.units, sum_insert ht.new, ht.size, sum_congr rfl ht.used]
      rfl
    have hobt : h'.obtained = h.obtained := by rw [obtained, obtained, ht.mem]
    have htotal := hs.total
    have hunits := ht.units
    omega

theorem Taken.ne_zero (ht : Taken h F V n h' F' q) : q ≠ 0 := by
  have hmem : q ∈ insert q V := mem_insert_self ..
  have hne : q ≠ h'.base := fun heq => ht.good.used q hmem (heq ▸ ht.good.base_mem)
  have hlow := (ht.good.block q (.inr hmem) hne).1
  simp only [HEADER] at hlow
  omega

/-- What a call of `malloc` for `n` units does. -/
structure Served (h : Heap) (F V : Finset Nat) (n : Nat) (brk : Option (Nat × Nat)) (h' : Heap)
    (q : Nat) : Prop where
  base : h'.base = h.base
  mem : (h'.mem = h.mem ∧ (q = 0 ∨ ∃ c ∈ F, n ≤ h.size c)) ∨
    ∃ r ∈ brk, h'.mem = (r.1, coreUnits n) :: h.mem
  fails : q = 0 → brk = none ∧ ∀ c ∈ F, h.size c < n
  found : ∃ F', Sound h' F' (if q = 0 then V else insert q V)
  block : q ≠ 0 → q ∉ V ∧ h'.size q = n

/-- **`malloc` returns**, with a block or without one. -/
theorem Sound.mallocLoop (hs : Sound h F V) (hn : 0 < n)
    (hbrk : ∀ r ∈ brk, h.Fresh r.1 ∧ r.1 + HEADER ≤ r.2) (hfuel : 2 * F.card + 1 ≤ fuel) :
    ∃ h' q, h.mallocLoop n fuel brk h.freep (h.ptr h.freep) = some (h', q) ∧
      Served h F V n brk h' q := by
  rcases hs.search (n := n) fuel brk hs.freep rfl
    (fun c hc hpass => absurd hpass (hs.not_passed_next hs.freep hc))
    ((card_le_card (filter_subset _ _)).trans (by omega)) with
    ⟨prevp', p', hprev, hp, hsize, heq⟩ | ⟨hall, f, prevp', hf, heq⟩
  · obtain ⟨F', ht⟩ := hs.take hprev hp hn hsize
    refine ⟨(h.take n prevp' p').1, (h.take n prevp' p').2, heq, ht.base,
      .inl ⟨ht.mem, .inr ⟨p', hp ▸ hs.ptr_mem hprev, hsize⟩⟩, fun h0 => absurd h0 ht.ne_zero,
      ⟨F', ?_⟩, fun _ => ⟨ht.new, ht.size⟩⟩
    rw [if_neg ht.ne_zero]
    exact ht.sound hs
  · have hf' : F.card + 1 ≤ f := by
      have := card_le_card (filter_subset (fun c => ¬ Passed h.freep (h.ptr h.freep) c) F)
      omega
    have hsmall : ¬ n ≤ h.size h.freep := Nat.not_le.mpr (hall _ hs.freep)
    rw [heq]
    cases brk with
    | none =>
      refine ⟨h, 0, mallocLoop_fails hsmall, rfl, .inl ⟨rfl, .inl rfl⟩, fun _ => ⟨rfl, hall⟩,
        ⟨F, ?_⟩, fun h0 => absurd rfl h0⟩
      rw [if_pos rfl]
      exact hs
    | some r =>
      obtain ⟨h1, F1, hrun, hs1, hbase1, hcard1, hlarge, hsame, hmem1⟩ :=
        hs.morecore (hbrk r rfl).1 (hbrk r rfl).2 hn (by omega : F.card ≤ f + 1)
      obtain ⟨h', F', q, hloop, ht⟩ := hs1.finds hn none (by omega : F1.card ≤ f) hlarge
      refine ⟨h', q, ?_, ht.base.trans hbase1, .inr ⟨r, rfl, ht.mem.trans hmem1⟩,
        fun h0 => absurd h0 ht.ne_zero, ⟨F', ?_⟩, fun _ => ⟨ht.new, ht.size⟩⟩
      · rw [mallocLoop_grows hsmall, hrun]
        exact hloop
      · rw [if_neg ht.ne_zero]
        exact ht.sound hs1

/-- No block is free: the list is `base` alone. -/
theorem Sound.only_base_iff (hs : Sound h F V) :
    (∀ c ∈ F, h.size c < 1) ↔ h.ptr h.base = h.base := by
  constructor
  · intro hsmall
    by_contra hne
    have hmem := hs.ptr_mem hs.base_mem
    have hpos := (hs.block _ (.inl hmem) hne).2
    have := hsmall _ hmem
    omega
  · intro hptr c hc
    rcases hs.next h.base hs.base_mem with ⟨hlt, -⟩ | ⟨-, hmax⟩
    · omega
    · rw [le_antisymm (hmax c hc) (hs.base_le hc), hs.base_size]
      exact Nat.one_pos

/-- Without a large block, and without memory for the header of a new one, `malloc` faults. -/
theorem Sound.mallocLoop_faults (hs : Sound h F V) (hsmall : ∀ c ∈ F, h.size c < n)
    (htop : top < a + HEADER) (hfuel : F.card ≤ fuel) :
    h.mallocLoop n fuel (some (a, top)) h.freep (h.ptr h.freep) = none := by
  rcases hs.search (n := n) fuel (some (a, top)) hs.freep rfl
    (fun c hc hpass => absurd hpass (hs.not_passed_next hs.freep hc))
    ((card_le_card (filter_subset _ _)).trans hfuel) with
    ⟨prevp', p', hprev, hp, hsize, -⟩ | ⟨-, f, prevp', -, heq⟩
  · exact absurd hsize (Nat.not_le.mpr (hsmall p' (hp ▸ hs.ptr_mem hprev)))
  · rw [heq, mallocLoop_grows (Nat.not_le.mpr (hsmall _ hs.freep)), Heap.morecore, if_pos htop]
    rfl

end Heap
end Xv6
