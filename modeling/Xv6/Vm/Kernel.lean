/-
  Xv6.Vm.Kernel

  The kernel part of a page table (setupkvm).
-/

import Xv6.Vm.Grow

namespace Xv6.Vm

open List Wp Pgdir

variable {L : Layout} {d d' : Pgdir} {s s' : Kmem} {v k : ℕ} {E : String → Kmem → Prop}
variable {pa x : ℕ} {w : Bool} {Q : Option Pgdir → Kmem → Prop} {m : Kmap} {ms : List Kmap}

/-! ## Mapping a range above `KERNBASE` -/

structure Mapped (d : Pgdir) (v k pa : ℕ) (w : Bool) (s : Kmem) (d' : Pgdir) (s' : Kmem) :
    Prop where
  wf : d'.WF
  page : d'.page = d.page
  keep : ∀ i p, d.tab i = some p → d'.tab i = some p
  tab : ∀ i, d'.tab i ≠ none ↔ d.tab i ≠ none ∨ ∃ x, v ≤ x ∧ x < v + k ∧ i = x / NPTENTRIES
  pte : ∀ x, d'.pte x = if v ≤ x ∧ x < v + k then ⟨pa + (x - v), true, w, false⟩ else d.pte x
  pages : d'.pages + s'.total = d.pages + s.total
  data : s'.data = s.data
  dropped : s'.dropped = s.dropped
  free : s'.free <:+ s.free

theorem Mapped.refl (hwf : d.WF) : Mapped d v 0 pa w s d s where
  wf := hwf
  page := rfl
  keep := fun _ _ h => h
  tab := fun i => ⟨.inl, by
    rintro (h | ⟨x, hx, hxv, -⟩)
    · exact h
    · omega⟩
  pte := fun x => by rw [if_neg (by omega)]
  pages := rfl
  data := rfl
  dropped := rfl
  free := suffix_rfl

theorem Mapped.cons {d1 : Pgdir} {s1 : Kmem} (hv : UPAGES ≤ v) (hwalk : Walked d v s d1 s1)
    (h : Mapped (d1.setPte v ⟨pa, true, w, false⟩) (v + 1) k (pa + 1) w s1 d' s') :
    Mapped d v (k + 1) pa w s d' s' := by
  refine ⟨h.wf, h.page.trans hwalk.page, fun i p hp => h.keep i p (hwalk.keep i p hp), fun i => ?_,
    fun x => ?_, ?_, h.data.trans hwalk.data, h.dropped.trans hwalk.dropped,
    h.free.trans hwalk.free⟩
  · rw [h.tab, setPte_tab, hwalk.tab]
    constructor
    · rintro ((htab | rfl) | ⟨x, hx, hxk, rfl⟩)
      · exact .inl htab
      · exact .inr ⟨v, le_rfl, by omega, rfl⟩
      · exact .inr ⟨x, by omega, by omega, rfl⟩
    · rintro (htab | ⟨x, hx, hxk, rfl⟩)
      · exact .inl (.inl htab)
      · by_cases hxv : x = v
        · exact .inl (.inr (by rw [hxv]))
        · exact .inr ⟨x, by omega, by omega, rfl⟩
  · rw [h.pte]
    by_cases hx : v + 1 ≤ x ∧ x < v + 1 + k
    · rw [if_pos hx, if_pos (by omega), show pa + 1 + (x - (v + 1)) = pa + (x - v) by omega]
    · rw [if_neg hx]
      by_cases hxv : x = v
      · rw [if_pos (by omega), hxv, setPte_self, Nat.sub_self, Nat.add_zero]
      · rw [if_neg (by omega), setPte_of_ne hxv, hwalk.pte]
  · rw [h.pages, pages_setPte_kernel hv, hwalk.pages]

theorem wp_mapLoop {Q : Pgdir × Bool → Kmem → Prop} (hwf : d.WF) (hv : UPAGES ≤ v)
    (hk : v + k ≤ 2 * UPAGES) (habs : ∀ x, v ≤ x → x < v + k → (d.pte x).p = false)
    (hfail : ∀ j < k, ∀ d' s', Mapped d v j pa w s d' s' → s'.free = [] →
      d'.tab ((v + j) / NPTENTRIES) = none → Q (d', false) s')
    (hok : ∀ d' s', Mapped d v k pa w s d' s' → Q (d', true) s') : wp (mapLoop w false k v pa d)
    Q E s := by
  induction k generalizing d v pa s with
  | zero => exact hok d s (Mapped.refl hwf)
  | succ k ih =>
    rw [mapLoop]
    refine wp_seq (wp_walk hwf (by omega) (fun hnil htab => ?_) fun d1 s1 hwalk => ?_)
    · exact hfail 0 (by omega) d s (Mapped.refl hwf) hnil htab
    · have hv1 : ¬ (d1.pte v).p = true := by
        rw [hwalk.pte, habs v le_rfl (by omega)]
        exact Bool.false_ne_true
      have htab : d1.tab (v / NPTENTRIES) ≠ none := (hwalk.tab _).mpr (.inr rfl)
      dsimp only
      rw [if_neg hv1]
      refine ih (hwalk.wf.setPte htab (by simp)) (by omega) (by omega) (fun x hx hxk => ?_)
        (fun j hj d' s' h hnil hnone => ?_) fun d' s' h => ?_
      · rw [setPte_of_ne (by omega), hwalk.pte]
        exact habs x (by omega) (by omega)
      · rw [show v + 1 + j = v + (j + 1) by omega] at hnone
        exact hfail (j + 1) (by omega) d' s' (h.cons hv hwalk) hnil hnone
      · exact hok d' s' (h.cons hv hwalk)

/-! ## The kernel's mappings -/

def Kmap.first (m : Kmap) : ℕ := m.virt / PGSIZE

def Kmap.size (m : Kmap) : ℕ := (m.physEnd + 2 ^ 32 - m.physStart) % 2 ^ 32

def Kmap.count (m : Kmap) : ℕ := m.size / PGSIZE

def Kmap.Has (m : Kmap) (x : ℕ) : Prop := m.first ≤ x ∧ x < m.first + m.count

instance (m : Kmap) (x : ℕ) : Decidable (m.Has x) := inferInstanceAs (Decidable (_ ∧ _))

def Kmap.pte (m : Kmap) (x : ℕ) : Pte := ⟨m.physStart / PGSIZE + (x - m.first), true, m.w, false⟩

/-- The translation of a list of mappings. -/
def kpte : List Kmap → ℕ → Pte
  | [], _ => Pte.zero
  | m :: ms, x => if m.Has x then m.pte x else kpte ms x

/-- A mapping of whole pages above `KERNBASE`. -/
structure Kmap.Whole (m : Kmap) : Prop where
  virt : m.virt % PGSIZE = 0
  low : KERNBASE ≤ m.virt
  size : m.size % PGSIZE = 0
  pos : 0 < m.size
  high : m.virt + m.size ≤ 2 ^ 32

theorem Kmap.Whole.bounds (h : m.Whole) :
    UPAGES ≤ m.first ∧ 0 < m.count ∧ m.first + m.count ≤ 2 * UPAGES := by
  obtain ⟨h1, h2, h3, h4, h5⟩ := h
  unfold Kmap.first Kmap.count
  unfold PGSIZE at h1 h3
  unfold KERNBASE at h2
  unfold PGSIZE UPAGES
  omega

theorem Kmap.Whole.mappages (h : m.Whole) (d : Pgdir) :
    mappages d m.virt ((m.physEnd + 2 ^ 32 - m.physStart) % 2 ^ 32) m.physStart m.w false =
      mapLoop m.w false m.count m.first (m.physStart / PGSIZE) d := by
  obtain ⟨h1, h2, h3, h4, h5⟩ := h
  have hcount : (m.virt + m.size - 1) % 2 ^ 32 / PGSIZE + 1 - m.virt / PGSIZE = m.count := by
    unfold Kmap.count
    unfold PGSIZE at h1 h3
    unfold PGSIZE
    omega
  show mapLoop m.w false ((m.virt + m.size - 1) % 2 ^ 32 / PGSIZE + 1 - m.virt / PGSIZE) _ _ d = _
  rw [hcount]
  rfl

structure KMapped (ms : List Kmap) (d : Pgdir) (s : Kmem) (d' : Pgdir) (s' : Kmem) : Prop where
  wf : d'.WF
  page : d'.page = d.page
  tab : ∀ i, d'.tab i ≠ none ↔ d.tab i ≠ none ∨ ∃ m ∈ ms, ∃ x, m.Has x ∧ i = x / NPTENTRIES
  pte : ∀ x, d'.pte x = if ∃ m ∈ ms, m.Has x then kpte ms x else d.pte x
  pages : d'.pages + s'.total = d.pages + s.total
  data : s'.data = s.data
  dropped : s'.dropped = s.dropped
  free : s'.free <:+ s.free

/-- Where `mapKernel` gives up: a page table is missing, and there is no page for it. -/
structure Short (ms : List Kmap) (d : Pgdir) (s : Kmem) (d' : Pgdir) (s' : Kmem) : Prop where
  page : d'.page = d.page
  tab : ∀ i, d'.tab i ≠ none → d.tab i ≠ none ∨ ∃ m ∈ ms, ∃ x, m.Has x ∧ i = x / NPTENTRIES
  lacks : ∃ m ∈ ms, ∃ x, m.Has x ∧ d'.tab (x / NPTENTRIES) = none
  low : ∀ x < UPAGES, d'.pte x = Pte.zero
  pages : d'.pages + s'.total = d.pages + s.total
  data : s'.data = s.data
  dropped : s'.dropped = s.dropped
  empty : s'.free = []

theorem coe_ownPages (h : d.upages = 0) : (d.ownPages : Multiset ℕ) = d.pages := by
  rw [ownPages, ← Multiset.cons_coe, coe_tables, ← Multiset.singleton_add, pages, h, add_zero]

theorem upages_eq_zero (h : ∀ x < UPAGES, d.pte x = Pte.zero) : d.upages = 0 := by
  rw [upages]
  refine Finset.sum_eq_zero fun x hx => ?_
  rw [h x (mem_vpns.mp hx), page1_zero]

theorem wp_mapKernel (hwf : d.WF) (hwhole : ∀ m ∈ ms, m.Whole)
    (hdisj : ms.Pairwise fun m m' => ∀ x, m.Has x → ¬ m'.Has x)
    (hlow : ∀ x < UPAGES, d.pte x = Pte.zero) (habs : ∀ m ∈ ms, ∀ x, m.Has x → (d.pte x).p = false)
    (hfail : ∀ d' s', Short ms d s d' s' →
      Q none { s' with dropped := d'.ownPages ++ s'.dropped })
    (hok : ∀ d' s', KMapped ms d s d' s' → Q (some d') s') : wp (mapKernel ms d) Q E s := by
  induction ms generalizing d s with
  | nil =>
    refine hok d s ⟨hwf, rfl, fun i => ⟨.inl, ?_⟩, fun x => ?_, rfl, rfl, rfl, suffix_rfl⟩
    · rintro (h | ⟨m, hm, -⟩)
      · exact h
      · cases hm
    · rw [if_neg (by simp)]
  | cons m ms ih =>
    obtain ⟨hfirst, hpos, hlast⟩ := (hwhole m mem_cons_self).bounds
    obtain ⟨hdm, hdms⟩ := pairwise_cons.mp hdisj
    rw [mapKernel, (hwhole m mem_cons_self).mappages]
    refine wp_seq (wp_mapLoop hwf hfirst hlast (fun x hx hxk => habs m mem_cons_self x ⟨hx, hxk⟩)
      (fun j hj d1 s1 h hnil hnone => ?_) fun d1 s1 h => ?_)
    · -- the pages made so far are forgotten
      refine wp_write (hfail d1 s1 ⟨h.page, fun i hi => ?_,
        ⟨m, mem_cons_self, m.first + j, ⟨by omega, by omega⟩, hnone⟩, fun x hx => ?_, h.pages, h.data,
        h.dropped, hnil⟩)
      · rcases (h.tab i).mp hi with hold | ⟨x, hx, hxj, hi⟩
        · exact .inl hold
        · exact .inr ⟨m, mem_cons_self, x, ⟨hx, by omega⟩, hi⟩
      · rw [h.pte, if_neg (by omega)]
        exact hlow x hx
    · dsimp only
      rw [if_pos rfl]
      have hpte : ∀ x, d1.pte x = if m.Has x then m.pte x else d.pte x := fun x => h.pte x
      refine ih h.wf (fun m' hm' => hwhole m' (mem_cons_of_mem m hm')) hdms
        (fun x hx => ?_) (fun m' hm' x hx => ?_) (fun d' s' hf => ?_) fun d' s' h' => ?_
      · rw [h.pte, if_neg (by omega)]
        exact hlow x hx
      · rw [hpte, if_neg fun hxm => hdm m' hm' x hxm hx]
        exact habs m' (mem_cons_of_mem m hm') x hx
      · obtain ⟨m', hm', hx⟩ := hf.lacks
        refine hfail d' s' ⟨hf.page.trans h.page, fun i hi => ?_, ⟨m', mem_cons_of_mem m hm', hx⟩,
          hf.low, hf.pages.trans h.pages, hf.data.trans h.data, hf.dropped.trans h.dropped, hf.empty⟩
        rcases hf.tab i hi with hold | ⟨m1, hm1, hi⟩
        · rcases (h.tab i).mp hold with hold | ⟨x, hx, hxk, hi⟩
          · exact .inl hold
          · exact .inr ⟨m, mem_cons_self, x, ⟨hx, hxk⟩, hi⟩
        · exact .inr ⟨m1, mem_cons_of_mem m hm1, hi⟩
      · refine hok d' s' ⟨h'.wf, h'.page.trans h.page, fun i => ?_, fun x => ?_, ?_,
          h'.data.trans h.data, h'.dropped.trans h.dropped, h'.free.trans h.free⟩
        · rw [h'.tab, h.tab]
          constructor
          · rintro ((htab | ⟨x, hx, hxk, hi⟩) | ⟨m', hm', hx⟩)
            · exact .inl htab
            · exact .inr ⟨m, mem_cons_self, x, ⟨hx, hxk⟩, hi⟩
            · exact .inr ⟨m', mem_cons_of_mem m hm', hx⟩
          · rintro (htab | ⟨m', hm', x, hx, hi⟩)
            · exact .inl (.inl htab)
            · rcases mem_cons.mp hm' with rfl | hm'
              · exact .inl (.inr ⟨x, hx.1, hx.2, hi⟩)
              · exact .inr ⟨m', hm', x, hx, hi⟩
        · rw [h'.pte]
          by_cases hrest : ∃ m' ∈ ms, m'.Has x
          · obtain ⟨m', hm', hx⟩ := hrest
            rw [if_pos ⟨m', hm', hx⟩, if_pos ⟨m', mem_cons_of_mem m hm', hx⟩, kpte,
              if_neg fun hxm => hdm m' hm' x hxm hx]
          · rw [if_neg hrest, hpte]
            by_cases hxm : m.Has x
            · rw [if_pos hxm, if_pos ⟨m, mem_cons_self, hxm⟩, kpte, if_pos hxm]
            · have hnone : ¬ ∃ m' ∈ m :: ms, m'.Has x := by
                rintro ⟨m', hm', hx⟩
                rcases mem_cons.mp hm' with rfl | hm'
                · exact hxm hx
                · exact hrest ⟨m', hm', hx⟩
              rw [if_neg hxm, if_neg hnone]
        · rw [h'.pages, h.pages]

/-! ## kmap -/

def dataPage (L : Layout) : ℕ := L.data / PGSIZE

theorem dataPage_bounds (L : Layout) : L.data = dataPage L * 4096 ∧ 524544 < dataPage L ∧
    dataPage L < 581632 := by
  have ha := L.aligned
  have hlo := L.lo
  have hhi := L.hi
  have ho := L.order
  unfold KERNLINK KERNBASE EXTMEM at hlo
  unfold KERNBASE PHYSTOP at hhi
  unfold dataPage
  unfold PGSIZE at ha ⊢
  omega

def kmapIo : Kmap := ⟨KERNBASE, 0, EXTMEM, true⟩

def kmapText (L : Layout) : Kmap := ⟨KERNLINK, KERNLINK - KERNBASE, L.data - KERNBASE, false⟩

def kmapData (L : Layout) : Kmap := ⟨L.data, L.data - KERNBASE, PHYSTOP, true⟩

def kmapDev : Kmap := ⟨DEVSPACE, DEVSPACE, 0, true⟩

theorem kmap_eq (L : Layout) : kmap L = [kmapIo, kmapText L, kmapData L, kmapDev] := rfl

theorem whole_io : kmapIo.Whole := ⟨by decide, by decide, by decide, by decide, by decide⟩

theorem whole_dev : kmapDev.Whole := ⟨by decide, by decide, by decide, by decide, by decide⟩

theorem size_text (L : Layout) : (kmapText L).size = (dataPage L - 524544) * 4096 := by
  obtain ⟨h, hlo, hhi⟩ := dataPage_bounds L
  show (L.data - 0x80000000 + 2 ^ 32 - 0x100000) % 2 ^ 32 = _
  omega

theorem size_data (L : Layout) : (kmapData L).size = (581632 - dataPage L) * 4096 := by
  obtain ⟨h, hlo, hhi⟩ := dataPage_bounds L
  show (0xE000000 + 2 ^ 32 - (L.data - 0x80000000)) % 2 ^ 32 = _
  omega

theorem whole_text (L : Layout) : (kmapText L).Whole := by
  obtain ⟨h, hlo, hhi⟩ := dataPage_bounds L
  have hsize := size_text L
  refine ⟨show 0x80100000 % 4096 = 0 by decide, show 0x80000000 ≤ 0x80100000 by decide, ?_, ?_, ?_⟩
  · rw [hsize]
    exact Nat.mul_mod_left _ _
  · omega
  · show 0x80100000 + _ ≤ _
    omega

theorem whole_data (L : Layout) : (kmapData L).Whole := by
  obtain ⟨h, hlo, hhi⟩ := dataPage_bounds L
  have hsize := size_data L
  refine ⟨L.aligned, ?_, ?_, ?_, ?_⟩
  · show 0x80000000 ≤ L.data
    omega
  · rw [hsize]
    exact Nat.mul_mod_left _ _
  · omega
  · show L.data + _ ≤ _
    omega

theorem has_io : kmapIo.Has x ↔ 524288 ≤ x ∧ x < 524544 := Iff.rfl

theorem has_dev : kmapDev.Has x ↔ 1040384 ≤ x ∧ x < 1048576 := Iff.rfl

theorem has_text : (kmapText L).Has x ↔ 524544 ≤ x ∧ x < dataPage L := by
  obtain ⟨h, hlo, hhi⟩ := dataPage_bounds L
  have hcount : (kmapText L).count = dataPage L - 524544 := by
    rw [Kmap.count, size_text]
    exact Nat.mul_div_cancel _ (by decide)
  have hfirst : (kmapText L).first = 524544 := show (0x80000000 + 0x100000) / 4096 = 524544 by decide
  rw [Kmap.Has, hfirst, hcount]
  omega

theorem has_data : (kmapData L).Has x ↔ dataPage L ≤ x ∧ x < 581632 := by
  obtain ⟨h, hlo, hhi⟩ := dataPage_bounds L
  have hcount : (kmapData L).count = 581632 - dataPage L := by
    rw [Kmap.count, size_data]
    exact Nat.mul_div_cancel _ (by decide)
  have hfirst : (kmapData L).first = dataPage L := rfl
  rw [Kmap.Has, hfirst, hcount]
  omega

theorem whole_kmap (L : Layout) : ∀ m ∈ kmap L, m.Whole := by
  intro m hm
  rw [kmap_eq] at hm
  simp only [mem_cons, not_mem_nil, or_false] at hm
  rcases hm with rfl | rfl | rfl | rfl
  · exact whole_io
  · exact whole_text L
  · exact whole_data L
  · exact whole_dev

theorem kmap_disjoint (L : Layout) : (kmap L).Pairwise fun m m' => ∀ x, m.Has x → ¬ m'.Has x := by
  obtain ⟨h, hlo, hhi⟩ := dataPage_bounds L
  rw [kmap_eq]
  refine pairwise_cons.mpr ⟨?_, pairwise_cons.mpr ⟨?_, pairwise_cons.mpr
    ⟨?_, pairwise_singleton _ _⟩⟩⟩
  · intro m hm x hx
    rw [has_io] at hx
    simp only [mem_cons, not_mem_nil, or_false] at hm
    rcases hm with rfl | rfl | rfl
    · rw [has_text]
      omega
    · rw [has_data]
      omega
    · rw [has_dev]
      omega
  · intro m hm x hx
    rw [has_text] at hx
    simp only [mem_cons, not_mem_nil, or_false] at hm
    rcases hm with rfl | rfl
    · rw [has_data]
      omega
    · rw [has_dev]
      omega
  · intro m hm x hx
    rw [has_data] at hx
    rw [mem_singleton.mp hm, has_dev]
    omega

theorem kmap_has (L : Layout) :
    (∃ m ∈ kmap L, m.Has x) ↔ (524288 ≤ x ∧ x < 581632) ∨ (1040384 ≤ x ∧ x < 1048576) := by
  obtain ⟨h, hlo, hhi⟩ := dataPage_bounds L
  simp only [kmap_eq, mem_cons, not_mem_nil, or_false, exists_eq_or_imp,
    exists_eq_left, has_io, has_text, has_data, has_dev]
  omega

theorem kpte_of_not_has (h : ¬ ∃ m ∈ ms, m.Has x) : kpte ms x = Pte.zero := by
  induction ms with
  | nil => rfl
  | cons m ms ih =>
    rw [kpte, if_neg fun hm => h ⟨m, mem_cons_self, hm⟩]
    exact ih fun ⟨m', hm', hx⟩ => h ⟨m', mem_cons_of_mem m hm', hx⟩

/-! ## setupkvm -/

/-- The kernel part of a directory is the translation of `kmap`, and the page
    tables of the kernel are those it needs. -/
structure Kern (L : Layout) (d : Pgdir) : Prop where
  pte : ∀ x, UPAGES ≤ x → x < 2 * UPAGES → d.pte x = kpte (kmap L) x
  tab : ∀ i, 512 ≤ i → i < NPDENTRIES → (d.tab i ≠ none ↔ i < 568 ∨ 1016 ≤ i)

/-- The directory and the page tables of the kernel part. -/
abbrev KPAGES : ℕ := 65

structure SetUp (L : Layout) (s : Kmem) (d : Pgdir) (s' : Kmem) : Prop where
  sized : Sized d 0
  kern : Kern L d
  user : ∀ i < 512, d.tab i = none
  pages : d.pages + s'.total = s.total
  data : s'.data = s.data
  dropped : s'.dropped = s.dropped
  free : s'.free <:+ s.free
  count : s.free.length = s'.free.length + KPAGES

theorem card_tpages : Multiset.card d.tpages = (pdes.filter fun i => d.tab i ≠ none).card := by
  unfold tpages
  rw [Multiset.card_sum, Finset.card_filter]
  refine Finset.sum_congr rfl fun i _ => ?_
  unfold tpage
  cases d.tab i with
  | none => rfl
  | some p => rfl

/-- The page tables the kernel part needs. -/
def ktables : Finset ℕ := pdes.filter fun i => (512 ≤ i ∧ i < 568) ∨ 1016 ≤ i

theorem card_ktables : ktables.card + 1 = KPAGES := by decide +kernel

theorem mem_ktables (L : Layout) {i : ℕ} :
    i ∈ ktables ↔ ∃ m ∈ kmap L, ∃ x, m.Has x ∧ i = x / NPTENTRIES := by
  have hhas := fun x => kmap_has L (x := x)
  rw [ktables, Finset.mem_filter, mem_pdes]
  constructor
  · intro hi
    obtain ⟨m, hm, hx⟩ := (hhas (i * 1024)).mpr (by
      unfold NPDENTRIES at hi
      omega)
    exact ⟨m, hm, i * 1024, hx, (Nat.mul_div_cancel _ (by decide)).symm⟩
  · rintro ⟨m, hm, x, hx, rfl⟩
    have hbounds := (hhas x).mp ⟨m, hm, hx⟩
    unfold NPTENTRIES NPDENTRIES
    omega

/-- A directory in which page tables of the kernel part are missing has fewer pages. -/
theorem Short.card_lt {p : ℕ} (h : Short (kmap L) (new p) s d' s') : Multiset.card d'.pages < KPAGES := by
  obtain ⟨m, hm, x, hx, hnone⟩ := h.lacks
  have hmem := (mem_ktables L).mpr ⟨m, hm, x, hx, rfl⟩
  have hsub : (pdes.filter fun i => d'.tab i ≠ none) ⊂ ktables := by
    refine Finset.ssubset_iff_of_subset (fun i hi => ?_) |>.mpr
      ⟨x / NPTENTRIES, hmem, fun hi => (Finset.mem_filter.mp hi).2 hnone⟩
    exact (mem_ktables L).mpr ((h.tab i (Finset.mem_filter.mp hi).2).resolve_left fun hn => hn rfl)
  have hlt := Finset.card_lt_card hsub
  have hk := card_ktables
  rw [← card_tpages] at hlt
  simp only [Pgdir.pages, upages_eq_zero h.low, Multiset.card_add, Multiset.card_singleton,
    Multiset.card_zero]
  omega

theorem wp_setupkvm (hnone : s.free = [] → Q none s)
    (hfail : ∀ s', s'.total = s.total → s'.data = s.data →
      s'.dropped.length > s.dropped.length → s'.free <:+ s.free → 0 < s.free.length →
      s.free.length < KPAGES → Q none s')
    (hok : ∀ d s', SetUp L s d s' → Q (some d) s') : wp (setupkvm L) Q E s := by
  rw [setupkvm]
  refine wp_seq (wp_kalloc hnone fun p rest hfree => ?_)
  have htotal : s.total = ({ s with free := rest } : Kmem).total + {p} := total_taken hfree
  have hsuf : rest <:+ s.free := by
    rw [hfree]
    exact suffix_cons p rest
  dsimp only
  refine wp_mapKernel (wf_new p) (whole_kmap L) (kmap_disjoint L) (fun _ _ => rfl)
    (fun _ _ _ _ => rfl) (fun d s' h => ?_) fun d s' h => ?_
  · have hlt := h.card_lt
    have hpages : d.pages + s'.total = s.total := by
      rw [h.pages, pages_new, htotal, add_comm]
    have hcard := congrArg Multiset.card hpages
    have hdrop : s'.dropped = s.dropped := h.dropped
    rw [Kmem.total, Kmem.total, h.empty, hdrop] at hcard
    simp only [Multiset.card_add, Multiset.coe_card, length_nil] at hcard
    refine hfail _ ?_ h.data ?_ ?_ ?_ (by omega)
    · show (s'.free : Multiset ℕ) + ((d.ownPages ++ s'.dropped : List ℕ) : Multiset ℕ) = _
      rw [← Multiset.coe_add, coe_ownPages (upages_eq_zero h.low), ← hpages, Kmem.total]
      abel
    · show (d.ownPages ++ s'.dropped).length > _
      rw [hdrop, length_append, ownPages, length_cons]
      omega
    · show s'.free <:+ s.free
      rw [h.empty]
      exact nil_suffix
    · rw [hfree]
      exact Nat.succ_pos _
  · have htab : ∀ i, d.tab i ≠ none ↔ i ∈ ktables := by
      intro i
      rw [h.tab, mem_ktables L]
      exact or_iff_right fun hn => hn rfl
    have hlow : ∀ x < UPAGES, d.pte x = Pte.zero := by
      intro x hx
      rw [h.pte, if_neg]
      · rfl
      · rw [kmap_has]
        unfold UPAGES at hx
        omega
    have hmem : ∀ i, d.tab i ≠ none ↔ i < NPDENTRIES ∧ ((512 ≤ i ∧ i < 568) ∨ 1016 ≤ i) := by
      intro i
      rw [htab, ktables, Finset.mem_filter, mem_pdes]
    have hpages : d.pages + s'.total = s.total := by
      rw [h.pages, pages_new, htotal, add_comm]
    refine hok d s' ⟨⟨h.wf, ?_, fun v hv => absurd hv (Nat.not_lt_zero v), fun v _ hv => ?_⟩, ⟨?_, ?_⟩,
      fun i hi => ?_, hpages, h.data, h.dropped, h.free.trans hsuf, ?_⟩
    · intro i j hij hj hne
      rw [hmem] at hne
      unfold UPAGES NPTENTRIES at hj
      omega
    · rw [hlow v hv]
      rfl
    · intro x hlo hhi
      rw [h.pte]
      by_cases hx : ∃ m ∈ kmap L, m.Has x
      · rw [if_pos hx]
      · rw [if_neg hx, kpte_of_not_has hx]
        rfl
    · intro i hlo hhi
      rw [hmem]
      omega
    · by_contra hne
      have hk := (hmem i).mp hne
      omega
    · -- the pages of the directory are those that were taken
      have hcard := congrArg Multiset.card hpages
      have hdrop : s'.dropped = s.dropped := h.dropped
      have hfilter : (pdes.filter fun i => d.tab i ≠ none) = ktables := by
        ext i
        rw [Finset.mem_filter, htab]
        exact and_iff_right_of_imp fun hi => (Finset.mem_filter.mp hi).1
      have hk := card_ktables
      rw [← hfilter, ← card_tpages] at hk
      rw [Kmem.total, Kmem.total, hdrop] at hcard
      simp only [Pgdir.pages, upages_eq_zero hlow, Multiset.card_add, Multiset.card_singleton,
        Multiset.card_zero, Multiset.coe_card] at hcard
      omega

end Xv6.Vm
