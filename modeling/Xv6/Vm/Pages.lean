/-
  Xv6.Vm.Pages

  Where the pages are.
-/

import Xv6.Vm.Basic

namespace Xv6

open Function Finset Wp Pgdir Pte

variable {v sz : ℕ}

abbrev UPAGES : ℕ := 524288

def npages (sz : ℕ) : ℕ := (sz + PGSIZE - 1) / PGSIZE

theorem lt_npages : v < npages sz ↔ v * PGSIZE < sz := by
  unfold npages PGSIZE
  omega

theorem npages_mono {a b : ℕ} (h : a ≤ b) : npages a ≤ npages b := by
  unfold npages PGSIZE
  omega

theorem npages_le (h : sz ≤ KERNBASE) : npages sz ≤ UPAGES := by
  unfold npages PGSIZE
  unfold KERNBASE at h
  unfold UPAGES
  omega

theorem pgroundup_eq (h : sz ≤ KERNBASE) : pgroundup sz = npages sz * PGSIZE := by
  unfold pgroundup npages PGSIZE
  unfold KERNBASE at h
  omega

theorem pgroundup_div (h : sz ≤ KERNBASE) : pgroundup sz / PGSIZE = npages sz := by
  rw [pgroundup_eq h]
  exact Nat.mul_div_cancel _ (by decide)

theorem Layout.Ram.ne_zero {L : Layout} {p : ℕ} (h : L.Ram p) : p ≠ 0 := by
  rintro rfl
  have hlo := L.lo
  have horder := L.order
  have hram := h.1
  unfold KERNLINK EXTMEM at hlo
  omega

@[irreducible] def pdes : Finset ℕ := Finset.range NPDENTRIES

/-- The pages below `KERNBASE`. -/
@[irreducible] def vpns : Finset ℕ := Finset.range UPAGES

theorem mem_pdes {i : ℕ} : i ∈ pdes ↔ i < NPDENTRIES := by
  unfold pdes
  exact mem_range

theorem mem_vpns : v ∈ vpns ↔ v < UPAGES := by
  unfold vpns
  exact mem_range

theorem card_pdes : pdes.card = NPDENTRIES := by
  unfold pdes
  exact card_range _

theorem sum_update {ι A : Type} [DecidableEq ι] [AddCommMonoid A] {t : Finset ι} {f : ι → A} {i : ι}
    (hi : i ∈ t) (b : A) : ∑ x ∈ t, update f i b x + f i = ∑ x ∈ t, f x + b := by
  rw [sum_update_of_mem hi, ← sum_sdiff (singleton_subset_iff.mpr hi), sum_singleton]
  abel

namespace Pgdir

variable {d d' : Pgdir} {v i p : ℕ} {e : Pte}

/-! ## The pages of a directory -/

/-- The page of an entry. -/
def page1 (e : Pte) : Multiset ℕ := if e.p then {e.addr} else 0

def tpage (d : Pgdir) (i : ℕ) : Multiset ℕ := (d.tab i).elim 0 fun p => {p}

def tpages (d : Pgdir) : Multiset ℕ := ∑ i ∈ pdes, d.tpage i

def upages (d : Pgdir) : Multiset ℕ := ∑ v ∈ vpns, page1 (d.pte v)

def pages (d : Pgdir) : Multiset ℕ := {d.page} + d.tpages + d.upages

structure WF (d : Pgdir) : Prop where
  tabled : ∀ v, d.tab (v / NPTENTRIES) = none → d.pte v = zero
  unset : ∀ v, (d.pte v).p = false → d.pte v = zero

theorem wf_new (page : ℕ) : (new page).WF := ⟨fun _ _ => rfl, fun _ _ => rfl⟩

@[simp] theorem page1_zero : page1 zero = 0 := rfl

theorem page1_of_absent (h : e.p = false) : page1 e = 0 := by simp [page1, h]

theorem page1_of_present (h : e.p = true) : page1 e = {e.addr} := by simp [page1, h]

theorem mem_tpages (h : d.tab i = some p) (hi : i < NPDENTRIES) : p ∈ d.tpages := by
  rw [tpages, Multiset.mem_sum]
  exact ⟨i, mem_pdes.mpr hi, by simp [tpage, h]⟩

theorem mem_upages (h : (d.pte v).p = true) (hv : v < UPAGES) : (d.pte v).addr ∈ d.upages := by
  rw [upages, Multiset.mem_sum]
  exact ⟨v, mem_vpns.mpr hv, by simp [page1, h]⟩

theorem mem_pages : p ∈ d.pages ↔ p = d.page ∨ p ∈ d.tpages ∨ p ∈ d.upages := by
  rw [pages, Multiset.mem_add, Multiset.mem_add, Multiset.mem_singleton, or_assoc]

theorem mem_upages_iff : p ∈ d.upages ↔ ∃ v < UPAGES, (d.pte v).p = true ∧ (d.pte v).addr = p := by
  rw [upages, Multiset.mem_sum]
  constructor
  · rintro ⟨v, hv, hp⟩
    rw [page1] at hp
    split at hp
    · rename_i hpres
      exact ⟨v, mem_vpns.mp hv, hpres, (Multiset.mem_singleton.mp hp).symm⟩
    · cases hp
  · rintro ⟨v, hv, hpres, rfl⟩
    exact ⟨v, mem_vpns.mpr hv, by simp [page1, hpres]⟩

theorem pages_addTable (hwf : d.WF) (hi : i < NPDENTRIES) (hnone : d.tab i = none) :
    (d.addTable i p).WF ∧ (d.addTable i p).pte = d.pte ∧
      (d.addTable i p).pages = d.pages + {p} := by
  have hpte : (d.addTable i p).pte = d.pte := by
    funext v
    show (if v / NPTENTRIES = i then zero else d.pte v) = d.pte v
    split
    · rename_i hv
      exact (hwf.tabled v (by rw [hv]; exact hnone)).symm
    · rfl
  refine ⟨⟨fun v hv => ?_, fun v hv => ?_⟩, hpte, ?_⟩
  · rw [hpte]
    refine hwf.tabled v ?_
    have htab : update d.tab i (some p) (v / NPTENTRIES) = none := hv
    by_cases hvi : v / NPTENTRIES = i
    · rw [hvi, update_self] at htab
      cases htab
    · rw [update_of_ne hvi] at htab
      exact htab
  · rw [hpte] at hv ⊢
    exact hwf.unset v hv
  · have htp : ∀ j, (d.addTable i p).tpage j = update d.tpage i {p} j := by
      intro j
      by_cases hj : j = i
      · rw [hj, update_self]
        simp [tpage, addTable]
      · rw [update_of_ne hj]
        simp [tpage, addTable, hj]
    have hsum := sum_update (f := d.tpage) (mem_pdes.mpr hi) ({p} : Multiset ℕ)
    have hzero : d.tpage i = 0 := by simp [tpage, hnone]
    rw [hzero, add_zero] at hsum
    have htabs : (d.addTable i p).tpages = d.tpages + {p} := by
      rw [tpages, tpages, sum_congr rfl fun j _ => htp j]
      exact hsum
    show {d.page} + (d.addTable i p).tpages + (d.addTable i p).upages = _
    have hup : (d.addTable i p).upages = d.upages := by rw [upages, upages, hpte]
    rw [htabs, hup, pages]
    abel

theorem pages_setPte (hv : v < UPAGES) :
    (d.setPte v e).pages + page1 (d.pte v) = d.pages + page1 e := by
  have hup : ∀ x, page1 ((d.setPte v e).pte x) =
      update (fun x => page1 (d.pte x)) v (page1 e) x := by
    intro x
    by_cases hx : x = v
    · rw [hx, update_self]
      simp [setPte]
    · rw [update_of_ne hx]
      simp [setPte, hx]
  have hsum := sum_update (f := fun x => page1 (d.pte x)) (mem_vpns.mpr hv) (page1 e)
  have hupages : (d.setPte v e).upages + page1 (d.pte v) = d.upages + page1 e := by
    rw [upages, upages, sum_congr rfl fun x _ => hup x]
    exact hsum
  have htabs : (d.setPte v e).tpages = d.tpages := by rw [tpages, tpages]; rfl
  rw [pages, htabs, add_assoc, hupages, pages]
  show {d.page} + d.tpages + _ = _
  abel

theorem pages_setPte_kernel (hv : UPAGES ≤ v) : (d.setPte v e).pages = d.pages := by
  have hup : (d.setPte v e).upages = d.upages := by
    rw [upages, upages]
    refine sum_congr rfl fun x hx => ?_
    have hne : x ≠ v := by
      have hlt := mem_vpns.mp hx
      omega
    show page1 (update d.pte v e x) = _
    rw [update_of_ne hne]
  have htabs : (d.setPte v e).tpages = d.tpages := by rw [tpages, tpages]; rfl
  rw [pages, hup, htabs, pages]
  rfl

theorem WF.setPte (h : d.WF) (htab : d.tab (v / NPTENTRIES) ≠ none)
    (he : e.p = false → e = zero) : (d.setPte v e).WF := by
  constructor
  · intro x hx
    have hne : x ≠ v := by
      rintro rfl
      exact htab hx
    show update d.pte v e x = _
    rw [update_of_ne hne]
    exact h.tabled x hx
  · intro x hx
    have hx' : (update d.pte v e x).p = false := hx
    show update d.pte v e x = _
    by_cases hxv : x = v
    · rw [hxv, update_self] at hx' ⊢
      exact he hx'
    · rw [update_of_ne hxv] at hx' ⊢
      exact h.unset x hx'

@[simp] theorem setPte_tab (d : Pgdir) (v : ℕ) (e : Pte) : (d.setPte v e).tab = d.tab := rfl

@[simp] theorem setPte_self (d : Pgdir) (v : ℕ) (e : Pte) : (d.setPte v e).pte v = e :=
  update_self _ _ _

theorem setPte_of_ne {x : ℕ} (h : x ≠ v) : (d.setPte v e).pte x = d.pte x :=
  update_of_ne h _ _

/-! ## Missing page tables -/

/-- The number of page tables that do not exist. -/
def missing (d : Pgdir) : ℕ := ∑ i ∈ pdes, if (d.tab i).isNone then 1 else 0

theorem missing_addTable (hi : i < NPDENTRIES) (hnone : d.tab i = none) :
    (d.addTable i p).missing + 1 = d.missing := by
  have hterm : ∀ j, (if ((d.addTable i p).tab j).isNone then 1 else 0) =
      update (fun j => if (d.tab j).isNone then 1 else 0) i 0 j := by
    intro j
    by_cases hj : j = i
    · rw [hj, update_self]
      simp [addTable]
    · rw [update_of_ne hj]
      simp [addTable, hj]
  have hsum := sum_update (f := fun j => if (d.tab j).isNone then 1 else 0) (mem_pdes.mpr hi) 0
  rw [hnone] at hsum
  rw [missing, missing, sum_congr rfl fun j _ => hterm j]
  exact hsum

theorem missing_pos (hi : i < NPDENTRIES) (hnone : d.tab i = none) : 0 < d.missing := by
  have h := missing_addTable (p := 0) hi hnone
  omega

theorem missing_congr (h : d'.tab = d.tab) : d'.missing = d.missing := by
  rw [missing, missing, h]

theorem missing_le : d.missing ≤ NPDENTRIES := by
  rw [missing]
  refine (sum_le_card_nsmul _ _ 1 fun i _ => ?_).trans (by rw [card_pdes]; simp)
  split
  · exact le_rfl
  · exact Nat.zero_le 1

end Pgdir

namespace Kmem

/-- The free and the forgotten pages. -/
def total (s : Kmem) : Multiset ℕ := (s.free : Multiset ℕ) + (s.dropped : Multiset ℕ)

def Room (s : Kmem) (d : Pgdir) (k : ℕ) : Prop := d.missing + k ≤ s.free.length

end Kmem

namespace Vm

variable {L : Layout} {d d' : Pgdir} {s s' : Kmem} {v k : ℕ} {E : String → Kmem → Prop}
variable {Q : Unit → Kmem → Prop} {p mem w x oldsz newsz : ℕ}

/-! ## kalloc and kfree -/

theorem wp_kalloc {Q : Option ℕ → Kmem → Prop} (hnone : s.free = [] → Q none s)
    (hsome : ∀ p rest, s.free = p :: rest → Q (some p) { s with free := rest }) :
    wp kalloc Q E s := by
  unfold wp kalloc
  cases hfree : s.free with
  | nil => exact hnone hfree
  | cons p rest => exact hsome p rest hfree

def freed (s : Kmem) (p : ℕ) : Kmem :=
  { s with data := update s.data p fun _ => 1, free := p :: s.free }

theorem wp_kfree (hram : L.Ram p) (hQ : Q () (freed s p)) : wp (kfree L p) Q E s := by
  rw [kfree, if_pos hram]
  exact wp_seq hQ

theorem total_freed (s : Kmem) (p : ℕ) : (freed s p).total = s.total + {p} := by
  show ((p :: s.free : List ℕ) : Multiset ℕ) + (s.dropped : Multiset ℕ) = _
  rw [← Multiset.cons_coe, ← Multiset.singleton_add, Kmem.total]
  abel

theorem freed_data {q : ℕ} (h : q ≠ p) : (freed s p).data q = s.data q :=
  update_of_ne h _ _

/-! ## walkpgdir -/

structure Walked (d : Pgdir) (v : ℕ) (s : Kmem) (d' : Pgdir) (s' : Kmem) : Prop where
  wf : d'.WF
  page : d'.page = d.page
  pte : d'.pte = d.pte
  keep : ∀ i p, d.tab i = some p → d'.tab i = some p
  tab : ∀ i, d'.tab i ≠ none ↔ d.tab i ≠ none ∨ i = v / NPTENTRIES
  pages : d'.pages + s'.total = d.pages + s.total
  data : s'.data = s.data
  dropped : s'.dropped = s.dropped
  free : s'.free <:+ s.free
  room : ∀ k, s'.Room d' k ↔ s.Room d k
  count : s.free.length = s'.free.length + if d.tab (v / NPTENTRIES) = none then 1 else 0

theorem wp_walk {Q : Option Pgdir → Kmem → Prop} (hwf : d.WF) (hv : v < 2 * UPAGES)
    (hnone : s.free = [] → d.tab (v / NPTENTRIES) = none → Q none s)
    (hsome : ∀ d' s', Walked d v s d' s' → Q (some d') s') : wp (walkpgdir d v true) Q E s := by
  have hi : v / NPTENTRIES < NPDENTRIES := by
    unfold UPAGES at hv
    unfold NPTENTRIES NPDENTRIES
    omega
  rw [walkpgdir]
  refine wp_ite (fun hthere => ?_) (fun hmiss => ?_)
  · have htab := Option.isSome_iff_ne_none.mp hthere
    refine hsome d s ⟨hwf, rfl, rfl, fun _ _ h => h, fun i => ⟨.inl, ?_⟩, rfl, rfl, rfl,
      List.suffix_rfl, fun _ => Iff.rfl, by rw [if_neg htab, Nat.add_zero]⟩
    rintro (h | rfl)
    · exact h
    · exact htab
  · have htab : d.tab (v / NPTENTRIES) = none := Option.not_isSome_iff_eq_none.mp hmiss
    rw [if_pos rfl]
    refine wp_seq (wp_kalloc (fun hfree => hnone hfree htab) fun p rest hfree => ?_)
    obtain ⟨hwf', hpte, hpages⟩ := pages_addTable (p := p) hwf hi htab
    refine hsome _ _ ⟨hwf', rfl, hpte, ?_, ?_, ?_, rfl, rfl, ?_, ?_, ?_⟩
    · intro i q hq
      have hne : i ≠ v / NPTENTRIES := by
        rintro rfl
        rw [htab] at hq
        cases hq
      show update d.tab _ _ i = _
      rw [update_of_ne hne]
      exact hq
    · intro i
      show update d.tab _ _ i ≠ none ↔ _
      by_cases hiv : i = v / NPTENTRIES
      · rw [hiv, update_self]
        simp
      · rw [update_of_ne hiv]
        simp [hiv]
    · show _ + ((rest : Multiset ℕ) + (s.dropped : Multiset ℕ)) = _
      rw [hpages, Kmem.total, hfree, ← Multiset.cons_coe, ← Multiset.singleton_add]
      abel
    · show rest <:+ s.free
      rw [hfree]
      exact List.suffix_cons p rest
    · intro k
      have hmiss' := missing_addTable (p := p) hi htab
      show _ + k ≤ rest.length ↔ d.missing + k ≤ s.free.length
      rw [hfree, List.length_cons]
      omega
    · rw [if_pos htab, hfree, List.length_cons]

theorem wp_walk_noalloc {Q : Option Pgdir → Kmem → Prop}
    (hnone : d.tab (v / NPTENTRIES) = none → Q none s)
    (hsome : d.tab (v / NPTENTRIES) ≠ none → Q (some d) s) : wp (walkpgdir d v false) Q E s := by
  rw [walkpgdir]
  refine wp_ite (fun hthere => hsome (Option.isSome_iff_ne_none.mp hthere)) fun hmiss => ?_
  rw [if_neg (by simp)]
  exact hnone (Option.not_isSome_iff_eq_none.mp hmiss)

/-! ## mappages -/

theorem mappages_page {w u : Bool} (hv : v < 2 * UPAGES) :
    mappages d (v * PGSIZE) PGSIZE (mem * PGSIZE) w u = mapLoop w u 1 v mem d := by
  have h1 : v * PGSIZE / PGSIZE = v := Nat.mul_div_cancel v (by decide)
  have h2 : mem * PGSIZE / PGSIZE = mem := Nat.mul_div_cancel mem (by decide)
  have h3 : (v * PGSIZE + PGSIZE - 1) % 2 ^ 32 / PGSIZE = v := by
    unfold PGSIZE
    unfold UPAGES at hv
    omega
  rw [mappages, h1, h2, h3, show v + 1 - v = 1 by omega]

theorem wp_mappages_page {Q : Pgdir × Bool → Kmem → Prop} {w u : Bool} (hwf : d.WF)
    (hv : v < 2 * UPAGES) (habsent : (d.pte v).p = false)
    (hfail : s.free = [] → d.tab (v / NPTENTRIES) = none → Q (d, false) s)
    (hok : ∀ d' s', Walked d v s d' s' → Q (d'.setPte v ⟨mem, true, w, u⟩, true) s') :
    wp (mappages d (v * PGSIZE) PGSIZE (mem * PGSIZE) w u) Q E s := by
  rw [mappages_page hv, mapLoop]
  refine wp_seq (wp_walk hwf hv hfail fun d' s' h => ?_)
  have habs : ¬ (d'.pte v).p = true := by
    rw [h.pte, habsent]
    exact Bool.false_ne_true
  dsimp only
  rw [if_neg habs]
  exact hok d' s' h

/-! ## deallocuvm -/

/-- The page tables of user memory have no gap. -/
def Contig (d : Pgdir) : Prop :=
  ∀ i j, i ≤ j → j < UPAGES / NPTENTRIES → d.tab j ≠ none → d.tab i ≠ none

/-- The pages from `v` to `w` are taken away. -/
structure Cleared (d : Pgdir) (v w : ℕ) (s : Kmem) (d' : Pgdir) (s' : Kmem) : Prop where
  wf : d'.WF
  page : d'.page = d.page
  tab : d'.tab = d.tab
  pte : ∀ x, d'.pte x = if v ≤ x ∧ x < w then zero else d.pte x
  pages : d'.pages + s'.total = d.pages + s.total
  data : ∀ p, (∀ x, v ≤ x → x < w → (d.pte x).p = true → (d.pte x).addr ≠ p) → s'.data p = s.data p
  dropped : s'.dropped = s.dropped
  free : s.free <:+ s'.free

theorem Cleared.refl (hwf : d.WF) (hw : w ≤ v) : Cleared d v w s d s := by
  refine ⟨hwf, rfl, rfl, fun x => ?_, rfl, fun _ _ => rfl, rfl, List.suffix_rfl⟩
  rw [if_neg (by omega)]

theorem Cleared.skip {v' : ℕ} (h : Cleared d v' w s d' s')
    (hskip : ∀ x, v ≤ x → x < v' → x < w → d.pte x = zero) (hle : v ≤ v') :
    Cleared d v w s d' s' := by
  refine ⟨h.wf, h.page, h.tab, fun x => ?_, h.pages, fun p hp => ?_, h.dropped, h.free⟩
  · rw [h.pte]
    by_cases hx : v' ≤ x ∧ x < w
    · rw [if_pos hx, if_pos ⟨by omega, hx.2⟩]
    · rw [if_neg hx]
      by_cases hx' : v ≤ x ∧ x < w
      · rw [if_pos hx']
        exact hskip x hx'.1 (by omega) hx'.2
      · rw [if_neg hx']
  · exact h.data p fun x hx hxw => hp x (by omega) hxw

theorem Cleared.cons (hvw : v < w) (hw : w ≤ UPAGES) (hpres : (d.pte v).p = true)
    (h : Cleared (d.setPte v zero) (v + 1) w (freed s (d.pte v).addr) d' s') :
    Cleared d v w s d' s' := by
  refine ⟨h.wf, h.page, h.tab, fun x => ?_, ?_, fun p hp => ?_, h.dropped, ?_⟩
  · rw [h.pte]
    by_cases hx : x = v
    · rw [if_neg (by omega), if_pos (by omega), hx, setPte_self]
    · rw [setPte_of_ne hx]
      by_cases hin : v ≤ x ∧ x < w
      · rw [if_pos (by omega), if_pos hin]
      · rw [if_neg (by omega), if_neg hin]
  · have hset := pages_setPte (d := d) (e := zero) (v := v) (by omega)
    rw [page1_zero, add_zero, page1_of_present hpres] at hset
    rw [h.pages, total_freed, ← hset]
    abel
  · have hne : p ≠ (d.pte v).addr := fun hpa => hp v le_rfl hvw hpres hpa.symm
    rw [h.data p ?_, freed_data hne]
    intro x hx hxw hxp
    have hxv : x ≠ v := by omega
    rw [setPte_of_ne hxv] at hxp ⊢
    exact hp x (by omega) hxw hxp
  · exact (List.suffix_cons _ _).trans h.free

/-- The loop of `deallocuvm` jumps over page `x`: from `v` on there is no page
    table before that of `x`, and `x` is nearer to the start of its own. -/
def Skipped (d : Pgdir) (v x : ℕ) : Prop :=
  d.tab (v / NPTENTRIES) = none ∧ (∀ i, v / NPTENTRIES ≤ i → i < x / NPTENTRIES → d.tab i = none) ∧
    x % NPTENTRIES < v % NPTENTRIES

/-- No page that is present is jumped over. -/
def Lands (d : Pgdir) (v w : ℕ) : Prop :=
  ∀ x, v ≤ x → x < w → (d.pte x).p = true → ¬ Skipped d v x

theorem not_skipped_succ (h : d.tab (v / NPTENTRIES) ≠ none) : ¬ Skipped d (v + 1) x := by
  rintro ⟨hnone, -, hlt⟩
  have hnext : (v + 1) / NPTENTRIES ≠ v / NPTENTRIES := by
    intro heq
    rw [heq] at hnone
    exact h hnone
  unfold NPTENTRIES at hnext hlt
  omega

theorem Lands.jump (h : Lands d v w) (hnone : d.tab (v / NPTENTRIES) = none) :
    Lands d (v + NPTENTRIES) w := by
  rintro x hx hxw hp ⟨-, hbetween, hlt⟩
  rw [Nat.add_mod_right] at hlt
  rw [Nat.add_div_right _ (by decide)] at hbetween
  refine h x (by omega) hxw hp ⟨hnone, fun i hlo hhi => ?_, hlt⟩
  rcases Nat.eq_or_lt_of_le hlo with rfl | hgt
  · exact hnone
  · exact hbetween i hgt hhi

theorem Lands.jumped (h : Lands d v w) (hwf : d.WF) (hnone : d.tab (v / NPTENTRIES) = none)
    (hx : v ≤ x) (hxv : x < v + NPTENTRIES) (hxw : x < w) : d.pte x = zero := by
  by_cases hsame : x / NPTENTRIES = v / NPTENTRIES
  · rw [← hsame] at hnone
    exact hwf.tabled x hnone
  · refine hwf.unset x (Bool.eq_false_iff.mpr fun hp => h x hx hxw hp ⟨hnone, fun i hlo hhi => ?_, ?_⟩)
    · obtain rfl : i = v / NPTENTRIES := by
        unfold NPTENTRIES at *
        omega
      exact hnone
    · unfold NPTENTRIES at *
      omega

theorem Contig.lands (h : Contig d) (hwf : d.WF) (hw : w ≤ UPAGES) : Lands d v w := by
  rintro x hx hxw hp ⟨hnone, -⟩
  refine h (v / NPTENTRIES) (x / NPTENTRIES) (Nat.div_le_div_right hx) ?_ (fun htab => ?_) hnone
  · unfold NPTENTRIES UPAGES
    unfold UPAGES at hw
    omega
  · rw [hwf.tabled x htab] at hp
    cases hp

theorem wp_deallocLoop {Q : Pgdir → Kmem → Prop} {fuel : ℕ} (hwf : d.WF) (hlands : Lands d v (npages oldsz))
    (hold : oldsz ≤ KERNBASE) (hram : ∀ p ∈ d.upages, L.Ram p)
    (hfuel : npages oldsz + 1 ≤ v + fuel) (hpos : 0 < fuel)
    (hQ : ∀ d' s', Cleared d v (npages oldsz) s d' s' → Q d' s') :
    wp (deallocLoop L oldsz fuel v d) Q E s := by
  have hmax := npages_le hold
  -- on the fuel; the loop always moves on
  induction fuel generalizing d v s with
  | zero => exact absurd hpos (Nat.lt_irrefl 0)
  | succ fuel ih =>
    rw [deallocLoop]
    refine wp_ite (fun hlt => ?_) fun hge => ?_
    · have hv := lt_npages.mpr hlt
      refine wp_ite (fun hnone => ?_) fun hsome => ?_
      · have htab := Option.isNone_iff_eq_none.mp hnone
        exact ih hwf (hlands.jump htab) hram (by unfold NPTENTRIES; omega) (by omega) fun d' s' h =>
          hQ d' s' (h.skip (fun x hx hxv hxw => hlands.jumped hwf htab hx hxv hxw) (by omega))
      · have htab : d.tab (v / NPTENTRIES) ≠ none := fun hn => hsome (by rw [hn]; rfl)
        refine wp_ite (fun hpres => ?_) fun habs => ?_
        · have hmem : (d.pte v).addr ∈ d.upages := mem_upages hpres (by omega)
          rw [if_neg (hram _ hmem).ne_zero]
          refine wp_seq (wp_kfree (hram _ hmem) ?_)
          refine ih (hwf.setPte htab fun _ => rfl)
            (fun x _ _ _ => not_skipped_succ (d := d.setPte v zero) htab) (fun p hp => hram p ?_)
            (by omega) (by omega) fun d' s' h => hQ d' s' (h.cons hv hmax hpres)
          rw [mem_upages_iff] at hp ⊢
          obtain ⟨x, hx, hxp, hxa⟩ := hp
          by_cases hxv : x = v
          · rw [hxv, setPte_self] at hxp
            cases hxp
          · rw [setPte_of_ne hxv] at hxp hxa
            exact ⟨x, hx, hxp, hxa⟩
        · refine ih hwf (fun x _ _ _ => not_skipped_succ htab) hram (by omega) (by omega) fun d' s' h =>
            hQ d' s' (h.skip (fun x hx hxv _ => ?_) (by omega))
          have hxv' : x = v := by omega
          rw [hxv']
          exact hwf.unset v (Bool.eq_false_iff.mpr habs)
    · exact hQ d s (Cleared.refl hwf (by
        have hle := mt lt_npages.mp hge
        omega))

theorem wp_deallocuvm_lands {Q : Pgdir × ℕ → Kmem → Prop} (hwf : d.WF)
    (hlands : Lands d (npages newsz) (npages oldsz)) (hold : oldsz ≤ KERNBASE)
    (hram : ∀ p ∈ d.upages, L.Ram p) (hnop : oldsz ≤ newsz → Q (d, oldsz) s)
    (hQ : newsz < oldsz → ∀ d' s', Cleared d (npages newsz) (npages oldsz) s d' s' →
      Q (d', newsz) s') : wp (deallocuvm L d oldsz newsz) Q E s := by
  rw [deallocuvm]
  refine wp_ite hnop fun hlt => ?_
  rw [pgroundup_div (by omega)]
  refine wp_seq (wp_deallocLoop hwf hlands hold hram ?_ (Nat.succ_pos _) fun d' s' h =>
    hQ (by omega) d' s' h)
  unfold npages PGSIZE
  omega

theorem wp_deallocuvm {Q : Pgdir × ℕ → Kmem → Prop} (hwf : d.WF)
    (hcontig : Contig d) (hold : oldsz ≤ KERNBASE) (hram : ∀ p ∈ d.upages, L.Ram p)
    (hnop : oldsz ≤ newsz → Q (d, oldsz) s)
    (hQ : newsz < oldsz → ∀ d' s', Cleared d (npages newsz) (npages oldsz) s d' s' →
      Q (d', newsz) s') : wp (deallocuvm L d oldsz newsz) Q E s :=
  wp_deallocuvm_lands hwf (hcontig.lands hwf (npages_le hold)) hold hram hnop hQ

theorem Skipped.jump (h : Skipped d v x) : x < v + NPTENTRIES ∨ Skipped d (v + NPTENTRIES) x := by
  obtain ⟨-, hbetween, hlt⟩ := h
  by_cases hx : x < v + NPTENTRIES
  · exact .inl hx
  · have hdiv := Nat.add_div_right v (show 0 < NPTENTRIES by decide)
    refine .inr ⟨hbetween _ (by omega) ?_, fun i hlo hhi => hbetween i (by omega) hhi, ?_⟩
    · unfold NPTENTRIES at *
      omega
    · rw [Nat.add_mod_right]
      exact hlt

/-- The loop never comes back to a page it has left behind or jumped over. -/
theorem wp_deallocLoop_keeps {fuel : ℕ} (h : x < v ∨ Skipped d v x) :
    wp (deallocLoop L oldsz fuel v d) (fun d' _ => d'.pte x = d.pte x) (fun _ _ => True) s := by
  induction fuel generalizing d v s with
  | zero => trivial
  | succ fuel ih =>
    rw [deallocLoop]
    refine wp_ite (fun _ => wp_ite (fun _ => ?_) fun hsome => ?_) fun _ => rfl
    · refine ih ?_
      rcases h with hlt | hskip
      · exact .inl (by omega)
      · exact hskip.jump
    · have hlt : x < v := by
        refine h.resolve_right fun hskip => hsome ?_
        rw [hskip.1]
        rfl
      refine wp_ite (fun _ => wp_ite (fun _ => trivial) fun _ => ?_) fun _ => ih (.inl (by omega))
      refine wp_seq (wp_any fun _ s' => ?_)
      refine wp_mono (ih (d := d.setPte v zero) (.inl (by omega))) (fun d' _ hd => ?_) fun _ _ h => h
      rw [hd, setPte_of_ne (by omega)]

/-- **`deallocuvm` meets its contract** exactly for the page directories in which its loop jumps
    over no page that is present: the pages of the range are gone and freed, each once, and the
    other entries are as before. -/
theorem deallocuvm_contract {oldsz newsz : ℕ} (hlt : newsz < oldsz) (hold : oldsz ≤ KERNBASE)
    (hwf : d.WF) (hram : ∀ p ∈ d.upages, L.Ram p) :
    (∃ d' s', deallocuvm L d oldsz newsz s = .ok (d', newsz) s' ∧ d'.page = d.page ∧
      d'.tab = d.tab ∧
      (∀ x, d'.pte x = if pgroundup newsz ≤ x * PGSIZE ∧ x * PGSIZE < oldsz then zero
        else d.pte x) ∧
      d'.pages + (s'.free : Multiset ℕ) = d.pages + s.free) ↔
    Lands d (npages newsz) (npages oldsz) := by
  have hrange : ∀ x, npages newsz ≤ x ∧ x < npages oldsz ↔
      pgroundup newsz ≤ x * PGSIZE ∧ x * PGSIZE < oldsz := by
    intro x
    rw [pgroundup_eq (hlt.le.trans hold), lt_npages, Nat.mul_le_mul_right_iff (by decide)]
  constructor
  · rintro ⟨d', s', hrun, -, -, hpte, -⟩ x hx hxw hp hskip
    -- the entry of a page that was jumped over is still there
    have hkeep : wp (deallocuvm L d oldsz newsz) (fun r _ => r.1.pte x = d.pte x)
        (fun _ _ => True) s := by
      rw [deallocuvm, if_neg (by omega), pgroundup_div (by omega)]
      exact wp_seq (wp_mono (wp_deallocLoop_keeps (.inr hskip)) (fun _ _ h => h) fun _ _ h => h)
    have hsame := (wp_of_ok hrun).mp hkeep
    dsimp only at hsame
    rw [hpte x, if_pos ((hrange x).mp ⟨hx, hxw⟩)] at hsame
    rw [← hsame] at hp
    cases hp
  · intro hlands
    have hwp : wp (deallocuvm L d oldsz newsz)
        (fun r s' => r.2 = newsz ∧ Cleared d (npages newsz) (npages oldsz) s r.1 s')
        (fun _ _ => False) s :=
      wp_deallocuvm_lands hwf hlands hold hram (fun hle => absurd hle (by omega))
        fun _ d' s' h => ⟨rfl, h⟩
    obtain ⟨⟨d', sz⟩, s', hrun, rfl, hc⟩ := exists_ok hwp
    refine ⟨d', s', hrun, hc.page, hc.tab, fun x => ?_, ?_⟩
    · rw [hc.pte, if_congr (hrange x) rfl rfl]
    · have hpages := hc.pages
      rw [Kmem.total, Kmem.total, hc.dropped, ← add_assoc, ← add_assoc] at hpages
      exact add_right_cancel hpages

/-! ## freevm -/

theorem wp_kfree_all {Q : PUnit → Kmem → Prop} {l : List ℕ} (hram : ∀ p ∈ l, L.Ram p)
    (hQ : ∀ s', s'.total = s.total + (l : Multiset ℕ) → s'.dropped = s.dropped →
      (∀ p, p ∉ l → s'.data p = s.data p) → s.free <:+ s'.free → Q ⟨⟩ s') :
    wp (l.forM (kfree L)) Q E s := by
  induction l generalizing s with
  | nil => exact hQ s (by simp) rfl (fun _ _ => rfl) List.suffix_rfl
  | cons p l ih =>
    rw [List.forM]
    refine wp_seq (wp_kfree (hram p List.mem_cons_self) ?_)
    refine ih (fun q hq => hram q (List.mem_cons_of_mem p hq)) fun s' htot hdrop hdata hsuf => ?_
    refine hQ s' ?_ hdrop (fun q hq => ?_) ((List.suffix_cons _ _).trans hsuf)
    · rw [htot, total_freed, ← Multiset.cons_coe, ← Multiset.singleton_add, add_assoc]
    · rw [List.mem_cons, not_or] at hq
      rw [hdata q hq.2, freed_data hq.1]

theorem coe_tables (d : Pgdir) : (d.tables : Multiset ℕ) = d.tpages := by
  have hgen : ∀ n, (((List.range n).filterMap d.tab : List ℕ) : Multiset ℕ) =
      ∑ i ∈ Finset.range n, d.tpage i := by
    intro n
    induction n with
    | zero => rfl
    | succ n ih =>
      rw [List.range_succ, List.filterMap_append, ← Multiset.coe_add, ih, sum_range_succ]
      congr 1
      cases htab : d.tab n with
      | none => simp [tpage, htab]
      | some p => simp [tpage, htab]
  unfold tables tpages pdes
  exact hgen NPDENTRIES

theorem wp_freevm (hwf : d.WF) (hcontig : Contig d) (hram : ∀ p ∈ d.pages, L.Ram p)
    (hQ : ∀ s', s'.total = s.total + d.pages → s'.dropped = s.dropped →
      (∀ p, p ∉ d.pages → s'.data p = s.data p) → s.free <:+ s'.free → Q () s') :
    wp (freevm L d) Q E s := by
  have hup : ∀ p ∈ d.upages, L.Ram p := fun p hp => hram p (mem_pages.mpr (.inr (.inr hp)))
  have hbase : npages KERNBASE = UPAGES := rfl
  rw [freevm]
  refine wp_seq (wp_deallocuvm hwf hcontig le_rfl hup (fun h => ?_) fun _ d' s1 h1 => ?_)
  · exfalso
    unfold KERNBASE at h
    omega
  rw [hbase, show npages 0 = 0 from rfl] at h1
  -- no user page is left
  have hnone : d'.upages = 0 := by
    rw [upages]
    refine sum_eq_zero fun v hv => ?_
    have hlt := mem_vpns.mp hv
    rw [h1.pte, if_pos ⟨Nat.zero_le v, hlt⟩, page1_zero]
  have htabs : d'.tpages = d.tpages := by
    rw [tpages, tpages]
    refine sum_congr rfl fun i _ => ?_
    rw [tpage, tpage, h1.tab]
  have hlist := coe_tables d'
  refine wp_seq (wp_kfree_all (fun p hp => hram p ?_) fun s2 htot2 hdrop2 hdata2 hsuf2 => ?_)
  · refine mem_pages.mpr (.inr (.inl ?_))
    rw [← htabs, ← hlist]
    exact Multiset.mem_coe.mpr hp
  · refine wp_kfree ?_ ?_
    · rw [h1.page]
      exact hram _ (mem_pages.mpr (.inl rfl))
    · refine hQ _ ?_ (hdrop2.trans h1.dropped) (fun p hp => ?_) ?_
      · have hsum := h1.pages
        rw [pages, hnone, add_zero, h1.page, htabs] at hsum
        rw [total_freed, htot2, hlist, htabs, h1.page, add_comm s.total, ← hsum]
        abel
      · rw [mem_pages, not_or, not_or] at hp
        rw [freed_data (by rw [h1.page]; exact hp.1), hdata2 p, h1.data p]
        · intro v _ hv hpres hpa
          exact hp.2.2 (mem_upages_iff.mpr ⟨v, hv, hpres, hpa⟩)
        · intro hmem
          refine hp.2.1 ?_
          rw [← htabs, ← hlist]
          exact Multiset.mem_coe.mpr hmem
      · exact (h1.free.trans hsuf2).trans (List.suffix_cons _ _)

end Vm

end Xv6
