/-
  Xv6.Vm.Grow

  Growing and shrinking a process (allocuvm, growproc).

  `growproc` trusts the size that `allocuvm` and `deallocuvm` return, in which 0
  stands for failure: shrinking to nothing is taken for a failure, and shrinking
  below nothing wraps around and is taken for a success.
-/

import Xv6.Vm.Pages

namespace Xv6.Vm

open Function Finset Wp

variable {L : Layout} {d d' : Pgdir} {s s' : Kmem} {v k : ℕ} {E : String → Kmem → Prop}
variable {e : Pte} {w mem v0 oldsz newsz x y : ℕ} {rest : List ℕ} {d1 : Pgdir} {s1 : Kmem}
    {Q : Pgdir × ℕ → Kmem → Prop}

/-- The user part of a directory ends at page `n`: there are page tables up to
    there and no entries from there on. -/
structure Sized (d : Pgdir) (n : ℕ) : Prop where
  wf : d.WF
  contig : Contig d
  low : ∀ v < n, d.tab (v / NPTENTRIES) ≠ none
  above : ∀ v, n ≤ v → v < UPAGES → (d.pte v).p = false

theorem mem_upages_setPte {p : ℕ} (h : p ∈ (d.setPte v e).upages) : p ∈ d.upages ∨ p = e.addr := by
  rw [Pgdir.mem_upages_iff] at h ⊢
  obtain ⟨x, hx, hxp, hxa⟩ := h
  by_cases hxv : x = v
  · rw [hxv, Pgdir.setPte_self] at hxa
    exact .inr hxa.symm
  · rw [Pgdir.setPte_of_ne hxv] at hxp hxa
    exact .inl ⟨x, hx, hxp, hxa⟩

theorem upages_of_walked (h : Walked d v s d' s') : d'.upages = d.upages := by
  rw [Pgdir.upages, Pgdir.upages, h.pte]

theorem contig_of_walked (hcontig : Contig d) (h : Walked d v s d' s')
    (hlow : ∀ x < v, d.tab (x / NPTENTRIES) ≠ none) : Contig d' := by
  intro i j hij hj htab
  rw [h.tab] at htab ⊢
  rcases htab with htab | rfl
  · exact .inl (hcontig i j hij hj htab)
  · by_cases hi : i = v / NPTENTRIES
    · exact .inr hi
    · refine .inl ?_
      have hlt := hlow (i * NPTENTRIES) (by
        unfold NPTENTRIES at hi hij ⊢
        omega)
      rw [Nat.mul_div_cancel _ (by decide)] at hlt
      exact hlt

theorem Sized.map (h : Sized d v) (hw : Walked d v s d' s') (he : e.p = true) :
    Sized (d'.setPte v e) (v + 1) := by
  have htab : ∀ x < v + 1, d'.tab (x / NPTENTRIES) ≠ none := by
    intro x hx
    rw [hw.tab]
    by_cases hxv : x = v
    · exact .inr (by rw [hxv])
    · exact .inl (h.low x (by omega))
  refine ⟨hw.wf.setPte (htab v (by omega)) fun hf => ?_, fun i j => contig_of_walked h.contig hw h.low i j,
    htab, fun x hx hxU => ?_⟩
  · rw [he] at hf
    cases hf
  · rw [Pgdir.setPte_of_ne (by omega), hw.pte]
    exact h.above x (by omega) hxU

/-! ## allocuvm -/

structure Grown (d : Pgdir) (v w : ℕ) (s : Kmem) (d' : Pgdir) (s' : Kmem) : Prop where
  sized : Sized d' (max v w)
  page : d'.page = d.page
  keep : ∀ i p, d.tab i = some p → d'.tab i = some p
  tab : ∀ i, d'.tab i ≠ none ↔ d.tab i ≠ none ∨ ∃ x, v ≤ x ∧ x < w ∧ i = x / NPTENTRIES
  pte : ∀ x, ¬ (v ≤ x ∧ x < w) → d'.pte x = d.pte x
  fresh : ∀ x, v ≤ x → x < w → ∃ a ∈ s.free, d'.pte x = ⟨a, true, true, true⟩ ∧
    a ∉ s'.free ∧ s'.data a = fun _ => 0
  pages : d'.pages + s'.total = d.pages + s.total
  data : ∀ p, p ∉ s.free → s'.data p = s.data p
  dropped : s'.dropped = s.dropped
  free : s'.free <:+ s.free

structure Rolled (d : Pgdir) (v₀ v w : ℕ) (s : Kmem) (d' : Pgdir) (s' : Kmem) : Prop where
  wf : d'.WF
  contig : Contig d'
  page : d'.page = d.page
  keep : ∀ i p, d.tab i = some p → d'.tab i = some p
  high : ∀ i, UPAGES / NPTENTRIES ≤ i → (d'.tab i ≠ none ↔ d.tab i ≠ none)
  pte : ∀ x, d'.pte x = if v₀ ≤ x ∧ x < w then Pte.zero else d.pte x
  pages : d'.pages + s'.total = d.pages + s.total
  data : ∀ p, p ∉ s.free → (∀ x, v₀ ≤ x → x < v → (d.pte x).p = true → (d.pte x).addr ≠ p) →
    s'.data p = s.data p
  dropped : s'.dropped = s.dropped

theorem Grown.refl (h : Sized d v) (hle : w ≤ v) : Grown d v w s d s where
  sized := by rw [max_eq_left hle]; exact h
  page := rfl
  keep := fun _ _ hp => hp
  tab := fun i => ⟨.inl, by
    rintro (htab | ⟨x, hx, hxv, -⟩)
    · exact htab
    · omega⟩
  pte := fun _ _ => rfl
  fresh := fun x hx hxv => by omega
  pages := rfl
  data := fun _ _ => rfl
  dropped := rfl
  free := List.suffix_rfl

/-- The state after a page was taken and cleared. -/
def taken (s : Kmem) (p : ℕ) (rest : List ℕ) : Kmem :=
  { s with free := rest, data := update s.data p fun _ => 0 }

theorem total_taken {p : ℕ} (h : s.free = p :: rest) : s.total = (taken s p rest).total + {p} := by
  show (s.free : Multiset ℕ) + _ = ((rest : Multiset ℕ) + (s.dropped : Multiset ℕ)) + {p}
  rw [h, ← Multiset.cons_coe, ← Multiset.singleton_add]
  abel

theorem pages_map {w u : Bool} (hv : v < UPAGES) (habs : (d'.pte v).p = false) :
    (d'.setPte v ⟨mem, true, w, u⟩).pages = d'.pages + {mem} := by
  have hset := Pgdir.pages_setPte (d := d') (e := ⟨mem, true, w, u⟩) hv
  rw [Pgdir.page1_of_absent habs, add_zero, Pgdir.page1_of_present rfl] at hset
  exact hset

theorem Grown.cons (hvw : v < w) (hw : w ≤ UPAGES) (hsz : Sized d v) (hfree : s.free = mem :: rest)
    (hnodup : s.free.Nodup) (hwalk : Walked d v (taken s mem rest) d1 s1)
    (h : Grown (d1.setPte v ⟨mem, true, true, true⟩) (v + 1) w s1 d' s') : Grown d v w s d' s' := by
  have hmem : mem ∉ rest := by
    rw [hfree] at hnodup
    exact (List.nodup_cons.mp hnodup).1
  have hsub : ∀ p, p ∈ s1.free → p ∈ rest := fun p hp => hwalk.free.subset hp
  have hfree' : s'.free <:+ rest := h.free.trans hwalk.free
  refine ⟨?_, h.page.trans hwalk.page, fun i p hp => h.keep i p (hwalk.keep i p hp), fun i => ?_,
    fun x hx => ?_, fun x hx hxw => ?_, ?_, fun p hp => ?_, h.dropped.trans hwalk.dropped, ?_⟩
  · have hs := h.sized
    rw [show max (v + 1) w = w by omega] at hs
    rw [show max v w = w by omega]
    exact hs
  · rw [h.tab, Pgdir.setPte_tab, hwalk.tab]
    constructor
    · rintro ((htab | rfl) | ⟨x, hx, hxw, rfl⟩)
      · exact .inl htab
      · exact .inr ⟨v, le_rfl, hvw, rfl⟩
      · exact .inr ⟨x, by omega, hxw, rfl⟩
    · rintro (htab | ⟨x, hx, hxw, rfl⟩)
      · exact .inl (.inl htab)
      · by_cases hxv : x = v
        · exact .inl (.inr (by rw [hxv]))
        · exact .inr ⟨x, by omega, hxw, rfl⟩
  · rw [h.pte x (by omega), Pgdir.setPte_of_ne (by omega), hwalk.pte]
  · by_cases hxv : x = v
    · refine ⟨mem, by rw [hfree]; exact List.mem_cons_self, ?_, fun hm => ?_, ?_⟩
      · rw [hxv, h.pte v (by omega), Pgdir.setPte_self]
      · exact hmem (hfree'.subset hm)
      · rw [h.data mem fun hm => hmem (hsub mem hm), hwalk.data]
        exact update_self _ _ _
    · obtain ⟨a, ha, hrest⟩ := h.fresh x (by omega) hxw
      exact ⟨a, by rw [hfree]; exact List.mem_cons_of_mem _ (hsub a ha), hrest⟩
  · have habs : (d1.pte v).p = false := by
      rw [hwalk.pte]
      exact hsz.above v le_rfl (by omega)
    rw [h.pages, pages_map (by omega) habs, total_taken hfree, ← add_assoc, ← hwalk.pages]
    abel
  · rw [hfree, List.mem_cons, not_or] at hp
    rw [h.data p fun hm => hp.2 (hsub p hm), hwalk.data]
    exact update_of_ne hp.1 _ _
  · rw [hfree]
    exact hfree'.trans (List.suffix_cons mem rest)

theorem Rolled.cons (hv0 : v0 ≤ v) (hvw : v < w) (hw : w ≤ UPAGES)
    (hsz : Sized d v) (hfree : s.free = mem :: rest) (hwalk : Walked d v (taken s mem rest) d1 s1)
    (h : Rolled (d1.setPte v ⟨mem, true, true, true⟩) v0 (v + 1) w s1 d' s') :
    Rolled d v0 v w s d' s' := by
  have hsub : ∀ p, p ∈ s1.free → p ∈ rest := fun p hp => hwalk.free.subset hp
  refine ⟨h.wf, h.contig, h.page.trans hwalk.page, fun i p hp => h.keep i p (hwalk.keep i p hp),
    fun i hi => ?_, fun x => ?_, ?_, fun p hp hout => ?_, h.dropped.trans hwalk.dropped⟩
  · rw [h.high i hi, Pgdir.setPte_tab, hwalk.tab]
    refine or_iff_left ?_
    unfold UPAGES NPTENTRIES at *
    omega
  · rw [h.pte]
    by_cases hx : v0 ≤ x ∧ x < w
    · rw [if_pos hx, if_pos hx]
    · rw [if_neg hx, if_neg hx, Pgdir.setPte_of_ne (by omega), hwalk.pte]
  · have habs : (d1.pte v).p = false := by
      rw [hwalk.pte]
      exact hsz.above v le_rfl (by omega)
    rw [h.pages, pages_map (by omega) habs, total_taken hfree, ← add_assoc, ← hwalk.pages]
    abel
  · rw [hfree, List.mem_cons, not_or] at hp
    rw [h.data p (fun hm => hp.2 (hsub p hm)) ?_, hwalk.data]
    · exact update_of_ne hp.1 _ _
    · intro x hx hxv hpres
      by_cases hxv' : x = v
      · rw [hxv', Pgdir.setPte_self]
        exact Ne.symm hp.1
      · rw [Pgdir.setPte_of_ne hxv', hwalk.pte] at hpres ⊢
        exact hout x hx (by omega) hpres

theorem Cleared.rolled (hsz : Sized d v) (hw : w ≤ UPAGES)
    (h : Cleared d v0 w s d' s') : Rolled d v0 v w s d' s' where
  wf := h.wf
  contig := fun i j hij hj htab => by
    rw [h.tab] at htab ⊢
    exact hsz.contig i j hij hj htab
  page := h.page
  keep := fun i p hp => by
    rw [h.tab]
    exact hp
  high := fun i _ => by rw [h.tab]
  pte := h.pte
  pages := h.pages
  data := fun p _ hp => h.data p fun x hx hxw hpres => by
    refine hp x hx ?_ hpres
    by_contra hge
    rw [hsz.above x (by omega) (by omega)] at hpres
    cases hpres
  dropped := h.dropped

theorem wp_allocLoop (hsz : Sized d v)
    (hold : oldsz ≤ newsz) (hnew : newsz < KERNBASE) (hv : npages oldsz ≤ v)
    (hk : v + k = max v (npages newsz)) (hnodup : s.free.Nodup)
    (hup : ∀ p ∈ d.upages, L.Ram p) (hfree : ∀ p ∈ s.free, L.Ram p)
    (hfail : ∀ d' s', Rolled d (npages oldsz) v (npages newsz) s d' s' → ¬ s.Room d k → Q (d', 0) s')
    (hok : ∀ d' s', Grown d v (npages newsz) s d' s' → Q (d', newsz) s') :
    wp (allocLoop L oldsz newsz k v d) Q E s := by
  have hw : npages newsz ≤ UPAGES := npages_le hnew.le
  -- on the number of pages still to map
  induction k generalizing d v s with
  | zero =>
    exact hok d s (Grown.refl hsz (by omega))
  | succ k ih =>
    have hvw : v < npages newsz := by omega
    -- undoing, from a state that only differs in a page that was taken
    have hundo : ∀ {Q' : Pgdir × ℕ → Kmem → Prop} {t : Kmem},
        (∀ d' s', Cleared d (npages oldsz) (npages newsz) t d' s' → Q' (d', oldsz) s') →
        wp (deallocuvm L d newsz oldsz) Q' E t := by
      intro Q' t hQ'
      refine wp_deallocuvm hsz.wf hsz.contig hnew.le hup (fun hle => ?_) fun _ d' s' h => hQ' d' s' h
      have heq : oldsz = newsz := by omega
      subst heq
      omega
    rw [allocLoop]
    refine wp_seq (wp_kalloc (fun hnone => ?_) fun mem rest hsome => ?_)
    · refine wp_seq (hundo fun d' s' h => hfail d' s' (h.rolled hsz hw) ?_)
      unfold Kmem.Room
      rw [hnone, List.length_nil]
      omega
    · have hmem : L.Ram mem := hfree mem (by rw [hsome]; exact List.mem_cons_self)
      have habs := hsz.above v le_rfl (by omega)
      refine wp_write (wp_seq ?_)
      refine wp_mappages_page (s := taken s mem rest) hsz.wf (by omega) habs (fun hnil htab => ?_)
        fun d1 s1 hwalk => ?_
      · -- no page for the page table
        dsimp only
        rw [if_neg (by simp)]
        refine wp_seq (hundo fun d' s' h => wp_seq (wp_kfree hmem ?_))
        refine hfail d' _ ?_ ?_
        · have hr := h.rolled hsz hw
          refine { hr with
            pages := ?_
            data := fun p hp hout => ?_ }
          · rw [total_freed, total_taken hsome, ← add_assoc, hr.pages, ← add_assoc]
          · rw [hsome, List.mem_cons, not_or] at hp
            rw [freed_data hp.1, hr.data p hp.2 hout]
            exact update_of_ne hp.1 _ _
        · have hpos := Pgdir.missing_pos (d := d) (i := v / NPTENTRIES) (by
            unfold UPAGES at hw
            unfold NPTENTRIES NPDENTRIES
            omega) htab
          have hrest : rest = [] := hnil
          unfold Kmem.Room
          rw [hsome, hrest, List.length_singleton]
          omega
      · dsimp only
        rw [if_pos rfl]
        have hnodup1 : s1.free.Nodup := by
          rw [hsome] at hnodup
          exact (List.nodup_cons.mp hnodup).2.sublist hwalk.free.sublist
        refine ih (hsz.map hwalk rfl) (by omega) (by omega) hnodup1 (fun p hp => ?_)
          (fun p hp => ?_) (fun d' s' h hroom => ?_) fun d' s' h => ?_
        · rcases mem_upages_setPte hp with hp | rfl
          · rw [upages_of_walked hwalk] at hp
            exact hup p hp
          · exact hmem
        · refine hfree p ?_
          rw [hsome]
          exact List.mem_cons_of_mem _ (hwalk.free.subset hp)
        · refine hfail d' s' (h.cons hv hvw hw hsz hsome hwalk) fun hroom' => hroom ?_
          have hr : (taken s mem rest).Room d k := by
            unfold Kmem.Room at hroom' ⊢
            rw [hsome, List.length_cons] at hroom'
            show d.missing + k ≤ rest.length
            omega
          have hr1 := (hwalk.room k).mpr hr
          unfold Kmem.Room at hr1 ⊢
          rw [Pgdir.missing_congr (Pgdir.setPte_tab d1 v _)]
          exact hr1
        · exact hok d' s' (h.cons hvw hw hsz hsome hnodup hwalk)

theorem wp_allocuvm (hsz : Sized d (npages oldsz))
    (hnodup : s.free.Nodup) (hup : ∀ p ∈ d.upages, L.Ram p) (hfree : ∀ p ∈ s.free, L.Ram p)
    (hbig : KERNBASE ≤ newsz → Q (d, 0) s) (hless : newsz < oldsz → Q (d, oldsz) s)
    (hfail : oldsz ≤ newsz → newsz < KERNBASE → ∀ d' s',
      Rolled d (npages oldsz) (npages oldsz) (npages newsz) s d' s' →
      ¬ s.Room d (npages newsz - npages oldsz) → Q (d', 0) s')
    (hok : oldsz ≤ newsz → newsz < KERNBASE → ∀ d' s',
      Grown d (npages oldsz) (npages newsz) s d' s' → Q (d', newsz) s') :
    wp (allocuvm L d oldsz newsz) Q E s := by
  rw [allocuvm]
  refine wp_ite hbig fun hlt => wp_ite hless fun hge => ?_
  have hle : oldsz ≤ newsz := by omega
  have hnew : newsz < KERNBASE := by omega
  rw [pgroundup_div (by omega)]
  refine wp_allocLoop hsz hle hnew le_rfl ?_ hnodup hup hfree (hfail hle hnew) (hok hle hnew)
  show npages oldsz + (npages newsz - npages oldsz) = _
  omega

theorem Rolled.pte_eq {n : ℕ} (h : Rolled d n n w s d' s') (hsz : Sized d n) (hw : w ≤ UPAGES) :
    d'.pte = d.pte := by
  funext x
  rw [h.pte]
  by_cases hx : n ≤ x ∧ x < w
  · rw [if_pos hx, hsz.wf.unset x (hsz.above x hx.1 (by omega))]
  · rw [if_neg hx]

/-! ## growproc -/

/-- No page has two owners, and all of them are memory. -/
structure Owned (L : Layout) (d : Pgdir) (s : Kmem) : Prop where
  nodup : (d.pages + s.total).Nodup
  ram : ∀ p ∈ d.pages + s.total, L.Ram p

theorem Owned.free_nodup (h : Owned L d s) : s.free.Nodup := by
  have hle : (s.free : Multiset ℕ) ≤ d.pages + s.total :=
    (Multiset.le_add_right _ _).trans (Multiset.le_add_left _ _)
  exact Multiset.coe_nodup.mp (Multiset.nodup_of_le hle h.nodup)

theorem Owned.free_ram (h : Owned L d s) {p : ℕ} (hp : p ∈ s.free) : L.Ram p :=
  h.ram p (Multiset.mem_add.mpr (.inr (Multiset.mem_add.mpr (.inl (Multiset.mem_coe.mpr hp)))))

theorem Owned.pages_ram (h : Owned L d s) {p : ℕ} (hp : p ∈ d.pages) : L.Ram p :=
  h.ram p (Multiset.mem_add.mpr (.inl hp))

theorem Owned.upages_ram (h : Owned L d s) {p : ℕ} (hp : p ∈ d.upages) : L.Ram p :=
  h.pages_ram (Pgdir.mem_pages.mpr (.inr (.inr hp)))

theorem Owned.not_free (h : Owned L d s) {p : ℕ} (hp : p ∈ d.pages) : p ∉ s.free := by
  intro hfree
  refine Multiset.disjoint_left.mp (Multiset.nodup_add.mp h.nodup).2.2 hp ?_
  exact Multiset.mem_add.mpr (.inl (Multiset.mem_coe.mpr hfree))

theorem upages_inj (h : d.upages.Nodup) (hx : x < UPAGES) (hy : y < UPAGES)
    (hxp : (d.pte x).p = true) (hyp : (d.pte y).p = true)
    (heq : (d.pte x).addr = (d.pte y).addr) : x = y := by
  by_contra hxy
  have hle : ({(d.pte x).addr, (d.pte y).addr} : Multiset ℕ) ≤ d.upages := by
    have hsub : ({x, y} : Finset ℕ) ⊆ vpns := by
      intro z hz
      rcases mem_insert.mp hz with rfl | hz
      · exact mem_vpns.mpr hx
      · rw [mem_singleton.mp hz]
        exact mem_vpns.mpr hy
    have hsum := sum_le_sum_of_subset (f := fun v => Pgdir.page1 (d.pte v)) hsub
    rw [sum_pair hxy, Pgdir.page1_of_present hxp, Pgdir.page1_of_present hyp] at hsum
    exact hsum
  have hnodup := Multiset.nodup_of_le hle h
  rw [heq] at hnodup
  exact absurd hnodup (by simp)

theorem upages_le_pages : d.upages ≤ d.pages := Multiset.le_add_left _ _

theorem Owned.inj (h : Owned L d s) (hx : x < UPAGES) (hy : y < UPAGES) (hxp : (d.pte x).p = true)
    (hyp : (d.pte y).p = true) (heq : (d.pte x).addr = (d.pte y).addr) : x = y :=
  upages_inj (Multiset.nodup_of_le (upages_le_pages.trans (Multiset.le_add_right _ _)) h.nodup)
    hx hy hxp hyp heq

/-- The user pages of a process are exactly those below `PGROUNDUP(sz)`. -/
structure Exact (p : Space) : Prop where
  sz : p.sz < KERNBASE
  sized : Sized p.pgdir (npages p.sz)
  mapped : ∀ v < npages p.sz, (p.pgdir.pte v).p = true

def SamePage (p : Space) (s : Kmem) (p' : Space) (s' : Kmem) (v : ℕ) : Prop :=
  p'.pgdir.pte v = p.pgdir.pte v ∧ s'.data (p.pgdir.pte v).addr = s.data (p.pgdir.pte v).addr

/-- The process has grown by exactly `n` and has nothing but zeros there, or nothing has changed. -/
def AllOrNothing (p : Space) (s : Kmem) (n : ℤ) (p' : Space) (r : ℤ) (s' : Kmem) : Prop :=
  (r = 0 ∧ (p'.sz : ℤ) = p.sz + n ∧ p'.sz < KERNBASE ∧
    (∀ v < UPAGES, (p'.pgdir.pte v).p = true ↔ v < npages p'.sz) ∧
    (∀ v, v < npages p.sz → v < npages p'.sz → SamePage p s p' s' v) ∧
    (∀ v, npages p.sz ≤ v → v < npages p'.sz → s'.data (p'.pgdir.pte v).addr = fun _ => 0)) ∨
  (r = -1 ∧ p'.sz = p.sz ∧ (∀ v < UPAGES, p'.pgdir.pte v = p.pgdir.pte v) ∧
    ∀ v, v < npages p.sz → SamePage p s p' s' v)

variable {p : Space} {n : ℤ}

theorem Exact.present_iff (h : Exact p) (hv : v < UPAGES) :
    (p.pgdir.pte v).p = true ↔ v < npages p.sz := by
  refine ⟨fun hp => ?_, h.mapped v⟩
  by_contra hge
  rw [h.sized.above v (by omega) hv] at hp
  cases hp

theorem Exact.mem_pages (h : Exact p) (hv : v < npages p.sz) :
    (p.pgdir.pte v).addr ∈ p.pgdir.pages := by
  have hle := npages_le h.sz.le
  exact Pgdir.mem_pages.mpr (.inr (.inr (Pgdir.mem_upages (h.mapped v hv) (by omega))))

theorem allOrNothing_refl (p : Space) (s : Kmem) (n : ℤ) : AllOrNothing p s n p (-1) s :=
  .inr ⟨rfl, rfl, fun _ _ => rfl, fun _ _ => ⟨rfl, rfl⟩⟩

theorem allOrNothing_rolled (h : Exact p) (hown : Owned L p.pgdir s) (hw : w ≤ UPAGES)
    (hr : Rolled p.pgdir (npages p.sz) (npages p.sz) w s d' s') :
    AllOrNothing p s n { p with pgdir := d' } (-1) s' := by
  have hpte := hr.pte_eq h.sized hw
  refine .inr ⟨rfl, rfl, fun v _ => congrFun hpte v, fun v hv => ⟨congrFun hpte v, ?_⟩⟩
  exact hr.data _ (hown.not_free (h.mem_pages hv)) fun x hx hxv => by omega

theorem allOrNothing_grown (h : Exact p) (hown : Owned L p.pgdir s)
    (hnew : newsz < KERNBASE) (hle : p.sz ≤ newsz) (heq : (newsz : ℤ) = p.sz + n)
    (hg : Grown p.pgdir (npages p.sz) (npages newsz) s d' s') :
    AllOrNothing p s n { p with pgdir := d', sz := newsz } 0 s' := by
  have hmono := npages_mono hle
  have hw := npages_le hnew.le
  refine .inl ⟨rfl, heq, hnew, fun v hv => ?_, fun v hv _ => ?_, fun v hv hvn => ?_⟩
  · show (d'.pte v).p = true ↔ v < npages newsz
    by_cases hin : npages p.sz ≤ v ∧ v < npages newsz
    · obtain ⟨a, -, ha, -⟩ := hg.fresh v hin.1 hin.2
      rw [ha]
      exact iff_of_true rfl hin.2
    · rw [hg.pte v hin, h.present_iff hv]
      omega
  · exact ⟨hg.pte v (by omega), hg.data _ (hown.not_free (h.mem_pages hv))⟩
  · obtain ⟨a, -, ha, -, hzero⟩ := hg.fresh v hv hvn
    show s'.data (d'.pte v).addr = _
    rw [ha]
    exact hzero

theorem allOrNothing_cleared (h : Exact p) (hown : Owned L p.pgdir s) (hlt : newsz < p.sz)
    (heq : (newsz : ℤ) = p.sz + n) (hc : Cleared p.pgdir (npages newsz) (npages p.sz) s d' s') :
    AllOrNothing p s n { p with pgdir := d', sz := newsz } 0 s' := by
  have hmono := npages_mono hlt.le
  have hw := npages_le h.sz.le
  have hsz := h.sz
  refine .inl ⟨rfl, heq, by show newsz < KERNBASE; omega, fun v hv => ?_, fun v hv hvn => ?_,
    fun v hv hvn => ?_⟩
  · show (d'.pte v).p = true ↔ v < npages newsz
    rw [hc.pte]
    by_cases hin : npages newsz ≤ v ∧ v < npages p.sz
    · rw [if_pos hin]
      exact iff_of_false Bool.false_ne_true (by omega)
    · rw [if_neg hin, h.present_iff hv]
      omega
  · have hvn' : v < npages newsz := hvn
    refine ⟨?_, hc.data _ fun x hx hxw hpres hsame => ?_⟩
    · show d'.pte v = _
      rw [hc.pte, if_neg (by omega)]
    · have hxv := hown.inj (by omega) (by omega) hpres (h.mapped v hv) hsame
      omega
  · have hvn' : v < npages newsz := hvn
    omega

/-- **`sbrk` is all-or-nothing, but for shrinking to nothing or below.**  For a
    process whose user pages are exactly those below `PGROUNDUP(sz)` and every
    32-bit `n`, `growproc(n)` returns, and it is all-or-nothing exactly if it
    does not shrink a process that has memory to size 0 or further. -/
theorem growproc_all_or_nothing_iff (h : Exact p) (hown : Owned L p.pgdir s)
    (hlo : -2 ^ 31 ≤ n) (hhi : n < 2 ^ 31) :
    ∃ p' r s', growproc L p n s = .ok (p', r) s' ∧
      (AllOrNothing p s n p' r s' ↔ 0 ≤ n ∨ 0 < p.sz + n ∨ p.sz = 0) := by
  have hsz : p.sz < 2 ^ 31 := h.sz
  have hup : ∀ q ∈ p.pgdir.upages, L.Ram q := fun q hq => hown.upages_ram hq
  have hwp : wp (growproc L p n) (fun x s' => AllOrNothing p s n x.1 x.2 s' ↔
      0 ≤ n ∨ 0 < p.sz + n ∨ p.sz = 0) (fun _ _ => False) s := by
    rw [growproc]
    refine wp_ite (fun hpos => ?_) fun hnpos => wp_ite (fun hneg => ?_) fun hnneg => ?_
    · -- growing: the sum does not wrap around
      have hcond : 0 ≤ n ∨ 0 < p.sz + n ∨ p.sz = 0 := .inl hpos.le
      generalize hnew : ((p.sz + n) % 2 ^ 32).toNat = newsz
      have heq : (newsz : ℤ) = p.sz + n := by omega
      refine wp_seq (wp_allocuvm h.sized hown.free_nodup hup (fun q hq => hown.free_ram hq)
        (fun _ => ?_) (fun hlt => absurd hlt (by omega)) (fun hle hlt d' s' hr _ => ?_)
        fun hle hlt d' s' hg => ?_)
      · exact iff_of_true (allOrNothing_refl p s n) hcond
      · exact iff_of_true (allOrNothing_rolled h hown (npages_le hlt.le) hr) hcond
      · have hne : newsz ≠ 0 := by omega
        dsimp only
        rw [if_neg hne]
        exact iff_of_true (allOrNothing_grown h hown hlt hle heq hg) hcond
    · generalize hnew : ((p.sz + n) % 2 ^ 32).toNat = newsz
      refine wp_seq (wp_deallocuvm h.sized.wf h.sized.contig h.sz.le hup (fun hle => ?_)
        fun hlt d' s' hc => ?_)
      · -- `sz + n` has wrapped around
        dsimp only
        by_cases hzero : p.sz = 0
        · rw [if_pos hzero]
          exact iff_of_true (allOrNothing_refl p s n) (.inr (.inr hzero))
        · rw [if_neg hzero]
          refine iff_of_false ?_ (by omega)
          rintro (⟨-, hgrow, -⟩ | ⟨hr, -⟩)
          · have hgrow' : (p.sz : ℤ) = p.sz + n := hgrow
            omega
          · exact absurd (show (0 : ℤ) = -1 from hr) (by decide)
      · have heq : (newsz : ℤ) = p.sz + n := by omega
        dsimp only
        by_cases hzero : newsz = 0
        · -- the pages are gone, but 0 means failure
          rw [if_pos hzero]
          refine iff_of_false ?_ (by omega)
          rintro (⟨hr, -⟩ | ⟨-, -, hsame, -⟩)
          · exact absurd (show (-1 : ℤ) = 0 from hr) (by decide)
          · have hfirst : 0 < npages p.sz := by
              rw [lt_npages, Nat.zero_mul]
              omega
            have hle := npages_le h.sz.le
            have hpte : d'.pte 0 = p.pgdir.pte 0 := hsame 0 (by omega)
            rw [hc.pte, hzero, if_pos ⟨Nat.zero_le 0, hfirst⟩] at hpte
            have hpres := h.mapped 0 hfirst
            rw [← hpte] at hpres
            cases hpres
        · rw [if_neg hzero]
          exact iff_of_true (allOrNothing_cleared h hown hlt heq hc) (by omega)
    · have hn : (p.sz : ℤ) = p.sz + n := by omega
      refine iff_of_true (.inl ⟨rfl, hn, h.sz, fun v hv => h.present_iff hv,
        fun v _ _ => ⟨rfl, rfl⟩, fun v hv hvn => ?_⟩) (.inl (by omega))
      exact absurd (show v < npages p.sz from hvn) (by omega)
  obtain ⟨⟨p', r⟩, s', hrun, hiff⟩ := exists_ok hwp
  exact ⟨p', r, s', hrun, hiff⟩

/-! ## A process of one page -/

theorem pages_new (page : ℕ) : (Pgdir.new page).pages = {page} := by
  have htabs : (Pgdir.new page).tpages = 0 := sum_eq_zero fun i _ => rfl
  have hup : (Pgdir.new page).upages = 0 := sum_eq_zero fun v _ => rfl
  rw [Pgdir.pages, htabs, hup, add_zero, add_zero]
  rfl

def smallKernel : Layout :=
  ⟨KERNBASE + 0x109000, KERNBASE + 0x115000, by decide, by decide, by decide, by decide⟩

def onePage : Space :=
  ⟨((Pgdir.new 300).addTable 0 301).setPte 0 ⟨302, true, true, true⟩, 4096, 303⟩

def oneFree : Kmem := ⟨[304], fun _ _ => 0, []⟩

theorem onePage_table : ((Pgdir.new 300).addTable 0 301).WF ∧
    ((Pgdir.new 300).addTable 0 301).pages = {300} + {301} := by
  obtain ⟨hwf, -, hpages⟩ := Pgdir.pages_addTable (p := 301) (Pgdir.wf_new 300)
    (show 0 < NPDENTRIES by decide) rfl
  rw [pages_new] at hpages
  exact ⟨hwf, hpages⟩

theorem onePage_tab {i : ℕ} : onePage.pgdir.tab i ≠ none ↔ i = 0 := by
  show update (fun _ => none) 0 (some 301) i ≠ none ↔ i = 0
  by_cases hi : i = 0
  · rw [hi, update_self]
    simp
  · rw [update_of_ne hi]
    simp [hi]

def gap : Pgdir := ((Pgdir.new 300).addTable 1 301).setPte 1024 ⟨302, true, true, true⟩

theorem gap_table : ((Pgdir.new 300).addTable 1 301).WF ∧
    ((Pgdir.new 300).addTable 1 301).pte = (Pgdir.new 300).pte := by
  obtain ⟨hwf, hpte, -⟩ := Pgdir.pages_addTable (p := 301) (Pgdir.wf_new 300)
    (show 1 < NPDENTRIES by decide) rfl
  exact ⟨hwf, hpte⟩

theorem gap_wf : gap.WF := gap_table.1.setPte (by decide) (by simp)

theorem gap_upages : ∀ p ∈ gap.upages, smallKernel.Ram p := by
  intro p hp
  obtain ⟨x, -, hx, rfl⟩ := Pgdir.mem_upages_iff.mp hp
  by_cases hne : x = 1024
  · rw [hne]
    decide
  · rw [show gap.pte x = _ from Pgdir.setPte_of_ne hne, gap_table.2] at hx
    cases hx

theorem deallocuvm_gap :
    ∃ d' s', deallocuvm smallKernel gap (1025 * PGSIZE) 0 oneFree = .ok (d', 0) s' ∧
      d'.page = gap.page ∧ d'.tab = gap.tab ∧
      (∀ x, d'.pte x = if pgroundup 0 ≤ x * PGSIZE ∧ x * PGSIZE < 1025 * PGSIZE then Pte.zero
        else gap.pte x) ∧
      d'.pages + (s'.free : Multiset ℕ) = gap.pages + oneFree.free :=
  (deallocuvm_contract (by decide) (by decide) gap_wf gap_upages).mpr fun x _ _ _ hsk => by
    have hlt := hsk.2.2
    exact absurd hlt (Nat.not_lt_zero _)

/-- **A page is jumped over.**  From page 1, without a page table, the loop goes
    on at page 1025, so page 1024 stays. -/
theorem deallocuvm_skips_page : gap.WF ∧ (∀ p ∈ gap.upages, smallKernel.Ram p) ∧
    pgroundup 4096 ≤ 1024 * PGSIZE ∧ (gap.pte 1024).p = true ∧
    deallocuvm smallKernel gap (1025 * PGSIZE) 4096 oneFree = .ok (gap, 4096) oneFree :=
  ⟨gap_wf, gap_upages, by decide, by decide, rfl⟩

theorem exact_onePage : Exact onePage := by
  have hone : npages onePage.sz = 1 := rfl
  refine ⟨by decide, ⟨onePage_table.1.setPte (by decide) (by simp), ?_, ?_, ?_⟩, ?_⟩
  · intro i j hij _ hj
    rw [onePage_tab] at hj ⊢
    omega
  · intro v hv
    rw [hone] at hv
    rw [onePage_tab, show v = 0 by omega]
    rfl
  · intro v hv _
    rw [hone] at hv
    show ((update _ 0 _ : ℕ → Pte) v).p = false
    rw [update_of_ne (by omega)]
    show (if v / NPTENTRIES = 0 then Pte.zero else Pte.zero).p = false
    rw [ite_self]
    rfl
  · intro v hv
    rw [hone] at hv
    rw [show v = 0 by omega]
    rfl

theorem owned_onePage : Owned smallKernel onePage.pgdir oneFree := by
  have hpages : onePage.pgdir.pages + oneFree.total = ([300, 301, 302, 304] : List ℕ) := by
    rw [show onePage.pgdir.pages = {300} + {301} + {302} by
      rw [onePage, pages_map (by decide) rfl, onePage_table.2]]
    rfl
  refine ⟨?_, ?_⟩
  · rw [hpages]
    decide
  · rw [hpages]
    decide

theorem growproc_onePage_grows :
    ∃ p' r s', growproc smallKernel onePage 4096 oneFree = .ok (p', r) s' ∧
      (AllOrNothing onePage oneFree 4096 p' r s' ↔
        0 ≤ (4096 : ℤ) ∨ 0 < (onePage.sz : ℤ) + 4096 ∨ onePage.sz = 0) :=
  growproc_all_or_nothing_iff exact_onePage owned_onePage (by decide) (by decide)

/-- `sbrk(-8192)` of a process of 4096 bytes returns 0 and leaves the size at 4096. -/
theorem growproc_below_nothing_succeeds :
    Exact onePage ∧ Owned smallKernel onePage.pgdir oneFree ∧
      ∃ p' r s', growproc smallKernel onePage (-8192) oneFree = .ok (p', r) s' ∧
        ¬ AllOrNothing onePage oneFree (-8192) p' r s' := by
  refine ⟨exact_onePage, owned_onePage, onePage, 0, oneFree, rfl, ?_⟩
  rintro (⟨-, hsz, -⟩ | ⟨hr, -⟩)
  · exact absurd hsz (by decide)
  · exact absurd hr (by decide)

end Xv6.Vm
