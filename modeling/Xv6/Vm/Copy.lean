/-
  Xv6.Vm.Copy

  Copying an address space (copyuvm).
-/

import Xv6.Vm.Kernel

namespace Xv6.Vm

open Function List Wp Pgdir

variable {L : Layout} {d d' e e' : Pgdir} {s s' : Kmem} {v k : ℕ} {E : String → Kmem → Prop}
variable {Q : Option Pgdir → Kmem → Prop}

theorem Owned.of_eq (h : Owned L d s) (heq : d'.pages + s'.total = d.pages + s.total) :
    Owned L d' s' := by
  constructor
  · rw [heq]
    exact h.nodup
  · rw [heq]
    exact h.ram

theorem Owned.not_total (h : Owned L d s) {p : ℕ} (hp : p ∈ d.pages) : p ∉ s.total :=
  Multiset.disjoint_left.mp (Multiset.nodup_add.mp h.nodup).2.2 hp

theorem Kern.walked (h : Kern L d) (hv : v < UPAGES) (hw : Walked d v s d' s') (x : Pte) :
    Kern L (d'.setPte v x) := by
  constructor
  · intro y hlo hhi
    rw [setPte_of_ne (by omega), hw.pte]
    exact h.pte y hlo hhi
  · intro i hlo hhi
    rw [setPte_tab, hw.tab, ← h.tab i hlo hhi]
    refine ⟨?_, .inl⟩
    rintro (htab | rfl)
    · exact htab
    · unfold UPAGES at hv
      unfold NPTENTRIES at hlo
      omega

/-- The pages from `v` to `w` of `d` were copied. -/
structure Copied (L : Layout) (d e : Pgdir) (v w : ℕ) (s : Kmem) (e' : Pgdir) (s' : Kmem) :
    Prop where
  sized : Sized e' w
  kern : Kern L e'
  page : e'.page = e.page
  old : ∀ x < v, e'.pte x = e.pte x
  pte : ∀ x, v ≤ x → x < w → (d.pte x).p = true ∧ (e'.pte x).p = true ∧
    (e'.pte x).w = (d.pte x).w ∧ (e'.pte x).u = (d.pte x).u ∧
    s'.data (e'.pte x).addr = s.data (d.pte x).addr
  pages : e'.pages + s'.total = e.pages + s.total
  data : ∀ p, p ∉ s.free → s'.data p = s.data p
  dropped : s'.dropped = s.dropped
  free : s'.free <:+ s.free

/-- With `n` free pages, copying the pages from `v` to `v + k` ends with a page in hand and none for
    its page table: a page table is due at each multiple of `NPTENTRIES`, behind the page itself. -/
def CopyLeaks (v k n : ℕ) : Prop :=
  ∃ j, v ≤ 1024 * j ∧ 1024 * j < v + k ∧ n + v + (v + 1023) / 1024 = 1025 * j + 1

theorem not_copyLeaks_zero : ¬ CopyLeaks v k 0 := by
  rintro ⟨j, hlo, -, hsum⟩
  omega

theorem copyLeaks_one (hv : v % 1024 = 0) : CopyLeaks v (k + 1) 1 :=
  ⟨v / 1024, by omega, by omega, by omega⟩

theorem copyLeaks_table {n : ℕ} (hv : v % 1024 = 0) :
    CopyLeaks v (k + 1) (n + 2) ↔ CopyLeaks (v + 1) k n := by
  refine exists_congr fun j => ⟨?_, ?_⟩
  · rintro ⟨hlo, hhi, hsum⟩
    omega
  · rintro ⟨hlo, hhi, hsum⟩
    omega

theorem copyLeaks_page {n : ℕ} (hv : v % 1024 ≠ 0) :
    CopyLeaks v (k + 1) (n + 1) ↔ CopyLeaks (v + 1) k n := by
  refine exists_congr fun j => ⟨?_, ?_⟩
  · rintro ⟨hlo, hhi, hsum⟩
    omega
  · rintro ⟨hlo, hhi, hsum⟩
    omega

/-- Pages were forgotten exactly if `leaks`. -/
def Forgets (leaks : Prop) (s s' : Kmem) : Prop :=
  (¬ leaks ∧ s'.dropped = s.dropped) ∨ (leaks ∧ s.dropped.length < s'.dropped.length)

structure Failed (leaks : Prop) (e : Pgdir) (s s' : Kmem) : Prop where
  total : s'.total = e.pages + s.total
  data : ∀ p, p ∉ s.free → p ∉ e.pages → s'.data p = s.data p
  dropped : Forgets leaks s s'

/-- The directory has page tables for the pages below `v` only. -/
def Fresh (e : Pgdir) (v : ℕ) : Prop := ∀ i < 512, e.tab i ≠ none → 1024 * i < v

theorem Fresh.missing_iff (h : Fresh e v) (he : Sized e v) (hv : v < UPAGES) :
    e.tab (v / NPTENTRIES) = none ↔ v % 1024 = 0 := by
  unfold UPAGES at hv
  constructor
  · intro hnone
    by_contra hne
    refine he.low (v - 1) (by omega) ?_
    rw [show (v - 1) / NPTENTRIES = v / NPTENTRIES by unfold NPTENTRIES; omega]
    exact hnone
  · intro hmod
    by_contra hne
    have hlt := h (v / NPTENTRIES) (by unfold NPTENTRIES; omega) hne
    unfold NPTENTRIES at hlt
    omega

/-- What is free after the page table for `v` is there. -/
theorem Walked.copyLeaks {e1 : Pgdir} {s1 : Kmem} (hwalk : Walked e v s e1 s1) (h : Fresh e v)
    (he : Sized e v) (hv : v < UPAGES) :
    Fresh e1 (v + 1) ∧ (CopyLeaks v (k + 1) (s.free.length + 1) ↔ CopyLeaks (v + 1) k s1.free.length) := by
  have hroom := hwalk.count
  refine ⟨fun i hi hne => ?_, ?_⟩
  · rcases (hwalk.tab i).mp hne with hold | rfl
    · have := h i hi hold
      omega
    · unfold NPTENTRIES at *
      omega
  · have hmiss := h.missing_iff he hv
    by_cases hmod : v % 1024 = 0
    · rw [if_pos (hmiss.mpr hmod)] at hroom
      rw [hroom]
      exact copyLeaks_table hmod
    · rw [if_neg (mt hmiss.mp hmod), Nat.add_zero] at hroom
      rw [hroom]
      exact copyLeaks_page hmod

theorem wp_copyLoop (he : Sized e v) (hfresh : Fresh e v) (hkern : Kern L e) (hown : Owned L e s) (hk : v + k ≤ UPAGES)
    (hsrc : ∀ x < UPAGES, (d.pte x).p = true → (d.pte x).addr ∉ s.free)
    (hE : ∀ m s', E m s')
    (hfail : ∀ s', Failed (CopyLeaks v k s.free.length) e s s' → Q none s')
    (hok : ∀ e' s', Copied L d e v (v + k) s e' s' → Q (some e') s') :
    wp (copyLoop L d k v e) Q E s := by
  -- on the number of pages still to copy
  induction k generalizing e v s with
  | zero =>
    exact hok e s ⟨he, hkern, rfl, fun _ _ => rfl, fun x hx hxv => absurd hxv (by omega), rfl,
      fun _ _ => rfl, rfl, suffix_rfl⟩
  | succ k ih =>
    rw [copyLoop]
    refine wp_seq (wp_walk_noalloc (fun _ => hE _ _) fun _ => ?_)
    refine wp_ite (fun _ => hE _ _) fun hpres => ?_
    have hp : (d.pte v).p = true := by simpa using hpres
    refine wp_seq (wp_kalloc (fun hnil => ?_) fun mem rest hfree => ?_)
    · refine wp_seq (wp_freevm he.wf he.contig (fun q hq => hown.pages_ram hq)
        fun s' htot hdrop hdata _ => hfail s' ⟨?_, fun q _ hq => hdata q hq, .inl ⟨?_, hdrop⟩⟩)
      · rw [htot, add_comm]
      · rw [hnil]
        exact not_copyLeaks_zero
    · -- the page with its contents
      have hmem : mem ∈ s.free := by
        rw [hfree]
        exact mem_cons_self
      have hnodup := hown.free_nodup
      rw [hfree, nodup_cons] at hnodup
      have habs := he.above v le_rfl (by omega)
      refine wp_write (wp_seq ?_)
      generalize ht : ({ s with
        free := rest
        data := update s.data mem (s.data (d.pte v).addr) } : Kmem) = t
      have htdata : t.data = update s.data mem (s.data (d.pte v).addr) := by rw [← ht]
      have htfree : t.free = rest := by rw [← ht]
      have htdrop : t.dropped = s.dropped := by rw [← ht]
      have httot : s.total = t.total + {mem} := by
        rw [← ht]
        exact total_taken hfree
      refine wp_mappages_page he.wf (by omega) habs (fun hnil hnone => ?_) fun e1 s1 hwalk => ?_
      · -- no page for the page table: `mem` is forgotten
        dsimp only
        rw [if_neg (by simp)]
        refine wp_write (wp_seq ?_)
        refine wp_freevm he.wf he.contig (fun q hq => hown.pages_ram hq)
          fun s' htot hdrop hdata _ => hfail s' ⟨?_, fun q hq hqe => ?_, .inr ⟨?_, ?_⟩⟩
        · rw [htot, httot]
          show (t.free : Multiset ℕ) + ((mem :: t.dropped : List ℕ) : Multiset ℕ) + e.pages = _
          rw [← Multiset.cons_coe, ← Multiset.singleton_add, Kmem.total]
          abel
        · rw [hdata q hqe]
          show t.data q = _
          rw [htdata, update_of_ne (ne_of_mem_of_not_mem hmem hq).symm]
        · rw [htfree] at hnil
          rw [hfree, hnil]
          exact copyLeaks_one ((hfresh.missing_iff he (by omega)).mp hnone)
        · rw [hdrop]
          show _ < (mem :: t.dropped).length
          rw [htdrop, length_cons]
          omega
      · dsimp only
        rw [if_pos rfl]
        have hsub : ∀ q, q ∈ s1.free → q ∈ rest := fun q hq => by
          have hsuf := hwalk.free
          rw [htfree] at hsuf
          exact hsuf.subset hq
        have habs1 : (e1.pte v).p = false := by
          rw [hwalk.pte]
          exact habs
        have hpages : (e1.setPte v ⟨mem, true, (d.pte v).w, (d.pte v).u⟩).pages + s1.total =
            e.pages + s.total := by
          rw [pages_map (by omega) habs1, httot, ← add_assoc, ← hwalk.pages]
          abel
        have hdata1 : ∀ q, q ∉ s.free → s1.data q = s.data q := by
          intro q hq
          rw [hwalk.data, htdata, update_of_ne (ne_of_mem_of_not_mem hmem hq).symm]
        obtain ⟨hfresh1, hleaks⟩ := hwalk.copyLeaks (k := k) hfresh he (by omega)
        have hlen : s.free.length = t.free.length + 1 := by rw [htfree, hfree, length_cons]
        refine ih (he.map hwalk rfl) hfresh1 (hkern.walked (by omega) hwalk _) (hown.of_eq hpages)
          (by omega) (fun x hx hxp hxf => ?_) (fun s' h => ?_) fun e' s' h => ?_
        · refine hsrc x hx hxp ?_
          rw [hfree]
          exact mem_cons_of_mem _ (hsub _ hxf)
        · refine hfail s' ⟨?_, fun q hq hqe => ?_, ?_⟩
          · rw [h.total, hpages]
          · have hq' : q ∉ s1.free := fun hq' => hq (by
              rw [hfree]
              exact mem_cons_of_mem _ (hsub q hq'))
            rw [h.data q hq' ?_, hdata1 q hq]
            intro hmem'
            -- a page that was forgotten before stays so
            have hall : q ∈ e.pages + s.total := by
              rw [← hpages]
              exact Multiset.mem_add.mpr (.inl hmem')
            have hnot := (hown.of_eq hpages).not_total hmem'
            rcases Multiset.mem_add.mp hall with hqe' | hqt
            · exact hqe hqe'
            · rcases Multiset.mem_add.mp hqt with hqf | hqd
              · exact hq (Multiset.mem_coe.mp hqf)
              · refine hnot (Multiset.mem_add.mpr (.inr ?_))
                rw [hwalk.dropped, htdrop]
                exact hqd
          · have hdrop := h.dropped
            unfold Forgets at hdrop ⊢
            rw [hwalk.dropped, htdrop, ← hleaks, ← hlen] at hdrop
            exact hdrop
        · refine hok e' s' ⟨?_, h.kern, h.page.trans hwalk.page, fun x hx => ?_, fun x hx hxk => ?_,
            ?_, fun q hq => ?_, ?_, ?_⟩
          · rw [show v + (k + 1) = v + 1 + k by omega]
            exact h.sized
          · rw [h.old x (by omega), setPte_of_ne (by omega), hwalk.pte]
          · by_cases hxv : x = v
            · have hold := h.old v (by omega)
              rw [setPte_self] at hold
              rw [hxv, hold]
              refine ⟨hp, rfl, rfl, rfl, ?_⟩
              show s'.data mem = _
              rw [h.data mem fun hm => hnodup.1 (hsub mem hm), hwalk.data, htdata, update_self]
            · obtain ⟨hxp, h1, h2, h3, h4⟩ := h.pte x (by omega) (by omega)
              refine ⟨hxp, h1, h2, h3, ?_⟩
              rw [h4, hdata1 _ (hsrc x (by omega) hxp)]
          · rw [h.pages, hpages]
          · rw [h.data q fun hq' => hq (by
              rw [hfree]
              exact mem_cons_of_mem _ (hsub q hq')), hdata1 q hq]
          · rw [h.dropped, hwalk.dropped, htdrop]
          · have hsuf := h.free.trans hwalk.free
            rw [htfree] at hsuf
            rw [hfree]
            exact hsuf.trans (suffix_cons mem rest)

/-- `copyuvm` gives up with pages it forgets: in `setupkvm`, or with a page table missing. -/
def CopyuvmLeaks (sz n : ℕ) : Prop :=
  (0 < n ∧ n < KPAGES) ∨ ∃ j, 1024 * j < npages sz ∧ n = KPAGES + 1025 * j + 1

theorem copyuvmLeaks_iff {sz n : ℕ} : CopyuvmLeaks sz (n + KPAGES) ↔ CopyLeaks 0 (npages sz) n := by
  unfold CopyuvmLeaks CopyLeaks
  constructor
  · rintro (⟨-, hlt⟩ | ⟨j, hj, hn⟩)
    · omega
    · exact ⟨j, by omega, by omega, by omega⟩
  · rintro ⟨j, -, hj, hn⟩
    exact .inr ⟨j, by omega, by omega⟩

theorem wp_copyuvm {sz : ℕ} (hnodup : s.total.Nodup)
    (hram : ∀ p ∈ s.total, L.Ram p) (hsz : sz ≤ KERNBASE)
    (hsrc : ∀ x < UPAGES, (d.pte x).p = true → (d.pte x).addr ∉ s.free)
    (hE : ∀ m s', E m s')
    (hfail : ∀ s', s'.total = s.total → (∀ p, p ∉ s.free → s'.data p = s.data p) →
      Forgets (CopyuvmLeaks sz s.free.length) s s' → Q none s')
    (hok : ∀ e s', Sized e (npages sz) → Kern L e → e.pages + s'.total = s.total →
      (∀ x < npages sz, (d.pte x).p = true ∧ (e.pte x).p = true ∧ (e.pte x).w = (d.pte x).w ∧
        (e.pte x).u = (d.pte x).u ∧ s'.data (e.pte x).addr = s.data (d.pte x).addr) →
      (∀ p, p ∉ s.free → s'.data p = s.data p) → s'.dropped = s.dropped → Q (some e) s') :
    wp (copyuvm L d sz) Q E s := by
  rw [copyuvm]
  refine wp_seq (wp_setupkvm (fun hnil => hfail s rfl (fun _ _ => rfl) (.inl ⟨?_, rfl⟩))
    (fun s' htot hdata hdrop _ hpos hlt => hfail s' htot (fun p _ => congrFun hdata p)
      (.inr ⟨.inl ⟨hpos, hlt⟩, hdrop⟩)) fun e s1 hset => ?_)
  · rw [hnil]
    rintro (⟨hpos, -⟩ | ⟨j, -, hn⟩)
    · exact absurd hpos (lt_irrefl 0)
    · cases hn
  have hown : Owned L e s1 := by
    constructor
    · rw [hset.pages]
      exact hnodup
    · rw [hset.pages]
      exact hram
  have hle := npages_le hsz
  dsimp only
  refine wp_copyLoop (k := npages sz) hset.sized (fun i hi hne => absurd (hset.user i hi) hne)
    hset.kern hown (by omega) (fun x hx hxp hxf => ?_) hE (fun s' h => ?_) fun e' s' h => ?_
  · exact hsrc x hx hxp (hset.free.subset hxf)
  · refine hfail s' (h.total.trans hset.pages) (fun p hp => ?_) ?_
    · by_cases hpe : p ∈ e.pages
      · -- the page came from the free list
        have hpt : p ∈ s.total := by
          rw [← hset.pages]
          exact Multiset.mem_add.mpr (.inl hpe)
        rcases Multiset.mem_add.mp hpt with hpf | hpd
        · exact absurd (Multiset.mem_coe.mp hpf) hp
        · refine absurd (Multiset.mem_add.mpr (.inr ?_)) (hown.not_total hpe)
          rw [hset.dropped]
          exact hpd
      · rw [h.data p (fun hpf => hp (hset.free.subset hpf)) hpe, hset.data]
    · have hdrop := h.dropped
      unfold Forgets at hdrop ⊢
      rw [hset.dropped, ← copyuvmLeaks_iff, ← hset.count] at hdrop
      exact hdrop
  · rw [Nat.zero_add] at h
    refine hok e' s' h.sized h.kern (h.pages.trans hset.pages) (fun x hx => ?_) (fun p hp => ?_)
      (h.dropped.trans hset.dropped)
    · have hx' := h.pte x (Nat.zero_le x) hx
      rw [hset.data] at hx'
      exact hx'
    · rw [h.data p (fun hpf => hp (hset.free.subset hpf)), hset.data]

/-! ## Parent and child -/

def readByte (d : Pgdir) (s : Kmem) (a : ℕ) : UInt8 :=
  s.data (d.pte (a / PGSIZE)).addr (a % PGSIZE)

def writeByte (d : Pgdir) (s : Kmem) (x : ℕ × UInt8) : Kmem :=
  let pte := d.pte (x.1 / PGSIZE)
  if x.1 < KERNBASE ∧ pte.p ∧ pte.w ∧ pte.u then
    { s with data := update s.data pte.addr (update (s.data pte.addr) (x.1 % PGSIZE) x.2) }
  else s

def writes (d : Pgdir) (s : Kmem) (l : List (ℕ × UInt8)) : Kmem := l.foldl (writeByte d) s

theorem writes_data (l : List (ℕ × UInt8)) {q : ℕ}
    (hq : ∀ v < UPAGES, (d.pte v).p = true → (d.pte v).addr ≠ q) :
    (writes d s l).data q = s.data q := by
  induction l generalizing s with
  | nil => rfl
  | cons x l ih =>
    rw [writes, foldl_cons, ← writes, ih, writeByte]
    split
    · rename_i hx
      have hpage : x.1 / PGSIZE < UPAGES := Nat.div_lt_of_lt_mul hx.1
      exact update_of_ne (hq _ hpage hx.2.1).symm _ _
    · rfl

/-- The child `e` has the bytes and flags of the parent `d` and nothing above
    its size; none of its pages is one of the parent's, and whatever one of
    them stores, the other reads the same as before. -/
structure Isolated (d e : Pgdir) (sz : ℕ) (s s' : Kmem) : Prop where
  bytes : ∀ a < sz, readByte e s' a = readByte d s a
  same : ∀ a < sz, readByte d s' a = readByte d s a
  flags : ∀ x < npages sz, (e.pte x).p = (d.pte x).p ∧ (e.pte x).w = (d.pte x).w ∧
    (e.pte x).u = (d.pte x).u
  above : ∀ x, npages sz ≤ x → x < UPAGES → (e.pte x).p = false
  apart : ∀ x < UPAGES, (e.pte x).p = true → (e.pte x).addr ∉ d.pages
  child : ∀ l, ∀ a < sz, readByte e (writes d s' l) a = readByte e s' a
  parent : ∀ l, ∀ a < sz, readByte d (writes e s' l) a = readByte d s' a

/-- **fork copies memory and isolates it**, for every process that has exactly
    the pages below its size. -/
theorem fork_isolates {p : Space} (h : Exact p) (hown : Owned L p.pgdir s) (e : Pgdir) (s' : Kmem)
    (hrun : copyuvm L p.pgdir p.sz s = .ok (some e) s') : Isolated p.pgdir e p.sz s s' := by
  have hU := npages_le h.sz.le
  have hpage : ∀ {a}, a < p.sz → a / PGSIZE < npages p.sz := fun {a} ha =>
    lt_npages.mpr ((Nat.div_mul_le_self a PGSIZE).trans_lt ha)
  have hmine : ∀ x < UPAGES, (p.pgdir.pte x).p = true → (p.pgdir.pte x).addr ∈ p.pgdir.pages :=
    fun x hx hp => mem_pages.mpr (.inr (.inr (mem_upages hp hx)))
  have hfree : ∀ q ∈ p.pgdir.pages, q ∉ s.free := fun q hq hmem =>
    hown.not_total hq (Multiset.mem_add.mpr (.inl (Multiset.mem_coe.mpr hmem)))
  have hwp : wp (copyuvm L p.pgdir p.sz) (fun r t => ∀ e, r = some e → Isolated p.pgdir e p.sz s t)
      (fun _ _ => True) s := by
    refine wp_copyuvm (Multiset.nodup_add.mp hown.nodup).2.1 (fun q hq =>
      hown.ram q (Multiset.mem_add.mpr (.inr hq))) h.sz.le (fun x hx hp => hfree _ (hmine x hx hp))
      (fun _ _ => trivial) (fun _ _ _ _ _ hr => by cases hr) ?_
    rintro e t hsized - hpages hpte hdata - _ ⟨⟩
    -- the child's pages were free
    have hapart : ∀ x < UPAGES, (e.pte x).p = true → (e.pte x).addr ∉ p.pgdir.pages := by
      intro x hx hp hmem
      refine hown.not_total hmem ?_
      rw [← hpages]
      exact Multiset.mem_add.mpr (.inl (mem_pages.mpr (.inr (.inr (mem_upages hp hx)))))
    refine ⟨fun a ha => ?_, fun a ha => ?_, fun x hx => ?_, hsized.above, hapart, fun l a ha => ?_,
      fun l a ha => ?_⟩
    · exact congrFun (hpte _ (hpage ha)).2.2.2.2 _
    · have hlt := hpage ha
      have hp := h.mapped _ hlt
      exact congrFun (hdata _ (hfree _ (hmine _ (by omega) hp))) _
    · obtain ⟨hd, he, hw, hu, -⟩ := hpte x hx
      exact ⟨he.trans hd.symm, hw, hu⟩
    · have hlt := hpage ha
      have hp := (hpte _ hlt).2.1
      refine congrFun (writes_data l fun x hx hxp heq => ?_) _
      exact hapart _ (by omega) hp (heq ▸ hmine x hx hxp)
    · have hlt := hpage ha
      refine congrFun (writes_data l fun x hx hxp heq => ?_) _
      exact hapart x hx hxp (heq ▸ hmine _ (by omega) (h.mapped _ hlt))
  exact (wp_of_ok hrun).mp hwp e rfl

end Xv6.Vm
