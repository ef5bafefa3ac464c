/-
  Xv6.Vm.Calls

  What fork, exec and sbrk do with pages when they fail.

  A failing call should leave every page that was free on the free list, or in
  a page table of the caller.  Two places forget pages instead: `setupkvm` when
  a page table of the kernel part cannot be allocated, and `copyuvm` when the
  page table for a copied page cannot.
-/

import Xv6.Vm.Image

namespace Xv6.Vm

open List Wp Multiset

section

variable (L : Layout)

def fork (p : Space) : M (Option Space) := do
  match ← kalloc with
  | none => pure none
  | some k => do
      match ← copyuvm L p.pgdir p.sz with
      | none => do
          kfree L k
          pure none
      | some d => pure (some ⟨d, p.sz, k⟩)

end

variable {L : Layout} {d d' : Pgdir} {s s' : Kmem} {E : String → Kmem → Prop} {f : ExecFile}
  {p p' : Space}

/-- With this many free pages `fork` gives up with pages it forgets. -/
def ForkLeaks (p : Space) (n : ℕ) : Prop := 0 < n ∧ CopyuvmLeaks p.sz (n - 1)

structure GaveUp (leaks : Prop) (s s' : Kmem) : Prop where
  total : s'.total = s.total
  data : ∀ q, q ∉ s.total → s'.data q = s.data q
  dropped : Forgets leaks s s'

/-- The copy of a process. -/
structure Forked (L : Layout) (p : Space) (s : Kmem) (p' : Space) (s' : Kmem) : Prop where
  sz : p'.sz = p.sz
  sized : Sized p'.pgdir (npages p'.sz)
  kern : Kern L p'.pgdir
  pages : p'.pgdir.pages + {p'.kstack} + s'.total = s.total
  copy : ∀ x < npages p.sz, (p.pgdir.pte x).p = true ∧ (p'.pgdir.pte x).p = true ∧
    s'.data (p'.pgdir.pte x).addr = s.data (p.pgdir.pte x).addr
  data : ∀ q, q ∉ s.total → s'.data q = s.data q
  dropped : s'.dropped = s.dropped

theorem wp_fork {Q : Option Space → Kmem → Prop} (hnodup : s.total.Nodup)
    (hram : ∀ q ∈ s.total, L.Ram q) (hsz : p.sz ≤ KERNBASE)
    (hsrc : ∀ x < UPAGES, (p.pgdir.pte x).p = true → (p.pgdir.pte x).addr ∉ s.free)
    (hE : ∀ m s', E m s') (hfail : ∀ s', GaveUp (ForkLeaks p s.free.length) s s' → Q none s')
    (hok : ∀ p' s', Forked L p s p' s' → Q (some p') s') : wp (fork L p) Q E s := by
  unfold fork
  refine wp_seq (wp_kalloc (fun hnil => ?_) fun k rest hfree => ?_)
  · refine hfail s ⟨rfl, fun _ _ => rfl, .inl ⟨fun h => ?_, rfl⟩⟩
    rw [hnil] at h
    exact absurd h.1 (lt_irrefl 0)
  have hleaks : ForkLeaks p s.free.length ↔ CopyuvmLeaks p.sz rest.length := by
    rw [hfree, length_cons, ForkLeaks, Nat.add_sub_cancel]
    exact and_iff_right (Nat.succ_pos _)
  have htotal : s.total = ({ s with free := rest } : Kmem).total + {k} := by
    unfold Kmem.total
    rw [hfree]
    show (↑(k :: rest) : Multiset ℕ) + _ = (rest : Multiset ℕ) + _ + {k}
    rw [← cons_coe, ← singleton_add]
    abel
  have hk : k ∈ s.total := mem_total_of_free (by rw [hfree]; exact mem_cons_self)
  have hrest : ∀ q ∈ ({ s with free := rest } : Kmem).total, q ∈ s.total := by
    intro q hq
    rw [htotal]
    exact mem_add.mpr (.inl hq)
  have hnodup1 : ({ s with free := rest } : Kmem).total.Nodup := by
    rw [htotal] at hnodup
    exact (nodup_add.mp hnodup).1
  have hout : ∀ q, q ∉ s.total → q ∉ rest := by
    intro q hq hmem
    exact hq (mem_total_of_free (by rw [hfree]; exact mem_cons_of_mem _ hmem))
  refine wp_seq (wp_copyuvm hnodup1 (fun q hq => hram q (hrest q hq)) hsz
    (fun x hx hp hmem => hsrc x hx hp (by rw [hfree]; exact mem_cons_of_mem _ hmem)) hE
    (fun s1 ht hd hdrop => ?_) fun e s1 hsized hkern hpages hcopy hd hdrop => ?_)
  · refine wp_seq (wp_kfree (hram k hk) ?_)
    refine hfail _ ⟨?_, fun q hq => ?_, ?_⟩
    · rw [total_freed, ht, htotal]
    · rw [freed_data (ne_of_mem_of_not_mem hk hq).symm]
      exact hd q (hout q hq)
    · rw [hleaks]
      exact hdrop
  · refine hok ⟨e, p.sz, k⟩ s1 ⟨rfl, hsized, hkern, ?_, fun x hx => ?_, fun q hq => hd q (hout q hq),
      hdrop⟩
    · rw [htotal, ← hpages]
      abel
    · obtain ⟨hpx, hex, -, -, hdx⟩ := hcopy x hx
      exact ⟨hpx, hex, hdx⟩

/-! ## sbrk -/

structure Regrown (L : Layout) (p : Space) (s : Kmem) (p' : Space) (s' : Kmem) : Prop where
  kstack : p'.kstack = p.kstack
  lt : p'.sz < KERNBASE
  sized : Sized p'.pgdir (npages p'.sz)
  kern : Kern L p'.pgdir
  page : p'.pgdir.page = p.pgdir.page
  pages : p'.pgdir.pages + s'.total = p.pgdir.pages + s.total
  dropped : s'.dropped = s.dropped

theorem Kern.rolled {v0 v w : ℕ} (h : Kern L d) (hw : w ≤ UPAGES) (hr : Rolled d v0 v w s d' s') :
    Kern L d' := by
  refine h.congr (fun x hx => ?_) fun i hi => hr.high i hi
  rw [hr.pte, if_neg (by omega)]

theorem Kern.cleared {v w : ℕ} (h : Kern L d) (hw : w ≤ UPAGES) (hc : Cleared d v w s d' s') :
    Kern L d' := by
  refine h.congr (fun x hx => ?_) fun i _ => by rw [hc.tab]
  rw [hc.pte, if_neg (by omega)]

theorem Sized.rolled {n w : ℕ} (h : Sized d n) (hw : w ≤ UPAGES) (hr : Rolled d n n w s d' s') :
    Sized d' n where
  wf := hr.wf
  contig := hr.contig
  low := by
    intro x hx hnone
    obtain ⟨q, hq⟩ := Option.ne_none_iff_exists'.mp (h.low x hx)
    rw [hr.keep _ q hq] at hnone
    cases hnone
  above := by
    intro x hlo hhi
    rw [hr.pte_eq h hw]
    exact h.above x hlo hhi

theorem Sized.cleared {n m v : ℕ} (h : Sized d n) (hm : m ≤ n) (hvm : v ≤ m)
    (hc : Cleared d v n s d' s') : Sized d' m where
  wf := hc.wf
  contig := fun i j hij hj htab => by
    rw [hc.tab] at htab ⊢
    exact h.contig i j hij hj htab
  low := fun x hx => by
    rw [hc.tab]
    exact h.low x (by omega)
  above := by
    intro x hlo hhi
    rw [hc.pte]
    split
    · rfl
    · exact h.above x (by omega) hhi

theorem Cleared.mem_upages {v w q : ℕ} (h : Cleared d v w s d' s') (hq : q ∈ d'.upages) :
    q ∈ d.upages := by
  obtain ⟨x, hx, hp, rfl⟩ := Pgdir.mem_upages_iff.mp hq
  rw [h.pte] at hp ⊢
  split at hp
  · cases hp
  · rename_i hout
    rw [if_neg hout]
    exact Pgdir.mem_upages hp hx

theorem wp_growproc {Q : Space × ℤ → Kmem → Prop} {n : ℤ} (hsz : p.sz < KERNBASE)
    (hsized : Sized p.pgdir (npages p.sz)) (hkern : Kern L p.pgdir) (hown : Owned L p.pgdir s)
    (hQ : ∀ p' r s', Regrown L p s p' s' →
      (r = -1 → ∀ q ∈ p'.pgdir.upages, q ∈ p.pgdir.upages) → Q (p', r) s') :
    wp (growproc L p n) Q E s := by
  have hsame : Regrown L p s p s := ⟨rfl, hsz, hsized, hkern, rfl, rfl, rfl⟩
  have hU := npages_le hsz.le
  unfold growproc
  dsimp only
  generalize ((p.sz + n) % 2 ^ 32).toNat = newsz
  refine wp_ite (fun _ => ?_) fun _ => wp_ite (fun _ => ?_) fun _ => ?_
  · refine wp_seq (wp_allocuvm hsized hown.free_nodup (fun q hq => hown.upages_ram hq)
      (fun q hq => hown.free_ram hq) (fun _ => ?_) (fun hless => ?_) (fun hle hnew d' s' hr _ => ?_)
      fun hle hnew d' s' hg => ?_)
    · dsimp only
      rw [if_pos rfl]
      exact hQ p (-1) s hsame fun _ q hq => hq
    · dsimp only
      rw [if_neg (by omega)]
      exact hQ p 0 s hsame fun h => by cases h
    · have hw := npages_le hnew.le
      have hup : d'.upages = p.pgdir.upages := by
        unfold Pgdir.upages
        rw [hr.pte_eq hsized hw]
      dsimp only
      rw [if_pos rfl]
      refine hQ _ (-1) s' ⟨rfl, hsz, hsized.rolled hw hr, hkern.rolled hw hr, hr.page, hr.pages,
        hr.dropped⟩ fun _ q hq => ?_
      rw [← hup]
      exact hq
    · have hw := npages_le hnew.le
      have hsized' := hg.sized
      rw [max_eq_right (npages_mono hle)] at hsized'
      dsimp only
      refine wp_ite (fun hzero => ?_) fun _ => ?_
      · -- growing to nothing: there was nothing
        have hold : p.sz = 0 := by omega
        have hnone : npages newsz = npages p.sz := by rw [hzero, hold]
        rw [hnone] at hsized'
        refine hQ _ (-1) s' ⟨rfl, hsz, hsized', hkern.grown hw hg, hg.page, hg.pages, hg.dropped⟩
          fun _ q hq => ?_
        obtain ⟨x, hx, hp, rfl⟩ := Pgdir.mem_upages_iff.mp hq
        rw [hg.pte x (by omega)] at hp ⊢
        exact Pgdir.mem_upages hp hx
      · exact hQ _ 0 s' ⟨rfl, hnew, hsized', hkern.grown hw hg, hg.page, hg.pages, hg.dropped⟩
          fun h => by cases h
  · refine wp_seq (wp_deallocuvm hsized.wf hsized.contig hsz.le
      (fun q hq => hown.upages_ram hq) (fun hle => ?_) fun hlt d' s' hc => ?_)
    · dsimp only
      refine wp_ite (fun _ => hQ p (-1) s hsame fun _ q hq => hq) fun _ => ?_
      exact hQ p 0 s hsame fun h => by cases h
    · have hmono := npages_mono hlt.le
      dsimp only
      refine wp_ite (fun _ => ?_) fun _ => ?_
      · exact hQ _ (-1) s' ⟨rfl, hsz, hsized.cleared le_rfl hmono hc, hkern.cleared hU hc, hc.page,
          hc.pages, hc.dropped⟩ fun _ q hq => hc.mem_upages hq
      · exact hQ _ 0 s' ⟨rfl, hlt.trans hsz, hsized.cleared hmono le_rfl hc, hkern.cleared hU hc, hc.page,
          hc.pages, hc.dropped⟩ fun h => by cases h
  · exact hQ p 0 s hsame fun h => by cases h

/-! ## Leaks -/

structure Ready (L : Layout) (p : Space) (s : Kmem) : Prop where
  lt : p.sz < KERNBASE
  sized : Sized p.pgdir (npages p.sz)
  kern : Kern L p.pgdir
  own : Owned L p.pgdir s

theorem Ready.total_nodup (h : Ready L p s) : s.total.Nodup :=
  (nodup_add.mp h.own.nodup).2.1

theorem Ready.total_ram (h : Ready L p s) : ∀ q ∈ s.total, L.Ram q :=
  fun q hq => h.own.ram q (mem_add.mpr (.inr hq))

theorem Ready.user_not_free (h : Ready L p s) {x : ℕ} (hx : x < UPAGES)
    (hp : (p.pgdir.pte x).p = true) : (p.pgdir.pte x).addr ∉ s.free :=
  h.own.not_free (Pgdir.mem_pages.mpr (.inr (.inr (Pgdir.mem_upages hp hx))))

@[irreducible] def onePageProcess (L : Layout) : M Pgdir := do
  match ← setupkvm L with
  | none => fail "no memory"
  | some d => do
      let (d', _) ← allocuvm L d 0 4096
      pure d'

theorem wp_onePageProcess {Q : Pgdir → Kmem → Prop} (hnodup : s.total.Nodup)
    (hram : ∀ q ∈ s.total, L.Ram q) (hfree : 4096 ≤ s.free.length)
    (hQ : ∀ d s', Loaded L d 4096 s' (fun _ => 0) → d.pages + s'.total = s.total →
      3000 ≤ s'.free.length → Q d s') : wp (onePageProcess L) Q E s := by
  unfold onePageProcess
  refine wp_seq (wp_setupkvm (fun hnil => ?_) (fun s' _ _ _ _ _ hlt => ?_) fun d s1 hset => ?_)
  · exfalso
    rw [hnil] at hfree
    exact absurd hfree (by decide)
  · exfalso
    unfold KPAGES at hlt
    omega
  · have hload := loaded_setUp hnodup hram hset
    have hlen := free_length_le hset.sized hset.pages hset.dropped
    have hold : Sized d (npages 0) := hset.sized
    refine wp_seq (wp_allocuvm hold hload.own.free_nodup (fun q hq => hload.own.upages_ram hq)
      (fun q hq => hload.own.free_ram hq) (fun hbig => ?_) (fun hless => ?_)
      (fun _ _ d1 s2 _ hno => ?_) fun hle hnew d1 s2 hg => ?_)
    · exact absurd hbig (by decide)
    · exact absurd hless (by decide)
    · exact absurd (room_of_length (n := 1) (by omega)) hno
    · have hload1 := hload.grown hle hnew hg
      have hpages := hg.pages.trans hset.pages
      have hlen1 := free_length_le hload1.sized hpages (hg.dropped.trans hset.dropped)
      have hone : npages 4096 = 1 := by decide
      rw [hone] at hlen1
      exact hQ d1 s2 hload1 hpages (by omega)

theorem Ready.mono (h : Ready L p s) (hle : s'.total ≤ s.total) : Ready L p s' := by
  have hsub : p.pgdir.pages + s'.total ≤ p.pgdir.pages + s.total := add_le_add_right hle _
  exact { h with own := ⟨nodup_of_le hsub h.own.nodup,
    fun q hq => h.own.ram q (mem_of_le hsub hq)⟩ }

theorem exists_onePage : ∃ p s, Ready smallKernel p s ∧ 3000 ≤ s.free.length ∧ Exact p ∧
    p.sz = 4096 := by
  have hwp : wp (onePageProcess smallKernel) (fun d s' => Ready smallKernel ⟨d, 4096, 0⟩ s' ∧
      3000 ≤ s'.free.length ∧ Exact ⟨d, 4096, 0⟩) (fun _ _ => False) manyFree := by
    refine wp_onePageProcess manyFree_nodup manyFree_ram ?_ fun d s' hl _ hlen => ?_
    · show 4096 ≤ (List.range' 300 4096).length
      rw [length_range']
    · exact ⟨⟨hl.lt, hl.sized, hl.kern, hl.own⟩, hlen, hl.lt, hl.sized,
        fun v hv => (hl.flags v hv).1⟩
  obtain ⟨d, s', -, hd⟩ := exists_ok hwp
  exact ⟨⟨d, 4096, 0⟩, s', hd.1, hd.2.1, hd.2.2, rfl⟩

theorem fork_isolates_onePage : ∃ p s e s', p.sz = 4096 ∧ Exact p ∧ Owned smallKernel p.pgdir s ∧
    copyuvm smallKernel p.pgdir p.sz s = .ok (some e) s' ∧ Isolated p.pgdir e p.sz s s' := by
  obtain ⟨p, s, h, hlen, hexact, hsz⟩ := exists_onePage
  have hsized := h.sized
  have hp := hexact.mapped 0
  rw [hsz] at hsized hp
  have hwp : wp (copyuvm smallKernel p.pgdir p.sz) (fun r _ => r.isSome = true)
      (fun _ _ => False) s := by
    rw [copyuvm, hsz]
    refine wp_seq (wp_setupkvm (fun hnil => ?_) (fun s' _ _ _ _ _ hlt => ?_) fun e s1 hset => ?_)
    · rw [hnil] at hlen
      exact absurd hlen (by decide)
    · exact absurd (hlen.trans_lt hlt) (by decide)
    · have hmany := hlen.trans (free_length_le hset.sized hset.pages hset.dropped)
      show wp (copyLoop smallKernel p.pgdir 1 0 e) _ _ s1
      rw [copyLoop]
      refine wp_seq (wp_walk_noalloc (fun hno => absurd hno (hsized.low 0 (by decide))) fun _ => ?_)
      refine wp_ite (fun hno => ?_) fun _ => ?_
      · rw [hp (by decide)] at hno
        cases hno
      refine wp_seq (wp_kalloc (fun hnil => ?_) fun mem rest hfree => wp_write (wp_seq ?_))
      · rw [hnil] at hmany
        exact absurd hmany (by decide)
      refine wp_mappages_page hset.sized.wf (by decide) (hset.sized.above 0 le_rfl (by decide))
        (fun hnil _ => ?_) fun _ _ _ => rfl
      rw [hfree, show rest = [] from hnil, length_singleton] at hmany
      exact absurd hmany (by decide)
  obtain ⟨r, s', hrun, hr⟩ := exists_ok hwp
  obtain ⟨e, rfl⟩ := Option.isSome_iff_exists.mp hr
  exact ⟨p, s, e, s', hsz, hexact, h.own, hrun, fork_isolates hexact h.own e s' hrun⟩

end Xv6.Vm
