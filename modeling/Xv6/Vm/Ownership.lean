/-
  Xv6.Vm.Ownership

  Every page is in at most one place, and every page table keeps the kernel's
  part.
-/

import Xv6.Vm.Machine

namespace Xv6.MemSys

open Function Finset Wp List Multiset

open Vm

variable {ι : Type} [Fintype ι] {L : Layout} {T : Multiset ℕ} {m m' : MemSys ι}
  {s s' : Kmem} {i j : ι}

def used (m : MemSys ι) : Multiset ℕ := ∑ i, slotPages (m.procs i)

def pipePages (m : MemSys ι) : Multiset ℕ := ((m.pipes.map PipePage.page : List ℕ) : Multiset ℕ)

/-- What holds of every process's memory. -/
structure Fit (L : Layout) (x : MemProc) : Prop where
  lt : x.mem.sz < KERNBASE
  sized : Sized x.mem.pgdir (npages x.mem.sz)
  kern : Kern L x.mem.pgdir

/-- All pages are accounted for. -/
structure Inv (L : Layout) (T : Multiset ℕ) (m : MemSys ι) : Prop where
  pages : m.kmem.total + m.used + m.pipePages = T
  fit : ∀ i x, m.procs i = some x → Fit L x

theorem places_add_dropped (m : MemSys ι) :
    m.places + (m.kmem.dropped : Multiset ℕ) = m.kmem.total + m.used + m.pipePages := by
  unfold places Kmem.total used pipePages
  abel

theorem slotPages_le_used (m : MemSys ι) (i : ι) : slotPages (m.procs i) ≤ m.used :=
  single_le_sum (f := fun i => slotPages (m.procs i)) (fun _ _ => zero_le _)
    (mem_univ i)

theorem Inv.ready (h : Inv L T m) (hT : T.Nodup) (hR : ∀ q ∈ T, L.Ram q) {x : MemProc}
    (hi : m.procs i = some x) : Ready L x.mem m.kmem := by
  have hslot := slotPages_le_used m i
  rw [hi] at hslot
  have hle : x.mem.pgdir.pages + m.kmem.total ≤ T := by
    have hpages : x.mem.pgdir.pages ≤ m.used := (le_add_right _ _).trans hslot
    rw [← h.pages, add_comm x.mem.pgdir.pages]
    exact (add_le_add_right hpages _).trans (le_add_right _ _)
  obtain ⟨hlt, hsized, hkern⟩ := h.fit i x hi
  exact ⟨hlt, hsized, hkern, nodup_of_le hle hT, fun q hq => hR q (mem_of_le hle hq)⟩

theorem Inv.ram_kstack (h : Inv L T m) (hR : ∀ q ∈ T, L.Ram q) {x : MemProc}
    (hi : m.procs i = some x) : L.Ram x.mem.kstack := by
  have hslot := slotPages_le_used m i
  rw [hi] at hslot
  refine hR _ ?_
  rw [← h.pages]
  refine Multiset.mem_add.mpr (.inl (Multiset.mem_add.mpr (.inr (mem_of_le hslot ?_))))
  exact Multiset.mem_add.mpr (.inr (Multiset.mem_singleton_self _))

variable [DecidableEq ι]

theorem used_update (m : MemSys ι) (i : ι) (y : Option MemProc) (s : Kmem) :
    ({ m with procs := update m.procs i y, kmem := s } : MemSys ι).used +
      slotPages (m.procs i) = m.used + slotPages y := by
  have hcomp : (fun j => slotPages (update m.procs i y j)) =
      update (fun j => slotPages (m.procs j)) i (slotPages y) := by
    funext j
    by_cases hj : j = i
    · rw [hj, update_self, update_self]
    · rw [update_of_ne hj, update_of_ne hj]
  unfold used
  show ∑ j, slotPages (update m.procs i y j) + _ = _
  rw [hcomp]
  exact sum_update (mem_univ i) (slotPages y)

theorem mapM_some {α β : Type} {g : α → Option β} {l : List α} {l' : List β}
    (h : l.mapM g = some l') : l'.length = l.length ∧ ∀ y ∈ l', ∃ x ∈ l, g x = some y := by
  -- on the list
  induction l generalizing l' with
  | nil =>
    rw [mapM_nil] at h
    cases h
    exact ⟨rfl, fun y hy => by cases hy⟩
  | cons x l ih =>
    rw [mapM_cons] at h
    cases hx : g x with
    | none =>
      rw [hx] at h
      cases h
    | some y =>
      cases hl : l.mapM g with
      | none =>
        rw [hx, hl] at h
        cases h
      | some ys =>
        rw [hx, hl] at h
        cases h
        obtain ⟨hlen, hmem⟩ := ih hl
        refine ⟨by rw [length_cons, length_cons, hlen], fun z hz => ?_⟩
        rcases mem_cons.mp hz with rfl | hz
        · exact ⟨x, mem_cons_self, hx⟩
        · obtain ⟨w, hw, hgw⟩ := hmem z hz
          exact ⟨w, mem_cons_of_mem _ hw, hgw⟩

theorem fetchstr_len {p : Space} {a : ℕ} {b : Arg} (h : fetchstr p s a = some b) :
    b.len < p.sz := by
  unfold fetchstr at h
  obtain ⟨k, hk, rfl⟩ := Option.map_eq_some_iff.mp h
  have hmem := mem_of_find?_eq_some hk
  rw [List.mem_range] at hmem
  show k < p.sz
  omega

theorem exists_argv {p : Space} {uargv : List ℕ} {args : List Arg} (hlt : p.sz < KERNBASE)
    (h : fetchArgs p s uargv = some args) : ∃ argv : Argv, argv.args = args := by
  unfold fetchArgs at h
  split at h
  · rename_i hmax
    obtain ⟨hlen, hmem⟩ := mapM_some h
    refine ⟨⟨args, by rw [hlen]; exact hmax, fun b hb => ?_⟩, rfl⟩
    obtain ⟨a, -, ha⟩ := hmem b hb
    exact (fetchstr_len ha).trans hlt
  · cases h

/-! ## How calls move pages -/

theorem Inv.set (h : Inv L T m) {y : Option MemProc}
    (hpages : slotPages y + s'.total = slotPages (m.procs i) + m.kmem.total)
    (hfit : ∀ x, y = some x → Fit L x) :
    Inv L T { m with procs := update m.procs i y, kmem := s' } := by
  refine ⟨?_, fun j x hj => ?_⟩
  · have hused := used_update m i y s'
    have hsum : s'.total + ({ m with procs := update m.procs i y, kmem := s' } :
        MemSys ι).used = m.kmem.total + m.used := by
      refine add_right_cancel (b := slotPages (m.procs i)) ?_
      rw [add_assoc, hused, ← add_assoc, add_right_comm, add_comm s'.total, hpages]
      abel
    rw [← h.pages, ← hsum]
    rfl
  · change update m.procs i y j = some x at hj
    by_cases hji : j = i
    · rw [hji, update_self] at hj
      exact hfit x hj
    · rw [update_of_ne hji] at hj
      exact h.fit j x hj

omit [DecidableEq ι] in
theorem Inv.kmem (h : Inv L T m) (htotal : s'.total = m.kmem.total) :
    Inv L T { m with kmem := s' } := by
  refine ⟨?_, h.fit⟩
  show s'.total + m.used + m.pipePages = T
  rw [htotal]
  exact h.pages

omit [Fintype ι] [DecidableEq ι] in
theorem live_some {p : Space} (h : m.live i = some p) : m.procs i = some ⟨p, false⟩ := by
  unfold live at h
  split at h
  · rename_i q hq
    cases h
    exact hq
  · cases h

theorem Inv.forked (h : Inv L T m) {p p' : Space} (hj : m.procs j = none)
    (hfit : Fit L ⟨p, false⟩) (hf : Forked L p m.kmem p' s') : Inv L T (m.setMem j p' s') := by
  refine h.set ?_ fun x hx => ?_
  · rw [hj, ← hf.pages]
    show p'.pgdir.pages + {p'.kstack} + s'.total = 0 + _
    rw [zero_add]
  · cases hx
    refine ⟨?_, hf.sized, hf.kern⟩
    show p'.sz < KERNBASE
    rw [hf.sz]
    exact hfit.lt

theorem Inv.regrown (h : Inv L T m) {p p' : Space} (hi : m.procs i = some ⟨p, false⟩)
    (hr : Regrown L p m.kmem p' s') : Inv L T (m.setMem i p' s') := by
  refine h.set ?_ fun x hx => ?_
  · rw [hi]
    show p'.pgdir.pages + {p'.kstack} + s'.total = p.pgdir.pages + {p.kstack} + m.kmem.total
    rw [hr.kstack, add_right_comm, hr.pages, add_right_comm]
  · cases hx
    exact ⟨hr.lt, hr.sized, hr.kern⟩

theorem Inv.committed (h : Inv L T m) {p : Space} {d : Pgdir} {sz : ℕ} {f : ExecFile}
    (hi : m.procs i = some ⟨p, false⟩) (himage : Vm.Image L f d sz s)
    (hpages : d.pages + s.total = m.kmem.total) (hfree : s'.total = s.total + p.pgdir.pages) :
    Inv L T (m.setMem i ⟨d, sz, p.kstack⟩ s') := by
  refine h.set ?_ fun x hx => ?_
  · rw [hi]
    show d.pages + {p.kstack} + s'.total = p.pgdir.pages + {p.kstack} + m.kmem.total
    rw [hfree, ← hpages]
    abel
  · cases hx
    exact ⟨himage.lt, himage.sized, himage.kern⟩

theorem Inv.reaped (h : Inv L T m) {x : MemProc} (hj : m.procs j = some x)
    (hfree : s'.total = m.kmem.total + {x.mem.kstack} + x.mem.pgdir.pages) :
    Inv L T { m with procs := update m.procs j none, kmem := s' } := by
  refine h.set ?_ fun y hy => by cases hy
  rw [hj, hfree]
  show 0 + _ = x.mem.pgdir.pages + {x.mem.kstack} + _
  abel

omit [DecidableEq ι] in
theorem Inv.piped (h : Inv L T m) {q : ℕ} (htotal : m.kmem.total = s'.total + {q}) :
    Inv L T { m with pipes := ⟨q, true, true⟩ :: m.pipes, kmem := s' } := by
  refine ⟨?_, h.fit⟩
  rw [← h.pages, htotal]
  show s'.total + m.used + ((q :: m.pipes.map PipePage.page : List ℕ) : Multiset ℕ) = _
  rw [← cons_coe, ← singleton_add]
  unfold pipePages
  abel

omit [DecidableEq ι] in
theorem Inv.end_closed (h : Inv L T m) {k : ℕ} {x y : PipePage} (hk : m.pipes[k]? = some x)
    (hpage : y.page = x.page) : Inv L T { m with pipes := m.pipes.set k y } := by
  refine ⟨?_, h.fit⟩
  rw [← h.pages]
  show m.kmem.total + m.used + (((m.pipes.set k y).map PipePage.page : List ℕ) : Multiset ℕ) = _
  obtain ⟨hlt, hget⟩ := List.getElem?_eq_some_iff.mp hk
  have hmap : (m.pipes.set k y).map PipePage.page = m.pipes.map PipePage.page := by
    rw [List.map_set, hpage, ← hget]
    have hlen : k < (m.pipes.map PipePage.page).length := by
      rw [length_map]
      exact hlt
    have hself := set_getElem_self hlen
    rw [getElem_map] at hself
    exact hself
  rw [hmap]
  rfl

omit [DecidableEq ι] in
theorem Inv.pipe_freed (h : Inv L T m) {k : ℕ} {x : PipePage} (hk : m.pipes[k]? = some x)
    (htotal : s'.total = m.kmem.total + {x.page}) :
    Inv L T { m with pipes := m.pipes.eraseIdx k, kmem := s' } := by
  refine ⟨?_, h.fit⟩
  rw [← h.pages]
  show s'.total + m.used + (((m.pipes.eraseIdx k).map PipePage.page : List ℕ) : Multiset ℕ) = _
  obtain ⟨hlt, hget⟩ := List.getElem?_eq_some_iff.mp hk
  have hperm : (m.pipes.map PipePage.page : Multiset ℕ) =
      {x.page} + ((m.pipes.eraseIdx k).map PipePage.page : List ℕ) := by
    have h1 := getElem_cons_eraseIdx_perm hlt
    rw [hget] at h1
    have h2 := coe_eq_coe.mpr ((h1.map PipePage.page).symm)
    rw [h2, List.map_cons, ← cons_coe, ← singleton_add]
  unfold pipePages
  rw [hperm, htotal]
  abel

/-! ## Steps and runs -/

section

variable (hT : T.Nodup) (hR : ∀ q ∈ T, L.Ram q)

include hT hR

theorem Inv.fork (h : Inv L T m) (hs : step L m (.fork i j) = some m') : Inv L T m' := by
  unfold step at hs
  dsimp only at hs
  split at hs
  · rename_i p hp hj
    have hready := h.ready hT hR (live_some hp)
    have hfit := h.fit i _ (live_some hp)
    have hwp : wp (Vm.fork L p) (fun r s' =>
        (r = none → GaveUp (ForkLeaks p m.kmem.free.length) m.kmem s') ∧
        ∀ p', r = some p' → Forked L p m.kmem p' s') (fun _ _ => True) m.kmem :=
      wp_fork hready.total_nodup hready.total_ram hready.lt.le
        (fun x hx hpx => hready.user_not_free hx hpx) (fun _ _ => trivial)
        (fun s' hg => ⟨fun _ => hg, fun p' hp' => by cases hp'⟩)
        fun p' s' hf => ⟨fun hn => (by cases hn), fun q hq => (by cases hq; exact hf)⟩
    split at hs
    · rename_i p' s' hrun
      cases hs
      exact h.forked hj hfit (((wp_of_ok hrun).mp hwp).2 p' rfl)
    · rename_i s' hrun
      cases hs
      exact h.kmem (((wp_of_ok hrun).mp hwp).1 rfl).total
    · cases hs
  · cases hs

theorem Inv.sbrk (h : Inv L T m) {n : ℤ} (hs : step L m (.sbrk i n) = some m') : Inv L T m' := by
  unfold step at hs
  dsimp only at hs
  split at hs
  · cases hs
  · rename_i p hp
    have hready := h.ready hT hR (live_some hp)
    have hwp : wp (growproc L p n) (fun r s' => Regrown L p m.kmem r.1 s') (fun _ _ => False)
        m.kmem :=
      wp_growproc hready.lt hready.sized hready.kern hready.own fun p' r s' hr _ => hr
    split at hs
    · rename_i p' r s' hrun
      cases hs
      exact h.regrown (live_some hp) ((wp_of_ok hrun).mp hwp)
    · cases hs

theorem Inv.exec (h : Inv L T m) {f : ExecFile} {uargv : List ℕ} (hw : ¬ Wild m (.exec i f uargv))
    (hs : step L m (.exec i f uargv) = some m') : Inv L T m' := by
  unfold step at hs
  dsimp only at hs
  split at hs
  · cases hs
  · rename_i p hp
    have hready := h.ready hT hR (live_some hp)
    split at hs
    · cases hs
      exact h
    · rename_i args hargs
      obtain ⟨argv, rfl⟩ := exists_argv hready.lt hargs
      split at hs
      · cases hs
      · rename_i r s hrun
        have hwp : wp (Vm.exec L (pteOfBytes (userByte p m.kmem)) f argv.args)
            (ExecSpec L (pteOfBytes (userByte p m.kmem)) f argv m.kmem) (fun _ _ => False) m.kmem :=
          wp_exec hready.total_nodup hready.total_ram fun r s' hr => hr
        have hspec := (wp_of_ok hrun).mp hwp
        have hends := hspec.ends
        split at hs
        · cases hs
        · cases hr : r.ends with
          | fail =>
            rw [hr] at hs hends
            cases hs
            exact h.kmem hends.1
          | commit d sz sp =>
            rw [hr] at hs hends
            dsimp only at hs
            have hfree : wp (Vm.freevm L p.pgdir)
                (fun _ s' => s'.total = s.total + p.pgdir.pages) (fun _ _ => False) s :=
              Vm.wp_freevm hready.sized.wf hready.sized.contig
                (fun q hq => hready.own.pages_ram hq) fun s' ht _ _ _ => ht
            split at hs
            · rename_i s' hrun'
              cases hs
              exact h.committed (live_some hp) hends.1 hends.2.1 ((wp_of_ok hrun').mp hfree)
            · cases hs
          | wild d sz sp => exact absurd ⟨p, _, hp, hargs, hspec.wild d sz sp hr⟩ hw

theorem Inv.wait (h : Inv L T m) (hs : step L m (.wait j) = some m') : Inv L T m' := by
  unfold step at hs
  dsimp only at hs
  split at hs
  · rename_i p hp
    have hready := h.ready hT hR hp
    have hk := h.ram_kstack hR hp
    dsimp only at hready hk
    have hwp : wp (do
        kfree L p.kstack
        Vm.freevm L p.pgdir : Vm.M Unit)
        (fun _ s' => s'.total = m.kmem.total + {p.kstack} + p.pgdir.pages) (fun _ _ => False)
        m.kmem := by
      refine wp_seq (wp_kfree hk ?_)
      refine Vm.wp_freevm hready.sized.wf hready.sized.contig
        (fun q hq => hready.own.pages_ram hq) fun s' ht _ _ _ => ?_
      rw [ht, total_freed]
    split at hs
    · rename_i s' hrun
      cases hs
      exact h.reaped hp ((wp_of_ok hrun).mp hwp)
    · cases hs
  · cases hs

omit hT hR in
theorem Inv.pipe (h : Inv L T m) (hs : step L m (.pipe i) = some m') : Inv L T m' := by
  unfold step at hs
  dsimp only at hs
  split at hs
  · cases hs
  · have hwp : wp Vm.kalloc (fun r s' => (r = none → s'.total = m.kmem.total) ∧
        ∀ q, r = some q → m.kmem.total = s'.total + {q}) (fun _ _ => False) m.kmem := by
      refine wp_kalloc (fun _ => ⟨fun _ => rfl, fun q hq => by cases hq⟩) fun q rest hfree =>
        ⟨fun hn => (by cases hn), fun q' hq' => ?_⟩
      cases hq'
      exact total_taken hfree
    split at hs
    · rename_i q s' hrun
      cases hs
      exact h.piped (((wp_of_ok hrun).mp hwp).2 q rfl)
    · rename_i s' hrun
      cases hs
      exact h.kmem (((wp_of_ok hrun).mp hwp).1 rfl)
    · cases hs

omit hT in
theorem Inv.close (h : Inv L T m) {k : ℕ} {writable : Bool}
    (hs : step L m (.close k writable) = some m') : Inv L T m' := by
  unfold step at hs
  dsimp only at hs
  split at hs
  · cases hs
  · rename_i x hk
    split at hs
    · split at hs
      · cases hs
        exact h.end_closed hk rfl
      · have hram : L.Ram x.page := by
          refine hR _ ?_
          rw [← h.pages]
          refine Multiset.mem_add.mpr (.inr (mem_coe.mpr ?_))
          exact mem_map_of_mem (mem_of_getElem? hk)
        have hwp : wp (kfree L x.page) (fun _ s' => s'.total = m.kmem.total + {x.page})
            (fun _ _ => False) m.kmem := wp_kfree hram (total_freed _ _)
        split at hs
        · rename_i s' hrun
          cases hs
          exact h.pipe_freed hk ((wp_of_ok hrun).mp hwp)
        · cases hs
    · cases hs

theorem Inv.step (h : Inv L T m) {a : MemAct ι} (hw : ¬ Wild m a)
    (hs : step L m a = some m') : Inv L T m' := by
  cases a with
  | fork i j => exact h.fork hT hR hs
  | exec i f uargv => exact h.exec hT hR hw hs
  | sbrk i n => exact h.sbrk hT hR hs
  | exit i =>
    unfold MemSys.step at hs
    dsimp only at hs
    split at hs
    · cases hs
    · rename_i p hp
      cases hs
      have hfit := h.fit i _ (live_some hp)
      show Inv L T { m with procs := update m.procs i (some ⟨p, true⟩), kmem := m.kmem }
      refine h.set ?_ fun x hx => ?_
      · rw [live_some hp]
        rfl
      · cases hx
        exact ⟨hfit.lt, hfit.sized, hfit.kern⟩
  | wait j => exact h.wait hT hR hs
  | pipe i => exact h.pipe hs
  | close k writable => exact h.close hR hs
  | user i mem =>
    unfold MemSys.step at hs
    dsimp only at hs
    split at hs
    · cases hs
    · cases hs
      exact h.kmem rfl

end

/-! ## The first process -/

/-- The page allocator when the first process is made: the pages behind the
    kernel are on the free list. -/
structure StartMem (L : Layout) (s : Kmem) : Prop where
  nodup : s.total.Nodup
  ram : ∀ q ∈ s.total, L.Ram q
  room : 4096 ≤ s.free.length

structure Booted (L : Layout) (s : Kmem) (p : Space) (s' : Kmem) : Prop where
  sz : p.sz = PGSIZE
  sized : Sized p.pgdir 1
  kern : Kern L p.pgdir
  user : ∃ q, p.pgdir.pte 0 = ⟨q, true, true, true⟩
  pages : p.pgdir.pages + {p.kstack} + s'.total = s.total
  dropped : s'.dropped = s.dropped

theorem wp_inituvm {Q : Pgdir → Kmem → Prop} {E : String → Kmem → Prop} {d : Pgdir}
    {init : List UInt8} (hsized : Sized d 0) (hkern : Kern L d) (hroom : 2 ≤ s.free.length)
    (hE : PGSIZE ≤ init.length → E "inituvm: more than a page" s)
    (hQ : ∀ d' s', Sized d' 1 → Kern L d' → (∃ q, d'.pte 0 = ⟨q, true, true, true⟩) →
      d'.pages + s'.total = d.pages + s.total → s'.dropped = s.dropped → Q d' s') :
    wp (inituvm d init) Q E s := by
  unfold inituvm
  refine wp_ite (fun hbig => hE hbig) fun _ => ?_
  refine wp_seq (wp_kalloc (fun hnil => ?_) fun mem rest hfree => ?_)
  · rw [hnil] at hroom
    exact absurd hroom (by decide)
  · refine wp_write (wp_seq ?_)
    have habs := hsized.above 0 le_rfl (by decide)
    rw [hfree, length_cons] at hroom
    show wp (mappages d (0 * PGSIZE) PGSIZE (mem * PGSIZE) true true) _ E (taken s mem rest)
    refine wp_mappages_page hsized.wf (by decide) habs (fun hnil _ => ?_) fun d1 s1 hwalk => ?_
    · have hrest : rest = [] := hnil
      rw [hrest] at hroom
      exact absurd hroom (by decide)
    · refine wp_write ?_
      have habs1 : (d1.pte 0).p = false := by
        rw [hwalk.pte]
        exact habs
      refine hQ _ _ (hsized.map hwalk rfl) (hkern.walked (by decide) hwalk _)
        ⟨mem, Pgdir.setPte_self _ _ _⟩ ?_ hwalk.dropped
      show (d1.setPte 0 ⟨mem, true, true, true⟩).pages + s1.total = d.pages + s.total
      rw [pages_map (by decide) habs1, total_taken hfree, ← add_assoc, ← hwalk.pages]
      abel

theorem StartMem.wp_userinit {E : String → Kmem → Prop} {init : List UInt8} (h : StartMem L s)
    (hE : PGSIZE ≤ init.length → ∀ s', E "inituvm: more than a page" s') :
    wp (userinit L init) (Booted L s) E s := by
  have hroom := h.room
  unfold userinit
  refine wp_seq (wp_kalloc (fun hnil => ?_) fun k rest hfree => ?_)
  · rw [hnil] at hroom
    exact absurd hroom (by decide)
  · have htotal : s.total = ({ s with free := rest } : Kmem).total + {k} := total_taken hfree
    have hlen : s.free.length = rest.length + 1 := by rw [hfree, length_cons]
    refine wp_seq (wp_setupkvm (fun hnil => ?_) (fun _ _ _ _ _ _ hlt => ?_) fun d s1 hset => ?_)
    · have hrest : rest = [] := hnil
      rw [hrest, length_nil] at hlen
      omega
    · unfold KPAGES at hlt
      dsimp only at hlt
      omega
    · have hlen1 := free_length_le hset.sized hset.pages hset.dropped
      dsimp only at hlen1
      refine wp_seq (wp_inituvm hset.sized hset.kern (by omega) (fun hbig => hE hbig _)
        fun d' s2 hsized hkern huser hpages hdrop => ?_)
      refine ⟨rfl, hsized, hkern, huser, ?_, hdrop.trans hset.dropped⟩
      rw [htotal, ← hset.pages, ← hpages]
      abel

theorem StartMem.booted {init : List UInt8} {p : Space} (h : StartMem L s)
    (hboot : userinit L init s = .ok p s') : Booted L s p s' :=
  (wp_of_ok hboot).mp (h.wp_userinit (E := fun _ _ => True) fun _ _ => trivial)

theorem used_boot (i : ι) (p : Space) (s : Kmem) :
    (boot i p s).used = p.pgdir.pages + {p.kstack} := by
  have hsum := used_update (⟨fun _ => none, [], s⟩ : MemSys ι) i (some ⟨p, false⟩) s
  have hnone : (⟨fun _ => none, [], s⟩ : MemSys ι).used = 0 := sum_eq_zero fun _ _ => rfl
  rw [hnone, zero_add] at hsum
  have hzero : slotPages ((⟨fun _ => none, [], s⟩ : MemSys ι).procs i) = 0 := rfl
  rw [hzero, add_zero] at hsum
  exact hsum

theorem Booted.inv {p : Space} (h : Booted L s p s') (i : ι) : Inv L s.total (boot i p s') := by
  refine ⟨?_, fun j x hj => ?_⟩
  · rw [used_boot, ← h.pages]
    show s'.total + (p.pgdir.pages + {p.kstack}) + 0 = _
    abel
  · by_cases hji : j = i
    · unfold boot at hj
      dsimp only at hj
      rw [hji, update_self] at hj
      cases hj
      have hone : npages p.sz = 1 := by rw [h.sz]; decide
      refine ⟨?_, ?_, h.kern⟩
      · show p.sz < KERNBASE
        rw [h.sz]
        decide
      · show Sized p.pgdir (npages p.sz)
        rw [hone]
        exact h.sized
    · unfold boot at hj
      dsimp only at hj
      rw [update_of_ne hji] at hj
      cases hj

/-! ## Results -/

/-- No page is in two places, and no page comes from anywhere but the free list
    the kernel started with. -/
def OnePlace (T : Multiset ℕ) (m : MemSys ι) : Prop := m.places.Nodup ∧ ∀ q ∈ m.places, q ∈ T

/-- The kernel's part of every directory is `kmap` without `PTE_U`, and what is
    mapped below is a page that only this mapping uses. -/
def Separated (L : Layout) (T : Multiset ℕ) (m : MemSys ι) : Prop :=
  ∀ i x, m.procs i = some x → (∀ v, UPAGES ≤ v → v < 2 * UPAGES →
      x.mem.pgdir.pte v = kpte (kmap L) v ∧ (x.mem.pgdir.pte v).u = false) ∧
    (∀ v < UPAGES, (x.mem.pgdir.pte v).p = true →
      (x.mem.pgdir.pte v).addr ∈ T ∧ m.places.count (x.mem.pgdir.pte v).addr = 1)

omit [DecidableEq ι] in
theorem Inv.onePlace (h : Inv L T m) (hT : T.Nodup) : OnePlace T m := by
  have hle : m.places ≤ T := by
    rw [← h.pages, ← places_add_dropped]
    exact le_add_right _ _
  exact ⟨nodup_of_le hle hT, fun q hq => mem_of_le hle hq⟩

omit [DecidableEq ι] in
theorem Inv.separated (h : Inv L T m) (hT : T.Nodup) : Separated L T m := by
  intro i x hi
  have hfit := h.fit i x hi
  obtain ⟨hnodup, hmem⟩ := h.onePlace hT
  refine ⟨fun v hlo hhi => ⟨hfit.kern.pte v hlo hhi, hfit.kern.no_user hlo hhi⟩, fun v hv hp => ?_⟩
  have hslot := slotPages_le_used m i
  rw [hi] at hslot
  have hplace : (x.mem.pgdir.pte v).addr ∈ m.places := by
    refine Multiset.mem_add.mpr (.inl (Multiset.mem_add.mpr (.inr (mem_of_le hslot ?_))))
    refine Multiset.mem_add.mpr (.inl (Pgdir.mem_pages.mpr (.inr (.inr ?_))))
    exact Pgdir.mem_upages hp hv
  exact ⟨hmem _ hplace, count_eq_one_of_mem hnodup hplace⟩

variable {p : Space} {init : List UInt8} {as : List (MemAct ι)}

theorem inv_along (hstart : StartMem L s) (hboot : userinit L init s = .ok p s') (i : ι)
    (hwild : Transition.Meets (step L) (fun m a => ¬ Wild m a) (boot i p s') as) :
    Transition.Along (step L) (Inv L s.total) (boot i p s') as :=
  Transition.along_of_meets ((hstart.booted hboot).inv i)
    (fun _ _ _ h hw hs => h.step hstart.nodup hstart.ram hw hs) hwild

/-- Along every run without a wild copy, every page is in at most one place. -/
theorem page_in_one_place (hstart : StartMem L s) (hboot : userinit L init s = .ok p s') (i : ι)
    (hwild : Transition.Meets (step L) (fun m a => ¬ Wild m a) (boot i p s') as) :
    Transition.Along (step L) (OnePlace s.total) (boot i p s') as :=
  (inv_along hstart hboot i hwild).mono fun _ h => h.onePlace hstart.nodup

/-- Along every run without a wild copy, kernel and user are separated. -/
theorem kernel_user_separated (hstart : StartMem L s) (hboot : userinit L init s = .ok p s')
    (i : ι) (hwild : Transition.Meets (step L) (fun m a => ¬ Wild m a) (boot i p s') as) :
    Transition.Along (step L) (Separated L s.total) (boot i p s') as :=
  (inv_along hstart hboot i hwild).mono fun _ h => h.separated hstart.nodup

end Xv6.MemSys
