/-
  Xv6.Vm.Args

  The stack that exec builds (copyout and the second half of exec).

  The program is below page `g`, the guard page is `g` and the stack page
  `g + 1`.  The stack pointer goes down by the length of a string before
  anything is looked at, so a long string starts below the guard page, or wraps
  around to the kernel's half of the address space (`Skips`).
-/

import Xv6.Vm.Load

namespace Xv6

open Function List Wp Nat

namespace Vm

variable {L : Layout} {d d' : Pgdir} {s s' : Kmem} {E : String → Kmem → Prop} {f : ExecFile}
  {mem : ℕ → UInt8} {g sp l x : ℕ} {Q : CopyRes × List ℕ → Kmem → Prop}

structure Guarded (L : Layout) (d : Pgdir) (g : ℕ) : Prop where
  lt : (g + 2) * PGSIZE < KERNBASE
  sized : Sized d (g + 2)
  kern : Kern L d
  flags : ∀ x < g, (d.pte x).p = true ∧ (d.pte x).w = true ∧ (d.pte x).u = true
  guard : (d.pte g).p = true ∧ (d.pte g).u = false
  top : (d.pte (g + 1)).p = true ∧ (d.pte (g + 1)).u = true

/-- The new image: what is below the stack page is `mem`. -/
structure Stacked (L : Layout) (d : Pgdir) (g : ℕ) (s : Kmem) (mem : ℕ → UInt8) : Prop extends
    Guarded L d g where
  own : Owned L d s
  bytes : Bytes d (g + 1) s mem

theorem Guarded.present (h : Guarded L d g) (hx : x < g + 2) : (d.pte x).p = true := by
  rcases lt_or_ge x g with hlt | hge
  · exact (h.flags x hlt).1
  · rcases eq_or_lt_of_le hge with heq | hgt
    · rw [← heq]
      exact h.guard.1
    · have htop : x = g + 1 := by omega
      rw [htop]
      exact h.top.1

theorem Guarded.lt_upages (h : Guarded L d g) : g + 2 < UPAGES := by
  have hlt := h.lt
  unfold PGSIZE KERNBASE at hlt
  unfold UPAGES
  omega

theorem Guarded.mem_pages (h : Guarded L d g) (hx : x < g + 2) : (d.pte x).addr ∈ d.pages := by
  have hU := h.lt_upages
  exact Pgdir.mem_pages.mpr (.inr (.inr (Pgdir.mem_upages (h.present hx) (by omega))))

/-- Only the stack page is written to. -/
def TopOnly (d : Pgdir) (g : ℕ) (s s' : Kmem) : Prop :=
  SameFree d (g + 2) s s' ∧ ∀ p, p ≠ (d.pte (g + 1)).addr → s'.data p = s.data p

theorem TopOnly.refl : TopOnly d g s s := ⟨.refl, fun _ _ => rfl⟩

theorem TopOnly.trans {t : Kmem} (h : TopOnly d g s t) (h' : TopOnly d g t s') : TopOnly d g s s' :=
  ⟨h.1.trans h'.1, fun p hp => (h'.2 p hp).trans (h.2 p hp)⟩

theorem Stacked.topOnly (h : Stacked L d g s mem) (ht : TopOnly d g s s') :
    Stacked L d g s' mem := by
  have hU := h.lt_upages
  refine { h with own := h.own.same ht.1, bytes := fun x hx i hi => ?_ }
  have hne : (d.pte x).addr ≠ (d.pte (g + 1)).addr := by
    intro heq
    have hxg := h.own.inj (by omega) (by omega) (h.present (by omega)) h.top.1 heq
    omega
  rw [ht.2 _ hne]
  exact h.bytes x hx i hi

/-! ## copyout -/

variable {src : ℕ → UInt8} {fuel va len n : ℕ} {wrote : List ℕ}

theorem wp_copyout_stop (hlen : 0 < len)
    (hpte : d.tab (va / PGSIZE / NPTENTRIES) ≠ none →
      (d.pte (va / PGSIZE)).p = false ∨ (d.pte (va / PGSIZE)).u = false)
    (hwild : d.tab (va / PGSIZE / NPTENTRIES) = none → Q (.wild, wrote) s)
    (hfail : d.tab (va / PGSIZE / NPTENTRIES) ≠ none → Q (.fail, wrote) s) :
    wp (copyoutLoop d src (fuel + 1) va n len wrote) Q E s := by
  unfold copyoutLoop
  dsimp only
  rw [if_neg (by omega)]
  refine wp_ite (fun hnone => hwild (Option.isNone_iff_eq_none.mp hnone)) fun hsome => ?_
  have htab : d.tab (va / PGSIZE / NPTENTRIES) ≠ none := fun heq => hsome (by rw [heq]; rfl)
  refine wp_ite (fun _ => hfail htab) fun hp => ?_
  refine wp_ite (fun _ => hfail htab) fun hu => ?_
  rcases hpte htab with hp' | hu'
  · exact absurd hp' hp
  · exact absurd hu' hu

theorem wp_copyout_page (hlen : 0 < len)
    (htab : d.tab (va / PGSIZE / NPTENTRIES) ≠ none) (hp : (d.pte (va / PGSIZE)).p = true)
    (hu : (d.pte (va / PGSIZE)).u = true)
    (hnext : ∀ g' m, (m = len ∧ len < PGSIZE - va % PGSIZE ∨
        m = PGSIZE - va % PGSIZE ∧ PGSIZE - va % PGSIZE ≤ len) →
      (∀ i, g' i = if va % PGSIZE ≤ i ∧ i < va % PGSIZE + m then src (n + (i - va % PGSIZE))
        else s.data (d.pte (va / PGSIZE)).addr i) →
      wp (copyoutLoop d src fuel ((va / PGSIZE + 1) * PGSIZE % 2 ^ 32) (n + m) (len - m)
          (va / PGSIZE :: wrote)) Q E
        { s with data := update s.data (d.pte (va / PGSIZE)).addr g' }) :
    wp (copyoutLoop d src (fuel + 1) va n len wrote) Q E s := by
  unfold copyoutLoop
  dsimp only
  rw [if_neg (by omega), if_neg (fun hnone => htab (Option.isNone_iff_eq_none.mp hnone)),
    if_neg (by rw [hp]; decide), if_neg (by rw [hu]; decide)]
  refine wp_write (hnext _ _ ?_ fun _ => rfl)
  split
  · exact .inl ⟨rfl, by assumption⟩
  · exact .inr ⟨rfl, by omega⟩

def Put (d : Pgdir) (g : ℕ) (s : Kmem) (va len : ℕ) (src : ℕ → UInt8) (s' : Kmem) : Prop :=
  ∀ a, a / PGSIZE = g + 1 →
    readByte d s' a = if va ≤ a ∧ a < va + len then src (a - va) else readByte d s a

theorem Guarded.wp_copyout_top (h : Guarded L d g)
    (hlen : 0 < len) (hlo : (g + 1) * PGSIZE ≤ va) (hhi : va + len ≤ (g + 2) * PGSIZE)
    (hQ : ∀ s', TopOnly d g s s' → Put d g s va len src s' → Q (.ok, (g + 1) :: wrote) s') :
    wp (copyout d va src len wrote) Q E s := by
  have hv : va / PGSIZE = g + 1 := by
    unfold PGSIZE at *
    omega
  unfold copyout
  refine wp_copyout_page hlen ?_ (by rw [hv]; exact h.top.1) (by rw [hv]; exact h.top.2) ?_
  · rw [hv]
    exact h.sized.low (g + 1) (by omega)
  · intro g' m hm hg'
    obtain rfl : m = len := by
      unfold PGSIZE at *
      omega
    rw [Nat.sub_self, hv]
    unfold copyoutLoop
    rw [if_pos rfl]
    refine hQ _ ⟨.store (by omega) g', fun p hp => update_of_ne hp _ _⟩ fun a ha => ?_
    have hin : va % PGSIZE ≤ a % PGSIZE ∧ a % PGSIZE < va % PGSIZE + m ↔ va ≤ a ∧ a < va + m := by
      unfold PGSIZE at *
      omega
    have hsub : a % PGSIZE - va % PGSIZE = a - va := by
      unfold PGSIZE at *
      omega
    unfold readByte
    rw [ha]
    show update s.data (d.pte (g + 1)).addr g' (d.pte (g + 1)).addr (a % PGSIZE) = _
    rw [update_self, hg', if_congr hin rfl rfl, zero_add, hsub, hv]

theorem Guarded.wp_copyoutLoop_below
    (h : Guarded L d g) (hlo : va / PGSIZE ≤ g) (hlen : g * PGSIZE < va + len)
    (hpos : 0 < len) (hfuel : g < va / PGSIZE + fuel)
    (hQ : ∀ wrote' s', SameFree d (g + 2) s s' → wrote ⊆ wrote' →
      (va / PGSIZE < g → va / PGSIZE ∈ wrote') → (va / PGSIZE = g → wrote' = wrote ∧ s' = s) →
      Q (.fail, wrote') s') :
    wp (copyoutLoop d src fuel va n len wrote) Q E s := by
  -- on the number of pages the loop may still copy
  induction fuel generalizing va n len wrote s with
  | zero => omega
  | succ fuel ih =>
    have hlow := h.sized.low (va / PGSIZE) (by omega)
    rcases eq_or_lt_of_le hlo with heq | hlt
    · refine wp_copyout_stop hpos (fun _ => .inr ?_) (fun hnone => absurd hnone hlow) fun _ =>
        hQ wrote s .refl (List.Subset.refl _) (fun hlt => by omega) fun _ => ⟨rfl, rfl⟩
      rw [heq]
      exact h.guard.2
    · obtain ⟨hp, -, hu⟩ := h.flags _ hlt
      refine wp_copyout_page hpos hlow hp hu fun g' m hm _ => ?_
      have hsame : SameFree d (g + 2) s
          { s with data := update s.data (d.pte (va / PGSIZE)).addr g' } :=
        .store (by omega) g'
      have hbound := h.lt
      -- the whole rest of the page is copied: the end is beyond the guard page
      have hm' : m = PGSIZE - va % PGSIZE ∧ m < len := by
        unfold PGSIZE at *
        omega
      have hmod : (va / PGSIZE + 1) * PGSIZE % 2 ^ 32 = (va / PGSIZE + 1) * PGSIZE := by
        have hsmall : (va / PGSIZE + 1) * PGSIZE ≤ (g + 2) * PGSIZE := mul_le_mul_right _ (by omega)
        exact mod_eq_of_lt (hsmall.trans_lt (hbound.trans (by decide)))
      have hdiv : (va / PGSIZE + 1) * PGSIZE / PGSIZE = va / PGSIZE + 1 :=
        Nat.mul_div_cancel _ (by decide)
      have hend : (va / PGSIZE + 1) * PGSIZE + (len - m) = va + len := by
        unfold PGSIZE at *
        omega
      have hlen' : 0 < len - m := by omega
      rw [hmod]
      refine ih (by rw [hdiv]; exact hlt) (by rw [hend]; exact hlen) hlen' (by rw [hdiv]; omega) fun wrote' s' hs hsub _ _ =>
        hQ wrote' s' (hsame.trans hs) (fun x hx => hsub (mem_cons_of_mem _ hx))
          (fun _ => hsub mem_cons_self) fun heq => by omega

/-! ## The arguments -/

/-- An address in the part of the kernel's half that `kmap` leaves out: its page
    table is missing. -/
def NoTable (va : ℕ) : Prop := KERNBASE + PHYSTOP ≤ va ∧ va < DEVSPACE

instance (va : ℕ) : Decidable (NoTable va) := inferInstanceAs (Decidable (_ ∧ _))

/-- A string goes to the program's own pages or to where there is no page
    table, the strings before it having gone to the stack page. -/
def Skips (sz : ℕ) : List Arg → ℕ → Prop
  | [], _ => False
  | a :: as, sp =>
    pushStr sp a.len + 2 * PGSIZE < sz ∨ NoTable (pushStr sp a.len) ∨
      (sz ≤ pushStr sp a.len + PGSIZE ∧ pushStr sp a.len < sz ∧ Skips sz as (pushStr sp a.len))

/-- A string starts where there is no page table, the strings before it having gone to the stack
    page. -/
def Strays (sz : ℕ) : List Arg → ℕ → Prop
  | [], _ => False
  | a :: as, sp => NoTable (pushStr sp a.len) ∨
      (sz ≤ pushStr sp a.len + PGSIZE ∧ pushStr sp a.len < sz ∧ Strays sz as (pushStr sp a.len))

/-- The strings and the pointer block fit between the bottom of the stack page
    and `sp`; `n` strings are there already. -/
def Fits (sz : ℕ) : List Arg → ℕ → ℕ → Prop
  | [], sp, n => sz - PGSIZE + (3 + n + 1) * 4 ≤ sp
  | a :: as, sp, n => sz - PGSIZE + (a.len + 1) ≤ sp ∧ Fits sz as (pushStr sp a.len) (n + 1)

theorem pushStr_of_le (hsp : sp < KERNBASE) (h : l + 1 ≤ sp) :
    pushStr sp l = (sp - (l + 1)) / 4 * 4 := by
  unfold KERNBASE at hsp
  have hmod : (sp + 2 ^ 32 - (l + 1)) % 2 ^ 32 = sp - (l + 1) := by omega
  rw [pushStr, hmod]

theorem pushStr_of_lt (hsp : sp < KERNBASE) (hl : l < KERNBASE) (h : sp < l + 1) :
    KERNBASE ≤ pushStr sp l ∧ pushStr sp l < 2 ^ 32 := by
  unfold KERNBASE at *
  have hmod : (sp + 2 ^ 32 - (l + 1)) % 2 ^ 32 = sp + 2 ^ 32 - (l + 1) := by omega
  rw [pushStr, hmod]
  omega

theorem Kern.no_user (h : Kern L d) (hlo : UPAGES ≤ x) (hhi : x < 2 * UPAGES) :
    (d.pte x).u = false := by
  rw [h.pte x hlo hhi, kmap_eq]
  unfold kpte kpte kpte kpte kpte
  split
  · rfl
  · split
    · rfl
    · split
      · rfl
      · split
        · rfl
        · rfl

theorem Kern.noTable_iff (h : Kern L d) {va : ℕ} (hlo : KERNBASE ≤ va) (hhi : va < 2 ^ 32) :
    d.tab (va / PGSIZE / NPTENTRIES) = none ↔ NoTable va := by
  have hi : 512 ≤ va / PGSIZE / NPTENTRIES ∧ va / PGSIZE / NPTENTRIES < NPDENTRIES := by
    unfold KERNBASE PGSIZE NPTENTRIES NPDENTRIES at *
    omega
  have htab := h.tab _ hi.1 hi.2
  rw [← not_iff_not, ← ne_eq, htab]
  unfold NoTable KERNBASE PHYSTOP DEVSPACE PGSIZE NPTENTRIES at *
  omega

theorem pushStr_cases (hlt : (g + 2) * PGSIZE < KERNBASE)
    (hlo : (g + 1) * PGSIZE ≤ sp) (hhi : sp ≤ (g + 2) * PGSIZE) (hl : l < KERNBASE) :
    ((g + 1) * PGSIZE ≤ pushStr sp l ∧ pushStr sp l + (l + 1) ≤ (g + 2) * PGSIZE ∧
      (g + 1) * PGSIZE + (l + 1) ≤ sp ∧ ¬ NoTable (pushStr sp l)) ∨
    (pushStr sp l < (g + 1) * PGSIZE ∧ pushStr sp l / PGSIZE ≤ g ∧
      g * PGSIZE < pushStr sp l + (l + 1) ∧
      g < pushStr sp l / PGSIZE + ((l + 1) / PGSIZE + 3) ∧ ¬ NoTable (pushStr sp l)) ∨
    (KERNBASE ≤ pushStr sp l ∧ pushStr sp l < 2 ^ 32) := by
  by_cases hfit : l + 1 ≤ sp
  · have hpush := pushStr_of_le (hhi.trans_lt hlt) hfit
    have hnt : ¬ NoTable (pushStr sp l) := by
      unfold NoTable KERNBASE PGSIZE at *
      omega
    generalize pushStr sp l = q at hpush hnt ⊢
    have hq : q + (l + 1) ≤ sp ∧ sp < q + (l + 1) + 4 := by omega
    by_cases hin : (g + 1) * PGSIZE ≤ q
    · refine .inl ⟨hin, hq.1.trans hhi, ?_, hnt⟩
      exact (Nat.add_le_add_right hin _).trans hq.1
    · clear hpush hlt hl
      refine .inr (.inl ⟨by omega, ?_, ?_, ?_, hnt⟩)
      · unfold PGSIZE at *
        omega
      · unfold PGSIZE at *
        omega
      · unfold PGSIZE at *
        omega
  · exact .inr (.inr (pushStr_of_lt (hhi.trans_lt hlt) hl (by omega)))

theorem Guarded.wp_copyStr
    (h : Guarded L d g) (hlo : (g + 1) * PGSIZE ≤ sp) (hhi : sp ≤ (g + 2) * PGSIZE)
    (hl : l < KERNBASE)
    (htop : (g + 1) * PGSIZE ≤ pushStr sp l → pushStr sp l + (l + 1) ≤ (g + 2) * PGSIZE →
      (g + 1) * PGSIZE + (l + 1) ≤ sp → ¬ NoTable (pushStr sp l) →
      ∀ s', TopOnly d g s s' → Put d g s (pushStr sp l) (l + 1) src s' →
      Q (.ok, (g + 1) :: wrote) s')
    (hguard : pushStr sp l / PGSIZE = g → ¬ NoTable (pushStr sp l) → Q (.fail, wrote) s)
    (hhigh : KERNBASE ≤ pushStr sp l → ¬ NoTable (pushStr sp l) → Q (.fail, wrote) s)
    (hbelow : ∀ wrote' s', SameFree d (g + 2) s s' → pushStr sp l / PGSIZE ∈ wrote' →
      pushStr sp l / PGSIZE < g → ¬ NoTable (pushStr sp l) → Q (.fail, wrote') s')
    (hwild : NoTable (pushStr sp l) → Q (.wild, wrote) s) :
    wp (copyout d (pushStr sp l) src (l + 1) wrote) Q E s := by
  rcases pushStr_cases h.lt hlo hhi hl with ⟨hin, hend, hfit, hnt⟩ | ⟨-, hv, hend, hfuel, hnt⟩ |
    ⟨hk, h32⟩
  · exact h.wp_copyout_top (succ_pos l) hin hend (htop hin hend hfit hnt)
  · refine h.wp_copyoutLoop_below hv hend (succ_pos l) hfuel fun wrote' s' hs _ hmem hsame => ?_
    rcases eq_or_lt_of_le hv with heq | hlt
    · obtain ⟨rfl, rfl⟩ := hsame heq
      exact hguard heq hnt
    · exact hbelow wrote' s' hs (hmem hlt) hlt hnt
  · have hpage : UPAGES ≤ pushStr sp l / PGSIZE ∧ pushStr sp l / PGSIZE < 2 * UPAGES := by
      clear htop hguard hhigh hbelow hwild
      unfold KERNBASE at hk
      unfold UPAGES PGSIZE
      omega
    exact wp_copyout_stop (succ_pos l) (fun _ => .inr (h.kern.no_user hpage.1 hpage.2))
      (fun hnone => hwild ((h.kern.noTable_iff hk h32).mp hnone)) fun hsome =>
        hhigh hk (mt (h.kern.noTable_iff hk h32).mpr hsome)

theorem skips_top {a : Arg} {as : List Arg} {sp : ℕ} (hin : (g + 1) * PGSIZE ≤ pushStr sp a.len)
    (hend : pushStr sp a.len + (a.len + 1) ≤ (g + 2) * PGSIZE)
    (hnt : ¬ NoTable (pushStr sp a.len)) :
    Skips ((g + 2) * PGSIZE) (a :: as) sp ↔ Skips ((g + 2) * PGSIZE) as (pushStr sp a.len) := by
  rw [Skips]
  generalize pushStr sp a.len = q at hin hend hnt ⊢
  have hpage : ¬ q + 2 * PGSIZE < (g + 2) * PGSIZE ∧ (g + 2) * PGSIZE ≤ q + PGSIZE ∧
      q < (g + 2) * PGSIZE := by
    unfold PGSIZE at *
    omega
  obtain ⟨hnot, hsz, hlt⟩ := hpage
  constructor
  · rintro (hbad | hbad | ⟨-, -, hrest⟩)
    · exact absurd hbad hnot
    · exact absurd hbad hnt
    · exact hrest
  · intro hrest
    exact .inr (.inr ⟨hsz, hlt, hrest⟩)

theorem not_skips_stop {a : Arg} {as : List Arg} {sp : ℕ} (hlt : (g + 2) * PGSIZE < KERNBASE)
    (hv : pushStr sp a.len / PGSIZE = g ∨ KERNBASE ≤ pushStr sp a.len)
    (hnt : ¬ NoTable (pushStr sp a.len)) : ¬ Skips ((g + 2) * PGSIZE) (a :: as) sp := by
  rw [Skips]
  generalize pushStr sp a.len = q at hv hnt
  unfold KERNBASE PGSIZE at *
  rintro (hbad | hbad | ⟨hlo, hhi, -⟩)
  · omega
  · exact hnt hbad
  · omega

def Pushed (d : Pgdir) (s : Kmem) : List Arg → List ℕ → ℕ → ℕ → Prop
  | [], [], sp, sp' => sp' = sp
  | a :: as, q :: qs, sp, sp' =>
    q % 4 = 0 ∧ q + (a.len + 1) ≤ sp ∧ (∀ i < a.len, readByte d s (q + i) = a.byte i) ∧
      readByte d s (q + a.len) = 0 ∧ Pushed d s as qs q sp'
  | _, _, _, _ => False

/-- What is above `sp` in the stack page is the same. -/
def SameAbove (d : Pgdir) (g sp : ℕ) (s s' : Kmem) : Prop :=
  ∀ a, sp ≤ a → a < (g + 2) * PGSIZE → readByte d s' a = readByte d s a

theorem Put.string {a : Arg} {q sp : ℕ} {t : Kmem}
    (hlo : (g + 1) * PGSIZE ≤ q) (hle : q + (a.len + 1) ≤ sp) (hhi : sp ≤ (g + 2) * PGSIZE)
    (h : Put d g s q (a.len + 1) (fun i => if i < a.len then a.byte i else 0) t)
    (ht : SameAbove d g q t s') : SameAbove d g sp s s' ∧
    (∀ i < a.len, readByte d s' (q + i) = a.byte i) ∧ readByte d s' (q + a.len) = 0 := by
  have hpage : ∀ x, q ≤ x → x < (g + 2) * PGSIZE → x / PGSIZE = g + 1 := by
    unfold PGSIZE at *
    omega
  refine ⟨fun x hx hxg => ?_, fun i hi => ?_, ?_⟩
  · rw [ht x (by omega) hxg, h x (hpage x (by omega) hxg), if_neg (by omega)]
  · rw [ht _ (by omega) (by omega), h _ (hpage _ (by omega) (by omega)), if_pos (by omega),
      Nat.add_sub_cancel_left]
    exact if_pos hi
  · rw [ht _ (by omega) (by omega), h _ (hpage _ (by omega) (by omega)), if_pos (by omega),
      Nat.add_sub_cancel_left]
    exact if_neg (lt_irrefl _)

theorem wp_pushArgs {Q : CopyRes × ℕ × List ℕ × List ℕ → Kmem → Prop} {args : List Arg} {sp : ℕ}
    {addrs : List ℕ} (h : Guarded L d g) (hlo : (g + 1) * PGSIZE ≤ sp)
    (hhi : sp ≤ (g + 2) * PGSIZE) (hlen : ∀ a ∈ args, a.len < KERNBASE)
    (hmax : addrs.length + args.length < MAXARG) (hwrote : ∀ v ∈ wrote, v = g + 1)
    (hok : ∀ sp' addrs' wrote' s', TopOnly d g s s' → (g + 1) * PGSIZE ≤ sp' →
      sp' ≤ (g + 2) * PGSIZE → addrs'.length = addrs.length + args.length →
      SameAbove d g sp s s' → (∃ qs, addrs' = addrs ++ qs ∧ Pushed d s' args qs sp sp') →
      (∀ v ∈ wrote', v = g + 1) → ¬ Skips ((g + 2) * PGSIZE) args sp →
      (Fits ((g + 2) * PGSIZE) [] sp' addrs'.length →
        Fits ((g + 2) * PGSIZE) args sp addrs.length) → Q (.ok, sp', addrs', wrote') s')
    (hstop : ∀ sp' addrs' wrote' s', SameFree d (g + 2) s s' → (∀ v ∈ wrote', v = g + 1) →
      ¬ Skips ((g + 2) * PGSIZE) args sp → Q (.fail, sp', addrs', wrote') s')
    (hskip : ∀ res sp' addrs' wrote' s', SameFree d (g + 2) s s' →
      Skips ((g + 2) * PGSIZE) args sp →
      (res = .wild ∧ TopOnly d g s s' ∧ Strays ((g + 2) * PGSIZE) args sp) ∨
        (res = .fail ∧ ∃ v ∈ wrote', v ≠ g + 1) →
      (∀ a, args = [a] → NoTable (pushStr sp a.len) → res = .wild ∧ sp' = pushStr sp a.len) →
      Q (res, sp', addrs', wrote') s') :
    wp (pushArgs d args sp addrs wrote) Q E s := by
  -- on the strings
  induction args generalizing sp addrs wrote s with
  | nil =>
    exact hok sp addrs wrote s .refl hlo hhi rfl (fun _ _ _ => rfl) ⟨[], (append_nil _).symm, rfl⟩
      hwrote (fun hskip => hskip) fun hf => hf
  | cons a as ih =>
    rw [length_cons] at hmax
    have ha := hlen a mem_cons_self
    unfold pushArgs
    rw [if_neg (by omega)]
    refine wp_seq (h.wp_copyStr hlo hhi ha (fun hin hend hfit hnt s1 hs1 hput => ?_)
      (fun hv hnt => ?_) (fun hk hnt => ?_) (fun wrote' s1 hs1 hmem hv hnt => ?_) fun hnt => ?_)
    · dsimp only
      rw [if_pos rfl]
      have hskips : Skips ((g + 2) * PGSIZE) (a :: as) sp ↔
          Skips ((g + 2) * PGSIZE) as (pushStr sp a.len) := skips_top hin hend hnt
      have hwrote' : ∀ v ∈ (g + 1) :: wrote, v = g + 1 := by
        intro v hv
        rcases mem_cons.mp hv with rfl | hv
        · rfl
        · exact hwrote v hv
      have hcount : (addrs ++ [pushStr sp a.len]).length = addrs.length + 1 := length_append
      refine ih hin (by omega) (fun b hb => hlen b (mem_cons_of_mem _ hb)) (by omega) hwrote'
        (fun sp' addrs' wrote'' s' ht hlo' hhi' hl' habove hqs hw hns hf => ?_)
        (fun sp' addrs' wrote'' s' hs hw hns => ?_) fun res sp' addrs' wrote'' s' hs hsk hres _ => ?_
      · have hpush := pushStr_of_le (l := a.len) (hhi.trans_lt h.lt) (by omega)
        obtain ⟨hsame, hstr, hnul⟩ := hput.string hin (by omega) hhi habove
        obtain ⟨qs, rfl, hqs⟩ := hqs
        refine hok sp' _ wrote'' s' (hs1.trans ht) hlo' hhi' ?_ hsame ⟨pushStr sp a.len :: qs, ?_, ?_⟩ hw
          (mt hskips.mp hns) fun hfits => ?_
        · rw [hl', hcount, length_cons]
          omega
        · rw [append_assoc, singleton_append]
        · exact ⟨by omega, by omega, hstr, hnul, hqs⟩
        · have hrest := hf hfits
          rw [hcount] at hrest
          refine ⟨?_, hrest⟩
          unfold PGSIZE at *
          omega
      · exact hstop sp' addrs' wrote'' s' (hs1.1.trans hs) hw (mt hskips.mp hns)
      · refine hskip res sp' addrs' wrote'' s' (hs1.1.trans hs) (hskips.mpr hsk)
          (hres.imp_left fun hw => ⟨hw.1, hs1.trans hw.2.1, .inr ⟨?_, ?_, hw.2.2⟩⟩) fun b hb hno => ?_
        · rw [show (g + 2) * PGSIZE = (g + 1) * PGSIZE + PGSIZE from Nat.succ_mul _ _]
          exact Nat.add_le_add_right hin _
        · omega
        · cases hb
          exact absurd hno hnt
    · dsimp only
      rw [if_neg (by decide)]
      exact hstop _ _ _ s .refl hwrote (not_skips_stop h.lt (.inl hv) hnt)
    · dsimp only
      rw [if_neg (by decide)]
      exact hstop _ _ _ s .refl hwrote (not_skips_stop h.lt (.inr hk) hnt)
    · dsimp only
      rw [if_neg (by decide)]
      have hsk : Skips ((g + 2) * PGSIZE) (a :: as) sp := by
        refine .inl ?_
        generalize pushStr sp a.len = q at hv
        unfold PGSIZE at *
        omega
      refine hskip _ _ _ _ s1 hs1 hsk (.inr ⟨rfl, _, hmem, by omega⟩) fun b hb hno => ?_
      cases hb
      exact absurd hno hnt
    · dsimp only
      rw [if_neg (by decide)]
      refine hskip _ _ _ _ s .refl (.inr (.inl hnt)) (.inl ⟨rfl, .refl, .inl hnt⟩) fun b hb _ => ?_
      cases hb
      exact ⟨rfl, rfl⟩

def readWord (d : Pgdir) (s : Kmem) (a : ℕ) : ℕ :=
  (readByte d s a).toNat + 2 ^ 8 * (readByte d s (a + 1)).toNat +
    2 ^ 16 * (readByte d s (a + 2)).toNat + 2 ^ 24 * (readByte d s (a + 3)).toNat

/-- **The stack encodes the arguments.**  From `esp` on there are a return
    address, `argc`, the address of the words that follow, and these: the
    addresses of the strings, and 0.  The strings are above, up to `sz`. -/
def Encodes (d : Pgdir) (s : Kmem) (sz esp : ℕ) (argv : List Arg) : Prop :=
  ∃ addrs sp, Pushed d s argv addrs sz sp ∧ addrs.length = argv.length ∧ esp % 4 = 0 ∧
    esp + (3 + addrs.length + 1) * 4 ≤ sp ∧ ∀ i w,
      ([0xffffffff, addrs.length, esp + 12] ++ addrs ++ [0])[i]? = some w →
      readWord d s (esp + 4 * i) = w

theorem readWord_eq {l : List ℕ} {i w va : ℕ} (hi : l[i]? = some w) (hw : w < 2 ^ 32)
    (h : ∀ k < 4, readByte d s (va + 4 * i + k) = wordByte l (4 * i + k)) :
    readWord d s (va + 4 * i) = w := by
  have hbyte : ∀ k < 4, (readByte d s (va + 4 * i + k)).toNat = w / 2 ^ (8 * k) % 2 ^ 8 := by
    intro k hk
    rw [h k hk, wordByte, show (4 * i + k) / 4 = i by omega, show (4 * i + k) % 4 = k by omega, hi]
    exact UInt8.toNat_ofNat'
  have h0 := hbyte 0 (by omega)
  have h1 := hbyte 1 (by omega)
  have h2 := hbyte 2 (by omega)
  have h3 := hbyte 3 (by omega)
  rw [add_zero] at h0
  unfold readWord
  omega

theorem Pushed.addrs {args : List Arg} {qs : List ℕ} {sp sp' : ℕ} (h : Pushed d s args qs sp sp') :
    qs.length = args.length ∧ (∀ q ∈ qs, q < sp) ∧ (sp % 4 = 0 → sp' % 4 = 0) := by
  induction args generalizing qs sp with
  | nil =>
    cases qs with
    | nil => exact ⟨rfl, fun q hq => absurd hq not_mem_nil, fun hsp => h ▸ hsp⟩
    | cons q qs => exact h.elim
  | cons a as ih =>
    cases qs with
    | nil => exact h.elim
    | cons q qs =>
      obtain ⟨hq, hle, -, -, hrest⟩ := h
      obtain ⟨hlen, hlt, hmod⟩ := ih hrest
      refine ⟨congrArg (· + 1) hlen, fun x hx => ?_, fun _ => hmod hq⟩
      rcases mem_cons.mp hx with rfl | hx
      · omega
      · have := hlt x hx
        omega

theorem Pushed.congr {args : List Arg} {qs : List ℕ} {sp sp' : ℕ} (h : Pushed d s args qs sp sp')
    (hsp : sp ≤ (g + 2) * PGSIZE) (hsame : SameAbove d g sp' s s') :
    Pushed d s' args qs sp sp' ∧ sp' ≤ sp := by
  induction args generalizing qs sp with
  | nil =>
    cases qs with
    | nil => exact ⟨h, le_of_eq h⟩
    | cons q qs => exact h.elim
  | cons a as ih =>
    cases qs with
    | nil => exact h.elim
    | cons q qs =>
      obtain ⟨hq, hle, hstr, hnul, hrest⟩ := h
      obtain ⟨hrest', hqle⟩ := ih hrest (by omega)
      refine ⟨⟨hq, hle, fun i hi => ?_, ?_, hrest'⟩, by omega⟩
      · rw [hsame _ (by omega) (by omega), hstr i hi]
      · rw [hsame _ (by omega) (by omega), hnul]

theorem Pushed.encodes {args : List Arg} {qs : List ℕ} {sp va : ℕ}
    (h : Pushed d s args qs ((g + 2) * PGSIZE) sp) (hlt : (g + 2) * PGSIZE < KERNBASE)
    (hlo : (g + 1) * PGSIZE ≤ va) (hva : va = sp - (3 + qs.length + 1) * 4)
    (hle : (3 + qs.length + 1) * 4 ≤ sp)
    (hput : Put d g s va ((3 + qs.length + 1) * 4) (wordByte (ustack sp qs)) s') :
    Encodes d s' ((g + 2) * PGSIZE) va args := by
  obtain ⟨hlen, hbelow, hmod⟩ := h.addrs
  have hsp : sp % 4 = 0 := hmod (by unfold PGSIZE; omega)
  have hpage : ∀ x, va ≤ x → x < (g + 2) * PGSIZE → x / PGSIZE = g + 1 := by
    unfold PGSIZE at *
    omega
  have hsame : SameAbove d g sp s s' := by
    intro x hx hxg
    rw [hput x (hpage x (by omega) hxg), if_neg (by omega)]
  obtain ⟨hpush, hspsz⟩ := h.congr le_rfl hsame
  have hstack : ustack sp qs = [0xffffffff, qs.length, va + 12] ++ qs ++ [0] := by
    have hargv : (sp + 2 ^ 32 - (qs.length + 1) * 4) % 2 ^ 32 = va + 12 := by
      unfold KERNBASE at hlt
      omega
    rw [ustack, hargv]
  rw [hstack] at hput
  refine ⟨qs, sp, hpush, hlen, by omega, by omega, fun i w hi => ?_⟩
  obtain ⟨hil, -⟩ := List.getElem?_eq_some_iff.mp hi
  simp only [length_append, length_cons, length_nil] at hil
  refine readWord_eq hi ?_ fun k hk => ?_
  · unfold KERNBASE at hlt
    have hmem := mem_of_getElem? hi
    simp only [cons_append, nil_append, mem_cons, mem_append, not_mem_nil, or_false] at hmem
    rcases hmem with rfl | rfl | rfl | hq | rfl
    · omega
    · omega
    · omega
    · have := hbelow w hq
      omega
    · omega
  · rw [hput _ (hpage _ (by omega) (by omega)), if_pos (by omega), add_assoc,
      Nat.add_sub_cancel_left]

theorem wp_buildStack {Q : CopyRes × ℕ × List ℕ → Kmem → Prop} {argv : List Arg}
    (h : Guarded L d g) (hlen : ∀ a ∈ argv, a.len < KERNBASE) (hmax : argv.length < MAXARG)
    (hok : ∀ sp wrote s', TopOnly d g s s' → Encodes d s' ((g + 2) * PGSIZE) sp argv →
      (∀ v ∈ wrote, v = g + 1) →
      ¬ Skips ((g + 2) * PGSIZE) argv ((g + 2) * PGSIZE) →
      Fits ((g + 2) * PGSIZE) argv ((g + 2) * PGSIZE) 0 → Q (.ok, sp, wrote) s')
    (hstop : ∀ sp wrote s', SameFree d (g + 2) s s' → (∀ v ∈ wrote, v = g + 1) →
      ¬ Skips ((g + 2) * PGSIZE) argv ((g + 2) * PGSIZE) → Q (.fail, sp, wrote) s')
    (hskip : ∀ res sp wrote s', SameFree d (g + 2) s s' →
      Skips ((g + 2) * PGSIZE) argv ((g + 2) * PGSIZE) →
      (res = .wild ∧ TopOnly d g s s' ∧ Strays ((g + 2) * PGSIZE) argv ((g + 2) * PGSIZE)) ∨
        (res = .fail ∧ ∃ v ∈ wrote, v ≠ g + 1) →
      (∀ a, argv = [a] → NoTable (pushStr ((g + 2) * PGSIZE) a.len) →
        res = .wild ∧ sp = pushStr ((g + 2) * PGSIZE) a.len) → Q (res, sp, wrote) s') :
    wp (buildStack d ((g + 2) * PGSIZE) argv) Q E s := by
  have htop : (g + 1) * PGSIZE ≤ (g + 2) * PGSIZE := mul_le_mul_right _ (by omega)
  unfold buildStack
  refine wp_seq (wp_pushArgs h htop le_rfl hlen (by simpa using hmax) (by simp)
    (fun sp addrs wrote s1 hs1 hlo hhi haddrs _ hqs hw hns hf => ?_)
    (fun sp addrs wrote s1 hs1 hw hns => ?_) fun res sp addrs wrote s1 hs1 hsk hres hone => ?_)
  · dsimp only
    rw [if_pos rfl]
    have hn : addrs.length < 32 := by
      rw [haddrs, length_nil, zero_add]
      exact hmax
    have hlt := h.lt
    generalize haddr : (sp + 2 ^ 32 - (3 + addrs.length + 1) * 4) % 2 ^ 32 = va
    have hva : va = sp - (3 + addrs.length + 1) * 4 ∧ (3 + addrs.length + 1) * 4 ≤ sp := by
      unfold PGSIZE KERNBASE at *
      omega
    by_cases hfit : (g + 1) * PGSIZE ≤ va
    · refine wp_seq (h.wp_copyout_top (by omega) hfit ?_ fun s2 hs2 hput => ?_)
      · unfold PGSIZE at *
        omega
      · obtain ⟨qs, rfl, hqs⟩ := hqs
        refine hok va _ s2 (hs1.trans hs2) (hqs.encodes h.lt hfit hva.1 hva.2 hput) ?_ hns (hf ?_)
        · intro v hv
          rcases mem_cons.mp hv with rfl | hv
          · rfl
          · exact hw v hv
        · show (g + 2) * PGSIZE - PGSIZE + (3 + addrs.length + 1) * 4 ≤ sp
          unfold PGSIZE at *
          omega
    · -- the block is shorter than a page, so it starts in the guard page
      have hv : va / PGSIZE = g := by
        unfold PGSIZE at *
        omega
      refine wp_seq (wp_copyout_stop (by omega) (fun _ => .inr ?_) (fun hnone => ?_) fun _ => ?_)
      · rw [hv]
        exact h.guard.2
      · rw [hv] at hnone
        exact absurd hnone (h.sized.low g (by omega))
      · exact hstop va wrote s1 hs1.1 hw hns
  · dsimp only
    rw [if_neg (by decide)]
    exact hstop sp wrote s1 hs1 hw hns
  · dsimp only
    have hne : res ≠ .ok := by
      rcases hres with ⟨rfl, -⟩ | ⟨rfl, -⟩
      · decide
      · decide
    rw [if_neg hne]
    exact hskip res sp wrote s1 hs1 hsk hres hone

end Vm

end Xv6
