/-
  Xv6.Vm.Image

  exec as a whole: what it commits, and where its stack goes.
-/

import Xv6.Vm.Args

namespace Xv6

open Finset Wp Pgdir

namespace Vm

variable {L : Layout} {d d' : Pgdir} {s s' : Kmem} {E : String → Kmem → Prop} {f : ExecFile}
  {mem : ℕ → UInt8} {g n : ℕ} {Q : ExecRun → Kmem → Prop} {zero : Pte} {s₀ : Kmem} {ws : List ℕ}

/-- What `sys_exec` accepts: fewer than `MAXARG` strings, each inside the caller's memory. -/
structure Argv where
  args : List Arg
  length_lt : args.length < MAXARG
  len_lt : ∀ a ∈ args, a.len < KERNBASE

variable {argv : Argv}

/-- The memory that the program headers of `f` describe. -/
def ExecFile.image (f : ExecFile) : ℕ → UInt8 := segImage f (f.ushort 44) (f.uint 28) fun _ => 0

/-- The size of the image: the segments, rounded up, the guard page and the stack page. -/
def imageSize (f : ExecFile) : ℕ :=
  (npages (segSize f (f.ushort 44) (f.uint 28) 0) + 2) * PGSIZE

/-- The address space of a program: the pages below `sz`, and below the stack
    page the segments and zeros. -/
structure Image (L : Layout) (f : ExecFile) (d : Pgdir) (sz : ℕ) (s : Kmem) : Prop where
  lt : sz < KERNBASE
  aligned : sz % PGSIZE = 0
  stack : 2 * PGSIZE ≤ sz
  sized : Sized d (npages sz)
  present : ∀ v < UPAGES, (d.pte v).p = true ↔ v * PGSIZE < sz
  kern : Kern L d
  bytes : ∀ a, a + PGSIZE < sz → s.data (d.pte (a / PGSIZE)).addr (a % PGSIZE) = ExecFile.image f a

theorem npages_mul (n : ℕ) : npages (n * PGSIZE) = n := by
  unfold npages PGSIZE
  omega

theorem Stacked.image (h : Stacked L d g s (ExecFile.image f)) :
    Image L f d ((g + 2) * PGSIZE) s where
  lt := h.lt
  aligned := Nat.mul_mod_left _ _
  stack := Nat.mul_le_mul_right _ (by omega)
  sized := by
    rw [npages_mul]
    exact h.sized
  present := by
    intro v hv
    rw [Nat.mul_lt_mul_right (by decide)]
    refine ⟨fun hp => ?_, fun hlt => h.present hlt⟩
    by_contra hge
    rw [h.sized.above v (by omega) hv] at hp
    cases hp
  kern := h.kern
  bytes := by
    intro a ha
    have hpage : a / PGSIZE < g + 1 := by
      unfold PGSIZE at *
      omega
    have hbyte := h.bytes (a / PGSIZE) hpage (a % PGSIZE) (Nat.mod_lt _ (by decide))
    rw [Nat.div_add_mod' a PGSIZE] at hbyte
    exact hbyte

theorem pages_clearU {v : ℕ} (hv : v < UPAGES) :
    (d.setPte v { d.pte v with u := false }).pages = d.pages := by
  have hsame : page1 { d.pte v with u := false } = page1 (d.pte v) := rfl
  have hpages := pages_setPte (d := d) (e := { d.pte v with u := false }) hv
  rw [hsame] at hpages
  exact Multiset.add_right_inj.mp (by rw [add_comm, hpages, add_comm])

theorem Sized.setPte {n v : ℕ} {e : Pte} (h : Sized d n) (hv : v < n) (he : e.p = true) :
    Sized (d.setPte v e) n where
  wf := h.wf.setPte (h.low v hv) fun hp => by rw [he] at hp; cases hp
  contig := h.contig
  low := h.low
  above := by
    intro x hlo hhi
    rw [setPte_of_ne (by omega)]
    exact h.above x hlo hhi

theorem Loaded.stacked (h : Loaded L d ((g + 2) * PGSIZE) s mem) :
    Stacked L (d.setPte g { d.pte g with u := false }) g s mem := by
  have hU := npages_le h.lt.le
  have hsized := h.sized
  have hflags := h.flags
  have hbytes := h.bytes
  rw [npages_mul] at hU hsized hflags hbytes
  have hp := (hflags g (by omega)).1
  refine ⟨⟨h.lt, hsized.setPte (by omega) hp, ?_, fun x hx => ?_, ?_, ?_⟩, ?_, fun x hx i hi => ?_⟩
  · refine h.kern.congr (fun x hx => setPte_of_ne (by omega)) fun i _ => Iff.rfl
  · rw [setPte_of_ne (by omega)]
    exact hflags x (by omega)
  · rw [setPte_self]
    exact ⟨hp, rfl⟩
  · rw [setPte_of_ne (by omega)]
    exact ⟨(hflags (g + 1) (by omega)).1, (hflags (g + 1) (by omega)).2.2⟩
  · exact h.own.of_eq (by rw [pages_clearU (by omega)])
  · have haddr : ((d.setPte g { d.pte g with u := false }).pte x).addr = (d.pte x).addr := by
      by_cases hxg : x = g
      · rw [hxg, setPte_self]
      · rw [setPte_of_ne hxg]
    rw [haddr]
    exact hbytes x (by omega) i hi

/-! ## The whole of exec -/

/-- Every byte is written to the stack page, no page table is missed, and
    arguments that do not fit make `exec` fail. -/
structure StaysOnStack (argv : Argv) (r : ExecRun) : Prop where
  wrote : ∀ sz, r.stack = some sz → ∀ v ∈ r.wrote, (v + 1) * PGSIZE = sz
  looked : r.looked = false
  fits : ∀ sz, r.stack = some sz → ¬ Fits sz argv.args sz 0 → r.ends = .fail

/-- With `n` free pages `exec` gives up in `setupkvm`, which forgets the pages it has taken. -/
def ExecLeaks (f : ExecFile) (n : ℕ) : Prop :=
  52 ≤ f.size ∧ f.uint 0 = ELF_MAGIC ∧ 0 < n ∧ n < KPAGES

/-- What each end of `exec` says of the pages. -/
def Ended (L : Layout) (f : ExecFile) (s : Kmem) : ExecEnd → Kmem → Prop
  | .fail, s' => s'.total = s.total ∧ Forgets (ExecLeaks f s.free.length) s s'
  | .commit d sz _, s' => Image L f d sz s' ∧ d.pages + s'.total = s.total ∧ s'.dropped = s.dropped
  | .wild d sz _, s' => Image L f d sz s' ∧ d.pages + s'.total = s.total ∧ s'.dropped = s.dropped

/-- A string is copied to where there is no page table, through the caller's word at address 0. -/
def GoesWild (zero : Pte) (f : ExecFile) (args : List Arg) : Prop :=
  Leads zero ∧ Strays (imageSize f) args (imageSize f)

structure ExecSpec (L : Layout) (zero : Pte) (f : ExecFile) (argv : Argv) (s : Kmem)
    (r : ExecRun) (s' : Kmem) : Prop where
  loaded : ∀ v ∈ r.loaded, v < UPAGES
  data : ∀ p, p ∉ s.total → s'.data p = s.data p
  size : ∀ sz, r.stack = some sz → sz = imageSize f
  stays : StaysOnStack argv r ↔ ∀ sz, r.stack = some sz → ¬ Skips sz argv.args sz
  ends : Ended L f s r.ends s'
  wild : ∀ d sz sp, r.ends = .wild d sz sp → GoesWild zero f argv.args
  hole : ∀ sz a, r.stack = some sz → argv.args = [a] → NoTable (pushStr sz a.len) →
    Leads zero → ∃ d, r.ends = .wild d sz (pushStr sz a.len)
  args : ∀ d sz sp, r.ends = .commit d sz sp → Encodes d s' sz sp argv.args

theorem spec_of_none (hws : ∀ v ∈ ws, v < UPAGES) (htotal : s'.total = s₀.total)
    (hdata : ∀ p, p ∉ s₀.total → s'.data p = s₀.data p)
    (hdrop : Forgets (ExecLeaks f s₀.free.length) s₀ s') :
    ExecSpec L zero f argv s₀ ⟨.fail, none, ws, [], false⟩ s' := by
  refine ⟨hws, hdata, fun sz hsz => ?_,
    ⟨fun _ sz hsz => ?_, fun _ => ⟨fun sz hsz => ?_, rfl, fun sz hsz => ?_⟩⟩,
    ⟨htotal, hdrop⟩, fun _ _ _ hw => ?_, fun sz a hsz => ?_, fun _ _ _ hc => ?_⟩
  · cases hsz
  · cases hsz
  · cases hsz
  · cases hsz
  · cases hw
  · cases hsz
  · cases hc

theorem Whole.wp_freevm {Q : Unit → Kmem → Prop} (h : Whole L d s)
    (hpages : d.pages + s.total = s₀.total)
    (hdata : ∀ p, p ∉ s₀.total → s.data p = s₀.data p)
    (hQ : ∀ s', s'.total = s₀.total → s'.dropped = s.dropped →
      (∀ p, p ∉ s₀.total → s'.data p = s₀.data p) → Q () s') : wp (freevm L d) Q E s := by
  refine Vm.wp_freevm h.wf h.contig (fun p hp => h.own.pages_ram hp) fun s' htotal hdrop hd _ => ?_
  refine hQ s' (by rw [htotal, add_comm, hpages]) hdrop fun p hp => ?_
  rw [hd p (fun hmem => hp (hpages ▸ Multiset.mem_add.mpr (.inl hmem)))]
  exact hdata p hp

theorem spec_of_stack {ws wrote : List ℕ} {ends : ExecEnd}
    {looked : Bool} (hws : ∀ v ∈ ws, v < UPAGES)
    (hsize : (g + 2) * PGSIZE = imageSize f)
    (hdata : ∀ p, p ∉ s₀.total → s'.data p = s₀.data p) (hends : Ended L f s₀ ends s')
    (hwild : ∀ d sz sp, ends = .wild d sz sp → GoesWild zero f argv.args)
    (hhole : ∀ a, argv.args = [a] → NoTable (pushStr ((g + 2) * PGSIZE) a.len) → Leads zero →
      ∃ d, ends = .wild d ((g + 2) * PGSIZE) (pushStr ((g + 2) * PGSIZE) a.len))
    (hargs : ∀ d sz sp, ends = .commit d sz sp → Encodes d s' sz sp argv.args)
    (hstays : StaysOnStack argv ⟨ends, some ((g + 2) * PGSIZE), ws, wrote, looked⟩ ↔
      ¬ Skips ((g + 2) * PGSIZE) argv.args ((g + 2) * PGSIZE)) :
    ExecSpec L zero f argv s₀ ⟨ends, some ((g + 2) * PGSIZE), ws, wrote, looked⟩ s' := by
  refine ⟨hws, hdata, fun sz hsz => ?_,
    hstays.trans ⟨fun hns sz hsz => ?_, fun hns => hns _ rfl⟩, hends, hwild,
    fun sz a hsz => ?_, hargs⟩
  · cases hsz
    exact hsize
  · cases hsz
    exact hns
  · cases hsz
    exact hhole a

theorem skips_of_noTable {args : List Arg} {a : Arg} {sz : ℕ} (hargs : args = [a])
    (h : NoTable (pushStr sz a.len)) : Skips sz args sz := by
  rw [hargs]
  exact .inr (.inl h)

/-- The end of `execStack`, behind `clearpteu`. -/
def stackEnd (L : Layout) (zero : Pte) (args : List Arg) (d : Pgdir) (sz : ℕ) (ws : List ℕ) :
    M ExecRun := do
  let (res, sp, wrote) ← buildStack d sz args
  if res = .ok then pure ⟨.commit d sz sp, some sz, ws, wrote, false⟩
  else if res = .wild ∧ Leads zero then
    pure ⟨.wild d sz sp, some sz, ws, wrote, true⟩
  else do
    freevm L d
    pure ⟨.fail, some sz, ws, wrote, res = .wild⟩

theorem Stacked.wp_args (h : Stacked L d g s (ExecFile.image f))
    (hpages : d.pages + s.total = s₀.total) (hdata : ∀ p, p ∉ s₀.total → s.data p = s₀.data p)
    (hdrop : s.dropped = s₀.dropped) (hws : ∀ v ∈ ws, v < UPAGES)
    (hsize : (g + 2) * PGSIZE = imageSize f) (hmany : ¬ ExecLeaks f s₀.free.length)
    (hQ : ∀ r s', ExecSpec L zero f argv s₀ r s' → r.stack = some ((g + 2) * PGSIZE) → Q r s') :
    wp (stackEnd L zero argv.args d ((g + 2) * PGSIZE) ws) Q E s := by
  have hpage : (g + 1 + 1) * PGSIZE = (g + 2) * PGSIZE := rfl
  have hdata' : ∀ s2, SameFree d (g + 2) s s2 → ∀ p, p ∉ s₀.total → s2.data p = s₀.data p := by
    intro s2 hs2 p hp
    have hnot : p ∉ d.pages := fun hmem => hp (hpages ▸ Multiset.mem_add.mpr (.inl hmem))
    rw [hs2.data p fun x hx heq => hnot (heq ▸ h.mem_pages hx)]
    exact hdata p hp
  have hpages' : ∀ s2, SameFree d (g + 2) s s2 → d.pages + s2.total = s₀.total := by
    intro s2 hs2
    rw [hs2.total]
    exact hpages
  -- an end without a commit frees the directory
  have hfree : ∀ wrote (looked : Bool) s2, SameFree d (g + 2) s s2 →
      (StaysOnStack argv ⟨.fail, some ((g + 2) * PGSIZE), ws, wrote, looked⟩ ↔
        ¬ Skips ((g + 2) * PGSIZE) argv.args ((g + 2) * PGSIZE)) →
      (∀ a, argv.args = [a] → NoTable (pushStr ((g + 2) * PGSIZE) a.len) → ¬ Leads zero) →
      wp (do
        freevm L d
        pure ⟨.fail, some ((g + 2) * PGSIZE), ws, wrote, looked⟩) Q E s2 := by
    intro wrote looked s2 hs2 hst hno
    refine wp_seq (Whole.wp_freevm ⟨h.sized.wf, h.sized.contig, h.own.same hs2⟩
      (hpages' s2 hs2) (hdata' s2 hs2) fun s' ht hd hda => ?_)
    refine hQ _ s' (spec_of_stack hws hsize hda ⟨ht, .inl ⟨hmany, ?_⟩⟩ (fun _ _ _ hw => by cases hw)
      (fun a ha hn hl => absurd hl (hno a ha hn)) (fun _ _ _ hc => by cases hc) hst) rfl
    rw [hd, hs2.dropped, hdrop]
  unfold stackEnd
  refine wp_seq (wp_buildStack h.toGuarded argv.len_lt argv.length_lt
    (fun sp wrote s2 hs2 henc hw hns hf => ?_) (fun sp wrote s2 hs2 hw hns => ?_)
    fun res sp wrote s2 hs2 hsk hres hone => ?_)
  · dsimp only
    rw [if_pos rfl]
    have himage := (h.topOnly hs2).image
    refine hQ _ s2 (spec_of_stack hws hsize (hdata' s2 hs2.1)
      ⟨himage, hpages' s2 hs2.1, hs2.1.dropped.trans hdrop⟩ (fun _ _ _ hw => by cases hw)
      (fun a ha hn => absurd (skips_of_noTable ha hn) hns) (fun _ _ _ hc => ?_) ?_) rfl
    · cases hc
      exact henc
    refine ⟨fun _ => hns, fun _ => ⟨fun sz' hsz v hv => ?_, rfl, fun sz' hsz hnf => ?_⟩⟩
    · cases hsz
      rw [hw v hv]
    · cases hsz
      exact absurd hf hnf
  · dsimp only
    rw [if_neg (by decide), if_neg (fun hwild => by cases hwild.1)]
    refine hfree wrote false s2 hs2 ⟨fun _ => hns, fun _ => ⟨fun sz' hsz v hv => ?_, rfl,
      fun _ _ _ => rfl⟩⟩ fun a ha hn => absurd (skips_of_noTable ha hn) hns
    cases hsz
    rw [hw v hv]
  · dsimp only
    rcases hres with ⟨rfl, htop⟩ | ⟨rfl, v, hv, hne⟩
    · obtain ⟨htop, hstray⟩ := htop
      -- no page table
      have hnot : ∀ ends, StaysOnStack argv ⟨ends, some ((g + 2) * PGSIZE), ws, wrote, true⟩ ↔
          ¬ Skips ((g + 2) * PGSIZE) argv.args ((g + 2) * PGSIZE) := by
        intro ends
        refine ⟨fun hst => ?_, fun hns => absurd hsk hns⟩
        have hlook := hst.looked
        cases hlook
      rw [if_neg (by decide)]
      refine wp_ite (fun hzero => ?_) fun hzero => hfree wrote true s2 hs2 (hnot _)
        fun a _ _ hl => hzero ⟨rfl, hl⟩
      refine hQ _ s2 (spec_of_stack hws hsize (hdata' s2 hs2)
        ⟨(h.topOnly htop).image, hpages' s2 hs2, hs2.dropped.trans hdrop⟩
        (fun _ _ _ _ => ⟨hzero.2, hsize ▸ hstray⟩)
        (fun a ha hn _ => ?_) (fun _ _ _ hc => by cases hc) (hnot _)) rfl
      · rw [(hone a ha hn).2]
        exact ⟨d, rfl⟩
    · -- a page of the program
      rw [if_neg (by decide), if_neg (fun hwild => by cases hwild.1)]
      refine hfree wrote false s2 hs2 ⟨fun hst => ?_, fun hns => absurd hsk hns⟩ fun a ha hn => by
        cases (hone a ha hn).1
      have hpg := hst.wrote _ rfl v hv
      rw [← hpage] at hpg
      exact absurd (Nat.eq_of_mul_eq_mul_right (by decide) hpg) (by omega)

theorem Loaded.wp_execStack {sz : ℕ} {args : List Arg} (h : Loaded L d sz s mem)
    (hfail : ∀ d1 s1, Whole L d1 s1 → Kept d s d1 s1 →
      ¬ (s.Room d 2 ∧ (npages sz + 2) * PGSIZE < KERNBASE) →
      wp (do freevm L d1; pure ⟨.fail, none, ws, [], false⟩) Q E s1)
    (hstack : ∀ d1 s1, Stacked L d1 (npages sz) s1 mem → Kept d s d1 s1 →
      wp (stackEnd L zero args d1 ((npages sz + 2) * PGSIZE) ws) Q E s1) :
    wp (execStack L zero args d sz ws) Q E s := by
  have hround := pgroundup_eq h.lt.le
  generalize hg : npages sz = g at hround hfail hstack
  have hU := npages_le h.lt.le
  have hsum : (g * PGSIZE + 2 * PGSIZE) % 2 ^ 32 = (g + 2) * PGSIZE := by
    unfold UPAGES at hU
    unfold PGSIZE
    omega
  -- the program as it is when its size is rounded up
  have hloaded : g * PGSIZE < KERNBASE → Loaded L d (g * PGSIZE) s mem := by
    intro hlt
    have hle : sz ≤ g * PGSIZE := by
      have hnot : ¬ g < npages sz := by omega
      rw [lt_npages] at hnot
      omega
    have hsized := h.sized
    have hflags := h.flags
    have hbytes := h.bytes
    rw [hg, ← npages_mul g] at hsized hflags hbytes
    exact ⟨hlt, hsized, h.kern, hflags, h.own, hbytes, fun a ha => h.zero a (by omega)⟩
  have hold : Sized d (npages (g * PGSIZE)) := by
    rw [npages_mul, ← hg]
    exact h.sized
  unfold execStack
  rw [hround, hsum]
  refine wp_seq (wp_allocuvm hold h.own.free_nodup (fun p hp => h.own.upages_ram hp)
    (fun p hp => h.own.free_ram hp) (fun hbig => ?_) (fun hless => ?_) (fun _ _ d1 s1 hr hno => ?_)
    fun hle hnew d1 s1 hgr => ?_)
  · dsimp only
    rw [if_pos rfl]
    exact hfail d s h.whole .refl fun hroom => absurd hroom.2 (Nat.not_lt.mpr hbig)
  · exfalso
    have := Nat.mul_le_mul_right PGSIZE (Nat.le_add_right g 2)
    omega
  · have htwo : npages ((g + 2) * PGSIZE) - npages (g * PGSIZE) = 2 := by
      rw [npages_mul, npages_mul]
      omega
    rw [htwo] at hno
    dsimp only
    rw [if_pos rfl]
    exact hfail d1 s1 ⟨hr.wf, hr.contig, h.own.of_eq hr.pages⟩ hr.kept fun hroom => hno hroom.1
  · have hstk := ((hloaded (hle.trans_lt hnew)).grown hle hnew hgr).stacked
    have hpos : (g + 2) * PGSIZE ≠ 0 := by
      unfold PGSIZE
      omega
    have hguard : ((g + 2) * PGSIZE - 2 * PGSIZE) / PGSIZE = g := by
      unfold PGSIZE
      omega
    dsimp only
    rw [if_neg hpos, hguard]
    have hg2 := hstk.lt_upages
    have htab : d1.tab (g / NPTENTRIES) ≠ none := hstk.sized.low g (by omega)
    have hkept := hgr.kept
    unfold clearpteu
    refine wp_seq (wp_seq (wp_walk_noalloc (fun hno => absurd hno htab) fun _ => ?_))
    exact hstack _ s1 hstk ⟨by rw [pages_clearU (by omega), hkept.pages], hkept.dropped, hkept.data⟩

theorem wp_execStack {sz : ℕ} (h : Loaded L d sz s (ExecFile.image f))
    (hsize : (npages sz + 2) * PGSIZE = imageSize f) (hpages : d.pages + s.total = s₀.total)
    (hdata : ∀ p, p ∉ s₀.total → s.data p = s₀.data p) (hdrop : s.dropped = s₀.dropped)
    (hws : ∀ v ∈ ws, v < UPAGES) (hmany : ¬ ExecLeaks f s₀.free.length)
    (hQ : ∀ r s', ExecSpec L zero f argv s₀ r s' →
      (s.Room d 2 → (npages sz + 2) * PGSIZE < KERNBASE →
        r.stack = some ((npages sz + 2) * PGSIZE)) → Q r s') :
    wp (execStack L zero argv.args d sz ws) Q E s := by
  have hdata1 : ∀ d1 s1, Kept d s d1 s1 → ∀ p, p ∉ s₀.total → s1.data p = s₀.data p := by
    intro d1 s1 hk p hp
    rw [← hdata p hp]
    rw [← hpages, Multiset.mem_add, not_or] at hp
    exact hk.data p hp.2 hp.1
  refine h.wp_execStack (fun d1 s1 hw hk hno => ?_) fun d1 s1 hstk hk => ?_
  · refine wp_seq (hw.wp_freevm (hk.pages.trans hpages) (hdata1 d1 s1 hk) fun s' ht hd hda => ?_)
    exact hQ _ s' (spec_of_none hws ht hda (.inl ⟨hmany, hd.trans (hk.dropped.trans hdrop)⟩))
      fun hr hlt => absurd ⟨hr, hlt⟩ hno
  · exact hstk.wp_args (hk.pages.trans hpages) (hdata1 d1 s1 hk) (hk.dropped.trans hdrop) hws
      hsize hmany fun r s' hspec hst => hQ r s' hspec fun _ _ => hst

theorem loaded_setUp (hnodup : s.total.Nodup) (hram : ∀ p ∈ s.total, L.Ram p)
    (h : SetUp L s d s') : Loaded L d 0 s' fun _ => 0 where
  lt := by decide
  sized := h.sized
  kern := h.kern
  flags := fun x hx => absurd hx (by unfold npages PGSIZE; omega)
  own := ⟨by rw [h.pages]; exact hnodup, by rw [h.pages]; exact hram⟩
  bytes := fun x hx => absurd hx (by unfold npages PGSIZE; omega)
  zero := fun _ _ => rfl

theorem wp_exec (hnodup : s.total.Nodup) (hram : ∀ p ∈ s.total, L.Ram p)
    (hQ : ∀ r s', ExecSpec L zero f argv s r s' → Q r s') : wp (exec L zero f argv.args) Q E s := by
  have hnone : ∀ s' ws, (∀ v ∈ ws, v < UPAGES) → s'.total = s.total →
      (∀ p, p ∉ s.total → s'.data p = s.data p) →
      Forgets (ExecLeaks f s.free.length) s s' → Q ⟨.fail, none, ws, [], false⟩ s' := by
    intro s' ws hws htotal hdata hdrop
    exact hQ _ s' (spec_of_none hws htotal hdata hdrop)
  have hnil : ∀ v ∈ ([] : List ℕ), v < UPAGES := by
    intro v hv
    cases hv
  have hsame : ¬ ExecLeaks f s.free.length → Q ⟨.fail, none, [], [], false⟩ s := fun hno =>
    hnone s [] hnil rfl (fun _ _ => rfl) (.inl ⟨hno, rfl⟩)
  have hshort : (f.readi 0 52).any (· < 52) ↔ f.size < 52 := by
    unfold ExecFile.readi
    rw [if_neg (by omega)]
    split
    · simp
    · simp only [Option.any_some, decide_eq_true_eq]
      omega
  unfold exec
  refine wp_ite (fun hlt => hsame fun h => ?_) fun hlong => wp_ite (fun hne => hsame fun h => ?_)
    fun hmagic => ?_
  · exact absurd (hshort.mp hlt) (Nat.not_lt.mpr h.1)
  · exact hne h.2.1
  refine wp_seq (wp_setupkvm (fun hnil => hsame fun h => ?_) (fun s' ht hd hdrop _ hpos hlt => ?_)
    fun d s1 hset => ?_)
  · have hpos := h.2.2.1
    rw [hnil] at hpos
    exact absurd hpos (lt_irrefl 0)
  · exact hnone s' [] hnil ht (fun p _ => by rw [hd])
      (.inr ⟨⟨Nat.not_lt.mp (mt hshort.mpr hlong), not_not.mp hmagic, hpos, hlt⟩, hdrop⟩)
  · have hmany : ¬ ExecLeaks f s.free.length := fun h => by
      have hlt := h.2.2.2
      have hcount := hset.count
      omega
    have hload := loaded_setUp hnodup hram hset
    have hdata : ∀ d' s', Kept d s1 d' s' → ∀ p, p ∉ s.total → s'.data p = s.data p := by
      intro d' s' hk p hp
      rw [← hset.pages, Multiset.mem_add, not_or] at hp
      rw [hk.data p hp.2 hp.1, hset.data]
    refine wp_seq (wp_loadSegments hload hnil (fun d' s' ws hw hk hws => ?_)
      fun d' s' ws hl hk hws => ?_)
    · refine wp_seq (hw.wp_freevm (hk.pages.trans hset.pages) (hdata d' s' hk)
        fun s'' ht hd hda => ?_)
      exact hnone s'' ws hws ht hda (.inl ⟨hmany, hd.trans (hk.dropped.trans hset.dropped)⟩)
    · have himage : Loaded L d' (segSize f (f.ushort 44) (f.uint 28) 0) s' (ExecFile.image f) := by
        unfold ExecFile.image
        exact hl
      have hpages := hk.pages.trans hset.pages
      have hdata' := hdata d' s' hk
      have hdrop := hk.dropped.trans hset.dropped
      dsimp only
      exact wp_execStack himage rfl hpages hdata' hdrop hws hmany fun r s'' hspec _ => hQ r s'' hspec

/-! ## Results -/

def zeroPage : ExecFile where
  size := 84
  byte := fun i => [(0, 0x7F), (1, 0x45), (2, 0x4C), (3, 0x46), (28, 52), (44, 1), (52, 1),
    (73, 0x10)].lookup i |>.getD 0

theorem zeroPage_proghdr : zeroPage.proghdr 52 = ⟨1, 0, 0, 0, 4096⟩ := by decide

theorem zeroPage_size : (npages 4096 + 2) * PGSIZE = imageSize zeroPage := by decide

def manyFree : Kmem := ⟨List.range' 300 4096, fun _ _ => 0, []⟩

theorem manyFree_total : manyFree.total = (List.range' 300 4096 : Multiset ℕ) := add_zero _

theorem manyFree_nodup : manyFree.total.Nodup := by
  rw [manyFree_total]
  exact Multiset.coe_nodup.mpr List.nodup_range'

theorem ram_range {n p : ℕ} (hn : n ≤ 20000) (hp : p ∈ List.range' 300 n) : smallKernel.Ram p := by
  rw [List.mem_range'] at hp
  obtain ⟨i, hi, rfl⟩ := hp
  unfold Layout.Ram smallKernel PGSIZE KERNBASE PHYSTOP
  constructor
  · show 2147483648 + 1134592 ≤ (300 + 1 * i) * 4096 + 2147483648
    omega
  · omega

theorem manyFree_ram : ∀ p ∈ manyFree.total, smallKernel.Ram p := by
  intro p hp
  rw [manyFree_total, Multiset.mem_coe] at hp
  exact ram_range (by omega) hp

theorem card_tpages_le : Multiset.card d.tpages ≤ NPDENTRIES := by
  unfold tpages
  rw [Multiset.card_sum, ← card_pdes, card_eq_sum_ones]
  refine sum_le_sum fun i _ => ?_
  unfold tpage
  cases d.tab i with
  | none => exact Nat.zero_le 1
  | some p => exact le_rfl

theorem card_upages_le (h : Sized d n) : Multiset.card d.upages ≤ n := by
  unfold upages
  rw [Multiset.card_sum]
  have hle : ∀ v ∈ vpns, Multiset.card (page1 (d.pte v)) ≤ if v < n then 1 else 0 := by
    intro v hv
    by_cases hvn : v < n
    · rw [if_pos hvn]
      unfold page1
      split
      · exact le_rfl
      · exact Nat.zero_le 1
    · rw [page1_of_absent (h.above v (by omega) (mem_vpns.mp hv))]
      exact Nat.zero_le _
  refine (sum_le_sum hle).trans ?_
  rw [← card_filter]
  have hsub : vpns.filter (· < n) ⊆ Finset.range n := by
    intro v hv
    exact mem_range.mpr (mem_filter.mp hv).2
  exact (card_le_card hsub).trans (card_range n).le

theorem card_pages_le (h : Sized d n) : Multiset.card d.pages ≤ n + 1025 := by
  have hup := card_upages_le h
  have htab := card_tpages_le (d := d)
  unfold NPDENTRIES at htab
  simp only [pages, Multiset.card_add, Multiset.card_singleton]
  omega

theorem free_length_le (h : Sized d n) (hpages : d.pages + s'.total = s.total)
    (hdrop : s'.dropped = s.dropped) : s.free.length ≤ s'.free.length + (n + 1025) := by
  have hcard := congrArg Multiset.card hpages
  have hle := card_pages_le h
  simp only [Kmem.total, hdrop, Multiset.card_add, Multiset.coe_card] at hcard
  omega

theorem room_of_length (h : n + 1024 ≤ s.free.length) : s.Room d n := by
  have hmiss := missing_le (d := d)
  unfold NPDENTRIES at hmiss
  unfold Kmem.Room
  omega

theorem Loaded.allocuvm_ok {old new : ℕ} (h : Loaded L d old s mem) (hle : old ≤ new)
    (hlt : new < KERNBASE) (hroom : npages new + 1024 ≤ s.free.length) :
    ∃ d' s', allocuvm L d old new s = .ok (d', new) s' ∧
      Grown d (npages old) (npages new) s d' s' := by
  have hwp : wp (allocuvm L d old new) (fun r s' => ∃ d', r = (d', new) ∧
      Grown d (npages old) (npages new) s d' s') (fun _ _ => False) s := by
    refine wp_allocuvm h.sized h.own.free_nodup (fun p hp => h.own.upages_ram hp)
      (fun p hp => h.own.free_ram hp) (fun hbig => absurd hbig (Nat.not_le.mpr hlt))
      (fun hless => absurd hless (Nat.not_lt.mpr hle))
      (fun _ _ d1 s1 _ hno => absurd (room_of_length (by omega)) hno)
      fun _ _ d1 s1 hg => ⟨d1, rfl, hg⟩
  obtain ⟨r, s', hrun, d', rfl, hg⟩ := exists_ok hwp
  exact ⟨d', s', hrun, hg⟩

/-- `exec` of `zeroPage` comes to building the stack in a state that does not depend on the
    arguments. -/
theorem exec_zeroPage_eq (hnodup : s.total.Nodup) (hram : ∀ p ∈ s.total, L.Ram p)
    (hfree : 4000 ≤ s.free.length) : ∃ d s', Stacked L d 1 s' (ExecFile.image zeroPage) ∧
      d.pages + s'.total = s.total ∧ (∀ p, p ∉ s.total → s'.data p = s.data p) ∧
      s'.dropped = s.dropped ∧
      ∀ zero args, exec L zero zeroPage args s = stackEnd L zero args d 12288 [] s' := by
  have hone : npages 4096 = 1 := by decide
  have himage : ExecFile.image zeroPage = fun _ => 0 := by
    unfold ExecFile.image
    rw [show zeroPage.ushort 44 = 1 by decide, show zeroPage.uint 28 = 52 by decide]
    unfold segImage segImage
    rw [zeroPage_proghdr]
    exact overlay_of_le le_rfl
  have hsetup : wp (setupkvm L) (fun r s1 => ∃ d, r = some d ∧ SetUp L s d s1) (fun _ _ => False)
      s := by
    refine wp_setupkvm (fun hnil => ?_) (fun s' _ _ _ _ _ hlt => ?_) fun d s1 hset => ⟨d, rfl, hset⟩
    · rw [hnil] at hfree
      exact absurd hfree (by decide)
    · unfold KPAGES at hlt
      omega
  obtain ⟨-, s1, hrun1, d0, rfl, hset⟩ := exists_ok hsetup
  have hlen := free_length_le hset.sized hset.pages hset.dropped
  have hload := loaded_setUp hnodup hram hset
  -- the page of the program, then the guard page and the stack page
  obtain ⟨d1, s2, hrun2, hg1⟩ := hload.allocuvm_ok (by decide) (show 4096 < KERNBASE by decide)
    (by rw [hone]; omega)
  have hload1 := hload.grown (by decide) (by decide) hg1
  have hpages1 := hg1.pages.trans hset.pages
  have hlen1 := free_length_le hload1.sized hpages1 (hg1.dropped.trans hset.dropped)
  obtain ⟨d2, s3, hrun3, hg2⟩ := hload1.allocuvm_ok (by decide) (show 12288 < KERNBASE by decide)
    (by rw [hone] at hlen1; rw [show npages 12288 = 3 by decide]; omega)
  have hload2 := hload1.grown (by decide) (by decide) hg2
  have hseg : loadSegments L zeroPage 1 52 d0 0 [] s1 = .ok (d1, some 4096, []) s2 := by
    unfold loadSegments
    rw [if_neg (by decide), zeroPage_proghdr]
    exact bind_of_ok hrun2
  have htab := hload2.sized.low 1 (by decide)
  have hclear : clearpteu d2 1 s3 = .ok (d2.setPte 1 { d2.pte 1 with u := false }) s3 := by
    refine bind_of_ok (a := some d2) ?_
    rw [walkpgdir, if_pos (Option.isSome_iff_ne_none.mpr htab)]
    rfl
  rw [himage]
  refine ⟨_, s3, Loaded.stacked (g := 1) hload2, ?_, fun p hp => ?_,
    hg2.dropped.trans (hg1.dropped.trans hset.dropped), fun zero args => ?_⟩
  · rw [pages_clearU (by decide), hg2.pages, hpages1]
  · have hp1 := hp
    rw [← hset.pages, Multiset.mem_add, not_or] at hp
    rw [← hpages1, Multiset.mem_add, not_or] at hp1
    rw [hg2.kept.data p hp1.2 hp1.1, hg1.kept.data p hp.2 hp.1, hset.data]
  · unfold exec
    rw [if_neg (by decide), if_neg (by decide), bind_of_ok hrun1]
    dsimp only
    rw [show zeroPage.ushort 44 = 1 by decide, show zeroPage.uint 28 = 52 by decide,
      bind_of_ok hseg]
    show execStack L zero args d1 4096 [] s2 = _
    unfold execStack
    rw [show pgroundup 4096 = 4096 by decide,
      show (4096 + 2 * PGSIZE) % 2 ^ 32 = 12288 by decide, bind_of_ok hrun3]
    exact bind_of_ok hclear

theorem wp_exec_zeroPage
    (hnodup : s.total.Nodup) (hram : ∀ p ∈ s.total, L.Ram p) (hfree : 4096 ≤ s.free.length)
    (hQ : ∀ r s', ExecSpec L zero zeroPage argv s r s' → r.stack = some 12288 → Q r s') :
    wp (exec L zero zeroPage argv.args) Q E s := by
  obtain ⟨d, s', hst, hpages, hdata, hdrop, hexec⟩ := exec_zeroPage_eq hnodup hram (by omega)
  have hargs : wp (stackEnd L zero argv.args d 12288 []) Q E s' :=
    hst.wp_args hpages hdata hdrop (fun v hv => by cases hv) zeroPage_size
      (fun hleaks => absurd hleaks.2.2.2 (Nat.not_lt.mpr (le_trans (by decide) hfree))) hQ
  unfold wp at hargs ⊢
  rw [hexec]
  exact hargs

end Vm

end Xv6
