/-
  Xv6.Vm.Load

  Loading the segments of a program (loaduvm, the first half of exec).
-/

import Xv6.Vm.Exec

namespace Xv6

open Function Wp Multiset ExecFile

theorem ExecFile.ushort_lt (f : ExecFile) (i : ℕ) : f.ushort i < 2 ^ 16 := by
  have h0 := (f.byte i).toNat_lt
  have h1 := (f.byte (i + 1)).toNat_lt
  unfold ushort
  omega

theorem ExecFile.uint_lt (f : ExecFile) (i : ℕ) : f.uint i < 2 ^ 32 := by
  have h0 := f.ushort_lt i
  have h1 := f.ushort_lt (i + 2)
  unfold uint
  omega

namespace Vm

variable {L : Layout} {d d' : Pgdir} {s s' : Kmem} {E : String → Kmem → Prop} {f : ExecFile}
  {mem : ℕ → UInt8}
variable {n v o addr sz w : ℕ} {Q : Bool × List ℕ → Kmem → Prop} {ws : List ℕ}

/-- The first `n` pages hold the bytes `mem`. -/
def Bytes (d : Pgdir) (n : ℕ) (s : Kmem) (mem : ℕ → UInt8) : Prop :=
  ∀ x < n, ∀ i < PGSIZE, s.data (d.pte x).addr i = mem (x * PGSIZE + i)

/-- The bytes `lo` to `hi` of a segment are in memory. -/
def overlay (f : ExecFile) (offset addr lo hi : ℕ) (mem : ℕ → UInt8) (a : ℕ) : UInt8 :=
  if addr + lo ≤ a ∧ a < addr + hi then f.byte (offset + (a - addr)) else mem a

/-- The size that the segments give the image, if memory suffices. -/
def segSize (f : ExecFile) : ℕ → ℕ → ℕ → ℕ
  | 0, _, sz => sz
  | k + 1, off, sz => segSize f k ((off + 32) % 2 ^ 32)
      (if (f.proghdr off).type ≠ 1 then sz
        else max sz ((f.proghdr off).vaddr + (f.proghdr off).memsz))

def segImage (f : ExecFile) : ℕ → ℕ → (ℕ → UInt8) → ℕ → UInt8
  | 0, _, mem => mem
  | k + 1, off, mem =>
    let ph := f.proghdr off
    if ph.type ≠ 1 then segImage f k ((off + 32) % 2 ^ 32) mem
    else segImage f k ((off + 32) % 2 ^ 32) (overlay f ph.off ph.vaddr 0 ph.filesz mem)

/-! ## loaduvm -/

theorem readi_bounds {off c : ℕ} (h : f.readi off n = some c) (hoff : off < 2 ^ 32)
    (hn : n ≤ PGSIZE) : off + n < 2 ^ 32 ∧ c ≤ n := by
  unfold ExecFile.readi at h
  unfold PGSIZE at hn
  split at h
  · cases h
  · split at h
    · cases h
      omega
    · cases h
      omega

theorem Bytes.store {c : ℕ} (h : Bytes d n s mem) (hv : v < n)
    (hinj : ∀ x < n, (d.pte x).addr = (d.pte v).addr → x = v) (hc : c ≤ PGSIZE)
    {g : ℕ → UInt8} (hg : ∀ i < c, g i = f.byte (o + (v * PGSIZE + i - addr))) {lo : ℕ}
    (hlo : addr + lo = v * PGSIZE) :
    Bytes d n { s with
        data := update s.data (d.pte v).addr fun i =>
          if 0 ≤ i ∧ i < 0 + c then g (i - 0) else s.data (d.pte v).addr i }
      (overlay f o addr lo (lo + c) mem) := by
  intro x hx i hi
  show update s.data (d.pte v).addr _ (d.pte x).addr i = _
  unfold overlay
  by_cases hxv : x = v
  · rw [hxv, update_self]
    by_cases hic : i < c
    · rw [if_pos ⟨Nat.zero_le i, by omega⟩, if_pos (by omega), Nat.sub_zero, hg i hic]
    · rw [if_neg (by omega), if_neg (by omega)]
      exact h v hv i hi
  · have hne : (d.pte x).addr ≠ (d.pte v).addr := fun heq => hxv (hinj x hx heq)
    have hout : ¬ (addr + lo ≤ x * PGSIZE + i ∧ x * PGSIZE + i < addr + (lo + c)) := by
      unfold PGSIZE at hi hc hlo ⊢
      omega
    rw [update_of_ne hne, if_neg hout]
    exact h x hx i hi

theorem overlay_overlay {a b c : ℕ} (hab : a ≤ b) (hbc : b ≤ c) :
    overlay f o addr b c (overlay f o addr a b mem) = overlay f o addr a c mem := by
  funext x
  unfold overlay
  by_cases h1 : addr + b ≤ x ∧ x < addr + c
  · rw [if_pos h1, if_pos (by omega)]
  · rw [if_neg h1]
    by_cases h2 : addr + a ≤ x ∧ x < addr + b
    · rw [if_pos h2, if_pos (by omega)]
    · rw [if_neg h2, if_neg (by omega)]

theorem overlay_of_le {a b : ℕ} (h : b ≤ a) : overlay f o addr a b mem = mem := by
  funext x
  rw [overlay, if_neg (by omega)]

structure SameFree (d : Pgdir) (n : ℕ) (s s' : Kmem) : Prop where
  free : s'.free = s.free
  dropped : s'.dropped = s.dropped
  data : ∀ p, (∀ x < n, (d.pte x).addr ≠ p) → s'.data p = s.data p

theorem SameFree.refl : SameFree d n s s := ⟨rfl, rfl, fun _ _ => rfl⟩

theorem SameFree.total (h : SameFree d n s s') : s'.total = s.total := by
  rw [Kmem.total, Kmem.total, h.free, h.dropped]

theorem SameFree.trans {t : Kmem} (h : SameFree d n s t) (h' : SameFree d n t s') :
    SameFree d n s s' :=
  ⟨h'.free.trans h.free, h'.dropped.trans h.dropped, fun p hp => (h'.data p hp).trans (h.data p hp)⟩

theorem SameFree.store (hv : v < n) (g : ℕ → UInt8) :
    SameFree d n s { s with data := update s.data (d.pte v).addr g } :=
  ⟨rfl, rfl, fun _ hp => update_of_ne (hp v hv).symm _ _⟩

theorem wp_loadLoop {offset k j : ℕ}
    (haddr : addr % PGSIZE = 0) (hn : addr / PGSIZE + npages sz ≤ n) (hj : j + k = npages sz)
    (htab : ∀ x < n, d.tab (x / NPTENTRIES) ≠ none)
    (hinj : ∀ x < n, ∀ y < n, (d.pte x).addr = (d.pte y).addr → x = y)
    (hbytes : Bytes d n s mem) (hoff : 0 < k → offset + j * PGSIZE < 2 ^ 32)
    (hws : ∀ v ∈ ws, v < UPAGES) (hU : n ≤ UPAGES)
    (hfail : ∀ s' ws', SameFree d n s s' → (∀ v ∈ ws', v < UPAGES) → Q (false, ws') s')
    (hok : ∀ s' ws', SameFree d n s s' → (∀ v ∈ ws', v < UPAGES) →
      Bytes d n s' (overlay f offset addr (j * PGSIZE) sz mem) → Q (true, ws') s') :
    wp (loadLoop d f addr offset sz k j ws) Q E s := by
  -- on the number of pages still to load
  induction k generalizing j s mem ws with
  | zero =>
    refine hok s ws .refl hws ?_
    have hle : sz ≤ j * PGSIZE := by
      have hnot : ¬ j < npages sz := by omega
      rw [lt_npages] at hnot
      omega
    rw [overlay_of_le hle]
    exact hbytes
  | succ k ih =>
    have hjlt : j * PGSIZE < sz := lt_npages.mp (by omega)
    have hv : addr / PGSIZE + j < n := by omega
    have hoff' := hoff (Nat.succ_pos k)
    rw [loadLoop]
    refine wp_seq (wp_walk_noalloc (fun hnone => absurd hnone (htab _ hv)) fun _ => ?_)
    dsimp only
    rw [Nat.mod_eq_of_lt hoff']
    generalize hsize : (if sz - j * PGSIZE < PGSIZE then sz - j * PGSIZE else PGSIZE) = m
    have hm : m ≤ PGSIZE ∧ m ≤ sz - j * PGSIZE ∧ (m = PGSIZE ∨ m = sz - j * PGSIZE) := by
      split at hsize
      · omega
      · omega
    cases hread : f.readi (offset + j * PGSIZE) m with
    | none => exact hfail s ws .refl hws
    | some c =>
      obtain ⟨hlt, hc⟩ := readi_bounds hread hoff' hm.1
      refine wp_write ?_
      have hpage : addr + j * PGSIZE = (addr / PGSIZE + j) * PGSIZE := by
        unfold PGSIZE at haddr ⊢
        omega
      have hj1 : (j + 1) * PGSIZE = j * PGSIZE + PGSIZE := by
        unfold PGSIZE
        omega
      have hfile : ∀ i < c, f.byte (offset + j * PGSIZE + i) =
          f.byte (offset + ((addr / PGSIZE + j) * PGSIZE + i - addr)) := by
        intro i _
        congr 1
        omega
      have hstored := hbytes.store hv (fun x hx heq => hinj x hx _ hv heq) (by omega) hfile hpage
      have hsame := SameFree.store (d := d) (s := s) hv fun i =>
        if 0 ≤ i ∧ i < 0 + c then f.byte (offset + j * PGSIZE + (i - 0))
        else s.data (d.pte (addr / PGSIZE + j)).addr i
      have hws' : ∀ v ∈ (addr / PGSIZE + j) :: ws, v < UPAGES := by
        intro v hv'
        rcases List.mem_cons.mp hv' with rfl | hv'
        · omega
        · exact hws v hv'
      refine wp_ite (fun hcm => ?_) fun _ => hfail _ _ hsame hws'
      subst hcm
      refine ih (by omega) hstored (fun hk => ?_) hws' (fun s' ws' h hw =>
        hfail s' ws' (hsame.trans h) hw) fun s' ws' h hw hb => hok s' ws' (hsame.trans h) hw ?_
      · -- there is a further page, so this one was read whole
        have hmore : (j + 1) * PGSIZE < sz := lt_npages.mp (by omega)
        have hfull : c = PGSIZE := by omega
        calc offset + (j + 1) * PGSIZE = offset + j * PGSIZE + c := by rw [hj1, hfull]; ring
          _ < 2 ^ 32 := hlt
      · rcases hm.2.2 with hfull | hlast
        · have hj1' : (j + 1) * PGSIZE = j * PGSIZE + c := by omega
          rw [hj1', overlay_overlay (by omega) (by omega)] at hb
          exact hb
        · have hlast' : j * PGSIZE + c = sz := by omega
          rw [hlast', overlay_of_le (by omega)] at hb
          exact hb

/-! ## The program headers -/

structure Loaded (L : Layout) (d : Pgdir) (sz : ℕ) (s : Kmem) (mem : ℕ → UInt8) : Prop where
  lt : sz < KERNBASE
  sized : Sized d (npages sz)
  kern : Kern L d
  flags : ∀ x < npages sz, (d.pte x).p = true ∧ (d.pte x).w = true ∧ (d.pte x).u = true
  own : Owned L d s
  bytes : Bytes d (npages sz) s mem
  zero : ∀ a, sz ≤ a → mem a = 0

theorem Kern.congr (h : Kern L d) (hpte : ∀ x, UPAGES ≤ x → d'.pte x = d.pte x)
    (htab : ∀ i, 512 ≤ i → (d'.tab i ≠ none ↔ d.tab i ≠ none)) : Kern L d' where
  pte := fun x hlo hhi => by
    rw [hpte x hlo]
    exact h.pte x hlo hhi
  tab := fun i hlo hhi => by
    rw [htab i hlo]
    exact h.tab i hlo hhi

theorem Kern.grown (h : Kern L d) (hw : w ≤ UPAGES) (hg : Grown d v w s d' s') : Kern L d' := by
  refine h.congr (fun x hx => hg.pte x (by omega)) fun i hi => ?_
  rw [hg.tab]
  refine ⟨?_, .inl⟩
  rintro (htab | ⟨x, -, hxw, rfl⟩)
  · exact htab
  · unfold UPAGES at hw
    unfold NPTENTRIES at hi
    omega

theorem Loaded.grown {newsz : ℕ} (h : Loaded L d sz s mem) (hle : sz ≤ newsz)
    (hnew : newsz < KERNBASE) (hg : Grown d (npages sz) (npages newsz) s d' s') :
    Loaded L d' newsz s' mem := by
  have hmono := npages_mono hle
  have hU := npages_le hnew.le
  have hsized := hg.sized
  rw [max_eq_right hmono] at hsized
  refine ⟨hnew, hsized, h.kern.grown hU hg, fun x hx => ?_, h.own.of_eq hg.pages,
    fun x hx i hi => ?_, fun a ha => h.zero a (by omega)⟩
  · by_cases hin : npages sz ≤ x
    · obtain ⟨a, -, ha, -⟩ := hg.fresh x hin hx
      rw [ha]
      exact ⟨rfl, rfl, rfl⟩
    · rw [hg.pte x (by omega)]
      exact h.flags x (by omega)
  · by_cases hin : npages sz ≤ x
    · obtain ⟨a, -, ha, -, hzero⟩ := hg.fresh x hin hx
      have hsz : sz ≤ x * PGSIZE + i := by
        have hnot : ¬ x < npages sz := by omega
        rw [lt_npages] at hnot
        omega
      rw [ha, h.zero _ hsz]
      exact congrFun hzero i
    · have hx' : x < npages sz := by omega
      have hmem : (d.pte x).addr ∈ d.pages :=
        Pgdir.mem_pages.mpr (.inr (.inr (Pgdir.mem_upages (h.flags x hx').1 (by omega))))
      rw [hg.pte x (by omega), hg.data _ (h.own.not_free hmem)]
      exact h.bytes x hx' i hi

structure Whole (L : Layout) (d : Pgdir) (s : Kmem) : Prop where
  wf : d.WF
  contig : Contig d
  own : Owned L d s

theorem Loaded.whole (h : Loaded L d sz s mem) : Whole L d s :=
  ⟨h.sized.wf, h.sized.contig, h.own⟩

theorem Owned.same (h : Owned L d s) (hs : SameFree d n s s') : Owned L d s' :=
  h.of_eq (by rw [hs.total])

theorem Loaded.wp_loaduvm {offset : ℕ}
    (h : Loaded L d sz s mem) (haddr : addr % PGSIZE = 0) (hn : addr + n ≤ sz)
    (hoff : offset < 2 ^ 32) (hws : ∀ v ∈ ws, v < UPAGES)
    (hfail : ∀ s' ws', SameFree d (npages sz) s s' → (∀ v ∈ ws', v < UPAGES) → Q (false, ws') s')
    (hok : ∀ s' ws', SameFree d (npages sz) s s' → (∀ v ∈ ws', v < UPAGES) →
      Loaded L d sz s' (overlay f offset addr 0 n mem) → Q (true, ws') s') :
    wp (loaduvm d addr f offset n ws) Q E s := by
  have hU := npages_le h.lt.le
  rw [loaduvm, if_neg (not_not.mpr haddr)]
  refine wp_loadLoop haddr (n := npages sz) ?_ (Nat.zero_add _) h.sized.low ?_ h.bytes ?_ hws hU
    hfail fun s' ws' hs hw hb => hok s' ws' hs hw ?_
  · unfold npages PGSIZE
    unfold PGSIZE at haddr
    omega
  · intro x hx y hy heq
    exact h.own.inj (by omega) (by omega) (h.flags x hx).1 (h.flags y hy).1 heq
  · intro _
    rw [Nat.zero_mul, Nat.add_zero]
    exact hoff
  · rw [Nat.zero_mul] at hb
    refine { h with own := h.own.same hs, bytes := hb, zero := fun a ha => ?_ }
    rw [overlay, if_neg (by omega)]
    exact h.zero a ha

structure Kept (d : Pgdir) (s : Kmem) (d' : Pgdir) (s' : Kmem) : Prop where
  pages : d'.pages + s'.total = d.pages + s.total
  dropped : s'.dropped = s.dropped
  data : ∀ p, p ∉ s.total → p ∉ d.pages → s'.data p = s.data p

theorem Kept.refl : Kept d s d s := ⟨rfl, rfl, fun _ _ _ => rfl⟩

theorem Kept.trans {d1 : Pgdir} {s1 : Kmem} (h : Kept d s d1 s1) (h' : Kept d1 s1 d' s') :
    Kept d s d' s' where
  pages := h'.pages.trans h.pages
  dropped := h'.dropped.trans h.dropped
  data := by
    intro p hs hd
    have hsum : p ∉ d1.pages + s1.total := by
      rw [h.pages, mem_add]
      exact not_or.mpr ⟨hd, hs⟩
    rw [mem_add, not_or] at hsum
    rw [h'.data p hsum.2 hsum.1]
    exact h.data p hs hd

theorem mem_total_of_free {p : ℕ} (h : p ∈ s.free) : p ∈ s.total :=
  mem_add.mpr (.inl (mem_coe.mpr h))

theorem Grown.kept (h : Grown d v w s d' s') : Kept d s d' s' :=
  ⟨h.pages, h.dropped, fun p hs _ => h.data p (mt mem_total_of_free hs)⟩

theorem Rolled.kept (h : Rolled d v v w s d' s') : Kept d s d' s' :=
  ⟨h.pages, h.dropped, fun p hs _ => h.data p (mt mem_total_of_free hs) fun x hlo hhi => by omega⟩

theorem SameFree.kept (h : SameFree d n s s')
    (hpages : ∀ x < n, (d.pte x).addr ∈ d.pages) : Kept d s d s' where
  pages := by rw [h.total]
  dropped := h.dropped
  data := fun p _ hd => h.data p fun x hx heq => hd (heq ▸ hpages x hx)

theorem Loaded.mem_pages {x : ℕ} (h : Loaded L d sz s mem) (hx : x < npages sz) :
    (d.pte x).addr ∈ d.pages := by
  have hU := npages_le h.lt.le
  exact Pgdir.mem_pages.mpr (.inr (.inr (Pgdir.mem_upages (h.flags x hx).1 (by omega))))

theorem wp_loadSegments {Q : Pgdir × Option ℕ × List ℕ → Kmem → Prop} {k off : ℕ}
    (h : Loaded L d sz s mem) (hws : ∀ v ∈ ws, v < UPAGES)
    (hfail : ∀ d' s' ws', Whole L d' s' → Kept d s d' s' → (∀ v ∈ ws', v < UPAGES) →
      Q (d', none, ws') s')
    (hok : ∀ d' s' ws', Loaded L d' (segSize f k off sz) s' (segImage f k off mem) →
      Kept d s d' s' → (∀ v ∈ ws', v < UPAGES) → Q (d', some (segSize f k off sz), ws') s') :
    wp (loadSegments L f k off d sz ws) Q E s := by
  -- on the number of headers
  induction k generalizing off d sz s mem ws with
  | zero => exact hok d s ws h .refl hws
  | succ k ih =>
    have hbad : Q (d, none, ws) s := hfail d s ws h.whole .refl hws
    unfold loadSegments
    dsimp only
    refine wp_ite (fun _ => hbad) fun _ => ?_
    by_cases htype : (f.proghdr off).type ≠ 1
    · rw [segSize, segImage, if_pos htype, if_pos htype] at hok
      rw [if_pos htype]
      exact ih h hws hfail hok
    · rw [if_neg htype]
      rw [segSize, segImage, if_neg htype, if_neg htype] at hok
      have hoff : (f.proghdr off).off < 2 ^ 32 := f.uint_lt (off + 4)
      have hvaddr : (f.proghdr off).vaddr < 2 ^ 32 := f.uint_lt (off + 8)
      have hmem32 : (f.proghdr off).memsz < 2 ^ 32 := f.uint_lt (off + 20)
      generalize f.proghdr off = ph at hok hoff hvaddr hmem32 ⊢
      refine wp_ite (fun _ => hbad) fun hmemsz => wp_ite (fun _ => hbad) fun hwrap => ?_
      -- what remains once the memory for the segment is there
      have hrest : ∀ d1 s1 sz1, Loaded L d1 sz1 s1 mem → sz1 = max sz (ph.vaddr + ph.memsz) →
          Kept d s d1 s1 →
          wp (if ph.vaddr % PGSIZE ≠ 0 then pure (d1, none, ws)
            else loaduvm d1 ph.vaddr f ph.off ph.filesz ws >>= fun r =>
              if r.1 then loadSegments L f k ((off + 32) % 2 ^ 32) d1 sz1 r.2
              else pure (d1, none, r.2)) Q E s1 := by
        rintro d1 s1 sz1 h1 rfl hkept
        refine wp_ite (fun _ => hfail d1 s1 ws h1.whole hkept hws) fun halign => ?_
        refine wp_seq (h1.wp_loaduvm (not_not.mp halign) (by omega) hoff hws
          (fun s2 ws' hs2 hws' => ?_) fun s2 ws' hs2 hws' hb => ?_)
        · exact hfail d1 s2 ws' ⟨h1.sized.wf, h1.sized.contig, h1.own.same hs2⟩
            (hkept.trans (hs2.kept fun x hx => h1.mem_pages hx)) hws'
        · have hkept2 := hkept.trans (hs2.kept fun x hx => h1.mem_pages hx)
          refine ih hb hws' (fun d' s' ws'' hw hk => hfail d' s' ws'' hw (hkept2.trans hk))
            fun d' s' ws'' hl hk => hok d' s' ws'' hl (hkept2.trans hk)
      refine wp_seq (wp_allocuvm h.sized h.own.free_nodup (fun p hp => h.own.upages_ram hp)
        (fun p hp => h.own.free_ram hp) (fun _ => ?_) (fun hless => ?_) (fun _ _ d1 s1 hr _ => ?_)
        fun hle hnew d1 s1 hg => ?_)
      · rw [if_pos rfl]
        exact hbad
      · dsimp only
        rw [if_neg (by omega)]
        exact hrest d s sz h (by omega) .refl
      · rw [if_pos rfl]
        exact hfail d1 s1 ws ⟨hr.wf, hr.contig, h.own.of_eq hr.pages⟩ hr.kept hws
      · have h1 := h.grown hle hnew hg
        dsimp only
        refine wp_ite (fun _ => hfail d1 s1 ws h1.whole hg.kept hws) fun _ => ?_
        exact hrest d1 s1 _ h1 (by omega) hg.kept

end Vm

end Xv6
