/-
  Xv6.User.FreeList

  The memory allocator of user programs (umalloc.c) and its free list.

  A block is named by the address of its header.  The headers are kept apart
  from the bytes of the blocks: a program writes only into the blocks it has.
  Addresses and sizes do not wrap, since a program's memory ends below
  `KERNBASE`.

  `Links h F V` says that the blocks of `F` are linked in address order, the
  last one to `base`, and that the blocks of `F` and of `V`, those in use, do
  not overlap.  `free` is an insertion followed by at most two joins of
  neighbours, and each of these steps keeps `Links`.
-/

import Mathlib.Tactic

namespace Xv6

open Function

abbrev HEADER : Nat := 8

structure Heap where
  base : Nat
  ptr : Nat → Nat
  size : Nat → Nat
  freep : Nat
  /-- What `sbrk` has returned, with the number of units. -/
  mem : List (Nat × Nat)

namespace Heap

def setPtr (h : Heap) (p q : Nat) : Heap := { h with ptr := update h.ptr p q }

def setSize (h : Heap) (p n : Nat) : Heap := { h with size := update h.size p n }

/-! ## free -/

def findPlace (h : Heap) (bp : Nat) : Nat → Nat → Option Nat
  | 0, _ => none
  | fuel + 1, p =>
    if p < bp ∧ bp < h.ptr p then some p
    else if h.ptr p ≤ p ∧ (p < bp ∨ bp < h.ptr p) then some p
    else h.findPlace bp fuel (h.ptr p)

def joinUpper (h : Heap) (p bp : Nat) : Heap :=
  if bp + HEADER * h.size bp = h.ptr p then
    (h.setSize bp (h.size bp + h.size (h.ptr p))).setPtr bp (h.ptr (h.ptr p))
  else h.setPtr bp (h.ptr p)

def joinLower (h : Heap) (p bp : Nat) : Heap :=
  if p + HEADER * h.size p = bp then
    (h.setSize p (h.size p + h.size bp)).setPtr p (h.ptr bp)
  else h.setPtr p bp

def freeBlock (fuel : Nat) (h : Heap) (bp : Nat) : Option Heap := do
  let p ← h.findPlace bp fuel h.freep
  pure { (h.joinUpper p bp).joinLower p bp with freep := p }

def free (fuel : Nat) (h : Heap) (ap : Nat) : Option Heap := h.freeBlock fuel (ap - HEADER)

/-! ## malloc -/

def coreUnits (nu : Nat) : Nat := if nu < 4096 then 4096 else nu

/-- `sbrk` has returned `a`, and memory now ends at `top`; where it has not grown, writing the
    header faults. -/
def morecore (fuel : Nat) (h : Heap) (nu a top : Nat) : Option Heap :=
  if top < a + HEADER then none
  else { h.setSize a (coreUnits nu) with mem := (a, coreUnits nu) :: h.mem }.freeBlock fuel a

def nunits (nbytes : Nat) : Nat := (nbytes + HEADER - 1) % 2 ^ 32 / HEADER + 1

def take (h : Heap) (n prevp p : Nat) : Heap × Nat :=
  if h.size p = n then ({ h.setPtr prevp (h.ptr p) with freep := prevp }, p)
  else
    let h' := h.setSize p (h.size p - n)
    let q := p + HEADER * h'.size p
    ({ h'.setSize q n with freep := prevp }, q)

/-- The loop of `malloc`: the heap, and the header of the block or 0.  What
    `sbrk` returns and the end of memory are given by `brk`; it is called at most once. -/
def mallocLoop (n : Nat) : Nat → Heap → Option (Nat × Nat) → Nat → Nat → Option (Heap × Nat)
  | 0, _, _, _, _ => none
  | fuel + 1, h, brk, prevp, p =>
    if n ≤ h.size p then some (h.take n prevp p)
    else if p = h.freep then
      match brk with
      | none => some (h, 0)
      | some (a, top) => do
          let h' ← h.morecore (fuel + 1) n a top
          h'.mallocLoop n fuel none h'.freep (h'.ptr h'.freep)
    else h.mallocLoop n fuel brk p (h.ptr p)

def init (h : Heap) : Heap :=
  if h.freep = 0 then
    { h with ptr := update h.ptr h.base h.base, size := update h.size h.base 0, freep := h.base }
  else h

def malloc (fuel : Nat) (h : Heap) (nbytes : Nat) (brk : Option (Nat × Nat)) :
    Option (Heap × Nat) := do
  let h := h.init
  let r ← h.mallocLoop (nunits nbytes) fuel brk h.freep (h.ptr h.freep)
  pure (r.1, if r.2 = 0 then 0 else r.2 + HEADER)

/-! ## The free list -/

open Finset

def IsNext (base : Nat) (F : Finset Nat) (a b : Nat) : Prop :=
  (a < b ∧ b ∈ F ∧ ∀ c ∈ F, a < c → b ≤ c) ∨ (b = base ∧ ∀ c ∈ F, c ≤ a)

/-- The free blocks `F` are linked, and do not overlap with one another or with
    the blocks `V` in use. -/
structure Links (h : Heap) (F V : Finset Nat) : Prop where
  base_mem : h.base ∈ F
  base_size : h.size h.base = 0
  next : ∀ a ∈ F, IsNext h.base F a (h.ptr a)
  block : ∀ a, a ∈ F ∨ a ∈ V → a ≠ h.base → h.base + HEADER ≤ a ∧ 0 < h.size a
  apart : ∀ a c, a ∈ F ∨ a ∈ V → c ∈ F ∨ c ∈ V → a < c → a + HEADER * h.size a ≤ c
  used : ∀ a ∈ V, a ∉ F

section Links

variable {h : Heap} {F V : Finset Nat} {a b p : Nat}
variable {f c x : Nat}

theorem Links.base_le (hl : Links h F V) (ha : a ∈ F) : h.base ≤ a := by
  by_cases heq : a = h.base
  · exact heq.ge
  · have := (hl.block a (.inl ha) heq).1
    omega

theorem Links.ptr_mem (hl : Links h F V) (ha : a ∈ F) : h.ptr a ∈ F := by
  rcases hl.next a ha with ⟨-, hmem, -⟩ | ⟨hbase, -⟩
  · exact hmem
  · rw [hbase]
    exact hl.base_mem

structure Loose (h : Heap) (F V : Finset Nat) (b : Nat) : Prop where
  free : b ∉ F
  used : b ∉ V
  base : h.base + HEADER ≤ b
  size : 0 < h.size b
  below : ∀ a, a ∈ F ∨ a ∈ V → a < b → a + HEADER * h.size a ≤ b
  above : ∀ a, a ∈ F ∨ a ∈ V → b < a → b + HEADER * h.size b ≤ a

/-- Block `p` is the last free block below `b`. -/
structure Pred (F : Finset Nat) (b p : Nat) : Prop where
  mem : p ∈ F
  lt : p < b
  last : ∀ c ∈ F, c < b → c ≤ p

theorem Links.stops_iff (hl : Links h F V) (hb : Loose h F V b) (hp : p ∈ F) :
    ((p < b ∧ b < h.ptr p) ∨ (h.ptr p ≤ p ∧ (p < b ∨ b < h.ptr p))) ↔ Pred F b p := by
  have hbase := hb.base
  constructor
  · rintro (⟨hlt, hgt⟩ | ⟨hwrap, hout⟩)
    · refine ⟨hp, hlt, fun c hc hcb => ?_⟩
      by_contra hcp
      rcases hl.next p hp with ⟨-, -, hnext⟩ | ⟨hb', -⟩
      · have := hnext c hc (by omega)
        omega
      · simp only [HEADER] at hbase
        omega
    · rcases hl.next p hp with ⟨hlt, -, -⟩ | ⟨hb', hlast⟩
      · omega
      · rw [hb'] at hout
        simp only [HEADER] at hbase
        exact ⟨hp, by omega, fun c hc _ => hlast c hc⟩
  · rintro ⟨-, hlt, hlast⟩
    rcases hl.next p hp with ⟨hlt', hmem, -⟩ | ⟨hb', -⟩
    · refine .inl ⟨hlt, ?_⟩
      by_contra hge
      have hne : h.ptr p ≠ b := fun he => hb.free (he ▸ hmem)
      have := hlast _ hmem (by omega)
      omega
    · have := hl.base_le hp
      exact .inr ⟨by omega, .inl hlt⟩

theorem Links.exists_pred (hl : Links h F V) (hb : Loose h F V b) : ∃ p, Pred F b p := by
  have hne : (F.filter (· < b)).Nonempty := by
    refine ⟨h.base, mem_filter.mpr ⟨hl.base_mem, ?_⟩⟩
    have := hb.base
    simp only [HEADER] at this
    omega
  have hmax := Finset.max'_mem _ hne
  rw [mem_filter] at hmax
  exact ⟨_, hmax.1, hmax.2, fun c hc hcb => le_max' _ c (mem_filter.mpr ⟨hc, hcb⟩)⟩

def Passed (f p c : Nat) : Prop := (f < p ∧ f < c ∧ c < p) ∨ (p ≤ f ∧ (f < c ∨ c < p))

instance (f p c : Nat) : Decidable (Passed f p c) := inferInstanceAs (Decidable (_ ∨ _))

theorem not_passed_self (f p : Nat) : ¬ Passed f p f := by
  unfold Passed
  omega

theorem Links.passed_step (hl : Links h F V) (hf : f ∈ F) (hp : p ∈ F) (hne : p ≠ f)
    (hc : c ∈ F) : Passed f (h.ptr p) c ↔ Passed f p c ∨ c = p := by
  have hbase := hl.base_le hc
  have hbasef := hl.base_le hf
  unfold Passed
  rcases hl.next p hp with ⟨hlt, -, hnext⟩ | ⟨hwrap, hlast⟩
  · have hnextc := hnext c hc
    have hnextf := hnext f hf
    omega
  · have hlastc := hlast c hc
    have hlastf := hlast f hf
    rw [hwrap]
    omega

theorem Links.left_step (hl : Links h F V) (hf : f ∈ F) (hp : p ∈ F) (hne : p ≠ f) :
    (F.filter fun c => ¬ Passed f (h.ptr p) c).card < (F.filter fun c => ¬ Passed f p c).card := by
  have hstep := fun c (hc : c ∈ F) => hl.passed_step hf hp hne hc
  refine card_lt_card ⟨fun c hc => ?_, fun hsub => ?_⟩
  · obtain ⟨hcF, hno⟩ := mem_filter.mp hc
    exact mem_filter.mpr ⟨hcF, fun hpass => hno ((hstep c hcF).mpr (.inl hpass))⟩
  · have hself : p ∈ F.filter fun c => ¬ Passed f p c := by
      refine mem_filter.mpr ⟨hp, ?_⟩
      unfold Passed
      omega
    exact (mem_filter.mp (hsub hself)).2 ((hstep p hp).mpr (.inr rfl))

/-- **The loop of `free` ends** at the last block below, from any block. -/
theorem Links.findPlace_eq (hl : Links h F V) (hb : Loose h F V b) (hp : Pred F b p) (fuel : Nat)
    {q : Nat} (hq : q ∈ F) (hfuel : (F.filter fun c => ¬ Passed p q c).card ≤ fuel) :
    h.findPlace b fuel q = some p := by
  induction fuel generalizing q with
  | zero =>
    have hmem : p ∈ F.filter fun c => ¬ Passed p q c := mem_filter.mpr ⟨hp.mem, not_passed_self p q⟩
    exact absurd (card_pos.mpr ⟨p, hmem⟩) (by omega)
  | succ fuel ih =>
    have hstop := hl.stops_iff hb hq
    unfold findPlace
    by_cases hqp : q = p
    · subst hqp
      rcases hstop.mpr hp with hc | hc
      · rw [if_pos hc]
      · rw [if_pos hc, ite_self]
    · have hno : ¬ Pred F b q := fun hq' =>
        hqp (Nat.le_antisymm (hp.last q hq hq'.lt) (hq'.last p hp.mem hp.lt))
      rw [← hstop, not_or] at hno
      rw [if_neg hno.1, if_neg hno.2]
      have hless := hl.left_step hp.mem hq hqp
      exact ih (hl.ptr_mem hq) (by omega)

/-! ## Insertion -/

def link (h : Heap) (p b : Nat) : Heap := (h.setPtr b (h.ptr p)).setPtr p b

theorem link_ptr_self (h : Heap) (p b : Nat) : (h.link p b).ptr p = b := update_self ..

theorem link_ptr_new (hne : b ≠ p) : (h.link p b).ptr b = h.ptr p := by
  show update (update h.ptr b (h.ptr p)) p b b = _
  rw [update_of_ne hne, update_self]

theorem link_ptr_of_ne (hp : c ≠ p) (hb : c ≠ b) : (h.link p b).ptr c = h.ptr c := by
  show update (update h.ptr b (h.ptr p)) p b c = _
  rw [update_of_ne hp, update_of_ne hb]

theorem Links.link (hl : Links h F V) (hb : Loose h F V b) (hp : Pred F b p) :
    Links (h.link p b) (insert b F) V := by
  have hbase := hb.base
  have hpb := hp.lt
  refine ⟨mem_insert_of_mem hl.base_mem, hl.base_size, fun a ha => ?_, fun a ha hne => ?_,
    fun a c ha hc hac => ?_, fun a ha hmem => ?_⟩
  · show IsNext h.base _ a _
    rcases mem_insert.mp ha with rfl | haF
    · -- behind the new block comes what came behind `p`
      rw [link_ptr_new (by omega)]
      rcases hl.next p hp.mem with ⟨hlt, hmem, hnext⟩ | ⟨hwrap, hlast⟩
      · have hne : h.ptr p ≠ a := fun he => hb.free (he ▸ hmem)
        refine .inl ⟨?_, mem_insert_of_mem hmem, fun c hc hac => ?_⟩
        · by_contra hge
          have := hp.last _ hmem (by omega)
          omega
        · rcases mem_insert.mp hc with rfl | hc
          · omega
          · exact hnext c hc (by omega)
      · refine .inr ⟨hwrap, fun c hc => ?_⟩
        rcases mem_insert.mp hc with rfl | hc
        · exact le_rfl
        · have := hlast c hc
          omega
    · have hab : a ≠ b := fun he => hb.free (he ▸ haF)
      by_cases hap : a = p
      · subst hap
        rw [link_ptr_self]
        refine .inl ⟨hpb, mem_insert_self .., fun c hc hac => ?_⟩
        rcases mem_insert.mp hc with rfl | hc
        · exact le_rfl
        · by_contra hcb
          have := hp.last c hc (by omega)
          omega
      · rw [link_ptr_of_ne hap hab]
        rcases hl.next a haF with ⟨hlt, hmem, hnext⟩ | ⟨hwrap, hlast⟩
        · refine .inl ⟨hlt, mem_insert_of_mem hmem, fun c hc hac => ?_⟩
          rcases mem_insert.mp hc with rfl | hc
          · -- below `b` the next block is at most `p`
            have hle := hp.last a haF hac
            have := hnext p hp.mem (by omega)
            omega
          · exact hnext c hc hac
        · refine .inr ⟨hwrap, fun c hc => ?_⟩
          rcases mem_insert.mp hc with rfl | hc
          · by_contra hca
            have h1 := hp.last a haF (by omega)
            have h2 := hlast p hp.mem
            omega
          · exact hlast c hc
  · rcases ha with ha | ha
    · rcases mem_insert.mp ha with rfl | ha
      · exact ⟨hb.base, hb.size⟩
      · exact hl.block a (.inl ha) hne
    · exact hl.block a (.inr ha) hne
  · show a + HEADER * h.size a ≤ c
    have hin : ∀ x, x ∈ insert b F ∨ x ∈ V → x = b ∨ (x ∈ F ∨ x ∈ V) := by
      rintro x (hx | hx)
      · exact (mem_insert.mp hx).imp_right .inl
      · exact .inr (.inr hx)
    rcases hin a ha with rfl | ha'
    · rcases hin c hc with rfl | hc'
      · omega
      · exact hb.above c hc' hac
    · rcases hin c hc with rfl | hc'
      · exact hb.below a ha' hac
      · exact hl.apart a c ha' hc' hac
  · rcases mem_insert.mp hmem with rfl | hmem
    · exact hb.used ha
    · exact hl.used a ha hmem

/-! ## Joining neighbours -/

/-- Block `x` takes in the block behind it. -/
def join (h : Heap) (x : Nat) : Heap :=
  (h.setSize x (h.size x + h.size (h.ptr x))).setPtr x (h.ptr (h.ptr x))

theorem join_ptr_self (h : Heap) (x : Nat) : (h.join x).ptr x = h.ptr (h.ptr x) :=
  update_self ..

theorem join_ptr_of_ne (hc : c ≠ x) : (h.join x).ptr c = h.ptr c :=
  update_of_ne hc ..

theorem join_size_self (h : Heap) (x : Nat) : (h.join x).size x = h.size x + h.size (h.ptr x) :=
  update_self ..

theorem join_size_of_ne (hc : c ≠ x) : (h.join x).size c = h.size c :=
  update_of_ne hc ..

theorem Links.next_erase (hl : Links h F V) (hx : x ∈ F) (hy : h.ptr x ≠ h.base)
    (ha : a ∈ F.erase (h.ptr x)) :
    IsNext h.base (F.erase (h.ptr x)) a (update h.ptr x (h.ptr (h.ptr x)) a) := by
  have hmemy := hl.ptr_mem hx
  obtain ⟨hxy, hynext⟩ : x < h.ptr x ∧ ∀ c ∈ F, x < c → h.ptr x ≤ c := by
    rcases hl.next x hx with ⟨hlt, -, hnext⟩ | ⟨hwrap, -⟩
    · exact ⟨hlt, hnext⟩
    · exact absurd hwrap hy
  obtain ⟨hay, ha⟩ := mem_erase.mp ha
  by_cases hax : a = x
  · subst hax
    rw [update_self]
    rcases hl.next _ hmemy with ⟨hlt, hmem, hnext⟩ | ⟨hwrap, hlast⟩
    · refine .inl ⟨by omega, mem_erase.mpr ⟨by omega, hmem⟩, fun c hc hac => ?_⟩
      obtain ⟨hcy, hc⟩ := mem_erase.mp hc
      have := hynext c hc hac
      exact hnext c hc (by omega)
    · refine .inr ⟨hwrap, fun c hc => ?_⟩
      obtain ⟨hcy, hc⟩ := mem_erase.mp hc
      by_contra hca
      have h1 := hynext c hc (by omega)
      have h2 := hlast c hc
      omega
  · rw [update_of_ne hax]
    rcases hl.next a ha with ⟨hlt, hmem, hnext⟩ | ⟨hwrap, hlast⟩
    · refine .inl ⟨hlt, mem_erase.mpr ⟨fun heq => ?_, hmem⟩, fun c hc hac =>
        hnext c (mem_of_mem_erase hc) hac⟩
      -- only `x` comes before the block that is taken in
      rcases Nat.lt_or_ge x a with hxa | hxa
      · have := hynext a ha hxa
        omega
      · have := hnext x hx (by omega)
        omega
    · exact .inr ⟨hwrap, fun c hc => hlast c (mem_of_mem_erase hc)⟩

theorem Links.join (hl : Links h F V) (hx : x ∈ F) (hne : x ≠ h.base)
    (hadj : x + HEADER * h.size x = h.ptr x) : Links (h.join x) (F.erase (h.ptr x)) V := by
  have hsize := (hl.block x (.inl hx) hne).2
  have hxy : x < h.ptr x := by
    simp only [HEADER] at hadj
    omega
  have hbase := hl.base_le hx
  have hy := hl.ptr_mem hx
  have hybase : h.ptr x ≠ h.base := by omega
  refine ⟨mem_erase.mpr ⟨Ne.symm hybase, hl.base_mem⟩, ?_, fun a ha => ?_, fun a ha hne' => ?_,
    fun a c ha hc hac => ?_, fun a ha hmem => hl.used a ha (mem_of_mem_erase hmem)⟩
  · show (h.join x).size h.base = 0
    rw [join_size_of_ne (Ne.symm hne)]
    exact hl.base_size
  · show IsNext h.base _ a _
    exact hl.next_erase hx hybase ha
  · have ha' : a ∈ F ∨ a ∈ V := ha.imp_left mem_of_mem_erase
    obtain ⟨hlow, hpos⟩ := hl.block a ha' hne'
    refine ⟨hlow, ?_⟩
    by_cases hax : a = x
    · rw [hax, join_size_self]
      omega
    · rw [join_size_of_ne hax]
      exact hpos
  · have ha' : a ∈ F ∨ a ∈ V := ha.imp_left mem_of_mem_erase
    have hc' : c ∈ F ∨ c ∈ V := hc.imp_left mem_of_mem_erase
    by_cases hax : a = x
    · subst hax
      have hcy : c ≠ h.ptr a := by
        rintro rfl
        rcases hc with hc | hc
        · exact (mem_erase.mp hc).1 rfl
        · exact hl.used _ hc hy
      have h1 := hl.apart a c ha' hc' hac
      have h2 := hl.apart (h.ptr a) c (.inl hy) hc'
      rw [join_size_self]
      simp only [HEADER] at *
      omega
    · rw [join_size_of_ne hax]
      exact hl.apart a c ha' hc' hac

def GapsBut (h : Heap) (F : Finset Nat) (Z : Nat → Prop) : Prop :=
  ∀ a ∈ F, a ≠ h.base → ¬ Z a → a + HEADER * h.size a ≠ h.ptr a

theorem GapsBut.link (hg : GapsBut h F fun _ => False) (p b : Nat) :
    GapsBut (h.link p b) (insert b F) fun a => a = p ∨ a = b := by
  intro a ha hne hZ
  rw [not_or] at hZ
  rw [link_ptr_of_ne hZ.1 hZ.2]
  exact hg a ((mem_insert.mp ha).resolve_left hZ.2) hne id

theorem GapsBut.join {Z : Nat → Prop} (hl : Links h F V) (hx : x ∈ F) (hne : x ≠ h.base)
    (hadj : x + HEADER * h.size x = h.ptr x) (hZ : ¬ Z (h.ptr x))
    (hg : GapsBut h F fun a => Z a ∨ a = x) : GapsBut (h.join x) (F.erase (h.ptr x)) Z := by
  have hsize := (hl.block x (.inl hx) hne).2
  have hbase := hl.base_le hx
  simp only [HEADER] at hadj
  intro a ha hne' hZa
  obtain ⟨hay, ha⟩ := mem_erase.mp ha
  by_cases hax : a = x
  · -- the gap is the one behind the block taken in
    have hgap := hg (h.ptr x) (hl.ptr_mem hx) (by omega) (not_or.mpr ⟨hZ, by omega⟩)
    rw [hax, join_size_self, join_ptr_self]
    simp only [HEADER] at hgap ⊢
    omega
  · rw [join_size_of_ne hax, join_ptr_of_ne hax]
    exact hg a ha hne' (not_or.mpr ⟨hZa, hax⟩)

/-! ## What is kept -/

def units (h : Heap) (F : Finset Nat) : Nat := ∑ a ∈ F, h.size a

def Covers (h : Heap) (F : Finset Nat) (x : Nat) : Prop := ∃ a ∈ F, a ≤ x ∧ x < a + HEADER * h.size a

/-- The free blocks have been rearranged. -/
structure Rearranged (h : Heap) (F : Finset Nat) (h' : Heap) (F' : Finset Nat) : Prop where
  base : h'.base = h.base
  mem : h'.mem = h.mem
  units : h'.units F' = h.units F
  covers : ∀ x, h'.Covers F' x → h.Covers F x
  card : F'.card ≤ F.card
  large : ∀ a ∈ F, ∃ a' ∈ F', h.size a ≤ h'.size a'
  rest : ∀ a, a ∉ F → h'.size a = h.size a

theorem Rearranged.join (hl : Links h F V) (hx : x ∈ F) (hne : x ≠ h.base)
    (hadj : x + HEADER * h.size x = h.ptr x) : Rearranged h F (h.join x) (F.erase (h.ptr x)) := by
  have hsize := (hl.block x (.inl hx) hne).2
  have hy := hl.ptr_mem hx
  have hxy : x ≠ h.ptr x := by
    simp only [HEADER] at hadj
    omega
  have hx' : x ∈ F.erase (h.ptr x) := mem_erase.mpr ⟨hxy, hx⟩
  refine ⟨rfl, rfl, ?_, fun z hz => ?_, card_le_card (erase_subset _ _), fun a ha => ?_,
    fun a ha => join_size_of_ne fun heq => ha (heq ▸ hx)⟩
  · unfold Heap.units
    rw [← add_sum_erase F h.size hy, ← add_sum_erase _ h.size hx',
      ← add_sum_erase _ (h.join x).size hx', join_size_self]
    have hsame : ∑ a ∈ (F.erase (h.ptr x)).erase x, (h.join x).size a
        = ∑ a ∈ (F.erase (h.ptr x)).erase x, h.size a :=
      sum_congr rfl fun a ha => join_size_of_ne (ne_of_mem_erase ha)
    rw [hsame]
    omega
  · obtain ⟨a, ha, hlo, hhi⟩ := hz
    obtain ⟨-, haF⟩ := mem_erase.mp ha
    by_cases hax : a = x
    · subst hax
      rw [join_size_self] at hhi
      rcases Nat.lt_or_ge z (h.ptr a) with hz | hz
      · exact ⟨a, haF, hlo, by omega⟩
      · refine ⟨h.ptr a, hy, hz, ?_⟩
        simp only [HEADER] at *
        omega
    · rw [join_size_of_ne hax] at hhi
      exact ⟨a, haF, hlo, hhi⟩
  · by_cases hay : a = h.ptr x
    · refine ⟨x, hx', ?_⟩
      rw [join_size_self, hay]
      omega
    · refine ⟨a, mem_erase.mpr ⟨hay, ha⟩, ?_⟩
      by_cases hax : a = x
      · rw [hax, join_size_self]
        omega
      · rw [join_size_of_ne hax]

theorem Rearranged.trans {h' h'' : Heap} {F' F'' : Finset Nat} (r : Rearranged h F h' F')
    (r' : Rearranged h' F' h'' F'') (hsub : F' ⊆ F) : Rearranged h F h'' F'' :=
  ⟨r'.base.trans r.base, r'.mem.trans r.mem, r'.units.trans r.units, fun x hx => r.covers x (r'.covers x hx),
    r'.card.trans r.card, fun a ha => by
      obtain ⟨a', ha', hle⟩ := r.large a ha
      obtain ⟨a'', ha'', hle'⟩ := r'.large a' ha'
      exact ⟨a'', ha'', hle.trans hle'⟩,
    fun a ha => (r'.rest a fun hmem => ha (hsub hmem)).trans (r.rest a ha)⟩

/-! ## `free` -/

theorem joinUpper_eq_join (hbp : b ≠ p) (hp : h.ptr p ≠ p) (hb : h.ptr p ≠ b)
    (hadj : b + HEADER * h.size b = h.ptr p) :
    (h.joinUpper p b).setPtr p b = (h.link p b).join b := by
  have hnext : (h.link p b).ptr b = h.ptr p := link_ptr_new hbp
  have hafter : (h.link p b).ptr (h.ptr p) = h.ptr (h.ptr p) := link_ptr_of_ne hp hb
  have hptr : update (update h.ptr b (h.ptr (h.ptr p))) p b
      = update (update (update h.ptr b (h.ptr p)) p b) b
        (h.ptr (h.ptr p)) := by
    rw [update_comm (Ne.symm hbp), update_idem, update_comm hbp]
  rw [joinUpper, if_pos hadj, join, hnext, hafter]
  exact congrArg (fun f => (⟨h.base, f, update h.size b _, h.freep, h.mem⟩ : Heap)) hptr

theorem joinLower_eq_join (hbp : b ≠ p) (hadj : p + HEADER * h.size p = b) :
    h.joinLower p b = (h.setPtr p b).join p := by
  have hself : (h.setPtr p b).ptr p = b := update_self ..
  have hnext : (h.setPtr p b).ptr b = h.ptr b := update_of_ne hbp ..
  rw [joinLower, if_pos hadj, join, hself, hnext]
  unfold setPtr setSize
  congr 1
  exact (update_idem ..).symm

/-- The list is in order. -/
structure Good (h : Heap) (F V : Finset Nat) : Prop extends Links h F V where
  gaps : GapsBut h F fun _ => False
  freep : h.freep ∈ F

/-- **`free` puts a block into the list.** -/
theorem Good.freeBlock (hg : Good h F V) (hb : Loose h F V b) {fuel : Nat} (hfuel : F.card ≤ fuel) :
    ∃ h' F', h.freeBlock fuel b = some h' ∧ Good h' F' V ∧ F' ⊆ insert b F ∧
      Rearranged h (insert b F) h' F' := by
  obtain ⟨p, hp⟩ := hg.exists_pred hb
  have hfind : h.findPlace b fuel h.freep = some p :=
    hg.findPlace_eq hb hp fuel hg.freep ((card_le_card (filter_subset _ _)).trans hfuel)
  have hbp : b ≠ p := Nat.ne_of_gt hp.lt
  have hbbase : b ≠ h.base := by
    have := hb.base
    simp only [HEADER] at this
    omega
  have hl1 := hg.toLinks.link hb hp
  have hg1 := hg.gaps.link p b
  have hb1 : b ∈ insert b F := mem_insert_self ..
  have hptr1 : (h.link p b).ptr b = h.ptr p := link_ptr_new hbp
  have hr1 : Rearranged h (insert b F) (h.link p b) (insert b F) :=
    ⟨rfl, rfl, rfl, fun _ hx => hx, le_rfl, fun a ha => ⟨a, ha, le_rfl⟩, fun _ _ => rfl⟩
  -- after the first test, the block is linked
  obtain ⟨F2, hF2, hl2, hg2, hr2, hpF2, hbF2⟩ : ∃ F2 ⊆ insert b F,
      Links ((h.joinUpper p b).setPtr p b) F2 V ∧
      GapsBut ((h.joinUpper p b).setPtr p b) F2 (fun a => a = p) ∧
      Rearranged h (insert b F) ((h.joinUpper p b).setPtr p b) F2 ∧ p ∈ F2 ∧ b ∈ F2 := by
    by_cases hup : b + HEADER * h.size b = h.ptr p
    · have hpos := hb.size
      have hpb := hp.lt
      have hne : h.ptr p ≠ p := by
        simp only [HEADER] at hup
        omega
      have hne' : h.ptr p ≠ b := by
        simp only [HEADER] at hup
        omega
      have hadj1 : b + HEADER * (h.link p b).size b = (h.link p b).ptr b := by
        rw [hptr1]
        exact hup
      rw [joinUpper_eq_join hbp hne hne' hup]
      refine ⟨_, erase_subset _ _, hl1.join hb1 hbbase hadj1, .join hl1 hb1 hbbase hadj1 ?_ ?_,
        hr1.trans (.join hl1 hb1 hbbase hadj1) (Finset.Subset.refl _), ?_, ?_⟩
      · rw [hptr1]
        exact hne
      · exact hg1
      · exact mem_erase.mpr ⟨by rw [hptr1]; exact Ne.symm hne, mem_insert_of_mem hp.mem⟩
      · exact mem_erase.mpr ⟨by rw [hptr1]; exact Ne.symm hne', hb1⟩
    · have heq : (h.joinUpper p b).setPtr p b = h.link p b := by
        rw [joinUpper, if_neg hup]
        rfl
      rw [heq]
      refine ⟨_, Finset.Subset.refl _, hl1, fun a ha hne hap => ?_, hr1,
        mem_insert_of_mem hp.mem, hb1⟩
      by_cases hab : a = b
      · rw [hab, hptr1]
        exact hup
      · exact hg1 a ha hne (not_or.mpr ⟨hap, hab⟩)
  generalize hju : h.joinUpper p b = ju at hl2 hg2 hr2
  have hself : (ju.setPtr p b).ptr p = b := update_self ..
  have hrun : h.freeBlock fuel b = some { ju.joinLower p b with freep := p } := by
    rw [Heap.freeBlock, hfind, ← hju]
    rfl
  by_cases hdown : p + HEADER * ju.size p = b
  · have hpbase : p ≠ (ju.setPtr p b).base := by
      intro heq
      have hsize : ju.size p = 0 := by
        rw [heq]
        exact hl2.base_size
      rw [hsize] at hdown
      exact hbp (by omega)
    have hadj : p + HEADER * (ju.setPtr p b).size p = (ju.setPtr p b).ptr p := by
      rw [hself]
      exact hdown
    have hl3 := hl2.join hpF2 hpbase hadj
    have hg3 : GapsBut ((ju.setPtr p b).join p) (F2.erase b) fun _ => False := by
      have := GapsBut.join (Z := fun _ => False) hl2 hpF2 hpbase hadj id
        (fun a ha hne hno => hg2 a ha hne fun heq => hno (.inr heq))
      rwa [hself] at this
    have hr3 := hr2.trans (.join hl2 hpF2 hpbase hadj) hF2
    rw [hself] at hl3 hr3
    rw [joinLower_eq_join hbp hdown] at hrun
    refine ⟨_, F2.erase b, hrun, ⟨⟨hl3.base_mem, hl3.base_size, hl3.next, hl3.block, hl3.apart, hl3.used⟩,
      hg3, mem_erase.mpr ⟨Ne.symm hbp, hpF2⟩⟩, (erase_subset _ _).trans hF2,
      ⟨hr3.base, hr3.mem, hr3.units, hr3.covers, hr3.card, hr3.large, hr3.rest⟩⟩
  · have heq : ju.joinLower p b = ju.setPtr p b := by rw [joinLower, if_neg hdown]
    rw [heq] at hrun
    refine ⟨_, F2, hrun, ⟨⟨hl2.base_mem, hl2.base_size, hl2.next, hl2.block, hl2.apart, hl2.used⟩,
      fun a ha hne _ => ?_, hpF2⟩, hF2, ⟨hr2.base, hr2.mem, hr2.units, hr2.covers, hr2.card, hr2.large, hr2.rest⟩⟩
    by_cases hap : a = p
    · show a + HEADER * (ju.setPtr p b).size a ≠ (ju.setPtr p b).ptr a
      rw [hap, hself]
      exact hdown
    · exact hg2 a ha hne hap

end Links

end Heap

end Xv6
