/-
  Xv6.Proc.Switch

  `swtch` (swtch.S), and the stack that `allocproc` makes for it.

  Addresses count words of four bytes.  A thread is a process in the kernel or a
  scheduler.  It computes as it likes, but writes neither to the stacks of
  others, below their trap frames, nor to the `context` pointers.  Stacks and
  slots that are given back may be used again.  `saved` is what a thread is to
  find when it goes on.
-/

import Mathlib.Logic.Function.Basic
import Mathlib.Logic.Relation

namespace Xv6

open Function Relation

structure Regs where
  esp : Nat
  ebp : Nat
  ebx : Nat
  esi : Nat
  edi : Nat
  eip : Nat

structure Core where
  regs : Regs
  mem : Nat → Nat

namespace Core

variable {m : Core} {mem : Nat → Nat} {old new ret sp forkret trapret : Nat}

def push (m : Core) (v : Nat) : Core :=
  ⟨{ m.regs with esp := m.regs.esp - 1 }, update m.mem (m.regs.esp - 1) v⟩

/-- `popl`, and `ret` for the register `eip`. -/
def pop (m : Core) (set : Regs → Nat → Regs) : Core :=
  ⟨set { m.regs with esp := m.regs.esp + 1 } (m.mem m.regs.esp), m.mem⟩

/-- `swtch(old, new)`; the stack pointer is at the return address. -/
def swtch (m : Core) : Core :=
  let eax := m.mem (m.regs.esp + 1)
  let edx := m.mem (m.regs.esp + 2)
  -- Save old callee-save registers
  let m := (((m.push m.regs.ebp).push m.regs.ebx).push m.regs.esi).push m.regs.edi
  -- Switch stacks
  let m : Core := ⟨{ m.regs with esp := edx }, update m.mem eax m.regs.esp⟩
  -- Load new callee-save registers
  let m := m.pop fun r v => { r with edi := v }
  let m := m.pop fun r v => { r with esi := v }
  let m := m.pop fun r v => { r with ebx := v }
  let m := m.pop fun r v => { r with ebp := v }
  m.pop fun r v => { r with eip := v }

/-- A call of `swtch` that returns to `ret`. -/
def callSwtch (m : Core) (old new ret : Nat) : Core := (((m.push new).push old).push ret).swtch

/-- The memory with the words `ws` from `c` on. -/
def store (mem : Nat → Nat) (c : Nat) : List Nat → Nat → Nat
  | [] => mem
  | w :: ws => update (store mem (c + 1) ws) c w

/-- `allocproc` below the trap frame at `sp`: `trapret`, and a `context` that starts at
    `forkret`. -/
def allocStack (mem : Nat → Nat) (sp forkret trapret : Nat) : Nat → Nat :=
  let mem := update mem (sp - 1) trapret
  let mem := store mem (sp - 6) [0, 0, 0, 0, 0]
  update mem (sp - 2) forkret

/-- The registers that the `context` at `c` stands for. -/
def restored (mem : Nat → Nat) (c : Nat) : Regs :=
  ⟨c + 5, mem (c + 3), mem (c + 2), mem (c + 1), mem (c + 0), mem (c + 4)⟩

theorem store_add (c k : Nat) (ws : List Nat) :
    store mem c ws (c + k) = ws.getD k (mem (c + k)) := by
  induction ws generalizing c k with
  | nil => rfl
  | cons w ws ih =>
    cases k with
    | zero => exact update_self ..
    | succ k =>
      rw [store, update_of_ne (by omega), show c + (k + 1) = c + 1 + k by omega, ih]
      rfl

theorem store_of_outside {c a : Nat} {ws : List Nat} (h : a < c ∨ c + ws.length ≤ a) :
    store mem c ws a = mem a := by
  induction ws generalizing c with
  | nil => rfl
  | cons w ws ih =>
    rw [List.length_cons] at h
    rw [store, update_of_ne (by omega), ih (by omega)]

theorem allocStack_eq (hsp : 6 ≤ sp) : allocStack mem sp forkret trapret
    = store mem (sp - 6) [0, 0, 0, 0, forkret, trapret] := by
  obtain ⟨c, rfl⟩ := Nat.exists_eq_add_of_le' hsp
  funext a
  simp only [allocStack, store, update_apply, Nat.add_sub_cancel]
  grind

/-- The `context` of the caller, and its arguments above. -/
def frame (m : Core) (old new ret : Nat) : List Nat :=
  [m.regs.edi, m.regs.esi, m.regs.ebx, m.regs.ebp, ret, old, new]

theorem callSwtch_mem (hesp : 7 ≤ m.regs.esp) : (m.callSwtch old new ret).mem =
    update (store m.mem (m.regs.esp - 7) (m.frame old new ret)) old (m.regs.esp - 7) := by
  obtain ⟨⟨esp, ebp, ebx, esi, edi, eip⟩, mem⟩ := m
  obtain ⟨c, rfl⟩ := Nat.exists_eq_add_of_le' hesp
  simp [callSwtch, swtch, push, pop, store, frame]

theorem callSwtch_regs (hesp : 7 ≤ m.regs.esp) :
    (m.callSwtch old new ret).regs = restored (m.callSwtch old new ret).mem new := by
  obtain ⟨⟨esp, ebp, ebx, esi, edi, eip⟩, mem⟩ := m
  obtain ⟨c, rfl⟩ := Nat.exists_eq_add_of_le' hesp
  simp [callSwtch, swtch, push, pop, restored]

end Core

/-- The stack of a thread, up to its trap frame if it has one, and where its pointer is. -/
structure Place where
  kstack : Nat
  top : Nat
  context : Nat

namespace Place

open Xv6.Core

variable {p q : Place} {mem mem' : Nat → Nat} {r : Regs} {c : Nat} {ws : List Nat}

/-- The words from `a` to `b` are on the stack. -/
def On (p : Place) (a b : Nat) : Prop := p.kstack ≤ a ∧ b < p.top

def Outside (a : Nat) (p : Place) : Prop := a < p.kstack ∨ p.top ≤ a

structure Apart (p q : Place) : Prop where
  apart : p.top ≤ q.kstack ∨ q.top ≤ p.kstack
  pointers : p.context ≠ q.context
  left : Outside p.context q
  right : Outside q.context p

theorem Apart.symm (h : p.Apart q) : q.Apart p := ⟨h.apart.symm, h.pointers.symm, h.right, h.left⟩

/-- The stack and the pointer are the same in both memories. -/
def Same (p : Place) (mem mem' : Nat → Nat) : Prop :=
  (∀ a, p.On a a → mem' a = mem a) ∧ mem' p.context = mem p.context

/-- The pointer leads to a `context` on the stack that stands for `r`. -/
structure Waits (p : Place) (mem : Nat → Nat) (r : Regs) : Prop where
  within : p.On (mem p.context) (mem p.context + 4)
  regs : restored mem (mem p.context) = r

theorem Same.restored (h : p.Same mem mem') (hc : p.On c (c + 4)) :
    restored mem' c = restored mem c := by
  have hword : ∀ k ≤ 4, mem' (c + k) = mem (c + k) := by
    intro k hk
    have h1 := hc.1
    have h2 := hc.2
    exact h.1 _ ⟨by omega, by omega⟩
  unfold Core.restored
  rw [hword 0 (by decide), hword 1 (by decide), hword 2 (by decide), hword 3 (by decide),
    hword 4 (by decide)]

theorem Waits.keep (h : p.Waits mem r) (hs : p.Same mem mem') : p.Waits mem' r := by
  refine ⟨by rw [hs.2]; exact h.within, ?_⟩
  rw [hs.2, hs.restored h.within, h.regs]

/-- A `context` is stored on the stack at `q`, and the pointer to it: others do not notice. -/
theorem Apart.store (h : p.Apart q) (hon : q.On c (c + ws.length - 1)) :
    p.Same mem (update (store mem c ws) q.context c) := by
  obtain ⟨hlo, hhi⟩ := hon
  have hstacks := h.apart
  refine ⟨fun a ha => ?_, ?_⟩
  · have hright : _ ∨ _ := h.right
    obtain ⟨ha1, ha2⟩ := ha
    rw [update_of_ne (by omega), store_of_outside (by omega)]
  · have hleft : _ ∨ _ := h.left
    rw [update_of_ne h.pointers, store_of_outside (by omega)]

theorem waits_store {edi esi ebx ebp eip : Nat} (hout : Outside p.context p)
    (hon : p.On c (c + 4)) :
    p.Waits (update (store mem c (edi :: esi :: ebx :: ebp :: eip :: ws)) p.context c)
      ⟨c + 5, ebp, ebx, esi, edi, eip⟩ := by
  refine ⟨by rw [update_self]; exact hon, ?_⟩
  obtain ⟨hlo, hhi⟩ := hon
  have hout : _ ∨ _ := hout
  rw [update_self, restored]
  iterate 5 rw [update_of_ne (by omega), store_add]
  rfl

end Place

structure Threads (τ : Type) extends Core where
  cur : τ
  place : τ → Place
  live : τ → Prop
  saved : τ → Regs

namespace Threads

open Xv6.Core

variable {τ : Type} [DecidableEq τ] {s s' s₀ : Threads τ} {t : τ}
variable {p : Place} {ret sp forkret trapret : Nat}

/-- The switch to `t`, from which the caller is to come back behind its call. -/
def switch (s : Threads τ) (t : τ) (ret : Nat) : Threads τ :=
  { s with
    toCore := s.callSwtch (s.place s.cur).context (s.mem (s.place t).context) ret
    cur := t
    saved := update s.saved s.cur { s.regs with esp := s.regs.esp - 2, eip := ret } }

def allocproc (s : Threads τ) (t : τ) (p : Place) (sp forkret trapret : Nat) : Threads τ :=
  { s with
    mem := update (allocStack s.mem sp forkret trapret) p.context (sp - 6)
    place := update s.place t p
    live := update s.live t True
    saved := update s.saved t ⟨sp - 1, 0, 0, 0, 0, forkret⟩ }

/-- The stack has room for the seven words of the call. -/
def Room (s : Threads τ) : Prop :=
  7 ≤ s.regs.esp ∧ (s.place s.cur).On (s.regs.esp - 7) (s.regs.esp - 1)

inductive Step (s : Threads τ) : Threads τ → Prop
  | work (regs : Regs) (mem : Nat → Nat)
      (hothers : ∀ t ≠ s.cur, s.live t → (s.place t).Same s.mem mem) :
      Step s { s with regs := regs, mem := mem }
  | switch (t : τ) (ret : Nat) (hlive : s.live t) (hne : t ≠ s.cur) (hroom : s.Room) :
      Step s (s.switch t ret)
  | allocproc (t : τ) (p : Place) (sp forkret trapret : Nat) (hnew : ¬ s.live t)
      (hout : Place.Outside p.context p) (hapart : ∀ u, s.live u → p.Apart (s.place u))
      (hsp : 6 ≤ sp) (hon : p.On (sp - 6) (sp - 1)) :
      Step s (s.allocproc t p sp forkret trapret)
  -- `wait` frees `p->kstack`
  | free (t : τ) (hne : t ≠ s.cur) : Step s { s with live := update s.live t False }

/-! ## Whoever is not running waits -/

structure Inv (s : Threads τ) : Prop where
  cur : s.live s.cur
  out : ∀ t, s.live t → Place.Outside (s.place t).context (s.place t)
  apart : ∀ t u, s.live t → s.live u → t ≠ u → (s.place t).Apart (s.place u)
  waits : ∀ t ≠ s.cur, s.live t → (s.place t).Waits s.mem (s.saved t)

theorem Inv.same_switch {u : τ} (h : s.Inv) (hroom : s.Room) (hu : s.live u) (hne : u ≠ s.cur) :
    (s.place u).Same s.mem (s.switch t ret).mem := by
  obtain ⟨hesp, hlo, hhi⟩ := hroom
  rw [show (s.switch t ret).mem = _ from callSwtch_mem hesp]
  exact (h.apart u s.cur hu h.cur hne).store
    ⟨hlo, show s.regs.esp - 7 + 7 - 1 < (s.place s.cur).top by omega⟩

theorem Inv.switch (h : s.Inv) (hroom : s.Room) (hlive : s.live t) : (s.switch t ret).Inv := by
  refine ⟨hlive, h.out, h.apart, fun u hut hu => ?_⟩
  -- The caller has just left its registers on its stack; the others have not been touched.
  by_cases huc : u = s.cur
  · obtain ⟨hesp, hlo, hhi⟩ := hroom
    rw [show (s.switch t ret).mem = _ from callSwtch_mem hesp, huc,
      show (s.switch t ret).saved s.cur = _ from update_self ..,
      show s.regs.esp - 2 = s.regs.esp - 7 + 5 by omega]
    exact Place.waits_store (h.out _ h.cur) ⟨hlo, show _ < (s.place s.cur).top by omega⟩
  · rw [show (s.switch t ret).saved u = s.saved u from update_of_ne huc ..]
    exact (h.waits u huc hu).keep (h.same_switch hroom hu huc)

/-- The threads after `allocproc` are the new one, and the others as they were. -/
theorem live_allocproc {u : τ} (hu : (s.allocproc t p sp forkret trapret).live u) :
    (u = t ∧ (s.allocproc t p sp forkret trapret).place u = p ∧
      (s.allocproc t p sp forkret trapret).saved u = ⟨sp - 1, 0, 0, 0, 0, forkret⟩) ∨
    (s.live u ∧ (s.allocproc t p sp forkret trapret).place u = s.place u ∧
      (s.allocproc t p sp forkret trapret).saved u = s.saved u) := by
  by_cases hut : u = t
  · subst hut
    exact .inl ⟨rfl, update_self .., update_self ..⟩
  · have hu : update s.live t True u := hu
    rw [update_of_ne hut] at hu
    exact .inr ⟨hu, update_of_ne hut .., update_of_ne hut ..⟩

theorem Inv.allocproc (h : s.Inv) (hnew : ¬ s.live t) (hout : Place.Outside p.context p)
    (hapart : ∀ u, s.live u → p.Apart (s.place u)) (hsp : 6 ≤ sp)
    (hon : p.On (sp - 6) (sp - 1)) : (s.allocproc t p sp forkret trapret).Inv := by
  obtain ⟨hlo, hhi⟩ := hon
  refine ⟨?_, fun u hu => ?_, fun u v hu hv huv => ?_, fun u hucur hu => ?_⟩
  · show update s.live t True s.cur
    have hcur : s.cur ≠ t := fun hc => hnew (hc ▸ h.cur)
    rw [update_of_ne hcur]
    exact h.cur
  · obtain ⟨-, hp, -⟩ | ⟨hu, hp, -⟩ := live_allocproc hu <;> rw [hp]
    exacts [hout, h.out u hu]
  · obtain ⟨hut, hp, -⟩ | ⟨hu, hp, -⟩ := live_allocproc hu <;>
      obtain ⟨hvt, hq, -⟩ | ⟨hv, hq, -⟩ := live_allocproc hv <;> rw [hp, hq]
    exacts [absurd (hut.trans hvt.symm) huv, hapart v hv, (hapart u hu).symm,
      h.apart u v hu hv huv]
  · rw [show (s.allocproc t p sp forkret trapret).mem = update (allocStack _ _ _ _) _ _ from rfl,
      allocStack_eq hsp]
    obtain ⟨-, hp, hsaved⟩ | ⟨hu, hp, hsaved⟩ := live_allocproc hu <;> rw [hp, hsaved]
    · rw [show sp - 1 = sp - 6 + 5 by omega]
      exact Place.waits_store hout ⟨hlo, by omega⟩
    · exact (h.waits u hucur hu).keep ((hapart u hu).symm.store
        ⟨hlo, show sp - 6 + 6 - 1 < p.top by omega⟩)

theorem Inv.free (h : s.Inv) (hne : t ≠ s.cur) :
    Inv { s with live := update s.live t False } := by
  have hlive : ∀ u, update s.live t False u → s.live u := by
    intro u hu
    by_cases hut : u = t
    · rw [hut, update_self] at hu
      exact hu.elim
    · rwa [update_of_ne hut] at hu
  refine ⟨?_, fun u hu => h.out u (hlive u hu),
    fun u v hu hv => h.apart u v (hlive u hu) (hlive v hv),
    fun u hucur hu => h.waits u hucur (hlive u hu)⟩
  show update s.live t False s.cur
  rw [update_of_ne hne.symm]
  exact h.cur

theorem Inv.step (h : s.Inv) (hs : Step s s') : s'.Inv := by
  cases hs with
  | work regs mem hothers =>
    exact ⟨h.cur, h.out, h.apart, fun u hu hl => (h.waits u hu hl).keep (hothers u hu hl)⟩
  | switch t ret hlive hne hroom => exact h.switch hroom hlive
  | allocproc t p sp forkret trapret hnew hout hapart hsp hon =>
    exact h.allocproc hnew hout hapart hsp hon
  | free t hne => exact h.free hne

theorem inv_run (hboot : ∀ u, s₀.live u ↔ u = s₀.cur)
    (hout : Place.Outside (s₀.place s₀.cur).context (s₀.place s₀.cur))
    (hr : ReflTransGen Step s₀ s) : s.Inv := by
  induction hr with
  | refl =>
    refine ⟨(hboot _).mpr rfl, fun u hu => ?_, fun u v hu hv huv => ?_, fun u hu hl => ?_⟩
    · rwa [(hboot u).mp hu]
    · exact absurd (((hboot u).mp hu).trans ((hboot v).mp hv).symm) huv
    · exact absurd ((hboot u).mp hl) hu
  | tail _ hs ih => exact ih.step hs

/-- **A thread goes on where it left off.**  After any run of threads that compute, switch to each
    other, make new ones and give back the stacks of others, `swtch` to a thread gives it the
    registers it had behind its own call of `swtch`, or those `allocproc` made for it, and the
    stack it left. -/
theorem swtch_restores (hboot : ∀ u, s₀.live u ↔ u = s₀.cur)
    (hout : Place.Outside (s₀.place s₀.cur).context (s₀.place s₀.cur))
    (hr : ReflTransGen Step s₀ s) (hlive : s.live t) (hne : t ≠ s.cur) (hroom : s.Room)
    (ret : Nat) : (s.switch t ret).regs = s.saved t ∧
      ∀ a, (s.place t).On a a → (s.switch t ret).mem a = s.mem a := by
  have hinv := inv_run hboot hout hr
  have hwaits := hinv.waits t hne hlive
  have hsame : (s.place t).Same s.mem (s.switch t ret).mem := hinv.same_switch hroom hlive hne
  refine ⟨?_, hsame.1⟩
  rw [← hwaits.regs, ← hsame.restored hwaits.within]
  exact callSwtch_regs hroom.1

def oneThread : Threads Bool :=
  ⟨⟨⟨2000, 1, 2, 3, 4, 5⟩, fun _ => 0⟩, false, fun _ => ⟨1024, 2048, 0⟩, (· = false),
    fun _ => ⟨0, 0, 0, 0, 0, 0⟩⟩

/-- The first switch to a new thread. -/
theorem swtch_restores_new : ((oneThread.allocproc true ⟨2048, 3053, 1⟩ 3053 7 8).switch true
    9).regs = ⟨3052, 0, 0, 0, 0, 7⟩ := by
  have hnew : Step oneThread (oneThread.allocproc true ⟨2048, 3053, 1⟩ 3053 7 8) :=
    .allocproc true _ 3053 7 8 Bool.noConfusion (.inl (by decide))
      (fun u _ => ⟨.inr (Nat.le_refl 2048), Nat.one_ne_zero, .inl (Nat.le_of_ble_eq_true rfl),
        .inl (Nat.le_of_ble_eq_true rfl)⟩)
      (by decide) ⟨by decide, by decide⟩
  have hlive : (oneThread.allocproc true ⟨2048, 3053, 1⟩ 3053 7 8).live true := by
    simp [allocproc]
  exact (swtch_restores (fun _ => .rfl) (.inl (by decide)) (.single hnew) hlive (by decide)
    ⟨by decide, by decide, by decide⟩ 9).1

end Threads
end Xv6
