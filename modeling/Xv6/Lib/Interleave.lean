/-
  Xv6.Lib.Interleave

  Agents that carry out operations on a shared memory in atomic steps.

  `Code` gives the first program point of every operation and what one step
  does; `Ends C pc m m'` says that the code at `pc`, left alone, ends in `m'`.
  If every program point has a scope (`Local`), and no operation is begun while
  another agent is inside one with an overlapping scope (`Apart`), the memory
  is that of the operations one after the other, in the order in which they
  were completed (`serial`).

  The invariant says of an operation under way what its end will be: on its
  scope the code left alone ends in the memory that the whole operation makes
  of the completed ones.
-/

import Xv6.Lib.Transition

namespace Interleave

open Transition Function

variable {ι V Op Pc A : Type*}

structure Code (ι V Op Pc : Type*) where
  start : Op → Pc
  micro : Pc → (ι → V) → Option Pc × (ι → V)

structure Thread (Op Pc : Type*) where
  todo : List Op
  busy : Option (Op × Pc)

structure State (ι V Op Pc A : Type*) where
  mem : ι → V
  thread : A → Thread Op Pc
  /-- The completed operations, oldest first. -/
  log : List (A × Op)

def init (m : ι → V) (prog : A → List Op) : State ι V Op Pc A where
  mem := m
  thread := fun a => ⟨prog a, none⟩
  log := []

def step [DecidableEq A] (C : Code ι V Op Pc) (s : State ι V Op Pc A) (a : A) :
    Option (State ι V Op Pc A) :=
  match (s.thread a).busy with
  | none =>
    match (s.thread a).todo with
    | [] => none
    | o :: os => some { s with thread := Function.update s.thread a ⟨os, some (o, C.start o)⟩ }
  | some (o, pc) =>
    match C.micro pc s.mem with
    | (some pc', m) => some { s with
        mem := m
        thread := Function.update s.thread a ⟨(s.thread a).todo, some (o, pc')⟩ }
    | (none, m) => some {
        mem := m
        thread := Function.update s.thread a ⟨(s.thread a).todo, none⟩
        log := s.log ++ [(a, o)] }

/-- Every agent is through. -/
def State.Finished (s : State ι V Op Pc A) : Prop :=
  ∀ a, (s.thread a).todo = [] ∧ (s.thread a).busy = none

instance [Fintype A] [DecidableEq Op] [DecidableEq Pc] (s : State ι V Op Pc A) :
    Decidable s.Finished :=
  inferInstanceAs (Decidable (∀ a, (s.thread a).todo = [] ∧ (s.thread a).busy = none))

/-! ## Code left alone -/

inductive Ends (C : Code ι V Op Pc) : Pc → (ι → V) → (ι → V) → Prop
  | last {pc : Pc} {m m' : ι → V} (h : C.micro pc m = (none, m')) : Ends C pc m m'
  | next {pc pc' : Pc} {m m₁ m' : ι → V} (h : C.micro pc m = (some pc', m₁))
      (hrest : Ends C pc' m₁ m') : Ends C pc m m'

structure Local (C : Code ι V Op Pc) (scope : Pc → ι → Prop) : Prop where
  agree : ∀ pc m₁ m₂, (∀ l, scope pc l → m₁ l = m₂ l) → (C.micro pc m₁).1 = (C.micro pc m₂).1 ∧
    ∀ l, scope pc l → (C.micro pc m₁).2 l = (C.micro pc m₂).2 l
  frame : ∀ pc m l, ¬ scope pc l → (C.micro pc m).2 l = m l
  shrink : ∀ pc m pc', (C.micro pc m).1 = some pc' → ∀ l, scope pc' l → scope pc l

variable {C : Code ι V Op Pc} {scope : Pc → ι → Prop}

namespace Ends

variable {pc pc' : Pc} {m m₁ m₂ m' m'' : ι → V}

theorem of_last (h : Ends C pc m m') (hs : C.micro pc m = (none, m₁)) : m' = m₁ := by
  cases h with
  | last h =>
    rw [hs] at h
    cases h
    rfl
  | next h hrest =>
    rw [hs] at h
    cases h

theorem of_next (h : Ends C pc m m') (hs : C.micro pc m = (some pc', m₁)) : Ends C pc' m₁ m' := by
  cases h with
  | last h =>
    rw [hs] at h
    cases h
  | next h hrest =>
    rw [hs] at h
    cases h
    exact hrest

theorem det (h1 : Ends C pc m m') (h2 : Ends C pc m m'') : m' = m'' := by
  induction h1 with
  | last h => exact (h2.of_last h).symm
  | next h _ ih => exact ih (h2.of_next h)

theorem frame (L : Local C scope) (h : Ends C pc m m') {l : ι} (hl : ¬ scope pc l) :
    m' l = m l := by
  induction h with
  | @last pc m m' h =>
    have hframe := L.frame pc m l hl
    rw [h] at hframe
    exact hframe
  | @next pc pc' m m₁ m' h _ ih =>
    have hframe := L.frame pc m l hl
    rw [h] at hframe
    rw [ih fun hin => hl (L.shrink pc m pc' (by rw [h]) l hin)]
    exact hframe

theorem transfer (L : Local C scope) (h : Ends C pc m m') (hagree : ∀ l, scope pc l → m l = m₂ l) :
    ∃ m2', Ends C pc m₂ m2' ∧ ∀ l, scope pc l → m' l = m2' l := by
  induction h generalizing m₂ with
  | @last pc m m' h =>
    obtain ⟨hpc, hmem⟩ := L.agree pc m m₂ hagree
    rw [h] at hpc hmem
    exact ⟨(C.micro pc m₂).2, .last (Prod.ext hpc.symm rfl), hmem⟩
  | @next pc pc' m m₁ m' h hrest ih =>
    -- both runs go to the same program point, with agreeing memories
    obtain ⟨hpc, hmem⟩ := L.agree pc m m₂ hagree
    rw [h] at hpc hmem
    have hshrink : ∀ l, scope pc' l → scope pc l := L.shrink pc m pc' (by rw [h])
    obtain ⟨m2', hends, hsame⟩ := ih fun l hl => hmem l (hshrink l hl)
    have hs2 : C.micro pc m₂ = (some pc', (C.micro pc m₂).2) := Prod.ext hpc.symm rfl
    refine ⟨m2', .next hs2 hends, fun l hl => ?_⟩
    by_cases hl' : scope pc' l
    · exact hsame l hl'
    · -- given up on the way: both runs left it as it was then
      rw [hrest.frame L hl', hends.frame L hl']
      exact hmem l hl

end Ends

/-! ## One access a step -/

section Access

variable [DecidableEq ι] {start : Op → Pc} {loc : Pc → ι} {access : Pc → V → Option Pc × V}
variable {pc : Pc} {m : ι → V} {next : Option Pc}

def Code.ofAccess (start : Op → Pc) (loc : Pc → ι) (access : Pc → V → Option Pc × V) :
    Code ι V Op Pc where
  start := start
  micro := fun pc m =>
    ((access pc (m (loc pc))).1, Function.update m (loc pc) (access pc (m (loc pc))).2)

theorem micro_write {v : V} (h : access pc (m (loc pc)) = (next, v)) :
    (Code.ofAccess start loc access).micro pc m = (next, Function.update m (loc pc) v) := by
  simp only [Code.ofAccess, h]

theorem micro_read (h : access pc (m (loc pc)) = (next, m (loc pc))) :
    (Code.ofAccess start loc access).micro pc m = (next, m) := by
  rw [micro_write h, update_eq_self]

theorem local_ofAccess (hloc : ∀ pc, scope pc (loc pc))
    (hshrink : ∀ pc v pc', (access pc v).1 = some pc' → ∀ l, scope pc' l → scope pc l) :
    Local (Code.ofAccess start loc access) scope where
  agree := by
    intro pc m₁ m₂ h
    have hsame : m₁ (loc pc) = m₂ (loc pc) := h (loc pc) (hloc pc)
    refine ⟨by simp only [Code.ofAccess, hsame], fun l hl => ?_⟩
    simp only [Code.ofAccess, hsame]
    by_cases hll : l = loc pc
    · rw [hll, update_self, update_self]
    · rw [update_of_ne hll, update_of_ne hll]
      exact h l hl
  frame := by
    intro pc m l hl
    have hne : l ≠ loc pc := by
      rintro rfl
      exact hl (hloc pc)
    exact update_of_ne hne _ _
  shrink := fun pc m pc' h => hshrink pc (m (loc pc)) pc' h

end Access

/-! ## Whole operations -/

def Total (C : Code ι V Op Pc) (exec : Op → (ι → V) → (ι → V)) : Prop :=
  ∀ o m, Ends C (C.start o) m (exec o m)

/-- The operations one after the other. -/
def execAll (exec : Op → (ι → V) → (ι → V)) (m : ι → V) (os : List Op) : ι → V :=
  os.foldl (fun m o => exec o m) m

variable {exec : Op → (ι → V) → (ι → V)}
variable {o : Op} {m : ι → V} {l : ι}

theorem Total.frame (T : Total C exec) (L : Local C scope)
    (hl : ¬ scope (C.start o) l) : exec o m l = m l :=
  (T o m).frame L hl

theorem Total.agree (T : Total C exec) (L : Local C scope) {m₂ : ι → V}
    (h : ∀ l, scope (C.start o) l → m l = m₂ l) (hl : scope (C.start o) l) :
    exec o m l = exec o m₂ l := by
  obtain ⟨m2', hends, hsame⟩ := (T o m).transfer L h
  rw [hsame l hl, hends.det (T o m₂)]

/-! ## The invariant -/

def Apart (C : Code ι V Op Pc) (scope : Pc → ι → Prop) (s : State ι V Op Pc A) (a : A) : Prop :=
  (s.thread a).busy = none → ∀ o ∈ (s.thread a).todo.head?, ∀ b o' pc,
    (s.thread b).busy = some (o', pc) → ∀ l, scope (C.start o) l → ¬ scope (C.start o') l

/-- The memory after the completed operations. -/
def State.abs (exec : Op → (ι → V) → (ι → V)) (m₀ : ι → V) (s : State ι V Op Pc A) : ι → V :=
  execAll exec m₀ (s.log.map Prod.snd)

structure UnderWay (C : Code ι V Op Pc) (scope : Pc → ι → Prop)
    (exec : Op → (ι → V) → (ι → V)) (abs m : ι → V) (o : Op) (pc : Pc) : Prop where
  inside : ∀ l, scope pc l → scope (C.start o) l
  ends : ∃ m', Ends C pc m m' ∧ ∀ l, scope (C.start o) l → m' l = exec o abs l

structure Inv (C : Code ι V Op Pc) (scope : Pc → ι → Prop) (exec : Op → (ι → V) → (ι → V))
    (m₀ : ι → V) (prog : A → List Op) [DecidableEq A] (s : State ι V Op Pc A) : Prop where
  quiet : ∀ l, (∀ a o pc, (s.thread a).busy = some (o, pc) → ¬ scope (C.start o) l) →
    s.mem l = s.abs exec m₀ l
  underWay : ∀ a o pc, (s.thread a).busy = some (o, pc) →
    UnderWay C scope exec (s.abs exec m₀) s.mem o pc
  apart : ∀ a b o pc o' pc', a ≠ b → (s.thread a).busy = some (o, pc) →
    (s.thread b).busy = some (o', pc') → ∀ l, scope (C.start o) l → ¬ scope (C.start o') l
  order : ∀ a, (s.log.filter fun e => e.1 = a).map Prod.snd ++
    ((s.thread a).busy.toList.map Prod.fst ++ (s.thread a).todo) = prog a

section Step

variable [DecidableEq A] {m₀ : ι → V} {prog : A → List Op} {s s' : State ι V Op Pc A} {a : A}
variable {m : ι → V} {o : Op}

theorem inv_init : Inv C scope exec m₀ prog (init m₀ prog) where
  quiet := fun _ _ => rfl
  underWay := fun _ _ _ h => by cases h
  apart := fun _ _ _ _ _ _ _ h => by cases h
  order := fun _ => rfl

theorem UnderWay.other {abs abs' m' : ι → V} {pc : Pc} (T : Total C exec) (L : Local C scope)
    (h : UnderWay C scope exec abs m o pc) (habs : ∀ l, scope (C.start o) l → abs' l = abs l)
    (hm : ∀ l, scope (C.start o) l → m' l = m l) : UnderWay C scope exec abs' m' o pc := by
  obtain ⟨e, hends, hresult⟩ := h.ends
  have hagree : ∀ l, scope pc l → m l = m' l := fun l hl => (hm l (h.inside l hl)).symm
  obtain ⟨e', hends', hsame⟩ := hends.transfer L hagree
  refine ⟨h.inside, e', hends', fun l hl => ?_⟩
  have hexec : exec o abs' l = exec o abs l := T.agree L habs hl
  rw [hexec, ← hresult l hl]
  -- a location that the operation has left behind keeps its value
  by_cases hl' : scope pc l
  · exact (hsame l hl').symm
  · rw [hends'.frame L hl', hends.frame L hl']
    exact hm l hl

/-- What a turn of the agent `a` can be. -/
inductive Turn (C : Code ι V Op Pc) (s : State ι V Op Pc A) (a : A) : State ι V Op Pc A → Prop
  | begin {o : Op} {os : List Op} (hidle : (s.thread a).busy = none)
      (htodo : (s.thread a).todo = o :: os) :
      Turn C s a { s with thread := Function.update s.thread a ⟨os, some (o, C.start o)⟩ }
  | next {o : Op} {pc pc' : Pc} {m : ι → V} (hbusy : (s.thread a).busy = some (o, pc))
      (hs : C.micro pc s.mem = (some pc', m)) :
      Turn C s a { s with
        mem := m
        thread := Function.update s.thread a ⟨(s.thread a).todo, some (o, pc')⟩ }
  | finish {o : Op} {pc : Pc} {m : ι → V} (hbusy : (s.thread a).busy = some (o, pc))
      (hs : C.micro pc s.mem = (none, m)) :
      Turn C s a {
        mem := m
        thread := Function.update s.thread a ⟨(s.thread a).todo, none⟩
        log := s.log ++ [(a, o)] }

theorem Turn.of_step (h : step C s a = some s') : Turn C s a s' := by
  unfold step at h
  cases hbusy : (s.thread a).busy with
  | none =>
    cases htodo : (s.thread a).todo with
    | nil =>
      simp only [hbusy, htodo] at h
      cases h
    | cons o os =>
      simp only [hbusy, htodo, Option.some.injEq] at h
      rw [← h]
      exact .begin hbusy htodo
  | some op =>
    obtain ⟨o, pc⟩ := op
    rcases hs : C.micro pc s.mem with ⟨pc' | pc', m⟩
    · simp only [hbusy, hs, Option.some.injEq] at h
      rw [← h]
      exact .finish hbusy hs
    · simp only [hbusy, hs, Option.some.injEq] at h
      rw [← h]
      exact .next hbusy hs

/-- One agent `a` moves.  Its own part of the invariant has to be shown; the operations of the
    others are not disturbed if the memory changes outside their scopes. -/
theorem Inv.update (T : Total C exec) (L : Local C scope) (h : Inv C scope exec m₀ prog s)
    {t : Thread Op Pc} {log : List (A × Op)}
    (hquiet : ∀ l, (∀ o pc, t.busy = some (o, pc) → ¬ scope (C.start o) l) →
      (∀ b o pc, b ≠ a → (s.thread b).busy = some (o, pc) → ¬ scope (C.start o) l) →
      m l = execAll exec m₀ (log.map Prod.snd) l)
    (hself : ∀ o pc, t.busy = some (o, pc) →
      UnderWay C scope exec (execAll exec m₀ (log.map Prod.snd)) m o pc)
    (hother : ∀ b o pc, b ≠ a → (s.thread b).busy = some (o, pc) → ∀ l, scope (C.start o) l →
      m l = s.mem l ∧ execAll exec m₀ (log.map Prod.snd) l = s.abs exec m₀ l)
    (hapart : ∀ o pc, t.busy = some (o, pc) → ∀ b o' pc', b ≠ a →
      (s.thread b).busy = some (o', pc') → ∀ l, scope (C.start o) l → ¬ scope (C.start o') l)
    (hlog : ∀ b, b ≠ a → (log.filter fun e => e.1 = b) = s.log.filter fun e => e.1 = b)
    (horder : (log.filter fun e => e.1 = a).map Prod.snd ++
      (t.busy.toList.map Prod.fst ++ t.todo) = prog a) :
    Inv C scope exec m₀ prog ⟨m, Function.update s.thread a t, log⟩ := by
  -- who is busy now
  have hbusy : ∀ b o pc, (Function.update s.thread a t b).busy = some (o, pc) →
      (b = a ∧ t.busy = some (o, pc)) ∨ (b ≠ a ∧ (s.thread b).busy = some (o, pc)) := by
    intro b o pc hb
    by_cases hba : b = a
    · subst hba
      rw [update_self] at hb
      exact .inl ⟨rfl, hb⟩
    · rw [update_of_ne hba] at hb
      exact .inr ⟨hba, hb⟩
  refine ⟨fun l hl => ?_, fun b o pc hb => ?_, fun b c o pc o' pc' hbc hb hc l hl => ?_,
    fun b => ?_⟩
  · refine hquiet l (fun o pc ht => ?_) fun b o pc hb hbusy => ?_
    · refine hl a o pc ?_
      show (Function.update s.thread a t a).busy = some (o, pc)
      rw [update_self]
      exact ht
    · refine hl b o pc ?_
      show (Function.update s.thread a t b).busy = some (o, pc)
      rw [update_of_ne hb]
      exact hbusy
  · rcases hbusy b o pc hb with ⟨-, ht⟩ | ⟨hba, hb⟩
    · exact hself o pc ht
    · exact (h.underWay b o pc hb).other T L (fun l hl => (hother b o pc hba hb l hl).2)
        fun l hl => (hother b o pc hba hb l hl).1
  · rcases hbusy b o pc hb with ⟨hba, ht⟩ | ⟨hba, hb'⟩
    · rcases hbusy c o' pc' hc with ⟨hca, -⟩ | ⟨hca, hc'⟩
      · exact absurd (hba.trans hca.symm) hbc
      · exact hapart o pc ht c o' pc' hca hc' l hl
    · rcases hbusy c o' pc' hc with ⟨-, ht⟩ | ⟨-, hc'⟩
      · exact fun hl' => hapart o' pc' ht b o pc hba hb' l hl' hl
      · exact h.apart b c o pc o' pc' hbc hb' hc' l hl
  · show (log.filter fun e => e.1 = b).map Prod.snd ++
      ((Function.update s.thread a t b).busy.toList.map Prod.fst ++
        (Function.update s.thread a t b).todo) = prog b
    by_cases hba : b = a
    · subst hba
      rw [update_self]
      exact horder
    · rw [update_of_ne hba, hlog b hba]
      exact h.order b

theorem Inv.begin (T : Total C exec) (L : Local C scope) (h : Inv C scope exec m₀ prog s)
    {os : List Op} (hidle : (s.thread a).busy = none)
    (htodo : (s.thread a).todo = o :: os) (hapart : Apart C scope s a) :
    Inv C scope exec m₀ prog
      { s with thread := Function.update s.thread a ⟨os, some (o, C.start o)⟩ } := by
  have hfree : ∀ b o' pc, (s.thread b).busy = some (o', pc) →
      ∀ l, scope (C.start o) l → ¬ scope (C.start o') l :=
    hapart hidle o (by rw [htodo]; rfl)
  have hmem : ∀ l, scope (C.start o) l → s.mem l = s.abs exec m₀ l :=
    fun l hl => h.quiet l fun b o' pc hb => hfree b o' pc hb l hl
  refine h.update T L (fun l _ hl => ?_) (fun o' pc ht => ?_) (fun _ _ _ _ _ _ _ => ⟨rfl, rfl⟩)
    (fun o' pc ht b o2 pc2 _ hb => ?_) (fun _ _ => rfl) ?_
  · refine h.quiet l fun b o' pc hb => ?_
    have hba : b ≠ a := by
      rintro rfl
      rw [hidle] at hb
      cases hb
    exact hl b o' pc hba hb
  · cases ht
    exact ⟨fun _ hl => hl, exec o s.mem, T o s.mem, fun l hl => T.agree L hmem hl⟩
  · cases ht
    exact hfree b o2 pc2 hb
  · have horder := h.order a
    rw [hidle, htodo] at horder
    exact horder

section Inside

variable {o : Op} {pc pc' : Pc} {m : ι → V}
variable {l : ι}

theorem Inv.step_frame (L : Local C scope) (h : Inv C scope exec m₀ prog s)
    (hbusy : (s.thread a).busy = some (o, pc)) (hs : (C.micro pc s.mem).2 = m)
    (hl : ¬ scope (C.start o) l) : m l = s.mem l := by
  rw [← hs]
  exact L.frame pc s.mem l fun hin => hl ((h.underWay a o pc hbusy).inside l hin)

theorem Inv.quiet_outside (h : Inv C scope exec m₀ prog s)
    (hbusy : (s.thread a).busy = some (o, pc)) (hout : ¬ scope (C.start o) l)
    (hothers : ∀ b o' pc', b ≠ a → (s.thread b).busy = some (o', pc') → ¬ scope (C.start o') l) :
    s.mem l = s.abs exec m₀ l := by
  refine h.quiet l fun b o' pc' hb => ?_
  by_cases hba : b = a
  · subst hba
    rw [hbusy] at hb
    cases hb
    exact hout
  · exact hothers b o' pc' hba hb

theorem Inv.next (T : Total C exec) (L : Local C scope) (h : Inv C scope exec m₀ prog s)
    (hbusy : (s.thread a).busy = some (o, pc)) (hs : C.micro pc s.mem = (some pc', m)) :
    Inv C scope exec m₀ prog
      { s with
        mem := m
        thread := Function.update s.thread a ⟨(s.thread a).todo, some (o, pc')⟩ } := by
  have hframe : ∀ l, ¬ scope (C.start o) l → m l = s.mem l :=
    fun l hl => h.step_frame L hbusy (by rw [hs]) hl
  obtain ⟨hinside, e, hends, hresult⟩ := h.underWay a o pc hbusy
  refine h.update T L (fun l hself hl => ?_) (fun o' pc1 ht => ?_) (fun b o' pc1 hb hbusy' l hl =>
    ⟨?_, rfl⟩) (fun o' pc1 ht b o2 pc2 hb hbusy' => ?_) (fun _ _ => rfl) ?_
  · have hout : ¬ scope (C.start o) l := hself o pc' rfl
    rw [hframe l hout]
    exact h.quiet_outside hbusy hout hl
  · -- the code left alone still ends where it would have ended
    cases ht
    refine ⟨fun l hl => hinside l ?_, e, hends.of_next hs, hresult⟩
    exact L.shrink pc s.mem pc' (by rw [hs]) l hl
  · exact hframe l fun hin => h.apart a b o pc o' pc1 hb.symm hbusy hbusy' l hin hl
  · cases ht
    exact h.apart a b o pc o2 pc2 hb.symm hbusy hbusy'
  · have horder := h.order a
    rw [hbusy] at horder
    exact horder

/-- The last step of an operation: on its scope the memory is what the operation
    makes of the completed ones, elsewhere nothing has changed. -/
theorem Inv.finish (T : Total C exec) (L : Local C scope) (h : Inv C scope exec m₀ prog s)
    (hbusy : (s.thread a).busy = some (o, pc)) (hs : C.micro pc s.mem = (none, m)) :
    Inv C scope exec m₀ prog
      { mem := m
        thread := Function.update s.thread a ⟨(s.thread a).todo, none⟩
        log := s.log ++ [(a, o)] } := by
  have hframe : ∀ l, ¬ scope (C.start o) l → m l = s.mem l :=
    fun l hl => h.step_frame L hbusy (by rw [hs]) hl
  have habs : execAll exec m₀ ((s.log ++ [(a, o)]).map Prod.snd) = exec o (s.abs exec m₀) := by
    rw [List.map_append, execAll, List.foldl_append]
    rfl
  -- the end that the invariant has announced is now
  obtain ⟨-, e, hends, hresult⟩ := h.underWay a o pc hbusy
  have he : e = m := hends.of_last hs
  subst he
  refine h.update T L (fun l _ hl => ?_) (fun o' pc1 ht => ?_)
    (fun b o' pc1 hb hbusy' l hl => ?_) (fun o' pc1 ht => ?_) (fun b hb => ?_) ?_
  · rw [habs]
    by_cases hin : scope (C.start o) l
    · exact hresult l hin
    · rw [hframe l hin, T.frame L hin]
      exact h.quiet_outside hbusy hin hl
  · cases ht
  · -- on the scope of another operation nothing has been completed
    have hout : ¬ scope (C.start o) l :=
      fun hin => h.apart a b o pc o' pc1 hb.symm hbusy hbusy' l hin hl
    rw [habs]
    exact ⟨hframe l hout, T.frame L hout⟩
  · cases ht
  · simp [List.filter_append, Ne.symm hb]
  · have horder := h.order a
    rw [hbusy] at horder
    simpa [List.filter_append] using horder

end Inside

theorem Inv.step (T : Total C exec) (L : Local C scope) (h : Inv C scope exec m₀ prog s)
    (hapart : Apart C scope s a) (hs : step C s a = some s') : Inv C scope exec m₀ prog s' := by
  cases Turn.of_step hs with
  | begin hidle htodo => exact h.begin T L hidle htodo hapart
  | next hbusy hmicro => exact h.next T L hbusy hmicro
  | finish hbusy hmicro => exact h.finish T L hbusy hmicro

theorem Inv.finished (h : Inv C scope exec m₀ prog s) (hf : s.Finished) :
    s.mem = execAll exec m₀ (s.log.map Prod.snd) ∧
      ∀ a, (s.log.filter fun e => e.1 = a).map Prod.snd = prog a := by
  refine ⟨funext fun l => h.quiet l fun b o pc hb => ?_, fun b => ?_⟩
  · rw [(hf b).2] at hb
    cases hb
  · have horder := h.order b
    rw [(hf b).1, (hf b).2] at horder
    simpa using horder

end Step

/-- **Operations that keep apart are carried out as if one after the other**, in
    an order that keeps the program of every agent. -/
theorem serial [DecidableEq A] (T : Total C exec) (L : Local C scope) {m₀ : ι → V}
    {prog : A → List Op} {turns : List A}
    (h : Meets (step C) (Apart C scope) (init m₀ prog) turns) :
    Along (step C) (fun s => s.Finished → ∃ order : List (A × Op),
      (∀ a, (order.filter fun e => e.1 = a).map Prod.snd = prog a) ∧
      s.mem = execAll exec m₀ (order.map Prod.snd)) (init m₀ prog) turns := by
  have hrun : Along (step C) (Inv C scope exec m₀ prog) (init m₀ prog) turns :=
    along_of_meets inv_init (fun _ _ _ hs hapart hstep => hs.step T L hapart hstep) h
  refine hrun.mono fun s hs hf => ?_
  obtain ⟨hmem, horder⟩ := hs.finished hf
  exact ⟨s.log, horder, hmem⟩

end Interleave
