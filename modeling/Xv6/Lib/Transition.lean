/-
  Xv6.Lib.Transition

  Deterministic labelled transition systems: a partial step function on a
  state type, with labels for the choices of the environment.

  `Along` and `Meets` speak of the part of a run before the first label that is
  not enabled.  A system refines a specification when the `observations` of its
  runs are traces of the specification.
-/

import Mathlib.Tactic

namespace Transition

open Option

variable {σ α : Type*}

/-- Run a list of labels; `none` when one of them is not enabled. -/
def run (step : σ → α → Option σ) : σ → List α → Option σ
  | s, [] => some s
  | s, a :: as => (step s a).bind fun s' => run step s' as

/-- `s` is reached from `s₀` by some run. -/
inductive Reachable (step : σ → α → Option σ) (s₀ : σ) : σ → Prop
  | refl : Reachable step s₀ s₀
  | tail {s s' : σ} {a : α} (h : Reachable step s₀ s) (hs : step s a = some s') :
      Reachable step s₀ s'

def Along (step : σ → α → Option σ) (P : σ → Prop) : σ → List α → Prop
  | s, [] => P s
  | s, a :: as => P s ∧ ∀ s', step s a = some s' → Along step P s' as

def Meets (step : σ → α → Option σ) (C : σ → α → Prop) : σ → List α → Prop
  | _, [] => True
  | s, a :: as => ∀ s', step s a = some s' → C s a ∧ Meets step C s' as

variable {step : σ → α → Option σ}
variable {P I Q : σ → Prop} {s s' : σ} {as : List α} {C : σ → α → Prop}

instance Meets.decidable {C : σ → α → Prop} [∀ s a, Decidable (C s a)] :
    ∀ (s : σ) (as : List α), Decidable (Meets step C s as)
  | _, [] => .isTrue trivial
  | s, a :: as =>
    match hs : step s a with
    | none => .isTrue fun s' hs' => by rw [hs] at hs'; cases hs'
    | some s' =>
      have : Decidable (Meets step C s' as) := Meets.decidable s' as
      decidable_of_iff (C s a ∧ Meets step C s' as)
        ⟨fun h t ht => by rw [hs] at ht; cases ht; exact h, fun h => h s' hs⟩

theorem exists_run [DecidablePred P] (h : (run step s as).any (fun s' => decide (P s')) = true) :
    ∃ s', run step s as = some s' ∧ P s' := by
  obtain ⟨s', hs', hP⟩ := (any_eq_true _ _).mp h
  exact ⟨s', hs', of_decide_eq_true hP⟩

theorem Reachable.trans {s0 s1 s2 : σ} (h1 : Reachable step s0 s1) (h2 : Reachable step s1 s2) :
    Reachable step s0 s2 := by
  induction h2 with
  | refl => exact h1
  | tail _ hs ih => exact .tail ih hs

theorem Reachable.of_run (h : run step s as = some s') : Reachable step s s' := by
  induction as generalizing s with
  | nil =>
    cases h
    exact .refl
  | cons a as ih =>
    obtain ⟨t, ht, hrun⟩ := bind_eq_some_iff.mp h
    exact Reachable.trans (.tail .refl ht) (ih hrun)

/-- **The invariant rule.** -/
theorem Reachable.invariant {s0 : σ} (h0 : I s0) (hstep : ∀ s a s', I s → step s a = some s' → I s')
    (h : Reachable step s0 s) : I s := by
  induction h with
  | refl => exact h0
  | tail _ hs ih => exact hstep _ _ _ ih hs

theorem Along.head (h : Along step P s as) : P s := by
  cases as with
  | nil => exact h
  | cons a as => exact h.1

theorem along_iff_run :
    Along step P s as ↔ ∀ pre post s', as = pre ++ post → run step s pre = some s' → P s' := by
  -- the prefixes of a run are the empty one and those of its rest
  induction as generalizing s with
  | nil =>
    constructor
    · rintro h pre post s' he hrun
      obtain ⟨rfl, -⟩ := List.append_eq_nil_iff.mp he.symm
      cases hrun
      exact h
    · intro h
      exact h [] [] s rfl rfl
  | cons a as ih =>
    constructor
    · rintro ⟨hP, hrest⟩ pre post s' he hrun
      cases pre with
      | nil =>
        cases hrun
        exact hP
      | cons b pre =>
        obtain ⟨rfl, rfl⟩ := List.cons_eq_cons.mp he
        obtain ⟨t, ht, hrun'⟩ := bind_eq_some_iff.mp hrun
        exact ih.mp (hrest t ht) pre post s' rfl hrun'
    · intro h
      refine ⟨h [] (a :: as) s rfl rfl, fun t ht => ih.mpr ?_⟩
      intro pre post s' he hrun
      refine h (a :: pre) post s' (by rw [he]; rfl) ?_
      exact bind_eq_some_iff.mpr ⟨t, ht, hrun⟩

/-- **The conditional invariant rule.**  If every step that meets `C` keeps the
    invariant `I`, then `I` holds along every run whose steps all meet `C`. -/
theorem along_of_meets (h0 : I s) (hstep : ∀ s a s', I s → C s a → step s a = some s' → I s')
    (hC : Meets step C s as) : Along step I s as := by
  induction as generalizing s with
  | nil => exact h0
  | cons a as ih =>
    refine ⟨h0, fun s' hs => ?_⟩
    obtain ⟨hCa, hrest⟩ := hC s' hs
    exact ih (hstep s a s' h0 hCa hs) hrest

theorem along_of_invariant (h0 : I s)
    (hstep : ∀ s a s', I s → step s a = some s' → I s') (as : List α) : Along step I s as := by
  induction as generalizing s with
  | nil => exact h0
  | cons a as ih => exact ⟨h0, fun s' hs => ih (hstep s a s' h0 hs)⟩

theorem Along.mono (hPQ : ∀ s, P s → Q s) (h : Along step P s as) : Along step Q s as := by
  induction as generalizing s with
  | nil => exact hPQ s h
  | cons a as ih => exact ⟨hPQ s h.1, fun s' hs => ih (h.2 s' hs)⟩

theorem Along.and (hP : Along step P s as)
    (hQ : Along step Q s as) : Along step (fun s => P s ∧ Q s) s as := by
  induction as generalizing s with
  | nil => exact ⟨hP, hQ⟩
  | cons a as ih => exact ⟨⟨hP.1, hQ.1⟩, fun s' hs => ih (hP.2 s' hs) (hQ.2 s' hs)⟩

theorem Meets.mono {D : σ → α → Prop} (hCD : ∀ s a, C s a → D s a)
    (h : Meets step C s as) : Meets step D s as := by
  induction as generalizing s with
  | nil => trivial
  | cons a as ih => exact fun s' hs => ⟨hCD s a (h s' hs).1, ih (h s' hs).2⟩

theorem meets_of_labels (h : ∀ a ∈ as, ∀ s, C s a) : Meets step C s as := by
  induction as generalizing s with
  | nil => trivial
  | cons a as ih =>
    intro s' _
    exact ⟨h a List.mem_cons_self s, ih fun a' ha' => h a' (List.mem_cons_of_mem a ha')⟩

/-- **The exact rule.**  If from every state with the invariant `I` a step ends
    in `P` exactly when it meets `C`, and `I` survives the steps that keep `P`,
    then `P` holds along a run exactly when every step of the run meets `C`. -/
theorem along_iff_meets (hI : I s) (hP : P s)
    (hkeep : ∀ s a s', I s → P s → P s' → step s a = some s' → I s')
    (hexact : ∀ s a s', I s → P s → step s a = some s' → (P s' ↔ C s a)) :
    Along step P s as ↔ Meets step C s as := by
  induction as generalizing s with
  | nil => exact ⟨fun _ => trivial, fun _ => hP⟩
  | cons a as ih =>
    constructor
    · -- `P` in the next state is what makes the step meet `C`
      rintro ⟨-, hrest⟩ s' hs
      have hP' : P s' := (hrest s' hs).head
      have hI' : I s' := hkeep s a s' hI hP hP' hs
      exact ⟨(hexact s a s' hI hP hs).mp hP', (ih hI' hP').mp (hrest s' hs)⟩
    · intro hC
      refine ⟨hP, fun s' hs => ?_⟩
      obtain ⟨hCa, hrest⟩ := hC s' hs
      have hP' : P s' := (hexact s a s' hI hP hs).mpr hCa
      have hI' : I s' := hkeep s a s' hI hP hP' hs
      exact (ih hI' hP').mpr hrest

/-! ## Refinement -/

variable {τ ω : Type*}

/-- What is seen of a run, step by step. -/
def observations (step : σ → α → Option σ) (obs : σ → α → σ → ω) : σ → List α → List ω
  | _, [] => []
  | s, a :: as =>
    match step s a with
    | none => []
    | some s' => obs s a s' :: observations step obs s' as

inductive Trace (spec : τ → ω → τ → Prop) : τ → List ω → τ → Prop
  | nil {t : τ} : Trace spec t [] t
  | cons {t t' t'' : τ} {o : ω} {os : List ω} (h : spec t o t') (hs : Trace spec t' os t'') :
      Trace spec t (o :: os) t''

/-- **The refinement rule.**  If every step, seen through the abstraction
    function `f`, is a step of the specification, then so is every run. -/
theorem trace_of_run (f : σ → τ) (obs : σ → α → σ → ω) (spec : τ → ω → τ → Prop)
    (hstep : ∀ s a s', I s → step s a = some s' → I s' ∧ spec (f s) (obs s a s') (f s')) (hI : I s)
    (hrun : run step s as = some s') : Trace spec (f s) (observations step obs s as) (f s') := by
  induction as generalizing s with
  | nil =>
    cases hrun
    exact .nil
  | cons a as ih =>
    obtain ⟨t, ht, hrest⟩ := bind_eq_some_iff.mp hrun
    obtain ⟨hI', hspec⟩ := hstep s a t hI ht
    simp only [observations, ht]
    exact .cons hspec (ih hI' hrest)

end Transition
