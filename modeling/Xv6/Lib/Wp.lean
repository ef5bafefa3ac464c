/-
  Xv6.Lib.Wp

  Weakest preconditions for programs that read and change a state and may
  fail: `wp f Q E s` says that `f`, run from `s`, either returns in `Q` or
  fails in `E`.  A failed program leaves the state as it was at that point, so
  `E` speaks about it as well.

  Every program has exactly one outcome, so these are statements of total
  correctness: with `E` false, `f` returns.
-/

import Mathlib.Tactic

namespace Wp

variable {ε σ α β : Type}

/-- From `s`, the program `f` returns in `Q` or fails in `E`. -/
def wp (f : EStateM ε σ α) (Q : α → σ → Prop) (E : ε → σ → Prop) (s : σ) : Prop :=
  match f s with
  | .ok a s' => Q a s'
  | .error e s' => E e s'

variable {f : EStateM ε σ α} {Q Q' : α → σ → Prop} {E E' : ε → σ → Prop} {s s' : σ}
variable {g : α → EStateM ε σ β} {R : β → σ → Prop}

/-! ## Between `wp` and the outcome -/

theorem wp_of_ok {a : α} (h : f s = .ok a s') : wp f Q E s ↔ Q a s' := by
  unfold wp
  rw [h]

theorem wp_of_error {e : ε} (h : f s = .error e s') : wp f Q E s ↔ E e s' := by
  unfold wp
  rw [h]

theorem exists_ok (h : wp f Q (fun _ _ => False) s) : ∃ a s', f s = .ok a s' ∧ Q a s' := by
  unfold wp at h
  split at h
  · rename_i a s' hf
    exact ⟨a, s', hf, h⟩
  · exact h.elim

theorem wp_and (h : wp f Q E s) (h' : wp f Q' E' s) :
    wp f (fun a s' => Q a s' ∧ Q' a s') (fun e s' => E e s' ∧ E' e s') s := by
  unfold wp at h h' ⊢
  split at h
  · rename_i hf
    rw [hf] at h'
    exact ⟨h, h'⟩
  · rename_i hf
    rw [hf] at h'
    exact ⟨h, h'⟩

theorem wp_mono (h : wp f Q E s) (hQ : ∀ a s', Q a s' → Q' a s') (hE : ∀ e s', E e s' → E' e s') :
    wp f Q' E' s := by
  unfold wp at h ⊢
  split at h
  · exact hQ _ _ h
  · exact hE _ _ h

/-! ## The program constructs -/

theorem wp_loose (h : wp f Q E s) : wp f Q (fun _ _ => True) s :=
  wp_mono h (fun _ _ h => h) fun _ _ _ => trivial

theorem wp_any (h : ∀ a s', Q a s') : wp f Q (fun _ _ => True) s := by
  unfold wp
  split
  · exact h _ _
  · trivial

def passes (r : EStateM.Result ε σ α) (check : α → σ → Bool) : Bool :=
  match r with
  | .ok a s => check a s
  | .error _ _ => false

theorem of_passes {r : EStateM.Result ε σ α} {check : α → σ → Bool} (h : passes r check = true) :
    ∃ a s, r = .ok a s ∧ check a s = true := by
  cases r with
  | ok a s => exact ⟨a, s, rfl, h⟩
  | error e s => cases h

@[simp] theorem wp_pure (a : α) : wp (pure a : EStateM ε σ α) Q E s ↔ Q a s := Iff.rfl

def look (g : σ → α) : EStateM ε σ α := fun s => .ok (g s) s

def change (g : σ → σ) : EStateM ε σ Unit := fun s => .ok () (g s)

def fail (e : ε) : EStateM ε σ α := fun s => .error e s

@[simp] theorem wp_look (g : σ → α) : wp (look g) Q E s ↔ Q (g s) s := Iff.rfl

@[simp] theorem wp_change {Q : Unit → σ → Prop} (g : σ → σ) :
    wp (change g) Q E s ↔ Q () (g s) := Iff.rfl

@[simp] theorem wp_bind : wp (f >>= g) R E s ↔ wp f (fun a s' => wp (g a) R E s') E s := by
  show (match EStateM.bind f g s with | .ok b s' => R b s' | .error e s' => E e s') ↔ _
  unfold EStateM.bind wp
  cases f s with
  | ok a s' => exact Iff.rfl
  | error e s' => exact Iff.rfl

/-! The same as rules, to be applied to a program that starts so. -/

theorem bind_of_ok {a : α} (h : f s = .ok a s') : (f >>= g) s = g a s' := by
  show EStateM.bind f g s = _
  unfold EStateM.bind
  rw [h]

theorem wp_seq (h : wp f (fun a s' => wp (g a) R E s') E s) : wp (f >>= g) R E s := wp_bind.mpr h

theorem wp_read {g : σ → α} {k : α → EStateM ε σ β}
    (h : wp (k (g s)) R E s) : wp (look g >>= k) R E s := wp_bind.mpr h

theorem wp_write {g : σ → σ} {k : Unit → EStateM ε σ β}
    (h : wp (k ()) R E (g s)) : wp (change g >>= k) R E s := wp_bind.mpr h

theorem wp_ite {c : Prop} [Decidable c] {g : EStateM ε σ α} (hpos : c → wp f Q E s)
    (hneg : ¬ c → wp g Q E s) : wp (if c then f else g) Q E s := by
  by_cases hc : c
  · rw [if_pos hc]
    exact hpos hc
  · rw [if_neg hc]
    exact hneg hc

/-- The invariant of a loop over a list may depend on what is left of it. -/
theorem wp_forM {f : β → EStateM ε σ PUnit} {Q : PUnit → σ → Prop} (I : List β → σ → Prop)
    {l : List β} (h0 : I l s)
    (hstep : ∀ x rest s, I (x :: rest) s → wp (f x) (fun _ s' => I rest s') E s)
    (hend : ∀ s, I [] s → Q ⟨⟩ s) : wp (l.forM f) Q E s := by
  induction l generalizing s with
  | nil => exact hend s h0
  | cons x rest ih =>
    rw [List.forM, wp_bind]
    exact wp_mono (hstep x rest s h0) (fun _ s' hs' => ih hs') fun _ _ he => he

def zoom {τ : Type} (get : τ → σ) (put : σ → τ → τ) (f : EStateM ε σ α) : EStateM ε τ α := fun t =>
  match f (get t) with
  | .ok a s => .ok a (put s t)
  | .error e s => .error e (put s t)

@[simp] theorem wp_zoom {τ : Type} {get : τ → σ} {put : σ → τ → τ} {Q : α → τ → Prop}
    {E : ε → τ → Prop} {t : τ} : wp (zoom get put f) Q E t ↔ wp f (fun a s => Q a (put s t))
    (fun e s => E e (put s t)) (get t) := by
  unfold wp
  simp only [zoom]
  cases f (get t) with
  | ok a s => exact Iff.rfl
  | error e s => exact Iff.rfl

/-! ## Frame rules: a program leaves an observation of the state alone -/

section

variable {γ : Type}

/-- When `f` comes back, `g` has the value it had. -/
def Leaves (g : σ → γ) (f : EStateM ε σ α) : Prop :=
  ∀ s, wp f (fun _ s' => g s' = g s) (fun _ _ => True) s

variable {g : σ → γ}

theorem leaves_pure (a : α) : Leaves g (pure a : EStateM ε σ α) := fun _ => rfl

theorem leaves_fail (e : ε) : Leaves g (fail e : EStateM ε σ α) := fun _ => trivial

theorem leaves_look (h : σ → α) : Leaves g (look h : EStateM ε σ α) := fun _ => rfl

theorem leaves_change {h : σ → σ} (hg : ∀ s, g (h s) = g s) :
    Leaves g (change h : EStateM ε σ Unit) := hg

theorem Leaves.bind {k : α → EStateM ε σ β} (hf : Leaves g f) (hk : ∀ a, Leaves g (k a)) :
    Leaves g (f >>= k) := by
  intro s
  refine wp_seq (wp_mono (hf s) (fun a s1 h1 => ?_) fun _ _ _ => trivial)
  exact wp_mono (hk a s1) (fun _ _ h2 => h2.trans h1) fun _ _ _ => trivial

theorem Leaves.ite {c : Prop} [Decidable c] {f' : EStateM ε σ α} (hf : Leaves g f)
    (hf' : Leaves g f') : Leaves g (if c then f else f') := by
  split
  · exact hf
  · exact hf'

theorem leaves_forM {h : β → EStateM ε σ PUnit} (hh : ∀ x, Leaves g (h x)) (l : List β) :
    Leaves g (l.forM h) := by
  induction l with
  | nil => exact leaves_pure _
  | cons x l ih => exact (hh x).bind fun _ => ih

/-- **The frame rule.** -/
theorem Leaves.wp {s : σ} {Q : α → σ → Prop} {E : ε → σ → Prop} (hf : Leaves g f)
    (h : wp f Q E s) : wp f (fun a s' => Q a s' ∧ g s' = g s) E s :=
  wp_mono (wp_and h (hf s)) (fun _ _ h => h) fun _ _ h => h.1

end

end Wp
