/-
  Xv6.Lib.ProcessTree

  The life cycle of processes under fork, exit and wait, over an arbitrary
  type of slots and without any scheduling.

  Whoever exits leaves its children to a distinguished process that never
  exits.  `trace` keeps the forks, exits and waits, newest first.  The `history`
  part of the invariant says what a wait may return: each pid once, after its
  exit, to the forker or, once that one has exited, to the distinguished
  process.
-/

import Mathlib.Tactic

namespace ProcessTree

open List

inductive Life where
  | free | embryo | live | dead
deriving DecidableEq

inductive Event where
  | forked (parent child : Int)
  | exited (pid : Int)
  | reaped (parent child : Int)
deriving DecidableEq

def Event.subject : Event → Int
  | .forked _ n => n
  | .exited n => n
  | .reaped _ n => n

/-- `pid` is meaningful for slots that are not free, `parent` for live and dead ones. -/
@[ext] structure Table (σ : Type*) where
  life : σ → Life
  pid : σ → Int
  parent : σ → Option σ
  init : Option σ
  next : Int
  trace : List Event

namespace Table

variable {σ : Type*}

/-! ## The invariant -/

def Present (t : Table σ) (p : σ) : Prop := t.life p = .live ∨ t.life p = .dead

structure Justified (t : Table σ) (w n : Int) (past : List Event) : Prop where
  exited : .exited n ∈ past
  first : ∀ w', .reaped w' n ∉ past
  forker : ∀ f, .forked f n ∈ t.trace →
    .forked f n ∈ past ∧ (w = f ∨ ∃ q, t.init = some q ∧ t.pid q = w ∧ .exited f ∈ past)

structure Inv (t : Table σ) : Prop where
  next_pos : 0 < t.next
  pid_range : ∀ p, t.life p ≠ .free → 0 < t.pid p ∧ t.pid p < t.next
  pid_inj : ∀ p q, t.life p ≠ .free → t.life q ≠ .free → t.pid p = t.pid q → p = q
  /-- The distinguished process never exits. -/
  init_live : ∀ q, t.init = some q → t.life q = .live
  init_some : ∀ p, t.Present p → t.init ≠ none
  /-- Nobody is orphaned. -/
  parent_live : ∀ p, t.Present p → t.init ≠ some p → ∃ q, t.parent p = some q ∧ t.life q = .live
  subject_lt : ∀ e ∈ t.trace, e.subject < t.next
  embryo_fresh : ∀ p, t.life p = .embryo → ∀ e ∈ t.trace, e.subject ≠ t.pid p
  init_unforked : ∀ q, t.init = some q → ∀ f, .forked f (t.pid q) ∉ t.trace
  dead_exited : ∀ p, t.life p = .dead → .exited (t.pid p) ∈ t.trace
  unreaped : ∀ p, t.life p ≠ .free → ∀ w, .reaped w (t.pid p) ∉ t.trace
  forker : ∀ p, t.Present p → ∀ f, .forked f (t.pid p) ∈ t.trace →
    ∃ q, t.parent p = some q ∧ (t.pid q = f ∨ (t.init = some q ∧ .exited f ∈ t.trace))
  history : ∀ pre w n past, t.trace = pre ++ .reaped w n :: past → t.Justified w n past

def empty : Table σ where
  life := fun _ => .free
  pid := fun _ => 0
  parent := fun _ => none
  init := none
  next := 1
  trace := []

theorem inv_empty : (empty : Table σ).Inv where
  next_pos := Int.zero_lt_one
  pid_range := fun _ h => absurd rfl h
  pid_inj := fun _ _ h => absurd rfl h
  init_live := fun _ h => by cases h
  init_some := by rintro p (h | h) <;> cases h
  parent_live := by rintro p (h | h) <;> cases h
  subject_lt := fun _ h => by cases h
  embryo_fresh := fun _ h => by cases h
  init_unforked := fun _ h => by cases h
  dead_exited := fun _ h => by cases h
  unreaped := fun _ h => absurd rfl h
  forker := by rintro p (h | h) <;> cases h
  history := fun pre w n past h => by simp [empty] at h

theorem Inv.owner {t : Table σ} (h : t.Inv) {p : σ} (hp : t.Present p)
    {f : Int} (hf : .forked f (t.pid p) ∈ t.trace) : ∃ q, t.parent p = some q ∧ t.life q = .live ∧
    (t.pid q = f ∨ (t.init = some q ∧ .exited f ∈ t.trace)) := by
  obtain ⟨q, hq, hown⟩ := h.forker p hp f hf
  have hpi : t.init ≠ some p := fun hpi => h.init_unforked p hpi f hf
  obtain ⟨q', hq', hlive⟩ := h.parent_live p hp hpi
  cases hq.symm.trans hq'
  exact ⟨q, hq, hlive, hown⟩

theorem Justified.keep {t t' : Table σ} {w n : Int} {past : List Event} (h : t.Justified w n past)
    (hinit : ∀ q, t.init = some q → t'.init = some q ∧ t'.pid q = t.pid q)
    (hnew : ∀ f, .forked f n ∈ t'.trace → .forked f n ∈ t.trace) : t'.Justified w n past where
  exited := h.exited
  first := h.first
  forker := by
    intro f hf
    obtain ⟨hpast, hw⟩ := h.forker f (hnew f hf)
    refine ⟨hpast, hw.imp_right ?_⟩
    rintro ⟨q, hq, hpid, he⟩
    obtain ⟨hq', hpid'⟩ := hinit q hq
    exact ⟨q, hq', hpid'.trans hpid, he⟩

/-! ## The operations -/

variable [DecidableEq σ]

@[simps] def claim (t : Table σ) (p : σ) : Table σ :=
  { t with
    life := fun q => if q = p then .embryo else t.life q
    pid := fun q => if q = p then t.next else t.pid q
    next := t.next + 1 }

@[simps] def abandon (t : Table σ) (p : σ) : Table σ :=
  { t with
    life := fun q => if q = p then .free else t.life q
    pid := fun q => if q = p then 0 else t.pid q }

@[simps] def start (t : Table σ) (p : σ) (parent : Option σ) : Table σ :=
  { t with
    life := fun q => if q = p then .live else t.life q
    parent := fun q => if q = p then parent else t.parent q
    init := some p }

@[simps] def spawn (t : Table σ) (c p : σ) : Table σ :=
  { t with
    life := fun q => if q = p then .live else t.life q
    parent := fun q => if q = p then some c else t.parent q }

@[simps] def log (t : Table σ) (e : Event) : Table σ :=
  { t with trace := e :: t.trace }

/-- Who a process belongs to after the exit of `c`. -/
def heir (t : Table σ) (c p : σ) : Option σ :=
  if t.parent p = some c then t.init else t.parent p

@[simps] def exit (t : Table σ) (c : σ) : Table σ :=
  { t with
    life := fun q => if q = c then .dead else t.life q
    parent := t.heir c
    trace := .exited (t.pid c) :: t.trace }

@[simps] def reap (t : Table σ) (c p : σ) : Table σ :=
  { t with
    life := fun q => if q = p then .free else t.life q
    pid := fun q => if q = p then 0 else t.pid q
    parent := fun q => if q = p then none else t.parent q
    trace := .reaped (t.pid c) (t.pid p) :: t.trace }

attribute [grind =] claim_life claim_pid claim_parent claim_init claim_next claim_trace
  abandon_life abandon_pid abandon_parent abandon_init abandon_next abandon_trace
  start_life start_pid start_parent start_init start_next start_trace
  spawn_life spawn_pid spawn_parent spawn_init spawn_next spawn_trace
  log_life log_pid log_parent log_init log_next log_trace
  exit_life exit_pid exit_parent exit_init exit_next exit_trace
  reap_life reap_pid reap_parent reap_init reap_next reap_trace

/-- A fork has two rules: `spawn` is one whose caller never learns of it. -/
inductive Step (t : Table σ) : Table σ → Prop
  | claim {p : σ} (hp : t.life p = .free) : Step t (t.claim p)
  | abandon {p : σ} (hp : t.life p = .embryo) : Step t (t.abandon p)
  | start {p : σ} {parent : Option σ} (hi : t.init = none) (hp : t.life p = .embryo) :
      Step t (t.start p parent)
  | spawn {c p : σ} (hc : t.life c = .live) (hp : t.life p = .embryo) : Step t (t.spawn c p)
  | fork {c p : σ} (hc : t.life c = .live) (hp : t.life p = .embryo) :
      Step t ((t.spawn c p).log (.forked (t.pid c) (t.pid p)))
  | exit {c : σ} (hc : t.life c = .live) (hi : t.init ≠ some c) : Step t (t.exit c)
  | reap {c p : σ} (hc : t.life c = .live) (hp : t.life p = .dead)
      (hpar : t.parent p = some c) : Step t (t.reap c p)

/-! ## What a step preserves -/

section Steps

variable {t t' : Table σ}

theorem Inv.pids_step (h : t.Inv) (st : t.Step t') :
    0 < t'.next ∧ (∀ p, t'.life p ≠ .free → 0 < t'.pid p ∧ t'.pid p < t'.next) := by
  have hnext := h.next_pos
  have hrange := h.pid_range
  refine ⟨?_, fun p hp => ?_⟩
  · cases st <;> grind
  · cases st <;> grind

theorem Inv.pid_inj_step (h : t.Inv) (st : t.Step t') (p q : σ) (hp : t'.life p ≠ .free)
    (hq : t'.life q ≠ .free) (he : t'.pid p = t'.pid q) : p = q := by
  have hp0 := h.pid_range p
  have hq0 := h.pid_range q
  have hinj := h.pid_inj p q
  cases st <;> grind

theorem Inv.init_step (h : t.Inv) (st : t.Step t') :
    (∀ q, t'.init = some q → t'.life q = .live) ∧ (∀ p, t'.Present p → t'.init ≠ none) := by
  have hlive := h.init_live
  have hsome : ∀ q, t.life q = .live ∨ t.life q = .dead → t.init ≠ none := h.init_some
  refine ⟨fun q hq => ?_, fun p hp => ?_⟩
  · cases st <;> grind
  · cases st <;> grind [Present]

theorem Inv.heir_live (h : t.Inv) {c p : σ} (hc : t.life c = .live) (hi : t.init ≠ some c)
    (hp : t.Present p) (hpi : t.init ≠ some p) :
    ∃ q, t.heir c p = some q ∧ t.life q = .live ∧ q ≠ c := by
  unfold heir
  by_cases hpar : t.parent p = some c
  · rw [if_pos hpar]
    obtain ⟨q, hq⟩ := Option.ne_none_iff_exists'.mp (h.init_some c (.inl hc))
    refine ⟨q, hq, h.init_live q hq, ?_⟩
    rintro rfl
    exact hi hq
  · rw [if_neg hpar]
    obtain ⟨q, hq, hlive⟩ := h.parent_live p hp hpi
    refine ⟨q, hq, hlive, ?_⟩
    rintro rfl
    exact hpar hq

theorem Inv.parent_live_step (h : t.Inv) (st : t.Step t') (p : σ) (hp : t'.Present p)
    (hpi : t'.init ≠ some p) : ∃ q, t'.parent p = some q ∧ t'.life q = .live := by
  have hold := h.parent_live p
  cases st with
  | claim hr => grind [Present]
  | abandon hr => grind [Present]
  | start hi hr => grind [Present, h.init_some p]
  | spawn hc hr => grind [Present]
  | fork hc hr => grind [Present]
  | @exit c hc hi =>
    have hp0 : t.Present p := by grind [Present]
    obtain ⟨q, hq, hlive, hne⟩ := h.heir_live hc hi hp0 hpi
    refine ⟨q, hq, ?_⟩
    show (if q = c then Life.dead else t.life q) = .live
    rw [if_neg hne]
    exact hlive
  | reap hc hr hpar => grind [Present]

/-! ### Events -/

theorem Inv.subject_lt_step (h : t.Inv) (st : t.Step t') (e : Event) (he : e ∈ t'.trace) :
    e.subject < t'.next := by
  have hold := h.subject_lt e
  have hrange := h.pid_range
  cases st <;> grind [Event.subject]

theorem Inv.embryo_fresh_step (h : t.Inv) (st : t.Step t') (p : σ) (hp : t'.life p = .embryo)
    (e : Event) (he : e ∈ t'.trace) : e.subject ≠ t'.pid p := by
  have hold := h.embryo_fresh p
  have hlt := h.subject_lt e
  have hinj := h.pid_inj p
  cases st <;> grind [Event.subject]

theorem Inv.init_unforked_step (h : t.Inv) (st : t.Step t') (q : σ) (hq : t'.init = some q)
    (f : Int) : .forked f (t'.pid q) ∉ t'.trace := by
  have hold := h.init_unforked q
  have hlive := h.init_live q
  cases st with
  | claim hr => grind
  | abandon hr => grind
  | start hi hr =>
    -- it was an embryo a moment ago, and nobody forks an embryo
    have hfresh := h.embryo_fresh q
    grind [Event.subject]
  | spawn hc hr => grind
  | @fork c p hc hr =>
    -- the new child is not the distinguished process, so its pid is another
    have hinj := h.pid_inj p q
    grind
  | exit hc hi => grind
  | reap hc hr hpar => grind

theorem Inv.dead_exited_step (h : t.Inv) (st : t.Step t') (p : σ) (hp : t'.life p = .dead) :
    .exited (t'.pid p) ∈ t'.trace := by
  have hold := h.dead_exited p
  cases st <;> grind

theorem Inv.unreaped_step (h : t.Inv) (st : t.Step t') (p : σ) (hp : t'.life p ≠ .free)
    (w : Int) : .reaped w (t'.pid p) ∉ t'.trace := by
  -- pids are handed out once, so a reaped one is below `next` and not in use
  have hold := h.unreaped p
  have hlt := h.subject_lt
  have hinj := h.pid_inj p
  cases st <;> grind [Event.subject]

theorem Inv.forker_step (h : t.Inv) (st : t.Step t') (p : σ) (hp : t'.Present p) (f : Int)
    (hf : .forked f (t'.pid p) ∈ t'.trace) :
    ∃ q, t'.parent p = some q ∧ (t'.pid q = f ∨ (t'.init = some q ∧ .exited f ∈ t'.trace)) := by
  have hown := @Inv.owner _ _ h p
  cases st with
  | claim hr => grind [Present]
  | abandon hr => grind [Present]
  | @start r _ hi hr =>
    -- the process that starts was an embryo, which no event is about
    have hfresh := h.embryo_fresh r hr
    have hsome := h.init_some p
    grind [Present, Event.subject]
  | @spawn c r hc hr =>
    have hfresh := h.embryo_fresh r hr
    grind [Present, Event.subject]
  | @fork c r hc hr =>
    have hfresh := h.embryo_fresh r hr
    have hinj := h.pid_inj p r
    grind [Present, Event.subject]
  | @exit c hc hi =>
    have hp0 : t.Present p := by grind [Present]
    have hf0 : .forked f (t.pid p) ∈ t.trace := by grind
    obtain ⟨q, hq, hlive, hcase⟩ := hown hp0 hf0
    obtain ⟨i, hinit⟩ := Option.ne_none_iff_exists'.mp (h.init_some c (.inl hc))
    by_cases hqc : q = c
    · -- the owner exits: the heir is the distinguished process
      subst hqc
      refine ⟨i, ?_, .inr ⟨hinit, ?_⟩⟩
      · show t.heir q p = some i
        rw [heir, if_pos hq, hinit]
      · rcases hcase with rfl | ⟨-, he⟩
        · exact mem_cons_self
        · exact mem_cons_of_mem _ he
    · refine ⟨q, ?_, ?_⟩
      · show t.heir c p = some q
        rw [heir, if_neg, hq]
        rw [hq]
        exact fun he => hqc (Option.some.inj he)
      · rcases hcase with hpid | ⟨hinit', he⟩
        · exact .inl hpid
        · exact .inr ⟨hinit', mem_cons_of_mem _ he⟩
  | reap hc hr hpar => grind [Present]

/-! ### The history -/

theorem cons_eq_split {e : Event} {es pre past : List Event} {w n : Int}
    (h : e :: es = pre ++ .reaped w n :: past) :
    (e = .reaped w n ∧ es = past) ∨ ∃ pre', es = pre' ++ .reaped w n :: past := by
  cases pre with
  | nil => exact .inl (cons_eq_cons.mp h)
  | cons e' pre' => exact .inr ⟨pre', (cons_eq_cons.mp h).2⟩

theorem Inv.init_kept (h : t.Inv) (st : t.Step t') (q : σ) (hq : t.init = some q) :
    t'.init = some q ∧ t'.pid q = t.pid q := by
  have hlive := h.init_live q hq
  cases st <;> grind

theorem Inv.history_step (h : t.Inv) (st : t.Step t') (pre : List Event) (w n : Int)
    (past : List Event) (hs : t'.trace = pre ++ .reaped w n :: past) : t'.Justified w n past := by
  have hinit := h.init_kept st
  -- where no wait is logged, the event was in the trace before
  have hold : (∃ pre', t.trace = pre' ++ .reaped w n :: past) →
      (∀ f, .forked f n ∈ t'.trace → .forked f n ∈ t.trace) → t'.Justified w n past := by
    rintro ⟨pre', hs'⟩ hnew
    exact (h.history pre' w n past hs').keep hinit hnew
  cases st with
  | claim hr => exact hold ⟨pre, hs⟩ fun f hf => hf
  | abandon hr => exact hold ⟨pre, hs⟩ fun f hf => hf
  | start hi hr => exact hold ⟨pre, hs⟩ fun f hf => hf
  | spawn hc hr => exact hold ⟨pre, hs⟩ fun f hf => hf
  | @fork c r hc hr =>
    rcases cons_eq_split hs with ⟨he, -⟩ | ⟨pre', hs'⟩
    · cases he
    · refine hold ⟨pre', hs'⟩ fun f hf => ?_
      rcases mem_cons.mp hf with he | hf
      · -- a pid that was reaped is not the pid of an embryo
        have hmem : Event.reaped w n ∈ t.trace := hs' ▸ mem_append_right _ mem_cons_self
        have hfresh := h.embryo_fresh r hr _ hmem
        exact absurd (Event.forked.inj he).2 hfresh
      · exact hf
  | exit hc hi =>
    rcases cons_eq_split hs with ⟨he, -⟩ | ⟨pre', hs'⟩
    · cases he
    · refine hold ⟨pre', hs'⟩ fun f hf => ?_
      rcases mem_cons.mp hf with he | hf
      · cases he
      · exact hf
  | @reap c r hc hr hpar =>
    have hnew : ∀ f m, .forked f m ∈ (t.reap c r).trace → .forked f m ∈ t.trace := by
      intro f m hf
      rcases mem_cons.mp hf with he | hf
      · cases he
      · exact hf
    rcases cons_eq_split hs with ⟨he, rfl⟩ | ⟨pre', hs'⟩
    · -- the wait of this step
      obtain ⟨rfl, rfl⟩ := Event.reaped.inj he
      have hfree : t.life r ≠ .free := by
        rw [hr]
        decide
      refine ⟨h.dead_exited r hr, fun w' => h.unreaped r hfree w', fun f hf => ?_⟩
      refine ⟨hnew f _ hf, ?_⟩
      obtain ⟨q, hq, hcase⟩ := h.forker r (.inr hr) f (hnew f _ hf)
      cases hpar.symm.trans hq
      rcases hcase with hpid | ⟨hi, he⟩
      · exact .inl hpid
      · obtain ⟨hi', hpid'⟩ := hinit c hi
        exact .inr ⟨c, hi', hpid', he⟩
    · exact hold ⟨pre', hs'⟩ fun f hf => hnew f n hf

theorem Inv.step (h : t.Inv) (st : t.Step t') : t'.Inv where
  next_pos := (h.pids_step st).1
  pid_range := (h.pids_step st).2
  pid_inj := h.pid_inj_step st
  init_live := (h.init_step st).1
  init_some := (h.init_step st).2
  parent_live := h.parent_live_step st
  subject_lt := h.subject_lt_step st
  embryo_fresh := h.embryo_fresh_step st
  init_unforked := h.init_unforked_step st
  dead_exited := h.dead_exited_step st
  unreaped := h.unreaped_step st
  forker := h.forker_step st
  history := h.history_step st

theorem Inv.steps (h : t.Inv) (st : Relation.ReflTransGen Step t t') : t'.Inv := by
  induction st with
  | refl => exact h
  | tail _ hs ih => exact ih.step hs

end Steps

end Table
end ProcessTree
