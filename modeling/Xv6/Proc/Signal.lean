/-
  Xv6.Proc.Signal

  No wakeup is lost.

  What each process may rely on at its place (`Local`) mentions its own
  fields and the locks it holds, and a step of somebody else keeps it
  (`Local.frame`).  The loop of `wakeup1` runs under `ptable.lock`, and nobody
  can fall asleep behind its back: whoever sleeps on the channel is still in
  the rest of the table.
-/

import Xv6.Proc.Wakeup

namespace Xv6
namespace WaitState

open Function Transition

variable {n : Nat} {κ Λ : Type} [DecidableEq κ] [DecidableEq Λ] {lk : κ → Option Λ}
  {s s' : WaitState n κ Λ} {p q : Fin n}
variable {c : κ} {t : WaitState n κ Λ}

/-! ## The invariant -/

def HoldsPtable (s : WaitState n κ Λ) (p : Fin n) : Prop := s.ptableLock = some (.proc p)

def HoldsLk (lk : κ → Option Λ) (s : WaitState n κ Λ) (p : Fin n) (c : κ) : Prop :=
  match lk c with
  | none => s.HoldsPtable p
  | some l => s.lock l = some p

def Fresh (s : WaitState n κ Λ) (p : Fin n) (c : κ) : Prop := s.mark p = s.wakeups c

/-- What a process can rely on at its place. -/
def Local (lk : κ → Option Λ) (s : WaitState n κ Λ) (p : Fin n) : Prop :=
  match s.pc p with
  | .out | .owing _ | .sleepRelock _ | .wakeupAcquire _ false => s.state p = .RUNNING
  | .holds c _ => s.state p = .RUNNING ∧ s.HoldsLk lk p c
  | .sleepAcquire c | .wakeupAcquire c true =>
    s.state p = .RUNNING ∧ lk c ≠ none ∧ s.HoldsLk lk p c
  | .sleepRelease c =>
    s.state p = .RUNNING ∧ lk c ≠ none ∧ s.HoldsLk lk p c ∧ s.HoldsPtable p
  | .setChan c => s.state p = .RUNNING ∧ s.HoldsPtable p ∧ (lk c ≠ none → s.Fresh p c)
  | .setState c =>
    s.state p = .RUNNING ∧ s.HoldsPtable p ∧ (lk c ≠ none → s.Fresh p c) ∧ s.chan p = some c
  | .sched c =>
    s.state p = .SLEEPING ∧ s.HoldsPtable p ∧ (lk c ≠ none → s.Fresh p c) ∧ s.chan p = some c
  | .off c =>
    s.state p ≠ .RUNNING ∧ s.chan p = some c ∧ (s.state p = .SLEEPING → s.Fresh p c)
  | .tidy _ | .sleepUnlock _ => s.state p = .RUNNING ∧ s.HoldsPtable p
  | .wakeup1 c held _ =>
    s.state p = .RUNNING ∧ s.HoldsPtable p ∧ (held = true → s.HoldsLk lk p c)
  | .wakeupRelease c held =>
    s.state p = .RUNNING ∧ s.HoldsPtable p ∧ (held = true → lk c ≠ none ∧ s.HoldsLk lk p c)

structure Inv (lk : κ → Option Λ) (s : WaitState n κ Λ) : Prop where
  loc : ∀ p, s.Local lk p
  loop : ∀ q c held rest, s.pc q = .wakeup1 c held rest →
    ∀ p, s.state p = .SLEEPING → s.chan p = some c → p ∈ rest

theorem inv_boot (cond : κ → Bool) : (boot cond : WaitState n κ Λ).Inv lk where
  loc := fun _ => rfl
  loop := fun q c held rest hq => by cases hq

theorem HoldsLk.frame (h : s.HoldsLk lk p c) (hpt : s.HoldsPtable p → s'.HoldsPtable p)
    (hlock : ∀ l, s.lock l = some p → s'.lock l = some p) : s'.HoldsLk lk p c := by
  unfold HoldsLk at h ⊢
  split at h
  · exact hpt h
  · exact hlock _ h

/-- A step of somebody else.  A sleeper may be made `RUNNABLE`, and a `wakeup`
    that is over has left no sleeper on its channel. -/
theorem Local.frame (h : s.Local lk q) (hpc : s'.pc q = s.pc q) (hchan : s'.chan q = s.chan q)
    (hmark : s'.mark q = s.mark q)
    (hstate : s'.state q = s.state q ∨
      s.state q = .SLEEPING ∧ s'.state q = .RUNNABLE ∧ ¬ s.HoldsPtable q)
    (hpt : s.HoldsPtable q → s'.HoldsPtable q)
    (hlock : ∀ l, s.lock l = some q → s'.lock l = some q)
    (hwake : ∀ c, s'.wakeups c = s.wakeups c ∨
      ¬ s.HoldsPtable q ∧ (s.state q = .SLEEPING → s.chan q ≠ some c)) : s'.Local lk q := by
  have hrun : s.state q = .RUNNING → s'.state q = .RUNNING := by
    intro hr
    rcases hstate with hs | ⟨hs, -⟩
    · rw [hs, hr]
    · rw [hr] at hs
      cases hs
  have hfresh : ∀ c, s.HoldsPtable q → s.Fresh q c → s'.Fresh q c := by
    intro c hh hf
    rcases hwake c with hw | ⟨hn, -⟩
    · unfold Fresh at hf ⊢
      rw [hmark, hw, hf]
    · exact absurd hh hn
  have hlk : ∀ c, s.HoldsLk lk q c → s'.HoldsLk lk q c := fun c hc => hc.frame hpt hlock
  unfold Local at h ⊢
  rw [hpc]
  split at h
  · exact hrun h
  · exact hrun h
  · exact hrun h
  · exact hrun h
  · exact ⟨hrun h.1, hlk _ h.2⟩
  · exact ⟨hrun h.1, h.2.1, hlk _ h.2.2⟩
  · exact ⟨hrun h.1, h.2.1, hlk _ h.2.2⟩
  · exact ⟨hrun h.1, h.2.1, hlk _ h.2.2.1, hpt h.2.2.2⟩
  · exact ⟨hrun h.1, hpt h.2.1, fun hl => hfresh _ h.2.1 (h.2.2 hl)⟩
  · exact ⟨hrun h.1, hpt h.2.1, fun hl => hfresh _ h.2.1 (h.2.2.1 hl), hchan.trans h.2.2.2⟩
  · refine ⟨?_, hpt h.2.1, fun hl => hfresh _ h.2.1 (h.2.2.1 hl), hchan.trans h.2.2.2⟩
    rcases hstate with hs | ⟨-, -, hn⟩
    · rw [hs, h.1]
    · exact absurd h.2.1 hn
  · rename_i c hc
    obtain ⟨hne, hch, hf⟩ := h
    refine ⟨?_, hchan.trans hch, fun hsl => ?_⟩
    · rcases hstate with hs | ⟨-, hs, -⟩
      · rw [hs]
        exact hne
      · rw [hs]
        simp
    · rcases hstate with hs | ⟨-, hs, -⟩
      · rw [hs] at hsl
        rcases hwake c with hw | ⟨-, hw⟩
        · unfold Fresh at hf ⊢
          rw [hmark, hw, hf hsl]
        · exact absurd hch (hw hsl)
      · rw [hs] at hsl
        cases hsl
  · exact ⟨hrun h.1, hpt h.2⟩
  · exact ⟨hrun h.1, hpt h.2⟩
  · exact ⟨hrun h.1, hpt h.2.1, fun hh => hlk _ (h.2.2 hh)⟩
  · exact ⟨hrun h.1, hpt h.2.1, fun hh => ⟨(h.2.2 hh).1, hlk _ (h.2.2 hh).2⟩⟩

namespace Inv

theorem loop_holds (h : s.Inv lk) {c : κ} {held : Bool} {rest : List (Fin n)}
    (hq : s.pc q = .wakeup1 c held rest) : s.HoldsPtable q := by
  have hloc := h.loc q
  unfold Local at hloc
  rw [hq] at hloc
  exact hloc.2.1

theorem holder_unique (hp : s.HoldsPtable p) (hq : s.HoldsPtable q) : p = q := by
  unfold HoldsPtable at hp hq
  rw [hp] at hq
  cases hq
  rfl

theorem move (h : s.Inv lk) (p : Fin n) (pc : WaitPc n κ) (hpc : s'.pc = update s.pc p pc)
    (hchan : ∀ q, q ≠ p → s'.chan q = s.chan q) (hmark : ∀ q, q ≠ p → s'.mark q = s.mark q)
    (hstate : ∀ q, q ≠ p → s'.state q = s.state q)
    (hpt : ∀ q, q ≠ p → s.HoldsPtable q → s'.HoldsPtable q)
    (hlock : ∀ q, q ≠ p → ∀ l, s.lock l = some q → s'.lock l = some q)
    (hwake : s'.wakeups = s.wakeups) (hself : s'.Local lk p)
    (hloop : ∀ c held rest, pc = .wakeup1 c held rest →
      ∀ q, s'.state q = .SLEEPING → s'.chan q = some c → q ∈ rest)
    (hsleep : s.HoldsPtable p ∨ s'.state p = .RUNNING) : s'.Inv lk where
  loc := by
    intro q
    by_cases hqp : q = p
    · rw [hqp]
      exact hself
    · exact (h.loc q).frame (by rw [hpc, update_of_ne hqp]) (hchan q hqp) (hmark q hqp)
        (.inl (hstate q hqp)) (hpt q hqp) (hlock q hqp) (fun c => .inl (by rw [hwake]))
  loop := by
    intro q c held rest hq r hr hrc
    rw [hpc] at hq
    by_cases hqp : q = p
    · rw [hqp, update_self] at hq
      exact hloop c held rest hq r hr hrc
    · rw [update_of_ne hqp] at hq
      by_cases hrp : r = p
      · subst hrp
        rcases hsleep with hh | hrun
        · exact absurd (holder_unique (h.loop_holds hq) hh) hqp
        · rw [hrun] at hr
          cases hr
      · rw [hstate r hrp] at hr
        rw [hchan r hrp] at hrc
        exact h.loop q c held rest hq r hr hrc

end Inv

/-! ## The locks -/

/-- `acquire(lk)` takes a lock nobody holds. -/
structure Acquired (lk : κ → Option Λ) (s t : WaitState n κ Λ) (p : Fin n) (c : κ) : Prop where
  pc : t.pc = s.pc
  chan : t.chan = s.chan
  mark : t.mark = s.mark
  state : t.state = s.state
  wakeups : t.wakeups = s.wakeups
  cond : t.cond = s.cond
  held : t.HoldsLk lk p c
  ptable : ∀ q, s.HoldsPtable q → t.HoldsPtable q
  lock : ∀ q l, s.lock l = some q → t.lock l = some q

theorem Acquired.of_acquireLk (h : s.acquireLk lk p c = some t) : Acquired lk s t p c := by
  unfold acquireLk at h
  split at h
  · rename_i hc
    split at h
    · rename_i hfree
      cases h
      refine ⟨rfl, rfl, rfl, rfl, rfl, rfl, ?_, fun q hq => ?_, fun q l hl => hl⟩
      · simp only [HoldsLk, hc]
        rfl
      · unfold HoldsPtable at hq
        rw [hfree] at hq
        cases hq
    · cases h
  · rename_i l hc
    split at h
    · rename_i hfree
      cases h
      refine ⟨rfl, rfl, rfl, rfl, rfl, rfl, ?_, fun q hq => hq, fun q l' hl => ?_⟩
      · simp only [HoldsLk, hc, update_self]
      · by_cases hll : l' = l
        · rw [hll, hfree] at hl
          cases hl
        · simp only [update_of_ne hll]
          exact hl
    · cases h

theorem acquirePtable_some {x : Holder n} (h : s.acquirePtable x = some t) :
    s.ptableLock = none ∧ t = { s with ptableLock := some x } := by
  unfold acquirePtable at h
  split at h
  · rename_i hfree
    cases h
    exact ⟨hfree, rfl⟩
  · cases h

theorem not_holds_of_free (h : s.ptableLock = none) (q : Fin n) : ¬ s.HoldsPtable q := by
  unfold HoldsPtable
  rw [h]
  simp

theorem releaseLk_ptable (hp : s.HoldsLk lk p c) (hq : q ≠ p) (h : s.HoldsPtable q) :
    (s.releaseLk lk c).HoldsPtable q := by
  cases hc : lk c with
  | none =>
    simp only [HoldsLk, hc] at hp
    exact absurd (Inv.holder_unique h hp) hq
  | some l =>
    simp only [releaseLk, hc]
    exact h

theorem releaseLk_lock (hp : s.HoldsLk lk p c) (hq : q ≠ p) {l : Λ}
    (h : s.lock l = some q) : (s.releaseLk lk c).lock l = some q := by
  cases hc : lk c with
  | none =>
    simp only [releaseLk, hc]
    exact h
  | some l' =>
    simp only [HoldsLk, hc] at hp
    have hll : l ≠ l' := by
      rintro rfl
      rw [hp] at h
      cases h
      exact hq rfl
    simp only [releaseLk, hc, update_of_ne hll]
    exact h

theorem releaseLk_fields (lk : κ → Option Λ) (s : WaitState n κ Λ) (c : κ) :
    (s.releaseLk lk c).pc = s.pc ∧ (s.releaseLk lk c).chan = s.chan ∧
      (s.releaseLk lk c).mark = s.mark ∧ (s.releaseLk lk c).state = s.state ∧
      (s.releaseLk lk c).wakeups = s.wakeups ∧ (s.releaseLk lk c).cond = s.cond := by
  unfold releaseLk
  split <;> exact ⟨rfl, rfl, rfl, rfl, rfl, rfl⟩

/-! ## Every label keeps the invariant -/

namespace Inv

variable {c : κ} {held : Bool}

theorem goto (h : s.Inv lk) {pc : WaitPc n κ} (hrun : s.state p = .RUNNING)
    (hself : (s.setPc p pc).Local lk p)
    (hloop : ∀ c held rest, pc = .wakeup1 c held rest →
      ∀ q, s.state q = .SLEEPING → s.chan q = some c → q ∈ rest) : (s.setPc p pc).Inv lk := by
  exact h.move p pc rfl (fun _ _ => rfl) (fun _ _ => rfl) (fun _ _ => rfl)
    (fun _ _ hq => hq) (fun _ _ _ hl => hl) rfl hself hloop (.inr hrun)

theorem acquired (h : s.Inv lk) {t : WaitState n κ Λ} (hrun : s.state p = .RUNNING)
    (ht : s.acquireLk lk p c = some t) : (t.setPc p (.holds c false)).Inv lk := by
  have hacq := Acquired.of_acquireLk ht
  have hrun' : t.state p = .RUNNING := (congrFun hacq.state p).trans hrun
  refine h.move p (.holds c false) (by simp only [setPc, hacq.pc]) (fun q _ => congrFun hacq.chan q)
    (fun q _ => congrFun hacq.mark q) (fun q _ => congrFun hacq.state q) (fun q _ => hacq.ptable q)
    (fun q _ => hacq.lock q) hacq.wakeups ?_ (fun _ _ _ hw => by cases hw) (.inr hrun')
  simp only [Local, setPc, update_self]
  exact ⟨hrun', hacq.held⟩

theorem wakeOne (h : s.Inv lk) {rest : List (Fin n)} (hp : s.pc p = .wakeup1 c held (q :: rest)) :
    ((WaitState.wakeOne c s q).setPc p (.wakeup1 c held rest)).Inv lk := by
  have hpt := h.loop_holds hp
  have hloc := h.loc p
  simp only [Local, hp] at hloc
  -- the round changes one state, and not that of the caller
  have hqp : s.state q = .SLEEPING → q ≠ p := by
    rintro hsl rfl
    rw [hloc.1] at hsl
    cases hsl
  have hfields : ∀ r, (WaitState.wakeOne c s q).state r = s.state r ∨
      r = q ∧ s.state r = .SLEEPING ∧ (WaitState.wakeOne c s q).state r = .RUNNABLE := by
    intro r
    unfold WaitState.wakeOne
    split
    · rename_i hcond
      by_cases hr : r = q
      · subst hr
        exact .inr ⟨rfl, hcond.1, by simp [WaitState.setState]⟩
      · exact .inl (by simp only [WaitState.setState, update_of_ne hr])
    · exact .inl rfl
  have hsame : (WaitState.wakeOne c s q).chan = s.chan ∧ (WaitState.wakeOne c s q).pc = s.pc ∧
      (WaitState.wakeOne c s q).mark = s.mark ∧ (WaitState.wakeOne c s q).wakeups = s.wakeups ∧
      (WaitState.wakeOne c s q).ptableLock = s.ptableLock ∧
      (WaitState.wakeOne c s q).lock = s.lock := by
    unfold WaitState.wakeOne
    split <;> exact ⟨rfl, rfl, rfl, rfl, rfl, rfl⟩
  obtain ⟨fchan, fpc, fmark, fwake, fpt, flock⟩ := hsame
  refine ⟨fun r => ?_, ?_⟩
  · by_cases hrp : r = p
    · subst hrp
      simp only [Local, setPc, update_self]
      refine ⟨?_, ?_, fun hh => ?_⟩
      · rcases hfields r with hr | ⟨hrq, hsl, -⟩
        · rw [hr]
          exact hloc.1
        · exact absurd hrq.symm (hqp (hrq ▸ hsl))
      · exact fpt.trans hpt
      · exact (hloc.2.2 hh).frame (fun hh' => fpt.trans hh') fun l hl => (congrFun flock l).trans hl
    · refine (h.loc r).frame ?_ (congrFun fchan r) (congrFun fmark r) ?_ ?_ ?_
        (fun c' => .inl (congrFun fwake c'))
      · simp only [setPc, update_of_ne hrp, fpc]
      · rcases hfields r with hr | ⟨-, hsl, hr⟩
        · exact .inl hr
        · exact .inr ⟨hsl, hr, fun hh => hrp (holder_unique hh hpt)⟩
      · exact fun hh => fpt.trans hh
      · exact fun l hl => (congrFun flock l).trans hl
  · intro r c' held' rest' hr x hx hxc
    by_cases hrp : r = p
    · subst hrp
      simp only [setPc, update_self] at hr
      cases hr
      have hxc' : s.chan x = some c := (congrFun fchan x).symm.trans hxc
      have hxs : s.state x = .SLEEPING := by
        rcases hfields x with hx' | ⟨-, hsl, -⟩
        · rw [← hx']
          exact hx
        · exact hsl
      rcases List.mem_cons.mp (h.loop r c held _ hp x hxs hxc') with hxq | hmem
      · -- it has just been woken up
        subst hxq
        have hwoken : (WaitState.wakeOne c s x).state x = .RUNNABLE := by
          unfold WaitState.wakeOne
          rw [if_pos ⟨hxs, hxc'⟩]
          simp [WaitState.setState]
        have hx' := hwoken.symm.trans hx
        cases hx'
      · exact hmem
    · simp only [setPc, update_of_ne hrp, fpc] at hr
      exact absurd (holder_unique (h.loop_holds hr) hpt) hrp

theorem wakeupDone (h : s.Inv lk) (hp : s.pc p = .wakeup1 c held []) :
    ({ s with wakeups := update s.wakeups c (s.wakeups c + 1) }.setPc p
      (if lk c = none ∧ held = true then .holds c false else .wakeupRelease c held)).Inv lk := by
  have hpt := h.loop_holds hp
  have hloc := h.loc p
  simp only [Local, hp] at hloc
  have hnone : ∀ r, s.state r = .SLEEPING → s.chan r ≠ some c := by
    intro r hr hrc
    cases h.loop p c held [] hp r hr hrc
  refine ⟨fun r => ?_, ?_⟩
  · by_cases hrp : r = p
    · subst hrp
      by_cases hc : lk c = none ∧ held = true
      · simp only [Local, setPc, update_self, if_pos hc]
        exact ⟨hloc.1, hloc.2.2 hc.2⟩
      · simp only [Local, setPc, update_self, if_neg hc]
        refine ⟨hloc.1, hpt, fun hh => ⟨fun hl => hc ⟨hl, hh⟩, hloc.2.2 hh⟩⟩
    · refine (h.loc r).frame ?_ rfl rfl (.inl rfl) id (fun _ => id) fun c' => ?_
      · simp only [setPc, update_of_ne hrp]
      · by_cases hcc : c' = c
        · subst hcc
          exact .inr ⟨fun hh => hrp (holder_unique hh hpt), hnone r⟩
        · exact .inl (update_of_ne hcc _ _)
  · intro r c' held' rest' hr
    by_cases hrp : r = p
    · subst hrp
      simp only [setPc, update_self] at hr
      split at hr <;> cases hr
    · simp only [setPc, update_of_ne hrp] at hr
      exact absurd (holder_unique (h.loop_holds hr) hpt) hrp

theorem next (h : s.Inv lk) (hs : s.next lk p = some s') : s'.Inv lk := by
  have hloc := h.loc p
  unfold WaitState.next at hs
  split at hs
  · rename_i c hp
    simp only [Local, hp] at hloc
    obtain ⟨t, ht, rfl⟩ := Option.map_eq_some_iff.mp hs
    obtain ⟨hfree, rfl⟩ := acquirePtable_some ht
    refine h.move p _ rfl (fun _ _ => rfl) (fun _ _ => rfl) (fun _ _ => rfl)
      (fun q _ hq => absurd hq (not_holds_of_free hfree q)) (fun _ _ _ hl => hl) rfl ?_
      (fun _ _ _ hw => by cases hw) (.inr hloc.1)
    simp only [Local, setPc, update_self]
    refine ⟨hloc.1, hloc.2.1, ?_, rfl⟩
    exact hloc.2.2.frame (fun hh => absurd hh (not_holds_of_free hfree p)) fun _ hl => hl
  · rename_i c hp
    simp only [Local, hp] at hloc
    obtain ⟨hrun, hlk, hheld, hpt⟩ := hloc
    obtain ⟨fpc, fchan, fmark, fstate, fwake, fcond⟩ := releaseLk_fields lk s c
    cases hs
    refine h.move p (.setChan c) ?_ (fun q _ => ?_) (fun q hq => ?_) (fun q _ => ?_)
      (fun q hq hh => releaseLk_ptable hheld hq hh) (fun q hq l hl => releaseLk_lock hheld hq hl)
      fwake ?_ (fun _ _ _ hw => by cases hw) (.inl hpt)
    · simp only [setPc, fpc]
    · simp only [setPc, fchan]
    · simp only [setPc, update_of_ne hq]
    · simp only [setPc, fstate]
    · simp only [Local, setPc, update_self]
      refine ⟨?_, ?_, fun _ => ?_⟩
      · rw [fstate]
        exact hrun
      · unfold HoldsPtable releaseLk
        cases hc : lk c with
        | none => exact absurd hc hlk
        | some l => exact hpt
      · simp only [Fresh, update_self, fwake]
  · rename_i c hp
    simp only [Local, hp] at hloc
    cases hs
    refine h.move p _ rfl (fun q hq => update_of_ne hq _ _) (fun _ _ => rfl) (fun _ _ => rfl)
      (fun _ _ hq => hq) (fun _ _ _ hl => hl) rfl ?_ (fun _ _ _ hw => by cases hw) (.inl hloc.2.1)
    simp only [Local, setPc, update_self]
    exact ⟨hloc.1, hloc.2.1, hloc.2.2, trivial⟩
  · rename_i c hp
    simp only [Local, hp] at hloc
    cases hs
    refine h.move p _ rfl (fun _ _ => rfl) (fun _ _ => rfl) (fun q hq => update_of_ne hq _ _)
      (fun _ _ hq => hq) (fun _ _ _ hl => hl) rfl ?_ (fun _ _ _ hw => by cases hw) (.inl hloc.2.1)
    simp only [Local, setPc, WaitState.setState, update_self]
    exact ⟨trivial, hloc.2.1, hloc.2.2.1, hloc.2.2.2⟩
  · rename_i c hp
    simp only [Local, hp] at hloc
    obtain ⟨hsl, hpt, hfresh, hchan⟩ := hloc
    cases hs
    refine h.move p _ rfl (fun _ _ => rfl) (fun q hq => ?_) (fun _ _ => rfl)
      (fun q hq hh => absurd (holder_unique hh hpt) hq) (fun _ _ _ hl => hl) rfl ?_
      (fun _ _ _ hw => by cases hw) (.inl hpt)
    · simp only [setPc]
      split
      · exact update_of_ne hq _ _
      · rfl
    · simp only [Local, setPc, update_self]
      refine ⟨?_, hchan, fun _ => ?_⟩
      · rw [hsl]
        simp
      · unfold Fresh
        by_cases hc : lk c = none
        · simp only [if_pos hc, update_self]
        · simp only [if_neg hc]
          exact hfresh hc
  · rename_i c hp
    simp only [Local, hp] at hloc
    cases hs
    refine h.move p _ rfl (fun q hq => update_of_ne hq _ _) (fun _ _ => rfl)
      (fun _ _ => rfl) (fun _ _ hq => hq) (fun _ _ _ hl => hl) rfl ?_ ?_ (.inl hloc.2)
    · by_cases hc : lk c = none
      · simp only [Local, setPc, update_self, if_pos hc]
        refine ⟨hloc.1, ?_⟩
        simp only [HoldsLk, hc]
        exact hloc.2
      · simp only [Local, setPc, update_self, if_neg hc]
        exact hloc
    · intro c' held rest hw
      split at hw <;> cases hw
  · rename_i c hp
    simp only [Local, hp] at hloc
    cases hs
    refine h.move p _ rfl (fun _ _ => rfl) (fun _ _ => rfl) (fun _ _ => rfl)
      (fun q hq hh => absurd (holder_unique hh hloc.2) hq) (fun _ _ _ hl => hl) rfl ?_
      (fun _ _ _ hw => by cases hw) (.inl hloc.2)
    simp only [Local, setPc, update_self]
    exact hloc.1
  · rename_i c hp
    simp only [Local, hp] at hloc
    obtain ⟨t, ht, rfl⟩ := Option.map_eq_some_iff.mp hs
    exact h.acquired hloc ht
  · rename_i c held hp
    obtain ⟨t, ht, rfl⟩ := Option.map_eq_some_iff.mp hs
    obtain ⟨hfree, rfl⟩ := acquirePtable_some ht
    have hrun : s.state p = .RUNNING := by
      cases held <;> simp only [Local, hp] at hloc
      · exact hloc
      · exact hloc.1
    refine h.move p _ rfl (fun _ _ => rfl) (fun _ _ => rfl) (fun _ _ => rfl) (fun q _ hq =>
      absurd hq (not_holds_of_free hfree q)) (fun _ _ _ hl => hl) rfl ?_ ?_ (.inr hrun)
    · simp only [Local, setPc, update_self]
      refine ⟨hrun, rfl, fun hh => ?_⟩
      subst hh
      simp only [Local, hp] at hloc
      exact hloc.2.2.frame (fun hh => absurd hh (not_holds_of_free hfree p)) fun _ hl => hl
    · intro c' held' rest hw q _ _
      cases hw
      exact List.mem_finRange q
  · rename_i c held q rest hp
    cases hs
    exact h.wakeOne hp
  · rename_i c held hp
    cases hs
    exact h.wakeupDone hp
  · rename_i c held hp
    simp only [Local, hp] at hloc
    cases hs
    refine h.move p _ rfl (fun _ _ => rfl) (fun _ _ => rfl) (fun _ _ => rfl) (fun q hq hh =>
      absurd (holder_unique hh hloc.2.1) hq) (fun _ _ _ hl => hl) rfl ?_ ?_ (.inl hloc.2.1)
    · cases held with
      | false =>
        simp only [Local, setPc, update_self]
        exact hloc.1
      | true =>
        simp only [Local, setPc, update_self]
        obtain ⟨hlk, hheld⟩ := hloc.2.2 rfl
        refine ⟨hloc.1, ?_⟩
        unfold HoldsLk at hheld ⊢
        cases hc : lk c with
        | none => exact absurd hc hlk
        | some l =>
          rw [hc] at hheld
          exact hheld
    · intro c' held' rest hw
      split at hw <;> cases hw
  · cases hs
  · cases hs
  · cases hs
  · cases hs

theorem step (h : s.Inv lk) {a : WaitAct n κ} (hs : s.step lk a = some s') : s'.Inv lk := by
  cases a with
  | acquire p c =>
    simp only [WaitState.step] at hs
    split at hs
    · rename_i hp
      have hloc := h.loc p
      simp only [Local, hp] at hloc
      obtain ⟨t, ht, rfl⟩ := Option.map_eq_some_iff.mp hs
      exact h.acquired hloc ht
    · cases hs
  | turn p c' =>
    simp only [WaitState.step] at hs
    split at hs
    · rename_i c hp
      have hloc := h.loc p
      simp only [Local, hp] at hloc
      split at hs
      · rename_i hlk
        cases hs
        refine h.goto hloc.1 ?_ (fun _ _ _ hw => by cases hw)
        simp only [Local, setPc, update_self]
        refine ⟨hloc.1, ?_⟩
        simp only [HoldsLk, hlk]
        exact hloc.2
      · cases hs
    · cases hs
  | change p v =>
    simp only [WaitState.step] at hs
    split at hs
    · rename_i c owes hp
      have hloc := h.loc p
      simp only [Local, hp] at hloc
      cases hs
      refine h.move p _ rfl (fun _ _ => rfl) (fun _ _ => rfl) (fun _ _ => rfl) (fun _ _ hq => hq)
        (fun _ _ _ hl => hl) rfl ?_ (fun _ _ _ hw => by cases hw) (.inr hloc.1)
      simp only [Local, setPc, update_self]
      exact hloc
    · cases hs
  | test p =>
    simp only [WaitState.step] at hs
    split at hs
    · rename_i c owes hp
      have hloc := h.loc p
      simp only [Local, hp] at hloc
      split at hs
      · cases hs
        exact h
      · cases hs
        refine h.goto hloc.1 ?_ ?_
        · by_cases hc : lk c = none
          · simp only [Local, setPc, update_self, if_pos hc]
            have hpt := hloc.2
            simp only [HoldsLk, hc] at hpt
            exact ⟨hloc.1, hpt, fun hl => absurd hc hl⟩
          · simp only [Local, setPc, update_self, if_neg hc]
            exact ⟨hloc.1, hc, hloc.2⟩
        · intro c' held rest hw
          split at hw <;> cases hw
    · cases hs
  | release p =>
    simp only [WaitState.step] at hs
    split at hs
    · rename_i c owes hp
      have hloc := h.loc p
      simp only [Local, hp] at hloc
      obtain ⟨fpc, fchan, fmark, fstate, fwake, fcond⟩ := releaseLk_fields lk s c
      cases hs
      refine h.move p (if owes then .owing c else .out) (by simp only [setPc, fpc])
        (fun q _ => congrFun fchan q) (fun q _ => congrFun fmark q) (fun q _ => congrFun fstate q)
        (fun q hq hh => releaseLk_ptable hloc.2 hq hh) (fun q hq l hl =>
        releaseLk_lock hloc.2 hq hl) fwake ?_ ?_ (.inr ((congrFun fstate p).trans hloc.1))
      · cases owes <;> simp only [Local, setPc, update_self] <;>
          exact (congrFun fstate p).trans hloc.1
      · intro c' held rest hw
        split at hw <;> cases hw
    · cases hs
  | wakeup p c =>
    simp only [WaitState.step] at hs
    split at hs
    · rename_i hp
      have hloc := h.loc p
      simp only [Local, hp] at hloc
      cases hs
      refine h.goto hloc ?_ (fun _ _ _ hw => by cases hw)
      simp only [Local, setPc, update_self]
      exact hloc
    · rename_i c' hp
      have hloc := h.loc p
      simp only [Local, hp] at hloc
      split at hs
      · cases hs
        refine h.goto hloc ?_ (fun _ _ _ hw => by cases hw)
        simp only [Local, setPc, update_self]
        exact hloc
      · cases hs
    · rename_i c' owes hp
      have hloc := h.loc p
      simp only [Local, hp] at hloc
      split at hs
      · rename_i hcc
        subst hcc
        cases hs
        refine h.goto hloc.1 ?_ ?_
        · by_cases hc : lk c' = none
          · simp only [Local, setPc, update_self, if_pos hc]
            have hpt := hloc.2
            simp only [HoldsLk, hc] at hpt
            exact ⟨hloc.1, hpt, fun _ => hloc.2⟩
          · simp only [Local, setPc, update_self, if_neg hc]
            exact ⟨hloc.1, hc, hloc.2⟩
        · intro c'' held rest hw q _ _
          split at hw
          · cases hw
            exact List.mem_finRange q
          · cases hw
      · cases hs
    · cases hs
  | next p => exact h.next hs
  | scheduler =>
    obtain ⟨hfree, rfl⟩ := acquirePtable_some hs
    refine ⟨fun q => ?_, h.loop⟩
    exact (h.loc q).frame rfl rfl rfl (.inl rfl)
      (fun hq => absurd hq (not_holds_of_free hfree q)) (fun _ => id) fun _ => .inl rfl
  | dispatch p =>
    simp only [WaitState.step] at hs
    split at hs
    · rename_i c hp
      split at hs
      · rename_i hguard
        cases hs
        refine h.move p (.tidy c) rfl (fun _ _ => rfl) (fun _ _ => rfl)
          (fun q hq => update_of_ne hq _ _) (fun q _ hh => ?_) (fun _ _ _ hl => hl)
          rfl ?_ (fun _ _ _ hw => by cases hw) (.inr (by simp [setPc, WaitState.setState]))
        · unfold HoldsPtable at hh
          rw [hguard.1] at hh
          cases hh
        · simp only [Local, setPc, WaitState.setState, update_self]
          exact ⟨trivial, rfl⟩
      · cases hs
    · cases hs
  | schedulerRelease =>
    simp only [WaitState.step] at hs
    split at hs
    · rename_i hcpu
      cases hs
      refine ⟨fun q => ?_, h.loop⟩
      refine (h.loc q).frame rfl rfl rfl (.inl rfl) (fun hq => ?_) (fun _ => id) fun _ => .inl rfl
      unfold HoldsPtable at hq
      rw [hcpu] at hq
      cases hq
    · cases hs
  | kill p =>
    simp only [WaitState.step] at hs
    split at hs
    · rename_i hguard
      cases hs
      have hstate : ∀ q, (s.setState p .RUNNABLE).state q = s.state q ∨
          s.state q = .SLEEPING ∧ (s.setState p .RUNNABLE).state q = .RUNNABLE := by
        intro q
        by_cases hq : q = p
        · subst hq
          exact .inr ⟨hguard.2, by simp [WaitState.setState]⟩
        · exact .inl (by simp only [WaitState.setState, update_of_ne hq])
      refine ⟨fun q => ?_, ?_⟩
      · exact (h.loc q).frame rfl rfl rfl ((hstate q).imp_right fun hq =>
          ⟨hq.1, hq.2, not_holds_of_free hguard.1 q⟩) id (fun _ => id) fun _ => .inl rfl
      · intro q c held rest hq
        exact absurd (h.loop_holds hq) (not_holds_of_free hguard.1 q)
    · cases hs

end Inv

/-! ## No wakeup is lost -/

theorem Inv.noneLost (h : s.Inv lk) : s.NoneLost lk := by
  intro p c hgave hsl _
  have hloc := h.loc p
  rcases hgave with hp | ⟨hc, hp | hp | hp⟩
  · simp only [Local, hp] at hloc
    exact (hloc.2.2 hsl).symm
  · simp only [Local, hp] at hloc
    exact (hloc.2.2 hc).symm
  · simp only [Local, hp] at hloc
    exact (hloc.2.2.1 hc).symm
  · simp only [Local, hp] at hloc
    exact (hloc.2.2.1 hc).symm

/-- **No lost wakeup.**  Any number of processes wait and signal under the kernel's discipline, with
    `ptable.lock` itself or any other lock as `lk`. In every state they reach in any interleaving,
    no process sleeps on a channel although `wakeup` was executed on it after the process gave up
    `lk` inside of `sleep`. -/
theorem no_lost_wakeup (n : Nat) (lk : κ → Option Λ) (cond : κ → Bool)
    (acts : List (WaitAct n κ)) : Along (WaitState.step lk) (NoneLost lk) (boot cond) acts := by
  have hinv : Along (WaitState.step lk) (Inv lk) (boot cond) acts :=
    along_of_invariant (inv_boot cond) (fun _ _ _ hi hs => hi.step hs) acts
  exact hinv.mono fun s hs => hs.noneLost

end WaitState
end Xv6
