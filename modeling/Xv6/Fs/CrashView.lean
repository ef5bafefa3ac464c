/-
  Xv6.Fs.CrashView

  What a process in `commit()` or `initlog` sees of the file system, and that
  each of its statements does to this `View` what `View.exec` says.
-/

import Xv6.Fs.Crash

namespace Xv6

open Function Transition CrashSafe Option Bcache

theorem replay_append (base : Nat → Block) (us vs : List Update) :
    replay base (us ++ vs) = replay (replay base us) vs := by
  induction us generalizing base with
  | nil => rfl
  | cons u us ih => exact ih _

/-! ## The view of a state -/

namespace Fsys

variable {ι : Type} [DecidableEq ι] [Fintype ι] {img : Image} {s s' : Fsys ι}
variable {p : ι} {n : Nat} {b : BufPtr} {a : BufAct ι Block} {c : Bcache ι Block}

/-- The contents the committed operations have left. -/
def durable (img : Image) (s : Fsys ι) : Nat → Block := replay img.disk s.committed

/-- The contents after everything that was logged. -/
def current (img : Image) (s : Fsys ι) : Nat → Block := replay (s.durable img) s.pending

def view (img : Image) (s : Fsys ι) : View where
  start := s.start
  lh := s.log.lh
  map := s.cache.contents
  disk := s.cache.disk
  old := s.durable img
  new := replay (s.durable img) (s.pending.filter (·.op ∈ s.ended))

theorem holding_some (h : s.holding p n = some b) :
    b ∈ (s.cache.user p).held ∧ (s.cache.buf b).blockno = n := by
  have hb := List.find?_some h
  exact ⟨List.mem_of_find?_eq_some h, of_decide_eq_true hb⟩

theorem holding_contents (hi : s.cache.Inv)
    (h : s.holding p n = some b) : (s.cache.buf b).data = s.cache.contents n := by
  obtain ⟨hb, hn⟩ := holding_some h
  rw [← contents_of_held hi hb, hn]

/-! ## One statement -/

structure Moved (s s' : Fsys ι) : Prop where
  cache : s'.cache.Inv
  mode : s'.mode = s.mode
  log : s'.log = { s.log with lh := s'.log.lh }
  ops : (∀ u ∈ s.pending, u.op ∈ s.ended) → ∀ u ∈ s'.pending, u.op ∈ s'.ended
  pending : s.pending = [] → s'.pending = []

theorem bio_some (h : s.bio a = some s') :
    ∃ c, s.cache.step a = some c ∧ s' = { s with cache := c } := by
  obtain ⟨c, hc, rfl⟩ := map_eq_some_iff.mp h
  exact ⟨c, hc, rfl⟩

theorem Moved.bio (hi : s.cache.Inv)
    (h : s.cache.step a = some c) : Moved s { s with cache := c } :=
  ⟨hi.step h, rfl, rfl, id, id⟩

theorem view_reads (img : Image) (hi : s.cache.Inv) (h : s.cache.step a = some c)
    (ha : Bcache.Reads a) : ({ s with cache := c } : Fsys ι).view img = s.view img := by
  simp only [view, durable, reads_contents hi h ha, reads_disk hi h ha]

theorem view_store {v : Block} (hi : s.cache.Inv) (hn : (s.cache.buf b).blockno = n)
    (h : s.cache.step (.store p b v) = some c) : ({ s with cache := c } : Fsys ι).view img
      = { s.view img with map := update s.cache.contents n v } := by
  have hmap : c.contents = update s.cache.contents (s.cache.buf b).blockno v := step_contents hi h
  have hdisk : c.disk = s.cache.disk := step_disk hi h fun _ _ hab => by cases hab
  simp only [view, durable, hmap, hdisk, hn]

theorem view_finish (s : Fsys ι) :
    s.finish.view img = { s.view img with old := (s.view img).new } := by
  have hold : s.finish.durable img = (s.view img).new := by
    simp only [durable, finish, view, replay_append]
  have hnew : replay (s.finish.durable img) (s.finish.pending.filter (·.op ∈ s.finish.ended))
      = (s.view img).new := by
    rw [hold]
    simp [finish, replay]
  have hview : s.finish.view img = { s.view img with
      old := s.finish.durable img
      new := replay (s.finish.durable img)
        (s.finish.pending.filter (·.op ∈ s.finish.ended)) } := rfl
  rw [hview, hnew, hold]

theorem statement_view (img : Image) (hi : s.cache.Inv) {i : Instr} (hne : ∀ n, i ≠ .bread n)
    (h : s.statement p i = some s') : s'.todo = s.todo ∧ s'.view img = View.exec i (s.view img) ∧
    Moved s s' ∧ ((∀ n, i ≠ .getHead n) → s'.log = s.log) := by
  cases i with
  | bread n => exact absurd rfl (hne n)
  | memmove dst src =>
    obtain ⟨d, hd, h⟩ := bind_eq_some_iff.mp h
    obtain ⟨b, hb, h⟩ := bind_eq_some_iff.mp h
    obtain ⟨c, hc, rfl⟩ := bio_some h
    refine ⟨rfl, ?_, .bio hi hc, fun _ => rfl⟩
    rw [view_store hi (holding_some hd).2 hc, holding_contents hi hb]
    rfl
  | putHead n =>
    obtain ⟨b, hb, h⟩ := bind_eq_some_iff.mp h
    obtain ⟨c, hc, rfl⟩ := bio_some h
    refine ⟨rfl, ?_, .bio hi hc, fun _ => rfl⟩
    rw [view_store hi (holding_some hb).2 hc, holding_contents hi hb]
    simp only [View.exec, view]
  | getHead n =>
    obtain ⟨b, hb, h⟩ := bind_eq_some_iff.mp h
    cases h
    refine ⟨rfl, ?_, ⟨hi, rfl, rfl, id, id⟩, fun hn => absurd rfl (hn n)⟩
    rw [holding_contents hi hb]
    simp only [View.exec, view, durable]
  | getSb n =>
    obtain ⟨b, hb, h⟩ := bind_eq_some_iff.mp h
    cases h
    refine ⟨rfl, ?_, ⟨hi, rfl, rfl, id, id⟩, fun _ => rfl⟩
    rw [holding_contents hi hb]
    simp only [View.exec, view, durable]
  | bwrite n commits =>
    obtain ⟨b, hb, h⟩ := bind_eq_some_iff.mp h
    obtain ⟨t, ht, h⟩ := bind_eq_some_iff.mp h
    obtain ⟨c, hc, rfl⟩ := bio_some ht
    have hmap : c.contents = s.cache.contents := step_contents hi hc
    have hdisk := bwrite_disk hi hc
    rw [(holding_some hb).2] at hdisk
    have hview : ({ s with cache := c } : Fsys ι).view img
        = View.exec (.bwrite n false) (s.view img) := by
      simp only [view, durable, hmap, hdisk, View.exec, Bool.false_eq_true, if_false]
    cases commits with
    | false =>
      cases h
      exact ⟨rfl, hview, .bio hi hc, fun _ => rfl⟩
    | true =>
      cases h
      refine ⟨rfl, ?_, ⟨hi.step hc, rfl, rfl, ?_, ?_⟩, fun _ => rfl⟩
      · rw [if_pos rfl, view_finish, hview]
        rfl
      · intro hall u hu
        have hu' := List.mem_filter.mp hu
        exact absurd (hall u hu'.1) (by simpa using hu'.2)
      · intro hnil
        show s.pending.filter _ = []
        rw [hnil]
        rfl
  | brelse n =>
    obtain ⟨b, hb, h⟩ := bind_eq_some_iff.mp h
    obtain ⟨c, hc, rfl⟩ := bio_some h
    exact ⟨rfl, view_reads img hi hc trivial, .bio hi hc, fun _ => rfl⟩
  | clear => cases h

theorem exec_cases (img : Image) (hi : s.cache.Inv) (h : s.exec p = some s') : Moved s s' ∧
    ((s'.todo = s.todo ∧ s'.view img = s.view img ∧ s'.log = s.log) ∨
      ∃ i is, s.todo p = i :: is ∧ s'.todo = update s.todo p is ∧
        s'.view img = View.exec i (s.view img) ∧ ((∀ n, i ≠ .getHead n) → s'.log = s.log)) := by
  have hinside : ∀ {a : BufAct ι Block}, s.bio a = some s' → Bcache.Reads a → Moved s s' ∧
      (s'.todo = s.todo ∧ s'.view img = s.view img ∧ s'.log = s.log) := by
    intro a ha hr
    obtain ⟨c, hc, rfl⟩ := bio_some ha
    exact ⟨.bio hi hc, rfl, view_reads img hi hc hr, rfl⟩
  unfold exec at h
  split at h
  · exact (hinside h trivial).imp_right .inl
  · exact (hinside h trivial).imp_right .inl
  · rename_i b n is hpc htodo
    obtain ⟨t, ht, rfl⟩ := map_eq_some_iff.mp h
    obtain ⟨c, hc, rfl⟩ := bio_some ht
    refine ⟨⟨hi.step hc, rfl, rfl, id, id⟩, .inr ⟨.bread n, is, htodo, rfl, ?_, fun _ => rfl⟩⟩
    exact view_reads img hi hc trivial
  · exact (hinside h trivial).imp_right .inl
  · rename_i i is hne hpc htodo
    obtain ⟨t, ht, rfl⟩ := map_eq_some_iff.mp h
    obtain ⟨htodo', hview, hm, hlog⟩ := statement_view img hi (fun n hn => hne n hn) ht
    refine ⟨⟨hm.cache, hm.mode, hm.log, hm.ops, hm.pending⟩, .inr ⟨i, is, htodo, ?_, hview, hlog⟩⟩
    show update t.todo p is = _
    rw [htodo']
  · cases h

end Fsys
end Xv6
