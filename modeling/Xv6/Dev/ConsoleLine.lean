/-
  Xv6.Dev.ConsoleLine

  The console has the line discipline of `Tty`.
-/

import Xv6.Dev.Console

namespace Xv6

open Function List Transition

namespace Input

variable {s : Input} {t : Tty} {r : ℕ} {c : UInt8}
variable {q l : List UInt8}

/-- The ring contains the unread bytes, from position `i` on, and behind them
    the line being typed. -/
structure ShowsAt (s : Input) (i : ℕ) (t : Tty) : Prop where
  r : s.r = UInt32.ofNat i
  w : s.w = UInt32.ofNat (i + t.ready.length)
  e : s.e = UInt32.ofNat (i + (t.ready.length + t.line.length))
  holds : Ring.Holds s.buf i (t.ready ++ t.line)
  line : Key.newline ∉ t.line

/-- The ring stands for the lists. -/
def Shows (s : Input) (t : Tty) : Prop := ∃ r, s.ShowsAt r t

theorem shows_boot : boot.Shows Tty.boot := ⟨0, rfl, rfl, rfl, .nil, by simp [Tty.boot]⟩

theorem inputBuf_dvd : INPUT_BUF ∣ 2 ^ 32 := by decide

theorem ShowsAt.short (h : s.ShowsAt r t) : t.ready.length + t.line.length ≤ INPUT_BUF := by
  have hshort := h.holds.short
  rw [length_append] at hshort
  exact hshort

/-! ## What the conditions of the code mean -/

theorem ShowsAt.r_eq_w_iff (h : s.ShowsAt r t) : s.r = s.w ↔ t.ready = [] := by
  have hshort := h.short
  have hlt : INPUT_BUF < 2 ^ 32 := by decide
  rw [h.r, h.w, eq_comm, Ring.counter_inj (by omega) (by omega), ← length_eq_zero_iff]
  omega

theorem ShowsAt.e_eq_w_iff (h : s.ShowsAt r t) : s.e = s.w ↔ t.line = [] := by
  have hshort := h.short
  have hlt : INPUT_BUF < 2 ^ 32 := by decide
  rw [h.e, h.w, Ring.counter_inj (by omega) (by omega), ← length_eq_zero_iff]
  omega

theorem ShowsAt.e_sub_r (h : s.ShowsAt r t) :
    (s.e - s.r).toNat = t.ready.length + t.line.length := by
  have hshort := h.short
  have hsize : INPUT_BUF = 128 := rfl
  rw [h.e, h.r]
  exact Ring.toNat_counter_sub (by omega)

theorem ShowsAt.w_sub_r (h : s.ShowsAt r t) : (s.w - s.r).toNat = t.ready.length := by
  have hshort := h.short
  have hsize : INPUT_BUF = 128 := rfl
  rw [h.w, h.r]
  exact Ring.toNat_counter_sub (by omega)

theorem ShowsAt.e_sub_w (h : s.ShowsAt r t) : (s.e - s.w).toNat = t.line.length := by
  have hshort := h.short
  have hsize : INPUT_BUF = 128 := rfl
  rw [h.e, h.w, ← Nat.add_assoc]
  exact Ring.toNat_counter_sub (by omega)

theorem ShowsAt.room_iff (h : s.ShowsAt r t) :
    s.e - s.r < UInt32.ofNat INPUT_BUF ↔ t.ready.length + t.line.length < INPUT_BUF := by
  rw [UInt32.lt_iff_toNat_lt, h.e_sub_r]
  rfl

/-! ## Reading -/

theorem ShowsAt.get_r (h : s.ShowsAt r t) (hq : t.ready = c :: q) : s.get s.r = c := by
  have hholds := h.holds
  rw [hq, cons_append] at hholds
  rw [get, h.r, Ring.cell_counter inputBuf_dvd]
  exact hholds.head

theorem ShowsAt.take (h : s.ShowsAt r t) (hq : t.ready = c :: q) :
    ShowsAt { s with r := s.r + 1 } (r + 1) (t.take c q) := by
  have hholds := h.holds
  have hw := h.w
  have he := h.e
  rw [hq, cons_append] at hholds
  rw [hq, length_cons] at hw he
  refine ⟨?_, ?_, ?_, hholds.pop, h.line⟩
  · show s.r + 1 = _
    rw [h.r, Ring.counter_succ]
  · show s.w = UInt32.ofNat (r + 1 + q.length)
    rw [hw, show r + 1 + q.length = r + (q.length + 1) by omega]
  · show s.e = UInt32.ofNat (r + 1 + (q.length + t.line.length))
    rw [he, show r + 1 + (q.length + t.line.length) = r + (q.length + 1 + t.line.length) by omega]

structure SameRead {D D' : Type} (R : D → D' → Prop) (x : ReadSection D) (y : ReadSection D') :
    Prop where
  dev : R x.dev y.dev
  bytes : x.bytes = y.bytes
  left : x.left = y.left
  done : x.done = y.done

theorem shows_read (target n : ℕ) (h : s.Shows t) :
    SameRead Shows (s.read target n) (t.read target n) := by
  -- along the loop, which wants one byte less each time
  induction n generalizing s t with
  | zero => exact ⟨h, rfl, rfl, rfl⟩
  | succ n ih =>
    obtain ⟨r, h⟩ := h
    rw [read, Tty.read]
    cases hready : t.ready with
    | nil =>
      rw [if_pos (h.r_eq_w_iff.mpr hready)]
      exact ⟨⟨r, h⟩, rfl, rfl, rfl⟩
    | cons c q =>
      have hne : t.ready ≠ [] := by
        rw [hready]
        exact cons_ne_nil c q
      rw [if_neg (mt h.r_eq_w_iff.mp hne)]
      simp only [h.get_r hready]
      have htake : Shows { s with r := s.r + 1 } (t.take c q) := ⟨r + 1, h.take hready⟩
      by_cases heot : c = Key.eot
      · rw [if_pos heot, if_pos heot]
        by_cases hmore : n + 1 < target
        · -- the counter is set back
          rw [if_pos hmore, if_pos hmore]
          refine ⟨⟨r, ?_⟩, rfl, rfl, rfl⟩
          show ShowsAt { s with r := s.r + 1 - 1 } r t
          rw [UInt32.add_sub_cancel]
          exact h
        · rw [if_neg hmore, if_neg hmore]
          exact ⟨htake, rfl, rfl, rfl⟩
      · rw [if_neg heot, if_neg heot]
        by_cases hnl : c = Key.newline
        · rw [if_pos hnl, if_pos hnl]
          exact ⟨htake, rfl, rfl, rfl⟩
        · rw [if_neg hnl, if_neg hnl]
          obtain ⟨hdev, hbytes, hleft, hdone⟩ := ih htake
          exact ⟨hdev, congrArg (c :: ·) hbytes, hleft, hdone⟩

/-! ## Typing -/

theorem ShowsAt.erase (h : s.ShowsAt r t) (hl : t.line = l ++ [c]) :
    s.get (s.e - 1) = c ∧ ShowsAt { s with e := s.e - 1 } r { t with line := l } := by
  have hholds := h.holds
  have hline := h.line
  rw [hl, ← append_assoc] at hholds
  rw [hl] at hline
  have he : s.e - 1 = UInt32.ofNat (r + (t.ready.length + l.length)) := by
    rw [h.e, hl, length_append, length_singleton,
      show r + (t.ready.length + (l.length + 1)) = r + (t.ready.length + l.length) + 1 by omega,
      ← Ring.counter_succ, UInt32.add_sub_cancel]
  refine ⟨?_, h.r, h.w, he, hholds.unpush, fun hmem => hline (mem_append_left _ hmem)⟩
  rw [get, he, Ring.cell_counter inputBuf_dvd, ← length_append]
  exact hholds.last

theorem ShowsAt.killLine (h : s.ShowsAt r { t with line := l }) :
    (s.killLine l.length).ShowsAt r { t with line := [] } := by
  -- from the end of the line
  induction l using List.reverseRecOn generalizing s with
  | nil => exact h
  | append_singleton l c ih =>
    obtain ⟨hget, herase⟩ := h.erase rfl
    have hc : c ≠ Key.newline := by
      intro hc
      refine h.line ?_
      rw [hc]
      exact mem_append_right _ mem_cons_self
    have hne : s.e ≠ s.w := mt h.e_eq_w_iff.mp (append_ne_nil_of_right_ne_nil _ (by simp))
    rw [length_append, length_singleton, Input.killLine, if_pos ⟨hne, by rw [hget]; exact hc⟩]
    exact ih herase

theorem ShowsAt.type (h : s.ShowsAt r t) (hroom : t.ready.length + t.line.length < INPUT_BUF) :
    let s' : Input := { s with
      buf := update s.buf (Ring.cell INPUT_BUF s.e.toNat) c
      e := s.e + 1 }
    s'.r = UInt32.ofNat r ∧ s'.w = UInt32.ofNat (r + t.ready.length) ∧
      s'.e = UInt32.ofNat (r + (t.ready.length + (t.line ++ [c]).length)) ∧
      Ring.Holds s'.buf r (t.ready ++ (t.line ++ [c])) := by
  refine ⟨h.r, h.w, ?_, ?_⟩
  · show s.e + 1 = _
    rw [h.e, Ring.counter_succ, length_append, length_singleton,
      show r + (t.ready.length + t.line.length) + 1 =
        r + (t.ready.length + (t.line.length + 1)) by omega]
  · show Ring.Holds (update s.buf (Ring.cell INPUT_BUF s.e.toNat) c) r _
    rw [h.e, Ring.cell_counter inputBuf_dvd, ← length_append, ← append_assoc]
    refine h.holds.push ?_
    rw [length_append]
    exact hroom

theorem shows_key (c : UInt8) (h : s.Shows t) :
    (s.key c).1.Shows (t.key c).1 ∧ (s.key c).2 = (t.key c).2 := by
  obtain ⟨r, h⟩ := h
  rw [key, Tty.key]
  by_cases hdump : c = Key.procdump
  · rw [if_pos hdump, if_pos hdump]
    exact ⟨⟨r, h⟩, rfl⟩
  rw [if_neg hdump, if_neg hdump]
  by_cases hkill : c = Key.kill
  · rw [if_pos hkill, if_pos hkill, h.e_sub_w]
    exact ⟨⟨r, h.killLine⟩, rfl⟩
  rw [if_neg hkill, if_neg hkill]
  by_cases hback : c = Key.backspace ∨ c = Key.delete
  · rw [if_pos hback, if_pos hback]
    refine ⟨⟨r, ?_⟩, rfl⟩
    rcases eq_nil_or_concat' t.line with hnil | ⟨l, x, hl⟩
    · rw [if_neg (not_not.mpr (h.e_eq_w_iff.mpr hnil))]
      have ht : ({ t with line := t.line.dropLast } : Tty) = t := by
        rw [hnil, dropLast_nil, ← hnil]
      rw [ht]
      exact h
    · have hne : t.line ≠ [] := by
        rw [hl]
        simp
      rw [if_pos (mt h.e_eq_w_iff.mp hne), hl, dropLast_concat]
      exact (h.erase hl).2
  rw [if_neg hback, if_neg hback, store]
  by_cases hroom : c ≠ 0 ∧ t.ready.length + t.line.length < INPUT_BUF
  · rw [if_pos hroom, if_pos (And.imp_right h.room_iff.mpr hroom)]
    generalize (if c = Key.ret then Key.newline else c) = d
    obtain ⟨hr, hw, he, hholds⟩ := h.type (c := d) hroom.2
    -- the ring is full exactly if the lists are
    have hfull : s.e + 1 = s.r + UInt32.ofNat INPUT_BUF ↔
        t.ready.length + (t.line ++ [d]).length = INPUT_BUF := by
      have hlen := hroom.2
      have hlt : INPUT_BUF < 2 ^ 32 := by decide
      rw [show s.e + 1 = _ from he, h.r, ← UInt32.ofNat_add, eq_comm, length_append,
        length_singleton, Ring.counter_inj (by omega) (by omega)]
      omega
    dsimp only
    by_cases hend : d = Key.newline ∨ d = Key.eot ∨
        t.ready.length + (t.line ++ [d]).length = INPUT_BUF
    · rw [if_pos hend, if_pos (by rw [hfull]; exact hend)]
      refine ⟨⟨r, hr, ?_, ?_, ?_, not_mem_nil⟩, rfl⟩
      · show s.e + 1 = UInt32.ofNat (r + (t.ready ++ (t.line ++ [d])).length)
        rw [length_append]
        exact he
      · show s.e + 1 = UInt32.ofNat (r + ((t.ready ++ (t.line ++ [d])).length + 0))
        rw [length_append, Nat.add_zero]
        exact he
      · show Ring.Holds _ r ((t.ready ++ (t.line ++ [d])) ++ [])
        rw [append_nil]
        exact hholds
    · rw [if_neg hend, if_neg (by rw [hfull]; exact hend)]
      refine ⟨⟨r, hr, hw, he, hholds, ?_⟩, rfl⟩
      show Key.newline ∉ t.line ++ [d]
      intro hmem
      rcases mem_append.mp hmem with hold | hnew
      · exact h.line hold
      · exact hend (.inl (mem_singleton.mp hnew).symm)
  · rw [if_neg hroom, if_neg (mt (And.imp_right h.room_iff.mp) hroom)]
    exact ⟨⟨r, h⟩, rfl⟩

end Input

/-! ## The processes cannot tell the drivers apart -/

structure Driver.Simulates {D D' : Type} (dr : Driver D) (dr' : Driver D') (R : D → D' → Prop) :
    Prop where
  key : ∀ c d d', R d d' → R (dr.key c d).1 (dr'.key c d').1 ∧ (dr.key c d).2 = (dr'.key c d').2
  read : ∀ target n d d', R d d' → Input.SameRead R (dr.read target n d) (dr'.read target n d')

theorem Input.simulates : Input.driver.Simulates Tty.driver Input.Shows where
  key := fun c _ _ h => Input.shows_key c h
  read := fun target n _ _ h => Input.shows_read target n h

namespace ConsSys

variable {ι D D' : Type} [DecidableEq ι] {dr : Driver D} {dr' : Driver D'} {R : D → D' → Prop}
  {s s' : ConsSys ι D} {t t' : ConsSys ι D'} {a : ConsAct ι}
variable {d : Tty} {n : ℤ} {left : ℕ} {got : List UInt8}

def view (s : ConsSys ι D) : (ι → ConsPc) × List UInt8 × List (ConsRead ι) :=
  (s.pc, s.delivered, s.reads)

/-- The processes see the same, and the devices are tied. -/
structure Same (R : D → D' → Prop) (s : ConsSys ι D) (t : ConsSys ι D') : Prop where
  dev : R s.dev t.dev
  pc : s.pc = t.pc
  delivered : s.delivered = t.delivered
  reads : s.reads = t.reads

omit [DecidableEq ι] in
theorem Same.view (h : Same R s t) : s.view = t.view := by
  rw [ConsSys.view, ConsSys.view, h.pc, h.delivered, h.reads]

theorem keys_sim (hsim : dr.Simulates dr' R) {d : D} {d' : D'} (h : R d d') (cs : List UInt8) :
    R (keys dr cs d).1 (keys dr' cs d').1 ∧ (keys dr cs d).2 = (keys dr' cs d').2 := by
  unfold keys
  generalize false = b
  induction cs generalizing d d' b with
  | nil => exact ⟨h, rfl⟩
  | cons c cs ih =>
    obtain ⟨hkey, hwoke⟩ := hsim.key c d d' h
    rw [foldl_cons, foldl_cons, hwoke]
    exact ih hkey _

theorem consoleread_sim (hsim : dr.Simulates dr' R) (h : Same R s t) (p : ι) (n : ℤ) (left : ℕ)
    (got : List UInt8) : Same R (s.consoleread dr p n left got) (t.consoleread dr' p n left got) := by
  obtain ⟨hdev, hbytes, hleft, hdone⟩ := hsim.read n.toNat left s.dev t.dev h.dev
  refine ⟨hdev, ?_, ?_, ?_⟩
  · simp only [consoleread, h.pc, hbytes, hleft, hdone]
  · simp only [consoleread, h.delivered, hbytes]
  · simp only [consoleread, h.reads, hbytes, hleft, hdone]

theorem step_sim (hsim : dr.Simulates dr' R) (h : Same R s t) (a : ConsAct ι) :
    (s.step dr a = none ∧ t.step dr' a = none) ∨
      ∃ s' t', s.step dr a = some s' ∧ t.step dr' a = some t' ∧ Same R s' t' := by
  cases a with
  | intr cs =>
    obtain ⟨hdev, hwoke⟩ := keys_sim hsim h.dev cs
    refine .inr ⟨_, _, rfl, rfl, hdev, ?_, h.delivered, h.reads⟩
    simp only [consoleintr, h.pc, hwoke]
  | read p n =>
    simp only [step, h.pc]
    cases t.pc p with
    | user => exact .inr ⟨_, _, rfl, rfl, consoleread_sim hsim h p n _ _⟩
    | reading m left got asleep => exact .inl ⟨rfl, rfl⟩
  | resume p =>
    simp only [step, h.pc]
    cases t.pc p with
    | user => exact .inl ⟨rfl, rfl⟩
    | reading m left got asleep =>
      cases asleep with
      | true => exact .inl ⟨rfl, rfl⟩
      | false => exact .inr ⟨_, _, rfl, rfl, consoleread_sim hsim h p m left got⟩

theorem run_sim (hsim : dr.Simulates dr' R) (h : Same R s t) (as : List (ConsAct ι)) :
    (run (step dr) s as).map view = (run (step dr') t as).map view := by
  induction as generalizing s t with
  | nil => exact congrArg some h.view
  | cons a as ih =>
    rcases step_sim hsim h a with ⟨hs, ht⟩ | ⟨s', t', hs, ht, h'⟩
    · simp only [run, hs, ht, Option.bind_none, Option.map_none]
    · simp only [run, hs, ht, Option.bind_some]
      exact ih h'

/-! ## Laws of the discipline -/

def InOrder (s : ConsSys ι Input) : Prop :=
  s.dev.w - s.dev.r ≤ s.dev.e - s.dev.r ∧ s.dev.e - s.dev.r ≤ UInt32.ofNat INPUT_BUF

omit [DecidableEq ι] in
theorem inOrder_of_shows {s : ConsSys ι Input} (h : ∃ t, s.dev.Shows t) : s.InOrder := by
  obtain ⟨t, r, h⟩ := h
  refine ⟨?_, ?_⟩
  · rw [UInt32.le_iff_toNat_le, h.w_sub_r, h.e_sub_r]
    omega
  · rw [UInt32.le_iff_toNat_le, h.e_sub_r]
    exact h.short

theorem shows_step {s s' : ConsSys ι Input} (h : ∃ t, s.dev.Shows t)
    (hs : s.step Input.driver a = some s') : ∃ t, s'.dev.Shows t := by
  obtain ⟨t, h⟩ := h
  have hsame : Same Input.Shows s (⟨t, s.pc, s.delivered, s.reads⟩ : ConsSys ι Tty) :=
    ⟨h, rfl, rfl, rfl⟩
  rcases step_sim Input.simulates hsame a with ⟨hnone, -⟩ | ⟨s1, t1, hsome, -, h'⟩
  · rw [hs] at hnone
    cases hnone
  · rw [hs] at hsome
    cases hsome
    exact ⟨t1.dev, h'.dev⟩

/-- A read has got what it wanted less what is left, with no `^D` among it
    and no newline before the end. -/
structure Got (n : ℤ) (left : ℕ) (got : List UInt8) : Prop where
  count : got.length + left = n.toNat
  eot : Key.eot ∉ got
  newline : Key.newline ∉ got.dropLast

/-- Every byte handed over is taken once, in order, or still ready; what reads
    deliver is what they take but for the `^D`s; a read returns the number of
    its bytes, which end with the first newline and contain no `^D`. -/
structure Lawful (s : ConsSys ι Tty) : Prop where
  committed : s.dev.taken ++ s.dev.ready = s.dev.committed
  delivered : s.delivered = s.dev.taken.filter (· ≠ Key.eot)
  reads : ∀ x ∈ s.reads, x.ret = x.bytes.length ∧ ∃ left, Got x.n left x.bytes
  reading : ∀ p n left got a, s.pc p = .reading n left got a → Got n left got ∧ Key.newline ∉ got

omit [DecidableEq ι] in
theorem lawful_init : (init Tty.boot : ConsSys ι Tty).Lawful where
  committed := rfl
  delivered := rfl
  reads := fun x hx => by cases hx
  reading := fun p n left got a h => by cases h

theorem committed_key (c : UInt8) (h : d.taken ++ d.ready = d.committed) :
    (d.key c).1.taken ++ (d.key c).1.ready = (d.key c).1.committed ∧
      (d.key c).1.taken = d.taken := by
  unfold Tty.key
  split
  · exact ⟨h, rfl⟩
  · split
    · exact ⟨h, rfl⟩
    · split
      · exact ⟨h, rfl⟩
      · split
        · generalize (if c = Key.ret then Key.newline else c) = x
          dsimp only
          split
          · refine ⟨?_, rfl⟩
            show d.taken ++ (d.ready ++ _) = d.committed ++ _
            rw [← append_assoc, h]
          · exact ⟨h, rfl⟩
        · exact ⟨h, rfl⟩

theorem committed_keys (cs : List UInt8) (h : d.taken ++ d.ready = d.committed) :
    (keys Tty.driver cs d).1.taken ++ (keys Tty.driver cs d).1.ready =
        (keys Tty.driver cs d).1.committed ∧
      (keys Tty.driver cs d).1.taken = d.taken := by
  unfold keys
  generalize false = b
  induction cs generalizing d b with
  | nil => exact ⟨h, rfl⟩
  | cons c cs ih =>
    obtain ⟨hkey, htaken⟩ := committed_key c h
    obtain ⟨hrest, hsame⟩ := ih hkey (b || (Tty.driver.key c d).2)
    exact ⟨hrest, hsame.trans htaken⟩

structure Took (d : Tty) (n : ℕ) (x : ReadSection Tty) : Prop where
  committed : x.dev.taken ++ x.dev.ready = x.dev.committed
  taken : x.dev.taken.filter (· ≠ Key.eot) = d.taken.filter (· ≠ Key.eot) ++ x.bytes
  count : x.bytes.length + x.left = n
  eot : Key.eot ∉ x.bytes
  newline : Key.newline ∉ x.bytes.dropLast
  asleep : x.done = false → Key.newline ∉ x.bytes

theorem took_read (target n : ℕ) (h : d.taken ++ d.ready = d.committed) :
    Took d n (d.read target n) := by
  induction n generalizing d with
  | zero => exact ⟨h, (append_nil _).symm, rfl, not_mem_nil, not_mem_nil, fun _ => not_mem_nil⟩
  | succ n ih =>
    have hidle : ∀ b, Took d (n + 1) ⟨d, [], n + 1, b⟩ := fun b =>
      ⟨h, (append_nil _).symm, Nat.zero_add _, not_mem_nil, not_mem_nil, fun _ => not_mem_nil⟩
    rw [Tty.read]
    split
    · exact hidle false
    · rename_i c q hready
      have htake : (d.take c q).taken ++ (d.take c q).ready = (d.take c q).committed := by
        show (d.taken ++ [c]) ++ q = d.committed
        rw [append_assoc, ← h, hready]
        rfl
      have hfilter : (d.take c q).taken.filter (· ≠ Key.eot) =
          d.taken.filter (· ≠ Key.eot) ++ [c].filter (· ≠ Key.eot) := filter_append _ _
      by_cases heot : c = Key.eot
      · rw [if_pos heot]
        split
        · exact hidle true
        · refine ⟨htake, ?_, Nat.zero_add _, not_mem_nil, not_mem_nil, fun _ => not_mem_nil⟩
          rw [hfilter, heot]
          rfl
      · have hself : [c].filter (· ≠ Key.eot) = [c] := by simp [heot]
        rw [hself] at hfilter
        rw [if_neg heot]
        split
        · refine ⟨htake, hfilter, Nat.add_comm _ _, ?_, not_mem_nil, fun hdone => by cases hdone⟩
          exact fun hmem => heot (mem_singleton.mp hmem).symm
        · rename_i hnl
          obtain ⟨hcom, htaken, hcount, hno, hlast, hasleep⟩ := ih htake
          refine ⟨hcom, ?_, ?_, ?_, ?_, ?_⟩
          · rw [htaken, hfilter, append_assoc]
            rfl
          · show ((d.take c q).read target n).bytes.length + 1 +
              ((d.take c q).read target n).left = n + 1
            omega
          · intro hmem
            rcases mem_cons.mp hmem with rfl | hmem
            · exact heot rfl
            · exact hno hmem
          · intro hmem
            have hmem' : Key.newline ∈ c :: ((d.take c q).read target n).bytes.dropLast := by
              cases hb : ((d.take c q).read target n).bytes with
              | nil => simp [hb] at hmem
              | cons x xs => simpa [hb] using hmem
            rcases mem_cons.mp hmem' with hc | hmem'
            · exact hnl hc.symm
            · exact hlast hmem'
          · intro hdone hmem
            rcases mem_cons.mp hmem with hc | hmem
            · exact hnl hc.symm
            · exact hasleep hdone hmem

theorem Got.append {x : ReadSection Tty} (h : Got n left got) (hgot : Key.newline ∉ got)
    (hx : Took d left x) : Got n x.left (got ++ x.bytes) := by
  refine ⟨?_, ?_, ?_⟩
  · have hcount := h.count
    have hmore := hx.count
    rw [length_append]
    omega
  · intro hmem
    rcases mem_append.mp hmem with hmem | hmem
    · exact h.eot hmem
    · exact hx.eot hmem
  · intro hmem
    cases hb : x.bytes with
    | nil =>
      rw [hb, append_nil] at hmem
      exact h.newline hmem
    | cons y ys =>
      rw [dropLast_append_of_ne_nil (by rw [hb]; simp)] at hmem
      rcases mem_append.mp hmem with hmem | hmem
      · exact hgot hmem
      · exact hx.newline hmem

theorem lawful_consoleread {s : ConsSys ι Tty} (h : s.Lawful) {p : ι} (hgot : Got n left got)
    (hnl : Key.newline ∉ got) : (s.consoleread Tty.driver p n left got).Lawful := by
  have hx : Took s.dev left (s.dev.read n.toNat left) := took_read n.toNat left h.committed
  have hall := hgot.append hnl hx
  refine ⟨hx.committed, ?_, ?_, ?_⟩
  · show s.delivered ++ _ = _
    rw [h.delivered]
    exact hx.taken.symm
  · intro y hy
    simp only [consoleread] at hy
    split at hy
    · rcases mem_append.mp hy with hold | hnew
      · exact h.reads y hold
      · rw [mem_singleton.mp hnew]
        refine ⟨?_, _, hall⟩
        have hcount := hall.count
        show (n.toNat : ℤ) - ((s.dev.read n.toNat left).left : ℤ) =
          ((got ++ (s.dev.read n.toNat left).bytes).length : ℤ)
        omega
    · exact h.reads y hy
  · intro q m left' got' a hq
    have hq' : update s.pc p (if (s.dev.read n.toNat left).done then .user else
      .reading n (s.dev.read n.toNat left).left (got ++ (s.dev.read n.toNat left).bytes) true) q =
        .reading m left' got' a := hq
    by_cases hqp : q = p
    · rw [hqp, update_self] at hq'
      split at hq'
      · cases hq'
      · rename_i hdone
        cases hq'
        refine ⟨hall, fun hmem => ?_⟩
        rcases mem_append.mp hmem with hmem | hmem
        · exact hnl hmem
        · exact hx.asleep (Bool.eq_false_iff.mpr hdone) hmem
    · rw [update_of_ne hqp] at hq'
      exact h.reading q m left' got' a hq'

theorem lawful_step {s s' : ConsSys ι Tty} (h : s.Lawful) (hs : s.step Tty.driver a = some s') :
    s'.Lawful := by
  cases a with
  | intr cs =>
    cases hs
    obtain ⟨hcom, htaken⟩ := committed_keys cs h.committed
    refine ⟨hcom, ?_, h.reads, ?_⟩
    · show s.delivered = (keys Tty.driver cs s.dev).1.taken.filter _
      rw [htaken]
      exact h.delivered
    · intro p n left got a hp
      simp only [consoleintr] at hp
      split at hp
      · -- a woken reader has what it had
        rw [wakeup] at hp
        cases hpc : s.pc p with
        | user => rw [hpc] at hp; cases hp
        | reading m left' got' a' =>
          rw [hpc] at hp
          cases hp
          exact h.reading p n left got a' hpc
      · exact h.reading p n left got a hp
  | read p n =>
    simp only [step] at hs
    split at hs
    · cases hs
      exact lawful_consoleread h ⟨Nat.zero_add _, not_mem_nil, not_mem_nil⟩ not_mem_nil
    · cases hs
  | resume p =>
    simp only [step] at hs
    split at hs
    · rename_i n left got hpc
      cases hs
      obtain ⟨hgot, hnl⟩ := h.reading p n left got false hpc
      exact lawful_consoleread h hgot hnl
    · cases hs

/-- **The line discipline of the console.**  For any characters typed and any
    reads between them, the counters stay in order modulo `2 ^ 32`; the reads
    get, sleep and return as they do with the reference discipline; and there
    the bytes reads take are the bytes handed over, in order and each once. -/
theorem console_line_discipline (as : List (ConsAct ι)) :
    Along (step Input.driver) InOrder (init Input.boot) as ∧
      (run (step Input.driver) (init Input.boot) as).map view =
        (run (step Tty.driver) (init Tty.boot) as).map (view (ι := ι)) ∧
      Along (step Tty.driver) Lawful (init Tty.boot : ConsSys ι Tty) as := by
  refine ⟨?_, ?_, ?_⟩
  · refine (along_of_invariant (I := fun s : ConsSys ι Input => ∃ t, s.dev.Shows t)
      ⟨_, Input.shows_boot⟩ (fun s a s' h hs => shows_step h hs) as).mono ?_
    exact fun s h => inOrder_of_shows h
  · exact run_sim Input.simulates ⟨Input.shows_boot, rfl, rfl, rfl⟩ as
  · exact along_of_invariant lawful_init (fun s a s' h hs => lawful_step h hs) as

end ConsSys

end Xv6
