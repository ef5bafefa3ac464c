/-
  Xv6.Dev.PipeSleep

  Who sleeps on a pipe, and why.

  A section that makes the pipe non-empty or non-full wakes the other side, with
  one exception: a `pipewrite` that has stored bytes and then finds the pipe
  full returns -1 without a wakeup if its process was killed or the read end is
  closed (pipe.c, 84-88).  `Forgets` is this section run while a reader sleeps,
  and it is the only way to strand anybody.
-/

import Xv6.Dev.Pipe

namespace Xv6

open Function PipePc

namespace PipeBuf

variable {b : PipeBuf} {killed : Bool} {n : ℤ} {rest : List UInt8}

theorem not_empty_of_full (h : b.full = true) : b.empty = false := by
  rw [full, beq_iff_eq] at h
  rw [empty, beq_eq_false_iff_ne, h]
  intro he
  rw [← UInt32.toNat_inj, UInt32.toNat_add, UInt32.toNat_ofNat'] at he
  have hlt := b.nread.toNat_lt
  have hsize : PIPESIZE = 512 := rfl
  omega

theorem pipewrite_ends (b : PipeBuf) (killed : Bool) (n : ℤ) (rest : List UInt8) :
    let r := b.pipewrite killed n rest
    r.buf.readopen = b.readopen ∧ r.buf.writeopen = b.writeopen ∧
    ((r.ends = .ret n ∧ r.wakes = some .nread) ∨
      (r.buf.full = true ∧ r.ends = .ret (-1) ∧ r.wakes = none) ∨
      (r.buf.full = true ∧ b.readopen = true ∧ r.ends = .sleep ∧ r.wakes = some .nread)) := by
  induction rest generalizing b with
  | nil => exact ⟨rfl, rfl, .inl ⟨rfl, rfl⟩⟩
  | cons c rest ih =>
    rw [pipewrite]
    by_cases hfull : b.full = true
    · rw [if_pos hfull]
      by_cases hgone : (!b.readopen || killed) = true
      · rw [if_pos hgone]
        exact ⟨rfl, rfl, .inr (.inl ⟨hfull, rfl, rfl⟩)⟩
      · rw [if_neg hgone]
        have hopen : b.readopen = true := by
          cases hr : b.readopen <;> simp_all
        exact ⟨rfl, rfl, .inr (.inr ⟨hfull, hopen, rfl, rfl⟩)⟩
    · rw [if_neg hfull]
      exact ih (b.put c)

theorem pipewrite_of_full (h : b.full = true) : (b.pipewrite killed n rest).buf = b := by
  cases rest with
  | nil => rfl
  | cons c rest =>
    rw [pipewrite, if_pos h]
    split
    · rfl
    · rfl

/-- How many bytes the pipe has room for. -/
def room (b : PipeBuf) : ℕ := PIPESIZE - (b.nwrite - b.nread).toNat

theorem full_iff : b.full = true ↔ (b.nwrite - b.nread).toNat = PIPESIZE := by
  have hr := b.nread.toNat_lt
  have hw := b.nwrite.toNat_lt
  have hsize : PIPESIZE = 512 := rfl
  rw [full, beq_iff_eq, ← UInt32.toNat_inj, UInt32.toNat_add, UInt32.toNat_ofNat', UInt32.toNat_sub]
  omega

theorem room_of_empty (h : b.empty = true) : b.room = PIPESIZE := by
  rw [empty, beq_iff_eq] at h
  rw [room, h, UInt32.sub_self]
  rfl

theorem used_put (c : UInt8) (h : (b.nwrite - b.nread).toNat < PIPESIZE) :
    ((b.put c).nwrite - (b.put c).nread).toNat = (b.nwrite - b.nread).toNat + 1 := by
  have hr := b.nread.toNat_lt
  have hw := b.nwrite.toNat_lt
  have hsize : PIPESIZE = 512 := rfl
  show (b.nwrite + 1 - b.nread).toNat = _
  rw [UInt32.toNat_sub] at h ⊢
  rw [UInt32.toNat_sub, UInt32.toNat_add, UInt32.toNat_one]
  omega

/-- A section wakes nobody exactly if the bytes do not fit and nobody is to read them, or the
    writer has been killed. -/
theorem pipewrite_wakes_none (h : (b.nwrite - b.nread).toNat ≤ PIPESIZE) :
    (b.pipewrite killed n rest).wakes = none ↔
      (b.readopen = false ∨ killed = true) ∧ b.room < rest.length := by
  induction rest generalizing b with
  | nil => simp [pipewrite]
  | cons c rest ih =>
    rw [pipewrite]
    by_cases hfull : b.full = true
    · have hroom : b.room = 0 := by
        rw [room, full_iff.mp hfull]
        rfl
      rw [if_pos hfull, hroom]
      by_cases hgone : (!b.readopen || killed) = true
      · rw [if_pos hgone]
        simpa using hgone
      · rw [if_neg hgone]
        simpa using hgone
    · have hlt := lt_of_le_of_ne h (mt full_iff.mpr hfull)
      have hput := used_put c hlt
      have hroom : b.room = (b.put c).room + 1 := by
        unfold room
        omega
      rw [if_neg hfull, hroom, List.length_cons, Nat.add_lt_add_iff_right]
      exact ih (b := b.put c) (by omega)

theorem piperead_ends (b : PipeBuf) (killed : Bool) (n : ℤ) :
    let r := b.piperead killed n
    (b.empty = true ∧ b.writeopen = true ∧ r.buf = b ∧ r.wakes = none) ∨
    (¬ (b.empty = true ∧ b.writeopen = true) ∧ r.wakes = some .nwrite ∧ ∃ i, r.ends = .ret i) := by
  rw [piperead]
  by_cases hwait : (b.empty && b.writeopen) = true
  · rw [if_pos hwait]
    rw [Bool.and_eq_true] at hwait
    left
    cases killed
    · exact ⟨hwait.1, hwait.2, rfl, rfl⟩
    · exact ⟨hwait.1, hwait.2, rfl, rfl⟩
  · rw [if_neg hwait]
    rw [Bool.and_eq_true] at hwait
    exact .inr ⟨hwait, rfl, _, rfl⟩

end PipeBuf

namespace PipeSys

open Transition

variable {ι : Type} [DecidableEq ι] {s s' t : PipeSys ι} {p q : ι} {n : ℤ} {id : ℕ}
  {rest : List UInt8} {c : PipeChan}

def SleepsOn (s : PipeSys ι) (p : ι) (c : PipeChan) : Prop := (s.pc p).chan = some c

instance : Decidable (s.SleepsOn p c) := inferInstanceAs (Decidable ((s.pc p).chan = some c))

/-- What the sleepers of a channel wait for has not come. -/
def Waits (b : PipeBuf) : PipeChan → Prop
  | .nread => b.empty = true ∧ b.writeopen = true
  | .nwrite => b.full = true ∧ b.readopen = true

def NoStranded (s : PipeSys ι) : Prop := ∀ p c, s.SleepsOn p c → Waits s.buf c

/-! ## Sleepers after a step -/

omit [DecidableEq ι] in
theorem sleepsOn_wakeup {c d : PipeChan} : (s.wakeup d).SleepsOn p c ↔ s.SleepsOn p c ∧ c ≠ d := by
  unfold SleepsOn wakeup
  dsimp only
  by_cases hd : (s.pc p).chan = some d
  · rw [if_pos hd, chan_awake, hd]
    simp [eq_comm]
  · rw [if_neg hd]
    refine ⟨fun h => ⟨h, fun hcd => hd (hcd ▸ h)⟩, fun h => h.1⟩

omit [DecidableEq ι] in
theorem sleepsOn_wakes {w : Option PipeChan} :
    (s.wakes w).SleepsOn p c ↔ s.SleepsOn p c ∧ w ≠ some c := by
  cases w with
  | none => simp [wakes]
  | some d =>
    show (s.wakeup d).SleepsOn p c ↔ _
    rw [sleepsOn_wakeup]
    simp [eq_comm]

theorem sleepsOn_runWrite (hp : (s.pc p).chan = none) : (s.runWrite p id n rest).SleepsOn q c ↔
    (q = p ∧ c = .nwrite ∧ (s.buf.pipewrite (s.killed p) n rest).ends = .sleep) ∨
    (s.SleepsOn q c ∧ (s.buf.pipewrite (s.killed p) n rest).wakes ≠ some c) := by
  rw [← sleepsOn_wakes]
  unfold SleepsOn runWrite
  dsimp only
  by_cases hqp : q = p
  · subst hqp
    have hout : ∀ w, ((s.wakes w).pc q).chan = none := by
      intro w
      cases w with
      | none => exact hp
      | some d => simp [wakes, wakeup, hp]
    rw [update_self, hout]
    cases (s.buf.pipewrite (s.killed q) n rest).ends with
    | sleep => simp [chan, eq_comm]
    | ret i => simp [chan]
  · rw [update_of_ne hqp]
    simp [hqp]

theorem sleepsOn_runRead (hp : (s.pc p).chan = none) : (s.runRead p n).SleepsOn q c ↔
    (q = p ∧ c = .nread ∧ (s.buf.piperead (s.killed p) n).ends = .sleep) ∨
    (s.SleepsOn q c ∧ (s.buf.piperead (s.killed p) n).wakes ≠ some c) := by
  rw [← sleepsOn_wakes]
  unfold SleepsOn runRead
  dsimp only
  by_cases hqp : q = p
  · subst hqp
    have hout : ∀ w, ((s.wakes w).pc q).chan = none := by
      intro w
      cases w with
      | none => exact hp
      | some d => simp [wakes, wakeup, hp]
    rw [update_self, hout]
    cases (s.buf.piperead (s.killed q) n).ends with
    | sleep => simp [chan, eq_comm]
    | ret i => simp [chan]
  · rw [update_of_ne hqp]
    simp [hqp]

/-! ## One step -/

/-- The read end is closed or the writer has been killed, the pipe has room for some of the bytes
    that are left but not for all of them, and a reader sleeps. -/
def ForgetsIn (s : PipeSys ι) (p : ι) (rest : List UInt8) : Prop :=
  (s.buf.readopen = false ∨ s.killed p = true) ∧ 0 < s.buf.room ∧ s.buf.room < rest.length ∧
    ∃ q, s.SleepsOn q .nread

omit [DecidableEq ι] in
theorem NoStranded.used_zero (h : s.NoStranded) (hq : s.SleepsOn q .nread) :
    s.buf.room = PIPESIZE ∧ (s.buf.nwrite - s.buf.nread).toNat ≤ PIPESIZE := by
  have hempty := (h q .nread hq).1
  refine ⟨PipeBuf.room_of_empty hempty, ?_⟩
  rw [PipeBuf.empty, beq_iff_eq] at hempty
  rw [hempty, UInt32.sub_self]
  exact Nat.zero_le _

/-- A section of a writer strands a reader exactly if it forgets the wakeup. -/
theorem noStranded_runWrite (h : s.NoStranded) (hp : (s.pc p).chan = none) :
    (s.runWrite p id n rest).NoStranded ↔ ¬ s.ForgetsIn p rest := by
  obtain ⟨hr, hw, hends⟩ := PipeBuf.pipewrite_ends s.buf (s.killed p) n rest
  constructor
  · rintro hgood ⟨hgone, -, hlen, q, hq⟩
    have hwakes := (PipeBuf.pipewrite_wakes_none (n := n) (h.used_zero hq).2).mpr ⟨hgone, hlen⟩
    have hempty : (s.runWrite p id n rest).buf.empty = true :=
      (hgood q .nread ((sleepsOn_runWrite hp).mpr (.inr ⟨hq, by rw [hwakes]; simp⟩))).1
    -- the section ended because the pipe was full
    have hfull : (s.runWrite p id n rest).buf.full = true := by
      rcases hends with ⟨-, hs⟩ | ⟨hfull, -, -⟩ | ⟨hfull, -, -, -⟩
      · rw [hs] at hwakes
        cases hwakes
      · exact hfull
      · exact hfull
    rw [PipeBuf.not_empty_of_full hfull] at hempty
    cases hempty
  · intro hnot q c hq
    rcases (sleepsOn_runWrite hp).mp hq with ⟨rfl, rfl, hsleep⟩ | ⟨hbefore, hne⟩
    · -- the writer itself
      rcases hends with ⟨he, -⟩ | ⟨-, he, -⟩ | ⟨hfull, hopen, -, -⟩
      · rw [he] at hsleep
        cases hsleep
      · rw [he] at hsleep
        cases hsleep
      · exact ⟨hfull, hr.trans hopen⟩
    · cases c with
      | nwrite =>
        have hwaits := h q .nwrite hbefore
        -- the pipe was full, so nothing was stored
        show (s.buf.pipewrite (s.killed p) n rest).buf.full = true ∧ _
        rw [PipeBuf.pipewrite_of_full hwaits.1]
        exact ⟨hwaits.1, hr.trans hwaits.2⟩
      | nread =>
        -- a section that does not wake the readers forgets them
        have hwakes : (s.buf.pipewrite (s.killed p) n rest).wakes = none := by
          rcases hends with ⟨-, hs⟩ | ⟨-, -, hs⟩ | ⟨-, -, -, hs⟩
          · exact absurd hs hne
          · exact hs
          · exact absurd hs hne
        obtain ⟨hroom, hused⟩ := h.used_zero hbefore
        obtain ⟨hgone, hlen⟩ := (PipeBuf.pipewrite_wakes_none hused).mp hwakes
        exact absurd ⟨hgone, by rw [hroom]; decide, hlen, q, hbefore⟩ hnot

theorem noStranded_runRead (h : s.NoStranded) (hp : (s.pc p).chan = none) :
    (s.runRead p n).NoStranded := by
  intro q c hq
  rcases PipeBuf.piperead_ends s.buf (s.killed p) n with
    ⟨hempty, hopen, hbuf, hwakes⟩ | ⟨hgo, hwakes, i, hi⟩
  · have hsame : (s.runRead p n).buf = s.buf := hbuf
    rcases (sleepsOn_runRead hp).mp hq with ⟨-, rfl, -⟩ | ⟨hbefore, -⟩
    · exact hsame ▸ ⟨hempty, hopen⟩
    · exact hsame ▸ h q c hbefore
  · rcases (sleepsOn_runRead hp).mp hq with ⟨-, -, hsleep⟩ | ⟨hbefore, hne⟩
    · rw [hi] at hsleep
      cases hsleep
    · -- a sleeping reader contradicts that this one went on
      cases c with
      | nwrite => exact absurd hwakes hne
      | nread => exact absurd (h q .nread hbefore) hgo

omit [DecidableEq ι] in
theorem noStranded_pipeclose (h : s.NoStranded) (writable : Bool) :
    (s.pipeclose writable).NoStranded := by
  intro q c hq
  have hq' : (s.wakeup (if writable then .nread else .nwrite)).SleepsOn q c := hq
  obtain ⟨hbefore, hne⟩ := sleepsOn_wakeup.mp hq'
  have hwaits := h q c hbefore
  cases writable with
  | true =>
    cases c with
    | nread => exact absurd rfl hne
    | nwrite => exact hwaits
  | false =>
    cases c with
    | nread => exact hwaits
    | nwrite => exact absurd rfl hne

theorem noStranded_kill (h : s.NoStranded) (p : ι) : (s.kill p).NoStranded := by
  intro q c hq
  refine h q c ?_
  unfold SleepsOn kill at hq
  dsimp only at hq
  by_cases hqp : q = p
  · rw [hqp, update_self, chan_awake] at hq
    cases hq
  · rw [update_of_ne hqp] at hq
    exact hq

/-! ## Runs -/

/-- The step is a section of `pipewrite` that stores bytes and returns -1 while a reader sleeps. -/
def Forgets (s : PipeSys ι) : PipeAct ι → Prop
  | .write p n addr => s.ForgetsIn p (bytesAt addr n)
  | .resume p => match s.pc p with
      | .write _ _ rest false => s.ForgetsIn p rest
      | _ => False
  | _ => False

theorem noStranded_step {a : PipeAct ι} (h : s.NoStranded) (hs : s.step a = some s') :
    s'.NoStranded ↔ ¬ s.Forgets a := by
  cases a with
  | write p n addr =>
    simp only [step] at hs
    split at hs
    · rename_i hp
      cases hs
      have hout : ((s.call (bytesAt addr n)).pc p).chan = none := by
        show (s.pc p).chan = none
        rw [hp.1]
        rfl
      exact noStranded_runWrite (s := s.call (bytesAt addr n)) h hout
    · cases hs
  | read p n =>
    simp only [step] at hs
    split at hs
    · rename_i hp
      cases hs
      exact iff_of_true (noStranded_runRead h (by rw [hp.1]; rfl)) id
    · cases hs
  | resume p =>
    simp only [step] at hs
    split at hs
    · split at hs
      · rename_i hpc
        cases hs
        rw [noStranded_runWrite h (by rw [hpc]; rfl), Forgets, hpc]
      · rename_i hpc
        cases hs
        rw [Forgets, hpc]
        exact iff_of_true (noStranded_runRead h (by rw [hpc]; rfl)) id
      · cases hs
    · cases hs
  | close writable =>
    simp only [step] at hs
    split at hs
    · cases hs
      exact iff_of_true (noStranded_pipeclose h writable) id
    · cases hs
  | kill p =>
    cases hs
    exact iff_of_true (noStranded_kill h p) id

/-- **Stranded sleepers.**  Along a run of any readers and writers, every
    sleeper waits for what has not come, exactly if no `pipewrite` returns -1
    from a section in which it stored bytes while a reader slept. -/
theorem noStranded_iff (data : Fin PIPESIZE → UInt8) (as : List (PipeAct ι)) :
    Along step NoStranded (init data) as ↔
      Meets step (fun s a => ¬ s.Forgets a) (init data : PipeSys ι) as := by
  have h₀ : (init data : PipeSys ι).NoStranded := fun p c hp => by cases hp
  exact along_iff_meets (I := fun _ => True) trivial h₀ (fun _ _ _ _ _ _ _ => trivial)
    fun s a s' _ h hs => noStranded_step h hs

/-- A writer of 1025 bytes fills the pipe and sleeps; the reader takes the 512
    bytes and sleeps on the empty pipe; the writer, killed, fills the pipe again
    and returns -1.  The reader sleeps beside a full pipe. -/
theorem reader_stranded_by_killed_writer :
    ¬ Along step NoStranded (init (fun _ => 0) : PipeSys (Fin 2))
      [.write 0 1025 (fun _ => 7), .read 1 512, .read 1 1, .kill 0, .resume 0] := by
  intro h
  obtain ⟨s', hs', hsleeps, hfull⟩ :
      ∃ s', run step (init (fun _ => 0) : PipeSys (Fin 2))
        [.write 0 1025 (fun _ => 7), .read 1 512, .read 1 1, .kill 0, .resume 0] = some s' ∧
        s'.SleepsOn 1 .nread ∧ s'.buf.empty = false :=
    exists_run (by decide +kernel)
  have hempty := (along_iff_run.mp h _ [] s' (List.append_nil _).symm hs' 1 .nread hsleeps).1
  rw [hfull] at hempty
  cases hempty

end PipeSys

end Xv6
