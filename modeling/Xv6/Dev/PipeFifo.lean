/-
  Xv6.Dev.PipeFifo

  A pipe is a queue.
-/

import Xv6.Dev.Pipe

namespace Xv6

open Function List

namespace PipeBuf

variable {b : PipeBuf} {killed : Bool} {n : ℤ} {r : ℕ} {q : List UInt8}

structure Queue (b : PipeBuf) (r : ℕ) (q : List UInt8) : Prop where
  nread : b.nread = UInt32.ofNat r
  nwrite : b.nwrite = UInt32.ofNat (r + q.length)
  holds : Ring.Holds b.data r q

theorem pipesize_dvd : PIPESIZE ∣ 2 ^ 32 := by decide

theorem Queue.full_iff (h : b.Queue r q) : b.full = true ↔ q.length = PIPESIZE := by
  have hshort := h.holds.short
  have hlt : PIPESIZE < 2 ^ 32 := by decide
  rw [full, beq_iff_eq, h.nread, h.nwrite, ← UInt32.ofNat_add, eq_comm,
    Ring.counter_inj (by omega) (by omega)]
  omega

theorem Queue.empty_iff (h : b.Queue r q) : b.empty = true ↔ q = [] := by
  have hshort := h.holds.short
  have hlt : PIPESIZE < 2 ^ 32 := by decide
  rw [empty, beq_iff_eq, h.nread, h.nwrite, eq_comm, Ring.counter_inj (by omega) (by omega),
    ← length_eq_zero_iff]
  omega

theorem Queue.put (h : b.Queue r q) (hfull : b.full ≠ true) (c : UInt8) :
    (b.put c).Queue r (q ++ [c]) := by
  have hlt : q.length < PIPESIZE := by
    have hne := mt h.full_iff.mpr hfull
    have hshort := h.holds.short
    omega
  refine ⟨h.nread, ?_, ?_⟩
  · show b.nwrite + 1 = _
    rw [h.nwrite, Ring.counter_succ, length_append]
    rfl
  · show Ring.Holds (update b.data (Ring.cell PIPESIZE b.nwrite.toNat) c) r (q ++ [c])
    rw [h.nwrite, Ring.cell_counter pipesize_dvd]
    exact h.holds.push hlt

theorem Queue.next {c : UInt8} (h : b.Queue r (c :: q)) : b.next = c := by
  rw [PipeBuf.next, h.nread, Ring.cell_counter pipesize_dvd]
  exact h.holds.head

theorem Queue.skip {c : UInt8} (h : b.Queue r (c :: q)) : b.skip.Queue (r + 1) q := by
  refine ⟨?_, ?_, h.holds.pop⟩
  · show b.nread + 1 = _
    rw [h.nread, Ring.counter_succ]
  · show b.nwrite = _
    rw [h.nwrite, length_cons, show r + 1 + q.length = r + (q.length + 1) by omega]

/-! ## Sections -/

/-- A section of `pipewrite` puts the bytes it takes from its source behind the queue. -/
theorem Queue.pipewrite (h : b.Queue r q) (killed : Bool) (n : ℤ) (rest : List UInt8) :
    (b.pipewrite killed n rest).buf.Queue r (q ++ (b.pipewrite killed n rest).bytes) ∧
      (b.pipewrite killed n rest).bytes ++ (b.pipewrite killed n rest).rest = rest := by
  -- along the store loop
  induction rest generalizing b q with
  | nil =>
    refine ⟨?_, rfl⟩
    show b.Queue r (q ++ [])
    rw [append_nil]
    exact h
  | cons c rest ih =>
    rw [PipeBuf.pipewrite]
    by_cases hfull : b.full = true
    · rw [if_pos hfull]
      split
      · exact ⟨by simpa using h, rfl⟩
      · exact ⟨by simpa using h, rfl⟩
    · rw [if_neg hfull]
      obtain ⟨hq, hrest⟩ := ih (h.put hfull c)
      refine ⟨?_, ?_⟩
      · rw [append_assoc] at hq
        exact hq
      · show c :: (_ ++ _) = _
        rw [hrest]

theorem Queue.drain {k : ℕ} (h : b.Queue r q) :
    (b.drain k).2 = q.take k ∧ (b.drain k).1.Queue (r + (q.take k).length) (q.drop k) := by
  induction k generalizing b r q with
  | zero => exact ⟨rfl, h⟩
  | succ k ih =>
    rw [PipeBuf.drain]
    cases q with
    | nil =>
      rw [if_pos (h.empty_iff.mpr rfl)]
      exact ⟨rfl, h⟩
    | cons c q =>
      rw [if_neg (mt h.empty_iff.mp (cons_ne_nil c q))]
      obtain ⟨hbytes, hq⟩ := ih h.skip
      refine ⟨?_, ?_⟩
      · show b.next :: (b.skip.drain k).2 = _
        rw [hbytes, h.next, take_succ_cons]
      · rw [take_succ_cons, length_cons, drop_succ_cons,
          show r + ((q.take k).length + 1) = r + 1 + (q.take k).length by omega]
        exact hq

theorem Queue.piperead (h : b.Queue r q) (killed : Bool) (n : ℤ) :
    ∃ q', q = (b.piperead killed n).bytes ++ q' ∧
      (b.piperead killed n).buf.Queue (r + (b.piperead killed n).bytes.length) q' := by
  rw [PipeBuf.piperead]
  split
  · split
    · exact ⟨q, rfl, h⟩
    · exact ⟨q, rfl, h⟩
  · obtain ⟨hbytes, hq⟩ := h.drain (k := n.toNat)
    refine ⟨q.drop n.toNat, ?_, ?_⟩
    · show q = (b.drain n.toNat).2 ++ _
      rw [hbytes, take_append_drop]
    · show (b.drain n.toNat).1.Queue (r + (b.drain n.toNat).2.length) _
      rw [hbytes]
      exact hq

theorem Queue.eof (h : b.Queue r q) (hn : 0 < n) (hret : (b.piperead killed n).ends = .ret 0) :
    q = [] ∧ b.writeopen = false := by
  rw [PipeBuf.piperead] at hret
  split at hret
  · split at hret
    · cases hret
    · cases hret
  · rename_i hgo
    have hlen : (b.drain n.toNat).2.length = 0 := by
      have heq := PipeExit.ret.inj hret
      exact_mod_cast heq
    have hq : q = [] := by
      rw [(h.drain (k := n.toNat)).1, length_take] at hlen
      have hpos : 0 < n.toNat := by omega
      rw [← length_eq_zero_iff]
      omega
    have hempty := h.empty_iff.mpr hq
    refine ⟨hq, ?_⟩
    rw [hempty, Bool.true_and] at hgo
    exact Bool.eq_false_iff.mpr hgo

end PipeBuf

namespace PipeSys

open Transition

variable {ι : Type} [DecidableEq ι] {s s' : PipeSys ι} {p : ι} {n : ℤ} {id : ℕ}
  {rest : List UInt8}

def bytesOf (s : PipeSys ι) (id : ℕ) : List UInt8 :=
  (s.stored.filter fun x => x.1 = id).map Prod.snd

structure Inv (s : PipeSys ι) : Prop where
  queue : ∃ q, s.stored.map Prod.snd = s.returned ++ q ∧ s.buf.Queue s.returned.length q
  order : ∀ id, s.bytesOf id <+: s.src id
  rest : ∀ p id n rest a, s.pc p = .write id n rest a →
    id < s.calls ∧ s.bytesOf id ++ rest = s.src id
  uniq : ∀ p q id n n' rest rest' a a', s.pc p = .write id n rest a →
    s.pc q = .write id n' rest' a' → p = q
  known : ∀ x ∈ s.stored, x.1 < s.calls

theorem inv_init (data : Fin PIPESIZE → UInt8) : (init data : PipeSys ι).Inv where
  queue := ⟨[], rfl, rfl, rfl, .nil⟩
  order := fun id => prefix_rfl
  rest := fun p id n rest a h => by cases h
  uniq := fun p q id n n' rest rest' a a' h => by cases h
  known := fun x hx => by cases hx

/-! ## One step -/

theorem pc_write_of_wakes {w : Option PipeChan} {q : ι} {a : Bool}
    (h : (s.wakes w).pc q = .write id n rest a) : ∃ a', s.pc q = .write id n rest a' := by
  cases w with
  | none => exact ⟨a, h⟩
  | some c =>
    simp only [wakes, Option.elim, wakeup] at h
    split at h
    · cases hpc : s.pc q with
      | user => rw [hpc] at h; cases h
      | read m b => rw [hpc] at h; cases h
      | write id' n' rest' b =>
        rw [hpc] at h
        cases h
        exact ⟨b, rfl⟩
    · exact ⟨a, h⟩

theorem Inv.of_calls (h : s.Inv) (hsrc : s'.src = s.src) (hcalls : s'.calls = s.calls)
    (hstored : s'.stored = s.stored)
    (hpc : ∀ q id n rest a, s'.pc q = .write id n rest a → ∃ a', s.pc q = .write id n rest a')
    (hqueue : ∃ q, s'.stored.map Prod.snd = s'.returned ++ q ∧
      s'.buf.Queue s'.returned.length q) : s'.Inv where
  queue := hqueue
  order := fun id => by
    rw [bytesOf, hstored, hsrc]
    exact h.order id
  rest := fun q id n rest a hq => by
    obtain ⟨a', ha'⟩ := hpc q id n rest a hq
    rw [bytesOf, hstored, hsrc, hcalls]
    exact h.rest q id n rest a' ha'
  uniq := fun q q' id n n' rest rest' a a' hq hq' => by
    obtain ⟨b, hb⟩ := hpc q id n rest a hq
    obtain ⟨b', hb'⟩ := hpc q' id n' rest' a' hq'
    exact h.uniq q q' id n n' rest rest' b b' hb hb'
  known := by
    rw [hstored, hcalls]
    exact h.known

theorem inv_runRead (h : s.Inv) (p : ι) (n : ℤ) : (s.runRead p n).Inv := by
  refine h.of_calls rfl rfl rfl ?_ ?_
  · intro q id m rest a hq
    have hq' : update (s.wakes (s.buf.piperead (s.killed p) n).wakes).pc p _ q =
      .write id m rest a := hq
    by_cases hqp : q = p
    · rw [hqp, update_self] at hq'
      split at hq'
      · cases hq'
      · cases hq'
    · rw [update_of_ne hqp] at hq'
      exact pc_write_of_wakes hq'
  · obtain ⟨q, hall, hq⟩ := h.queue
    obtain ⟨q', hsplit, hq'⟩ := hq.piperead (s.killed p) n
    refine ⟨q', ?_, ?_⟩
    · show s.stored.map Prod.snd = (s.returned ++ _) ++ q'
      rw [hall, append_assoc, ← hsplit]
    · show (s.buf.piperead (s.killed p) n).buf.Queue (s.returned ++ _).length q'
      rw [length_append]
      exact hq'

theorem bytesOf_append (id id' : ℕ) (l : List UInt8) :
    ((s.stored ++ l.map (Prod.mk id)).filter fun x => x.1 = id').map Prod.snd =
      if id' = id then s.bytesOf id ++ l else s.bytesOf id' := by
  rw [filter_append, map_append]
  by_cases hid : id' = id
  · rw [if_pos hid, hid]
    congr 1
    rw [filter_eq_self.mpr (by simp), map_map]
    exact map_id l
  · have hnone : (l.map (Prod.mk id)).filter (fun x => x.1 = id') = [] :=
      filter_eq_nil_iff.mpr (by simp [Ne.symm hid])
    rw [if_neg hid, hnone, map_nil, append_nil]
    rfl

theorem inv_runWrite (h : s.Inv) (hid : id < s.calls) (hrest : s.bytesOf id ++ rest = s.src id)
    (hown : ∀ q n' rest' a, s.pc q = .write id n' rest' a → q = p) :
    (s.runWrite p id n rest).Inv := by
  obtain ⟨q, hall, hq⟩ := h.queue
  obtain ⟨hq', hsplit⟩ := hq.pipewrite (s.killed p) n rest
  have hbytes : ∀ id', (s.runWrite p id n rest).bytesOf id' =
      if id' = id then s.bytesOf id ++ (s.buf.pipewrite (s.killed p) n rest).bytes
      else s.bytesOf id' := fun id' => bytesOf_append id id' _
  -- a process in a write afterwards is the one that ran, or was there before
  have hpc : ∀ q id' m rest' a, (s.runWrite p id n rest).pc q = .write id' m rest' a →
      (q = p ∧ id' = id ∧ rest' = (s.buf.pipewrite (s.killed p) n rest).rest) ∨
      (q ≠ p ∧ ∃ a', s.pc q = .write id' m rest' a') := by
    intro q id' m rest' a hq
    have hpc' : update (s.wakes (s.buf.pipewrite (s.killed p) n rest).wakes).pc p _ q =
      .write id' m rest' a := hq
    by_cases hqp : q = p
    · rw [hqp, update_self] at hpc'
      split at hpc'
      · cases hpc'
        exact .inl ⟨hqp, rfl, rfl⟩
      · cases hpc'
    · rw [update_of_ne hqp] at hpc'
      exact .inr ⟨hqp, pc_write_of_wakes hpc'⟩
  refine ⟨⟨q ++ (s.buf.pipewrite (s.killed p) n rest).bytes, ?_, hq'⟩, ?_, ?_, ?_, ?_⟩
  · show (s.stored ++ List.map (Prod.mk id) _).map Prod.snd = s.returned ++ _
    rw [map_append, hall, map_map, append_assoc]
    congr 2
    exact map_id _
  · intro id'
    rw [hbytes]
    by_cases hid' : id' = id
    · rw [if_pos hid', hid']
      show _ <+: s.src id
      refine ⟨(s.buf.pipewrite (s.killed p) n rest).rest, ?_⟩
      rw [append_assoc, hsplit, hrest]
    · rw [if_neg hid']
      exact h.order id'
  · intro q' id' m rest' a hq'
    rw [hbytes]
    rcases hpc q' id' m rest' a hq' with ⟨-, rfl, rfl⟩ | ⟨hne, a', ha'⟩
    · refine ⟨hid, ?_⟩
      rw [if_pos rfl, append_assoc, hsplit]
      exact hrest
    · have hid' : id' ≠ id := fun heq => hne (hown q' m rest' a' (heq ▸ ha'))
      rw [if_neg hid']
      exact h.rest q' id' m rest' a' ha'
  · intro q1 q2 id' m m' r r' a a' h1 h2
    rcases hpc q1 id' m r a h1 with ⟨rfl, rfl, -⟩ | ⟨hne1, b1, hb1⟩
    · rcases hpc q2 id' m' r' a' h2 with ⟨rfl, -, -⟩ | ⟨hne2, b2, hb2⟩
      · rfl
      · exact absurd (hown q2 m' r' b2 hb2) hne2
    · rcases hpc q2 id' m' r' a' h2 with ⟨rfl, rfl, -⟩ | ⟨hne2, b2, hb2⟩
      · exact absurd (hown q1 m r b1 hb1) hne1
      · exact h.uniq q1 q2 id' m m' r r' b1 b2 hb1 hb2
  · intro x hx
    rcases mem_append.mp hx with hold | hnew
    · exact h.known x hold
    · obtain ⟨c, -, rfl⟩ := mem_map.mp hnew
      exact hid

theorem inv_call (h : s.Inv) (src : List UInt8) :
    (s.call src).Inv ∧ (s.call src).bytesOf s.calls ++ src = (s.call src).src s.calls := by
  have hnone : s.bytesOf s.calls = [] := by
    rw [bytesOf, filter_eq_nil_iff.mpr, map_nil]
    intro x hx
    have hlt := h.known x hx
    rw [decide_eq_true_eq]
    omega
  have hother : ∀ id, id < s.calls → (s.call src).src id = s.src id := fun id hlt =>
    update_of_ne (by omega) _ _
  have hself : (s.call src).src s.calls = src := update_self _ _ _
  have hbytes : ∀ id, (s.call src).bytesOf id = s.bytesOf id := fun _ => rfl
  refine ⟨⟨h.queue, fun id => ?_, fun p id n rest a hp => ?_, h.uniq, fun x hx => ?_⟩, ?_⟩
  · by_cases hid : id = s.calls
    · rw [hid, hbytes, hnone]
      exact nil_prefix
    · rw [show (s.call src).src id = s.src id from update_of_ne hid _ _]
      exact h.order id
  · obtain ⟨hlt, hsrc⟩ := h.rest p id n rest a hp
    refine ⟨Nat.lt_succ_of_lt hlt, ?_⟩
    rw [hother id hlt]
    exact hsrc
  · exact Nat.lt_succ_of_lt (h.known x hx)
  · rw [hbytes, hnone, hself]
    rfl

theorem inv_pipeclose (h : s.Inv) (writable : Bool) : (s.pipeclose writable).Inv := by
  refine h.of_calls rfl rfl rfl ?_ ?_
  · intro q id n rest a hq
    exact pc_write_of_wakes (w := some _) hq
  · obtain ⟨q, hall, hq⟩ := h.queue
    refine ⟨q, hall, ?_⟩
    cases writable
    · exact ⟨hq.nread, hq.nwrite, hq.holds⟩
    · exact ⟨hq.nread, hq.nwrite, hq.holds⟩

theorem inv_kill (h : s.Inv) (p : ι) : (s.kill p).Inv := by
  refine h.of_calls rfl rfl rfl ?_ h.queue
  intro q id n rest a hq
  have hq' : update s.pc p (s.pc p).awake q = .write id n rest a := hq
  by_cases hqp : q = p
  · subst hqp
    rw [update_self] at hq'
    cases hpc : s.pc q with
    | user => rw [hpc] at hq'; cases hq'
    | read m b => rw [hpc] at hq'; cases hq'
    | write id' n' rest' b =>
      rw [hpc] at hq'
      cases hq'
      exact ⟨b, rfl⟩
  · rw [update_of_ne hqp] at hq'
    exact ⟨a, hq'⟩

theorem inv_step {a : PipeAct ι} (h : s.Inv) (hs : s.step a = some s') : s'.Inv := by
  cases does_of_step hs with
  | begin p n src hp =>
    obtain ⟨hcall, hsrc⟩ := inv_call h src
    refine inv_runWrite hcall (Nat.lt_succ_self _) hsrc fun q n' rest' a hq => ?_
    -- nobody is in the new call yet
    have hlt := (h.rest q s.calls n' rest' a hq).1
    omega
  | write p id n rest hp =>
    obtain ⟨hid, hrest⟩ := h.rest p id n rest false hp
    exact inv_runWrite h hid hrest fun q n' rest' a hq =>
      h.uniq q p id n' n rest' rest a false hq hp
  | read p n hp => exact inv_runRead h p n
  | close writable => exact inv_pipeclose h writable
  | kill p => exact inv_kill h p

/-- What readers and writers see of a pipe. -/
structure Fifo (s : PipeSys ι) : Prop where
  returned : s.returned <+: s.stored.map Prod.snd
  order : ∀ id, s.bytesOf id <+: s.src id
  unread : s.stored.length ≤ s.returned.length + PIPESIZE
  counters : s.buf.nread = UInt32.ofNat s.returned.length ∧
    s.buf.nwrite = UInt32.ofNat s.stored.length
  eof : ∀ killed n, 0 < n → (s.buf.piperead killed n).ends = .ret 0 →
    s.returned = s.stored.map Prod.snd ∧ s.buf.writeopen = false

theorem Inv.fifo (h : s.Inv) : s.Fifo := by
  obtain ⟨q, hall, hq⟩ := h.queue
  have hlen : s.stored.length = s.returned.length + q.length := by
    rw [← length_map (f := Prod.snd), hall, length_append]
  refine ⟨⟨q, hall.symm⟩, h.order, ?_, ⟨hq.nread, ?_⟩, fun killed n hn hret => ?_⟩
  · have hshort := hq.holds.short
    omega
  · rw [hlen]
    exact hq.nwrite
  · obtain ⟨hnil, hclosed⟩ := hq.eof hn hret
    refine ⟨?_, hclosed⟩
    rw [hall, hnil, append_nil]

/-- **Pipes are FIFO.**  In every state that any readers and writers of a pipe reach, the bytes
    returned by reads are a front part of the bytes stored; each `pipewrite` has stored a front part
    of its bytes, in their order; at most `PIPESIZE` bytes are unread; the counters are the numbers
    of bytes modulo `2 ^ 32`; and a `piperead` of something would return 0 only if all stored bytes
    are read and the write end is closed. -/
theorem fifo_along (data : Fin PIPESIZE → UInt8) (as : List (PipeAct ι)) :
    Along step Fifo (init data : PipeSys ι) as :=
  (along_of_invariant (inv_init data) (fun _ _ _ h hs => inv_step h hs) as).mono
    fun _ h => h.fifo

end PipeSys

end Xv6
