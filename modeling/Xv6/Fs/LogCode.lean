/-
  Xv6.Fs.LogCode

  What `commit()` and `recover_from_log()` do to blocks, as straight-line
  code, and why a crash between any two disk writes does no harm.

  `Instr` is one statement, with buffers named by their blocks, and `View` what
  these statements read and write.
  The commit happens at the first `write_head`: it turns `old` into `new`.
-/

import Xv6.Fs.Format
import Xv6.Lib.CrashSafe

namespace Xv6

open Function List CrashSafe Bool Stage

/-! ## The code -/

inductive Instr where
  | bread (n : Nat)
  | memmove (dst src : Nat)
  /-- The assignments to `hb` in `write_head`. -/
  | putHead (n : Nat)
  /-- The assignments to `log.lh` in `read_head`. -/
  | getHead (n : Nat)
  /-- `log.start = sb.logstart`. -/
  | getSb (n : Nat)
  | bwrite (n : Nat) (commits : Bool)
  | brelse (n : Nat)
  | clear
deriving DecidableEq

def writeLog (start : Nat) (lh : List Nat) (tail : Nat) : List Instr :=
  let lbuf := start + tail + 1
  let cbuf := lh.getD tail 0
  [.bread lbuf, .bread cbuf, .memmove lbuf cbuf, .bwrite lbuf false, .brelse cbuf, .brelse lbuf]

def writeHead (start : Nat) (commits : Bool) : List Instr :=
  [.bread start, .putHead start, .bwrite start commits, .brelse start]

def installTrans (start : Nat) (lh : List Nat) (tail : Nat) : List Instr :=
  let lbuf := start + tail + 1
  let dbuf := lh.getD tail 0
  [.bread lbuf, .bread dbuf, .memmove dbuf lbuf, .bwrite dbuf false, .brelse lbuf, .brelse dbuf]

def readHead (start : Nat) : List Instr := [.bread start, .getHead start, .brelse start]

def readsb : List Instr := [.bread 1, .getSb 1, .brelse 1]

def Stage.code (start : Nat) (lh : List Nat) : Stage → List Instr
  | .writeLog tail => Xv6.writeLog start lh tail
  | .writeHead => Xv6.writeHead start true
  | .install tail => installTrans start lh tail
  | .erase => Xv6.writeHead start false
  | .test | .clear | .done => []

/-! ## What the code does -/

structure View where
  start : Nat
  lh : List Nat
  map : Nat → Block
  disk : Nat → Block
  /-- The contents that a crash now has to preserve. -/
  old : Nat → Block
  new : Nat → Block

variable {v : View} {L : List Nat} {t : Nat}

namespace View

def exec : Instr → View → View
  | .memmove dst src, v => { v with map := update v.map dst (v.map src) }
  | .putHead n, v => { v with map := update v.map n (Xv6.putHead (v.map n) v.lh) }
  | .getHead n, v => { v with lh := Xv6.getHead (v.map n) }
  | .bwrite n commits, v =>
    { v with disk := update v.disk n (v.map n), old := if commits then v.new else v.old }
  | .getSb n, v => { v with start := (sbLog (v.map n)).2 }
  | .clear, v => { v with lh := [] }
  | .bread _, v | .brelse _, v => v

end View

def Outside (start n : Nat) : Prop := n < start ∨ start + nlog ≤ n

instance (start n : Nat) : Decidable (Outside start n) := inferInstanceAs (Decidable (_ ∨ _))

/-- The superblock puts the log at `start`. -/
def SbAt (start : Nat) (b : Block) : Prop := sbLog b = (nlog, start)

instance (start : Nat) (b : Block) : Decidable (SbAt start b) :=
  inferInstanceAs (Decidable (_ = _))

section

variable {start : Nat}

theorem Outside.ne_start {n : Nat} (h : Outside start n) : n ≠ start := by
  unfold Outside at h
  simp only [nlog, LOGSIZE, MAXOPBLOCKS] at h
  omega

theorem Outside.ne_log {n i : Nat} (h : Outside start n) (hi : i + 1 < nlog) :
    n ≠ start + i + 1 := by
  unfold Outside at h
  omega

/-! ## What a recovery needs -/

/-- The header on disk lists `L`, the log holds the new contents of these
    blocks, and all other blocks are in place. -/
structure Logs (start : Nat) (disk old : Nat → Block) (L : List Nat) : Prop where
  head : getHead (disk start) = L
  length : L.length < nlog
  outside : ∀ n ∈ L, Outside start n
  copies : ∀ i, i < L.length → disk (start + i + 1) = old (L.getD i 0)
  home : ∀ n, Outside start n → n ∉ L → disk n = old n

structure Recoverable (start : Nat) (disk old : Nat → Block) : Prop where
  logs : ∃ L, Logs start disk old L
  sb : SbAt start (disk 1)
  sbOld : SbAt start (old 1)

def View.Recoverable (start : Nat) (v : View) : Prop :=
  v.start = start ∧ Xv6.Recoverable start v.disk v.old

structure Settled (start : Nat) (v : View) : Prop where
  placed : v.start = start
  lh : v.lh = []
  head : getHead (v.disk start) = []
  disk : ∀ n, Outside start n → v.disk n = v.old n
  map : ∀ n, Outside start n → v.map n = v.old n
  new : ∀ n, Outside start n → v.new n = v.old n
  sb : SbAt start (v.old 1)

theorem recoverable_of_empty {disk old : Nat → Block} (hone : Outside start 1)
    (hhead : getHead (disk start) = []) (hhome : ∀ n, Outside start n → disk n = old n)
    (hsb : SbAt start (old 1)) : Recoverable start disk old where
  logs := ⟨[], hhead, by decide, fun n hn => (by cases hn), fun i hi => (by cases hi),
    fun n hn _ => hhome n hn⟩
  sb := by
    rw [hhome 1 hone]
    exact hsb
  sbOld := hsb

theorem Settled.recoverable (h : Settled start v) (hone : Outside start 1) : v.Recoverable start :=
  ⟨h.placed, recoverable_of_empty hone h.head h.disk h.sb⟩

/-! ## Installing -/

/-- `install_trans` before round `t`. -/
structure Installing (start t : Nat) (L : List Nat) (v : View) : Prop where
  placed : v.start = start
  lh : v.lh = L
  head : getHead (v.disk start) = L
  length : L.length < nlog
  outside : ∀ n ∈ L, Outside start n
  copies : ∀ i, i < L.length →
    v.disk (start + i + 1) = v.old (L.getD i 0) ∧ v.map (start + i + 1) = v.old (L.getD i 0)
  home : ∀ n, Outside start n → n ∉ L.drop t → v.disk n = v.old n ∧ v.map n = v.old n
  new : ∀ n, Outside start n → v.new n = v.old n
  sb : SbAt start (v.disk 1)
  sbOld : SbAt start (v.old 1)

theorem Installing.recoverable (h : Installing start t L v) : v.Recoverable start := by
  refine ⟨h.placed, ⟨L, h.head, h.length, h.outside, fun i hi => (h.copies i hi).1, ?_⟩,
    h.sb, h.sbOld⟩
  exact fun n hn hL => (h.home n hn fun hd => hL (mem_of_mem_drop hd)).1

theorem getD_mem (ht : t < L.length) : L.getD t 0 ∈ L := by
  rw [getD_eq_getElem L 0 ht]
  exact getElem_mem ht

theorem safe_installTrans (ht : t < L.length) (h : Installing start t L v) :
    Safe View.exec (View.Recoverable start) (Installing start (t + 1) L) (installTrans start L t)
    v := by
  have hout : Outside start (L.getD t 0) := h.outside _ (getD_mem ht)
  have hlog : ∀ i, i < L.length → start + i + 1 ≠ L.getD t 0 := fun i hi =>
    (hout.ne_log (by have := h.length; omega)).symm
  -- what the round leaves: the home block holds the logged contents, in cache and on disk
  have hdone : Installing start (t + 1) L (View.exec (.bwrite (L.getD t 0) false)
      (View.exec (.memmove (L.getD t 0) (start + t + 1)) v)) := by
    have hval : v.map (start + t + 1) = v.old (L.getD t 0) := (h.copies t ht).2
    refine ⟨h.placed, h.lh, ?_, h.length, h.outside, ?_, ?_, h.new, ?_, h.sbOld⟩
    · simp only [View.exec, update_of_ne hout.ne_start.symm]
      exact h.head
    · intro i hi
      simp only [View.exec, update_of_ne (hlog i hi), false_eq_true, if_false]
      exact h.copies i hi
    · intro n hn hmem
      by_cases heq : n = L.getD t 0
      · subst heq
        simp only [View.exec, update_self, false_eq_true, if_false]
        exact ⟨hval, hval⟩
      · simp only [View.exec, update_of_ne heq, false_eq_true, if_false]
        refine h.home n hn fun hd => ?_
        rw [drop_eq_getElem_cons ht, ← getD_eq_getElem L 0 ht] at hd
        rcases mem_cons.mp hd with hd | hd
        · exact heq hd
        · exact hmem hd
    · by_cases heq : 1 = L.getD t 0
      · have hval' : (View.exec (.bwrite (L.getD t 0) false)
            (View.exec (.memmove (L.getD t 0) (start + t + 1)) v)).disk (L.getD t 0)
            = v.old (L.getD t 0) := by
          simp only [View.exec, update_self]
          exact hval
        rw [← heq] at hval'
        rw [← heq, hval']
        exact h.sbOld
      · simp only [View.exec, update_of_ne heq]
        exact h.sb
  have hrec : v.Recoverable start := h.recoverable
  have hrec' := hdone.recoverable
  exact ⟨hrec, hrec, hrec, hrec, hrec', hrec', hrec', hdone⟩

theorem safe_erase (hrec : v.Recoverable start)
    (hlh : v.lh = []) (hone : Outside start 1) (hdisk : ∀ n, Outside start n → v.disk n = v.old n)
    (hmap : ∀ n, Outside start n → v.map n = v.old n)
    (hnew : ∀ n, Outside start n → v.new n = v.old n) : Safe View.exec (View.Recoverable start)
    (Settled start) (writeHead start false) v := by
  have hdone : Settled start (View.exec (.bwrite start false) (View.exec (.putHead start) v)) := by
    refine ⟨hrec.1, hlh, ?_, ?_, ?_, hnew, hrec.2.sbOld⟩
    · simp only [View.exec, update_self, hlh]
      exact getHead_putHead _ (by simp) (by simp)
    · intro n hn
      simp only [View.exec, update_of_ne hn.ne_start, false_eq_true, if_false]
      exact hdisk n hn
    · intro n hn
      simp only [View.exec, update_of_ne hn.ne_start, false_eq_true, if_false]
      exact hmap n hn
  have hrec' := hdone.recoverable hone
  exact ⟨hrec, hrec, hrec, hrec', hrec', hdone⟩

def installFrom (start : Nat) (lh : List Nat) (t : Nat) : List Instr :=
  (range' t (lh.length - t)).flatMap (installTrans start lh)
    ++ (.clear :: writeHead start false)

theorem safe_installFrom (ht : t ≤ L.length) (hone : Outside start 1) (h : Installing start t L v) :
    Safe View.exec (View.Recoverable start) (Settled start) (installFrom start L t) v := by
  unfold installFrom
  have hloop : Safe View.exec (View.Recoverable start) (Installing start L.length L)
      ((range' t (L.length - t)).flatMap (installTrans start L)) v :=
    Safe.loop (I := fun s => Installing start s L) (fun w hw => hw.recoverable)
      (fun s w hs hw => safe_installTrans hs hw) ht h
  refine (hloop.mono fun w hw => ?_).append
  have hnone : ∀ n, n ∉ L.drop L.length := fun n => by simp
  refine ⟨hw.recoverable, safe_erase (v := View.exec .clear w) hw.recoverable rfl hone ?_ ?_ hw.new⟩
  · exact fun n hn => (hw.home n hn (hnone n)).1
  · exact fun n hn => (hw.home n hn (hnone n)).2

/-! ## Logging and committing -/

/-- `write_log` before round `t`. -/
structure Logging (start t : Nat) (v : View) : Prop where
  placed : v.start = start
  head : getHead (v.disk start) = []
  length : v.lh.length < nlog
  outside : ∀ n ∈ v.lh, Outside start n ∧ n < 2 ^ 32
  copied : ∀ i, i < t → i < v.lh.length →
    v.disk (start + i + 1) = v.new (v.lh.getD i 0) ∧ v.map (start + i + 1) = v.new (v.lh.getD i 0)
  home : ∀ n, Outside start n → v.disk n = v.old n
  map : ∀ n, Outside start n → v.map n = v.new n
  /-- Only blocks in the header change. -/
  same : ∀ n, Outside start n → n ∉ v.lh → v.new n = v.old n
  sbOld : SbAt start (v.old 1)
  sbNew : SbAt start (v.new 1)

theorem Logging.recoverable (h : Logging start t v) (hone : Outside start 1) :
    v.Recoverable start :=
  ⟨h.placed, recoverable_of_empty hone h.head h.home h.sbOld⟩

theorem safe_writeLog (hL : v.lh = L) (ht : t < L.length)
    (hone : Outside start 1) (h : Logging start t v) : Safe View.exec (View.Recoverable start)
    (fun w => w.lh = L ∧ Logging start (t + 1) w) (writeLog start L t) v := by
  subst hL
  have htlog : t + 1 < nlog := by have := h.length; omega
  have hout : Outside start (v.lh.getD t 0) := (h.outside _ (getD_mem ht)).1
  have hdone : Logging start (t + 1) (View.exec (.bwrite (start + t + 1) false)
      (View.exec (.memmove (start + t + 1) (v.lh.getD t 0)) v)) := by
    refine ⟨h.placed, ?_, h.length, h.outside, ?_, ?_, ?_, h.same, h.sbOld, h.sbNew⟩
    · have hne : start ≠ start + t + 1 := by omega
      simp only [View.exec, update_of_ne hne]
      exact h.head
    · intro i hi hlen
      by_cases heq : i = t
      · subst heq
        simp only [View.exec, update_self]
        exact ⟨h.map _ hout, h.map _ hout⟩
      · have hne : start + i + 1 ≠ start + t + 1 := by omega
        simp only [View.exec, update_of_ne hne]
        exact h.copied i (by omega) hlen
    · intro n hn
      simp only [View.exec, update_of_ne (hn.ne_log htlog), false_eq_true, if_false]
      exact h.home n hn
    · intro n hn
      simp only [View.exec, update_of_ne (hn.ne_log htlog)]
      exact h.map n hn
  have hrec : v.Recoverable start := h.recoverable hone
  have hrec' := hdone.recoverable hone
  exact ⟨hrec, hrec, hrec, hrec, hrec', hrec', hrec', rfl, hdone⟩

theorem safe_writeHead (hL : v.lh = L) (hone : Outside start 1) (h : Logging start L.length v) :
    Safe View.exec (View.Recoverable start) (Installing start 0 L) (writeHead start true) v := by
  subst hL
  have hdone : Installing start 0 v.lh
      (View.exec (.bwrite start true) (View.exec (.putHead start) v)) := by
    refine ⟨h.placed, rfl, ?_, h.length, fun n hn => (h.outside n hn).1, ?_, ?_, fun _ _ => rfl,
      ?_, h.sbNew⟩
    · simp only [View.exec, update_self]
      have hlen := h.length
      exact getHead_putHead _ (by simp only [nlog] at hlen; omega) fun n hn => (h.outside n hn).2
    · intro i hi
      have hne : start + i + 1 ≠ start := by omega
      simp only [View.exec, update_of_ne hne, if_true]
      exact h.copied i hi hi
    · intro n hn hmem
      simp only [View.exec, update_of_ne hn.ne_start, if_true]
      rw [h.home n hn, h.map n hn, h.same n hn hmem]
      exact ⟨rfl, rfl⟩
    · simp only [View.exec, update_of_ne hone.ne_start]
      rw [h.home 1 hone]
      exact h.sbOld
  have hrec : v.Recoverable start := h.recoverable hone
  have hrec' := hdone.recoverable
  exact ⟨hrec, hrec, hrec, hrec', hrec', hdone⟩

/-- What is left of `commit()` when a stage is over. -/
def Stage.rest (start : Nat) (lh : List Nat) : Stage → List Instr
  | .test =>
    if 0 < lh.length then
      (range' 0 lh.length).flatMap (Xv6.writeLog start lh)
        ++ (Xv6.writeHead start true ++ installFrom start lh 0)
    else []
  | .writeLog tail =>
    (range' (tail + 1) (lh.length - (tail + 1))).flatMap (Xv6.writeLog start lh)
      ++ (Xv6.writeHead start true ++ installFrom start lh 0)
  | .writeHead => installFrom start lh 0
  | .install tail => installFrom start lh (tail + 1)
  | .clear => .clear :: Xv6.writeHead start false
  | .erase | .done => []

/-- **`commit()` may be cut off anywhere.** -/
theorem safe_commit (hone : Outside start 1) (h : Logging start 0 v) :
    Safe View.exec (View.Recoverable start) (Settled start) (rest start v.lh .test) v := by
  simp only [rest]
  split
  · have hloop : Safe View.exec (View.Recoverable start)
        (fun w => w.lh = v.lh ∧ Logging start v.lh.length w)
        ((range' 0 (v.lh.length - 0)).flatMap (Xv6.writeLog start v.lh)) v :=
      Safe.loop (I := fun t w => w.lh = v.lh ∧ Logging start t w)
        (fun w hw => hw.2.recoverable hone)
        (fun t w ht hw => safe_writeLog hw.1 ht hone hw.2) (Nat.zero_le _) ⟨rfl, h⟩
    refine (hloop.mono fun w hw => ?_).append
    refine ((safe_writeHead hw.1 hone hw.2).mono fun x hx => ?_).append
    exact safe_installFrom (Nat.zero_le _) hone hx
  · rename_i hn
    have hlh : v.lh = [] := length_eq_zero_iff.mp (by omega)
    have hnew : ∀ n, Outside start n → v.new n = v.old n := fun n hn =>
      h.same n hn (by rw [hlh]; exact not_mem_nil)
    refine ⟨h.recoverable hone, h.placed, hlh, h.head, h.home, ?_, hnew, h.sbOld⟩
    intro n hn
    rw [h.map n hn, hnew n hn]

/-! ## Recovering -/

/-- After a crash, before anything was written. -/
structure Fresh (start : Nat) (v : View) : Prop where
  recoverable : Recoverable start v.disk v.old
  map : v.map = v.disk
  new : v.new = v.old

theorem safe_readsb (h : Fresh start v) :
    Safe View.exec (Fresh start) (fun w => w.start = start) readsb v := by
  have hsb : sbLog (v.disk 1) = (nlog, start) := h.recoverable.sb
  have hstart : (sbLog (v.map 1)).2 = start := by
    rw [h.map, hsb]
  have h' : Fresh start (View.exec (.getSb 1) v) := ⟨h.recoverable, h.map, h.new⟩
  exact ⟨h, h, h', h', hstart⟩

theorem safe_readHead (hv : v.start = start) (h : Fresh start v) :
    Safe View.exec (fun w => w.start = start ∧ Fresh start w)
      (fun w => w.lh = getHead (w.disk start)) (readHead start) v := by
  have hread : ∀ L, L = getHead (v.disk start) →
      Safe View.exec (fun w => w.start = start ∧ Fresh start w)
        (fun w => w.lh = getHead (w.disk start)) [.brelse start] { v with lh := L } := by
    intro L hL
    have h' : Fresh start { v with lh := L } := ⟨h.recoverable, h.map, h.new⟩
    exact ⟨⟨hv, h'⟩, ⟨hv, h'⟩, hL⟩
  have hexec : View.exec (.getHead start) v = { v with lh := getHead (v.map start) } := by
    rw [View.exec]
  refine ⟨⟨hv, h⟩, ⟨hv, h⟩, ?_⟩
  rw [show View.exec (.bread start) v = v from rfl, hexec]
  exact hread _ (by rw [h.map])

/-- **A recovery may be cut off anywhere as well.** -/
theorem safe_recovery (hone : Outside start 1) (hv : v.start = start)
    (h : Fresh start v) (hlh : v.lh = getHead (v.disk start)) :
    Safe View.exec (View.Recoverable start) (Settled start) (installFrom start v.lh 0) v := by
  obtain ⟨L, hL⟩ := h.recoverable.logs
  have hlhL : v.lh = L := hlh.trans hL.head
  rw [hlhL]
  refine safe_installFrom (Nat.zero_le _) hone
    ⟨hv, hlhL, hL.head, hL.length, hL.outside, ?_, ?_, fun n _ => congrFun h.new n,
      h.recoverable.sb, h.recoverable.sbOld⟩
  · intro i hi
    rw [h.map]
    exact ⟨hL.copies i hi, hL.copies i hi⟩
  · intro n hn hmem
    rw [h.map]
    exact ⟨hL.home n hn hmem, hL.home n hn hmem⟩

theorem Stage.rest_next (start : Nat) (lh : List Nat) {st : Stage} (hc : st ≠ .clear) :
    rest start lh st = code start lh (st.next lh.length) ++ rest start lh (st.next lh.length) := by
  -- a loop that goes on has a first round, one that does not is empty
  have hround : ∀ (f : Nat → List Instr) (t : Nat), t < lh.length →
      (range' t (lh.length - t)).flatMap f
        = f t ++ (range' (t + 1) (lh.length - (t + 1))).flatMap f := by
    intro f t ht
    rw [show lh.length - t = lh.length - (t + 1) + 1 by omega, range'_succ, flatMap_cons]
  cases st with
  | test =>
    by_cases hn : 0 < lh.length
    · have hfirst := hround (Xv6.writeLog start lh) 0 hn
      simp only [rest, next, if_pos hn, code]
      rw [show lh.length - 0 = lh.length from rfl] at hfirst
      rw [hfirst, append_assoc]
    · simp only [rest, next, if_neg hn, code, append_nil]
  | writeLog t =>
    by_cases hn : t + 1 < lh.length
    · simp only [rest, next, if_pos hn, code, hround _ _ hn, append_assoc]
    · have hzero : lh.length - (t + 1) = 0 := by omega
      simp only [rest, next, if_neg hn, code, hzero, range'_zero, flatMap_nil, nil_append]
  | writeHead =>
    by_cases hn : 0 < lh.length
    · simp only [rest, next, if_pos hn, code, installFrom, hround _ _ hn, append_assoc]
    · have hzero : lh.length - 0 = 0 := by omega
      simp only [rest, next, if_neg hn, code, installFrom, hzero,
        range'_zero, flatMap_nil, nil_append]
  | install t =>
    by_cases hn : t + 1 < lh.length
    · simp only [rest, next, if_pos hn, code, installFrom, hround _ _ hn, append_assoc]
    · have hzero : lh.length - (t + 1) = 0 := by omega
      simp only [rest, next, if_neg hn, code, installFrom, hzero,
        range'_zero, flatMap_nil, nil_append]
  | clear => exact absurd rfl hc
  | erase => rfl
  | done => rfl

end
end Xv6
