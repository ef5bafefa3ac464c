/-
  Xv6.Dev.Console

  Typing and reading at the console (console.c).

  `Input` is the ring with its three counters: `consoleintr` edits between `w`
  and `e`, `consoleread` reads between `r` and `w`.  `Tty` is the line
  discipline the console is meant to have, on lists.  Both are drivers of the
  same system of processes, which keeps what reads have delivered and returned,
  so two drivers can be compared by it.
-/

import Xv6.Lib.Ring
import Xv6.Lib.Transition

namespace Xv6

abbrev INPUT_BUF : ℕ := 128

namespace Key

/-- `C('D')` -/
abbrev eot : UInt8 := 0x04
/-- `C('H')` -/
abbrev backspace : UInt8 := 0x08
/-- `'\n'` -/
abbrev newline : UInt8 := 0x0a
/-- `'\r'` -/
abbrev ret : UInt8 := 0x0d
/-- `C('P')` -/
abbrev procdump : UInt8 := 0x10
/-- `C('U')` -/
abbrev kill : UInt8 := 0x15
/-- `'\x7f'` -/
abbrev delete : UInt8 := 0x7f

end Key

/-- What a lock section of a read did: the bytes copied, how many are still
    wanted, and whether the read returned (or fell asleep). -/
structure ReadSection (D : Type) where
  dev : D
  bytes : List UInt8
  left : ℕ
  done : Bool

structure Driver (D : Type) where
  key : UInt8 → D → D × Bool
  read : ℕ → ℕ → D → ReadSection D

/-! ## The ring -/

structure Input where
  buf : Fin INPUT_BUF → UInt8
  r : UInt32
  w : UInt32
  e : UInt32

namespace Input

def boot : Input := ⟨fun _ => 0, 0, 0, 0⟩

def get (s : Input) (i : UInt32) : UInt8 := s.buf (Ring.cell INPUT_BUF i.toNat)

def killLine : ℕ → Input → Input
  | 0, s => s
  | fuel + 1, s =>
    if s.e ≠ s.w ∧ s.get (s.e - 1) ≠ Key.newline then
      killLine fuel { s with e := s.e - 1 }
    else s

/-- The `default` case: the character is stored if there is room, and the line
    is handed over at a newline, at `^D` and when the ring is full. -/
def store (c : UInt8) (s : Input) : Input × Bool :=
  if c ≠ 0 ∧ s.e - s.r < UInt32.ofNat INPUT_BUF then
    let c := if c = Key.ret then Key.newline else c
    let s := { s with
      buf := Function.update s.buf (Ring.cell INPUT_BUF s.e.toNat) c
      e := s.e + 1 }
    if c = Key.newline ∨ c = Key.eot ∨ s.e = s.r + UInt32.ofNat INPUT_BUF then
      ({ s with w := s.e }, true)
    else (s, false)
  else (s, false)

/-- One character of `consoleintr`. -/
def key (c : UInt8) (s : Input) : Input × Bool :=
  if c = Key.procdump then (s, false)
  else if c = Key.kill then (killLine (s.e - s.w).toNat s, false)
  else if c = Key.backspace ∨ c = Key.delete then
    (if s.e ≠ s.w then { s with e := s.e - 1 } else s, false)
  else s.store c

def read (target : ℕ) : ℕ → Input → ReadSection Input
  | 0, s => ⟨s, [], 0, true⟩
  | n + 1, s =>
    if s.r = s.w then ⟨s, [], n + 1, false⟩
    else
      let c := s.get s.r
      let s := { s with r := s.r + 1 }
      if c = Key.eot then
        -- `^D` is put back if there is data to return first
        if n + 1 < target then ⟨{ s with r := s.r - 1 }, [], n + 1, true⟩
        else ⟨s, [], n + 1, true⟩
      else if c = Key.newline then ⟨s, [c], n, true⟩
      else
        let t := read target n s
        { t with bytes := c :: t.bytes }

def driver : Driver Input := ⟨key, read⟩

end Input

/-! ## The line discipline -/

/-- The reference: bytes ready to be read, the line being typed, and (for the
    statements) all bytes handed over and all bytes taken by reads. -/
structure Tty where
  ready : List UInt8
  line : List UInt8
  committed : List UInt8
  taken : List UInt8
deriving DecidableEq

namespace Tty

def boot : Tty := ⟨[], [], [], []⟩

/-- The line is handed over to the readers. -/
def commit (t : Tty) : Tty :=
  { t with ready := t.ready ++ t.line, line := [], committed := t.committed ++ t.line }

/-- Editing keys change the line only.  Other characters go to its end if the
    unread bytes and the line leave room. -/
def key (c : UInt8) (t : Tty) : Tty × Bool :=
  if c = Key.procdump then (t, false)
  else if c = Key.kill then ({ t with line := [] }, false)
  else if c = Key.backspace ∨ c = Key.delete then ({ t with line := t.line.dropLast }, false)
  else if c ≠ 0 ∧ t.ready.length + t.line.length < INPUT_BUF then
    let c := if c = Key.ret then Key.newline else c
    let t := { t with line := t.line ++ [c] }
    if c = Key.newline ∨ c = Key.eot ∨ t.ready.length + t.line.length = INPUT_BUF then
      (t.commit, true)
    else (t, false)
  else (t, false)

def take (c : UInt8) (q : List UInt8) (t : Tty) : Tty :=
  { t with ready := q, taken := t.taken ++ [c] }

/-- A read takes bytes up to the number it wants, a newline or a `^D`.  It
    leaves the `^D` for the next read if it has data. -/
def read (target : ℕ) : ℕ → Tty → ReadSection Tty
  | 0, t => ⟨t, [], 0, true⟩
  | n + 1, t =>
    match t.ready with
    | [] => ⟨t, [], n + 1, false⟩
    | c :: q =>
      if c = Key.eot then
        if n + 1 < target then ⟨t, [], n + 1, true⟩ else ⟨t.take c q, [], n + 1, true⟩
      else if c = Key.newline then ⟨t.take c q, [c], n, true⟩
      else
        let r := read target n (t.take c q)
        { r with bytes := c :: r.bytes }

def driver : Driver Tty := ⟨key, read⟩

end Tty

/-! ## Processes -/

/-- A process is outside `consoleread(dst, n)` or inside it, asleep or woken,
    with `left` bytes wanted and the bytes `got` in `dst`. -/
inductive ConsPc
  | user
  | reading (n : ℤ) (left : ℕ) (got : List UInt8) (asleep : Bool)
deriving DecidableEq

structure ConsRead (ι : Type) where
  p : ι
  n : ℤ
  ret : ℤ
  bytes : List UInt8
deriving DecidableEq

/-- A console and the processes `ι` that read from it; the bytes delivered so
    far, in their order, and the reads that are over. -/
structure ConsSys (ι D : Type) where
  dev : D
  pc : ι → ConsPc
  delivered : List UInt8
  reads : List (ConsRead ι)

inductive ConsAct (ι : Type)
  /-- An interrupt delivers characters. -/
  | intr (cs : List UInt8)
  | read (p : ι) (n : ℤ)
  | resume (p : ι)
deriving DecidableEq

namespace ConsSys

variable {ι D : Type} [DecidableEq ι]

def init (dev : D) : ConsSys ι D := ⟨dev, fun _ => .user, [], []⟩

def wakeup (pc : ι → ConsPc) (p : ι) : ConsPc :=
  match pc p with
  | .user => .user
  | .reading n left got _ => .reading n left got false

def keys (dr : Driver D) (cs : List UInt8) (d : D) : D × Bool :=
  cs.foldl (fun x c => ((dr.key c x.1).1, x.2 || (dr.key c x.1).2)) (d, false)

def consoleintr (dr : Driver D) (cs : List UInt8) (s : ConsSys ι D) : ConsSys ι D :=
  let r := keys dr cs s.dev
  { s with dev := r.1, pc := if r.2 then wakeup s.pc else s.pc }

/-- A lock section of a read.  `target - n` is what was wanted less what is
    left; for `n ≤ 0` the loop is not entered and it is 0. -/
def consoleread (dr : Driver D) (p : ι) (n : ℤ) (left : ℕ) (got : List UInt8)
    (s : ConsSys ι D) : ConsSys ι D :=
  let r := dr.read n.toNat left s.dev
  { dev := r.dev
    pc := Function.update s.pc p
      (if r.done then .user else .reading n r.left (got ++ r.bytes) true)
    delivered := s.delivered ++ r.bytes
    reads := if r.done then s.reads ++ [⟨p, n, n.toNat - r.left, got ++ r.bytes⟩] else s.reads }

def step (dr : Driver D) (s : ConsSys ι D) : ConsAct ι → Option (ConsSys ι D)
  | .intr cs => some (s.consoleintr dr cs)
  | .read p n =>
    match s.pc p with
    | .user => some (s.consoleread dr p n n.toNat [])
    | _ => none
  | .resume p =>
    match s.pc p with
    | .reading n left got false => some (s.consoleread dr p n left got)
    | _ => none

end ConsSys

end Xv6
