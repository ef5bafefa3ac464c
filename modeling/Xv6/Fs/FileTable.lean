/-
  Xv6.Fs.FileTable

  The table of open files and the descriptors that refer to it.
-/

import Xv6.Fs.SysFile

namespace Xv6

open Function Wp Counting

variable {Q : Unit → Files → Prop} {h : File → File} {n : Int}

/-! ## Who refers to what -/

def File.holds (x : File) (j : ISlot) : Nat :=
  if 0 < x.ref ∧ x.type = .inode ∧ x.ip = j then 1 else 0

structure File.End (x : File) (page : Nat) (writable : Bool) : Prop where
  pos : 0 < x.ref
  type : x.type = .pipe
  pipe : x.pipe = page
  writable : x.writable = writable

def Task.holds (t : Task) (j : ISlot) : Nat := if t.cwd = some j then 1 else 0

def Task.fds (t : Task) (f : FSlot) : Nat := total (fun g => if g = some f then 1 else 0) t.ofile

def Pipe.isOpen (q : Pipe) (writable : Bool) : Bool := if writable then q.writeopen else q.readopen

namespace Files

variable {s s' : Files} {f g : FSlot} {p : PSlot} {fd : Fin NOFILE} {j : ISlot} {page : Nat}
  {e : FSlot → Int} {w : Bool} {v : Option FSlot}
variable {q : PSlot} {m : Int} {E : Halt → Files → Prop}

def held (s : Files) (j : ISlot) : Nat :=
  total (fun x => x.holds j) s.file + total (fun t => t.holds j) s.proc

def fds (s : Files) (f : FSlot) : Nat := total (fun t => t.fds f) s.proc

def pipeOpen (s : Files) (page : Nat) (writable : Bool) : Bool :=
  (s.pipe page).any fun q => q.isOpen writable

@[simp] theorem setFile_self : (s.setFile f h).file f = h (s.file f) :=
  update_self ..

theorem setFile_of_ne (hg : g ≠ f) : (s.setFile f h).file g = s.file g :=
  update_of_ne hg ..

@[simp] theorem setProc_self {h : Task → Task} : (s.setProc p h).proc p = h (s.proc p) :=
  update_self ..

theorem setProc_of_ne {h : Task → Task} (hq : q ≠ p) :
    (s.setProc p h).proc q = s.proc q := update_of_ne hq ..

@[simp] theorem setFd_cwd (q : PSlot) : ((s.setFd p fd v).proc q).cwd = (s.proc q).cwd := by
  by_cases hq : q = p
  · rw [hq, setFd, setProc_self]
  · rw [setFd, setProc_of_ne hq]

@[simp] theorem setFd_self : ((s.setFd p fd v).proc p).ofile fd = v := by
  rw [setFd, setProc_self]
  exact update_self ..

theorem setFd_other {n : Fin NOFILE} (hn : n ≠ fd) :
    ((s.setFd p fd v).proc p).ofile n = (s.proc p).ofile n := by
  rw [setFd, setProc_self]
  exact update_of_ne hn ..

theorem setFd_of_ne (hq : q ≠ p) : (s.setFd p fd v).proc q = s.proc q :=
  setProc_of_ne hq

theorem held_setFile (h : File → File) :
    (s.setFile f h).held j + (s.file f).holds j = s.held j + (h (s.file f)).holds j := by
  have hsum := total_update (fun x : File => x.holds j) s.file f (h (s.file f))
  unfold held
  simp only [setFile] at *
  omega

theorem held_setFile_same (hsame : ∀ j, (h (s.file f)).holds j = (s.file f).holds j) :
    (s.setFile f h).held = s.held := by
  funext j
  have hsum := held_setFile (s := s) (f := f) (j := j) h
  have hj := hsame j
  omega

theorem held_setProc (h : Task → Task) :
    (s.setProc p h).held j + (s.proc p).holds j = s.held j + (h (s.proc p)).holds j := by
  have hsum := total_update (fun t : Task => t.holds j) s.proc p (h (s.proc p))
  unfold held
  simp only [setProc] at *
  omega

theorem held_setFd : (s.setFd p fd v).held = s.held := by
  funext j
  have hsum := held_setProc (s := s) (p := p) (j := j)
    fun t => { t with ofile := update t.ofile fd v }
  simp only [Task.holds] at hsum
  unfold setFd
  omega

theorem fds_setFd (p : PSlot) (fd : Fin NOFILE) (v : Option FSlot) (f : FSlot) :
    (s.setFd p fd v).fds f + (if (s.proc p).ofile fd = some f then 1 else 0)
      = s.fds f + (if v = some f then 1 else 0) := by
  have hproc := total_update (fun t : Task => t.fds f) s.proc p
    { s.proc p with ofile := update (s.proc p).ofile fd v }
  have hfd := total_update (fun g : Option FSlot => if g = some f then 1 else 0) (s.proc p).ofile fd v
  unfold fds setFd
  simp only [setProc, Task.fds] at *
  omega

theorem fds_pos (h : (s.proc p).ofile fd = some f) : 0 < s.fds f := by
  have hproc := le_total (fun t : Task => t.fds f) s.proc p
  have hfd := le_total (fun g : Option FSlot => if g = some f then 1 else 0) (s.proc p).ofile fd
  simp only [h, if_true] at hfd
  unfold fds
  simp only [Task.fds] at *
  omega

/-! ## The table -/

/-- References and descriptors agree, up to `e`. -/
structure Table (s : Files) (e : FSlot → Int) : Prop where
  refs : ∀ f, (s.file f).ref = s.fds f + e f
  closed : ∀ f, (s.file f).ref = 0 → (s.file f).type = .none
  ends : ∀ page w, s.pipeOpen page w = true ↔ ∃ f, (s.file f).End page w
  uniq : ∀ page w f g, (s.file f).End page w → (s.file g).End page w → f = g

def more (e : FSlot → Int) (f : FSlot) (n : Int) : FSlot → Int := update e f (e f + n)

@[simp] theorem more_self : more e f n f = e f + n := update_self ..

theorem more_of_ne (h : g ≠ f) : more e f n g = e g := update_of_ne h ..

@[simp] theorem more_zero : more e f 0 = e := by
  rw [more, Int.add_zero, update_eq_self]

theorem more_more : more (more e f n) f m = more e f (n + m) := by
  funext g
  by_cases h : g = f
  · rw [h, more_self, more_self, more_self]
    omega
  · rw [more_of_ne h, more_of_ne h, more_of_ne h]

theorem more_comm : more (more e f n) g m = more (more e g m) f n := by
  by_cases h : f = g
  · subst h
    rw [more_more, more_more, Int.add_comm]
  · funext k
    unfold more
    rw [update_of_ne (Ne.symm h), update_of_ne h, update_comm h]

theorem Table.setFile (ht : s.Table e) (href : (h (s.file f)).ref = (s.file f).ref + n)
    (hclosed : (h (s.file f)).ref = 0 → (h (s.file f)).type = .none)
    (hend : ∀ page w, (h (s.file f)).End page w ↔ (s.file f).End page w) :
    (s.setFile f h).Table (more e f n) := by
  have hends : ∀ g page w, ((s.setFile f h).file g).End page w ↔ (s.file g).End page w := by
    intro g page w
    by_cases hg : g = f
    · rw [hg, setFile_self]
      exact hend page w
    · rw [setFile_of_ne hg]
  refine ⟨fun g => ?_, fun g => ?_, fun page w => ?_, fun page w g g' hg hg' => ?_⟩
  · have hrefs := ht.refs g
    by_cases hg : g = f
    · subst hg
      rw [setFile_self, more_self, href, hrefs]
      show _ = (s.fds g : Int) + _
      omega
    · rw [setFile_of_ne hg, more_of_ne hg]
      exact hrefs
  · by_cases hg : g = f
    · rw [hg, setFile_self]
      exact hclosed
    · rw [setFile_of_ne hg]
      exact ht.closed g
  · rw [show (s.setFile f h).pipeOpen page w = s.pipeOpen page w from rfl, ht.ends]
    exact exists_congr fun g => (hends g page w).symm
  · exact ht.uniq page w g g' ((hends g page w).mp hg) ((hends g' page w).mp hg')

theorem Table.setFd (ht : s.Table e) (p : PSlot) (fd : Fin NOFILE) (v : Option FSlot) :
    (s.setFd p fd v).Table fun f =>
      e f + (if (s.proc p).ofile fd = some f then 1 else 0) - (if v = some f then 1 else 0) := by
  refine ⟨fun f => ?_, ht.closed, ht.ends, ht.uniq⟩
  have hrefs := ht.refs f
  have hfds := fds_setFd (s := s) p fd v f
  show (s.file f).ref = _
  split_ifs at hfds ⊢ <;> omega

theorem Table.openFd (ht : s.Table e) (hfree : (s.proc p).ofile fd = none) :
    (s.setFd p fd (some f)).Table (more e f (-1)) := by
  have h := ht.setFd p fd (some f)
  have heq : (fun g => e g + (if (s.proc p).ofile fd = some g then 1 else 0)
      - (if some f = some g then 1 else 0)) = more e f (-1) := by
    funext g
    rw [hfree]
    by_cases hg : g = f
    · subst hg
      simp [more_self]
      omega
    · have hne : ¬ (some f = some g) := fun h => hg (Option.some.inj h).symm
      simp [more_of_ne hg, hne]
  rwa [heq] at h

theorem Table.clearFd (ht : s.Table e) (hopen : (s.proc p).ofile fd = some f) :
    (s.setFd p fd none).Table (more e f 1) := by
  have h := ht.setFd p fd none
  have heq : (fun g => e g + (if (s.proc p).ofile fd = some g then 1 else 0)
      - (if (none : Option FSlot) = some g then 1 else 0)) = more e f 1 := by
    funext g
    rw [hopen]
    by_cases hg : g = f
    · subst hg
      simp [more_self]
    · have hne : ¬ (some f = some g) := fun h => hg (Option.some.inj h).symm
      simp [more_of_ne hg, hne]
  rwa [heq] at h

/-! ## Taking references -/

section Alloc

variable {E : Halt → Files → Prop}

theorem wp_filealloc {Q : Option FSlot → Files → Prop} (hnone : Q none s)
    (hsome : ∀ f, (s.file f).ref = 0 → Q (some f) (s.setFile f fun x => { x with ref := 1 })) :
    wp filealloc Q E s := by
  simp only [filealloc, wp_bind, wp_look]
  cases hfind : (List.finRange NFILE).find? fun f => decide ((s.file f).ref = 0) with
  | none => exact hnone
  | some f => exact hsome f (by simpa using List.find?_some hfind)

theorem wp_fdalloc {Q : Option (Fin NOFILE) → Files → Prop} (hnone : Q none s)
    (hsome : ∀ fd, (s.proc p).ofile fd = none → Q (some fd) (s.setFd p fd (some f))) :
    wp (fdalloc p f) Q E s := by
  simp only [fdalloc, wp_bind, wp_look]
  cases hfind : (List.finRange NOFILE).find? fun fd => decide ((s.proc p).ofile fd = none) with
  | none => exact hnone
  | some fd => exact hsome fd (by simpa using List.find?_some hfind)

theorem wp_argfd {Q : Option (Fin NOFILE × FSlot) → Files → Prop} (hnone : Q none s)
    (hsome : ∀ fd f, (s.proc p).ofile fd = some f → Q (some (fd, f)) s) : wp (argfd p n) Q E s := by
  simp only [argfd, wp_look]
  by_cases hn : 0 ≤ n ∧ n < NOFILE
  · rw [dif_pos hn]
    cases hfd : (s.proc p).ofile ⟨n.toNat, by omega⟩ with
    | none => exact hnone
    | some f => exact hsome _ f hfd
  · rw [dif_neg hn]
    exact hnone

theorem wp_filedup (href : 1 ≤ (s.file f).ref)
    (hQ : Q () (s.setFile f fun x => { x with ref := x.ref + 1 })) : wp (filedup f) Q E s := by
  simp only [filedup, wp_bind, wp_look]
  exact wp_ite (fun hlow => absurd href (by omega)) fun _ => hQ

end Alloc

theorem Table.alloc (ht : s.Table e) (h0 : (s.file f).ref = 0) :
    (s.setFile f fun x => { x with ref := 1 }).Table (more e f 1) := by
  have htype := ht.closed f h0
  refine ht.setFile (by simp [h0]) (fun h1 => absurd h1 (by simp)) fun page w => ?_
  constructor <;> rintro ⟨-, h2, -, -⟩ <;> exact absurd (htype.symm.trans h2) (by simp)

theorem Table.dup (ht : s.Table e) (href : 1 ≤ (s.file f).ref) :
    (s.setFile f fun x => { x with ref := x.ref + 1 }).Table (more e f 1) := by
  have hpos : 0 < (s.file f).ref + 1 := by omega
  refine ht.setFile rfl (fun h0 => ?_) fun page w => ?_
  · change (s.file f).ref + 1 = 0 at h0
    omega
  · exact ⟨fun h => ⟨href, h.type, h.pipe, h.writable⟩, fun h => ⟨hpos, h.type, h.pipe, h.writable⟩⟩

theorem held_dup (href : 1 ≤ (s.file f).ref) :
    (s.setFile f fun x => { x with ref := x.ref + 1 }).held = s.held := by
  refine held_setFile_same fun j => ?_
  have h1 : 0 < (s.file f).ref := by omega
  have h2 : 0 < (s.file f).ref + 1 := by omega
  simp [File.holds, h1, h2]

/-! ## Pipes -/

def openPipe (s : Files) (rf wf : FSlot) (page : Nat) : Files :=
  ((s.setPipe page (some ⟨true, true⟩)).setFile rf fun x =>
    { x with type := .pipe, readable := true, writable := false, pipe := page }).setFile wf fun x =>
    { x with type := .pipe, readable := false, writable := true, pipe := page }

section OpenPipe

variable {rf wf : FSlot} (hne : rf ≠ wf)

include hne

theorem openPipe_read : (s.openPipe rf wf page).file rf
    = { s.file rf with type := .pipe, readable := true, writable := false, pipe := page } := by
  rw [openPipe, setFile_of_ne hne, setFile_self]
  rfl

theorem openPipe_write : (s.openPipe rf wf page).file wf
    = { s.file wf with type := .pipe, readable := false, writable := true, pipe := page } := by
  rw [openPipe, setFile_self, setFile_of_ne (Ne.symm hne)]
  rfl

omit hne in
theorem openPipe_of_ne (hr : g ≠ rf) (hw : g ≠ wf) : (s.openPipe rf wf page).file g = s.file g := by
  rw [openPipe, setFile_of_ne hw, setFile_of_ne hr]
  rfl

theorem openPipe_ref (g : FSlot) : ((s.openPipe rf wf page).file g).ref = (s.file g).ref := by
  by_cases hr : g = rf
  · rw [hr, openPipe_read hne]
  · by_cases hw : g = wf
    · rw [hw, openPipe_write hne]
    · rw [openPipe_of_ne hr hw]

theorem end_openPipe (hr : 0 < (s.file rf).ref) (hw : 0 < (s.file wf).ref) :
    ((s.openPipe rf wf page).file g).End page w ↔
      g = (if w then wf else rf) ∨ (g ≠ rf ∧ g ≠ wf ∧ (s.file g).End page w) := by
  by_cases hgr : g = rf
  · subst hgr
    rw [openPipe_read hne]
    cases w with
    | false => exact ⟨fun _ => .inl rfl, fun _ => ⟨hr, rfl, rfl, rfl⟩⟩
    | true =>
      refine ⟨fun h => absurd h.writable (by simp), fun h => ?_⟩
      rcases h with h | h
      · exact absurd h hne
      · exact absurd rfl h.1
  · by_cases hgw : g = wf
    · subst hgw
      rw [openPipe_write hne]
      cases w with
      | true => exact ⟨fun _ => .inl rfl, fun _ => ⟨hw, rfl, rfl, rfl⟩⟩
      | false =>
        refine ⟨fun h => absurd h.writable (by simp), fun h => ?_⟩
        rcases h with h | h
        · exact absurd h hgr
        · exact absurd rfl h.2.1
    · rw [openPipe_of_ne hgr hgw]
      refine ⟨fun h => .inr ⟨hgr, hgw, h⟩, fun h => ?_⟩
      rcases h with h | h
      · cases w with
        | false => exact absurd h hgr
        | true => exact absurd h hgw
      · exact h.2.2

theorem end_openPipe_of_ne {page' : Nat} (hp : page' ≠ page) (hr : (s.file rf).type = .none)
    (hw : (s.file wf).type = .none) :
    ((s.openPipe rf wf page).file g).End page' w ↔ (s.file g).End page' w := by
  by_cases hgr : g = rf
  · subst hgr
    rw [openPipe_read hne]
    exact ⟨fun h => absurd h.pipe.symm hp, fun h => absurd (hr.symm.trans h.type) (by simp)⟩
  · by_cases hgw : g = wf
    · subst hgw
      rw [openPipe_write hne]
      exact ⟨fun h => absurd h.pipe.symm hp, fun h => absurd (hw.symm.trans h.type) (by simp)⟩
    · rw [openPipe_of_ne hgr hgw]

theorem Table.openPipe (ht : s.Table e) (hr : 0 < (s.file rf).ref) (hw : 0 < (s.file wf).ref)
    (hrt : (s.file rf).type = .none) (hwt : (s.file wf).type = .none) (hpage : s.pipe page = none) :
    (s.openPipe rf wf page).Table e := by
  -- nobody stands for an end of a page that is no pipe
  have hnone : ∀ g w, ¬ (s.file g).End page w := by
    intro g w hg
    have hopen := (ht.ends page w).mpr ⟨g, hg⟩
    rw [pipeOpen, hpage] at hopen
    exact absurd hopen (by simp)
  have hends : ∀ g w, ((s.openPipe rf wf page).file g).End page w ↔ g = (if w then wf else rf) := by
    intro g w
    rw [end_openPipe hne hr hw]
    exact ⟨fun h => h.resolve_right fun h => hnone g w h.2.2, .inl⟩
  refine ⟨fun g => ?_, fun g hg => ?_, fun page' w => ?_, fun page' w g g' hg hg' => ?_⟩
  · rw [openPipe_ref hne]
    exact ht.refs g
  · rw [openPipe_ref hne] at hg
    have hgr : g ≠ rf := fun h => by rw [h] at hg; omega
    have hgw : g ≠ wf := fun h => by rw [h] at hg; omega
    rw [openPipe_of_ne hgr hgw]
    exact ht.closed g hg
  · by_cases hp : page' = page
    · subst hp
      have hopen : (s.openPipe rf wf page').pipeOpen page' w = true := by
        show Option.any _ (update s.pipe page' _ page') = true
        rw [update_self]
        cases w <;> rfl
      exact ⟨fun _ => ⟨_, (hends _ w).mpr rfl⟩, fun _ => hopen⟩
    · have hopen : (s.openPipe rf wf page).pipeOpen page' w = s.pipeOpen page' w := by
        show Option.any _ (update s.pipe page _ page') = _
        rw [update_of_ne hp]
        rfl
      rw [hopen, ht.ends]
      exact exists_congr fun g => (end_openPipe_of_ne hne hp hrt hwt).symm
  · by_cases hp : page' = page
    · subst hp
      rw [(hends g w).mp hg, (hends g' w).mp hg']
    · exact ht.uniq page' w g g' ((end_openPipe_of_ne hne hp hrt hwt).mp hg)
        ((end_openPipe_of_ne hne hp hrt hwt).mp hg')

end OpenPipe

/-! ## Closing -/

def closePipe (s : Files) (page : Nat) (writable : Bool) : Files :=
  match s.pipe page with
  | none => s
  | some q =>
    let q := if writable then { q with writeopen := false } else { q with readopen := false }
    s.setPipe page (if q.readopen || q.writeopen then some q else none)

theorem wp_pipeclose : wp (pipeclose page w) Q E s ↔ Q () (s.closePipe page w) := Iff.rfl

theorem closePipe_fs : (s.closePipe page w).fs = s.fs := by
  unfold closePipe
  split <;> rfl

theorem closePipe_file : (s.closePipe page w).file = s.file := by
  unfold closePipe
  split <;> rfl

theorem closePipe_proc : (s.closePipe page w).proc = s.proc := by
  unfold closePipe
  split <;> rfl

theorem pipeOpen_closePipe (page' : Nat) (w' : Bool) : (s.closePipe page w).pipeOpen page' w'
    = (s.pipeOpen page' w' && !decide (page' = page ∧ w' = w)) := by
  unfold closePipe
  cases hq : s.pipe page with
  | none =>
    by_cases hp : page' = page
    · simp [pipeOpen, hp, hq]
    · simp [hp]
  | some q =>
    by_cases hp : page' = page
    · subst hp
      obtain ⟨r, o⟩ := q
      unfold pipeOpen
      rw [hq]
      show Option.any _ (update s.pipe page' _ page') = _
      rw [update_self]
      cases w <;> cases w' <;> cases r <;> cases o <;> simp [Pipe.isOpen]
    · show Option.any _ (update s.pipe page _ page') = _
      rw [update_of_ne hp]
      simp [pipeOpen, hp]

def closeFile (s : Files) (f : FSlot) : Files :=
  if 0 < (s.file f).ref - 1 then s.setFile f fun x => { x with ref := x.ref - 1 }
  else if (s.file f).type = .pipe then
    (s.setFile f fun x => { x with ref := 0, type := .none }).closePipe (s.file f).pipe
      (s.file f).writable
  else s.setFile f fun x => { x with ref := 0, type := .none }

theorem closeFile_fs : (s.closeFile f).fs = s.fs := by
  unfold closeFile
  split
  · rfl
  · split
    · exact closePipe_fs
    · rfl

theorem closeFile_proc : (s.closeFile f).proc = s.proc := by
  unfold closeFile
  split
  · rfl
  · split
    · exact closePipe_proc
    · rfl

theorem closeFile_of_ne (hg : g ≠ f) : (s.closeFile f).file g = s.file g := by
  unfold closeFile
  split
  · exact setFile_of_ne hg
  · split
    · rw [closePipe_file]
      exact setFile_of_ne hg
    · exact setFile_of_ne hg

theorem closeFile_self : (s.closeFile f).file f =
    if 0 < (s.file f).ref - 1 then { s.file f with ref := (s.file f).ref - 1 }
    else { s.file f with ref := 0, type := .none } := by
  unfold closeFile
  split
  · exact setFile_self
  · split
    · rw [closePipe_file]
      exact setFile_self
    · exact setFile_self

theorem held_closeFile (href : 1 ≤ (s.file f).ref) : s.held j = (s.closeFile f).held j +
    (if (s.file f).ref = 1 ∧ (s.file f).type = .inode ∧ (s.file f).ip = j then 1 else 0) := by
  have hheld : (s.closeFile f).held j + (s.file f).holds j
      = s.held j + ((s.closeFile f).file f).holds j := by
    rw [closeFile_self]
    unfold closeFile
    split
    · exact held_setFile _
    · split
      · have hsum := held_setFile (s := s) (f := f) (j := j) fun x => { x with ref := 0, type := .none }
        rw [held, closePipe_file, closePipe_proc]
        exact hsum
      · exact held_setFile _
  rw [closeFile_self] at hheld
  unfold File.holds at hheld
  by_cases hlast : 0 < (s.file f).ref - 1
  · rw [if_pos hlast] at hheld
    have hpos : 0 < (s.file f).ref := by omega
    have hne : ¬ (s.file f).ref = 1 := by omega
    simp only [hlast, hpos, hne, true_and, false_and, if_false] at hheld ⊢
    omega
  · rw [if_neg hlast] at hheld
    have hone : (s.file f).ref = 1 := by omega
    simp only [hone] at hheld ⊢
    simpa using hheld.symm

theorem Table.closeFile (ht : s.Table e) (href : 1 ≤ (s.file f).ref) :
    (s.closeFile f).Table (more e f (-1)) := by
  unfold Files.closeFile
  split
  · rename_i hmore
    refine ht.setFile Int.sub_eq_add_neg (fun h0 => ?_) fun page w => ?_
    · change (s.file f).ref - 1 = 0 at h0
      omega
    · constructor <;> rintro ⟨-, h2, h3, h4⟩ <;> exact ⟨by omega, h2, h3, h4⟩
  · rename_i hlast
    have hone : (s.file f).ref = 1 := by omega
    split
    · -- the last reference to an end of a pipe
      rename_i hpipe
      have hself : (s.file f).End (s.file f).pipe (s.file f).writable := ⟨by omega, hpipe, rfl, rfl⟩
      have hends : ∀ g page w,
          ((s.setFile f fun x => { x with ref := 0, type := .none }).file g).End page w ↔
            (s.file g).End page w ∧ g ≠ f := by
        intro g page w
        by_cases hg : g = f
        · rw [hg, setFile_self]
          exact ⟨fun h => absurd h.pos (by simp), fun h => absurd rfl h.2⟩
        · rw [setFile_of_ne hg]
          exact ⟨fun h => ⟨h, hg⟩, fun h => h.1⟩
      refine ⟨fun g => ?_, fun g => ?_, fun page w => ?_, fun page w g g' hg hg' => ?_⟩
      · have hrefs := ht.refs g
        rw [closePipe_file, fds, closePipe_proc]
        by_cases hg : g = f
        · subst hg
          rw [setFile_self, more_self]
          show (0 : Int) = (s.fds g : Int) + _
          omega
        · rw [setFile_of_ne hg, more_of_ne hg]
          exact hrefs
      · rw [closePipe_file]
        by_cases hg : g = f
        · rw [hg, setFile_self]
          exact fun _ => rfl
        · rw [setFile_of_ne hg]
          exact ht.closed g
      · rw [pipeOpen_closePipe, Bool.and_eq_true, closePipe_file,
          show (s.setFile f fun x => { x with ref := 0, type := .none }).pipeOpen page w
            = s.pipeOpen page w from rfl, ht.ends]
        constructor
        · rintro ⟨⟨g, hg⟩, hne⟩
          refine ⟨g, (hends g page w).mpr ⟨hg, fun heq => ?_⟩⟩
          rw [heq] at hg
          simp [hg.pipe, hg.writable] at hne
        · rintro ⟨g, hg⟩
          obtain ⟨hg, hne⟩ := (hends g page w).mp hg
          refine ⟨⟨g, hg⟩, ?_⟩
          simp only [Bool.not_eq_true', decide_eq_false_iff_not]
          rintro ⟨rfl, rfl⟩
          exact hne (ht.uniq _ _ g f hg hself)
      · rw [closePipe_file] at hg hg'
        exact ht.uniq page w g g' ((hends g page w).mp hg).1 ((hends g' page w).mp hg').1
    · rename_i hpipe
      refine ht.setFile (by simp [hone]) (fun _ => rfl) fun page w => ?_
      constructor
      · rintro ⟨h1, -, -, -⟩
        exact absurd h1 (by simp)
      · rintro ⟨-, h2, -, -⟩
        exact absurd h2 hpipe

/-- **`fileclose`** closes; the last reference to an inode is given up after that. -/
theorem wp_fileclose (href : 1 ≤ (s.file f).ref)
    (hQ : ¬ ((s.file f).ref = 1 ∧ (s.file f).type = .inode) → Q () (s.closeFile f))
    (hput : (s.file f).ref = 1 → (s.file f).type = .inode →
      wp (do beginOp; iput (s.file f).ip; endOp) (fun _ fs => Q () { s.closeFile f with fs := fs })
        (fun e fs => E e { s.closeFile f with fs := fs }) s.fs) :
    wp (fileclose f) Q E s := by
  rw [fileclose]
  refine wp_read (wp_ite (fun hlow => ?_) fun _ => wp_ite (fun hmore => ?_) fun hlast => ?_)
  · exact absurd href (by omega)
  · have hclose := hQ fun h => by omega
    rw [closeFile, if_pos hmore] at hclose
    exact hclose
  · have hone : (s.file f).ref = 1 := by omega
    refine wp_write ?_
    cases htype : (s.file f).type with
    | none =>
      have hclose := hQ fun h => by simp [htype] at h
      rw [closeFile, if_neg hlast, if_neg (by simp [htype])] at hclose
      exact hclose
    | pipe =>
      have hclose := hQ fun h => by simp [htype] at h
      rw [closeFile, if_neg hlast, if_pos htype] at hclose
      exact wp_pipeclose.mpr hclose
    | inode =>
      have hclose := hput hone htype
      rw [closeFile, if_neg hlast, if_neg (by simp [htype])] at hclose
      exact wp_zoom.mpr hclose

end Files
end Xv6
