/-
  Xv6.Fs.Resolve

  What a path means, and that `namei` and `nameiparent` compute it.

  The locks are followed as well, so that the functions are seen to come back:
  nobody waits for a lock it holds itself.
-/

import Mathlib.Data.List.TakeWhile
import Xv6.Fs.Runs

namespace Xv6

open Function List Wp Files Option Tree

/-! ## The names in a path -/

/-- The maximal substrings without a slash, in order, cut to `DIRSIZ` bytes. -/
def components (path : List UInt8) : List (List UInt8) :=
  ((path.splitOn slash).filter (· ≠ [])).map (·.take DIRSIZ)

theorem components_slash (path : List UInt8) : components (slash :: path) = components path := by
  unfold components splitOn
  rw [splitOnP_cons_eq_if_modifyHead, if_pos (beq_self_eq_true slash)]
  rfl

theorem components_dropSlashes (path : List UInt8) :
    components (path.dropWhile (· == slash)) = components path := by
  induction path with
  | nil => rfl
  | cons c path ih =>
    rw [dropWhile_cons]
    split
    · rename_i hc
      rw [ih, eq_of_beq hc, components_slash]
    · rfl

theorem components_cons {c : UInt8} {s : List UInt8} (hc : c ≠ slash) :
    components (c :: s) = ((c :: s).takeWhile (· != slash)).take DIRSIZ ::
      components ((c :: s).dropWhile (· != slash)) := by
  have hword : ∀ x ∈ (c :: s).takeWhile (· != slash), (x == slash) = false := by
    intro x hx
    simpa using mem_takeWhile_imp hx
  have hne : (c :: s).takeWhile (· != slash) ≠ [] := by
    rw [takeWhile_cons, if_pos (by simpa using hc)]
    exact cons_ne_nil _ _
  have happ : (c :: s).takeWhile (· != slash) ++ (c :: s).dropWhile (· != slash) = c :: s :=
    takeWhile_append_dropWhile
  -- the word ends with the path, or before a slash
  cases hrest : (c :: s).dropWhile (· != slash) with
  | nil =>
    rw [hrest, append_nil] at happ
    rw [happ] at hword ⊢
    unfold components splitOn
    rw [splitOnP_eq_singleton hword]
    rfl
  | cons d rest =>
    have hd : (d == slash) = true := by
      have hhead := head?_dropWhile_not (p := (· != slash)) (c :: s)
      rw [hrest] at hhead
      simpa using hhead
    rw [hrest] at happ
    conv_lhs => rw [← happ]
    rw [eq_of_beq hd, components_slash]
    unfold components splitOn
    rw [splitOnP_append_cons_of_forall_mem hword slash (beq_self_eq_true slash),
      filter_cons, if_pos (by simpa using hne), map_cons]

/-- **`skipelem` takes the names off one by one.** -/
theorem components_skipelem (path : List UInt8) :
    components path = match skipelem path with
      | none => []
      | some (name, rest) => name :: components rest := by
  unfold skipelem
  rw [← components_dropSlashes path]
  cases hdrop : path.dropWhile (· == slash) with
  | nil => rfl
  | cons c s =>
    have hc : c ≠ slash := by
      have hhead := head?_dropWhile_not (p := (· == slash)) path
      rw [hdrop] at hhead
      simpa using hhead
    rw [components_cons hc, ← components_dropSlashes ((c :: s).dropWhile (· != slash))]

theorem components_rest_eq_nil {path name rest : List UInt8}
    (h : skipelem path = some (name, rest)) : components rest = [] ↔ rest = [] := by
  refine ⟨fun hnil => ?_, fun hnil => by rw [hnil]; rfl⟩
  unfold skipelem at h
  split at h
  · exact absurd h (by simp)
  · rename_i c t hdrop
    obtain ⟨-, hrest⟩ := Prod.mk.inj (Option.some.inj h)
    cases rest with
    | nil => rfl
    | cons d rest =>
      have hd : d ≠ slash := by
        have hhead := head?_dropWhile_not (p := (· == slash)) ((c :: t).dropWhile (· != slash))
        rw [hrest] at hhead
        simpa using hhead
      rw [components_cons hd] at hnil
      exact absurd hnil (cons_ne_nil _ _)

/-! ## Names looked up in a tree -/

namespace Tree

variable {n : Tree} {d : Nat} {name : List UInt8} {names : List (List UInt8)}

/-- The inode that `name` names in `d`; nothing if `d` is not a directory. -/
def lookup (n : Tree) (d : Nat) (name : List UInt8) : Option Nat :=
  if (n d).type = T_DIR then (dirFind (n d).bytes name).map Prod.fst else none

/-- One name after the other. -/
def resolve (n : Tree) (d : Nat) (names : List (List UInt8)) : Option Nat :=
  names.foldlM n.lookup d

/-- All names but the last one, and the last one. -/
def resolveParent (n : Tree) (d : Nat) (names : List (List UInt8)) : Option (Nat × List UInt8) := do
  let last ← names.getLast?
  let x ← n.resolve d names.dropLast
  pure (x, last)

/-- The loop of `namex`: a name is looked up in a directory only, and so is the
    last one, although it is not looked up for the parent. -/
def steps (n : Tree) (parent : Bool) : Nat → List (List UInt8) → Option (Nat × List UInt8)
  | d, [] => if parent then none else some (d, [])
  | d, name :: rest =>
    if (n d).type ≠ T_DIR then none
    else if parent = true ∧ rest = [] then some (d, name)
    else (n.lookup d name).bind fun x => n.steps parent x rest

theorem resolve_cons (name : List UInt8) (names : List (List UInt8)) :
    n.resolve d (name :: names) = (n.lookup d name).bind fun x => n.resolve x names := by
  rw [resolve, foldlM_cons]
  rfl

theorem resolveParent_cons (name : List UInt8) (hne : names ≠ []) :
    n.resolveParent d (name :: names)
      = (n.lookup d name).bind fun x => n.resolveParent x names := by
  obtain ⟨last, hlast⟩ := ne_none_iff_exists'.mp fun h => hne (getLast?_eq_none_iff.mp h)
  have hlast' : (name :: names).getLast? = some last := by
    rw [getLast?_cons, hlast]
    rfl
  unfold resolveParent
  rw [dropLast_cons_of_ne_nil hne]
  simp only [hlast, hlast', resolve_cons]
  cases n.lookup d name <;> rfl

/-- **Without stopping early, all names are looked up.** -/
theorem steps_false (names : List (List UInt8)) :
    n.steps false d names = (n.resolve d names).map fun x => (x, []) := by
  induction names generalizing d with
  | nil => rfl
  | cons name names ih =>
    rw [steps, resolve_cons, map_bind]
    by_cases hd : (n d).type = T_DIR
    · rw [if_neg (not_not.mpr hd), if_neg (by simp)]
      exact congrArg _ (funext fun x => ih)
    · rw [if_pos hd, lookup, if_neg hd]
      rfl

/-- **The parent is found if it is a directory.** -/
theorem steps_true (names : List (List UInt8)) :
    n.steps true d names
      = (n.resolveParent d names).filter fun p => decide ((n p.1).type = T_DIR) := by
  induction names generalizing d with
  | nil => rfl
  | cons name names ih =>
    rw [steps]
    by_cases hd : (n d).type = T_DIR
    · rw [if_neg (not_not.mpr hd)]
      by_cases hlast : names = []
      · rw [if_pos ⟨rfl, hlast⟩, hlast]
        show _ = Option.filter _ (some (d, name))
        rw [Option.filter_some, if_pos (by simpa using hd)]
      · rw [if_neg (fun h => hlast h.2), resolveParent_cons name hlast]
        cases n.lookup d name with
        | none => rfl
        | some x => exact ih
    · rw [if_pos hd]
      by_cases hlast : names = []
      · rw [hlast]
        show _ = Option.filter _ (some (d, name))
        rw [Option.filter_some, if_neg (by simpa using hd)]
      · rw [resolveParent_cons name hlast, lookup, if_neg hd]
        rfl

theorem resolve_of_resolveParent {p : Nat × List UInt8} (h : n.resolveParent d names = some p) :
    n.resolve d names = n.lookup p.1 p.2 := by
  unfold resolveParent at h
  obtain ⟨last, hlast, h⟩ := bind_eq_some_iff.mp h
  obtain ⟨x, hx, h⟩ := bind_eq_some_iff.mp h
  obtain rfl := Option.some.inj h
  have hnames : names = names.dropLast ++ [last] := (dropLast_append_getLast? last hlast).symm
  rw [hnames, resolve, foldlM_append, ← resolve, hx]
  show n.resolve x [last] = _
  rw [resolve_cons]
  cases n.lookup x last <;> rfl

end Tree

/-! ## Locks -/

namespace Fs

variable {s s' s₀ : Fs} {cnt : ISlot → Nat} {ip cwd : ISlot} {path name : List UInt8}
  {Q : Unit → Fs → Prop} {E : Halt → Fs → Prop}

def locks (s : Fs) : ISlot → Bool := fun j => (s.inode j).locked

theorem locks_setInode (f : Inode → Inode) :
    (s.setInode ip f).locks = update s.locks ip (f (s.inode ip)).locked := by
  funext j
  by_cases hj : j = ip
  · rw [hj, update_self, locks, setInode_self]
  · rw [update_of_ne hj, locks, setInode_of_ne hj, locks]

theorem leaves_onInode {f : Inode → Inode} (hf : ∀ i, (f i).locked = i.locked) :
    Leaves locks (onInode ip f) := by
  refine leaves_change fun s => ?_
  rw [locks_setInode, hf]
  exact update_eq_self ..

theorem leaves_onCopy (f : Dinode → Dinode) : Leaves locks (onCopy ip f) :=
  leaves_onInode (by intro; rfl)

theorem leaves_logWrite (b : Nat) (data : Block) : Leaves locks (logWrite b data) := by
  refine (leaves_change (by intro; rfl)).bind fun _ => (leaves_look _).bind fun op => ?_
  cases op with
  | none => exact leaves_fail _
  | some l => exact leaves_change (by intro; rfl)

theorem leaves_ballocFrom (bs : List Nat) : Leaves locks (ballocFrom bs) := by
  induction bs with
  | nil => exact leaves_fail _
  | cons b bs ih =>
    refine (leaves_look _).bind fun sb => (leaves_look _).bind fun bp => ?_
    split
    · exact (leaves_change (by intro; rfl)).bind fun _ => (leaves_logWrite _ _).bind fun _ =>
        (leaves_logWrite _ _).bind fun _ => leaves_pure _
    · exact ih

theorem leaves_balloc : Leaves locks balloc := (leaves_look _).bind fun _ => leaves_ballocFrom _

theorem leaves_bfree (b : Nat) : Leaves locks (bfree b) :=
  (leaves_look _).bind fun _ => (leaves_change (by intro; rfl)).bind fun _ =>
    (leaves_look _).bind fun _ => .ite (leaves_fail _) (leaves_logWrite _ _)

theorem leaves_iget (i : Nat) : Leaves locks (iget i) := by
  refine (leaves_look _).bind fun hit => ?_
  cases hit with
  | some ip => exact (leaves_onInode (by intro; rfl)).bind fun _ => leaves_pure _
  | none =>
    refine (leaves_look _).bind fun empty => ?_
    cases empty with
    | none => exact leaves_fail _
    | some ip => exact (leaves_onInode (by intro; rfl)).bind fun _ => leaves_pure _

theorem leaves_iupdate (ip : ISlot) : Leaves locks (iupdate ip) :=
  (leaves_look _).bind fun _ => (leaves_look _).bind fun _ => (leaves_look _).bind fun _ =>
    leaves_logWrite _ _

theorem leaves_bmapAddr (ip : ISlot) (a : Nat) : Leaves locks (bmapAddr ip a) :=
  (leaves_look _).bind fun _ => .ite
    (leaves_balloc.bind fun _ => (leaves_onCopy _).bind fun _ => leaves_pure _) (leaves_pure _)

theorem leaves_bmapListed (addr j : Nat) : Leaves locks (bmapListed addr j) :=
  (leaves_look _).bind fun _ => .ite
    (leaves_balloc.bind fun _ => (leaves_logWrite _ _).bind fun _ => leaves_pure _) (leaves_pure _)

theorem leaves_bmap (ip : ISlot) (bn : Nat) : Leaves locks (bmap ip bn) :=
  .ite (leaves_bmapAddr ip bn)
    (.ite ((leaves_bmapAddr ip NDIRECT).bind fun _ => leaves_bmapListed _ _) (leaves_fail _))

theorem leaves_truncDirect (ip : ISlot) (i : Nat) : Leaves locks (truncDirect ip i) :=
  (leaves_look _).bind fun _ =>
    .ite (leaves_pure _) ((leaves_bfree _).bind fun _ => leaves_onCopy _)

theorem leaves_truncIndirect (ip : ISlot) : Leaves locks (truncIndirect ip) := by
  refine (leaves_look _).bind fun _ => .ite (leaves_pure _) ((leaves_look _).bind fun bp => ?_)
  refine (leaves_forM (fun j => .ite (leaves_pure _) (leaves_bfree _)) _).bind fun _ => ?_
  exact (leaves_bfree _).bind fun _ => leaves_onCopy _

theorem leaves_iput (ip : ISlot) : Leaves locks (iput ip) := by
  have htrunc : Leaves locks (itrunc ip) :=
    (leaves_forM (leaves_truncDirect ip) _).bind fun _ => (leaves_truncIndirect ip).bind fun _ =>
      (leaves_onCopy _).bind fun _ => leaves_iupdate ip
  have hfree : Leaves locks (ifree ip) :=
    htrunc.bind fun _ => (leaves_onCopy _).bind fun _ => (leaves_iupdate ip).bind fun _ =>
      leaves_onInode (by intro; rfl)
  exact Leaves.bind ((leaves_look _).bind fun _ => .ite hfree (leaves_pure _)) fun _ =>
    leaves_onInode (by intro; rfl)

theorem leaves_readLoop (ip : ISlot) (fuel off m : Nat) : Leaves locks (readLoop ip fuel off m) := by
  induction fuel generalizing off m with
  | zero => exact leaves_pure _
  | succ fuel ih =>
    exact .ite (leaves_pure _) ((leaves_bmap ip _).bind fun _ => (leaves_look _).bind fun _ =>
      (ih _ _).bind fun _ => leaves_pure _)

theorem leaves_readi (dev : Int) (ip : ISlot) (off m : Nat) : Leaves locks (readi dev ip off m) :=
  (leaves_look _).bind fun _ => .ite (leaves_pure _) (.ite (leaves_pure _)
    ((leaves_readLoop ip _ off _).bind fun _ => leaves_pure _))

theorem leaves_dirScan (ip : ISlot) (name : List UInt8) (offs : List Nat) :
    Leaves locks (dirScan ip name offs) := by
  induction offs with
  | nil => exact leaves_pure _
  | cons off offs ih =>
    have hread : Leaves locks (readDirent "dirlink read" ip off) :=
      (leaves_readi 0 ip off DIRENT).bind fun _ => .ite (leaves_fail _) (leaves_pure _)
    exact hread.bind fun _ => .ite (leaves_pure _) ih

theorem leaves_dirlookup (ip : ISlot) (name : List UInt8) : Leaves locks (dirlookup ip name) := by
  refine (leaves_look _).bind fun _ => .ite (leaves_fail _) ((leaves_dirScan ip name _).bind
    fun hit => ?_)
  cases hit with
  | none => exact leaves_pure _
  | some found => exact (leaves_iget found.1).bind fun _ => leaves_pure _

theorem wp_ilock_free (h : s.Inv cnt none) (hip : 0 < cnt ip)
    (hi : (s.inode ip).inum < s.sb.ninodes)
    (hE : ((s.ino (s.inode ip).inum).type ≠ 0 ∧ (s.inode ip).locked = false) ∨ ∀ e s', E e s')
    (hQ : ∀ s', s'.Inv cnt none → Quiet cnt s s' → (s'.inode ip).valid = true →
      (s.inode ip).locked = false → s'.locks = update s.locks ip true → Q () s') :
    wp (ilock ip) Q E s := by
  have hlocks : wp (ilock ip)
      (fun _ s' => (s.inode ip).locked = false ∧ s'.locks = update s.locks ip true)
      (fun e _ => e = .panic "ilock: no type" ∨ (s.inode ip).locked = true) s := by
    have href := h.slots.ref ip
    simp only [ilock, onInode, wp_bind, wp_look]
    refine wp_ite (fun hr => absurd hr (by omega)) fun _ => wp_ite (fun hl => .inr hl) fun hl => ?_
    have hfree : (s.inode ip).locked = false := by simpa using hl
    simp only [wp_bind, wp_change]
    refine wp_ite (fun _ => ⟨hfree, locks_setInode _⟩) fun _ => ?_
    simp only [wp_bind, wp_look, wp_change]
    refine wp_ite (fun _ => .inl rfl) fun _ => ⟨hfree, ?_⟩
    show Fs.locks (setInode _ ip _) = _
    rw [locks_setInode, locks_setInode, update_idem, setInode_self]
  have hlock : wp (ilock ip)
      (fun _ s' => s'.Inv cnt none ∧ Quiet cnt s s' ∧ (s'.inode ip).valid = true)
      (Fails ((s.ino (s.inode ip).inum).type = 0)) s :=
    wp_ilock h hip hi (Classical.em _) fun s' hinv hq hv => ⟨hinv, hq, hv⟩
  refine wp_mono (wp_and hlock hlocks)
    (fun _ s' h => hQ s' h.1.1 h.1.2.1 h.1.2.2 h.2.1 h.2.2) fun e s' h => ?_
  obtain ⟨htype, hfree⟩ | hblind := hE
  · obtain hno | hheld := h.2
    · exact absurd (h.1.type hno) htype
    · rw [hfree] at hheld
      exact absurd hheld Bool.false_ne_true
  · exact hblind e s'

theorem wp_iunlock_held (h : s.Inv cnt none) (hip : 0 < cnt ip)
    (hE : (s.inode ip).locked = true ∨ ∀ e s', E e s')
    (hQ : ∀ s', s'.Inv cnt none → Quiet cnt s s' →
      s'.locks = update s.locks ip false → Q () s') : wp (iunlock ip) Q E s := by
  have hlocks : wp (iunlock ip) (fun _ s' => s'.locks = update s.locks ip false)
      (fun _ _ => (s.inode ip).locked = false) s := by
    have href := h.slots.ref ip
    simp only [iunlock, onInode, wp_bind, wp_look]
    exact wp_ite (fun hr => hr.resolve_right (by omega)) fun _ => locks_setInode _
  have hunlock : wp (iunlock ip) (fun _ s' => s'.Inv cnt none ∧ Quiet cnt s s') (Fails False) s :=
    wp_iunlock h hip fun s' hinv hq => ⟨hinv, hq⟩
  refine wp_mono (wp_and hunlock hlocks) (fun _ s' h => hQ s' h.1.1 h.1.2 h.2) fun e s' h => ?_
  obtain hheld | hblind := hE
  · rw [h.2] at hheld
    exact absurd hheld Bool.false_ne_true
  · exact hblind e s'

theorem wp_iput_still (h : s.Inv (plus cnt ip) none) (hop : s.op.isSome)
    (hQ : ∀ s', s'.Inv cnt none → Dropped cnt s s' ip → s'.locks = s.locks →
      (¬ s.Last cnt ip → s'.disk = s.disk) → Q () s') : wp (iput ip) Q E s := by
  have hput : wp (iput ip) (fun _ s' => s'.Inv cnt none ∧ Dropped cnt s s' ip) E s :=
    wp_iput h hop fun s' hinv hdrop => ⟨hinv, hdrop⟩
  have hdisk : wp (iput ip) (fun _ s' => ¬ s.Last cnt ip → s'.disk = s.disk) (fun _ _ => True) s := by
    have href := h.slots.ref ip
    rw [plus_self] at href
    refine wp_seq (wp_read (wp_ite (fun hc => ?_) fun _ => ?_))
    · obtain ⟨h1, hv, hn⟩ := hc
      have hlast : s.Last cnt ip := by
        refine ⟨by omega, hv, ?_⟩
        rw [← (h.copy_eq plus_pos hv).2.2]
        exact hn
      unfold wp
      split
      · exact fun hno => absurd hlast hno
      · trivial
    · exact fun _ => rfl
  refine wp_mono (wp_and ((leaves_iput ip).wp hput) hdisk) (fun _ s' h' => ?_) fun _ _ h => h.1
  exact hQ s' h'.1.1.1 h'.1.1.2 h'.1.2 h'.2

theorem wp_iunlockput_held (h : s.Inv (plus cnt ip) none) (hv : (s.inode ip).valid = true)
    (hop : s.op.isSome) (hE : (s.inode ip).locked = true ∨ ∀ e s', E e s')
    (hQ : ∀ s', s'.Inv cnt none → Dropped cnt s s' ip →
      s'.locks = update s.locks ip false → (¬ s.Last cnt ip → s'.disk = s.disk) →
      Q () s') : wp (iunlockput ip) Q E s := by
  refine wp_seq (wp_iunlock_held h plus_pos hE fun s1 h1 hq hl1 => ?_)
  refine wp_iput_still h1 (by rw [hq.op]; exact hop) fun s2 h2 hdrop hl2 hdisk => ?_
  refine hQ s2 h2 (hdrop.of_quiet hq hv) (hl2.trans hl1) fun hlast => (hdisk fun hl => ?_).trans hq.disk
  obtain ⟨h0, -, hn⟩ := hl
  rw [hq.ino, hq.inum ip plus_pos] at hn
  exact hlast ⟨h0, hv, hn⟩

theorem wp_dirlookup_held {Q : Option (ISlot × Nat) → Fs → Prop} (h : s.Inv cnt none)
    (hip : 0 < cnt ip) (hv : (s.inode ip).valid = true)
    (hdir : (s.ino (s.inode ip).inum).type = T_DIR) (hwhole : DIRENT ∣ (s.dirBytes ip).length)
    (hE : (∃ j, cnt j = 0) ∨ ∀ e s', E e s') (hnone : dirFind (s.dirBytes ip) name = none → Q none s)
    (hsome : ∀ x off jp s', dirFind (s.dirBytes ip) name = some (x, off) →
      s'.Inv (plus cnt jp) none → Quiet cnt s s' → (s'.inode jp).inum = x → s'.locks = s.locks →
      Q (some (jp, off)) s') : wp (dirlookup ip name) Q E s := by
  have hlook : wp (dirlookup ip name) (fun r s' =>
      (r = none ∧ s' = s ∧ dirFind (s.dirBytes ip) name = none) ∨
      ∃ x off jp, r = some (jp, off) ∧ dirFind (s.dirBytes ip) name = some (x, off) ∧
        s'.Inv (plus cnt jp) none ∧ Quiet cnt s s' ∧ (s'.inode jp).inum = x) E s := by
    refine wp_dirlookup h hip hv (fun _ hn _ => .inl ⟨rfl, rfl, hn⟩)
      (fun x off jp s' _ hf hinv hq hx _ => .inr ⟨x, off, jp, rfl, hf, hinv, hq, hx⟩)
      (fun hne => absurd hdir hne) (fun hshort => absurd hwhole hshort) fun hfull => ?_
    obtain ⟨j, hj⟩ | hblind := hE
    · have := hfull j
      omega
    · exact hblind _ s
  refine wp_mono ((leaves_dirlookup ip name).wp hlook) (fun r s' h => ?_) fun _ _ h => h
  obtain ⟨⟨rfl, rfl, hn⟩ | ⟨x, off, jp, rfl, hf, hinv, hq, hx⟩, hl⟩ := h
  · exact hnone hn
  · exact hsome x off jp s' hf hinv hq hx hl

/-! ## `namex` in a tree -/

structure Roomy (s : Fs) (cnt : ISlot → Nat) : Prop where
  unlocked : ∀ j, (s.inode j).locked = false
  spare : ∃ j j', j ≠ j' ∧ cnt j = 0 ∧ cnt j' = 0

theorem Roomy.room (h : s.Roomy cnt) (ip : ISlot) : ∃ j, plus cnt ip j = 0 := by
  obtain ⟨j, j', hne, h0, h0'⟩ := h.spare
  by_cases hj : j = ip
  · exact ⟨j', by rw [plus_of_ne (fun h => hne (hj.trans h.symm)), h0']⟩
  · exact ⟨j, by rw [plus_of_ne hj, h0]⟩

structure Got (lax : Prop) (cnt : ISlot → Nat) (s₀ s : Fs) (ip : ISlot) : Prop where
  found : Found lax cnt s₀ s ip
  disk : s.disk = s₀.disk

structure Left (cnt : ISlot → Nat) (s₀ s : Fs) : Prop where
  inv : s.Inv cnt none
  walk : Walk cnt s₀ s
  disk : s.disk = s₀.disk

/-- `namex` has come to inode `d`. -/
structure At (lax : Prop) (cnt : ISlot → Nat) (s₀ s : Fs) (ip : ISlot) (d : Nat) : Prop extends
    Got lax cnt s₀ s ip where
  inum : (s.inode ip).inum = d
  locks : s.locks = s₀.locks

theorem Found.not_last_next {lax : Prop} {s1 : Fs} {jp : ISlot} (h : Found lax cnt s₀ s ip)
    (htended : s₀.Tended cnt) (hv : (s.inode ip).valid = true) (hq : Quiet (plus cnt ip) s s1) :
    ¬ s1.Last (plus cnt jp) ip := by
  intro hl
  obtain ⟨h0, -, hn⟩ := hl.of_plus
  rw [hq.inum ip plus_pos, hq.ino] at hn
  exact h.not_last htended ⟨h0, hv, hn⟩

theorem update_unlocked {l : ISlot → Bool} (h : l ip = false) :
    update (update l ip true) ip false = l := by
  rw [update_idem]
  exact (congrArg (update l ip) h.symm).trans (update_eq_self ..)

section Steps

/- In a tended tree.  Either the calls come back, or it does not matter how they
   fail. -/
variable {lax : Prop} {Q : Option (ISlot × List UInt8) → Fs → Prop} {parent : Bool}
  (h₀ : Starts lax cnt cwd s₀) (htended : s₀.Tended cnt)
  (hE : (¬ lax ∧ s₀.Roomy cnt) ∨ ∀ e s', E e s')

include h₀ htended hE

/-- **The loop of `namex` is the loop over the tree.** -/
theorem wp_namexLoop_steps {fuel d : Nat} (h : At lax cnt s₀ s ip d) (hfuel : path.length < fuel)
    (hnone : ∀ s', Left cnt s₀ s' → s'.locks = s₀.locks →
      steps s₀.ino parent d (components path) = none → Q none s')
    (hsome : ∀ jp x name s', At lax cnt s₀ s' jp x →
      steps s₀.ino parent d (components path) = some (x, name) → Q (some (jp, name)) s') :
    wp (namexLoop parent fuel path ip) Q E s := by
  -- the induction follows the path, as the loop does
  induction fuel generalizing path ip s d with
  | zero => omega
  | succ fuel ih =>
    have hnames := components_skipelem path
    rw [namexLoop]
    cases hskip : skipelem path with
    | none =>
      rw [hskip] at hnames
      rw [hnames] at hnone hsome
      refine wp_ite (fun hp => ?_) fun hp => ?_
      · have hop : s.op.isSome := by
          rw [h.found.walk.kept.isSome]
          exact h₀.op
        refine wp_seq (wp_iput_still h.found.inv hop fun s' hinv hdrop hl hdisk => ?_)
        exact hnone s' ⟨hinv, h.found.walk.drop hdrop (fun _ hj => hj) h.found.not_last,
          (hdisk (h.found.not_last htended)).trans h.disk⟩ (hl.trans h.locks) (if_pos hp)
      · exact hsome ip d [] s h (if_neg hp)
    | some elem =>
      obtain ⟨name, rest⟩ := elem
      rw [hskip] at hnames
      have hlen := skipelem_length hskip
      have hlast := components_rest_eq_nil hskip
      rw [hnames, steps] at hnone hsome
      refine wp_seq (wp_ilock_free h.found.inv plus_pos
        (by rw [h.found.walk.kept.sb]; exact h.found.inum)
        (hE.imp_left fun hr => ⟨h.found.type.resolve_left hr.1,
          (congrFun h.locks ip).trans (hr.2.unlocked ip)⟩)
        fun s1 hinv1 hq1 hv1 hfree hl1 => ?_)
      have hf1 : Found lax cnt s₀ s1 ip := h.found.quiet hq1 hinv1
      have hd1 : (s1.inode ip).inum = d := (hq1.inum ip plus_pos).trans h.inum
      have hino1 := (hf1.walk.still htended).1
      have hbytes : s1.dirBytes ip = (s₀.ino d).bytes := by
        rw [dirBytes, hino1, hd1]
      have hop1 : s1.op.isSome := by
        rw [hf1.walk.kept.isSome]
        exact h₀.op
      have hdisk1 : s1.disk = s₀.disk := hq1.disk.trans h.disk
      have hheld1 : (s1.inode ip).locked = true := (congrFun hl1 ip).trans (update_self ..)
      -- the lock goes as it has come
      have hback : update s1.locks ip false = s₀.locks := by
        rw [hl1, update_unlocked hfree]
        exact h.locks
      -- a directory that is left, with nothing found
      have hleave : steps s₀.ino parent d (name :: components rest) = none →
          wp (do iunlockput ip; pure none) Q E s1 := by
        intro hsteps
        refine wp_seq (wp_iunlockput_held hf1.inv hv1 hop1 (.inl hheld1)
          fun s2 hinv2 hdrop hl2 hdisk2 => ?_)
        exact hnone s2 ⟨hinv2, hf1.walk.drop hdrop (fun _ hj => hj) hf1.not_last,
          (hdisk2 (hf1.not_last htended)).trans hdisk1⟩ (hl2.trans hback) hsteps
      refine wp_read ?_
      obtain ⟨htype, -, -⟩ := hf1.inv.copy_eq plus_pos hv1
      rw [htype, hino1, hd1]
      by_cases hdir : (s₀.ino d).type = T_DIR
      · rw [if_neg (not_not.mpr hdir)] at hnone hsome ⊢
        by_cases hstop : parent = true ∧ rest = []
        · rw [if_pos ⟨hstop.1, hlast.mpr hstop.2⟩] at hsome
          rw [if_pos hstop]
          refine wp_seq (wp_iunlock_held hf1.inv plus_pos (.inl hheld1) fun s2 hinv2 hq2 hl2 => ?_)
          exact hsome ip d name s2 ⟨⟨hf1.quiet hq2 hinv2, hq2.disk.trans hdisk1⟩,
            (hq2.inum ip plus_pos).trans hd1, hl2.trans hback⟩ rfl
        · have hgo : ¬ (parent = true ∧ components rest = []) := fun hs =>
            hstop ⟨hs.1, hlast.mp hs.2⟩
          rw [if_neg hgo, Tree.lookup, if_pos hdir] at hnone hsome
          rw [if_neg hstop]
          have hdir1 : (s1.ino (s1.inode ip).inum).type = T_DIR := by
            rw [hino1, hd1]
            exact hdir
          refine wp_seq (wp_dirlookup_held hf1.inv plus_pos hv1 hdir1 ?_
            (hE.imp_left fun hr => hr.2.room ip) (fun hmiss => ?_)
            fun x off jp s2 hfound hinv2 hq2 hx hl2 => ?_)
          · rw [hbytes]
            exact h₀.sane.whole d hdir
          · rw [hbytes] at hmiss
            refine hleave ?_
            rw [steps, if_neg (not_not.mpr hdir), if_neg hgo, Tree.lookup, if_pos hdir, hmiss]
            rfl
          · have hhit := hfound
            rw [hbytes] at hhit
            rw [hhit] at hnone hsome
            rw [plus_comm] at hinv2
            have hheld2 : (s2.inode ip).locked = true := (congrFun hl2 ip).trans hheld1
            refine wp_seq (wp_iunlockput_held hinv2 (hq2.valid ip plus_pos hv1)
              (by rw [hq2.op]; exact hop1) (.inl hheld2) fun s3 hinv3 hdrop hl3 hdisk3 => ?_)
            rw [hl2, hback] at hl3
            exact ih ⟨⟨hf1.next hdir1 hfound h₀.sane h₀.calm hv1 hq2 hx hdrop hinv3,
              (hdisk3 (hf1.not_last_next htended hv1 hq2)).trans (hq2.disk.trans hdisk1)⟩,
              (hdrop.kept.inum jp plus_pos).trans hx, hl3⟩ (by omega) hnone hsome
      · rw [if_pos hdir]
        refine hleave ?_
        rw [steps, if_pos hdir]

end Steps

def origin (s : Fs) (cwd : ISlot) (path : List UInt8) : Nat :=
  if path.headD 0 = slash then ROOTINO else (s.inode cwd).inum

section Steps

variable {lax : Prop} {Q : Option (ISlot × List UInt8) → Fs → Prop} {parent : Bool}
  (h : Starts lax cnt cwd s) (htended : s.Tended cnt)
  (hE : (¬ lax ∧ s.Roomy cnt) ∨ ∀ e s', E e s')

include h htended hE

/-- **`namex` goes over the tree.** -/
theorem wp_namex_steps
    (hnone : ∀ s', Left cnt s s' → s'.locks = s.locks →
      steps s.ino parent (s.origin cwd path) (components path) = none → Q none s')
    (hsome : ∀ jp x name s', At lax cnt s s' jp x →
      steps s.ino parent (s.origin cwd path) (components path) = some (x, name) →
      Q (some (jp, name)) s') :
    wp (namex cwd path parent) Q E s := by
  refine wp_seq ?_
  unfold origin at hnone hsome
  unfold namexStart
  by_cases hroot : path.headD 0 = slash
  · rw [if_pos hroot] at hnone hsome ⊢
    have hget : wp (iget ROOTINO) (fun ip s' => Found lax cnt s s' ip ∧
        (s'.inode ip).inum = ROOTINO ∧ s'.disk = s.disk) E s := by
      refine wp_iget h.inv (fun ip s1 hinv1 hq1 hx _ =>
        ⟨⟨hq1.walk, hinv1, ?_, ?_, fun _ => ?_⟩, hx, hq1.disk⟩) fun hfull => ?_
      · rw [hx]
        exact h.sane.root
      · rw [hx, hq1.ino]
        exact h.calm.imp_right fun hcalm => hcalm.solid _ .root
      · rw [hx]
        exact .root
      · obtain hr | hblind := hE
        · obtain ⟨j, -, -, h0, -⟩ := hr.2.spare
          have := hfull j
          omega
        · exact hblind _ s
    refine wp_mono ((leaves_iget ROOTINO).wp hget) (fun ip s1 h1 => ?_) fun _ _ h => h
    exact wp_namexLoop_steps h htended hE ⟨⟨h1.1.1, h1.1.2.2⟩, h1.1.2.1, h1.2⟩
      (Nat.lt_succ_self _) hnone hsome
  · rw [if_neg hroot] at hnone hsome ⊢
    obtain ⟨hinv, hq⟩ := h.inv.set_same cwd (fun i => { i with ref := i.ref + 1 })
      (fun j hj => plus_of_ne hj) (by simp [h.inv.slots.ref]) h.pos rfl rfl rfl
    have hinum := hq.inum cwd h.pos
    refine wp_namexLoop_steps h htended hE ⟨⟨⟨hq.walk, hinv, ?_, ?_, fun _ => ?_⟩, hq.disk⟩,
      hinum, ?_⟩ (Nat.lt_succ_self _) hnone hsome
    · rw [hinum]
      exact h.inum
    · rw [hinum, hq.ino]
      exact h.calm.imp_right fun hcalm => hcalm.solid _ (.start ⟨cwd, h.pos, rfl⟩)
    · exact .start ⟨cwd, h.pos, hinum.symm⟩
    · rw [locks_setInode]
      exact update_eq_self ..

end Steps

/-! ## `namei` and `nameiparent` -/

/-- A path is resolved in a transaction. -/
structure Resolving (cnt : ISlot → Nat) (cwd : ISlot) (s : Fs) : Prop extends
    Starts False cnt cwd s, s.Roomy cnt

theorem Resolving.tended (h : Resolving cnt cwd s) : s.Tended cnt := (h.calm.resolve_left id).tended

def named (r : Option (ISlot × List UInt8)) (s : Fs) : Option (Nat × List UInt8) :=
  r.map fun p => ((s.inode p.1).inum, p.2)

theorem wp_namex_named (h : Resolving cnt cwd s) (path : List UInt8) (parent : Bool) :
    wp (namex cwd path parent) (fun r s' => s'.ino = s.ino ∧
      named r s' = steps s.ino parent (s.origin cwd path) (components path)) E s := by
  refine wp_namex_steps h.toStarts h.tended (.inl ⟨id, h.toRoomy⟩)
    (fun s' hleft _ hsteps => ⟨(hleft.walk.still h.tended).1, hsteps.symm⟩)
    fun jp x name s' hat hsteps => ⟨(hat.found.walk.still h.tended).1, ?_⟩
  rw [hsteps, ← hat.inum]
  rfl

theorem wp_namei_resolves (h : Resolving cnt cwd s) (path : List UInt8) :
    wp (namei cwd path) (fun r s' => s'.ino = s.ino ∧ r.map (fun ip => (s'.inode ip).inum)
      = resolve s.ino (s.origin cwd path) (components path)) E s := by
  refine wp_seq (wp_mono (wp_namex_named h path false) (fun r s' h' => ?_) fun _ _ h => h)
  obtain ⟨hino, hr⟩ := h'
  rw [steps_false] at hr
  refine ⟨hino, ?_⟩
  have hfst := congrArg (Option.map Prod.fst) hr
  rw [named, Option.map_map, Option.map_map] at hfst
  rw [Option.map_map]
  exact hfst.trans map_id'

theorem wp_nameiparent_resolves (h : Resolving cnt cwd s) (path : List UInt8) :
    wp (nameiparent cwd path) (fun p s' => s'.ino = s.ino ∧
      named p s' = (resolveParent s.ino (s.origin cwd path) (components path)).filter
        fun x => decide ((s.ino x.1).type = T_DIR)) E s := by
  refine wp_mono (wp_namex_named h path true) (fun p s' h' => ?_) fun _ _ h => h
  obtain ⟨hino, hp⟩ := h'
  rw [steps_true] at hp
  exact ⟨hino, hp⟩

/-- **Paths are resolved.**  `namei` looks up all names, and `nameiparent` all but the last one; but
    `nameiparent` finds nothing if what it comes to is not a directory. -/
theorem paths_resolve (h : Resolving cnt cwd s) (path : List UInt8) :
    ∃ r s₁ p s₂, namei cwd path s = .ok r s₁ ∧ nameiparent cwd path s = .ok p s₂ ∧
      s₁.ino = s.ino ∧ s₂.ino = s.ino ∧
      r.map (fun ip => (s₁.inode ip).inum)
        = resolve s.ino (s.origin cwd path) (components path) ∧
      named p s₂ = (resolveParent s.ino (s.origin cwd path) (components path)).filter
        (fun x => decide ((s.ino x.1).type = T_DIR)) ∧
      ∀ x ∈ named p s₂, resolve s.ino (s.origin cwd path) (components path)
        = Tree.lookup s.ino x.1 x.2 := by
  obtain ⟨r, s₁, hr, hino₁, hres⟩ := exists_ok (wp_namei_resolves h path)
  obtain ⟨p, s₂, hp, hino₂, hpar⟩ := exists_ok (wp_nameiparent_resolves h path)
  refine ⟨r, s₁, p, s₂, hr, hp, hino₁, hino₂, hres, hpar, fun x hx => ?_⟩
  rw [hpar, mem_def, filter_eq_some_iff] at hx
  exact resolve_of_resolveParent hx.1

def inRoot : Fs := (boot mkfsImage).fs.begun

theorem inRoot_resolving : Resolving (boot mkfsImage).held 0 inRoot := by
  have hok := bootable_mkfsImage.ok
  have hino : inRoot.ino = (Fs.empty mkfsImage).ino := bootable_mkfsImage.ino
  have htidy := bootable_mkfsImage.tidy tidy_mkfsImage
  have hheld : (boot mkfsImage).held = plus (fun _ => 0) 0 := held_boot
  have hpos : 0 < (boot mkfsImage).held 0 := by
    rw [hheld]
    exact plus_pos
  -- paths lead to the root directory and to the file
  have hreach : ∀ x, Tree.Reach inRoot.ino (inRoot.Refs (boot mkfsImage).held) x →
      x = 1 ∨ x = 2 := by
    intro x hx
    rw [hino] at hx
    induction hx with
    | root => exact .inl rfl
    | start h =>
      obtain ⟨j, hj, rfl⟩ := h
      have hj0 : j = 0 := by
        by_contra hne
        rw [hheld, plus_of_ne hne] at hj
        exact absurd hj (Nat.lt_irrefl 0)
      rw [hj0]
      exact .inl rfl
    | entry _ hn _ => exact names_mkfsImage hn
  refine ⟨⟨hok.inv.begun, rfl, hok.sane, .inr ⟨fun x hx => ?_, htidy.tended⟩, hpos, hok.slots 0 hpos⟩,
    fun j => ?_, ⟨1, 2, by decide, ?_, ?_⟩⟩
  · rw [hino]
    obtain rfl | rfl := hreach x hx
    · exact fun h => absurd (Image.node_root.1.symm.trans h) (by decide)
    · exact fun h => absurd (Image.node_file.1.symm.trans h) (by decide)
  · revert j
    decide +kernel
  · rw [hheld, plus_of_ne (by decide)]
  · rw [hheld, plus_of_ne (by decide)]

theorem f_is_found : ∃ r s₁, namei 0 [102] inRoot = .ok r s₁ ∧
    r.map (fun ip => (s₁.inode ip).inum) = some 2 := by
  obtain ⟨r, s₁, -, -, hr, -, -, -, hres, -⟩ := paths_resolve inRoot_resolving [102]
  exact ⟨r, s₁, hr, hres.trans (by decide +kernel)⟩

/-- `f/x`, where `f` is a file: the parent is there, and is not found. -/
theorem parent_is_file : Resolving (boot mkfsImage).held 0 inRoot ∧
    resolveParent inRoot.ino (inRoot.origin 0 [102, 47, 120]) (components [102, 47, 120])
      = some (2, [120]) ∧
    ∃ s', nameiparent 0 [102, 47, 120] inRoot = .ok none s' := by
  refine ⟨inRoot_resolving, by decide +kernel, ?_⟩
  obtain ⟨p, s', hp, -, hpar⟩ := exists_ok (wp_nameiparent_resolves inRoot_resolving [102, 47, 120])
  have hnone : named p s' = none := hpar.trans (by decide +kernel)
  rw [map_eq_none_iff.mp hnone] at hp
  exact ⟨s', hp⟩

end Fs

end Xv6
