/-
  Xv6.Fs.Effects

  What system calls do to the tree of inodes.
-/

import Xv6.Fs.Path

namespace Xv6

open Function Wp

/-! ## Changes of trees -/

namespace Tree

variable {n m : Tree} {H : Nat → Prop} {d off x y i N o : Nat} {k : Int16} {name : List UInt8}
  {type major minor : Int16}
variable {e : Nat} {n' : Tree}

def addLinks (n : Tree) (x : Nat) (k : Int16) : Tree :=
  update n x { n x with nlink := (n x).nlink + k }

def enter (n : Tree) (d : Nat) (name : List UInt8) (x : Nat) : Tree :=
  update n d { n d with bytes := dirAdd (n d).bytes name x }

def erase (n : Tree) (d off : Nat) : Tree :=
  update n d { n d with bytes := dirErase (n d).bytes off }

def make (n : Tree) (i : Nat) (type major minor : Int16) : Tree :=
  update n i ⟨type, major, minor, 1, []⟩

def write (n : Tree) (x off : Nat) (src : List UInt8) : Tree :=
  update n x { n x with bytes := splice (n x).bytes off src }

def makeDots (n : Tree) (d i : Nat) : Tree :=
  ((n.addLinks d 1).enter i [dot] i).enter i [dot, dot] d

def dropDots (n : Tree) (d x : Nat) : Tree :=
  if (n x).type = T_DIR then n.addLinks d (-1) else n

/-- Directory `x` has no entries but the first two. -/
def Bare (n : Tree) (x : Nat) : Prop := ∀ off, EntryAt (n x).bytes off → off < 2 * DIRENT

inductive Change (n : Tree) : Tree → Prop
  | same : Change n n
  | link {x d : Nat} {name : List UInt8} (htype : (n x).type ≠ 0) (hfile : (n x).type ≠ T_DIR)
      (hdir : (n d).type = T_DIR) (hnew : dirFind (n d).bytes name = none) :
      Change n ((n.addLinks x 1).enter d name x)
  | create {i d : Nat} {name : List UInt8} {type major minor : Int16} (hpos : 0 < i)
      (hfree : n i = Ino.free) (htype : type ≠ 0) (hfile : type ≠ T_DIR)
      (hdir : (n d).type = T_DIR) (hnew : dirFind (n d).bytes name = none) :
      Change n ((n.make i type major minor).enter d name i)
  | mkdir {i d : Nat} {name : List UInt8} {major minor : Int16} (hpos : 0 < i)
      (hfree : n i = Ino.free) (hdir : (n d).type = T_DIR) (hnew : dirFind (n d).bytes name = none) :
      Change n (((n.make i T_DIR major minor).makeDots d i).enter d name i)
  | unlink {x d off : Nat} {name : List UInt8} (hdir : (n d).type = T_DIR)
      (hfound : dirFind (n d).bytes name = some (x, off))
      (hdots : key name ≠ key [dot] ∧ key name ≠ key [dot, dot]) (htype : (n x).type ≠ 0)
      (hlinks : 1 ≤ (n x).nlink) (hbare : (n x).type = T_DIR → n.Bare x) :
      Change n (((n.erase d off).dropDots d x).addLinks x (-1))

structure Reaped (H : Nat → Prop) (n n' : Tree) : Prop where
  step : ∀ i, n' i = n i ∨ (n' i = Ino.free ∧ (n i).type ≠ 0 ∧ (n i).nlink = 0 ∧ ¬ H i)

/-- Every inode without links is one of those in `K`. -/
def Tidy (n : Tree) (K : Nat → Prop) : Prop := ∀ i, (n i).type ≠ 0 → (n i).nlink = 0 → K i

/-! ### The parts of a change -/

@[simp] theorem addLinks_type : (n.addLinks x k y).type = (n y).type := by
  by_cases h : y = x
  · rw [h, addLinks, update_self]
  · rw [addLinks, update_of_ne h]

@[simp] theorem addLinks_bytes : (n.addLinks x k y).bytes = (n y).bytes := by
  by_cases h : y = x
  · rw [h, addLinks, update_self]
  · rw [addLinks, update_of_ne h]

@[simp] theorem addLinks_self : (n.addLinks x k x).nlink = (n x).nlink + k := by
  rw [addLinks, update_self]

theorem addLinks_of_ne (h : y ≠ x) : n.addLinks x k y = n y := update_of_ne h ..

theorem addLinks_cancel : (n.addLinks x 1).addLinks x (-1) = n := by
  have hlinks : (n x).nlink + 1 + -1 = (n x).nlink := by
    rw [Int16.add_assoc]
    exact Int16.add_zero _
  rw [addLinks, addLinks_self, hlinks, addLinks, update_self, update_idem, update_eq_self]

@[simp] theorem enter_type : (n.enter d name x y).type = (n y).type := by
  by_cases h : y = d
  · rw [h, enter, update_self]
  · rw [enter, update_of_ne h]

@[simp] theorem enter_nlink : (n.enter d name x y).nlink = (n y).nlink := by
  by_cases h : y = d
  · rw [h, enter, update_self]
  · rw [enter, update_of_ne h]

@[simp] theorem enter_self : (n.enter d name x d).bytes = dirAdd (n d).bytes name x := by
  rw [enter, update_self]

theorem enter_of_ne (h : y ≠ d) : n.enter d name x y = n y := update_of_ne h ..

@[simp] theorem erase_type : (n.erase d off y).type = (n y).type := by
  by_cases h : y = d
  · rw [h, erase, update_self]
  · rw [erase, update_of_ne h]

@[simp] theorem erase_self : (n.erase d off d).bytes = dirErase (n d).bytes off := by
  rw [erase, update_self]

theorem erase_of_ne (h : y ≠ d) : n.erase d off y = n y := update_of_ne h ..

@[simp] theorem make_self : n.make i type major minor i = ⟨type, major, minor, 1, []⟩ :=
  update_self ..

theorem make_of_ne (h : y ≠ i) : n.make i type major minor y = n y := update_of_ne h ..

@[simp] theorem makeDots_type : (n.makeDots d x y).type = (n y).type := by
  rw [makeDots, enter_type, enter_type, addLinks_type]

/-! ### What entries name -/

@[simp] theorem names_addLinks : (n.addLinks x k).Names d off y ↔ n.Names d off y := by
  constructor <;> rintro ⟨h1, h2, h3⟩ <;> exact ⟨by simpa using h1, by simpa using h2, by simpa using h3⟩

theorem Names.of_enter (hwhole : DIRENT ∣ (n d).bytes.length)
    (h : (n.enter d name x).Names e off y) :
    n.Names e off y ∨ (e = d ∧ off = dirSlot (n d).bytes ∧ y = x % 65536) := by
  obtain ⟨hdir, hused, hinum⟩ := h
  by_cases he : e = d
  · subst he
    rw [enter_type] at hdir
    rw [enter_self] at hused hinum
    by_cases hoff : off = dirSlot (n e).bytes
    · rw [hoff, entry_dirAdd_self hwhole, direntInum_dirent] at hinum
      exact .inr ⟨rfl, hoff, hinum.symm⟩
    · obtain ⟨hle, hmod⟩ := dirSlot_le hwhole
      have hentry : entry (dirAdd (n e).bytes name x) off = entry (n e).bytes off :=
        entry_dirAdd_of_ne hwhole hused.dvd hoff
      rw [dirAdd, entryAt_splice hwhole hle hmod (length_dirent x name), if_neg hoff] at hused
      rw [hentry] at hinum
      exact .inl ⟨hdir, hused, hinum⟩
  · rw [enter_of_ne he] at hdir hused hinum
    exact .inl ⟨hdir, hused, hinum⟩

theorem Names.of_erase (hwhole : DIRENT ∣ (n d).bytes.length)
    (ho : o ∈ offsets 0 (n d).bytes.length) (h : (n.erase d o).Names e off y) :
    n.Names e off y ∧ ¬ (e = d ∧ off = o) := by
  obtain ⟨hdir, hused, hinum⟩ := h
  by_cases he : e = d
  · subst he
    rw [erase_type] at hdir
    rw [erase_self] at hused hinum
    obtain ⟨hold, hne⟩ := (entryAt_dirErase hwhole ho).mp hused
    rw [entry_dirErase_of_ne ho hold.dvd hne] at hinum
    exact ⟨⟨hdir, hold, hinum⟩, fun hoff => hne hoff.2⟩
  · rw [erase_of_ne he] at hdir hused hinum
    exact ⟨⟨hdir, hused, hinum⟩, fun hd => he hd.1⟩

theorem Names.of_make (h : (n.make i type major minor).Names e off y) :
    n.Names e off y ∧ e ≠ i := by
  obtain ⟨hdir, hused, hinum⟩ := h
  have he : e ≠ i := by
    intro he
    rw [he, make_self] at hused
    exact absurd (mem_offsets.mp hused.1).1 (Nat.not_lt_zero off)
  rw [make_of_ne he] at hdir hused hinum
  exact ⟨⟨hdir, hused, hinum⟩, he⟩

theorem Sane.addLinks (h : n.Sane N) : (n.addLinks x k).Sane N := by
  refine ⟨h.root, fun d hd => ?_, fun d off y hn => h.entry d off y (names_addLinks.mp hn)⟩
  rw [addLinks_type] at hd
  rw [addLinks_bytes]
  exact h.whole d hd

theorem Sane.enter (h : n.Sane N) (hdir : (n d).type = T_DIR) (hx : x < N) :
    (n.enter d name x).Sane N := by
  refine ⟨h.root, fun e he => ?_, fun e off y hn => ?_⟩
  · rw [enter_type] at he
    by_cases hed : e = d
    · rw [hed, enter_self]
      exact dvd_dirAdd (h.whole d hdir)
    · rw [enter_of_ne hed]
      exact h.whole e he
  · rcases hn.of_enter (h.whole d hdir) with hn | ⟨-, -, rfl⟩
    · exact h.entry e off y hn
    · exact lt_of_le_of_lt (Nat.mod_le x _) hx

theorem Sane.erase (h : n.Sane N) (hdir : (n d).type = T_DIR)
    (ho : o ∈ offsets 0 (n d).bytes.length) : (n.erase d o).Sane N := by
  refine ⟨h.root, fun e he => ?_, fun e off y hn => h.entry e off y
    (hn.of_erase (h.whole d hdir) ho).1⟩
  rw [erase_type] at he
  by_cases hed : e = d
  · rw [hed, erase_self, length_dirErase (h.whole d hdir) ho]
    exact h.whole d hdir
  · rw [erase_of_ne hed]
    exact h.whole e he

theorem Sane.make (h : n.Sane N) : (n.make i type major minor).Sane N := by
  refine ⟨h.root, fun d hd => ?_, fun e off y hn => h.entry e off y hn.of_make.1⟩
  by_cases hi : d = i
  · rw [hi, make_self]
    exact dvd_zero _
  · rw [make_of_ne hi] at hd ⊢
    exact h.whole d hd

theorem Sane.write {src : List UInt8} (h : n.Sane N) (hfile : (n x).type ≠ T_DIR) :
    (n.write x off src).Sane N := by
  have hne : ∀ e, (n.write x off src e).type = T_DIR → e ≠ x := by
    intro e hdir he
    rw [he, Tree.write, update_self] at hdir
    exact hfile hdir
  refine ⟨h.root, fun d hd => ?_, fun e o y hn => ?_⟩
  · have he := hne d hd
    rw [Tree.write, update_of_ne he] at hd ⊢
    exact h.whole d hd
  · obtain ⟨hdir, hused, hinum⟩ := hn
    have he := hne e hdir
    rw [Tree.write, update_of_ne he] at hdir hused hinum
    exact h.entry e o y ⟨hdir, hused, hinum⟩

/-! ### Freeing -/

theorem Reaped.refl : Reaped H n n := ⟨fun _ => .inl rfl⟩

theorem Reaped.free (htype : (n i).type ≠ 0) (hn : (n i).nlink = 0) (hH : ¬ H i) :
    Reaped H n (update n i Ino.free) := by
  refine ⟨fun j => ?_⟩
  by_cases hj : j = i
  · rw [hj, update_self]
    exact .inr ⟨rfl, htype, hn, hH⟩
  · rw [update_of_ne hj]
    exact .inl rfl

theorem Reaped.mono {H' : Nat → Prop} (h : Reaped H n n') (hH : ∀ i, H' i → H i) : Reaped H' n n' :=
  ⟨fun i => (h.step i).imp_right fun ⟨hfree, ht, hn, hi⟩ => ⟨hfree, ht, hn, fun hi' => hi (hH i hi')⟩⟩

theorem Reaped.addLinks (h : Reaped H n n') (hx : H x) :
    Reaped H (n.addLinks x k) (n'.addLinks x k) := by
  refine ⟨fun i => ?_⟩
  by_cases hi : i = x
  · subst hi
    have heq : n' i = n i := (h.step i).resolve_right fun hfree => hfree.2.2.2 hx
    rw [Tree.addLinks, Tree.addLinks, update_self, update_self, heq]
    exact .inl rfl
  · rw [addLinks_of_ne hi, addLinks_of_ne hi]
    exact h.step i

theorem Reaped.trans (h : Reaped H n m) (h' : Reaped H m n') : Reaped H n n' := by
  refine ⟨fun i => ?_⟩
  rcases h'.step i with heq | ⟨hfree, ht, hn, hH⟩
  · rw [heq]
    exact h.step i
  · rcases h.step i with heq | ⟨hfree', ht', hn', hH'⟩
    · rw [heq] at ht hn
      exact .inr ⟨hfree, ht, hn, hH⟩
    · exact .inr ⟨hfree, ht', hn', hH'⟩

end Tree

namespace Fs

variable {s s' s'' : Fs} {c cnt cnt' cnt'' : ISlot → Nat} {ip jp : ISlot} {i x off : Nat}
  {lax : Prop} {name src : List UInt8}

/-! ## What every part of a call keeps -/

def Tidy (s : Fs) (cnt : ISlot → Nat) : Prop := Tree.Tidy s.ino (s.Held cnt)

theorem Tidy.tended (h : s.Tidy cnt) : s.Tended cnt := fun x _ => h x

structure Moves (c cnt cnt' : ISlot → Nat) (s s' : Fs) : Prop where
  kept : Kept c s s'
  sane : Tree.Sane s.ino s.sb.ninodes → Tree.Sane s'.ino s.sb.ninodes
  tidy : s.Tidy cnt → s'.Tidy cnt'

theorem Moves.trans (h : Moves c cnt cnt' s s') (h' : Moves c cnt' cnt'' s' s'') :
    Moves c cnt cnt'' s s'' where
  kept := h.kept.trans h'.kept
  sane := by
    intro hw
    have hw' := h'.sane
    rw [h.kept.sb] at hw'
    exact hw' (h.sane hw)
  tidy := fun ht => h'.tidy (h.tidy ht)

theorem Moves.mono {c' : ISlot → Nat} (h : Moves c' cnt cnt' s s') (hle : ∀ j, 0 < c j → 0 < c' j) :
    Moves c cnt cnt' s s' :=
  { h with kept := h.kept.mono hle }

theorem Moves.less (h : Moves (plus c ip) cnt cnt' s s') : Moves c cnt cnt' s s' :=
  h.mono fun _ => plus_pos_of_pos

theorem Held.mono (h : s.Held cnt i) (hle : ∀ j, 0 < cnt j → 0 < cnt' j) : s.Held cnt' i := by
  obtain ⟨j, hj, hinum, hv⟩ := h
  exact ⟨j, hle j hj, hinum, hv⟩

theorem Kept.moves (h : Kept cnt s s') (hino : s'.ino = s.ino) (hle : ∀ j, 0 < cnt j → 0 < cnt' j) :
    Moves cnt cnt cnt' s s' where
  kept := h
  sane := fun hw => by rw [hino]; exact hw
  tidy := by
    intro ht i
    rw [hino]
    exact fun htype hn => (h.held (ht i htype hn)).mono hle

theorem Quiet.moves (h : Quiet cnt s s') : Moves cnt cnt cnt s s' :=
  h.kept.moves h.ino fun _ hj => hj

theorem Quiet.moves_plus (h : Quiet cnt s s') : Moves cnt cnt (plus cnt ip) s s' :=
  h.kept.moves h.ino fun _ hj => plus_pos_of_pos hj

theorem Walk.moves (h : Walk cnt s s') : Moves cnt cnt cnt s s' where
  kept := h.kept
  sane := h.sane
  tidy := by
    intro ht i
    rw [(h.still ht.tended).1]
    exact fun htype hn => h.kept.held (ht i htype hn)

theorem Found.moves {s0 : Fs} (h : Found lax cnt s0 s ip) : Moves cnt cnt (plus cnt ip) s0 s where
  kept := h.walk.kept
  sane := h.walk.sane
  tidy := fun ht i htype hn =>
    ((h.walk.moves.tidy ht) i htype hn).mono fun _ hj => plus_pos_of_pos hj

theorem Dropped.moves (h : Dropped cnt s s' ip) (hinv : s.Inv (plus cnt ip) none) :
    Moves cnt (plus cnt ip) cnt s s' where
  kept := h.kept
  sane := by
    intro hw
    by_cases hl : s.Last cnt ip
    · rw [(h.free hl).1]
      exact hw.free
    · rw [(h.same hl).1]
      exact hw
  tidy := by
    intro ht i htype hn
    by_cases hl : s.Last cnt ip
    · have hfree := (h.free hl).1
      have hi : i ≠ (s.inode ip).inum := by
        intro hi
        rw [hfree, hi, update_self] at htype
        exact htype rfl
      rw [hfree, update_of_ne hi] at htype hn
      obtain ⟨j, hj, hinum, hv⟩ := ht i htype hn
      have hne : j ≠ ip := by
        intro hne
        rw [hne] at hinum
        exact hi hinum.symm
      rw [plus_of_ne hne] at hj
      exact h.kept.held ⟨j, hj, hinum, hv⟩
    · rw [(h.same hl).1] at htype hn
      obtain ⟨j, hj, hinum, hv⟩ := ht i htype hn
      refine h.kept.held ⟨j, ?_, hinum, hv⟩
      -- the slot of an inode without links has another reference
      by_cases hne : j = ip
      · subst hne
        rw [← hinum] at hn
        exact Nat.pos_of_ne_zero fun h0 => hl ⟨h0, hv, hn⟩
      · rwa [plus_of_ne hne] at hj

theorem Dropped.reaped (h : Dropped cnt s s' ip) (hinv : s.Inv (plus cnt ip) none) :
    Tree.Reaped (s.Refs cnt) s.ino s'.ino ∧ Spent s s' [s.sb.iblock (s.inode ip).inum] 0 := by
  by_cases hl : s.Last cnt ip
  · obtain ⟨hfree, hspent⟩ := h.free hl
    obtain ⟨h0, hv, hn⟩ := hl
    refine ⟨?_, hspent⟩
    rw [hfree]
    refine Tree.Reaped.free ?_ hn ?_
    · rw [← (hinv.copy_eq plus_pos hv).1]
      exact hinv.slots.typed ip plus_pos hv
    · rintro ⟨j, hj, hinum⟩
      have heq := hinv.slots.uniq j ip (plus_pos_of_pos hj) plus_pos hinum
      rw [heq, h0] at hj
      exact Nat.lt_irrefl 0 hj
  · obtain ⟨hino, hlg⟩ := h.same hl
    refine ⟨?_, [], by simp, fun c hc => .inl ?_⟩
    · rw [hino]
      exact Tree.Reaped.refl
    · rwa [hlg] at hc

end Fs
end Xv6
