/-
  Xv6.User.Match

  The regular expressions of grep (grep.c).

  A C string is the list of its characters; where the code looks for the NUL
  the list ends.  A pattern is read from left to right as a list of items, and
  its language is the product of theirs.
-/

import Mathlib.Computability.Language
import Mathlib.Tactic

namespace Xv6.Grep

open Computability List

variable {c : Char} {e : Bool} {text : List Char} {here : List Char → Bool}

/-! ## The matcher -/

/-- `c` matches `x`. -/
def fits (c x : Char) : Bool := c = '.' || c = x

/-- `matchstar`, where `here` is `matchhere(re, ...)`. -/
def matchstar (here : List Char → Bool) (c : Char) : List Char → Bool
  | [] => here []
  | x :: text => here (x :: text) || (fits c x && matchstar here c text)

def matchone (here : List Char → Bool) (c : Char) : List Char → Bool
  | [] => false
  | x :: text => fits c x && here text

def matchhere : List Char → List Char → Bool
  | [], _ => true
  | [c], text => if c = '$' then text.isEmpty else matchone (matchhere []) c text
  | c :: d :: re, text =>
    if d = '*' then matchstar (matchhere re) c text else matchone (matchhere (d :: re)) c text

def matchfrom (re : List Char) : List Char → Bool
  | [] => matchhere re []
  | x :: text => matchhere re (x :: text) || matchfrom re text

def matchRe (re text : List Char) : Bool :=
  if re.head? = some '^' then matchhere re.tail text else matchfrom re text

/-! ## The language of a pattern -/

inductive Item where
  | one (c : Char)
  | star (c : Char)

/-- The items of a pattern without its `^`, and whether it ends in a `$` that is not an item. -/
def items : List Char → List Item × Bool
  | [] => ([], false)
  | [c] => if c = '$' then ([], true) else ([.one c], false)
  | c :: d :: re =>
    if d = '*' then (.star c :: (items re).1, (items re).2)
    else (.one c :: (items (d :: re)).1, (items (d :: re)).2)

/-- The words of one character that `c` matches. -/
def chars (c : Char) : Language Char := {w | ∃ x, fits c x ∧ w = [x]}

def Item.lang : Item → Language Char
  | .one c => chars c
  | .star c => (chars c)∗

def lang : List Item → Language Char
  | [] => 1
  | i :: is => i.lang * lang is

def Begins (L : Language Char) (e : Bool) (text : List Char) : Prop :=
  ∃ w ∈ L, ∃ v, text = w ++ v ∧ (e = true → v = [])

/-- The word that the pattern stands for is in the text: at its start if the
    pattern begins with `^`, at its end if the pattern ends in `$`. -/
def Occurs (re text : List Char) : Prop :=
  if re.head? = some '^' then Begins (lang (items re.tail).1) (items re.tail).2 text
  else ∃ u v, text = u ++ v ∧ Begins (lang (items re).1) (items re).2 v

/-! ## The matcher and the language -/

theorem mem_star {w : List Char} : w ∈ (chars c)∗ ↔ ∀ x ∈ w, fits c x := by
  rw [Language.mem_kstar]
  constructor
  · rintro ⟨ws, rfl, hws⟩ x hx
    obtain ⟨y, hy, hxy⟩ := mem_flatten.mp hx
    obtain ⟨z, hz, rfl⟩ := hws y hy
    obtain rfl := mem_singleton.mp hxy
    exact hz
  · intro hw
    refine ⟨w.map ([·]), ?_, fun y hy => ?_⟩
    · induction w with
      | nil => rfl
      | cons x w ih => rw [map_cons, flatten_cons, ← ih fun y hy => hw y (.tail _ hy)]; rfl
    · obtain ⟨x, hx, rfl⟩ := mem_map.mp hy
      exact ⟨x, hw x hx, rfl⟩

theorem begins_mul {L M : Language Char} :
    Begins (L * M) e text ↔ ∃ w ∈ L, ∃ v, text = w ++ v ∧ Begins M e v := by
  constructor
  · rintro ⟨w, hw, v, rfl, he⟩
    obtain ⟨a, ha, b, hb, rfl⟩ := Language.mem_mul.mp hw
    exact ⟨a, ha, b ++ v, append_assoc .., b, hb, v, rfl, he⟩
  · rintro ⟨a, ha, v, rfl, b, hb, v, rfl, he⟩
    exact ⟨a ++ b, Language.mem_mul.mpr ⟨a, ha, b, hb, rfl⟩, v, (append_assoc ..).symm, he⟩

theorem begins_one : Begins 1 e text ↔ (e = true → text = []) := by
  constructor
  · rintro ⟨w, hw, v, rfl, he⟩ h
    rw [(Language.mem_one w).mp hw, he h, append_nil]
  · intro h
    exact ⟨[], Language.nil_mem_one, text, rfl, h⟩

theorem matchstar_iff :
    matchstar here c text = true ↔ ∃ w ∈ (chars c)∗, ∃ v, text = w ++ v ∧ here v = true := by
  simp only [mem_star]
  induction text with
  | nil =>
    rw [matchstar]
    constructor
    · intro h
      exact ⟨[], fun x hx => absurd hx not_mem_nil, [], rfl, h⟩
    · rintro ⟨w, -, v, hwv, h⟩
      rw [(append_eq_nil_iff.mp hwv.symm).2] at h
      exact h
  | cons x text ih =>
    rw [matchstar, Bool.or_eq_true, Bool.and_eq_true, ih]
    constructor
    · rintro (h | ⟨hx, w, hw, v, rfl, h⟩)
      · exact ⟨[], fun x hx => absurd hx not_mem_nil, x :: text, rfl, h⟩
      · exact ⟨x :: w, forall_mem_cons.mpr ⟨hx, hw⟩, v, rfl, h⟩
    · rintro ⟨w, hw, v, hwv, h⟩
      cases w with
      | nil =>
        rw [nil_append] at hwv
        rw [hwv]
        exact .inl h
      | cons y w =>
        obtain ⟨rfl, rfl⟩ := cons.inj hwv
        obtain ⟨hx, hw⟩ := forall_mem_cons.mp hw
        exact .inr ⟨hx, w, hw, v, rfl, h⟩

theorem matchone_iff :
    matchone here c text = true ↔ ∃ w ∈ chars c, ∃ v, text = w ++ v ∧ here v = true := by
  constructor
  · intro h
    cases text with
    | nil => cases h
    | cons x text =>
      obtain ⟨hx, h⟩ := (Bool.and_eq_true ..).mp h
      exact ⟨[x], ⟨x, hx, rfl⟩, text, rfl, h⟩
  · rintro ⟨w, ⟨x, hx, rfl⟩, v, rfl, h⟩
    exact (Bool.and_eq_true ..).mpr ⟨hx, h⟩

/-- **`matchhere`** finds a word of the pattern at the start of the text. -/
theorem matchhere_iff (re text : List Char) :
    matchhere re text = true ↔ Begins (lang (items re).1) (items re).2 text := by
  -- along the pattern; the text is whatever the items before have left
  induction re using items.induct generalizing text with
  | case1 => simp [matchhere, items, lang, begins_one]
  | case2 => simp [matchhere, items, lang, begins_one]
  | case3 c hc =>
    simp only [matchhere, items, if_neg hc, lang, Item.lang, begins_mul, begins_one]
    simp [matchone_iff]
  | case4 c re ih =>
    simp only [matchhere, items, if_true, lang, Item.lang, begins_mul, matchstar_iff, ih]
  | case5 c d re hd ih =>
    simp only [matchhere, items, if_neg hd, lang, Item.lang, begins_mul, matchone_iff, ih]

theorem matchfrom_iff (re text : List Char) :
    matchfrom re text = true ↔ ∃ u v, text = u ++ v ∧ matchhere re v = true := by
  induction text with
  | nil =>
    constructor
    · intro h
      exact ⟨[], [], rfl, h⟩
    · rintro ⟨u, v, huv, h⟩
      rw [(append_eq_nil_iff.mp huv.symm).2] at h
      exact h
  | cons x text ih =>
    rw [matchfrom, Bool.or_eq_true, ih]
    constructor
    · rintro (h | ⟨u, v, rfl, h⟩)
      · exact ⟨[], x :: text, rfl, h⟩
      · exact ⟨x :: u, v, rfl, h⟩
    · rintro ⟨u, v, huv, h⟩
      cases u with
      | nil =>
        rw [nil_append] at huv
        rw [huv]
        exact .inl h
      | cons y u =>
        obtain ⟨rfl, rfl⟩ := cons.inj huv
        exact .inr ⟨u, v, rfl, h⟩

/-- **The matcher is correct**, for every pattern and every text. -/
theorem match_iff_occurs (re text : List Char) : matchRe re text = true ↔ Occurs re text := by
  unfold matchRe Occurs
  by_cases h : re.head? = some '^'
  · rw [if_pos h, if_pos h, matchhere_iff]
  · rw [if_neg h, if_neg h, matchfrom_iff]
    simp only [matchhere_iff]

example : matchRe "^a.*c$".toList "abbc".toList = true := by decide +kernel

end Xv6.Grep
