/-
  Xv6.Lib.ArrayPrefix

  An array with a fill mark, read as the list of the cells below the mark.

  The array is a total function on integer indices, as it is to code that never
  checks its bounds.  Three idioms are covered: the search loop (`findBelow`), a
  store at index `m` followed by `m++` (`cellsTo_push`), and the loop that closes
  the gap of a removed cell, followed by `m--` (`cellsTo_shiftDown`).
-/

import Mathlib.Data.List.Basic
import Mathlib.Logic.Function.Basic
import Mathlib.Tactic

namespace ArrayPrefix

open Function List

variable {α : Type*}
variable {m : Int} {test : α → Bool} {cells : Int → α} {i : Nat}

/-- The cells with index `0, …, m - 1`, in order. -/
def cellsTo (cells : Int → α) (m : Int) : List α :=
  (range m.toNat).map fun i : Nat => cells i

def findBelow (test : α → Bool) (cells : Int → α) (m : Int) : Option Nat :=
  (range m.toNat).find? fun i : Nat => test (cells i)

def shiftDown (cells : Int → α) (i m : Int) : Int → α :=
  (range (m - 1 - i).toNat).foldl
    (fun c (k : Nat) => update c (i + k) (c (i + k + 1))) cells

@[simp] theorem length_cellsTo (cells : Int → α) (m : Int) :
    (cellsTo cells m).length = m.toNat := by
  simp [cellsTo]

theorem getElem_cellsTo (cells : Int → α) (m : Int) (i : Nat)
    (h : i < (cellsTo cells m).length) : (cellsTo cells m)[i] = cells i := by
  simp [cellsTo]

theorem cellsTo_congr {c d : Int → α}
    (h : ∀ i : Int, 0 ≤ i → i < m → c i = d i) : cellsTo c m = cellsTo d m := by
  apply ext_getElem
  · simp
  · intro i hi _
    rw [length_cellsTo] at hi
    rw [getElem_cellsTo, getElem_cellsTo]
    exact h i (by omega) (by omega)

theorem cellsTo_push (cells : Int → α) (hm : 0 ≤ m) (x : α) :
    cellsTo (update cells m x) (m + 1) = cellsTo cells m ++ [x] := by
  have hsucc : (m + 1).toNat = m.toNat + 1 := by omega
  have hcast : ((m.toNat : Nat) : Int) = m := Int.toNat_of_nonneg hm
  have hold : cellsTo (update cells m x) m = cellsTo cells m := by
    apply cellsTo_congr
    intro i _ hi
    exact update_of_ne (by omega) _ _
  unfold cellsTo at hold ⊢
  rw [hsucc, range_succ, map_append, hold]
  simp [hcast]

theorem findBelow_eq (test : α → Bool) (cells : Int → α) (m : Int) :
    findBelow test cells m = (cellsTo cells m).findIdx? test := by
  unfold findBelow cellsTo
  generalize m.toNat = n
  -- one more cell at the end matters only if there was no match before
  induction n with
  | zero => rfl
  | succ n ih =>
    rw [range_succ, find?_append, map_append, findIdx?_append, ih]
    simp only [length_map, length_range]
    by_cases hn : test (cells n)
    · simp [hn]
    · simp [hn]

private theorem shift_rounds (cells : Int → α) (i : Int) (n : Nat) (x : Int) :
    (range n).foldl (fun c (k : Nat) => update c (i + k) (c (i + k + 1))) cells x
      = if i ≤ x ∧ x < i + n then cells (x + 1) else cells x := by
  induction n generalizing x with
  | zero =>
    rw [if_neg (by omega)]
    rfl
  | succ n ih =>
    rw [range_succ, foldl_append, foldl_cons, foldl_nil]
    by_cases hx : x = i + n
    · -- the cell written in this round: its right neighbour is still the original
      subst hx
      rw [update_self, ih, if_neg (by omega), if_pos (by omega)]
    · rw [update_of_ne hx, ih]
      by_cases hin : i ≤ x ∧ x < i + n
      · rw [if_pos hin, if_pos (by omega)]
      · rw [if_neg hin, if_neg (by omega)]

theorem shiftDown_apply (cells : Int → α) (i m x : Int) :
    shiftDown cells i m x = if i ≤ x ∧ x < m - 1 then cells (x + 1) else cells x := by
  rw [shiftDown, shift_rounds]
  by_cases h : i ≤ x ∧ x < m - 1
  · rw [if_pos h, if_pos (by omega)]
  · rw [if_neg h, if_neg (by omega)]

/-! ### The loops one round at a time -/

theorem findBelow_of_hit (hi : (i : Int) < m) (hit : test (cells i) = true)
    (hbelow : ∀ j < i, test (cells (j : Nat)) = false) : findBelow test cells m = some i := by
  refine find?_range_eq_some.mpr ⟨hit, mem_range.mpr (by omega), fun j hj => ?_⟩
  rw [hbelow j hj]
  rfl

theorem findBelow_of_miss (hi : m ≤ i) (hbelow : ∀ j < i, test (cells (j : Nat)) = false) :
    findBelow test cells m = none := by
  refine find?_range_eq_none.mpr fun j hj => ?_
  rw [hbelow j (by omega)]
  rfl

theorem shiftDown_start (cells : Int → α) (i : Int) : shiftDown cells i (i + 1) = cells := by
  funext x
  rw [shiftDown_apply, if_neg (by omega)]

theorem shiftDown_round (cells : Int → α) {i j : Int} (hij : i ≤ j) :
    update (shiftDown cells i (j + 1)) j (shiftDown cells i (j + 1) (j + 1))
      = shiftDown cells i (j + 1 + 1) := by
  funext x
  by_cases hx : x = j
  · subst hx
    rw [update_self, shiftDown_apply, shiftDown_apply, if_neg (by omega), if_pos (by omega)]
  · rw [update_of_ne hx, shiftDown_apply, shiftDown_apply]
    by_cases hin : i ≤ x ∧ x < j + 1 - 1
    · rw [if_pos hin, if_pos (by omega)]
    · rw [if_neg hin, if_neg (by omega)]

theorem cellsTo_shiftDown (cells : Int → α) (h : (i : Int) < m) :
    cellsTo (shiftDown cells i m) (m - 1) = (cellsTo cells m).eraseIdx i := by
  have hlen : i < (cellsTo cells m).length := by
    rw [length_cellsTo]
    omega
  apply ext_getElem
  · rw [length_eraseIdx_of_lt hlen, length_cellsTo, length_cellsTo]
    omega
  · intro k hk hk'
    rw [length_cellsTo] at hk
    rw [getElem_cellsTo, shiftDown_apply, getElem_eraseIdx]
    -- cells before the gap stay, those behind it come from one place further
    by_cases hik : k < i
    · rw [if_neg (by omega), dif_pos hik, getElem_cellsTo]
    · rw [if_pos (by omega), dif_neg hik, getElem_cellsTo]
      congr 1

/-- The search loop followed by the shift loop erases the first match. -/
theorem cellsTo_removeFirst (test : α → Bool) (cells : Int → α)
    (h : findBelow test cells m = some i) :
    cellsTo (shiftDown cells i m) (m - 1) = (cellsTo cells m).eraseP test := by
  rw [findBelow_eq] at h
  have hi : (i : Int) < m := by
    obtain ⟨hlt, -⟩ := findIdx?_eq_some_iff_getElem.mp h
    rw [length_cellsTo] at hlt
    omega
  rw [cellsTo_shiftDown cells hi, eraseP_eq_eraseIdx, h]

end ArrayPrefix
