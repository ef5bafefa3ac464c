/-
  Xv6.Lib.Bytes

  Byte arrays of a fixed size and little-endian numbers in them.

  What lies behind the end reads as zero and cannot be set.  `getLE b o w` is the
  number in the `w` bytes from offset `o` on, `putLE b o w v` the array with `v`
  stored there; `bit`, `raise` and `lower` take the array as a bitmap.
-/

import Mathlib.Tactic

/-- `N` bytes. -/
abbrev Bytes (N : Nat) := Fin N → UInt8

namespace Bytes

variable {N : Nat}
variable {i j o w : Nat}
variable (b : Bytes N) (x : UInt8) (v : Nat)

/-! ## One byte -/

def get (b : Bytes N) (i : Nat) : UInt8 := if h : i < N then b ⟨i, h⟩ else 0

def set (b : Bytes N) (i : Nat) (x : UInt8) : Bytes N := fun j => if j.val = i then x else b j

def zero : Bytes N := fun _ => 0

@[simp] theorem get_zero (i : Nat) : get (zero : Bytes N) i = 0 := by
  unfold get zero
  split <;> rfl

theorem get_set_self (h : i < N) : get (set b i x) i = x := by
  simp [get, set, h]

theorem get_set_of_ne (h : j ≠ i) : get (set b i x) j = get b j := by
  simp [get, set, h]

/-! ## Little-endian numbers -/

def getLE (b : Bytes N) : Nat → Nat → Nat
  | _, 0 => 0
  | o, w + 1 => (get b o).toNat + 256 * getLE b (o + 1) w

def putLE (b : Bytes N) : Nat → Nat → Nat → Bytes N
  | _, 0, _ => b
  | o, w + 1, v => putLE (set b o (UInt8.ofNat (v % 256))) (o + 1) w (v / 256)

@[simp] theorem getLE_zero (o w : Nat) : getLE (zero : Bytes N) o w = 0 := by
  induction w generalizing o with
  | zero => rfl
  | succ w ih => simp [getLE, ih]

theorem getLE_congr {M : Nat} {b : Bytes N} {c : Bytes M}
    (h : ∀ i, o ≤ i → i < o + w → get b i = get c i) : getLE b o w = getLE c o w := by
  induction w generalizing o with
  | zero => rfl
  | succ w ih =>
    have hfirst := h o (le_refl o) (by omega)
    have hrest := ih (o := o + 1) fun i hi hlt => h i (by omega) (by omega)
    rw [getLE, getLE, hfirst, hrest]

theorem get_putLE_of_outside (h : i < o ∨ o + w ≤ i) : get (putLE b o w v) i = get b i := by
  induction w generalizing b o v with
  | zero => rfl
  | succ w ih =>
    have hne : i ≠ o := by omega
    rw [putLE, ih _ _ (by omega), get_set_of_ne b _ hne]

theorem getLE_putLE_self (h : o + w ≤ N) : getLE (putLE b o w v) o w = v % 256 ^ w := by
  induction w generalizing b o v with
  | zero => simp [getLE, Nat.mod_one]
  | succ w ih =>
    have hrest := ih (set b o (UInt8.ofNat (v % 256))) (o := o + 1) (v / 256) (by omega)
    have hfirst : get (putLE (set b o (UInt8.ofNat (v % 256))) (o + 1) w (v / 256)) o
        = UInt8.ofNat (v % 256) := by
      rw [get_putLE_of_outside _ _ (.inl (by omega)), get_set_self b _ (by omega)]
    have hbyte : (UInt8.ofNat (v % 256)).toNat = v % 256 := by
      rw [UInt8.toNat_ofNat']
      omega
    rw [putLE, getLE, hfirst, hrest, hbyte, pow_succ', Nat.mod_mul]

theorem getLE_putLE_of_disjoint {o' w' : Nat}
    (h : o' + w' ≤ o ∨ o + w ≤ o') : getLE (putLE b o w v) o' w' = getLE b o' w' := by
  apply getLE_congr
  intro i hi hlt
  exact get_putLE_of_outside b v (by omega)

/-! ## Bits -/

/-- The bit `i` counts from the low end of byte `i / 8`. -/
def bit (b : Bytes N) (i : Nat) : Bool := (get b (i / 8)).toNat.testBit (i % 8)

/-- `1 << (i % 8)`. -/
def mask (i : Nat) : UInt8 := UInt8.ofNat (2 ^ (i % 8))

def raise (b : Bytes N) (i : Nat) : Bytes N := set b (i / 8) (get b (i / 8) ||| mask i)

def lower (b : Bytes N) (i : Nat) : Bytes N := set b (i / 8) (get b (i / 8) &&& ~~~ mask i)

theorem toNat_mask (i : Nat) : (mask i).toNat = 2 ^ (i % 8) := by
  have hlt : 2 ^ (i % 8) < 2 ^ 8 := Nat.pow_lt_pow_right (by omega) (by omega)
  rw [mask, UInt8.toNat_ofNat', Nat.mod_eq_of_lt hlt]

theorem testBit_not_mask (i : Nat) (hj : j < 8) :
    (~~~ mask i).toNat.testBit j = decide (j ≠ i % 8) := by
  have hlt : (mask i).toNat < 2 ^ 8 := UInt8.toNat_lt _
  have hsub : (~~~ mask i).toNat = 2 ^ 8 - ((mask i).toNat + 1) := by
    rw [UInt8.toNat_not, UInt8.size]
    omega
  rw [hsub, Nat.testBit_two_pow_sub_succ hlt, toNat_mask, Nat.testBit_two_pow]
  simp [hj, eq_comm]

theorem bit_set (hi : i / 8 < N) :
    bit (set b (i / 8) x) j = if j / 8 = i / 8 then x.toNat.testBit (j % 8) else bit b j := by
  unfold bit
  by_cases h : j / 8 = i / 8
  · rw [if_pos h, h, get_set_self b x hi]
  · rw [if_neg h, get_set_of_ne b x h]

theorem bit_raise (j : Nat) (hi : i / 8 < N) : bit (raise b i) j = (decide (j = i) || bit b j) := by
  have hsame : j / 8 = i / 8 → (decide (i % 8 = j % 8) = decide (j = i)) := by
    intro h
    rw [decide_eq_decide]
    omega
  rw [raise, bit_set b _ hi]
  by_cases h : j / 8 = i / 8
  · rw [if_pos h, UInt8.toNat_or, Nat.testBit_or, toNat_mask, Nat.testBit_two_pow, hsame h,
      Bool.or_comm, bit, h]
  · have hne : j ≠ i := fun he => h (by rw [he])
    rw [if_neg h, decide_eq_false hne, Bool.false_or]

theorem bit_lower (j : Nat) (hi : i / 8 < N) : bit (lower b i) j = (decide (j ≠ i) && bit b j) := by
  have hsame : j / 8 = i / 8 → (decide (j % 8 ≠ i % 8) = decide (j ≠ i)) := by
    intro h
    rw [decide_eq_decide]
    omega
  rw [lower, bit_set b _ hi]
  by_cases h : j / 8 = i / 8
  · rw [if_pos h, UInt8.toNat_and, Nat.testBit_and, testBit_not_mask i (by omega), hsame h,
      Bool.and_comm, bit, h]
  · have hne : j ≠ i := fun he => h (by rw [he])
    rw [if_neg h, decide_eq_true hne, Bool.true_and]

def slice (b : Bytes N) (o m : Nat) : List UInt8 := (List.range m).map fun i => get b (o + i)

def blit (b : Bytes N) (o : Nat) (src : List UInt8) : Bytes N := fun i =>
  if o ≤ i.val ∧ i.val < o + src.length then src.getD (i.val - o) 0 else b i

theorem get_blit (src : List UInt8) (hi : i < N) :
    get (blit b o src) i = if o ≤ i ∧ i < o + src.length then src.getD (i - o) 0 else get b i := by
  simp [get, blit, hi]

end Bytes
