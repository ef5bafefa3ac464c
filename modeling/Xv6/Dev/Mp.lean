/-
  Xv6.Dev.Mp

  The MP configuration table (mp.c) and the two ways to name the current CPU,
  `mycpu` (proc.c:335-352) and `cpunum` (lapic.c:109-135).

  The `break` for an entry of unknown type leaves the `switch` and not the
  loop, which then looks at the same entry again: `mpinit` ends exactly on the
  tables in which it meets known entries only.
-/

import Mathlib.Tactic

namespace Xv6
namespace Mp

open Function

/-- Physical memory. -/
abbrev Memory := ℕ → UInt8

variable {m : Memory} {e p fuel : ℕ}

/-- The low `n` bytes from `a` on as a number. -/
def read (m : Memory) (a : ℕ) : ℕ → ℕ
  | 0 => 0
  | n + 1 => (m a).toNat + 256 * read m (a + 1) n

def sum (m : Memory) (addr len : ℕ) : UInt8 :=
  (List.range len).foldl (fun sum i => sum + m (addr + i)) 0

def mpSignature : ℕ := 0x5F504D5F

def pcmpSignature : ℕ := 0x504D4350

def mpsearch1 (m : Memory) (a len : ℕ) : Option ℕ :=
  ((List.range (len / 16)).map fun i => a + 16 * i).find? fun p =>
    decide (read m p 4 = mpSignature ∧ sum m p 16 = 0)

/-- The EBDA or the last kilobyte of base memory, then the BIOS ROM.  All addresses are read as
    memory; with neither in the BIOS data area the kernel would fault on `P2V(-1024)`. -/
def mpsearch (m : Memory) : Option ℕ :=
  let p := if read m 0x40E 2 * 16 ≠ 0 then read m 0x40E 2 * 16
    else (read m 0x413 2 * 1024 + 2 ^ 32 - 1024) % 2 ^ 32
  (mpsearch1 m p 1024).or (mpsearch1 m 0xF0000 0x10000)

def length (m : Memory) (conf : ℕ) : ℕ := read m (conf + 4) 2

def lapicaddr (m : Memory) (conf : ℕ) : ℕ := read m (conf + 36) 4

def mpconfig (m : Memory) : Option ℕ :=
  (mpsearch m).bind fun mp =>
    let conf := read m (mp + 4) 4
    if conf ≠ 0 ∧ read m conf 4 = pcmpSignature ∧ (m (conf + 6) = 1 ∨ m (conf + 6) = 4) ∧
      sum m conf (length m conf) = 0 then some conf else none

/-- The variables `mpinit` sets. -/
structure Cpus where
  ismp : Bool
  ncpu : ℕ
  apicid : ℕ → UInt8
  lapic : ℕ
  ioapicid : UInt8

def boot : Cpus := ⟨false, 0, fun _ => 0, 0, 0⟩

abbrev NCPU : ℕ := 8

def entrySize (m : Memory) (p : ℕ) : ℕ := if m p = 0 then 20 else if m p ≤ 4 then 8 else 0

def round (m : Memory) (p : ℕ) (s : Cpus) : Cpus :=
  if m p = 0 then
    if s.ncpu < NCPU then
      { s with apicid := update s.apicid s.ncpu (m (p + 1)), ncpu := s.ncpu + 1 }
    else s
  else if m p = 2 then { s with ioapicid := m (p + 1) }
  else if m p ≤ 4 then s
  else { s with ismp := false }

/-- `for(...; p<e; )` -/
def walk (m : Memory) (e : ℕ) : ℕ → ℕ → Cpus → Option Cpus
  | 0, _, _ => none
  | fuel + 1, p, s =>
    if p < e then walk m e fuel (p + entrySize m p) (round m p s) else some s

def mpinit (m : Memory) (fuel : ℕ) : Option Cpus :=
  match mpconfig m with
  | none => some boot
  | some conf =>
    (walk m (conf + length m conf) fuel (conf + 44)
      { boot with ismp := true, lapic := lapicaddr m conf }).map fun s =>
        if s.ismp then s else { s with ncpu := 1, lapic := 0, ioapicid := 0 }

/-! ## The walk -/

def entryAt (m : Memory) (p k : ℕ) : ℕ := (fun q => q + entrySize m q)^[k] p

def Known (m : Memory) (e p : ℕ) : Prop := ∀ k, entryAt m p k < e → m (entryAt m p k) ≤ 4

theorem le_entryAt (k : ℕ) : p ≤ entryAt m p k :=
  id_le_iterate_of_id_le (fun q => Nat.le_add_right q _) k p

theorem known_next (hp : p < e) : Known m e p ↔ m p ≤ 4 ∧ Known m e (p + entrySize m p) := by
  constructor
  · exact fun h => ⟨h 0 hp, fun k => h (k + 1)⟩
  · rintro ⟨h0, h⟩ k
    cases k with
    | zero => exact fun _ => h0
    | succ k => exact h k

theorem walk_known (h : Known m e p) (hfuel : e - p < fuel) (s : Cpus) :
    ∃ s', walk m e fuel p s = some s' := by
  induction fuel generalizing p s with
  | zero => omega
  | succ fuel ih =>
    rw [walk]
    by_cases hp : p < e
    · obtain ⟨htype, hnext⟩ := (known_next hp).mp h
      -- a known entry moves the loop on
      have hsize : 8 ≤ entrySize m p := by
        unfold entrySize
        rw [if_pos htype]
        split <;> omega
      rw [if_pos hp]
      exact ih hnext (by omega) _
    · rw [if_neg hp]
      exact ⟨s, rfl⟩

theorem walk_unknown (h : ¬ Known m e p) (s : Cpus) : walk m e fuel p s = none := by
  induction fuel generalizing p s with
  | zero => rfl
  | succ fuel ih =>
    have hp : p < e := by
      by_contra hp
      exact h fun k hk => absurd (lt_of_le_of_lt (le_entryAt k) hk) hp
    rw [walk, if_pos hp]
    refine ih (fun hnext => ?_) _
    by_cases htype : m p ≤ 4
    · exact h ((known_next hp).mpr ⟨htype, hnext⟩)
    · -- the loop is where it was
      have hsize : entrySize m p = 0 := by
        unfold entrySize
        rw [if_neg (fun h0 => htype (by rw [h0]; decide)), if_neg htype]
      rw [hsize, Nat.add_zero] at hnext
      exact h hnext

theorem ncpu_round {s : Cpus} (h : s.ncpu ≤ NCPU) : (round m p s).ncpu ≤ NCPU := by
  unfold round
  split
  · split
    · rename_i hlt
      exact hlt
    · exact h
  · split
    · exact h
    · split <;> exact h

theorem walk_ncpu {s s' : Cpus} (h : s.ncpu ≤ NCPU) (hw : walk m e fuel p s = some s') :
    s'.ncpu ≤ NCPU := by
  induction fuel generalizing p s with
  | zero => cases hw
  | succ fuel ih =>
    rw [walk] at hw
    split at hw
    · exact ih (ncpu_round h) hw
    · cases hw
      exact h

/-- **`mpinit` ends exactly on tables without unknown entries**, and never registers more than
    `NCPU` processors. -/
theorem mpinit_ends_iff (m : Memory) :
    ((∃ fuel s, mpinit m fuel = some s) ↔
      ∀ conf, mpconfig m = some conf → Known m (conf + length m conf) (conf + 44)) ∧
      ∀ fuel s, mpinit m fuel = some s → s.ncpu ≤ NCPU := by
  cases hconf : mpconfig m with
  | none =>
    simp only [mpinit, hconf]
    refine ⟨iff_of_true ⟨0, boot, rfl⟩ fun conf hc => ?_, fun fuel s hs => ?_⟩
    · cases hc
    · cases hs
      exact Nat.zero_le _
  | some conf =>
    simp only [mpinit, hconf, Option.map_eq_some_iff]
    refine ⟨⟨?_, fun h => ?_⟩, ?_⟩
    · rintro ⟨fuel, s, s1, hw, -⟩ _ ⟨⟩
      by_contra hunknown
      rw [walk_unknown hunknown] at hw
      cases hw
    · obtain ⟨s1, hw⟩ := walk_known (h conf rfl) (Nat.lt_succ_self _)
        { boot with ismp := true, lapic := lapicaddr m conf }
      exact ⟨_, _, s1, hw, rfl⟩
    · rintro fuel s ⟨s1, hw, rfl⟩
      have hle := walk_ncpu (Nat.zero_le _) hw
      split
      · exact hle
      · show 1 ≤ NCPU
        decide

/-- A table with the single entry `entry`, as a BIOS leaves it at the end of base memory; `check`
    makes the bytes add up. -/
def oneEntry (entry : List UInt8) (check : UInt8) : Memory := fun a =>
  if a = 0x414 then 2 else if a = 0x413 then 0x80
  else if 0x9FC00 ≤ a then
    [0x5F, 0x4D, 0x50, 0x5F, 0, 0xF0, 9, 0, 1, 4, 0xA7].getD (a - 0x9FC00) 0
  else if 0x9F02C ≤ a then entry.getD (a - 0x9F02C) 0
  else if a = 0x9F027 then 0xFE else if a = 0x9F026 then 0xE0
  else if 0x9F000 ≤ a then
    [0x50, 0x43, 0x4D, 0x50, UInt8.ofNat (44 + entry.length), 0, 4, check].getD (a - 0x9F000) 0
  else 0

/-- On a table with an entry of type 5 the loop never ends. -/
theorem mpinit_hangs :
    mpconfig (oneEntry [5] 0xBC) = some 0x9F000 ∧ ∀ fuel, mpinit (oneEntry [5] 0xBC) fuel = none := by
  have hconf : mpconfig (oneEntry [5] 0xBC) = some 0x9F000 := by decide +kernel
  refine ⟨hconf, fun fuel => ?_⟩
  simp only [mpinit, hconf]
  rw [walk_unknown fun h => absurd (h 0 (by decide +kernel)) (by decide)]
  rfl

/-! ## The current CPU -/

def lapicid (s : Cpus) (id : ℕ) : ℕ := if s.lapic = 0 then 0 else id

def findCpu (s : Cpus) (apicid : ℕ) : Option ℕ :=
  (List.range s.ncpu).find? fun i => decide ((s.apicid i).toNat = apicid)

/-- The index of the structure `mycpu()` returns. -/
def mycpu (s : Cpus) (id : ℕ) : Option ℕ := findCpu s (lapicid s id)

def cpunum (s : Cpus) (id : ℕ) : Option ℕ := if s.lapic = 0 then some 0 else findCpu s id

theorem findCpu_zero {s : Cpus} : findCpu s 0 = some 0 ↔ 0 < s.ncpu ∧ s.apicid 0 = 0 := by
  have hzero : (s.apicid 0).toNat = 0 ↔ s.apicid 0 = 0 := UInt8.toNat_inj (b := 0)
  unfold findCpu
  rw [List.find?_range_eq_some]
  simp [hzero, and_comm]

/-- **`mycpu` and `cpunum` name the same CPU** exactly where there is a local APIC, or the first
    CPU of the table has the id 0; without a table `mycpu` panics. -/
theorem mycpu_eq_cpunum_iff {s : Cpus} {id : ℕ} (hinit : mpinit m fuel = some s)
    (hid : s.lapic ≠ 0 → ∃ i < s.ncpu, (s.apicid i).toNat = id) :
    (∃ i, mycpu s id = some i ∧ cpunum s id = some i) ↔
      (mpconfig m).isSome ∧ (s.lapic ≠ 0 ∨ 0 < s.ncpu ∧ s.apicid 0 = 0) := by
  have hsome : 0 < s.ncpu ∨ s.lapic ≠ 0 → (mpconfig m).isSome := by
    intro h
    cases hconf : mpconfig m with
    | none =>
      simp only [mpinit, hconf] at hinit
      cases hinit
      simp [boot] at h
    | some conf => rfl
  unfold mycpu cpunum lapicid
  by_cases hl : s.lapic = 0
  · rw [if_pos hl, if_pos hl, ← findCpu_zero]
    constructor
    · rintro ⟨i, hi, ⟨⟩⟩
      exact ⟨hsome (.inl (findCpu_zero.mp hi).1), .inr hi⟩
    · rintro ⟨-, hne | h0⟩
      · exact absurd hl hne
      · exact ⟨0, h0, rfl⟩
  · rw [if_neg hl, if_neg hl]
    refine iff_of_true ?_ ⟨hsome (.inr hl), .inl hl⟩
    obtain ⟨i, hi, hapic⟩ := hid hl
    have hfound : (findCpu s id).isSome :=
      List.find?_isSome.mpr ⟨i, List.mem_range.mpr hi, decide_eq_true hapic⟩
    obtain ⟨j, hj⟩ := Option.isSome_iff_exists.mp hfound
    exact ⟨j, hj, hj⟩

/-- On a machine with one processor and a local APIC. -/
theorem mycpu_eq_cpunum_one : ∃ s, mpinit (oneEntry (List.replicate 20 0) 0xAE) 2 = some s ∧
    ∃ i, mycpu s 0 = some i ∧ cpunum s 0 = some i := by
  have hrun : (mpinit (oneEntry (List.replicate 20 0) 0xAE) 2).any (fun s =>
      decide (s.lapic ≠ 0 ∧ 0 < s.ncpu ∧ (s.apicid 0).toNat = 0)) = true := by decide +kernel
  obtain ⟨s, hs, hP⟩ := (Option.any_eq_true _ _).mp hrun
  obtain ⟨hl, hn, h0⟩ := of_decide_eq_true hP
  refine ⟨s, hs, (mycpu_eq_cpunum_iff hs fun _ => ⟨0, hn, h0⟩).mpr ⟨?_, .inl hl⟩⟩
  decide +kernel

/-- A machine with 640 KB of base memory on which there is no MP structure. -/
def noStructure : Memory := fun a => if a = 0x414 then 2 else if a = 0x413 then 0x80 else 0

/-- Without a table `cpunum` is 0 and `mycpu` panics. -/
theorem mycpu_panics : mpinit noStructure 1 = some boot ∧ cpunum boot 0 = some 0 ∧
    mycpu boot 0 = none := by
  refine ⟨?_, rfl, rfl⟩
  have hconf : mpconfig noStructure = none := by decide +kernel
  rw [mpinit, hconf]

end Mp
end Xv6
