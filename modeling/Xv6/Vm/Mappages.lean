/-
  Xv6.Vm.Mappages

  The mapping law of `mappages` (vm.c:64-89).

  The loop ends when `a == last`, and both are 32-bit addresses, so a range
  may end at the top of the address space.  A directory is looked at through
  its entries: what `walkpgdir` finds, and zero where there is no page table.
-/

import Xv6.Vm.Pages

namespace Xv6

open Function Wp Pgdir

def Pgdir.entry (d : Pgdir) (v : ℕ) : Pte :=
  if (d.tab (v / NPTENTRIES)).isSome then d.pte v else Pte.zero

namespace Vm

variable {d d' : Pgdir} {w u : Bool} {v k pa fuel : ℕ} {s s' : Kmem}

def mapFor (w u : Bool) : ℕ → ℕ → ℕ → ℕ → Pgdir → M (Option (Pgdir × Bool))
  | 0, _, _, _, _ => pure none
  | fuel + 1, a, last, pa, d => do
      match ← walkpgdir d a true with
      | none => pure (some (d, false))
      | some d' =>
        if (d'.pte a).p then fail "remap"
        else
          let next := d'.setPte a ⟨pa, true, w, u⟩
          if a = last then pure (some (next, true))
          else mapFor w u fuel ((a + 1) % 2 ^ 20) last ((pa + 1) % 2 ^ 20) next

/-- `mappages` with its loop as it stands. -/
def mappagesFor (fuel : ℕ) (d : Pgdir) (va size pa : ℕ) (w u : Bool) :
    M (Option (Pgdir × Bool)) :=
  mapFor w u fuel (va / PGSIZE) ((va + size - 1) % 2 ^ 32 / PGSIZE) (pa / PGSIZE) d

structure Laid (d : Pgdir) (w u : Bool) (v k pa : ℕ) (d' : Pgdir) : Prop where
  entry : ∀ x, d'.entry x
    = if v ≤ x ∧ x < v + k then ⟨(pa + (x - v)) % 2 ^ 20, true, w, u⟩ else d.entry x
  keep : ∀ i p, d.tab i = some p → d'.tab i = some p

theorem Laid.refl : Laid d w u v 0 pa d where
  entry := fun x => by rw [if_neg (by omega)]
  keep := fun _ _ h => h

theorem wp_walk_entry {Q : Option Pgdir → Kmem → Prop} {E : String → Kmem → Prop}
    (hnone : Q none s)
    (hsome : ∀ d' s', (d'.tab (v / NPTENTRIES)).isSome → d'.entry = d.entry →
      (∀ i p, d.tab i = some p → d'.tab i = some p) → Q (some d') s') :
    wp (walkpgdir d v true) Q E s := by
  rw [walkpgdir]
  refine wp_ite (fun hthere => hsome d s hthere rfl fun _ _ h => h) fun hmiss => ?_
  rw [if_pos rfl]
  refine wp_seq (wp_kalloc (fun _ => hnone) fun p rest _ => hsome _ _ ?_ ?_ ?_)
  · show (update d.tab _ _ _).isSome = true
    rw [update_self]
    rfl
  · -- a new page table is clear
    funext x
    unfold Pgdir.entry addTable
    by_cases hx : x / NPTENTRIES = v / NPTENTRIES
    · simp [hx, hmiss]
    · simp [hx]
  · intro i q hq
    have hne : i ≠ v / NPTENTRIES := by
      rintro rfl
      exact hmiss (by rw [hq]; rfl)
    show update d.tab _ _ i = _
    rw [update_of_ne hne]
    exact hq

theorem entry_setPte {e : Pte} (htab : (d.tab (v / NPTENTRIES)).isSome) (x : ℕ) :
    (d.setPte v e).entry x = if x = v then e else d.entry x := by
  unfold Pgdir.entry
  by_cases hx : x = v
  · subst hx
    rw [if_pos rfl, setPte_tab, if_pos htab, setPte_self]
  · rw [if_neg hx, setPte_tab, setPte_of_ne hx]

theorem Laid.cons {d1 : Pgdir} (hpa : pa < 2 ^ 20) (htab : (d1.tab (v / NPTENTRIES)).isSome)
    (hentry : d1.entry = d.entry) (hkeep : ∀ i p, d.tab i = some p → d1.tab i = some p)
    (h : Laid (d1.setPte v ⟨pa, true, w, u⟩) w u (v + 1) k ((pa + 1) % 2 ^ 20) d') :
    Laid d w u v (k + 1) pa d' := by
  refine ⟨fun x => ?_, fun i p hp => h.keep i p (hkeep i p hp)⟩
  rw [h.entry, entry_setPte htab, hentry]
  by_cases hx : v + 1 ≤ x ∧ x < v + 1 + k
  · rw [if_pos hx, if_pos (by omega)]
    congr 1
    omega
  · rw [if_neg hx]
    by_cases hxv : x = v
    · rw [if_pos hxv, if_pos (by omega), hxv, Nat.sub_self, Nat.add_zero, Nat.mod_eq_of_lt hpa]
    · rw [if_neg hxv, if_neg (by omega)]

theorem wp_mapFor {Q : Option (Pgdir × Bool) → Kmem → Prop} {E : String → Kmem → Prop}
    (hk : v + k < 2 ^ 20) (hpa : pa < 2 ^ 20) (hfuel : k < fuel)
    (habs : ∀ x, v ≤ x → x ≤ v + k → (d.entry x).p = false)
    (hfail : ∀ j ≤ k, ∀ d' s', Laid d w u v j pa d' → Q (some (d', false)) s')
    (hok : ∀ d' s', Laid d w u v (k + 1) pa d' → Q (some (d', true)) s') :
    wp (mapFor w u fuel v (v + k) pa d) Q E s := by
  induction fuel generalizing v k pa d s with
  | zero => omega
  | succ fuel ih =>
    rw [mapFor]
    refine wp_seq (wp_walk_entry (hfail 0 (Nat.zero_le k) d s .refl)
      fun d1 s1 htab hentry hkeep => ?_)
    have hpte : d1.pte v = d.entry v := by
      rw [← hentry, Pgdir.entry, if_pos htab]
    have hv : ¬ (d1.pte v).p = true := by
      rw [hpte, habs v le_rfl (by omega)]
      exact Bool.false_ne_true
    dsimp only
    rw [if_neg hv]
    refine wp_ite (fun hlast => ?_) fun hlast => ?_
    · obtain rfl : k = 0 := by omega
      exact hok _ s1 (.cons hpa htab hentry hkeep .refl)
    · obtain ⟨k, rfl⟩ := Nat.exists_eq_succ_of_ne_zero (show k ≠ 0 by omega)
      rw [Nat.mod_eq_of_lt (show v + 1 < 2 ^ 20 by omega), show v + (k + 1) = v + 1 + k by omega]
      refine ih (by omega) (Nat.mod_lt _ (by decide)) (by omega) (fun x hx hxk => ?_)
        (fun j hj d' s' h => hfail (j + 1) (by omega) d' s' (.cons hpa htab hentry hkeep h))
        fun d' s' h => hok d' s' (.cons hpa htab hentry hkeep h)
      rw [entry_setPte htab, if_neg (by omega), hentry]
      exact habs x (by omega) (by omega)

theorem mapFor_eq_mapLoop (hk : v + k < 2 ^ 20) (hpa : pa + k < 2 ^ 20) (hfuel : k < fuel) :
    mapFor w u fuel v (v + k) pa d = some <$> mapLoop w u (k + 1) v pa d := by
  induction fuel generalizing v k pa d with
  | zero => omega
  | succ fuel ih =>
    rw [mapFor, mapLoop, map_bind]
    congr 1
    funext r
    cases r with
    | none => rfl
    | some d1 =>
      dsimp only
      by_cases hp : (d1.pte v).p = true
      · rw [if_pos hp, if_pos hp]
        rfl
      · rw [if_neg hp, if_neg hp]
        by_cases hlast : v = v + k
        · obtain rfl : k = 0 := by omega
          rw [if_pos hlast]
          rfl
        · obtain ⟨k, rfl⟩ := Nat.exists_eq_succ_of_ne_zero (show k ≠ 0 by omega)
          rw [if_neg hlast, Nat.mod_eq_of_lt (by omega), Nat.mod_eq_of_lt (by omega),
            show v + (k + 1) = v + 1 + k by omega]
          exact ih (by omega) (by omega) (by omega)

theorem mappages_last {va size : ℕ} (hva : va % PGSIZE = 0) (hsize : 0 < size)
    (hend : va + size ≤ 2 ^ 32) :
    (va + size - 1) % 2 ^ 32 / PGSIZE = va / PGSIZE + (npages size - 1) ∧
      0 < npages size ∧ va / PGSIZE + (npages size - 1) < 2 ^ 20 := by
  unfold npages PGSIZE at *
  omega

theorem mappagesFor_eq {va size : ℕ} (hva : va % PGSIZE = 0) (hsize : 0 < size)
    (hend : va + size ≤ 2 ^ 32) (hpa : pa + size ≤ 2 ^ 32) (hfuel : npages size ≤ fuel) :
    mappagesFor fuel d va size pa w u = some <$> mappages d va size pa w u := by
  obtain ⟨hlast, hpos, htop⟩ := mappages_last hva hsize hend
  have hcount : va / PGSIZE + (npages size - 1) + 1 - va / PGSIZE = npages size - 1 + 1 := by omega
  rw [mappagesFor, mappages, hlast, hcount]
  refine mapFor_eq_mapLoop htop ?_ (by omega)
  unfold npages PGSIZE at *
  omega

/-- **The mapping law.**  Over an unmapped range the loop ends, also at the top of the address
    space.  The entries of the range, all of them or on failure those of its first pages, then
    hold the consecutive pages from `pa` on, and all other entries are as before. -/
theorem mappages_law {va size : ℕ} (w u : Bool) (d : Pgdir) (s : Kmem) (hva : va % PGSIZE = 0)
    (hpa : pa % PGSIZE = 0 ∧ pa < 2 ^ 32) (hsize : 0 < size) (hend : va + size ≤ 2 ^ 32)
    (habs : ∀ k < npages size, (d.entry (va / PGSIZE + k)).p = false)
    (hfuel : npages size ≤ fuel) :
    ∃ d' ok s' n, mappagesFor fuel d va size pa w u s = .ok (some (d', ok)) s' ∧
      (if ok then n = npages size else n < npages size) ∧
      (∀ k < n, walkpgdir d' (va / PGSIZE + k) false s' = .ok (some d') s' ∧
        ∃ e, d'.pte (va / PGSIZE + k) = ⟨e, true, w, u⟩ ∧
          e * PGSIZE = (pa + k * PGSIZE) % 2 ^ 32) ∧
      ∀ x, ¬ (va / PGSIZE ≤ x ∧ x < va / PGSIZE + n) → d'.entry x = d.entry x ∧
        ∀ p, d.tab (x / NPTENTRIES) = some p → d'.tab (x / NPTENTRIES) = some p := by
  obtain ⟨hlast, hpos, htop⟩ := mappages_last hva hsize hend
  -- what the caller finds where `n` pages have been mapped
  have hfound : ∀ n d' s', Laid d w u (va / PGSIZE) n (pa / PGSIZE) d' → ∀ k < n,
      walkpgdir d' (va / PGSIZE + k) false s' = .ok (some d') s' ∧
        ∃ e, d'.pte (va / PGSIZE + k) = ⟨e, true, w, u⟩ ∧
          e * PGSIZE = (pa + k * PGSIZE) % 2 ^ 32 := by
    intro n d' s' h k hk
    have hentry := h.entry (va / PGSIZE + k)
    rw [if_pos (by omega), Pgdir.entry] at hentry
    by_cases htab : (d'.tab ((va / PGSIZE + k) / NPTENTRIES)).isSome = true
    · rw [if_pos htab] at hentry
      refine ⟨by rw [walkpgdir, if_pos htab]; rfl, _, hentry, ?_⟩
      unfold PGSIZE at *
      omega
    · rw [if_neg htab] at hentry
      exact absurd (congrArg Pte.p hentry) Bool.false_ne_true
  have hwp := wp_mapFor (w := w) (u := u) (s := s) (E := fun _ _ => False)
    (Q := fun r s' => ∃ d' ok n, r = some (d', ok) ∧
      (if ok then n = npages size else n < npages size) ∧
      Laid d w u (va / PGSIZE) n (pa / PGSIZE) d') htop
    (Nat.div_lt_of_lt_mul hpa.2) (show npages size - 1 < fuel by omega)
    (fun x hx hxk => by
      obtain ⟨k, rfl⟩ := Nat.exists_eq_add_of_le hx
      exact habs k (by omega))
    (fun j hj d' _ h => ⟨d', false, j, rfl, by simp; omega, h⟩)
    fun d' _ h => ⟨d', true, npages size, rfl, rfl, by
      rwa [Nat.sub_add_cancel hpos] at h⟩
  obtain ⟨r, s', hrun, d', ok, n, rfl, hn, h⟩ := exists_ok hwp
  refine ⟨d', ok, s', n, ?_, hn, hfound n d' s' h, fun x hx => ⟨?_, h.keep _⟩⟩
  · rw [mappagesFor, hlast]
    exact hrun
  · rw [h.entry, if_neg hx]

/-- The devices at the top of the address space, in an empty directory. -/
theorem mappages_law_devspace : ∃ r s', mappagesFor 8192 (new 1) DEVSPACE (2 ^ 32 - DEVSPACE)
    DEVSPACE true false ⟨[2], fun _ _ => 0, []⟩ = .ok (some r) s' := by
  obtain ⟨d', ok, s', n, h, -⟩ := mappages_law true false (new 1) ⟨[2], fun _ _ => 0, []⟩
    (show DEVSPACE % PGSIZE = 0 by decide) (show DEVSPACE % PGSIZE = 0 ∧ _ by decide)
    (by decide) (show DEVSPACE + (2 ^ 32 - DEVSPACE) ≤ 2 ^ 32 by decide) (fun _ _ => rfl)
    (show npages (2 ^ 32 - DEVSPACE) ≤ 8192 by decide)
  exact ⟨(d', ok), s', h⟩

end Vm
end Xv6
