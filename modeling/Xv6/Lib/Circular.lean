/-
  Xv6.Lib.Circular

  Circular doubly linked lists through a header node.

  The two pointer fields of all nodes are two functions (`Links`).  They spell
  out a list `l` when consecutive nodes of `h :: l ++ [h]` point at each other
  (`Circle`).  `unlink` and `pushFront` are sequences of single assignments;
  each is shown to be the edit of the list it is meant to be.
-/

import Mathlib.Tactic

namespace Circular

open Function List

variable {ν : Type*} [DecidableEq ν]

/-- The fields `next` and `prev` of all nodes. -/
@[ext] structure Links (ν : Type*) where
  next : ν → ν
  prev : ν → ν

namespace Links

/-- `x->next = y`. -/
def setNext (L : Links ν) (x y : ν) : Links ν := { L with next := update L.next x y }

/-- `x->prev = y`. -/
def setPrev (L : Links ν) (x y : ν) : Links ν := { L with prev := update L.prev x y }

/-- `b->next->prev = b->prev; b->prev->next = b->next`. -/
def unlink (L : Links ν) (b : ν) : Links ν :=
  let L := L.setPrev (L.next b) (L.prev b)
  L.setNext (L.prev b) (L.next b)

/-- `b->next = h->next; b->prev = h; h->next->prev = b; h->next = b`. -/
def pushFront (L : Links ν) (h b : ν) : Links ν :=
  let L := L.setNext b (L.next h)
  let L := L.setPrev b h
  let L := L.setPrev (L.next h) b
  L.setNext h b

def flip (L : Links ν) : Links ν := ⟨L.prev, L.next⟩

/-- Two nodes point at each other. -/
def Joins (L : Links ν) (x y : ν) : Prop := L.next x = y ∧ L.prev y = x

end Links

structure Circle (L : Links ν) (h : ν) (l : List ν) : Prop where
  joined : (h :: l ++ [h]).IsChain L.Joins
  nodup : (h :: l).Nodup

variable {L : Links ν} {h b : ν} {l : List ν}

omit [DecidableEq ν] in
/-- Only the `next` of nodes that are not the last and the `prev` of nodes that
    are not the first matter. -/
theorem isChain_imp_inner {R S : ν → ν → Prop} {l : List ν} (hl : l.IsChain R)
    (himp : ∀ x ∈ l.dropLast, ∀ y ∈ l.tail, R x y → S x y) : l.IsChain S := by
  induction l with
  | nil => exact .nil
  | cons x l ih =>
    cases l with
    | nil => exact .singleton x
    | cons y l =>
      rw [isChain_cons_cons] at hl ⊢
      obtain ⟨hxy, hrest⟩ := hl
      refine ⟨himp x (by simp) y (by simp) hxy, ih hrest fun u hu v hv => ?_⟩
      apply himp u
      · rw [dropLast_cons_of_ne_nil (by simp)]
        exact mem_cons_of_mem x hu
      · exact mem_of_mem_tail hv

omit [DecidableEq ν] in
theorem circle_nil (hnext : L.next h = h) (hprev : L.prev h = h) : Circle L h [] where
  joined := .cons_cons ⟨hnext, hprev⟩ (.singleton h)
  nodup := nodup_singleton h

omit [DecidableEq ν] in
theorem Circle.flip (hc : Circle L h l) : Circle L.flip h l.reverse where
  joined := by
    have hrev : (h :: l ++ [h]).reverse = h :: l.reverse ++ [h] := by simp
    rw [← hrev, isChain_reverse]
    refine hc.joined.imp fun x y hxy => ?_
    exact ⟨hxy.2, hxy.1⟩
  nodup := by
    have hn := nodup_cons.mp hc.nodup
    exact nodup_cons.mpr ⟨fun hm => hn.1 (mem_reverse.mp hm), nodup_reverse.mpr hn.2⟩

omit [DecidableEq ν] in
theorem Circle.next_header {x : ν} {rest : List ν} (hc : Circle L h l) (hl : l ++ [h] = x :: rest) :
    L.next h = x ∧ L.prev x = h := by
  have hj := hc.joined
  rw [cons_append, hl, isChain_cons_cons] at hj
  exact hj.1

theorem Circle.pushFront (hc : Circle L h l) (hb : b ∉ h :: l) :
    Circle (L.pushFront h b) h (b :: l) := by
  have hbh : b ≠ h := fun he => hb (he ▸ mem_cons_self)
  have hbl : b ∉ l := fun hm => hb (mem_cons_of_mem h hm)
  obtain ⟨hhl, hnodup⟩ := nodup_cons.mp hc.nodup
  obtain ⟨x, rest, hx⟩ : ∃ x rest, l ++ [h] = x :: rest := by
    cases l with
    | nil => exact ⟨h, [], rfl⟩
    | cons y l => exact ⟨y, l ++ [h], rfl⟩
  have hend : (l ++ [h]).Nodup := by
    rw [nodup_append]
    refine ⟨hnodup, nodup_singleton h, ?_⟩
    intro u hu v hv
    rw [mem_singleton] at hv
    subst hv
    exact fun he => hhl (he ▸ hu)
  have hxb : x ≠ b := by
    have hmem : x ∈ l ++ [h] := by rw [hx]; exact mem_cons_self
    rintro rfl
    rcases mem_append.mp hmem with hm | hm
    · exact hbl hm
    · exact hbh (mem_singleton.mp hm)
  have hnext : L.next h = x := (hc.next_header hx).1
  have hnext' : ∀ u, (L.pushFront h b).next u = if u = h then b else if u = b then x else L.next u := by
    intro u
    by_cases huh : u = h
    · simp [Links.pushFront, Links.setNext, huh]
    · by_cases hub : u = b
      · simp [Links.pushFront, Links.setNext, Links.setPrev, hub, hbh, hnext]
      · simp [Links.pushFront, Links.setNext, Links.setPrev, huh, hub]
  have hprev' : ∀ u, (L.pushFront h b).prev u = if u = x then b else if u = b then h else L.prev u := by
    intro u
    have hfirst : update L.next b (L.next h) h = x := by
      rw [update_of_ne hbh.symm, hnext]
    by_cases hux : u = x
    · simp [Links.pushFront, Links.setNext, Links.setPrev, hfirst, hux]
    · by_cases hub : u = b
      · subst hub
        simp [Links.pushFront, Links.setNext, Links.setPrev, hfirst, hux]
      · simp [Links.pushFront, Links.setNext, Links.setPrev, hfirst, hux, hub]
  refine ⟨?_, ?_⟩
  · rw [cons_append, cons_append, hx, isChain_cons_cons, isChain_cons_cons]
    refine ⟨⟨?_, ?_⟩, ⟨?_, ?_⟩, ?_⟩
    · rw [hnext', if_pos rfl]
    · rw [hprev', if_neg (Ne.symm hxb), if_pos rfl]
    · rw [hnext', if_neg hbh, if_pos rfl]
    · rw [hprev', if_pos rfl]
    · -- behind the new node nothing has changed
      have hj := hc.joined
      rw [cons_append, hx] at hj
      refine isChain_imp_inner hj.tail fun u hu v hv huv => ?_
      have hul : u ∈ l := by
        rw [← hx, dropLast_concat] at hu
        exact hu
      have hvx : v ≠ x := by
        rw [hx] at hend
        rintro rfl
        exact (nodup_cons.mp hend).1 hv
      have hvb : v ≠ b := by
        have hmem : v ∈ l ++ [h] := by rw [hx]; exact mem_of_mem_tail hv
        rintro rfl
        rcases mem_append.mp hmem with hm | hm
        · exact hbl hm
        · exact hbh (mem_singleton.mp hm)
      refine ⟨?_, ?_⟩
      · rw [hnext', if_neg fun he : u = h => hhl (he ▸ hul), if_neg fun he : u = b => hbl (he ▸ hul)]
        exact huv.1
      · rw [hprev', if_neg hvx, if_neg hvb]
        exact huv.2
  · rw [nodup_cons, nodup_cons]
    refine ⟨?_, hbl, hnodup⟩
    rw [mem_cons, not_or]
    exact ⟨Ne.symm hbh, hhl⟩

theorem Circle.unlink {xs ys : List ν} (hc : Circle L h (xs ++ b :: ys)) :
    Circle (L.unlink b) h (xs ++ ys) := by
  -- the neighbours of `b`
  obtain ⟨front, u, hu⟩ : ∃ front u, h :: xs = front ++ [u] :=
    ⟨_, _, (dropLast_concat_getLast (cons_ne_nil h xs)).symm⟩
  obtain ⟨v, back, hv⟩ : ∃ v back, ys ++ [h] = v :: back := by
    cases ys with
    | nil => exact ⟨h, [], rfl⟩
    | cons y ys => exact ⟨y, ys ++ [h], rfl⟩
  have hall : h :: (xs ++ b :: ys) ++ [h] = front ++ u :: b :: v :: back := by
    have : h :: (xs ++ b :: ys) ++ [h] = (h :: xs) ++ b :: (ys ++ [h]) := by simp
    rw [this, hu, hv]
    simp
  have hrest : h :: (xs ++ ys) ++ [h] = front ++ u :: v :: back := by
    have : h :: (xs ++ ys) ++ [h] = (h :: xs) ++ (ys ++ [h]) := by simp
    rw [this, hu, hv]
    simp
  have hj := hc.joined
  rw [hall, isChain_append_cons_cons] at hj
  obtain ⟨hfront, hub, hbv⟩ := hj
  rw [isChain_cons_cons] at hbv
  obtain ⟨hbv, hback⟩ := hbv
  have hnodup : (h :: xs ++ b :: ys).Nodup := hc.nodup
  obtain ⟨hxs, hbys, hdisj⟩ := nodup_append.mp hnodup
  obtain ⟨hbys', hys⟩ := nodup_cons.mp hbys
  have hu_mem : u ∈ h :: xs := by rw [hu]; simp
  have hv_mem : v ∈ ys ++ [h] := by rw [hv]; simp
  have hend : (ys ++ [h]).Nodup := by
    rw [nodup_append]
    refine ⟨hys, nodup_singleton h, ?_⟩
    intro a ha c hc'
    rw [mem_singleton] at hc'
    subst hc'
    exact fun he => hdisj c mem_cons_self a (mem_cons_of_mem b ha) he.symm
  have hvb : v ≠ b := by
    rintro rfl
    rcases mem_append.mp hv_mem with hm | hm
    · exact hbys' hm
    · exact hdisj h mem_cons_self v mem_cons_self (mem_singleton.mp hm).symm
  have hprevb : (L.setPrev (L.next b) (L.prev b)).prev b = u := by
    show update L.prev (L.next b) (L.prev b) b = u
    rw [hbv.1, update_of_ne hvb.symm, hub.2]
  have hnext' : ∀ w, (L.unlink b).next w = if w = u then v else L.next w := by
    intro w
    unfold Links.unlink
    dsimp only
    rw [hprevb]
    show update L.next u (L.next b) w = _
    rw [hbv.1, update_apply]
  have hprev' : ∀ w, (L.unlink b).prev w = if w = v then u else L.prev w := by
    intro w
    show update L.prev (L.next b) (L.prev b) w = _
    rw [hbv.1, hub.2, update_apply]
  refine ⟨?_, ?_⟩
  · rw [hrest, isChain_append_cons_cons]
    refine ⟨?_, ⟨?_, ?_⟩, ?_⟩
    · refine isChain_imp_inner hfront fun w hw z hz hwz => ⟨?_, ?_⟩
      · rw [hnext', if_neg]
        · exact hwz.1
        · rintro rfl
          rw [dropLast_concat] at hw
          rw [hu, nodup_append] at hxs
          exact hxs.2.2 w hw w (mem_singleton_self w) rfl
      · rw [hprev', if_neg]
        · exact hwz.2
        · rintro rfl
          rw [← hu, tail_cons] at hz
          rcases mem_append.mp hv_mem with hm | hm
          · exact hdisj z (mem_cons_of_mem h hz) z (mem_cons_of_mem b hm) rfl
          · rw [mem_singleton] at hm
            subst hm
            exact (nodup_cons.mp hxs).1 hz
    · rw [hnext', if_pos rfl]
    · rw [hprev', if_pos rfl]
    · refine isChain_imp_inner hback fun w hw z hz hwz => ⟨?_, ?_⟩
      · rw [hnext', if_neg]
        · exact hwz.1
        · rintro rfl
          rw [← hv, dropLast_concat] at hw
          exact hdisj w hu_mem w (mem_cons_of_mem b hw) rfl
      · rw [hprev', if_neg]
        · exact hwz.2
        · rintro rfl
          rw [hv] at hend
          exact (nodup_cons.mp hend).1 hz
  · have hsub : (h :: (xs ++ ys)).Sublist (h :: (xs ++ b :: ys)) :=
      .cons_cons h ((List.Sublist.refl xs).append (sublist_cons_self b ys))
    exact hsub.nodup hc.nodup

/-- `for (b = start; b != h; b = next(b)) if (p(b)) return b;`.  The result is `some none` when the
    loop comes back to the header, and `none` when it is not through after `fuel` rounds. -/
def walk (next : ν → ν) (h : ν) (p : ν → Bool) : ℕ → ν → Option (Option ν)
  | 0, _ => none
  | fuel + 1, b =>
    if b = h then some none
    else if p b then some (some b)
    else walk next h p fuel (next b)

/-- **The loop finds the first node of the list**, and comes to an end. -/
theorem Circle.walk_next (hc : Circle L h l) (p : ν → Bool) {fuel : ℕ} (hfuel : l.length < fuel) :
    walk L.next h p fuel (L.next h) = some (l.find? p) := by
  -- from any node on: the rest of the list is ahead
  have haux : ∀ (l : List ν) (x : ν) (fuel : ℕ), (x :: l ++ [h]).IsChain L.Joins → h ∉ l →
      l.length < fuel → walk L.next h p fuel (L.next x) = some (l.find? p) := by
    intro l
    induction l with
    | nil =>
      intro x fuel hj _ hfuel
      obtain ⟨fuel, rfl⟩ : ∃ m, fuel = m + 1 := ⟨fuel - 1, by omega⟩
      have hx : L.next x = h := (isChain_cons_cons.mp hj).1.1
      rw [walk, if_pos hx, List.find?_nil]
    | cons y l ih =>
      intro x fuel hj hh hfuel
      obtain ⟨fuel, rfl⟩ : ∃ m, fuel = m + 1 := ⟨fuel - 1, by omega⟩
      obtain ⟨hxy, hrest⟩ := isChain_cons_cons.mp hj
      have hyh : y ≠ h := fun he => hh (he ▸ mem_cons_self)
      rw [walk, hxy.1, if_neg hyh, List.find?_cons]
      by_cases hp : p y
      · rw [if_pos hp, hp]
      · rw [if_neg hp, eq_false_of_ne_true hp]
        simp only [length_cons] at hfuel
        exact ih y fuel hrest (fun hm => hh (mem_cons_of_mem y hm)) (by omega)
  exact haux l h fuel hc.joined (nodup_cons.mp hc.nodup).1 hfuel

theorem Circle.walk_prev (hc : Circle L h l) (p : ν → Bool) {fuel : ℕ} (hfuel : l.length < fuel) :
    walk L.prev h p fuel (L.prev h) = some (l.reverse.find? p) :=
  hc.flip.walk_next p (by rw [length_reverse]; exact hfuel)

end Circular
