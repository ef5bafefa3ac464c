/-
  Xv6.Fs.Exhaust

  When `bget` finds no buffer.

  A buffer is pinned while a process uses it or is about to lock it, and while
  it is in the log and not yet installed.  `bget` panics for a block that is not
  cached exactly when all of the `NBUF` buffers are pinned, and nothing keeps
  the processes from that: each of `NBUF` readers pins a buffer while it waits
  for the disk.
-/

import Xv6.Fs.Cache

namespace Xv6
namespace Bcache

open Finset Transition Counting

variable {ι β : Type} [DecidableEq ι] [Fintype ι] {c : Bcache ι β} {b : BufPtr} {n : Nat}

/-- The buffers in use by a process, or dirty. -/
def pinned (c : Bcache ι β) : Finset BufPtr :=
  univ.filter fun b => (∃ p, 0 < (c.user p).uses b) ∨ (c.buf b).dirty = true

def Cached (c : Bcache ι β) (n : Nat) : Prop :=
  ∃ b, (c.buf b).dev = ROOTDEV ∧ (c.buf b).blockno = n

theorem Inv.mem_pinned_iff (h : c.Inv) :
    b ∈ c.pinned ↔ ¬ ((c.buf b).refcnt = 0 ∧ (c.buf b).dirty = false) := by
  have hrefs : (c.buf b).refcnt = 0 ↔ ¬ ∃ p, 0 < (c.user p).uses b := by
    rw [h.refcnt b, total_eq_zero]
    push Not
    exact forall_congr' fun p => (Nat.le_zero).symm
  rw [pinned, mem_filter, hrefs]
  constructor
  · rintro ⟨-, huse | hdirty⟩ ⟨hfree, hclean⟩
    · exact hfree huse
    · rw [hdirty] at hclean
      cases hclean
  · intro hno
    refine ⟨mem_univ b, ?_⟩
    by_cases huse : ∃ p, 0 < (c.user p).uses b
    · exact .inl huse
    · refine .inr (Bool.not_eq_false _ ▸ fun hclean => hno ⟨huse, hclean⟩)

theorem Inv.spare_isSome_iff (h : c.Inv) : c.spare.isSome = true ↔ c.pinned.card < NBUF := by
  have hcard : c.pinned.card < NBUF ↔ ∃ b, b ∉ c.pinned := by
    constructor
    · intro hlt
      by_contra hall
      push Not at hall
      have huniv : c.pinned = univ := eq_univ_iff_forall.mpr hall
      rw [huniv, card_univ, Fintype.card_fin] at hlt
      exact Nat.lt_irrefl _ hlt
    · rintro ⟨b, hb⟩
      have hlt := card_lt_univ_of_notMem hb
      rwa [Fintype.card_fin] at hlt
  rw [hcard, spare, List.find?_isSome]
  constructor
  · rintro ⟨b, -, hfree⟩
    refine ⟨b, fun hb => h.mem_pinned_iff.mp hb (of_decide_eq_true hfree)⟩
  · rintro ⟨b, hb⟩
    refine ⟨b, List.mem_reverse.mpr (h.lru b), decide_eq_true ?_⟩
    by_contra hno
    exact hb (h.mem_pinned_iff.mpr hno)

theorem Inv.cached_isSome_iff (h : c.Inv) : (c.cached ROOTDEV n).isSome = true ↔ c.Cached n := by
  rw [cached, List.find?_isSome]
  constructor
  · rintro ⟨b, -, hb⟩
    exact ⟨b, of_decide_eq_true hb⟩
  · rintro ⟨b, hb⟩
    exact ⟨b, h.lru b, decide_eq_true hb⟩

theorem Inv.bget_isSome_iff (h : c.Inv) :
    (c.bget ROOTDEV n).isSome = true ↔ c.Cached n ∨ c.pinned.card < NBUF := by
  rw [← h.cached_isSome_iff, ← h.spare_isSome_iff, bget]
  cases c.cached ROOTDEV n with
  | some b => simp
  | none => simp

theorem card_pinned_le (c : Bcache ι β) : c.pinned.card
    ≤ (∑ p, ∑ b, (c.user p).uses b) + (univ.filter fun b => (c.buf b).dirty = true).card := by
  have hsplit : c.pinned = (univ.filter fun b => ∃ p, 0 < (c.user p).uses b)
      ∪ univ.filter fun b => (c.buf b).dirty = true := filter_or ..
  have hused : (univ.filter fun b => ∃ p, 0 < (c.user p).uses b).card
      ≤ ∑ p, ∑ b, (c.user p).uses b := by
    rw [sum_comm, card_filter]
    refine sum_le_sum fun b _ => ?_
    split
    · rename_i huse
      obtain ⟨p, hp⟩ := huse
      have hle := le_total (fun u : BufUser => u.uses b) c.user p
      exact le_trans hp hle
    · exact Nat.zero_le _
  rw [hsplit]
  have hunion := card_union_le (univ.filter fun b => ∃ p, 0 < (c.user p).uses b)
    (univ.filter fun b => (c.buf b).dirty = true)
  omega

structure FindsBuffer (c : Bcache ι β) : Prop where
  bget : ∀ p n, (c.user p).pc = .idle →
    ((c.step (.bget p n)).isSome = true ↔ c.Cached n ∨ c.pinned.card < NBUF)
  pinned : c.pinned.card ≤ (∑ p, ∑ b, (c.user p).uses b)
    + (univ.filter fun b => (c.buf b).dirty = true).card

/-- **`bget` finds a buffer exactly when the block is cached or some buffer is
    not pinned**, in every run of any number of processes. -/
theorem finds_buffer_along [Inhabited β] (disk : Nat → β) (disksize : Nat)
    (as : List (BufAct ι β)) :
    Along step FindsBuffer (boot disk disksize : Bcache ι β) as := by
  have hinv : Along step Inv (boot disk disksize : Bcache ι β) as :=
    along_of_invariant (inv_boot disk disksize) (fun _ _ _ h hs => h.step hs) as
  refine hinv.mono fun c h => ⟨fun p n hidle => ?_, card_pinned_le c⟩
  rw [← h.bget_isSome_iff]
  simp only [step]
  rw [if_pos hidle, Option.isSome_map]

def readers (k : Nat) : List (BufAct (Fin 64) Unit) :=
  ((List.finRange 64).take k).flatMap fun p => [.bget p (59 + p.val), .acquiresleep p]

/-- Thirty readers of different blocks, with one buffer each and none of them
    dirty, leave no buffer to the next process. -/
theorem readers_exhaust_buffers :
    ∃ c : Bcache (Fin 64) Unit, run step (boot (fun _ => ()) 1000) (readers NBUF) = some c ∧
      (∀ p, ∑ b, (c.user p).uses b ≤ 1) ∧ (∀ b, (c.buf b).dirty = false) ∧
      ∃ p n, n < 1000 ∧ (c.user p).pc = .idle ∧ (c.step (.bget p n)).isNone = true := by
  have hrun : (run step (boot (fun _ => ()) 1000 : Bcache (Fin 64) Unit) (readers NBUF)).any
      (fun c => decide ((∀ p, ∑ b, (c.user p).uses b ≤ 1) ∧ (∀ b, (c.buf b).dirty = false) ∧
        (c.user 30).pc = .idle ∧ (c.step (.bget 30 89)).isNone = true)) = true := by
    decide +kernel
  obtain ⟨c, hc, huses, hclean, hidle, hnone⟩ := exists_run hrun
  exact ⟨c, hc, huses, hclean, 30, 89, by decide, hidle, hnone⟩

end Bcache
end Xv6
