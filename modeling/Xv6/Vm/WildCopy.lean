/-
  Xv6.Vm.WildCopy

  What an argument can do where there is no page table.
-/

import Xv6.Vm.Ownership

namespace Xv6

open List Wp Option Transition

namespace Vm

variable {L : Layout} {d d' : Pgdir} {s s' : Kmem} {p : Space} {mem : ℕ → UInt8}

/-! ## Reading what the program wrote -/

theorem userByte_storeUser (hinj : ∀ x < npages p.sz, ∀ y < npages p.sz,
      (p.pgdir.pte x).addr = (p.pgdir.pte y).addr → x = y)
    (hflags : ∀ x < npages p.sz,
      (p.pgdir.pte x).p = true ∧ (p.pgdir.pte x).w = true ∧ (p.pgdir.pte x).u = true)
    {a : ℕ} (ha : a < p.sz) : userByte p (storeUser p mem s) a = mem a := by
  have hv : a / PGSIZE < npages p.sz := by
    unfold npages PGSIZE
    omega
  unfold userByte storeUser
  dsimp only
  generalize hfind : find? _ (range (npages p.sz)) = r
  cases r with
  | some v =>
    have hmem := mem_range.mp (mem_of_find?_eq_some hfind)
    have hsome := find?_some hfind
    simp only [Bool.and_eq_true, beq_iff_eq] at hsome
    dsimp only
    rw [hinj v hmem _ hv hsome.2, Nat.div_add_mod']
  | none =>
    exfalso
    have hno := find?_eq_none.mp hfind (a / PGSIZE) (mem_range.mpr hv)
    obtain ⟨hp, hw, hu⟩ := hflags _ hv
    rw [hp, hw, hu] at hno
    exact hno (by simp)

theorem fetchstr_eq {a len : ℕ} (hne : ∀ k < len, userByte p s (a + k) ≠ 0)
    (hend : userByte p s (a + len) = 0) (hlt : a + len < p.sz) :
    fetchstr p s a = some ⟨len, fun i => userByte p s (a + i)⟩ := by
  have hfind : (range (p.sz - a)).find? (fun k => userByte p s (a + k) == 0) = some len := by
    rw [find?_range_eq_some]
    refine ⟨by rw [hend]; rfl, mem_range.mpr (by omega), fun k hk => ?_⟩
    rw [Bool.not_eq_true', beq_eq_false_iff_ne]
    exact hne k hk
  unfold fetchstr
  rw [hfind]
  rfl

/-- Byte `i` of the entry for page `q` with the flags `fl`. -/
def entryByte (fl q i : ℕ) : UInt8 := UInt8.ofNat ((q * PGSIZE + fl) / 2 ^ (8 * i))

theorem pteOfBytes_entryByte {q fl : ℕ} (hq : q < 2 ^ 20) (hfl : fl < PGSIZE) {b : ℕ → UInt8}
    (hb : ∀ i < 4, b i = entryByte fl q i) :
    pteOfBytes b = ⟨q, fl % 2 = 1, fl / 2 % 2 = 1, fl / 4 % 2 = 1⟩ := by
  unfold PGSIZE at hfl
  have hbyte : ∀ i < 4, (b i).toNat = (q * 4096 + fl) / 2 ^ (8 * i) % 256 := by
    intro i hi
    rw [hb i hi, entryByte, UInt8.toNat_ofNat']
  have h0 := hbyte 0 (by decide)
  have h1 := hbyte 1 (by decide)
  have h2 := hbyte 2 (by decide)
  have h3 := hbyte 3 (by decide)
  norm_num at h0 h1 h2 h3
  have hword : (b 0).toNat + 2 ^ 8 * (b 1).toNat + 2 ^ 16 * (b 2).toNat + 2 ^ 24 * (b 3).toNat =
      q * 4096 + fl := by omega
  unfold pteOfBytes
  dsimp only
  rw [hword]
  unfold PGSIZE
  congr 1
  · omega
  · exact decide_eq_decide.mpr (by omega)
  · exact decide_eq_decide.mpr (by omega)
  · exact decide_eq_decide.mpr (by omega)

end Vm

namespace MemSys

open Vm

variable {ι : Type} [Fintype ι] [DecidableEq ι] {L : Layout} {T : Multiset ℕ} {m : MemSys ι}
  {s s' : Kmem} {p : Space} {i : ι}

theorem noTable_of_last {va : ℕ} (h : va / PGSIZE + 1 = DEVSPACE / PGSIZE) : NoTable va := by
  unfold NoTable KERNBASE PHYSTOP DEVSPACE PGSIZE at *
  omega

/-- The call whose string wraps around to the last page before `DEVSPACE`, with
    one of the caller's page tables at address 0. -/
theorem exists_step_wild (hT : T.Nodup) (hR : ∀ q ∈ T, L.Ram q) (h : Inv L T m)
    (hp : m.live i = some p) (hfree : 4096 ≤ m.kmem.free.length) {a t q : ℕ} {arg : Arg}
    (harg : fetchArgs p m.kmem [a] = some [arg])
    (hsp : pushStr 12288 arg.len / PGSIZE + 1 = DEVSPACE / PGSIZE)
    (hzero : pteOfBytes (userByte p m.kmem) = ⟨q, true, true, true⟩)
    (hq : q ≠ KERNBASE / PGSIZE) (h0 : (p.pgdir.pte 0).p = true)
    (htab : p.pgdir.tab t = some q) (ht : t < NPDENTRIES) :
    ∃ m', step L m (.exec i zeroPage [a]) = some m' ∧ m'.procs i = some ⟨{ p with
        pgdir := overwrite q (pushStr 12288 arg.len % PGSIZE) arg.byte p.pgdir }, false⟩ := by
  have hready := h.ready hT hR (live_some hp)
  obtain ⟨argv, hargv⟩ := exists_argv hready.lt harg
  have hwp : wp (Vm.exec L (pteOfBytes (userByte p m.kmem)) zeroPage argv.args)
      (fun r s' => ExecSpec L (pteOfBytes (userByte p m.kmem)) zeroPage argv m.kmem r s' ∧
        r.stack = some 12288) (fun _ _ => False) m.kmem :=
    wp_exec_zeroPage hready.total_nodup hready.total_ram hfree fun r s' hspec hst => ⟨hspec, hst⟩
  obtain ⟨r, s, hrun, hspec, hstack⟩ := exists_ok hwp
  rw [hargv] at hrun
  obtain ⟨d, hends⟩ := hspec.hole 12288 arg hstack hargv (noTable_of_last hsp)
    (by rw [hzero]; exact ⟨rfl, rfl, hq⟩)
  have hend := hspec.ends
  rw [hends] at hend
  obtain ⟨himage, hpages, -⟩ := hend
  have hram : ∀ q ∈ d.pages, L.Ram q := by
    intro q hq
    refine hready.total_ram q ?_
    rw [← hpages]
    exact Multiset.mem_add.mpr (.inl hq)
  have hwf : wp (Vm.freevm L d) (fun _ _ => True) (fun _ _ => False) s :=
    Vm.wp_freevm himage.sized.wf himage.sized.contig hram fun _ _ _ _ _ => trivial
  obtain ⟨u, s'', hfreed, -⟩ := exists_ok hwf
  have hin : ∃ j, (m.procs j).any (fun x => q ∈ x.mem.pgdir.tables) = true := by
    refine ⟨i, ?_⟩
    rw [live_some hp, any_some, decide_eq_true_iff, ← Multiset.mem_coe, coe_tables]
    exact Pgdir.mem_tpages htab ht
  have hlook : ¬ (r.looked = true ∧ (p.pgdir.pte 0).p = false) := by
    rw [h0]
    rintro ⟨-, hno⟩
    cases hno
  have hexec : m.execRun L p zeroPage [arg] = .ok r s := hrun
  have hstep : step L m (.exec i zeroPage [a]) =
      m.wildCopy L q arg d (pushStr 12288 arg.len) s := by
    unfold step
    dsimp only
    rw [hp]
    dsimp only
    rw [harg]
    dsimp only
    rw [hexec]
    dsimp only
    rw [if_neg hlook, hends]
    dsimp only
    rw [hzero]
  have hcopy : m.wildCopy L q arg d (pushStr 12288 arg.len) s = some { m with
      procs := fun j => (m.procs j).map fun x => { x with mem := { x.mem with
        pgdir := overwrite q (pushStr 12288 arg.len % PGSIZE) arg.byte x.mem.pgdir } }
      kmem := s'' } := by
    unfold wildCopy
    rw [if_pos ⟨hsp, hin⟩, hfreed]
  refine ⟨_, hstep.trans hcopy, ?_⟩
  dsimp only
  rw [live_some hp]
  rfl

theorem exists_step_sbrk (sz : ℕ) (hT : T.Nodup) (hR : ∀ q ∈ T, L.Ram q) (h : Inv L T m)
    (hp : m.live i = some p) (hone : p.sz = PGSIZE) (huser : ∃ q, p.pgdir.pte 0 = ⟨q, true, true, true⟩)
    (hlo : PGSIZE < sz) (hhi : sz < KERNBASE) (hroom : npages sz + 1024 ≤ m.kmem.free.length) :
    ∃ d s', step L m (.sbrk i (sz - PGSIZE)) = some (m.setMem i ⟨d, sz, p.kstack⟩ s') ∧
      ∃ bytes, Loaded L d sz s' bytes ∧ s'.dropped = m.kmem.dropped ∧
        d.pages + s'.total = p.pgdir.pages + m.kmem.total := by
  have hready := h.ready hT hR (live_some hp)
  have hone' : npages p.sz = 1 := by rw [hone]; decide
  have hload : Loaded L p.pgdir p.sz m.kmem fun a => if a < p.sz then userByte p m.kmem a else 0 := by
    refine ⟨hready.lt, hready.sized, hready.kern, fun x hx => ?_, hready.own, fun x hx j hj => ?_,
      fun a ha => if_neg (by omega)⟩
    · have hx0 : x = 0 := by omega
      obtain ⟨q, hq⟩ := huser
      rw [hx0, hq]
      exact ⟨rfl, rfl, rfl⟩
    · have hx0 : x = 0 := by omega
      rw [hx0, Nat.zero_mul, Nat.zero_add, if_pos (by rw [hone]; exact hj)]
      unfold userByte
      rw [Nat.div_eq_of_lt hj, Nat.mod_eq_of_lt hj]
  have hnew : ((p.sz + ((sz : ℤ) - PGSIZE)) % 2 ^ 32).toNat = sz := by
    rw [hone]
    unfold KERNBASE at hhi
    unfold PGSIZE
    omega
  have hpos : (0 : ℤ) < sz - PGSIZE := by
    unfold PGSIZE at *
    omega
  have hle : p.sz ≤ sz := by
    rw [hone]
    exact hlo.le
  obtain ⟨d, s', halloc, hg⟩ := hload.allocuvm_ok hle hhi hroom
  have hrun : growproc L p (sz - PGSIZE) m.kmem = .ok (⟨d, sz, p.kstack⟩, 0) s' := by
    unfold growproc
    dsimp only
    rw [if_pos hpos, hnew, bind_of_ok halloc]
    dsimp only
    rw [if_neg (by omega)]
    rfl
  refine ⟨d, s', ?_, _, hload.grown hle hhi hg, hg.dropped, hg.pages⟩
  unfold step
  dsimp only
  rw [hp]
  dsimp only
  rw [hrun]

/-! ## A run -/

def strAddr : ℕ := 8388608

def strLen : ℕ := 33570815

def strByte (i : ℕ) : UInt8 := if i % 4 = 0 then 7 else 15

/-- What the process writes: page `q` as an entry at address 0, and the string. -/
def attack (q a : ℕ) : UInt8 :=
  if a < 4 then entryByte 7 q a
  else if strAddr ≤ a ∧ a < strAddr + strLen then strByte (a - strAddr)
  else 0

def bigFree : Kmem := ⟨range' 300 20000, fun _ _ => 0, []⟩

theorem start_bigFree : StartMem smallKernel bigFree := by
  have htotal : bigFree.total = (range' 300 20000 : Multiset ℕ) := add_zero _
  refine ⟨?_, fun p hp => ?_, ?_⟩
  · rw [htotal]
    exact Multiset.coe_nodup.mpr nodup_range'
  · rw [htotal, Multiset.mem_coe] at hp
    exact ram_range le_rfl hp
  · show 4096 ≤ (range' 300 20000).length
    rw [length_range']
    omega

theorem strByte_ne_zero (i : ℕ) : strByte i ≠ 0 := by
  unfold strByte
  split
  · decide
  · decide

theorem strLen_push : pushStr 12288 strLen = 4261408768 := by
  unfold pushStr strLen
  rfl

/-- There is a run after which the first process has mapped a page that is no memory, 1024 times. -/
theorem exists_wild_run : ∃ p s' as m x, userinit smallKernel [] bigFree = .ok p s' ∧
    run (step smallKernel) (boot (0 : Fin 1) p s') as = some m ∧ m.procs 0 = some x ∧
    ∀ v < NPTENTRIES, x.mem.pgdir.pte v = ⟨61680, true, true, true⟩ := by
  have hT := start_bigFree.nodup
  have hR := start_bigFree.ram
  have hwp : wp (userinit smallKernel []) (Booted smallKernel bigFree) (fun _ _ => False) bigFree :=
    start_bigFree.wp_userinit fun hbig => absurd hbig (by decide)
  obtain ⟨p, s1, hboot, hb⟩ := exists_ok hwp
  have hinv := hb.inv (0 : Fin 1)
  have hlive : (boot (0 : Fin 1) p s1).live 0 = some p := rfl
  have hsize : npages 41959424 = 10244 := by decide
  have hbig : bigFree.free.length = 20000 := length_range'
  -- how many pages the first process and its growth leave
  have hcount : ∀ (d : Pgdir) (n : ℕ) (s : Kmem), Sized d n →
      d.pages + {p.kstack} + s.total = bigFree.total → s.dropped = bigFree.dropped →
      20000 ≤ s.free.length + (n + 1026) := by
    intro d n s hsized hpages hdrop
    have hcard := congrArg Multiset.card hpages
    have hle := card_pages_le hsized
    simp only [Kmem.total, hdrop, Multiset.card_add, Multiset.coe_card, Multiset.card_singleton]
      at hcard
    omega
  have hroom1 := hcount p.pgdir 1 s1 hb.sized hb.pages hb.dropped
  obtain ⟨d, s2, hsbrk, bytes, hload, hdrop, hpages⟩ := exists_step_sbrk 41959424 hT hR hinv
    hlive hb.sz hb.user (by decide) (by decide) (by
      rw [hsize]
      show 10244 + 1024 ≤ s1.free.length
      omega)
  have hinv2 := hinv.sbrk hT hR hsbrk
  generalize hp2 : (⟨d, 41959424, p.kstack⟩ : Space) = p2 at hsbrk hinv2
  have hsz : p2.sz = 41959424 := by rw [← hp2]
  have hd2 : p2.pgdir = d := by rw [← hp2]
  have hlive2 : ((boot (0 : Fin 1) p s1).setMem 0 p2 s2).live 0 = some p2 := rfl
  generalize hm2 : (boot (0 : Fin 1) p s1).setMem 0 p2 s2 = m2 at hsbrk hinv2 hlive2
  have hkmem : m2.kmem = s2 := by
    rw [← hm2]
    rfl
  -- the page table of the first 4 MB
  obtain ⟨q, hq⟩ := ne_none_iff_exists'.mp (hload.sized.low 0 (by rw [hsize]; decide))
  have hqram : smallKernel.Ram q :=
    hload.own.pages_ram (Pgdir.mem_pages.mpr (.inr (.inl (Pgdir.mem_tpages hq (by decide)))))
  have hq20 : q < 57344 := by
    have hlt := hqram.2
    unfold PGSIZE PHYSTOP at hlt
    omega
  -- the program writes its memory
  have huser : step smallKernel m2 (.user 0 (attack q)) =
      some { m2 with kmem := storeUser p2 (attack q) m2.kmem } := by
    unfold step
    dsimp only
    rw [hlive2]
  have hinv3 := hinv2.step hT hR (a := .user 0 (attack q)) (fun hw => hw) huser
  have hbyte : ∀ a < 41959424, userByte p2 (storeUser p2 (attack q) m2.kmem) a = attack q a := by
    intro a ha
    have hU := npages_le hload.lt.le
    refine userByte_storeUser (fun x hx y hy heq => ?_) (fun x hx => ?_) (by rw [hsz]; exact ha)
    · rw [hsz] at hx hy
      rw [hd2] at heq
      exact hload.own.inj (by omega) (by omega) (hload.flags x hx).1 (hload.flags y hy).1 heq
    · rw [hsz] at hx
      rw [hd2]
      exact hload.flags x hx
  generalize hm3 : ({ m2 with kmem := storeUser p2 (attack q) m2.kmem } : MemSys (Fin 1)) = m3
    at huser hinv3
  have hlive3 : m3.live 0 = some p2 := by
    rw [← hm3]
    exact hlive2
  have hk3 : m3.kmem = storeUser p2 (attack q) m2.kmem := by rw [← hm3]
  rw [← hk3] at hbyte
  have hroom3 : 4096 ≤ m3.kmem.free.length := by
    have htotal : d.pages + {p.kstack} + s2.total = bigFree.total := by
      rw [add_right_comm, hpages, add_right_comm]
      exact hb.pages
    have hleft := hcount d (npages 41959424) s2 hload.sized htotal (hdrop.trans hb.dropped)
    have hsame : m3.kmem.free = s2.free := by
      rw [hk3, hkmem]
      rfl
    rw [hsize] at hleft
    rw [hsame]
    omega
  -- the kernel finds the string and the entry
  have hstr : ∀ k < strLen, userByte p2 m3.kmem (strAddr + k) = strByte k := by
    intro k hk
    unfold strLen at hk
    rw [hbyte _ (by unfold strAddr; omega), attack, if_neg (by unfold strAddr; omega),
      if_pos (by unfold strLen; omega), Nat.add_sub_cancel_left]
  have harg : fetchArgs p2 m3.kmem [strAddr] =
      some [⟨strLen, fun i => userByte p2 m3.kmem (strAddr + i)⟩] := by
    have hne : ∀ k < strLen, userByte p2 m3.kmem (strAddr + k) ≠ 0 := by
      intro k hk
      rw [hstr k hk]
      exact strByte_ne_zero k
    have hend : userByte p2 m3.kmem (strAddr + strLen) = 0 := by
      rw [hbyte _ (by unfold strAddr strLen; omega), attack, if_neg (by unfold strAddr; omega),
        if_neg (by omega)]
    have hfetch := fetchstr_eq hne hend (by rw [hsz]; unfold strAddr strLen; omega)
    unfold fetchArgs
    rw [if_pos (by decide), mapM_cons, hfetch]
    rfl
  have hzero : pteOfBytes (userByte p2 m3.kmem) = ⟨q, true, true, true⟩ := by
    refine pteOfBytes_entryByte (by omega) (show 7 < PGSIZE by decide) fun i hi => ?_
    rw [hbyte i (by omega), attack, if_pos hi]
  have hsp : pushStr 12288 strLen / PGSIZE + 1 = DEVSPACE / PGSIZE := by
    rw [strLen_push]
    decide
  have h0 : (p2.pgdir.pte 0).p = true := by
    rw [hd2]
    exact (hload.flags 0 (by rw [hsize]; decide)).1
  have htab : p2.pgdir.tab 0 = some q := by
    rw [hd2]
    exact hq
  obtain ⟨m4, hexec, hproc⟩ := exists_step_wild hT hR hinv3 hlive3 hroom3 harg hsp hzero
    (by unfold KERNBASE PGSIZE; omega) h0 htab (by decide)
  refine ⟨p, s1, [.sbrk 0 ((41959424 : ℕ) - PGSIZE), .user 0 (attack q), .exec 0 zeroPage [strAddr]],
    m4, _, hboot, ?_, hproc, fun v hv => ?_⟩
  · unfold run
    rw [hsbrk, bind_some]
    unfold run
    rw [huser, bind_some]
    unfold run
    rw [hexec, bind_some]
    rfl
  · have hdiv : v / NPTENTRIES = 0 := Nat.div_eq_of_lt hv
    have hmod : v % NPTENTRIES = v := Nat.mod_eq_of_lt hv
    have hoff : pushStr 12288 strLen % PGSIZE = 0 := by
      rw [strLen_push]
      decide
    unfold overwrite
    dsimp only
    rw [hdiv, hmod, hoff, if_pos ⟨htab, Nat.zero_le _⟩]
    have hword : ∀ i < 4, userByte p2 m3.kmem (strAddr + (4 * v - 0 + i)) = strByte i := by
      intro i hi
      unfold NPTENTRIES at hv
      rw [hstr _ (by unfold strLen; omega)]
      unfold strByte
      rw [Nat.sub_zero, Nat.mul_add_mod]
    unfold pteOfBytes
    dsimp only
    rw [hword 0 (by decide), hword 1 (by decide), hword 2 (by decide), hword 3 (by decide)]
    decide

/-- After that run a page is in two places. -/
theorem page_in_two_places :
    ∃ p s' as m, StartMem smallKernel bigFree ∧ userinit smallKernel [] bigFree = .ok p s' ∧
      run (step smallKernel) (boot (0 : Fin 1) p s') as = some m ∧ ¬ m.places.Nodup := by
  obtain ⟨p, s', as, m, x, hboot, hrun, hx, hpte⟩ := exists_wild_run
  refine ⟨p, s', as, m, start_bigFree, hboot, hrun, fun hnodup => ?_⟩
  have hslot := slotPages_le_used m 0
  rw [hx] at hslot
  have hle : x.mem.pgdir.upages ≤ m.places := by
    have hused : m.used ≤ m.places := (Multiset.le_add_left _ _).trans (Multiset.le_add_right _ _)
    exact (upages_le_pages.trans (Multiset.le_add_right _ _)).trans (hslot.trans hused)
  have h0 := hpte 0 (by decide)
  have h1 := hpte 1 (by decide)
  have heq := upages_inj (x := 0) (y := 1) (Multiset.nodup_of_le hle hnodup) (by decide) (by decide)
    (by rw [h0]) (by rw [h1]) (by rw [h0, h1])
  cases heq

/-- After that run the process reaches a page that was never given to it. -/
theorem user_maps_foreign_page :
    ∃ p s' as m, StartMem smallKernel bigFree ∧ userinit smallKernel [] bigFree = .ok p s' ∧
      run (step smallKernel) (boot (0 : Fin 1) p s') as = some m ∧
      ¬ Separated smallKernel bigFree.total m := by
  obtain ⟨p, s', as, m, x, hboot, hrun, hx, hpte⟩ := exists_wild_run
  refine ⟨p, s', as, m, start_bigFree, hboot, hrun, fun hsep => ?_⟩
  have h0 := hpte 0 (by decide)
  have hmem := ((hsep 0 x hx).2 0 (by decide) (by rw [h0])).1
  rw [h0] at hmem
  have hram := (start_bigFree.ram _ hmem).2
  exact absurd hram (by decide)

/-! ## Runs without such a copy -/

theorem exists_boot : ∃ p s', userinit smallKernel [] bigFree = .ok p s' := by
  have hwp : wp (userinit smallKernel []) (Booted smallKernel bigFree) (fun _ _ => False) bigFree :=
    start_bigFree.wp_userinit fun hbig => absurd hbig (by decide)
  obtain ⟨p, s', hboot, -⟩ := exists_ok hwp
  exact ⟨p, s', hboot⟩

theorem meets_fork_exit {p : Space} {s' : Kmem} :
    Transition.Meets (step smallKernel) (fun m a => ¬ Wild m a) (boot (0 : Fin 2) p s')
      [.fork 0 1, .sbrk 1 4096, .exit 1, .wait 1] := by
  refine meets_of_labels fun a ha m hw => ?_
  simp only [mem_cons, not_mem_nil, or_false] at ha
  rcases ha with rfl | rfl | rfl | rfl
  · exact hw
  · exact hw
  · exact hw
  · exact hw

theorem page_in_one_place_fork_exit :
    ∃ p s', userinit smallKernel [] bigFree = .ok p s' ∧
      Transition.Along (step smallKernel) (OnePlace bigFree.total) (boot (0 : Fin 2) p s')
        [.fork 0 1, .sbrk 1 4096, .exit 1, .wait 1] := by
  obtain ⟨p, s', hboot⟩ := exists_boot
  exact ⟨p, s', hboot, page_in_one_place start_bigFree hboot 0 meets_fork_exit⟩

theorem kernel_user_separated_fork_exit :
    ∃ p s', userinit smallKernel [] bigFree = .ok p s' ∧
      Transition.Along (step smallKernel) (Separated smallKernel bigFree.total)
        (boot (0 : Fin 2) p s') [.fork 0 1, .sbrk 1 4096, .exit 1, .wait 1] := by
  obtain ⟨p, s', hboot⟩ := exists_boot
  exact ⟨p, s', hboot, kernel_user_separated start_bigFree hboot 0 meets_fork_exit⟩

end MemSys

end Xv6
