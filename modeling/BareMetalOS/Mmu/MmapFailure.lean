import BareMetalOS.Mmu.MapPages
import BareMetalOS.Mmu.VmaOrder

/-!
# `sys_mmap` that fails

`sys_mmap` returns `-1` for a request of no length, where it has done nothing, and where a frame for
`MAP_POPULATE` is missing. There the region is in the list by then, and so are the frames that were
found. So the request is all or nothing as long as the frames are there (`sysMmap_unchanged_iff`).
-/

namespace BareMetalOS.Mmu

open Memory (Addr Allocator blocks)

variable {s : Vm} {pgd start stop : Addr} {vmas : List VmArea} {addr length p : BitVec 64}
  {prot flags : BitVec 32}

/-- The caller's regions and mappings and the allocated blocks are as before the call. -/
structure Unchanged (s : Vm) (pgd : Addr) (vmas : List VmArea) (r : MmapResult) : Prop where
  vmas : r.vmas = vmas
  mappings : ∀ va, leafOf r.vm pgd va = leafOf s pgd va
  frames : ∀ p, blocks r.vm.alloc p = blocks s.alloc p

/-- `allocate` has a frame for each of so many pages from `a` on, where each one is mapped before
the next one is asked for. -/
def FramesFor (pgd prot : BitVec 64) : ℕ → Vm → Addr → Prop
  | 0, _, _ => True
  | rounds + 1, s, a =>
    s.allocPage.1 ≠ 0 ∧
      FramesFor pgd prot rounds (mapPage (s.allocPage.2.setPage s.allocPage.1 fun _ => 0) pgd a
        (s.allocPage.1 - pageOffset) prot) (a + 4096)

/-- The pages of a request at `start`: none if its end wraps. -/
def requestPages (start length : BitVec 64) : ℕ :=
  if start.toNat + length.toNat < 2 ^ 64 then length.toNat / 4096 else 0

/-- The loop for `MAP_POPULATE` comes to its end, or to a frame that is missing. -/
theorem populateLoop_spec (stop : Addr) :
    ∀ (rounds fuel : ℕ) (s : Vm) (a : Addr), rounds < fuel →
      a.toNat + 4096 * rounds = stop.toNat →
      ∃ s' ok, populateLoop pgd stop p fuel s a = some (s', ok) ∧
        (ok = true ↔ FramesFor pgd p rounds s a) := by
  intro rounds
  induction rounds with
  | zero =>
    intro fuel s a hfuel hstop
    obtain ⟨fuel, rfl⟩ := Nat.exists_eq_succ_of_ne_zero (Nat.ne_of_gt hfuel)
    have hend : ¬ a < stop := by
      rw [BitVec.lt_def]
      omega
    exact ⟨s, true, by rw [populateLoop, if_neg hend], iff_of_true rfl trivial⟩
  | succ rounds ih =>
    intro fuel s a hfuel hstop
    obtain ⟨fuel, rfl⟩ := Nat.exists_eq_succ_of_ne_zero (Nat.ne_of_gt (Nat.zero_lt_of_lt hfuel))
    have hle : stop.toNat < 2 ^ 64 := stop.isLt
    have hstep : a < stop := by
      rw [BitVec.lt_def]
      omega
    have hnext : (a + 4096).toNat = a.toNat + 4096 := by
      rw [BitVec.toNat_add, show (4096 : Addr).toNat = 4096 from rfl]
      omega
    rw [populateLoop, if_pos hstep]
    dsimp only
    by_cases h0 : s.allocPage.1 = 0
    · rw [if_pos h0]
      exact ⟨_, false, rfl, iff_of_false Bool.false_ne_true fun hf => hf.1 h0⟩
    · obtain ⟨s', ok, hloop, hok⟩ := ih fuel
        (mapPage (s.allocPage.2.setPage s.allocPage.1 fun _ => 0) pgd a
          (s.allocPage.1 - pageOffset) p) (a + 4096) (Nat.lt_of_succ_lt_succ hfuel) (by omega)
      refine ⟨s', ok, ?_, hok.trans ⟨fun hf => ⟨h0, hf⟩, fun hf => hf.2⟩⟩
      rw [if_neg h0, mapPagesAt_page _ _ _ _ (by omega)]
      exact hloop

/-- The loop for the pages of a request. -/
theorem populateLoop_request (s : Vm) (pgd start p : BitVec 64) (hlen : length.toNat % 4096 = 0) :
    ∃ s' ok, populateLoop pgd (start + length) p (length.toNat / 4096 + 2) s start = some (s', ok) ∧
      (ok = true ↔ FramesFor pgd p (requestPages start length) s start) := by
  unfold requestPages
  split
  · rename_i hsum
    apply populateLoop_spec
    · omega
    · rw [BitVec.toNat_add_of_lt hsum]
      omega
  · rename_i hsum
    -- the end has wrapped and is not after the start
    have hend : ¬ start < start + length := by
      have := start.isLt
      have := length.isLt
      rw [BitVec.lt_def, BitVec.toNat_add]
      omega
    exact ⟨s, true, by rw [populateLoop, if_neg hend], iff_of_true rfl trivial⟩

/-- **All or nothing.** Where `sys_mmap` returns `-1`, the caller's regions and mappings and the
allocated frames are as before: this holds if and only if the length is null, the frames are not
asked for, or there is a frame for each page of the region (once there is memory for the region
itself). -/
theorem sysMmap_unchanged_iff (s : Vm) (pgd : Addr) (vmas : List VmArea) (addr length : BitVec 64)
    (prot flags : BitVec 32) :
    (∀ r, sysMmap s pgd vmas addr length prot flags = some r → r.ret = none →
      Unchanged s pgd vmas r) ↔
    roundLength length = 0 ∨ ¬ HasFlag (flags.signExtend 64) mapPopulate ∨
      ∀ start s' vmas', mmapStart vmas addr (roundLength length) = some start →
        addVma s vmas start (roundLength length) (prot.signExtend 64) (flags.signExtend 64) =
          some (s', vmas') →
        FramesFor pgd (pteProt (prot.signExtend 64)) (requestPages start (roundLength length))
          s' start := by
  by_cases h0 : roundLength length = 0
  · refine iff_of_true (fun r hr _ => ?_) (.inl h0)
    rw [sysMmap] at hr
    dsimp only at hr
    rw [if_pos h0] at hr
    cases hr
    exact ⟨rfl, fun _ => rfl, fun _ => rfl⟩
  rw [or_iff_right h0]
  by_cases hpop : HasFlag (flags.signExtend 64) mapPopulate
  · rw [or_iff_right (not_not.2 hpop)]
    -- what the call does, from where the region is in the list
    have hcall : ∀ start s' vmas', mmapStart vmas addr (roundLength length) = some start →
        addVma s vmas start (roundLength length) (prot.signExtend 64) (flags.signExtend 64) =
          some (s', vmas') →
        ∃ s'' ok, sysMmap s pgd vmas addr length prot flags =
            some ⟨s'', vmas', if ok = true then some start else none⟩ ∧
          (ok = true ↔ FramesFor pgd (pteProt (prot.signExtend 64))
            (requestPages start (roundLength length)) s' start) := by
      intro start s' vmas' hstart hadd
      obtain ⟨s'', ok, hloop, hok⟩ := populateLoop_request s' pgd start
        (pteProt (prot.signExtend 64)) (roundLength_mod length)
      refine ⟨s'', ok, ?_, hok⟩
      rw [sysMmap]
      dsimp only
      rw [if_neg h0, hstart, Option.bind_eq_bind, Option.bind_some, hadd, Option.bind_eq_bind,
        Option.bind_some]
      dsimp only
      rw [if_pos hpop, hloop]
      rfl
    constructor
    · intro hall start s' vmas' hstart hadd
      obtain ⟨s'', ok, hr, hok⟩ := hcall start s' vmas' hstart hadd
      cases hb : ok with
      | true => exact hok.1 hb
      | false =>
        have hun := hall _ hr (by rw [hb]; rfl)
        have hlen := congrArg List.length hun.vmas
        rw [addVma] at hadd
        split_ifs at hadd
        simp only [Option.some.injEq, Prod.mk.injEq] at hadd
        rw [← hadd.2, (insertVma_perm _ vmas).length_eq, List.length_cons] at hlen
        omega
    · intro hframes r hr hnone
      rcases sysMmap_vmas hr with ⟨h0', -⟩ | ⟨-, start, s', node, hstart, hadd, -, -⟩
      · exact absurd h0' h0
      · obtain ⟨s'', ok, hr', hok⟩ := hcall start s' r.vmas hstart hadd
        rw [hr] at hr'
        rw [hok.2 (hframes start s' r.vmas hstart hadd), if_pos rfl] at hr'
        rw [Option.some.inj hr'] at hnone
        cases hnone
  · refine iff_of_true (fun r hr hnone => ?_) (.inl hpop)
    rw [sysMmap] at hr
    dsimp only at hr
    rw [if_neg h0] at hr
    obtain ⟨start, -, hr⟩ := Option.bind_eq_some_iff.1 hr
    obtain ⟨⟨s', vmas'⟩, -, hr⟩ := Option.bind_eq_some_iff.1 hr
    simp only at hr
    rw [if_neg hpop] at hr
    cases hr
    cases hnone

/-- A pool of eight pages, with the PGD and the regions of a program of one page. -/
def oneProgram : Option (Vm × Addr × List VmArea) := do
  let s : Vm := ⟨Memory.allocStart .qemu Memory.unsetBuddy 0xffffffc080000000 0x8000, fun _ _ => 0⟩
  let (pgd, s) := s.allocPage
  let (s, vmas) ← addVma (s.setPage pgd fun _ => 0) [] 0 0x1000 7 mapAnonymous
  let (s, vmas) ← addVma s vmas 0x3fffffe000 0x2000 3 mapAnonymous
  return (s, pgd, vmas)

/-- A request for eight pages, of which there are six left: the call fails, and its region stays. -/
theorem sysMmap_not_unchanged : ∃ s pgd vmas r, oneProgram = some (s, pgd, vmas) ∧
    sysMmap s pgd vmas 0 0x8000 3 0x8020 = some r ∧ r.ret = none ∧ ¬ Unchanged s pgd vmas r := by
  have hrun : (oneProgram.bind fun x =>
      (sysMmap x.1 x.2.1 x.2.2 0 0x8000 3 0x8020).map fun r =>
        (r.ret, r.vmas.length, x.2.2.length)) = some (none, 3, 2) := by
    decide +kernel
  obtain ⟨⟨s, pgd, vmas⟩, hprog, hrun⟩ := Option.bind_eq_some_iff.1 hrun
  obtain ⟨r, hr, heq⟩ := Option.map_eq_some_iff.1 hrun
  simp only [Prod.mk.injEq] at heq
  refine ⟨s, pgd, vmas, r, hprog, hr, heq.1, fun hun => ?_⟩
  have hlen := congrArg List.length hun.vmas
  omega

end BareMetalOS.Mmu
