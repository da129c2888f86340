import BareMetalOS.Memory.Canonical
import BareMetalOS.Mmu.Vma

/-!
# The order of the regions of a process

Every call whose sums of addresses do not wrap keeps the regions of a process in order, aligned and
apart from each other (`VmasOk`). The search for a free place is `firstFit` on the ranges of the
regions (`toNat_findFreeLoop`): it ends in any case (`exists_findFreeLoop`), and it returns the
first free place from `searchStart` on.
-/

namespace BareMetalOS.Mmu

open Memory (Addr)

variable {s s' : Vm} {vmas : List VmArea} {new v : VmArea} {addr length start : BitVec 64}

/-- The addresses of a region. -/
def VmArea.range (v : VmArea) : ℕ × ℕ := (v.start.toNat, v.stop.toNat)

/-- No region meets the `length` addresses from `a` on. -/
def Free (vmas : List VmArea) (length : BitVec 64) (a : ℕ) : Prop :=
  Clear length.toNat (vmas.map VmArea.range) a

/-- The regions are in order, made of whole pages and apart from each other. -/
structure VmasOk (vmas : List VmArea) : Prop where
  sorted : vmas.Pairwise fun v w => v.start.toNat ≤ w.start.toNat
  apart : vmas.Pairwise fun v w => v.stop.toNat ≤ w.start.toNat ∨ w.stop.toNat ≤ v.start.toNat
  aligned : ∀ v ∈ vmas, v.start.toNat % 4096 = 0 ∧ v.stop.toNat % 4096 = 0 ∧
    v.start.toNat ≤ v.stop.toNat

/-! ## Insertion and removal -/

theorem insertRest_perm (new : VmArea) (vmas : List VmArea) :
    (insertRest new vmas).Perm (new :: vmas) := by
  induction vmas with
  | nil => exact .refl _
  | cons c cs ih =>
    rw [insertRest]
    split_ifs
    · exact (ih.cons c).trans (.swap new c cs)
    · exact .refl _

theorem insertVma_perm (new : VmArea) (vmas : List VmArea) :
    (insertVma new vmas).Perm (new :: vmas) := by
  cases vmas with
  | nil => exact .refl _
  | cons c cs =>
    rw [insertVma]
    split_ifs
    · exact .refl _
    · exact ((insertRest_perm new cs).cons c).trans (.swap new c cs)

theorem insertRest_sorted (h : vmas.Pairwise fun v w => v.start.toNat ≤ w.start.toNat) :
    (insertRest new vmas).Pairwise fun v w => v.start.toNat ≤ w.start.toNat := by
  induction vmas with
  | nil => exact List.pairwise_singleton ..
  | cons c cs ih =>
    obtain ⟨hc, hcs⟩ := List.pairwise_cons.1 h
    rw [insertRest]
    split_ifs with hlt
    · rw [BitVec.lt_def] at hlt
      refine .cons ?_ (ih hcs)
      intro w hw
      rcases List.mem_cons.1 ((insertRest_perm new cs).mem_iff.1 hw) with rfl | hw
      · exact hlt.le
      · exact hc w hw
    · rw [BitVec.lt_def, not_lt] at hlt
      refine .cons ?_ h
      intro w hw
      rcases List.mem_cons.1 hw with rfl | hw
      · exact hlt
      · exact hlt.trans (hc w hw)

theorem insertVma_sorted (h : vmas.Pairwise fun v w => v.start.toNat ≤ w.start.toNat) :
    (insertVma new vmas).Pairwise fun v w => v.start.toNat ≤ w.start.toNat := by
  cases vmas with
  | nil => exact List.pairwise_singleton ..
  | cons c cs =>
    obtain ⟨hc, hcs⟩ := List.pairwise_cons.1 h
    rw [insertVma]
    split_ifs with hlt
    · rw [BitVec.lt_def] at hlt
      refine .cons ?_ h
      intro w hw
      rcases List.mem_cons.1 hw with rfl | hw
      · exact hlt.le
      · exact hlt.le.trans (hc w hw)
    · rw [BitVec.lt_def, not_lt] at hlt
      refine .cons ?_ (insertRest_sorted hcs)
      intro w hw
      rcases List.mem_cons.1 ((insertRest_perm new cs).mem_iff.1 hw) with rfl | hw
      · exact hlt
      · exact hc w hw

/-- A region at a free place is inserted. -/
theorem VmasOk.insert (h : VmasOk vmas) (hfree : Free vmas length new.start.toNat)
    (hstop : new.stop.toNat = new.start.toNat + length.toNat)
    (halign : new.start.toNat % 4096 = 0) (hlen : length.toNat % 4096 = 0) :
    VmasOk (insertVma new vmas) where
  sorted := insertVma_sorted h.sorted
  apart := by
    rw [(insertVma_perm new vmas).pairwise_iff fun {_ _} hvw => hvw.symm]
    refine .cons ?_ h.apart
    intro w hw
    have hclear := hfree w.range (List.mem_map_of_mem hw)
    simp only [VmArea.range] at hclear
    omega
  aligned := by
    intro w hw
    rcases List.mem_cons.1 ((insertVma_perm new vmas).mem_iff.1 hw) with rfl | hw
    · exact ⟨halign, by omega, by omega⟩
    · exact h.aligned w hw

/-- A region is removed. -/
theorem VmasOk.remove (h : VmasOk vmas) (s : Vm) (start : BitVec 64) :
    VmasOk (removeVma s vmas start).2 := by
  have hsub : (removeVma s vmas start).2.Sublist vmas := by
    rw [removeVma]
    split
    · exact .refl _
    · exact List.eraseP_sublist
  exact ⟨h.sorted.sublist hsub, h.apart.sublist hsub, fun v hv => h.aligned v (hsub.subset hv)⟩

/-! ## The search -/

/-- No sum that the search makes wraps. -/
def SearchNoWrap (vmas : List VmArea) (length : BitVec 64) : ℕ → Addr → Prop
  | 0, _ => True
  | n + 1, addr => addr.toNat + length.toNat < 2 ^ 64 ∧
    match vmas.find? fun v => ¬ (addr + length ≤ v.start ∨ v.stop ≤ addr) with
    | some v => SearchNoWrap vmas length n v.stop
    | none => True

/-- The test of the search, on the ranges. -/
theorem find?_range (h : addr.toNat + length.toNat < 2 ^ 64) :
    ((vmas.map VmArea.range).find? fun r => addr.toNat < r.2 ∧
        r.1 < addr.toNat + length.toNat) =
      (vmas.find? fun v => ¬ (addr + length ≤ v.start ∨ v.stop ≤ addr)).map VmArea.range := by
  have hsum : (addr + length).toNat = addr.toNat + length.toNat := BitVec.toNat_add_of_lt h
  rw [List.find?_map]
  congr 1
  apply List.find?_congr
  intro v _
  apply decide_eq_decide.2
  rw [BitVec.le_def, BitVec.le_def, hsum]
  simp only [VmArea.range]
  omega

/-- The search is a first fit on the ranges of the regions. -/
theorem toNat_findFreeLoop {n : ℕ} (h : SearchNoWrap vmas length n addr) :
    (findFreeLoop vmas length n addr).map (fun a => some a.toNat) =
      firstFit id (fun _ => true) length.toNat (vmas.map VmArea.range) n addr.toNat := by
  induction n generalizing addr with
  | zero => rfl
  | succ n ih =>
    obtain ⟨hsum, hrest⟩ := h
    simp only [findFreeLoop, firstFit, id, if_true, find?_range hsum]
    rcases hf : vmas.find? _ with _ | v
    · rfl
    · rw [hf] at hrest
      exact ih hrest

/-- The search ends, whether sums wrap or not: each round goes to the end of a region behind. -/
theorem exists_findFreeLoop (vmas : List VmArea) (length : BitVec 64) (n : ℕ) (addr : Addr)
    (hn : (vmas.map VmArea.range).countP (addr.toNat < ·.2) < n) :
    ∃ a, findFreeLoop vmas length n addr = some a := by
  induction n generalizing addr with
  | zero => omega
  | succ n ih =>
    rw [findFreeLoop]
    rcases hf : vmas.find? _ with _ | v
    · exact ⟨addr, rfl⟩
    · have hmem := List.mem_of_find?_eq_some hf
      have hcol := List.find?_some hf
      simp only [decide_eq_true_eq, not_or, BitVec.not_le] at hcol
      have hlt := countP_lt_of_collision (List.mem_map_of_mem (f := VmArea.range) hmem)
        (BitVec.lt_def.1 hcol.2)
      exact ih v.stop (Nat.lt_of_lt_of_le hlt (Nat.le_of_lt_succ hn))

theorem exists_findFreeVmaRegion (vmas : List VmArea) (length : BitVec 64) :
    ∃ a, findFreeVmaRegion vmas length = some a := by
  apply exists_findFreeLoop
  calc _ ≤ (vmas.map VmArea.range).length := List.countP_le_length
    _ < vmas.length + 1 := by rw [List.length_map]; exact Nat.lt_succ_self _

/-- The place that the search finds is a page boundary: it is where it started, or the end of a
region. -/
theorem findFreeLoop_aligned (h : VmasOk vmas) {n : ℕ} {a : Addr}
    (ha : findFreeLoop vmas length n addr = some a) (h0 : addr.toNat % 4096 = 0) :
    a.toNat % 4096 = 0 := by
  induction n generalizing addr with
  | zero => cases ha
  | succ n ih =>
    rw [findFreeLoop] at ha
    rcases hf : vmas.find? _ with _ | v
    · rw [hf] at ha
      cases ha
      exact h0
    · rw [hf] at ha
      exact ih ha (h.aligned v (List.mem_of_find?_eq_some hf)).2.1

/-- The sums of `find_free_vma_region` do not wrap. -/
def FindNoWrap (vmas : List VmArea) (length : BitVec 64) : Prop :=
  SearchNoWrap vmas length (vmas.length + 1) searchStart

/-- The last sum that the search makes. -/
theorem SearchNoWrap.last {n : ℕ} {a : Addr} (h : SearchNoWrap vmas length n addr)
    (ha : findFreeLoop vmas length n addr = some a) : a.toNat + length.toNat < 2 ^ 64 := by
  induction n generalizing addr with
  | zero => cases ha
  | succ n ih =>
    rw [findFreeLoop] at ha
    obtain ⟨hsum, hrest⟩ := h
    rcases hf : vmas.find? _ with _ | v
    · rw [hf] at ha
      cases ha
      exact hsum
    · rw [hf] at ha hrest
      exact ih hrest ha

/-- **The search finds the first free place.** -/
theorem findFreeVmaRegion_spec (h : VmasOk vmas) (hw : FindNoWrap vmas length) :
    ∃ a, findFreeVmaRegion vmas length = some a ∧
      IsLeast {x | searchStart.toNat ≤ x ∧ Free vmas length x} a.toNat ∧
      a.toNat % 4096 = 0 ∧ a.toNat + length.toNat < 2 ^ 64 := by
  obtain ⟨a, ha⟩ := exists_findFreeVmaRegion vmas length
  refine ⟨a, ha, ?_, findFreeLoop_aligned h ha (by decide), hw.last ha⟩
  obtain ⟨r, hr, hfirst⟩ := @firstFit_spec (fun _ => True) id (fun _ => true) length.toNat
    (vmas.map VmArea.range)
    (fun a => ⟨⟨trivial, le_rfl⟩, fun x hx => hx.2⟩) (fun _ _ _ _ => rfl) searchStart.toNat
  have hrun := hr (vmas.length + 1) (by
    calc _ ≤ (vmas.map VmArea.range).length := List.countP_le_length
      _ < vmas.length + 1 := by rw [List.length_map]; exact Nat.lt_succ_self _)
  rw [← toNat_findFreeLoop hw, show findFreeLoop _ _ _ _ = some a from ha, Option.map_some,
    Option.some.injEq] at hrun
  have hleast := hfirst.eq_some_iff.1 hrun.symm
  simpa only [places, Free, true_and, and_true] using hleast

/-! ## The calls -/

theorem roundLength_mod (length : BitVec 64) : (roundLength length).toNat % 4096 = 0 := by
  have hmask := toNat_and_not_mask (k := 12) (length + 4096 - 1) (by norm_num)
  rw [show roundLength length = (length + 4096 - 1) &&& ~~~BitVec.ofNat 64 (2 ^ 12 - 1) from rfl,
    hmask]
  omega

theorem isVmaOverlap_eq_false_iff (h : addr.toNat + length.toNat < 2 ^ 64) :
    isVmaOverlap vmas addr (addr + length) = false ↔ Free vmas length addr.toNat := by
  have hsum : (addr + length).toNat = addr.toNat + length.toNat := BitVec.toNat_add_of_lt h
  simp only [isVmaOverlap, List.any_eq_false, decide_eq_true_eq, not_not, Free, Clear,
    List.forall_mem_map, VmArea.range, BitVec.le_def, hsum]
  exact forall₂_congr fun v _ => or_comm

/-- The hint of a request can be taken: it is not null, aligned, and free. -/
def HintFree (vmas : List VmArea) (addr length : BitVec 64) : Prop :=
  addr ≠ 0 ∧ PageAligned addr ∧ Free vmas length addr.toNat

/-- No sum of addresses that `sys_mmap` makes wraps: the rounding, the end of a hint, and those of
the search, if it comes to it. -/
structure MmapNoWrap (vmas : List VmArea) (addr length : BitVec 64) : Prop where
  round : length.toNat + 4095 < 2 ^ 64
  hint : addr ≠ 0 → PageAligned addr → addr.toNat + (roundLength length).toNat < 2 ^ 64
  search : ¬ HintFree vmas addr (roundLength length) → FindNoWrap vmas (roundLength length)

/-- The start of a new region: the hint if it can be taken, and else the first free place. -/
theorem mmapStart_spec (h : VmasOk vmas)
    (hhint : addr ≠ 0 → PageAligned addr → addr.toNat + length.toNat < 2 ^ 64)
    (hsearch : ¬ HintFree vmas addr length → FindNoWrap vmas length) :
    ∃ a, mmapStart vmas addr length = some a ∧ a.toNat % 4096 = 0 ∧
      a.toNat + length.toNat < 2 ^ 64 ∧ Free vmas length a.toNat ∧
      (HintFree vmas addr length → a = addr) ∧
      (¬ HintFree vmas addr length → findFreeVmaRegion vmas length = some a ∧
        IsLeast {x | searchStart.toNat ≤ x ∧ Free vmas length x} a.toNat) := by
  have hiff : (addr = 0 ∨ addr &&& (4096 - 1) ≠ 0 ∨
      isVmaOverlap vmas addr (addr + length) = true) ↔ ¬ HintFree vmas addr length := by
    by_cases h0 : addr = 0
    · exact iff_of_true (.inl h0) fun hf => hf.1 h0
    by_cases h1 : PageAligned addr
    · have h1' : ¬ addr &&& (4096 - 1) ≠ 0 := not_not.2 h1
      rw [or_iff_right h0, or_iff_right h1', HintFree, and_iff_right h0, and_iff_right h1,
        ← isVmaOverlap_eq_false_iff (hhint h0 h1), Bool.not_eq_false]
    · exact iff_of_true (.inr (.inl h1)) fun hf => h1 hf.2.1
  rw [mmapStart]
  by_cases hf : HintFree vmas addr length
  · rw [if_neg (mt hiff.1 (not_not.2 hf))]
    exact ⟨addr, rfl, pageAligned_iff.1 hf.2.1, hhint hf.1 hf.2.1, hf.2.2, fun _ => rfl,
      fun hn => absurd hf hn⟩
  · rw [if_pos (hiff.2 hf)]
    obtain ⟨a, ha, hleast, halign, hsum⟩ := findFreeVmaRegion_spec h (hsearch hf)
    exact ⟨a, ha, halign, hsum, hleast.1.2, fun h => absurd h hf, fun _ => ⟨ha, hleast⟩⟩

/-- What `sys_mmap` does to the regions. -/
theorem sysMmap_vmas {pgd : Addr} {prot flags : BitVec 32} {r : MmapResult}
    (h : sysMmap s pgd vmas addr length prot flags = some r) :
    (roundLength length = 0 ∧ r = ⟨s, vmas, none⟩) ∨
    roundLength length ≠ 0 ∧ ∃ start s' node,
      mmapStart vmas addr (roundLength length) = some start ∧
      addVma s vmas start (roundLength length) (prot.signExtend 64) (flags.signExtend 64) =
        some (s', r.vmas) ∧
      r.vmas = insertVma ⟨node, start, start + roundLength length, prot.signExtend 64,
        flags.signExtend 64, 0, 0⟩ vmas ∧ (r.ret = some start ∨ r.ret = none) := by
  rw [sysMmap] at h
  dsimp only at h
  by_cases h0 : roundLength length = 0
  · rw [if_pos h0] at h
    exact .inl ⟨h0, (Option.some.inj h).symm⟩
  · rw [if_neg h0] at h
    obtain ⟨start, hstart, h⟩ := Option.bind_eq_some_iff.1 h
    obtain ⟨⟨s', vmas'⟩, hadd, h⟩ := Option.bind_eq_some_iff.1 h
    have hins := hadd
    rw [addVma] at hins
    split_ifs at hins with hnull
    simp only [Option.some.injEq, Prod.mk.injEq] at hins
    refine .inr ⟨h0, start, s', (Memory.allocate s.alloc sizeofVmArea).1, hstart, ?_⟩
    simp only at h
    split_ifs at h with hpop
    · obtain ⟨⟨s'', ok⟩, -, h⟩ := Option.bind_eq_some_iff.1 h
      cases h
      refine ⟨hadd, hins.2.symm, ?_⟩
      cases ok
      · exact .inr rfl
      · exact .inl rfl
    · cases h
      exact ⟨hadd, hins.2.symm, .inl rfl⟩

/-- What a call of `sys_mmap` that chooses `start` adds and returns: nothing for no pages, otherwise
the region from `start` on, and `start` unless the pages cannot be populated. -/
def MmapAdds (vmas : List VmArea) (start length : Addr) (prot flags : BitVec 32) (r : MmapResult) :
    Prop :=
  if roundLength length = 0 then r.vmas = vmas ∧ r.ret = none
  else (r.ret = some start ∨ r.ret = none) ∧ ∃ node, r.vmas = insertVma
    ⟨node, start, start + roundLength length, prot.signExtend 64, flags.signExtend 64, 0, 0⟩ vmas

/-- **The regions stay in order.** Whatever `sys_mmap`, the delivery of a signal and its return do
to the regions of a thread, as long as no sum of addresses wraps: they stay sorted, aligned and
apart, a hint that can be taken is taken, and otherwise the search ends at the first free place. The
region added starts where the call says. -/
theorem vmas_calls (h : VmasOk vmas) (s : Vm) :
    (∀ pgd addr length prot flags, MmapNoWrap vmas addr length →
      (∀ r, sysMmap s pgd vmas addr length prot flags = some r → VmasOk r.vmas) ∧
      ∃ start, mmapStart vmas addr (roundLength length) = some start ∧
        start.toNat % 4096 = 0 ∧
        (HintFree vmas addr (roundLength length) → start = addr) ∧
        (¬ HintFree vmas addr (roundLength length) →
          findFreeVmaRegion vmas (roundLength length) = some start ∧
          IsLeast {x | searchStart.toNat ≤ x ∧ Free vmas (roundLength length) x} start.toNat) ∧
        ∀ r, sysMmap s pgd vmas addr length prot flags = some r →
          MmapAdds vmas start length prot flags r) ∧
    (FindNoWrap vmas 4096 → ∃ start, findFreeVmaRegion vmas 4096 = some start ∧
      start.toNat % 4096 = 0 ∧
      IsLeast {x | searchStart.toNat ≤ x ∧ Free vmas 4096 x} start.toNat ∧
      ∀ s' vmas', addVma s vmas start 4096 (protRead ||| protWrite ||| protExec) mapAnonymous =
        some (s', vmas') → VmasOk vmas') ∧
    ∀ start, VmasOk (removeVma s vmas start).2 := by
  refine ⟨?_, ?_, fun start => h.remove s start⟩
  · intro pgd addr length prot flags hw
    obtain ⟨start, hstart, halign, hsum, hfree, hhint, hleast⟩ :=
      mmapStart_spec h hw.hint hw.search
    refine ⟨fun r hr => ?_, start, hstart, halign, hhint, hleast, fun r hr => ?_⟩
    · rcases sysMmap_vmas hr with ⟨-, rfl⟩ | ⟨-, start', s', node, hstart', -, hv, -⟩
      · exact h
      · rw [hstart] at hstart'
        cases hstart'
        rw [hv]
        exact h.insert hfree (BitVec.toNat_add_of_lt hsum) halign (roundLength_mod length)
    · rw [MmapAdds]
      rcases sysMmap_vmas hr with ⟨h0, rfl⟩ | ⟨h0, start', s', node, hstart', -, hv, hret⟩
      · rw [if_pos h0]
        exact ⟨rfl, rfl⟩
      · rw [hstart] at hstart'
        cases hstart'
        rw [if_neg h0]
        exact ⟨hret, node, hv⟩
  · intro hw
    obtain ⟨start, hstart, hleast, halign, hsum⟩ := findFreeVmaRegion_spec h hw
    refine ⟨start, hstart, halign, hleast, ?_⟩
    intro s' vmas' hadd
    rw [addVma] at hadd
    split_ifs at hadd with hnull
    cases hadd
    exact h.insert hleast.1.2 (BitVec.toNat_add_of_lt hsum) halign (by decide)

/-- The regions of a program of one page: its code and its stack. -/
def onePage : List VmArea :=
  [⟨0xffffffc080001000, 0, 0x1000, 7, mapAnonymous, 0, 0⟩,
    ⟨0xffffffc080001040, 0x3fffffe000, 0x4000000000, 3, mapAnonymous, 0, 0⟩]

theorem onePage_ok : VmasOk onePage where
  sorted := by decide
  apart := by decide
  aligned := by decide

/-- A request at the end of the code is granted. -/
theorem vmas_calls_onePage :
    mmapStart onePage 0x1000 (roundLength 5000) = some 0x1000 := by
  have hw : MmapNoWrap onePage 0x1000 5000 :=
    { round := by decide
      hint := by decide
      search := fun _ => ⟨by decide, trivial⟩ }
  obtain ⟨-, start, hstart, -, hhint, -⟩ :=
    (vmas_calls onePage_ok
      ⟨Memory.allocStart .qemu Memory.unsetBuddy 0xffffffc080000000 0x4000, fun _ _ => 0⟩).1
      0 0x1000 5000 0 0 hw
  rw [hstart, hhint ⟨by decide, by decide, ?_⟩]
  unfold Free Clear
  decide

end BareMetalOS.Mmu
