import BareMetalOS.Memory.AllocatorRuns
import BareMetalOS.Mmu.KernelMap
import BareMetalOS.Process.Calls
import BareMetalOS.Process.FaultPages
import Mathlib.Order.CompletePartialOrder

/-!
# What a process can reach

The invariant, read as what it says about memory. A process reaches the frames that its leaves map.
Such a frame is counted by the allocator as often as it is mapped, it is mapped once where it may be
written, and none of its bytes is in a page table or in a structure of the kernel
(`frames_of_reaches`). The kernel half of every address space translates as the page table of the
kernel did before the first process (`kernelHalf_of_reaches`). With the page table that `mmu_init`
builds, it maps every page where its address says, and only the text of the kernel can be executed
(`kernelMap_of_reaches`).
-/

namespace BareMetalOS.Process

open Memory (Addr blocks blockBytes pageSize)
open Mmu Sched Trap Files

variable {s s₀ : Sys} {vm s₁ s₂ : Vm} {p : Proc} {ps : List Addr} {lost loose : Addr → ℕ}
  {opened : List Addr} {x : Leaf} {w : BitVec 64} {q t pmd pt : Addr} {k : ℕ}
  {base : Addr → Option (ℕ × ℤ)} {held : List (Addr × ℕ)}

/-! ## Pages and blocks apart from each other -/

/-- A page that is referred to is a live block. -/
theorem live_of_refs (h : Owned vm ps loose base held) (hq : (refsAll vm.mem ps + loose) q ≠ 0) :
    Memory.Live vm.alloc q pageSize := by
  have hb := h.spaces.owns.blocks q
  rw [if_neg hq] at hb
  exact ((Memory.blocks_eq_some h.spaces.owns.inv).1 hb).1

/-- Two pages that are referred to. -/
theorem disjoint_pages (h : Owned vm ps loose base held) (hq : (refsAll vm.mem ps + loose) q ≠ 0)
    (ht : (refsAll vm.mem ps + loose) t ≠ 0) (hne : q ≠ t) :
    Disjoint (bytesAt q pageSize) (bytesAt t pageSize) :=
  (live_of_refs h hq).disjoint h.spaces.owns.inv (live_of_refs h ht) hne

/-- A page that is referred to, and a block. -/
theorem disjoint_block (h : Owned vm ps loose base held) (hq : (refsAll vm.mem ps + loose) q ≠ 0)
    (ht : (t, k) ∈ held) : Disjoint (bytesAt q pageSize) (bytesAt t k) := by
  have hb := h.blocks_of_mem ht
  refine (live_of_refs h hq).disjoint h.spaces.owns.inv
    ((Memory.blocks_eq_some h.spaces.owns.inv).1 hb).1 ?_
  rintro rfl
  -- a block is not referred to by tables
  have hother : withBlocks base held q = none := h.spaces.owns.disjoint q hq
  obtain ⟨e, he⟩ : ∃ e, held.find? (·.1 = q) = some e := by
    apply Option.ne_none_iff_exists'.1
    rw [ne_eq, List.find?_eq_none]
    exact fun hno => hno _ ht (by simp)
  rw [withBlocks, he] at hother
  cases hother

/-! ## Frames -/

/-- The frame of a leaf: its count, and that its bytes are its own. -/
structure OwnFrame (s₀ s : Sys) (w : BitVec 64) : Prop where
  counted : 0 < mappings s.vm.mem (pgds s.procs) (frameAt w) ∧ blocks s.vm.alloc (frameAt w) =
    some (pageSize, (mappings s.vm.mem (pgds s.procs) (frameAt w) : ℤ))
  writable : HasFlag w pteW → mappings s.vm.mem (pgds s.procs) (frameAt w) = 1
  tables : ∀ q ∈ s.procs, ∀ t, IsTable 256 s.vm.mem q.pgd t →
    Disjoint (bytesAt (frameAt w) pageSize) (bytesAt t pageSize)
  kernelTables : ∀ t, IsTable 512 s₀.vm.mem s₀.kernelPgd t →
    Disjoint (bytesAt (frameAt w) pageSize) (bytesAt t pageSize)
  threads : ∀ q ∈ s.procs, ∀ e ∈ q.blocks, Disjoint (bytesAt (frameAt w) pageSize) (bytesAt e.1 e.2)
  files : ∀ f, s.files f ≠ none →
    Disjoint (bytesAt (frameAt w) pageSize) (bytesAt f (blockBytes sizeofFile))
  held : ∀ e ∈ s.held, Disjoint (bytesAt (frameAt w) pageSize) (bytesAt e.1 e.2)

theorem Inv.ownFrame (h : Inv s₀.ground s lost opened) (hp : p ∈ s.procs)
    (hx : leafAt 256 s.vm.mem p.pgd x = some w) : OwnFrame s₀ s w := by
  have hmapped : mapped s.vm.mem p.pgd x = some (frameAt w) := by
    rw [mapped, hx]
    rfl
  have hpos : (refsAll s.vm.mem (pgds s.procs) + (s₀.ground.tables + lost)) (frameAt w) ≠ 0 := by
    have := refsAll_pos hx (mem_pgds hp)
    rw [Pi.add_apply]
    omega
  have hblock : ∀ e ∈ allBlocks s.procs opened s.held,
      Disjoint (bytesAt (frameAt w) pageSize) (bytesAt e.1 e.2) := fun e he =>
    disjoint_block h.owned hpos he
  refine ⟨h.blocks_mapped hp hmapped, fun hw => ?_, fun q hq t ht => ?_, fun t ht => ?_,
    fun q hq e he => ?_, fun f hf => ?_, fun e he => ?_⟩
  · rw [← refsAll_eq_mappings fun pgd hm => h.not_isTable_leaf hp hx hm]
    exact h.writable p hp x w hx hw
  · refine disjoint_pages h.owned hpos ?_ ?_
    · have := Inv.refsAll_table_pos hq ht
      rw [Pi.add_apply]
      omega
    · rintro rfl
      exact h.not_isTable_leaf hp hx (mem_pgds hq) ht
  · have hone : s₀.ground.tables t = 1 := if_pos ht
    have hloose : (s₀.ground.tables + lost) t ≠ 0 := by
      rw [Pi.add_apply]
      omega
    refine disjoint_pages h.owned hpos ?_ ?_
    · rw [Pi.add_apply]
      omega
    · rintro rfl
      exact hloose (h.frame_loose hp hx)
  · exact hblock e (List.mem_append_left _ (List.mem_flatMap.2 ⟨q, hq, he⟩))
  · exact hblock (fileBlock f) (List.mem_append_right _ (List.mem_append_left _
      (List.mem_map_of_mem ((h.files.mem f).2 hf))))
  · exact hblock e (List.mem_append_right _ (List.mem_append_right _ he))

/-- **Frames.** In every state of a run, the allocator counts the mappings of each frame that is
mapped, a frame that may be written is mapped once, and no byte of a frame is in a page table or in
a structure of the kernel. -/
theorem frames_of_reaches (h₀ : Booted s₀) (h : Reaches s₀ s) (hp : p ∈ s.procs)
    (hx : leafAt 256 s.vm.mem p.pgd x = some w) : OwnFrame s₀ s w := by
  obtain ⟨lost, opened, hinv⟩ := h.inv h₀.inv
  exact hinv.ownFrame hp hx

/-- The page of the stack that a program has written to. -/
theorem frames_of_reaches_stack : ∃ s p w, sixteenPages.soundRun stackStored = some s ∧
    s.proc firstThread = some p ∧ leafAt 256 s.vm.mem p.pgd (leafIndex stackWord) = some w ∧
    OwnFrame sixteenPages s w := by
  have hrun : ((sixteenPages.soundRun stackStored).bind fun s => (s.proc firstThread).bind fun p =>
      (leafAt 256 s.vm.mem p.pgd (leafIndex stackWord)).map fun _ => true) = some true := by
    decide +kernel
  obtain ⟨s, hs, hrun⟩ := Option.bind_eq_some_iff.1 hrun
  obtain ⟨p, hp, hrun⟩ := Option.bind_eq_some_iff.1 hrun
  obtain ⟨w, hw, -⟩ := Option.map_eq_some_iff.1 hrun
  exact ⟨s, p, w, hs, hp, hw, frames_of_reaches booted_sixteenPages (reaches_soundRun hs)
    (List.mem_of_find?_eq_some hp) hw⟩

/-! ## The kernel half -/

/-- The translations of the upper half depend on the upper half of the PGD and the tables below
it. -/
theorem leafAt_upper {m m' : Mem} {pgd pgd' : Addr} (hx : 256 ≤ x.1.val)
    (hupper : ∀ i : Fin 512, 256 ≤ i.val → m' pgd' i = m pgd i)
    (htables : ∀ t, IsTable 512 m pgd t → m' t = m t) :
    leafAt 512 m' pgd' x = leafAt 512 m pgd x := by
  have hpmd : pmdAt 512 m' pgd' x.1 = pmdAt 512 m pgd x.1 := by
    rw [pmdAt, pmdAt, next, next, hupper x.1 hx]
  have hpt : ptAt 512 m' pgd' (x.1, x.2.1) = ptAt 512 m pgd (x.1, x.2.1) := by
    rw [ptAt, ptAt, hpmd]
    cases hi : pmdAt 512 m pgd x.1 with
    | none => rfl
    | some pmd => rw [Option.bind_some, Option.bind_some, next, next, htables pmd (isTable_pmd hi)]
  rw [leafAt, leafAt, hpt]
  cases hi : ptAt 512 m pgd (x.1, x.2.1) with
  | none => rfl
  | some pt => rw [Option.bind_some, Option.bind_some, htables pt (isTable_pt hi)]

/-- The tables of the kernel stay as they are. -/
theorem Inv.kernelTables (hinv : Inv s₀.ground s lost opened) (t : Addr)
    (ht : IsTable 512 s₀.vm.mem s₀.kernelPgd t) : s.vm.mem t = s₀.vm.mem t := by
  have hone : s₀.ground.tables t = 1 := if_pos ht
  exact hinv.kernel t (by rw [hone]; exact one_ne_zero)

/-- The upper half in a state that the invariant holds of. -/
theorem Inv.kernelHalf (hinv : Inv s₀.ground s lost opened) (hx : 256 ≤ x.1.val) :
    (∀ p ∈ s.procs, leafAt 512 s.vm.mem p.pgd x = leafAt 512 s₀.vm.mem s₀.kernelPgd x) ∧
      leafAt 512 s.vm.mem s.kernelPgd x = leafAt 512 s₀.vm.mem s₀.kernelPgd x := by
  have hpgd : s.kernelPgd = s₀.kernelPgd := hinv.pgd.1
  refine ⟨fun p hp => leafAt_upper hx (hinv.upper p hp) hinv.kernelTables, ?_⟩
  rw [hpgd, (sameSpace_of_eq hinv.kernelTables).leaf]

/-- **The kernel half.** In every state of a run, each process and the kernel itself translate the
addresses of the upper half as the page table of the kernel did at the start. -/
theorem kernelHalf_of_reaches (h₀ : Booted s₀) (h : Reaches s₀ s) (hx : 256 ≤ x.1.val) :
    (∀ p ∈ s.procs, leafAt 512 s.vm.mem p.pgd x = leafAt 512 s₀.vm.mem s₀.kernelPgd x) ∧
      leafAt 512 s.vm.mem s.kernelPgd x = leafAt 512 s₀.vm.mem s₀.kernelPgd x := by
  obtain ⟨lost, opened, hinv⟩ := h.inv h₀.inv
  exact hinv.kernelHalf hx

/-- The first addresses of the upper half, after a program has written to its stack. -/
theorem kernelHalf_of_reaches_stack : ∃ s, sixteenPages.soundRun stackStored = some s ∧
    (∀ p ∈ s.procs, leafAt 512 s.vm.mem p.pgd (256, 0, 0) =
      leafAt 512 sixteenPages.vm.mem sixteenPages.kernelPgd (256, 0, 0)) ∧
    leafAt 512 s.vm.mem s.kernelPgd (256, 0, 0) =
      leafAt 512 sixteenPages.vm.mem sixteenPages.kernelPgd (256, 0, 0) := by
  have hrun : ((sixteenPages.soundRun stackStored).map fun _ => true) = some true := by
    decide +kernel
  obtain ⟨s, hs, -⟩ := Option.map_eq_some_iff.1 hrun
  exact ⟨s, hs, kernelHalf_of_reaches booted_sixteenPages (reaches_soundRun hs) (by decide)⟩

/-! ## A small kernel -/

/-- A kernel of two pages in a pool of sixteen, apart from the devices. -/
def smallLayout : Layout :=
  ⟨0xffffffc0c0000000, 0x10000, 0xffffffc0c0001000, 0xffffffc0c0002000, 0xffffffc0c0003000, 0, 0⟩

def fwCfg : MapCall := ⟨0x10100000 + pageOffset, 0x10100000, 4096, protMmio⟩

def framebufferCall : MapCall := ⟨0x87000000 + pageOffset, 0x87000000, 0x800000, protMmio⟩

theorem smallLayout_wellFormed : smallLayout.WellFormed .qemu :=
  ⟨by decide, by decide, by decide, by decide⟩

/-- The memory after some calls of `allocate`. -/
def holding (a : Memory.Allocator) (sizes : List ℕ) : Vm :=
  ⟨sizes.foldl (fun a size => (Memory.allocate a size).2) a, fun _ _ => 0⟩

/-- The calls of `mmu_init` for the pool, the text and the read-only data. -/
def sectionsMapped (vm : Vm) : Vm :=
  (mapCalls vm.allocPage.1 [smallLayout.pool, smallLayout.text, smallLayout.rodata]
    (vm.allocPage.2.setPage vm.allocPage.1 fun _ => 0)).getD vm

/-- The first step of the first call. -/
def firstMapped (vm : Vm) : Vm :=
  mapPage (vm.allocPage.2.setPage vm.allocPage.1 fun _ => 0) vm.allocPage.1 smallLayout.pool.va
    smallLayout.pool.pa smallLayout.pool.prot

/-- After the first page `mmu_init` has the tables for the pool, and no memory for others. -/
structure Scarce (vm : Vm) (pmd pt : Addr) : Prop where
  root : vm.allocPage.1 ≠ 0
  middle : next (firstMapped vm).mem vm.allocPage.1 259 = some pmd
  last : next (firstMapped vm).mem pmd 0 = some pt
  ne : pt ≠ vm.allocPage.1 ∧ pt ≠ pmd
  empty : ∀ i ∈ [256, 258], ¬ HasFlag ((firstMapped vm).mem vm.allocPage.1 i) pteV
  full : (firstMapped vm).allocPage.1 = 0
  leaf : leafAt 512 (firstMapped vm).mem vm.allocPage.1 (leafIndex smallLayout.poolStart) ≠ none

/-- The sections are in the two megabytes of the first page. -/
theorem vpn_smallLayout {b : Addr} (hb : smallLayout.poolStart ≤ b)
    (hlt : b < smallLayout.poolStart + smallLayout.poolSize) : vpn b 30 = 259 ∧ vpn b 21 = 0 := by
  rw [BitVec.le_def] at hb
  rw [BitVec.lt_def] at hlt
  change 0xffffffc0c0000000 ≤ b.toNat at hb
  change b.toNat < 0xffffffc0c0010000 at hlt
  constructor
  · apply Fin.ext
    rw [val_vpn]
    change _ = 259
    omega
  · apply Fin.ext
    rw [val_vpn]
    change _ = 0
    omega

/-- What the loops of `mmu_init` keep in the memory that it has mapped the first page of. -/
structure OnlySections (vm₁ : Vm) (pt : Addr) (vm₂ : Vm) : Prop where
  alloc : vm₂.alloc = vm₁.alloc
  mem : ∀ t, t ≠ pt → vm₂.mem t = vm₁.mem t

/-- A call for a section. -/
theorem OnlySections.run {c : MapCall} (h : Scarce vm pmd pt)
    (hk : OnlySections (firstMapped vm) pt s₁) (hc : c.Proper) (hlow : smallLayout.poolStart ≤ c.va)
    (hhigh : c.va + c.size ≤ smallLayout.poolStart + smallLayout.poolSize)
    (hrun : c.run vm.allocPage.1 s₁ = some s₂) : OnlySections (firstMapped vm) pt s₂ := by
  have hfits := hc.fits
  have hstop : (c.va + c.size).toNat + 4096 ≤ 2 ^ 64 := by
    have := Nat.mod_le (c.va.toNat + c.size.toNat) (2 ^ 64)
    rw [BitVec.toNat_add]
    omega
  obtain ⟨halloc, hmem⟩ := mapLoop_block hstop h.ne.1 h.ne.2 _
    (by rw [next, hk.mem _ h.ne.1.symm]; exact h.middle)
    (by rw [next, hk.mem _ h.ne.2.symm]; exact h.last)
    (fun b hb hlt => vpn_smallLayout (BitVec.le_trans hlow hb) (by
      rw [BitVec.lt_def] at hlt ⊢
      rw [BitVec.le_def] at hhigh
      omega)) hrun
  exact ⟨halloc.trans hk.alloc, fun t ht => (hmem t ht).trans (hk.mem t ht)⟩

/-- A call for a device, which is in another gigabyte. -/
theorem OnlySections.device {c : MapCall} {i : Fin 512} (h : Scarce vm pmd pt)
    (hr : Memory.AllocReachable vm.alloc) (hk : OnlySections (firstMapped vm) pt s₁)
    (hc : c.Proper) (hi : i ∈ [256, 258])
    (hidx : ∀ b : Addr, c.va ≤ b → b < c.va + c.size → vpn b 30 = i)
    (hrun : c.run vm.allocPage.1 s₁ = some s₂) : s₂ = s₁ := by
  have hreach : Memory.AllocReachable s₁.alloc := by
    rw [hk.alloc]
    exact hr.calls ((VmCalls.allocPage vm).setPage _ _ |>.trans (VmCalls.mapPage _ _ _ _ _)).calls
  have hfull : s₁.allocPage = (0, s₁) := by
    refine allocPage_full hreach ?_
    have hf := h.full
    rw [Vm.allocPage] at hf ⊢
    rw [hk.alloc]
    exact hf
  refine hc.run_of_full hfull (fun b hb hlt => ?_) hrun
  rw [hidx b hb hlt, hk.mem _ h.ne.1.symm]
  exact h.empty i hi

theorem vpn_fwCfg {b : Addr} (hb : fwCfg.va ≤ b) (hlt : b < fwCfg.va + fwCfg.size) :
    vpn b 30 = 256 := by
  rw [BitVec.le_def] at hb
  rw [BitVec.lt_def] at hlt
  change 0xffffffc010100000 ≤ b.toNat at hb
  change b.toNat < 0xffffffc010101000 at hlt
  apply Fin.ext
  rw [val_vpn]
  change _ = 256
  omega

theorem vpn_framebuffer {b : Addr} (hb : framebufferCall.va ≤ b)
    (hlt : b < framebufferCall.va + framebufferCall.size) : vpn b 30 = 258 := by
  rw [BitVec.le_def] at hb
  rw [BitVec.lt_def] at hlt
  change 0xffffffc087000000 ≤ b.toNat at hb
  change b.toNat < 0xffffffc087800000 at hlt
  apply Fin.ext
  rw [val_vpn]
  change _ = 258
  omega

/-- Then it maps the sections, and nothing else. -/
theorem Scarce.mmuInit (h : Scarce vm pmd pt) (hr : Memory.AllocReachable vm.alloc) :
    mmuInit .qemu smallLayout vm = some (sectionsMapped vm, vm.allocPage.1) ∧
      Built (sectionsMapped vm) vm.allocPage.1 ∧ leafAt 512 (sectionsMapped vm).mem vm.allocPage.1
        (leafIndex smallLayout.poolStart) ≠ none := by
  obtain ⟨vm', hcalls, hmap, hbuilt⟩ := mmuInit_built hr h.root smallLayout_wellFormed
  have hdevices : smallLayout.calls .qemu =
      [smallLayout.pool, smallLayout.text, smallLayout.rodata, fwCfg, framebufferCall] := by
    simp [Layout.calls, Layout.devices, smallLayout, fwCfg, framebufferCall]
  have hproper := Layout.proper smallLayout_wellFormed
  have hradix := (Built.new hr h.root).radix
  rw [hdevices] at hcalls hproper
  -- the pool after its first page, the other sections, and the devices in two other gigabytes
  set base := vm.allocPage.2.setPage vm.allocPage.1 fun _ => 0 with hbase
  simp only [mapCalls, Option.bind_eq_bind, Option.bind_eq_some_iff, Option.some_inj] at hcalls
  obtain ⟨s₁, h₁, s₂, h₂, s₃, h₃, s₄, h₄, s₅, h₅, rfl⟩ := hcalls
  have hfirst : mapLoop vm.allocPage.1 (smallLayout.pool.va + smallLayout.pool.size)
      smallLayout.pool.prot 17 (firstMapped vm) (smallLayout.pool.va + 4096)
      (smallLayout.pool.pa + 4096) = some s₁ := by
    rw [MapCall.run, mapPagesAt, show smallLayout.pool.size.toNat / 4096 + 2 = 17 + 1 from rfl,
      mapLoop, if_pos (by decide)] at h₁
    exact h₁
  obtain ⟨halloc, hmem⟩ := mapLoop_block (by decide) h.ne.1 h.ne.2 17 h.middle h.last
    (fun b hb hlt => vpn_smallLayout (BitVec.le_trans (by decide) hb) hlt) hfirst
  have hk₂ := OnlySections.run h ⟨halloc, hmem⟩ (hproper smallLayout.text (by simp)) (by decide)
    (by decide) h₂
  have hk₃ := OnlySections.run h hk₂ (hproper smallLayout.rodata (by simp)) (by decide)
    (by decide) h₃
  have h₄' := hk₃.device h hr (hproper fwCfg (by simp)) (by simp) (fun _ => vpn_fwCfg) h₄
  rw [h₄'] at h₅
  have h₅' := hk₃.device h hr (hproper framebufferCall (by simp)) (by simp)
    (fun _ => vpn_framebuffer) h₅
  rw [h₅'] at hmap hbuilt
  have hsections : sectionsMapped vm = s₃ := by
    simp only [sectionsMapped, ← hbase, mapCalls, Option.bind_eq_bind, h₁, h₂, h₃, Option.bind_some,
      Option.getD_some]
  rw [hsections]
  refine ⟨hmap, hbuilt, ?_⟩
  -- what is there after the first page stays
  have hr₁ : Radix s₁ vm.allocPage.1 :=
    ((hproper smallLayout.pool (by simp)).leaf hradix h₁).1
  have hkeep := (mapLoop_present (hproper smallLayout.pool (by simp)).valid (by decide) 17 _ _ _
    (hradix.mapPage _ _ _).1 hfirst).1
  have hlast : mapCalls vm.allocPage.1 [smallLayout.text, smallLayout.rodata] s₁ = some s₃ := by
    simp only [mapCalls, Option.bind_eq_bind, h₂, h₃, Option.bind_some]
  have hsome : ∀ c ∈ [smallLayout.text, smallLayout.rodata], c.Proper := by
    intro c hc
    refine hproper c ?_
    rcases List.mem_pair.1 hc with rfl | rfl <;> simp
  exact (mapCalls_present hsome hr₁ hlast).1 _ (hkeep _ h.leaf)

/-- The kernel then frees its first block, before its first process. -/
def smallSys (vm : Vm) (idx : ℕ) : Sys :=
  { sixteenPages with
    vm := (sectionsMapped vm).freePage (Memory.pageToAddr (sectionsMapped vm).alloc.buddy idx)
    kernelPgd := vm.allocPage.1 }

theorem mem_smallSys (vm : Vm) (idx : ℕ) : (smallSys vm idx).vm.mem = (sectionsMapped vm).mem :=
  rfl

/-- The block is of several pages, and so it is not a page table. -/
theorem isTable_smallSys {idx : ℕ} (hbuilt : Built (sectionsMapped vm) vm.allocPage.1)
    (hlt : idx < (sectionsMapped vm).alloc.buddy.memTotalPage)
    (hst : ((sectionsMapped vm).alloc.buddy.frameArray idx).state = .allocPageHead)
    {k : ℕ} (ho : ((sectionsMapped vm).alloc.buddy.frameArray idx).order = k) (hk : k ≠ 0)
    (ht : IsTable 512 (sectionsMapped vm).mem vm.allocPage.1 t) :
    (smallSys vm idx).vm.mem t = (sectionsMapped vm).mem t ∧
      blocks (smallSys vm idx).vm.alloc t = blocks (sectionsMapped vm).alloc t := by
  have hinv := hbuilt.radix.inv
  have hblock := (Memory.blocks_eq_some hinv).2 ⟨.page hlt hst ho, rfl⟩
  have hne : t ≠ Memory.pageToAddr (sectionsMapped vm).alloc.buddy idx := by
    rintro rfl
    have hpage := hbuilt.radix.held _ ht
    rw [hblock, Option.some_inj, Prod.mk.injEq] at hpage
    have hpow := Nat.one_lt_two_pow hk
    simp only [pageSize] at hpage
    omega
  refine ⟨rfl, ?_⟩
  rw [smallSys, Vm.freePage, Memory.free_blocks hinv hbuilt.radix.real hblock,
    Function.update_of_ne hne]

theorem booted_smallSys {idx k : ℕ} (hr : Memory.AllocReachable vm.alloc) (h : Scarce vm pmd pt)
    (hlt : idx < (sectionsMapped vm).alloc.buddy.memTotalPage)
    (hst : ((sectionsMapped vm).alloc.buddy.frameArray idx).state = .allocPageHead)
    (ho : ((sectionsMapped vm).alloc.buddy.frameArray idx).order = k) (hk : k ≠ 0) :
    Booted (smallSys vm idx) := by
  obtain ⟨hmap, hbuilt, -⟩ := h.mmuInit hr
  exact ⟨.other hbuilt ((hr.calls (VmCalls.mmuInit hmap).calls).free _)
    fun t => isTable_smallSys hbuilt hlt hst ho hk, rfl, rfl, rfl⟩

/-- The first entry for the pool is in the page table of each process. -/
theorem leafOf_smallSys {idx : ℕ} (hr : Memory.AllocReachable vm.alloc) (h : Scarce vm pmd pt)
    (h₀ : Booted (smallSys vm idx)) (hs : Reaches (smallSys vm idx) s) {p : Proc}
    (hp : p ∈ s.procs) : ∃ w, leafOf s.vm p.pgd smallLayout.poolStart = some w := by
  obtain ⟨-, -, hleaf⟩ := h.mmuInit hr
  obtain ⟨lost, opened, hinv⟩ := hs.inv h₀.inv
  obtain ⟨w, hw⟩ := Option.ne_none_iff_exists'.1 hleaf
  refine ⟨w, ?_⟩
  rw [leafOf_eq, (hinv.kernelHalf (by decide)).1 p hp]
  exact hw

theorem holding_calls (a : Memory.Allocator) (sizes : List ℕ) :
    Memory.AllocCalls a (holding a sizes).alloc := by
  rw [holding]
  induction sizes generalizing a with
  | nil => exact .refl _
  | cons size sizes ih => exact (Memory.AllocCalls.allocate a size).trans (ih _)

/-- What `allocate` has for sixteen pages. -/
def sixteenMore : Memory.Allocator :=
  Memory.allocStart .qemu Memory.unsetBuddy 0xffffffc0c0000000 0x10000

/-- The kernel holds some blocks while `mmu_init` runs, so that three pages are left. -/
def smallHeld : Vm := holding sixteenMore [0x8000, 0x4000, 0x1000]

theorem scarce_smallHeld : Scarce smallHeld 0xffffffc0c000e000 0xffffffc0c000f000 where
  root := by decide +kernel
  middle := by decide +kernel
  last := by decide +kernel
  ne := by decide +kernel
  empty := by decide +kernel
  full := by decide +kernel
  leaf := by decide +kernel

/-- A program is started there, writes to its stack, and makes a call. -/
def smallProgram (a : Addr) : List Op :=
  [.launch 0 0x1000, .fault a 15 stackWord, .store a stackWord (Fin.last 511) 7,
    .trap a (trapRegs a), .call a 0, .checkSignals a]

theorem exists_proc_of_addrs {a : Addr} (h : s.procs.map (·.addr) = [a]) :
    ∃ p, p ∈ s.procs := by
  have hmem : a ∈ s.procs.map (·.addr) := by
    rw [h]
    exact List.mem_singleton_self _
  obtain ⟨p, hp, -⟩ := List.mem_map.1 hmem
  exact ⟨p, hp⟩

/-! ## The kernel map -/

/-- **The kernel in every address space.** If the page table of the kernel is that of `mmu_init`,
then in every state of a run the entry of an upper address, in the page table of any process and in
that of the kernel, is that of the address itself, out of reach for user mode, executable exactly
for the text and writable exactly outside of the text and the read-only data. -/
theorem kernelMap_of_reaches {board : Memory.Board} {l : Layout} {vm₀ vm₁ : Vm}
    (halloc : Memory.AllocReachable vm₀.alloc) (hl : l.WellFormed board)
    (hmap : mmuInit board l vm₀ = some (vm₁, s₀.kernelPgd))
    (hkeep : ∀ t, IsTable 512 vm₁.mem s₀.kernelPgd t → s₀.vm.mem t = vm₁.mem t)
    (h₀ : Booted s₀) (h : Reaches s₀ s) {va : Addr} (hva : pageOffset ≤ va) :
    (∀ p ∈ s.procs, ∀ w, leafOf s.vm p.pgd va = some w → KernelEntry l va w) ∧
      ∀ w, leafOf s.vm s.kernelPgd va = some w → KernelEntry l va w := by
  have hnat : 2 ^ 64 - 2 ^ 38 ≤ va.toNat := by
    rw [BitVec.le_def] at hva
    exact hva
  have hx : 256 ≤ (leafIndex va).1.val := by
    rw [leafIndex, val_vpn]
    have := va.isLt
    omega
  -- the tables that `mmu_init` has left are those that the run starts with
  have hstart : leafAt 512 s₀.vm.mem s₀.kernelPgd (leafIndex va) =
      leafAt 512 vm₁.mem s₀.kernelPgd (leafIndex va) :=
    leafAt_upper hx (fun i _ => congrFun (hkeep _ (.inl rfl)) i) hkeep
  have hinit : ∀ w, leafAt 512 s₀.vm.mem s₀.kernelPgd (leafIndex va) = some w →
      KernelEntry l va w := by
    intro w hw
    rw [hstart] at hw
    exact mmuInit_entry halloc hl hmap (.inr hnat) hw
  obtain ⟨lost, opened, hinv⟩ := h.inv h₀.inv
  obtain ⟨hprocs, hkernel⟩ := hinv.kernelHalf hx
  refine ⟨fun p hp w hw => hinit w ?_, fun w hw => hinit w ?_⟩
  · rw [← hprocs p hp, ← leafOf_eq]
    exact hw
  · rw [← hkernel, ← leafOf_eq]
    exact hw

/-- A program that runs on the small kernel. -/
theorem kernelMap_of_reaches_program : ∃ s,
    (smallSys smallHeld 0).soundRun (smallProgram 0xffffffc0c0000c00) = some s ∧
    ∃ p ∈ s.procs, ∃ w, leafOf s.vm p.pgd smallLayout.poolStart = some w ∧
      KernelEntry smallLayout smallLayout.poolStart w := by
  have hr : Memory.AllocReachable sixteenMore :=
    .start .qemu Memory.unsetBuddy _ _
      (Memory.realPool_buddySetRegion _ _ _ (by decide) (by decide))
  have hheld : Memory.AllocReachable smallHeld.alloc := hr.calls (holding_calls _ _)
  have h₀ : Booted (smallSys smallHeld 0) :=
    @booted_smallSys smallHeld _ _ 0 3 hheld scarce_smallHeld (by decide +kernel)
      (by decide +kernel) (by decide +kernel) (by decide)
  have hrun : ((smallSys smallHeld 0).soundRun (smallProgram 0xffffffc0c0000c00)).map
      (fun s => s.procs.map (·.addr)) = some [0xffffffc0c0000c00] := by
    decide +kernel
  obtain ⟨s, hs, hprocs⟩ := Option.map_eq_some_iff.1 hrun
  obtain ⟨p, hp⟩ := exists_proc_of_addrs hprocs
  obtain ⟨w, hw⟩ := leafOf_smallSys hheld scarce_smallHeld h₀ (reaches_soundRun hs) hp
  have hmap : mmuInit .qemu smallLayout smallHeld =
      some (sectionsMapped smallHeld, (smallSys smallHeld 0).kernelPgd) :=
    (scarce_smallHeld.mmuInit hheld).1
  refine ⟨s, hs, p, hp, w, hw, ?_⟩
  exact (kernelMap_of_reaches hheld smallLayout_wellFormed hmap
    (fun _ _ => congrFun (mem_smallSys _ _) _) h₀ (reaches_soundRun hs) (by decide)).1 p hp w hw

end BareMetalOS.Process
