import BareMetalOS.Boot.Reservation
import BareMetalOS.Process.Calls
import BareMetalOS.Process.Frames

/-!
# The kernel image

`allocator_init` reserves the image of the kernel, the device tree, the initramfs, the regions that
the device tree reports, and the frame array; `mmu_init` maps the text of the kernel read-only. Both
hold for good: a run of processes calls the allocator and nothing else, so that no frame of a
process is in a region in use, and the kernel half of every page table stays as it is.

The main result is `kernelImage_of_reaches`: in every state of a run from such a boot, no page table
of a process gives user mode access to a region in use, none allows to write to the text or the
read-only data of the kernel, and of the kernel half only the text can be executed.
-/

namespace BareMetalOS.Process

open Boot (Image Blob InUse FitsTable Overlaps allocatorInit)
open Memory (Addr Allocator AllocCalls AllocInv AllocReachable Board Live RealPool blocks pageSize
  pageToAddr)
open Mmu Sched Trap Files

variable {board : Board} {image : Image} {fdt : Option Blob} {fa va : Addr} {a a' a₀ : Allocator}
  {l : Layout} {s s₀ : Sys} {vm vm' : Vm} {pgd : Addr} {p : Proc} {w : BitVec 64} {x : Leaf}

/-! ## The allocator after `allocator_init` -/

/-- A completed `allocator_init` leaves a state to which the results about calls apply. -/
theorem allocReachable_allocatorInit (h : allocatorInit board image fdt a₀ = some (fa, a))
    (hfa : fa ≠ 0) (hreal : RealPool a.buddy) : AllocReachable a := by
  obtain ⟨pool, b, l, -, hb, -, rfl, -⟩ := Boot.allocatorInit_spec h hfa
  set t := ((Boot.submitted l fa b).foldl (Boot.memoryReserve b) []).foldl
    Boot.buddyMarkReservedRange (Boot.clearFrames b) with ht
  have hclear : Memory.SamePool b (Boot.clearFrames b) := ⟨rfl, rfl, rfl, rfl⟩
  have hsame : Memory.SamePool b t := hclear.trans (Boot.samePool_foldl_mark _ _)
  -- the region was set before the pages were marked
  have hset : Memory.buddySetRegion board t (Boot.toVirtual pool.start) pool.size = t := by
    have hfields : Memory.buddySetRegion board t (Boot.toVirtual pool.start) pool.size =
        { t with mempoolStart := b.mempoolStart, mempoolSize := b.mempoolSize,
                 memTotalPage := b.memTotalPage } := by
      rw [hb]
      rfl
    rw [hfields, ← hsame.start, ← hsame.size, ← hsame.total]
  have hinit := Memory.buddyInit_spec t
  have hstart := AllocReachable.start board t (Boot.toVirtual pool.start) pool.size (by
    rw [hset]
    refine ⟨?_, ?_⟩
    · rw [← hinit.start]
      exact hreal.start
    · rw [← hinit.start, ← hinit.total]
      exact hreal.fits)
  rw [Memory.allocStart, hset] at hstart
  exact hstart

/-- A region whose pages were reserved stays apart from every live block. -/
theorem disjoint_of_calls (ha : AllocInv a) {r : Boot.Region}
    (hr : ∀ idx < a.buddy.memTotalPage, Overlaps a.buddy idx r →
      (a.buddy.frameArray idx).state = .reserved)
    (hcalls : AllocCalls a a') {q : Addr} {n : ℕ} (hl : Live a' q n) :
    Disjoint (bytesAt q n) (bytesAt r.start r.size.toNat) := by
  obtain ⟨hinv, hpool, hres⟩ := hcalls.keeps ha
  rw [Set.disjoint_left]
  intro y hy hy'
  -- the page of a common address is reserved
  obtain ⟨o, ho, rfl⟩ := hl.subset_pool hinv hy
  rw [hinv.pool.size, hpool.total] at ho
  have hidx : o / pageSize < a.buddy.memTotalPage := (Nat.div_lt_iff_lt_mul (by decide)).2 ho
  have hpage : a'.buddy.mempoolStart + BitVec.ofNat 64 o ∈
      bytesAt (pageToAddr a.buddy (o / pageSize)) pageSize := by
    rw [hpool.start, pageToAddr, mem_bytesAt_add]
    refine ⟨o, Nat.div_mul_le_self o pageSize, ?_, rfl⟩
    simp only [pageSize]
    omega
  have hover : Overlaps a.buddy (o / pageSize) r := Set.not_disjoint_iff.2 ⟨_, hpage, hy'⟩
  have hdis := hl.disjoint_reserved hinv (by rw [hpool.total]; exact hidx)
    ((hres _).2 (hr _ hidx hover))
  rw [hpool.pageToAddr_eq] at hdis
  exact Set.disjoint_left.1 hdis hy hpage

/-! ## The boot -/

/-- The kernel before its first process: `allocator_init` has found a pool and reserved what is in
use, `mmu_init` has built the page table, and the kernel may have called the allocator in between
and since. -/
structure BootedFrom (board : Board) (image : Image) (fdt : Option Blob) (fa : Addr) (a : Allocator)
    (l : Layout) (s₀ : Sys) : Prop where
  init : ∃ a₀, allocatorInit board image fdt a₀ = some (fa, a)
  frameArray : fa ≠ 0
  pool : a.buddy.mempoolStart ≠ 0
  table : FitsTable image fdt fa a.buddy
  layout : l.WellFormed board
  sections : l.start = image.start ∧ l.rodataEnd ≤ image.stop
  map : ∃ vm₀ vm₁, AllocCalls a vm₀.alloc ∧ mmuInit board l vm₀ = some (vm₁, s₀.kernelPgd) ∧
    VmCalls vm₁ s₀.vm ∧ ∀ t, IsTable 512 vm₁.mem s₀.kernelPgd t →
      s₀.vm.mem t = vm₁.mem t ∧ blocks s₀.vm.alloc t = blocks vm₁.alloc t
  procs : s₀.procs = []
  files : s₀.files = fun _ => none
  held : s₀.held = []

namespace BootedFrom

theorem reachable (h : BootedFrom board image fdt fa a l s₀) : AllocReachable a := by
  obtain ⟨a₀, hinit⟩ := h.init
  obtain ⟨l', -, hinv, -⟩ := Boot.allocatorInit_reserved_iff hinit h.frameArray
  refine allocReachable_allocatorInit hinit h.frameArray ⟨h.pool, ?_⟩
  rw [← hinv.pool.size]
  exact h.table.1

theorem booted (h : BootedFrom board image fdt fa a l s₀) : Booted s₀ := by
  obtain ⟨vm₀, vm₁, hcalls, hmap, hcalls', hkeep⟩ := h.map
  have hr₀ := h.reachable.calls hcalls
  have h0 : vm₀.allocPage.1 ≠ 0 := fun h0 => by
    rw [mmuInit, if_pos h0] at hmap
    cases hmap
  obtain ⟨vm', -, hmap', hbuilt⟩ := mmuInit_built hr₀ h0 h.layout
  obtain ⟨rfl, hpgd⟩ := Prod.mk.inj (Option.some.inj (hmap'.symm.trans hmap))
  rw [hpgd] at hbuilt
  have hr : AllocReachable s₀.vm.alloc :=
    (hr₀.calls (VmCalls.mmuInit hmap).calls).calls hcalls'.calls
  exact ⟨.other hbuilt hr hkeep, h.procs, h.files, h.held⟩

/-- What the allocator hands out in a run is apart from the regions in use. -/
theorem live_disjoint (h : BootedFrom board image fdt fa a l s₀) (hs : Reaches s₀ s)
    {r : Boot.Region}
    (hr : InUse image fdt fa a.buddy r) {q : Addr} {n : ℕ} (hl : Live s.vm.alloc q n) :
    Disjoint (bytesAt q n) (bytesAt r.start r.size.toNat) := by
  obtain ⟨a₀, hinit⟩ := h.init
  obtain ⟨vm₀, vm₁, hcalls, hmap, hcalls', -⟩ := h.map
  have hprot := (Boot.protected_iff hinit h.frameArray).2 h.table
  refine disjoint_of_calls h.reachable.inv.1 (hprot.reserved r hr) ?_ hl
  exact ((hcalls.trans (VmCalls.mmuInit hmap).calls).trans hcalls'.calls).trans hs.calls.calls

end BootedFrom

/-! ## The page tables of the processes -/

/-- A page table of a process: what it gives user mode access to is no region in use, what it allows
to write is not the text or the read-only data of the kernel, and of the kernel half it allows to
execute the text only. -/
structure Sealed (image : Image) (fdt : Option Blob) (fa : Addr) (a : Allocator) (l : Layout)
    (va : Addr) (w : BitVec 64) : Prop where
  user : HasFlag w pteU → ∀ r, InUse image fdt fa a.buddy r →
    Disjoint (bytesAt (frameAt w) pageSize) (bytesAt r.start r.size.toNat)
  write : HasFlag w pteW →
    Disjoint (bytesAt (frameAt w) pageSize) (bytesAt l.start (l.rodataEnd - l.start).toNat)
  exec : HasFlag w pteX → va.toNat < 2 ^ 38 ∨ l.start ≤ va ∧ va < l.textEnd

/-- The kernel half. -/
theorem KernelEntry.isSealed (hl : l.WellFormed board) (h : KernelEntry l va w) :
    Sealed image fdt fa a l va w := by
  refine ⟨fun hu => absurd hu h.user, fun hw => ?_, fun hx => .inr (h.exec.1 hx)⟩
  rw [Set.disjoint_left]
  rintro y ⟨o, ho, rfl⟩ ⟨o', ho', heq⟩
  apply h.write.1 hw
  -- a page that meets the sections is in them, as they are aligned
  obtain ⟨hstart, -, hrodata⟩ := hl.aligned
  rw [pageAligned_iff] at hstart hrodata
  have hord₁ := BitVec.le_def.1 hl.ordered.1
  have hord₂ := BitVec.le_def.1 hl.ordered.2
  have hsize : (l.rodataEnd - l.start).toNat = l.rodataEnd.toNat - l.start.toNat := by
    rw [BitVec.toNat_sub_of_le (BitVec.le_def.2 (by omega))]
  have hy := congrArg BitVec.toNat heq
  rw [h.frame, BitVec.toNat_add, BitVec.toNat_add, toNat_pageStart, BitVec.toNat_ofNat,
    BitVec.toNat_ofNat] at hy
  have hva := va.isLt
  have hend := l.rodataEnd.isLt
  simp only [pageSize] at ho
  rw [hsize] at ho'
  rw [BitVec.le_def, BitVec.lt_def]
  omega

/-- The user half of a whole page table. -/
theorem leafAt_lower {m : Mem} (hx : x.1.val < 256) : leafAt 256 m pgd x = leafAt 512 m pgd x := by
  rw [leafAt, leafAt, ptAt, ptAt, pmdAt, pmdAt, if_pos hx, if_pos x.1.isLt]

/-- The image holds the text and the read-only data. -/
theorem BootedFrom.sections_subset (h : BootedFrom board image fdt fa a l s₀) :
    bytesAt l.start (l.rodataEnd - l.start).toNat ⊆
      bytesAt image.start (image.stop - image.start).toNat := by
  obtain ⟨hstart, hend⟩ := h.sections
  have hord₁ := BitVec.le_def.1 h.layout.ordered.1
  have hord₂ := BitVec.le_def.1 h.layout.ordered.2
  rw [hstart] at hord₁ ⊢
  have hend' := BitVec.le_def.1 hend
  rintro y ⟨o, ho, rfl⟩
  refine ⟨o, ?_, rfl⟩
  rw [BitVec.toNat_sub_of_le (BitVec.le_def.2 (by omega))] at ho ⊢
  omega

/-- The page table of the kernel is that of `mmu_init`. -/
theorem BootedFrom.kernelEntry (h : BootedFrom board image fdt fa a l s₀) (hva : Canonical va)
    (hw : leafAt 512 s₀.vm.mem s₀.kernelPgd (leafIndex va) = some w) : KernelEntry l va w := by
  obtain ⟨vm₀, vm₁, hcalls, hmap, -, hkeep⟩ := h.map
  rw [(sameSpace_of_eq fun t ht => (hkeep t ht).1).leaf] at hw
  exact mmuInit_entry (h.reachable.calls hcalls) h.layout hmap hva hw

/-- **The kernel image.** In every state of a run from a boot whose regions in use fit the table of
reserved regions, an entry of a page table gives user mode no access to the kernel image, the device
tree, the initramfs, a reserved region or the frame array; no entry allows to write to the text or
the read-only data of the kernel; and of the kernel half only the text can be executed. -/
theorem kernelImage_of_reaches (h₀ : BootedFrom board image fdt fa a l s₀) (h : Reaches s₀ s) :
    (∀ p ∈ s.procs, ∀ va w, Canonical va → leafOf s.vm p.pgd va = some w →
      Sealed image fdt fa a l va w) ∧
    ∀ va w, Canonical va → leafOf s.vm s.kernelPgd va = some w → Sealed image fdt fa a l va w := by
  obtain ⟨lost, opened, hinv⟩ := h.inv h₀.booted.inv
  refine ⟨fun p hp va w hva hw => ?_, fun va w hva hw => ?_⟩
  · rw [leafOf_eq] at hw
    rcases hva with hlow | hhigh
    · -- a frame of the process is a block of its own
      have hx : (leafIndex va).1.val < 256 := by
        rw [leafIndex, val_vpn]
        omega
      rw [← leafAt_lower hx] at hw
      have hmapped : mapped s.vm.mem p.pgd (leafIndex va) = some (frameAt w) := by
        rw [mapped, hw]
        rfl
      have hlive : Live s.vm.alloc (frameAt w) pageSize :=
        ((Memory.blocks_eq_some hinv.owned.spaces.owns.inv).1 (hinv.blocks_mapped hp hmapped).2).1
      refine ⟨fun _ r hr => h₀.live_disjoint h hr hlive, fun _ => ?_, fun _ => .inl hlow⟩
      exact (h₀.live_disjoint h .kernel hlive).mono_right h₀.sections_subset
    · -- the kernel half is that of the kernel
      have hx : 256 ≤ (leafIndex va).1.val := by
        rw [leafIndex, val_vpn]
        have := va.isLt
        omega
      rw [(hinv.kernelHalf hx).1 p hp] at hw
      exact KernelEntry.isSealed h₀.layout (h₀.kernelEntry (.inr hhigh) hw)
  · have hpgd : s.kernelPgd = s₀.kernelPgd := hinv.pgd.1
    rw [leafOf_eq, hpgd, (sameSpace_of_eq hinv.kernelTables).leaf] at hw
    exact KernelEntry.isSealed h₀.layout (h₀.kernelEntry hva hw)

/-! ## A small boot -/

/-- The image of the small kernel. -/
def smallImage : Image := ⟨0xffffffc0c0001000, 0xffffffc0c0003000⟩

/-- The pool before `allocator_init`. -/
def smallPool : Allocator :=
  { Boot.bootState .qemu with
    buddy := { (Boot.bootState .qemu).buddy with
      mempoolStart := 0xffffffc0c0000000, mempoolSize := 0x10000 } }

/-- The allocator after it. The frame array takes the first page. -/
def smallStart : Allocator :=
  ((allocatorInit .qemu smallImage none smallPool).map Prod.snd).getD smallPool

theorem allocatorInit_smallStart :
    allocatorInit .qemu smallImage none smallPool = some (0xffffffc0c0000000, smallStart) := by
  have hrun : (allocatorInit .qemu smallImage none smallPool).map Prod.fst =
      some 0xffffffc0c0000000 := by
    decide +kernel
  obtain ⟨⟨fa, a⟩, ha, rfl⟩ := Option.map_eq_some_iff.1 hrun
  rw [smallStart, ha]
  rfl

theorem fitsTable_smallStart : smallStart.buddy.mempoolStart ≠ 0 ∧
    FitsTable smallImage none 0xffffffc0c0000000 smallStart.buddy := by
  have hstart : smallStart.buddy.mempoolStart ≠ 0 := by
    decide +kernel
  refine ⟨hstart, ?_⟩
  obtain ⟨pool, s, hpool, hs, h₁, h₂, h₃⟩ :=
    Boot.allocatorInit_pool allocatorInit_smallStart (by decide)
  obtain rfl : ⟨0xffffffc0c0000000, 0x10000⟩ = pool := Option.some.inj hpool
  rw [Boot.fitsTable_congr h₁ h₂ h₃, hs]
  exact Boot.fitsTable_of_room (Memory.alignedPool_buddySetRegion _ _ _ _) (by decide +kernel) rfl
    (by decide +kernel) (by decide +kernel)

/-- The kernel holds ten pages while `mmu_init` runs. -/
def startHeld : Vm := holding smallStart [0x8000, 0x1000, 0x1000]

theorem scarce_startHeld : Scarce startHeld 0xffffffc0c0006000 0xffffffc0c0007000 where
  root := by decide +kernel
  middle := by decide +kernel
  last := by decide +kernel
  ne := by decide +kernel
  empty := by decide +kernel
  full := by decide +kernel
  leaf := by decide +kernel

theorem allocReachable_startHeld : AllocReachable startHeld.alloc := by
  obtain ⟨hstart, hfits⟩ := fitsTable_smallStart
  obtain ⟨l, -, hinv, -⟩ := Boot.allocatorInit_reserved_iff allocatorInit_smallStart (by decide)
  have hr : AllocReachable smallStart :=
    allocReachable_allocatorInit allocatorInit_smallStart (by decide)
      ⟨hstart, by rw [← hinv.pool.size]; exact hfits.1⟩
  exact hr.calls (holding_calls _ _)

/-- The kernel that starts there, before its first process. -/
theorem bootedFrom_startHeld : BootedFrom .qemu smallImage none 0xffffffc0c0000000 smallStart
    smallLayout (smallSys startHeld 8) := by
  obtain ⟨hstart, hfits⟩ := fitsTable_smallStart
  obtain ⟨hmap, hbuilt, -⟩ := scarce_startHeld.mmuInit allocReachable_startHeld
  have hkeep := fun t => @isTable_smallSys startHeld t 8 hbuilt (by decide +kernel)
    (by decide +kernel) 3 (by decide +kernel) (by decide)
  exact ⟨⟨_, allocatorInit_smallStart⟩, by decide, hstart, hfits, smallLayout_wellFormed,
    ⟨rfl, by decide⟩, ⟨startHeld, sectionsMapped startHeld, holding_calls _ _, hmap,
      VmCalls.freePage _ _, hkeep⟩, rfl, rfl, rfl⟩

/-- A program that runs there. -/
theorem kernelImage_of_reaches_program : ∃ s,
    (smallSys startHeld 8).soundRun (smallProgram 0xffffffc0c0008c00) = some s ∧
    ∃ p ∈ s.procs, (∀ va w, Canonical va → leafOf s.vm p.pgd va = some w →
      Sealed smallImage none 0xffffffc0c0000000 smallStart smallLayout va w) ∧
    ∃ w, leafOf s.vm p.pgd smallLayout.poolStart = some w := by
  have hrun : ((smallSys startHeld 8).soundRun (smallProgram 0xffffffc0c0008c00)).map
      (fun s => s.procs.map (·.addr)) = some [0xffffffc0c0008c00] := by
    decide +kernel
  obtain ⟨s, hs, hprocs⟩ := Option.map_eq_some_iff.1 hrun
  obtain ⟨p, hp⟩ := exists_proc_of_addrs hprocs
  have h₀ := bootedFrom_startHeld
  exact ⟨s, hs, p, hp, (kernelImage_of_reaches h₀ (reaches_soundRun hs)).1 p hp,
    leafOf_smallSys allocReachable_startHeld scarce_startHeld h₀.booted (reaches_soundRun hs) hp⟩

end BareMetalOS.Process
