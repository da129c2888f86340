import BareMetalOS.Boot.FramebufferPages
import BareMetalOS.Heap.Runs

/-!
# The framebuffer and the allocator in memory

On QEMU the framebuffer is a window of RAM that `reserve_all_memory` does not know. When the pages
of `frame_array` are `RESERVED`, the allocator keeps out of the window exactly when its pages in the
pool are reserved for another reason (`keepsOut_iff_framebufferReserved`).
-/

namespace BareMetalOS.Heap

open Memory
open Boot (Region Image Blob FramebufferReserved)
open Files (framebuffer fbBase)

variable {g : Globals} {P : ℕ → Prop} {m : Mem} {h : HeapHistory} {a : History} {image : Image}
  {fdt : Option Blob} {b₀ : Buddy} {rgns : List Region} {s : Allocator}

/-- No calls and stores after `allocator_init` lead to a block that overlaps the framebuffer. -/
def KeepsOut (g : Globals) (m : Mem) : Prop :=
  ∀ ops, ∃ h, heapRun g ⟨allocatorInit g m, []⟩ ops = some h ∧
    ∀ e ∈ h.live, Disjoint (bytesAt e.1 (blockBytes e.2)) (framebuffer .qemu)

/-- The calls of the level above, made in memory. -/
def ofCall : AllocOp → HeapOp
  | .allocate size => .allocate size
  | .free i => .free i

theorem filterMap_ofCall (ops : List AllocOp) : (ops.map ofCall).filterMap HeapOp.call = ops := by
  rw [List.filterMap_map]
  refine (List.filterMap_congr fun op _ => ?_).trans List.filterMap_some
  cases op <;> rfl

/-- The blocks that runs in memory return are those of the level above. -/
theorem Sim.keepsOut_above (hs : Separate g P) (hh : Sim g P ⟨allocatorInit g m, []⟩ ⟨s, []⟩) :
    KeepsOut g m ↔ ∀ ops, ∀ e ∈ (allocRun ⟨s, []⟩ ops).live,
      Disjoint (bytesAt e.1 (blockBytes e.2)) (framebuffer .qemu) := by
  constructor
  · intro hk ops
    obtain ⟨h, heq, hlive⟩ := hk (ops.map ofCall)
    obtain ⟨h', heq', hh'⟩ := hh.run hs (ops.map ofCall)
    obtain rfl := Option.some.inj (heq.symm.trans heq')
    rwa [hh'.live, filterMap_ofCall] at hlive
  · intro hk ops
    obtain ⟨h, heq, hh'⟩ := hh.run hs ops
    exact ⟨h, heq, hh'.live ▸ hk _⟩

/-- What a boot leads to, with the level above. -/
theorem Boots.exists_sim (hb : Boots .qemu image fdt b₀ g rgns) (a₀ : Allocator)
    (ha₀ : a₀.buddy = b₀) (hf : FramesReserved g image (markedMemory g rgns m)) :
    ∃ s, Boot.allocatorInit .qemu image fdt a₀ = some (g.frameArray, s) ∧ SamePoolAs g s.buddy ∧
      Sim g (NotReserved g (markedMemory g rgns m))
        ⟨allocatorInit g (markedMemory g rgns m), []⟩ ⟨s, []⟩ := by
  obtain ⟨b, hpool, ha, hmark, hinit⟩ := hb.exists_allocatorInit a₀ ha₀
  have hs := hb.separate hf
  have hspec := buddyInit_spec b
  refine ⟨_, hinit, ?_, ?_⟩
  · exact ⟨hspec.start.trans hpool.start, hspec.size.trans hpool.size,
      hspec.total.trans hpool.total⟩
  · exact ⟨holds_allocatorInit hs hpool (hmark _ hs m) ha hb.buddyReady hb.allocatorReady, rfl,
      historyInv_start ha⟩

theorem framebufferReserved_congr {fa : Addr} {b b' : Buddy} (h : SamePoolAs g b)
    (h' : SamePoolAs g b') :
    FramebufferReserved image fdt fa b ↔ FramebufferReserved image fdt fa b' := by
  have hstart := h.start.trans h'.start.symm
  have hsize := h.size.trans h'.size.symm
  have htotal := h.total.trans h'.total.symm
  simp only [FramebufferReserved, Boot.Overlaps, Boot.NoWrap, Boot.MeetsPage, pageToAddr,
    Boot.submitted_congr htotal, Boot.tableRegions_congr hstart hsize, hstart, hsize, htotal]

/-- **The framebuffer and the allocator.** For every QEMU memory region, kernel image and device
tree from which `allocator_init` builds its pool with the pages of `frame_array` `RESERVED`, no
sequence of calls and stores leads to a block that overlaps the framebuffer, if and only if the
pages of the pool in it are reserved. -/
theorem keepsOut_iff_framebufferReserved (hb : Boots .qemu image fdt b₀ g rgns)
    (hf : FramesReserved g image (markedMemory g rgns m)) :
    KeepsOut g (markedMemory g rgns m) ↔
      FramebufferReserved image fdt g.frameArray (markedPool g m) := by
  obtain ⟨s, hinit, hpool, hh⟩ := hb.exists_sim ⟨b₀, fun _ => ⟨0, []⟩, false⟩ rfl hf
  rw [hh.keepsOut_above (hb.separate hf), framebufferReserved_congr ⟨rfl, rfl, rfl⟩ hpool]
  exact Boot.allocate_framebuffer_iff image fdt _ _ _ hinit hb.frameArray_ne

/-- Without a device tree the pool ends below the framebuffer. -/
theorem keepsOut_default :
    KeepsOut defaultGlobals (markedMemory defaultGlobals defaultTable ⟨fun _ => 0⟩) := by
  refine (keepsOut_iff_framebufferReserved default_boots (default_framesReserved ⟨fun _ => 0⟩)).2
    fun idx hidx hover => ?_
  exact absurd hover (Boot.not_overlaps_below hidx (by decide +kernel))

/-! ## A boot with 256 megabytes -/

/-- The globals with 256 megabytes. -/
def quarterGigabyteGlobals : Globals where
  frameArray := 0xffffffc080280000
  freeArea := 0xffffffc080240000
  gPools := 0xffffffc080240200
  mempoolStart := 0xffffffc080000000
  mempoolSize := 0x10000000
  memTotalPage := 65536
  buddyReady := true
  allocatorReady := true

theorem quarterGigabyte_boots : ∃ rgns, Boots .qemu Boot.qemuImage
    (some Boot.quarterGigabyteBlob) (Boot.bootState .qemu).buddy quarterGigabyteGlobals rgns := by
  obtain ⟨table, htable⟩ := Boot.quarterGigabyte_startupAlloc
  exact ⟨table, ⟨_, htable, by decide +kernel, by decide +kernel, by decide +kernel⟩, by decide,
    rfl, rfl, by decide, qemuImage_data.1, qemuImage_data.2.1, qemuImage_data.2.2⟩

/-- The frame array has an entry in the table. -/
theorem quarterGigabyte_framesReserved (hb : Boots .qemu Boot.qemuImage
    (some Boot.quarterGigabyteBlob) (Boot.bootState .qemu).buddy quarterGigabyteGlobals rgns)
    (m : Mem) : FramesReserved quarterGigabyteGlobals Boot.qemuImage
      (markedMemory quarterGigabyteGlobals rgns m) := by
  have hfit : Boot.FitsTable Boot.qemuImage (some Boot.quarterGigabyteBlob) 0xffffffc080280000
      Boot.quarterGigabytePool :=
    Boot.fitsTable_of_room (alignedPool_buddySetRegion _ _ _ _) (by decide +kernel)
      Boot.quarterGigabyte_regionList (by decide +kernel) (by decide +kernel)
  have himage : imageBytes Boot.qemuImage = bytesAt 0xffffffc080200000 0x80000 := rfl
  refine hb.framesReserved ⟨by decide +kernel, by decide +kernel, by decide +kernel⟩ hfit ?_
  rw [himage, show quarterGigabyteGlobals.frameArray = 0xffffffc080200000 + BitVec.ofNat 64 0x80000
    by decide, show (0xffffffc080200000 : Addr) = 0xffffffc080200000 + BitVec.ofNat 64 0 by decide,
    BitVec.add_assoc, ← BitVec.ofNat_add]
  exact disjoint_bytesAt (by decide) (by decide) (by decide)

/-- With 256 megabytes of RAM a page of the framebuffer is returned. -/
theorem not_keepsOut : ¬ ∀ (image : Image) (fdt : Option Blob) (b₀ : Buddy) (g : Globals)
    (rgns : List Region) (m : Mem), Boots .qemu image fdt b₀ g rgns →
      KeepsOut g (markedMemory g rgns m) := by
  intro hall
  obtain ⟨rgns, hb⟩ := quarterGigabyte_boots
  have hf := quarterGigabyte_framesReserved hb ⟨fun _ => 0⟩
  have hkeeps := hall _ _ _ _ _ ⟨fun _ => 0⟩ hb
  obtain ⟨s, hinit, -, hh⟩ := hb.exists_sim (Boot.bootState .qemu) rfl hf
  rw [hh.keepsOut_above (hb.separate hf)] at hkeeps
  obtain ⟨ops, hmem⟩ := Boot.quarterGigabyte_allocate hinit
  have hdis := hkeeps ops _ hmem
  have hfirst : fbBase .qemu = fbBase .qemu + BitVec.ofNat 64 0 := (BitVec.add_zero _).symm
  exact Set.disjoint_left.1 hdis ⟨0, by decide, hfirst⟩ ⟨0, by decide, hfirst⟩

end BareMetalOS.Heap
