import BareMetalOS.Boot.Reservation
import BareMetalOS.Files.Framebuffer
import BareMetalOS.Memory.AnyCalls
import Mathlib.Order.CompletePartialOrder

/-!
# The pages of the framebuffer

On QEMU the framebuffer is a window of RAM at a fixed address, which `reserve_all_memory` does not
know. The allocator keeps out of it exactly when its pages in the pool are reserved for another
reason (`allocate_framebuffer_iff`): any page of it that is free is handed out in the end.
-/

namespace BareMetalOS.Boot

open Memory
open Files (fbBase fbSize framebuffer)

variable {image : Image} {fdt : Option Blob} {fa : Addr} {a a₀ : Allocator} {idx : ℕ}

/-- The window of the framebuffer as a region. -/
def framebufferRegion : Region := ⟨fbBase .qemu, BitVec.ofNat 64 fbSize⟩

/-- Every page of the pool that overlaps the framebuffer meets one of the first 32 submitted regions
that meet the pool, and the pool does not wrap. -/
def FramebufferReserved (image : Image) (fdt : Option Blob) (frameArray : Addr)
    (s : Buddy) : Prop :=
  ∀ idx < s.memTotalPage, Overlaps s idx framebufferRegion →
    NoWrap s ∧ ∃ l, regionList image fdt = some l ∧
      ∃ r ∈ tableRegions s (submitted l frameArray s), MeetsPage s idx r

theorem bytesAt_framebufferRegion :
    bytesAt framebufferRegion.start framebufferRegion.size.toNat = framebuffer .qemu := rfl

/-- A page that overlaps the framebuffer is not at `NULL`. -/
theorem pageToAddr_ne_zero_of_overlaps {s : Buddy} (h : Overlaps s idx framebufferRegion) :
    pageToAddr s idx ≠ 0 := by
  intro hzero
  obtain ⟨x, ⟨i, hi, rfl⟩, ⟨j, hj, heq⟩⟩ := Set.not_disjoint_iff.1 h
  have hsize : framebufferRegion.size.toNat = 8294400 := by decide
  have hbase : framebufferRegion.start.toNat = 0xffffffc087000000 := by decide
  have hnull : (0 : Addr).toNat = 0 := rfl
  rw [hzero] at heq
  have hnat := congrArg BitVec.toNat heq
  rw [BitVec.toNat_add, BitVec.toNat_add, BitVec.toNat_ofNat, BitVec.toNat_ofNat, hbase,
    hnull] at hnat
  rw [hsize] at hj
  rw [pageSize] at hi
  omega

/-- After `allocator_init` a page of the pool is reserved or free. -/
theorem allocatorInit_isFree {board : Board} (h : allocatorInit board image fdt a₀ = some (fa, a))
    (hfa : fa ≠ 0) (hidx : idx < a.buddy.memTotalPage)
    (hres : (a.buddy.frameArray idx).state ≠ .reserved) : (a.buddy.frameArray idx).IsFree := by
  obtain ⟨pool, s, l, -, -, -, rfl, -⟩ := allocatorInit_spec h hfa
  have hinit := buddyInit_spec (((submitted l fa s).foldl (memoryReserve s) []).foldl
    buddyMarkReservedRange (clearFrames s))
  apply hinit.free idx
  · rw [← hinit.total]
    exact hidx
  · rw [Ne, ← hinit.reserved]
    exact hres

/-- **The framebuffer and the allocator.** For every QEMU memory region, kernel image and device
tree for which `allocator_init` completes, no sequence of calls returns a block that overlaps the
framebuffer exactly when the pages of the pool in it are reserved. -/
theorem allocate_framebuffer_iff (image : Image) (fdt : Option Blob) (a₀ : Allocator) (fa : Addr)
    (a : Allocator) (h : allocatorInit .qemu image fdt a₀ = some (fa, a)) (hfa : fa ≠ 0) :
    (∀ ops, ∀ e ∈ (allocRun ⟨a, []⟩ ops).live,
      Disjoint (bytesAt e.1 (blockBytes e.2)) (framebuffer .qemu)) ↔
      FramebufferReserved image fdt fa a.buddy := by
  obtain ⟨l, hl, hinv, -, hres⟩ := allocatorInit_reserved_iff h hfa
  constructor
  · intro hdis idx hidx hover
    have hreserved : (a.buddy.frameArray idx).state = .reserved := by
      by_contra hnot
      have hfree := allocatorInit_isFree h hfa hidx hnot
      obtain ⟨k, hk⟩ := exists_allocate_page hinv [] hidx hfree
        (pageToAddr_ne_zero_of_overlaps hover)
      have hblock : blockBytes pageSize = pageSize := by decide
      have hno := hdis _ _ hk
      rw [hblock] at hno
      exact hover hno
    obtain ⟨hwrap, hmeets⟩ := (hres idx hidx).1 hreserved
    exact ⟨hwrap, l, hl, hmeets⟩
  · intro hwindow ops e he
    rw [← bytesAt_framebufferRegion]
    apply disjoint_of_reserved hinv _ ops e he
    intro idx hidx hover
    obtain ⟨hwrap, l', hl', hmeets⟩ := hwindow idx hidx hover
    obtain rfl := Option.some.inj (hl.symm.trans hl')
    exact (hres idx hidx).2 ⟨hwrap, hmeets⟩

/-- A pool that ends below the framebuffer. -/
theorem not_overlaps_below {s : Buddy} (hidx : idx < s.memTotalPage)
    (hend : s.mempoolStart.toNat + s.memTotalPage * pageSize ≤ 0xffffffc087000000) :
    ¬ Overlaps s idx framebufferRegion := by
  intro hover
  obtain ⟨x, ⟨i, hi, rfl⟩, ⟨j, hj, heq⟩⟩ := Set.not_disjoint_iff.1 hover
  have hsize : framebufferRegion.size.toNat = 8294400 := by decide
  have hbase : framebufferRegion.start.toNat = 0xffffffc087000000 := by decide
  have hpage := toNat_pageToAddr (by omega) hidx
  have hnat := congrArg BitVec.toNat heq
  rw [BitVec.toNat_add, BitVec.toNat_add, BitVec.toNat_ofNat, BitVec.toNat_ofNat, hbase,
    hpage] at hnat
  rw [hsize] at hj
  simp only [pageSize] at hi hend hnat
  omega

/-! ## A boot with 256 megabytes -/

/-- A device tree whose memory is the 256 megabytes from `0x80000000` on. -/
def quarterGigabyteBlob : Blob where
  base := 0xffffffc082200000
  size := 112
  byte off := (([0xd00dfeed#32, 112, 56, 108, 40, 17, 16, 0, 4, 52, 0, 0, 0, 0,
    -- the root, and `memory` with its `reg`
    1, 0, 1, 0x6d656d6f, 0x72790000, 3, 8, 0, 0x80000000, 0x10000000, 2, 2, 9,
    0x72656700].getD (off / 4) 0) >>> (24 - off % 4 * 8)).setWidth 8

def quarterGigabytePool : Buddy :=
  buddySetRegion .qemu (bootState .qemu).buddy 0xffffffc080000000 0x10000000

theorem quarterGigabyte_poolRegion : poolRegion .qemu (bootState .qemu).buddy
    (some quarterGigabyteBlob) = some ⟨0x80000000, 0x10000000⟩ := by decide +kernel

theorem quarterGigabyte_regionList : regionList qemuImage (some quarterGigabyteBlob) =
    some [⟨0xffffffc080200000, 0x80000⟩, ⟨0xffffffc082200000, 112⟩] := by decide +kernel

/-- The entries of the table after `reserve_all_memory`. -/
def quarterGigabyteTable : List Region :=
  [⟨0xffffffc080200000, 0x80000⟩, ⟨0xffffffc082200000, 112⟩]

theorem quarterGigabyte_reserveAllMemory :
    reserveAllMemory quarterGigabytePool qemuImage (some quarterGigabyteBlob) =
      some quarterGigabyteTable := by
  have hd : fdtTotalsize quarterGigabyteBlob = some 112 := by decide +kernel
  have hi : initramfs quarterGigabyteBlob = some none := by decide +kernel
  have hr : fdtRegions quarterGigabyteBlob = some [] := by decide +kernel
  simp only [reserveAllMemory, Option.bind_eq_bind, hd, hi, Option.bind_some]
  rw [show (0 : ℤ) = ((0 : ℕ) : ℤ) from rfl,
    reserveReported_of_regions hr (by decide) (by decide)]
  decide +kernel

/-- The frame array follows the kernel image. -/
theorem quarterGigabyte_startupAlloc : ∃ table, startupAlloc .qemu qemuImage
    (some quarterGigabyteBlob) (bootState .qemu).buddy =
      some (0xffffffc080280000, quarterGigabytePool, table) := by
  have hb : bumpLoop quarterGigabytePool quarterGigabyteTable (quarterGigabyteTable.length + 2)
      quarterGigabytePool.mempoolStart = some (some 0xffffffc080280000) := by decide +kernel
  have hs : buddySetRegion .qemu (bootState .qemu).buddy (toVirtual 0x80000000) 0x10000000 =
      quarterGigabytePool := rfl
  simp only [startupAlloc, Option.bind_eq_bind, quarterGigabyte_poolRegion, hs,
    quarterGigabyte_reserveAllMemory, hb, Option.bind_some]
  exact ⟨_, rfl⟩

/-- With 256 megabytes of RAM the framebuffer is in the pool, and its pages are handed out. -/
theorem quarterGigabyte_allocate {a : Allocator} (ha : allocatorInit .qemu qemuImage
    (some quarterGigabyteBlob) (bootState .qemu) = some (0xffffffc080280000, a)) :
    ∃ ops, (fbBase .qemu, pageSize) ∈ (allocRun ⟨a, []⟩ ops).live := by
  have hfa : (0xffffffc080280000 : Addr) ≠ 0 := by decide
  obtain ⟨l, hl, hinv, -, hres⟩ := allocatorInit_reserved_iff ha hfa
  obtain rfl := Option.some.inj (quarterGigabyte_regionList.symm.trans hl)
  obtain ⟨pool, s, hpool, hs, h₁, h₂, h₃⟩ := allocatorInit_pool ha hfa
  obtain rfl := Option.some.inj (quarterGigabyte_poolRegion.symm.trans hpool)
  have hs' : s = quarterGigabytePool := hs
  subst hs'
  -- the first page of the framebuffer is free
  have hidx : 0x7000 < a.buddy.memTotalPage := by
    rw [h₃]
    decide +kernel
  have hnone : ∀ r ∈ tableRegions quarterGigabytePool (submitted quarterGigabyteTable
      0xffffffc080280000 quarterGigabytePool), ¬ MeetsPage quarterGigabytePool 0x7000 r := by
    decide +kernel
  have hfree : (a.buddy.frameArray 0x7000).IsFree := by
    apply allocatorInit_isFree ha hfa hidx
    rw [Ne, hres 0x7000 hidx, submitted_congr h₃, tableRegions_congr h₁ h₂]
    rintro ⟨-, r, hr, hm⟩
    apply hnone r hr
    simpa only [MeetsPage, h₁] using hm
  have haddr : pageToAddr a.buddy 0x7000 = fbBase .qemu := by
    rw [pageToAddr, h₁]
    decide +kernel
  obtain ⟨k, hk⟩ := exists_allocate_page hinv [] hidx hfree (haddr ▸ by decide)
  exact ⟨_, haddr ▸ hk⟩

end BareMetalOS.Boot
