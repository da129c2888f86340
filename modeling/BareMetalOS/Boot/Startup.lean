import BareMetalOS.Boot.Fdt
import BareMetalOS.Memory.Allocator

/-!
# Memory initialisation

`allocator_init` of `src/allocator.c` with what it calls: `startup_alloc` chooses the pool, records
the regions in use in the table `reserved_rgns` (`memory_reserve`) and finds a place for the frame
array between them; then the recorded regions are marked in the frame array and the two allocators
start.
-/

namespace BareMetalOS.Boot

open Memory

/-- `PAGE_OFFSET`. -/
def pageOffset : Addr := 0xffffffc000000000

/-- `MAX_RESERVED_REGIONS`. -/
def maxReservedRegions : ℕ := 32

/-- `sizeof(struct frame)`. -/
def sizeofFrame : ℕ := 40

/-- `if (start < PAGE_OFFSET) start += PAGE_OFFSET;` -/
def toVirtual (a : Addr) : Addr := if a < pageOffset then a + pageOffset else a

/-- The kernel image of the linker script, from `_start` to `_end`. -/
structure Image where
  start : Addr
  stop : Addr

/-! ## The table of reserved regions -/

/-- `memory_reserve`, on the entries of `reserved_rgns` so far. -/
def memoryReserve (s : Buddy) (rgns : List Region) (r : Region) : List Region :=
  if r.size = 0 ∨ maxReservedRegions ≤ rgns.length then rgns
  else
    let stop := r.start + r.size
    let poolStart := s.mempoolStart
    let poolEnd := poolStart + s.mempoolSize
    if stop ≤ poolStart ∨ poolEnd ≤ r.start then rgns
    else
      let reserveStart := if r.start < poolStart then poolStart else r.start
      let reserveEnd := if poolEnd < stop then poolEnd else stop
      rgns ++ [⟨reserveStart, reserveEnd - reserveStart⟩]

/-- The loop of `reserve_all_memory` over the regions of `/reserved-memory`. Each of them is at
another token of the blob. -/
def reserveReported (s : Buddy) (b : Blob) : ℕ → ℤ → List Region → Option (List Region)
  | 0, _, _ => none
  | n + 1, idx, rgns =>
    match fdtGetReservedMemoryRegion b idx with
    | none => none
    | some none => some rgns
    | some (some r) =>
      reserveReported s b n (idx + 1) (memoryReserve s rgns ⟨toVirtual r.start, r.size⟩)

/-- The initramfs of `/chosen`, if there is one. -/
def initramfs (b : Blob) : Option (Option Region) := do
  let start ← getInitrdStart b
  let start := if start ≠ 0 then toVirtual start else start
  let stop ← getInitrdEnd b
  let stop := if stop ≠ 0 then toVirtual stop else stop
  if start ≠ 0 ∧ start < stop then return some ⟨start, stop - start⟩ else return none

/-- `reserve_all_memory`. -/
def reserveAllMemory (s : Buddy) (image : Image) (fdt : Option Blob) : Option (List Region) :=
  let rgns := memoryReserve s [] ⟨image.start, image.stop - image.start⟩
  match fdt with
  | none => some rgns
  | some b => do
    let dtbSize ← fdtTotalsize b
    let rgns := if dtbSize ≠ 0 then memoryReserve s rgns ⟨b.base, dtbSize⟩ else rgns
    let initrd ← initramfs b
    let rgns := match initrd with
      | none => rgns
      | some r => memoryReserve s rgns r
    reserveReported s b (b.size + 2) 0 rgns

/-! ## The frame array -/

/-- The region of `/memory`, or else the globals' own. -/
def poolRegion (board : Board) (s : Buddy) (fdt : Option Blob) : Option Region :=
  match fdt with
  | none => some ⟨s.mempoolStart, s.mempoolSize⟩
  | some b => do
    let memoryOffset ← fdtPathOffset b (cstr "/memory")
    if memoryOffset < 0 then return ⟨s.mempoolStart, s.mempoolSize⟩
    let prop ← fdtGetprop b memoryOffset (cstr "reg")
    match prop with
    | none => return ⟨s.mempoolStart, s.mempoolSize⟩
    | some (prop, len) =>
      if 16 ≤ len then
        let start ← b.load64 prop
        let size ← b.load64 (prop + 8)
        return ⟨bswap64 start, bswap64 size⟩
      else if 8 ≤ len then
        let start ← b.cell prop
        let size ← b.cell (prop + 4)
        return ⟨start.setWidth 64, size.setWidth 64⟩
      else return ⟨board.buddyDefaultPoolStart, buddyDefaultPoolSize⟩

/-- `frame_array_size`. -/
def frameArraySize (s : Buddy) : Addr := BitVec.ofNat 64 (s.memTotalPage * sizeofFrame)

/-- The search for a place of the frame array, from `allocStart` on; the inner `none` is the
failure. After a skip the search stands at the end of an entry of the table, so a search that makes
more rounds than there are entries does not end. -/
def bumpLoop (s : Buddy) (rgns : List Region) : ℕ → Addr → Option (Option Addr)
  | 0, _ => none
  | n + 1, allocStart =>
    let allocStart := alignUpUl allocStart 4096
    let allocEnd := allocStart + frameArraySize s
    if s.mempoolStart + s.mempoolSize < allocEnd then some none
    else
      match rgns.find? fun r => allocStart < r.start + r.size ∧ r.start < allocEnd with
      | some r => bumpLoop s rgns n (r.start + r.size)
      | none => some (some allocStart)

/-- `startup_alloc`: the place of the frame array (or `NULL`), the pool, and the table. -/
def startupAlloc (board : Board) (image : Image) (fdt : Option Blob) (s : Buddy) :
    Option (Addr × Buddy × List Region) := do
  let pool ← poolRegion board s fdt
  let s := buddySetRegion board s (toVirtual pool.start) pool.size
  let rgns ← reserveAllMemory s image fdt
  let place ← bumpLoop s rgns (rgns.length + 2) s.mempoolStart
  match place with
  | none => return (0, s, rgns)
  | some allocStart =>
    return (allocStart, s, memoryReserve s rgns ⟨allocStart, frameArraySize s⟩)

/-! ## Marking -/

/-- `buddy_mark_reserved_range`. -/
def buddyMarkReservedRange (s : Buddy) (r : Region) : Buddy :=
  if r.size = 0 ∨ s.memTotalPage = 0 then s
  else
    let regionEnd := s.mempoolStart + s.mempoolSize
    let reserveEnd := r.start + r.size
    if reserveEnd ≤ s.mempoolStart ∨ regionEnd ≤ r.start then s
    else
      let start := if r.start < s.mempoolStart then s.mempoolStart else r.start
      let reserveEnd := if regionEnd < reserveEnd then regionEnd else reserveEnd
      let pageStart := ((start - s.mempoolStart) >>> pageShift).toNat
      let pageEnd := (alignUpUl (reserveEnd - s.mempoolStart) 4096 >>> pageShift).toNat
      let pageEnd := if s.memTotalPage < pageEnd then s.memTotalPage else pageEnd
      { s with
        frameArray := updRange (fun f => { f with state := .reserved }) s.frameArray pageStart
          (pageEnd - pageStart) }

/-- A frame filled with zeros. -/
def zeroFrame : Frame := ⟨0, .freeHead, 0, 0, 0⟩

/-- `memset(frame_array, 0, ..)`. -/
def clearFrames (s : Buddy) : Buddy :=
  { s with frameArray := updRange (fun _ => zeroFrame) s.frameArray 0 s.memTotalPage }

/-- `allocator_init`: the frame array and the allocator, which is not started when there was no
place for the frame array. -/
def allocatorInit (board : Board) (image : Image) (fdt : Option Blob) (a : Allocator) :
    Option (Addr × Allocator) := do
  let (frameArray, s, rgns) ← startupAlloc board image fdt a.buddy
  if frameArray = 0 then return (0, { a with buddy := s })
  return (frameArray, poolsInit (buddyInit (rgns.foldl buddyMarkReservedRange (clearFrames s))))

end BareMetalOS.Boot
