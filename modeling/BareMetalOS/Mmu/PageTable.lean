import BareMetalOS.Mmu.Entry

/-!
# Page tables

The page tables of `src/mmu.c`: three levels of tables of 512 entries each, as Sv39 has them.

Memory is seen as pages of 512 words, by the address under which the kernel reaches them. What
`allocate` writes into free chunks is not part of it, since no page table and no frame is in a
chunk.
-/

namespace BareMetalOS.Mmu

open Memory (Addr Allocator allocate free pageIncRef getPageRef pageSize)

/-- The words of the pages. -/
abbrev Mem := Addr → Fin 512 → BitVec 64

/-- The memory and the allocator. -/
structure Vm where
  alloc : Allocator
  mem : Mem

namespace Vm

/-- `page[i] = word`. -/
def store (s : Vm) (page : Addr) (i : Fin 512) (word : BitVec 64) : Vm :=
  { s with mem := Function.update s.mem page (Function.update (s.mem page) i word) }

/-- Write a whole page. -/
def setPage (s : Vm) (page : Addr) (words : Fin 512 → BitVec 64) : Vm :=
  { s with mem := Function.update s.mem page words }

/-- `allocate(PAGE_SIZE)`. -/
def allocPage (s : Vm) : Addr × Vm :=
  ((allocate s.alloc pageSize).1, { s with alloc := (allocate s.alloc pageSize).2 })

/-- `free(page)`. -/
def freePage (s : Vm) (page : Addr) : Vm := { s with alloc := free s.alloc page }

/-- `page_inc_ref(page)`. -/
def incRef (s : Vm) (page : Addr) : Vm := { s with alloc := pageIncRef s.alloc page }

end Vm

/-! ## Walking -/

/-- One level of `pagewalk`: the table to which the entry `i` of `table` leads, a new one where
there is none and `alloc` is set. -/
def nextTable (s : Vm) (table : Addr) (i : Fin 512) (alloc : Bool) : Vm × Option Addr :=
  if HasFlag (s.mem table i) pteV then (s, some (frameAt (s.mem table i)))
  else if alloc then
    let (newPg, s) := s.allocPage
    if newPg = 0 then (s, none)
    else
      let pte := entryOf newPg pteV
      ((s.setPage newPg fun _ => 0).store table i pte, some (frameAt pte))
  else (s, none)

/-- `pagewalk`: the table and the index of the entry for `va`. -/
def pagewalk (s : Vm) (pgd va : Addr) (alloc : Bool) : Vm × Option (Addr × Fin 512) :=
  match nextTable s pgd (vpn va 30) alloc with
  | (s, none) => (s, none)
  | (s, some pmd) =>
    match nextTable s pmd (vpn va 21) alloc with
    | (s, none) => (s, none)
    | (s, some pt) => (s, some (pt, vpn va 12))

/-- The body of the loop of `map_pages_at`. -/
def mapPage (s : Vm) (pgd a pa prot : BitVec 64) : Vm :=
  match pagewalk s pgd a true with
  | (s, none) => s
  | (s, some (pt, k)) => s.store pt k (pa >>> 12 <<< 10 ||| prot)

/-- The loop of `map_pages_at`, within `n` rounds. -/
def mapLoop (pgd stop prot : BitVec 64) : ℕ → Vm → Addr → Addr → Option Vm
  | 0, _, _, _ => none
  | n + 1, s, a, pa =>
    if a < stop then mapLoop pgd stop prot n (mapPage s pgd a pa prot) (a + 4096) (pa + 4096)
    else some s

/-- `map_pages_at`; `none` if the loop does not end. -/
def mapPagesAt (s : Vm) (pgd va pa size prot : BitVec 64) : Option Vm :=
  mapLoop pgd (va + size) prot (size.toNat / 4096 + 2) s va pa

/-! ## Freeing -/

/-- The loop of `free_pgd` over a last-level table, and `free(pt)`. -/
def freePt (s : Vm) (pt : Addr) : Vm :=
  ((List.finRange 512).foldl (fun s k =>
    if HasFlag (s.mem pt k) pteV then s.freePage (frameAt (s.mem pt k)) else s) s).freePage pt

/-- The loop of `free_pgd` over a middle table, and `free(pmd)`. -/
def freePmd (s : Vm) (pmd : Addr) : Vm :=
  ((List.finRange 512).foldl (fun s j =>
    if HasFlag (s.mem pmd j) pteV then freePt s (frameAt (s.mem pmd j)) else s) s).freePage pmd

/-- The indices of the user half of a PGD. -/
def userHalf : List (Fin 512) := (List.finRange 512).filter fun i => i.val < 256

/-- `free_pgd`. -/
def freePgd (s : Vm) (pgd : Addr) : Vm :=
  (userHalf.foldl (fun s i =>
    if HasFlag (s.mem pgd i) pteV then freePmd s (frameAt (s.mem pgd i)) else s) s).freePage pgd

/-! ## Copying -/

/-- The innermost loop of `copy_pgd`: the frames become shared and read-only. -/
def copyPt (parentPt childPt : Addr) : List (Fin 512) → Vm → Vm
  | [], s => s
  | k :: ks, s =>
    if HasFlag (s.mem parentPt k) pteV then
      let page := frameAt (s.mem parentPt k)
      let s := s.store parentPt k (s.mem parentPt k &&& ~~~pteW)
      let s := s.store childPt k (s.mem parentPt k)
      copyPt parentPt childPt ks (s.incRef page)
    else copyPt parentPt childPt ks s

/-- The middle loop of `copy_pgd`; the flag says whether all allocations succeeded. -/
def copyPmd (parentPmd childPmd : Addr) : List (Fin 512) → Vm → Vm × Bool
  | [], s => (s, true)
  | j :: js, s =>
    if HasFlag (s.mem parentPmd j) pteV then
      let parentPt := frameAt (s.mem parentPmd j)
      let (childPt, s) := s.allocPage
      if childPt = 0 then (s, false)
      else
        let s := (s.setPage childPt fun _ => 0).store childPmd j (entryOf childPt pteV)
        copyPmd parentPmd childPmd js (copyPt parentPt childPt (List.finRange 512) s)
    else copyPmd parentPmd childPmd js s

/-- The outer loop of `copy_pgd`. -/
def copyUser (pgd newPgd : Addr) : List (Fin 512) → Vm → Vm × Bool
  | [], s => (s, true)
  | i :: is, s =>
    if HasFlag (s.mem pgd i) pteV then
      let parentPmd := frameAt (s.mem pgd i)
      let (childPmd, s) := s.allocPage
      if childPmd = 0 then (s, false)
      else
        let s := (s.setPage childPmd fun _ => 0).store newPgd i (entryOf childPmd pteV)
        let r := copyPmd parentPmd childPmd (List.finRange 512) s
        if r.2 then copyUser pgd newPgd is r.1 else r
    else copyUser pgd newPgd is s

/-- `copy_pgd`: the new PGD, or `NULL`. -/
def copyPgd (s : Vm) (pgd : Addr) : Vm × Addr :=
  let (newPgd, s) := s.allocPage
  if newPgd = 0 then (s, 0)
  else
    -- the kernel half is shared
    let s := s.setPage newPgd fun i => if 256 ≤ i.val then s.mem pgd i else 0
    let r := copyUser pgd newPgd userHalf s
    if r.2 then (r.1, newPgd) else (freePgd r.1 newPgd, 0)

end BareMetalOS.Mmu
