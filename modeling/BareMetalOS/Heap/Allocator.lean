import BareMetalOS.Heap.Buddy

/-!
# The dynamic allocator in memory

`allocate` and `free` of `src/allocator.c` over the frames, the free lists and the chunks in memory.
A free chunk holds its list node in its own first bytes, so that `expand_chunk_pool` and `free`
write into the pages of the pool.
-/

namespace BareMetalOS.Heap

open Memory

variable (g : Globals)

/-- The end of `allocator_init`: the chunk pools `0 .. n - 1`. -/
def initPools (m : Mem) : ℕ → Mem
  | 0 => m
  | n + 1 =>
    let m := set g (initPools m n) (.chunkSize n) (gPoolSizes n)
    initListHead g m (g.freeListAt n)

/-- `allocator_init` from `buddy_init` on. -/
def allocatorInit (m : Mem) : Mem := initPools g (buddyInit g m) chunkPoolCount

/-- `find_pool_index`; `none` is `-1`. -/
def findPoolIndex (m : Mem) (size : ℕ) : Option ℕ :=
  (List.range chunkPoolCount).find? fun i => size ≤ get g m (.chunkSize i)

/-- The refill loop of `expand_chunk_pool`, over the chunks `0 .. n - 1`. -/
def pushChunks (m : Mem) (page head : Addr) (chunkSize : ℕ) : ℕ → Mem
  | 0 => m
  | n + 1 => listAdd g (pushChunks m page head chunkSize n) (chunkAt page chunkSize n) head

/-- `expand_chunk_pool`; the flag says whether it returned `0`. -/
def expandChunkPool (m : Mem) (poolIdx : ℕ) : Option (Bool × Mem) := do
  let (page, m) ← buddyAllocPages g m 0
  if page = 0 then return (false, m)
  else
    let pageIdx := g.addrToPageIdx page
    let chunkSize := get g m (.chunkSize poolIdx)
    let m := set g m (.state pageIdx) (stateCode .allocChunkPool)
    let m := set g m (.metaPoolIdx pageIdx) poolIdx
    let m := set g m (.order pageIdx) 0
    let m := set g m (.refCount pageIdx) 0
    return (true, pushChunks g m page (g.freeListAt poolIdx) chunkSize (pageSize / chunkSize))

/-- Take the first chunk of a pool's free list: the end of the small case of `allocate`. -/
def popChunk (m : Mem) (poolIdx : ℕ) : Addr × Mem :=
  let n := next g m (g.freeListAt poolIdx)
  let m := listDel g m n
  let pageIdx := g.addrToPageIdx n
  (n, set g m (.refCount pageIdx) (get g m (.refCount pageIdx) + 1))

/-- `allocate`. -/
def allocate (m : Mem) (size : ℕ) : Option (Addr × Mem) :=
  if ¬ g.allocatorReady ∨ size = 0 ∨ maxAllocSize < size then some (0, m)
  else if size ≤ 2048 then
    match findPoolIndex g m size with
    | none => some (0, m)
    | some poolIdx =>
      if listEmpty g m (g.freeListAt poolIdx) then do
        let (ok, m) ← expandChunkPool g m poolIdx
        if ok then return popChunk g m poolIdx else return (0, m)
      else some (popChunk g m poolIdx)
  else buddyAllocPages g m (roundupOrder ((size + pageSize - 1) / pageSize))

/-- The value of a `signed char`. -/
def signedChar (v : ℕ) : ℤ := if v < 128 then v else v - 256

/-- The double-free check of `free`: whether the chunk `ck` is on the list, from `pos` on. -/
def onList (m : Mem) (head ck : Addr) : ℕ → Addr → Option Bool
  | 0, _ => none
  | n + 1, pos =>
    if pos = head then some false
    else if pos = ck then some true
    else onList m head ck n (next g m pos)

/-- The sweep of `free`: the chunks of the page at `pageBase` leave the list. -/
def sweep (head pageBase : Addr) : ℕ → Mem → Addr → Option Mem
  | 0, _, _ => none
  | n + 1, m, pos =>
    if pos = head then some m
    else
      let q := next g m pos
      let m := if pageBase ≤ pos ∧ pos < pageBase + 4096 then listDel g m pos else m
      sweep head pageBase n m q

/-- The return of a chunk page. -/
def returnPage (m : Mem) (poolIdx pageIdx : ℕ) (pageBase : Addr) : Option Mem := do
  let head := g.freeListAt poolIdx
  let m ← sweep g head pageBase listRounds m (next g m head)
  buddyFreePages g (set g m (.state pageIdx) (stateCode .allocPageHead)) pageBase

/-- The chunk case of `free`. -/
def freeChunk (m : Mem) (addr : Addr) (pageIdx : ℕ) : Option Mem :=
  let metaPoolIdx := signedChar (get g m (.metaPoolIdx pageIdx))
  let pageBase := alignDownUl addr 4096
  if metaPoolIdx < 0 ∨ (chunkPoolCount : ℤ) ≤ metaPoolIdx then some m
  else
    let poolIdx := metaPoolIdx.toNat
    let chunkSize := get g m (.chunkSize poolIdx)
    if (addr - pageBase).toNat % chunkSize ≠ 0 then some m
    else do
      let head := g.freeListAt poolIdx
      if ← onList g m head addr listRounds (next g m head) then return m
      else
        let m := listAdd g m addr head
        let m := set g m (.refCount pageIdx) (get g m (.refCount pageIdx) + (2 ^ 32 - 1))
        if get g m (.refCount pageIdx) = 0 then returnPage g m poolIdx pageIdx pageBase
        else return m

/-- The page case of `free`. -/
def freePage (m : Mem) (addr : Addr) (pageIdx : ℕ) : Option Mem :=
  if addr &&& 4095#64 ≠ 0 then some m
  else
    let m := set g m (.cowRefCount pageIdx) (get g m (.cowRefCount pageIdx) + (2 ^ 32 - 1))
    if get g m (.cowRefCount pageIdx) = 0 then buddyFreePages g m addr else some m

/-- The test for the pool in `free` and `page_inc_ref`. -/
def InPool (addr : Addr) : Prop :=
  g.mempoolSize ≠ 0 ∧ g.mempoolStart ≤ addr ∧ addr < g.mempoolStart + g.mempoolSize

instance (addr : Addr) : Decidable (InPool g addr) := inferInstanceAs (Decidable (_ ∧ _ ∧ _))

/-- `free`. -/
def free (m : Mem) (ptr : Addr) : Option Mem :=
  if ¬ g.allocatorReady ∨ ptr = 0 then some m
  else if ¬ InPool g ptr then some m
  else
    let pageIdx := g.addrToPageIdx ptr
    if g.memTotalPage ≤ pageIdx then some m
    else if get g m (.state pageIdx) = stateCode .allocChunkPool then freeChunk g m ptr pageIdx
    else if get g m (.state pageIdx) = stateCode .allocPageHead then freePage g m ptr pageIdx
    else some m

/-- `page_inc_ref`. -/
def pageIncRef (m : Mem) (ptr : Addr) : Mem :=
  if ¬ InPool g ptr then m
  else
    let pageIdx := g.addrToPageIdx ptr
    set g m (.cowRefCount pageIdx) (get g m (.cowRefCount pageIdx) + 1)

end BareMetalOS.Heap
