import BareMetalOS.Memory.Region

/-!
# The dynamic allocator

`allocate` and `free` of `src/allocator.c`: requests of at most 2048 bytes are served from eight
chunk pools, each cutting pages of the buddy system into chunks of one size, and larger ones from
the buddy system. A chunk pool's `free_list` is the list of the addresses of its free chunks, first
entry first. The nodes themselves, which the source writes into the chunks, are in the memory of
`BareMetalOS.Heap`, which refines this level.
-/

namespace BareMetalOS.Memory

/-- `CHUNK_POOL_COUNT`. -/
def chunkPoolCount : ℕ := 8

/-- `g_pool_sizes`. -/
def gPoolSizes (i : ℕ) : ℕ := [16, 32, 64, 128, 256, 512, 1024, 2048].getD i 0

/-- `MAX_ALLOC_SIZE`. -/
def maxAllocSize : ℕ := 2147483647

/-- `struct chunk_pool`. -/
structure ChunkPool where
  chunkSize : ℕ
  freeList : List Addr

/-- The globals of `src/allocator.c`, over those of the buddy system. -/
structure Allocator where
  buddy : Buddy
  gPools : ℕ → ChunkPool
  /-- `g_allocator_ready` -/
  ready : Bool

/-- `roundup_order`, with the loop bounded by `fuel`. -/
def roundupLoop (pages : ℕ) : ℕ → ℕ → ℕ → ℕ
  | 0, _, order => order
  | fuel + 1, n, order => if n < pages then roundupLoop pages fuel (n * 2) (order + 1) else order

/-- `roundup_order`. -/
def roundupOrder (pages : ℕ) : ℕ := roundupLoop pages pages 1 0

/-- `addr_to_page_idx`. -/
def addrToPageIdx (s : Buddy) (addr : Addr) : ℕ := ((addr - s.mempoolStart) >>> pageShift).toNat

/-- `find_pool_index`; `none` is `-1`. -/
def findPoolIndex (s : Allocator) (size : ℕ) : Option ℕ :=
  (List.range chunkPoolCount).find? fun i => size ≤ (s.gPools i).chunkSize

/-- The end of `allocator_init`: the chunk pools are empty. -/
def poolsInit (s : Buddy) : Allocator where
  buddy := s
  gPools i := ⟨gPoolSizes i, []⟩
  ready := true

/-- Store a frame. -/
def Buddy.setFrame (s : Buddy) (idx : ℕ) (f : Frame) : Buddy :=
  { s with frameArray := Function.update s.frameArray idx f }

/-- Replace the free list of a pool. -/
def Allocator.setFreeList (s : Allocator) (i : ℕ) (l : List Addr) : Allocator :=
  { s with gPools := Function.update s.gPools i { s.gPools i with freeList := l } }

/-- The address of chunk `c` of the page at `page`. -/
def chunkAt (page : Addr) (chunkSize c : ℕ) : Addr := page + BitVec.ofNat 64 (c * chunkSize)

/-- The refill loop of `expand_chunk_pool`: the chunks `0 .. n - 1` are pushed in this order. -/
def pushChunks (page : Addr) (chunkSize : ℕ) (l : List Addr) : ℕ → List Addr
  | 0 => l
  | n + 1 => chunkAt page chunkSize n :: pushChunks page chunkSize l n

/-- `expand_chunk_pool`; the flag says whether it returned `0`. -/
def expandChunkPool (s : Allocator) (poolIdx : ℕ) : Bool × Allocator :=
  let r := buddyAllocPages s.buddy 0
  if r.1 = 0 then (false, { s with buddy := r.2 })
  else
    let pageIdx := addrToPageIdx r.2 r.1
    let chunkSize := (s.gPools poolIdx).chunkSize
    let b := r.2.setFrame pageIdx { r.2.frameArray pageIdx with
      state := .allocChunkPool, metaPoolIdx := poolIdx, order := 0, refCount := 0 }
    (true, { s with buddy := b }.setFreeList poolIdx
      (pushChunks r.1 chunkSize (s.gPools poolIdx).freeList (pageSize / chunkSize)))

/-- Take the first chunk of a pool's free list: the end of the small case of `allocate`. -/
def popChunk (s : Allocator) (poolIdx : ℕ) : Addr × Allocator :=
  let ck := (s.gPools poolIdx).freeList.headD 0
  let s := s.setFreeList poolIdx (s.gPools poolIdx).freeList.tail
  let f := s.buddy.frameArray (addrToPageIdx s.buddy ck)
  (ck, { s with
    buddy := s.buddy.setFrame (addrToPageIdx s.buddy ck) { f with refCount := f.refCount + 1 } })

/-- `allocate`. -/
def allocate (s : Allocator) (size : ℕ) : Addr × Allocator :=
  if ¬ s.ready ∨ size = 0 ∨ maxAllocSize < size then (0, s)
  else if size ≤ 2048 then
    match findPoolIndex s size with
    | none => (0, s)
    | some poolIdx =>
      if (s.gPools poolIdx).freeList = [] then
        let r := expandChunkPool s poolIdx
        if r.1 then popChunk r.2 poolIdx else (0, r.2)
      else popChunk s poolIdx
  else
    let pages := (size + pageSize - 1) / pageSize
    let r := buddyAllocPages s.buddy (roundupOrder pages)
    (r.1, { s with buddy := r.2 })

/-- The return of a chunk page: its chunks leave the free list, and the page goes back to the
buddy system. -/
def returnPage (s : Allocator) (poolIdx pageIdx : ℕ) (pageBase : Addr) : Allocator :=
  let s := s.setFreeList poolIdx ((s.gPools poolIdx).freeList.filter
    fun node => ¬ (pageBase ≤ node ∧ node < pageBase + 4096))
  let b := s.buddy.setFrame pageIdx
    { s.buddy.frameArray pageIdx with state := .allocPageHead }
  { s with buddy := buddyFreePages b pageBase }

/-- The chunk case of `free`. -/
def freeChunk (s : Allocator) (addr : Addr) (pageIdx : ℕ) : Allocator :=
  let metaPoolIdx := (s.buddy.frameArray pageIdx).metaPoolIdx
  let pageBase := alignDownUl addr 4096
  if metaPoolIdx < 0 ∨ (chunkPoolCount : ℤ) ≤ metaPoolIdx then s
  else
    let poolIdx := metaPoolIdx.toNat
    let chunkSize := (s.gPools poolIdx).chunkSize
    if (addr - pageBase).toNat % chunkSize ≠ 0 then s
    -- the double-free check walks the free list
    else if addr ∈ (s.gPools poolIdx).freeList then s
    else
      let s := s.setFreeList poolIdx (addr :: (s.gPools poolIdx).freeList)
      let f := s.buddy.frameArray pageIdx
      let s := { s with
        buddy := s.buddy.setFrame pageIdx { f with refCount := f.refCount - 1 } }
      if (s.buddy.frameArray pageIdx).refCount = 0 then returnPage s poolIdx pageIdx pageBase
      else s

/-- The page case of `free`. -/
def freePage (s : Allocator) (addr : Addr) (pageIdx : ℕ) : Allocator :=
  if addr &&& 4095#64 ≠ 0 then s
  else
    let f := s.buddy.frameArray pageIdx
    let b := s.buddy.setFrame pageIdx { f with cowRefCount := f.cowRefCount - 1 }
    if (b.frameArray pageIdx).cowRefCount = 0 then { s with buddy := buddyFreePages b addr }
    else { s with buddy := b }

/-- The address lies in `[G_MEMPOOL_START, G_MEMPOOL_START + G_MEMPOOL_SIZE)`, computed with
wrap-around, and the pool is not empty. -/
def InPool (s : Buddy) (addr : Addr) : Prop :=
  s.mempoolSize ≠ 0 ∧ s.mempoolStart ≤ addr ∧ addr < s.mempoolStart + s.mempoolSize

instance (s : Buddy) (addr : Addr) : Decidable (InPool s addr) :=
  inferInstanceAs (Decidable (_ ∧ _ ∧ _))

/-- `free`. -/
def free (s : Allocator) (ptr : Addr) : Allocator :=
  if ¬ s.ready ∨ ptr = 0 then s
  else if ¬ InPool s.buddy ptr then s
  else
    let pageIdx := addrToPageIdx s.buddy ptr
    if s.buddy.memTotalPage ≤ pageIdx then s
    else
      match (s.buddy.frameArray pageIdx).state with
      | .allocChunkPool => freeChunk s ptr pageIdx
      | .allocPageHead => freePage s ptr pageIdx
      | _ => s

/-- `page_inc_ref`. -/
def pageIncRef (s : Allocator) (ptr : Addr) : Allocator :=
  if ¬ InPool s.buddy ptr then s
  else
    let pageIdx := addrToPageIdx s.buddy ptr
    let f := s.buddy.frameArray pageIdx
    { s with buddy := s.buddy.setFrame pageIdx { f with cowRefCount := f.cowRefCount + 1 } }

/-- `get_page_ref`. -/
def getPageRef (s : Allocator) (ptr : Addr) : ℤ :=
  if ¬ InPool s.buddy ptr then 0
  else (s.buddy.frameArray (addrToPageIdx s.buddy ptr)).cowRefCount

end BareMetalOS.Memory
