import BareMetalOS.Foundations.Loops

/-!
# The buddy system

The page allocator of `lib/buddy.c`, over the frame array and the eleven free lists. The state
`Buddy` holds the globals of that file: the pool, `frame_array` as a function of the page index,
and `free_area[k]` as the list of the page indices on it, first entry first. The intrusive nodes
of `lib/list.h` appear through what they represent: `list_add` is a cons, and `list_del` takes the
node off whichever list it is on. At this level the frames are apart from the memory of the pool, in
which the source keeps them; `BareMetalOS.Heap` has them there and refines this level where their
pages are `RESERVED`.

A loop of the source is a function by recursion on a bound of its iterations: `carveRun` and
`initLoop` are the loops of `buddy_init`, `splitBlock` the one of `buddy_alloc_pages` and
`mergeBuddy` the one of `buddy_free_pages`.
-/

namespace BareMetalOS.Memory

/-- `unsigned long`, and every pointer; `0` is `NULL`. -/
abbrev Addr := BitVec 64

instance : LawfulBEq Addr := inferInstance

/-- `PAGE_SHIFT`. -/
def pageShift : ℕ := 12

/-- `PAGE_SIZE`. -/
def pageSize : ℕ := 4096

/-- `BUDDY_MAX_ORDER`. -/
def buddyMaxOrder : ℕ := 10

/-- `enum page_state`. -/
inductive PageState
  | freeHead
  | freeTail
  | reserved
  | allocPageHead
  | allocPageTail
  | allocChunkPool
  deriving DecidableEq, Repr

/-- `struct frame`, without its list node. -/
structure Frame where
  order : ℤ
  state : PageState
  metaPoolIdx : ℤ
  refCount : ℤ
  cowRefCount : ℤ
  deriving DecidableEq, Repr

/-- The globals of `lib/buddy.c`. -/
structure Buddy where
  /-- `G_MEMPOOL_START` -/
  mempoolStart : Addr
  /-- `G_MEMPOOL_SIZE` -/
  mempoolSize : Addr
  /-- `G_MEM_TOTAL_PAGE` -/
  memTotalPage : ℕ
  frameArray : ℕ → Frame
  freeArea : ℕ → List ℕ
  /-- `buddy_ready` -/
  ready : Bool

/-- The cast `(unsigned int)` of an `int`. -/
def toUnsigned (x : ℤ) : ℕ := (x % 2 ^ 32).toNat

/-- `page_to_addr`. -/
def pageToAddr (s : Buddy) (idx : ℕ) : Addr :=
  s.mempoolStart + BitVec.ofNat 64 (idx * pageSize)

/-! ## Blocks -/

/-- `mark_block`: the head page takes the order, the other pages the order `-1`. -/
def markBlock (fr : ℕ → Frame) (idx order : ℕ) (headState tailState : PageState) : ℕ → Frame :=
  updRange (fun f => { f with state := tailState, order := -1 })
    (Function.update fr idx { fr idx with state := headState, order := order })
    (idx + 1) (2 ^ order - 1)

/-- `add_free_block`. -/
def addFreeBlock (s : Buddy) (idx order : ℕ) : Buddy :=
  { s with
    frameArray := markBlock s.frameArray idx order .freeHead .freeTail
    freeArea := Function.update s.freeArea order (idx :: s.freeArea order) }

/-- `remove_free_block`; its order argument is only logged. -/
def removeFreeBlock (s : Buddy) (idx : ℕ) : Buddy :=
  { s with
    frameArray := Function.update s.frameArray idx
      { s.frameArray idx with state := .allocPageHead }
    freeArea := fun k => (s.freeArea k).erase idx }

/-! ## Initialisation -/

/-- The first loop of `buddy_init`: the bookkeeping of one frame is reset. -/
def resetFrame (f : Frame) : Frame where
  order := -1
  state := if f.state ≠ .reserved then .allocPageTail else f.state
  metaPoolIdx := -1
  refCount := 0
  cowRefCount := 0

/-- The number of contiguous pages from `p` on that are not reserved. -/
def freeRun (fr : ℕ → Frame) (total : ℕ) : ℕ → ℕ → ℕ
  | 0, _ => 0
  | n + 1, p =>
    if p < total ∧ (fr p).state ≠ .reserved then freeRun fr total n (p + 1) + 1 else 0

/-- The largest order at most `k` of a block which starts at `idx` and fits in `freeCount`
pages. Order `0` always does, as the source only asks when `freeCount > 0`. -/
def carveOrder (idx freeCount : ℕ) : ℕ → ℕ
  | 0 => 0
  | k + 1 =>
    if idx &&& (2 ^ (k + 1) - 1) = 0 ∧ 2 ^ (k + 1) ≤ freeCount then k + 1
    else carveOrder idx freeCount k

/-- Break `freeCount` contiguous pages from `idx` on into free blocks. -/
def carveRun : ℕ → Buddy → ℕ → ℕ → Buddy × ℕ
  | 0, s, idx, _ => (s, idx)
  | n + 1, s, idx, freeCount =>
    if 0 < freeCount then
      let order := carveOrder idx freeCount buddyMaxOrder
      carveRun n (addFreeBlock s idx order) (idx + 2 ^ order) (freeCount - 2 ^ order)
    else (s, idx)

/-- The `while (idx < G_MEM_TOTAL_PAGE)` loop of `buddy_init`. -/
def initLoop : ℕ → Buddy → ℕ → Buddy
  | 0, s, _ => s
  | n + 1, s, idx =>
    if idx < s.memTotalPage then
      if (s.frameArray idx).state = .reserved then
        -- reserved pages keep order 0
        initLoop n { s with
          frameArray := Function.update s.frameArray idx
            { s.frameArray idx with order := 0 } } (idx + 1)
      else
        let freeCount := freeRun s.frameArray s.memTotalPage (s.memTotalPage - idx) idx
        let r := carveRun freeCount s idx freeCount
        initLoop n r.1 r.2
    else s

/-- `buddy_init`. -/
def buddyInit (s : Buddy) : Buddy :=
  let s := { s with
    frameArray := updRange resetFrame s.frameArray 0 s.memTotalPage
    freeArea := fun _ => [] }
  { initLoop s.memTotalPage s 0 with ready := true }

/-! ## Allocation -/

/-- The first order from `order` on whose free list is not empty. -/
def findOrder (s : Buddy) (order : ℕ) : Option ℕ :=
  (List.range' order (buddyMaxOrder + 1 - order)).find? fun current => s.freeArea current ≠ []

/-- The splitting loop from order `order + d` down to `order`: the upper half goes back to the
free list of its order. -/
def splitBlock (s : Buddy) (idx order : ℕ) : ℕ → Buddy
  | 0 => s
  | d + 1 => splitBlock (addFreeBlock s (idx + 2 ^ (order + d)) (order + d)) idx order d

/-- `buddy_alloc_pages`. -/
def buddyAllocPages (s : Buddy) (order : ℕ) : Addr × Buddy :=
  if ¬ s.ready ∨ buddyMaxOrder < order then (0, s)
  else
    match findOrder s order with
    | none => (0, s)
    | some current =>
      -- `list_first_entry`
      let idx := (s.freeArea current).headD 0
      let s := splitBlock (removeFreeBlock s idx) idx order (current - order)
      let fr := markBlock s.frameArray idx order .allocPageHead .allocPageTail
      let s := { s with frameArray := Function.update fr idx { fr idx with cowRefCount := 1 } }
      (pageToAddr s idx, s)

/-! ## Freeing -/

/-- The two `break` tests of the merging loop fail: the buddy is a page of the pool, and the head
of a free block of the same order. -/
def BuddyIsFree (s : Buddy) (idx order : ℕ) : Prop :=
  idx ^^^ 2 ^ order < s.memTotalPage ∧ (s.frameArray (idx ^^^ 2 ^ order)).state = .freeHead ∧
    toUnsigned (s.frameArray (idx ^^^ 2 ^ order)).order = order

instance (s : Buddy) (idx order : ℕ) : Decidable (BuddyIsFree s idx order) :=
  inferInstanceAs (Decidable (_ ∧ _ ∧ _))

/-- One round of the merging loop: the buddy leaves its list, and the lower of the two becomes
the head of the block made of both. -/
def absorbBuddy (s : Buddy) (idx order : ℕ) : Buddy × ℕ :=
  let buddyIdx := idx ^^^ 2 ^ order
  let s := removeFreeBlock s buddyIdx
  let idx := if buddyIdx < idx then buddyIdx else idx
  ({ s with frameArray := markBlock s.frameArray idx (order + 1) .freeHead .freeTail }, idx)

/-- The merging loop. -/
def mergeBuddy : ℕ → Buddy → ℕ → ℕ → Buddy × ℕ × ℕ
  | 0, s, idx, order => (s, idx, order)
  | n + 1, s, idx, order =>
    if order < buddyMaxOrder ∧ BuddyIsFree s idx order then
      mergeBuddy n (absorbBuddy s idx order).1 (absorbBuddy s idx order).2 (order + 1)
    else (s, idx, order)

/-- `buddy_free_pages`. -/
def buddyFreePages (s : Buddy) (ptr : Addr) : Buddy :=
  if ¬ s.ready ∨ ptr = 0 then s
  else if ptr < s.mempoolStart ∨ s.mempoolStart + s.mempoolSize ≤ ptr then s
  else if ptr &&& 4095#64 ≠ 0 then s
  else
    let idx := ((ptr - s.mempoolStart) >>> pageShift).toNat
    if s.memTotalPage ≤ idx ∨ (s.frameArray idx).state ≠ .allocPageHead then s
    else
      let order := toUnsigned (s.frameArray idx).order
      let s := { s with frameArray := markBlock s.frameArray idx order .freeHead .freeTail }
      let r := mergeBuddy buddyMaxOrder s idx order
      addFreeBlock r.1 r.2.1 r.2.2

end BareMetalOS.Memory
