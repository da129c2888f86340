import BareMetalOS.Heap.Layout

/-!
# The buddy system in memory

The functions of `lib/buddy.c` over `frame_array` and `free_area` in memory. The loops are as in
`Memory.Buddy`. A function that walks a list has no result (`none`) if it does not come to the end
of it; that is so for `buddy_dump_free_areas`, which runs through all free lists after each
operation, also when nothing is logged.
-/

namespace BareMetalOS.Heap

open Memory

/-- `enum page_state`. -/
def stateCode : PageState → ℕ
  | .freeHead => 0
  | .freeTail => 1
  | .reserved => 2
  | .allocPageHead => 3
  | .allocPageTail => 4
  | .allocChunkPool => 5

variable (g : Globals)

/-! ## Blocks -/

/-- The loop of `mark_block` over the tailing pages `idx + 1 .. idx + n`. -/
def markTail (m : Mem) (idx : ℕ) (tailState : PageState) : ℕ → Mem
  | 0 => m
  | n + 1 =>
    let m := set g (markTail m idx tailState n) (.state (idx + (n + 1))) (stateCode tailState)
    set g m (.order (idx + (n + 1))) (toUnsigned (-1))

/-- `mark_block`. -/
def markBlock (m : Mem) (idx order : ℕ) (headState tailState : PageState) : Mem :=
  let m := set g m (.state idx) (stateCode headState)
  let m := set g m (.order idx) order
  markTail g m idx tailState (2 ^ order - 1)

/-- `add_free_block`. -/
def addFreeBlock (m : Mem) (idx order : ℕ) : Mem :=
  listAdd g (markBlock g m idx order .freeHead .freeTail) (g.nodeAt idx) (g.freeAreaAt order)

/-- `remove_free_block`. -/
def removeFreeBlock (m : Mem) (idx : ℕ) : Mem :=
  set g (listDel g m (g.nodeAt idx)) (.state idx) (stateCode .allocPageHead)

/-! ## Initialisation -/

/-- The body of the first loop of `buddy_init`. -/
def resetFrame (m : Mem) (idx : ℕ) : Mem :=
  let m := set g m (.order idx) (toUnsigned (-1))
  let m :=
    if get g m (.state idx) ≠ stateCode .reserved then
      set g m (.state idx) (stateCode .allocPageTail)
    else m
  let m := set g m (.metaPoolIdx idx) 255
  let m := set g m (.refCount idx) 0
  let m := set g m (.cowRefCount idx) 0
  initListHead g m (g.nodeAt idx)

/-- The first loop, over the frames `0 .. n - 1`. -/
def initFrames (m : Mem) : ℕ → Mem
  | 0 => m
  | n + 1 => resetFrame g (initFrames m n) n

/-- The second loop, over `free_area[0 .. n - 1]`. -/
def initFreeArea (m : Mem) : ℕ → Mem
  | 0 => m
  | n + 1 => initListHead g (initFreeArea m n) (g.freeAreaAt n)

/-- The number of contiguous pages from `p` on that are not reserved. -/
def freeRun (m : Mem) : ℕ → ℕ → ℕ
  | 0, _ => 0
  | n + 1, p =>
    if p < g.memTotalPage ∧ get g m (.state p) ≠ stateCode .reserved then freeRun m n (p + 1) + 1
    else 0

/-- Break `freeCount` contiguous pages from `idx` on into free blocks. -/
def carveRun : ℕ → Mem → ℕ → ℕ → Mem × ℕ
  | 0, m, idx, _ => (m, idx)
  | n + 1, m, idx, freeCount =>
    if 0 < freeCount then
      let order := carveOrder idx freeCount buddyMaxOrder
      carveRun n (addFreeBlock g m idx order) (idx + 2 ^ order) (freeCount - 2 ^ order)
    else (m, idx)

/-- The `while (idx < G_MEM_TOTAL_PAGE)` loop of `buddy_init`. -/
def initLoop : ℕ → Mem → ℕ → Mem
  | 0, m, _ => m
  | n + 1, m, idx =>
    if idx < g.memTotalPage then
      if get g m (.state idx) = stateCode .reserved then
        initLoop n (set g m (.order idx) 0) (idx + 1)
      else
        let freeCount := freeRun g m (g.memTotalPage - idx) idx
        let r := carveRun g freeCount m idx freeCount
        initLoop n r.1 r.2
    else m

/-- `buddy_init`. -/
def buddyInit (m : Mem) : Mem :=
  let m := initFrames g m g.memTotalPage
  let m := initFreeArea g m (buddyMaxOrder + 1)
  initLoop g g.memTotalPage m 0

/-! ## Walks -/

/-- The length of a list, from the node `it` on. -/
def countList (m : Mem) (head : Addr) : ℕ → Addr → Option ℕ
  | 0, _ => none
  | n + 1, it => if it = head then some 0 else (countList m head n (next g m it)).map (· + 1)

/-- `buddy_dump_free_areas`: the lengths of the free lists. -/
def buddyDumpFreeAreas (m : Mem) : Option (List ℕ) :=
  (List.range (buddyMaxOrder + 1)).mapM fun i =>
    countList g m (g.freeAreaAt i) listRounds (next g m (g.freeAreaAt i))

/-! ## Allocation -/

/-- The first order from `order` on whose free list is not empty. -/
def findOrder (m : Mem) (order : ℕ) : Option ℕ :=
  (List.range' order (buddyMaxOrder + 1 - order)).find? fun current =>
    ¬ listEmpty g m (g.freeAreaAt current)

/-- The splitting loop from order `order + d` down to `order`. -/
def splitBlock (m : Mem) (idx order : ℕ) : ℕ → Mem
  | 0 => m
  | d + 1 => splitBlock (addFreeBlock g m (idx + 2 ^ (order + d)) (order + d)) idx order d

/-- `buddy_alloc_pages`. -/
def buddyAllocPages (m : Mem) (order : ℕ) : Option (Addr × Mem) :=
  if ¬ g.buddyReady ∨ buddyMaxOrder < order then some (0, m)
  else
    match findOrder g m order with
    | none => some (0, m)
    | some current => do
      -- `list_first_entry`
      let idx := g.frameIdx (next g m (g.freeAreaAt current))
      let m := splitBlock g (removeFreeBlock g m idx) idx order (current - order)
      let m := markBlock g m idx order .allocPageHead .allocPageTail
      let m := set g m (.cowRefCount idx) 1
      let _ ← buddyDumpFreeAreas g m
      return (g.pageToAddr idx, m)

/-! ## Freeing -/

/-- The two `break` tests of the merging loop fail. -/
def BuddyIsFree (m : Mem) (idx order : ℕ) : Prop :=
  idx ^^^ 2 ^ order < g.memTotalPage ∧
    get g m (.state (idx ^^^ 2 ^ order)) = stateCode .freeHead ∧
    get g m (.order (idx ^^^ 2 ^ order)) = order

instance (m : Mem) (idx order : ℕ) : Decidable (BuddyIsFree g m idx order) :=
  inferInstanceAs (Decidable (_ ∧ _ ∧ _))

/-- One round of the merging loop. -/
def absorbBuddy (m : Mem) (idx order : ℕ) : Mem × ℕ :=
  let buddyIdx := idx ^^^ 2 ^ order
  let m := removeFreeBlock g m buddyIdx
  let idx := if buddyIdx < idx then buddyIdx else idx
  (markBlock g m idx (order + 1) .freeHead .freeTail, idx)

/-- The merging loop. -/
def mergeBuddy : ℕ → Mem → ℕ → ℕ → Mem × ℕ × ℕ
  | 0, m, idx, order => (m, idx, order)
  | n + 1, m, idx, order =>
    if order < buddyMaxOrder ∧ BuddyIsFree g m idx order then
      mergeBuddy n (absorbBuddy g m idx order).1 (absorbBuddy g m idx order).2 (order + 1)
    else (m, idx, order)

/-- `buddy_free_pages`. -/
def buddyFreePages (m : Mem) (ptr : Addr) : Option Mem :=
  if ¬ g.buddyReady ∨ ptr = 0 then some m
  else if ptr < g.mempoolStart ∨ g.mempoolStart + g.mempoolSize ≤ ptr then some m
  else if ptr &&& 4095#64 ≠ 0 then some m
  else
    let idx := ((ptr - g.mempoolStart) >>> pageShift).toNat
    if g.memTotalPage ≤ idx ∨ get g m (.state idx) ≠ stateCode .allocPageHead then some m
    else do
      let order := get g m (.order idx)
      let m := markBlock g m idx order .freeHead .freeTail
      let r := mergeBuddy g buddyMaxOrder m idx order
      let m := addFreeBlock g r.1 r.2.1 r.2.2
      let _ ← buddyDumpFreeAreas g m
      return m

end BareMetalOS.Heap
