import BareMetalOS.Foundations.ByteMemory
import BareMetalOS.Memory.Allocator

/-!
# The data of the allocator in memory

`struct frame *frame_array`, the list heads `free_area` of `lib/buddy.c` and the array `g_pools` of
`src/allocator.c` are words of the memory that the kernel runs in, and so are the nodes of the free
chunks, which lie in the pages of the pool. `frame_array` itself lies in pages of the pool, too. The
functions of this level therefore work on a memory of bytes, and whatever lies at an address may be
overwritten through any other pointer to it.

`Field` names the words: the fields of a frame by its index, and the fields of a list node by its
address.
-/

namespace BareMetalOS.Heap

open Memory

/-- The memory of the kernel. -/
abbrev Mem := ByteMemory 64

/-- Where the data lies, and the globals that keep their values after `allocator_init`. -/
structure Globals where
  /-- the pointer `frame_array` -/
  frameArray : Addr
  /-- `&free_area[0]` -/
  freeArea : Addr
  /-- `&g_pools[0]` -/
  gPools : Addr
  /-- `G_MEMPOOL_START` -/
  mempoolStart : Addr
  /-- `G_MEMPOOL_SIZE` -/
  mempoolSize : Addr
  /-- `G_MEM_TOTAL_PAGE` -/
  memTotalPage : ℕ
  /-- `buddy_ready` -/
  buddyReady : Bool
  /-- `g_allocator_ready` -/
  allocatorReady : Bool

/-- `sizeof(struct frame)`. -/
def sizeofFrame : ℕ := 40

/-- `sizeof(struct list_head)`. -/
def sizeofListHead : ℕ := 16

/-- `sizeof(struct chunk_pool)`. -/
def sizeofChunkPool : ℕ := 24

/-- A field in memory. -/
inductive Field
  | order (idx : ℕ)
  | state (idx : ℕ)
  | metaPoolIdx (idx : ℕ)
  | refCount (idx : ℕ)
  | cowRefCount (idx : ℕ)
  /-- of the list node at an address -/
  | next (node : Addr)
  | prev (node : Addr)
  /-- of a chunk pool -/
  | chunkSize (i : ℕ)
  deriving DecidableEq, Repr

namespace Globals

/-- `&frame_array[idx]`. -/
def frameAt (g : Globals) (idx : ℕ) : Addr := g.frameArray + BitVec.ofNat 64 (idx * sizeofFrame)

/-- `&frame_array[idx].node`. -/
def nodeAt (g : Globals) (idx : ℕ) : Addr := g.frameAt idx + 8

/-- `&free_area[k]`. -/
def freeAreaAt (g : Globals) (k : ℕ) : Addr := g.freeArea + BitVec.ofNat 64 (k * sizeofListHead)

/-- `&g_pools[i]`. -/
def poolAt (g : Globals) (i : ℕ) : Addr := g.gPools + BitVec.ofNat 64 (i * sizeofChunkPool)

/-- `&g_pools[i].free_list`. -/
def freeListAt (g : Globals) (i : ℕ) : Addr := g.poolAt i + 8

/-- The address of a field. -/
def addr (g : Globals) : Field → Addr
  | .order idx => g.frameAt idx
  | .state idx => g.frameAt idx + 4
  | .metaPoolIdx idx => g.frameAt idx + 24
  | .refCount idx => g.frameAt idx + 28
  | .cowRefCount idx => g.frameAt idx + 32
  | .next node => node
  | .prev node => node + 8
  | .chunkSize i => g.poolAt i

/-- `page_to_addr`. -/
def pageToAddr (g : Globals) (idx : ℕ) : Addr := g.mempoolStart + BitVec.ofNat 64 (idx * pageSize)

/-- `addr_to_page_idx`. -/
def addrToPageIdx (g : Globals) (addr : Addr) : ℕ := ((addr - g.mempoolStart) >>> pageShift).toNat

/-- The index of the frame whose node is at `node`: `list_entry` and the difference to
`frame_array`. -/
def frameIdx (g : Globals) (node : Addr) : ℕ :=
  ((node - 8 - g.frameArray).sdiv (BitVec.ofNat 64 sizeofFrame)).toNat

end Globals

/-- The number of bytes of a field. -/
def Field.size : Field → ℕ
  | .order _ | .state _ | .refCount _ | .cowRefCount _ | .chunkSize _ => 4
  | .metaPoolIdx _ => 1
  | .next _ | .prev _ => 8

variable (g : Globals)

/-- Read a field. -/
def get (m : Mem) (f : Field) : ℕ := m.load (g.addr f) f.size

/-- Write a field. -/
def set (m : Mem) (f : Field) (v : ℕ) : Mem := m.store (g.addr f) f.size v

/-- The `next` pointer of a node. -/
def next (m : Mem) (node : Addr) : Addr := BitVec.ofNat 64 (get g m (.next node))

/-- The `prev` pointer of a node. -/
def prev (m : Mem) (node : Addr) : Addr := BitVec.ofNat 64 (get g m (.prev node))

/-! ## `list.h` -/

/-- `INIT_LIST_HEAD`. -/
def initListHead (m : Mem) (list : Addr) : Mem :=
  let m := set g m (.next list) list.toNat
  set g m (.prev list) list.toNat

/-- `list_add`. -/
def listAdd (m : Mem) (new head : Addr) : Mem :=
  let next := next g m head
  let m := set g m (.prev next) new.toNat
  let m := set g m (.next new) next.toNat
  let m := set g m (.prev new) head.toNat
  set g m (.next head) new.toNat

/-- `list_del`. -/
def listDel (m : Mem) (entry : Addr) : Mem :=
  let prev := prev g m entry
  let next := next g m entry
  let m := set g m (.prev next) prev.toNat
  let m := set g m (.next prev) next.toNat
  initListHead g m entry

/-- `list_empty`. -/
def listEmpty (m : Mem) (head : Addr) : Prop := next g m head = head

instance (m : Mem) (head : Addr) : Decidable (listEmpty g m head) :=
  inferInstanceAs (Decidable (_ = _))

/-- The rounds after which a loop over a list counts as endless: as many as there are addresses. -/
def listRounds : ℕ := 2 ^ 64

end BareMetalOS.Heap
