import BareMetalOS.Heap.AnyCalls

/-!
# The pages of the chunk pools in memory

The reference count that the memory has for a chunk page is the number of its chunks that are held,
its other chunks are on the list of their pool once, and these lists, read from the memory, have no
other nodes (`chunkPages_sound`). When a chunk page is part of `frame_array`, its nodes overwrite
this data (`not_chunkPages_sound`).
-/

namespace BareMetalOS.Heap

open Memory

variable {g : Globals} {P : ℕ → Prop} {m m' : Mem} {s : Allocator} {h : CallHistory}
  {held : List (Addr × ℕ)} {a p ptr : Addr} {l : List Addr} {i idx c n : ℕ}

/-- The page `idx` is cut into chunks of the pool `i`. -/
structure IsChunkPage (g : Globals) (m : Mem) (i idx : ℕ) : Prop where
  pool : i < chunkPoolCount
  lt : idx < g.memTotalPage
  state : get g m (.state idx) = stateCode .allocChunkPool
  poolIdx : get g m (.metaPoolIdx idx) = i

/-- The chunk `c` of the page `idx`, when it is cut for the pool `i`. -/
def chunkOf (g : Globals) (i idx c : ℕ) : Addr := chunkAt (g.pageToAddr idx) (gPoolSizes i) c

/-- What the memory says of the chunks that are held. -/
structure ChunkPagesSound (g : Globals) (m : Mem) (held : List Addr) : Prop where
  refCount : ∀ i idx, IsChunkPage g m i idx → get g m (.refCount idx) =
    ((Finset.range (pageSize / gPoolSizes i)).filter fun c => chunkOf g i idx c ∈ held).card
  used : ∀ i idx, IsChunkPage g m i idx → 1 ≤ get g m (.refCount idx)
  /-- The list of a pool has the chunks of its pages that are not held, once each. -/
  free : ∀ i < chunkPoolCount, ∃ l, listAt g m (g.freeListAt i) = some l ∧
    (∀ idx c, IsChunkPage g m i idx → c < pageSize / gPoolSizes i → chunkOf g i idx c ∉ held →
      l.count (chunkOf g i idx c) = 1) ∧
    ∀ a ∈ l, a ∉ held ∧ ∃ idx c, IsChunkPage g m i idx ∧ c < pageSize / gPoolSizes i ∧
      a = chunkOf g i idx c

/-! ## From the level above -/

/-- The chunks that are held, once each. -/
def heldChunks (held : List (Addr × ℕ)) : List Addr := (pointers (held.filter (·.2 ≤ 2048))).dedup

theorem HeldInv.chunkHistory (hh : HeldInv s held) (hi : AllocInv s) :
    ChunkHistoryInv ⟨s, heldChunks held⟩ := by
  refine ⟨hi, hh.real, hh.used, List.nodup_dedup _, fun p => ?_⟩
  rw [heldChunks, List.mem_dedup, pointers, List.mem_map]
  constructor
  · rintro ⟨e, he, rfl⟩
    obtain ⟨hmem, hsmall⟩ := List.mem_filter.1 he
    exact ⟨blockBytes e.2, blockBytes_lt (of_decide_eq_true hsmall), hh.live hi hmem⟩
  · rintro ⟨n, hn, hl⟩
    obtain ⟨e, he, hp, rfl⟩ := hh.exists_of_live hi hl
    refine ⟨e, List.mem_filter.2 ⟨he, decide_eq_true ?_⟩, hp⟩
    by_contra hlarge
    have := pageSize_le_blockBytes (not_le.1 hlarge)
    omega

/-- A chunk of a chunk page is held if and only if it is one of the held chunks. -/
theorem HeldInv.mem_heldChunks_iff (hh : HeldInv s held) (hi : AllocInv s)
    (hp : Memory.IsChunkPage s i idx) (hc : c < pageSize / gPoolSizes i) :
    chunkAddr s.buddy i idx c ∈ heldChunks held ↔ chunkAddr s.buddy i idx c ∈ pointers held := by
  have hchunk := hh.chunkHistory hi
  constructor
  · intro hmem
    obtain ⟨n, -, hl⟩ := (hchunk.mem_iff _).1 hmem
    obtain ⟨e, he, heq, -⟩ := hh.exists_of_live hi hl
    exact heq ▸ List.mem_map_of_mem he
  · intro hmem
    rw [hchunk.mem_live_iff hp hc]
    intro hfree
    obtain ⟨e, he, heq⟩ := List.mem_map.1 hmem
    exact hi.not_live_of_mem hp.pool hfree _ (heq ▸ hh.live hi he)

theorem Holds.isChunkPage_iff (hm : Holds g P m s) :
    IsChunkPage g m i idx ↔ Memory.IsChunkPage s i idx := by
  have htotal := hm.rep.total
  constructor
  · rintro ⟨hi, hlt, hst, hmeta⟩
    have hst' := (hm.rep.state_eq_iff hlt).1 hst
    exact ⟨hi, hlt.trans_eq htotal.symm, hst', (hm.metaPoolIdx_eq hlt hst').1 hmeta⟩
  · rintro ⟨hi, hlt, hst, hmeta⟩
    have hlt' := hlt.trans_eq htotal
    exact ⟨hi, hlt', (hm.rep.state_eq_iff hlt').2 hst, (hm.metaPoolIdx_eq hlt' hst).2 hmeta⟩

theorem Rep.chunkOf_eq {n : ℕ} (hr : Rep g P n m s) (i idx c : ℕ) :
    chunkAddr s.buddy i idx c = chunkOf g i idx c := by
  rw [chunkAddr, chunkOf, hr.pageToAddr_eq]

theorem Holds.listAt_pool (hm : Holds g P m s) (hi : i < chunkPoolCount) :
    listAt g m (g.freeListAt i) = some (s.gPools i).freeList := hm.rep.listAt_eq (x := .pool i) hi

theorem CallInv.chunkPagesSound (hh : CallInv g P h) :
    ChunkPagesSound g h.mem (pointers h.held) := by
  obtain ⟨s, hm, hheld⟩ := hh
  have hsound := (hheld.chunkHistory hm.inv).chunkPagesSound
  have hcount : ∀ i idx, IsChunkPage g h.mem i idx → get g h.mem (.refCount idx) =
      toUnsigned (s.buddy.frameArray idx).refCount := fun i idx hp =>
    hm.rep.frame idx hp.lt .refCount
  have hcard : ∀ i idx, IsChunkPage g h.mem i idx → (s.buddy.frameArray idx).refCount =
      (((Finset.range (pageSize / gPoolSizes i)).filter
        fun c => chunkOf g i idx c ∈ pointers h.held).card : ℤ) := by
    intro i idx hp
    have hp' := hm.isChunkPage_iff.1 hp
    rw [hsound.refCount i idx hp']
    congr 2
    refine Finset.filter_congr fun c hc => ?_
    rw [hheld.mem_heldChunks_iff hm.inv hp' (Finset.mem_range.1 hc), hm.rep.chunkOf_eq]
  have hnat : ∀ i idx, IsChunkPage g h.mem i idx → get g h.mem (.refCount idx) =
      ((Finset.range (pageSize / gPoolSizes i)).filter
        fun c => chunkOf g i idx c ∈ pointers h.held).card := by
    intro i idx hp
    have hle := Finset.card_filter_le (Finset.range (pageSize / gPoolSizes i))
      fun c => chunkOf g i idx c ∈ pointers h.held
    have hdiv := Nat.div_le_self pageSize (gPoolSizes i)
    rw [Finset.card_range] at hle
    rw [hcount i idx hp, hcard i idx hp, toUnsigned]
    simp only [pageSize] at hle hdiv ⊢
    omega
  refine ⟨hnat, fun i idx hp => ?_, fun i hi => ⟨_, hm.listAt_pool hi, fun idx c hp hc hnot => ?_,
    fun a ha => ?_⟩⟩
  · have hused := hsound.used i idx (hm.isChunkPage_iff.1 hp)
    rw [hcard i idx hp] at hused
    rw [hnat i idx hp]
    exact_mod_cast hused
  · have hp' := hm.isChunkPage_iff.1 hp
    rw [← hm.rep.chunkOf_eq] at hnot ⊢
    exact hsound.free i idx c hp' hc (mt (hheld.mem_heldChunks_iff hm.inv hp' hc).1 hnot)
  · obtain ⟨-, idx, c, hp, hc, rfl⟩ := hsound.nothingElse i hi a ha
    refine ⟨fun hmem => ?_, idx, c, hm.isChunkPage_iff.2 hp, hc, hm.rep.chunkOf_eq i idx c⟩
    obtain ⟨e, he, heq⟩ := List.mem_map.1 hmem
    exact hm.inv.not_live_of_mem hi ha _ (heq ▸ hheld.live hm.inv he)

/-! ## Sound chunk pages -/

/-- A call of `free` that returns a page takes exactly the chunks of this page off their list. -/
def SweepsPage (g : Globals) (m : Mem) (ptr : Addr) : Prop :=
  ∀ m' i idx, Heap.free g m ptr = some m' → IsChunkPage g m i idx →
    get g m' (.state idx) ≠ stateCode .allocChunkPool →
    ∃ l, listAt g m (g.freeListAt i) = some l ∧ listAt g m' (g.freeListAt i) =
        some (l.filter fun a => g.addrToPageIdx a ≠ idx) ∧
      ∀ i' < chunkPoolCount, i' ≠ i →
        listAt g m' (g.freeListAt i') = listAt g m (g.freeListAt i')

theorem CallInv.sweepsPage (hs : Separate g P) (hh : CallInv g P h) (ptr : Addr) :
    SweepsPage g h.mem ptr := by
  obtain ⟨s, hm, hheld⟩ := hh
  intro m' i idx hfree hp hret
  obtain ⟨m₁, heq, hm₁⟩ := hm.free hs ptr
  obtain rfl := Option.some.inj (heq.symm.trans hfree)
  rw [Ne, hm₁.rep.state_eq_iff hp.lt] at hret
  obtain ⟨hlist, hother⟩ := freeList_of_returned hm.inv hheld.real (hm.isChunkPage_iff.1 hp) hret
  refine ⟨_, hm.listAt_pool hp.pool, ?_, fun i' hi' hne => ?_⟩
  · rw [hm₁.listAt_pool hp.pool, hlist]
    simp only [hm.rep.addrToPageIdx_eq]
  · rw [hm₁.listAt_pool hi', hm.listAt_pool hi', hother i' hne]

/-- **Chunk pages in memory**, after any calls with any arguments and any stores, if `frame_array`,
`free_area` and `g_pools` overlap neither each other nor a page that is not `RESERVED`. The
reference count of a chunk page is the number of its chunks that are held and at least one, every
other chunk of it is on the list of its pool once, and the lists have no other nodes. A call of
`free` that returns a page removes exactly the chunks of this page. -/
theorem chunkPages_sound (hg : Started g) (hreal : RealRange g) (hs : Separate g (NotReserved g m))
    (ops : List CallOp) : ∃ h, callRun g ⟨allocatorInit g m, []⟩ ops = some h ∧
      ChunkPagesSound g h.mem (pointers h.held) ∧ ∀ ptr, SweepsPage g h.mem ptr := by
  obtain ⟨h, heq, hh⟩ := (hg.callInv hreal hs).run hs ops
  exact ⟨h, heq, hh.chunkPagesSound, hh.sweepsPage hs⟩

/-- Without a device tree. -/
theorem chunkPages_sound_default : ∃ h, callRun defaultGlobals
    ⟨allocatorInit defaultGlobals (markedMemory defaultGlobals defaultTable ⟨fun _ => 0⟩), []⟩
    [.allocate 100, .allocate 100, .free 0xffffffc081028f80] = some h ∧
      ChunkPagesSound defaultGlobals h.mem (pointers h.held) := by
  obtain ⟨h, heq, hsound, -⟩ := chunkPages_sound default_boots.started ⟨by decide, by decide⟩
    (default_boots.separate (default_framesReserved ⟨fun _ => 0⟩))
    [.allocate 100, .allocate 100, .free 0xffffffc081028f80]
  exact ⟨h, heq, hsound⟩

/-- After the boot with a full table and these allocations, the count of page 25 is part of a
pointer. -/
theorem cramped_chunkPage : (callRun crampedGlobals ⟨allocatorInit crampedGlobals crampedMemory, []⟩
    crampedChunks).map (fun h => (get crampedGlobals h.mem (.state 25),
      get crampedGlobals h.mem (.metaPoolIdx 25), get crampedGlobals h.mem (.refCount 25))) =
        some (stateCode .allocChunkPool, 0, 0xffffffc0) := by
  decide +kernel

/-- When the table is full, a chunk overwrites the data of a chunk page. -/
theorem not_chunkPages_sound : ¬ ∀ (board : Board) (image : Boot.Image) (fdt : Option Boot.Blob)
    (b₀ : Buddy) (g : Globals) (rgns : List Boot.Region) (m : Mem),
    Boots board image fdt b₀ g rgns → RealRange g → ∀ ops,
      ∃ h, callRun g ⟨allocatorInit g (markedMemory g rgns m), []⟩ ops = some h ∧
        ChunkPagesSound g h.mem (pointers h.held) := by
  intro hall
  obtain ⟨h, heq, hsound⟩ := hall _ _ _ _ _ _ ⟨fun _ => 0⟩ cramped_boots ⟨by decide, by decide⟩
    crampedChunks
  have heq' : callRun crampedGlobals ⟨allocatorInit crampedGlobals crampedMemory, []⟩
    crampedChunks = some h := heq
  have hpage := cramped_chunkPage
  rw [heq', Option.map_some, Option.some_inj, Prod.mk.injEq, Prod.mk.injEq] at hpage
  have hcount := hsound.refCount 0 25 ⟨by decide, by decide, hpage.1, hpage.2.1⟩
  -- the page has 256 chunks
  have hle := Finset.card_filter_le (Finset.range (pageSize / gPoolSizes 0))
    fun c => chunkOf crampedGlobals 0 25 c ∈ pointers h.held
  rw [← hcount, hpage.2.2, Finset.card_range] at hle
  exact absurd hle (by decide)

end BareMetalOS.Heap
