import BareMetalOS.Memory.AnyCalls

/-!
# The pages of the chunk pools

What the allocator keeps for a page that it has cut into chunks, against the chunks that its callers
hold. The reference count of the page is the number of these chunks, every other chunk of the page
is on the free list of its pool once, and the free list has nothing else
(`ChunkHistoryInv.chunkPagesSound`). When `free` returns a page, exactly the chunks of this page
leave the free list (`freeList_of_returned`).
-/

namespace BareMetalOS.Memory

variable {b : Buddy} {s s' : Allocator} {i i' idx c n size : ℕ} {p ptr a : Addr}

/-! ## What the callers hold -/

/-- The allocator, with the chunks that its callers hold. -/
structure ChunkHistory where
  alloc : Allocator
  live : List Addr

/-- The page `idx` is cut into chunks of the pool `i`. -/
structure IsChunkPage (s : Allocator) (i idx : ℕ) : Prop where
  pool : i < chunkPoolCount
  lt : idx < s.buddy.memTotalPage
  state : (s.buddy.frameArray idx).state = .allocChunkPool
  poolIdx : (s.buddy.frameArray idx).metaPoolIdx = i

/-- What a chunk page says of the chunks that are held. -/
structure ChunkPagesSound (h : ChunkHistory) : Prop where
  refCount : ∀ i idx, IsChunkPage h.alloc i idx → (h.alloc.buddy.frameArray idx).refCount =
    (((Finset.range (pageSize / gPoolSizes i)).filter
      fun c => chunkAddr h.alloc.buddy i idx c ∈ h.live).card : ℤ)
  used : ∀ i idx, IsChunkPage h.alloc i idx → 1 ≤ (h.alloc.buddy.frameArray idx).refCount
  free : ∀ i idx c, IsChunkPage h.alloc i idx → c < pageSize / gPoolSizes i →
    chunkAddr h.alloc.buddy i idx c ∉ h.live →
    (h.alloc.gPools i).freeList.count (chunkAddr h.alloc.buddy i idx c) = 1
  nothingElse : ∀ i < chunkPoolCount, ∀ a ∈ (h.alloc.gPools i).freeList, a ∉ h.live ∧
    ∃ idx c, IsChunkPage h.alloc i idx ∧ c < pageSize / gPoolSizes i ∧
      a = chunkAddr h.alloc.buddy i idx c

/-- The chunks that are held are the live ones. -/
structure ChunkHistoryInv (h : ChunkHistory) : Prop where
  inv : AllocInv h.alloc
  real : RealPool h.alloc.buddy
  used : ChunkPagesUsed h.alloc
  nodup : h.live.Nodup
  mem_iff : ∀ p, p ∈ h.live ↔ ∃ n < pageSize, Live h.alloc p n

/-! ## Live blocks -/

theorem blockBytes_lt (hsize : size ≤ 2048) : blockBytes size < pageSize := by
  obtain ⟨i, hi, hbytes, -⟩ := blockBytes_small hsize
  rw [hbytes]
  exact gPoolSizes_lt hi

theorem pageSize_le_blockBytes (hsize : 2048 < size) : pageSize ≤ blockBytes size := by
  rw [blockBytes_of_large hsize]
  exact Nat.le_mul_of_pos_left _ (Nat.two_pow_pos _)

/-- A page of one pool is a page of no other. -/
theorem IsChunkPage.unique (h : IsChunkPage s i idx) (h' : IsChunkPage s i' idx) : i = i' := by
  have := h.poolIdx.symm.trans h'.poolIdx
  exact_mod_cast this

/-- `page_inc_ref` makes no block and ends none. -/
theorem live_pageIncRef (h : AllocInv s) : Live (pageIncRef s ptr) p n ↔ Live s p n := by
  have hk := pageIncRef_spec h ptr
  refine ⟨fun hl => ?_, hk.live p n (by simp)⟩
  by_cases hin : InPool s.buddy ptr
  · refine hl.congr hk.inv hk.pool.symm (fun j _ => ?_) fun i hi => ?_
    · rw [pageIncRef, if_neg (not_not.2 hin)]
      rcases eq_or_ne j (addrToPageIdx s.buddy ptr) with rfl | hne
      · rw [Buddy.setFrame_self]
        exact ⟨⟨by rw [Buddy.setFrame_self], by rw [Buddy.setFrame_self]⟩, rfl⟩
      · rw [Buddy.setFrame_of_ne _ _ hne]
        exact ⟨⟨by rw [Buddy.setFrame_of_ne _ _ hne], by rw [Buddy.setFrame_of_ne _ _ hne]⟩, rfl⟩
    · rw [pageIncRef, if_neg (not_not.2 hin)]
      exact hi
  · rwa [pageIncRef, if_pos hin] at hl

/-- `page_inc_ref` of an address in the first page of a block adds a reference to it. -/
theorem blocks_pageIncRef_of_head (h : AllocInv s) (hin : InPool s.buddy ptr)
    (hst : (s.buddy.frameArray (addrToPageIdx s.buddy ptr)).state = .allocPageHead) {r : ℤ}
    (hb : blocks s (pageToAddr s.buddy (addrToPageIdx s.buddy ptr)) = some (n, r)) :
    blocks (pageIncRef s ptr) = Function.update (blocks s)
      (pageToAddr s.buddy (addrToPageIdx s.buddy ptr)) (some (n, r + 1)) := by
  have hlt := hin.idx_lt h.pool
  have hcow := h.cow _ hlt hst
  obtain ⟨-, hrefs⟩ := (blocks_eq_some h).1 hb
  rw [refs, addrToPageIdx_pageToAddr h.pool hlt, if_pos hst] at hrefs
  rw [pageIncRef, if_neg (not_not.2 hin)]
  simp only [hrefs]
  exact blocks_setCow h hlt hst hb (by omega)

/-- `page_inc_ref` of any other address changes no block. -/
theorem blocks_pageIncRef_of_ne_head (h : AllocInv s)
    (hst : (s.buddy.frameArray (addrToPageIdx s.buddy ptr)).state ≠ .allocPageHead) :
    blocks (pageIncRef s ptr) = blocks s := by
  have hk := pageIncRef_spec h ptr
  have hrefs : ∀ q, refs (pageIncRef s ptr) q = refs s q := by
    intro q
    rw [pageIncRef]
    split_ifs
    · by_cases hq : addrToPageIdx s.buddy q = addrToPageIdx s.buddy ptr
      · rw [refs, refs, (samePool_setFrame s.buddy _ _).addrToPageIdx_eq, hq, Buddy.setFrame_self,
          if_neg hst, if_neg hst]
      · rw [refs, refs, (samePool_setFrame s.buddy _ _).addrToPageIdx_eq,
          Buddy.setFrame_of_ne _ _ hq]
    · rfl
  refine funext fun q => Option.ext fun nr => ?_
  obtain ⟨k, r⟩ := nr
  rw [blocks_eq_some hk.inv, blocks_eq_some h, live_pageIncRef h, hrefs]

/-! ## Runs -/

/-- An operation that keeps the blocks keeps the chunk pages in use, if it makes none. -/
theorem ChunkPagesUsed.congr (hu : ChunkPagesUsed s) (hpool : SamePool s.buddy s'.buddy)
    (hlive : ∀ p n, Live s p n → Live s' p n)
    (hchunk : ∀ j, (s'.buddy.frameArray j).state = .allocChunkPool →
      (s.buddy.frameArray j).state = .allocChunkPool) : ChunkPagesUsed s' := by
  intro j hj hst
  rw [hpool.total] at hj
  obtain ⟨p, hp, hb⟩ := hu j hj (hchunk j hst)
  refine ⟨p, (hpool.addrToPageIdx_eq p).trans hp, fun hnone => hb ?_⟩
  rw [blocks_eq_none] at hnone ⊢
  exact fun n hl => hnone n (hlive p n hl)

theorem pageIncRef_used (h : AllocInv s) (hu : ChunkPagesUsed s) (ptr : Addr) :
    ChunkPagesUsed (pageIncRef s ptr) := by
  have hk := pageIncRef_spec h ptr
  refine hu.congr hk.pool (fun p n => hk.live p n (by simp)) fun j hst => ?_
  rw [pageIncRef] at hst
  split_ifs at hst with hin
  · rcases eq_or_ne j (addrToPageIdx s.buddy ptr) with rfl | hne
    · rwa [Buddy.setFrame_self] at hst
    · rwa [Buddy.setFrame_of_ne _ _ hne] at hst
  · exact hst

/-! ## The pages -/

namespace ChunkHistoryInv

variable {h : ChunkHistory}

/-- A chunk is held if and only if it is not on the free list. -/
theorem mem_live_iff (hh : ChunkHistoryInv h) (hp : IsChunkPage h.alloc i idx)
    (hc : c < pageSize / gPoolSizes i) : chunkAddr h.alloc.buddy i idx c ∈ h.live ↔
      chunkAddr h.alloc.buddy i idx c ∉ (h.alloc.gPools i).freeList := by
  rw [hh.mem_iff]
  constructor
  · rintro ⟨n, -, hl⟩ hmem
    exact hh.inv.not_live_of_mem hp.pool hmem n hl
  · intro hfree
    exact ⟨gPoolSizes i, gPoolSizes_lt hp.pool, .chunk hp.pool hp.lt hp.state hp.poolIdx hc hfree⟩

theorem refCount_eq (hh : ChunkHistoryInv h) (hp : IsChunkPage h.alloc i idx) :
    (h.alloc.buddy.frameArray idx).refCount =
      (((Finset.range (pageSize / gPoolSizes i)).filter
        fun c => chunkAddr h.alloc.buddy i idx c ∈ h.live).card : ℤ) := by
  obtain ⟨i', hi', hm, hcard⟩ := hh.inv.chunkPage idx hp.lt hp.state
  obtain rfl : i = i' := hp.unique ⟨hi', hp.lt, hp.state, hm⟩
  rw [hcard, liveChunks]
  congr 2
  apply Finset.filter_congr
  intro c hc
  exact (hh.mem_live_iff hp (Finset.mem_range.1 hc)).symm

/-- A chunk page that is kept has a chunk that is held. -/
theorem one_le_refCount (hh : ChunkHistoryInv h) (hp : IsChunkPage h.alloc i idx) :
    1 ≤ (h.alloc.buddy.frameArray idx).refCount := by
  obtain ⟨p, hpage, hb⟩ := hh.used idx hp.lt hp.state
  obtain ⟨⟨n, r⟩, hb⟩ := Option.ne_none_iff_exists'.1 hb
  have hl := ((blocks_eq_some hh.inv).1 hb).1
  obtain ⟨i', hi', hm, hcard⟩ := hh.inv.chunkPage idx hp.lt hp.state
  cases hl with
  | page hlt hst ho =>
    rw [addrToPageIdx_pageToAddr hh.inv.pool hlt] at hpage
    rw [hpage, hp.state] at hst
    cases hst
  | @chunk j idx' c hi hlt hst hm' hc hfree =>
    rw [addrToPageIdx_chunkAddr hh.inv.pool hlt hi hc] at hpage
    subst hpage
    obtain rfl : j = i' := by
      rw [hm'] at hm
      exact_mod_cast hm
    have hmem : c ∈ liveChunks h.alloc j idx' := by
      rw [liveChunks, Finset.mem_filter, Finset.mem_range]
      exact ⟨hc, hfree⟩
    have hpos := Finset.card_pos.2 ⟨c, hmem⟩
    rw [hcard]
    exact_mod_cast hpos

theorem chunkPagesSound (hh : ChunkHistoryInv h) : ChunkPagesSound h where
  refCount _ _ hp := hh.refCount_eq hp
  used _ _ hp := hh.one_le_refCount hp
  free i idx c hp hc hnot := by
    apply List.count_eq_one_of_mem (hh.inv.nodup i hp.pool)
    rw [hh.mem_live_iff hp hc, not_not] at hnot
    exact hnot
  nothingElse i hi a ha := by
    constructor
    · rw [hh.mem_iff]
      rintro ⟨n, -, hl⟩
      exact hh.inv.not_live_of_mem hi ha n hl
    · obtain ⟨idx, c, hlt, hst, hm, hc, hac⟩ := hh.inv.freeList i hi a ha
      exact ⟨idx, c, ⟨hi, hlt, hst, hm⟩, hc, hac⟩

end ChunkHistoryInv

/-- A change of use that keeps a page cut into chunks. -/
theorem SameUse.chunk_right {f f' : Frame} (h : SameUse f f') (hst : f.state = .allocChunkPool) :
    f'.state = .allocChunkPool := by
  rcases h with ⟨h₁, -⟩ | ⟨hu, -⟩
  · exact h₁.trans hst
  · exact absurd (.inr hst) hu

/-- **The sweep.** When `free` returns a chunk page, exactly the chunks of this page leave the free
list of their pool, and the free lists stay as they are otherwise. -/
theorem freeList_of_returned (h : AllocInv s) (hr : RealPool s.buddy) (hp : IsChunkPage s i idx)
    (hret : ((free s ptr).buddy.frameArray idx).state ≠ .allocChunkPool) :
    ((free s ptr).gPools i).freeList =
        (s.gPools i).freeList.filter (fun a => addrToPageIdx s.buddy a ≠ idx) ∧
      ∀ i', i' ≠ i → (free s ptr).gPools i' = s.gPools i' := by
  cases hb : blocks s ptr with
  | none =>
    rw [free_of_not_live h (blocks_eq_none.1 hb)] at hret
    exact absurd hp.state hret
  | some nr =>
    obtain ⟨n, r⟩ := nr
    have hl := ((blocks_eq_some h).1 hb).1
    rw [free_of_live h hr hl] at hret ⊢
    cases hl with
    | @page j k hlt hst ho =>
      -- a block of pages leaves the chunk pages alone
      rw [addrToPageIdx_pageToAddr h.pool hlt, hst, if_neg (by simp)] at hret
      have hne : idx ≠ j := by
        rintro rfl
        rw [hp.state] at hst
        cases hst
      refine absurd ?_ hret
      by_cases hcow : (s.buddy.frameArray j).cowRefCount = 1
      · obtain ⟨b', heq, -, hsame⟩ := freePage_last h hr hlt hst hcow
        rw [heq]
        exact (hsame idx hne).chunk_right hp.state
      · rw [freePage_shared h hr hlt hcow]
        simp only [Buddy.setFrame_of_ne _ _ hne]
        exact hp.state
    | @chunk j idx' c hj hlt hst hm hc hfree =>
      have hidx := addrToPageIdx_chunkAddr h.pool hlt hj hc
      have hl : Live s (chunkAddr s.buddy j idx' c) (gPoolSizes j) := .chunk hj hlt hst hm hc hfree
      have hpush : ∀ q, ((pushed s j idx' (chunkAddr s.buddy j idx' c)).buddy.frameArray q).state =
          (s.buddy.frameArray q).state := by
        intro q
        rw [pushed]
        rcases eq_or_ne q idx' with rfl | hne
        · rw [Buddy.setFrame_self]
        · rw [Buddy.setFrame_of_ne _ _ hne]
      rw [hidx, if_pos hst, freeChunk_eq h hr hj hlt hm hc hfree (hl.inPool h hr).1] at hret ⊢
      split_ifs at hret ⊢ with hz
      · have hupd := chunkUpdate_push h hj hlt hst hm hc hfree
        have hinv : AllocInv (pushed s j idx' (chunkAddr s.buddy j idx' c)) := h.update hupd
        have hreal := hr.of_samePool hupd.pool
        obtain ⟨k, hM, hfd⟩ := returnPage_freed hinv hreal.fits hlt ((hpush idx').trans hst)
        obtain rfl : idx = idx' := by
          by_contra hne
          apply hret
          have hsame := hfd.sameUse hM hne
          rw [Buddy.setFrame_of_ne _ _ hne] at hsame
          exact hsame.chunk_right ((hpush idx).trans hp.state)
        obtain rfl : i = j := hp.unique ⟨hj, hlt, hst, hm⟩
        constructor
        · simp only [returnPage, Allocator.setFreeList_self, pushed]
          rw [List.filter_cons]
          have hself := (mem_page_iff hr.fits hlt hlt hj hc).2 rfl
          rw [if_neg (by simpa using hself)]
          apply List.filter_congr
          intro a ha
          obtain ⟨j', c', hlt', -, -, hc', rfl⟩ := h.freeList i hj a ha
          rw [addrToPageIdx_chunkAddr h.pool hlt' hj hc']
          have hiff := mem_page_iff hr.fits hlt hlt' hj hc'
          simp only [hiff, ne_eq]
        · intro i' hi'
          simp only [returnPage, pushed, Allocator.setFreeList, Function.update_of_ne hi']
      · exact absurd ((hpush idx).trans hp.state) hret

end BareMetalOS.Memory
