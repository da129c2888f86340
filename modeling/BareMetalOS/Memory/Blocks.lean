import BareMetalOS.Memory.AllocatorRuns

/-!
# The allocator as a map of blocks

What `allocate` and `free` are for: the allocator holds a partial map from addresses to blocks, each
with its size and its number of references. `blocks` reads this map off the state, and the
operations are exact updates of it: `allocate_blocks`, `free_blocks` and `pageIncRef_blocks`.
`get_page_ref` reads it (`getPageRef_eq`).

The pool has to be a range of addresses (`RealPool`): it does not wrap past `2 ^ 64`, and `NULL` is
not in it. `startup_alloc` assumes that physical addresses are within the first 128 GB, which gives
this (`realPool_buddySetRegion`).
-/

namespace BareMetalOS.Memory

variable {b b' : Buddy} {s s' : Allocator} {i i' j idx c k n size : ℕ} {p q ptr : Addr}
  {f f' : Frame} {l : List Addr} {r : ℤ}

/-- The pool is a range of addresses without `NULL`. -/
structure RealPool (b : Buddy) : Prop where
  start : b.mempoolStart ≠ 0
  fits : b.mempoolStart.toNat + b.memTotalPage * pageSize < 2 ^ 64

theorem RealPool.of_samePool (h : RealPool b) (hp : SamePool b b') : RealPool b' :=
  ⟨by rw [hp.start]; exact h.start, by rw [hp.start, hp.total]; exact h.fits⟩

theorem RealPool.pageToAddr_ne_zero (h : RealPool b) (hlt : idx < b.memTotalPage) :
    pageToAddr b idx ≠ 0 := by
  intro h0
  have h₁ := toNat_pageToAddr h.fits hlt
  have h₂ : b.mempoolStart.toNat ≠ 0 := fun h' => h.start (BitVec.eq_of_toNat_eq h')
  rw [h0, show (0 : Addr).toNat = 0 from rfl] at h₁
  omega

/-- A region as `startup_alloc` hands it on, below the last two gigabytes of the address space,
gives a pool that is a range of addresses. -/
theorem realPool_buddySetRegion (board : Board) (s : Buddy) {start : Addr} (size : Addr)
    (h₀ : start ≠ 0) (h : start.toNat + 2 ^ 31 + pageSize < 2 ^ 64) :
    RealPool (buddySetRegion board s start size) := by
  have hal := alignedPool_buddySetRegion board s start size
  have hsize := hal.total
  have hpos : 0 < start.toNat := Nat.pos_of_ne_zero fun h' => h₀ (BitVec.eq_of_toNat_eq h')
  have hstart : 0 < (buddySetRegion board s start size).mempoolStart.toNat ∧
      (buddySetRegion board s start size).mempoolStart.toNat ≤
        max (start.toNat + 4095) (2 ^ 32) := by
    have hdef : 0 < board.buddyDefaultPoolStart.toNat ∧
        board.buddyDefaultPoolStart.toNat ≤ 2 ^ 32 := by
      cases board <;> decide
    have hup := toNat_alignUpUl_page start
    rw [BitVec.toNat_add, show (4095 : Addr).toNat = 4095 from rfl,
      Nat.mod_eq_of_lt (by simp only [pageSize] at h; omega)] at hup
    simp only [buddySetRegion, setPool]
    split_ifs <;> simp only [le_max_iff] <;> omega
  refine ⟨fun h0 => ?_, ?_⟩
  · rw [h0, show (0 : Addr).toNat = 0 from rfl] at hstart
    omega
  · simp only [pageSize, buddyTotalPages] at *
    omega

/-! ## The map -/

/-- The number of references to the block at `p`: the copy-on-write count of a block of pages, and
one for a chunk. -/
def refs (s : Allocator) (p : Addr) : ℤ :=
  if (s.buddy.frameArray (addrToPageIdx s.buddy p)).state = .allocPageHead then
    (s.buddy.frameArray (addrToPageIdx s.buddy p)).cowRefCount
  else 1

open Classical in
/-- The block at an address, with its number of bytes and of references. -/
noncomputable def blocks (s : Allocator) (p : Addr) : Option (ℕ × ℤ) :=
  if h : ∃ n, Live s p n then some (h.choose, refs s p) else none

theorem Live.unique (h : AllocInv s) (hl : Live s p n) {n' : ℕ} (hl' : Live s p n') : n = n' := by
  obtain ⟨o, hp, hn, ho, idx, hc⟩ := hl.offset h
  obtain ⟨o', hp', hn', ho', idx', hc'⟩ := hl'.offset h
  have htotal := h.pool.total
  obtain rfl : o = o' := by
    rw [hp] at hp'
    refine (add_ofNat_inj ?_ ?_).1 hp'
    all_goals
      simp only [pageSize, buddyTotalPages] at *
      omega
  exact ((hc o le_rfl (by omega)).unique (hc' o le_rfl (by omega))).2

theorem blocks_eq_some (h : AllocInv s) : blocks s p = some (n, r) ↔ Live s p n ∧ refs s p = r := by
  unfold blocks
  split_ifs with hex
  · rw [Option.some_inj, Prod.mk.injEq]
    refine and_congr_left fun _ => ⟨fun heq => heq ▸ hex.choose_spec, fun hl => ?_⟩
    exact hex.choose_spec.unique h hl
  · exact iff_of_false (by simp) fun hl => hex ⟨n, hl.1⟩

theorem blocks_eq_none : blocks s p = none ↔ ∀ n, ¬ Live s p n := by
  unfold blocks
  split_ifs with hex
  · exact iff_of_false (by simp) fun h => hex.elim h
  · exact iff_of_true rfl fun n hl => hex ⟨n, hl⟩

/-! ## Where nothing changes -/

/-- The frame is the first of an allocated block, or that of a chunk page. -/
def Frame.IsUsed (f : Frame) : Prop := f.state = .allocPageHead ∨ f.state = .allocChunkPool

/-- Two frames mean the same for the blocks of their page. -/
def SameUse (f f' : Frame) : Prop :=
  f'.state = f.state ∧ f'.order = f.order ∧ f'.metaPoolIdx = f.metaPoolIdx ∧
    f'.cowRefCount = f.cowRefCount ∨ ¬ f.IsUsed ∧ ¬ f'.IsUsed

theorem SameUse.refl (f : Frame) : SameUse f f := .inl ⟨rfl, rfl, rfl, rfl⟩

theorem SameUse.symm (h : SameUse f f') : SameUse f' f :=
  h.imp (fun ⟨h₁, h₂, h₃, h₄⟩ => ⟨h₁.symm, h₂.symm, h₃.symm, h₄.symm⟩) And.symm

theorem SamePool.symm (h : SamePool b b') : SamePool b' b :=
  ⟨h.start.symm, h.size.symm, h.total.symm, h.ready.symm⟩

theorem SamePool.addrToPageIdx_eq (h : SamePool b b') (p : Addr) :
    addrToPageIdx b' p = addrToPageIdx b p := by
  rw [addrToPageIdx, addrToPageIdx, h.start]

theorem Live.isUsed (h : AllocInv s) (hl : Live s p n) :
    (s.buddy.frameArray (addrToPageIdx s.buddy p)).IsUsed :=
  (hl.pageIdx h).2

theorem blocks_eq_none_of_not_isUsed (h : AllocInv s)
    (hf : ¬ (s.buddy.frameArray (addrToPageIdx s.buddy p)).IsUsed) : blocks s p = none :=
  blocks_eq_none.2 fun _ hl => hf (hl.isUsed h)

theorem live_of_sameUse (h : AllocInv s) (hpool : SamePool s.buddy s'.buddy)
    (hf : SameUse (s.buddy.frameArray (addrToPageIdx s.buddy p))
      (s'.buddy.frameArray (addrToPageIdx s.buddy p)))
    (hlist : ∀ i, p ∈ (s'.gPools i).freeList → p ∈ (s.gPools i).freeList) (hl : Live s p n) :
    Live s' p n := by
  rcases hf with ⟨h₁, h₂, h₃, -⟩ | ⟨hu, -⟩
  · refine hl.congr h hpool (fun j hj => ?_) hlist
    subst hj
    exact ⟨⟨h₁, h₂⟩, h₃⟩
  · exact absurd (hl.isUsed h) hu

/-- The block at `p` depends on the frame of its page and on `p` being on the free lists. -/
theorem blocks_congr (h : AllocInv s) (h' : AllocInv s') (hpool : SamePool s.buddy s'.buddy)
    (hf : SameUse (s.buddy.frameArray (addrToPageIdx s.buddy p))
      (s'.buddy.frameArray (addrToPageIdx s.buddy p)))
    (hlist : ∀ i, p ∈ (s'.gPools i).freeList ↔ p ∈ (s.gPools i).freeList) :
    blocks s' p = blocks s p := by
  have hidx := hpool.addrToPageIdx_eq p
  have hback : ∀ n, Live s' p n → Live s p n := fun n =>
    live_of_sameUse h' hpool.symm (by rw [hidx]; exact hf.symm) fun i => (hlist i).2
  refine Option.ext fun ⟨n, r⟩ => ?_
  rw [blocks_eq_some h', blocks_eq_some h]
  rcases hf with hsame | ⟨hu, hu'⟩
  · have hrefs : refs s' p = refs s p := by
      rw [refs, refs, hidx, hsame.1, hsame.2.2.2]
    rw [hrefs]
    refine and_congr_left fun _ => ⟨hback n, ?_⟩
    exact live_of_sameUse h hpool (.inl hsame) fun i => (hlist i).1
  · refine iff_of_false (fun hl => ?_) fun hl => hu (hl.1.isUsed h)
    exact hu (hback n hl.1 |>.isUsed h)

/-- A change of the buddy system that concerns the blocks of one page only. -/
theorem blocks_setBuddy (h : AllocInv s) (h' : AllocInv { s with buddy := b' })
    (hpool : SamePool s.buddy b')
    (hf : SameUse (s.buddy.frameArray (addrToPageIdx s.buddy p))
      (b'.frameArray (addrToPageIdx s.buddy p))) :
    blocks { s with buddy := b' } p = blocks s p :=
  blocks_congr h h' hpool hf fun _ => Iff.rfl

/-! ## Blocks of pages -/

theorem Frame.IsFree.not_isUsed (h : f.IsFree) : ¬ f.IsUsed := by
  obtain ⟨h₁, h₂, -⟩ := h.ne
  exact not_or.2 ⟨h₁, h₂⟩

theorem Frame.not_isUsed_of_tail (h : f.state = .allocPageTail) : ¬ f.IsUsed := by
  simp [IsUsed, h]

/-- `buddy_alloc_pages` changes the use of one page. -/
theorem Allocated.sameUse (ha : Allocated b b' idx k) (hj : j ≠ idx) :
    SameUse (b.frameArray j) (b'.frameArray j) := by
  by_cases hin : idx ≤ j ∧ j < idx + 2 ^ k
  · exact .inr ⟨(ha.was_free j hin.1 hin.2).not_isUsed,
      Frame.not_isUsed_of_tail (ha.marked.tail j (by omega) hin.2)⟩
  · rcases ha.outside j (by omega) with heq | ⟨h₁, h₂, -⟩
    · rw [heq]
      exact .refl _
    · exact .inr ⟨h₁.not_isUsed, h₂.not_isUsed⟩

/-- So does `buddy_free_pages`. -/
theorem Freed.sameUse (hf : Freed b b' idx k)
    (hM : Marked b.frameArray .allocPageHead .allocPageTail idx k) (hj : j ≠ idx) :
    SameUse (b.frameArray j) (b'.frameArray j) := by
  by_cases hin : idx ≤ j ∧ j < idx + 2 ^ k
  · exact .inr ⟨Frame.not_isUsed_of_tail (hM.tail j (by omega) hin.2),
      (hf.free j hin.1 hin.2).not_isUsed⟩
  · rcases hf.outside j (by omega) with heq | ⟨h₁, h₂⟩
    · rw [heq]
      exact .refl _
    · exact .inr ⟨h₁.not_isUsed, h₂.not_isUsed⟩

/-- A live block whose page is the head of a block of pages is that block. -/
theorem Live.eq_pageToAddr (h : AllocInv s) (hl : Live s p n)
    (hst : (s.buddy.frameArray (addrToPageIdx s.buddy p)).state = .allocPageHead) :
    p = pageToAddr s.buddy (addrToPageIdx s.buddy p) := by
  cases hl with
  | page hlt hst' ho => rw [addrToPageIdx_pageToAddr h.pool hlt]
  | chunk hi hlt hst' hm hc hfree =>
    rw [addrToPageIdx_chunkAddr h.pool hlt hi hc, hst'] at hst
    cases hst

theorem Allocated.blocks_eq (ha : Allocated s.buddy b' idx k) (h : AllocInv s) :
    blocks s (pageToAddr s.buddy idx) = none ∧
      blocks { s with buddy := b' } =
        Function.update (blocks s) (pageToAddr s.buddy idx) (some (2 ^ k * pageSize, 1)) := by
  have h' := (ha.keeps h).inv
  refine ⟨blocks_eq_none.2 (ha.alloc_not_live h), funext fun p => ?_⟩
  by_cases hp : p = pageToAddr s.buddy idx
  · subst hp
    rw [Function.update_self, blocks_eq_some h']
    constructor
    · rw [← ha.pool.pageToAddr_eq]
      exact .page (s := { s with buddy := b' }) (by rw [ha.pool.total]; exact ha.lt) ha.marked.head
        ha.marked.order
    · rw [refs, ha.pool.addrToPageIdx_eq, addrToPageIdx_pageToAddr h.pool ha.lt, ha.marked.head,
        if_pos rfl, ha.cow]
  · rw [Function.update_of_ne hp]
    by_cases hidx : addrToPageIdx s.buddy p = idx
    · -- another address of the new page
      have hnone : blocks s p = none := by
        refine blocks_eq_none_of_not_isUsed h ?_
        rw [hidx]
        exact ha.idx_free.not_isUsed
      rw [hnone, blocks_eq_none]
      intro n hl
      refine hp ((hl.eq_pageToAddr h' ?_).trans ?_)
      · rw [ha.pool.addrToPageIdx_eq, hidx]
        exact ha.marked.head
      · rw [ha.pool.addrToPageIdx_eq, ha.pool.pageToAddr_eq, hidx]
    · exact blocks_setBuddy h h' ha.pool (ha.sameUse hidx)

/-- A store to the copy-on-write count of a block of pages. -/
theorem blocks_setCow (h : AllocInv s) (hlt : idx < s.buddy.memTotalPage)
    (hst : (s.buddy.frameArray idx).state = .allocPageHead)
    (hb : blocks s (pageToAddr s.buddy idx) = some (n, r)) {v : ℤ} (hv : 1 ≤ v) :
    blocks { s with
        buddy := s.buddy.setFrame idx { s.buddy.frameArray idx with cowRefCount := v } } =
      Function.update (blocks s) (pageToAddr s.buddy idx) (some (n, v)) := by
  have hk : Keeps s { s with
      buddy := s.buddy.setFrame idx { s.buddy.frameArray idx with cowRefCount := v } } none :=
    keeps_setCow h none fun _ => hv
  refine funext fun p => ?_
  by_cases hp : p = pageToAddr s.buddy idx
  · subst hp
    rw [Function.update_self, blocks_eq_some hk.inv]
    refine ⟨hk.live _ n (by simp) ((blocks_eq_some h).1 hb).1, ?_⟩
    rw [refs, hk.pool.addrToPageIdx_eq, addrToPageIdx_pageToAddr h.pool hlt, Buddy.setFrame_self,
      if_pos hst]
  · rw [Function.update_of_ne hp]
    by_cases hidx : addrToPageIdx s.buddy p = idx
    · -- another address of the page
      have hnone : ∀ {t : Allocator}, AllocInv t → SamePool s.buddy t.buddy →
          (t.buddy.frameArray idx).state = .allocPageHead → blocks t p = none := by
        intro t ht hpool hhead
        refine blocks_eq_none.2 fun n' hl => hp ((hl.eq_pageToAddr ht ?_).trans ?_)
        · rw [hpool.addrToPageIdx_eq, hidx]
          exact hhead
        · rw [hpool.addrToPageIdx_eq, hpool.pageToAddr_eq, hidx]
      rw [hnone hk.inv hk.pool (by rw [Buddy.setFrame_self]; exact hst), hnone h (.refl _) hst]
    · refine blocks_setBuddy h hk.inv hk.pool ?_
      rw [Buddy.setFrame_of_ne _ _ hidx]
      exact .refl _

/-! ## Chunks -/

theorem sameUse_setRefCount (b : Buddy) (idx j : ℕ) (v : ℤ) : SameUse (b.frameArray j)
    ((b.setFrame idx { b.frameArray idx with refCount := v }).frameArray j) := by
  by_cases hj : j = idx
  · subst hj
    rw [Buddy.setFrame_self]
    exact .inl ⟨rfl, rfl, rfl, rfl⟩
  · rw [Buddy.setFrame_of_ne _ _ hj]
    exact .refl _

theorem refs_of_chunk (h : (s.buddy.frameArray (addrToPageIdx s.buddy p)).state = .allocChunkPool) :
    refs s p = 1 := by
  rw [refs, h, if_neg (by simp)]

/-- A live block of less than a page is a chunk. -/
theorem Live.state_of_lt (h : AllocInv s) (hl : Live s p n) (hn : n < pageSize) :
    (s.buddy.frameArray (addrToPageIdx s.buddy p)).state = .allocChunkPool := by
  cases hl with
  | @page idx k hlt hst ho =>
    have := Nat.le_mul_of_pos_left pageSize (Nat.two_pow_pos k)
    omega
  | chunk hi hlt hst hm hc hfree =>
    rw [addrToPageIdx_chunkAddr h.pool hlt hi hc]
    exact hst

theorem gPoolSizes_lt (hi : i < chunkPoolCount) : gPoolSizes i < pageSize := by
  simp only [chunkPoolCount] at hi
  interval_cases i <;> decide

theorem popChunk_blocks (h : AllocInv s) (hi : i < chunkPoolCount)
    (hne : (s.gPools i).freeList ≠ []) :
    blocks (popChunk s i).2 =
      Function.update (blocks s) (popChunk s i).1 (some (gPoolSizes i, 1)) := by
  obtain ⟨hk, hl, -⟩ := popChunk_spec h hi hne
  refine funext fun p => ?_
  by_cases hp : p = (popChunk s i).1
  · subst hp
    rw [Function.update_self, blocks_eq_some hk.inv]
    exact ⟨hl, refs_of_chunk (hl.state_of_lt hk.inv (gPoolSizes_lt hi))⟩
  · rw [Function.update_of_ne hp]
    refine blocks_congr h hk.inv hk.pool (sameUse_setRefCount s.buddy _ _ _) fun i' => ?_
    by_cases hii : i' = i
    · subst hii
      obtain ⟨ck, l, hcl⟩ := List.exists_cons_of_ne_nil hne
      have hck : p ≠ ck := by
        intro heq
        refine hp (heq.trans ?_)
        simp [popChunk, hcl]
      simp [popChunk, hcl, hck]
    · simp only [popChunk, s.setFreeList_of_ne _ hii]

/-- A page with all its chunks on the free list has no blocks. -/
theorem blocks_eq_none_of_chunks (h : AllocInv s) (hlt : idx < s.buddy.memTotalPage)
    (hst : (s.buddy.frameArray idx).state = .allocChunkPool)
    (hm : (s.buddy.frameArray idx).metaPoolIdx = i)
    (hall : ∀ c < pageSize / gPoolSizes i, chunkAddr s.buddy i idx c ∈ (s.gPools i).freeList)
    (hp : addrToPageIdx s.buddy p = idx) : blocks s p = none := by
  refine blocks_eq_none.2 fun n hl => ?_
  cases hl with
  | page hlt' hst' ho' =>
    rw [addrToPageIdx_pageToAddr h.pool hlt'] at hp
    rw [hp, hst] at hst'
    cases hst'
  | @chunk i' idx' c hi' hlt' hst' hm' hc hfree =>
    rw [addrToPageIdx_chunkAddr h.pool hlt' hi' hc] at hp
    subst hp
    obtain rfl : i' = i := by exact_mod_cast hm'.symm.trans hm
    exact hfree (hall c hc)

/-- What a successful refill of an empty pool does. -/
structure Refilled (s s' : Allocator) (i idx : ℕ) (b₁ : Buddy) : Prop where
  alloc : Allocated s.buddy b₁ idx 0
  buddy : s'.buddy = b₁.setFrame idx { b₁.frameArray idx with
    state := .allocChunkPool, metaPoolIdx := i, order := 0, refCount := 0 }
  mem : ∀ a, a ∈ (s'.gPools i).freeList ↔
    ∃ c < pageSize / gPoolSizes i, a = chunkAddr s.buddy i idx c
  pools : ∀ i', i' ≠ i → s'.gPools i' = s.gPools i'

theorem expandChunkPool_cases (h : AllocInv s) (hr : RealPool s.buddy) (hi : i < chunkPoolCount)
    (hnil : (s.gPools i).freeList = []) :
    expandChunkPool s i = (false, s) ∨
      ∃ idx b₁, (expandChunkPool s i).1 = true ∧ Refilled s (expandChunkPool s i).2 i idx b₁ := by
  unfold expandChunkPool
  rcases buddyAllocPages_cases h.inv 0 with heq | ⟨idx, hp, ha⟩
  · rw [heq]
    exact .inl rfl
  · have hidx : addrToPageIdx (buddyAllocPages s.buddy 0).2 (buddyAllocPages s.buddy 0).1 =
        idx := by
      rw [hp, ha.pool.addrToPageIdx_eq]
      exact addrToPageIdx_pageToAddr h.pool ha.lt
    have h0 : (buddyAllocPages s.buddy 0).1 ≠ 0 := by
      rw [hp]
      exact hr.pageToAddr_ne_zero ha.lt
    simp only [if_neg h0, hidx, hnil, h.sizes i hi]
    refine .inr ⟨idx, _, trivial, ha, rfl, fun a => ?_, fun i' hii => ?_⟩
    · rw [Allocator.setFreeList_self, mem_pushChunks, or_iff_right List.not_mem_nil, hp]
      rfl
    · exact Allocator.setFreeList_of_ne _ _ hii

/-- The other pages keep their use. -/
theorem Refilled.sameUse {b₁ : Buddy} (hf : Refilled s s' i idx b₁) (hj : j ≠ idx) :
    SameUse (s.buddy.frameArray j) (s'.buddy.frameArray j) := by
  rw [hf.buddy, Buddy.setFrame_of_ne _ _ hj]
  exact hf.alloc.sameUse hj

theorem Refilled.blocks_eq {b₁ : Buddy} (hf : Refilled s s' i idx b₁) (h : AllocInv s)
    (h' : AllocInv s') (hi : i < chunkPoolCount) (hpool : SamePool s.buddy s'.buddy)
    (hnil : (s.gPools i).freeList = []) : blocks s' = blocks s := by
  refine funext fun p => ?_
  by_cases hp : addrToPageIdx s.buddy p = idx
  · have hnone : blocks s p = none := by
      refine blocks_eq_none_of_not_isUsed h ?_
      rw [hp]
      exact hf.alloc.idx_free.not_isUsed
    rw [hnone]
    refine blocks_eq_none_of_chunks h' (hpool.total ▸ hf.alloc.lt) ?_ (i := i) ?_
      (fun c hc => ?_) ?_
    · rw [hf.buddy, Buddy.setFrame_self]
    · rw [hf.buddy, Buddy.setFrame_self]
    · rw [hf.mem, hpool.chunkAddr_eq]
      exact ⟨c, hc, rfl⟩
    · rw [hpool.addrToPageIdx_eq, hp]
  · refine blocks_congr h h' hpool (hf.sameUse hp) fun i' => ?_
    by_cases hii : i' = i
    · subst hii
      rw [hf.mem, hnil]
      refine iff_of_false ?_ List.not_mem_nil
      rintro ⟨c, hc, rfl⟩
      exact hp (addrToPageIdx_chunkAddr h.pool hf.alloc.lt hi hc)
    · rw [hf.pools i' hii]

/-! ## `allocate` -/

theorem allocate_small (h : AllocInv s) (hsize : size ≤ 2048) (hpos : size ≠ 0) :
    ∃ i < chunkPoolCount, blockBytes size = gPoolSizes i ∧
      allocate s size =
        if (s.gPools i).freeList = [] then
          if (expandChunkPool s i).1 then popChunk (expandChunkPool s i).2 i
          else (0, (expandChunkPool s i).2)
        else popChunk s i := by
  obtain ⟨i, hi, hbytes, hle, hleast⟩ := blockBytes_small hsize
  refine ⟨i, hi, hbytes, ?_⟩
  have hfind : findPoolIndex s size = some i := by
    rw [findPoolIndex, List.find?_range_eq_some]
    refine ⟨by simpa [h.sizes i hi] using hle, List.mem_range.2 hi, fun j hj => ?_⟩
    have hj' : j < chunkPoolCount := hj.trans hi
    simpa [h.sizes j hj'] using hleast j hj
  unfold allocate
  have hmax : ¬ (size = 0 ∨ maxAllocSize < size) := by
    simp only [maxAllocSize]
    omega
  rw [if_neg (not_or.2 ⟨not_not.2 h.ready, hmax⟩), if_pos hsize, hfind]

/-- **`allocate` adds one block to the map, or fails and keeps it.** -/
theorem allocate_blocks (h : AllocInv s) (hr : RealPool s.buddy) (size : ℕ) :
    (allocate s size).1 = 0 ∧ blocks (allocate s size).2 = blocks s ∨
      (allocate s size).1 ≠ 0 ∧ blocks s (allocate s size).1 = none ∧
        blocks (allocate s size).2 =
          Function.update (blocks s) (allocate s size).1 (some (blockBytes size, 1)) := by
  by_cases hbad : ¬ s.ready ∨ size = 0 ∨ maxAllocSize < size
  · unfold allocate
    rw [if_pos hbad]
    exact .inl ⟨rfl, rfl⟩
  push Not at hbad
  by_cases hsize : size ≤ 2048
  · obtain ⟨i, hi, hbytes, heq⟩ := allocate_small h hsize hbad.2.1
    have hpop : ∀ {t : Allocator}, AllocInv t → blocks t = blocks s → RealPool t.buddy →
        (t.gPools i).freeList ≠ [] → (popChunk t i).1 ≠ 0 ∧ blocks s (popChunk t i).1 = none ∧
          blocks (popChunk t i).2 =
            Function.update (blocks s) (popChunk t i).1 (some (blockBytes size, 1)) := by
      intro t ht htb htr hne
      obtain ⟨hk, hl, hfresh⟩ := popChunk_spec ht hi hne
      refine ⟨fun h0 => ?_, ?_, ?_⟩
      · -- a live block is not at `NULL`
        obtain ⟨o, ho, hn, hend, -⟩ := hl.offset hk.inv
        have hreal := htr.of_samePool hk.pool
        have hst : (popChunk t i).2.buddy.mempoolStart.toNat ≠ 0 :=
          fun h' => hreal.start (BitVec.eq_of_toNat_eq h')
        have hfits := hreal.fits
        rw [h0] at ho
        have ho := congrArg BitVec.toNat ho
        rw [BitVec.toNat_add, BitVec.toNat_ofNat, Nat.mod_eq_of_lt (a := o) (by omega),
          Nat.mod_eq_of_lt (by omega), show (0 : Addr).toNat = 0 from rfl] at ho
        omega
      · rw [← htb, blocks_eq_none]
        exact hfresh
      · rw [popChunk_blocks ht hi hne, htb, hbytes]
    rw [heq]
    by_cases hnil : (s.gPools i).freeList = []
    · rw [if_pos hnil]
      obtain ⟨hk, hne⟩ := expandChunkPool_spec h hi hnil
      rcases expandChunkPool_cases h hr hi hnil with hexp | ⟨idx, b₁, hexp, hf⟩
      · rw [hexp]
        exact .inl ⟨rfl, rfl⟩
      · rw [if_pos hexp]
        exact .inr (hpop hk.inv (hf.blocks_eq h hk.inv hi hk.pool hnil) (hr.of_samePool hk.pool)
          (hne hexp))
    · rw [if_neg hnil]
      exact .inr (hpop h rfl hr hnil)
  · unfold allocate
    rw [if_neg (by simp only [not_or, not_not, not_lt]; exact ⟨hbad.1, hbad.2.1, hbad.2.2⟩),
      if_neg hsize]
    simp only
    rcases buddyAllocPages_cases h.inv (roundupOrder ((size + pageSize - 1) / pageSize)) with
      heq | ⟨idx, hp, ha⟩
    · rw [heq]
      exact .inl ⟨rfl, rfl⟩
    · obtain ⟨hnone, hblocks⟩ := ha.blocks_eq h
      rw [hp, blockBytes_of_large (Nat.lt_of_not_le hsize)]
      exact .inr ⟨hr.pageToAddr_ne_zero ha.lt, hnone, hblocks⟩

/-! ## `free` -/

theorem Live.inPool (h : AllocInv s) (hr : RealPool s.buddy) (hl : Live s p n) :
    InPool s.buddy p ∧ p ≠ 0 ∧ addrToPageIdx s.buddy p < s.buddy.memTotalPage := by
  obtain ⟨o, ho, hn, hend, -⟩ := hl.offset h
  have hfits := hr.fits
  have hsize := h.pool.size
  have hp : p.toNat = s.buddy.mempoolStart.toNat + o := by
    rw [ho, BitVec.toNat_add, BitVec.toNat_ofNat, Nat.mod_eq_of_lt (a := o) (by omega),
      Nat.mod_eq_of_lt (by omega)]
  have hstart : s.buddy.mempoolStart.toNat ≠ 0 := fun h' => hr.start (BitVec.eq_of_toNat_eq h')
  refine ⟨⟨fun h0 => ?_, ?_, ?_⟩, fun h0 => ?_, (hl.pageIdx h).1⟩
  · rw [h0, show (0 : Addr).toNat = 0 from rfl] at hsize
    omega
  · rw [BitVec.le_def]
    omega
  · rw [BitVec.lt_def, BitVec.toNat_add, hsize, Nat.mod_eq_of_lt hfits]
    omega
  · rw [h0, show (0 : Addr).toNat = 0 from rfl] at hp
    omega

theorem free_of_live (h : AllocInv s) (hr : RealPool s.buddy) (hl : Live s p n) :
    free s p =
      if (s.buddy.frameArray (addrToPageIdx s.buddy p)).state = .allocChunkPool then
        freeChunk s p (addrToPageIdx s.buddy p)
      else freePage s p (addrToPageIdx s.buddy p) := by
  obtain ⟨hin, h0, hlt⟩ := hl.inPool h hr
  unfold free
  rw [if_neg (not_or.2 ⟨not_not.2 h.ready, h0⟩), if_neg (not_not.2 hin)]
  simp only
  rw [if_neg (Nat.not_le.2 hlt)]
  rcases hl.isUsed h with hst | hst
  · rw [hst, if_neg (by simp)]
  · rw [hst, if_pos rfl]

/-- With the last reference, the page case of `free` frees a block of pages. -/
theorem freePage_last (h : AllocInv s) (hr : RealPool s.buddy) (hlt : idx < s.buddy.memTotalPage)
    (hst : (s.buddy.frameArray idx).state = .allocPageHead)
    (hcow : (s.buddy.frameArray idx).cowRefCount = 1) :
    ∃ b', freePage s (pageToAddr s.buddy idx) idx = { s with buddy := b' } ∧
      (b'.frameArray idx).IsFree ∧
      ∀ j, j ≠ idx → SameUse (s.buddy.frameArray j) (b'.frameArray j) := by
  have hal := pageToAddr_mod h.pool hr.fits hlt
  unfold freePage
  rw [if_neg (not_not.2 ((and_page_eq_zero_iff _).2 hal))]
  simp only [Buddy.setFrame_self, hcow, sub_self, if_pos]
  set f : Frame := { s.buddy.frameArray idx with cowRefCount := 0 } with hf
  have hinv : Inv (s.buddy.setFrame idx f) := h.inv.setFrame rfl rfl
  have hidx : addrToPageIdx (s.buddy.setFrame idx f) (pageToAddr s.buddy idx) = idx :=
    addrToPageIdx_pageToAddr (b := s.buddy) h.pool hlt
  have hin : InPool (s.buddy.setFrame idx f) (pageToAddr s.buddy idx) :=
    inPool_pageToAddr (b := s.buddy) h.pool hr.fits hlt
  obtain ⟨k, hM, hfd⟩ := buddyFreePages_freed hinv h.buddy_ready hin (hr.pageToAddr_ne_zero hlt) hal
    (by rw [hidx]; exact hlt) (by rw [hidx, Buddy.setFrame_self]; exact hst)
  rw [hidx] at hM hfd
  refine ⟨_, rfl, hfd.idx_free, fun j hj => ?_⟩
  have := hfd.sameUse hM hj
  rwa [Buddy.setFrame_of_ne _ _ hj] at this

/-- Otherwise it drops a reference. -/
theorem freePage_shared (h : AllocInv s) (hr : RealPool s.buddy) (hlt : idx < s.buddy.memTotalPage)
    (hcow : (s.buddy.frameArray idx).cowRefCount ≠ 1) :
    freePage s (pageToAddr s.buddy idx) idx = { s with
      buddy := s.buddy.setFrame idx { s.buddy.frameArray idx with
        cowRefCount := (s.buddy.frameArray idx).cowRefCount - 1 } } := by
  have hal := pageToAddr_mod h.pool hr.fits hlt
  unfold freePage
  rw [if_neg (not_not.2 ((and_page_eq_zero_iff _).2 hal))]
  simp only [Buddy.setFrame_self]
  rw [if_neg (by omega)]

/-- A block of pages loses a reference, and with the last one it is gone. -/
theorem freePage_blocks (h : AllocInv s) (hr : RealPool s.buddy) (hlt : idx < s.buddy.memTotalPage)
    (hst : (s.buddy.frameArray idx).state = .allocPageHead)
    (hb : blocks s (pageToAddr s.buddy idx) = some (n, r)) :
    blocks (freePage s (pageToAddr s.buddy idx) idx) = Function.update (blocks s)
      (pageToAddr s.buddy idx) (if r = 1 then none else some (n, r - 1)) := by
  obtain ⟨hl, hrefs⟩ := (blocks_eq_some h).1 hb
  obtain ⟨hin, h0, -⟩ := hl.inPool h hr
  have hidx := addrToPageIdx_pageToAddr h.pool hlt
  have hcow : (s.buddy.frameArray idx).cowRefCount = r := by
    rw [refs, hidx, if_pos hst] at hrefs
    exact hrefs
  have hpos := h.cow idx hlt hst
  by_cases h1 : r = 1
  · have hk := freePage_spec h hin h0 (by rw [hidx]; exact hlt) (by rw [hidx]; exact hst)
    obtain ⟨b', heq, hfree, hsame⟩ := freePage_last h hr hlt hst (hcow.trans h1)
    rw [hidx, heq] at hk
    rw [heq, if_pos h1]
    refine funext fun p => ?_
    by_cases hp : addrToPageIdx s.buddy p = idx
    · have hnone : blocks { s with buddy := b' } p = none := by
        refine blocks_eq_none_of_not_isUsed hk.inv ?_
        rw [hk.pool.addrToPageIdx_eq, hp]
        exact hfree.not_isUsed
      rw [hnone]
      by_cases hpp : p = pageToAddr s.buddy idx
      · rw [hpp, Function.update_self]
      · rw [Function.update_of_ne hpp, eq_comm, blocks_eq_none]
        intro n' hl'
        refine hpp ((hl'.eq_pageToAddr h ?_).trans (by rw [hp]))
        rw [hp]
        exact hst
    · rw [Function.update_of_ne (fun hpp => hp (by rw [hpp, hidx]))]
      exact blocks_setBuddy h hk.inv hk.pool (hsame _ hp)
  · rw [freePage_shared h hr hlt (by rwa [hcow]), hcow, if_neg h1]
    exact blocks_setCow h hlt hst hb (by omega)

/-- A chunk page without live chunks leaves no block behind when it is returned. -/
theorem returnPage_blocks (h : AllocInv s) (hr : RealPool s.buddy) (hi : i < chunkPoolCount)
    (hlt : idx < s.buddy.memTotalPage) (hst : (s.buddy.frameArray idx).state = .allocChunkPool)
    (hm : (s.buddy.frameArray idx).metaPoolIdx = i) (hz : (s.buddy.frameArray idx).refCount = 0) :
    blocks (returnPage s i idx (pageToAddr s.buddy idx)) = blocks s ∧
      ∀ j, ((returnPage s i idx (pageToAddr s.buddy idx)).buddy.frameArray j).state =
        .allocChunkPool → (s.buddy.frameArray j).state = .allocChunkPool ∧ j ≠ idx := by
  have hk := returnPage_spec h hr.fits hi hlt hst hm hz
  have hall : ∀ c < pageSize / gPoolSizes i, chunkAddr s.buddy i idx c ∈ (s.gPools i).freeList :=
    fun c hc => h.mem_freeList_of_refCount hlt hst hm hz hc
  obtain ⟨k, hM, hfd⟩ := returnPage_freed h hr.fits hlt hst
  refine ⟨funext fun p => ?_, fun j hj => ?_⟩
  · by_cases hp : addrToPageIdx s.buddy p = idx
    · have hnone := blocks_eq_none_of_chunks h hlt hst hm hall hp
      rw [hnone]
      refine blocks_eq_none_of_not_isUsed hk.inv ?_
      rw [hk.pool.addrToPageIdx_eq, hp]
      exact hfd.idx_free.not_isUsed
    · refine blocks_congr h hk.inv hk.pool ?_ fun i' => ?_
      · have := hfd.sameUse hM hp
        rwa [Buddy.setFrame_of_ne _ _ hp] at this
      · by_cases hii : i' = i
        · subst hii
          simp only [returnPage, Allocator.setFreeList_self, List.mem_filter, decide_eq_true_eq]
          refine and_iff_left_of_imp fun hmem hin => hp ?_
          obtain ⟨j, c, hj, -, -, hc, rfl⟩ := h.freeList i' hi p hmem
          rw [addrToPageIdx_chunkAddr h.pool hj hi hc]
          exact (mem_page_iff hr.fits hlt hj hi hc).1 hin
        · simp only [returnPage, s.setFreeList_of_ne _ hii]
  · have hji : j ≠ idx := by
      rintro rfl
      exact hfd.idx_free.not_isUsed (.inr hj)
    refine ⟨?_, hji⟩
    rcases hfd.sameUse hM hji with ⟨h₁, -⟩ | ⟨-, hu⟩
    · rw [Buddy.setFrame_of_ne _ _ hji] at h₁
      exact h₁.symm.trans hj
    · exact absurd (.inr hj) hu

theorem freeChunk_eq (h : AllocInv s) (hr : RealPool s.buddy) (hi : i < chunkPoolCount)
    (hlt : idx < s.buddy.memTotalPage) (hm : (s.buddy.frameArray idx).metaPoolIdx = i)
    (hc : c < pageSize / gPoolSizes i) (hfree : chunkAddr s.buddy i idx c ∉ (s.gPools i).freeList)
    (hin : InPool s.buddy (chunkAddr s.buddy i idx c)) :
    freeChunk s (chunkAddr s.buddy i idx c) idx =
      if (s.buddy.frameArray idx).refCount - 1 = 0 then
        returnPage (pushed s i idx (chunkAddr s.buddy i idx c)) i idx (pageToAddr s.buddy idx)
      else pushed s i idx (chunkAddr s.buddy i idx c) := by
  have hidx := addrToPageIdx_chunkAddr h.pool hlt hi hc
  have hbase := hin.alignDown_eq h.pool (by rw [hidx]; exact hlt)
  rw [hidx] at hbase
  have hal : (chunkAddr s.buddy i idx c - pageToAddr s.buddy idx).toNat % gPoolSizes i = 0 := by
    have h₁ := toNat_chunkAddr hr.fits hlt hi hc
    have h₂ := toNat_pageToAddr hr.fits hlt
    rw [BitVec.toNat_sub_of_le (by rw [BitVec.le_def]; omega), h₁, h₂, Nat.add_sub_cancel_left,
      Nat.mul_mod_left]
  unfold freeChunk
  simp only [hm, hbase]
  rw [if_neg (by omega), Int.toNat_natCast, h.sizes i hi, if_neg (not_not.2 hal), if_neg hfree]
  simp only [pushed, Allocator.setFreeList, Buddy.setFrame_self]

theorem freeChunk_blocks (h : AllocInv s) (hr : RealPool s.buddy) (hi : i < chunkPoolCount)
    (hlt : idx < s.buddy.memTotalPage) (hst : (s.buddy.frameArray idx).state = .allocChunkPool)
    (hm : (s.buddy.frameArray idx).metaPoolIdx = i) (hc : c < pageSize / gPoolSizes i)
    (hfree : chunkAddr s.buddy i idx c ∉ (s.gPools i).freeList) :
    blocks (freeChunk s (chunkAddr s.buddy i idx c) idx) =
      Function.update (blocks s) (chunkAddr s.buddy i idx c) none := by
  set ptr := chunkAddr s.buddy i idx c with hptr
  have hl : Live s ptr (gPoolSizes i) := .chunk hi hlt hst hm hc hfree
  have hidx : addrToPageIdx s.buddy ptr = idx := addrToPageIdx_chunkAddr h.pool hlt hi hc
  have hinv : AllocInv (pushed s i idx ptr) := h.update (chunkUpdate_push h hi hlt hst hm hc hfree)
  have hpool : SamePool s.buddy (pushed s i idx ptr).buddy := samePool_setFrame _ _ _
  have hpushed : blocks (pushed s i idx ptr) = Function.update (blocks s) ptr none := by
    refine funext fun p => ?_
    by_cases hp : p = ptr
    · rw [hp, Function.update_self, blocks_eq_none]
      exact hinv.not_live_of_mem hi (by simp [pushed])
    · rw [Function.update_of_ne hp]
      refine blocks_congr h hinv hpool (sameUse_setRefCount s.buddy idx _ _) fun i' => ?_
      by_cases hii : i' = i
      · subst hii
        simp [pushed, hp]
      · simp only [pushed, s.setFreeList_of_ne _ hii]
  rw [freeChunk_eq h hr hi hlt hm hc hfree (hl.inPool h hr).1]
  split_ifs with hz
  · rw [← hpushed]
    refine (returnPage_blocks hinv (hr.of_samePool hpool) hi hlt ?_ ?_ ?_).1
    all_goals simp only [pushed, Buddy.setFrame_self]
    · exact hst
    · exact hm
    · exact hz
  · exact hpushed

/-- **`free` drops a reference to a block of the map; with the last one the block is gone.** -/
theorem free_blocks (h : AllocInv s) (hr : RealPool s.buddy) (hb : blocks s p = some (n, r)) :
    blocks (free s p) =
      Function.update (blocks s) p (if r = 1 then none else some (n, r - 1)) := by
  obtain ⟨hl, hrefs⟩ := (blocks_eq_some h).1 hb
  rw [free_of_live h hr hl]
  cases hl with
  | @page idx k hlt hst ho =>
    rw [addrToPageIdx_pageToAddr h.pool hlt, hst, if_neg (by simp)]
    exact freePage_blocks h hr hlt hst hb
  | @chunk i idx c hi hlt hst hm hc hfree =>
    have hidx := addrToPageIdx_chunkAddr h.pool hlt hi hc
    rw [refs_of_chunk (by rw [hidx]; exact hst)] at hrefs
    rw [hidx, if_pos hst, if_pos hrefs.symm]
    exact freeChunk_blocks h hr hi hlt hst hm hc hfree

/-! ## References to pages -/

theorem Live.page_of_le (h : AllocInv s) (hl : Live s p n) (hn : pageSize ≤ n) :
    (s.buddy.frameArray (addrToPageIdx s.buddy p)).state = .allocPageHead ∧
      p = pageToAddr s.buddy (addrToPageIdx s.buddy p) := by
  cases hl with
  | page hlt hst ho =>
    rw [addrToPageIdx_pageToAddr h.pool hlt]
    exact ⟨hst, rfl⟩
  | chunk hi hlt hst hm hc hfree =>
    have := gPoolSizes_lt hi
    omega

/-- `get_page_ref` reads the number of references. -/
theorem getPageRef_eq (h : AllocInv s) (hr : RealPool s.buddy) (hb : blocks s p = some (n, r))
    (hn : pageSize ≤ n) : getPageRef s p = r := by
  obtain ⟨hl, hrefs⟩ := (blocks_eq_some h).1 hb
  rw [getPageRef, if_neg (not_not.2 (hl.inPool h hr).1), ← hrefs, refs,
    if_pos (hl.page_of_le h hn).1]

/-- `page_inc_ref` adds one. -/
theorem pageIncRef_blocks (h : AllocInv s) (hr : RealPool s.buddy) (hb : blocks s p = some (n, r))
    (hn : pageSize ≤ n) :
    Keeps s (pageIncRef s p) none ∧
      blocks (pageIncRef s p) = Function.update (blocks s) p (some (n, r + 1)) := by
  obtain ⟨hl, hrefs⟩ := (blocks_eq_some h).1 hb
  obtain ⟨hin, -, hlt⟩ := hl.inPool h hr
  obtain ⟨hst, hp⟩ := hl.page_of_le h hn
  have hcow := h.cow _ hlt hst
  rw [refs, if_pos hst] at hrefs
  unfold pageIncRef
  rw [if_neg (not_not.2 hin)]
  simp only [hrefs]
  rw [hrefs] at hcow
  refine ⟨keeps_setCow h none fun _ => by omega, ?_⟩
  have := blocks_setCow (v := r + 1) h hlt hst (by rw [← hp]; exact hb) (by omega)
  rwa [← hp] at this

end BareMetalOS.Memory
