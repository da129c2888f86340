import BareMetalOS.Memory.AllocateSpec

/-!
# `free`

`free` of any pointer keeps the invariant, and every live block but the one at its argument
(`free_spec`). A page goes back to the buddy system when its last reference is dropped
(`freePage_spec`), a chunk page when its last chunk is freed (`freeChunk_spec`).
-/

namespace BareMetalOS.Memory

variable {b b' : Buddy} {s s' : Allocator} {i i' j idx idx' c c' k n o q size : ℕ}
  {p a ptr page : Addr} {l : List Addr} {f : Frame}

/-! ## Addresses that `free` accepts -/

/-- An address of a pool that does not wrap, by its page and its offset in the page. -/
theorem InPool.eq_add (h : InPool b ptr) (ha : AlignedPool b) :
    b.mempoolStart.toNat + b.memTotalPage * pageSize < 2 ^ 64 ∧
      ptr.toNat = b.mempoolStart.toNat + addrToPageIdx b ptr * pageSize + ptr.toNat % pageSize := by
  obtain ⟨-, h₁, h₂⟩ := h
  have hsize := ha.size
  have hstart := ha.start
  have htotal := ha.total
  have hlt := b.mempoolStart.isLt
  rw [BitVec.le_def] at h₁
  rw [BitVec.lt_def, BitVec.toNat_add, hsize] at h₂
  have hidx : addrToPageIdx b ptr = (ptr.toNat - b.mempoolStart.toNat) / 4096 := by
    rw [addrToPageIdx, BitVec.toNat_ushiftRight, BitVec.toNat_sub_of_le (by rwa [BitVec.le_def]),
      Nat.shiftRight_eq_div_pow]
    rfl
  rw [hidx]
  simp only [pageSize, buddyTotalPages] at *
  omega

theorem toNat_chunkAddr (hw : b.mempoolStart.toNat + b.memTotalPage * pageSize < 2 ^ 64)
    (hidx : idx < b.memTotalPage) (hi : i < chunkPoolCount) (hc : c < pageSize / gPoolSizes i) :
    (chunkAddr b i idx c).toNat = b.mempoolStart.toNat + idx * pageSize + c * gPoolSizes i := by
  have h₁ := chunk_offset_lt hi hc
  have h₂ := gPoolSizes_pos hi
  rw [chunkAddr_eq, BitVec.toNat_add, BitVec.toNat_ofNat]
  simp only [pageSize] at *
  omega

theorem toNat_pageToAddr (hw : b.mempoolStart.toNat + b.memTotalPage * pageSize < 2 ^ 64)
    (hidx : idx < b.memTotalPage) :
    (pageToAddr b idx).toNat = b.mempoolStart.toNat + idx * pageSize := by
  rw [pageToAddr, BitVec.toNat_add, BitVec.toNat_ofNat]
  simp only [pageSize] at *
  omega

/-- An aligned address is that of its page. -/
theorem InPool.eq_pageToAddr (h : InPool b ptr) (ha : AlignedPool b)
    (hlt : addrToPageIdx b ptr < b.memTotalPage) (hal : ptr.toNat % pageSize = 0) :
    ptr = pageToAddr b (addrToPageIdx b ptr) := by
  obtain ⟨hw, hptr⟩ := h.eq_add ha
  refine BitVec.eq_of_toNat_eq ?_
  rw [toNat_pageToAddr hw hlt]
  omega

/-- The base of an address is the address of its page. -/
theorem InPool.alignDown_eq (h : InPool b ptr) (ha : AlignedPool b)
    (hlt : addrToPageIdx b ptr < b.memTotalPage) :
    alignDownUl ptr 4096 = pageToAddr b (addrToPageIdx b ptr) := by
  obtain ⟨hw, hptr⟩ := h.eq_add ha
  refine BitVec.eq_of_toNat_eq ?_
  rw [toNat_pageToAddr hw hlt, toNat_alignDownUl_page]
  simp only [pageSize] at *
  omega

/-! ## Blocks of pages -/

/-- `buddy_free_pages` frees the allocated block at an address of the pool. -/
theorem buddyFreePages_freed (h : Inv b) (hr : b.ready = true) (hp : InPool b ptr) (h0 : ptr ≠ 0)
    (hal : ptr.toNat % 4096 = 0) (hlt : addrToPageIdx b ptr < b.memTotalPage)
    (hst : (b.frameArray (addrToPageIdx b ptr)).state = .allocPageHead) :
    ∃ k, Marked b.frameArray .allocPageHead .allocPageTail (addrToPageIdx b ptr) k ∧
      Freed b (buddyFreePages b ptr) (addrToPageIdx b ptr) k := by
  obtain ⟨k, hk, -, hM, -, -⟩ := tiled_at_allocPageHead h.left (Nat.zero_le _) hlt hst
  refine ⟨k, hM, ?_⟩
  have heq : buddyFreePages b ptr =
      (let s₁ := { b with
        frameArray := markBlock b.frameArray (addrToPageIdx b ptr) k .freeHead .freeTail }
      let r := mergeBuddy buddyMaxOrder s₁ (addrToPageIdx b ptr) k
      addFreeBlock r.1 r.2.1 r.2.2) := by
    unfold buddyFreePages
    rw [if_neg (not_or.2 ⟨by simp [hr], h0⟩), if_neg, if_neg, ← addrToPageIdx]
    · simp only
      rw [if_neg, hM.order, toUnsigned_natCast hk]
      push Not
      exact ⟨hlt, hst⟩
    · rw [not_not, and_page_eq_zero_iff]
      exact hal
    · exact not_or.2 ⟨BitVec.not_lt.2 hp.2.1, BitVec.not_le.2 hp.2.2⟩
  rw [heq]
  exact freed_of_alloc h hlt hst hM.order

/-- The heads outside the block keep their frames. -/
theorem Freed.frame_eq (h : Freed b b' idx k)
    (hM : Marked b.frameArray .allocPageHead .allocPageTail idx k) (hj : j ≠ idx)
    (hst : (b.frameArray j).IsHead ∨ (b'.frameArray j).IsHead) :
    b'.frameArray j = b.frameArray j := by
  by_cases hin : idx ≤ j ∧ j < idx + 2 ^ k
  · exfalso
    have htail := hM.tail j (by omega) hin.2
    rcases hst with hst | hst
    · simp [Frame.IsHead, htail] at hst
    · exact (h.free j hin.1 hin.2).not_isHead hst
  · rcases h.outside j (by omega) with heq | ⟨h₁, h₂⟩
    · exact heq
    · rcases hst with hst | hst
      · exact absurd hst h₁.not_isHead
      · exact absurd hst h₂.not_isHead

theorem Freed.idx_free (h : Freed b b' idx k) : (b'.frameArray idx).IsFree :=
  h.free idx le_rfl (by have := Nat.two_pow_pos k; omega)

theorem Freed.reserved_iff (h : Freed b b' idx k)
    (hM : Marked b.frameArray .allocPageHead .allocPageTail idx k) (j : ℕ) :
    (b'.frameArray j).state = .reserved ↔ (b.frameArray j).state = .reserved := by
  by_cases hj : j = idx
  · subst hj
    have := h.idx_free.ne.2.2
    simp [this, hM.head]
  · constructor
    · intro hst
      rw [← h.frame_eq hM hj (.inr (.inr (.inr hst)))]
      exact hst
    · intro hst
      rw [h.frame_eq hM hj (.inl (.inr (.inr hst)))]
      exact hst

/-- A store to a copy-on-write count. -/
theorem keeps_setCow (h : AllocInv s) (ptr : Option Addr) {v : ℤ}
    (hv : (s.buddy.frameArray idx).state = .allocPageHead → 1 ≤ v) :
    Keeps s { s with
      buddy := s.buddy.setFrame idx { s.buddy.frameArray idx with cowRefCount := v } } ptr := by
  set f : Frame := { s.buddy.frameArray idx with cowRefCount := v } with hf
  have hsame : ∀ j, SameBlock s.buddy.frameArray (s.buddy.setFrame idx f).frameArray j ∧
      ((s.buddy.setFrame idx f).frameArray j).metaPoolIdx = (s.buddy.frameArray j).metaPoolIdx ∧
      ((s.buddy.setFrame idx f).frameArray j).refCount = (s.buddy.frameArray j).refCount := by
    intro j
    by_cases hj : j = idx
    · rw [SameBlock, hj, Buddy.setFrame_self]
      exact ⟨⟨rfl, rfl⟩, rfl, rfl⟩
    · rw [SameBlock, Buddy.setFrame_of_ne _ _ hj]
      exact ⟨⟨rfl, rfl⟩, rfl, rfl⟩
  have hpool : SamePool s.buddy (s.buddy.setFrame idx f) := samePool_setFrame _ _ _
  refine ⟨h.setBuddy (h.inv.setFrame rfl rfl) hpool (fun j _ => ⟨(hsame j).1.1, (hsame j).2⟩)
    (fun j hjlt hj => ?_), hpool, fun j => by rw [← (hsame j).1.1],
    fun q n hq hl => hl.congr h hpool (fun j _ => ⟨(hsame j).1, (hsame j).2.1⟩) fun _ hmem => hmem⟩
  by_cases hji : j = idx
  · rw [hji, Buddy.setFrame_self] at hj ⊢
    exact hv hj
  · rw [Buddy.setFrame_of_ne _ _ hji] at hj ⊢
    exact h.cow j hjlt hj

/-- The page case of `free`: a reference is dropped, with the last one the block is freed. -/
theorem freePage_spec (h : AllocInv s) (hp : InPool s.buddy ptr) (h0 : ptr ≠ 0)
    (hlt : addrToPageIdx s.buddy ptr < s.buddy.memTotalPage)
    (hst : (s.buddy.frameArray (addrToPageIdx s.buddy ptr)).state = .allocPageHead) :
    Keeps s (freePage s ptr (addrToPageIdx s.buddy ptr)) (some ptr) := by
  unfold freePage
  split_ifs with hal
  · exact .refl h _
  rw [not_not, and_page_eq_zero_iff] at hal
  have hptr := hp.eq_pageToAddr h.pool hlt hal
  set idx := addrToPageIdx s.buddy ptr with hidx
  set f : Frame := { s.buddy.frameArray idx with
    cowRefCount := (s.buddy.frameArray idx).cowRefCount - 1 } with hf
  have hinv : Inv (s.buddy.setFrame idx f) := h.inv.setFrame rfl rfl
  have hfr : ∀ j, j ≠ idx → (s.buddy.setFrame idx f).frameArray j = s.buddy.frameArray j :=
    fun j hj => s.buddy.setFrame_of_ne f hj
  simp only [Buddy.setFrame_self]
  split_ifs with hcow
  · have hfreed : ∃ k, Marked (s.buddy.setFrame idx f).frameArray .allocPageHead .allocPageTail
        idx k ∧ Freed (s.buddy.setFrame idx f) (buddyFreePages (s.buddy.setFrame idx f) ptr)
          idx k := buddyFreePages_freed hinv h.buddy_ready hp h0 hal hlt
            ((Buddy.setFrame_self ..).symm ▸ hst)
    obtain ⟨k, hM, hfd⟩ := hfreed
    set b' := buddyFreePages (s.buddy.setFrame idx f) ptr with hb'
    have hpool : SamePool s.buddy b' := (samePool_setFrame _ _ _).trans hfd.pool
    -- a head other than the freed one is as before
    have heq : ∀ j, j ≠ idx → (s.buddy.frameArray j).IsHead ∨ (b'.frameArray j).IsHead →
        b'.frameArray j = s.buddy.frameArray j := fun j hj hh => by
      rw [← hfr j hj] at hh ⊢
      exact hfd.frame_eq hM hj hh
    refine ⟨h.setBuddy hfd.inv hpool (fun j hj => ?_) (fun j hjlt hj => ?_), hpool, fun j => ?_,
      fun q n hq hl => hl.congr h hpool (fun j hj => ?_) fun _ hmem => hmem⟩
    · have hji : j ≠ idx := by
        rintro rfl
        rcases hj with hj | hj
        · exact hfd.idx_free.ne.2.1 hj
        · simp [hst] at hj
      rw [heq j hji (hj.symm.imp (fun h => .inr (.inl h)) fun h => .inr (.inl h))]
      exact ⟨rfl, rfl, rfl⟩
    · have hji : j ≠ idx := by
        rintro rfl
        exact hfd.idx_free.ne.1 hj
      have hjeq := heq j hji (.inr (.inl hj))
      rw [hjeq] at hj ⊢
      exact h.cow j (by rw [← hpool.total]; exact hjlt) hj
    · refine (hfd.reserved_iff hM j).trans ?_
      by_cases hj : j = idx
      · rw [hj, Buddy.setFrame_self]
      · rw [hfr j hj]
    · have hji : j ≠ idx := by
        rintro rfl
        refine hq (congrArg some ?_)
        cases hl with
        | page hlt' hst' ho' =>
          rw [hptr, hj, addrToPageIdx_pageToAddr h.pool hlt']
        | chunk hi hlt' hst' hm hc hfree =>
          rw [hj, addrToPageIdx_chunkAddr h.pool hlt' hi hc, hst'] at hst
          cases hst
      have hhead : (s.buddy.frameArray j).IsHead := by
        rw [hj]
        exact (hl.pageIdx h).2.imp_right .inl
      simp only [SameBlock, heq j hji (.inl hhead), and_self]
  · refine keeps_setCow h (some ptr) fun _ => ?_
    have := h.cow idx hlt hst
    omega

/-! ## Chunks -/

/-- The free list and the frames after a chunk went back to its pool. -/
theorem chunkUpdate_push (h : AllocInv s) (hi : i < chunkPoolCount)
    (hlt : idx < s.buddy.memTotalPage) (hst : (s.buddy.frameArray idx).state = .allocChunkPool)
    (hm : (s.buddy.frameArray idx).metaPoolIdx = i) (hc : c < pageSize / gPoolSizes i)
    (hnot : chunkAddr s.buddy i idx c ∉ (s.gPools i).freeList) :
    ChunkUpdate s (s.buddy.setFrame idx { s.buddy.frameArray idx with
        refCount := (s.buddy.frameArray idx).refCount - 1 }) i idx
      (chunkAddr s.buddy i idx c :: (s.gPools i).freeList) := by
  refine ⟨hlt, hi, h.inv.setFrame rfl rfl, samePool_setFrame _ _ _, fun j hj _ => ?_,
    fun j hj hst' => ?_, fun _ => hm, fun _ => ?_, fun _ => h.chunkNonzero idx hlt hst,
    List.nodup_cons.2 ⟨hnot, h.nodup i hi⟩,
    fun a ha => ?_, fun _ _ _ => ?_, fun j c' hj hjlt hc' => ?_⟩
  · rw [Buddy.setFrame_of_ne _ _ hj]
    exact ⟨rfl, rfl, rfl⟩
  · have hji : j ≠ idx := by
      rintro rfl
      rw [Buddy.setFrame_self, hst] at hst'
      cases hst'
    rw [Buddy.setFrame_of_ne _ _ hji] at hst' ⊢
    exact h.cow j hj hst'
  · -- the page of the chunk has one live chunk less
    rw [Buddy.setFrame_self]
    refine ⟨hm, ?_⟩
    obtain ⟨i', -, hm', hr⟩ := h.chunkPage idx hlt hst
    obtain rfl : i = i' := by exact_mod_cast hm.symm.trans hm'
    have hmem : c ∈ liveChunks s i idx := by simp [liveChunks, hc, hnot]
    have herase : ((Finset.range (pageSize / gPoolSizes i)).filter fun c' =>
        chunkAddr s.buddy i idx c' ∉ chunkAddr s.buddy i idx c :: (s.gPools i).freeList) =
          (liveChunks s i idx).erase c := by
      ext c'
      simp only [liveChunks, Finset.mem_filter, Finset.mem_erase, Finset.mem_range, List.mem_cons,
        not_or]
      constructor
      · rintro ⟨hc', h₁, h₂⟩
        exact ⟨fun heq => h₁ (by rw [heq]), hc', h₂⟩
      · rintro ⟨hne, hc', h₂⟩
        exact ⟨hc', fun heq => hne (chunkAddr_inj h.pool hlt hlt hi hc' hc heq).2, h₂⟩
    have hpos := Finset.card_pos.2 ⟨c, hmem⟩
    rw [herase, Finset.card_erase_of_mem hmem]
    simp only [hr]
    omega
  · rcases List.mem_cons.1 ha with rfl | ha
    · exact .inr ⟨c, hc, rfl⟩
    · exact .inl ha
  · rw [Buddy.setFrame_self]
    exact hst
  · rw [List.mem_cons, or_iff_right]
    exact fun heq => hj (chunkAddr_inj h.pool hjlt hlt hi hc' hc heq).1

/-- The addresses of a page, in a pool that does not wrap. -/
theorem mem_page_iff (hw : b.mempoolStart.toNat + b.memTotalPage * pageSize < 2 ^ 64)
    (hidx : idx < b.memTotalPage) (hj : j < b.memTotalPage) (hi : i < chunkPoolCount)
    (hc : c < pageSize / gPoolSizes i) :
    (pageToAddr b idx ≤ chunkAddr b i j c ∧ chunkAddr b i j c < pageToAddr b idx + 4096) ↔
      j = idx := by
  have h₁ := chunk_offset_lt hi hc
  have h₂ := gPoolSizes_pos hi
  have hadd : (pageToAddr b idx + 4096).toNat = (pageToAddr b idx).toNat + 4096 := by
    rw [BitVec.toNat_add, toNat_pageToAddr hw hidx]
    simp only [pageSize] at *
    change (_ + 4096) % 2 ^ 64 = _
    omega
  rw [BitVec.le_def, BitVec.lt_def, hadd, toNat_pageToAddr hw hidx, toNat_chunkAddr hw hj hi hc]
  simp only [pageSize] at *
  omega

theorem inPool_pageToAddr (ha : AlignedPool b)
    (hw : b.mempoolStart.toNat + b.memTotalPage * pageSize < 2 ^ 64) (hlt : idx < b.memTotalPage) :
    InPool b (pageToAddr b idx) := by
  have hsize := ha.size
  refine ⟨?_, ?_, ?_⟩
  · intro h
    have hpos := Nat.mul_pos ha.pos (show 0 < pageSize by decide)
    rw [← hsize, h] at hpos
    exact absurd hpos (by decide)
  · rw [BitVec.le_def, toNat_pageToAddr hw hlt]
    omega
  · rw [BitVec.lt_def, toNat_pageToAddr hw hlt, BitVec.toNat_add, hsize, Nat.mod_eq_of_lt hw]
    exact Nat.add_lt_add_left (Nat.mul_lt_mul_of_pos_right hlt (by decide)) _

/-- An aligned address of a chunk page is the address of a chunk. -/
theorem InPool.eq_chunkAddr (h : InPool b ptr) (ha : AlignedPool b)
    (hlt : addrToPageIdx b ptr < b.memTotalPage) (hi : i < chunkPoolCount)
    (hal : (ptr - pageToAddr b (addrToPageIdx b ptr)).toNat % gPoolSizes i = 0) :
    ∃ c < pageSize / gPoolSizes i, ptr = chunkAddr b i (addrToPageIdx b ptr) c := by
  obtain ⟨hw, hptr⟩ := h.eq_add ha
  have hpage := toNat_pageToAddr hw hlt
  have hsub : (ptr - pageToAddr b (addrToPageIdx b ptr)).toNat = ptr.toNat % pageSize := by
    rw [BitVec.toNat_sub_of_le (by rw [BitVec.le_def]; omega), hpage]
    omega
  rw [hsub] at hal
  have hdvd := Nat.dvd_of_mod_eq_zero hal
  have hc : ptr.toNat % pageSize / gPoolSizes i < pageSize / gPoolSizes i :=
    Nat.div_lt_div_of_lt_of_dvd (gPoolSizes_dvd hi) (Nat.mod_lt _ (by decide))
  refine ⟨_, hc, BitVec.eq_of_toNat_eq ?_⟩
  rw [toNat_chunkAddr hw hlt hi hc, Nat.div_mul_cancel hdvd]
  exact hptr

/-- Without live chunks, all chunks of the page are on the free list. -/
theorem AllocInv.mem_freeList_of_refCount (h : AllocInv s) (hlt : idx < s.buddy.memTotalPage)
    (hst : (s.buddy.frameArray idx).state = .allocChunkPool)
    (hm : (s.buddy.frameArray idx).metaPoolIdx = i) (hr : (s.buddy.frameArray idx).refCount = 0)
    (hc : c < pageSize / gPoolSizes i) : chunkAddr s.buddy i idx c ∈ (s.gPools i).freeList := by
  obtain ⟨i', -, hm', hr'⟩ := h.chunkPage idx hlt hst
  obtain rfl : i = i' := by exact_mod_cast hm.symm.trans hm'
  have hempty : liveChunks s i idx = ∅ := by
    rw [← Finset.card_eq_zero]
    exact_mod_cast hr'.symm.trans hr
  by_contra hnot
  have : c ∈ liveChunks s i idx := by simp [liveChunks, hc, hnot]
  simp [hempty] at this

theorem pageToAddr_mod (h : AlignedPool b)
    (hw : b.mempoolStart.toNat + b.memTotalPage * pageSize < 2 ^ 64) (hlt : idx < b.memTotalPage) :
    (pageToAddr b idx).toNat % 4096 = 0 := by
  have := h.start
  rw [toNat_pageToAddr hw hlt]
  simp only [pageSize] at *
  omega

/-- What `buddy_free_pages` does with a chunk page that was made an allocated page again. -/
theorem returnPage_freed (h : AllocInv s)
    (hw : s.buddy.mempoolStart.toNat + s.buddy.memTotalPage * pageSize < 2 ^ 64)
    (hlt : idx < s.buddy.memTotalPage) (hst : (s.buddy.frameArray idx).state = .allocChunkPool) :
    let b₁ := s.buddy.setFrame idx { s.buddy.frameArray idx with state := .allocPageHead }
    ∃ k, Marked b₁.frameArray .allocPageHead .allocPageTail idx k ∧
      Freed b₁ (buddyFreePages b₁ (pageToAddr s.buddy idx)) idx k := by
  intro b₁
  have hself : addrToPageIdx b₁ (pageToAddr s.buddy idx) = idx :=
    addrToPageIdx_pageToAddr (b := s.buddy) h.pool hlt
  have hin : InPool b₁ (pageToAddr s.buddy idx) := inPool_pageToAddr (b := s.buddy) h.pool hw hlt
  have hinv : Inv b₁ := h.inv.ofChunk hlt hst rfl rfl
  have hfreed := buddyFreePages_freed hinv h.buddy_ready hin
    (h.chunkNonzero idx hlt hst) (pageToAddr_mod h.pool hw hlt) (by rw [hself]; exact hlt)
    (by rw [hself, Buddy.setFrame_self])
  rwa [hself] at hfreed

/-- A page whose chunks are all free goes back to the buddy system. -/
theorem returnPage_spec (h : AllocInv s)
    (hw : s.buddy.mempoolStart.toNat + s.buddy.memTotalPage * pageSize < 2 ^ 64)
    (hi : i < chunkPoolCount) (hlt : idx < s.buddy.memTotalPage)
    (hst : (s.buddy.frameArray idx).state = .allocChunkPool)
    (hm : (s.buddy.frameArray idx).metaPoolIdx = i) (hr : (s.buddy.frameArray idx).refCount = 0) :
    Keeps s (returnPage s i idx (pageToAddr s.buddy idx)) none := by
  have hall : ∀ c < pageSize / gPoolSizes i, chunkAddr s.buddy i idx c ∈ (s.gPools i).freeList :=
    fun c hc => h.mem_freeList_of_refCount hlt hst hm hr hc
  obtain ⟨k, hM, hfd⟩ := returnPage_freed h hw hlt hst
  set f : Frame := { s.buddy.frameArray idx with state := .allocPageHead } with hf
  set b₁ := s.buddy.setFrame idx f with hb₁
  set l := (s.gPools i).freeList.filter fun node =>
    ¬ (pageToAddr s.buddy idx ≤ node ∧ node < pageToAddr s.buddy idx + 4096) with hl
  have hret : returnPage s i idx (pageToAddr s.buddy idx) =
      { s.setFreeList i l with buddy := buddyFreePages b₁ (pageToAddr s.buddy idx) } := rfl
  rw [hret]
  set b' := buddyFreePages b₁ (pageToAddr s.buddy idx) with hb'
  have hpool : SamePool s.buddy b' := (samePool_setFrame _ _ _).trans hfd.pool
  have heq : ∀ j, j ≠ idx → (s.buddy.frameArray j).IsHead ∨ (b'.frameArray j).IsHead →
      b'.frameArray j = s.buddy.frameArray j := fun j hj hh => by
    rw [← s.buddy.setFrame_of_ne f hj] at hh ⊢
    exact hfd.frame_eq hM hj hh
  have hfree := hfd.idx_free.ne
  have hmem : ∀ j c, j < s.buddy.memTotalPage → c < pageSize / gPoolSizes i →
      (chunkAddr s.buddy i j c ∈ l ↔
        chunkAddr s.buddy i j c ∈ (s.gPools i).freeList ∧ j ≠ idx) := fun j c hj hc => by
    rw [hl, List.mem_filter, decide_eq_true_eq, mem_page_iff hw hlt hj hi hc]
  have hu : ChunkUpdate s b' i idx l := by
    refine ⟨hlt, hi, hfd.inv, hpool, fun j hj hst' => ?_, fun j hj hst' => ?_, fun _ => hm,
      fun hst' => absurd hst' hfree.2.1, fun hst' => absurd hst' hfree.2.1,
      (h.nodup i hi).filter _, fun a ha => .inl (List.mem_of_mem_filter ha), fun c hc hin => ?_,
      fun j c hj hjlt hc => ?_⟩
    · rw [heq j hj (hst'.symm.imp (fun h => .inr (.inl h)) fun h => .inr (.inl h))]
      exact ⟨rfl, rfl, rfl⟩
    · have hji : j ≠ idx := by
        rintro rfl
        exact hfree.1 hst'
      have hjeq := heq j hji (.inr (.inl hst'))
      rw [hjeq] at hst' ⊢
      exact h.cow j hj hst'
    · exact absurd rfl ((hmem idx c hlt hc).1 hin).2
    · rw [hmem j c hjlt hc, and_iff_left hj]
  refine ⟨h.update hu, hpool, fun j => ?_, fun q n _ hq => ?_⟩
  · refine (hfd.reserved_iff hM j).trans ?_
    by_cases hj : j = idx
    · rw [hj, hb₁, Buddy.setFrame_self, hst]
      simp [hf]
    · rw [hb₁, Buddy.setFrame_of_ne _ _ hj]
  · refine hq.congr h hpool (fun j hj => ?_) fun i' hin => ?_
    · have hji : j ≠ idx := by
        rintro rfl
        -- every chunk of the page is on the free list
        cases hq with
        | page hlt' hst' ho' =>
          rw [hj, addrToPageIdx_pageToAddr h.pool hlt', hst'] at hst
          cases hst
        | @chunk i' idx' c hi' hlt' hst' hm' hc hnot =>
          obtain rfl := hj.trans (addrToPageIdx_chunkAddr h.pool hlt' hi' hc)
          obtain rfl : i' = i := by exact_mod_cast hm'.symm.trans hm
          exact hnot (hall c hc)
      have hhead : (s.buddy.frameArray j).IsHead := by
        rw [hj]
        exact (hq.pageIdx h).2.imp_right .inl
      simp only [SameBlock, heq j hji (.inl hhead), and_self]
    · by_cases hii : i' = i
      · subst hii
        simp only [Allocator.setFreeList_self] at hin
        exact List.mem_of_mem_filter hin
      · simpa only [s.setFreeList_of_ne l hii] using hin

/-- The chunk `ptr` of the page `idx` is put on the free list. -/
def pushed (s : Allocator) (i idx : ℕ) (ptr : Addr) : Allocator :=
  { s.setFreeList i (ptr :: (s.gPools i).freeList) with
    buddy := s.buddy.setFrame idx { s.buddy.frameArray idx with
      refCount := (s.buddy.frameArray idx).refCount - 1 } }

/-- The chunk case of `free` does nothing, or puts a live chunk on the free list; with the last one
of the page it returns the page. -/
theorem freeChunk_cases (h : AllocInv s) (hp : InPool s.buddy ptr)
    (hlt : addrToPageIdx s.buddy ptr < s.buddy.memTotalPage)
    (hst : (s.buddy.frameArray (addrToPageIdx s.buddy ptr)).state = .allocChunkPool) :
    freeChunk s ptr (addrToPageIdx s.buddy ptr) = s ∨
      ∃ i < chunkPoolCount, ∃ c < pageSize / gPoolSizes i,
        (s.buddy.frameArray (addrToPageIdx s.buddy ptr)).metaPoolIdx = (i : ℤ) ∧
        ptr = chunkAddr s.buddy i (addrToPageIdx s.buddy ptr) c ∧ ptr ∉ (s.gPools i).freeList ∧
        freeChunk s ptr (addrToPageIdx s.buddy ptr) =
          if (s.buddy.frameArray (addrToPageIdx s.buddy ptr)).refCount - 1 = 0 then
            returnPage (pushed s i (addrToPageIdx s.buddy ptr) ptr) i (addrToPageIdx s.buddy ptr)
              (pageToAddr s.buddy (addrToPageIdx s.buddy ptr))
          else pushed s i (addrToPageIdx s.buddy ptr) ptr := by
  have hbase := hp.alignDown_eq h.pool hlt
  obtain ⟨i, hi, hm, -⟩ := h.chunkPage _ hlt hst
  unfold freeChunk
  simp only
  rw [hm, if_neg (by omega), Int.toNat_natCast, h.sizes i hi, hbase]
  by_cases hal : (ptr - pageToAddr s.buddy (addrToPageIdx s.buddy ptr)).toNat % gPoolSizes i = 0
  swap
  · rw [if_pos hal]
    exact .inl rfl
  rw [if_neg (not_not.2 hal)]
  by_cases hmem : ptr ∈ (s.gPools i).freeList
  · rw [if_pos hmem]
    exact .inl rfl
  rw [if_neg hmem]
  obtain ⟨c, hc, hptr⟩ := hp.eq_chunkAddr h.pool hlt hi hal
  refine .inr ⟨i, hi, c, hc, rfl, hptr, hmem, ?_⟩
  simp only [pushed, Allocator.setFreeList, Buddy.setFrame_self]

/-- The chunk case of `free`. -/
theorem freeChunk_spec (h : AllocInv s) (hp : InPool s.buddy ptr)
    (hlt : addrToPageIdx s.buddy ptr < s.buddy.memTotalPage)
    (hst : (s.buddy.frameArray (addrToPageIdx s.buddy ptr)).state = .allocChunkPool) :
    Keeps s (freeChunk s ptr (addrToPageIdx s.buddy ptr)) (some ptr) := by
  obtain ⟨hw, -⟩ := hp.eq_add h.pool
  rcases freeChunk_cases h hp hlt hst with heq | ⟨i, hi, c, hc, hm, hptr, hmem, heq⟩
  · rw [heq]
    exact .refl h _
  rw [heq]
  set idx := addrToPageIdx s.buddy ptr with hidx
  have hu := chunkUpdate_push h hi hlt hst hm hc (hptr ▸ hmem)
  rw [← hptr] at hu
  set f : Frame := { s.buddy.frameArray idx with
    refCount := (s.buddy.frameArray idx).refCount - 1 } with hf
  have hsame : ∀ j, SameBlock s.buddy.frameArray (s.buddy.setFrame idx f).frameArray j ∧
      ((s.buddy.setFrame idx f).frameArray j).metaPoolIdx = (s.buddy.frameArray j).metaPoolIdx := by
    intro j
    by_cases hj : j = idx
    · rw [SameBlock, hj, Buddy.setFrame_self]
      exact ⟨⟨rfl, rfl⟩, rfl⟩
    · rw [SameBlock, Buddy.setFrame_of_ne _ _ hj]
      exact ⟨⟨rfl, rfl⟩, rfl⟩
  have hk : Keeps s (pushed s i idx ptr) (some ptr) := by
    refine ⟨h.update hu, hu.pool, fun j => by rw [← (hsame j).1.1]; rfl, fun q n hq hl => ?_⟩
    refine hl.congr h hu.pool (fun j _ => hsame j) fun i' hin => ?_
    by_cases hii : i' = i
    · subst hii
      simp only [pushed, Allocator.setFreeList_self, List.mem_cons] at hin
      exact hin.resolve_left fun heq => hq (congrArg some heq.symm)
    · simpa only [pushed, s.setFreeList_of_ne _ hii] using hin
  split_ifs with hzero
  · have hk' : Keeps (pushed s i idx ptr)
        (returnPage (pushed s i idx ptr) i idx (pageToAddr s.buddy idx)) none :=
      returnPage_spec hk.inv hw hi hlt ((hsame idx).1.1.trans hst) ((hsame idx).2.trans hm)
        ((congrArg Frame.refCount (Buddy.setFrame_self _ _ _)).trans hzero)
    exact hk.trans ⟨hk'.inv, hk'.pool, hk'.reserved, fun q n _ => hk'.live q n (by simp)⟩
  · exact hk

/-! ## The whole function -/

/-- **`free` of any pointer keeps every other live block.** -/
theorem free_spec (h : AllocInv s) (ptr : Addr) : Keeps s (free s ptr) (some ptr) := by
  unfold free
  by_cases h₁ : ¬ s.ready = true ∨ ptr = 0
  · rw [if_pos h₁]
    exact .refl h _
  by_cases h₂ : InPool s.buddy ptr
  swap
  · rw [if_neg h₁, if_pos h₂]
    exact .refl h _
  rw [if_neg h₁, if_neg (not_not.2 h₂)]
  simp only
  by_cases h₃ : s.buddy.memTotalPage ≤ addrToPageIdx s.buddy ptr
  · rw [if_pos h₃]
    exact .refl h _
  rw [if_neg h₃]
  split
  · exact freeChunk_spec h h₂ (by omega) ‹_›
  · exact freePage_spec h h₂ (fun h => h₁ (.inr h)) (by omega) ‹_›
  · exact .refl h _

/-! ## The counts of references -/

/-- A block of pages of the second state has one reference, or not more than in the first state. -/
def RefsFrom (s s' : Allocator) : Prop :=
  ∀ j, (s'.buddy.frameArray j).state = .allocPageHead → (s'.buddy.frameArray j).cowRefCount ≤ 1 ∨
    (s.buddy.frameArray j).state = .allocPageHead ∧
      (s'.buddy.frameArray j).cowRefCount ≤ (s.buddy.frameArray j).cowRefCount

theorem RefsFrom.refl (s : Allocator) : RefsFrom s s := fun _ h => .inr ⟨h, le_rfl⟩

theorem RefsFrom.trans {s'' : Allocator} (h : RefsFrom s s') (h' : RefsFrom s' s'') :
    RefsFrom s s'' := by
  intro j hj
  rcases h' j hj with hle | ⟨hst, hle⟩
  · exact .inl hle
  · exact (h j hst).imp hle.trans (And.imp_right hle.trans)

/-- A store to a frame that makes no head and adds no reference. -/
theorem refsFrom_setFrame (hst : f.state = .allocPageHead →
      (s.buddy.frameArray idx).state = .allocPageHead)
    (hcow : f.cowRefCount ≤ (s.buddy.frameArray idx).cowRefCount) :
    RefsFrom s { s with buddy := s.buddy.setFrame idx f } := by
  intro j hj
  by_cases hji : j = idx
  · subst hji
    rw [Buddy.setFrame_self] at hj ⊢
    exact .inr ⟨hst hj, hcow⟩
  · rw [Buddy.setFrame_of_ne _ _ hji] at hj ⊢
    exact .inr ⟨hj, le_rfl⟩

theorem Allocated.refsFrom (ha : Allocated s.buddy b' idx k) :
    RefsFrom s { s with buddy := b' } := by
  intro j hj
  rcases ha.head_cases (.inl hj) with rfl | heq
  · exact .inl ha.cow.le
  · rw [heq] at hj ⊢
    exact .inr ⟨hj, le_rfl⟩

theorem refsFrom_buddyAllocPages (h : AllocInv s) (k : ℕ) :
    RefsFrom s { s with buddy := (buddyAllocPages s.buddy k).2 } := by
  rcases buddyAllocPages_cases h.inv k with heq | ⟨idx, -, ha⟩
  · rw [heq]
    exact .refl s
  · exact ha.refsFrom

theorem refsFrom_expandChunkPool (h : AllocInv s) (i : ℕ) : RefsFrom s (expandChunkPool s i).2 := by
  unfold expandChunkPool
  simp only
  split_ifs
  · exact refsFrom_buddyAllocPages h 0
  · refine (refsFrom_buddyAllocPages h 0).trans ?_
    exact refsFrom_setFrame (s := { s with buddy := (buddyAllocPages s.buddy 0).2 })
      (fun hst => by cases hst) le_rfl

/-- `allocate` adds no reference to a block that it has not made. -/
theorem refsFrom_allocate (h : AllocInv s) (size : ℕ) : RefsFrom s (allocate s size).2 := by
  have hpop : ∀ (t : Allocator) (i : ℕ), RefsFrom t (popChunk t i).2 := fun t i =>
    refsFrom_setFrame (s := t.setFreeList i (t.gPools i).freeList.tail) id le_rfl
  unfold allocate
  split_ifs with h₁ h₂
  · exact .refl s
  · rcases findPoolIndex s size with _ | i
    · exact .refl s
    simp only
    split_ifs
    · exact (refsFrom_expandChunkPool h i).trans (hpop _ i)
    · exact refsFrom_expandChunkPool h i
    · exact hpop s i
  · exact refsFrom_buddyAllocPages h _

/-- After a block is freed, the other heads are as before. -/
theorem Freed.refsFrom (hf : Freed (s.buddy.setFrame idx f) b' idx k)
    (hM : Marked (s.buddy.setFrame idx f).frameArray .allocPageHead .allocPageTail idx k) :
    RefsFrom s { s' with buddy := b' } := by
  intro j hj
  have hne : j ≠ idx := by
    rintro rfl
    exact hf.idx_free.ne.1 hj
  have heq : b'.frameArray j = s.buddy.frameArray j :=
    (hf.frame_eq hM hne (.inr (.inl hj))).trans (s.buddy.setFrame_of_ne f hne)
  rw [show ({ s' with buddy := b' } : Allocator).buddy.frameArray j = s.buddy.frameArray j from heq]
    at hj ⊢
  exact .inr ⟨hj, le_rfl⟩

theorem refsFrom_freeChunk (h : AllocInv s) (hp : InPool s.buddy ptr)
    (hlt : addrToPageIdx s.buddy ptr < s.buddy.memTotalPage)
    (hst : (s.buddy.frameArray (addrToPageIdx s.buddy ptr)).state = .allocChunkPool) :
    RefsFrom s (freeChunk s ptr (addrToPageIdx s.buddy ptr)) := by
  obtain ⟨hw, -⟩ := hp.eq_add h.pool
  rcases freeChunk_cases h hp hlt hst with heq | ⟨i, hi, c, hc, hm, hptr, hmem, heq⟩
  · rw [heq]
    exact .refl s
  rw [heq]
  set idx := addrToPageIdx s.buddy ptr
  have hpushed : RefsFrom s (pushed s i idx ptr) :=
    refsFrom_setFrame (s := s.setFreeList i (ptr :: (s.gPools i).freeList)) id le_rfl
  split_ifs
  · have hu := chunkUpdate_push h hi hlt hst hm hc (hptr ▸ hmem)
    rw [← hptr] at hu
    have hinv : AllocInv (pushed s i idx ptr) := h.update hu
    obtain ⟨k, hM, hfd⟩ := returnPage_freed hinv hw hlt (by simpa [pushed] using hst)
    exact hpushed.trans (hfd.refsFrom hM)
  · exact hpushed

theorem refsFrom_freePage (h : AllocInv s) (hp : InPool s.buddy ptr) (h0 : ptr ≠ 0)
    (hlt : addrToPageIdx s.buddy ptr < s.buddy.memTotalPage)
    (hst : (s.buddy.frameArray (addrToPageIdx s.buddy ptr)).state = .allocPageHead) :
    RefsFrom s (freePage s ptr (addrToPageIdx s.buddy ptr)) := by
  unfold freePage
  split_ifs with hal
  · exact .refl s
  rw [not_not, and_page_eq_zero_iff] at hal
  simp only
  split_ifs
  · obtain ⟨k, hM, hfd⟩ := buddyFreePages_freed (b := s.buddy.setFrame (addrToPageIdx s.buddy ptr)
      { s.buddy.frameArray (addrToPageIdx s.buddy ptr) with
        cowRefCount := (s.buddy.frameArray (addrToPageIdx s.buddy ptr)).cowRefCount - 1 })
      (h.inv.setFrame rfl rfl) h.buddy_ready hp h0 hal hlt ((Buddy.setFrame_self ..).symm ▸ hst)
    exact hfd.refsFrom hM
  · exact refsFrom_setFrame id (Int.sub_le_self _ (by decide))

/-- `free` adds no reference. -/
theorem refsFrom_free (h : AllocInv s) (ptr : Addr) : RefsFrom s (free s ptr) := by
  unfold free
  by_cases h₁ : ¬ s.ready = true ∨ ptr = 0
  · rw [if_pos h₁]
    exact .refl s
  by_cases h₂ : InPool s.buddy ptr
  swap
  · rw [if_neg h₁, if_pos h₂]
    exact .refl s
  rw [if_neg h₁, if_neg (not_not.2 h₂)]
  simp only
  by_cases h₃ : s.buddy.memTotalPage ≤ addrToPageIdx s.buddy ptr
  · rw [if_pos h₃]
    exact .refl s
  rw [if_neg h₃]
  split
  · exact refsFrom_freeChunk h h₂ (by omega) ‹_›
  · exact refsFrom_freePage h h₂ (fun h => h₁ (.inr h)) (by omega) ‹_›
  · exact .refl s

end BareMetalOS.Memory
