import BareMetalOS.Memory.AllocatorPages

/-!
# `allocate`

`allocate` keeps every live block, and a pointer it returns is that of a new live block of
`blockBytes size` bytes (`allocate_spec`). The three ways to get there are a block of pages
(`Allocated.keeps`), a chunk of the free list (`popChunk_spec`), and a refill of the free list
before (`expandChunkPool_spec`).
-/

namespace BareMetalOS.Memory

variable {b b' : Buddy} {s s' : Allocator} {i i' j idx idx' c c' k n o q size : ℕ}
  {p a ptr page : Addr} {l : List Addr} {f : Frame}

/-! ## The size of a block -/

/-- The number of bytes of the block that serves a request: the least chunk size that fits, or else
the least power of two of pages. -/
def blockBytes (size : ℕ) : ℕ :=
  match (List.range chunkPoolCount).find? fun i => size ≤ gPoolSizes i with
  | some i => gPoolSizes i
  | none => 2 ^ roundupOrder ((size + pageSize - 1) / pageSize) * pageSize

theorem roundupLoop_spec (pages fuel order : ℕ) (h : pages ≤ 2 ^ (order + fuel)) :
    pages ≤ 2 ^ roundupLoop pages fuel (2 ^ order) order ∧
      ∀ j, order ≤ j → j < roundupLoop pages fuel (2 ^ order) order → 2 ^ j < pages := by
  induction fuel generalizing order with
  | zero => exact ⟨h, fun j h₁ h₂ => absurd h₂ (by simp only [roundupLoop]; omega)⟩
  | succ fuel ih =>
    rw [roundupLoop]
    split_ifs with hlt
    · rw [← pow_succ]
      obtain ⟨h₁, h₂⟩ := ih (order + 1) (by rwa [Nat.add_right_comm])
      refine ⟨h₁, fun j hj hj' => ?_⟩
      rcases eq_or_lt_of_le hj with rfl | hj
      · exact hlt
      · exact h₂ j hj hj'
    · exact ⟨by omega, fun j h₁ h₂ => by omega⟩

/-- `roundup_order` finds the least order with enough pages. -/
theorem roundupOrder_spec (pages : ℕ) :
    pages ≤ 2 ^ roundupOrder pages ∧ ∀ j < roundupOrder pages, 2 ^ j < pages := by
  obtain ⟨h₁, h₂⟩ := roundupLoop_spec pages pages 0 (by
    rw [Nat.zero_add]
    exact Nat.lt_two_pow_self.le)
  exact ⟨h₁, fun j hj => h₂ j (Nat.zero_le j) hj⟩

/-- A small request gets the least chunk that fits. -/
theorem blockBytes_small (h : size ≤ 2048) : ∃ i < chunkPoolCount, blockBytes size = gPoolSizes i ∧
    size ≤ gPoolSizes i ∧ ∀ j < i, gPoolSizes j < size := by
  rw [blockBytes]
  rcases hf : (List.range chunkPoolCount).find? fun i => decide (size ≤ gPoolSizes i) with _ | i
  · rw [List.find?_eq_none] at hf
    exact absurd h (by simpa [gPoolSizes] using hf 7 (by decide))
  · rw [List.find?_range_eq_some] at hf
    obtain ⟨h₁, h₂, h₃⟩ := hf
    exact ⟨i, List.mem_range.1 h₂, rfl, by simpa using h₁, fun j hj => by simpa using h₃ j hj⟩

theorem blockBytes_of_large (h : 2048 < size) :
    blockBytes size = 2 ^ roundupOrder ((size + pageSize - 1) / pageSize) * pageSize := by
  have hf : ((List.range chunkPoolCount).find? fun i => decide (size ≤ gPoolSizes i)) = none := by
    rw [List.find?_eq_none]
    intro i hi
    have hle : gPoolSizes i ≤ 2048 := by
      have hi := List.mem_range.1 hi
      simp only [chunkPoolCount] at hi
      interval_cases i <;> decide
    simp only [decide_eq_true_eq]
    omega
  rw [blockBytes, hf]

/-- A large request gets the least power of two of pages that fits. -/
theorem blockBytes_large (h : 2048 < size) : ∃ k, blockBytes size = 2 ^ k * pageSize ∧
    size ≤ 2 ^ k * pageSize ∧ ∀ j < k, 2 ^ j * pageSize < size := by
  obtain ⟨h₁, h₂⟩ := roundupOrder_spec ((size + pageSize - 1) / pageSize)
  refine ⟨_, blockBytes_of_large h, ?_, fun j hj => ?_⟩
  · simp only [pageSize] at *
    omega
  · have := h₂ j hj
    simp only [pageSize] at *
    omega

/-! ## Blocks of pages -/

theorem Allocated.frame_eq (h : Allocated b b' idx k) (hne : ¬ (b.frameArray j).IsFree) :
    b'.frameArray j = b.frameArray j := by
  by_cases hj : idx ≤ j ∧ j < idx + 2 ^ k
  · exact absurd (h.was_free j hj.1 hj.2) hne
  · rcases h.outside j (by omega) with heq | ⟨hf, -⟩
    · exact heq
    · exact absurd hf hne

/-- The heads after an allocation are the new one and those from before. -/
theorem Allocated.head_cases (h : Allocated b b' idx k)
    (hst : (b'.frameArray j).IsHead) :
    j = idx ∨ b'.frameArray j = b.frameArray j := by
  by_cases hj : idx ≤ j ∧ j < idx + 2 ^ k
  · rcases eq_or_lt_of_le hj.1 with heq | hlt
    · exact .inl heq.symm
    · simp [Frame.IsHead, h.marked.tail j hlt hj.2] at hst
  · rcases h.outside j (by omega) with heq | ⟨-, hf, -⟩
    · exact .inr heq
    · exact absurd hst hf.not_isHead

theorem Allocated.lt (h : Allocated b b' idx k) : idx < b.memTotalPage := by
  have := h.le
  have := Nat.two_pow_pos k
  omega

theorem Allocated.idx_free (h : Allocated b b' idx k) : (b.frameArray idx).IsFree :=
  h.was_free idx le_rfl (by have := Nat.two_pow_pos k; omega)

theorem Allocated.reserved_iff (h : Allocated b b' idx k) (j : ℕ) :
    (b'.frameArray j).state = .reserved ↔ (b.frameArray j).state = .reserved := by
  constructor
  · intro hst
    rcases h.head_cases (.inr (.inr hst)) with rfl | heq
    · simp [h.marked.head] at hst
    · rw [← heq]
      exact hst
  · intro hst
    rw [h.frame_eq fun hf => hf.ne.2.2 hst]
    exact hst

theorem Allocated.alloc_not_live (h : AllocInv s) (ha : Allocated s.buddy b' idx k) (n : ℕ) :
    ¬ Live s (pageToAddr s.buddy idx) n := by
  intro hl
  have hst := (hl.pageIdx h).2
  rw [addrToPageIdx_pageToAddr h.pool ha.lt] at hst
  have := ha.idx_free.ne
  rcases hst with hst | hst <;> simp_all

/-- An allocation of pages keeps the chunk layer and every live block. -/
theorem Allocated.keeps (h : AllocInv s) (ha : Allocated s.buddy b' idx k) :
    Keeps s { s with buddy := b' } none := by
  refine ⟨h.setBuddy ha.inv ha.pool ?_ ?_, ha.pool, ha.reserved_iff, fun p n _ hl => ?_⟩
  · rintro j (hst | hst)
    · rcases ha.head_cases (.inr (.inl hst)) with rfl | heq
      · simp [ha.marked.head] at hst
      · simp [heq]
    · rw [ha.frame_eq fun hf => hf.ne.2.1 hst]
      exact ⟨rfl, rfl, rfl⟩
  · intro j hlt hst
    rcases ha.head_cases (.inl hst) with rfl | heq
    · rw [ha.cow]
    · rw [heq] at hst ⊢
      exact h.cow j (by rw [← ha.pool.total]; exact hlt) hst
  · refine hl.congr h ha.pool (fun j hj => ?_) fun i hmem => hmem
    subst hj
    rw [SameBlock, ha.frame_eq]
    · exact ⟨⟨rfl, rfl⟩, rfl⟩
    · intro hf
      rcases (hl.pageIdx h).2 with hst | hst
      · exact hf.ne.1 hst
      · exact hf.ne.2.1 hst

/-! ## Chunks -/

theorem mem_pushChunks (page : Addr) (chunkSize : ℕ) (l : List Addr) (n : ℕ) :
    a ∈ pushChunks page chunkSize l n ↔ a ∈ l ∨ ∃ c < n, a = chunkAt page chunkSize c := by
  induction n with
  | zero => simp [pushChunks]
  | succ n ih =>
    rw [pushChunks, List.mem_cons, ih]
    constructor
    · rintro (rfl | h | ⟨c, hc, rfl⟩)
      · exact .inr ⟨n, by omega, rfl⟩
      · exact .inl h
      · exact .inr ⟨c, by omega, rfl⟩
    · rintro (h | ⟨c, hc, rfl⟩)
      · exact .inr (.inl h)
      · rcases Nat.lt_succ_iff_lt_or_eq.1 hc with hc | rfl
        · exact .inr (.inr ⟨c, hc, rfl⟩)
        · exact .inl rfl

theorem nodup_pushChunks {chunkSize n : ℕ}
    (hinj : ∀ c < n, ∀ c' < n, chunkAt page chunkSize c = chunkAt page chunkSize c' → c = c') :
    (pushChunks page chunkSize [] n).Nodup := by
  induction n with
  | zero => exact List.nodup_nil
  | succ n ih =>
    rw [pushChunks, List.nodup_cons, mem_pushChunks]
    refine ⟨?_, ih fun c hc c' hc' => hinj c (by omega) c' (by omega)⟩
    rintro (h | ⟨c, hc, heq⟩)
    · exact absurd h List.not_mem_nil
    · have := hinj n (by omega) c (by omega) heq
      omega

/-- The first chunk of the free list is taken: it becomes live. -/
theorem popChunk_spec (h : AllocInv s) (hi : i < chunkPoolCount)
    (hne : (s.gPools i).freeList ≠ []) :
    Keeps s (popChunk s i).2 none ∧ Live (popChunk s i).2 (popChunk s i).1 (gPoolSizes i) ∧
      ∀ n, ¬ Live s (popChunk s i).1 n := by
  obtain ⟨ck, l, hl⟩ := List.exists_cons_of_ne_nil hne
  obtain ⟨idx, c, hlt, hst, hm, hc, rfl⟩ := h.freeList i hi ck (by simp [hl])
  have hnd := h.nodup i hi
  rw [hl, List.nodup_cons] at hnd
  have hidx := addrToPageIdx_chunkAddr h.pool hlt hi hc
  set b' := s.buddy.setFrame idx { s.buddy.frameArray idx with
    refCount := (s.buddy.frameArray idx).refCount + 1 } with hb'
  have hpop : popChunk s i =
      (chunkAddr s.buddy i idx c, { s.setFreeList i l with buddy := b' }) := by
    simp only [popChunk, hl, List.headD_cons, List.tail_cons, Allocator.setFreeList]
    rw [hidx]
  have hframe : ∀ j, SameBlock s.buddy.frameArray b'.frameArray j ∧
      (b'.frameArray j).metaPoolIdx = (s.buddy.frameArray j).metaPoolIdx ∧
      (b'.frameArray j).cowRefCount = (s.buddy.frameArray j).cowRefCount := fun j => by
    by_cases hj : j = idx
    · subst hj
      simp [hb', SameBlock]
    · simp [hb', Buddy.setFrame_of_ne _ _ hj, SameBlock]
  have hsub : ∀ {a}, a ∈ l → a ∈ (s.gPools i).freeList := fun ha => by
    rw [hl]
    exact List.mem_cons_of_mem _ ha
  have hu : ChunkUpdate s b' i idx l := by
    refine ⟨hlt, hi, h.inv.setFrame rfl rfl, samePool_setFrame _ _ _, fun j hj _ => ?_,
      fun j hj hst => ?_, fun _ => hm, fun _ => ⟨(hframe idx).2.1.trans hm, ?_⟩,
      fun _ => h.chunkNonzero idx hlt hst, hnd.2,
      fun a ha => .inl (hsub ha), fun _ _ _ => (hframe idx).1.1.trans hst,
      fun j c' hj hjlt hc' => ?_⟩
    · rw [hb', Buddy.setFrame_of_ne _ _ hj]
      exact ⟨rfl, rfl, rfl⟩
    · obtain ⟨⟨h₁, -⟩, -, h₂⟩ := hframe j
      exact (h.cow j hj (h₁.symm.trans hst)).trans h₂.ge
    · -- the page of the chunk has one more live chunk
      obtain ⟨i', -, hm', hr⟩ := h.chunkPage idx hlt hst
      obtain rfl : i = i' := by exact_mod_cast hm.symm.trans hm'
      have hins : ((Finset.range (pageSize / gPoolSizes i)).filter
          fun c => chunkAddr s.buddy i idx c ∉ l) = insert c (liveChunks s i idx) := by
        ext c'
        simp only [liveChunks, Finset.mem_filter, Finset.mem_insert, Finset.mem_range, hl,
          List.mem_cons]
        constructor
        · rintro ⟨hc', hn⟩
          refine or_iff_not_imp_left.2 fun hcc => ⟨hc', ?_⟩
          rintro (heq | hmem)
          · exact hcc (chunkAddr_inj h.pool hlt hlt hi hc' hc heq).2
          · exact hn hmem
        · rintro (rfl | ⟨hc', hn⟩)
          · exact ⟨hc, hnd.1⟩
          · exact ⟨hc', fun hmem => hn (.inr hmem)⟩
      have hnot : c ∉ liveChunks s i idx := by simp [liveChunks, hl]
      rw [hins, Finset.card_insert_of_notMem hnot, hb', Buddy.setFrame_self]
      push_cast
      exact congrArg (· + 1) hr
    · rw [hl, List.mem_cons, or_iff_right]
      exact fun heq => hj (chunkAddr_inj h.pool hjlt hlt hi hc' hc heq).1
  have hlist : ∀ i' a, a ∈ ((s.setFreeList i l).gPools i').freeList →
      a ∈ (s.gPools i').freeList := by
    intro i' a ha
    by_cases hii : i' = i
    · subst hii
      rw [s.setFreeList_self] at ha
      exact hsub ha
    · rwa [s.setFreeList_of_ne l hii] at ha
  rw [hpop]
  refine ⟨⟨h.update hu, hu.pool, fun j => ?_, fun q n _ hq => ?_⟩, ?_, fun n hn => ?_⟩
  · rw [(hframe j).1.1]
  · exact hq.congr h hu.pool (fun j _ => ⟨(hframe j).1, (hframe j).2.1⟩) fun i' => hlist i' q
  · refine .chunk (s := { s.setFreeList i l with buddy := b' }) hi hlt
      ((hframe idx).1.1.trans hst) ((hframe idx).2.1.trans hm) hc ?_
    simp only [s.setFreeList_self]
    exact hnd.1
  · exact h.not_live_of_mem hi (by rw [hl]; exact List.mem_cons_self) n hn

/-! ## Refilling a pool -/

/-- `expand_chunk_pool` on an empty free list: a page of the buddy system becomes a page of free
chunks, or nothing is added. -/
theorem expandChunkPool_spec (h : AllocInv s) (hi : i < chunkPoolCount)
    (hnil : (s.gPools i).freeList = []) :
    Keeps s (expandChunkPool s i).2 none ∧
      ((expandChunkPool s i).1 = true → ((expandChunkPool s i).2.gPools i).freeList ≠ []) := by
  unfold expandChunkPool
  simp only
  rcases buddyAllocPages_cases h.inv 0 with heq | ⟨idx, hp, ha⟩
  · rw [heq, if_pos rfl]
    exact ⟨.refl h none, fun h => by cases h⟩
  by_cases h0 : (buddyAllocPages s.buddy 0).1 = 0
  · rw [if_pos h0]
    exact ⟨ha.keeps h, fun h => by cases h⟩
  rw [if_neg h0]
  simp only
  set b₁ := (buddyAllocPages s.buddy 0).2 with hb₁
  have hidx : addrToPageIdx b₁ (buddyAllocPages s.buddy 0).1 = idx := by
    rw [hp, ← ha.pool.pageToAddr_eq]
    exact addrToPageIdx_pageToAddr (ha.pool.alignedPool h.pool) (by rw [ha.pool.total]; exact ha.lt)
  rw [hidx, hp, hnil, h.sizes i hi]
  set f : Frame := { b₁.frameArray idx with
    state := .allocChunkPool, metaPoolIdx := i, order := 0, refCount := 0 } with hf
  set l := pushChunks (pageToAddr s.buddy idx) (gPoolSizes i) [] (pageSize / gPoolSizes i) with hl
  have hmem : ∀ a, a ∈ l ↔ ∃ c < pageSize / gPoolSizes i, a = chunkAddr s.buddy i idx c := by
    intro a
    rw [hl, mem_pushChunks, or_iff_right List.not_mem_nil]
    rfl
  have hframe : ∀ j, j ≠ idx → (b₁.setFrame idx f).frameArray j = b₁.frameArray j :=
    fun j hj => b₁.setFrame_of_ne f hj
  have hpool : SamePool s.buddy (b₁.setFrame idx f) := ha.pool.trans (samePool_setFrame _ _ _)
  have hu : ChunkUpdate s (b₁.setFrame idx f) i idx l := by
    refine ⟨ha.lt, hi, ?_, hpool, fun j hj hst => ?_, fun j hj hst => ?_, fun hst => ?_,
      fun _ => ?_, fun _ => hp ▸ h0, ?_, fun a hal => .inr ((hmem a).1 hal),
      fun _ _ _ => by rw [Buddy.setFrame_self], fun j c hj hjlt hc => ?_⟩
    · have hlt : idx < b₁.memTotalPage := by
        rw [ha.pool.total]
        exact ha.lt
      exact ha.inv.toChunk hlt ha.marked.head ha.marked.order rfl rfl
    · rw [hframe j hj] at hst ⊢
      have heq : b₁.frameArray j = s.buddy.frameArray j := by
        rcases hst with hst | hst
        · exact (ha.head_cases (.inr (.inl hst))).resolve_left hj
        · exact ha.frame_eq fun hf => hf.ne.2.1 hst
      rw [heq]
      exact ⟨rfl, rfl, rfl⟩
    · have hji : j ≠ idx := by
        rintro rfl
        simp [hf] at hst
      rw [hframe j hji] at hst ⊢
      have heq := (ha.head_cases (.inl hst)).resolve_left hji
      rw [heq] at hst ⊢
      exact h.cow j hj hst
    · exact absurd hst ha.idx_free.ne.2.1
    · -- every chunk of the new page is free
      rw [Buddy.setFrame_self, Finset.filter_false_of_mem]
      · exact ⟨rfl, rfl⟩
      · intro c hc
        rw [not_not, hmem]
        exact ⟨c, Finset.mem_range.1 hc, rfl⟩
    · refine nodup_pushChunks fun c hc c' hc' heq => ?_
      exact (chunkAddr_inj h.pool ha.lt ha.lt hi hc hc' heq).2
    · rw [hnil, hmem]
      refine iff_of_false ?_ List.not_mem_nil
      rintro ⟨c', hc', heq⟩
      exact hj (chunkAddr_inj h.pool hjlt ha.lt hi hc hc' heq).1
  refine ⟨⟨h.update hu, hpool, fun j => ?_, fun q n _ hq => ?_⟩, fun _ hnil' => ?_⟩
  · by_cases hj : j = idx
    · subst hj
      have := ha.idx_free.ne.2.2
      simp [Allocator.setFreeList, hf, this]
    · rw [← ha.reserved_iff j, ← hframe j hj]
      rfl
  · obtain ⟨-, hst⟩ := hq.pageIdx h
    refine hq.congr h hpool (fun j hj => ?_) fun i' hmem' => ?_
    · subst hj
      have hnf : ¬ (s.buddy.frameArray (addrToPageIdx s.buddy q)).IsFree := fun hfree => by
        rcases hst with hst | hst
        · exact hfree.ne.1 hst
        · exact hfree.ne.2.1 hst
      have hne : addrToPageIdx s.buddy q ≠ idx := fun heq => hnf (heq ▸ ha.idx_free)
      have heq : (b₁.setFrame idx f).frameArray (addrToPageIdx s.buddy q) =
          s.buddy.frameArray (addrToPageIdx s.buddy q) := by
        rw [hframe _ hne, ha.frame_eq hnf]
      simp only [SameBlock, Allocator.setFreeList, heq, and_self]
    · by_cases hii : i' = i
      · -- a chunk of the new page was not live
        subst hii
        obtain ⟨c, hc, rfl⟩ := (hmem q).1 (by simpa using hmem')
        rw [addrToPageIdx_chunkAddr h.pool ha.lt hi hc] at hst
        have := ha.idx_free.ne
        rcases hst with hst | hst <;> simp_all
      · simpa [Allocator.setFreeList_of_ne _ _ hii] using hmem'
  · -- the page has at least one chunk
    have h0 : chunkAddr s.buddy i idx 0 ∈ l := by
      rw [hmem]
      refine ⟨0, ?_, rfl⟩
      have := Nat.div_mul_cancel (gPoolSizes_dvd hi)
      by_contra hle
      rw [Nat.eq_zero_of_not_pos hle, Nat.zero_mul] at this
      cases this
    rw [Allocator.setFreeList_self] at hnil'
    rw [show l = [] from hnil'] at h0
    exact absurd h0 List.not_mem_nil

/-! ## The whole function -/

/-- **`allocate` makes one new block and keeps the others.** -/
theorem allocate_spec (h : AllocInv s) (size : ℕ) :
    Keeps s (allocate s size).2 none ∧ ((allocate s size).1 ≠ 0 →
      Live (allocate s size).2 (allocate s size).1 (blockBytes size) ∧
      ∀ n, ¬ Live s (allocate s size).1 n) := by
  unfold allocate
  split_ifs with h₁ h₂
  · exact ⟨.refl h none, fun h => absurd rfl h⟩
  · -- a chunk
    have hfind : findPoolIndex s size =
        (List.range chunkPoolCount).find? fun i => size ≤ gPoolSizes i :=
      List.find?_congr fun i hi => by rw [h.sizes i (List.mem_range.1 hi)]
    have hbytes : blockBytes size = match findPoolIndex s size with
        | some i => gPoolSizes i
        | none => 2 ^ roundupOrder ((size + pageSize - 1) / pageSize) * pageSize := by
      rw [hfind]
      rfl
    rcases hf : findPoolIndex s size with _ | i
    · exact ⟨.refl h none, fun h => absurd rfl h⟩
    rw [hf] at hbytes
    simp only at hbytes ⊢
    have hi : i < chunkPoolCount := by
      rw [hfind, List.find?_range_eq_some] at hf
      exact List.mem_range.1 hf.2.1
    split_ifs with hnil hexp
    · obtain ⟨hk, hne⟩ := expandChunkPool_spec h hi hnil
      obtain ⟨hk', hl, hfresh⟩ := popChunk_spec hk.inv hi (hne hexp)
      refine ⟨hk.trans hk', fun _ => ⟨hbytes ▸ hl, fun n hn => hfresh n ?_⟩⟩
      exact hk.live _ n (by simp) hn
    · exact ⟨(expandChunkPool_spec h hi hnil).1, fun h => absurd rfl h⟩
    · obtain ⟨hk, hl, hfresh⟩ := popChunk_spec h hi hnil
      exact ⟨hk, fun _ => ⟨hbytes ▸ hl, hfresh⟩⟩
  · -- pages
    have hbytes := blockBytes_of_large (Nat.lt_of_not_le h₂)
    simp only
    rcases buddyAllocPages_cases h.inv (roundupOrder ((size + pageSize - 1) / pageSize)) with
      heq | ⟨idx, hp, ha⟩
    · rw [heq]
      exact ⟨.refl h none, fun h => absurd rfl h⟩
    · refine ⟨ha.keeps h, fun _ => ⟨?_, fun n => ?_⟩⟩
      · rw [hp, hbytes, ← ha.pool.pageToAddr_eq]
        exact .page (by simp only [ha.pool.total]; exact ha.lt) ha.marked.head ha.marked.order
      · rw [hp]
        exact ha.alloc_not_live h n

end BareMetalOS.Memory
