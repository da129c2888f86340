import BareMetalOS.Memory.AllocatorInvariant

/-!
# Pages between the two layers

What the dynamic allocator does to the buddy system: it stores frames (`Inv.setFrame`), it turns a
page it was given into a chunk page and back (`Inv.replace`), and it changes blocks that no chunk
pool owns (`AllocInv.setBuddy`). `Keeps s s' ptr` says that an operation kept the invariant, the
pool, the reserved pages and every live block but the one at `ptr`.
-/

namespace BareMetalOS.Memory

variable {b b' : Buddy} {s s' : Allocator} {i i' idx idx' c c' k n o q : ℕ} {p a ptr : Addr}
  {f : Frame} {l : List Addr} {ptr' : Option Addr}

theorem Frame.IsFree.ne (h : f.IsFree) :
    f.state ≠ .allocPageHead ∧ f.state ≠ .allocChunkPool ∧ f.state ≠ .reserved := by
  rcases h with h | h <;> simp [h]

/-- The page starts a block that is not free. -/
def Frame.IsHead (f : Frame) : Prop :=
  f.state = .allocPageHead ∨ f.state = .allocChunkPool ∨ f.state = .reserved

theorem Frame.IsFree.not_isHead (h : f.IsFree) : ¬ f.IsHead := by
  obtain ⟨h₁, h₂, h₃⟩ := h.ne
  exact not_or.2 ⟨h₁, not_or.2 ⟨h₂, h₃⟩⟩

/-! ## Stores to the frame array -/

@[simp]
theorem Buddy.setFrame_self (b : Buddy) (idx : ℕ) (f : Frame) :
    (b.setFrame idx f).frameArray idx = f :=
  Function.update_self ..

theorem Buddy.setFrame_of_ne (b : Buddy) (f : Frame) (h : idx' ≠ idx) :
    (b.setFrame idx f).frameArray idx' = b.frameArray idx' :=
  Function.update_of_ne h ..

theorem samePool_setFrame (b : Buddy) (idx : ℕ) (f : Frame) : SamePool b (b.setFrame idx f) :=
  ⟨rfl, rfl, rfl, rfl⟩

/-- A store that keeps the state and the order. -/
theorem Inv.setFrame (h : Inv b) (hst : f.state = (b.frameArray idx).state)
    (ho : f.order = (b.frameArray idx).order) : Inv (b.setFrame idx f) := by
  refine Hole.frames h fun j _ => ?_
  by_cases hj : j = idx
  · subst hj
    simp [SameBlock, hst, ho]
  · simp [SameBlock, Function.update_of_ne hj]

/-- A store that turns a block of one page into another such block. -/
theorem Inv.replace (h : Inv b) (hl : Tiled (IsBlock b.frameArray) 0 idx)
    (hr : Tiled (IsBlock b.frameArray) (idx + 1) b.memTotalPage)
    (hne : (b.frameArray idx).state ≠ .freeHead) (hne' : f.state ≠ .freeHead)
    (hB : IsBlock (b.setFrame idx f).frameArray idx 1) : Inv (b.setFrame idx f) := by
  have hsame : ∀ j, j ≠ idx → SameBlock b.frameArray (b.setFrame idx f).frameArray j := by
    intro j hj
    rw [SameBlock, b.setFrame_of_ne f hj]
    exact ⟨rfl, rfl⟩
  have hl' : Tiled (IsBlock (b.setFrame idx f).frameArray) 0 idx :=
    hl.congr fun c n _ hn hB => hB.congr fun j _ hj => hsame j (by omega)
  have hr' : Tiled (IsBlock (b.setFrame idx f).frameArray) (idx + 1) b.memTotalPage :=
    hr.congr fun c n hc _ hB => hB.congr fun j hj _ => hsame j (by omega)
  refine Hole.close (p := idx + 1)
    ⟨le_rfl, hl'.trans (.single one_pos hB), hr', fun k j => ?_, h.nodup, h.coalesced⟩
  refine (h.mem_iff k j).trans ?_
  by_cases hj : j = idx
  · subst hj
    simp only [FreeHead, Buddy.setFrame_self]
    exact iff_of_false (fun h => hne h.2.2.1) fun h => hne' h.2.2.1
  · obtain ⟨h₁, h₂⟩ := hsame j hj
    simp only [FreeHead, h₁, h₂]
    exact and_congr_left fun _ => by omega

/-- The tilings on the two sides of a chunk page, whose order is zero. -/
theorem tiled_at_chunk {fr : ℕ → Frame} {t : ℕ} (h : Tiled (IsBlock fr) 0 t) (hlt : idx < t)
    (hst : (fr idx).state = .allocChunkPool) :
    (fr idx).order = 0 ∧ Tiled (IsBlock fr) 0 idx ∧ Tiled (IsBlock fr) (idx + 1) t := by
  obtain ⟨c, n, hB, hcp, hpn, h₁, h₂⟩ := h.split (Nat.zero_le idx) hlt
  obtain rfl := hB.eq_of_head hcp hpn (by simp [hst]) (by simp [hst])
  cases hB with
  | reserved h' => simp [hst] at h'
  | free _ _ hM => exact absurd hM.head (by simp [hst])
  | alloc _ _ hM => exact absurd hM.head (by simp [hst])
  | chunk _ h0 => exact ⟨h0, h₁, h₂⟩

/-- An allocated page becomes a chunk page. -/
theorem Inv.toChunk (h : Inv b) (hlt : idx < b.memTotalPage)
    (hst : (b.frameArray idx).state = .allocPageHead) (ho : (b.frameArray idx).order = 0)
    (hf : f.state = .allocChunkPool) (hf0 : f.order = 0) : Inv (b.setFrame idx f) := by
  obtain ⟨k, -, -, hM, hl, hr⟩ := tiled_at_allocPageHead h.left (Nat.zero_le idx) hlt hst
  obtain rfl : k = 0 := by exact_mod_cast hM.order.symm.trans ho
  refine h.replace hl hr (by simp [hst]) (by simp [hf]) (.chunk ?_ ?_)
  · rw [b.setFrame_self, hf]
  · rw [b.setFrame_self, hf0]

/-- A chunk page becomes an allocated page. -/
theorem Inv.ofChunk (h : Inv b) (hlt : idx < b.memTotalPage)
    (hst : (b.frameArray idx).state = .allocChunkPool) (hf : f.state = .allocPageHead)
    (hf0 : f.order = (b.frameArray idx).order) : Inv (b.setFrame idx f) := by
  obtain ⟨h0, hl, hr⟩ := tiled_at_chunk h.left hlt hst
  refine h.replace hl hr (by simp [hst]) (by simp [hf]) ?_
  have hM : Marked (b.setFrame idx f).frameArray .allocPageHead .allocPageTail idx 0 := by
    refine ⟨by rw [b.setFrame_self, hf], by rw [b.setFrame_self, hf0, h0]; rfl, fun j h₁ h₂ => ?_⟩
    rw [pow_zero] at h₂
    omega
  exact .alloc (k := 0) (Nat.zero_le _) (one_dvd _) hM

/-! ## Changes that concern no chunk page -/

theorem SamePool.pageToAddr_eq (h : SamePool b b') (idx : ℕ) :
    pageToAddr b' idx = pageToAddr b idx := by
  rw [pageToAddr, pageToAddr, h.start]

theorem SamePool.chunkAddr_eq (h : SamePool b b') (i idx c : ℕ) :
    chunkAddr b' i idx c = chunkAddr b i idx c := by
  rw [chunkAddr, chunkAddr, h.pageToAddr_eq]

theorem SamePool.alignedPool (h : SamePool b b') (ha : AlignedPool b) : AlignedPool b' := by
  refine ⟨?_, ?_, ?_, ?_⟩
  · rw [h.start]
    exact ha.start
  · rw [h.size, h.total]
    exact ha.size
  · rw [h.total]
    exact ha.total
  · rw [h.total]
    exact ha.pos

/-- What an operation keeps: the invariant, the pool, the reserved pages, and every live block but
the one at `ptr`. -/
structure Keeps (s s' : Allocator) (ptr : Option Addr) : Prop where
  inv : AllocInv s'
  pool : SamePool s.buddy s'.buddy
  reserved : ∀ j, (s'.buddy.frameArray j).state = .reserved ↔
    (s.buddy.frameArray j).state = .reserved
  live : ∀ p n, ptr ≠ some p → Live s p n → Live s' p n

theorem Keeps.refl (h : AllocInv s) (ptr : Option Addr) : Keeps s s ptr :=
  ⟨h, .refl _, fun _ => Iff.rfl, fun _ _ _ hl => hl⟩

theorem Keeps.trans {s'' : Allocator} (h : Keeps s s' ptr') (h' : Keeps s' s'' ptr') :
    Keeps s s'' ptr' :=
  ⟨h'.inv, h.pool.trans h'.pool, fun j => (h'.reserved j).trans (h.reserved j),
    fun p n hp hl => h'.live p n hp (h.live p n hp hl)⟩

/-- A change of the buddy system that keeps the chunk pages keeps the chunk layer. -/
theorem AllocInv.setBuddy (h : AllocInv s) (hinv : Inv b') (hpool : SamePool s.buddy b')
    (hchunk : ∀ j, (b'.frameArray j).state = .allocChunkPool ∨
      (s.buddy.frameArray j).state = .allocChunkPool →
        (b'.frameArray j).state = (s.buddy.frameArray j).state ∧
        (b'.frameArray j).metaPoolIdx = (s.buddy.frameArray j).metaPoolIdx ∧
        (b'.frameArray j).refCount = (s.buddy.frameArray j).refCount)
    (hcow : ∀ j, j < b'.memTotalPage → (b'.frameArray j).state = .allocPageHead →
      1 ≤ (b'.frameArray j).cowRefCount) :
    AllocInv { s with buddy := b' } where
  inv := hinv
  pool := hpool.alignedPool h.pool
  ready := h.ready
  buddy_ready := hpool.ready.trans h.buddy_ready
  sizes := h.sizes
  chunkPage idx hlt hst := by
    obtain ⟨h₁, h₂, h₃⟩ := hchunk idx (.inl hst)
    obtain ⟨i, hi, hm, hr⟩ := h.chunkPage idx (by rw [← hpool.total]; exact hlt) (h₁.symm.trans hst)
    refine ⟨i, hi, h₂.trans hm, h₃.trans (hr.trans ?_)⟩
    simp only [liveChunks, hpool.chunkAddr_eq]
  nodup := h.nodup
  freeList i hi a ha := by
    obtain ⟨idx, c, hlt, hst, hm, hc, rfl⟩ := h.freeList i hi a ha
    obtain ⟨h₁, h₂, -⟩ := hchunk idx (.inr hst)
    refine ⟨idx, c, ?_, h₁.trans hst, h₂.trans hm, hc, (hpool.chunkAddr_eq i idx c).symm⟩
    rw [hpool.total]
    exact hlt
  chunkNonzero idx hlt hst := by
    rw [hpool.pageToAddr_eq]
    exact h.chunkNonzero idx (by rw [← hpool.total]; exact hlt)
      ((hchunk idx (.inl hst)).1.symm.trans hst)
  cow := hcow

/-- A live block survives where the frame of its page does, unless it is put on a free list. -/
theorem Live.congr (h : AllocInv s) (hl : Live s p n) (hpool : SamePool s.buddy s'.buddy)
    (hfr : ∀ j, j = addrToPageIdx s.buddy p → SameBlock s.buddy.frameArray s'.buddy.frameArray j ∧
      (s'.buddy.frameArray j).metaPoolIdx = (s.buddy.frameArray j).metaPoolIdx)
    (hp : ∀ i, p ∈ (s'.gPools i).freeList → p ∈ (s.gPools i).freeList) : Live s' p n := by
  cases hl with
  | @page idx k hlt hst ho =>
    obtain ⟨⟨h₁, h₂⟩, -⟩ := hfr idx (addrToPageIdx_pageToAddr h.pool hlt).symm
    rw [← hpool.pageToAddr_eq]
    exact .page (by rw [hpool.total]; exact hlt) (h₁.trans hst) (h₂.trans ho)
  | @chunk i idx c hi hlt hst hm hc hfree =>
    obtain ⟨⟨h₁, -⟩, h₂⟩ := hfr idx (addrToPageIdx_chunkAddr h.pool hlt hi hc).symm
    have hfree' := fun hmem => hfree (hp i hmem)
    rw [← hpool.chunkAddr_eq] at hfree' ⊢
    exact .chunk hi (by rw [hpool.total]; exact hlt) (h₁.trans hst) (h₂.trans hm) hc hfree'

/-- The page of a live block is allocated or a chunk page. -/
theorem Live.pageIdx (h : AllocInv s) (hl : Live s p n) :
    addrToPageIdx s.buddy p < s.buddy.memTotalPage ∧
      ((s.buddy.frameArray (addrToPageIdx s.buddy p)).state = .allocPageHead ∨
        (s.buddy.frameArray (addrToPageIdx s.buddy p)).state = .allocChunkPool) := by
  cases hl with
  | page hlt hst ho =>
    rw [addrToPageIdx_pageToAddr h.pool hlt]
    exact ⟨hlt, .inl hst⟩
  | chunk hi hlt hst hm hc hfree =>
    rw [addrToPageIdx_chunkAddr h.pool hlt hi hc]
    exact ⟨hlt, .inr hst⟩

/-- A chunk on a free list is not live. -/
theorem AllocInv.not_live_of_mem (h : AllocInv s) (hi : i < chunkPoolCount)
    (ha : a ∈ (s.gPools i).freeList) (n : ℕ) : ¬ Live s a n := by
  intro hn
  obtain ⟨idx, c, hlt, hst, hm, hc, hac⟩ := h.freeList i hi a ha
  have hidx := addrToPageIdx_chunkAddr h.pool hlt hi hc
  rw [← hac] at hidx
  cases hn with
  | @page idx' k hlt' hst' ho' =>
    rw [addrToPageIdx_pageToAddr h.pool hlt'] at hidx
    subst hidx
    simp [hst] at hst'
  | @chunk i' idx' c' hi' hlt' hst' hm' hc' hfree' =>
    rw [addrToPageIdx_chunkAddr h.pool hlt' hi' hc'] at hidx
    subst hidx
    obtain rfl : i' = i := by exact_mod_cast hm'.symm.trans hm
    exact hfree' ha

/-! ## Changes of one chunk page -/

@[simp]
theorem Allocator.setFreeList_self (s : Allocator) (i : ℕ) (l : List Addr) :
    (s.setFreeList i l).gPools i = { s.gPools i with freeList := l } :=
  Function.update_self ..

theorem Allocator.setFreeList_of_ne (s : Allocator) (l : List Addr) (h : i' ≠ i) :
    (s.setFreeList i l).gPools i' = s.gPools i' :=
  Function.update_of_ne h ..

theorem Allocator.setFreeList_chunkSize (s : Allocator) (i i' : ℕ) (l : List Addr) :
    ((s.setFreeList i l).gPools i').chunkSize = (s.gPools i').chunkSize := by
  by_cases h : i' = i
  · subst h
    rw [s.setFreeList_self]
  · rw [s.setFreeList_of_ne l h]

/-- The chunks of a page depend only on the free list. -/
theorem liveChunks_congr (hpool : SamePool s.buddy s'.buddy)
    (h : ∀ c < pageSize / gPoolSizes i, chunkAddr s.buddy i idx c ∈ (s'.gPools i).freeList ↔
      chunkAddr s.buddy i idx c ∈ (s.gPools i).freeList) :
    liveChunks s' i idx = liveChunks s i idx := by
  refine Finset.filter_congr fun c hc => ?_
  rw [hpool.chunkAddr_eq, h c (Finset.mem_range.1 hc)]

/-- A change that concerns the page `idx` of pool `i`: the other chunk pages keep their frames and
their part of the free list, which becomes `l`, and the page `idx` counts its live chunks or is no
chunk page any more. -/
structure ChunkUpdate (s : Allocator) (b' : Buddy) (i idx : ℕ) (l : List Addr) : Prop where
  lt : idx < s.buddy.memTotalPage
  pool_lt : i < chunkPoolCount
  inv : Inv b'
  pool : SamePool s.buddy b'
  chunk : ∀ j, j ≠ idx → (b'.frameArray j).state = .allocChunkPool ∨
    (s.buddy.frameArray j).state = .allocChunkPool →
      (b'.frameArray j).state = (s.buddy.frameArray j).state ∧
      (b'.frameArray j).metaPoolIdx = (s.buddy.frameArray j).metaPoolIdx ∧
      (b'.frameArray j).refCount = (s.buddy.frameArray j).refCount
  cow : ∀ j, j < s.buddy.memTotalPage → (b'.frameArray j).state = .allocPageHead →
    1 ≤ (b'.frameArray j).cowRefCount
  meta_before : (s.buddy.frameArray idx).state = .allocChunkPool →
    (s.buddy.frameArray idx).metaPoolIdx = i
  meta_after : (b'.frameArray idx).state = .allocChunkPool →
    (b'.frameArray idx).metaPoolIdx = i ∧ (b'.frameArray idx).refCount =
      (((Finset.range (pageSize / gPoolSizes i)).filter
        fun c => chunkAddr s.buddy i idx c ∉ l).card : ℤ)
  ne_zero : (b'.frameArray idx).state = .allocChunkPool → pageToAddr s.buddy idx ≠ 0
  nodup : l.Nodup
  mem_old : ∀ a ∈ l, a ∈ (s.gPools i).freeList ∨
    ∃ c < pageSize / gPoolSizes i, a = chunkAddr s.buddy i idx c
  mem_page : ∀ c < pageSize / gPoolSizes i, chunkAddr s.buddy i idx c ∈ l →
    (b'.frameArray idx).state = .allocChunkPool
  mem_other : ∀ j c, j ≠ idx → j < s.buddy.memTotalPage → c < pageSize / gPoolSizes i →
    (chunkAddr s.buddy i j c ∈ l ↔ chunkAddr s.buddy i j c ∈ (s.gPools i).freeList)

/-- Such a change keeps the invariant. -/
theorem AllocInv.update (h : AllocInv s) (hu : ChunkUpdate s b' i idx l) :
    AllocInv { s.setFreeList i l with buddy := b' } := by
  set s' : Allocator := { s.setFreeList i l with buddy := b' } with hs'
  have hself : s'.gPools i = { s.gPools i with freeList := l } := s.setFreeList_self i l
  have hne : ∀ {i'}, i' ≠ i → s'.gPools i' = s.gPools i' := fun h => s.setFreeList_of_ne l h
  have htotal : s'.buddy.memTotalPage = s.buddy.memTotalPage := hu.pool.total
  refine ⟨hu.inv, hu.pool.alignedPool h.pool, h.ready, hu.pool.ready.trans h.buddy_ready,
    fun i' hi' => (s.setFreeList_chunkSize i i' l).trans (h.sizes i' hi'), fun j hj hst => ?_,
    fun i' hi' => ?_, fun i' hi' a ha => ?_, fun j hj hst => ?_,
    fun j hj => hu.cow j (by rwa [← htotal])⟩
  · rw [htotal] at hj
    by_cases hji : j = idx
    · subst hji
      obtain ⟨hm, hr⟩ := hu.meta_after hst
      refine ⟨i, hu.pool_lt, hm, ?_⟩
      simp only [liveChunks, hs', s.setFreeList_self, hu.pool.chunkAddr_eq]
      exact hr
    · obtain ⟨h₁, h₂, h₃⟩ := hu.chunk j hji (.inl hst)
      obtain ⟨i', hi', hm, hr⟩ := h.chunkPage j hj (h₁.symm.trans hst)
      refine ⟨i', hi', h₂.trans hm, h₃.trans (hr.trans ?_)⟩
      refine congrArg _ (congrArg _ (liveChunks_congr hu.pool fun c hc => ?_).symm)
      by_cases hii : i' = i
      · subst hii
        rw [hself]
        exact hu.mem_other j c hji hj hc
      · rw [hne hii]
  · by_cases hii : i' = i
    · subst hii
      rw [hself]
      exact hu.nodup
    · rw [hne hii]
      exact h.nodup i' hi'
  · -- an entry of the free list is a chunk of another page, which has not changed, or of this one
    have hpage : ∀ c < pageSize / gPoolSizes i, chunkAddr s.buddy i idx c ∈ l →
        ∃ idx' c', idx' < s'.buddy.memTotalPage ∧
          (s'.buddy.frameArray idx').state = .allocChunkPool ∧
          (s'.buddy.frameArray idx').metaPoolIdx = (i : ℤ) ∧ c' < pageSize / gPoolSizes i ∧
          chunkAddr s.buddy i idx c = chunkAddr s'.buddy i idx' c' := fun c hc hmem =>
      ⟨idx, c, by rw [htotal]; exact hu.lt, hu.mem_page c hc hmem,
        (hu.meta_after (hu.mem_page c hc hmem)).1, hc, (hu.pool.chunkAddr_eq i idx c).symm⟩
    have hold : ∀ idx' c', idx' ≠ idx → idx' < s.buddy.memTotalPage →
        (s.buddy.frameArray idx').state = .allocChunkPool →
        (s.buddy.frameArray idx').metaPoolIdx = i' → c' < pageSize / gPoolSizes i' →
        a = chunkAddr s.buddy i' idx' c' → ∃ idx c, idx < s'.buddy.memTotalPage ∧
          (s'.buddy.frameArray idx).state = .allocChunkPool ∧
          (s'.buddy.frameArray idx).metaPoolIdx = (i' : ℤ) ∧ c < pageSize / gPoolSizes i' ∧
          a = chunkAddr s'.buddy i' idx c := by
      intro idx' c' hidx hlt hst hm hc hac
      obtain ⟨h₁, h₂, -⟩ := hu.chunk idx' hidx (.inr hst)
      exact ⟨idx', c', by rw [htotal]; exact hlt, h₁.trans hst, h₂.trans hm, hc,
        hac.trans (hu.pool.chunkAddr_eq i' idx' c').symm⟩
    by_cases hii : i' = i
    · subst hii
      rw [hself] at ha
      rcases hu.mem_old a ha with hmem | ⟨c, hc, rfl⟩
      · obtain ⟨idx', c', hlt, hst, hm, hc, rfl⟩ := h.freeList i' hi' a hmem
        by_cases hidx : idx' = idx
        · subst hidx
          exact hpage c' hc ha
        · exact hold idx' c' hidx hlt hst hm hc rfl
      · exact hpage c hc ha
    · rw [hne hii] at ha
      obtain ⟨idx', c', hlt, hst, hm, hc, hac⟩ := h.freeList i' hi' a ha
      refine hold idx' c' (fun hidx => hii ?_) hlt hst hm hc hac
      subst hidx
      exact_mod_cast hm.symm.trans (hu.meta_before hst)
  · rw [hs', hu.pool.pageToAddr_eq]
    by_cases hji : j = idx
    · subst hji
      exact hu.ne_zero hst
    · exact h.chunkNonzero j (by rwa [← htotal]) ((hu.chunk j hji (.inl hst)).1.symm.trans hst)

end BareMetalOS.Memory
