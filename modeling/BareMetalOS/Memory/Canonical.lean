import BareMetalOS.Foundations.Dyadic
import BareMetalOS.Memory.BuddyRuns
import BareMetalOS.Memory.Blocks

/-!
# The free lists are canonical

The free blocks are the only decomposition of the free pages into aligned blocks without two free
buddies (`Inv.dyadic`), so the free pages alone determine the free lists (`Inv.freeArea_congr`).
When every allocation has been freed, the free pages are those that are not reserved, as after
`buddy_init` (`ExactHistory.isFree_iff`); for this a chunk page must not outlive its last chunk
(`ChunkPagesUsed`).
-/

namespace BareMetalOS.Memory

variable {b b' : Buddy} {s s' : Allocator} {i j idx c k n size : ℕ} {p ptr : Addr} {r : ℤ}

/-! ## Free pages determine the free lists -/

theorem Inv.mem_freeArea (h : Inv b) : idx ∈ b.freeArea k ↔ FreeHead b idx k :=
  (h.mem_iff k idx).trans (and_iff_right (by omega))

/-- A free page lies in a free block. -/
theorem Inv.exists_freeBlock (h : Inv b) (hp : j < b.memTotalPage) (hf : (b.frameArray j).IsFree) :
    ∃ k a, a ∈ b.freeArea k ∧ a ≤ j ∧ j < a + 2 ^ k := by
  obtain ⟨a, n, hB, hap, hpn, -, hright⟩ := h.left.split (Nat.zero_le j) hp
  have hend := hright.le
  cases hB with
  | reserved hst =>
    obtain rfl : a = j := by omega
    exact absurd hst hf.ne.2.2
  | @free k _ _ hM =>
    have hpos := Nat.two_pow_pos k
    exact ⟨k, a, h.mem_freeArea.2 ⟨by omega, hM.head, hM.order⟩, hap, hpn⟩
  | alloc _ _ hM =>
    exfalso
    rcases eq_or_lt_of_le hap with rfl | hlt
    · exact hf.ne.1 hM.head
    · have := hM.tail j hlt hpn
      rcases hf with hf | hf <;> simp [hf] at this
  | chunk hst =>
    obtain rfl : a = j := by omega
    exact absurd hst hf.ne.2.1

/-- The pages of a block on a free list. -/
theorem Inv.freeBlock (h : Inv b) (hmem : idx ∈ b.freeArea k) :
    k ≤ buddyMaxOrder ∧ 2 ^ k ∣ idx ∧ Marked b.frameArray .freeHead .freeTail idx k ∧
      idx + 2 ^ k ≤ b.memTotalPage := by
  obtain ⟨hlt, hst, ho⟩ := h.mem_freeArea.1 hmem
  obtain ⟨hk, hd, hM, -, hright⟩ := tiled_at_freeHead h.left (Nat.zero_le idx) hlt hst ho
  exact ⟨hk, hd, hM, hright.le⟩

/-- The free lists decompose the free pages. -/
theorem Inv.dyadic (h : Inv b) :
    Dyadic buddyMaxOrder (fun j => j < b.memTotalPage ∧ (b.frameArray j).IsFree)
      fun k a => a ∈ b.freeArea k where
  le hmem := (h.freeBlock hmem).1
  dvd hmem := (h.freeBlock hmem).2.1
  sub hmem ha hp := by
    obtain ⟨-, -, hM, hend⟩ := h.freeBlock hmem
    exact ⟨by omega, hM.isFree ha hp⟩
  cover hp := h.exists_freeBlock hp.1 hp.2
  disjoint hmem hmem' ha hp ha' hp' := by
    obtain ⟨-, -, hM, -⟩ := h.freeBlock hmem
    obtain ⟨-, -, hM', -⟩ := h.freeBlock hmem'
    obtain rfl := hM.eq_of_mem hM' ha hp ha' hp' (by simp) (by simp)
    exact ⟨by exact_mod_cast hM.order.symm.trans hM'.order, rfl⟩
  merged hk hmem hmem' := h.coalesced _ hk _ hmem hmem'

/-- **The free pages determine the free lists.** -/
theorem Inv.freeArea_congr (h : Inv b) (h' : Inv b')
    (hfree : ∀ j, j < b.memTotalPage ∧ (b.frameArray j).IsFree ↔
      j < b'.memTotalPage ∧ (b'.frameArray j).IsFree) (k idx : ℕ) :
    idx ∈ b.freeArea k ↔ idx ∈ b'.freeArea k := by
  have hd := h.dyadic
  rw [show (fun j => j < b.memTotalPage ∧ (b.frameArray j).IsFree) =
    fun j => j < b'.memTotalPage ∧ (b'.frameArray j).IsFree from
      funext fun j => propext (hfree j)] at hd
  exact hd.unique h'.dyadic k idx

/-! ## Chunk pages are in use -/

/-- Every chunk page has a live chunk. -/
def ChunkPagesUsed (s : Allocator) : Prop :=
  ∀ idx < s.buddy.memTotalPage, (s.buddy.frameArray idx).state = .allocChunkPool →
    ∃ p, addrToPageIdx s.buddy p = idx ∧ blocks s p ≠ none

theorem SameUse.chunk {f f' : Frame} (h : SameUse f f') (hst : f'.state = .allocChunkPool) :
    f.state = .allocChunkPool := by
  rcases h with ⟨h₁, -⟩ | ⟨-, hu⟩
  · exact h₁.symm.trans hst
  · exact absurd (.inr hst) hu

/-- An operation keeps the chunk pages in use if it makes none, but for the one of a new block. -/
theorem ChunkPagesUsed.of_update (hu : ChunkPagesUsed s) (hpool : SamePool s.buddy s'.buddy)
    (hblocks : blocks s' = Function.update (blocks s) p (some (n, r)))
    (hchunk : ∀ j < s.buddy.memTotalPage, (s'.buddy.frameArray j).state = .allocChunkPool →
      (s.buddy.frameArray j).state = .allocChunkPool ∨ j = addrToPageIdx s.buddy p) :
    ChunkPagesUsed s' := by
  intro j hj hst
  rw [hpool.total] at hj
  rcases hchunk j hj hst with hold | rfl
  · obtain ⟨q, hq, hqb⟩ := hu j hj hold
    refine ⟨q, (hpool.addrToPageIdx_eq q).trans hq, ?_⟩
    rw [hblocks]
    by_cases hqp : q = p
    · rw [hqp, Function.update_self]
      simp
    · rwa [Function.update_of_ne hqp]
  · refine ⟨p, hpool.addrToPageIdx_eq p, ?_⟩
    rw [hblocks, Function.update_self]
    simp

theorem popChunk_mem (hne : (s.gPools i).freeList ≠ []) :
    (popChunk s i).1 ∈ (s.gPools i).freeList := by
  obtain ⟨ck, l, hl⟩ := List.exists_cons_of_ne_nil hne
  simp [popChunk, hl]

theorem popChunk_chunk (h : ((popChunk s i).2.buddy.frameArray j).state = .allocChunkPool) :
    (s.buddy.frameArray j).state = .allocChunkPool :=
  (sameUse_setRefCount s.buddy _ j _).chunk h

theorem allocate_used (h : AllocInv s) (hr : RealPool s.buddy) (hu : ChunkPagesUsed s) (size : ℕ) :
    ChunkPagesUsed (allocate s size).2 := by
  have hk := (allocate_spec h size).1
  by_cases hbad : ¬ s.ready ∨ size = 0 ∨ maxAllocSize < size
  · unfold allocate
    rwa [if_pos hbad]
  by_cases hsize : size ≤ 2048
  · obtain ⟨i, hi, -, heq⟩ := allocate_small h hsize fun h0 => hbad (.inr (.inl h0))
    rw [heq] at hk ⊢
    by_cases hnil : (s.gPools i).freeList = []
    · rw [if_pos hnil] at hk ⊢
      obtain ⟨hk', hne⟩ := expandChunkPool_spec h hi hnil
      rcases expandChunkPool_cases h hr hi hnil with hexp | ⟨idx, b₁, hexp, hf⟩
      · rw [hexp]
        exact hu
      · rw [if_pos hexp] at hk ⊢
        have hblocks := popChunk_blocks hk'.inv hi (hne hexp)
        rw [hf.blocks_eq h hk'.inv hi hk'.pool hnil] at hblocks
        refine hu.of_update hk.pool hblocks fun j hj hst => ?_
        by_cases hji : j = idx
        · -- the new page holds the new chunk
          obtain ⟨c, hc, heq⟩ := (hf.mem _).1 (popChunk_mem (hne hexp))
          rw [heq, addrToPageIdx_chunkAddr h.pool hf.alloc.lt hi hc]
          exact .inr hji
        · exact .inl ((hf.sameUse hji).chunk (popChunk_chunk hst))
    · rw [if_neg hnil] at hk ⊢
      exact hu.of_update hk.pool (popChunk_blocks h hi hnil)
        fun j _ hst => .inl (popChunk_chunk hst)
  · revert hk
    unfold allocate
    rw [if_neg hbad, if_neg hsize]
    simp only
    intro hk
    rcases buddyAllocPages_cases h.inv (roundupOrder ((size + pageSize - 1) / pageSize)) with
      heq | ⟨idx, hp, ha⟩
    · rw [heq]
      exact hu
    · refine hu.of_update hk.pool (ha.blocks_eq h).2 fun j _ hst => ?_
      by_cases hji : j = idx
      · subst hji
        rw [ha.marked.head] at hst
        cases hst
      · exact .inl ((ha.sameUse hji).chunk hst)

/-- Freeing a block keeps the chunk pages in use. -/
theorem free_used (h : AllocInv s) (hr : RealPool s.buddy) (hu : ChunkPagesUsed s)
    (hb : blocks s p = some (n, r)) : ChunkPagesUsed (free s p) := by
  have hk := free_spec h p
  have hblocks := free_blocks h hr hb
  obtain ⟨hl, hrefs⟩ := (blocks_eq_some h).1 hb
  -- a chunk page that was one before and is not that of `p` keeps its live chunks
  have hold : ∀ j < s.buddy.memTotalPage, (s.buddy.frameArray j).state = .allocChunkPool →
      j ≠ addrToPageIdx s.buddy p →
      ∃ q, addrToPageIdx (free s p).buddy q = j ∧ blocks (free s p) q ≠ none := by
    intro j hj hst hne
    obtain ⟨q, hq, hqb⟩ := hu j hj hst
    refine ⟨q, (hk.pool.addrToPageIdx_eq q).trans hq, ?_⟩
    rwa [hblocks, Function.update_of_ne]
    rintro rfl
    exact hne hq.symm
  intro j hj hst
  rw [hk.pool.total] at hj
  rw [free_of_live h hr hl] at hst
  cases hl with
  | @page idx k hlt hst' ho =>
    have hidx := addrToPageIdx_pageToAddr h.pool hlt
    rw [hidx, hst', if_neg (by simp)] at hst
    have hchunk : (s.buddy.frameArray j).state = .allocChunkPool ∧ j ≠ idx := by
      by_cases hcow : (s.buddy.frameArray idx).cowRefCount = 1
      · obtain ⟨b', heq, hfree, hsame⟩ := freePage_last h hr hlt hst' hcow
        rw [heq] at hst
        have hji : j ≠ idx := by
          rintro rfl
          exact hfree.ne.2.1 hst
        exact ⟨(hsame j hji).chunk hst, hji⟩
      · rw [freePage_shared h hr hlt hcow] at hst
        have hji : j ≠ idx := by
          rintro rfl
          rw [Buddy.setFrame_self, hst'] at hst
          cases hst
        rw [Buddy.setFrame_of_ne _ _ hji] at hst
        exact ⟨hst, hji⟩
    exact hold j hj hchunk.1 (by rw [hidx]; exact hchunk.2)
  | @chunk i idx c hi hlt hst' hm hc hfree =>
    have hidx := addrToPageIdx_chunkAddr h.pool hlt hi hc
    set ptr := chunkAddr s.buddy i idx c with hptr
    have hl : Live s ptr (gPoolSizes i) := .chunk hi hlt hst' hm hc hfree
    have hu' := chunkUpdate_push h hi hlt hst' hm hc hfree
    have hpush : ∀ j, ((pushed s i idx ptr).buddy.frameArray j).state = .allocChunkPool →
        (s.buddy.frameArray j).state = .allocChunkPool := fun j =>
      (sameUse_setRefCount s.buddy idx j _).chunk
    have heq := freeChunk_eq h hr hi hlt hm hc hfree (hl.inPool h hr).1
    rw [hidx, if_pos hst', heq] at hst
    split_ifs at hst with hz
    · -- the page of the chunk was returned
      have hret := (returnPage_blocks (h.update hu') (hr.of_samePool hu'.pool) hi hlt
        (by simp only [Buddy.setFrame_self]; exact hst')
        (by simp only [Buddy.setFrame_self]; exact hm)
        (by simp only [Buddy.setFrame_self]; exact hz)).2 j hst
      exact hold j hj (hpush j hret.1) (by rw [hidx]; exact hret.2)
    · by_cases hji : j = idx
      · -- the page of the chunk still has a live one
        subst hji
        have hinv : AllocInv (pushed s i j ptr) := h.update hu'
        have hfree_eq : free s ptr = pushed s i j ptr := by
          rw [free_of_live h hr hl, hidx, if_pos hst', heq, if_neg hz]
        obtain ⟨i', hi', hm', hcard⟩ := hinv.chunkPage j hj hst
        have hrc : ((pushed s i j ptr).buddy.frameArray j).refCount ≠ 0 := by
          simpa only [pushed, Buddy.setFrame_self] using hz
        rw [hcard] at hrc
        obtain ⟨c', hc'⟩ := Finset.card_pos.1 (Nat.pos_of_ne_zero fun h0 => hrc (by rw [h0]; rfl))
        rw [liveChunks, Finset.mem_filter, Finset.mem_range] at hc'
        rw [hfree_eq]
        refine ⟨chunkAddr (pushed s i j ptr).buddy i' j c',
          addrToPageIdx_chunkAddr hinv.pool hj hi' hc'.1, fun hnone => ?_⟩
        exact blocks_eq_none.1 hnone _ (.chunk hi' hj hst hm' hc'.1 hc'.2)
      · exact hold j hj (hpush j hst) (by rwa [hidx])

/-! ## Histories -/

/-- The map of blocks is the list of live allocations. -/
structure ExactHistory (h : History) : Prop extends HistoryInv h where
  real : RealPool h.alloc.buddy
  used : ChunkPagesUsed h.alloc
  mem_iff : ∀ p, p ∈ h.live.map Prod.fst ↔ blocks h.alloc p ≠ none
  single : ∀ p n r, blocks h.alloc p = some (n, r) → r = 1

theorem ExactHistory.allocate {h : History} (hh : ExactHistory h) (size : ℕ) :
    ExactHistory ((AllocOp.allocate size).step h) := by
  obtain ⟨hinv, hpool, -⟩ := hh.toHistoryInv.step (.allocate size)
  refine ⟨hinv, hh.real.of_samePool hpool, allocate_used hh.inv hh.real hh.used size, fun p => ?_,
    fun p n r hp => ?_⟩
  · simp only [AllocOp.step]
    rcases allocate_blocks hh.inv hh.real size with ⟨h0, hb⟩ | ⟨h0, -, hb⟩
    · rw [if_pos h0, hb]
      exact hh.mem_iff p
    · rw [if_neg h0, hb, List.map_cons, List.mem_cons, hh.mem_iff]
      by_cases hp : p = (Memory.allocate h.alloc size).1
      · simp [hp]
      · simp [hp]
  · simp only [AllocOp.step] at hp
    rcases allocate_blocks hh.inv hh.real size with ⟨h0, hb⟩ | ⟨h0, -, hb⟩
    · rw [hb] at hp
      exact hh.single p n r hp
    · rw [hb] at hp
      by_cases hpp : p = (Memory.allocate h.alloc size).1
      · rw [hpp, Function.update_self] at hp
        simp only [Option.some.injEq, Prod.mk.injEq] at hp
        exact hp.2.symm
      · rw [Function.update_of_ne hpp] at hp
        exact hh.single p n r hp

theorem ExactHistory.free {h : History} (hh : ExactHistory h) (i : ℕ) :
    ExactHistory ((AllocOp.free i).step h) := by
  obtain ⟨hinv, hpool, -⟩ := hh.toHistoryInv.step (.free i)
  revert hinv hpool
  simp only [AllocOp.step]
  rcases hi : h.live[i]? with _ | e
  · exact fun _ _ => hh
  intro hinv hpool
  obtain ⟨hlt, hget⟩ := List.getElem?_eq_some_iff.1 hi
  have hmem : e.1 ∈ h.live.map Prod.fst := List.mem_map_of_mem (hget ▸ List.getElem_mem hlt)
  obtain ⟨⟨n, r⟩, hb⟩ := Option.ne_none_iff_exists'.1 ((hh.mem_iff e.1).1 hmem)
  obtain rfl := hh.single _ _ _ hb
  have hblocks := free_blocks hh.inv hh.real hb
  rw [if_pos rfl] at hblocks
  refine ⟨hinv, hh.real.of_samePool hpool, free_used hh.inv hh.real hh.used hb, fun p => ?_,
    fun p n r hp => ?_⟩
  · -- the freed pointer was on the list once
    have hperm := ((List.getElem_cons_eraseIdx_perm hlt).symm.map Prod.fst)
    rw [List.map_cons, hget] at hperm
    have hnd := hh.nodup
    rw [hperm.nodup_iff, List.nodup_cons] at hnd
    have hiff := hh.mem_iff p
    rw [hperm.mem_iff, List.mem_cons] at hiff
    rw [hblocks]
    by_cases hp : p = e.1
    · subst hp
      rw [Function.update_self]
      exact iff_of_false hnd.1 (by simp)
    · rw [Function.update_of_ne hp, ← hiff]
      simp [hp]
  · rw [hblocks] at hp
    by_cases hpp : p = e.1
    · rw [hpp, Function.update_self] at hp
      cases hp
    · rw [Function.update_of_ne hpp] at hp
      exact hh.single p n r hp

theorem ExactHistory.run {h : History} (hh : ExactHistory h) (ops : List AllocOp) :
    ExactHistory (allocRun h ops) := by
  induction ops generalizing h with
  | nil => exact hh
  | cons op ops ih =>
    cases op with
    | allocate size => exact ih (hh.allocate size)
    | free i => exact ih (hh.free i)

/-- After `buddy_init` there are no blocks. -/
theorem not_isUsed_buddyInit (b : Buddy) (hj : j < b.memTotalPage) :
    ¬ ((buddyInit b).frameArray j).IsUsed := by
  have hi := buddyInit_spec b
  by_cases hr : (b.frameArray j).state = .reserved
  · simp [Frame.IsUsed, (hi.reserved j).2 hr]
  · exact (hi.free j hj hr).not_isUsed

theorem exactHistory_start (ha : AlignedPool b) (hr : RealPool b) :
    ExactHistory ⟨poolsInit (buddyInit b), []⟩ := by
  have hinv := historyInv_start ha
  have hi := buddyInit_spec b
  have htotal : (poolsInit (buddyInit b)).buddy.memTotalPage = b.memTotalPage := hi.total
  have hnone : ∀ p, blocks (poolsInit (buddyInit b)) p = none := by
    refine fun p => blocks_eq_none.2 fun n hl => ?_
    have hlt := (hl.pageIdx hinv.inv).1
    rw [htotal] at hlt
    exact not_isUsed_buddyInit b hlt (hl.isUsed hinv.inv)
  refine ⟨hinv, ⟨?_, ?_⟩, fun idx hlt hst => ?_, fun p => ?_, fun p n r hp => ?_⟩
  · exact (congrArg (· ≠ 0) hi.start).mpr hr.start
  · change (buddyInit b).mempoolStart.toNat + (buddyInit b).memTotalPage * pageSize < 2 ^ 64
    rw [hi.start, hi.total]
    exact hr.fits
  · rw [htotal] at hlt
    exact absurd (.inr hst) (not_isUsed_buddyInit b hlt)
  · simp [hnone p]
  · simp [hnone p] at hp

/-- When nothing is live, a page of the pool is reserved or free. -/
theorem ExactHistory.isFree_iff {h : History} (hh : ExactHistory h) (hnil : h.live = [])
    (hj : j < h.alloc.buddy.memTotalPage) :
    (h.alloc.buddy.frameArray j).IsFree ↔ (h.alloc.buddy.frameArray j).state ≠ .reserved := by
  have hnone : ∀ p, blocks h.alloc p = none := by
    intro p
    have := hh.mem_iff p
    rw [hnil] at this
    simpa using this
  refine ⟨fun hf => hf.ne.2.2, fun hr => ?_⟩
  obtain ⟨a, n, hB, hap, hpn, -, hright⟩ := hh.inv.inv.left.split (Nat.zero_le j) hj
  have hend := hright.le
  cases hB with
  | reserved hst =>
    obtain rfl : a = j := by omega
    exact absurd hst hr
  | free _ _ hM => exact hM.isFree hap hpn
  | @alloc k _ _ hM =>
    have hpos := Nat.two_pow_pos k
    exact absurd (.page (by omega) hM.head hM.order) (blocks_eq_none.1 (hnone _) _)
  | chunk hst =>
    obtain ⟨p, -, hp⟩ := hh.used a (by omega) hst
    exact absurd (hnone p) hp

/-- The globals before the pool is set. -/
def unsetBuddy : Buddy := ⟨0, 0, 0, fun _ => ⟨0, .freeHead, 0, 0, 0⟩, fun _ => [], false⟩

end BareMetalOS.Memory
