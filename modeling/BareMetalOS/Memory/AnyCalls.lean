import BareMetalOS.Memory.Canonical

/-!
# Calls with any argument

The states of the allocator under calls that nothing restricts: `free` and `page_inc_ref` of any
64-bit value. `free` changes nothing unless its argument is the start of a live block
(`free_of_not_live`), so a second `free` of a block that was not shared is ignored. In every such
state `buddy_alloc_pages` fails only when no aligned run of free pages is left
(`buddyAllocPages_complete`): the blocks on the free lists are the largest aligned ones that fit. So
any free page is returned, after enough calls of `allocate` (`exists_allocate_page`).
-/

namespace BareMetalOS.Memory

variable {b : Buddy} {s s' : Allocator} {i idx n order : ℕ} {p ptr : Addr}

/-! ## Reachable states -/

/-- The states of the allocator: after `allocator_init` on a pool that is a range of addresses
without `NULL`, and any calls with any arguments. -/
inductive AllocReachable : Allocator → Prop
  | start (board : Board) (b : Buddy) (start size : Addr)
      (hreal : RealPool (buddySetRegion board b start size)) :
      AllocReachable (allocStart board b start size)
  | allocate {s : Allocator} (h : AllocReachable s) (size : ℕ) : AllocReachable (allocate s size).2
  | free {s : Allocator} (h : AllocReachable s) (ptr : Addr) : AllocReachable (free s ptr)
  | pageIncRef {s : Allocator} (h : AllocReachable s) (ptr : Addr) :
    AllocReachable (pageIncRef s ptr)

theorem InPool.idx_lt (h : InPool b ptr) (ha : AlignedPool b) :
    addrToPageIdx b ptr < b.memTotalPage := by
  obtain ⟨hw, hptr⟩ := h.eq_add ha
  have hlt := h.2.2
  have hsize := ha.size
  rw [BitVec.lt_def, BitVec.toNat_add, hsize, Nat.mod_eq_of_lt hw] at hlt
  simp only [pageSize] at *
  omega

theorem pageIncRef_spec (h : AllocInv s) (ptr : Addr) : Keeps s (pageIncRef s ptr) none := by
  rw [pageIncRef]
  split_ifs with hin
  · apply keeps_setCow h none
    intro hst
    have := h.cow _ (hin.idx_lt h.pool) hst
    omega
  · exact .refl h _

theorem AllocReachable.inv (h : AllocReachable s) : AllocInv s ∧ RealPool s.buddy := by
  induction h with
  | start board b start size hreal =>
    have ha := alignedPool_buddySetRegion board b start size
    have hi := buddyInit_spec (buddySetRegion board b start size)
    refine ⟨allocInv_poolsInit ha, ?_, ?_⟩
    · exact fun h₀ => hreal.start (hi.start.symm.trans h₀)
    · have := hreal.fits
      rwa [← hi.start, ← hi.total] at this
  | allocate h size ih =>
    have hk := (allocate_spec ih.1 size).1
    exact ⟨hk.inv, ih.2.of_samePool hk.pool⟩
  | free h ptr ih =>
    have hk := free_spec ih.1 ptr
    exact ⟨hk.inv, ih.2.of_samePool hk.pool⟩
  | pageIncRef h ptr ih =>
    have hk := pageIncRef_spec ih.1 ptr
    exact ⟨hk.inv, ih.2.of_samePool hk.pool⟩

/-! ## `free` of any value -/

/-- An aligned address of a chunk page that is not on the free list is a live chunk. -/
theorem InPool.live_chunk (hp : InPool s.buddy ptr) (h : AllocInv s) (hi : i < chunkPoolCount)
    (hst : (s.buddy.frameArray (addrToPageIdx s.buddy ptr)).state = .allocChunkPool)
    (hm : (s.buddy.frameArray (addrToPageIdx s.buddy ptr)).metaPoolIdx = i)
    (hal : (ptr - pageToAddr s.buddy (addrToPageIdx s.buddy ptr)).toNat % gPoolSizes i = 0)
    (hmem : ptr ∉ (s.gPools i).freeList) : Live s ptr (gPoolSizes i) := by
  have hlt := hp.idx_lt h.pool
  obtain ⟨c, hc, hptr⟩ := hp.eq_chunkAddr h.pool hlt hi hal
  rw [hptr] at hmem
  have hlive : Live s (chunkAddr s.buddy i (addrToPageIdx s.buddy ptr) c) (gPoolSizes i) :=
    .chunk hi hlt hst hm hc hmem
  rwa [← hptr] at hlive

/-- An aligned address of the first page of a block of pages is that block. -/
theorem InPool.live_page (hp : InPool s.buddy ptr) (h : AllocInv s)
    (hst : (s.buddy.frameArray (addrToPageIdx s.buddy ptr)).state = .allocPageHead)
    (hal : ptr &&& 4095#64 = 0) : ∃ n, Live s ptr n := by
  have hlt := hp.idx_lt h.pool
  obtain ⟨k, -, -, hM, -, -⟩ := tiled_at_allocPageHead h.inv.left (Nat.zero_le _) hlt hst
  have hlive := Live.page hlt hst hM.order
  rw [← hp.eq_pageToAddr h.pool hlt ((and_page_eq_zero_iff ptr).1 hal)] at hlive
  exact ⟨_, hlive⟩

/-- The chunk case of `free` does nothing if no live chunk starts at the address. -/
theorem freeChunk_of_not_live (h : AllocInv s) (hp : InPool s.buddy ptr)
    (hst : (s.buddy.frameArray (addrToPageIdx s.buddy ptr)).state = .allocChunkPool)
    (hl : ∀ n, ¬ Live s ptr n) : freeChunk s ptr (addrToPageIdx s.buddy ptr) = s := by
  have hlt := hp.idx_lt h.pool
  obtain ⟨i, hi, hm, -⟩ := h.chunkPage _ hlt hst
  rw [freeChunk, hm]
  simp only
  rw [if_neg (by omega), Int.toNat_natCast, h.sizes i hi, hp.alignDown_eq h.pool hlt]
  by_cases hal : (ptr - pageToAddr s.buddy (addrToPageIdx s.buddy ptr)).toNat % gPoolSizes i = 0
  · rw [if_neg (not_not.2 hal)]
    by_cases hmem : ptr ∈ (s.gPools i).freeList
    · rw [if_pos hmem]
    · exact absurd (hp.live_chunk h hi hst hm hal hmem) (hl _)
  · rw [if_pos hal]

/-- The page case of `free` does nothing if no live block of pages starts at the address. -/
theorem freePage_of_not_live (h : AllocInv s) (hp : InPool s.buddy ptr)
    (hst : (s.buddy.frameArray (addrToPageIdx s.buddy ptr)).state = .allocPageHead)
    (hl : ∀ n, ¬ Live s ptr n) : freePage s ptr (addrToPageIdx s.buddy ptr) = s := by
  rw [freePage]
  by_cases hal : ptr &&& 4095#64 = 0
  · obtain ⟨n, hlive⟩ := hp.live_page h hst hal
    exact absurd hlive (hl n)
  · rw [if_pos hal]

/-- **`free` ignores every value that is not the start of a live block.** -/
theorem free_of_not_live (h : AllocInv s) (hl : ∀ n, ¬ Live s ptr n) : free s ptr = s := by
  rw [free]
  by_cases h₁ : ¬ s.ready ∨ ptr = 0
  · rw [if_pos h₁]
  rw [if_neg h₁]
  by_cases h₂ : InPool s.buddy ptr
  · rw [if_neg (not_not.2 h₂)]
    simp only
    rw [if_neg (Nat.not_le.2 (h₂.idx_lt h.pool))]
    cases hst : (s.buddy.frameArray (addrToPageIdx s.buddy ptr)).state with
    | allocChunkPool => exact freeChunk_of_not_live h h₂ hst hl
    | allocPageHead => exact freePage_of_not_live h h₂ hst hl
    | freeHead => rfl
    | freeTail => rfl
    | reserved => rfl
    | allocPageTail => rfl
  · rw [if_pos h₂]

/-- The values that are not the start of a live block: `NULL`, addresses outside the pool, pages
that are free, reserved or inside a block, addresses inside a page of a block or inside a chunk, and
chunks on the free list of their pool. -/
inductive NotABlock (s : Allocator) (ptr : Addr) : Prop
  | null (h : ptr = 0)
  | outOfPool (h : ¬ InPool s.buddy ptr)
  | free (h : (s.buddy.frameArray (addrToPageIdx s.buddy ptr)).IsFree)
  | reserved (h : (s.buddy.frameArray (addrToPageIdx s.buddy ptr)).state = .reserved)
  | tail (h : (s.buddy.frameArray (addrToPageIdx s.buddy ptr)).state = .allocPageTail)
  | insidePage (h : (s.buddy.frameArray (addrToPageIdx s.buddy ptr)).state = .allocPageHead)
      (hal : ptr.toNat % pageSize ≠ 0)
  | insideChunk (i : ℕ)
      (h : (s.buddy.frameArray (addrToPageIdx s.buddy ptr)).state = .allocChunkPool)
      (hm : (s.buddy.frameArray (addrToPageIdx s.buddy ptr)).metaPoolIdx = i)
      (hal : ptr.toNat % gPoolSizes i ≠ 0)
  | freeChunk (i : ℕ)
      (h : (s.buddy.frameArray (addrToPageIdx s.buddy ptr)).state = .allocChunkPool)
      (hm : (s.buddy.frameArray (addrToPageIdx s.buddy ptr)).metaPoolIdx = i)
      (hmem : ptr ∈ (s.gPools i).freeList)

theorem NotABlock.not_live (hn : NotABlock s ptr) (h : AllocInv s) (hr : RealPool s.buddy) (n : ℕ) :
    ¬ Live s ptr n := by
  intro hl
  obtain ⟨hin, h₀, hlt⟩ := hl.inPool h hr
  have hal := hl.aligned h
  have hst := (hl.pageIdx h).2
  cases hn with
  | null h => exact h₀ h
  | outOfPool h => exact h hin
  | free hf =>
    rcases hst with hst | hst
    · exact hf.ne.1 hst
    · exact hf.ne.2.1 hst
  | reserved hs => rcases hst with hst | hst <;> rw [hs] at hst <;> cases hst
  | tail hs => rcases hst with hst | hst <;> rw [hs] at hst <;> cases hst
  | insidePage hs hne =>
    cases hl with
    | @page idx k hlt' hst' ho =>
      rw [min_eq_right (Nat.le_mul_of_pos_left _ (Nat.two_pow_pos k))] at hal
      exact hne (Nat.mod_eq_zero_of_dvd hal)
    | chunk hi hlt' hst' hm hc hfree =>
      rw [addrToPageIdx_chunkAddr h.pool hlt' hi hc, hst'] at hs
      cases hs
  | insideChunk i hs hm hne =>
    cases hl with
    | page hlt' hst' ho =>
      rw [addrToPageIdx_pageToAddr h.pool hlt', hst'] at hs
      cases hs
    | @chunk i' idx c hi hlt' hst' hm' hc hfree =>
      rw [addrToPageIdx_chunkAddr h.pool hlt' hi hc, hm'] at hm
      obtain rfl : i' = i := by exact_mod_cast hm
      rw [min_eq_left (Nat.le_of_dvd (by decide) (gPoolSizes_dvd hi))] at hal
      exact hne (Nat.mod_eq_zero_of_dvd hal)
  | freeChunk i hs hm hmem =>
    cases hl with
    | page hlt' hst' ho =>
      rw [addrToPageIdx_pageToAddr h.pool hlt', hst'] at hs
      cases hs
    | @chunk i' idx c hi hlt' hst' hm' hc hfree =>
      rw [addrToPageIdx_chunkAddr h.pool hlt' hi hc, hm'] at hm
      obtain rfl : i' = i := by exact_mod_cast hm
      exact hfree hmem

/-- The allocator of a QEMU pool of four pages. -/
theorem allocReachable_fourPages :
    AllocReachable (allocStart .qemu unsetBuddy 0xffffffc080000000 0x4000) :=
  .start .qemu unsetBuddy _ _ (realPool_buddySetRegion _ _ _ (by decide) (by decide))

/-! ## `buddy_alloc_pages` finds every free block -/

/-- The states of the buddy system: after `buddy_init` and any calls of `buddy_alloc_pages` and
`buddy_free_pages`, or below the allocator. -/
inductive AnyBuddy : Buddy → Prop
  | direct (b : Buddy) (ops : List BuddyOp) : AnyBuddy (buddyRun (buddyInit b) ops)
  | below {s : Allocator} (h : AllocReachable s) : AnyBuddy s.buddy

/-- An aligned run of `2 ^ order` free pages. -/
def FreeRun (b : Buddy) (idx order : ℕ) : Prop :=
  2 ^ order ∣ idx ∧
    ∀ j, idx ≤ j → j < idx + 2 ^ order → j < b.memTotalPage ∧ (b.frameArray j).IsFree

theorem ready_buddyRun (b : Buddy) (ops : List BuddyOp) (h : Inv b) (hc : NoChunkPage b) :
    (buddyRun b ops).ready = b.ready := by
  induction ops generalizing b with
  | nil => rfl
  | cons op ops ih =>
    have hstep : (op.step b).ready = b.ready := by
      cases op with
      | alloc order =>
        rcases buddyAllocPages_cases h order with heq | ⟨idx, -, ha⟩
        · rw [BuddyOp.step, heq]
        · exact ha.pool.ready
      | free ptr =>
        rcases buddyFreePages_cases h ptr with heq | ⟨k, -, -, hf⟩
        · rw [BuddyOp.step, heq]
        · exact hf.pool.ready
    rw [← hstep]
    exact ih _ (inv_buddyOp h op) (hc.step h op)

theorem AnyBuddy.inv (h : AnyBuddy b) : Inv b ∧ b.ready = true := by
  cases h with
  | direct b ops =>
    have hi := buddyInit_spec b
    refine ⟨(inv_buddyRun hi.inv (noChunkPage_buddyInit b) ops).1, ?_⟩
    rw [ready_buddyRun _ ops hi.inv (noChunkPage_buddyInit b), hi.ready]
  | below h => exact ⟨h.inv.1.inv, h.inv.1.buddy_ready⟩

/-- An aligned free run lies in one free block, so some list of its order or above is not empty. -/
theorem findOrder_isSome (h : Inv b) (ho : order ≤ buddyMaxOrder) (hrun : FreeRun b idx order) :
    ∃ current, findOrder b order = some current := by
  obtain ⟨k, a, hmem, hk, -, -⟩ := h.dyadic.exists_block ho hrun.1 hrun.2
  have hle := h.dyadic.le hmem
  apply Option.isSome_iff_exists.1
  rw [findOrder, List.find?_isSome]
  refine ⟨k, List.mem_range'_1.2 ⟨hk, by omega⟩, ?_⟩
  exact decide_eq_true (List.ne_nil_of_mem hmem)

/-- **`buddy_alloc_pages` is complete.** It takes a block exactly when there is an aligned run of
free pages of the order; otherwise it returns `NULL` and changes nothing. In a pool that is a range
of addresses without `NULL`, it returns a block exactly when its result is not `NULL`. -/
theorem buddyAllocPages_complete (h : AnyBuddy b) (ho : order ≤ buddyMaxOrder) :
    ((∃ idx, (buddyAllocPages b order).1 = pageToAddr b idx ∧
      Allocated b (buddyAllocPages b order).2 idx order) ↔ ∃ idx, FreeRun b idx order) ∧
    ((¬ ∃ idx, FreeRun b idx order) → buddyAllocPages b order = (0, b)) ∧
    (RealPool b → (((buddyAllocPages b order).1 ≠ 0 ↔ ∃ idx, FreeRun b idx order) ∧
      ((buddyAllocPages b order).1 = 0 → (buddyAllocPages b order).2 = b))) := by
  obtain ⟨hi, hready⟩ := h.inv
  have hrun : ∀ idx, Allocated b (buddyAllocPages b order).2 idx order → FreeRun b idx order := by
    intro idx ha
    refine ⟨ha.dvd, fun j hj hlt => ⟨?_, ha.was_free j hj hlt⟩⟩
    have := ha.le
    omega
  have hr : ¬ (¬ b.ready ∨ buddyMaxOrder < order) := by
    rw [hready]
    simpa using ho
  have hiff : (∃ idx, (buddyAllocPages b order).1 = pageToAddr b idx ∧
      Allocated b (buddyAllocPages b order).2 idx order) ↔ ∃ idx, FreeRun b idx order := by
    constructor
    · rintro ⟨idx, -, ha⟩
      exact ⟨idx, hrun idx ha⟩
    · rintro ⟨idx, hfree⟩
      obtain ⟨current, hf⟩ := findOrder_isSome hi ho hfree
      exact buddyAllocPages_some hi hr hf
  have hnone : (¬ ∃ idx, FreeRun b idx order) → buddyAllocPages b order = (0, b) := by
    intro hno
    exact (buddyAllocPages_cases hi order).resolve_right fun h => hno (hiff.1 h)
  refine ⟨hiff, hnone, fun hreal => ⟨⟨fun hne => ?_, fun hfree h₀ => ?_⟩, fun h₀ => ?_⟩⟩
  · by_contra hno
    exact hne (by rw [hnone hno])
  · obtain ⟨idx, hp, ha⟩ := hiff.2 hfree
    have hpos := Nat.two_pow_pos order
    have hle := ha.le
    have hlt : idx < b.memTotalPage := by omega
    exact hreal.pageToAddr_ne_zero hlt (hp.symm.trans h₀)
  · rcases buddyAllocPages_cases hi order with heq | ⟨idx, hp, ha⟩
    · rw [heq]
    · have hpos := Nat.two_pow_pos order
      have hle := ha.le
      exact absurd (hp.symm.trans h₀) (hreal.pageToAddr_ne_zero (by omega))

/-- Four free pages are a block of order two. -/
theorem buddyAllocPages_complete_fourPages :
    (buddyAllocPages (allocStart .qemu unsetBuddy 0xffffffc080000000 0x4000).buddy 2).1 ≠ 0 := by
  have hreal : RealPool (allocStart .qemu unsetBuddy 0xffffffc080000000 0x4000).buddy :=
    allocReachable_fourPages.inv.2
  rw [((buddyAllocPages_complete (.below allocReachable_fourPages) (by decide)).2.2 hreal).1]
  refine ⟨0, by decide, fun j _ hj => ?_⟩
  have hall : ∀ j < 4,
      j < (allocStart .qemu unsetBuddy 0xffffffc080000000 0x4000).buddy.memTotalPage ∧
      ((allocStart .qemu unsetBuddy 0xffffffc080000000 0x4000).buddy.frameArray j).state ∈
        [PageState.freeHead, .freeTail] := by
    decide +kernel
  obtain ⟨h₁, h₂⟩ := hall j (by omega)
  refine ⟨h₁, ?_⟩
  rcases List.mem_cons.1 h₂ with h | h
  · exact .inl h
  · exact .inr (List.mem_singleton.1 h)

/-! ## Every free page is returned -/

/-- The number of free pages. -/
noncomputable def freePages (b : Buddy) : ℕ :=
  open Classical in ((Finset.range b.memTotalPage).filter fun j => (b.frameArray j).IsFree).card

/-- A call for one page, while a page is free, takes a page. -/
theorem allocate_page (h : AllocInv s) (hlt : idx < s.buddy.memTotalPage)
    (hfree : (s.buddy.frameArray idx).IsFree) :
    ∃ idx' b', allocate s pageSize = (pageToAddr s.buddy idx', { s with buddy := b' }) ∧
      Allocated s.buddy b' idx' 0 := by
  have hrun : FreeRun s.buddy idx 0 := by
    refine ⟨one_dvd _, fun j hj hlt' => ?_⟩
    obtain rfl : j = idx := by omega
    exact ⟨hlt, hfree⟩
  obtain ⟨current, hcurrent⟩ := findOrder_isSome h.inv (Nat.zero_le _) hrun
  have hok : ¬ (¬ s.buddy.ready ∨ buddyMaxOrder < 0) := by
    rw [h.buddy_ready]
    decide
  obtain ⟨idx', hp, ha⟩ := buddyAllocPages_some h.inv hok hcurrent
  have hready : ¬ (¬ s.ready ∨ pageSize = 0 ∨ maxAllocSize < pageSize) := by
    rw [h.ready]
    decide
  have horder : roundupOrder ((pageSize + pageSize - 1) / pageSize) = 0 := by decide
  refine ⟨idx', _, ?_, ha⟩
  rw [allocate, if_neg hready, if_neg (by decide)]
  simp only [horder, hp]

/-- The page that is taken is no longer free. -/
theorem Allocated.freePages_lt {b' : Buddy} (h : Allocated b b' idx 0) :
    freePages b' < freePages b := by
  classical
  apply Finset.card_lt_card
  rw [Finset.ssubset_iff_of_subset]
  · refine ⟨idx, ?_, ?_⟩
    · exact Finset.mem_filter.2 ⟨Finset.mem_range.2 h.lt, h.idx_free⟩
    · intro hmem
      exact (Finset.mem_filter.1 hmem).2.ne.1 h.marked.head
  · intro j hj
    obtain ⟨hlt, hfree⟩ := Finset.mem_filter.1 hj
    rw [h.pool.total] at hlt
    apply Finset.mem_filter.2
    apply And.intro hlt
    by_cases hji : j = idx
    · exact hji ▸ h.idx_free
    · rcases h.outside j (by omega) with heq | ⟨hold, -⟩
      · rwa [← heq]
      · exact hold

/-- Calls for single pages return a given free page in the end. -/
theorem exists_allocate_page (h : AllocInv s) (live : List (Addr × ℕ))
    (hlt : idx < s.buddy.memTotalPage) (hfree : (s.buddy.frameArray idx).IsFree)
    (hne : pageToAddr s.buddy idx ≠ 0) :
    ∃ k, (pageToAddr s.buddy idx, pageSize) ∈
      (allocRun ⟨s, live⟩ (List.replicate k (.allocate pageSize))).live := by
  -- the free pages become fewer with each call
  induction hn : freePages s.buddy using Nat.strong_induction_on generalizing s live with
  | _ n ih =>
    obtain ⟨idx', b', hcall, ha⟩ := allocate_page h hlt hfree
    by_cases hidx : idx' = idx
    · subst hidx
      refine ⟨1, ?_⟩
      rw [List.replicate_one, allocRun, List.foldl_cons, List.foldl_nil, AllocOp.step, hcall,
        if_neg hne]
      exact List.mem_cons_self
    · have hkeep := ha.keeps h
      have hfree' : (b'.frameArray idx).IsFree := by
        rcases ha.outside idx (by omega) with heq | ⟨-, hnew, -⟩
        · rwa [heq]
        · exact hnew
      have haddr : pageToAddr b' idx = pageToAddr s.buddy idx := ha.pool.pageToAddr_eq idx
      obtain ⟨k, hk⟩ := ih _ (hn ▸ ha.freePages_lt) hkeep.inv
        (if pageToAddr s.buddy idx' = 0 then live else (pageToAddr s.buddy idx', pageSize) :: live)
        (ha.pool.total ▸ hlt) hfree' (haddr ▸ hne) rfl
      refine ⟨k + 1, ?_⟩
      rw [haddr, allocRun] at hk
      rw [List.replicate_succ, allocRun, List.foldl_cons, AllocOp.step]
      simp only [hcall]
      exact hk

end BareMetalOS.Memory
