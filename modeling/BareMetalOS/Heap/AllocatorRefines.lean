import BareMetalOS.Heap.InitRefines
import BareMetalOS.Memory.AnyCalls

/-!
# The allocator in memory refines the model

`Holds g P m s`: the memory holds the state `s`, which has the invariants of the level above. Each
call does to the state what the function of the level above does, and comes to an end:
`Holds.allocate`, `Holds.free` and `Holds.pageIncRef`. A byte that the owner of a live block stores
in it leaves the state alone (`Holds.storeByte`).
-/

namespace BareMetalOS.Heap

open Memory

variable {g : Globals} {P : ℕ → Prop} {m : Mem} {s s' : Allocator} {x y : FreeList}
  {a head p ptr : Addr} {l : List Addr} {c c' i j k n idx size : ℕ} {z : ℤ}

/-! ## Counts -/

theorem toUnsigned_add_one (z : ℤ) : toUnsigned (z + 1) = (toUnsigned z + 1) % 256 ^ 4 := by
  simp only [toUnsigned]
  omega

theorem toUnsigned_sub_one (z : ℤ) :
    toUnsigned (z - 1) = (toUnsigned z + (2 ^ 32 - 1)) % 256 ^ 4 := by
  simp only [toUnsigned]
  omega

theorem toUnsigned_eq_zero (h₀ : 0 ≤ z) (h : z < 2 ^ 32) : toUnsigned z = 0 ↔ z = 0 := by
  simp only [toUnsigned]
  omega

/-! ## Chunks -/

/-- The nodes of chunks are at places for them. -/
theorem chunkAt_isNode (hidx : idx < g.memTotalPage) (hP : P idx) (hi : i < chunkPoolCount)
    (hc : c < pageSize / gPoolSizes i) :
    (FreeList.pool j).IsNode g P (chunkAt (g.pageToAddr idx) (gPoolSizes i) c) := by
  have hsize : gPoolSizes i = 2 ^ i * 16 := (gPoolSizes_eq hi).trans (pow_add 2 i 4)
  have hoff := chunk_offset_lt hi hc
  have hpos := Nat.two_pow_pos i
  refine ⟨idx, c * 2 ^ i, hidx, hP, ?_, ?_⟩
  · rw [hsize, ← Nat.mul_assoc] at hoff
    simp only [pageSize] at hoff
    omega
  · rw [chunkAt, hsize, Nat.mul_assoc]

namespace Rep

variable (hr : Rep g P n m s) (hs : Separate g P)
include hr

theorem pageToAddr_eq (idx : ℕ) : Memory.pageToAddr s.buddy idx = g.pageToAddr idx := by
  rw [Memory.pageToAddr, Globals.pageToAddr, hr.start]

theorem addrToPageIdx_eq (a : Addr) : Memory.addrToPageIdx s.buddy a = g.addrToPageIdx a := by
  rw [Memory.addrToPageIdx, Globals.addrToPageIdx, hr.start]

theorem inPool_iff (a : Addr) : InPool g a ↔ Memory.InPool s.buddy a := by
  rw [Heap.InPool, Memory.InPool, hr.start, hr.size]

theorem next_pool (hi : i < n) :
    next g m (g.freeListAt i) = (s.gPools i).freeList.headD (g.freeListAt i) :=
  (hr.linked (.pool i) hi).next_head

theorem listEmpty_pool (hi : i < n) : listEmpty g m (g.freeListAt i) ↔ (s.gPools i).freeList = [] :=
  (hr.linked (.pool i) hi).next_head_eq_iff

include hs

/-- A chunk is no frame. -/
theorem chunk_notMem_area (hk : k ≤ buddyMaxOrder) (ha : (FreeList.pool i).IsNode g P a) :
    a ∉ (FreeList.area k).nodes g s := fun hmem => by
  cases ha.node.unique hs (hr.isNode (x := .area k) hk hmem).node

/-- `list_add` on the list of a chunk pool. -/
theorem pushChunk (hi : i < n) (ha : (FreeList.pool i).IsNode g P a)
    (hfresh : ∀ j < n, a ∉ (s.gPools j).freeList) :
    Rep g P n (Heap.listAdd g m a (g.freeListAt i))
      (s.setFreeList i (a :: (s.gPools i).freeList)) := by
  refine hr.listAdd hs (x := .pool i) hi ha (fun y hy => ?_) ⟨rfl, rfl, rfl, rfl, ?_⟩ ?_
    (fun y hy => ?_) hr.area_lt
  · cases y with
    | area k => exact hr.chunk_notMem_area hs hy ha
    | pool j => exact hfresh j hy
  · exact fun j => s.setFreeList_chunkSize i j _
  · simp only [FreeList.nodes, Allocator.setFreeList_self]
  · cases y with
    | area k => rfl
    | pool j =>
      have hji : j ≠ i := fun heq => hy (heq ▸ rfl)
      simp only [FreeList.nodes, s.setFreeList_of_ne _ hji]

/-- `list_del` of a chunk. -/
theorem dropChunk (hi : i < n) (ha : a ∈ (s.gPools i).freeList) :
    Rep g P n (Heap.listDel g m a) (s.setFreeList i ((s.gPools i).freeList.erase a)) := by
  refine hr.listDel hs (x := .pool i) hi ha ⟨rfl, rfl, rfl, rfl, ?_⟩ ?_
    (fun y hy _ => ?_) hr.area_lt
  · exact fun j => s.setFreeList_chunkSize i j _
  · simp only [FreeList.nodes, Allocator.setFreeList_self]
  · cases y with
    | area k => rfl
    | pool j =>
      have hji : j ≠ i := fun heq => hy (heq ▸ rfl)
      simp only [FreeList.nodes, s.setFreeList_of_ne _ hji]

theorem setRefCount (hidx : idx < g.memTotalPage) (v : ℕ) (o : ℤ)
    (ho : toUnsigned o = v % 256 ^ 4) : Rep g P n (set g m (.refCount idx) v) { s with
      buddy := s.buddy.setFrame idx { s.buddy.frameArray idx with refCount := o } } :=
  hr.setFrame hs hidx .refCount _ ho fun d hd => by
    cases d <;> first | rfl | exact absurd rfl hd

theorem setMeta (hidx : idx < g.memTotalPage) (i : ℕ) :
    Rep g P n (set g m (.metaPoolIdx idx) i) { s with
      buddy := s.buddy.setFrame idx { s.buddy.frameArray idx with metaPoolIdx := i } } := by
  refine hr.setFrame hs hidx .metaPoolIdx _ ?_ fun d hd => ?_
  · simp only [Datum.code, Datum.field, Field.size]
    omega
  · cases d <;> first | rfl | exact absurd rfl hd

/-! ## Allocation -/

/-- The refill loop. -/
theorem pushChunks (hi : i < n) (hidx : idx < g.memTotalPage) (hP : P idx)
    (hk : k ≤ pageSize / gPoolSizes i) (hnil : (s.gPools i).freeList = [])
    (hinj : ∀ c < k, ∀ c' < k, chunkAt (g.pageToAddr idx) (gPoolSizes i) c =
      chunkAt (g.pageToAddr idx) (gPoolSizes i) c' → c = c')
    (hfresh : ∀ c < k, ∀ j < n,
      chunkAt (g.pageToAddr idx) (gPoolSizes i) c ∉ (s.gPools j).freeList) :
    Rep g P n (pushChunks g m (g.pageToAddr idx) (g.freeListAt i) (gPoolSizes i) k)
      (s.setFreeList i (Memory.pushChunks (g.pageToAddr idx) (gPoolSizes i) [] k)) := by
  have hi' : i < chunkPoolCount := lt_of_lt_of_le hi hr.pools
  induction k with
  | zero =>
    rw [Heap.pushChunks, Memory.pushChunks, ← hnil]
    have heq : s.setFreeList i (s.gPools i).freeList = s := by
      simp only [Allocator.setFreeList, Function.update_eq_self]
    rwa [heq]
  | succ k ih =>
    have h₁ := ih (by omega) (fun c hc c' hc' => hinj c (by omega) c' (by omega))
      fun c hc => hfresh c (by omega)
    have h₂ := h₁.pushChunk hs hi (a := chunkAt (g.pageToAddr idx) (gPoolSizes i) k)
      (chunkAt_isNode hidx hP hi' (by omega)) fun j hj hmem => ?_
    · simp only [Allocator.setFreeList_self] at h₂
      simp only [Allocator.setFreeList, Function.update_idem, Function.update_self] at h₂ ⊢
      exact h₂
    · by_cases hji : j = i
      · subst hji
        rw [Allocator.setFreeList_self, mem_pushChunks] at hmem
        rcases hmem with hmem | ⟨c, hc, heq⟩
        · exact List.not_mem_nil hmem
        · have := hinj k (Nat.lt_succ_self k) c (by omega) heq
          omega
      · rw [s.setFreeList_of_ne _ hji] at hmem
        exact hfresh k (Nat.lt_succ_self k) j hj hmem

/-- Taking the first chunk. -/
theorem popChunk (hi : i < n) (hne : (s.gPools i).freeList ≠ [])
    (hidx : g.addrToPageIdx ((s.gPools i).freeList.headD 0) < g.memTotalPage) :
    (popChunk g m i).1 = (Memory.popChunk s i).1 ∧
      Rep g P n (Heap.popChunk g m i).2 (Memory.popChunk s i).2 := by
  obtain ⟨ck, l, hl⟩ := List.exists_cons_of_ne_nil hne
  have hnext := hr.next_pool hi
  rw [hl, List.headD_cons] at hnext hidx
  have h₁ := hr.dropChunk hs hi (a := ck) (by rw [hl]; exact List.mem_cons_self)
  rw [hl, List.erase_cons_head] at h₁
  have hget := h₁.frame _ hidx .refCount
  have h₂ := h₁.setRefCount hs hidx _ _
    (toUnsigned_add_one (s.buddy.frameArray (g.addrToPageIdx ck)).refCount)
  simp only [Heap.popChunk, Memory.popChunk, hnext, hl, List.headD_cons, List.tail_cons]
  refine ⟨trivial, ?_⟩
  simp only [Datum.field, Datum.code] at hget
  rw [hget, h₁.addrToPageIdx_eq]
  exact h₂

end Rep

/-! ## The invariant -/

/-- The memory holds the state `s` of a running allocator: its invariant, its pages that are not
`RESERVED` among `P`, and no count of references beyond an `int`. -/
structure Holds (g : Globals) (P : ℕ → Prop) (m : Mem) (s : Allocator) : Prop where
  rep : Rep g P chunkPoolCount m s
  inv : AllocInv s
  allocatorReady : g.allocatorReady = true
  buddyReady : g.buddyReady = true
  page : ∀ idx < g.memTotalPage, (s.buddy.frameArray idx).state ≠ .reserved → P idx
  cow : ∀ idx < g.memTotalPage, (s.buddy.frameArray idx).state = .allocPageHead →
    (s.buddy.frameArray idx).cowRefCount < 2 ^ 31

/-- A step of the level above keeps the invariant. -/
theorem Holds.next {m' : Mem} {q : Option Addr} (h : Holds g P m s)
    (hr : Rep g P chunkPoolCount m' s') (hk : Keeps s s' q) (hrefs : RefsFrom s s') :
    Holds g P m' s' := by
  refine ⟨hr, hk.inv, h.allocatorReady, h.buddyReady, fun idx hidx hst => ?_,
    fun idx hidx hst => ?_⟩
  · exact h.page idx hidx fun heq => hst ((hk.reserved idx).2 heq)
  · rcases hrefs idx hst with hle | ⟨hold, hle⟩
    · exact lt_of_le_of_lt hle (by decide)
    · exact lt_of_le_of_lt hle (h.cow idx hidx hold)

namespace Holds

variable (h : Holds g P m s) (hs : Separate g P)
include h

theorem ready_eq : s.buddy.ready = g.buddyReady := h.inv.buddy_ready.trans h.buddyReady.symm

theorem allocator_ready_eq : s.ready = g.allocatorReady := h.inv.ready.trans h.allocatorReady.symm

theorem findPoolIndex (size : ℕ) : findPoolIndex g m size = Memory.findPoolIndex s size := by
  rw [Heap.findPoolIndex, Memory.findPoolIndex]
  refine List.find?_congr fun i hi => ?_
  rw [h.rep.chunkSize i (List.mem_range.1 hi)]

/-- The chunks of a page that was free are on no list. -/
theorem chunk_fresh (hidx : idx < s.buddy.memTotalPage) (hfree : (s.buddy.frameArray idx).IsFree)
    (hi : i < chunkPoolCount) (hc : c < pageSize / gPoolSizes i) (hj : j < chunkPoolCount) :
    chunkAddr s.buddy i idx c ∉ (s.gPools j).freeList := by
  intro hmem
  obtain ⟨idx', c', hidx', hst, -, hc', heq⟩ := h.inv.freeList j hj _ hmem
  have hpage := addrToPageIdx_chunkAddr h.inv.pool hidx hi hc
  rw [heq, addrToPageIdx_chunkAddr h.inv.pool hidx' hj hc'] at hpage
  exact hfree.ne.2.1 (hpage ▸ hst)

/-- A chunk on a list lies in a page of the pool. -/
theorem addrToPageIdx_lt (hi : i < chunkPoolCount) (ha : a ∈ (s.gPools i).freeList) :
    g.addrToPageIdx a < g.memTotalPage := by
  obtain ⟨idx, c, hidx, -, -, hc, rfl⟩ := h.inv.freeList i hi a ha
  rw [← h.rep.addrToPageIdx_eq, addrToPageIdx_chunkAddr h.inv.pool hidx hi hc]
  exact hidx.trans_eq h.rep.total

include hs

theorem expandChunkPool (hi : i < chunkPoolCount) (hnil : (s.gPools i).freeList = []) :
    ∃ m', expandChunkPool g m i = some ((Memory.expandChunkPool s i).1, m') ∧
      Rep g P chunkPoolCount m' (Memory.expandChunkPool s i).2 := by
  obtain ⟨m₁, heq, hr₁⟩ := h.rep.buddyAllocPages hs h.inv.inv h.ready_eq 0
  rw [Heap.expandChunkPool, heq]
  simp only [Option.bind_eq_bind, Option.bind_some, Option.pure_def, Memory.expandChunkPool]
  rcases buddyAllocPages_cases h.inv.inv 0 with hnone | ⟨idx, hp, ha⟩
  · rw [hnone] at hr₁ ⊢
    exact ⟨m₁, rfl, hr₁⟩
  by_cases h0 : (Memory.buddyAllocPages s.buddy 0).1 = 0
  · rw [if_pos h0, if_pos h0]
    exact ⟨m₁, rfl, hr₁⟩
  rw [if_neg h0, if_neg h0]
  have hidx : idx < g.memTotalPage := ha.lt.trans_eq h.rep.total
  have hpage : (Memory.buddyAllocPages s.buddy 0).1 = g.pageToAddr idx :=
    hp.trans (h.rep.pageToAddr_eq idx)
  have haddr : g.addrToPageIdx (g.pageToAddr idx) = idx := by
    rw [← h.rep.addrToPageIdx_eq, ← h.rep.pageToAddr_eq]
    exact addrToPageIdx_pageToAddr h.inv.pool ha.lt
  have haddr' : Memory.addrToPageIdx (Memory.buddyAllocPages s.buddy 0).2 (g.pageToAddr idx) =
      idx := by
    rw [ha.pool.addrToPageIdx_eq, h.rep.addrToPageIdx_eq, haddr]
  have hsize : get g m₁ (.chunkSize i) = gPoolSizes i :=
    (hr₁.chunkSize i hi).trans (h.inv.sizes i hi)
  rw [hpage, haddr, haddr', hnil, h.inv.sizes i hi, hsize]
  -- the page becomes a chunk page
  have hr₂ := hr₁.setState hs hidx .allocChunkPool
  have hr₃ := hr₂.setMeta hs hidx i
  have hr₄ := hr₃.setOrder hs hidx 0 0 rfl
  have hr₅ := hr₄.setRefCount hs hidx 0 0 rfl
  simp only [Buddy.setFrame, Function.update_self, Function.update_idem] at hr₅
  refine ⟨_, rfl, ?_⟩
  refine hr₅.pushChunks hs hi hidx (h.page idx hidx ha.idx_free.ne.2.2) le_rfl hnil ?_ ?_
  · intro c hc c' hc' heq
    rw [← h.rep.pageToAddr_eq] at heq
    exact (chunkAddr_inj h.inv.pool ha.lt ha.lt hi hc hc' heq).2
  · intro c hc j hj
    rw [← h.rep.pageToAddr_eq]
    exact h.chunk_fresh ha.lt ha.idx_free hi hc hj

/-- **`allocate` in memory** returns what the model returns. -/
theorem allocate (size : ℕ) : ∃ m', allocate g m size = some ((Memory.allocate s size).1, m') ∧
    Holds g P m' (Memory.allocate s size).2 := by
  suffices hrep : ∃ m', Heap.allocate g m size = some ((Memory.allocate s size).1, m') ∧
      Rep g P chunkPoolCount m' (Memory.allocate s size).2 by
    obtain ⟨m', heq, hr⟩ := hrep
    exact ⟨m', heq, h.next hr (allocate_spec h.inv size).1 (refsFrom_allocate h.inv size)⟩
  rw [Heap.allocate, Memory.allocate, h.findPoolIndex, ← h.allocator_ready_eq]
  split_ifs with h₁ h₂
  · exact ⟨m, rfl, h.rep⟩
  · rcases hf : Memory.findPoolIndex s size with _ | i
    · exact ⟨m, rfl, h.rep⟩
    have hi : i < chunkPoolCount := by
      rw [Memory.findPoolIndex, List.find?_range_eq_some] at hf
      exact List.mem_range.1 hf.2.1
    simp only [h.rep.listEmpty_pool hi]
    by_cases hnil : (s.gPools i).freeList = []
    · rw [if_pos hnil, if_pos hnil]
      obtain ⟨m₁, heq, hr₁⟩ := h.expandChunkPool hs hi hnil
      obtain ⟨hk, hne⟩ := expandChunkPool_spec h.inv hi hnil
      rw [heq]
      simp only [Option.bind_eq_bind, Option.bind_some, Option.pure_def]
      by_cases hok : (Memory.expandChunkPool s i).1 = true
      · rw [if_pos hok, if_pos hok]
        have h' : Holds g P m₁ (Memory.expandChunkPool s i).2 :=
          h.next hr₁ hk (refsFrom_expandChunkPool h.inv i)
        obtain ⟨ck, l, hl⟩ := List.exists_cons_of_ne_nil (hne hok)
        obtain ⟨heq', hr₂⟩ := hr₁.popChunk hs hi (hne hok)
          (h'.addrToPageIdx_lt hi (by rw [hl]; exact List.mem_cons_self))
        exact ⟨_, by rw [← heq'], hr₂⟩
      · rw [if_neg hok, if_neg hok]
        exact ⟨m₁, rfl, hr₁⟩
    · rw [if_neg hnil, if_neg hnil]
      obtain ⟨ck, l, hl⟩ := List.exists_cons_of_ne_nil hnil
      obtain ⟨heq, hr₁⟩ := h.rep.popChunk hs hi hnil
        (h.addrToPageIdx_lt hi (by rw [hl]; exact List.mem_cons_self))
      exact ⟨_, by rw [← heq], hr₁⟩
  · exact h.rep.buddyAllocPages hs h.inv.inv h.ready_eq _

end Holds

/-! ## Walks -/

/-- The double-free check from a node on to the end of the ring. -/
theorem onList_eq (hl : Linked (next g m) (prev g m) head l) (xs ys : List Addr)
    (hsplit : head :: l = xs ++ ys) (hxs : xs ≠ []) (hk : ys.length < k) :
    onList g m head ptr k (ys.headD head) = some (decide (ptr ∈ ys)) := by
  induction ys generalizing xs k with
  | nil =>
    obtain ⟨k, rfl⟩ := Nat.exists_eq_succ_of_ne_zero (Nat.ne_of_gt hk)
    rw [onList, List.headD_nil, if_pos rfl]
    simp
  | cons y ys ih =>
    obtain ⟨k, rfl⟩ := Nat.exists_eq_succ_of_ne_zero (Nat.ne_zero_of_lt hk)
    rw [onList, List.headD_cons, if_neg (hl.ne_head hsplit hxs), hl.next_eq hsplit]
    by_cases hy : y = ptr
    · rw [if_pos hy]
      simp [hy]
    · rw [if_neg hy, ih (xs ++ [y]) (by simpa using hsplit) (by simp) (by simpa using hk)]
      simp [Ne.symm hy]

namespace Rep

variable (hr : Rep g P n m s) (hs : Separate g P)
include hr

theorem onList_pool (hi : i < n) (ptr : Addr) :
    onList g m (g.freeListAt i) ptr listRounds (next g m (g.freeListAt i)) =
      some (decide (ptr ∈ (s.gPools i).freeList)) := by
  have hl := hr.linked (.pool i) hi
  rw [hr.next_pool hi]
  exact onList_eq hl [g.freeListAt i] _ rfl (by simp) (length_lt_listRounds hl)

include hs

/-- The sweep, from a node on to the end of the ring. -/
theorem sweep_from (hi : i < n) (pageBase : Addr) (xs ys : List Addr)
    (hsplit : (s.gPools i).freeList = xs ++ ys) (hk : ys.length < k) :
    ∃ m', sweep g (g.freeListAt i) pageBase k m (ys.headD (g.freeListAt i)) = some m' ∧
      Rep g P n m' (s.setFreeList i (xs ++ ys.filter
        fun node => ¬ (pageBase ≤ node ∧ node < pageBase + 4096))) := by
  induction ys generalizing m s xs k with
  | nil =>
    obtain ⟨k, rfl⟩ := Nat.exists_eq_succ_of_ne_zero (Nat.ne_of_gt hk)
    have heq : s.setFreeList i (s.gPools i).freeList = s := by
      simp only [Allocator.setFreeList, Function.update_eq_self]
    rw [sweep, List.headD_nil, if_pos rfl, List.filter_nil, ← hsplit, heq]
    exact ⟨m, rfl, hr⟩
  | cons y ys ih =>
    obtain ⟨k, rfl⟩ := Nat.exists_eq_succ_of_ne_zero (Nat.ne_zero_of_lt hk)
    have hk' : ys.length < k := by simpa using hk
    have hl : Linked (next g m) (prev g m) (g.freeListAt i) (s.gPools i).freeList :=
      hr.linked (.pool i) hi
    have hring : g.freeListAt i :: (s.gPools i).freeList = (g.freeListAt i :: xs) ++ y :: ys := by
      rw [hsplit, List.cons_append]
    rw [sweep, List.headD_cons, if_neg (hl.ne_head hring (by simp)), hl.next_eq hring]
    by_cases hy : pageBase ≤ y ∧ y < pageBase + 4096
    · -- the node leaves the list; its successor was read before
      have hnd := (List.nodup_cons.1 hl.nodup).2
      rw [hsplit, List.nodup_middle, List.nodup_cons] at hnd
      have hxs : y ∉ xs := fun hmem => hnd.1 (List.mem_append_left ys hmem)
      have hr₁ := hr.dropChunk hs hi (a := y) (by rw [hsplit]; simp)
      rw [hsplit, List.erase_append_right _ hxs, List.erase_cons_head] at hr₁
      obtain ⟨m', hm', hr'⟩ := ih hr₁ xs (by rw [Allocator.setFreeList_self]) hk'
      simp only [Allocator.setFreeList, Function.update_idem, Function.update_self] at hr' ⊢
      rw [List.filter_cons_of_neg (by simpa using hy)]
      exact ⟨m', by simpa only [hy, and_self, if_true] using hm', hr'⟩
    · obtain ⟨m', hm', hr'⟩ := ih hr (xs ++ [y]) (by simpa using hsplit) hk'
      have hkeep : (y :: ys).filter (fun node => ¬ (pageBase ≤ node ∧ node < pageBase + 4096)) =
          y :: ys.filter fun node => ¬ (pageBase ≤ node ∧ node < pageBase + 4096) :=
        List.filter_cons_of_pos (decide_eq_true hy)
      rw [List.append_assoc] at hr'
      rw [hkeep]
      exact ⟨m', by simpa only [hy, if_false] using hm', hr'⟩

/-- The return of a chunk page. -/
theorem returnPage (hi : i < n) (hidx : idx < g.memTotalPage) (pageBase : Addr)
    (hinv : Inv (s.buddy.setFrame idx { s.buddy.frameArray idx with state := .allocPageHead }))
    (hready : s.buddy.ready = g.buddyReady) :
    ∃ m', returnPage g m i idx pageBase = some m' ∧
      Rep g P n m' (Memory.returnPage s i idx pageBase) := by
  have hlt := length_lt_listRounds (hr.linked (.pool i) hi)
  obtain ⟨m₁, heq, hr₁⟩ := hr.sweep_from hs hi pageBase [] _ rfl hlt
  have hr₂ := hr₁.setState hs hidx .allocPageHead
  obtain ⟨m₂, heq', hr₃⟩ := hr₂.buddyFreePages hs hinv hready pageBase
  refine ⟨m₂, ?_, hr₃⟩
  rw [Heap.returnPage]
  simp only [hr.next_pool hi, Option.bind_eq_bind]
  rw [heq, Option.bind_some, heq']

end Rep

/-! ## Freeing -/

namespace Holds

variable (h : Holds g P m s) (hs : Separate g P)
include h hs

omit hs in
/-- The chunk case of `free`: the checks, and what follows them. -/
theorem freeChunk_eq (hin : Memory.InPool s.buddy ptr)
    (hst : (s.buddy.frameArray (g.addrToPageIdx ptr)).state = .allocChunkPool) :
    ∃ i < chunkPoolCount, (s.buddy.frameArray (g.addrToPageIdx ptr)).metaPoolIdx = i ∧
      Heap.freeChunk g m ptr (g.addrToPageIdx ptr) =
        if (ptr - Memory.pageToAddr s.buddy (g.addrToPageIdx ptr)).toNat % gPoolSizes i ≠ 0 then
          some m
        else if ptr ∈ (s.gPools i).freeList then some m
        else
          let m' := Heap.listAdd g m ptr (g.freeListAt i)
          let m' := set g m' (.refCount (g.addrToPageIdx ptr))
            (get g m' (.refCount (g.addrToPageIdx ptr)) + (2 ^ 32 - 1))
          if get g m' (.refCount (g.addrToPageIdx ptr)) = 0 then
            Heap.returnPage g m' i (g.addrToPageIdx ptr)
              (Memory.pageToAddr s.buddy (g.addrToPageIdx ptr))
          else some m' := by
  rw [← h.rep.addrToPageIdx_eq] at hst ⊢
  have hlt := hin.idx_lt h.inv.pool
  set idx := Memory.addrToPageIdx s.buddy ptr with hidx_eq
  have hidx : idx < g.memTotalPage := hlt.trans_eq h.rep.total
  obtain ⟨i, hi, hm, -⟩ := h.inv.chunkPage idx hlt hst
  refine ⟨i, hi, hm, ?_⟩
  have hmeta : signedChar (get g m (.metaPoolIdx idx)) = i := by
    rw [show get g m (.metaPoolIdx idx) = _ from h.rep.frame idx hidx .metaPoolIdx, Datum.code, hm]
    simp only [chunkPoolCount] at hi
    rw [signedChar, if_pos (by omega)]
    omega
  have hrange : ¬ ((i : ℤ) < 0 ∨ (chunkPoolCount : ℤ) ≤ i) := by omega
  rw [Heap.freeChunk, hmeta]
  simp only
  rw [if_neg hrange, Int.toNat_natCast, h.rep.chunkSize i hi, h.inv.sizes i hi,
    hin.alignDown_eq h.inv.pool hlt, h.rep.onList_pool hi]
  simp only [Option.bind_eq_bind, Option.bind_some, decide_eq_true_eq, Option.pure_def]
  rfl

theorem freeChunk (hin : Memory.InPool s.buddy ptr)
    (hst : (s.buddy.frameArray (g.addrToPageIdx ptr)).state = .allocChunkPool) :
    ∃ m', freeChunk g m ptr (g.addrToPageIdx ptr) = some m' ∧
      Rep g P chunkPoolCount m' (Memory.freeChunk s ptr (g.addrToPageIdx ptr)) := by
  obtain ⟨i, hi, hm, heq⟩ := h.freeChunk_eq hin hst
  rw [heq]
  rw [← h.rep.addrToPageIdx_eq] at hst hm ⊢
  have hlt := hin.idx_lt h.inv.pool
  set idx := Memory.addrToPageIdx s.buddy ptr with hidx_eq
  have hidx : idx < g.memTotalPage := hlt.trans_eq h.rep.total
  have hrange : ¬ ((i : ℤ) < 0 ∨ (chunkPoolCount : ℤ) ≤ i) := by omega
  rw [Memory.freeChunk, hm]
  simp only
  rw [if_neg hrange, Int.toNat_natCast, h.inv.sizes i hi, hin.alignDown_eq h.inv.pool hlt]
  by_cases hal : (ptr - Memory.pageToAddr s.buddy idx).toNat % gPoolSizes i = 0
  swap
  · rw [if_pos hal, if_pos hal]
    exact ⟨m, rfl, h.rep⟩
  rw [if_neg (not_not.2 hal), if_neg (not_not.2 hal)]
  by_cases hmem : ptr ∈ (s.gPools i).freeList
  · rw [if_pos hmem, if_pos hmem]
    exact ⟨m, rfl, h.rep⟩
  rw [if_neg hmem, if_neg hmem]
  -- a live chunk
  obtain ⟨c, hc, hptr⟩ := hin.eq_chunkAddr h.inv.pool hlt hi hal
  have hu := chunkUpdate_push h.inv hi hlt hst hm hc (hptr ▸ hmem)
  rw [← hptr] at hu
  have hinv : AllocInv (pushed s i idx ptr) := h.inv.update hu
  have hnode : (FreeList.pool i).IsNode g P ptr := by
    rw [hptr, chunkAddr, h.rep.pageToAddr_eq]
    exact chunkAt_isNode hidx (h.page idx hidx (by rw [hst]; decide)) hi hc
  have hr₁ := h.rep.pushChunk hs hi hnode fun j hj hmem' => by
    obtain ⟨idx', c', hidx', -, hm', hc', heq⟩ := h.inv.freeList j hj ptr hmem'
    obtain rfl : idx = idx' := by
      rw [hidx_eq, heq, addrToPageIdx_chunkAddr h.inv.pool hidx' hj hc']
    obtain rfl : i = j := by exact_mod_cast hm.symm.trans hm'
    exact hmem hmem'
  have hcount : get g (Heap.listAdd g m ptr (g.freeListAt i)) (.refCount idx) =
      toUnsigned (s.buddy.frameArray idx).refCount := hr₁.frame idx hidx .refCount
  have hr₂ : Rep g P chunkPoolCount _ (pushed s i idx ptr) :=
    hr₁.setRefCount hs hidx _ _ (toUnsigned_sub_one (s.buddy.frameArray idx).refCount)
  rw [← hcount] at hr₂
  have hself : (pushed s i idx ptr).buddy.frameArray idx = { s.buddy.frameArray idx with
      refCount := (s.buddy.frameArray idx).refCount - 1 } := Buddy.setFrame_self ..
  have hzero : get g (set g (Heap.listAdd g m ptr (g.freeListAt i)) (.refCount idx)
      (get g (Heap.listAdd g m ptr (g.freeListAt i)) (.refCount idx) + (2 ^ 32 - 1)))
      (.refCount idx) = 0 ↔ (s.buddy.frameArray idx).refCount - 1 = 0 := by
    rw [show get g _ (.refCount idx) = _ from hr₂.frame idx hidx .refCount, Datum.code, hself]
    -- the page has at most 4096 chunks
    obtain ⟨i', -, -, hcard⟩ := hinv.chunkPage idx hlt (by rw [hself]; exact hst)
    have hle := (Finset.card_filter_le (Finset.range (pageSize / gPoolSizes i'))
      fun c => chunkAddr (pushed s i idx ptr).buddy i' idx c ∉
        ((pushed s i idx ptr).gPools i').freeList)
    rw [Finset.card_range] at hle
    have hdiv := Nat.div_le_self pageSize (gPoolSizes i')
    rw [hself, liveChunks] at hcard
    simp only at hcard ⊢
    refine toUnsigned_eq_zero (by omega) ?_
    simp only [pageSize] at hle hdiv hcard ⊢
    omega
  simp only [hzero, Buddy.setFrame_self, Allocator.setFreeList]
  by_cases hz : (s.buddy.frameArray idx).refCount - 1 = 0
  · rw [if_pos hz, if_pos hz]
    have hst' : ((pushed s i idx ptr).buddy.frameArray idx).state = .allocChunkPool := by
      rw [hself]
      exact hst
    exact hr₂.returnPage hs hi hidx _ (hinv.inv.ofChunk hlt hst' rfl rfl) h.ready_eq
  · rw [if_neg hz, if_neg hz]
    exact ⟨_, rfl, hr₂⟩

theorem freePage (hidx : idx < g.memTotalPage)
    (hst : (s.buddy.frameArray idx).state = .allocPageHead) :
    ∃ m', freePage g m ptr idx = some m' ∧
      Rep g P chunkPoolCount m' (Memory.freePage s ptr idx) := by
  rw [Heap.freePage, Memory.freePage]
  by_cases hal : ptr &&& 4095#64 ≠ 0
  · rw [if_pos hal, if_pos hal]
    exact ⟨m, rfl, h.rep⟩
  rw [if_neg hal, if_neg hal]
  have hget : get g m (.cowRefCount idx) = toUnsigned (s.buddy.frameArray idx).cowRefCount :=
    h.rep.frame idx hidx .cowRefCount
  have hr₁ := h.rep.setCow hs hidx _ _ (toUnsigned_sub_one (s.buddy.frameArray idx).cowRefCount)
  rw [← hget] at hr₁
  have hzero : get g (set g m (.cowRefCount idx) (get g m (.cowRefCount idx) + (2 ^ 32 - 1)))
      (.cowRefCount idx) = 0 ↔ (s.buddy.frameArray idx).cowRefCount - 1 = 0 := by
    rw [show get g _ (.cowRefCount idx) = _ from hr₁.frame idx hidx .cowRefCount, Datum.code]
    simp only [Buddy.setFrame_self]
    have h₁ := h.inv.cow idx (hidx.trans_eq h.rep.total.symm) hst
    have h₂ := h.cow idx hidx hst
    exact toUnsigned_eq_zero (by omega) (by omega)
  simp only [hzero, Buddy.setFrame_self]
  split_ifs
  · exact hr₁.buddyFreePages hs (h.inv.inv.setFrame rfl rfl) h.ready_eq ptr
  · exact ⟨_, rfl, hr₁⟩

/-- **`free` in memory**, of any pointer. -/
theorem free (ptr : Addr) : ∃ m', free g m ptr = some m' ∧ Holds g P m' (Memory.free s ptr) := by
  suffices hrep : ∃ m', Heap.free g m ptr = some m' ∧
      Rep g P chunkPoolCount m' (Memory.free s ptr) by
    obtain ⟨m', heq, hr⟩ := hrep
    exact ⟨m', heq, h.next hr (free_spec h.inv ptr) (refsFrom_free h.inv ptr)⟩
  rw [Heap.free, Memory.free, ← h.allocator_ready_eq, h.rep.addrToPageIdx_eq, ← h.rep.total]
  simp only [h.rep.inPool_iff]
  by_cases h₁ : ¬ s.ready = true ∨ ptr = 0
  · rw [if_pos h₁, if_pos h₁]
    exact ⟨m, rfl, h.rep⟩
  rw [if_neg h₁, if_neg h₁]
  by_cases hin : Memory.InPool s.buddy ptr
  swap
  · rw [if_pos hin, if_pos hin]
    exact ⟨m, rfl, h.rep⟩
  rw [if_neg (not_not.2 hin), if_neg (not_not.2 hin)]
  have hlt := hin.idx_lt h.inv.pool
  rw [h.rep.addrToPageIdx_eq] at hlt
  have hidx := hlt.trans_eq h.rep.total
  rw [if_neg (Nat.not_le.2 hlt), if_neg (Nat.not_le.2 hlt)]
  simp only [h.rep.state_eq_iff hidx]
  cases hst : (s.buddy.frameArray (g.addrToPageIdx ptr)).state with
  | allocChunkPool => exact h.freeChunk hs hin hst
  | allocPageHead => exact h.freePage hs hidx hst
  | freeHead => exact ⟨m, rfl, h.rep⟩
  | freeTail => exact ⟨m, rfl, h.rep⟩
  | reserved => exact ⟨m, rfl, h.rep⟩
  | allocPageTail => exact ⟨m, rfl, h.rep⟩

/-- **`page_inc_ref` in memory**, when the `int` does not overflow. -/
theorem pageIncRef (ptr : Addr)
    (hint : get g m (.cowRefCount (g.addrToPageIdx ptr)) + 1 < 2 ^ 31) :
    Holds g P (pageIncRef g m ptr) (Memory.pageIncRef s ptr) := by
  have hk := pageIncRef_spec h.inv ptr
  rw [Memory.pageIncRef] at hk ⊢
  rw [Heap.pageIncRef]
  simp only [h.rep.inPool_iff, h.rep.addrToPageIdx_eq] at hk ⊢
  by_cases hin : Memory.InPool s.buddy ptr
  swap
  · rw [if_pos hin, if_pos hin]
    exact h
  rw [if_neg (not_not.2 hin)] at hk ⊢
  rw [if_neg (not_not.2 hin)]
  have hlt := hin.idx_lt h.inv.pool
  rw [h.rep.addrToPageIdx_eq] at hlt
  set idx := g.addrToPageIdx ptr
  have hidx : idx < g.memTotalPage := hlt.trans_eq h.rep.total
  have hget : get g m (.cowRefCount idx) = toUnsigned (s.buddy.frameArray idx).cowRefCount :=
    h.rep.frame idx hidx .cowRefCount
  have hr₁ := h.rep.setCow hs hidx _ _ (toUnsigned_add_one (s.buddy.frameArray idx).cowRefCount)
  rw [← hget] at hr₁
  refine ⟨hr₁, hk.inv, h.allocatorReady, h.buddyReady, fun j hj hst => ?_, fun j hj hst => ?_⟩
  · exact h.page j hj fun heq => hst ((hk.reserved j).2 heq)
  · by_cases hji : j = idx
    · rw [hji, Buddy.setFrame_self] at hst ⊢
      have h₁ := h.inv.cow idx hlt hst
      have h₂ := h.cow idx hidx hst
      rw [hget, toUnsigned] at hint
      simp only
      omega
    · rw [Buddy.setFrame_of_ne _ _ hji] at hst ⊢
      exact h.cow j hj hst

end Holds

/-! ## Stores of the callers -/

/-- A byte that is in no field in use. -/
theorem Rep.storeByte (hr : Rep g P n m s) (hs : Separate g P) (v : ℕ)
    (hpage : a ∈ g.bytes P .pages)
    (hfree : ∀ i < n, ∀ e ∈ (s.gPools i).freeList, a ∉ bytesAt e 16) :
    Rep g P n (m.store a 1 v) s := by
  have hget : ∀ {f : Field}, a ∉ bytesAt (g.addr f) f.size →
      get g (m.store a 1 v) f = get g m f := by
    intro f hf
    refine ByteMemory.load_store_of_disjoint (by decide) (Set.disjoint_left.2 fun b hb hb' => hf ?_)
    obtain ⟨i, hi, rfl⟩ := hb'
    obtain rfl : i = 0 := by omega
    rwa [show a + BitVec.ofNat 64 0 = a from BitVec.add_zero a] at hb
  have hpart : ∀ {f : Field} {r : Part} {o : ℕ}, Spot g P f r o → r ≠ .pages →
      get g (m.store a 1 v) f = get g m f := fun hf hne =>
    hget fun hmem => Set.disjoint_left.1 (hs.disjoint _ _ hne) (hf.subset_bytes hmem) hpage
  refine ⟨hr.start, hr.size, hr.total, hr.pools, fun idx hidx d => ?_, fun i hi => ?_,
    fun y hy => (hr.linked y hy).congr fun e he => ?_, hr.area_lt, hr.chunk, hr.apart⟩
  · obtain ⟨o, ho⟩ := Datum.spot (P := P) d hidx
    rw [hpart ho (by decide)]
    exact hr.frame idx hidx d
  · rw [hpart (.chunkSize (lt_of_lt_of_le hi hr.pools)) (by decide)]
    exact hr.chunkSize i hi
  · suffices hlink : get g (m.store a 1 v) (.next e) = get g m (.next e) ∧
        get g (m.store a 1 v) (.prev e) = get g m (.prev e) by
      rw [next, prev, hlink.1, hlink.2]
      exact ⟨rfl, rfl⟩
    rcases List.mem_cons.1 he with rfl | he
    · obtain ⟨_, h₁, h₂⟩ := FreeList.node_head (P := P) hy hr.pools
      have hne : y.headPart ≠ .pages := by cases y <;> simp [FreeList.headPart]
      exact ⟨hpart h₁ hne, hpart h₂ hne⟩
    · cases y with
      | area k =>
        obtain ⟨_, h₁, h₂⟩ := (hr.isNode hy he).node
        exact ⟨hpart h₁ (by simp [FreeList.nodePart]), hpart h₂ (by simp [FreeList.nodePart])⟩
      | pool i =>
        have hnot := hfree i hy e he
        refine ⟨hget fun hmem => hnot ?_, hget fun hmem => hnot ?_⟩
        · rw [← BitVec.add_zero (g.addr (.next e))] at hmem
          exact bytesAt_subset (o := 0) (show 0 + 8 ≤ 16 by decide) hmem
        · exact bytesAt_subset (o := 8) (show 8 + 8 ≤ 16 by decide) hmem

namespace Holds

/-- **A store to a live block** leaves the state alone. -/
theorem storeByte (h : Holds g P m s) (hs : Separate g P) (hl : Live s p n) (ha : a ∈ bytesAt p n)
    (v : ℕ) : Holds g P (m.store a 1 v) s := by
  obtain ⟨o, hp, hn, ho, idx, hcov⟩ := hl.offset h.inv
  have htotal := h.inv.pool.total
  rw [hp, mem_bytesAt_add] at ha
  obtain ⟨x, hx₁, hx₂, rfl⟩ := ha
  have hc := hcov x hx₁ hx₂
  refine ⟨h.rep.storeByte hs v ?_ fun i hi e he hmem => ?_, h.inv, h.allocatorReady, h.buddyReady,
    h.page, h.cow⟩
  · -- the page of the byte is not reserved
    have hj : x / pageSize < g.memTotalPage := by
      rw [← h.rep.total, Nat.div_lt_iff_lt_mul (show 0 < pageSize by decide)]
      omega
    have hst := hc.page_state.2
    refine ⟨x / pageSize, hj, h.page _ hj fun heq => ?_, ?_⟩
    · rw [heq] at hst
      simp at hst
    · rw [h.rep.start, Globals.pageToAddr, mem_bytesAt_add]
      refine ⟨x, Nat.div_mul_le_self x pageSize, ?_, rfl⟩
      have := Nat.div_add_mod' x pageSize
      have := Nat.mod_lt x (show 0 < pageSize by decide)
      omega
  · -- a chunk on a list is not live
    obtain ⟨idx', c, hidx', hst, hm, hc', rfl⟩ := h.inv.freeList i hi e he
    have hoff := chunk_offset_lt hi hc'
    have h16 : 16 ≤ gPoolSizes i := by
      rw [gPoolSizes_eq hi]
      exact Nat.pow_le_pow_right (Nat.succ_pos 1) (Nat.le_add_left 4 i)
    rw [chunkAddr_eq, mem_bytesAt_add] at hmem
    obtain ⟨y, hy₁, hy₂, hxy⟩ := hmem
    obtain rfl : x = y := by
      refine (add_ofNat_inj ?_ ?_).1 hxy
      all_goals
        simp only [pageSize, buddyTotalPages] at *
        omega
    have hcov' : Covers s (chunkAddr s.buddy i idx' c) (gPoolSizes i) idx' x :=
      .chunk hi hc' hst hm hy₁ (by omega)
    obtain ⟨rfl, rfl⟩ := hc.unique hcov'
    exact h.inv.not_live_of_mem hi he _ hl

end Holds

end BareMetalOS.Heap
