import BareMetalOS.Heap.Runs

/-!
# The free lists in memory

`listAt` collects the nodes of a list by following the `next` pointers, and `freeBlocks` the free
blocks of an order. In memory, too, the free lists are canonical (`freeBlocks_canonical`): the free
pages determine them, and when every allocation has been freed they hold the blocks that they held
after `buddy_init`. Again this needs a `frame_array` that the chunks keep out of
(`not_freeBlocks_canonical`).
-/

namespace BareMetalOS.Heap

open Memory

/-- The nodes of a list, from the node `it` on. -/
def walk (g : Globals) (m : Mem) (head : Addr) : ℕ → Addr → Option (List Addr)
  | 0, _ => none
  | n + 1, it => if it = head then some [] else (walk g m head n (next g m it)).map (it :: ·)

/-- The nodes of a list. -/
def listAt (g : Globals) (m : Mem) (head : Addr) : Option (List Addr) :=
  walk g m head listRounds (next g m head)

/-- The blocks on `free_area[k]`. -/
def freeBlocks (g : Globals) (m : Mem) (k : ℕ) : Option (List ℕ) :=
  (listAt g m (g.freeAreaAt k)).map (List.map g.frameIdx)

/-- The page belongs to a free block. -/
def IsFreePage (g : Globals) (m : Mem) (idx : ℕ) : Prop :=
  idx < g.memTotalPage ∧ (get g m (.state idx) = stateCode .freeHead ∨
    get g m (.state idx) = stateCode .freeTail)

/-- Every list has the same free blocks. -/
def SameBlocks (g : Globals) (m : Mem) (g' : Globals) (m' : Mem) : Prop :=
  ∀ k ≤ buddyMaxOrder, ∃ l l', freeBlocks g m k = some l ∧ freeBlocks g' m' k = some l' ∧ l.Perm l'

variable {g g' : Globals} {P P' : ℕ → Prop} {m m' : Mem} {s s' : Allocator} {b : Buddy} {h : Addr}
  {l : List Addr} {x : FreeList} {j k n n' : ℕ}

/-! ## Walks -/

theorem walk_eq (hl : Linked (next g m) (prev g m) h l) (xs ys : List Addr)
    (hsplit : h :: l = xs ++ ys) (hxs : xs ≠ []) (hk : ys.length < k) :
    walk g m h k (ys.headD h) = some ys := by
  induction ys generalizing xs k with
  | nil =>
    obtain ⟨k, rfl⟩ := Nat.exists_eq_succ_of_ne_zero (Nat.ne_of_gt hk)
    rw [walk, List.headD_nil, if_pos rfl]
  | cons y ys ih =>
    obtain ⟨k, rfl⟩ := Nat.exists_eq_succ_of_ne_zero (Nat.ne_zero_of_lt hk)
    have hyh : y ≠ h := hl.ne_head hsplit hxs
    rw [walk, List.headD_cons, if_neg hyh, hl.next_eq hsplit,
      ih (xs ++ [y]) (by simpa using hsplit) (by simp) (by simpa using hk)]
    rfl

namespace Rep

variable (hr : Rep g P n m s)
include hr

/-- Every list is read in full. -/
theorem listAt_eq (hx : x.InUse n) : listAt g m (x.head g) = some (x.nodes g s) := by
  have hl := hr.linked x hx
  rw [listAt, hl.next_head]
  exact walk_eq hl [x.head g] _ rfl (by simp) (length_lt_listRounds hl)

theorem freeBlocks_eq (hs : g.memTotalPage ≤ buddyTotalPages) (hk : k ≤ buddyMaxOrder) :
    freeBlocks g m k = some (s.buddy.freeArea k) := by
  have hlist := hr.listAt_eq (x := .area k) hk
  simp only [FreeList.head, FreeList.nodes] at hlist
  rw [freeBlocks, hlist, Option.map_some, List.map_map, Option.some_inj]
  refine (List.map_congr_left fun idx hidx => ?_).trans (List.map_id _)
  have hlt := hr.area_lt k hk idx hidx
  simp only [buddyTotalPages] at hs
  exact frameIdx_nodeAt g (by omega)

theorem isFreePage_iff : IsFreePage g m j ↔
    j < s.buddy.memTotalPage ∧ (s.buddy.frameArray j).IsFree := by
  rw [IsFreePage, hr.total]
  refine and_congr_right fun hj => ?_
  rw [hr.state_eq_iff hj, hr.state_eq_iff hj]
  exact Iff.rfl

end Rep

/-- Memories that hold states with the same free pages have the same free lists. -/
theorem sameBlocks_of_rep (hr : Rep g P n m s) (hr' : Rep g' P' n' m' s') (hi : Inv s.buddy)
    (hi' : Inv s'.buddy) (hs : g.memTotalPage ≤ buddyTotalPages)
    (hs' : g'.memTotalPage ≤ buddyTotalPages) (hfree : ∀ j, IsFreePage g m j ↔ IsFreePage g' m' j) :
    SameBlocks g m g' m' := by
  intro k hk
  refine ⟨_, _, hr.freeBlocks_eq hs hk, hr'.freeBlocks_eq hs' hk, ?_⟩
  refine (List.perm_ext_iff_of_nodup (hi.nodup k) (hi'.nodup k)).2 (hi.freeArea_congr hi' ?_ k)
  intro j
  rw [← hr.isFreePage_iff, ← hr'.isFreePage_iff]
  exact hfree j

/-! ## Calls of the buddy system -/

/-- A call of the page allocator in memory. -/
def buddyStep (g : Globals) (m : Mem) : BuddyOp → Option Mem
  | .alloc order => (buddyAllocPages g m order).map Prod.snd
  | .free ptr => buddyFreePages g m ptr

/-- A sequence of calls. -/
def heapBuddyRun (g : Globals) (m : Mem) (ops : List BuddyOp) : Option Mem :=
  ops.foldlM (buddyStep g) m

theorem Rep.buddyStep (hr : Rep g P n m s) (hs : Separate g P) (hi : Inv s.buddy)
    (hready : s.buddy.ready = g.buddyReady) (op : BuddyOp) :
    ∃ m', buddyStep g m op = some m' ∧ Rep g P n m' { s with buddy := op.step s.buddy } := by
  cases op with
  | alloc order =>
    obtain ⟨m', heq, hr'⟩ := hr.buddyAllocPages hs hi hready order
    exact ⟨m', by rw [Heap.buddyStep, heq]; rfl, hr'⟩
  | free ptr => exact hr.buddyFreePages hs hi hready ptr

theorem Rep.buddyRun (hr : Rep g P n m s) (hs : Separate g P) (hi : Inv s.buddy)
    (hc : NoChunkPage s.buddy) (hready : s.buddy.ready = g.buddyReady) (ops : List BuddyOp) :
    ∃ m', heapBuddyRun g m ops = some m' ∧
      Rep g P n m' { s with buddy := buddyRun s.buddy ops } := by
  induction ops generalizing m s with
  | nil => exact ⟨m, rfl, hr⟩
  | cons op ops ih =>
    obtain ⟨m₁, heq, hr₁⟩ := hr.buddyStep hs hi hready op
    have hready' : (op.step s.buddy).ready = g.buddyReady :=
      (ready_buddyRun s.buddy [op] hi hc).trans hready
    obtain ⟨m', heq', hr'⟩ := ih hr₁ (inv_buddyOp hi op) (hc.step hi op) hready'
    refine ⟨m', ?_, hr'⟩
    rw [heapBuddyRun, List.foldlM_cons, heq]
    exact heq'

/-! ## Every reachable memory -/

/-- The memories after `buddy_init` and any calls of `buddy_alloc_pages` and `buddy_free_pages`, or
after `allocator_init` and any calls and stores. -/
inductive HeapReachable (g : Globals) : Mem → Prop
  | direct {m m' : Mem} (hg : Started g) (hs : Separate g fun _ => False) (ops : List BuddyOp)
      (h : heapBuddyRun g (buddyInit g m) ops = some m') : HeapReachable g m'
  | calls {m : Mem} {h : HeapHistory} (hg : Started g) (hs : Separate g (NotReserved g m))
      (ops : List HeapOp) (h' : heapRun g ⟨allocatorInit g m, []⟩ ops = some h) :
      HeapReachable g h.mem

theorem HeapReachable.exists_rep (h : HeapReachable g m) :
    g.memTotalPage ≤ buddyTotalPages ∧ ∃ P n s, Rep g P n m s ∧ Inv s.buddy := by
  cases h with
  | @direct m₀ _ hg hs ops h =>
    have hi := buddyInit_spec (markedPool g m₀)
    have hr := rep_buddyInit hs ⟨rfl, rfl, rfl⟩ (sameReserved_markFrames g m₀ (markedPool g m₀))
      (startState g m₀)
    have hc := noChunkPage_buddyInit (markedPool g m₀)
    obtain ⟨m', heq, hr'⟩ := hr.buddyRun hs hi.inv hc (hi.ready.trans hg.buddyReady.symm) ops
    obtain rfl := Option.some.inj (heq.symm.trans h)
    exact ⟨hs.total_le, _, _, _, hr', (inv_buddyRun hi.inv hc ops).1⟩
  | calls hg hs ops h =>
    obtain ⟨h', heq, hh⟩ := (hg.sim hs).run hs ops
    obtain rfl := Option.some.inj (heq.symm.trans h)
    exact ⟨hs.total_le, _, _, _, hh.holds.rep, hh.holds.inv.inv⟩

/-- The pool is a range of addresses without `NULL`. -/
structure RealRange (g : Globals) : Prop where
  start : g.mempoolStart ≠ 0
  fits : g.mempoolStart.toNat + g.mempoolSize.toNat < 2 ^ 64

theorem RealRange.realPool (h : RealRange g) (hg : Started g) (m : Mem) :
    RealPool (markedPool g m) := by
  refine ⟨h.start, ?_⟩
  rw [← (hg.alignedPool m).size]
  exact h.fits

/-- When nothing is live, a page is free unless it is `RESERVED`. -/
theorem Sim.isFreePage_iff {h : HeapHistory} {a : History} (hh : Sim g P h a) (he : ExactHistory a)
    (hnil : h.live = []) (hj : j < g.memTotalPage) :
    IsFreePage g h.mem j ↔ NotReserved g h.mem j := by
  have hr := hh.holds.rep
  rw [hr.isFreePage_iff, hr.notReserved_iff hj,
    he.isFree_iff (hh.live ▸ hnil) (hj.trans_eq hr.total.symm)]
  exact and_iff_right (hj.trans_eq hr.total.symm)

/-- **The free lists in memory are canonical**, if `frame_array`, `free_area` and `g_pools` overlap
neither each other nor a page that is not `RESERVED`. Reachable memories with the same free pages
have the same free blocks of every order. When every allocation has been freed, in whatever order,
each list holds the blocks that it held after `buddy_init`, and no page is left to a chunk pool. -/
theorem freeBlocks_canonical (g : Globals) (m : Mem) :
    (HeapReachable g m → ∀ g' m', HeapReachable g' m' →
      (∀ j, IsFreePage g m j ↔ IsFreePage g' m' j) → SameBlocks g m g' m') ∧
    (Started g → RealRange g → Separate g (NotReserved g m) → ∀ ops,
      ∃ h, heapRun g ⟨allocatorInit g m, []⟩ ops = some h ∧ (h.live = [] →
        SameBlocks g h.mem g (buddyInit g m) ∧
        ∀ j < g.memTotalPage, get g h.mem (.state j) ≠ stateCode .allocChunkPool)) := by
  refine ⟨fun h g' m' h' hfree => ?_, fun hg hreal hs ops => ?_⟩
  · obtain ⟨htotal, P, n, s, hr, hi⟩ := h.exists_rep
    obtain ⟨htotal', P', n', s', hr', hi'⟩ := h'.exists_rep
    exact sameBlocks_of_rep hr hr' hi hi' htotal htotal' hfree
  have hstart := hg.sim hs
  have hexact : ExactHistory ⟨startState g m, []⟩ :=
    exactHistory_start (hg.alignedPool m) (hreal.realPool hg m)
  obtain ⟨h, heq, hh⟩ := hstart.run hs ops
  have he := hexact.run (ops.filterMap HeapOp.call)
  obtain ⟨-, -, hres⟩ := hstart.inv.run (ops.filterMap HeapOp.call)
  refine ⟨h, heq, fun hnil => ⟨?_, fun j hj hst => ?_⟩⟩
  · have hr := rep_buddyInit (m := m) hs ⟨rfl, rfl, rfl⟩
      (sameReserved_markFrames g m (markedPool g m)) (startState g m)
    refine sameBlocks_of_rep hh.holds.rep hr hh.holds.inv.inv
      (buddyInit_spec (markedPool g m)).inv hs.total_le hs.total_le fun j => ?_
    by_cases hj : j < g.memTotalPage
    · -- the free pages are those that are not reserved, as at the start
      rw [hh.isFreePage_iff he hnil hj, hh.holds.rep.notReserved_iff hj, hr.isFreePage_iff]
      have hfree := hexact.isFree_iff rfl (hj.trans_eq hstart.holds.rep.total.symm)
      refine Iff.trans ?_ (and_iff_right (hj.trans_eq hstart.holds.rep.total.symm)).symm
      exact (not_congr (hres j)).trans hfree.symm
    · exact iff_of_false (fun hfree => hj hfree.1) fun hfree => hj hfree.1
  · have hstate := (hh.holds.rep.state_eq_iff hj).1 hst
    have hfree := (he.isFree_iff (hh.live ▸ hnil) (hj.trans_eq hh.holds.rep.total.symm)).2 (by
      rw [hstate]
      simp)
    exact hfree.ne.2.1 hstate

theorem length_allocate {h h' : HeapHistory} {size : ℕ}
    (heq : (HeapOp.allocate size).step g h = some h') : h'.live.length ≤ h.live.length + 1 := by
  obtain ⟨⟨p, m⟩, -, heq⟩ := Option.bind_eq_some_iff.1 heq
  cases heq
  simp only
  split_ifs
  · exact Nat.le_succ _
  · exact le_refl _

theorem length_free_zero {h h' : HeapHistory} (heq : (HeapOp.free 0).step g h = some h') :
    h'.live.length = h.live.length - 1 := by
  obtain ⟨m, _ | ⟨e, live⟩⟩ := h
  · cases heq
    rfl
  · obtain ⟨m', -, heq⟩ := Option.bind_eq_some_iff.1 heq
    cases heq
    rfl

/-- Whatever two allocations return, nothing is live after two calls of `free`. -/
theorem live_eq_nil {h h' : HeapHistory} {n k : ℕ} (hnil : h.live = [])
    (heq : heapRun g h [.allocate n, .allocate k, .free 0, .free 0] = some h') : h'.live = [] := by
  obtain ⟨h₁, heq₁, heq⟩ := Option.bind_eq_some_iff.1 heq
  obtain ⟨h₂, heq₂, heq⟩ := Option.bind_eq_some_iff.1 heq
  obtain ⟨h₃, heq₃, heq⟩ := Option.bind_eq_some_iff.1 heq
  obtain ⟨h₄, heq₄, heq⟩ := Option.bind_eq_some_iff.1 heq
  cases heq
  have hlen₁ := length_allocate heq₁
  have hlen₂ := length_allocate heq₂
  have hlen₃ := length_free_zero heq₃
  have hlen₄ := length_free_zero heq₄
  rw [hnil, List.length_nil] at hlen₁
  exact List.eq_nil_of_length_eq_zero (by omega)

/-- Two allocations are freed without a device tree. -/
theorem freeBlocks_canonical_default : ∃ h, heapRun defaultGlobals
    ⟨allocatorInit defaultGlobals (markedMemory defaultGlobals defaultTable ⟨fun _ => 0⟩), []⟩
    [.allocate 100, .allocate 5000, .free 0, .free 0] = some h ∧ h.live = [] ∧
      SameBlocks defaultGlobals h.mem defaultGlobals
        (buddyInit defaultGlobals (markedMemory defaultGlobals defaultTable ⟨fun _ => 0⟩)) := by
  obtain ⟨h, heq, hfree⟩ := (freeBlocks_canonical defaultGlobals
    (markedMemory defaultGlobals defaultTable ⟨fun _ => 0⟩)).2 default_boots.started
    ⟨by decide, by decide⟩ (default_boots.separate (default_framesReserved ⟨fun _ => 0⟩))
    [.allocate 100, .allocate 5000, .free 0, .free 0]
  have hnil := live_eq_nil rfl heq
  exact ⟨h, heq, hnil, (hfree hnil).1⟩

/-- A page and two chunks are allocated and freed, after the boot with a full table. -/
def crampedFrees : List HeapOp :=
  [.allocate 4096, .allocate 2048, .allocate 1024, .free 0, .free 0, .free 0]

theorem cramped_freeBlocks :
    (heapRun crampedGlobals ⟨allocatorInit crampedGlobals crampedMemory, []⟩ crampedFrees).map
        (fun h => (h.live, freeBlocks crampedGlobals h.mem 0)) = some ([], some [51, 1]) ∧
      freeBlocks crampedGlobals (buddyInit crampedGlobals crampedMemory) 0 = some [51, 25, 1] := by
  decide +kernel

/-- When the table is full, a page does not come back. -/
theorem not_freeBlocks_canonical : ¬ ∀ (board : Board) (image : Boot.Image)
    (fdt : Option Boot.Blob) (b₀ : Buddy) (g : Globals) (rgns : List Boot.Region) (m : Mem),
    Boots board image fdt b₀ g rgns → RealRange g → ∀ ops,
      ∃ h, heapRun g ⟨allocatorInit g (markedMemory g rgns m), []⟩ ops = some h ∧
        (h.live = [] → SameBlocks g h.mem g (buddyInit g (markedMemory g rgns m))) := by
  intro hall
  obtain ⟨h, heq, hsame⟩ := hall _ _ _ _ _ _ ⟨fun _ => 0⟩ cramped_boots ⟨by decide, by decide⟩
    crampedFrees
  have heq' : heapRun crampedGlobals ⟨allocatorInit crampedGlobals crampedMemory, []⟩ crampedFrees =
    some h := heq
  obtain ⟨hend, hinit⟩ := cramped_freeBlocks
  rw [heq', Option.map_some, Option.some_inj, Prod.mk.injEq] at hend
  obtain ⟨l, l', hl, hl', hperm⟩ := hsame hend.1 0 (Nat.zero_le _)
  obtain rfl := Option.some.inj (hend.2.symm.trans hl)
  obtain rfl := Option.some.inj (hinit.symm.trans hl')
  exact absurd hperm.length_eq (by decide)

end BareMetalOS.Heap
