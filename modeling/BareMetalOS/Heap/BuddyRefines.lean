import BareMetalOS.Heap.Represents

/-!
# The buddy system in memory refines the model

Each function of `lib/buddy.c` over memory does to the state that the memory represents what the
function of the level above does: `Rep.buddyAllocPages` and `Rep.buddyFreePages`. The loops are
followed with the holes of the level above (`Hole`), which say that the block at hand is on no list,
or that its buddy is on one. `buddy_dump_free_areas` comes to an end, as every list is a ring.
-/

namespace BareMetalOS.Heap

open Memory

variable {g : Globals} {P : ℕ → Prop} {m : Mem} {s s' : Allocator} {x y : FreeList} {a h : Addr}
  {l : List Addr} {fr : ℕ → Frame} {st ts : PageState} {idx k n order d : ℕ}

/-! ## Codes -/

theorem stateCode_inj : stateCode st = stateCode ts ↔ st = ts := by
  cases st <;> cases ts <;> decide

theorem stateCode_mod (st : PageState) : stateCode st % 256 ^ 4 = stateCode st := by
  cases st <;> rfl

theorem toUnsigned_mod (x : ℤ) : toUnsigned x % 256 ^ 4 = toUnsigned x := by
  have := Int.emod_lt_of_pos x (show (0 : ℤ) < 2 ^ 32 by decide)
  simp only [toUnsigned]
  omega

theorem toUnsigned_ofNat (k : ℕ) : toUnsigned (k : ℤ) = k % 256 ^ 4 := by
  simp only [toUnsigned]
  omega

namespace Rep

/-! ## Blocks -/

theorem state_eq (h : Rep g P n m s) (hidx : idx < g.memTotalPage) :
    get g m (.state idx) = stateCode (s.buddy.frameArray idx).state := h.frame idx hidx .state

theorem order_eq (h : Rep g P n m s) (hidx : idx < g.memTotalPage) :
    get g m (.order idx) = toUnsigned (s.buddy.frameArray idx).order := h.frame idx hidx .order

theorem state_eq_iff (h : Rep g P n m s) (hidx : idx < g.memTotalPage) :
    get g m (.state idx) = stateCode st ↔ (s.buddy.frameArray idx).state = st := by
  rw [h.state_eq hidx, stateCode_inj]

theorem setState (h : Rep g P n m s) (hs : Separate g P) (hidx : idx < g.memTotalPage)
    (st : PageState) : Rep g P n (set g m (.state idx) (stateCode st)) { s with
      buddy := s.buddy.setFrame idx { s.buddy.frameArray idx with state := st } } :=
  h.setFrame hs hidx .state _ (stateCode_mod st).symm fun d hd => by
    cases d <;> first | rfl | exact absurd rfl hd

theorem setOrder (h : Rep g P n m s) (hs : Separate g P) (hidx : idx < g.memTotalPage) (v : ℕ)
    (o : ℤ) (ho : toUnsigned o = v % 256 ^ 4) : Rep g P n (set g m (.order idx) v) { s with
      buddy := s.buddy.setFrame idx { s.buddy.frameArray idx with order := o } } :=
  h.setFrame hs hidx .order _ ho fun d hd => by
    cases d <;> first | rfl | exact absurd rfl hd

theorem markTail (h : Rep g P n m s) (hs : Separate g P) (idx : ℕ) (ts : PageState) (k : ℕ)
    (hk : idx + k < g.memTotalPage) : Rep g P n (markTail g m idx ts k) { s with
      buddy := { s.buddy with
        frameArray := updRange (fun f => { f with state := ts, order := -1 }) s.buddy.frameArray
          (idx + 1) k } } := by
  induction k with
  | zero => exact h
  | succ k ih =>
    have h₁ := (ih (by omega)).setState hs hk ts
    have h₂ := h₁.setOrder hs hk (toUnsigned (-1)) (-1) (toUnsigned_mod _).symm
    simp only [Buddy.setFrame, Function.update_self, Function.update_idem] at h₂
    rw [updRange, show idx + 1 + k = idx + (k + 1) by omega]
    exact h₂

theorem markBlock (h : Rep g P n m s) (hs : Separate g P) (idx k : ℕ) (st ts : PageState)
    (hle : idx + 2 ^ k ≤ g.memTotalPage) :
    Rep g P n (markBlock g m idx k st ts) { s with
      buddy := { s.buddy with
        frameArray := Memory.markBlock s.buddy.frameArray idx k st ts } } := by
  have hpos := Nat.two_pow_pos k
  have hidx : idx < g.memTotalPage := by omega
  have h₁ := h.setState hs hidx st
  have h₂ := h₁.setOrder hs hidx k k (toUnsigned_ofNat k)
  simp only [Buddy.setFrame, Function.update_self, Function.update_idem] at h₂
  exact h₂.markTail hs idx ts (2 ^ k - 1) (by omega)

theorem nodeAt_mem (h : Rep g P n m s) (hs : Separate g P) (hk : k ≤ buddyMaxOrder)
    (hidx : idx < g.memTotalPage) :
    g.nodeAt idx ∈ (FreeList.area k).nodes g s ↔ idx ∈ s.buddy.freeArea k := by
  constructor
  · intro hmem
    obtain ⟨j, hj, heq⟩ := List.mem_map.1 hmem
    rwa [← nodeAt_inj hs (h.area_lt k hk j hj) hidx heq]
  · exact List.mem_map_of_mem

/-- The node of a frame is no chunk. -/
theorem nodeAt_notMem (h : Rep g P n m s) (hs : Separate g P) (hidx : idx < g.memTotalPage) {i : ℕ}
    (hi : i < n) : g.nodeAt idx ∉ (FreeList.pool i).nodes g s := by
  intro hmem
  have h₁ := (h.isNode (x := .pool i) hi hmem).node
  have h₂ : Node g P .frames (g.nodeAt idx) := ⟨_, .nodeNext hidx, .nodePrev hidx⟩
  cases h₁.unique hs h₂

theorem addFreeBlock (h : Rep g P n m s) (hs : Separate g P) (idx k : ℕ)
    (hle : idx + 2 ^ k ≤ g.memTotalPage) (hk : k ≤ buddyMaxOrder)
    (hfresh : ∀ j ≤ buddyMaxOrder, idx ∉ s.buddy.freeArea j) :
    Rep g P n (addFreeBlock g m idx k) { s with buddy := Memory.addFreeBlock s.buddy idx k } := by
  have hpos := Nat.two_pow_pos k
  have hidx : idx < g.memTotalPage := by omega
  have h₁ := h.markBlock hs idx k .freeHead .freeTail hle
  refine h₁.listAdd hs (x := .area k) hk ⟨idx, hidx, rfl⟩ (fun y hy => ?_)
    ⟨rfl, rfl, rfl, rfl, fun _ => rfl⟩ ?_ (fun y hy => ?_) fun j hj i hi => ?_
  · cases y with
    | area j => exact fun hmem => hfresh j hy ((h.nodeAt_mem hs hy hidx).1 hmem)
    | pool i => exact h.nodeAt_notMem hs hidx hy
  · simp only [FreeList.nodes, Memory.addFreeBlock, Function.update_self, List.map_cons]
  · cases y with
    | area j =>
      have hjk : j ≠ k := fun heq => hy (heq ▸ rfl)
      simp only [FreeList.nodes, Memory.addFreeBlock, Function.update_of_ne hjk]
    | pool i => rfl
  · rcases mem_freeArea_addFreeBlock.1 hi with ⟨rfl, -⟩ | hi
    · exact hidx
    · exact h.area_lt j hj i hi

theorem map_erase_of_inj {α β : Type*} [DecidableEq α] [DecidableEq β] {f : α → β} {a : α}
    {l : List α} (hf : ∀ b ∈ l, f b = f a → b = a) : (l.erase a).map f = (l.map f).erase (f a) := by
  induction l with
  | nil => rfl
  | cons b l ih =>
    rw [List.map_cons, List.erase_cons, List.erase_cons]
    by_cases hb : b = a
    · simp [hb]
    · have hfb : f b ≠ f a := fun heq => hb (hf b List.mem_cons_self heq)
      simp [hb, hfb, ih fun c hc => hf c (List.mem_cons_of_mem b hc)]

theorem removeFreeBlock (h : Rep g P n m s) (hs : Separate g P) (hk : k ≤ buddyMaxOrder)
    (hmem : idx ∈ s.buddy.freeArea k) :
    Rep g P n (removeFreeBlock g m idx) { s with buddy := Memory.removeFreeBlock s.buddy idx } := by
  have hidx := h.area_lt k hk idx hmem
  have h₁ : Rep g P n (Heap.listDel g m (g.nodeAt idx)) { s with
      buddy := { s.buddy with freeArea := fun j => (s.buddy.freeArea j).erase idx } } := by
    refine h.listDel hs (x := .area k) hk ((h.nodeAt_mem hs hk hidx).2 hmem)
      ⟨rfl, rfl, rfl, rfl, fun _ => rfl⟩ ?_ (fun y hyx hy => ?_) fun j hj i hi => ?_
    · exact map_erase_of_inj fun j hj heq => nodeAt_inj hs (h.area_lt k hk j hj) hidx heq
    · cases y with
      | area j =>
        -- the node is on one list only
        have hnot : idx ∉ s.buddy.freeArea j := fun hmem' => hyx <|
          h.apart _ _ hy hk _ ((h.nodeAt_mem hs hy hidx).2 hmem') ((h.nodeAt_mem hs hk hidx).2 hmem)
        simp only [FreeList.nodes, List.erase_of_not_mem hnot]
      | pool i => rfl
    · exact h.area_lt j hj i (List.mem_of_mem_erase hi)
  exact h₁.setState hs hidx .allocPageHead

/-! ## Walks -/

/-- A walk from a node to the end of the ring. -/
theorem countList_eq (hl : Linked (next g m) (prev g m) h l) (xs ys : List Addr)
    (hsplit : h :: l = xs ++ ys) (hxs : xs ≠ []) {k : ℕ} (hk : ys.length < k) :
    countList g m h k (ys.headD h) = some ys.length := by
  induction ys generalizing xs k with
  | nil =>
    obtain ⟨k, rfl⟩ := Nat.exists_eq_succ_of_ne_zero (Nat.ne_of_gt hk)
    rw [countList, List.headD_nil, if_pos rfl, List.length_nil]
  | cons y ys ih =>
    obtain ⟨k, rfl⟩ := Nat.exists_eq_succ_of_ne_zero (Nat.ne_zero_of_lt hk)
    have hyh : y ≠ h := hl.ne_head hsplit hxs
    rw [countList, List.headD_cons, if_neg hyh, hl.next_eq hsplit,
      ih (xs ++ [y]) (by simpa using hsplit) (by simp) (by simpa using hk)]
    rfl

end Rep

/-- A ring of addresses is shorter than the bound of the loops. -/
theorem length_lt_listRounds (hl : Linked (next g m) (prev g m) h l) : l.length < listRounds := by
  have hnd : ((h :: l).map BitVec.toNat).Nodup := hl.nodup.map fun _ _ => BitVec.eq_of_toNat_eq
  have hsub : (h :: l).map BitVec.toNat ⊆ List.range (2 ^ 64) := by
    intro x hx
    obtain ⟨a, -, rfl⟩ := List.mem_map.1 hx
    exact List.mem_range.2 a.isLt
  have hle := (hnd.subperm hsub).length_le
  rw [List.length_map, List.length_range, List.length_cons] at hle
  exact hle

theorem mapM_eq_some {α β : Type} {f : α → Option β} {f' : α → β} {l : List α}
    (hf : ∀ a ∈ l, f a = some (f' a)) : l.mapM f = some (l.map f') := by
  induction l with
  | nil => rfl
  | cons a l ih =>
    rw [List.mapM_cons, hf a List.mem_cons_self, ih fun b hb => hf b (List.mem_cons_of_mem a hb)]
    rfl

namespace Rep

/-- `buddy_dump_free_areas` comes to an end. -/
theorem buddyDumpFreeAreas (h : Rep g P n m s) : buddyDumpFreeAreas g m =
    some ((List.range (buddyMaxOrder + 1)).map fun k => (s.buddy.freeArea k).length) := by
  refine mapM_eq_some fun k hk => ?_
  have hk' : k ≤ buddyMaxOrder := Nat.lt_succ_iff.1 (List.mem_range.1 hk)
  have hl := h.linked (.area k) hk'
  have hlt := length_lt_listRounds hl
  have hcount := countList_eq hl [g.freeAreaAt k] _ rfl (by simp) hlt
  have hnext := hl.next_head
  simp only [FreeList.nodes, FreeList.head, List.length_map] at hcount hnext
  rw [hnext, hcount]

/-! ## Allocation -/

theorem listEmpty_area (h : Rep g P n m s) (hk : k ≤ buddyMaxOrder) :
    listEmpty g m (g.freeAreaAt k) ↔ s.buddy.freeArea k = [] := by
  have hiff := (h.linked (.area k) hk).next_head_eq_iff
  exact hiff.trans List.map_eq_nil_iff

theorem findOrder (h : Rep g P n m s) (order : ℕ) :
    findOrder g m order = Memory.findOrder s.buddy order := by
  rw [Heap.findOrder, Memory.findOrder]
  refine List.find?_congr fun k hk => ?_
  have hk' : k ≤ buddyMaxOrder := by
    have := List.mem_range'_1.1 hk
    omega
  simp only [h.listEmpty_area hk', ne_eq]

theorem splitBlock (h : Rep g P n m s) (hs : Separate g P)
    (hole : Hole s.buddy idx (idx + 2 ^ (order + d))) (hd : 2 ^ (order + d) ∣ idx)
    (hk : order + d ≤ buddyMaxOrder) :
    Rep g P n (splitBlock g m idx order d) { s with
      buddy := Memory.splitBlock s.buddy idx order d } := by
  induction d generalizing m s with
  | zero => exact h
  | succ d ih =>
    have hpow : 2 ^ (order + (d + 1)) = 2 ^ (order + d) + 2 ^ (order + d) := by
      rw [← Nat.add_assoc, pow_succ]
      ring
    have hpos := Nat.two_pow_pos (order + d)
    have htotal := h.total
    have hright := hole.right.le
    -- the upper half is on no list
    have h₁ := h.addFreeBlock hs (idx + 2 ^ (order + d)) (order + d) (by omega)
      (by omega) fun j _ hmem => by
        have hout := ((hole.mem_iff _ _).1 hmem).1
        omega
    exact ih h₁ (Hole.split (k := order + d) hole hd hk) ((pow_dvd_pow 2 (by omega)).trans hd)
      (by omega)

theorem frameIdx_nodeAt (g : Globals) (hidx : idx < 2 ^ 32) : g.frameIdx (g.nodeAt idx) = idx := by
  have hsub : g.nodeAt idx - 8 - g.frameArray = BitVec.ofNat 64 (idx * 40) := by
    rw [Globals.nodeAt, Globals.frameAt, BitVec.add_sub_cancel, BitVec.add_comm,
      BitVec.add_sub_cancel]
    rfl
  have hmsb : (BitVec.ofNat 64 (idx * 40)).msb = false := by
    rw [BitVec.msb_eq_false_iff_two_mul_lt, BitVec.toNat_ofNat, Nat.mod_eq_of_lt (by omega)]
    omega
  rw [Globals.frameIdx, hsub, BitVec.sdiv_eq, hmsb,
    show (BitVec.ofNat 64 sizeofFrame).msb = false by decide]
  simp only [BitVec.udiv_eq, BitVec.toNat_udiv, BitVec.toNat_ofNat, sizeofFrame]
  rw [Nat.mod_eq_of_lt (by omega), Nat.mod_eq_of_lt (by decide), Nat.mul_div_cancel _ (by decide)]

theorem setCow (h : Rep g P n m s) (hs : Separate g P) (hidx : idx < g.memTotalPage) (v : ℕ)
    (o : ℤ) (ho : toUnsigned o = v % 256 ^ 4) : Rep g P n (set g m (.cowRefCount idx) v) { s with
      buddy := s.buddy.setFrame idx { s.buddy.frameArray idx with cowRefCount := o } } :=
  h.setFrame hs hidx .cowRefCount _ ho fun d hd => by
    cases d <;> first | rfl | exact absurd rfl hd

/-- **`buddy_alloc_pages` in memory** returns what the model returns. -/
theorem buddyAllocPages (h : Rep g P n m s) (hs : Separate g P) (hinv : Inv s.buddy)
    (hready : s.buddy.ready = g.buddyReady) (order : ℕ) :
    ∃ m', buddyAllocPages g m order = some ((Memory.buddyAllocPages s.buddy order).1, m') ∧
      Rep g P n m' { s with buddy := (Memory.buddyAllocPages s.buddy order).2 } := by
  rw [Heap.buddyAllocPages, Memory.buddyAllocPages, hready, h.findOrder]
  by_cases hbad : ¬ g.buddyReady = true ∨ buddyMaxOrder < order
  · rw [if_pos hbad, if_pos hbad]
    exact ⟨m, rfl, h⟩
  rw [if_neg hbad, if_neg hbad]
  rcases hf : Memory.findOrder s.buddy order with _ | current
  · exact ⟨m, rfl, h⟩
  obtain ⟨hle, hne⟩ := findOrder_some hf
  obtain ⟨d, rfl⟩ := Nat.exists_eq_add_of_le hle
  obtain ⟨idx, l, hl⟩ := List.exists_cons_of_ne_nil hne
  have hmem : idx ∈ s.buddy.freeArea (order + d) := by simp [hl]
  obtain ⟨hk, hd, hlt, hole⟩ := Hole.removeFreeBlock hinv hmem
  have hidx := h.area_lt _ hk idx hmem
  -- `list_first_entry`
  have hfirst : g.frameIdx (next g m (g.freeAreaAt (order + d))) = idx := by
    have hnext := (h.linked (.area (order + d)) hk).next_head
    simp only [FreeList.nodes, FreeList.head, hl, List.map_cons, List.headD_cons] at hnext
    rw [hnext]
    have := hs.total_le
    simp only [buddyTotalPages] at this
    exact frameIdx_nodeAt g (by omega)
  have h₁ := (h.removeFreeBlock hs hk hmem).splitBlock hs hole hd hk
  have hright := (splitBlock_spec hole hd hk).1.right.le
  have hpool := (splitBlock_spec hole hd hk).2.1
  have htotal : (Memory.splitBlock (Memory.removeFreeBlock s.buddy idx) idx order d).memTotalPage =
      g.memTotalPage := h₁.total
  have h₂ := h₁.markBlock hs idx order .allocPageHead .allocPageTail
    (by omega)
  have h₃ := h₂.setCow hs hidx 1 1 rfl
  simp only [hl, List.headD_cons, Nat.add_sub_cancel_left, hfirst]
  rw [h₃.buddyDumpFreeAreas]
  refine ⟨_, ?_, h₃⟩
  have hstart := hpool.start.trans h.start
  simp only [Option.bind_eq_bind, Option.bind_some, Option.pure_def]
  rw [Memory.pageToAddr, Globals.pageToAddr]
  simp only [hstart]

/-! ## Freeing -/

theorem buddyIsFree_iff (h : Rep g P n m s) (idx order : ℕ) :
    BuddyIsFree g m idx order ↔ Memory.BuddyIsFree s.buddy idx order := by
  rw [Heap.BuddyIsFree, Memory.BuddyIsFree, h.total]
  refine and_congr_right fun hlt => ?_
  rw [h.state_eq_iff hlt, h.order_eq hlt]

theorem absorbBuddy (h : Rep g P n m s) (hs : Separate g P)
    (hole : Hole s.buddy idx (idx + 2 ^ order)) (hd : 2 ^ order ∣ idx) (hk : order < buddyMaxOrder)
    (hmem : idx ^^^ 2 ^ order ∈ s.buddy.freeArea order) :
    Rep g P n (absorbBuddy g m idx order).1 { s with
      buddy := (Memory.absorbBuddy s.buddy idx order).1 } := by
  have hle := (hole.merge hd hmem).2.right.le
  have h₁ := h.removeFreeBlock hs (Nat.le_of_lt hk) hmem
  exact h₁.markBlock hs _ _ _ _ (hle.trans_eq h.total)

theorem mergeBuddy (h : Rep g P n m s) (hs : Separate g P)
    (hole : Hole s.buddy idx (idx + 2 ^ order)) (hd : 2 ^ order ∣ idx) (hk : order ≤ buddyMaxOrder)
    (k : ℕ) :
    (mergeBuddy g k m idx order).2 = (Memory.mergeBuddy k s.buddy idx order).2 ∧
      Rep g P n (Heap.mergeBuddy g k m idx order).1 { s with
        buddy := (Memory.mergeBuddy k s.buddy idx order).1 } := by
  induction k generalizing m s idx order with
  | zero => exact ⟨rfl, h⟩
  | succ k ih =>
    rw [Heap.mergeBuddy, Memory.mergeBuddy]
    simp only [h.buddyIsFree_iff]
    split_ifs with hfree
    · have hmem := (hole.buddy_mem_iff hd hk).2 hfree.2
      obtain ⟨hd', hole'⟩ := hole.merge hd hmem
      exact ih (h.absorbBuddy hs hole hd hfree.1 hmem)
        (hole'.frames fun j hj => sameBlock_markBlock hj) hd' hfree.1
    · exact ⟨rfl, h⟩

/-- **`buddy_free_pages` in memory.** -/
theorem buddyFreePages (h : Rep g P n m s) (hs : Separate g P) (hinv : Inv s.buddy)
    (hready : s.buddy.ready = g.buddyReady) (ptr : Addr) :
    ∃ m', buddyFreePages g m ptr = some m' ∧
      Rep g P n m' { s with buddy := Memory.buddyFreePages s.buddy ptr } := by
  rw [Heap.buddyFreePages, Memory.buddyFreePages, ← hready, ← h.start, ← h.size, ← h.total]
  by_cases h₁ : ¬ s.buddy.ready = true ∨ ptr = 0
  · rw [if_pos h₁, if_pos h₁]
    exact ⟨m, rfl, h⟩
  rw [if_neg h₁, if_neg h₁]
  by_cases h₂ : ptr < s.buddy.mempoolStart ∨ s.buddy.mempoolStart + s.buddy.mempoolSize ≤ ptr
  · rw [if_pos h₂, if_pos h₂]
    exact ⟨m, rfl, h⟩
  rw [if_neg h₂, if_neg h₂]
  by_cases h₃ : ptr &&& 4095#64 ≠ 0
  · rw [if_pos h₃, if_pos h₃]
    exact ⟨m, rfl, h⟩
  rw [if_neg h₃, if_neg h₃]
  set idx := ((ptr - s.buddy.mempoolStart) >>> pageShift).toNat
  simp only
  by_cases h₄ : s.buddy.memTotalPage ≤ idx ∨ (s.buddy.frameArray idx).state ≠ .allocPageHead
  · have h₅ : s.buddy.memTotalPage ≤ idx ∨ get g m (.state idx) ≠ stateCode .allocPageHead := by
      by_cases hle : s.buddy.memTotalPage ≤ idx
      · exact .inl hle
      · exact .inr fun heq =>
          h₄.elim hle fun hne => hne ((h.state_eq_iff (h.total ▸ not_le.1 hle)).1 heq)
    rw [if_pos h₄, if_pos h₅]
    exact ⟨m, rfl, h⟩
  rw [if_neg h₄]
  obtain ⟨hidx, hst⟩ := not_or.1 h₄
  rw [not_le] at hidx
  rw [not_not] at hst
  have hidx' : idx < g.memTotalPage := h.total ▸ hidx
  have h₅ : ¬ (s.buddy.memTotalPage ≤ idx ∨ get g m (.state idx) ≠ stateCode .allocPageHead) := by
    rw [not_or, not_le, not_not, h.state_eq_iff hidx']
    exact ⟨hidx, hst⟩
  rw [if_neg h₅, h.order_eq hidx']
  obtain ⟨k, ho, hk, hd, hole⟩ := Hole.ofAlloc hinv hidx hst
  rw [ho, toUnsigned_natCast hk]
  have h₆ := h.markBlock hs idx k .freeHead .freeTail (hole.right.le.trans_eq h.total)
  have hole' : Hole { s.buddy with
      frameArray := Memory.markBlock s.buddy.frameArray idx k .freeHead .freeTail }
      idx (idx + 2 ^ k) :=
    hole.frames fun j hj => sameBlock_markBlock hj
  obtain ⟨heq, h₇⟩ := h₆.mergeBuddy hs hole' hd hk buddyMaxOrder
  have hmerged := mergeBuddy_spec buddyMaxOrder hole' hd hk (by omega)
  set r := Memory.mergeBuddy buddyMaxOrder { s.buddy with
    frameArray := Memory.markBlock s.buddy.frameArray idx k .freeHead .freeTail } idx k
  have hright := hmerged.hole.right.le
  have htotal : r.1.memTotalPage = g.memTotalPage := h₇.total
  have hpos := Nat.two_pow_pos r.2.2
  -- the merged block is on no list
  have h₈ := h₇.addFreeBlock hs r.2.1 r.2.2 (by omega) hmerged.le fun j _ hmem => by
    have hout := ((hmerged.hole.mem_iff _ _).1 hmem).1
    omega
  simp only [heq]
  rw [h₈.buddyDumpFreeAreas]
  exact ⟨_, rfl, h₈⟩

end Rep

end BareMetalOS.Heap
