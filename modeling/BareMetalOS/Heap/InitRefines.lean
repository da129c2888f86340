import BareMetalOS.Heap.BuddyRefines
import BareMetalOS.Memory.AllocatorRuns

/-!
# The start of the allocator in memory

Whatever the memory holds before, apart from the pages marked `RESERVED`: after `buddy_init` and the
end of `allocator_init` it holds the state that the level above starts from (`rep_allocatorInit`).
-/

namespace BareMetalOS.Heap

open Memory

variable {g : Globals} {P : ℕ → Prop} {m : Mem} {s : Allocator} {b : Buddy} {f : Field} {r : Part}
  {a : Addr} {fr : Frame} {o idx j k n freeCount : ℕ}

/-! ## The first two loops -/

/-- The memory after `INIT_LIST_HEAD`. -/
theorem get_initListHead (hs : Separate g P) {ra : Part} (ha : Node g P ra a)
    (hf : Spot g P f r o) : get g (initListHead g m a) f =
      if f = .prev a then a.toNat else if f = .next a then a.toNat else get g m f := by
  obtain ⟨_, ha₁, ha₂⟩ := ha
  simp only [initListHead, get_set hs ha₁ hf, get_set hs ha₂ hf]
  simp only [Field.size, toNat_mod_size]

theorem get_initListHead_of_not_link (hs : Separate g P) {ra : Part} (ha : Node g P ra a)
    (hf : Spot g P f r o) (hnot : ¬ f.IsLink) : get g (initListHead g m a) f = get g m f := by
  rw [get_initListHead hs ha hf]
  cases f <;> simp_all [Field.IsLink]

/-- The empty list. -/
theorem linked_initListHead (hs : Separate g P) {ra : Part} (ha : Node g P ra a) :
    Linked (next g (initListHead g m a)) (prev g (initListHead g m a)) a [] := by
  have ha' := ha
  obtain ⟨_, ha₁, ha₂⟩ := ha'
  refine .nil ?_ ?_
  · rw [next, get_initListHead hs ha ha₁]
    simp only [reduceCtorEq, if_false, if_true, ofNat_toNat]
  · rw [prev, get_initListHead hs ha ha₂, if_pos rfl, ofNat_toNat]

theorem node_nodeAt (hidx : idx < g.memTotalPage) : Node g P .frames (g.nodeAt idx) :=
  ⟨_, .nodeNext hidx, .nodePrev hidx⟩

/-- The frame `idx` after the first loop. -/
theorem get_resetFrame (hs : Separate g P) (hidx : idx < g.memTotalPage)
    (hres : get g m (.state idx) = stateCode .reserved ↔ fr.state = .reserved) (d : Datum) :
    get g (resetFrame g m idx) (d.field idx) = d.code (Memory.resetFrame fr) := by
  obtain ⟨o, ho⟩ := Datum.spot (P := P) d hidx
  have hst : ∀ v, get g (set g m (.order idx) v) (.state idx) = get g m (.state idx) := fun v =>
    get_set_of_ne hs (.order hidx) (P := P) (.state hidx) (by simp)
  simp only [Heap.resetFrame, hst]
  rw [get_initListHead_of_not_link hs (node_nodeAt hidx) ho d.not_isLink,
    get_set hs (.cowRefCount hidx) ho, get_set hs (.refCount hidx) ho,
    get_set hs (.metaPoolIdx hidx) ho]
  by_cases hr : fr.state = .reserved
  · have hm := hres.2 hr
    rw [if_neg (not_not.2 hm), get_set hs (.order hidx) ho]
    cases d <;>
      simp [Datum.field, Datum.code, Memory.resetFrame, hr, Field.size, toUnsigned, hm]
  · have hm := fun heq => hr (hres.1 heq)
    rw [if_pos hm, get_set hs (.state hidx) ho, get_set hs (.order hidx) ho]
    cases d <;>
      simp [Datum.field, Datum.code, Memory.resetFrame, hr, Field.size, toUnsigned, stateCode]

/-- The other frames stay as they are. -/
theorem get_resetFrame_of_ne (hs : Separate g P) (hidx : idx < g.memTotalPage)
    (hj : j < g.memTotalPage) (hne : j ≠ idx) (d : Datum) :
    get g (resetFrame g m idx) (d.field j) = get g m (d.field j) := by
  obtain ⟨o, ho⟩ := Datum.spot (P := P) d hj
  have hfield : ∀ d' : Datum, d.field j ≠ d'.field idx := fun d' heq =>
    hne (Datum.field_inj.1 heq).2
  simp only [Heap.resetFrame]
  rw [get_initListHead_of_not_link hs (node_nodeAt hidx) ho d.not_isLink,
    get_set_of_ne hs (.cowRefCount hidx) ho (hfield .cowRefCount),
    get_set_of_ne hs (.refCount hidx) ho (hfield .refCount),
    get_set_of_ne hs (.metaPoolIdx hidx) ho (hfield .metaPoolIdx)]
  split_ifs
  · rw [get_set_of_ne hs (.state hidx) ho (hfield .state),
      get_set_of_ne hs (.order hidx) ho (hfield .order)]
  · rw [get_set_of_ne hs (.order hidx) ho (hfield .order)]

/-- The memory marks the same pages `RESERVED`. -/
def SameReserved (g : Globals) (m : Mem) (b : Buddy) : Prop :=
  ∀ idx < g.memTotalPage,
    get g m (.state idx) = stateCode .reserved ↔ (b.frameArray idx).state = .reserved

theorem get_initFrames (hs : Separate g P) (hres : SameReserved g m b) (hk : k ≤ g.memTotalPage)
    (hj : j < g.memTotalPage) (d : Datum) :
    get g (initFrames g m k) (d.field j) =
      if j < k then d.code (Memory.resetFrame (b.frameArray j)) else get g m (d.field j) := by
  induction k generalizing j d with
  | zero => simp [initFrames]
  | succ k ih =>
    rw [initFrames]
    by_cases hjk : j = k
    · subst hjk
      rw [if_pos (Nat.lt_succ_self j)]
      refine get_resetFrame hs hj ?_ d
      have hst := ih (by omega) hj .state
      rw [if_neg (lt_irrefl j)] at hst
      exact hst ▸ hres j hj
    · rw [get_resetFrame_of_ne hs (by omega) hj hjk, ih (by omega) hj]
      by_cases hlt : j < k
      · rw [if_pos hlt, if_pos (by omega)]
      · rw [if_neg hlt, if_neg (by omega)]

theorem node_freeAreaAt (hk : k ≤ buddyMaxOrder) : Node g P .freeArea (g.freeAreaAt k) :=
  ⟨_, .areaNext hk, .areaPrev hk⟩

theorem get_initFreeArea (hs : Separate g P) (hk : k ≤ buddyMaxOrder + 1) (hf : Spot g P f r o)
    (hnot : ¬ f.IsLink) : get g (initFreeArea g m k) f = get g m f := by
  induction k with
  | zero => rfl
  | succ k ih =>
    rw [initFreeArea, get_initListHead_of_not_link hs (node_freeAreaAt (by omega)) hf hnot,
      ih (by omega)]

/-- A ring that does not go through the new head. -/
theorem linked_initListHead_of_ne (hs : Separate g P) {ra : Part} (ha : Node g P ra a) {h : Addr}
    {l : List Addr} (hl : Linked (next g m) (prev g m) h l)
    (hnode : ∀ c ∈ h :: l, ∃ r, Node g P r c) (hne : ∀ c ∈ h :: l, c ≠ a) :
    Linked (next g (initListHead g m a)) (prev g (initListHead g m a)) h l := by
  refine hl.congr fun c hc => ?_
  obtain ⟨r, _, hc₁, hc₂⟩ := hnode c hc
  rw [next, prev, get_initListHead hs ha hc₁, get_initListHead hs ha hc₂]
  simp only [Field.next.injEq, Field.prev.injEq, reduceCtorEq, if_false, hne c hc]
  exact ⟨rfl, rfl⟩

theorem linked_initFreeArea (hs : Separate g P) (hk : k ≤ buddyMaxOrder + 1) (hj : j < k) :
    Linked (next g (initFreeArea g m k)) (prev g (initFreeArea g m k)) (g.freeAreaAt j) [] := by
  induction k with
  | zero => exact absurd hj (Nat.not_lt_zero j)
  | succ k ih =>
    rw [initFreeArea]
    have hnk : Node g P .freeArea (g.freeAreaAt k) := node_freeAreaAt (by omega)
    by_cases hjk : j = k
    · subst hjk
      exact linked_initListHead hs hnk
    · have hnj : Node g P .freeArea (g.freeAreaAt j) := node_freeAreaAt (by omega)
      refine linked_initListHead_of_ne hs hnk (ih (by omega) (by omega)) (fun c hc => ?_)
        fun c hc heq => ?_
      · rw [List.mem_singleton.1 hc]
        exact ⟨_, hnj⟩
      · rw [List.mem_singleton.1 hc] at heq
        have := FreeList.head_inj (P := P) (n := 0) (x := .area j) (y := .area k) hs
          (show j ≤ buddyMaxOrder by omega) (show k ≤ buddyMaxOrder by omega) (Nat.zero_le _) heq
        cases this
        exact hjk rfl

/-- The pool of the globals. -/
structure SamePoolAs (g : Globals) (b : Buddy) : Prop where
  start : b.mempoolStart = g.mempoolStart
  size : b.mempoolSize = g.mempoolSize
  total : b.memTotalPage = g.memTotalPage

/-- After the first two loops of `buddy_init`. -/
theorem rep_initFreeArea (hs : Separate g P) (hb : SamePoolAs g b) (hres : SameReserved g m b)
    (s : Allocator) : Rep g P 0 (initFreeArea g (initFrames g m g.memTotalPage) (buddyMaxOrder + 1))
      { s with buddy := { b with
        frameArray := updRange Memory.resetFrame b.frameArray 0 g.memTotalPage
        freeArea := fun _ => [] } } := by
  refine ⟨hb.start, hb.size, hb.total, Nat.zero_le _, fun idx hidx d => ?_,
    fun i hi => absurd hi (Nat.not_lt_zero i), fun y hy => ?_, fun k _ idx hidx => ?_,
    fun i hi => absurd hi (Nat.not_lt_zero i), fun y z hy hz a ha => ?_⟩
  · obtain ⟨o, ho⟩ := Datum.spot (P := P) d hidx
    rw [get_initFreeArea hs le_rfl ho d.not_isLink, get_initFrames hs hres le_rfl hidx,
      if_pos hidx]
    simp only [updRange_apply, Nat.zero_le, Nat.zero_add, hidx, and_self, if_true]
  · cases y with
    | area k => exact linked_initFreeArea hs le_rfl (Nat.lt_succ_of_le hy)
    | pool i => exact absurd hy (Nat.not_lt_zero i)
  · exact absurd hidx List.not_mem_nil
  · cases y with
    | area k => exact absurd ha List.not_mem_nil
    | pool i => exact absurd hy (Nat.not_lt_zero i)

/-! ## Carving -/

namespace Rep

theorem freeRun (h : Rep g P n m s) (k p : ℕ) :
    freeRun g m k p = Memory.freeRun s.buddy.frameArray s.buddy.memTotalPage k p := by
  induction k generalizing p with
  | zero => rfl
  | succ k ih =>
    have hiff : (p < g.memTotalPage ∧ get g m (.state p) ≠ stateCode .reserved) ↔
        p < s.buddy.memTotalPage ∧ (s.buddy.frameArray p).state ≠ .reserved := by
      rw [h.total]
      exact and_congr_right fun hp => not_congr (h.state_eq_iff hp)
    rw [Heap.freeRun, Memory.freeRun, ih]
    simp only [hiff]

theorem carveRun (h : Rep g P n m s) (hs : Separate g P) (hc : Carving s.buddy idx)
    (hle : idx + freeCount ≤ s.buddy.memTotalPage)
    (hrun : ∀ j, idx ≤ j → j < idx + freeCount → (s.buddy.frameArray j).state ≠ .reserved)
    (hend : idx + freeCount = s.buddy.memTotalPage ∨
      (s.buddy.frameArray (idx + freeCount)).state = .reserved) (k : ℕ) :
    (carveRun g k m idx freeCount).2 = (Memory.carveRun k s.buddy idx freeCount).2 ∧
      Rep g P n (Heap.carveRun g k m idx freeCount).1 { s with
        buddy := (Memory.carveRun k s.buddy idx freeCount).1 } := by
  induction k generalizing m s idx freeCount with
  | zero => exact ⟨rfl, h⟩
  | succ k ih =>
    rw [Heap.carveRun, Memory.carveRun]
    split_ifs with hf
    · obtain ⟨hkf, hc', hres⟩ := hc.add hf hle hrun hend
      obtain ⟨horder, -⟩ := carveOrder_spec idx hf buddyMaxOrder
      have htotal := h.total
      have hpos := Nat.two_pow_pos (carveOrder idx freeCount buddyMaxOrder)
      have h₁ := h.addFreeBlock hs idx _ (by omega) horder fun j _ hmem => by
        have hout := ((hc.hole.mem_iff _ _).1 hmem).1
        omega
      have hsum : idx + 2 ^ carveOrder idx freeCount buddyMaxOrder +
          (freeCount - 2 ^ carveOrder idx freeCount buddyMaxOrder) = idx + freeCount := by omega
      refine ih h₁ hc' (by rw [hsum]; exact hle) (fun j hj hj' => ?_) ?_
      · rw [ne_eq, hres.reserved]
        exact hrun j (by omega) (by omega)
      · rw [hsum, hres.pool.total, hres.reserved]
        exact hend
    · exact ⟨rfl, h⟩

theorem initLoop (h : Rep g P n m s) (hs : Separate g P) (hc : Carving s.buddy idx) (k : ℕ) :
    Rep g P n (initLoop g k m idx) { s with buddy := Memory.initLoop k s.buddy idx } := by
  induction k generalizing m s idx with
  | zero => exact h
  | succ k ih =>
    rw [Heap.initLoop, Memory.initLoop]
    by_cases hlt : idx < g.memTotalPage
    · have hlt' : idx < s.buddy.memTotalPage := hlt.trans_eq h.total.symm
      rw [if_pos hlt, if_pos hlt']
      simp only [h.state_eq_iff hlt]
      by_cases hst : (s.buddy.frameArray idx).state = .reserved
      · rw [if_pos hst, if_pos hst]
        exact ih (h.setOrder hs hlt 0 0 rfl) (hc.skip hlt' hst).1
      · rw [if_neg hst, if_neg hst]
        obtain ⟨hr₁, hr₂, hr₃⟩ := freeRun_spec s.buddy.frameArray s.buddy.memTotalPage
          (s.buddy.memTotalPage - idx) idx (by omega) hlt'.le
        simp only [h.freeRun, ← h.total]
        set f := Memory.freeRun s.buddy.frameArray s.buddy.memTotalPage
          (s.buddy.memTotalPage - idx) idx
        obtain ⟨heq, h₁⟩ := h.carveRun hs hc hr₁ hr₂ hr₃ f
        obtain ⟨hc₁, hc₂, -⟩ := carveRun_spec f hc le_rfl hr₁ hr₂ hr₃
        rw [heq]
        exact ih h₁ (hc₁ ▸ hc₂)
    · rw [if_neg hlt, if_neg (h.total ▸ hlt)]
      exact h

/-- `buddy_ready` is no word of this memory. -/
theorem setReady (h : Rep g P n m s) (v : Bool) :
    Rep g P n m { s with buddy := { s.buddy with ready := v } } :=
  ⟨h.start, h.size, h.total, h.pools, h.frame, h.chunkSize, h.linked, h.area_lt, h.chunk, h.apart⟩

end Rep

/-- **`buddy_init` in memory.** -/
theorem rep_buddyInit (hs : Separate g P) (hb : SamePoolAs g b) (hres : SameReserved g m b)
    (s : Allocator) : Rep g P 0 (buddyInit g m) { s with buddy := Memory.buddyInit b } := by
  have h := rep_initFreeArea hs hb hres s
  rw [← hb.total] at h
  have h₁ := (h.initLoop hs (carving_start b) b.memTotalPage).setReady true
  rw [Heap.buddyInit, ← hb.total]
  exact h₁

/-! ## The chunk pools -/

theorem node_freeListAt (hk : k < chunkPoolCount) : Node g P .gPools (g.freeListAt k) :=
  ⟨_, .listNext hk, .listPrev hk⟩

namespace Rep

theorem initPools (h : Rep g P 0 m s) (hs : Separate g P)
    (hpool : ∀ i < chunkPoolCount, s.gPools i = ⟨gPoolSizes i, []⟩) (hk : k ≤ chunkPoolCount) :
    Rep g P k (initPools g m k) s := by
  induction k with
  | zero => exact h
  | succ k ih =>
    have h₁ := ih (by omega)
    have hn : Node g P .gPools (g.freeListAt k) := node_freeListAt hk
    have hcs : Spot g P (.chunkSize k) .gPools (k * 24) := .chunkSize hk
    rw [Heap.initPools]
    set m₁ := set g (Heap.initPools g m k) (.chunkSize k) (gPoolSizes k) with hm₁
    have hget : ∀ {f r o}, Spot g P f r o → f ≠ .chunkSize k → ¬ f.IsLink →
        get g (initListHead g m₁ (g.freeListAt k)) f = get g (Heap.initPools g m k) f := by
      intro f r o hf hne hnot
      rw [get_initListHead_of_not_link hs hn hf hnot, get_set_of_ne hs hcs hf hne]
    refine ⟨h₁.start, h₁.size, h₁.total, hk, fun idx hidx d => ?_, fun i hi => ?_, fun y hy => ?_,
      h₁.area_lt, fun i hi a ha => ?_, fun y z hy hz a hay haz => ?_⟩
    · obtain ⟨o, ho⟩ := Datum.spot (P := P) d hidx
      rw [hget ho (by cases d <;> simp [Datum.field]) d.not_isLink]
      exact h₁.frame idx hidx d
    · by_cases hik : i = k
      · subst hik
        rw [get_initListHead_of_not_link hs hn hcs id, hm₁, get_set hs hcs hcs, if_pos rfl,
          hpool i hk, gPoolSizes_eq hk]
        have : 2 ^ (i + 4) ≤ 2 ^ 11 :=
          Nat.pow_le_pow_right (by decide) (by simp only [chunkPoolCount] at hk; omega)
        exact Nat.mod_eq_of_lt (lt_of_le_of_lt this (show 2 ^ 11 < 256 ^ 4 by decide))
      · rw [hget (.chunkSize (by omega)) (by simpa using hik) id]
        exact h₁.chunkSize i (by omega)
    · have hring : ∀ y : FreeList, y.InUse k →
          Linked (next g m₁) (prev g m₁) (y.head g) (y.nodes g s) := fun y hy =>
        (h₁.linked y hy).congr fun a ha => by
          obtain ⟨r, _, ha₁, ha₂⟩ := h₁.node hy a ha
          rw [next, prev, get_set_of_ne hs hcs ha₁ (by simp), get_set_of_ne hs hcs ha₂ (by simp)]
          exact ⟨rfl, rfl⟩
      by_cases hyk : y = .pool k
      · subst hyk
        simp only [FreeList.nodes, hpool k hk]
        exact linked_initListHead hs hn
      · have hy' : y.InUse k := by
          cases y with
          | area j => exact hy
          | pool j =>
            have hjk : j ≠ k := fun heq => hyk (heq ▸ rfl)
            have hy'' : j < k + 1 := hy
            change j < k
            omega
        refine linked_initListHead_of_ne hs hn (hring y hy') (h₁.node hy') fun c hc => ?_
        have hk' : (FreeList.pool k).InUse (k + 1) := Nat.lt_succ_self k
        rcases List.mem_cons.1 hc with rfl | hc
        · exact fun heq => hyk (FreeList.head_inj hs hy hk' hk heq)
        · exact (h₁.isNode hy' hc).ne_head hs hk' hk
    · rw [hpool i (by omega)] at ha
      exact absurd ha List.not_mem_nil
    · have hback : ∀ w : FreeList, w.InUse (k + 1) → a ∈ w.nodes g s → w.InUse k := by
        intro w hw haw
        cases w with
        | area j => exact hw
        | pool j =>
          have hj : j < k + 1 := hw
          rw [FreeList.nodes, hpool j (by omega)] at haw
          exact absurd haw List.not_mem_nil
      exact h₁.apart y z (hback y hy hay) (hback z hz haz) a hay haz

end Rep

/-- **`allocator_init` in memory**, from `buddy_init` on. -/
theorem rep_allocatorInit (hs : Separate g P) (hb : SamePoolAs g b) (hres : SameReserved g m b) :
    Rep g P chunkPoolCount (allocatorInit g m) (poolsInit (Memory.buddyInit b)) :=
  (rep_buddyInit hs hb hres (poolsInit (Memory.buddyInit b))).initPools hs (fun _ _ => rfl) le_rfl

end BareMetalOS.Heap
