import BareMetalOS.Memory.BuddyHole

/-!
# The operations of the buddy system

One statement for each function of `lib/buddy.c`, from which everything else about it follows:

* `buddyInit_spec`: after `buddy_init` the invariant holds and every page that is not reserved is
  free;
* `buddyAllocPages_cases`: `buddy_alloc_pages` changes nothing, or allocates one block out of free
  pages (`Allocated`);
* `buddyFreePages_cases`: `buddy_free_pages` changes nothing, or frees one allocated block
  (`Freed`).

The loops are treated with the holes of the previous module. The carving loop of `buddy_init` also
remembers that each block was taken as large as possible (`Carving`), which is why two buddies are
never both free blocks of one order.
-/

namespace BareMetalOS.Memory

variable {fr fr' : ℕ → Frame} {hs ts : PageState} {a b c i j k n p lo hi mid : ℕ} {s : Buddy}

/-! ## What an operation leaves alone -/

/-- The page belongs to a free block. -/
def Frame.IsFree (f : Frame) : Prop := f.state = .freeHead ∨ f.state = .freeTail

/-- Two frames agree in the fields that blocks do not use. -/
def Frame.SameCounts (f f' : Frame) : Prop :=
  f'.metaPoolIdx = f.metaPoolIdx ∧ f'.refCount = f.refCount ∧ f'.cowRefCount = f.cowRefCount

/-- Two states have the same pool. -/
structure SamePool (s s' : Buddy) : Prop where
  start : s'.mempoolStart = s.mempoolStart
  size : s'.mempoolSize = s.mempoolSize
  total : s'.memTotalPage = s.memTotalPage
  ready : s'.ready = s.ready

theorem SamePool.refl (s : Buddy) : SamePool s s := ⟨rfl, rfl, rfl, rfl⟩

theorem SamePool.trans {s₁ s₂ s₃ : Buddy} (h : SamePool s₁ s₂) (h' : SamePool s₂ s₃) :
    SamePool s₁ s₃ :=
  ⟨h'.start.trans h.start, h'.size.trans h.size, h'.total.trans h.total, h'.ready.trans h.ready⟩

theorem SamePool.frames {s s' : Buddy} (h : SamePool s s') (fr : ℕ → Frame) :
    SamePool s { s' with frameArray := fr } :=
  ⟨h.start, h.size, h.total, h.ready⟩

theorem samePool_addFreeBlock (s : Buddy) (a k : ℕ) : SamePool s (addFreeBlock s a k) :=
  ⟨rfl, rfl, rfl, rfl⟩

theorem samePool_removeFreeBlock (s : Buddy) (b : ℕ) : SamePool s (removeFreeBlock s b) :=
  ⟨rfl, rfl, rfl, rfl⟩

theorem Frame.SameCounts.refl (f : Frame) : f.SameCounts f := ⟨rfl, rfl, rfl⟩

theorem Frame.SameCounts.trans {f₁ f₂ f₃ : Frame} (h : f₁.SameCounts f₂) (h' : f₂.SameCounts f₃) :
    f₁.SameCounts f₃ :=
  ⟨h'.1.trans h.1, h'.2.1.trans h.2.1, h'.2.2.trans h.2.2⟩

theorem markBlock_sameCounts (fr : ℕ → Frame) (a k : ℕ) (hs ts : PageState) (j : ℕ) :
    (fr j).SameCounts (markBlock fr a k hs ts j) := by
  rw [markBlock_apply]
  by_cases hj : j = a
  · subst hj
    rw [if_pos rfl]
    exact ⟨rfl, rfl, rfl⟩
  · rw [if_neg hj]
    split_ifs <;> exact ⟨rfl, rfl, rfl⟩

theorem removeFreeBlock_sameCounts (s : Buddy) (b j : ℕ) :
    (s.frameArray j).SameCounts ((removeFreeBlock s b).frameArray j) := by
  simp only [removeFreeBlock, Function.update_apply]
  split_ifs with hj
  · subst hj
    exact ⟨rfl, rfl, rfl⟩
  · exact .refl _

theorem Marked.isFree (h : Marked fr .freeHead .freeTail a k) (ha : a ≤ j) (hj : j < a + 2 ^ k) :
    (fr j).IsFree := by
  rcases eq_or_lt_of_le ha with rfl | ha
  · exact .inl h.head
  · exact .inr (h.tail j ha hj)

/-! ## Allocation -/

/-- One round of the splitting loop: the upper half joins its free list. -/
theorem Hole.split {idx : ℕ} (h : Hole s idx (idx + 2 ^ (k + 1))) (hd : 2 ^ (k + 1) ∣ idx)
    (hk : k + 1 ≤ buddyMaxOrder) :
    Hole (addFreeBlock s (idx + 2 ^ k) k) idx (idx + 2 ^ k) := by
  have hdd : 2 ^ k ∣ idx := (pow_dvd_pow 2 (Nat.le_succ k)).trans hd
  have hx : (idx + 2 ^ k) ^^^ 2 ^ k = idx := by
    rw [← xor_two_pow_of_dvd (k := k) hd, Nat.xor_assoc, Nat.xor_self, Nat.xor_zero]
  rw [pow_succ, Nat.mul_two, ← Nat.add_assoc] at h
  -- its buddy is the hole itself
  refine h.addUpper (Nat.le_add_right _ _) (by omega) ((Nat.dvd_add_right hdd).2 dvd_rfl)
    fun _ hmem => ?_
  rw [hx] at hmem
  have hout := ((h.mem_iff _ _).1 hmem).1
  have hpos := Nat.two_pow_pos k
  omega

/-- The splitting loop keeps the lower part of the hole and frees the rest. -/
theorem splitBlock_spec {idx order d : ℕ} (h : Hole s idx (idx + 2 ^ (order + d)))
    (hd : 2 ^ (order + d) ∣ idx) (hk : order + d ≤ buddyMaxOrder) :
    Hole (splitBlock s idx order d) idx (idx + 2 ^ order) ∧
      SamePool s (splitBlock s idx order d) ∧
      ∀ j, (s.frameArray j).SameCounts ((splitBlock s idx order d).frameArray j) ∧
        ((splitBlock s idx order d).frameArray j = s.frameArray j ∨
          idx + 2 ^ order ≤ j ∧ j < idx + 2 ^ (order + d) ∧
            ((splitBlock s idx order d).frameArray j).IsFree) := by
  induction d generalizing s with
  | zero => exact ⟨h, .refl s, fun j => ⟨.refl _, .inl rfl⟩⟩
  | succ d ih =>
    have hpow : 2 ^ (order + (d + 1)) = 2 ^ (order + d) + 2 ^ (order + d) := by
      rw [← Nat.add_assoc, pow_succ]
      ring
    have hlow : 2 ^ order ≤ 2 ^ (order + d) := Nat.pow_le_pow_right (by omega) (by omega)
    have hpos := Nat.two_pow_pos (order + d)
    have hdd : 2 ^ (order + d) ∣ idx := (pow_dvd_pow 2 (by omega)).trans hd
    obtain ⟨h₁, h₂, h₃⟩ := ih (Hole.split (k := order + d) h hd hk) hdd (by omega)
    refine ⟨h₁, (samePool_addFreeBlock s _ _).trans h₂, fun j => ⟨?_, ?_⟩⟩
    · exact (markBlock_sameCounts _ _ _ _ _ _).trans (h₃ j).1
    · rw [splitBlock, hpow]
      rcases (h₃ j).2 with heq | ⟨hj₁, hj₂, hfree⟩
      · rw [heq]
        by_cases hj : idx + 2 ^ (order + d) ≤ j ∧ j < idx + 2 ^ (order + d) + 2 ^ (order + d)
        · exact .inr ⟨by omega, by omega, (markBlock_marked _ _ _ _ _).isFree hj.1 hj.2⟩
        · exact .inl (markBlock_outside (by omega))
      · exact .inr ⟨hj₁, by omega, hfree⟩

/-- What a successful `buddy_alloc_pages` does: the pages of a block of the order asked for were
free and are now allocated with one reference, and a page outside the block keeps its frame, or
stays free. -/
structure Allocated (s s' : Buddy) (idx order : ℕ) : Prop where
  pool : SamePool s s'
  inv : Inv s'
  le : idx + 2 ^ order ≤ s.memTotalPage
  dvd : 2 ^ order ∣ idx
  marked : Marked s'.frameArray .allocPageHead .allocPageTail idx order
  cow : (s'.frameArray idx).cowRefCount = 1
  was_free : ∀ j, idx ≤ j → j < idx + 2 ^ order → (s.frameArray j).IsFree
  outside : ∀ j, j < idx ∨ idx + 2 ^ order ≤ j → s'.frameArray j = s.frameArray j ∨
    (s.frameArray j).IsFree ∧ (s'.frameArray j).IsFree ∧
      (s.frameArray j).SameCounts (s'.frameArray j)
  meta_eq : ∀ j, (s'.frameArray j).metaPoolIdx = (s.frameArray j).metaPoolIdx ∧
    (s'.frameArray j).refCount = (s.frameArray j).refCount

theorem findOrder_some {order current : ℕ} (h : findOrder s order = some current) :
    order ≤ current ∧ s.freeArea current ≠ [] := by
  have h₁ := List.find?_some h
  have h₂ := List.mem_of_find?_eq_some h
  rw [List.mem_range'_1] at h₂
  exact ⟨h₂.1, by simpa using h₁⟩

/-- `buddy_alloc_pages` allocates a block if some list from its order on is not empty. -/
theorem buddyAllocPages_some (h : Inv s) {order current : ℕ}
    (hr : ¬ (¬ s.ready ∨ buddyMaxOrder < order)) (hf : findOrder s order = some current) :
    ∃ idx, (buddyAllocPages s order).1 = pageToAddr s idx ∧
      Allocated s (buddyAllocPages s order).2 idx order := by
  unfold buddyAllocPages
  rw [if_neg hr, hf]
  obtain ⟨hle, hne⟩ := findOrder_some hf
  obtain ⟨d, rfl⟩ := Nat.exists_eq_add_of_le hle
  obtain ⟨idx, l, hl⟩ := List.exists_cons_of_ne_nil hne
  refine ⟨idx, ?_⟩
  simp only [hl, List.headD_cons, Nat.add_sub_cancel_left]
  have hmem : idx ∈ s.freeArea (order + d) := by simp [hl]
  obtain ⟨hk, hd, hlt, h₁⟩ := Hole.removeFreeBlock h hmem
  obtain ⟨-, -, hst, ho⟩ := (h.mem_iff _ _).1 hmem
  obtain ⟨-, -, hM, -, hright⟩ := tiled_at_freeHead h.left (Nat.zero_le idx) hlt hst ho
  obtain ⟨h₂, hpool, hfr⟩ := splitBlock_spec h₁ hd hk
  have hlow : 2 ^ order ≤ 2 ^ (order + d) := Nat.pow_le_pow_right (by omega) (by omega)
  have hpos := Nat.two_pow_pos order
  have hdd : 2 ^ order ∣ idx := (pow_dvd_pow 2 (by omega)).trans hd
  set s₂ := splitBlock (Memory.removeFreeBlock s idx) idx order d with hs₂
  set fr := markBlock s₂.frameArray idx order .allocPageHead .allocPageTail with hfr'
  have hsame : ∀ j, SameBlock fr (Function.update fr idx { fr idx with cowRefCount := 1 }) j := by
    intro j
    by_cases hj : j = idx
    · subst hj
      simp [SameBlock]
    · simp [SameBlock, Function.update_of_ne hj]
  have hrem : ∀ j, j ≠ idx → (Memory.removeFreeBlock s idx).frameArray j = s.frameArray j :=
    fun j hj => by simp [Memory.removeFreeBlock, Function.update_of_ne hj]
  have hpool' : SamePool s s₂ := (samePool_removeFreeBlock s idx).trans hpool
  have hcounts : ∀ j, (s.frameArray j).SameCounts (fr j) := fun j =>
    ((removeFreeBlock_sameCounts s idx j).trans (hfr j).1).trans
      (markBlock_sameCounts _ _ _ _ _ _)
  refine ⟨by rw [pageToAddr, pageToAddr]; simp only [hpool'.start], ?_⟩
  refine ⟨hpool'.frames _, h₂.markAlloc (by omega) hdd hsame, ?_, hdd, ?_, by simp, ?_, ?_, ?_⟩
  · have := hright.le
    omega
  · exact (markBlock_marked _ _ _ _ _).congr fun j _ _ => hsame j
  · intro j hj hjk
    exact hM.isFree hj (by omega)
  · intro j hj
    have hne : j ≠ idx := by omega
    simp only [Function.update_of_ne hne, hfr', markBlock_outside hj]
    rcases (hfr j).2 with heq | ⟨hj₁, hj₂, hfree⟩
    · exact .inl (heq.trans (hrem j hne))
    · refine .inr ⟨hM.isFree (by omega) hj₂, hfree, ?_⟩
      exact (removeFreeBlock_sameCounts s idx j).trans (hfr j).1
  · intro j
    by_cases hj : j = idx
    · subst hj
      simp only [Function.update_self]
      exact ⟨(hcounts j).1, (hcounts j).2.1⟩
    · simp only [Function.update_of_ne hj]
      exact ⟨(hcounts j).1, (hcounts j).2.1⟩

/-- `buddy_alloc_pages` fails and changes nothing, or allocates a block. -/
theorem buddyAllocPages_cases (h : Inv s) (order : ℕ) :
    buddyAllocPages s order = (0, s) ∨
      ∃ idx, (buddyAllocPages s order).1 = pageToAddr s idx ∧
        Allocated s (buddyAllocPages s order).2 idx order := by
  by_cases hr : ¬ s.ready ∨ buddyMaxOrder < order
  · exact .inl (if_pos hr)
  cases hf : findOrder s order with
  | none =>
    refine .inl ?_
    rw [buddyAllocPages, if_neg hr, hf]
  | some current => exact .inr (buddyAllocPages_some h hr hf)

theorem inv_buddyAllocPages (h : Inv s) (order : ℕ) : Inv (buddyAllocPages s order).2 := by
  rcases buddyAllocPages_cases h order with h' | ⟨idx, -, h'⟩
  · rw [h']
    exact h
  · exact h'.inv

/-! ## Freeing -/

@[simp]
theorem toUnsigned_natCast (hk : k ≤ buddyMaxOrder) : toUnsigned (k : ℤ) = k := by
  simp only [toUnsigned, buddyMaxOrder] at *
  omega

/-- A free head outside the hole has an order of the right range. -/
theorem Hole.order_of_freeHead (h : Hole s lo hi) (hp : p < lo ∨ hi ≤ p)
    (hlt : p < s.memTotalPage) (hst : (s.frameArray p).state = .freeHead) :
    ∃ k : ℕ, (s.frameArray p).order = k ∧ k ≤ buddyMaxOrder := by
  have key : ∀ {a t}, Tiled (IsBlock s.frameArray) a t → a ≤ p → p < t →
      ∃ k : ℕ, (s.frameArray p).order = k ∧ k ≤ buddyMaxOrder := by
    intro a t ht ha hpt
    obtain ⟨c, n, hB, hcp, hpn, -, -⟩ := ht.split ha hpt
    obtain rfl := hB.eq_of_head hcp hpn (by simp [hst]) (by simp [hst])
    obtain ⟨k, -, hk, -, hM⟩ := hB.of_freeHead hst
    exact ⟨k, hM.order, hk⟩
  rcases hp with hp | hp
  · exact key h.left (Nat.zero_le p) hp
  · exact key h.right hp hlt

/-- The test of the merging loop finds the buddy exactly when it is on the free list. -/
theorem Hole.buddy_mem_iff (h : Hole s lo (lo + 2 ^ k)) (hd : 2 ^ k ∣ lo) (hk : k ≤ buddyMaxOrder) :
    lo ^^^ 2 ^ k ∈ s.freeArea k ↔ BuddyIsFree s lo k := by
  have hout := xor_two_pow_outside hd
  rw [h.mem_iff]
  constructor
  · rintro ⟨-, hlt, hst, ho⟩
    exact ⟨hlt, hst, by rw [ho, toUnsigned_natCast hk]⟩
  · rintro ⟨hlt, hst, ho⟩
    obtain ⟨k', ho', hk'⟩ := h.order_of_freeHead hout hlt hst
    rw [ho', toUnsigned_natCast hk'] at ho
    exact ⟨hout, hlt, hst, by rw [ho', ho]⟩

/-- The block `(idx, order)` of the state `s` grew to the block `r` of its last component. -/
structure Merged (s : Buddy) (idx order : ℕ) (r : Buddy × ℕ × ℕ) : Prop where
  hole : Hole r.1 r.2.1 (r.2.1 + 2 ^ r.2.2)
  dvd : 2 ^ r.2.2 ∣ r.2.1
  le : r.2.2 ≤ buddyMaxOrder
  pool : SamePool s r.1
  buddy : r.2.2 < buddyMaxOrder → r.2.1 ^^^ 2 ^ r.2.2 ∉ r.1.freeArea r.2.2
  lo_le : r.2.1 ≤ idx
  le_hi : idx + 2 ^ order ≤ r.2.1 + 2 ^ r.2.2
  counts : ∀ j, (s.frameArray j).SameCounts (r.1.frameArray j)
  outside : ∀ j, j < r.2.1 ∨ r.2.1 + 2 ^ r.2.2 ≤ j → r.1.frameArray j = s.frameArray j
  inside : ∀ j, r.2.1 ≤ j → j < r.2.1 + 2 ^ r.2.2 → j < idx ∨ idx + 2 ^ order ≤ j →
    (s.frameArray j).IsFree

theorem Merged.stop {idx order : ℕ} (h : Hole s idx (idx + 2 ^ order)) (hd : 2 ^ order ∣ idx)
    (hk : order ≤ buddyMaxOrder)
    (hb : order < buddyMaxOrder → idx ^^^ 2 ^ order ∉ s.freeArea order) :
    Merged s idx order (s, idx, order) where
  hole := h
  dvd := hd
  le := hk
  pool := .refl s
  buddy := hb
  lo_le := le_rfl
  le_hi := le_rfl
  counts _ := .refl _
  outside _ _ := rfl
  inside j h₁ h₂ h₃ := by
    simp only at h₁ h₂
    omega

/-- One round of the merging loop, and whatever follows it from the larger block on. -/
theorem Merged.absorb {idx order : ℕ} {r : Buddy × ℕ × ℕ} (h : Hole s idx (idx + 2 ^ order))
    (hd : 2 ^ order ∣ idx) (hmem : idx ^^^ 2 ^ order ∈ s.freeArea order)
    (hr : Merged (absorbBuddy s idx order).1 (absorbBuddy s idx order).2 (order + 1) r) :
    Merged s idx order r := by
  obtain ⟨hside, hblt, hbst, hbo⟩ := (h.mem_iff _ _).1 hmem
  simp only [absorbBuddy] at hr
  obtain ⟨hu₁, hu₂, hu₃, hu₄, hu₅⟩ := xor_two_pow_union hd rfl
  have hbM : Marked s.frameArray .freeHead .freeTail (idx ^^^ 2 ^ order) order := by
    rcases hside with hside | hside
    · exact (tiled_at_freeHead h.left (Nat.zero_le _) hside hbst hbo).2.2.1
    · exact (tiled_at_freeHead h.right hside hblt hbst hbo).2.2.1
  generalize hlo : (if idx ^^^ 2 ^ order < idx then idx ^^^ 2 ^ order else idx) = lo at *
  generalize idx ^^^ 2 ^ order = b at *
  have hrem : ∀ j, j ≠ b → (removeFreeBlock s b).frameArray j = s.frameArray j :=
    fun j hj => by simp [removeFreeBlock, Function.update_of_ne hj]
  have h1 := hr.lo_le
  have h2 := hr.le_hi
  refine ⟨hr.hole, hr.dvd, hr.le, ?_, hr.buddy, by omega, by omega, fun j => ?_, fun j hj => ?_,
    fun j hj₁ hj₂ hj₃ => ?_⟩
  · exact ((samePool_removeFreeBlock s b).frames _).trans hr.pool
  · exact ((removeFreeBlock_sameCounts s b j).trans (markBlock_sameCounts _ _ _ _ _ _)).trans
      (hr.counts j)
  · rw [hr.outside j hj]
    simp only
    rw [markBlock_outside (by omega), hrem j (by omega)]
  · by_cases hj : lo ≤ j ∧ j < lo + 2 ^ (order + 1)
    · obtain ⟨hj₄, hj₅⟩ := hu₅ j hj.1 hj.2 hj₃
      exact hbM.isFree hj₄ hj₅
    · have := hr.inside j hj₁ hj₂ (by omega)
      simp only at this
      rwa [markBlock_outside (by omega), hrem j (by omega)] at this

theorem mergeBuddy_spec {idx order : ℕ} (n : ℕ) (h : Hole s idx (idx + 2 ^ order))
    (hd : 2 ^ order ∣ idx) (hk : order ≤ buddyMaxOrder) (hn : buddyMaxOrder ≤ order + n) :
    Merged s idx order (mergeBuddy n s idx order) := by
  induction n generalizing s idx order with
  | zero => exact .stop h hd hk fun hlt => by omega
  | succ n ih =>
    rw [mergeBuddy]
    split_ifs with hfree
    · have hmem := (h.buddy_mem_iff hd hk).2 hfree.2
      obtain ⟨hd', h'⟩ := h.merge hd hmem
      refine .absorb h hd hmem (ih ?_ hd' (by omega) (by omega))
      exact h'.frames fun j hj => sameBlock_markBlock hj
    · refine .stop h hd hk fun hlt hmem => hfree ⟨hlt, ?_⟩
      exact (h.buddy_mem_iff hd hk).1 hmem

/-- What a `buddy_free_pages` that finds an allocated block does: the pages of the block are free
now, and a page outside the block keeps its frame, or stays free. -/
structure Freed (s s' : Buddy) (idx order : ℕ) : Prop where
  pool : SamePool s s'
  inv : Inv s'
  free : ∀ j, idx ≤ j → j < idx + 2 ^ order → (s'.frameArray j).IsFree
  outside : ∀ j, j < idx ∨ idx + 2 ^ order ≤ j → s'.frameArray j = s.frameArray j ∨
    (s.frameArray j).IsFree ∧ (s'.frameArray j).IsFree
  counts : ∀ j, (s.frameArray j).SameCounts (s'.frameArray j)

/-- The part of `buddy_free_pages` after its checks, on an allocated block. -/
theorem freed_of_alloc (h : Inv s) (hlt : p < s.memTotalPage)
    (hst : (s.frameArray p).state = .allocPageHead) (ho : (s.frameArray p).order = k) :
    let s₁ := { s with frameArray := markBlock s.frameArray p k .freeHead .freeTail }
    let r := mergeBuddy buddyMaxOrder s₁ p k
    Freed s (addFreeBlock r.1 r.2.1 r.2.2) p k := by
  obtain ⟨k', ho', hk, hd, hhole⟩ := Hole.ofAlloc h hlt hst
  obtain rfl : k' = k := by
    have := ho'.symm.trans ho
    exact_mod_cast this
  intro s₁ r
  have hr : Merged s₁ p k' r := mergeBuddy_spec buddyMaxOrder
    (hhole.frames fun j hj => sameBlock_markBlock hj) hd hk (by omega)
  have h1 := hr.lo_le
  have h2 := hr.le_hi
  have hmark := markBlock_marked r.1.frameArray r.2.1 r.2.2 .freeHead .freeTail
  refine ⟨?_, ?_, fun j hj hjk => ?_, fun j hj => ?_, fun j => ?_⟩
  · exact (((SamePool.refl s).frames _).trans hr.pool).trans (samePool_addFreeBlock _ _ _)
  · exact (hr.hole.addLower le_rfl hr.le hr.dvd hr.buddy).close
  · exact hmark.isFree (by omega) (by omega)
  · by_cases hj' : r.2.1 ≤ j ∧ j < r.2.1 + 2 ^ r.2.2
    · have := hr.inside j hj'.1 hj'.2 hj
      simp only [s₁] at this
      rw [markBlock_outside hj] at this
      exact .inr ⟨this, hmark.isFree hj'.1 hj'.2⟩
    · left
      simp only [addFreeBlock]
      rw [markBlock_outside (by omega), hr.outside j (by omega)]
      simp only [s₁]
      rw [markBlock_outside hj]
  · exact ((markBlock_sameCounts _ _ _ _ _ _).trans (hr.counts j)).trans
      (markBlock_sameCounts _ _ _ _ _ _)

/-- `buddy_free_pages` changes nothing, or frees the allocated block at the page of its
argument. -/
theorem buddyFreePages_cases (h : Inv s) (ptr : Addr) :
    buddyFreePages s ptr = s ∨
      ∃ k : ℕ, (s.frameArray ((ptr - s.mempoolStart) >>> pageShift).toNat).order = k ∧
        (s.frameArray ((ptr - s.mempoolStart) >>> pageShift).toNat).state = .allocPageHead ∧
        Freed s (buddyFreePages s ptr) ((ptr - s.mempoolStart) >>> pageShift).toNat k := by
  unfold buddyFreePages
  split_ifs with h₁ h₂ h₃
  · exact .inl rfl
  · exact .inl rfl
  · exact .inl rfl
  · set idx := ((ptr - s.mempoolStart) >>> pageShift).toNat
    simp only
    split_ifs with h₄
    · exact .inl rfl
    · push Not at h₄
      obtain ⟨k, ho, hk, -, -⟩ := Hole.ofAlloc h h₄.1 h₄.2
      rw [ho, toUnsigned_natCast hk]
      exact .inr ⟨k, rfl, h₄.2, freed_of_alloc h h₄.1 h₄.2 ho⟩

theorem inv_buddyFreePages (h : Inv s) (ptr : Addr) : Inv (buddyFreePages s ptr) := by
  rcases buddyFreePages_cases h ptr with h' | ⟨k, -, -, h'⟩
  · rw [h']
    exact h
  · exact h'.inv

/-! ## Initialisation -/

/-- The pool during the carving of `buddy_init`: the pages below `idx` are done, and a free block
was taken as large as possible, so that the block of the next order would have met a reserved page
or the end of the pool. -/
structure Carving (s : Buddy) (idx : ℕ) : Prop where
  hole : Hole s idx s.memTotalPage
  maximal : ∀ j k, j ∈ s.freeArea k → k < buddyMaxOrder → 2 ^ (k + 1) ∣ j →
    ∃ p, j + 2 ^ k ≤ p ∧ p < j + 2 ^ (k + 1) ∧
      (s.memTotalPage ≤ p ∨ (s.frameArray p).state = .reserved)

theorem carveOrder_spec (idx : ℕ) {freeCount : ℕ} (hf : 0 < freeCount) (m : ℕ) :
    carveOrder idx freeCount m ≤ m ∧ 2 ^ carveOrder idx freeCount m ∣ idx ∧
      2 ^ carveOrder idx freeCount m ≤ freeCount ∧
      ∀ k, carveOrder idx freeCount m < k → k ≤ m → 2 ^ k ∣ idx → freeCount < 2 ^ k := by
  induction m with
  | zero => exact ⟨le_rfl, one_dvd _, hf, fun k hk hk' => by simp only [carveOrder] at hk; omega⟩
  | succ m ih =>
    rw [carveOrder]
    split_ifs with h
    · refine ⟨le_rfl, ?_, h.2, fun k hk hk' => by omega⟩
      rw [Nat.and_two_pow_sub_one_eq_mod] at h
      exact Nat.dvd_of_mod_eq_zero h.1
    · obtain ⟨h₁, h₂, h₃, h₄⟩ := ih
      refine ⟨by omega, h₂, h₃, fun k hk hk' hd => ?_⟩
      rcases Nat.lt_or_ge m k with hmk | hmk
      · obtain rfl : k = m + 1 := by omega
        by_contra hlt
        refine h ⟨?_, by omega⟩
        rw [Nat.and_two_pow_sub_one_eq_mod]
        exact Nat.mod_eq_zero_of_dvd hd
      · exact h₄ k hk hmk hd

theorem freeRun_spec (fr : ℕ → Frame) (total n p : ℕ) (hn : total ≤ p + n) (hp : p ≤ total) :
    p + freeRun fr total n p ≤ total ∧
      (∀ j, p ≤ j → j < p + freeRun fr total n p → (fr j).state ≠ .reserved) ∧
      (p + freeRun fr total n p = total ∨ (fr (p + freeRun fr total n p)).state = .reserved) := by
  induction n generalizing p with
  | zero => simp only [freeRun]; exact ⟨hp, fun j _ _ => by omega, .inl (by omega)⟩
  | succ n ih =>
    rw [freeRun]
    split_ifs with h
    · obtain ⟨h₁, h₂, h₃⟩ := ih (p + 1) (by omega) (by omega)
      rw [show p + (freeRun fr total n (p + 1) + 1) = p + 1 + freeRun fr total n (p + 1) by omega]
      refine ⟨h₁, fun j hj hj' => ?_, h₃⟩
      rcases eq_or_lt_of_le hj with rfl | hj
      · exact h.2
      · exact h₂ j hj hj'
    · refine ⟨by omega, fun j _ _ => by omega, ?_⟩
      by_cases hlt : p < total
      · right
        by_contra hne
        exact h ⟨hlt, hne⟩
      · left
        omega

/-- Carving keeps the reserved pages and the counts of all pages. -/
structure SameReserved (s s' : Buddy) : Prop where
  pool : SamePool s s'
  reserved : ∀ j, (s'.frameArray j).state = .reserved ↔ (s.frameArray j).state = .reserved
  changed : ∀ j, (s'.frameArray j).state = (s.frameArray j).state ∨ (s'.frameArray j).IsFree
  counts : ∀ j, (s.frameArray j).SameCounts (s'.frameArray j)

theorem SameReserved.refl (s : Buddy) : SameReserved s s :=
  ⟨.refl s, fun _ => .rfl, fun _ => .inl rfl, fun _ => .refl _⟩

theorem SameReserved.trans {s₁ s₂ s₃ : Buddy} (h : SameReserved s₁ s₂) (h' : SameReserved s₂ s₃) :
    SameReserved s₁ s₃ := by
  refine ⟨h.pool.trans h'.pool, fun j => (h'.reserved j).trans (h.reserved j), fun j => ?_,
    fun j => (h.counts j).trans (h'.counts j)⟩
  rcases h'.changed j with h₂ | h₂
  · rw [Frame.IsFree, h₂]
    exact h.changed j
  · exact .inr h₂

theorem sameReserved_addFreeBlock
    (h : ∀ j, a ≤ j → j < a + 2 ^ k → (s.frameArray j).state ≠ .reserved) :
    SameReserved s (addFreeBlock s a k) := by
  have key : ∀ j, (a ≤ j ∧ j < a + 2 ^ k ∧ ((addFreeBlock s a k).frameArray j).IsFree) ∨
      (addFreeBlock s a k).frameArray j = s.frameArray j := by
    intro j
    by_cases hj : a ≤ j ∧ j < a + 2 ^ k
    · exact .inl ⟨hj.1, hj.2, (markBlock_marked _ _ _ _ _).isFree hj.1 hj.2⟩
    · exact .inr (markBlock_outside (by omega))
  refine ⟨samePool_addFreeBlock s a k, fun j => ?_, fun j => ?_,
    fun j => markBlock_sameCounts _ _ _ _ _ _⟩
  · rcases key j with ⟨hj₁, hj₂, hfree⟩ | heq
    · simp only [h j hj₁ hj₂, iff_false]
      rcases hfree with hfree | hfree <;> simp [hfree]
    · rw [heq]
  · rcases key j with ⟨-, -, hfree⟩ | heq
    · exact .inr hfree
    · exact .inl (by rw [heq])

/-- One block of the carving loop. -/
theorem Carving.add {idx freeCount : ℕ} (h : Carving s idx) (hf : 0 < freeCount)
    (hle : idx + freeCount ≤ s.memTotalPage)
    (hrun : ∀ j, idx ≤ j → j < idx + freeCount → (s.frameArray j).state ≠ .reserved)
    (hend : idx + freeCount = s.memTotalPage ∨ (s.frameArray (idx + freeCount)).state = .reserved) :
    let k := carveOrder idx freeCount buddyMaxOrder
    2 ^ k ≤ freeCount ∧ Carving (addFreeBlock s idx k) (idx + 2 ^ k) ∧
      SameReserved s (addFreeBlock s idx k) := by
  intro k
  obtain ⟨hk, hd, hkf, hmax⟩ := carveOrder_spec idx hf buddyMaxOrder
  change k ≤ buddyMaxOrder at hk
  change 2 ^ k ∣ idx at hd
  change 2 ^ k ≤ freeCount at hkf
  have hres : SameReserved s (addFreeBlock s idx k) :=
    sameReserved_addFreeBlock fun j hj hj' => hrun j hj (by omega)
  -- a free buddy could only be the lower one, which would have been carved larger
  have hbuddy : k < buddyMaxOrder → idx ^^^ 2 ^ k ∉ s.freeArea k := by
    intro hkm hmem
    obtain ⟨hside, hlt, -⟩ := (h.hole.mem_iff _ _).1 hmem
    by_cases hdd : 2 ^ (k + 1) ∣ idx
    · rw [xor_two_pow_of_dvd hdd] at hside hlt
      omega
    · obtain ⟨hd', hx⟩ := xor_two_pow_of_not_dvd hd hdd
      obtain ⟨p, hp₁, hp₂, hp₃⟩ := h.maximal _ _ hmem hkm hd'
      have hpow : 2 ^ (k + 1) = 2 ^ k + 2 ^ k := by ring
      rcases hp₃ with hp₃ | hp₃
      · omega
      · exact hrun p (by omega) (by omega) hp₃
  refine ⟨hkf, ⟨h.hole.addLower (by omega) hk hd hbuddy, ?_⟩, hres⟩
  intro j n hj hn hdn
  rw [mem_freeArea_addFreeBlock] at hj
  rcases hj with ⟨rfl, rfl⟩ | hj
  · -- the block just carved
    refine ⟨j + freeCount, by omega, ?_, ?_⟩
    · have := hmax (k + 1) (Nat.lt_succ_self k) hn hdn
      omega
    · rw [hres.reserved, hres.pool.total]
      rcases hend with hend | hend
      · exact .inl hend.ge
      · exact .inr hend
  · obtain ⟨p, hp₁, hp₂, hp₃⟩ := h.maximal j n hj hn hdn
    refine ⟨p, hp₁, hp₂, ?_⟩
    rw [hres.reserved, hres.pool.total]
    exact hp₃

theorem carveRun_spec (n : ℕ) {idx freeCount : ℕ} (h : Carving s idx) (hn : freeCount ≤ n)
    (hle : idx + freeCount ≤ s.memTotalPage)
    (hrun : ∀ j, idx ≤ j → j < idx + freeCount → (s.frameArray j).state ≠ .reserved)
    (hend : idx + freeCount = s.memTotalPage ∨ (s.frameArray (idx + freeCount)).state = .reserved) :
    (carveRun n s idx freeCount).2 = idx + freeCount ∧
      Carving (carveRun n s idx freeCount).1 (idx + freeCount) ∧
      SameReserved s (carveRun n s idx freeCount).1 := by
  induction n generalizing s idx freeCount with
  | zero =>
    obtain rfl : freeCount = 0 := by omega
    exact ⟨rfl, h, .refl s⟩
  | succ n ih =>
    rw [carveRun]
    split_ifs with hf
    · obtain ⟨hkf, h', hres⟩ := h.add hf hle hrun hend
      set k := carveOrder idx freeCount buddyMaxOrder
      have hpos := Nat.two_pow_pos k
      have hsum : idx + 2 ^ k + (freeCount - 2 ^ k) = idx + freeCount := by omega
      have hstep := @ih _ _ (freeCount - 2 ^ k) h' (by omega)
        (by rw [hres.pool.total]; omega)
        (fun j hj hj' => by
          rw [ne_eq, hres.reserved]
          exact hrun j (by omega) (by omega))
        (by rw [hsum, hres.pool.total, hres.reserved]; exact hend)
      rw [hsum] at hstep
      exact ⟨hstep.1, hstep.2.1, hres.trans hstep.2.2⟩
    · obtain rfl : freeCount = 0 := by omega
      exact ⟨rfl, h, .refl s⟩

/-- A reserved page passes the carving loop. -/
theorem Carving.skip {idx : ℕ} (h : Carving s idx) (hlt : idx < s.memTotalPage)
    (hst : (s.frameArray idx).state = .reserved) :
    let s' := { s with
      frameArray := Function.update s.frameArray idx { s.frameArray idx with order := 0 } }
    Carving s' (idx + 1) ∧ SameReserved s s' := by
  intro s'
  have hne : ∀ j, j ≠ idx → s'.frameArray j = s.frameArray j := fun j hj =>
    Function.update_of_ne hj _ _
  have hidx : (s'.frameArray idx).state = .reserved := by simp [s', hst]
  have hres : SameReserved s s' := by
    have hsame : ∀ j, (s'.frameArray j).state = (s.frameArray j).state := fun j => by
      by_cases hj : j = idx
      · rw [hj, hidx, hst]
      · rw [hne j hj]
    refine ⟨⟨rfl, rfl, rfl, rfl⟩, fun j => by rw [hsame], fun j => .inl (hsame j), fun j => ?_⟩
    · by_cases hj : j = idx
      · subst hj
        simp only [s', Function.update_self]
        exact ⟨rfl, rfl, rfl⟩
      · rw [hne j hj]
        exact .refl _
  have hsame : ∀ j, j < idx ∨ s.memTotalPage ≤ j → SameBlock s.frameArray s'.frameArray j :=
    fun j hj => by
      rw [SameBlock, hne j (by omega)]
      exact ⟨rfl, rfl⟩
  have h' : Hole s' idx s.memTotalPage := h.hole.frames hsame
  refine ⟨⟨⟨hlt, h'.left.trans (.single one_pos (.reserved hidx)), .nil _, fun k j => ?_, h'.nodup,
    h'.coalesced⟩, fun j k hj hk hd => ?_⟩, hres⟩
  · rw [h'.mem_iff]
    refine and_congr_left fun hfree => ?_
    have : j ≠ idx := by
      rintro rfl
      have := hfree.2.1
      simp [hidx] at this
    change _ ↔ j < idx + 1 ∨ s.memTotalPage ≤ j
    omega
  · obtain ⟨p, hp₁, hp₂, hp₃⟩ := h.maximal j k hj hk hd
    refine ⟨p, hp₁, hp₂, ?_⟩
    rw [hres.reserved]
    exact hp₃

theorem initLoop_spec (n : ℕ) {idx : ℕ} (h : Carving s idx) (hn : s.memTotalPage ≤ idx + n) :
    Inv (initLoop n s idx) ∧ SameReserved s (initLoop n s idx) := by
  have hdone : ∀ {s : Buddy} {idx : ℕ}, Carving s idx → s.memTotalPage ≤ idx → Inv s := by
    intro s idx h hle
    obtain rfl : idx = s.memTotalPage := le_antisymm h.hole.lo_le_hi hle
    exact h.hole
  induction n generalizing s idx with
  | zero =>
    rw [initLoop]
    exact ⟨hdone h (by omega), .refl s⟩
  | succ n ih =>
    rw [initLoop]
    split_ifs with hlt hst
    · obtain ⟨h', hres⟩ := h.skip hlt hst
      obtain ⟨h₁, h₂⟩ := ih h' (by simp only; omega)
      exact ⟨h₁, hres.trans h₂⟩
    · obtain ⟨hr₁, hr₂, hr₃⟩ := freeRun_spec s.frameArray s.memTotalPage
        (s.memTotalPage - idx) idx (by omega) (by omega)
      set f := freeRun s.frameArray s.memTotalPage (s.memTotalPage - idx) idx with hf
      obtain ⟨hc₁, hc₂, hc₃⟩ := carveRun_spec f h le_rfl hr₁ hr₂ hr₃
      -- the run is not empty, as its first page is free
      have hpos : 0 < f := by
        rcases Nat.eq_zero_or_pos f with h0 | h0
        · rw [h0, Nat.add_zero] at hr₃
          exact absurd hr₃ (by simp only [hst, or_false]; omega)
        · exact h0
      simp only [hc₁]
      obtain ⟨h₁, h₂⟩ := ih hc₂ (by rw [hc₃.pool.total]; omega)
      exact ⟨h₁, hc₃.trans h₂⟩
    · exact ⟨hdone h (by omega), .refl s⟩

/-- What `buddy_init` leaves: the invariant, the reserved pages marked before, free pages, and
cleared counts. -/
structure Initialised (s s' : Buddy) : Prop where
  inv : Inv s'
  start : s'.mempoolStart = s.mempoolStart
  size : s'.mempoolSize = s.mempoolSize
  total : s'.memTotalPage = s.memTotalPage
  ready : s'.ready = true
  reserved : ∀ j, (s'.frameArray j).state = .reserved ↔ (s.frameArray j).state = .reserved
  free : ∀ j < s.memTotalPage, (s.frameArray j).state ≠ .reserved → (s'.frameArray j).IsFree

/-- After the first two loops of `buddy_init`. -/
theorem carving_start (s : Buddy) : Carving { s with
    frameArray := updRange resetFrame s.frameArray 0 s.memTotalPage
    freeArea := fun _ => [] } 0 := by
  refine ⟨⟨Nat.zero_le _, .nil _, .nil _, fun k j => ?_, fun k => List.nodup_nil, ?_⟩, ?_⟩
  · simp only [List.not_mem_nil, false_iff, FreeHead]
    omega
  · intro k _ j hj
    exact absurd hj List.not_mem_nil
  · intro j k hj
    exact absurd hj List.not_mem_nil

theorem buddyInit_spec (s : Buddy) : Initialised s (buddyInit s) := by
  set s₀ : Buddy := { s with
    frameArray := updRange resetFrame s.frameArray 0 s.memTotalPage
    freeArea := fun _ => [] } with hs₀
  have hcarve : Carving s₀ 0 := carving_start s
  have hreset : ∀ j < s.memTotalPage, (s₀.frameArray j).state = .reserved ∨
      (s₀.frameArray j).state = .allocPageTail := fun j hj => by
    simp only [hs₀, updRange_apply, Nat.zero_le, Nat.zero_add, hj, and_self, if_true, resetFrame]
    split_ifs with hst
    · exact .inr rfl
    · exact .inl (not_not.1 hst)
  obtain ⟨h₁, h₂⟩ := initLoop_spec s.memTotalPage hcarve (by simp [hs₀])
  have hres : ∀ j, ((buddyInit s).frameArray j).state = .reserved ↔
      (s.frameArray j).state = .reserved := fun j => by
    refine (h₂.reserved j).trans ?_
    simp only [hs₀, updRange_apply]
    split_ifs with hj
    · by_cases hst : (s.frameArray j).state = .reserved <;> simp [resetFrame, hst]
    · rfl
  have hinv : Inv (buddyInit s) :=
    ⟨h₁.lo_le_hi, h₁.left, h₁.right, h₁.mem_iff, h₁.nodup, h₁.coalesced⟩
  have htotal : (buddyInit s).memTotalPage = s.memTotalPage := h₂.pool.total
  -- no page is the head of an allocated block or of a chunk page
  have hhead : ∀ j < s.memTotalPage, ((buddyInit s).frameArray j).state = .reserved ∨
      ((buddyInit s).frameArray j).state = .allocPageTail ∨
      ((buddyInit s).frameArray j).IsFree := by
    intro j hj
    rcases h₂.changed j with h | h
    · rcases hreset j hj with h' | h'
      · exact .inl (h.trans h')
      · exact .inr (.inl (h.trans h'))
    · exact .inr (.inr h)
  refine ⟨hinv, h₂.pool.start, h₂.pool.size, htotal, rfl, hres, fun j hj hst => ?_⟩
  rcases hhead j hj with h | h | h
  · exact absurd ((hres j).1 h) hst
  · -- an allocated tail would need its head
    obtain ⟨c, n, hB, hcj, hjn, -, -⟩ := hinv.left.split (Nat.zero_le j) (by rw [htotal]; exact hj)
    cases hB with
    | reserved h' => obtain rfl : c = j := by omega
                     simp [h] at h'
    | free _ _ hM => exact hM.isFree hcj hjn
    | alloc _ _ hM =>
      have := hhead c (by omega)
      simp [hM.head, Frame.IsFree] at this
    | chunk h' =>
      obtain rfl : c = j := by omega
      simp [h] at h'
  · exact h

end BareMetalOS.Memory
