import BareMetalOS.Memory.BuddyInvariant

/-!
# Runs of the buddy system

`BuddyOp` is a call of `buddy_alloc_pages` or of `buddy_free_pages` with any argument, and
`buddyRun` a sequence of calls. The main result, `buddyRun_wellFormed`, describes every state that
a sequence of calls reaches from `buddy_init`: the free lists are the free heads, free blocks are
aligned and inside the pool, every page has exactly one owner, and buddies are merged.
-/

namespace BareMetalOS.Memory

/-- A call of the page allocator. -/
inductive BuddyOp
  | alloc (order : ℕ)
  | free (ptr : Addr)
  deriving DecidableEq

/-- The state after a call. -/
def BuddyOp.step (s : Buddy) : BuddyOp → Buddy
  | .alloc order => (buddyAllocPages s order).2
  | .free ptr => buddyFreePages s ptr

/-- The state after a sequence of calls. -/
def buddyRun (s : Buddy) (ops : List BuddyOp) : Buddy := ops.foldl BuddyOp.step s

/-- What a page of the pool can belong to. -/
inductive Owner
  | reserved (idx : ℕ)
  | free (idx k : ℕ)
  | alloc (idx k : ℕ)
  deriving DecidableEq

/-- The page `p` belongs to the owner. An allocated block of order `k` is a page
`PAGE_STATE_ALLOC_PAGE_HEAD` of order `k` followed by `2 ^ k - 1` pages
`PAGE_STATE_ALLOC_PAGE_TAIL`. -/
def Owner.Owns (s : Buddy) (p : ℕ) : Owner → Prop
  | .reserved idx => idx = p ∧ (s.frameArray idx).state = .reserved
  | .free idx k => Marked s.frameArray .freeHead .freeTail idx k ∧ idx ≤ p ∧ p < idx + 2 ^ k
  | .alloc idx k =>
    Marked s.frameArray .allocPageHead .allocPageTail idx k ∧ idx ≤ p ∧ p < idx + 2 ^ k

/-- The shape of the page allocator's state. -/
structure WellFormed (s : Buddy) : Prop where
  /-- A page is on `free_area[k]`, then once, exactly when it is a free head of order `k`. -/
  count_eq_one_iff : ∀ k idx, (s.freeArea k).count idx = 1 ↔ FreeHead s idx k
  count_le_one : ∀ k idx, (s.freeArea k).count idx ≤ 1
  /-- It is on no other list. -/
  mem_unique : ∀ k k' idx, idx ∈ s.freeArea k → idx ∈ s.freeArea k' → k = k'
  /-- A free block is aligned, inside the pool, and its other pages are free tails. -/
  block : ∀ k, ∀ idx ∈ s.freeArea k, k ≤ buddyMaxOrder ∧ 2 ^ k ∣ idx ∧
    idx + 2 ^ k ≤ s.memTotalPage ∧
    ∀ i, idx < i → i < idx + 2 ^ k → (s.frameArray i).state = .freeTail
  /-- Every page has exactly one owner. -/
  owner : ∀ p < s.memTotalPage, ∃! o : Owner, o.Owns s p
  /-- No two buddies are both free blocks of the same order. -/
  merged : ∀ k < buddyMaxOrder, ∀ idx, ¬ (idx ∈ s.freeArea k ∧ idx ^^^ 2 ^ k ∈ s.freeArea k)

/-- Pages that a chunk pool took appear only above this layer. -/
def NoChunkPage (s : Buddy) : Prop :=
  ∀ p < s.memTotalPage, (s.frameArray p).state ≠ .allocChunkPool

variable {s : Buddy} {p : ℕ}

/-! ## Owners -/

theorem Owner.Owns.unique {o o' : Owner} (h : o.Owns s p) (h' : o'.Owns s p) : o = o' := by
  have hkk : ∀ {hs ts a k k'}, Marked s.frameArray hs ts a k → Marked s.frameArray hs ts a k' →
      k = k' := fun h h' => by
    have := h.order.symm.trans h'.order
    exact_mod_cast this
  -- a reserved page is no page of a block
  have hres : ∀ {hs ts a k}, Marked s.frameArray hs ts a k → a ≤ p → p < a + 2 ^ k →
      hs ≠ .reserved → ts ≠ .reserved → (s.frameArray p).state ≠ .reserved := by
    intro hs ts a k hM ha hp h₁ h₂
    rcases eq_or_lt_of_le ha with rfl | ha
    · rw [hM.head]
      exact h₁
    · rw [hM.tail p ha hp]
      exact h₂
  cases o with
  | reserved idx =>
    obtain ⟨rfl, hst⟩ := h
    cases o' with
    | reserved idx' =>
      obtain ⟨rfl, -⟩ := h'
      rfl
    | free idx' k' => exact absurd hst (hres h'.1 h'.2.1 h'.2.2 (by simp) (by simp))
    | alloc idx' k' => exact absurd hst (hres h'.1 h'.2.1 h'.2.2 (by simp) (by simp))
  | free idx k =>
    obtain ⟨hM, ha, hp⟩ := h
    cases o' with
    | reserved idx' =>
      obtain ⟨rfl, hst⟩ := h'
      exact absurd hst (hres hM ha hp (by simp) (by simp))
    | free idx' k' =>
      obtain rfl := hM.eq_of_mem h'.1 ha hp h'.2.1 h'.2.2 (by simp) (by simp)
      rw [hkk hM h'.1]
    | alloc idx' k' =>
      obtain rfl := hM.eq_of_mem h'.1 ha hp h'.2.1 h'.2.2 (by simp) (by simp)
      exact absurd (hM.head.symm.trans h'.1.head) (by simp)
  | alloc idx k =>
    obtain ⟨hM, ha, hp⟩ := h
    cases o' with
    | reserved idx' =>
      obtain ⟨rfl, hst⟩ := h'
      exact absurd hst (hres hM ha hp (by simp) (by simp))
    | free idx' k' =>
      obtain rfl := hM.eq_of_mem h'.1 ha hp h'.2.1 h'.2.2 (by simp) (by simp)
      exact absurd (hM.head.symm.trans h'.1.head) (by simp)
    | alloc idx' k' =>
      obtain rfl := hM.eq_of_mem h'.1 ha hp h'.2.1 h'.2.2 (by simp) (by simp)
      rw [hkk hM h'.1]

theorem Inv.exists_owner (h : Inv s) (hc : NoChunkPage s) (hp : p < s.memTotalPage) :
    ∃ o : Owner, o.Owns s p := by
  obtain ⟨a, n, hB, hap, hpn, -, hright⟩ := h.left.split (Nat.zero_le p) hp
  cases hB with
  | reserved hst => exact ⟨.reserved a, by omega, hst⟩
  | free _ _ hM => exact ⟨.free a _, hM, hap, hpn⟩
  | alloc _ _ hM => exact ⟨.alloc a _, hM, hap, hpn⟩
  | chunk hst =>
    have := hright.le
    exact absurd hst (hc a (by omega))

/-! ## The invariant gives the shape -/

theorem Inv.wellFormed (h : Inv s) (hc : NoChunkPage s) : WellFormed s where
  count_eq_one_iff k idx := by
    have hmem : idx ∈ s.freeArea k ↔ FreeHead s idx k :=
      (h.mem_iff k idx).trans (and_iff_right (by omega))
    rw [← hmem]
    constructor
    · intro h1
      exact List.count_pos_iff.1 (by omega)
    · exact List.count_eq_one_of_mem (h.nodup k)
  count_le_one k idx := List.nodup_iff_count_le_one.1 (h.nodup k) idx
  mem_unique k k' idx hk hk' := by
    have h₁ := ((h.mem_iff k idx).1 hk).2.2.2
    have h₂ := ((h.mem_iff k' idx).1 hk').2.2.2
    exact_mod_cast h₁.symm.trans h₂
  block k idx hk := by
    obtain ⟨-, hlt, hst, ho⟩ := (h.mem_iff k idx).1 hk
    obtain ⟨hkm, hd, hM, -, hright⟩ := tiled_at_freeHead h.left (Nat.zero_le idx) hlt hst ho
    exact ⟨hkm, hd, hright.le, hM.tail⟩
  owner p hp := by
    obtain ⟨o, ho⟩ := h.exists_owner hc hp
    exact ⟨o, ho, fun o' ho' => ho'.unique ho⟩
  merged k hk idx hmem := h.coalesced k hk idx hmem.1 hmem.2

/-! ## Runs -/

theorem noChunkPage_buddyInit (s : Buddy) : NoChunkPage (buddyInit s) := by
  intro p hp hst
  have h := buddyInit_spec s
  rw [h.total] at hp
  by_cases hr : (s.frameArray p).state = .reserved
  · rw [(h.reserved p).2 hr] at hst
    cases hst
  · rcases h.free p hp hr with h' | h' <;> simp [h'] at hst

theorem NoChunkPage.step (h : Inv s) (hc : NoChunkPage s) (op : BuddyOp) :
    NoChunkPage (op.step s) := by
  have hfree : ∀ {f : Frame}, f.IsFree → f.state ≠ .allocChunkPool := fun hf => by
    rcases hf with hf | hf <;> simp [hf]
  cases op with
  | alloc order =>
    rcases buddyAllocPages_cases h order with heq | ⟨idx, -, ha⟩
    · rw [BuddyOp.step, heq]
      exact hc
    · intro p hp
      rw [BuddyOp.step, ha.pool.total] at hp
      by_cases hin : idx ≤ p ∧ p < idx + 2 ^ order
      · rcases eq_or_lt_of_le hin.1 with rfl | hlt
        · simp [BuddyOp.step, ha.marked.head]
        · simp [BuddyOp.step, ha.marked.tail p hlt hin.2]
      · rcases ha.outside p (by omega) with heq | ⟨-, hf, -⟩
        · rw [BuddyOp.step, heq]
          exact hc p hp
        · exact hfree hf
  | free ptr =>
    rcases buddyFreePages_cases h ptr with heq | ⟨k, -, -, hf⟩
    · rw [BuddyOp.step, heq]
      exact hc
    · intro p hp
      rw [BuddyOp.step, hf.pool.total] at hp
      by_cases hin : ((ptr - s.mempoolStart) >>> pageShift).toNat ≤ p ∧
          p < ((ptr - s.mempoolStart) >>> pageShift).toNat + 2 ^ k
      · exact hfree (hf.free p hin.1 hin.2)
      · rcases hf.outside p (by omega) with heq | ⟨-, hf⟩
        · rw [BuddyOp.step, heq]
          exact hc p hp
        · exact hfree hf

theorem inv_buddyOp (h : Inv s) (op : BuddyOp) : Inv (op.step s) := by
  cases op with
  | alloc order => exact inv_buddyAllocPages h order
  | free ptr => exact inv_buddyFreePages h ptr

theorem inv_buddyRun (h : Inv s) (hc : NoChunkPage s) (ops : List BuddyOp) :
    Inv (buddyRun s ops) ∧ NoChunkPage (buddyRun s ops) := by
  induction ops generalizing s with
  | nil => exact ⟨h, hc⟩
  | cons op ops ih => exact ih (inv_buddyOp h op) (hc.step h op)

/-- **Every state of the page allocator is well formed.** Whatever the pool, its size and its
reserved pages, and whatever the arguments of the calls made after `buddy_init`. -/
theorem buddyRun_wellFormed (s₀ : Buddy) (ops : List BuddyOp) :
    WellFormed (buddyRun (buddyInit s₀) ops) := by
  obtain ⟨h, hc⟩ := inv_buddyRun (buddyInit_spec s₀).inv (noChunkPage_buddyInit s₀) ops
  exact h.wellFormed hc

end BareMetalOS.Memory
