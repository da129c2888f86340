import BareMetalOS.Memory.AnyCalls
import BareMetalOS.Mmu.PageTable

/-!
# Owned pages

The page tables of all processes together hold references to pages of the allocator. `Owns a n
other` says that the allocator `a` knows of exactly these references: `n p` of them to the page `p`,
and `other` are the blocks that are not pages of the page tables. The operations on pages move `n`
and leave `other` alone, and conversely.
-/

namespace BareMetalOS.Mmu

open Memory

variable {a : Allocator} {n : Addr → ℕ} {other : Addr → Option (ℕ × ℤ)} {p q : Addr} {size k : ℕ}

/-- The references to pages, and the other blocks of the allocator. -/
structure Owns (a : Allocator) (n : Addr → ℕ) (other : Addr → Option (ℕ × ℤ)) : Prop where
  inv : AllocInv a
  real : RealPool a.buddy
  blocks : ∀ p, blocks a p = if n p = 0 then other p else some (pageSize, (n p : ℤ))
  disjoint : ∀ p, n p ≠ 0 → other p = none

theorem blockBytes_pageSize : blockBytes pageSize = pageSize := by
  rw [blockBytes_of_large (by norm_num [pageSize])]
  decide

/-- The blocks of pages are aligned, and none of them is at `NULL`. -/
theorem pageAligned_of_blocks {r : ℤ} (hinv : AllocInv a) (hreal : RealPool a.buddy)
    (hb : blocks a p = some (k, r)) (hk : pageSize ≤ k) : PageAligned p ∧ p ≠ 0 := by
  obtain ⟨hl, -⟩ := (blocks_eq_some hinv).1 hb
  obtain ⟨-, h0, hlt⟩ := hl.inPool hinv hreal
  refine ⟨?_, h0⟩
  rw [pageAligned_iff, (hl.page_of_le hinv hk).2]
  exact pageToAddr_mod hinv.pool hreal.fits hlt

theorem Owns.pageAligned (h : Owns a n other) (hp : n p ≠ 0) : PageAligned p ∧ p ≠ 0 := by
  have hb := h.blocks p
  rw [if_neg hp] at hb
  exact pageAligned_of_blocks h.inv h.real hb le_rfl

/-! ## Pages -/

/-- A page is allocated: it is a new one, or there is none left. -/
theorem Owns.allocPage (h : Owns a n other) :
    ((allocate a pageSize).1 = 0 ∧ Owns (allocate a pageSize).2 n other) ∨
    ((allocate a pageSize).1 ≠ 0 ∧ n (allocate a pageSize).1 = 0 ∧
      PageAligned (allocate a pageSize).1 ∧
      Owns (allocate a pageSize).2 (n + Pi.single (allocate a pageSize).1 1) other) := by
  obtain ⟨hk, -⟩ := allocate_spec h.inv pageSize
  have hreal := h.real.of_samePool hk.pool
  rcases allocate_blocks h.inv h.real pageSize with ⟨h0, hb⟩ | ⟨h0, hnone, hb⟩
  · exact .inl ⟨h0, hk.inv, hreal, fun p => by rw [hb, h.blocks], h.disjoint⟩
  · rw [blockBytes_pageSize] at hb
    generalize (allocate a pageSize).1 = q at *
    have hn : n q = 0 ∧ other q = none := by
      rw [h.blocks] at hnone
      split at hnone
      · exact ⟨‹_›, hnone⟩
      · cases hnone
    refine .inr ⟨h0, hn.1, ?_, hk.inv, hreal, fun p => ?_, fun p hp => ?_⟩
    · have hb' := congrFun hb q
      rw [Function.update_self] at hb'
      exact (pageAligned_of_blocks hk.inv hreal hb' le_rfl).1
    · rw [hb]
      rcases eq_or_ne p q with rfl | hne
      · simp [hn.1]
      · rw [Function.update_of_ne hne, h.blocks]
        simp [hne]
    · rcases eq_or_ne p q with rfl | hne
      · exact hn.2
      · exact h.disjoint p (by simpa [hne] using hp)

/-- A reference to a page is dropped. -/
theorem Owns.free (h : Owns a (n + Pi.single p 1) other) : Owns (free a p) n other := by
  have hk := free_spec h.inv p
  have hb := h.blocks p
  rw [if_neg (by simp)] at hb
  refine ⟨hk.inv, h.real.of_samePool hk.pool, fun q => ?_, fun q hq => ?_⟩
  · rw [free_blocks h.inv h.real hb]
    rcases eq_or_ne q p with rfl | hne
    · rw [Function.update_self, h.disjoint q (by simp)]
      by_cases h0 : n q = 0
      · simp [h0]
      · simp [h0]
    · rw [Function.update_of_ne hne, h.blocks]
      simp [hne]
  · exact h.disjoint q (by simpa using fun h0 => absurd h0 hq)

/-- A reference to a page is added. -/
theorem Owns.incRef (h : Owns a n other) (hp : n p ≠ 0) :
    Owns (pageIncRef a p) (n + Pi.single p 1) other := by
  have hb := h.blocks p
  rw [if_neg hp] at hb
  obtain ⟨hk, hblocks⟩ := pageIncRef_blocks h.inv h.real hb le_rfl
  refine ⟨hk.inv, h.real.of_samePool hk.pool, fun q => ?_, fun q hq => ?_⟩
  · rw [hblocks]
    rcases eq_or_ne q p with rfl | hne
    · simp
    · rw [Function.update_of_ne hne, h.blocks]
      simp [hne]
  · rcases eq_or_ne q p with rfl | hne
    · exact h.disjoint q hp
    · exact h.disjoint q (by simpa [hne] using hq)

/-- `get_page_ref` reads the number of references. -/
theorem Owns.getPageRef (h : Owns a n other) (hp : n p ≠ 0) : getPageRef a p = n p := by
  have hb := h.blocks p
  rw [if_neg hp] at hb
  exact getPageRef_eq h.inv h.real hb le_rfl

/-! ## Other blocks -/

/-- A block that is not a page of the page tables is allocated. -/
theorem Owns.allocOther (h : Owns a n other) (size : ℕ) :
    ((allocate a size).1 = 0 ∧ Owns (allocate a size).2 n other) ∨
    ((allocate a size).1 ≠ 0 ∧ n (allocate a size).1 = 0 ∧ other (allocate a size).1 = none ∧
      Owns (allocate a size).2 n
        (Function.update other (allocate a size).1 (some (blockBytes size, 1)))) := by
  obtain ⟨hk, -⟩ := allocate_spec h.inv size
  have hreal := h.real.of_samePool hk.pool
  rcases allocate_blocks h.inv h.real size with ⟨h0, hb⟩ | ⟨h0, hnone, hb⟩
  · exact .inl ⟨h0, hk.inv, hreal, fun p => by rw [hb, h.blocks], h.disjoint⟩
  · have hn : n (allocate a size).1 = 0 ∧ other (allocate a size).1 = none := by
      rw [h.blocks] at hnone
      split at hnone
      · exact ⟨‹_›, hnone⟩
      · cases hnone
    refine .inr ⟨h0, hn.1, hn.2, hk.inv, hreal, fun p => ?_, fun p hp => ?_⟩
    · rw [hb]
      rcases eq_or_ne p (allocate a size).1 with rfl | hne
      · rw [Function.update_self, Function.update_self, if_pos hn.1]
      · rw [Function.update_of_ne hne, Function.update_of_ne hne, h.blocks]
    · rw [Function.update_of_ne (by rintro rfl; exact hp hn.1)]
      exact h.disjoint p hp

/-- A block that is not a page of the page tables is freed. -/
theorem Owns.freeOther (h : Owns a n other) (hq : other q = some (k, 1)) :
    Owns (Memory.free a q) n (Function.update other q none) := by
  have hk := free_spec h.inv q
  have hn : n q = 0 := by
    by_contra hne
    rw [h.disjoint q hne] at hq
    cases hq
  have hb := h.blocks q
  rw [if_pos hn, hq] at hb
  refine ⟨hk.inv, h.real.of_samePool hk.pool, fun p => ?_, fun p hp => ?_⟩
  · rw [free_blocks h.inv h.real hb, if_pos rfl]
    rcases eq_or_ne p q with rfl | hne
    · rw [Function.update_self, Function.update_self, if_pos hn]
    · rw [Function.update_of_ne hne, Function.update_of_ne hne, h.blocks]
  · rw [Function.update_of_ne (by rintro rfl; exact hp hn)]
    exact h.disjoint p hp

end BareMetalOS.Mmu
