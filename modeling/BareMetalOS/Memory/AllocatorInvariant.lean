import BareMetalOS.Memory.Allocator
import BareMetalOS.Memory.BuddyInvariant
import Mathlib.Data.Finset.Card
import Mathlib.Data.Finset.Range

/-!
# The invariant of the dynamic allocator

`AllocInv s` ties the two layers together: the buddy system is well formed, a page given to chunk
pool `i` carries the number of its live chunks, and the free list of pool `i` holds addresses of
chunks of such pages, each once. A chunk is live when it is on no free list.

`Live s p n` says that a block of `n` bytes is live at the address `p`. The operations are described
by what they do to `Live`: `allocate_spec` and `free_spec`. Distinct live blocks are disjoint
(`Live.eq_of_mem`), inside the pool and away from reserved pages.
-/

namespace BareMetalOS.Memory

theorem gPoolSizes_eq {i : ℕ} (hi : i < chunkPoolCount) : gPoolSizes i = 2 ^ (i + 4) := by
  simp only [chunkPoolCount] at hi
  interval_cases i <;> rfl

theorem gPoolSizes_pos {i : ℕ} (hi : i < chunkPoolCount) : 0 < gPoolSizes i := by
  rw [gPoolSizes_eq hi]
  exact Nat.two_pow_pos _

/-- A page is a whole number of chunks. -/
theorem gPoolSizes_dvd {i : ℕ} (hi : i < chunkPoolCount) : gPoolSizes i ∣ pageSize := by
  simp only [chunkPoolCount] at hi
  interval_cases i <;> decide

/-! ## Addresses of the pool -/

/-- Chunk `c` of the page `idx` of pool `i`. -/
def chunkAddr (b : Buddy) (i idx c : ℕ) : Addr := chunkAt (pageToAddr b idx) (gPoolSizes i) c

variable {b : Buddy} {s : Allocator} {i i' idx idx' c c' k n o q : ℕ} {p a : Addr}

theorem chunkAddr_eq (b : Buddy) (i idx c : ℕ) :
    chunkAddr b i idx c =
      b.mempoolStart + BitVec.ofNat 64 (idx * pageSize + c * gPoolSizes i) := by
  rw [chunkAddr, chunkAt, pageToAddr, BitVec.add_assoc, ← BitVec.ofNat_add]

theorem addrToPageIdx_add (b : Buddy) (ho : o < 2 ^ 64) :
    addrToPageIdx b (b.mempoolStart + BitVec.ofNat 64 o) = o / pageSize := by
  rw [addrToPageIdx, BitVec.add_comm, BitVec.add_sub_cancel, BitVec.toNat_ushiftRight,
    BitVec.toNat_ofNat, Nat.mod_eq_of_lt ho, Nat.shiftRight_eq_div_pow]
  rfl

/-- The offset of a chunk stays inside its page. -/
theorem chunk_offset_lt (hi : i < chunkPoolCount) (hc : c < pageSize / gPoolSizes i) :
    c * gPoolSizes i + gPoolSizes i ≤ pageSize := by
  have h := Nat.div_mul_cancel (gPoolSizes_dvd hi)
  calc c * gPoolSizes i + gPoolSizes i = (c + 1) * gPoolSizes i := by ring
    _ ≤ pageSize / gPoolSizes i * gPoolSizes i := Nat.mul_le_mul_right _ hc
    _ = pageSize := h

theorem AlignedPool.offset_lt (h : AlignedPool b) (hidx : idx < b.memTotalPage)
    (ho : o ≤ pageSize) : idx * pageSize + o < 2 ^ 64 := by
  have := h.total
  simp only [pageSize, buddyTotalPages] at *
  omega

theorem addrToPageIdx_chunkAddr (h : AlignedPool b) (hidx : idx < b.memTotalPage)
    (hi : i < chunkPoolCount) (hc : c < pageSize / gPoolSizes i) :
    addrToPageIdx b (chunkAddr b i idx c) = idx := by
  have h₁ := chunk_offset_lt hi hc
  have h₂ := gPoolSizes_pos hi
  rw [chunkAddr_eq, addrToPageIdx_add b (h.offset_lt hidx (by omega))]
  simp only [pageSize] at *
  omega

theorem addrToPageIdx_pageToAddr (h : AlignedPool b) (hidx : idx < b.memTotalPage) :
    addrToPageIdx b (pageToAddr b idx) = idx := by
  have := h.offset_lt hidx (Nat.zero_le pageSize)
  rw [pageToAddr, addrToPageIdx_add b (by simpa using this)]
  exact Nat.mul_div_cancel _ (by decide)

theorem chunkAddr_inj (h : AlignedPool b) (hidx : idx < b.memTotalPage)
    (hidx' : idx' < b.memTotalPage) (hi : i < chunkPoolCount) (hc : c < pageSize / gPoolSizes i)
    (hc' : c' < pageSize / gPoolSizes i) (heq : chunkAddr b i idx c = chunkAddr b i idx' c') :
    idx = idx' ∧ c = c' := by
  have hidxs : idx = idx' := by
    rw [← addrToPageIdx_chunkAddr h hidx hi hc, heq, addrToPageIdx_chunkAddr h hidx' hi hc']
  subst hidxs
  have h₁ := chunk_offset_lt hi hc
  have h₂ := chunk_offset_lt hi hc'
  have h₃ := gPoolSizes_pos hi
  rw [chunkAddr_eq, chunkAddr_eq, add_ofNat_inj (h.offset_lt hidx (by omega))
    (h.offset_lt hidx (by omega))] at heq
  exact ⟨rfl, Nat.eq_of_mul_eq_mul_right h₃ (by omega)⟩

/-! ## Live blocks -/

/-- A block of `n` bytes is live at `p`: an allocated block of pages, or a chunk that is not on the
free list of its pool. -/
inductive Live (s : Allocator) : Addr → ℕ → Prop
  | page {idx k : ℕ} (hlt : idx < s.buddy.memTotalPage)
      (hst : (s.buddy.frameArray idx).state = .allocPageHead)
      (ho : (s.buddy.frameArray idx).order = k) : Live s (pageToAddr s.buddy idx) (2 ^ k * pageSize)
  | chunk {i idx c : ℕ} (hi : i < chunkPoolCount) (hlt : idx < s.buddy.memTotalPage)
      (hst : (s.buddy.frameArray idx).state = .allocChunkPool)
      (hm : (s.buddy.frameArray idx).metaPoolIdx = i) (hc : c < pageSize / gPoolSizes i)
      (hfree : chunkAddr s.buddy i idx c ∉ (s.gPools i).freeList) :
      Live s (chunkAddr s.buddy i idx c) (gPoolSizes i)

/-- The chunks of a page that are not on the free list of pool `i`. -/
def liveChunks (s : Allocator) (i idx : ℕ) : Finset ℕ :=
  (Finset.range (pageSize / gPoolSizes i)).filter
    fun c => chunkAddr s.buddy i idx c ∉ (s.gPools i).freeList

/-- The invariant of the allocator. -/
structure AllocInv (s : Allocator) : Prop where
  inv : Inv s.buddy
  pool : AlignedPool s.buddy
  ready : s.ready = true
  buddy_ready : s.buddy.ready = true
  sizes : ∀ i < chunkPoolCount, (s.gPools i).chunkSize = gPoolSizes i
  chunkPage : ∀ idx < s.buddy.memTotalPage,
    (s.buddy.frameArray idx).state = .allocChunkPool → ∃ i < chunkPoolCount,
      (s.buddy.frameArray idx).metaPoolIdx = (i : ℤ) ∧
      (s.buddy.frameArray idx).refCount = ((liveChunks s i idx).card : ℤ)
  nodup : ∀ i < chunkPoolCount, (s.gPools i).freeList.Nodup
  freeList : ∀ i < chunkPoolCount, ∀ a ∈ (s.gPools i).freeList, ∃ idx c,
    idx < s.buddy.memTotalPage ∧ (s.buddy.frameArray idx).state = .allocChunkPool ∧
    (s.buddy.frameArray idx).metaPoolIdx = (i : ℤ) ∧ c < pageSize / gPoolSizes i ∧
    a = chunkAddr s.buddy i idx c
  chunkNonzero : ∀ idx < s.buddy.memTotalPage,
    (s.buddy.frameArray idx).state = .allocChunkPool → pageToAddr s.buddy idx ≠ 0
  cow : ∀ idx < s.buddy.memTotalPage, (s.buddy.frameArray idx).state = .allocPageHead →
    1 ≤ (s.buddy.frameArray idx).cowRefCount

/-- The offsets of the pool that a live block covers, with its head page. -/
inductive Covers (s : Allocator) : Addr → ℕ → ℕ → ℕ → Prop
  | page {idx k o : ℕ} (hM : Marked s.buddy.frameArray .allocPageHead .allocPageTail idx k)
      (h₁ : idx * pageSize ≤ o) (h₂ : o < idx * pageSize + 2 ^ k * pageSize) :
      Covers s (pageToAddr s.buddy idx) (2 ^ k * pageSize) idx o
  | chunk {i idx c o : ℕ} (hi : i < chunkPoolCount) (hc : c < pageSize / gPoolSizes i)
      (hst : (s.buddy.frameArray idx).state = .allocChunkPool)
      (hm : (s.buddy.frameArray idx).metaPoolIdx = i)
      (h₁ : idx * pageSize + c * gPoolSizes i ≤ o)
      (h₂ : o < idx * pageSize + c * gPoolSizes i + gPoolSizes i) :
      Covers s (chunkAddr s.buddy i idx c) (gPoolSizes i) idx o

/-- A live block sits at an offset of the pool. -/
theorem Live.offset (h : AllocInv s) (hl : Live s p n) :
    ∃ o, p = s.buddy.mempoolStart + BitVec.ofNat 64 o ∧ 0 < n ∧
      o + n ≤ s.buddy.memTotalPage * pageSize ∧
      ∃ idx, ∀ x, o ≤ x → x < o + n → Covers s p n idx x := by
  cases hl with
  | @page idx k hlt hst ho =>
    obtain ⟨k', -, -, hM, -, hright⟩ := tiled_at_allocPageHead h.inv.left (Nat.zero_le _) hlt hst
    obtain rfl : k' = k := by exact_mod_cast hM.order.symm.trans ho
    refine ⟨idx * pageSize, rfl, Nat.mul_pos (Nat.two_pow_pos _) (by decide), ?_, idx,
      fun x hx hx' => .page hM hx hx'⟩
    have := Nat.mul_le_mul_right pageSize hright.le
    linarith [Nat.add_mul idx (2 ^ k') pageSize]
  | @chunk i idx c hi hlt hst hm hc hfree =>
    refine ⟨_, chunkAddr_eq _ _ _ _, gPoolSizes_pos hi, ?_, idx,
      fun x hx hx' => .chunk hi hc hst hm hx hx'⟩
    have h₁ := chunk_offset_lt hi hc
    simp only [pageSize] at *
    omega

/-- The page of a covered offset, and its state. -/
theorem Covers.page_state (hc : Covers s p n idx o) :
    idx ≤ o / pageSize ∧
      ((s.buddy.frameArray (o / pageSize)).state = .allocPageHead ∧ idx = o / pageSize ∨
        (s.buddy.frameArray (o / pageSize)).state = .allocPageTail ∨
        (s.buddy.frameArray (o / pageSize)).state = .allocChunkPool ∧ idx = o / pageSize) := by
  cases hc with
  | @page idx k o hM h₁ h₂ =>
    have hle : idx ≤ o / pageSize := (Nat.le_div_iff_mul_le (by decide)).2 h₁
    have hlt : o / pageSize < idx + 2 ^ k := by
      rw [Nat.div_lt_iff_lt_mul (by decide), Nat.add_mul]
      exact h₂
    refine ⟨hle, ?_⟩
    rcases eq_or_lt_of_le hle with heq | hlt'
    · exact .inl ⟨by rw [← heq]; exact hM.head, heq⟩
    · exact .inr (.inl (hM.tail _ hlt' hlt))
  | @chunk i idx c o hi hc hst hm h₁ h₂ =>
    have h₃ := chunk_offset_lt hi hc
    have heq : o / pageSize = idx := by
      simp only [pageSize] at *
      omega
    exact ⟨heq.ge, .inr (.inr ⟨by rw [heq]; exact hst, heq.symm⟩)⟩

/-- Live blocks that cover a common offset are the same block. -/
theorem Covers.unique {p' : Addr} {n' : ℕ} (hc : Covers s p n idx o) (hc' : Covers s p' n' idx' o) :
    p = p' ∧ n = n' := by
  have hs := hc.page_state.2
  have hs' := hc'.page_state.2
  cases hc with
  | @page idx k o hM h₁ h₂ =>
    have hle : idx ≤ o / pageSize := (Nat.le_div_iff_mul_le (by decide)).2 h₁
    have hlt : o / pageSize < idx + 2 ^ k := by
      rw [Nat.div_lt_iff_lt_mul (by decide), Nat.add_mul]
      exact h₂
    cases hc' with
    | @page idx' k' o' hM' h₁' h₂' =>
      have hle' : idx' ≤ o / pageSize := (Nat.le_div_iff_mul_le (by decide)).2 h₁'
      have hlt' : o / pageSize < idx' + 2 ^ k' := by
        rw [Nat.div_lt_iff_lt_mul (by decide), Nat.add_mul]
        exact h₂'
      obtain rfl := hM.eq_of_mem hM' hle hlt hle' hlt' (by simp) (by simp)
      obtain rfl : k = k' := by exact_mod_cast hM.order.symm.trans hM'.order
      exact ⟨rfl, rfl⟩
    | @chunk i' idx' c' o' hi' hc' hst' hm' h₁' h₂' =>
      have hidx : idx' = o / pageSize := by
        rcases hs' with h | h | h
        · exact h.2
        · have h₃ := chunk_offset_lt hi' hc'
          simp only [pageSize] at *
          omega
        · exact h.2
      subst hidx
      rcases eq_or_lt_of_le hle with heq | hlt'
      · rw [← heq, hM.head] at hst'
        cases hst'
      · rw [hM.tail _ hlt' hlt] at hst'
        cases hst'
  | @chunk i idx c o hi hc hst hm h₁ h₂ =>
    have h₃ := chunk_offset_lt hi hc
    have hidx : idx = o / pageSize := by
      simp only [pageSize] at *
      omega
    cases hc' with
    | @page idx' k' o' hM' h₁' h₂' =>
      have hle' : idx' ≤ o / pageSize := (Nat.le_div_iff_mul_le (by decide)).2 h₁'
      have hlt' : o / pageSize < idx' + 2 ^ k' := by
        rw [Nat.div_lt_iff_lt_mul (by decide), Nat.add_mul]
        exact h₂'
      subst hidx
      rcases eq_or_lt_of_le hle' with heq | hlt
      · rw [← heq, hM'.head] at hst
        cases hst
      · rw [hM'.tail _ hlt hlt'] at hst
        cases hst
    | @chunk i' idx' c' o' hi' hc' hst' hm' h₁' h₂' =>
      have h₃' := chunk_offset_lt hi' hc'
      have hidx' : idx' = o / pageSize := by
        simp only [pageSize] at *
        omega
      obtain rfl : idx = idx' := hidx.trans hidx'.symm
      obtain rfl : i = i' := by exact_mod_cast hm.symm.trans hm'
      have hcc : c = c' := by
        have hpos := gPoolSizes_pos hi
        by_contra hne
        rcases Nat.lt_or_gt_of_ne hne with hlt | hlt
        · have := Nat.mul_le_mul_right (gPoolSizes i) hlt
          rw [Nat.succ_mul] at this
          omega
        · have := Nat.mul_le_mul_right (gPoolSizes i) hlt
          rw [Nat.succ_mul] at this
          omega
      rw [hcc]
      exact ⟨rfl, rfl⟩

end BareMetalOS.Memory
