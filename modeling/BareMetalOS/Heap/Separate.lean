import BareMetalOS.Heap.Allocator

/-!
# Data that does not overlap

`Part` names the four parts of memory that hold data of the allocator: `frame_array`, `free_area`,
`g_pools` and the pages that may become chunk pages. If they are disjoint (`Separate`), the fields
in use (`Spot`) are variables of their own: reading one after writing another gives what was there
before (`get_set`).

`P` are the pages that may become chunk pages. They are the ones that are not `RESERVED`, so that
`Separate` asks for the pages of `frame_array` to be `RESERVED`.
-/

namespace BareMetalOS.Heap

open Memory

/-- The parts of memory with data of the allocator. -/
inductive Part
  | frames
  | freeArea
  | gPools
  | pages
  deriving DecidableEq, Repr

/-- Where a part begins. -/
def Globals.base (g : Globals) : Part → Addr
  | .frames => g.frameArray
  | .freeArea => g.freeArea
  | .gPools => g.gPools
  | .pages => g.mempoolStart

/-- The bytes of a part. -/
def Globals.bytes (g : Globals) (P : ℕ → Prop) : Part → Set Addr
  | .frames => bytesAt g.frameArray (g.memTotalPage * sizeofFrame)
  | .freeArea => bytesAt g.freeArea ((buddyMaxOrder + 1) * sizeofListHead)
  | .gPools => bytesAt g.gPools (chunkPoolCount * sizeofChunkPool)
  | .pages => {a | ∃ idx < g.memTotalPage, P idx ∧ a ∈ bytesAt (g.pageToAddr idx) pageSize}

/-- The parts do not overlap. -/
structure Separate (g : Globals) (P : ℕ → Prop) : Prop where
  total_le : g.memTotalPage ≤ buddyTotalPages
  disjoint : ∀ r r', r ≠ r' → Disjoint (g.bytes P r) (g.bytes P r')

/-- The fields in use, with their part and the offset in it. A page holds 256 places for nodes of
chunks. -/
inductive Spot (g : Globals) (P : ℕ → Prop) : Field → Part → ℕ → Prop
  | order {idx : ℕ} (h : idx < g.memTotalPage) : Spot g P (.order idx) .frames (idx * 40)
  | state {idx : ℕ} (h : idx < g.memTotalPage) : Spot g P (.state idx) .frames (idx * 40 + 4)
  | nodeNext {idx : ℕ} (h : idx < g.memTotalPage) :
      Spot g P (.next (g.nodeAt idx)) .frames (idx * 40 + 8)
  | nodePrev {idx : ℕ} (h : idx < g.memTotalPage) :
      Spot g P (.prev (g.nodeAt idx)) .frames (idx * 40 + 16)
  | metaPoolIdx {idx : ℕ} (h : idx < g.memTotalPage) :
      Spot g P (.metaPoolIdx idx) .frames (idx * 40 + 24)
  | refCount {idx : ℕ} (h : idx < g.memTotalPage) :
      Spot g P (.refCount idx) .frames (idx * 40 + 28)
  | cowRefCount {idx : ℕ} (h : idx < g.memTotalPage) :
      Spot g P (.cowRefCount idx) .frames (idx * 40 + 32)
  | areaNext {k : ℕ} (h : k ≤ buddyMaxOrder) :
      Spot g P (.next (g.freeAreaAt k)) .freeArea (k * 16)
  | areaPrev {k : ℕ} (h : k ≤ buddyMaxOrder) :
      Spot g P (.prev (g.freeAreaAt k)) .freeArea (k * 16 + 8)
  | chunkSize {i : ℕ} (h : i < chunkPoolCount) : Spot g P (.chunkSize i) .gPools (i * 24)
  | listNext {i : ℕ} (h : i < chunkPoolCount) :
      Spot g P (.next (g.freeListAt i)) .gPools (i * 24 + 8)
  | listPrev {i : ℕ} (h : i < chunkPoolCount) :
      Spot g P (.prev (g.freeListAt i)) .gPools (i * 24 + 16)
  | chunkNext {idx c : ℕ} (h : idx < g.memTotalPage) (hP : P idx) (hc : c < 256) :
      Spot g P (.next (g.pageToAddr idx + BitVec.ofNat 64 (c * 16))) .pages (idx * 4096 + c * 16)
  | chunkPrev {idx c : ℕ} (h : idx < g.memTotalPage) (hP : P idx) (hc : c < 256) :
      Spot g P (.prev (g.pageToAddr idx + BitVec.ofNat 64 (c * 16))) .pages
        (idx * 4096 + c * 16 + 8)

variable {g : Globals} {P : ℕ → Prop} {f f' : Field} {r r' : Part} {o o' v idx : ℕ} {m : Mem}

namespace Spot

theorem addr_eq (h : Spot g P f r o) : g.addr f = g.base r + BitVec.ofNat 64 o := by
  cases h <;>
    simp only [Globals.addr, Globals.base, Globals.frameAt, Globals.nodeAt, Globals.freeAreaAt,
      Globals.poolAt, Globals.freeListAt, Globals.pageToAddr, sizeofFrame, sizeofListHead,
      sizeofChunkPool, pageSize, BitVec.ofNat_add, BitVec.add_assoc] <;> rfl

theorem size_pos (f : Field) : 0 < f.size := by
  cases f <;> exact Nat.succ_pos _

theorem end_lt (h : Spot g P f r o) (hs : Separate g P) : o + f.size < 2 ^ 64 := by
  have := hs.total_le
  simp only [buddyTotalPages] at this
  cases h <;> simp only [Field.size, buddyMaxOrder, chunkPoolCount] at * <;> omega

/-- Two fields at overlapping places of one part are the same. -/
theorem eq_of_overlap (h : Spot g P f r o) (h' : Spot g P f' r o') (h₁ : o < o' + f'.size)
    (h₂ : o' < o + f.size) : f = f' := by
  cases h <;> cases h' <;> simp only [Field.size] at h₁ h₂ <;> first
    | omega
    | (rename_i i _ j _; obtain rfl : i = j := by omega
       rfl)
    | (rename_i i c _ _ _ j d _ _ _; obtain ⟨rfl, rfl⟩ : i = j ∧ c = d := by omega
       rfl)

theorem subset_bytes (h : Spot g P f r o) : bytesAt (g.addr f) f.size ⊆ g.bytes P r := by
  have haddr := h.addr_eq
  -- a field of a chunk lies in its page
  have hpage : ∀ {idx o n : ℕ}, idx < g.memTotalPage → P idx → o + n ≤ pageSize →
      bytesAt (g.pageToAddr idx + BitVec.ofNat 64 o) n ⊆ g.bytes P .pages :=
    fun hlt hP ho a ha => ⟨_, hlt, hP, bytesAt_subset ho ha⟩
  cases h with
  | @chunkNext idx c hlt hP hc => exact hpage hlt hP (by simp only [Field.size, pageSize]; omega)
  | @chunkPrev idx c hlt hP hc =>
    rw [haddr, Nat.add_assoc, BitVec.ofNat_add, ← BitVec.add_assoc]
    exact hpage hlt hP (by simp only [Field.size, pageSize]; omega)
  | _ =>
    rw [haddr]
    refine bytesAt_subset ?_
    simp only [Field.size, sizeofFrame, sizeofListHead, sizeofChunkPool, buddyMaxOrder,
      chunkPoolCount] at *
    omega

/-- Different fields do not overlap. -/
theorem disjoint (h : Spot g P f r o) (h' : Spot g P f' r' o') (hs : Separate g P) (hne : f ≠ f') :
    Disjoint (bytesAt (g.addr f) f.size) (bytesAt (g.addr f') f'.size) := by
  by_cases hr : r = r'
  · subst hr
    rw [h.addr_eq, h'.addr_eq]
    have h₁ := h.end_lt hs
    have h₂ := h'.end_lt hs
    refine disjoint_bytesAt h₁.le h₂.le ?_
    by_contra hcon
    exact hne (h.eq_of_overlap h' (by omega) (by omega))
  · exact (hs.disjoint r r' hr).mono h.subset_bytes h'.subset_bytes

/-- A field is at one place only. -/
theorem unique (h : Spot g P f r o) (h' : Spot g P f r' o') (hs : Separate g P) :
    r = r' ∧ o = o' := by
  have hpos := size_pos f
  have hmem : g.addr f ∈ bytesAt (g.addr f) f.size := ⟨0, hpos, (BitVec.add_zero _).symm⟩
  have hr : r = r' := by
    by_contra hr
    exact Set.disjoint_left.1 (hs.disjoint r r' hr) (h.subset_bytes hmem) (h'.subset_bytes hmem)
  subst hr
  have heq := h.addr_eq.symm.trans h'.addr_eq
  have h₁ := h.end_lt hs
  have h₂ := h'.end_lt hs
  exact ⟨rfl, (add_ofNat_inj (by omega) (by omega)).1 heq⟩

end Spot

theorem size_le (f : Field) : f.size ≤ 2 ^ 64 := by
  cases f <;> simp [Field.size]

/-- **A field is a variable of its own.** -/
theorem get_set (hs : Separate g P) (h : Spot g P f r o) (h' : Spot g P f' r' o') :
    get g (set g m f v) f' = if f' = f then v % 256 ^ f.size else get g m f' := by
  by_cases hne : f' = f
  · subst hne
    rw [if_pos rfl]
    exact ByteMemory.load_store (size_le _)
  · rw [if_neg hne]
    exact ByteMemory.load_store_of_disjoint (size_le _) (h'.disjoint h hs hne)

end BareMetalOS.Heap
