import BareMetalOS.Boot.Startup

/-!
# The regions in use

The device tree reports its reserved regions one index at a time. `fdtRegions` collects them in one
pass, and `fdtGetReservedMemoryRegion_eq` says that the report for an index is that entry of the
list. `regionList` is the list of all regions that `reserve_all_memory` hands to `memory_reserve`,
in its order; what the table holds afterwards are the first 32 of them that meet the pool, clipped
to the pool (`reserveAllMemory_eq`).
-/

namespace BareMetalOS.Boot

open Memory

variable {b : Blob} {s : Buddy} {index current : ℤ} {n ptr depth : ℕ} {l rgns : List Region}
  {r : Region} {image : Image} {fdt : Option Blob}

/-! ## The reports of the device tree -/

/-- All regions that the token loop finds from a token on. -/
def collectLoop (b : Blob) : ℕ → ℕ → ℕ → Option (List Region)
  | 0, _, _ => none
  | n + 1, ptr, depth =>
    match reservedStep b ptr depth with
    | none => none
    | some none => some []
    | some (some (ptr, depth, none)) => collectLoop b n ptr depth
    | some (some (ptr, depth, some r)) => (r :: ·) <$> collectLoop b n ptr depth

/-- The loop returns the entry of the list that it counts up to. -/
theorem reservedLoop_eq (h : collectLoop b n ptr depth = some l) (hle : current ≤ index) :
    reservedLoop b index n ptr depth current = some l[(index - current).toNat]? := by
  induction n generalizing ptr depth current l with
  | zero => simp [collectLoop] at h
  | succ n ih =>
    rw [collectLoop] at h
    rw [reservedLoop]
    rcases hs : reservedStep b ptr depth with _ | _ | ⟨ptr', depth', _ | r⟩
    · simp [hs] at h
    · obtain rfl : l = [] := by simpa [hs, eq_comm] using h
      rfl
    · simp only [hs] at h ⊢
      exact ih h hle
    · simp only [hs] at h ⊢
      obtain ⟨l', hl', rfl⟩ : ∃ l', collectLoop b n ptr' depth' = some l' ∧ r :: l' = l := by
        simpa using h
      by_cases heq : current = index
      · rw [if_pos heq, heq]
        simp
      · rw [if_neg heq, ih hl' (by omega),
          show (index - current).toNat = (index - (current + 1)).toNat + 1 by omega]
        rfl

/-- A loop that ends without a region has seen the whole list. -/
theorem exists_collectLoop (h : reservedLoop b index n ptr depth current = some none) :
    ∃ l, collectLoop b n ptr depth = some l := by
  induction n generalizing ptr depth current with
  | zero => simp [reservedLoop] at h
  | succ n ih =>
    rw [collectLoop]
    rw [reservedLoop] at h
    rcases hs : reservedStep b ptr depth with _ | _ | ⟨ptr', depth', _ | r⟩
    · simp [hs] at h
    · exact ⟨[], rfl⟩
    · simp only [hs] at h ⊢
      exact ih h
    · simp only [hs] at h ⊢
      split_ifs at h with heq
      · cases h
      · obtain ⟨l, hl⟩ := ih h
        exact ⟨r :: l, by rw [hl]; rfl⟩

/-- The regions of the children of the node at `reservedOffset`. -/
def childRegions (b : Blob) (reservedOffset : ℤ) : Option (List Region) := do
  let token ← b.cell reservedOffset.toNat
  if token ≠ fdtBeginNode then return []
  let nameLen ← strlen b (reservedOffset.toNat + 4)
  collectLoop b (b.size + 1) (alignUpPtr (reservedOffset.toNat + 4 + nameLen + 1)) 1

theorem reservedChildren_eq {off : ℤ} (h : childRegions b off = some l) (hle : current ≤ index) :
    reservedChildren b index off current = some l[(index - current).toNat]? := by
  simp only [childRegions, reservedChildren, Option.bind_eq_bind] at h ⊢
  obtain ⟨token, ht, h⟩ := Option.bind_eq_some_iff.1 h
  rw [ht, Option.bind_some]
  split_ifs at h ⊢ with hb
  · obtain rfl : l = [] := by simpa [eq_comm] using h
    rfl
  · obtain ⟨len, hlen, h⟩ := Option.bind_eq_some_iff.1 h
    rw [hlen, Option.bind_some]
    exact reservedLoop_eq h hle

theorem exists_childRegions {off : ℤ} (h : reservedChildren b index off current = some none) :
    ∃ l, childRegions b off = some l := by
  simp only [childRegions, reservedChildren, Option.bind_eq_bind, Option.bind_eq_some_iff] at h ⊢
  obtain ⟨token, ht, h⟩ := h
  rw [ht]
  split_ifs at h with hb
  · exact ⟨[], token, rfl, by rw [if_pos hb]; rfl⟩
  · obtain ⟨len, hlen, h⟩ := Option.bind_eq_some_iff.1 h
    obtain ⟨l, hl⟩ := exists_collectLoop h
    exact ⟨l, token, rfl, by rw [if_neg hb, hlen]; exact hl⟩

/-- The regions that the device tree reports, in the order of their indices. -/
def fdtRegions (b : Blob) : Option (List Region) := do
  let reservedOffset ← fdtPathOffset b (cstr "/reserved-memory")
  if reservedOffset < 0 then return []
  let reg ← fdtGetprop b reservedOffset (cstr "reg")
  let own ← parseStartAndSize b reg
  let children ← childRegions b reservedOffset
  return own.toList ++ children

/-- The report for an index is that entry of the list. -/
theorem fdtGetReservedMemoryRegion_eq (h : fdtRegions b = some l) (hi : 0 ≤ index) :
    fdtGetReservedMemoryRegion b index = some l[index.toNat]? := by
  simp only [fdtRegions, Option.bind_eq_bind, Option.bind_eq_some_iff] at h
  obtain ⟨off, hoff, h⟩ := h
  simp only [fdtGetReservedMemoryRegion, Option.bind_eq_bind, hoff, Option.bind_some]
  rw [if_neg (by omega)]
  by_cases hneg : off < 0
  · rw [if_pos hneg] at h ⊢
    obtain rfl : l = [] := by simpa [eq_comm] using h
    rfl
  · rw [if_neg hneg] at h ⊢
    obtain ⟨reg, hreg, own, hown, children, hc, hl⟩ := by
      simpa only [Option.bind_eq_some_iff] using h
    rw [hreg, Option.bind_some, hown, Option.bind_some]
    obtain rfl : own.toList ++ children = l := by simpa using hl
    rcases own with _ | r
    · exact (reservedChildren_eq hc hi).trans (by simp)
    · by_cases h0 : index = 0
      · simp [h0]
      · simp only
        rw [if_neg h0, reservedChildren_eq hc (by omega),
          show index.toNat = (index - 1).toNat + 1 by omega]
        rfl

theorem exists_fdtRegions (h : fdtGetReservedMemoryRegion b index = some none) (hi : 0 ≤ index) :
    ∃ l, fdtRegions b = some l := by
  simp only [fdtGetReservedMemoryRegion, Option.bind_eq_bind] at h
  rw [if_neg (by omega)] at h
  obtain ⟨off, hoff, h⟩ := Option.bind_eq_some_iff.1 h
  simp only [fdtRegions, Option.bind_eq_bind, hoff, Option.bind_some]
  by_cases hneg : off < 0
  · rw [if_pos hneg]
    exact ⟨[], rfl⟩
  · rw [if_neg hneg] at h ⊢
    obtain ⟨reg, hreg, own, hown, h⟩ := by simpa only [Option.bind_eq_some_iff] using h
    rw [hreg, Option.bind_some, hown, Option.bind_some]
    have hc : ∃ l, childRegions b off = some l := by
      rcases own with _ | r
      · exact exists_childRegions h
      · by_cases h0 : index = 0
        · simp [h0] at h
        · simp only at h
          rw [if_neg h0] at h
          exact exists_childRegions h
    obtain ⟨l, hl⟩ := hc
    exact ⟨own.toList ++ l, by rw [hl]; rfl⟩

/-! ## The table -/

/-- The regions that `reserve_all_memory` hands to `memory_reserve`, in its order. -/
def regionList (image : Image) (fdt : Option Blob) : Option (List Region) :=
  let kernel : Region := ⟨image.start, image.stop - image.start⟩
  match fdt with
  | none => some [kernel]
  | some b => do
    let dtbSize ← fdtTotalsize b
    let initrd ← initramfs b
    let reported ← fdtRegions b
    return kernel :: ⟨b.base, dtbSize⟩ :: initrd.toList ++
      reported.map fun r => ⟨toVirtual r.start, r.size⟩

/-- The test of `memory_reserve`: the region is not empty and meets the pool, both ends computed in
64 bits. -/
def MeetsPool (s : Buddy) (r : Region) : Prop :=
  r.size ≠ 0 ∧ s.mempoolStart < r.start + r.size ∧ r.start < s.mempoolStart + s.mempoolSize

instance (s : Buddy) (r : Region) : Decidable (MeetsPool s r) :=
  inferInstanceAs (Decidable (_ ∧ _ ∧ _))

/-- The entry that `memory_reserve` makes. -/
def clip (s : Buddy) (r : Region) : Region :=
  let reserveStart := if r.start < s.mempoolStart then s.mempoolStart else r.start
  let reserveEnd := if s.mempoolStart + s.mempoolSize < r.start + r.size
    then s.mempoolStart + s.mempoolSize else r.start + r.size
  ⟨reserveStart, reserveEnd - reserveStart⟩

theorem memoryReserve_eq (s : Buddy) (rgns : List Region) (r : Region) :
    memoryReserve s rgns r =
      if MeetsPool s r ∧ rgns.length < maxReservedRegions then rgns ++ [clip s r] else rgns := by
  unfold memoryReserve
  by_cases h : r.size = 0 ∨ maxReservedRegions ≤ rgns.length
  · rw [if_pos h, if_neg]
    rintro ⟨hm, hlt⟩
    rcases h with h | h
    · exact hm.1 h
    · omega
  · rw [if_neg h]
    push Not at h
    simp only
    by_cases h' : r.start + r.size ≤ s.mempoolStart ∨ s.mempoolStart + s.mempoolSize ≤ r.start
    · rw [if_pos h', if_neg]
      rintro ⟨⟨-, h₁, h₂⟩, -⟩
      rcases h' with h' | h'
      · exact BitVec.not_le.2 h₁ h'
      · exact BitVec.not_le.2 h₂ h'
    · rw [not_or, BitVec.not_le, BitVec.not_le] at h'
      have hin : MeetsPool s r ∧ rgns.length < maxReservedRegions := ⟨⟨h.1, h'⟩, h.2⟩
      rw [if_neg (not_or.2 ⟨BitVec.not_le.2 h'.1, BitVec.not_le.2 h'.2⟩), if_pos hin]
      rfl

/-- **The table holds the first 32 regions that meet the pool**, clipped to it. -/
theorem foldl_memoryReserve (s : Buddy) (l rgns : List Region)
    (h : rgns.length ≤ maxReservedRegions) :
    l.foldl (memoryReserve s) rgns = rgns ++
      ((l.filter (MeetsPool s ·)).take (maxReservedRegions - rgns.length)).map (clip s) := by
  induction l generalizing rgns with
  | nil => simp
  | cons r l ih =>
    rw [List.foldl_cons, memoryReserve_eq]
    by_cases hm : MeetsPool s r
    · rw [List.filter_cons_of_pos (by simpa using hm)]
      by_cases hlt : rgns.length < maxReservedRegions
      · rw [if_pos ⟨hm, hlt⟩, ih _ (by simpa using hlt)]
        obtain ⟨k, hk⟩ := Nat.exists_eq_add_of_lt hlt
        rw [hk, show rgns.length + k + 1 - rgns.length = k + 1 by omega, List.take_succ_cons,
          List.map_cons, List.append_assoc, List.length_append, List.length_singleton,
          show rgns.length + k + 1 - (rgns.length + 1) = k by omega, List.singleton_append]
      · rw [if_neg fun h => hlt h.2, ih _ h, show maxReservedRegions - rgns.length = 0 by omega]
        simp
    · rw [if_neg fun h => hm h.1, ih _ h, List.filter_cons_of_neg (by simpa using hm)]

theorem memoryReserve_empty (s : Buddy) (rgns : List Region) (r : Region) (h : r.size = 0) :
    memoryReserve s rgns r = rgns := by
  rw [memoryReserve, if_pos (.inl h)]

theorem reserveReported_eq {idx : ℤ} {rgns' : List Region} (hi : 0 ≤ idx)
    (h : reserveReported s b n idx rgns = some rgns') :
    ∃ l, fdtRegions b = some l ∧
      rgns' = ((l.drop idx.toNat).map fun r => ⟨toVirtual r.start, r.size⟩).foldl
        (memoryReserve s) rgns := by
  induction n generalizing idx rgns with
  | zero => simp [reserveReported] at h
  | succ n ih =>
    rw [reserveReported] at h
    rcases hg : fdtGetReservedMemoryRegion b idx with _ | _ | r
    · simp [hg] at h
    · obtain ⟨l, hl⟩ := exists_fdtRegions hg hi
      obtain rfl : rgns = rgns' := by simpa [hg] using h
      refine ⟨l, hl, ?_⟩
      rw [fdtGetReservedMemoryRegion_eq hl hi, Option.some.injEq, List.getElem?_eq_none_iff] at hg
      rw [List.drop_eq_nil_of_le hg]
      rfl
    · simp only [hg] at h
      obtain ⟨l, hl, heq⟩ := ih (by omega) h
      refine ⟨l, hl, ?_⟩
      rw [fdtGetReservedMemoryRegion_eq hl hi, Option.some.injEq] at hg
      obtain ⟨hlt, hget⟩ := List.getElem?_eq_some_iff.1 hg
      rw [List.drop_eq_getElem_cons hlt, hget, List.map_cons, List.foldl_cons, heq,
        show (idx + 1).toNat = idx.toNat + 1 by omega]

/-- With enough iterations the loop goes through all reported regions. -/
theorem reserveReported_of_regions (hl : fdtRegions b = some l) {idx : ℕ} (hi : idx ≤ l.length)
    (hn : l.length < idx + n) : reserveReported s b n idx rgns =
      some (((l.drop idx).map fun r => ⟨toVirtual r.start, r.size⟩).foldl
        (memoryReserve s) rgns) := by
  induction n generalizing idx rgns with
  | zero => omega
  | succ n ih =>
    rw [reserveReported, fdtGetReservedMemoryRegion_eq hl (Int.natCast_nonneg idx),
      Int.toNat_natCast]
    rcases hg : l[idx]? with _ | r
    · rw [List.drop_eq_nil_of_le (List.getElem?_eq_none_iff.1 hg)]
      rfl
    · obtain ⟨hlt, hget⟩ := List.getElem?_eq_some_iff.1 hg
      rw [List.drop_eq_getElem_cons hlt, hget]
      have hsucc : ((idx : ℤ) + 1) = ((idx + 1 : ℕ) : ℤ) := rfl
      simp only [hsucc]
      exact ih hlt (by omega)

theorem reserveAllMemory_eq (h : reserveAllMemory s image fdt = some rgns) :
    ∃ l, regionList image fdt = some l ∧ rgns = l.foldl (memoryReserve s) [] := by
  rcases fdt with _ | b
  · exact ⟨_, rfl, by simpa [reserveAllMemory, eq_comm] using h⟩
  · simp only [reserveAllMemory, Option.bind_eq_bind, Option.bind_eq_some_iff] at h
    obtain ⟨dtbSize, hd, initrd, hi, h⟩ := h
    obtain ⟨l, hl, heq⟩ := reserveReported_eq le_rfl h
    refine ⟨_, by simp only [regionList, hd, hi, hl]; rfl, ?_⟩
    rw [heq, List.foldl_append]
    congr 1
    have hdtb : (if dtbSize ≠ 0 then memoryReserve s
        (memoryReserve s [] ⟨image.start, image.stop - image.start⟩) ⟨b.base, dtbSize⟩
        else memoryReserve s [] ⟨image.start, image.stop - image.start⟩) =
        memoryReserve s (memoryReserve s [] ⟨image.start, image.stop - image.start⟩)
          ⟨b.base, dtbSize⟩ := by
      split_ifs with h0
      · rfl
      · rw [memoryReserve_empty _ _ ⟨b.base, dtbSize⟩ (not_not.1 h0)]
    rw [hdtb]
    rcases initrd with _ | r
    · rfl
    · rfl

end BareMetalOS.Boot
