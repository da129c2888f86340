import BareMetalOS.Boot.Regions
import BareMetalOS.Memory.AllocatorRuns
import Mathlib.Order.CompletePartialOrder

/-!
# Which pages end up reserved

After `allocator_init` a page of the pool is reserved exactly when one of the entries of the table
meets it (`allocatorInit_reserved_iff`). The table has room for 32 regions, and drops later ones
without a word, the frame array last of all; so the regions in use are protected exactly when the
first 32 of them that meet the pool meet every page the others do (`protected_iff_fitsTable`).
-/

namespace BareMetalOS.Boot

open Memory

variable {s : Buddy} {idx : ℕ} {r : Region} {l rgns : List Region}

/-! ## Marking -/

/-- The region meets the page `idx` of the pool, its end computed in 64 bits. -/
def MeetsPage (s : Buddy) (idx : ℕ) (r : Region) : Prop :=
  r.start.toNat < s.mempoolStart.toNat + idx * pageSize + pageSize ∧
    s.mempoolStart.toNat + idx * pageSize < (r.start + r.size).toNat

/-- The end of the pool does not wrap. -/
def NoWrap (s : Buddy) : Prop := s.mempoolStart.toNat + s.mempoolSize.toNat < 2 ^ 64

instance (s : Buddy) (idx : ℕ) (r : Region) : Decidable (MeetsPage s idx r) :=
  inferInstanceAs (Decidable (_ ∧ _))

instance (s : Buddy) : Decidable (NoWrap s) := inferInstanceAs (Decidable (_ < _))

theorem samePool_mark (s : Buddy) (r : Region) : SamePool s (buddyMarkReservedRange s r) := by
  unfold buddyMarkReservedRange
  simp only
  split_ifs <;> exact ⟨rfl, rfl, rfl, rfl⟩

theorem toNat_poolEnd (hw : NoWrap s) :
    (s.mempoolStart + s.mempoolSize).toNat = s.mempoolStart.toNat + s.mempoolSize.toNat := by
  rw [BitVec.toNat_add]
  exact Nat.mod_eq_of_lt hw

/-- The two ends of an entry of the table. -/
theorem clip_spec (ha : AlignedPool s) (hw : NoWrap s) (hm : MeetsPool s r) :
    (clip s r).start.toNat = max r.start.toNat s.mempoolStart.toNat ∧
      ((clip s r).start + (clip s r).size).toNat =
        min (r.start + r.size).toNat (s.mempoolStart.toNat + s.mempoolSize.toNat) ∧
      (clip s r).size ≠ 0 := by
  obtain ⟨h0, h₁, h₂⟩ := hm
  have hend := toNat_poolEnd hw
  have hpos : 0 < s.mempoolSize.toNat := by
    rw [ha.size]
    exact Nat.mul_pos ha.pos (by decide)
  rw [BitVec.lt_def] at h₁ h₂
  rw [hend] at h₂
  have hne : (r.start + r.size).toNat ≠ r.start.toNat := by
    intro h
    exact h0 (by simpa using BitVec.eq_of_toNat_eq h)
  have hadd : ∀ x y : Addr, x + (y - x) = y := fun x y => by
    rw [BitVec.add_comm, BitVec.sub_add_cancel]
  have hstart : (clip s r).start.toNat = max r.start.toNat s.mempoolStart.toNat := by
    simp only [clip, BitVec.lt_def]
    split_ifs <;> omega
  have hstop : ((clip s r).start + (clip s r).size).toNat =
      min (r.start + r.size).toNat (s.mempoolStart.toNat + s.mempoolSize.toNat) := by
    simp only [clip, hadd, BitVec.lt_def, hend]
    split_ifs
    · rw [hend]
      omega
    · omega
  refine ⟨hstart, hstop, fun h => ?_⟩
  rw [h, show (clip s r).start + 0 = (clip s r).start from BitVec.add_zero _, hstart] at hstop
  generalize (r.start + r.size).toNat = stop at *
  generalize r.start.toNat = start at *
  generalize s.mempoolStart.toNat = poolStart at *
  generalize s.mempoolSize.toNat = poolSize at *
  omega

/-- Marking an entry of the table reserves the pages that its region meets. -/
theorem mark_clip_reserved (ha : AlignedPool s) (hw : NoWrap s) (hm : MeetsPool s r)
    (hidx : idx < s.memTotalPage) :
    ((buddyMarkReservedRange s (clip s r)).frameArray idx).state = .reserved ↔
      MeetsPage s idx r ∨ (s.frameArray idx).state = .reserved := by
  obtain ⟨hstart, hstop, hne⟩ := clip_spec ha hw hm
  obtain ⟨-, h₁, h₂⟩ := hm
  have hend := toNat_poolEnd hw
  have hsize := ha.size
  have htotal := ha.total
  have hpos := ha.pos
  rw [BitVec.lt_def] at h₁ h₂
  simp only [NoWrap, pageSize, buddyTotalPages] at hw hsize htotal
  generalize clip s r = e at *
  have hle₁ : ¬ e.start + e.size ≤ s.mempoolStart := by
    rw [BitVec.le_def, hstop]
    omega
  have hle₂ : ¬ s.mempoolStart + s.mempoolSize ≤ e.start := by
    rw [BitVec.le_def, hend, hstart]
    omega
  have hlt₁ : ¬ e.start < s.mempoolStart := by
    rw [BitVec.lt_def, hstart]
    omega
  have hlt₂ : ¬ s.mempoolStart + s.mempoolSize < e.start + e.size := by
    rw [BitVec.lt_def, hend, hstop]
    omega
  -- the page numbers of the two ends
  have hfirst : ((e.start - s.mempoolStart) >>> pageShift).toNat =
      (max r.start.toNat s.mempoolStart.toNat - s.mempoolStart.toNat) / 4096 := by
    rw [BitVec.toNat_ushiftRight, BitVec.toNat_sub_of_le (BitVec.not_lt.1 hlt₁), hstart,
      Nat.shiftRight_eq_div_pow]
    rfl
  have hlast : (alignUpUl (e.start + e.size - s.mempoolStart) 4096 >>> pageShift).toNat =
      (min (r.start + r.size).toNat (s.mempoolStart.toNat + s.mempoolSize.toNat) -
        s.mempoolStart.toNat + 4095) / 4096 := by
    rw [BitVec.toNat_ushiftRight, toNat_alignUpUl_page, BitVec.toNat_add,
      BitVec.toNat_sub_of_le (by rw [BitVec.le_def, hstop]; omega), hstop,
      Nat.shiftRight_eq_div_pow]
    change (((_ + 4095) % 2 ^ 64) - ((_ + 4095) % 2 ^ 64) % 4096) / 4096 = _
    omega
  unfold buddyMarkReservedRange
  rw [if_neg (not_or.2 ⟨hne, by omega⟩)]
  simp only
  rw [if_neg (not_or.2 ⟨hle₁, hle₂⟩), if_neg hlt₁, if_neg hlt₂, hfirst, hlast]
  simp only [updRange_apply, MeetsPage, pageSize]
  rw [hend] at h₂
  generalize (r.start + r.size).toNat = stop at *
  generalize r.start.toNat = start at *
  generalize s.mempoolStart.toNat = poolStart at *
  generalize s.mempoolSize.toNat = poolSize at *
  have hiff : (max start poolStart - poolStart) / 4096 ≤ idx ∧
      idx < (max start poolStart - poolStart) / 4096 +
        ((if s.memTotalPage < (min stop (poolStart + poolSize) - poolStart + 4095) / 4096
          then s.memTotalPage else (min stop (poolStart + poolSize) - poolStart + 4095) / 4096) -
          (max start poolStart - poolStart) / 4096) ↔
      start < poolStart + idx * 4096 + 4096 ∧ poolStart + idx * 4096 < stop := by
    split_ifs <;> omega
  by_cases hin : start < poolStart + idx * 4096 + 4096 ∧ poolStart + idx * 4096 < stop
  · rw [if_pos (hiff.2 hin)]
    exact iff_of_true rfl (.inl hin)
  · rw [if_neg (mt hiff.1 hin)]
    exact (or_iff_right hin).symm

/-- In a pool that wraps nothing is marked. -/
theorem mark_clip_of_wrap (ha : AlignedPool s) (hw : ¬ NoWrap s) (r : Region) :
    buddyMarkReservedRange s (clip s r) = s := by
  have hend : (s.mempoolStart + s.mempoolSize).toNat < s.mempoolStart.toNat := by
    have h₁ := ha.size
    have h₂ := ha.total
    simp only [NoWrap, pageSize, buddyTotalPages] at *
    rw [BitVec.toNat_add]
    omega
  have hstart : s.mempoolStart.toNat ≤ (clip s r).start.toNat := by
    simp only [clip, BitVec.lt_def]
    split_ifs <;> omega
  unfold buddyMarkReservedRange
  simp only
  split_ifs with h₁ h₂
  · rfl
  · rfl
  all_goals
    refine absurd (Or.inr ?_) h₂
    rw [BitVec.le_def]
    omega

theorem clip_congr {s' : Buddy} (h : SamePool s s') (r : Region) : clip s' r = clip s r := by
  simp only [clip, h.start, h.size]

/-- The pages that marking the table reserves. -/
theorem foldl_mark_reserved (ha : AlignedPool s) {t : Buddy} (ht : SamePool s t)
    (hl : ∀ r ∈ l, MeetsPool s r) (hidx : idx < s.memTotalPage) :
    (((l.map (clip s)).foldl buddyMarkReservedRange t).frameArray idx).state = .reserved ↔
      (NoWrap s ∧ ∃ r ∈ l, MeetsPage s idx r) ∨ (t.frameArray idx).state = .reserved := by
  induction l generalizing t with
  | nil => simp
  | cons r l ih =>
    have hr := hl r List.mem_cons_self
    have hmark := samePool_mark t (clip s r)
    rw [List.map_cons, List.foldl_cons,
      ih (ht.trans hmark) fun r' hr' => hl r' (List.mem_cons_of_mem _ hr')]
    have hstep : ((buddyMarkReservedRange t (clip s r)).frameArray idx).state = .reserved ↔
        (NoWrap s ∧ MeetsPage s idx r) ∨ (t.frameArray idx).state = .reserved := by
      have hat := ht.alignedPool ha
      have hwt : NoWrap t ↔ NoWrap s := by simp only [NoWrap, ht.start, ht.size]
      have hmt : MeetsPool t r := by simpa only [MeetsPool, ht.start, ht.size] using hr
      have hpt : MeetsPage t idx r ↔ MeetsPage s idx r := by simp only [MeetsPage, ht.start]
      rw [← clip_congr ht]
      by_cases hw : NoWrap s
      · rw [mark_clip_reserved hat (hwt.2 hw) hmt (by rw [ht.total]; exact hidx), hpt]
        simp [hw]
      · rw [mark_clip_of_wrap hat (mt hwt.1 hw)]
        simp [hw]
    rw [hstep, List.exists_mem_cons_iff, and_or_left, or_left_comm, or_assoc]

/-! ## The search for the frame array -/

/-- In a pool that wraps the search ends at once. -/
theorem bumpLoop_of_wrap {n : ℕ} {place : Addr} (ha : AlignedPool s) (hw : ¬ NoWrap s)
    (hl : ∀ r ∈ l, MeetsPool s r)
    (h : bumpLoop s (l.map (clip s)) (n + 1) s.mempoolStart = some (some place)) :
    place = s.mempoolStart := by
  have hend : (s.mempoolStart + s.mempoolSize).toNat < s.mempoolStart.toNat := by
    have h₁ := ha.size
    have h₂ := ha.total
    simp only [NoWrap, pageSize, buddyTotalPages] at *
    rw [BitVec.toNat_add]
    omega
  have halign : alignUpUl s.mempoolStart 4096 = s.mempoolStart := by
    have h₁ := ha.start
    refine BitVec.eq_of_toNat_eq ?_
    rw [toNat_alignUpUl_page, BitVec.toNat_add]
    simp only [pageSize] at h₁
    change (_ + 4095) % 2 ^ 64 - (_ + 4095) % 2 ^ 64 % 4096 = _
    omega
  have hstop : ∀ r, MeetsPool s r →
      (clip s r).start + (clip s r).size = s.mempoolStart + s.mempoolSize := by
    intro r hr
    have hlt := hr.2.1
    rw [BitVec.lt_def] at hlt
    simp only [clip]
    rw [BitVec.add_comm, BitVec.sub_add_cancel, if_pos]
    rw [BitVec.lt_def]
    omega
  have hfind : (l.map (clip s)).find? (fun r => s.mempoolStart < r.start + r.size ∧
      r.start < s.mempoolStart + frameArraySize s) = none := by
    rw [List.find?_eq_none]
    intro e he
    obtain ⟨r, hr, rfl⟩ := List.mem_map.1 he
    rw [hstop r (hl r hr), decide_eq_true_eq, BitVec.lt_def]
    omega
  rw [bumpLoop] at h
  simp only [halign, hfind] at h
  split_ifs at h
  · cases h
  · simpa [eq_comm] using h

/-! ## The regions in use -/

/-- The regions that no allocation may overlap: the kernel image, the device tree, the initramfs,
every region that the device tree reports for any index, and the frame array. -/
inductive InUse (image : Image) (fdt : Option Blob) (frameArray : Addr) (s : Buddy) :
    Region → Prop
  | kernel : InUse image fdt frameArray s ⟨image.start, image.stop - image.start⟩
  | dtb {b : Blob} {size : Addr} (hb : fdt = some b) (h : fdtTotalsize b = some size) :
      InUse image fdt frameArray s ⟨b.base, size⟩
  | initramfs {b : Blob} {r : Region} (hb : fdt = some b) (h : initramfs b = some (some r)) :
      InUse image fdt frameArray s r
  | reported {b : Blob} {index : ℤ} {r : Region} (hb : fdt = some b)
      (h : fdtGetReservedMemoryRegion b index = some (some r)) :
      InUse image fdt frameArray s ⟨toVirtual r.start, r.size⟩
  | frameArray : InUse image fdt frameArray s ⟨frameArray, frameArraySize s⟩

/-- The region shares an address with the page `idx` of the pool. -/
def Overlaps (s : Buddy) (idx : ℕ) (r : Region) : Prop :=
  ¬ Disjoint (bytesAt (pageToAddr s idx) pageSize) (bytesAt r.start r.size.toNat)

/-- The regions in use are protected: the pages of the pool that they overlap are reserved, and no
sequence of calls makes an allocation that overlaps one of them. -/
structure Protected (image : Image) (fdt : Option Blob) (frameArray : Addr) (a : Allocator) :
    Prop where
  reserved : ∀ r, InUse image fdt frameArray a.buddy r → ∀ idx < a.buddy.memTotalPage,
    Overlaps a.buddy idx r → (a.buddy.frameArray idx).state = .reserved
  allocate : ∀ r, InUse image fdt frameArray a.buddy r → ∀ ops,
    ∀ e ∈ (allocRun ⟨a, []⟩ ops).live,
      Disjoint (bytesAt e.1 (blockBytes e.2)) (bytesAt r.start r.size.toNat)

/-- The regions submitted to the table, in this order: the kernel image, the device tree, the
initramfs, the reported regions, and the frame array. -/
def submitted (l : List Region) (frameArray : Addr) (s : Buddy) : List Region :=
  l ++ [⟨frameArray, frameArraySize s⟩]

/-- The first 32 regions that meet the pool. -/
def tableRegions (s : Buddy) (l : List Region) : List Region :=
  (l.filter (MeetsPool s ·)).take maxReservedRegions

/-- The end of the pool does not wrap, and every page of the pool that a region in use overlaps
meets one of the first 32 submitted regions that meet the pool. -/
def FitsTable (image : Image) (fdt : Option Blob) (frameArray : Addr) (s : Buddy) : Prop :=
  NoWrap s ∧ ∀ l, regionList image fdt = some l →
    ∀ r ∈ submitted l frameArray s, ∀ idx < s.memTotalPage, Overlaps s idx r →
      ∃ r' ∈ tableRegions s (submitted l frameArray s), MeetsPage s idx r'

theorem submitted_congr {s s' : Buddy} (h : s'.memTotalPage = s.memTotalPage) (l : List Region)
    (frameArray : Addr) : submitted l frameArray s' = submitted l frameArray s := by
  simp only [submitted, frameArraySize, h]

theorem tableRegions_congr {s s' : Buddy} (h₁ : s'.mempoolStart = s.mempoolStart)
    (h₂ : s'.mempoolSize = s.mempoolSize) (l : List Region) :
    tableRegions s' l = tableRegions s l := by
  have hmeet : ∀ r, MeetsPool s' r ↔ MeetsPool s r := fun r => by
    simp only [MeetsPool, h₁, h₂]
  exact congrArg _ (List.filter_congr fun r _ => decide_eq_decide.2 (hmeet r))

theorem fitsTable_congr {s s' : Buddy} {image : Image} {fdt : Option Blob} {frameArray : Addr}
    (h₁ : s'.mempoolStart = s.mempoolStart) (h₂ : s'.mempoolSize = s.mempoolSize)
    (h₃ : s'.memTotalPage = s.memTotalPage) :
    FitsTable image fdt frameArray s' ↔ FitsTable image fdt frameArray s := by
  simp only [FitsTable, NoWrap, MeetsPage, Overlaps, pageToAddr, submitted_congr h₃,
    tableRegions_congr h₁ h₂, h₁, h₂, h₃]

variable {board : Board} {image : Image} {fdt : Option Blob} {fa : Addr} {a a₀ : Allocator}

/-- The regions in use are those submitted to the table. -/
theorem inUse_iff (hl : regionList image fdt = some l) :
    ∀ r, InUse image fdt fa s r ↔ r ∈ submitted l fa s := by
  intro r
  unfold submitted
  rcases fdt with _ | b
  · obtain rfl : l = [⟨image.start, image.stop - image.start⟩] := by
      simpa [regionList, eq_comm] using hl
    constructor
    · intro hr
      cases hr with
      | kernel => simp
      | dtb hb => cases hb
      | initramfs hb => cases hb
      | reported hb => cases hb
      | frameArray => simp
    · intro hr
      rcases List.mem_cons.1 hr with rfl | hr
      · exact .kernel
      · obtain rfl := List.mem_singleton.1 hr
        exact .frameArray
  · simp only [regionList, Option.bind_eq_bind, Option.bind_eq_some_iff] at hl
    obtain ⟨dtbSize, hd, initrd, hi, reported, hr, hl⟩ := hl
    obtain rfl : _ = l := Option.some.inj hl
    constructor
    · intro hr'
      cases hr' with
      | kernel => simp
      | dtb hb h =>
        obtain rfl := Option.some.inj hb
        obtain rfl := Option.some.inj (hd.symm.trans h)
        simp
      | initramfs hb h =>
        obtain rfl := Option.some.inj hb
        obtain rfl := Option.some.inj (hi.symm.trans h)
        simp
      | @reported _ index r hb h =>
        obtain rfl := Option.some.inj hb
        have hidx : 0 ≤ index := by
          by_contra hneg
          simp [fdtGetReservedMemoryRegion, show index < 0 by omega] at h
        rw [fdtGetReservedMemoryRegion_eq hr hidx, Option.some.injEq] at h
        have hmem := List.mem_of_getElem? h
        simp only [List.cons_append, List.append_assoc, List.mem_cons, List.mem_append,
          List.mem_map]
        exact .inr (.inr (.inr (.inl ⟨r, hmem, rfl⟩)))
      | frameArray => simp
    · intro hmem
      simp only [List.cons_append, List.append_assoc, List.mem_cons, List.mem_append,
        List.mem_map, Option.mem_toList, List.not_mem_nil, or_false] at hmem
      rcases hmem with rfl | rfl | rfl | ⟨r, hr', rfl⟩ | rfl
      · exact .kernel
      · exact .dtb rfl hd
      · exact .initramfs rfl hi
      · obtain ⟨i, hlt, hget⟩ := List.getElem_of_mem hr'
        have hrep : fdtGetReservedMemoryRegion b i = some (some r) := by
          rw [fdtGetReservedMemoryRegion_eq hr (Int.natCast_nonneg i), Int.toNat_natCast,
            List.getElem?_eq_getElem hlt, hget]
        exact .reported rfl hrep
      · exact .frameArray

/-- What a completed `allocator_init` did. -/
theorem allocatorInit_spec (h : allocatorInit board image fdt a₀ = some (fa, a)) (hfa : fa ≠ 0) :
    ∃ (pool : Region) (s : Buddy) (l : List Region), poolRegion board a₀.buddy fdt = some pool ∧
      s = buddySetRegion board a₀.buddy (toVirtual pool.start) pool.size ∧
      regionList image fdt = some l ∧
      a = poolsInit (buddyInit (((submitted l fa s).foldl (memoryReserve s) []).foldl
        buddyMarkReservedRange (clearFrames s))) ∧
      ∃ n, bumpLoop s (l.foldl (memoryReserve s) []) (n + 1) s.mempoolStart = some (some fa) := by
  simp only [allocatorInit, startupAlloc, Option.bind_eq_bind, Option.bind_eq_some_iff] at h
  obtain ⟨⟨fa', s, table⟩, ⟨pool, hpool, rgns, hrgns, place, hplace, hout⟩, h⟩ := h
  obtain ⟨l, hl, rfl⟩ := reserveAllMemory_eq hrgns
  rcases place with _ | place
  · obtain ⟨rfl, rfl, rfl⟩ : 0 = fa' ∧ _ = s ∧ _ = table := by simpa using hout
    rw [if_pos rfl] at h
    obtain ⟨rfl, -⟩ : 0 = fa ∧ _ := by simpa using h
    exact absurd rfl hfa
  · obtain ⟨rfl, rfl, rfl⟩ : place = fa' ∧ _ = s ∧ _ = table := by simpa using hout
    split_ifs at h with h0
    · obtain ⟨rfl, -⟩ : 0 = fa ∧ _ := by simpa using h
      exact absurd rfl hfa
    · obtain ⟨rfl, rfl⟩ : place = fa ∧ _ = a := by simpa using h
      refine ⟨pool, _, l, hpool, rfl, hl, ?_, _, hplace⟩
      rw [submitted, List.foldl_append]
      rfl

theorem samePool_foldl_mark (s : Buddy) (l : List Region) :
    SamePool s (l.foldl buddyMarkReservedRange s) := by
  induction l generalizing s with
  | nil => exact .refl s
  | cons r l ih => exact (samePool_mark s r).trans (ih _)

/-- **The reserved pages after `allocator_init`** are those that meet an entry of the table. -/
theorem allocatorInit_reserved_iff (h : allocatorInit board image fdt a₀ = some (fa, a))
    (hfa : fa ≠ 0) :
    ∃ l, regionList image fdt = some l ∧ AllocInv a ∧
      (¬ NoWrap a.buddy → fa = a.buddy.mempoolStart) ∧
      ∀ idx < a.buddy.memTotalPage, (a.buddy.frameArray idx).state = .reserved ↔
        NoWrap a.buddy ∧ ∃ r ∈ tableRegions a.buddy (submitted l fa a.buddy),
          MeetsPage a.buddy idx r := by
  obtain ⟨pool, s, l, -, hs, hl, rfl, n, hbump⟩ := allocatorInit_spec h hfa
  have ha : AlignedPool s := hs ▸ alignedPool_buddySetRegion _ _ _ _
  set table := (submitted l fa s).foldl (memoryReserve s) [] with htable
  set t := table.foldl buddyMarkReservedRange (clearFrames s) with ht
  have hclear : SamePool s (clearFrames s) := ⟨rfl, rfl, rfl, rfl⟩
  have hpool : SamePool s t := hclear.trans (samePool_foldl_mark _ _)
  have hinit := buddyInit_spec t
  have hstart : (buddyInit t).mempoolStart = s.mempoolStart := hinit.start.trans hpool.start
  have hsize : (buddyInit t).mempoolSize = s.mempoolSize := hinit.size.trans hpool.size
  have htotal : (buddyInit t).memTotalPage = s.memTotalPage := hinit.total.trans hpool.total
  have hfold : ∀ l : List Region, l.foldl (memoryReserve s) [] =
      (tableRegions s l).map (clip s) := fun l => foldl_memoryReserve s l [] (Nat.zero_le _)
  have hmeets : ∀ (l : List Region), ∀ r ∈ tableRegions s l, MeetsPool s r := fun l r hr => by
    simpa using (List.mem_filter.1 (List.mem_of_mem_take hr)).2
  refine ⟨l, hl, allocInv_poolsInit (hpool.alignedPool ha), fun hw => ?_, fun idx hidx => ?_⟩
  · have hw' : ¬ NoWrap s := by
      simpa only [NoWrap, poolsInit, hstart, hsize] using hw
    rw [hfold] at hbump
    exact (bumpLoop_of_wrap ha hw' (hmeets l) hbump).trans hstart.symm
  · change ((buddyInit t).frameArray idx).state = .reserved ↔ _
    change idx < (buddyInit t).memTotalPage at hidx
    rw [htotal] at hidx
    have hclean : ((clearFrames s).frameArray idx).state ≠ .reserved := by
      simp [clearFrames, updRange_apply, hidx, zeroFrame]
    have hmarked : (t.frameArray idx).state = .reserved ↔
        NoWrap s ∧ ∃ r ∈ tableRegions s (submitted l fa s), MeetsPage s idx r := by
      rw [ht, htable, hfold, foldl_mark_reserved ha hclear (hmeets _) hidx, or_iff_left hclean]
    rw [hinit.reserved, hmarked]
    simp only [poolsInit, submitted_congr htotal, tableRegions_congr hstart hsize, NoWrap,
      MeetsPage, hstart, hsize]

/-- The pool of a completed `allocator_init`. -/
theorem allocatorInit_pool (h : allocatorInit board image fdt a₀ = some (fa, a)) (hfa : fa ≠ 0) :
    ∃ (pool : Region) (s : Buddy), poolRegion board a₀.buddy fdt = some pool ∧
      s = buddySetRegion board a₀.buddy (toVirtual pool.start) pool.size ∧
      a.buddy.mempoolStart = s.mempoolStart ∧ a.buddy.mempoolSize = s.mempoolSize ∧
      a.buddy.memTotalPage = s.memTotalPage := by
  obtain ⟨pool, s, l, hpool, hs, -, rfl, -⟩ := allocatorInit_spec h hfa
  have hinit := buddyInit_spec (((submitted l fa s).foldl (memoryReserve s) []).foldl
    buddyMarkReservedRange (clearFrames s))
  have hsame := samePool_foldl_mark (clearFrames s) ((submitted l fa s).foldl (memoryReserve s) [])
  exact ⟨pool, s, hpool, hs, hinit.start.trans hsame.start, hinit.size.trans hsame.size,
    hinit.total.trans hsame.total⟩

theorem frameArraySize_pos (ha : AlignedPool s) : 0 < (frameArraySize s).toNat := by
  have h₁ := ha.total
  have h₂ := ha.pos
  simp only [buddyTotalPages] at h₁
  rw [frameArraySize, BitVec.toNat_ofNat, sizeofFrame, Nat.mod_eq_of_lt (by omega)]
  omega

/-- A live allocation meets no region all of whose pages in the pool are reserved. -/
theorem disjoint_of_reserved (hinv : AllocInv a)
    (hr : ∀ idx < a.buddy.memTotalPage, Overlaps a.buddy idx r →
      (a.buddy.frameArray idx).state = .reserved) (ops : List AllocOp) :
    ∀ e ∈ (allocRun ⟨a, []⟩ ops).live,
      Disjoint (bytesAt e.1 (blockBytes e.2)) (bytesAt r.start r.size.toNat) := by
  have hstart : HistoryInv ⟨a, []⟩ :=
    ⟨hinv, fun _ he => absurd he List.not_mem_nil, List.nodup_nil⟩
  obtain ⟨hh, hpool, hres⟩ := hstart.run ops
  intro e he
  rw [Set.disjoint_left]
  intro x hx hx'
  -- the page of a common address is reserved
  have hlive := hh.live e he
  obtain ⟨o, ho, rfl⟩ := hlive.subset_pool hh.inv hx
  rw [hh.inv.pool.size, hpool.total] at ho
  have hidx : o / pageSize < a.buddy.memTotalPage := (Nat.div_lt_iff_lt_mul (by decide)).2 ho
  have hpage : (allocRun ⟨a, []⟩ ops).alloc.buddy.mempoolStart + BitVec.ofNat 64 o ∈
      bytesAt (pageToAddr a.buddy (o / pageSize)) pageSize := by
    rw [hpool.start, pageToAddr, mem_bytesAt_add]
    refine ⟨o, ?_, ?_, rfl⟩
    · exact Nat.div_mul_le_self o pageSize
    · simp only [pageSize]
      omega
  have hover : Overlaps a.buddy (o / pageSize) r := Set.not_disjoint_iff.2 ⟨_, hpage, hx'⟩
  have hstate := (hres _).2 (hr _ hidx hover)
  have hdis := hlive.disjoint_reserved hh.inv (by rw [hpool.total]; exact hidx) hstate
  rw [hpool.pageToAddr_eq] at hdis
  exact Set.disjoint_left.1 hdis hx hpage

/-- The exact condition for the protection of the regions in use. -/
theorem protected_iff (h : allocatorInit board image fdt a₀ = some (fa, a)) (hfa : fa ≠ 0) :
    Protected image fdt fa a ↔ FitsTable image fdt fa a.buddy := by
  obtain ⟨l, hl, hinv, hwrap, hres⟩ := allocatorInit_reserved_iff h hfa
  have huse : ∀ r, InUse image fdt fa a.buddy r ↔ r ∈ submitted l fa a.buddy := inUse_iff hl
  constructor
  · intro hp
    have hw : NoWrap a.buddy := by
      by_contra hw
      -- the frame array lies on the first page, which is not reserved
      have hover : Overlaps a.buddy 0 ⟨fa, frameArraySize a.buddy⟩ := by
        refine Set.not_disjoint_iff.2 ⟨a.buddy.mempoolStart, ⟨0, by decide, ?_⟩, ⟨0, ?_, ?_⟩⟩
        · simp [pageToAddr]
        · exact frameArraySize_pos hinv.pool
        · simp [hwrap hw]
      have hst := hp.reserved _ .frameArray 0 hinv.pool.pos hover
      exact hw ((hres 0 hinv.pool.pos).1 hst).1
    refine ⟨hw, fun l' hl' r hr idx hidx ho => ?_⟩
    obtain rfl := Option.some.inj (hl.symm.trans hl')
    exact ((hres idx hidx).1 (hp.reserved r ((huse r).2 hr) idx hidx ho)).2
  · rintro ⟨hw, hfit⟩
    have hreserved : ∀ r, InUse image fdt fa a.buddy r → ∀ idx < a.buddy.memTotalPage,
        Overlaps a.buddy idx r → (a.buddy.frameArray idx).state = .reserved := by
      intro r hr idx hidx ho
      exact (hres idx hidx).2 ⟨hw, hfit l hl r ((huse r).1 hr) idx hidx ho⟩
    exact ⟨hreserved, fun r hr ops => disjoint_of_reserved hinv (hreserved r hr) ops⟩

/-- **The regions in use are protected exactly when they fit the table**, for every device tree and
kernel image for which `allocator_init` completes. -/
theorem allocatorInit_protected_iff (board : Board) (image : Image) (fdt : Option Blob)
    (a₀ : Allocator) (fa : Addr) (a : Allocator)
    (h : allocatorInit board image fdt a₀ = some (fa, a)) (hfa : fa ≠ 0) :
    Protected image fdt fa a ↔ FitsTable image fdt fa a.buddy :=
  protected_iff h hfa

/-- A region that does not wrap meets the pages that it overlaps. -/
theorem meets_of_overlaps (ha : AlignedPool s) (hw : NoWrap s)
    (hend : r.start.toNat + r.size.toNat < 2 ^ 64) (hidx : idx < s.memTotalPage)
    (ho : Overlaps s idx r) : MeetsPage s idx r ∧ MeetsPool s r := by
  have hsize := ha.size
  have hpoolEnd := toNat_poolEnd hw
  obtain ⟨x, hx, hx'⟩ := Set.not_disjoint_iff.1 ho
  obtain ⟨i, hi, rfl⟩ := hx
  obtain ⟨j, hj, hij⟩ := hx'
  have hwn : s.mempoolStart.toNat + s.memTotalPage * pageSize < 2 ^ 64 := hsize ▸ hw
  have hpage := toNat_pageToAddr hwn hidx
  have hnat := congrArg BitVec.toNat hij
  rw [BitVec.toNat_add, BitVec.toNat_add, BitVec.toNat_ofNat, BitVec.toNat_ofNat, hpage] at hnat
  have hstop : (r.start + r.size).toNat = r.start.toNat + r.size.toNat := by
    rw [BitVec.toNat_add, Nat.mod_eq_of_lt hend]
  simp only [pageSize] at hi hsize hwn hnat
  refine ⟨?_, ?_, ?_, ?_⟩
  · simp only [MeetsPage, hstop, pageSize]
    omega
  · rintro h0
    rw [h0] at hj
    exact absurd hj (by simp)
  · rw [BitVec.lt_def, hstop]
    omega
  · rw [BitVec.lt_def, hpoolEnd]
    omega

/-- At most 32 regions that meet the pool, none of which wraps, fit the table. -/
theorem fitsTable_of_room (ha : AlignedPool s) (hw : NoWrap s) (hl : regionList image fdt = some l)
    (hend : ∀ r ∈ submitted l fa s, r.start.toNat + r.size.toNat < 2 ^ 64)
    (hroom : ((submitted l fa s).filter (MeetsPool s ·)).length ≤ maxReservedRegions) :
    FitsTable image fdt fa s := by
  refine ⟨hw, fun l' hl' r hr idx hidx ho => ?_⟩
  obtain rfl := Option.some.inj (hl.symm.trans hl')
  obtain ⟨hpage, hpool⟩ := meets_of_overlaps ha hw (hend r hr) hidx ho
  refine ⟨r, ?_, hpage⟩
  rw [tableRegions, List.take_of_length_le hroom, List.mem_filter]
  exact ⟨hr, decide_eq_true hpool⟩

/-! ## Two boots -/

/-- The state before `allocator_init`. -/
def bootState (board : Board) : Allocator where
  buddy :=
    { mempoolStart := board.buddyDefaultPoolStart
      mempoolSize := buddyDefaultPoolSize
      memTotalPage := 4096
      frameArray := fun _ => zeroFrame
      freeArea := fun _ => []
      ready := false }
  gPools _ := ⟨0, []⟩
  ready := false

/-- A kernel image at its load address on QEMU. -/
def qemuImage : Image := ⟨0xffffffc080200000, 0xffffffc080280000⟩

/-- Without a device tree the regions in use are protected. -/
theorem allocatorInit_protected_qemu :
    ∃ a, allocatorInit .qemu qemuImage none (bootState .qemu) = some (0xffffffc081000000, a) ∧
      Protected qemuImage none 0xffffffc081000000 a := by
  obtain ⟨a, ha⟩ : ∃ a, allocatorInit .qemu qemuImage none (bootState .qemu) =
      some (0xffffffc081000000, a) := ⟨_, rfl⟩
  refine ⟨a, ha, (allocatorInit_protected_iff _ _ _ _ _ _ ha (by decide)).2 ?_⟩
  obtain ⟨pool, s, hpool, hs, h₁, h₂, h₃⟩ := allocatorInit_pool ha (by decide)
  obtain rfl : ⟨0x81000000, 0x1000000⟩ = pool := Option.some.inj hpool
  rw [fitsTable_congr h₁ h₂ h₃, hs]
  refine fitsTable_of_room (alignedPool_buddySetRegion _ _ _ _) (by decide +kernel) rfl ?_ ?_
  · decide +kernel
  · decide +kernel

/-- A device tree whose memory is the first megabyte from `0x80000000` on, and which reserves its
first 32 pages, each by a child of its own. -/
def crowdedCell (i : ℕ) : BitVec 32 :=
  if i < 30 then
    [0xd00dfeed#32, 1160, 56, 1156, 40, 17, 16, 0, 4, 1100, 0, 0, 0, 0,
      -- the root, and `memory` with its `reg`
      1, 0, 1, 0x6d656d6f, 0x72790000, 3, 8, 0, 0x80000000, 0x00100000, 2,
      -- `reserved-memory`
      1, 0x72657365, 0x72766564, 0x2d6d656d, 0x6f727900].getD i 0
  else if i < 286 then
    let k := (i - 30) / 8
    [1#32, BitVec.ofNat 32 (0x41 + k) <<< 24, 3, 8, 0, BitVec.ofNat 32 (0x80000000 + 0x1000 * k),
      0x1000, 2].getD ((i - 30) % 8) 0
  else [2#32, 2, 9, 0x72656700].getD (i - 286) 0

def crowdedBlob : Blob where
  base := 0xffffffc082200000
  size := 1160
  byte off := (crowdedCell (off / 4) >>> (24 - off % 4 * 8)).setWidth 8

/-- The entries of the table after `reserve_all_memory`. -/
def crowdedTable : List Region :=
  (List.range 32).map fun k => ⟨BitVec.ofNat 64 (0xffffffc080000000 + 0x1000 * k), 0x1000⟩

def crowdedPool : Buddy := buddySetRegion .qemu (bootState .qemu).buddy 0xffffffc080000000 0x100000

theorem crowded_fdtRegions : fdtRegions crowdedBlob = some
    ((List.range 32).map fun k => ⟨BitVec.ofNat 64 (0x80000000 + 0x1000 * k), 0x1000⟩) := by
  decide +kernel

theorem crowded_regionList : regionList qemuImage (some crowdedBlob) =
    some (⟨0xffffffc080200000, 0x80000⟩ :: ⟨0xffffffc082200000, 1160⟩ :: crowdedTable) := by
  decide +kernel

theorem crowded_reserveAllMemory :
    reserveAllMemory crowdedPool qemuImage (some crowdedBlob) = some crowdedTable := by
  have hd : fdtTotalsize crowdedBlob = some 1160 := by decide +kernel
  have hi : initramfs crowdedBlob = some none := by decide +kernel
  simp only [reserveAllMemory, Option.bind_eq_bind, hd, hi, Option.bind_some]
  rw [show (0 : ℤ) = ((0 : ℕ) : ℤ) from rfl,
    reserveReported_of_regions crowded_fdtRegions (by decide) (by decide)]
  decide +kernel

/-- The frame array follows the reserved pages, and has no entry in the table. -/
theorem crowded_startupAlloc : startupAlloc .qemu qemuImage (some crowdedBlob)
    (bootState .qemu).buddy = some (0xffffffc080020000, crowdedPool, crowdedTable) := by
  have hp : poolRegion .qemu (bootState .qemu).buddy (some crowdedBlob) =
      some ⟨0x80000000, 0x100000⟩ := by decide +kernel
  have hb : bumpLoop crowdedPool crowdedTable (crowdedTable.length + 2) crowdedPool.mempoolStart =
      some (some 0xffffffc080020000) := by decide +kernel
  have ht : memoryReserve crowdedPool crowdedTable
      ⟨0xffffffc080020000, frameArraySize crowdedPool⟩ = crowdedTable := by decide +kernel
  have hs : buddySetRegion .qemu (bootState .qemu).buddy (toVirtual 0x80000000) 0x100000 =
      crowdedPool := rfl
  simp only [startupAlloc, Option.bind_eq_bind, hp, hs, crowded_reserveAllMemory, hb, ht,
    Option.bind_some]
  rfl

/-- With 32 reserved pages in the device tree the frame array is not protected. -/
theorem allocatorInit_not_protected :
    ∃ fa a, allocatorInit .qemu qemuImage (some crowdedBlob) (bootState .qemu) = some (fa, a) ∧
      fa ≠ 0 ∧ ¬ Protected qemuImage (some crowdedBlob) fa a := by
  obtain ⟨a, ha⟩ : ∃ a, allocatorInit .qemu qemuImage (some crowdedBlob) (bootState .qemu) =
      some (0xffffffc080020000, a) := by
    rw [allocatorInit, crowded_startupAlloc]
    exact ⟨_, rfl⟩
  refine ⟨_, a, ha, by decide, fun hp => ?_⟩
  obtain ⟨pool, s, hpool, hs, h₁, h₂, h₃⟩ := allocatorInit_pool ha (by decide)
  have hpool' : poolRegion .qemu (bootState .qemu).buddy (some crowdedBlob) =
      some ⟨0x80000000, 0x100000⟩ := by decide +kernel
  obtain rfl := Option.some.inj (hpool'.symm.trans hpool)
  have hs' : s = crowdedPool := hs
  rw [protected_iff ha (by decide), fitsTable_congr h₁ h₂ h₃, hs'] at hp
  -- page 32 is the first of the frame array
  have hover : Overlaps crowdedPool 32 ⟨0xffffffc080020000, frameArraySize crowdedPool⟩ :=
    Set.not_disjoint_iff.2 ⟨0xffffffc080020000, ⟨0, by decide, by decide +kernel⟩,
      ⟨0, by decide +kernel, by decide +kernel⟩⟩
  obtain ⟨r, hr, hm⟩ := hp.2 _ crowded_regionList _ (List.mem_append_right _ List.mem_cons_self) 32
    (by decide +kernel) hover
  have hnone : ∀ r ∈ tableRegions crowdedPool (submitted (⟨0xffffffc080200000, 0x80000⟩ ::
      ⟨0xffffffc082200000, 1160⟩ :: crowdedTable) 0xffffffc080020000 crowdedPool),
      ¬ MeetsPage crowdedPool 32 r := by
    decide +kernel
  exact hnone r hr hm

end BareMetalOS.Boot
