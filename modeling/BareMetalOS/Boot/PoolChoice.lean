import BareMetalOS.Boot.Reservation

/-!
# The pool and the region it is taken from

`startup_alloc` shifts the start of the reported memory to the kernel half and hands the region to
`buddy_set_region`, which rounds the start up and the size down, each for itself. The pool then may
end up to a page behind the region, and a region below one page is replaced by a default one that is
not shifted. `buddySetRegion_sound_iff` says for which regions the pool is inside the region and in
the kernel half.
-/

namespace BareMetalOS.Boot

open Memory

variable {board : Board} {s : Buddy} {start size : Addr}

/-- `[start, start + size)` contains a whole aligned page. -/
def HoldsPage (start size : Addr) : Prop :=
  ∃ p : Addr, p.toNat % pageSize = 0 ∧ start.toNat ≤ p.toNat ∧
    p.toNat + pageSize ≤ start.toNat + size.toNat

/-- The pool is made of whole aligned pages and lies inside `[start, start + size)`. -/
structure PoolInside (s : Buddy) (start size : Addr) : Prop where
  aligned : AlignedPool s
  lo : start.toNat ≤ s.mempoolStart.toNat
  hi : s.mempoolStart.toNat + s.memTotalPage * pageSize ≤ start.toNat + size.toNat

/-- What the choice of the pool is to achieve for the region that `startup_alloc` hands on. -/
structure SoundPool (s : Buddy) (start size : Addr) : Prop where
  inside : HoldsPage start size → PoolInside s start size
  kernelHalf : pageOffset ≤ s.mempoolStart

/-- The distance from an address to the next page boundary. -/
def toNextPage (a : Addr) : ℕ := (pageSize - a.toNat % pageSize) % pageSize

/-- The regions that `buddy_set_region` handles: at least one page long, in the kernel half and not
in its last page; and the bytes before the first page boundary are made up for by the bytes that
rounding the size drops, unless the region holds no whole page or is cut to the largest pool. -/
structure Handled (start size : Addr) : Prop where
  page : pageSize ≤ size.toNat
  kernelHalf : pageOffset ≤ start
  top : start.toNat ≤ 2 ^ 64 - pageSize
  fits : size.toNat < toNextPage start + pageSize ∨ toNextPage start ≤ size.toNat % pageSize ∨
    buddyMaxPoolSize.toNat + toNextPage start ≤ size.toNat

/-! ## The chosen pool -/

theorem buddySetRegion_of_small (h : size.toNat < pageSize) :
    (buddySetRegion board s start size).mempoolStart = board.buddyDefaultPoolStart := by
  unfold buddySetRegion
  by_cases h0 : size = 0
  · rw [if_pos h0]
    rfl
  · have hdown : alignDownUl size 4096 = 0 := by
      apply BitVec.eq_of_toNat_eq
      rw [toNat_alignDownUl_page, Nat.mod_eq_of_lt (show size.toNat < 4096 from h), Nat.sub_self]
      rfl
    rw [if_neg h0, hdown]
    rfl

theorem buddySetRegion_of_page (h : pageSize ≤ size.toNat) :
    (buddySetRegion board s start size).mempoolStart = alignUpUl start 4096 ∧
      (buddySetRegion board s start size).mempoolSize.toNat =
        min (size.toNat - size.toNat % pageSize) buddyMaxPoolSize.toNat := by
  have hdown := toNat_alignDownUl_page size
  have hmax : buddyMaxPoolSize.toNat = 2 ^ 31 := rfl
  unfold pageSize at *
  have h0 : size ≠ 0 := by
    rintro rfl
    exact absurd h (by decide)
  unfold buddySetRegion
  rw [if_neg h0]
  simp only
  by_cases hlt : buddyMaxPoolSize < alignDownUl size 4096
  · rw [if_pos hlt, if_neg (by decide)]
    rw [BitVec.lt_def, hdown] at hlt
    exact ⟨rfl, by simp only [setPool]; omega⟩
  · have hnl : ¬ alignDownUl size 4096 < 4096 := by
      rw [BitVec.lt_def, hdown]
      change ¬ _ < 4096
      omega
    rw [if_neg hlt, if_neg hnl]
    rw [BitVec.lt_def, hdown] at hlt
    exact ⟨rfl, by simp only [setPool, hdown]; omega⟩

theorem toNat_alignUpUl_of_top (h : start.toNat ≤ 2 ^ 64 - pageSize) :
    (alignUpUl start 4096).toNat = start.toNat + toNextPage start := by
  rw [toNat_alignUpUl_page, BitVec.toNat_add]
  change (start.toNat + 4095) % 2 ^ 64 - (start.toNat + 4095) % 2 ^ 64 % 4096 = _
  unfold toNextPage pageSize at *
  omega

theorem alignUpUl_of_not_top (h : ¬ start.toNat ≤ 2 ^ 64 - pageSize) :
    alignUpUl start 4096 = 0 := by
  apply BitVec.eq_of_toNat_eq
  rw [toNat_alignUpUl_page, BitVec.toNat_add]
  change (start.toNat + 4095) % 2 ^ 64 - (start.toNat + 4095) % 2 ^ 64 % 4096 = 0
  have := start.isLt
  unfold pageSize at *
  omega

theorem holdsPage_iff (h : start.toNat ≤ 2 ^ 64 - pageSize) :
    HoldsPage start size ↔ toNextPage start + pageSize ≤ size.toNat := by
  constructor
  · rintro ⟨p, hp, hlo, hhi⟩
    unfold toNextPage pageSize at *
    omega
  · intro hle
    refine ⟨alignUpUl start 4096, ?_, ?_, ?_⟩ <;> rw [toNat_alignUpUl_of_top h]
    · unfold toNextPage pageSize
      omega
    · omega
    · omega

/-- The addresses that `startup_alloc` hands on are in the kernel half, or below its last `2 ^ 38`
bytes when the shift has wrapped. -/
theorem toVirtual_cases (a : Addr) :
    pageOffset ≤ toVirtual a ∨ (toVirtual a).toNat < pageOffset.toNat - 2 ^ 38 := by
  unfold toVirtual
  split_ifs with h
  · rw [BitVec.le_def, BitVec.toNat_add]
    rw [BitVec.lt_def] at h
    have : pageOffset.toNat = 2 ^ 64 - 2 ^ 38 := rfl
    omega
  · exact .inl (BitVec.not_lt.1 h)

/-- The pool is inside the region exactly when its last page is. -/
theorem poolInside_iff (hpage : pageSize ≤ size.toNat) (htop : start.toNat ≤ 2 ^ 64 - pageSize) :
    PoolInside (buddySetRegion board s start size) start size ↔
      toNextPage start ≤ size.toNat % pageSize ∨
        buddyMaxPoolSize.toNat + toNextPage start ≤ size.toNat := by
  obtain ⟨hstart, hsize⟩ := @buddySetRegion_of_page board s start _ hpage
  have hup := toNat_alignUpUl_of_top htop
  have ha := alignedPool_buddySetRegion board s start size
  have hmax : buddyMaxPoolSize.toNat = 2 ^ 31 := rfl
  constructor
  · rintro ⟨-, -, hhi⟩
    rw [← ha.size, hstart, hup, hsize] at hhi
    unfold pageSize at *
    omega
  · intro h
    refine ⟨ha, ?_, ?_⟩
    · rw [hstart, hup]
      omega
    · rw [← ha.size, hstart, hup, hsize]
      unfold pageSize at *
      omega

/-- **The regions for which the pool is sound.** -/
theorem buddySetRegion_sound_iff (board : Board) (s : Buddy) (start size : Addr) :
    SoundPool (buddySetRegion board s (toVirtual start) size) (toVirtual start) size ↔
      Handled (toVirtual start) size := by
  have hcases := toVirtual_cases start
  generalize toVirtual start = a at *
  have hoff : pageOffset.toNat = 2 ^ 64 - 2 ^ 38 := rfl
  constructor
  · rintro ⟨hinside, hhalf⟩
    have hpage : pageSize ≤ size.toNat := by
      by_contra hlt
      rw [buddySetRegion_of_small (Nat.lt_of_not_le hlt)] at hhalf
      exact absurd hhalf (by cases board <;> decide)
    rw [(buddySetRegion_of_page hpage).1] at hhalf
    have htop : a.toNat ≤ 2 ^ 64 - pageSize := by
      by_contra hlt
      rw [alignUpUl_of_not_top hlt] at hhalf
      exact absurd hhalf (by decide)
    refine ⟨hpage, ?_, htop, ?_⟩
    · rw [BitVec.le_def, toNat_alignUpUl_of_top htop] at hhalf
      rw [BitVec.le_def] at hcases ⊢
      unfold toNextPage pageSize at *
      omega
    · rw [holdsPage_iff htop, poolInside_iff hpage htop] at hinside
      rcases Nat.lt_or_ge size.toNat (toNextPage a + pageSize) with hlt | hge
      · exact .inl hlt
      · exact .inr (hinside hge)
  · rintro ⟨hpage, hhalf, htop, hfits⟩
    refine ⟨?_, ?_⟩
    · rw [holdsPage_iff htop, poolInside_iff hpage htop]
      intro hge
      exact hfits.resolve_left (by omega)
    · rw [(buddySetRegion_of_page hpage).1, BitVec.le_def, toNat_alignUpUl_of_top htop]
      rw [BitVec.le_def] at hhalf
      omega

/-- Two pages of memory that start in the middle of a page: the pool ends half a page behind
them. -/
theorem buddySetRegion_not_sound :
    ¬ SoundPool (buddySetRegion .qemu (bootState .qemu).buddy (toVirtual 0x80000800) 0x2000)
      (toVirtual 0x80000800) 0x2000 := by
  intro h
  have hin := h.inside ⟨0xffffffc080001000, by decide, by decide, by decide⟩
  exact absurd hin.hi (by decide)

end BareMetalOS.Boot
