import BareMetalOS.Foundations.Words
import BareMetalOS.Memory.Buddy

/-!
# The memory pool

The alignment functions of `lib/align.c` and the choice of the pool by `buddy_set_region`. What the
allocators rely on is `AlignedPool`: the pool starts at a page boundary and has whole pages, at
most `2 ^ 19` of them. `alignedPool_buddySetRegion` says that `buddy_set_region` establishes it for
every region it is given.
-/

namespace BareMetalOS.Memory

/-- The board the kernel is built for (`ORANGE_PI`, or QEMU's `virt` by default). -/
inductive Board
  | qemu
  | orangePi
  deriving DecidableEq, Repr

/-- `BUDDY_DEFAULT_POOL_START`. -/
def Board.buddyDefaultPoolStart : Board → Addr
  | .qemu => 0x81000000
  | .orangePi => 0x10000000

/-- `BUDDY_DEFAULT_POOL_SIZE`. -/
def buddyDefaultPoolSize : Addr := 0x1000000

/-- `BUDDY_MAX_POOL_SIZE`. -/
def buddyMaxPoolSize : Addr := 0x80000000

/-- `BUDDY_TOTAL_PAGES`. -/
def buddyTotalPages : ℕ := 524288

/-! ## Alignment -/

/-- `align_down_ul`. -/
def alignDownUl (value alignment : Addr) : Addr := value &&& ~~~(alignment - 1)

/-- `align_up_ul`. -/
def alignUpUl (value alignment : Addr) : Addr := (value + alignment - 1) &&& ~~~(alignment - 1)

theorem toNat_alignDownUl_page (x : Addr) : (alignDownUl x 4096).toNat = x.toNat - x.toNat % 4096 :=
  toNat_and_not_mask (k := 12) x (by omega)

theorem toNat_alignUpUl_page (x : Addr) :
    (alignUpUl x 4096).toNat = (x + 4095).toNat - (x + 4095).toNat % 4096 := by
  have h : alignUpUl x 4096 = (x + 4095) &&& ~~~BitVec.ofNat 64 (2 ^ 12 - 1) := by
    rw [alignUpUl, show x + 4096 - 1 = x + 4095 by bv_omega]
    rfl
  rw [h]
  exact toNat_and_not_mask (k := 12) _ (by omega)

theorem toNat_and_page (x : Addr) : (x &&& 4095#64).toNat = x.toNat % 4096 :=
  toNat_and_mask (k := 12) x (by omega)

theorem and_page_eq_zero_iff (x : Addr) : x &&& 4095#64 = 0 ↔ x.toNat % 4096 = 0 := by
  rw [← toNat_and_page, BitVec.toNat_eq]
  rfl

/-! ## The choice of the pool -/

/-- The end of `buddy_set_region`: the number of pages of the pool. -/
def setPool (s : Buddy) (start size : Addr) : Buddy :=
  let total := (size >>> pageShift).toNat
  { s with
    mempoolStart := start
    mempoolSize := size
    memTotalPage := if buddyTotalPages < total then buddyTotalPages else total }

/-- `buddy_set_region`. -/
def buddySetRegion (board : Board) (s : Buddy) (start size : Addr) : Buddy :=
  let r : Addr × Addr :=
    if size = 0 then (board.buddyDefaultPoolStart, buddyDefaultPoolSize)
    else
      let poolSize := alignDownUl size 4096
      (alignUpUl start 4096, if buddyMaxPoolSize < poolSize then buddyMaxPoolSize else poolSize)
  let r := if r.2 < 4096 then (board.buddyDefaultPoolStart, buddyDefaultPoolSize) else r
  setPool s r.1 r.2

/-- The pool starts at a page boundary and is made of whole pages, at most `2 ^ 19` of them. -/
structure AlignedPool (s : Buddy) : Prop where
  start : s.mempoolStart.toNat % pageSize = 0
  size : s.mempoolSize.toNat = s.memTotalPage * pageSize
  total : s.memTotalPage ≤ buddyTotalPages
  pos : 0 < s.memTotalPage

theorem Board.buddyDefaultPoolStart_aligned (board : Board) :
    board.buddyDefaultPoolStart.toNat % 4096 = 0 := by
  cases board <;> rfl

theorem alignedPool_setPool (s : Buddy) {start size : Addr} (h₁ : start.toNat % 4096 = 0)
    (h₂ : size.toNat % 4096 = 0) (h₃ : 4096 ≤ size.toNat) (h₄ : size.toNat ≤ 2 ^ 31) :
    AlignedPool (setPool s start size) := by
  have hshift : (size >>> pageShift).toNat = size.toNat / 4096 := by
    rw [BitVec.toNat_ushiftRight, Nat.shiftRight_eq_div_pow]
    rfl
  have htotal : (setPool s start size).memTotalPage = size.toNat / 4096 := by
    simp only [setPool, hshift]
    rw [if_neg (by simp only [buddyTotalPages]; omega)]
  refine ⟨h₁, ?_, ?_, ?_⟩ <;> rw [htotal]
  · simp only [setPool, pageSize]
    omega
  · simp only [buddyTotalPages]
    omega
  · omega

/-- **`buddy_set_region` chooses an aligned pool**, whatever region it is given. -/
theorem alignedPool_buddySetRegion (board : Board) (s : Buddy) (start size : Addr) :
    AlignedPool (buddySetRegion board s start size) := by
  have hdef : AlignedPool (setPool s board.buddyDefaultPoolStart buddyDefaultPoolSize) :=
    alignedPool_setPool s board.buddyDefaultPoolStart_aligned rfl (by decide) (by decide)
  have hup := toNat_alignUpUl_page start
  have hdown := toNat_alignDownUl_page size
  unfold buddySetRegion
  by_cases h0 : size = 0
  · rw [if_pos h0]
    exact hdef
  rw [if_neg h0]
  simp only
  by_cases hmax : buddyMaxPoolSize < alignDownUl size 4096
  · rw [if_pos hmax, if_neg (by decide)]
    simp only
    exact alignedPool_setPool s (by omega) rfl (by decide) (by decide)
  · rw [if_neg hmax]
    by_cases hsmall : alignDownUl size 4096 < 4096
    · rw [if_pos hsmall]
      exact hdef
    · rw [if_neg hsmall]
      simp only
      rw [BitVec.lt_def] at hmax hsmall
      refine alignedPool_setPool s (by omega) (by omega) ?_ ?_
      · simpa using hsmall
      · simpa [buddyMaxPoolSize] using hmax

end BareMetalOS.Memory
