import BareMetalOS.Memory.Blocks

/-!
# Page table entries

An entry of a page table of Sv39 holds the physical page number of the next table or of the frame
above ten bits of flags. The kernel reaches a physical page at its address plus `PAGE_OFFSET`, so
that an entry is made of a page and leads back to it (`frameAt_entryOf`).
-/

namespace BareMetalOS.Mmu

open Memory (Addr)

/-- `PAGE_OFFSET`. -/
def pageOffset : Addr := 0xffffffc000000000

/-- `PTE_V`. -/
def pteV : BitVec 64 := 1
/-- `PTE_R`. -/
def pteR : BitVec 64 := 2
/-- `PTE_W`. -/
def pteW : BitVec 64 := 4
/-- `PTE_X`. -/
def pteX : BitVec 64 := 8
/-- `PTE_U`. -/
def pteU : BitVec 64 := 16
/-- `PTE_A`. -/
def pteA : BitVec 64 := 64
/-- `PTE_D`. -/
def pteD : BitVec 64 := 128

/-- `word & flag`. -/
def HasFlag (word flag : BitVec 64) : Prop := word &&& flag ≠ 0

instance (word flag : BitVec 64) : Decidable (HasFlag word flag) :=
  inferInstanceAs (Decidable (_ ≠ _))

/-- `((pte >> 10) << 12) + PAGE_OFFSET`: the page to which an entry leads. -/
def frameAt (pte : BitVec 64) : Addr := (pte >>> 10) <<< 12 + pageOffset

/-- `((page - PAGE_OFFSET) >> 12 << 10) | flags`. -/
def entryOf (page : Addr) (flags : BitVec 64) : BitVec 64 :=
  (page - pageOffset) >>> 12 <<< 10 ||| flags

/-- `(va >> shift) & VPN_MASK`. -/
def vpn (va : Addr) (shift : ℕ) : Fin 512 := Fin.ofNat 512 (va >>> shift).toNat

/-- The address of a page. -/
def PageAligned (a : Addr) : Prop := a &&& 4095 = 0

instance (a : Addr) : Decidable (PageAligned a) := inferInstanceAs (Decidable (_ = _))

/-- The flags of an entry are below the page number. -/
def FlagBits (flags : BitVec 64) : Prop := flags >>> 10 = 0

instance (flags : BitVec 64) : Decidable (FlagBits flags) := inferInstanceAs (Decidable (_ = _))

/-! ## Pages -/

variable {a page : Addr} {w flags : BitVec 64} {i : ℕ}

theorem pageAligned_iff : PageAligned a ↔ a.toNat % 4096 = 0 := by
  rw [PageAligned, ← BitVec.toNat_inj, show (4095 : Addr) = BitVec.ofNat 64 (2 ^ 12 - 1) from rfl,
    toNat_and_mask a (by norm_num)]
  rfl

theorem PageAligned.getLsbD (h : PageAligned a) (hi : i < 12) : a.getLsbD i = false := by
  have hbit := congrArg (fun x : Addr => x.getLsbD i) h
  have hmask : (4095#64).getLsbD i = true := by
    interval_cases i <;> rfl
  simpa [hmask] using hbit

theorem PageAligned.sub_pageOffset (h : PageAligned a) : PageAligned (a - pageOffset) := by
  rw [pageAligned_iff] at h ⊢
  have hoff : pageOffset.toNat = 0xffffffc000000000 := rfl
  rw [BitVec.toNat_sub, hoff]
  omega

theorem FlagBits.getLsbD (h : FlagBits flags) (hi : 10 ≤ i) : flags.getLsbD i = false := by
  have hbit := congrArg (fun x : BitVec 64 => x.getLsbD (i - 10)) h
  simpa [show 10 + (i - 10) = i by omega] using hbit

/-! ## Entries -/

/-- An entry leads to the page it was made of. -/
theorem frameAt_entryOf (hp : PageAligned page) (hf : FlagBits flags) :
    frameAt (entryOf page flags) = page := by
  have hshift : (entryOf page flags >>> 10) <<< 12 = page - pageOffset := by
    ext i hi
    rw [← BitVec.getLsbD_eq_getElem, ← BitVec.getLsbD_eq_getElem, BitVec.getLsbD_shiftLeft]
    by_cases h12 : i < 12
    · rw [hp.sub_pageOffset.getLsbD h12]
      simp [h12]
    · rw [BitVec.getLsbD_ushiftRight, entryOf, BitVec.getLsbD_or, hf.getLsbD (by omega),
        BitVec.getLsbD_shiftLeft, BitVec.getLsbD_ushiftRight,
        show 12 + (10 + (i - 12) - 10) = i by omega]
      simp [h12, hi, show 10 + (i - 12) < 64 by omega]
  rw [frameAt, hshift, BitVec.sub_add_cancel]

/-- The flags of an entry are those it was made of. -/
theorem getLsbD_entryOf (hi : i < 10) : (entryOf page flags).getLsbD i = flags.getLsbD i := by
  rw [entryOf, BitVec.getLsbD_or, BitVec.getLsbD_shiftLeft]
  simp [hi]

/-- A flag is one bit. -/
theorem hasFlag_iff {n : ℕ} (hn : n < 64) :
    HasFlag w (BitVec.twoPow 64 n) ↔ w.getLsbD n = true := by
  rw [HasFlag, BitVec.and_twoPow]
  split
  · rename_i h
    refine iff_of_true (fun h0 => ?_) h
    have := congrArg (fun x : BitVec 64 => x.getLsbD n) h0
    simp [hn] at this
  · rename_i h
    exact iff_of_false (by simp) h

theorem hasFlag_v : HasFlag w pteV ↔ w.getLsbD 0 = true := hasFlag_iff (n := 0) (by norm_num)

theorem hasFlag_w : HasFlag w pteW ↔ w.getLsbD 2 = true := hasFlag_iff (n := 2) (by norm_num)

theorem hasFlag_x : HasFlag w pteX ↔ w.getLsbD 3 = true := hasFlag_iff (n := 3) (by norm_num)

theorem hasFlag_entryOf_v : HasFlag (entryOf page flags) pteV ↔ HasFlag flags pteV := by
  rw [hasFlag_v, hasFlag_v, getLsbD_entryOf (by norm_num)]

theorem hasFlag_entryOf_w : HasFlag (entryOf page flags) pteW ↔ HasFlag flags pteW := by
  rw [hasFlag_w, hasFlag_w, getLsbD_entryOf (by norm_num)]

/-! ## The W bit -/

/-- An entry without its W bit. -/
theorem getLsbD_and_not_w : (w &&& ~~~pteW).getLsbD i = (w.getLsbD i && !decide (i = 2)) := by
  have hw : pteW.getLsbD i = decide (i = 2) := by
    rw [show pteW = BitVec.twoPow 64 2 from rfl, BitVec.getLsbD_twoPow]
    simp [eq_comm]
  rw [BitVec.getLsbD_and, BitVec.getLsbD_not, hw]
  by_cases hi : i < 64
  · simp [hi]
  · rw [BitVec.getLsbD_of_ge w i (by omega)]
    simp

/-- An entry with its W bit set. -/
theorem getLsbD_or_w : (w ||| pteW).getLsbD i = (w.getLsbD i || decide (i = 2)) := by
  have hw : pteW.getLsbD i = decide (i = 2) := by
    rw [show pteW = BitVec.twoPow 64 2 from rfl, BitVec.getLsbD_twoPow]
    simp [eq_comm]
  rw [BitVec.getLsbD_or, hw]

theorem frameAt_congr {w' : BitVec 64} (h : ∀ i, 10 ≤ i → w'.getLsbD i = w.getLsbD i) :
    frameAt w' = frameAt w := by
  have hshift : w' >>> 10 = w >>> 10 := by
    ext i hi
    rw [← BitVec.getLsbD_eq_getElem, ← BitVec.getLsbD_eq_getElem, BitVec.getLsbD_ushiftRight,
      BitVec.getLsbD_ushiftRight, h _ (by omega)]
  rw [frameAt, frameAt, hshift]

@[simp] theorem frameAt_and_not_w : frameAt (w &&& ~~~pteW) = frameAt w :=
  frameAt_congr fun i hi => by rw [getLsbD_and_not_w, decide_eq_false (by omega)]; simp

@[simp] theorem frameAt_or_w : frameAt (w ||| pteW) = frameAt w :=
  frameAt_congr fun i hi => by rw [getLsbD_or_w, decide_eq_false (by omega)]; simp

@[simp] theorem hasFlag_v_and_not_w : HasFlag (w &&& ~~~pteW) pteV ↔ HasFlag w pteV := by
  rw [hasFlag_v, hasFlag_v, getLsbD_and_not_w]
  simp

@[simp] theorem hasFlag_v_or_w : HasFlag (w ||| pteW) pteV ↔ HasFlag w pteV := by
  rw [hasFlag_v, hasFlag_v, getLsbD_or_w]
  simp

@[simp] theorem not_hasFlag_w_and_not_w : ¬ HasFlag (w &&& ~~~pteW) pteW := by
  rw [hasFlag_w, getLsbD_and_not_w]
  simp

@[simp] theorem hasFlag_w_or_w : HasFlag (w ||| pteW) pteW := by
  rw [hasFlag_w, getLsbD_or_w]
  simp

end BareMetalOS.Mmu
