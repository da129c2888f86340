import BareMetalOS.Files.Initrd
import BareMetalOS.Foundations.Words

/-!
# Archives in the `newc` format

What the bytes of an initial ramdisk stand for: a list of entries, each with its header fields, its
name and its data, and a trailer. The fields are eight hexadecimal digits in either letter case, and
`hexValue` is the number they denote. The lemmas here say what the two readers see of one entry: the
`hextoi` of `src/ramfs.c` reads every field right (`ramfs_hextoi`), the one of `lib/cpio.c` adds 32
to every lower-case digit (`cpio_hextoi`).
-/

namespace BareMetalOS.Files

open Memory Boot

/-! ## Digits -/

/-- The characters `0` to `9`, `A` to `F` and `a` to `f`. -/
def IsHexDigit (c : Byte) : Prop :=
  (0x30 ≤ c ∧ c ≤ 0x39) ∨ (0x41 ≤ c ∧ c ≤ 0x46) ∨ (0x61 ≤ c ∧ c ≤ 0x66)

instance (c : Byte) : Decidable (IsHexDigit c) := inferInstanceAs (Decidable (_ ∨ _))

/-- The value of a hexadecimal digit. -/
def hexDigit (c : Byte) : ℕ :=
  if c ≤ 0x39 then c.toNat - 0x30 else if c ≤ 0x46 then c.toNat - 0x37 else c.toNat - 0x57

/-- The number that hexadecimal digits denote. -/
def hexValue (s : List Byte) : ℕ := s.foldl (fun r c => 16 * r + hexDigit c) 0

/-- The positions of the lower-case digits, as a hexadecimal number with digits 0 and 1. -/
def lowerMask (s : List Byte) : ℕ := s.foldl (fun r c => 16 * r + if 0x61 ≤ c then 1 else 0) 0

/-- No digit is a lower-case letter. -/
def NoLower (s : List Byte) : Prop := ∀ c ∈ s, c < 0x61

instance (s : List Byte) : Decidable (NoLower s) := inferInstanceAs (Decidable (∀ c ∈ s, _))

/-! ## Entries -/

/-- An entry of an archive. -/
structure CpioEntry where
  field : CpioField → List Byte
  name : List Byte
  data : List Byte

/-- Zeros up to the next multiple of four. -/
def padding (n : ℕ) : List Byte := List.replicate ((n + 3) / 4 * 4 - n) 0

/-- The components of a path. -/
def pathComponents (name : List Byte) : List (List Byte) := (name.splitOn 0x2f).filter (· ≠ [])

namespace CpioEntry

/-- The header with the name and its padding; the data follow. -/
def header (e : CpioEntry) : List Byte :=
  cstr "070701" ++ CpioField.all.flatMap e.field ++ (e.name ++ [0]) ++
    padding (sizeofCpio + (e.name.length + 1))

/-- The bytes of an entry. -/
def bytes (e : CpioEntry) : List Byte := e.header ++ e.data ++ padding e.data.length

/-- The header fields are digits, the sizes are those of the name and the data. -/
structure WellFormed (e : CpioEntry) : Prop where
  length : ∀ f, (e.field f).length = 8
  digits : ∀ f, ∀ c ∈ e.field f, IsHexDigit c
  name : 0 ∉ e.name
  namesize : hexValue (e.field .namesize) = e.name.length + 1
  filesize : hexValue (e.field .filesize) = e.data.length

/-- The `mode` field. -/
def mode (e : CpioEntry) : ℕ := hexValue (e.field .mode)

/-- `S_ISREG`. -/
def IsRegular (e : CpioEntry) : Prop := e.mode &&& 0xf000 = 0x8000

/-- The bit that `ramfs_setup_mount` takes for a directory. -/
def isDir (e : CpioEntry) : Bool := e.mode &&& 0x4000 ≠ 0

/-- The path at which `ramfs_setup_mount` puts an entry: it copies 255 bytes of the name. -/
def path (e : CpioEntry) : List (List Byte) := pathComponents (e.name.take 255)

/-- The fields that both readers decode have no lower-case letter. -/
def Plain (e : CpioEntry) : Prop := NoLower (e.field .namesize) ∧ NoLower (e.field .filesize)

instance (e : CpioEntry) : Decidable e.Plain := inferInstanceAs (Decidable (_ ∧ _))

end CpioEntry

/-- An archive. -/
structure CpioArchive where
  entries : List CpioEntry
  trailer : CpioEntry

namespace CpioArchive

/-- The bytes of an archive. -/
def bytes (A : CpioArchive) : List Byte := A.entries.flatMap CpioEntry.bytes ++ A.trailer.bytes

/-- Every entry is well-formed, and the trailer is the first entry with its name. -/
structure WellFormed (A : CpioArchive) : Prop where
  entries : ∀ e ∈ A.entries, e.WellFormed ∧ e.name ≠ cstr "TRAILER!!!"
  trailer : A.trailer.WellFormed ∧ A.trailer.name = cstr "TRAILER!!!"

end CpioArchive

/-! ## Bytes in memory -/

/-- The bytes `s` at `p`. -/
def HoldsAt (mem : Bytes) : Addr → List Byte → Prop
  | _, [] => True
  | p, x :: s => mem p = x ∧ HoldsAt mem (p + 1) s

variable {mem : Bytes} {p : Addr} {s t : List Byte}

theorem holdsAt_append :
    HoldsAt mem p (s ++ t) ↔ HoldsAt mem p s ∧ HoldsAt mem (p + BitVec.ofNat 64 s.length) t := by
  induction s generalizing p with
  | nil => simp [HoldsAt]
  | cons x s ih =>
    rw [List.cons_append, HoldsAt, HoldsAt, ih, List.length_cons, add_ofNat_succ, and_assoc]

/-- What is in memory depends on its bytes only. -/
theorem HoldsAt.congr {mem' : Bytes} (h : HoldsAt mem p s)
    (heq : ∀ x ∈ bytesAt p s.length, mem' x = mem x) : HoldsAt mem' p s := by
  induction s generalizing p with
  | nil => trivial
  | cons c s ih =>
    constructor
    · exact (heq p (mem_bytesAt_succ.2 (.inl rfl))).trans h.1
    · exact ih h.2 fun x hx => heq x (mem_bytesAt_succ.2 (.inr hx))

/-- A memory with the bytes `image` at an address, and zeros elsewhere. -/
def bytesFrom (rd : Addr) (image : List Byte) : Bytes := fun a => image.getD (a - rd).toNat 0

theorem holdsAt_bytesFrom (rd : Addr) (image : List Byte) (hlen : image.length ≤ 2 ^ 64) :
    HoldsAt (bytesFrom rd image) rd image := by
  have key : ∀ s i, image.drop i = s →
      HoldsAt (bytesFrom rd image) (rd + BitVec.ofNat 64 i) s := by
    intro s
    induction s with
    | nil => exact fun _ _ => trivial
    | cons x s ih =>
      intro i hi
      have hlt : i < image.length := by
        by_contra h
        rw [List.drop_eq_nil_of_le (by omega)] at hi
        cases hi
      have hsub : rd + BitVec.ofNat 64 i - rd = BitVec.ofNat 64 i := by
        rw [BitVec.add_comm, BitVec.add_sub_cancel]
      rw [List.drop_eq_getElem_cons hlt] at hi
      obtain ⟨hx, hs⟩ := List.cons.inj hi
      refine ⟨?_, ?_⟩
      · rw [bytesFrom, hsub, BitVec.toNat_ofNat, Nat.mod_eq_of_lt (by omega),
          List.getD_eq_getElem _ _ hlt, hx]
      · have := ih (i + 1) hs
        rwa [BitVec.ofNat_add, ← BitVec.add_assoc] at this
  simpa using key image 0 rfl

theorem strncmpEq_iff : strncmpEq mem p s ↔ HoldsAt mem p s := by
  induction s generalizing p with
  | nil => simp [strncmpEq, HoldsAt]
  | cons x s ih => simp [strncmpEq, HoldsAt, ih]

/-- `strcmp` against a C string in memory. -/
theorem strcmpEq_iff (hs : 0 ∉ s) (ht : 0 ∉ t) (h : HoldsAt mem p (s ++ [0])) :
    strcmpEq mem p t ↔ s = t := by
  induction s generalizing p t with
  | nil =>
    have h₀ : mem p = 0 := h.1
    cases t with
    | nil => simp [strcmpEq, h₀]
    | cons y t =>
      rw [List.mem_cons, not_or] at ht
      rw [strcmpEq, h₀, decide_eq_false ht.1]
      simp
  | cons x s ih =>
    have hx : mem p = x := h.1
    rw [List.mem_cons, not_or] at hs
    cases t with
    | nil => simpa [strcmpEq, hx] using Ne.symm hs.1
    | cons y t =>
      rw [List.mem_cons, not_or] at ht
      rw [strcmpEq, Bool.and_eq_true, ih hs.2 ht.2 h.2, hx, List.cons.injEq, decide_eq_true_eq]

/-- `strncpy` copies a C string, cut off at the bound. -/
theorem strncpy_eq (hs : 0 ∉ s) (h : HoldsAt mem p (s ++ [0])) (n : ℕ) :
    strncpy mem p n = s.take n := by
  induction s generalizing p n with
  | nil =>
    have h₀ : mem p = 0 := h.1
    cases n <;> simp [strncpy, h₀]
  | cons x s ih =>
    have hx : mem p = x := h.1
    rw [List.mem_cons, not_or] at hs
    cases n with
    | zero => rfl
    | succ n =>
      rw [strncpy, hx, if_neg (Ne.symm hs.1), ih hs.2 h.2, List.take_succ_cons]

/-! ## The two decoders -/

theorem hextoiLoop_eq {digit : Byte → Option (BitVec 32)} {val : Byte → ℕ}
    (hdigit : ∀ c ∈ s, digit c = some (BitVec.ofNat 32 (val c))) (h : HoldsAt mem p s) (r : ℕ) :
    hextoiLoop digit mem s.length p (BitVec.ofNat 32 r) =
      BitVec.ofNat 32 (s.foldl (fun r c => 16 * r + val c) r) := by
  induction s generalizing p r with
  | nil => rfl
  | cons c s ih =>
    obtain ⟨hc, h⟩ := h
    have hstep : BitVec.ofNat 32 r <<< 4 + BitVec.ofNat 32 (val c) =
        BitVec.ofNat 32 (16 * r + val c) := by
      rw [BitVec.ofNat_add, BitVec.ofNat_mul]
      congr 1
      apply BitVec.eq_of_toNat_eq
      rw [BitVec.toNat_shiftLeft, Nat.shiftLeft_eq, BitVec.toNat_mul]
      simp only [BitVec.toNat_ofNat]
      omega
    rw [List.length_cons, hextoiLoop, hc, hdigit c (by simp)]
    simp only
    rw [hstep, ih (fun x hx => hdigit x (by simp [hx])) h, List.foldl_cons]

theorem ramfs_digit {c : Byte} (h : IsHexDigit c) :
    Ramfs.digit c = some (BitVec.ofNat 32 (hexDigit c)) := by
  revert c
  decide

/-- What `lib/cpio.c` adds for a digit. -/
def cpioDigit (c : Byte) : ℕ := hexDigit c + 32 * if 0x61 ≤ c then 1 else 0

theorem cpio_digit {c : Byte} (h : IsHexDigit c) :
    Cpio.digit c = some (BitVec.ofNat 32 (cpioDigit c)) := by
  revert c
  decide

theorem foldl_cpioDigit (s : List Byte) (r m : ℕ) :
    s.foldl (fun r c => 16 * r + cpioDigit c) (r + 32 * m) =
      s.foldl (fun r c => 16 * r + hexDigit c) r +
        32 * s.foldl (fun r c => 16 * r + if 0x61 ≤ c then 1 else 0) m := by
  induction s generalizing r m with
  | nil => rfl
  | cons c s ih =>
    simp only [List.foldl_cons]
    rw [← ih, cpioDigit]
    congr 1
    ring

theorem ramfs_hextoi (hd : ∀ c ∈ s, IsHexDigit c) (hl : s.length = 8) (h : HoldsAt mem p s) :
    Ramfs.hextoi mem p 8 = BitVec.ofNat 32 (hexValue s) := by
  rw [Ramfs.hextoi, ← hl]
  exact hextoiLoop_eq (fun c hc => ramfs_digit (hd c hc)) h 0

/-- **The `hextoi` of `lib/cpio.c` adds 32 to every lower-case digit.** -/
theorem cpio_hextoi (hd : ∀ c ∈ s, IsHexDigit c) (hl : s.length = 8) (h : HoldsAt mem p s) :
    Cpio.hextoi mem p 8 = BitVec.ofNat 32 (hexValue s + 32 * lowerMask s) := by
  rw [Cpio.hextoi, ← hl, hexValue, lowerMask, ← foldl_cpioDigit s 0 0]
  exact hextoiLoop_eq (fun c hc => cpio_digit (hd c hc)) h 0

theorem lowerMask_eq_zero_iff : lowerMask s = 0 ↔ NoLower s := by
  have key : ∀ r, s.foldl (fun r c => 16 * r + if 0x61 ≤ c then 1 else 0) r = 0 ↔
      r = 0 ∧ NoLower s := by
    induction s with
    | nil => simp [NoLower]
    | cons c s ih =>
      intro r
      rw [List.foldl_cons, ih, NoLower, NoLower, List.forall_mem_cons, ← and_assoc]
      refine and_congr_left fun _ => ?_
      by_cases hc : 0x61 ≤ c
      · rw [if_pos hc]
        exact iff_of_false (Nat.succ_ne_zero _) fun h => BitVec.not_lt.2 hc h.2
      · rw [if_neg hc]
        exact ⟨fun h => ⟨by omega, BitVec.not_le.1 hc⟩, fun h => by omega⟩
  rw [lowerMask, key]
  simp

theorem foldl_lowerMask (s : List Byte) (r : ℕ) :
    s.foldl (fun r c => 16 * r + if 0x61 ≤ c then 1 else 0) r =
      16 ^ s.length * r + lowerMask s := by
  induction s generalizing r with
  | nil => simp [lowerMask]
  | cons c s ih =>
    have hmask : lowerMask (c :: s) =
        16 ^ s.length * (if 0x61 ≤ c then 1 else 0) + lowerMask s := by
      rw [lowerMask, List.foldl_cons, ih, Nat.mul_zero, Nat.zero_add]
    rw [List.foldl_cons, ih, hmask, List.length_cons, pow_succ]
    ring

/-- A lower-case digit denotes at least ten. -/
theorem ten_mul_lowerMask_le (hd : ∀ c ∈ s, IsHexDigit c) : 10 * lowerMask s ≤ hexValue s := by
  have hdigit : ∀ c, IsHexDigit c → 10 * (if 0x61 ≤ c then 1 else 0) ≤ hexDigit c := by decide
  have key : ∀ r m, 10 * m ≤ r →
      10 * s.foldl (fun r c => 16 * r + if 0x61 ≤ c then 1 else 0) m ≤
        s.foldl (fun r c => 16 * r + hexDigit c) r := by
    induction s with
    | nil => exact fun r m h => h
    | cons c s ih =>
      intro r m h
      have := hdigit c (hd c (by simp))
      rw [List.foldl_cons, List.foldl_cons]
      exact ih (fun x hx => hd x (by simp [hx])) _ _ (by omega)
  exact key 0 0 le_rfl

theorem fifteen_mul_lowerMask_lt (s : List Byte) : 15 * lowerMask s < 16 ^ s.length := by
  induction s with
  | nil => simp [lowerMask]
  | cons c s ih =>
    rw [lowerMask, List.foldl_cons, foldl_lowerMask, List.length_cons, pow_succ]
    split_ifs <;> omega

/-- A size below `2 ^ 31` has no lower-case digit in front, and what `lib/cpio.c` adds to it does
not vanish modulo `2 ^ 32`. -/
theorem lowerMask_lt (hd : ∀ c ∈ s, IsHexDigit c) (hl : s.length = 8) (hlt : hexValue s < 2 ^ 31) :
    32 * lowerMask s < 2 ^ 32 := by
  have h := ten_mul_lowerMask_le hd
  cases s with
  | nil => cases hl
  | cons c s =>
    have hs := fifteen_mul_lowerMask_lt s
    have hlen : s.length = 7 := by simpa using hl
    rw [lowerMask, List.foldl_cons, foldl_lowerMask, hlen] at h ⊢
    rw [hlen] at hs
    split_ifs at h ⊢ <;> omega

theorem hexValue_lt (hd : ∀ c ∈ s, IsHexDigit c) : hexValue s < 16 ^ s.length := by
  have hdigit : ∀ c, IsHexDigit c → hexDigit c < 16 := by decide
  have key : ∀ r, s.foldl (fun r c => 16 * r + hexDigit c) r < 16 ^ s.length * (r + 1) := by
    induction s with
    | nil => simp
    | cons c s ih =>
      intro r
      have := hdigit c (hd c (by simp))
      rw [List.foldl_cons, List.length_cons, pow_succ]
      calc _ < 16 ^ s.length * (16 * r + hexDigit c + 1) := ih (fun x hx => hd x (by simp [hx])) _
        _ ≤ 16 ^ s.length * (16 * (r + 1)) := Nat.mul_le_mul_left _ (by omega)
        _ = 16 ^ s.length * 16 * (r + 1) := by ring
  rw [hexValue]
  simpa using key 0

/-! ## What is where in an entry -/

theorem length_padding (n : ℕ) : n + (padding n).length = (n + 3) / 4 * 4 := by
  rw [padding, List.length_replicate]
  omega

namespace CpioEntry

variable {e : CpioEntry}

theorem holdsAt_fields {fs : List CpioField} {f : CpioField} (he : e.WellFormed) (hf : f ∈ fs)
    (h : HoldsAt mem p (fs.flatMap e.field)) :
    HoldsAt mem (p + BitVec.ofNat 64 (8 * fs.idxOf f)) (e.field f) := by
  induction fs generalizing p with
  | nil => cases hf
  | cons g fs ih =>
    rw [List.flatMap_cons, holdsAt_append, he.length] at h
    by_cases hg : g = f
    · subst hg
      simpa using h.1
    · have hf : f ∈ fs := by simpa [Ne.symm hg] using hf
      have := ih hf h.2
      rwa [List.idxOf_cons_ne _ hg, Nat.mul_succ, Nat.add_comm, BitVec.ofNat_add,
        ← BitVec.add_assoc]

theorem length_fields (he : e.WellFormed) : (CpioField.all.flatMap e.field).length = 104 := by
  simp [CpioField.all, he.length]

/-- The length of the header with the name and its padding. -/
theorem length_header (he : e.WellFormed) :
    e.header.length = (sizeofCpio + (e.name.length + 1) + 3) / 4 * 4 := by
  rw [← length_padding, header, List.length_append, List.length_append, List.length_append,
    length_fields he]
  simp [cstr, sizeofCpio]

theorem length_bytes (he : e.WellFormed) : e.bytes.length =
    (sizeofCpio + (e.name.length + 1) + 3) / 4 * 4 + (e.data.length + 3) / 4 * 4 := by
  rw [bytes, List.length_append, List.length_append, length_header he,
    ← length_padding e.data.length]
  omega

/-- The parts of an entry that the readers look at. -/
structure At (mem : Bytes) (p : Addr) (e : CpioEntry) : Prop where
  magic : HoldsAt mem p (cstr "070701")
  field : ∀ f, HoldsAt mem (p + BitVec.ofNat 64 f.offset) (e.field f)
  name : HoldsAt mem (p + BitVec.ofNat 64 sizeofCpio) (e.name ++ [0])

theorem at_of_holdsAt (he : e.WellFormed) (h : HoldsAt mem p e.bytes) : e.At mem p := by
  rw [bytes, header] at h
  simp only [holdsAt_append, List.length_append, length_fields he] at h
  obtain ⟨⟨⟨⟨⟨hmagic, hfields⟩, hname⟩, -⟩, -⟩, -⟩ := h
  refine ⟨hmagic, fun f => ?_, holdsAt_append.2 hname⟩
  have hf : f ∈ CpioField.all := by cases f <;> decide
  have := holdsAt_fields he hf hfields
  rwa [BitVec.add_assoc, ← BitVec.ofNat_add] at this

end CpioEntry

/-! ## From one entry to the next -/

/-- Rounding up to a multiple of four. -/
def roundUp (n : ℕ) : ℕ := (n + 3) / 4 * 4

theorem toNat_alignUp {n : ℕ} (h : n + 3 < 2 ^ 32) :
    (Ramfs.alignUp (BitVec.ofNat 32 n) 4).toNat = roundUp n := by
  have hsum : BitVec.ofNat 32 n + 4 - 1 = BitVec.ofNat 32 (n + 3) := by
    bv_omega
  have hmask : (4 - 1 : BitVec 32) = BitVec.ofNat 32 (2 ^ 2 - 1) := by decide
  rw [Ramfs.alignUp, hsum, hmask, toNat_and_not_mask _ (by omega), BitVec.toNat_ofNat,
    Nat.mod_eq_of_lt h, roundUp]
  omega

theorem alignUpInt_eq (n a : BitVec 32) : Cpio.alignUpInt n a = Ramfs.alignUp n a := rfl

theorem signExtend_eq {x : BitVec 32} (h : x.toNat < 2 ^ 31) :
    x.signExtend 64 = BitVec.ofNat 64 x.toNat := by
  rw [BitVec.signExtend_eq_setWidth_of_msb_false]
  · apply BitVec.eq_of_toNat_eq
    simp
  · rw [BitVec.msb_eq_false_iff_two_mul_lt]
    omega

theorem setWidth_sizeof_add (namesize : BitVec 32) :
    (BitVec.ofNat 64 sizeofCpio + namesize.signExtend 64).setWidth 32 =
      BitVec.ofNat 32 sizeofCpio + namesize := by
  rw [BitVec.setWidth_add _ _ (by norm_num)]
  congr 1
  ext i hi
  rw [BitVec.getElem_setWidth, BitVec.getLsbD_signExtend]
  simp [hi, show i < 64 by omega]

theorem setWidth_eq (x : BitVec 32) : x.setWidth 64 = BitVec.ofNat 64 x.toNat := by
  apply BitVec.eq_of_toNat_eq
  simp

variable {e : CpioEntry}

namespace CpioEntry

theorem length_header_le (he : e.WellFormed) : e.header.length ≤ e.bytes.length := by
  rw [length_bytes he, length_header he]
  omega

theorem toNat_alignUp_name (he : e.WellFormed) (hlen : e.bytes.length < 2 ^ 32) :
    (Ramfs.alignUp (BitVec.ofNat 32 sizeofCpio + BitVec.ofNat 32 (e.name.length + 1)) 4).toNat =
      e.header.length := by
  have h := length_header_le he
  have hh := length_header he
  rw [← BitVec.ofNat_add, toNat_alignUp (by omega), hh, roundUp]

theorem ramfs_data (he : e.WellFormed) (hlen : e.bytes.length < 2 ^ 32) :
    Ramfs.data p (BitVec.ofNat 32 (e.name.length + 1)) = p + BitVec.ofNat 64 e.header.length := by
  rw [Ramfs.data, setWidth_sizeof_add, setWidth_eq, toNat_alignUp_name he hlen]

theorem toNat_alignUp_add (he : e.WellFormed) (hlen : e.bytes.length < 2 ^ 32) :
    (Ramfs.alignUp (BitVec.ofNat 32 sizeofCpio + BitVec.ofNat 32 (e.name.length + 1)) 4 +
      Ramfs.alignUp (BitVec.ofNat 32 e.data.length) 4).toNat = e.bytes.length := by
  have hb := length_bytes he
  have hh := length_header he
  have hdata : (Ramfs.alignUp (BitVec.ofNat 32 e.data.length) 4).toNat = roundUp e.data.length :=
    toNat_alignUp (by omega)
  rw [BitVec.toNat_add, toNat_alignUp_name he hlen, hdata, roundUp, hh, ← hb, Nat.mod_eq_of_lt hlen]

theorem ramfs_next (he : e.WellFormed) (hlen : e.bytes.length < 2 ^ 32) :
    Ramfs.next p (BitVec.ofNat 32 (e.name.length + 1)) (BitVec.ofNat 32 e.data.length) =
      p + BitVec.ofNat 64 e.bytes.length := by
  rw [Ramfs.next, setWidth_sizeof_add, setWidth_eq, toNat_alignUp_add he hlen]

theorem cpio_next (he : e.WellFormed) (hlen : e.bytes.length < 2 ^ 31) :
    Cpio.next p (BitVec.ofNat 32 (e.name.length + 1)) (BitVec.ofNat 32 e.data.length) =
      p + BitVec.ofNat 64 e.bytes.length := by
  have h := toNat_alignUp_add he (by omega)
  rw [Cpio.next, alignUpInt_eq, alignUpInt_eq, signExtend_eq (by rw [h]; exact hlen), h]

end CpioEntry

end BareMetalOS.Files
