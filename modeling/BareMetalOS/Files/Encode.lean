import BareMetalOS.Files.Readers

/-!
# Writing an archive and reading it back

`encode` writes a list of files as an archive in the `newc` format: every header field is a number
of eight hexadecimal digits with upper-case letters, the name and the data are padded to four bytes,
and a trailer comes last. `initrdGetFile_encode` says that `initrd_get_file` finds in it the first
file of each name, and only those.
-/

namespace BareMetalOS.Files

open Memory Boot

/-! ## Numbers -/

/-- The character of a hexadecimal digit. -/
def hexChar (d : ℕ) : Byte :=
  if d < 10 then BitVec.ofNat 8 (0x30 + d) else BitVec.ofNat 8 (0x37 + d)

/-- The last `k` hexadecimal digits of a number. -/
def hexDigits : ℕ → ℕ → List Byte
  | 0, _ => []
  | k + 1, n => hexDigits k (n / 16) ++ [hexChar (n % 16)]

theorem length_hexDigits (k n : ℕ) : (hexDigits k n).length = k := by
  induction k generalizing n with
  | zero => rfl
  | succ k ih => rw [hexDigits, List.length_append, ih, List.length_singleton]

theorem hexChar_spec : ∀ d < 16,
    IsHexDigit (hexChar d) ∧ hexChar d < 0x61 ∧ hexDigit (hexChar d) = d := by
  decide

theorem hexDigits_spec (k n : ℕ) : ∀ c ∈ hexDigits k n, IsHexDigit c ∧ c < 0x61 := by
  induction k generalizing n with
  | zero =>
    intro c hc
    cases hc
  | succ k ih =>
    intro c hc
    rw [hexDigits, List.mem_append, List.mem_singleton] at hc
    rcases hc with hc | rfl
    · exact ih _ c hc
    · obtain ⟨h₁, h₂, -⟩ := hexChar_spec (n % 16) (Nat.mod_lt _ (by decide))
      exact ⟨h₁, h₂⟩

theorem hexValue_append (s : List Byte) (c : Byte) :
    hexValue (s ++ [c]) = 16 * hexValue s + hexDigit c := by
  rw [hexValue, List.foldl_append]
  rfl

/-- The digits denote the number, as far as they go. -/
theorem hexValue_hexDigits (k n : ℕ) : hexValue (hexDigits k n) = n % 16 ^ k := by
  induction k generalizing n with
  | zero => exact (Nat.mod_one n).symm
  | succ k ih =>
    obtain ⟨-, -, hd⟩ := hexChar_spec (n % 16) (Nat.mod_lt _ (by decide))
    rw [hexDigits, hexValue_append, ih, hd, Nat.pow_succ, Nat.mul_comm (16 ^ k) 16, Nat.mod_mul]
    omega

/-! ## Archives -/

/-- A file to be archived; `attr` gives the header fields that are not sizes. -/
structure CpioFile where
  name : List Byte
  data : List Byte
  attr : CpioField → ℕ

/-- The entry of a file. -/
def CpioFile.entry (f : CpioFile) : CpioEntry where
  field
    | .namesize => hexDigits 8 (f.name.length + 1)
    | .filesize => hexDigits 8 f.data.length
    | x => hexDigits 8 (f.attr x)
  name := f.name
  data := f.data

/-- The trailer of an archive. -/
def trailerFile : CpioFile := ⟨cstr "TRAILER!!!", [], fun _ => 0⟩

/-- The archive of a list of files. -/
def encode (files : List CpioFile) : List Byte :=
  files.flatMap (·.entry.bytes) ++ trailerFile.entry.bytes

variable {mem : Bytes} {p rd : Addr} {name : List Byte} {f : CpioFile} {files : List CpioFile}

theorem entry_field (f : CpioFile) (x : CpioField) : ∃ n, f.entry.field x = hexDigits 8 n := by
  cases x <;> exact ⟨_, rfl⟩

/-- An entry whose sizes fit in eight digits is well-formed. -/
theorem CpioFile.wellFormed (h0 : 0 ∉ f.name) (hname : f.name.length + 1 < 2 ^ 32)
    (hdata : f.data.length < 2 ^ 32) : f.entry.WellFormed where
  length x := by
    obtain ⟨n, hn⟩ := entry_field f x
    rw [hn, length_hexDigits]
  digits x c hc := by
    obtain ⟨n, hn⟩ := entry_field f x
    rw [hn] at hc
    exact (hexDigits_spec 8 n c hc).1
  name := h0
  namesize := (hexValue_hexDigits 8 _).trans (Nat.mod_eq_of_lt hname)
  filesize := (hexValue_hexDigits 8 _).trans (Nat.mod_eq_of_lt hdata)

/-- No field of an entry has a lower-case letter. -/
theorem CpioFile.plain (f : CpioFile) : f.entry.Plain :=
  ⟨fun c hc => (hexDigits_spec 8 _ c hc).2, fun c hc => (hexDigits_spec 8 _ c hc).2⟩

theorem CpioFile.sizes_le (f : CpioFile) :
    f.name.length + 1 + f.data.length ≤ f.entry.bytes.length := by
  simp only [CpioEntry.bytes, CpioEntry.header, List.length_append, List.length_singleton]
  change _ ≤ _ + (f.name.length + 1) + _ + f.data.length + _
  omega

/-! ## Reading -/

/-- Where the data of a file are. -/
theorem CpioFile.cpio_data (h0 : 0 ∉ f.name) (hlen : f.entry.bytes.length < 2 ^ 31) :
    Cpio.data p (f.entry.cpioSize .namesize) =
      p + BitVec.ofNat 64 f.entry.header.length := by
  have hle := f.sizes_le
  have he := f.wellFormed h0 (by omega) (by omega)
  have hhead := CpioEntry.length_header_le he
  have hup := CpioEntry.toNat_alignUp_name he (by omega)
  rw [CpioEntry.cpioSize_of_noLower f.plain.1, he.namesize, Cpio.data, alignUpInt_eq,
    signExtend_eq (by rw [hup]; omega), hup]

/-- One round of the search on the entry of a file. -/
theorem initrdGetFileLoop_entry {n : ℕ} (h0 : 0 ∉ f.name) (ht : f.name ≠ cstr "TRAILER!!!")
    (hlen : f.entry.bytes.length < 2 ^ 31) (hname : 0 ∉ name)
    (hmem : HoldsAt mem p f.entry.bytes) :
    Cpio.initrdGetFileLoop mem name (n + 1) p =
      if f.name = name then
        some (some (p + BitVec.ofNat 64 f.entry.header.length, BitVec.ofNat 32 f.data.length))
      else Cpio.initrdGetFileLoop mem name n (p + BitVec.ofNat 64 f.entry.bytes.length) := by
  have hle := f.sizes_le
  have he := f.wellFormed h0 (by omega) (by omega)
  rw [initrdGetFileLoop_succ he (CpioEntry.at_of_holdsAt he hmem) ht hname, f.cpio_data h0 hlen,
    CpioEntry.cpioSize_of_noLower f.plain.1, CpioEntry.cpioSize_of_noLower f.plain.2, he.namesize,
    he.filesize, CpioEntry.cpio_next he hlen]
  rfl

/-- The search ends at the trailer. -/
theorem initrdGetFileLoop_trailer {n : ℕ} (hmem : HoldsAt mem p trailerFile.entry.bytes) :
    Cpio.initrdGetFileLoop mem name (n + 1) p = some none := by
  have he := trailerFile.wellFormed (by decide) (by decide) (by decide)
  have hat := CpioEntry.at_of_holdsAt he hmem
  have htrailer : strcmpEq mem (p + BitVec.ofNat 64 sizeofCpio) (cstr "TRAILER!!!") = true :=
    (strcmpEq_iff he.name (by decide) hat.name).2 rfl
  rw [Cpio.initrdGetFileLoop, if_pos (strncmpEq_iff.2 hat.magic)]
  simp only [htrailer, if_true]

/-- What the search returns for the first file of the name, or for none. -/
def Finds (mem : Bytes) (r : Option (Addr × BitVec 32)) : Option CpioFile → Prop
  | some f => ∃ data size, r = some (data, size) ∧ HoldsAt mem data f.data ∧
      size.toInt = f.data.length
  | none => r = none

/-- The search over the rest of an archive. -/
theorem initrdGetFileLoop_encode (hfiles : ∀ f ∈ files, 0 ∉ f.name ∧ f.name ≠ cstr "TRAILER!!!")
    (hlen : (encode files).length < 2 ^ 31) (hname : 0 ∉ name)
    (hmem : HoldsAt mem p (encode files)) : ∃ r,
    (∀ n, files.length < n → Cpio.initrdGetFileLoop mem name n p = some r) ∧
      Finds mem r (files.find? (·.name = name)) := by
  -- induction on the files; the address moves on by the length of one entry
  induction files generalizing p with
  | nil =>
    refine ⟨none, ?_, rfl⟩
    intro n hn
    obtain ⟨m, rfl⟩ := Nat.exists_eq_succ_of_ne_zero (Nat.ne_zero_of_lt hn)
    exact initrdGetFileLoop_trailer hmem
  | cons f files ih =>
    obtain ⟨h0, ht⟩ := hfiles f List.mem_cons_self
    rw [encode, List.flatMap_cons, List.append_assoc] at hmem hlen
    rw [holdsAt_append] at hmem
    rw [List.length_append] at hlen
    have hround := fun n => initrdGetFileLoop_entry (n := n) h0 ht (by omega) hname hmem.1
    have hle := f.sizes_le
    by_cases hf : f.name = name
    · refine ⟨some (p + BitVec.ofNat 64 f.entry.header.length, BitVec.ofNat 32 f.data.length),
        ?_, ?_⟩
      · intro n hn
        obtain ⟨m, rfl⟩ := Nat.exists_eq_succ_of_ne_zero (Nat.ne_zero_of_lt hn)
        rw [hround, if_pos hf]
      · rw [List.find?_cons_of_pos (by simpa using hf)]
        refine ⟨_, _, rfl, ?_, ?_⟩
        · have hbytes := hmem.1
          rw [CpioEntry.bytes, List.append_assoc, holdsAt_append, holdsAt_append] at hbytes
          exact hbytes.2.1
        · rw [BitVec.toInt_ofNat', Int.bmod_eq_of_le] <;> omega
    · obtain ⟨r, hr, hfinds⟩ := ih (fun g hg => hfiles g (List.mem_cons_of_mem _ hg))
        (by rw [encode]; omega) hmem.2
      refine ⟨r, ?_, ?_⟩
      · intro n hn
        obtain ⟨m, rfl⟩ := Nat.exists_eq_succ_of_ne_zero (Nat.ne_zero_of_lt hn)
        rw [hround, if_neg hf]
        exact hr m (by simpa using hn)
      · rwa [List.find?_cons_of_neg (by simpa using hf)]

/-- **Reading back.** In the archive of a list of files `initrd_get_file` finds the data and the
size of the first file of the name, and it fails exactly when no file has the name. -/
theorem initrdGetFile_encode (files : List CpioFile) (name : List Byte)
    (hfiles : ∀ f ∈ files, 0 ∉ f.name ∧ f.name ≠ cstr "TRAILER!!!")
    (hlen : (encode files).length < 2 ^ 31) (hname : 0 ∉ name)
    (hmem : HoldsAt mem rd (encode files)) : ∃ r,
    (∀ n, files.length < n → initrdGetFile mem rd name n = some r) ∧
      (∀ f, files.find? (·.name = name) = some f → ∃ data size, r = some (data, size) ∧
        HoldsAt mem data f.data ∧ size.toInt = f.data.length) ∧
      (r = none ↔ ∀ f ∈ files, f.name ≠ name) := by
  obtain ⟨r, hr, hfinds⟩ := initrdGetFileLoop_encode hfiles hlen hname hmem
  refine ⟨r, hr, ?_, ?_⟩
  · intro f hf
    rwa [hf] at hfinds
  · have hnone : (∀ f ∈ files, f.name ≠ name) ↔ files.find? (·.name = name) = none := by
      rw [List.find?_eq_none]
      simp
    rw [hnone]
    rcases hf : files.find? (·.name = name) with _ | f
    · rw [hf] at hfinds
      exact iff_of_true hfinds hf
    · rw [hf] at hfinds
      obtain ⟨data, size, rfl, -⟩ := hfinds
      exact iff_of_false (by simp) (by rw [hf]; simp)

/-- Two files of one name, with the archive at address 0. -/
def twoFiles : List CpioFile :=
  [⟨cstr "a", [1, 2, 3], fun _ => 0⟩, ⟨cstr "b", [], fun _ => 0x81A4⟩, ⟨cstr "a", [4], fun _ => 0⟩]

theorem holdsAt_ofList (s : List Byte) (off : ℕ) (t : List Byte) (h : t.length = off)
    (hlen : (t ++ s).length < 2 ^ 64) :
    HoldsAt (fun a => (t ++ s)[a.toNat]?.getD 0) (BitVec.ofNat 64 off) s := by
  induction s generalizing off t with
  | nil => trivial
  | cons x s ih =>
    rw [List.length_append, List.length_cons] at hlen
    constructor
    · simp only [BitVec.toNat_ofNat]
      rw [Nat.mod_eq_of_lt (by omega), ← h, List.getElem?_append_right le_rfl, Nat.sub_self]
      rfl
    · have := ih (off + 1) (t ++ [x]) (by rw [List.length_append, h]; rfl)
        (by simp only [List.length_append, List.length_singleton]; omega)
      rwa [BitVec.ofNat_add, List.append_assoc, List.singleton_append] at this

/-- The first of them is found. -/
theorem initrdGetFile_encode_twoFiles : ∃ data size,
    initrdGetFile (fun a => (encode twoFiles)[a.toNat]?.getD 0) 0 (cstr "a") 4 =
      some (some (data, size)) ∧ size.toInt = 3 := by
  obtain ⟨r, hr, hfind, -⟩ := @initrdGetFile_encode
    (fun a => (encode twoFiles)[a.toNat]?.getD 0) 0 twoFiles (cstr "a")
    (by decide) (by decide +kernel) (by decide)
    (holdsAt_ofList (encode twoFiles) 0 [] rfl (by decide +kernel))
  obtain ⟨data, size, rfl, -, hsize⟩ := hfind _ rfl
  exact ⟨data, size, hr 4 (by decide), hsize⟩

end BareMetalOS.Files
