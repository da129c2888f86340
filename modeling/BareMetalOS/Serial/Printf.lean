import BareMetalOS.Boot.Fdt
import BareMetalOS.Foundations.Loops
import BareMetalOS.Memory.Buddy
import Mathlib.Data.List.TakeWhile
import Mathlib.Data.Nat.Digits.Lemmas

/-!
# Formatted output

`printf` of `lib/stdio.c`, with `print_uint`, `print_int` and `print_long`, which fill an array of
32 or 64 bytes from the last digit on and print it backwards. The digits fit; the padding fits
exactly when the width of the conversion is at most the length of the array (`printf_prints_iff`).
An `int` that overflows wraps, and `char` is unsigned.
-/

namespace BareMetalOS.Serial

open Boot (Byte cstr)
open Memory (Addr)

/-! ## Numbers -/

/-- `(rem < 10) ? ('0' + rem) : ('a' + rem - 10)` -/
def digitChar (rem : ℕ) : Byte := BitVec.ofNat 8 (if rem < 10 then 0x30 + rem else 0x61 + rem - 10)

/-- `while (num > 0) { ..; buf[i++] = ..; num /= base; }`: the room left in `buf` and the bytes
stored, the last one first; `none` for an access beyond the end of `buf`. -/
def digitsLoop (base : ℕ) : ℕ → ℕ → List Byte → Option (ℕ × List Byte)
  | room, 0, buf => some (room, buf)
  | 0, _ + 1, _ => none
  | room + 1, num + 1, buf =>
    digitsLoop base room ((num + 1) / base) (digitChar ((num + 1) % base) :: buf)

/-- `while (i < width) buf[i++] = pad;` -/
def padLoop (width : BitVec 32) (pad : Byte) : ℕ → List Byte → Option (List Byte)
  | 0, buf => if (buf.length : ℤ) < width.toInt then none else some buf
  | room + 1, buf =>
    if (buf.length : ℤ) < width.toInt then padLoop width pad room (pad :: buf) else some buf

/-- The digits of `num` in an array of `size` bytes. -/
def storeDigits (size num base : ℕ) : Option (ℕ × List Byte) :=
  if num = 0 then some (size - 1, [0x30]) else digitsLoop base size num []

/-- What `print_uint` and `print_long` print by their array of `size` bytes; `none` for an access
beyond its end. -/
def printDigits (size num base : ℕ) (width : BitVec 32) (pad : Byte) : Option (List Byte) := do
  let (room, buf) ← storeDigits size num base
  padLoop width pad room buf

/-- `print_uint` -/
def printUint (num : BitVec 32) (base : ℕ) (width : BitVec 32) (pad : Byte) : Option (List Byte) :=
  printDigits 32 num.toNat base width pad

/-- `print_int` -/
def printInt (num width : BitVec 32) (pad : Byte) : Option (List Byte) :=
  if num.toInt < 0 then
    let width := if 0 < width.toInt then width - 1 else width
    (printUint (-num) 10 width pad).map (0x2d :: ·)
  else printUint num 10 width pad

/-- `print_long` -/
def printLong (num : BitVec 64) (base : ℕ) (width : BitVec 32) (pad : Byte) : Option (List Byte) :=
  printDigits 64 num.toNat base width pad

/-! ## Conversions -/

/-- `c >= '0' && c <= '9'` -/
def isDigit (c : Byte) : Bool := 0x30 ≤ c && c ≤ 0x39

/-- What follows a `%`: the flag `0`, the digits of the width, the letters `l`, and the character
after these. -/
structure Conversion where
  zero : Bool
  digits : List Byte
  isDigit_digits : ∀ c ∈ digits, isDigit c
  ls : List Byte
  letter : Option Byte
  deriving DecidableEq, Repr

namespace Conversion

/-- `pad` -/
def pad (conv : Conversion) : Byte := if conv.zero then 0x30 else 0x20

/-- `width`, which each digit makes `width * 10 + (*p - '0')` -/
def width (conv : Conversion) : BitVec 32 :=
  conv.digits.foldl (fun width c => width * 10 + (c.setWidth 32 - 0x30)) 0

/-- `l_count` -/
def lCount (conv : Conversion) : BitVec 32 := BitVec.ofNat 32 conv.ls.length

/-- The conversion takes an argument. -/
def takesArg (conv : Conversion) : Bool :=
  conv.letter ∈ [some 0x64, some 0x75, some 0x78, some 0x73, some 0x63, some 0x70]

end Conversion

/-- The conversion after a `%`, and the rest of the format. -/
def readConversion (p : List Byte) : Conversion × List Byte :=
  let zero := p.head? = some 0x30
  let p := if zero then p.tail else p
  let digits := p.takeWhile isDigit
  let p := p.dropWhile isDigit
  let ls := p.takeWhile (· = 0x6c)
  let p := p.dropWhile (· = 0x6c)
  (⟨zero, digits, fun _ hc => List.mem_takeWhile_imp hc, ls, p.head?⟩, p.tail)

/-- Why `printf` does not go on. -/
inductive Stop
  /-- an access beyond the end of `buf` -/
  | index
  /-- a string that cannot be read to its end -/
  | string
  deriving DecidableEq, Repr

/-- `while (*s) uart_putc(*s++);` within `n` rounds; memory that cannot be read is `none`. -/
def putsLoop (mem : Addr → Option Byte) : ℕ → Addr → Option (List Byte)
  | 0, _ => none
  | n + 1, s => do
    let c ← mem s
    if c = 0 then return []
    else return c :: (← putsLoop mem n (s + 1))

/-- The string at an address: no string is longer than the address space. -/
def puts (mem : Addr → Option Byte) (s : Addr) : Option (List Byte) := putsLoop mem (2 ^ 64) s

/-- A result or why there is none. -/
def orStop (stop : Stop) : Option (List Byte) → Except Stop (List Byte)
  | some printed => .ok printed
  | none => .error stop

/-- What a conversion prints of its argument. -/
def convert (mem : Addr → Option Byte) (conv : Conversion) (arg : BitVec 64) :
    Except Stop (List Byte) :=
  if conv.letter = some 0x64 then
    orStop .index (printInt (arg.setWidth 32) conv.width conv.pad)
  else if conv.letter = some 0x75 then
    orStop .index <| if conv.lCount ≠ 0 then printLong arg 10 conv.width conv.pad
      else printUint (arg.setWidth 32) 10 conv.width conv.pad
  else if conv.letter = some 0x78 then
    orStop .index <| if conv.lCount ≠ 0 then printLong arg 16 conv.width conv.pad
      else printUint (arg.setWidth 32) 16 conv.width conv.pad
  else if conv.letter = some 0x73 then
    if arg = 0 then .ok (cstr "(null)") else orStop .string (puts mem arg)
  else if conv.letter = some 0x63 then .ok [arg.setWidth 8]
  else if conv.letter = some 0x70 then
    orStop .index ((printLong arg 16 0 0x20).map (cstr "0x" ++ ·))
  else .ok (0x25 :: conv.letter.toList)

/-! ## The loop -/

/-- What `printf` does for a piece of its format: it prints a byte, or a conversion of an
argument. -/
inductive Item
  | byte (c : Byte)
  | conversion (conv : Conversion) (arg : BitVec 64) (printed : Except Stop (List Byte))
  deriving DecidableEq, Repr

/-- The loop of `printf` within `n` rounds, from the `k`-th argument on. -/
def printfLoop (mem : Addr → Option Byte) (args : ℕ → BitVec 64) :
    ℕ → List Byte → ℕ → List Item
  | 0, _, _ => []
  | _ + 1, [], _ => []
  | n + 1, c :: p, k =>
    if c = 0x25 then
      if p.head? = some 0x25 then .byte 0x25 :: printfLoop mem args n p.tail k
      else
        let (conv, p) := readConversion p
        let printed := convert mem conv (args k)
        match printed with
        | .error _ => [.conversion conv (args k) printed]
        | .ok _ => .conversion conv (args k) printed ::
            printfLoop mem args n p (if conv.takesArg then k + 1 else k)
    else .byte c :: printfLoop mem args n p k

/-- `printf`: what it does for the pieces of the format, up to the one at which it stops. A round
takes at least one byte of the format. -/
def printf (mem : Addr → Option Byte) (fmt : List Byte) (args : ℕ → BitVec 64) : List Item :=
  printfLoop mem args fmt.length fmt 0

/-! ## Numerals -/

/-- The digits of a number, the most significant one first. -/
def numeral (base num : ℕ) : List Byte :=
  if num = 0 then cstr "0"
  else ((Nat.digits base num).map fun d => (cstr "0123456789abcdef").getD d 0).reverse

/-- The text with the padding in front of it that makes it `width` bytes long. -/
def leftPad (width : ℕ) (pad : Byte) (text : List Byte) : List Byte :=
  List.replicate (width - text.length) pad ++ text

section Numerals

variable {base num room size : ℕ} {buf : List Byte} {width : BitVec 32} {pad : Byte}

theorem digitChar_eq {d : ℕ} (h : d < 16) : digitChar d = (cstr "0123456789abcdef").getD d 0 := by
  revert d
  decide

/-- The loop stores the digits, if there is room for them. -/
theorem digitsLoop_eq (hbase : 1 < base) : digitsLoop base room num buf =
    if (Nat.digits base num).length ≤ room then
      some (room - (Nat.digits base num).length,
        ((Nat.digits base num).map digitChar).reverse ++ buf)
    else none := by
  induction room generalizing num buf with
  | zero =>
    cases num with
    | zero => simp [digitsLoop]
    | succ num =>
      rw [digitsLoop, Nat.digits_def' hbase num.succ_pos, List.length_cons,
        if_neg (Nat.not_succ_le_zero _)]
  | succ room ih =>
    cases num with
    | zero => simp [digitsLoop]
    | succ num =>
      rw [digitsLoop, ih, Nat.digits_def' hbase num.succ_pos]
      simp only [List.length_cons, Nat.add_le_add_iff_right, Nat.add_sub_add_right, List.map_cons,
        List.reverse_cons, List.append_assoc, List.singleton_append]

/-- The loop pads up to the width, if there is room. -/
theorem padLoop_eq : padLoop width pad room buf =
    if width.toInt ≤ buf.length + room then some (leftPad width.toInt.toNat pad buf) else none := by
  have hnone (hle : width.toInt ≤ buf.length) : leftPad width.toInt.toNat pad buf = buf := by
    rw [leftPad, Nat.sub_eq_zero_of_le (by omega)]
    rfl
  induction room generalizing buf with
  | zero =>
    rw [padLoop]
    split
    · rw [if_neg (by omega)]
    · rw [if_pos (by omega), hnone (by omega)]
  | succ room ih =>
    rw [padLoop]
    split
    · rename_i hlt
      have hpad : leftPad width.toInt.toNat pad (pad :: buf) =
          leftPad width.toInt.toNat pad buf := by
        obtain ⟨k, hk⟩ : ∃ k, width.toInt.toNat = buf.length + 1 + k :=
          ⟨width.toInt.toNat - (buf.length + 1), by omega⟩
        rw [leftPad, leftPad, List.length_cons, hk, Nat.add_sub_cancel_left,
          show buf.length + 1 + k - buf.length = k + 1 by omega, List.replicate_succ',
          List.append_assoc, List.singleton_append]
      rw [ih, hpad, List.length_cons]
      · congr 1
        push_cast
        exact propext ⟨fun h => by omega, fun h => by omega⟩
      · intro hle
        rw [leftPad, Nat.sub_eq_zero_of_le (by omega)]
        rfl
    · rw [if_pos (by omega), hnone (by omega)]

theorem length_numeral (hbase : 1 < base) (hsize : 0 < size) (hnum : num < base ^ size) :
    (numeral base num).length ≤ size := by
  rw [numeral]
  split
  · exact hsize
  · rw [List.length_reverse, List.length_map]
    exact (Nat.digits_length_le_iff hbase num).2 hnum

/-- The digits fit into the array; the padding is checked against its size. -/
theorem printDigits_eq (hbase : 1 < base) (hbase' : base ≤ 16) (hsize : 0 < size)
    (hnum : num < base ^ size) : printDigits size num base width pad =
      if width.toInt ≤ size then some (leftPad width.toInt.toNat pad (numeral base num))
      else none := by
  have hlen := length_numeral hbase hsize hnum
  have hloop : storeDigits size num base =
      some (size - (numeral base num).length, numeral base num) := by
    rw [storeDigits, numeral]
    split
    · rfl
    · have hchars : (Nat.digits base num).map digitChar =
          (Nat.digits base num).map fun d => (cstr "0123456789abcdef").getD d 0 := by
        apply List.map_congr_left
        intro d hd
        exact digitChar_eq ((Nat.digits_lt_base hbase hd).trans_le hbase')
      rw [digitsLoop_eq hbase, if_pos ((Nat.digits_length_le_iff hbase num).2 hnum), hchars,
        List.append_nil, List.length_reverse, List.length_map]
  rw [printDigits, hloop, Option.bind_eq_bind, Option.bind_some]
  change padLoop width pad (size - (numeral base num).length) (numeral base num) = _
  rw [padLoop_eq]
  congr 1
  exact propext ⟨fun h => by omega, fun h => by omega⟩

end Numerals

/-! ## The width -/

namespace Conversion

/-- The width that the format asks for. -/
def requested (conv : Conversion) : ℕ :=
  conv.digits.foldl (fun width c => width * 10 + (c.toNat - 0x30)) 0

/-- The `int` wraps the width that is asked for. -/
theorem width_eq (conv : Conversion) : conv.width = BitVec.ofNat 32 conv.requested := by
  obtain ⟨-, digits, hdigits, -, -⟩ := conv
  have hfold : ∀ n : ℕ, digits.foldl (fun width c => width * 10 + (c.setWidth 32 - 0x30))
      (BitVec.ofNat 32 n) = BitVec.ofNat 32
        (digits.foldl (fun width c => width * 10 + (c.toNat - 0x30)) n) := by
    induction digits with
    | nil => exact fun n => rfl
    | cons c digits ih =>
      intro n
      have hc := hdigits c List.mem_cons_self
      simp only [isDigit, Bool.and_eq_true, decide_eq_true_eq, BitVec.le_def] at hc
      have hstep : BitVec.ofNat 32 n * 10 + (c.setWidth 32 - 0x30) =
          BitVec.ofNat 32 (n * 10 + (c.toNat - 0x30)) := by
        apply BitVec.eq_of_toNat_eq
        have hlt := c.isLt
        have hlow : (0x30 : Byte).toNat = 0x30 := rfl
        have hhigh : (0x39 : Byte).toNat = 0x39 := rfl
        have hten : (10 : BitVec 32).toNat = 10 := rfl
        have hlow' : (0x30 : BitVec 32).toNat = 0x30 := rfl
        rw [hlow, hhigh] at hc
        simp only [hten, hlow', BitVec.toNat_add, BitVec.toNat_mul, BitVec.toNat_ofNat,
          BitVec.toNat_sub, BitVec.toNat_setWidth]
        omega
      rw [List.foldl_cons, List.foldl_cons, hstep]
      exact ih (fun c hc => hdigits c (List.mem_cons_of_mem _ hc)) _
  exact hfold 0

/-- A width that the array has room for is not wrapped. -/
theorem toInt_width (conv : Conversion) (h : conv.requested < 2 ^ 31) :
    conv.width.toInt = conv.requested := by
  have hnat : (BitVec.ofNat 32 conv.requested).toNat = conv.requested := by
    rw [BitVec.toNat_ofNat, Nat.mod_eq_of_lt (by omega)]
  rw [width_eq, BitVec.toInt_eq_toNat_of_lt (by omega), hnat]

/-- The length of the array for a number. -/
def arraySize (conv : Conversion) : ℕ := if conv.lCount ≠ 0 then 64 else 32

/-- The base of a number. -/
def base (conv : Conversion) : ℕ := if conv.letter = some 0x75 then 10 else 16

/-- The number in an argument. -/
def value (conv : Conversion) (arg : BitVec 64) : ℕ :=
  if conv.ls = [] then (arg.setWidth 32).toNat else arg.toNat

/-- The conversion is `%u`, `%x`, `%lu` or `%lx`. -/
def IsNumber (conv : Conversion) : Prop :=
  (conv.letter = some 0x75 ∨ conv.letter = some 0x78) ∧ conv.ls.length ≤ 1

/-- What a conversion should do: it does not leave its array, and it prints a number in its base,
with the padding up to the width asked for. -/
structure Correct (conv : Conversion) (arg : BitVec 64) (printed : Except Stop (List Byte)) :
    Prop where
  inside : printed ≠ .error .index
  number : conv.IsNumber → printed =
    .ok (leftPad conv.requested conv.pad (numeral conv.base (conv.value arg)))

/-- The array has room for the width of the conversion; the sign of a number is not in the array. -/
def Fits (conv : Conversion) (arg : BitVec 64) : Prop :=
  if conv.letter = some 0x64 then
    (BitVec.ofNat 32 conv.requested).toInt ≤ if (arg.setWidth 32).toInt < 0 then 33 else 32
  else if conv.letter = some 0x75 ∨ conv.letter = some 0x78 then
    if conv.ls.length ≤ 1 then conv.requested ≤ conv.arraySize
    else (BitVec.ofNat 32 conv.requested).toInt ≤ conv.arraySize
  else True

end Conversion

/-! ## Each conversion -/

section Convert

variable {mem : Addr → Option Byte} {conv : Conversion} {arg : BitVec 64} {width num : BitVec 32}
  {pad : Byte} {base : ℕ}

theorem printUint_eq (hbase : 10 ≤ base) (hbase' : base ≤ 16) : printUint num base width pad =
    if width.toInt ≤ 32 then some (leftPad width.toInt.toNat pad (numeral base num.toNat))
    else none := by
  have hnum : num.toNat < base ^ 32 := num.isLt.trans_le (Nat.pow_le_pow_left (by omega) 32)
  exact printDigits_eq (by omega) hbase' (by decide) hnum

theorem printLong_eq (num : BitVec 64) (hbase : 10 ≤ base) (hbase' : base ≤ 16) :
    printLong num base width pad =
      if width.toInt ≤ 64 then some (leftPad width.toInt.toNat pad (numeral base num.toNat))
      else none := by
  have hnum : num.toNat < base ^ 64 := num.isLt.trans_le (Nat.pow_le_pow_left (by omega) 64)
  exact printDigits_eq (by omega) hbase' (by decide) hnum

/-- The sign of a number takes one from a positive width. -/
theorem printInt_eq_none : printInt num width pad = none ↔
    ¬ width.toInt ≤ if num.toInt < 0 then 33 else 32 := by
  rw [printInt]
  split
  · have hwidth : (if 0 < width.toInt then width - 1 else width).toInt ≤ 32 ↔
        width.toInt ≤ 33 := by
      split
      · rename_i hpos
        have hsub : (width - 1).toInt = width.toInt - 1 := by
          have hone : (1 : BitVec 32).toInt = 1 := rfl
          have hlt := @BitVec.toInt_lt 32 width
          rw [BitVec.toInt_sub, hone, Int.bmod_eq_of_le] <;> omega
        omega
      · omega
    rw [Option.map_eq_none_iff, printUint_eq (by decide) (by decide)]
    simp only [hwidth, ite_eq_right_iff, reduceCtorEq, imp_false]
  · rw [printUint_eq (by decide) (by decide)]
    simp only [ite_eq_right_iff, reduceCtorEq, imp_false]

theorem orStop_eq_error {stop stop' : Stop} {o : Option (List Byte)} :
    orStop stop o = .error stop' ↔ o = none ∧ stop = stop' := by
  cases o <;> simp [orStop]

theorem orStop_eq_ok {stop : Stop} {o : Option (List Byte)} {printed : List Byte} :
    orStop stop o = .ok printed ↔ o = some printed := by
  cases o <;> simp [orStop]

/-- The conversions of an unsigned number. -/
theorem convert_number (h : conv.letter = some 0x75 ∨ conv.letter = some 0x78) :
    convert mem conv arg = orStop .index (if conv.width.toInt ≤ conv.arraySize then
      some (leftPad conv.width.toInt.toNat conv.pad (numeral conv.base
        (if conv.lCount ≠ 0 then arg.toNat else (arg.setWidth 32).toNat))) else none) := by
  have hcall (base : ℕ) (hbase : 10 ≤ base) (hbase' : base ≤ 16) :
      (if conv.lCount ≠ 0 then printLong arg base conv.width conv.pad
        else printUint (arg.setWidth 32) base conv.width conv.pad) =
      if conv.width.toInt ≤ conv.arraySize then
        some (leftPad conv.width.toInt.toNat conv.pad (numeral base
          (if conv.lCount ≠ 0 then arg.toNat else (arg.setWidth 32).toNat))) else none := by
    by_cases hl : conv.lCount ≠ 0
    · rw [if_pos hl, if_pos hl, printLong_eq arg hbase hbase', Conversion.arraySize, if_pos hl]
      rfl
    · rw [if_neg hl, if_neg hl, printUint_eq hbase hbase', Conversion.arraySize, if_neg hl]
      rfl
  rw [convert, Conversion.base]
  obtain h | h := h
  · have hd : conv.letter ≠ some 0x64 := by
      rw [h]
      decide
    rw [if_neg hd, if_pos h, if_pos h, hcall 10 (by decide) (by decide)]
  · have hd : conv.letter ≠ some 0x64 := by
      rw [h]
      decide
    have hu : conv.letter ≠ some 0x75 := by
      rw [h]
      decide
    rw [if_neg hd, if_neg hu, if_pos h, if_neg hu, hcall 16 (by decide) (by decide)]

theorem length_leftPad (n : ℕ) (pad : Byte) (text : List Byte) :
    (leftPad n pad text).length = max n text.length := by
  rw [leftPad, List.length_append, List.length_replicate]
  omega

/-- Without more than one `l`, there is one exactly when `l_count` is not zero. -/
theorem Conversion.lCount_eq (conv : Conversion) (hls : conv.ls.length ≤ 1) :
    conv.lCount ≠ 0 ↔ conv.ls ≠ [] := by
  rw [Conversion.lCount]
  match conv.ls, hls with
  | [], _ => simp
  | [l], _ => simp

theorem Conversion.length_numeral_le (conv : Conversion) (arg : BitVec 64)
    (hls : conv.ls.length ≤ 1) :
    (numeral conv.base (conv.value arg)).length ≤ conv.arraySize := by
  have hbase : 10 ≤ conv.base := by
    rw [Conversion.base]
    split <;> decide
  rw [Conversion.arraySize, Conversion.value]
  by_cases hl : conv.ls = []
  · have hlt := (arg.setWidth 32).isLt.trans_le (Nat.pow_le_pow_left (by omega : 2 ≤ conv.base) 32)
    rw [if_pos hl, if_neg fun h => (conv.lCount_eq hls).1 h hl]
    exact length_numeral (by omega) (by decide) hlt
  · have hlt := arg.isLt.trans_le (Nat.pow_le_pow_left (by omega : 2 ≤ conv.base) 64)
    rw [if_neg hl, if_pos ((conv.lCount_eq hls).2 hl)]
    exact length_numeral (by omega) (by decide) hlt

/-- An unsigned number is printed right exactly when its width fits. -/
theorem correct_number_iff (h : conv.letter = some 0x75 ∨ conv.letter = some 0x78) :
    conv.Correct arg (convert mem conv arg) ↔ if conv.ls.length ≤ 1 then
      conv.requested ≤ conv.arraySize
      else (BitVec.ofNat 32 conv.requested).toInt ≤ conv.arraySize := by
  rw [convert_number h, ← conv.width_eq]
  have hinside (printed : List Byte) : orStop .index (if conv.width.toInt ≤ conv.arraySize then
      some printed else none) ≠ .error .index ↔ conv.width.toInt ≤ conv.arraySize := by
    rw [Ne, orStop_eq_error]
    simp only [and_true, ite_eq_right_iff, reduceCtorEq, imp_false, not_not]
  by_cases hls : conv.ls.length ≤ 1
  · have hvalue : (if conv.lCount ≠ 0 then arg.toNat else (arg.setWidth 32).toNat) =
        conv.value arg := by
      rw [Conversion.value]
      by_cases hl : conv.ls = []
      · rw [if_pos hl, if_neg fun h => (conv.lCount_eq hls).1 h hl]
      · rw [if_neg hl, if_pos ((conv.lCount_eq hls).2 hl)]
    have hsmall := conv.length_numeral_le arg hls
    have harray : conv.arraySize ≤ 64 := by
      rw [Conversion.arraySize]
      split <;> decide
    rw [hvalue, if_pos hls]
    constructor
    · intro hcorrect
      have hle := (hinside _).1 hcorrect.inside
      have hnumber := hcorrect.number ⟨h, hls⟩
      rw [orStop_eq_ok, if_pos hle, Option.some.injEq] at hnumber
      have hlength := congrArg List.length hnumber
      rw [length_leftPad, length_leftPad] at hlength
      omega
    · intro hle
      have hwidth := conv.toInt_width (by omega)
      constructor
      · exact (hinside _).2 (by omega)
      · intro _
        rw [orStop_eq_ok, if_pos (by omega), hwidth]
        rfl
  · rw [if_neg hls]
    constructor
    · exact fun hcorrect => (hinside _).1 hcorrect.inside
    · exact fun hle => ⟨(hinside _).2 hle, fun hnumber => absurd hnumber.2 hls⟩

/-- The conversion does not print a string that cannot be read. -/
def Readable (mem : Addr → Option Byte) (x : Conversion × BitVec 64) : Bool :=
  x.1.letter ≠ some 0x73 || x.2 = 0 || (puts mem x.2).isSome

theorem readable_of_ne {x : Conversion × BitVec 64} (h : x.1.letter ≠ some 0x73) :
    Readable mem x := by
  rw [Readable, decide_eq_true h]
  rfl

theorem readable_string {x : Conversion × BitVec 64} (h : x.1.letter = some 0x73) :
    Readable mem x ↔ x.2 = 0 ∨ (puts mem x.2).isSome := by
  rw [Readable, decide_eq_false (not_not.2 h), Bool.false_or, Bool.or_eq_true, decide_eq_true_eq]

theorem exists_orStop_eq_ok {stop : Stop} {o : Option (List Byte)} :
    (∃ printed, orStop stop o = .ok printed) ↔ o.isSome := by
  cases o <;> simp [orStop]

/-- A conversion that is not of a number in the array stops at a string only. -/
theorem convert_other (hd : conv.letter ≠ some 0x64)
    (h : ¬ (conv.letter = some 0x75 ∨ conv.letter = some 0x78)) :
    convert mem conv arg ≠ .error .index ∧
      (Readable mem (conv, arg) ↔ ∃ printed, convert mem conv arg = .ok printed) := by
  rw [not_or] at h
  rw [convert, if_neg hd, if_neg h.1, if_neg h.2]
  by_cases hs : conv.letter = some 0x73
  · rw [if_pos hs, readable_string hs]
    by_cases harg : arg = 0
    · rw [if_pos harg]
      exact ⟨nofun, iff_of_true (.inl harg) ⟨_, rfl⟩⟩
    · rw [if_neg harg, Ne, orStop_eq_error, exists_orStop_eq_ok]
      exact ⟨fun h => (nomatch h.2), or_iff_right harg⟩
  · have hread : Readable mem (conv, arg) := readable_of_ne hs
    have hok : ∃ printed, (if conv.letter = some 0x63 then .ok [arg.setWidth 8]
        else if conv.letter = some 0x70 then
          orStop .index ((printLong arg 16 0 0x20).map (cstr "0x" ++ ·))
        else .ok (0x25 :: conv.letter.toList)) = Except.ok printed := by
      split
      · exact ⟨_, rfl⟩
      · split
        · rw [printLong_eq arg (by decide) (by decide), if_pos (by decide)]
          exact ⟨_, rfl⟩
        · exact ⟨_, rfl⟩
    obtain ⟨printed, hprinted⟩ := hok
    rw [if_neg hs, hprinted]
    exact ⟨nofun, iff_of_true hread ⟨printed, rfl⟩⟩

/-- A conversion does what it should exactly when its width fits. -/
theorem correct_convert_iff : conv.Correct arg (convert mem conv arg) ↔ conv.Fits arg := by
  rw [Conversion.Fits]
  by_cases hd : conv.letter = some 0x64
  · have hnone : ¬ conv.IsNumber := by
      rintro ⟨h | h, -⟩ <;> cases hd.symm.trans h
    have hprint := @printInt_eq_none conv.width (arg.setWidth 32) conv.pad
    rw [if_pos hd, ← conv.width_eq, ← not_iff_not, ← hprint, convert, if_pos hd]
    constructor
    · intro hnot
      by_contra hsome
      apply hnot
      constructor
      · exact fun herr => hsome (orStop_eq_error.1 herr).1
      · exact fun h => absurd h hnone
    · exact fun h hcorrect => hcorrect.inside (orStop_eq_error.2 ⟨h, rfl⟩)
  · rw [if_neg hd]
    split
    · rename_i h
      exact correct_number_iff h
    · rename_i h
      apply iff_of_true _ trivial
      constructor
      · exact (convert_other hd h).1
      · exact fun hnumber => absurd hnumber.1 h

/-- A conversion whose width fits stops at a string only. -/
theorem readable_iff_of_fits (h : conv.Fits arg) :
    Readable mem (conv, arg) ↔ ∃ printed, convert mem conv arg = .ok printed := by
  have hcorrect : conv.Correct arg (convert mem conv arg) := correct_convert_iff.2 h
  by_cases hnumeric : conv.letter = some 0x64 ∨ conv.letter = some 0x75 ∨ conv.letter = some 0x78
  · have hstop : ∃ o, convert mem conv arg = orStop .index o := by
      rw [convert]
      obtain hd | hu | hx := hnumeric
      · exact ⟨_, if_pos hd⟩
      · exact ⟨_, (if_neg (by rw [hu]; decide)).trans (if_pos hu)⟩
      · exact ⟨_, (if_neg (by rw [hx]; decide)).trans
          ((if_neg (by rw [hx]; decide)).trans (if_pos hx))⟩
    obtain ⟨o, ho⟩ := hstop
    have hletter : conv.letter ≠ some 0x73 := by
      rintro hs
      rw [hs] at hnumeric
      exact absurd hnumeric (by decide)
    have hinside := hcorrect.inside
    rw [ho, exists_orStop_eq_ok]
    rw [ho, Ne, orStop_eq_error, not_and_or, ← Ne, Option.ne_none_iff_isSome] at hinside
    exact iff_of_true (readable_of_ne hletter) (hinside.resolve_right (not_not.2 rfl))
  · rw [not_or] at hnumeric
    exact (convert_other hnumeric.1 hnumeric.2).2

theorem fits_of_not_readable {x : Conversion × BitVec 64} (h : ¬ Readable mem x) :
    x.1.Fits x.2 := by
  have hs : x.1.letter = some 0x73 := by
    by_contra hs
    exact h (readable_of_ne hs)
  rw [Conversion.Fits, if_neg (by rw [hs]; decide), if_neg (by rw [hs]; decide)]
  trivial

end Convert

/-! ## The whole format -/

/-- The conversions of a format, within `n` rounds. -/
def conversionsLoop : ℕ → List Byte → List Conversion
  | 0, _ => []
  | _ + 1, [] => []
  | n + 1, c :: p =>
    if c = 0x25 then
      if p.head? = some 0x25 then conversionsLoop n p.tail
      else (readConversion p).1 :: conversionsLoop n (readConversion p).2
    else conversionsLoop n p

/-- The conversions with the arguments that they take, from the `k`-th one on. -/
def withArgs (args : ℕ → BitVec 64) : ℕ → List Conversion → List (Conversion × BitVec 64)
  | _, [] => []
  | k, conv :: convs =>
    (conv, args k) :: withArgs args (if conv.takesArg then k + 1 else k) convs

/-- The conversions of the format up to the first string that cannot be read. -/
def reached (mem : Addr → Option Byte) (fmt : List Byte) (args : ℕ → BitVec 64) :
    List (Conversion × BitVec 64) :=
  reachedBy (Readable mem) (withArgs args 0 (conversionsLoop fmt.length fmt))

/-- The conversion among what `printf` does, with its result. -/
def Item.result? : Item → Option ((Conversion × BitVec 64) × Except Stop (List Byte))
  | .byte _ => none
  | .conversion conv arg printed => some ((conv, arg), printed)

theorem printfLoop_results (mem : Addr → Option Byte) (args : ℕ → BitVec 64) (n : ℕ)
    (fmt : List Byte) (k : ℕ) : (printfLoop mem args n fmt k).filterMap Item.result? =
      runUntil (fun x => convert mem x.1 x.2) (withArgs args k (conversionsLoop n fmt)) := by
  induction n generalizing fmt k with
  | zero => rfl
  | succ n ih =>
    cases fmt with
    | nil => rfl
    | cons c p =>
      rw [printfLoop, conversionsLoop]
      split
      · split
        · exact ih p.tail k
        · dsimp only
          rw [withArgs, runUntil]
          cases hconv : convert mem (readConversion p).1 (args k) with
          | error stop => rfl
          | ok printed => exact congrArg _ (ih _ _)
      · exact ih p k

/-- `printf` does for the format what it should: it comes to the conversions up to the first string
that cannot be read, and each of them is correct. -/
structure Prints (mem : Addr → Option Byte) (fmt : List Byte) (args : ℕ → BitVec 64) : Prop where
  conversions : ((printf mem fmt args).filterMap Item.result?).map Prod.fst = reached mem fmt args
  correct : ∀ conv arg printed, .conversion conv arg printed ∈ printf mem fmt args →
    conv.Correct arg printed

/-- **Formatted output.** `printf` does what it should exactly when the width of each conversion up
to the first string that cannot be read fits the array. -/
theorem printf_prints_iff (mem : Addr → Option Byte) (fmt : List Byte) (args : ℕ → BitVec 64) :
    Prints mem fmt args ↔ ∀ x ∈ reached mem fmt args, x.1.Fits x.2 := by
  have hresults := printfLoop_results mem args fmt.length fmt 0
  have hok (x : Conversion × BitVec 64) (hx : x.1.Fits x.2) :
      Readable mem x ↔ ∃ printed, convert mem x.1 x.2 = .ok printed := readable_iff_of_fits hx
  have hall := @forall_runUntil_iff _ _ _ (fun x => convert mem x.1 x.2) (Readable mem)
    (fun x => x.1.Fits x.2) (fun x printed => x.1.Correct x.2 printed)
    (withArgs args 0 (conversionsLoop fmt.length fmt)) (fun _ => correct_convert_iff) hok
    fun _ => fits_of_not_readable
  rw [← hresults] at hall
  constructor
  · intro h
    apply hall.1
    intro x hx
    obtain ⟨item, hitem, hresult⟩ := List.mem_filterMap.1 hx
    cases item with
    | byte c => cases hresult
    | conversion conv arg printed =>
      cases hresult
      exact h.correct conv arg printed hitem
  · intro h
    constructor
    · exact (congrArg _ hresults).trans (map_fst_runUntil hok h)
    · intro conv arg printed hitem
      exact hall.2 h ((conv, arg), printed) (List.mem_filterMap.2 ⟨_, hitem, rfl⟩)

/-- A line that the shell prints as a format. -/
theorem not_printf_prints : ¬ ∀ (mem : Addr → Option Byte) (fmt : List Byte)
    (args : ℕ → BitVec 64), Prints mem fmt args := by
  intro h
  have hitem : Item.conversion ⟨false, cstr "33", by decide, [], some 0x75⟩ 0 (.error .index) ∈
      printf (fun _ => none) (cstr "%33u") fun _ => 0 := by decide
  exact ((h _ _ _).correct _ _ _ hitem).inside rfl

end BareMetalOS.Serial
