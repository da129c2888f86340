import BareMetalOS.Files.Archive
import BareMetalOS.Memory.Region

/-!
# Loading a kernel over the serial port

`send_kernel` of `send_kernel.py` writes a magic number, the size and the bytes of the kernel, and
`load_kernel` of `bootloader/main.c` reads them. Its synchronisation takes the input in pieces of
four bytes, so that it meets the header exactly when the bytes before it are a multiple of four
(`receives_iff`).
-/

namespace BareMetalOS.Serial

open Boot (Byte)
open Files (Bytes)
open Memory (Addr Board)

/-! ## The sender -/

/-- The magic number. -/
def magicNumber : ℕ := 0x544F4F42

/-- `struct.pack('<I', n)` -/
def packLe (n : ℕ) : List Byte :=
  [BitVec.ofNat 8 n, BitVec.ofNat 8 (n / 2 ^ 8), BitVec.ofNat 8 (n / 2 ^ 16),
    BitVec.ofNat 8 (n / 2 ^ 24)]

/-- What `send_kernel` writes. -/
def sendKernel (kernel : List Byte) : List Byte :=
  packLe magicNumber ++ packLe kernel.length ++ kernel

/-! ## The receiver -/

/-- The number that four bytes are shifted and combined to. -/
def combine (a b c d : Byte) : BitVec 64 :=
  a.setWidth 64 ||| b.setWidth 64 <<< 8 ||| c.setWidth 64 <<< 16 ||| d.setWidth 64 <<< 24

/-- The size in four calls of `uart_getc_raw`, and the rest of the input. -/
def readSize : List Byte → Option (BitVec 64 × List Byte)
  | a :: b :: c :: d :: input => some (combine a b c d, input)
  | _ => none

/-- The synchronisation loop of `load_kernel`: the rest of the input after it; `none` while it waits
for more. -/
def syncLoop : List Byte → Option (List Byte)
  | a :: b :: c :: d :: input =>
    if combine a b c d = BitVec.ofNat 64 magicNumber then some input else syncLoop input
  | _ => none

/-- `for (i = 0; i < size; i++) target[i] = uart_getc_raw();` from the address on. -/
def storeLoop : ℕ → Addr → Bytes → List Byte → Option (Bytes × List Byte)
  | 0, _, mem, input => some (mem, input)
  | n + 1, target, mem, c :: input => storeLoop n (target + 1) (Function.update mem target c) input
  | _ + 1, _, _, [] => none

/-- `KERNEL_LOAD_ADDR` -/
def kernelLoadAddr : Board → Addr
  | .qemu => 0x80200000
  | .orangePi => 0x00200000

/-- `load_kernel` up to the jump: the size, the memory and the input left. -/
def loadKernel (board : Board) (mem : Bytes) (input : List Byte) :
    Option (BitVec 64 × Bytes × List Byte) := do
  let input ← syncLoop input
  let (size, input) ← readSize input
  let (mem, input) ← storeLoop size.toNat (kernelLoadAddr board) mem input
  return (size, mem, input)

/-! ## Numbers of four bytes -/

theorem combine_packLe {n : ℕ} (h : n < 2 ^ 32) :
    combine (BitVec.ofNat 8 n) (BitVec.ofNat 8 (n / 2 ^ 8)) (BitVec.ofNat 8 (n / 2 ^ 16))
      (BitVec.ofNat 8 (n / 2 ^ 24)) = BitVec.ofNat 64 n := by
  apply BitVec.eq_of_getLsbD_eq
  intro i hi
  have hhigh : 32 ≤ i → n.testBit i = false := fun hle =>
    Nat.testBit_lt_two_pow (h.trans_le (Nat.pow_le_pow_right (by omega) hle))
  simp only [combine, BitVec.getLsbD_or, BitVec.getLsbD_shiftLeft, BitVec.getLsbD_setWidth,
    BitVec.getLsbD_ofNat, Nat.testBit_div_two_pow, hi]
  obtain h₁ | h₁ | h₁ | h₁ | h₁ : i < 8 ∨ (8 ≤ i ∧ i < 16) ∨ (16 ≤ i ∧ i < 24) ∨
    (24 ≤ i ∧ i < 32) ∨ 32 ≤ i := by omega
  all_goals grind

theorem combine_inj {a b c d a' b' c' d' : Byte} (h : combine a b c d = combine a' b' c' d') :
    a = a' ∧ b = b' ∧ c = c' ∧ d = d' := by
  have hbit : ∀ i < 64, (combine a b c d).getLsbD i = (combine a' b' c' d').getLsbD i :=
    fun i _ => by rw [h]
  simp only [combine, BitVec.getLsbD_or, BitVec.getLsbD_shiftLeft, BitVec.getLsbD_setWidth] at hbit
  have hfst (x : Byte) (i : ℕ) (hi : 8 ≤ i) : x.getLsbD i = false := BitVec.getLsbD_of_ge x i hi
  constructorm* _ ∧ _
  all_goals
    apply BitVec.eq_of_getLsbD_eq
    intro i hi
  · have := hbit i (by omega)
    grind
  · have := hbit (i + 8) (by omega)
    grind
  · have := hbit (i + 16) (by omega)
    grind
  · have := hbit (i + 24) (by omega)
    grind

/-! ## The store loop -/

/-- The loop stores the bytes from the address on, and nothing else. -/
theorem storeLoop_eq (k rest : List Byte) (target : Addr) (mem : Bytes)
    (hlen : k.length ≤ 2 ^ 64) :
    ∃ mem', storeLoop k.length target mem (k ++ rest) = some (mem', rest) ∧
      Files.HoldsAt mem' target k ∧ ∀ x ∉ bytesAt target k.length, mem' x = mem x := by
  induction k generalizing target mem with
  | nil => exact ⟨mem, rfl, trivial, fun _ _ => rfl⟩
  | cons c k ih =>
    rw [List.length_cons] at hlen
    obtain ⟨mem', hloop, hholds, hframe⟩ := ih (target + 1) (Function.update mem target c)
      (by omega)
    apply Exists.intro mem'
    constructor
    · exact hloop
    constructor
    · -- the later bytes are at other addresses
      have hnot : target ∉ bytesAt (target + 1) k.length := notMem_bytesAt_succ (by omega)
      exact ⟨(hframe target hnot).trans (Function.update_self _ _ _), hholds⟩
    · intro x hx
      rw [List.length_cons, mem_bytesAt_succ, not_or] at hx
      rw [hframe x hx.2, Function.update_of_ne hx.1]

/-! ## Synchronisation -/

variable {g k input rest : List Byte}

/-- Four bytes combine to the magic number exactly when they are its bytes. -/
theorem combine_eq_magic {a b c d : Byte} :
    combine a b c d = BitVec.ofNat 64 magicNumber ↔ [a, b, c, d] = packLe magicNumber := by
  rw [← combine_packLe (by decide : magicNumber < 2 ^ 32)]
  constructor
  · intro h
    obtain ⟨rfl, rfl, rfl, rfl⟩ := combine_inj h
    rfl
  · intro h
    simp only [packLe, List.cons.injEq, and_true] at h
    obtain ⟨rfl, rfl, rfl, rfl⟩ := h
    rfl

/-- The loop takes its input in pieces of four bytes. -/
theorem syncLoop_length (h : syncLoop input = some rest) :
    ∃ m, input.length = 4 * (m + 1) + rest.length := by
  fun_induction syncLoop input with
  | case1 a b c d input heq =>
    cases h
    exact ⟨0, by simp only [List.length_cons]; omega⟩
  | case2 a b c d input heq ih =>
    obtain ⟨m, hm⟩ := ih h
    exact ⟨m + 1, by simp only [List.length_cons, hm]; omega⟩
  | case3 => cases h

/-- The magic number comes for the first time behind `g`. -/
def FirstMagicAt (g input : List Byte) : Prop :=
  packLe magicNumber <+: input.drop g.length ∧
    ∀ i < g.length, ¬ packLe magicNumber <+: input.drop i

/-- Behind a multiple of four bytes, the loop leaves at the first magic number. -/
theorem syncLoop_eq (m : ℕ) (hlen : g.length = 4 * m)
    (hfirst : ∀ i < g.length, ¬ packLe magicNumber <+: (g ++ packLe magicNumber ++ rest).drop i) :
    syncLoop (g ++ packLe magicNumber ++ rest) = some rest := by
  induction m generalizing g with
  | zero =>
    rw [List.length_eq_zero_iff.1 hlen]
    exact if_pos (combine_eq_magic.2 rfl)
  | succ m ih =>
    obtain ⟨a, b, c, d, g, rfl⟩ : ∃ a b c d g', g = a :: b :: c :: d :: g' := by
      match g, hlen with
      | a :: b :: c :: d :: g', _ => exact ⟨a, b, c, d, g', rfl⟩
    simp only [List.length_cons] at hlen hfirst
    have hne : combine a b c d ≠ BitVec.ofNat 64 magicNumber := by
      intro heq
      apply hfirst 0 (by omega)
      exact ⟨g ++ packLe magicNumber ++ rest, congrArg (· ++ (g ++ packLe magicNumber ++ rest))
        (combine_eq_magic.1 heq).symm⟩
    simp only [List.cons_append, syncLoop, if_neg hne]
    apply ih (by omega)
    intro i hi
    exact hfirst (i + 4) (by omega)

/-- Behind `g`, the kernel is received: the loop leaves at its header, and its bytes are stored at
`KERNEL_LOAD_ADDR`, and nothing else. -/
structure Receives (board : Board) (mem : Bytes) (g k : List Byte) : Prop where
  sync : syncLoop (g ++ sendKernel k) = some (packLe k.length ++ k)
  load : ∃ mem', loadKernel board mem (g ++ sendKernel k) =
      some (BitVec.ofNat 64 k.length, mem', []) ∧
    Files.HoldsAt mem' (kernelLoadAddr board) k ∧
    ∀ x ∉ bytesAt (kernelLoadAddr board) k.length, mem' x = mem x

/-- **Loading.** The bootloader receives the kernel exactly when the bytes before its header are a
multiple of four. -/
theorem receives_iff (board : Board) (mem : Bytes) (g k : List Byte) (hk : k.length < 2 ^ 32)
    (hg : FirstMagicAt g (g ++ sendKernel k)) : Receives board mem g k ↔ 4 ∣ g.length := by
  have hsend : g ++ sendKernel k = g ++ packLe magicNumber ++ (packLe k.length ++ k) := by
    simp only [sendKernel, List.append_assoc]
  constructor
  · intro h
    obtain ⟨m, hm⟩ := syncLoop_length h.sync
    have hmagic : (packLe magicNumber).length = 4 := rfl
    rw [hsend, List.length_append, List.length_append, hmagic] at hm
    exact ⟨m, by omega⟩
  · rintro ⟨m, hm⟩
    have hsync : syncLoop (g ++ sendKernel k) = some (packLe k.length ++ k) := by
      rw [hsend] at hg ⊢
      exact syncLoop_eq m hm hg.2
    have hsize : readSize (packLe k.length ++ k) = some (BitVec.ofNat 64 k.length, k) :=
      congrArg (fun size => some (size, k)) (combine_packLe hk)
    obtain ⟨mem', hstore, hholds, hframe⟩ :=
      storeLoop_eq k [] (kernelLoadAddr board) mem (by omega)
    rw [List.append_nil] at hstore
    have htoNat : (BitVec.ofNat 64 k.length).toNat = k.length := by
      rw [BitVec.toNat_ofNat, Nat.mod_eq_of_lt (by omega)]
    apply Receives.mk hsync
    apply Exists.intro mem'
    constructor
    · rw [loadKernel, hsync]
      simp only [Option.bind_eq_bind, Option.bind_some, hsize, htoNat, hstore]
      rfl
    · exact ⟨hholds, hframe⟩

/-- Four left-over newlines do no harm. -/
theorem receives_newlines :
    Receives .qemu (fun _ => 0) [10, 10, 10, 10] [0x13, 0, 0, 0] :=
  (receives_iff .qemu (fun _ => 0) [10, 10, 10, 10] [0x13, 0, 0, 0] (by decide)
    ⟨by decide, by decide⟩).2 (by decide)

/-- One left-over newline, and the header is not seen. -/
theorem not_receives_newline : ¬ ∀ (board : Board) (mem : Bytes) (g k : List Byte),
    k.length < 2 ^ 32 → FirstMagicAt g (g ++ sendKernel k) → Receives board mem g k := by
  intro h
  have hreceives := h .qemu (fun _ => 0) [10] [0x13, 0, 0, 0] (by decide) ⟨by decide, by decide⟩
  have hnone : syncLoop ([10] ++ sendKernel [0x13, 0, 0, 0]) = none := by decide
  cases hnone.symm.trans hreceives.sync

end BareMetalOS.Serial
