import BareMetalOS.Foundations.Words

/-!
# Numbers in a memory of bytes

A memory gives a byte to each address. `load` reads `n` bytes as a number, least significant byte
first, and `store` writes one. A stored number is read back (`load_store`); a store leaves the
numbers alone whose bytes it does not touch (`load_store_of_disjoint`).
-/

namespace BareMetalOS

/-- A memory of bytes. -/
structure ByteMemory (w : ℕ) where
  byte : BitVec w → BitVec 8

namespace ByteMemory

variable {w n n' v : ℕ} {a a' b : BitVec w} {m m' : ByteMemory w}

/-- The number in the `n` bytes from `a` on. -/
def load (m : ByteMemory w) (a : BitVec w) : ℕ → ℕ
  | 0 => 0
  | n + 1 => (m.byte a).toNat + 256 * m.load (a + 1) n

/-- Write a number to the `n` bytes from `a` on. -/
def store (m : ByteMemory w) (a : BitVec w) (n v : ℕ) : ByteMemory w where
  byte b := if (b - a).toNat < n then BitVec.ofNat 8 (v / 256 ^ (b - a).toNat) else m.byte b

theorem mem_bytesAt_iff (hn : n ≤ 2 ^ w) : b ∈ bytesAt a n ↔ (b - a).toNat < n := by
  constructor
  · rintro ⟨i, hi, rfl⟩
    rw [BitVec.add_comm, BitVec.add_sub_cancel, BitVec.toNat_ofNat, Nat.mod_eq_of_lt (by omega)]
    exact hi
  · refine fun h => ⟨(b - a).toNat, h, ?_⟩
    rw [BitVec.ofNat_toNat, BitVec.setWidth_eq, BitVec.add_comm, BitVec.sub_add_cancel]

theorem store_of_notMem (hn : n ≤ 2 ^ w) (h : b ∉ bytesAt a n) :
    (m.store a n v).byte b = m.byte b := by
  rw [mem_bytesAt_iff hn] at h
  exact if_neg h

theorem load_congr (h : ∀ b ∈ bytesAt a n, m.byte b = m'.byte b) : m.load a n = m'.load a n := by
  induction n generalizing a with
  | zero => rfl
  | succ n ih =>
    rw [load, load, h a (mem_bytesAt_succ.2 (.inl rfl)),
      ih fun b hb => h b (mem_bytesAt_succ.2 (.inr hb))]

theorem load_store_of_disjoint (hn' : n' ≤ 2 ^ w) (h : Disjoint (bytesAt a n) (bytesAt a' n')) :
    (m.store a' n' v).load a n = m.load a n :=
  load_congr fun _ hb => store_of_notMem hn' (Set.disjoint_left.1 h hb)

/-- The digits of a number to base 256. -/
theorem load_digits (hn : ∀ i < n, m.byte (a + BitVec.ofNat w i) = BitVec.ofNat 8 (v / 256 ^ i)) :
    m.load a n = v % 256 ^ n := by
  induction n generalizing a v with
  | zero => rw [load, pow_zero, Nat.mod_one]
  | succ n ih =>
    have hfirst := hn 0 (Nat.succ_pos n)
    rw [BitVec.add_zero, pow_zero, Nat.div_one] at hfirst
    have hrest : m.load (a + 1) n = v / 256 % 256 ^ n := ih fun i hi => by
      rw [← add_ofNat_succ, hn (i + 1) (by omega), Nat.div_div_eq_div_mul, pow_succ']
    rw [load, hfirst, hrest, BitVec.toNat_ofNat, pow_succ' 256 n, Nat.mod_mul]

theorem load_store (hn : n ≤ 2 ^ w) : (m.store a n v).load a n = v % 256 ^ n := by
  refine load_digits fun i hi => ?_
  have hsub : (a + BitVec.ofNat w i - a).toNat = i := by
    rw [BitVec.add_comm, BitVec.add_sub_cancel, BitVec.toNat_ofNat, Nat.mod_eq_of_lt (by omega)]
  simp only [store]
  rw [hsub, if_pos hi]

end ByteMemory

end BareMetalOS
