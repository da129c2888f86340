import Mathlib.Data.Nat.Bitwise
import Mathlib.Data.Set.Basic
import Mathlib.Tactic
import Mathlib.Order.CompletePartialOrder

/-!
# Masks, alignment and byte ranges of 64-bit words

The bit tricks of a page-granular program, read as arithmetic on naturals: a mask with
`2 ^ k - 1` is a remainder (`toNat_and_mask`), a mask with its complement rounds down
(`toNat_and_not_mask`). `bytesAt p n` is the set of the `n` addresses from `p` on, with the
wrap-around of pointer arithmetic; two ranges at distances below `2 ^ 64` from one base are disjoint
when the distances are (`disjoint_bytesAt`).
-/

namespace BareMetalOS

variable {w k : ℕ}

theorem toNat_mask (hk : k ≤ w) : (BitVec.ofNat w (2 ^ k - 1)).toNat = 2 ^ k - 1 := by
  have h₁ := Nat.two_pow_pos k
  have h₂ : 2 ^ k ≤ 2 ^ w := Nat.pow_le_pow_right (by omega) hk
  rw [BitVec.toNat_ofNat, Nat.mod_eq_of_lt (by omega)]

theorem toNat_and_mask (x : BitVec w) (hk : k ≤ w) :
    (x &&& BitVec.ofNat w (2 ^ k - 1)).toNat = x.toNat % 2 ^ k := by
  rw [BitVec.toNat_and, toNat_mask hk, Nat.and_two_pow_sub_one_eq_mod]

theorem and_not_mask (x : BitVec w) (hk : k ≤ w) :
    x &&& ~~~BitVec.ofNat w (2 ^ k - 1) = x >>> k <<< k := by
  ext i hi
  have hm : (BitVec.ofNat w (2 ^ k - 1))[i] = decide (i < k) := by
    rw [BitVec.getElem_eq_testBit_toNat, toNat_mask hk, Nat.testBit_two_pow_sub_one]
  simp only [BitVec.getElem_and, BitVec.getElem_not, hm, BitVec.getElem_shiftLeft]
  by_cases hik : i < k
  · simp [hik]
  · simp [hik, show k + (i - k) = i by omega, BitVec.getLsbD_eq_getElem hi]

theorem toNat_and_not_mask (x : BitVec w) (hk : k ≤ w) :
    (x &&& ~~~BitVec.ofNat w (2 ^ k - 1)).toNat = x.toNat - x.toNat % 2 ^ k := by
  have hx := x.isLt
  have hdm := Nat.div_add_mod x.toNat (2 ^ k)
  have hcomm := Nat.mul_comm (2 ^ k) (x.toNat / 2 ^ k)
  rw [and_not_mask x hk, BitVec.toNat_shiftLeft, BitVec.toNat_ushiftRight,
    Nat.shiftRight_eq_div_pow, Nat.shiftLeft_eq, Nat.mod_eq_of_lt (by omega)]
  omega

/-! ## Ranges of addresses -/

/-- The `n` addresses from `p` on. -/
def bytesAt (p : BitVec w) (n : ℕ) : Set (BitVec w) := {a | ∃ i < n, a = p + BitVec.ofNat w i}

theorem add_ofNat_inj {p : BitVec w} {i j : ℕ} (hi : i < 2 ^ w) (hj : j < 2 ^ w) :
    p + BitVec.ofNat w i = p + BitVec.ofNat w j ↔ i = j := by
  constructor
  · intro h
    have h' : BitVec.ofNat w i = BitVec.ofNat w j := by
      simpa using congrArg (fun x => x - p) h
    have := congrArg BitVec.toNat h'
    rwa [BitVec.toNat_ofNat, BitVec.toNat_ofNat, Nat.mod_eq_of_lt hi, Nat.mod_eq_of_lt hj] at this
  · rintro rfl
    rfl

theorem add_ofNat_succ (p : BitVec w) (n : ℕ) :
    p + BitVec.ofNat w (n + 1) = p + 1 + BitVec.ofNat w n := by
  rw [BitVec.add_assoc, Nat.add_comm, BitVec.ofNat_add]
  rfl

/-- The first address of a range, and the others. -/
theorem mem_bytesAt_succ {p a : BitVec w} {n : ℕ} :
    a ∈ bytesAt p (n + 1) ↔ a = p ∨ a ∈ bytesAt (p + 1) n := by
  constructor
  · rintro ⟨i, hi, rfl⟩
    cases i with
    | zero => exact .inl (BitVec.add_zero p)
    | succ i => exact .inr ⟨i, by omega, add_ofNat_succ p i⟩
  · rintro (rfl | ⟨i, hi, rfl⟩)
    · exact ⟨0, Nat.succ_pos n, (BitVec.add_zero a).symm⟩
    · exact ⟨i + 1, by omega, (add_ofNat_succ p i).symm⟩

theorem notMem_bytesAt_succ {p : BitVec w} {n : ℕ} (h : n < 2 ^ w) : p ∉ bytesAt (p + 1) n := by
  rintro ⟨i, hi, heq⟩
  have hzero : p + BitVec.ofNat w 0 = p + BitVec.ofNat w (i + 1) := by
    rw [add_ofNat_succ, ← heq]
    exact BitVec.add_zero p
  exact absurd ((add_ofNat_inj (by omega) (by omega)).1 hzero) (by omega)

theorem add_mem_bytesAt {p i : BitVec w} {n : ℕ} : p + i ∈ bytesAt p n ↔ i.toNat < n := by
  constructor
  · rintro ⟨j, hj, heq⟩
    obtain rfl : i = BitVec.ofNat w j := by
      simpa using congrArg (fun x => x - p) heq
    rw [BitVec.toNat_ofNat]
    exact (Nat.mod_le _ _).trans_lt hj
  · intro h
    exact ⟨i.toNat, h, by rw [BitVec.ofNat_toNat, BitVec.setWidth_eq]⟩

theorem mem_bytesAt_add {p a : BitVec w} {o n : ℕ} :
    a ∈ bytesAt (p + BitVec.ofNat w o) n ↔ ∃ i, o ≤ i ∧ i < o + n ∧ a = p + BitVec.ofNat w i := by
  constructor
  · rintro ⟨i, hi, rfl⟩
    refine ⟨o + i, by omega, by omega, ?_⟩
    rw [BitVec.add_assoc, ← BitVec.ofNat_add]
  · rintro ⟨i, hi₁, hi₂, rfl⟩
    refine ⟨i - o, by omega, ?_⟩
    rw [BitVec.add_assoc, ← BitVec.ofNat_add, show o + (i - o) = i by omega]

/-- Ranges at disjoint distances from one base are disjoint. -/
theorem disjoint_bytesAt {p : BitVec w} {o n o' n' : ℕ} (h : o + n ≤ 2 ^ w) (h' : o' + n' ≤ 2 ^ w)
    (hd : o + n ≤ o' ∨ o' + n' ≤ o) :
    Disjoint (bytesAt (p + BitVec.ofNat w o) n) (bytesAt (p + BitVec.ofNat w o') n') := by
  rw [Set.disjoint_left]
  intro a ha ha'
  obtain ⟨i, hi₁, hi₂, rfl⟩ := mem_bytesAt_add.1 ha
  obtain ⟨j, hj₁, hj₂, hij⟩ := mem_bytesAt_add.1 ha'
  rw [add_ofNat_inj (by omega) (by omega)] at hij
  omega

/-- A range at a distance inside another one is contained in it. -/
theorem bytesAt_subset {p : BitVec w} {o n m : ℕ} (h : o + n ≤ m) :
    bytesAt (p + BitVec.ofNat w o) n ⊆ bytesAt p m := by
  intro a ha
  obtain ⟨i, -, hi, rfl⟩ := mem_bytesAt_add.1 ha
  exact ⟨i, by omega, rfl⟩

end BareMetalOS
