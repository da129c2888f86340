import BareMetalOS.Foundations.Loops

/-!
# Dyadic decompositions

A set of naturals can be cut into aligned blocks whose lengths are powers of two. If the orders are
bounded and no two buddies are both blocks, then there is only one way to do so: the blocks are the
largest aligned ones that fit (`Dyadic.unique`).
-/

namespace BareMetalOS

/-- The set `F` is the disjoint union of the blocks `[a, a + 2 ^ k)` with `B k a`. They are aligned,
their orders are at most `m`, and two buddies are not both blocks. -/
structure Dyadic (m : ℕ) (F : ℕ → Prop) (B : ℕ → ℕ → Prop) : Prop where
  le : ∀ {k a}, B k a → k ≤ m
  dvd : ∀ {k a}, B k a → 2 ^ k ∣ a
  sub : ∀ {k a p}, B k a → a ≤ p → p < a + 2 ^ k → F p
  cover : ∀ {p}, F p → ∃ k a, B k a ∧ a ≤ p ∧ p < a + 2 ^ k
  disjoint : ∀ {k a k' a' p}, B k a → B k' a' → a ≤ p → p < a + 2 ^ k → a' ≤ p → p < a' + 2 ^ k' →
    k = k' ∧ a = a'
  merged : ∀ {k a}, k < m → B k a → ¬ B k (a ^^^ 2 ^ k)

/-- Two different multiples are apart. -/
theorem add_le_of_dvd {d a b : ℕ} (ha : d ∣ a) (hb : d ∣ b) (hab : a < b) : a + d ≤ b := by
  have := Nat.le_of_dvd (by omega) (Nat.dvd_sub hb ha)
  omega

namespace Dyadic

variable {m j k a b : ℕ} {F : ℕ → Prop} {B B' : ℕ → ℕ → Prop}

/-- An aligned part of the set lies in one block. -/
theorem exists_block (h : Dyadic m F B) (hj : j ≤ m) (ha : 2 ^ j ∣ a)
    (hF : ∀ p, a ≤ p → p < a + 2 ^ j → F p) :
    ∃ k b, B k b ∧ j ≤ k ∧ b ≤ a ∧ a + 2 ^ j ≤ b + 2 ^ k := by
  induction j generalizing a with
  | zero =>
    obtain ⟨k, b, hB, hb, hlt⟩ := h.cover (hF a le_rfl (by simp))
    exact ⟨k, b, hB, Nat.zero_le k, hb, by simpa using hlt⟩
  | succ j ih =>
    have hpow : 2 ^ (j + 1) = 2 ^ j + 2 ^ j := by ring
    have hpos := Nat.two_pow_pos j
    have ha' : 2 ^ j ∣ a := (pow_dvd_pow 2 (Nat.le_succ j)).trans ha
    obtain ⟨k, b, hB, hjk, hba, hend⟩ := ih (by omega) ha' fun p hp hlt => hF p hp (by omega)
    obtain ⟨k', b', hB', hjk', hba', hend'⟩ := ih (a := a + 2 ^ j) (by omega)
      ((Nat.dvd_add_right ha').2 dvd_rfl) fun p hp hlt => hF p (by omega) (by omega)
    rcases eq_or_lt_of_le hjk with rfl | hlt
    · rcases eq_or_lt_of_le hjk' with rfl | hlt'
      · -- both halves are blocks, and they are buddies
        obtain rfl : b = a := by omega
        obtain rfl : b' = b + 2 ^ j := by omega
        rw [← xor_two_pow_of_dvd ha] at hB'
        exact absurd hB' (h.merged (by omega) hB)
      · refine ⟨k', b', hB', hlt', ?_, by omega⟩
        -- the block of the upper half is aligned, so it starts no later than the lower half
        by_contra hcon
        have := add_le_of_dvd ha ((pow_dvd_pow 2 hlt').trans (h.dvd hB')) (by omega)
        omega
    · refine ⟨k, b, hB, hlt, hba, add_le_of_dvd ha ?_ (by omega)⟩
      exact Nat.dvd_add ((pow_dvd_pow 2 hlt).trans (h.dvd hB)) (pow_dvd_pow 2 hlt)

theorem block_of_block (h : Dyadic m F B) (h' : Dyadic m F B') (hB : B k a) : B' k a := by
  have hpos := Nat.two_pow_pos k
  obtain ⟨k', b, hB', hkk', hba, hend⟩ :=
    h'.exists_block (h.le hB) (h.dvd hB) fun p hp hlt => h.sub hB hp hlt
  -- the block of the other decomposition lies in a block of this one, which can only be the same
  obtain ⟨k'', c, hB'', hkk'', hcb, hend'⟩ :=
    h.exists_block (h'.le hB') (h'.dvd hB') fun p hp hlt => h'.sub hB' hp hlt
  obtain ⟨rfl, rfl⟩ := h.disjoint hB hB'' (p := a) le_rfl (by omega) (by omega) (by omega)
  obtain rfl : k' = k := by omega
  obtain rfl : b = a := by omega
  exact hB'

/-- **There is only one decomposition.** -/
theorem unique (h : Dyadic m F B) (h' : Dyadic m F B') (k a : ℕ) : B k a ↔ B' k a :=
  ⟨h.block_of_block h', h'.block_of_block h⟩

end Dyadic

end BareMetalOS
