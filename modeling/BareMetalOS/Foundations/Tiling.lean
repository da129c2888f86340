import Mathlib.Data.Nat.Basic
import Mathlib.Tactic

/-!
# Tilings of an interval of naturals by blocks

A *block* is a start and a length, recognised by a relation `B : ℕ → ℕ → Prop`. `Tiled B a b`
says that the interval `[a, b)` is cut into consecutive blocks. A tiling is a list of blocks, so
it can be glued (`Tiled.trans`), carried along a change of the relation that only concerns other
places (`Tiled.congr`), and opened at the block of a given point (`Tiled.split`).
-/

namespace BareMetalOS

/-- The interval `[a, b)` is cut into consecutive non-empty blocks of `B`. -/
inductive Tiled (B : ℕ → ℕ → Prop) : ℕ → ℕ → Prop
  | nil (a : ℕ) : Tiled B a a
  | cons {a n b : ℕ} (hn : 0 < n) (hB : B a n) (h : Tiled B (a + n) b) : Tiled B a b

namespace Tiled

variable {B B' : ℕ → ℕ → Prop} {a b c p n : ℕ}

theorem le (h : Tiled B a b) : a ≤ b := by
  induction h with
  | nil => exact le_rfl
  | cons _ _ _ ih => omega

theorem single (hn : 0 < n) (hB : B a n) : Tiled B a (a + n) := .cons hn hB (.nil _)

theorem trans (h : Tiled B a b) (h' : Tiled B b c) : Tiled B a c := by
  induction h with
  | nil => exact h'
  | cons hn hB _ ih => exact .cons hn hB (ih h')

/-- A tiling of `[a, b)` only depends on the blocks inside `[a, b)`. -/
theorem congr (h : Tiled B a b) (hBB : ∀ c n, a ≤ c → c + n ≤ b → B c n → B' c n) :
    Tiled B' a b := by
  induction h with
  | nil => exact .nil _
  | cons hn hB h ih =>
    refine .cons hn (hBB _ _ le_rfl h.le hB) (ih fun c m hc hm => hBB c m (by omega) hm)

/-- The block of a point of the interval, with the tilings on both sides of it. -/
theorem split (h : Tiled B a b) (ha : a ≤ p) (hb : p < b) :
    ∃ c n, B c n ∧ c ≤ p ∧ p < c + n ∧ Tiled B a c ∧ Tiled B (c + n) b := by
  induction h with
  | nil => omega
  | @cons a n b hn hB h ih =>
    by_cases hp : p < a + n
    · exact ⟨a, n, hB, ha, hp, .nil _, h⟩
    · obtain ⟨c, m, hc, hcp, hpm, h₁, h₂⟩ := ih (by omega) hb
      exact ⟨c, m, hc, hcp, hpm, .cons hn hB h₁, h₂⟩

end Tiled

end BareMetalOS
