import Mathlib.Data.List.Basic

/-!
# Writing into a sequence

`overwrite l p b` is the sequence `l` with `b` written over it from position `p` on; the sequence
grows if `b` reaches beyond its end. Two consecutive writes are one (`overwrite_append`), and the
write on a buffer is the write on its used part (`take_overwrite`).
-/

namespace BareMetalOS

variable {α β : Type*} {l b : List α} {n p : ℕ}

/-- The sequence `l` with `b` written over it from `p` on. -/
def overwrite (l : List α) (p : ℕ) (b : List α) : List α :=
  l.take p ++ b ++ l.drop (p + b.length)

theorem length_overwrite (h : p ≤ l.length) :
    (overwrite l p b).length = max l.length (p + b.length) := by
  simp only [overwrite, List.length_append, List.length_take, List.length_drop]
  omega

theorem map_overwrite (f : α → β) (l : List α) (p : ℕ) (b : List α) :
    (overwrite l p b).map f = overwrite (l.map f) p (b.map f) := by
  simp [overwrite]

/-- Two consecutive writes. -/
theorem overwrite_append (h : p ≤ l.length) (b₁ b₂ : List α) :
    overwrite (overwrite l p b₁) (p + b₁.length) b₂ = overwrite l p (b₁ ++ b₂) := by
  have hlen : (l.take p ++ b₁).length = p + b₁.length := by
    rw [List.length_append, List.length_take, Nat.min_eq_left h]
  have htake : (overwrite l p b₁).take (p + b₁.length) = l.take p ++ b₁ := by
    rw [overwrite, ← hlen, List.take_left]
  have hdrop : (overwrite l p b₁).drop (p + b₁.length + b₂.length) =
      l.drop (p + (b₁ ++ b₂).length) := by
    rw [overwrite, ← List.drop_drop, ← hlen, List.drop_left, List.drop_drop, hlen,
      List.length_append, Nat.add_assoc]
  rw [overwrite, htake, hdrop, overwrite]
  simp only [List.append_assoc]

/-- A write on a buffer of which the first `n` places are used. -/
theorem take_overwrite (hn : p ≤ n) (hb : p + b.length ≤ l.length) :
    (overwrite l p b).take (max n (p + b.length)) = overwrite (l.take n) p b := by
  have hlen : (l.take p ++ b).length = p + b.length := by
    rw [List.length_append, List.length_take]
    omega
  rw [overwrite, overwrite, List.take_append, hlen, List.take_of_length_le (by omega),
    List.take_take, Nat.min_eq_left hn, List.drop_take]
  congr 2
  omega

end BareMetalOS
