import Mathlib.Order.Bounds.Basic
import Mathlib.Data.List.Basic
import Mathlib.Tactic

/-!
# The first free place between occupied ranges

`firstFit up room size l n a` looks for `size` free addresses from `a` on, where the ranges of `l`
are occupied: it rounds the address up with `up`, gives up when there is no `room` left, and on a
collision goes on at the end of the range it met, with the whole list once more. The ranges come in
any order and may overlap. A collision moves the search past the end of a range, so it ends
(`firstFit_spec`), and every address it skipped collides with the same range: the place it returns
is the least one.
-/

namespace BareMetalOS

/-- No range of the list meets the `size` addresses from `x` on. -/
def Clear (size : ℕ) (l : List (ℕ × ℕ)) (x : ℕ) : Prop := ∀ r ∈ l, r.2 ≤ x ∨ x + size ≤ r.1

/-- The search, with at most `n` rounds; the inner `none` says that there is no room. -/
def firstFit (up : ℕ → ℕ) (room : ℕ → Bool) (size : ℕ) (l : List (ℕ × ℕ)) :
    ℕ → ℕ → Option (Option ℕ)
  | 0, _ => none
  | n + 1, a =>
    if room (up a) then
      match l.find? fun r => up a < r.2 ∧ r.1 < up a + size with
      | some r => firstFit up room size l n r.2
      | none => some (some (up a))
    else some none

/-- The places from `a` on. -/
def places (good : ℕ → Prop) (room : ℕ → Bool) (size : ℕ) (l : List (ℕ × ℕ)) (a : ℕ) : Set ℕ :=
  {x | good x ∧ a ≤ x ∧ room x ∧ Clear size l x}

variable {good : ℕ → Prop} {up : ℕ → ℕ} {room : ℕ → Bool} {size a : ℕ} {l : List (ℕ × ℕ)}

theorem clear_of_find?_eq_none (h : (l.find? fun r => a < r.2 ∧ r.1 < a + size) = none) :
    Clear size l a := by
  intro r hr
  have := List.find?_eq_none.1 h r hr
  simp only [decide_eq_true_eq] at this
  omega

/-- The addresses between a collision and the end of the range collide too. -/
theorem places_subset_of_collision (hup : ∀ a, IsLeast {x | good x ∧ a ≤ x} (up a)) {r : ℕ × ℕ}
    (hr : r ∈ l) (h : r.1 < up a + size) :
    places good room size l a ⊆ places good room size l r.2 := by
  rintro x ⟨hx, hax, hroom, hclear⟩
  refine ⟨hx, ?_, hroom, hclear⟩
  have hle : up a ≤ x := (hup a).2 ⟨hx, hax⟩
  rcases hclear r hr with h' | h'
  · exact h'
  · omega

/-- What the search returns: the least place, or `none` when there is no place. -/
def IsFirst (places : Set ℕ) : Option ℕ → Prop
  | some x => IsLeast places x
  | none => places = ∅

theorem isFirst_congr {s t : Set ℕ} (h : s = t) {r : Option ℕ} (hr : IsFirst t r) :
    IsFirst s r := h ▸ hr

theorem IsFirst.eq_some_iff {s : Set ℕ} {r : Option ℕ} (h : IsFirst s r) {x : ℕ} :
    r = some x ↔ IsLeast s x := by
  constructor
  · rintro rfl
    exact h
  · intro hx
    rcases r with _ | y
    · rw [show s = ∅ from h] at hx
      exact hx.1.elim
    · rw [IsLeast.unique (show IsLeast s y from h) hx]

theorem IsFirst.eq_none_iff {s : Set ℕ} {r : Option ℕ} (h : IsFirst s r) : r = none ↔ s = ∅ := by
  constructor
  · rintro rfl
    exact h
  · rintro rfl
    rcases r with _ | y
    · rfl
    · exact (show IsLeast ∅ y from h).1.elim

/-- A collision leaves fewer ranges ahead of the search. -/
theorem countP_lt_of_collision {r : ℕ × ℕ} (hr : r ∈ l) (h : a < r.2) :
    l.countP (r.2 < ·.2) < l.countP (a < ·.2) := by
  obtain ⟨l₁, l₂, rfl⟩ := List.append_of_mem hr
  have hmono : ∀ l : List (ℕ × ℕ), l.countP (r.2 < ·.2) ≤ l.countP (a < ·.2) := fun l =>
    List.countP_mono_left fun x _ hx => by simp only [decide_eq_true_eq] at *; omega
  have h₁ := hmono l₁
  have h₂ := hmono l₂
  simp only [List.countP_append, List.countP_cons, lt_irrefl, h, decide_true, decide_false,
    if_true, Bool.false_eq_true, if_false]
  omega

/-- **The search returns the least place**, in at most one round more than there are ranges. -/
theorem firstFit_spec (hup : ∀ a, IsLeast {x | good x ∧ a ≤ x} (up a))
    (hroom : ∀ x y, x ≤ y → room y → room x) (a : ℕ) :
    ∃ r, (∀ n, l.countP (a < ·.2) < n → firstFit up room size l n a = some r) ∧
      IsFirst (places good room size l a) r := by
  -- induction on the number of ranges that end after the search position
  induction hk : l.countP (a < ·.2) using Nat.strong_induction_on generalizing a with
  | _ k ih =>
  subst hk
  have hle : a ≤ up a := (hup a).1.2
  by_cases hr : room (up a)
  · rcases hf : l.find? fun r => up a < r.2 ∧ r.1 < up a + size with _ | r
    · refine ⟨some (up a), ?_, ⟨(hup a).1.1, hle, hr, clear_of_find?_eq_none hf⟩, ?_⟩
      · intro n hn
        obtain ⟨m, rfl⟩ := Nat.exists_eq_succ_of_ne_zero (Nat.ne_zero_of_lt hn)
        simp only [firstFit, hr, if_true, hf]
      · rintro x ⟨hx, hax, -, -⟩
        exact (hup a).2 ⟨hx, hax⟩
    · have hmem := List.mem_of_find?_eq_some hf
      have hcol := List.find?_some hf
      simp only [decide_eq_true_eq] at hcol
      have hlt := countP_lt_of_collision hmem (show a < r.2 by omega)
      obtain ⟨res, hres, hfirst⟩ := ih _ hlt r.2 rfl
      refine ⟨res, ?_, isFirst_congr (Set.Subset.antisymm ?_ ?_) hfirst⟩
      · intro n hn
        obtain ⟨m, rfl⟩ := Nat.exists_eq_succ_of_ne_zero (Nat.ne_zero_of_lt hn)
        simp only [firstFit, hr, if_true, hf]
        exact hres m (by omega)
      · exact places_subset_of_collision hup hmem hcol.2
      · rintro x ⟨hx, hax, h⟩
        exact ⟨hx, by omega, h⟩
  · refine ⟨none, ?_, ?_⟩
    · intro n hn
      obtain ⟨m, rfl⟩ := Nat.exists_eq_succ_of_ne_zero (Nat.ne_zero_of_lt hn)
      simp only [firstFit, hr, Bool.false_eq_true, if_false]
    · rw [IsFirst, Set.eq_empty_iff_forall_notMem]
      rintro x ⟨hx, hax, hrx, -⟩
      exact hr (hroom _ _ ((hup a).2 ⟨hx, hax⟩) hrx)

end BareMetalOS
