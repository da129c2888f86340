import Mathlib.Data.Fintype.Card
import Mathlib.Data.Fintype.Pi
import Mathlib.Logic.Function.Basic
import Mathlib.Tactic

/-!
# Pointers to an object

A table of pointers is a function `g : ι → Option β` on finitely many slots. `fiber g b` is the
number of slots that point to `b`; a write to one slot changes it by what the slot pointed to before
and after (`fiber_update`).
-/

namespace BareMetalOS

variable {ι β : Type*} [Fintype ι] [DecidableEq β] {g : ι → Option β} {b : β} {x y : ι}

/-- The number of slots that point to `b`. -/
def fiber (g : ι → Option β) (b : β) : ℕ := (Finset.univ.filter fun x => g x = some b).card

theorem fiber_pos : 0 < fiber g b ↔ ∃ x, g x = some b := by
  rw [fiber, Finset.card_pos]
  constructor
  · rintro ⟨x, hx⟩
    exact ⟨x, (Finset.mem_filter.1 hx).2⟩
  · rintro ⟨x, hx⟩
    exact ⟨x, Finset.mem_filter.2 ⟨Finset.mem_univ x, hx⟩⟩

theorem fiber_eq_zero : fiber g b = 0 ↔ ∀ x, g x ≠ some b := by
  rw [← not_iff_not, ← Ne.eq_def, ← Nat.pos_iff_ne_zero, fiber_pos]
  simp

/-- With at most one pointer to an object, the slot is unique. -/
theorem eq_of_fiber_le_one (h : fiber g b ≤ 1) (hx : g x = some b) (hy : g y = some b) : x = y :=
  Finset.card_le_one.1 h x (Finset.mem_filter.2 ⟨Finset.mem_univ x, hx⟩) y
    (Finset.mem_filter.2 ⟨Finset.mem_univ y, hy⟩)

/-- Slots in rows, where a row exists for some indices only. -/
theorem fiber_bind {κ γ : Type*} [Fintype κ] (f : ι → Option γ) (h : γ → κ → Option β) (b : β) :
    fiber (fun x : ι × κ => (f x.1).bind fun c => h c x.2) b =
      ∑ i, (f i).elim 0 fun c => fiber (h c) b := by
  rw [fiber, Finset.card_filter, Fintype.sum_prod_type]
  apply Finset.sum_congr rfl
  intro i _
  rcases hf : f i with _ | c
  · simp [hf]
  · simp only [hf, Option.bind_some, Option.elim_some, fiber, Finset.card_filter]

/-- Two levels of rows. -/
theorem fiber_bind_bind {κ μ γ δ : Type*} [Fintype κ] [Fintype μ] (f : ι → Option γ)
    (h : γ → κ → Option δ) (h' : δ → μ → Option β) (b : β) :
    fiber (fun x : ι × κ × μ => (f x.1).bind fun c => (h c x.2.1).bind fun d => h' d x.2.2) b =
      ∑ i, (f i).elim 0 fun c => ∑ j, (h c j).elim 0 fun d => fiber (h' d) b := by
  rw [fiber_bind f fun c (y : κ × μ) => (h c y.1).bind fun d => h' d y.2]
  apply Finset.sum_congr rfl
  intro i _
  cases f i with
  | none => rfl
  | some c => exact fiber_bind (h c) h' b

variable [DecidableEq ι]

/-- A write to one slot. -/
theorem fiber_update (g : ι → Option β) (x : ι) (v : Option β) (b : β) :
    fiber (Function.update g x v) b + (if g x = some b then 1 else 0) =
      fiber g b + if v = some b then 1 else 0 := by
  have hsplit : ∀ g : ι → Option β, fiber g b =
      ((Finset.univ.erase x).filter fun y => g y = some b).card +
        if g x = some b then 1 else 0 := by
    intro g
    rw [fiber, ← Finset.insert_erase (Finset.mem_univ x), Finset.filter_insert]
    split
    · rw [Finset.card_insert_of_notMem (by simp), Finset.insert_erase (Finset.mem_univ x)]
    · rw [Finset.insert_erase (Finset.mem_univ x), Nat.add_zero]
  have hcongr : (Finset.univ.erase x).filter (fun y => Function.update g x v y = some b) =
      (Finset.univ.erase x).filter fun y => g y = some b := by
    apply Finset.filter_congr
    intro y hy
    rw [Function.update_of_ne (Finset.ne_of_mem_erase hy)]
  rw [hsplit, hsplit g, hcongr, Function.update_self]
  omega

end BareMetalOS
