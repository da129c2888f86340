import Mathlib.Data.Finset.Basic
import Mathlib.Data.List.Count
import Mathlib.Order.Defs.LinearOrder
import Mathlib.Tactic

/-!
# Sets of pending events

A set of pending events that are handled one at a time, the least one first. An event that is raised
while it is pending changes nothing. Over any run no event is handled more often than it was raised
(`Run.starts_le`), an event that was raised is pending until it is handled (`Run.not_lost`),
handlers do not overlap (`Run.finish_between`), and without new events they start in increasing
order (`Run.starts_increasing`).
-/

namespace BareMetalOS

variable {α : Type*} [LinearOrder α]

/-- The events that are pending, and whether one is being handled. -/
structure PendingSet (α : Type*) where
  pending : Finset α
  busy : Bool

namespace PendingSet

/-- What happens to the set: an event is raised, its handler is started, the handler is finished. -/
inductive Event (α : Type*)
  | raise (a : α)
  | start (a : α)
  | finish
  deriving DecidableEq

/-- A step. -/
inductive Step : PendingSet α → Event α → PendingSet α → Prop
  | raise (q : PendingSet α) (a : α) : Step q (.raise a) ⟨insert a q.pending, q.busy⟩
  | start {q : PendingSet α} {a : α} (hidle : q.busy = false) (ha : a ∈ q.pending)
    (hleast : ∀ b ∈ q.pending, a ≤ b) : Step q (.start a) ⟨q.pending.erase a, true⟩
  | finish {q : PendingSet α} (hbusy : q.busy = true) : Step q .finish ⟨q.pending, false⟩

/-- The runs, with their events in order. -/
inductive Run : PendingSet α → List (Event α) → PendingSet α → Prop
  | nil (q : PendingSet α) : Run q [] q
  | cons {q q' q'' : PendingSet α} {e : Event α} {es : List (Event α)} (h : Step q e q')
    (hs : Run q' es q'') : Run q (e :: es) q''

namespace Run

variable {q q' q'' : PendingSet α} {a b : α} {es es' : List (Event α)}

theorem append (h : Run q es q') (h' : Run q' es' q'') : Run q (es ++ es') q'' := by
  induction h with
  | nil => exact h'
  | cons hs _ ih => exact .cons hs (ih h')

theorem single {e : Event α} (h : Step q e q') : Run q [e] q' := .cons h (.nil _)

theorem split (h : Run q (es ++ es') q'') : ∃ q', Run q es q' ∧ Run q' es' q'' := by
  induction es generalizing q with
  | nil => exact ⟨q, .nil q, h⟩
  | cons e es ih =>
    cases h with
    | cons hs h =>
      obtain ⟨q', h₁, h₂⟩ := ih h
      exact ⟨q', .cons hs h₁, h₂⟩

/-- An event is handled at most as often as it was raised, and once more if it was pending. -/
theorem starts_le (h : Run q es q') : es.count (.start a) + (if a ∈ q'.pending then 1 else 0) ≤
    es.count (.raise a) + (if a ∈ q.pending then 1 else 0) := by
  induction h with
  | nil => exact le_refl _
  | @cons q q₁ q' e es hs _ ih =>
    rw [List.count_cons, List.count_cons]
    cases hs with
    | raise b =>
      by_cases hab : b = a
      · subst hab
        simp at ih ⊢
        split_ifs at ih ⊢ <;> omega
      · have hmem : a ∈ insert b q.pending ↔ a ∈ q.pending := by simp [Ne.symm hab]
        simp only [hmem] at ih
        simp [hab] at ih ⊢
        omega
    | @start b hidle hb hleast =>
      by_cases hab : b = a
      · subst hab
        simp [hb] at ih ⊢
        omega
      · have hmem : a ∈ q.pending.erase b ↔ a ∈ q.pending := by simp [Ne.symm hab]
        simp only [hmem] at ih
        simp [hab] at ih ⊢
        omega
    | finish hbusy =>
      simp at ih ⊢
      omega

/-- An event that is pending stays so until its handler is started. -/
theorem pending_or_started (h : Run q es q') (ha : a ∈ q.pending) :
    a ∈ q'.pending ∨ .start a ∈ es := by
  induction h with
  | nil => exact .inl ha
  | cons hs _ ih =>
    cases hs with
    | raise b => exact (ih (Finset.mem_insert_of_mem ha)).imp_right (List.mem_cons_of_mem _)
    | @start b _ _ _ =>
      rcases eq_or_ne a b with rfl | hne
      · exact .inr (List.mem_cons_self ..)
      · exact (ih (Finset.mem_erase_of_ne_of_mem hne ha)).imp_right (List.mem_cons_of_mem _)
    | finish _ => exact (ih ha).imp_right (List.mem_cons_of_mem _)

/-- An event that was raised is pending, or it has been handled since. -/
theorem not_lost (h : Run q (es ++ .raise a :: es') q') : a ∈ q'.pending ∨ .start a ∈ es' := by
  obtain ⟨_, -, h'⟩ := h.split
  cases h' with
  | cons hs h' =>
    cases hs
    exact h'.pending_or_started (Finset.mem_insert_self ..)

/-- While a handler runs, no other is started. -/
theorem finish_of_busy (h : Run q es q') (hbusy : q.busy = true) (hb : .start b ∈ es) :
    .finish ∈ es := by
  induction h with
  | nil => cases hb
  | cons hs _ ih =>
    cases hs with
    | raise c =>
      rcases List.mem_cons.1 hb with heq | hb
      · cases heq
      · exact List.mem_cons_of_mem _ (ih hbusy hb)
    | start hidle _ _ =>
      rw [hidle] at hbusy
      cases hbusy
    | finish _ => exact List.mem_cons_self ..

/-- A handler is finished before the next one is started. -/
theorem finish_between (h : Run q (es ++ .start a :: es') q') (hb : .start b ∈ es') :
    .finish ∈ es' := by
  obtain ⟨_, -, h'⟩ := h.split
  cases h' with
  | cons hs h' =>
    cases hs
    exact h'.finish_of_busy rfl hb

/-- Where nothing is raised, only what is pending is handled. -/
theorem pending_of_start (h : Run q es q') (hraise : ∀ c, .raise c ∉ es) (hb : .start b ∈ es) :
    b ∈ q.pending := by
  induction h with
  | nil => cases hb
  | cons hs _ ih =>
    have hraise' := fun c hc => hraise c (List.mem_cons_of_mem _ hc)
    cases hs with
    | raise c => exact absurd (List.mem_cons_self ..) (hraise c)
    | start _ ha _ =>
      rcases List.mem_cons.1 hb with heq | hb
      · cases heq
        exact ha
      · exact Finset.mem_of_mem_erase (ih hraise' hb)
    | finish _ =>
      rcases List.mem_cons.1 hb with heq | hb
      · cases heq
      · exact ih hraise' hb

/-- Where nothing is raised, the handlers are started in increasing order. -/
theorem starts_increasing (h : Run q (es ++ .start a :: es') q') (hraise : ∀ c, .raise c ∉ es')
    (hb : .start b ∈ es') : a < b := by
  obtain ⟨_, -, h'⟩ := h.split
  cases h' with
  | cons hs h' =>
    cases hs with
    | start _ _ hleast =>
      obtain ⟨hne, hb⟩ := Finset.mem_erase.1 (h'.pending_of_start hraise hb)
      exact lt_of_le_of_ne (hleast b hb) (Ne.symm hne)

end Run

end PendingSet

end BareMetalOS
