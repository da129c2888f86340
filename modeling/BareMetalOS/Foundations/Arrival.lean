import Mathlib.Data.List.Sort
import Mathlib.Order.Defs.LinearOrder

/-!
# Queues in order of arrival

A queue sorted by a key in which entries with equal keys stand in the order of their arrival. Each
entry carries the number of its arrival, and `Earlier` is the order of the queue. An entry that
arrives goes before the first one with a larger key: `List.orderedInsert` with the strict comparison
of the keys does this and keeps the queue in order (`pairwise_orderedInsert`). `InOrder key l l'`
says the same without the numbers: `l'` is the list `l` in this order.
-/

namespace BareMetalOS

variable {α κ : Type*} [LinearOrder κ] {key : α → κ}

/-- The entry `a` comes before `b`: it has the smaller key, or an equal key and arrived first. -/
def Earlier (key : α → κ) (a b : α × ℕ) : Prop :=
  key a.1 < key b.1 ∨ (key a.1 = key b.1 ∧ a.2 < b.2)

theorem Earlier.key_le {a b : α × ℕ} (h : Earlier key a b) : key a.1 ≤ key b.1 := by
  rcases h with h | ⟨h, -⟩
  · exact h.le
  · exact h.le

/-- The last entry to arrive goes before the first one with a larger key. -/
theorem pairwise_orderedInsert {l : List (α × ℕ)} {n : α × ℕ} (h : l.Pairwise (Earlier key))
    (hlast : ∀ m ∈ l, m.2 < n.2) :
    (l.orderedInsert (fun a b => key a.1 < key b.1) n).Pairwise (Earlier key) := by
  induction l with
  | nil => simp
  | cons m l ih =>
    obtain ⟨hm, hl⟩ := List.pairwise_cons.1 h
    by_cases hnm : key n.1 < key m.1
    · rw [List.orderedInsert_cons, if_pos hnm]
      refine List.pairwise_cons.2 ⟨fun x hx => .inl ?_, h⟩
      rcases List.mem_cons.1 hx with rfl | hx
      · exact hnm
      · exact hnm.trans_le (hm x hx).key_le
    · rw [List.orderedInsert_cons, if_neg hnm]
      refine List.pairwise_cons.2 ⟨fun x hx => ?_, ih hl fun x hx => hlast x (.tail _ hx)⟩
      rcases (List.mem_orderedInsert _).1 hx with rfl | hx
      · rcases lt_or_eq_of_le (not_lt.1 hnm) with hlt | heq
        · exact .inl hlt
        · exact .inr ⟨heq, hlast m List.mem_cons_self⟩
      · exact hm x hx

/-- The insertion does not look at the numbers. -/
theorem map_fst_orderedInsert (l : List (α × ℕ)) (n : α × ℕ) :
    (l.orderedInsert (fun a b => key a.1 < key b.1) n).map Prod.fst =
      (l.map Prod.fst).orderedInsert (fun a b => key a < key b) n.1 := by
  induction l with
  | nil => rfl
  | cons m l ih =>
    rw [List.map_cons, List.orderedInsert_cons, List.orderedInsert_cons]
    split
    · rfl
    · rw [List.map_cons, ih]

theorem orderedInsert_append {l₁ l₂ : List α} {n : α} (hle : ∀ m ∈ l₁, key m ≤ key n) :
    (l₁ ++ l₂).orderedInsert (fun a b => key a < key b) n =
      l₁ ++ l₂.orderedInsert (fun a b => key a < key b) n := by
  induction l₁ with
  | nil => rfl
  | cons m l ih =>
    rw [List.cons_append, List.orderedInsert_cons, if_neg (not_lt.2 (hle m List.mem_cons_self)),
      ih fun x hx => hle x (.tail _ hx), List.cons_append]

/-! ## Lists in order -/

/-- The list `l'` is `l`, by key and, for equal keys, in the order of `l`. -/
def InOrder (key : α → κ) (l l' : List α) : Prop :=
  ∃ order : List (α × ℕ), order.Perm l.zipIdx ∧ order.Pairwise (Earlier key) ∧
    order.map Prod.fst = l'

namespace InOrder

variable {l l₁ l₂ : List α} {n : α}

theorem nil : InOrder key [] [] := ⟨[], .refl _, .nil, rfl⟩

theorem pairwise (h : InOrder key l l₁) : l₁.Pairwise fun a b => key a ≤ key b := by
  obtain ⟨order, -, hp, rfl⟩ := h
  exact List.pairwise_map.2 (hp.imp Earlier.key_le)

theorem perm (h : InOrder key l l₁) : l₁.Perm l := by
  obtain ⟨order, hperm, -, rfl⟩ := h
  simpa using hperm.map Prod.fst

/-- A new entry behind entries of at most its key. -/
theorem orderedInsert (h : InOrder key l (l₁ ++ l₂)) (hle : ∀ m ∈ l₁, key m ≤ key n) :
    InOrder key (l ++ [n]) (l₁ ++ l₂.orderedInsert (fun a b => key a < key b) n) := by
  obtain ⟨order, hperm, hp, hmap⟩ := h
  obtain ⟨o₁, o₂, rfl, rfl, rfl⟩ := List.map_eq_append_iff.1 hmap
  have hlt : ∀ m ∈ o₁ ++ o₂, m.2 < l.length := by
    intro m hm
    have := List.snd_lt_add_of_mem_zipIdx (hperm.mem_iff.1 hm)
    omega
  refine ⟨(o₁ ++ o₂).orderedInsert (fun a b => key a.1 < key b.1) (n, l.length), ?_,
    pairwise_orderedInsert hp hlt, ?_⟩
  · refine (List.perm_orderedInsert _ _ _).trans ?_
    simp only [List.zipIdx_append, Nat.zero_add, List.zipIdx_cons, List.zipIdx_nil]
    exact (hperm.cons _).trans (List.perm_append_singleton _ _).symm
  · rw [map_fst_orderedInsert, List.map_append]
    exact orderedInsert_append hle

end InOrder

end BareMetalOS
