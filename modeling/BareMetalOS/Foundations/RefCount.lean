import Mathlib.Data.List.Count
import Mathlib.Logic.Function.Basic
import Mathlib.Tactic

/-!
# Reference counts

Objects of type `β` live at addresses of type `α` and carry a count of the pointers to them
(`Counter`). `retain` counts one more pointer, `release` one less, and the object is freed when no
pointer is left; `retainAll` and `releaseAll` do this for a list of pointers some of which are null.
Both fail on an object that has been freed.

`Counted c null obj n` says that the counts of the objects are the numbers `n` of pointers, and that
exactly the objects with a pointer to them are alive. Retaining more pointers and releasing pointers
that were counted never fails and keeps the counts right (`Counted.retainAll`,
`Counted.releaseAll`).
-/

namespace BareMetalOS

variable {α β : Type*}

/-- The field of the objects that holds the count. -/
structure Counter (β : Type*) where
  get : β → ℤ
  set : β → ℤ → β
  get_set : ∀ x n, get (set x n) = n

/-- The objects alive are those with a pointer to them, and they count their pointers. -/
structure Counted (c : Counter β) (null : α) (obj : α → Option β) (n : α → ℕ) : Prop where
  count : ∀ a x, a ≠ null → obj a = some x → c.get x = n a
  alive : ∀ a, a ≠ null → (obj a = none ↔ n a = 0)

namespace Counted

variable {c : Counter β} {null a : α} {obj : α → Option β} {n m : α → ℕ}

theorem congr (h : Counted c null obj n) (hn : ∀ a, a ≠ null → m a = n a) :
    Counted c null obj m :=
  ⟨fun a x ha hx => by rw [hn a ha, h.count a x ha hx], fun a ha => by rw [hn a ha, h.alive a ha]⟩

theorem exists_object (h : Counted c null obj n) (ha : a ≠ null) (hn : n a ≠ 0) :
    ∃ x, obj a = some x :=
  Option.ne_none_iff_exists'.1 fun hnone => hn ((h.alive a ha).1 hnone)

end Counted

variable [DecidableEq α]

/-- `object->count++`. -/
def retain (c : Counter β) (obj : α → Option β) (a : α) : Option (α → Option β) :=
  (obj a).map fun x => Function.update obj a (some (c.set x (c.get x + 1)))

/-- `object->count--; if (object->count <= 0) free(object);` -/
def release (c : Counter β) (obj : α → Option β) (a : α) : Option (α → Option β) :=
  (obj a).map fun x =>
    Function.update obj a (if 0 < c.get x - 1 then some (c.set x (c.get x - 1)) else none)

/-- `retain` every pointer of the list that is not null. -/
def retainAll (c : Counter β) (null : α) : (α → Option β) → List α → Option (α → Option β)
  | obj, [] => some obj
  | obj, a :: l =>
    if a = null then retainAll c null obj l
    else (retain c obj a).bind fun obj => retainAll c null obj l

/-- `release` every pointer of the list that is not null. -/
def releaseAll (c : Counter β) (null : α) : (α → Option β) → List α → Option (α → Option β)
  | obj, [] => some obj
  | obj, a :: l =>
    if a = null then releaseAll c null obj l
    else (release c obj a).bind fun obj => releaseAll c null obj l

theorem retainAll_null {c : Counter β} {null : α} {obj obj' : α → Option β} {l : List α}
    (h : retainAll c null obj l = some obj') : obj' null = obj null := by
  induction l generalizing obj with
  | nil =>
    cases h
    rfl
  | cons a l ih =>
    rw [retainAll] at h
    by_cases ha : a = null
    · rw [if_pos ha] at h
      exact ih h
    · rw [if_neg ha] at h
      obtain ⟨obj₁, hobj₁, h⟩ := Option.bind_eq_some_iff.1 h
      obtain ⟨x, -, rfl⟩ := Option.map_eq_some_iff.1 hobj₁
      rw [ih h, Function.update_of_ne (Ne.symm ha)]

namespace Counted

variable {c : Counter β} {null a : α} {obj : α → Option β} {n m : α → ℕ} {l : List α}

/-- An object at `a` whose count is set to `k`, or which is freed if `k = 0`. -/
theorem update {v : Option β} {k : ℕ} (h : Counted c null obj n)
    (hv : ∀ x, v = some x → c.get x = k) (hk : v = none ↔ k = 0) :
    Counted c null (Function.update obj a v) (Function.update n a k) := by
  refine ⟨fun b x hb hx => ?_, fun b hb => ?_⟩
  · by_cases hba : b = a
    · subst hba
      rw [Function.update_self] at hx ⊢
      exact hv x hx
    · rw [Function.update_of_ne hba] at hx ⊢
      exact h.count b x hb hx
  · by_cases hba : b = a
    · subst hba
      rw [Function.update_self, Function.update_self]
      exact hk
    · rw [Function.update_of_ne hba, Function.update_of_ne hba]
      exact h.alive b hb

theorem retain (h : Counted c null obj n) (ha : a ≠ null) (hn : n a ≠ 0) :
    ∃ obj', retain c obj a = some obj' ∧
      Counted c null obj' (Function.update n a (n a + 1)) := by
  obtain ⟨x, hx⟩ := h.exists_object ha hn
  refine ⟨_, by rw [BareMetalOS.retain, hx]; rfl, h.update (fun y hy => ?_) (by simp)⟩
  cases hy
  rw [c.get_set, h.count a x ha hx]
  rfl

theorem release (h : Counted c null obj n) (ha : a ≠ null) (hn : n a ≠ 0) :
    ∃ obj', release c obj a = some obj' ∧
      Counted c null obj' (Function.update n a (n a - 1)) := by
  obtain ⟨x, hx⟩ := h.exists_object ha hn
  have hcount := h.count a x ha hx
  refine ⟨_, by rw [BareMetalOS.release, hx]; rfl, h.update (fun y hy => ?_) ?_⟩
  · split at hy
    · cases hy
      rw [c.get_set]
      omega
    · cases hy
  · split <;> simp <;> omega

theorem retainAll (h : Counted c null obj n) (hl : ∀ a ∈ l, a ≠ null → n a ≠ 0) :
    ∃ obj', retainAll c null obj l = some obj' ∧
      Counted c null obj' fun b => n b + l.count b := by
  induction l generalizing obj n with
  | nil => exact ⟨obj, rfl, h⟩
  | cons a l ih =>
    rw [BareMetalOS.retainAll]
    by_cases ha : a = null
    · obtain ⟨obj', hobj', h'⟩ := ih h fun b hb => hl b (List.mem_cons_of_mem _ hb)
      refine ⟨obj', by rw [if_pos ha, hobj'], h'.congr fun b hb => ?_⟩
      rw [List.count_cons_of_ne (by rw [ha]; exact Ne.symm hb)]
    · obtain ⟨obj₁, hobj₁, h₁⟩ := h.retain ha (hl a List.mem_cons_self ha)
      obtain ⟨obj', hobj', h'⟩ := ih h₁ fun b hb hb₀ => by
        have := hl b (List.mem_cons_of_mem _ hb) hb₀
        by_cases hba : b = a
        · simp [hba]
        · rwa [Function.update_of_ne hba]
      refine ⟨obj', by rw [if_neg ha, hobj₁, Option.bind_some, hobj'], h'.congr fun b _ => ?_⟩
      by_cases hba : b = a
      · subst hba
        rw [Function.update_self, List.count_cons_self]
        omega
      · rw [Function.update_of_ne hba, List.count_cons_of_ne (Ne.symm hba)]

theorem releaseAll (h : Counted c null obj fun b => n b + l.count b) :
    ∃ obj', releaseAll c null obj l = some obj' ∧ Counted c null obj' n := by
  induction l generalizing obj with
  | nil => exact ⟨obj, rfl, h⟩
  | cons a l ih =>
    rw [BareMetalOS.releaseAll]
    by_cases ha : a = null
    · obtain ⟨obj', hobj', h'⟩ := ih (h.congr fun b hb => by
        rw [List.count_cons_of_ne (by rw [ha]; exact Ne.symm hb)])
      exact ⟨obj', by rw [if_pos ha, hobj'], h'⟩
    · obtain ⟨obj₁, hobj₁, h₁⟩ := h.release ha (by rw [List.count_cons_self]; omega)
      obtain ⟨obj', hobj', h'⟩ := ih (h₁.congr fun b _ => by
        by_cases hba : b = a
        · subst hba
          rw [Function.update_self, List.count_cons_self]
          omega
        · rw [Function.update_of_ne hba, List.count_cons_of_ne (Ne.symm hba)])
      exact ⟨obj', by rw [if_neg ha, hobj₁, Option.bind_some, hobj'], h'⟩

end Counted

end BareMetalOS
