import BareMetalOS.Mmu.Release
import BareMetalOS.Mmu.Vma

/-!
# Blocks beside the page tables

The structs of the kernel are blocks of the allocator too. `Owned` says which of them are held, as a
list of addresses and sizes; `base` are the blocks that nobody in the list has to do with. To
allocate a struct is to put it on the list, and to free it is to take it off, whatever its place in
the list.
-/

namespace BareMetalOS.Mmu

open Memory (Addr Allocator allocate blockBytes)

variable {s s' : Vm} {ps : List Addr} {loose : Addr → ℕ} {base : Addr → Option (ℕ × ℤ)}
  {held held' : List (Addr × ℕ)} {x : Addr} {k size : ℕ}

/-- The blocks of the list, each with one owner, over those of `base`. -/
def withBlocks (base : Addr → Option (ℕ × ℤ)) (held : List (Addr × ℕ)) (x : Addr) :
    Option (ℕ × ℤ) :=
  (held.find? (·.1 = x)).elim (base x) fun e => some (e.2, 1)

/-- The address spaces and the blocks that are held. -/
structure Owned (s : Vm) (ps : List Addr) (loose : Addr → ℕ) (base : Addr → Option (ℕ × ℤ))
    (held : List (Addr × ℕ)) : Prop where
  spaces : Spaces s ps loose (withBlocks base held)
  nodup : (held.map Prod.fst).Nodup
  base : ∀ e ∈ held, base e.1 = none

theorem withBlocks_cons : withBlocks base ((x, k) :: held) =
    Function.update (withBlocks base held) x (some (k, 1)) := by
  funext y
  rw [withBlocks, List.find?_cons]
  rcases eq_or_ne y x with rfl | hne
  · simp
  · rw [Function.update_of_ne hne]
    simp [hne.symm, withBlocks]

theorem withBlocks_of_notMem (h : x ∉ held.map Prod.fst) : withBlocks base held x = base x := by
  have hnone : held.find? (·.1 = x) = none := by
    rw [List.find?_eq_none]
    intro e he hx
    rw [← of_decide_eq_true hx] at h
    exact h (List.mem_map_of_mem he)
  rw [withBlocks, hnone]
  rfl

theorem withBlocks_perm (h : held.Perm held') (hnd : (held.map Prod.fst).Nodup) :
    withBlocks base held = withBlocks base held' := by
  induction h with
  | nil => rfl
  | cons e h ih =>
    rw [List.map_cons, List.nodup_cons] at hnd
    obtain ⟨x, k⟩ := e
    rw [withBlocks_cons, withBlocks_cons, ih hnd.2]
  | swap e e' l =>
    obtain ⟨x, k⟩ := e
    obtain ⟨x', k'⟩ := e'
    have hne : x ≠ x' := by
      simp only [List.map_cons, List.nodup_cons, List.mem_cons, not_or] at hnd
      exact fun h => hnd.1.1 h.symm
    rw [withBlocks_cons, withBlocks_cons, withBlocks_cons, withBlocks_cons,
      Function.update_comm hne]
  | trans h h' ih ih' => rw [ih hnd, ih' ((h.map _).nodup_iff.1 hnd)]

namespace Owned

theorem perm (h : Owned s ps loose base held) (hp : held.Perm held') :
    Owned s ps loose base held' := by
  refine ⟨?_, (hp.map _).nodup_iff.1 h.nodup, fun e he => h.base e (hp.mem_iff.2 he)⟩
  rw [← withBlocks_perm hp h.nodup]
  exact h.spaces

/-- The list stays, and the address spaces change. -/
theorem of_spaces {ps' : List Addr} {loose' : Addr → ℕ} (h : Owned s ps loose base held)
    (hs : Spaces s' ps' loose' (withBlocks base held)) : Owned s' ps' loose' base held :=
  ⟨hs, h.nodup, h.base⟩

/-- The allocator has the same blocks where the same is held and referred to. -/
theorem blocks_eq (h : Owned s ps loose base held) (h' : Owned s' ps loose base held)
    (hrefs : refsAll s'.mem ps = refsAll s.mem ps) (p : Addr) :
    Memory.blocks s'.alloc p = Memory.blocks s.alloc p := by
  rw [h'.spaces.owns.blocks, h.spaces.owns.blocks, hrefs]

/-- A block that is held is there, with one owner. -/
theorem blocks_of_mem (h : Owned s ps loose base held) (hm : (x, k) ∈ held) :
    Memory.blocks s.alloc x = some (k, 1) := by
  have hother : withBlocks base held x = some (k, 1) := by
    rw [withBlocks]
    cases hf : held.find? (·.1 = x) with
    | none =>
      rw [List.find?_eq_none] at hf
      exact absurd (by simp) (hf _ hm)
    | some e =>
      have hx : e.1 = x := by simpa using List.find?_some hf
      have he : e = (x, k) :=
        List.inj_on_of_nodup_map h.nodup (List.mem_of_find?_eq_some hf) hm hx
      rw [he]
      rfl
  rw [h.spaces.owns.blocks x, if_pos, hother]
  by_contra hne
  rw [h.spaces.owns.disjoint x hne] at hother
  cases hother

/-- A block of whole pages is not at `NULL`. -/
theorem ne_zero (h : Owned s ps loose base held) (hm : (x, k) ∈ held) (hk : Memory.pageSize ≤ k) :
    x ≠ 0 :=
  (pageAligned_of_blocks h.spaces.owns.inv h.spaces.owns.real (h.blocks_of_mem hm) hk).2

/-- A block is allocated, or there is no memory for it. -/
theorem allocBlock (h : Owned s ps loose base held) (size : ℕ) :
    ((allocate s.alloc size).1 = 0 ∧
      Owned { s with alloc := (allocate s.alloc size).2 } ps loose base held) ∨
    ((allocate s.alloc size).1 ≠ 0 ∧
      Owned { s with alloc := (allocate s.alloc size).2 } ps loose base
        (((allocate s.alloc size).1, blockBytes size) :: held)) := by
  rcases h.spaces.owns.allocOther size with ⟨h0, ho⟩ | ⟨h0, -, hnone, ho⟩
  · exact .inl ⟨h0, ⟨ho, h.spaces.table⟩, h.nodup, h.base⟩
  · have hnew : (allocate s.alloc size).1 ∉ held.map Prod.fst := by
      intro hm
      obtain ⟨⟨x, k⟩, he, hx⟩ := List.mem_map.1 hm
      rw [withBlocks] at hnone
      cases hf : held.find? (·.1 = (allocate s.alloc size).1) with
      | none =>
        rw [List.find?_eq_none] at hf
        exact hf _ he (by simpa using hx)
      | some e =>
        rw [hf] at hnone
        cases hnone
    refine .inr ⟨h0, ⟨?_, h.spaces.table⟩, ?_, ?_⟩
    · rw [withBlocks_cons]
      exact ho
    · rw [List.map_cons, List.nodup_cons]
      exact ⟨hnew, h.nodup⟩
    · intro e he
      rcases List.mem_cons.1 he with rfl | he
      · rwa [withBlocks_of_notMem hnew] at hnone
      · exact h.base e he

/-- A block is freed. -/
theorem freeBlock (h : Owned s ps loose base ((x, k) :: held)) :
    Owned (s.freePage x) ps loose base held := by
  have hnd := h.nodup
  rw [List.map_cons, List.nodup_cons] at hnd
  have ho := h.spaces.owns
  rw [withBlocks_cons] at ho
  refine ⟨⟨?_, h.spaces.table⟩, hnd.2, fun e he => h.base e (List.mem_cons_of_mem _ he)⟩
  have hfree := ho.freeOther (Function.update_self x (some (k, 1)) (withBlocks base held))
  have hback : Function.update (Function.update (withBlocks base held) x (some (k, 1))) x none =
      withBlocks base held := by
    have hx : withBlocks base held x = none := by
      rw [withBlocks_of_notMem hnd.1]
      exact h.base _ (List.mem_cons_self ..)
    rw [Function.update_idem, ← hx, Function.update_eq_self]
  rw [hback] at hfree
  exact hfree

/-- Several blocks are freed. -/
theorem freeBlocks {l : List (Addr × ℕ)} (h : Owned s ps loose base (l ++ held)) :
    Owned (s.freeAll (l.map Prod.fst)) ps loose base held := by
  induction l generalizing s with
  | nil => exact h
  | cons e l ih => exact ih h.freeBlock

end Owned

end BareMetalOS.Mmu
