import BareMetalOS.Memory.AnyCalls
import Mathlib.Logic.Relation

/-!
# Sequences of calls

`AllocCalls s s'`: some calls of `allocate`, `free` and `page_inc_ref`, with any arguments, lead
from `s` to `s'`. All that such calls keep is collected in `AllocCalls.keeps`, and what holds after
`allocator_init` and any calls holds after more of them (`AllocReachable.calls`).
-/

namespace BareMetalOS.Memory

variable {s s' s'' : Allocator}

/-- A call. -/
inductive AllocCall (s : Allocator) : Allocator → Prop
  | allocate (size : ℕ) : AllocCall s (allocate s size).2
  | free (ptr : Addr) : AllocCall s (free s ptr)
  | pageIncRef (ptr : Addr) : AllocCall s (pageIncRef s ptr)

/-- Any number of calls. -/
def AllocCalls (s s' : Allocator) : Prop := Relation.ReflTransGen AllocCall s s'

namespace AllocCalls

theorem refl (s : Allocator) : AllocCalls s s := Relation.ReflTransGen.refl

theorem trans (h : AllocCalls s s') (h' : AllocCalls s' s'') : AllocCalls s s'' :=
  Relation.ReflTransGen.trans h h'

theorem allocate (s : Allocator) (size : ℕ) : AllocCalls s (Memory.allocate s size).2 :=
  .single (.allocate size)

theorem free (s : Allocator) (ptr : Addr) : AllocCalls s (Memory.free s ptr) := .single (.free ptr)

theorem pageIncRef (s : Allocator) (ptr : Addr) : AllocCalls s (Memory.pageIncRef s ptr) :=
  .single (.pageIncRef ptr)

/-- The invariant, the pool and the reserved pages stay. -/
theorem keeps (h : AllocCalls s s') (hs : AllocInv s) : AllocInv s' ∧ SamePool s.buddy s'.buddy ∧
    ∀ j, (s'.buddy.frameArray j).state = .reserved ↔ (s.buddy.frameArray j).state = .reserved := by
  induction h with
  | refl => exact ⟨hs, .refl _, fun _ => Iff.rfl⟩
  | @tail a b _ hab ih =>
    obtain ⟨hinv, hpool, hres⟩ := ih
    obtain ⟨ptr, hk⟩ : ∃ ptr, Keeps a b ptr := by
      cases hab with
      | allocate size => exact ⟨none, (allocate_spec hinv size).1⟩
      | free ptr => exact ⟨some ptr, free_spec hinv ptr⟩
      | pageIncRef ptr => exact ⟨none, pageIncRef_spec hinv ptr⟩
    exact ⟨hk.inv, hpool.trans hk.pool, fun j => (hk.reserved j).trans (hres j)⟩

end AllocCalls

/-- The states after `allocator_init` are closed under calls. -/
theorem AllocReachable.calls (hs : AllocReachable s) (h : AllocCalls s s') : AllocReachable s' := by
  induction h with
  | refl => exact hs
  | tail _ hab ih =>
    cases hab with
    | allocate size => exact ih.allocate size
    | free ptr => exact ih.free ptr
    | pageIncRef ptr => exact ih.pageIncRef ptr

end BareMetalOS.Memory
