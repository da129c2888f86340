import BareMetalOS.Foundations.Fiber
import BareMetalOS.Mmu.Ownership
import BareMetalOS.Mmu.Radix

/-!
# The user half of an address space

The references of an address space to pages, through its tables and its leaves. There is one
reference to each table (`Tree`), so that the tables are apart from each other (`Tree.apart`).
-/

namespace BareMetalOS.Mmu

open Memory (Addr Allocator pageSize)

/-- The frames that the leaves map. -/
def mapped (m : Mem) (pgd : Addr) (x : Leaf) : Option Addr := (leafAt 256 m pgd x).map frameAt

/-- The references of an address space to a page. -/
def refsIn (m : Mem) (pgd p : Addr) : ℕ :=
  (if p = pgd then 1 else 0) + fiber (pmdAt 256 m pgd) p + fiber (ptAt 256 m pgd) p +
    fiber (mapped m pgd) p

variable {m m' : Mem} {pgd pmd pt p q : Addr} {i j k : Fin 512} {w : BitVec 64}

theorem SameSpace.mapped (h : SameSpace 256 m m' pgd) : mapped m' pgd = mapped m pgd := by
  funext x
  rw [Mmu.mapped, Mmu.mapped, h.leaf]

theorem SameSpace.refsIn (h : SameSpace 256 m m' pgd) (p : Addr) :
    refsIn m' pgd p = refsIn m pgd p := by
  rw [Mmu.refsIn, Mmu.refsIn, h.pmd, h.pt, h.mapped]

/-- One leaf has changed. -/
theorem mapped_update {x : Leaf} {o : Option (BitVec 64)}
    (h : leafAt 256 m' pgd = Function.update (leafAt 256 m pgd) x o) :
    mapped m' pgd = Function.update (mapped m pgd) x (o.map frameAt) := by
  funext y
  rw [mapped, h]
  rcases eq_or_ne y x with rfl | hne
  · rw [Function.update_self, Function.update_self]
  · rw [Function.update_of_ne hne, Function.update_of_ne hne, mapped]

theorem refsIn_pos_of_isTable (h : IsTable 256 m pgd p) : 0 < refsIn m pgd p := by
  rw [refsIn]
  rcases h with rfl | ⟨i, hi⟩ | ⟨x, hx⟩
  · simp
  · have := fiber_pos.2 ⟨i, hi⟩
    omega
  · have := fiber_pos.2 ⟨x, hx⟩
    omega

theorem refsIn_pos_of_mapped {x : Leaf} (h : mapped m pgd x = some p) : 0 < refsIn m pgd p := by
  rw [refsIn]
  have := fiber_pos.2 ⟨x, h⟩
  omega

/-! ## One address space -/

/-- There is one reference to each table, so that the tables form a tree. -/
def Tree (m : Mem) (pgd : Addr) : Prop := ∀ p, IsTable 256 m pgd p → refsIn m pgd p = 1

/-- The tables of a tree are apart from each other. -/
theorem Tree.apart (h : Tree m pgd) : Apart 256 m pgd where
  pmd_ne {i pmd} hp := by
    rintro rfl
    have hone := h pmd (.inl rfl)
    have := fiber_pos.2 ⟨i, hp⟩
    rw [refsIn, if_pos rfl] at hone
    omega
  pt_ne {x pt} hp := by
    rintro rfl
    have hone := h pt (.inl rfl)
    have := fiber_pos.2 ⟨x, hp⟩
    rw [refsIn, if_pos rfl] at hone
    omega
  pt_ne_pmd {x i pt pmd} hp hi := by
    rintro rfl
    have hone := h pt (isTable_pt hp)
    have := fiber_pos.2 ⟨x, hp⟩
    have := fiber_pos.2 ⟨i, hi⟩
    rw [refsIn] at hone
    omega
  pmd_inj {i i' pmd} hi hi' := by
    have hone := h pmd (isTable_pmd hi)
    rw [refsIn] at hone
    exact eq_of_fiber_le_one (by omega) hi hi'
  pt_inj {x x' pt} hx hx' := by
    have hone := h pt (isTable_pt hx)
    rw [refsIn] at hone
    exact eq_of_fiber_le_one (by omega) hx hx'

end BareMetalOS.Mmu
