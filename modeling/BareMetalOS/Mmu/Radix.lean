import BareMetalOS.Mmu.PageTable

/-!
# Reading page tables

An address space as it is read off the memory: the middle tables, the last tables and the leaves
under the first `n` entries of a PGD (`pmdAt`, `ptAt`, `leafAt`): 512 for all of it, and 256 for the
user half. Where the tables are apart from each other, a write to a table changes the address space
at one place: one leaf (`Apart.store_leaf`), or the place of a new table (`Apart.install_pmd`,
`Apart.install_pt`).
-/

namespace BareMetalOS.Mmu

open Memory (Addr)

/-- The place of a leaf: the indices on the three levels. -/
abbrev Leaf := Fin 512 × Fin 512 × Fin 512

/-- A word as an entry, if it is valid. -/
def validEntry (w : BitVec 64) : Option (BitVec 64) := if HasFlag w pteV then some w else none

/-- The page to which the entry `i` of a table leads. -/
def next (m : Mem) (table : Addr) (i : Fin 512) : Option Addr :=
  (validEntry (m table i)).map frameAt

/-- The middle tables under the first `n` entries. -/
def pmdAt (n : ℕ) (m : Mem) (pgd : Addr) (i : Fin 512) : Option Addr :=
  if i.val < n then next m pgd i else none

/-- The last tables. -/
def ptAt (n : ℕ) (m : Mem) (pgd : Addr) (x : Fin 512 × Fin 512) : Option Addr :=
  (pmdAt n m pgd x.1).bind fun pmd => next m pmd x.2

/-- The valid leaves. -/
def leafAt (n : ℕ) (m : Mem) (pgd : Addr) (x : Leaf) : Option (BitVec 64) :=
  (ptAt n m pgd (x.1, x.2.1)).bind fun pt => validEntry (m pt x.2.2)

/-- The page is a table of the address space. -/
def IsTable (n : ℕ) (m : Mem) (pgd p : Addr) : Prop :=
  p = pgd ∨ (∃ i, pmdAt n m pgd i = some p) ∨ ∃ x, ptAt n m pgd x = some p

variable {n : ℕ} {m m' : Mem} {pgd pmd pt p q : Addr} {i j k : Fin 512} {w : BitVec 64}

/-! ## Reading -/

theorem validEntry_eq_some {w' : BitVec 64} : validEntry w = some w' ↔ HasFlag w pteV ∧ w = w' := by
  unfold validEntry
  split
  · simp [*]
  · simp [*]

theorem validEntry_eq_none : validEntry w = none ↔ ¬ HasFlag w pteV := by
  simp [validEntry]

theorem next_eq_some : next m p i = some q ↔ HasFlag (m p i) pteV ∧ frameAt (m p i) = q := by
  simp [next, validEntry_eq_some]

theorem ptAt_eq_some : ptAt n m pgd (i, j) = some pt ↔
    ∃ pmd, pmdAt n m pgd i = some pmd ∧ next m pmd j = some pt :=
  Option.bind_eq_some_iff

theorem leafAt_eq_some : leafAt n m pgd (i, j, k) = some w ↔
    ∃ pt, ptAt n m pgd (i, j) = some pt ∧ HasFlag (m pt k) pteV ∧ m pt k = w := by
  rw [leafAt, Option.bind_eq_some_iff]
  simp only [validEntry_eq_some]

/-- What is read of an address space depends on its tables. -/
structure SameSpace (n : ℕ) (m m' : Mem) (pgd : Addr) : Prop where
  pmd : pmdAt n m' pgd = pmdAt n m pgd
  pt : ptAt n m' pgd = ptAt n m pgd
  leaf : leafAt n m' pgd = leafAt n m pgd

theorem sameSpace_of_eq (h : ∀ p, IsTable n m pgd p → m' p = m p) : SameSpace n m m' pgd := by
  have hpmd : pmdAt n m' pgd = pmdAt n m pgd := by
    funext i
    rw [pmdAt, pmdAt, next, next, h pgd (.inl rfl)]
  have hpt : ptAt n m' pgd = ptAt n m pgd := by
    funext x
    rw [ptAt, ptAt, hpmd]
    cases hx : pmdAt n m pgd x.1 with
    | none => rfl
    | some pmd => rw [Option.bind_some, Option.bind_some, next, next, h pmd (.inr (.inl ⟨_, hx⟩))]
  refine ⟨hpmd, hpt, ?_⟩
  funext x
  rw [leafAt, leafAt, hpt]
  cases hx : ptAt n m pgd (x.1, x.2.1) with
  | none => rfl
  | some pt => rw [Option.bind_some, Option.bind_some, h pt (.inr (.inr ⟨_, hx⟩))]

theorem SameSpace.isTable (h : SameSpace n m m' pgd) (p : Addr) :
    IsTable n m' pgd p ↔ IsTable n m pgd p := by
  rw [IsTable, IsTable, h.pmd, h.pt]

theorem isTable_pmd (h : pmdAt n m pgd i = some p) : IsTable n m pgd p := .inr (.inl ⟨i, h⟩)

theorem isTable_pt {x : Fin 512 × Fin 512} (h : ptAt n m pgd x = some p) : IsTable n m pgd p :=
  .inr (.inr ⟨x, h⟩)

/-! ## Tables apart from each other -/

/-- Each table is reached in one way. -/
structure Apart (n : ℕ) (m : Mem) (pgd : Addr) : Prop where
  pmd_ne : ∀ {i pmd}, pmdAt n m pgd i = some pmd → pmd ≠ pgd
  pt_ne : ∀ {x pt}, ptAt n m pgd x = some pt → pt ≠ pgd
  pt_ne_pmd : ∀ {x i pt pmd}, ptAt n m pgd x = some pt → pmdAt n m pgd i = some pmd → pt ≠ pmd
  pmd_inj : ∀ {i i' pmd}, pmdAt n m pgd i = some pmd → pmdAt n m pgd i' = some pmd → i = i'
  pt_inj : ∀ {x x' pt}, ptAt n m pgd x = some pt → ptAt n m pgd x' = some pt → x = x'

variable {s : Vm}

theorem store_mem : (s.store p i w).mem = Function.update s.mem p (Function.update (s.mem p) i w) :=
  rfl

theorem setPage_mem {words : Fin 512 → BitVec 64} :
    (s.setPage p words).mem = Function.update s.mem p words :=
  rfl

@[simp] theorem store_alloc : (s.store p i w).alloc = s.alloc := rfl

@[simp] theorem setPage_alloc {words : Fin 512 → BitVec 64} : (s.setPage p words).alloc = s.alloc :=
  rfl

theorem store_mem_of_ne (h : q ≠ p) : (s.store p i w).mem q = s.mem q := by
  rw [store_mem, Function.update_of_ne h]

theorem store_mem_self : (s.store p i w).mem p = Function.update (s.mem p) i w := by
  rw [store_mem, Function.update_self]

/-- A store to a page that is no table of the address space. -/
theorem sameSpace_store (h : ¬ IsTable n s.mem pgd p) : SameSpace n s.mem (s.store p i w).mem pgd :=
  sameSpace_of_eq fun q hq => store_mem_of_ne (by rintro rfl; exact h hq)

/-- The same for a whole page. -/
theorem sameSpace_setPage {words : Fin 512 → BitVec 64} (h : ¬ IsTable n s.mem pgd p) :
    SameSpace n s.mem (s.setPage p words).mem pgd :=
  sameSpace_of_eq fun q hq => by
    rw [setPage_mem, Function.update_of_ne (by rintro rfl; exact h hq)]

theorem pmdAt_store_of_ne (h : p ≠ pgd) : pmdAt n (s.store p i w).mem pgd = pmdAt n s.mem pgd := by
  funext i'
  rw [pmdAt, pmdAt, next, next, store_mem_of_ne h.symm]

/-- A store to a last table changes one leaf. -/
theorem Apart.store_leaf (h : Apart n s.mem pgd) (hpt : ptAt n s.mem pgd (i, j) = some pt)
    (k : Fin 512) (w : BitVec 64) :
    pmdAt n (s.store pt k w).mem pgd = pmdAt n s.mem pgd ∧
      ptAt n (s.store pt k w).mem pgd = ptAt n s.mem pgd ∧
      leafAt n (s.store pt k w).mem pgd =
        Function.update (leafAt n s.mem pgd) (i, j, k) (validEntry w) := by
  have hpmd : pmdAt n (s.store pt k w).mem pgd = pmdAt n s.mem pgd :=
    pmdAt_store_of_ne (h.pt_ne hpt)
  have hpts : ptAt n (s.store pt k w).mem pgd = ptAt n s.mem pgd := by
    funext x
    rw [ptAt, ptAt, hpmd]
    cases hx : pmdAt n s.mem pgd x.1 with
    | none => rfl
    | some pmd =>
      rw [Option.bind_some, Option.bind_some, next, next, store_mem_of_ne (h.pt_ne_pmd hpt hx).symm]
  refine ⟨hpmd, hpts, ?_⟩
  funext ⟨i', j', k'⟩
  rw [leafAt, hpts]
  dsimp only
  by_cases hij : (i', j') = (i, j)
  · obtain ⟨rfl, rfl⟩ := Prod.mk.inj hij
    rw [hpt, Option.bind_some, store_mem_self]
    rcases eq_or_ne k' k with rfl | hk
    · rw [Function.update_self, Function.update_self]
    · rw [Function.update_of_ne hk, Function.update_of_ne (by simpa using hk), leafAt, hpt,
        Option.bind_some]
  · rw [Function.update_of_ne (by rintro ⟨⟩; exact hij rfl), leafAt]
    dsimp only
    cases hx : ptAt n s.mem pgd (i', j') with
    | none => rfl
    | some pt' =>
      have hne : pt' ≠ pt := by
        rintro rfl
        exact hij (h.pt_inj hx hpt)
      rw [Option.bind_some, Option.bind_some, store_mem_of_ne hne]

/-! ## New tables -/

/-- A page of zeros, and an entry that leads to it. -/
def Vm.install (s : Vm) (q table : Addr) (i : Fin 512) : Vm :=
  (s.setPage q fun _ => 0).store table i (entryOf q pteV)

theorem validEntry_zero : validEntry 0 = none := validEntry_eq_none.2 (by decide)

theorem next_entryOf (hq : PageAligned q) (h : m p i = entryOf q pteV) : next m p i = some q := by
  refine next_eq_some.2 ⟨?_, ?_⟩
  · rw [h, hasFlag_entryOf_v]
    decide
  · rw [h, frameAt_entryOf hq (by decide)]

theorem next_zero (h : m p = fun _ => 0) : next m p i = none := by
  rw [next, h, validEntry_zero]
  rfl

theorem install_mem_new {table : Addr} (h : q ≠ table) :
    (s.install q table i).mem q = fun _ => 0 := by
  rw [Vm.install, store_mem_of_ne h, setPage_mem, Function.update_self]

theorem install_mem_table {table : Addr} (h : q ≠ table) :
    (s.install q table i).mem table = Function.update (s.mem table) i (entryOf q pteV) := by
  rw [Vm.install, store_mem_self, setPage_mem, Function.update_of_ne h.symm]

theorem install_mem_of_ne {table : Addr} (hq : p ≠ q) (ht : p ≠ table) :
    (s.install q table i).mem p = s.mem p := by
  rw [Vm.install, store_mem_of_ne ht, setPage_mem, Function.update_of_ne hq]

/-- An address space to which neither of the two pages belongs. -/
theorem sameSpace_install {table : Addr} (hq : ¬ IsTable n s.mem pgd q)
    (ht : ¬ IsTable n s.mem pgd table) : SameSpace n s.mem (s.install q table i).mem pgd := by
  apply sameSpace_of_eq
  intro p hp
  refine install_mem_of_ne ?_ ?_
  · rintro rfl
    exact hq hp
  · rintro rfl
    exact ht hp

theorem next_install {table : Addr} (hq : PageAligned q) (hne : q ≠ table) :
    next (s.install q table i).mem table = Function.update (next s.mem table) i (some q) := by
  funext i'
  rcases eq_or_ne i' i with rfl | hi
  · rw [Function.update_self]
    exact next_entryOf hq (by rw [install_mem_table hne, Function.update_self])
  · rw [Function.update_of_ne hi, next, next, install_mem_table hne, Function.update_of_ne hi]

/-- A new middle table. -/
theorem Apart.install_pmd (h : Apart n s.mem pgd) (hpmd : pmdAt n s.mem pgd i = none)
    (hi : i.val < n) (hq : PageAligned q) (hnew : ¬ IsTable n s.mem pgd q) :
    pmdAt n (s.install q pgd i).mem pgd = Function.update (pmdAt n s.mem pgd) i (some q) ∧
      ptAt n (s.install q pgd i).mem pgd = ptAt n s.mem pgd ∧
      leafAt n (s.install q pgd i).mem pgd = leafAt n s.mem pgd := by
  have hne : q ≠ pgd := by
    rintro rfl
    exact hnew (.inl rfl)
  have hpmds : pmdAt n (s.install q pgd i).mem pgd =
      Function.update (pmdAt n s.mem pgd) i (some q) := by
    funext i'
    rw [pmdAt, next_install hq hne]
    rcases eq_or_ne i' i with rfl | hi'
    · rw [Function.update_self, Function.update_self, if_pos hi]
    · rw [Function.update_of_ne hi', Function.update_of_ne hi', pmdAt]
  have hpts : ptAt n (s.install q pgd i).mem pgd = ptAt n s.mem pgd := by
    funext ⟨i', j⟩
    rw [ptAt, ptAt, hpmds]
    dsimp only
    rcases eq_or_ne i' i with rfl | hi'
    · rw [Function.update_self, hpmd, Option.bind_some, next_zero (install_mem_new hne)]
      rfl
    · rw [Function.update_of_ne hi']
      cases hx : pmdAt n s.mem pgd i' with
      | none => rfl
      | some pmd =>
        have hpq : pmd ≠ q := by
          rintro rfl
          exact hnew (isTable_pmd hx)
        rw [Option.bind_some, Option.bind_some, next, next, install_mem_of_ne hpq (h.pmd_ne hx)]
  refine ⟨hpmds, hpts, ?_⟩
  funext x
  rw [leafAt, leafAt, hpts]
  cases hx : ptAt n s.mem pgd (x.1, x.2.1) with
  | none => rfl
  | some pt =>
    have hpq : pt ≠ q := by
      rintro rfl
      exact hnew (isTable_pt hx)
    rw [Option.bind_some, Option.bind_some, install_mem_of_ne hpq (h.pt_ne hx)]

/-- A new last table. -/
theorem Apart.install_pt (h : Apart n s.mem pgd) (hpmd : pmdAt n s.mem pgd i = some pmd)
    (hpt : ptAt n s.mem pgd (i, j) = none) (hq : PageAligned q) (hnew : ¬ IsTable n s.mem pgd q) :
    pmdAt n (s.install q pmd j).mem pgd = pmdAt n s.mem pgd ∧
      ptAt n (s.install q pmd j).mem pgd = Function.update (ptAt n s.mem pgd) (i, j) (some q) ∧
      leafAt n (s.install q pmd j).mem pgd = leafAt n s.mem pgd := by
  have hqp : q ≠ pmd := by
    rintro rfl
    exact hnew (isTable_pmd hpmd)
  have hqg : q ≠ pgd := by
    rintro rfl
    exact hnew (.inl rfl)
  have hpmds : pmdAt n (s.install q pmd j).mem pgd = pmdAt n s.mem pgd := by
    funext i'
    rw [pmdAt, pmdAt, next, next, install_mem_of_ne hqg.symm (h.pmd_ne hpmd).symm]
  have hpts : ptAt n (s.install q pmd j).mem pgd =
      Function.update (ptAt n s.mem pgd) (i, j) (some q) := by
    funext ⟨i', j'⟩
    rw [ptAt, hpmds]
    dsimp only
    rcases eq_or_ne i' i with rfl | hi'
    · rw [hpmd, Option.bind_some, next_install hq hqp]
      rcases eq_or_ne j' j with rfl | hj'
      · rw [Function.update_self, Function.update_self]
      · rw [Function.update_of_ne hj', Function.update_of_ne (by simpa using hj'), ptAt, hpmd,
          Option.bind_some]
    · rw [Function.update_of_ne (by simp [hi']), ptAt]
      cases hx : pmdAt n s.mem pgd i' with
      | none => rfl
      | some pmd' =>
        have hne : pmd' ≠ pmd := by
          rintro rfl
          exact hi' (h.pmd_inj hx hpmd)
        have hpq : pmd' ≠ q := by
          rintro rfl
          exact hnew (isTable_pmd hx)
        rw [Option.bind_some, Option.bind_some, next, next, install_mem_of_ne hpq hne]
  refine ⟨hpmds, hpts, ?_⟩
  funext ⟨i', j', k⟩
  rw [leafAt, leafAt, hpts]
  dsimp only
  by_cases hij : (i', j') = (i, j)
  · rw [hij, Function.update_self, hpt, Option.bind_some, install_mem_new hqp, validEntry_zero]
    rfl
  · rw [Function.update_of_ne hij]
    cases hx : ptAt n s.mem pgd (i', j') with
    | none => rfl
    | some pt =>
      have hpq : pt ≠ q := by
        rintro rfl
        exact hnew (isTable_pt hx)
      rw [Option.bind_some, Option.bind_some, install_mem_of_ne hpq (h.pt_ne_pmd hx hpmd)]

end BareMetalOS.Mmu
