import BareMetalOS.Mmu.Tables

/-!
# Address spaces and the allocator

`Spaces` is the invariant of the address spaces together. The allocator knows of exactly the
references of their tables, of some that no table holds (`loose`: a page between its allocation and
its mapping, or one that was lost) and of other blocks; and there is one reference to each table. A
mapping moves a reference from `loose` into a table, so that the allocator is not concerned.
-/

namespace BareMetalOS.Mmu

open Memory (Addr Allocator pageSize)

variable {m m' : Mem} {ps ps' : List Addr} {pgd pgd' pmd pt p q : Addr} {i j k : Fin 512}
  {w : BitVec 64} {s s' : Vm} {loose loose' : Addr → ℕ} {other : Addr → Option (ℕ × ℤ)}

/-! ## References -/

/-- One reference, or none. -/
def bag (o : Option Addr) (p : Addr) : ℕ := if o = some p then 1 else 0

@[simp] theorem bag_none : bag none = 0 := by
  funext p
  simp [bag]

@[simp] theorem bag_some (p : Addr) : bag (some p) = Pi.single p 1 := by
  funext q
  rcases eq_or_ne q p with rfl | hne
  · simp [bag]
  · simp [bag, hne, hne.symm]

theorem fiber_update_bag {ι : Type} [Fintype ι] [DecidableEq ι] (g : ι → Option Addr) (x : ι)
    (v : Option Addr) (p : Addr) :
    fiber (Function.update g x v) p + bag (g x) p = fiber g p + bag v p :=
  fiber_update g x v p

/-- The references of several address spaces to a page. -/
def refsAll (m : Mem) (ps : List Addr) (p : Addr) : ℕ := (ps.map fun pgd => refsIn m pgd p).sum

@[simp] theorem refsAll_nil : refsAll m [] = 0 := rfl

theorem refsAll_cons (m : Mem) (pgd : Addr) (ps : List Addr) :
    refsAll m (pgd :: ps) = refsIn m pgd + refsAll m ps := by
  funext p
  rw [refsAll, List.map_cons, List.sum_cons]
  rfl

theorem refsAll_perm (h : ps.Perm ps') : refsAll m ps = refsAll m ps' := by
  funext p
  exact (h.map _).sum_eq

theorem refsAll_congr (h : ∀ pgd ∈ ps, SameSpace 256 m m' pgd) : refsAll m' ps = refsAll m ps := by
  funext p
  rw [refsAll, refsAll, List.map_congr_left fun pgd hm => (h pgd hm).refsIn p]

theorem refsIn_le_refsAll (h : pgd ∈ ps) : refsIn m pgd p ≤ refsAll m ps p :=
  List.single_le_sum (by simp) _ (List.mem_map_of_mem h)

/-! ## New tables -/

/-- The page `q` becomes a table of the address space, under the entry `i` of `table`. -/
structure Installs (s : Vm) (q pgd table : Addr) (i : Fin 512) : Prop where
  place : IsTable 256 s.mem pgd table
  refs : refsIn (s.install q table i).mem pgd = refsIn s.mem pgd + Pi.single q 1
  tables : ∀ p, IsTable 256 (s.install q table i).mem pgd p → p = q ∨ IsTable 256 s.mem pgd p
  pmd : ∀ i' p, pmdAt 256 s.mem pgd i' = some p →
    pmdAt 256 (s.install q table i).mem pgd i' = some p
  pt : ∀ x p, ptAt 256 s.mem pgd x = some p → ptAt 256 (s.install q table i).mem pgd x = some p
  leaf : leafAt 256 (s.install q table i).mem pgd = leafAt 256 s.mem pgd
  lower : table = pgd → i.val < 256

theorem Tree.installs_pmd (h : Tree s.mem pgd) (hpmd : pmdAt 256 s.mem pgd i = none)
    (hi : i.val < 256)
    (hq : PageAligned q) (hnew : ¬ IsTable 256 s.mem pgd q) : Installs s q pgd pgd i := by
  obtain ⟨hpmds, hpts, hleaf⟩ := h.apart.install_pmd hpmd hi hq hnew
  refine ⟨.inl rfl, ?_, fun p ht => ?_, fun i' p hp => ?_, fun x p hp => ?_, hleaf, fun _ => hi⟩
  · funext p
    have hfiber := fiber_update_bag (pmdAt 256 s.mem pgd) i (some q) p
    rw [hpmd, bag_none, bag_some, Pi.zero_apply] at hfiber
    have hmapped : mapped (s.install q pgd i).mem pgd = mapped s.mem pgd := by
      funext x
      rw [mapped, mapped, hleaf]
    rw [Pi.add_apply, refsIn, refsIn, hpmds, hpts, hmapped]
    omega
  · rw [IsTable, hpmds, hpts] at ht
    rcases ht with rfl | ⟨i', hi'⟩ | hx
    · exact .inr (.inl rfl)
    · rcases eq_or_ne i' i with rfl | hne
      · rw [Function.update_self] at hi'
        exact .inl (Option.some_inj.1 hi').symm
      · rw [Function.update_of_ne hne] at hi'
        exact .inr (isTable_pmd hi')
    · exact .inr (.inr (.inr hx))
  · rw [hpmds, Function.update_of_ne, hp]
    rintro rfl
    rw [hpmd] at hp
    cases hp
  · rw [hpts, hp]

theorem Tree.installs_pt (h : Tree s.mem pgd) (hpmd : pmdAt 256 s.mem pgd i = some pmd)
    (hpt : ptAt 256 s.mem pgd (i, j) = none) (hq : PageAligned q)
    (hnew : ¬ IsTable 256 s.mem pgd q) : Installs s q pgd pmd j := by
  obtain ⟨hpmds, hpts, hleaf⟩ := h.apart.install_pt hpmd hpt hq hnew
  refine ⟨isTable_pmd hpmd, ?_, fun p ht => ?_, fun i' p hp => ?_, fun x p hp => ?_, hleaf,
    fun heq => absurd heq (h.apart.pmd_ne hpmd)⟩
  · funext p
    have hfiber := fiber_update_bag (ptAt 256 s.mem pgd) (i, j) (some q) p
    rw [hpt, bag_none, bag_some, Pi.zero_apply] at hfiber
    have hmapped : mapped (s.install q pmd j).mem pgd = mapped s.mem pgd := by
      funext x
      rw [mapped, mapped, hleaf]
    rw [Pi.add_apply, refsIn, refsIn, hpmds, hpts, hmapped]
    omega
  · rw [IsTable, hpmds, hpts] at ht
    rcases ht with rfl | hi' | ⟨x, hx⟩
    · exact .inr (.inl rfl)
    · exact .inr (.inr (.inl hi'))
    · rcases eq_or_ne x (i, j) with rfl | hne
      · rw [Function.update_self] at hx
        exact .inl (Option.some_inj.1 hx).symm
      · rw [Function.update_of_ne hne] at hx
        exact .inr (isTable_pt hx)
  · rw [hpmds, hp]
  · rw [hpts, Function.update_of_ne, hp]
    rintro rfl
    rw [hpt] at hp
    cases hp

/-! ## The invariant -/

/-- The references to each page, and to tables in particular. -/
structure Spaces (s : Vm) (ps : List Addr) (loose : Addr → ℕ) (other : Addr → Option (ℕ × ℤ)) :
    Prop where
  owns : Owns s.alloc (refsAll s.mem ps + loose) other
  table : ∀ pgd ∈ ps, ∀ p, IsTable 256 s.mem pgd p → (refsAll s.mem ps + loose) p = 1

namespace Spaces

theorem perm (h : Spaces s ps loose other) (hp : ps.Perm ps') : Spaces s ps' loose other := by
  refine ⟨?_, fun pgd hm p ht => ?_⟩
  · rw [← refsAll_perm hp]
    exact h.owns
  · rw [← refsAll_perm hp]
    exact h.table pgd (hp.mem_iff.2 hm) p ht

theorem tree (h : Spaces s ps loose other) (hm : pgd ∈ ps) : Tree s.mem pgd := by
  intro p ht
  have hone := h.table pgd hm p ht
  have hle : refsIn s.mem pgd p ≤ refsAll s.mem ps p := refsIn_le_refsAll hm
  have hpos := refsIn_pos_of_isTable ht
  rw [Pi.add_apply] at hone
  omega

/-- A table is not referred to from outside its place. -/
theorem refs_table (h : Spaces s (pgd :: ps) loose other) (ht : IsTable 256 s.mem pgd p) :
    refsIn s.mem pgd p = 1 ∧ refsAll s.mem ps p = 0 ∧ loose p = 0 := by
  have hone := h.table pgd (by simp) p ht
  have htree := h.tree (by simp) p ht
  rw [refsAll_cons, Pi.add_apply, Pi.add_apply] at hone
  omega

theorem not_isTable_of_mem (h : Spaces s (pgd :: ps) loose other) (ht : IsTable 256 s.mem pgd p)
    (hm : pgd' ∈ ps) : ¬ IsTable 256 s.mem pgd' p := by
  intro ht'
  have hpos := refsIn_pos_of_isTable ht'
  have hle : refsIn s.mem pgd' p ≤ refsAll s.mem ps p := refsIn_le_refsAll hm
  have := (h.refs_table ht).2.1
  omega

theorem not_isTable_of_loose (h : Spaces s ps loose other) (hp : loose p ≠ 0) (hm : pgd ∈ ps) :
    ¬ IsTable 256 s.mem pgd p := by
  intro ht
  have hone := h.table pgd hm p ht
  have hpos := refsIn_pos_of_isTable ht
  have hle : refsIn s.mem pgd p ≤ refsAll s.mem ps p := refsIn_le_refsAll hm
  rw [Pi.add_apply] at hone
  omega

/-- A frame is no table. -/
theorem not_isTable_of_mapped {x : Leaf} (h : Spaces s ps loose other) (hm : pgd ∈ ps)
    (hx : mapped s.mem pgd x = some p) (hm' : pgd' ∈ ps) : ¬ IsTable 256 s.mem pgd' p := by
  intro ht
  rcases eq_or_ne pgd pgd' with rfl | hne
  · -- a reference from a table, and one from a leaf
    have hone := h.tree hm p ht
    have hpos := fiber_pos.2 ⟨x, hx⟩
    rw [refsIn] at hone
    rcases ht with rfl | ⟨i, hi⟩ | ⟨y, hy⟩
    · rw [if_pos rfl] at hone
      omega
    · have := fiber_pos.2 ⟨i, hi⟩
      omega
    · have := fiber_pos.2 ⟨y, hy⟩
      omega
  · have hperm := List.perm_cons_erase hm'
    have hmem : pgd ∈ ps.erase pgd' := (List.mem_erase_of_ne hne).2 hm
    have hle : refsIn s.mem pgd p ≤ refsAll s.mem (ps.erase pgd') p := refsIn_le_refsAll hmem
    have := ((h.perm hperm).refs_table ht).2.1
    have := refsIn_pos_of_mapped hx
    omega

/-- A change of memory that no address space sees. -/
theorem congr (h : Spaces s ps loose other) (halloc : s'.alloc = s.alloc)
    (hs : ∀ pgd ∈ ps, SameSpace 256 s.mem s'.mem pgd) : Spaces s' ps loose other := by
  refine ⟨?_, fun pgd hm p ht => ?_⟩
  · rw [halloc, refsAll_congr hs]
    exact h.owns
  · rw [refsAll_congr hs]
    exact h.table pgd hm p (((hs pgd hm).isTable p).1 ht)

/-- A change of one address space in which references move between it and `loose`. -/
theorem change (h : Spaces s (pgd :: ps) loose other) (halloc : s'.alloc = s.alloc)
    (hs : ∀ pgd' ∈ ps, SameSpace 256 s.mem s'.mem pgd')
    (htotal : refsIn s'.mem pgd + loose' = refsIn s.mem pgd + loose)
    (htable : ∀ p, IsTable 256 s'.mem pgd p → IsTable 256 s.mem pgd p ∨
      (refsAll s.mem (pgd :: ps) + loose) p = 1) : Spaces s' (pgd :: ps) loose' other := by
  have hall : refsAll s'.mem (pgd :: ps) + loose' = refsAll s.mem (pgd :: ps) + loose := by
    rw [refsAll_cons, refsAll_cons, refsAll_congr hs, add_right_comm, htotal, add_right_comm]
  refine ⟨?_, fun pgd' hm p ht => ?_⟩
  · rw [hall, halloc]
    exact h.owns
  · rw [hall]
    rcases List.mem_cons.1 hm with rfl | hm'
    · rcases htable p ht with ht' | hone
      · exact h.table pgd' hm p ht'
      · exact hone
    · exact h.table pgd' hm p (((hs pgd' hm').isTable p).1 ht)

/-! ## Pages in flight -/

/-- A page is allocated, and nothing refers to it yet. -/
theorem allocPage (h : Spaces s ps loose other) :
    (s.allocPage.1 = 0 ∧ Spaces s.allocPage.2 ps loose other) ∨
    (s.allocPage.1 ≠ 0 ∧ PageAligned s.allocPage.1 ∧
      (refsAll s.mem ps + loose) s.allocPage.1 = 0 ∧
      Spaces s.allocPage.2 ps (loose + Pi.single s.allocPage.1 1) other) := by
  rcases h.owns.allocPage with ⟨h0, ho⟩ | ⟨h0, hn, hal, ho⟩
  · exact .inl ⟨h0, ho, h.table⟩
  · refine .inr ⟨h0, hal, hn, ?_, fun pgd hm p ht => ?_⟩
    · rw [← add_assoc]
      exact ho
    · have hone := h.table pgd hm p ht
      have hne : p ≠ s.allocPage.1 := by
        rintro rfl
        rw [show (refsAll s.mem ps + loose) s.allocPage.1 = 0 from hn] at hone
        cases hone
      have hmem : s.allocPage.2.mem = s.mem := rfl
      rw [hmem, ← add_assoc, Pi.add_apply, hone, Pi.single_eq_of_ne hne,
        Nat.add_zero]

/-- A loose reference is dropped. -/
theorem freePage (h : Spaces s ps (loose + Pi.single p 1) other) :
    Spaces (s.freePage p) ps loose other := by
  refine ⟨?_, fun pgd hm q ht => ?_⟩
  · have ho := h.owns
    rw [← add_assoc] at ho
    exact ho.free
  · have hone := h.table pgd hm q ht
    have hne : q ≠ p := by
      rintro rfl
      exact h.not_isTable_of_loose (by simp) hm ht
    have hmem : (s.freePage p).mem = s.mem := rfl
    rw [hmem]
    simpa [hne] using hone

/-- A reference to a page that is no table is added. -/
theorem incRef (h : Spaces s ps loose other) (hp : (refsAll s.mem ps + loose) p ≠ 0)
    (hnt : ∀ pgd ∈ ps, ¬ IsTable 256 s.mem pgd p) :
    Spaces (s.incRef p) ps (loose + Pi.single p 1) other := by
  refine ⟨?_, fun pgd hm q ht => ?_⟩
  · rw [← add_assoc]
    exact h.owns.incRef hp
  · have hne : q ≠ p := by
      rintro rfl
      exact hnt pgd hm ht
    have hone := h.table pgd hm q ht
    have hmem : (s.incRef p).mem = s.mem := rfl
    rw [hmem]
    simpa [hne] using hone

/-- `get_page_ref` of a page that is referred to. -/
theorem getPageRef (h : Spaces s ps loose other) (hp : (refsAll s.mem ps + loose) p ≠ 0) :
    Memory.getPageRef s.alloc p = (refsAll s.mem ps p + loose p : ℕ) :=
  h.owns.getPageRef hp

/-! ## Stores to tables -/

/-- A store to a table of one address space is not seen by the others. -/
theorem sameSpace_store (h : Spaces s (pgd :: ps) loose other) (ht : IsTable 256 s.mem pgd p)
    (hm : pgd' ∈ ps) : SameSpace 256 s.mem (s.store p i w).mem pgd' :=
  Mmu.sameSpace_store (h.not_isTable_of_mem ht hm)

/-- A store to a last table moves the old reference to `loose` and takes the new one from there. -/
theorem refsIn_storeLeaf (h : Spaces s (pgd :: ps) loose other)
    (hpt : ptAt 256 s.mem pgd (i, j) = some pt)
    (hloose : loose' + bag ((validEntry w).map frameAt) =
      loose + bag (mapped s.mem pgd (i, j, k))) :
    refsIn (s.store pt k w).mem pgd + loose' = refsIn s.mem pgd + loose := by
  obtain ⟨hpmds, hpts, hleaf⟩ := (h.tree (by simp)).apart.store_leaf hpt k w
  have hmapped := mapped_update hleaf
  funext p
  have hfiber := fiber_update_bag (mapped s.mem pgd) (i, j, k) ((validEntry w).map frameAt) p
  have hl := congrFun hloose p
  simp only [Pi.add_apply] at hl ⊢
  rw [refsIn, refsIn, hpmds, hpts, hmapped]
  omega

theorem total_storeLeaf (h : Spaces s (pgd :: ps) loose other)
    (hpt : ptAt 256 s.mem pgd (i, j) = some pt)
    (hloose : loose' + bag ((validEntry w).map frameAt) =
      loose + bag (mapped s.mem pgd (i, j, k))) :
    refsAll (s.store pt k w).mem (pgd :: ps) + loose' = refsAll s.mem (pgd :: ps) + loose := by
  rw [refsAll_cons, refsAll_cons,
    refsAll_congr fun pgd' hm => h.sameSpace_store (isTable_pt hpt) hm,
    add_right_comm, h.refsIn_storeLeaf hpt hloose, add_right_comm]

theorem storeLeaf (h : Spaces s (pgd :: ps) loose other) (hpt : ptAt 256 s.mem pgd (i, j) = some pt)
    (hloose : loose' + bag ((validEntry w).map frameAt) =
      loose + bag (mapped s.mem pgd (i, j, k))) :
    Spaces (s.store pt k w) (pgd :: ps) loose' other := by
  obtain ⟨hpmds, hpts, -⟩ := (h.tree (by simp)).apart.store_leaf hpt k w
  refine h.change rfl (fun pgd' hm => h.sameSpace_store (isTable_pt hpt) hm)
    (h.refsIn_storeLeaf hpt hloose) fun p ht => .inl ?_
  rw [IsTable, hpmds, hpts] at ht
  exact ht

/-- A loose page becomes a table. -/
theorem install (h : Spaces s (pgd :: ps) (loose + Pi.single q 1) other)
    (hnew : (refsAll s.mem (pgd :: ps) + loose) q = 0) {table : Addr}
    (hi : Installs s q pgd table i) : Spaces (s.install q table i) (pgd :: ps) loose other := by
  refine h.change rfl (fun pgd' hm => ?_) ?_ fun p htp => ?_
  · exact sameSpace_install (h.not_isTable_of_loose (by simp) (by simp [hm]))
      (h.not_isTable_of_mem hi.place hm)
  · rw [hi.refs, add_assoc, add_comm (Pi.single q 1)]
  · rcases hi.tables p htp with rfl | htp'
    · right
      rw [← add_assoc, Pi.add_apply, hnew, Pi.single_eq_same]
    · exact .inl htp'

end Spaces

end BareMetalOS.Mmu
