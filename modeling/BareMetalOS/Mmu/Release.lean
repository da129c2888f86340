import BareMetalOS.Mmu.Walk

/-!
# Freeing an address space

`free_pgd` frees the pages of a list, in which each page is as often as the address space refers to
it (`count_pgdPages`). So the allocator gives up exactly the references of this address space
(`Spaces.freePgd`).
-/

namespace BareMetalOS.Mmu

open Memory (Addr Allocator pageSize)

variable {m : Mem} {ps : List Addr} {pgd table p : Addr} {s : Vm} {loose : Addr → ℕ}
  {other : Addr → Option (ℕ × ℤ)}

/-- Free the pages of a list. -/
def Vm.freeAll (s : Vm) (l : List Addr) : Vm := l.foldl Vm.freePage s

@[simp] theorem freeAll_mem (s : Vm) (l : List Addr) : (s.freeAll l).mem = s.mem := by
  induction l generalizing s with
  | nil => rfl
  | cons p l ih => exact ih (s.freePage p)

theorem freeAll_append (s : Vm) (l l' : List Addr) :
    s.freeAll (l ++ l') = (s.freeAll l).freeAll l' :=
  List.foldl_append

/-- The pages below the entries `l` of a table. -/
def entryPages (m : Mem) (table : Addr) (below : Addr → List Addr) (l : List (Fin 512)) :
    List Addr :=
  l.flatMap fun i => (next m table i).elim [] below

/-- A loop of `free_pgd` over the entries of a table. -/
theorem foldl_free (below : Mem → Addr → List Addr) (body : Vm → Addr → Vm)
    (hbody : ∀ s p, body s p = s.freeAll (below s.mem p)) (l : List (Fin 512)) (s : Vm) :
    l.foldl (fun s i =>
        if HasFlag (s.mem table i) pteV then body s (frameAt (s.mem table i)) else s) s =
      s.freeAll (entryPages s.mem table (below s.mem) l) := by
  induction l generalizing s with
  | nil => rfl
  | cons i l ih =>
    rw [List.foldl_cons, entryPages, List.flatMap_cons, freeAll_append]
    by_cases hv : HasFlag (s.mem table i) pteV
    · rw [if_pos hv, ih, hbody, freeAll_mem, next_eq_some.2 ⟨hv, rfl⟩]
      rfl
    · rw [if_neg hv, ih, next, validEntry_eq_none.2 hv]
      rfl

/-- The pages that the loops free. -/
def ptPages (m : Mem) (pt : Addr) : List Addr :=
  entryPages m pt (fun p => [p]) (List.finRange 512) ++ [pt]

/-- The pages that the loops free. -/
def pmdPages (m : Mem) (pmd : Addr) : List Addr :=
  entryPages m pmd (ptPages m) (List.finRange 512) ++ [pmd]

/-- The pages that `free_pgd` frees. -/
def pgdPages (m : Mem) (pgd : Addr) : List Addr := entryPages m pgd (pmdPages m) userHalf ++ [pgd]

theorem freePt_eq (s : Vm) (pt : Addr) : freePt s pt = s.freeAll (ptPages s.mem pt) := by
  rw [freePt, foldl_free (fun _ p => [p]) Vm.freePage fun s p => rfl, ptPages, freeAll_append]
  rfl

theorem freePmd_eq (s : Vm) (pmd : Addr) : freePmd s pmd = s.freeAll (pmdPages s.mem pmd) := by
  rw [freePmd, foldl_free ptPages freePt freePt_eq, pmdPages, freeAll_append]
  rfl

theorem freePgd_eq (s : Vm) (pgd : Addr) : freePgd s pgd = s.freeAll (pgdPages s.mem pgd) := by
  rw [freePgd, foldl_free pmdPages freePmd freePmd_eq, pgdPages, freeAll_append]
  rfl

/-! ## Counting -/

section Sums

variable {ι : Type} [Fintype ι]

theorem count_flatMap_finRange {n : ℕ} (f : Fin n → List Addr) (p : Addr) :
    ((List.finRange n).flatMap f).count p = ∑ i, (f i).count p := by
  rw [List.count_flatMap, Fin.sum_univ_def]
  rfl

/-- Entries that lead to lists of pages. -/
theorem count_flatMap_elim {n : ℕ} (g : Fin n → Option Addr) (below : Addr → List Addr) (p : Addr) :
    ((List.finRange n).flatMap fun i => (g i).elim [] below).count p =
      ∑ i, (g i).elim 0 fun q => (below q).count p := by
  rw [count_flatMap_finRange]
  apply Finset.sum_congr rfl
  intro i _
  cases g i <;> rfl

theorem sum_elim_add (g : ι → Option Addr) (f f' : Addr → ℕ) :
    (∑ i, (g i).elim 0 fun q => f q + f' q) = (∑ i, (g i).elim 0 f) + ∑ i, (g i).elim 0 f' := by
  rw [← Finset.sum_add_distrib]
  apply Finset.sum_congr rfl
  intro i _
  cases g i <;> rfl

theorem sum_elim_bag (g : ι → Option Addr) (p : Addr) :
    (∑ i, (g i).elim 0 fun q => bag (some q) p) = fiber g p := by
  rw [fiber, Finset.card_filter]
  apply Finset.sum_congr rfl
  intro i _
  cases g i <;> rfl

end Sums

theorem count_singleton_bag (p q : Addr) : List.count p [q] = bag (some q) p := by
  rw [List.count_singleton, bag]
  simp

theorem entryPages_userHalf (below : Addr → List Addr) :
    entryPages m table below userHalf =
      (List.finRange 512).flatMap fun i => (pmdAt 256 m table i).elim [] below := by
  rw [entryPages, userHalf]
  generalize List.finRange 512 = l
  induction l with
  | nil => rfl
  | cons i l ih =>
    rw [List.filter_cons, List.flatMap_cons, ← ih, pmdAt]
    by_cases hi : i.val < 256
    · rw [if_pos hi, if_pos (by simpa using hi), List.flatMap_cons]
    · rw [if_neg hi, if_neg (by simpa using hi)]
      rfl

theorem count_ptPages (p : Addr) : (fun pt => (ptPages m pt).count p) =
    fun pt => fiber (next m pt) p + bag (some pt) p := by
  funext pt
  rw [ptPages, List.count_append, entryPages, count_flatMap_elim, count_singleton_bag,
    ← sum_elim_bag]
  simp only [count_singleton_bag]

theorem count_pmdPages (p : Addr) : (fun pmd => (pmdPages m pmd).count p) = fun pmd =>
    (∑ j, (next m pmd j).elim 0 fun pt => fiber (next m pt) p) + fiber (next m pmd) p +
      bag (some pmd) p := by
  funext pmd
  rw [pmdPages, List.count_append, entryPages, count_flatMap_elim, count_ptPages, sum_elim_add,
    sum_elim_bag, count_singleton_bag]

/-- The list has each page as often as the address space refers to it. -/
theorem count_pgdPages : (pgdPages m pgd).count p = refsIn m pgd p := by
  have hpts : fiber (ptAt 256 m pgd) p =
      ∑ i, (pmdAt 256 m pgd i).elim 0 fun pmd => fiber (next m pmd) p :=
    fiber_bind (pmdAt 256 m pgd) (next m) p
  have hbind : mapped m pgd = fun x => (pmdAt 256 m pgd x.1).bind fun pmd =>
      (next m pmd x.2.1).bind fun pt => next m pt x.2.2 := by
    funext x
    rw [mapped, leafAt, ptAt, Option.map_bind, Option.bind_assoc]
    rfl
  have hmapped : fiber (mapped m pgd) p = ∑ i, (pmdAt 256 m pgd i).elim 0 fun pmd =>
      ∑ j, (next m pmd j).elim 0 fun pt => fiber (next m pt) p := by
    rw [hbind]
    exact fiber_bind_bind (pmdAt 256 m pgd) (next m) (next m) p
  rw [pgdPages, List.count_append, entryPages_userHalf, count_flatMap_elim, count_pmdPages,
    sum_elim_add, sum_elim_add, sum_elim_bag, count_singleton_bag, refsIn, hpts, hmapped]
  have hself : bag (some pgd) p = if p = pgd then 1 else 0 := by
    simp [bag, eq_comm]
  omega

/-! ## `free_pgd` -/

theorem Owns.freeAll {n : Addr → ℕ} (l : List Addr) (s : Vm)
    (h : Owns s.alloc (n + fun p => l.count p) other) : Owns (s.freeAll l).alloc n other := by
  induction l generalizing s with
  | nil => exact h
  | cons q l ih =>
    apply ih (s.freePage q)
    apply Owns.free
    convert h using 1
    funext p
    simp only [Pi.add_apply, List.count_cons]
    rcases eq_or_ne p q with rfl | hne
    · simp [Nat.add_assoc]
    · simp [hne, hne.symm]

/-- `free_pgd` gives up the references of the address space. -/
theorem Spaces.freePgd (h : Spaces s (pgd :: ps) loose other) :
    Spaces (freePgd s pgd) ps loose other := by
  rw [freePgd_eq]
  refine ⟨?_, fun pgd' hm p ht => ?_⟩
  · rw [freeAll_mem]
    apply Owns.freeAll
    convert h.owns using 1
    funext p
    rw [refsAll_cons]
    simp only [Pi.add_apply, count_pgdPages]
    omega
  · rw [freeAll_mem] at ht ⊢
    have hone := h.table pgd' (by simp [hm]) p ht
    have hpos := refsIn_pos_of_isTable ht
    have hle : refsIn s.mem pgd' p ≤ refsAll s.mem ps p := refsIn_le_refsAll hm
    rw [refsAll_cons] at hone
    simp only [Pi.add_apply] at hone ⊢
    omega

@[simp] theorem freePgd_mem (s : Vm) (pgd : Addr) : (Mmu.freePgd s pgd).mem = s.mem := by
  rw [freePgd_eq, freeAll_mem]

end BareMetalOS.Mmu
