import BareMetalOS.Mmu.Copy

/-!
# Pages that are not given away

`allocate` gives no page outside the pool and none that is reserved (`Withheld`). The operations on
page tables write to pages that the allocator has given, so that they leave the contents of these
pages alone: an archive in reserved memory stays what it is.
-/

namespace BareMetalOS.Mmu

open Memory (Addr Allocator AllocInv Keeps InPool pageSize)

variable {a a' : Allocator} {n : Addr → ℕ} {ps : List Addr}
  {pgd child p q va pa prot table parentPt childPt parentPmd childPmd : Addr} {i j k : Fin 512}
  {w : BitVec 64} {s s' s'' : Vm} {loose : Addr → ℕ} {other : Addr → Option (ℕ × ℤ)}
  {ptr : Option Addr}

/-- The page is outside the pool, or it is reserved. -/
def Withheld (a : Allocator) (q : Addr) : Prop :=
  InPool a.buddy q → (a.buddy.frameArray (Memory.addrToPageIdx a.buddy q)).state = .reserved

theorem Withheld.congr (h : Keeps a a' ptr) : Withheld a' q ↔ Withheld a q := by
  obtain ⟨hstart, hsize, -, -⟩ := h.pool
  rw [Withheld, Withheld, h.reserved, InPool, InPool, Memory.addrToPageIdx, Memory.addrToPageIdx,
    hstart,
    hsize]

/-- A page that is referred to has been given away. -/
theorem Owns.not_withheld (h : Owns a n other) (hp : n p ≠ 0) : ¬ Withheld a p := by
  have hb := h.blocks p
  rw [if_neg hp] at hb
  obtain ⟨hl, -⟩ := (Memory.blocks_eq_some h.inv).1 hb
  obtain ⟨hin, -, -⟩ := hl.inPool h.inv h.real
  intro hw
  have hst := (hl.pageIdx h.inv).2
  rw [hw hin] at hst
  simp at hst

theorem Spaces.not_withheld (h : Spaces s ps loose other) (hm : pgd ∈ ps)
    (ht : IsTable 256 s.mem pgd p) : ¬ Withheld s.alloc p := by
  have hone := h.table pgd hm p ht
  exact h.owns.not_withheld (by rw [hone]; exact one_ne_zero)

/-- The same pages are withheld, and their contents are as before. -/
structure WithheldKept (s s' : Vm) : Prop where
  inv : AllocInv s'.alloc
  withheld : ∀ q, Withheld s'.alloc q ↔ Withheld s.alloc q
  mem : ∀ q, Withheld s.alloc q → s'.mem q = s.mem q

namespace WithheldKept

theorem refl (h : AllocInv s.alloc) : WithheldKept s s := ⟨h, fun _ => Iff.rfl, fun _ _ => rfl⟩

theorem trans (h : WithheldKept s s') (h' : WithheldKept s' s'') : WithheldKept s s'' :=
  ⟨h'.inv, fun q => (h'.withheld q).trans (h.withheld q),
    fun q hq => (h'.mem q ((h.withheld q).2 hq)).trans (h.mem q hq)⟩

/-- The allocator makes a step. -/
theorem of_keeps (h : Keeps s.alloc s'.alloc ptr) (hmem : s'.mem = s.mem) : WithheldKept s s' :=
  ⟨h.inv, fun _ => Withheld.congr h, fun _ _ => by rw [hmem]⟩

theorem alloc (h : AllocInv s.alloc) (size : ℕ) :
    WithheldKept s { s with alloc := (Memory.allocate s.alloc size).2 } :=
  of_keeps (Memory.allocate_spec h size).1 rfl

theorem allocPage (h : AllocInv s.alloc) : WithheldKept s s.allocPage.2 := alloc h pageSize

theorem freePage (h : AllocInv s.alloc) (p : Addr) : WithheldKept s (s.freePage p) :=
  of_keeps (Memory.free_spec h p) rfl

theorem incRef (h : AllocInv s.alloc) (p : Addr) : WithheldKept s (s.incRef p) :=
  of_keeps (Memory.pageIncRef_spec h p) rfl

theorem freeAll (h : AllocInv s.alloc) (l : List Addr) : WithheldKept s (s.freeAll l) := by
  induction l generalizing s with
  | nil => exact .refl h
  | cons p l ih =>
    have h₁ := freePage h p
    exact h₁.trans (ih h₁.inv)

theorem freePgd (h : AllocInv s.alloc) (pgd : Addr) : WithheldKept s (Mmu.freePgd s pgd) := by
  rw [freePgd_eq]
  exact freeAll h _

/-- A page that has been given away is written. -/
theorem setPage (h : AllocInv s.alloc) (hp : ¬ Withheld s.alloc p) (words : Fin 512 → BitVec 64) :
    WithheldKept s (s.setPage p words) := by
  refine ⟨h, fun _ => Iff.rfl, fun q hq => ?_⟩
  rw [setPage_mem, Function.update_of_ne]
  rintro rfl
  exact hp hq

theorem store (h : AllocInv s.alloc) (hp : ¬ Withheld s.alloc p) (i : Fin 512) (w : BitVec 64) :
    WithheldKept s (s.store p i w) := by
  refine ⟨h, fun _ => Iff.rfl, fun q hq => ?_⟩
  rw [store_mem_of_ne]
  rintro rfl
  exact hp hq

end WithheldKept

/-- A page that `allocate` has given. -/
theorem Spaces.not_withheld_allocPage (h : Spaces s ps loose other) (h0 : s.allocPage.1 ≠ 0) :
    ¬ Withheld s.allocPage.2.alloc s.allocPage.1 := by
  rcases h.allocPage with ⟨h0', -⟩ | ⟨-, -, -, hs⟩
  · exact absurd h0' h0
  · exact hs.owns.not_withheld (by simp)

/-- A new table is put in its place. -/
theorem Spaces.withheldKept_install (h : Spaces s ps loose other) (h0 : s.allocPage.1 ≠ 0)
    (hm : pgd ∈ ps) (ht : IsTable 256 s.mem pgd table) :
    WithheldKept s (s.allocPage.2.install s.allocPage.1 table i) := by
  have h₁ : WithheldKept s s.allocPage.2 := .allocPage h.owns.inv
  have h₂ := h₁.trans (.setPage h₁.inv (h.not_withheld_allocPage h0) fun _ => 0)
  refine h₂.trans (.store h₂.inv ?_ i _)
  rw [h₂.withheld]
  exact h.not_withheld hm ht

/-! ## Walking and mapping -/

theorem nextTable_withheld (h : Spaces s ps loose other) (hm : pgd ∈ ps)
    (ht : IsTable 256 s.mem pgd table) : WithheldKept s (nextTable s table i true).1 := by
  unfold nextTable
  split_ifs with hv h0
  · exact .refl h.owns.inv
  · dsimp only
    split_ifs with h0
    · exact .allocPage h.owns.inv
    · exact h.withheldKept_install h0 hm ht
  · exact absurd rfl h0

theorem pagewalk_withheld (h : Spaces s (pgd :: ps) loose other) (hva : UserVa va) :
    WithheldKept s (pagewalk s pgd va true).1 := by
  have hpgd : ∀ m : Mem, pmdAt 256 m pgd (vpn va 30) = next m pgd (vpn va 30) := fun m => if_pos hva
  obtain ⟨hs₁, -, hr₁⟩ := nextTable_spec h fun q hnone hal hnt =>
    (h.tree (by simp)).installs_pmd ((hpgd s.mem).trans hnone) hva hal hnt
  have hk₁ : WithheldKept s (nextTable s pgd (vpn va 30) true).1 :=
    nextTable_withheld h (List.mem_cons_self ..) (.inl rfl)
  unfold pagewalk
  rcases hn : nextTable s pgd (vpn va 30) true with ⟨s₁, _ | pmd⟩
  · rw [hn] at hk₁
    exact hk₁
  · rw [hn] at hs₁ hk₁ hr₁
    have hpmd : pmdAt 256 s₁.mem pgd (vpn va 30) = some pmd := (hpgd s₁.mem).trans (hr₁ pmd rfl)
    have hk₂ := nextTable_withheld (i := vpn va 21) hs₁ (List.mem_cons_self ..) (isTable_pmd hpmd)
    dsimp only at hk₁ hk₂ ⊢
    rcases hn' : nextTable s₁ pmd (vpn va 21) true with ⟨s₂, _ | pt⟩
    · rw [hn'] at hk₂
      exact hk₁.trans hk₂
    · rw [hn'] at hk₂
      exact hk₁.trans hk₂

theorem mapPage_withheld (h : Spaces s (pgd :: ps) loose other) (hva : UserVa va) :
    WithheldKept s (mapPage s pgd va pa prot) := by
  have hk := pagewalk_withheld h hva
  obtain ⟨hs, -, hr⟩ := pagewalk_spec h hva
  unfold mapPage
  rcases hw : pagewalk s pgd va true with ⟨s₁, _ | ⟨pt, k⟩⟩
  · rw [hw] at hk
    exact hk
  · rw [hw] at hk hs hr
    obtain ⟨hpt, -⟩ := hr pt k rfl
    exact hk.trans (.store hk.inv (hs.not_withheld (List.mem_cons_self ..) (isTable_pt hpt)) k _)

/-! ## Copying -/

theorem copyPt_withheld (ks : List (Fin 512)) (h : AllocInv s.alloc)
    (hp : ¬ Withheld s.alloc parentPt)
    (hc : ¬ Withheld s.alloc childPt) : WithheldKept s (copyPt parentPt childPt ks s) := by
  induction ks generalizing s with
  | nil => exact .refl h
  | cons k ks ih =>
    rw [copyPt]
    split_ifs with hv
    · have h₁ : WithheldKept s (s.store parentPt k (s.mem parentPt k &&& ~~~pteW)) :=
        .store h hp k _
      have h₂ := h₁.trans (.store h₁.inv hc k
        ((s.store parentPt k (s.mem parentPt k &&& ~~~pteW)).mem parentPt k))
      have h₃ := h₂.trans (.incRef h₂.inv (frameAt (s.mem parentPt k)))
      exact h₃.trans (ih h₃.inv (by rwa [h₃.withheld]) (by rwa [h₃.withheld]))
    · exact ih h hp hc

theorem copyPmd_withheld (js : List (Fin 512)) (hjs : js.Nodup)
    (h : Spaces s (child :: pgd :: ps) loose other)
    (hp : pmdAt 256 s.mem pgd i = some parentPmd) (hc : pmdAt 256 s.mem child i = some childPmd)
    (hnone : ∀ j ∈ js, ptAt 256 s.mem child (i, j) = none) :
    WithheldKept s (copyPmd parentPmd childPmd js s).1 := by
  induction js generalizing s with
  | nil => exact .refl h.owns.inv
  | cons j js ih =>
    obtain ⟨hj, hjs⟩ := List.nodup_cons.1 hjs
    have hnone' : ptAt 256 s.mem child (i, j) = none := hnone j (by simp)
    rw [copyPmd]
    split_ifs with hv
    · dsimp only
      rcases h.allocPt hc hnone' with ⟨h0, h₁⟩ | ⟨h0, h₁, g₁, hpmd₁, hpt₁⟩
      · rw [if_pos h0]
        exact .allocPage h.owns.inv
      · rw [if_neg h0]
        have hparent : ptAt 256 s.mem pgd (i, j) = some (frameAt (s.mem parentPmd j)) := by
          rw [ptAt, hp, Option.bind_some]
          exact next_eq_some.2 ⟨hv, rfl⟩
        have hkeep : SameSpace 256 s.mem (s.allocPage.2.install s.allocPage.1 childPmd j).mem pgd :=
          g₁.others pgd (by simp)
        have hself : ptAt 256 (s.allocPage.2.install s.allocPage.1 childPmd j).mem child (i, j) =
            some s.allocPage.1 := by
          rw [hpt₁, Function.update_self]
        have hparent₁ := (congrFun hkeep.pt (i, j)).trans hparent
        obtain ⟨h₂, c₂, hpmd₂, hpt₂⟩ := copyPt_spec (List.finRange 512) (List.nodup_finRange 512) h₁
          hparent₁ hself fun k _ => by
            rw [g₁.leaf, leafAt, hnone']
            rfl
        have k₁ := h.withheldKept_install (i := j) h0 (List.mem_cons_self ..) (isTable_pmd hc)
        have k₂ := copyPt_withheld (List.finRange 512) h₁.owns.inv
          (h₁.not_withheld (by simp) (isTable_pt hparent₁))
          (h₁.not_withheld (by simp) (isTable_pt hself))
        refine k₁.trans (k₂.trans (ih hjs h₂ ?_ ?_ fun j' hj' => ?_))
        · rw [c₂.pmd, hkeep.pmd]
          exact hp
        · rw [hpmd₂, hpmd₁]
          exact hc
        · have hne : (i, j') ≠ (i, j) := by
            rintro heq
            rw [(Prod.mk.inj heq).2] at hj'
            exact hj hj'
          rw [hpt₂, hpt₁, Function.update_of_ne hne]
          exact hnone j' (by simp [hj'])
    · exact ih hjs h hp hc fun j' hj' => hnone j' (by simp [hj'])

theorem copyUser_withheld (is : List (Fin 512)) (his : is.Nodup) (huser : ∀ i ∈ is, i.val < 256)
    (h : Spaces s (child :: pgd :: ps) loose other)
    (hnone : ∀ i ∈ is, pmdAt 256 s.mem child i = none) :
    WithheldKept s (copyUser pgd child is s).1 := by
  induction is generalizing s with
  | nil => exact .refl h.owns.inv
  | cons i is ih =>
    obtain ⟨hi, his⟩ := List.nodup_cons.1 his
    have hnone' : pmdAt 256 s.mem child i = none := hnone i (by simp)
    have huser' : ∀ i' ∈ is, i'.val < 256 := fun i' hi' => huser i' (by simp [hi'])
    rw [copyUser]
    split_ifs with hv
    · dsimp only
      rcases h.allocPmd (huser i (by simp)) hnone' with ⟨h0, h₁⟩ | ⟨h0, h₁, g₁, hpmd₁, hpt₁⟩
      · rw [if_pos h0]
        exact .allocPage h.owns.inv
      · rw [if_neg h0]
        have hparent : pmdAt 256 s.mem pgd i = some (frameAt (s.mem pgd i)) :=
          (if_pos (huser i (by simp))).trans (next_eq_some.2 ⟨hv, rfl⟩)
        have hkeep : SameSpace 256 s.mem (s.allocPage.2.install s.allocPage.1 child i).mem pgd :=
          g₁.others pgd (by simp)
        have hparent₁ := (congrFun hkeep.pmd i).trans hparent
        have hself : pmdAt 256 (s.allocPage.2.install s.allocPage.1 child i).mem child i =
            some s.allocPage.1 := by
          rw [hpmd₁, Function.update_self]
        have hempty : ∀ j ∈ List.finRange 512,
            ptAt 256 (s.allocPage.2.install s.allocPage.1 child i).mem child (i, j) = none := by
          intro j _
          rw [hpt₁, ptAt, hnone']
          rfl
        obtain ⟨h₂, -, hpmd₂⟩ :=
          copyPmd_spec (List.finRange 512) (List.nodup_finRange 512) h₁ hparent₁
          hself hempty
        have k₁ := h.withheldKept_install (i := i) h0 (List.mem_cons_self ..) (.inl rfl)
        have k₂ :=
          copyPmd_withheld (List.finRange 512) (List.nodup_finRange 512) h₁ hparent₁ hself hempty
        have hfold : (s.allocPage.2.setPage s.allocPage.1 fun _ => 0).store child i
            (entryOf s.allocPage.1 pteV) = s.allocPage.2.install s.allocPage.1 child i := rfl
        rw [hfold]
        generalize copyPmd (frameAt (s.mem pgd i)) s.allocPage.1 (List.finRange 512)
          (s.allocPage.2.install s.allocPage.1 child i) = r at h₂ k₂ hpmd₂ ⊢
        split_ifs with hok
        · refine k₁.trans (k₂.trans (ih his huser' h₂ fun i' hi' => ?_))
          have hne : i' ≠ i := by
            rintro rfl
            exact hi hi'
          rw [hpmd₂, hpmd₁, Function.update_of_ne hne]
          exact hnone i' (by simp [hi'])
        · exact k₁.trans k₂
    · exact ih his huser' h fun i' hi' => hnone i' (by simp [hi'])

theorem copyPgd_withheld (h : Spaces s (pgd :: ps) loose other) :
    WithheldKept s (copyPgd s pgd).1 := by
  unfold copyPgd
  dsimp only
  rcases h.allocPage with ⟨h0, -⟩ | ⟨h0, -, hnew, h₁⟩
  · rw [if_pos h0]
    exact .allocPage h.owns.inv
  · rw [if_neg h0]
    have k₁ : WithheldKept s s.allocPage.2 := .allocPage h.owns.inv
    have k₂ := k₁.trans (.setPage k₁.inv (h.not_withheld_allocPage h0)
      fun i => if 256 ≤ i.val then s.allocPage.2.mem pgd i else 0)
    obtain ⟨h₂, hpmd, -, -⟩ := h₁.newPgd hnew
      (fun i => if 256 ≤ i.val then s.allocPage.2.mem pgd i else 0) fun i hi => if_neg (by omega)
    have k₃ := k₂.trans (copyUser_withheld userHalf nodup_userHalf (fun i => mem_userHalf.1) h₂
      fun i _ => hpmd i)
    generalize copyUser pgd s.allocPage.1 userHalf (s.allocPage.2.setPage s.allocPage.1 fun i =>
      if 256 ≤ i.val then s.allocPage.2.mem pgd i else 0) = r at k₃ ⊢
    by_cases hok : r.2 = true
    · rw [if_pos hok]
      exact k₃
    · rw [if_neg hok]
      exact k₃.trans (.freePgd k₃.inv _)

end BareMetalOS.Mmu
