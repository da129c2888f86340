import BareMetalOS.Mmu.Walk

/-!
# Mapping a range of pages

`map_pages_at` on a whole page table, with both halves. A page table that `pagewalk` and
`map_pages_at` have built (`Built`) has each of its tables reached in one way, in a block of the
allocator of its own (`Radix`). So a new table is a fresh page, and a new entry is found again at
its address and nowhere else (`mapPagesAt_get_set`).
-/

namespace BareMetalOS.Mmu

open Memory (Addr Allocator AllocInv RealPool AllocReachable blocks pageSize allocate)

variable {n : ℕ} {s s' : Vm} {pgd pmd pt p q va pa size : Addr} {i j k : Fin 512}
  {w prot : BitVec 64}

/-! ## Tables that stay apart -/

theorem Apart.congr {m m' : Mem} (h : Apart n m pgd) (hpmd : pmdAt n m' pgd = pmdAt n m pgd)
    (hpt : ptAt n m' pgd = ptAt n m pgd) : Apart n m' pgd := by
  constructor
  · rw [hpmd]
    exact h.pmd_ne
  · rw [hpt]
    exact h.pt_ne
  · rw [hpt, hpmd]
    exact h.pt_ne_pmd
  · rw [hpmd]
    exact h.pmd_inj
  · rw [hpt]
    exact h.pt_inj

theorem eq_of_update_some {ι α : Type*} [DecidableEq ι] {f : ι → Option α} {a x : ι} {y z : α}
    (h : Function.update f a (some y) x = some z) : x = a ∧ z = y ∨ x ≠ a ∧ f x = some z := by
  rcases eq_or_ne x a with rfl | hne
  · rw [Function.update_self] at h
    exact .inl ⟨rfl, (Option.some.inj h).symm⟩
  · rw [Function.update_of_ne hne] at h
    exact .inr ⟨hne, h⟩

/-- A new middle table keeps the tables apart. -/
theorem Apart.installed_pmd (h : Apart n s.mem pgd) (hpmd : pmdAt n s.mem pgd i = none)
    (hi : i.val < n) (hq : PageAligned q) (hnew : ¬ IsTable n s.mem pgd q) :
    Apart n (s.install q pgd i).mem pgd := by
  obtain ⟨hpmds, hpts, -⟩ := h.install_pmd hpmd hi hq hnew
  have hqg : q ≠ pgd := by
    rintro rfl
    exact hnew (.inl rfl)
  constructor
  · intro i' pmd h'
    rw [hpmds] at h'
    rcases eq_of_update_some h' with ⟨-, rfl⟩ | ⟨-, h'⟩
    · exact hqg
    · exact h.pmd_ne h'
  · rw [hpts]
    exact h.pt_ne
  · intro x i' pt pmd hx h'
    rw [hpts] at hx
    rw [hpmds] at h'
    rcases eq_of_update_some h' with ⟨-, rfl⟩ | ⟨-, h'⟩
    · rintro rfl
      exact hnew (isTable_pt hx)
    · exact h.pt_ne_pmd hx h'
  · intro i₁ i₂ pmd h₁ h₂
    rw [hpmds] at h₁ h₂
    rcases eq_of_update_some h₁ with ⟨rfl, rfl⟩ | ⟨-, h₁⟩ <;>
      rcases eq_of_update_some h₂ with ⟨h₂, hq₂⟩ | ⟨-, h₂⟩
    · exact h₂.symm
    · exact absurd (isTable_pmd h₂) hnew
    · exact absurd (hq₂ ▸ isTable_pmd h₁) hnew
    · exact h.pmd_inj h₁ h₂
  · rw [hpts]
    exact h.pt_inj

/-- A new last table keeps the tables apart. -/
theorem Apart.installed_pt (h : Apart n s.mem pgd) (hpmd : pmdAt n s.mem pgd i = some pmd)
    (hpt : ptAt n s.mem pgd (i, j) = none) (hq : PageAligned q) (hnew : ¬ IsTable n s.mem pgd q) :
    Apart n (s.install q pmd j).mem pgd := by
  obtain ⟨hpmds, hpts, -⟩ := h.install_pt hpmd hpt hq hnew
  have hqg : q ≠ pgd := by
    rintro rfl
    exact hnew (.inl rfl)
  constructor
  · rw [hpmds]
    exact h.pmd_ne
  · intro x pt h'
    rw [hpts] at h'
    rcases eq_of_update_some h' with ⟨-, rfl⟩ | ⟨-, h'⟩
    · exact hqg
    · exact h.pt_ne h'
  · intro x i' pt pmd' hx h'
    rw [hpts] at hx
    rw [hpmds] at h'
    rcases eq_of_update_some hx with ⟨-, rfl⟩ | ⟨-, hx⟩
    · rintro rfl
      exact hnew (isTable_pmd h')
    · exact h.pt_ne_pmd hx h'
  · rw [hpmds]
    exact h.pmd_inj
  · intro x₁ x₂ pt h₁ h₂
    rw [hpts] at h₁ h₂
    rcases eq_of_update_some h₁ with ⟨rfl, rfl⟩ | ⟨-, h₁⟩ <;>
      rcases eq_of_update_some h₂ with ⟨h₂, hq₂⟩ | ⟨-, h₂⟩
    · exact h₂.symm
    · exact absurd (isTable_pt h₂) hnew
    · exact absurd (hq₂ ▸ isTable_pt h₁) hnew
    · exact h.pt_inj h₁ h₂

/-- The tables after a new one. -/
theorem isTable_install {table : Addr} (h : Apart n s.mem pgd) (hq : PageAligned q)
    (hnew : ¬ IsTable n s.mem pgd q)
    (ht : (table = pgd ∧ i.val < n ∧ pmdAt n s.mem pgd i = none) ∨
      ∃ i', pmdAt n s.mem pgd i' = some table ∧ ptAt n s.mem pgd (i', i) = none)
    (hp : IsTable n (s.install q table i).mem pgd p) : p = q ∨ IsTable n s.mem pgd p := by
  rcases ht with ⟨rfl, hi, hnone⟩ | ⟨i', hpmd, hnone⟩
  · obtain ⟨hpmds, hpts, -⟩ := h.install_pmd hnone hi hq hnew
    rw [IsTable, hpmds, hpts] at hp
    rcases hp with rfl | ⟨x, hx⟩ | hx
    · exact .inr (.inl rfl)
    · rcases eq_of_update_some hx with ⟨-, rfl⟩ | ⟨-, hx⟩
      · exact .inl rfl
      · exact .inr (isTable_pmd hx)
    · exact .inr (.inr (.inr hx))
  · obtain ⟨hpmds, hpts, -⟩ := h.install_pt hpmd hnone hq hnew
    rw [IsTable, hpmds, hpts] at hp
    rcases hp with rfl | hx | ⟨x, hx⟩
    · exact .inr (.inl rfl)
    · exact .inr (.inr (.inl hx))
    · rcases eq_of_update_some hx with ⟨-, rfl⟩ | ⟨-, hx⟩
      · exact .inl rfl
      · exact .inr (isTable_pt hx)

/-! ## The invariant -/

/-- Each table is reached in one way and is a page of its own. -/
structure Radix (s : Vm) (pgd : Addr) : Prop where
  inv : AllocInv s.alloc
  real : RealPool s.alloc.buddy
  apart : Apart 512 s.mem pgd
  held : ∀ p, IsTable 512 s.mem pgd p → blocks s.alloc p = some (pageSize, 1)

/-- A page that `allocate` returns is fresh, and aligned. -/
theorem allocPage_fresh (hinv : AllocInv s.alloc) (hreal : RealPool s.alloc.buddy) :
    AllocInv s.allocPage.2.alloc ∧ RealPool s.allocPage.2.alloc.buddy ∧
      (∀ p e, blocks s.alloc p = some e → blocks s.allocPage.2.alloc p = some e) ∧
      (s.allocPage.1 ≠ 0 → blocks s.alloc s.allocPage.1 = none ∧ PageAligned s.allocPage.1 ∧
        blocks s.allocPage.2.alloc s.allocPage.1 = some (pageSize, 1)) := by
  obtain ⟨hk, -⟩ := Memory.allocate_spec hinv pageSize
  have hreal' := hreal.of_samePool hk.pool
  refine ⟨hk.inv, hreal', ?_, ?_⟩
  · intro p e hp
    rcases Memory.allocate_blocks hinv hreal pageSize with ⟨-, hb⟩ | ⟨-, hnone, hb⟩
    · change blocks (allocate s.alloc pageSize).2 p = some e
      rwa [hb]
    · change blocks (allocate s.alloc pageSize).2 p = some e
      rw [hb, Function.update_of_ne, hp]
      rintro rfl
      rw [hnone] at hp
      cases hp
  · intro h0
    rcases Memory.allocate_blocks hinv hreal pageSize with ⟨h0', -⟩ | ⟨-, hnone, hb⟩
    · exact absurd h0' h0
    · have hb' := congrFun hb (allocate s.alloc pageSize).1
      rw [Function.update_self, blockBytes_pageSize] at hb'
      exact ⟨hnone, (pageAligned_of_blocks hk.inv hreal' hb' le_rfl).1, hb'⟩

/-- What a walk does to a page table: the leaves stay, and so do the tables. -/
structure Widened (s s' : Vm) (pgd : Addr) : Prop where
  radix : Radix s' pgd
  leaf : leafAt 512 s'.mem pgd = leafAt 512 s.mem pgd
  pmd : ∀ i p, pmdAt 512 s.mem pgd i = some p → pmdAt 512 s'.mem pgd i = some p

/-- One level of the walk. -/
theorem Radix.nextTable (h : Radix s pgd) (table : Addr) (i : Fin 512)
    (ht : next s.mem table i = none → (table = pgd ∧ pmdAt 512 s.mem pgd i = none) ∨
      ∃ i', pmdAt 512 s.mem pgd i' = some table ∧ ptAt 512 s.mem pgd (i', i) = none) :
    Widened s (nextTable s table i true).1 pgd ∧
      ∀ q, (nextTable s table i true).2 = some q →
        next (nextTable s table i true).1.mem table i = some q := by
  unfold Mmu.nextTable
  by_cases hv : HasFlag (s.mem table i) pteV
  · rw [if_pos hv]
    exact ⟨⟨h, rfl, fun _ _ hp => hp⟩, fun q hq => next_eq_some.2 ⟨hv, Option.some_inj.1 hq⟩⟩
  · have hnone : next s.mem table i = none := by
      rw [next, validEntry_eq_none.2 hv]
      rfl
    rw [if_neg hv, if_pos rfl]
    dsimp only
    obtain ⟨hinv, hreal, hheld, hfresh⟩ := allocPage_fresh h.inv h.real
    by_cases h0 : s.allocPage.1 = 0
    · rw [if_pos h0]
      exact ⟨⟨⟨hinv, hreal, h.apart, fun p hp => hheld p _ (h.held p hp)⟩, rfl, fun _ _ hp => hp⟩,
        fun q hq => by cases hq⟩
    · obtain ⟨hb, hal, hb'⟩ := hfresh h0
      have hnew : ¬ IsTable 512 s.allocPage.2.mem pgd s.allocPage.1 := fun hp => by
        rw [h.held _ hp] at hb
        cases hb
      have ht' := ht hnone
      have htable : IsTable 512 s.mem pgd table := by
        rcases ht' with ⟨rfl, -⟩ | ⟨i', hi', -⟩
        · exact .inl rfl
        · exact isTable_pmd hi'
      have hne : s.allocPage.1 ≠ table := by
        rintro heq
        exact hnew (heq ▸ htable)
      rw [if_neg h0]
      have hnext : next (s.allocPage.2.install s.allocPage.1 table i).mem table i =
          some s.allocPage.1 := by
        rw [next_install hal hne, Function.update_self]
      refine ⟨⟨⟨hinv, hreal, ?_, ?_⟩, ?_, ?_⟩, ?_⟩
      · rcases ht' with ⟨rfl, hpmd⟩ | ⟨i', hpmd, hpt⟩
        · exact h.apart.installed_pmd (s := s.allocPage.2) hpmd i.isLt hal hnew
        · exact h.apart.installed_pt (s := s.allocPage.2) hpmd hpt hal hnew
      · intro p hp
        rcases isTable_install (s := s.allocPage.2) h.apart hal hnew
          (ht'.imp_left fun hpmd => ⟨hpmd.1, i.isLt, hpmd.2⟩) hp with rfl | hp
        · exact hb'
        · exact hheld p _ (h.held p hp)
      · rcases ht' with ⟨rfl, hpmd⟩ | ⟨i', hpmd, hpt⟩
        · exact (h.apart.install_pmd (s := s.allocPage.2) hpmd i.isLt hal hnew).2.2
        · exact (h.apart.install_pt (s := s.allocPage.2) hpmd hpt hal hnew).2.2
      · intro i₁ p hp
        rcases ht' with ⟨rfl, hpmd⟩ | ⟨i', hpmd, hpt⟩
        · change pmdAt 512 (s.allocPage.2.install s.allocPage.1 table i).mem table i₁ = some p
          rw [(h.apart.install_pmd (s := s.allocPage.2) hpmd i.isLt hal hnew).1,
            Function.update_of_ne]
          · exact hp
          · rintro rfl
            rw [hpmd] at hp
            cases hp
        · change pmdAt 512 (s.allocPage.2.install s.allocPage.1 table i).mem pgd i₁ = some p
          rw [(h.apart.install_pt (s := s.allocPage.2) hpmd hpt hal hnew).1]
          exact hp
      · intro q hq
        have hframe := frameAt_entryOf hal (show FlagBits pteV by decide)
        rw [← Option.some_inj.1 hq, hframe]
        exact hnext

theorem Widened.trans {s'' : Vm} (h : Widened s s' pgd) (h' : Widened s' s'' pgd) :
    Widened s s'' pgd :=
  ⟨h'.radix, h'.leaf.trans h.leaf, fun i p hp => h'.pmd i p (h.pmd i p hp)⟩

/-- `pagewalk(pgd, va, 1)` on the whole page table. -/
theorem Radix.pagewalk (h : Radix s pgd) (va : Addr) :
    Widened s (pagewalk s pgd va true).1 pgd ∧
      ∀ pt k, (Mmu.pagewalk s pgd va true).2 = some (pt, k) →
        ptAt 512 (Mmu.pagewalk s pgd va true).1.mem pgd (tableIndex va) = some pt ∧
          k = vpn va 12 := by
  have hpgd : ∀ m : Mem, pmdAt 512 m pgd (vpn va 30) = next m pgd (vpn va 30) := fun m =>
    if_pos (vpn va 30).isLt
  obtain ⟨hw₁, hr₁⟩ := h.nextTable pgd (vpn va 30) fun hnone =>
    .inl ⟨rfl, (hpgd s.mem).trans hnone⟩
  unfold Mmu.pagewalk
  rcases hn : Mmu.nextTable s pgd (vpn va 30) true with ⟨s₁, _ | pmd⟩
  · rw [hn] at hw₁
    exact ⟨hw₁, fun pt k hk => by cases hk⟩
  · rw [hn] at hw₁ hr₁
    have hpmd : pmdAt 512 s₁.mem pgd (vpn va 30) = some pmd := (hpgd s₁.mem).trans (hr₁ pmd rfl)
    have hpt : ∀ m : Mem, pmdAt 512 m pgd (vpn va 30) = some pmd →
        ptAt 512 m pgd (tableIndex va) = next m pmd (vpn va 21) := by
      intro m hm
      rw [ptAt, tableIndex, hm, Option.bind_some]
    obtain ⟨hw₂, hr₂⟩ := hw₁.radix.nextTable pmd (vpn va 21) fun hnone =>
      .inr ⟨vpn va 30, hpmd, (hpt s₁.mem hpmd).trans hnone⟩
    dsimp only at hw₁ hw₂ hr₂ ⊢
    rcases hn' : Mmu.nextTable s₁ pmd (vpn va 21) true with ⟨s₂, _ | pt⟩
    · rw [hn'] at hw₂
      exact ⟨hw₁.trans hw₂, fun pt k hk => by cases hk⟩
    · rw [hn'] at hw₂ hr₂
      refine ⟨hw₁.trans hw₂, fun pt' k hk => ?_⟩
      obtain ⟨rfl, rfl⟩ := Prod.mk.inj (Option.some_inj.1 hk)
      exact ⟨(hpt s₂.mem (hw₂.pmd _ _ hpmd)).trans (hr₂ pt rfl), rfl⟩

theorem Radix.store (h : Radix s pgd) (hpt : ptAt 512 s.mem pgd (i, j) = some pt) :
    Radix (s.store pt k w) pgd := by
  obtain ⟨hpmds, hpts, -⟩ := h.apart.store_leaf hpt k w
  refine ⟨h.inv, h.real, h.apart.congr hpmds hpts, fun p hp => ?_⟩
  rw [IsTable, hpmds, hpts] at hp
  exact h.held p hp

/-- One round of `map_pages_at`: one leaf is new, unless a table could not be allocated. -/
theorem Radix.mapPage (h : Radix s pgd) (va pa : Addr) (prot : BitVec 64) :
    Radix (mapPage s pgd va pa prot) pgd ∧
      ((Mmu.pagewalk s pgd va true).2 ≠ none →
        leafAt 512 (Mmu.mapPage s pgd va pa prot).mem pgd =
          Function.update (leafAt 512 s.mem pgd) (leafIndex va)
            (validEntry (pa >>> 12 <<< 10 ||| prot))) := by
  obtain ⟨hw, hr⟩ := h.pagewalk va
  unfold Mmu.mapPage
  rcases hp : Mmu.pagewalk s pgd va true with ⟨s₁, _ | ⟨pt, k⟩⟩
  · rw [hp] at hw
    exact ⟨hw.radix, fun hne => absurd rfl hne⟩
  · rw [hp] at hw hr
    obtain ⟨hpt, rfl⟩ := hr pt k rfl
    refine ⟨hw.radix.store hpt, fun _ => ?_⟩
    dsimp only
    rw [(hw.radix.apart.store_leaf hpt _ _).2.2, hw.leaf]
    rfl

/-! ## Page tables that the functions have built -/

/-- A page table of a kernel that allocates a page for the PGD and clears it, shares the upper half
of another one with it, walks it and maps pages in it. What else happens leaves its tables alone. -/
inductive Built : Vm → Addr → Prop
  | new {s : Vm} (h : AllocReachable s.alloc) (h0 : s.allocPage.1 ≠ 0) :
      Built (s.allocPage.2.setPage s.allocPage.1 fun _ => 0) s.allocPage.1
  | share {s : Vm} {kernelPgd : Addr} (h : Built s kernelPgd) (h0 : s.allocPage.1 ≠ 0) :
      Built (s.allocPage.2.setPage s.allocPage.1 fun i =>
        if 256 ≤ i.val then s.mem kernelPgd i else 0) s.allocPage.1
  | walk {s : Vm} {pgd : Addr} (h : Built s pgd) (va : Addr) (alloc : Bool) :
      Built (pagewalk s pgd va alloc).1 pgd
  | map {s : Vm} {pgd : Addr} (h : Built s pgd) (va pa : Addr) (prot : BitVec 64) :
      Built (mapPage s pgd va pa prot) pgd
  | other {s s' : Vm} {pgd : Addr} (h : Built s pgd) (halloc : AllocReachable s'.alloc)
      (hkeep : ∀ p, IsTable 512 s.mem pgd p →
        s'.mem p = s.mem p ∧ blocks s'.alloc p = blocks s.alloc p) : Built s' pgd

/-- An empty page table. -/
theorem radix_zero (hinv : AllocInv s.alloc) (hreal : RealPool s.alloc.buddy)
    (hheld : blocks s.alloc pgd = some (pageSize, 1)) (hzero : s.mem pgd = fun _ => 0) :
    Radix s pgd := by
  have hpmd : pmdAt 512 s.mem pgd = fun _ => none := by
    funext i
    rw [pmdAt, next_zero hzero, ite_self]
  have hpt : ptAt 512 s.mem pgd = fun _ => none := by
    funext x
    rw [ptAt, hpmd]
    rfl
  refine ⟨hinv, hreal, ⟨?_, ?_, ?_, ?_, ?_⟩, fun p hp => ?_⟩
  · simp [hpmd]
  · simp [hpt]
  · simp [hpt]
  · simp [hpmd]
  · simp [hpt]
  · rw [IsTable, hpmd, hpt] at hp
    rcases hp with rfl | ⟨x, hx⟩ | ⟨x, hx⟩
    · exact hheld
    · cases hx
    · cases hx

/-- A new PGD with entries of another one. -/
theorem Radix.of_entries {kernelPgd : Addr} (h : Radix s kernelPgd) (hinv : AllocInv s'.alloc)
    (hreal : RealPool s'.alloc.buddy) (hheld : blocks s'.alloc q = some (pageSize, 1))
    (hkept : ∀ p e, blocks s.alloc p = some e → blocks s'.alloc p = some e)
    (hnew : ¬ IsTable 512 s.mem kernelPgd q)
    (hmem : ∀ p, p ≠ q → s'.mem p = s.mem p)
    (hentry : ∀ i, s'.mem q i = s.mem kernelPgd i ∨ s'.mem q i = 0) : Radix s' q := by
  have hpmd : ∀ i p, pmdAt 512 s'.mem q i = some p → pmdAt 512 s.mem kernelPgd i = some p := by
    intro i p hp
    rw [pmdAt, if_pos i.isLt] at hp ⊢
    rw [next] at hp
    rcases hentry i with he | he
    · rwa [he] at hp
    · rw [he, validEntry_zero] at hp
      cases hp
  have hpt : ∀ x p, ptAt 512 s'.mem q x = some p → ptAt 512 s.mem kernelPgd x = some p := by
    rintro ⟨i, j⟩ p hp
    obtain ⟨pmd, hi, hj⟩ := ptAt_eq_some.1 hp
    have hi' := hpmd i pmd hi
    have hne : pmd ≠ q := by
      rintro rfl
      exact hnew (isTable_pmd hi')
    rw [next, hmem pmd hne] at hj
    exact ptAt_eq_some.2 ⟨pmd, hi', hj⟩
  refine ⟨hinv, hreal, ⟨?_, ?_, ?_, ?_, ?_⟩, ?_⟩
  · rintro i pmd hi rfl
    exact hnew (isTable_pmd (hpmd i _ hi))
  · rintro x pt hx rfl
    exact hnew (isTable_pt (hpt x _ hx))
  · intro x i pt pmd hx hi
    exact h.apart.pt_ne_pmd (hpt x pt hx) (hpmd i pmd hi)
  · intro i i' pmd hi hi'
    exact h.apart.pmd_inj (hpmd i pmd hi) (hpmd i' pmd hi')
  · intro x x' pt hx hx'
    exact h.apart.pt_inj (hpt x pt hx) (hpt x' pt hx')
  · rintro p (rfl | ⟨i, hi⟩ | ⟨x, hx⟩)
    · exact hheld
    · exact hkept p _ (h.held p (isTable_pmd (hpmd i p hi)))
    · exact hkept p _ (h.held p (isTable_pt (hpt x p hx)))

/-- The invariant holds of every page table that the functions have built. -/
theorem Built.radix (h : Built s pgd) : Radix s pgd := by
  induction h with
  | @new s h h0 =>
    obtain ⟨hinv, hreal, -, hfresh⟩ := allocPage_fresh h.inv.1 h.inv.2
    exact radix_zero hinv hreal (hfresh h0).2.2 (by rw [setPage_mem, Function.update_self])
  | @share s kernelPgd h h0 ih =>
    obtain ⟨hinv, hreal, hkept, hfresh⟩ := allocPage_fresh ih.inv ih.real
    obtain ⟨hb, -, hb'⟩ := hfresh h0
    refine ih.of_entries hinv hreal hb' hkept (fun ht => ?_) (fun p hp => ?_) fun i => ?_
    · rw [ih.held _ ht] at hb
      cases hb
    · rw [setPage_mem, Function.update_of_ne hp]
      rfl
    · rw [setPage_mem, Function.update_self]
      split
      · exact .inl rfl
      · exact .inr rfl
  | @walk s pgd h va alloc ih =>
    cases alloc with
    | false =>
      rw [pagewalk_false s (vpn va 30).isLt]
      exact ih
    | true => exact (ih.pagewalk va).1.radix
  | map h va pa prot ih => exact (ih.mapPage va pa prot).1
  | @other s s' pgd h halloc hkeep ih =>
    have hsame : SameSpace 512 s.mem s'.mem pgd := sameSpace_of_eq fun p hp => (hkeep p hp).1
    refine ⟨halloc.inv.1, halloc.inv.2, ih.apart.congr hsame.pmd hsame.pt, fun p hp => ?_⟩
    have hp' := (hsame.isTable p).1 hp
    rw [(hkeep p hp').2]
    exact ih.held p hp'

/-! ## Addresses -/

/-- The bits from 38 on are equal, as Sv39 has them. -/
def Canonical (va : Addr) : Prop := va.toNat < 2 ^ 38 ∨ 2 ^ 64 - 2 ^ 38 ≤ va.toNat

/-- Canonical addresses with one leaf are in one page. -/
theorem page_eq_of_leafIndex {a b : Addr} (ha : Canonical a) (hb : Canonical b)
    (h : leafIndex a = leafIndex b) : a.toNat / 4096 = b.toNat / 4096 := by
  simp only [leafIndex, Prod.mk.injEq, Fin.ext_iff, val_vpn] at h
  unfold Canonical at ha hb
  omega

/-- The valid entry that `pagewalk(pgd, va, 0)` finds. -/
def leafOf (s : Vm) (pgd va : Addr) : Option (BitVec 64) :=
  (pagewalk s pgd va false).2.bind fun entry => validEntry (s.mem entry.1 entry.2)

theorem leafOf_eq (s : Vm) (pgd va : Addr) :
    leafOf s pgd va = leafAt 512 s.mem pgd (leafIndex va) := by
  rw [leafOf, pagewalk_false s (vpn va 30).isLt, leafAt]
  change (Option.map _ (ptAt 512 s.mem pgd (tableIndex va))).bind _ =
    (ptAt 512 s.mem pgd (tableIndex va)).bind _
  cases ptAt 512 s.mem pgd (tableIndex va) <;> rfl

theorem PageAligned.add {a b : Addr} (ha : PageAligned a) (hb : PageAligned b) :
    PageAligned (a + b) := by
  rw [pageAligned_iff] at ha hb ⊢
  rw [BitVec.toNat_add]
  omega

theorem PageAligned.sub {a b : Addr} (ha : PageAligned a) (hb : PageAligned b) :
    PageAligned (a - b) := by
  rw [pageAligned_iff] at ha hb ⊢
  rw [BitVec.toNat_sub]
  omega

/-! ## The loop -/

/-- No walk of `n` rounds of `map_pages_at` fails: `allocate` has returned a page where a table was
missing. -/
def WalksSucceed (pgd prot : BitVec 64) : ℕ → Vm → Addr → Addr → Prop
  | 0, _, _, _ => True
  | n + 1, s, a, pa =>
    (pagewalk s pgd a true).2 ≠ none ∧
      WalksSucceed pgd prot n (mapPage s pgd a pa prot) (a + 4096) (pa + 4096)

theorem validEntry_or (h : HasFlag prot pteV) : validEntry (w ||| prot) = some (w ||| prot) := by
  refine validEntry_eq_some.2 ⟨?_, rfl⟩
  rw [hasFlag_v] at h ⊢
  rw [BitVec.getLsbD_or, h, Bool.or_true]

/-- The loop maps the pages from `a` to `stop` one by one, and leaves all other leaves alone. -/
theorem mapLoop_spec (stop : Addr) (hv : HasFlag prot pteV) :
    ∀ (rounds fuel : ℕ) (s : Vm) (a pa : Addr), rounds < fuel → Radix s pgd → PageAligned a →
      a.toNat + 4096 * rounds = stop.toNat → (∀ b, a ≤ b → b < stop → Canonical b) →
      WalksSucceed pgd prot rounds s a pa →
      ∃ s', mapLoop pgd stop prot fuel s a pa = some s' ∧
        (∀ b, PageAligned b → a ≤ b → b < stop → leafAt 512 s'.mem pgd (leafIndex b) =
          some ((pa + (b - a)) >>> 12 <<< 10 ||| prot)) ∧
        ∀ x, (∀ b, a ≤ b → b < stop → x ≠ leafIndex b) →
          leafAt 512 s'.mem pgd x = leafAt 512 s.mem pgd x := by
  intro rounds
  induction rounds with
  | zero =>
    intro fuel s a pa hfuel _ _ hstop _ _
    obtain ⟨fuel, rfl⟩ := Nat.exists_eq_succ_of_ne_zero (Nat.ne_of_gt hfuel)
    have hend : ¬ a < stop := by
      rw [BitVec.lt_def]
      omega
    refine ⟨s, by rw [mapLoop, if_neg hend], fun b _ hab hb => ?_, fun x _ => rfl⟩
    rw [BitVec.lt_def] at hb
    rw [BitVec.le_def] at hab
    omega
  | succ rounds ih =>
    intro fuel s a pa hfuel hs ha hstop hcan hwalks
    obtain ⟨fuel, rfl⟩ := Nat.exists_eq_succ_of_ne_zero (Nat.ne_of_gt (Nat.zero_lt_of_lt hfuel))
    have hle : stop.toNat < 2 ^ 64 := stop.isLt
    have hstep : a < stop := by
      rw [BitVec.lt_def]
      omega
    have hnext : (a + 4096).toNat = a.toNat + 4096 := by
      rw [BitVec.toNat_add, show (4096 : Addr).toNat = 4096 from rfl]
      omega
    have hafter : ∀ b : Addr, a + 4096 ≤ b → a ≤ b := by
      intro b hb
      rw [BitVec.le_def] at hb ⊢
      omega
    obtain ⟨hs₁, hleaf⟩ := hs.mapPage a pa prot
    obtain ⟨s', hloop, hget, hframe⟩ := ih fuel (mapPage s pgd a pa prot) (a + 4096) (pa + 4096)
      (Nat.lt_of_succ_lt_succ hfuel) hs₁ (ha.add (by decide)) (by omega)
      (fun b hab hb => hcan b (hafter b hab) hb) hwalks.2
    have hleaf' := hleaf hwalks.1
    refine ⟨s', by rw [mapLoop, if_pos hstep, hloop], fun b hb hab hbs => ?_, fun x hx => ?_⟩
    · rcases eq_or_ne b a with rfl | hne
      · -- the page of this round is not mapped again
        rw [hframe, hleaf', Function.update_self, validEntry_or hv, BitVec.sub_self,
          BitVec.add_zero]
        intro c hac hc heq
        have hpage := page_eq_of_leafIndex (hcan b hab hbs) (hcan c (hafter c hac) hc) heq
        rw [BitVec.le_def] at hac
        omega
      · rw [hget b hb ?_ hbs, show pa + 4096 + (b - (a + 4096)) = pa + (b - a) by bv_omega]
        rw [pageAligned_iff] at ha hb
        rw [BitVec.le_def] at hab ⊢
        have hval : b.toNat ≠ a.toNat := fun h => hne (BitVec.eq_of_toNat_eq h)
        omega
    · rw [hframe x fun b hab hb => hx b (hafter b hab) hb, hleaf',
        Function.update_of_ne (hx a (BitVec.le_refl a) hstep)]

/-! ## `map_pages_at` -/

/-- The frame and the flags of an entry. -/
theorem entry_decode (hpa : PageAligned pa) (hf : FlagBits prot) :
    (pa >>> 12 <<< 10 ||| prot) >>> 10 <<< 12 = pa ∧
      (pa >>> 12 <<< 10 ||| prot) &&& 0x3ff = prot := by
  constructor
  · ext i hi
    rw [← BitVec.getLsbD_eq_getElem, ← BitVec.getLsbD_eq_getElem, BitVec.getLsbD_shiftLeft]
    by_cases h12 : i < 12
    · rw [hpa.getLsbD h12]
      simp [h12]
    · rw [BitVec.getLsbD_ushiftRight, BitVec.getLsbD_or, hf.getLsbD (by omega),
        BitVec.getLsbD_shiftLeft, BitVec.getLsbD_ushiftRight,
        show 12 + (10 + (i - 12) - 10) = i by omega]
      simp [h12, hi, show 10 + (i - 12) < 64 by omega]
  · ext i hi
    rw [← BitVec.getLsbD_eq_getElem, ← BitVec.getLsbD_eq_getElem, BitVec.getLsbD_and,
      BitVec.getLsbD_or, BitVec.getLsbD_shiftLeft]
    have hmask : (0x3ff : BitVec 64).getLsbD i = decide (i < 10) := by
      rw [show (0x3ff : BitVec 64) = BitVec.ofNat 64 (2 ^ 10 - 1) from rfl, BitVec.getLsbD_ofNat,
        Nat.testBit_two_pow_sub_one]
      simp [hi]
    by_cases h10 : i < 10
    · rw [hmask]
      simp [h10]
    · rw [hmask, hf.getLsbD (by omega)]
      simp [h10]

/-- **Mapping a range of pages.** After `map_pages_at`, whose walks found memory for their tables,
each page of the range has the entry of its frame, and every canonical address outside has the valid
entry it had, or none as before. -/
theorem mapPagesAt_get_set (h : Built s pgd) (hva : PageAligned va) (hpa : PageAligned pa)
    (hsize : PageAligned size) (hwrap : va.toNat + size.toNat < 2 ^ 64)
    (hcan : ∀ a, va ≤ a → a < va + size → Canonical a) (hv : HasFlag prot pteV)
    (hwalks : WalksSucceed pgd prot (size.toNat / 4096) s va pa) :
    ∃ s', mapPagesAt s pgd va pa size prot = some s' ∧
      (∀ a, PageAligned a → va ≤ a → a < va + size →
        ∃ pt k, pagewalk s' pgd a false = (s', some (pt, k)) ∧
          s'.mem pt k = (pa + (a - va)) >>> 12 <<< 10 ||| prot ∧
          (FlagBits prot → (s'.mem pt k) >>> 10 <<< 12 = pa + (a - va) ∧
            s'.mem pt k &&& 0x3ff = prot)) ∧
      ∀ b, Canonical b → ¬ (va ≤ b ∧ b < va + size) → leafOf s' pgd b = leafOf s pgd b := by
  have hstop : (va + size).toNat = va.toNat + size.toNat := by
    rw [BitVec.toNat_add, Nat.mod_eq_of_lt hwrap]
  have hva' := pageAligned_iff.1 hva
  have hsize' := pageAligned_iff.1 hsize
  obtain ⟨s', hloop, hget, hframe⟩ := mapLoop_spec (va + size) hv (size.toNat / 4096)
    (size.toNat / 4096 + 2) s va pa (by omega) h.radix hva (by omega) hcan hwalks
  refine ⟨s', hloop, fun a ha hle hlt => ?_, fun b hb hout => ?_⟩
  · have hleaf := hget a ha hle hlt
    obtain ⟨pt, hpt, -, hword⟩ := leafAt_eq_some.1 hleaf
    refine ⟨pt, vpn a 12, ?_, hword, fun hf => ?_⟩
    · rw [pagewalk_false s' (vpn a 30).isLt]
      change (s', Option.map _ (ptAt 512 s'.mem pgd (vpn a 30, vpn a 21))) = _
      rw [hpt]
      rfl
    · rw [hword]
      exact entry_decode (hpa.add (ha.sub hva)) hf
  · rw [leafOf_eq, leafOf_eq, hframe]
    intro c hvc hc heq
    -- a page of the range contains all addresses of its page
    have hpage := page_eq_of_leafIndex hb (hcan c hvc hc) heq
    rw [BitVec.le_def] at hvc
    rw [BitVec.lt_def] at hc
    apply hout
    rw [BitVec.le_def, BitVec.lt_def]
    omega

/-- A kernel with four pages. -/
def fourPages : Vm :=
  ⟨Memory.allocStart .qemu Memory.unsetBuddy 0xffffffc080000000 0x4000, fun _ _ => 0⟩

/-- A cleared PGD in a pool of four pages. -/
def emptyPgd : Vm := fourPages.allocPage.2.setPage fourPages.allocPage.1 fun _ => 0

/-- Three pages are mapped at `0x1000`: the last of them has its frame, and nothing is at
`0x4000`. -/
theorem mapPagesAt_get_set_threePages :
    ∃ s', mapPagesAt emptyPgd fourPages.allocPage.1 0x1000 0x80000000 0x3000 (pteV ||| pteR) =
        some s' ∧
      (∃ pt k, pagewalk s' fourPages.allocPage.1 0x3000 false = (s', some (pt, k)) ∧
        (s'.mem pt k) >>> 10 <<< 12 = 0x80002000 ∧ s'.mem pt k &&& 0x3ff = pteV ||| pteR) ∧
      leafOf s' fourPages.allocPage.1 0x4000 = leafOf emptyPgd fourPages.allocPage.1 0x4000 := by
  have hbuilt : Built emptyPgd fourPages.allocPage.1 :=
    .new Memory.allocReachable_fourPages (by decide +kernel)
  obtain ⟨s', hmap, hget, hframe⟩ := @mapPagesAt_get_set emptyPgd fourPages.allocPage.1
    0x1000 0x80000000 0x3000 (pteV ||| pteR) hbuilt (by decide) (by decide) (by decide) (by decide)
    (fun a _ ha => .inl (by rw [BitVec.lt_def] at ha; exact lt_trans ha (by decide)))
    (by decide) ⟨by decide +kernel, by decide +kernel, by decide +kernel, trivial⟩
  obtain ⟨pt, k, hwalk, -, hword⟩ := hget 0x3000 (by decide) (by decide) (by decide)
  exact ⟨s', hmap, ⟨pt, k, hwalk, hword (by decide)⟩, hframe 0x4000 (.inl (by decide)) (by decide)⟩

end BareMetalOS.Mmu
