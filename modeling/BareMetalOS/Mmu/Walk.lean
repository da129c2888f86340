import BareMetalOS.Mmu.Spaces

/-!
# Walking and mapping

`pagewalk` reads the last table of an address, and with `alloc` makes the tables on the way: the
mappings stay as they are (`Grown`). `map_pages_at` then writes one leaf for each page.
-/

namespace BareMetalOS.Mmu

open Memory (Addr Allocator pageSize)

variable {ps : List Addr} {pgd pgd' pmd pt p q va pa : Addr} {i j k : Fin 512} {w prot : BitVec 64}
  {s s' s'' : Vm} {loose loose' : Addr → ℕ} {other : Addr → Option (ℕ × ℤ)} {alloc : Bool}

/-- A page that is referred to and is no table. -/
def IsFrame (s : Vm) (ps : List Addr) (loose : Addr → ℕ) (p : Addr) : Prop :=
  (refsAll s.mem ps + loose) p ≠ 0 ∧ ∀ pgd ∈ ps, ¬ IsTable 256 s.mem pgd p

/-- The upper halves of the PGDs are as before. -/
def UpperKept (m m' : Mem) (ps : List Addr) : Prop :=
  ∀ pgd ∈ ps, ∀ k : Fin 512, 256 ≤ k.val → m' pgd k = m pgd k

/-- An address space may have got tables; mappings and frames are as before. -/
structure Grown (s s' : Vm) (pgd : Addr) (ps : List Addr) (loose : Addr → ℕ) : Prop where
  pmd : ∀ i p, pmdAt 256 s.mem pgd i = some p → pmdAt 256 s'.mem pgd i = some p
  pt : ∀ x p, ptAt 256 s.mem pgd x = some p → ptAt 256 s'.mem pgd x = some p
  leaf : leafAt 256 s'.mem pgd = leafAt 256 s.mem pgd
  others : ∀ pgd' ∈ ps, SameSpace 256 s.mem s'.mem pgd'
  frames : ∀ p, IsFrame s (pgd :: ps) loose p → IsFrame s' (pgd :: ps) loose p ∧ s'.mem p = s.mem p
  upper : UpperKept s.mem s'.mem (pgd :: ps)

theorem UpperKept.trans {m m' m'' : Mem} (h : UpperKept m m' ps) (h' : UpperKept m' m'' ps) :
    UpperKept m m'' ps := fun pgd hm k hk => (h' pgd hm k hk).trans (h pgd hm k hk)

theorem SameSpace.refl (m : Mem) (pgd : Addr) : SameSpace 256 m m pgd := ⟨rfl, rfl, rfl⟩

theorem SameSpace.trans {m m' m'' : Mem} (h : SameSpace 256 m m' pgd)
    (h' : SameSpace 256 m' m'' pgd) : SameSpace 256 m m'' pgd :=
  ⟨h'.pmd.trans h.pmd, h'.pt.trans h.pt, h'.leaf.trans h.leaf⟩

namespace Grown

theorem of_mem_eq (h : s'.mem = s.mem) : Grown s s' pgd ps loose := by
  refine ⟨?_, ?_, by rw [h], fun pgd' _ => ?_, fun p hp => ⟨?_, by rw [h]⟩,
    fun _ _ _ _ => by rw [h]⟩
  · rw [h]
    exact fun _ _ hp => hp
  · rw [h]
    exact fun _ _ hp => hp
  · rw [h]
    exact .refl _ _
  · rw [IsFrame, h]
    exact hp

theorem trans (h : Grown s s' pgd ps loose) (h' : Grown s' s'' pgd ps loose) :
    Grown s s'' pgd ps loose := by
  refine ⟨fun i p hp => h'.pmd i p (h.pmd i p hp), fun x p hp => h'.pt x p (h.pt x p hp),
    h'.leaf.trans h.leaf, fun pgd' hm => (h.others pgd' hm).trans (h'.others pgd' hm), ?_,
    h.upper.trans h'.upper⟩
  intro p hp
  obtain ⟨hf, hmem⟩ := h.frames p hp
  obtain ⟨hf', hmem'⟩ := h'.frames p hf
  exact ⟨hf', hmem'.trans hmem⟩

theorem mapped (h : Grown s s' pgd ps loose) : mapped s'.mem pgd = mapped s.mem pgd := by
  funext x
  rw [Mmu.mapped, Mmu.mapped, h.leaf]

end Grown

/-- What a new table leaves alone. -/
theorem Spaces.grown_install (h : Spaces s (pgd :: ps) (loose + Pi.single q 1) other)
    (hnew : (refsAll s.mem (pgd :: ps) + loose) q = 0) {table : Addr}
    (hi : Installs s q pgd table i) : Grown s (s.install q table i) pgd ps loose := by
  have hothers : ∀ pgd' ∈ ps, SameSpace 256 s.mem (s.install q table i).mem pgd' := fun pgd' hm =>
    sameSpace_install (h.not_isTable_of_loose (by simp) (by simp [hm]))
      (h.not_isTable_of_mem hi.place hm)
  refine ⟨hi.pmd, hi.pt, hi.leaf, hothers, fun p hp => ⟨⟨?_, fun pgd' hm htp => ?_⟩, ?_⟩,
    fun pgd' hm k hk => ?_⟩
  · rw [refsAll_cons, refsAll_congr hothers, hi.refs]
    have hp' := hp.1
    rw [refsAll_cons] at hp'
    simp only [Pi.add_apply] at hp' ⊢
    omega
  · rcases List.mem_cons.1 hm with rfl | hm'
    · rcases hi.tables p htp with rfl | htp'
      · exact hp.1 hnew
      · exact hp.2 _ hm htp'
    · exact hp.2 _ hm (((hothers pgd' hm').isTable p).1 htp)
  · refine install_mem_of_ne ?_ ?_
    · rintro rfl
      exact hp.1 hnew
    · rintro rfl
      exact hp.2 pgd (by simp) hi.place
  · have hq : pgd' ≠ q := by
      rintro rfl
      exact h.not_isTable_of_loose (by simp) hm (.inl rfl)
    rcases eq_or_ne pgd' table with rfl | ht
    · have hne : k ≠ i := by
        rintro rfl
        rcases List.mem_cons.1 hm with rfl | hm'
        · have := hi.lower rfl
          omega
        · exact h.not_isTable_of_mem hi.place hm' (.inl rfl)
      rw [install_mem_table hq.symm, Function.update_of_ne hne]
    · rw [install_mem_of_ne hq ht]

/-! ## `pagewalk` -/

/-- One level of the walk: the entry `i` of `table` leads to a table, or becomes the place of
one. -/
theorem nextTable_spec (h : Spaces s (pgd :: ps) loose other) {table : Addr}
    (hi : ∀ q, next s.mem table i = none → PageAligned q → ¬ IsTable 256 s.mem pgd q →
      Installs s q pgd table i) :
    Spaces (nextTable s table i true).1 (pgd :: ps) loose other ∧
      Grown s (nextTable s table i true).1 pgd ps loose ∧
      ∀ q, (nextTable s table i true).2 = some q →
        next (nextTable s table i true).1.mem table i = some q := by
  unfold nextTable
  by_cases hv : HasFlag (s.mem table i) pteV
  · rw [if_pos hv]
    exact ⟨h, .of_mem_eq rfl, fun q hq => next_eq_some.2 ⟨hv, Option.some_inj.1 hq⟩⟩
  · have hnone : next s.mem table i = none := by
      rw [next, validEntry_eq_none.2 hv]
      rfl
    rw [if_neg hv, if_pos rfl]
    dsimp only
    rcases h.allocPage with ⟨h0, hs⟩ | ⟨h0, hal, hnew, hs⟩
    · rw [if_pos h0]
      exact ⟨hs, .of_mem_eq rfl, fun q hq => by cases hq⟩
    · rw [if_neg h0]
      have hinst : Installs s.allocPage.2 s.allocPage.1 pgd table i := by
        have hnt : ¬ IsTable 256 s.mem pgd s.allocPage.1 :=
          hs.not_isTable_of_loose (by simp) (by simp)
        obtain ⟨h₁, h₂, h₃, h₄, h₅, h₆, h₇⟩ := hi s.allocPage.1 hnone hal hnt
        exact ⟨h₁, h₂, h₃, h₄, h₅, h₆, h₇⟩
      have hgrown : Grown s s.allocPage.2 pgd ps loose := .of_mem_eq rfl
      refine ⟨hs.install hnew hinst, hgrown.trans (hs.grown_install hnew hinst), fun q hq => ?_⟩
      have hframe := frameAt_entryOf hal (show FlagBits pteV by decide)
      have hne : s.allocPage.1 ≠ table := by
        rintro rfl
        exact hs.not_isTable_of_loose (by simp) (by simp) hinst.place
      rw [← Option.some_inj.1 hq, hframe]
      have hnext := congrFun (next_install (s := s.allocPage.2) (i := i) hal hne) i
      rw [Function.update_self] at hnext
      exact hnext

/-- The indices of an address on the first two levels. -/
def tableIndex (va : Addr) : Fin 512 × Fin 512 := (vpn va 30, vpn va 21)

/-- The place of the leaf of an address. -/
def leafIndex (va : Addr) : Leaf := (vpn va 30, vpn va 21, vpn va 12)

/-- The address is in the user half, whose entries of the PGD are the lower ones. -/
def UserVa (va : Addr) : Prop := (vpn va 30).val < 256

/-- `pagewalk(pgd, va, 0)`. -/
theorem pagewalk_false (s : Vm) {n : ℕ} (hva : (vpn va 30).val < n) : pagewalk s pgd va false =
    (s, (ptAt n s.mem pgd (tableIndex va)).map fun pt => (pt, vpn va 12)) := by
  have hpt : ptAt n s.mem pgd (tableIndex va) =
      (next s.mem pgd (vpn va 30)).bind fun pmd => next s.mem pmd (vpn va 21) := by
    rw [ptAt, pmdAt, tableIndex]
    exact congrArg (Option.bind · _) (if_pos hva)
  have hnext : ∀ table i, nextTable s table i false = (s, next s.mem table i) := by
    intro table i
    unfold nextTable next validEntry
    split <;> rfl
  rw [hpt, pagewalk, hnext]
  cases next s.mem pgd (vpn va 30) with
  | none => rfl
  | some pmd =>
    dsimp only
    rw [hnext, Option.bind_some]
    cases next s.mem pmd (vpn va 21) <;> rfl

/-- `pagewalk(pgd, va, 1)`: where it gives an entry, this is the one of the address. -/
theorem pagewalk_spec (h : Spaces s (pgd :: ps) loose other) (hva : UserVa va) :
    Spaces (pagewalk s pgd va true).1 (pgd :: ps) loose other ∧
      Grown s (pagewalk s pgd va true).1 pgd ps loose ∧
      ∀ pt k, (pagewalk s pgd va true).2 = some (pt, k) →
        ptAt 256 (pagewalk s pgd va true).1.mem pgd (tableIndex va) = some pt ∧ k = vpn va 12 := by
  have hpgd : ∀ m : Mem, pmdAt 256 m pgd (vpn va 30) = next m pgd (vpn va 30) := fun m => if_pos hva
  obtain ⟨hs₁, hg₁, hr₁⟩ := nextTable_spec h fun q hnone hal hnt =>
    (h.tree (by simp)).installs_pmd ((hpgd s.mem).trans hnone) hva hal hnt
  unfold pagewalk
  rcases hn : nextTable s pgd (vpn va 30) true with ⟨s₁, _ | pmd⟩
  · rw [hn] at hs₁ hg₁
    exact ⟨hs₁, hg₁, fun pt k hk => by cases hk⟩
  · rw [hn] at hs₁ hg₁ hr₁
    have hpmd : pmdAt 256 s₁.mem pgd (vpn va 30) = some pmd := (hpgd s₁.mem).trans (hr₁ pmd rfl)
    have hpt : ∀ m : Mem, pmdAt 256 m pgd (vpn va 30) = some pmd →
        ptAt 256 m pgd (tableIndex va) = next m pmd (vpn va 21) := by
      intro m hm
      rw [ptAt, tableIndex, hm, Option.bind_some]
    obtain ⟨hs₂, hg₂, hr₂⟩ := nextTable_spec hs₁ fun q hnone hal hnt =>
      (hs₁.tree (by simp)).installs_pt hpmd ((hpt s₁.mem hpmd).trans hnone) hal hnt
    dsimp only at hs₁ hg₁ ⊢
    rcases hn' : nextTable s₁ pmd (vpn va 21) true with ⟨s₂, _ | pt⟩
    · rw [hn'] at hs₂ hg₂
      exact ⟨hs₂, hg₁.trans hg₂, fun pt k hk => by cases hk⟩
    · rw [hn'] at hs₂ hg₂ hr₂
      refine ⟨hs₂, hg₁.trans hg₂, fun pt' k hk => ?_⟩
      obtain ⟨rfl, rfl⟩ := Prod.mk.inj (Option.some_inj.1 hk)
      exact ⟨(hpt s₂.mem (hg₂.pmd _ _ hpmd)).trans (hr₂ pt rfl), rfl⟩

/-! ## `map_pages_at` -/

theorem val_vpn (va : Addr) (n : ℕ) : (vpn va n).val = va.toNat / 2 ^ n % 512 := by
  rw [vpn, Fin.val_ofNat, BitVec.toNat_ushiftRight, Nat.shiftRight_eq_div_pow]

theorem userVa_of_lt (h : va.toNat < 2 ^ 38) : UserVa va := by
  rw [UserVa, val_vpn]
  omega

/-- The leaves of one address space have changed, and the frames have not. -/
structure Remapped (s s' : Vm) (pgd : Addr) (ps : List Addr) (loose loose' : Addr → ℕ)
    (leaf' : Leaf → Option (BitVec 64)) : Prop where
  leaf : leafAt 256 s'.mem pgd = leaf'
  others : ∀ pgd' ∈ ps, SameSpace 256 s.mem s'.mem pgd'
  frames : ∀ p, IsFrame s (pgd :: ps) loose p → IsFrame s' (pgd :: ps) loose' p ∧ s'.mem p = s.mem p
  upper : UpperKept s.mem s'.mem (pgd :: ps)

/-- What a store to a last table leaves alone. -/
theorem Spaces.remapped_storeLeaf (h : Spaces s (pgd :: ps) loose other)
    (hpt : ptAt 256 s.mem pgd (i, j) = some pt)
    (hloose : loose' + bag ((validEntry w).map frameAt) =
      loose + bag (mapped s.mem pgd (i, j, k))) :
    Remapped s (s.store pt k w) pgd ps loose loose'
      (Function.update (leafAt 256 s.mem pgd) (i, j, k) (validEntry w)) := by
  obtain ⟨hpmds, hpts, hleaf⟩ := (h.tree (by simp)).apart.store_leaf hpt k w
  refine ⟨hleaf, fun pgd' hm => h.sameSpace_store (isTable_pt hpt) hm, fun p hp => ⟨⟨?_, ?_⟩, ?_⟩,
    fun pgd' hm k' _ => ?_⟩
  · rw [h.total_storeLeaf hpt hloose]
    exact hp.1
  · intro pgd' hm ht
    rcases List.mem_cons.1 hm with rfl | hm'
    · rw [IsTable, hpmds, hpts] at ht
      exact hp.2 _ hm ht
    · exact hp.2 _ hm (((h.sameSpace_store (isTable_pt hpt) hm').isTable p).1 ht)
  · apply store_mem_of_ne
    rintro rfl
    exact hp.2 pgd (by simp) (isTable_pt hpt)
  · rw [store_mem_of_ne]
    rcases List.mem_cons.1 hm with rfl | hm'
    · exact ((h.tree (by simp)).apart.pt_ne hpt).symm
    · rintro rfl
      exact h.not_isTable_of_mem (isTable_pt hpt) hm' (.inl rfl)

/-- The page `q` is mapped at `va`, unless there is no memory for a table. -/
theorem mapPage_spec (h : Spaces s (pgd :: ps) (loose + Pi.single q 1) other) (hva : UserVa va)
    (hq : PageAligned q) (hf : FlagBits prot) (hv : HasFlag prot pteV) :
    ((pagewalk s pgd va true).2 = none ∧
      Spaces (mapPage s pgd va (q - pageOffset) prot) (pgd :: ps) (loose + Pi.single q 1) other ∧
      Grown s (mapPage s pgd va (q - pageOffset) prot) pgd ps (loose + Pi.single q 1)) ∨
    (Spaces (mapPage s pgd va (q - pageOffset) prot) (pgd :: ps)
        (loose + bag (mapped s.mem pgd (leafIndex va))) other ∧
      Remapped s (mapPage s pgd va (q - pageOffset) prot) pgd ps (loose + Pi.single q 1)
        (loose + bag (mapped s.mem pgd (leafIndex va)))
        (Function.update (leafAt 256 s.mem pgd) (leafIndex va) (some (entryOf q prot)))) := by
  obtain ⟨hs, hg, hr⟩ := pagewalk_spec h hva
  unfold mapPage
  rcases hw : pagewalk s pgd va true with ⟨s₁, _ | ⟨pt, k⟩⟩
  · rw [hw] at hs hg
    exact .inl ⟨rfl, hs, hg⟩
  · rw [hw] at hs hg hr
    obtain ⟨hpt, rfl⟩ := hr pt k rfl
    have hvalid : validEntry (entryOf q prot) = some (entryOf q prot) :=
      validEntry_eq_some.2 ⟨hasFlag_entryOf_v.2 hv, rfl⟩
    have hloose : loose + bag (mapped s.mem pgd (leafIndex va)) +
        bag ((validEntry (entryOf q prot)).map frameAt) =
          loose + Pi.single q 1 + bag (mapped s₁.mem pgd (leafIndex va)) := by
      rw [hvalid, Option.map_some, frameAt_entryOf hq hf, bag_some, hg.mapped, add_right_comm]
    refine .inr ⟨hs.storeLeaf hpt hloose, ?_⟩
    have hstore := hs.remapped_storeLeaf hpt hloose
    rw [hvalid, hg.leaf] at hstore
    refine ⟨hstore.leaf, fun pgd' hm => (hg.others pgd' hm).trans (hstore.others pgd' hm), ?_,
      hg.upper.trans hstore.upper⟩
    intro p hp
    obtain ⟨hf₁, hm₁⟩ := hg.frames p hp
    obtain ⟨hf₂, hm₂⟩ := hstore.frames p hf₁
    exact ⟨hf₂, hm₂.trans hm₁⟩

/-- `map_pages_at` for one page. -/
theorem mapPagesAt_page (s : Vm) (pgd pa prot : BitVec 64) (hva : va.toNat + 4096 < 2 ^ 64) :
    mapPagesAt s pgd va pa 4096 prot = some (mapPage s pgd va pa prot) := by
  have hlt : va < va + 4096 := by
    rw [BitVec.lt_def, BitVec.toNat_add, show (4096 : Addr).toNat = 4096 from rfl]
    omega
  rw [mapPagesAt, show (4096 : BitVec 64).toNat / 4096 + 2 = 3 from rfl, mapLoop, if_pos hlt,
    mapLoop, if_neg (BitVec.lt_irrefl _)]

end BareMetalOS.Mmu
