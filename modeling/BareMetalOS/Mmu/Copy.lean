import BareMetalOS.Mmu.Release

/-!
# Copying an address space

`copy_pgd` gives the child a tree of its own whose leaves are those of the parent, all read-only on
both sides, and a reference to each frame for each leaf (`copyPgd_spec`). While it runs, the child
is one more address space; if a table cannot be allocated, `free_pgd` gives up the references of
this address space, and the parent keeps its mappings.
-/

namespace BareMetalOS.Mmu

open Memory (Addr Allocator pageSize)

variable {ps ps' : List Addr} {pgd child p q parentPt childPt parentPmd childPmd : Addr}
  {i j k : Fin 512} {w : BitVec 64} {s s' s'' : Vm} {loose : Addr → ℕ}
  {other : Addr → Option (ℕ × ℤ)} {D D' : Leaf → Prop}

/-- An entry without its W bit. -/
def readOnly (w : BitVec 64) : BitVec 64 := w &&& ~~~pteW

theorem validEntry_readOnly (h : HasFlag w pteV) : validEntry (readOnly w) = some (readOnly w) :=
  validEntry_eq_some.2 ⟨hasFlag_v_and_not_w.2 h, rfl⟩

theorem readOnly_readOnly (w : BitVec 64) : readOnly (readOnly w) = readOnly w := by
  rw [readOnly, readOnly, BitVec.and_assoc, BitVec.and_self]

/-- Some leaves of the parent have been copied. -/
structure Copied (s s' : Vm) (pgd child : Addr) (ps : List Addr) (loose : Addr → ℕ)
    (D : Leaf → Prop) : Prop where
  pmd : pmdAt 256 s'.mem pgd = pmdAt 256 s.mem pgd
  pt : ptAt 256 s'.mem pgd = ptAt 256 s.mem pgd
  done : ∀ x, D x → leafAt 256 s'.mem pgd x = (leafAt 256 s.mem pgd x).map readOnly ∧
    leafAt 256 s'.mem child x = (leafAt 256 s.mem pgd x).map readOnly
  rest : ∀ x, ¬ D x → leafAt 256 s'.mem pgd x = leafAt 256 s.mem pgd x ∧
    leafAt 256 s'.mem child x = leafAt 256 s.mem child x
  others : ∀ pgd' ∈ ps, SameSpace 256 s.mem s'.mem pgd'
  frames : ∀ p, IsFrame s (child :: pgd :: ps) loose p →
    IsFrame s' (child :: pgd :: ps) loose p ∧ s'.mem p = s.mem p
  upper : UpperKept s.mem s'.mem (child :: pgd :: ps)

namespace Copied

theorem refl (s : Vm) (pgd child : Addr) (ps : List Addr) (loose : Addr → ℕ) :
    Copied s s pgd child ps loose fun _ => False where
  pmd := rfl
  pt := rfl
  done _ := False.elim
  rest _ _ := ⟨rfl, rfl⟩
  others _ _ := .refl _ _
  frames _ hp := ⟨hp, rfl⟩
  upper _ _ _ _ := rfl

theorem trans (h : Copied s s' pgd child ps loose D) (h' : Copied s' s'' pgd child ps loose D') :
    Copied s s'' pgd child ps loose fun x => D x ∨ D' x where
  pmd := h'.pmd.trans h.pmd
  pt := h'.pt.trans h.pt
  done x hx := by
    by_cases hD' : D' x
    · have hread : (leafAt 256 s'.mem pgd x).map readOnly =
          (leafAt 256 s.mem pgd x).map readOnly := by
        by_cases hD : D x
        · rw [(h.done x hD).1, Option.map_map]
          congr 1
          funext w
          exact readOnly_readOnly w
        · rw [(h.rest x hD).1]
      rw [(h'.done x hD').1, (h'.done x hD').2, hread]
      exact ⟨rfl, rfl⟩
    · have hD : D x := hx.resolve_right hD'
      rw [(h'.rest x hD').1, (h'.rest x hD').2]
      exact h.done x hD
  rest x hx := by
    obtain ⟨hD, hD'⟩ := not_or.1 hx
    rw [(h'.rest x hD').1, (h'.rest x hD').2]
    exact h.rest x hD
  others pgd' hm := (h.others pgd' hm).trans (h'.others pgd' hm)
  frames p hp := by
    obtain ⟨hf, hmem⟩ := h.frames p hp
    obtain ⟨hf', hmem'⟩ := h'.frames p hf
    exact ⟨hf', hmem'.trans hmem⟩
  upper := h.upper.trans h'.upper

theorem congr (h : Copied s s' pgd child ps loose D) (hD : ∀ x, D' x ↔ D x) :
    Copied s s' pgd child ps loose D' := by
  rwa [show D' = D from funext fun x => propext (hD x)]

/-- A new table of the child copies nothing. -/
theorem of_grown (h : Grown s s' child (pgd :: ps) loose) :
    Copied s s' pgd child ps loose fun _ => False where
  pmd := (h.others pgd (by simp)).pmd
  pt := (h.others pgd (by simp)).pt
  done _ := False.elim
  rest x _ := ⟨congrFun (h.others pgd (by simp)).leaf x, congrFun h.leaf x⟩
  others pgd' hm := h.others pgd' (by simp [hm])
  frames := h.frames
  upper := h.upper

end Copied

/-! ## One entry -/

theorem IsFrame.perm (h : IsFrame s ps loose p) (hp : ps.Perm ps') : IsFrame s ps' loose p := by
  refine ⟨?_, fun pgd hm => h.2 pgd (hp.mem_iff.2 hm)⟩
  rw [← refsAll_perm hp]
  exact h.1

theorem UpperKept.perm {m m' : Mem} (h : UpperKept m m' ps) (hp : ps.Perm ps') :
    UpperKept m m' ps' := fun pgd hm => h pgd (hp.mem_iff.2 hm)

theorem IsFrame.incRef (h : IsFrame s ps loose p) (q : Addr) :
    IsFrame (s.incRef q) ps (loose + Pi.single q 1) p := by
  refine ⟨?_, h.2⟩
  have hp := h.1
  have hmem : (s.incRef q).mem = s.mem := rfl
  rw [hmem]
  simp only [Pi.add_apply] at hp ⊢
  omega

/-- The body of the innermost loop. -/
def copyEntry (s : Vm) (parentPt childPt : Addr) (k : Fin 512) : Vm :=
  let page := frameAt (s.mem parentPt k)
  let s := s.store parentPt k (readOnly (s.mem parentPt k))
  let s := s.store childPt k (s.mem parentPt k)
  s.incRef page

theorem copyEntry_spec (h : Spaces s (child :: pgd :: ps) loose other)
    (hp : ptAt 256 s.mem pgd (i, j) = some parentPt)
    (hc : ptAt 256 s.mem child (i, j) = some childPt)
    (hnone : leafAt 256 s.mem child (i, j, k) = none) (hv : HasFlag (s.mem parentPt k) pteV) :
    Spaces (copyEntry s parentPt childPt k) (child :: pgd :: ps) loose other ∧
      Copied s (copyEntry s parentPt childPt k) pgd child ps loose (fun x => x = (i, j, k)) ∧
      pmdAt 256 (copyEntry s parentPt childPt k).mem child = pmdAt 256 s.mem child ∧
      ptAt 256 (copyEntry s parentPt childPt k).mem child = ptAt 256 s.mem child := by
  set w := s.mem parentPt k with hw
  have hleaf : leafAt 256 s.mem pgd (i, j, k) = some w := leafAt_eq_some.2 ⟨parentPt, hp, hv, rfl⟩
  have hmapped : mapped s.mem pgd (i, j, k) = some (frameAt w) := by
    rw [mapped, hleaf]
    rfl
  have hvalid := validEntry_readOnly hv
  have hframe : frameAt (readOnly w) = frameAt w := frameAt_and_not_w
  have hswap : (child :: pgd :: ps).Perm (pgd :: child :: ps) := List.Perm.swap _ _ _
  -- the reference to the frame is taken first, and goes into the entry of the child
  have h₁ : Spaces (s.incRef (frameAt w)) (child :: pgd :: ps)
      (loose + Pi.single (frameAt w) 1) other := by
    apply h.incRef
    · have hpos : 0 < refsIn s.mem pgd (frameAt w) := refsIn_pos_of_mapped hmapped
      have hle : refsIn s.mem pgd (frameAt w) ≤ refsAll s.mem (child :: pgd :: ps) (frameAt w) :=
        refsIn_le_refsAll (by simp)
      rw [Pi.add_apply]
      omega
    · exact fun pgd' hm => h.not_isTable_of_mapped (by simp) hmapped hm
  have hloose₂ : loose + Pi.single (frameAt w) 1 + bag ((validEntry (readOnly w)).map frameAt) =
      loose + Pi.single (frameAt w) 1 + bag (mapped s.mem pgd (i, j, k)) := by
    rw [hvalid, hmapped, Option.map_some, hframe]
  have h₁' := h₁.perm hswap
  have h₂ := h₁'.storeLeaf hp hloose₂
  have r₂ := h₁'.remapped_storeLeaf hp hloose₂
  obtain ⟨hpmd₂, hpt₂, -⟩ := (h₁'.tree (by simp)).apart.store_leaf hp k (readOnly w)
  have hchild := r₂.others child (by simp)
  have hloose₃ : loose + bag ((validEntry (readOnly w)).map frameAt) =
      loose + Pi.single (frameAt w) 1 +
        bag (mapped
          ((s.incRef (frameAt w)).store parentPt k (readOnly w)).mem child (i, j, k)) := by
    have hnone' :
        mapped ((s.incRef (frameAt w)).store parentPt k (readOnly w)).mem child (i, j, k) =
        none := by
      rw [hchild.mapped, mapped]
      exact congrArg (Option.map frameAt) hnone
    rw [hnone', hvalid, Option.map_some, hframe, bag_some, bag_none, add_zero]
  have h₂' := h₂.perm hswap.symm
  have hc₂ := (congrFun hchild.pt (i, j)).trans hc
  have h₃ := h₂'.storeLeaf hc₂ hloose₃
  have r₃ := h₂'.remapped_storeLeaf hc₂ hloose₃
  obtain ⟨hpmd₃, hpt₃, -⟩ := (h₂'.tree (by simp)).apart.store_leaf hc₂ k (readOnly w)
  have hparent := r₃.others pgd (by simp)
  have heq : copyEntry s parentPt childPt k =
      ((s.incRef (frameAt w)).store parentPt k (readOnly w)).store childPt k (readOnly w) := by
    have hread : (s.store parentPt k (readOnly w)).mem parentPt k = readOnly w := by
      rw [store_mem_self, Function.update_self]
    rw [copyEntry, ← hw, hread]
    rfl
  rw [heq]
  refine ⟨h₃, ⟨hparent.pmd.trans hpmd₂, hparent.pt.trans hpt₂, ?_, ?_, ?_, ?_, ?_⟩,
    hpmd₃.trans hchild.pmd, hpt₃.trans hchild.pt⟩
  · rintro x rfl
    rw [hparent.leaf, r₂.leaf, r₃.leaf, Function.update_self, Function.update_self, hvalid, hleaf]
    exact ⟨rfl, rfl⟩
  · intro x hx
    rw [hparent.leaf, r₂.leaf, r₃.leaf, Function.update_of_ne hx, Function.update_of_ne hx,
      hchild.leaf]
    exact ⟨rfl, rfl⟩
  · exact fun pgd' hm => (r₂.others pgd' (by simp [hm])).trans (r₃.others pgd' (by simp [hm]))
  · intro p hp
    obtain ⟨hf₂, hm₂⟩ := r₂.frames p ((hp.incRef _).perm hswap)
    obtain ⟨hf₃, hm₃⟩ := r₃.frames p (hf₂.perm hswap.symm)
    exact ⟨hf₃, hm₃.trans hm₂⟩
  · exact (r₂.upper.perm hswap.symm).trans r₃.upper

/-! ## New tables of the child -/

/-- A last table is allocated. -/
theorem Spaces.allocPt (h : Spaces s (pgd :: ps) loose other)
    (hpmd : pmdAt 256 s.mem pgd i = some q) (hnone : ptAt 256 s.mem pgd (i, j) = none) :
    (s.allocPage.1 = 0 ∧ Spaces s.allocPage.2 (pgd :: ps) loose other) ∨
    (s.allocPage.1 ≠ 0 ∧ Spaces (s.allocPage.2.install s.allocPage.1 q j) (pgd :: ps) loose other ∧
      Grown s (s.allocPage.2.install s.allocPage.1 q j) pgd ps loose ∧
      pmdAt 256 (s.allocPage.2.install s.allocPage.1 q j).mem pgd = pmdAt 256 s.mem pgd ∧
      ptAt 256 (s.allocPage.2.install s.allocPage.1 q j).mem pgd =
        Function.update (ptAt 256 s.mem pgd) (i, j) (some s.allocPage.1)) := by
  rcases h.allocPage with h₀ | ⟨h0, hal, hnew, hs⟩
  · exact .inl h₀
  · have hnt : ¬ IsTable 256 s.mem pgd s.allocPage.1 := hs.not_isTable_of_loose (by simp) (by simp)
    have htree : Tree s.allocPage.2.mem pgd := h.tree (by simp)
    have hinst := htree.installs_pt hpmd hnone hal hnt
    obtain ⟨hpmds, hpts, -⟩ := htree.apart.install_pt hpmd hnone hal hnt
    have hgrown : Grown s s.allocPage.2 pgd ps loose := .of_mem_eq rfl
    exact .inr ⟨h0, hs.install hnew hinst, hgrown.trans (hs.grown_install hnew hinst), hpmds, hpts⟩

/-- A middle table is allocated. -/
theorem Spaces.allocPmd (h : Spaces s (pgd :: ps) loose other) (hi : i.val < 256)
    (hnone : pmdAt 256 s.mem pgd i = none) :
    (s.allocPage.1 = 0 ∧ Spaces s.allocPage.2 (pgd :: ps) loose other) ∨
    (s.allocPage.1 ≠ 0 ∧
      Spaces (s.allocPage.2.install s.allocPage.1 pgd i) (pgd :: ps) loose other ∧
      Grown s (s.allocPage.2.install s.allocPage.1 pgd i) pgd ps loose ∧
      pmdAt 256 (s.allocPage.2.install s.allocPage.1 pgd i).mem pgd =
        Function.update (pmdAt 256 s.mem pgd) i (some s.allocPage.1) ∧
      ptAt 256 (s.allocPage.2.install s.allocPage.1 pgd i).mem pgd = ptAt 256 s.mem pgd) := by
  rcases h.allocPage with h₀ | ⟨h0, hal, hnew, hs⟩
  · exact .inl h₀
  · have hnt : ¬ IsTable 256 s.mem pgd s.allocPage.1 := hs.not_isTable_of_loose (by simp) (by simp)
    have htree : Tree s.allocPage.2.mem pgd := h.tree (by simp)
    have hinst := htree.installs_pmd hnone hi hal hnt
    obtain ⟨hpmds, hpts, -⟩ := htree.apart.install_pmd hnone hi hal hnt
    have hgrown : Grown s s.allocPage.2 pgd ps loose := .of_mem_eq rfl
    exact .inr ⟨h0, hs.install hnew hinst, hgrown.trans (hs.grown_install hnew hinst), hpmds, hpts⟩

/-! ## The loops -/

/-- Leaves that the parent does not have. -/
theorem Copied.of_none (s : Vm) (ps : List Addr) (loose : Addr → ℕ)
    (h : ∀ x, D x → leafAt 256 s.mem pgd x = none ∧ leafAt 256 s.mem child x = none) :
    Copied s s pgd child ps loose D where
  pmd := rfl
  pt := rfl
  done x hx := by
    obtain ⟨hp, hc⟩ := h x hx
    rw [hp, hc]
    exact ⟨rfl, rfl⟩
  rest _ _ := ⟨rfl, rfl⟩
  others _ _ := .refl _ _
  frames _ hp := ⟨hp, rfl⟩
  upper _ _ _ _ := rfl

/-- The innermost loop. -/
theorem copyPt_spec (ks : List (Fin 512)) (hks : ks.Nodup)
    (h : Spaces s (child :: pgd :: ps) loose other)
    (hp : ptAt 256 s.mem pgd (i, j) = some parentPt)
    (hc : ptAt 256 s.mem child (i, j) = some childPt)
    (hnone : ∀ k ∈ ks, leafAt 256 s.mem child (i, j, k) = none) :
    Spaces (copyPt parentPt childPt ks s) (child :: pgd :: ps) loose other ∧
      Copied s (copyPt parentPt childPt ks s) pgd child ps loose
        (fun x => (x.1, x.2.1) = (i, j) ∧ x.2.2 ∈ ks) ∧
      pmdAt 256 (copyPt parentPt childPt ks s).mem child = pmdAt 256 s.mem child ∧
      ptAt 256 (copyPt parentPt childPt ks s).mem child = ptAt 256 s.mem child := by
  induction ks generalizing s with
  | nil => exact ⟨h, (Copied.refl s pgd child ps loose).congr (by simp), rfl, rfl⟩
  | cons k ks ih =>
    obtain ⟨hk, hks⟩ := List.nodup_cons.1 hks
    have hD : ∀ x : Leaf, ((x.1, x.2.1) = (i, j) ∧ x.2.2 ∈ k :: ks) ↔
        (x = (i, j, k) ∨ ((x.1, x.2.1) = (i, j) ∧ x.2.2 ∈ ks)) := by
      rintro ⟨i', j', k'⟩
      simp only [Prod.mk.injEq, List.mem_cons]
      tauto
    rw [copyPt]
    by_cases hv : HasFlag (s.mem parentPt k) pteV
    · rw [if_pos hv]
      obtain ⟨h₁, c₁, hpmd₁, hpt₁⟩ := copyEntry_spec h hp hc (hnone k (by simp)) hv
      have hnone₁ : ∀ k' ∈ ks, leafAt 256 (copyEntry s parentPt childPt k).mem child (i, j, k') =
          none := by
        intro k' hk'
        have hne : (i, j, k') ≠ (i, j, k) := by
          rintro heq
          rw [Prod.mk.injEq, Prod.mk.injEq] at heq
          rw [heq.2.2] at hk'
          exact hk hk'
        rw [(c₁.rest _ hne).2]
        exact hnone k' (by simp [hk'])
      obtain ⟨h₂, c₂, hpmd₂, hpt₂⟩ := ih hks h₁ (by rw [c₁.pt]; exact hp)
        (by rw [hpt₁]; exact hc) hnone₁
      exact ⟨h₂, (c₁.trans c₂).congr hD, hpmd₂.trans hpmd₁, hpt₂.trans hpt₁⟩
    · rw [if_neg hv]
      obtain ⟨h₂, c₂, hpmd₂, hpt₂⟩ := ih hks h hp hc fun k' hk' => hnone k' (by simp [hk'])
      have c₁ : Copied s s pgd child ps loose fun x => x = (i, j, k) := by
        apply Copied.of_none
        rintro x rfl
        refine ⟨?_, hnone k (by simp)⟩
        rw [leafAt, hp, Option.bind_some, validEntry_eq_none.2 hv]
      exact ⟨h₂, (c₁.trans c₂).congr hD, hpmd₂, hpt₂⟩

/-- The middle loop. -/
theorem copyPmd_spec (js : List (Fin 512)) (hjs : js.Nodup)
    (h : Spaces s (child :: pgd :: ps) loose other)
    (hp : pmdAt 256 s.mem pgd i = some parentPmd) (hc : pmdAt 256 s.mem child i = some childPmd)
    (hnone : ∀ j ∈ js, ptAt 256 s.mem child (i, j) = none) :
    Spaces (copyPmd parentPmd childPmd js s).1 (child :: pgd :: ps) loose other ∧
      (∃ D, Copied s (copyPmd parentPmd childPmd js s).1 pgd child ps loose D ∧
        ((copyPmd parentPmd childPmd js s).2 = true → ∀ x, D x ↔ x.1 = i ∧ x.2.1 ∈ js)) ∧
      pmdAt 256 (copyPmd parentPmd childPmd js s).1.mem child = pmdAt 256 s.mem child := by
  induction js generalizing s with
  | nil => exact ⟨h, ⟨_, .refl s pgd child ps loose, by simp⟩, rfl⟩
  | cons j js ih =>
    obtain ⟨hj, hjs⟩ := List.nodup_cons.1 hjs
    have hnone' : ptAt 256 s.mem child (i, j) = none := hnone j (by simp)
    have hpt : ptAt 256 s.mem pgd (i, j) = next s.mem parentPmd j := by
      rw [ptAt, hp, Option.bind_some]
    rw [copyPmd]
    by_cases hv : HasFlag (s.mem parentPmd j) pteV
    · rw [if_pos hv]
      dsimp only
      rcases h.allocPt hc hnone' with ⟨h0, h₁⟩ | ⟨h0, h₁, g₁, hpmd₁, hpt₁⟩
      · rw [if_pos h0]
        have hgrown : Grown s s.allocPage.2 child (pgd :: ps) loose := .of_mem_eq rfl
        exact ⟨h₁, ⟨_, .of_grown hgrown, fun hf => by cases hf⟩, rfl⟩
      · rw [if_neg h0]
        have c₁ : Copied s _ pgd child ps loose fun _ => False := .of_grown g₁
        have hparent : ptAt 256 s.mem pgd (i, j) = some (frameAt (s.mem parentPmd j)) :=
          hpt.trans (next_eq_some.2 ⟨hv, rfl⟩)
        obtain ⟨h₂, c₂, hpmd₂, hpt₂⟩ := copyPt_spec (List.finRange 512) (List.nodup_finRange 512) h₁
          (by rw [c₁.pt]; exact hparent) (by rw [hpt₁, Function.update_self]) fun k _ => by
            rw [(c₁.rest _ id).2, leafAt, hnone']
            rfl
        obtain ⟨h₃, ⟨D, c₃, hD⟩, hpmd₃⟩ := ih hjs h₂ (by rw [c₂.pmd, c₁.pmd]; exact hp)
          (by rw [hpmd₂, hpmd₁]; exact hc) fun j' hj' => by
            have hne : (i, j') ≠ (i, j) := by
              rintro heq
              rw [(Prod.mk.inj heq).2] at hj'
              exact hj hj'
            rw [hpt₂, hpt₁, Function.update_of_ne hne]
            exact hnone j' (by simp [hj'])
        refine ⟨h₃, ⟨_, c₁.trans (c₂.trans c₃), fun hok x => ?_⟩, hpmd₃.trans (hpmd₂.trans hpmd₁)⟩
        rw [hD hok x, Prod.mk.injEq, List.mem_cons]
        simp only [List.mem_finRange]
        tauto
    · rw [if_neg hv]
      obtain ⟨h₂, ⟨D, c₂, hD⟩, hpmd₂⟩ := ih hjs h hp hc fun j' hj' => hnone j' (by simp [hj'])
      have c₁ : Copied s s pgd child ps loose fun x => (x.1, x.2.1) = (i, j) := by
        apply Copied.of_none
        rintro ⟨i', j', k⟩ hx
        obtain ⟨rfl, rfl⟩ := Prod.mk.inj hx
        have hpnone : ptAt 256 s.mem pgd (i', j') = none := by
          rw [hpt, next, validEntry_eq_none.2 hv]
          rfl
        rw [leafAt, leafAt, hpnone, hnone']
        exact ⟨rfl, rfl⟩
      refine ⟨h₂, ⟨_, c₁.trans c₂, fun hok x => ?_⟩, hpmd₂⟩
      rw [hD hok x, Prod.mk.injEq, List.mem_cons]
      tauto

/-- The outer loop. -/
theorem copyUser_spec (is : List (Fin 512)) (his : is.Nodup) (huser : ∀ i ∈ is, i.val < 256)
    (h : Spaces s (child :: pgd :: ps) loose other)
    (hnone : ∀ i ∈ is, pmdAt 256 s.mem child i = none) :
    Spaces (copyUser pgd child is s).1 (child :: pgd :: ps) loose other ∧
      ∃ D, Copied s (copyUser pgd child is s).1 pgd child ps loose D ∧
        ((copyUser pgd child is s).2 = true → ∀ x, D x ↔ x.1 ∈ is) := by
  induction is generalizing s with
  | nil => exact ⟨h, _, .refl s pgd child ps loose, by simp⟩
  | cons i is ih =>
    obtain ⟨hi, his⟩ := List.nodup_cons.1 his
    have hnone' : pmdAt 256 s.mem child i = none := hnone i (by simp)
    have hpmd : pmdAt 256 s.mem pgd i = next s.mem pgd i := if_pos (huser i (by simp))
    have huser' : ∀ i' ∈ is, i'.val < 256 := fun i' hi' => huser i' (by simp [hi'])
    rw [copyUser]
    by_cases hv : HasFlag (s.mem pgd i) pteV
    · rw [if_pos hv]
      dsimp only
      rcases h.allocPmd (huser i (by simp)) hnone' with ⟨h0, h₁⟩ | ⟨h0, h₁, g₁, hpmd₁, hpt₁⟩
      · rw [if_pos h0]
        have hgrown : Grown s s.allocPage.2 child (pgd :: ps) loose := .of_mem_eq rfl
        exact ⟨h₁, _, .of_grown hgrown, fun hf => by cases hf⟩
      · rw [if_neg h0]
        have c₁ : Copied s _ pgd child ps loose fun _ => False := .of_grown g₁
        have hparent : pmdAt 256 s.mem pgd i = some (frameAt (s.mem pgd i)) :=
          hpmd.trans (next_eq_some.2 ⟨hv, rfl⟩)
        obtain ⟨h₂, ⟨D, c₂, hD⟩, hpmd₂⟩ := copyPmd_spec (List.finRange 512)
          (List.nodup_finRange 512) h₁
          (by rw [c₁.pmd]; exact hparent) (by rw [hpmd₁, Function.update_self]) fun j _ => by
            rw [hpt₁, ptAt, hnone']
            rfl
        have hfold : (s.allocPage.2.setPage s.allocPage.1 fun _ => 0).store child i
            (entryOf s.allocPage.1 pteV) = s.allocPage.2.install s.allocPage.1 child i := rfl
        rw [hfold]
        generalize copyPmd (frameAt (s.mem pgd i)) s.allocPage.1 (List.finRange 512)
          (s.allocPage.2.install s.allocPage.1 child i) = r at h₂ c₂ hD hpmd₂ ⊢
        by_cases hok : r.2 = true
        · rw [if_pos hok]
          obtain ⟨h₃, D', c₃, hD'⟩ := ih his huser' h₂ fun i' hi' => by
            have hne : i' ≠ i := by
              rintro rfl
              exact hi hi'
            rw [hpmd₂, hpmd₁, Function.update_of_ne hne]
            exact hnone i' (by simp [hi'])
          refine ⟨h₃, _, c₁.trans (c₂.trans c₃), fun hok' x => ?_⟩
          rw [hD hok x, hD' hok' x, List.mem_cons]
          simp
        · rw [if_neg hok]
          exact ⟨h₂, _, c₁.trans c₂, fun hf => absurd hf hok⟩
    · rw [if_neg hv]
      obtain ⟨h₂, D, c₂, hD⟩ := ih his huser' h fun i' hi' => hnone i' (by simp [hi'])
      have c₁ : Copied s s pgd child ps loose fun x => x.1 = i := by
        apply Copied.of_none
        rintro x rfl
        have hpnone : pmdAt 256 s.mem pgd x.1 = none := by
          rw [hpmd, next, validEntry_eq_none.2 hv]
          rfl
        rw [leafAt, leafAt, ptAt, ptAt, hpnone, hnone']
        exact ⟨rfl, rfl⟩
      refine ⟨h₂, _, c₁.trans c₂, fun hok x => ?_⟩
      rw [hD hok x, List.mem_cons]

/-! ## `copy_pgd` -/

theorem leafAt_of_pmdAt_none (h : ∀ i, pmdAt 256 s.mem q i = none) (x : Leaf) :
    leafAt 256 s.mem q x = none := by
  rw [leafAt, ptAt, h]
  rfl

/-- A loose page becomes a PGD without user mappings. -/
theorem Spaces.newPgd (h : Spaces s ps (loose + Pi.single q 1) other)
    (hnew : (refsAll s.mem ps + loose) q = 0) (words : Fin 512 → BitVec 64)
    (hw : ∀ i, i.val < 256 → words i = 0) :
    Spaces (s.setPage q words) (q :: ps) loose other ∧
      (∀ i, pmdAt 256 (s.setPage q words).mem q i = none) ∧
      (∀ pgd ∈ ps, SameSpace 256 s.mem (s.setPage q words).mem pgd) ∧
      ∀ p, IsFrame s ps loose p →
        IsFrame (s.setPage q words) (q :: ps) loose p ∧ (s.setPage q words).mem p = s.mem p := by
  have hsame : ∀ pgd ∈ ps, SameSpace 256 s.mem (s.setPage q words).mem pgd := fun pgd hm =>
    sameSpace_setPage (h.not_isTable_of_loose (by simp) hm)
  have hpmd : ∀ i, pmdAt 256 (s.setPage q words).mem q i = none := by
    intro i
    rw [pmdAt]
    split
    · rename_i hi
      rw [next, setPage_mem, Function.update_self, hw i hi, validEntry_zero]
      rfl
    · rfl
  have hpt : ∀ x, ptAt 256 (s.setPage q words).mem q x = none := fun x => by
    rw [ptAt, hpmd]
    rfl
  have htable : ∀ p, IsTable 256 (s.setPage q words).mem q p → p = q := by
    rintro p (rfl | ⟨i, hi⟩ | ⟨x, hx⟩)
    · rfl
    · rw [hpmd] at hi
      cases hi
    · rw [hpt] at hx
      cases hx
  have hrefs : refsIn (s.setPage q words).mem q = Pi.single q 1 := by
    funext p
    have h₁ : fiber (pmdAt 256 (s.setPage q words).mem q) p = 0 := by
      rw [fiber_eq_zero]
      intro i
      rw [hpmd]
      simp
    have h₂ : fiber (ptAt 256 (s.setPage q words).mem q) p = 0 := by
      rw [fiber_eq_zero]
      intro x
      rw [hpt]
      simp
    have h₃ : fiber (mapped (s.setPage q words).mem q) p = 0 := by
      rw [fiber_eq_zero]
      intro x
      rw [mapped, leafAt_of_pmdAt_none hpmd]
      simp
    rw [refsIn, h₁, h₂, h₃, Pi.single_apply, add_zero, add_zero, add_zero]
  have htotal : refsAll (s.setPage q words).mem (q :: ps) + loose =
      refsAll s.mem ps + (loose + Pi.single q 1) := by
    rw [refsAll_cons, hrefs, refsAll_congr hsame]
    abel
  refine ⟨⟨?_, fun pgd hm p ht => ?_⟩, hpmd, hsame, fun p hp => ⟨⟨?_, fun pgd hm ht => ?_⟩, ?_⟩⟩
  · rw [htotal]
    exact h.owns
  · rw [htotal]
    rcases List.mem_cons.1 hm with rfl | hm'
    · rw [htable p ht, ← add_assoc, Pi.add_apply, hnew, Pi.single_eq_same]
    · exact h.table pgd hm' p (((hsame pgd hm').isTable p).1 ht)
  · rw [htotal, ← add_assoc]
    have hp' := hp.1
    simp only [Pi.add_apply] at hp' ⊢
    omega
  · rcases List.mem_cons.1 hm with rfl | hm'
    · rw [htable p ht] at hp
      exact hp.1 hnew
    · exact hp.2 pgd hm' (((hsame pgd hm').isTable p).1 ht)
  · rw [setPage_mem, Function.update_of_ne]
    rintro rfl
    exact hp.1 hnew

/-- Some leaves of an address space have lost their W bit. -/
structure Weakened (m m' : Mem) (pgd : Addr) : Prop where
  pmd : pmdAt 256 m' pgd = pmdAt 256 m pgd
  pt : ptAt 256 m' pgd = ptAt 256 m pgd
  leaf : ∀ x, leafAt 256 m' pgd x = leafAt 256 m pgd x ∨
    leafAt 256 m' pgd x = (leafAt 256 m pgd x).map readOnly

theorem frameAt_readOnly (w : BitVec 64) : frameAt (readOnly w) = frameAt w := frameAt_and_not_w

theorem Weakened.mapped {m m' : Mem} (h : Weakened m m' pgd) : mapped m' pgd = mapped m pgd := by
  funext x
  rw [Mmu.mapped, Mmu.mapped]
  rcases h.leaf x with hx | hx
  · rw [hx]
  · rw [hx, Option.map_map, show frameAt ∘ readOnly = frameAt from funext frameAt_readOnly]

theorem Weakened.refsIn {m m' : Mem} (h : Weakened m m' pgd) : refsIn m' pgd = refsIn m pgd := by
  funext p
  rw [Mmu.refsIn, Mmu.refsIn, h.pmd, h.pt, h.mapped]

theorem Weakened.isTable {m m' : Mem} (h : Weakened m m' pgd) (p : Addr) :
    IsTable 256 m' pgd p ↔ IsTable 256 m pgd p := by
  rw [IsTable, IsTable, h.pmd, h.pt]

/-- A process has got a copy of its address space. -/
structure Forked (s s' : Vm) (pgd child : Addr) (ps : List Addr) (loose : Addr → ℕ) : Prop where
  leaf : ∀ x, leafAt 256 s'.mem pgd x = (leafAt 256 s.mem pgd x).map readOnly
  copy : ∀ x, leafAt 256 s'.mem child x = (leafAt 256 s.mem pgd x).map readOnly
  others : ∀ pgd' ∈ ps, SameSpace 256 s.mem s'.mem pgd'
  frames : ∀ p, IsFrame s (pgd :: ps) loose p →
    IsFrame s' (child :: pgd :: ps) loose p ∧ s'.mem p = s.mem p
  upper : UpperKept s.mem s'.mem (pgd :: ps)
  upperCopy : ∀ k : Fin 512, 256 ≤ k.val → s'.mem child k = s.mem pgd k

theorem Copied.weakened (h : Copied s s' pgd child ps loose D) : Weakened s.mem s'.mem pgd := by
  refine ⟨h.pmd, h.pt, fun x => ?_⟩
  by_cases hx : D x
  · exact .inr (h.done x hx).1
  · exact .inl (h.rest x hx).1

theorem mem_userHalf {i : Fin 512} : i ∈ userHalf ↔ i.val < 256 := by
  simp [userHalf]

theorem nodup_userHalf : userHalf.Nodup := (List.nodup_finRange 512).filter _

/-- `copy_pgd`: a full copy, or none. -/
theorem copyPgd_spec (h : Spaces s (pgd :: ps) loose other) :
    ((copyPgd s pgd).2 = 0 ∧ Spaces (copyPgd s pgd).1 (pgd :: ps) loose other ∧
      Weakened s.mem (copyPgd s pgd).1.mem pgd ∧
      (∀ pgd' ∈ ps, SameSpace 256 s.mem (copyPgd s pgd).1.mem pgd') ∧
      (∀ p, IsFrame s (pgd :: ps) loose p →
        IsFrame (copyPgd s pgd).1 (pgd :: ps) loose p ∧ (copyPgd s pgd).1.mem p = s.mem p) ∧
      UpperKept s.mem (copyPgd s pgd).1.mem (pgd :: ps)) ∨
    ((copyPgd s pgd).2 ≠ 0 ∧ Spaces (copyPgd s pgd).1 ((copyPgd s pgd).2 :: pgd :: ps) loose other ∧
      Forked s (copyPgd s pgd).1 pgd (copyPgd s pgd).2 ps loose) := by
  unfold copyPgd
  dsimp only
  rcases h.allocPage with ⟨h0, h₁⟩ | ⟨h0, -, hnew, h₁⟩
  · rw [if_pos h0]
    exact .inl ⟨rfl, h₁, ⟨rfl, rfl, fun x => .inl rfl⟩, fun _ _ => .refl _ _,
      fun _ hp => ⟨hp, rfl⟩, fun _ _ _ _ => rfl⟩
  · rw [if_neg h0]
    obtain ⟨h₂, hpmd, hsame, hframes⟩ := h₁.newPgd hnew
      (fun i => if 256 ≤ i.val then s.allocPage.2.mem pgd i else 0) fun i hi => if_neg (by omega)
    have hq₂ : ∀ k : Fin 512, 256 ≤ k.val → (s.allocPage.2.setPage s.allocPage.1 fun i =>
        if 256 ≤ i.val then s.allocPage.2.mem pgd i else 0).mem s.allocPage.1 k = s.mem pgd k := by
      intro k hk
      rw [setPage_mem, Function.update_self, if_pos hk]
      rfl
    have hup₂ : UpperKept s.mem (s.allocPage.2.setPage s.allocPage.1 fun i =>
        if 256 ≤ i.val then s.allocPage.2.mem pgd i else 0).mem (pgd :: ps) := by
      intro pgd' hm k _
      rw [setPage_mem, Function.update_of_ne]
      · rfl
      · rintro rfl
        exact h₁.not_isTable_of_loose (by simp) hm (.inl rfl)
    generalize hs₂ : (s.allocPage.2.setPage s.allocPage.1 fun i =>
      if 256 ≤ i.val then s.allocPage.2.mem pgd i else 0) = s₂ at h₂ hpmd hsame hframes hq₂ hup₂ ⊢
    generalize s.allocPage.1 = q at *
    obtain ⟨h₃, D, c, hD⟩ := copyUser_spec userHalf nodup_userHalf (fun i => mem_userHalf.1) h₂
      fun i _ => hpmd i
    generalize copyUser pgd q userHalf s₂ = r at h₃ c hD ⊢
    have hparent : SameSpace 256 s.mem s₂.mem pgd := hsame pgd (by simp)
    have hothers : ∀ pgd' ∈ ps, SameSpace 256 s.mem r.1.mem pgd' := fun pgd' hm =>
      (hsame pgd' (by simp [hm])).trans (c.others pgd' hm)
    have hupper : UpperKept s.mem r.1.mem (pgd :: ps) :=
      hup₂.trans fun pgd' hm => c.upper pgd' (by simp [List.mem_cons.1 hm])
    by_cases hok : r.2 = true
    · rw [if_pos hok]
      have hall : ∀ x, leafAt 256 r.1.mem pgd x = (leafAt 256 s.mem pgd x).map readOnly ∧
          leafAt 256 r.1.mem q x = (leafAt 256 s.mem pgd x).map readOnly := by
        intro x
        by_cases hx : x.1.val < 256
        · have hdone := c.done x ((hD hok x).2 (mem_userHalf.2 hx))
          rwa [hparent.leaf] at hdone
        · -- the upper half of the PGD is not part of the address space
          have hnone : ∀ (m : Mem) (pgd : Addr), leafAt 256 m pgd x = none := by
            intro m pgd
            rw [leafAt, ptAt, pmdAt, if_neg hx]
            rfl
          rw [hnone, hnone, hnone]
          exact ⟨rfl, rfl⟩
      refine .inr ⟨h0, h₃, fun x => (hall x).1, fun x => (hall x).2, hothers, fun p hp => ?_,
        hupper, fun k hk => (c.upper q (by simp) k hk).trans (hq₂ k hk)⟩
      obtain ⟨hf₂, hm₂⟩ := hframes p hp
      obtain ⟨hf₃, hm₃⟩ := c.frames p hf₂
      exact ⟨hf₃, hm₃.trans hm₂⟩
    · rw [if_neg hok]
      have hweak : Weakened s.mem r.1.mem pgd := by
        obtain ⟨hw₁, hw₂, hw₃⟩ := c.weakened
        refine ⟨hw₁.trans hparent.pmd, hw₂.trans hparent.pt, fun x => ?_⟩
        rw [← hparent.leaf]
        exact hw₃ x
      refine .inl ⟨rfl, h₃.freePgd, ?_, ?_, fun p hp => ⟨⟨?_, fun pgd' hm => ?_⟩, ?_⟩, ?_⟩
      · rw [freePgd_mem]
        exact hweak
      · rw [freePgd_mem]
        exact hothers
      · rw [freePgd_mem, refsAll_cons, refsAll_congr hothers, hweak.refsIn, ← refsAll_cons]
        exact hp.1
      · rw [freePgd_mem]
        exact (c.frames p (hframes p hp).1).1.2 pgd' (by simp [List.mem_cons.1 hm])
      · obtain ⟨hf₂, hm₂⟩ := hframes p hp
        rw [freePgd_mem, (c.frames p hf₂).2, hm₂]
        rfl
      · rw [freePgd_mem]
        exact hupper

end BareMetalOS.Mmu
