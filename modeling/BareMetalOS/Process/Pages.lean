import BareMetalOS.Process.Invariant

/-!
# Pages of processes

The steps on pages: a page is allocated and written while nobody maps it, it is mapped where its
process has a region and no mapping yet, and copy-on-write gives a process a frame of its own. All
of them keep the invariant.
-/

namespace BareMetalOS.Process

open Memory (Addr blockBytes)
open Mmu Sched Trap Files

variable {g : Ground} {s s' : Sys} {vm' : Vm} {p p' : Proc} {rest : List Proc}
  {lost lost' : Addr → ℕ} {opened : List Addr} {x : Leaf} {w prot : BitVec 64}
  {a q t va pgd : Addr} {v : VmArea} {ps : List Addr} {m m' : Mem}

/-! ## References to frames -/

/-- A page that is no table is referred to by leaves only. -/
theorem refsIn_of_not_isTable (h : ¬ IsTable 256 m pgd t) :
    refsIn m pgd t = fiber (mapped m pgd) t := by
  have hpgd : t ≠ pgd := by
    rintro rfl
    exact h (.inl rfl)
  have hpmd : fiber (pmdAt 256 m pgd) t = 0 := by
    rw [fiber_eq_zero]
    exact fun i hi => h (isTable_pmd hi)
  have hpt : fiber (ptAt 256 m pgd) t = 0 := by
    rw [fiber_eq_zero]
    exact fun i hi => h (isTable_pt hi)
  rw [refsIn, if_neg hpgd, hpmd, hpt, zero_add, zero_add, zero_add]

/-- One leaf has changed. -/
theorem refsAll_update {o : Option Addr} (hm : mapped m' pgd = Function.update (mapped m pgd) x o)
    (hothers : ∀ pgd' ∈ ps, SameSpace 256 m m' pgd') (ht : ¬ IsTable 256 m pgd t)
    (ht' : ¬ IsTable 256 m' pgd t) :
    refsAll m' (pgd :: ps) t + bag (mapped m pgd x) t = refsAll m (pgd :: ps) t + bag o t := by
  have hfiber := fiber_update_bag (mapped m pgd) x o t
  rw [refsAll_cons, refsAll_cons, refsAll_congr hothers, Pi.add_apply, Pi.add_apply,
    refsIn_of_not_isTable ht, refsIn_of_not_isTable ht', hm]
  omega

/-- The frame of a leaf is referred to. -/
theorem refsAll_pos (h : leafAt 256 m pgd x = some w) (hm : pgd ∈ ps) :
    0 < refsAll m ps (frameAt w) := by
  have hmapped : mapped m pgd x = some (frameAt w) := by
    rw [mapped, h]
    rfl
  exact lt_of_lt_of_le (refsIn_pos_of_mapped hmapped) (refsIn_le_refsAll hm)

theorem mem_pgds {l : List Proc} (h : p ∈ l) : p.pgd ∈ pgds l := List.mem_map_of_mem h

theorem pgds_cons : pgds (p :: rest) = p.pgd :: pgds rest := rfl

namespace Inv

/-- The frame of a leaf is no table. -/
theorem not_isTable_leaf (h : Inv g s lost opened) (hp : p ∈ s.procs)
    (hx : leafAt 256 s.vm.mem p.pgd x = some w) (hpgd : pgd ∈ pgds s.procs) :
    ¬ IsTable 256 s.vm.mem pgd (frameAt w) := by
  have hmapped : mapped s.vm.mem p.pgd x = some (frameAt w) := by
    rw [mapped, hx]
    rfl
  exact h.owned.spaces.not_isTable_of_mapped (mem_pgds hp) hmapped hpgd

/-- A frame is neither lost nor a table of the kernel. -/
theorem frame_loose (h : Inv g s lost opened) (hp : p ∈ s.procs)
    (hx : leafAt 256 s.vm.mem p.pgd x = some w) : (g.tables + lost) (frameAt w) = 0 := by
  by_contra hne
  have hpos := refsAll_pos hx (mem_pgds hp)
  rw [h.unmapped _ hne] at hpos
  cases hpos

/-- The frame of a leaf is a page of the allocator that counts its mappings. -/
theorem blocks_frame (h : Inv g s lost opened) (hp : p ∈ s.procs)
    (hx : leafAt 256 s.vm.mem p.pgd x = some w) : Memory.blocks s.vm.alloc (frameAt w) =
      some (Memory.pageSize, (refsAll s.vm.mem (pgds s.procs) (frameAt w) : ℤ)) := by
  have hloose := h.frame_loose hp hx
  have hpos := refsAll_pos hx (mem_pgds hp)
  rw [h.owned.spaces.owns.blocks, Pi.add_apply, hloose, Nat.add_zero, if_neg (by omega)]

/-- `get_page_ref` of a frame counts its mappings. -/
theorem getPageRef (h : Inv g s lost opened) (hp : p ∈ s.procs)
    (hx : leafAt 256 s.vm.mem p.pgd x = some w) :
    Memory.getPageRef s.vm.alloc (frameAt w) = refsAll s.vm.mem (pgds s.procs) (frameAt w) := by
  have hloose := h.frame_loose hp hx
  have hpos := refsAll_pos hx (mem_pgds hp)
  have hget := h.owned.spaces.getPageRef (p := frameAt w) (by
    rw [Pi.add_apply]
    omega)
  rw [hget, hloose, Nat.add_zero]

/-- A table of the kernel is no table of a process. -/
theorem isFrame_kernel (h : Inv g s lost opened) (ht : g.tables t ≠ 0) :
    IsFrame s.vm (pgds s.procs) (g.tables + lost) t := by
  have hloose : (g.tables + lost) t ≠ 0 := by
    rw [Pi.add_apply]
    omega
  refine ⟨?_, fun pgd hm => h.owned.spaces.not_isTable_of_loose hloose hm⟩
  rw [Pi.add_apply]
  omega

/-! ## Pages that nobody maps -/

/-- A page is allocated. -/
theorem allocPage (h : Inv g s lost opened) :
    (s.vm.allocPage.1 = 0 ∧ Inv g { s with vm := s.vm.allocPage.2 } lost opened) ∨
    (s.vm.allocPage.1 ≠ 0 ∧ PageAligned s.vm.allocPage.1 ∧ (g.tables + lost) s.vm.allocPage.1 = 0 ∧
      Inv g { s with vm := s.vm.allocPage.2 } (lost + Pi.single s.vm.allocPage.1 1) opened) := by
  rcases h.owned.spaces.allocPage with ⟨h0, hs⟩ | ⟨h0, hal, hnew, hs⟩
  · exact .inl ⟨h0, h.owned.of_spaces hs, h.unmapped, h.writable, h.regions, h.signals, h.upper,
      h.kernel, h.pgd, h.files.counted, h.files.null, h.files.mem⟩
  · rw [Pi.add_apply] at hnew
    refine .inr ⟨h0, hal, by omega, h.owned.of_spaces ?_, fun q hq => ?_, h.writable, h.regions,
      h.signals, h.upper, h.kernel, h.pgd, h.files.counted, h.files.null, h.files.mem⟩
    · rw [← add_assoc]
      exact hs
    · rcases eq_or_ne q s.vm.allocPage.1 with rfl | hne
      · change refsAll s.vm.mem (pgds s.procs) s.vm.allocPage.1 = 0
        omega
      · apply h.unmapped q
        simpa [hne] using hq

/-- A page that is no table is written. -/
theorem writePage {words : Fin 512 → BitVec 64} (h : Inv g s lost opened)
    (hq : ∀ pgd ∈ pgds s.procs, ¬ IsTable 256 s.vm.mem pgd q) (ht : g.tables q = 0)
    (halloc : vm'.alloc = s.vm.alloc) (hmem : vm'.mem = Function.update s.vm.mem q words) :
    Inv g { s with vm := vm' } lost opened := by
  have hsame : ∀ pgd ∈ pgds s.procs, SameSpace 256 s.vm.mem vm'.mem pgd := by
    intro pgd hm
    rw [hmem]
    exact sameSpace_setPage (hq pgd hm)
  have hleaf : ∀ p ∈ s.procs, leafAt 256 vm'.mem p.pgd = leafAt 256 s.vm.mem p.pgd := fun p hp =>
    (hsame p.pgd (mem_pgds hp)).leaf
  have hrefs : refsAll vm'.mem (pgds s.procs) = refsAll s.vm.mem (pgds s.procs) :=
    refsAll_congr hsame
  refine ⟨h.owned.of_spaces (h.owned.spaces.congr halloc hsame), fun t ht => ?_,
    fun p hp x w hx hw => ?_, fun p hp => ?_, fun p hp => ?_, fun p hp i hi => ?_, fun t ht' => ?_,
    h.pgd, h.files.counted, h.files.null, h.files.mem⟩
  · rw [hrefs]
    exact h.unmapped t ht
  · rw [hrefs]
    rw [hleaf p hp] at hx
    exact h.writable p hp x w hx hw
  · rw [hleaf p hp]
    exact h.regions p hp
  · rw [hleaf p hp]
    exact h.signals p hp
  · change vm'.mem p.pgd i = _
    rw [hmem, Function.update_of_ne]
    · exact h.upper p hp i hi
    · rintro rfl
      exact hq p.pgd (mem_pgds hp) (.inl rfl)
  · change vm'.mem t = _
    rw [hmem, Function.update_of_ne]
    · exact h.kernel t ht'
    · rintro rfl
      exact ht' ht

/-- A page that nobody maps is written. -/
theorem setPage (h : Inv g s lost opened) (hq : lost q ≠ 0) (ht : g.tables q = 0)
    (words : Fin 512 → BitVec 64) : Inv g { s with vm := s.vm.setPage q words } lost opened := by
  have hloose : (g.tables + lost) q ≠ 0 := by
    rw [Pi.add_apply]
    omega
  exact h.writePage (fun pgd hm => h.owned.spaces.not_isTable_of_loose hloose hm) ht rfl setPage_mem

/-- A process writes to its memory. -/
theorem storeFrame (h : Inv g s lost opened) (hp : p ∈ s.procs)
    (hx : leafAt 256 s.vm.mem p.pgd x = some w) (i : Fin 512) (word : BitVec 64) :
    Inv g { s with vm := s.vm.store (frameAt w) i word } lost opened := by
  have hloose := h.frame_loose hp hx
  rw [Pi.add_apply] at hloose
  exact h.writePage (fun pgd hm => h.not_isTable_leaf hp hx hm) (by omega) rfl store_mem

/-! ## One leaf changes -/

/-- The new frame of a leaf was not mapped, or it is the old one. -/
structure Replaces (s : Vm) (ps : List Addr) (pgd : Addr) (x : Leaf) (o : Option (BitVec 64)) :
    Prop where
  frame : ∀ f, o.map frameAt = some f → refsAll s.mem ps f = 0 ∨ mapped s.mem pgd x = some f
  writable : ∀ w, o = some w → HasFlag w pteW → refsAll s.mem ps (frameAt w) = 0 ∨
    refsAll s.mem ps (frameAt w) = 1 ∧ mapped s.mem pgd x = some (frameAt w)

/-- One leaf of a process changes, and references are lost or found accordingly. -/
theorem remap {o : Option (BitVec 64)} (h : Inv g { s with procs := p :: rest } lost opened)
    (hfdt : p'.fdt = p.fdt) (hpgd : p'.pgd = p.pgd)
    (howned : Owned vm' (p.pgd :: pgds rest) (g.tables + lost') g.base
      (p'.blocks ++ allBlocks rest opened s.held))
    (hleaf : leafAt 256 vm'.mem p.pgd = Function.update (leafAt 256 s.vm.mem p.pgd) x o)
    (hothers : ∀ pgd' ∈ pgds rest, SameSpace 256 s.vm.mem vm'.mem pgd')
    (hupper : UpperKept s.vm.mem vm'.mem (p.pgd :: pgds rest))
    (hkernel : ∀ t, g.tables t ≠ 0 → vm'.mem t = s.vm.mem t)
    (hrep : Replaces s.vm (p.pgd :: pgds rest) p.pgd x o)
    (hlost : ∀ t, (g.tables + lost') t ≠ 0 → (g.tables + lost) t ≠ 0 ∧ o.map frameAt ≠ some t)
    (hregions : Regions (leafAt 256 vm'.mem p.pgd) p'.vmas)
    (hsignals : SignalOk (leafAt 256 vm'.mem p.pgd) p') :
    Inv g { s with vm := vm', procs := p' :: rest } lost' opened := by
  have hmapped := mapped_update hleaf
  have hrefs : ∀ t, ¬ IsTable 256 s.vm.mem p.pgd t → ¬ IsTable 256 vm'.mem p.pgd t →
      refsAll vm'.mem (p.pgd :: pgds rest) t + bag (mapped s.vm.mem p.pgd x) t =
        refsAll s.vm.mem (p.pgd :: pgds rest) t + bag (o.map frameAt) t := fun t ht ht' =>
    refsAll_update hmapped hothers ht ht'
  have hbag : ∀ {o' : Option Addr} {t : Addr}, o' ≠ some t → bag o' t = 0 := fun hne => if_neg hne
  have hbag' : ∀ {o' : Option Addr} {t : Addr}, o' = some t → bag o' t = 1 := fun heq => if_pos heq
  -- the frame of a leaf that was writable and is still there
  have hkeep : ∀ q ∈ p :: rest, ∀ y w, leafAt 256 s.vm.mem q.pgd y = some w → HasFlag w pteW →
      ¬ IsTable 256 vm'.mem p.pgd (frameAt w) →
      refsAll vm'.mem (p.pgd :: pgds rest) (frameAt w) ≤ 1 := by
    intro q hq y w hy hw ht'
    have hone : refsAll s.vm.mem (p.pgd :: pgds rest) (frameAt w) = 1 := h.writable q hq y w hy hw
    have heq := hrefs (frameAt w) (h.not_isTable_leaf hq hy (mem_pgds (List.mem_cons_self ..))) ht'
    by_cases hf : o.map frameAt = some (frameAt w)
    · rcases hrep.frame _ hf with h0 | hold
      · omega
      · rw [hbag' hf, hbag' hold] at heq
        omega
    · rw [hbag hf] at heq
      omega
  have hnt' : ∀ q ∈ p :: rest, ∀ y w, leafAt 256 vm'.mem q.pgd y = some w →
      ¬ IsTable 256 vm'.mem p.pgd (frameAt w) := by
    intro q hq y w hy
    have hy' : mapped vm'.mem q.pgd y = some (frameAt w) := by
      rw [mapped, hy]
      rfl
    exact howned.spaces.not_isTable_of_mapped (mem_pgds hq) hy' (List.mem_cons_self ..)
  refine h.change hfdt (by rwa [hpgd]) ?_ ?_ ?_ (by rwa [hpgd]) (by rwa [hpgd])
    (fun q hq => hothers q.pgd (mem_pgds hq)) ?_
    (fun pgd' hm => hupper pgd' (List.mem_cons_of_mem _ hm)) hkernel
  · intro t ht
    obtain ⟨hloose, hne⟩ := hlost t ht
    have heq := hrefs t
      (h.owned.spaces.not_isTable_of_loose hloose (mem_pgds (List.mem_cons_self ..)))
      (howned.spaces.not_isTable_of_loose ht (List.mem_cons_self ..))
    have h0 : refsAll s.vm.mem (p.pgd :: pgds rest) t = 0 := h.unmapped t hloose
    rw [hbag hne] at heq
    rw [hpgd]
    omega
  · intro y w hy hw
    rw [hpgd] at hy ⊢
    have ht' := hnt' p (List.mem_cons_self ..) y w hy
    have hpos : 0 < refsAll vm'.mem (p.pgd :: pgds rest) (frameAt w) :=
      refsAll_pos hy (List.mem_cons_self ..)
    have hle : refsAll vm'.mem (p.pgd :: pgds rest) (frameAt w) ≤ 1 := by
      rw [hleaf] at hy
      rcases eq_or_ne y x with rfl | hne
      · rw [Function.update_self] at hy
        have hf : o.map frameAt = some (frameAt w) := by
          rw [hy]
          rfl
        have hnt : ¬ IsTable 256 s.vm.mem p.pgd (frameAt w) := by
          rcases hrep.frame _ hf with h0 | hold
          · intro htab
            have hin : refsIn s.vm.mem p.pgd (frameAt w) ≤
                refsAll s.vm.mem (p.pgd :: pgds rest) (frameAt w) :=
              refsIn_le_refsAll (List.mem_cons_self ..)
            have := refsIn_pos_of_isTable htab
            omega
          · exact h.owned.spaces.not_isTable_of_mapped (mem_pgds (List.mem_cons_self ..)) hold
              (mem_pgds (List.mem_cons_self ..))
        have heq := hrefs (frameAt w) hnt ht'
        rw [hbag' hf] at heq
        rcases hrep.writable w hy hw with h0 | ⟨h1, hold⟩
        · omega
        · rw [hbag' hold] at heq
          omega
      · rw [Function.update_of_ne hne] at hy
        exact hkeep p (List.mem_cons_self ..) y w hy hw ht'
    omega
  · intro q hq y w hy hw
    rw [hpgd]
    apply hkeep q (List.mem_cons_of_mem _ hq) y w hy hw
    apply hnt' q (List.mem_cons_of_mem _ hq) y w
    rw [(hothers q.pgd (mem_pgds hq)).leaf]
    exact hy
  · intro i hi
    rw [hpgd]
    exact (hupper p.pgd (List.mem_cons_self ..) i hi).trans (h.upper p (List.mem_cons_self ..) i hi)

/-- An entry of a process is written. -/
theorem storeLeaf {pt : Addr} (h : Inv g { s with procs := p :: rest } lost opened)
    (hpt : ptAt 256 s.vm.mem p.pgd (tableIndex va) = some pt)
    (hmem : vm'.mem = (s.vm.store pt (vpn va 12) w).mem) (hfdt : p'.fdt = p.fdt)
    (hpgd : p'.pgd = p.pgd)
    (howned : Owned vm' (p.pgd :: pgds rest) (g.tables + lost') g.base
      (p'.blocks ++ allBlocks rest opened s.held))
    (hrep : Replaces s.vm (p.pgd :: pgds rest) p.pgd (leafIndex va) (validEntry w))
    (hlost : ∀ t, (g.tables + lost') t ≠ 0 →
      (g.tables + lost) t ≠ 0 ∧ (validEntry w).map frameAt ≠ some t)
    (hregions : Regions (Function.update (leafAt 256 s.vm.mem p.pgd) (leafIndex va) (validEntry w))
      p'.vmas)
    (hsignals : SignalOk (Function.update (leafAt 256 s.vm.mem p.pgd) (leafIndex va) (validEntry w))
      p') :
    Inv g { s with vm := vm', procs := p' :: rest } lost' opened := by
  have hspaces : Spaces s.vm (p.pgd :: pgds rest) _ _ := h.owned.spaces
  have hleaf : leafAt 256 vm'.mem p.pgd =
      Function.update (leafAt 256 s.vm.mem p.pgd) (leafIndex va) (validEntry w) := by
    rw [hmem]
    exact ((hspaces.tree (List.mem_cons_self ..)).apart.store_leaf hpt (vpn va 12) w).2.2
  have htable : IsTable 256 s.vm.mem p.pgd pt := isTable_pt hpt
  refine h.remap hfdt hpgd howned hleaf ?_ ?_ ?_ hrep hlost (by rwa [hleaf]) (by rwa [hleaf])
  · intro pgd' hm
    rw [hmem]
    exact hspaces.sameSpace_store htable hm
  · intro pgd' hm i _
    rw [hmem, store_mem_of_ne]
    rcases List.mem_cons.1 hm with rfl | hm'
    · exact ((hspaces.tree (List.mem_cons_self ..)).apart.pt_ne hpt).symm
    · rintro rfl
      exact hspaces.not_isTable_of_mem htable hm' (.inl rfl)
  · intro t ht
    rw [hmem, store_mem_of_ne]
    rintro rfl
    exact (h.isFrame_kernel ht).2 p.pgd (List.mem_cons_self ..) htable

/-! ## Mapping a page -/

/-- New tables do not concern the invariant. -/
theorem grown (h : Inv g { s with procs := p :: rest } lost opened)
    (hs : Spaces vm' (p.pgd :: pgds rest) (g.tables + lost)
      (withBlocks g.base (allBlocks (p :: rest) opened s.held)))
    (hg : Grown s.vm vm' p.pgd (pgds rest) (g.tables + lost)) :
    Inv g { s with vm := vm', procs := p :: rest } lost opened := by
  have hp : p ∈ p :: rest := List.mem_cons_self ..
  -- nothing changes at any leaf
  have hleaf := hg.leaf
  rw [← Function.update_eq_self (0, 0, 0) (leafAt 256 s.vm.mem p.pgd)] at hleaf
  rw [allBlocks_cons] at hs
  have howned := h.owned_cons.of_spaces hs
  refine h.remap rfl rfl howned hleaf hg.others hg.upper
    (fun t ht => (hg.frames t (h.isFrame_kernel ht)).2)
    ⟨fun f hf => .inr hf, fun w hw hW => .inr ⟨?_, ?_⟩⟩ (fun t ht => ⟨ht, fun hf => ?_⟩) ?_ ?_
  · exact h.writable p hp _ w hw hW
  · rw [mapped, hw]
    rfl
  · obtain ⟨w, hw, rfl⟩ := Option.map_eq_some_iff.1 hf
    exact ht (h.frame_loose hp hw)
  · rw [hg.leaf]
    exact h.regions p hp
  · rw [hg.leaf]
    exact h.signals p hp

theorem flagBits_pteProt (prot : BitVec 64) : FlagBits (pteProt prot) := by
  unfold pteProt
  split_ifs <;> decide

theorem hasFlag_pteProt (prot : BitVec 64) : HasFlag (pteProt prot) pteV := by
  unfold pteProt
  split_ifs <;> decide

theorem flagsOf_entryOf (hq : PageAligned q) : FlagsOf v (entryOf q (pteProt v.prot)) :=
  .inl (entry_decode hq.sub_pageOffset (flagBits_pteProt v.prot)).2

/-- Another leaf of a process that handles a signal is not its signal stack. -/
theorem signalOk_update {leaf : Leaf → Option (BitVec 64)} {o : Option (BitVec 64)}
    (h : SignalOk leaf p) (hx : ∀ w, leaf x = some w → ¬ HasFlag w pteW) :
    SignalOk (Function.update leaf x o) p := by
  unfold SignalOk at h ⊢
  split
  · rename_i hsig
    rw [if_pos hsig] at h
    obtain ⟨w, hw, hframe, hW⟩ := h.entry
    refine ⟨h.region, h.user, w, ?_, hframe, hW⟩
    rw [Function.update_of_ne, hw]
    rintro rfl
    exact hx w hw hW
  · rename_i hsig
    rwa [if_neg hsig] at h

/-- A page that nobody maps is mapped in a region of the process, unless a table is missing. -/
theorem mapPage (h : Inv g { s with procs := p :: rest } (lost + Pi.single q 1) opened)
    (hfresh : (g.tables + lost) q = 0) (hq : PageAligned q) (hva : UserVa va)
    (hnone : leafAt 256 s.vm.mem p.pgd (leafIndex va) = none) (hv : v ∈ p.vmas)
    (hcov : Covers v (leafIndex va)) :
    ((pagewalk s.vm p.pgd va true).2 = none ∧
      Inv g { s with
        vm := Mmu.mapPage s.vm p.pgd va (q - pageOffset) (pteProt v.prot)
        procs := p :: rest } (lost + Pi.single q 1) opened ∧
      leafAt 256 (Mmu.mapPage s.vm p.pgd va (q - pageOffset) (pteProt v.prot)).mem p.pgd =
        leafAt 256 s.vm.mem p.pgd) ∨
    Inv g { s with
        vm := Mmu.mapPage s.vm p.pgd va (q - pageOffset) (pteProt v.prot)
        procs := p :: rest } lost opened ∧
      leafAt 256 (Mmu.mapPage s.vm p.pgd va (q - pageOffset) (pteProt v.prot)).mem p.pgd =
        Function.update (leafAt 256 s.vm.mem p.pgd) (leafIndex va)
          (some (entryOf q (pteProt v.prot))) := by
  have hp : p ∈ p :: rest := List.mem_cons_self ..
  have hspaces := h.owned_cons.spaces
  have hzero : refsAll s.vm.mem (p.pgd :: pgds rest) q = 0 := h.unmapped q (by simp)
  have hmapped : mapped s.vm.mem p.pgd (leafIndex va) = none := by
    rw [mapped, hnone]
    rfl
  rw [← add_assoc] at hspaces
  rcases mapPage_spec hspaces hva hq (flagBits_pteProt v.prot) (hasFlag_pteProt v.prot) with
    ⟨hwalk, hs, hg⟩ | ⟨hs, hr⟩
  · rw [add_assoc] at hs hg
    rw [← allBlocks_cons] at hs
    exact .inl ⟨hwalk, h.grown hs hg, hg.leaf⟩
  · rw [hmapped, bag_none, add_zero] at hs hr
    have hr' := hr
    rw [add_assoc] at hr'
    have howned := h.owned_cons.of_spaces hs
    have hframe : frameAt (entryOf q (pteProt v.prot)) = q :=
      frameAt_entryOf hq (flagBits_pteProt v.prot)
    refine .inr ⟨h.remap rfl rfl howned hr.leaf hr.others hr.upper
      (fun t ht => (hr'.frames t (h.isFrame_kernel ht)).2) ⟨?_, ?_⟩ ?_ ?_ ?_, hr.leaf⟩
    · intro f hf
      rw [Option.map_some, hframe, Option.some_inj] at hf
      exact .inl (hf ▸ hzero)
    · intro w hw _
      rw [← Option.some_inj.1 hw, hframe]
      exact .inl hzero
    · intro t ht
      refine ⟨by rw [← add_assoc, Pi.add_apply]; omega, fun hf => ?_⟩
      rw [Option.map_some, hframe, Option.some_inj] at hf
      exact ht (hf ▸ hfresh)
    · rw [hr.leaf]
      have hreg := h.regions p hp
      refine ⟨hreg.ok, hreg.below, hreg.positive, fun y w hy => ?_⟩
      rcases eq_or_ne y (leafIndex va) with rfl | hne
      · rw [Function.update_self, Option.some_inj] at hy
        exact ⟨v, hv, hcov, hy ▸ flagsOf_entryOf hq⟩
      · rw [Function.update_of_ne hne] at hy
        exact hreg.covered y w hy
    · rw [hr.leaf]
      apply signalOk_update (h.signals p hp)
      intro w hw
      rw [hnone] at hw
      cases hw

end Inv

/-! ## Copy-on-write -/

/-- The entry of an address. -/
theorem entryAt_eq (s : Vm) (pgd : Addr) (hva : UserVa va) : entryAt s pgd va =
    (ptAt 256 s.mem pgd (tableIndex va)).map fun pt => (pt, vpn va 12) := by
  rw [entryAt, pagewalk_false s hva]

/-- An entry that is valid is a leaf. -/
theorem leafAt_of_entryAt {s : Vm} {e : Addr × Fin 512} (hva : UserVa va)
    (he : entryAt s pgd va = some e) (hv : HasFlag (s.mem e.1 e.2) pteV) :
    ptAt 256 s.mem pgd (tableIndex va) = some e.1 ∧ e.2 = vpn va 12 ∧
      leafAt 256 s.mem pgd (leafIndex va) = some (s.mem e.1 e.2) := by
  rw [entryAt_eq s pgd hva] at he
  obtain ⟨pt, hpt, rfl⟩ := Option.map_eq_some_iff.1 he
  exact ⟨hpt, rfl, leafAt_eq_some.2 ⟨pt, hpt, hv, rfl⟩⟩

/-- A page is in one region only. -/
theorem covers_unique {vmas : List VmArea} {u : VmArea} (h : VmasOk vmas) (hv : v ∈ vmas)
    (hu : u ∈ vmas) (hcv : Covers v x) (hcu : Covers u x) : v = u := by
  by_contra hne
  have : Std.Symm fun v w : VmArea =>
      v.stop.toNat ≤ w.start.toNat ∨ w.stop.toNat ≤ v.start.toNat := ⟨fun _ _ hor => hor.symm⟩
  have hapart := h.apart.forall hv hu hne
  unfold Covers at hcv hcu
  omega

/-- A flag of an entry is one of its ten lowest bits. -/
theorem hasFlag_and {flag : BitVec 64} (h : 0x3ff &&& flag = flag) :
    HasFlag (w &&& 0x3ff) flag ↔ HasFlag w flag := by
  rw [HasFlag, HasFlag, BitVec.and_assoc, h]

/-- The flags of a read-only page of a writable region, with the W bit. -/
theorem flags_or_w (hf : FlagsOf v w) (hw : ¬ HasFlag w pteW) (hv : HasFlag v.prot protWrite) :
    w &&& 0x3ff ||| pteW = pteProt v.prot := by
  have hprot :
      HasFlag (pteProt v.prot) pteW ∧ readOnly (pteProt v.prot) ||| pteW = pteProt v.prot := by
    unfold pteProt
    simp only [if_pos hv]
    split_ifs <;> decide
  rw [← hasFlag_and (by decide)] at hw
  rcases hf with hf | hf
  · rw [hf] at hw
    exact absurd hprot.1 hw
  · rw [hf]
    exact hprot.2

theorem and_or_w : (w ||| pteW) &&& 0x3ff = w &&& 0x3ff ||| pteW := by
  rw [BitVec.and_comm, BitVec.and_or_distrib_left, BitVec.and_comm _ w]
  rfl

namespace Inv

/-- The process gets a frame of its own, or the frame is its own already. -/
theorem cow {e : Addr × Fin 512} (h : Inv g { s with procs := p :: rest } lost opened)
    (hva : UserVa va) (he : entryAt s.vm p.pgd va = some e)
    (hvalid : HasFlag (s.vm.mem e.1 e.2) pteV)
    (hw : ¬ HasFlag (s.vm.mem e.1 e.2) pteW) (hv : v ∈ p.vmas) (hcov : Covers v (leafIndex va))
    (hwrite : HasFlag v.prot protWrite) :
    Inv g { s with vm := Process.cow s.vm e, procs := p :: rest } lost opened := by
  have hp : p ∈ p :: rest := List.mem_cons_self ..
  obtain ⟨hpt, hk, hleaf⟩ := leafAt_of_entryAt hva he hvalid
  obtain ⟨pt, k⟩ := e
  dsimp only at hpt hk hleaf hvalid hw
  subst hk
  set w := s.vm.mem pt (vpn va 12) with hwdef
  have hmapped : mapped s.vm.mem p.pgd (leafIndex va) = some (frameAt w) := by
    rw [mapped, hleaf]
    rfl
  obtain ⟨u, hu, hcu, hflags⟩ := (h.regions p hp).covered _ w hleaf
  obtain rfl := covers_unique (h.regions p hp).ok hv hu hcov hcu
  have hor := flags_or_w hflags hw hwrite
  -- the regions and the signal stack after the entry has got the W bit
  have hregions : ∀ w', w' &&& 0x3ff = pteProt v.prot → validEntry w' = some w' →
      Regions
        (Function.update (leafAt 256 s.vm.mem p.pgd) (leafIndex va) (validEntry w')) p.vmas := by
    intro w' hw' hval
    have hreg := h.regions p hp
    refine ⟨hreg.ok, hreg.below, hreg.positive, fun y w'' hy => ?_⟩
    rcases eq_or_ne y (leafIndex va) with rfl | hne
    · rw [Function.update_self, hval, Option.some_inj] at hy
      exact ⟨v, hv, hcov, .inl (hy ▸ hw')⟩
    · rw [Function.update_of_ne hne] at hy
      exact hreg.covered y w'' hy
  have hsignals : ∀ o,
      SignalOk (Function.update (leafAt 256 s.vm.mem p.pgd) (leafIndex va) o) p := by
    intro o
    apply signalOk_update (h.signals p hp)
    intro w' hw'
    rw [hleaf, Option.some_inj] at hw'
    rwa [← hw']
  have hget := h.getPageRef hp hleaf
  have hpos : 0 < refsAll s.vm.mem (p.pgd :: pgds rest) (frameAt w) :=
    refsAll_pos hleaf (List.mem_cons_self ..)
  unfold Process.cow
  dsimp only
  rw [← hwdef]
  split
  · rcases h.allocPage with ⟨h0, h₁⟩ | ⟨h0, hal, hfresh, h₁⟩
    · rw [if_pos h0]
      exact h₁
    · rw [if_neg h0]
      have hal' : PageAligned s.vm.allocPage.1 := hal
      have hfresh' : (g.tables + lost) s.vm.allocPage.1 = 0 := hfresh
      have hq : (lost + Pi.single s.vm.allocPage.1 1 : Addr → ℕ) s.vm.allocPage.1 ≠ 0 := by simp
      have htq : g.tables s.vm.allocPage.1 = 0 := by
        rw [Pi.add_apply] at hfresh'
        omega
      have h₂ : Inv g { s with
          vm := s.vm.allocPage.2.setPage s.vm.allocPage.1 (s.vm.allocPage.2.mem (frameAt w))
          procs := p :: rest } (lost + Pi.single s.vm.allocPage.1 1) opened :=
        h₁.setPage hq htq (s.vm.allocPage.2.mem (frameAt w))
      generalize s.vm.allocPage.1 = q at *
      have hloose : (g.tables + (lost + Pi.single q 1) : Addr → ℕ) q ≠ 0 := by simp
      have hnt : ¬ IsTable 256 s.vm.mem p.pgd q :=
        h₁.owned.spaces.not_isTable_of_loose hloose (List.mem_cons_self ..)
      have hsame : SameSpace 256 s.vm.mem
          (s.vm.allocPage.2.setPage q (s.vm.allocPage.2.mem (frameAt w))).mem p.pgd :=
        sameSpace_setPage (s := s.vm.allocPage.2) hnt
      have hread : (s.vm.allocPage.2.setPage q (s.vm.allocPage.2.mem (frameAt w))).mem pt
          (vpn va 12) = w := by
        rw [setPage_mem, Function.update_of_ne]
        · rfl
        · rintro rfl
          exact hnt (isTable_pt hpt)
      rw [hread, hor]
      generalize s.vm.allocPage.2.setPage q (s.vm.allocPage.2.mem (frameAt w)) = vm₂ at *
      have hvalid' : validEntry (entryOf q (pteProt v.prot)) = some (entryOf q (pteProt v.prot)) :=
        validEntry_eq_some.2 ⟨hasFlag_entryOf_v.2 (hasFlag_pteProt v.prot), rfl⟩
      have hframe : frameAt (entryOf q (pteProt v.prot)) = q :=
        frameAt_entryOf hal' (flagBits_pteProt v.prot)
      have hpt₂ : ptAt 256 vm₂.mem p.pgd (tableIndex va) = some pt := by
        rw [hsame.pt]
        exact hpt
      have hbag : g.tables + lost + Pi.single (frameAt w) 1 +
          bag ((validEntry (entryOf q (pteProt v.prot))).map frameAt) =
            g.tables + (lost + Pi.single q 1) + bag (mapped vm₂.mem p.pgd (leafIndex va)) := by
        rw [hvalid', Option.map_some, hframe, hsame.mapped, hmapped, bag_some, bag_some]
        abel
      have howned₂ := owned_cons (s := { s with vm := vm₂ }) h₂
      have hs₃ : Spaces (vm₂.store pt (vpn va 12) (entryOf q (pteProt v.prot))) (p.pgd :: pgds rest)
          (g.tables + lost + Pi.single (frameAt w) 1) _ := howned₂.spaces.storeLeaf hpt₂ hbag
      have howned := howned₂.of_spaces hs₃.freePage
      refine storeLeaf (s := { s with vm := vm₂ }) h₂ hpt₂ rfl rfl rfl howned
        ⟨fun f hf => .inl ?_, fun w' hw' _ => .inl ?_⟩
        (fun t ht => ⟨?_, fun hf => ?_⟩) ?_ ?_
      · rw [hvalid', Option.map_some, hframe, Option.some_inj] at hf
        exact hf ▸ h₂.unmapped q hloose
      · rw [hvalid', Option.some_inj] at hw'
        rw [← hw', hframe]
        exact h₂.unmapped q hloose
      · rw [← add_assoc, Pi.add_apply]
        omega
      · rw [hvalid', Option.map_some, hframe, Option.some_inj] at hf
        exact ht (hf ▸ hfresh')
      · rw [hsame.leaf]
        exact hregions _ (entry_decode hal'.sub_pageOffset (flagBits_pteProt v.prot)).2 hvalid'
      · rw [hsame.leaf]
        exact hsignals _
  · rename_i hone
    have hrefs : refsAll s.vm.mem (p.pgd :: pgds rest) (frameAt w) = 1 := by
      have hget' : Memory.getPageRef s.vm.alloc (frameAt w) =
          refsAll s.vm.mem (p.pgd :: pgds rest) (frameAt w) := hget
      omega
    have hvalid' : validEntry (w ||| pteW) = some (w ||| pteW) :=
      validEntry_eq_some.2 ⟨hasFlag_v_or_w.2 hvalid, rfl⟩
    have hbag : g.tables + lost + bag ((validEntry (w ||| pteW)).map frameAt) =
        g.tables + lost + bag (mapped s.vm.mem p.pgd (leafIndex va)) := by
      rw [hvalid', Option.map_some, frameAt_or_w, hmapped]
    have howned := h.owned_cons.of_spaces (h.owned_cons.spaces.storeLeaf hpt hbag)
    refine h.storeLeaf hpt rfl rfl rfl howned ⟨fun f hf => .inr ?_, fun w' hw' _ => .inr ?_⟩
      (fun t ht => ⟨ht, fun hf => ?_⟩) (hregions _ (and_or_w.trans hor) hvalid') (hsignals _)
    · rw [hvalid', Option.map_some, frameAt_or_w] at hf
      rw [hmapped, hf]
    · rw [hvalid', Option.some_inj] at hw'
      rw [← hw', frameAt_or_w]
      exact ⟨hrefs, hmapped⟩
    · rw [hvalid', Option.map_some, frameAt_or_w, Option.some_inj] at hf
      exact ht (hf ▸ h.frame_loose hp hleaf)

end Inv

end BareMetalOS.Process
