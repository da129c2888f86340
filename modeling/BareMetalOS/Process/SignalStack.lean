import BareMetalOS.Process.Faults

/-!
# Signal stacks

`check_signals` gives the process a signal stack: a page, a region of its own and a mapping. It
keeps the invariant if there is room for the region in the user half and memory for the tables
(`SignalRoom`). `sys_sigreturn` frees the page and takes the region and the mapping away. It looks
for the region by its start, which is that of no other region.
-/

namespace BareMetalOS.Process

open Memory (Addr blockBytes)
open Mmu Sched Trap Files

variable {g : Ground} {s s' : Sys} {vm' : Vm} {p p' : Proc} {rest : List Proc}
  {lost lost' : Addr → ℕ} {opened : List Addr} {w : BitVec 64} {a q va : Addr} {i : ℕ} {v : VmArea}
  {vmas : List VmArea} {leaf : Leaf → Option (BitVec 64)}

/-- The flags of a region for a signal stack. -/
def signalStackFlags : BitVec 64 := protRead ||| protWrite ||| protExec

theorem signalStackProt_eq : signalStackProt = pteProt signalStackFlags := by decide

/-- The region of a signal stack would be in the user half, and there is memory for its tables. -/
def SignalRoom (s : Vm) (p : Proc) : Prop :=
  ∀ va ∈ findFreeVmaRegion p.vmas 4096,
    ∀ r ∈ Mmu.addVma (s.allocPage.2.setPage s.allocPage.1 fun _ => 0) p.vmas va 4096
      signalStackFlags mapAnonymous,
      va.toNat + 4096 ≤ 2 ^ 38 ∧ (pagewalk r.1 p.pgd va true).2.isSome

-- an instance for options, since addresses are also a finite type
instance (s : Vm) (p : Proc) : Decidable (SignalRoom s p) := Option.decidableForallMem _

namespace Inv

/-- No page of a free place is mapped. -/
theorem leafAt_of_free (h : Regions leaf vmas) (hfree : Free vmas 4096 va.toNat)
    (hva : va.toNat + 4096 ≤ 2 ^ 38) (halign : va.toNat % 4096 = 0) :
    leaf (leafIndex va) = none := by
  by_contra hsome
  obtain ⟨w, hw⟩ := Option.ne_none_iff_exists'.1 hsome
  obtain ⟨u, hu, hcov, -⟩ := h.covered _ w hw
  have hclear := hfree u.range (List.mem_map_of_mem hu)
  simp only [VmArea.range] at hclear
  have hbase := @leafBase_leafIndex va (by omega)
  have hlen : (4096 : BitVec 64).toNat = 4096 := rfl
  unfold Covers at hcov
  omega

/-- A signal is delivered. -/
theorem deliver (h : Inv g { s with procs := p :: rest } lost opened)
    (hroom : SignalRoom s.vm p) (hd : Process.deliver s.vm s.stub p i = some (vm', p')) :
    Inv g { s with vm := vm', procs := p' :: rest } lost opened := by
  have hp : p ∈ p :: rest := List.mem_cons_self ..
  rw [Process.deliver] at hd
  dsimp only at hd
  by_cases h0 : s.vm.allocPage.1 = 0
  · rw [if_pos h0] at hd
    cases hd
  rw [if_neg h0] at hd
  obtain ⟨va, hva, hd⟩ := Option.bind_eq_some_iff.1 hd
  obtain ⟨⟨vm₂, vmas⟩, hadd, hd⟩ := Option.bind_eq_some_iff.1 hd
  obtain ⟨hlt, hwalk⟩ := hroom va hva (vm₂, vmas) hadd
  obtain ⟨hal, hfresh, h₁, hsame⟩ := h.allocFilled (fun _ => 0) h0
  generalize s.vm.allocPage.2.setPage s.vm.allocPage.1 (fun _ => 0) = vm₁ at *
  generalize s.vm.allocPage.1 = q at *
  -- the place of the region
  obtain ⟨hends, hor, hge⟩ := findFreeLoop_end _ _ hva
  have hlen : (4096 : BitVec 64).toNat = 4096 := rfl
  have hfree : Free p.vmas 4096 va.toNat := by
    apply (isVmaOverlap_eq_false_iff (by omega)).1
    simp only [isVmaOverlap, List.any_eq_false, decide_eq_true_eq, not_not]
    exact hends
  have halign : va.toNat % 4096 = 0 := by
    rcases hor with rfl | ⟨v, hv, rfl⟩
    · decide
    · exact ((h.regions p hp).ok.aligned v hv).2.1
  have hne : va ≠ 0 := by
    rintro rfl
    exact absurd hge (by decide)
  have hnone : leafAt 256 vm₁.mem p.pgd (leafIndex va) = none := by
    rw [(hsame p hp).leaf]
    exact leafAt_of_free (h.regions p hp) hfree hlt halign
  -- the region
  obtain ⟨h₂, hmem, node, rfl⟩ := addVma (s := { s with vm := vm₁ }) h₁ hadd hfree (by omega) halign
    (by decide) (.inr (by decide))
  set new : VmArea := ⟨node, va, va + 4096, signalStackFlags, mapAnonymous, 0, 0⟩ with hnew
  have hin : new ∈ insertVma new p.vmas := (insertVma_perm _ _).mem_iff.2 (List.mem_cons_self ..)
  have hcov : Covers new (leafIndex va) := by
    have hstop : (va + 4096).toNat = va.toNat + 4096 := BitVec.toNat_add_of_lt (by omega)
    rw [Covers, leafBase_leafIndex (by omega)]
    change va.toNat ≤ _ ∧ _ < (va + 4096).toNat
    omega
  rw [mapPagesAt_page _ _ _ _ (by omega), signalStackProt_eq] at hd
  cases hd
  -- the mapping
  have hmap := mapPage (s := { s with vm := vm₂ }) (v := new) h₂ hfresh hal
    (userVa_of_lt (by omega))
    (by rw [hmem]; exact hnone) hin hcov
  rcases hmap with ⟨hwalk', -, -⟩ | ⟨h₃, hleaf₃⟩
  · rw [hwalk'] at hwalk
    cases hwalk
  dsimp only at h₃ hleaf₃
  generalize Mmu.mapPage vm₂ p.pgd va (q - pageOffset) (pteProt new.prot) = vm₃ at *
  set entry := entryOf q (pteProt new.prot) with hentry
  have hleaf : leafAt 256 vm₃.mem p.pgd (leafIndex va) = some entry := by
    rw [hleaf₃, Function.update_self]
  have hframe : frameAt entry = q := frameAt_entryOf hal (flagBits_pteProt _)
  -- the trampoline
  have htables : g.tables q = 0 := by
    rw [Pi.add_apply] at hfresh
    omega
  have hnt : ∀ pgd ∈ pgds ({ p with vmas := insertVma new p.vmas } :: rest),
      ¬ IsTable 256 vm₃.mem pgd q := by
    intro pgd hm
    rw [← hframe]
    exact not_isTable_leaf (s := { s with vm := vm₃, procs := _ }) h₃
      (List.mem_cons_self ..) hleaf hm
  have h₄ := @writePage _ _ (vm₃.setPage q s.stub.page) _ _ _ _ h₃ hnt htables rfl setPage_mem
  have hleaf₄ : leafAt 256 (vm₃.setPage q s.stub.page).mem p.pgd (leafIndex va) = some entry := by
    rw [(sameSpace_setPage (s := vm₃) (hnt p.pgd (List.mem_cons_self ..))).leaf]
    exact hleaf
  refine setTask (s := { s with vm := vm₃.setPage q s.stub.page }) h₄ rfl rfl rfl rfl ?_
  refine (signalOk_of_handling rfl).2 ⟨⟨new, hin, rfl, rfl⟩, ⟨hne, hlt⟩, entry, hleaf₄, hframe, ?_⟩
  rw [hentry, hasFlag_entryOf_w]
  change HasFlag (pteProt signalStackFlags) pteW
  decide

end Inv

/-! ## The return from a handler -/

theorem leafBase_injective : Function.Injective leafBase := by
  rintro ⟨i, j, k⟩ ⟨i', j', k'⟩ h
  have hi := i.isLt
  have hj := j.isLt
  have hk := k.isLt
  have hi' := i'.isLt
  have hj' := j'.isLt
  have hk' := k'.isLt
  simp only [leafBase] at h
  simp only [Prod.mk.injEq, Fin.ext_iff]
  omega

/-- The region of the signal stack is the one that `remove_vma` finds. -/
theorem find_signalStack (hreg : Regions (leafAt 256 s.vm.mem p.pgd) p.vmas)
    (hstack : SignalStack (leafAt 256 s.vm.mem p.pgd) p) :
    ∃ v ∈ p.vmas, p.vmas.find? (·.start = p.signalStackVaddr) = some v ∧
      v.start = p.signalStackVaddr ∧ v.stop.toNat = p.signalStackVaddr.toNat + 4096 := by
  obtain ⟨v, hv, hstart, hstop⟩ := hstack.region
  obtain ⟨hne, hlt⟩ := hstack.user
  have hstop' : v.stop.toNat = p.signalStackVaddr.toNat + 4096 := by
    rw [hstop, BitVec.toNat_add, show (4096 : Addr).toNat = 4096 from rfl]
    omega
  have halign := (hreg.ok.aligned v hv).1
  rw [hstart] at halign
  cases hfind : p.vmas.find? (·.start = p.signalStackVaddr) with
  | none =>
    rw [List.find?_eq_none] at hfind
    exact absurd (by simpa using hstart) (hfind v hv)
  | some u =>
    have hu : u ∈ p.vmas := List.mem_of_find?_eq_some hfind
    have hustart : u.start = p.signalStackVaddr := by simpa using List.find?_some hfind
    have hupos : u.start.toNat < u.stop.toNat := (hreg.positive u hu).resolve_left fun h0 =>
      hne (hustart.symm.trans h0)
    have hbase := @leafBase_leafIndex p.signalStackVaddr (by omega)
    obtain rfl : v = u := by
      apply covers_unique (x := leafIndex p.signalStackVaddr) hreg.ok hv hu
      · rw [Covers, hbase, hstart]
        omega
      · rw [hustart] at hupos
        rw [Covers, hbase, hustart]
        have := (hreg.ok.aligned u hu).2.1
        omega
    exact ⟨v, hv, rfl, hstart, hstop'⟩

/-- What `sys_sigreturn` does for a process that handles a signal. -/
theorem sysSigreturn_eq (hreg : Regions (leafAt 256 s.vm.mem p.pgd) p.vmas)
    (hstack : SignalStack (leafAt 256 s.vm.mem p.pgd) p) (hpage : p.signalStackPage ≠ 0) :
    ∃ v pt, v ∈ p.vmas ∧ p.vmas.find? (·.start = p.signalStackVaddr) = some v ∧
      v.start = p.signalStackVaddr ∧ v.stop.toNat = p.signalStackVaddr.toNat + 4096 ∧
      ptAt 256 s.vm.mem p.pgd (tableIndex p.signalStackVaddr) = some pt ∧
      sysSigreturn s.vm p = (((s.vm.store pt (vpn p.signalStackVaddr 12) 0).freePage
        p.signalStackPage).freePage v.node, { p with
          regs := p.task.signalSavedRegs
          task := { p.task with isHandlingSignal := false }
          vmas := p.vmas.eraseP (·.start = p.signalStackVaddr)
          signalStackPage := 0
          signalStackVaddr := 0 }) := by
  obtain ⟨v, hv, hfind, hstart, hstop⟩ := find_signalStack hreg hstack
  have huser : UserVa p.signalStackVaddr := userVa_of_lt (by have := hstack.user.2; omega)
  obtain ⟨w, hw, -, -⟩ := hstack.entry
  obtain ⟨pt, hpt, -, -⟩ := leafAt_eq_some.1 hw
  refine ⟨v, pt, hv, hfind, hstart, hstop, hpt, ?_⟩
  have hentry : entryAt (s.vm.freePage p.signalStackPage) p.pgd p.signalStackVaddr =
      some (pt, vpn p.signalStackVaddr 12) := by
    rw [entryAt_eq _ _ huser]
    exact congrArg _ hpt
  rw [sysSigreturn]
  dsimp only
  rw [if_neg hpage, hentry]
  dsimp only
  rw [removeVma, hfind]
  rfl

namespace Inv

/-- The frame of a signal stack is a page, and its process has it alone. -/
theorem signalFrame (h : Inv g s lost opened) (hp : p ∈ s.procs)
    (hsig : p.task.isHandlingSignal = true) :
    SignalStack (leafAt 256 s.vm.mem p.pgd) p ∧ p.signalStackPage ≠ 0 ∧
      mapped s.vm.mem p.pgd (leafIndex p.signalStackVaddr) = some p.signalStackPage ∧
      refsAll s.vm.mem (pgds s.procs) p.signalStackPage = 1 := by
  have hstack : SignalStack (leafAt 256 s.vm.mem p.pgd) p :=
    (signalOk_of_handling hsig).1 (h.signals p hp)
  obtain ⟨w, hw, hframe, hW⟩ := hstack.entry
  have hone := h.writable p hp _ w hw hW
  rw [hframe] at hone
  refine ⟨hstack, ?_, ?_, hone⟩
  · apply (h.owned.spaces.owns.pageAligned (p := p.signalStackPage) _).2
    rw [Pi.add_apply]
    omega
  · rw [mapped, hw, ← hframe]
    rfl

/-- The frame of the signal stack is freed, and the structure of its region is still to be. -/
theorem sigreturn_owned {pt : Addr} (h : Inv g { s with procs := p :: rest } lost opened)
    (hmapped : mapped s.vm.mem p.pgd (leafIndex p.signalStackVaddr) = some p.signalStackPage)
    (hpt : ptAt 256 s.vm.mem p.pgd (tableIndex p.signalStackVaddr) = some pt)
    (hfind : p.vmas.find? (·.start = p.signalStackVaddr) = some v) :
    Owned ((s.vm.store pt (vpn p.signalStackVaddr 12) 0).freePage p.signalStackPage)
      (p.pgd :: pgds rest) (g.tables + lost) g.base (vmaBlock v ::
        (Proc.blocks { p with vmas := p.vmas.eraseP (·.start = p.signalStackVaddr) } ++
          allBlocks rest opened s.held)) := by
  have hbag : g.tables + lost + Pi.single p.signalStackPage 1 +
      bag ((validEntry (0 : BitVec 64)).map frameAt) =
        g.tables + lost + bag (mapped s.vm.mem p.pgd (leafIndex p.signalStackVaddr)) := by
    rw [validEntry_zero, hmapped, Option.map_none, bag_none, bag_some, add_zero]
  have hspaces : Spaces (s.vm.store pt (vpn p.signalStackVaddr 12) 0) (p.pgd :: pgds rest) _ _ :=
    h.owned_cons.spaces.storeLeaf hpt hbag
  -- the region of the signal stack is taken off the list
  have hperm := perm_of_find hfind
  have hblocks : (p.blocks ++ allBlocks rest opened s.held).Perm (vmaBlock v ::
      (Proc.blocks { p with vmas := p.vmas.eraseP (·.start = p.signalStackVaddr) } ++
        allBlocks rest opened s.held)) := by
    have hvmas : p.blocks.Perm (vmaBlock v ::
        Proc.blocks { p with vmas := p.vmas.eraseP (·.start = p.signalStackVaddr) }) :=
      ((((hperm.map vmaBlock).cons _).cons _).trans ((List.Perm.swap _ _ _).cons _)).trans
        (.swap _ _ _)
    exact hvmas.append_right _
  exact (h.owned_cons.of_spaces hspaces.freePage).perm hblocks

/-- A handler returns: its signal stack is freed and unmapped, and its region is gone. -/
theorem sigreturn (h : Inv g { s with procs := p :: rest } lost opened)
    (hsig : p.task.isHandlingSignal = true) :
    Inv g { s with vm := (sysSigreturn s.vm p).1, procs := (sysSigreturn s.vm p).2 :: rest }
      lost opened := by
  have hp : p ∈ p :: rest := List.mem_cons_self ..
  have hreg := h.regions p hp
  obtain ⟨hstack, hpage, hmapped, -⟩ := h.signalFrame hp hsig
  obtain ⟨v, pt, hv, hfind, hstart, hstop, hpt, hres⟩ := sysSigreturn_eq hreg hstack hpage
  obtain ⟨hne, hlt⟩ := hstack.user
  rw [hres]
  dsimp only
  have hzero := validEntry_zero
  have hperm := perm_of_find hfind
  have howned := (h.sigreturn_owned hmapped hpt hfind).freeBlock
  refine h.storeLeaf hpt rfl rfl rfl howned ⟨fun f hf => ?_, fun w' hw' _ => ?_⟩
    (fun t ht => ⟨ht, fun hf => ?_⟩) ?_ ((signalOk_of_not rfl).2 rfl)
  · rw [hzero] at hf
    cases hf
  · rw [hzero] at hw'
    cases hw'
  · rw [hzero] at hf
    cases hf
  · have hsub : (p.vmas.eraseP (·.start = p.signalStackVaddr)).Sublist p.vmas := List.eraseP_sublist
    refine ⟨⟨hreg.ok.sorted.sublist hsub, hreg.ok.apart.sublist hsub, fun u hu =>
      hreg.ok.aligned u (hsub.subset hu)⟩, fun u hu => hreg.below u (hsub.subset hu), fun u hu =>
      hreg.positive u (hsub.subset hu), fun y w' hy => ?_⟩
    rw [hzero] at hy
    have hne' : y ≠ leafIndex p.signalStackVaddr := by
      rintro rfl
      rw [Function.update_self] at hy
      cases hy
    rw [Function.update_of_ne hne'] at hy
    obtain ⟨u, hu, hcov, hflags⟩ := hreg.covered y w' hy
    refine ⟨u, ?_, hcov, hflags⟩
    rcases List.mem_cons.1 (hperm.mem_iff.1 hu) with rfl | hu
    · -- the region has one page only
      refine absurd (leafBase_injective ?_) hne'
      have halign := (hreg.ok.aligned u hv).1
      have hmod : leafBase y % 4096 = 0 := by
        rw [leafBase]
        omega
      rw [leafBase_leafIndex (by omega)]
      rw [Covers, hstart, hstop] at hcov
      rw [hstart] at halign
      omega
    · exact hu

end Inv

end BareMetalOS.Process
