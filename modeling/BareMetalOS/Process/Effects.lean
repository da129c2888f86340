import BareMetalOS.Process.Contents

/-!
# What each call does to memory

The effect of each operation of a process on the contents of its own pages, and that the other
processes do not notice it.
-/

namespace BareMetalOS.Process

open Memory (Addr)
open Mmu Sched Trap Files

variable {g : Ground} {s s' : Sys} {vm vm' : Vm} {p p' : Proc} {rest : List Proc}
  {lost loose : Addr → ℕ} {opened : List Addr} {x : Leaf} {f pgd pt q va a : Addr} {w : BitVec 64}
  {v : VmArea} {ps : List Addr} {other : Addr → Option (ℕ × ℤ)}
  {cause badaddr prot stop : BitVec 64} {vmas : List VmArea} {i : ℕ}

/-! ## Page faults -/

/-- The first address of a page. -/
def pageAddr (x : Leaf) : Addr := BitVec.ofNat 64 (leafBase x)

theorem leafBase_lt (x : Leaf) : leafBase x < 2 ^ 39 := by
  have h₁ := x.1.isLt
  have h₂ := x.2.1.isLt
  have h₃ := x.2.2.isLt
  rw [leafBase]
  omega

theorem toNat_pageAddr (x : Leaf) : (pageAddr x).toNat = leafBase x := by
  have := leafBase_lt x
  rw [pageAddr, BitVec.toNat_ofNat]
  omega

theorem pageAddr_leafIndex (h : va.toNat < 2 ^ 38) : pageAddr (leafIndex va) = va &&& ~~~4095 := by
  apply BitVec.eq_of_toNat_eq
  rw [toNat_pageAddr, leafBase_leafIndex h, toNat_page]

namespace Inv

/-- A page fault does not change what is mapped, but a page of a region may be mapped now. -/
theorem effect_pageFault {handled : Bool} (h : Inv g { s with procs := p :: rest } lost opened)
    (hc : IsPageFault cause) (hn : ¬ Permitted s.vm.mem p.pgd cause badaddr)
    (hf : Process.pageFault s.vm p cause badaddr = some (vm', handled)) :
    Effect s.vm vm' rest ∧ (contents vm'.mem p.pgd = contents s.vm.mem p.pgd ∨
      ∃ v x, v ∈ p.vmas ∧ Covers v x ∧ contents s.vm.mem p.pgd x = none ∧
        contents vm'.mem p.pgd = Function.update (contents s.vm.mem p.pgd) x
          (some (filePage s.vm.mem v (pageAddr x - v.start)))) := by
  have hp : p ∈ p :: rest := List.mem_cons_self ..
  have hreg := h.regions p hp
  have hspaces : Spaces s.vm (pgds (p :: rest)) (g.tables + lost) _ := h.owned.spaces
  rcases pageFault_cases hf with ⟨-, rfl | ⟨-, rfl⟩⟩ | ⟨v, e, hfind, hcow, he, rfl, -⟩ |
    ⟨v, hfind, hcow, hok, h0, -, hmap⟩
  · exact ⟨(AllocOnly.refl hspaces.owns.inv).effect rest, .inl rfl⟩
  · exact ⟨(AllocOnly.allocPage hspaces.owns.inv).effect rest, .inl rfl⟩
  · obtain ⟨hv, hstart, hstop⟩ := findVma_eq hfind
    obtain ⟨hlt, -⟩ := covers_leafIndex hreg hv hstart hstop
    obtain ⟨-, -, e', he', hvalid, -⟩ := isCow_eq hcow
    obtain rfl := Option.some.inj (he.symm.trans he')
    obtain ⟨heffect, hsame⟩ := h.effect_cow (userVa_of_lt hlt) he hvalid
    exact ⟨heffect, .inl hsame⟩
  · obtain ⟨hv, hstart, hstop⟩ := findVma_eq hfind
    obtain ⟨hlt, hcov⟩ := covers_leafIndex hreg hv hstart hstop
    have hnone := h.leaf_none hc hn hv hlt hcov hcow hok
    rw [← pageAddr_leafIndex hlt] at hmap
    obtain ⟨hal, hs₁, heffect₁⟩ := effect_allocFilled (p :: rest) hspaces h0
      (filePage s.vm.allocPage.2.mem v (pageAddr (leafIndex badaddr) - v.start))
    have hpage := toNat_pageAddr (leafIndex badaddr)
    rw [leafBase_leafIndex hlt] at hpage
    rw [mapPagesAt_page _ _ _ _ (by omega)] at hmap
    obtain rfl := Option.some.inj hmap
    have hindex : leafIndex (pageAddr (leafIndex badaddr)) = leafIndex badaddr := by
      rw [pageAddr_leafIndex hlt, leafIndex_page badaddr]
    have huser : UserVa (pageAddr (leafIndex badaddr)) := userVa_of_lt (by omega)
    obtain ⟨heffect₂, hcontents⟩ := effect_mapPage (p := p) rest hs₁ huser hal
      (flagBits_pteProt v.prot) (hasFlag_pteProt v.prot)
    have heffect₁' : Effect s.vm _ rest :=
      ⟨fun q hq => heffect₁.others q (List.mem_cons_of_mem _ hq), heffect₁.withheld⟩
    refine ⟨heffect₁'.trans heffect₂, ?_⟩
    rw [(heffect₁.others p hp).contents, hindex] at hcontents
    rcases hcontents with ⟨-, hsame⟩ | hupdate
    · exact .inl hsame
    · refine .inr ⟨v, leafIndex badaddr, hv, hcov, ?_, ?_⟩
      · rw [contents, mapped, hnone]
        rfl
      · rw [hupdate, setPage_mem, Function.update_self]
        rfl

end Inv

/-! ## `sys_mmap` -/

/-- A region that meets no other. -/
def ApartFrom (new : VmArea) (vmas : List VmArea) : Prop :=
  ∀ v ∈ vmas, new.stop.toNat ≤ v.start.toNat ∨ v.stop.toNat ≤ new.start.toNat

theorem apartFrom_of_free {new : VmArea} {length : BitVec 64}
    (hfree : Free vmas length new.start.toNat)
    (hstop : new.stop.toNat = new.start.toNat + length.toNat) : ApartFrom new vmas := by
  intro v hv
  have hclear := hfree v.range (List.mem_map_of_mem hv)
  simp only [VmArea.range] at hclear
  omega

/-- The pages of a new region are zeros where they are mapped. -/
theorem effect_populate {ok : Bool} (fuel : ℕ) (vm : Vm) (a : Addr) (loose : Addr → ℕ)
    (h : Spaces vm (p.pgd :: pgds rest) loose other) (hstop : stop.toNat ≤ 2 ^ 38)
    (halign : a.toNat % 4096 = 0 ∧ stop.toNat % 4096 = 0)
    (hloop : populateLoop p.pgd stop (pteProt prot) fuel vm a = some (vm', ok)) :
    Effect vm vm' rest ∧ ∀ x, contents vm'.mem p.pgd x = contents vm.mem p.pgd x ∨
      (a.toNat ≤ leafBase x ∧ leafBase x < stop.toNat) ∧
      contents vm'.mem p.pgd x = some fun _ => 0 := by
  have hp : p ∈ p :: rest := List.mem_cons_self ..
  induction fuel generalizing vm a loose with
  | zero => cases hloop
  | succ fuel ih =>
    rw [populateLoop] at hloop
    by_cases hlt : a < stop
    · rw [if_pos hlt] at hloop
      rw [BitVec.lt_def] at hlt
      dsimp only at hloop
      by_cases h0 : vm.allocPage.1 = 0
      · rw [if_pos h0] at hloop
        cases hloop
        exact ⟨(AllocOnly.allocPage h.owns.inv).effect rest, fun x => .inl rfl⟩
      · rw [if_neg h0, mapPagesAt_page _ _ _ _ (by omega)] at hloop
        obtain ⟨hal, hs₁, heffect₁⟩ := effect_allocFilled (p :: rest) h h0 fun _ => 0
        have heffect₁' : Effect vm _ rest :=
          ⟨fun q hq => heffect₁.others q (List.mem_cons_of_mem _ hq), heffect₁.withheld⟩
        have huser : UserVa a := userVa_of_lt (by omega)
        obtain ⟨heffect₂, hcontents⟩ := effect_mapPage (p := p) rest hs₁ huser hal
          (Inv.flagBits_pteProt prot) (Inv.hasFlag_pteProt prot)
        rw [(heffect₁.others p hp).contents, setPage_mem, Function.update_self] at hcontents
        have hs₂ : ∃ loose', Spaces
            (mapPage (vm.allocPage.2.setPage vm.allocPage.1 fun _ => 0) p.pgd a
            (vm.allocPage.1 - pageOffset) (pteProt prot)) (p.pgd :: pgds rest) loose' other := by
          rcases mapPage_spec hs₁ huser hal (Inv.flagBits_pteProt prot)
            (Inv.hasFlag_pteProt prot) with
            ⟨-, hs, -⟩ | ⟨hs, -⟩
          · exact ⟨_, hs⟩
          · exact ⟨_, hs⟩
        obtain ⟨loose', hs₂⟩ := hs₂
        have hnext : (a + 4096).toNat = a.toNat + 4096 := by
          rw [BitVec.toNat_add, show (4096 : Addr).toNat = 4096 from rfl]
          omega
        obtain ⟨heffect₃, hrest⟩ := ih _ (a + 4096) loose' hs₂ (by omega) hloop
        refine ⟨(heffect₁'.trans heffect₂).trans heffect₃, fun x => ?_⟩
        rcases hrest x with hsame | ⟨hin, hzero⟩
        · rw [hsame]
          rcases hcontents with ⟨-, hcontents⟩ | hcontents
          · exact .inl (congrFun hcontents x)
          · rcases eq_or_ne x (leafIndex a) with rfl | hne
            · have hbase := @leafBase_leafIndex a (by omega)
              refine .inr ⟨by omega, ?_⟩
              rw [hcontents, Function.update_self]
            · rw [hcontents, Function.update_of_ne hne]
              exact .inl rfl
        · exact .inr ⟨by omega, hzero⟩
    · rw [if_neg hlt] at hloop
      cases hloop
      exact ⟨(AllocOnly.refl h.owns.inv).effect rest, fun x => .inl rfl⟩

namespace Inv

/-- `sys_mmap` fails, or it adds a region whose pages are zeros where they are mapped. -/
theorem effect_sysMmap {addr length : BitVec 64} {prot flags : BitVec 32} {r : MmapResult}
    (h : Inv g { s with procs := p :: rest } lost opened)
    (hbelow : ∀ start, roundLength length ≠ 0 →
      mmapStart p.vmas addr (roundLength length) = some start →
      start.toNat + (roundLength length).toNat ≤ 2 ^ 38)
    (hr : Mmu.sysMmap s.vm p.pgd p.vmas addr length prot flags = some r) :
    Effect s.vm r.vm rest ∧ (r.vmas = p.vmas ∧ contents r.vm.mem p.pgd = contents s.vm.mem p.pgd ∨
      ∃ new : VmArea, r.vmas = insertVma new p.vmas ∧ new.fileData = 0 ∧
        new.stop.toNat = new.start.toNat + (roundLength length).toNat ∧ ApartFrom new p.vmas ∧
        ∀ x, contents r.vm.mem p.pgd x = contents s.vm.mem p.pgd x ∨
          Covers new x ∧ contents r.vm.mem p.pgd x = some fun _ => 0) := by
  have hp : p ∈ p :: rest := List.mem_cons_self ..
  have hspaces : Spaces s.vm (pgds (p :: rest)) (g.tables + lost) _ := h.owned.spaces
  rw [Mmu.sysMmap] at hr
  dsimp only at hr
  by_cases h0 : roundLength length = 0
  · rw [if_pos h0] at hr
    cases hr
    exact ⟨(AllocOnly.refl hspaces.owns.inv).effect rest, .inl ⟨rfl, rfl⟩⟩
  · rw [if_neg h0] at hr
    obtain ⟨start, hstart, hr⟩ := Option.bind_eq_some_iff.1 hr
    obtain ⟨⟨vm₁, vmas₁⟩, hadd, hr⟩ := Option.bind_eq_some_iff.1 hr
    have hle := hbelow start h0 hstart
    obtain ⟨hfree, halign⟩ := mmapStart_free (h.regions p hp).ok hstart (by omega)
    obtain ⟨h₁, hmem, node, rfl⟩ := h.addVma hadd hfree hle halign (roundLength_mod length)
      (.inr (Nat.pos_of_ne_zero fun hzero => h0 (BitVec.eq_of_toNat_eq hzero)))
    have hquiet : AllocOnly s.vm vm₁ := .addVma hspaces.owns.inv hadd
    have hsum : (start + roundLength length).toNat = start.toNat + (roundLength length).toNat :=
      BitVec.toNat_add_of_lt (by omega)
    have hapart : ApartFrom ⟨node, start, start + roundLength length, prot.signExtend 64,
        flags.signExtend 64, 0, 0⟩ p.vmas := apartFrom_of_free hfree hsum
    simp only at hr
    split_ifs at hr with hpop
    · obtain ⟨⟨vm₂, ok⟩, hloop, hr⟩ := Option.bind_eq_some_iff.1 hr
      cases hr
      have hs₁ : Spaces vm₁ (p.pgd :: pgds rest) (g.tables + lost) _ := h₁.owned.spaces
      have hlen := roundLength_mod length
      obtain ⟨heffect, hcontents⟩ := effect_populate _ vm₁ start _ hs₁ (by omega) (by omega) hloop
      rw [hmem] at hcontents
      exact ⟨(hquiet.effect rest).trans heffect, .inr ⟨_, rfl, rfl, hsum, hapart, hcontents⟩⟩
    · cases hr
      refine ⟨hquiet.effect rest, .inr ⟨_, rfl, rfl, hsum, hapart, fun x => ?_⟩⟩
      dsimp only
      rw [hmem]
      exact .inl rfl

end Inv

/-! ## Signals -/

/-- Where a signal is delivered: the place of the new region, and its structure. -/
theorem deliver_eq (hd : deliver s.vm s.stub p i = some (vm', p')) :
    s.vm.allocPage.1 ≠ 0 ∧ ∃ va vm₂ vmas, findFreeVmaRegion p.vmas 4096 = some va ∧
      addVma (s.vm.allocPage.2.setPage s.vm.allocPage.1 fun _ => 0) p.vmas va 4096 signalStackFlags
        mapAnonymous = some (vm₂, vmas) ∧ p'.vmas = vmas ∧ p'.pgd = p.pgd ∧ p'.addr = p.addr ∧
      p'.task = signalThread p.task i p.regs ∧ p'.signalStackVaddr = va ∧
      ∃ vm₃, mapPagesAt vm₂ p.pgd va (s.vm.allocPage.1 - pageOffset) 4096 signalStackProt =
        some vm₃ ∧
        vm' = vm₃.setPage s.vm.allocPage.1 s.stub.page := by
  rw [deliver] at hd
  dsimp only at hd
  by_cases h0 : s.vm.allocPage.1 = 0
  · rw [if_pos h0] at hd
    cases hd
  rw [if_neg h0] at hd
  obtain ⟨va, hva, hd⟩ := Option.bind_eq_some_iff.1 hd
  obtain ⟨⟨vm₂, vmas⟩, hadd, hd⟩ := Option.bind_eq_some_iff.1 hd
  obtain ⟨vm₃, hmap, hd⟩ := Option.bind_eq_some_iff.1 hd
  obtain ⟨rfl, rfl⟩ := Prod.mk.inj (Option.some.inj hd)
  exact ⟨h0, va, vm₂, vmas, hva, hadd, rfl, rfl, rfl, rfl, rfl, vm₃, hmap, rfl⟩

namespace Inv

/-- A signal adds a region of one page, which holds the trampoline. -/
theorem effect_deliver (h : Inv g { s with procs := p :: rest } lost opened)
    (hroom : SignalRoom s.vm p) (hd : Process.deliver s.vm s.stub p i = some (vm', p')) :
    Effect s.vm vm' rest ∧ p'.pgd = p.pgd ∧ p'.addr = p.addr ∧
    p'.task = signalThread p.task i p.regs ∧
      ∃ new : VmArea, p'.vmas = insertVma new p.vmas ∧ new.fileData = 0 ∧
      p'.signalStackVaddr = new.start ∧ new.start.toNat % 4096 = 0 ∧
      new.stop.toNat = new.start.toNat + 4096 ∧ new.stop.toNat ≤ 2 ^ 38 ∧ ApartFrom new p.vmas ∧
      contents vm'.mem p.pgd = Function.update (contents s.vm.mem p.pgd) (leafIndex new.start)
        (some s.stub.page) := by
  have hp : p ∈ p :: rest := List.mem_cons_self ..
  have hspaces : Spaces s.vm (pgds (p :: rest)) (g.tables + lost) _ := h.owned.spaces
  obtain ⟨h0, va, vm₂, vmas, hva, hadd, hvmas, hpgd, haddr, htask, hvaddr, vm₃, hmap, rfl⟩ :=
    deliver_eq hd
  obtain ⟨hlt, hwalk⟩ := hroom va hva (vm₂, vmas) hadd
  obtain ⟨hal, hfresh, h₁, -⟩ := h.allocFilled (fun _ => 0) h0
  obtain ⟨-, -, heffect₁⟩ := effect_allocFilled (p :: rest) hspaces h0 fun _ => 0
  have heffect₁' : Effect s.vm _ rest :=
    ⟨fun q hq => heffect₁.others q (List.mem_cons_of_mem _ hq), heffect₁.withheld⟩
  generalize s.vm.allocPage.2.setPage s.vm.allocPage.1 (fun _ => 0) = vm₁ at *
  generalize s.vm.allocPage.1 = q at *
  obtain ⟨hends, hor, -⟩ := findFreeLoop_end _ _ hva
  have hlen : (4096 : BitVec 64).toNat = 4096 := rfl
  have hfree : Free p.vmas 4096 va.toNat := by
    apply (isVmaOverlap_eq_false_iff (by omega)).1
    simp only [isVmaOverlap, List.any_eq_false, decide_eq_true_eq, not_not]
    exact hends
  have halign : va.toNat % 4096 = 0 := by
    rcases hor with rfl | ⟨v, hv, rfl⟩
    · decide
    · exact ((h.regions p hp).ok.aligned v hv).2.1
  have hstop : (va + 4096).toNat = va.toNat + 4096 := BitVec.toNat_add_of_lt (by omega)
  have hbase := @leafBase_leafIndex va (by omega)
  have hquiet : AllocOnly vm₁ vm₂ := .addVma heffect₁.withheld.inv hadd
  obtain ⟨h₂, hmem, node, rfl⟩ := addVma (s := { s with vm := vm₁ }) h₁ hadd hfree (by omega) halign
    (by decide) (.inr (by decide))
  set new : VmArea := ⟨node, va, va + 4096, signalStackFlags, mapAnonymous, 0, 0⟩ with hnew
  have hin : new ∈ insertVma new p.vmas := (insertVma_perm _ _).mem_iff.2 (List.mem_cons_self ..)
  have hcov : Covers new (leafIndex va) := by
    rw [Covers, hbase]
    change va.toNat ≤ _ ∧ _ < (va + 4096).toNat
    omega
  rw [mapPagesAt_page _ _ _ _ (by omega), signalStackProt_eq, Option.some_inj] at hmap
  subst hmap
  have huser : UserVa va := userVa_of_lt (by omega)
  have hs₂ : Spaces vm₂ (p.pgd :: pgds rest) (g.tables + lost + Pi.single q 1)
      (withBlocks g.base
        (allBlocks ({ p with vmas := insertVma new p.vmas } :: rest) opened s.held)) := by
    rw [add_assoc]
    exact h₂.owned.spaces
  obtain ⟨heffect₂, hcontents⟩ := effect_mapPage (p := p) rest hs₂ huser hal
    (flagBits_pteProt signalStackFlags) (hasFlag_pteProt signalStackFlags)
  have hcontents₂ : contents vm₂.mem p.pgd = contents s.vm.mem p.pgd := by
    rw [hmem]
    exact (heffect₁.others p hp).contents
  have hempty : leafAt 256 vm₂.mem p.pgd (leafIndex va) = none := by
    rw [hmem]
    exact (congrFun (heffect₁.others p hp).space.leaf _).trans
      (leafAt_of_free (h.regions p hp) hfree hlt halign)
  -- the page is mapped there, and nowhere else
  rcases mapPage (s := { s with vm := vm₂ }) (v := new) h₂ hfresh hal huser hempty hin hcov with
    ⟨hwalk', -, -⟩ | ⟨h₃, hleaf₃⟩
  · rw [hwalk'] at hwalk
    cases hwalk
  dsimp only at h₃ hleaf₃
  rcases hcontents with ⟨hwalk', -⟩ | hcontents
  · rw [hwalk'] at hwalk
    cases hwalk
  have hprot : new.prot = signalStackFlags := rfl
  rw [hprot] at h₃ hleaf₃
  generalize Mmu.mapPage vm₂ p.pgd va (q - pageOffset) (pteProt signalStackFlags) = vm₃ at *
  have hleaf : leafAt 256 vm₃.mem p.pgd (leafIndex va) =
      some (entryOf q (pteProt signalStackFlags)) := by
    rw [hleaf₃, Function.update_self]
  have hframe : frameAt (entryOf q (pteProt signalStackFlags)) = q :=
    frameAt_entryOf hal (flagBits_pteProt _)
  have hone := h₃.writable { p with vmas := insertVma new p.vmas } (List.mem_cons_self ..) _ _ hleaf
    (hasFlag_entryOf_w.2 (by decide))
  rw [hframe] at hone
  have hs₃ : Spaces vm₃ (p.pgd :: pgds rest) (g.tables + lost) _ := h₃.owned.spaces
  have hmapped : mapped vm₃.mem p.pgd (leafIndex va) = some q := by
    rw [mapped, hleaf, Option.map_some, hframe]
  obtain ⟨heffect₃, hlast⟩ := effect_writeFrame hs₃ hmapped hone s.stub.page
  refine ⟨((heffect₁'.trans (hquiet.effect rest)).trans heffect₂).trans heffect₃, hpgd, haddr,
    htask, new,
    hvmas, rfl, hvaddr, halign, hstop, hstop.le.trans hlt, apartFrom_of_free hfree hstop, ?_⟩
  rw [hlast, hcontents, hcontents₂, Function.update_idem]

/-- `sys_sigreturn` takes the page of the signal stack away, with its region. -/
theorem effect_sigreturn (h : Inv g { s with procs := p :: rest } lost opened) :
    Effect s.vm (sysSigreturn s.vm p).1 rest ∧ (sysSigreturn s.vm p).2.pgd = p.pgd ∧
      (sysSigreturn s.vm p).2.addr = p.addr ∧
        (sysSigreturn s.vm p).2.task.isHandlingSignal = false ∧
      (p.task.isHandlingSignal = false ∧ (sysSigreturn s.vm p).2.vmas = p.vmas ∧
          contents (sysSigreturn s.vm p).1.mem p.pgd = contents s.vm.mem p.pgd ∨
        p.task.isHandlingSignal = true ∧ ∃ v, p.vmas.Perm (v :: (sysSigreturn s.vm p).2.vmas) ∧
          v.start = p.signalStackVaddr ∧ v.start.toNat % 4096 = 0 ∧ v.start.toNat < 2 ^ 38 ∧
            v.stop.toNat = v.start.toNat + 4096 ∧
          contents (sysSigreturn s.vm p).1.mem p.pgd =
            Function.update (contents s.vm.mem p.pgd) (leafIndex v.start) none) := by
  have hp : p ∈ p :: rest := List.mem_cons_self ..
  have hspaces : Spaces s.vm (p.pgd :: pgds rest) (g.tables + lost) _ := h.owned.spaces
  by_cases hpage : p.signalStackPage = 0
  · rw [sysSigreturn]
    dsimp only
    rw [if_pos hpage]
    have hsig : p.task.isHandlingSignal = false := by
      by_contra hno
      exact (h.signalFrame hp (Bool.eq_true_of_not_eq_false hno)).2.1 hpage
    exact ⟨(AllocOnly.refl hspaces.owns.inv).effect rest, rfl, rfl, rfl, .inl ⟨hsig, rfl, rfl⟩⟩
  · have hsig : p.task.isHandlingSignal = true := by
      by_contra hno
      exact hpage ((signalOk_of_not (Bool.not_eq_true _ ▸ hno)).1 (h.signals p hp))
    obtain ⟨hstack, -, hmapped, -⟩ := h.signalFrame hp hsig
    obtain ⟨v, pt, hv, hfind, hstart, hstop, hpt, hres⟩ :=
      sysSigreturn_eq (h.regions p hp) hstack hpage
    have huser := hstack.user.2
    rw [hres]
    dsimp only
    obtain ⟨heffect, hcontents⟩ := effect_storeLeaf (k := vpn p.signalStackVaddr 12) (w := 0)
      rest hspaces hpt fun f hf => by
        rw [validEntry_zero] at hf
        cases hf
    have hquiet₁ : AllocOnly _
        ((s.vm.store pt (vpn p.signalStackVaddr 12) 0).freePage p.signalStackPage) :=
      .freePage heffect.withheld.inv _
    have hquiet := hquiet₁.trans (.freePage hquiet₁.withheld.inv v.node)
    refine ⟨heffect.trans (hquiet.effect rest), rfl, rfl, rfl,
      .inr ⟨hsig, v, perm_of_find hfind, hstart, ?_, ?_, ?_, ?_⟩⟩
    · exact ((h.regions p hp).ok.aligned v hv).1
    · rw [hstart]
      omega
    · rw [hstart, hstop]
    · rw [hquiet.mem, hcontents, hstart, validEntry_zero]
      rfl

end Inv

/-! ## `sys_fork` -/

variable {base : Addr → Option (ℕ × ℤ)} {held : List (Addr × ℕ)} {ret : ℤ} {dat k : Addr}
  {size : BitVec 32}

theorem copyVmaList_mem (vmas : List VmArea) (vm : Vm) : (copyVmaList vm vmas).1.mem = vm.mem := by
  induction vmas generalizing vm with
  | nil => rfl
  | cons v vmas ih =>
    rw [copyVmaList]
    dsimp only
    split_ifs
    · rfl
    · exact ih _

/-- The address spaces beside a new block. -/
theorem exists_spaces_allocBytes (h : Spaces vm ps loose other) (size : ℕ) :
    ∃ other', Spaces (allocBytes vm size).2 ps loose other' := by
  rcases h.owns.allocOther size with ⟨-, ho⟩ | ⟨-, -, -, ho⟩
  · exact ⟨_, ho, h.table⟩
  · exact ⟨_, ho, h.table⟩

theorem sysFork_withheld {ret : Option ℤ} (h : Spaces s.vm (p.pgd :: pgds rest) loose other)
    (hpgd : p.pgd ≠ 0 ∧ p.pgd ≠ s.kernelPgd) (hf : sysFork s p rest = some (s', ret)) :
    WithheldKept s.vm s'.vm := by
  have hfork : ∀ vm, forkPgd vm s.kernelPgd p.pgd = copyPgd vm p.pgd := fun _ => if_pos hpgd
  have k₁ := (AllocOnly.allocBytes h.owns.inv sizeofThread).withheld
  obtain ⟨other₁, hs₁⟩ := exists_spaces_allocBytes h sizeofThread
  have k₂ := k₁.trans (AllocOnly.allocBytes k₁.inv kernelStackSize).withheld
  obtain ⟨other₂, hs₂⟩ := exists_spaces_allocBytes hs₁ kernelStackSize
  have k₃ := k₂.trans (copyPgd_withheld hs₂)
  rw [sysFork] at hf
  dsimp only at hf
  rw [hfork] at hf
  generalize (allocBytes s.vm sizeofThread).1 = child at *
  generalize (allocBytes s.vm sizeofThread).2 = vm₁ at *
  generalize (allocBytes vm₁ kernelStackSize).1 = stack at *
  generalize (allocBytes vm₁ kernelStackSize).2 = vm₂ at *
  generalize copyPgd vm₂ p.pgd = r at *
  split_ifs at hf
  · obtain ⟨rfl, -⟩ := Prod.mk.inj (Option.some.inj hf)
    exact k₁
  · obtain ⟨rfl, -⟩ := Prod.mk.inj (Option.some.inj hf)
    exact k₂.trans (.freePage k₂.inv child)
  · obtain ⟨rfl, -⟩ := Prod.mk.inj (Option.some.inj hf)
    have k₄ := k₃.trans (.freePage k₃.inv stack)
    exact k₄.trans (.freePage k₄.inv child)
  · obtain ⟨files, -, hf⟩ := Option.bind_eq_some_iff.1 hf
    obtain ⟨rfl, -⟩ := Prod.mk.inj (Option.some.inj hf)
    exact k₃.trans (AllocOnly.copyVmaList p.vmas k₃.inv).withheld

namespace Inv

/-- `sys_fork` fails, or the child has the regions of its parent and the same contents in them. -/
theorem effect_fork {ret : Option ℤ} (h : Inv g { s with procs := p :: rest } lost opened)
    (hnodes : ForkNodes s p) (hf : sysFork s p rest = some (s', ret)) :
    Effect s.vm s'.vm rest ∧ contents s'.vm.mem p.pgd = contents s.vm.mem p.pgd ∧
      (s'.procs = p :: rest ∨ ∃ c, s'.procs = c :: p :: rest ∧ c.vmas.map data = p.vmas.map data ∧
        c.task.isHandlingSignal = false ∧ contents s'.vm.mem c.pgd = contents s.vm.mem p.pgd) := by
  have hp : p ∈ p :: rest := List.mem_cons_self ..
  have hspaces : Spaces s.vm (p.pgd :: pgds rest) (g.tables + lost) _ := h.owned.spaces
  have hpgd : p.pgd ≠ 0 ∧ p.pgd ≠ s.kernelPgd := h.pgd_ne hp
  have hkept := sysFork_withheld hspaces hpgd hf
  by_cases hpid : s.nrThreads < 2 ^ 31 - 1
  case neg =>
    unfold sysFork allocBytes at hf
    dsimp only at hf
    split_ifs at hf
    obtain ⟨rfl, -⟩ := Prod.mk.inj (Option.some.inj hf)
    exact ⟨⟨fun q _ => .refl _ _, hkept⟩, rfl, .inl rfl⟩
  rcases sysFork_cases h.owned_cons hpgd h.files hpid with
    ⟨vm', n, heq, -, hweak, hothers, hframes, -, -⟩ |
    ⟨child, stack, pgd, vm', files, heq, -, hforked, -, hiff⟩
  · rw [hf, Option.some_inj, Prod.mk.injEq] at heq
    obtain ⟨rfl, -⟩ := heq
    refine ⟨⟨fun q hq => ?_, hkept⟩, ?_, .inl rfl⟩
    · exact unseen_of_frames hspaces (List.mem_cons_of_mem _ (mem_pgds hq))
        (hothers q.pgd (mem_pgds hq)) hframes
    · funext x
      rw [contents, contents, hweak.mapped]
      exact Option.map_congr fun f hf => hframes f
        (isFrame_mapped hspaces (List.mem_cons_self ..) hf)
  · rw [hf, Option.some_inj, Prod.mk.injEq] at heq
    obtain ⟨rfl, -⟩ := heq
    have hmem : (copyVmaList vm' p.vmas).1.mem = vm'.mem := copyVmaList_mem p.vmas vm'
    have hframes : ∀ t, IsFrame s.vm (p.pgd :: pgds rest) (g.tables + lost) t →
        (copyVmaList vm' p.vmas).1.mem t = s.vm.mem t := by
      intro t ht
      rw [hmem]
      exact (hforked.frames t ht).2
    -- both have the frames of the parent
    have hcopy : ∀ pgd',
        (∀ x, leafAt 256 vm'.mem pgd' x = (leafAt 256 s.vm.mem p.pgd x).map readOnly) →
        contents (copyVmaList vm' p.vmas).1.mem pgd' = contents s.vm.mem p.pgd := by
      intro pgd' hleaf
      have hmapped : mapped (copyVmaList vm' p.vmas).1.mem pgd' = mapped s.vm.mem p.pgd := by
        funext x
        rw [hmem, mapped, mapped, hleaf, Option.map_map,
          show frameAt ∘ readOnly = frameAt from funext frameAt_readOnly]
      funext x
      rw [contents, contents, hmapped]
      exact Option.map_congr fun f hf => hframes f
        (isFrame_mapped hspaces (List.mem_cons_self ..) hf)
    refine ⟨⟨fun q hq => ?_, hkept⟩, hcopy p.pgd hforked.leaf,
      .inr ⟨_, rfl, ?_, rfl, hcopy pgd hforked.copy⟩⟩
    · refine unseen_of_frames hspaces (List.mem_cons_of_mem _ (mem_pgds hq)) ?_ hframes
      dsimp only
      rw [hmem]
      exact hforked.others q.pgd (mem_pgds hq)
    · exact (copyVmaList_data p.vmas vm').2 (hiff.1 hnodes)

end Inv

/-! ## Programs -/

theorem newPgd_withheld (h : Spaces vm ps loose other) (hn : newPgd vm k = some (pgd, vm')) :
    WithheldKept vm vm' := by
  rw [newPgd] at hn
  dsimp only at hn
  split_ifs at hn with h0
  obtain ⟨-, rfl⟩ := Prod.mk.inj (Option.some.inj hn)
  have h₁ : WithheldKept vm vm.allocPage.2 := .allocPage h.owns.inv
  exact h₁.trans (.setPage h₁.inv (h.not_withheld_allocPage h0) _)

/-- A new address space is not seen by the others. -/
theorem effect_newPgd (rest : List Proc) (h : Owned vm (pgds rest) loose base held)
    (hn : newPgd vm k = some (pgd, vm')) :
    Effect vm vm' rest ∧ contents vm'.mem pgd = fun _ => none := by
  obtain ⟨-, hnew⟩ := newPgd_spec h hn
  refine ⟨⟨fun q hq => ?_, newPgd_withheld h.spaces hn⟩, ?_⟩
  · exact unseen_of_frames h.spaces (mem_pgds hq) (hnew.others q.pgd (mem_pgds hq)) hnew.frames
  · funext x
    rw [contents, mapped, hnew.leaf]
    rfl

namespace Inv

/-- `sys_exec`: nothing is mapped, and there are the regions of the program. -/
theorem effect_exec (h : Inv g { s with procs := p :: rest } lost opened)
    (he : sysExec s.vm s.kernelPgd p dat size = some (vm', p')) :
    Effect s.vm vm' rest ∧ p'.addr = p.addr ∧ p'.task = p.task ∧
      contents vm'.mem p'.pgd = (fun _ => none) ∧
      ∃ code stack, p'.vmas = [⟨code, 0, codeLength size, protRead ||| protWrite ||| protExec,
        mapAnonymous, dat, size.signExtend 64⟩, ⟨stack, stackTop - userStackSize, stackTop,
        protRead ||| protWrite, mapAnonymous, 0, 0⟩] := by
  unfold sysExec at he
  dsimp only at he
  obtain ⟨⟨pgd, vm₂⟩, hnew, he⟩ := Option.bind_eq_some_iff.1 he
  obtain ⟨⟨vm₃, vmas⟩, hvmas, he⟩ := Option.bind_eq_some_iff.1 he
  dsimp only at hnew hvmas he
  rw [if_pos (h.pgd_ne (List.mem_cons_self ..))] at he
  obtain ⟨rfl, rfl⟩ := Prod.mk.inj (Option.some.inj he)
  have howned := freeVmas_owned h.owned_cons
  have k₁ : AllocOnly s.vm (freeVmas s.vm p.vmas) := .freeVmas h.owned.spaces.owns.inv _
  obtain ⟨howned₂, -⟩ := newPgd_spec howned hnew
  obtain ⟨heffect, hcontents⟩ := effect_newPgd (p :: rest) howned hnew
  have heffect' : Effect (freeVmas s.vm p.vmas) vm₂ rest :=
    ⟨fun q hq => heffect.others q (List.mem_cons_of_mem _ hq), heffect.withheld⟩
  have k₃ : AllocOnly vm₂ vm₃ := .programVmas howned₂.spaces.owns.inv hvmas
  have k₄ := k₃.trans (.freePgd k₃.withheld.inv p.pgd)
  obtain ⟨-, -, code, stack, hlist⟩ := programVmas_spec howned₂ hvmas
  refine ⟨((k₁.effect rest).trans heffect').trans (k₄.effect rest), rfl, rfl, ?_, code, stack,
    hlist⟩
  rw [k₄.mem]
  exact hcontents

/-- A program is started: nothing is mapped, and there are its regions. -/
theorem effect_launch {pid : ℤ} (h : Inv g s lost opened)
    (hl : Process.launch s.vm s.kernelPgd pid dat size = some (vm', p)) :
    Effect s.vm vm' s.procs ∧ p.task.isHandlingSignal = false ∧
      contents vm'.mem p.pgd = (fun _ => none) ∧
      ∃ code stack, p.vmas = [⟨code, 0, codeLength size, protRead ||| protWrite ||| protExec,
        mapAnonymous, dat, size.signExtend 64⟩, ⟨stack, stackTop - userStackSize, stackTop,
        protRead ||| protWrite, mapAnonymous, 0, 0⟩] := by
  unfold Process.launch at hl
  dsimp only at hl
  have k₁ : AllocOnly s.vm (allocBytes s.vm sizeofThread).2 := .allocBytes h.owned.spaces.owns.inv _
  have k₂ := k₁.trans (.allocBytes k₁.withheld.inv kernelStackSize)
  rcases h.owned.allocBlock sizeofThread with ⟨h0, -⟩ | ⟨h0, h₁⟩
  · have h0' : (allocBytes s.vm sizeofThread).1 = 0 := h0
    rw [if_pos h0'] at hl
    cases hl
  have h0' : (allocBytes s.vm sizeofThread).1 ≠ 0 := h0
  rw [if_neg h0'] at hl
  rcases h₁.allocBlock kernelStackSize with ⟨h0, -⟩ | ⟨h0, h₂⟩
  · have h0' : (allocBytes (allocBytes s.vm sizeofThread).2 kernelStackSize).1 = 0 := h0
    rw [if_pos h0'] at hl
    cases hl
  have h0' : (allocBytes (allocBytes s.vm sizeofThread).2 kernelStackSize).1 ≠ 0 := h0
  rw [if_neg h0'] at hl
  have h₂ : Owned (allocBytes (allocBytes s.vm sizeofThread).2 kernelStackSize).2 (pgds s.procs)
      _ _ _ := h₂
  generalize (allocBytes (allocBytes s.vm sizeofThread).2 kernelStackSize).2 = vm₂ at *
  obtain ⟨-, -, hl⟩ := Option.bind_eq_some_iff.1 hl
  obtain ⟨-, -, hl⟩ := Option.bind_eq_some_iff.1 hl
  obtain ⟨⟨pgd, vm₃⟩, hnew, hl⟩ := Option.bind_eq_some_iff.1 hl
  obtain ⟨⟨vm₄, vmas⟩, hvmas, hl⟩ := Option.bind_eq_some_iff.1 hl
  obtain ⟨rfl, rfl⟩ := Prod.mk.inj (Option.some.inj hl)
  obtain ⟨h₃, -⟩ := newPgd_spec h₂ hnew
  obtain ⟨heffect, hcontents⟩ := effect_newPgd s.procs h₂ hnew
  have k₄ : AllocOnly vm₃ vm₄ := .programVmas h₃.spaces.owns.inv hvmas
  obtain ⟨-, -, code, stack, hlist⟩ := programVmas_spec h₃ hvmas
  refine ⟨((k₂.effect s.procs).trans heffect).trans (k₄.effect s.procs), rfl, ?_, code, stack,
    hlist⟩
  rw [k₄.mem]
  exact hcontents

end Inv

end BareMetalOS.Process
