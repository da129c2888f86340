import BareMetalOS.Process.Pages

/-!
# Page faults and regions

A page fault of an access that the page table does not permit keeps the invariant: the page is not
mapped, or it is a read-only page of a writable region, since the flags of a mapping are those of
its region up to the W bit. New regions and their pages do so too.
-/

namespace BareMetalOS.Process

open Memory (Addr blockBytes)
open Mmu Sched Trap Files

variable {g : Ground} {s s' : Sys} {vm' : Vm} {p p' : Proc} {rest : List Proc}
  {lost lost' : Addr → ℕ} {opened : List Addr} {x : Leaf} {w : BitVec 64} {a q t va pgd : Addr}
  {v : VmArea} {vmas : List VmArea} {leaf : Leaf → Option (BitVec 64)} {cause badaddr : BitVec 64}

/-! ## Addresses of pages -/

theorem leafBase_leafIndex (h : va.toNat < 2 ^ 38) :
    leafBase (leafIndex va) = va.toNat / 4096 * 4096 := by
  simp only [leafBase, leafIndex, val_vpn]
  omega

theorem toNat_page (va : Addr) : (va &&& ~~~4095).toNat = va.toNat / 4096 * 4096 := by
  rw [show (~~~4095 : Addr) = ~~~BitVec.ofNat 64 (2 ^ 12 - 1) from rfl,
    toNat_and_not_mask va (by norm_num)]
  omega

theorem leafIndex_page (va : Addr) : leafIndex (va &&& ~~~4095) = leafIndex va := by
  have hval := toNat_page va
  simp only [leafIndex, Prod.mk.injEq, Fin.ext_iff, val_vpn, hval]
  omega

/-- An address of a region is in one of its pages. -/
theorem covers_leafIndex (h : Regions leaf vmas) (hv : v ∈ vmas) (hstart : v.start ≤ va)
    (hstop : va < v.stop) : va.toNat < 2 ^ 38 ∧ Covers v (leafIndex va) := by
  have hbelow := h.below v hv
  obtain ⟨halign, -, -⟩ := h.ok.aligned v hv
  rw [BitVec.le_def] at hstart
  rw [BitVec.lt_def] at hstop
  have hlt : va.toNat < 2 ^ 38 := by omega
  refine ⟨hlt, ?_⟩
  rw [Covers, leafBase_leafIndex hlt]
  omega

/-! ## Permissions -/

/-- The flag that an access needs: an instruction fetch, a load or a store. -/
def accessFlag (cause : BitVec 64) : BitVec 64 :=
  if cause = 12 then pteX else if cause = 13 then pteR else pteW

/-- The page table lets the process make the access. -/
def Permitted (m : Mem) (pgd cause badaddr : BitVec 64) : Prop :=
  ∃ w ∈ leafAt 256 m pgd (leafIndex badaddr), HasFlag w pteU ∧ HasFlag w (accessFlag cause)

instance (m : Mem) (pgd cause badaddr : BitVec 64) : Decidable (Permitted m pgd cause badaddr) :=
  Option.decidableExistsMem _

/-- The causes of page faults. -/
def IsPageFault (cause : BitVec 64) : Prop := cause = 12 ∨ cause = 13 ∨ cause = 15

/-- A mapping of a region permits what the region permits, except for stores. -/
theorem flagsOf_access (hf : FlagsOf v w) (hc : IsPageFault cause)
    (hok : permissionOk v cause = true)
    (hw : cause = 15 → HasFlag w pteW) : HasFlag w pteU ∧ HasFlag w (accessFlag cause) := by
  have hprot : ∀ P, P = pteProt v.prot ∨ P = readOnly (pteProt v.prot) → HasFlag P pteU ∧
      (HasFlag v.prot protExec → HasFlag P pteX) ∧ (HasFlag v.prot protRead → HasFlag P pteR) := by
    unfold pteProt
    rintro P (rfl | rfl)
    · split_ifs <;> simp [*] <;> decide
    · split_ifs <;> simp [*] <;> decide
  obtain ⟨hU, hX, hR⟩ := hprot _ hf
  rw [hasFlag_and (by decide)] at hU hX hR
  refine ⟨hU, ?_⟩
  unfold permissionOk at hok
  rcases hc with rfl | rfl | rfl
  · exact hX (by simpa using hok)
  · exact hR (by simpa using hok)
  · exact hw rfl

/-! ## What a page fault does -/

theorem findVma_eq (h : findVma vmas badaddr = some v) :
    v ∈ vmas ∧ v.start ≤ badaddr ∧ badaddr < v.stop := by
  refine ⟨List.mem_of_find?_eq_some h, ?_⟩
  have hin := List.find?_some h
  simpa only [decide_eq_true_eq] using hin

theorem isCow_eq {vm : Vm} (h : isCow vm pgd v cause badaddr = true) :
    cause = 15 ∧ HasFlag v.prot protWrite ∧ ∃ e, entryAt vm pgd badaddr = some e ∧
      HasFlag (vm.mem e.1 e.2) pteV ∧ ¬ HasFlag (vm.mem e.1 e.2) pteW := by
  simpa only [isCow, decide_eq_true_eq, Option.any_eq_true] using h

/-- A page fault does nothing, it copies a page on write, or it maps a new page. -/
theorem pageFault_cases {vm : Vm} {handled : Bool}
    (hf : Process.pageFault vm p cause badaddr = some (vm', handled)) :
    (handled = false ∧ (vm' = vm ∨ vm.allocPage.1 = 0 ∧ vm' = vm.allocPage.2)) ∨
    (∃ v e, findVma p.vmas badaddr = some v ∧ isCow vm p.pgd v cause badaddr = true ∧
      entryAt vm p.pgd badaddr = some e ∧ vm' = Process.cow vm e ∧ handled = true) ∨
    ∃ v, findVma p.vmas badaddr = some v ∧ isCow vm p.pgd v cause badaddr = false ∧
      permissionOk v cause = true ∧ vm.allocPage.1 ≠ 0 ∧ handled = true ∧
      mapPagesAt (vm.allocPage.2.setPage vm.allocPage.1
        (filePage vm.allocPage.2.mem v ((badaddr &&& ~~~4095) - v.start))) p.pgd
        (badaddr &&& ~~~4095) (vm.allocPage.1 - pageOffset) 4096 (pteProt v.prot) = some vm' := by
  unfold Process.pageFault at hf
  cases hfind : findVma p.vmas badaddr with
  | none =>
    rw [hfind] at hf
    cases hf
    exact .inl ⟨rfl, .inl rfl⟩
  | some v =>
    rw [hfind] at hf
    dsimp only at hf
    cases hcow : isCow vm p.pgd v cause badaddr with
    | true =>
      obtain ⟨-, -, e, he, -⟩ := isCow_eq hcow
      rw [hcow, he] at hf
      cases hf
      exact .inr (.inl ⟨v, e, rfl, hcow, he, rfl, rfl⟩)
    | false =>
      have hf' : (if ¬ permissionOk v cause then some (vm, false)
          else if vm.allocPage.1 = 0 then some (vm.allocPage.2, false)
          else do
            let s' ← mapPagesAt (vm.allocPage.2.setPage vm.allocPage.1
              (filePage vm.allocPage.2.mem v ((badaddr &&& ~~~4095) - v.start))) p.pgd
              (badaddr &&& ~~~4095) (vm.allocPage.1 - pageOffset) 4096 (pteProt v.prot)
            return (s', true)) = some (vm', handled) := by
        rw [hcow] at hf
        cases he : entryAt vm p.pgd badaddr with
        | none =>
          rw [he] at hf
          exact hf
        | some e =>
          rw [he] at hf
          exact hf
      split_ifs at hf' with hok h0
      · cases hf'
        exact .inl ⟨rfl, .inr ⟨h0, rfl⟩⟩
      · obtain ⟨vm₁, hmap, hf'⟩ := Option.bind_eq_some_iff.1 hf'
        cases hf'
        exact .inr (.inr ⟨v, rfl, hcow, hok, h0, rfl, hmap⟩)
      · cases hf'
        exact .inl ⟨rfl, .inl rfl⟩

/-- Where a page fault maps a page, it finds the tables or the memory for them. -/
def FaultTables (s : Vm) (p : Proc) (badaddr : Addr) : Prop :=
  ∀ v ∈ findVma p.vmas badaddr, s.allocPage.1 ≠ 0 →
    (pagewalk (s.allocPage.2.setPage s.allocPage.1
      (filePage s.allocPage.2.mem v ((badaddr &&& ~~~4095) - v.start))) p.pgd
      (badaddr &&& ~~~4095) true).2.isSome

instance (s : Vm) (p : Proc) (badaddr : Addr) : Decidable (FaultTables s p badaddr) :=
  Option.decidableForallMem _

namespace Inv

/-! ## The regions of a process -/

/-- One process changes, and the memory does not. -/
theorem sameMem (h : Inv g { s with procs := p :: rest } lost opened) (hmem : vm'.mem = s.vm.mem)
    (hfdt : p'.fdt = p.fdt) (hpgd : p'.pgd = p.pgd)
    (howned : Owned vm' (p.pgd :: pgds rest) (g.tables + lost') g.base
      (p'.blocks ++ allBlocks rest opened s.held))
    (hlost : ∀ t, (g.tables + lost') t ≠ 0 → (g.tables + lost) t ≠ 0)
    (hregions : Regions (leafAt 256 s.vm.mem p.pgd) p'.vmas)
    (hsignals : SignalOk (leafAt 256 s.vm.mem p.pgd) p') :
    Inv g { s with vm := vm', procs := p' :: rest } lost' opened := by
  refine h.change hfdt (by rwa [hpgd]) ?_ ?_ ?_ ?_ ?_ ?_ ?_ ?_ ?_
  · intro t ht
    rw [hmem, hpgd]
    exact h.unmapped t (hlost t ht)
  · intro y w hy hw
    rw [hmem, hpgd] at hy
    rw [hmem, hpgd]
    exact h.writable p (List.mem_cons_self ..) y w hy hw
  · intro q hq y w hy hw
    rw [hmem, hpgd]
    exact (h.writable q (List.mem_cons_of_mem _ hq) y w hy hw).le
  · rwa [hmem, hpgd]
  · rwa [hmem, hpgd]
  · intro q _
    rw [hmem]
    exact .refl _ _
  · intro i hi
    rw [hmem, hpgd]
    exact h.upper p (List.mem_cons_self ..) i hi
  · intro pgd _ k _
    rw [hmem]
  · intro t _
    rw [hmem]

/-- A process changes, and its memory does not. -/
theorem setTask (h : Inv g { s with procs := p :: rest } lost opened) (hfdt : p'.fdt = p.fdt)
    (hpgd : p'.pgd = p.pgd) (hvmas : p'.vmas = p.vmas) (hblocks : p'.blocks = p.blocks)
    (hsignals : SignalOk (leafAt 256 s.vm.mem p.pgd) p') :
    Inv g { s with procs := p' :: rest } lost opened := by
  have howned := h.owned_cons
  rw [← hblocks] at howned
  have hregions := h.regions p (List.mem_cons_self ..)
  rw [← hvmas] at hregions
  exact h.sameMem rfl hfdt hpgd howned (fun _ ht => ht) hregions hsignals

/-- The blocks of a process with one more region. -/
theorem blocks_insert (p : Proc) (new : VmArea) (held : List (Addr × ℕ)) :
    (Proc.blocks { p with vmas := insertVma new p.vmas } ++ held).Perm
      (vmaBlock new :: (p.blocks ++ held)) := by
  have hins := (insertVma_perm new p.vmas).map vmaBlock
  have hblocks : (Proc.blocks { p with vmas := insertVma new p.vmas }).Perm
      (vmaBlock new :: p.blocks) :=
    (((hins.cons _).cons _).trans ((List.Perm.swap _ _ _).cons _)).trans (.swap _ _ _)
  exact hblocks.append_right held

/-- The signal stack is in its region, whatever other regions there are. -/
theorem signalOk_vmas (h : SignalOk leaf p) (hsub : ∀ v ∈ p.vmas, v ∈ vmas) :
    SignalOk leaf { p with vmas := vmas } := by
  unfold SignalOk at h ⊢
  split
  · rename_i hsig
    rw [if_pos hsig] at h
    obtain ⟨v, hv, hstart, hstop⟩ := h.region
    exact ⟨⟨v, hsub v hv, hstart, hstop⟩, h.user, h.entry⟩
  · rename_i hsig
    rwa [if_neg hsig] at h

/-- A region is added at a free place of the user half. -/
theorem addVma {start length prot flags : BitVec 64} {vmas' : List VmArea}
    (h : Inv g { s with procs := p :: rest } lost opened)
    (hadd : Mmu.addVma s.vm p.vmas start length prot flags = some (vm', vmas'))
    (hfree : Free p.vmas length start.toNat) (hbelow : start.toNat + length.toNat ≤ 2 ^ 38)
    (halign : start.toNat % 4096 = 0) (hlen : length.toNat % 4096 = 0)
    (hpos : start = 0 ∨ 0 < length.toNat) :
    Inv g { s with vm := vm', procs := { p with vmas := vmas' } :: rest } lost opened ∧
      vm'.mem = s.vm.mem ∧
      ∃ node, vmas' = insertVma ⟨node, start, start + length, prot, flags, 0, 0⟩ p.vmas := by
  have hp : p ∈ p :: rest := List.mem_cons_self ..
  have hstop : (start + length).toNat = start.toNat + length.toNat :=
    BitVec.toNat_add_of_lt (by omega)
  rw [Mmu.addVma] at hadd
  rcases h.owned_cons.allocBlock sizeofVmArea with ⟨h0, -⟩ | ⟨h0, howned⟩
  · rw [if_pos h0] at hadd
    cases hadd
  · rw [if_neg h0, Option.some_inj, Prod.mk.injEq] at hadd
    obtain ⟨rfl, rfl⟩ := hadd
    have hreg := h.regions p hp
    have hblocks := blocks_insert p ⟨(Memory.allocate s.vm.alloc sizeofVmArea).1, start,
      start + length, prot, flags, 0, 0⟩ (allBlocks rest opened s.held)
    refine ⟨h.sameMem rfl rfl rfl (howned.perm hblocks.symm) (fun _ ht => ht) ?_ ?_, rfl, _, rfl⟩
    · refine ⟨hreg.ok.insert hfree hstop halign hlen, fun v hv => ?_, fun v hv => ?_,
        fun y w hy => ?_⟩
      · rcases List.mem_cons.1 ((insertVma_perm _ _).mem_iff.1 hv) with rfl | hv
        · dsimp only
          omega
        · exact hreg.below v hv
      · rcases List.mem_cons.1 ((insertVma_perm _ _).mem_iff.1 hv) with rfl | hv
        · dsimp only
          exact hpos.imp_right fun _ => by omega
        · exact hreg.positive v hv
      · obtain ⟨v, hv, hcov⟩ := hreg.covered y w hy
        exact ⟨v, (insertVma_perm _ _).mem_iff.2 (List.mem_cons_of_mem _ hv), hcov⟩
    · exact signalOk_vmas (h.signals p hp) fun v hv =>
        (insertVma_perm _ _).mem_iff.2 (List.mem_cons_of_mem _ hv)

/-! ## Page faults -/

/-- A page is allocated and written. -/
theorem allocFilled (h : Inv g { s with procs := p :: rest } lost opened)
    (words : Fin 512 → BitVec 64) (h0 : s.vm.allocPage.1 ≠ 0) :
    PageAligned s.vm.allocPage.1 ∧ (g.tables + lost) s.vm.allocPage.1 = 0 ∧
      Inv g { s with
        vm := s.vm.allocPage.2.setPage s.vm.allocPage.1 words
        procs := p :: rest } (lost + Pi.single s.vm.allocPage.1 1) opened ∧
      ∀ q ∈ p :: rest, SameSpace 256 s.vm.mem
        (s.vm.allocPage.2.setPage s.vm.allocPage.1 words).mem q.pgd := by
  rcases h.allocPage with ⟨h0', -⟩ | ⟨-, hal, hfresh, h₁⟩
  · exact absurd h0' h0
  · have hfresh' : (g.tables + lost) s.vm.allocPage.1 = 0 := hfresh
    have hloose :
        (g.tables + (lost + Pi.single s.vm.allocPage.1 1) : Addr → ℕ) s.vm.allocPage.1 ≠ 0 := by
      simp
    rw [Pi.add_apply] at hfresh'
    refine ⟨hal, hfresh, h₁.setPage (by simp) (by omega) words, fun q hq => ?_⟩
    exact sameSpace_setPage (s := s.vm.allocPage.2)
      (h₁.owned.spaces.not_isTable_of_loose hloose (mem_pgds hq))

/-- A page in a region that permits the access is mapped only where the page table permits it too,
or where copy-on-write is due. -/
theorem leaf_none (h : Inv g { s with procs := p :: rest } lost opened) (hc : IsPageFault cause)
    (hn : ¬ Permitted s.vm.mem p.pgd cause badaddr) (hv : v ∈ p.vmas) (hlt : badaddr.toNat < 2 ^ 38)
    (hcov : Covers v (leafIndex badaddr)) (hcow : isCow s.vm p.pgd v cause badaddr = false)
    (hok : permissionOk v cause = true) : leafAt 256 s.vm.mem p.pgd (leafIndex badaddr) = none := by
  have hreg := h.regions p (List.mem_cons_self ..)
  by_contra hsome
  obtain ⟨w, hw⟩ := Option.ne_none_iff_exists'.1 hsome
  obtain ⟨u, hu, hcu, hflags⟩ := hreg.covered _ w hw
  obtain rfl := covers_unique hreg.ok hv hu hcov hcu
  refine hn ⟨w, hw, flagsOf_access hflags hc hok fun hcause => ?_⟩
  -- a store to a read-only page of a writable region is copy-on-write
  by_contra hW
  obtain ⟨pt, hpt, hvalid, hword⟩ := leafAt_eq_some.1 hw
  have he : entryAt s.vm p.pgd badaddr = some (pt, vpn badaddr 12) := by
    rw [entryAt_eq s.vm p.pgd (userVa_of_lt hlt), tableIndex, hpt]
    rfl
  have hprot : HasFlag v.prot protWrite := by
    simpa [permissionOk, hcause] using hok
  have htrue : isCow s.vm p.pgd v cause badaddr = true := by
    simp only [isCow, decide_eq_true_eq, he, Option.any_some]
    exact ⟨hcause, hprot, hvalid, by rwa [hword]⟩
  rw [htrue] at hcow
  cases hcow

/-- A page fault of an access that is not permitted. A page is lost where its tables are missing. -/
theorem pageFault_lost {handled : Bool} (h : Inv g { s with procs := p :: rest } lost opened)
    (hc : IsPageFault cause) (hn : ¬ Permitted s.vm.mem p.pgd cause badaddr)
    (hf : Process.pageFault s.vm p cause badaddr = some (vm', handled)) :
    ∃ lost', Inv g { s with vm := vm', procs := p :: rest } lost' opened ∧
      (FaultTables s.vm p badaddr → lost' = lost) := by
  have hp : p ∈ p :: rest := List.mem_cons_self ..
  have hreg := h.regions p hp
  rcases pageFault_cases hf with ⟨-, rfl | ⟨h0, rfl⟩⟩ | ⟨v, e, hfind, hcow, he, rfl, -⟩ |
    ⟨v, hfind, hcow, hok, h0, -, hmap⟩
  · exact ⟨lost, h, fun _ => rfl⟩
  · rcases h.allocPage with ⟨-, h₁⟩ | ⟨h0', -⟩
    · exact ⟨lost, h₁, fun _ => rfl⟩
    · exact absurd h0 h0'
  · obtain ⟨hv, hstart, hstop⟩ := findVma_eq hfind
    obtain ⟨hlt, hcov⟩ := covers_leafIndex hreg hv hstart hstop
    obtain ⟨-, hwrite, e', he', hvalid, hw⟩ := isCow_eq hcow
    obtain rfl := Option.some.inj (he.symm.trans he')
    exact ⟨lost, h.cow (userVa_of_lt hlt) he hvalid hw hv hcov hwrite, fun _ => rfl⟩
  · obtain ⟨hv, hstart, hstop⟩ := findVma_eq hfind
    obtain ⟨hlt, hcov⟩ := covers_leafIndex hreg hv hstart hstop
    have hnone := h.leaf_none hc hn hv hlt hcov hcow hok
    obtain ⟨hal, hfresh, h₁, hsame⟩ := h.allocFilled
      (filePage s.vm.allocPage.2.mem v ((badaddr &&& ~~~4095) - v.start)) h0
    have hpage := toNat_page badaddr
    rw [mapPagesAt_page _ _ _ _ (by omega)] at hmap
    cases hmap
    have huser' : UserVa (badaddr &&& ~~~4095) := userVa_of_lt (by omega)
    rw [← leafIndex_page badaddr] at hnone hcov
    rcases mapPage (s := { s with vm := _ }) h₁ hfresh hal huser'
      ((congrFun (hsame p hp).leaf _).trans hnone) hv hcov with ⟨hwalk, h₂, -⟩ | ⟨h₂, -⟩
    · refine ⟨_, h₂, fun htables => ?_⟩
      exact absurd hwalk (Option.isSome_iff_ne_none.1 (htables v hfind h0))
    · exact ⟨_, h₂, fun _ => rfl⟩

theorem pageFault {handled : Bool} (h : Inv g { s with procs := p :: rest } lost opened)
    (hc : IsPageFault cause) (hn : ¬ Permitted s.vm.mem p.pgd cause badaddr)
    (hf : Process.pageFault s.vm p cause badaddr = some (vm', handled)) :
    ∃ lost', Inv g { s with vm := vm', procs := p :: rest } lost' opened :=
  (h.pageFault_lost hc hn hf).imp fun _ h' => h'.1

end Inv

/-! ## `sys_mmap` -/

/-- Where the search ends, no region is in the way. -/
theorem findFreeLoop_end {length : BitVec 64} (n : ℕ) (addr : Addr)
    (h : findFreeLoop vmas length n addr = some a) :
    (∀ v ∈ vmas, a + length ≤ v.start ∨ v.stop ≤ a) ∧ (a = addr ∨ ∃ v ∈ vmas, a = v.stop) ∧
      addr ≤ a := by
  induction n generalizing addr with
  | zero => cases h
  | succ n ih =>
    rw [findFreeLoop] at h
    split at h
    · rename_i v hv
      obtain ⟨hfree, hor, hle⟩ := ih v.stop h
      have hover := List.find?_some hv
      simp only [decide_eq_true_eq, not_or, BitVec.not_le] at hover
      refine ⟨hfree, .inr ?_, BitVec.le_trans (BitVec.le_of_lt hover.2) hle⟩
      rcases hor with rfl | hor
      · exact ⟨v, List.mem_of_find?_eq_some hv, rfl⟩
      · exact hor
    · rename_i hnone
      cases h
      refine ⟨fun v hv => ?_, .inl rfl, BitVec.le_refl _⟩
      simpa only [decide_eq_true_eq, not_not] using List.find?_eq_none.1 hnone v hv

/-- The start of a region whose end does not wrap is aligned and free. -/
theorem mmapStart_free {length addr start : BitVec 64} (hok : VmasOk vmas)
    (h : mmapStart vmas addr length = some start) (hsum : start.toNat + length.toNat < 2 ^ 64) :
    Free vmas length start.toNat ∧ start.toNat % 4096 = 0 := by
  rw [mmapStart] at h
  split at h
  · obtain ⟨hfree, hor, -⟩ := findFreeLoop_end _ _ h
    constructor
    · apply (isVmaOverlap_eq_false_iff hsum).1
      simp only [isVmaOverlap, List.any_eq_false, decide_eq_true_eq, not_not]
      exact hfree
    · rcases hor with rfl | ⟨v, hv, rfl⟩
      · decide
      · exact (hok.aligned v hv).2.1
  · rename_i hhint
    cases h
    rw [not_or, not_or] at hhint
    exact ⟨(isVmaOverlap_eq_false_iff hsum).1 (Bool.not_eq_true _ ▸ hhint.2.2),
      pageAligned_iff.1 (not_not.1 hhint.2.1)⟩

/-- Each round of the loop for `MAP_POPULATE` finds the tables or the memory for them. -/
def PopulateTables (pgd stop prot : BitVec 64) : ℕ → Vm → Addr → Prop
  | 0, _, _ => True
  | n + 1, s, a => a < stop → s.allocPage.1 ≠ 0 →
    (pagewalk (s.allocPage.2.setPage s.allocPage.1 fun _ => 0) pgd a true).2.isSome ∧
      PopulateTables pgd stop prot n (mapPage (s.allocPage.2.setPage s.allocPage.1 fun _ => 0) pgd a
        (s.allocPage.1 - pageOffset) prot) (a + 4096)

instance (pgd stop prot : BitVec 64) : ∀ (n : ℕ) (s : Vm) (a : Addr),
    Decidable (PopulateTables pgd stop prot n s a)
  | 0, _, _ => .isTrue trivial
  | n + 1, s, a =>
    have := instDecidablePopulateTables pgd stop prot n (mapPage
      (s.allocPage.2.setPage s.allocPage.1 fun _ => 0) pgd a (s.allocPage.1 - pageOffset) prot)
        (a + 4096)
    inferInstanceAs (Decidable (_ → _ → _ ∧ _))

/-- The loop of a call of `sys_mmap` does. -/
def MmapTables (s : Vm) (p : Proc) (addr length : BitVec 64) (prot flags : BitVec 32) : Prop :=
  roundLength length ≠ 0 → ∀ start ∈ mmapStart p.vmas addr (roundLength length), ∀ r ∈
    addVma s p.vmas start (roundLength length) (prot.signExtend 64) (flags.signExtend 64),
    HasFlag (flags.signExtend 64) mapPopulate →
    PopulateTables p.pgd (start + roundLength length) (pteProt (prot.signExtend 64))
      ((roundLength length).toNat / 4096 + 2) r.1 start

instance (s : Vm) (p : Proc) (addr length : BitVec 64) (prot flags : BitVec 32) :
    Decidable (MmapTables s p addr length prot flags) :=
  have (start : Addr) : Decidable (∀ r ∈ addVma s p.vmas start (roundLength length)
      (prot.signExtend 64) (flags.signExtend 64), HasFlag (flags.signExtend 64) mapPopulate →
      PopulateTables p.pgd (start + roundLength length) (pteProt (prot.signExtend 64))
        ((roundLength length).toNat / 4096 + 2) r.1 start) := Option.decidableForallMem _
  have := Option.decidableForallMem (mmapStart p.vmas addr (roundLength length))
    (p := fun start => ∀ r ∈ addVma s p.vmas start (roundLength length) (prot.signExtend 64)
      (flags.signExtend 64), HasFlag (flags.signExtend 64) mapPopulate →
      PopulateTables p.pgd (start + roundLength length) (pteProt (prot.signExtend 64))
        ((roundLength length).toNat / 4096 + 2) r.1 start)
  inferInstanceAs (Decidable (_ → _))

namespace Inv

/-- The pages of a new region are mapped. A page is lost where its tables are missing. -/
theorem populate {stop : Addr} {ok : Bool} (fuel : ℕ) (vm : Vm) (a : Addr) (lost : Addr → ℕ)
    (h : Inv g { s with vm := vm, procs := p :: rest } lost opened) (hv : v ∈ p.vmas)
    (hstart : v.start.toNat ≤ a.toNat) (hstop : v.stop = stop) (halign : a.toNat % 4096 = 0)
    (hnone : ∀ y w, leafAt 256 vm.mem p.pgd y = some w →
      leafBase y < a.toNat ∨ stop.toNat ≤ leafBase y)
    (hloop : populateLoop p.pgd stop (pteProt v.prot) fuel vm a = some (vm', ok)) :
    ∃ lost', Inv g { s with vm := vm', procs := p :: rest } lost' opened ∧
      (PopulateTables p.pgd stop (pteProt v.prot) fuel vm a → lost' = lost) := by
  have hp : p ∈ p :: rest := List.mem_cons_self ..
  induction fuel generalizing vm a lost with
  | zero => cases hloop
  | succ fuel ih =>
    have hbelow := (h.regions p hp).below v hv
    obtain ⟨-, halign', -⟩ := (h.regions p hp).ok.aligned v hv
    rw [hstop] at hbelow halign'
    rw [populateLoop] at hloop
    by_cases hlt : a < stop
    · rw [if_pos hlt] at hloop
      rw [BitVec.lt_def] at hlt
      dsimp only at hloop
      by_cases h0 : vm.allocPage.1 = 0
      · rw [if_pos h0] at hloop
        cases hloop
        rcases h.allocPage with ⟨-, h₁⟩ | ⟨h0', -⟩
        · exact ⟨lost, h₁, fun _ => rfl⟩
        · exact absurd h0 h0'
      · rw [if_neg h0, mapPagesAt_page _ _ _ _ (by omega)] at hloop
        obtain ⟨hal, hfresh, h₁, hsame⟩ := allocFilled (s := { s with vm := vm }) h (fun _ => 0) h0
        have hbase : leafBase (leafIndex a) = a.toNat := by
          rw [leafBase_leafIndex (by omega)]
          omega
        have hleaf₁ := (hsame p hp).leaf
        have hfree : leafAt 256 (vm.allocPage.2.setPage vm.allocPage.1 fun _ => 0).mem p.pgd
            (leafIndex a) = none := by
          rw [hleaf₁]
          by_contra hsome
          obtain ⟨w, hw⟩ := Option.ne_none_iff_exists'.1 hsome
          have := hnone _ w hw
          omega
        have hcov : Covers v (leafIndex a) := by
          rw [Covers, hbase, hstop]
          omega
        have hnext : (a + 4096).toNat = a.toNat + 4096 := by
          rw [BitVec.toNat_add, show (4096 : Addr).toNat = 4096 from rfl]
          omega
        have hstep := mapPage (s := { s with
          vm := vm.allocPage.2.setPage vm.allocPage.1 fun _ => 0 }) h₁ hfresh hal
          (userVa_of_lt (by omega)) hfree hv hcov
        rcases hstep with ⟨hwalk, h₂, hleaf₂⟩ | ⟨h₂, hleaf₂⟩
        · obtain ⟨lost', h', -⟩ := ih _ (a + 4096) _ h₂ (by omega) (by omega) (fun y w hy => by
            rw [hleaf₂, hleaf₁] at hy
            have := hnone y w hy
            omega) hloop
          refine ⟨lost', h', fun htables => ?_⟩
          exact absurd hwalk (Option.isSome_iff_ne_none.1 (htables (BitVec.lt_def.2 hlt) h0).1)
        · have hnone₂ : ∀ y w, leafAt 256
              (Mmu.mapPage (vm.allocPage.2.setPage vm.allocPage.1 fun _ => 0) p.pgd
              a (vm.allocPage.1 - pageOffset) (pteProt v.prot)).mem p.pgd y = some w →
              leafBase y < (a + 4096).toNat ∨ stop.toNat ≤ leafBase y := by
            intro y w hy
            rw [hleaf₂, hleaf₁] at hy
            rcases eq_or_ne y (leafIndex a) with rfl | hne
            · omega
            · rw [Function.update_of_ne hne] at hy
              have := hnone y w hy
              omega
          obtain ⟨lost', h', hlost⟩ := ih _ (a + 4096) _ h₂ (by omega) (by omega) hnone₂ hloop
          exact ⟨lost', h', fun htables => hlost (htables (BitVec.lt_def.2 hlt) h0).2⟩
    · rw [if_neg hlt] at hloop
      cases hloop
      exact ⟨lost, h, fun _ => rfl⟩

/-- `sys_mmap` of a region in the user half. A page is lost where its tables are missing. -/
theorem sysMmap_lost {addr length : BitVec 64} {prot flags : BitVec 32} {r : MmapResult}
    (h : Inv g { s with procs := p :: rest } lost opened)
    (hbelow : ∀ start, roundLength length ≠ 0 →
      mmapStart p.vmas addr (roundLength length) = some start →
      start.toNat + (roundLength length).toNat ≤ 2 ^ 38)
    (hr : Mmu.sysMmap s.vm p.pgd p.vmas addr length prot flags = some r) :
    ∃ lost', Inv g { s with vm := r.vm, procs := { p with vmas := r.vmas } :: rest } lost' opened ∧
      (MmapTables s.vm p addr length prot flags → lost' = lost) := by
  have hp : p ∈ p :: rest := List.mem_cons_self ..
  rw [Mmu.sysMmap] at hr
  dsimp only at hr
  by_cases h0 : roundLength length = 0
  · rw [if_pos h0] at hr
    cases hr
    exact ⟨lost, h, fun _ => rfl⟩
  · rw [if_neg h0] at hr
    obtain ⟨start, hstart, hr⟩ := Option.bind_eq_some_iff.1 hr
    obtain ⟨⟨vm₁, vmas₁⟩, hadd, hr⟩ := Option.bind_eq_some_iff.1 hr
    have hle := hbelow start h0 hstart
    obtain ⟨hfree, halign⟩ := mmapStart_free (h.regions p hp).ok hstart (by omega)
    obtain ⟨h₁, hmem, node, rfl⟩ := h.addVma hadd hfree hle halign (roundLength_mod length)
      (.inr (Nat.pos_of_ne_zero fun hzero => h0 (BitVec.eq_of_toNat_eq hzero)))
    simp only at hr
    split_ifs at hr with hpop
    · obtain ⟨⟨vm₂, ok⟩, hloop, hr⟩ := Option.bind_eq_some_iff.1 hr
      cases hr
      have hsum : (start + roundLength length).toNat = start.toNat + (roundLength length).toNat :=
        BitVec.toNat_add_of_lt (by omega)
      have hnone : ∀ y w, leafAt 256 vm₁.mem p.pgd y = some w →
          leafBase y < start.toNat ∨ (start + roundLength length).toNat ≤ leafBase y := by
        intro y w hy
        rw [hmem] at hy
        obtain ⟨u, hu, hcov, -⟩ := (h.regions p hp).covered y w hy
        have hclear := hfree u.range (List.mem_map_of_mem hu)
        simp only [VmArea.range] at hclear
        unfold Covers at hcov
        omega
      obtain ⟨lost', h', hlost⟩ := populate (v := ⟨node, start, start + roundLength length,
        prot.signExtend 64, flags.signExtend 64, 0, 0⟩) _ vm₁ start lost h₁
        ((insertVma_perm _ _).mem_iff.2 (List.mem_cons_self ..)) le_rfl rfl halign hnone hloop
      exact ⟨lost', h', fun htables => hlost (htables h0 start hstart _ hadd hpop)⟩
    · cases hr
      exact ⟨lost, h₁, fun _ => rfl⟩

theorem sysMmap {addr length : BitVec 64} {prot flags : BitVec 32} {r : MmapResult}
    (h : Inv g { s with procs := p :: rest } lost opened)
    (hbelow : ∀ start, roundLength length ≠ 0 →
      mmapStart p.vmas addr (roundLength length) = some start →
      start.toNat + (roundLength length).toNat ≤ 2 ^ 38)
    (hr : Mmu.sysMmap s.vm p.pgd p.vmas addr length prot flags = some r) :
    ∃ lost', Inv g { s with vm := r.vm, procs := { p with vmas := r.vmas } :: rest } lost' opened :=
  (h.sysMmap_lost hbelow hr).imp fun _ h' => h'.1

end Inv

end BareMetalOS.Process
