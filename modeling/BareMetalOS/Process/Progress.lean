import BareMetalOS.Process.Isolation

/-!
# Page faults make progress

`do_trap` resolves a fault in a region that permits the access, and kills the process otherwise
(`Resolvable`). After a fault that is resolved the page table permits the access, so that it does
not fault again, exactly if there was memory for the copy of a shared page or for the page tables
(`FaultMemory`): the handler does not tell this failure from success.
-/

namespace BareMetalOS.Process

open Memory (Addr)
open Mmu Sched Trap Files

variable {g : Ground} {s s₀ : Sys} {vm vm' : Vm} {p : Proc} {rest : List Proc} {lost : Addr → ℕ}
  {opened : List Addr} {cause badaddr : BitVec 64} {v : VmArea} {w : BitVec 64}

/-- The address is in a region that permits the access, and there is a page for it or it is
shared. -/
def Resolvable (vm : Vm) (p : Proc) (cause badaddr : BitVec 64) : Prop :=
  ∃ v ∈ findVma p.vmas badaddr, permissionOk v cause ∧
    (isCow vm p.pgd v cause badaddr ∨ vm.allocPage.1 ≠ 0)

instance (vm : Vm) (p : Proc) (cause badaddr : BitVec 64) :
    Decidable (Resolvable vm p cause badaddr) :=
  Option.decidableExistsMem _

/-- There is memory for the copy of a shared page, or for the tables of a new one. -/
def FaultMemory (vm : Vm) (p : Proc) (cause badaddr : BitVec 64) : Prop :=
  ∀ v ∈ findVma p.vmas badaddr,
    if isCow vm p.pgd v cause badaddr then
      ∀ e ∈ entryAt vm p.pgd badaddr, Memory.getPageRef vm.alloc (frameAt (vm.mem e.1 e.2)) > 1 →
        vm.allocPage.1 ≠ 0
    else FaultTables vm p badaddr

/-- A region that may be written gets pages that may. -/
theorem hasFlag_pteProt_w (h : HasFlag v.prot protWrite) : HasFlag (pteProt v.prot) pteW := by
  unfold pteProt
  simp only [if_pos h]
  split_ifs <;> decide

/-- A copy on write is permitted by the region. -/
theorem permissionOk_of_isCow (h : isCow vm p.pgd v cause badaddr = true) :
    permissionOk v cause = true := by
  obtain ⟨rfl, hwrite, -⟩ := isCow_eq h
  simp [permissionOk, hwrite]

/-- The page fault, where it is no copy on write. -/
theorem pageFault_of_not_cow (hfind : findVma p.vmas badaddr = some v)
    (hcow : isCow vm p.pgd v cause badaddr = false) : pageFault vm p cause badaddr =
      if ¬ permissionOk v cause then some (vm, false)
      else if vm.allocPage.1 = 0 then some (vm.allocPage.2, false)
      else do
        let vm' ← mapPagesAt (vm.allocPage.2.setPage vm.allocPage.1
          (filePage vm.allocPage.2.mem v ((badaddr &&& ~~~4095) - v.start))) p.pgd
          (badaddr &&& ~~~4095) (vm.allocPage.1 - pageOffset) 4096 (pteProt v.prot)
        return (vm', true) := by
  rw [pageFault, hfind]
  dsimp only
  rw [hcow]

theorem pageFault_of_cow {e : Addr × Fin 512} (hfind : findVma p.vmas badaddr = some v)
    (hcow : isCow vm p.pgd v cause badaddr = true) (he : entryAt vm p.pgd badaddr = some e) :
    pageFault vm p cause badaddr = some (cow vm e, true) := by
  rw [pageFault, hfind]
  dsimp only
  rw [hcow, he]

namespace Inv

/-- A fault is resolved where this is possible. -/
theorem pageFault_handled (h : Inv g { s with procs := p :: rest } lost opened) :
    ∃ vm', Process.pageFault s.vm p cause badaddr =
      some (vm', decide (Resolvable s.vm p cause badaddr)) := by
  have hreg := h.regions p (List.mem_cons_self ..)
  cases hfind : findVma p.vmas badaddr with
  | none =>
    have hno : ¬ Resolvable s.vm p cause badaddr := by
      rintro ⟨v, hv, -⟩
      rw [hfind] at hv
      cases hv
    rw [decide_eq_false hno, Process.pageFault, hfind]
    exact ⟨_, rfl⟩
  | some v =>
    have honly : ∀ P : VmArea → Prop, (∃ v ∈ findVma p.vmas badaddr, P v) ↔ P v := by
      intro P
      rw [hfind]
      exact ⟨fun ⟨u, hu, hP⟩ => Option.some.inj hu ▸ hP, fun hP => ⟨v, rfl, hP⟩⟩
    have hiff : Resolvable s.vm p cause badaddr ↔ permissionOk v cause = true ∧
        (isCow s.vm p.pgd v cause badaddr = true ∨ s.vm.allocPage.1 ≠ 0) := honly _
    cases hcow : isCow s.vm p.pgd v cause badaddr with
    | true =>
      obtain ⟨-, -, e, he, -⟩ := isCow_eq hcow
      rw [pageFault_of_cow hfind hcow he,
        decide_eq_true (hiff.2 ⟨permissionOk_of_isCow hcow, .inl hcow⟩)]
      exact ⟨_, rfl⟩
    | false =>
      rw [pageFault_of_not_cow hfind hcow]
      by_cases hok : permissionOk v cause = true
      · by_cases h0 : s.vm.allocPage.1 = 0
        · have hno : ¬ Resolvable s.vm p cause badaddr := by
            rw [hiff, hcow]
            simp [h0]
          rw [if_neg (not_not.2 hok), if_pos h0, decide_eq_false hno]
          exact ⟨_, rfl⟩
        · obtain ⟨hv, hstart, hstop⟩ := findVma_eq hfind
          obtain ⟨hlt, -⟩ := covers_leafIndex hreg hv hstart hstop
          have hpage := toNat_page badaddr
          rw [if_neg (not_not.2 hok), if_neg h0, mapPagesAt_page _ _ _ _ (by omega),
            decide_eq_true (hiff.2 ⟨hok, .inr h0⟩)]
          exact ⟨_, rfl⟩
      · have hno : ¬ Resolvable s.vm p cause badaddr := fun hr => hok (hiff.1 hr).1
        rw [if_pos hok, decide_eq_false hno]
        exact ⟨_, rfl⟩

/-- After a copy on write a store is permitted if there was memory for the copy. -/
theorem cow_permits {e : Addr × Fin 512} (h : Inv g { s with procs := p :: rest } lost opened)
    (hlt : badaddr.toNat < 2 ^ 38) (hv : v ∈ p.vmas) (hcov : Covers v (leafIndex badaddr))
    (hwrite : HasFlag v.prot protWrite) (he : entryAt s.vm p.pgd badaddr = some e)
    (hvalid : HasFlag (s.vm.mem e.1 e.2) pteV) (hw : ¬ HasFlag (s.vm.mem e.1 e.2) pteW) :
    Permitted (Process.cow s.vm e).mem p.pgd 15 badaddr ↔
      (Memory.getPageRef s.vm.alloc (frameAt (s.vm.mem e.1 e.2)) > 1 → s.vm.allocPage.1 ≠ 0) := by
  have hp : p ∈ p :: rest := List.mem_cons_self ..
  obtain ⟨hpt, hk, hleaf⟩ := leafAt_of_entryAt (userVa_of_lt hlt) he hvalid
  obtain ⟨pt, k⟩ := e
  dsimp only at hpt hk hleaf hvalid hw ⊢
  set w := s.vm.mem pt k with hwdef
  obtain ⟨u, hu, hcu, hflags⟩ := (h.regions p hp).covered _ w hleaf
  obtain rfl := covers_unique (h.regions p hp).ok hv hu hcov hcu
  have hor := flags_or_w hflags hw hwrite
  have hW := hasFlag_pteProt_w hwrite
  have hok : permissionOk v 15 = true := by simp [permissionOk, hwrite]
  -- an entry with the flags of the region permits the store
  have hpermit : ∀ m w', w' &&& 0x3ff = pteProt v.prot →
      leafAt 256 m p.pgd (leafIndex badaddr) = some w' → Permitted m p.pgd 15 badaddr := by
    intro m w' hw' hm
    refine ⟨w', hm, flagsOf_access (.inl hw') (.inr (.inr rfl)) hok fun _ => ?_⟩
    rwa [← hasFlag_and (by decide), hw']
  by_cases hcount : Memory.getPageRef s.vm.alloc (frameAt w) > 1
  · by_cases h0 : s.vm.allocPage.1 = 0
    · have hcow : Process.cow s.vm (pt, k) = s.vm.allocPage.2 := by
        rw [Process.cow]
        dsimp only
        rw [if_pos hcount, if_pos h0]
      refine iff_of_false ?_ fun himp => himp hcount h0
      rw [hcow]
      rintro ⟨w', hw', -, hflag⟩
      have hsame : leafAt 256 s.vm.allocPage.2.mem p.pgd (leafIndex badaddr) = some w := hleaf
      obtain rfl := Option.some.inj (hsame.symm.trans hw')
      exact hw hflag
    · refine iff_of_true ?_ fun _ => h0
      obtain ⟨hal, -, -, hsame⟩ := h.allocFilled (s.vm.mem (frameAt w)) h0
      have htable := (mem_allocFilled (s := { s with procs := p :: rest }) h
        (refsAll_table_pos (s := { s with procs := p :: rest }) hp (isTable_pt hpt)) h0
        (s.vm.mem (frameAt w))).2
      have hcow : Process.cow s.vm (pt, k) =
          ((s.vm.allocPage.2.setPage s.vm.allocPage.1 (s.vm.mem (frameAt w))).store pt k
            (entryOf s.vm.allocPage.1 ((s.vm.allocPage.2.setPage s.vm.allocPage.1
              (s.vm.mem (frameAt w))).mem pt k &&& 0x3ff ||| pteW))).freePage (frameAt w) := by
        rw [Process.cow]
        dsimp only
        rw [if_pos hcount, if_neg h0]
        rfl
      rw [hcow]
      dsimp only at htable
      rw [htable, ← hwdef, hor]
      have hstore := h.leaf_store hpt hk
        (hasFlag_entryOf_v.2 (hasFlag_pteProt v.prot) : HasFlag (entryOf s.vm.allocPage.1 _) pteV)
        (hsame p hp)
      exact hpermit _ _ (entry_decode hal.sub_pageOffset (flagBits_pteProt v.prot)).2
        ((congrFun hstore _).trans (Function.update_self ..))
  · have hcow : Process.cow s.vm (pt, k) = s.vm.store pt k (w ||| pteW) := by
      rw [Process.cow]
      dsimp only
      rw [if_neg hcount]
    refine iff_of_true ?_ fun hgt => absurd hgt hcount
    rw [hcow]
    apply hpermit _ (w ||| pteW) (and_or_w.trans hor)
    rw [h.leaf_store hpt hk (hasFlag_v_or_w.2 hvalid) (.refl _ _), Function.update_self]

/-- After a fault that is resolved the access is permitted if there was memory. -/
theorem pageFault_permits (h : Inv g { s with procs := p :: rest } lost opened)
    (hc : IsPageFault cause) (hn : ¬ Permitted s.vm.mem p.pgd cause badaddr)
    (hf : Process.pageFault s.vm p cause badaddr = some (vm', true)) :
    Permitted vm'.mem p.pgd cause badaddr ↔ FaultMemory s.vm p cause badaddr := by
  have hp : p ∈ p :: rest := List.mem_cons_self ..
  have hreg := h.regions p hp
  rcases pageFault_cases hf with ⟨hfalse, -⟩ | ⟨v, e, hfind, hcow, he, rfl, -⟩ |
    ⟨v, hfind, hcow, hok, h0, -, hmap⟩
  · cases hfalse
  · obtain ⟨hv, hstart, hstop⟩ := findVma_eq hfind
    obtain ⟨hlt, hcov⟩ := covers_leafIndex hreg hv hstart hstop
    obtain ⟨rfl, hwrite, e', he', hvalid, hw⟩ := isCow_eq hcow
    obtain rfl := Option.some.inj (he.symm.trans he')
    rw [h.cow_permits hlt hv hcov hwrite he hvalid hw, FaultMemory, hfind]
    constructor
    · rintro hmem _ ⟨⟩
      rw [if_pos hcow, he]
      rintro _ ⟨⟩
      exact hmem
    · intro hmem
      have hmem := hmem v rfl
      rw [if_pos hcow] at hmem
      exact hmem e he
  · obtain ⟨hv, hstart, hstop⟩ := findVma_eq hfind
    obtain ⟨hlt, hcov⟩ := covers_leafIndex hreg hv hstart hstop
    have hnone := h.leaf_none hc hn hv hlt hcov hcow hok
    have hmemory : FaultMemory s.vm p cause badaddr ↔
        (pagewalk (s.vm.allocPage.2.setPage s.vm.allocPage.1
        (filePage s.vm.allocPage.2.mem v ((badaddr &&& ~~~4095) - v.start))) p.pgd
        (badaddr &&& ~~~4095) true).2.isSome := by
      rw [FaultMemory, hfind]
      constructor
      · intro hmem
        have hmem := hmem v rfl
        rw [if_neg (by rw [hcow]; exact Bool.false_ne_true)] at hmem
        exact hmem v hfind h0
      · rintro hwalk _ ⟨⟩
        rw [if_neg (by rw [hcow]; exact Bool.false_ne_true)]
        intro u hu _
        obtain rfl := Option.some.inj (hfind.symm.trans hu)
        exact hwalk
    obtain ⟨hal, hfresh, h₁, hsame⟩ := h.allocFilled
      (filePage s.vm.allocPage.2.mem v ((badaddr &&& ~~~4095) - v.start)) h0
    have hpage := toNat_page badaddr
    rw [mapPagesAt_page _ _ _ _ (by omega)] at hmap
    cases hmap
    have huser : UserVa (badaddr &&& ~~~4095) := userVa_of_lt (by omega)
    have hindex := leafIndex_page badaddr
    rw [hmemory]
    generalize s.vm.allocPage.2.setPage s.vm.allocPage.1
      (filePage s.vm.allocPage.2.mem v ((badaddr &&& ~~~4095) - v.start)) = vm₁ at *
    have hnone₁ : leafAt 256 vm₁.mem p.pgd (leafIndex badaddr) = none :=
      (congrFun (hsame p hp).leaf _).trans hnone
    rcases mapPage (s := { s with vm := vm₁ }) h₁ hfresh hal huser (by rw [hindex]; exact hnone₁) hv
      (by rwa [hindex]) with ⟨hwalk, -, hleaf⟩ | ⟨-, hleaf⟩
    · refine iff_of_false ?_ fun hsome => ?_
      · rintro ⟨w, hw, -⟩
        dsimp only at hleaf
        rw [hleaf, hnone₁] at hw
        cases hw
      · exact absurd hwalk (Option.isSome_iff_ne_none.1 hsome)
    · dsimp only at hleaf
      rw [hindex] at hleaf
      refine iff_of_true ?_ ?_
      · refine ⟨entryOf s.vm.allocPage.1 (pteProt v.prot), ?_,
          flagsOf_access (flagsOf_entryOf hal) hc hok fun hcause => ?_⟩
        · rw [hleaf, Function.update_self]
          rfl
        · rw [hasFlag_entryOf_w]
          exact hasFlag_pteProt_w (by simpa [permissionOk, hcause] using hok)
      · -- without a table nothing would be mapped
        by_contra hno
        obtain ⟨-, hgrown, -⟩ := pagewalk_spec h₁.owned.spaces huser
        rw [Option.not_isSome_iff_eq_none] at hno
        have hmap : Mmu.mapPage vm₁ p.pgd (badaddr &&& ~~~4095) (s.vm.allocPage.1 - pageOffset)
            (pteProt v.prot) = (pagewalk vm₁ p.pgd (badaddr &&& ~~~4095) true).1 := by
          rw [Mmu.mapPage]
          rcases hwalk : pagewalk vm₁ p.pgd (badaddr &&& ~~~4095) true with ⟨vm₂, _ | e⟩
          · rfl
          · rw [hwalk] at hno
            cases hno
        have hsome := congrFun hleaf (leafIndex badaddr)
        rw [Function.update_self, hmap] at hsome
        have hsame := congrFun hgrown.leaf (leafIndex badaddr)
        dsimp only at hsame
        rw [hsome, hnone₁] at hsame
        cases hsame

end Inv

/-- **Page faults make progress.** In a state of a run, a fault of an access that is not permitted
is resolved exactly if the address is in a region that permits it and there is a page for it. After
a fault that is resolved the access is permitted, exactly if there was memory for a copy or for page
tables. -/
theorem pageFault_progress (h₀ : Booted s₀) (h : Reaches s₀ s) (hp : p ∈ s.procs)
    (hc : IsPageFault cause) (hn : ¬ Permitted s.vm.mem p.pgd cause badaddr) :
    ∃ vm', pageFault s.vm p cause badaddr = some (vm', decide (Resolvable s.vm p cause badaddr)) ∧
      (Resolvable s.vm p cause badaddr →
        (Permitted vm'.mem p.pgd cause badaddr ↔ FaultMemory s.vm p cause badaddr)) := by
  obtain ⟨lost, opened, hinv⟩ := h.inv h₀.inv
  obtain ⟨rest, -, hinv⟩ := hinv.mem hp
  obtain ⟨vm', hf⟩ : ∃ vm', pageFault s.vm p cause badaddr =
      some (vm', decide (Resolvable s.vm p cause badaddr)) := hinv.pageFault_handled
  refine ⟨vm', hf, fun hr => ?_⟩
  rw [decide_eq_true hr] at hf
  exact hinv.pageFault_permits hc hn hf

/-- A page of the stack is shared with a child, which has not written to it yet. -/
theorem pageFault_progress_shared : ∃ s p vm',
    sixteenPages.soundRun (stackStored ++ [.fork firstThread, .checkSignals firstThread]) = some s ∧
    s.proc childThread = some p ∧ ¬ Permitted s.vm.mem p.pgd 15 stackWord ∧
    pageFault s.vm p 15 stackWord = some (vm', decide (Resolvable s.vm p 15 stackWord)) ∧
    (Resolvable s.vm p 15 stackWord →
      (Permitted vm'.mem p.pgd 15 stackWord ↔ FaultMemory s.vm p 15 stackWord)) := by
  have hrun : ((sixteenPages.soundRun
      (stackStored ++ [.fork firstThread, .checkSignals firstThread])).bind
      fun s => (s.proc childThread).map fun p => decide (¬ Permitted s.vm.mem p.pgd 15 stackWord)) =
        some true := by decide +kernel
  obtain ⟨s, hs, hrun⟩ := Option.bind_eq_some_iff.1 hrun
  obtain ⟨p, hp, hn⟩ := Option.map_eq_some_iff.1 hrun
  have hn := of_decide_eq_true hn
  obtain ⟨vm', hf, hiff⟩ := pageFault_progress booted_sixteenPages (reaches_soundRun hs)
    (List.mem_of_find?_eq_some hp) (.inr (.inr rfl)) hn
  exact ⟨s, p, vm', hs, hp, hn, hf, hiff⟩

end BareMetalOS.Process
