import BareMetalOS.Process.Runs

/-!
# The frames of signal stacks

The frame of a signal stack is known in two places, the entry of the page table and
`signal_stack_page`. In every run of sound steps both are the same frame and no other page table
maps it, so that `sys_sigreturn` frees exactly the frame that it unmaps (`signalFrame_of_reaches`).
A handler that starts another program has its frame freed with the old page table, and
`signal_stack_page` still points to it (`not_signalFrame_exec`).
-/

namespace BareMetalOS.Process

open Memory (Addr blocks pageSize)
open Mmu Sched Trap Files

variable {g : Ground} {s s₀ : Sys} {p q : Proc} {rest : List Proc} {lost : Addr → ℕ}
  {opened : List Addr} {x : Leaf} {f : Addr}

/-- The signal stack of a process that handles a signal, and what `sys_sigreturn` makes of it. -/
structure SignalFrame (s : Sys) (p : Proc) : Prop where
  mapped : mapped s.vm.mem p.pgd (leafIndex p.signalStackVaddr) = some p.signalStackPage
  alone : ∀ q ∈ s.procs, q.pgd ≠ p.pgd → ∀ x, Mmu.mapped s.vm.mem q.pgd x ≠ some p.signalStackPage
  /-- the frame is unmapped -/
  unmaps : Mmu.mapped (sysSigreturn s.vm p).1.mem p.pgd =
    Function.update (Mmu.mapped s.vm.mem p.pgd) (leafIndex p.signalStackVaddr) none
  /-- nothing else is -/
  others : ∀ q ∈ s.procs, q.pgd ≠ p.pgd →
    Mmu.mapped (sysSigreturn s.vm p).1.mem q.pgd = Mmu.mapped s.vm.mem q.pgd
  /-- the frame is freed, and so is the structure of its region -/
  frees : ∃ v ∈ p.vmas, v.start = p.signalStackVaddr ∧ blocks (sysSigreturn s.vm p).1.alloc =
    Function.update (Function.update (blocks s.vm.alloc) p.signalStackPage none) v.node none
  /-- what is mapped is not free -/
  kept : ∀ q ∈ s.procs, ∀ x f, Mmu.mapped (sysSigreturn s.vm p).1.mem q.pgd x = some f →
    blocks (sysSigreturn s.vm p).1.alloc f ≠ none

/-- A frame with one reference is mapped by one page table. -/
theorem mapped_ne_of_refsAll (hp : p ∈ s.procs) (hq : q ∈ s.procs) (hne : q.pgd ≠ p.pgd)
    (hmapped : mapped s.vm.mem p.pgd x = some f) (hone : refsAll s.vm.mem (pgds s.procs) f = 1)
    (y : Leaf) : mapped s.vm.mem q.pgd y ≠ some f := by
  intro hy
  have hperm := refsAll_perm (m := s.vm.mem) (List.perm_cons_erase (mem_pgds hp))
  have hin : q.pgd ∈ (pgds s.procs).erase p.pgd := (List.mem_erase_of_ne hne).2 (mem_pgds hq)
  have hle : refsIn s.vm.mem q.pgd f ≤ refsAll s.vm.mem ((pgds s.procs).erase p.pgd) f :=
    refsIn_le_refsAll hin
  have hposp := refsIn_pos_of_mapped hmapped
  have hposq := refsIn_pos_of_mapped hy
  rw [hperm, refsAll_cons, Pi.add_apply] at hone
  omega

/-- The signal stacks where the invariant holds. -/
theorem Inv.signalFrame_all (h : Inv g s lost opened) (hp : p ∈ s.procs)
    (hsig : p.task.isHandlingSignal = true) : SignalFrame s p := by
  obtain ⟨hstack, hpage, hmapped, hone⟩ := h.signalFrame hp hsig
  obtain ⟨rest, hperm, h₁⟩ := h.mem hp
  have h₂ := h₁.sigreturn hsig
  obtain ⟨v, pt, hv, hfind, hstart, -, hpt, hres⟩ := sysSigreturn_eq (h.regions p hp) hstack hpage
  have hmem : (sysSigreturn s.vm p).1.mem = (s.vm.store pt (vpn p.signalStackVaddr 12) 0).mem := by
    rw [hres]
    rfl
  have hspaces : Spaces s.vm (p.pgd :: pgds rest) _ _ := h₁.owned.spaces
  have hleaf := ((hspaces.tree (List.mem_cons_self ..)).apart.store_leaf hpt
    (vpn p.signalStackVaddr 12) 0).2.2
  have hunmaps : mapped (sysSigreturn s.vm p).1.mem p.pgd =
      Function.update (mapped s.vm.mem p.pgd) (leafIndex p.signalStackVaddr) none := by
    rw [hmem]
    exact (mapped_update hleaf).trans (by rw [validEntry_zero]; rfl)
  refine ⟨hmapped, fun q hq hne => mapped_ne_of_refsAll hp hq hne hmapped hone, hunmaps,
    fun q hq hne => ?_, ⟨v, hv, hstart, ?_⟩, fun q hq y f hy => ?_⟩
  · have hq' : q ∈ rest := by
      rcases List.mem_cons.1 (hperm.mem_iff.1 hq) with rfl | hq'
      · exact absurd rfl hne
      · exact hq'
    rw [hmem]
    exact (hspaces.sameSpace_store (isTable_pt hpt) (mem_pgds hq')).mapped
  · have hb : blocks s.vm.alloc p.signalStackPage = some (pageSize, 1) := by
      obtain ⟨w, hw, hframe, -⟩ := hstack.entry
      have hb := h.blocks_frame hp hw
      rw [hframe, hone] at hb
      exact hb
    have howned := h₁.sigreturn_owned hmapped hpt hfind
    have hfree := Memory.free_blocks h.owned.spaces.owns.inv h.owned.spaces.owns.real hb
    rw [if_pos rfl] at hfree
    have hfree' := Memory.free_blocks howned.spaces.owns.inv howned.spaces.owns.real
      (howned.blocks_of_mem (List.mem_cons_self ..))
    rw [if_pos rfl] at hfree'
    rw [hres, ← hfree]
    exact hfree'
  · obtain ⟨w, hw, rfl⟩ := Option.map_eq_some_iff.1 hy
    rcases List.mem_cons.1 (hperm.mem_iff.1 hq) with rfl | hq'
    · have hpgd : (sysSigreturn s.vm q).2.pgd = q.pgd := by rw [hres]
      rw [← hpgd] at hw
      exact Option.ne_none_iff_exists'.2 ⟨_, h₂.blocks_frame (List.mem_cons_self ..) hw⟩
    · exact Option.ne_none_iff_exists'.2 ⟨_, h₂.blocks_frame (List.mem_cons_of_mem _ hq') hw⟩

/-- **Signal stacks.** In every run of sound steps, a process that handles a signal has its signal
stack mapped, no other process maps the frame, and `sys_sigreturn` frees exactly this frame. -/
theorem signalFrame_of_reaches (h₀ : Booted s₀) (h : Reaches s₀ s) (hp : p ∈ s.procs)
    (hsig : p.task.isHandlingSignal = true) : SignalFrame s p := by
  obtain ⟨lost, opened, hinv⟩ := h.inv h₀.inv
  exact hinv.signalFrame_all hp hsig

/-- A program handles a signal. -/
theorem signalFrame_of_reaches_handler : ∃ s p, sixteenPages.soundRun handlerStarts = some s ∧
    s.proc firstThread = some p ∧ p.task.isHandlingSignal = true ∧ SignalFrame s p := by
  have hrun : ((sixteenPages.soundRun handlerStarts).bind fun s =>
      (s.proc firstThread).map fun p => p.task.isHandlingSignal) = some true := by
    decide +kernel
  obtain ⟨s, hs, hrun⟩ := Option.bind_eq_some_iff.1 hrun
  obtain ⟨p, hp, hsig⟩ := Option.map_eq_some_iff.1 hrun
  exact ⟨s, p, hs, hp, hsig, signalFrame_of_reaches booted_sixteenPages (reaches_soundRun hs)
    (List.mem_of_find?_eq_some hp) hsig⟩

theorem Inv.proc_exec_unmapped {a dat : Addr} {size : BitVec 32} (h : Inv g s lost opened)
    {s' : Sys} (hs : s.step (.exec a dat size) = some s') (hp : s'.proc a = some p) (x : Leaf) :
    Mmu.mapped s'.vm.mem p.pgd x = none := by
  obtain ⟨p₀, hp₀, -, -, hs⟩ := syscall_eq hs
  obtain ⟨⟨vm', p'⟩, he, rfl⟩ := Option.map_eq_some_iff.1 hs
  have haddr : p₀.addr = a := by simpa using List.find?_some hp₀
  have haddr' : p'.addr = p₀.addr := by
    obtain ⟨_, -, he⟩ := Option.bind_eq_some_iff.1 he
    obtain ⟨_, -, he⟩ := Option.bind_eq_some_iff.1 he
    rw [← (Prod.mk.inj (Option.some.inj he)).2]
  have hfirst : p = p'.returns 0 := by
    rw [Sys.proc, List.find?_cons_of_pos] at hp
    · exact (Option.some.inj hp).symm
    · exact decide_eq_true (haddr'.trans haddr)
  rw [hfirst]
  exact (h.proc hp₀).exec_unmapped he x

/-- A handler that calls `sys_exec`: the process still handles the signal, and its signal stack is
not mapped. -/
theorem not_signalFrame_exec : ∃ s p, Booted sixteenPages ∧
    sixteenPages.run (handlerStarts ++
      [.trap firstThread (trapRegs firstThread), .exec firstThread 0 0x1000]) = some s ∧
    p ∈ s.procs ∧ p.task.isHandlingSignal = true ∧ ¬ SignalFrame s p := by
  have hrun : ((sixteenPages.soundRun (handlerStarts ++
      [.trap firstThread (trapRegs firstThread)])).bind fun s₁ =>
      (s₁.exec (.exec firstThread 0 0x1000)).bind fun s =>
      (s.proc firstThread).map fun p => p.task.isHandlingSignal) = some true := by
    decide +kernel
  obtain ⟨s₁, hs₁, hrun⟩ := Option.bind_eq_some_iff.1 hrun
  obtain ⟨s, hs, hrun⟩ := Option.bind_eq_some_iff.1 hrun
  obtain ⟨p, hp, hsig⟩ := Option.map_eq_some_iff.1 hrun
  obtain ⟨lost, opened, hinv⟩ := (reaches_soundRun hs₁).inv booted_sixteenPages.inv
  have hall : sixteenPages.run (handlerStarts ++ [.trap firstThread (trapRegs firstThread),
      .exec firstThread 0 0x1000]) = some s := by
    have happ : handlerStarts ++ [.trap firstThread (trapRegs firstThread),
        .exec firstThread 0 0x1000] =
        (handlerStarts ++ [.trap firstThread (trapRegs firstThread)]) ++
        [.exec firstThread 0 0x1000] := rfl
    rw [happ, Sys.run, List.foldlM_append]
    exact Option.bind_eq_some_iff.2 ⟨s₁, run_of_soundRun hs₁, by rw [List.foldlM_cons, hs]; rfl⟩
  refine ⟨s, p, booted_sixteenPages, hall, List.mem_of_find?_eq_some hp, hsig, fun hframe => ?_⟩
  have hnone := hinv.proc_exec_unmapped (step_of_exec hs) hp (leafIndex p.signalStackVaddr)
  rw [hframe.mapped] at hnone
  cases hnone

end BareMetalOS.Process
