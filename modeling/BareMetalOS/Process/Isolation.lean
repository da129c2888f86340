import BareMetalOS.Process.Effects
import BareMetalOS.Process.Frames

/-!
# Isolation

No step of a process changes another process or what it reads: its regions, its mappings in the user
half and the contents of its frames stay as they are, whatever is shared copy-on-write
(`isolated_of_reaches`).
-/

namespace BareMetalOS.Process

open Memory (Addr)
open Mmu Sched Trap Files

variable {g : Ground} {s s₀ s' : Sys} {vm' : Vm} {p p' q : Proc} {rest : List Proc}
  {lost : Addr → ℕ} {opened : List Addr} {a va : Addr} {op : Op}

/-- The process that makes the step. -/
def Op.actor : Op → Option Addr
  | .launch .. | .kernelAlloc .. | .kernelFree .. => none
  | .trap a _ | .fault a _ _ | .store a _ _ _ | .fork a | .exec a _ _ | .mmap a _ _ _ _
  | .openFile a _ _ | .closeFile a _ | .signal a _ _ | .sigreturn a | .call a _ | .interrupt a
  | .checkSignals a | .pend a _ | .exit a | .stop a _ | .reap a => some a

/-- The processes that do not make the step. -/
def Sys.bystanders (s : Sys) (op : Op) : List Proc := op.actor.elim s.procs s.others

/-- What a step leaves alone. -/
structure Isolated (s s' : Sys) (op : Op) : Prop where
  procs : ∀ q ∈ s.bystanders op, q ∈ s'.procs
  effect : Effect s.vm s'.vm (s.bystanders op)

/-- The processes with another address do not make the step. -/
theorem mem_bystanders (hq : q ∈ s.procs) (hne : op.actor ≠ some q.addr) : q ∈ s.bystanders op := by
  rw [Sys.bystanders]
  cases hop : op.actor with
  | none => exact hq
  | some a =>
    rw [hop] at hne
    apply (List.mem_eraseP_of_neg _).2 hq
    simpa [eq_comm] using fun h => hne (congrArg some h)

/-! ## The addresses of the threads -/

/-- The structs of the threads are blocks of the allocator, at different addresses. -/
theorem Inv.nodup_addr (h : Inv g s lost opened) : (s.procs.map Proc.addr).Nodup := by
  have hnd := h.owned.nodup
  rw [allBlocks, List.map_append, List.map_flatMap] at hnd
  have hsub : ∀ l : List Proc, (l.map Proc.addr).Sublist
      (l.flatMap fun p => p.blocks.map Prod.fst) := by
    intro l
    induction l with
    | nil => exact .slnil
    | cons p l ih =>
      rw [List.map_cons, List.flatMap_cons, Proc.blocks, List.map_cons]
      exact (ih.trans (List.sublist_append_right _ _)).cons_cons p.addr
  exact (List.nodup_append.1 hnd).1.sublist (hsub s.procs)

theorem addr_of_proc (hp : s.proc a = some p) : p.addr = a := by
  simpa using List.find?_some hp

/-- The other processes have other addresses. -/
theorem Inv.addr_ne_of_others (h : Inv g s lost opened) (hp : s.proc a = some p)
    (hq : q ∈ s.others a) : q.addr ≠ a := by
  have hnd := ((perm_of_proc hp).map Proc.addr).nodup_iff.1 h.nodup_addr
  rw [List.map_cons, List.nodup_cons, addr_of_proc hp] at hnd
  rintro rfl
  exact hnd.1 (List.mem_map_of_mem hq)

namespace Inv

/-! ## Steps -/

/-- A user store. -/
theorem effect_store (h : Inv g { s with procs := p :: rest } lost opened) (hva : va.toNat < 2 ^ 38)
    {e : Addr × Fin 512} (he : entryAt s.vm p.pgd va = some e)
    (hv : HasFlag (s.vm.mem e.1 e.2) pteV)
    (hw : HasFlag (s.vm.mem e.1 e.2) pteW) (i : Fin 512) (word : BitVec 64) :
    Effect s.vm (s.vm.store (frameAt (s.vm.mem e.1 e.2)) i word) rest ∧
      ∃ c, contents s.vm.mem p.pgd (leafIndex va) = some c ∧
        contents (s.vm.store (frameAt (s.vm.mem e.1 e.2)) i word).mem p.pgd =
          Function.update (contents s.vm.mem p.pgd) (leafIndex va)
            (some (Function.update c i word)) := by
  have hp : p ∈ p :: rest := List.mem_cons_self ..
  obtain ⟨-, -, hleaf⟩ := leafAt_of_entryAt (userVa_of_lt hva) he hv
  have hmapped : mapped s.vm.mem p.pgd (leafIndex va) = some (frameAt (s.vm.mem e.1 e.2)) := by
    rw [mapped, hleaf]
    rfl
  have hone := h.writable p hp _ _ hleaf hw
  obtain ⟨heffect, hcontents⟩ := effect_writeFrame h.owned.spaces hmapped hone
    (Function.update (s.vm.mem (frameAt (s.vm.mem e.1 e.2))) i word)
  refine ⟨heffect, _, ?_, hcontents⟩
  rw [contents, hmapped]
  rfl

/-- `check_signals`. -/
theorem effect_checkSignals (h : Inv g { s with procs := p :: rest } lost opened)
    (hroom : deliverable p.task → SignalRoom s.vm p)
    (hc : Process.checkSignals s.vm s.stub p = some (vm', p')) : Effect s.vm vm' rest := by
  rw [Process.checkSignals] at hc
  split at hc
  · rename_i hd _
    exact (h.effect_deliver (hroom hd) hc).1
  · obtain ⟨rfl, rfl⟩ := Prod.mk.inj (Option.some.inj hc)
    exact (AllocOnly.refl h.owned.spaces.owns.inv).effect rest

/-- A step leaves the other processes alone. -/
theorem isolated (h : Inv g s lost opened) (hsound : Sound s op) (hs : s.step op = some s') :
    Isolated s s' op := by
  have hinv := h.owned.spaces.owns.inv
  have hrefl : ∀ l, Effect s.vm s.vm l := (AllocOnly.refl hinv).effect
  cases op with
  | launch dat size =>
    rw [Sys.step] at hs
    split_ifs at hs
    obtain ⟨⟨vm', p⟩, hl, rfl⟩ := Option.map_eq_some_iff.1 hs
    exact ⟨fun q hq => List.mem_cons_of_mem _ hq, (h.effect_launch hl).1⟩
  | trap a regs =>
    obtain ⟨p, hp, -, hs⟩ := withAlive_eq hs
    split_ifs at hs
    obtain rfl := Option.some.inj hs
    exact ⟨fun q hq => List.mem_cons_of_mem _ hq, hrefl _⟩
  | fault a cause badaddr =>
    obtain ⟨p, hp, -, hs⟩ := withAlive_eq hs
    obtain ⟨⟨vm', handled⟩, hf, rfl⟩ := Option.map_eq_some_iff.1 hs
    exact ⟨fun q hq => List.mem_cons_of_mem _ hq,
      ((h.proc hp).effect_pageFault hsound.1 (hsound.2 p hp) hf).1⟩
  | store a va i word =>
    obtain ⟨p, hp, -, hs⟩ := withAlive_eq hs
    obtain ⟨e, he, hs⟩ := Option.bind_eq_some_iff.1 hs
    dsimp only at hs
    split_ifs at hs with hflags
    obtain rfl := Option.some.inj hs
    exact ⟨fun q hq => List.mem_cons_of_mem _ hq,
      ((h.proc hp).effect_store hflags.1 he hflags.2.1 hflags.2.2.2 i word).1⟩
  | fork a =>
    obtain ⟨p, hp, -, -, hs⟩ := syscall_eq hs
    obtain ⟨⟨s₁, ret⟩, hf, rfl⟩ := Option.map_eq_some_iff.1 hs
    obtain ⟨hsig, hnodes⟩ := hsound p hp
    obtain ⟨heffect, -, hprocs⟩ := (h.proc hp).effect_fork hnodes hf
    refine ⟨fun q hq => ?_, heffect⟩
    have hq' : q ∈ s₁.procs := by
      rcases hprocs with hprocs | ⟨c, hprocs, -⟩
      · rw [hprocs]
        exact List.mem_cons_of_mem _ hq
      · rw [hprocs]
        exact List.mem_cons_of_mem _ (List.mem_cons_of_mem _ hq)
    exact List.mem_map.2 ⟨q, hq', if_neg (h.addr_ne_of_others hp hq)⟩
  | exec a dat size =>
    obtain ⟨p, hp, -, -, hs⟩ := syscall_eq hs
    obtain ⟨⟨vm', p'⟩, he, rfl⟩ := Option.map_eq_some_iff.1 hs
    exact ⟨fun q hq => List.mem_cons_of_mem _ hq, ((h.proc hp).effect_exec he).1⟩
  | mmap a addr length prot flags =>
    obtain ⟨p, hp, -, -, hs⟩ := syscall_eq hs
    obtain ⟨r, hr, rfl⟩ := Option.map_eq_some_iff.1 hs
    exact ⟨fun q hq => List.mem_cons_of_mem _ hq, ((h.proc hp).effect_sysMmap
      (fun start h0 hstart => hsound p hp h0 start hstart) hr).1⟩
  | openFile a vnode flags =>
    obtain ⟨p, hp, -, -, hs⟩ := syscall_eq hs
    obtain ⟨⟨vm', files', fdt, fd⟩, ho, rfl⟩ := Option.map_eq_some_iff.1 hs
    exact ⟨fun q hq => List.mem_cons_of_mem _ hq, (AllocOnly.sysOpen hinv ho).effect _⟩
  | closeFile a fd =>
    obtain ⟨p, hp, -, -, hs⟩ := syscall_eq hs
    obtain ⟨⟨vm', files', fdt, ret⟩, hc, rfl⟩ := Option.map_eq_some_iff.1 hs
    exact ⟨fun q hq => List.mem_cons_of_mem _ hq, (AllocOnly.sysClose hinv hc).effect _⟩
  | signal a signum handler =>
    obtain ⟨p, hp, -, -, hs⟩ := syscall_eq hs
    dsimp only at hs
    split_ifs at hs
    · obtain rfl := Option.some.inj hs
      exact ⟨fun q hq => List.mem_cons_of_mem _ hq, hrefl _⟩
    · obtain rfl := Option.some.inj hs
      exact ⟨fun q hq => List.mem_cons_of_mem _ hq, hrefl _⟩
  | sigreturn a =>
    obtain ⟨p, hp, -, -, hs⟩ := syscall_eq hs
    obtain rfl := Option.some.inj hs
    exact ⟨fun q hq => List.mem_cons_of_mem _ hq, (h.proc hp).effect_sigreturn.1⟩
  | call a ret =>
    obtain ⟨p, hp, -, -, hs⟩ := syscall_eq hs
    obtain rfl := Option.some.inj hs
    exact ⟨fun q hq => List.mem_cons_of_mem _ hq, hrefl _⟩
  | interrupt a =>
    obtain ⟨p, hp, -, -, hs⟩ := syscall_eq hs
    obtain rfl := Option.some.inj hs
    exact ⟨fun q hq => List.mem_cons_of_mem _ hq, hrefl _⟩
  | checkSignals a =>
    obtain ⟨p, hp, -, hs⟩ := withAlive_eq hs
    split_ifs at hs
    obtain ⟨⟨vm', p'⟩, hc, rfl⟩ := Option.map_eq_some_iff.1 hs
    exact ⟨fun q hq => List.mem_cons_of_mem _ hq, (h.proc hp).effect_checkSignals (hsound p hp) hc⟩
  | pend a signum =>
    obtain ⟨p, hp, -, hs⟩ := withAlive_eq hs
    split_ifs at hs
    obtain rfl := Option.some.inj hs
    exact ⟨fun q hq => List.mem_cons_of_mem _ hq, hrefl _⟩
  | exit a =>
    obtain ⟨p, hp, -, -, hs⟩ := syscall_eq hs
    obtain ⟨⟨vm', files'⟩, hc, rfl⟩ := Option.map_eq_some_iff.1 hs
    exact ⟨fun q hq => List.mem_cons_of_mem _ hq, (AllocOnly.closeFiles _ hinv hc).effect _⟩
  | stop a status =>
    obtain ⟨p, hp, -, hs⟩ := withAlive_eq hs
    split_ifs at hs
    obtain rfl := Option.some.inj hs
    exact ⟨fun q hq => List.mem_cons_of_mem _ hq, hrefl _⟩
  | reap a =>
    rw [Sys.step] at hs
    obtain ⟨p, hp, hs⟩ := withProc_eq hs
    split_ifs at hs
    obtain ⟨⟨vm', files'⟩, hc, rfl⟩ := Option.map_eq_some_iff.1 hs
    have h₁ := AllocOnly.closeFiles _ hinv hc
    exact ⟨fun q hq => hq, (h₁.trans (.reap h₁.withheld.inv _ p)).effect _⟩
  | kernelAlloc size =>
    obtain rfl := Option.some.inj hs
    exact ⟨fun q hq => hq, (AllocOnly.allocBytes hinv size).effect _⟩
  | kernelFree x k =>
    rw [Sys.step] at hs
    split_ifs at hs
    obtain rfl := Option.some.inj hs
    exact ⟨fun q hq => hq, (AllocOnly.freePage hinv x).effect _⟩

end Inv

/-- **Isolation.** In a run, a step of one process leaves every other process as it is, with its
mappings in the user half and the contents of its frames. -/
theorem isolated_of_reaches (h₀ : Booted s₀) (h : Reaches s₀ s) (hsound : Sound s op)
    (hs : s.exec op = some s') (hq : q ∈ s.procs) (hne : op.actor ≠ some q.addr) :
    q ∈ s'.procs ∧ Unseen s.vm.mem s'.vm.mem q.pgd := by
  obtain ⟨lost, opened, hinv⟩ := h.inv h₀.inv
  obtain ⟨hprocs, heffect⟩ := hinv.isolated hsound (step_of_exec hs)
  exact ⟨hprocs q (mem_bystanders hq hne), heffect.others q (mem_bystanders hq hne)⟩

/-- The child of a process that has forked. -/
def childThread : Addr := 0xffffffc080001800

/-- The page of the stack is shared with a child, which is about to write to it. -/
def stackShared : List Op :=
  stackStored ++ [.fork firstThread, .checkSignals firstThread, .fault childThread 15 stackWord]

/-- The child writes to its copy, and its parent does not notice. -/
theorem isolated_of_reaches_stack : ∃ s s' q, sixteenPages.soundRun stackShared = some s ∧
    s.exec (.store childThread stackWord 511 8) = some s' ∧ s.proc firstThread = some q ∧
    q ∈ s'.procs ∧ Unseen s.vm.mem s'.vm.mem q.pgd := by
  have hrun : ((sixteenPages.soundRun stackShared).bind fun s =>
      (s.exec (.store childThread stackWord 511 8)).bind fun s' =>
        (s.proc firstThread).map fun q => decide (q.addr ≠ childThread)) = some true := by
    decide +kernel
  obtain ⟨s, hs, hrun⟩ := Option.bind_eq_some_iff.1 hrun
  obtain ⟨s', hs', hrun⟩ := Option.bind_eq_some_iff.1 hrun
  obtain ⟨q, hq, hne⟩ := Option.map_eq_some_iff.1 hrun
  have hsound : Sound s (.store childThread stackWord 511 8) := trivial
  refine ⟨s, s', q, hs, hs', hq,
    isolated_of_reaches booted_sixteenPages (reaches_soundRun hs) hsound hs'
    (List.mem_of_find?_eq_some hq) fun heq => ?_⟩
  exact of_decide_eq_true hne (Option.some.inj heq).symm

end BareMetalOS.Process
