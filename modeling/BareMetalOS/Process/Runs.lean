import BareMetalOS.Process.Handles
import BareMetalOS.Process.Programs
import BareMetalOS.Process.SignalStack

/-!
# Runs of the processes

`Sound` says of a step what the kernel does not check. Regions of `sys_mmap` are in the user half,
the sizes of programs are not negative, page faults come from accesses that the page table does not
permit, a process neither forks nor starts another program while it handles a signal, the list of
regions is copied whole, and a signal stack is in the user half with memory for its tables. The
invariant holds in every state of a run of such steps (`Reaches.inv`).
-/

namespace BareMetalOS.Process

open Memory (Addr blocks blockBytes pageSize)
open Mmu Sched Trap Files

variable {g : Ground} {s s' s'' : Sys} {vm' : Vm} {p p' : Proc} {rest : List Proc}
  {lost lost' : Addr → ℕ} {opened : List Addr} {a : Addr} {op : Op}

/-! ## Steps -/

/-- What the kernel relies on. -/
def Sound (s : Sys) : Op → Prop
  | .launch _ size => 0 ≤ size.toInt
  | .fault a cause badaddr => IsPageFault cause ∧
    ∀ p ∈ s.proc a, ¬ Permitted s.vm.mem p.pgd cause badaddr
  | .fork a => ∀ p ∈ s.proc a, p.task.isHandlingSignal = false ∧ ForkNodes s p
  | .exec a _ size => 0 ≤ size.toInt ∧ ∀ p ∈ s.proc a, p.task.isHandlingSignal = false
  | .mmap a addr length _ _ => ∀ p ∈ s.proc a, roundLength length ≠ 0 →
    ∀ start ∈ mmapStart p.vmas addr (roundLength length),
      start.toNat + (roundLength length).toNat ≤ 2 ^ 38
  | .checkSignals a => ∀ p ∈ s.proc a, deliverable p.task → SignalRoom s.vm p
  | _ => True

instance (s : Sys) (op : Op) : Decidable (Sound s op) :=
  match op with
  | .launch _ size => inferInstanceAs (Decidable (0 ≤ size.toInt))
  | .fault a cause badaddr =>
    inferInstanceAs (Decidable ((cause = 12 ∨ cause = 13 ∨ cause = 15) ∧ ∀ p ∈ s.proc a,
      ¬ Permitted s.vm.mem p.pgd cause badaddr))
  | .fork a =>
    inferInstanceAs (Decidable (∀ p ∈ s.proc a, p.task.isHandlingSignal = false ∧ ForkNodes s p))
  | .exec a _ size =>
    inferInstanceAs (Decidable (0 ≤ size.toInt ∧ ∀ p ∈ s.proc a, p.task.isHandlingSignal = false))
  | .mmap a addr length _ _ =>
    have (p : Proc) : Decidable (∀ start ∈ mmapStart p.vmas addr (roundLength length),
        start.toNat + (roundLength length).toNat ≤ 2 ^ 38) := Option.decidableForallMem _
    inferInstanceAs (Decidable (∀ p ∈ s.proc a, roundLength length ≠ 0 →
      ∀ start ∈ mmapStart p.vmas addr (roundLength length),
        start.toNat + (roundLength length).toNat ≤ 2 ^ 38))
  | .checkSignals a =>
    inferInstanceAs (Decidable (∀ p ∈ s.proc a, deliverable p.task → SignalRoom s.vm p))
  | .trap .. | .store .. | .openFile .. | .closeFile .. | .signal .. | .sigreturn .. | .call ..
  | .interrupt .. | .pend .. | .exit .. | .stop .. | .reap .. | .kernelAlloc .. | .kernelFree .. =>
    .isTrue trivial

/-- `map_pages_at` finds the tables or the memory for them. -/
def TablesFound (s : Sys) : Op → Prop
  | .fault a _ badaddr => ∀ p ∈ s.proc a, FaultTables s.vm p badaddr
  | .mmap a addr length prot flags => ∀ p ∈ s.proc a, MmapTables s.vm p addr length prot flags
  | _ => True

instance (s : Sys) (op : Op) : Decidable (TablesFound s op) :=
  match op with
  | .fault a _ badaddr => inferInstanceAs (Decidable (∀ p ∈ s.proc a, FaultTables s.vm p badaddr))
  | .mmap a addr length prot flags =>
    inferInstanceAs (Decidable (∀ p ∈ s.proc a, MmapTables s.vm p addr length prot flags))
  | .launch .. | .trap .. | .store .. | .fork .. | .exec .. | .openFile .. | .closeFile ..
  | .signal .. | .sigreturn .. | .call .. | .interrupt .. | .checkSignals .. | .pend .. | .exit ..
  | .stop .. | .reap .. | .kernelAlloc .. | .kernelFree .. => .isTrue trivial

/-- A step of a run. -/
def SoundStep (s s' : Sys) : Prop := ∃ op, Sound s op ∧ s.exec op = some s'

/-- The runs. -/
def Reaches (s s' : Sys) : Prop := Relation.ReflTransGen SoundStep s s'

theorem withProc_eq {f : Proc → List Proc → Option Sys} (h : s.withProc a f = some s') :
    ∃ p, s.proc a = some p ∧ f p (s.others a) = some s' := Option.bind_eq_some_iff.1 h

theorem withAlive_eq {f : Proc → List Proc → Option Sys} (h : s.withAlive a f = some s') :
    ∃ p, s.proc a = some p ∧ p.isAlive ∧ f p (s.others a) = some s' := by
  obtain ⟨p, hp, h⟩ := withProc_eq h
  split_ifs at h with halive
  exact ⟨p, hp, halive, h⟩

theorem syscall_eq {f : Proc → List Proc → Option Sys} (h : s.syscall a f = some s') :
    ∃ p, s.proc a = some p ∧ p.isAlive ∧ p.mode = .kernel ∧ f p (s.others a) = some s' := by
  obtain ⟨p, hp, halive, h⟩ := withAlive_eq h
  split_ifs at h with hmode
  exact ⟨p, hp, halive, hmode, h⟩

theorem step_of_exec (h : s.exec op = some s') : s.step op = some s' := by
  rw [Sys.exec] at h
  split_ifs at h
  exact h

theorem perm_of_proc (h : s.proc a = some p) : s.procs.Perm (p :: s.others a) := perm_of_find h

/-- Two processes with the same memory and files. -/
structure Alike (p p' : Proc) : Prop where
  addr : p'.addr = p.addr
  kernelStack : p'.kernelStack = p.kernelStack
  pgd : p'.pgd = p.pgd
  vmas : p'.vmas = p.vmas
  fdt : p'.fdt = p.fdt
  handling : p'.task.isHandlingSignal = p.task.isHandlingSignal
  page : p'.signalStackPage = p.signalStackPage
  vaddr : p'.signalStackVaddr = p.signalStackVaddr

theorem Alike.refl (p : Proc) : Alike p p := ⟨rfl, rfl, rfl, rfl, rfl, rfl, rfl, rfl⟩

theorem alike_returns (p : Proc) (ret : BitVec 64) : Alike p (p.returns ret) :=
  ⟨rfl, rfl, rfl, rfl, rfl, rfl, rfl, rfl⟩

theorem Alike.blocks (h : Alike p p') : p'.blocks = p.blocks := by
  rw [Proc.blocks, Proc.blocks, h.addr, h.kernelStack, h.vmas]

namespace Inv

/-- The process that makes a step is one of them. -/
theorem proc (h : Inv g s lost opened) (hp : s.proc a = some p) :
    Inv g { s with procs := p :: s.others a } lost opened := h.perm (perm_of_proc hp)

/-- Fields of a process change that are not about memory or files. -/
theorem touch (h : Inv g { s with procs := p :: rest } lost opened) (ha : Alike p p') :
    Inv g { s with procs := p' :: rest } lost opened :=
  h.setTask ha.fdt ha.pgd ha.vmas ha.blocks
    ((h.signals p (List.mem_cons_self ..)).congr ha.handling ha.vmas ha.page ha.vaddr)

/-- Fields of processes change that are not about memory or files. -/
theorem touchAll (h : Inv g s lost opened) (f : Proc → Proc) (hf : ∀ p, Alike p (f p)) :
    Inv g { s with procs := s.procs.map f } lost opened := by
  have hpgds : pgds (s.procs.map f) = pgds s.procs := by
    rw [pgds, pgds, List.map_map]
    exact List.map_congr_left fun p _ => (hf p).pgd
  have hblocks : allBlocks (s.procs.map f) opened s.held = allBlocks s.procs opened s.held := by
    rw [allBlocks, allBlocks, List.flatMap_map]
    exact congrArg (· ++ _) (List.flatMap_congr fun p _ => (hf p).blocks)
  have hrefs : fileRefs (s.procs.map f) = fileRefs s.procs := by
    funext a
    rw [fileRefs, fileRefs, List.map_map]
    exact congrArg List.sum (List.map_congr_left fun p _ => congrArg (Fdt.refs · a) (hf p).fdt)
  have hmem : ∀ q ∈ s.procs.map f, ∃ p ∈ s.procs, Alike p q := by
    intro q hq
    obtain ⟨p, hp, rfl⟩ := List.mem_map.1 hq
    exact ⟨p, hp, hf p⟩
  refine ⟨?_, ?_, fun q hq x w hx hw => ?_, fun q hq => ?_, fun q hq => ?_, fun q hq i hi => ?_,
    h.kernel, h.pgd, ?_, h.files.null, h.files.mem⟩
  · dsimp only
    rw [hpgds, hblocks]
    exact h.owned
  · dsimp only
    rw [hpgds]
    exact h.unmapped
  · obtain ⟨p, hp, ha⟩ := hmem q hq
    dsimp only
    rw [hpgds]
    rw [ha.pgd] at hx
    exact h.writable p hp x w hx hw
  · obtain ⟨p, hp, ha⟩ := hmem q hq
    rw [ha.pgd, ha.vmas]
    exact h.regions p hp
  · obtain ⟨p, hp, ha⟩ := hmem q hq
    rw [ha.pgd]
    exact (h.signals p hp).congr ha.handling ha.vmas ha.page ha.vaddr
  · obtain ⟨p, hp, ha⟩ := hmem q hq
    rw [ha.pgd]
    exact h.upper p hp i hi
  · dsimp only
    rw [hrefs]
    exact h.files.counted

/-- `sys_sigreturn`, also of a process that handles no signal. -/
theorem sigreturn_any (h : Inv g { s with procs := p :: rest } lost opened) :
    Inv g { s with vm := (sysSigreturn s.vm p).1, procs := (sysSigreturn s.vm p).2 :: rest }
      lost opened := by
  cases hsig : p.task.isHandlingSignal with
  | true => exact h.sigreturn hsig
  | false =>
    have hpage : p.signalStackPage = 0 :=
      (signalOk_of_not hsig).1 (h.signals p (List.mem_cons_self ..))
    rw [sysSigreturn]
    dsimp only
    rw [if_pos hpage]
    exact h.touch ⟨rfl, rfl, rfl, rfl, rfl, hsig.symm, rfl, rfl⟩

/-- `check_signals`. -/
theorem checkSignals (h : Inv g { s with procs := p :: rest } lost opened)
    (hroom : deliverable p.task → SignalRoom s.vm p)
    (hc : Process.checkSignals s.vm s.stub p = some (vm', p')) :
    Inv g { s with vm := vm', procs := p' :: rest } lost opened := by
  rw [Process.checkSignals] at hc
  split at hc
  · rename_i i hd _
    exact h.deliver (hroom hd) hc
  · obtain ⟨rfl, rfl⟩ := Prod.mk.inj (Option.some.inj hc)
    exact h

/-- The rest of the kernel allocates. -/
theorem kernelAlloc (h : Inv g s lost opened) (size : ℕ)
    (hs : s.step (.kernelAlloc size) = some s') : Inv g s' lost opened := by
  obtain rfl := Option.some.inj hs
  rcases h.owned.allocBlock size with ⟨h0, howned⟩ | ⟨h0, howned⟩
  · rw [if_pos h0]
    exact ⟨howned, h.unmapped, h.writable, h.regions, h.signals, h.upper, h.kernel, h.pgd,
      h.files.counted, h.files.null, h.files.mem⟩
  · rw [if_neg h0]
    refine ⟨howned.perm ?_, h.unmapped, h.writable, h.regions, h.signals, h.upper, h.kernel, h.pgd,
      h.files.counted, h.files.null, h.files.mem⟩
    rw [allBlocks, allBlocks, ← List.append_assoc, ← List.append_assoc]
    exact List.perm_middle.symm

/-- The rest of the kernel frees what it has allocated. -/
theorem kernelFree {x : Addr} {k : ℕ} (h : Inv g s lost opened)
    (hs : s.step (.kernelFree x k) = some s') : Inv g s' lost opened := by
  rw [Sys.step] at hs
  split_ifs at hs with hm
  obtain rfl := Option.some.inj hs
  refine ⟨?_, h.unmapped, h.writable, h.regions, h.signals, h.upper, h.kernel, h.pgd,
    h.files.counted, h.files.null, h.files.mem⟩
  apply (h.owned.perm _).freeBlock
  · exact k
  · rw [allBlocks, allBlocks, ← List.append_assoc, ← List.append_assoc]
    exact ((List.perm_cons_erase hm).append_left _).trans List.perm_middle

/-- A step keeps the invariant. It loses pages only where tables are missing. -/
theorem step_lost (h : Inv g s lost opened) (hsound : Sound s op) (hs : s.step op = some s') :
    ∃ lost' opened', Inv g s' lost' opened' ∧ (TablesFound s op → lost' = lost) := by
  cases op with
  | launch dat size =>
    rw [Sys.step] at hs
    split_ifs at hs
    obtain ⟨⟨vm', p⟩, hl, rfl⟩ := Option.map_eq_some_iff.1 hs
    exact ⟨lost, opened, h.launch hsound hl _, fun _ => rfl⟩
  | trap a regs =>
    obtain ⟨p, hp, -, hs⟩ := withAlive_eq hs
    split_ifs at hs
    obtain rfl := Option.some.inj hs
    exact ⟨lost, opened, (h.proc hp).touch ⟨rfl, rfl, rfl, rfl, rfl, rfl, rfl, rfl⟩, fun _ => rfl⟩
  | fault a cause badaddr =>
    obtain ⟨p, hp, -, hs⟩ := withAlive_eq hs
    obtain ⟨⟨vm', handled⟩, hf, rfl⟩ := Option.map_eq_some_iff.1 hs
    obtain ⟨lost', h', hlost⟩ := (h.proc hp).pageFault_lost hsound.1 (hsound.2 p hp) hf
    refine ⟨lost', opened, touch (s := { s with vm := vm' }) h' ?_, fun ht => hlost (ht p hp)⟩
    cases handled
    · exact ⟨rfl, rfl, rfl, rfl, rfl, rfl, rfl, rfl⟩
    · exact .refl p
  | store a va i word =>
    obtain ⟨p, hp, -, hs⟩ := withAlive_eq hs
    obtain ⟨e, he, hs⟩ := Option.bind_eq_some_iff.1 hs
    dsimp only at hs
    split_ifs at hs with hflags
    obtain rfl := Option.some.inj hs
    obtain ⟨-, -, hleaf⟩ := leafAt_of_entryAt (userVa_of_lt hflags.1) he hflags.2.1
    exact ⟨lost, opened, storeFrame (s := { s with procs := p :: s.others a }) (h.proc hp)
      (List.mem_cons_self ..) hleaf i word, fun _ => rfl⟩
  | fork a =>
    obtain ⟨p, hp, -, -, hs⟩ := syscall_eq hs
    obtain ⟨⟨s₁, ret⟩, hf, rfl⟩ := Option.map_eq_some_iff.1 hs
    obtain ⟨hsig, hnodes⟩ := hsound p hp
    refine ⟨lost, opened, ((h.proc hp).fork hsig hnodes hf).touchAll _ fun q => ?_, fun _ => rfl⟩
    split
    · exact alike_returns q _
    · exact .refl q
  | exec a dat size =>
    obtain ⟨p, hp, -, -, hs⟩ := syscall_eq hs
    obtain ⟨⟨vm', p'⟩, he, rfl⟩ := Option.map_eq_some_iff.1 hs
    have h' := (h.proc hp).exec (hsound.2 p hp) hsound.1 he
    exact ⟨lost, opened, touch (s := { s with vm := vm' }) h' (alike_returns p' 0), fun _ => rfl⟩
  | mmap a addr length prot flags =>
    obtain ⟨p, hp, -, -, hs⟩ := syscall_eq hs
    obtain ⟨r, hr, rfl⟩ := Option.map_eq_some_iff.1 hs
    obtain ⟨lost', h', hlost⟩ :=
      (h.proc hp).sysMmap_lost (fun start h0 hstart => hsound p hp h0 start hstart) hr
    exact ⟨lost', opened, touch (s := { s with vm := r.vm }) h' (alike_returns _ _),
      fun ht => hlost (ht p hp)⟩
  | openFile a vnode flags =>
    obtain ⟨p, hp, -, -, hs⟩ := syscall_eq hs
    obtain ⟨⟨vm', files', fdt, fd⟩, ho, rfl⟩ := Option.map_eq_some_iff.1 hs
    obtain ⟨opened', h'⟩ := (h.proc hp).sysOpen ho
    exact ⟨lost, opened', touch (s := { s with vm := vm', files := files' }) h' (alike_returns _ _),
      fun _ => rfl⟩
  | closeFile a fd =>
    obtain ⟨p, hp, -, -, hs⟩ := syscall_eq hs
    obtain ⟨⟨vm', files', fdt, ret⟩, hc, rfl⟩ := Option.map_eq_some_iff.1 hs
    obtain ⟨opened', h'⟩ := (h.proc hp).sysClose hc
    exact ⟨lost, opened', touch (s := { s with vm := vm', files := files' }) h' (alike_returns _ _),
      fun _ => rfl⟩
  | signal a signum handler =>
    obtain ⟨p, hp, -, -, hs⟩ := syscall_eq hs
    dsimp only at hs
    split_ifs at hs
    · obtain rfl := Option.some.inj hs
      exact ⟨lost, opened, (h.proc hp).touch ⟨rfl, rfl, rfl, rfl, rfl, rfl, rfl, rfl⟩, fun _ => rfl⟩
    · obtain rfl := Option.some.inj hs
      exact ⟨lost, opened, (h.proc hp).touch (alike_returns _ _), fun _ => rfl⟩
  | sigreturn a =>
    obtain ⟨p, hp, -, -, hs⟩ := syscall_eq hs
    obtain rfl := Option.some.inj hs
    exact ⟨lost, opened, touch (s := { s with vm := (sysSigreturn s.vm p).1 })
      (h.proc hp).sigreturn_any ⟨rfl, rfl, rfl, rfl, rfl, rfl, rfl, rfl⟩, fun _ => rfl⟩
  | call a ret =>
    obtain ⟨p, hp, -, -, hs⟩ := syscall_eq hs
    obtain rfl := Option.some.inj hs
    exact ⟨lost, opened, (h.proc hp).touch (alike_returns _ _), fun _ => rfl⟩
  | interrupt a =>
    obtain ⟨p, hp, -, -, hs⟩ := syscall_eq hs
    obtain rfl := Option.some.inj hs
    exact ⟨lost, opened, (h.proc hp).touch ⟨rfl, rfl, rfl, rfl, rfl, rfl, rfl, rfl⟩, fun _ => rfl⟩
  | checkSignals a =>
    obtain ⟨p, hp, -, hs⟩ := withAlive_eq hs
    split_ifs at hs
    obtain ⟨⟨vm', p'⟩, hc, rfl⟩ := Option.map_eq_some_iff.1 hs
    exact ⟨lost, opened, touch (s := { s with vm := vm' })
      ((h.proc hp).checkSignals (hsound p hp) hc) ⟨rfl, rfl, rfl, rfl, rfl, rfl, rfl, rfl⟩,
      fun _ => rfl⟩
  | pend a signum =>
    obtain ⟨p, hp, -, hs⟩ := withAlive_eq hs
    split_ifs at hs
    obtain rfl := Option.some.inj hs
    exact ⟨lost, opened, (h.proc hp).touch ⟨rfl, rfl, rfl, rfl, rfl, rfl, rfl, rfl⟩, fun _ => rfl⟩
  | exit a =>
    obtain ⟨p, hp, -, -, hs⟩ := syscall_eq hs
    obtain ⟨⟨vm', files'⟩, hc, rfl⟩ := Option.map_eq_some_iff.1 hs
    obtain ⟨opened', h', -⟩ := (h.proc hp).closeFiles hc
    exact ⟨lost, opened', touch (s := { s with vm := vm', files := files' }) h'
      ⟨rfl, rfl, rfl, rfl, rfl, rfl, rfl, rfl⟩, fun _ => rfl⟩
  | stop a status =>
    obtain ⟨p, hp, -, hs⟩ := withAlive_eq hs
    split_ifs at hs
    obtain rfl := Option.some.inj hs
    exact ⟨lost, opened, (h.proc hp).touch ⟨rfl, rfl, rfl, rfl, rfl, rfl, rfl, rfl⟩, fun _ => rfl⟩
  | reap a =>
    rw [Sys.step] at hs
    obtain ⟨p, hp, hs⟩ := withProc_eq hs
    split_ifs at hs
    obtain ⟨⟨vm', files'⟩, hc, rfl⟩ := Option.map_eq_some_iff.1 hs
    obtain ⟨opened', h', -⟩ := (h.proc hp).closeFiles hc
    exact ⟨lost, opened', reap (s := { s with vm := vm', files := files' })
      (p := { p with fdt := fun _ => 0 }) h' rfl, fun _ => rfl⟩
  | kernelAlloc size => exact ⟨lost, opened, h.kernelAlloc size hs, fun _ => rfl⟩
  | kernelFree x k => exact ⟨lost, opened, h.kernelFree hs, fun _ => rfl⟩

theorem step (h : Inv g s lost opened) (hsound : Sound s op) (hs : s.step op = some s') :
    ∃ lost' opened', Inv g s' lost' opened' :=
  (h.step_lost hsound hs).imp fun _ h' => h'.imp fun _ h'' => h''.1

end Inv

/-! ## The start -/

/-- The kernel before the first process: its page table is built, and nothing is open. -/
structure Booted (s : Sys) : Prop where
  built : Built s.vm s.kernelPgd
  procs : s.procs = []
  files : s.files = fun _ => none
  held : s.held = []

open Classical in
/-- What the kernel has set up by then. -/
noncomputable def Sys.ground (s : Sys) : Ground where
  base := fun q => if IsTable 512 s.vm.mem s.kernelPgd q then none else blocks s.vm.alloc q
  tables := fun q => if IsTable 512 s.vm.mem s.kernelPgd q then 1 else 0
  pgd := s.kernelPgd
  mem := s.vm.mem

theorem Booted.inv (h : Booted s) : Inv s.ground s 0 [] := by
  have hradix := h.built.radix
  have hpgds : pgds s.procs = [] := by
    rw [h.procs]
    rfl
  have hblocks : allBlocks s.procs [] s.held = [] := by
    rw [h.procs, h.held]
    rfl
  have hno : ∀ p ∈ s.procs, False := by
    rw [h.procs]
    exact fun p hp => by cases hp
  have howned : Owned s.vm [] (s.ground.tables + 0) s.ground.base [] := by
    refine ⟨⟨⟨hradix.inv, hradix.real, fun q => ?_, fun q hq => ?_⟩, fun _ hm => ?_⟩, .nil,
      fun _ he => ?_⟩
    · rw [refsAll_nil, zero_add, add_zero]
      by_cases hq : IsTable 512 s.vm.mem s.kernelPgd q
      · have hone : s.ground.tables q = 1 := if_pos hq
        rw [hradix.held q hq, hone]
        rfl
      · have hzero : s.ground.tables q = 0 := if_neg hq
        have hbase : s.ground.base q = blocks s.vm.alloc q := if_neg hq
        rw [hzero, if_pos rfl]
        exact hbase.symm
    · rw [refsAll_nil, zero_add, add_zero] at hq
      have htable : IsTable 512 s.vm.mem s.kernelPgd q := by
        by_contra hn
        exact hq (if_neg hn)
      exact if_pos htable
    · cases hm
    · cases he
  have hpgd : s.ground.tables s.ground.pgd ≠ 0 := by
    have hone : s.ground.tables s.kernelPgd = 1 := if_pos (.inl rfl)
    change s.ground.tables s.kernelPgd ≠ 0
    rw [hone]
    exact one_ne_zero
  refine ⟨?_, fun q _ => ?_, fun p hp => (hno p hp).elim, fun p hp => (hno p hp).elim,
    fun p hp => (hno p hp).elim, fun p hp => (hno p hp).elim, fun _ _ => rfl, ⟨rfl, hpgd⟩,
    ⟨fun f x _ hx => ?_, fun f _ => ?_⟩, ?_, fun f => ?_⟩
  · rw [hpgds, hblocks]
    exact howned
  · rw [hpgds]
    rfl
  · rw [h.files] at hx
    cases hx
  · rw [h.files, h.procs]
    exact iff_of_true rfl rfl
  · rw [h.files]
  · rw [h.files]
    simp

/-- The invariant holds in every state of a run. -/
theorem Reaches.inv (h : Reaches s s') (h₀ : Inv g s lost opened) :
    ∃ lost' opened', Inv g s' lost' opened' := by
  induction h with
  | refl => exact ⟨lost, opened, h₀⟩
  | tail _ hs ih =>
    obtain ⟨lost₁, opened₁, h₁⟩ := ih
    obtain ⟨op, hsound, hexec⟩ := hs
    exact h₁.step hsound (step_of_exec hexec)

/-! ## Runs that are given -/

/-- Several steps. -/
def Sys.run (s : Sys) (ops : List Op) : Option Sys := ops.foldlM Sys.exec s

/-- Several steps that are sound. -/
def Sys.soundRun (s : Sys) (ops : List Op) : Option Sys :=
  ops.foldlM (fun s op => if Sound s op then s.exec op else none) s

theorem run_of_soundRun {ops : List Op} (h : s.soundRun ops = some s') : s.run ops = some s' := by
  induction ops generalizing s with
  | nil => exact h
  | cons op ops ih =>
    obtain ⟨s₁, hs₁, h⟩ := Option.bind_eq_some_iff.1 h
    dsimp only at hs₁
    split_ifs at hs₁
    exact Option.bind_eq_some_iff.2 ⟨s₁, hs₁, ih h⟩

theorem reaches_soundRun {ops : List Op} (h : s.soundRun ops = some s') : Reaches s s' := by
  induction ops generalizing s with
  | nil =>
    cases h
    exact .refl
  | cons op ops ih =>
    obtain ⟨s₁, hs₁, h⟩ := Option.bind_eq_some_iff.1 h
    dsimp only at hs₁
    split_ifs at hs₁ with hsound
    exact .head ⟨op, hsound, hs₁⟩ (ih h)

/-- A kernel with sixteen pages of memory, one of which is its PGD. -/
def sixteenPages : Sys :=
  let vm : Vm := ⟨Memory.allocStart .qemu Memory.unsetBuddy 0xffffffc080000000 0x10000,
    fun _ _ => 0⟩
  { vm := vm.allocPage.2.setPage vm.allocPage.1 fun _ => 0
    kernelPgd := vm.allocPage.1
    procs := []
    nrThreads := 1
    files := fun _ => none
    held := []
    stub := ⟨16, fun _ => 0⟩ }

/-- The thread of the first program there. -/
def firstThread : Addr := 0xffffffc080001c00

/-- The registers with which a thread traps. -/
def trapRegs (a : Addr) : PtRegs := { PtRegs.zero with x := Function.update (fun _ => 0) tpReg a }

theorem booted_sixteenPages : Booted sixteenPages :=
  ⟨.new (.start .qemu Memory.unsetBuddy _ _
    (Memory.realPool_buddySetRegion _ _ _ (by decide) (by decide))) (by decide +kernel), rfl, rfl,
      rfl⟩

/-- The first program registers a handler for the signal 3, gets the signal and starts to handle
it. -/
def handlerStarts : List Op :=
  let a := firstThread
  [.launch 0 0x1000, .trap a (trapRegs a), .signal a 3 0x100, .checkSignals a, .trap a (trapRegs a),
    .pend a 3, .interrupt a, .checkSignals a]

end BareMetalOS.Process
