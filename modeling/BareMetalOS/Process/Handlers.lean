import BareMetalOS.Foundations.PendingSet
import BareMetalOS.Process.Isolation

/-!
# Signal handlers

What a step does to the signals of a process (`Turn`). Over any run, the program that is interrupted
by handlers goes on with its trap frame and its regions, whatever the handlers and the other
processes do (`handlers_transparent`), and the signals of a process are a set of pending events
(`signals_of_run`): none is lost, none is handled twice, and handlers do not overlap.
-/

namespace BareMetalOS.Process

open Memory (Addr)
open Mmu Sched Trap Files

variable {g : Ground} {s s₀ s' s'' : Sys} {vm' : Vm} {p p' q : Proc} {lost : Addr → ℕ}
  {opened : List Addr} {a : Addr} {op : Op} {ops : List Op} {vmas : List VmArea} {v new : VmArea}

/-! ## What a step does to the signals of a process -/

/-- The signals of two processes agree. -/
structure SameSignals (p p' : Proc) : Prop where
  pending : p'.task.sigpending = p.task.sigpending
  handling : p'.task.isHandlingSignal = p.task.isHandlingSignal
  saved : p'.task.signalSavedRegs = p.task.signalSavedRegs
  vaddr : p'.signalStackVaddr = p.signalStackVaddr

theorem SameSignals.refl (p : Proc) : SameSignals p p := ⟨rfl, rfl, rfl, rfl⟩

/-- The step is about signals. -/
def Op.signals : Op → Bool
  | .checkSignals _ | .pend _ _ | .sigreturn _ => true
  | _ => false

/-- The process at `a` is freed. -/
def Op.reaps (a : Addr) : Op → Bool
  | .reap b => b = a
  | _ => false

/-- What a step makes of the process `p` at `a`. -/
inductive Turn (a : Addr) (p p' : Proc) : Op → Prop
  /-- another process makes the step -/
  | other {op : Op} (hop : op.actor ≠ some a) (h : p' = p) : Turn a p p' op
  /-- the step is not about signals or regions -/
  | quiet {op : Op} (hop : op.actor = some a) (hsignals : op.signals = false) (h : SameSignals p p')
    (hvmas : p'.vmas = p.vmas) : Turn a p p' op
  | mmap {addr length : BitVec 64} {prot flags : BitVec 32} {new : VmArea} (h : SameSignals p p')
    (hnew : p.task.isHandlingSignal = true → new.start ≠ p.signalStackVaddr)
    (hvmas : p'.vmas = insertVma new p.vmas) : Turn a p p' (.mmap a addr length prot flags)
  /-- `sys_sigreturn` without a handler -/
  | stray (hnot : p.task.isHandlingSignal = false) (h : SameSignals p p')
    (hvmas : p'.vmas = p.vmas) : Turn a p p' (.sigreturn a)
  | exec {dat : Addr} {size : BitVec 32} (hnot : p.task.isHandlingSignal = false)
    (h : SameSignals p p') : Turn a p p' (.exec a dat size)
  | pend {n : ℕ} (hn : n < 32)
    (h : p' = { p with task := { p.task with sigpending := p.task.sigpending ||| 1#32 <<< n } }) :
    Turn a p p' (.pend a n)
  /-- there is no signal to deliver -/
  | undelivered (hno : deliverable p.task = false ∨ firstSignal p.task.sigpending = none)
    (h : p' = { p with mode := .user }) : Turn a p p' (.checkSignals a)
  | deliver {i : ℕ} {new : VmArea} (hnot : p.task.isHandlingSignal = false)
    (hfirst : firstSignal p.task.sigpending = some i)
    (htask : p'.task = signalThread p.task i p.regs)
    (hvaddr : p'.signalStackVaddr = new.start) (hvmas : p'.vmas = insertVma new p.vmas)
    (hnew : ∀ v ∈ p.vmas, v.start ≠ new.start) : Turn a p p' (.checkSignals a)
  | sigreturn {v : VmArea} (hsig : p.task.isHandlingSignal = true)
    (hregs : p'.regs = p.task.signalSavedRegs)
    (htask : p'.task = { p.task with isHandlingSignal := false })
    (hv : v.start = p.signalStackVaddr)
    (hvmas : p.vmas.Perm (v :: p'.vmas)) (hrest : ∀ u ∈ p'.vmas, u.start ≠ p.signalStackVaddr) :
    Turn a p p' (.sigreturn a)

/-- The process is found by its address. -/
theorem Inv.proc_of_mem (h : Inv g s lost opened) (hp : p ∈ s.procs) : s.proc p.addr = some p := by
  have hsome : (s.proc p.addr).isSome := by
    rw [Sys.proc, List.find?_isSome]
    exact ⟨p, hp, by simp⟩
  obtain ⟨q, hq⟩ := Option.isSome_iff_exists.1 hsome
  rw [hq, List.inj_on_of_nodup_map h.nodup_addr (List.mem_of_find?_eq_some hq) hp (addr_of_proc hq)]

/-- Two regions with pages that do not meet have different starts. -/
theorem start_ne_of_apart (hpos : v.start.toNat < v.stop.toNat)
    (hpos' : new.start.toNat < new.stop.toNat)
    (hapart : new.stop.toNat ≤ v.start.toNat ∨ v.stop.toNat ≤ new.start.toNat) :
    v.start ≠ new.start := by
  intro heq
  have := congrArg BitVec.toNat heq
  omega

/-- The regions beside the one that starts at `a`. -/
theorem start_ne_of_perm (hok : VmasOk vmas)
    (hpos : ∀ u ∈ vmas, u.start = 0 ∨ u.start.toNat < u.stop.toNat)
    {rest : List VmArea} (hperm : vmas.Perm (v :: rest)) (hv : v.start ≠ 0) (u : VmArea)
    (hu : u ∈ rest) : u.start ≠ v.start := by
  have hapart := (List.pairwise_cons.1 (hperm.pairwise hok.apart fun h => h.symm)).1 u hu
  have hv' := (hpos v (hperm.mem_iff.2 (List.mem_cons_self ..))).resolve_left hv
  rcases hpos u (hperm.mem_iff.2 (List.mem_cons_of_mem _ hu)) with hzero | hpos
  · rw [hzero]
    exact Ne.symm hv
  · exact start_ne_of_apart hpos hv' hapart

theorem sysExec_vaddr {vm : Vm} {kernelPgd dat : Addr} {size : BitVec 32}
    (he : sysExec vm kernelPgd p dat size = some (vm', p')) :
    p'.signalStackVaddr = p.signalStackVaddr := by
  unfold sysExec at he
  dsimp only at he
  obtain ⟨⟨pgd, vm₂⟩, -, he⟩ := Option.bind_eq_some_iff.1 he
  obtain ⟨⟨vm₃, vmas⟩, -, he⟩ := Option.bind_eq_some_iff.1 he
  obtain ⟨-, rfl⟩ := Prod.mk.inj (Option.some.inj he)
  rfl

namespace Inv

/-- A step makes one of the turns of each process that is not reaped. -/
theorem turn (h : Inv g s lost opened) (hp : s.proc a = some p) (hsound : Sound s op)
    (hs : s.step op = some s') (hreap : op.reaps a = false) :
    ∃ p', s'.proc a = some p' ∧ Turn a p p' op := by
  obtain ⟨lost', opened', h'⟩ := h.step hsound hs
  have hisolated := h.isolated hsound hs
  have haddr := addr_of_proc hp
  have hm := List.mem_of_find?_eq_some hp
  -- it is enough to find the process in the list
  suffices hturn : ∃ p' ∈ s'.procs, p'.addr = a ∧ Turn a p p' op by
    obtain ⟨p', hp', haddr', hturn⟩ := hturn
    refine ⟨p', ?_, hturn⟩
    rw [← haddr']
    exact h'.proc_of_mem hp'
  by_cases hop : op.actor = some a
  case neg =>
    refine ⟨p, hisolated.procs p (mem_bystanders (List.mem_of_find?_eq_some hp) ?_), haddr,
      .other hop rfl⟩
    rw [haddr]
    exact hop
  cases op with
  | launch dat size => cases hop
  | kernelAlloc size => cases hop
  | kernelFree x k => cases hop
  | reap b =>
    obtain rfl := Option.some.inj hop
    simp [Op.reaps] at hreap
  | trap b regs =>
    obtain rfl := Option.some.inj hop
    obtain ⟨q, hq, -, hs⟩ := withAlive_eq hs
    obtain rfl := Option.some.inj (hp.symm.trans hq)
    split_ifs at hs
    obtain rfl := Option.some.inj hs
    exact ⟨_, List.mem_cons_self .., haddr, .quiet rfl rfl ⟨rfl, rfl, rfl, rfl⟩ rfl⟩
  | fault b cause badaddr =>
    obtain rfl := Option.some.inj hop
    obtain ⟨q, hq, -, hs⟩ := withAlive_eq hs
    obtain rfl := Option.some.inj (hp.symm.trans hq)
    obtain ⟨⟨vm', handled⟩, -, rfl⟩ := Option.map_eq_some_iff.1 hs
    refine ⟨_, List.mem_cons_self .., ?_, .quiet rfl rfl ?_ ?_⟩
    · cases handled <;> exact haddr
    · cases handled <;> exact ⟨rfl, rfl, rfl, rfl⟩
    · cases handled <;> rfl
  | store b va i word =>
    obtain rfl := Option.some.inj hop
    obtain ⟨q, hq, -, hs⟩ := withAlive_eq hs
    obtain rfl := Option.some.inj (hp.symm.trans hq)
    obtain ⟨e, -, hs⟩ := Option.bind_eq_some_iff.1 hs
    dsimp only at hs
    split_ifs at hs
    obtain rfl := Option.some.inj hs
    exact ⟨_, List.mem_cons_self .., haddr, .quiet rfl rfl (.refl _) rfl⟩
  | fork b =>
    obtain rfl := Option.some.inj hop
    obtain ⟨q, hq, -, -, hs⟩ := syscall_eq hs
    obtain rfl := Option.some.inj (hp.symm.trans hq)
    obtain ⟨⟨s₁, ret⟩, hf, rfl⟩ := Option.map_eq_some_iff.1 hs
    obtain ⟨-, -, hprocs⟩ := (h.proc hp).effect_fork (hsound p hp).2 hf
    have hm : p ∈ s₁.procs := by
      rcases hprocs with hprocs | ⟨c, hprocs, -⟩
      · rw [hprocs]
        exact List.mem_cons_self ..
      · rw [hprocs]
        exact List.mem_cons_of_mem _ (List.mem_cons_self ..)
    refine ⟨_, List.mem_map_of_mem hm, ?_, ?_⟩
    · rw [if_pos haddr]
      exact haddr
    · rw [if_pos haddr]
      exact .quiet rfl rfl ⟨rfl, rfl, rfl, rfl⟩ rfl
  | exec b dat size =>
    obtain rfl := Option.some.inj hop
    obtain ⟨q, hq, -, -, hs⟩ := syscall_eq hs
    obtain rfl := Option.some.inj (hp.symm.trans hq)
    obtain ⟨⟨vm', p'⟩, he, rfl⟩ := Option.map_eq_some_iff.1 hs
    obtain ⟨-, haddr', htask, -⟩ := (h.proc hp).effect_exec he
    refine ⟨_, List.mem_cons_self .., haddr'.trans haddr, .exec (hsound.2 p hp) ⟨?_, ?_, ?_, ?_⟩⟩
    · exact congrArg Thread.sigpending htask
    · exact congrArg Thread.isHandlingSignal htask
    · exact congrArg Thread.signalSavedRegs htask
    · exact (sysExec_vaddr he : p'.signalStackVaddr = p.signalStackVaddr)
  | mmap b addr length prot flags =>
    obtain rfl := Option.some.inj hop
    obtain ⟨q, hq, -, -, hs⟩ := syscall_eq hs
    obtain rfl := Option.some.inj (hp.symm.trans hq)
    obtain ⟨r, hr, rfl⟩ := Option.map_eq_some_iff.1 hs
    obtain ⟨-, hcases⟩ := (h.proc hp).effect_sysMmap (fun start h0 => hsound p hp h0 start) hr
    refine ⟨_, List.mem_cons_self .., haddr, ?_⟩
    rcases hcases with ⟨hvmas, -⟩ | ⟨new, hvmas, -, -, hapart, -⟩
    · exact .quiet rfl rfl ⟨rfl, rfl, rfl, rfl⟩ hvmas
    · refine .mmap ⟨rfl, rfl, rfl, rfl⟩ (fun hsig heq => ?_) hvmas
      -- the new region does not meet the signal stack
      obtain ⟨v, hv, hstart, hstop⟩ := ((signalOk_of_handling hsig).1 (h.signals p hm)).region
      have hpos := (h.regions p hm).positive v hv
      have hpos' := (h'.regions _ (List.mem_cons_self ..)).positive new
        (hvmas ▸ (insertVma_perm _ _).mem_iff.2 (List.mem_cons_self ..))
      have hne : new.start ≠ 0 := by
        rw [heq]
        exact ((signalOk_of_handling hsig).1 (h.signals p hm)).user.1
      exact start_ne_of_apart (hpos.resolve_left (by rwa [hstart, ← heq])) (hpos'.resolve_left hne)
        (hapart v hv) (hstart.trans heq.symm)
  | openFile b vnode flags =>
    obtain rfl := Option.some.inj hop
    obtain ⟨q, hq, -, -, hs⟩ := syscall_eq hs
    obtain rfl := Option.some.inj (hp.symm.trans hq)
    obtain ⟨⟨vm', files', fdt, fd⟩, -, rfl⟩ := Option.map_eq_some_iff.1 hs
    exact ⟨_, List.mem_cons_self .., haddr, .quiet rfl rfl ⟨rfl, rfl, rfl, rfl⟩ rfl⟩
  | closeFile b fd =>
    obtain rfl := Option.some.inj hop
    obtain ⟨q, hq, -, -, hs⟩ := syscall_eq hs
    obtain rfl := Option.some.inj (hp.symm.trans hq)
    obtain ⟨⟨vm', files', fdt, ret⟩, -, rfl⟩ := Option.map_eq_some_iff.1 hs
    exact ⟨_, List.mem_cons_self .., haddr, .quiet rfl rfl ⟨rfl, rfl, rfl, rfl⟩ rfl⟩
  | signal b signum handler =>
    obtain rfl := Option.some.inj hop
    obtain ⟨q, hq, -, -, hs⟩ := syscall_eq hs
    obtain rfl := Option.some.inj (hp.symm.trans hq)
    dsimp only at hs
    split_ifs at hs
    · obtain rfl := Option.some.inj hs
      exact ⟨_, List.mem_cons_self .., haddr, .quiet rfl rfl ⟨rfl, rfl, rfl, rfl⟩ rfl⟩
    · obtain rfl := Option.some.inj hs
      exact ⟨_, List.mem_cons_self .., haddr, .quiet rfl rfl ⟨rfl, rfl, rfl, rfl⟩ rfl⟩
  | sigreturn b =>
    obtain rfl := Option.some.inj hop
    obtain ⟨q, hq, -, -, hs⟩ := syscall_eq hs
    obtain rfl := Option.some.inj (hp.symm.trans hq)
    obtain rfl := Option.some.inj hs
    cases hsig : p.task.isHandlingSignal with
    | true =>
      obtain ⟨hstack, hpage, -, -⟩ := h.signalFrame hm hsig
      obtain ⟨v, pt, hv, hfind, hstart, -, -, hres⟩ := sysSigreturn_eq (h.regions p hm) hstack hpage
      have hperm := perm_of_find hfind
      have hrest : ∀ u ∈ p.vmas.eraseP (·.start = p.signalStackVaddr),
          u.start ≠ p.signalStackVaddr := by
        have hne : v.start ≠ 0 := hstart ▸ hstack.user.1
        rw [← hstart] at hperm ⊢
        exact start_ne_of_perm (h.regions p hm).ok (h.regions p hm).positive hperm hne
      have hproc : (sysSigreturn s.vm p).2 = _ := congrArg Prod.snd hres
      refine ⟨_, List.mem_cons_self .., ?_, .sigreturn hsig ?_ ?_ hstart ?_ ?_⟩
      · rw [hproc]
        exact haddr
      · rw [hproc]
      · rw [hproc]
      · rw [hproc]
        exact hperm
      · rw [hproc]
        exact hrest
    | false =>
      have hpage : p.signalStackPage = 0 := (signalOk_of_not hsig).1 (h.signals p hm)
      have hres : (sysSigreturn s.vm p).2 = { p with
          regs := p.task.signalSavedRegs
          task := { p.task with isHandlingSignal := false } } := by
        rw [sysSigreturn]
        dsimp only
        rw [if_pos hpage]
      refine ⟨_, List.mem_cons_self .., ?_, .stray hsig ⟨?_, ?_, ?_, ?_⟩ ?_⟩
      · rw [hres]
        exact haddr
      · rw [hres]
      · rw [hres, hsig]
      · rw [hres]
      · rw [hres]
      · rw [hres]
  | call b ret =>
    obtain rfl := Option.some.inj hop
    obtain ⟨q, hq, -, -, hs⟩ := syscall_eq hs
    obtain rfl := Option.some.inj (hp.symm.trans hq)
    obtain rfl := Option.some.inj hs
    exact ⟨_, List.mem_cons_self .., haddr, .quiet rfl rfl ⟨rfl, rfl, rfl, rfl⟩ rfl⟩
  | interrupt b =>
    obtain rfl := Option.some.inj hop
    obtain ⟨q, hq, -, -, hs⟩ := syscall_eq hs
    obtain rfl := Option.some.inj (hp.symm.trans hq)
    obtain rfl := Option.some.inj hs
    exact ⟨_, List.mem_cons_self .., haddr, .quiet rfl rfl ⟨rfl, rfl, rfl, rfl⟩ rfl⟩
  | checkSignals b =>
    obtain rfl := Option.some.inj hop
    obtain ⟨q, hq, -, hs⟩ := withAlive_eq hs
    obtain rfl := Option.some.inj (hp.symm.trans hq)
    split_ifs at hs
    obtain ⟨⟨vm', p'⟩, hc, rfl⟩ := Option.map_eq_some_iff.1 hs
    rw [Process.checkSignals] at hc
    split at hc
    · rename_i i hd hfirst
      have hnot : p.task.isHandlingSignal = false := by
        rw [deliverable, Bool.and_eq_true, Bool.not_eq_true'] at hd
        exact hd.2
      obtain ⟨-, -, haddr', htask, new, hvmas, -, hvaddr, -, hstop, -, hapart, -⟩ :=
        (h.proc hp).effect_deliver (hsound p hp hd) hc
      have hsig : p'.task.isHandlingSignal = true := by rw [htask]; rfl
      have hstack := (signalOk_of_handling (p := { p' with mode := .user }) hsig).1
        (h'.signals { p' with mode := .user } (List.mem_cons_self ..))
      have hne : new.start ≠ 0 := hvaddr ▸ hstack.user.1
      refine ⟨_, List.mem_cons_self .., haddr'.trans haddr, .deliver hnot hfirst htask hvaddr hvmas
        fun v hv heq => ?_⟩
      have hpos := ((h.regions p hm).positive v hv).resolve_left (by rwa [heq])
      exact start_ne_of_apart hpos (by omega) (hapart v hv) heq
    · rename_i hno
      obtain ⟨rfl, rfl⟩ := Prod.mk.inj (Option.some.inj hc)
      refine ⟨_, List.mem_cons_self .., haddr, .undelivered ?_ rfl⟩
      by_contra hboth
      push Not at hboth
      obtain ⟨i, hi⟩ := Option.ne_none_iff_exists'.1 hboth.2
      exact hno i (Bool.eq_true_of_not_eq_false hboth.1) hi
  | pend b signum =>
    obtain rfl := Option.some.inj hop
    obtain ⟨q, hq, -, hs⟩ := withAlive_eq hs
    obtain rfl := Option.some.inj (hp.symm.trans hq)
    split_ifs at hs with hn
    obtain rfl := Option.some.inj hs
    exact ⟨_, List.mem_cons_self .., haddr, .pend hn.1 rfl⟩
  | exit b =>
    obtain rfl := Option.some.inj hop
    obtain ⟨q, hq, -, -, hs⟩ := syscall_eq hs
    obtain rfl := Option.some.inj (hp.symm.trans hq)
    obtain ⟨⟨vm', files'⟩, -, rfl⟩ := Option.map_eq_some_iff.1 hs
    exact ⟨_, List.mem_cons_self .., haddr, .quiet rfl rfl ⟨rfl, rfl, rfl, rfl⟩ rfl⟩
  | stop b status =>
    obtain rfl := Option.some.inj hop
    obtain ⟨q, hq, -, hs⟩ := withAlive_eq hs
    obtain rfl := Option.some.inj (hp.symm.trans hq)
    split_ifs at hs
    obtain rfl := Option.some.inj hs
    exact ⟨_, List.mem_cons_self .., haddr, .quiet rfl rfl ⟨rfl, rfl, rfl, rfl⟩ rfl⟩

end Inv

/-! ## The program beneath its handlers -/

/-- The trap frame of the program: that of the thread, or the one that is saved while a handler
runs. -/
def Proc.frame (p : Proc) : PtRegs :=
  if p.task.isHandlingSignal then p.task.signalSavedRegs else p.regs

/-- The regions of the program: all but the signal stack. -/
def Proc.regions (p : Proc) : List VmArea :=
  if p.task.isHandlingSignal then p.vmas.filter (·.start ≠ p.signalStackVaddr) else p.vmas

/-- The step maps a region for the process at `a`. -/
def Op.maps (a : Addr) : Op → Bool
  | .mmap b _ _ _ _ => b = a
  | _ => false

/-- A signal is sent, or it is looked for one to deliver. -/
def Op.delivers : Op → Bool
  | .checkSignals _ | .pend _ _ => true
  | _ => false

/-- The program of the process does not run: the step is one of another process or of a handler, or
a signal is sent or delivered. -/
def Interrupted (a : Addr) (s : Sys) (op : Op) : Prop :=
  op.reaps a = false ∧
    ∀ p ∈ s.proc a, op.actor = some a → p.task.isHandlingSignal = true ∨ op.delivers = true

instance (a : Addr) (s : Sys) (op : Op) : Decidable (Interrupted a s op) :=
  have : Decidable (∀ p ∈ s.proc a, op.actor = some a →
      p.task.isHandlingSignal = true ∨ op.delivers = true) := Option.decidableForallMem _
  inferInstanceAs (Decidable (_ ∧ _))

theorem frame_of_handling (h : p.task.isHandlingSignal = true) :
    p.frame = p.task.signalSavedRegs :=
  if_pos h

theorem frame_of_not (h : p.task.isHandlingSignal = false) : p.frame = p.regs :=
  if_neg (by rw [h]; exact Bool.false_ne_true)

theorem regions_of_handling (h : p.task.isHandlingSignal = true) :
    p.regions = p.vmas.filter (·.start ≠ p.signalStackVaddr) := if_pos h

theorem regions_of_not (h : p.task.isHandlingSignal = false) : p.regions = p.vmas :=
  if_neg (by rw [h]; exact Bool.false_ne_true)

/-- A step in which the program does not run keeps its frame, and adds at most one region. -/
theorem Turn.keeps (h : Turn a p p' op)
    (hin : op.actor = some a → p.task.isHandlingSignal = true ∨ op.delivers = true) :
    p'.frame = p.frame ∧ ∃ l, p'.regions.Perm (l ++ p.regions) ∧ l.length ≤ (op.maps a).toNat := by
  cases h with
  | other hop h =>
    subst h
    exact ⟨rfl, [], .refl _, Nat.zero_le _⟩
  | quiet hop hsignals h hvmas =>
    have hno : op.delivers ≠ true := by
      cases op with
      | checkSignals b => cases hsignals
      | pend b n => cases hsignals
      | _ => exact Bool.false_ne_true
    have hsig := (hin hop).resolve_right hno
    have hsig' : p'.task.isHandlingSignal = true := h.handling.trans hsig
    rw [frame_of_handling hsig, frame_of_handling hsig', regions_of_handling hsig,
      regions_of_handling hsig',
      h.saved, hvmas, h.vaddr]
    exact ⟨rfl, [], .refl _, Nat.zero_le _⟩
  | mmap h hnew hvmas =>
    have hsig := (hin rfl).resolve_right Bool.false_ne_true
    have hsig' : p'.task.isHandlingSignal = true := h.handling.trans hsig
    rw [frame_of_handling hsig, frame_of_handling hsig', regions_of_handling hsig,
      regions_of_handling hsig',
      h.saved, hvmas, h.vaddr]
    rename_i new
    have hperm := (insertVma_perm new p.vmas).filter (·.start ≠ p.signalStackVaddr)
    rw [List.filter_cons_of_pos (by simpa using hnew hsig)] at hperm
    exact ⟨rfl, [new], hperm, by simp [Op.maps]⟩
  | exec hnot h =>
    have hsig := (hin rfl).resolve_right Bool.false_ne_true
    rw [hnot] at hsig
    cases hsig
  | stray hnot h hvmas =>
    have hsig := (hin rfl).resolve_right Bool.false_ne_true
    rw [hnot] at hsig
    cases hsig
  | pend hn h =>
    subst h
    exact ⟨rfl, [], .refl _, Nat.zero_le _⟩
  | undelivered hno h =>
    subst h
    exact ⟨rfl, [], .refl _, Nat.zero_le _⟩
  | deliver hnot hfirst htask hvaddr hvmas hnew =>
    rename_i i new
    have hsig' : p'.task.isHandlingSignal = true := by rw [htask]; rfl
    have hperm := (insertVma_perm new p.vmas).filter (·.start ≠ new.start)
    have hall : p.vmas.filter (·.start ≠ new.start) = p.vmas := by
      rw [List.filter_eq_self]
      simpa using hnew
    rw [List.filter_cons_of_neg (by simp), hall] at hperm
    rw [frame_of_not hnot, frame_of_handling hsig', regions_of_not hnot,
      regions_of_handling hsig', hvaddr,
      hvmas, htask]
    exact ⟨rfl, [], hperm, Nat.zero_le _⟩
  | sigreturn hsig hregs htask hv hvmas hrest =>
    have hsig' : p'.task.isHandlingSignal = false := by rw [htask]
    have hperm := hvmas.filter (·.start ≠ p.signalStackVaddr)
    have hall : p'.vmas.filter (·.start ≠ p.signalStackVaddr) = p'.vmas := by
      rw [List.filter_eq_self]
      simpa using hrest
    rw [List.filter_cons_of_neg (by simpa using hv), hall] at hperm
    rw [frame_of_handling hsig, frame_of_not hsig', regions_of_handling hsig,
      regions_of_not hsig', hregs]
    exact ⟨rfl, [], hperm.symm, Nat.zero_le _⟩

/-- The runs in which the program of the process at `a` does not run, with their steps. -/
inductive InterruptedRun (a : Addr) (s : Sys) : List Op → Sys → Prop
  | nil : InterruptedRun a s [] s
  | snoc {ops : List Op} {op : Op} {s' s'' : Sys} (h : InterruptedRun a s ops s')
    (hsound : Sound s' op)
    (hin : Interrupted a s' op) (hs : s'.exec op = some s'') : InterruptedRun a s (ops ++ [op]) s''

/-- **Handlers are transparent.** In a run in which a program is interrupted by handlers, its frame
stays the same register for register, and its regions do, but for the regions that the handlers
map. -/
theorem handlers_transparent (h₀ : Booted s₀) (h : Reaches s₀ s) (hrun : InterruptedRun a s ops s')
    (hp : s.proc a = some p) : ∃ p', s'.proc a = some p' ∧ p'.frame = p.frame ∧
      ∃ l, p'.regions.Perm (l ++ p.regions) ∧ l.length ≤ ops.countP (Op.maps a) := by
  obtain ⟨lost, opened, hinv⟩ := h.inv h₀.inv
  suffices hkept : (∃ lost opened, Inv s₀.ground s' lost opened) ∧ ∃ p', s'.proc a = some p' ∧
      p'.frame = p.frame ∧ ∃ l, p'.regions.Perm (l ++ p.regions) ∧
        l.length ≤ ops.countP (Op.maps a) from
    hkept.2
  induction hrun with
  | nil => exact ⟨⟨lost, opened, hinv⟩, p, hp, rfl, [], .refl _, Nat.zero_le _⟩
  | @snoc ops op s₁ s₂ _ hsound hin hs ih =>
    obtain ⟨⟨lost', opened', hinv'⟩, p', hp', hframe, l, hperm, hlen⟩ := ih
    have hs := step_of_exec hs
    obtain ⟨p'', hp'', hturn⟩ := hinv'.turn hp' hsound hs hin.1
    obtain ⟨hframe', l', hperm', hlen'⟩ := hturn.keeps (hin.2 p' hp')
    refine ⟨hinv'.step hsound hs, p'', hp'', hframe'.trans hframe, l' ++ l, ?_, ?_⟩
    · rw [List.append_assoc]
      exact hperm'.trans (hperm.append_left l')
    · rw [List.length_append, List.countP_append, List.countP_singleton]
      have hone : (if op.maps a = true then 1 else 0) = (op.maps a).toNat := by
        cases op.maps a <;> rfl
      rw [hone]
      omega

/-- Several steps in which the program of the process at `a` does not run. -/
def Sys.interruptedRun (a : Addr) (s : Sys) (ops : List Op) : Option Sys :=
  ops.foldlM (fun s op => if Sound s op ∧ Interrupted a s op then s.exec op else none) s

theorem InterruptedRun.append {ops' : List Op} (h : InterruptedRun a s ops s')
    (hs : s'.interruptedRun a ops' = some s'') : InterruptedRun a s (ops ++ ops') s'' := by
  induction ops' generalizing s' ops with
  | nil =>
    cases hs
    rw [List.append_nil]
    exact h
  | cons op ops' ih =>
    obtain ⟨s₁, hs₁, hs⟩ := Option.bind_eq_some_iff.1 hs
    dsimp only at hs₁
    split_ifs at hs₁ with hboth
    have h₂ := ih (h.snoc hboth.1 hboth.2 hs₁) hs
    rwa [List.append_assoc] at h₂

/-- Two signals one after the other: the second comes while the handler of the first one runs. -/
def twoHandlers : List Op :=
  let a := firstThread
  [.checkSignals a, .pend a 3, .trap a (trapRegs a), .sigreturn a, .checkSignals a,
    .trap a (trapRegs a),
    .sigreturn a, .checkSignals a]

/-- The program goes on with its frame after both. -/
theorem handlers_transparent_two : ∃ s s' p p',
    sixteenPages.soundRun handlerStarts.dropLast = some s ∧
    s.proc firstThread = some p ∧ InterruptedRun firstThread s twoHandlers s' ∧
    s'.proc firstThread = some p' ∧ p'.frame = p.frame := by
  have hrun : ((sixteenPages.soundRun handlerStarts.dropLast).bind fun s =>
      (s.proc firstThread).bind fun _ =>
      (s.interruptedRun firstThread twoHandlers).map fun _ => true) = some true := by decide +kernel
  obtain ⟨s, hs, hrun⟩ := Option.bind_eq_some_iff.1 hrun
  obtain ⟨p, hp, hrun⟩ := Option.bind_eq_some_iff.1 hrun
  obtain ⟨s', hs', -⟩ := Option.map_eq_some_iff.1 hrun
  have hrun' : InterruptedRun firstThread s twoHandlers s' := InterruptedRun.nil.append hs'
  obtain ⟨p', hp', hframe, -⟩ := handlers_transparent booted_sixteenPages
    (reaches_soundRun hs) hrun' hp
  exact ⟨s, s', p, p', hs, hp, hrun', hp', hframe⟩

/-! ## The pending signals -/

/-- The signals of a process as a set of pending events. -/
def Proc.signals (p : Proc) : PendingSet ℕ where
  pending := (Finset.range 32).filter fun n => p.task.sigpending.getLsbD n
  busy := p.task.isHandlingSignal

/-- What happens in a step to the signals of the process at `a`, which becomes `p'`: a signal is
raised, a handler is started, or it returns. -/
def events (a : Addr) (p p' : Proc) : Op → List (PendingSet.Event ℕ)
  | .pend b n => if b = a then [.raise n] else []
  | .checkSignals b =>
    if b = a ∧ p.task.isHandlingSignal = false ∧ p'.task.isHandlingSignal = true then
      [.start ((firstSignal p.task.sigpending).getD 0)]
    else []
  | .sigreturn b => if b = a ∧ p.task.isHandlingSignal = true then [.finish] else []
  | _ => []

/-- The first signal is the least one that is pending. -/
theorem firstSignal_eq_some {w : BitVec 32} {i : ℕ} (h : firstSignal w = some i) :
    i < 32 ∧ w.getLsbD i = true ∧ ∀ j, w.getLsbD j = true → i ≤ j := by
  obtain ⟨hi, hlt, hbefore⟩ := List.find?_range_eq_some.1 h
  refine ⟨List.mem_range.1 hlt, hi, fun j hj => ?_⟩
  by_contra hji
  have hno := hbefore j (by omega)
  rw [hj] at hno
  cases hno

theorem getLsbD_bit {m n : ℕ} (hm : m < 32) : (1#32 <<< n).getLsbD m = decide (m = n) := by
  rw [BitVec.getLsbD_shiftLeft, BitVec.getLsbD_one]
  by_cases hmn : m = n
  · subst hmn
    simp [hm]
  · simp [hmn]
    omega

/-- A bit is set. -/
theorem pending_or {w : BitVec 32} {n : ℕ} (hn : n < 32) :
    ((Finset.range 32).filter fun m => (w ||| 1#32 <<< n).getLsbD m) =
      insert n ((Finset.range 32).filter fun m => w.getLsbD m) := by
  ext m
  simp only [Finset.mem_filter, Finset.mem_range, Finset.mem_insert, BitVec.getLsbD_or]
  by_cases hm : m < 32
  · rw [getLsbD_bit hm, Bool.or_eq_true, decide_eq_true_eq]
    tauto
  · have hne : m ≠ n := by omega
    tauto

/-- A bit is cleared. -/
theorem pending_and_not {w : BitVec 32} {n : ℕ} :
    ((Finset.range 32).filter fun m => (w &&& ~~~(1#32 <<< n)).getLsbD m) =
      ((Finset.range 32).filter fun m => w.getLsbD m).erase n := by
  ext m
  simp only [Finset.mem_filter, Finset.mem_range, Finset.mem_erase, BitVec.getLsbD_and,
    BitVec.getLsbD_not]
  by_cases hm : m < 32
  · rw [getLsbD_bit hm, decide_eq_true hm, Bool.true_and, Bool.and_eq_true, Bool.not_eq_true',
      decide_eq_false_iff_not]
    tauto
  · tauto

/-- The signals of a process after a step. -/
theorem Turn.signals (h : Turn a p p' op) :
    PendingSet.Run p.signals (events a p p' op) p'.signals := by
  -- without events, nothing changes
  have hsame : SameSignals p p' → p'.signals = p.signals := fun h => by
    rw [Proc.signals, Proc.signals, h.pending, h.handling]
  cases h with
  | other hop h =>
    subst h
    have hno : events a p' p' op = [] := by
      cases op with
      | pend b n => exact if_neg fun heq => hop (congrArg some heq)
      | checkSignals b => exact if_neg fun h => hop (congrArg some h.1)
      | sigreturn b => exact if_neg fun h => hop (congrArg some h.1)
      | _ => rfl
    rw [hno]
    exact .nil _
  | quiet hop hsignals h hvmas =>
    have hno : events a p p' op = [] := by
      cases op with
      | pend b n => cases hsignals
      | checkSignals b => cases hsignals
      | sigreturn b => cases hsignals
      | _ => rfl
    rw [hno, hsame h]
    exact .nil _
  | mmap h hnew hvmas =>
    rw [hsame h]
    exact .nil _
  | stray hnot h hvmas =>
    rw [events, if_neg (by simp [hnot]), hsame h]
    exact .nil _
  | exec hnot h =>
    rw [hsame h]
    exact .nil _
  | pend hn h =>
    subst h
    rw [events, if_pos rfl]
    apply PendingSet.Run.single
    rename_i n
    have hafter : Proc.signals { p with
        task := { p.task with sigpending := p.task.sigpending ||| 1#32 <<< n } } =
        ⟨insert n p.signals.pending, p.signals.busy⟩ := congrArg (PendingSet.mk · _) (pending_or hn)
    rw [hafter]
    exact .raise _ _
  | undelivered hno h =>
    subst h
    have hboth : ¬ (a = a ∧ p.task.isHandlingSignal = false ∧ p.task.isHandlingSignal = true) := by
      rintro ⟨-, hnot, hsig⟩
      rw [hnot] at hsig
      cases hsig
    rw [events, if_neg hboth]
    exact .nil _
  | deliver hnot hfirst htask hvaddr hvmas hnew =>
    rename_i i new
    have hsig : p'.task.isHandlingSignal = true := by rw [htask]; rfl
    obtain ⟨hi, hbit, hleast⟩ := firstSignal_eq_some hfirst
    rw [events, if_pos ⟨rfl, hnot, hsig⟩, hfirst, Option.getD_some]
    apply PendingSet.Run.single
    have hafter : p'.signals = ⟨p.signals.pending.erase i, true⟩ := by
      rw [Proc.signals, hsig, htask]
      exact congrArg (PendingSet.mk · true) pending_and_not
    rw [hafter]
    refine .start hnot ?_ fun j hj => ?_
    · exact Finset.mem_filter.2 ⟨Finset.mem_range.2 hi, hbit⟩
    · exact hleast j (Finset.mem_filter.1 hj).2
  | sigreturn hsig hregs htask hv hvmas hrest =>
    rw [events, if_pos ⟨rfl, hsig⟩]
    apply PendingSet.Run.single
    have hafter : p'.signals = ⟨p.signals.pending, false⟩ := by
      rw [Proc.signals, htask]
      rfl
    rw [hafter]
    exact .finish hsig

/-- The runs in which the process at `a` is not reaped, with the events of its signals. -/
inductive SignalRun (a : Addr) (s : Sys) : List (PendingSet.Event ℕ) → Sys → Prop
  | nil : SignalRun a s [] s
  | snoc {es : List (PendingSet.Event ℕ)} {op : Op} {s' s'' : Sys} {p p' : Proc}
    (h : SignalRun a s es s')
    (hsound : Sound s' op) (hreap : op.reaps a = false) (hs : s'.exec op = some s'')
    (hp : s'.proc a = some p)
    (hp' : s''.proc a = some p') : SignalRun a s (es ++ events a p p' op) s''

/-- **Signals.** In any run the signals of a process are a set of pending events: a handler is
started at most as often as its signal is raised, a signal that is raised is pending until its
handler is started, handlers do not overlap, and without new signals they are started in increasing
order. -/
theorem signals_of_run {es : List (PendingSet.Event ℕ)} (h₀ : Booted s₀) (h : Reaches s₀ s)
    (hrun : SignalRun a s es s') (hp : s.proc a = some p) :
    ∃ p', s'.proc a = some p' ∧ PendingSet.Run p.signals es p'.signals ∧
      (∀ n, es.count (.start n) + (if n ∈ p'.signals.pending then 1 else 0) ≤
        es.count (.raise n) + (if n ∈ p.signals.pending then 1 else 0)) ∧
      (∀ n es₁ es₂, es = es₁ ++ .raise n :: es₂ → n ∈ p'.signals.pending ∨ .start n ∈ es₂) ∧
      (∀ n m es₁ es₂, es = es₁ ++ .start n :: es₂ → .start m ∈ es₂ →
        .finish ∈ es₂ ∧ ((∀ k, .raise k ∉ es₂) → n < m)) := by
  obtain ⟨lost, opened, hinv⟩ := h.inv h₀.inv
  have hsteps : (∃ lost opened, Inv s₀.ground s' lost opened) ∧
      ∃ p', s'.proc a = some p' ∧ PendingSet.Run p.signals es p'.signals := by
    induction hrun with
    | nil => exact ⟨⟨lost, opened, hinv⟩, p, hp, .nil _⟩
    | @snoc es op s₁ s₂ p₁ p₂ _ hsound hreap hs hp₁ hp₂ ih =>
      obtain ⟨⟨lost', opened', hinv'⟩, p', hp', hevents⟩ := ih
      obtain rfl := Option.some.inj (hp₁.symm.trans hp')
      have hs := step_of_exec hs
      obtain ⟨p'', hp'', hturn⟩ := hinv'.turn hp₁ hsound hs hreap
      obtain rfl := Option.some.inj (hp₂.symm.trans hp'')
      exact ⟨hinv'.step hsound hs, p₂, hp₂, hevents.append hturn.signals⟩
  obtain ⟨-, p', hp', hevents⟩ := hsteps
  refine ⟨p', hp', hevents, fun n => hevents.starts_le, ?_, ?_⟩
  · rintro n es₁ es₂ rfl
    exact hevents.not_lost
  · rintro n m es₁ es₂ rfl hm
    exact ⟨hevents.finish_between hm, fun hraise => hevents.starts_increasing hraise hm⟩

/-- Every sound run in which the process is not reaped is one with its events. -/
theorem signalRun_of_interruptedRun (h : Inv g s' lost opened) {es : List (PendingSet.Event ℕ)}
    (hrun : SignalRun a s es s') (hp : s'.proc a = some p)
    (hs : s'.interruptedRun a ops = some s'') : ∃ es', SignalRun a s (es ++ es') s'' := by
  induction ops generalizing s' lost opened es p with
  | nil =>
    cases hs
    exact ⟨[], by rwa [List.append_nil]⟩
  | cons op ops ih =>
    obtain ⟨s₁, hs₁, hs⟩ := Option.bind_eq_some_iff.1 hs
    dsimp only at hs₁
    split_ifs at hs₁ with hboth
    obtain ⟨lost₁, opened₁, h₁⟩ := h.step hboth.1 (step_of_exec hs₁)
    obtain ⟨p₁, hp₁, -⟩ := h.turn hp hboth.1 (step_of_exec hs₁) hboth.2.1
    obtain ⟨es', hes'⟩ := ih h₁ (hrun.snoc hboth.1 hboth.2.1 hs₁ hp hp₁) hp₁ hs
    exact ⟨_, List.append_assoc .. ▸ hes'⟩

/-- The signals of the two handlers. -/
theorem signals_of_run_two : ∃ s s' p es p', sixteenPages.soundRun handlerStarts.dropLast = some s ∧
    s.proc firstThread = some p ∧ s.interruptedRun firstThread twoHandlers = some s' ∧
    SignalRun firstThread s es s' ∧ s'.proc firstThread = some p' ∧
    PendingSet.Run p.signals es p'.signals := by
  have hrun : ((sixteenPages.soundRun handlerStarts.dropLast).bind fun s =>
      (s.proc firstThread).bind fun _ =>
      (s.interruptedRun firstThread twoHandlers).map fun _ => true) = some true := by decide +kernel
  obtain ⟨s, hs, hrun⟩ := Option.bind_eq_some_iff.1 hrun
  obtain ⟨p, hp, hrun⟩ := Option.bind_eq_some_iff.1 hrun
  obtain ⟨s', hs', -⟩ := Option.map_eq_some_iff.1 hrun
  have hreach := reaches_soundRun hs
  obtain ⟨lost, opened, hinv⟩ := hreach.inv booted_sixteenPages.inv
  obtain ⟨es, hes⟩ := signalRun_of_interruptedRun hinv .nil hp hs'
  obtain ⟨p', hp', hevents, -⟩ := signals_of_run booted_sixteenPages hreach hes hp
  exact ⟨s, s', p, _, p', hs, hp, hs', hes, hp', hevents⟩

end BareMetalOS.Process
