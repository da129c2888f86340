import BareMetalOS.Process.Eager

/-!
# Lazy memory is eager memory

Each step of the kernel is the step of the eager memories (`Inv.eager_step`), so that a run of the
kernel is a run of them (`lazy_refines_eager`).
-/

namespace BareMetalOS.Process

open Memory (Addr)
open Mmu Sched Trap Files

variable {g : Ground} {s s₀ s' : Sys} {vm' : Vm} {p p' q : Proc} {lost : Addr → ℕ}
  {opened : List Addr}
  {a b va : Addr} {op : Op} {w : BitVec 64} {m m' m₀ : Mem} {v : VmArea} {x : Leaf} {dat : Addr}
  {size : BitVec 32}

/-! ## Steps of one process -/

/-- A step of the process `p` at `a`, which becomes `p'`. -/
structure ActorStep (s s' : Sys) (a : Addr) (p p' : Proc) : Prop where
  proc : s.proc a = some p
  effect : Effect s.vm s'.vm (s.others a)
  procs : s'.procs = p' :: s.others a
  addr : p'.addr = p.addr
  stub : s'.stub = s.stub

theorem find?_others (l : List Proc) (hne : b ≠ a) :
    (l.eraseP (·.addr = a)).find? (·.addr = b) = l.find? (·.addr = b) := by
  induction l with
  | nil => rfl
  | cons q l ih =>
    by_cases hq : q.addr = a
    · rw [List.eraseP_cons_of_pos (by simpa using hq),
        List.find?_cons_of_neg (by simpa [hq] using Ne.symm hne)]
    · rw [List.eraseP_cons_of_neg (by simpa using hq), List.find?_cons, List.find?_cons, ih]

/-- The memory of a process depends on the contents of its pages. -/
theorem eager_congr_contents (h : contents m' p.pgd = contents m p.pgd) :
    p.eager m₀ m' = p.eager m₀ m := by
  have hview : view m₀ m' p = view m₀ m p := by
    funext x
    rw [view, view, h]
  rw [Proc.eager, Proc.eager, hview]

/-- The other processes have the memory that they had. -/
theorem eager_others (heffect : Effect s.vm vm' (s.others a)) (hne : b ≠ a) :
    ((s.others a).find? (·.addr = b)).map (Proc.eager m₀ vm'.mem) = s.eager m₀ b := by
  have hfind : (s.others a).find? (·.addr = b) = s.proc b := find?_others s.procs hne
  rw [Sys.eager, ← hfind]
  exact Option.map_congr fun q hq => eager_congr_contents
    (heffect.others q (List.mem_of_find?_eq_some hq)).contents

namespace ActorStep

/-- The memory of the process changes, and no other. -/
theorem eager_update (h : ActorStep s s' a p p') :
    s'.eager m₀ = Function.update (s.eager m₀) a (some (p'.eager m₀ s'.vm.mem)) := by
  have haddr : p'.addr = a := h.addr.trans (addr_of_proc h.proc)
  funext b
  rcases eq_or_ne b a with rfl | hne
  · rw [Function.update_self, Sys.eager, Sys.proc, h.procs,
      List.find?_cons_of_pos (by simpa using haddr)]
    rfl
  · rw [Function.update_of_ne hne, ← eager_others h.effect hne, Sys.eager, Sys.proc, h.procs,
      List.find?_cons_of_neg (by simpa [haddr] using Ne.symm hne)]

theorem eager_eq (h : ActorStep s s' a p p') : s.eager m₀ a = some (p.eager m₀ s.vm.mem) := by
  rw [Sys.eager, h.proc]
  rfl

/-- The memory of the process stays what it is. -/
theorem eager_same (h : ActorStep s s' a p p')
    (hsame : p'.eager m₀ s'.vm.mem = p.eager m₀ s.vm.mem) : s'.eager m₀ = s.eager m₀ := by
  rw [h.eager_update, hsame, ← h.eager_eq, Function.update_eq_self]

theorem fromStart (h : ActorStep s s' a p p') (hstart : FromStart s₀ s)
    (hvmas : ∀ v ∈ p'.vmas, v ∈ p.vmas ∨ FileWithheld s₀.vm.alloc v.fileData v.fileSize.toNat) :
    FromStart s₀ s' := by
  refine ⟨hstart.kept.trans h.effect.withheld, fun q hq v hv => ?_, h.stub.trans hstart.stub⟩
  rw [h.procs] at hq
  rcases List.mem_cons.1 hq with rfl | hq
  · rcases hvmas v hv with hv | hfile
    · exact hstart.files p (List.mem_of_find?_eq_some h.proc) v hv
    · exact hfile
  · exact hstart.files q (List.mem_of_mem_eraseP hq) v hv

/-- Neither the mappings nor the regions of the process change. -/
theorem quiet (h : ActorStep s s' a p p') (hstart : FromStart s₀ s) (hmem : s'.vm.mem = s.vm.mem)
    (hpgd : p'.pgd = p.pgd) (hvmas : p'.vmas = p.vmas)
    (hhandling : p'.task.isHandlingSignal = p.task.isHandlingSignal)
    (hvaddr : p'.signalStackVaddr = p.signalStackVaddr) :
    s'.eager s₀.vm.mem = s.eager s₀.vm.mem ∧ FromStart s₀ s' := by
  refine ⟨h.eager_same ?_, h.fromStart hstart fun v hv => .inl (hvmas ▸ hv)⟩
  have hview : view s₀.vm.mem s'.vm.mem p' = view s₀.vm.mem s.vm.mem p := by
    funext x
    rw [view, view, hmem, hpgd, hvmas]
  rw [Proc.eager, Proc.eager, hview, hhandling, hvaddr]

end ActorStep

/-! ## Steps -/

/-- The memory of a process that is added. -/
theorem eager_insert {l : List Proc} (hnodup : (s'.procs.map Proc.addr).Nodup)
    (hprocs : s'.procs = q :: l)
    (hold : ∀ b, (l.find? (·.addr = b)).map (Proc.eager m₀ s'.vm.mem) = s.eager m₀ b) :
    s.eager m₀ q.addr = none ∧
      s'.eager m₀ = Function.update (s.eager m₀) q.addr (some (q.eager m₀ s'.vm.mem)) := by
  rw [hprocs, List.map_cons, List.nodup_cons] at hnodup
  constructor
  · rw [← hold, List.find?_eq_none.2, Option.map_none]
    intro r hr
    simpa using fun heq : r.addr = q.addr => hnodup.1 (heq ▸ List.mem_map_of_mem hr)
  · funext b
    rcases eq_or_ne b q.addr with rfl | hne
    · rw [Function.update_self, Sys.eager, Sys.proc, hprocs, List.find?_cons_of_pos (by simp)]
      rfl
    · rw [Function.update_of_ne hne, ← hold, Sys.eager, Sys.proc, hprocs,
        List.find?_cons_of_neg (by simpa using Ne.symm hne)]

theorem sysFork_stub {ret : Option ℤ} (hf : sysFork s p rest = some (s', ret)) :
    s'.stub = s.stub := by
  rw [sysFork] at hf
  dsimp only at hf
  split_ifs at hf
  · obtain ⟨rfl, -⟩ := Prod.mk.inj (Option.some.inj hf)
    rfl
  · obtain ⟨rfl, -⟩ := Prod.mk.inj (Option.some.inj hf)
    rfl
  · obtain ⟨rfl, -⟩ := Prod.mk.inj (Option.some.inj hf)
    rfl
  · obtain ⟨files, -, hf⟩ := Option.bind_eq_some_iff.1 hf
    obtain ⟨rfl, -⟩ := Prod.mk.inj (Option.some.inj hf)
    rfl

namespace Inv

/-- `sys_fork`. -/
theorem eager_fork (h : Inv g s lost opened) (hstart : FromStart s₀ s) (hsound : Sound s (.fork a))
    (hs : s.step (.fork a) = some s') :
    Eager.Step s₀.vm.mem s₀.stub.page (s.eager s₀.vm.mem) (s'.eager s₀.vm.mem) (.fork a) ∧
      FromStart s₀ s' := by
  have ⟨lost', opened', h'⟩ := h.step hsound hs
  obtain ⟨p, hp, -, -, hs⟩ := syscall_eq hs
  obtain ⟨⟨s₁, ret⟩, hf, heq⟩ := Option.map_eq_some_iff.1 hs
  obtain ⟨hsig, hnodes⟩ := hsound p hp
  obtain ⟨heffect, hcontents, hprocs⟩ := (h.proc hp).effect_fork hnodes hf
  have haddr := addr_of_proc hp
  set f : Proc → Proc := fun q => if q.addr = a then q.returns (toReg (ret.getD (-1))) else q
  have hs' : s' = { s₁ with procs := s₁.procs.map f } := heq.symm
  have hrest : (s.others a).map f = s.others a := by
    apply (List.map_congr_left fun q hq => ?_).trans (List.map_id _)
    exact if_neg (h.addr_ne_of_others hp hq)
  have hfp : f p = p.returns (toReg (ret.getD (-1))) := if_pos haddr
  -- the parent and the others are as before
  have hparent : ActorStep s { s₁ with procs := f p :: s.others a } a p (f p) :=
    ⟨hp, heffect, rfl, by rw [hfp]; rfl, (sysFork_stub hf : s₁.stub = s.stub)⟩
  have heager : (f p).eager s₀.vm.mem s₁.vm.mem = p.eager s₀.vm.mem s.vm.mem := by
    rw [hfp]
    exact eager_congr_contents hcontents
  have hsame := hparent.eager_same heager
  have hkept := hparent.fromStart hstart fun v hv => .inl (by rw [hfp] at hv; exact hv)
  rcases hprocs with hprocs | ⟨c, hprocs, hdata, hhandling, hcopy⟩
  · rw [hprocs, List.map_cons, hrest] at hs'
    subst hs'
    exact ⟨.inl hsame, hkept⟩
  · rw [hprocs, List.map_cons, List.map_cons, hrest] at hs'
    have hnodup := h'.nodup_addr
    have hne : c.addr ≠ a := by
      intro heq
      have hfc : f c = c.returns (toReg (ret.getD (-1))) := if_pos heq
      rw [hs', hfc, hfp, List.map_cons, List.map_cons, List.nodup_cons] at hnodup
      exact hnodup.1 (List.mem_cons.2 (.inl (heq.trans haddr.symm)))
    have hfc : f c = c := if_neg hne
    rw [hfc] at hs'
    subst hs'
    obtain ⟨hnone, hinsert⟩ := eager_insert (s := s) hnodup rfl fun b => congrFun hsame b
    refine ⟨.inr ⟨p.eager s₀.vm.mem s.vm.mem, c.addr, hparent.eager_eq, hnone, ?_⟩,
      ⟨hkept.kept, fun q hq v hv => ?_, hkept.stub⟩⟩
    · have hview : view s₀.vm.mem s₁.vm.mem c = view s₀.vm.mem s.vm.mem p := by
        funext x
        rw [view, view, hcopy, ← regionPage_data, hdata, regionPage_data]
      rw [hinsert]
      dsimp only
      rw [Proc.eager, Proc.eager, hview, hhandling]
      rfl
    · rcases List.mem_cons.1 hq with rfl | hq
      · have hv' : data v ∈ p.vmas.map data := by
          rw [← hdata]
          exact List.mem_map_of_mem hv
        obtain ⟨u, hu, huv⟩ := List.mem_map.1 hv'
        have hdat : v.fileData = u.fileData := (congrArg VmArea.fileData huv).symm
        have hlen : v.fileSize = u.fileSize := (congrArg VmArea.fileSize huv).symm
        rw [hdat, hlen]
        exact hstart.files p (List.mem_of_find?_eq_some hp) u hu
      · exact hkept.files q hq v hv

/-- `check_signals`. -/
theorem eager_checkSignals (h : Inv g s lost opened) (hstart : FromStart s₀ s)
    (hsound : Sound s (.checkSignals a)) (hs : s.step (.checkSignals a) = some s') :
    Eager.Step s₀.vm.mem s₀.stub.page (s.eager s₀.vm.mem) (s'.eager s₀.vm.mem) (.checkSignals a) ∧
      FromStart s₀ s' := by
  obtain ⟨lost', opened', h'⟩ := h.step hsound hs
  obtain ⟨p, hp, -, hs⟩ := withAlive_eq hs
  split_ifs at hs
  obtain ⟨⟨vm', p'⟩, hc, rfl⟩ := Option.map_eq_some_iff.1 hs
  have heffect := (h.proc hp).effect_checkSignals (hsound p hp) hc
  rw [Process.checkSignals] at hc
  split at hc
  · rename_i i hd _
    obtain ⟨-, hpgd, haddr, htask, new, hvmas, hfile, hvaddr, halign, hstop, hbelow, hapart,
      hcontents⟩ :=
      (h.proc hp).effect_deliver (hsound p hp hd) hc
    have hactor : ActorStep s { s with
        vm := vm', procs := { p' with mode := .user } :: s.others a } a p
        { p' with mode := .user } := ⟨hp, heffect, rfl, haddr, rfl⟩
    have hreg := h.regions p (List.mem_of_find?_eq_some hp)
    have hok : VmasOk p'.vmas := (h'.regions _ (List.mem_cons_self ..)).ok
    rw [hvmas] at hok
    have hview : view s₀.vm.mem vm'.mem { p' with mode := .user } =
        Function.update (view s₀.vm.mem s.vm.mem p) (leafIndex new.start) (some s.stub.page) :=
      view_deliver hreg hok halign hstop hbelow hvmas hpgd hcontents
    refine ⟨.inr ⟨_, leafIndex new.start, hactor.eager_eq,
      view_leafIndex hreg halign hstop hbelow hapart, ?_⟩,
      hactor.fromStart hstart fun v hv => ?_⟩
    · rw [hactor.eager_update]
      dsimp only
      rw [Proc.eager, hview, hstart.stub]
      dsimp only
      rw [htask, hvaddr]
      rfl
    · dsimp only at hv
      rw [hvmas, (insertVma_perm _ _).mem_iff] at hv
      rcases List.mem_cons.1 hv with rfl | hv
      · rw [hfile]
        exact .inr (fileWithheld_zero _ _)
      · exact .inl hv
  · obtain ⟨rfl, rfl⟩ := Prod.mk.inj (Option.some.inj hc)
    have hactor : ActorStep s { s with procs := { p with mode := .user } :: s.others a } a p
        { p with mode := .user } := ⟨hp, heffect, rfl, rfl, rfl⟩
    exact (hactor.quiet hstart rfl rfl rfl rfl rfl).imp_left .inl

/-- `sys_sigreturn`. -/
theorem eager_sigreturn (h : Inv g s lost opened) (hstart : FromStart s₀ s)
    (hs : s.step (.sigreturn a) = some s') :
    Eager.Step s₀.vm.mem s₀.stub.page (s.eager s₀.vm.mem) (s'.eager s₀.vm.mem) (.sigreturn a) ∧
      FromStart s₀ s' := by
  obtain ⟨lost', opened', h'⟩ := h.step (show Sound s (.sigreturn a) from trivial) hs
  obtain ⟨p, hp, -, -, hs⟩ := syscall_eq hs
  obtain rfl := Option.some.inj hs
  obtain ⟨heffect, hpgd, haddr, hhandling, hcases⟩ := (h.proc hp).effect_sigreturn
  have hok' : VmasOk (sysSigreturn s.vm p).2.vmas := (h'.regions _ (List.mem_cons_self ..)).ok
  generalize sysSigreturn s.vm p = r at *
  have hactor : ActorStep s { s with
      vm := r.1, procs := { r.2 with mode := .signals } :: s.others a } a p
      { r.2 with mode := .signals } := ⟨hp, heffect, rfl, haddr, rfl⟩
  rcases hcases with ⟨hsig, hvmas, hcontents⟩ | ⟨hsig, v, hperm, hvaddr, halign, hlt, hstop,
    hcontents⟩
  · refine ⟨⟨_, hactor.eager_eq, ?_⟩, hactor.fromStart hstart fun v hv => .inl ?_⟩
    · have hview : view s₀.vm.mem r.1.mem { r.2 with mode := .signals } =
          view s₀.vm.mem s.vm.mem p := by
        funext x
        rw [view, view, hpgd, hcontents, hvmas]
      rw [hactor.eager_update]
      dsimp only
      rw [Proc.eager, Proc.eager, hview, hsig]
      dsimp only
      rw [hhandling]
      rfl
    · rwa [← hvmas]
  · refine ⟨⟨_, hactor.eager_eq, ?_⟩, hactor.fromStart hstart fun v hv => .inl ?_⟩
    · have hview : view s₀.vm.mem r.1.mem { r.2 with mode := .signals } =
          Function.update (view s₀.vm.mem s.vm.mem p) (leafIndex v.start) none :=
        view_sigreturn (h.regions p (List.mem_of_find?_eq_some hp)).ok hok' hperm halign hlt hstop
          hpgd
          hcontents
      rw [hactor.eager_update]
      dsimp only
      rw [Proc.eager, Proc.eager, hview, hsig]
      dsimp only
      rw [hhandling, hvaddr]
      rfl
    · exact hperm.mem_iff.2 (List.mem_cons_of_mem _ hv)

/-- `sys_mmap`. -/
theorem eager_mmap {addr length : BitVec 64} {prot flags : BitVec 32} (h : Inv g s lost opened)
    (hstart : FromStart s₀ s) (hsound : Sound s (.mmap a addr length prot flags))
    (hs : s.step (.mmap a addr length prot flags) = some s') :
    Eager.Step s₀.vm.mem s₀.stub.page (s.eager s₀.vm.mem) (s'.eager s₀.vm.mem)
      (.mmap a addr length prot flags) ∧ FromStart s₀ s' := by
  obtain ⟨lost', opened', h'⟩ := h.step hsound hs
  obtain ⟨p, hp, -, -, hs⟩ := syscall_eq hs
  obtain ⟨r, hr, rfl⟩ := Option.map_eq_some_iff.1 hs
  obtain ⟨heffect, hcases⟩ := (h.proc hp).effect_sysMmap (fun start h0 => hsound p hp h0 start) hr
  have hok : VmasOk r.vmas := (h'.regions _ (List.mem_cons_self ..)).ok
  have hactor : ActorStep s { s with
      vm := r.vm
      procs := { p with vmas := r.vmas }.returns (r.ret.getD (-1)) :: s.others a } a p
      ({ p with vmas := r.vmas }.returns (r.ret.getD (-1))) := ⟨hp, heffect, rfl, rfl, rfl⟩
  rcases hcases with ⟨hvmas, hcontents⟩ | ⟨new, hvmas, hfile, hstop, hapart, hcontents⟩
  · refine ⟨.inl (hactor.eager_same ?_), hactor.fromStart hstart fun v hv => .inl ?_⟩
    · have hview : view s₀.vm.mem r.vm.mem ({ p with vmas := r.vmas }.returns (r.ret.getD (-1))) =
          view s₀.vm.mem s.vm.mem p := by
        funext x
        rw [view, view]
        change (contents r.vm.mem p.pgd x).or (regionPage _ r.vmas x) = _
        rw [hcontents, hvmas]
      rw [Proc.eager, Proc.eager, hview]
      rfl
    · change v ∈ r.vmas at hv
      rwa [hvmas] at hv
  · have hreg := h.regions p (List.mem_of_find?_eq_some hp)
    rw [hvmas] at hok
    refine ⟨.inr ⟨_, new.start.toNat, hactor.eager_eq, fun x hx => ?_, ?_⟩,
      hactor.fromStart hstart fun v hv => ?_⟩
    · exact view_of_apart hreg hapart ((covers_of_stop hstop).2 hx)
    · have hview : view s₀.vm.mem r.vm.mem ({ p with vmas := r.vmas }.returns (r.ret.getD (-1))) =
          Eager.addZeros (view s₀.vm.mem s.vm.mem p) new.start.toNat (roundLength length).toNat :=
        view_mmap hreg hok hfile hstop hapart hvmas rfl hcontents
      rw [hactor.eager_update]
      dsimp only
      rw [Proc.eager, hview]
      rfl
    · change v ∈ r.vmas at hv
      rw [hvmas, (insertVma_perm _ _).mem_iff] at hv
      rcases List.mem_cons.1 hv with rfl | hv
      · rw [hfile]
        exact .inr (fileWithheld_zero _ _)
      · exact .inl hv

/-- A program is started. -/
theorem eager_launch (h : Inv g s lost opened) (hstart : FromStart s₀ s)
    (hsound : Sound s (.launch dat size)) (harchive : FromArchive s₀ (.launch dat size))
    (hs : s.step (.launch dat size) = some s') :
    Eager.Step s₀.vm.mem s₀.stub.page (s.eager s₀.vm.mem) (s'.eager s₀.vm.mem) (.launch dat size) ∧
      FromStart s₀ s' := by
  obtain ⟨lost', opened', h'⟩ := h.step hsound hs
  rw [Sys.step] at hs
  split_ifs at hs
  obtain ⟨⟨vm', p⟩, hl, rfl⟩ := Option.map_eq_some_iff.1 hs
  obtain ⟨heffect, hhandling, hcontents, code, stack, hvmas⟩ := h.effect_launch hl
  have hold : ∀ b, (s.procs.find? (·.addr = b)).map (Proc.eager s₀.vm.mem vm'.mem) =
      s.eager s₀.vm.mem b :=
    fun b => Option.map_congr fun q hq =>
      eager_congr_contents (heffect.others q (List.mem_of_find?_eq_some hq)).contents
  obtain ⟨hnone, hinsert⟩ := eager_insert (s := s) h'.nodup_addr rfl hold
  refine ⟨⟨p.addr, hnone, ?_⟩,
    ⟨hstart.kept.trans heffect.withheld, fun q hq v hv => ?_, hstart.stub⟩⟩
  · rw [hinsert]
    dsimp only
    rw [Proc.eager, view_program hsound hcontents hvmas, hhandling]
    rfl
  · rcases List.mem_cons.1 hq with rfl | hq
    · exact fileWithheld_program hsound harchive hvmas hv
    · exact hstart.files q hq v hv

/-- `sys_exec`. -/
theorem eager_exec (h : Inv g s lost opened) (hstart : FromStart s₀ s)
    (hsound : Sound s (.exec a dat size)) (harchive : FromArchive s₀ (.exec a dat size))
    (hs : s.step (.exec a dat size) = some s') :
    Eager.Step s₀.vm.mem s₀.stub.page (s.eager s₀.vm.mem) (s'.eager s₀.vm.mem) (.exec a dat size) ∧
      FromStart s₀ s' := by
  obtain ⟨p, hp, -, -, hs⟩ := syscall_eq hs
  obtain ⟨⟨vm', p'⟩, he, rfl⟩ := Option.map_eq_some_iff.1 hs
  obtain ⟨heffect, haddr, htask, hcontents, code, stack, hvmas⟩ := (h.proc hp).effect_exec he
  have hactor : ActorStep s { s with vm := vm', procs := p'.returns 0 :: s.others a } a p
      (p'.returns 0) :=
    ⟨hp, heffect, rfl, haddr, rfl⟩
  refine ⟨⟨?_, ?_⟩, hactor.fromStart hstart fun v hv =>
    .inr (fileWithheld_program hsound.1 harchive hvmas hv)⟩
  · rw [hactor.eager_eq]
    rfl
  · have hview : view s₀.vm.mem vm'.mem (p'.returns 0) = (Eager.program s₀.vm.mem dat size).pages :=
      view_program hsound.1 hcontents hvmas
    have hhandling : (p'.returns 0).task.isHandlingSignal = false :=
      (congrArg Thread.isHandlingSignal htask).trans (hsound.2 p hp)
    rw [hactor.eager_update]
    dsimp only
    rw [Proc.eager, hview, hhandling]
    rfl

/-- A page fault. -/
theorem eager_fault {cause badaddr : BitVec 64} (h : Inv g s lost opened) (hstart : FromStart s₀ s)
    (hsound : Sound s (.fault a cause badaddr)) (hs : s.step (.fault a cause badaddr) = some s') :
    Eager.Step s₀.vm.mem s₀.stub.page (s.eager s₀.vm.mem) (s'.eager s₀.vm.mem)
        (.fault a cause badaddr) ∧
      FromStart s₀ s' := by
  obtain ⟨p, hp, -, hs⟩ := withAlive_eq hs
  obtain ⟨⟨vm', handled⟩, hf, rfl⟩ := Option.map_eq_some_iff.1 hs
  have hm := List.mem_of_find?_eq_some hp
  obtain ⟨heffect, hcases⟩ := (h.proc hp).effect_pageFault hsound.1 (hsound.2 p hp) hf
  dsimp only
  set p' := if handled then p else p.ended .terminated with hp'
  have hactor : ActorStep s { s with vm := vm', procs := p' :: s.others a } a p p' := by
    refine ⟨hp, heffect, rfl, ?_, rfl⟩
    rw [hp']
    cases handled <;> rfl
  have hsame : p'.eager s₀.vm.mem vm'.mem = p.eager s₀.vm.mem vm'.mem := by
    rw [hp']
    cases handled <;> rfl
  have hvmas : p'.vmas = p.vmas := by
    rw [hp']
    cases handled <;> rfl
  refine ⟨hactor.eager_same (hsame.trans ?_), hactor.fromStart hstart fun v hv => .inl (hvmas ▸ hv)⟩
  rcases hcases with hcontents | ⟨v, x, hv, hcov, hnone, hcontents⟩
  · exact eager_congr_contents hcontents
  · rw [Proc.eager, Proc.eager, view_fault (h.regions p hm).ok hv hcov hnone
      (funext fun off => hstart.filePage hm hv off) hcontents]

/-- A store. -/
theorem eager_store {i : Fin 512} {word : BitVec 64} (h : Inv g s lost opened)
    (hstart : FromStart s₀ s) (hs : s.step (.store a va i word) = some s') :
    Eager.Step s₀.vm.mem s₀.stub.page (s.eager s₀.vm.mem) (s'.eager s₀.vm.mem)
        (.store a va i word) ∧
      FromStart s₀ s' := by
  obtain ⟨p, hp, -, hs⟩ := withAlive_eq hs
  obtain ⟨e, he, hs⟩ := Option.bind_eq_some_iff.1 hs
  dsimp only at hs
  split_ifs at hs with hflags
  obtain rfl := Option.some.inj hs
  obtain ⟨heffect, c, hsome, hcontents⟩ :=
    (h.proc hp).effect_store hflags.1 he hflags.2.1 hflags.2.2.2 i word
  have hactor : ActorStep s { s with
      vm := s.vm.store (frameAt (s.vm.mem e.1 e.2)) i word
      procs := p :: s.others a } a p p := ⟨hp, heffect, rfl, rfl, rfl⟩
  have hview' : view s₀.vm.mem (s.vm.store (frameAt (s.vm.mem e.1 e.2)) i word).mem p =
      Function.update (view s₀.vm.mem s.vm.mem p) (leafIndex va)
        (some (Function.update c i word)) :=
    view_update hcontents
  refine ⟨⟨_, c, hactor.eager_eq, view_of_contents hsome, ?_⟩,
    hactor.fromStart hstart fun v hv => .inl hv⟩
  rw [hactor.eager_update]
  dsimp only
  rw [Proc.eager, hview']
  rfl

/-- A zombie is freed. -/
theorem eager_reap (h : Inv g s lost opened) (hstart : FromStart s₀ s)
    (hs : s.step (.reap a) = some s') :
    Eager.Step s₀.vm.mem s₀.stub.page (s.eager s₀.vm.mem) (s'.eager s₀.vm.mem) (.reap a) ∧
      FromStart s₀ s' := by
  have hinv := h.owned.spaces.owns.inv
  rw [Sys.step] at hs
  obtain ⟨p, hp, hs⟩ := withProc_eq hs
  split_ifs at hs
  obtain ⟨⟨vm', files'⟩, hc, rfl⟩ := Option.map_eq_some_iff.1 hs
  have h₁ := AllocOnly.closeFiles _ hinv hc
  have heffect := (h₁.trans (.reap h₁.withheld.inv s.kernelPgd p)).effect (s.others a)
  refine ⟨⟨?_, ?_⟩, hstart.kept.trans heffect.withheld,
    fun q hq => hstart.files q (List.mem_of_mem_eraseP hq), hstart.stub⟩
  · rw [Sys.eager, hp]
    rfl
  · funext b
    rcases eq_or_ne b a with rfl | hne
    · rw [Function.update_self, Sys.eager, Sys.proc, List.find?_eq_none.2, Option.map_none]
      intro q hq
      simpa using h.addr_ne_of_others hp hq
    · rw [Function.update_of_ne hne, ← eager_others heffect hne]
      rfl

/-- A step of the kernel is a step of the eager memories. -/
theorem eager_step (h : Inv g s lost opened) (hstart : FromStart s₀ s) (hsound : Sound s op)
    (harchive : FromArchive s₀ op) (hs : s.step op = some s') :
    Eager.Step s₀.vm.mem s₀.stub.page (s.eager s₀.vm.mem) (s'.eager s₀.vm.mem) op ∧
      FromStart s₀ s' := by
  have hinv := h.owned.spaces.owns.inv
  have hisolated := (h.isolated hsound hs).effect
  cases op with
  | launch dat size => exact h.eager_launch hstart hsound harchive hs
  | fault a cause badaddr => exact h.eager_fault hstart hsound hs
  | store a va i word => exact h.eager_store hstart hs
  | fork a => exact h.eager_fork hstart hsound hs
  | exec a dat size => exact h.eager_exec hstart hsound harchive hs
  | mmap a addr length prot flags => exact h.eager_mmap hstart hsound hs
  | sigreturn a => exact h.eager_sigreturn hstart hs
  | checkSignals a => exact h.eager_checkSignals hstart hsound hs
  | reap a => exact h.eager_reap hstart hs
  | trap a regs =>
    obtain ⟨p, hp, -, hs⟩ := withAlive_eq hs
    split_ifs at hs
    obtain rfl := Option.some.inj hs
    exact ActorStep.quiet ⟨hp, hisolated, rfl, rfl, rfl⟩ hstart rfl rfl rfl rfl rfl
  | openFile a vnode flags =>
    obtain ⟨p, hp, -, -, hs⟩ := syscall_eq hs
    obtain ⟨⟨vm', files', fdt, fd⟩, ho, rfl⟩ := Option.map_eq_some_iff.1 hs
    exact ActorStep.quiet ⟨hp, hisolated, rfl, rfl, rfl⟩ hstart
      (AllocOnly.sysOpen hinv ho).mem rfl rfl rfl rfl
  | closeFile a fd =>
    obtain ⟨p, hp, -, -, hs⟩ := syscall_eq hs
    obtain ⟨⟨vm', files', fdt, ret⟩, hc, rfl⟩ := Option.map_eq_some_iff.1 hs
    exact ActorStep.quiet ⟨hp, hisolated, rfl, rfl, rfl⟩ hstart
      (AllocOnly.sysClose hinv hc).mem rfl rfl rfl rfl
  | signal a signum handler =>
    obtain ⟨p, hp, -, -, hs⟩ := syscall_eq hs
    dsimp only at hs
    split_ifs at hs
    · obtain rfl := Option.some.inj hs
      exact ActorStep.quiet ⟨hp, hisolated, rfl, rfl, rfl⟩ hstart rfl rfl rfl rfl rfl
    · obtain rfl := Option.some.inj hs
      exact ActorStep.quiet ⟨hp, hisolated, rfl, rfl, rfl⟩ hstart rfl rfl rfl rfl rfl
  | call a ret =>
    obtain ⟨p, hp, -, -, hs⟩ := syscall_eq hs
    obtain rfl := Option.some.inj hs
    exact ActorStep.quiet ⟨hp, hisolated, rfl, rfl, rfl⟩ hstart rfl rfl rfl rfl rfl
  | interrupt a =>
    obtain ⟨p, hp, -, -, hs⟩ := syscall_eq hs
    obtain rfl := Option.some.inj hs
    exact ActorStep.quiet ⟨hp, hisolated, rfl, rfl, rfl⟩ hstart rfl rfl rfl rfl rfl
  | pend a signum =>
    obtain ⟨p, hp, -, hs⟩ := withAlive_eq hs
    split_ifs at hs
    obtain rfl := Option.some.inj hs
    exact ActorStep.quiet ⟨hp, hisolated, rfl, rfl, rfl⟩ hstart rfl rfl rfl rfl rfl
  | exit a =>
    obtain ⟨p, hp, -, -, hs⟩ := syscall_eq hs
    obtain ⟨⟨vm', files'⟩, hc, rfl⟩ := Option.map_eq_some_iff.1 hs
    exact ActorStep.quiet ⟨hp, hisolated, rfl, rfl, rfl⟩ hstart
      (AllocOnly.closeFiles _ hinv hc).mem rfl rfl
      rfl rfl
  | stop a status =>
    obtain ⟨p, hp, -, hs⟩ := withAlive_eq hs
    split_ifs at hs
    obtain rfl := Option.some.inj hs
    exact ActorStep.quiet ⟨hp, hisolated, rfl, rfl, rfl⟩ hstart rfl rfl rfl rfl rfl
  | kernelAlloc size =>
    obtain rfl := Option.some.inj hs
    exact ⟨rfl, hstart.kept.trans hisolated.withheld, hstart.files, hstart.stub⟩
  | kernelFree x k =>
    rw [Sys.step] at hs
    split_ifs at hs
    obtain rfl := Option.some.inj hs
    exact ⟨rfl, hstart.kept.trans hisolated.withheld, hstart.files, hstart.stub⟩

end Inv

/-! ## Runs -/

/-- The runs whose programs are in the archive, with their steps. -/
inductive ArchiveRun (s₀ : Sys) : List Op → Sys → Prop
  | nil : ArchiveRun s₀ [] s₀
  | snoc {ops : List Op} {op : Op} {s s' : Sys} (h : ArchiveRun s₀ ops s) (hsound : Sound s op)
    (harchive : FromArchive s₀ op) (hs : s.exec op = some s') : ArchiveRun s₀ (ops ++ [op]) s'

theorem archiveRun_of_soundRun {ops ops' : List Op} (h : ArchiveRun s₀ ops s)
    (harchive : ∀ op ∈ ops', FromArchive s₀ op) (hs : s.soundRun ops' = some s') :
    ArchiveRun s₀ (ops ++ ops') s' := by
  induction ops' generalizing s ops with
  | nil =>
    cases hs
    rw [List.append_nil]
    exact h
  | cons op ops' ih =>
    obtain ⟨s₁, hs₁, hs⟩ := Option.bind_eq_some_iff.1 hs
    dsimp only at hs₁
    split_ifs at hs₁ with hsound
    have h₁ := h.snoc hsound (harchive op (List.mem_cons_self ..)) hs₁
    have h₂ := ih h₁ (fun op' hop => harchive op' (List.mem_cons_of_mem _ hop)) hs
    rwa [List.append_assoc] at h₂

/-- What the process at `a` loads from `va`, where its page table permits it. -/
def Sys.load (s : Sys) (a va : Addr) : Option (BitVec 64) := do
  let p ← s.proc a
  let e ← entryAt s.vm p.pgd va
  let pte := s.vm.mem e.1 e.2
  if va.toNat < 2 ^ 38 ∧ HasFlag pte pteV ∧ HasFlag pte pteU ∧ HasFlag pte pteR then
    some (s.vm.mem (frameAt pte) (vpn va 3))
  else none

theorem Booted.fromStart (h : Booted s₀) : FromStart s₀ s₀ :=
  ⟨.refl h.inv.owned.spaces.owns.inv, fun p hp => by (rw [h.procs] at hp; cases hp), rfl⟩

theorem ArchiveRun.eager_run {ops : List Op} (h₀ : Booted s₀) (h : ArchiveRun s₀ ops s) :
    (∃ lost opened, Inv s₀.ground s lost opened) ∧ FromStart s₀ s ∧
      Eager.Run s₀.vm.mem s₀.stub.page ops (s.eager s₀.vm.mem) := by
  induction h with
  | nil =>
    have hempty : s₀.eager s₀.vm.mem = fun _ => none := by
      funext a
      rw [Sys.eager, Sys.proc, h₀.procs]
      rfl
    refine ⟨⟨0, [], h₀.inv⟩, h₀.fromStart, ?_⟩
    rw [hempty]
    exact .nil
  | snoc h hsound harchive hs ih =>
    obtain ⟨⟨lost, opened, hinv⟩, hstart, hrun⟩ := ih
    have hs := step_of_exec hs
    obtain ⟨hstep, hstart'⟩ := hinv.eager_step hstart hsound harchive hs
    exact ⟨hinv.step hsound hs, hstart', .snoc hrun hstep⟩

/-- A process reads what is in its pages. -/
theorem load_eager (hl : s.load a va = some w) : Eager.load (s.eager m₀) a va = some w := by
  obtain ⟨p, hp, hl⟩ := Option.bind_eq_some_iff.1 hl
  obtain ⟨e, he, hl⟩ := Option.bind_eq_some_iff.1 hl
  dsimp only at hl
  split_ifs at hl with hflags
  obtain ⟨-, -, hleaf⟩ := leafAt_of_entryAt (userVa_of_lt hflags.1) he hflags.2.1
  have hview : view m₀ s.vm.mem p (leafIndex va) =
      some (s.vm.mem (frameAt (s.vm.mem e.1 e.2))) := by
    apply view_of_contents
    rw [contents, mapped, hleaf]
    rfl
  rw [Eager.load, Sys.eager, hp, Option.map_some, Option.bind_eq_bind, Option.bind_some, Proc.eager]
  dsimp only
  rw [hview]
  exact hl

/-- The pages of a process are those of its regions. -/
theorem isSome_view (h : Regions (leafAt 256 m p.pgd) p.vmas) :
    (view m₀ m p x).isSome ↔ ∃ v ∈ p.vmas, Covers v x := by
  constructor
  · intro hsome
    by_contra hno
    push Not at hno
    have hleaf : leafAt 256 m p.pgd x = none := by
      by_contra hw
      obtain ⟨w, hw⟩ := Option.ne_none_iff_exists'.1 hw
      obtain ⟨v, hv, hcov, -⟩ := h.covered x w hw
      exact hno v hv hcov
    rw [view, contents, mapped, hleaf, regionPage_of_not h.ok hno] at hsome
    cases hsome
  · rintro ⟨v, hv, hcov⟩
    rw [view, regionPage_of_covers h.ok hv hcov, Option.isSome_or]
    simp

/-- **Lazy memory is eager memory.** A run of the kernel is a run of eager memories: each process
has the pages of its regions, and what it loads is in them. -/
theorem lazy_refines_eager {ops : List Op} (h₀ : Booted s₀) (h : ArchiveRun s₀ ops s) :
    ∃ e, Eager.Run s₀.vm.mem s₀.stub.page ops e ∧ (∀ a, (e a).isSome ↔ (s.proc a).isSome) ∧
      (∀ a p, s.proc a = some p → ∃ q, e a = some q ∧
        ∀ x, (q.pages x).isSome ↔ ∃ v ∈ p.vmas, Covers v x) ∧
      ∀ a va w, s.load a va = some w → Eager.load e a va = some w := by
  obtain ⟨⟨lost, opened, hinv⟩, -, hrun⟩ := h.eager_run h₀
  refine ⟨s.eager s₀.vm.mem, hrun, fun a => ?_, fun a p hp => ?_, fun a va w => load_eager⟩
  · rw [Sys.eager, Option.isSome_map]
  · refine ⟨p.eager s₀.vm.mem s.vm.mem, ?_, fun x => ?_⟩
    · rw [Sys.eager, hp]
      rfl
    · exact isSome_view (hinv.regions p (List.mem_of_find?_eq_some hp))

theorem fromArchive_stackShared : ∀ op ∈ stackShared, FromArchive sixteenPages op := by
  intro op hop
  rcases List.mem_append.1 hop with hop | hop
  · rcases List.mem_cons.1 hop with rfl | hop
    · exact fileWithheld_zero _ _
    · simp only [List.mem_cons, List.not_mem_nil, or_false] at hop
      rcases hop with rfl | rfl | rfl <;> trivial
  · simp only [List.mem_cons, List.not_mem_nil, or_false] at hop
    rcases hop with rfl | rfl | rfl <;> trivial

/-- A page of the stack is shared by a parent and its child. -/
theorem lazy_refines_eager_stack : ∃ s e, sixteenPages.soundRun stackShared = some s ∧
    Eager.Run sixteenPages.vm.mem sixteenPages.stub.page stackShared e ∧
    ∀ a va w, s.load a va = some w → Eager.load e a va = some w := by
  have hrun : ((sixteenPages.soundRun stackShared).map fun _ => true) = some true := by
    decide +kernel
  obtain ⟨s, hs, -⟩ := Option.map_eq_some_iff.1 hrun
  obtain ⟨e, he, -, -, hload⟩ := lazy_refines_eager booted_sixteenPages
    (archiveRun_of_soundRun .nil fromArchive_stackShared hs)
  exact ⟨s, e, hs, he, hload⟩

end BareMetalOS.Process
