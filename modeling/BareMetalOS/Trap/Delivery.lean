import BareMetalOS.Trap.Current

/-!
# Delivery of signals

`check_signals` runs at the end of the `do_trap` of every interrupt, also of one taken in supervisor
mode. If the interrupted thread is then in a system call with a signal pending, the frame of the
kernel is redirected to the handler of user code, which starts in supervisor mode
(`not_handlersInUserMode_uartRead`).

`Spared` says that this does not come about: no interrupt is taken in supervisor mode by a thread
with a signal to deliver, and no signal is sent to a thread inside such an interrupt. Then every
handler starts in user mode (`handlersInUserMode_of_spared`).
-/

namespace BareMetalOS.Trap

open Memory (Addr)
open Sched

variable {m m' : Machine} {op : MOp} {act act' : Activation} {rest : List Activation} {a : Addr}
  {t u : Thread}

/-- The frame of an interrupt taken in supervisor mode, with `check_signals` still to come. -/
def Activation.Interrupts (act : Activation) : Prop :=
  spp act.regs.status ∧ (act.phase = .handler ∨ act.phase = .tasks ∨ act.phase = .signals)

/-- No frame of the kernel waits for a thread with a signal to deliver, a system call is made in
user mode, and so is what is saved for `sys_sigreturn`. -/
structure Calm (m : Machine) : Prop where
  quiet : ∀ a t, m.sched.heap a = some t → deliverable t → ∀ act ∈ m.stack a, ¬ act.Interrupts
  calls : ∀ a, ∀ act ∈ m.stack a, act.phase = .syscall → spp act.regs.status = false
  saved : ∀ a t, m.sched.heap a = some t → t.isHandlingSignal →
    spp t.signalSavedRegs.status = false

/-- A thread with a signal to deliver takes no interrupt in supervisor mode, and no signal is sent
to a thread that has taken one and is not in a handler; user code behaves as in `TpKept`. -/
def Spared (m : Machine) : MOp → Prop
  | .kernelTrap regs => isInterrupt regs.cause →
    ∀ t, m.sched.heap m.sched.tp = some t → deliverable t = false
  | .kernel (.sysKill pid signum) => ∀ a t, m.sched.heap a = some t → t.pid = pid →
    t.signalHandler signum.toNat ≠ 0 → t.isHandlingSignal = false →
    ∀ act ∈ m.stack a, ¬ act.Interrupts
  | op => TpKept m op

/-- The step makes the current thread handle a signal. -/
def StartsHandler (m m' : Machine) : Prop :=
  ∃ t t', m.sched.heap m.sched.tp = some t ∧ m'.sched.heap m.sched.tp = some t' ∧
    t.isHandlingSignal = false ∧ t'.isHandlingSignal = true

/-- When `check_signals` redirects the frame on top of the stack to a handler, that frame and the
copy it saves are of user mode, and the return from the trap goes to user mode. -/
def HandlersInUserMode (m : Machine) : Prop :=
  ∀ trampoline m', m.exec (.checkSignals trampoline) = some m' → StartsHandler m m' →
    ∃ act act' rest t', m.stack m.owner = act :: rest ∧ spp act.regs.status = false ∧
      m'.sched.heap m.sched.tp = some t' ∧ t'.signalSavedRegs = act.regs ∧
      m'.stack m'.owner = act' :: rest ∧ spp act'.regs.status = false ∧
      ∃ m'', m'.exec .ret = some m'' ∧ m''.user = true

theorem Spared.tpKept (h : Spared m op) : TpKept m op := by
  cases op <;> first | exact h | exact trivial

/-! ## Writing the top frame -/

namespace Calm

/-- The kernel stack of the thread `a` becomes `l`. -/
theorem setStack (h : Calm m) {l : List Activation}
    (hl : ∀ t, m.sched.heap a = some t → deliverable t → ∀ act ∈ l, ¬ act.Interrupts)
    (hc : ∀ act ∈ l, act.phase = .syscall → spp act.regs.status = false) :
    Calm { m with stack := Function.update m.stack a l } := by
  refine ⟨fun b t ht hd x hx => ?_, fun b x hx => ?_, h.saved⟩
  · by_cases hb : b = a
    · subst hb
      simp only [Function.update_self] at hx
      exact hl t ht hd x hx
    · simp only [Function.update_of_ne hb] at hx
      exact h.quiet b t ht hd x hx
  · by_cases hb : b = a
    · subst hb
      simp only [Function.update_self] at hx
      exact hc x hx
    · simp only [Function.update_of_ne hb] at hx
      exact h.calls b x hx

/-- A frame on top of others of the thread that uses the stack. -/
theorem cons (h : Calm m) (hrest : ∀ x ∈ rest, x ∈ m.stack m.owner)
    (hq : ∀ t, m.sched.heap m.owner = some t → deliverable t → ¬ act.Interrupts)
    (hc : act.phase = .syscall → spp act.regs.status = false) : Calm (m.setTop act rest) := by
  refine h.setStack (fun t ht hd x hx => ?_) fun x hx => ?_
  · rcases List.mem_cons.1 hx with rfl | hx
    · exact hq t ht hd
    · exact h.quiet _ t ht hd x (hrest x hx)
  · rcases List.mem_cons.1 hx with rfl | hx
    · exact hc
    · exact h.calls _ x (hrest x hx)

/-- The current thread becomes `u`. -/
theorem setThread (h : Calm m)
    (hq : deliverable u → ∀ act ∈ m.stack m.sched.tp, ¬ act.Interrupts)
    (hs : u.isHandlingSignal → spp u.signalSavedRegs.status = false) :
    Calm { m with sched := m.sched.set m.sched.tp u } := by
  refine ⟨fun b t ht => ?_, h.calls, fun b t ht => ?_⟩
  · by_cases hb : b = m.sched.tp
    · subst hb
      rw [State.set_heap_self] at ht
      cases ht
      exact hq
    · rw [State.set_heap_of_ne hb] at ht
      exact h.quiet b t ht
  · by_cases hb : b = m.sched.tp
    · subst hb
      rw [State.set_heap_self] at ht
      cases ht
      exact hs
    · rw [State.set_heap_of_ne hb] at ht
      exact h.saved b t ht

/-- `check_signals` finds a signal to deliver only on a frame of user mode. -/
theorem spp_of_deliverable (h : Calm m) (ho : Owned m) (hstack : m.stack m.owner = act :: rest)
    (hphase : act.phase = .signals) (ht : m.sched.heap m.sched.tp = some t) (hd : deliverable t) :
    spp act.regs.status = false := by
  have := h.quiet m.sched.tp t ht hd act (by rw [ho.tp, hstack]; simp)
  simpa [Activation.Interrupts, hphase] using this

/-- An operation of the thread system. -/
theorem effect {op : Op} {s' : State} {owner : Addr} (h : Calm m) (he : Effect m.sched op s')
    (hk : Spared m (.kernel op)) : Calm { m with sched := s', owner := owner } := by
  refine ⟨fun a u hu hd => ?_, h.calls, fun a u hu hh => ?_⟩
  · rcases he.signals hu with hnew | ⟨t, ht, hsame⟩ | ⟨t, signum, ht, rfl, hh, hhandling, -⟩
    · simp [deliverable, hnew.sigpending] at hd
    · refine h.quiet a t ht ?_
      rwa [deliverable, ← hsame.sigpending, ← hsame.isHandlingSignal]
    · refine hk a t ht rfl hh ?_
      rw [← hhandling]
      simpa using (Bool.and_eq_true_iff.1 hd).2
  · rcases he.signals hu with hnew | ⟨t, ht, hsame⟩ | ⟨t, signum, ht, -, -, hhandling, hsaved⟩
    · rw [hnew.isHandlingSignal] at hh
      cases hh
    · rw [hsame.signalSavedRegs]
      exact h.saved a t ht (hsame.isHandlingSignal ▸ hh)
    · rw [hsaved]
      exact h.saved a t ht (hhandling ▸ hh)

end Calm

/-! ## Each step -/

theorem not_interrupts_of_spp (h : spp act.regs.status = false) : ¬ act.Interrupts := by
  rintro ⟨hs, -⟩
  rw [h] at hs
  cases hs

/-- A trap in supervisor mode that is no interrupt does not get to `check_signals`. -/
theorem not_interrupts_dispatch {regs : PtRegs} {cause : BitVec 64} {sie : Bool}
    (h : ¬ isInterrupt cause) : ¬ Activation.Interrupts ⟨regs, dispatch cause, sie⟩ := by
  rintro ⟨-, hp⟩
  simp only [dispatch, if_neg h] at hp
  split at hp
  · simp at hp
  · split at hp <;> simp at hp

theorem calm_fork {mem : Addr} {copied : Bool} (h : Calm m) (ho : Owned m)
    (ha : m.sched.heap mem = none) (he : fork m mem copied = some m') : Calm m' := by
  obtain ⟨act, rest, huser, hstack, hphase, he⟩ := atPhase_some he
  rw [Option.bind_eq_bind, Option.bind_eq_some_iff] at he
  obtain ⟨r, hr, he⟩ := he
  cases he
  obtain ⟨q, hq⟩ := ho.queue
  have heff : Effect m.sched (.sysFork mem copied) r.1 :=
    effect_of_exec hq ha (by rw [exec, hr, Option.map_some])
  obtain rfl := ho.rest_eq_nil hstack hphase
  have h' : Calm { m with sched := r.1 } := h.effect heff trivial
  by_cases hc : copied ∧ mem ≠ 0
  · simp only [if_pos hc]
    refine h'.setStack (fun t ht hd x hx => ?_) fun x hx => ?_
    · cases List.mem_singleton.1 hx
      simp [Activation.Interrupts]
    · cases List.mem_singleton.1 hx
      simp
  · simp only [if_neg hc]
    exact h'

theorem calm_checkSignals {trampoline : BitVec 64} (h : Calm m) (ho : Owned m)
    (he : checkSignals m trampoline = some m') : Calm m' := by
  obtain ⟨act, rest, huser, hstack, hphase, hm'⟩ := checkSignals_some he
  have hrest : ∀ x ∈ rest, x ∈ m.stack m.owner := by
    intro x hx
    rw [hstack]
    exact List.mem_cons_of_mem _ hx
  rcases hm' with rfl | ⟨t, i, ht, hd, rfl⟩
  · exact h.cons hrest (fun _ _ _ => by simp [Activation.Interrupts]) (by simp)
  · have htop : Calm (m.setTop ⟨signalFrame t i act.regs trampoline, .done, act.sie⟩ rest) :=
      h.cons hrest (fun _ _ _ => by simp [Activation.Interrupts]) (by simp)
    refine htop.setThread (u := signalThread t i act.regs) (by simp [deliverable, signalThread])
      fun _ => ?_
    -- the frame was not one of the kernel, or the thread would have had a signal to deliver
    exact h.spp_of_deliverable ho hstack hphase ht hd

theorem calm_sysSigreturn (h : Calm m) (ho : Owned m) (hk : TpKept m .sysSigreturn)
    (he : sysSigreturn m = some m') : Calm m' := by
  obtain ⟨act, rest, huser, hstack, hphase, he⟩ := atPhase_some he
  rw [Option.bind_eq_bind, Option.bind_eq_some_iff] at he
  obtain ⟨t, ht, he⟩ := he
  cases he
  obtain rfl := ho.rest_eq_nil hstack hphase
  have hsaved : spp t.signalSavedRegs.status = false := h.saved _ t ht (hk t ht)
  have htop : Calm (m.setTop ⟨t.signalSavedRegs, .signals, act.sie⟩ []) :=
    h.cons (by simp) (fun _ _ _ => not_interrupts_of_spp hsaved) (by simp)
  refine htop.setThread (u := { t with isHandlingSignal := false }) (fun _ x hx => ?_) (by simp)
  simp only [Machine.setTop, ho.tp, Function.update_self, List.mem_singleton] at hx
  subst hx
  exact not_interrupts_of_spp hsaved

/-- Code that keeps `SPP` in the top frame and goes on to a point before `check_signals` only from
another such point, or from a system call. -/
theorem calm_atPhase {phase : Phase} {f : Activation → Activation} (h : Calm m)
    (he : m.atPhase phase (fun act rest => some (m.setTop (f act) rest)) = some m')
    (hspp : ∀ act, (f act).regs.status = act.regs.status)
    (hq : ∀ act, act.phase = phase → (f act).Interrupts → act.phase ≠ .syscall → act.Interrupts)
    (hc : ∀ act, (f act).phase = .syscall → act.phase = .syscall) : Calm m' := by
  obtain ⟨act, rest, huser, hstack, hphase, he⟩ := atPhase_some he
  cases he
  have hcalls := h.calls m.owner act (by rw [hstack]; simp)
  refine h.cons (fun x hx => by rw [hstack]; exact List.mem_cons_of_mem _ hx)
    (fun t ht hd hi => ?_) fun hp => ?_
  · by_cases hsys : act.phase = .syscall
    · have hs := hi.1
      rw [hspp, hcalls hsys] at hs
      cases hs
    · exact h.quiet m.owner t ht hd act (by rw [hstack]; simp) (hq act hphase hi hsys)
  · rw [hspp]
    exact hcalls (hc act hp)

/-- **One step.** A spared step keeps frames of the kernel away from signals. -/
theorem Calm.step (h : Calm m) (ho : Owned m) (ha : MAllowed m op) (hk : Spared m op)
    (he : m.exec op = some m') : Calm m' := by
  cases op with
  | userTrap regs =>
    rw [Machine.exec] at he
    split at he
    · cases he
      have hs := withSpp_false regs.status
      have h' : Calm (m.setTop ⟨{ regs with status := withSpp regs.status false },
          dispatch regs.cause, false⟩ (m.stack m.owner)) :=
        h.cons (fun _ => id) (fun _ _ _ => not_interrupts_of_spp hs) fun _ => hs
      exact ⟨h'.quiet, h'.calls, h'.saved⟩
    · cases he
  | kernelTrap regs =>
    rw [Machine.exec] at he
    split at he
    · cases he
    · cases he
      have h' : Calm (m.setTop ⟨{ regs with
          x := Function.update regs.x tpReg m.sched.tp
          status := withSpp regs.status true }, dispatch regs.cause, false⟩ (m.stack m.owner)) := by
        refine h.cons (fun _ => id) (fun t ht hd hi => ?_) fun hp => (ha.2 hp).elim
        by_cases hint : isInterrupt regs.cause
        · rw [← ho.tp] at ht
          rw [hk hint t ht] at hd
          cases hd
        · exact not_interrupts_dispatch hint hi
      exact ⟨h'.quiet, h'.calls, h'.saved⟩
  | kernel op =>
    rw [Machine.exec] at he
    split at he
    · cases he
    · rw [runKernel, Option.bind_eq_bind, Option.bind_eq_some_iff] at he
      obtain ⟨s, hs, he⟩ := he
      cases he
      obtain ⟨q, hq⟩ := ho.queue
      have h' : Calm { m with
          sched := s, owner := if s.tp = m.sched.tp then m.owner else s.tp } :=
        h.effect (effect_of_exec hq ha.1 hs) hk
      cases op with
      | threadCreate mem => exact h'.setStack (a := mem) (l := []) (by simp) (by simp)
      | _ => exact h'
  | fork mem copied => exact calm_fork h ho ha he
  | sysExec => exact calm_atPhase h he (fun _ => rfl) (fun _ _ hi _ => hi) fun _ => id
  | sysSigreturn => exact calm_sysSigreturn h ho hk he
  | syscallReturn ret =>
    exact calm_atPhase h he (fun _ => rfl) (fun _ hp _ hn => (hn hp).elim) (by simp)
  | uartReadSie sie => exact calm_atPhase h he (fun _ => rfl) (fun _ _ hi _ => hi) fun _ => id
  | taskSie sie => exact calm_atPhase h he (fun _ => rfl) (fun _ _ hi _ => hi) fun _ => id
  | handled =>
    exact calm_atPhase h he (fun _ => rfl) (fun _ hp hi _ => ⟨hi.1, .inl hp⟩) (by simp)
  | tasksDone =>
    exact calm_atPhase h he (fun _ => rfl) (fun _ hp hi _ => ⟨hi.1, .inr (.inl hp)⟩) (by simp)
  | faultDone =>
    exact calm_atPhase h he (fun _ => rfl) (by simp [Activation.Interrupts]) (by simp)
  | checkSignals trampoline => exact calm_checkSignals h ho he
  | ret =>
    obtain ⟨act, rest, huser, hstack, -, he⟩ := atPhase_some he
    cases he
    have hrest : ∀ x ∈ rest, x ∈ m.stack m.owner := by
      intro x hx
      rw [hstack]
      exact List.mem_cons_of_mem _ hx
    have h' := h.setStack (a := m.owner) (l := rest)
      (fun t ht hd x hx => h.quiet _ t ht hd x (hrest x hx)) fun x hx => h.calls _ x (hrest x hx)
    exact ⟨h'.quiet, h'.calls, h'.saved⟩
  | enterUser =>
    rw [Machine.exec] at he
    split at he
    · cases he
      exact ⟨h.quiet, h.calls, h.saved⟩
    · cases he

/-! ## Runs -/

/-- A spared step. -/
def SparedStep (m m' : Machine) : Prop := ∃ op, MAllowed m op ∧ Spared m op ∧ m.exec op = some m'

theorem calm_booted (mem : Addr) : Calm (.booted mem) := by
  refine ⟨fun a t ht hd act hact => ?_, fun a act hact => ?_, fun a t ht hh => ?_⟩
  · simp [Machine.booted] at hact
  · simp [Machine.booted] at hact
  · rw [(State.booted_some ht).2] at hh
    cases hh

theorem Calm.run (h : Calm m) (ho : Owned m) (hs : Relation.ReflTransGen SparedStep m m') :
    Owned m' ∧ Calm m' := by
  induction hs with
  | refl => exact ⟨ho, h⟩
  | tail _ hs ih =>
    obtain ⟨op, ha, hk, he⟩ := hs
    exact ⟨ih.1.step ha hk.tpKept he, ih.2.step ih.1 ha hk he⟩

/-- The mode that `ret_from_exception` returns to. -/
theorem exec_ret (huser : m.user = false) (hstack : m.stack m.owner = act :: rest)
    (hphase : act.phase = .done) :
    ∃ m', m.exec .ret = some m' ∧ m'.user = !spp act.regs.status := by
  rw [Machine.exec, retFromException, Machine.atPhase, huser, hstack]
  exact ⟨_, if_pos hphase, rfl⟩

theorem Calm.handlersInUserMode (h : Calm m) (ho : Owned m) : HandlersInUserMode m := by
  rintro trampoline m' he ⟨v, v', hv, hv', hh, hh'⟩
  obtain ⟨act, rest, huser, hstack, hphase, rfl | ⟨t, i, ht, hd, rfl⟩⟩ := checkSignals_some he
  · -- nothing is delivered
    rw [show v' = v from Option.some.inj (hv'.symm.trans hv), hh] at hh'
    cases hh'
  · have hspp := h.spp_of_deliverable ho hstack hphase ht hd
    have htop := Function.update_self m.owner
      (⟨signalFrame t i act.regs trampoline, .done, act.sie⟩ :: rest) m.stack
    refine ⟨act, _, rest, signalThread t i act.regs, hstack, hspp, State.set_heap_self .., rfl,
      htop, hspp, ?_⟩
    obtain ⟨m'', hret, hmode⟩ := exec_ret (m := m.delivered t i act rest trampoline) huser
      htop rfl
    refine ⟨m'', hret, ?_⟩
    rw [hmode]
    simp [signalFrame, hspp]

/-- **If every step is spared, signal handlers start in user mode.** -/
theorem handlersInUserMode_of_spared {mem : Addr} (h₀ : mem ≠ 0)
    (hs : Relation.ReflTransGen SparedStep (.booted mem) m) : HandlersInUserMode m := by
  obtain ⟨ho, hc⟩ := (calm_booted mem).run (owned_booted h₀) hs
  exact hc.handlersInUserMode ho

/-- To spare a step that sends a signal, look at the stack of the thread with that pid. -/
theorem spared_sysKill {pid signum : ℤ} (ho : Owned m) (ht : m.sched.heap a = some t)
    (hpid : t.pid = pid) (h : ∀ act ∈ m.stack a, ¬ act.Interrupts) :
    Spared m (.kernel (.sysKill pid signum)) := by
  intro b u hu hp _ _
  obtain ⟨q, hq⟩ := ho.queue
  obtain rfl := hq.pid_inj a b t u ht hu (hpid.trans hp.symm)
  exact h

/-- A thread at `0x2000` (of pid 1) registers a handler for signal 15, sends the signal to itself,
and the handler starts. -/
theorem handlersInUserMode_of_spared_self : ∃ m m', m.exec (.checkSignals 0x5ff0) = some m' ∧
    StartsHandler m m' ∧ Relation.ReflTransGen SparedStep (.booted 0x1000) m ∧
    HandlersInUserMode m := by
  have hcall : Relation.ReflTransGen SparedStep (.booted 0x1000) _ :=
    .tail (.tail (.tail (.tail (.tail (.tail (.tail (.tail (.tail .refl
      ⟨.kernel (.threadCreate 0x2000), ⟨rfl, by simp⟩, trivial, rfl⟩)
      ⟨.kernel .schedule, ⟨trivial, by simp⟩, trivial, rfl⟩)
      ⟨.enterUser, trivial, trivial, rfl⟩)
      ⟨.userTrap (ecallRegs 0x2000), trivial, rfl, rfl⟩)
      ⟨.kernel (.sysSignal 15 0x400), ⟨trivial, by simp⟩, trivial, rfl⟩)
      ⟨.syscallReturn 0, trivial, trivial, rfl⟩) ⟨.checkSignals 0, trivial, trivial, rfl⟩)
      ⟨.ret, trivial, trivial, rfl⟩) ⟨.userTrap (ecallRegs 0x2000), trivial, rfl, rfl⟩
  have ho := ((calm_booted _).run (owned_booted (by decide)) hcall).1
  have hrun : Relation.ReflTransGen SparedStep (.booted 0x1000) _ :=
    .tail (.tail hcall ⟨.kernel (.sysKill 1 15), ⟨trivial, by simp⟩,
      spared_sysKill ho (a := 0x2000) rfl rfl fun act hact => by
        cases List.mem_singleton.1 hact
        exact not_interrupts_of_spp rfl, rfl⟩)
      ⟨.syscallReturn 0, trivial, trivial, rfl⟩
  exact ⟨_, _, rfl, ⟨_, _, rfl, rfl, rfl, rfl⟩, hrun, handlersInUserMode_of_spared (by decide) hrun⟩

/-- A timer interrupt. -/
def timerRegs : PtRegs := { PtRegs.zero with cause := 0x8000000000000005 }

/-- A process (at `0x2000`, of pid 1) registers a handler for signal 15, forks a child (at `0x3000`)
and reads from the UART. While it waits, the child sends it the signal; then a timer interrupt comes
where `sys_uart_read` has enabled interrupts, and its frame is redirected to the handler, which
starts in supervisor mode. -/
theorem not_handlersInUserMode_uartRead :
    ∃ m, Relation.ReflTransGen MStep (.booted 0x1000) m ∧ ¬ HandlersInUserMode m := by
  have hregister : Relation.ReflTransGen MStep (.booted 0x1000) _ :=
    .tail (.tail (.tail (.tail (.tail (.tail (.tail (.tail .refl
      ⟨.kernel (.threadCreate 0x2000), ⟨rfl, by simp⟩, rfl⟩)
      ⟨.kernel .schedule, ⟨trivial, by simp⟩, rfl⟩) ⟨.enterUser, trivial, rfl⟩)
      ⟨.userTrap (ecallRegs 0x2000), trivial, rfl⟩)
      ⟨.kernel (.sysSignal 15 0x400), ⟨trivial, by simp⟩, rfl⟩)
      ⟨.syscallReturn 0, trivial, rfl⟩) ⟨.checkSignals 0, trivial, rfl⟩) ⟨.ret, trivial, rfl⟩
  have hread : Relation.ReflTransGen MStep (.booted 0x1000) _ :=
    .tail (.tail (.tail (.tail (.tail (.tail (.tail hregister
      ⟨.userTrap (ecallRegs 0x2000), trivial, rfl⟩) ⟨.fork 0x3000 true, rfl, rfl⟩)
      ⟨.syscallReturn 2, trivial, rfl⟩) ⟨.checkSignals 0, trivial, rfl⟩) ⟨.ret, trivial, rfl⟩)
      ⟨.userTrap (ecallRegs 0x2000), trivial, rfl⟩) ⟨.uartReadSie true, trivial, rfl⟩
  have hkill : Relation.ReflTransGen MStep (.booted 0x1000) _ :=
    .tail (.tail (.tail (.tail (.tail (.tail (.tail (.tail hread
      ⟨.kernel .schedule, ⟨trivial, by simp⟩, rfl⟩)
      ⟨.kernel .schedule, ⟨trivial, by simp⟩, rfl⟩) ⟨.ret, trivial, rfl⟩)
      ⟨.userTrap (ecallRegs 0x3000), trivial, rfl⟩)
      ⟨.kernel (.sysKill 1 15), ⟨trivial, by simp⟩, rfl⟩)
      ⟨.syscallReturn 0, trivial, rfl⟩) ⟨.checkSignals 0, trivial, rfl⟩) ⟨.ret, trivial, rfl⟩
  have hrun : Relation.ReflTransGen MStep (.booted 0x1000) _ :=
    .tail (.tail (.tail (.tail (.tail hkill ⟨.userTrap (ecallRegs 0x3000), trivial, rfl⟩)
      ⟨.kernel .schedule, ⟨trivial, by simp⟩, rfl⟩)
      ⟨.kernelTrap timerRegs, ⟨fun _ => rfl, by decide⟩, rfl⟩)
      ⟨.handled, trivial, rfl⟩) ⟨.tasksDone, trivial, rfl⟩
  refine ⟨_, hrun, fun h => ?_⟩
  obtain ⟨act, act', rest, t', hstack, hspp, -⟩ := h 0 _ rfl ⟨_, _, rfl, rfl, rfl, rfl⟩
  cases hstack
  exact absurd hspp (by decide +kernel)

end BareMetalOS.Trap
