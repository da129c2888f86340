import BareMetalOS.Sched.Signals
import BareMetalOS.Trap.Machine
import BareMetalOS.Sched.Runs

/-!
# The current thread

`get_cur_thread` reads `tp`. In the kernel it should give the thread on whose stack the hart runs.
`handle_exception` does not reload `tp`, so that after a trap in user mode it has whatever value
user code left there (`not_current_user`). `TpKept` says that user code leaves it alone, and that
`sys_sigreturn`, which restores it with the other registers, is only called from a signal handler;
then `tp` is right throughout the run (`current_of_tpKept`).

The invariant `Owned` follows `tp` through the trap frames: each frame on the stack of a thread, and
the registers saved when a signal is delivered to it, hold the address of that thread.
-/

namespace BareMetalOS.Trap

open Memory (Addr)
open Sched

variable {m m' : Machine} {op : MOp} {act act' : Activation} {rest : List Activation} {a : Addr}
  {t u : Thread} {q : List Addr}

/-- Only the innermost of several frames can be that of a trap in user mode or of a system call. -/
def Nested : List Activation → Prop
  | [] => True
  | act :: rest => (rest ≠ [] → spp act.regs.status ∧ act.phase ≠ .syscall) ∧ Nested rest

/-- `tp` and its copies in the trap frames and the saved registers designate their owner. -/
structure Owned (m : Machine) : Prop where
  queue : ∃ q, Inv m.sched q
  tp : m.sched.tp = m.owner
  frames : ∀ a, ∀ act ∈ m.stack a, act.regs.x tpReg = a
  saved : ∀ a t, m.sched.heap a = some t → t.isHandlingSignal → t.signalSavedRegs.x tpReg = a
  nested : ∀ a, Nested (m.stack a)
  user : m.user → m.stack m.owner = []

/-- User code leaves `tp` as it was when it got the hart, and calls `sys_sigreturn` only from a
signal handler. -/
def TpKept (m : Machine) : MOp → Prop
  | .userTrap regs => regs.x tpReg = m.sched.tp
  | .sysSigreturn => ∀ t, m.sched.heap m.sched.tp = some t → t.isHandlingSignal
  | _ => True

/-! ## Writing the top frame -/

theorem atPhase_some {phase : Phase} {code : Activation → List Activation → Option Machine}
    (h : m.atPhase phase code = some m') :
    ∃ act rest, m.user = false ∧ m.stack m.owner = act :: rest ∧ act.phase = phase ∧
      code act rest = some m' := by
  unfold Machine.atPhase at h
  split at h
  · rename_i act rest huser hstack
    split at h
    · rename_i hphase
      exact ⟨act, rest, huser, hstack, hphase, h⟩
    · cases h
  · cases h

namespace Owned

/-- The kernel stack of the thread `a` becomes `l`. -/
theorem setStack (h : Owned m) (huser : m.user = false) {l : List Activation}
    (hl : ∀ act ∈ l, act.regs.x tpReg = a) (hn : Nested l) :
    Owned { m with stack := Function.update m.stack a l } := by
  refine ⟨h.queue, h.tp, fun b x hx => ?_, h.saved, fun b => ?_,
    fun hu => (Bool.false_ne_true (huser.symm.trans hu)).elim⟩
  · by_cases hb : b = a
    · subst hb
      simp only [Function.update_self] at hx
      exact hl x hx
    · simp only [Function.update_of_ne hb] at hx
      exact h.frames b x hx
  · by_cases hb : b = a
    · subst hb
      simp only [Function.update_self]
      exact hn
    · simp only [Function.update_of_ne hb]
      exact h.nested b

theorem setTop (h : Owned m) (huser : m.user = false) (hstack : m.stack m.owner = act :: rest)
    (htp : act'.regs.x tpReg = m.owner)
    (hspp : rest ≠ [] → spp act'.regs.status ∧ act'.phase ≠ .syscall) :
    Owned (m.setTop act' rest) := by
  have hframes := h.frames m.owner
  have hnested := h.nested m.owner
  rw [hstack] at hframes hnested
  refine h.setStack huser (fun x hx => ?_) ⟨hspp, hnested.2⟩
  rcases List.mem_cons.1 hx with rfl | hx
  · exact htp
  · exact hframes x (List.mem_cons_of_mem _ hx)

/-- The top frame keeps its place among the others when it stays one of the kernel. -/
theorem top_spp (h : Owned m) (hstack : m.stack m.owner = act :: rest) (hne : rest ≠ []) :
    spp act.regs.status ∧ act.phase ≠ .syscall := by
  have := h.nested m.owner
  rw [hstack] at this
  exact this.1 hne

theorem top_tp (h : Owned m) (hstack : m.stack m.owner = act :: rest) :
    act.regs.x tpReg = m.owner :=
  h.frames m.owner act (by rw [hstack]; simp)

/-- A system call is handled on the only frame. -/
theorem rest_eq_nil (h : Owned m) (hstack : m.stack m.owner = act :: rest)
    (hphase : act.phase = .syscall) : rest = [] := by
  by_contra hne
  exact (h.top_spp hstack hne).2 hphase

theorem setThread (h : Owned m) (ht : m.sched.heap m.sched.tp = some t) (hpid : u.pid = t.pid)
    (hnext : u.next = t.next) (hs : u.status = t.status)
    (hsaved : u.isHandlingSignal → u.signalSavedRegs.x tpReg = m.owner) :
    Owned { m with sched := m.sched.set m.sched.tp u } := by
  obtain ⟨q, hq⟩ := h.queue
  refine ⟨⟨q, hq.setSame ht hpid hnext hs⟩, h.tp, h.frames, fun a v hv hh => ?_, h.nested, h.user⟩
  by_cases ha : a = m.sched.tp
  · subst ha
    rw [State.set_heap_self] at hv
    cases hv
    rw [h.tp]
    exact hsaved hh
  · rw [State.set_heap_of_ne ha] at hv
    exact h.saved a v hv hh

/-- A frame pushed by a trap. -/
theorem push (h : Owned m) (htp : act.regs.x tpReg = m.owner)
    (hspp : m.stack m.owner ≠ [] → spp act.regs.status ∧ act.phase ≠ .syscall) :
    Owned { m with
      user := false
      stack := Function.update m.stack m.owner (act :: m.stack m.owner) } := by
  have h' : Owned { m with user := false } :=
    ⟨h.queue, h.tp, h.frames, h.saved, h.nested, fun hu => (Bool.false_ne_true hu).elim⟩
  refine h'.setStack rfl (fun x hx => ?_) ⟨hspp, h.nested m.owner⟩
  rcases List.mem_cons.1 hx with rfl | hx
  · exact htp
  · exact h.frames _ x hx

/-- An operation of the thread system; whichever thread goes on, `tp` and the stack in use are its
own. -/
theorem effect {op : Op} {s' : State} (h : Owned m) (huser : m.user = false)
    (he : Effect m.sched op s') :
    Owned { m with
      sched := s'
      owner := if s'.tp = m.sched.tp then m.owner else s'.tp } := by
  obtain ⟨q, hq⟩ := h.queue
  refine ⟨he.inv hq, ?_, h.frames, fun a u hu hh => ?_, h.nested,
    fun hu => (Bool.false_ne_true (huser.symm.trans hu)).elim⟩
  · by_cases htp : s'.tp = m.sched.tp
    · simp only [if_pos htp]
      rw [htp, h.tp]
    · simp only [if_neg htp]
  · rcases he.signals hu with hnew | ⟨t, ht, hsame⟩ | ⟨t, signum, ht, -, -, hhandling, hsaved⟩
    · rw [hnew.isHandlingSignal] at hh
      cases hh
    · rw [hsame.signalSavedRegs]
      exact h.saved a t ht (hsame.isHandlingSignal ▸ hh)
    · rw [hsaved]
      exact h.saved a t ht (hhandling ▸ hh)

end Owned

theorem withSpp_true (status : BitVec 64) : spp (withSpp status true) = true := by
  simp [spp, withSpp]

theorem withSpp_false (status : BitVec 64) : spp (withSpp status false) = false := by
  simp [spp, withSpp]

/-! ## Each step -/

theorem owned_fork {mem : Addr} {copied : Bool} (h : Owned m)
    (ha : m.sched.heap mem = none) (he : fork m mem copied = some m') : Owned m' := by
  obtain ⟨act, rest, huser, hstack, hphase, he⟩ := atPhase_some he
  rw [Option.bind_eq_bind, Option.bind_eq_some_iff] at he
  obtain ⟨r, hr, he⟩ := he
  cases he
  obtain ⟨q, hq⟩ := h.queue
  have heff : Effect m.sched (.sysFork mem copied) r.1 :=
    effect_of_exec hq ha (by rw [exec, hr, Option.map_some])
  obtain rfl := h.rest_eq_nil hstack hphase
  -- a fork does not switch
  have htp : r.1.tp = m.sched.tp := heff.fork_tp
  have h' := h.effect huser heff
  simp only [if_pos htp] at h'
  by_cases hc : copied ∧ mem ≠ 0
  · simp only [if_pos hc]
    refine h'.setStack huser (fun x hx => ?_) ⟨by simp, trivial⟩
    cases List.mem_singleton.1 hx
    simp [childRegs]
  · simp only [if_neg hc]
    exact h'

/-- The signal `i` is delivered to the current thread `t` on the top frame `act`. -/
def Machine.delivered (m : Machine) (t : Thread) (i : ℕ) (act : Activation)
    (rest : List Activation) (trampoline : BitVec 64) : Machine :=
  { m with
    sched := m.sched.set m.sched.tp (signalThread t i act.regs)
    stack := Function.update m.stack m.owner
      (⟨signalFrame t i act.regs trampoline, .done, act.sie⟩ :: rest) }

/-- What `check_signals` does: it delivers a signal to the current thread, or goes on. -/
theorem checkSignals_some {trampoline : BitVec 64} (he : checkSignals m trampoline = some m') :
    ∃ act rest, m.user = false ∧ m.stack m.owner = act :: rest ∧ act.phase = .signals ∧
      (m' = m.setTop { act with phase := .done } rest ∨
        ∃ t i, m.sched.heap m.sched.tp = some t ∧ deliverable t ∧
          m' = m.delivered t i act rest trampoline) := by
  obtain ⟨act, rest, huser, hstack, hphase, he⟩ := atPhase_some he
  refine ⟨act, rest, huser, hstack, hphase, ?_⟩
  split at he
  · cases he
    exact .inl rfl
  · rw [Option.bind_eq_bind, Option.bind_eq_some_iff] at he
    obtain ⟨t, ht, he⟩ := he
    split at he
    · rename_i i hdel _
      cases he
      exact .inr ⟨t, i, ht, hdel, rfl⟩
    · cases he
      exact .inl rfl

theorem owned_checkSignals {trampoline : BitVec 64} (h : Owned m)
    (he : checkSignals m trampoline = some m') : Owned m' := by
  obtain ⟨act, rest, huser, hstack, hphase, hm'⟩ := checkSignals_some he
  have htp := h.top_tp hstack
  have hspp := fun hne => (h.top_spp hstack hne).1
  rcases hm' with rfl | ⟨t, i, ht, -, rfl⟩
  · exact h.setTop huser hstack htp fun hne => ⟨hspp hne, by simp⟩
  · have htop : Owned (m.setTop ⟨signalFrame t i act.regs trampoline, .done, act.sie⟩ rest) := by
      refine h.setTop huser hstack ?_ fun hne => ⟨hspp hne, by simp⟩
      rw [← htp]
      simp [signalFrame, tpReg]
    exact htop.setThread (u := signalThread t i act.regs) ht rfl rfl rfl fun _ => htp

theorem owned_sysSigreturn (h : Owned m) (hk : TpKept m .sysSigreturn)
    (he : sysSigreturn m = some m') : Owned m' := by
  obtain ⟨act, rest, huser, hstack, hphase, he⟩ := atPhase_some he
  rw [Option.bind_eq_bind, Option.bind_eq_some_iff] at he
  obtain ⟨t, ht, he⟩ := he
  cases he
  obtain rfl := h.rest_eq_nil hstack hphase
  have htop : Owned (m.setTop ⟨t.signalSavedRegs, .signals, act.sie⟩ []) := by
    refine h.setTop huser hstack ?_ (by simp)
    rw [← h.tp]
    exact h.saved _ t ht (hk t ht)
  exact htop.setThread (u := { t with isHandlingSignal := false }) ht rfl rfl rfl (by simp)

/-- Code that changes neither `tp` nor `SPP` in the top frame, and does not go back to the handling
of a system call. -/
theorem owned_atPhase {phase : Phase} {f : Activation → Activation} (h : Owned m)
    (he : m.atPhase phase (fun act rest => some (m.setTop (f act) rest)) = some m')
    (htp : ∀ act, (f act).regs.x tpReg = act.regs.x tpReg)
    (hspp : ∀ act, (f act).regs.status = act.regs.status)
    (hphase : ∀ act, (f act).phase = .syscall → act.phase = .syscall) : Owned m' := by
  obtain ⟨act, rest, huser, hstack, -, he⟩ := atPhase_some he
  cases he
  refine h.setTop huser hstack (by rw [htp, h.top_tp hstack]) fun hne => ?_
  rw [hspp]
  exact ⟨(h.top_spp hstack hne).1, fun hp => (h.top_spp hstack hne).2 (hphase act hp)⟩

/-- **One step.** If user code leaves `tp` alone, every step keeps `tp` and its copies right. -/
theorem Owned.step (h : Owned m) (ha : MAllowed m op) (hk : TpKept m op)
    (he : m.exec op = some m') : Owned m' := by
  cases op with
  | userTrap regs =>
    rw [Machine.exec] at he
    split at he
    · rename_i huser
      cases he
      have hsched : { m.sched with tp := regs.x tpReg } = m.sched := by
        rw [show regs.x tpReg = m.sched.tp from hk]
      rw [userTrap, hsched]
      exact h.push (hk.trans h.tp) fun hne => (hne (h.user huser)).elim
    · cases he
  | kernelTrap regs =>
    rw [Machine.exec] at he
    split at he
    · cases he
    · cases he
      exact h.push (by simp [h.tp]) fun _ => ⟨withSpp_true _, ha.2⟩
  | kernel op =>
    rw [Machine.exec] at he
    split at he
    · cases he
    · rename_i huser
      have huser : m.user = false := by simpa using huser
      rw [runKernel, Option.bind_eq_bind, Option.bind_eq_some_iff] at he
      obtain ⟨s, hs, he⟩ := he
      cases he
      obtain ⟨q, hq⟩ := h.queue
      have h' := h.effect huser (effect_of_exec hq ha.1 hs)
      cases op with
      | threadCreate mem => exact h'.setStack (a := mem) huser (l := []) (by simp) trivial
      | _ => exact h'
  | fork mem copied => exact owned_fork h ha he
  | sysExec => exact owned_atPhase h he (fun act => by simp [tpReg]) (fun _ => rfl) fun _ => id
  | sysSigreturn => exact owned_sysSigreturn h hk he
  | syscallReturn ret =>
    exact owned_atPhase h he (fun act => by simp [tpReg]) (fun _ => rfl) (by simp)
  | uartReadSie sie => exact owned_atPhase h he (fun _ => rfl) (fun _ => rfl) fun _ => id
  | taskSie sie => exact owned_atPhase h he (fun _ => rfl) (fun _ => rfl) fun _ => id
  | handled => exact owned_atPhase h he (fun _ => rfl) (fun _ => rfl) (by simp)
  | tasksDone => exact owned_atPhase h he (fun _ => rfl) (fun _ => rfl) (by simp)
  | faultDone => exact owned_atPhase h he (fun _ => rfl) (fun _ => rfl) (by simp)
  | checkSignals trampoline => exact owned_checkSignals h he
  | ret =>
    obtain ⟨act, rest, huser, hstack, -, he⟩ := atPhase_some he
    cases he
    have htp := h.top_tp hstack
    have hnested := h.nested m.owner
    have hframes := h.frames m.owner
    rw [hstack] at hnested hframes
    have h' := h.setStack huser (a := m.owner) (l := rest)
      (fun x hx => hframes x (List.mem_cons_of_mem _ hx)) hnested.2
    rw [show act.regs.x tpReg = m.sched.tp by rw [htp, h.tp]]
    refine ⟨h'.queue, h'.tp, h'.frames, h'.saved, h'.nested, fun hu => ?_⟩
    -- a frame of user mode is the only one
    simp only [Function.update_self]
    by_contra hne
    have := (hnested.1 hne).1
    simp [this] at hu
  | enterUser =>
    rw [Machine.exec] at he
    split at he
    · rename_i hc
      cases he
      exact ⟨h.queue, h.tp, h.frames, h.saved, h.nested, fun _ => hc.2⟩
    · cases he

/-! ## Runs -/

/-- A step of the machine. -/
def MStep (m m' : Machine) : Prop := ∃ op, MAllowed m op ∧ m.exec op = some m'

/-- A step in which user code leaves `tp` alone. -/
def TpStep (m m' : Machine) : Prop := ∃ op, MAllowed m op ∧ TpKept m op ∧ m.exec op = some m'

theorem owned_booted {mem : Addr} (h₀ : mem ≠ 0) : Owned (.booted mem) := by
  refine ⟨⟨_, inv_booted h₀⟩, rfl, fun a act hact => ?_, fun a t ht hh => ?_, fun _ => trivial,
    fun _ => rfl⟩
  · simp [Machine.booted] at hact
  · rw [(State.booted_some ht).2] at hh
    cases hh

theorem Owned.run (h : Owned m) (hs : Relation.ReflTransGen TpStep m m') : Owned m' := by
  induction hs with
  | refl => exact h
  | tail _ hs ih =>
    obtain ⟨op, ha, hk, he⟩ := hs
    exact ih.step ha hk he

/-- In the kernel, `get_cur_thread` gives the thread on whose stack the hart runs. -/
def Current (m : Machine) : Prop := m.user = false → m.sched.tp = m.owner

/-- **If user code leaves `tp` alone, the current thread is the one switched to last.** -/
theorem current_of_tpKept {mem : Addr} (h₀ : mem ≠ 0)
    (hs : Relation.ReflTransGen TpStep (.booted mem) m) : Current m :=
  fun _ => ((owned_booted h₀).run hs).tp

/-- The registers of user code at an `ecall`, with `tp` set to this value. -/
def ecallRegs (tp : Addr) : PtRegs :=
  { PtRegs.zero with
    x := fun r => if r = tpReg then tp else 0
    cause := 8 }

/-- A kernel thread (at `0x2000`) enters user mode and makes a system call. -/
theorem current_of_tpKept_ecall : ∃ m, Relation.ReflTransGen TpStep (.booted 0x1000) m ∧
    m.user = false ∧ m.owner = 0x2000 ∧ Current m := by
  have hrun : Relation.ReflTransGen TpStep (.booted 0x1000) _ := .tail (.tail (.tail (.tail .refl
    ⟨.kernel (.threadCreate 0x2000), ⟨rfl, by simp⟩, trivial, rfl⟩)
    ⟨.kernel .schedule, ⟨trivial, by simp⟩, trivial, rfl⟩) ⟨.enterUser, trivial, trivial, rfl⟩)
    ⟨.userTrap (ecallRegs 0x2000), trivial, rfl, rfl⟩
  exact ⟨_, hrun, rfl, rfl, current_of_tpKept (by decide) hrun⟩

/-- User code sets `tp` to the address of another thread before a system call, and the kernel takes
that thread for the current one. -/
theorem not_current_user : ∃ m, Relation.ReflTransGen MStep (.booted 0x1000) m ∧ ¬ Current m := by
  have hrun : Relation.ReflTransGen MStep (.booted 0x1000) _ := .tail (.tail (.tail (.tail .refl
    ⟨.kernel (.threadCreate 0x2000), ⟨rfl, by simp⟩, rfl⟩)
    ⟨.kernel .schedule, ⟨trivial, by simp⟩, rfl⟩) ⟨.enterUser, trivial, rfl⟩)
    ⟨.userTrap (ecallRegs 0x1000), trivial, rfl⟩
  refine ⟨_, hrun, fun h => ?_⟩
  exact absurd (h rfl) (by decide +kernel)

end BareMetalOS.Trap
