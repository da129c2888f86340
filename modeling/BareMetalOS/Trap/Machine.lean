import BareMetalOS.Sched.Runs

/-!
# Traps

The way into the kernel and back: `handle_exception` and `ret_from_exception` of `src/trap.S`,
`do_trap` and `check_signals` of `src/exception.c`, and the system calls that work on the trap frame
(`sys_fork`, `sys_exec`, `sys_sigreturn`, the end of `handle_syscall`). The kernel stack of a thread
is seen as the list of the trap frames on it, innermost first; with each frame goes the point that
its `do_trap` has reached (`Phase`) and whether interrupts are enabled there.

The register `tp` is `State.tp`. On entry it keeps the value it had in user mode, and
`ret_from_exception` loads it from the frame. `Machine.owner` is the thread on whose kernel stack
the hart runs, which is the one `schedule` last switched to.
-/

namespace BareMetalOS.Trap

open Memory (Addr)
open Sched

/-- How far the `do_trap` of a frame has got. -/
inductive Phase
  /-- in `handle_syscall` -/
  | syscall
  /-- in the handler of an interrupt -/
  | handler
  /-- in `run_tasks` -/
  | tasks
  /-- before `check_signals` -/
  | signals
  /-- in the page fault handler -/
  | fault
  /-- in `thread_exit` for any other exception -/
  | exception
  /-- before `ret_from_exception` -/
  | done
  deriving DecidableEq, Repr

/-- A trap frame with the state of its `do_trap`. -/
structure Activation where
  regs : PtRegs
  phase : Phase
  /-- `sstatus.SIE` -/
  sie : Bool

/-- The hart with the kernel stacks of the threads. -/
structure Machine where
  sched : State
  /-- the hart is in user mode -/
  user : Bool
  owner : Addr
  stack : Addr → List Activation

/-- The number of `tp` among the general registers. -/
def tpReg : ℕ := 4

/-- `sstatus.SPP`: the trap was taken in supervisor mode. -/
def spp (status : BitVec 64) : Bool := status.getLsbD 8

/-- `sstatus` with `SPP` as the hardware sets it on a trap. -/
def withSpp (status : BitVec 64) (kernel : Bool) : BitVec 64 :=
  if kernel then status ||| 0x100#64 else status &&& ~~~0x100#64

/-- The interrupt bit of `scause`. -/
def isInterrupt (cause : BitVec 64) : Bool := cause.getLsbD 63

/-- The branch of `do_trap`. -/
def dispatch (cause : BitVec 64) : Phase :=
  if isInterrupt cause then .handler
  else if cause = 8 then .syscall
  else if cause = 12 ∨ cause = 13 ∨ cause = 15 then .fault
  else .exception

/-- Write the top frame of the stack in use. -/
def Machine.setTop (m : Machine) (act : Activation) (rest : List Activation) : Machine :=
  { m with stack := Function.update m.stack m.owner (act :: rest) }

/-- Code of `do_trap` on the top frame of the stack in use, at a point it has reached. -/
def Machine.atPhase (m : Machine) (phase : Phase)
    (code : Activation → List Activation → Option Machine) : Option Machine :=
  match m.user, m.stack m.owner with
  | false, act :: rest => if act.phase = phase then code act rest else none
  | _, _ => none

/-! ## Entry and return -/

/-- `handle_exception` from user mode, with the registers as user code has left them. -/
def userTrap (m : Machine) (regs : PtRegs) : Machine :=
  let frame := { regs with status := withSpp regs.status false }
  { m with
    user := false
    sched := { m.sched with tp := regs.x tpReg }
    stack := Function.update m.stack m.owner
      (⟨frame, dispatch regs.cause, false⟩ :: m.stack m.owner) }

/-- `handle_exception` from supervisor mode. -/
def kernelTrap (m : Machine) (regs : PtRegs) : Machine :=
  let frame := { regs with
    x := Function.update regs.x tpReg m.sched.tp
    status := withSpp regs.status true }
  { m with
    user := false
    stack := Function.update m.stack m.owner
      (⟨frame, dispatch regs.cause, false⟩ :: m.stack m.owner) }

/-- `ret_from_exception`. -/
def retFromException (m : Machine) : Option Machine :=
  m.atPhase .done fun act rest =>
    some { m with
      user := !spp act.regs.status
      sched := { m.sched with tp := act.regs.x tpReg }
      stack := Function.update m.stack m.owner rest }

/-! ## Signals -/

/-- The number of the first pending signal: the loop of `check_signals`. -/
def firstSignal (sigpending : BitVec 32) : Option ℕ :=
  (List.range 32).find? fun i => sigpending.getLsbD i

/-- `current->sigpending != 0 && current->is_handling_signal == 0`. -/
def deliverable (t : Thread) : Bool := t.sigpending ≠ 0 && !t.isHandlingSignal

/-- The thread `t` when `check_signals` delivers the signal `i` on the frame `regs`. -/
def signalThread (t : Thread) (i : ℕ) (regs : PtRegs) : Thread :=
  { t with
    sigpending := t.sigpending &&& ~~~(1#32 <<< i)
    isHandlingSignal := true
    signalSavedRegs := regs }

/-- The frame redirected to the handler of the signal `i`. -/
def signalFrame (t : Thread) (i : ℕ) (regs : PtRegs) (trampoline : BitVec 64) : PtRegs :=
  { regs with
    x := Function.update (Function.update regs.x 1 trampoline) 2 trampoline
    epc := t.signalHandler i }

/-- `check_signals`, where `trampoline` is the address of the trampoline on the new signal stack. -/
def checkSignals (m : Machine) (trampoline : BitVec 64) : Option Machine :=
  m.atPhase .signals fun act rest =>
    if m.sched.tp = 0 then some (m.setTop { act with phase := .done } rest)
    else do
      let t ← m.sched.heap m.sched.tp
      match deliverable t, firstSignal t.sigpending with
      | true, some i =>
        let regs := signalFrame t i act.regs trampoline
        return { m.setTop { act with regs := regs, phase := .done } rest with
          sched := m.sched.set m.sched.tp (signalThread t i act.regs) }
      | _, _ => return m.setTop { act with phase := .done } rest

/-- `sys_sigreturn`, after which `handle_syscall` returns at once. -/
def sysSigreturn (m : Machine) : Option Machine :=
  m.atPhase .syscall fun act rest => do
    let t ← m.sched.heap m.sched.tp
    return { m.setTop { act with regs := t.signalSavedRegs, phase := .signals } rest with
      sched := m.sched.set m.sched.tp { t with isHandlingSignal := false } }

/-! ## System calls -/

/-- The end of `handle_syscall`: `regs->a0 = ret; regs->epc += 4;` -/
def syscallReturn (m : Machine) (ret : BitVec 64) : Option Machine :=
  m.atPhase .syscall fun act rest =>
    let regs := { act.regs with x := Function.update act.regs.x 10 ret, epc := act.regs.epc + 4 }
    some (m.setTop { act with regs := regs, phase := .signals } rest)

/-- The trap frame that a child of `sys_fork` returns through. -/
def childRegs (regs : PtRegs) (child : Addr) : PtRegs :=
  { regs with
    x := Function.update (Function.update regs.x 10 0) tpReg child
    epc := regs.epc + 4 }

/-- `sys_fork`: the kernel stack of the child is a copy with the top frame adjusted. -/
def fork (m : Machine) (mem : Addr) (copied : Bool) : Option Machine :=
  m.atPhase .syscall fun act rest => do
    let r ← sysFork m.sched mem copied
    let child : Activation := { act with regs := childRegs act.regs mem, phase := .done }
    return { m with
      sched := r.1
      stack := if copied ∧ mem ≠ 0 then Function.update m.stack mem (child :: rest) else m.stack }

/-- The end of `sys_exec`: `regs->epc = 0 - 4; regs->sp = stack_top;` -/
def sysExec (m : Machine) : Option Machine :=
  m.atPhase .syscall fun act rest =>
    let regs := { act.regs with x := Function.update act.regs.x 2 0x4000000000, epc := -4 }
    some (m.setTop { act with regs := regs } rest)

/-! ## The machine -/

/-- A step of the hart. -/
inductive MOp
  /-- a trap in user mode, with any register values -/
  | userTrap (regs : PtRegs)
  /-- a trap in supervisor mode -/
  | kernelTrap (regs : PtRegs)
  /-- kernel code calls a function of the thread system -/
  | kernel (op : Op)
  | fork (mem : Addr) (copied : Bool)
  | sysExec
  | sysSigreturn
  | syscallReturn (ret : BitVec 64)
  /-- interrupts are switched on or off in `sys_uart_read` -/
  | uartReadSie (sie : Bool)
  /-- interrupts are switched on or off around a task -/
  | taskSie (sie : Bool)
  /-- the handler of an interrupt is done -/
  | handled
  /-- `run_tasks` is done -/
  | tasksDone
  /-- the page fault handler is done -/
  | faultDone
  | checkSignals (trampoline : BitVec 64)
  | ret
  /-- `exec` of `src/exception.c` leaves a kernel thread for user mode -/
  | enterUser

/-- Go on to a later point of `do_trap` where nothing is computed on the way. -/
def goOn (m : Machine) (phase phase' : Phase) : Option Machine :=
  m.atPhase phase fun act rest => some (m.setTop { act with phase := phase' } rest)

/-- Switch interrupts on or off in `sys_uart_read` or around a task of `run_tasks`. -/
def setSie (m : Machine) (phase : Phase) (sie : Bool) : Option Machine :=
  m.atPhase phase fun act rest => some (m.setTop { act with sie := sie } rest)

/-- A new thread starts with an empty stack. -/
def startStack (stack : Addr → List Activation) : Op → Addr → List Activation
  | .threadCreate mem => Function.update stack mem []
  | _ => stack

/-- Kernel code runs the operation; if it switches, the stack of the other thread is in use. -/
def runKernel (m : Machine) (op : Op) : Option Machine := do
  let s ← Sched.exec m.sched op
  return { m with
    sched := s
    owner := if s.tp = m.sched.tp then m.owner else s.tp
    stack := startStack m.stack op }

/-- Interrupts are enabled in the code on top of the stack; kernel threads run with them enabled. -/
def Machine.sie (m : Machine) : Bool :=
  match m.stack m.owner with
  | act :: _ => act.sie
  | [] => true

/-- The step on the machine. -/
def Machine.exec (m : Machine) : MOp → Option Machine
  | .userTrap regs => if m.user then some (Trap.userTrap m regs) else none
  | .kernelTrap regs => if m.user then none else some (Trap.kernelTrap m regs)
  | .kernel op => if m.user then none else runKernel m op
  | .fork mem copied => Trap.fork m mem copied
  | .sysExec => Trap.sysExec m
  | .sysSigreturn => Trap.sysSigreturn m
  | .syscallReturn ret => Trap.syscallReturn m ret
  | .uartReadSie sie => setSie m .syscall sie
  | .taskSie sie => setSie m .tasks sie
  | .handled => goOn m .handler .tasks
  | .tasksDone => goOn m .tasks .signals
  | .faultDone => goOn m .fault .done
  | .checkSignals trampoline => Trap.checkSignals m trampoline
  | .ret => retFromException m
  | .enterUser =>
    if m.user = false ∧ m.stack m.owner = [] then some { m with user := true } else none

/-- What the hardware and the callers promise: an interrupt in supervisor mode comes only where
interrupts are enabled, an `ecall` of supervisor mode goes to the firmware, and the operations of
the thread system are called as in `Sched.Allowed`; `sys_fork` is the step of its own. -/
def MAllowed (m : Machine) : MOp → Prop
  | .kernelTrap regs => (isInterrupt regs.cause → m.sie) ∧ dispatch regs.cause ≠ .syscall
  | .kernel op => Allowed m.sched op ∧ ∀ mem copied, op ≠ .sysFork mem copied
  | .fork mem _ => m.sched.heap mem = none
  | _ => True

/-- The machine after `init_thread_system`. -/
def Machine.booted (mem : Addr) : Machine where
  sched := .booted mem
  user := false
  owner := mem
  stack := fun _ => []

end BareMetalOS.Trap
