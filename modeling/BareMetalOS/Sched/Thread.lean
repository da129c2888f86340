import BareMetalOS.Foundations.Loops
import BareMetalOS.Foundations.Ring
import BareMetalOS.Memory.Buddy

/-!
# Threads and the run queue

The thread system of `src/thread.c` and the system calls of `src/syscall.c` that create, end, block
and wake threads. Thread structs live in a heap indexed by their addresses, and the globals
`run_queue` and `nr_threads` and the register `tp` are the other fields of `State`.

A function of the source is a function from states to `Option`: `none` stands for undefined
behaviour (an absent struct on the run queue, overflow of `nr_threads`) or a walk that never ends.
What `allocate` answers is an argument. Where a system call returns to its caller within the step it
also gives the value returned; a caller that was switched away gets its value later.

Pointers that may dangle (`parent`, the argument of a wake-up) are read through the heap: they reach
the thread that lives at this address now, or no thread at all.
-/

namespace BareMetalOS.Sched

open Memory (Addr)

/-- `enum THREAD_STATUS`. -/
inductive Status
  | running
  | ready
  | waiting
  | terminated
  | aborted
  deriving DecidableEq, Repr

/-- `status == THREAD_READY || status == THREAD_RUNNING`. -/
def Status.isRunnable : Status → Bool
  | .ready | .running => true
  | _ => false

/-- `status == THREAD_TERMINATED || status == THREAD_ABORTED`. -/
def Status.isZombie : Status → Bool
  | .terminated | .aborted => true
  | _ => false

/-- `struct pt_regs`: the general registers by number (`ra` is 1, `sp` 2, `tp` 4, `a0` 10) and the
trap information. -/
structure PtRegs where
  x : ℕ → BitVec 64
  epc : BitVec 64
  status : BitVec 64
  cause : BitVec 64
  badaddr : BitVec 64

/-- All registers zero. -/
def PtRegs.zero : PtRegs := ⟨fun _ => 0, 0, 0, 0, 0⟩

/-- `struct thread`, without the memory and the files of the thread. -/
structure Thread where
  pid : ℤ
  status : Status
  next : Addr
  parent : Addr
  waitingPid : ℤ
  currentTaskPriority : ℤ
  /-- `signal_handler`, by signal number -/
  signalHandler : ℕ → BitVec 64
  sigpending : BitVec 32
  isHandlingSignal : Bool
  signalSavedRegs : PtRegs

/-- The globals of `src/thread.c`, the thread structs and `tp`. -/
structure State where
  heap : Addr → Option Thread
  /-- `run_queue` -/
  runQueue : Addr
  /-- `nr_threads` -/
  nrThreads : ℤ
  /-- the register `tp`, read by `get_cur_thread` -/
  tp : Addr

namespace State

/-- Write a thread struct. -/
def set (s : State) (a : Addr) (t : Thread) : State :=
  { s with heap := Function.update s.heap a (some t) }

@[simp] theorem set_runQueue (s : State) (a : Addr) (t : Thread) :
    (s.set a t).runQueue = s.runQueue := rfl

@[simp] theorem set_nrThreads (s : State) (a : Addr) (t : Thread) :
    (s.set a t).nrThreads = s.nrThreads := rfl

@[simp] theorem set_tp (s : State) (a : Addr) (t : Thread) : (s.set a t).tp = s.tp := rfl

theorem set_heap (s : State) (a : Addr) (t : Thread) :
    (s.set a t).heap = Function.update s.heap a (some t) := rfl

@[simp] theorem set_heap_self (s : State) (a : Addr) (t : Thread) :
    (s.set a t).heap a = some t := by
  rw [set_heap, Function.update_self]

theorem set_heap_of_ne {s : State} {a b : Addr} {t : Thread} (h : b ≠ a) :
    (s.set a t).heap b = s.heap b := by
  rw [set_heap, Function.update_of_ne h]

@[simp] theorem set_set (s : State) (a : Addr) (t u : Thread) :
    (s.set a t).set a u = s.set a u := by
  simp [set]

end State

/-- No walk along distinct structs is longer than the address space. -/
def walkBound : ℕ := 2 ^ 64

/-- The first node on the run queue from `start` on that satisfies `p`. -/
def walk (s : State) (p : Thread → Bool) (start : Addr) : Option (Option Addr) :=
  findFrom s.heap Thread.next p start walkBound start

/-! ## Creating threads -/

/-- `enqueue(&run_queue, t)`. -/
def enqueue (s : State) (a : Addr) : Option State :=
  if s.runQueue = 0 then do
    let t ← s.heap a
    return { s.set a { t with next := a } with runQueue := a }
  else do
    let head ← s.heap s.runQueue
    let s := s.set s.runQueue { head with next := a }
    let t ← s.heap a
    return s.set a { t with next := head.next }

/-- `nr_threads++`, undefined at `INT_MAX`. -/
def nextPid (s : State) : Option State :=
  if s.nrThreads < 2 ^ 31 - 1 then some { s with nrThreads := s.nrThreads + 1 } else none

/-- The struct that `thread_create` fills in, before it is enqueued. -/
def Thread.fresh (pid : ℤ) : Thread where
  pid := pid
  status := .ready
  next := 0
  parent := 0
  waitingPid := -1
  currentTaskPriority := -1
  signalHandler := fun _ => 0
  sigpending := 0
  isHandlingSignal := false
  signalSavedRegs := .zero

/-- `thread_create`, where the `allocate` of the struct answers `mem`. The answer for the kernel
stack is not checked. -/
def threadCreate (s : State) (mem : Addr) : Option State :=
  if mem = 0 then some s
  else do
    let s' ← nextPid s
    enqueue (s'.set mem (.fresh s.nrThreads)) mem

/-- The struct of the child of `sys_fork`. -/
def Thread.forked (parent : Thread) (addr : Addr) (pid : ℤ) : Thread :=
  { parent with
    pid := pid
    status := .ready
    parent := addr
    sigpending := 0
    isHandlingSignal := false }

/-- `sys_fork`, where the `allocate` of the struct answers `mem` and `copied` says that the kernel
stack and the address space could be copied. A failure after `nr_threads++` frees the struct
again. -/
def sysFork (s : State) (mem : Addr) (copied : Bool) : Option (State × Option ℤ) :=
  if mem = 0 then some (s, some (-1))
  else do
    let parent ← s.heap s.tp
    let s' ← nextPid s
    if copied then
      let s'' ← enqueue (s'.set mem (parent.forked s.tp s.nrThreads)) mem
      return (s'', some s.nrThreads)
    else return (s', some (-1))

/-! ## The scheduler -/

/-- The thread `schedule` goes on with, `prev` being the current one. -/
def pickNext (s : State) (prev : Thread) : Option Addr := do
  let found ← walk s (fun t => t.status.isRunnable) prev.next
  match found with
  | some next => return next
  | none =>
    -- no runnable thread: fall back to the idle thread
    let idle ← walk s (fun t => t.pid = 0) s.runQueue
    return idle.getD s.runQueue

/-- `if (prev->status == THREAD_RUNNING) prev->status = THREAD_READY; next->status =
THREAD_RUNNING;` and `switch_to`, which moves `tp` to the next thread. -/
def switchTo (s : State) (next : Addr) : Option State := do
  let prev ← s.heap s.tp
  let s := if prev.status = .running then s.set s.tp { prev with status := .ready } else s
  let t ← s.heap next
  return { s.set next { t with status := .running } with tp := next }

/-- `schedule`. -/
def schedule (s : State) : Option State :=
  if s.tp = 0 then some s
  else do
    let prev ← s.heap s.tp
    let next ← pickNext s prev
    switchTo s next

/-- `schedule` at the end of a system call that then returns `v`: its caller sees `v` at once only
if it goes on running. -/
def scheduleThen (s : State) (v : ℤ) : Option (State × Option ℤ) := do
  let s' ← schedule s
  return (s', if s'.tp = s.tp then some v else none)

/-! ## Ending threads -/

/-- Make the parent of `target` `READY` if it is `WAITING` with `waiting_pid` the pid of `target` or
`-1`. -/
def wakeParent (s : State) (target : Thread) : State :=
  if target.parent = 0 then s
  else match s.heap target.parent with
    | none => s
    | some p =>
      if p.status = .waiting ∧ (p.waitingPid = target.pid ∨ p.waitingPid = -1) then
        s.set target.parent { p with status := .ready, waitingPid := -1 }
      else s

/-- `target->status = status` and the wake-up of its parent. -/
def endThread (s : State) (a : Addr) (target : Thread) (status : Status) : State :=
  wakeParent (s.set a { target with status := status }) target

/-- `thread_exit`. -/
def threadExit (s : State) : Option State :=
  if s.tp = 0 then schedule s
  else do
    let target ← s.heap s.tp
    schedule (endThread s s.tp target .terminated)

/-- The search of `sys_stop` and `sys_kill`. -/
def findPid (s : State) (pid : ℤ) : Option (Option Addr) :=
  if s.runQueue = 0 then some none else walk s (fun t => t.pid = pid) s.runQueue

/-- `target->status = THREAD_ABORTED`, the wake-up of the parent, and `schedule` if the caller ended
itself. -/
def abortThread (s : State) (a : Addr) (target : Thread) : Option (State × Option ℤ) :=
  let s := endThread s a target .aborted
  if a = s.tp then scheduleThen s 0 else some (s, some 0)

/-- `sys_stop`. -/
def sysStop (s : State) (pid : ℤ) : Option (State × Option ℤ) :=
  if pid ≤ 0 then some (s, some (-1))
  else do
    let found ← findPid s pid
    match found with
    | none => return (s, some (-1))
    | some a =>
      let target ← s.heap a
      if target.status.isZombie then return (s, some (-1)) else abortThread s a target

/-- `sys_kill`. -/
def sysKill (s : State) (pid signum : ℤ) : Option (State × Option ℤ) :=
  if signum < 0 ∨ 32 ≤ signum ∨ pid ≤ 0 then some (s, some (-1))
  else do
    let found ← findPid s pid
    match found with
    | none => return (s, some (-1))
    | some a =>
      let target ← s.heap a
      if target.status.isZombie then return (s, some (-1))
      else if target.signalHandler signum.toNat ≠ 0 then
        let sigpending := target.sigpending ||| 1#32 <<< signum.toNat
        return (s.set a { target with sigpending := sigpending }, some 0)
      else abortThread s a target

/-- `sys_signal`. -/
def sysSignal (s : State) (signum : ℤ) (handler : BitVec 64) : Option (State × Option ℤ) :=
  if signum < 0 ∨ 32 ≤ signum then some (s, some (-1))
  else do
    let t ← s.heap s.tp
    let handlers := Function.update t.signalHandler signum.toNat handler
    return (s.set s.tp { t with signalHandler := handlers }, some 0)

/-! ## Blocking and waking -/

/-- `thread_sleep`, where `added` says that `add_timer_ticks` succeeded. -/
def threadSleep (s : State) (added : Bool) : Option (State × Option ℤ) :=
  if s.tp = 0 then some (s, some (-1))
  else do
    let t ← s.heap s.tp
    let s := s.set s.tp { t with status := .waiting }
    if added then scheduleThen s 0
    else return (s.set s.tp { t with status := .ready }, some (-1))

/-- `thread_wakeup_callback`. -/
def threadWakeupCallback (s : State) (a : Addr) : State :=
  match s.heap a with
  | none => s
  | some t => if t.status = .waiting then s.set a { t with status := .ready } else s

/-- `(int)pid`. -/
def toInt (pid : ℤ) : ℤ := pid.bmod (2 ^ 32)

/-- `sys_waitpid`. -/
def sysWaitpid (s : State) (pid : ℤ) : Option (State × Option ℤ) := do
  let found ← walk s (fun t => t.pid = pid) s.runQueue
  match found with
  | none => return (s, some (-1))
  | some a =>
    let target ← s.heap a
    if target.status.isZombie then return (s, some pid)
    else
      let t ← s.heap s.tp
      scheduleThen (s.set s.tp { t with status := .waiting, waitingPid := toInt pid }) pid

/-! ## Reaping -/

/-- `while (tail->next != run_queue) tail = tail->next;` -/
def findTail (s : State) : ℕ → Addr → Option Addr
  | 0, _ => none
  | n + 1, tail => do
    let t ← s.heap tail
    if t.next = s.runQueue then return tail else findTail s n t.next

/-- Take the zombie `t` at `curr` off the run queue. -/
def unlinkThread (s : State) (prev curr : Addr) (t : Thread) : Option State :=
  if t.next = curr then some { s with runQueue := 0 }
  else do
    let p ← s.heap prev
    let s := s.set prev { p with next := t.next }
    return if curr = s.runQueue then { s with runQueue := t.next } else s

/-- `free(to_free)`. -/
def freeThread (s : State) (a : Addr) : State := { s with heap := Function.update s.heap a none }

/-- The loop of `kill_zombies`, with the bound `count`; `freed` are the structs freed so far. -/
def killLoop : ℕ → Addr → Addr → State → List Addr → Option (State × List Addr)
  | 0, _, _, s, freed => some (s, freed)
  | count + 1, prev, curr, s, freed =>
    if s.runQueue = 0 then some (s, freed)
    else do
      let t ← s.heap curr
      if t.status.isZombie then
        let s ← unlinkThread s prev curr t
        let s := freeThread s curr
        let freed := freed ++ [curr]
        if s.runQueue = 0 then return (s, freed)
        else if t.next = s.runQueue then return (s, freed)
        else killLoop count prev t.next s freed
      else if t.next = s.runQueue then return (s, freed)
      else killLoop count curr t.next s freed

/-- `kill_zombies`, with the list of the structs it frees. -/
def killZombies (s : State) : Option (State × List Addr) :=
  if s.runQueue = 0 then some (s, [])
  else do
    let tail ← findTail s walkBound s.runQueue
    killLoop s.nrThreads.toNat tail s.runQueue s []

/-! ## Boot -/

/-- Before `init_thread_system`. -/
def State.empty : State := ⟨fun _ => none, 0, 0, 0⟩

/-- `init_thread_system`, where the `allocate` of the idle thread answers `mem`. -/
def initThreadSystem (mem : Addr) : Option State := do
  let s ← threadCreate .empty mem
  let t ← s.heap mem
  return { s.set mem { t with status := .running } with tp := mem }

end BareMetalOS.Sched
