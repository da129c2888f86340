import BareMetalOS.Sched.Runs

/-!
# Timers, tasks and blocked threads

The timer list of `src/timer.c` and the task queue of `src/task.c` on top of the thread system. A
timer interrupt moves the callbacks of the expired timers to the task queue and calls `schedule`;
the tasks are run later, by whichever thread comes to `run_tasks`. So a wake-up set by
`thread_sleep` is pending first in the timer list and then in the task queue. `run_tasks` enables
interrupts before it calls a callback, so that the thread can be preempted, and ended, inside of it:
`Kernel.started` are the tasks taken from the queue whose thread has not put the priority back yet.
`runTask` is a round that is not preempted; `startTask` and `stepTask` are its steps
(`runTask_steps`).

`Kernel.call` records, for the thread at each address, the call in which it is blocked. It is
written where the thread blocks and cleared when the thread goes on running, and no function of the
source reads it.
-/

namespace BareMetalOS.Sched

open Memory (Addr)

/-- The callbacks passed to `add_timer_ticks` and `add_task`. -/
inductive Callback
  | threadWakeup (arg : Addr)
  | schedulerTimer
  | periodicTimer
  | timeout (arg : Addr)
  deriving DecidableEq, Repr

/-- The thread that a callback wakes. -/
def Callback.wakes : Callback → Option Addr
  | .threadWakeup a => some a
  | _ => none

/-- `struct timer_node`. -/
structure TimerNode where
  expireTime : BitVec 64
  callback : Callback
  deriving DecidableEq, Repr

/-- `struct task_node`. -/
structure TaskNode where
  callback : Callback
  priority : ℤ
  deriving DecidableEq, Repr

/-- The call in which a thread is blocked: `thread_sleep`, with the time its timer expires, or
`sys_waitpid`. -/
inductive Call
  | sleep (expireTime : BitVec 64)
  | waitpid (pid : ℤ)
  deriving DecidableEq, Repr

/-- How far a task has come that was taken from the queue. -/
inductive Stage
  /-- its callback is called -/
  | called
  /-- `thread_wakeup_callback` has found its thread `WAITING` -/
  | found
  /-- the callback has returned -/
  | returned
  deriving DecidableEq, Repr

/-- A task taken from the queue, and the pid of the thread that runs it. -/
structure Started where
  pid : ℤ
  task : TaskNode
  stage : Stage
  deriving DecidableEq, Repr

/-- The thread system with the clock, the timers and the tasks. -/
structure Kernel where
  sched : State
  /-- the last value of `rdtime` -/
  now : BitVec 64
  timeFreq : BitVec 64
  /-- `timer_list`, earliest first -/
  timers : List TimerNode
  /-- the last value given to `sbi_set_timer` -/
  sbiTimer : BitVec 64
  /-- the list from `task_queue_head` -/
  tasks : List TaskNode
  /-- the tasks taken from it, the innermost of each thread first -/
  started : List Started
  call : Addr → Option Call

/-! ## The timer list and the task queue -/

/-- The search of `add_timer_ticks` and `list_add_tail`: before the first timer that expires
later. -/
def insertTimer (n : TimerNode) : List TimerNode → List TimerNode
  | [] => [n]
  | m :: l => if n.expireTime < m.expireTime then n :: m :: l else m :: insertTimer n l

/-- The insertion of `add_task`: behind the tasks of at least this priority. -/
def insertTask (n : TaskNode) : List TaskNode → List TaskNode
  | [] => [n]
  | m :: l => if m.priority < n.priority then n :: m :: l else m :: insertTask n l

/-- `add_timer_ticks`, where `mem` says that the node could be allocated. The hardware timer is set
if the new node comes first. -/
def addTimerTicks (k : Kernel) (callback : Callback) (ticks : BitVec 64) (mem : Bool) : Kernel :=
  if mem then
    let n : TimerNode := ⟨k.now + ticks, callback⟩
    let first := k.timers.head?.all fun m => n.expireTime < m.expireTime
    { k with
      timers := insertTimer n k.timers
      sbiTimer := if first then n.expireTime else k.sbiTimer }
  else k

/-- `add_task`. -/
def addTask (tasks : List TaskNode) (callback : Callback) (priority : ℤ) (mem : Bool) :
    List TaskNode :=
  if mem then insertTask ⟨callback, priority⟩ tasks else tasks

/-- The loop of `handle_timer_interrupt`: in round `i` the clock shows `clock i`, and `mem i` says
that the task node could be allocated. -/
def expireLoop (clock : ℕ → BitVec 64) (mem : ℕ → Bool) :
    ℕ → List TimerNode → List TaskNode → List TimerNode × List TaskNode
  | _, [], tasks => ([], tasks)
  | i, n :: timers, tasks =>
    if n.expireTime ≤ clock i then
      expireLoop clock mem (i + 1) timers (addTask tasks n.callback 10 (mem i))
    else (n :: timers, tasks)

/-- The callback of a task; `mem` is for the timer that the periodic ones add again. -/
def runCallback (k : Kernel) (callback : Callback) (mem : Bool) : Kernel :=
  match callback with
  | .threadWakeup a => { k with sched := threadWakeupCallback k.sched a }
  | .schedulerTimer => addTimerTicks k .schedulerTimer (k.timeFreq / 32) mem
  | .periodicTimer => addTimerTicks k .periodicTimer (2 * k.timeFreq) mem
  | .timeout _ => k

/-- One round of `run_tasks` by the current thread, if it is not preempted. -/
def runTask (k : Kernel) (mem : Bool) : Option Kernel := do
  let t ← k.sched.heap k.sched.tp
  match k.tasks with
  | [] => return k
  | n :: tasks =>
    if n.priority ≤ t.currentTaskPriority then return k
    else return runCallback { k with tasks := tasks } n.callback mem

/-! ## A round of `run_tasks` that is preempted -/

/-- `current_task_priority` of the thread `t`: that of the innermost task it runs, each of which
puts back what it has found. -/
def Kernel.taskPriority (k : Kernel) (t : Thread) : ℤ :=
  match k.started.find? (·.pid = t.pid) with
  | some r => r.task.priority
  | none => t.currentTaskPriority

/-- A round of `run_tasks` up to the callback: with interrupts disabled the first task is taken from
the queue. -/
def startTask (k : Kernel) : Option Kernel := do
  let t ← k.sched.heap k.sched.tp
  match k.tasks with
  | [] => return k
  | n :: tasks =>
    if n.priority ≤ k.taskPriority t then return k
    else return { k with tasks := tasks, started := ⟨t.pid, n, .called⟩ :: k.started }

/-- The test of `thread_wakeup_callback`. -/
def isWaiting (s : State) (a : Addr) : Bool := (s.heap a).any (·.status = .waiting)

/-- The store of `thread_wakeup_callback`. -/
def setReady (s : State) (a : Addr) : State :=
  match s.heap a with
  | none => s
  | some t => s.set a { t with status := .ready }

/-- The next step of the task `r` of the current thread, where `rest` are the other tasks: its
callback, in which `thread_wakeup_callback` tests in one step and stores in another, and the end of
the round. -/
def Kernel.stepStarted (k : Kernel) (r : Started) (rest : List Started) (mem : Bool) : Kernel :=
  match r.stage with
  | .called =>
    match r.task.callback with
    | .threadWakeup a =>
      let stage := if isWaiting k.sched a then .found else .returned
      { k with started := { r with stage := stage } :: rest }
    | callback =>
      { runCallback k callback mem with started := { r with stage := .returned } :: rest }
  | .found =>
    match r.task.callback with
    | .threadWakeup a =>
      { k with
        sched := setReady k.sched a
        started := { r with stage := .returned } :: rest }
    | _ => { k with started := rest }
  | .returned => { k with started := rest }

/-- A step of `run_tasks` in the innermost task of the current thread; interrupts can come between
these steps. -/
def stepTask (k : Kernel) (mem : Bool) : Option Kernel := do
  let t ← k.sched.heap k.sched.tp
  match k.started.find? (·.pid = t.pid) with
  | none => return k
  | some r => return k.stepStarted r (k.started.erase r) mem

/-! ## The system with its threads -/

/-- The thread system goes on in state `s`; the thread switched to leaves the call it was blocked
in. -/
def Kernel.resume (k : Kernel) (s : State) : Kernel :=
  { k with
    sched := s
    call := if s.tp = k.sched.tp then k.call else Function.update k.call s.tp none }

/-- The current thread blocks in the call `c`. -/
def Kernel.block (k : Kernel) (c : Call) : Kernel :=
  { k with call := Function.update k.call k.sched.tp (some c) }

/-- `thread_sleep(usec)`. -/
def Kernel.threadSleep (k : Kernel) (usec : BitVec 32) (mem : Bool) : Option Kernel :=
  let ticks := usec.setWidth 64 * k.timeFreq / 1000000
  if mem then do
    let r ← Sched.threadSleep k.sched true
    let k' := addTimerTicks k (.threadWakeup k.sched.tp) ticks true
    return (k'.block (.sleep (k.now + ticks))).resume r.1
  else do
    let r ← Sched.threadSleep k.sched false
    return { k with sched := r.1 }

/-- `sys_waitpid(pid)`. -/
def Kernel.sysWaitpid (k : Kernel) (pid : ℤ) : Option Kernel := do
  let r ← Sched.sysWaitpid k.sched pid
  match r.2 with
  | some _ => return { k with sched := r.1 }
  | none => return (k.block (.waitpid pid)).resume r.1

/-- `handle_timer_interrupt`. -/
def handleTimerInterrupt (k : Kernel) (clock : ℕ → BitVec 64) (mem : ℕ → Bool) : Option Kernel := do
  let r := expireLoop clock mem 0 k.timers k.tasks
  let s ← schedule k.sched
  let k' : Kernel :=
    { k with
      now := clock k.timers.length
      timers := r.1
      sbiTimer := match r.1 with
        | [] => -1
        | n :: _ => n.expireTime
      tasks := r.2 }
  return k'.resume s

/-- An operation of the system. -/
inductive KOp
  /-- an operation of the thread system that neither blocks the caller nor wakes a sleeper -/
  | thread (op : Op)
  | threadSleep (usec : BitVec 32) (mem : Bool)
  | sysWaitpid (pid : ℤ)
  | addTimeout (arg : Addr) (ticks : BitVec 64) (mem : Bool)
  | timerInterrupt (clock : ℕ → BitVec 64) (mem : ℕ → Bool)
  | runTask (mem : Bool)
  /-- time passes -/
  | tick (now : BitVec 64)

/-- A new thread is blocked in no call. -/
def Kernel.start (k : Kernel) : Op → Kernel
  | .threadCreate mem | .sysFork mem _ => { k with call := Function.update k.call mem none }
  | _ => k

/-- The operation on the system. -/
def Kernel.exec (k : Kernel) : KOp → Option Kernel
  | .thread (.threadSleep _) | .thread (.wakeup _) | .thread (.sysWaitpid _) => none
  | .thread op => do
    let s ← Sched.exec k.sched op
    return (k.start op).resume s
  | .threadSleep usec mem => k.threadSleep usec mem
  | .sysWaitpid pid => k.sysWaitpid pid
  | .addTimeout arg ticks mem => some (addTimerTicks k (.timeout arg) ticks mem)
  | .timerInterrupt clock mem => handleTimerInterrupt k clock mem
  | .runTask mem => Sched.runTask k mem
  | .tick now => some { k with now := now }

/-- What the callers promise, as in `Allowed`, and that the clock does not go back. -/
def KAllowed (k : Kernel) : KOp → Prop
  | .thread op => Allowed k.sched op
  | .threadSleep .. | .sysWaitpid _ => k.sched.tp ≠ k.sched.runQueue
  | .timerInterrupt clock _ => (∀ i j, i ≤ j → clock i ≤ clock j) ∧ k.now ≤ clock 0
  | .tick now => k.now ≤ now
  | _ => True

/-- An operation of the system in which `run_tasks` is preempted. -/
inductive SysOp
  /-- an operation other than `run_tasks` -/
  | op (op : KOp)
  | startTask
  | stepTask (mem : Bool)

/-- The operation on the system. -/
def Kernel.perform (k : Kernel) : SysOp → Option Kernel
  | .op (.runTask _) => none
  | .op op => k.exec op
  | .startTask => Sched.startTask k
  | .stepTask mem => Sched.stepTask k mem

/-- What the callers promise. -/
def SysAllowed (k : Kernel) : SysOp → Prop
  | .op op => KAllowed k op
  | .startTask | .stepTask _ => True

/-! ## The steps of a round -/

variable {k k' : Kernel} {s : State} {a b : Addr} {t u : Thread}

theorem threadWakeupCallback_eq (s : State) (a : Addr) :
    threadWakeupCallback s a = if isWaiting s a then setReady s a else s := by
  rw [threadWakeupCallback, isWaiting, setReady]
  cases s.heap a with
  | none => rfl
  | some t => by_cases hw : t.status = .waiting <;> simp [hw]

theorem setReady_some (h : (setReady s a).heap b = some u) :
    ∃ t, s.heap b = some t ∧ (u = t ∨ (b = a ∧ u = { t with status := .ready })) := by
  unfold setReady at h
  split at h
  · exact ⟨u, h, .inl rfl⟩
  · rename_i p hp
    by_cases hb : b = a
    · subst hb
      rw [State.set_heap_self] at h
      cases h
      exact ⟨p, hp, .inr ⟨rfl, rfl⟩⟩
    · rw [State.set_heap_of_ne hb] at h
      exact ⟨u, h, .inl rfl⟩

@[simp] theorem setReady_tp (s : State) (a : Addr) : (setReady s a).tp = s.tp := by
  unfold setReady
  split <;> rfl

@[simp] theorem setReady_nrThreads (s : State) (a : Addr) :
    (setReady s a).nrThreads = s.nrThreads := by
  unfold setReady
  split <;> rfl

theorem setReady_keep (ht : s.heap a = some t) :
    ∃ u, (setReady s b).heap a = some u ∧ u.pid = t.pid ∧
      u.currentTaskPriority = t.currentTaskPriority := by
  unfold setReady
  split
  · exact ⟨t, ht, rfl, rfl⟩
  · rename_i p hp
    by_cases hab : a = b
    · subst hab
      cases hp.symm.trans ht
      exact ⟨_, State.set_heap_self .., rfl, rfl⟩
    · exact ⟨t, by rw [State.set_heap_of_ne hab, ht], rfl, rfl⟩

theorem Inv.setReady {q : List Addr} (h : Inv s q) (a : Addr) : Inv (setReady s a) q := by
  refine ⟨?_, fun u hu => ?_⟩
  · unfold Sched.setReady
    split
    · exact h.toQueue
    · rename_i t ht
      exact h.toQueue.set ht rfl rfl (by simp) fun _ => rfl
  · rw [setReady_tp] at hu
    obtain ⟨t, ht, rfl | ⟨-, rfl⟩⟩ := setReady_some hu
    · exact h.current u ht
    · rfl

/-- What a step of a task does. -/
inductive CallbackStep (k : Kernel) (mem : Bool) : Kernel → Prop
  | idle : CallbackStep k mem k
  | tested {r : Started} {a : Addr} (hr : r ∈ k.started) (hs : r.stage = .called)
      (hc : r.task.callback = .threadWakeup a) (hw : isWaiting k.sched a) :
      CallbackStep k mem { k with started := { r with stage := .found } :: k.started.erase r }
  | passed {r : Started} {a : Addr} (hr : r ∈ k.started) (hs : r.stage = .called)
      (hc : r.task.callback = .threadWakeup a) (hw : isWaiting k.sched a = false) :
      CallbackStep k mem { k with started := { r with stage := .returned } :: k.started.erase r }
  | ran {r : Started} (hr : r ∈ k.started) (hs : r.stage = .called)
      (hc : r.task.callback.wakes = none) :
      CallbackStep k mem { runCallback k r.task.callback mem with
        started := { r with stage := .returned } :: k.started.erase r }
  | stored {r : Started} {a : Addr} (hr : r ∈ k.started) (hs : r.stage = .found)
      (hc : r.task.callback = .threadWakeup a) :
      CallbackStep k mem { k with
        sched := setReady k.sched a
        started := { r with stage := .returned } :: k.started.erase r }
  | done {r : Started} (hr : r ∈ k.started)
      (hs : r.stage = .returned ∨ r.stage = .found ∧ r.task.callback.wakes = none) :
      CallbackStep k mem { k with started := k.started.erase r }

theorem callbackStep_of_stepTask {mem : Bool} (h : stepTask k mem = some k') :
    CallbackStep k mem k' := by
  simp only [stepTask, Option.bind_eq_bind, Option.bind_eq_some_iff, Option.pure_def] at h
  obtain ⟨t, -, h⟩ := h
  split at h
  · cases h
    exact .idle
  · rename_i r hfind
    have hr : r ∈ k.started := List.mem_of_find?_eq_some hfind
    cases h
    unfold Kernel.stepStarted
    split
    · rename_i hs
      split
      · rename_i a hc
        cases hw : isWaiting k.sched a with
        | true => exact .tested hr hs hc hw
        | false => exact .passed hr hs hc hw
      · rename_i hc
        refine .ran hr hs ?_
        cases hcb : r.task.callback with
        | threadWakeup a => exact (hc a hcb).elim
        | _ => rfl
    · rename_i hs
      split
      · rename_i a hc
        exact .stored hr hs hc
      · rename_i hc
        refine .done hr (.inr ⟨hs, ?_⟩)
        cases hcb : r.task.callback with
        | threadWakeup a => exact (hc a hcb).elim
        | _ => rfl
    · rename_i hs
      exact .done hr (.inl hs)

@[simp] theorem addTimerTicks_sched (k : Kernel) (callback : Callback) (ticks : BitVec 64)
    (mem : Bool) : (addTimerTicks k callback ticks mem).sched = k.sched := by
  rw [addTimerTicks]
  split <;> rfl

/-- A callback does not look at the tasks that are being run. -/
theorem runCallback_withStarted (k : Kernel) (l : List Started) (c : Callback) (mem : Bool) :
    { runCallback k c mem with started := l } = runCallback { k with started := l } c mem := by
  cases c with
  | threadWakeup | timeout => rfl
  | schedulerTimer | periodicTimer => cases mem <;> rfl

section

variable {r : Started} {rest : List Started} {mem : Bool}

theorem stepTask_cons (ht : k.sched.heap k.sched.tp = some t) (hpid : r.pid = t.pid)
    (hk : k.started = r :: rest) : stepTask k mem = some (k.stepStarted r rest mem) := by
  have hfind : k.started.find? (·.pid = t.pid) = some r := by
    rw [hk, List.find?_cons_of_pos (by simpa using hpid)]
  have herase : k.started.erase r = rest := by
    rw [hk, List.erase_cons_head]
  simp only [stepTask, ht, Option.bind_eq_bind, Option.bind_some, hfind, herase]
  rfl

theorem stepTask_test (ht : k.sched.heap k.sched.tp = some t) (hpid : r.pid = t.pid)
    (hk : k.started = r :: rest) (hs : r.stage = .called)
    (hc : r.task.callback = .threadWakeup a) :
    stepTask k mem = some { k with
      started :=
        { r with stage := if isWaiting k.sched a then .found else .returned } :: rest } := by
  rw [stepTask_cons ht hpid hk, Kernel.stepStarted, hs, hc]

theorem stepTask_store (ht : k.sched.heap k.sched.tp = some t) (hpid : r.pid = t.pid)
    (hk : k.started = r :: rest) (hs : r.stage = .found) (hc : r.task.callback = .threadWakeup a) :
    stepTask k mem = some { k with
      sched := setReady k.sched a
      started := { r with stage := .returned } :: rest } := by
  rw [stepTask_cons ht hpid hk, Kernel.stepStarted, hs, hc]

theorem stepTask_run (ht : k.sched.heap k.sched.tp = some t) (hpid : r.pid = t.pid)
    (hk : k.started = r :: rest) (hs : r.stage = .called) (hc : r.task.callback.wakes = none) :
    stepTask k mem = some { runCallback k r.task.callback mem with
      started := { r with stage := .returned } :: rest } := by
  rw [stepTask_cons ht hpid hk, Kernel.stepStarted, hs]
  cases hcb : r.task.callback with
  | threadWakeup a =>
    rw [hcb] at hc
    cases hc
  | _ => rfl

theorem stepTask_end (ht : k.sched.heap k.sched.tp = some t) (hpid : r.pid = t.pid)
    (hk : k.started = r :: rest) (hs : r.stage = .returned) :
    stepTask k mem = some { k with started := rest } := by
  rw [stepTask_cons ht hpid hk, Kernel.stepStarted, hs]

/-- The thread `t` goes on with its tasks and is not preempted. -/
def Unpreempted (mem : Bool) : Kernel → Kernel → Prop :=
  Relation.ReflTransGen fun k k' => stepTask k mem = some k'

/-- A task taken from the queue by a thread that goes on with it. -/
theorem unpreempted_task {n : TaskNode} (ht : k.sched.heap k.sched.tp = some t)
    (hr : r = ⟨t.pid, n, .called⟩) (hk : k.started = r :: rest) :
    Unpreempted mem k { runCallback k n.callback mem with started := rest } := by
  have hpid : r.pid = t.pid := by rw [hr]
  have hs : r.stage = .called := by rw [hr]
  cases hc : n.callback with
  | threadWakeup a =>
    have htest := @stepTask_test _ a _ _ _ mem ht hpid hk hs (by rw [hr]; exact hc)
    rw [runCallback, threadWakeupCallback_eq]
    cases hw : isWaiting k.sched a with
    | false =>
      rw [hw] at htest
      exact .tail (.single htest)
        (stepTask_end (r := { r with stage := .returned }) ht hpid rfl rfl)
    | true =>
      rw [hw] at htest
      obtain ⟨u, hu, hpid', -⟩ := setReady_keep (b := a) ht
      rw [← setReady_tp k.sched a] at hu
      have hstore := @stepTask_store { k with started := { r with stage := .found } :: rest } a t
        { r with stage := .found } rest mem ht hpid rfl rfl (by rw [hr]; exact hc)
      refine .tail (.tail (.single htest) hstore) ?_
      exact stepTask_end (r := { r with stage := .returned }) hu (hpid.trans hpid'.symm) rfl rfl
  | _ =>
    have hrun := @stepTask_run _ _ _ _ mem ht hpid hk hs (by rw [hr]; simp [hc, Callback.wakes])
    rw [hr] at hrun
    simp only [hc] at hrun
    refine .tail (.single hrun) (stepTask_end (t := t) ?_ rfl rfl rfl)
    simp only [runCallback, addTimerTicks_sched]
    exact ht

/-- **A round that is not preempted** is that of `runTask`. -/
theorem runTask_steps (ht : k.sched.heap k.sched.tp = some t)
    (hfree : ∀ r ∈ k.started, r.pid ≠ t.pid) (h : runTask k mem = some k') :
    ∃ k₁, startTask k = some k₁ ∧ Unpreempted mem k₁ k' := by
  have hprio : k.taskPriority t = t.currentTaskPriority := by
    rw [Kernel.taskPriority, List.find?_eq_none.2 fun r hr => by simpa using hfree r hr]
  simp only [runTask, ht, Option.bind_eq_bind, Option.bind_some, Option.pure_def] at h
  cases hk : k.tasks with
  | nil =>
    simp only [hk] at h
    refine ⟨k', ?_, .refl⟩
    simp only [startTask, ht, Option.bind_eq_bind, Option.bind_some, hk]
    exact h
  | cons n tasks =>
    simp only [hk] at h
    by_cases hlow : n.priority ≤ t.currentTaskPriority
    · rw [if_pos hlow] at h
      refine ⟨k', ?_, .refl⟩
      simp only [startTask, ht, Option.bind_eq_bind, Option.bind_some, hk, hprio, if_pos hlow]
      exact h
    · rw [if_neg hlow] at h
      cases h
      refine ⟨{ k with tasks := tasks, started := ⟨t.pid, n, .called⟩ :: k.started }, ?_, ?_⟩
      · simp only [startTask, ht, Option.bind_eq_bind, Option.bind_some, hk, hprio, if_neg hlow]
        rfl
      · have hrun := @unpreempted_task
          { k with tasks := tasks, started := ⟨t.pid, n, .called⟩ :: k.started } t _ k.started mem n
          ht rfl rfl
        rwa [runCallback_withStarted] at hrun

end

/-- A system after `init_thread_system`, before any thread has blocked. -/
structure Booted (k : Kernel) : Prop where
  init : ∃ mem, initThreadSystem mem = some k.sched
  timers : ∀ n ∈ k.timers, ∀ a, n.callback ≠ .threadWakeup a
  tasks : ∀ n ∈ k.tasks, ∀ a, n.callback ≠ .threadWakeup a
  started : k.started = []
  call : ∀ a, k.call a = none

end BareMetalOS.Sched
