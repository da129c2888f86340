import BareMetalOS.Sched.Zombies

/-!
# The operations of the thread system

`Op` lists the operations, each with what the environment decides (the answers of `allocate`, the
arguments of a system call). Two things are promised by the callers (`Allowed`): `allocate` never
answers with the address of a live struct, and the idle thread, which only loops over `kill_zombies`
and `schedule`, neither blocks nor exits. A wake-up may come at any time and for any address.

`Effect s op s'` says once what the operation `op` can do to the state: `exec_effect` finds the
effect of every operation, and the invariants of the system are derived from the effects.
-/

namespace BareMetalOS.Sched

open Memory (Addr)

variable {s s' : State} {q : List Addr} {a b : Addr} {t u : Thread}

/-- An operation of the thread system; `mem` is the answer of `allocate`. -/
inductive Op
  | threadCreate (mem : Addr)
  | sysFork (mem : Addr) (copied : Bool)
  | threadExit
  | sysStop (pid : ℤ)
  | sysKill (pid signum : ℤ)
  | sysSignal (signum : ℤ) (handler : BitVec 64)
  | threadSleep (added : Bool)
  | wakeup (a : Addr)
  | sysWaitpid (pid : ℤ)
  | schedule
  | killZombies
  deriving DecidableEq

/-- The operation on the state. -/
def exec (s : State) : Op → Option State
  | .threadCreate mem => threadCreate s mem
  | .sysFork mem copied => (sysFork s mem copied).map Prod.fst
  | .threadExit => threadExit s
  | .sysStop pid => (sysStop s pid).map Prod.fst
  | .sysKill pid signum => (sysKill s pid signum).map Prod.fst
  | .sysSignal signum handler => (sysSignal s signum handler).map Prod.fst
  | .threadSleep added => (threadSleep s added).map Prod.fst
  | .wakeup a => some (threadWakeupCallback s a)
  | .sysWaitpid pid => (sysWaitpid s pid).map Prod.fst
  | .schedule => schedule s
  | .killZombies => (killZombies s).map Prod.fst

/-- What the callers of an operation promise. -/
def Allowed (s : State) : Op → Prop
  | .threadCreate mem | .sysFork mem _ => s.heap mem = none
  | .threadExit | .threadSleep _ | .sysWaitpid _ => s.tp ≠ s.runQueue
  | _ => True

instance (s : State) : (op : Op) → Decidable (Allowed s op)
  | .threadCreate mem | .sysFork mem _ =>
    decidable_of_iff ((s.heap mem).isNone = true) Option.isNone_iff_eq_none
  | .threadExit | .threadSleep _ | .sysWaitpid _ => inferInstanceAs (Decidable (s.tp ≠ s.runQueue))
  | .sysStop _ | .sysKill .. | .sysSignal .. | .wakeup _ | .schedule | .killZombies =>
    inferInstanceAs (Decidable True)

/-- The operation takes a pid. -/
def Op.TakesPid : Op → Prop
  | .threadCreate mem | .sysFork mem _ => mem ≠ 0
  | _ => False

/-- The operation is a `sys_stop` or a `sys_kill` that ends the thread `t`. -/
def Op.Stops (op : Op) (t : Thread) : Prop :=
  t.status.isZombie = false ∧
    (op = .sysStop t.pid ∨ ∃ signum, op = .sysKill t.pid signum ∧ t.signalHandler signum.toNat = 0)

/-- The process `p` has been created and is `TERMINATED`, `ABORTED` or reaped. -/
def Ended (s : State) (p : ℤ) : Prop :=
  0 ≤ p ∧ p < s.nrThreads ∧ ∀ a t, s.heap a = some t → t.pid = p → t.status.isZombie

/-- What an operation can do to the state. -/
inductive Effect (s : State) : Op → State → Prop
  | stay (op : Op) : Effect s op s
  | pidUsed (mem : Addr) (hn : s.nrThreads < 2 ^ 31 - 1) :
      Effect s (.sysFork mem false) { s with nrThreads := s.nrThreads + 1 }
  | created {mem : Addr} {i : Thread} (hmem : s.heap mem = none) (h₀ : mem ≠ 0)
      (hi : s.heap s.runQueue = some i) (hn : s.nrThreads < 2 ^ 31 - 1) :
      Effect s (.threadCreate mem) (s.enqueued mem (.fresh s.nrThreads) i)
  | forked {mem : Addr} {i c : Thread} (hmem : s.heap mem = none) (h₀ : mem ≠ 0)
      (hi : s.heap s.runQueue = some i) (hn : s.nrThreads < 2 ^ 31 - 1)
      (hc : s.heap s.tp = some c) :
      Effect s (.sysFork mem true) (s.enqueued mem (c.forked s.tp s.nrThreads) i)
  | stopped {op : Op} {a : Addr} {t : Thread} (ht : s.heap a = some t) (hop : op.Stops t)
      (ha : a ≠ s.runQueue) (htp : a ≠ s.tp) : Effect s op (endThread s a t .aborted)
  | ended {op : Op} {t : Thread} {x : Status} {n : Addr} {v : Thread} (ht : s.heap s.tp = some t)
      (hop : op = .threadExit ∨ op.Stops t) (hx : x.isZombie) (hidle : s.tp ≠ s.runQueue)
      (hv : (endThread s s.tp t x).heap n = some v) (hrun : v.status.isRunnable) :
      Effect s op ((endThread s s.tp t x).switched n v)
  | signalled {a : Addr} {t : Thread} {signum : ℤ} (ht : s.heap a = some t)
      (hh : t.signalHandler signum.toNat ≠ 0) (hz : t.status.isZombie = false) :
      Effect s (.sysKill t.pid signum)
        (s.set a { t with sigpending := t.sigpending ||| 1#32 <<< signum.toNat })
  | registered {t : Thread} {signum : ℤ} {handler : BitVec 64} (ht : s.heap s.tp = some t) :
      Effect s (.sysSignal signum handler) (s.set s.tp
        { t with signalHandler := Function.update t.signalHandler signum.toNat handler })
  | slept {t : Thread} {n : Addr} {v : Thread} (ht : s.heap s.tp = some t)
      (hidle : s.tp ≠ s.runQueue)
      (hv : (s.set s.tp { t with status := .waiting }).heap n = some v)
      (hrun : v.status.isRunnable) :
      Effect s (.threadSleep true) ((s.set s.tp { t with status := .waiting }).switched n v)
  | sleepFailed {t : Thread} (ht : s.heap s.tp = some t) :
      Effect s (.threadSleep false) (s.set s.tp { t with status := .ready })
  | woke (a : Addr) : Effect s (.wakeup a) (threadWakeupCallback s a)
  | waited {t : Thread} {pid : ℤ} {n : Addr} {v : Thread} (ht : s.heap s.tp = some t)
      (hidle : s.tp ≠ s.runQueue)
      (hv : (s.set s.tp { t with status := .waiting, waitingPid := pid }).heap n = some v)
      (hrun : v.status.isRunnable) :
      Effect s (.sysWaitpid pid)
        ((s.set s.tp { t with status := .waiting, waitingPid := pid }).switched n v)
  | scheduled {n : Addr} {v : Thread} (hv : s.heap n = some v) (hrun : v.status.isRunnable) :
      Effect s .schedule (s.switched n v)
  | reaped {s' : State} {q : List Addr} (hs : Reaped s s' (q.filter s.zombieAt))
      (hinv : Inv s' (q.filter fun b => !s.zombieAt b)) : Effect s .killZombies s'

/-- The operation goes through, with one of these effects. -/
def Works (s : State) (op : Op) : Prop := ∃ s', exec s op = some s' ∧ Effect s op s'

theorem Inv.ne_runQueue (h : Inv s q) (ht : s.heap a = some t) (hpid : 0 < t.pid) :
    a ≠ s.runQueue := by
  rintro rfl
  obtain ⟨i, hi, hi₀, -⟩ := h.idle
  cases hi.symm.trans ht
  omega

/-! ## Each operation -/

theorem threadCreate_eq {mem : Addr} {i : Thread} (h : Inv s q) (hmem : s.heap mem = none)
    (h₀ : mem ≠ 0) (hi : s.heap s.runQueue = some i) (hn : s.nrThreads < 2 ^ 31 - 1) :
    threadCreate s mem = some (s.enqueued mem (.fresh s.nrThreads) i) := by
  rw [threadCreate, if_neg h₀, nextPid_eq hn]
  exact enqueue_eq h.toQueue hmem hi

theorem threadCreate_works {mem : Addr} (h : Inv s q) (hmem : s.heap mem = none)
    (hn : mem ≠ 0 → s.nrThreads < 2 ^ 31 - 1) : Works s (.threadCreate mem) := by
  by_cases h₀ : mem = 0
  · refine ⟨s, ?_, .stay _⟩
    rw [exec, threadCreate, if_pos h₀]
  · obtain ⟨i, hi, -⟩ := h.idle
    exact ⟨_, threadCreate_eq h hmem h₀ hi (hn h₀), .created hmem h₀ hi (hn h₀)⟩

theorem sysFork_eq {mem : Addr} {i c : Thread} (h : Inv s q) (hmem : s.heap mem = none)
    (h₀ : mem ≠ 0) (hi : s.heap s.runQueue = some i) (hn : s.nrThreads < 2 ^ 31 - 1)
    (hc : s.heap s.tp = some c) : sysFork s mem true =
      some (s.enqueued mem (c.forked s.tp s.nrThreads) i, some s.nrThreads) := by
  rw [sysFork, if_neg h₀, nextPid_eq hn, hc]
  simp only [Option.bind_eq_bind, Option.bind_some]
  rw [if_pos trivial, enqueue_eq h.toQueue hmem hi]
  rfl

theorem sysFork_works {mem : Addr} {copied : Bool} (h : Inv s q) (hmem : s.heap mem = none)
    (hn : mem ≠ 0 → s.nrThreads < 2 ^ 31 - 1) : Works s (.sysFork mem copied) := by
  by_cases h₀ : mem = 0
  · refine ⟨s, ?_, .stay _⟩
    rw [exec, sysFork, if_pos h₀]
    rfl
  · obtain ⟨i, hi, -⟩ := h.idle
    obtain ⟨c, hc⟩ := h.exists_current
    cases copied with
    | false =>
      rw [Works, exec, sysFork, if_neg h₀, nextPid_eq (hn h₀), hc]
      exact ⟨_, rfl, .pidUsed mem (hn h₀)⟩
    | true =>
      refine ⟨_, ?_, .forked hmem h₀ hi (hn h₀) hc⟩
      rw [exec, sysFork_eq h hmem h₀ hi (hn h₀) hc]
      rfl

theorem threadExit_works (h : Inv s q) (hidle : s.tp ≠ s.runQueue) : Works s .threadExit := by
  obtain ⟨c, hc⟩ := h.exists_current
  obtain ⟨n, v, hv, hrun, hs⟩ := schedule_eq (h.toQueue.endThread hc (x := .terminated) rfl hidle)
  refine ⟨_, ?_, .ended hc (.inl rfl) rfl hidle hv hrun⟩
  rw [exec, threadExit, if_neg h.tp_ne_zero, hc]
  exact hs

/-- The two ways `sys_stop` and `sys_kill` end a thread that is not the idle one. -/
theorem abortThread_effect {op : Op} (h : Inv s q) (ht : s.heap a = some t) (ha : a ≠ s.runQueue)
    (hop : op.Stops t) :
    ∃ s', (abortThread s a t).map Prod.fst = some s' ∧ Effect s op s' := by
  by_cases htp : a = s.tp
  · subst htp
    obtain ⟨n, v, hv, hrun, hs⟩ :=
      scheduleThen_eq (h.toQueue.endThread ht (x := .aborted) rfl ha) 0
    refine ⟨_, ?_, .ended ht (.inr hop) (x := .aborted) rfl ha hv hrun⟩
    rw [abortThread, if_pos (by simp), hs]
    rfl
  · refine ⟨_, ?_, .stopped ht hop ha htp⟩
    rw [abortThread, if_neg (by simpa using htp)]
    rfl

theorem sysStop_works (h : Inv s q) (pid : ℤ) : Works s (.sysStop pid) := by
  rw [Works, exec, sysStop]
  by_cases hp : pid ≤ 0
  · rw [if_pos hp]
    exact ⟨s, rfl, .stay _⟩
  · rw [if_neg hp, h.findPid_eq]
    rcases h.walk_pid pid with ⟨a, t, ht, rfl, hw⟩ | ⟨-, hw⟩
    · rw [hw]
      simp only [Option.bind_eq_bind, Option.bind_some, ht]
      by_cases hz : t.status.isZombie
      · rw [if_pos hz]
        exact ⟨s, rfl, .stay _⟩
      · rw [if_neg hz]
        exact abortThread_effect h ht (h.ne_runQueue ht (by omega)) ⟨by simpa using hz, .inl rfl⟩
    · rw [hw]
      exact ⟨s, rfl, .stay _⟩

theorem sysKill_works (h : Inv s q) (pid signum : ℤ) : Works s (.sysKill pid signum) := by
  rw [Works, exec, sysKill]
  by_cases hp : signum < 0 ∨ 32 ≤ signum ∨ pid ≤ 0
  · rw [if_pos hp]
    exact ⟨s, rfl, .stay _⟩
  · rw [if_neg hp, h.findPid_eq]
    rcases h.walk_pid pid with ⟨a, t, ht, rfl, hw⟩ | ⟨-, hw⟩
    · rw [hw]
      simp only [Option.bind_eq_bind, Option.bind_some, ht]
      by_cases hz : t.status.isZombie
      · rw [if_pos hz]
        exact ⟨s, rfl, .stay _⟩
      · rw [if_neg hz]
        by_cases hs : t.signalHandler signum.toNat ≠ 0
        · rw [if_pos hs]
          exact ⟨_, rfl, .signalled ht hs (by simpa using hz)⟩
        · rw [if_neg hs]
          exact abortThread_effect h ht (h.ne_runQueue ht (by omega))
            ⟨by simpa using hz, .inr ⟨signum, rfl, not_ne_iff.1 hs⟩⟩
    · rw [hw]
      exact ⟨s, rfl, .stay _⟩

theorem sysSignal_works (h : Inv s q) (signum : ℤ) (handler : BitVec 64) :
    Works s (.sysSignal signum handler) := by
  obtain ⟨c, hc⟩ := h.exists_current
  rw [Works, exec, sysSignal]
  by_cases hp : signum < 0 ∨ 32 ≤ signum
  · rw [if_pos hp]
    exact ⟨s, rfl, .stay _⟩
  · rw [if_neg hp, hc]
    exact ⟨_, rfl, .registered hc⟩

theorem threadSleep_eq (h : Inv s q) (hidle : s.tp ≠ s.runQueue) (ht : s.heap s.tp = some t) :
    ∃ n v, (s.set s.tp { t with status := .waiting }).heap n = some v ∧ v.status.isRunnable ∧
      n ≠ s.tp ∧ threadSleep s true =
        some ((s.set s.tp { t with status := .waiting }).switched n v, none) := by
  have hqueue := h.block hidle ht (u := { t with status := .waiting }) rfl rfl (by simp)
  obtain ⟨n, v, hv, hrun, hs⟩ := scheduleThen_eq hqueue 0
  -- the caller itself is blocked, so that another thread goes on
  have hne : n ≠ s.tp := by
    rintro rfl
    rw [State.set_heap_self] at hv
    cases hv
    simp [Status.isRunnable] at hrun
  refine ⟨n, v, hv, hrun, hne, ?_⟩
  rw [threadSleep, if_neg h.tp_ne_zero, ht]
  refine hs.trans ?_
  rw [State.set_tp, if_neg hne]

theorem threadSleep_works {added : Bool} (h : Inv s q) (hidle : s.tp ≠ s.runQueue) :
    Works s (.threadSleep added) := by
  obtain ⟨c, hc⟩ := h.exists_current
  cases added with
  | false =>
    refine ⟨_, ?_, .sleepFailed hc⟩
    rw [exec, threadSleep, if_neg h.tp_ne_zero, hc]
    simp
  | true =>
    obtain ⟨n, v, hv, hrun, -, hs⟩ := threadSleep_eq h hidle hc
    refine ⟨_, ?_, .slept hc hidle hv hrun⟩
    rw [exec, hs, Option.map_some]

theorem toInt_of_range {p : ℤ} (h₀ : 0 ≤ p) (h : p < 2 ^ 31) : toInt p = p := by
  rw [toInt, Int.bmod]
  omega

/-- The three outcomes of `sys_waitpid`: there is no such process, it has ended, or the caller
blocks and another thread goes on. -/
theorem sysWaitpid_cases (hq : Inv s q) (hidle : s.tp ≠ s.runQueue) (hc : s.heap s.tp = some t)
    (pid : ℤ) :
    ((∀ a u, s.heap a = some u → u.pid ≠ pid) ∧ sysWaitpid s pid = some (s, some (-1))) ∨
    (Ended s pid ∧ (∃ a u, s.heap a = some u ∧ u.pid = pid) ∧
      sysWaitpid s pid = some (s, some pid)) ∨
    ((∃ a u, s.heap a = some u ∧ u.pid = pid ∧ u.status.isZombie = false) ∧
      ∃ n v, (s.set s.tp { t with status := .waiting, waitingPid := pid }).heap n = some v ∧
        v.status.isRunnable ∧ n ≠ s.tp ∧ sysWaitpid s pid =
          some ((s.set s.tp { t with status := .waiting, waitingPid := pid }).switched n v,
            none)) := by
  rcases hq.walk_pid pid with ⟨a, u, hu, rfl, hw⟩ | ⟨hnone, hw⟩
  · have hpid := hq.pid_range a u hu
    have hnr := hq.nrThreads_le
    rw [sysWaitpid, hw]
    simp only [Option.bind_eq_bind, Option.bind_some, hu]
    by_cases hz : u.status.isZombie
    · refine .inr (.inl ⟨⟨hpid.1, hpid.2, fun b v hv hp => ?_⟩, ⟨a, u, hu, rfl⟩,
        by rw [if_pos hz]; rfl⟩)
      cases hq.pid_inj b a v u hv hu hp
      cases hu.symm.trans hv
      exact hz
    · rw [if_neg hz, hc, Option.bind_some, toInt_of_range hpid.1 (by omega)]
      have hqueue := hq.block hidle hc (u := { t with status := .waiting, waitingPid := u.pid })
        rfl rfl (by simp)
      obtain ⟨n, v, hv, hrun, hs⟩ := scheduleThen_eq hqueue u.pid
      -- the caller itself is blocked, so that another thread goes on
      have hne : n ≠ s.tp := by
        rintro rfl
        rw [State.set_heap_self] at hv
        cases hv
        simp [Status.isRunnable] at hrun
      refine .inr (.inr ⟨⟨a, u, hu, rfl, by simpa using hz⟩, n, v, hv, hrun, hne, ?_⟩)
      rw [hs, State.set_tp, if_neg hne]
  · rw [sysWaitpid, hw]
    exact .inl ⟨hnone, rfl⟩

theorem sysWaitpid_works (h : Inv s q) (hidle : s.tp ≠ s.runQueue) (pid : ℤ) :
    Works s (.sysWaitpid pid) := by
  obtain ⟨c, hc⟩ := h.exists_current
  rw [Works, exec]
  rcases sysWaitpid_cases h hidle hc pid with ⟨-, hs⟩ | ⟨-, -, hs⟩ | ⟨-, n, v, hv, hrun, -, hs⟩
  · exact ⟨s, by rw [hs]; rfl, .stay _⟩
  · exact ⟨s, by rw [hs]; rfl, .stay _⟩
  · exact ⟨_, by rw [hs]; rfl, .waited hc hidle hv hrun⟩

/-- **Every operation goes through**, unless it takes a pid and `nr_threads` would overflow. -/
theorem exec_effect {op : Op} (h : Inv s q) (ha : Allowed s op)
    (hn : op.TakesPid → s.nrThreads < 2 ^ 31 - 1) : Works s op := by
  cases op with
  | threadCreate mem => exact threadCreate_works h ha hn
  | sysFork mem copied => exact sysFork_works h ha hn
  | threadExit => exact threadExit_works h ha
  | sysStop pid => exact sysStop_works h pid
  | sysKill pid signum => exact sysKill_works h pid signum
  | sysSignal signum handler => exact sysSignal_works h signum handler
  | threadSleep added => exact threadSleep_works h ha
  | wakeup a => exact ⟨_, rfl, .woke a⟩
  | sysWaitpid pid => exact sysWaitpid_works h ha pid
  | schedule =>
    obtain ⟨n, v, hv, hrun, hs⟩ := schedule_eq h.toQueue
    exact ⟨_, hs, .scheduled hv hrun⟩
  | killZombies =>
    obtain ⟨s', hs', hinv, hreap⟩ := killZombies_spec h
    exact ⟨s', by rw [exec, hs']; rfl, .reaped hreap hinv⟩

theorem nextPid_some (h : nextPid s = some s') : s.nrThreads < 2 ^ 31 - 1 := by
  unfold nextPid at h
  split at h
  · assumption
  · cases h

/-- An operation that took a pid had one to take. -/
theorem exec_takesPid {op : Op} (h : exec s op = some s') (hp : op.TakesPid) :
    s.nrThreads < 2 ^ 31 - 1 := by
  cases op with
  | threadCreate mem =>
    rw [exec, threadCreate, if_neg hp, Option.bind_eq_bind, Option.bind_eq_some_iff] at h
    obtain ⟨s₁, h₁, -⟩ := h
    exact nextPid_some h₁
  | sysFork mem copied =>
    rw [exec, sysFork, if_neg hp, Option.map_eq_some_iff] at h
    obtain ⟨r, h, -⟩ := h
    simp only [Option.bind_eq_bind, Option.bind_eq_some_iff] at h
    obtain ⟨-, -, s₁, h₁, -⟩ := h
    exact nextPid_some h₁
  | _ => exact hp.elim

/-- The effect of an operation that went through. -/
theorem effect_of_exec {op : Op} (h : Inv s q) (ha : Allowed s op) (he : exec s op = some s') :
    Effect s op s' := by
  obtain ⟨s'', hs'', heff⟩ := exec_effect h ha (exec_takesPid he)
  cases he.symm.trans hs''
  exact heff

/-- `sys_fork` returns to its caller. -/
theorem Effect.fork_tp {mem : Addr} {copied : Bool} (he : Effect s (.sysFork mem copied) s') :
    s'.tp = s.tp := by
  cases he with
  | stay => rfl
  | pidUsed => rfl
  | forked => rfl
  | stopped ht hop => rcases hop.2 with h | ⟨_, h, _⟩ <;> cases h
  | ended ht hop =>
    rcases hop with h | hop
    · cases h
    · rcases hop.2 with h | ⟨_, h, _⟩ <;> cases h

/-- Every effect leaves a well-formed run queue behind. -/
theorem Effect.inv {op : Op} (h : Inv s q) (he : Effect s op s') : ∃ q', Inv s' q' := by
  cases he with
  | stay => exact ⟨q, h⟩
  | pidUsed mem hn => exact ⟨q, h.skipPid hn⟩
  | created hmem h₀ hi hn => exact ⟨_, h.enqueued hmem h₀ hi rfl rfl hn⟩
  | forked hmem h₀ hi hn _ => exact ⟨_, h.enqueued hmem h₀ hi rfl rfl hn⟩
  | stopped ht _ ha htp => exact ⟨q, h.endThread ht rfl ha htp⟩
  | ended ht _ hx hidle hv _ => exact ⟨q, (h.toQueue.endThread ht hx hidle).switched hv⟩
  | signalled ht _ _ => exact ⟨q, h.setSame ht rfl rfl rfl⟩
  | registered ht => exact ⟨q, h.setSame ht rfl rfl rfl⟩
  | slept ht hidle hv _ =>
    refine ⟨q, Queue.switched ?_ hv⟩
    exact h.block hidle ht rfl rfl (by simp)
  | sleepFailed ht => exact ⟨q, h.setCurrent ht rfl rfl rfl⟩
  | woke a => exact ⟨q, h.threadWakeupCallback a⟩
  | waited ht hidle hv _ =>
    refine ⟨q, Queue.switched ?_ hv⟩
    exact h.block hidle ht rfl rfl (by simp)
  | scheduled hv _ => exact ⟨q, h.toQueue.switched hv⟩
  | reaped _ hinv => exact ⟨_, hinv⟩

end BareMetalOS.Sched
