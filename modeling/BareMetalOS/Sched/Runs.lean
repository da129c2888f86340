import BareMetalOS.Sched.Effects

/-!
# Runs of the thread system

After `init_thread_system` the threads perform the operations of `Op` in any order. Along every run
the queue stays well formed, pids are given out once, and a thread that has ended stays so
(`Evolves`). The main result is `reachable_wellScheduled`.
-/

namespace BareMetalOS.Sched

open Memory (Addr)

variable {s s' : State} {q : List Addr} {a b : Addr} {t u : Thread}

/-- One operation of a run. -/
def Step (s s' : State) : Prop := ∃ op, Allowed s op ∧ exec s op = some s'

/-- Perform the operations in turn, as long as they are allowed. -/
def play (s : State) (ops : List Op) : Option State :=
  runAll exec (fun s op => decide (Allowed s op)) s ops

/-- What can be checked on the outcome holds of a state reached. -/
theorem exists_play (s : State) (ops : List Op) (p : State → Prop) [DecidablePred p]
    (h : (play s ops).any fun s => decide (p s)) : ∃ s', play s ops = some s' ∧ p s' := by
  obtain ⟨s', hs', hp⟩ := (Option.any_eq_true _ _).1 h
  exact ⟨s', hs', of_decide_eq_true hp⟩

/-- The states of the runs that start with `init_thread_system`. -/
def Reachable (s : State) : Prop :=
  ∃ mem s₀, initThreadSystem mem = some s₀ ∧ Relation.ReflTransGen Step s₀ s

/-! ## What never changes -/

/-- Along a run pids are given out once, and a thread that has ended stays so. -/
structure Evolves (s s' : State) : Prop where
  nrThreads : s.nrThreads ≤ s'.nrThreads
  thread : ∀ a t', s'.heap a = some t' → s.nrThreads ≤ t'.pid ∨
    ∃ t, s.heap a = some t ∧ t'.pid = t.pid ∧ (t.status.isZombie → t'.status.isZombie)

namespace Evolves

theorem refl (s : State) : Evolves s s :=
  ⟨le_rfl, fun _ t h => .inr ⟨t, h, rfl, id⟩⟩

theorem trans {s'' : State} (h : Evolves s s') (h' : Evolves s' s'') : Evolves s s'' := by
  refine ⟨h.nrThreads.trans h'.nrThreads, fun a t ht => ?_⟩
  have := h.nrThreads
  rcases h'.thread a t ht with hn | ⟨t', ht', hpid, hz⟩
  · exact .inl (by omega)
  · rcases h.thread a t' ht' with hn | ⟨t'', ht'', hpid', hz'⟩
    · exact .inl (by omega)
    · exact .inr ⟨t'', ht'', hpid.trans hpid', fun h => hz (hz' h)⟩

theorem set (ht : s.heap a = some t) (hpid : u.pid = t.pid)
    (hz : t.status.isZombie → u.status.isZombie) : Evolves s (s.set a u) := by
  refine ⟨le_rfl, fun b v hv => .inr ?_⟩
  by_cases hb : b = a
  · subst hb
    rw [State.set_heap_self] at hv
    cases hv
    exact ⟨t, ht, hpid, hz⟩
  · rw [State.set_heap_of_ne hb] at hv
    exact ⟨v, hv, rfl, id⟩

theorem switched (ht : s.heap a = some t) (hrun : t.status.isRunnable) :
    Evolves s (s.switched a t) := by
  refine ⟨le_rfl, fun b v hv => .inr ?_⟩
  obtain ⟨w, hw, ⟨rfl, rfl⟩ | ⟨-, rfl⟩⟩ := State.switched_some ht hv
  · cases ht.symm.trans hw
    exact ⟨t, ht, rfl, fun hz => (Status.not_runnable_of_zombie hz hrun).elim⟩
  · exact ⟨w, hw, by simp, by simp⟩

theorem endThread {x : Status} (ht : s.heap a = some t) (hx : x.isZombie) :
    Evolves s (endThread s a t x) := by
  refine ⟨by simp, fun b v hv => .inr ?_⟩
  have hw : x ≠ .waiting := by rintro rfl; simp [Status.isZombie] at hx
  obtain ⟨w, hw, ⟨-, rfl⟩ | ⟨-, rfl | ⟨-, hwait, -, rfl⟩⟩⟩ := endThread_some ht hw hv
  · exact ⟨w, hw, rfl, fun _ => hx⟩
  · exact ⟨v, hw, rfl, id⟩
  · exact ⟨w, hw, rfl, fun hz => by simp [hwait, Status.isZombie] at hz⟩

theorem threadWakeupCallback (s : State) (a : Addr) : Evolves s (threadWakeupCallback s a) := by
  refine ⟨by simp, fun b v hv => .inr ?_⟩
  obtain ⟨w, hw, rfl | ⟨-, hwait, rfl⟩⟩ := threadWakeupCallback_some hv
  · exact ⟨v, hw, rfl, id⟩
  · exact ⟨w, hw, rfl, fun hz => by simp [hwait, Status.isZombie] at hz⟩

theorem enqueued {i : Thread} (hi : s.heap s.runQueue = some i) (hpid : u.pid = s.nrThreads) :
    Evolves s (s.enqueued a u i) := by
  refine ⟨by simp [State.enqueued], fun b v hv => ?_⟩
  rcases State.enqueued_some hi hv with ⟨-, rfl⟩ | ⟨-, w, n, hw, rfl⟩
  · exact .inl hpid.ge
  · exact .inr ⟨w, hw, rfl, id⟩

theorem reaped {gone : List Addr} (h : Reaped s s' gone) : Evolves s s' := by
  refine ⟨h.nrThreads.ge, fun b v hv => .inr ?_⟩
  obtain ⟨w, n, hw, rfl⟩ := h.old b v hv
  exact ⟨w, hw, rfl, id⟩

end Evolves

theorem Effect.evolves {op : Op} (h : Inv s q) (he : Effect s op s') : Evolves s s' := by
  have hcur : ∀ t, s.heap s.tp = some t → ¬ t.status.isZombie := fun t ht hz =>
    Status.not_runnable_of_zombie hz (h.current t ht)
  cases he with
  | stay => exact .refl s
  | pidUsed mem hn => exact ⟨by simp, fun _ t ht => .inr ⟨t, ht, rfl, id⟩⟩
  | created hmem h₀ hi hn => exact .enqueued hi rfl
  | forked hmem h₀ hi hn hc => exact .enqueued hi rfl
  | stopped ht hop ha htp => exact .endThread ht rfl
  | ended ht hop hx hidle hv hrun => exact (Evolves.endThread ht hx).trans (.switched hv hrun)
  | signalled ht hh hz => exact .set ht rfl id
  | registered ht => exact .set ht rfl id
  | slept ht hidle hv hrun =>
    refine .trans ?_ (.switched hv hrun)
    exact .set ht rfl fun hz => (hcur _ ht hz).elim
  | sleepFailed ht => exact .set ht rfl fun hz => (hcur _ ht hz).elim
  | woke a => exact .threadWakeupCallback s a
  | waited ht hidle hv hrun =>
    refine .trans ?_ (.switched hv hrun)
    exact .set ht rfl fun hz => (hcur _ ht hz).elim
  | scheduled hv hrun => exact .switched hv hrun
  | reaped hs hinv => exact .reaped hs

/-! ## Runs -/

theorem Step.inv (h : Inv s q) (hs : Step s s') : (∃ q', Inv s' q') ∧ Evolves s s' := by
  obtain ⟨op, ha, he⟩ := hs
  have heff := effect_of_exec h ha he
  exact ⟨heff.inv h, heff.evolves h⟩

theorem Steps.inv (hs : Relation.ReflTransGen Step s s') (h : ∃ q, Inv s q) :
    (∃ q', Inv s' q') ∧ Evolves s s' := by
  induction hs with
  | refl => exact ⟨h, .refl s⟩
  | tail _ hstep ih =>
    obtain ⟨⟨q', hq'⟩, hev⟩ := ih
    obtain ⟨hinv, hev'⟩ := hstep.inv hq'
    exact ⟨hinv, hev.trans hev'⟩

/-- The idle thread after `init_thread_system`. -/
def Thread.booted (mem : Addr) : Thread := { Thread.fresh 0 with status := .running, next := mem }

/-- The state after `init_thread_system`: the idle thread alone. -/
def State.booted (mem : Addr) : State where
  heap := Function.update (fun _ => none) mem (some (.booted mem))
  runQueue := mem
  nrThreads := 1
  tp := mem

theorem initThreadSystem_eq {mem : Addr} (h₀ : mem ≠ 0) :
    initThreadSystem mem = some (.booted mem) := by
  rw [initThreadSystem, threadCreate, if_neg h₀]
  simp [State.empty, nextPid, enqueue, State.set, State.booted, Thread.booted]

theorem ne_zero_of_initThreadSystem {mem : Addr} (h : initThreadSystem mem = some s) : mem ≠ 0 := by
  rintro rfl
  simp [initThreadSystem, threadCreate, State.empty] at h

theorem State.booted_some {mem : Addr} (h : (State.booted mem).heap a = some t) :
    a = mem ∧ t = .booted mem := by
  by_cases ha : a = mem
  · subst ha
    simp only [booted, Function.update_self] at h
    exact ⟨rfl, (Option.some.inj h).symm⟩
  · simp only [booted, Function.update_of_ne ha] at h
    cases h

theorem inv_booted {mem : Addr} (h₀ : mem ≠ 0) : Inv (.booted mem) [mem] := by
  have hself : (State.booted mem).heap mem = some (.booted mem) := by simp [State.booted]
  have hnull : (State.booted mem).heap 0 = none :=
    Function.update_of_ne (Ne.symm h₀) _ fun _ => none
  have hnr : (State.booted mem).nrThreads ≤ 2 ^ 31 - 1 := by simp [State.booted]
  refine ⟨⟨⟨⟨rfl, _, hself, rfl⟩, by simp, by simp⟩, fun a => ?_, hnull, ⟨_, hself, rfl, rfl⟩, ?_,
    ?_, ?_, by simp [State.booted], hnr⟩, ?_⟩
  · rw [List.mem_singleton]
    constructor
    · rintro rfl
      exact ⟨_, hself⟩
    · rintro ⟨t, ht⟩
      exact (State.booted_some ht).1
  · intro a b t u ha hb _
    rw [(State.booted_some ha).1, (State.booted_some hb).1]
  · intro a t ht
    rw [(State.booted_some ht).2]
    exact ⟨le_rfl, zero_lt_one⟩
  · intro a t ht _
    exact (State.booted_some ht).1
  · intro t ht
    rw [(State.booted_some ht).2]
    rfl

theorem Reachable.inv (h : Reachable s) : ∃ q, Inv s q := by
  obtain ⟨mem, s₀, hs₀, hrun⟩ := h
  have h₀ := ne_zero_of_initThreadSystem hs₀
  cases hs₀.symm.trans (initThreadSystem_eq h₀)
  exact (Steps.inv hrun ⟨_, inv_booted h₀⟩).1

/-! ## What holds in every state of a run -/

/-- What the thread system guarantees in a state with run queue `q`. -/
structure WellScheduled (s : State) (q : List Addr) : Prop where
  /-- `run_queue` is one circular list. -/
  ring : Ring s.heap Thread.next s.runQueue q
  /-- Its head is the idle thread. -/
  idle : ∃ t, s.heap s.runQueue = some t ∧ t.pid = 0
  /-- It holds every thread that has not been reaped; by `ring` each of them once. -/
  complete : ∀ a, a ∈ q ↔ ∃ t, s.heap a = some t
  pid_inj : ∀ a b t u, s.heap a = some t → s.heap b = some u → t.pid = u.pid → a = b
  /-- At most one thread is `RUNNING`, and it is the current one. -/
  running : ∀ a t, s.heap a = some t → t.status = .running → a = s.tp
  /-- In every later state the threads that have ended now are still zombies or have been reaped,
  and none of them is the current thread. -/
  dead : ∀ s', Relation.ReflTransGen Step s s' → ∀ a t, s.heap a = some t → t.status.isZombie →
    ∀ b t', s'.heap b = some t' → t'.pid = t.pid → t'.status.isZombie ∧ b ≠ s'.tp
  /-- A pass of `kill_zombies` frees the zombies of the queue and keeps the rest of it. -/
  reap : ∃ s', killZombies s = some (s', q.filter s.zombieAt) ∧
    Ring s'.heap Thread.next s'.runQueue (q.filter fun a => !s.zombieAt a) ∧
    Reaped s s' (q.filter s.zombieAt)
  /-- Every operation goes through, unless `nr_threads` would overflow. -/
  progress : ∀ op, Allowed s op → (op.TakesPid → s.nrThreads < 2 ^ 31 - 1) → (exec s op).isSome

/-- **The scheduler keeps its run queue.** In every state of every run, the run queue is a circular
list from the idle thread through every unreaped thread, with distinct pids; only the current thread
is `RUNNING`; threads that have ended never run again; and `kill_zombies` frees exactly the zombies
and keeps the order of the others. The operations of a run are whole, the wake-up being one of
them. -/
theorem reachable_wellScheduled (h : Reachable s) : ∃ q, WellScheduled s q := by
  obtain ⟨q, hq⟩ := h.inv
  obtain ⟨i, hi, hi₀, -⟩ := hq.idle
  refine ⟨q, hq.ring, ⟨i, hi, hi₀⟩, hq.mem_iff, hq.pid_inj, hq.running, ?_, ?_, ?_⟩
  · intro s' hrun a t ht hz b t' ht' hpid
    obtain ⟨⟨q', hq'⟩, hev⟩ := Steps.inv hrun ⟨q, hq⟩
    have hlt := hq.pid_range a t ht
    have hzombie : t'.status.isZombie := by
      rcases hev.thread b t' ht' with hn | ⟨v, hv, hpid', hz'⟩
      · omega
      · cases hq.pid_inj a b t v ht hv (by omega)
        cases ht.symm.trans hv
        exact hz' hz
    refine ⟨hzombie, ?_⟩
    rintro rfl
    exact Status.not_runnable_of_zombie hzombie (hq'.current t' ht')
  · obtain ⟨s', hs', hinv, hreap⟩ := killZombies_spec hq
    exact ⟨s', hs', hinv.ring, hreap⟩
  · intro op hop hn
    obtain ⟨s', hs', -⟩ := exec_effect hq hop hn
    rw [hs']
    rfl

/-- A run: the idle thread creates a thread and switches to it, and it forks a child. -/
theorem reachable_wellScheduled_fork : ∃ s, Reachable s ∧ s.nrThreads = 3 ∧ s.tp = 0x2000 ∧
    ∃ q, WellScheduled s q := by
  have hrun : Reachable _ := ⟨0x1000, _, rfl, .tail (.tail (.tail .refl
    ⟨.threadCreate 0x2000, rfl, rfl⟩) ⟨.schedule, trivial, rfl⟩) ⟨.sysFork 0x3000 true, rfl, rfl⟩⟩
  exact ⟨_, hrun, rfl, rfl, reachable_wellScheduled hrun⟩

end BareMetalOS.Sched
