import BareMetalOS.Sched.Timer

/-!
# Blocked threads and their events

A thread blocked in `thread_sleep` should go on only after its timer has expired, and one blocked in
`sys_waitpid(p)` only after `p` has ended (`Occurred`). Two things in the source break this. A
thread that ends wakes its parent whenever the parent is `WAITING` with `waiting_pid` `-1`, and `-1`
is also what a sleeping parent has there. And a wake-up whose sleeper has been killed stays pending,
or goes on if it has been started: it wakes whichever thread gets the struct next, or the dead
sleeper itself if it has found it `WAITING` before. `Benign` excludes exactly these steps; along the
runs without them every wake-up is the right one (`benign_justified`).

The invariant `Awaits` ties every pending wake-up to the call of the thread at its address. `Moves`
says what a step can do to a thread that is blocked, and what it must not.
-/

namespace BareMetalOS.Sched

open Memory (Addr)

variable {k k' k₁ : Kernel} {s s' : State} {q : List Addr} {a b : Addr} {t t' u : Thread}

/-- The callbacks that are being run. -/
def Kernel.running (k : Kernel) : List Callback :=
  (k.started.filter fun r => r.stage ≠ .returned).map (·.task.callback)

/-- The callbacks of expired timers: in the task queue, or being run. -/
def Kernel.due (k : Kernel) : List Callback := k.tasks.map TaskNode.callback ++ k.running

/-- The arguments of the pending wake-ups: in the timer list, in the task queue, or being run. -/
def Kernel.pending (k : Kernel) : List Addr :=
  (k.timers.map TimerNode.callback ++ k.due).filterMap Callback.wakes

/-- The threads that a wake-up has found `WAITING` and makes `READY` next. -/
def Kernel.found (k : Kernel) : List Addr :=
  (k.started.filter fun r => r.stage = .found).filterMap fun r => r.task.callback.wakes

/-- The event that a blocked thread waits for. -/
def Occurred (k : Kernel) : Call → Prop
  | .sleep e => e ≤ k.now
  | .waitpid p => Ended k.sched p

theorem Evolves.ended {p : ℤ} (h : Evolves s s') (he : Ended s p) : Ended s' p := by
  obtain ⟨h₀, hp, hz⟩ := he
  have hn := h.nrThreads
  refine ⟨h₀, by omega, fun a t' ht' hpid => ?_⟩
  rcases h.thread a t' ht' with hn | ⟨t, ht, hpid', hz'⟩
  · omega
  · exact hz' (hz a t ht (by omega))

theorem Status.cases (x : Status) : x.isZombie ∨ x = .waiting ∨ x.isRunnable := by
  cases x <;> simp [isZombie, isRunnable]

/-! ## The condition -/

/-- The thread that the `parent` pointer of `t` designates is not blocked in `thread_sleep`. -/
def ParentAwake (k : Kernel) (t : Thread) : Prop :=
  ∀ p e, k.sched.heap t.parent = some p → p.status = .waiting → k.call t.parent ≠ some (.sleep e)

/-- The step ends no thread whose parent sleeps or that a wake-up makes `READY` next, and reuses no
struct that a pending wake-up refers to. -/
def Benign (k : Kernel) : SysOp → Prop
  | .op (.thread (.threadCreate mem)) => mem ∉ k.pending
  | .op (.thread (.sysFork mem copied)) => copied → mem ∉ k.pending
  | .op (.thread .threadExit) => ∀ t, k.sched.heap k.sched.tp = some t → ParentAwake k t
  | .op (.thread (.sysStop pid)) => ∀ a t, k.sched.heap a = some t → (Op.sysStop pid).Stops t →
    ParentAwake k t ∧ a ∉ k.found
  | .op (.thread (.sysKill pid signum)) => ∀ a t, k.sched.heap a = some t →
    (Op.sysKill pid signum).Stops t → ParentAwake k t ∧ a ∉ k.found
  | _ => True

/-- A step of the system in which `run_tasks` is not preempted. -/
def KStep (k k' : Kernel) : Prop := ∃ op, KAllowed k op ∧ k.exec op = some k'

/-- A step of the system. -/
def SysStep (k k' : Kernel) : Prop := ∃ op, SysAllowed k op ∧ k.perform op = some k'

/-- A step of the system that meets the condition. -/
def BenignStep (k k' : Kernel) : Prop :=
  ∃ op, SysAllowed k op ∧ Benign k op ∧ k.perform op = some k'

/-! ## What a step does to the blocked threads -/

/-- What becomes of the thread `t` at `a`, which is `t'` after the step. -/
inductive Move (k k' : Kernel) (a : Addr) (t t' : Thread) : Prop
  | ended (h : t'.status.isZombie) (hf : t.status.isZombie ∨ a ∉ k.found)
  | waits (h : t.status = .waiting) (h' : t'.status = .waiting) (hw : t'.waitingPid = t.waitingPid)
      (hc : k'.call a = k.call a)
  | runs (h : t.status.isRunnable) (h' : t'.status.isRunnable)
  | blocks (h : t.status.isRunnable) (h' : t'.status = .waiting)
      (hc : (∃ e, k'.call a = some (.sleep e)) ∨
        ∃ p, k'.call a = some (.waitpid p) ∧ t'.waitingPid = p ∧ 0 ≤ p)
  | woken (c : Call) (h : t.status = .waiting) (h' : t'.status.isRunnable) (hc : k.call a = some c)
      (ho : Occurred k' c) (hp : ∀ e, c = .sleep e → a ∉ k'.pending)

/-- Every thread after the step is new or comes from one before it by a `Move`. -/
structure Moves (k k' : Kernel) : Prop where
  evolves : Evolves k.sched k'.sched
  now : k.now ≤ k'.now
  thread : ∀ a t', k'.sched.heap a = some t' →
    (k.sched.heap a = none ∧ a ∉ k'.pending ∧ t'.status.isRunnable) ∨
      ∃ t, k.sched.heap a = some t ∧ Move k k' a t t'

/-- A thread whose struct is only changed in fields that do not matter here. -/
theorem Move.same (hs : t'.status = t.status) (hw : t'.waitingPid = t.waitingPid)
    (hc : k'.call a = k.call a) : Move k k' a t t' := by
  rcases t.status.cases with hz | hw' | hr
  · exact .ended (hs ▸ hz) (.inl hz)
  · exact .waits hw' (hs.trans hw') hw hc
  · exact .runs hr (hs ▸ hr)

/-- A step without effect on the threads. -/
theorem Moves.still (hs : k'.sched = k.sched) (hc : k'.call = k.call) (hn : k.now ≤ k'.now) :
    Moves k k' := by
  refine ⟨by rw [hs]; exact .refl _, hn, fun a t ht => .inr ⟨t, by rw [← hs, ht], ?_⟩⟩
  exact .same rfl rfl (by rw [hc])

/-- Going on with a thread that can run: it leaves its call, and nothing else changes. -/
theorem Moves.switched {n : Addr} {v : Thread} (h : Moves k k₁) (hv : k₁.sched.heap n = some v)
    (hrun : v.status.isRunnable) (hs : k'.sched = k₁.sched.switched n v)
    (hc : ∀ b, b ≠ n → k'.call b = k₁.call b) (hn : k'.now = k₁.now)
    (hp : k'.pending = k₁.pending) : Moves k k' := by
  have hev : Evolves k₁.sched k'.sched := by
    rw [hs]
    exact .switched hv hrun
  have hocc : ∀ c, Occurred k₁ c → Occurred k' c := by
    intro c ho
    cases c with
    | sleep e => rwa [Occurred, hn]
    | waitpid p => exact hev.ended ho
  refine ⟨h.evolves.trans hev, by rw [hn]; exact h.now, fun a t' ht' => ?_⟩
  rw [hs] at ht'
  obtain ⟨w, hw, hcase⟩ := State.switched_some hv ht'
  -- the status of a thread that is blocked or has ended is not touched
  have hkeep : ¬ w.status.isRunnable → a ≠ n ∧ t' = w := by
    intro hnr
    rcases hcase with ⟨rfl, -⟩ | ⟨hne, rfl⟩
    · cases hv.symm.trans hw
      exact (hnr hrun).elim
    · refine ⟨hne, ?_⟩
      rw [Thread.preempt, if_neg]
      intro hr
      simp [hr, Status.isRunnable] at hnr
  have hrunnable : w.status.isRunnable → t'.status.isRunnable := by
    intro hr
    rcases hcase with ⟨-, rfl⟩ | ⟨-, rfl⟩
    · rfl
    · simpa using hr
  have hwait : w.status = .waiting → a ≠ n ∧ t' = w :=
    fun hw => hkeep (by simp [hw, Status.isRunnable])
  rcases h.thread a w hw with ⟨hnone, hnp, hr⟩ | ⟨t, ht, hmove⟩
  · exact .inl ⟨hnone, by rwa [hp], hrunnable hr⟩
  · refine .inr ⟨t, ht, ?_⟩
    cases hmove with
    | ended hz hf =>
      obtain ⟨-, rfl⟩ := hkeep (Status.not_runnable_of_zombie hz)
      exact .ended hz hf
    | waits hw₁ hw₂ hwp hcall =>
      obtain ⟨hne, rfl⟩ := hwait hw₂
      exact .waits hw₁ hw₂ hwp (by rw [hc a hne, hcall])
    | runs hr hr' => exact .runs hr (hrunnable hr')
    | blocks hr hw₂ hcall =>
      obtain ⟨hne, rfl⟩ := hwait hw₂
      exact .blocks hr hw₂ (by rwa [hc a hne])
    | woken c hw₁ hr hcall ho hnp =>
      exact .woken c hw₁ (hrunnable hr) hcall (hocc c ho) (by rwa [hp])

/-! ## The invariant -/

/-- Every pending wake-up belongs to the sleep of the thread at its address, or that thread has
ended; a thread that is made `READY` next is `WAITING`; and every `WAITING` thread is blocked in one
of the two calls. -/
structure Awaits (k : Kernel) : Prop where
  nodup : k.pending.Nodup
  timer : ∀ n ∈ k.timers, ∀ a t, n.callback = .threadWakeup a → k.sched.heap a = some t →
    t.status.isZombie ∨ (t.status = .waiting ∧ k.call a = some (.sleep n.expireTime))
  task : ∀ a t, .threadWakeup a ∈ k.due → k.sched.heap a = some t →
    t.status.isZombie ∨ (t.status = .waiting ∧ ∃ e, k.call a = some (.sleep e) ∧ e ≤ k.now)
  found : ∀ a t, a ∈ k.found → k.sched.heap a = some t → t.status = .waiting
  waiting : ∀ a t, k.sched.heap a = some t → t.status = .waiting →
    (∃ e, k.call a = some (.sleep e)) ∨
      ∃ p, k.call a = some (.waitpid p) ∧ t.waitingPid = p ∧ 0 ≤ p

theorem Callback.wakes_eq_some {c : Callback} : c.wakes = some a ↔ c = .threadWakeup a := by
  cases c <;> simp [Callback.wakes]

theorem Kernel.mem_running {c : Callback} :
    c ∈ k.running ↔ ∃ r ∈ k.started, r.stage ≠ .returned ∧ r.task.callback = c := by
  simp [running, and_assoc]

theorem Kernel.mem_found :
    a ∈ k.found ↔ ∃ r ∈ k.started, r.stage = .found ∧ r.task.callback = .threadWakeup a := by
  simp [found, Callback.wakes_eq_some, and_assoc]

theorem Kernel.mem_pending :
    a ∈ k.pending ↔ (∃ n ∈ k.timers, n.callback = .threadWakeup a) ∨ .threadWakeup a ∈ k.due := by
  simp [pending, Callback.wakes_eq_some]

theorem Kernel.mem_pending_of_found (h : a ∈ k.found) : a ∈ k.pending := by
  obtain ⟨r, hr, hs, hc⟩ := mem_found.1 h
  refine mem_pending.2 (.inr (List.mem_append_right _ (mem_running.2 ⟨r, hr, ?_, hc⟩)))
  rw [hs]
  decide

/-- A thread with a pending wake-up has ended or sleeps. -/
theorem Awaits.of_pending (h : Awaits k) (ha : a ∈ k.pending) (ht : k.sched.heap a = some t) :
    t.status.isZombie ∨ (t.status = .waiting ∧ ∃ e, k.call a = some (.sleep e)) := by
  rcases Kernel.mem_pending.1 ha with ⟨n, hn, hc⟩ | hdue
  · exact (h.timer n hn a t hc ht).imp id fun h => ⟨h.1, _, h.2⟩
  · exact (h.task a t hdue ht).imp id fun h => ⟨h.1, h.2.choose, h.2.choose_spec.1⟩

/-- A thread that can run has no pending wake-up. -/
theorem Awaits.notMem_pending (h : Awaits k) (ht : k.sched.heap a = some t)
    (hr : t.status.isRunnable) : a ∉ k.pending := by
  intro ha
  rcases h.of_pending ha ht with hz | ⟨hw, -⟩
  · exact Status.not_runnable_of_zombie hz hr
  · simp [hw, Status.isRunnable] at hr

/-- A thread with a wake-up pending after a step had it pending before, and is still in the same
state. -/
theorem Move.of_pending (h : Awaits k) (hm : Move k k' a t t') (ht : k.sched.heap a = some t)
    (ha : a ∈ k.pending) (ha' : a ∈ k'.pending) :
    t'.status.isZombie ∧ (t.status.isZombie ∨ a ∉ k.found) ∨
      (t'.status = .waiting ∧ t.status = .waiting ∧ k'.call a = k.call a) := by
  have hnr := mt (h.notMem_pending ht) (not_not.2 ha)
  cases hm with
  | ended hz hf => exact .inl ⟨hz, hf⟩
  | waits hw hw' _ hc => exact .inr ⟨hw', hw, hc⟩
  | runs hr _ => exact (hnr hr).elim
  | blocks hr _ _ => exact (hnr hr).elim
  | woken c hw _ hc _ hp =>
    rcases h.of_pending ha ht with hz | ⟨-, e, he⟩
    · simp [hw, Status.isZombie] at hz
    · cases he.symm.trans hc
      exact (hp e rfl ha').elim

/-- **The invariant is kept** by every step that only moves threads, provided that a timer is an old
one or that of a thread just gone to sleep, a callback of an expired timer is an old one or that of
a timer now expired, and a thread found `WAITING` was found before or is `WAITING`. -/
theorem Awaits.step (h : Awaits k) (hm : Moves k k') (hnd : k'.pending.Nodup)
    (htimer : ∀ n ∈ k'.timers, ∀ a, n.callback = .threadWakeup a → n ∈ k.timers ∨
      ∃ t', k'.sched.heap a = some t' ∧ t'.status = .waiting ∧
        k'.call a = some (.sleep n.expireTime))
    (htask : ∀ a, .threadWakeup a ∈ k'.due → .threadWakeup a ∈ k.due ∨
      ∃ m ∈ k.timers, m.callback = .threadWakeup a ∧ m.expireTime ≤ k'.now)
    (hfound : ∀ a ∈ k'.found, a ∈ k.found ∨
      ∀ t', k'.sched.heap a = some t' → t'.status = .waiting) : Awaits k' := by
  have hold : ∀ a t', a ∈ k.pending → a ∈ k'.pending → k'.sched.heap a = some t' →
      ∃ t, k.sched.heap a = some t ∧ (t'.status.isZombie ∧ (t.status.isZombie ∨ a ∉ k.found) ∨
        (t'.status = .waiting ∧ t.status = .waiting ∧ k'.call a = k.call a)) := by
    intro a t' ha ha' ht'
    rcases hm.thread a t' ht' with ⟨-, hnp, -⟩ | ⟨t, ht, hmove⟩
    · exact (hnp ha').elim
    · exact ⟨t, ht, hmove.of_pending h ht ha ha'⟩
  have hnow := hm.now
  have hle : ∀ e, e ≤ k.now → e ≤ k'.now := fun e he => BitVec.le_trans he hnow
  refine ⟨hnd, fun n hn a t' hc ht' => ?_, fun a t' hdue ht' => ?_, fun a t' hf ht' => ?_,
    fun a t' ht' hw => ?_⟩
  · have ha' : a ∈ k'.pending := Kernel.mem_pending.2 (.inl ⟨n, hn, hc⟩)
    rcases htimer n hn a hc with hn' | ⟨u, hu, hw, hcall⟩
    · obtain ⟨t, ht, ⟨hz, -⟩ | ⟨hw', hw, hcall⟩⟩ :=
        hold a t' (Kernel.mem_pending.2 (.inl ⟨n, hn', hc⟩)) ha' ht'
      · exact .inl hz
      · rcases h.timer n hn' a t hc ht with hz | ⟨-, hs⟩
        · simp [hw, Status.isZombie] at hz
        · exact .inr ⟨hw', hcall.trans hs⟩
    · cases hu.symm.trans ht'
      exact .inr ⟨hw, hcall⟩
  · have ha' : a ∈ k'.pending := Kernel.mem_pending.2 (.inr hdue)
    rcases htask a hdue with hdue' | ⟨m, hm', hmc, hle'⟩
    · obtain ⟨t, ht, ⟨hz, -⟩ | ⟨hw', hw, hcall⟩⟩ :=
        hold a t' (Kernel.mem_pending.2 (.inr hdue')) ha' ht'
      · exact .inl hz
      · rcases h.task a t hdue' ht with hz | ⟨-, e, he, hle'⟩
        · simp [hw, Status.isZombie] at hz
        · exact .inr ⟨hw', e, hcall.trans he, hle e hle'⟩
    · obtain ⟨t, ht, ⟨hz, -⟩ | ⟨hw', hw, hcall⟩⟩ :=
        hold a t' (Kernel.mem_pending.2 (.inl ⟨m, hm', hmc⟩)) ha' ht'
      · exact .inl hz
      · rcases h.timer m hm' a t hmc ht with hz | ⟨-, hs⟩
        · simp [hw, Status.isZombie] at hz
        · exact .inr ⟨hw', _, hcall.trans hs, hle'⟩
  · rcases hfound a hf with hf' | hw
    · obtain ⟨t, ht, ⟨-, hz | hnf⟩ | ⟨hw', -, -⟩⟩ :=
        hold a t' (Kernel.mem_pending_of_found hf') (Kernel.mem_pending_of_found hf) ht'
      · simp [h.found a t hf' ht, Status.isZombie] at hz
      · exact (hnf hf').elim
      · exact hw'
    · exact hw t' ht'
  · rcases hm.thread a t' ht' with ⟨-, -, hr⟩ | ⟨t, ht, hmove⟩
    · simp [hw, Status.isRunnable] at hr
    · cases hmove with
      | ended hz _ => simp [hw, Status.isZombie] at hz
      | waits hw₁ _ hwp hc =>
        rw [hc, hwp]
        exact h.waiting a t ht hw₁
      | runs _ hr => simp [hw, Status.isRunnable] at hr
      | blocks _ _ hc => exact hc
      | woken _ _ hr _ _ _ => simp [hw, Status.isRunnable] at hr

theorem Kernel.due_congr (hk : k'.tasks = k.tasks) (hs : k'.started = k.started) :
    k'.due = k.due := by
  rw [due, due, running, running, hk, hs]

theorem Kernel.pending_congr (ht : k'.timers = k.timers) (hk : k'.tasks = k.tasks)
    (hs : k'.started = k.started) : k'.pending = k.pending := by
  rw [pending, pending, ht, due_congr hk hs]

theorem Kernel.found_congr (hs : k'.started = k.started) : k'.found = k.found := by
  rw [found, found, hs]

/-- The same for a step that leaves the timers and the tasks as they are. -/
theorem Awaits.step_of_eq (h : Awaits k) (hm : Moves k k') (ht : k'.timers = k.timers)
    (hk : k'.tasks = k.tasks) (hs : k'.started = k.started) : Awaits k' := by
  refine h.step hm ?_ (fun n hn a _ => .inl (ht ▸ hn)) (fun a ha => .inl ?_) fun a ha => .inl ?_
  · rw [Kernel.pending_congr ht hk hs]
    exact h.nodup
  · rwa [← Kernel.due_congr hk hs]
  · rwa [← Kernel.found_congr hs]

end BareMetalOS.Sched
