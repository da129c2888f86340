import BareMetalOS.Sched.Blocking

/-!
# Wake-ups along a run

Every operation of the system, on a state with a well-formed run queue and the invariant `Awaits`,
is followed by such a state and only moves the blocked threads as `Moves` allows, if the step is
`Benign` (`exec_moves`). From this a thread blocked in a call is tracked along the rest of the run
(`Tracks`) until its event has occurred: `benign_justified`. Without the condition the property
fails: a child that exits wakes its parent out of `usleep` (`not_justified_usleep`).
-/

namespace BareMetalOS.Sched

open Memory (Addr)

variable {k k' k₁ : Kernel} {s s' : State} {q : List Addr} {a b : Addr} {t t' u : Thread}

/-! ## The threads under each operation -/

/-- A new thread, at an address without pending wake-up. -/
theorem Moves.enqueued {i : Thread} {mem : Addr} (hmem : k.sched.heap mem = none)
    (hi : k.sched.heap k.sched.runQueue = some i) (hnp : mem ∉ k.pending)
    (hpid : u.pid = k.sched.nrThreads) (hu : u.status = .ready) :
    Moves k { k with
      sched := k.sched.enqueued mem u i
      call := Function.update k.call mem none } := by
  refine ⟨.enqueued hi hpid, BitVec.le_refl _, fun b v hv => ?_⟩
  rcases State.enqueued_some hi hv with ⟨rfl, rfl⟩ | ⟨hne, w, n, hw, rfl⟩
  · exact .inl ⟨hmem, hnp, by simp [hu, Status.isRunnable]⟩
  · exact .inr ⟨w, hw, .same rfl rfl (Function.update_of_ne hne ..)⟩

/-- The end of a thread whose parent does not sleep. -/
theorem Moves.endThread {x : Status} (h : Awaits k) (hq : Queue k.sched q)
    (ht : k.sched.heap a = some t) (hx : x.isZombie) (hp : ParentAwake k t) (hf : a ∉ k.found) :
    Moves k { k with sched := endThread k.sched a t x } := by
  have hxw : x ≠ .waiting := by rintro rfl; simp [Status.isZombie] at hx
  refine ⟨.endThread ht hx, BitVec.le_refl _, fun b v hv => .inr ?_⟩
  obtain ⟨w, hw, ⟨rfl, rfl⟩ | ⟨-, rfl | ⟨rfl, hwait, hwp, rfl⟩⟩⟩ := endThread_some ht hxw hv
  · exact ⟨w, hw, .ended hx (.inr hf)⟩
  · exact ⟨v, hw, .same rfl rfl rfl⟩
  · refine ⟨w, hw, ?_⟩
    rcases h.waiting _ w hw hwait with ⟨e, he⟩ | ⟨p, hc, rfl, h₀⟩
    · exact (hp w e hw hwait he).elim
    · have hpid : w.waitingPid = t.pid := by omega
      refine .woken _ hwait rfl hc ⟨h₀, ?_, fun c y hy hyp => ?_⟩ (by simp)
      · have := hq.pid_range a t ht
        simp only [endThread_nrThreads]
        omega
      · obtain ⟨z, hz, ⟨-, rfl⟩ | ⟨hne, hcase⟩⟩ := endThread_some ht hxw hy
        · exact hx
        · refine (hne (hq.pid_inj c a z t hz ht ?_)).elim
          rcases hcase with rfl | ⟨-, -, -, rfl⟩
          · omega
          · exact hyp.trans hpid

/-- The current thread blocks in a call. -/
theorem Moves.block {u : Thread} {c : Call} (ht : k.sched.heap k.sched.tp = some t)
    (hr : t.status.isRunnable) (hpid : u.pid = t.pid) (hw : u.status = .waiting)
    (hc : (∃ e, c = .sleep e) ∨ ∃ p, c = .waitpid p ∧ u.waitingPid = p ∧ 0 ≤ p)
    (hs : k'.sched = k.sched.set k.sched.tp u)
    (hcall : k'.call = Function.update k.call k.sched.tp (some c)) (hn : k'.now = k.now) :
    Moves k k' := by
  refine ⟨?_, by rw [hn]; exact BitVec.le_refl _, fun b v hv => .inr ?_⟩
  · rw [hs]
    exact .set ht hpid fun hz => (Status.not_runnable_of_zombie hz hr).elim
  · rw [hs] at hv
    by_cases hb : b = k.sched.tp
    · subst hb
      rw [State.set_heap_self] at hv
      cases hv
      refine ⟨t, ht, .blocks hr hw ?_⟩
      rw [hcall, Function.update_self]
      rcases hc with ⟨e, rfl⟩ | ⟨p, rfl, hp⟩
      · exact .inl ⟨e, rfl⟩
      · exact .inr ⟨p, rfl, hp⟩
    · rw [State.set_heap_of_ne hb] at hv
      exact ⟨v, hv, .same rfl rfl (by rw [hcall, Function.update_of_ne hb])⟩

/-- A write to a struct that changes neither its status nor `waiting_pid`. -/
theorem Moves.setSame (ht : k.sched.heap a = some t) (hpid : u.pid = t.pid)
    (hs : u.status = t.status) (hw : u.waitingPid = t.waitingPid) :
    Moves k { k with sched := k.sched.set a u } := by
  refine ⟨.set ht hpid (by rw [hs]; exact id), BitVec.le_refl _, fun b v hv => .inr ?_⟩
  by_cases hb : b = a
  · subst hb
    rw [State.set_heap_self] at hv
    cases hv
    exact ⟨t, ht, .same hs hw rfl⟩
  · rw [State.set_heap_of_ne hb] at hv
    exact ⟨v, hv, .same rfl rfl rfl⟩

/-- The current thread changes between `RUNNING` and `READY`. -/
theorem Moves.setRunnable (ht : k.sched.heap a = some t) (hpid : u.pid = t.pid)
    (hr : t.status.isRunnable) (hr' : u.status.isRunnable) :
    Moves k { k with sched := k.sched.set a u } := by
  refine ⟨.set ht hpid fun hz => (Status.not_runnable_of_zombie hz hr).elim, BitVec.le_refl _,
    fun b v hv => .inr ?_⟩
  by_cases hb : b = a
  · subst hb
    rw [State.set_heap_self] at hv
    cases hv
    exact ⟨t, ht, .runs hr hr'⟩
  · rw [State.set_heap_of_ne hb] at hv
    exact ⟨v, hv, .same rfl rfl rfl⟩

theorem Moves.reaped {gone : List Addr} (h : Reaped k.sched s' gone) :
    Moves k { k with sched := s' } := by
  refine ⟨.reaped h, BitVec.le_refl _, fun b v hv => .inr ?_⟩
  obtain ⟨w, n, hw, rfl⟩ := h.old b v hv
  exact ⟨w, hw, .same rfl rfl rfl⟩

theorem Kernel.resume_of_tp (h : s'.tp = k.sched.tp) : k.resume s' = { k with sched := s' } := by
  rw [resume, if_pos h]

theorem Kernel.resume_call_of_ne (h : b ≠ s'.tp) : (k.resume s').call b = k.call b := by
  by_cases ht : s'.tp = k.sched.tp
  · rw [resume_of_tp ht]
  · rw [resume, if_neg ht]
    exact Function.update_of_ne h ..

/-- A write to the struct `mem` of a new thread does not concern the calls of the others. -/
theorem Kernel.start_call_of_ne {op : Op} (h : ∀ mem, op = .threadCreate mem → b ≠ mem)
    (h' : ∀ mem copied, op = .sysFork mem copied → b ≠ mem) : (k.start op).call b = k.call b := by
  cases op with
  | threadCreate mem => exact Function.update_of_ne (h mem rfl) ..
  | sysFork mem copied => exact Function.update_of_ne (h' mem copied rfl) ..
  | _ => rfl

@[simp] theorem Kernel.start_sched (k : Kernel) (op : Op) : (k.start op).sched = k.sched := by
  cases op <;> rfl

@[simp] theorem Kernel.start_now (k : Kernel) (op : Op) : (k.start op).now = k.now := by
  cases op <;> rfl

@[simp] theorem Kernel.start_timers (k : Kernel) (op : Op) : (k.start op).timers = k.timers := by
  cases op <;> rfl

@[simp] theorem Kernel.start_started (k : Kernel) (op : Op) :
    (k.start op).started = k.started := by
  cases op <;> rfl

@[simp] theorem Kernel.start_tasks (k : Kernel) (op : Op) : (k.start op).tasks = k.tasks := by
  cases op <;> rfl

theorem Kernel.start_of_stops {op : Op} (h : op.Stops t) : k.start op = k := by
  rcases h.2 with rfl | ⟨signum, rfl, -⟩ <;> rfl

theorem Kernel.exec_thread {op : Op} (h : k.exec (.thread op) = some k') :
    ∃ s', Sched.exec k.sched op = some s' ∧ (k.start op).resume s' = k' := by
  cases op with
  | threadSleep | wakeup | sysWaitpid => simp [Kernel.exec] at h
  | _ =>
    simp only [Kernel.exec, Option.bind_eq_bind, Option.bind_eq_some_iff] at h
    obtain ⟨s', hs', h⟩ := h
    exact ⟨s', hs', Option.some.inj h⟩

/-- An operation that goes on with the thread `v` at `n`, after the threads have moved to `k₁`. -/
theorem Moves.resume {n : Addr} {v : Thread} (h : Moves k k₁) (hv : k₁.sched.heap n = some v)
    (hrun : v.status.isRunnable) (hs : s' = k₁.sched.switched n v) :
    Moves k ({ k₁ with sched := s }.resume s') := by
  subst hs
  exact h.switched hv hrun rfl (fun b hb => Kernel.resume_call_of_ne hb) rfl rfl

/-! ## Each operation -/

/-- What an operation leaves behind, as far as the blocked threads go. -/
def Sound (k k' : Kernel) : Prop := Moves k k' ∧ Awaits k'

theorem Sound.of_eq (h : Awaits k) (hm : Moves k k') (ht : k'.timers = k.timers)
    (hk : k'.tasks = k.tasks) (hs : k'.started = k.started) : Sound k k' :=
  ⟨hm, h.step_of_eq hm ht hk hs⟩

theorem Sound.refl (h : Awaits k) : Sound k k :=
  ⟨.still rfl rfl (BitVec.le_refl _), h⟩

/-- Every wake-up of the new list is one of the old list, or that of the timer added. -/
theorem insertTimer_perm (n : TimerNode) (l : List TimerNode) :
    (insertTimer n l).Perm (n :: l) := by
  induction l with
  | nil => exact .refl _
  | cons m l ih =>
    rw [insertTimer]
    split
    · exact .refl _
    · exact (ih.cons m).trans (.swap n m l)

theorem pending_insertTimer_perm (n : TimerNode) (ht : k'.timers = insertTimer n k.timers)
    (hk : k'.due = k.due) : k'.pending.Perm (n.callback.wakes.toList ++ k.pending) := by
  have hperm : (k'.timers.map TimerNode.callback ++ k'.due).Perm
      (n.callback :: (k.timers.map TimerNode.callback ++ k.due)) := by
    rw [ht, hk]
    exact ((insertTimer_perm n k.timers).map _).append_right _
  refine (hperm.filterMap _).trans ?_
  rw [List.filterMap_cons]
  cases n.callback.wakes <;> exact .refl _

/-- A timer that wakes no thread. -/
theorem sound_addTimerTicks {callback : Callback} {ticks : BitVec 64} {mem : Bool} (h : Awaits k)
    (hw : callback.wakes = none) : Sound k (addTimerTicks k callback ticks mem) := by
  rw [addTimerTicks]
  split
  · refine ⟨.still rfl rfl (BitVec.le_refl _), ?_⟩
    refine h.step (.still rfl rfl (BitVec.le_refl _)) ?_ (fun n hn a hc => ?_)
      (fun a ha => .inl ha) fun a ha => .inl ha
    · have hperm := @pending_insertTimer_perm k
        { k with timers := insertTimer ⟨k.now + ticks, callback⟩ k.timers }
        ⟨k.now + ticks, callback⟩ rfl rfl
      rw [hw] at hperm
      exact hperm.nodup_iff.2 h.nodup
    · rcases List.mem_cons.1 ((insertTimer_perm _ _).mem_iff.1 hn) with rfl | hn
      · simp only at hc
        rw [hc] at hw
        cases hw
      · exact .inl hn
  · exact .refl h

theorem sound_threadSleep {usec : BitVec 32} {mem : Bool} (hq : Inv k.sched q) (h : Awaits k)
    (ha : KAllowed k (.threadSleep usec mem)) (he : k.exec (.threadSleep usec mem) = some k') :
    Sound k k' := by
  obtain ⟨c, hc⟩ := hq.exists_current
  have hrun := hq.current c hc
  rw [Kernel.exec, Kernel.threadSleep] at he
  cases mem with
  | false =>
    simp only [Bool.false_eq_true, if_false, threadSleep, if_neg hq.tp_ne_zero, hc,
      Option.bind_eq_bind, Option.bind_some, Option.pure_def, State.set_tp, State.set_set] at he
    cases he
    exact .of_eq h (.setRunnable hc rfl hrun rfl) rfl rfl rfl
  | true =>
    set ticks := usec.setWidth 64 * k.timeFreq / 1000000 with hticks
    set s₁ := k.sched.set k.sched.tp { c with status := .waiting } with hs₁
    set k₀ : Kernel := (addTimerTicks k (.threadWakeup k.sched.tp) ticks true).block
      (.sleep (k.now + ticks)) with hk₀
    obtain ⟨n, v, hv, hvrun, hne, hs⟩ := threadSleep_eq hq ha hc
    rw [if_pos rfl, hs] at he
    cases he
    have hm : Moves k { k₀ with sched := s₁ } :=
      .block hc hrun (u := { c with status := .waiting }) rfl rfl (.inl ⟨_, rfl⟩) rfl rfl rfl
    have hm' : Moves k (k₀.resume (s₁.switched n v)) := hm.resume (s := k.sched) hv hvrun rfl
    refine ⟨hm', h.step hm' ?_ (fun m hmem b hb => ?_) (fun b hb => .inl hb) fun b hb => .inl hb⟩
    · have hperm := @pending_insertTimer_perm k k₀
        ⟨k.now + ticks, .threadWakeup k.sched.tp⟩ rfl rfl
      refine hperm.nodup_iff.2 ?_
      exact List.nodup_cons.2 ⟨h.notMem_pending hc hrun, h.nodup⟩
    · rcases List.mem_cons.1 ((insertTimer_perm _ _).mem_iff.1 hmem) with rfl | hmem
      · cases hb
        refine .inr ⟨{ c with status := .waiting }, ?_, rfl, ?_⟩
        · show (s₁.switched n v).heap k.sched.tp = _
          rw [State.switched_heap_of_ne (Ne.symm hne), hs₁, State.set_heap_self]
          rfl
        · rw [Kernel.resume_call_of_ne (Ne.symm hne)]
          exact Function.update_self ..
      · exact .inl hmem

theorem sound_sysWaitpid {pid : ℤ} (hq : Inv k.sched q) (h : Awaits k)
    (ha : KAllowed k (.sysWaitpid pid)) (he : k.exec (.sysWaitpid pid) = some k') :
    Sound k k' := by
  obtain ⟨c, hc⟩ := hq.exists_current
  rw [Kernel.exec, Kernel.sysWaitpid] at he
  rcases sysWaitpid_cases hq ha hc pid with
    ⟨-, hs⟩ | ⟨-, -, hs⟩ | ⟨⟨b, w, hw, hwp, -⟩, n, v, hv, hrun, -, hs⟩
  · rw [hs] at he
    cases he
    exact .refl h
  · rw [hs] at he
    cases he
    exact .refl h
  · rw [hs] at he
    cases he
    have hm : Moves k { k.block (.waitpid pid) with
        sched := k.sched.set k.sched.tp { c with status := .waiting, waitingPid := pid } } :=
      .block hc (hq.current c hc) (u := { c with status := .waiting, waitingPid := pid }) rfl rfl
        (.inr ⟨_, rfl, rfl, hwp ▸ (hq.pid_range b w hw).1⟩) rfl rfl rfl
    exact .of_eq h (hm.resume (s := k.sched) hv hrun rfl) rfl rfl rfl

/-! ## Timer interrupts and tasks -/

theorem insertTask_perm (n : TaskNode) (l : List TaskNode) : (insertTask n l).Perm (n :: l) := by
  induction l with
  | nil => exact .refl _
  | cons m l ih =>
    rw [insertTask]
    split
    · exact .refl _
    · exact (ih.cons m).trans (.swap n m l)

/-- The loop of `handle_timer_interrupt` only moves callbacks from the timers to the tasks, or drops
them, and only those of expired timers. -/
theorem expireLoop_spec {clock : ℕ → BitVec 64} {mem : ℕ → Bool}
    (hclock : ∀ i j, i ≤ j → clock i ≤ clock j) (i : ℕ) (timers : List TimerNode)
    (tasks : List TaskNode) :
    let r := expireLoop clock mem i timers tasks
    (r.1.map TimerNode.callback ++ r.2.map TaskNode.callback).Subperm
        (timers.map TimerNode.callback ++ tasks.map TaskNode.callback) ∧
      r.1 ⊆ timers ∧ ∀ n ∈ r.2, n ∈ tasks ∨
        ∃ m ∈ timers, m.callback = n.callback ∧ m.expireTime ≤ clock (i + timers.length) := by
  induction timers generalizing i tasks with
  | nil => exact ⟨.refl _, List.Subset.refl _, fun n hn => .inl hn⟩
  | cons m timers ih =>
    rw [expireLoop]
    split
    · rename_i hexp
      obtain ⟨hsub, hmem, htask⟩ := ih (i + 1) (addTask tasks m.callback 10 (mem i))
      have hlen : i + 1 + timers.length = i + (m :: timers).length := by simp; omega
      refine ⟨hsub.trans ?_, List.Subset.trans hmem (List.subset_cons_self ..), fun n hn => ?_⟩
      · rw [addTask]
        split
        · refine List.Perm.subperm ?_
          refine (List.Perm.append_left _ ((insertTask_perm _ tasks).map _)).trans ?_
          exact List.perm_middle
        · exact List.Sublist.subperm (List.sublist_cons_self ..)
      · rcases htask n hn with hn | ⟨m', hm', hc, hle⟩
        · rw [addTask] at hn
          split at hn
          · rcases List.mem_cons.1 ((insertTask_perm _ _).mem_iff.1 hn) with rfl | hn
            · exact .inr ⟨m, by simp, rfl, BitVec.le_trans hexp (hclock _ _ (by omega))⟩
            · exact .inl hn
          · exact .inl hn
        · exact .inr ⟨m', List.mem_cons_of_mem _ hm', hc, hlen ▸ hle⟩
    · exact ⟨.refl _, List.Subset.refl _, fun n hn => .inl hn⟩

theorem nodup_of_subperm {l l' : List Callback} (h : l.Subperm l')
    (hnd : (l'.filterMap Callback.wakes).Nodup) : (l.filterMap Callback.wakes).Nodup := by
  obtain ⟨l'', hperm, hsub⟩ := h
  exact (hperm.filterMap _).nodup_iff.1 (hnd.sublist (hsub.filterMap _))

theorem sound_timerInterrupt {clock : ℕ → BitVec 64} {mem : ℕ → Bool} (hq : Inv k.sched q)
    (h : Awaits k) (ha : KAllowed k (.timerInterrupt clock mem))
    (he : k.exec (.timerInterrupt clock mem) = some k') : Sound k k' := by
  obtain ⟨n, v, hv, hvrun, hs⟩ := schedule_eq hq.toQueue
  obtain ⟨hclock, hnow⟩ := ha
  obtain ⟨hsub, htimers, htasks⟩ := @expireLoop_spec _ mem hclock 0 k.timers k.tasks
  rw [Kernel.exec, handleTimerInterrupt, hs] at he
  -- what the timer is set to does not matter here
  obtain ⟨timer, he⟩ : ∃ timer, some (Kernel.resume { k with
      now := clock k.timers.length
      timers := (expireLoop clock mem 0 k.timers k.tasks).1
      sbiTimer := timer
      tasks := (expireLoop clock mem 0 k.timers k.tasks).2 } (k.sched.switched n v)) = some k' :=
    ⟨_, he⟩
  cases he
  have hm : Moves k _ := (@Moves.still k { k with
      now := clock k.timers.length
      timers := (expireLoop clock mem 0 k.timers k.tasks).1
      sbiTimer := timer
      tasks := (expireLoop clock mem 0 k.timers k.tasks).2 } rfl rfl
    (BitVec.le_trans hnow (hclock _ _ (by omega)))).resume (s := k.sched) hv hvrun rfl
  refine ⟨hm, h.step hm ?_ (fun m hmem b _ => .inl (htimers hmem)) (fun b hb => ?_)
    fun b hb => .inl hb⟩
  · refine nodup_of_subperm ?_ h.nodup
    rw [Kernel.due, ← List.append_assoc, Kernel.due, ← List.append_assoc]
    exact (List.subperm_append_right _).2 hsub
  · rcases List.mem_append.1 hb with hb | hb
    · obtain ⟨m, hmem, hmb⟩ := List.mem_map.1 hb
      rcases htasks m hmem with hmem | ⟨m', hm', hc, hle⟩
      · exact .inl (List.mem_append_left _ (hmb ▸ List.mem_map_of_mem hmem))
      · rw [Nat.zero_add] at hle
        exact .inr ⟨m', hm', hc.trans hmb, hle⟩
    · exact .inl (List.mem_append_right _ hb)

/-! ## The steps of a task -/

/-- A task that is being run comes after those in the queue. -/
theorem Kernel.due_cons (r : Started) (l : List Started) (hr : r.stage ≠ .returned) :
    ({ k with started := r :: l } : Kernel).due.Perm
      (r.task.callback :: ({ k with started := l } : Kernel).due) := by
  simp only [Kernel.due, Kernel.running]
  rw [List.filter_cons_of_pos (by simpa using hr), List.map_cons]
  exact List.perm_middle

theorem Kernel.due_cons_returned (r : Started) (l : List Started) (hr : r.stage = .returned) :
    ({ k with started := r :: l } : Kernel).due = ({ k with started := l } : Kernel).due := by
  simp only [Kernel.due, Kernel.running]
  rw [List.filter_cons_of_neg (by simpa using hr)]

theorem Kernel.due_perm {l : List Started} (h : k.started.Perm l) :
    k.due.Perm ({ k with started := l } : Kernel).due :=
  ((h.filter _).map _).append_left _

/-- A step that starts no wake-up anew. -/
theorem sound_of_due (h : Awaits k) (hs : k'.sched = k.sched) (hc : k'.call = k.call)
    (hn : k'.now = k.now) (ht : k'.timers = k.timers) (hdue : k'.due.Subperm k.due)
    (hf : ∀ a ∈ k'.found, a ∈ k.found ∨ ∀ t, k.sched.heap a = some t → t.status = .waiting) :
    Sound k k' := by
  have hm : Moves k k' := .still hs hc (by rw [hn]; exact BitVec.le_refl _)
  refine ⟨hm, h.step hm ?_ (fun n hmem a _ => .inl (ht ▸ hmem))
    (fun a ha => .inl (hdue.subset ha)) fun a ha => hs ▸ hf a ha⟩
  refine nodup_of_subperm ?_ h.nodup
  rw [ht]
  exact (List.subperm_append_left _).2 hdue

theorem sound_startTask (h : Awaits k) (he : startTask k = some k') : Sound k k' := by
  simp only [startTask, Option.bind_eq_bind, Option.bind_eq_some_iff, Option.pure_def] at he
  obtain ⟨t, -, he⟩ := he
  split at he
  · cases he
    exact .refl h
  · rename_i n tasks htasks
    split at he
    · cases he
      exact .refl h
    · cases he
      refine sound_of_due h rfl rfl rfl rfl (List.Perm.subperm ?_) fun a ha => .inl ?_
      · refine (Kernel.due_cons (k := { k with tasks := tasks }) ⟨t.pid, n, .called⟩ _
          (by simp)).trans ?_
        rw [Kernel.due, Kernel.due, htasks]
        exact .refl _
      · obtain ⟨r, hr, hst, hc⟩ := Kernel.mem_found.1 ha
        rcases List.mem_cons.1 hr with rfl | hr
        · cases hst
        · exact Kernel.mem_found.2 ⟨r, hr, hst, hc⟩

/-- A thread found `WAITING` by another task than `r`. -/
theorem Kernel.found_of_erase {r : Started} (ha : ∃ r' ∈ k.started.erase r, r'.stage = .found ∧
    r'.task.callback = .threadWakeup a) : a ∈ k.found := by
  obtain ⟨r', hr', hs, hc⟩ := ha
  exact mem_found.2 ⟨r', List.mem_of_mem_erase hr', hs, hc⟩

/-- The task `r` goes on, and is the only one that does. -/
theorem sound_replace {r : Started} {stage : Stage} (h : Awaits k) (hr : r ∈ k.started)
    (hs : r.stage ≠ .returned)
    (hf : stage = .found → ∀ a, r.task.callback = .threadWakeup a → isWaiting k.sched a) :
    Sound k { k with started := { r with stage := stage } :: k.started.erase r } := by
  have hdue : k.due.Perm (r.task.callback ::
      ({ k with started := k.started.erase r } : Kernel).due) :=
    (Kernel.due_perm (List.perm_cons_erase hr)).trans (Kernel.due_cons r _ hs)
  refine sound_of_due h rfl rfl rfl rfl ?_ fun a ha => ?_
  · by_cases hst : stage = .returned
    · rw [Kernel.due_cons_returned _ _ hst]
      exact (List.Sublist.subperm (List.sublist_cons_self ..)).trans hdue.symm.subperm
    · exact ((Kernel.due_cons { r with stage := stage } _ hst).trans hdue.symm).subperm
  · obtain ⟨r', hr', hst, hc⟩ := Kernel.mem_found.1 ha
    rcases List.mem_cons.1 hr' with rfl | hr'
    · refine .inr fun t ht => ?_
      have hw := hf hst a hc
      rw [isWaiting, ht] at hw
      simpa using hw
    · exact .inl (Kernel.found_of_erase ⟨r', hr', hst, hc⟩)

/-- The store of `thread_wakeup_callback`: the timer of the thread has expired. -/
theorem sound_stored {r : Started} (h : Awaits k) (hr : r ∈ k.started) (hs : r.stage = .found)
    (hc : r.task.callback = .threadWakeup a) :
    Sound k { k with
      sched := setReady k.sched a
      started := { r with stage := .returned } :: k.started.erase r } := by
  set k₁ : Kernel :=
    { k with started := { r with stage := .returned } :: k.started.erase r } with hk₁
  have hdue : k.due.Perm (.threadWakeup a :: k₁.due) := by
    rw [← hc, hk₁, Kernel.due_cons_returned _ _ rfl]
    exact (Kernel.due_perm (List.perm_cons_erase hr)).trans (Kernel.due_cons r _ (by simp [hs]))
  have hmem : .threadWakeup a ∈ k.due := hdue.mem_iff.2 List.mem_cons_self
  have hfound : a ∈ k.found := Kernel.mem_found.2 ⟨r, hr, hs, hc⟩
  -- the wake-up was pending once
  have hnd : (a :: k₁.pending).Nodup := by
    have hperm : (k.timers.map TimerNode.callback ++ k.due).Perm
        (.threadWakeup a :: (k.timers.map TimerNode.callback ++ k₁.due)) :=
      (hdue.append_left _).trans List.perm_middle
    exact (hperm.filterMap Callback.wakes).nodup_iff.1 h.nodup
  obtain ⟨hnp, hnd⟩ := List.nodup_cons.1 hnd
  have hm : Moves k { k₁ with sched := setReady k.sched a } := by
    refine ⟨⟨by simp, fun b v hv => .inr ?_⟩, BitVec.le_refl _, fun b v hv => .inr ?_⟩
    · obtain ⟨w, hw, rfl | ⟨rfl, rfl⟩⟩ := setReady_some hv
      · exact ⟨v, hw, rfl, id⟩
      · exact ⟨w, hw, rfl, fun hz => by simp [h.found b w hfound hw, Status.isZombie] at hz⟩
    · obtain ⟨w, hw, rfl | ⟨rfl, rfl⟩⟩ := setReady_some hv
      · exact ⟨v, hw, .same rfl rfl rfl⟩
      · refine ⟨w, hw, ?_⟩
        have hwait := h.found b w hfound hw
        rcases h.task b w hmem hw with hz | ⟨-, e, hcall, hle⟩
        · simp [hwait, Status.isZombie] at hz
        · exact .woken _ hwait rfl hcall hle fun _ _ => hnp
  refine ⟨hm, h.step hm hnd (fun m hmem b _ => .inl hmem)
    (fun b hb => .inl (hdue.mem_iff.2 (List.mem_cons_of_mem _ hb))) fun b hb => .inl ?_⟩
  obtain ⟨r', hr', hst, hc'⟩ := Kernel.mem_found.1 hb
  rcases List.mem_cons.1 hr' with rfl | hr'
  · cases hst
  · exact Kernel.found_of_erase ⟨r', hr', hst, hc'⟩

theorem sound_stepTask {mem : Bool} (h : Awaits k) (he : stepTask k mem = some k') :
    Sound k k' := by
  cases callbackStep_of_stepTask he with
  | idle => exact .refl h
  | tested hr hs hc hw =>
    refine sound_replace h hr (by simp [hs]) fun _ a ha => ?_
    cases hc.symm.trans ha
    exact hw
  | passed hr hs hc hw => exact sound_replace h hr (by simp [hs]) nofun
  | @ran r hr hs hc =>
    have h₁ := (@sound_replace k r .returned h hr (by simp [hs]) nofun).2
    have hrun := runCallback_withStarted k ({ r with stage := .returned } :: k.started.erase r)
      r.task.callback mem
    rw [hrun]
    cases hcb : r.task.callback with
    | threadWakeup a =>
      rw [hcb] at hc
      cases hc
    | timeout a => exact ⟨.still rfl rfl (BitVec.le_refl _), h₁⟩
    | _ =>
      refine ⟨.still (by simp [runCallback]) ?_ ?_, (sound_addTimerTicks h₁ rfl).2⟩
      all_goals rw [runCallback, addTimerTicks]; split
      all_goals first | rfl | exact BitVec.le_refl _
  | stored hr hs hc => exact sound_stored h hr hs hc
  | @done r hr hs =>
    refine sound_of_due h rfl rfl rfl rfl ?_ fun a ha =>
      .inl (Kernel.found_of_erase (Kernel.mem_found.1 ha))
    refine List.Subperm.trans ?_ (Kernel.due_perm (List.perm_cons_erase hr)).symm.subperm
    by_cases hst : r.stage = .returned
    · rw [Kernel.due_cons_returned _ _ hst]
    · refine List.Subperm.trans ?_ (Kernel.due_cons r _ hst).symm.subperm
      exact List.Sublist.subperm (List.sublist_cons_self ..)

/-! ## Runs -/

/-- The operations of the thread system that do not involve the calls of blocked threads. -/
theorem sound_thread {op : Op} (hq : Inv k.sched q) (h : Awaits k) (ha : Allowed k.sched op)
    (hb : Benign k (.op (.thread op))) (he : k.exec (.thread op) = some k') : Sound k k' := by
  obtain ⟨s', hs', rfl⟩ := Kernel.exec_thread he
  have heff := effect_of_exec hq ha hs'
  have hstops : ∀ a t, k.sched.heap a = some t → op.Stops t → ParentAwake k t ∧ a ∉ k.found := by
    intro a t ht hop
    rcases hop.2 with rfl | ⟨signum, rfl, -⟩ <;> exact hb a t ht hop
  -- no struct lives at the address of a new one
  have hcall : ∀ b v, k.sched.heap b = some v → (k.start op).call b = k.call b := by
    intro b v hv
    refine Kernel.start_call_of_ne ?_ ?_
    · rintro mem rfl rfl
      rw [show k.sched.heap b = none from ha] at hv
      cases hv
    · rintro mem copied rfl rfl
      rw [show k.sched.heap b = none from ha] at hv
      cases hv
  have hsame : ∀ {s₁ : State}, s₁.tp = k.sched.tp → Evolves k.sched s₁ →
      (∀ b v, s₁.heap b = some v → ∃ w, k.sched.heap b = some w ∧ v.status = w.status ∧
        v.waitingPid = w.waitingPid) → Sound k ((k.start op).resume s₁) := by
    intro s₁ htp hev hthread
    rw [Kernel.resume_of_tp (by rw [Kernel.start_sched, htp])]
    refine .of_eq h ⟨hev, by simp, fun b v hv => .inr ?_⟩ (by simp) (by simp) (by simp)
    obtain ⟨w, hw, hst, hwp⟩ := hthread b v hv
    exact ⟨w, hw, .same hst hwp (hcall b w hw)⟩
  have hev := heff.evolves hq
  cases heff with
  | stay => exact hsame rfl hev fun b v hv => ⟨v, hv, rfl, rfl⟩
  | pidUsed mem hn => exact hsame rfl hev fun b v hv => ⟨v, hv, rfl, rfl⟩
  | created hmem h₀ hi hn =>
    rw [Kernel.resume_of_tp (by simp)]
    exact .of_eq h (.enqueued hmem hi hb rfl rfl) rfl rfl rfl
  | forked hmem h₀ hi hn hc =>
    rw [Kernel.resume_of_tp (by simp)]
    exact .of_eq h (.enqueued hmem hi (hb rfl) rfl rfl) rfl rfl rfl
  | stopped ht hop hrq htp =>
    rw [Kernel.resume_of_tp (by simp), Kernel.start_of_stops hop]
    obtain ⟨hp, hf⟩ := hstops _ _ ht hop
    exact .of_eq h (.endThread h hq.toQueue ht rfl hp hf) rfl rfl rfl
  | @ended _ t x n v ht hop hx hidle hv hrun =>
    have hstart : k.start op = k := by
      rcases hop with rfl | hop
      · rfl
      · exact Kernel.start_of_stops hop
    have hp : ParentAwake k t ∧ k.sched.tp ∉ k.found := by
      rcases hop with rfl | hop
      · refine ⟨hb _ ht, fun hf => ?_⟩
        exact h.notMem_pending ht (hq.current t ht) (Kernel.mem_pending_of_found hf)
      · exact hstops _ _ ht hop
    have hm := Moves.endThread h hq.toQueue ht hx hp.1 hp.2
    rw [hstart]
    exact .of_eq h (hm.resume (s := k.sched) hv hrun rfl) rfl rfl rfl
  | signalled ht hh hz =>
    rw [Kernel.resume_of_tp (by simp)]
    exact .of_eq h (.setSame ht rfl rfl rfl) rfl rfl rfl
  | registered ht =>
    rw [Kernel.resume_of_tp (by simp)]
    exact .of_eq h (.setSame ht rfl rfl rfl) rfl rfl rfl
  | scheduled hv hrun =>
    have hm : Moves k k := .still rfl rfl (BitVec.le_refl _)
    exact .of_eq h (hm.resume (s := k.sched) hv hrun rfl) rfl rfl rfl
  | reaped hs hinv =>
    rw [Kernel.resume_of_tp (by simpa using hs.tp)]
    exact .of_eq h (.reaped hs) rfl rfl rfl
  | slept | sleepFailed | woke | waited => simp [Kernel.exec] at he

/-- **One operation.** A benign step only moves the blocked threads as it may. -/
theorem perform_moves {op : SysOp} (hq : Inv k.sched q) (h : Awaits k) (ha : SysAllowed k op)
    (hb : Benign k op) (he : k.perform op = some k') : Sound k k' := by
  cases op with
  | op op =>
    cases op with
    | thread op => exact sound_thread hq h ha hb he
    | threadSleep usec mem => exact sound_threadSleep hq h ha he
    | sysWaitpid pid => exact sound_sysWaitpid hq h ha he
    | addTimeout arg ticks mem =>
      cases he
      exact sound_addTimerTicks h rfl
    | timerInterrupt clock mem => exact sound_timerInterrupt hq h ha he
    | runTask mem => cases he
    | tick now =>
      cases he
      exact .of_eq h (.still rfl rfl ha) rfl rfl rfl
  | startTask => exact sound_startTask h he
  | stepTask mem => exact sound_stepTask h he

theorem sched_of_bind {x : Option State} {f : State → Kernel} (hf : ∀ s, (f s).sched = s)
    (he : (x.bind fun s => some (f s)) = some k') : x = some k'.sched := by
  obtain ⟨s, rfl, hs⟩ := Option.bind_eq_some_iff.1 he
  cases hs
  rw [hf]

theorem sched_of_bind_fst {β : Type} {x : Option (State × β)} {f : State × β → Kernel}
    (hf : ∀ r, (f r).sched = r.1) (he : (x.bind fun r => some (f r)) = some k') :
    x.map Prod.fst = some k'.sched := by
  obtain ⟨r, rfl, hr⟩ := Option.bind_eq_some_iff.1 he
  cases hr
  rw [hf, Option.map_some]

/-- The operation of the thread system that an operation of the system comes down to. -/
def KOp.Runs : KOp → Op → Prop
  | .thread op, op' => op' = op
  | .threadSleep _ mem, op' => op' = .threadSleep mem
  | .sysWaitpid pid, op' => op' = .sysWaitpid pid
  | .timerInterrupt .., op' => op' = .schedule
  | .runTask _, op' => ∃ a, op' = .wakeup a
  | _, _ => False

theorem KOp.Runs.eq_thread {op : KOp} {op' : Op} (h : op.Runs op') (hs : op' ≠ .schedule)
    (hsleep : ∀ mem, op' ≠ .threadSleep mem) (hwait : ∀ pid, op' ≠ .sysWaitpid pid)
    (hwake : ∀ a, op' ≠ .wakeup a) : op = .thread op' := by
  cases op with
  | thread op => rw [show op' = op from h]
  | threadSleep usec mem => exact (hsleep mem h).elim
  | sysWaitpid pid => exact (hwait pid h).elim
  | timerInterrupt clock mem => exact (hs h).elim
  | runTask mem => exact h.elim fun a ha => (hwake a ha).elim
  | addTimeout | tick => exact h.elim

/-- An operation of the system is one of the thread system, or does not touch it. -/
theorem Kernel.exec_sched {op : KOp} (ha : KAllowed k op) (he : k.exec op = some k') :
    k'.sched = k.sched ∨ ∃ op', Allowed k.sched op' ∧ Sched.exec k.sched op' = some k'.sched ∧
      op.Runs op' := by
  cases op with
  | addTimeout arg ticks mem =>
    cases he
    exact .inl (by simp)
  | tick now =>
    cases he
    exact .inl rfl
  | runTask mem =>
    simp only [Kernel.exec, Sched.runTask, Option.bind_eq_bind, Option.bind_eq_some_iff] at he
    obtain ⟨c, -, he⟩ := he
    split at he
    · cases he
      exact .inl rfl
    · split at he
      · cases he
        exact .inl rfl
      · cases he
        rename_i n tasks _ _
        cases hcb : n.callback with
        | threadWakeup a => exact .inr ⟨.wakeup a, trivial, rfl, a, rfl⟩
        | schedulerTimer => exact .inl (by simp [runCallback])
        | periodicTimer => exact .inl (by simp [runCallback])
        | timeout arg => exact .inl rfl
  | threadSleep usec mem =>
    refine .inr ⟨.threadSleep mem, ha, ?_, rfl⟩
    cases mem <;> exact sched_of_bind_fst (fun _ => rfl) he
  | sysWaitpid pid =>
    refine .inr ⟨.sysWaitpid pid, ha, ?_, rfl⟩
    simp only [Kernel.exec, Kernel.sysWaitpid, Option.bind_eq_bind, Option.bind_eq_some_iff] at he
    obtain ⟨r, hr, he⟩ := he
    rw [Sched.exec, hr]
    split at he <;> cases he <;> rfl
  | timerInterrupt clock mem =>
    exact .inr ⟨.schedule, trivial, sched_of_bind (fun _ => rfl) he, rfl⟩
  | thread op =>
    obtain ⟨s', hs', rfl⟩ := Kernel.exec_thread he
    exact .inr ⟨op, ha, hs', rfl⟩

/-- A step of the system is a step of the thread system, or does not touch it. -/
theorem KStep.sched (h : KStep k k') : k'.sched = k.sched ∨ Step k.sched k'.sched := by
  obtain ⟨op, ha, he⟩ := h
  exact (Kernel.exec_sched ha he).imp_right fun ⟨op', ha', he', _⟩ => ⟨op', ha', he'⟩

theorem startTask_sched (he : startTask k = some k') : k'.sched = k.sched := by
  simp only [startTask, Option.bind_eq_bind, Option.bind_eq_some_iff, Option.pure_def] at he
  obtain ⟨t, -, he⟩ := he
  split at he
  · cases he
    rfl
  · split at he <;> cases he <;> rfl

theorem stepTask_sched {mem : Bool} (he : stepTask k mem = some k') :
    k'.sched = k.sched ∨ ∃ a, k'.sched = setReady k.sched a := by
  cases callbackStep_of_stepTask he with
  | @ran r _ _ hc =>
    refine .inl ?_
    cases hcb : r.task.callback with
    | threadWakeup a =>
      rw [hcb] at hc
      cases hc
    | _ => simp [runCallback]
  | stored => exact .inr ⟨_, rfl⟩
  | _ => exact .inl rfl

/-- A step of the system keeps the run queue. -/
theorem SysStep.inv (hq : Inv k.sched q) (h : SysStep k k') : ∃ q', Inv k'.sched q' := by
  obtain ⟨op, ha, he⟩ := h
  cases op with
  | op op =>
    have he' : k.exec op = some k' := by
      cases op with
      | runTask => cases he
      | _ => exact he
    rcases KStep.sched ⟨op, ha, he'⟩ with hs | hs
    · exact ⟨q, hs ▸ hq⟩
    · exact (hs.inv hq).1
  | startTask => exact ⟨q, (startTask_sched he).symm ▸ hq⟩
  | stepTask mem =>
    rcases stepTask_sched he with hs | ⟨a, hs⟩
    · exact ⟨q, hs ▸ hq⟩
    · exact ⟨q, hs ▸ hq.setReady a⟩

/-- The invariant of the benign runs. -/
structure KInv (k : Kernel) : Prop where
  queue : ∃ q, Inv k.sched q
  awaits : Awaits k

theorem KInv.step (h : KInv k) (hs : BenignStep k k') : KInv k' ∧ Moves k k' := by
  obtain ⟨op, ha, hb, he⟩ := hs
  obtain ⟨q, hq⟩ := h.queue
  obtain ⟨hm, hw⟩ := perform_moves hq h.awaits ha hb he
  exact ⟨⟨SysStep.inv hq ⟨op, ha, he⟩, hw⟩, hm⟩

theorem KInv.run (h : KInv k) (hs : Relation.ReflTransGen BenignStep k k') : KInv k' := by
  induction hs with
  | refl => exact h
  | tail _ hs ih => exact (ih.step hs).1

theorem Booted.due (h : Booted k) (a : Addr) : .threadWakeup a ∉ k.due := by
  intro ha
  rw [Kernel.due, Kernel.running, h.started, List.filter_nil, List.map_nil, List.append_nil] at ha
  obtain ⟨n, hn, hc⟩ := List.mem_map.1 ha
  exact h.tasks n hn a hc

theorem Booted.pending (h : Booted k) : k.pending = [] := by
  refine List.eq_nil_iff_forall_not_mem.2 fun a ha => ?_
  rcases Kernel.mem_pending.1 ha with ⟨n, hn, hc⟩ | ha
  · exact h.timers n hn a hc
  · exact h.due a ha

theorem Booted.inv (h : Booted k) : KInv k := by
  obtain ⟨mem, hmem⟩ := h.init
  have h₀ := ne_zero_of_initThreadSystem hmem
  have hs : k.sched = .booted mem := Option.some.inj (hmem.symm.trans (initThreadSystem_eq h₀))
  have hinv := inv_booted h₀
  rw [← hs] at hinv
  refine ⟨⟨_, hinv⟩, by rw [h.pending]; exact List.nodup_nil, fun n hn a _ hc => ?_,
    fun a _ ha => (h.due a ha).elim, fun a _ ha => ?_, fun a t ht hw => ?_⟩
  · exact (h.timers n hn a hc).elim
  · rw [Kernel.found, h.started] at ha
    cases ha
  · rw [hs] at ht
    rw [(State.booted_some ht).2] at hw
    cases hw

/-- The thread with this pid has ended, or is still blocked in the call `c`, or the event of `c` has
occurred. -/
def Tracks (k : Kernel) (a : Addr) (pid : ℤ) (c : Call) : Prop :=
  pid < k.sched.nrThreads ∧ (Occurred k c ∨ ∀ b t, k.sched.heap b = some t → t.pid = pid →
    t.status.isZombie ∨ (b = a ∧ t.status = .waiting ∧ k.call a = some c))

theorem Moves.occurred {c : Call} (h : Moves k k') (hc : Occurred k c) : Occurred k' c := by
  cases c with
  | sleep e => exact BitVec.le_trans hc h.now
  | waitpid p => exact h.evolves.ended hc

theorem Tracks.step {pid : ℤ} {c : Call} (h : Tracks k a pid c) (hm : Moves k k') :
    Tracks k' a pid c := by
  obtain ⟨hpid, h⟩ := h
  refine ⟨hpid.trans_le hm.evolves.nrThreads, ?_⟩
  by_cases hocc : Occurred k' c
  · exact .inl hocc
  refine .inr fun b t' ht' hp => ?_
  rcases h with ho | h
  · exact (hocc (hm.occurred ho)).elim
  -- the thread is not a new one, since its pid was given out before
  have hnew := hm.evolves.thread b t' ht'
  rcases hm.thread b t' ht' with ⟨hnone, -, -⟩ | ⟨t, ht, hmove⟩
  · rcases hnew with hn | ⟨t, ht, -⟩
    · omega
    · rw [hnone] at ht
      cases ht
  · have hp' : t.pid = pid ∧ (t.status.isZombie → t'.status.isZombie) := by
      rcases hnew with hn | ⟨v, hv, hpv, hz⟩
      · omega
      · cases ht.symm.trans hv
        exact ⟨by omega, hz⟩
    rcases h b t ht hp'.1 with hz | ⟨rfl, hw, hcall⟩
    · exact .inl (hp'.2 hz)
    · cases hmove with
      | ended hz _ => exact .inl hz
      | waits _ hw' _ hc => exact .inr ⟨rfl, hw', hc.trans hcall⟩
      | runs hr _ => simp [hw, Status.isRunnable] at hr
      | blocks hr _ _ => simp [hw, Status.isRunnable] at hr
      | woken c' _ _ hc' ho _ =>
        cases hcall.symm.trans hc'
        exact (hocc ho).elim

theorem Tracks.run {pid : ℤ} {c : Call} (hi : KInv k) (hs : Relation.ReflTransGen BenignStep k k')
    (h : Tracks k a pid c) : Tracks k' a pid c := by
  induction hs with
  | refl => exact h
  | tail hs hs' ih => exact ih.step ((hi.run hs).step hs').2

/-! ## Threads are woken by the event they wait for -/

/-- Every `WAITING` thread of `k` is blocked in a call; whenever it can run again in a later state,
the event of that call has occurred; and `sys_waitpid` returns at once only `-1` or the pid of a
process that has ended. -/
structure Justified (step : Kernel → Kernel → Prop) (k : Kernel) : Prop where
  blocked : ∀ a t, k.sched.heap a = some t → t.status = .waiting → ∃ c, k.call a = some c
  woken : ∀ k', Relation.ReflTransGen step k k' → ∀ a t c, k.sched.heap a = some t →
    t.status = .waiting → k.call a = some c → ∀ b t', k'.sched.heap b = some t' → t'.pid = t.pid →
    t'.status.isRunnable → Occurred k' c
  returns : ∀ pid s' v, k.sched.tp ≠ k.sched.runQueue →
    sysWaitpid k.sched pid = some (s', some v) → v = -1 ∨ (v = pid ∧ Ended s' pid)

/-- **Along the benign runs blocked threads are woken by the event they wait for.** -/
theorem benign_justified {k₀ k : Kernel} (hb : Booted k₀)
    (hr : Relation.ReflTransGen BenignStep k₀ k) : Justified BenignStep k := by
  have hi : KInv k := hb.inv.run hr
  obtain ⟨q, hq⟩ := hi.queue
  refine ⟨fun a t ht hw => ?_, ?_, fun pid s' v hidle hs => ?_⟩
  · rcases hi.awaits.waiting a t ht hw with ⟨e, he⟩ | ⟨p, hp, -⟩
    · exact ⟨_, he⟩
    · exact ⟨_, hp⟩
  · intro k' hs a t c ht hw hc b t' ht' hpid hrun
    have htrack : Tracks k a t.pid c := by
      refine ⟨(hq.pid_range a t ht).2, .inr fun d u hu hp => .inr ?_⟩
      cases hq.pid_inj d a u t hu ht hp
      cases ht.symm.trans hu
      exact ⟨rfl, hw, hc⟩
    rcases (htrack.run hi hs).2 with ho | h
    · exact ho
    · rcases h b t' ht' hpid with hz | ⟨-, hw', -⟩
      · exact (Status.not_runnable_of_zombie hz hrun).elim
      · simp [hw', Status.isRunnable] at hrun
  · obtain ⟨c, hc⟩ := hq.exists_current
    rcases sysWaitpid_cases hq hidle hc pid with
      ⟨-, hs'⟩ | ⟨hend, -, hs'⟩ | ⟨-, n, u, -, -, -, hs'⟩
    · cases hs.symm.trans hs'
      exact .inl rfl
    · cases hs.symm.trans hs'
      exact .inr ⟨rfl, hend⟩
    · cases hs.symm.trans hs'

/-- A system right after boot, at time `0`, with a clock of 10 MHz. -/
def Kernel.boot : Kernel where
  sched := .booted 0x1000
  now := 0
  timeFreq := 10000000
  timers := []
  sbiTimer := -1
  tasks := []
  started := []
  call := fun _ => none

theorem booted_boot : Booted .boot :=
  ⟨⟨0x1000, initThreadSystem_eq (by decide)⟩, by simp [Kernel.boot], by simp [Kernel.boot], rfl,
    fun _ => rfl⟩

/-- A process (at `0x2000`) forks a child (at `0x3000`) and sleeps for a second; the child waits
until the sleep is over. -/
theorem benign_justified_usleep : ∃ k, Relation.ReflTransGen BenignStep .boot k ∧
    k.call 0x2000 = some (.sleep 10000000) ∧ Justified BenignStep k := by
  have hrun : Relation.ReflTransGen BenignStep .boot _ := .tail (.tail (.tail (.tail .refl
    ⟨.op (.thread (.threadCreate 0x2000)), rfl, by unfold Benign; decide +kernel, rfl⟩)
    ⟨.op (.thread .schedule), trivial, trivial, rfl⟩)
    ⟨.op (.thread (.sysFork 0x3000 true)), rfl, by unfold Benign; decide +kernel, rfl⟩)
    ⟨.op (.threadSleep 1000000 true), by unfold SysAllowed KAllowed; decide +kernel, trivial, rfl⟩
  exact ⟨_, hrun, rfl, benign_justified booted_boot hrun⟩

/-- A process forks a child and sleeps for a second. The child exits at once, and the process is
`READY` again at time `0`, long before its timer expires. -/
theorem not_justified_usleep : ∃ k, Relation.ReflTransGen SysStep .boot k ∧
    ¬ Justified SysStep k := by
  have hrun : Relation.ReflTransGen SysStep .boot _ := .tail (.tail (.tail (.tail .refl
    ⟨.op (.thread (.threadCreate 0x2000)), rfl, rfl⟩) ⟨.op (.thread .schedule), trivial, rfl⟩)
    ⟨.op (.thread (.sysFork 0x3000 true)), rfl, rfl⟩)
    ⟨.op (.threadSleep 1000000 true), by unfold SysAllowed KAllowed; decide +kernel, rfl⟩
  refine ⟨_, hrun, fun h => ?_⟩
  have hlater := h.woken _ (.tail (.tail .refl ⟨.op (.thread .schedule), trivial, rfl⟩)
    ⟨.op (.thread .threadExit), by unfold SysAllowed KAllowed Allowed; decide +kernel, rfl⟩)
    0x2000 _ (.sleep 10000000) rfl rfl rfl 0x2000 _ rfl rfl rfl
  exact absurd hlater (by unfold Occurred; decide +kernel)

end BareMetalOS.Sched
