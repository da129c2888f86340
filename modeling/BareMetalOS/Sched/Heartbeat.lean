import BareMetalOS.Sched.TimerOrder

/-!
# The timer never stops

The kernel is preempted by timer interrupts, and the hardware timer is set for one interrupt at a
time. `timer_init` starts a timer whose callback, `scheduler_timer_callback`, adds it again. So the
next interrupt depends on a chain: the timer in the list, the deadline given to `sbi_set_timer`, the
callback in the task queue, `run_tasks`, and a new timer. `Beats` is the invariant of this chain.

The main result is `heartbeat`: along every run in which the nodes of timers and tasks can be
allocated, the chain is there exactly once. Either an interrupt is due within 1/32 of a second, or
the callback is in the task queue, and then the next `run_tasks` brings the deadline back, or a
thread is running the callback, and then its next step brings it back (a thread that is ended there
never takes it).
-/

namespace BareMetalOS.Sched

open Memory (Addr)

variable {k k' : Kernel} {f : BitVec 64} {c : Callback}

/-- `timer_init`, where `clock` are the times it reads and `f` is the frequency found in the device
tree. -/
def timerInit (k : Kernel) (f : BitVec 64) (clock : ℕ → BitVec 64) (mem : ℕ → Bool) : Kernel :=
  let k := { k with timers := [], timeFreq := f, sbiTimer := -1 }
  let k := addTimerTicks { k with now := clock 0 } .periodicTimer (2 * f) (mem 0)
  addTimerTicks { k with now := clock 1 } .schedulerTimer (f / 32) (mem 1)

/-- The callbacks in the timer list and in the task queue and those being run. -/
def Kernel.callbacks (k : Kernel) : List Callback := k.timers.map TimerNode.callback ++ k.due

/-- The nodes of the expired timers and of the timers that are added again can be allocated. -/
def Fed : SysOp → Prop
  | .op (.timerInterrupt _ mem) => ∀ i, mem i = true
  | .stepTask mem => mem = true
  | _ => True

/-- A step of the system that meets the condition. -/
def FedStep (k k' : Kernel) : Prop := ∃ op, SysAllowed k op ∧ Fed op ∧ k.perform op = some k'

/-- The next interrupt is at most 1/32 of a second ahead. -/
def InTime (f : BitVec 64) (k : Kernel) : Prop :=
  k.sbiTimer.toNat ≤ k.now.toNat + (f / 32).toNat

/-! ## The clockwork -/

/-- The timer list is sorted, the hardware timer is set for its head, and the timer of the scheduler
is due within 1/32 of a second. -/
structure Armed (f : BitVec 64) (k : Kernel) : Prop where
  freq : k.timeFreq = f
  sorted : k.timers.Pairwise fun m n => m.expireTime.toNat ≤ n.expireTime.toNat
  deadline : k.sbiTimer = deadline k.timers
  soon : ∀ n ∈ k.timers, n.callback = .schedulerTimer →
    n.expireTime.toNat ≤ k.now.toNat + (f / 32).toNat
  priority : ∀ n ∈ k.tasks, n.priority = 10
  started : ∀ r ∈ k.started, r.task.priority = 10 ∧
    (r.stage = .found → r.task.callback.wakes ≠ none)

theorem insertTimer_sorted (n : TimerNode) {l : List TimerNode}
    (h : l.Pairwise fun a b => a.expireTime.toNat ≤ b.expireTime.toNat) :
    (insertTimer n l).Pairwise fun a b => a.expireTime.toNat ≤ b.expireTime.toNat := by
  induction l with
  | nil => exact List.pairwise_singleton ..
  | cons m l ih =>
    obtain ⟨hm, hl⟩ := List.pairwise_cons.1 h
    rw [insertTimer]
    split
    · rename_i hlt
      have hlt := BitVec.lt_def.1 hlt
      refine List.pairwise_cons.2 ⟨fun a ha => ?_, h⟩
      rcases List.mem_cons.1 ha with rfl | ha
      · exact hlt.le
      · exact hlt.le.trans (hm a ha)
    · rename_i hle
      have hle := BitVec.le_def.1 (BitVec.not_lt.1 hle)
      refine List.pairwise_cons.2 ⟨fun a ha => ?_, ih hl⟩
      rcases List.mem_cons.1 ((insertTimer_perm n l).mem_iff.1 ha) with rfl | ha
      · exact hle
      · exact hm a ha

namespace Armed

theorem congr (h : Armed f k) (hfreq : k'.timeFreq = k.timeFreq) (ht : k'.timers = k.timers)
    (hsbi : k'.sbiTimer = k.sbiTimer) (hnow : k.now ≤ k'.now) (hk : k'.tasks = k.tasks)
    (hs : k'.started = k.started) : Armed f k' := by
  refine ⟨hfreq.trans h.freq, ht ▸ h.sorted, by rw [hsbi, ht, h.deadline], fun n hn hc => ?_,
    hk ▸ h.priority, hs ▸ h.started⟩
  have := h.soon n (ht ▸ hn) hc
  have := BitVec.le_def.1 hnow
  omega

/-- `add_timer_ticks`. -/
theorem add (h : Armed f k) {ticks : BitVec 64} (hc : c = .schedulerTimer → ticks = f / 32)
    (mem : Bool) : Armed f (addTimerTicks k c ticks mem) := by
  cases mem with
  | false => exact h
  | true =>
    refine ⟨h.freq, insertTimer_sorted _ h.sorted, ?_, fun n hn hn' => ?_, h.priority, h.started⟩
    · exact addTimerTicks_sbiTimer k.now c ticks (.inr h.deadline)
    · rcases List.mem_cons.1 ((insertTimer_perm _ _).mem_iff.1 hn) with rfl | hn
      · obtain rfl := hc hn'
        exact (BitVec.toNat_add _ _).trans_le (Nat.mod_le _ _)
      · exact h.soon n hn hn'

/-- The task `r` goes on and has come to `stage`. -/
theorem goOn {r : Started} (h : Armed f k) (hr : r ∈ k.started) {stage : Stage}
    (hs : stage = .found → r.task.callback.wakes ≠ none) :
    Armed f { k with started := { r with stage := stage } :: k.started.erase r } := by
  refine ⟨h.freq, h.sorted, h.deadline, h.soon, h.priority, fun r' hr' => ?_⟩
  rcases List.mem_cons.1 hr' with rfl | hr'
  · exact ⟨(h.started r hr).1, hs⟩
  · exact h.started r' (List.mem_of_mem_erase hr')

end Armed

theorem callbacks_add (k : Kernel) (c : Callback) (ticks : BitVec 64) :
    (addTimerTicks k c ticks true).callbacks.Perm (c :: k.callbacks) :=
  ((insertTimer_perm _ _).map TimerNode.callback).append_right _

theorem callbacks_congr (ht : k'.timers = k.timers) (hk : k'.tasks = k.tasks)
    (hs : k'.started = k.started) : k'.callbacks = k.callbacks := by
  rw [Kernel.callbacks, Kernel.callbacks, ht, Kernel.due_congr hk hs]

/-- A task whose callback is being run, and the others. -/
theorem callbacks_erase {r : Started} (hr : r ∈ k.started) (hs : r.stage ≠ .returned) :
    k.callbacks.Perm
      (r.task.callback :: ({ k with started := k.started.erase r } : Kernel).callbacks) :=
  (((Kernel.due_perm (List.perm_cons_erase hr)).trans (Kernel.due_cons r _ hs)).append_left _).trans
    List.perm_middle

theorem callbacks_cons {r : Started} {l : List Started} (hs : r.stage ≠ .returned) :
    ({ k with started := r :: l } : Kernel).callbacks.Perm
      (r.task.callback :: ({ k with started := l } : Kernel).callbacks) :=
  ((Kernel.due_cons r l hs).append_left _).trans List.perm_middle

theorem callbacks_cons_returned {r : Started} {l : List Started} (hs : r.stage = .returned) :
    ({ k with started := r :: l } : Kernel).callbacks =
      ({ k with started := l } : Kernel).callbacks := by
  rw [Kernel.callbacks, Kernel.callbacks, Kernel.due_cons_returned r l hs]

theorem dispatch_perm (moved : List (TimerNode × BitVec 64)) (tasks : List TaskNode) :
    ((dispatch moved tasks).map TaskNode.callback).Perm
      (moved.map (fun m => m.1.callback) ++ tasks.map TaskNode.callback) := by
  induction moved generalizing tasks with
  | nil => exact .refl _
  | cons m moved ih =>
    refine (ih _).trans ?_
    refine (List.Perm.append_left _ ((insertTask_perm _ tasks).map _)).trans ?_
    exact List.perm_middle

theorem mem_dispatch {moved : List (TimerNode × BitVec 64)} {tasks : List TaskNode} {n : TaskNode}
    (h : n ∈ dispatch moved tasks) : n ∈ tasks ∨ n.priority = 10 := by
  induction moved generalizing tasks with
  | nil => exact .inl h
  | cons m moved ih =>
    rcases ih h with h | h
    · rcases List.mem_cons.1 ((insertTask_perm _ _).mem_iff.1 h) with rfl | h
      · exact .inr rfl
      · exact .inl h
    · exact .inr h

/-- The interrupt moves callbacks from the timers to the tasks, and sets the next deadline. -/
theorem Armed.interrupt {clock : ℕ → BitVec 64} (h : Armed f k)
    (ha : KAllowed k (.timerInterrupt clock fun _ => true))
    (he : handleTimerInterrupt k clock (fun _ => true) = some k') :
    Armed f k' ∧ k'.callbacks.Perm k.callbacks := by
  obtain ⟨hsplit, htasks, hnow, hsbi, -⟩ := handleTimerInterrupt_some he
  have hfreq : k'.timeFreq = k.timeFreq := by
    simp only [handleTimerInterrupt, Option.bind_eq_bind, Option.bind_eq_some_iff] at he
    obtain ⟨s, -, he⟩ := he
    cases he
    rfl
  have hle : k.now ≤ k'.now := by
    rw [hnow]
    exact BitVec.le_trans ha.2 (ha.1 _ _ (Nat.zero_le _))
  have hsub : ∀ n ∈ k'.timers, n ∈ k.timers := fun n hn => by
    rw [hsplit]
    exact List.mem_append_right _ hn
  have hstarted : k'.started = k.started := by
    simp only [handleTimerInterrupt, Option.bind_eq_bind, Option.bind_eq_some_iff] at he
    obtain ⟨s, -, he⟩ := he
    cases he
    rfl
  refine ⟨⟨hfreq.trans h.freq, ?_, hsbi, fun n hn hc => ?_, fun n hn => ?_,
    hstarted ▸ h.started⟩, ?_⟩
  · have hsorted := h.sorted
    rw [hsplit] at hsorted
    exact (List.pairwise_append.1 hsorted).2.1
  · have := h.soon n (hsub n hn) hc
    have := BitVec.le_def.1 hle
    omega
  · rw [htasks] at hn
    exact (mem_dispatch hn).elim (h.priority n) id
  · -- the callbacks moved are those of the timers taken from the list
    have hmap : k.timers.map TimerNode.callback =
        (expired clock 0 k.timers).map (fun m => m.1.callback) ++
          k'.timers.map TimerNode.callback := by
      conv_lhs => rw [hsplit]
      rw [List.map_append, List.map_map]
      rfl
    rw [Kernel.callbacks, Kernel.callbacks, Kernel.due, Kernel.due, htasks, hmap, Kernel.running,
      Kernel.running, hstarted, ← List.append_assoc, ← List.append_assoc]
    refine List.Perm.append_right _ ?_
    refine (List.Perm.append_left _ (dispatch_perm _ _)).trans ?_
    rw [← List.append_assoc]
    exact List.perm_append_comm.append_right _

/-! ## The invariant -/

/-- The clockwork goes, with each of the two periodic callbacks pending once. -/
structure Beats (f : BitVec 64) (k : Kernel) : Prop extends Armed f k where
  scheduler : k.callbacks.count .schedulerTimer = 1
  periodic : k.callbacks.count .periodicTimer = 1

namespace Beats

theorem congr (h : Beats f k) (hfreq : k'.timeFreq = k.timeFreq) (ht : k'.timers = k.timers)
    (hsbi : k'.sbiTimer = k.sbiTimer) (hnow : k.now ≤ k'.now) (hk : k'.tasks = k.tasks)
    (hs : k'.started = k.started) : Beats f k' := by
  have hcb := callbacks_congr ht hk hs
  exact ⟨h.toArmed.congr hfreq ht hsbi hnow hk hs, hcb ▸ h.scheduler, hcb ▸ h.periodic⟩

theorem of_perm (h : Beats f k) (ha : Armed f k') (hp : k'.callbacks.Perm k.callbacks) :
    Beats f k' :=
  ⟨ha, by rw [hp.count_eq, h.scheduler], by rw [hp.count_eq, h.periodic]⟩

/-- Timers of other callbacks do not matter. -/
theorem add (h : Beats f k) (hs : c ≠ .schedulerTimer) (hp : c ≠ .periodicTimer) (ticks : BitVec 64)
    (mem : Bool) : Beats f (addTimerTicks k c ticks mem) := by
  cases mem with
  | false => exact h
  | true =>
    refine ⟨h.toArmed.add (fun hc => (hs hc).elim) true, ?_, ?_⟩
    · rw [(callbacks_add k c ticks).count_eq, List.count_cons_of_ne hs, h.scheduler]
    · rw [(callbacks_add k c ticks).count_eq, List.count_cons_of_ne hp, h.periodic]

/-- Other callbacks that return do not matter. -/
theorem drop (h : Beats f k) (ha : Armed f k') (hs : c ≠ .schedulerTimer) (hp : c ≠ .periodicTimer)
    (hperm : k.callbacks.Perm (c :: k'.callbacks)) : Beats f k' := by
  refine ⟨ha, ?_, ?_⟩
  · rw [← h.scheduler, hperm.count_eq, List.count_cons_of_ne hs]
  · rw [← h.periodic, hperm.count_eq, List.count_cons_of_ne hp]

/-- A callback returns: the periodic ones have added their timers again. -/
theorem run {k₁ : Kernel} (h : Beats f k) (ha : Armed f k₁)
    (hperm : k.callbacks.Perm (c :: k₁.callbacks)) : Beats f (runCallback k₁ c true) := by
  cases c with
  | threadWakeup a =>
    exact (h.drop ha (by simp) (by simp) hperm).congr rfl rfl rfl (BitVec.le_refl _) rfl rfl
  | timeout a => exact h.drop ha (by simp) (by simp) hperm
  | schedulerTimer =>
    refine h.of_perm (ha.add (fun _ => by rw [ha.freq]) true) ?_
    exact (callbacks_add k₁ _ _).trans hperm.symm
  | periodicTimer =>
    refine h.of_perm (ha.add (by simp) true) ?_
    exact (callbacks_add k₁ _ _).trans hperm.symm

/-- A round of `run_tasks` that is not preempted. -/
theorem runTask (h : Beats f k) (he : Sched.runTask k true = some k') : Beats f k' := by
  simp only [Sched.runTask, Option.bind_eq_bind, Option.bind_eq_some_iff] at he
  obtain ⟨t, -, he⟩ := he
  split at he
  · cases he
    exact h
  · rename_i n tasks hk
    split at he
    · cases he
      exact h
    · cases he
      refine h.run ⟨h.freq, h.sorted, h.deadline, h.soon, fun m hm =>
        h.priority m (hk ▸ List.mem_cons_of_mem _ hm), h.started⟩ ?_
      rw [Kernel.callbacks, Kernel.due, hk]
      exact List.perm_middle

/-- A task is taken from the queue. -/
theorem startTask (h : Beats f k) (he : Sched.startTask k = some k') : Beats f k' := by
  simp only [Sched.startTask, Option.bind_eq_bind, Option.bind_eq_some_iff] at he
  obtain ⟨t, -, he⟩ := he
  split at he
  · cases he
    exact h
  · rename_i n tasks hk
    split at he
    · cases he
      exact h
    · cases he
      refine h.of_perm ⟨h.freq, h.sorted, h.deadline, h.soon, fun m hm =>
        h.priority m (hk ▸ List.mem_cons_of_mem _ hm), fun r hr => ?_⟩ ?_
      · rcases List.mem_cons.1 hr with rfl | hr
        · exact ⟨h.priority n (hk ▸ List.mem_cons_self), by simp⟩
        · exact h.started r hr
      · refine (callbacks_cons (k := { k with tasks := tasks }) (by simp)).trans ?_
        rw [Kernel.callbacks, Kernel.callbacks, Kernel.due, Kernel.due, hk]
        exact List.perm_middle.symm

/-- A step of a callback. -/
theorem stepTask (h : Beats f k) (he : Sched.stepTask k true = some k') : Beats f k' := by
  cases callbackStep_of_stepTask he with
  | idle => exact h
  | tested hr hs hc hw =>
    refine h.of_perm (h.toArmed.goOn hr fun _ => by simp [hc, Callback.wakes]) ?_
    exact (callbacks_cons (by simp)).trans (callbacks_erase hr (by simp [hs])).symm
  | @passed r a hr hs hc hw =>
    refine h.drop (c := r.task.callback) (h.toArmed.goOn hr (by simp)) (by simp [hc])
      (by simp [hc]) ?_
    rw [callbacks_cons_returned rfl]
    exact callbacks_erase hr (by simp [hs])
  | @ran r hr hs hc =>
    rw [runCallback_withStarted]
    refine h.run (h.toArmed.goOn hr (by simp)) ?_
    rw [callbacks_cons_returned rfl]
    exact callbacks_erase hr (by simp [hs])
  | @stored r a hr hs hc =>
    have hdrop : Beats f { k with
        started := { r with stage := .returned } :: k.started.erase r } := by
      refine h.drop (c := r.task.callback) (h.toArmed.goOn hr (by simp)) (by simp [hc])
        (by simp [hc]) ?_
      rw [callbacks_cons_returned rfl]
      exact callbacks_erase hr (by simp [hs])
    exact hdrop.congr rfl rfl rfl (BitVec.le_refl _) rfl rfl
  | @done r hr hs =>
    have hret : r.stage = .returned := hs.resolve_right fun hf => (h.started r hr).2 hf.1 hf.2
    refine h.of_perm ⟨h.freq, h.sorted, h.deadline, h.soon, h.priority, fun r' hr' =>
      h.started r' (List.mem_of_mem_erase hr')⟩ ?_
    rw [← callbacks_cons_returned hret]
    exact ((Kernel.due_perm (List.perm_cons_erase hr)).append_left _).symm

end Beats

theorem beats_timerInit {k : Kernel} (hk : k.tasks = []) (hs : k.started = [])
    {clock : ℕ → BitVec 64} (hclock : clock 0 ≤ clock 1) :
    Beats f (timerInit k f clock fun _ => true) := by
  set k₀ : Kernel := { k with timers := [], timeFreq := f, sbiTimer := -1, now := clock 0 } with hk₀
  set k₁ : Kernel := { addTimerTicks k₀ .periodicTimer (2 * f) true with now := clock 1 } with hk₁
  have harmed₀ : Armed f k₀ := ⟨rfl, .nil, rfl, by simp [hk₀], by simp [hk₀, hk], by simp [hk₀, hs]⟩
  have harmed₁ : Armed f k₁ :=
    (harmed₀.add (c := .periodicTimer) (by simp) true).congr rfl rfl rfl hclock rfl rfl
  have hcb : (timerInit k f clock fun _ => true).callbacks.Perm
      [.schedulerTimer, .periodicTimer] := by
    refine (callbacks_add k₁ .schedulerTimer (f / 32)).trans (.cons _ ?_)
    refine (callbacks_add k₀ .periodicTimer (2 * f)).trans (.cons _ ?_)
    simp [Kernel.callbacks, Kernel.due, Kernel.running, hk₀, hk, hs]
  refine ⟨harmed₁.add (fun _ => rfl) true, ?_, ?_⟩
  · rw [hcb.count_eq]
    rfl
  · rw [hcb.count_eq]
    rfl

/-! ## Runs -/

@[simp] theorem Kernel.start_sbiTimer (k : Kernel) (op : Op) :
    (k.start op).sbiTimer = k.sbiTimer := by
  cases op <;> rfl

@[simp] theorem Kernel.start_timeFreq (k : Kernel) (op : Op) :
    (k.start op).timeFreq = k.timeFreq := by
  cases op <;> rfl

theorem Beats.step (h : Beats f k) (hs : FedStep k k') : Beats f k' := by
  obtain ⟨op, ha, hf, he⟩ := hs
  cases op with
  | startTask => exact h.startTask he
  | stepTask mem =>
    obtain rfl : mem = true := hf
    exact h.stepTask he
  | op op =>
    cases op with
    | thread op =>
      obtain ⟨s, -, rfl⟩ := Kernel.exec_thread he
      exact h.congr (k.start_timeFreq op) (k.start_timers op) (k.start_sbiTimer op)
        (by rw [Kernel.resume, k.start_now]; exact BitVec.le_refl _) (k.start_tasks op)
        (k.start_started op)
    | threadSleep usec mem =>
      cases mem with
      | true =>
        simp only [Kernel.perform, Kernel.exec, Kernel.threadSleep, if_true, Option.bind_eq_bind,
          Option.bind_eq_some_iff] at he
        obtain ⟨r, -, he⟩ := he
        cases he
        have hadd := h.add (c := .threadWakeup k.sched.tp) (by simp) (by simp)
          (usec.setWidth 64 * k.timeFreq / 1000000) true
        exact hadd.congr rfl rfl rfl (BitVec.le_refl _) rfl rfl
      | false =>
        simp only [Kernel.perform, Kernel.exec, Kernel.threadSleep, Bool.false_eq_true, if_false,
          Option.bind_eq_bind, Option.bind_eq_some_iff] at he
        obtain ⟨r, -, he⟩ := he
        cases he
        exact h.congr rfl rfl rfl (BitVec.le_refl _) rfl rfl
    | sysWaitpid pid =>
      simp only [Kernel.perform, Kernel.exec, Kernel.sysWaitpid, Option.bind_eq_bind,
        Option.bind_eq_some_iff] at he
      obtain ⟨r, -, he⟩ := he
      split at he
      · cases he
        exact h.congr rfl rfl rfl (BitVec.le_refl _) rfl rfl
      · cases he
        exact h.congr rfl rfl rfl (BitVec.le_refl _) rfl rfl
    | addTimeout arg ticks mem =>
      cases he
      exact h.add (by simp) (by simp) ticks mem
    | timerInterrupt clock mem =>
      obtain rfl : mem = fun _ => true := funext hf
      obtain ⟨harmed, hperm⟩ := h.toArmed.interrupt ha he
      exact h.of_perm harmed hperm
    | runTask mem => cases he
    | tick now =>
      cases he
      exact h.congr rfl rfl rfl ha rfl rfl

theorem Beats.steps (h : Beats f k) (hs : Relation.ReflTransGen FedStep k k') : Beats f k' := by
  induction hs with
  | refl => exact h
  | tail _ hs ih => exact ih.step hs

/-- If the timer of the scheduler is in the list, the deadline is at least as soon. -/
theorem Armed.inTime (h : Armed f k) (hmem : .schedulerTimer ∈ k.timers.map TimerNode.callback) :
    InTime f k := by
  obtain ⟨n, hn, hc⟩ := List.mem_map.1 hmem
  have hsoon := h.soon n hn hc
  rw [InTime, h.deadline]
  cases ht : k.timers with
  | nil =>
    rw [ht] at hn
    cases hn
  | cons m timers =>
    have hsorted := h.sorted
    rw [ht] at hn hsorted
    change m.expireTime.toNat ≤ _
    rcases List.mem_cons.1 hn with rfl | hn
    · exact hsoon
    · exact ((List.pairwise_cons.1 hsorted).1 n hn).trans hsoon

/-- Where the callback of the scheduler is. -/
theorem Beats.cases (h : Beats f k) :
    InTime f k ∨ ⟨.schedulerTimer, 10⟩ ∈ k.tasks ∨ .schedulerTimer ∈ k.running := by
  have hmem : Callback.schedulerTimer ∈ k.callbacks :=
    List.count_pos_iff.1 (by rw [h.scheduler]; exact one_pos)
  rcases List.mem_append.1 hmem with hmem | hmem
  · exact .inl (h.toArmed.inTime hmem)
  rcases List.mem_append.1 hmem with hmem | hmem
  · obtain ⟨⟨callback, priority⟩, hn, hc⟩ := List.mem_map.1 hmem
    obtain rfl : callback = .schedulerTimer := hc
    obtain rfl : priority = 10 := h.priority _ hn
    exact .inr (.inl hn)
  · exact .inr (.inr hmem)

/-- The callback is not in the task queue and being run at once. -/
theorem Beats.not_running (h : Beats f k) (hmem : ⟨.schedulerTimer, 10⟩ ∈ k.tasks) :
    .schedulerTimer ∉ k.running := by
  intro hrun
  have hcount := h.scheduler
  rw [Kernel.callbacks, Kernel.due, List.count_append, List.count_append] at hcount
  have htask := List.count_pos_iff.2 (List.mem_map_of_mem (f := TaskNode.callback) hmem)
  have hstart := List.count_pos_iff.2 hrun
  dsimp only at htask
  omega

/-! ## `run_tasks` -/

/-- A callback leaves the pid and the priority of every thread as they are. -/
theorem heap_runCallback {a : Addr} {t : Thread} (ht : k.sched.heap a = some t) (c : Callback) :
    ∃ t', (runCallback k c true).sched.heap a = some t' ∧ t'.pid = t.pid ∧
      t'.currentTaskPriority = t.currentTaskPriority := by
  cases c with
  | threadWakeup b =>
    change ∃ t', (threadWakeupCallback k.sched b).heap a = some t' ∧ _
    rw [threadWakeupCallback_eq]
    split
    · exact setReady_keep ht
    · exact ⟨t, ht, rfl, rfl⟩
  | _ => exact ⟨t, ht, rfl, rfl⟩

/-- A thread that runs a task can take no other one. -/
theorem Armed.free {t : Thread} (h : Armed f k) (hlow : k.taskPriority t < 10) :
    (∀ r ∈ k.started, r.pid ≠ t.pid) ∧ t.currentTaskPriority < 10 := by
  rw [Kernel.taskPriority] at hlow
  split at hlow
  · rename_i r hr
    rw [(h.started r (List.mem_of_find?_eq_some hr)).1] at hlow
    omega
  · rename_i hnone
    exact ⟨fun r hr => by simpa using List.find?_eq_none.1 hnone r hr, hlow⟩

/-- A round of `run_tasks` in which the thread is not preempted. -/
def TaskRound (k k' : Kernel) : Prop := ∃ k₁, startTask k = some k₁ ∧ Unpreempted true k₁ k'

/-- `run_tasks` empties the task queue, unless the current thread runs a task of this priority. -/
theorem Beats.rounds {t : Thread} (h : Beats f k) (ht : k.sched.heap k.sched.tp = some t)
    (hfree : ∀ r ∈ k.started, r.pid ≠ t.pid) (hlow : t.currentTaskPriority < 10) :
    ∃ k', Relation.ReflTransGen TaskRound k k' ∧ k'.tasks = [] ∧ k'.started = k.started ∧
      Beats f k' := by
  induction hk : k.tasks generalizing k t with
  | nil => exact ⟨k, .refl, hk, rfl, h⟩
  | cons n tasks ih =>
    have hn : ¬ n.priority ≤ t.currentTaskPriority := by
      rw [h.priority n (by rw [hk]; exact List.mem_cons_self)]
      omega
    set k₁ := runCallback { k with tasks := tasks } n.callback true with hk₁
    have hround : Sched.runTask k true = some k₁ := by
      rw [Sched.runTask, ht]
      simp only [Option.bind_eq_bind, Option.bind_some, hk]
      rw [if_neg hn]
      rfl
    obtain ⟨t', ht', hpid, hprio⟩ := heap_runCallback (k := { k with tasks := tasks }) ht n.callback
    have htp : k₁.sched.tp = k.sched.tp := by
      rw [hk₁]
      cases n.callback with
      | threadWakeup b => exact threadWakeupCallback_tp ..
      | _ => rfl
    have htasks : k₁.tasks = tasks := by
      rw [hk₁]
      cases n.callback <;> rfl
    have hstarted : k₁.started = k.started := by
      rw [hk₁]
      cases n.callback <;> rfl
    obtain ⟨k', hrun, hempty, hst, hdone⟩ := ih (h.runTask hround) (by rw [htp]; exact ht')
      (by rw [hstarted, hpid]; exact hfree) (by omega) htasks
    exact ⟨k', .head (runTask_steps ht hfree hround) hrun, hempty, hst.trans hstarted, hdone⟩

/-- **The timer never stops.** Along every run from `timer_init` on in which timers and tasks can be
allocated, the callback of the scheduler is pending or being run exactly once, the hardware timer is
set for the earliest timer, and the deadline is at most 1/32 of a second ahead, or the callback is
in the task queue, or it is being run. `run_tasks` of a thread that runs no task empties the queue,
and so brings the deadline back if the callback was there; the thread that runs the callback does so
with its next step. -/
theorem heartbeat {k₀ : Kernel} (h₀ : k₀.tasks = []) (h₁ : k₀.started = []) {clock : ℕ → BitVec 64}
    (hclock : clock 0 ≤ clock 1)
    (h : Relation.ReflTransGen FedStep (timerInit k₀ f clock fun _ => true) k) :
    k.callbacks.count .schedulerTimer = 1 ∧ k.sbiTimer = deadline k.timers ∧
      (InTime f k ∨ ⟨.schedulerTimer, 10⟩ ∈ k.tasks ∨ .schedulerTimer ∈ k.running) ∧
      ∀ t, k.sched.heap k.sched.tp = some t →
        (k.taskPriority t < 10 → ∃ k', Relation.ReflTransGen TaskRound k k' ∧ k'.tasks = [] ∧
          (⟨.schedulerTimer, 10⟩ ∈ k.tasks → InTime f k')) ∧
        ∀ r, k.started.find? (·.pid = t.pid) = some r → r.task.callback = .schedulerTimer →
          r.stage = .called → ∃ k', stepTask k true = some k' ∧ InTime f k' := by
  have hbeats := (beats_timerInit h₀ h₁ hclock).steps h
  refine ⟨hbeats.scheduler, hbeats.deadline, hbeats.cases, fun t ht => ⟨fun hlow => ?_,
    fun r hr hc hs => ?_⟩⟩
  · obtain ⟨hfree, hlow⟩ := hbeats.toArmed.free hlow
    obtain ⟨k', hrun, hempty, hst, hbeats'⟩ := hbeats.rounds ht hfree hlow
    refine ⟨k', hrun, hempty, fun hmem => hbeats'.cases.resolve_right ?_⟩
    rw [hempty, Kernel.running, hst]
    exact fun h => h.elim List.not_mem_nil (hbeats.not_running hmem)
  · have hstep : stepTask k true = some (k.stepStarted r (k.started.erase r) true) := by
      simp only [stepTask, ht, Option.bind_eq_bind, Option.bind_some, hr]
      rfl
    refine ⟨_, hstep, (hbeats.stepTask hstep).toArmed.inTime ?_⟩
    rw [Kernel.stepStarted, hs, hc]
    exact List.mem_map.2 ⟨_, (insertTimer_perm _ _).mem_iff.2 List.mem_cons_self, rfl⟩

/-- An interrupt at time `400000` of a clock of 10 MHz, when the first timer of the scheduler has
expired; then `run_tasks` is preempted in the callback. -/
theorem heartbeat_interrupt : ∃ k,
    Relation.ReflTransGen FedStep (timerInit .boot 10000000 (fun _ => 0) fun _ => true) k ∧
    k.tasks = [] ∧ .schedulerTimer ∈ k.running ∧
    ∃ k', stepTask k true = some k' ∧ InTime 10000000 k' := by
  have hrun : Relation.ReflTransGen FedStep
      (timerInit .boot 10000000 (fun _ => 0) fun _ => true) _ := .tail (.single
    ⟨.op (.timerInterrupt (fun _ => 400000) fun _ => true),
      ⟨fun _ _ _ => BitVec.le_refl _, by decide +kernel⟩, fun _ => rfl, rfl⟩)
    ⟨.startTask, trivial, trivial, rfl⟩
  obtain ⟨-, -, -, hnext⟩ := heartbeat (f := 10000000) rfl rfl (BitVec.le_refl _) hrun
  exact ⟨_, hrun, rfl, List.mem_singleton.2 rfl, (hnext _ rfl).2 _ rfl rfl rfl⟩

end BareMetalOS.Sched
