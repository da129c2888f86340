import BareMetalOS.Sched.Queue

/-!
# What the operations do to the queue

One lemma for each operation, in two steps: what it does to every thread struct (`wakeParent_some`,
`endThread_some`, `State.enqueued_some`), and that the run queue stays well formed. An operation
that blocks or ends its caller goes through a state where only `Queue` holds and then calls
`schedule`.
-/

namespace BareMetalOS.Sched

open Memory (Addr)

variable {s s' : State} {q : List Addr} {a b : Addr} {t u : Thread}

theorem scheduleThen_eq (h : Queue s q) (v : ℤ) :
    ∃ n t, s.heap n = some t ∧ t.status.isRunnable ∧
      scheduleThen s v = some (s.switched n t, if n = s.tp then some v else none) := by
  obtain ⟨n, t, ht, hrun, hs⟩ := schedule_eq h
  refine ⟨n, t, ht, hrun, ?_⟩
  rw [scheduleThen, hs]
  rfl

/-! ## Ending a thread -/

/-- What the wake-up of the parent does: a thread keeps its struct, unless it is the parent, is
`WAITING` and does not wait for another pid. -/
theorem wakeParent_some {target : Thread} (h : (wakeParent s target).heap a = some u) :
    ∃ t, s.heap a = some t ∧ (u = t ∨ (a = target.parent ∧ t.status = .waiting ∧
      (t.waitingPid = target.pid ∨ t.waitingPid = -1) ∧
      u = { t with status := .ready, waitingPid := -1 })) := by
  unfold wakeParent at h
  split at h
  · exact ⟨u, h, .inl rfl⟩
  · split at h
    · exact ⟨u, h, .inl rfl⟩
    · rename_i p hp
      split at h
      · rename_i hw
        by_cases ha : a = target.parent
        · subst ha
          rw [State.set_heap_self] at h
          cases h
          exact ⟨p, hp, .inr ⟨rfl, hw.1, hw.2, rfl⟩⟩
        · rw [State.set_heap_of_ne ha] at h
          exact ⟨u, h, .inl rfl⟩
      · exact ⟨u, h, .inl rfl⟩

@[simp] theorem wakeParent_tp (s : State) (target : Thread) : (wakeParent s target).tp = s.tp := by
  unfold wakeParent
  split
  · rfl
  · split
    · rfl
    · split <;> rfl

@[simp] theorem wakeParent_runQueue (s : State) (target : Thread) :
    (wakeParent s target).runQueue = s.runQueue := by
  unfold wakeParent
  split
  · rfl
  · split
    · rfl
    · split <;> rfl

@[simp] theorem wakeParent_nrThreads (s : State) (target : Thread) :
    (wakeParent s target).nrThreads = s.nrThreads := by
  unfold wakeParent
  split
  · rfl
  · split
    · rfl
    · split <;> rfl

theorem Queue.wakeParent (h : Queue s q) (target : Thread) : Queue (wakeParent s target) q := by
  unfold Sched.wakeParent
  split
  · exact h
  · split
    · exact h
    · rename_i p hp
      split
      · exact h.set hp rfl rfl (by simp) fun _ => rfl
      · exact h

@[simp] theorem endThread_tp (s : State) (a : Addr) (t : Thread) (x : Status) :
    (endThread s a t x).tp = s.tp := by
  simp [endThread]

@[simp] theorem endThread_runQueue (s : State) (a : Addr) (t : Thread) (x : Status) :
    (endThread s a t x).runQueue = s.runQueue := by
  simp [endThread]

@[simp] theorem endThread_nrThreads (s : State) (a : Addr) (t : Thread) (x : Status) :
    (endThread s a t x).nrThreads = s.nrThreads := by
  simp [endThread]

/-- What the end of the thread `t` at `a` does to every struct. -/
theorem endThread_some {x : Status} (ht : s.heap a = some t) (hx : x ≠ .waiting)
    (h : (endThread s a t x).heap b = some u) :
    ∃ v, s.heap b = some v ∧ ((b = a ∧ u = { v with status := x }) ∨ (b ≠ a ∧ (u = v ∨
      (b = t.parent ∧ v.status = .waiting ∧ (v.waitingPid = t.pid ∨ v.waitingPid = -1) ∧
        u = { v with status := .ready, waitingPid := -1 })))) := by
  obtain ⟨v, hv, hu⟩ := wakeParent_some h
  by_cases hb : b = a
  · subst hb
    rw [State.set_heap_self] at hv
    cases hv
    rcases hu with rfl | ⟨-, hw, -⟩
    · exact ⟨t, ht, .inl ⟨rfl, rfl⟩⟩
    · exact (hx hw).elim
  · rw [State.set_heap_of_ne hb] at hv
    exact ⟨v, hv, .inr ⟨hb, hu⟩⟩

theorem Queue.endThread {x : Status} (h : Queue s q) (ht : s.heap a = some t)
    (hx : x.isZombie) (ha : a ≠ s.runQueue) : Queue (endThread s a t x) q := by
  refine (h.set (u := { t with status := x }) ht rfl rfl ?_ fun h' => (ha h').elim).wakeParent t
  rintro rfl
  simp [Status.isZombie] at hx

/-- The end of another thread than the current one. -/
theorem Inv.endThread {x : Status} (h : Inv s q) (ht : s.heap a = some t) (hx : x.isZombie)
    (ha : a ≠ s.runQueue) (htp : a ≠ s.tp) : Inv (endThread s a t x) q := by
  refine ⟨h.toQueue.endThread ht hx ha, fun u hu => ?_⟩
  rw [endThread_tp] at hu
  obtain ⟨v, hv, ⟨hb, -⟩ | ⟨-, rfl | ⟨-, -, -, rfl⟩⟩⟩ :=
    endThread_some ht (by rintro rfl; simp [Status.isZombie] at hx) hu
  · exact (htp hb.symm).elim
  · exact h.current u hv
  · rfl

/-! ## Waking a thread -/

theorem threadWakeupCallback_some (h : (threadWakeupCallback s a).heap b = some u) :
    ∃ t, s.heap b = some t ∧
      (u = t ∨ (b = a ∧ t.status = .waiting ∧ u = { t with status := .ready })) := by
  unfold threadWakeupCallback at h
  split at h
  · exact ⟨u, h, .inl rfl⟩
  · rename_i p hp
    split at h
    · rename_i hw
      by_cases hb : b = a
      · subst hb
        rw [State.set_heap_self] at h
        cases h
        exact ⟨p, hp, .inr ⟨rfl, hw, rfl⟩⟩
      · rw [State.set_heap_of_ne hb] at h
        exact ⟨u, h, .inl rfl⟩
    · exact ⟨u, h, .inl rfl⟩

@[simp] theorem threadWakeupCallback_tp (s : State) (a : Addr) :
    (threadWakeupCallback s a).tp = s.tp := by
  unfold threadWakeupCallback
  split
  · rfl
  · split <;> rfl

@[simp] theorem threadWakeupCallback_nrThreads (s : State) (a : Addr) :
    (threadWakeupCallback s a).nrThreads = s.nrThreads := by
  unfold threadWakeupCallback
  split
  · rfl
  · split <;> rfl

theorem Inv.threadWakeupCallback (h : Inv s q) (a : Addr) : Inv (threadWakeupCallback s a) q := by
  refine ⟨?_, fun u hu => ?_⟩
  · unfold Sched.threadWakeupCallback
    split
    · exact h.toQueue
    · split
      · rename_i t ht hw
        exact h.toQueue.set ht rfl rfl (by simp) fun _ => rfl
      · exact h.toQueue
  · rw [threadWakeupCallback_tp] at hu
    obtain ⟨t, ht, rfl | ⟨-, -, rfl⟩⟩ := threadWakeupCallback_some hu
    · exact h.current u ht
    · rfl

/-! ## Writing the current struct -/

/-- A change of the current thread that keeps it able to run. -/
theorem Inv.setCurrent (h : Inv s q) (ht : s.heap s.tp = some t) (hpid : u.pid = t.pid)
    (hnext : u.next = t.next) (hrun : u.status.isRunnable) : Inv (s.set s.tp u) q := by
  refine ⟨h.toQueue.set ht hpid hnext (fun _ => rfl) fun _ => hrun, fun v hv => ?_⟩
  rw [State.set_tp, State.set_heap_self] at hv
  cases hv
  exact hrun

/-- A change of any thread that keeps its status. -/
theorem Inv.setSame (h : Inv s q) (ht : s.heap a = some t) (hpid : u.pid = t.pid)
    (hnext : u.next = t.next) (hstatus : u.status = t.status) : Inv (s.set a u) q := by
  refine ⟨h.toQueue.set ht hpid hnext (fun hr => h.running a t ht (hstatus ▸ hr)) fun ha => ?_,
    fun v hv => ?_⟩
  · obtain ⟨i, hi, -, hrun⟩ := h.idle
    rw [ha, hi] at ht
    cases ht
    rwa [hstatus]
  · by_cases hb : s.tp = a
    · rw [State.set_tp, hb, State.set_heap_self] at hv
      cases hv
      rw [hstatus]
      exact h.current t (by rw [hb, ht])
    · rw [State.set_tp, State.set_heap_of_ne hb] at hv
      exact h.current v hv

/-- The current thread blocks: any thread but the idle one may. -/
theorem Inv.block (h : Inv s q) (hidle : s.tp ≠ s.runQueue) (ht : s.heap s.tp = some t)
    (hpid : u.pid = t.pid) (hnext : u.next = t.next) (hw : u.status ≠ .running) :
    Queue (s.set s.tp u) q :=
  h.toQueue.set ht hpid hnext (fun hr => (hw hr).elim) fun ha => (hidle ha).elim

/-! ## Adding a thread -/

/-- The state after the new thread `u` at `a` has been put behind the idle thread `i`. -/
def State.enqueued (s : State) (a : Addr) (u i : Thread) : State :=
  { s with
    heap := Function.update (Function.update s.heap s.runQueue (some { i with next := a })) a
      (some { u with next := i.next })
    nrThreads := s.nrThreads + 1 }

@[simp] theorem State.enqueued_tp (s : State) (a : Addr) (u i : Thread) :
    (s.enqueued a u i).tp = s.tp := rfl

theorem enqueue_eq (h : Queue s q) (ha : s.heap a = none) {i : Thread}
    (hi : s.heap s.runQueue = some i) :
    enqueue ({ s with nrThreads := s.nrThreads + 1 }.set a u) a = some (s.enqueued a u i) := by
  have hne : s.runQueue ≠ a := by rintro rfl; rw [hi] at ha; cases ha
  set s₁ : State := { s with nrThreads := s.nrThreads + 1 }.set a u with hs₁
  have hi₁ : s₁.heap s.runQueue = some i := by
    rw [hs₁, State.set_heap_of_ne hne]
    exact hi
  have ha₁ : (s₁.set s.runQueue { i with next := a }).heap a = some u := by
    rw [State.set_heap_of_ne (Ne.symm hne), hs₁, State.set_heap_self]
  rw [enqueue, if_neg (show s₁.runQueue ≠ 0 from h.runQueue_ne_zero)]
  simp only [show s₁.runQueue = s.runQueue from rfl, hi₁, Option.bind_eq_bind, Option.bind_some,
    ha₁, Option.pure_def]
  refine congrArg some ?_
  simp only [hs₁, State.set, State.enqueued, State.mk.injEq, and_true]
  rw [Function.update_comm hne, Function.update_idem, Function.update_comm hne]

section Enqueued

variable {i v w : Thread}

theorem State.enqueued_heap_self (s : State) (a : Addr) (u i : Thread) :
    (s.enqueued a u i).heap a = some { u with next := i.next } :=
  Function.update_self ..

/-- Every old thread is still there, up to its pointer. -/
theorem State.enqueued_keep (hi : s.heap s.runQueue = some i) (ha : s.heap a = none)
    (hb : s.heap b = some w) : ∃ n, (s.enqueued a u i).heap b = some { w with next := n } := by
  have hba : b ≠ a := by rintro rfl; rw [hb] at ha; cases ha
  rw [enqueued]
  simp only [Function.update_of_ne hba]
  by_cases hb' : b = s.runQueue
  · subst hb'
    cases hi.symm.trans hb
    exact ⟨a, by rw [Function.update_self]⟩
  · exact ⟨w.next, by rw [Function.update_of_ne hb', hb]⟩

/-- Every thread is the new one or an old one, up to its pointer. -/
theorem State.enqueued_some (hi : s.heap s.runQueue = some i)
    (hb : (s.enqueued a u i).heap b = some v) :
    (b = a ∧ v = { u with next := i.next }) ∨
      (b ≠ a ∧ ∃ w n, s.heap b = some w ∧ v = { w with next := n }) := by
  by_cases hba : b = a
  · subst hba
    rw [enqueued_heap_self] at hb
    exact .inl ⟨rfl, (Option.some.inj hb).symm⟩
  · rw [enqueued] at hb
    simp only [Function.update_of_ne hba] at hb
    by_cases hb' : b = s.runQueue
    · subst hb'
      rw [Function.update_self] at hb
      exact .inr ⟨hba, i, a, hi, (Option.some.inj hb).symm⟩
    · rw [Function.update_of_ne hb'] at hb
      exact .inr ⟨hba, v, v.next, hb, rfl⟩

end Enqueued

/-- A new thread with the next pid keeps the queue well formed. -/
theorem Inv.enqueued {i : Thread} (h : Inv s q) (ha : s.heap a = none) (ha₀ : a ≠ 0)
    (hi : s.heap s.runQueue = some i) (hpid : u.pid = s.nrThreads) (hu : u.status = .ready)
    (hn : s.nrThreads < 2 ^ 31 - 1) :
    Inv (s.enqueued a u i) (s.runQueue :: a :: q.tail) := by
  obtain ⟨l, rfl⟩ := h.ring.exists_cons
  have hpids : ∀ b v, (s.enqueued a u i).heap b = some v →
      (b = a ∧ v.pid = s.nrThreads) ∨ ∃ w, s.heap b = some w ∧ v.pid = w.pid := by
    intro b v hb
    rcases State.enqueued_some hi hb with ⟨rfl, rfl⟩ | ⟨-, w, n, hw, rfl⟩
    · exact .inl ⟨rfl, hpid⟩
    · exact .inr ⟨w, hw, rfl⟩
  have hmem : ∀ b, b ∈ s.runQueue :: a :: l ↔ b = a ∨ b ∈ s.runQueue :: l := by
    intro b
    simp only [List.mem_cons]
    tauto
  refine ⟨⟨?_, fun b => ?_, ?_, ?_, ?_, ?_, ?_, ?_, ?_⟩, ?_⟩
  · refine h.ring.insert hi ?_ rfl rfl
    rw [h.mem_iff, ha]
    simp
  · rw [List.tail_cons, hmem, h.mem_iff]
    constructor
    · rintro (rfl | ⟨w, hw⟩)
      · exact ⟨_, State.enqueued_heap_self ..⟩
      · obtain ⟨n, hn⟩ := State.enqueued_keep (u := u) hi ha hw
        exact ⟨_, hn⟩
    · rintro ⟨v, hv⟩
      rcases State.enqueued_some hi hv with ⟨rfl, -⟩ | ⟨-, w, -, hw, -⟩
      · exact .inl rfl
      · exact .inr ⟨w, hw⟩
  · rw [State.enqueued]
    simp only [Function.update_of_ne (Ne.symm ha₀),
      Function.update_of_ne (Ne.symm h.runQueue_ne_zero)]
    exact h.null
  · obtain ⟨i', hi', hi₀, hirun⟩ := h.idle
    cases hi.symm.trans hi'
    obtain ⟨n, hn⟩ := State.enqueued_keep (u := u) hi ha hi
    exact ⟨_, hn, hi₀, hirun⟩
  · intro b c v w hb hc hvw
    rcases hpids b v hb with ⟨rfl, hv⟩ | ⟨v', hv', hv⟩
    · rcases hpids c w hc with ⟨rfl, -⟩ | ⟨w', hw', hw⟩
      · rfl
      · have := h.pid_range c w' hw'
        omega
    · rcases hpids c w hc with ⟨rfl, hw⟩ | ⟨w', hw', hw⟩
      · have := h.pid_range b v' hv'
        omega
      · exact h.pid_inj b c v' w' hv' hw' (by omega)
  · intro b v hb
    rw [show (s.enqueued a u i).nrThreads = s.nrThreads + 1 from rfl]
    rcases hpids b v hb with ⟨rfl, hv⟩ | ⟨v', hv', hv⟩
    · have := h.pid_range _ _ hi
      omega
    · have := h.pid_range b v' hv'
      omega
  · intro b v hb hv
    rcases State.enqueued_some hi hb with ⟨rfl, rfl⟩ | ⟨-, w, n, hw, rfl⟩
    · rw [hu] at hv
      cases hv
    · exact h.running b w hw hv
  · exact (hmem _).2 (.inr h.tp_mem)
  · rw [show (s.enqueued a u i).nrThreads = s.nrThreads + 1 from rfl]
    omega
  · intro v hv
    obtain ⟨c, hc⟩ := h.exists_current
    obtain ⟨n, hn⟩ := State.enqueued_keep (u := u) hi ha hc
    cases hn.symm.trans hv
    exact h.current c hc

theorem nextPid_eq (hn : s.nrThreads < 2 ^ 31 - 1) :
    nextPid s = some { s with nrThreads := s.nrThreads + 1 } := by
  rw [nextPid, if_pos hn]

/-- A failed fork only uses up a pid. -/
theorem Inv.skipPid (h : Inv s q) (hn : s.nrThreads < 2 ^ 31 - 1) :
    Inv { s with nrThreads := s.nrThreads + 1 } q := by
  refine ⟨⟨h.ring, h.mem_iff, h.null, h.idle, h.pid_inj, fun a t ht => ?_, h.running, h.tp_mem, ?_⟩,
    h.current⟩
  · have := h.pid_range a t ht
    simp only
    omega
  · simp only
    omega

end BareMetalOS.Sched
