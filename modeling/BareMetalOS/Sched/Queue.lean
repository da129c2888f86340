import BareMetalOS.Sched.Thread

/-!
# The run queue

`Queue s q` says that `run_queue` is the circular list `q`: it starts with the idle thread and holds
every thread struct, the pids are distinct and below `nr_threads`, and no thread but the current one
is `RUNNING`. Between two operations the current thread can run (`Inv`); in the middle of one it may
already be blocked or ended, and `schedule` goes from there to `Inv` (`schedule_eq`,
`Queue.switched`).
-/

namespace BareMetalOS.Sched

open Memory (Addr)

variable {s s' : State} {q : List Addr} {a b : Addr} {t u : Thread}

/-- The run queue is the circular list `q`. -/
structure Queue (s : State) (q : List Addr) : Prop where
  ring : Ring s.heap Thread.next s.runQueue q
  mem_iff : ∀ a, a ∈ q ↔ ∃ t, s.heap a = some t
  null : s.heap 0 = none
  idle : ∃ t, s.heap s.runQueue = some t ∧ t.pid = 0 ∧ t.status.isRunnable
  pid_inj : ∀ a b t u, s.heap a = some t → s.heap b = some u → t.pid = u.pid → a = b
  pid_range : ∀ a t, s.heap a = some t → 0 ≤ t.pid ∧ t.pid < s.nrThreads
  running : ∀ a t, s.heap a = some t → t.status = .running → a = s.tp
  tp_mem : s.tp ∈ q
  nrThreads_le : s.nrThreads ≤ 2 ^ 31 - 1

/-- The run queue between two operations. -/
structure Inv (s : State) (q : List Addr) : Prop extends Queue s q where
  current : ∀ t, s.heap s.tp = some t → t.status.isRunnable

theorem Status.not_zombie_of_runnable {x : Status} (h : x.isRunnable) : x.isZombie = false := by
  cases x <;> simp_all [isRunnable, isZombie]

theorem Status.not_runnable_of_zombie {x : Status} (h : x.isZombie) : ¬ x.isRunnable := by
  cases x <;> simp_all [isRunnable, isZombie]

namespace Queue

theorem runQueue_ne_zero (h : Queue s q) : s.runQueue ≠ 0 := by
  intro h₀
  obtain ⟨t, ht, -⟩ := h.idle
  rw [h₀, h.null] at ht
  cases ht

theorem tp_ne_zero (h : Queue s q) : s.tp ≠ 0 := by
  intro h₀
  obtain ⟨t, ht⟩ := (h.mem_iff _).1 h.tp_mem
  rw [h₀, h.null] at ht
  cases ht

theorem exists_current (h : Queue s q) : ∃ t, s.heap s.tp = some t :=
  (h.mem_iff _).1 h.tp_mem

theorem length_le (h : Queue s q) : q.length ≤ walkBound :=
  h.ring.length_le BitVec.toFin fun _ _ => BitVec.eq_of_toFin_eq

/-- Writing a struct in place, with its pid and its place on the queue kept. -/
theorem set (h : Queue s q) (ht : s.heap a = some t) (hpid : u.pid = t.pid)
    (hnext : u.next = t.next) (hrun : u.status = .running → a = s.tp)
    (hidle : a = s.runQueue → u.status.isRunnable) : Queue (s.set a u) q := by
  have hsome : ∀ b v, (s.set a u).heap b = some v →
      (b = a ∧ v = u) ∨ (b ≠ a ∧ s.heap b = some v) := by
    intro b v hb
    by_cases hba : b = a
    · subst hba
      rw [State.set_heap_self] at hb
      exact .inl ⟨rfl, (Option.some.inj hb).symm⟩
    · rw [State.set_heap_of_ne hba] at hb
      exact .inr ⟨hba, hb⟩
  have hpids : ∀ b v, (s.set a u).heap b = some v → ∃ w, s.heap b = some w ∧ w.pid = v.pid := by
    intro b v hb
    rcases hsome b v hb with ⟨rfl, rfl⟩ | ⟨-, hb⟩
    · exact ⟨t, ht, hpid.symm⟩
    · exact ⟨v, hb, rfl⟩
  refine ⟨h.ring.congr fun b _ v hb => ?_, fun b => ?_, ?_, ?_, ?_, ?_, ?_, h.tp_mem,
    h.nrThreads_le⟩
  · by_cases hba : b = a
    · subst hba
      cases ht.symm.trans hb
      exact ⟨u, State.set_heap_self .., hnext⟩
    · exact ⟨v, by rw [State.set_heap_of_ne hba, hb], rfl⟩
  · rw [h.mem_iff]
    by_cases hba : b = a
    · subst hba
      simp [ht]
    · rw [State.set_heap_of_ne hba]
  · rw [State.set_heap_of_ne (by rintro rfl; rw [h.null] at ht; cases ht)]
    exact h.null
  · obtain ⟨i, hi, hi₀, hi₁⟩ := h.idle
    by_cases hia : s.runQueue = a
    · subst hia
      cases ht.symm.trans hi
      exact ⟨u, State.set_heap_self .., by rw [hpid, hi₀], hidle rfl⟩
    · exact ⟨i, by rw [State.set_runQueue, State.set_heap_of_ne hia, hi], hi₀, hi₁⟩
  · intro b c v w hb hc hvw
    obtain ⟨v', hv', hv⟩ := hpids b v hb
    obtain ⟨w', hw', hw⟩ := hpids c w hc
    exact h.pid_inj b c v' w' hv' hw' (by omega)
  · intro b v hb
    obtain ⟨v', hv', hv⟩ := hpids b v hb
    have := h.pid_range b v' hv'
    simp only [State.set_nrThreads]
    omega
  · intro b v hb hv
    rcases hsome b v hb with ⟨rfl, rfl⟩ | ⟨-, hb⟩
    · exact hrun hv
    · exact h.running b v hb hv

/-- The search for a pid, or for any other property of a thread, from the head of the queue. -/
theorem walk_eq (h : Queue s q) (p : Thread → Bool) :
    walk s p s.runQueue = some (q.find? fun x => (s.heap x).any p) :=
  findFrom_eq h.ring h.length_le

theorem walk_pid (h : Queue s q) (pid : ℤ) :
    (∃ a t, s.heap a = some t ∧ t.pid = pid ∧
      walk s (fun t => t.pid = pid) s.runQueue = some (some a)) ∨
    ((∀ a t, s.heap a = some t → t.pid ≠ pid) ∧
      walk s (fun t => t.pid = pid) s.runQueue = some none) := by
  rw [h.walk_eq]
  cases hf : q.find? fun x => (s.heap x).any fun t => decide (t.pid = pid) with
  | some a =>
    have hp := List.find?_some hf
    obtain ⟨t, ht⟩ := (h.mem_iff a).1 (List.mem_of_find?_eq_some hf)
    rw [ht] at hp
    exact .inl ⟨a, t, ht, by simpa using hp, rfl⟩
  | none =>
    refine .inr ⟨fun a t ht hp => ?_, rfl⟩
    have := List.find?_eq_none.1 hf a ((h.mem_iff a).2 ⟨t, ht⟩)
    simp [ht, hp] at this

theorem findPid_eq (h : Queue s q) (pid : ℤ) :
    findPid s pid = walk s (fun t => t.pid = pid) s.runQueue := by
  rw [findPid, if_neg h.runQueue_ne_zero]

end Queue

/-! ## Switching -/

/-- A thread as `schedule` leaves it when it goes on with another one. -/
def Thread.preempt (t : Thread) : Thread :=
  if t.status = .running then { t with status := .ready } else t

@[simp] theorem Thread.preempt_pid (t : Thread) : t.preempt.pid = t.pid := by
  unfold preempt; split <;> rfl

@[simp] theorem Thread.preempt_next (t : Thread) : t.preempt.next = t.next := by
  unfold preempt; split <;> rfl

@[simp] theorem Thread.preempt_parent (t : Thread) : t.preempt.parent = t.parent := by
  unfold preempt; split <;> rfl

@[simp] theorem Thread.preempt_waitingPid (t : Thread) :
    t.preempt.waitingPid = t.waitingPid := by
  unfold preempt; split <;> rfl

theorem Thread.preempt_status (t : Thread) :
    t.preempt.status = if t.status = .running then .ready else t.status := by
  unfold preempt; split <;> rfl

theorem Thread.preempt_not_running (t : Thread) : t.preempt.status ≠ .running := by
  rw [preempt_status]; split <;> simp_all

@[simp] theorem Thread.preempt_isRunnable (t : Thread) :
    t.preempt.status.isRunnable = t.status.isRunnable := by
  rw [preempt_status]; split <;> simp_all [Status.isRunnable]

@[simp] theorem Thread.preempt_isZombie (t : Thread) :
    t.preempt.status.isZombie = t.status.isZombie := by
  rw [preempt_status]; split <;> simp_all [Status.isZombie]

/-- The state after `schedule` has switched to the thread `t` at `n`. -/
def State.switched (s : State) (n : Addr) (t : Thread) : State :=
  { s with
    heap := fun a => if a = n then some { t with status := .running } else (s.heap a).map .preempt
    tp := n }

theorem switchTo_eq (h : Queue s q) (ht : s.heap a = some t) :
    switchTo s a = some (s.switched a t) := by
  obtain ⟨c, hc⟩ := h.exists_current
  -- no other thread is `RUNNING`, so that only the current one is changed
  have hpre : (if c.status = .running then s.set s.tp { c with status := .ready } else s) =
      { s with heap := fun b => (s.heap b).map .preempt } := by
    have hmap : ∀ b, b ≠ s.tp → (s.heap b).map .preempt = s.heap b := by
      intro b hb
      cases hb' : s.heap b with
      | none => rfl
      | some v =>
        have := mt (h.running b v hb') hb
        simp [Thread.preempt, this]
    have hheap : (if c.status = .running then s.set s.tp { c with status := .ready } else s).heap =
        fun b => (s.heap b).map .preempt := by
      funext b
      by_cases hb : b = s.tp
      · subst hb
        by_cases hr : c.status = .running <;> simp [hr, hc, Thread.preempt]
      · rw [hmap b hb]
        split
        · exact State.set_heap_of_ne hb
        · rfl
    rw [← hheap]
    split <;> rfl
  rw [switchTo, hc]
  simp only [Option.bind_eq_bind, Option.bind_some, hpre, ht, Option.map_some]
  rw [Option.pure_def, State.switched]
  refine congrArg some ?_
  simp only [State.set, State.mk.injEq, and_self, and_true]
  funext b
  by_cases hb : b = a
  · subst hb
    simp only [Function.update_self, if_true, Thread.preempt]
    split <;> rfl
  · simp [hb]

namespace State

@[simp] theorem switched_tp (s : State) (n : Addr) (t : Thread) : (s.switched n t).tp = n := rfl

@[simp] theorem switched_runQueue (s : State) (n : Addr) (t : Thread) :
    (s.switched n t).runQueue = s.runQueue := rfl

@[simp] theorem switched_nrThreads (s : State) (n : Addr) (t : Thread) :
    (s.switched n t).nrThreads = s.nrThreads := rfl

@[simp] theorem switched_heap_self (s : State) (n : Addr) (t : Thread) :
    (s.switched n t).heap n = some { t with status := .running } := by
  simp [switched]

theorem switched_heap_of_ne {s : State} {n a : Addr} {t : Thread} (h : a ≠ n) :
    (s.switched n t).heap a = (s.heap a).map .preempt := by
  simp [switched, h]

/-- Every thread after a switch, with its struct before. -/
theorem switched_some {s : State} {n a : Addr} {t u : Thread} (ht : s.heap n = some t)
    (h : (s.switched n t).heap a = some u) :
    ∃ v, s.heap a = some v ∧
      ((a = n ∧ u = { v with status := .running }) ∨ (a ≠ n ∧ u = v.preempt)) := by
  by_cases ha : a = n
  · subst ha
    rw [switched_heap_self] at h
    exact ⟨t, ht, .inl ⟨rfl, (Option.some.inj h).symm⟩⟩
  · rw [switched_heap_of_ne ha, Option.map_eq_some_iff] at h
    obtain ⟨v, hv, rfl⟩ := h
    exact ⟨v, hv, .inr ⟨ha, rfl⟩⟩

end State

/-- Switching to a thread of the queue establishes the invariant. -/
theorem Queue.switched (h : Queue s q) (ht : s.heap a = some t) :
    Inv (s.switched a t) q := by
  have hpids : ∀ b v, (s.switched a t).heap b = some v →
      ∃ w, s.heap b = some w ∧ w.pid = v.pid := by
    intro b v hb
    obtain ⟨w, hw, ⟨-, rfl⟩ | ⟨-, rfl⟩⟩ := State.switched_some ht hb
    · exact ⟨w, hw, rfl⟩
    · exact ⟨w, hw, by simp⟩
  refine ⟨⟨h.ring.congr fun b _ v hb => ?_, fun b => ?_, ?_, ?_, ?_, ?_, ?_, ?_, h.nrThreads_le⟩,
    ?_⟩
  · by_cases hba : b = a
    · subst hba
      cases ht.symm.trans hb
      exact ⟨_, State.switched_heap_self .., rfl⟩
    · exact ⟨v.preempt, by rw [State.switched_heap_of_ne hba, hb, Option.map_some], by simp⟩
  · rw [h.mem_iff]
    by_cases hba : b = a
    · subst hba
      simp [ht]
    · simp [State.switched_heap_of_ne hba]
  · rw [State.switched_heap_of_ne (by rintro rfl; rw [h.null] at ht; cases ht), h.null]
    rfl
  · obtain ⟨i, hi, hi₀, hi₁⟩ := h.idle
    by_cases hia : s.runQueue = a
    · subst hia
      cases ht.symm.trans hi
      exact ⟨_, State.switched_heap_self .., hi₀, rfl⟩
    · exact ⟨i.preempt, by rw [State.switched_runQueue, State.switched_heap_of_ne hia, hi]; rfl,
        by simpa using hi₀, by simpa using hi₁⟩
  · intro b c v w hb hc hvw
    obtain ⟨v', hv', hv⟩ := hpids b v hb
    obtain ⟨w', hw', hw⟩ := hpids c w hc
    exact h.pid_inj b c v' w' hv' hw' (by omega)
  · intro b v hb
    obtain ⟨v', hv', hv⟩ := hpids b v hb
    have := h.pid_range b v' hv'
    simp only [State.switched_nrThreads]
    omega
  · intro b v hb hv
    obtain ⟨w, -, ⟨rfl, -⟩ | ⟨-, rfl⟩⟩ := State.switched_some ht hb
    · rfl
    · exact (w.preempt_not_running hv).elim
  · exact (h.mem_iff a).2 ⟨t, ht⟩
  · intro v hv
    rw [State.switched_tp, State.switched_heap_self] at hv
    cases hv
    rfl

/-- `schedule` goes on with the first thread that can run, from the one after the current. -/
theorem schedule_find {prev : Thread} {q' : List Addr} (h : Queue s q)
    (hprev : s.heap s.tp = some prev) (hring : Ring s.heap Thread.next prev.next q')
    (hperm : q'.Perm q) :
    ∃ n t, q'.find? (fun x => (s.heap x).any fun t => t.status.isRunnable) = some n ∧
      s.heap n = some t ∧ t.status.isRunnable ∧ schedule s = some (s.switched n t) := by
  obtain ⟨i, hi, -, hirun⟩ := h.idle
  have hfind := findFrom_eq (p := fun t => t.status.isRunnable) hring
    (hperm.length_eq.trans_le h.length_le)
  have hmem : s.runQueue ∈ q' := hperm.mem_iff.2 h.ring.head_mem
  cases hf : q'.find? fun x => (s.heap x).any fun t => t.status.isRunnable with
  | none =>
    have := List.find?_eq_none.1 hf _ hmem
    simp [hi, hirun] at this
  | some n =>
    have hp := List.find?_some hf
    obtain ⟨t, ht⟩ := (h.mem_iff n).1 (hperm.mem_iff.1 (List.mem_of_find?_eq_some hf))
    rw [ht] at hp
    refine ⟨n, t, rfl, ht, by simpa using hp, ?_⟩
    rw [schedule, if_neg h.tp_ne_zero, hprev]
    simp only [Option.bind_eq_bind, Option.bind_some, pickNext, walk, hfind, hf, Option.pure_def]
    exact switchTo_eq h ht

/-- **`schedule` finds a thread that can run.** There is always one, because the idle thread never
blocks and never ends. -/
theorem schedule_eq (h : Queue s q) :
    ∃ n t, s.heap n = some t ∧ t.status.isRunnable ∧ schedule s = some (s.switched n t) := by
  obtain ⟨prev, hprev⟩ := h.exists_current
  obtain ⟨q', hring, hperm⟩ := h.ring.rotate h.tp_mem hprev
  obtain ⟨n, t, -, ht⟩ := schedule_find h hprev hring hperm
  exact ⟨n, t, ht⟩

end BareMetalOS.Sched
