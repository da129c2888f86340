import BareMetalOS.Sched.Pointers

/-!
# Waiting for a child

A process forks a child and calls `sys_waitpid` with its pid. If the child has not been reaped yet
the call returns this pid: at once if the child has ended, and otherwise after the process has been
blocked until then. The wake-up is not lost, whatever the other threads do meanwhile
(`Blocked.step`), and a thread that can run gets its turn after finitely many calls of `schedule`
(`goesOn_of_runnable`). A child that `kill_zombies` has already reaped is not found on the run
queue, and the call returns `-1`.

So the call returns the pid of the child exactly when the child has not been reaped before the call
(`waitpidReturns_iff`).
-/

namespace BareMetalOS.Sched

open Memory (Addr)

variable {k k' : Kernel} {s s' : State} {q : List Addr} {a b : Addr} {t t' u : Thread} {p c : ℤ}

/-! ## The result of the call -/

/-- The value a blocked call returns when its thread goes on. -/
def Call.value : Call → ℤ
  | .sleep _ => 0
  | .waitpid pid => pid

/-- A step after which the thread at `a` has not gone on. -/
def AwayStep (a : Addr) (k k' : Kernel) : Prop := KStep k k' ∧ k'.sched.tp ≠ a

/-- A call of `schedule`. -/
def Reschedule (k k' : Kernel) : Prop := k.exec (.thread .schedule) = some k'

/-- Finitely many calls of `schedule` let the thread at `a` go on. -/
def GoesOn (k : Kernel) (a : Addr) : Prop :=
  ∃ k', Relation.ReflTransGen Reschedule k k' ∧ k'.sched.tp = a

/-- The call `sys_waitpid(pid)` of the current thread returns `v`. Either it does so at once, or the
thread is blocked, and as long as it has neither gone on nor ended it is in a call that returns `v`;
it gets its turn if the process `pid` has ended. -/
def WaitpidReturns (k : Kernel) (pid v : ℤ) : Prop :=
  (∃ s', sysWaitpid k.sched pid = some (s', some v)) ∨
  ∃ k₁ t, k.exec (.sysWaitpid pid) = some k₁ ∧ k₁.sched.tp ≠ k.sched.tp ∧
    k.sched.heap k.sched.tp = some t ∧
    ∀ k₂, Relation.ReflTransGen (AwayStep k.sched.tp) k₁ k₂ →
      Ended k₂.sched t.pid ∨
      ((∃ t₂, k₂.sched.heap k.sched.tp = some t₂ ∧ t₂.pid = t.pid) ∧
        (∃ c, k₂.call k.sched.tp = some c ∧ c.value = v) ∧
        (Ended k₂.sched pid → GoesOn k₂ k.sched.tp))

/-! ## Parent and child -/

/-- The process `p` is at the address `a` and is the parent of the process `c`, as long as they have
not been reaped. -/
structure Related (s : State) (a : Addr) (p c : ℤ) : Prop where
  parent : ∀ b u, s.heap b = some u → u.pid = p → b = a
  child : ∀ b u, s.heap b = some u → u.pid = c → u.parent = a
  parent_lt : p < s.nrThreads
  child_lt : c < s.nrThreads
  ne : p ≠ c

theorem Related.ended (h : Related s a p c) (hq : Inv s q) (ht : s.heap a = some t)
    (hpid : t.pid = p) (hz : t.status.isZombie) : Ended s p := by
  refine ⟨by have := (hq.pid_range a t ht).1; omega, h.parent_lt, fun b u hu hup => ?_⟩
  cases h.parent b u hu hup
  cases ht.symm.trans hu
  exact hz

theorem Related.effect {op : Op} (h : Related s a p c) (hq : Inv s q) (he : Effect s op s') :
    Related s' a p c := by
  have hn := (he.evolves hq).nrThreads
  have hp := h.parent_lt
  have hc := h.child_lt
  -- a thread with one of the two pids was there before
  have hold : ∀ b u, s'.heap b = some u → (u.pid = p ∨ u.pid = c) →
      ∃ w, s.heap b = some w ∧ u.pid = w.pid ∧ u.parent = w.parent := by
    intro b u hu hpid
    cases he.family with
    | same hsame => exact hsame.exists_old hu
    | created mem hmem hop hfam hkeep => exact (hfam b u hu).resolve_left (by omega)
    | forked mem hmem hop hfam hkeep => exact (hfam b u hu).resolve_left (by omega)
    | reaped hop hfam hkeep =>
      obtain ⟨w, hw, hwp, hwpar, -⟩ := hfam b u hu
      exact ⟨w, hw, hwp, hwpar⟩
  refine ⟨fun b u hu hpid => ?_, fun b u hu hpid => ?_, by omega, by omega, h.ne⟩
  · obtain ⟨w, hw, hwp, -⟩ := hold b u hu (.inl hpid)
    exact h.parent b w hw (by omega)
  · obtain ⟨w, hw, hwp, hwpar⟩ := hold b u hu (.inr hpid)
    exact hwpar.trans (h.child b w hw (by omega))

/-- A step of the system keeps the queue and the relation. -/
theorem Related.step (h : Related k.sched a p c) (hq : Inv k.sched q) (hs : KStep k k') :
    (∃ q', Inv k'.sched q') ∧ Related k'.sched a p c := by
  rcases hs.sched with heq | ⟨op, ha, he⟩
  · rw [heq]
    exact ⟨⟨q, hq⟩, h⟩
  · have heff := effect_of_exec hq ha he
    exact ⟨heff.inv hq, h.effect hq heff⟩

theorem Related.run (h : Related k.sched a p c) (hq : ∃ q, Inv k.sched q)
    (hs : Relation.ReflTransGen KStep k k') : (∃ q', Inv k'.sched q') ∧ Related k'.sched a p c := by
  induction hs with
  | refl => exact ⟨hq, h⟩
  | tail _ hstep ih =>
    obtain ⟨⟨q', hq'⟩, hrel⟩ := ih
    exact hrel.step hq' hstep

/-! ## The wake-up is not lost -/

/-- The process `p` is at the address `b` and has not ended. -/
def Lives (s : State) (b : Addr) (p : ℤ) : Prop :=
  ∃ u, s.heap b = some u ∧ u.pid = p ∧ u.status.isZombie = false

namespace Lives

theorem set (h : Lives s b p) (ha : s.heap a = some t) (hpid : u.pid = t.pid)
    (hz : u.status.isZombie = false) : Lives (s.set a u) b p := by
  obtain ⟨v, hv, hvp, hvz⟩ := h
  by_cases hb : b = a
  · subst hb
    cases ha.symm.trans hv
    exact ⟨u, State.set_heap_self .., hpid.trans hvp, hz⟩
  · exact ⟨v, by rw [State.set_heap_of_ne hb, hv], hvp, hvz⟩

theorem switched {n : Addr} {v : Thread} (h : Lives s b p) (hv : s.heap n = some v) :
    Lives (s.switched n v) b p := by
  obtain ⟨u, hu, hup, hz⟩ := h
  by_cases hb : b = n
  · subst hb
    cases hv.symm.trans hu
    exact ⟨_, State.switched_heap_self .., hup, rfl⟩
  · exact ⟨u.preempt, by rw [State.switched_heap_of_ne hb, hu]; rfl, by simpa using hup,
      by simpa using hz⟩

theorem enqueued {i : Thread} {mem : Addr} (h : Lives s b p) (hmem : s.heap mem = none)
    (hi : s.heap s.runQueue = some i) : Lives (s.enqueued mem u i) b p := by
  obtain ⟨v, hv, hvp, hz⟩ := h
  obtain ⟨n, hn⟩ := State.enqueued_keep hi hmem hv
  exact ⟨_, hn, hvp, hz⟩

theorem reaped (h : Lives s b p) (hs : Reaped s s' (q.filter s.zombieAt)) : Lives s' b p := by
  obtain ⟨u, hu, hup, hz⟩ := h
  have hnot : b ∉ q.filter s.zombieAt := by
    rw [List.mem_filter, State.zombieAt_some hu, hz]
    simp
  obtain ⟨n, hn⟩ := hs.keep b u hnot hu
  exact ⟨_, hn, hup, hz⟩

theorem threadWakeupCallback (h : Lives s b p) (a : Addr) :
    Lives (threadWakeupCallback s a) b p := by
  obtain ⟨v, hv, hvp, hz⟩ := h
  obtain ⟨w, hw⟩ := Option.ne_none_iff_exists'.1
    ((SameFamily.threadWakeupCallback s a).ne_none hv)
  obtain ⟨v', hv', rfl | ⟨-, -, rfl⟩⟩ := threadWakeupCallback_some hw
  · cases hv.symm.trans hv'
    exact ⟨_, hw, hvp, hz⟩
  · cases hv.symm.trans hv'
    exact ⟨_, hw, hvp, rfl⟩

/-- The end of another thread. -/
theorem endThread {x : Status} (h : Lives s b p) (hne : b ≠ a) (ha : s.heap a = some t)
    (hx : x ≠ .waiting) : Lives (endThread s a t x) b p := by
  obtain ⟨u, hu, hup, hz⟩ := h
  obtain ⟨u', hu'⟩ := Option.ne_none_iff_exists'.1 ((SameFamily.endThread (x := x) ha).ne_none hu)
  obtain ⟨w, hw, ⟨rfl, -⟩ | ⟨-, rfl | ⟨-, -, -, rfl⟩⟩⟩ := endThread_some ha hx hu'
  · exact (hne rfl).elim
  · cases hu.symm.trans hw
    exact ⟨_, hu', hup, hz⟩
  · cases hu.symm.trans hw
    exact ⟨_, hu', hup, rfl⟩

end Lives

/-- The process `p` at `a` has ended, can run, or waits for the process `c`, which has not ended. -/
def Waits (s : State) (a : Addr) (p c : ℤ) : Prop :=
  ∀ t, s.heap a = some t → t.pid = p → t.status.isZombie ∨ t.status.isRunnable ∨
    (t.status = .waiting ∧ t.waitingPid = c ∧
      ∃ b u, s.heap b = some u ∧ u.pid = c ∧ u.status.isZombie = false)

/-- The end of a child wakes the parent that waits for it. -/
theorem endThread_wakes {x : Status} {v : Thread} (h₀ : t.parent ≠ 0) (hne : t.parent ≠ b)
    (hv : s.heap t.parent = some v) (hw : v.status = .waiting) (hpid : v.waitingPid = t.pid) :
    (endThread s b t x).heap t.parent = some { v with status := .ready, waitingPid := -1 } := by
  rw [endThread, wakeParent, if_neg h₀, State.set_heap_of_ne hne, hv]
  simp only [hw, hpid, true_or, and_self, if_true, State.set_heap_self]

namespace Waits

/-- The thread at `a` is as before, and no thread has ended. -/
theorem of_same (h : Waits s a p c)
    (hold : ∀ t', s'.heap a = some t' → ∃ t, s.heap a = some t ∧ t.pid = t'.pid ∧
      t'.waitingPid = t.waitingPid ∧ (t'.status = t.status ∨ t'.status.isRunnable))
    (hkeep : ∀ b, Lives s b c → Lives s' b c) : Waits s' a p c := by
  intro t' ht' hpid
  obtain ⟨t, ht, htp, hw, hst | hrun⟩ := hold t' ht'
  · rw [hst, hw]
    refine (h t ht (htp.trans hpid)).imp_right (Or.imp_right fun ⟨h₁, h₂, b, hb⟩ => ?_)
    exact ⟨h₁, h₂, b, hkeep b hb⟩
  · exact .inr (.inl hrun)

/-- A write that ends no thread and does not block the thread at `a`. -/
theorem set (h : Waits s a p c) (hb : s.heap b = some t) (hpid : u.pid = t.pid)
    (hz : u.status.isZombie = false)
    (hsame : b = a → u.waitingPid = t.waitingPid ∧ u.status = t.status) :
    Waits (s.set b u) a p c := by
  refine h.of_same (fun t' ht' => ?_) fun d hd => hd.set hb hpid hz
  by_cases hne : a = b
  · subst hne
    rw [State.set_heap_self] at ht'
    cases ht'
    exact ⟨t, hb, hpid.symm, (hsame rfl).1, .inl (hsame rfl).2⟩
  · rw [State.set_heap_of_ne hne] at ht'
    exact ⟨t', ht', rfl, rfl, .inl rfl⟩

theorem switched {n : Addr} {v : Thread} (h : Waits s a p c) (hv : s.heap n = some v) :
    Waits (s.switched n v) a p c := by
  refine h.of_same (fun t' ht' => ?_) fun b hb => hb.switched hv
  obtain ⟨t, ht, ⟨-, rfl⟩ | ⟨-, rfl⟩⟩ := State.switched_some hv ht'
  · exact ⟨t, ht, rfl, rfl, .inr rfl⟩
  · refine ⟨t, ht, by simp, by simp, ?_⟩
    rw [Thread.preempt_status]
    split
    · exact .inr rfl
    · exact .inl rfl

theorem enqueued {i : Thread} {mem : Addr} (h : Waits s a p c) (hmem : s.heap mem = none)
    (hi : s.heap s.runQueue = some i) (hu : u.status.isRunnable) :
    Waits (s.enqueued mem u i) a p c := by
  by_cases ha : a = mem
  · subst ha
    intro t' ht' _
    rw [State.enqueued_heap_self] at ht'
    cases ht'
    exact .inr (.inl hu)
  refine h.of_same (fun t' ht' => ?_) fun b hb => hb.enqueued hmem hi
  rcases State.enqueued_some hi ht' with ⟨rfl, -⟩ | ⟨-, w, n, hw, rfl⟩
  · exact (ha rfl).elim
  · exact ⟨w, hw, rfl, rfl, .inl rfl⟩

theorem reaped (h : Waits s a p c) (hs : Reaped s s' (q.filter s.zombieAt)) :
    Waits s' a p c := by
  refine h.of_same (fun t' ht' => ?_) fun b hb => hb.reaped hs
  obtain ⟨t, n, ht, rfl⟩ := hs.old a t' ht'
  exact ⟨t, ht, rfl, rfl, .inl rfl⟩

theorem threadWakeupCallback (h : Waits s a p c) (b : Addr) :
    Waits (threadWakeupCallback s b) a p c := by
  refine h.of_same (fun t' ht' => ?_) fun d hd => hd.threadWakeupCallback b
  obtain ⟨t, ht, rfl | ⟨-, -, rfl⟩⟩ := threadWakeupCallback_some ht'
  · exact ⟨t', ht, rfl, rfl, .inl rfl⟩
  · exact ⟨t, ht, rfl, rfl, .inr rfl⟩

/-- The end of a thread. If it is the process `c` it wakes its parent. -/
theorem endThread {x : Status} (h : Waits s a p c) (hrel : Related s a p c) (h₀ : a ≠ 0)
    (hb : s.heap b = some t) (hx : x.isZombie) : Waits (endThread s b t x) a p c := by
  have hxw : x ≠ .waiting := by rintro rfl; simp [Status.isZombie] at hx
  intro t' ht' hpid
  obtain ⟨v, hv, ⟨-, rfl⟩ | ⟨hne, rfl | ⟨-, -, -, rfl⟩⟩⟩ := endThread_some hb hxw ht'
  · exact .inl hx
  · refine (h _ hv hpid).imp_right (Or.imp_right ?_)
    rintro ⟨hw, hwc, d, hd⟩
    by_cases hdb : d = b
    · subst hdb
      obtain ⟨u, hu, huc, -⟩ := hd
      cases hb.symm.trans hu
      cases hrel.child d t hu huc
      rw [endThread_wakes h₀ hne hv hw (hwc.trans huc.symm)] at ht'
      rw [← Option.some.inj ht'] at hw
      cases hw
    · exact ⟨hw, hwc, d, Lives.endThread hd hdb hb hxw⟩
  · exact .inr (.inl rfl)

theorem effect {op : Op} (h : Waits s a p c) (hrel : Related s a p c) (hq : Inv s q) (h₀ : a ≠ 0)
    (hne : s.tp ≠ a) (he : Effect s op s') : Waits s' a p c := by
  have hcur : ∀ t, s.heap s.tp = some t → t.status.isZombie = false := fun t ht =>
    Status.not_zombie_of_runnable (hq.current t ht)
  cases he with
  | stay => exact h
  | pidUsed mem hn => exact h
  | created hmem h₁ hi hn => exact h.enqueued hmem hi rfl
  | forked hmem h₁ hi hn hc => exact h.enqueued hmem hi rfl
  | stopped ht hop hrq htp => exact h.endThread hrel h₀ ht rfl
  | ended ht hop hx hidle hv hrun => exact (h.endThread hrel h₀ ht hx).switched hv
  | signalled ht hh hz => exact h.set ht rfl hz fun _ => ⟨rfl, rfl⟩
  | @registered t _ _ ht => exact h.set ht rfl (hcur t ht) fun _ => ⟨rfl, rfl⟩
  | slept ht hidle hv hrun =>
    refine Waits.switched ?_ hv
    exact h.set ht rfl rfl fun heq => (hne heq).elim
  | sleepFailed ht => exact h.set ht rfl rfl fun heq => (hne heq).elim
  | woke b => exact h.threadWakeupCallback b
  | waited ht hidle hv hrun =>
    refine Waits.switched ?_ hv
    exact h.set ht rfl rfl fun heq => (hne heq).elim
  | scheduled hv hrun => exact h.switched hv
  | reaped hs hinv => exact h.reaped hs

end Waits

/-! ## The blocked caller -/

@[simp] theorem addTimerTicks_call (k : Kernel) (callback : Callback) (ticks : BitVec 64)
    (mem : Bool) : (addTimerTicks k callback ticks mem).call = k.call := by
  rw [addTimerTicks]
  split <;> rfl

theorem runTask_call {mem : Bool} (he : runTask k mem = some k') : k'.call = k.call := by
  simp only [runTask, Option.bind_eq_bind, Option.bind_eq_some_iff] at he
  obtain ⟨c, -, he⟩ := he
  split at he
  · cases he
    rfl
  · split at he
    · cases he
      rfl
    · cases he
      rename_i n tasks _ _
      cases n.callback <;> simp [runCallback]

/-- The call of a thread changes only when the thread stops running or goes on. -/
theorem Kernel.exec_call {op : KOp} (hall : KAllowed k op) (he : k.exec op = some k')
    (hne : k.sched.tp ≠ a) (hne' : k'.sched.tp ≠ a) (ha : k.sched.heap a = some t) :
    k'.call a = k.call a := by
  have hmem : ∀ mem, k.sched.heap mem = none → a ≠ mem := by
    rintro mem hmem rfl
    rw [hmem] at ha
    cases ha
  cases op with
  | addTimeout arg ticks mem =>
    cases he
    simp
  | tick now =>
    cases he
    rfl
  | runTask mem => rw [runTask_call he]
  | threadSleep usec mem =>
    rw [Kernel.exec, Kernel.threadSleep] at he
    cases mem with
    | false =>
      obtain ⟨r, -, hr⟩ := Option.bind_eq_some_iff.1 he
      cases hr
      rfl
    | true =>
      obtain ⟨r, -, hr⟩ := Option.bind_eq_some_iff.1 he
      cases hr
      refine (Kernel.resume_call_of_ne (Ne.symm hne')).trans ?_
      simp [Kernel.block, Function.update_of_ne (Ne.symm hne)]
  | sysWaitpid pid =>
    obtain ⟨r, -, hr⟩ := Option.bind_eq_some_iff.1 he
    split at hr
    · cases hr
      rfl
    · cases hr
      refine (Kernel.resume_call_of_ne (Ne.symm hne')).trans ?_
      exact Function.update_of_ne (Ne.symm hne) ..
  | timerInterrupt clock mem =>
    obtain ⟨s', -, hr⟩ := Option.bind_eq_some_iff.1 he
    cases hr
    exact Kernel.resume_call_of_ne (Ne.symm hne')
  | thread op =>
    obtain ⟨s', -, rfl⟩ := Kernel.exec_thread he
    refine (Kernel.resume_call_of_ne (Ne.symm hne')).trans ?_
    cases op with
    | threadCreate mem => exact Function.update_of_ne (hmem mem hall) ..
    | sysFork mem copied => exact Function.update_of_ne (hmem mem hall) ..
    | _ => rfl

/-- The process `p` at `a` is in the call `sys_waitpid(c)` and has not gone on. -/
structure Blocked (k : Kernel) (a : Addr) (p c : ℤ) : Prop where
  queue : ∃ q, Inv k.sched q
  related : Related k.sched a p c
  waits : Waits k.sched a p c
  away : k.sched.tp ≠ a
  caller : Ended k.sched p ∨
    ∃ t, k.sched.heap a = some t ∧ t.pid = p ∧ k.call a = some (.waitpid c)

/-- **One step.** A process in `sys_waitpid` stays so until it goes on or ends. -/
theorem Blocked.step (h : Blocked k a p c) (h₀ : a ≠ 0) (hs : AwayStep a k k') :
    Blocked k' a p c := by
  obtain ⟨⟨op, ha, he⟩, haway⟩ := hs
  obtain ⟨q, hq⟩ := h.queue
  obtain ⟨hq', hrel⟩ := h.related.step hq ⟨op, ha, he⟩
  have hcall := fun t ht => Kernel.exec_call (a := a) (t := t) ha he h.away haway ht
  rcases Kernel.exec_sched ha he with heq | ⟨op', ha', he', -⟩
  · refine ⟨hq', hrel, by rw [heq]; exact h.waits, haway, ?_⟩
    rw [heq]
    refine h.caller.imp_right fun ⟨t, ht, hpid, hc⟩ => ⟨t, ht, hpid, ?_⟩
    rw [hcall t ht, hc]
  · have heff := effect_of_exec hq ha' he'
    refine ⟨hq', hrel, h.waits.effect h.related hq h₀ h.away heff, haway, ?_⟩
    rcases h.caller with hend | ⟨t, ht, hpid, hc⟩
    · exact .inl ((heff.evolves hq).ended hend)
    · by_cases hz : t.status.isZombie
      · exact .inl ((heff.evolves hq).ended (h.related.ended hq ht hpid hz))
      · obtain ⟨u, hu, hup⟩ := heff.family.keep ht fun _ => by simpa using hz
        exact .inr ⟨u, hu, hup.trans hpid, by rw [hcall t ht, hc]⟩

theorem Blocked.run (h : Blocked k a p c) (h₀ : a ≠ 0)
    (hs : Relation.ReflTransGen (AwayStep a) k k') : Blocked k' a p c := by
  induction hs with
  | refl => exact h
  | tail _ hstep ih => exact ih.step h₀ hstep

/-! ## Threads that can run get their turn -/

/-- The first element of `l₁ ++ a :: l₂` that satisfies `f` comes in `l₁` or is `a`. -/
theorem find?_before {α : Type*} {f : α → Bool} {l₁ l₂ : List α} {a n : α}
    (h : (l₁ ++ a :: l₂).find? f = some n) (ha : f a) :
    n = a ∨ ∃ as bs, l₁ = as ++ n :: bs := by
  rw [List.find?_append] at h
  cases hf : l₁.find? f with
  | none =>
    rw [hf, Option.none_or, List.find?_cons_of_pos ha] at h
    exact .inl (Option.some.inj h).symm
  | some m =>
    rw [hf, Option.some_or] at h
    cases h
    exact .inr (List.append_of_mem (List.mem_of_find?_eq_some hf))

/-- From the thread switched to, a thread that can run is nearer on the queue than before. -/
theorem goesOn_of_ring {q' l₁ l₂ : List Addr} {prev : Thread} (hq : Inv k.sched q)
    (hprev : k.sched.heap k.sched.tp = some prev)
    (hring : Ring k.sched.heap Thread.next prev.next q') (hperm : q'.Perm q)
    (hsplit : q' = l₁ ++ a :: l₂) (ha : k.sched.heap a = some t) (hrun : t.status.isRunnable) :
    GoesOn k a := by
  induction hm : l₁.length using Nat.strong_induction_on
    generalizing k q q' l₁ l₂ prev t with
  | _ m ih =>
  subst hsplit
  obtain ⟨n, v, hfind, hv, hvrun, hs⟩ := schedule_find hq.toQueue hprev hring hperm
  have hstep : Reschedule k (k.resume (k.sched.switched n v)) := by
    show ((schedule k.sched).bind fun s => some (k.resume s)) = _
    rw [hs, Option.bind_some]
  rcases find?_before hfind (by rw [ha]; exact hrun) with rfl | ⟨as, bs, rfl⟩
  · exact ⟨_, .single hstep, rfl⟩
  · have hrot : Ring k.sched.heap Thread.next prev.next (as ++ n :: (bs ++ a :: l₂)) := by
      simpa using hring
    obtain ⟨hring', hperm'⟩ := hrot.rotate_append hv
    have hkeep : ∀ b u, k.sched.heap b = some u → ∃ u', (k.sched.switched n v).heap b = some u' ∧
        u'.next = u.next ∧ (u.status.isRunnable → u'.status.isRunnable) := by
      intro b u hu
      by_cases hb : b = n
      · subst hb
        cases hv.symm.trans hu
        exact ⟨_, State.switched_heap_self .., rfl, fun _ => rfl⟩
      · exact ⟨u.preempt, by rw [State.switched_heap_of_ne hb, hu]; rfl, by simp, by simp⟩
    obtain ⟨t', ht', -, hrun'⟩ := hkeep a t ha
    obtain ⟨k', hk', htp⟩ := ih bs.length (by simp at hm; omega)
      (k := k.resume (k.sched.switched n v)) (hq.toQueue.switched hv)
      (State.switched_heap_self ..) (hring'.congr fun b _ u hu => by
        obtain ⟨u', hu', hn, -⟩ := hkeep b u hu
        exact ⟨u', hu', hn⟩)
      (hperm'.trans (by simpa using hperm)) (by simp; rfl) ht' (hrun' hrun) rfl
    exact ⟨k', .head hstep hk', htp⟩

/-- A thread that can run goes on after finitely many calls of `schedule`. -/
theorem goesOn_of_runnable (hq : Inv k.sched q) (ha : k.sched.heap a = some t)
    (hrun : t.status.isRunnable) : GoesOn k a := by
  obtain ⟨prev, hprev⟩ := hq.exists_current
  obtain ⟨q', hring, hperm⟩ := hq.ring.rotate hq.tp_mem hprev
  obtain ⟨l₁, l₂, hsplit⟩ := List.append_of_mem (hperm.mem_iff.2 ((hq.mem_iff a).2 ⟨t, ha⟩))
  exact goesOn_of_ring hq hprev hring hperm hsplit ha hrun

/-! ## The child is waited for unless it has been reaped -/

/-- The current process of `k` has forked the process `c` earlier in the run. -/
def HasForked (k : Kernel) (c : ℤ) : Prop :=
  ∃ k₀ k₁ k₂ mem p t, Booted k₀ ∧ Relation.ReflTransGen KStep k₀ k₁ ∧
    k₁.sched.heap k₁.sched.tp = some p ∧ KAllowed k₁ (.thread (.sysFork mem true)) ∧
    k₁.exec (.thread (.sysFork mem true)) = some k₂ ∧
    sysFork k₁.sched mem true = some (k₂.sched, some c) ∧ c ≠ -1 ∧
    Relation.ReflTransGen KStep k₂ k ∧ k.sched.heap k.sched.tp = some t ∧ t.pid = p.pid

theorem KStep.inv_run (hq : ∃ q, Inv k.sched q) (hs : Relation.ReflTransGen KStep k k') :
    ∃ q, Inv k'.sched q := by
  induction hs with
  | refl => exact hq
  | tail _ hstep ih =>
    rcases hstep.sched with heq | hstep
    · rwa [heq]
    · obtain ⟨q, hq⟩ := ih
      exact (hstep.inv hq).1

theorem Related.of_fork {mem : Addr} (hq : Inv s q) (ht : s.heap s.tp = some t)
    (hmem : s.heap mem = none) (hf : sysFork s mem true = some (s', some c)) (hc : c ≠ -1) :
    Related s' s.tp t.pid c ∧ 0 ≤ c := by
  have h₀ : mem ≠ 0 := by
    rintro rfl
    rw [sysFork, if_pos rfl] at hf
    cases hf
    exact hc rfl
  obtain ⟨i, hi, -⟩ := hq.idle
  have hexec : exec s (.sysFork mem true) = some s' := by
    rw [exec, hf]
    rfl
  have hn : s.nrThreads < 2 ^ 31 - 1 := exec_takesPid hexec h₀
  cases (sysFork_eq hq hmem h₀ hi hn ht).symm.trans hf
  have hrange := hq.pid_range s.tp t ht
  refine ⟨⟨fun b u hu hp => ?_, fun b u hu hp => ?_, ?_, ?_, by omega⟩, by omega⟩
  · rcases State.enqueued_some hi hu with ⟨-, rfl⟩ | ⟨-, w, n, hw, rfl⟩
    · have : s.nrThreads = t.pid := hp
      omega
    · exact hq.pid_inj b s.tp w t hw ht hp
  · rcases State.enqueued_some hi hu with ⟨-, rfl⟩ | ⟨-, w, n, hw, rfl⟩
    · rfl
    · have hw' := (hq.pid_range b w hw).2
      have : w.pid = s.nrThreads := hp
      omega
  · simp only [State.enqueued]
    omega
  · simp only [State.enqueued]
    omega

theorem HasForked.related (h : HasForked k c) : ∃ q t, Inv k.sched q ∧
    k.sched.heap k.sched.tp = some t ∧ Related k.sched k.sched.tp t.pid c ∧ 0 ≤ c := by
  obtain ⟨k₀, k₁, k₂, mem, p, t, hb, h₁, hp, ha, he, hf, hc, h₂, ht, hpid⟩ := h
  obtain ⟨q₁, hq₁⟩ := KStep.inv_run hb.inv.queue h₁
  obtain ⟨hrel, h₀⟩ := Related.of_fork hq₁ hp ha hf hc
  have hq₂ := KStep.inv_run ⟨q₁, hq₁⟩ (.single ⟨_, ha, he⟩)
  obtain ⟨⟨q, hq⟩, hrel'⟩ := hrel.run hq₂ h₂
  have htp := hrel'.parent _ t ht hpid
  refine ⟨q, t, hq, ht, ?_, h₀⟩
  rw [htp, hpid]
  exact hrel'

/-- The caller after a `sys_waitpid` that found the process `c` alive. -/
theorem blocked_sysWaitpid {n : Addr} {v : Thread} (hq : Inv k.sched q)
    (ha : KAllowed k (.sysWaitpid c)) (ht : k.sched.heap k.sched.tp = some t)
    (hrel : Related k.sched k.sched.tp t.pid c) (hu : k.sched.heap b = some u) (huc : u.pid = c)
    (hz : u.status.isZombie = false)
    (hv : (k.sched.set k.sched.tp { t with status := .waiting, waitingPid := c }).heap n = some v)
    (hne : n ≠ k.sched.tp) (he : k.exec (.sysWaitpid c) = some ((k.block (.waitpid c)).resume
      ((k.sched.set k.sched.tp { t with status := .waiting, waitingPid := c }).switched n v))) :
    Blocked ((k.block (.waitpid c)).resume ((k.sched.set k.sched.tp
      { t with status := .waiting, waitingPid := c }).switched n v)) k.sched.tp t.pid c := by
  obtain ⟨hq', hrel'⟩ := hrel.step hq ⟨_, ha, he⟩
  have hb : b ≠ k.sched.tp := by
    rintro rfl
    cases ht.symm.trans hu
    exact hrel.ne huc
  refine ⟨hq', hrel', Waits.switched ?_ hv, hne, .inr
    ⟨Thread.preempt { t with status := .waiting, waitingPid := c }, ?_, by simp, ?_⟩⟩
  · intro t' ht' _
    rw [State.set_heap_self] at ht'
    cases ht'
    exact .inr (.inr ⟨rfl, rfl, b, u, by rw [State.set_heap_of_ne hb, hu], huc, hz⟩)
  · show ((k.sched.set _ _).switched n v).heap k.sched.tp = _
    rw [State.switched_heap_of_ne hne.symm, State.set_heap_self]
    rfl
  · exact (Kernel.resume_call_of_ne hne.symm).trans (Function.update_self ..)

/-- **`sys_waitpid` returns the pid of a child exactly if the child has not been reaped before the
call.** -/
theorem waitpidReturns_iff (h : HasForked k c) (ha : KAllowed k (.sysWaitpid c)) :
    WaitpidReturns k c c ↔ ∃ b u, k.sched.heap b = some u ∧ u.pid = c := by
  obtain ⟨q, t, hq, ht, hrel, h₀⟩ := h.related
  rcases sysWaitpid_cases hq ha ht c with
    ⟨hnone, hs⟩ | ⟨-, hex, hs⟩ | ⟨⟨b, u, hu, huc, hz⟩, n, v, hv, hrun, hne, hs⟩
  · refine iff_of_false ?_ fun ⟨b, u, hu, huc⟩ => hnone b u hu huc
    rintro (⟨s', hs'⟩ | ⟨k₁, t', he, hne, -⟩)
    · cases hs.symm.trans hs'
      omega
    · rw [Kernel.exec, Kernel.sysWaitpid, hs] at he
      cases he
      exact hne rfl
  · exact iff_of_true (.inl ⟨_, hs⟩) hex
  · have he : k.exec (.sysWaitpid c) = some ((k.block (.waitpid c)).resume ((k.sched.set k.sched.tp
        { t with status := .waiting, waitingPid := c }).switched n v)) := by
      rw [Kernel.exec, Kernel.sysWaitpid, hs]
      rfl
    refine iff_of_true (.inr ⟨_, t, he, hne, ht, fun k₂ hrun₂ => ?_⟩) ⟨b, u, hu, huc⟩
    have hbl := (blocked_sysWaitpid hq ha ht hrel hu huc hz hv hne he).run hq.tp_ne_zero hrun₂
    obtain ⟨q₂, hq₂⟩ := hbl.queue
    rcases hbl.caller with hend | ⟨t₂, ht₂, hpid₂, hcall⟩
    · exact .inl hend
    rcases hbl.waits t₂ ht₂ hpid₂ with hz₂ | hwait
    · exact .inl (hbl.related.ended hq₂ ht₂ hpid₂ hz₂)
    refine .inr ⟨⟨t₂, ht₂, hpid₂⟩, ⟨_, hcall, rfl⟩, fun hend => ?_⟩
    rcases hwait with hrun | ⟨-, -, d, w, hw, hwc, hwz⟩
    · exact goesOn_of_runnable hq₂ ht₂ hrun
    · rw [hend.2.2 d w hw hwc] at hwz
      cases hwz

/-- A process (at `0x2000`) forks a child (at `0x3000`, pid 2) and waits for it. -/
theorem waitpidReturns_iff_fork : ∃ k, HasForked k 2 ∧ WaitpidReturns k 2 2 := by
  have hrun : Relation.ReflTransGen KStep .boot _ := .tail (.tail .refl
    ⟨.thread (.threadCreate 0x2000), rfl, rfl⟩) ⟨.thread .schedule, trivial, rfl⟩
  have hforked : HasForked _ 2 :=
    ⟨.boot, _, _, 0x3000, _, _, booted_boot, hrun, rfl, rfl, rfl, rfl, by decide, .refl, rfl, rfl⟩
  exact ⟨_, hforked, (waitpidReturns_iff hforked (by unfold KAllowed; decide +kernel)).2
    ⟨0x3000, _, rfl, rfl⟩⟩

/-- A process (at `0x2000`) forks a child (at `0x3000`, pid 2). The child exits and is reaped before
the process waits for it. -/
theorem not_waitpidReturns_reaped : ∃ k, HasForked k 2 ∧ KAllowed k (.sysWaitpid 2) ∧
    ¬ WaitpidReturns k 2 2 := by
  have hrun : Relation.ReflTransGen KStep .boot _ := .tail (.tail .refl
    ⟨.thread (.threadCreate 0x2000), rfl, rfl⟩) ⟨.thread .schedule, trivial, rfl⟩
  have hforked : HasForked _ 2 :=
    ⟨.boot, _, _, 0x3000, _, _, booted_boot, hrun, rfl, rfl, rfl, rfl, by decide,
      .tail (.tail (.tail (.tail (.tail (.tail .refl ⟨.thread .schedule, trivial, rfl⟩)
        ⟨.thread .schedule, trivial, rfl⟩)
        ⟨.thread .threadExit, by unfold KAllowed Allowed; decide +kernel, rfl⟩)
        ⟨.thread .schedule, trivial, rfl⟩) ⟨.thread .killZombies, trivial, rfl⟩)
        ⟨.thread .schedule, trivial, rfl⟩, rfl, rfl⟩
  refine ⟨_, hforked, by unfold KAllowed; decide +kernel, ?_⟩
  rintro (⟨s', hs'⟩ | ⟨k₁, t', he, hne, -⟩)
  · cases hs'
  · cases he
    exact hne rfl

end BareMetalOS.Sched
