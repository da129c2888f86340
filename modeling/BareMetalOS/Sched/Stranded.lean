import BareMetalOS.Sched.Waitpid

/-!
# Waiting for a process that has ended

`sys_waitpid` blocks its caller on any process it finds on the run queue, but a thread that ends
wakes only its parent. A caller that is not the parent stays `WAITING` when the process it waits for
ends, and nothing wakes it later: it is `Stranded`.

`Heard` says that every thread which waits for the one about to end is its parent (or that thread
itself, which waits for its own end). Along the runs whose steps are of this kind no thread is ever
stranded, and a step of any other kind strands one (`not_stranded_of_heard`).
-/

namespace BareMetalOS.Sched

open Memory (Addr)

variable {k k' : Kernel} {s s' : State} {q : List Addr} {a b w : Addr} {t t' u v : Thread} {p : ℤ}

/-- The thread at `a` is `WAITING` in `sys_waitpid(p)`. -/
def WaitsFor (k : Kernel) (a : Addr) (t : Thread) (p : ℤ) : Prop :=
  k.sched.heap a = some t ∧ t.status = .waiting ∧ k.call a = some (.waitpid p)

/-- A thread is `WAITING` in `sys_waitpid(p)` although the process `p` has ended. -/
def Stranded (k : Kernel) : Prop := ∃ a t p, WaitsFor k a t p ∧ Ended k.sched p

/-- If a process ends in the step, then the other threads that wait for it can run after it. -/
def EndWakes (k k' : Kernel) : Prop :=
  ∀ a t p, WaitsFor k a t p → t.pid ≠ p → ¬ Ended k.sched p → Ended k'.sched p →
    ∃ t', k'.sched.heap a = some t' ∧ t'.status.isRunnable

/-- The operation ends the thread `t`. -/
def Op.Ends (s : State) (op : Op) (t : Thread) : Prop :=
  match op with
  | .threadExit => s.heap s.tp = some t
  | .sysStop pid => 0 < pid ∧ t.pid = pid ∧ t.status.isZombie = false
  | .sysKill pid signum => (0 ≤ signum ∧ signum < 32 ∧ 0 < pid) ∧ t.pid = pid ∧
    t.status.isZombie = false ∧ t.signalHandler signum.toNat = 0
  | _ => False

/-- Every thread that waits for a thread which the step ends is its parent, or the thread itself. -/
def Heard (k : Kernel) : KOp → Prop
  | .thread op => ∀ a t, k.sched.heap a = some t → op.Ends k.sched t →
    ∀ w v, WaitsFor k w v t.pid → w = t.parent ∨ w = a
  | _ => True

/-- A step of the system that meets the condition. -/
def HeardStep (k k' : Kernel) : Prop := ∃ op, KAllowed k op ∧ Heard k op ∧ k.exec op = some k'

/-! ## The step that ends a thread -/

/-- The thread `t` at `a` ends, and another thread goes on if it was the current one. -/
def EndsTo (s : State) (a : Addr) (t : Thread) (s' : State) : Prop :=
  ∃ x : Status, x.isZombie ∧ (s' = endThread s a t x ∨
    ∃ n v, (endThread s a t x).heap n = some v ∧ v.status.isRunnable ∧
      s' = (endThread s a t x).switched n v)

theorem abortThread_endsTo (hq : Inv s q) (ht : s.heap a = some t) (ha : a ≠ s.runQueue)
    (he : (abortThread s a t).map Prod.fst = some s') : EndsTo s a t s' := by
  rw [abortThread] at he
  by_cases htp : a = s.tp
  · subst htp
    obtain ⟨n, v, hv, hr, hs⟩ := scheduleThen_eq (hq.toQueue.endThread ht (x := .aborted) rfl ha) 0
    rw [if_pos (by simp), hs] at he
    exact ⟨.aborted, rfl, .inr ⟨n, v, hv, hr, (Option.some.inj he).symm⟩⟩
  · rw [if_neg (by simpa using htp)] at he
    exact ⟨.aborted, rfl, .inl (Option.some.inj he).symm⟩

/-- The search for the pid of a thread finds this thread. -/
theorem Inv.findPid_self (hq : Inv s q) (ht : s.heap a = some t) :
    findPid s t.pid = some (some a) := by
  rw [hq.findPid_eq]
  rcases hq.walk_pid t.pid with ⟨b, u, hu, hpid, hw⟩ | ⟨hnone, -⟩
  · rw [hw, hq.pid_inj b a u t hu ht hpid]
  · exact (hnone a t ht rfl).elim

/-- An operation that ends a thread does so. -/
theorem exec_endsTo {op : Op} (hq : Inv s q) (ha : Allowed s op) (ht : s.heap a = some t)
    (hop : op.Ends s t) (he : exec s op = some s') : EndsTo s a t s' := by
  cases op with
  | threadExit =>
    obtain rfl : a = s.tp := hq.pid_inj a s.tp t t ht hop rfl
    obtain ⟨n, v, hv, hr, hs⟩ := schedule_eq (hq.toQueue.endThread ht (x := .terminated) rfl ha)
    rw [exec, threadExit, if_neg hq.tp_ne_zero, ht] at he
    exact ⟨.terminated, rfl, .inr ⟨n, v, hv, hr, Option.some.inj (he.symm.trans hs)⟩⟩
  | sysStop pid =>
    obtain ⟨hpos, rfl, hz⟩ := hop
    rw [exec, sysStop, if_neg (by omega), hq.findPid_self ht] at he
    simp only [Option.bind_eq_bind, Option.bind_some, ht, hz, Bool.false_eq_true, if_false] at he
    exact abortThread_endsTo hq ht (hq.ne_runQueue ht hpos) he
  | sysKill pid signum =>
    obtain ⟨⟨hs₀, hs, hpos⟩, rfl, hz, hh⟩ := hop
    rw [exec, sysKill, if_neg (by omega), hq.findPid_self ht] at he
    simp only [Option.bind_eq_bind, Option.bind_some, ht, hz, hh, Bool.false_eq_true, if_false,
      ne_eq, not_true] at he
    exact abortThread_endsTo hq ht (hq.ne_runQueue ht hpos) he
  | _ => exact hop.elim

namespace EndsTo

/-- A thread that can run still can after the switch to the next thread. -/
theorem switched_isRunnable {n : Addr} (hv : s.heap n = some v) (ht : s.heap a = some t)
    (hr : t.status.isRunnable) :
    ∃ t', (s.switched n v).heap a = some t' ∧ t'.status.isRunnable := by
  obtain ⟨t', ht'⟩ := Option.ne_none_iff_exists'.1 ((SameFamily.switched hv).ne_none ht)
  obtain ⟨u, hu, ⟨-, rfl⟩ | ⟨-, rfl⟩⟩ := State.switched_some hv ht'
  · exact ⟨_, ht', rfl⟩
  · cases ht.symm.trans hu
    exact ⟨_, ht', by simpa using hr⟩

/-- The parent that waits for the thread can run again. -/
theorem wakes (h : EndsTo s a t s') (h₀ : t.parent ≠ 0) (hne : t.parent ≠ a)
    (hv : s.heap t.parent = some v) (hw : v.status = .waiting) (hpid : v.waitingPid = t.pid) :
    ∃ v', s'.heap t.parent = some v' ∧ v'.status.isRunnable := by
  obtain ⟨x, -, rfl | ⟨n, u, hu, -, rfl⟩⟩ := h
  · exact ⟨_, endThread_wakes h₀ hne hv hw hpid, rfl⟩
  · exact switched_isRunnable hu (endThread_wakes h₀ hne hv hw hpid) rfl

/-- The thread that ends is no longer `WAITING`. -/
theorem not_waiting (h : EndsTo s a t s') (ht : s.heap a = some t) (hu : s'.heap a = some u) :
    u.status ≠ .waiting := by
  obtain ⟨x, hx, hs⟩ := h
  have hxw : x ≠ .waiting := by
    rintro rfl
    simp [Status.isZombie] at hx
  have hend : ∀ v, (Sched.endThread s a t x).heap a = some v → v.status ≠ .waiting := by
    intro v hv
    obtain ⟨w, -, ⟨-, rfl⟩ | ⟨hne, -⟩⟩ := endThread_some ht hxw hv
    · exact hxw
    · exact (hne rfl).elim
  rcases hs with rfl | ⟨n, v, hv, -, rfl⟩
  · exact hend u hu
  · obtain ⟨w, hw, ⟨-, rfl⟩ | ⟨-, rfl⟩⟩ := State.switched_some hv hu
    · intro h
      cases h
    · rw [Thread.preempt_status]
      split
      · intro h
        cases h
      · exact hend w hw

/-- Any other thread that is `WAITING` stays so. -/
theorem leaves (h : EndsTo s a t s') (ht : s.heap a = some t) (hv : s.heap w = some v)
    (hw : v.status = .waiting) (hne : w ≠ a) (hpar : w ≠ t.parent) : s'.heap w = some v := by
  obtain ⟨x, hx, hs⟩ := h
  have hxw : x ≠ .waiting := by
    rintro rfl
    simp [Status.isZombie] at hx
  have hend : (Sched.endThread s a t x).heap w = some v := by
    obtain ⟨u, hu⟩ := Option.ne_none_iff_exists'.1 ((SameFamily.endThread (x := x) ht).ne_none hv)
    obtain ⟨v', hv', ⟨rfl, -⟩ | ⟨-, rfl | ⟨rfl, -⟩⟩⟩ := endThread_some ht hxw hu
    · exact (hne rfl).elim
    · rw [hu, ← hv', hv]
    · exact (hpar rfl).elim
  rcases hs with rfl | ⟨n, u, hu, hr, rfl⟩
  · exact hend
  · have hn : w ≠ n := by
      rintro rfl
      cases hend.symm.trans hu
      simp [hw, Status.isRunnable] at hr
    rw [State.switched_heap_of_ne hn, hend, Option.map_some, Thread.preempt, if_neg (by simp [hw])]

/-- The process has ended. -/
theorem ended (h : EndsTo s a t s') (hq : Inv s q) (ht : s.heap a = some t) :
    Ended s' t.pid := by
  obtain ⟨x, hx, hs⟩ := h
  have hxw : x ≠ .waiting := by
    rintro rfl
    simp [Status.isZombie] at hx
  have hend : Ended (Sched.endThread s a t x) t.pid := by
    have hpid := hq.pid_range a t ht
    refine ⟨hpid.1, by simpa using hpid.2, fun b u hu hup => ?_⟩
    obtain ⟨v, hv, ⟨-, rfl⟩ | ⟨hne, hu'⟩⟩ := endThread_some ht hxw hu
    · exact hx
    · have hvp : v.pid = t.pid := by
        rcases hu' with rfl | ⟨-, -, -, rfl⟩ <;> exact hup
      exact (hne (hq.pid_inj b a v t hv ht hvp)).elim
  rcases hs with rfl | ⟨n, u, hu, hr, rfl⟩
  · exact hend
  · exact (Evolves.switched hu hr).ended hend

end EndsTo

/-! ## The other steps -/

/-- A thread that ends has been ended by the operation. -/
theorem Lives.exec {op : Op} (h : Lives s b p) (hq : Inv s q) (ha : Allowed s op)
    (he : exec s op = some s') (hne : ∀ u, s.heap b = some u → ¬ op.Ends s u) : Lives s' b p := by
  have hcur : ∀ t, s.heap s.tp = some t → t.status.isZombie = false := fun t ht =>
    Status.not_zombie_of_runnable (hq.current t ht)
  -- the effects of `sys_stop` and `sys_kill` leave the checks on their arguments out
  have hstops : ∀ a t, s.heap a = some t → a ≠ s.runQueue → op.Stops t → s' ≠ s → op.Ends s t := by
    intro a t ht hidle hop hss
    obtain ⟨i, hi, hi₀, -⟩ := hq.idle
    have hpid : 0 < t.pid := by
      have := hq.pid_range a t ht
      have : t.pid ≠ 0 := fun h => hidle (hq.pid_inj a s.runQueue t i ht hi (h.trans hi₀.symm))
      omega
    obtain ⟨hz, rfl | ⟨signum, rfl, hh⟩⟩ := hop
    · exact ⟨hpid, rfl, hz⟩
    · refine ⟨?_, rfl, hz, hh⟩
      by_contra hbad
      rw [Sched.exec, sysKill, if_pos (by omega)] at he
      exact hss (Option.some.inj he).symm
  by_cases hss : s' = s
  · rwa [hss]
  cases effect_of_exec hq ha he with
  | stay => exact h
  | pidUsed mem hn => exact h
  | created hmem h₁ hi hn => exact h.enqueued hmem hi
  | forked hmem h₁ hi hn hc => exact h.enqueued hmem hi
  | @stopped _ a t ht hop hrq htp =>
    refine Lives.endThread h ?_ ht (by intro h; cases h)
    rintro rfl
    exact hne t ht (hstops b t ht hrq hop hss)
  | @ended _ t x n v ht hop hx hidle hv hrun =>
    have hxw : x ≠ .waiting := by
      rintro rfl
      simp [Status.isZombie] at hx
    refine Lives.switched (Lives.endThread h ?_ ht hxw) hv
    rintro rfl
    rcases hop with rfl | hop
    · exact hne t ht ht
    · exact hne t ht (hstops s.tp t ht hidle hop hss)
  | signalled ht hh hz => exact h.set ht rfl hz
  | @registered t _ _ ht => exact h.set ht rfl (hcur t ht)
  | slept ht hidle hv hrun =>
    refine Lives.switched ?_ hv
    exact h.set ht rfl rfl
  | sleepFailed ht => exact h.set ht rfl rfl
  | woke b => exact h.threadWakeupCallback b
  | waited ht hidle hv hrun =>
    refine Lives.switched ?_ hv
    exact h.set ht rfl rfl
  | scheduled hv hrun => exact h.switched hv
  | reaped hs hinv => exact h.reaped hs

/-- A thread that is `WAITING` after a write that does not block it was so before. -/
theorem waiting_of_set (ht' : (s.set b v).heap a = some t') (hw : t'.status = .waiting)
    (hb : s.heap b = some u) (hpid : v.pid = u.pid)
    (hsame : v.status = .waiting → u.status = .waiting ∧ v.waitingPid = u.waitingPid) :
    ∃ t, s.heap a = some t ∧ t.status = .waiting ∧ t'.waitingPid = t.waitingPid ∧
      t'.pid = t.pid := by
  by_cases hab : a = b
  · subst hab
    rw [State.set_heap_self] at ht'
    cases ht'
    exact ⟨u, hb, (hsame hw).1, (hsame hw).2, hpid⟩
  · rw [State.set_heap_of_ne hab] at ht'
    exact ⟨t', ht', hw, rfl, rfl⟩

theorem waiting_of_switched {n : Addr} (hv : s.heap n = some v)
    (ht' : (s.switched n v).heap a = some t') (hw : t'.status = .waiting) :
    s.heap a = some t' := by
  obtain ⟨t, ht, ⟨-, rfl⟩ | ⟨-, rfl⟩⟩ := State.switched_some hv ht'
  · cases hw
  · have hnr : t.status ≠ .running := by
      intro hr
      rw [Thread.preempt_status, if_pos hr] at hw
      cases hw
    rwa [Thread.preempt, if_neg hnr]

theorem waiting_of_endThread {x : Status} (ha : s.heap b = some u) (hx : x.isZombie)
    (ht' : (endThread s b u x).heap a = some t') (hw : t'.status = .waiting) :
    s.heap a = some t' := by
  have hxw : x ≠ .waiting := by
    rintro rfl
    simp [Status.isZombie] at hx
  obtain ⟨t, ht, ⟨-, rfl⟩ | ⟨-, rfl | ⟨-, -, -, rfl⟩⟩⟩ := endThread_some ha hxw ht'
  · exact (hxw hw).elim
  · exact ht
  · cases hw

/-- A thread that is `WAITING` after an operation was so before, or has just blocked. -/
theorem Effect.waiting {op : Op} (he : Effect s op s') (ht' : s'.heap a = some t')
    (hw : t'.status = .waiting) :
    (∃ t, s.heap a = some t ∧ t.status = .waiting ∧ t'.waitingPid = t.waitingPid ∧
      t'.pid = t.pid) ∨
    (a = s.tp ∧ (op = .threadSleep true ∨ op = .sysWaitpid t'.waitingPid)) := by
  cases he with
  | stay => exact .inl ⟨t', ht', hw, rfl, rfl⟩
  | pidUsed mem hn => exact .inl ⟨t', ht', hw, rfl, rfl⟩
  | created hmem h₁ hi hn | forked hmem h₁ hi hn hc =>
    rcases State.enqueued_some hi ht' with ⟨-, rfl⟩ | ⟨-, t, n, ht, rfl⟩
    · cases hw
    · exact .inl ⟨t, ht, hw, rfl, rfl⟩
  | stopped ht hop hrq htp => exact .inl ⟨t', waiting_of_endThread ht rfl ht' hw, hw, rfl, rfl⟩
  | ended ht hop hx hidle hv hrun =>
    have hend := waiting_of_switched hv ht' hw
    exact .inl ⟨t', waiting_of_endThread ht hx hend hw, hw, rfl, rfl⟩
  | signalled ht hh hz => exact .inl (waiting_of_set ht' hw ht rfl fun h => ⟨h, rfl⟩)
  | registered ht => exact .inl (waiting_of_set ht' hw ht rfl fun h => ⟨h, rfl⟩)
  | @slept t n v ht hidle hv hrun =>
    by_cases ha : a = s.tp
    · exact .inr ⟨ha, .inl rfl⟩
    · have hset := waiting_of_switched hv ht' hw
      rw [State.set_heap_of_ne ha] at hset
      exact .inl ⟨t', hset, hw, rfl, rfl⟩
  | sleepFailed ht => exact .inl (waiting_of_set ht' hw ht rfl nofun)
  | woke b =>
    obtain ⟨t, ht, rfl | ⟨-, -, rfl⟩⟩ := threadWakeupCallback_some ht'
    · exact .inl ⟨t', ht, hw, rfl, rfl⟩
    · cases hw
  | @waited t pid n v ht hidle hv hrun =>
    have hset := waiting_of_switched hv ht' hw
    by_cases ha : a = s.tp
    · subst ha
      rw [State.set_heap_self] at hset
      cases hset
      exact .inr ⟨rfl, .inr rfl⟩
    · rw [State.set_heap_of_ne ha] at hset
      exact .inl ⟨t', hset, hw, rfl, rfl⟩
  | scheduled hv hrun => exact .inl ⟨t', waiting_of_switched hv ht' hw, hw, rfl, rfl⟩
  | reaped hs hinv =>
    obtain ⟨t, n, ht, rfl⟩ := hs.old a t' ht'
    exact .inl ⟨t, ht, hw, rfl, rfl⟩

/-! ## Runs -/

/-- A thread in `sys_waitpid(p)` has `waiting_pid` `p`, and `p` is the pid of a process. -/
structure WaitInv (k : Kernel) : Prop where
  queue : ∃ q, Inv k.sched q
  pid : ∀ a t p, WaitsFor k a t p → t.waitingPid = p ∧ 0 ≤ p ∧ p < k.sched.nrThreads

/-- The process that a thread waits for lives, unless the thread is stranded. -/
theorem WaitInv.lives (h : WaitInv k) (hs : ¬ Stranded k) (hw : WaitsFor k a t p) :
    ∃ b, Lives k.sched b p := by
  by_contra hnone
  refine hs ⟨a, t, p, hw, (h.pid a t p hw).2.1, (h.pid a t p hw).2.2, fun b u hu hup => ?_⟩
  by_contra hz
  exact hnone ⟨b, u, hu, hup, by simpa using hz⟩

theorem Lives.not_ended (h : Lives s b p) : ¬ Ended s p := by
  obtain ⟨u, hu, hup, hz⟩ := h
  intro he
  rw [he.2.2 b u hu hup] at hz
  cases hz

/-- A thread that has just gone to sleep is in `thread_sleep`. -/
theorem call_of_threadSleep {op : KOp} (hruns : op.Runs (.threadSleep true))
    (he : k.exec op = some k') (hne : k'.sched.tp ≠ k.sched.tp) :
    ∃ e, k'.call k.sched.tp = some (.sleep e) := by
  cases op with
  | threadSleep usec mem =>
    cases hruns
    obtain ⟨r, -, hr⟩ := Option.bind_eq_some_iff.1 he
    cases hr
    exact ⟨_, (Kernel.resume_call_of_ne hne.symm).trans (Function.update_self ..)⟩
  | thread op =>
    cases hruns
    cases he
  | runTask mem => cases hruns.choose_spec
  | _ => cases hruns

/-- A thread that has just blocked in `sys_waitpid(p)` waits for a process that lives. -/
theorem call_of_sysWaitpid {op : KOp} (hq : Inv k.sched q) (ha : KAllowed k op)
    (hruns : op.Runs (.sysWaitpid p)) (he : k.exec op = some k')
    (hne : k'.sched.tp ≠ k.sched.tp) :
    k'.call k.sched.tp = some (.waitpid p) ∧ ∃ b, Lives k.sched b p := by
  cases op with
  | sysWaitpid pid =>
    cases hruns
    obtain ⟨t, ht⟩ := hq.exists_current
    rw [Kernel.exec, Kernel.sysWaitpid] at he
    rcases sysWaitpid_cases hq ha ht p with ⟨-, hs⟩ | ⟨-, -, hs⟩ | ⟨⟨b, hb⟩, n, v, -, -, -, hs⟩
    · rw [hs] at he
      cases he
      exact (hne rfl).elim
    · rw [hs] at he
      cases he
      exact (hne rfl).elim
    · rw [hs] at he
      cases he
      exact ⟨(Kernel.resume_call_of_ne hne.symm).trans (Function.update_self ..), b, hb⟩
  | thread op =>
    cases hruns
    cases he
  | runTask mem => cases hruns.choose_spec
  | _ => cases hruns

/-- A thread that is in `sys_waitpid` after a step was there before, or has just called it. -/
theorem WaitsFor.step {op : KOp} (hq : Inv k.sched q) (hq' : ∃ q', Inv k'.sched q')
    (ha : KAllowed k op) (he : k.exec op = some k') (hw : WaitsFor k' a t' p) :
    (∃ t, WaitsFor k a t p ∧ t'.waitingPid = t.waitingPid ∧ t'.pid = t.pid) ∨
    (t'.waitingPid = p ∧ ∃ b, Lives k.sched b p ∧ Lives k'.sched b p) := by
  obtain ⟨ht', hst, hcall⟩ := hw
  have haway : k'.sched.tp ≠ a := by
    obtain ⟨q', hq'⟩ := hq'
    rintro rfl
    have := hq'.current t' ht'
    simp [hst, Status.isRunnable] at this
  have hold : ∀ t, k.sched.heap a = some t → t.status = .waiting →
      k.call a = some (.waitpid p) := by
    intro t ht hst
    have hne : k.sched.tp ≠ a := by
      rintro rfl
      have := hq.current t ht
      simp [hst, Status.isRunnable] at this
    rw [← Kernel.exec_call ha he hne haway ht, hcall]
  rcases Kernel.exec_sched ha he with heq | ⟨op', ha', he', hruns⟩
  · rw [heq] at ht'
    exact .inl ⟨t', ⟨ht', hst, hold t' ht' hst⟩, rfl, rfl⟩
  · rcases (effect_of_exec hq ha' he').waiting ht' hst with
      ⟨t, ht, hst', hwp, hpid⟩ | ⟨rfl, rfl | rfl⟩
    · exact .inl ⟨t, ⟨ht, hst', hold t ht hst'⟩, hwp, hpid⟩
    · obtain ⟨e, hc⟩ := call_of_threadSleep hruns he haway
      cases hc.symm.trans hcall
    · obtain ⟨hc, b, hb⟩ := call_of_sysWaitpid hq ha hruns he haway
      cases hc.symm.trans hcall
      exact .inr ⟨rfl, b, hb, hb.exec hq ha' he' fun _ _ h => h.elim⟩

/-- The steps keep the invariant. -/
theorem WaitInv.step (h : WaitInv k) (hs : KStep k k') : WaitInv k' := by
  obtain ⟨q, hq⟩ := h.queue
  have hq' := KStep.inv_run h.queue (.single hs)
  obtain ⟨op, ha, he⟩ := hs
  refine ⟨hq', fun a t' p hw => ?_⟩
  have hn : k.sched.nrThreads ≤ k'.sched.nrThreads := by
    rcases KStep.sched ⟨op, ha, he⟩ with heq | hstep
    · rw [heq]
    · exact (hstep.inv hq).2.nrThreads
  rcases hw.step hq hq' ha he with ⟨t, hw', hwp, -⟩ | ⟨hwp, b, ⟨u, hu, rfl, -⟩, -⟩
  · obtain ⟨h₁, h₂, h₃⟩ := h.pid a t p hw'
    exact ⟨hwp.trans h₁, h₂, by omega⟩
  · have := hq.pid_range b u hu
    exact ⟨hwp, by omega, by omega⟩

/-- An operation of the system that ends a thread is one of the thread system. -/
theorem KOp.Runs.of_ends {op : KOp} {op' : Op} (h : op.Runs op') (he : op'.Ends s t) :
    op = .thread op' := by
  cases op' with
  | threadExit | sysStop | sysKill => exact h.eq_thread nofun nofun nofun nofun
  | _ => exact he.elim

/-- The process that a thread waits for ends only if it is that thread or wakes it. -/
theorem WaitInv.woken {op : KOp} (h : WaitInv k) (hs : ¬ Stranded k) (ha : KAllowed k op)
    (he : k.exec op = some k') (hop : Heard k op) (hw : WaitsFor k a t p)
    (hend : Ended k'.sched p) :
    (t.pid = p ∧ EndsTo k.sched a t k'.sched) ∨
      ∃ t', k'.sched.heap a = some t' ∧ t'.status.isRunnable := by
  obtain ⟨q, hq⟩ := h.queue
  obtain ⟨b, hb⟩ := h.lives hs hw
  rcases Kernel.exec_sched ha he with heq | ⟨op', ha', he', hruns⟩
  · rw [heq] at hend
    exact (hb.not_ended hend).elim
  obtain ⟨u, hu, hup, -⟩ := id hb
  by_cases hends : op'.Ends k.sched u
  · obtain rfl := hruns.of_ends hends
    have hto := exec_endsTo hq ha' hu hends he'
    by_cases hab : a = b
    · subst hab
      cases hw.1.symm.trans hu
      exact .inl ⟨hup, hto⟩
    · subst hup
      obtain rfl := (hop b u hu hends a t hw).resolve_right hab
      have h₀ : u.parent ≠ 0 := by
        intro h₀
        have hnull := hq.null
        rw [← h₀, hw.1] at hnull
        cases hnull
      exact .inr (hto.wakes h₀ hab hw.1 hw.2.1 (h.pid _ _ _ hw).1)
  · refine (Lives.not_ended (Lives.exec hb hq ha' he' fun v hv => ?_) hend).elim
    rwa [← Option.some.inj (hu.symm.trans hv)]

/-- **One step.** If every thread that waits for the one about to end is its parent, then no thread
is stranded. -/
theorem WaitInv.heard {op : KOp} (h : WaitInv k) (hs : ¬ Stranded k) (ha : KAllowed k op)
    (he : k.exec op = some k') (hop : Heard k op) : ¬ Stranded k' ∧ EndWakes k k' := by
  obtain ⟨q, hq⟩ := h.queue
  have hq' := KStep.inv_run h.queue (.single ⟨op, ha, he⟩)
  refine ⟨?_, fun a t p hw hne _ hend => ?_⟩
  · rintro ⟨a, t', p, hw', hend⟩
    rcases hw'.step hq hq' ha he with ⟨t, hw, -⟩ | ⟨-, b, -, hb⟩
    · rcases h.woken hs ha he hop hw hend with ⟨-, hto⟩ | ⟨u, hu, hrun⟩
      · exact hto.not_waiting hw.1 hw'.1 hw'.2.1
      · cases hu.symm.trans hw'.1
        simp [hw'.2.1, Status.isRunnable] at hrun
    · exact hb.not_ended hend
  · exact (h.woken hs ha he hop hw hend).resolve_left fun h => hne h.1

/-- The end of a thread strands every other thread that waits for it and is not its parent. -/
theorem WaitInv.stranded (h : WaitInv k) (op : KOp) (ha : KAllowed k op) (he : k.exec op = some k')
    (hop : ¬ Heard k op) : Stranded k' := by
  obtain ⟨q, hq⟩ := h.queue
  have hq' := KStep.inv_run h.queue (.single ⟨op, ha, he⟩)
  cases op with
  | thread op =>
    simp only [Heard, not_forall, not_or] at hop
    obtain ⟨a, t, ht, hends, w, v, hw, hpar, hne⟩ := hop
    obtain ⟨s', hs', rfl⟩ := Kernel.exec_thread he
    have hto := exec_endsTo hq ha ht hends hs'
    have hv := hto.leaves ht hw.1 hw.2.1 hne hpar
    -- the waiting thread is not the one that goes on, so that it stays in its call
    have haway : ∀ s : State, (∃ q, Inv s q) → s.heap w = some v → s.tp ≠ w := by
      rintro s ⟨q, hq⟩ hv rfl
      have := hq.current v hv
      simp [hw.2.1, Status.isRunnable] at this
    refine ⟨w, v, t.pid, ⟨hv, hw.2.1, ?_⟩, hto.ended hq ht⟩
    rw [Kernel.exec_call ha he (haway _ ⟨q, hq⟩ hw.1) (haway _ hq' hv) hw.1]
    exact hw.2.2
  | _ => exact (hop trivial).elim

theorem Booted.waitInv (h : Booted k) : WaitInv k ∧ ¬ Stranded k := by
  have hcall : ∀ a t p, ¬ WaitsFor k a t p := by
    intro a t p hw
    cases (h.call a).symm.trans hw.2.2
  exact ⟨⟨h.inv.queue, fun a t p hw => (hcall a t p hw).elim⟩,
    fun ⟨a, t, p, hw, _⟩ => hcall a t p hw⟩

theorem WaitInv.run {k₀ : Kernel} (hb : Booted k₀) (hr : Relation.ReflTransGen HeardStep k₀ k) :
    WaitInv k ∧ ¬ Stranded k := by
  induction hr with
  | refl => exact hb.waitInv
  | tail _ hstep ih =>
    obtain ⟨op, ha, hop, he⟩ := hstep
    exact ⟨ih.1.step ⟨op, ha, he⟩, (ih.1.heard ih.2 ha he hop).1⟩

/-- **Main.** Along the runs in which only parents wait for the threads that end, no thread is
stranded and every end makes the waiting threads `READY`. From there a step keeps this exactly if it
is of the same kind. -/
theorem not_stranded_of_heard {k₀ : Kernel} (hb : Booted k₀)
    (hr : Relation.ReflTransGen HeardStep k₀ k) :
    ¬ Stranded k ∧ ∀ op k', KAllowed k op → k.exec op = some k' →
      (¬ Stranded k' ∧ EndWakes k k' ↔ Heard k op) := by
  obtain ⟨hi, hs⟩ := WaitInv.run hb hr
  refine ⟨hs, fun op k' ha he => ⟨fun h => ?_, hi.heard hs ha he⟩⟩
  by_contra hop
  exact h.1 (hi.stranded op ha he hop)

theorem HeardStep.run (h : Relation.ReflTransGen HeardStep k k') :
    Relation.ReflTransGen KStep k k' := by
  refine h.lift id fun k k' hs => ?_
  obtain ⟨op, ha, -, he⟩ := hs
  exact ⟨op, ha, he⟩

/-- A process (at `0x2000`) forks a child (at `0x3000`, pid 2) and waits for it. The exit of the
child makes it `READY`. -/
theorem not_stranded_of_heard_parent : ∃ k k', Relation.ReflTransGen HeardStep .boot k ∧
    (∃ t, WaitsFor k 0x2000 t 2) ∧ k.exec (.thread .threadExit) = some k' ∧ ¬ Stranded k' ∧
    EndWakes k k' := by
  have hrun : Relation.ReflTransGen HeardStep .boot _ := .tail (.tail (.tail (.tail (.tail .refl
    ⟨.thread (.threadCreate 0x2000), rfl, fun _ _ _ h => h.elim, rfl⟩)
    ⟨.thread .schedule, trivial, fun _ _ _ h => h.elim, rfl⟩)
    ⟨.thread (.sysFork 0x3000 true), rfl, fun _ _ _ h => h.elim, rfl⟩)
    ⟨.sysWaitpid 2, by unfold KAllowed; decide +kernel, trivial, rfl⟩)
    ⟨.thread .schedule, trivial, fun _ _ _ h => h.elim, rfl⟩
  refine ⟨_, _, hrun, ⟨_, rfl, rfl, rfl⟩, rfl, ?_⟩
  refine ((not_stranded_of_heard booted_boot hrun).2 (.thread .threadExit) _
    (by unfold KAllowed Allowed; decide +kernel) rfl).2 ?_
  -- only the parent is in a call
  have hcall : ∀ w c, Function.update (Function.update (Function.update (Function.update
      (Function.update (Function.update (fun _ : Addr => (none : Option Call)) 0x2000 none)
      0x2000 none) 0x3000 none) 0x2000 (some (.waitpid 2))) 0x1000 none) 0x3000 none w = some c →
      w = 0x2000 := by
    intro w c hc
    simp only [Function.update_apply] at hc
    grind
  intro a t ht hends w v hw
  cases hends
  exact .inl (hcall w _ hw.2.2)

/-- A process (at `0x2000`) forks two children (at `0x3000` and `0x4000`, pids 2 and 3). The second
waits for the first, which exits. -/
theorem stranded_sibling : ∃ k, Relation.ReflTransGen KStep .boot k ∧ Stranded k := by
  have hrun : Relation.ReflTransGen HeardStep .boot _ :=
    .tail (.tail (.tail (.tail (.tail (.tail (.tail .refl
    ⟨.thread (.threadCreate 0x2000), rfl, fun _ _ _ h => h.elim, rfl⟩)
    ⟨.thread .schedule, trivial, fun _ _ _ h => h.elim, rfl⟩)
    ⟨.thread (.sysFork 0x3000 true), rfl, fun _ _ _ h => h.elim, rfl⟩)
    ⟨.thread (.sysFork 0x4000 true), rfl, fun _ _ _ h => h.elim, rfl⟩)
    ⟨.thread .schedule, trivial, fun _ _ _ h => h.elim, rfl⟩)
    ⟨.thread .schedule, trivial, fun _ _ _ h => h.elim, rfl⟩)
    ⟨.sysWaitpid 2, by unfold KAllowed; decide +kernel, trivial, rfl⟩
  refine ⟨_, .tail (HeardStep.run hrun) ⟨.thread .threadExit,
    by unfold KAllowed Allowed; decide +kernel, rfl⟩, ?_⟩
  refine (WaitInv.run booted_boot hrun).1.stranded (.thread .threadExit)
    (by unfold KAllowed Allowed; decide +kernel) rfl fun h => ?_
  exact absurd (h 0x3000 _ rfl rfl 0x4000 _ ⟨rfl, rfl, rfl⟩) (by decide +kernel)

end BareMetalOS.Sched
