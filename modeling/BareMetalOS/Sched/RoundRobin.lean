import BareMetalOS.Foundations.Circle
import BareMetalOS.Sched.Stranded

/-!
# The threads take turns

`schedule` goes on with the first thread behind the current one that can run, so that a thread which
can run comes nearer with each call. Other operations do not move it away, but for new threads:
`enqueue` puts these behind the idle thread, which may be between the current thread and the one
that waits.

`exec_round` says once what an operation does to the run queue and to the current thread. The main
result is `roundRobin`: in any run, a thread that can run all the time gets its turn before the run
has more turns than there were threads in between and new threads since.
-/

namespace BareMetalOS.Sched

open Memory (Addr)

variable {k k' : Kernel} {s s' s₁ : State} {q q' : List Addr} {a b : Addr} {t u v : Thread}
  {op : Op}

/-! ## What an operation does to the queue -/

/-- The operation calls `schedule` in a state with the same queue, or the current thread goes on.
Then the queue is the same, or has a new thread behind its head, or has no zombies any more. -/
inductive Round (s : State) (q : List Addr) (op : Op) (s' : State) : List Addr → Prop
  | reschedules (s₁ : State) (hq : Queue s₁ q) (htp : s₁.tp = s.tp) (hs : schedule s₁ = some s') :
      Round s q op s' q
  | same (htp : s'.tp = s.tp) (hop : op ≠ .schedule) : Round s q op s' q
  | adds {mem : Addr} (htp : s'.tp = s.tp) (hop : op ≠ .schedule) (hmem : s.heap mem = none)
      (hc : op.creates = some mem) : Round s q op s' (s.runQueue :: mem :: q.tail)
  | reaps (htp : s'.tp = s.tp) (hop : op ≠ .schedule) :
      Round s q op s' (q.filter fun a => !s.zombieAt a)

/-- The operation goes through with a well-formed queue after it. -/
def Rounds (s : State) (q : List Addr) (op : Op) (s' : State) : Prop :=
  ∃ q', Inv s' q' ∧ Round s q op s' q'

theorem Queue.rounds (h : Queue s₁ q) (htp : s₁.tp = s.tp) (hs : schedule s₁ = some s') :
    Rounds s q op s' := by
  obtain ⟨n, v, hv, -, hs'⟩ := schedule_eq h
  cases hs.symm.trans hs'
  exact ⟨q, h.switched hv, .reschedules s₁ h htp hs⟩

theorem Inv.rounds (h : Inv s' q) (htp : s'.tp = s.tp) (hop : op ≠ .schedule) : Rounds s q op s' :=
  ⟨q, h, .same htp hop⟩

/-- `schedule` at the end of a system call. -/
theorem schedule_of_scheduleThen {x : ℤ} (h : (scheduleThen s x).map Prod.fst = some s') :
    schedule s = some s' := by
  rw [scheduleThen] at h
  cases hs : schedule s with
  | none =>
    rw [hs] at h
    cases h
  | some s₁ =>
    rw [hs] at h
    exact h

theorem abortThread_rounds (hq : Inv s q) (ht : s.heap a = some t) (ha : a ≠ s.runQueue)
    (hop : op ≠ .schedule) (he : (abortThread s a t).map Prod.fst = some s') :
    Rounds s q op s' := by
  rw [abortThread] at he
  by_cases htp : a = s.tp
  · rw [if_pos (by simpa using htp)] at he
    exact (hq.toQueue.endThread ht rfl ha).rounds (by simp) (schedule_of_scheduleThen he)
  · rw [if_neg (by simpa using htp)] at he
    cases he
    exact (hq.endThread ht rfl ha htp).rounds (by simp) hop

/-- **What an operation does to the queue.** -/
theorem exec_round (hq : Inv s q) (ha : Allowed s op) (he : exec s op = some s') :
    Rounds s q op s' := by
  have heff := effect_of_exec hq ha he
  obtain ⟨c, hc⟩ := hq.exists_current
  cases op with
  | schedule => exact hq.toQueue.rounds rfl he
  | threadExit =>
    rw [exec, threadExit, if_neg hq.tp_ne_zero, hc] at he
    exact (hq.toQueue.endThread hc rfl ha).rounds (by simp) he
  | sysStop pid =>
    rw [exec, sysStop] at he
    by_cases hp : pid ≤ 0
    · rw [if_pos hp] at he
      cases he
      exact hq.rounds rfl (by simp)
    rw [if_neg hp, hq.findPid_eq] at he
    rcases hq.walk_pid pid with ⟨a, t, ht, rfl, hw⟩ | ⟨-, hw⟩
    · rw [hw] at he
      simp only [Option.bind_eq_bind, Option.bind_some, ht] at he
      split at he
      · cases he
        exact hq.rounds rfl (by simp)
      · exact abortThread_rounds hq ht (hq.ne_runQueue ht (by omega)) (by simp) he
    · rw [hw] at he
      cases he
      exact hq.rounds rfl (by simp)
  | sysKill pid signum =>
    rw [exec, sysKill] at he
    by_cases hp : signum < 0 ∨ 32 ≤ signum ∨ pid ≤ 0
    · rw [if_pos hp] at he
      cases he
      exact hq.rounds rfl (by simp)
    rw [if_neg hp, hq.findPid_eq] at he
    rcases hq.walk_pid pid with ⟨a, t, ht, rfl, hw⟩ | ⟨-, hw⟩
    · rw [hw] at he
      simp only [Option.bind_eq_bind, Option.bind_some, ht] at he
      split at he
      · cases he
        exact hq.rounds rfl (by simp)
      split at he
      · cases he
        refine Inv.rounds ?_ rfl (by simp)
        exact hq.setSame ht rfl rfl rfl
      · exact abortThread_rounds hq ht (hq.ne_runQueue ht (by omega)) (by simp) he
    · rw [hw] at he
      cases he
      exact hq.rounds rfl (by simp)
  | threadSleep added =>
    rw [exec, threadSleep, if_neg hq.tp_ne_zero, hc] at he
    cases added with
    | true =>
      have hqueue := hq.block ha hc (u := { c with status := .waiting }) rfl rfl (by simp)
      exact hqueue.rounds rfl (schedule_of_scheduleThen he)
    | false =>
      cases he
      refine Inv.rounds ?_ rfl (by simp)
      have hset := hq.setCurrent hc (u := { c with status := .ready }) rfl rfl rfl
      rwa [← State.set_set s s.tp { c with status := .waiting }] at hset
  | sysWaitpid pid =>
    rw [exec, sysWaitpid] at he
    rcases hq.walk_pid pid with ⟨a, t, ht, rfl, hw⟩ | ⟨-, hw⟩
    · rw [hw] at he
      simp only [Option.bind_eq_bind, Option.bind_some, ht] at he
      split at he
      · cases he
        exact hq.rounds rfl (by simp)
      · rw [hc] at he
        have hqueue := hq.block ha hc
          (u := { c with status := .waiting, waitingPid := toInt t.pid }) rfl rfl (by simp)
        exact hqueue.rounds rfl (schedule_of_scheduleThen he)
    · rw [hw] at he
      cases he
      exact hq.rounds rfl (by simp)
  | threadCreate mem =>
    cases heff with
    | stay => exact hq.rounds rfl (by simp)
    | created hmem h₀ hi hn =>
      exact ⟨_, hq.enqueued hmem h₀ hi rfl rfl hn, .adds rfl (by simp) hmem (if_neg h₀)⟩
    | stopped _ hop => rcases hop.2 with h | ⟨_, h, _⟩ <;> cases h
    | ended _ hop =>
      rcases hop with h | hop
      · cases h
      · rcases hop.2 with h | ⟨_, h, _⟩ <;> cases h
  | sysFork mem copied =>
    cases heff with
    | stay => exact hq.rounds rfl (by simp)
    | pidUsed _ hn => exact (hq.skipPid hn).rounds rfl (by simp)
    | forked hmem h₀ hi hn _ =>
      exact ⟨_, hq.enqueued hmem h₀ hi rfl rfl hn,
        .adds rfl (by simp) hmem (if_neg (by simpa using h₀))⟩
    | stopped _ hop => rcases hop.2 with h | ⟨_, h, _⟩ <;> cases h
    | ended _ hop =>
      rcases hop with h | hop
      · cases h
      · rcases hop.2 with h | ⟨_, h, _⟩ <;> cases h
  | sysSignal signum handler =>
    rw [exec, sysSignal] at he
    split at he
    · cases he
      exact hq.rounds rfl (by simp)
    · rw [hc] at he
      cases he
      refine Inv.rounds ?_ rfl (by simp)
      exact hq.setSame hc rfl rfl rfl
  | wakeup a =>
    cases he
    exact (hq.threadWakeupCallback a).rounds (by simp) (by simp)
  | killZombies =>
    obtain ⟨s₁, hs₁, hinv, hreap⟩ := killZombies_spec hq
    rw [exec, hs₁] at he
    cases he
    exact ⟨_, hinv, .reaps hreap.tp (by simp)⟩

/-! ## Coming nearer -/

/-- The thread at `a` can run. -/
def CanRun (s : State) (a : Addr) : Prop := ∃ t, s.heap a = some t ∧ t.status.isRunnable

/-- A thread that can run after a switch could run before it. -/
theorem CanRun.of_switched {n : Addr} (hv : s.heap n = some v) (hrun : v.status.isRunnable)
    (h : CanRun (s.switched n v) a) : CanRun s a := by
  obtain ⟨t, ht, hr⟩ := h
  obtain ⟨w, hw, ⟨rfl, -⟩ | ⟨-, rfl⟩⟩ := State.switched_some hv ht
  · exact ⟨v, hv, hrun⟩
  · exact ⟨w, hw, by simpa using hr⟩

/-- `schedule` gives a thread that can run its turn, or brings it nearer. -/
theorem waits_schedule (hq : Queue s q) (ha : CanRun s' a) (hs : schedule s = some s') :
    s'.tp = a ∨ waits q s'.tp a < waits q s.tp a := by
  obtain ⟨prev, hprev⟩ := hq.exists_current
  obtain ⟨hring, hperm⟩ := hq.ring.around hq.tp_mem hprev
  obtain ⟨n, v, hfind, hv, hrun, hs'⟩ := schedule_find hq hprev hring hperm
  cases hs.symm.trans hs'
  obtain ⟨t, ht, hr⟩ := ha.of_switched hv hrun
  exact waits_of_find? hq.ring.nodup hq.tp_mem ((hq.mem_iff a).2 ⟨t, ht⟩)
    (by simpa [ht] using hr) hfind

/-- An operation that surely calls `schedule`, or after which another thread goes on, is a turn. -/
def turn (schedules : Bool) (s s' : State) : ℕ := if schedules ∨ s'.tp ≠ s.tp then 1 else 0

/-- **One operation.** A turn brings a thread that can run nearer, and only a new thread moves it
away. -/
theorem Round.waits (hq : Inv s q) (hr : Round s q op s' q') (ha : CanRun s a) (ha' : CanRun s' a) :
    s'.tp = a ∨ BareMetalOS.waits q' s'.tp a + turn (decide (op = .schedule)) s s' ≤
      BareMetalOS.waits q s.tp a + op.creates.toList.length := by
  obtain ⟨t, ht, hrun⟩ := ha
  obtain ⟨c, hc⟩ := hq.exists_current
  cases hr with
  | reschedules s₁ hq₁ htp hs =>
    refine (waits_schedule hq₁ ha' hs).imp_right fun hlt => ?_
    rw [htp] at hlt
    rw [turn]
    split <;> omega
  | same htp hop =>
    refine .inr ?_
    simp [turn, htp, hop]
  | @adds mem htp hop hmem hcr =>
    have hne : mem ≠ s.tp := by
      rintro rfl
      rw [hc] at hmem
      cases hmem
    obtain ⟨l, rfl⟩ := hq.ring.exists_cons
    have hle := waits_insert_le (a := a) hq.tp_mem hne
    refine .inr ?_
    simpa [turn, htp, hop, hcr] using hle
  | reaps htp hop =>
    have hkeep : ∀ b u, s.heap b = some u → u.status.isRunnable → (!s.zombieAt b) = true := by
      intro b u hu hr
      rw [State.zombieAt_some hu, Status.not_zombie_of_runnable hr]
      rfl
    have hle := waits_filter_le (p := fun b => !s.zombieAt b) hq.tp_mem
      (hkeep s.tp c hc (hq.current c hc)) (hkeep a t ht hrun)
    refine .inr ?_
    simp only [turn, htp, hop, decide_false, Bool.false_eq_true, ne_eq, not_true_eq_false, or_self,
      if_false]
    omega

/-! ## Runs of the system -/

/-- The operation surely calls `schedule`: it is the timer interrupt, or the idle thread does. -/
def KOp.reschedules : KOp → Bool
  | .timerInterrupt .. | .thread .schedule => true
  | _ => false

/-- The thread that the operation creates. -/
def KOp.creates : KOp → Option Addr
  | .thread op => op.creates
  | _ => none

/-- A run from `k`: its operations, with the states after them. -/
def KRun : Kernel → List (KOp × Kernel) → Prop
  | _, [] => True
  | k, (op, k') :: run => KAllowed k op ∧ k.exec op = some k' ∧ KRun k' run

/-- The turns of a run from `k`. -/
def turns : Kernel → List (KOp × Kernel) → ℕ
  | _, [] => 0
  | k, (op, k') :: run => turn op.reschedules k.sched k'.sched + turns k' run

/-- The number of threads created in a run. -/
def created (run : List (KOp × Kernel)) : ℕ := (run.flatMap fun r => r.1.creates.toList).length

theorem exec_reschedules {op : KOp} (hop : op.reschedules) (he : k.exec op = some k') :
    schedule k.sched = some k'.sched := by
  cases op with
  | timerInterrupt clock mem =>
    simp only [Kernel.exec, handleTimerInterrupt, Option.bind_eq_bind,
      Option.bind_eq_some_iff] at he
    obtain ⟨s, hs, he⟩ := he
    cases he
    exact hs
  | thread op =>
    cases op with
    | schedule =>
      obtain ⟨s, hs, rfl⟩ := Kernel.exec_thread he
      exact hs
    | _ => cases hop
  | _ => cases hop

/-- One operation of the system. -/
theorem kernel_waits {op : KOp} (hq : Inv k.sched q) (hop : KAllowed k op)
    (he : k.exec op = some k') (ha : CanRun k.sched a) (ha' : CanRun k'.sched a) :
    ∃ q', Inv k'.sched q' ∧ (k'.sched.tp = a ∨
      waits q' k'.sched.tp a + turn op.reschedules k.sched k'.sched ≤
        waits q k.sched.tp a + op.creates.toList.length) := by
  by_cases hre : op.reschedules
  · have hs := exec_reschedules hre he
    obtain ⟨q', hq', hr⟩ : Rounds k.sched q .schedule k'.sched := exec_round hq trivial hs
    refine ⟨q', hq', (hr.waits hq ha ha').imp_right fun hle => ?_⟩
    rw [hre]
    exact hle.trans (by simp [Op.creates])
  rcases Kernel.exec_sched hop he with heq | ⟨op', hop', he', hruns⟩
  · rw [heq]
    exact ⟨q, hq, .inr (by simp [turn, hre])⟩
  · obtain ⟨q', hq', hr⟩ := exec_round hq hop' he'
    refine ⟨q', hq', (hr.waits hq ha ha').imp_right fun hle => ?_⟩
    have hcr : op'.creates.toList.length ≤ op.creates.toList.length := by
      cases op with
      | thread op => rw [show op' = op from hruns, KOp.creates]
      | runTask mem =>
        obtain ⟨b, rfl⟩ := hruns
        exact Nat.zero_le _
      | addTimeout | tick => exact hruns.elim
      | _ =>
        rw [show op' = _ from hruns]
        exact Nat.zero_le _
    have hturn : turn op.reschedules k.sched k'.sched ≤
        turn (decide (op' = .schedule)) k.sched k'.sched := by
      unfold turn
      by_cases htp : k'.sched.tp ≠ k.sched.tp
      · simp [htp]
      · simp [htp, hre]
    omega

/-- A thread that can run all the time but does not get its turn. -/
theorem turns_le {run : List (KOp × Kernel)} (hq : Inv k.sched q) (hrun : KRun k run)
    (ha : CanRun k.sched a) (hstay : ∀ r ∈ run, CanRun r.2.sched a)
    (hnot : ∀ r ∈ run, r.2.sched.tp ≠ a) : turns k run ≤ waits q k.sched.tp a + created run := by
  induction run generalizing k q with
  | nil => exact Nat.zero_le _
  | cons r run ih =>
    obtain ⟨op, k'⟩ := r
    obtain ⟨hop, he, hrun⟩ := hrun
    have ha' : CanRun k'.sched a := hstay _ List.mem_cons_self
    obtain ⟨q', hq', htp | hle⟩ := kernel_waits hq hop he ha ha'
    · exact (hnot _ List.mem_cons_self htp).elim
    · have hrest := ih hq' hrun ha' (fun r hr => hstay r (List.mem_cons_of_mem _ hr))
        fun r hr => hnot r (List.mem_cons_of_mem _ hr)
      simp only [turns, created, List.flatMap_cons, List.length_append] at hrest ⊢
      omega

/-- **The threads take turns.** In any run, a thread that can run all the time gets its turn if the
run has more turns than there are threads before it on the run queue at the start, going round from
the current thread, and new threads in the run. -/
theorem roundRobin {k₀ : Kernel} (h₀ : Booted k₀) (h : Relation.ReflTransGen KStep k₀ k) :
    ∃ q, Ring k.sched.heap Thread.next k.sched.runQueue q ∧ ∀ run a, KRun k run →
      CanRun k.sched a → (∀ r ∈ run, CanRun r.2.sched a) →
      waits q k.sched.tp a + created run < turns k run → ∃ r ∈ run, r.2.sched.tp = a := by
  obtain ⟨q, hq⟩ := KStep.inv_run h₀.inv.queue h
  refine ⟨q, hq.ring, fun run a hrun ha hstay hlt => ?_⟩
  by_contra hnot
  simp only [not_exists, not_and] at hnot
  exact hlt.not_ge (turns_le hq hrun ha hstay hnot)

/-- A timer interrupt at time `0`. -/
def earlyInterrupt : KOp := .timerInterrupt (fun _ => 0) fun _ => true

/-- The idle thread has created two threads. The older one gets its turn after two interrupts. -/
theorem roundRobin_two : ∃ k k₁ k₂, Relation.ReflTransGen KStep .boot k ∧
    KRun k [(earlyInterrupt, k₁), (earlyInterrupt, k₂)] ∧
    ∃ r ∈ [(earlyInterrupt, k₁), (earlyInterrupt, k₂)], r.2.sched.tp = 0x2000 := by
  have hrun : Relation.ReflTransGen KStep .boot _ := .tail (.tail .refl
    ⟨.thread (.threadCreate 0x2000), rfl, rfl⟩) ⟨.thread (.threadCreate 0x3000), rfl, rfl⟩
  obtain ⟨q, hring, hturns⟩ := roundRobin booted_boot hrun
  obtain rfl : q = [0x1000, 0x3000, 0x2000] := hring.unique (by decide +kernel)
  have hallowed : ∀ {k : Kernel}, k.now = 0 → KAllowed k earlyInterrupt := fun hk =>
    ⟨fun _ _ _ => BitVec.le_refl _, by rw [hk]; exact BitVec.le_refl _⟩
  refine ⟨_, _, _, hrun, ⟨hallowed rfl, rfl, hallowed rfl, rfl, trivial⟩, hturns _ 0x2000
    ⟨hallowed rfl, rfl, hallowed rfl, rfl, trivial⟩ ⟨_, rfl, rfl⟩ ?_ (by decide +kernel)⟩
  intro r hr
  simp only [List.mem_cons, List.not_mem_nil, or_false] at hr
  rcases hr with rfl | rfl
  · exact ⟨_, rfl, rfl⟩
  · exact ⟨_, rfl, rfl⟩

end BareMetalOS.Sched
