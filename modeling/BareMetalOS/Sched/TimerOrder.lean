import BareMetalOS.Foundations.Arrival
import BareMetalOS.Sched.Wakeups

/-!
# The order of the timers

`add_timer_ticks` and `handle_timer_interrupt` keep three things in step: the timer list, the
deadline given to `sbi_set_timer` and the tasks made of the expired timers. Each updates only a
part, the deadline in particular only if the new timer comes first.

A run is a sequence of the two calls at times that do not go back (`TimerRun`); it records the
timers added and, with the time of the move, the timers moved to the task queue. The moved timers
followed by the list are at any time the added ones in the order of their expiration, and of their
insertion where they expire together (`timerRun_dispatched`).
-/

namespace BareMetalOS.Sched

variable {k k' k₀ : Kernel} {added : List TimerNode} {moved : List (TimerNode × BitVec 64)}

/-- A call of `add_timer_ticks` at the time `now`, or a timer interrupt that reads the times
`clock`. -/
inductive TimerOp
  | add (now : BitVec 64) (callback : Callback) (ticks : BitVec 64)
  | interrupt (clock : ℕ → BitVec 64)

/-- The timers that the loop of `handle_timer_interrupt` moves, with the times of the moves. -/
def expired (clock : ℕ → BitVec 64) : ℕ → List TimerNode → List (TimerNode × BitVec 64)
  | _, [] => []
  | i, n :: timers =>
    if n.expireTime ≤ clock i then (n, clock i) :: expired clock (i + 1) timers else []

namespace TimerOp

/-- The operation, with every allocation succeeding. -/
def exec (k : Kernel) : TimerOp → Option Kernel
  | .add now callback ticks => some (addTimerTicks { k with now := now } callback ticks true)
  | .interrupt clock => handleTimerInterrupt k clock fun _ => true

/-- The times do not go back, and the expiration time does not overflow. -/
def Timely (k : Kernel) : TimerOp → Prop
  | .add now _ ticks => k.now ≤ now ∧ now.toNat + ticks.toNat < 2 ^ 64
  | .interrupt clock => (∀ i j, i ≤ j → clock i ≤ clock j) ∧ k.now ≤ clock 0

/-- The timer that the operation adds. -/
def adds : TimerOp → List TimerNode
  | .add now callback ticks => [⟨now + ticks, callback⟩]
  | .interrupt _ => []

/-- The timers that the operation moves to the task queue. -/
def moves (k : Kernel) : TimerOp → List (TimerNode × BitVec 64)
  | .add .. => []
  | .interrupt clock => expired clock 0 k.timers

end TimerOp

/-- A run from `k₀` to `k`, with the timers added and moved, in the order of these events. -/
inductive TimerRun (k₀ : Kernel) :
    List TimerOp → Kernel → List TimerNode → List (TimerNode × BitVec 64) → Prop
  | nil : TimerRun k₀ [] k₀ [] []
  | snoc {ops : List TimerOp} {k k' : Kernel} {added : List TimerNode}
      {moved : List (TimerNode × BitVec 64)} (h : TimerRun k₀ ops k added moved) (op : TimerOp)
      (ht : op.Timely k) (he : op.exec k = some k') :
      TimerRun k₀ (ops ++ [op]) k' (added ++ op.adds) (moved ++ op.moves k)

/-- The time of the next timer interrupt for a timer list, `-1ULL` for the empty one. -/
def deadline : List TimerNode → BitVec 64
  | [] => -1
  | n :: _ => n.expireTime

/-- The task queue after the moves. -/
def dispatch (moved : List (TimerNode × BitVec 64)) (tasks : List TaskNode) : List TaskNode :=
  moved.foldl (fun tasks m => insertTask ⟨m.1.callback, 10⟩ tasks) tasks

/-- What the run has done with the timers. -/
structure Dispatched (k₀ k : Kernel) (added : List TimerNode)
    (moved : List (TimerNode × BitVec 64)) : Prop where
  order : InOrder (fun n : TimerNode => n.expireTime.toNat) added (moved.map Prod.fst ++ k.timers)
  due : ∀ m ∈ moved, m.1.expireTime ≤ m.2
  past : ∀ m ∈ moved, m.2 ≤ k.now
  tasks : k.tasks = dispatch moved k₀.tasks

/-! ## Adding a timer -/

/-- The search of `add_timer_ticks` is the stable insertion. -/
theorem insertTimer_eq (n : TimerNode) (l : List TimerNode) : insertTimer n l =
    l.orderedInsert (fun a b => a.expireTime.toNat < b.expireTime.toNat) n := by
  induction l with
  | nil => rfl
  | cons m l ih =>
    rw [insertTimer, List.orderedInsert_cons, ih]
    rfl

/-- The new timer comes first exactly if it expires before the head of the list. -/
theorem head_insertTimer (n : TimerNode) (l : List TimerNode) : deadline (insertTimer n l) =
    if l.head?.all fun m => n.expireTime < m.expireTime then n.expireTime else deadline l := by
  cases l with
  | nil => rfl
  | cons m l =>
    by_cases hlt : n.expireTime < m.expireTime
    · simp [insertTimer, hlt, deadline]
    · simp [insertTimer, hlt, deadline]

theorem addTimerTicks_sbiTimer (now : BitVec 64) (callback : Callback) (ticks : BitVec 64)
    (h : k.timers = [] ∨ k.sbiTimer = deadline k.timers) :
    (addTimerTicks { k with now := now } callback ticks true).sbiTimer =
      deadline (addTimerTicks { k with now := now } callback ticks true).timers := by
  simp only [addTimerTicks, if_true]
  rw [head_insertTimer]
  rcases h with h | h
  · simp [h]
  · rw [h]

theorem Dispatched.add {now ticks : BitVec 64} {callback : Callback}
    (h : Dispatched k₀ k added moved) (ht : (TimerOp.add now callback ticks).Timely k) :
    Dispatched k₀ (addTimerTicks { k with now := now } callback ticks true)
      (added ++ [⟨now + ticks, callback⟩]) moved := by
  obtain ⟨hnow, hsum⟩ := ht
  have hadd : (now + ticks).toNat = now.toNat + ticks.toNat := BitVec.toNat_add_of_lt hsum
  refine ⟨?_, h.due, fun m hm => BitVec.le_trans (h.past m hm) hnow, h.tasks⟩
  simp only [addTimerTicks, if_true, insertTimer_eq]
  refine h.order.orderedInsert fun n hn => ?_
  -- the timers moved so far have expired by now
  obtain ⟨m, hm, rfl⟩ := List.mem_map.1 hn
  have h₁ := BitVec.le_def.1 (h.due m hm)
  have h₂ := BitVec.le_def.1 (h.past m hm)
  have h₃ := BitVec.le_def.1 hnow
  simp only [hadd]
  omega

/-! ## The interrupt -/

/-- The loop moves the timers at the front of the list that have expired, and stops at the first
that has not. -/
theorem expireLoop_eq (clock : ℕ → BitVec 64) (i : ℕ) (timers : List TimerNode)
    (tasks : List TaskNode) : ∃ rest, timers = (expired clock i timers).map Prod.fst ++ rest ∧
      expireLoop clock (fun _ => true) i timers tasks =
        (rest, dispatch (expired clock i timers) tasks) ∧
      ∀ n ∈ rest.head?, ∃ j, i ≤ j ∧ clock j < n.expireTime := by
  induction timers generalizing i tasks with
  | nil => exact ⟨[], rfl, rfl, by simp⟩
  | cons n timers ih =>
    by_cases hle : n.expireTime ≤ clock i
    · obtain ⟨rest, hsplit, hloop, hrest⟩ := ih (i + 1) (addTask tasks n.callback 10 true)
      rw [expired, if_pos hle]
      refine ⟨rest, by rw [List.map_cons, List.cons_append, ← hsplit], ?_, fun m hm => ?_⟩
      · rw [expireLoop, if_pos hle]
        exact hloop
      · obtain ⟨j, hj, hlt⟩ := hrest m hm
        exact ⟨j, by omega, hlt⟩
    · rw [expired, if_neg hle, expireLoop, if_neg hle]
      refine ⟨n :: timers, rfl, rfl, fun m hm => ⟨i, le_rfl, ?_⟩⟩
      cases hm
      exact BitVec.not_le.1 hle

/-- A timer is moved at a time that the loop reads, and has expired by then. -/
theorem mem_expired {clock : ℕ → BitVec 64} {i : ℕ} {timers : List TimerNode}
    {m : TimerNode × BitVec 64} (h : m ∈ expired clock i timers) :
    m.1.expireTime ≤ m.2 ∧ ∃ j, i ≤ j ∧ j < i + timers.length ∧ m.2 = clock j := by
  induction timers generalizing i with
  | nil => cases h
  | cons n timers ih =>
    rw [expired] at h
    split at h
    · rename_i hle
      rcases List.mem_cons.1 h with rfl | h
      · exact ⟨hle, i, le_rfl, by simp, rfl⟩
      · obtain ⟨hdue, j, hj, hlt, hclock⟩ := ih h
        exact ⟨hdue, j, by omega, by simp only [List.length_cons]; omega, hclock⟩
    · cases h

/-- What an interrupt does to the timers. -/
theorem handleTimerInterrupt_some {clock : ℕ → BitVec 64}
    (he : handleTimerInterrupt k clock (fun _ => true) = some k') :
    k.timers = (expired clock 0 k.timers).map Prod.fst ++ k'.timers ∧
      k'.tasks = dispatch (expired clock 0 k.timers) k.tasks ∧ k'.now = clock k.timers.length ∧
      k'.sbiTimer = deadline k'.timers ∧ schedule k.sched = some k'.sched ∧
      ∀ n ∈ k'.timers.head?, ∃ j, clock j < n.expireTime := by
  obtain ⟨rest, hsplit, hloop, hrest⟩ := expireLoop_eq clock 0 k.timers k.tasks
  simp only [handleTimerInterrupt, hloop, Option.bind_eq_bind, Option.bind_eq_some_iff] at he
  obtain ⟨s, hs, he⟩ := he
  cases he
  refine ⟨hsplit, rfl, rfl, ?_, hs, fun n hn => ?_⟩
  · cases rest <;> rfl
  · obtain ⟨j, -, hj⟩ := hrest n hn
    exact ⟨j, hj⟩

theorem Dispatched.interrupt {clock : ℕ → BitVec 64} (h : Dispatched k₀ k added moved)
    (ht : (TimerOp.interrupt clock).Timely k)
    (he : handleTimerInterrupt k clock (fun _ => true) = some k') :
    Dispatched k₀ k' added (moved ++ expired clock 0 k.timers) := by
  obtain ⟨hmono, hclock⟩ := ht
  obtain ⟨hsplit, htasks, hnow, -⟩ := handleTimerInterrupt_some he
  refine ⟨?_, fun m hm => ?_, fun m hm => ?_, ?_⟩
  · rw [List.map_append, List.append_assoc, ← hsplit]
    exact h.order
  · rcases List.mem_append.1 hm with hm | hm
    · exact h.due m hm
    · exact (mem_expired hm).1
  · rw [hnow]
    rcases List.mem_append.1 hm with hm | hm
    · exact BitVec.le_trans (h.past m hm) (BitVec.le_trans hclock (hmono _ _ (Nat.zero_le _)))
    · obtain ⟨-, j, -, hj, heq⟩ := mem_expired hm
      rw [heq]
      exact hmono _ _ (by omega)
  · rw [htasks, h.tasks, dispatch, dispatch, dispatch, List.foldl_append]

/-! ## Runs -/

theorem TimerRun.dispatched {ops : List TimerOp} (h₀ : k₀.timers = [])
    (h : TimerRun k₀ ops k added moved) :
    Dispatched k₀ k added moved ∧ (k.timers = [] ∨ k.sbiTimer = deadline k.timers) ∧
      (ops ≠ [] → k.sbiTimer = deadline k.timers) := by
  induction h with
  | nil => exact ⟨⟨by rw [h₀]; exact .nil, nofun, nofun, rfl⟩, .inl h₀, fun h => (h rfl).elim⟩
  | snoc hrun op ht he ih =>
    obtain ⟨hd, hsbi, -⟩ := ih
    cases op with
    | add now callback ticks =>
      cases he
      rw [TimerOp.moves, List.append_nil]
      have hsbi' := addTimerTicks_sbiTimer now callback ticks hsbi
      exact ⟨hd.add ht, .inr hsbi', fun _ => hsbi'⟩
    | interrupt clock =>
      have hsbi' := (handleTimerInterrupt_some he).2.2.2.1
      rw [TimerOp.adds, List.append_nil]
      exact ⟨hd.interrupt ht he, .inr hsbi', fun _ => hsbi'⟩

theorem TimerRun.inv {ops : List TimerOp} (hq : ∃ q, Inv k₀.sched q)
    (h : TimerRun k₀ ops k added moved) : ∃ q, Inv k.sched q := by
  induction h with
  | nil => exact hq
  | snoc hrun op ht he ih =>
    cases op with
    | add now callback ticks =>
      cases he
      simpa [addTimerTicks] using ih
    | interrupt clock =>
      obtain ⟨q, hq⟩ := ih
      obtain ⟨n, t, hn, -, hs⟩ := schedule_eq hq.toQueue
      have hs' := (handleTimerInterrupt_some he).2.2.2.2.1
      rw [← Option.some.inj (hs.symm.trans hs')]
      exact ⟨q, hq.toQueue.switched hn⟩

/-- **Main.** After every sequence of `add_timer_ticks` calls and timer interrupts that starts with
an empty timer list: the timers moved to the task queue, followed by those in the list, are the
added ones ordered by `expire_time` and, where this is equal, by insertion; the hardware timer is
set for the head of the list; no timer was moved before its `expire_time`; and the next interrupt
moves every timer that has expired by then. -/
theorem timerRun_dispatched {ops : List TimerOp} (hq : ∃ q, Inv k₀.sched q) (h₀ : k₀.timers = [])
    (h : TimerRun k₀ ops k added moved) :
    InOrder (fun n : TimerNode => n.expireTime.toNat) added (moved.map Prod.fst ++ k.timers) ∧
      (ops ≠ [] → k.sbiTimer = deadline k.timers) ∧
      (∀ m ∈ moved, m.1.expireTime ≤ m.2) ∧
      k.tasks = dispatch moved k₀.tasks ∧
      ∀ clock, (TimerOp.interrupt clock).Timely k →
        ∃ k', handleTimerInterrupt k clock (fun _ => true) = some k' ∧
          ∀ n ∈ k'.timers, clock 0 < n.expireTime := by
  obtain ⟨hd, -, hsbi⟩ := h.dispatched h₀
  refine ⟨hd.order, hsbi, hd.due, hd.tasks, fun clock ht => ?_⟩
  obtain ⟨q, hq⟩ := h.inv hq
  obtain ⟨n, t, -, -, hs⟩ := schedule_eq hq.toQueue
  have hex : ∃ k', handleTimerInterrupt k clock (fun _ => true) = some k' := by
    rw [handleTimerInterrupt, hs]
    exact ⟨_, rfl⟩
  obtain ⟨k', he⟩ := hex
  refine ⟨k', he, fun n hn => ?_⟩
  obtain ⟨-, -, -, -, -, hrest⟩ := handleTimerInterrupt_some he
  have hsorted := (List.pairwise_append.1 (hd.interrupt ht he).order.pairwise).2.1
  cases hk : k'.timers with
  | nil => simp [hk] at hn
  | cons m timers =>
    obtain ⟨j, hj⟩ := hrest m (by simp [hk])
    have hclock := ht.1 0 j (Nat.zero_le j)
    rw [hk] at hn hsorted
    have hle : m.expireTime.toNat ≤ n.expireTime.toNat := by
      rcases List.mem_cons.1 hn with rfl | hn
      · exact le_rfl
      · exact (List.pairwise_cons.1 hsorted).1 n hn
    rw [BitVec.lt_def] at hj ⊢
    rw [BitVec.le_def] at hclock
    omega

/-- Three timers, the last two of which expire together at time 50, and an interrupt at time 60. -/
theorem timerRun_dispatched_three : ∃ k,
    TimerRun .boot [.add 0 (.timeout 1) 100, .add 0 (.timeout 2) 50, .add 10 (.timeout 3) 40,
      .interrupt fun _ => 60] k [⟨100, .timeout 1⟩, ⟨50, .timeout 2⟩, ⟨50, .timeout 3⟩]
      [(⟨50, .timeout 2⟩, 60), (⟨50, .timeout 3⟩, 60)] ∧
    k.timers = [⟨100, .timeout 1⟩] ∧ k.sbiTimer = 100 := by
  have hrun : TimerRun .boot _ _ _ _ :=
    .snoc (.snoc (.snoc (.snoc .nil (.add 0 (.timeout 1) 100) ⟨by decide, by decide⟩ rfl)
      (.add 0 (.timeout 2) 50) ⟨by decide, by decide⟩ rfl)
      (.add 10 (.timeout 3) 40) ⟨by decide, by decide⟩ rfl)
      (.interrupt fun _ => 60) ⟨fun _ _ _ => BitVec.le_refl _, by decide⟩ rfl
  have hmain := timerRun_dispatched booted_boot.inv.queue rfl hrun
  exact ⟨_, hrun, rfl, hmain.2.1 (by simp)⟩

end BareMetalOS.Sched
