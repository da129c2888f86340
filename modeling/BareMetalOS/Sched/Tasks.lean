import BareMetalOS.Foundations.Arrival
import BareMetalOS.Sched.Timer
import Mathlib.Logic.Relation

/-!
# Nested tasks

`run_tasks` takes the first task of the queue while its priority is above
`current->current_task_priority`, raises this priority to that of the task around the callback, and
restores it afterwards. The callback runs with interrupts enabled, so that further calls of
`run_tasks` can be nested in it, which share the queue and the priority.

A `Frame` is a call of `run_tasks` in progress. The queue is read and written with interrupts
disabled, so that these accesses are the steps: between any two of them tasks can be added and
nested calls can begin. A task carries the number of its `add_task` call, and a call of `run_tasks`
the priority it found; neither is read by the code.

The main result is `tasksDisciplined`.
-/

namespace BareMetalOS.Sched

/-- A call of `run_tasks` in progress. -/
inductive Frame
  /-- before it looks at the queue; the call began with the priority `entry` -/
  | check (entry : ℤ)
  /-- in the callback of `task` -/
  | run (entry : ℤ) (task : TaskNode × ℕ) (savedPriority : ℤ)

/-- The task queue and the calls of `run_tasks` on one thread. -/
structure TaskState where
  /-- the list from `task_queue_head` -/
  queue : List (TaskNode × ℕ)
  /-- the number of `add_task` calls so far -/
  calls : ℕ
  /-- `*task_priority_ptr` -/
  currentTaskPriority : ℤ
  /-- the calls of `run_tasks`, innermost first -/
  frames : List Frame
  /-- the tasks started, latest first -/
  started : List (TaskNode × ℕ)

/-- A step of the thread or of an interrupt on it. -/
inductive TaskOp
  /-- `add_task`, where `mem` says that the node could be allocated -/
  | addTask (callback : Callback) (priority : ℤ) (mem : Bool)
  /-- `run_tasks` is called -/
  | enter
  /-- the innermost `run_tasks` looks at the queue -/
  | look
  /-- the callback that the innermost `run_tasks` has called returns -/
  | finish

namespace TaskState

/-- The insertion of `add_task` on the numbered tasks (`map_fst_insert`). -/
def insert (s : TaskState) (n : TaskNode) : List (TaskNode × ℕ) :=
  s.queue.orderedInsert (fun a b => b.1.priority < a.1.priority) (n, s.calls)

/-- The step on the state. -/
def exec (s : TaskState) : TaskOp → Option TaskState
  | .addTask callback priority mem =>
    some { s with
      queue := if mem then s.insert ⟨callback, priority⟩ else s.queue
      calls := s.calls + 1 }
  | .enter => some { s with frames := .check s.currentTaskPriority :: s.frames }
  | .look =>
    match s.frames with
    | .check entry :: frames =>
      match s.queue with
      | [] => some { s with frames := frames }
      | task :: queue =>
        if task.1.priority ≤ s.currentTaskPriority then some { s with frames := frames }
        else some { s with
          queue := queue
          currentTaskPriority := task.1.priority
          frames := .run entry task s.currentTaskPriority :: frames
          started := task :: s.started }
    | _ => none
  | .finish =>
    match s.frames with
    | .run entry _ savedPriority :: frames =>
      some { s with currentTaskPriority := savedPriority, frames := .check entry :: frames }
    | _ => none

/-- No task has been added and no call of `run_tasks` is in progress. -/
def start (priority : ℤ) : TaskState := ⟨[], 0, priority, [], []⟩

end TaskState

/-- One step of a run. -/
def TaskStep (s s' : TaskState) : Prop := ∃ op, s.exec op = some s'

/-- The tasks in progress, innermost first. -/
def active : List Frame → List (TaskNode × ℕ)
  | [] => []
  | .check _ :: frames => active frames
  | .run _ task _ :: frames => task :: active frames

variable {s s' : TaskState}

/-- The insertion is that of `add_task`. -/
theorem map_fst_insert (s : TaskState) (n : TaskNode) :
    (s.insert n).map Prod.fst = insertTask n (s.queue.map Prod.fst) := by
  rw [TaskState.insert]
  generalize s.queue = l
  induction l with
  | nil => rfl
  | cons m l ih =>
    rw [List.orderedInsert_cons, List.map_cons, insertTask]
    split
    · rfl
    · rw [List.map_cons, ih]

/-! ## What holds of every state -/

/-- The order of the queue: higher priorities first, and equal ones in the order of arrival. -/
abbrev Sooner (a b : TaskNode × ℕ) : Prop := Earlier (fun n : TaskNode => -n.priority) a b

/-- The discipline of the task queue. -/
structure TasksDisciplined (s : TaskState) : Prop where
  sorted : s.queue.Pairwise Sooner
  /-- a task that is started has the highest priority and is the oldest one of this priority -/
  starts : ∀ op s' task, s.exec op = some s' → s'.started = task :: s.started →
    s.queue = task :: s'.queue ∧ ∀ m ∈ s'.queue,
      m.1.priority < task.1.priority ∨ (m.1.priority = task.1.priority ∧ task.2 < m.2)
  /-- from the innermost outwards the priorities of the active tasks decrease -/
  active : (active s.frames).Pairwise fun a b => b.1.priority < a.1.priority
  once : (s.started.map Prod.snd).Nodup
  /-- `run_tasks` returns with the priority it was called with, and leaves no task above it -/
  returns : ∀ s', s.exec .look = some s' → s'.frames.length < s.frames.length →
    s.frames = .check s'.currentTaskPriority :: s'.frames ∧
      ∀ m ∈ s'.queue, m.1.priority ≤ s'.currentTaskPriority

/-- The priority `p` fits the calls in progress: each task was started above the priority its call
found, which is the one it restores. -/
def Fits : List Frame → ℤ → Prop
  | [], _ => True
  | .check entry :: frames, p => p = entry ∧ Fits frames entry
  | .run entry task savedPriority :: frames, p =>
    p = task.1.priority ∧ savedPriority = entry ∧ entry < task.1.priority ∧ Fits frames entry

/-- The invariant of the runs. -/
structure TaskInv (s : TaskState) : Prop where
  sorted : s.queue.Pairwise Sooner
  fits : Fits s.frames s.currentTaskPriority
  nodup : ((s.started ++ s.queue).map Prod.snd).Nodup
  calls : ∀ t ∈ s.started ++ s.queue, t.2 < s.calls

/-- The priority is at least that of every active task, and these are ordered. -/
theorem Fits.active {frames : List Frame} {p : ℤ} (h : Fits frames p) :
    (∀ t ∈ Sched.active frames, t.1.priority ≤ p) ∧
      (Sched.active frames).Pairwise fun a b => b.1.priority < a.1.priority := by
  induction frames generalizing p with
  | nil => exact ⟨nofun, .nil⟩
  | cons f frames ih =>
    cases f with
    | check entry =>
      obtain ⟨rfl, h⟩ := h
      exact ih h
    | run entry task saved =>
      obtain ⟨rfl, -, hlt, h⟩ := h
      obtain ⟨hle, hp⟩ := ih h
      refine ⟨fun t ht => ?_, List.pairwise_cons.2 ⟨fun t ht => ?_, hp⟩⟩
      · rcases List.mem_cons.1 ht with rfl | ht
        · exact le_rfl
        · exact (hle t ht).trans hlt.le
      · exact (hle t ht).trans_lt hlt

/-- The two outcomes of a look at the queue: the first task is started, or the call returns. -/
theorem look_cases (h : s.exec .look = some s') : ∃ entry frames,
    s.frames = .check entry :: frames ∧
    ((∃ task queue, s.queue = task :: queue ∧ s.currentTaskPriority < task.1.priority ∧
      s' = { s with
        queue := queue
        currentTaskPriority := task.1.priority
        frames := .run entry task s.currentTaskPriority :: frames
        started := task :: s.started }) ∨
    ((∀ m ∈ s.queue.head?, m.1.priority ≤ s.currentTaskPriority) ∧
      s' = { s with frames := frames })) := by
  simp only [TaskState.exec] at h
  split at h
  · rename_i entry frames hf
    refine ⟨entry, frames, hf, ?_⟩
    split at h
    · rename_i hq
      cases h
      exact .inr ⟨by simp [hq], rfl⟩
    · rename_i task queue hq
      split at h
      · rename_i hle
        cases h
        exact .inr ⟨by simpa [hq] using hle, rfl⟩
      · rename_i hlt
        cases h
        exact .inl ⟨task, queue, hq, not_le.1 hlt, rfl⟩
  · cases h

/-- The head of the queue has the highest priority. -/
theorem TaskInv.priority_le (h : TaskInv s) {p : ℤ}
    (hp : ∀ m ∈ s.queue.head?, m.1.priority ≤ p) : ∀ m ∈ s.queue, m.1.priority ≤ p := by
  have hs := h.sorted
  cases hq : s.queue with
  | nil => nofun
  | cons task queue =>
    rw [hq] at hs hp
    have htask := hp task rfl
    intro m hm
    rcases List.mem_cons.1 hm with rfl | hm
    · exact htask
    · have := ((List.pairwise_cons.1 hs).1 m hm).key_le
      omega

/-- **One step.** Every step keeps the invariant. -/
theorem TaskInv.step (h : TaskInv s) (hs : TaskStep s s') : TaskInv s' := by
  obtain ⟨op, he⟩ := hs
  cases op with
  | addTask callback priority mem =>
    cases he
    have hlt : ∀ t ∈ s.queue, t.2 < s.calls := fun t ht => h.calls t (by simp [ht])
    cases mem with
    | false =>
      exact ⟨h.sorted, h.fits, h.nodup, fun t ht => (h.calls t ht).trans (Nat.lt_succ_self _)⟩
    | true =>
      have hperm : (s.started ++ s.insert ⟨callback, priority⟩).Perm
          ((⟨callback, priority⟩, s.calls) :: (s.started ++ s.queue)) := by
        refine ((List.perm_orderedInsert _ _ _).append_left _).trans ?_
        exact List.perm_middle
      refine ⟨?_, h.fits, ?_, fun t ht => ?_⟩
      · have := pairwise_orderedInsert (n := (⟨callback, priority⟩, s.calls)) h.sorted hlt
        simpa [TaskState.insert] using this
      · refine (hperm.map Prod.snd).nodup_iff.2 ?_
        rw [List.map_cons, List.nodup_cons]
        refine ⟨fun hmem => ?_, h.nodup⟩
        obtain ⟨t, ht, heq⟩ := List.mem_map.1 hmem
        have := h.calls t ht
        simp only at heq
        omega
      · rcases List.mem_cons.1 (hperm.mem_iff.1 ht) with rfl | ht
        · exact Nat.lt_succ_self _
        · exact (h.calls t ht).trans (Nat.lt_succ_self _)
  | enter =>
    cases he
    exact ⟨h.sorted, ⟨rfl, h.fits⟩, h.nodup, h.calls⟩
  | look =>
    obtain ⟨entry, frames, hf, ⟨task, queue, hq, hlt, rfl⟩ | ⟨-, rfl⟩⟩ := look_cases he
    · obtain ⟨hsorted, hfits, hnodup, hcalls⟩ := h
      rw [hf] at hfits
      rw [hq] at hsorted hnodup hcalls
      obtain ⟨hentry, hfits⟩ := hfits
      have hperm : (task :: s.started ++ queue).Perm (s.started ++ task :: queue) :=
        List.perm_middle.symm
      refine ⟨(List.pairwise_cons.1 hsorted).2, ⟨rfl, hentry, by omega, hfits⟩, ?_, fun t ht => ?_⟩
      · exact (hperm.map Prod.snd).nodup_iff.2 hnodup
      · exact hcalls t (hperm.mem_iff.1 ht)
    · obtain ⟨hsorted, hfits, hnodup, hcalls⟩ := h
      rw [hf] at hfits
      obtain ⟨hentry, hfits⟩ := hfits
      exact ⟨hsorted, by rw [hentry]; exact hfits, hnodup, hcalls⟩
  | finish =>
    obtain ⟨hsorted, hfits, hnodup, hcalls⟩ := h
    simp only [TaskState.exec] at he
    split at he
    · rename_i entry task saved frames hf
      cases he
      rw [hf] at hfits
      obtain ⟨-, hsaved, -, hfits⟩ := hfits
      exact ⟨hsorted, ⟨hsaved, hfits⟩, hnodup, hcalls⟩
    · cases he

theorem TaskInv.run {priority : ℤ} (hs : Relation.ReflTransGen TaskStep (.start priority) s) :
    TaskInv s := by
  induction hs with
  | refl => exact ⟨.nil, trivial, .nil, nofun⟩
  | tail _ hstep ih => exact ih.step hstep

/-- A step that starts a task is a look at the queue, and the task is the first one. -/
theorem exec_started {op : TaskOp} {task : TaskNode × ℕ} (he : s.exec op = some s')
    (hs : s'.started = task :: s.started) : s.queue = task :: s'.queue := by
  have hsame : s'.started ≠ s.started := by
    rw [hs]
    exact fun h => by simpa using congrArg List.length h
  cases op with
  | addTask callback priority mem =>
    cases he
    exact (hsame rfl).elim
  | enter =>
    cases he
    exact (hsame rfl).elim
  | look =>
    obtain ⟨entry, frames, hf, ⟨task', queue, hq, -, rfl⟩ | ⟨-, rfl⟩⟩ := look_cases he
    · rw [hq, (List.cons_eq_cons.1 hs).1]
    · exact (hsame rfl).elim
  | finish =>
    simp only [TaskState.exec] at he
    split at he
    · cases he
      exact (hsame rfl).elim
    · cases he

/-- **Main.** After every sequence of `add_task` calls, calls of `run_tasks` nested in any way,
looks at the queue and returns of callbacks, the task queue is disciplined. -/
theorem tasksDisciplined {priority : ℤ}
    (hs : Relation.ReflTransGen TaskStep (.start priority) s) : TasksDisciplined s := by
  have h := TaskInv.run hs
  refine ⟨h.sorted, fun op s' task he hstart => ?_, h.fits.active.2, ?_, fun s' he hlen => ?_⟩
  · have hq := exec_started he hstart
    refine ⟨hq, fun m hm => ?_⟩
    have hsorted := h.sorted
    rw [hq] at hsorted
    have hsooner := (List.pairwise_cons.1 hsorted).1 m hm
    simpa [Earlier, eq_comm] using hsooner
  · have hnodup := h.nodup
    rw [List.map_append] at hnodup
    exact (List.nodup_append.1 hnodup).1
  · obtain ⟨entry, frames, hframes, ⟨task, queue, -, -, rfl⟩ | ⟨hle, rfl⟩⟩ := look_cases he
    · simp [hframes] at hlen
    · have hfits := h.fits
      rw [hframes] at hfits
      refine ⟨?_, h.priority_le hle⟩
      rw [hframes, hfits.1]

/-- A task of priority 10 whose callback adds one of priority 20 and is interrupted by a second call
of `run_tasks`. -/
theorem tasksDisciplined_nested : ∃ s, Relation.ReflTransGen TaskStep (.start (-1)) s ∧
    (active s.frames).map (fun t => t.1.priority) = [20, 10] ∧ TasksDisciplined s := by
  have hrun : Relation.ReflTransGen TaskStep (.start (-1)) _ := .tail (.tail (.tail (.tail (.tail
    (.tail .refl ⟨.addTask .schedulerTimer 10 true, rfl⟩) ⟨.enter, rfl⟩) ⟨.look, rfl⟩)
    ⟨.addTask .periodicTimer 20 true, rfl⟩) ⟨.enter, rfl⟩) ⟨.look, rfl⟩
  exact ⟨_, hrun, rfl, tasksDisciplined hrun⟩

end BareMetalOS.Sched
