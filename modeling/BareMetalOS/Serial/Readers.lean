import BareMetalOS.Serial.Receive

/-!
# Several readers

`sys_uart_read` runs with interrupts enabled, so that the timer can take the processor from a thread
in the middle of `ringbuf_pop`, and another thread can read from the port before it goes on. Each
thread makes the accesses of `Console.exec` to the one ring.

* Whatever the order of the accesses, none is outside the array (`readers_inRange`).
* If no two threads are inside `ringbuf_pop` at the same time, each byte goes to one of them, in the
  order in which the bytes were received (`readers_order`).
* Otherwise a thread can be given a byte that was never received (`readers_not_order`).
-/

namespace BareMetalOS.Serial

open Boot (Byte)

/-- The receiving side of the port, with the calls of the threads `ι`. -/
structure Readers (ι : Type*) where
  ring : Ringbuf
  calls : ι → Option Reading
  arrivals : List (Byte × Bool)
  results : ι → List (ReadFn × List Byte)
  /-- the bytes handed out, each with the thread that got it -/
  log : List (ι × Byte)

namespace Readers

variable {ι : Type*}

/-- At boot. -/
def start : Readers ι := ⟨⟨fun _ => 0, 0, 0⟩, fun _ => none, [], fun _ => [], []⟩

/-- What concerns the thread `i`. -/
def view (s : Readers ι) (i : ι) : Console := ⟨s.ring, s.calls i, s.arrivals, s.results i⟩

/-- The bytes that the ring has taken. -/
def accepted (s : Readers ι) : List Byte := (s.arrivals.filter Prod.snd).map Prod.fst

/-- The thread `i` is inside `ringbuf_pop`, after its first access. -/
def Inside (s : Readers ι) (i : ι) : Prop := ∃ r ∈ s.calls i, r.pc ≠ .start

instance (pc : PopPc) : Decidable (pc = .start) :=
  match pc with
  | .start => isTrue rfl
  | .head _ | .found | .index _ | .byte _ | .next .. => isFalse nofun

instance (s : Readers ι) (i : ι) : Decidable (s.Inside i) := Option.decidableExistsMem _

variable [DecidableEq ι]

/-- The thread `i` has made a step. -/
def put (s : Readers ι) (i : ι) (c : Console) : Readers ι :=
  { ring := c.ring
    calls := Function.update s.calls i c.call
    arrivals := c.arrivals
    results := Function.update s.results i c.results
    log := s.log ++ (c.delivered.drop (s.view i).delivered.length).map fun b => (i, b) }

/-- A step while the thread `i` runs: its own, or one of the interrupt handler. -/
def exec (s : Readers ι) (i : ι) (op : ConsoleOp) : Option (Readers ι) :=
  ((s.view i).exec op).map (s.put i)

/-- One step of a run. -/
def Step (s s' : Readers ι) : Prop := ∃ i op, s.exec i op = some s'

/-- One step of a run in which no two threads are inside `ringbuf_pop` at the same time. -/
def OrderedStep (s s' : Readers ι) : Prop :=
  ∃ i op, (op = .access → ∀ j ≠ i, ¬ s.Inside j) ∧ s.exec i op = some s'

end Readers

/-! ## No access is outside the array -/

section InRange

variable {ring : Ringbuf} {pc : PopPc} {i : ℤ} {c : Byte} {s s' : Console}

/-- The index that was read is a position of the array. -/
def PopPc.InRange : PopPc → Prop
  | index t | next _ t => 0 ≤ t ∧ t < ringbufSize
  | _ => True

theorem Ringbuf.next_range (h : 0 ≤ i) : 0 ≤ Ringbuf.next i ∧ Ringbuf.next i < ringbufSize := by
  rw [Ringbuf.next_eq h]
  unfold ringbufSize
  omega

theorem ringbufPush_inRange (h : ring.InRange) (c : Byte) :
    ∃ r, ringbufPush ring c = some r ∧ r.2.InRange := by
  rw [ringbufPush]
  split
  · obtain ⟨j, hj, -⟩ := Ringbuf.position_eq h.head_nonneg h.head_lt
    obtain ⟨h₀, h₁⟩ := Ringbuf.next_range h.head_nonneg
    rw [hj]
    exact ⟨_, rfl, h₀, h₁, h.tail_nonneg, h.tail_lt⟩
  · exact ⟨_, rfl, h⟩

theorem popStep_inRange (h : ring.InRange) (hpc : pc.InRange) :
    ∃ ring' r, popStep ring pc = some (ring', r) ∧ ring'.InRange ∧
      ∀ pc', r = .inl pc' → pc'.InRange := by
  cases pc with
  | start => exact ⟨_, _, rfl, h, fun pc' hr => by cases hr; trivial⟩
  | head x =>
    refine ⟨_, _, rfl, h, fun pc' hr => ?_⟩
    split at hr
    · cases hr
      trivial
    · cases hr
  | found =>
    exact ⟨_, _, rfl, h, fun pc' hr => by cases hr; exact ⟨h.tail_nonneg, h.tail_lt⟩⟩
  | index t =>
    obtain ⟨j, hj, -⟩ := Ringbuf.position_eq hpc.1 hpc.2
    refine ⟨ring, .inl (.byte (ring.buffer j)), by simp [popStep, hj], h, fun pc' hr => ?_⟩
    cases hr
    trivial
  | byte b =>
    exact ⟨_, _, rfl, h, fun pc' hr => by cases hr; exact ⟨h.tail_nonneg, h.tail_lt⟩⟩
  | next b t =>
    obtain ⟨h₀, h₁⟩ := Ringbuf.next_range hpc.1
    exact ⟨_, _, rfl, ⟨h.head_nonneg, h.head_lt, h₀, h₁⟩, fun pc' hr => by cases hr⟩

/-- The indices of the ring, and the one that the call has read, are positions of the array. -/
structure Console.InRange (s : Console) : Prop where
  ring : s.ring.InRange
  call : ∀ r, s.call = some r → r.pc.InRange

theorem Console.InRange.goOn (h : s.ring.InRange) (fn : ReadFn) (bytes : List Byte) :
    (s.goOn fn bytes).InRange := by
  unfold Console.goOn
  split
  · exact ⟨h, fun r hr => by cases hr; trivial⟩
  · exact ⟨h, fun r hr => by cases hr⟩

/-- An interrupt can always be handled, and a call in progress can always make its next access. -/
theorem Console.InRange.receive (h : s.InRange) (c : Byte) :
    ∃ s', s.exec (.receive c) = some s' ∧ s'.InRange := by
  obtain ⟨r, hr, hring⟩ := ringbufPush_inRange h.ring c
  refine ⟨{ s with ring := r.2, arrivals := s.arrivals ++ [(c, r.1)] }, ?_, hring, h.call⟩
  rw [Console.exec, hr]
  rfl

theorem Console.InRange.access {r : Reading} (h : s.InRange) (hr : s.call = some r) :
    ∃ s', s.exec .access = some s' ∧ s'.InRange := by
  obtain ⟨ring', next, hpop, hring, hpc⟩ := popStep_inRange h.ring (h.call r hr)
  rw [Console.exec, hr]
  simp only [Option.bind_eq_bind, Option.bind_some, hpop]
  rcases next with pc' | _ | b
  · exact ⟨_, rfl, hring, fun x hx => by cases hx; exact hpc pc' rfl⟩
  · dsimp only
    split
    · exact ⟨_, rfl, hring, fun x hx => by cases hx; trivial⟩
    · exact ⟨_, rfl, hring, fun x hx => by cases hx⟩
  · exact ⟨_, rfl, Console.InRange.goOn hring _ _⟩

theorem Console.InRange.step {op : ConsoleOp} (h : s.InRange) (he : s.exec op = some s') :
    s'.InRange := by
  cases op with
  | receive c =>
    obtain ⟨s₁, he', h'⟩ := h.receive c
    cases he.symm.trans he'
    exact h'
  | call fn =>
    simp only [Console.exec] at he
    split at he
    · cases he
      exact Console.InRange.goOn h.ring fn []
    · cases he
  | access =>
    cases hr : s.call with
    | none =>
      rw [Console.exec, hr] at he
      cases he
    | some r =>
      obtain ⟨s₁, he', h'⟩ := h.access hr
      cases he.symm.trans he'
      exact h'

end InRange

namespace Readers

variable {ι : Type*} [DecidableEq ι] {s s' : Readers ι} {i j : ι} {op : ConsoleOp}

theorem view_put (s : Readers ι) (i : ι) (c : Console) : (s.put i c).view i = c := by
  simp [view, put]

theorem put_of_ne (s : Readers ι) (c : Console) (h : j ≠ i) :
    (s.put i c).calls j = s.calls j ∧ (s.put i c).results j = s.results j :=
  ⟨Function.update_of_ne h _ _, Function.update_of_ne h _ _⟩

/-- The step of a thread is the step on what concerns it. -/
theorem exec_eq_some (he : s.exec i op = some s') : ∃ c, (s.view i).exec op = some c ∧
    s'.view i = c ∧ s'.ring = c.ring ∧ s'.arrivals = c.arrivals ∧
    (∀ j ≠ i, s'.calls j = s.calls j ∧ s'.results j = s.results j) ∧
    s'.log = s.log ++ (c.delivered.drop (s.view i).delivered.length).map fun b => (i, b) := by
  obtain ⟨c, hc, rfl⟩ := Option.map_eq_some_iff.1 he
  exact ⟨c, hc, view_put s i c, rfl, rfl, fun j hj => put_of_ne s c hj, rfl⟩

theorem Step.inRange (hs : s.Step s') (h : ∀ i, (s.view i).InRange) (j : ι) :
    (s'.view j).InRange := by
  obtain ⟨i, op, he⟩ := hs
  obtain ⟨c, hc, hview, hring, -, hothers, -⟩ := exec_eq_some he
  have hi : c.InRange := (h i).step hc
  by_cases hj : j = i
  · rw [hj, hview]
    exact hi
  · have hin : s'.ring.InRange := by
      rw [hring]
      exact hi.ring
    refine ⟨hin, fun r hr => (h j).call r ?_⟩
    rw [← hr]
    exact (hothers j hj).1.symm

/-- **No access is outside the array.** In any run, whatever the order in which the threads make
their accesses, an interrupt can be handled, and a call in progress can make its next access. -/
theorem readers_inRange (h : Relation.ReflTransGen Step .start s) (i : ι) :
    (∀ c, (s.exec i (.receive c)).isSome) ∧ ((s.calls i).isSome → (s.exec i .access).isSome) := by
  have hin : ∀ i, (s.view i).InRange := by
    induction h with
    | refl =>
      have hsize : (0 : ℤ) < ringbufSize := by decide
      intro i
      exact ⟨⟨le_rfl, hsize, le_rfl, hsize⟩, fun r hr => by cases hr⟩
    | tail _ hs ih => exact hs.inRange ih
  refine ⟨fun c => ?_, fun hcall => ?_⟩
  · obtain ⟨c', he, -⟩ := (hin i).receive c
    rw [exec, he]
    rfl
  · obtain ⟨r, hr⟩ := Option.isSome_iff_exists.1 hcall
    obtain ⟨c', he, -⟩ := (hin i).access hr
    rw [exec, he]
    rfl

/-! ## The order of the bytes -/

/-- What each thread has read fits the queue `q` in the ring, and the bytes handed out and those in
the queue are the bytes accepted. -/
structure Shares (s : Readers ι) (q : BoundedQueue Byte ringbufCapacity) : Prop where
  sees : ∀ i, Sees (s.view i) q
  order : s.log.map Prod.snd ++ q.elements.map cooked = s.accepted.map cooked
  own : ∀ i, (s.view i).delivered = (s.log.filter (·.1 = i)).map Prod.snd

theorem OrderedStep.shares {q : BoundedQueue Byte ringbufCapacity} (hs : s.OrderedStep s')
    (h : s.Shares q) : ∃ q', s'.Shares q' := by
  obtain ⟨i, op, hother, he⟩ := hs
  obtain ⟨c, hc, hview, hring, harrivals, hothers, hlog⟩ := exec_eq_some he
  obtain ⟨q', out, taken, hm⟩ := (h.sees i).step hc
  rw [hm.delivered, List.drop_left] at hlog
  have haccepted : s'.accepted = s.accepted ++ taken := by
    rw [accepted, harrivals]
    exact hm.accepted
  have hout : (out.map fun b => (i, b)).map Prod.snd = out := by
    rw [List.map_map]
    exact List.map_id out
  refine ⟨q', fun j => ?_, ?_, fun j => ?_⟩
  · by_cases hj : j = i
    · rw [hj, hview]
      exact hm.sees
    · -- another thread is not inside `ringbuf_pop` if the step is an access
      obtain ⟨hcalls, hresults⟩ := hothers j hj
      have hholds : s'.ring.Holds q' := by
        rw [hring]
        exact hm.sees.holds
      refine ⟨hholds, fun r hr => ?_, fun r hr => (h.sees j).results r ?_⟩
      · have hr' : s.calls j = some r := hcalls ▸ hr
        obtain ⟨hfits, hwants⟩ := (h.sees j).fits r hr'
        have hfits' := hm.others r.pc hfits fun hop => by
          by_contra hpc
          exact hother hop j hj ⟨r, hr', hpc⟩
        rw [view, hring]
        exact ⟨hfits', hwants⟩
      · change r ∈ s.results j
        rw [← hresults]
        exact hr
  · rw [hlog, List.map_append, hout, List.append_assoc, hm.bytes, ← List.append_assoc, h.order,
      haccepted, List.map_append]
  · by_cases hj : j = i
    · have hself : (out.map fun b => (i, b)).filter (·.1 = i) = out.map fun b => (i, b) :=
        List.filter_eq_self.2 (by simp)
      rw [hj, hview, hm.delivered, h.own, hlog, List.filter_append, hself, List.map_append, hout]
    · have hsame : (s'.view j).delivered = (s.view j).delivered := by
        rw [Console.delivered, Console.delivered, view, view, (hothers j hj).1, (hothers j hj).2]
      rw [hsame, h.own, hlog, List.filter_append]
      simp [Ne.symm hj]

/-- **Several readers.** In any run in which no two threads are inside `ringbuf_pop` at the same
time: the bytes handed out are those that the ring took, in order and each to one thread, up to
those `unread`; each thread has in its buffers the bytes handed out to it; and every call that
returned has the bytes it asked for. -/
theorem readers_order (h : Relation.ReflTransGen OrderedStep .start s) : ∃ unread : List Byte,
    s.log.map Prod.snd ++ unread.map cooked = s.accepted.map cooked ∧
    ∀ i, (s.view i).delivered = (s.log.filter (·.1 = i)).map Prod.snd ∧
      ∀ r ∈ s.results i, Returned r := by
  have hshares : ∃ q, s.Shares q := by
    induction h with
    | refl => exact ⟨.empty, fun i => reads_start.sees, rfl, fun i => rfl⟩
    | tail _ hs ih =>
      obtain ⟨q, hq⟩ := ih
      exact hs.shares hq
  obtain ⟨q, hq⟩ := hshares
  exact ⟨q.elements, hq.order, fun i => ⟨hq.own i, (hq.sees i).results⟩⟩

/-- Perform the steps in turn; with `ordered`, only while no other thread is inside
`ringbuf_pop`. -/
def run [Fintype ι] (ordered : Bool) : Readers ι → List (ι × ConsoleOp) → Option (Readers ι)
  | s, [] => some s
  | s, (i, op) :: steps =>
    if ordered → ∀ j ≠ i, ¬ s.Inside j then (s.exec i op).bind (run ordered · steps) else none

theorem steps_of_run [Fintype ι] {ordered : Bool} {steps : List (ι × ConsoleOp)}
    (h : s.run ordered steps = some s') : Relation.ReflTransGen Step s s' ∧
      (ordered → Relation.ReflTransGen OrderedStep s s') := by
  induction steps generalizing s with
  | nil =>
    cases h
    exact ⟨.refl, fun _ => .refl⟩
  | cons x steps ih =>
    rw [run] at h
    split at h
    · rename_i hother
      obtain ⟨s₁, he, h⟩ := Option.bind_eq_some_iff.1 h
      obtain ⟨hsteps, hordered⟩ := ih h
      exact ⟨.head ⟨x.1, x.2, he⟩ hsteps,
        fun ho => .head ⟨x.1, x.2, fun _ => hother ho, he⟩ (hordered ho)⟩
    · cases h

/-- Two threads read a byte each, and the second one first. -/
theorem readers_order_two : ∃ (s : Readers Bool) (unread : List Byte),
    Relation.ReflTransGen OrderedStep .start s ∧ s.log = [(true, 97), (false, 98)] ∧
    s.log.map Prod.snd ++ unread.map cooked = s.accepted.map cooked := by
  obtain ⟨s, hs, hlog⟩ : ∃ s, (start : Readers Bool).run true
      ((false, .call (.sysUartRead 1)) :: (false, .access) :: (false, .access) ::
        (true, .call (.sysUartRead 1)) :: (true, .receive 97) ::
        (List.replicate 6 (true, .access) ++ (false, .receive 98) ::
          List.replicate 6 (false, .access))) = some s ∧
      s.log = [(true, 97), (false, 98)] := ⟨_, rfl, rfl⟩
  have hrun := (steps_of_run hs).2 rfl
  obtain ⟨unread, horder, -⟩ := readers_order hrun
  exact ⟨s, unread, hrun, hlog, horder⟩

/-- Both threads find the one byte in the ring before one of them has taken it. The other thread
gets a byte that was never received, and `tail` has passed `head`. -/
theorem readers_not_order : ∃ s : Readers Bool, Relation.ReflTransGen Step .start s ∧
    s.accepted = [97] ∧ s.log = [(true, 97), (false, 0)] ∧ s.ring.head = 1 ∧ s.ring.tail = 2 := by
  obtain ⟨s, hs, hlog⟩ : ∃ s, (start : Readers Bool).run false
      ((false, .call (.sysUartRead 1)) :: (true, .call (.sysUartRead 1)) :: (true, .receive 97) ::
        (List.replicate 2 (false, .access) ++ List.replicate 6 (true, .access) ++
          List.replicate 4 (false, .access))) = some s ∧
      s.accepted = [97] ∧ s.log = [(true, 97), (false, 0)] ∧ s.ring.head = 1 ∧ s.ring.tail = 2 :=
    ⟨_, rfl, rfl, rfl, rfl, rfl⟩
  exact ⟨s, (steps_of_run hs).1, hlog⟩

/-- Even there the next byte can be received. -/
theorem readers_inRange_overlap : ∃ s : Readers Bool, s.log = [(true, 97), (false, 0)] ∧
    ∀ c, (s.exec true (.receive c)).isSome := by
  obtain ⟨s, hs, -, hlog, -⟩ := readers_not_order
  exact ⟨s, hlog, (readers_inRange hs true).1⟩

end Readers

end BareMetalOS.Serial
