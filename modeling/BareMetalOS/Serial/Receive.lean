import BareMetalOS.Serial.RingBuffer
import Mathlib.Logic.Relation

/-!
# Reading from the serial port

`handle_uart_interrupt` puts the bytes it receives into `rx_ring`, and `sys_uart_read` and
`devfs_read` take them out with `uart_getc_nonblocking`. The interrupt handler runs with interrupts
disabled, but `ringbuf_pop` does not: the interrupt can come between any two of its accesses to the
ring. So the accesses are the steps here, and `receive` is a step of the handler.

One thread reads at a time here. `char` is unsigned on this machine, so that no byte is taken for
the result `-1`. `arrivals` and `results` record what has happened and are not read by the code.

The main result is `console_reads`.
-/

namespace BareMetalOS.Serial

open Boot (Byte)

/-! ## The reader -/

/-- The place reached in `ringbuf_pop`, with the values read so far. -/
inductive PopPc
  /-- before the read of `ring->head` -/
  | start
  /-- before the comparison with `ring->tail` -/
  | head (h : ℤ)
  /-- the ring is not empty; before the read of `ring->tail` for the index -/
  | found
  /-- before the read of the buffer -/
  | index (t : ℤ)
  /-- `*c` is written; before the read of `ring->tail` for its new value -/
  | byte (c : Byte)
  /-- before the write of `ring->tail` -/
  | next (c : Byte) (t : ℤ)

/-- One access of `ringbuf_pop` to the ring. It leads to another place, or the call returns: with a
byte, or without one. -/
def popStep (ring : Ringbuf) : PopPc → Option (Ringbuf × (PopPc ⊕ Option Byte))
  | .start => some (ring, .inl (.head ring.head))
  | .head h => some (ring, if h ≠ ring.tail then .inl .found else .inr none)
  | .found => some (ring, .inl (.index ring.tail))
  | .index t => do
    let i ← Ringbuf.position t
    return (ring, .inl (.byte (ring.buffer i)))
  | .byte c => some (ring, .inl (.next c ring.tail))
  | .next c t => some ({ ring with tail := Ringbuf.next t }, .inr (some c))

/-- What `uart_getc_nonblocking` makes of a byte: `c == '\r' ? '\n' : c`. -/
def cooked (c : Byte) : Byte := if c = 13 then 10 else c

/-- A call that reads from the port. -/
inductive ReadFn
  | sysUartRead (count : ℤ)
  | devfsRead (len : ℕ)
  deriving DecidableEq

/-- The call asks for another byte: `read_count < count`, `count < len`. -/
def ReadFn.wants (bytes : List Byte) : ReadFn → Bool
  | sysUartRead count => bytes.length < count
  | devfsRead len => bytes.length < len

/-- The call waits if there is no byte: `sys_uart_read` always does, `devfs_read` for its first
byte. -/
def ReadFn.waits (bytes : List Byte) : ReadFn → Bool
  | sysUartRead _ => true
  | devfsRead _ => bytes.isEmpty

/-- A call in progress: the bytes in its buffer, and the place in `ringbuf_pop`. -/
structure Reading where
  fn : ReadFn
  bytes : List Byte
  pc : PopPc

/-- The receiving side of the port. -/
structure Console where
  /-- `rx_ring` -/
  ring : Ringbuf
  call : Option Reading
  /-- the bytes received, and whether `ringbuf_push` took them -/
  arrivals : List (Byte × Bool)
  /-- the calls that have returned, with their buffers -/
  results : List (ReadFn × List Byte)

/-- A step of the reader or of the interrupt handler. -/
inductive ConsoleOp
  /-- `handle_uart_interrupt` receives a byte -/
  | receive (c : Byte)
  /-- a call begins -/
  | call (fn : ReadFn)
  /-- the call in progress makes its next access -/
  | access
  deriving DecidableEq

namespace Console

/-- At boot. -/
def start : Console := ⟨⟨fun _ => 0, 0, 0⟩, none, [], []⟩

/-- The call goes on with these bytes if it asks for more, and returns otherwise. -/
def goOn (s : Console) (fn : ReadFn) (bytes : List Byte) : Console :=
  if fn.wants bytes then { s with call := some ⟨fn, bytes, .start⟩ }
  else { s with call := none, results := s.results ++ [(fn, bytes)] }

/-- The step on the state. -/
def exec (s : Console) : ConsoleOp → Option Console
  | .receive c => do
    let r ← ringbufPush s.ring c
    return { s with ring := r.2, arrivals := s.arrivals ++ [(c, r.1)] }
  | .call fn => if s.call.isNone then some (s.goOn fn []) else none
  | .access => do
    let call ← s.call
    let r ← popStep s.ring call.pc
    let s := { s with ring := r.1 }
    match r.2 with
    | .inl pc => return { s with call := some { call with pc := pc } }
    | .inr (some c) => return s.goOn call.fn (call.bytes ++ [cooked c])
    | .inr none =>
      -- `uart_getc_nonblocking` returns -1
      if call.fn.waits call.bytes then return { s with call := some { call with pc := .start } }
      else return { s with call := none, results := s.results ++ [(call.fn, call.bytes)] }

/-- The bytes that the ring has taken. -/
def accepted (s : Console) : List Byte := (s.arrivals.filter Prod.snd).map Prod.fst

/-- The bytes handed to the callers, in order. -/
def delivered (s : Console) : List Byte :=
  (s.results.map Prod.snd).flatten ++ (s.call.elim [] Reading.bytes)

end Console

/-- One step of a run. -/
def ConsoleStep (s s' : Console) : Prop := ∃ op, s.exec op = some s'

/-! ## The invariant -/

variable {s s' : Console} {ring ring' : Ringbuf} {q : BoundedQueue Byte ringbufCapacity}
  {pc : PopPc} {c : Byte} {rest : List Byte}

/-- What the values read in `ringbuf_pop` say about the queue in the ring. -/
def PopPc.Fits (ring : Ringbuf) (q : BoundedQueue Byte ringbufCapacity) : PopPc → Prop
  | start => True
  | head h => h ≠ ring.tail → q.elements ≠ []
  | found => q.elements ≠ []
  | index t => t = ring.tail ∧ q.elements ≠ []
  | byte c => q.elements.head? = some c
  | next c t => t = ring.tail ∧ q.elements.head? = some c

/-- What a call has in its buffer when it returns. -/
def Returned : ReadFn × List Byte → Prop
  | (.sysUartRead count, bytes) => bytes.length = count.toNat
  | (.devfsRead len, bytes) => bytes.length ≤ len ∧ (0 < len → bytes ≠ [])

/-- The queue `q` is in the ring, the call in progress has read what fits it and asks for another
byte, and the calls that have returned have theirs. -/
structure Sees (s : Console) (q : BoundedQueue Byte ringbufCapacity) : Prop where
  holds : s.ring.Holds q
  fits : ∀ r, s.call = some r → r.pc.Fits s.ring q ∧ r.fn.wants r.bytes
  results : ∀ r ∈ s.results, Returned r

/-- The queue `q` is in the ring, and the bytes delivered and those in the queue are the bytes
accepted. -/
structure Reads (s : Console) (q : BoundedQueue Byte ringbufCapacity) : Prop where
  holds : s.ring.Holds q
  order : s.delivered ++ q.elements.map cooked = s.accepted.map cooked
  fits : ∀ r, s.call = some r → r.pc.Fits s.ring q ∧ r.fn.wants r.bytes
  results : ∀ r ∈ s.results, Returned r

/-- The last access of a successful `ringbuf_pop` takes the first byte out of the queue. -/
theorem Ringbuf.Holds.setTail (h : ring.Holds q) (hc : q.elements = c :: rest) :
    { ring with tail := Ringbuf.next ring.tail }.Holds q.pop.2 ∧
      ∃ i, Ringbuf.position ring.tail = some i ∧ ring.buffer i = c := by
  obtain ⟨ring', hpop, hholds⟩ := h.pop
  have hne : ring.head ≠ ring.tail := by
    rw [Ne, h.head_eq_tail_iff, hc]
    exact List.cons_ne_nil c rest
  obtain ⟨i, hi, -⟩ := Ringbuf.position_eq h.inRange.tail_nonneg h.inRange.tail_lt
  rw [ringbufCall, Serial.ringbufPop, if_pos hne, hi] at hpop
  simp only [Option.bind_eq_bind, Option.bind_some, Option.pure_def, Option.map_some,
    BoundedQueue.pop,
    hc, List.head?_cons, Option.some.injEq, Prod.mk.injEq, QueueAnswer.popped.injEq] at hpop
  obtain ⟨hbyte, rfl⟩ := hpop
  exact ⟨hholds, i, hi, hbyte⟩

/-- A new byte goes behind the others, so that what the reader knows stays true. -/
theorem PopPc.Fits.push (h : pc.Fits ring q) (htail : ring'.tail = ring.tail) (c : Byte) :
    pc.Fits ring' (q.push c).2 := by
  have hne : q.elements ≠ [] → (q.push c).2.elements ≠ [] := by
    unfold BoundedQueue.push
    split <;> simp
  have hhead : ∀ b, q.elements.head? = some b → (q.push c).2.elements.head? = some b := by
    intro b hb
    unfold BoundedQueue.push
    split
    · simp [hb]
    · exact hb
  cases pc with
  | start => trivial
  | head x => exact fun hx => hne (h (htail ▸ hx))
  | found => exact hne h
  | index t => exact ⟨htail ▸ h.1, hne h.2⟩
  | byte b => exact hhead b h
  | next b t => exact ⟨htail ▸ h.1, hhead b h.2⟩

/-- `ringbuf_push` on the ring and on the queue. -/
theorem Ringbuf.Holds.push_cases (h : ring.Holds q) {r : Bool × Ringbuf}
    (hr : Serial.ringbufPush ring c = some r) : r.2.Holds (q.push c).2 ∧ r.2.tail = ring.tail ∧
      r.1 = decide (q.elements.length < ringbufCapacity) ∧
      (q.push c).2.elements = q.elements ++ if r.1 then [c] else [] := by
  obtain ⟨ring', hcall, hholds⟩ := h.push c
  rw [ringbufCall, hr, Option.map_some, Option.some.injEq, Prod.mk.injEq] at hcall
  obtain ⟨hanswer, rfl⟩ := hcall
  have htail : r.2.tail = ring.tail := by
    rw [Serial.ringbufPush] at hr
    split at hr
    · obtain ⟨i, -, hr⟩ := Option.bind_eq_some_iff.1 hr
      cases hr
      rfl
    · cases hr
      rfl
  refine ⟨hholds, htail, ?_⟩
  by_cases hlt : q.elements.length < ringbufCapacity
  · rw [BoundedQueue.push, dif_pos hlt] at hanswer ⊢
    have hr₁ : r.1 = true := QueueAnswer.pushed.inj hanswer
    simp [hr₁, hlt]
  · rw [BoundedQueue.push, dif_neg hlt] at hanswer ⊢
    have hr₁ : r.1 = false := QueueAnswer.pushed.inj hanswer
    simp [hr₁, hlt]

/-! ## Steps -/

/-- The bytes of a call that has just begun or has just got a byte. -/
def Fresh (fn : ReadFn) (bytes : List Byte) : Prop :=
  bytes = [] ∨ ∃ old c, bytes = old ++ [c] ∧ fn.wants old

theorem returned_of_fresh {fn : ReadFn} {bytes : List Byte} (h : Fresh fn bytes)
    (hw : fn.wants bytes = false) : Returned (fn, bytes) := by
  cases fn with
  | sysUartRead count =>
    simp only [ReadFn.wants, decide_eq_false_iff_not, not_lt] at hw
    rcases h with rfl | ⟨old, c, rfl, hold⟩
    · simp only [List.length_nil, Nat.cast_zero] at hw
      change 0 = count.toNat
      omega
    · simp only [ReadFn.wants, decide_eq_true_eq] at hold
      simp only [List.length_append, List.length_singleton] at hw
      change (old ++ [c]).length = count.toNat
      rw [List.length_append, List.length_singleton]
      omega
  | devfsRead len =>
    simp only [ReadFn.wants, decide_eq_false_iff_not, not_lt] at hw
    rcases h with rfl | ⟨old, c, rfl, hold⟩
    · exact ⟨Nat.zero_le _, fun hlen => by simp at hw; omega⟩
    · simp only [ReadFn.wants, decide_eq_true_eq] at hold
      exact ⟨by rw [List.length_append, List.length_singleton]; exact hold, fun _ => by simp⟩

theorem returned_of_not_waits {fn : ReadFn} {bytes : List Byte} (hwants : fn.wants bytes)
    (hw : ¬ fn.waits bytes) : Returned (fn, bytes) := by
  cases fn with
  | sysUartRead count => exact (hw rfl).elim
  | devfsRead len =>
    simp only [ReadFn.wants, decide_eq_true_eq] at hwants
    exact ⟨hwants.le, fun _ hnil => hw (by rw [hnil]; rfl)⟩

theorem delivered_goOn (s : Console) (fn : ReadFn) (bytes : List Byte) :
    (s.goOn fn bytes).delivered = (s.results.map Prod.snd).flatten ++ bytes := by
  unfold Console.goOn
  split <;> simp [Console.delivered]

/-- The call goes on, or returns. -/
theorem Sees.goOn {fn : ReadFn} {bytes : List Byte} (hh : s.ring.Holds q)
    (hr : ∀ r ∈ s.results, Returned r) (hf : Fresh fn bytes) : Sees (s.goOn fn bytes) q := by
  unfold Console.goOn
  split
  · rename_i hw
    refine ⟨hh, fun r h => ?_, hr⟩
    cases h
    exact ⟨trivial, hw⟩
  · rename_i hw
    refine ⟨hh, fun r h => by simp at h, fun r h => ?_⟩
    rcases List.mem_append.1 h with h | h
    · exact hr r h
    · rw [List.mem_singleton.1 h]
      exact returned_of_fresh hf (by simpa using hw)

theorem ring_goOn (s : Console) (fn : ReadFn) (bytes : List Byte) :
    (s.goOn fn bytes).ring = s.ring ∧ (s.goOn fn bytes).accepted = s.accepted := by
  unfold Console.goOn
  split <;> exact ⟨rfl, rfl⟩

/-- What a step does: the bytes `taken` come into the queue and the bytes `out` go from it to the
caller. What another thread has read keeps fitting the queue, unless this thread makes an access. -/
structure Moves (op : ConsoleOp) (s s' : Console) (q q' : BoundedQueue Byte ringbufCapacity)
    (out taken : List Byte) : Prop where
  sees : Sees s' q'
  delivered : s'.delivered = s.delivered ++ out
  accepted : s'.accepted = s.accepted ++ taken
  bytes : out ++ q'.elements.map cooked = q.elements.map cooked ++ taken.map cooked
  others : ∀ pc : PopPc, pc.Fits s.ring q → (op = .access → pc = .start) → pc.Fits s'.ring q'

theorem Reads.sees (h : Reads s q) : Sees s q := ⟨h.holds, h.fits, h.results⟩

theorem Reads.moves {op : ConsoleOp} {q' : BoundedQueue Byte ringbufCapacity}
    {out taken : List Byte} (h : Reads s q) (hm : Moves op s s' q q' out taken) : Reads s' q' := by
  refine ⟨hm.sees.holds, ?_, hm.sees.fits, hm.sees.results⟩
  rw [hm.delivered, List.append_assoc, hm.bytes, ← List.append_assoc, h.order, hm.accepted,
    List.map_append]

theorem Sees.receive (h : Sees s q) (he : s.exec (.receive c) = some s') :
    (∃ taken, Moves (.receive c) s s' q (q.push c).2 [] taken) ∧
      s'.arrivals = s.arrivals ++ [(c, decide (q.elements.length < ringbufCapacity))] := by
  obtain ⟨r, hr, he⟩ := Option.bind_eq_some_iff.1 he
  cases he
  obtain ⟨hholds, htail, htaken, helements⟩ := h.holds.push_cases hr
  refine ⟨⟨if r.1 then [c] else [], ⟨hholds, fun x hx => ?_, h.results⟩, (List.append_nil _).symm,
    ?_, ?_, fun pc hpc _ => hpc.push htail c⟩, by rw [← htaken]⟩
  · exact ⟨(h.fits x hx).1.push htail c, (h.fits x hx).2⟩
  · rw [Console.accepted, List.filter_append, List.map_append, Console.accepted]
    cases r.1 <;> rfl
  · rw [helements, List.map_append, List.nil_append]

/-- The number of accesses up to the next byte, if there is one in the ring. -/
def PopPc.left (ring : Ringbuf) : PopPc → ℕ
  | start => 6
  | head h => if h ≠ ring.tail then 5 else 7
  | found => 4
  | index _ => 3
  | byte _ => 2
  | next .. => 1

/-- What the next access of `ringbuf_pop` does: it moves the place, nearer to the next byte if there
is one, or `ringbuf_pop` returns, without a byte or with the first one. -/
theorem PopPc.Fits.popStep (h : pc.Fits ring q) (hh : ring.Holds q) :
    (∃ pc', Serial.popStep ring pc = some (ring, .inl pc') ∧ pc'.Fits ring q ∧
      (q.elements ≠ [] → pc'.left ring < pc.left ring)) ∨
    (Serial.popStep ring pc = some (ring, .inr none) ∧ pc.left ring = 7) ∨
    ∃ c rest, q.elements = c :: rest ∧ Serial.popStep ring pc =
      some ({ ring with tail := Ringbuf.next ring.tail }, .inr (some c)) := by
  cases pc with
  | start =>
    have hempty : ring.head ≠ ring.tail ↔ q.elements ≠ [] := hh.head_eq_tail_iff.not
    refine .inl ⟨.head ring.head, rfl, hempty.1, fun hne => ?_⟩
    rw [PopPc.left, PopPc.left, if_pos (hempty.2 hne)]
    decide
  | head x =>
    by_cases hx : x = ring.tail
    · exact .inr (.inl ⟨by simp [Serial.popStep, hx], by simp [PopPc.left, hx]⟩)
    · refine .inl ⟨.found, by simp [Serial.popStep, hx], h hx, fun _ => ?_⟩
      rw [PopPc.left, PopPc.left, if_pos hx]
      decide
  | found => exact .inl ⟨.index ring.tail, rfl, ⟨rfl, h⟩, fun _ => by simp [PopPc.left]⟩
  | index t =>
    obtain ⟨rfl, hne⟩ := h
    obtain ⟨c, rest, hc⟩ := List.exists_cons_of_ne_nil hne
    obtain ⟨-, i, hi, hbyte⟩ := hh.setTail hc
    refine .inl ⟨.byte c, by simp [Serial.popStep, hi, hbyte], ?_, fun _ => by simp [PopPc.left]⟩
    rw [PopPc.Fits, hc, List.head?_cons]
  | byte c => exact .inl ⟨.next c ring.tail, rfl, ⟨rfl, h⟩, fun _ => by simp [PopPc.left]⟩
  | next c t =>
    obtain ⟨rfl, hhead⟩ := h
    obtain ⟨rest, hc⟩ := List.head?_eq_some_iff.1 hhead
    exact .inr (.inr ⟨c, rest, hc, rfl⟩)

/-- The reader has got a byte, or its call has returned. -/
def Served (s s' : Console) : Prop :=
  s.delivered.length < s'.delivered.length ∨ s.results.length < s'.results.length

/-- **The next access** of the call in progress serves the reader, or only moves its place: nearer
to the next byte if there is one. -/
theorem Sees.access {r : Reading} (h : Sees s q) (hr : s.call = some r) :
    ∃ s' q' out, s.exec .access = some s' ∧ Moves .access s s' q q' out [] ∧ (Served s s' ∨
      ∃ pc, s' = { s with call := some { r with pc := pc } } ∧ q' = q ∧
        (q.elements ≠ [] → pc.left s.ring < r.pc.left s.ring)) := by
  obtain ⟨fn, bytes, pc⟩ := r
  obtain ⟨hfits, hwants⟩ := h.fits _ hr
  have hdeliv : s.delivered = (s.results.map Prod.snd).flatten ++ bytes := by
    rw [Console.delivered, hr]
    rfl
  -- what another thread has read is nothing, so that it fits any queue
  have hothers : ∀ (ring : Ringbuf) (q' : BoundedQueue Byte ringbufCapacity) (pc : PopPc),
      pc.Fits s.ring q → (ConsoleOp.access = .access → pc = .start) → pc.Fits ring q' := by
    intro ring q' pc _ hpc
    rw [hpc rfl]
    trivial
  -- an access that does not return only moves the place
  have hmove : ∀ pc' : PopPc, s.exec .access = some { s with call := some ⟨fn, bytes, pc'⟩ } →
      pc'.Fits s.ring q → (q.elements ≠ [] → pc'.left s.ring < pc.left s.ring) →
      ∃ s' q' out, s.exec .access = some s' ∧ Moves .access s s' q q' out [] ∧ (Served s s' ∨
        ∃ pc₁, s' = { s with call := some ⟨fn, bytes, pc₁⟩ } ∧ q' = q ∧
          (q.elements ≠ [] → pc₁.left s.ring < pc.left s.ring)) := by
    intro pc' he hpc' hleft
    refine ⟨_, q, [], he, ⟨⟨h.holds, fun x hx => ?_, h.results⟩, ?_, (List.append_nil _).symm,
      by simp, hothers _ _⟩, .inr ⟨pc', rfl, rfl, hleft⟩⟩
    · cases hx
      exact ⟨hpc', hwants⟩
    · rw [hdeliv, List.append_nil]
      rfl
  rcases hfits.popStep h.holds with ⟨pc', hpop, hfits', hleft⟩ | ⟨hpop, hleft⟩ | ⟨c, rest, hc, hpop⟩
  · exact hmove pc' (by rw [Console.exec, hr]; simp [hpop]) hfits' hleft
  · by_cases hw : fn.waits bytes
    · refine hmove .start (by rw [Console.exec, hr]; simp [hpop, hw]) trivial fun _ => ?_
      rw [hleft, PopPc.left]
      decide
    · refine ⟨{ s with call := none, results := s.results ++ [(fn, bytes)] }, q, [], ?_,
        ⟨⟨h.holds, fun x hx => by simp at hx, fun y hy => ?_⟩, ?_, (List.append_nil _).symm,
          by simp, hothers _ _⟩, .inl (.inr ?_)⟩
      · rw [Console.exec, hr]
        simp [hpop, hw]
      · rcases List.mem_append.1 hy with hy | hy
        · exact h.results y hy
        · rw [List.mem_singleton.1 hy]
          exact returned_of_not_waits hwants hw
      · rw [hdeliv]
        simp [Console.delivered]
      · simp
  · set s₁ : Console := { s with ring := { s.ring with tail := Ringbuf.next s.ring.tail } } with hs₁
    have hnew : (s₁.goOn fn (bytes ++ [cooked c])).delivered = s.delivered ++ [cooked c] := by
      rw [delivered_goOn, hdeliv, List.append_assoc]
    refine ⟨s₁.goOn fn (bytes ++ [cooked c]), q.pop.2, [cooked c],
      by rw [Console.exec, hr]; simp [hpop, hs₁, Console.goOn],
      ⟨Sees.goOn (h.holds.setTail hc).1 h.results (.inr ⟨bytes, cooked c, rfl, hwants⟩), hnew, ?_,
        by simp [BoundedQueue.pop, hc], hothers _ _⟩, .inl (.inl ?_)⟩
    · rw [(ring_goOn s₁ fn _).2, List.append_nil]
      rfl
    · rw [hnew]
      simp

theorem Reads.access {r : Reading} (h : Reads s q) (hr : s.call = some r) :
    ∃ s' q', s.exec .access = some s' ∧ Reads s' q' ∧ (Served s s' ∨
      ∃ pc, s' = { s with call := some { r with pc := pc } } ∧ q' = q ∧
        (q.elements ≠ [] → pc.left s.ring < r.pc.left s.ring)) := by
  obtain ⟨s', q', out, he, hm, hnext⟩ := h.sees.access hr
  exact ⟨s', q', he, h.moves hm, hnext⟩

/-! ## Runs -/

theorem reads_start : Reads .start .empty := by
  refine ⟨Ringbuf.holds_empty le_rfl (by decide) rfl, rfl, fun r hr => ?_, fun r hr => ?_⟩
  · cases hr
  · cases hr

theorem Sees.step {op : ConsoleOp} (h : Sees s q) (he : s.exec op = some s') :
    ∃ q' out taken, Moves op s s' q q' out taken := by
  cases op with
  | receive c =>
    obtain ⟨taken, hm⟩ := (h.receive he).1
    exact ⟨_, _, _, hm⟩
  | call fn =>
    simp only [Console.exec] at he
    split at he
    · rename_i hnone
      cases he
      obtain ⟨hring, haccepted⟩ := ring_goOn s fn []
      refine ⟨q, [], [], Sees.goOn h.holds h.results (.inl rfl), ?_, ?_, by simp,
        fun pc hpc _ => ?_⟩
      · rw [delivered_goOn, Console.delivered, Option.isNone_iff_eq_none.1 hnone]
        simp
      · rw [haccepted, List.append_nil]
      · rw [hring]
        exact hpc
    · cases he
  | access =>
    cases hr : s.call with
    | none =>
      rw [Console.exec, hr] at he
      cases he
    | some r =>
      obtain ⟨s₁, q', out, he', hm, -⟩ := h.access hr
      cases he.symm.trans he'
      exact ⟨q', out, [], hm⟩

theorem Reads.step (h : Reads s q) (hs : ConsoleStep s s') : ∃ q', Reads s' q' := by
  obtain ⟨op, he⟩ := hs
  obtain ⟨q', out, taken, hm⟩ := h.sees.step he
  exact ⟨q', h.moves hm⟩

theorem Reads.run (h : Reads s q) (hs : Relation.ReflTransGen ConsoleStep s s') :
    ∃ q', Reads s' q' := by
  induction hs with
  | refl => exact ⟨q, h⟩
  | tail _ hs ih =>
    obtain ⟨q', hq'⟩ := ih
    exact hq'.step hs

/-- Perform the steps in turn. -/
def consoleRun : Console → List ConsoleOp → Option Console
  | s, [] => some s
  | s, op :: ops => do
    let s' ← s.exec op
    consoleRun s' ops

/-- The first `n` accesses of the call in progress, without an interrupt. -/
def accesses : ℕ → Console → Option Console
  | 0, s => some s
  | n + 1, s => do
    let s' ← s.exec .access
    accesses n s'

theorem one_le_left (ring : Ringbuf) (pc : PopPc) : 1 ≤ pc.left ring := by
  cases pc with
  | head x =>
    rw [PopPc.left]
    split <;> decide
  | _ => simp [PopPc.left]

theorem left_le_seven (ring : Ringbuf) (pc : PopPc) : pc.left ring ≤ 7 := by
  cases pc with
  | head x =>
    rw [PopPc.left]
    split <;> decide
  | _ => simp [PopPc.left]

/-- A call in progress is served if there is a byte in the ring. -/
theorem Reads.served {r : Reading} (h : Reads s q) (hr : s.call = some r) (hne : q.elements ≠ []) :
    ∃ n ≤ r.pc.left s.ring, ∃ s', accesses n s = some s' ∧ Served s s' := by
  induction hleft : r.pc.left s.ring using Nat.strong_induction_on generalizing s r with
  | _ m ih =>
  obtain ⟨s₁, q₁, he, hreads, hserved | ⟨pc, rfl, rfl, hlt⟩⟩ := h.access hr
  · have hpos : 1 ≤ m := hleft ▸ one_le_left s.ring r.pc
    exact ⟨1, hpos, s₁, by rw [accesses, he]; rfl, hserved⟩
  · obtain ⟨n, hn, s', hs', hserved⟩ := ih _ (hleft ▸ hlt hne) hreads rfl rfl
    refine ⟨n + 1, ?_, s', by rw [accesses, he]; exact hs', ?_⟩
    · have := hlt hne
      simp only at hn
      omega
    · have hdeliv : Console.delivered { s with call := some { r with pc := pc } } =
          s.delivered := by
        rw [Console.delivered, Console.delivered, hr]
        rfl
      rwa [Served, hdeliv] at hserved

theorem results_length_le {op : ConsoleOp} (he : s.exec op = some s') :
    s.results.length ≤ s'.results.length := by
  have hgo : ∀ (t : Console) (fn : ReadFn) (bytes : List Byte),
      t.results.length ≤ (t.goOn fn bytes).results.length := by
    intro t fn bytes
    unfold Console.goOn
    split <;> simp
  cases op with
  | receive c =>
    obtain ⟨r, -, he⟩ := Option.bind_eq_some_iff.1 he
    cases he
    exact le_rfl
  | call fn =>
    simp only [Console.exec] at he
    split at he
    · cases he
      exact hgo s fn []
    · cases he
  | access =>
    obtain ⟨call, -, he⟩ := Option.bind_eq_some_iff.1 he
    obtain ⟨⟨ring, pc | _ | c⟩, -, he⟩ := Option.bind_eq_some_iff.1 he
    · cases he
      exact le_rfl
    · simp only at he
      split at he
      · cases he
        exact le_rfl
      · cases he
        simp
    · cases he
      exact hgo { s with ring := ring } call.fn _

/-- What has been delivered and returned stays. -/
theorem Sees.lengths {ops : List ConsoleOp} (h : Sees s q) (hrun : consoleRun s ops = some s') :
    s.delivered.length ≤ s'.delivered.length ∧ s.results.length ≤ s'.results.length := by
  induction ops generalizing s q with
  | nil =>
    cases hrun
    exact ⟨le_rfl, le_rfl⟩
  | cons op ops ih =>
    obtain ⟨s₁, he, hrun⟩ := Option.bind_eq_some_iff.1 hrun
    obtain ⟨q₁, out, taken, hm⟩ := h.step he
    obtain ⟨hd, hr⟩ := ih hm.sees hrun
    refine ⟨le_trans ?_ hd, (results_length_le he).trans hr⟩
    rw [hm.delivered, List.length_append]
    exact Nat.le_add_right _ _

theorem Served.congr {t : Console} (h : Served s s') (hd : t.delivered = s.delivered)
    (hr : t.results = s.results) : Served t s' := by
  rwa [Served, hd, hr]

/-- The interrupt handler leaves the reader where it is. -/
theorem receive_reader (h : Sees s q) (he : s.exec (.receive c) = some s') :
    s'.call = s.call ∧ s'.results = s.results ∧ ∀ pc : PopPc, pc.left s'.ring = pc.left s.ring := by
  obtain ⟨r, hr, he⟩ := Option.bind_eq_some_iff.1 he
  cases he
  obtain ⟨-, htail, -⟩ := h.holds.push_cases hr
  refine ⟨rfl, rfl, fun pc => ?_⟩
  cases pc <;> simp only [PopPc.left, htail]

/-- A call in progress is served by so many accesses, whatever comes in between. -/
theorem Reads.served_between {ops : List ConsoleOp} {r : Reading} (h : Reads s q)
    (hr : s.call = some r) (hne : q.elements ≠ []) (hrun : consoleRun s ops = some s')
    (hleft : r.pc.left s.ring ≤ ops.count .access) : Served s s' := by
  induction ops generalizing s q r with
  | nil => exact absurd (one_le_left s.ring r.pc) (by simpa using hleft)
  | cons op ops ih =>
    obtain ⟨s₁, he, hrest⟩ := Option.bind_eq_some_iff.1 hrun
    cases op with
    | receive c =>
      obtain ⟨⟨taken, hm⟩, -⟩ := h.sees.receive he
      obtain ⟨hcall, hresults, hleft'⟩ := receive_reader h.sees he
      have hne' : (q.push c).2.elements ≠ [] := by
        unfold BoundedQueue.push
        split <;> simp [hne]
      rw [List.count_cons_of_ne (by simp)] at hleft
      refine (ih (h.moves hm) (hcall.trans hr) hne' hrest (by rwa [hleft'])).congr ?_ hresults.symm
      rw [hm.delivered, List.append_nil]
    | call fn =>
      rw [Console.exec, hr] at he
      cases he
    | access =>
      rw [List.count_cons_self] at hleft
      obtain ⟨s₂, q₂, he', hreads, hserved⟩ := h.access hr
      cases he.symm.trans he'
      rcases hserved with hserved | ⟨pc, rfl, rfl, hlt⟩
      · obtain ⟨hd, hr'⟩ := hreads.sees.lengths hrest
        exact hserved.imp hd.trans_lt' hr'.trans_lt'
      · have hlt' := hlt hne
        refine (ih hreads rfl hne hrest ?_).congr ?_ rfl
        · change pc.left s.ring ≤ _
          omega
        · rw [Console.delivered, Console.delivered, hr]
          rfl

/-- **Reading the port.** In any run of interrupts, calls and accesses: the bytes given to the
callers are the bytes that the ring took, in order and each once, up to those `unread`; every call
that returned has the bytes it asked for; a received byte is lost exactly if 2047 are unread; no
access is outside the array; and a call in progress gets a byte or returns after at most seven
accesses if one is unread, whatever comes between these. -/
theorem console_reads (h : Relation.ReflTransGen ConsoleStep .start s) : ∃ unread : List Byte,
    s.delivered ++ unread.map cooked = s.accepted.map cooked ∧
    (∀ r ∈ s.results, Returned r) ∧
    (∀ c, ∃ s', s.exec (.receive c) = some s' ∧
      s'.arrivals = s.arrivals ++ [(c, decide (unread.length < 2047))]) ∧
    ∀ r, s.call = some r → (s.exec .access).isSome ∧
      (unread ≠ [] → (∃ n ≤ 7, ∃ s', accesses n s = some s' ∧ Served s s') ∧
        ∀ ops s', consoleRun s ops = some s' → 7 ≤ ops.count .access → Served s s') := by
  obtain ⟨q, hq⟩ := reads_start.run h
  refine ⟨q.elements, hq.order, hq.results, fun c => ?_, fun r hr => ⟨?_, fun hne => ?_⟩⟩
  · obtain ⟨ring', hcall, -⟩ := hq.holds.push c
    obtain ⟨r, hr, -⟩ := Option.map_eq_some_iff.1 hcall
    have he : s.exec (.receive c) =
        some { s with ring := r.2, arrivals := s.arrivals ++ [(c, r.1)] } := by
      rw [Console.exec, hr]
      rfl
    exact ⟨_, he, (hq.sees.receive he).2⟩
  · obtain ⟨s', -, he, -⟩ := hq.access hr
    rw [he]
    rfl
  · obtain ⟨n, hn, hs⟩ := hq.served hr hne
    have hseven := left_le_seven s.ring r.pc
    refine ⟨⟨n, hn.trans hseven, hs⟩, fun ops s' hrun hcount => ?_⟩
    exact hq.served_between hr hne hrun (hseven.trans hcount)

theorem steps_of_consoleRun {ops : List ConsoleOp} (h : consoleRun s ops = some s') :
    Relation.ReflTransGen ConsoleStep s s' := by
  induction ops generalizing s with
  | nil =>
    cases h
    exact .refl
  | cons op ops ih =>
    obtain ⟨s₁, he, h⟩ := Option.bind_eq_some_iff.1 h
    exact .head ⟨op, he⟩ (ih h)

/-- A read of two bytes. The first one has arrived before the call and the second one, a carriage
return, while the call waits. -/
theorem console_reads_two : ∃ (s : Console) (unread : List Byte),
    consoleRun .start (.receive 97 :: .call (.sysUartRead 2) ::
      (List.replicate 8 .access ++ .receive 13 :: .receive 98 :: List.replicate 6 .access)) =
      some s ∧
    s.results = [(.sysUartRead 2, [97, 10])] ∧
    s.delivered ++ unread.map cooked = s.accepted.map cooked := by
  obtain ⟨s, hs, hresults⟩ : ∃ s, consoleRun .start (.receive 97 :: .call (.sysUartRead 2) ::
      (List.replicate 8 .access ++ .receive 13 :: .receive 98 :: List.replicate 6 .access)) =
        some s ∧
      s.results = [(.sysUartRead 2, [97, 10])] := ⟨_, rfl, rfl⟩
  obtain ⟨unread, horder, -⟩ := console_reads (steps_of_consoleRun hs)
  exact ⟨s, unread, hs, hresults, horder⟩

end BareMetalOS.Serial
