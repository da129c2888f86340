import BareMetalOS.Boot.Fdt
import BareMetalOS.Foundations.BoundedQueue

/-!
# The ring buffers of the serial port

`ringbuf_push` and `ringbuf_pop` of `src/uart.c`. The bytes between `tail` and `head`, around the
end of the array, are a bounded queue of one byte less than the array has (`Ringbuf.Holds`), and
each call on the ring is the call on this queue (`ringbufCall_simulates`).
-/

namespace BareMetalOS.Serial

open Boot (Byte)

/-! ## The ring -/

/-- `RINGBUF_SIZE` -/
def ringbufSize : ℕ := 2048

/-- `ringbuf_t` -/
structure Ringbuf where
  buffer : Fin ringbufSize → Byte
  /-- the next empty position to write -/
  head : ℤ
  /-- the next position to read -/
  tail : ℤ

namespace Ringbuf

/-- The index as a position of the array; `none` if it is outside. -/
def position (i : ℤ) : Option (Fin ringbufSize) :=
  if h : 0 ≤ i ∧ i < ringbufSize then some ⟨i.toNat, by omega⟩ else none

/-- `(i + 1) % RINGBUF_SIZE` -/
def next (i : ℤ) : ℤ := (i + 1).tmod ringbufSize

/-- Both indices are positions of the array. -/
structure InRange (ring : Ringbuf) : Prop where
  head_nonneg : 0 ≤ ring.head
  head_lt : ring.head < ringbufSize
  tail_nonneg : 0 ≤ ring.tail
  tail_lt : ring.tail < ringbufSize

end Ringbuf

/-- `ringbuf_push`: what it returns and the ring after it; `none` for an access outside the
array. -/
def ringbufPush (ring : Ringbuf) (c : Byte) : Option (Bool × Ringbuf) :=
  let next := Ringbuf.next ring.head
  if next ≠ ring.tail then do
    let i ← Ringbuf.position ring.head
    return (true, { ring with buffer := Function.update ring.buffer i c, head := next })
  else
    return (false, ring)

/-- `ringbuf_pop`: the byte it stores at its second argument when it returns 1, and the ring after
it. -/
def ringbufPop (ring : Ringbuf) : Option (Option Byte × Ringbuf) :=
  if ring.head ≠ ring.tail then do
    let i ← Ringbuf.position ring.tail
    return (some (ring.buffer i), { ring with tail := Ringbuf.next ring.tail })
  else
    return (none, ring)

/-- A call on a ring. -/
def ringbufCall (ring : Ringbuf) : QueueCall Byte → Option (QueueAnswer Byte × Ringbuf)
  | .push c => (ringbufPush ring c).map fun r => (.pushed r.1, r.2)
  | .pop => (ringbufPop ring).map fun r => (.popped r.1, r.2)

/-! ## The queue in the ring -/

/-- The capacity of the ring: one position stays empty. -/
def ringbufCapacity : ℕ := 2047

/-- The queue is in the ring: its bytes are those from `tail` on, and end before `head`. -/
structure Ringbuf.Holds (ring : Ringbuf) (q : BoundedQueue Byte ringbufCapacity) : Prop where
  inRange : ring.InRange
  length : (ring.tail + q.elements.length) % ringbufSize = ring.head
  bytes : ∀ (i : ℕ) (j : Fin ringbufSize) (c : Byte), q.elements[i]? = some c →
    (j : ℤ) = (ring.tail + i) % ringbufSize → ring.buffer j = c

section Indices

variable {ring : Ringbuf} {i : ℤ}

theorem Ringbuf.position_eq (h₀ : 0 ≤ i) (h : i < ringbufSize) :
    ∃ j : Fin ringbufSize, Ringbuf.position i = some j ∧ (j : ℤ) = i := by
  rw [position, dif_pos ⟨h₀, h⟩]
  exact ⟨_, rfl, Int.toNat_of_nonneg h₀⟩

theorem Ringbuf.next_eq (h₀ : 0 ≤ i) : Ringbuf.next i = (i + 1) % ringbufSize :=
  Int.tmod_eq_emod_of_nonneg (by omega)

end Indices

section Calls

variable {ring : Ringbuf} {q : BoundedQueue Byte ringbufCapacity}

/-- The ring is full exactly when the queue is. -/
theorem Ringbuf.Holds.next_eq_tail_iff (h : ring.Holds q) :
    Ringbuf.next ring.head = ring.tail ↔ q.elements.length = ringbufCapacity := by
  have hin := h.inRange
  have hlength := h.length
  have hle := q.length_le
  rw [Ringbuf.next_eq hin.head_nonneg]
  have := hin.head_lt
  have := hin.tail_nonneg
  have := hin.tail_lt
  unfold ringbufSize ringbufCapacity at *
  omega

/-- The ring is empty exactly when the queue is. -/
theorem Ringbuf.Holds.head_eq_tail_iff (h : ring.Holds q) :
    ring.head = ring.tail ↔ q.elements = [] := by
  have hin := h.inRange
  have hlength := h.length
  have hle := q.length_le
  rw [← List.length_eq_zero_iff]
  have := hin.tail_nonneg
  have := hin.tail_lt
  unfold ringbufSize ringbufCapacity at *
  omega

theorem Ringbuf.Holds.push (h : ring.Holds q) (c : Byte) :
    ∃ ring', ringbufCall ring (.push c) = some ((q.push c).1, ring') ∧
      ring'.Holds (q.push c).2 := by
  have hin := h.inRange
  have hfull := h.next_eq_tail_iff
  rw [ringbufCall, ringbufPush]
  by_cases hlt : q.elements.length < ringbufCapacity
  · have hne : Ringbuf.next ring.head ≠ ring.tail := by
      rw [Ne, hfull]
      exact hlt.ne
    obtain ⟨j, hj, hjhead⟩ := Ringbuf.position_eq hin.head_nonneg hin.head_lt
    rw [BoundedQueue.push, dif_pos hlt]
    simp only [if_pos hne, hj, Option.bind_eq_bind, Option.bind_some, Option.pure_def,
      Option.map_some]
    apply Exists.intro _
    apply And.intro rfl
    have hlength := h.length
    have hnext := Ringbuf.next_eq hin.head_nonneg
    have := hin.tail_nonneg
    have := hin.tail_lt
    constructor
    · constructor
      · exact hnext ▸ Int.emod_nonneg _ (by decide)
      · exact hnext ▸ Int.emod_lt_of_pos _ (by decide)
      · exact hin.tail_nonneg
      · exact hin.tail_lt
    · simp only [List.length_append, List.length_singleton, hnext]
      unfold ringbufSize at *
      omega
    · intro i k b hi hk
      change (k : ℤ) = (ring.tail + i) % ringbufSize at hk
      obtain hlt' | rfl : i < q.elements.length ∨ i = q.elements.length := by
        have := (List.getElem?_eq_some_iff.1 hi).1
        simp only [List.length_append, List.length_singleton] at this
        omega
      · -- an older byte is not at the position of the new one
        rw [List.getElem?_append_left hlt'] at hi
        have hne : k ≠ j := by
          rintro rfl
          unfold ringbufSize ringbufCapacity at *
          omega
        exact (Function.update_of_ne hne _ _).trans (h.bytes i k b hi hk)
      · rw [List.getElem?_concat_length] at hi
        cases hi
        have hkj : k = j := by
          apply Fin.ext
          omega
        exact hkj ▸ Function.update_self _ _ _
  · have heq : Ringbuf.next ring.head = ring.tail := hfull.2 (by have := q.length_le; omega)
    rw [BoundedQueue.push, dif_neg hlt]
    simp only [heq, ne_eq, not_true_eq_false, if_false, Option.pure_def, Option.map_some]
    exact ⟨ring, rfl, h⟩

theorem Ringbuf.Holds.pop (h : ring.Holds q) :
    ∃ ring', ringbufCall ring .pop = some (q.pop.1, ring') ∧ ring'.Holds q.pop.2 := by
  have hin := h.inRange
  have hempty := h.head_eq_tail_iff
  rw [ringbufCall, ringbufPop]
  obtain ⟨elements, hle⟩ := q
  cases elements with
  | nil =>
    rw [if_neg (not_not.2 (hempty.2 rfl))]
    exact ⟨ring, rfl, h⟩
  | cons c l =>
    have hne : ring.head ≠ ring.tail := by
      rw [Ne, hempty]
      exact List.cons_ne_nil c l
    obtain ⟨j, hj, hjtail⟩ := Ringbuf.position_eq hin.tail_nonneg hin.tail_lt
    have hjc : ring.buffer j = c := by
      apply h.bytes 0 j c rfl
      rw [hjtail, Nat.cast_zero, Int.add_zero]
      exact (Int.emod_eq_of_lt hin.tail_nonneg hin.tail_lt).symm
    simp only [if_pos hne, hj, Option.bind_eq_bind, Option.bind_some, Option.pure_def,
      Option.map_some, hjc]
    apply Exists.intro _
    apply And.intro rfl
    have hlength := h.length
    have hnext := Ringbuf.next_eq hin.tail_nonneg
    constructor
    · constructor
      · exact hin.head_nonneg
      · exact hin.head_lt
      · exact hnext ▸ Int.emod_nonneg _ (by decide)
      · exact hnext ▸ Int.emod_lt_of_pos _ (by decide)
    · simp only [BoundedQueue.pop, List.tail_cons, List.length_cons, hnext] at hlength ⊢
      unfold ringbufSize at *
      omega
    · intro i k b hi hk
      apply h.bytes (i + 1) k b hi
      simp only [hnext] at hk
      unfold ringbufSize at *
      omega

/-- Each call on the ring is the call on the queue in it. -/
theorem ringbufCall_simulates : SimulatesQueue ringbufCall Ringbuf.Holds := by
  intro ring q c h
  cases c with
  | push c => exact h.push c
  | pop => exact h.pop

theorem Ringbuf.Holds.ringbufPush (h : ring.Holds q) (c : Byte) :
    (q.elements.length < ringbufCapacity → ∃ ring', ringbufPush ring c = some (true, ring')) ∧
      (¬ q.elements.length < ringbufCapacity → ringbufPush ring c = some (false, ring)) := by
  have hfull := h.next_eq_tail_iff
  have hle := q.length_le
  constructor
  · intro hlt
    have hne : Ringbuf.next ring.head ≠ ring.tail := by
      rw [Ne, hfull]
      exact hlt.ne
    obtain ⟨j, hj, -⟩ := Ringbuf.position_eq h.inRange.head_nonneg h.inRange.head_lt
    rw [Serial.ringbufPush, if_pos hne, hj]
    exact ⟨_, rfl⟩
  · intro hnot
    rw [Serial.ringbufPush, if_neg (not_not.2 (hfull.2 (by omega)))]
    rfl

theorem Ringbuf.Holds.ringbufPop (h : ring.Holds q) :
    (q.elements = [] → ringbufPop ring = some (none, ring)) ∧
      ∀ c rest, q.elements = c :: rest → ∃ ring', ringbufPop ring = some (some c, ring') := by
  constructor
  · intro hnil
    rw [Serial.ringbufPop, if_neg (not_not.2 (h.head_eq_tail_iff.2 hnil))]
    rfl
  · intro c rest hcons
    obtain ⟨ring', hpop, -⟩ := h.pop
    rw [ringbufCall, Option.map_eq_some_iff] at hpop
    obtain ⟨⟨b, ring''⟩, hring, heq⟩ := hpop
    simp only [BoundedQueue.pop, hcons, List.head?_cons, Prod.mk.injEq,
      QueueAnswer.popped.injEq] at heq
    exact ⟨ring'', heq.1 ▸ hring⟩

/-- A ring whose indices are equal holds the empty queue. -/
theorem Ringbuf.holds_empty (h₀ : 0 ≤ ring.head) (hlt : ring.head < ringbufSize)
    (heq : ring.head = ring.tail) : ring.Holds .empty := by
  constructor
  · exact ⟨h₀, hlt, heq ▸ h₀, heq ▸ hlt⟩
  · rw [← heq]
    simpa [BoundedQueue.empty] using Int.emod_eq_of_lt h₀ hlt
  · intro i j c hi
    simp [BoundedQueue.empty] at hi

end Calls

/-! ## Runs -/

/-- **The ring is a bounded queue.** From equal indices, any run of calls answers as the empty queue
of capacity `RINGBUF_SIZE - 1` does, never accesses the array outside, and keeps the indices in
range. The bytes taken are, in this order, the bytes given back and the `queued` ones; the next
`ringbuf_push` succeeds exactly when fewer than 2047 are queued and otherwise changes nothing, and
the next `ringbuf_pop` gives the first queued byte, or fails and changes nothing. -/
theorem ringbuf_run (ring : Ringbuf) (calls : List (QueueCall Byte)) (h₀ : 0 ≤ ring.head)
    (hlt : ring.head < ringbufSize) (heq : ring.head = ring.tail) :
    ∃ (answers : List (QueueAnswer Byte)) (ring' : Ringbuf) (queued : List Byte),
      queueRun ringbufCall ring calls = some (answers, ring') ∧
      answers = ((BoundedQueue.empty : BoundedQueue Byte 2047).run calls).1 ∧
      ring'.InRange ∧
      acceptedBy calls answers = removedBy answers ++ queued ∧
      (∀ c, (queued.length < 2047 → ∃ ring'', ringbufPush ring' c = some (true, ring'')) ∧
        (¬ queued.length < 2047 → ringbufPush ring' c = some (false, ring'))) ∧
      (queued = [] → ringbufPop ring' = some (none, ring')) ∧
      ∀ c rest, queued = c :: rest → ∃ ring'', ringbufPop ring' = some (some c, ring'') := by
  have hstart := Ringbuf.holds_empty h₀ hlt heq
  obtain ⟨ring', hrun, hholds⟩ := ringbufCall_simulates.run hstart calls
  have hflow := BoundedQueue.append_accepted
    (BoundedQueue.empty : BoundedQueue Byte ringbufCapacity) calls
  exact ⟨_, ring', _, hrun, rfl, hholds.inRange, hflow, hholds.ringbufPush, hholds.ringbufPop⟩

/-- The receive ring at boot, and a byte through it from the last position. -/
theorem ringbuf_run_last : ∃ (answers : List (QueueAnswer Byte)) (ring' : Ringbuf),
    queueRun ringbufCall ⟨fun _ => 0, 2047, 2047⟩ [.push 65, .pop, .pop] =
      some (answers, ring') ∧ ring'.InRange := by
  obtain ⟨answers, ring', queued, hrun, -, hin, -⟩ :=
    ringbuf_run ⟨fun _ => 0, 2047, 2047⟩ [.push 65, .pop, .pop] (by decide) (by decide) rfl
  exact ⟨answers, ring', hrun, hin⟩

end BareMetalOS.Serial
