import Mathlib.Data.List.Basic
import Mathlib.Tactic

/-!
# Bounded queues

A queue of at most `n` elements in the order of their arrival: `push` adds one at the end unless the
queue is full, `pop` removes the first one. Over any run, what was in the queue and what was pushed
is what was popped and what is still there, in this order (`append_accepted`). A machine whose
answers agree with those of the queue, call by call, agrees with it over any run
(`SimulatesQueue.run`).
-/

namespace BareMetalOS

variable {α σ : Type*} {n : ℕ}

/-- At most `n` elements, the oldest first. -/
structure BoundedQueue (α : Type*) (n : ℕ) where
  elements : List α
  length_le : elements.length ≤ n

/-- A call on a queue. -/
inductive QueueCall (α : Type*)
  | push (a : α)
  | pop
  deriving DecidableEq, Repr

/-- What a call answers: whether the element was taken, and the element removed. -/
inductive QueueAnswer (α : Type*)
  | pushed (success : Bool)
  | popped (a : Option α)
  deriving DecidableEq, Repr

/-- The element that the call has added. -/
def QueueCall.accepted : QueueCall α → QueueAnswer α → List α
  | .push a, .pushed true => [a]
  | _, _ => []

/-- The element that the call has removed. -/
def QueueAnswer.removed : QueueAnswer α → List α
  | .popped (some a) => [a]
  | _ => []

/-- The elements that the calls have added, in order. -/
def acceptedBy (calls : List (QueueCall α)) (answers : List (QueueAnswer α)) : List α :=
  (List.zipWith QueueCall.accepted calls answers).flatten

/-- The elements that the calls have removed, in order. -/
def removedBy (answers : List (QueueAnswer α)) : List α := answers.flatMap QueueAnswer.removed

namespace BoundedQueue

/-- The queue without elements. -/
def empty : BoundedQueue α n := ⟨[], Nat.zero_le n⟩

/-- Add an element at the end, unless the queue is full. -/
def push (q : BoundedQueue α n) (a : α) : QueueAnswer α × BoundedQueue α n :=
  if h : q.elements.length < n then
    (.pushed true, ⟨q.elements ++ [a], by rw [List.length_append]; exact h⟩)
  else (.pushed false, q)

/-- Remove the first element, if there is one. -/
def pop (q : BoundedQueue α n) : QueueAnswer α × BoundedQueue α n :=
  (.popped q.elements.head?, ⟨q.elements.tail, List.length_tail ▸ Nat.sub_le_of_le_add
    (q.length_le.trans (Nat.le_add_right n 1))⟩)

/-- Perform a call. -/
def call (q : BoundedQueue α n) : QueueCall α → QueueAnswer α × BoundedQueue α n
  | .push a => q.push a
  | .pop => q.pop

/-- Perform the calls in turn. -/
def run (q : BoundedQueue α n) : List (QueueCall α) → List (QueueAnswer α) × BoundedQueue α n
  | [] => ([], q)
  | c :: cs =>
    let (a, q') := q.call c
    let (as, q'') := q'.run cs
    (a :: as, q'')

/-! ## What a run does -/

theorem append_accepted_call (q : BoundedQueue α n) (c : QueueCall α) :
    q.elements ++ c.accepted (q.call c).1 = (q.call c).1.removed ++ (q.call c).2.elements := by
  cases c with
  | push a =>
    rw [call, push]
    split
    · rfl
    · exact List.append_nil _
  | pop =>
    obtain ⟨elements, hle⟩ := q
    cases elements with
    | nil => rfl
    | cons b l => exact List.append_nil _

/-- The elements of the queue and those added are those removed and those left. -/
theorem append_accepted (q : BoundedQueue α n) (cs : List (QueueCall α)) :
    q.elements ++ acceptedBy cs (q.run cs).1 =
      removedBy (q.run cs).1 ++ (q.run cs).2.elements := by
  induction cs generalizing q with
  | nil => exact List.append_nil _
  | cons c cs ih =>
    have hrun : q.elements ++ acceptedBy (c :: cs) (q.run (c :: cs)).1 =
        (q.elements ++ c.accepted (q.call c).1) ++
          acceptedBy cs ((q.call c).2.run cs).1 := by
      simp [run, acceptedBy]
    rw [hrun, append_accepted_call, List.append_assoc, ih]
    simp [run, removedBy]

end BoundedQueue

/-! ## Machines that behave as a queue -/

/-- Perform the calls in turn on a machine; `none` if it stops. -/
def queueRun (step : σ → QueueCall α → Option (QueueAnswer α × σ)) :
    σ → List (QueueCall α) → Option (List (QueueAnswer α) × σ)
  | s, [] => some ([], s)
  | s, c :: cs => do
    let (a, s') ← step s c
    let (as, s'') ← queueRun step s' cs
    return (a :: as, s'')

/-- Related states answer each call alike and stay related. -/
def SimulatesQueue (step : σ → QueueCall α → Option (QueueAnswer α × σ))
    (r : σ → BoundedQueue α n → Prop) : Prop :=
  ∀ s q c, r s q → ∃ s', step s c = some ((q.call c).1, s') ∧ r s' (q.call c).2

theorem SimulatesQueue.run {step : σ → QueueCall α → Option (QueueAnswer α × σ)}
    {r : σ → BoundedQueue α n → Prop} (h : SimulatesQueue step r) {s : σ} {q : BoundedQueue α n}
    (hs : r s q) (cs : List (QueueCall α)) :
    ∃ s', queueRun step s cs = some ((q.run cs).1, s') ∧ r s' (q.run cs).2 := by
  induction cs generalizing s q with
  | nil => exact ⟨s, rfl, hs⟩
  | cons c cs ih =>
    obtain ⟨s₁, hstep, hs₁⟩ := h s q c hs
    obtain ⟨s₂, hrun, hs₂⟩ := ih hs₁
    apply Exists.intro s₂
    constructor
    · rw [queueRun, hstep]
      simp only [Option.bind_eq_bind, Option.bind_some, hrun]
      rfl
    · exact hs₂

end BareMetalOS
