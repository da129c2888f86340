import BareMetalOS.Sched.Effects

/-!
# Signal fields

What the operations of the thread system do to the fields of a thread that belong to signals: only
`sys_kill` writes `sigpending`, none writes `is_handling_signal` or the saved registers, and a new
thread has no pending signal and handles none (`Effect.signals`).
-/

namespace BareMetalOS.Sched

open Memory (Addr)

variable {s s' : State} {q : List Addr} {a b : Addr} {t u : Thread}

/-- The same pending signals, and the same state of handling them. -/
structure SameSignals (t t' : Thread) : Prop where
  sigpending : t'.sigpending = t.sigpending
  isHandlingSignal : t'.isHandlingSignal = t.isHandlingSignal
  signalSavedRegs : t'.signalSavedRegs = t.signalSavedRegs

theorem SameSignals.refl (t : Thread) : SameSignals t t := ⟨rfl, rfl, rfl⟩

/-- Every thread of `s'` is one of `s` with the same signals. -/
def KeepsSignals (s s' : State) : Prop :=
  ∀ a t', s'.heap a = some t' → ∃ t, s.heap a = some t ∧ SameSignals t t'

namespace KeepsSignals

theorem trans {s'' : State} (h : KeepsSignals s s') (h' : KeepsSignals s' s'') :
    KeepsSignals s s'' := by
  intro a t'' ht''
  obtain ⟨t', ht', h₁, h₂, h₃⟩ := h' a t'' ht''
  obtain ⟨t, ht, h₄, h₅, h₆⟩ := h a t' ht'
  exact ⟨t, ht, h₁.trans h₄, h₂.trans h₅, h₃.trans h₆⟩

theorem set (ht : s.heap a = some t) (hu : SameSignals t u) : KeepsSignals s (s.set a u) := by
  intro b v hv
  by_cases hb : b = a
  · subst hb
    rw [State.set_heap_self] at hv
    cases hv
    exact ⟨t, ht, hu⟩
  · rw [State.set_heap_of_ne hb] at hv
    exact ⟨v, hv, .refl v⟩

theorem switched (ht : s.heap a = some t) : KeepsSignals s (s.switched a t) := by
  intro b v hv
  obtain ⟨w, hw, ⟨-, rfl⟩ | ⟨-, rfl⟩⟩ := State.switched_some ht hv
  · exact ⟨w, hw, rfl, rfl, rfl⟩
  · refine ⟨w, hw, ?_⟩
    rw [Thread.preempt]
    split <;> exact ⟨rfl, rfl, rfl⟩

theorem endThread {x : Status} (ht : s.heap a = some t) (hx : x.isZombie) :
    KeepsSignals s (endThread s a t x) := by
  intro b v hv
  have hw : x ≠ .waiting := by rintro rfl; simp [Status.isZombie] at hx
  obtain ⟨w, hw, ⟨-, rfl⟩ | ⟨-, rfl | ⟨-, -, -, rfl⟩⟩⟩ := endThread_some ht hw hv
  · exact ⟨w, hw, rfl, rfl, rfl⟩
  · exact ⟨v, hw, .refl v⟩
  · exact ⟨w, hw, rfl, rfl, rfl⟩

theorem threadWakeupCallback (s : State) (a : Addr) :
    KeepsSignals s (threadWakeupCallback s a) := by
  intro b v hv
  obtain ⟨w, hw, rfl | ⟨-, -, rfl⟩⟩ := threadWakeupCallback_some hv
  · exact ⟨v, hw, .refl v⟩
  · exact ⟨w, hw, rfl, rfl, rfl⟩

theorem reaped {gone : List Addr} (h : Reaped s s' gone) : KeepsSignals s s' := by
  intro b v hv
  obtain ⟨w, n, hw, rfl⟩ := h.old b v hv
  exact ⟨w, hw, rfl, rfl, rfl⟩

end KeepsSignals

/-- A thread that `op` has just created: it has no signals, and the saved registers are zero or
those of the parent. -/
structure NewSignals (s : State) (op : Op) (a : Addr) (t' : Thread) : Prop where
  isNew : op = .threadCreate a ∨ op = .sysFork a true
  sigpending : t'.sigpending = 0
  isHandlingSignal : t'.isHandlingSignal = false
  signalSavedRegs : t'.signalSavedRegs = .zero ∨
    ∃ c, s.heap s.tp = some c ∧ t'.signalSavedRegs = c.signalSavedRegs

/-- What an operation does to the signals of a thread. -/
theorem Effect.signals {op : Op} (he : Effect s op s') (ht' : s'.heap a = some u) :
    NewSignals s op a u ∨ (∃ t, s.heap a = some t ∧ SameSignals t u) ∨
      ∃ t signum, s.heap a = some t ∧ op = .sysKill t.pid signum ∧
        t.signalHandler signum.toNat ≠ 0 ∧ u.isHandlingSignal = t.isHandlingSignal ∧
        u.signalSavedRegs = t.signalSavedRegs := by
  have hkeep : KeepsSignals s s' → (∃ t, s.heap a = some t ∧ SameSignals t u) := fun h => h a u ht'
  cases he with
  | stay => exact .inr (.inl ⟨u, ht', .refl u⟩)
  | pidUsed mem hn => exact .inr (.inl ⟨u, ht', .refl u⟩)
  | created hmem h₀ hi hn =>
    rcases State.enqueued_some hi ht' with ⟨rfl, rfl⟩ | ⟨-, w, n, hw, rfl⟩
    · exact .inl ⟨.inl rfl, rfl, rfl, .inl rfl⟩
    · exact .inr (.inl ⟨w, hw, rfl, rfl, rfl⟩)
  | forked hmem h₀ hi hn hc =>
    rcases State.enqueued_some hi ht' with ⟨rfl, rfl⟩ | ⟨-, w, n, hw, rfl⟩
    · exact .inl ⟨.inr rfl, rfl, rfl, .inr ⟨_, hc, rfl⟩⟩
    · exact .inr (.inl ⟨w, hw, rfl, rfl, rfl⟩)
  | stopped ht hop hrq htp => exact .inr (.inl (hkeep (.endThread ht rfl)))
  | ended ht hop hx hidle hv hrun =>
    exact .inr (.inl (hkeep ((KeepsSignals.endThread ht hx).trans (.switched hv))))
  | @signalled b t signum ht hh hz =>
    by_cases hb : a = b
    · subst hb
      rw [State.set_heap_self] at ht'
      cases ht'
      exact .inr (.inr ⟨t, signum, ht, rfl, hh, rfl, rfl⟩)
    · rw [State.set_heap_of_ne hb] at ht'
      exact .inr (.inl ⟨u, ht', .refl u⟩)
  | registered ht => exact .inr (.inl (hkeep (.set ht ⟨rfl, rfl, rfl⟩)))
  | slept ht hidle hv hrun =>
    refine .inr (.inl (hkeep (.trans ?_ (.switched hv))))
    exact .set ht ⟨rfl, rfl, rfl⟩
  | sleepFailed ht => exact .inr (.inl (hkeep (.set ht ⟨rfl, rfl, rfl⟩)))
  | woke b => exact .inr (.inl (hkeep (.threadWakeupCallback s b)))
  | waited ht hidle hv hrun =>
    refine .inr (.inl (hkeep (.trans ?_ (.switched hv))))
    exact .set ht ⟨rfl, rfl, rfl⟩
  | scheduled hv hrun => exact .inr (.inl (hkeep (.switched hv)))
  | reaped hs hinv => exact .inr (.inl (hkeep (.reaped hs)))

end BareMetalOS.Sched
