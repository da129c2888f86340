import BareMetalOS.Sched.Operations

/-!
# Reaping zombies

`kill_zombies` walks the circular list once and unlinks every zombie in place. The loop is followed
with the list split at the node under inspection: the nodes kept so far end with `prev`, the nodes
still to be looked at start with `curr` (`killLoop_spec`). Every zombie is freed once and the other
threads keep their structs up to the pointer `next` and their order (`killZombies_spec`).
-/

namespace BareMetalOS.Sched

open Memory (Addr)

variable {s s' : State} {q : List Addr} {a b : Addr} {t u : Thread}

/-- The thread at `a` is a zombie. -/
def State.zombieAt (s : State) (a : Addr) : Bool := (s.heap a).any fun t => t.status.isZombie

theorem State.zombieAt_some (h : s.heap a = some t) : s.zombieAt a = t.status.isZombie := by
  simp [zombieAt, h]

/-- `s'` is `s` without the threads in `gone`, and with some pointers `next` changed. -/
structure Reaped (s s' : State) (gone : List Addr) : Prop where
  runQueue : s'.runQueue = s.runQueue
  nrThreads : s'.nrThreads = s.nrThreads
  tp : s'.tp = s.tp
  freed : ∀ b ∈ gone, s'.heap b = none
  keep : ∀ b t, b ∉ gone → s.heap b = some t → ∃ n, s'.heap b = some { t with next := n }
  old : ∀ b t', s'.heap b = some t' → ∃ t n, s.heap b = some t ∧ t' = { t with next := n }

namespace Reaped

theorem refl (s : State) : Reaped s s [] :=
  ⟨rfl, rfl, rfl, by simp, fun _ t _ h => ⟨t.next, h⟩, fun _ t h => ⟨t, t.next, h, rfl⟩⟩

theorem trans {s'' : State} {l l' : List Addr} (h : Reaped s s' l) (h' : Reaped s' s'' l') :
    Reaped s s'' (l ++ l') := by
  refine ⟨h'.runQueue.trans h.runQueue, h'.nrThreads.trans h.nrThreads, h'.tp.trans h.tp,
    fun b hb => ?_, fun b t hb ht => ?_, fun b t ht => ?_⟩
  · rcases List.mem_append.1 hb with hb | hb
    · cases hb'' : s''.heap b with
      | none => rfl
      | some t =>
        obtain ⟨t', -, ht', -⟩ := h'.old b t hb''
        rw [h.freed b hb] at ht'
        cases ht'
    · exact h'.freed b hb
  · simp only [List.mem_append, not_or] at hb
    obtain ⟨n, hn⟩ := h.keep b t hb.1 ht
    obtain ⟨n', hn'⟩ := h'.keep b _ hb.2 hn
    exact ⟨n', hn'⟩
  · obtain ⟨t', n, ht', rfl⟩ := h'.old b t ht
    obtain ⟨t'', n', ht'', rfl⟩ := h.old b t' ht'
    exact ⟨t'', n, ht'', rfl⟩

end Reaped

/-- One zombie `x` unlinked behind `prev` and freed. -/
theorem reaped_unlink {prev x : Addr} {p : Thread} (hp : s.heap prev = some p) (hne : prev ≠ x)
    (n : Addr) : Reaped s (freeThread (s.set prev { p with next := n }) x) [x] := by
  have hheap : ∀ b, b ≠ x → (freeThread (s.set prev { p with next := n }) x).heap b =
      (s.set prev { p with next := n }).heap b := fun b hb => Function.update_of_ne hb ..
  refine ⟨rfl, rfl, rfl, ?_, fun b t hb ht => ?_, fun b t ht => ?_⟩
  · simp [freeThread]
  · rw [hheap b (by simpa using hb)]
    by_cases hb' : b = prev
    · subst hb'
      cases hp.symm.trans ht
      exact ⟨n, State.set_heap_self ..⟩
    · exact ⟨t.next, by rw [State.set_heap_of_ne hb', ht]⟩
  · have hbx : b ≠ x := by rintro rfl; simp [freeThread] at ht
    rw [hheap b hbx] at ht
    by_cases hb' : b = prev
    · subst hb'
      rw [State.set_heap_self] at ht
      exact ⟨p, n, hp, (Option.some.inj ht).symm⟩
    · rw [State.set_heap_of_ne hb'] at ht
      exact ⟨t, t.next, ht, rfl⟩

/-! ## The loop -/

theorem findTail_isSome {l : List Addr} {n : ℕ} (h : Path s.heap Thread.next a l s.runQueue)
    (hne : l ≠ []) (hn : l.length ≤ n) : ∃ tail, findTail s n a = some tail := by
  induction l generalizing a n with
  | nil => exact (hne rfl).elim
  | cons x l ih =>
    obtain ⟨rfl, t, ht, hp⟩ := h
    obtain ⟨n, rfl⟩ : ∃ m, n = m + 1 := ⟨n - 1, by simp at hn; omega⟩
    rw [findTail, ht]
    simp only [Option.bind_eq_bind, Option.bind_some]
    by_cases hr : t.next = s.runQueue
    · exact ⟨a, by rw [if_pos hr]; rfl⟩
    · rw [if_neg hr]
      refine ih hp ?_ (by simpa using hn)
      rintro rfl
      exact hr hp

/-- The state in the middle of the loop: the nodes kept, up to `prev`, and the nodes ahead. -/
structure Midway (s : State) (kept : List Addr) (prev : Addr) (ahead : List Addr) : Prop where
  ring : Ring s.heap Thread.next s.runQueue (kept ++ [prev] ++ ahead)
  ne_zero : s.runQueue ≠ 0

namespace Midway

variable {kept ahead : List Addr} {prev x : Addr}

theorem runQueue_mem (h : Midway s kept prev ahead) : s.runQueue ∈ kept ++ [prev] := by
  obtain ⟨l, hl⟩ := h.ring.exists_cons
  cases kept with
  | nil => simp_all
  | cons y kept => simp_all

theorem notMem_ahead (h : Midway s kept prev ahead) (hb : b ∈ kept ++ [prev]) : b ∉ ahead :=
  fun hb' => (List.nodup_append.1 h.ring.nodup).2.2 b hb b hb' rfl

/-- The pointer of the node under inspection: the next one ahead, or back to the head. -/
theorem next_eq (h : Midway s kept prev (x :: ahead)) (hx : s.heap x = some t) :
    Path s.heap Thread.next t.next ahead s.runQueue := by
  obtain ⟨b, -, rfl, t', ht', hp⟩ := Path.append_iff.1 h.ring.path
  cases hx.symm.trans ht'
  exact hp

theorem exists_node (h : Midway s kept prev ahead) (hb : b ∈ kept ++ [prev] ++ ahead) :
    ∃ t, s.heap b = some t :=
  h.ring.path.exists_node hb

/-- Going past a thread that is kept. -/
theorem skip (h : Midway s kept prev (x :: ahead)) : Midway s (kept ++ [prev]) x ahead := by
  refine ⟨?_, h.ne_zero⟩
  have := h.ring
  rwa [show kept ++ [prev] ++ x :: ahead = kept ++ [prev] ++ [x] ++ ahead by simp] at this

/-- Taking out a zombie. -/
theorem unlink {p : Thread} (h : Midway s kept prev (x :: ahead)) (hx : s.heap x = some t) :
    Midway (freeThread (s.set prev { p with next := t.next }) x) kept prev ahead := by
  refine ⟨⟨h.ring.path.remove h.ring.nodup hx rfl, ?_, by simp⟩, h.ne_zero⟩
  have hnd := h.ring.nodup
  simp only [List.append_assoc, List.singleton_append, List.nodup_append, List.nodup_cons,
    List.mem_cons] at hnd ⊢
  grind

theorem next_ne (h : Midway s kept prev (x :: ahead)) (hx : s.heap x = some t) : t.next ≠ x := by
  have hp := h.next_eq hx
  have hnd := (List.nodup_append.1 h.ring.nodup).2.1
  cases ahead with
  | nil =>
    rintro h'
    have : s.runQueue = x := hp.symm.trans h'
    exact h.notMem_ahead h.runQueue_mem (by simp [this])
  | cons y ahead =>
    rintro h'
    have : y = x := hp.head_eq.symm.trans h'
    simp [this] at hnd

end Midway

/-- The loop of `kill_zombies` on the nodes ahead, the zombies among them being those that satisfy
`z`. -/
theorem killLoop_spec {z : Addr → Bool} {ahead kept : List Addr} {prev curr : Addr}
    (freed : List Addr) {count : ℕ} (h : Midway s kept prev ahead) (hne : ahead ≠ [])
    (hcurr : Path s.heap Thread.next curr ahead s.runQueue) (hcount : ahead.length ≤ count)
    (hz : ∀ b ∈ ahead, ∀ t, s.heap b = some t → z b = t.status.isZombie) :
    ∃ s', killLoop count prev curr s freed = some (s', freed ++ ahead.filter z) ∧
      Ring s'.heap Thread.next s'.runQueue (kept ++ [prev] ++ ahead.filter fun b => !z b) ∧
      Reaped s s' (ahead.filter z) := by
  induction ahead generalizing kept prev curr s freed count with
  | nil => exact (hne rfl).elim
  | cons x ahead ih =>
    obtain ⟨rfl, t, ht, hnext⟩ := hcurr
    obtain ⟨count, rfl⟩ : ∃ m, count = m + 1 := ⟨count - 1, by simp at hcount; omega⟩
    have hcount : ahead.length ≤ count := by simpa using hcount
    have hprev : prev ≠ curr := by
      rintro rfl
      exact h.notMem_ahead (b := prev) (by simp) (by simp)
    have hback : t.next = s.runQueue ↔ ahead = [] := by
      cases ahead with
      | nil => exact iff_of_true hnext rfl
      | cons y ahead =>
        refine iff_of_false (fun h' => ?_) (by simp)
        have := h.notMem_ahead h.runQueue_mem
        rw [← h', hnext.head_eq] at this
        simp at this
    have hzt := hz curr (by simp) t ht
    rw [killLoop, if_neg h.ne_zero, ht]
    simp only [Option.bind_eq_bind, Option.bind_some]
    by_cases hzombie : t.status.isZombie
    · -- the zombie is unlinked, freed, and the walk goes on behind `prev`
      obtain ⟨p, hp⟩ := h.exists_node (b := prev) (by simp)
      have hrq : curr ≠ s.runQueue := by
        rintro rfl
        exact h.notMem_ahead h.runQueue_mem (by simp)
      have hunlink : unlinkThread s prev curr t = some (s.set prev { p with next := t.next }) := by
        rw [unlinkThread, if_neg (h.next_ne ht), hp]
        simp [hrq]
      set s₁ := freeThread (s.set prev { p with next := t.next }) curr with hs₁
      have hreap : Reaped s s₁ [curr] := reaped_unlink hp hprev t.next
      have h₁ : Midway s₁ kept prev ahead := h.unlink ht
      have hz₁ : ∀ b ∈ ahead, ∀ u, s₁.heap b = some u → z b = u.status.isZombie := by
        intro b hb u hu
        obtain ⟨v, n, hv, rfl⟩ := hreap.old b u hu
        exact hz b (List.mem_cons_of_mem _ hb) v hv
      rw [hzombie] at hzt
      have hnd : curr ∉ ahead := by
        have := (List.nodup_append.1 h.ring.nodup).2.1
        rw [List.nodup_cons] at this
        exact this.1
      rw [if_pos hzombie, hunlink, List.filter_cons_of_pos hzt,
        List.filter_cons_of_neg (by simp [hzt])]
      simp only [Option.bind_some, ← hs₁, show s₁.runQueue = s.runQueue from rfl, if_neg h.ne_zero]
      by_cases hlast : ahead = []
      · subst hlast
        refine ⟨s₁, ?_, by simpa using h₁.ring, by simpa using hreap⟩
        rw [if_pos (hback.2 rfl)]
        rfl
      · rw [if_neg (mt hback.1 hlast)]
        have hnext₁ : Path s₁.heap Thread.next t.next ahead s₁.runQueue := by
          obtain ⟨c, hc, hc'⟩ := Path.append_iff.1 h₁.ring.path
          cases ahead with
          | nil => exact (hlast rfl).elim
          | cons y ahead =>
            rw [hnext.head_eq]
            exact hc'.head_eq ▸ hc'
        obtain ⟨s', hs', hring, hreap'⟩ :=
          ih (freed ++ [curr]) h₁ hlast hnext₁ hcount hz₁
        refine ⟨s', ?_, hring, ?_⟩
        · rw [hs', List.append_assoc, List.singleton_append]
        · simpa using hreap.trans hreap'
    · rw [if_neg hzombie]
      have hzf : z curr = false := by rw [hzt]; simpa using hzombie
      rw [List.filter_cons_of_neg (by simp [hzf]), List.filter_cons_of_pos (by simp [hzf])]
      by_cases hlast : ahead = []
      · subst hlast
        refine ⟨s, ?_, by simpa using h.ring, by simpa using Reaped.refl s⟩
        rw [if_pos (hback.2 rfl)]
        simp
      · rw [if_neg (mt hback.1 hlast)]
        obtain ⟨s', hs', hring, hreap⟩ := ih freed h.skip hlast hnext hcount
          fun b hb => hz b (List.mem_cons_of_mem _ hb)
        refine ⟨s', hs', ?_, hreap⟩
        simpa using hring

/-! ## The whole pass -/

/-- The bound `nr_threads` of the loop covers the whole queue. -/
theorem Queue.length_le_nrThreads (h : Queue s q) : q.length ≤ s.nrThreads.toNat := by
  let pidAt : Addr → ℕ := fun a => ((s.heap a).map fun t => t.pid.toNat).getD 0
  have hpid : ∀ a ∈ q, ∃ t, s.heap a = some t ∧ pidAt a = t.pid.toNat := by
    intro a ha
    obtain ⟨t, ht⟩ := (h.mem_iff a).1 ha
    exact ⟨t, ht, by simp [pidAt, ht]⟩
  have hnd : (q.map pidAt).Nodup := by
    refine h.ring.nodup.map_on fun a ha b hb hab => ?_
    obtain ⟨t, ht, hta⟩ := hpid a ha
    obtain ⟨u, hu, hub⟩ := hpid b hb
    have := h.pid_range a t ht
    have := h.pid_range b u hu
    exact h.pid_inj a b t u ht hu (by omega)
  have hsub : q.map pidAt ⊆ List.range s.nrThreads.toNat := by
    intro n hn
    obtain ⟨a, ha, rfl⟩ := List.mem_map.1 hn
    obtain ⟨t, ht, hta⟩ := hpid a ha
    have := h.pid_range a t ht
    rw [List.mem_range]
    omega
  simpa using (List.subperm_of_subset hnd hsub).length_le

/-- Reaping zombies keeps the queue well formed. -/
theorem Inv.reaped (h : Inv s q) (hs : Reaped s s' (q.filter s.zombieAt))
    (hring : Ring s'.heap Thread.next s'.runQueue (q.filter fun b => !s.zombieAt b)) :
    Inv s' (q.filter fun b => !s.zombieAt b) := by
  have hkeep : ∀ b t, s.heap b = some t → t.status.isRunnable →
      ∃ n, s'.heap b = some { t with next := n } := by
    intro b t ht hrun
    refine hs.keep b t (fun hb => ?_) ht
    have hb := (List.mem_filter.1 hb).2
    rw [State.zombieAt_some ht, Status.not_zombie_of_runnable hrun] at hb
    cases hb
  refine ⟨⟨hring, fun b => ?_, ?_, ?_, ?_, ?_, ?_, ?_, ?_⟩, ?_⟩
  · rw [List.mem_filter, h.mem_iff]
    constructor
    · rintro ⟨⟨t, ht⟩, hb⟩
      obtain ⟨n, hn⟩ := hs.keep b t (fun h' => by simp_all [List.mem_filter]) ht
      exact ⟨_, hn⟩
    · rintro ⟨t', ht'⟩
      obtain ⟨t, n, ht, rfl⟩ := hs.old b t' ht'
      refine ⟨⟨t, ht⟩, ?_⟩
      by_contra hb
      have : b ∈ q.filter s.zombieAt :=
        List.mem_filter.2 ⟨(h.mem_iff b).2 ⟨t, ht⟩, by simpa using hb⟩
      rw [hs.freed b this] at ht'
      cases ht'
  · cases h₀ : s'.heap 0 with
    | none => rfl
    | some t =>
      obtain ⟨v, -, hv, -⟩ := hs.old 0 t h₀
      rw [h.null] at hv
      cases hv
  · obtain ⟨i, hi, hi₀, hirun⟩ := h.idle
    obtain ⟨n, hn⟩ := hkeep _ i hi hirun
    rw [← hs.runQueue] at hn
    exact ⟨_, hn, hi₀, hirun⟩
  · intro b c v w hb hc hvw
    obtain ⟨v', _, hv', rfl⟩ := hs.old b v hb
    obtain ⟨w', _, hw', rfl⟩ := hs.old c w hc
    exact h.pid_inj b c v' w' hv' hw' hvw
  · intro b v hb
    obtain ⟨v', _, hv', rfl⟩ := hs.old b v hb
    rw [hs.nrThreads]
    exact h.pid_range b v' hv'
  · intro b v hb hv
    obtain ⟨v', _, hv', rfl⟩ := hs.old b v hb
    rw [hs.tp]
    exact h.running b v' hv' hv
  · obtain ⟨c, hc⟩ := h.exists_current
    rw [hs.tp, List.mem_filter]
    refine ⟨h.tp_mem, ?_⟩
    rw [State.zombieAt_some hc, Status.not_zombie_of_runnable (h.current c hc)]
    rfl
  · rw [hs.nrThreads]
    exact h.nrThreads_le
  · intro v hv
    rw [hs.tp] at hv
    obtain ⟨c, _, hc, rfl⟩ := hs.old _ v hv
    exact h.current c hc

/-- **`kill_zombies` frees exactly the zombies.** It frees each of them once, in the order of the
queue, and the queue keeps the other threads in their order. -/
theorem killZombies_spec (h : Inv s q) :
    ∃ s', killZombies s = some (s', q.filter s.zombieAt) ∧
      Inv s' (q.filter fun b => !s.zombieAt b) ∧ Reaped s s' (q.filter s.zombieAt) := by
  suffices hmain : ∃ s', killZombies s = some (s', q.filter s.zombieAt) ∧
      Ring s'.heap Thread.next s'.runQueue (q.filter fun b => !s.zombieAt b) ∧
      Reaped s s' (q.filter s.zombieAt) by
    obtain ⟨s', hs', hring, hreap⟩ := hmain
    exact ⟨s', hs', h.reaped hreap hring, hreap⟩
  obtain ⟨tail, htail⟩ := findTail_isSome h.ring.path h.ring.ne_nil h.length_le
  obtain ⟨i, hi, hi₀, hirun⟩ := h.idle
  have hlen := h.length_le_nrThreads
  obtain ⟨l, rfl⟩ := h.ring.exists_cons
  obtain ⟨count, hcount⟩ : ∃ m, s.nrThreads.toNat = m + 1 :=
    ⟨s.nrThreads.toNat - 1, by simp at hlen; omega⟩
  have hlive : s.zombieAt s.runQueue = false := by
    rw [State.zombieAt_some hi, Status.not_zombie_of_runnable hirun]
  obtain ⟨-, i', hi', hnext⟩ := h.ring.path
  cases hi.symm.trans hi'
  rw [killZombies, if_neg h.runQueue_ne_zero, htail, hcount]
  simp only [Option.bind_eq_bind, Option.bind_some]
  -- the idle thread is kept, so that no later zombie is the head of the queue
  rw [killLoop, if_neg h.runQueue_ne_zero, hi, List.filter_cons_of_neg (by simp [hlive]),
    List.filter_cons_of_pos (by simp [hlive])]
  simp only [Option.bind_eq_bind, Option.bind_some, Status.not_zombie_of_runnable hirun,
    Bool.false_eq_true, if_false]
  have hmid : Midway s [] s.runQueue l := ⟨by simpa using h.ring, h.runQueue_ne_zero⟩
  cases l with
  | nil =>
    refine ⟨s, ?_, by simpa using h.ring, Reaped.refl s⟩
    rw [if_pos (show i.next = s.runQueue from hnext)]
    rfl
  | cons x l =>
    have hback : i.next ≠ s.runQueue := by
      intro h'
      have := hmid.notMem_ahead hmid.runQueue_mem
      rw [← h', hnext.head_eq] at this
      simp at this
    rw [if_neg hback]
    refine killLoop_spec [] hmid (by simp) hnext
      (by simp at hlen ⊢; omega) fun b _ t ht => State.zombieAt_some ht

end BareMetalOS.Sched
