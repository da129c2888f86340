import BareMetalOS.Sched.Wakeups

/-!
# Pointers to threads

Two places keep pointers to thread structs: the field `parent` of a forked child, and the callbacks
`thread_wakeup_callback` in the timer list and in the task queue. `kill_zombies` frees a struct
without looking at either, so that both can be left dangling (`not_parentsAlive_orphan`,
`not_wakeupsAlive_killed`).

A pass of `kill_zombies` is harmless for the parents if no thread that survives it has a zombie for
its parent (`ChildrenFirst`), and for the callbacks if no zombie has one pending, be it in a list or
already started (`SleepersSpared`).
In the runs whose passes are harmless no pointer dangles: `parentsAlive_of_childrenFirst` and
`wakeupsAlive_of_sleepersSpared`.
-/

namespace BareMetalOS.Sched

open Memory (Addr)

variable {k k' : Kernel} {s s' : State} {q : List Addr} {a b : Addr} {t u : Thread}

/-! ## What an operation keeps of the threads -/

/-- Every struct is still there, with its pid and its parent, and there is no new one. -/
def SameFamily (s s' : State) : Prop :=
  ∀ a, (s'.heap a).map (fun t => (t.pid, t.parent)) = (s.heap a).map fun t => (t.pid, t.parent)

namespace SameFamily

theorem trans {s'' : State} (h : SameFamily s s') (h' : SameFamily s' s'') : SameFamily s s'' :=
  fun a => (h' a).trans (h a)

theorem set (ht : s.heap a = some t) (hpid : u.pid = t.pid) (hpar : u.parent = t.parent) :
    SameFamily s (s.set a u) := by
  intro b
  by_cases hb : b = a
  · subst hb
    rw [State.set_heap_self, ht, Option.map_some, Option.map_some, hpid, hpar]
  · rw [State.set_heap_of_ne hb]

theorem switched (ht : s.heap a = some t) : SameFamily s (s.switched a t) := by
  intro b
  by_cases hb : b = a
  · subst hb
    rw [State.switched_heap_self, ht]
    rfl
  · rw [State.switched_heap_of_ne hb]
    cases s.heap b with
    | none => rfl
    | some v =>
      simp only [Option.map_some, Thread.preempt]
      split <;> rfl

theorem wakeParent (s : State) (target : Thread) : SameFamily s (wakeParent s target) := by
  unfold Sched.wakeParent
  split
  · exact fun _ => rfl
  · split
    · exact fun _ => rfl
    · rename_i p hp
      split
      · exact .set hp rfl rfl
      · exact fun _ => rfl

theorem endThread {x : Status} (ht : s.heap a = some t) : SameFamily s (endThread s a t x) := by
  refine .trans ?_ (.wakeParent _ _)
  exact .set ht rfl rfl

theorem threadWakeupCallback (s : State) (a : Addr) : SameFamily s (threadWakeupCallback s a) := by
  unfold Sched.threadWakeupCallback
  split
  · exact fun _ => rfl
  · rename_i t ht
    split
    · exact .set ht rfl rfl
    · exact fun _ => rfl

end SameFamily

/-- What an operation does to the set of threads: nothing, it adds one, or it reaps the zombies. -/
inductive FamilyChange (s : State) (op : Op) (s' : State) : Prop
  | same (h : SameFamily s s')
  | created (mem : Addr) (hmem : s.heap mem = none) (hop : op = .threadCreate mem)
      (h : ∀ a u, s'.heap a = some u → (a = mem ∧ u.parent = 0 ∧ u.pid = s.nrThreads) ∨
        ∃ t, s.heap a = some t ∧ u.pid = t.pid ∧ u.parent = t.parent)
      (hkeep : ∀ a t, s.heap a = some t → s'.heap a ≠ none)
  | forked (mem : Addr) (hmem : s.heap mem = none) (hop : op = .sysFork mem true)
      (h : ∀ a u, s'.heap a = some u → (a = mem ∧ u.parent = s.tp ∧ u.pid = s.nrThreads) ∨
        ∃ t, s.heap a = some t ∧ u.pid = t.pid ∧ u.parent = t.parent)
      (hkeep : ∀ a t, s.heap a = some t → s'.heap a ≠ none)
  | reaped (hop : op = .killZombies)
      (h : ∀ a u, s'.heap a = some u → ∃ t, s.heap a = some t ∧ u.pid = t.pid ∧
        u.parent = t.parent ∧ t.status.isZombie = false)
      (hkeep : ∀ a t, s.heap a = some t → t.status.isZombie = false → s'.heap a ≠ none)

theorem Effect.family {op : Op} (he : Effect s op s') : FamilyChange s op s' := by
  cases he with
  | stay => exact .same fun _ => rfl
  | pidUsed mem hn => exact .same fun _ => rfl
  | @created mem i hmem h₀ hi hn =>
    refine .created mem hmem rfl (fun a u hu => ?_) fun a t ht => ?_
    · rcases State.enqueued_some hi hu with ⟨rfl, rfl⟩ | ⟨-, w, n, hw, rfl⟩
      · exact .inl ⟨rfl, rfl, rfl⟩
      · exact .inr ⟨w, hw, rfl, rfl⟩
    · obtain ⟨n, hn⟩ := State.enqueued_keep hi hmem ht
      rw [hn]
      simp
  | @forked mem i c hmem h₀ hi hn hc =>
    refine .forked mem hmem rfl (fun a u hu => ?_) fun a t ht => ?_
    · rcases State.enqueued_some hi hu with ⟨rfl, rfl⟩ | ⟨-, w, n, hw, rfl⟩
      · exact .inl ⟨rfl, rfl, rfl⟩
      · exact .inr ⟨w, hw, rfl, rfl⟩
    · obtain ⟨n, hn⟩ := State.enqueued_keep hi hmem ht
      rw [hn]
      simp
  | stopped ht hop hrq htp => exact .same (.endThread ht)
  | ended ht hop hx hidle hv hrun => exact .same ((SameFamily.endThread ht).trans (.switched hv))
  | signalled ht hh hz => exact .same (.set ht rfl rfl)
  | registered ht => exact .same (.set ht rfl rfl)
  | slept ht hidle hv hrun =>
    refine .same (.trans ?_ (.switched hv))
    exact .set ht rfl rfl
  | sleepFailed ht => exact .same (.set ht rfl rfl)
  | woke b => exact .same (.threadWakeupCallback s b)
  | waited ht hidle hv hrun =>
    refine .same (.trans ?_ (.switched hv))
    exact .set ht rfl rfl
  | scheduled hv hrun => exact .same (.switched hv)
  | @reaped s' q' hs hinv =>
    refine .reaped rfl (fun a u hu => ?_) fun a t ht hz => ?_
    · obtain ⟨t, n, ht, rfl⟩ := hs.old a u hu
      refine ⟨t, ht, rfl, rfl, ?_⟩
      have hmem := (hinv.mem_iff a).2 ⟨_, hu⟩
      rw [List.mem_filter, State.zombieAt_some ht] at hmem
      simpa using hmem.2
    · have hnot : a ∉ q'.filter s.zombieAt := by
        rw [List.mem_filter, State.zombieAt_some ht, hz]
        simp
      obtain ⟨n, hn⟩ := hs.keep a t hnot ht
      rw [hn]
      simp

theorem SameFamily.exists_old (h : SameFamily s s') (hu : s'.heap a = some u) :
    ∃ t, s.heap a = some t ∧ u.pid = t.pid ∧ u.parent = t.parent := by
  have := h a
  rw [hu, Option.map_some, eq_comm, Option.map_eq_some_iff] at this
  obtain ⟨t, ht, heq⟩ := this
  simp only [Prod.mk.injEq] at heq
  exact ⟨t, ht, heq.1.symm, heq.2.symm⟩

theorem SameFamily.ne_none (h : SameFamily s s') (ht : s.heap a = some t) : s'.heap a ≠ none := by
  intro hnone
  have := h a
  rw [hnone, ht] at this
  cases this

/-- Only `kill_zombies` frees a struct, and only that of a zombie. -/
theorem FamilyChange.keep {op : Op} (h : FamilyChange s op s') (ht : s.heap a = some t)
    (hz : op = .killZombies → t.status.isZombie = false) :
    ∃ u, s'.heap a = some u ∧ u.pid = t.pid := by
  have hold : s'.heap a ≠ none ∧ ∀ u, s'.heap a = some u →
      ∃ w, s.heap a = some w ∧ u.pid = w.pid := by
    have hne : ∀ mem, s.heap mem = none → a ≠ mem := by
      rintro mem hmem rfl
      rw [hmem] at ht
      cases ht
    cases h with
    | same h =>
      refine ⟨h.ne_none ht, fun u hu => ?_⟩
      obtain ⟨w, hw, hpid, -⟩ := h.exists_old hu
      exact ⟨w, hw, hpid⟩
    | created mem hmem hop h hkeep =>
      refine ⟨hkeep a t ht, fun u hu => ?_⟩
      obtain ⟨w, hw, hpid, -⟩ := (h a u hu).resolve_left fun h => hne mem hmem h.1
      exact ⟨w, hw, hpid⟩
    | forked mem hmem hop h hkeep =>
      refine ⟨hkeep a t ht, fun u hu => ?_⟩
      obtain ⟨w, hw, hpid, -⟩ := (h a u hu).resolve_left fun h => hne mem hmem h.1
      exact ⟨w, hw, hpid⟩
    | reaped hop h hkeep =>
      refine ⟨hkeep a t ht (hz hop), fun u hu => ?_⟩
      obtain ⟨w, hw, hpid, -⟩ := h a u hu
      exact ⟨w, hw, hpid⟩
  obtain ⟨u, hu⟩ := Option.ne_none_iff_exists'.1 hold.1
  obtain ⟨w, hw, hpid⟩ := hold.2 u hu
  cases ht.symm.trans hw
  exact ⟨u, hu, hpid⟩

/-- The thread that an operation creates. -/
def Op.creates : Op → Option Addr
  | .threadCreate mem => if mem = 0 then none else some mem
  | .sysFork mem copied => if mem = 0 ∨ copied = false then none else some mem
  | _ => none

theorem Inv.perm {q' : List Addr} (hq : Inv s q) (hq' : Inv s' q')
    (h : ∀ a, s'.heap a ≠ none ↔ s.heap a ≠ none) : q'.Perm q := by
  refine (List.perm_ext_iff_of_nodup hq'.ring.nodup hq.ring.nodup).2 fun a => ?_
  rw [hq.mem_iff, hq'.mem_iff, ← Option.ne_none_iff_exists', ← Option.ne_none_iff_exists']
  exact h a

theorem Inv.perm_enqueued {q' : List Addr} {mem : Addr} {i : Thread} (hq : Inv s q)
    (hmem : s.heap mem = none) (hi : s.heap s.runQueue = some i)
    (hq' : Inv (s.enqueued mem u i) q') : q'.Perm (mem :: q) := by
  have hnot : mem ∉ q := fun h => by
    obtain ⟨t, ht⟩ := (hq.mem_iff mem).1 h
    rw [hmem] at ht
    cases ht
  refine (List.perm_ext_iff_of_nodup hq'.ring.nodup
    (List.nodup_cons.2 ⟨hnot, hq.ring.nodup⟩)).2 fun a => ?_
  rw [hq'.mem_iff, List.mem_cons, hq.mem_iff]
  constructor
  · rintro ⟨t, ht⟩
    rcases State.enqueued_some hi ht with ⟨rfl, -⟩ | ⟨-, w, n, hw, -⟩
    · exact .inl rfl
    · exact .inr ⟨w, hw⟩
  · rintro (rfl | ⟨t, ht⟩)
    · exact ⟨_, State.enqueued_heap_self ..⟩
    · obtain ⟨n, hn⟩ := State.enqueued_keep hi hmem ht
      exact ⟨_, hn⟩

/-- The queue after an operation other than `kill_zombies`: there may be one more thread on it. -/
theorem exec_queue {op : Op} (hq : Inv s q) (ha : Allowed s op) (he : exec s op = some s')
    (hop : op ≠ .killZombies) : ∃ q', Inv s' q' ∧ q'.Perm (op.creates.toList ++ q) := by
  have heff := effect_of_exec hq ha he
  obtain ⟨q', hq'⟩ := heff.inv hq
  refine ⟨q', hq', ?_⟩
  obtain ⟨i, hi, -⟩ := hq.idle
  have hsame : SameFamily s s' → q'.Perm q := by
    refine fun h => hq.perm hq' fun a => ⟨fun hne hnone => hne ?_, fun hne => ?_⟩
    · have := h a
      rw [hnone] at this
      exact Option.map_eq_none_iff.1 this
    · obtain ⟨t, ht⟩ := Option.ne_none_iff_exists'.1 hne
      exact h.ne_none ht
  cases op with
  | threadCreate mem =>
    by_cases h₀ : mem = 0
    · rw [exec, threadCreate, if_pos h₀] at he
      cases he
      rw [Op.creates, if_pos h₀]
      exact hsame fun _ => rfl
    · cases he.symm.trans (threadCreate_eq hq ha h₀ hi (exec_takesPid he h₀))
      rw [Op.creates, if_neg h₀]
      exact hq.perm_enqueued ha hi hq'
  | sysFork mem copied =>
    by_cases h₀ : mem = 0
    · rw [exec, sysFork, if_pos h₀] at he
      cases he
      rw [Op.creates, if_pos (.inl h₀)]
      exact hsame fun _ => rfl
    have hn := exec_takesPid he h₀
    obtain ⟨c, hc⟩ := hq.exists_current
    cases copied with
    | false =>
      rw [exec, sysFork, if_neg h₀, nextPid_eq hn, hc] at he
      cases he
      rw [Op.creates, if_pos (.inr rfl)]
      exact hsame fun _ => rfl
    | true =>
      rw [exec, sysFork_eq hq ha h₀ hi hn hc] at he
      cases he
      rw [Op.creates, if_neg (by simpa using h₀)]
      exact hq.perm_enqueued ha hi hq'
  | killZombies => exact (hop rfl).elim
  | _ =>
    cases heff.family with
    | same h => exact hsame h
    | created _ _ h => cases h
    | forked _ _ h => cases h
    | reaped h => cases h

/-! ## Parents -/

/-- Every `parent` pointer is `NULL` or designates a thread on the run queue. -/
def ParentsAlive (s : State) : Prop :=
  ∃ q, Ring s.heap Thread.next s.runQueue q ∧
    ∀ a t, s.heap a = some t → t.parent = 0 ∨ t.parent ∈ q

/-- A pass of `kill_zombies` takes place when no thread that survives it has a zombie for its
parent. -/
def ChildrenFirst (s : State) : Op → Prop
  | .killZombies => ∀ a t p, s.heap a = some t → t.status.isZombie = false →
    s.heap t.parent = some p → p.status.isZombie = false
  | _ => True

/-- A step whose `kill_zombies` is harmless for the parents. -/
def ChildrenFirstStep (s s' : State) : Prop :=
  ∃ op, Allowed s op ∧ ChildrenFirst s op ∧ exec s op = some s'

theorem parentsAlive_iff (hq : Inv s q) :
    ParentsAlive s ↔ ∀ a t, s.heap a = some t → t.parent = 0 ∨ ∃ p, s.heap t.parent = some p := by
  constructor
  · rintro ⟨q', hring, hpar⟩ a t ht
    refine (hpar a t ht).imp_right fun hmem => ?_
    exact hring.path.exists_node hmem
  · intro h
    exact ⟨q, hq.ring, fun a t ht => (h a t ht).imp_right (hq.mem_iff _).2⟩

/-- **One step.** A harmless step leaves no parent pointer dangling. -/
theorem ParentsAlive.step (hq : Inv s q) (h : ParentsAlive s) (hs : ChildrenFirstStep s s') :
    (∃ q', Inv s' q') ∧ ParentsAlive s' := by
  obtain ⟨op, ha, hc, he⟩ := hs
  have heff := effect_of_exec hq ha he
  obtain ⟨q', hq'⟩ := heff.inv hq
  refine ⟨⟨q', hq'⟩, (parentsAlive_iff hq').2 fun a u hu => ?_⟩
  -- the parent of a thread that was there before is still there, if its struct was kept
  have hold : ∀ a t, s.heap a = some t →
      (∀ p, s.heap t.parent = some p → s'.heap t.parent ≠ none) →
      t.parent = 0 ∨ ∃ p, s'.heap t.parent = some p := by
    intro a t ht hkeep
    refine ((parentsAlive_iff hq).1 h a t ht).imp_right fun ⟨p, hp⟩ => ?_
    exact Option.ne_none_iff_exists'.1 (hkeep p hp)
  cases heff.family with
  | same hsame =>
    obtain ⟨t, ht, -, hpar⟩ := hsame.exists_old hu
    rw [hpar]
    exact hold a t ht fun p hp => hsame.ne_none hp
  | created mem hmem hop hfam hkeep =>
    rcases hfam a u hu with ⟨-, hpar, -⟩ | ⟨t, ht, -, hpar⟩
    · exact .inl hpar
    · rw [hpar]
      exact hold a t ht fun p hp => hkeep _ p hp
  | forked mem hmem hop hfam hkeep =>
    rcases hfam a u hu with ⟨-, hpar, -⟩ | ⟨t, ht, -, hpar⟩
    · rw [hpar]
      obtain ⟨c, hc⟩ := hq.exists_current
      exact .inr (Option.ne_none_iff_exists'.1 (hkeep _ c hc))
    · rw [hpar]
      exact hold a t ht fun p hp => hkeep _ p hp
  | reaped hop hfam hkeep =>
    obtain ⟨t, ht, -, hpar, hz⟩ := hfam a u hu
    rw [hpar]
    subst hop
    exact hold a t ht fun p hp => hkeep _ p hp (hc a t p ht hz hp)

theorem parentsAlive_booted {mem : Addr} (h₀ : mem ≠ 0) : ParentsAlive (.booted mem) :=
  (parentsAlive_iff (inv_booted h₀)).2 fun a t ht => .inl (by rw [(State.booted_some ht).2]; rfl)

theorem ParentsAlive.run {mem : Addr} (h₀ : mem ≠ 0)
    (hs : Relation.ReflTransGen ChildrenFirstStep (.booted mem) s) :
    (∃ q, Inv s q) ∧ ParentsAlive s := by
  induction hs with
  | refl => exact ⟨⟨_, inv_booted h₀⟩, parentsAlive_booted h₀⟩
  | tail _ hstep ih =>
    obtain ⟨⟨q, hq⟩, hpar⟩ := ih
    exact hpar.step hq hstep

/-- **If children are reaped before their parents, no parent pointer dangles.** -/
theorem parentsAlive_of_childrenFirst {mem : Addr} {s₀ : State}
    (h₀ : initThreadSystem mem = some s₀) (hs : Relation.ReflTransGen ChildrenFirstStep s₀ s) :
    ParentsAlive s := by
  have hmem := ne_zero_of_initThreadSystem h₀
  cases h₀.symm.trans (initThreadSystem_eq hmem)
  exact (ParentsAlive.run hmem hs).2

/-- On a queue known to be `l`, a pass is harmless if the parents of the threads that survive are
among `ps` and none of these is a zombie. -/
theorem childrenFirst_of_ring {l ps : List Addr} (hq : Inv s q)
    (hr : Ring s.heap Thread.next s.runQueue l)
    (h : l.all fun a => (s.heap a).all fun t => t.status.isZombie || t.parent ∈ ps)
    (hps : ps.all fun a => (s.heap a).all fun t => !t.status.isZombie) :
    ChildrenFirst s .killZombies := by
  cases hq.ring.unique hr
  rw [List.all_eq_true] at h hps
  intro a t p ht hz hp
  have hmem := h a ((hq.mem_iff a).2 ⟨t, ht⟩)
  rw [ht, Option.all_some, hz, Bool.false_or, decide_eq_true_eq] at hmem
  simpa [hp] using hps _ hmem

/-- The operations other than `kill_zombies` are harmless. -/
theorem childrenFirst_of_play {ops : List Op} (h : play s ops = some s')
    (hops : .killZombies ∉ ops) : Relation.ReflTransGen ChildrenFirstStep s s' := by
  refine runAll_run (fun s op hop s' hok he => ?_) h
  refine ⟨op, of_decide_eq_true hok, ?_, he⟩
  cases op with
  | killZombies => exact (hops hop).elim
  | _ => trivial

/-- A child (at `0x3000`) of the thread at `0x2000` is stopped and reaped. -/
theorem parentsAlive_of_childrenFirst_stop : ∃ s,
    Relation.ReflTransGen ChildrenFirstStep (.booted 0x1000) s ∧ (s.heap 0x3000).isNone ∧
    s.nrThreads = 3 ∧ ParentsAlive s := by
  obtain ⟨s, hs, hring, hpar, hps, hkill⟩ := exists_play (.booted 0x1000)
    [.threadCreate 0x2000, .schedule, .sysFork 0x3000 true, .sysStop 2, .schedule]
    (fun s => Ring s.heap Thread.next s.runQueue [0x1000, 0x3000, 0x2000] ∧
      ([0x1000, 0x3000, 0x2000].all fun a => (s.heap a).all fun t =>
        t.status.isZombie || t.parent ∈ [(0 : Addr)]) ∧
      ([0].all fun a => (s.heap a).all fun t => !t.status.isZombie) ∧
      (exec s .killZombies).any fun s => (s.heap 0x3000).isNone && s.nrThreads == 3)
    (by decide +kernel)
  have hrun := childrenFirst_of_play hs (by decide)
  obtain ⟨⟨q, hq⟩, -⟩ := ParentsAlive.run (by decide) hrun
  obtain ⟨s', hs', hfacts⟩ := (Option.any_eq_true _ _).1 hkill
  rw [Bool.and_eq_true, beq_iff_eq] at hfacts
  have hrun' := hrun.tail
    ⟨.killZombies, trivial, childrenFirst_of_ring hq hring hpar hps, hs'⟩
  exact ⟨s', hrun', hfacts.1, hfacts.2,
    parentsAlive_of_childrenFirst (initThreadSystem_eq (by decide)) hrun'⟩

/-- The thread at `0x2000` forks a child (at `0x3000`), exits and is reaped; the child keeps its
`parent` pointer. -/
theorem not_parentsAlive_orphan : ∃ s, Reachable s ∧ ¬ ParentsAlive s := by
  obtain ⟨s, hs, hchild⟩ := exists_play (.booted 0x1000)
    [.threadCreate 0x2000, .schedule, .sysFork 0x3000 true, .threadExit, .killZombies]
    (fun s => (s.heap 0x3000).any fun t => t.parent = 0x2000 ∧ (s.heap 0x2000).isNone)
    (by decide +kernel)
  have hrun : Reachable s :=
    ⟨0x1000, _, initThreadSystem_eq (by decide),
      runAll_run (fun _ op _ _ hok he => ⟨op, of_decide_eq_true hok, he⟩) hs⟩
  obtain ⟨q, hq⟩ := hrun.inv
  refine ⟨s, hrun, fun h => ?_⟩
  obtain ⟨t, ht, hfacts⟩ := (Option.any_eq_true _ _).1 hchild
  obtain ⟨hpar, hnone⟩ := of_decide_eq_true hfacts
  rcases (parentsAlive_iff hq).1 h _ t ht with h₀ | ⟨p, hp⟩
  · simp [hpar] at h₀
  · rw [hpar, Option.isNone_iff_eq_none.1 hnone] at hp
    cases hp

/-! ## Wake-ups -/

/-- Every wake-up, in the timer list, in the task queue or being run, refers to a thread on the run
queue. -/
def WakeupsAlive (k : Kernel) : Prop :=
  ∃ q, Ring k.sched.heap Thread.next k.sched.runQueue q ∧ ∀ a ∈ k.pending, a ∈ q

/-- A pass of `kill_zombies` takes place when no zombie has a wake-up pending. -/
def SleepersSpared (k : Kernel) : SysOp → Prop
  | .op (.thread .killZombies) =>
    ∀ a ∈ k.pending, ∀ t, k.sched.heap a = some t → t.status.isZombie = false
  | _ => True

/-- A step whose `kill_zombies` is harmless for the wake-ups. -/
def SleepersSparedStep (k k' : Kernel) : Prop :=
  ∃ op, SysAllowed k op ∧ SleepersSpared k op ∧ k.perform op = some k'

theorem wakeupsAlive_iff (hq : Inv k.sched q) :
    WakeupsAlive k ↔ ∀ a ∈ k.pending, ∃ t, k.sched.heap a = some t := by
  constructor
  · rintro ⟨q', hring, hmem⟩ a ha
    exact hring.path.exists_node (hmem a ha)
  · intro h
    exact ⟨q, hq.ring, fun a ha => (hq.mem_iff a).2 (h a ha)⟩

theorem mem_pending_addTimerTicks {callback : Callback} {ticks : BitVec 64} {mem : Bool}
    (ha : a ∈ (addTimerTicks k callback ticks mem).pending) :
    a ∈ k.pending ∨ callback = .threadWakeup a := by
  rw [addTimerTicks] at ha
  split at ha
  · have hperm := @pending_insertTimer_perm k
      { k with timers := insertTimer ⟨k.now + ticks, callback⟩ k.timers }
      ⟨k.now + ticks, callback⟩ rfl rfl
    rcases List.mem_append.1 (hperm.mem_iff.1 ha) with ha | ha
    · refine .inr ?_
      cases callback <;> simp_all [Callback.wakes]
    · exact .inl ha
  · exact .inl ha

/-- No callback is started but from the task queue. -/
theorem Kernel.mem_running_of {c : Callback} (h : ∀ r ∈ k'.started, r.stage ≠ .returned →
    ∃ r' ∈ k.started, r'.stage ≠ .returned ∧ r'.task.callback = r.task.callback)
    (hc : c ∈ k'.running) : c ∈ k.running := by
  obtain ⟨r, hr, hs, rfl⟩ := mem_running.1 hc
  obtain ⟨r', hr', hs', hc⟩ := h r hr hs
  exact mem_running.2 ⟨r', hr', hs', hc⟩

theorem mem_pending_startTask (he : startTask k = some k') (ha : a ∈ k'.pending) :
    a ∈ k.pending := by
  simp only [startTask, Option.bind_eq_bind, Option.bind_eq_some_iff, Option.pure_def] at he
  obtain ⟨t, -, he⟩ := he
  split at he
  · cases he
    exact ha
  · rename_i n tasks htasks
    split at he
    · cases he
      exact ha
    · cases he
      rcases Kernel.mem_pending.1 ha with ht | hdue
      · exact Kernel.mem_pending.2 (.inl ht)
      · refine Kernel.mem_pending.2 (.inr ?_)
        have hperm := Kernel.due_cons (k := { k with tasks := tasks }) ⟨t.pid, n, .called⟩ k.started
          (by simp)
        have hmem := hperm.mem_iff.1 hdue
        rwa [Kernel.due, htasks]

theorem mem_pending_stepTask {mem : Bool} (he : stepTask k mem = some k') (ha : a ∈ k'.pending) :
    a ∈ k.pending := by
  -- the tasks that are being run afterwards are those from before
  have hrun : ∀ {r : Started} {stage : Stage}, r ∈ k.started → r.stage ≠ .returned →
      ∀ r' ∈ { r with stage := stage } :: k.started.erase r, r'.stage ≠ .returned →
        ∃ r'' ∈ k.started, r''.stage ≠ .returned ∧ r''.task.callback = r'.task.callback := by
    intro r stage hr hs r' hr' hs'
    rcases List.mem_cons.1 hr' with rfl | hr'
    · exact ⟨r, hr, hs, rfl⟩
    · exact ⟨r', List.mem_of_mem_erase hr', hs', rfl⟩
  have hold : ∀ {k₁ : Kernel}, a ∈ k₁.pending → k₁.timers = k.timers → k₁.tasks = k.tasks →
      (∀ r' ∈ k₁.started, r'.stage ≠ .returned →
        ∃ r'' ∈ k.started, r''.stage ≠ .returned ∧ r''.task.callback = r'.task.callback) →
      a ∈ k.pending := by
    intro k₁ hmem ht hk hs
    rcases Kernel.mem_pending.1 hmem with h | h
    · exact Kernel.mem_pending.2 (.inl (ht ▸ h))
    · refine Kernel.mem_pending.2 (.inr ?_)
      rcases List.mem_append.1 h with h | h
      · exact List.mem_append_left _ (hk ▸ h)
      · exact List.mem_append_right _ (Kernel.mem_running_of hs h)
  cases callbackStep_of_stepTask he with
  | idle => exact ha
  | tested hr hs => exact hold ha rfl rfl (hrun hr (by simp [hs]))
  | passed hr hs => exact hold ha rfl rfl (hrun hr (by simp [hs]))
  | stored hr hs => exact hold ha rfl rfl (hrun hr (by simp [hs]))
  | done hr =>
    exact hold ha rfl rfl fun r' hr' hs' => ⟨r', List.mem_of_mem_erase hr', hs', rfl⟩
  | @ran r hr hs hc =>
    rw [runCallback_withStarted] at ha
    have hkeep : a ∈ Kernel.pending { k with
        started := { r with stage := .returned } :: k.started.erase r } → a ∈ k.pending :=
      fun ha => hold ha rfl rfl (hrun hr (by simp [hs]))
    cases hcb : r.task.callback with
    | threadWakeup b =>
      rw [hcb] at hc
      cases hc
    | timeout b =>
      rw [hcb] at ha
      exact hkeep ha
    | _ =>
      rw [hcb] at ha
      exact hkeep ((mem_pending_addTimerTicks ha).resolve_right (by simp))

/-- A wake-up pending after an operation was pending before, or is that of the current thread. -/
theorem Kernel.mem_pending_perform {op : SysOp} (hall : SysAllowed k op)
    (he : k.perform op = some k') (ha : a ∈ k'.pending) : a ∈ k.pending ∨ a = k.sched.tp := by
  cases op with
  | startTask => exact .inl (mem_pending_startTask he ha)
  | stepTask mem => exact .inl (mem_pending_stepTask he ha)
  | op op =>
    cases op with
    | addTimeout arg ticks mem =>
      cases he
      exact .inl ((mem_pending_addTimerTicks ha).resolve_right (by simp))
    | tick now =>
      cases he
      exact .inl ha
    | runTask mem => cases he
    | threadSleep usec mem =>
      rw [Kernel.perform, Kernel.exec, Kernel.threadSleep] at he
      · cases mem with
        | false =>
          obtain ⟨r, -, hr⟩ := Option.bind_eq_some_iff.1 he
          cases hr
          exact .inl ha
        | true =>
          obtain ⟨r, -, hr⟩ := Option.bind_eq_some_iff.1 he
          cases hr
          refine (mem_pending_addTimerTicks ha).imp_right fun h => ?_
          cases h
          rfl
      · simp
    | sysWaitpid pid =>
      obtain ⟨r, -, hr⟩ := Option.bind_eq_some_iff.1 he
      split at hr <;> cases hr <;> exact .inl ha
    | timerInterrupt clock mem =>
      obtain ⟨s', -, hr⟩ := Option.bind_eq_some_iff.1 he
      cases hr
      obtain ⟨hsub, -, -⟩ := @expireLoop_spec _ mem hall.1 0 k.timers k.tasks
      refine .inl (List.filterMap_subset _ ?_ ha)
      rw [Kernel.due, Kernel.due, ← List.append_assoc, ← List.append_assoc]
      intro c hc
      exact (List.mem_append.1 hc).elim (fun hc => List.mem_append_left _ (hsub.subset hc))
        (List.mem_append_right _)
    | thread op =>
      obtain ⟨s', -, rfl⟩ := Kernel.exec_thread he
      refine .inl ?_
      rwa [Kernel.pending_congr (k := k) (by simp [Kernel.resume]) (by simp [Kernel.resume])
        (by simp [Kernel.resume])] at ha

/-- Only `kill_zombies` frees a struct, and only that of a zombie. -/
theorem Kernel.perform_keep {op : SysOp} (hq : Inv k.sched q) (ha : SysAllowed k op)
    (he : k.perform op = some k') (ht : k.sched.heap a = some t)
    (hz : op = .op (.thread .killZombies) → t.status.isZombie = false) :
    ∃ u, k'.sched.heap a = some u := by
  cases op with
  | startTask => exact ⟨t, (startTask_sched he).symm ▸ ht⟩
  | stepTask mem =>
    rcases stepTask_sched he with hs | ⟨b, hs⟩
    · exact ⟨t, hs ▸ ht⟩
    · obtain ⟨u, hu, -⟩ := setReady_keep (b := b) ht
      exact ⟨u, hs ▸ hu⟩
  | op op =>
    have he' : k.exec op = some k' := by
      cases op with
      | runTask => cases he
      | _ => exact he
    rcases Kernel.exec_sched ha he' with hs | ⟨op', ha', hop, hruns⟩
    · exact ⟨t, hs ▸ ht⟩
    · have hz' : op' = .killZombies → t.status.isZombie = false := by
        rintro rfl
        obtain rfl := hruns.eq_thread (by simp) (by simp) (by simp) (by simp)
        exact hz rfl
      obtain ⟨u, hu, -⟩ := (effect_of_exec hq ha' hop).family.keep ht hz'
      exact ⟨u, hu⟩

/-- **One step.** A harmless step leaves no wake-up dangling. -/
theorem WakeupsAlive.step (hq : Inv k.sched q) (h : WakeupsAlive k) (hs : SleepersSparedStep k k') :
    (∃ q', Inv k'.sched q') ∧ WakeupsAlive k' := by
  obtain ⟨op, ha, hsp, he⟩ := hs
  obtain ⟨q', hq'⟩ := SysStep.inv hq ⟨op, ha, he⟩
  refine ⟨⟨q', hq'⟩, (wakeupsAlive_iff hq').2 fun a hmem => ?_⟩
  obtain ⟨t, ht⟩ : ∃ t, k.sched.heap a = some t := by
    rcases Kernel.mem_pending_perform ha he hmem with hmem | rfl
    · exact (wakeupsAlive_iff hq).1 h a hmem
    · exact hq.exists_current
  refine Kernel.perform_keep hq ha he ht ?_
  rintro rfl
  rcases Kernel.mem_pending_perform ha he hmem with hmem | rfl
  · exact hsp a hmem t ht
  · exact Status.not_zombie_of_runnable (hq.current t ht)

theorem WakeupsAlive.run {k₀ : Kernel} (hb : Booted k₀)
    (hs : Relation.ReflTransGen SleepersSparedStep k₀ k) :
    (∃ q, Inv k.sched q) ∧ WakeupsAlive k := by
  induction hs with
  | refl =>
    obtain ⟨q, hq⟩ := hb.inv.queue
    refine ⟨⟨q, hq⟩, (wakeupsAlive_iff hq).2 fun a ha => ?_⟩
    rw [hb.pending] at ha
    cases ha
  | tail _ hstep ih =>
    obtain ⟨⟨q, hq⟩, hal⟩ := ih
    exact hal.step hq hstep

/-- **If no sleeper is reaped before its wake-up, no wake-up dangles.** -/
theorem wakeupsAlive_of_sleepersSpared {k₀ : Kernel} (hb : Booted k₀)
    (hs : Relation.ReflTransGen SleepersSparedStep k₀ k) : WakeupsAlive k :=
  (WakeupsAlive.run hb hs).2

/-- A process (at `0x2000`) sleeps while `kill_zombies` makes its rounds. -/
theorem wakeupsAlive_of_sleepersSpared_usleep : ∃ k,
    Relation.ReflTransGen SleepersSparedStep .boot k ∧ k.pending = [0x2000] ∧ WakeupsAlive k := by
  have hrun : Relation.ReflTransGen SleepersSparedStep .boot _ := .tail (.tail (.tail (.tail .refl
    ⟨.op (.thread (.threadCreate 0x2000)), rfl, trivial, rfl⟩)
    ⟨.op (.thread .schedule), trivial, trivial, rfl⟩)
    ⟨.op (.threadSleep 1000000 true), by unfold SysAllowed KAllowed; decide +kernel, trivial, rfl⟩)
    ⟨.op (.thread .killZombies), trivial, by
      intro a ha t ht
      cases List.mem_singleton.1 (show a ∈ [0x2000] from ha)
      cases ht
      rfl, rfl⟩
  exact ⟨_, hrun, rfl, wakeupsAlive_of_sleepersSpared booted_boot hrun⟩

/-- A process (at `0x3000`) sleeps, is stopped by another one and reaped; its timer is still in the
list. -/
theorem not_wakeupsAlive_killed : ∃ k, Relation.ReflTransGen SysStep .boot k ∧
    ¬ WakeupsAlive k := by
  have hrun : Relation.ReflTransGen SysStep .boot _ := .tail (.tail (.tail (.tail (.tail (.tail
    (.tail .refl
    ⟨.op (.thread (.threadCreate 0x2000)), rfl, rfl⟩)
    ⟨.op (.thread (.threadCreate 0x3000)), rfl, rfl⟩)
    ⟨.op (.thread .schedule), trivial, rfl⟩)
    ⟨.op (.threadSleep 1000000 true), by unfold SysAllowed KAllowed; decide +kernel, rfl⟩)
    ⟨.op (.thread (.sysStop 2)), trivial, rfl⟩) ⟨.op (.thread .schedule), trivial, rfl⟩)
    ⟨.op (.thread .killZombies), trivial, rfl⟩
  refine ⟨_, hrun, ?_⟩
  rintro ⟨q, hring, hmem⟩
  obtain ⟨t, ht⟩ := hring.path.exists_node (hmem 0x3000 (List.mem_singleton.2 rfl))
  cases ht

end BareMetalOS.Sched
