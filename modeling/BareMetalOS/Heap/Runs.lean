import BareMetalOS.Heap.Startup

/-!
# Runs of the allocator in memory

`HeapHistory` is the memory together with the live allocations, whose owners may store to them
between the calls. As long as the allocator's data overlaps no page that may be handed out, such a
run does what the level above does (`Sim.run`), so that its live allocations are sound
(`heapRun_soundBlocks`). A start with an unrecorded `frame_array` is not covered: there a free chunk
can share its list node with a frame, and `allocate` returns this chunk twice
(`not_heapRun_soundBlocks`).
-/

namespace BareMetalOS.Heap

open Memory

/-- The memory and the live allocations, as pairs of a pointer and a size. -/
structure HeapHistory where
  mem : Mem
  live : List (Addr × ℕ)

/-- A call of the allocator, or a store of a byte by the owner of a live allocation. -/
inductive HeapOp
  | allocate (size : ℕ)
  | free (i : ℕ)
  | store (i offset value : ℕ)
  deriving DecidableEq

/-- The history after a call or a store. -/
def HeapOp.step (g : Globals) (h : HeapHistory) : HeapOp → Option HeapHistory
  | .allocate size => do
    let (p, m) ← Heap.allocate g h.mem size
    return ⟨m, if p = 0 then h.live else (p, size) :: h.live⟩
  | .free i =>
    match h.live[i]? with
    | none => some h
    | some e => do
      let m ← Heap.free g h.mem e.1
      return ⟨m, h.live.eraseIdx i⟩
  | .store i offset value =>
    match h.live[i]? with
    | none => some h
    | some e =>
      if offset < blockBytes e.2 then
        some ⟨h.mem.store (e.1 + BitVec.ofNat 64 offset) 1 value, h.live⟩
      else some h

/-- The history after a sequence of calls and stores. -/
def heapRun (g : Globals) (h : HeapHistory) (ops : List HeapOp) : Option HeapHistory :=
  ops.foldlM (HeapOp.step g) h

/-- The call of the level above. -/
def HeapOp.call : HeapOp → Option AllocOp
  | .allocate size => some (.allocate size)
  | .free i => some (.free i)
  | .store .. => none

variable {g : Globals} {P : ℕ → Prop} {m : Mem} {h : HeapHistory} {a : History} {idx : ℕ}

/-! ## Simulation -/

/-- The memory holds the state of the history above. -/
structure Sim (g : Globals) (P : ℕ → Prop) (h : HeapHistory) (a : History) : Prop where
  holds : Holds g P h.mem a.alloc
  live : h.live = a.live
  inv : HistoryInv a

namespace Sim

theorem allocate (hs : Separate g P) (hh : Sim g P h a) (size : ℕ) :
    ∃ h', (HeapOp.allocate size).step g h = some h' ∧
      Sim g P h' ((AllocOp.allocate size).step a) := by
  obtain ⟨m', heq, hm⟩ := hh.holds.allocate hs size
  refine ⟨_, by rw [HeapOp.step, heq]; rfl, ?_⟩
  refine ⟨hm, ?_, (hh.inv.step (.allocate size)).1⟩
  simp only [AllocOp.step, hh.live]

theorem free (hs : Separate g P) (hh : Sim g P h a) (i : ℕ) :
    ∃ h', (HeapOp.free i).step g h = some h' ∧ Sim g P h' ((AllocOp.free i).step a) := by
  have hinv := (hh.inv.step (.free i)).1
  revert hinv
  simp only [HeapOp.step, AllocOp.step, hh.live]
  rcases a.live[i]? with _ | e
  · exact fun _ => ⟨h, rfl, hh⟩
  · intro hinv
    obtain ⟨m', heq, hm⟩ := hh.holds.free hs e.1
    exact ⟨⟨m', a.live.eraseIdx i⟩, by simp only [heq]; rfl, hm, rfl, hinv⟩

theorem store (hs : Separate g P) (hh : Sim g P h a) (i offset value : ℕ) :
    ∃ h', (HeapOp.store i offset value).step g h = some h' ∧ Sim g P h' a := by
  simp only [HeapOp.step, hh.live]
  rcases hi : a.live[i]? with _ | e
  · exact ⟨h, rfl, hh⟩
  simp only
  split_ifs with hlt
  · have hlive := hh.inv.live e (List.mem_of_getElem? hi)
    exact ⟨_, rfl, hh.holds.storeByte hs hlive ⟨offset, hlt, rfl⟩ value, rfl, hh.inv⟩
  · exact ⟨h, rfl, hh⟩

/-- **The run does what the level above does**, and every call in it comes to an end. -/
theorem run (hs : Separate g P) (hh : Sim g P h a) (ops : List HeapOp) :
    ∃ h', heapRun g h ops = some h' ∧ Sim g P h' (allocRun a (ops.filterMap HeapOp.call)) := by
  induction ops generalizing h a with
  | nil => exact ⟨h, rfl, hh⟩
  | cons op ops ih =>
    obtain ⟨h₁, heq, a₁, hrun, hh₁⟩ : ∃ h₁, op.step g h = some h₁ ∧
        ∃ a₁, allocRun a ((op :: ops).filterMap HeapOp.call) =
          allocRun a₁ (ops.filterMap HeapOp.call) ∧ Sim g P h₁ a₁ := by
      cases op with
      | allocate size =>
        obtain ⟨h₁, heq, hh₁⟩ := hh.allocate hs size
        exact ⟨h₁, heq, _, rfl, hh₁⟩
      | free i =>
        obtain ⟨h₁, heq, hh₁⟩ := hh.free hs i
        exact ⟨h₁, heq, _, rfl, hh₁⟩
      | store i offset value =>
        obtain ⟨h₁, heq, hh₁⟩ := hh.store hs i offset value
        exact ⟨h₁, heq, _, rfl, hh₁⟩
    rw [hrun]
    obtain ⟨h', heq', hh'⟩ := ih hh₁
    refine ⟨h', ?_, hh'⟩
    rw [heapRun, List.foldlM_cons, heq]
    exact heq'

end Sim

theorem Started.sim (hg : Started g) (hs : Separate g (NotReserved g m)) :
    Sim g (NotReserved g m) ⟨allocatorInit g m, []⟩ ⟨startState g m, []⟩ :=
  ⟨hg.holds hs, rfl, historyInv_start (hg.alignedPool m)⟩

/-! ## Sound allocations -/

theorem Rep.notReserved_iff {n : ℕ} {s : Allocator} (hr : Rep g P n m s)
    (hidx : idx < g.memTotalPage) :
    NotReserved g m idx ↔ (s.buddy.frameArray idx).state ≠ .reserved :=
  not_congr (hr.state_eq_iff hidx)

/-- What holds of the live allocations above holds of those in memory. -/
theorem Sim.soundBlocks (hh : Sim g P h a) : SoundBlocks (markedPool g h.mem) h.live := by
  have hsound := hh.inv.soundBlocks
  rw [← hh.live] at hsound
  have hr := hh.holds.rep
  refine ⟨hsound.disjoint, hsound.small, hsound.large, fun e he => ?_, fun e he idx hidx hst => ?_⟩
  · have := hsound.inside e he
    rwa [hr.start, hr.size] at this
  · have hreserved : (a.alloc.buddy.frameArray idx).state = .reserved := by
      by_contra hnot
      simp only [markedPool, markFrames, (hr.notReserved_iff hidx).2 hnot, if_true] at hst
      cases hst
    have := hsound.reserved e he idx (hidx.trans_eq hr.total.symm) hreserved
    rwa [hr.pageToAddr_eq] at this

/-- **Live allocations are sound in memory**, for every pool and every set of reserved pages, after
any calls and any stores of the owners: if `frame_array`, `free_area` and `g_pools` overlap neither
each other nor a page that is not `RESERVED`. The reserved pages stay the same. -/
theorem heapRun_soundBlocks (hg : Started g) (hs : Separate g (NotReserved g m))
    (ops : List HeapOp) : ∃ h, heapRun g ⟨allocatorInit g m, []⟩ ops = some h ∧
      SoundBlocks (markedPool g h.mem) h.live ∧
      ∀ idx < g.memTotalPage, NotReserved g h.mem idx ↔ NotReserved g m idx := by
  obtain ⟨h, heq, hh⟩ := (hg.sim hs).run hs ops
  refine ⟨h, heq, hh.soundBlocks, fun idx hidx => ?_⟩
  obtain ⟨-, -, hres⟩ := (hg.sim hs).inv.run (ops.filterMap HeapOp.call)
  have hspec := buddyInit_spec (markedPool g m)
  rw [hh.holds.rep.notReserved_iff hidx]
  refine not_congr ((hres idx).trans ((hspec.reserved idx).trans ?_))
  exact (sameReserved_markFrames g m (markedPool g m) idx hidx).symm

/-- Without a device tree. -/
theorem heapRun_soundBlocks_default : ∃ h, heapRun defaultGlobals
    ⟨allocatorInit defaultGlobals (markedMemory defaultGlobals defaultTable ⟨fun _ => 0⟩), []⟩
    [.allocate 100, .store 0 16 7, .allocate 5000, .free 1] = some h ∧
      SoundBlocks (markedPool defaultGlobals h.mem) h.live := by
  obtain ⟨h, heq, hsound, -⟩ := heapRun_soundBlocks default_boots.started
    (default_boots.separate (default_framesReserved ⟨fun _ => 0⟩))
    [.allocate 100, .store 0 16 7, .allocate 5000, .free 1]
  exact ⟨h, heq, hsound⟩

/-- Calls after the boot with a full table. The chunks of page 1 lie in `frame_array`: the one at
`0x800` is also the list node of the frame of page 51, which is freed while this chunk is free. -/
def crampedCalls : List HeapOp :=
  [.allocate 4096, .allocate 4096, .allocate 2048, .allocate 2048, .free 1, .free 2,
    .allocate 2048, .allocate 2048]

theorem cramped_live : (heapRun crampedGlobals ⟨allocatorInit crampedGlobals crampedMemory, []⟩
    crampedCalls).map (·.live) = some [(0xffffffc080001800, 2048), (0xffffffc080001800, 2048),
      (0xffffffc080001000, 2048), (0xffffffc080019000, 4096)] := by
  decide +kernel

/-- When the table is full, a live chunk is returned once more. -/
theorem not_heapRun_soundBlocks : ¬ ∀ (board : Board) (image : Boot.Image)
    (fdt : Option Boot.Blob) (b₀ : Buddy) (g : Globals) (rgns : List Boot.Region) (m : Mem),
    Boots board image fdt b₀ g rgns → ∀ ops,
      ∃ h, heapRun g ⟨allocatorInit g (markedMemory g rgns m), []⟩ ops = some h ∧
        SoundBlocks (markedPool g h.mem) h.live := by
  intro hall
  obtain ⟨h, heq, hsound⟩ := hall _ _ _ _ _ _ ⟨fun _ => 0⟩ cramped_boots crampedCalls
  have heq' : heapRun crampedGlobals ⟨allocatorInit crampedGlobals crampedMemory, []⟩ crampedCalls =
    some h := heq
  have hlive := cramped_live
  rw [heq', Option.map_some, Option.some_inj] at hlive
  have hdisjoint := hsound.disjoint
  rw [hlive, List.pairwise_cons] at hdisjoint
  have hmem : (0xffffffc080001800 : Addr) ∈ bytesAt 0xffffffc080001800 (blockBytes 2048) :=
    ⟨0, by decide, by decide⟩
  exact Set.disjoint_left.1 (hdisjoint.1 _ List.mem_cons_self) hmem hmem

end BareMetalOS.Heap
