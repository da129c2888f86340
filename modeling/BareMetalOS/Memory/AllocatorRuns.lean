import BareMetalOS.Memory.FreeSpec
import Mathlib.Order.CompletePartialOrder

/-!
# Runs of the dynamic allocator

`History` is the state of the allocator together with the allocations that are live: the pointers
that `allocate` returned and `free` has not been given back, with the sizes asked for. Any sequence
of calls keeps the invariant of the history (`HistoryInv.run`), and this says what the allocations
look like (`HistoryInv.soundBlocks`): each owns a block of the right size, inside the pool, aligned,
and disjoint from the other blocks and from the reserved pages.
-/

namespace BareMetalOS.Memory

/-- The allocator and its live allocations, as pairs of a pointer and a size. -/
structure History where
  alloc : Allocator
  live : List (Addr × ℕ)

/-- A call of the allocator; `free` takes the pointer of the live allocation at an index. -/
inductive AllocOp
  | allocate (size : ℕ)
  | free (i : ℕ)
  deriving DecidableEq

/-- The history after a call. -/
def AllocOp.step (h : History) : AllocOp → History
  | .allocate size =>
    let r := Memory.allocate h.alloc size
    ⟨r.2, if r.1 = 0 then h.live else (r.1, size) :: h.live⟩
  | .free i =>
    match h.live[i]? with
    | none => h
    | some e => ⟨Memory.free h.alloc e.1, h.live.eraseIdx i⟩

/-- The history after a sequence of calls. -/
def allocRun (h : History) (ops : List AllocOp) : History := ops.foldl AllocOp.step h

/-- The allocator after `allocator_init` has chosen a pool; the frame array of `s` says which pages
were reserved. -/
def allocStart (board : Board) (s : Buddy) (start size : Addr) : Allocator :=
  poolsInit (buddyInit (buddySetRegion board s start size))

/-- What the live allocations look like. -/
structure SoundBlocks (b : Buddy) (live : List (Addr × ℕ)) : Prop where
  disjoint : live.Pairwise fun e e' =>
    Disjoint (bytesAt e.1 (blockBytes e.2)) (bytesAt e'.1 (blockBytes e'.2))
  /-- A small request has a chunk of the least size class that fits, aligned to its size. -/
  small : ∀ e ∈ live, e.2 ≤ 2048 → ∃ i < chunkPoolCount, blockBytes e.2 = gPoolSizes i ∧
    e.2 ≤ gPoolSizes i ∧ (∀ j < i, gPoolSizes j < e.2) ∧ gPoolSizes i ∣ e.1.toNat
  /-- A large request has the least power of two of pages that fits, aligned to the page. -/
  large : ∀ e ∈ live, 2048 < e.2 → ∃ k, blockBytes e.2 = 2 ^ k * pageSize ∧
    e.2 ≤ 2 ^ k * pageSize ∧ (∀ j < k, 2 ^ j * pageSize < e.2) ∧ pageSize ∣ e.1.toNat
  inside : ∀ e ∈ live,
    bytesAt e.1 (blockBytes e.2) ⊆ bytesAt b.mempoolStart b.mempoolSize.toNat
  reserved : ∀ e ∈ live, ∀ idx < b.memTotalPage, (b.frameArray idx).state = .reserved →
    Disjoint (bytesAt e.1 (blockBytes e.2)) (bytesAt (pageToAddr b idx) pageSize)

variable {s : Allocator} {b : Buddy} {n n' idx : ℕ} {p p' : Addr}

/-! ## Live blocks in memory -/

/-- Different live blocks are disjoint. -/
theorem Live.disjoint (h : AllocInv s) (hl : Live s p n) (hl' : Live s p' n') (hne : p ≠ p') :
    Disjoint (bytesAt p n) (bytesAt p' n') := by
  obtain ⟨o, hp, hn, ho, idx, hc⟩ := hl.offset h
  obtain ⟨o', hp', hn', ho', idx', hc'⟩ := hl'.offset h
  have htotal := h.pool.total
  have hsep : o + n ≤ o' ∨ o' + n' ≤ o := by
    by_contra hcon
    push Not at hcon
    -- a common offset would make the blocks equal
    refine hne ((hc (max o o') (by omega) (by omega)).unique (hc' (max o o') (by omega) ?_)).1
    omega
  rw [hp, hp']
  refine disjoint_bytesAt ?_ ?_ hsep
  all_goals
    simp only [pageSize, buddyTotalPages] at *
    omega

/-- A live block lies in the pool. -/
theorem Live.subset_pool (h : AllocInv s) (hl : Live s p n) :
    bytesAt p n ⊆ bytesAt s.buddy.mempoolStart s.buddy.mempoolSize.toNat := by
  obtain ⟨o, hp, -, ho, -⟩ := hl.offset h
  rw [hp, h.pool.size]
  exact bytesAt_subset ho

/-- A live block meets no reserved page. -/
theorem Live.disjoint_reserved (h : AllocInv s) (hl : Live s p n)
    (hidx : idx < s.buddy.memTotalPage) (hst : (s.buddy.frameArray idx).state = .reserved) :
    Disjoint (bytesAt p n) (bytesAt (pageToAddr s.buddy idx) pageSize) := by
  obtain ⟨o, hp, -, ho, idx', hc⟩ := hl.offset h
  rw [Set.disjoint_left]
  intro a ha ha'
  rw [hp, mem_bytesAt_add] at ha
  rw [pageToAddr, mem_bytesAt_add] at ha'
  obtain ⟨x, hx₁, hx₂, rfl⟩ := ha
  obtain ⟨y, hy₁, hy₂, hxy⟩ := ha'
  have hlt := h.pool.offset_lt hidx le_rfl
  have htotal := h.pool.total
  rw [add_ofNat_inj (by simp only [pageSize, buddyTotalPages] at *; omega) (by omega)] at hxy
  subst hxy
  have hpage : x / pageSize = idx := by
    simp only [pageSize] at *
    omega
  have hstate := (hc x hx₁ hx₂).page_state.2
  rw [hpage, hst] at hstate
  simp at hstate

theorem AlignedPool.dvd_toNat_add (h : AlignedPool b) {m o : ℕ} (hm : m ∣ pageSize) (ho : m ∣ o) :
    m ∣ (b.mempoolStart + BitVec.ofNat 64 o).toNat := by
  have h64 : m ∣ 2 ^ 64 := hm.trans (by decide)
  rw [BitVec.toNat_add, BitVec.toNat_ofNat]
  refine (Nat.dvd_mod_iff h64).2 (Nat.dvd_add ?_ ((Nat.dvd_mod_iff h64).2 ho))
  exact hm.trans (Nat.dvd_of_mod_eq_zero h.start)

/-- A live block is aligned to its size, or to the page if it is larger. -/
theorem Live.aligned (h : AllocInv s) (hl : Live s p n) : min n pageSize ∣ p.toNat := by
  cases hl with
  | @page idx k hlt hst ho =>
    rw [min_eq_right (Nat.le_mul_of_pos_left _ (Nat.two_pow_pos k))]
    exact h.pool.dvd_toNat_add dvd_rfl (dvd_mul_left _ _)
  | @chunk i idx c hi hlt hst hm hc hfree =>
    have hd := gPoolSizes_dvd hi
    rw [min_eq_left (Nat.le_of_dvd (by decide) hd), chunkAddr_eq]
    exact h.pool.dvd_toNat_add hd (Nat.dvd_add (hd.trans (dvd_mul_left _ _)) (dvd_mul_left _ _))

/-! ## The invariant of a history -/

/-- Every live allocation owns a live block of its size, and no pointer occurs twice. -/
structure HistoryInv (h : History) : Prop where
  inv : AllocInv h.alloc
  live : ∀ e ∈ h.live, Live h.alloc e.1 (blockBytes e.2)
  nodup : (h.live.map Prod.fst).Nodup

/-- The invariant holds when the allocators have started on an aligned pool. -/
theorem allocInv_poolsInit (ha : AlignedPool b) : AllocInv (poolsInit (buddyInit b)) := by
  have hi := buddyInit_spec b
  have hno : ∀ j < (buddyInit b).memTotalPage,
      ((buddyInit b).frameArray j).state ≠ .allocChunkPool ∧
      ((buddyInit b).frameArray j).state ≠ .allocPageHead := by
    intro j hj
    rw [hi.total] at hj
    by_cases hr : (b.frameArray j).state = .reserved
    · simp [(hi.reserved j).2 hr]
    · have := (hi.free j hj hr).ne
      exact ⟨this.2.1, this.1⟩
  refine ⟨hi.inv, ⟨?_, ?_, ?_, ?_⟩, rfl, hi.ready, fun _ _ => rfl, fun j hj h => ?_,
    fun _ _ => List.nodup_nil, fun _ _ a h => absurd h List.not_mem_nil, fun j hj h => ?_,
    fun j hj h => ?_⟩
  · exact (congrArg (·.toNat % pageSize) hi.start).trans ha.start
  · exact (congrArg BitVec.toNat hi.size).trans (ha.size.trans (by rw [← hi.total]; rfl))
  · exact hi.total.le.trans ha.total
  · exact ha.pos.trans_eq hi.total.symm
  · exact absurd h (hno j hj).1
  · exact absurd h (hno j hj).1
  · exact absurd h (hno j hj).2

/-- A call keeps the invariant, and the reserved pages. -/
theorem HistoryInv.step {h : History} (hh : HistoryInv h) (op : AllocOp) :
    HistoryInv (op.step h) ∧ SamePool h.alloc.buddy (op.step h).alloc.buddy ∧
      ∀ j, ((op.step h).alloc.buddy.frameArray j).state = .reserved ↔
        (h.alloc.buddy.frameArray j).state = .reserved := by
  cases op with
  | allocate size =>
    obtain ⟨hk, hnew⟩ := allocate_spec hh.inv size
    refine ⟨⟨hk.inv, fun e he => ?_, ?_⟩, hk.pool, hk.reserved⟩
    · simp only [AllocOp.step] at he
      split_ifs at he with h0
      · exact hk.live _ _ (by simp) (hh.live e he)
      · rcases List.mem_cons.1 he with rfl | he
        · exact (hnew h0).1
        · exact hk.live _ _ (by simp) (hh.live e he)
    · simp only [AllocOp.step]
      split_ifs with h0
      · exact hh.nodup
      · rw [List.map_cons, List.nodup_cons]
        refine ⟨fun hmem => ?_, hh.nodup⟩
        obtain ⟨e, he, heq⟩ := List.mem_map.1 hmem
        exact (hnew h0).2 _ (heq ▸ hh.live e he)
  | free i =>
    simp only [AllocOp.step]
    rcases hi : h.live[i]? with _ | e
    · exact ⟨hh, .refl _, fun _ => Iff.rfl⟩
    · have hk := free_spec hh.inv e.1
      obtain ⟨hlt, hget⟩ := List.getElem?_eq_some_iff.1 hi
      have hnd := hh.nodup
      -- the freed pointer is gone from the list
      have hperm := (List.getElem_cons_eraseIdx_perm hlt).symm
      rw [(hperm.map Prod.fst).nodup_iff, List.map_cons, List.nodup_cons, hget] at hnd
      refine ⟨⟨hk.inv, fun e' he' => ?_, hnd.2⟩, hk.pool, hk.reserved⟩
      refine hk.live _ _ ?_ (hh.live e' (List.mem_of_mem_eraseIdx he'))
      intro heq
      exact hnd.1 (Option.some.inj heq ▸ List.mem_map_of_mem he')

theorem HistoryInv.run {h : History} (hh : HistoryInv h) (ops : List AllocOp) :
    HistoryInv (allocRun h ops) ∧ SamePool h.alloc.buddy (allocRun h ops).alloc.buddy ∧
      ∀ j, ((allocRun h ops).alloc.buddy.frameArray j).state = .reserved ↔
        (h.alloc.buddy.frameArray j).state = .reserved := by
  induction ops generalizing h with
  | nil => exact ⟨hh, .refl _, fun _ => Iff.rfl⟩
  | cons op ops ih =>
    obtain ⟨h₁, h₂, h₃⟩ := hh.step op
    obtain ⟨h₄, h₅, h₆⟩ := ih h₁
    exact ⟨h₄, h₂.trans h₅, fun j => (h₆ j).trans (h₃ j)⟩

theorem HistoryInv.soundBlocks {h : History} (hh : HistoryInv h) :
    SoundBlocks h.alloc.buddy h.live where
  disjoint := by
    have hnd := hh.nodup
    rw [List.Nodup, List.pairwise_map] at hnd
    exact hnd.imp_of_mem fun ha hb hne => (hh.live _ ha).disjoint hh.inv (hh.live _ hb) hne
  small e he hsize := by
    obtain ⟨i, hi, hb, hle, hleast⟩ := blockBytes_small hsize
    refine ⟨i, hi, hb, hle, hleast, ?_⟩
    have hal := (hh.live e he).aligned hh.inv
    rwa [hb, min_eq_left (Nat.le_of_dvd (by decide) (gPoolSizes_dvd hi))] at hal
  large e he hsize := by
    obtain ⟨k, hb, hle, hleast⟩ := blockBytes_large hsize
    refine ⟨k, hb, hle, hleast, ?_⟩
    have hal := (hh.live e he).aligned hh.inv
    rwa [hb, min_eq_right (Nat.le_mul_of_pos_left _ (Nat.two_pow_pos k))] at hal
  inside e he := (hh.live e he).subset_pool hh.inv
  reserved e he idx hidx hst := (hh.live e he).disjoint_reserved hh.inv hidx hst

theorem historyInv_start (ha : AlignedPool b) : HistoryInv ⟨poolsInit (buddyInit b), []⟩ :=
  ⟨allocInv_poolsInit ha, fun _ he => absurd he List.not_mem_nil, List.nodup_nil⟩

end BareMetalOS.Memory
