import BareMetalOS.Heap.FreeLists
import BareMetalOS.Memory.ChunkPools

/-!
# Calls with any argument in memory

`CallHistory` is the memory together with what the callers hold, one entry for each reference to a
block. Under `free` and `page_inc_ref` of any value, and stores of the holders, the memory holds a
state whose blocks are those held (`CallInv`). Hence `free` leaves the memory alone unless a held
block starts exactly at its argument (`free_anyValue`), and the reference count and the free chunks
of a chunk page agree with what is held (`chunkPages_sound`).
-/

namespace BareMetalOS.Heap

open Memory

/-- The memory and the references that callers hold, as pairs of a pointer and the size of the
block. -/
structure CallHistory where
  mem : Mem
  held : List (Addr × ℕ)

/-- A call with any argument, or a store of a byte to a block that is held. -/
inductive CallOp
  | allocate (size : ℕ)
  | free (ptr : Addr)
  | pageIncRef (ptr : Addr)
  | store (i offset value : ℕ)
  deriving DecidableEq

/-- The entry is for the block of pages that starts with the page of `ptr`. -/
def IsPageOf (ptr : Addr) (e : Addr × ℕ) : Prop := e.1 = alignDownUl ptr 4096 ∧ 2048 < e.2

instance (ptr : Addr) (e : Addr × ℕ) : Decidable (IsPageOf ptr e) :=
  inferInstanceAs (Decidable (_ ∧ _))

/-- The history after a call or a store. There is no call of `page_inc_ref` that lets the `int`
overflow. -/
def CallOp.step (g : Globals) (h : CallHistory) : CallOp → Option CallHistory
  | .allocate size => do
    let (p, m) ← Heap.allocate g h.mem size
    return ⟨m, if p = 0 then h.held else (p, size) :: h.held⟩
  | .free ptr => do
    let m ← Heap.free g h.mem ptr
    return ⟨m, h.held.eraseP (·.1 = ptr)⟩
  | .pageIncRef ptr =>
    if ¬ InPool g ptr ∨ 2 ^ 31 ≤ get g h.mem (.cowRefCount (g.addrToPageIdx ptr)) + 1 then some h
    else some ⟨Heap.pageIncRef g h.mem ptr, (h.held.find? (IsPageOf ptr ·)).toList ++ h.held⟩
  | .store i offset value =>
    match h.held[i]? with
    | none => some h
    | some e =>
      if offset < blockBytes e.2 then
        some ⟨h.mem.store (e.1 + BitVec.ofNat 64 offset) 1 value, h.held⟩
      else some h

/-- The history after a sequence of calls and stores. -/
def callRun (g : Globals) (h : CallHistory) (ops : List CallOp) : Option CallHistory :=
  ops.foldlM (CallOp.step g) h

variable {g : Globals} {P : ℕ → Prop} {m m' : Mem} {s s' : Allocator} {h : CallHistory}
  {held : List (Addr × ℕ)} {e : Addr × ℕ} {a p ptr : Addr} {l : List Addr} {i idx c n size : ℕ}

/-! ## What is held -/

/-- The pointers that are held. -/
def pointers (held : List (Addr × ℕ)) : List Addr := held.map Prod.fst

theorem pointers_cons (e : Addr × ℕ) (held : List (Addr × ℕ)) :
    pointers (e :: held) = e.1 :: pointers held := rfl

/-- The blocks of the state are those held, each with as many references as there are entries. -/
structure HeldInv (s : Allocator) (held : List (Addr × ℕ)) : Prop where
  real : RealPool s.buddy
  used : ChunkPagesUsed s
  block : ∀ e ∈ held, blocks s e.1 = some (blockBytes e.2, ((pointers held).count e.1 : ℤ))
  none : ∀ p, p ∉ pointers held → blocks s p = none

/-- The memory holds a state with the allocator's invariants, whose blocks are those held. -/
def CallInv (g : Globals) (P : ℕ → Prop) (h : CallHistory) : Prop :=
  ∃ s, Holds g P h.mem s ∧ HeldInv s h.held

namespace HeldInv

variable (hh : HeldInv s held)
include hh

theorem mem_pointers_iff : p ∈ pointers held ↔ blocks s p ≠ Option.none := by
  constructor
  · intro hp
    obtain ⟨e, he, rfl⟩ := List.mem_map.1 hp
    rw [hh.block e he]
    simp
  · intro hb
    by_contra hp
    exact hb (hh.none p hp)

/-- A pointer that is not held is no block. -/
theorem not_live (hp : p ∉ pointers held) (n : ℕ) : ¬ Live s p n :=
  blocks_eq_none.1 (hh.none p hp) n

theorem live (hi : AllocInv s) (he : e ∈ held) : Live s e.1 (blockBytes e.2) :=
  ((blocks_eq_some hi).1 (hh.block e he)).1

theorem exists_of_live (hi : AllocInv s) (hl : Live s p n) :
    ∃ e ∈ held, e.1 = p ∧ blockBytes e.2 = n := by
  have hp : p ∈ pointers held := by
    by_contra hp
    exact hh.not_live hp n hl
  obtain ⟨e, he, rfl⟩ := List.mem_map.1 hp
  exact ⟨e, he, rfl, (hh.live hi he).unique hi hl⟩

end HeldInv

/-! ## Steps -/

theorem HeldInv.allocate (hh : HeldInv s held) (hi : AllocInv s) (size : ℕ) :
    HeldInv (Memory.allocate s size).2 (if (Memory.allocate s size).1 = 0 then held
      else ((Memory.allocate s size).1, size) :: held) := by
  have hk := (allocate_spec hi size).1
  have hreal := hh.real.of_samePool hk.pool
  have hused := allocate_used hi hh.real hh.used size
  rcases allocate_blocks hi hh.real size with ⟨h0, hb⟩ | ⟨h0, hnone, hb⟩
  · rw [if_pos h0]
    exact ⟨hreal, hused, fun e he => by rw [hb, hh.block e he],
      fun p hp => by rw [hb, hh.none p hp]⟩
  · rw [if_neg h0]
    have hfresh : (Memory.allocate s size).1 ∉ pointers held := fun hmem =>
      hh.mem_pointers_iff.1 hmem hnone
    refine ⟨hreal, hused, fun e he => ?_, fun p hp => ?_⟩
    · rw [hb, pointers_cons]
      rcases List.mem_cons.1 he with rfl | he
      · rw [Function.update_self, List.count_cons_self, List.count_eq_zero_of_not_mem hfresh]
        rfl
      · have hne : e.1 ≠ (Memory.allocate s size).1 := fun heq =>
          hfresh (heq ▸ List.mem_map_of_mem he)
        rw [Function.update_of_ne hne, hh.block e he, List.count_cons_of_ne hne.symm]
    · rw [pointers_cons, List.mem_cons, not_or] at hp
      rw [hb, Function.update_of_ne hp.1, hh.none p hp.2]

theorem pointers_eraseP (held : List (Addr × ℕ)) (ptr : Addr) :
    pointers (held.eraseP (·.1 = ptr)) = (pointers held).erase ptr := by
  rw [pointers, pointers, List.erase_eq_eraseP, List.eraseP_map]
  congr 1
  refine congrArg (List.eraseP · held) (funext fun e => ?_)
  rw [Function.comp_apply, Bool.beq_eq_decide_eq]
  exact decide_eq_decide.2 eq_comm

theorem HeldInv.free (hh : HeldInv s held) (hi : AllocInv s) (ptr : Addr) :
    HeldInv (Memory.free s ptr) (held.eraseP (·.1 = ptr)) := by
  have hk := free_spec hi ptr
  by_cases hp : ptr ∈ pointers held
  swap
  · have hsame : held.eraseP (·.1 = ptr) = held := by
      refine List.eraseP_of_forall_not fun e he heq => hp ?_
      exact of_decide_eq_true heq ▸ List.mem_map_of_mem he
    rw [free_of_not_live hi (hh.not_live hp), hsame]
    exact hh
  obtain ⟨e₀, he₀, rfl⟩ := List.mem_map.1 hp
  have hb := hh.block e₀ he₀
  have hblocks := free_blocks hi hh.real hb
  have hcount : 0 < (pointers held).count e₀.1 := List.count_pos_iff.2 hp
  refine ⟨hh.real.of_samePool hk.pool, free_used hi hh.real hh.used hb, fun e he => ?_,
    fun p hnot => ?_⟩
  · have hmem : e ∈ held := List.mem_of_mem_eraseP he
    have hpos : 0 < (pointers (held.eraseP (·.1 = e₀.1))).count e.1 :=
      List.count_pos_iff.2 (List.mem_map_of_mem he)
    rw [pointers_eraseP] at hpos ⊢
    rw [hblocks]
    by_cases heq : e.1 = e₀.1
    · -- another reference to the block is left
      have hblock := hh.block e hmem
      rw [heq] at hblock hpos ⊢
      rw [hb, Option.some_inj, Prod.mk.injEq] at hblock
      rw [List.count_erase_self] at hpos ⊢
      rw [Function.update_self, if_neg (by omega), hblock.1]
      congr 2
      omega
    · rw [Function.update_of_ne heq, hh.block e hmem, List.count_erase_of_ne heq]
  · rw [pointers_eraseP] at hnot
    rw [hblocks]
    by_cases heq : p = e₀.1
    · subst heq
      have hzero := List.count_eq_zero_of_not_mem hnot
      rw [List.count_erase_self] at hzero
      rw [Function.update_self, if_pos (by omega)]
    · rw [Function.update_of_ne heq]
      exact hh.none p fun hmem => hnot ((List.mem_erase_of_ne heq).2 hmem)

theorem HeldInv.pageIncRef (hh : HeldInv s held) (hi : AllocInv s)
    (hin : Memory.InPool s.buddy ptr) : HeldInv (Memory.pageIncRef s ptr)
      ((held.find? (IsPageOf ptr ·)).toList ++ held) := by
  have hk := pageIncRef_spec hi ptr
  have hreal := hh.real.of_samePool hk.pool
  have hused := pageIncRef_used hi hh.used ptr
  have hlt := hin.idx_lt hi.pool
  have halign := hin.alignDown_eq hi.pool hlt
  have hpage := addrToPageIdx_pageToAddr hi.pool hlt
  by_cases hst : (s.buddy.frameArray (Memory.addrToPageIdx s.buddy ptr)).state = .allocPageHead
  · -- the block of the page is held
    obtain ⟨k, -, -, hM, -, -⟩ := tiled_at_allocPageHead hi.inv.left (Nat.zero_le _) hlt hst
    obtain ⟨e₀, he₀, hp₀, hn₀⟩ := hh.exists_of_live hi (Live.page hlt hst hM.order)
    have hlarge : 2048 < e₀.2 := by
      by_contra hsmall
      have := blockBytes_lt (not_lt.1 hsmall)
      have := Nat.le_mul_of_pos_left pageSize (Nat.two_pow_pos k)
      omega
    have hfind : (held.find? (IsPageOf ptr ·)).isSome := by
      rw [List.find?_isSome]
      exact ⟨e₀, he₀, decide_eq_true ⟨hp₀.trans halign.symm, hlarge⟩⟩
    obtain ⟨e₁, he₁⟩ := Option.isSome_iff_exists.1 hfind
    have hmem₁ := List.mem_of_find?_eq_some he₁
    have hof : IsPageOf ptr e₁ := by simpa using List.find?_some he₁
    have hp₁ : e₁.1 = pageToAddr s.buddy (Memory.addrToPageIdx s.buddy ptr) := hof.1.trans halign
    have hb := hh.block e₁ hmem₁
    rw [hp₁] at hb
    have hblocks := blocks_pageIncRef_of_head hi hin hst hb
    rw [he₁, Option.toList_some, List.singleton_append]
    refine ⟨hreal, hused, fun e he => ?_, fun p hp => ?_⟩
    · have hmem : e ∈ held := (List.mem_cons.1 he).elim (fun heq => heq ▸ hmem₁) id
      rw [hblocks, pointers_cons, hp₁]
      by_cases heq : e.1 = pageToAddr s.buddy (Memory.addrToPageIdx s.buddy ptr)
      · have hblock := hh.block e hmem
        rw [heq, hb, Option.some_inj, Prod.mk.injEq] at hblock
        rw [heq, Function.update_self, List.count_cons_self, hblock.1]
        rfl
      · rw [Function.update_of_ne heq, hh.block e hmem, List.count_cons_of_ne (Ne.symm heq)]
    · rw [pointers_cons, hp₁, List.mem_cons, not_or] at hp
      rw [hblocks, Function.update_of_ne hp.1, hh.none p hp.2]
  · -- no block of pages starts with the page
    have hfind : held.find? (IsPageOf ptr ·) = Option.none := by
      rw [List.find?_eq_none]
      rintro e he hof
      obtain ⟨hp, hlarge⟩ : IsPageOf ptr e := of_decide_eq_true hof
      have hhead := ((hh.live hi he).page_of_le hi (pageSize_le_blockBytes hlarge)).1
      rw [hp, halign, hpage] at hhead
      exact hst hhead
    rw [hfind, Option.toList_none, List.nil_append]
    have hblocks := blocks_pageIncRef_of_ne_head hi hst
    exact ⟨hreal, hused, fun e he => by rw [hblocks, hh.block e he],
      fun p hp => by rw [hblocks, hh.none p hp]⟩

/-- A call or a store keeps the invariant, and comes to an end. -/
theorem CallInv.step (hs : Separate g P) (hh : CallInv g P h) (op : CallOp) :
    ∃ h', op.step g h = some h' ∧ CallInv g P h' := by
  obtain ⟨s, hm, hheld⟩ := hh
  cases op with
  | allocate size =>
    obtain ⟨m', heq, hm'⟩ := hm.allocate hs size
    exact ⟨_, by rw [CallOp.step, heq]; rfl, _, hm', hheld.allocate hm.inv size⟩
  | free ptr =>
    obtain ⟨m', heq, hm'⟩ := hm.free hs ptr
    exact ⟨_, by rw [CallOp.step, heq]; rfl, _, hm', hheld.free hm.inv ptr⟩
  | pageIncRef ptr =>
    rw [CallOp.step]
    by_cases hbad : ¬ InPool g ptr ∨ 2 ^ 31 ≤ get g h.mem (.cowRefCount (g.addrToPageIdx ptr)) + 1
    · rw [if_pos hbad]
      exact ⟨h, rfl, s, hm, hheld⟩
    · rw [if_neg hbad]
      rw [not_or, not_not, not_le] at hbad
      exact ⟨_, rfl, _, hm.pageIncRef hs ptr hbad.2,
        hheld.pageIncRef hm.inv ((hm.rep.inPool_iff ptr).1 hbad.1)⟩
  | store i offset value =>
    rw [CallOp.step]
    rcases hi : h.held[i]? with _ | e
    · exact ⟨h, rfl, s, hm, hheld⟩
    simp only
    split_ifs with hlt
    · have hlive := hheld.live hm.inv (List.mem_of_getElem? hi)
      exact ⟨_, rfl, s, hm.storeByte hs hlive ⟨offset, hlt, rfl⟩ value, hheld⟩
    · exact ⟨h, rfl, s, hm, hheld⟩

theorem CallInv.run (hs : Separate g P) (hh : CallInv g P h) (ops : List CallOp) :
    ∃ h', callRun g h ops = some h' ∧ CallInv g P h' := by
  induction ops generalizing h with
  | nil => exact ⟨h, rfl, hh⟩
  | cons op ops ih =>
    obtain ⟨h₁, heq, hh₁⟩ := hh.step hs op
    obtain ⟨h', heq', hh'⟩ := ih hh₁
    refine ⟨h', ?_, hh'⟩
    rw [callRun, List.foldlM_cons, heq]
    exact heq'

theorem Started.callInv (hg : Started g) (hreal : RealRange g) (hs : Separate g (NotReserved g m)) :
    CallInv g (NotReserved g m) ⟨allocatorInit g m, []⟩ := by
  have hexact : ExactHistory ⟨startState g m, []⟩ :=
    exactHistory_start (hg.alignedPool m) (hreal.realPool hg m)
  refine ⟨startState g m, hg.holds hs, hexact.real, hexact.used, fun e he => ?_, fun p _ => ?_⟩
  · exact absurd he List.not_mem_nil
  · have hmem := hexact.mem_iff p
    simpa using hmem

/-! ## `free` of any value -/

/-- **`free` in memory leaves the memory alone** if no live block starts at its argument. -/
theorem Holds.free_of_not_live (hm : Holds g P m s) (hl : ∀ n, ¬ Live s ptr n) :
    Heap.free g m ptr = some m := by
  rw [Heap.free]
  by_cases h₁ : ¬ g.allocatorReady = true ∨ ptr = 0
  · rw [if_pos h₁]
  rw [if_neg h₁]
  by_cases hin : InPool g ptr
  swap
  · rw [if_pos hin]
  rw [if_neg (not_not.2 hin)]
  have hin' := (hm.rep.inPool_iff ptr).1 hin
  have hpage := hm.rep.addrToPageIdx_eq ptr
  have hlt := hin'.idx_lt hm.inv.pool
  rw [hpage] at hlt
  have hidx := hlt.trans_eq hm.rep.total
  simp only [hm.rep.state_eq_iff hidx]
  rw [if_neg (Nat.not_le.2 hidx)]
  cases hst : (s.buddy.frameArray (g.addrToPageIdx ptr)).state with
  | allocChunkPool =>
    obtain ⟨i, hi, hmeta, heq⟩ := hm.freeChunk_eq hin' hst
    rw [if_pos rfl, heq]
    by_cases hal : (ptr - pageToAddr s.buddy (g.addrToPageIdx ptr)).toNat % gPoolSizes i = 0
    · rw [if_neg (not_not.2 hal)]
      by_cases hmem : ptr ∈ (s.gPools i).freeList
      · rw [if_pos hmem]
      · rw [← hpage] at hst hmeta hal
        exact absurd (hin'.live_chunk hm.inv hi hst hmeta hal hmem) (hl _)
    · rw [if_pos hal]
  | allocPageHead =>
    rw [if_neg (by simp), if_pos rfl, Heap.freePage]
    by_cases hal : ptr &&& 4095#64 = 0
    · rw [← hpage] at hst
      obtain ⟨n, hlive⟩ := hin'.live_page hm.inv hst hal
      exact absurd hlive (hl n)
    · rw [if_pos hal]
  | freeHead => rfl
  | freeTail => rfl
  | reserved => rfl
  | allocPageTail => rfl

/-- The values that are not the start of a live block, by what the memory says of them. -/
inductive NotABlock (g : Globals) (m : Mem) (ptr : Addr) : Prop
  | null (h : ptr = 0)
  | outOfPool (h : ¬ InPool g ptr)
  | free (h : IsFreePage g m (g.addrToPageIdx ptr))
  | reserved (h : get g m (.state (g.addrToPageIdx ptr)) = stateCode .reserved)
  | tail (h : get g m (.state (g.addrToPageIdx ptr)) = stateCode .allocPageTail)
  | insidePage (h : get g m (.state (g.addrToPageIdx ptr)) = stateCode .allocPageHead)
      (hal : ptr.toNat % pageSize ≠ 0)
  | insideChunk (i : ℕ) (h : get g m (.state (g.addrToPageIdx ptr)) = stateCode .allocChunkPool)
      (hm : get g m (.metaPoolIdx (g.addrToPageIdx ptr)) = i) (hal : ptr.toNat % gPoolSizes i ≠ 0)
  | freeChunk (i : ℕ) (l : List Addr) (hi : i < chunkPoolCount)
      (hl : listAt g m (g.freeListAt i) = some l) (hmem : ptr ∈ l)

/-- The pool of a chunk page, as the memory has it. -/
theorem Holds.metaPoolIdx_eq (hm : Holds g P m s) (hidx : idx < g.memTotalPage)
    (hst : (s.buddy.frameArray idx).state = .allocChunkPool) :
    get g m (.metaPoolIdx idx) = i ↔ (s.buddy.frameArray idx).metaPoolIdx = i := by
  obtain ⟨i', hi', hmeta, -⟩ := hm.inv.chunkPage idx (hidx.trans_eq hm.rep.total.symm) hst
  rw [show get g m (.metaPoolIdx idx) = _ from hm.rep.frame idx hidx .metaPoolIdx, Datum.code,
    hmeta]
  simp only [chunkPoolCount] at hi'
  omega

theorem NotABlock.not_live (hn : NotABlock g m ptr) (hm : Holds g P m s) (hreal : RealPool s.buddy)
    (n : ℕ) : ¬ Live s ptr n := by
  by_cases hin : InPool g ptr
  swap
  · exact (Memory.NotABlock.outOfPool (mt (hm.rep.inPool_iff ptr).2 hin)).not_live hm.inv hreal n
  have hpage := hm.rep.addrToPageIdx_eq ptr
  have hidx : g.addrToPageIdx ptr < g.memTotalPage := by
    rw [← hpage, ← hm.rep.total]
    exact ((hm.rep.inPool_iff ptr).1 hin).idx_lt hm.inv.pool
  have hstate : ∀ {st}, get g m (.state (g.addrToPageIdx ptr)) = stateCode st →
      (s.buddy.frameArray (Memory.addrToPageIdx s.buddy ptr)).state = st := fun hst => by
    rw [hpage]
    exact (hm.rep.state_eq_iff hidx).1 hst
  cases hn with
  | null h => exact (Memory.NotABlock.null h).not_live hm.inv hreal n
  | outOfPool h => exact absurd hin h
  | free h =>
    have hfree := (hm.rep.isFreePage_iff.1 h).2
    rw [← hpage] at hfree
    exact (Memory.NotABlock.free hfree).not_live hm.inv hreal n
  | reserved h => exact (Memory.NotABlock.reserved (hstate h)).not_live hm.inv hreal n
  | tail h => exact (Memory.NotABlock.tail (hstate h)).not_live hm.inv hreal n
  | insidePage h hal => exact (Memory.NotABlock.insidePage (hstate h) hal).not_live hm.inv hreal n
  | insideChunk i h hmeta hal =>
    have hst := hstate h
    rw [hpage] at hst
    have hmeta' := (hm.metaPoolIdx_eq hidx hst).1 hmeta
    rw [← hpage] at hst hmeta'
    exact (Memory.NotABlock.insideChunk i hst hmeta' hal).not_live hm.inv hreal n
  | freeChunk i l hi hl hmem =>
    have hlist : listAt g m (g.freeListAt i) = some (s.gPools i).freeList :=
      hm.rep.listAt_eq (x := .pool i) hi
    obtain rfl := Option.some.inj (hlist.symm.trans hl)
    exact hm.inv.not_live_of_mem hi hmem n

/-- **`free` of any value whatsoever, in memory**, in every state after any calls and stores, if
`frame_array`, `free_area` and `g_pools` overlap neither each other nor a page that is not
`RESERVED`. It keeps the invariants, and every block that is held otherwise. It leaves the memory
alone unless a held block starts exactly at its argument, so it ignores every kind of invalid value,
and also a second `free` of a block that is not shared. -/
theorem free_anyValue (hg : Started g) (hreal : RealRange g) (hs : Separate g (NotReserved g m))
    (ops : List CallOp) : ∃ h, callRun g ⟨allocatorInit g m, []⟩ ops = some h ∧
      ∀ ptr, ∃ m', Heap.free g h.mem ptr = some m' ∧
        CallInv g (NotReserved g m) ⟨m', h.held.eraseP (·.1 = ptr)⟩ ∧
        (ptr ∉ pointers h.held → m' = h.mem) ∧ (NotABlock g h.mem ptr → m' = h.mem) ∧
        ((pointers h.held).count ptr = 1 → Heap.free g m' ptr = some m') := by
  obtain ⟨h, heq, s, hm, hheld⟩ := (hg.callInv hreal hs).run hs ops
  refine ⟨h, heq, fun ptr => ?_⟩
  obtain ⟨m', hfree, hm'⟩ := hm.free hs ptr
  have hheld' := hheld.free hm.inv ptr
  have hsame : (∀ n, ¬ Live s ptr n) → m' = h.mem := fun hl =>
    Option.some.inj (hfree.symm.trans (hm.free_of_not_live hl))
  refine ⟨m', hfree, ⟨_, hm', hheld'⟩, fun hp => hsame (hheld.not_live hp),
    fun hn => hsame (hn.not_live hm hheld.real), fun hone => ?_⟩
  refine hm'.free_of_not_live (hheld'.not_live ?_)
  rw [pointers_eraseP, ← List.count_pos_iff, List.count_erase_self, hone]
  exact lt_irrefl 0

/-- Without a device tree, `free` of `NULL` is ignored. -/
theorem free_anyValue_default : ∃ h, callRun defaultGlobals
    ⟨allocatorInit defaultGlobals (markedMemory defaultGlobals defaultTable ⟨fun _ => 0⟩), []⟩
    [.allocate 100, .pageIncRef 0xffffffc081030000] = some h ∧
      Heap.free defaultGlobals h.mem 0 = some h.mem := by
  obtain ⟨h, heq, hfree⟩ := free_anyValue default_boots.started ⟨by decide, by decide⟩
    (default_boots.separate (default_framesReserved ⟨fun _ => 0⟩))
    [.allocate 100, .pageIncRef 0xffffffc081030000]
  obtain ⟨m', hm', -, -, hsame, -⟩ := hfree 0
  refine ⟨h, heq, ?_⟩
  rw [hm', hsame (.null rfl)]

/-- A page and two chunks are allocated, after the boot with a full table. -/
def crampedChunks : List CallOp := [.allocate 4096, .allocate 2048, .allocate 1024]

/-- Then the address `0x10` bytes inside the first chunk goes onto a free list. -/
theorem cramped_free : (callRun crampedGlobals ⟨allocatorInit crampedGlobals crampedMemory, []⟩
      crampedChunks).map (·.held) = some [(0xffffffc080001c00, 1024), (0xffffffc080019800, 2048),
        (0xffffffc080033000, 4096)] ∧
    ((callRun crampedGlobals ⟨allocatorInit crampedGlobals crampedMemory, []⟩
      crampedChunks).bind fun h =>
        (Heap.free crampedGlobals h.mem 0xffffffc080019810).map fun m' =>
          (next crampedGlobals h.mem (crampedGlobals.freeListAt 0),
            next crampedGlobals m' (crampedGlobals.freeListAt 0))) =
      some (crampedGlobals.freeListAt 0, 0xffffffc080019810) := by
  decide +kernel

/-- When the table is full, `free` takes an address inside a live chunk. -/
theorem not_free_anyValue : ¬ ∀ (board : Board) (image : Boot.Image) (fdt : Option Boot.Blob)
    (b₀ : Buddy) (g : Globals) (rgns : List Boot.Region) (m : Mem),
    Boots board image fdt b₀ g rgns → RealRange g → ∀ ops,
      ∃ h, callRun g ⟨allocatorInit g (markedMemory g rgns m), []⟩ ops = some h ∧
        ∀ ptr, ∃ m', Heap.free g h.mem ptr = some m' ∧ (ptr ∉ pointers h.held → m' = h.mem) := by
  intro hall
  obtain ⟨h, heq, hfree⟩ := hall _ _ _ _ _ _ ⟨fun _ => 0⟩ cramped_boots ⟨by decide, by decide⟩
    crampedChunks
  have heq' : callRun crampedGlobals ⟨allocatorInit crampedGlobals crampedMemory, []⟩
    crampedChunks = some h := heq
  obtain ⟨hheld, hnext⟩ := cramped_free
  rw [heq'] at hheld hnext
  obtain ⟨m', hm', hsame⟩ := hfree 0xffffffc080019810
  rw [Option.map_some, Option.some_inj] at hheld
  rw [Option.bind_some, hm', Option.map_some, Option.some_inj, Prod.mk.injEq] at hnext
  have hnot : (0xffffffc080019810 : Addr) ∉ pointers h.held := by
    rw [hheld]
    decide
  rw [hsame hnot] at hnext
  exact absurd (hnext.1.symm.trans hnext.2) (by decide)

end BareMetalOS.Heap
