import BareMetalOS.Boot.Reservation
import BareMetalOS.Heap.AllocatorRefines

/-!
# `allocator_init` in memory

What `allocator_init` does after `startup_alloc`: it clears `frame_array`, marks the pages of the
recorded regions in it and starts the two allocators. From then on the memory holds a state of the
level above if the allocator's data overlaps no page that may be handed out,
`Separate g (NotReserved g m)` (`Started.holds`).

`free_area` and `g_pools` lie in the kernel image, which is the first region in the table. After a
boot the condition is therefore one on `frame_array` (`Boots.separate`), which is the last region,
and is not recorded when the table is full.
-/

namespace BareMetalOS.Heap

open Memory
open Boot (Region Image Blob startupAlloc NoWrap MeetsPage)

variable (g : Globals)

/-! ## Marking -/

/-- `memset(frame_array, 0, ..)`. -/
def clearFrames (m : Mem) : Mem := m.store g.frameArray (g.memTotalPage * sizeofFrame) 0

/-- The loop of `buddy_mark_reserved_range`, over the pages `page .. page + n - 1`. -/
def markPages (m : Mem) (page : ℕ) : ℕ → Mem
  | 0 => m
  | n + 1 => set g (markPages m page n) (.state (page + n)) (stateCode .reserved)

/-- `buddy_mark_reserved_range`. -/
def buddyMarkReservedRange (m : Mem) (r : Region) : Mem :=
  if r.size = 0 ∨ g.memTotalPage = 0 then m
  else
    let regionEnd := g.mempoolStart + g.mempoolSize
    let reserveEnd := r.start + r.size
    if reserveEnd ≤ g.mempoolStart ∨ regionEnd ≤ r.start then m
    else
      let start := if r.start < g.mempoolStart then g.mempoolStart else r.start
      let reserveEnd := if regionEnd < reserveEnd then regionEnd else reserveEnd
      let pageStart := ((start - g.mempoolStart) >>> pageShift).toNat
      let pageEnd := (alignUpUl (reserveEnd - g.mempoolStart) 4096 >>> pageShift).toNat
      let pageEnd := if g.memTotalPage < pageEnd then g.memTotalPage else pageEnd
      markPages g m pageStart (pageEnd - pageStart)

/-- The memory before `buddy_init`, when the table is `rgns`. -/
def markedMemory (rgns : List Region) (m : Mem) : Mem :=
  rgns.foldl (buddyMarkReservedRange g) (clearFrames g m)

/-- The page is not marked `RESERVED`. -/
def NotReserved (m : Mem) (idx : ℕ) : Prop := get g m (.state idx) ≠ stateCode .reserved

instance (m : Mem) (idx : ℕ) : Decidable (NotReserved g m idx) :=
  inferInstanceAs (Decidable (_ ≠ _))

variable {g} {P : ℕ → Prop} {m : Mem} {b : Buddy} {s : Allocator} {r : Region} {idx n : ℕ}

/-! ## The reserved pages -/

theorem SamePoolAs.of_samePool {b' : Buddy} (h : SamePoolAs g b) (hp : SamePool b b') :
    SamePoolAs g b' :=
  ⟨hp.start.trans h.start, hp.size.trans h.size, hp.total.trans h.total⟩

/-- Only whether a page is `RESERVED` matters. -/
def markFrames (g : Globals) (m : Mem) (idx : ℕ) : Frame :=
  { Boot.zeroFrame with state := if NotReserved g m idx then .freeHead else .reserved }

theorem sameReserved_markFrames (g : Globals) (m : Mem) (b : Buddy) :
    SameReserved g m { b with frameArray := markFrames g m } := by
  intro idx _
  simp only [markFrames]
  by_cases h : NotReserved g m idx
  · rw [if_pos h]
    exact iff_of_false h (by simp)
  · rw [if_neg h]
    exact iff_of_true (not_not.1 h) rfl

theorem load_store_zero {a a' : Addr} {n' : ℕ} (hn' : n' ≤ 2 ^ 64)
    (h : bytesAt a n ⊆ bytesAt a' n') : (m.store a' n' 0).load a n = 0 := by
  induction n generalizing a with
  | zero => rfl
  | succ n ih =>
    have hfirst : (m.store a' n' 0).byte a = 0 := by
      have hmem : a ∈ bytesAt a' n' := h (mem_bytesAt_succ.2 (.inl rfl))
      rw [ByteMemory.mem_bytesAt_iff hn'] at hmem
      simp only [ByteMemory.store]
      rw [if_pos hmem, Nat.zero_div]
      rfl
    rw [ByteMemory.load, hfirst, ih fun x hx => h (mem_bytesAt_succ.2 (.inr hx))]
    rfl

/-- After the `memset` no page is `RESERVED`. -/
theorem sameReserved_clearFrames (hs : Separate g P) (m : Mem) (hb : SamePoolAs g b) :
    SameReserved g (clearFrames g m) (Boot.clearFrames b) := by
  intro idx hidx
  have hspot : Spot g P (.state idx) .frames (idx * 40 + 4) := .state hidx
  have htotal := hs.total_le
  have hzero : get g (clearFrames g m) (.state idx) = 0 := by
    refine load_store_zero ?_ hspot.subset_bytes
    simp only [buddyTotalPages, sizeofFrame] at *
    omega
  have hstate : ((Boot.clearFrames b).frameArray idx).state = .freeHead := by
    have hlt : idx < b.memTotalPage := hidx.trans_eq hb.total.symm
    simp [Boot.clearFrames, updRange_apply, hlt, Boot.zeroFrame]
  rw [hzero, hstate]
  exact iff_of_false (by decide) (by simp)

theorem get_markPages (hs : Separate g P) {page : ℕ} (hle : page + n ≤ g.memTotalPage)
    (hidx : idx < g.memTotalPage) : get g (markPages g m page n) (.state idx) =
      if page ≤ idx ∧ idx < page + n then stateCode .reserved else get g m (.state idx) := by
  induction n with
  | zero =>
    rw [markPages, if_neg (by omega)]
  | succ n ih =>
    have hn : Spot g P (.state (page + n)) .frames ((page + n) * 40 + 4) := .state (by omega)
    rw [markPages, get_set hs hn (.state hidx), ih (by omega)]
    by_cases heq : idx = page + n
    · subst heq
      rw [if_pos rfl, if_pos (by omega)]
      rfl
    · rw [if_neg (by simpa using heq)]
      by_cases hin : page ≤ idx ∧ idx < page + n
      · rw [if_pos hin, if_pos (by omega)]
      · rw [if_neg hin, if_neg (by omega)]

theorem sameReserved_markPages (hs : Separate g P) (h : SameReserved g m b) (page : ℕ) {stop : ℕ}
    (hle : stop ≤ g.memTotalPage) : SameReserved g (markPages g m page (stop - page)) { b with
      frameArray := updRange (fun f => { f with state := .reserved }) b.frameArray page
        (stop - page) } := by
  intro idx hidx
  simp only [updRange_apply]
  by_cases hpage : page ≤ stop
  · rw [get_markPages hs (by omega) hidx]
    by_cases hin : page ≤ idx ∧ idx < page + (stop - page)
    · rw [if_pos hin, if_pos hin]
      exact iff_of_true rfl rfl
    · rw [if_neg hin, if_neg hin]
      exact h idx hidx
  · rw [show stop - page = 0 by omega, if_neg (by omega)]
    exact h idx hidx

theorem sameReserved_mark (hs : Separate g P) (hb : SamePoolAs g b) (h : SameReserved g m b)
    (r : Region) :
    SameReserved g (buddyMarkReservedRange g m r) (Boot.buddyMarkReservedRange b r) := by
  rw [buddyMarkReservedRange, Boot.buddyMarkReservedRange, hb.start, hb.size, hb.total]
  by_cases h₁ : r.size = 0 ∨ g.memTotalPage = 0
  · rw [if_pos h₁, if_pos h₁]
    exact h
  rw [if_neg h₁, if_neg h₁]
  simp only
  by_cases h₂ : r.start + r.size ≤ g.mempoolStart ∨ g.mempoolStart + g.mempoolSize ≤ r.start
  · rw [if_pos h₂, if_pos h₂]
    exact h
  rw [if_neg h₂, if_neg h₂]
  refine sameReserved_markPages hs h _ ?_
  split_ifs <;> omega

/-- The marks are those of the level above. -/
theorem sameReserved_markedMemory (hs : Separate g P) (hb : SamePoolAs g b) (rgns : List Region)
    (m : Mem) : SameReserved g (markedMemory g rgns m)
      (rgns.foldl Boot.buddyMarkReservedRange (Boot.clearFrames b)) := by
  suffices h : ∀ m b, SamePoolAs g b → SameReserved g m b →
      SameReserved g (rgns.foldl (buddyMarkReservedRange g) m)
        (rgns.foldl Boot.buddyMarkReservedRange b) from
    h _ _ (hb.of_samePool ⟨rfl, rfl, rfl, rfl⟩) (sameReserved_clearFrames hs m hb)
  induction rgns with
  | nil => exact fun m b _ h => h
  | cons r l ih =>
    intro m b hb h
    exact ih _ _ (hb.of_samePool (Boot.samePool_mark b r)) (sameReserved_mark hs hb h r)

/-! ## The start -/

/-- The globals after `buddy_set_region` and the two initialisations. -/
structure Started (g : Globals) : Prop where
  pool : ∃ board b start size, SamePoolAs g (buddySetRegion board b start size)
  buddyReady : g.buddyReady = true
  allocatorReady : g.allocatorReady = true

theorem SamePoolAs.alignedPool {b' : Buddy} (h : SamePoolAs g b) (h' : SamePoolAs g b')
    (ha : AlignedPool b) : AlignedPool b' := by
  have hstart := h'.start.trans h.start.symm
  have hsize := h'.size.trans h.size.symm
  have htotal := h'.total.trans h.total.symm
  exact ⟨hstart ▸ ha.start, hsize ▸ htotal ▸ ha.size, htotal ▸ ha.total, htotal ▸ ha.pos⟩

/-- The memory after `allocator_init` holds the state that the level above starts from. -/
theorem holds_allocatorInit (hs : Separate g (NotReserved g m)) (hb : SamePoolAs g b)
    (hres : SameReserved g m b) (ha : AlignedPool b) (hbuddy : g.buddyReady = true)
    (halloc : g.allocatorReady = true) :
    Holds g (NotReserved g m) (allocatorInit g m) (poolsInit (Memory.buddyInit b)) := by
  have hinit := buddyInit_spec b
  refine ⟨rep_allocatorInit hs hb hres, allocInv_poolsInit ha, halloc, hbuddy,
    fun idx hidx hst => ?_, fun idx hidx hst => ?_⟩
  · intro hr
    exact hst ((hinit.reserved idx).2 ((hres idx hidx).1 hr))
  · exact absurd (.inl hst) (not_isUsed_buddyInit b (hidx.trans_eq hb.total.symm))

/-- The pool, with the pages that the memory marks `RESERVED`. -/
def markedPool (g : Globals) (m : Mem) : Buddy where
  mempoolStart := g.mempoolStart
  mempoolSize := g.mempoolSize
  memTotalPage := g.memTotalPage
  frameArray := markFrames g m
  freeArea _ := []
  ready := false

/-- The state of the level above after `allocator_init`. -/
def startState (g : Globals) (m : Mem) : Allocator := poolsInit (Memory.buddyInit (markedPool g m))

namespace Started

theorem alignedPool (h : Started g) (m : Mem) : AlignedPool (markedPool g m) := by
  obtain ⟨board, b, start, size, hb⟩ := h.pool
  exact hb.alignedPool ⟨rfl, rfl, rfl⟩ (alignedPool_buddySetRegion board b start size)

theorem holds (h : Started g) (hs : Separate g (NotReserved g m)) :
    Holds g (NotReserved g m) (allocatorInit g m) (startState g m) :=
  holds_allocatorInit hs ⟨rfl, rfl, rfl⟩ (sameReserved_markFrames g m (markedPool g m))
    (h.alignedPool m) h.buddyReady h.allocatorReady

end Started

/-- The parts are apart if the pages that may be handed out meet no other part. -/
theorem separate_of_pages (htotal : g.memTotalPage ≤ buddyTotalPages)
    (h₁ : Disjoint (g.bytes P .frames) (g.bytes P .freeArea))
    (h₂ : Disjoint (g.bytes P .frames) (g.bytes P .gPools))
    (h₃ : Disjoint (g.bytes P .freeArea) (g.bytes P .gPools))
    (hpages : ∀ r, r ≠ .pages → ∀ idx < g.memTotalPage, P idx →
      Disjoint (bytesAt (g.pageToAddr idx) pageSize) (g.bytes P r)) : Separate g P := by
  have hall : ∀ r, r ≠ .pages → Disjoint (g.bytes P .pages) (g.bytes P r) := by
    intro r hr
    rw [Set.disjoint_left]
    rintro a ⟨idx, hidx, hP, ha⟩
    exact Set.disjoint_left.1 (hpages r hr idx hidx hP) ha
  refine ⟨htotal, fun r r' hne => ?_⟩
  cases r <;> cases r' <;> first
    | exact absurd rfl hne
    | exact h₁
    | exact h₁.symm
    | exact h₂
    | exact h₂.symm
    | exact h₃
    | exact h₃.symm
    | exact hall _ (by decide)
    | exact (hall _ (by decide)).symm

/-! ## Boots -/

/-- The addresses of the kernel image. -/
def imageBytes (image : Image) : Set Addr := bytesAt image.start (image.stop - image.start).toNat

/-- `allocator_init` runs with this table and these globals. The linker places `free_area` and
`g_pools` in the kernel image. -/
structure Boots (board : Board) (image : Image) (fdt : Option Blob) (b₀ : Buddy) (g : Globals)
    (rgns : List Region) : Prop where
  startup : ∃ s, startupAlloc board image fdt b₀ = some (g.frameArray, s, rgns) ∧ SamePoolAs g s
  frameArray_ne : g.frameArray ≠ 0
  buddyReady : g.buddyReady = true
  allocatorReady : g.allocatorReady = true
  image_le : image.start.toNat ≤ image.stop.toNat
  freeArea : bytesAt g.freeArea ((buddyMaxOrder + 1) * sizeofListHead) ⊆ imageBytes image
  gPools : bytesAt g.gPools (chunkPoolCount * sizeofChunkPool) ⊆ imageBytes image
  apart : Disjoint (bytesAt g.freeArea ((buddyMaxOrder + 1) * sizeofListHead))
    (bytesAt g.gPools (chunkPoolCount * sizeofChunkPool))

/-- `frame_array` overlaps neither the kernel image nor a page that is not `RESERVED`. -/
structure FramesReserved (g : Globals) (image : Image) (m : Mem) : Prop where
  pages : ∀ idx < g.memTotalPage, NotReserved g m idx →
    Disjoint (bytesAt (g.pageToAddr idx) pageSize)
      (bytesAt g.frameArray (g.memTotalPage * sizeofFrame))
  kernel : Disjoint (bytesAt g.frameArray (g.memTotalPage * sizeofFrame)) (imageBytes image)

namespace Boots

variable {board : Board} {image : Image} {fdt : Option Blob} {b₀ : Buddy} {rgns : List Region}

/-- The state of the level above after the boot. -/
theorem exists_allocatorInit (h : Boots board image fdt b₀ g rgns) (a₀ : Allocator)
    (ha₀ : a₀.buddy = b₀) : ∃ b, SamePoolAs g b ∧ AlignedPool b ∧
      (∀ P, Separate g P → ∀ m, SameReserved g (markedMemory g rgns m) b) ∧
      Boot.allocatorInit board image fdt a₀ =
        some (g.frameArray, poolsInit (Memory.buddyInit b)) := by
  obtain ⟨s, hs, hpool⟩ := h.startup
  have ha : AlignedPool s := by
    simp only [startupAlloc, Option.bind_eq_bind, Option.bind_eq_some_iff] at hs
    obtain ⟨pool, -, rgns', -, place, -, hout⟩ := hs
    rcases place with _ | place
    all_goals
      simp only [Option.pure_def, Option.some.injEq, Prod.mk.injEq] at hout
      rw [← hout.2.1]
      exact alignedPool_buddySetRegion _ _ _ _
  have hclear : SamePool s (Boot.clearFrames s) := ⟨rfl, rfl, rfl, rfl⟩
  have hsame := hclear.trans (Boot.samePool_foldl_mark (Boot.clearFrames s) rgns)
  refine ⟨rgns.foldl Boot.buddyMarkReservedRange (Boot.clearFrames s), hpool.of_samePool hsame,
    hsame.alignedPool ha, fun P hsep m => sameReserved_markedMemory hsep hpool rgns m, ?_⟩
  rw [Boot.allocatorInit, ha₀, hs]
  simp only [Option.bind_eq_bind, Option.bind_some, if_neg h.frameArray_ne]
  rfl

theorem started (h : Boots board image fdt b₀ g rgns) : Started g := by
  obtain ⟨s, hs, hpool⟩ := h.startup
  refine ⟨?_, h.buddyReady, h.allocatorReady⟩
  simp only [startupAlloc, Option.bind_eq_bind, Option.bind_eq_some_iff] at hs
  obtain ⟨pool, -, rgns', -, place, -, hout⟩ := hs
  rcases place with _ | place
  all_goals
    simp only [Option.pure_def, Option.some.injEq, Prod.mk.injEq] at hout
    exact ⟨board, b₀, _, _, hout.2.1 ▸ hpool⟩

/-- The pages of the kernel image are `RESERVED` when the pool does not wrap: it is the first region
in the table. -/
theorem reserved_of_overlaps_image (h : Boots board image fdt b₀ g rgns) {b : Buddy}
    {l : List Region} {idx : ℕ} (ha : AlignedPool b) (hw : NoWrap b)
    (hl : Boot.regionList image fdt = some l) (hidx : idx < b.memTotalPage)
    (ho : ¬ Disjoint (bytesAt (pageToAddr b idx) pageSize) (imageBytes image)) :
    ∃ r ∈ Boot.tableRegions b (Boot.submitted l g.frameArray b), MeetsPage b idx r := by
  have hle := h.image_le
  have hsize : (image.stop - image.start).toNat = image.stop.toNat - image.start.toNat :=
    BitVec.toNat_sub_of_le (BitVec.le_def.2 hle)
  have hend : image.start.toNat + (image.stop - image.start).toNat < 2 ^ 64 := by
    have := image.stop.isLt
    omega
  obtain ⟨hpage, hpool⟩ := Boot.meets_of_overlaps (r := ⟨image.start, image.stop - image.start⟩) ha
    hw hend hidx ho
  refine ⟨⟨image.start, image.stop - image.start⟩, ?_, hpage⟩
  obtain ⟨l', rfl⟩ : ∃ l', l = ⟨image.start, image.stop - image.start⟩ :: l' := by
    rcases fdt with _ | blob
    · exact ⟨[], by simpa [Boot.regionList, eq_comm] using hl⟩
    · simp only [Boot.regionList, Option.bind_eq_bind, Option.bind_eq_some_iff] at hl
      obtain ⟨_, -, _, -, _, -, hl⟩ := hl
      exact ⟨_, (Option.some.inj hl).symm⟩
  rw [Boot.tableRegions, Boot.submitted, List.cons_append,
    List.filter_cons_of_pos (by simpa using hpool), show Boot.maxReservedRegions = 31 + 1 from rfl,
    List.take_succ_cons]
  exact List.mem_cons_self

/-- The marks after a boot: the pages that meet an entry of the table. -/
theorem exists_marked (h : Boots board image fdt b₀ g rgns) (hnone : Separate g fun _ => False)
    (m : Mem) : ∃ b l, SamePoolAs g b ∧ AlignedPool b ∧ Boot.regionList image fdt = some l ∧
      (¬ NoWrap b → g.frameArray = g.mempoolStart) ∧ ∀ idx < g.memTotalPage,
        ¬ NotReserved g (markedMemory g rgns m) idx ↔
          NoWrap b ∧ ∃ r ∈ Boot.tableRegions b (Boot.submitted l g.frameArray b),
            MeetsPage b idx r := by
  obtain ⟨b, hb, ha, hmark, hinit⟩ := h.exists_allocatorInit ⟨b₀, fun _ => ⟨0, []⟩, false⟩ rfl
  obtain ⟨l, hl, -, hwrap, hres⟩ := Boot.allocatorInit_reserved_iff hinit h.frameArray_ne
  have hspec := buddyInit_spec b
  have hb' : SamePoolAs g (Memory.buddyInit b) :=
    ⟨hspec.start.trans hb.start, hspec.size.trans hb.size, hspec.total.trans hb.total⟩
  refine ⟨Memory.buddyInit b, l, hb', (allocInv_poolsInit ha).pool, hl, fun hw => ?_,
    fun idx hidx => ?_⟩
  · exact (hwrap hw).trans hb'.start
  · rw [NotReserved, not_not, hmark _ hnone m idx hidx, ← hspec.reserved]
    exact hres idx (hidx.trans_eq hb'.total.symm)

variable {m : Mem}

theorem disjoint_kernel (h : Boots board image fdt b₀ g rgns)
    (hk : Disjoint (bytesAt g.frameArray (g.memTotalPage * sizeofFrame)) (imageBytes image)) :
    Separate g fun _ => False := by
  obtain ⟨b, hb, ha, -⟩ := h.exists_allocatorInit ⟨b₀, fun _ => ⟨0, []⟩, false⟩ rfl
  exact separate_of_pages (hb.total ▸ ha.total) (hk.mono_right h.freeArea) (hk.mono_right h.gPools)
    h.apart fun _ _ _ _ hP => hP.elim

/-- **After a boot only `frame_array` can be in the way.** -/
theorem separate (h : Boots board image fdt b₀ g rgns)
    (hf : FramesReserved g image (markedMemory g rgns m)) :
    Separate g (NotReserved g (markedMemory g rgns m)) := by
  have hnone := h.disjoint_kernel hf.kernel
  obtain ⟨b, l, hb, ha, hl, hwrap, hres⟩ := h.exists_marked hnone m
  have hpos : 0 < g.memTotalPage := hb.total ▸ ha.pos
  have hw : NoWrap b := by
    by_contra hw
    -- `frame_array` is at the start of the pool, whose first page is not marked
    have hP : NotReserved g (markedMemory g rgns m) 0 := by
      by_contra hst
      exact hw ((hres 0 hpos).1 hst).1
    have hpage : g.mempoolStart ∈ bytesAt (g.pageToAddr 0) pageSize :=
      ⟨0, by decide, by simp [Globals.pageToAddr]⟩
    have hframe : g.mempoolStart ∈ bytesAt g.frameArray (g.memTotalPage * sizeofFrame) :=
      ⟨0, Nat.mul_pos hpos (by decide), by simp [hwrap hw]⟩
    exact Set.disjoint_left.1 (hf.pages 0 hpos hP) hpage hframe
  have himage : ∀ idx < g.memTotalPage, NotReserved g (markedMemory g rgns m) idx →
      Disjoint (bytesAt (g.pageToAddr idx) pageSize) (imageBytes image) := by
    intro idx hidx hP
    by_contra hover
    rw [Globals.pageToAddr, ← hb.start] at hover
    obtain ⟨r, hr, hm⟩ :=
      h.reserved_of_overlaps_image ha hw hl (hidx.trans_eq hb.total.symm) hover
    exact (hres idx hidx).2 ⟨hw, r, hr, hm⟩ hP
  refine separate_of_pages hnone.total_le (hf.kernel.mono_right h.freeArea)
    (hf.kernel.mono_right h.gPools) h.apart fun r hr idx hidx hP => ?_
  cases r with
  | frames => exact hf.pages idx hidx hP
  | freeArea => exact (himage idx hidx hP).mono_right h.freeArea
  | gPools => exact (himage idx hidx hP).mono_right h.gPools
  | pages => exact absurd rfl hr

/-- When the regions in use fit the table, the pages of `frame_array` are `RESERVED`. -/
theorem framesReserved (h : Boots board image fdt b₀ g rgns) {s : Buddy} (hs : SamePoolAs g s)
    (hfit : Boot.FitsTable image fdt g.frameArray s)
    (hk : Disjoint (bytesAt g.frameArray (g.memTotalPage * sizeofFrame)) (imageBytes image)) :
    FramesReserved g image (markedMemory g rgns m) := by
  obtain ⟨b, l, hb, ha, hl, -, hres⟩ := h.exists_marked (h.disjoint_kernel hk) m
  rw [← Boot.fitsTable_congr (hb.start.trans hs.start.symm) (hb.size.trans hs.size.symm)
    (hb.total.trans hs.total.symm)] at hfit
  obtain ⟨hw, hfit⟩ := hfit
  refine ⟨fun idx hidx hP => ?_, hk⟩
  by_contra hover
  have hsize : (Boot.frameArraySize b).toNat = g.memTotalPage * sizeofFrame := by
    have := ha.total
    rw [Boot.frameArraySize, BitVec.toNat_ofNat, hb.total]
    simp only [buddyTotalPages, Boot.sizeofFrame, sizeofFrame] at *
    rw [hb.total] at this
    omega
  rw [← hsize, Globals.pageToAddr, ← hb.start] at hover
  obtain ⟨r, hr, hm⟩ := hfit l hl ⟨g.frameArray, Boot.frameArraySize b⟩
    (List.mem_append_right _ List.mem_cons_self) idx (hidx.trans_eq hb.total.symm) hover
  exact (hres idx hidx).2 ⟨hw, r, hr, hm⟩ hP

end Boots

/-! ## Two boots -/

/-- The kernel image of QEMU holds `free_area` at offset `0x40000` and `g_pools` at `0x40200`. -/
theorem qemuImage_data : bytesAt 0xffffffc080240000 176 ⊆ imageBytes Boot.qemuImage ∧
    bytesAt 0xffffffc080240200 192 ⊆ imageBytes Boot.qemuImage ∧
    Disjoint (bytesAt (0xffffffc080240000 : Addr) 176) (bytesAt 0xffffffc080240200 192) := by
  have himage : imageBytes Boot.qemuImage = bytesAt 0xffffffc080200000 0x80000 := rfl
  rw [himage, show (0xffffffc080240000 : Addr) = 0xffffffc080200000 + BitVec.ofNat 64 0x40000 by
    decide, show (0xffffffc080240200 : Addr) = 0xffffffc080200000 + BitVec.ofNat 64 0x40200 by
    decide]
  exact ⟨bytesAt_subset (by decide), bytesAt_subset (by decide),
    disjoint_bytesAt (by decide) (by decide) (by decide)⟩

/-- The globals without a device tree. -/
def defaultGlobals : Globals where
  frameArray := 0xffffffc081000000
  freeArea := 0xffffffc080240000
  gPools := 0xffffffc080240200
  mempoolStart := 0xffffffc081000000
  mempoolSize := 0x1000000
  memTotalPage := 4096
  buddyReady := true
  allocatorReady := true

def defaultTable : List Region := [⟨0xffffffc081000000, 0x28000⟩]

def defaultPool : Buddy :=
  buddySetRegion .qemu (Boot.bootState .qemu).buddy 0xffffffc081000000 0x1000000

theorem default_boots : Boots .qemu Boot.qemuImage none (Boot.bootState .qemu).buddy defaultGlobals
    defaultTable :=
  ⟨⟨defaultPool, rfl, by decide +kernel, by decide +kernel, by decide +kernel⟩, by decide, rfl, rfl,
    by decide, qemuImage_data.1, qemuImage_data.2.1, qemuImage_data.2.2⟩

/-- Without a device tree the pages of `frame_array` are `RESERVED`. -/
theorem default_framesReserved (m : Mem) : FramesReserved defaultGlobals Boot.qemuImage
    (markedMemory defaultGlobals defaultTable m) := by
  have hfit : Boot.FitsTable Boot.qemuImage none 0xffffffc081000000 defaultPool :=
    Boot.fitsTable_of_room (alignedPool_buddySetRegion _ _ _ _) (by decide +kernel) rfl
      (by decide +kernel) (by decide +kernel)
  have himage : imageBytes Boot.qemuImage = bytesAt 0xffffffc080200000 0x80000 := rfl
  refine default_boots.framesReserved
    ⟨by decide +kernel, by decide +kernel, by decide +kernel⟩ hfit ?_
  rw [himage,
    show defaultGlobals.frameArray = 0xffffffc080200000 + BitVec.ofNat 64 0xe00000 by decide,
    show (0xffffffc080200000 : Addr) = 0xffffffc080200000 + BitVec.ofNat 64 0 by decide,
    BitVec.add_assoc, ← BitVec.ofNat_add]
  exact disjoint_bytesAt (by decide) (by decide) (by decide)

/-- The device tree of `crowdedBlob` with other regions: the memory has 52 pages, 30 children
reserve 16 bytes each in the first page, and the last two the pages 2 to 24 and 26 to 50. -/
def crampedCell (i : ℕ) : BitVec 32 :=
  let k := (i - 30) / 8
  if i = 23 then 0x34000
  else if 30 ≤ i ∧ i < 286 ∧ (i - 30) % 8 = 5 then
    if k < 30 then BitVec.ofNat 32 (0x80000000 + 0x10 * k)
    else if k = 30 then 0x80002000 else 0x8001a000
  else if 30 ≤ i ∧ i < 286 ∧ (i - 30) % 8 = 6 then
    if k < 30 then 0x10 else if k = 30 then 0x17000 else 0x19000
  else Boot.crowdedCell i

def crampedBlob : Blob where
  base := 0xffffffc082200000
  size := 1160
  byte off := (crampedCell (off / 4) >>> (24 - off % 4 * 8)).setWidth 8

def crampedTable : List Region :=
  (List.range 30).map (fun k => ⟨BitVec.ofNat 64 (0xffffffc080000000 + 0x10 * k), 0x10⟩) ++
    [⟨0xffffffc080002000, 0x17000⟩, ⟨0xffffffc08001a000, 0x19000⟩]

def crampedPool : Buddy :=
  buddySetRegion .qemu (Boot.bootState .qemu).buddy 0xffffffc080000000 0x34000

def crampedGlobals : Globals where
  frameArray := 0xffffffc080001000
  freeArea := 0xffffffc080240000
  gPools := 0xffffffc080240200
  mempoolStart := 0xffffffc080000000
  mempoolSize := 0x34000
  memTotalPage := 52
  buddyReady := true
  allocatorReady := true

theorem cramped_fdtRegions : Boot.fdtRegions crampedBlob = some
    ((List.range 30).map (fun k => ⟨BitVec.ofNat 64 (0x80000000 + 0x10 * k), 0x10⟩) ++
      [⟨0x80002000, 0x17000⟩, ⟨0x8001a000, 0x19000⟩]) := by
  decide +kernel

theorem cramped_reserveAllMemory :
    Boot.reserveAllMemory crampedPool Boot.qemuImage (some crampedBlob) = some crampedTable := by
  have hd : Boot.fdtTotalsize crampedBlob = some 1160 := by decide +kernel
  have hi : Boot.initramfs crampedBlob = some none := by decide +kernel
  simp only [Boot.reserveAllMemory, Option.bind_eq_bind, hd, hi, Option.bind_some]
  rw [show (0 : ℤ) = ((0 : ℕ) : ℤ) from rfl,
    Boot.reserveReported_of_regions cramped_fdtRegions (by decide) (by decide)]
  decide +kernel

theorem cramped_startupAlloc : startupAlloc .qemu Boot.qemuImage (some crampedBlob)
    (Boot.bootState .qemu).buddy = some (0xffffffc080001000, crampedPool, crampedTable) := by
  have hp : Boot.poolRegion .qemu (Boot.bootState .qemu).buddy (some crampedBlob) =
      some ⟨0x80000000, 0x34000⟩ := by decide +kernel
  have hb : Boot.bumpLoop crampedPool crampedTable (crampedTable.length + 2)
      crampedPool.mempoolStart = some (some 0xffffffc080001000) := by decide +kernel
  have ht : Boot.memoryReserve crampedPool crampedTable
      ⟨0xffffffc080001000, Boot.frameArraySize crampedPool⟩ = crampedTable := by decide +kernel
  have hs : buddySetRegion .qemu (Boot.bootState .qemu).buddy (Boot.toVirtual 0x80000000) 0x34000 =
      crampedPool := rfl
  simp only [startupAlloc, Option.bind_eq_bind, hp, hs, cramped_reserveAllMemory, hb, ht,
    Option.bind_some]
  rfl

theorem cramped_boots : Boots .qemu Boot.qemuImage (some crampedBlob) (Boot.bootState .qemu).buddy
    crampedGlobals crampedTable :=
  ⟨⟨_, cramped_startupAlloc, by decide +kernel, by decide +kernel, by decide +kernel⟩,
    by decide, rfl, rfl, by decide, qemuImage_data.1, qemuImage_data.2.1, qemuImage_data.2.2⟩

def crampedMemory : Mem := markedMemory crampedGlobals crampedTable ⟨fun _ => 0⟩

end BareMetalOS.Heap
