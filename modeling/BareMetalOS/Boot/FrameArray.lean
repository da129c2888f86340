import BareMetalOS.Boot.Reservation
import BareMetalOS.Foundations.FirstFit
import Mathlib.Order.CompletePartialOrder

/-!
# The place of the frame array

`startup_alloc` looks for a place of the frame array between the regions that `memory_reserve` has
recorded so far. The search is `firstFit` on their ranges (`toNat_bumpLoop`): it ends after at most
one round more than there are regions, and returns the first page boundary of the pool from which
the frame array lies in the pool and meets none of the regions (`bumpLoop_least`).
-/

namespace BareMetalOS.Boot

open Memory

variable {s : Buddy} {rgns : List Region}

/-! ## The recorded regions -/

/-- The tables that `memory_reserve` fills, from regions that do not wrap. -/
inductive Recorded (s : Buddy) : List Region → Prop
  | nil : Recorded s []
  | reserve {rgns : List Region} (r : Region) : Recorded s rgns →
      r.start.toNat + r.size.toNat < 2 ^ 64 → Recorded s (memoryReserve s rgns r)

/-- The range of a region. -/
def Region.range (r : Region) : ℕ × ℕ := (r.start.toNat, r.start.toNat + r.size.toNat)

/-- What `memory_reserve` makes of a region: a range inside the pool that is not empty. -/
theorem range_clip (ha : AlignedPool s) (hw : NoWrap s) {r : Region}
    (hr : r.start.toNat + r.size.toNat < 2 ^ 64) (hm : MeetsPool s r) :
    s.mempoolStart.toNat ≤ (clip s r).start.toNat ∧
      (clip s r).start.toNat + (clip s r).size.toNat ≤
        s.mempoolStart.toNat + s.mempoolSize.toNat ∧ 0 < (clip s r).size.toNat := by
  obtain ⟨hstart, hstop, hne⟩ := clip_spec ha hw hm
  obtain ⟨-, h₁, h₂⟩ := hm
  have hsum : (r.start + r.size).toNat = r.start.toNat + r.size.toNat := by
    rw [BitVec.toNat_add]
    exact Nat.mod_eq_of_lt hr
  have hend := toNat_poolEnd hw
  have hpos : 0 < (clip s r).size.toNat := by
    rw [Nat.pos_iff_ne_zero]
    intro h
    exact hne (BitVec.eq_of_toNat_eq h)
  rw [BitVec.lt_def, hsum] at h₁
  rw [BitVec.lt_def, hend] at h₂
  rw [hsum, BitVec.toNat_add] at hstop
  have hlt := (clip s r).size.isLt
  have hpool : 0 < s.mempoolSize.toNat := by
    rw [ha.size]
    exact Nat.mul_pos ha.pos (by decide)
  omega

/-- Every recorded region is a nonempty range of the pool. -/
theorem Recorded.range (h : Recorded s rgns) (ha : AlignedPool s) (hw : NoWrap s) :
    ∀ r ∈ rgns, s.mempoolStart.toNat ≤ r.start.toNat ∧
      r.start.toNat + r.size.toNat ≤ s.mempoolStart.toNat + s.mempoolSize.toNat ∧
      0 < r.size.toNat := by
  induction h with
  | nil => simp
  | reserve r _ hr ih =>
    rw [memoryReserve_eq]
    split_ifs with hm
    · intro r' hr'
      rw [List.mem_append, List.mem_singleton] at hr'
      rcases hr' with hr' | rfl
      · exact ih r' hr'
      · exact range_clip ha hw hr hm.1
    · exact ih

/-! ## The search -/

/-- The next page boundary. -/
def pageUp (x : ℕ) : ℕ := (x + 4095) / 4096 * 4096

theorem pageUp_isLeast (a : ℕ) : IsLeast {x | x % 4096 = 0 ∧ a ≤ x} (pageUp a) := by
  unfold pageUp
  constructor
  · simp only [Set.mem_ofPred_eq]
    omega
  · rintro x ⟨hx, hax⟩
    omega

/-- The frame array ends inside the pool when it starts at `x`. -/
def hasRoom (s : Buddy) (x : ℕ) : Bool :=
  decide (x + (frameArraySize s).toNat ≤ s.mempoolStart.toNat + s.mempoolSize.toNat)

/-- No address of the search wraps: it goes at most to the end of the pool. -/
def SearchNoWrap (s : Buddy) : Prop :=
  s.mempoolStart.toNat + s.mempoolSize.toNat + (frameArraySize s).toNat < 2 ^ 64

instance (s : Buddy) : Decidable (SearchNoWrap s) := inferInstanceAs (Decidable (_ < _))

theorem SearchNoWrap.noWrap (h : SearchNoWrap s) : NoWrap s := by
  simp only [SearchNoWrap, NoWrap] at *
  omega

theorem toNat_alignUpUl_eq_pageUp {a : Addr} (h : pageUp a.toNat < 2 ^ 64) :
    (alignUpUl a 4096).toNat = pageUp a.toNat := by
  rw [toNat_alignUpUl_page, BitVec.toNat_add]
  unfold pageUp at *
  change (a.toNat + 4095) % 2 ^ 64 - (a.toNat + 4095) % 2 ^ 64 % 4096 = _
  omega

/-- The search of `startup_alloc` is a first fit on the ranges of the table. -/
theorem toNat_bumpLoop (ha : AlignedPool s) (hw : SearchNoWrap s) (hr : Recorded s rgns) {n : ℕ}
    {a : Addr} (hle : a.toNat ≤ s.mempoolStart.toNat + s.mempoolSize.toNat) :
    (bumpLoop s rgns n a).map (Option.map BitVec.toNat) =
      firstFit pageUp (hasRoom s) (frameArraySize s).toNat (rgns.map Region.range) n a.toNat := by
  induction n generalizing a with
  | zero => rfl
  | succ n ih =>
    have hrange := hr.range ha hw.noWrap
    have hend := toNat_poolEnd hw.noWrap
    unfold SearchNoWrap at hw
    -- the end of the pool is a page boundary, so rounding up does not leave the pool
    have hup : pageUp a.toNat ≤ s.mempoolStart.toNat + s.mempoolSize.toNat := by
      have h₁ := ha.start
      have h₂ := ha.size
      unfold pageUp pageSize at *
      omega
    have halign := toNat_alignUpUl_eq_pageUp (a := a) (by omega)
    have hstop : (alignUpUl a 4096 + frameArraySize s).toNat =
        pageUp a.toNat + (frameArraySize s).toNat := by
      rw [BitVec.toNat_add, halign]
      exact Nat.mod_eq_of_lt (by omega)
    have hsum : ∀ r ∈ rgns, (r.start + r.size).toNat = r.start.toNat + r.size.toNat := by
      intro r hr
      have := hrange r hr
      rw [BitVec.toNat_add]
      exact Nat.mod_eq_of_lt (by omega)
    have hfind : ((rgns.map Region.range).find? fun r => pageUp a.toNat < r.2 ∧
          r.1 < pageUp a.toNat + (frameArraySize s).toNat) =
        (rgns.find? fun r => alignUpUl a 4096 < r.start + r.size ∧
          r.start < alignUpUl a 4096 + frameArraySize s).map Region.range := by
      rw [List.find?_map]
      congr 1
      apply List.find?_congr
      intro r hr
      apply decide_eq_decide.2
      rw [BitVec.lt_def, BitVec.lt_def, hsum r hr, hstop, halign]
      rfl
    rw [bumpLoop, firstFit, hfind]
    simp only [hasRoom, decide_eq_true_eq]
    by_cases hroom : pageUp a.toNat + (frameArraySize s).toNat ≤
        s.mempoolStart.toNat + s.mempoolSize.toNat
    · rw [if_pos hroom, if_neg (by rw [BitVec.lt_def, hstop, hend]; omega)]
      rcases hf : rgns.find? _ with _ | r
      · simp only [Option.map_none, Option.map_some, halign]
      · have hmem := List.mem_of_find?_eq_some hf
        simp only [Option.map_some]
        rw [ih (by rw [hsum r hmem]; exact (hrange r hmem).2.1), hsum r hmem]
        rfl
    · rw [if_neg hroom, if_pos (by rw [BitVec.lt_def, hstop, hend]; omega)]
      rfl

/-! ## The place it returns -/

/-- The places of the frame array: page boundaries of the pool from which the array lies in the pool
and meets no region of the table. -/
def framePlaces (s : Buddy) (rgns : List Region) : Set ℕ :=
  {x | x % pageSize = 0 ∧ s.mempoolStart.toNat ≤ x ∧
    x + (frameArraySize s).toNat ≤ s.mempoolStart.toNat + s.mempoolSize.toNat ∧
    ∀ r ∈ rgns, Disjoint (Set.Ico x (x + (frameArraySize s).toNat))
      (Set.Ico r.start.toNat (r.start.toNat + r.size.toNat))}

theorem framePlaces_eq (ha : AlignedPool s) (hw : NoWrap s) (hr : Recorded s rgns) :
    framePlaces s rgns = places (· % 4096 = 0) (hasRoom s) (frameArraySize s).toNat
      (rgns.map Region.range) s.mempoolStart.toNat := by
  have hpos := frameArraySize_pos ha
  ext x
  simp only [framePlaces, places, hasRoom, Clear, Set.mem_ofPred_eq, decide_eq_true_eq,
    List.forall_mem_map, Region.range, pageSize]
  have hdisj : ∀ r ∈ rgns, (Disjoint (Set.Ico x (x + (frameArraySize s).toNat))
      (Set.Ico r.start.toNat (r.start.toNat + r.size.toNat)) ↔
        r.start.toNat + r.size.toNat ≤ x ∨ x + (frameArraySize s).toNat ≤ r.start.toNat) := by
    intro r hmem
    have := hr.range ha hw r hmem
    rw [Set.Ico_disjoint_Ico]
    omega
  rw [forall₂_congr hdisj]

/-- **The place of the frame array.** The search ends, it returns the least place in the pool, and
it fails when and only when there is none. -/
theorem bumpLoop_least (ha : AlignedPool s) (hw : SearchNoWrap s) (hr : Recorded s rgns) :
    ∃ place, (∀ n, rgns.length < n → bumpLoop s rgns n s.mempoolStart = some place) ∧
      (∀ a : Addr, place = some a ↔ IsLeast (framePlaces s rgns) a.toNat) ∧
      (place = none ↔ framePlaces s rgns = ∅) := by
  obtain ⟨r, hrun, hfirst⟩ := @firstFit_spec _ _ (hasRoom s) (frameArraySize s).toNat
    (rgns.map Region.range) pageUp_isLeast (fun x y hxy hy => by
      simp only [hasRoom, decide_eq_true_eq] at *
      omega) s.mempoolStart.toNat
  rw [← framePlaces_eq ha hw.noWrap hr] at hfirst
  have hloop : ∀ n, rgns.length < n →
      (bumpLoop s rgns n s.mempoolStart).map (Option.map BitVec.toNat) = some r := by
    intro n hn
    rw [toNat_bumpLoop ha hw hr (by omega)]
    apply hrun
    calc _ ≤ (rgns.map Region.range).length := List.countP_le_length
      _ < n := by rwa [List.length_map]
  have hinj : Function.Injective (Option.map (BitVec.toNat : Addr → ℕ)) :=
    Option.map_injective fun _ _ => BitVec.eq_of_toNat_eq
  obtain ⟨place, -, hplace⟩ := Option.map_eq_some_iff.1 (hloop _ (Nat.lt_succ_self _))
  refine ⟨place, ?_, ?_, ?_⟩
  · intro n hn
    obtain ⟨place', h, h'⟩ := Option.map_eq_some_iff.1 (hloop n hn)
    rw [h, hinj (h'.trans hplace.symm)]
  · intro a
    rw [← hfirst.eq_some_iff, ← hplace, ← hinj.eq_iff, Option.map_some]
  · rw [← hfirst.eq_none_iff, ← hplace, Option.map_eq_none_iff]

/-- A pool whose first pages are covered by two regions that overlap, recorded out of order. -/
theorem bumpLoop_least_twoRegions : ∃ place, bumpLoop crowdedPool
      (memoryReserve crowdedPool (memoryReserve crowdedPool [] ⟨0xffffffc080001800, 0x1000⟩)
        ⟨0xffffffc080000000, 0x2000⟩) 3 crowdedPool.mempoolStart = some place ∧
      place = some 0xffffffc080003000 := by
  obtain ⟨place, hrun, -, -⟩ := bumpLoop_least (s := crowdedPool)
    (alignedPool_buddySetRegion .qemu _ _ _) (by decide)
    (.reserve ⟨0xffffffc080000000, 0x2000⟩
      (.reserve ⟨0xffffffc080001800, 0x1000⟩ .nil (by decide)) (by decide))
  have h := hrun 3 (by decide)
  refine ⟨place, h, ?_⟩
  have hval : bumpLoop crowdedPool
      (memoryReserve crowdedPool (memoryReserve crowdedPool [] ⟨0xffffffc080001800, 0x1000⟩)
        ⟨0xffffffc080000000, 0x2000⟩) 3 crowdedPool.mempoolStart =
      some (some 0xffffffc080003000) := by
    decide +kernel
  exact Option.some.inj (h.symm.trans hval)

end BareMetalOS.Boot
