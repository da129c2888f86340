import BareMetalOS.Foundations.Tiling
import BareMetalOS.Memory.Buddy

/-!
# The invariant of the buddy system

Between two calls the pages of the pool are cut into blocks (`IsBlock`): a reserved page, a free
block, an allocated block, or a page given to a chunk pool. The functions of `lib/buddy.c` open
one block, rewrite it, and put the pieces back, so their loops are described by one statement,
`Hole s lo hi`: everything outside the pages `[lo, hi)` is as the invariant wants it. The
invariant `Inv` is the case of an empty hole.

* `Hole.removeFreeBlock` and `Hole.ofAlloc` open a hole at a block;
* `Hole.addUpper`, `Hole.addLower` and `Hole.markAlloc` give pages of the hole back;
* `Hole.merge` swallows the buddy of the hole.
-/

namespace BareMetalOS.Memory

/-! ## Marked blocks -/

/-- The pages `[a, a + 2 ^ k)` look as `mark_block` leaves them. -/
structure Marked (fr : ℕ → Frame) (hs ts : PageState) (a k : ℕ) : Prop where
  head : (fr a).state = hs
  order : (fr a).order = k
  tail : ∀ i, a < i → i < a + 2 ^ k → (fr i).state = ts

/-- A block of the pool: its first page and its number of pages. -/
inductive IsBlock (fr : ℕ → Frame) : ℕ → ℕ → Prop
  | reserved {a : ℕ} (h : (fr a).state = .reserved) : IsBlock fr a 1
  | free {a k : ℕ} (hk : k ≤ buddyMaxOrder) (ha : 2 ^ k ∣ a)
      (h : Marked fr .freeHead .freeTail a k) : IsBlock fr a (2 ^ k)
  | alloc {a k : ℕ} (hk : k ≤ buddyMaxOrder) (ha : 2 ^ k ∣ a)
      (h : Marked fr .allocPageHead .allocPageTail a k) : IsBlock fr a (2 ^ k)
  | chunk {a : ℕ} (h : (fr a).state = .allocChunkPool) (h0 : (fr a).order = 0) : IsBlock fr a 1

/-- Two frame arrays agree at a page, as far as blocks are concerned. -/
def SameBlock (fr fr' : ℕ → Frame) (j : ℕ) : Prop :=
  (fr' j).state = (fr j).state ∧ (fr' j).order = (fr j).order

variable {fr fr' : ℕ → Frame} {hs ts : PageState} {a b c i j k n p lo hi mid : ℕ}

theorem Marked.congr (h : Marked fr hs ts a k)
    (hfr : ∀ j, a ≤ j → j < a + 2 ^ k → SameBlock fr fr' j) : Marked fr' hs ts a k := by
  have ha := hfr a le_rfl (by have := Nat.two_pow_pos k; omega)
  refine ⟨ha.1.trans h.head, ha.2.trans h.order, fun i hi hik => ?_⟩
  exact (hfr i hi.le hik).1.trans (h.tail i hi hik)

/-- Two blocks that share a page have the same head. -/
theorem Marked.eq_of_mem {hs' ts' : PageState} {a' k' : ℕ} (h : Marked fr hs ts a k)
    (h' : Marked fr hs' ts' a' k') (ha : a ≤ p) (hp : p < a + 2 ^ k)
    (ha' : a' ≤ p) (hp' : p < a' + 2 ^ k') (hne : hs ≠ ts') (hne' : hs' ≠ ts) : a = a' := by
  rcases Nat.lt_trichotomy a a' with hlt | heq | hlt
  · exact absurd (h'.head.symm.trans (h.tail a' hlt (by omega))) hne'
  · exact heq
  · exact absurd (h.head.symm.trans (h'.tail a hlt (by omega))) hne

theorem IsBlock.congr (h : IsBlock fr a n) (hfr : ∀ j, a ≤ j → j < a + n → SameBlock fr fr' j) :
    IsBlock fr' a n := by
  cases h with
  | reserved h => exact .reserved ((hfr a le_rfl (by omega)).1.trans h)
  | free hk ha h => exact .free hk ha (h.congr hfr)
  | alloc hk ha h => exact .alloc hk ha (h.congr hfr)
  | chunk h h0 =>
    have := hfr a le_rfl (by omega)
    exact .chunk (this.1.trans h) (this.2.trans h0)

/-- The pages of a block after its first one are tails. -/
theorem IsBlock.interior (h : IsBlock fr a n) (hi : a < i) (hin : i < a + n) :
    (fr i).state = .freeTail ∨ (fr i).state = .allocPageTail := by
  cases h with
  | reserved => omega
  | free _ _ h => exact .inl (h.tail i hi hin)
  | alloc _ _ h => exact .inr (h.tail i hi hin)
  | chunk => omega

/-- A page that is no tail is the first page of its block. -/
theorem IsBlock.eq_of_head (h : IsBlock fr a n) (ha : a ≤ i) (hin : i < a + n)
    (h₁ : (fr i).state ≠ .freeTail) (h₂ : (fr i).state ≠ .allocPageTail) : a = i := by
  by_contra hne
  rcases h.interior (lt_of_le_of_ne ha hne) hin with h | h
  · exact h₁ h
  · exact h₂ h

theorem IsBlock.of_freeHead (h : IsBlock fr a n) (ha : (fr a).state = .freeHead) :
    ∃ k, n = 2 ^ k ∧ k ≤ buddyMaxOrder ∧ 2 ^ k ∣ a ∧ Marked fr .freeHead .freeTail a k := by
  cases h with
  | reserved h => simp [ha] at h
  | free hk hd h => exact ⟨_, rfl, hk, hd, h⟩
  | alloc _ _ h => exact absurd h.head (by simp [ha])
  | chunk h => simp [ha] at h

theorem IsBlock.of_allocPageHead (h : IsBlock fr a n) (ha : (fr a).state = .allocPageHead) :
    ∃ k, n = 2 ^ k ∧ k ≤ buddyMaxOrder ∧ 2 ^ k ∣ a ∧
      Marked fr .allocPageHead .allocPageTail a k := by
  cases h with
  | reserved h => simp [ha] at h
  | free _ _ h => exact absurd h.head (by simp [ha])
  | alloc hk hd h => exact ⟨_, rfl, hk, hd, h⟩
  | chunk h => simp [ha] at h

theorem markBlock_apply (fr : ℕ → Frame) (idx order : ℕ) (hs ts : PageState) (j : ℕ) :
    markBlock fr idx order hs ts j =
      if j = idx then { fr idx with state := hs, order := order }
      else if idx < j ∧ j < idx + 2 ^ order then { fr j with state := ts, order := -1 }
      else fr j := by
  have hpos := Nat.two_pow_pos order
  rw [markBlock, updRange_apply]
  by_cases hj : j = idx
  · subst hj
    rw [if_neg (by omega), if_pos rfl, Function.update_self]
  · rw [if_neg hj, Function.update_of_ne hj]
    by_cases h : idx < j ∧ j < idx + 2 ^ order
    · rw [if_pos h, if_pos (by omega)]
    · rw [if_neg h, if_neg (by omega)]

theorem markBlock_marked (fr : ℕ → Frame) (idx order : ℕ) (hs ts : PageState) :
    Marked (markBlock fr idx order hs ts) hs ts idx order := by
  refine ⟨by simp [markBlock_apply], by simp [markBlock_apply], fun i hi hik => ?_⟩
  rw [markBlock_apply, if_neg (by omega), if_pos ⟨hi, hik⟩]

theorem markBlock_outside (hj : j < a ∨ a + 2 ^ k ≤ j) : markBlock fr a k hs ts j = fr j := by
  have := Nat.two_pow_pos k
  rw [markBlock_apply, if_neg (by omega), if_neg (by omega)]

/-! ## A hole in the invariant -/

/-- The page `j` of the pool is the head of a free block of order `k`. -/
def FreeHead (s : Buddy) (j k : ℕ) : Prop :=
  j < s.memTotalPage ∧ (s.frameArray j).state = .freeHead ∧ (s.frameArray j).order = k

/-- Everything outside the pages `[lo, hi)` is as it should be: the pages are cut into blocks,
the free lists hold the free heads, each once, and no free block has a free buddy of its own
order. -/
structure Hole (s : Buddy) (lo hi : ℕ) : Prop where
  lo_le_hi : lo ≤ hi
  left : Tiled (IsBlock s.frameArray) 0 lo
  right : Tiled (IsBlock s.frameArray) hi s.memTotalPage
  mem_iff : ∀ k j, j ∈ s.freeArea k ↔ (j < lo ∨ hi ≤ j) ∧ FreeHead s j k
  nodup : ∀ k, (s.freeArea k).Nodup
  coalesced : ∀ k < buddyMaxOrder, ∀ j ∈ s.freeArea k, j ^^^ 2 ^ k ∉ s.freeArea k

/-- The invariant of the buddy system. -/
def Inv (s : Buddy) : Prop := Hole s s.memTotalPage s.memTotalPage

variable {s : Buddy}

theorem Hole.close (h : Hole s p p) : Inv s where
  lo_le_hi := le_rfl
  left := h.left.trans h.right
  right := .nil _
  mem_iff k j := by
    rw [h.mem_iff]
    exact and_congr_left fun _ => by omega
  nodup := h.nodup
  coalesced := h.coalesced

/-- Rewriting the pages of the hole. -/
theorem Hole.frames (h : Hole s lo hi)
    (hfr : ∀ j, j < lo ∨ hi ≤ j → SameBlock s.frameArray fr' j) :
    Hole { s with frameArray := fr' } lo hi where
  lo_le_hi := h.lo_le_hi
  left := h.left.congr fun c n _ hn hB => hB.congr fun j _ hj => hfr j (by omega)
  right := h.right.congr fun c n hc _ hB => hB.congr fun j hj _ => hfr j (by omega)
  mem_iff k j := by
    rw [h.mem_iff]
    refine and_congr_right fun hj => ?_
    obtain ⟨h₁, h₂⟩ := hfr j hj
    simp only [FreeHead, h₁, h₂]
  nodup := h.nodup
  coalesced := h.coalesced

/-! ## Giving pages of the hole back -/

theorem freeHead_addFreeBlock (ha : a < s.memTotalPage) :
    FreeHead (addFreeBlock s a k) j n ↔
      (j = a ∧ n = k) ∨ ((j < a ∨ a + 2 ^ k ≤ j) ∧ FreeHead s j n) := by
  have hpos := Nat.two_pow_pos k
  simp only [FreeHead, addFreeBlock, markBlock_apply]
  by_cases hj : j = a
  · subst hj
    simp only [if_true, ha, true_and, eq_comm (a := n)]
    constructor
    · intro h
      exact .inl (by exact_mod_cast h)
    · rintro (h | h)
      · exact_mod_cast h
      · omega
  · rw [if_neg hj]
    by_cases h : a < j ∧ j < a + 2 ^ k
    · rw [if_pos h]
      constructor
      · rintro ⟨-, h, -⟩
        cases h
      · rintro (⟨h, -⟩ | ⟨h', -⟩) <;> omega
    · rw [if_neg h]
      constructor
      · exact fun h' => .inr ⟨by omega, h'⟩
      · rintro (⟨h, -⟩ | ⟨-, h⟩)
        · omega
        · exact h

theorem mem_freeArea_addFreeBlock :
    j ∈ (addFreeBlock s a k).freeArea n ↔ (j = a ∧ n = k) ∨ j ∈ s.freeArea n := by
  simp only [addFreeBlock, Function.update_apply]
  by_cases hn : n = k
  · simp [hn]
  · simp [hn]

/-- A block of the hole becomes free. Its pages are `[a, a + 2 ^ k)`, and the hole shrinks to
`[lo', hi')`. -/
theorem Hole.add {lo' hi' : ℕ} (h : Hole s lo hi) (ha : lo ≤ a) (hk : a + 2 ^ k ≤ hi)
    (hout : ∀ j, (j < lo' ∨ hi' ≤ j) ↔ (j < lo ∨ hi ≤ j) ∨ (a ≤ j ∧ j < a + 2 ^ k))
    (hbuddy : k < buddyMaxOrder → a ^^^ 2 ^ k ∉ s.freeArea k) (hle : lo' ≤ hi')
    (hleft : Tiled (IsBlock (addFreeBlock s a k).frameArray) 0 lo')
    (hright : Tiled (IsBlock (addFreeBlock s a k).frameArray) hi' s.memTotalPage) :
    Hole (addFreeBlock s a k) lo' hi' := by
  have hpos := Nat.two_pow_pos k
  have hhi := h.right.le
  have hnot : a ∉ s.freeArea k := fun hmem => by
    have := ((h.mem_iff k a).1 hmem).1
    omega
  refine ⟨hle, hleft, hright, fun n j => ?_, fun n => ?_, fun n hn j hj => ?_⟩
  · rw [mem_freeArea_addFreeBlock, freeHead_addFreeBlock (by omega), h.mem_iff, hout]
    constructor
    · rintro (⟨rfl, rfl⟩ | ⟨hj, hfree⟩)
      · exact ⟨.inr ⟨le_rfl, by omega⟩, .inl ⟨rfl, rfl⟩⟩
      · exact ⟨.inl hj, .inr ⟨by omega, hfree⟩⟩
    · rintro ⟨hj, ⟨rfl, rfl⟩ | ⟨hj', hfree⟩⟩
      · exact .inl ⟨rfl, rfl⟩
      · exact .inr ⟨by omega, hfree⟩
  · simp only [addFreeBlock, Function.update_apply]
    split_ifs with hn
    · exact List.nodup_cons.2 ⟨hnot, h.nodup k⟩
    · exact h.nodup n
  · rw [mem_freeArea_addFreeBlock] at hj ⊢
    rcases hj with ⟨rfl, rfl⟩ | hj
    · rintro (⟨hx, -⟩ | hx)
      · exact xor_two_pow_ne _ _ hx
      · exact hbuddy hn hx
    · rintro (⟨hx, rfl⟩ | hx)
      · refine hbuddy hn ?_
        rw [← hx, Nat.xor_assoc, Nat.xor_self, Nat.xor_zero]
        exact hj
      · exact h.coalesced n hn j hj hx

theorem addFreeBlock_isBlock (hk : k ≤ buddyMaxOrder) (ha : 2 ^ k ∣ a) :
    IsBlock (addFreeBlock s a k).frameArray a (2 ^ k) :=
  .free hk ha (markBlock_marked _ _ _ _ _)

theorem sameBlock_markBlock (hj : j < a ∨ a + 2 ^ k ≤ j) :
    SameBlock fr (markBlock fr a k hs ts) j := by
  rw [SameBlock, markBlock_outside hj]
  exact ⟨rfl, rfl⟩

/-- The upper part of the hole becomes a free block. -/
theorem Hole.addUpper (h : Hole s lo (mid + 2 ^ k)) (hlo : lo ≤ mid) (hk : k ≤ buddyMaxOrder)
    (hd : 2 ^ k ∣ mid) (hbuddy : k < buddyMaxOrder → mid ^^^ 2 ^ k ∉ s.freeArea k) :
    Hole (addFreeBlock s mid k) lo mid := by
  refine h.add hlo le_rfl (fun j => by omega) hbuddy hlo ?_ ?_
  · exact h.left.congr fun c n _ hn hB => hB.congr fun j _ hj =>
      sameBlock_markBlock (by omega)
  · refine .cons (Nat.two_pow_pos k) (addFreeBlock_isBlock hk hd) ?_
    exact h.right.congr fun c n hc _ hB => hB.congr fun j hj _ =>
      sameBlock_markBlock (by omega)

/-- The lower part of the hole becomes a free block. -/
theorem Hole.addLower (h : Hole s lo hi) (hhi : lo + 2 ^ k ≤ hi) (hk : k ≤ buddyMaxOrder)
    (hd : 2 ^ k ∣ lo) (hbuddy : k < buddyMaxOrder → lo ^^^ 2 ^ k ∉ s.freeArea k) :
    Hole (addFreeBlock s lo k) (lo + 2 ^ k) hi := by
  refine h.add le_rfl hhi (fun j => by omega) hbuddy hhi ?_ ?_
  · refine Tiled.trans ?_ (.single (Nat.two_pow_pos k) (addFreeBlock_isBlock hk hd))
    exact h.left.congr fun c n _ hn hB => hB.congr fun j _ hj =>
      sameBlock_markBlock (by omega)
  · exact h.right.congr fun c n hc _ hB => hB.congr fun j hj _ =>
      sameBlock_markBlock (by omega)

/-- The whole hole becomes an allocated block. -/
theorem Hole.markAlloc (h : Hole s lo (lo + 2 ^ k)) (hk : k ≤ buddyMaxOrder) (hd : 2 ^ k ∣ lo)
    (hfr : ∀ j, SameBlock (markBlock s.frameArray lo k .allocPageHead .allocPageTail) fr' j) :
    Inv { s with frameArray := fr' } := by
  have hM : Marked fr' .allocPageHead .allocPageTail lo k :=
    (markBlock_marked _ _ _ _ _).congr fun j _ _ => hfr j
  have hout : ∀ j, j < lo ∨ lo + 2 ^ k ≤ j → SameBlock s.frameArray fr' j := fun j hj => by
    obtain ⟨h₁, h₂⟩ := hfr j
    rw [markBlock_outside hj] at h₁ h₂
    exact ⟨h₁, h₂⟩
  have h' := h.frames hout
  have hpos := Nat.two_pow_pos k
  refine Hole.close (p := lo + 2 ^ k)
    ⟨le_rfl, h'.left.trans (.single hpos (.alloc hk hd hM)), h'.right, fun n j => ?_, h.nodup,
      h.coalesced⟩
  rw [h'.mem_iff]
  refine and_congr_left fun hfree => ?_
  -- no page of the block is a free head
  by_cases hj : lo ≤ j ∧ j < lo + 2 ^ k
  · exfalso
    have hst : (fr' j).state = .freeHead := hfree.2.1
    rcases eq_or_lt_of_le hj.1 with rfl | hlt
    · rw [hM.head] at hst
      cases hst
    · rw [hM.tail j hlt hj.2] at hst
      cases hst
  · omega

/-! ## Opening a hole -/

theorem freeHead_removeFreeBlock :
    FreeHead (removeFreeBlock s b) j n ↔ j ≠ b ∧ FreeHead s j n := by
  simp only [FreeHead, removeFreeBlock, Function.update_apply]
  by_cases hj : j = b <;> simp [hj]

/-- A free block leaves its list, and its pages join the hole. -/
theorem Hole.remove {lo' hi' : ℕ} (h : Hole s lo hi) (hb : b ∈ s.freeArea k)
    (hM : Marked s.frameArray .freeHead .freeTail b k)
    (hout : ∀ j, (j < lo' ∨ hi' ≤ j) ↔ (j < lo ∨ hi ≤ j) ∧ ¬ (b ≤ j ∧ j < b + 2 ^ k))
    (hle : lo' ≤ hi') (hleft : Tiled (IsBlock s.frameArray) 0 lo')
    (hright : Tiled (IsBlock s.frameArray) hi' s.memTotalPage) :
    Hole (removeFreeBlock s b) lo' hi' := by
  have hpos := Nat.two_pow_pos k
  have hsame : ∀ j, j < lo' ∨ hi' ≤ j →
      SameBlock s.frameArray (removeFreeBlock s b).frameArray j := by
    intro j hj
    have hne : j ≠ b := by
      rintro rfl
      exact ((hout j).1 hj).2 ⟨le_rfl, by omega⟩
    simp only [SameBlock, removeFreeBlock, Function.update_of_ne hne, and_self]
  have hmem : ∀ n j, j ∈ (removeFreeBlock s b).freeArea n ↔ j ≠ b ∧ j ∈ s.freeArea n :=
    fun n j => (h.nodup n).mem_erase_iff
  refine ⟨hle, ?_, ?_, fun n j => ?_, fun n => (h.nodup n).erase b, fun n hn j hj hx => ?_⟩
  · exact hleft.congr fun c n _ hn hB => hB.congr fun j _ hj => hsame j (by omega)
  · exact hright.congr fun c n hc _ hB => hB.congr fun j hj _ => hsame j (by omega)
  · rw [hmem, freeHead_removeFreeBlock, h.mem_iff, hout]
    constructor
    · rintro ⟨hne, hj, hfree⟩
      refine ⟨⟨hj, fun hin => ?_⟩, hne, hfree⟩
      have := hM.tail j (lt_of_le_of_ne hin.1 (Ne.symm hne)) hin.2
      simp [hfree.2.1] at this
    · rintro ⟨⟨hj, -⟩, hne, hfree⟩
      exact ⟨hne, hj, hfree⟩
  · rw [hmem] at hj hx
    exact h.coalesced n hn j hj.2 hx.2

/-- The block of a free head, with the tilings on its two sides. -/
theorem tiled_at_freeHead {t : ℕ} (h : Tiled (IsBlock fr) a t) (hp : a ≤ p) (hpt : p < t)
    (hs : (fr p).state = .freeHead) (ho : (fr p).order = k) :
    k ≤ buddyMaxOrder ∧ 2 ^ k ∣ p ∧ Marked fr .freeHead .freeTail p k ∧
      Tiled (IsBlock fr) a p ∧ Tiled (IsBlock fr) (p + 2 ^ k) t := by
  obtain ⟨c, n, hB, hcp, hpn, h₁, h₂⟩ := h.split hp hpt
  obtain rfl := hB.eq_of_head hcp hpn (by simp [hs]) (by simp [hs])
  obtain ⟨k', rfl, hk, hd, hM⟩ := hB.of_freeHead hs
  obtain rfl : k' = k := by
    have := hM.order.symm.trans ho
    exact_mod_cast this
  exact ⟨hk, hd, hM, h₁, h₂⟩

/-- The block of an allocated head, with the tilings on its two sides. -/
theorem tiled_at_allocPageHead {t : ℕ} (h : Tiled (IsBlock fr) a t) (hp : a ≤ p) (hpt : p < t)
    (hs : (fr p).state = .allocPageHead) :
    ∃ k, k ≤ buddyMaxOrder ∧ 2 ^ k ∣ p ∧ Marked fr .allocPageHead .allocPageTail p k ∧
      Tiled (IsBlock fr) a p ∧ Tiled (IsBlock fr) (p + 2 ^ k) t := by
  obtain ⟨c, n, hB, hcp, hpn, h₁, h₂⟩ := h.split hp hpt
  obtain rfl := hB.eq_of_head hcp hpn (by simp [hs]) (by simp [hs])
  obtain ⟨k, rfl, hk, hd, hM⟩ := hB.of_allocPageHead hs
  exact ⟨k, hk, hd, hM, h₁, h₂⟩

/-- Taking a free block off its list opens a hole at its pages. -/
theorem Hole.removeFreeBlock (h : Inv s) (hb : b ∈ s.freeArea k) :
    k ≤ buddyMaxOrder ∧ 2 ^ k ∣ b ∧ b < s.memTotalPage ∧
      Hole (removeFreeBlock s b) b (b + 2 ^ k) := by
  obtain ⟨-, hlt, hst, ho⟩ := (h.mem_iff k b).1 hb
  obtain ⟨hk, hd, hM, h₁, h₂⟩ := tiled_at_freeHead h.left (Nat.zero_le b) hlt hst ho
  exact ⟨hk, hd, hlt, h.remove hb hM (fun j => by omega) (by omega) h₁ h₂⟩

/-- An allocated block is a hole. -/
theorem Hole.ofAlloc (h : Inv s) (hlt : p < s.memTotalPage)
    (hst : (s.frameArray p).state = .allocPageHead) :
    ∃ k : ℕ, (s.frameArray p).order = k ∧ k ≤ buddyMaxOrder ∧ 2 ^ k ∣ p ∧ Hole s p (p + 2 ^ k) := by
  obtain ⟨k, hk, hd, hM, h₁, h₂⟩ := tiled_at_allocPageHead h.left (Nat.zero_le p) hlt hst
  refine ⟨k, hM.order, hk, hd, by omega, h₁, h₂, fun n j => ?_, h.nodup, h.coalesced⟩
  rw [h.mem_iff]
  refine and_congr_left fun hfree => ?_
  by_cases hj : p ≤ j ∧ j < p + 2 ^ k
  · exfalso
    have hstj := hfree.2.1
    rcases eq_or_lt_of_le hj.1 with rfl | hlt
    · simp [hst] at hstj
    · simp [hM.tail j hlt hj.2] at hstj
  · omega

/-- The hole swallows its buddy. -/
theorem Hole.merge (h : Hole s lo (lo + 2 ^ k)) (hd : 2 ^ k ∣ lo)
    (hb : lo ^^^ 2 ^ k ∈ s.freeArea k) :
    let lo' := if lo ^^^ 2 ^ k < lo then lo ^^^ 2 ^ k else lo
    2 ^ (k + 1) ∣ lo' ∧ Hole (Memory.removeFreeBlock s (lo ^^^ 2 ^ k)) lo' (lo' + 2 ^ (k + 1)) := by
  obtain ⟨hside, hlt, hst, ho⟩ := (h.mem_iff k _).1 hb
  have hpow : 2 ^ (k + 1) = 2 ^ k + 2 ^ k := by ring
  have hpos := Nat.two_pow_pos k
  by_cases hd' : 2 ^ (k + 1) ∣ lo
  · -- the hole is the lower half
    have hx := xor_two_pow_of_dvd hd'
    simp only [hx, show ¬ lo + 2 ^ k < lo by omega, if_false] at *
    obtain ⟨-, -, hM, -, h₂⟩ := tiled_at_freeHead h.right le_rfl hlt hst ho
    refine ⟨hd', h.remove hb hM (fun j => by omega) (by omega) h.left ?_⟩
    rw [hpow, ← Nat.add_assoc]
    exact h₂
  · -- the hole is the upper half
    obtain ⟨hd'', hx⟩ := xor_two_pow_of_not_dvd hd hd'
    generalize lo ^^^ 2 ^ k = b at *
    subst hx
    simp only [show b < b + 2 ^ k by omega, if_true]
    obtain ⟨-, -, hM, h₁, -⟩ := tiled_at_freeHead h.left (Nat.zero_le b) (by omega) hst ho
    refine ⟨hd'', h.remove hb hM (fun j => by omega) (by omega) h₁ ?_⟩
    rw [hpow, ← Nat.add_assoc]
    exact h.right

end BareMetalOS.Memory
