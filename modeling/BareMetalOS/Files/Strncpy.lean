import BareMetalOS.Files.Archive
import Mathlib.Order.CompletePartialOrder

/-!
# Bounded copies of strings

`strncpy` of `lib/string.c` on the bytes of memory. It copies the string and pads it with zeros to
`n` bytes, but counts the zero at the end of a shorter string for none of them, and so writes one
zero more (`strncpyTo_apply`). The arrays for names of a vnode have room for it (`fillName_apply`).
-/

namespace BareMetalOS.Files

open Memory (Addr)
open Boot (Byte cstr)

/-! ## The two loops -/

/-- `while (n && (*d++ = *src++)) n--;`: the memory, `d` and `n` after it. -/
def copyWhile : ℕ → Bytes → Addr → Addr → Bytes × Addr × ℕ
  | 0, mem, d, _ => (mem, d, 0)
  | n + 1, mem, d, src =>
    let c := mem src
    let mem := Function.update mem d c
    if c = 0 then (mem, d + 1, n + 1) else copyWhile n mem (d + 1) (src + 1)

/-- `while (n--) *d++ = '\0';` -/
def padWhile : ℕ → Bytes → Addr → Bytes
  | 0, mem, _ => mem
  | n + 1, mem, d => padWhile n (Function.update mem d 0) (d + 1)

/-- `strncpy(dest, src, n)` -/
def strncpyTo (mem : Bytes) (dest src : Addr) (n : BitVec 64) : Bytes :=
  let (mem, d, n) := copyWhile n.toNat mem dest src
  padWhile n mem d

/-! ## What they write -/

variable {mem : Bytes} {d dest src x : Addr} {s : List Byte} {n : ℕ}

/-- The second loop writes `n` zeros. -/
theorem padWhile_spec (mem : Bytes) (d : Addr) (hn : n ≤ 2 ^ 64) :
    (∀ i < n, padWhile n mem d (d + BitVec.ofNat 64 i) = 0) ∧
      ∀ x ∉ bytesAt d n, padWhile n mem d x = mem x := by
  induction n generalizing mem d with
  | zero => exact ⟨fun i hi => absurd hi (Nat.not_lt_zero i), fun _ _ => rfl⟩
  | succ n ih =>
    obtain ⟨hzero, hframe⟩ := ih (Function.update mem d 0) (d + 1) (by omega)
    rw [padWhile]
    constructor
    · intro i hi
      cases i with
      | zero =>
        rw [BitVec.add_zero, hframe d (notMem_bytesAt_succ (by omega)), Function.update_self]
      | succ i =>
        rw [add_ofNat_succ]
        exact hzero i (by omega)
    · intro x hx
      rw [mem_bytesAt_succ, not_or] at hx
      rw [hframe x hx.2, Function.update_of_ne hx.1]

/-- The string at `src` is read before the bytes from `d` on are written. -/
structure Apart (d src : Addr) (n : ℕ) (s : List Byte) : Prop where
  nul : 0 ∉ s
  disjoint : Disjoint (bytesAt d n) (bytesAt src (s.length + 1))

/-- The first loop writes the string, with its zero if there is room. -/
theorem copyWhile_spec (mem : Bytes) (hn : n < 2 ^ 64) (hs : HoldsAt mem src (s ++ [0]))
    (h : Apart d src n s) :
    ∃ mem' w, copyWhile n mem d src = (mem', d + BitVec.ofNat 64 w, n - s.length) ∧
      w = min n (s.length + 1) ∧
      (∀ i < w, mem' (d + BitVec.ofNat 64 i) = s.getD i 0) ∧
      ∀ x ∉ bytesAt d w, mem' x = mem x := by
  induction n generalizing mem d src s with
  | zero =>
    refine ⟨mem, 0, ?_, by omega, fun i hi => absurd hi (Nat.not_lt_zero i), fun _ _ => rfl⟩
    rw [copyWhile, BitVec.add_zero, Nat.zero_sub]
  | succ n ih =>
    rw [copyWhile]
    cases s with
    | nil =>
      -- the zero at the end of the string
      have hzero : mem src = 0 := hs.1
      simp only [hzero, if_true]
      refine ⟨_, 1, rfl, by simp, ?_, ?_⟩
      · intro i hi
        obtain rfl : i = 0 := by omega
        rw [BitVec.add_zero, Function.update_self]
        rfl
      · intro x hx
        apply Function.update_of_ne
        rintro rfl
        exact hx ⟨0, Nat.one_pos, (BitVec.add_zero x).symm⟩
    | cons c s =>
      have hc : c ≠ 0 := fun hc => h.nul (hc ▸ List.mem_cons_self)
      have hbyte : mem src = c := hs.1
      simp only [hbyte, if_neg hc]
      have hrest : HoldsAt (Function.update mem d c) (src + 1) (s ++ [0]) := by
        apply hs.2.congr
        intro x hx
        apply Function.update_of_ne
        rintro rfl
        have hlen : (s ++ [0]).length = s.length + 1 := List.length_append
        change x ∈ bytesAt (src + 1) (s ++ [0]).length at hx
        rw [hlen] at hx
        exact Set.disjoint_left.1 h.disjoint (mem_bytesAt_succ.2 (.inl rfl))
          (mem_bytesAt_succ.2 (.inr hx))
      have hapart : Apart (d + 1) (src + 1) n s := by
        constructor
        · exact fun hmem => h.nul (List.mem_cons_of_mem c hmem)
        · apply h.disjoint.mono
          · exact fun x hx => mem_bytesAt_succ.2 (.inr hx)
          · exact fun x hx => mem_bytesAt_succ.2 (.inr hx)
      obtain ⟨mem', w, heq, hw, hbytes, hframe⟩ := ih _ (by omega) hrest hapart
      refine ⟨mem', w + 1, ?_, ?_, ?_, ?_⟩
      · rw [heq, add_ofNat_succ, List.length_cons, Nat.add_sub_add_right]
      · rw [hw, List.length_cons]
        omega
      · intro i hi
        cases i with
        | zero =>
          rw [BitVec.add_zero, hframe d (notMem_bytesAt_succ (by omega)), Function.update_self]
          rfl
        | succ i =>
          rw [add_ofNat_succ]
          exact hbytes i (by omega)
      · intro x hx
        rw [mem_bytesAt_succ, not_or] at hx
        rw [hframe x hx.2, Function.update_of_ne hx.1]

/-- Behind the string, `strncpy` pads with zeros, the byte behind the `n` ones included if the
string has less than `n` bytes. -/
theorem strncpyTo_apply (mem : Bytes) (n : BitVec 64) (hs : HoldsAt mem src (s ++ [0]))
    (h : Apart dest src n.toNat s) (i : BitVec 64) : strncpyTo mem dest src n (dest + i) =
      if i.toNat < n.toNat ∨ (i = n ∧ s.length < n.toNat) then s.getD i.toNat 0
      else mem (dest + i) := by
  have hn := n.isLt
  have hi := i.isLt
  obtain ⟨mem', w, hcopy, hw, hbytes, hframe⟩ := copyWhile_spec mem hn hs h
  obtain ⟨hzero, hpad⟩ := padWhile_spec mem' (dest + BitVec.ofNat 64 w)
    (by omega : n.toNat - s.length ≤ 2 ^ 64)
  have hoff : dest + i = dest + BitVec.ofNat 64 i.toNat := by
    rw [BitVec.ofNat_toNat, BitVec.setWidth_eq]
  have hpadded (k : ℕ) (hk : w + k ≤ 2 ^ 64) :
      dest + i ∈ bytesAt (dest + BitVec.ofNat 64 w) k ↔ w ≤ i.toNat ∧ i.toNat < w + k := by
    rw [mem_bytesAt_add, hoff]
    constructor
    · rintro ⟨j, hj₁, hj₂, heq⟩
      rw [add_ofNat_inj hi (by omega)] at heq
      omega
    · exact fun hj => ⟨i.toNat, hj.1, hj.2, rfl⟩
  rw [strncpyTo, hcopy]
  dsimp only
  rcases lt_or_ge i.toNat w with hlt | hge
  · -- a byte of the string
    have hnot : dest + i ∉ bytesAt (dest + BitVec.ofNat 64 w) (n.toNat - s.length) := by
      rw [hpadded _ (by omega)]
      omega
    rw [hpad _ hnot, if_pos (.inl (by omega)), hoff, hbytes _ hlt]
  · have hframe' : mem' (dest + i) = mem (dest + i) := by
      apply hframe
      rw [add_mem_bytesAt]
      omega
    by_cases hin : i.toNat < w + (n.toNat - s.length) ∧ s.length < n.toNat
    · -- a zero behind the string
      obtain ⟨j, hj⟩ : ∃ j, i.toNat = w + j := ⟨i.toNat - w, by omega⟩
      have hval : padWhile (n.toNat - s.length) mem' (dest + BitVec.ofNat 64 w) (dest + i) = 0 := by
        rw [hoff, hj, BitVec.ofNat_add, ← BitVec.add_assoc]
        exact hzero j (by omega)
      have hcond : i.toNat < n.toNat ∨ (i = n ∧ s.length < n.toNat) := by
        rcases lt_or_ge i.toNat n.toNat with h | h
        · exact .inl h
        · exact .inr ⟨BitVec.eq_of_toNat_eq (by omega), hin.2⟩
      rw [hval, if_pos hcond, List.getD_eq_default]
      omega
    · have hnot : dest + i ∉ bytesAt (dest + BitVec.ofNat 64 w) (n.toNat - s.length) := by
        rw [hpadded _ (by omega)]
        omega
      have hcond : ¬ (i.toNat < n.toNat ∨ (i = n ∧ s.length < n.toNat)) := by
        rintro (h | ⟨rfl, h⟩) <;> omega
      rw [hpad _ hnot, if_neg hcond, hframe']

/-! ## When it keeps to its bound -/

/-- What `strncpy` should leave: the first `n` bytes of the string padded with zeros, and behind
them what was there. -/
structure Copies (mem mem' : Bytes) (dest : Addr) (s : List Byte) (n : BitVec 64) : Prop where
  bytes : ∀ i : BitVec 64, i.toNat < n.toNat → mem' (dest + i) = s.getD i.toNat 0
  frame : ∀ i : BitVec 64, n.toNat ≤ i.toNat → mem' (dest + i) = mem (dest + i)

/-- **The bound.** `strncpy` keeps to it exactly when the string has `n` bytes or more, or the byte
behind the `n` ones is zero already. -/
theorem strncpyTo_copies_iff (mem : Bytes) (dest src : Addr) (s : List Byte) (n : BitVec 64)
    (hs : HoldsAt mem src (s ++ [0])) (h : Apart dest src n.toNat s) :
    Copies mem (strncpyTo mem dest src n) dest s n ↔
      n.toNat ≤ s.length ∨ mem (dest + n) = 0 := by
  have happly := strncpyTo_apply mem n hs h
  constructor
  · intro hcopies
    by_contra hnot
    rw [not_or] at hnot
    have hbyte := hcopies.frame n le_rfl
    rw [happly, if_pos (.inr ⟨rfl, by omega⟩), List.getD_eq_default _ _ (by omega)] at hbyte
    exact hnot.2 hbyte.symm
  · intro hok
    constructor
    · intro i hi
      rw [happly, if_pos (.inl hi)]
    · intro i hi
      rw [happly]
      split
      · rename_i hcond
        obtain hlt | ⟨rfl, hlt⟩ := hcond
        · exact absurd hlt hi.not_gt
        · rw [List.getD_eq_default _ _ (by omega), hok.resolve_left (by omega)]
      · rfl

/-- The string `"a"` at 0, with the bytes `0xff` behind it. -/
def lowString : Bytes := fun x => if x = 0 then 0x61 else if x = 1 then 0 else 0xff

theorem lowString_apart (n : ℕ) (hn : n ≤ 16) : Apart 16 0 n [0x61] :=
  ⟨by decide, @disjoint_bytesAt 64 0 16 n 0 2 (by omega) (by decide) (.inr (by decide))⟩

/-- A copy of the whole string without its zero. -/
theorem strncpyTo_copies_one : Copies lowString (strncpyTo lowString 16 0 1) 16 [0x61] 1 :=
  (strncpyTo_copies_iff lowString 16 0 [0x61] 1 ⟨rfl, rfl, trivial⟩
    (lowString_apart 1 (by decide))).2 (.inl (by decide))

/-- A copy to four bytes writes a fifth one. -/
theorem not_strncpyTo_copies : ¬ ∀ (mem : Bytes) (dest src : Addr) (s : List Byte) (n : BitVec 64),
    HoldsAt mem src (s ++ [0]) → Apart dest src n.toNat s →
      Copies mem (strncpyTo mem dest src n) dest s n := by
  intro h
  have hcopies := h lowString 16 0 [0x61] 4 ⟨rfl, rfl, trivial⟩ (lowString_apart 4 (by decide))
  have hbyte := hcopies.frame 4 le_rfl
  exact absurd hbyte (by decide)

/-! ## Names of vnodes -/

/-- `strncpy(name, component, 255); name[255] = '\0';` into the name of a vnode. -/
def fillName (mem : Bytes) (name component : Addr) : Bytes :=
  Function.update (strncpyTo mem name component 255) (name + 255) 0

/-- The name of a vnode is the first 255 bytes of the component with zeros up to the end of its
array, and nothing else is written. -/
theorem fillName_apply (mem : Bytes) (name component : Addr)
    (hs : HoldsAt mem component (s ++ [0])) (h : Apart name component 255 s) (i : BitVec 64) :
    fillName mem name component (name + i) =
      if i.toNat < 256 then (s.take 255).getD i.toNat 0 else mem (name + i) := by
  have hlen : (s.take 255).length ≤ 255 := List.length_take_le _ _
  by_cases hi : i = 255
  · subst hi
    have hdefault : (s.take 255).getD (255#64).toNat 0 = 0 := List.getD_eq_default _ _ hlen
    rw [fillName, Function.update_self, if_pos (by decide)]
    exact hdefault.symm
  · have hne : name + i ≠ name + 255 := fun heq => hi (by simpa using congrArg (· - name) heq)
    have hval : i.toNat ≠ 255 := fun heq => hi (BitVec.eq_of_toNat_eq heq)
    rw [fillName, Function.update_of_ne hne, strncpyTo_apply mem 255 hs h]
    by_cases hlt : i.toNat < 255
    · rw [if_pos (.inl hlt), if_pos (by omega), List.getD_eq_getElem?_getD,
        List.getD_eq_getElem?_getD, List.getElem?_take_of_lt hlt]
    · rw [if_neg (fun hc => hc.elim hlt fun hc => hi hc.1), if_neg (by omega)]

end BareMetalOS.Files
