import BareMetalOS.Boot.PathOffset

/-!
# Values of properties

What the readers load at the value of a property: one big-endian cell (`cell_of_holdsBytes`), or two
of them as one number of 64 bits (`cells_of_holdsBytes`).
-/

namespace BareMetalOS.Boot

open Memory

variable {b : Blob} {p : ℕ} {s t : List Byte}

/-! ## Values -/

/-- The first cell of a value. -/
def firstCell : List Byte → Option (BitVec 32)
  | b₀ :: b₁ :: b₂ :: b₃ :: _ => some (b₀ ++ b₁ ++ b₂ ++ b₃)
  | _ => none

/-- The first two cells of a value, as one number. -/
def firstCells (value : List Byte) : Option (BitVec 64) := do
  let hi ← firstCell value
  let lo ← firstCell (value.drop 4)
  return hi ++ lo

theorem firstCell_eq_none : firstCell s = none ↔ s.length < 4 := by
  match s with
  | [] | [_] | [_, _] | [_, _, _] => simp [firstCell]
  | _ :: _ :: _ :: _ :: _ => simp [firstCell]

theorem exists_firstCell (h : 4 ≤ s.length) : ∃ c, firstCell s = some c :=
  Option.ne_none_iff_exists'.1 fun hnone => by
    rw [firstCell_eq_none] at hnone
    omega

theorem exists_firstCells (h : 8 ≤ s.length) : ∃ c, firstCells s = some c := by
  obtain ⟨hi, hhi⟩ := exists_firstCell (show 4 ≤ s.length by omega)
  obtain ⟨lo, hlo⟩ := exists_firstCell (show 4 ≤ (s.drop 4).length by rw [List.length_drop]; omega)
  exact ⟨hi ++ lo, by rw [firstCells, hhi, hlo]; rfl⟩

/-! ## Loads -/

theorem getLsbD_bytes (b₃ b₂ b₁ b₀ : Byte) (i : ℕ) : (b₃ ++ b₂ ++ b₁ ++ b₀).getLsbD i =
    if i < 8 then b₀.getLsbD i else if i < 16 then b₁.getLsbD (i - 8)
    else if i < 24 then b₂.getLsbD (i - 16) else b₃.getLsbD (i - 24) := by
  simp only [BitVec.getLsbD_append]
  grind

theorem bswap32_append (b₀ b₁ b₂ b₃ : Byte) :
    bswap32 (b₃ ++ b₂ ++ b₁ ++ b₀) = b₀ ++ b₁ ++ b₂ ++ b₃ := by
  have key : ∀ x : BitVec 32, (∀ i, x.getLsbD i = (b₃ ++ b₂ ++ b₁ ++ b₀).getLsbD i) →
      bswap32 x = b₀ ++ b₁ ++ b₂ ++ b₃ := by
    intro x hx
    apply BitVec.eq_of_getLsbD_eq
    intro i hi
    rw [getLsbD_bytes, bswap32]
    simp only [BitVec.getLsbD_or, BitVec.getLsbD_shiftLeft, BitVec.getLsbD_ushiftRight,
      BitVec.getLsbD_and, hx, getLsbD_bytes]
    interval_cases i <;> simp
  exact key _ fun i => rfl

/-- Two cells as one number. -/
theorem or_shiftLeft_eq_append (hi lo : BitVec 32) :
    hi.setWidth 64 <<< 32 ||| lo.setWidth 64 = hi ++ lo := by
  apply BitVec.eq_of_getLsbD_eq
  intro i h
  rw [BitVec.getLsbD_append]
  by_cases h' : i < 32
  · simp [h', h]
  · simp only [BitVec.getLsbD_or, BitVec.getLsbD_shiftLeft, BitVec.getLsbD_setWidth, h', h]
    simp [BitVec.getLsbD_of_ge lo i (Nat.le_of_not_lt h'), show i - 32 < 64 by omega]

/-- The bytes behind the first ones. -/
theorem Blob.HoldsBytes.append_right (h : b.HoldsBytes p (s ++ t)) :
    b.HoldsBytes (p + s.length) t := by
  induction s generalizing p with
  | nil => exact h
  | cons x s ih =>
    have := ih h.cons.2
    rwa [List.length_cons, show p + (s.length + 1) = p + 1 + s.length by omega]

theorem Blob.HoldsBytes.drop (h : b.HoldsBytes p s) {n : ℕ} (hn : n ≤ s.length) :
    b.HoldsBytes (p + n) (s.drop n) := by
  rw [← List.take_append_drop n s] at h
  have := h.append_right
  rwa [List.length_take, min_eq_left hn] at this

/-- A cell that is loaded from the bytes of a value. -/
theorem cell_of_holdsBytes (h : b.HoldsBytes p s) (hlen : 4 ≤ s.length) :
    b.cell p = firstCell s := by
  match s with
  | [] | [_] | [_, _] | [_, _, _] => simp at hlen
  | b₀ :: b₁ :: b₂ :: b₃ :: s =>
    obtain ⟨h₀, h⟩ := h.cons
    obtain ⟨h₁, h⟩ := h.cons
    obtain ⟨h₂, h⟩ := h.cons
    obtain ⟨h₃, -⟩ := h.cons
    have hload : b.load32 p = some (b₃ ++ b₂ ++ b₁ ++ b₀) := by
      rw [Blob.load32, h₀]
      simp only [Option.bind_eq_bind, Option.bind_some]
      rw [h₁, Option.bind_some, show p + 2 = p + 1 + 1 by omega, h₂, Option.bind_some,
        show p + 3 = p + 1 + 1 + 1 by omega, h₃]
      rfl
    rw [Blob.cell, hload, firstCell]
    exact congrArg some (bswap32_append b₀ b₁ b₂ b₃)

/-- Two cells that are loaded from the bytes of a value. -/
theorem cells_of_holdsBytes (h : b.HoldsBytes p s) (hlen : 8 ≤ s.length) :
    b.cells p = firstCells s := by
  have hlo := cell_of_holdsBytes (h.drop (by omega : 4 ≤ s.length))
    (by rw [List.length_drop]; omega)
  rw [Blob.cells, firstCells, cell_of_holdsBytes h (by omega), hlo]
  simp only [or_shiftLeft_eq_append]

/-! ## Properties -/

theorem Blob.HoldsNode.bytes_of_mem {strings : ℕ} {x : FdtNode} {pr : FdtProperty}
    (h : b.HoldsNode strings x) (hpr : pr ∈ x.props) : b.HoldsBytes pr.off pr.value := by
  obtain ⟨-, nodeName, q, r, f, -, hprops, -⟩ := h
  exact hprops.bytes_of_mem hpr

/-- What `fdt_getprop` returns for a property. -/
def FdtProperty.result (pr : FdtProperty) : ℕ × ℤ := (pr.off, pr.value.length)

/-- `fdt_getprop` on a node, where lengths fit an `int`. -/
theorem fdtGetprop_result {x : FdtNode} {name : List Byte} {offDtStrings : BitVec 32}
    (hstrings : b.offDtStrings = some offDtStrings) (hsize : b.size < 2 ^ 31)
    (hx : b.HoldsNode offDtStrings.toNat x) (hname : 0 ∉ name) :
    fdtGetprop b x.off name = some ((x.getprop name).map FdtProperty.result) := by
  rw [fdtGetprop_eq hstrings hx hname]
  cases hpr : x.getprop name with
  | none => rw [Option.map_none, Option.map_none]
  | some pr =>
    have hlen := (hx.bytes_of_mem (List.mem_of_find?_eq_some hpr)).1
    rw [Option.map_some, Option.map_some, toInt_of_lt (by omega), FdtProperty.result]

end BareMetalOS.Boot
