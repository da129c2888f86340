import BareMetalOS.Boot.Phandle
import BareMetalOS.Boot.Regions

/-!
# The regions of a device tree

The regions that a tree with a node `/reserved-memory` reserves: the one of the node's own `reg`,
and one for each child with a `reg`, or with `alloc-ranges` and a size
(`DeviceTree.reservedRegions`). The calls of `fdt_get_reserved_memory_region` for the indices 0, 1,
2, ... enumerate them in this order and then return `-1` (`reports_of_encodes`).
-/

namespace BareMetalOS.Boot

open Memory

variable {b : Blob} {strings p q n depth : ℕ} {name s : List Byte} {above : List (List Byte)}
  {t : DeviceTree} {x : FdtNode} {l : List Region}

/-! ## Regions in a tree -/

/-- The value of a property of a node. -/
def FdtNode.value (x : FdtNode) (name : List Byte) : Option (List Byte) :=
  (x.getprop name).map FdtProperty.value

/-- The first start address and size of a value, as two pairs of cells or as two cells. -/
def valueRegion (value : List Byte) : Option Region :=
  if 16 ≤ value.length then do
    let start ← firstCells value
    let size ← firstCells (value.drop 8)
    return ⟨start, size⟩
  else do
    let start ← firstCell value
    let size ← firstCell (value.drop 4)
    return ⟨start.setWidth 64, size.setWidth 64⟩

/-- The number that a value starts with. -/
def valueSize (value : List Byte) : Option Addr :=
  if 8 ≤ value.length then firstCells value else (firstCell value).map (·.setWidth 64)

/-- The region of a child without `reg`: it starts with the range, and its size is at most that of
the range, where the range has one. -/
def FdtNode.rangeRegion (x : FdtNode) : Option Region := do
  let range ← (x.value (cstr "alloc-ranges")).bind valueRegion
  let size ← (x.value (cstr "size")).bind valueSize
  if size = 0 then none
  else return ⟨range.start, if range.size ≠ 0 ∧ range.size < size then range.size else size⟩

/-- The region of a node's `reg`. -/
def FdtNode.regRegion (x : FdtNode) : Option Region := (x.value (cstr "reg")).bind valueRegion

/-- The region of a child of `/reserved-memory`. -/
def FdtNode.region (x : FdtNode) : Option Region := x.regRegion.or x.rangeRegion

/-- The nodes in preorder, each with its children. -/
def Forest.items (above : List (List Byte)) : Forest → List (FdtNode × Forest)
  | .nil => []
  | .node off name props children siblings =>
    (⟨above ++ [name], off, props⟩, children) ::
      (children.items (above ++ [name]) ++ siblings.items above)

/-- The nodes in preorder, each with its children. -/
def DeviceTree.items (t : DeviceTree) : List (FdtNode × Forest) :=
  (⟨[], t.off, t.props⟩, t.children) :: t.children.items []

/-- The siblings alone, without what is below them. -/
def Forest.roots (above : List (List Byte)) : Forest → List FdtNode
  | .nil => []
  | .node off name props _ siblings => ⟨above ++ [name], off, props⟩ :: siblings.roots above

/-- The regions of the first node `/reserved-memory` in preorder and of its children, in document
order. -/
def DeviceTree.reservedRegions (t : DeviceTree) : List Region :=
  match t.items.find? fun x => Names (cstr "/reserved-memory") x.1.path with
  | none => []
  | some (x, children) => x.regRegion.toList ++ (children.roots x.path).filterMap FdtNode.region

theorem Forest.map_fst_items (f : Forest) (above : List (List Byte)) :
    (f.items above).map Prod.fst = f.nodes above := by
  induction f generalizing above with
  | nil => rfl
  | node off name props children siblings ih₁ ih₂ =>
    rw [items, nodes, List.map_cons, List.map_append, ih₁, ih₂]

theorem DeviceTree.map_fst_items (t : DeviceTree) : t.items.map Prod.fst = t.nodes := by
  rw [items, nodes, List.map_cons, Forest.map_fst_items]

/-- The node that `fdt_path_offset` finds, with its children. -/
theorem DeviceTree.map_fst_find (t : DeviceTree) (path : List Byte) :
    (t.items.find? fun x => Names path x.1.path).map Prod.fst = t.find path := by
  rw [find, ← t.map_fst_items, List.find?_map]
  rfl

/-! ## Values -/

/-- `parse_start_and_size`. -/
theorem parseStartAndSize_eq {o : Option FdtProperty} (h : ∀ pr ∈ o, b.HoldsBytes pr.off pr.value) :
    parseStartAndSize b (o.map FdtProperty.result) =
      some ((o.map FdtProperty.value).bind valueRegion) := by
  cases o with
  | none => rfl
  | some pr =>
    have hbytes := h pr rfl
    rw [Option.map_some, Option.map_some, Option.bind_some, FdtProperty.result, valueRegion]
    simp only [parseStartAndSize]
    by_cases h16 : 16 ≤ pr.value.length
    · have hlo := cells_of_holdsBytes (hbytes.drop (show 8 ≤ pr.value.length by omega))
        (by rw [List.length_drop]; omega)
      rw [if_neg (by omega), if_pos (by omega), if_pos h16, cells_of_holdsBytes hbytes (by omega),
        hlo]
      obtain ⟨c, hc⟩ := exists_firstCells (show 8 ≤ pr.value.length by omega)
      obtain ⟨d, hd⟩ := exists_firstCells (show 8 ≤ (pr.value.drop 8).length by
        rw [List.length_drop]; omega)
      rw [hc, hd]
      rfl
    · rw [if_neg h16]
      by_cases h8 : 8 ≤ pr.value.length
      · have hlo := cell_of_holdsBytes (hbytes.drop (show 4 ≤ pr.value.length by omega))
          (by rw [List.length_drop]; omega)
        rw [if_neg (by omega), if_neg (by omega), if_pos (by omega),
          cell_of_holdsBytes hbytes (by omega), hlo]
        obtain ⟨c, hc⟩ := exists_firstCell (show 4 ≤ pr.value.length by omega)
        obtain ⟨d, hd⟩ := exists_firstCell (show 4 ≤ (pr.value.drop 4).length by
          rw [List.length_drop]; omega)
        rw [hc, hd]
        rfl
      · have hnone : firstCell (pr.value.drop 4) = none := by
          rw [firstCell_eq_none, List.length_drop]
          omega
        rw [hnone, if_neg (by omega : ¬ (16 : ℤ) ≤ pr.value.length),
          if_neg (by omega : ¬ (8 : ℤ) ≤ pr.value.length), ite_self]
        cases firstCell pr.value <;> rfl

/-- The `size` property of `parse_alloc_ranges_with_size`. -/
theorem parseSize_eq {o : Option FdtProperty} (h : ∀ pr ∈ o, b.HoldsBytes pr.off pr.value) :
    parseSize b (o.map FdtProperty.result) =
      some ((o.map FdtProperty.value).bind valueSize) := by
  cases o with
  | none => rfl
  | some pr =>
    have hbytes := h pr rfl
    rw [Option.map_some, Option.map_some, Option.bind_some, FdtProperty.result, valueSize]
    simp only [parseSize]
    by_cases h8 : 8 ≤ pr.value.length
    · obtain ⟨c, hc⟩ := exists_firstCells h8
      rw [if_neg (by omega), if_pos (by omega), if_pos h8, cells_of_holdsBytes hbytes h8, hc]
      rfl
    · rw [if_neg h8]
      by_cases h4 : 4 ≤ pr.value.length
      · obtain ⟨c, hc⟩ := exists_firstCell h4
        rw [if_neg (by omega), if_neg (by omega), if_pos (by omega), cell_of_holdsBytes hbytes h4,
          hc]
        rfl
      · rw [firstCell_eq_none.2 (by omega), if_neg (by omega : ¬ (8 : ℤ) ≤ pr.value.length),
          if_neg (by omega : ¬ (4 : ℤ) ≤ pr.value.length), ite_self]
        rfl

/-- The region of a child, as it is read from the blob. -/
theorem childRegion_eq {offDtStrings : BitVec 32} (hstrings : b.offDtStrings = some offDtStrings)
    (hsize : b.size < 2 ^ 31) (hx : b.HoldsNode offDtStrings.toNat x) :
    childRegion b x.off = some x.region := by
  have hprop : ∀ name, 0 ∉ name → fdtGetprop b x.off name = some ((x.getprop name).map _) :=
    fun name hname => fdtGetprop_result hstrings hsize hx hname
  have hbytes : ∀ name, ∀ pr ∈ x.getprop name, b.HoldsBytes pr.off pr.value :=
    fun name pr hpr => hx.bytes_of_mem (List.mem_of_find?_eq_some hpr)
  rw [childRegion, hprop _ (by decide), hprop _ (by decide), hprop _ (by decide)]
  simp only [Option.bind_eq_bind, Option.bind_some]
  rw [parseStartAndSize_eq (hbytes _), Option.bind_some, FdtNode.region]
  have hreg : ((x.getprop (cstr "reg")).map FdtProperty.value).bind valueRegion = x.regRegion := rfl
  rw [hreg]
  cases x.regRegion with
  | some r => rfl
  | none =>
    rw [Option.none_or, FdtNode.rangeRegion, FdtNode.value, FdtNode.value]
    simp only [parseAllocRangesWithSize]
    rw [parseStartAndSize_eq (hbytes _), parseSize_eq (hbytes _)]
    simp only [Option.bind_eq_bind, Option.bind_some]
    cases ((x.getprop (cstr "alloc-ranges")).map FdtProperty.value).bind valueRegion with
    | none => rfl
    | some range =>
      cases ((x.getprop (cstr "size")).map FdtProperty.value).bind valueSize with
      | none => rfl
      | some size =>
        simp only [Option.bind_some]
        split_ifs <;> rfl

/-! ## The walk over the children -/

theorem collectLoop_of_step {p' depth' : ℕ}
    (h : reservedStep b p depth = some (some (p', depth', none)))
    (n : ℕ) : collectLoop b (n + 1) p depth = collectLoop b n p' depth' := by
  rw [collectLoop, h]

theorem reservedStep_nop (hd : depth ≠ 0) (hcell : b.cell p = some fdtNop) :
    reservedStep b p depth = some (some (p + 4, depth, none)) := by
  rw [reservedStep, if_neg hd, hcell]
  rfl

theorem reservedStep_end (hd : depth ≠ 0) (hcell : b.cell p = some fdtEndNode) :
    reservedStep b p depth = some (some (p + 4, depth - 1, none)) := by
  rw [reservedStep, if_neg hd, hcell]
  rfl

theorem reservedStep_prop {len : BitVec 32} (hd : depth ≠ 0) (hcell : b.cell p = some fdtProp)
    (hlen : b.cell (p + 4) = some len) :
    reservedStep b p depth = some (some (alignUpPtr (p + 12 + len.toNat), depth, none)) := by
  rw [reservedStep, if_neg hd, hcell]
  show (b.cell (p + 4)).bind _ = _
  rw [hlen]
  rfl

theorem reservedStep_begin (hd : depth ≠ 0) (hcell : b.cell p = some fdtBeginNode)
    (hname : b.HoldsString (p + 4) name) : reservedStep b p depth =
      if depth + 1 = 2 then (childRegion b (toInt p)).map fun r =>
        some (alignUpPtr (p + 4 + name.length + 1), depth + 1, r)
      else some (some (alignUpPtr (p + 4 + name.length + 1), depth + 1, none)) := by
  rw [reservedStep, if_neg hd, hcell]
  show (strlen b (p + 4)).bind _ = _
  rw [hname.strlen_eq, Option.bind_some]
  split_ifs
  · cases childRegion b (toInt p) <;> rfl
  · rfl

/-- The walk passes over the properties of a node. -/
theorem collectLoop_props {l : List FdtProperty} (h : b.HoldsProps strings l p q) (hd : depth ≠ 0) :
    ∃ k ≤ q - p, ∀ n, collectLoop b (n + k) p depth = collectLoop b n q depth := by
  induction h with
  | nil p => exact ⟨0, Nat.zero_le _, fun n => rfl⟩
  | @nop l p q hcell hl ih =>
    obtain ⟨k, hk, hloop⟩ := ih
    have := hl.le
    refine ⟨k + 1, by omega, fun n => ?_⟩
    rw [← Nat.add_assoc, collectLoop_of_step (reservedStep_nop hd hcell), hloop]
  | @prop pr l p q len nameoff hcell hlen hvalue hoff hname hpos hbytes hl ih =>
    obtain ⟨k, hk, hloop⟩ := ih
    have := hl.le
    have := le_alignUpPtr (p + 12 + pr.value.length)
    refine ⟨k + 1, by omega, fun n => ?_⟩
    rw [← Nat.add_assoc, collectLoop_of_step (reservedStep_prop hd hcell hlen), hvalue, hloop]

/-- The walk passes over everything below a child: no region is reported there. -/
theorem collectLoop_below {f : Forest} (h : b.HoldsForest strings f p q) (hd : 2 ≤ depth) :
    ∃ k ≤ q - p, ∀ n, collectLoop b (n + k) p depth = collectLoop b n q depth := by
  induction h generalizing depth with
  | nil p => exact ⟨0, Nat.zero_le _, fun n => rfl⟩
  | @nop f p q hcell hf ih =>
    obtain ⟨k, hk, hloop⟩ := ih hd
    have := hf.le
    refine ⟨k + 1, by omega, fun n => ?_⟩
    rw [← Nat.add_assoc, collectLoop_of_step (reservedStep_nop (by omega) hcell), hloop]
  | @node p q r s name props children siblings hcell hname hne hsep hprops hch hend hsib ih₁ ih₂ =>
    have hlen := le_alignUpPtr (p + 4 + name.length + 1)
    have := hprops.le
    have := hch.le
    have := hsib.le
    obtain ⟨k₁, hk₁, hloop₁⟩ := collectLoop_props hprops (Nat.succ_ne_zero depth)
    obtain ⟨k₂, hk₂, hloop₂⟩ := @ih₁ (depth + 1) (by omega)
    obtain ⟨k₃, hk₃, hloop₃⟩ := ih₂ hd
    have hbegin := reservedStep_begin (show depth ≠ 0 by omega) hcell hname
    rw [if_neg (by omega)] at hbegin
    refine ⟨k₃ + 1 + k₂ + k₁ + 1, by omega, fun n => ?_⟩
    rw [show n + (k₃ + 1 + k₂ + k₁ + 1) = n + k₃ + 1 + k₂ + k₁ + 1 by omega,
      collectLoop_of_step hbegin, hloop₁, hloop₂,
      collectLoop_of_step (reservedStep_end (Nat.succ_ne_zero depth) hend), Nat.succ_sub_one,
        hloop₃]

/-- **The walk over the children** of `/reserved-memory` finds the region of each of them. -/
theorem collectLoop_children {f : Forest} {offDtStrings : BitVec 32}
    (hstrings : b.offDtStrings = some offDtStrings) (hsize : b.size < 2 ^ 31)
    (h : b.HoldsForest offDtStrings.toNat f p q) (above : List (List Byte)) :
    ∃ k ≤ q - p, ∀ n, collectLoop b (n + k) p 1 =
      (collectLoop b n q 1).map ((f.roots above).filterMap FdtNode.region ++ ·) := by
  generalize hstr : offDtStrings.toNat = strings at h
  induction h with
  | nil p =>
    refine ⟨0, Nat.zero_le _, fun n => ?_⟩
    cases collectLoop b (n + 0) p 1 <;> rfl
  | @nop f p q hcell hf ih =>
    obtain ⟨k, hk, hloop⟩ := ih
    have := hf.le
    refine ⟨k + 1, by omega, fun n => ?_⟩
    rw [← Nat.add_assoc, collectLoop_of_step (reservedStep_nop one_ne_zero hcell), hloop]
  | @node p q r s name props children siblings hcell hname hne hsep hprops hch hend hsib ih₁ ih₂ =>
    have hlen := le_alignUpPtr (p + 4 + name.length + 1)
    have := hprops.le
    have := hch.le
    have := hsib.le
    have hlt := Blob.lt_size_of_cell hcell
    subst hstr
    have hchild : childRegion b (p : ℤ) = some (FdtNode.region ⟨above ++ [name], p, props⟩) :=
      @childRegion_eq b ⟨above ++ [name], p, props⟩ _ hstrings hsize
        ⟨hcell, _, _, _, _, hname, hprops, hch, hend⟩
    obtain ⟨k₁, hk₁, hloop₁⟩ := @collectLoop_props _ _ _ _ 2 _ hprops two_ne_zero
    obtain ⟨k₂, hk₂, hloop₂⟩ := @collectLoop_below _ _ _ _ 2 _ hch le_rfl
    obtain ⟨k₃, hk₃, hloop₃⟩ := ih₂
    have hbegin := reservedStep_begin one_ne_zero hcell hname
    rw [if_pos rfl, toInt_of_lt (by omega), hchild, Option.map_some] at hbegin
    have hrest : ∀ n,
        collectLoop b (n + k₃ + 1 + k₂ + k₁) (alignUpPtr (p + 4 + name.length + 1)) 2 =
        (collectLoop b n s 1).map ((siblings.roots above).filterMap FdtNode.region ++ ·) := by
      intro n
      rw [hloop₁, hloop₂, collectLoop_of_step (reservedStep_end two_ne_zero hend)]
      exact hloop₃ n
    refine ⟨k₃ + 1 + k₂ + k₁ + 1, by omega, fun n => ?_⟩
    rw [show n + (k₃ + 1 + k₂ + k₁ + 1) = n + k₃ + 1 + k₂ + k₁ + 1 by omega, collectLoop, hbegin,
      Forest.roots, List.filterMap_cons]
    cases FdtNode.region ⟨above ++ [name], p, props⟩ with
    | none => exact hrest n
    | some r =>
      simp only
      rw [hrest]
      cases collectLoop b n s 1 <;> rfl

/-! ## The reports -/

/-- The items of a node and its children. -/
theorem Blob.HoldsForest.item_of_mem {f children : Forest} (h : b.HoldsForest strings f p q)
    (hx : (x, children) ∈ f.items above) : b.cell x.off = some fdtBeginNode ∧
      ∃ name q r, b.HoldsString (x.off + 4) name ∧
        b.HoldsProps strings x.props (alignUpPtr (x.off + 4 + name.length + 1)) q ∧
        b.HoldsForest strings children q r ∧ b.cell r = some fdtEndNode := by
  induction h generalizing above with
  | nil => cases hx
  | nop _ _ ih => exact ih hx
  | node hcell hname hne hsep hprops hch hend hsib ih₁ ih₂ =>
    rw [Forest.items, List.mem_cons, List.mem_append] at hx
    rcases hx with heq | hx | hx
    · obtain ⟨rfl, rfl⟩ := Prod.mk.inj heq
      exact ⟨hcell, _, _, _, hname, hprops, hch, hend⟩
    · exact ih₁ hx
    · exact ih₂ hx

theorem childRegions_eq {children : Forest} (h : b.Encodes t) (hsize : b.size < 2 ^ 31)
    (hx : (x, children) ∈ t.items) : ∃ offDtStrings, b.offDtStrings = some offDtStrings ∧
      b.HoldsNode offDtStrings.toNat x ∧
      childRegions b x.off = some ((children.roots x.path).filterMap FdtNode.region) := by
  obtain ⟨-, offDtStrings, _, _, _, -, hstrings, -, -, hbegin, hroot, hprops, hch, hend,
    -⟩ := h.blocks
  have hitems : b.cell x.off = some fdtBeginNode ∧
      ∃ name q r, b.HoldsString (x.off + 4) name ∧
        b.HoldsProps offDtStrings.toNat x.props (alignUpPtr (x.off + 4 + name.length + 1)) q ∧
        b.HoldsForest offDtStrings.toNat children q r ∧ b.cell r = some fdtEndNode := by
    rcases List.mem_cons.1 hx with heq | hx
    · obtain ⟨rfl, rfl⟩ := Prod.mk.inj heq
      exact ⟨hbegin, _, _, _, hroot, hprops, hch, hend⟩
    · exact hch.item_of_mem hx
  obtain ⟨hbegin, name, q, r, hname, hprops, hch, hend⟩ := hitems
  refine ⟨offDtStrings, hstrings, ⟨hbegin, _, _, _, _, hname, hprops, hch, hend⟩, ?_⟩
  have hlen := le_alignUpPtr (x.off + 4 + name.length + 1)
  have hle₁ := hprops.le
  have hle₂ := hch.le
  have hlt := Blob.lt_size_of_cell hend
  obtain ⟨k₁, hk₁, hloop₁⟩ := @collectLoop_props _ _ _ _ 1 _ hprops one_ne_zero
  obtain ⟨k₂, hk₂, hloop₂⟩ := collectLoop_children hstrings hsize hch x.path
  have hlast : ∀ n, collectLoop b (n + 1 + 1) r 1 = some [] := by
    intro n
    rw [collectLoop_of_step (reservedStep_end one_ne_zero hend)]
    rfl
  rw [childRegions, Int.toNat_natCast, hbegin]
  simp only [Option.bind_eq_bind, Option.bind_some, hname.strlen_eq]
  rw [if_neg fun h => h rfl,
    show b.size + 1 = b.size - k₁ - k₂ - 1 + 1 + 1 + k₂ + k₁ by omega, hloop₁, hloop₂, hlast,
    Option.map_some, List.append_nil]

theorem fdtPathOffset_reserved (h : b.Encodes t) (hfit : t.Fits) :
    fdtPathOffset b (cstr "/reserved-memory") =
      some (((t.find (cstr "/reserved-memory")).map fun x => toInt x.off).getD (-1)) := by
  have hpath : cstr "/reserved-memory" = 0x2f :: cstr "reserved-memory" := by decide
  rw [hpath]
  exact fdtPathOffset_eq h hfit

/-- **The regions that the device tree reports** are those of the tree. -/
theorem fdtRegions_eq (h : b.Encodes t) (hfit : t.Fits) (hsize : b.size < 2 ^ 31) :
    fdtRegions b = some t.reservedRegions := by
  rw [fdtRegions, fdtPathOffset_reserved h hfit, ← t.map_fst_find, DeviceTree.reservedRegions]
  cases hfind : t.items.find? fun x => Names (cstr "/reserved-memory") x.1.path with
  | none =>
    simp only [Option.map_none, Option.getD_none, Option.bind_eq_bind, Option.bind_some]
    rw [if_pos (by decide)]
    rfl
  | some item =>
    obtain ⟨x, children⟩ := item
    obtain ⟨offDtStrings, hstrings, hnode, hchildren⟩ :=
      childRegions_eq h hsize (List.mem_of_find?_eq_some hfind)
    have hlt := Blob.lt_size_of_cell hnode.begin
    have hown : parseStartAndSize b ((x.getprop (cstr "reg")).map FdtProperty.result) =
        some x.regRegion :=
      parseStartAndSize_eq fun pr hpr => hnode.bytes_of_mem (List.mem_of_find?_eq_some hpr)
    have hoff : toInt x.off = x.off := toInt_of_lt (by omega)
    rw [Option.map_some, Option.map_some, Option.getD_some]
    dsimp only
    rw [hoff, Option.bind_eq_bind, Option.bind_some, if_neg (by omega), Option.bind_eq_bind,
      fdtGetprop_result hstrings hsize hnode (by decide), Option.bind_some, hown,
        Option.bind_eq_bind,
      Option.bind_some, hchildren, Option.bind_eq_bind, Option.bind_some, Option.pure_def]

/-- The calls for the indices 0, 1, 2, ... report exactly the regions `l`. -/
structure Reports (b : Blob) (l : List Region) : Prop where
  report : ∀ (i : ℕ) (h : i < l.length), fdtGetReservedMemoryRegion b i = some (some l[i])
  /-- `-1` from the number of regions on -/
  last : ∀ i : ℕ, l.length ≤ i → fdtGetReservedMemoryRegion b i = some none

/-- **Main.** In a blob of less than 2 GiB, `fdt_get_reserved_memory_region` enumerates the regions
of the tree in document order. -/
theorem reports_of_encodes (h : b.Encodes t) (hfit : t.Fits) (hsize : b.size < 2 ^ 31) :
    Reports b t.reservedRegions := by
  have hget : ∀ i : ℕ, fdtGetReservedMemoryRegion b i = some t.reservedRegions[i]? := by
    intro i
    rw [fdtGetReservedMemoryRegion_eq (fdtRegions_eq h hfit hsize) (Int.natCast_nonneg i),
      Int.toNat_natCast]
  constructor
  · intro i hi
    rw [hget, List.getElem?_eq_getElem hi]
  · intro i hi
    rw [hget, List.getElem?_eq_none hi]

theorem sampleTree_fits (off : ℕ) : (sampleTree off).Fits := by
  intro x hx
  simp only [sampleTree, DeviceTree.nodes, Forest.nodes, List.nil_append, List.mem_cons,
    List.not_mem_nil, or_false] at hx
  rcases hx with rfl | rfl
  · exact (by decide : (render []).length + 1 ≤ pathMax)
  · exact (by decide : (render [cstr "reserved-memory"]).length + 1 ≤ pathMax)

/-- The region of the one node. -/
theorem reports_of_encodes_near : (sampleTree 40).reservedRegions = [⟨0x80000000, 0x1000⟩] ∧
    Reports nearBlob (sampleTree 40).reservedRegions :=
  ⟨by decide +kernel, reports_of_encodes nearBlob_encodes (sampleTree_fits 40) (by decide)⟩

/-- A name that does not fit the buffer of `fdt_path_offset`. -/
def longName : List Byte := List.replicate 1023 0x61

/-- A node with this name before `/reserved-memory`. -/
def longTree : DeviceTree where
  off := 40
  name := []
  props := []
  children := .node 48 longName [] .nil
    (.node 1080 (cstr "reserved-memory")
      [⟨cstr "reg", [0x80, 0, 0, 0, 0, 0, 0x10, 0], 1112⟩] .nil .nil)

/-- An encoding of it. -/
def longBlob : Blob where
  base := 0x80000000
  size := 1136
  byte i :=
    if i < 52 then
      [0xd0, 0x0d, 0xfe, 0xed, 0, 0, 4, 0x70, 0, 0, 0, 40, 0, 0, 4, 0x6c, 0, 0, 0, 0, 0, 0, 0, 0, 0,
        0, 0, 0, 0, 0, 0, 0, 0, 0, 0, 0, 0, 0, 0, 0, 0, 0, 0, 1, 0, 0, 0, 0, 0, 0, 0, 1].getD i 0
    else if i < 1075 then 0x61
    else
      ([0, 0, 0, 0, 2, 0, 0, 0, 1] ++ cstr "reserved-memory" ++ [0, 0, 0, 0, 3, 0, 0, 0, 8, 0, 0, 0,
        0, 0x80, 0, 0, 0, 0, 0, 0x10, 0, 0, 0, 0, 2, 0, 0, 0, 2, 0, 0, 0, 9] ++
        cstr "reg" ++ [0]).getD
        (i - 1075) 0

theorem longBlob_encodes : longBlob.Encodes longTree := by
  have hreg : longBlob.HoldsProps 1132 [⟨cstr "reg", [0x80, 0, 0, 0, 0, 0, 0x10, 0], 1112⟩]
      1100 1120 :=
    .prop (by decide +kernel) (by decide +kernel : _ = some 8#32) rfl
      (by decide +kernel : _ = some 0#32) ⟨(by decide : 0 ∉ cstr "reg"), by decide,
        by decide +kernel⟩
      rfl ⟨by decide, by decide +kernel⟩ (.nil 1120)
  have hlong : longBlob.HoldsString 52 longName :=
    ⟨fun h => absurd (List.eq_of_mem_replicate h) (by decide), by decide +kernel, by decide +kernel⟩
  have halign : alignUpPtr (48 + 4 + longName.length + 1) = 1076 := by decide +kernel
  refine ⟨by decide +kernel, 40, 1132, 48, 1124, 1128, by decide +kernel, by decide +kernel, rfl,
    .nil 40, by decide +kernel, ⟨List.not_mem_nil, by decide, by decide +kernel⟩, .nil 48, ?_,
    by decide +kernel, .nil 1128, by decide +kernel⟩
  apply Blob.HoldsForest.node (by decide +kernel) hlong (by decide +kernel) (by decide +kernel)
    (by rw [halign]; exact .nil 1076) (.nil 1076) (by decide +kernel)
  exact .node (by decide +kernel) ⟨by decide, by decide, by decide +kernel⟩ (by decide) (by decide)
    hreg (.nil 1120) (by decide +kernel) (.nil 1124)

/-- At 2 GiB the offset of the node is negative as an `int` and no region is reported, and a path
that is too long makes `fdt_path_offset` write behind its buffer. -/
theorem not_reports : (∃ b t, Blob.Encodes b t ∧ t.Fits ∧ ¬ Reports b t.reservedRegions) ∧
    ∃ b t, Blob.Encodes b t ∧ b.size < 2 ^ 31 ∧ ¬ Reports b t.reservedRegions := by
  constructor
  · refine ⟨farBlob, sampleTree (2 ^ 31), farBlob_encodes, sampleTree_fits _, fun h => ?_⟩
    have hregions : (sampleTree (2 ^ 31)).reservedRegions = [⟨0x80000000, 0x1000⟩] := by
      decide +kernel
    have hreport := h.report 0 (by rw [hregions]; decide)
    have hpath : fdtPathOffset farBlob (cstr "/reserved-memory") = some (24 - 2 ^ 31) := by
      have hfind : ((sampleTree (2 ^ 31)).find (cstr "/reserved-memory")).map FdtNode.off =
          some (2 ^ 31 + 24) := by decide +kernel
      obtain ⟨x, hx, hoff⟩ := Option.map_eq_some_iff.1 hfind
      rw [fdtPathOffset_reserved farBlob_encodes (sampleTree_fits _), hx, Option.map_some,
        Option.getD_some, hoff, toInt]
      norm_num
    have hnone : fdtGetReservedMemoryRegion farBlob 0 = some none := by
      rw [fdtGetReservedMemoryRegion, hpath]
      rfl
    cases hreport.symm.trans hnone
  · refine ⟨longBlob, longTree, longBlob_encodes, by decide, fun h => ?_⟩
    have hregions : longTree.reservedRegions = [⟨0x80000000, 0x1000⟩] := by decide +kernel
    have hreport := h.report 0 (by rw [hregions]; decide)
    have hnone : fdtGetReservedMemoryRegion longBlob 0 = none := by
      have hpath : fdtPathOffset longBlob (cstr "/reserved-memory") = none := by decide +kernel
      rw [fdtGetReservedMemoryRegion, hpath]
      rfl
    cases hreport.symm.trans hnone

end BareMetalOS.Boot
