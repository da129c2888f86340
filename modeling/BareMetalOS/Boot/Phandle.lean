import BareMetalOS.Boot.Values

/-!
# Nodes by phandle

`fdt_get_node_by_phandle` walks over the tokens and remembers the last node that began. Since the
properties of a node come before its children, this is the node that owns the property at hand,
though the walk never goes back to the parent at the end of a node (`nodeByPhandleLoop_forest`).
-/

namespace BareMetalOS.Boot

open Memory

variable {b : Blob} {strings p q n : ℕ} {name : List Byte} {above : List (List Byte)} {current : ℤ}
  {phandle : BitVec 32}

/-- `strcmp(prop_name, "phandle") == 0 || strcmp(prop_name, "linux,phandle") == 0`. -/
def isPhandleName (b : Blob) (propName : ℕ) : Option Bool := do
  let eq ← strcmpEq b propName (cstr "phandle")
  if eq then return true else strcmpEq b propName (cstr "linux,phandle")

/-- The token loop of `fdt_get_node_by_phandle`. -/
def nodeByPhandleLoop (b : Blob) (strings : ℕ) (phandle : BitVec 32) : ℕ → ℕ → ℤ → Option ℤ
  | 0, _, _ => none
  | n + 1, ptr, currentNodeOffset => do
    let token ← b.cell ptr
    let tokenOffset := toInt ptr
    let ptr := ptr + 4
    if token = fdtBeginNode then
      let nameLen ← strlen b ptr
      nodeByPhandleLoop b strings phandle n (alignUpPtr (ptr + nameLen + 1)) tokenOffset
    else if token = fdtEndNode then nodeByPhandleLoop b strings phandle n ptr currentNodeOffset
    else if token = fdtProp then
      let len ← b.cell ptr
      let nameoff ← b.cell (ptr + 4)
      let ptr := ptr + 8
      let eq ← isPhandleName b (strings + nameoff.toNat)
      if eq ∧ 4 ≤ len.toNat then
        let val ← b.cell ptr
        if val = phandle then return currentNodeOffset
        nodeByPhandleLoop b strings phandle n (alignUpPtr (ptr + len.toNat)) currentNodeOffset
      else nodeByPhandleLoop b strings phandle n (alignUpPtr (ptr + len.toNat)) currentNodeOffset
    else if token = fdtNop then nodeByPhandleLoop b strings phandle n ptr currentNodeOffset
    else if token = fdtEnd then return -1
    else nodeByPhandleLoop b strings phandle n ptr currentNodeOffset

/-- `fdt_get_node_by_phandle`. -/
def fdtGetNodeByPhandle (b : Blob) (phandle : BitVec 32) : Option ℤ := do
  let magic ← b.magic
  if magic ≠ 0xd00dfeed then return -1
  let offDtStruct ← b.offDtStruct
  let strings ← b.offDtStrings
  nodeByPhandleLoop b strings.toNat phandle (b.size + 1) offDtStruct.toNat (toInt offDtStruct.toNat)

/-! ## The node of a phandle -/

/-- A property that gives its node this phandle. -/
def FdtProperty.IsPhandle (pr : FdtProperty) (phandle : BitVec 32) : Prop :=
  (pr.name = cstr "phandle" ∨ pr.name = cstr "linux,phandle") ∧ firstCell pr.value = some phandle

instance (pr : FdtProperty) (phandle : BitVec 32) : Decidable (pr.IsPhandle phandle) :=
  inferInstanceAs (Decidable (_ ∧ _))

/-- A node that owns such a property. -/
def FdtNode.HasPhandle (x : FdtNode) (phandle : BitVec 32) : Prop :=
  ∃ pr ∈ x.props, pr.IsPhandle phandle

instance (x : FdtNode) (phandle : BitVec 32) : Decidable (x.HasPhandle phandle) :=
  inferInstanceAs (Decidable (∃ pr ∈ x.props, _))

/-- The first node in preorder with this phandle. -/
def DeviceTree.findPhandle (t : DeviceTree) (phandle : BitVec 32) : Option FdtNode :=
  t.nodes.find? fun x => x.HasPhandle phandle

/-! ## The walk -/

theorem isPhandleName_eq {s : List Byte} (h : b.HoldsString p s) :
    isPhandleName b p = some (decide (s = cstr "phandle" ∨ s = cstr "linux,phandle")) := by
  rw [isPhandleName, h.strcmpEq_eq (by decide), h.strcmpEq_eq (by decide)]
  by_cases heq : s = cstr "phandle" <;> simp [heq]

/-- The walk over one property. -/
theorem nodeByPhandleLoop_prop {pr : FdtProperty} {len nameoff : BitVec 32}
    (hcell : b.cell p = some fdtProp) (hlen : b.cell (p + 4) = some len)
    (hvalue : len.toNat = pr.value.length) (hoff : b.cell (p + 8) = some nameoff)
    (hname : b.HoldsString (strings + nameoff.toNat) pr.name)
    (hbytes : b.HoldsBytes (p + 12) pr.value) :
    nodeByPhandleLoop b strings phandle (n + 1) p current =
      if pr.IsPhandle phandle then some current
      else
        nodeByPhandleLoop b strings phandle n (alignUpPtr (p + 12 + pr.value.length)) current := by
  rw [nodeByPhandleLoop, hcell]
  show (b.cell (p + 4)).bind _ = _
  rw [hlen, Option.bind_some]
  show (b.cell (p + 8)).bind _ = _
  rw [hoff, Option.bind_some]
  show (isPhandleName b (strings + nameoff.toNat)).bind _ = _
  rw [isPhandleName_eq hname, Option.bind_some, hvalue]
  by_cases hnamed : pr.name = cstr "phandle" ∨ pr.name = cstr "linux,phandle"
  · by_cases hshort : 4 ≤ pr.value.length
    · obtain ⟨c, hc⟩ := exists_firstCell hshort
      have hload : b.cell (p + 12) = some c := (cell_of_holdsBytes hbytes hshort).trans hc
      rw [if_pos ⟨decide_eq_true hnamed, hshort⟩]
      show (b.cell (p + 12)).bind _ = _
      rw [hload, Option.bind_some]
      by_cases heq : c = phandle
      · rw [if_pos heq, if_pos ⟨hnamed, hc.trans (congrArg some heq)⟩]
        rfl
      · rw [if_neg heq, if_neg fun h => heq (Option.some.inj (hc.symm.trans h.2))]
    · rw [if_neg fun h => hshort h.2, if_neg]
      rintro ⟨-, h⟩
      rw [firstCell_eq_none.2 (by omega)] at h
      cases h
  · rw [if_neg fun h => hnamed (of_decide_eq_true h.1), if_neg fun h => hnamed h.1]

/-- The walk over the properties of the node that began last. -/
theorem nodeByPhandleLoop_props {l : List FdtProperty} (h : b.HoldsProps strings l p q)
    (phandle : BitVec 32) (current : ℤ) : ∃ k ≤ q - p, ∀ n,
      nodeByPhandleLoop b strings phandle (n + k) p current =
        if ∃ pr ∈ l, pr.IsPhandle phandle then some current
        else nodeByPhandleLoop b strings phandle n q current := by
  induction h with
  | nil p => exact ⟨0, by omega, fun n => by simp⟩
  | @nop l p q hcell hl ih =>
    obtain ⟨k, hk, hloop⟩ := ih
    have := hl.le
    refine ⟨k + 1, by omega, fun n => ?_⟩
    rw [← hloop n, ← Nat.add_assoc, nodeByPhandleLoop, hcell]
    rfl
  | @prop pr l p q len nameoff hcell hlen hvalue hoff hname hpos hbytes hl ih =>
    obtain ⟨k, hk, hloop⟩ := ih
    have := hl.le
    have := le_alignUpPtr (p + 12 + pr.value.length)
    have hstep :=
      fun n => @nodeByPhandleLoop_prop b strings p n current phandle pr len nameoff hcell
      hlen hvalue hoff hname hbytes
    by_cases hpr : pr.IsPhandle phandle
    · refine ⟨1, by omega, fun n => ?_⟩
      rw [hstep, if_pos hpr, if_pos ⟨pr, List.mem_cons_self, hpr⟩]
    · refine ⟨k + 1, by omega, fun n => ?_⟩
      rw [← Nat.add_assoc, hstep, if_neg hpr, hloop]
      simp [hpr]

/-- The walk at the beginning of a node. -/
theorem nodeByPhandleLoop_begin (hcell : b.cell p = some fdtBeginNode)
    (hname : b.HoldsString (p + 4) name) :
    nodeByPhandleLoop b strings phandle (n + 1) p current =
      nodeByPhandleLoop b strings phandle n (alignUpPtr (p + 4 + name.length + 1)) (toInt p) := by
  rw [nodeByPhandleLoop, hcell]
  show (strlen b (p + 4)).bind _ = _
  rw [hname.strlen_eq]
  rfl

/-- The walk at the end of a node. -/
theorem nodeByPhandleLoop_end (hcell : b.cell p = some fdtEndNode) :
    nodeByPhandleLoop b strings phandle (n + 1) p current =
      nodeByPhandleLoop b strings phandle n (p + 4) current := by
  rw [nodeByPhandleLoop, hcell]
  rfl

/-- **The walk over sibling nodes** stops at the first of them in preorder with this phandle, or
goes on behind them. The node it remembers then is of no account: no property follows a child. -/
theorem nodeByPhandleLoop_forest {f : Forest} (h : b.HoldsForest strings f p q)
    (phandle : BitVec 32) (above : List (List Byte)) : ∃ k ≤ q - p, ∀ current, ∃ last, ∀ n,
      nodeByPhandleLoop b strings phandle (n + k) p current =
        (((f.nodes above).find? fun x => x.HasPhandle phandle).map fun x => toInt x.off).or
          (nodeByPhandleLoop b strings phandle n q last) := by
  induction h generalizing above with
  | nil p => exact ⟨0, by omega, fun current => ⟨current, fun n => rfl⟩⟩
  | @nop f p q hcell hf ih =>
    obtain ⟨k, hk, hloop⟩ := ih above
    have := hf.le
    refine ⟨k + 1, by omega, fun current => ?_⟩
    obtain ⟨last, hlast⟩ := hloop current
    refine ⟨last, fun n => ?_⟩
    rw [← hlast n, ← Nat.add_assoc, nodeByPhandleLoop, hcell]
    rfl
  | @node p q r s name props children siblings hcell hname hne hsep hprops hch hend hsib ih₁ ih₂ =>
    have hlen := le_alignUpPtr (p + 4 + name.length + 1)
    have := hprops.le
    have := hch.le
    have := hsib.le
    obtain ⟨k₁, hk₁, hloop₁⟩ := nodeByPhandleLoop_props hprops phandle (toInt p)
    by_cases hhere : ∃ pr ∈ props, pr.IsPhandle phandle
    · refine ⟨k₁ + 1, by omega, fun current => ⟨current, fun n => ?_⟩⟩
      have hnode : FdtNode.HasPhandle ⟨above ++ [name], p, props⟩ phandle := hhere
      rw [← Nat.add_assoc, nodeByPhandleLoop_begin hcell hname, hloop₁, if_pos hhere, Forest.nodes,
        List.find?_cons_of_pos (by simpa using hnode), Option.map_some, Option.some_or]
    · have hnode : ¬ FdtNode.HasPhandle ⟨above ++ [name], p, props⟩ phandle := hhere
      obtain ⟨k₂, hk₂, hloop₂⟩ := ih₁ (above ++ [name])
      obtain ⟨k₃, hk₃, hloop₃⟩ := ih₂ above
      obtain ⟨last₂, hlast₂⟩ := hloop₂ (toInt p)
      obtain ⟨last₃, hlast₃⟩ := hloop₃ last₂
      refine ⟨k₃ + 1 + k₂ + k₁ + 1, by omega, fun current => ⟨last₃, fun n => ?_⟩⟩
      rw [show n + (k₃ + 1 + k₂ + k₁ + 1) = n + k₃ + 1 + k₂ + k₁ + 1 by omega,
        nodeByPhandleLoop_begin hcell hname, hloop₁, if_neg hhere, hlast₂,
        nodeByPhandleLoop_end hend, hlast₃, Forest.nodes,
        List.find?_cons_of_neg (by simpa using hnode), List.find?_append, Option.map_or,
        Option.or_assoc]

/-- The nodes before the first one with a phandle have no offset that differs from it as an
`int`. -/
theorem fdtGetNodeByPhandle_eq {t : DeviceTree} (h : b.Encodes t) (phandle : BitVec 32) :
    fdtGetNodeByPhandle b phandle =
      some (((t.findPhandle phandle).map fun x => toInt x.off).getD (-1)) := by
  obtain ⟨offDtStruct, offDtStrings, q, r, s, hstruct, hstrings, -, hnops, hbegin, hname, hprops,
    hch, hend, hnops', hlast⟩ := h.blocks
  have hlen := le_alignUpPtr (t.off + 4 + t.name.length + 1)
  have hle₁ := hnops.le
  have hle₂ := hprops.le
  have hle₃ := hch.le
  have hle₄ := hnops'.le
  have hlt := Blob.lt_size_of_cell hlast
  obtain ⟨k₀, hk₀, hloop₀⟩ := nodeByPhandleLoop_forest hnops phandle []
  obtain ⟨k₁, hk₁, hloop₁⟩ := nodeByPhandleLoop_props hprops phandle (toInt t.off)
  obtain ⟨k₂, hk₂, hloop₂⟩ := nodeByPhandleLoop_forest hch phandle []
  obtain ⟨k₃, hk₃, hloop₃⟩ := nodeByPhandleLoop_forest hnops' phandle []
  obtain ⟨last₀, hlast₀⟩ := hloop₀ (toInt offDtStruct.toNat)
  obtain ⟨last₂, hlast₂⟩ := hloop₂ (toInt t.off)
  obtain ⟨last₃, hlast₃⟩ := hloop₃ last₂
  have hstart : fdtGetNodeByPhandle b phandle = nodeByPhandleLoop b offDtStrings.toNat phandle
      (b.size + 1) offDtStruct.toNat (toInt offDtStruct.toNat) := by
    rw [fdtGetNodeByPhandle, h.magic, hstruct, hstrings]
    rfl
  have hfuel : b.size + 1 = b.size - k₀ - 1 - k₁ - k₂ - 1 - k₃ + 1 + k₃ + 1 + k₂ + k₁ + 1 + k₀ := by
    omega
  have hend' : ∀ m, nodeByPhandleLoop b offDtStrings.toNat phandle (m + 1) s last₃ = some (-1) := by
    intro m
    rw [nodeByPhandleLoop, hlast]
    rfl
  rw [hstart, hfuel, hlast₀, nodeByPhandleLoop_begin hbegin hname, hloop₁, DeviceTree.findPhandle,
    DeviceTree.nodes]
  by_cases hroot : ∃ pr ∈ t.props, pr.IsPhandle phandle
  · have hnode : FdtNode.HasPhandle ⟨[], t.off, t.props⟩ phandle := hroot
    rw [if_pos hroot, List.find?_cons_of_pos (by simpa using hnode), Forest.nodes, List.find?_nil,
      Option.map_none, Option.none_or, Option.map_some, Option.getD_some]
  · have hnode : ¬ FdtNode.HasPhandle ⟨[], t.off, t.props⟩ phandle := hroot
    rw [if_neg hroot, List.find?_cons_of_neg (by simpa using hnode), hlast₂,
      nodeByPhandleLoop_end hend, hlast₃, hend', Forest.nodes, List.find?_nil, Option.map_none,
      Option.none_or, Option.none_or]
    cases (t.children.nodes []).find? fun x => decide (x.HasPhandle phandle) with
    | none => rw [Option.map_none, Option.none_or, Option.getD_none]
    | some x => rw [Option.map_some, Option.some_or, Option.getD_some]

/-! ## The node is found -/

/-- What the walk finds for a phandle is the first node in preorder with it. -/
structure FindsPhandle (b : Blob) (t : DeviceTree) (phandle : BitVec 32) : Prop where
  /-- The offset of the node, or `-1`. -/
  offset : fdtGetNodeByPhandle b phandle = some (match t.findPhandle phandle with
    | some x => (x.off : ℤ)
    | none => -1)
  none_iff : fdtGetNodeByPhandle b phandle = some (-1) ↔ ∀ x ∈ t.nodes, ¬ x.HasPhandle phandle
  /-- At this offset `fdt_getprop` reads the properties of the node. -/
  getprop : ∀ x, t.findPhandle phandle = some x → ∀ name, 0 ∉ name →
    fdtGetprop b x.off name = some ((x.getprop name).map fun pr => (pr.off, (pr.value.length : ℤ)))

theorem Blob.Encodes.node_of_mem {t : DeviceTree} {x : FdtNode} (h : b.Encodes t)
    (hx : x ∈ t.nodes) : ∃ offDtStrings, b.offDtStrings = some offDtStrings ∧
      b.HoldsNode offDtStrings.toNat x := by
  obtain ⟨-, offDtStrings, _, _, _, -, hstrings, -, -, hbegin, hroot, hprops, hch, hend,
    -⟩ := h.blocks
  refine ⟨offDtStrings, hstrings, ?_⟩
  rcases List.mem_cons.1 hx with rfl | hx
  · exact ⟨hbegin, _, _, _, _, hroot, hprops, hch, hend⟩
  · exact hch.node_of_mem hx

/-- **Main.** In a blob of less than 2 GiB, `fdt_get_node_by_phandle` finds the first node in
preorder with the phandle, and `fdt_getprop` reads this node's properties there. -/
theorem findsPhandle_of_encodes {t : DeviceTree} (h : b.Encodes t) (hsize : b.size < 2 ^ 31)
    (phandle : BitVec 32) : FindsPhandle b t phandle := by
  have heq : fdtGetNodeByPhandle b phandle = some (match t.findPhandle phandle with
      | some x => (x.off : ℤ)
      | none => -1) := by
    rw [fdtGetNodeByPhandle_eq h]
    cases hx : t.findPhandle phandle with
    | none => rw [Option.map_none, Option.getD_none]
    | some x =>
      obtain ⟨_, -, hnode⟩ := h.node_of_mem (List.mem_of_find?_eq_some hx)
      have hlt := Blob.lt_size_of_cell hnode.begin
      rw [Option.map_some, Option.getD_some, toInt_of_lt (by omega)]
  refine ⟨heq, ?_, fun x hx name hname => ?_⟩
  swap
  · obtain ⟨offDtStrings, hstrings, hnode⟩ := h.node_of_mem (List.mem_of_find?_eq_some hx)
    exact fdtGetprop_result hstrings hsize hnode hname
  have hnone : (∀ x ∈ t.nodes, ¬ x.HasPhandle phandle) ↔ t.findPhandle phandle = none := by
    simp [DeviceTree.findPhandle]
  rw [heq, hnone, Option.some_inj]
  cases t.findPhandle phandle with
  | none => simp
  | some x => simp only [reduceCtorEq]

/-! ## A tree at two offsets -/

/-- The root with the phandle 5 and a child `reserved-memory`, which has a property `reg`. -/
def sampleTree (off : ℕ) : DeviceTree where
  off := off
  name := []
  props := [⟨cstr "phandle", [0, 0, 0, 5], off + 20⟩]
  children := .node (off + 24) (cstr "reserved-memory")
    [⟨cstr "reg", [0x80, 0, 0, 0, 0, 0, 0x10, 0], off + 56⟩] .nil .nil

/-- The structure block of the tree, and the strings behind it. -/
def sampleItems : List Byte :=
  [0, 0, 0, 1, 0, 0, 0, 0, 0, 0, 0, 3, 0, 0, 0, 4, 0, 0, 0, 0, 0, 0, 0, 5, 0, 0, 0, 1] ++
    cstr "reserved-memory" ++ [0, 0, 0, 0, 3, 0, 0, 0, 8, 0, 0, 0, 8, 0x80, 0, 0, 0, 0, 0, 0x10, 0,
    0, 0, 0, 2, 0, 0, 0, 2, 0, 0, 0, 9] ++ cstr "phandle" ++ [0] ++ cstr "reg" ++ [0]

/-- The blob with the structure block at an offset. -/
def sampleBlob (header : List Byte) (off : ℕ) : Blob where
  base := 0x80000000
  size := off + 88
  byte i := if i < 16 then header.getD i 0 else sampleItems.getD (i - off) 0

theorem sampleTree_encoded {off : BitVec 32} (hmagic : b.magic = some 0xd00dfeed)
    (hstruct : b.offDtStruct = some off) (hstrings : b.offDtStrings = some (off + 76))
    (halign : off.toNat % 4 = 0) (hoff : off.toNat + 76 < 2 ^ 32)
    (h : b.HoldsBytes off.toNat sampleItems) : b.Encodes (sampleTree off.toNat) := by
  have hbytes : ∀ (n : ℕ) (s l : List Byte), n ≤ sampleItems.length → sampleItems.drop n = s ++ l →
      b.HoldsBytes (off.toNat + n) s := by
    intro n s l hn hs
    have := h.drop hn
    rw [hs] at this
    exact this.append_left
  have hcell : ∀ (n : ℕ) (c : BitVec 32), n + 4 ≤ sampleItems.length →
      firstCell (sampleItems.drop n) = some c → b.cell (off.toNat + n) = some c := by
    intro n c hn hc
    rw [cell_of_holdsBytes (h.drop (by omega)) (by rw [List.length_drop]; omega), hc]
  have hbase : (off + 76).toNat = off.toNat + 76 := by
    rw [BitVec.toNat_add, show (76 : BitVec 32).toNat = 76 from rfl]
    omega
  refine ⟨hmagic, off, off + 76, off.toNat + 24, off.toNat + 68, off.toNat + 72, hstruct, hstrings,
    halign, .nil _, hcell 0 _ (by decide) rfl, ⟨by simp [sampleTree], hbytes 4 _ _ (by decide) rfl⟩,
    ?_, ?_, hcell 68 _ (by decide) rfl, .nil _, hcell 72 _ (by decide) rfl⟩
  · have hstart : alignUpPtr (off.toNat + 4 + ([] : List Byte).length + 1) = off.toNat + 8 := by
      rw [alignUpPtr, List.length_nil]
      omega
    have hstop : alignUpPtr (off.toNat + 8 + 12 + 4) = off.toNat + 24 := by
      rw [alignUpPtr]
      omega
    simp only [sampleTree]
    rw [hstart, hbase]
    refine .prop (hcell 8 _ (by decide) rfl) (hcell 12 4 (by decide) rfl) rfl
      (hcell 16 0 (by decide) rfl) ⟨(by decide : 0 ∉ cstr "phandle"),
        hbytes 76 _ _ (by decide) rfl⟩ rfl
      (hbytes 20 _ _ (by decide) rfl) ?_
    rw [List.length_cons, List.length_cons, List.length_cons, List.length_singleton, hstop]
    exact .nil _
  · have hstart : alignUpPtr (off.toNat + 24 + 4 + (cstr "reserved-memory").length + 1) =
        off.toNat + 44 := by
      rw [alignUpPtr, show (cstr "reserved-memory").length = 15 from rfl]
      omega
    have hstop : alignUpPtr (off.toNat + 44 + 12 + 8) = off.toNat + 64 := by
      rw [alignUpPtr]
      omega
    simp only [sampleTree]
    rw [hbase]
    refine .node (hcell 24 _ (by decide) rfl) ⟨by decide, hbytes 28 _ _ (by decide) rfl⟩ (by decide)
      (by decide) ?_ (.nil _) (hcell 64 _ (by decide) rfl) (.nil _)
    rw [hstart]
    refine .prop (hcell 44 _ (by decide) rfl) (hcell 48 8 (by decide) rfl) rfl
      (hcell 52 8 (by decide) rfl) ⟨(by decide : 0 ∉ cstr "reg"), hbytes 84 _ _ (by decide) rfl⟩ rfl
      (hbytes 56 _ _ (by decide) rfl) ?_
    change Blob.HoldsProps b _ [] (alignUpPtr (off.toNat + 44 + 12 + 8)) (off.toNat + 64)
    rw [hstop]
    exact .nil _

/-- The blob with the structure block behind the header. -/
def nearBlob : Blob :=
  sampleBlob [0xd0, 0x0d, 0xfe, 0xed, 0, 0, 0, 128, 0, 0, 0, 40, 0, 0, 0, 116] 40

theorem nearBlob_encodes : nearBlob.Encodes (sampleTree 40) :=
  @sampleTree_encoded _ 40 rfl rfl rfl rfl (by decide) ⟨by decide, by decide +kernel⟩

/-- The blob with the structure block at 2 GiB. -/
def farBlob : Blob :=
  sampleBlob [0xd0, 0x0d, 0xfe, 0xed, 0x80, 0, 0, 88, 0x80, 0, 0, 0, 0x80, 0, 0, 76] (2 ^ 31)

theorem farBlob_encodes : farBlob.Encodes (sampleTree (2 ^ 31)) :=
  @sampleTree_encoded _ (2 ^ 31) rfl rfl rfl rfl (by decide) ⟨by decide, by decide +kernel⟩

/-- The phandle 5. -/
theorem findsPhandle_of_encodes_near : fdtGetNodeByPhandle nearBlob 5 = some 40 ∧
    FindsPhandle nearBlob (sampleTree 40) 5 :=
  ⟨by decide +kernel, findsPhandle_of_encodes nearBlob_encodes (by decide) 5⟩

/-- At 2 GiB the offset of the root is negative as an `int`. -/
theorem not_findsPhandle_far : ∃ b t, Blob.Encodes b t ∧ ¬ FindsPhandle b t 5 := by
  refine ⟨farBlob, sampleTree (2 ^ 31), farBlob_encodes, fun h => ?_⟩
  have heq := (fdtGetNodeByPhandle_eq farBlob_encodes 5).symm.trans h.offset
  have hfind : (sampleTree (2 ^ 31)).findPhandle 5 =
      some ⟨[], 2 ^ 31, [⟨cstr "phandle", [0, 0, 0, 5], 2 ^ 31 + 20⟩]⟩ := by decide +kernel
  rw [hfind, Option.map_some, Option.getD_some, toInt, Option.some_inj] at heq
  norm_num at heq

end BareMetalOS.Boot
