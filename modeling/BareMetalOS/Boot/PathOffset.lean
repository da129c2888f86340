import BareMetalOS.Boot.DeviceTree

/-!
# The token walk finds the node

`fdt_path_offset` walks over the tokens of the structure block with the path of the current node in
a buffer. On a blob that encodes a tree, the walk over the encoding of sibling nodes either stops at
the first of them in preorder that the path names, or comes to the end of the encoding with the
buffer as it was before (`pathOffsetLoop_forest`). Since a node is reached only if no node above it
is named, it does not matter that `match_path` also accepts nodes below a named one.
-/

namespace BareMetalOS.Boot

open Memory

variable {b : Blob} {strings p q n : ℕ} {path s name : List Byte} {above : List (List Byte)}

/-! ## Strings -/

theorem le_alignUpPtr (x : ℕ) : x ≤ alignUpPtr x := by
  rw [alignUpPtr]
  omega

theorem Blob.HoldsBytes.cons {x : Byte} (h : b.HoldsBytes p (x :: s)) :
    b.get p = some x ∧ b.HoldsBytes (p + 1) s := by
  obtain ⟨hsize, htake⟩ := h
  rw [List.length_cons] at hsize
  rw [List.length_cons, Blob.take, List.cons.injEq] at htake
  refine ⟨?_, by omega, htake.2⟩
  rw [Blob.get, if_pos (by omega), htake.1]

theorem strlenLoop_eq (h : b.HoldsBytes p (s ++ [0])) (hs : 0 ∉ s) (hn : s.length < n) :
    strlenLoop b n p = some s.length := by
  induction s generalizing p n with
  | nil =>
    obtain ⟨n, rfl⟩ : ∃ m, n = m + 1 := ⟨n - 1, by simp at hn; omega⟩
    rw [strlenLoop, h.cons.1]
    rfl
  | cons x s ih =>
    obtain ⟨n, rfl⟩ : ∃ m, n = m + 1 := ⟨n - 1, by simp at hn; omega⟩
    rw [List.mem_cons, not_or] at hs
    obtain ⟨hx, hrest⟩ := h.cons
    rw [strlenLoop, hx]
    simp only [Option.bind_eq_bind, Option.bind_some, if_neg (Ne.symm hs.1),
      ih hrest hs.2 (by simpa using hn)]
    rfl

theorem Blob.HoldsString.strlen_eq (h : b.HoldsString p s) : strlen b p = some s.length := by
  have hsize := h.2.1
  rw [List.length_append, List.length_singleton] at hsize
  exact strlenLoop_eq h.2 h.1 (by omega)

theorem Blob.HoldsBytes.append_left {l : List Byte} (h : b.HoldsBytes p (s ++ l)) :
    b.HoldsBytes p s := by
  induction s generalizing p with
  | nil =>
    have := h.1
    exact ⟨by simp at this ⊢; omega, rfl⟩
  | cons x s ih =>
    obtain ⟨hx, hrest⟩ := h.cons
    obtain ⟨hsize, htake⟩ := ih hrest
    refine ⟨by rw [List.length_cons]; omega, ?_⟩
    have hbyte : b.byte p = x := by
      rw [Blob.get] at hx
      split at hx <;> simp_all
    rw [List.length_cons, Blob.take, hbyte, htake]

theorem Blob.HoldsString.take_eq (h : b.HoldsString p s) : b.take p s.length = s :=
  h.2.append_left.2

theorem Blob.HoldsString.strcmpEq_eq (h : b.HoldsString p s) (hname : 0 ∉ name) :
    strcmpEq b p name = some (decide (s = name)) := by
  obtain ⟨hs, h⟩ := h
  induction name generalizing p s with
  | nil =>
    cases s with
    | nil =>
      rw [strcmpEq, h.cons.1]
      rfl
    | cons y s =>
      rw [List.mem_cons, not_or] at hs
      rw [strcmpEq, h.cons.1]
      simpa using Ne.symm hs.1
  | cons x name ih =>
    rw [List.mem_cons, not_or] at hname
    cases s with
    | nil =>
      rw [strcmpEq, h.cons.1]
      simp only [Option.bind_eq_bind, Option.bind_some, if_neg hname.1]
      simp
    | cons y s =>
      rw [List.mem_cons, not_or] at hs
      obtain ⟨hy, hrest⟩ := h.cons
      rw [strcmpEq, hy]
      simp only [Option.bind_eq_bind, Option.bind_some]
      by_cases hyx : y = x
      · rw [if_pos hyx, ih hname.2 hs.2 hrest]
        simp [hyx]
      · rw [if_neg hyx]
        simp [hyx]

/-! ## The path buffer -/

/-- A name that a node below the root can have. -/
def NodeName (name : List Byte) : Prop := name ≠ [] ∧ 0x2f ∉ name

theorem render_append (ns : List (List Byte)) (name : List Byte) :
    render (ns ++ [name]) = renderBelow ns ++ 0x2f :: name := by
  cases ns with
  | nil => simp [render, renderBelow]
  | cons n ns => simp [render, renderBelow]

theorem pushPath_render (h : ∀ m ∈ above, NodeName m)
    (hfit : (render (above ++ [name])).length + 1 ≤ pathMax) :
    pushPath (render above) name = some (render (above ++ [name])) := by
  rw [render_append] at hfit ⊢
  cases above with
  | nil =>
    rw [pushPath, if_neg (by simp [render])]
    simp only [render, List.length_singleton, Nat.lt_irrefl, if_false]
    rw [if_pos (by simp [renderBelow] at hfit ⊢; omega)]
    rfl
  | cons m above =>
    have hm : m.length ≠ 0 := fun h₀ => (h m (by simp)).1 (List.length_eq_zero_iff.1 h₀)
    have hlen : 1 < (render (m :: above)).length := by
      simp [render, renderBelow_cons]
      omega
    have hrender : render (m :: above) = renderBelow (m :: above) := rfl
    rw [pushPath, if_neg (by simp [render, renderBelow_cons])]
    simp only [if_pos hlen]
    rw [if_pos (by rw [hrender]; simp at hfit ⊢; omega), hrender]
    simp

theorem popPath_render (hname : NodeName name) :
    popPath (render (above ++ [name])) = render above := by
  have hlen : name.length ≠ 0 := fun h₀ => hname.1 (List.length_eq_zero_iff.1 h₀)
  have hdrop : ((renderBelow above ++ 0x2f :: name).reverse.dropWhile (· ≠ 0x2f)).reverse =
      renderBelow above ++ [0x2f] := by
    rw [List.reverse_append, List.reverse_cons, List.append_assoc, List.dropWhile_append_of_pos]
    · simp
    · intro x hx
      have : x ≠ 0x2f := by
        rintro rfl
        exact hname.2 (List.mem_reverse.1 hx)
      simpa using this
  rw [render_append, popPath, if_neg (by simp; omega), hdrop]
  cases above with
  | nil => rfl
  | cons m above =>
    rw [if_pos (by simp [renderBelow_cons]), List.dropLast_concat]
    rfl

/-! ## The walk -/

theorem Blob.HoldsProps.le {l : List FdtProperty} (h : b.HoldsProps strings l p q) : p ≤ q := by
  induction h with
  | nil => exact le_rfl
  | nop _ _ ih => omega
  | @prop pr l p q len nameoff _ _ _ _ _ _ _ _ ih =>
    have := le_alignUpPtr (p + 12 + pr.value.length)
    omega

/-- The walk passes over the properties of a node. -/
theorem pathOffsetLoop_props {l : List FdtProperty} {current : List Byte}
    (h : b.HoldsProps strings l p q) : ∃ k ≤ q - p, ∀ n,
      pathOffsetLoop b path (n + k) p current = pathOffsetLoop b path n q current := by
  induction h with
  | nil p => exact ⟨0, by omega, fun n => rfl⟩
  | @nop l p q hcell hl ih =>
    obtain ⟨k, hk, hloop⟩ := ih
    have := hl.le
    refine ⟨k + 1, by omega, fun n => ?_⟩
    rw [← hloop n, ← Nat.add_assoc, pathOffsetLoop, hcell]
    rfl
  | @prop pr l p q len nameoff hcell hlen hvalue hoff hname hpos hbytes hl ih =>
    obtain ⟨k, hk, hloop⟩ := ih
    have := hl.le
    have := le_alignUpPtr (p + 12 + pr.value.length)
    refine ⟨k + 1, by omega, fun n => ?_⟩
    rw [← hloop n, ← Nat.add_assoc, pathOffsetLoop, hcell, ← hvalue]
    show (b.cell (p + 4)).bind _ = _
    rw [hlen]
    rfl

theorem Blob.HoldsForest.le {f : Forest} (h : b.HoldsForest strings f p q) : p ≤ q := by
  induction h with
  | nil => exact le_rfl
  | nop _ _ ih => omega
  | @node p q r s name props children siblings _ _ _ _ hprops _ _ _ ih₁ ih₂ =>
    have := le_alignUpPtr (p + 4 + name.length + 1)
    have := hprops.le
    omega

/-- The walk at the beginning of a node. -/
theorem pathOffsetLoop_begin {current current' : List Byte} (hcell : b.cell p = some fdtBeginNode)
    (hname : b.HoldsString (p + 4) name) (hpush : pushPath current name = some current') :
    pathOffsetLoop b path (n + 1) p current = if matchPath current' path then some (toInt p)
      else pathOffsetLoop b path n (alignUpPtr (p + 4 + name.length + 1)) current' := by
  rw [pathOffsetLoop, hcell]
  show (strlen b (p + 4)).bind _ = _
  rw [hname.strlen_eq, Option.bind_some, hname.take_eq]
  show (pushPath current name).bind _ = _
  rw [hpush, Option.bind_some]
  rfl

/-- The walk at the end of a node. -/
theorem pathOffsetLoop_end {current : List Byte} (hcell : b.cell p = some fdtEndNode) :
    pathOffsetLoop b path (n + 1) p current =
      pathOffsetLoop b path n (p + 4) (popPath current) := by
  rw [pathOffsetLoop, hcell]
  rfl

/-- The walk at the end of the tree. -/
theorem pathOffsetLoop_last {current : List Byte} (hcell : b.cell p = some fdtEnd) :
    pathOffsetLoop b path (n + 1) p current = some (-1) := by
  rw [pathOffsetLoop, hcell]
  rfl

/-- At a node whose ancestors are not named, `match_path` decides whether the node is named. -/
theorem matchPath_iff {ns : List (List Byte)} (hsep : ∀ m ∈ ns, (0x2f : Byte) ∉ m)
    (hanc : ∀ ms, ms <+: ns → ms ≠ ns → ¬ Names (0x2f :: path) ms) :
    matchPath (render ns) (0x2f :: path) ↔ Names (0x2f :: path) ns := by
  refine ⟨fun h => ?_, matchPath_render hsep⟩
  obtain ⟨ms, hpre, hms⟩ := exists_prefix_of_matchPath hsep h
  by_cases heq : ms = ns
  · rwa [← heq]
  · exact (hanc ms hpre heq hms).elim

/-- **The walk over sibling nodes** stops at the first node in preorder that the path names, or goes
on behind them. -/
theorem pathOffsetLoop_forest {f : Forest} (h : b.HoldsForest strings f p q)
    (hnames : ∀ m ∈ above, NodeName m) (hanc : ∀ ms, ms <+: above → ¬ Names (0x2f :: path) ms)
    (hfit : ∀ x ∈ f.nodes above, (render x.path).length + 1 ≤ pathMax) :
    ∃ k ≤ q - p, ∀ n, pathOffsetLoop b (0x2f :: path) (n + k) p (render above) =
      (((f.nodes above).find? fun x => Names (0x2f :: path) x.path).map fun x => toInt x.off).or
        (pathOffsetLoop b (0x2f :: path) n q (render above)) := by
  induction h generalizing above with
  | nil p => exact ⟨0, by omega, fun n => rfl⟩
  | @nop f p q hcell hf ih =>
    obtain ⟨k, hk, hloop⟩ := ih hnames hanc hfit
    have := hf.le
    refine ⟨k + 1, by omega, fun n => ?_⟩
    rw [← hloop n, ← Nat.add_assoc, pathOffsetLoop, hcell]
    rfl
  | @node p q r s name props children siblings hcell hname hne hsep hprops hch hend hsib ih₁ ih₂ =>
    have hnames' : ∀ m ∈ above ++ [name], NodeName m := by
      intro m hm
      rcases List.mem_append.1 hm with hm | hm
      · exact hnames m hm
      · rw [List.mem_singleton.1 hm]
        exact ⟨hne, hsep⟩
    have hpush := pushPath_render hnames (hfit ⟨above ++ [name], p, props⟩ (by simp [Forest.nodes]))
    have hmatch : matchPath (render (above ++ [name])) (0x2f :: path) ↔
        Names (0x2f :: path) (above ++ [name]) :=
      matchPath_iff (fun m hm => (hnames' m hm).2) fun ms hms hne' =>
        hanc ms ((List.prefix_concat_iff.1 hms).resolve_left hne')
    have hlen := le_alignUpPtr (p + 4 + name.length + 1)
    have := hprops.le
    have := hch.le
    have := hsib.le
    by_cases hhere : Names (0x2f :: path) (above ++ [name])
    · refine ⟨1, by omega, fun n => ?_⟩
      rw [pathOffsetLoop_begin hcell hname hpush, if_pos (hmatch.2 hhere), Forest.nodes,
        List.find?_cons_of_pos (by simpa using hhere)]
      rfl
    · obtain ⟨k₁, hk₁, hloop₁⟩ := @pathOffsetLoop_props _ _ _ _ (0x2f :: path) _
        (render (above ++ [name])) hprops
      obtain ⟨k₂, hk₂, hloop₂⟩ := ih₁ hnames'
        (fun ms hms => by
          rcases List.prefix_concat_iff.1 hms with rfl | hms
          · exact hhere
          · exact hanc ms hms)
        fun x hx => hfit x (by simp [Forest.nodes, hx])
      obtain ⟨k₃, hk₃, hloop₃⟩ := ih₂ hnames hanc fun x hx => hfit x (by simp [Forest.nodes, hx])
      refine ⟨k₃ + 1 + k₂ + k₁ + 1, by omega, fun n => ?_⟩
      rw [show n + (k₃ + 1 + k₂ + k₁ + 1) = n + k₃ + 1 + k₂ + k₁ + 1 by omega,
        pathOffsetLoop_begin hcell hname hpush, if_neg fun h => hhere (hmatch.1 h), hloop₁, hloop₂,
        pathOffsetLoop_end hend, popPath_render ⟨hne, hsep⟩, hloop₃, Forest.nodes,
        List.find?_cons_of_neg (by simpa using hhere), List.find?_append, Option.map_or,
        Option.or_assoc]

/-- The walk passes over `FDT_NOP` tokens. -/
theorem pathOffsetLoop_nops {current : List Byte} (h : b.HoldsForest strings .nil p q) :
    ∃ k ≤ q - p, ∀ n, pathOffsetLoop b path (n + k) p current =
      pathOffsetLoop b path n q current := by
  generalize hf : Forest.nil = f at h
  induction h with
  | nil p => exact ⟨0, by omega, fun n => rfl⟩
  | @nop f p q hcell hl ih =>
    obtain ⟨k, hk, hloop⟩ := ih hf
    have := hl.le
    refine ⟨k + 1, by omega, fun n => ?_⟩
    rw [← hloop n, ← Nat.add_assoc, pathOffsetLoop, hcell]
    rfl
  | node => cases hf

theorem Blob.lt_size_of_cell {x : BitVec 32} (h : b.cell p = some x) : p < b.size := by
  obtain ⟨y, hy, -⟩ := Option.map_eq_some_iff.1 h
  obtain ⟨z, hz, -⟩ := Option.bind_eq_some_iff.1 hy
  rw [Blob.get] at hz
  split at hz
  · assumption
  · cases hz

/-- **`fdt_path_offset` on an encoded tree** finds the first node in preorder that the path
names. -/
theorem fdtPathOffset_eq {t : DeviceTree} (h : b.Encodes t) (hfit : t.Fits) :
    fdtPathOffset b (0x2f :: path) =
      some (((t.find (0x2f :: path)).map fun x => toInt x.off).getD (-1)) := by
  obtain ⟨offDtStruct, offDtStrings, q, r, s, hstruct, -, -, hnops, hbegin, hname, hprops, hch,
    hend, hnops', hlast⟩ := h.blocks
  have hlen := le_alignUpPtr (t.off + 4 + t.name.length + 1)
  have hle₁ := hnops.le
  have hle₂ := hprops.le
  have hle₃ := hch.le
  have hle₄ := hnops'.le
  have hlt := Blob.lt_size_of_cell hlast
  have hmatch : matchPath (render []) (0x2f :: path) ↔ Names (0x2f :: path) [] :=
    matchPath_iff (by simp) fun ms hms hne => (hne (List.prefix_nil.1 hms)).elim
  have hfind : ∀ P : FdtNode → Bool, t.nodes.find? P =
      if P ⟨[], t.off, t.props⟩ then some ⟨[], t.off, t.props⟩
      else (t.children.nodes []).find? P := by
    intro P
    rw [DeviceTree.nodes, List.find?_cons]
    split <;> simp_all
  obtain ⟨k₀, hk₀, hloop₀⟩ := @pathOffsetLoop_nops _ _ _ _ (0x2f :: path) [] hnops
  have hpush : pushPath [] t.name = some (render []) := rfl
  have hstart : fdtPathOffset b (0x2f :: path) =
      pathOffsetLoop b (0x2f :: path) (b.size + 1) offDtStruct.toNat [] := by
    rw [fdtPathOffset, h.magic, hstruct]
    rfl
  rw [hstart]
  by_cases hroot : Names (0x2f :: path) []
  · have hfuel : b.size + 1 = b.size - k₀ + 1 + k₀ := by omega
    rw [hfuel, hloop₀, pathOffsetLoop_begin hbegin hname hpush,
      if_pos (hmatch.2 hroot), DeviceTree.find, hfind, if_pos (by simpa using hroot),
        Option.map_some,
      Option.getD_some]
  · obtain ⟨k₁, hk₁, hloop₁⟩ := @pathOffsetLoop_props _ _ _ _ (0x2f :: path) _ (render []) hprops
    obtain ⟨k₂, hk₂, hloop₂⟩ := @pathOffsetLoop_forest _ _ _ _ path [] _ hch (by simp)
      (fun ms hms => by rw [List.prefix_nil.1 hms]; exact hroot)
      fun x hx => hfit x (List.mem_cons_of_mem _ hx)
    obtain ⟨k₃, hk₃, hloop₃⟩ := @pathOffsetLoop_nops _ _ _ _ (0x2f :: path)
      (popPath (render [])) hnops'
    have hfuel : b.size + 1 =
        b.size - k₀ - 1 - k₁ - k₂ - 1 - k₃ + 1 + k₃ + 1 + k₂ + k₁ + 1 + k₀ := by
      omega
    rw [hfuel, hloop₀, pathOffsetLoop_begin hbegin hname hpush,
      if_neg fun h => hroot (hmatch.1 h), hloop₁, hloop₂, pathOffsetLoop_end hend, hloop₃,
      pathOffsetLoop_last hlast, DeviceTree.find, hfind, if_neg (by simpa using hroot)]
    cases (t.children.nodes []).find? fun x => decide (Names (0x2f :: path) x.path) with
    | none => rw [Option.map_none, Option.none_or, Option.getD_none]
    | some x => rw [Option.map_some, Option.some_or, Option.getD_some]

/-! ## Properties -/

/-- The walk of `fdt_getprop` over the properties of a node stops at the first one of this name, or
goes on behind them. -/
theorem getpropLoop_props {l : List FdtProperty} (h : b.HoldsProps strings l p q)
    (hname : 0 ∉ name) : ∃ k ≤ q - p, ∀ n, getpropLoop b strings name (n + k) p =
      ((l.find? fun pr => pr.name = name).map fun pr => some (pr.off, toInt pr.value.length)).or
        (getpropLoop b strings name n q) := by
  induction h with
  | nil p => exact ⟨0, by omega, fun n => rfl⟩
  | @nop l p q hcell hl ih =>
    obtain ⟨k, hk, hloop⟩ := ih
    have := hl.le
    refine ⟨k + 1, by omega, fun n => ?_⟩
    rw [← hloop n, ← Nat.add_assoc, getpropLoop, hcell]
    rfl
  | @prop pr l p q len nameoff hcell hlen hvalue hoff hpr hpos hbytes hl ih =>
    obtain ⟨k, hk, hloop⟩ := ih
    have := hl.le
    have := le_alignUpPtr (p + 12 + pr.value.length)
    have hstep : ∀ n, getpropLoop b strings name (n + 1) p = if pr.name = name then
        some (some (p + 12, toInt len.toNat))
        else getpropLoop b strings name n (alignUpPtr (p + 12 + len.toNat)) := by
      intro n
      rw [getpropLoop, hcell]
      show (b.cell (p + 4)).bind _ = _
      rw [hlen, Option.bind_some]
      show (b.cell (p + 8)).bind _ = _
      rw [hoff, Option.bind_some]
      show (strcmpEq b (strings + nameoff.toNat) name).bind _ = _
      rw [hpr.strcmpEq_eq hname, Option.bind_some]
      by_cases heq : pr.name = name <;> simp [heq]
    by_cases heq : pr.name = name
    · refine ⟨1, by omega, fun n => ?_⟩
      rw [hstep, if_pos heq, List.find?_cons_of_pos (by simpa using heq), hvalue, Option.map_some,
        Option.some_or, hpos]
    · refine ⟨k + 1, by omega, fun n => ?_⟩
      rw [← Nat.add_assoc, hstep, if_neg heq, hvalue, hloop,
        List.find?_cons_of_neg (by simpa using heq)]

/-- The walk of `fdt_getprop` ends at the children of the node, or at its end. -/
theorem getpropLoop_forest {f : Forest} (h : b.HoldsForest strings f p q)
    (hend : b.cell q = some fdtEndNode) :
    ∃ k ≤ q - p, ∀ n, getpropLoop b strings name (n + k + 1) p = some none := by
  induction h with
  | nil p =>
    refine ⟨0, by omega, fun n => ?_⟩
    rw [getpropLoop, hend]
    rfl
  | @nop f p q hcell hf ih =>
    obtain ⟨k, hk, hloop⟩ := ih hend
    have := hf.le
    refine ⟨k + 1, by omega, fun n => ?_⟩
    rw [← hloop n, ← Nat.add_assoc, getpropLoop, hcell]
    rfl
  | node hcell =>
    refine ⟨0, by omega, fun n => ?_⟩
    rw [getpropLoop, hcell]
    rfl

/-- The items of the node at an offset. -/
structure Blob.HoldsNode (b : Blob) (strings : ℕ) (x : FdtNode) : Prop where
  begin : b.cell x.off = some fdtBeginNode
  items : ∃ name q r f, b.HoldsString (x.off + 4) name ∧
    b.HoldsProps strings x.props (alignUpPtr (x.off + 4 + name.length + 1)) q ∧
    b.HoldsForest strings f q r ∧ b.cell r = some fdtEndNode

theorem Blob.HoldsForest.node_of_mem {f : Forest} {x : FdtNode} (h : b.HoldsForest strings f p q)
    (hx : x ∈ f.nodes above) : b.HoldsNode strings x := by
  induction h generalizing above with
  | nil => cases hx
  | nop _ _ ih => exact ih hx
  | node hcell hname hne hsep hprops hch hend hsib ih₁ ih₂ =>
    rw [Forest.nodes, List.mem_cons, List.mem_append] at hx
    rcases hx with rfl | hx | hx
    · exact ⟨hcell, _, _, _, _, hname, hprops, hch, hend⟩
    · exact ih₁ hx
    · exact ih₂ hx

theorem toInt_of_lt {x : ℕ} (h : x < 2 ^ 31) : toInt x = x := by
  rw [toInt]
  omega

/-- **`fdt_getprop` on a node** finds its first property of this name. -/
theorem fdtGetprop_eq {x : FdtNode} {offDtStrings : BitVec 32}
    (hstrings : b.offDtStrings = some offDtStrings) (h : b.HoldsNode offDtStrings.toNat x)
    (hname : 0 ∉ name) : fdtGetprop b x.off name =
      some ((x.getprop name).map fun pr => (pr.off, toInt pr.value.length)) := by
  obtain ⟨hbegin, nodeName, q, r, f, hnode, hprops, hf, hend⟩ := h
  have hlt := Blob.lt_size_of_cell hend
  have hlen := le_alignUpPtr (x.off + 4 + nodeName.length + 1)
  have hle₁ := hprops.le
  have hle₂ := hf.le
  obtain ⟨k₁, hk₁, hloop₁⟩ := getpropLoop_props hprops hname
  obtain ⟨k₂, hk₂, hloop₂⟩ := @getpropLoop_forest _ _ _ _ name _ hf hend
  have hstart : fdtGetprop b x.off name = getpropLoop b offDtStrings.toNat name (b.size + 1)
      (alignUpPtr (x.off + 4 + nodeName.length + 1)) := by
    rw [fdtGetprop, if_neg (by omega), hstrings, Int.toNat_natCast]
    simp only [Option.bind_eq_bind, Option.bind_some, hbegin, hnode.strlen_eq]
    rfl
  rw [hstart, show b.size + 1 = b.size - k₁ - k₂ + k₂ + 1 + k₁ by omega, hloop₁, hloop₂,
    FdtNode.getprop]
  cases x.props.find? fun pr => decide (pr.name = name) with
  | none => rw [Option.map_none, Option.none_or, Option.map_none]
  | some pr => rw [Option.map_some, Option.some_or, Option.map_some]

theorem Blob.HoldsProps.bytes_of_mem {l : List FdtProperty} {pr : FdtProperty}
    (h : b.HoldsProps strings l p q) (hpr : pr ∈ l) : b.HoldsBytes pr.off pr.value := by
  induction h with
  | nil => cases hpr
  | nop _ _ ih => exact ih hpr
  | prop _ _ _ _ _ hpos hbytes _ ih =>
    rcases List.mem_cons.1 hpr with rfl | hpr
    · rw [hpos]
      exact hbytes
    · exact ih hpr

/-! ## The readers agree with the tree -/

/-- What the readers of the blob find for a path and a property name is what the tree has there. -/
structure ReadsTree (b : Blob) (t : DeviceTree) (path name : List Byte) : Prop where
  /-- The first node in preorder that the path names, or `-1`. -/
  pathOffset : fdtPathOffset b path = some (match t.find path with
    | some x => (x.off : ℤ)
    | none => -1)
  /-- At that node, its first property of this name, or `NULL`. -/
  getprop : ∀ x, t.find path = some x → fdtGetprop b x.off name =
    some ((x.getprop name).map fun pr => (pr.off, (pr.value.length : ℤ)))
  /-- The pointer returned is to the bytes of the value. -/
  value : ∀ x pr, t.find path = some x → x.getprop name = some pr → b.HoldsBytes pr.off pr.value

/-- **The device tree is read as it is encoded**, if the blob is small enough for offsets of type
`int`. -/
theorem readsTree_of_encodes {t : DeviceTree} (h : b.Encodes t) (hfit : t.Fits)
    (hsize : b.size < 2 ^ 31) (hname : 0 ∉ name) : ReadsTree b t (0x2f :: path) name := by
  obtain ⟨offDtStruct, offDtStrings, q, r, s, -, hstrings, -, -, hbegin, hroot, hprops, hch, hend,
    -⟩ :=
    h.blocks
  have hnode : ∀ x, t.find (0x2f :: path) = some x → b.HoldsNode offDtStrings.toNat x := by
    intro x hx
    rcases List.mem_cons.1 (List.mem_of_find?_eq_some hx) with rfl | hx
    · exact ⟨hbegin, _, _, _, _, hroot, hprops, hch, hend⟩
    · exact hch.node_of_mem hx
  have hbytes : ∀ x pr, t.find (0x2f :: path) = some x → x.getprop name = some pr →
      b.HoldsBytes pr.off pr.value := by
    intro x pr hx hpr
    obtain ⟨-, nodeName, q, r, f, -, hx', -⟩ := hnode x hx
    exact hx'.bytes_of_mem (List.mem_of_find?_eq_some hpr)
  refine ⟨?_, fun x hx => ?_, hbytes⟩
  · rw [fdtPathOffset_eq h hfit]
    cases hx : t.find (0x2f :: path) with
    | none => rw [Option.map_none, Option.getD_none]
    | some x =>
      have hlt := Blob.lt_size_of_cell (hnode x hx).begin
      rw [Option.map_some, Option.getD_some, toInt_of_lt (by omega)]
  · rw [fdtGetprop_eq hstrings (hnode x hx) hname]
    cases hpr : x.getprop name with
    | none => rw [Option.map_none, Option.map_none]
    | some pr =>
      have hlen := (hbytes x pr hx hpr).1
      rw [Option.map_some, Option.map_some, toInt_of_lt (by omega)]

/-- The root with one child `a@1`, which has one property `reg`. -/
def smallTree : DeviceTree where
  off := 56
  name := []
  props := []
  children := .node 64 (cstr "a@1") [⟨cstr "reg", cstr "hi", 88⟩] .nil .nil

/-- An encoding of it, with a `FDT_NOP` before the property. -/
def smallBlob : Blob where
  base := 0x80000000
  size := 108
  byte i := [0xd0, 0x0d, 0xfe, 0xed, 0, 0, 0, 108, 0, 0, 0, 56, 0, 0, 0, 104, 0, 0, 0, 40,
    0, 0, 0, 17, 0, 0, 0, 16, 0, 0, 0, 0, 0, 0, 0, 4, 0, 0, 0, 48, 0, 0, 0, 0, 0, 0, 0, 0, 0, 0, 0,
    0,
    0, 0, 0, 0, 0, 0, 0, 1, 0, 0, 0, 0, 0, 0, 0, 1, 0x61, 0x40, 0x31, 0, 0, 0, 0, 4, 0, 0, 0, 3,
    0, 0, 0, 2, 0, 0, 0, 0, 0x68, 0x69, 0, 0, 0, 0, 0, 2, 0, 0, 0, 2, 0, 0, 0, 9,
    0x72, 0x65, 0x67, 0].getD i 0

theorem smallBlob_encodes : smallBlob.Encodes smallTree := by
  refine ⟨rfl, 56, 104, 64, 96, 100, rfl, rfl, rfl, .nil 56, rfl, ⟨by decide, by decide, rfl⟩,
    .nil 64, ?_, rfl, .nil 100, rfl⟩
  refine .node (q := 92) (r := 92) rfl ⟨by decide, by decide, rfl⟩ (by decide) (by decide) ?_
    (.nil 92)
    rfl (.nil 96)
  exact .nop rfl (.prop rfl rfl rfl rfl ⟨by decide, by decide, rfl⟩ rfl ⟨by decide, rfl⟩ (.nil 92))

/-- The path `/a` and the property `reg`. -/
theorem readsTree_of_encodes_small : fdtPathOffset smallBlob (cstr "/a") = some 64 ∧
    ReadsTree smallBlob smallTree (cstr "/a") (cstr "reg") :=
  ⟨by decide +kernel, readsTree_of_encodes smallBlob_encodes
    (by unfold DeviceTree.Fits; decide) (by decide) (by decide)⟩

theorem Blob.take_replicate {x : Byte} {m : ℕ} (h : ∀ i, p ≤ i → i < p + m → b.byte i = x) :
    b.take p m = List.replicate m x := by
  induction m generalizing p with
  | zero => rfl
  | succ m ih =>
    rw [Blob.take, List.replicate_succ, h p le_rfl (by omega),
      ih fun i h₁ h₂ => h i (by omega) (by omega)]

/-- The root with a property of 2 GiB and a child `a` behind it. -/
def largeTree : DeviceTree where
  off := 56
  name := []
  props := [⟨cstr "p", List.replicate (2 ^ 31) 0, 76⟩]
  children := .node (76 + 2 ^ 31) (cstr "a") [] .nil .nil

/-- An encoding of it. -/
def largeBlob : Blob where
  base := 0x80000000
  size := 98 + 2 ^ 31
  byte i :=
    if i < 76 then
      [0xd0, 0x0d, 0xfe, 0xed, 0x80, 0, 0, 98, 0, 0, 0, 56, 0x80, 0, 0, 96, 0, 0, 0, 40,
        0, 0, 0, 17, 0, 0, 0, 16, 0, 0, 0, 0, 0, 0, 0, 2, 0x80, 0, 0, 40,
        0, 0, 0, 0, 0, 0, 0, 0, 0, 0, 0, 0, 0, 0, 0, 0, 0, 0, 0, 1, 0, 0, 0, 0, 0, 0, 0, 3,
        0x80, 0, 0, 0, 0, 0, 0, 0].getD i 0
    else if i < 76 + 2 ^ 31 then 0
    else
      [0, 0, 0, 1, 0x61, 0, 0, 0, 0, 0, 0, 2, 0, 0, 0, 2, 0, 0, 0, 9, 0x70, 0].getD
        (i - (76 + 2 ^ 31)) 0

theorem largeBlob_encodes : largeBlob.Encodes largeTree := by
  have hvalue : largeBlob.HoldsBytes 76 (List.replicate (2 ^ 31) 0) := by
    refine ⟨?_, ?_⟩
    · rw [List.length_replicate]
      show 76 + 2 ^ 31 ≤ 98 + 2 ^ 31
      omega
    · rw [List.length_replicate]
      refine Blob.take_replicate fun i h₁ h₂ => ?_
      simp only [largeBlob]
      rw [if_neg (by omega), if_pos h₂]
  have halign : alignUpPtr (64 + 12 + (List.replicate (2 ^ 31) (0 : Byte)).length) =
      76 + 2 ^ 31 := by
    rw [List.length_replicate, alignUpPtr]
    omega
  refine ⟨by decide +kernel, 56, 0x80000060, 76 + 2 ^ 31, 88 + 2 ^ 31, 92 + 2 ^ 31,
    by decide +kernel, by decide +kernel, rfl, .nil 56, by decide +kernel,
    ⟨by decide, by decide +kernel, rfl⟩, ?_, ?_,
    by decide +kernel, .nil _, by decide +kernel⟩
  · refine .prop (q := 76 + 2 ^ 31) (p := 64) (by decide +kernel)
      (by decide +kernel : _ = some 0x80000000#32) ?_ (by decide +kernel : _ = some 0#32)
      ⟨by decide, by decide +kernel, by decide +kernel⟩ rfl hvalue ?_
    · rw [List.length_replicate]
      rfl
    · rw [halign]
      exact .nil _
  · exact .node (q := 84 + 2 ^ 31) (r := 84 + 2 ^ 31) (by decide +kernel)
      ⟨by decide, by decide +kernel, by decide +kernel⟩ (by decide) (by decide) (.nil _) (.nil _)
      (by decide +kernel) (.nil _)

/-- The offset of the child is negative as an `int`. -/
theorem not_readsTree_large : ∃ b t, Blob.Encodes b t ∧ t.Fits ∧
    ¬ ReadsTree b t (cstr "/a") (cstr "p") := by
  have hfit : largeTree.Fits := by
    unfold DeviceTree.Fits
    decide +kernel
  have hfind : largeTree.find (cstr "/a") = some ⟨[cstr "a"], 76 + 2 ^ 31, []⟩ := by decide +kernel
  refine ⟨largeBlob, largeTree, largeBlob_encodes, hfit, fun h => ?_⟩
  have heq : fdtPathOffset largeBlob (cstr "/a") =
      some (((largeTree.find (cstr "/a")).map fun x => toInt x.off).getD (-1)) :=
    fdtPathOffset_eq largeBlob_encodes hfit
  have := h.pathOffset.symm.trans heq
  rw [hfind, Option.map_some, Option.getD_some, toInt, Option.some.injEq] at this
  norm_num at this

end BareMetalOS.Boot
