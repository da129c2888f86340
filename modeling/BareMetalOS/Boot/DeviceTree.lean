import BareMetalOS.Boot.Fdt

/-!
# Device trees and their encodings

What a flattened device tree stands for: an ordered tree of named nodes with properties. The tree
records where its nodes and values are in the blob, and `Blob.Encodes` says that a blob encodes it,
with `FDT_NOP` tokens between any two items.

A path names a node by its components, and a component may leave out the unit address of the name
(`compMatches`). `DeviceTree.find` is the first node in preorder that a path names. That the token
walk of `lib/fdt.c` finds the same node is proved in `PathOffset`; here is the part about paths as
strings: `match_path` accepts a node that the path names, and otherwise only nodes below one
(`matchPath_of_matches`, `exists_matches_of_matchPath`).
-/

namespace BareMetalOS.Boot

open Memory

/-! ## Trees -/

/-- A property; `off` is the offset of its value. -/
structure FdtProperty where
  name : List Byte
  value : List Byte
  off : ℕ
  deriving DecidableEq, Repr

/-- Sibling nodes in order, each at its offset with its name, its properties and its children. -/
inductive Forest
  | nil
  | node (off : ℕ) (name : List Byte) (props : List FdtProperty) (children siblings : Forest)

/-- A device tree, with the items of its root. -/
structure DeviceTree where
  off : ℕ
  name : List Byte
  props : List FdtProperty
  children : Forest

/-- A node with the names on the way to it from the root, its own included. -/
structure FdtNode where
  path : List (List Byte)
  off : ℕ
  props : List FdtProperty
  deriving DecidableEq, Repr

/-- The nodes in preorder, below the node with path `above`. -/
def Forest.nodes (above : List (List Byte)) : Forest → List FdtNode
  | .nil => []
  | .node off name props children siblings =>
    ⟨above ++ [name], off, props⟩ :: (children.nodes (above ++ [name]) ++ siblings.nodes above)

/-- The nodes in preorder. The path of the root is empty. -/
def DeviceTree.nodes (t : DeviceTree) : List FdtNode := ⟨[], t.off, t.props⟩ :: t.children.nodes []

/-! ## Paths -/

/-- The components of an absolute path. -/
def components : List Byte → List (List Byte)
  | [] | [_] => []
  | _ :: path => path.splitOn 0x2f

/-- A component names the nodes with this name, with or without a unit address. -/
def compMatches (c name : List Byte) : Prop := name = c ∨ c ++ [0x40] <+: name

instance (c name : List Byte) : Decidable (compMatches c name) :=
  inferInstanceAs (Decidable (_ ∨ _))

/-- The path names the node with these names. -/
def Names (path : List Byte) (ns : List (List Byte)) : Prop :=
  List.Forall₂ compMatches (components path) ns

instance (path : List Byte) (ns : List (List Byte)) : Decidable (Names path ns) :=
  inferInstanceAs (Decidable (List.Forall₂ _ _ _))

/-- The first node in preorder that the path names. -/
def DeviceTree.find (t : DeviceTree) (path : List Byte) : Option FdtNode :=
  t.nodes.find? fun n => Names path n.path

/-- The node's first property of this name. -/
def FdtNode.getprop (n : FdtNode) (name : List Byte) : Option FdtProperty :=
  n.props.find? fun pr => pr.name = name

/-- The names below the root, as `current_path` shows them. -/
def renderBelow (ns : List (List Byte)) : List Byte := ns.flatMap (0x2f :: ·)

/-- The path of a node as a string. -/
def render : List (List Byte) → List Byte
  | [] => [0x2f]
  | ns => renderBelow ns

/-- The path of every node fits the buffer of `fdt_path_offset`. -/
def DeviceTree.Fits (t : DeviceTree) : Prop := ∀ n ∈ t.nodes, (render n.path).length + 1 ≤ pathMax

/-! ## Encodings -/

namespace Blob

/-- The bytes `s` at the offset. -/
def HoldsBytes (b : Blob) (off : ℕ) (s : List Byte) : Prop :=
  off + s.length ≤ b.size ∧ b.take off s.length = s

/-- The C string `s` at the offset. -/
def HoldsString (b : Blob) (off : ℕ) (s : List Byte) : Prop := 0 ∉ s ∧ b.HoldsBytes off (s ++ [0])

/-- The properties of a node from one offset to another; `strings` is the offset of the strings
block. -/
inductive HoldsProps (b : Blob) (strings : ℕ) : List FdtProperty → ℕ → ℕ → Prop
  | nil (p : ℕ) : HoldsProps b strings [] p p
  | nop {l : List FdtProperty} {p q : ℕ} (h : b.cell p = some fdtNop)
      (hl : HoldsProps b strings l (p + 4) q) : HoldsProps b strings l p q
  | prop {pr : FdtProperty} {l : List FdtProperty} {p q : ℕ} {len nameoff : BitVec 32}
      (h : b.cell p = some fdtProp) (hlen : b.cell (p + 4) = some len)
      (hvalue : len.toNat = pr.value.length) (hoff : b.cell (p + 8) = some nameoff)
      (hname : b.HoldsString (strings + nameoff.toNat) pr.name) (hpos : pr.off = p + 12)
      (hbytes : b.HoldsBytes (p + 12) pr.value)
      (hl : HoldsProps b strings l (alignUpPtr (p + 12 + pr.value.length)) q) :
      HoldsProps b strings (pr :: l) p q

/-- Sibling nodes from one offset to another. -/
inductive HoldsForest (b : Blob) (strings : ℕ) : Forest → ℕ → ℕ → Prop
  | nil (p : ℕ) : HoldsForest b strings .nil p p
  | nop {f : Forest} {p q : ℕ} (h : b.cell p = some fdtNop)
      (hf : HoldsForest b strings f (p + 4) q) : HoldsForest b strings f p q
  | node {p q r s : ℕ} {name : List Byte} {props : List FdtProperty} {children siblings : Forest}
      (h : b.cell p = some fdtBeginNode) (hname : b.HoldsString (p + 4) name) (hne : name ≠ [])
      (hsep : 0x2f ∉ name)
      (hprops : HoldsProps b strings props (alignUpPtr (p + 4 + name.length + 1)) q)
      (hchildren : HoldsForest b strings children q r) (hend : b.cell r = some fdtEndNode)
      (hsiblings : HoldsForest b strings siblings (r + 4) s) :
      HoldsForest b strings (.node p name props children siblings) p s

/-- The blob encodes the tree. -/
structure Encodes (b : Blob) (t : DeviceTree) : Prop where
  magic : b.magic = some 0xd00dfeed
  blocks : ∃ offDtStruct offDtStrings q r s, b.offDtStruct = some offDtStruct ∧
    b.offDtStrings = some offDtStrings ∧ offDtStruct.toNat % 4 = 0 ∧
    b.HoldsForest offDtStrings.toNat .nil offDtStruct.toNat t.off ∧
    b.cell t.off = some fdtBeginNode ∧ b.HoldsString (t.off + 4) t.name ∧
    b.HoldsProps offDtStrings.toNat t.props (alignUpPtr (t.off + 4 + t.name.length + 1)) q ∧
    b.HoldsForest offDtStrings.toNat t.children q r ∧ b.cell r = some fdtEndNode ∧
    b.HoldsForest offDtStrings.toNat .nil (r + 4) s ∧ b.cell s = some fdtEnd

end Blob

/-! ## Paths as strings -/

theorem renderBelow_cons (n : List Byte) (ns : List (List Byte)) :
    renderBelow (n :: ns) = 0x2f :: (n ++ renderBelow ns) := rfl

theorem splitOn_cons (x : Byte) (p : List Byte) : (x :: p).splitOn 0x2f =
    if x = 0x2f then [] :: p.splitOn 0x2f else (p.splitOn 0x2f).modifyHead (x :: ·) := by
  rw [List.splitOn, List.splitOnP_cons_eq_if_modifyHead]
  simp only [beq_iff_eq]
  rfl

theorem exists_splitOn (p : List Byte) : ∃ c cs, p.splitOn 0x2f = c :: cs :=
  List.exists_cons_of_ne_nil (List.splitOnP_ne_nil _ p)

theorem compMatches_cons (x : Byte) (c n : List Byte) :
    compMatches (x :: c) (x :: n) ↔ compMatches c n := by
  simp [compMatches]

theorem compMatches_nil (n : List Byte) : compMatches [] n ↔ n = [] ∨ n.head? = some 0x40 := by
  cases n <;> simp [compMatches, eq_comm]

/-- The first character of the rest of a name and of the names below it. -/
theorem head?_append_renderBelow (n : List Byte) (ns : List (List Byte)) (x : Byte)
    (hx : x ≠ 0x2f) : (n ++ renderBelow ns).head? = some x ↔ ∃ n', n = x :: n' := by
  cases n with
  | nil =>
    cases ns with
    | nil => simp [renderBelow]
    | cons m ns => simpa [renderBelow_cons] using Ne.symm hx
  | cons y n => simp

theorem dropWhile_append_renderBelow (n : List Byte) (ns : List (List Byte)) (hn : 0x2f ∉ n) :
    (n ++ renderBelow ns).dropWhile (· ≠ 0x2f) = renderBelow ns := by
  have hrender : (renderBelow ns).dropWhile (· ≠ 0x2f) = renderBelow ns := by
    cases ns with
    | nil => rfl
    | cons m ns => simp [renderBelow_cons]
  induction n with
  | nil => exact hrender
  | cons y n ih =>
    rw [List.mem_cons, not_or] at hn
    rw [List.cons_append, List.dropWhile_cons_of_pos (by simpa using Ne.symm hn.1), ih hn.2]

theorem matchPath_cons_self (x : Byte) (current path : List Byte) :
    matchPath (x :: current) (x :: path) = matchPath current path := by
  rw [matchPath, List.head?_cons, if_pos rfl, List.tail_cons]

/-- `match_path` where the path goes down a level: the current name is at its end or at its unit
address, and the comparison goes on with the next name. -/
theorem matchPath_sep {p n : List Byte} {ns : List (List Byte)} (hn : 0x2f ∉ n) :
    matchPath (n ++ renderBelow ns) (0x2f :: p) = true ↔
      compMatches [] n ∧ ∃ m ms, ns = m :: ms ∧ matchPath (m ++ renderBelow ms) p = true := by
  rw [matchPath, compMatches_nil]
  have hdrop := dropWhile_append_renderBelow n ns hn
  cases n with
  | nil =>
    cases ns with
    | nil => simp [renderBelow]
    | cons m ms => simp [renderBelow_cons]
  | cons y n =>
    have hy : y ≠ 0x2f := by
      rintro rfl
      simp at hn
    rw [if_neg (by simpa using hy)]
    by_cases hat : y = 0x40
    · rw [if_pos (by simp [hat]), hdrop]
      cases ns with
      | nil => simp [renderBelow]
      | cons m ms => simp [renderBelow_cons, hat]
    · rw [if_neg fun h => hat (Option.some.inj h.1)]
      refine iff_of_false Bool.false_ne_true ?_
      rintro ⟨h | h, -⟩
      · cases h
      · exact hat (Option.some.inj h)

/-- `match_path` inside a component. -/
theorem matchPath_char {x : Byte} {p n : List Byte} {ns : List (List Byte)} (hx : x ≠ 0x2f) :
    matchPath (n ++ renderBelow ns) (x :: p) = true ↔
      ∃ n', n = x :: n' ∧ matchPath (n' ++ renderBelow ns) p = true := by
  rw [matchPath]
  by_cases h : (n ++ renderBelow ns).head? = some x
  · rw [if_pos h]
    obtain ⟨n', rfl⟩ := (head?_append_renderBelow n ns x hx).1 h
    simp
  · rw [if_neg h, if_neg (fun h => hx h.2)]
    simp only [Bool.false_eq_true, false_iff]
    rintro ⟨n', rfl, -⟩
    exact h rfl

/-- At the end of the path the current name must be at its end or at its unit address. -/
theorem compMatches_of_matchPath {n : List Byte} {ns : List (List Byte)}
    (h : matchPath (n ++ renderBelow ns) []) : compMatches [] n := by
  rw [matchPath, decide_eq_true_eq] at h
  rw [compMatches_nil]
  rcases h with h | h
  · exact .inl (List.append_eq_nil_iff.1 h).1
  · obtain ⟨n', rfl⟩ := (head?_append_renderBelow n ns _ (by decide)).1 h
    exact .inr rfl

/-- `match_path` from inside a name on: the rest of the path names a node on the way to the current
one. -/
theorem exists_names_of_matchPath {p n : List Byte} {ns : List (List Byte)} (hn : 0x2f ∉ n)
    (hns : ∀ m ∈ ns, (0x2f : Byte) ∉ m) (h : matchPath (n ++ renderBelow ns) p) :
    ∃ ms, ms <+: n :: ns ∧ List.Forall₂ compMatches (p.splitOn 0x2f) ms := by
  induction p generalizing n ns with
  | nil => exact ⟨[n], by simp, .cons (compMatches_of_matchPath h) .nil⟩
  | cons x p ih =>
    rw [splitOn_cons]
    by_cases hx : x = 0x2f
    · subst hx
      obtain ⟨hc, m, ms, rfl, hm⟩ := (matchPath_sep hn).1 h
      obtain ⟨l, hl, hall⟩ := ih (hns m (by simp)) (fun k hk => hns k (by simp [hk])) hm
      rw [if_pos rfl]
      exact ⟨n :: l, by simpa using hl, .cons hc hall⟩
    · obtain ⟨n', rfl, hm⟩ := (matchPath_char hx).1 h
      obtain ⟨l, hl, hall⟩ := ih (fun hmem => hn (List.mem_cons_of_mem _ hmem)) hns hm
      obtain ⟨c, cs, hsplit⟩ := exists_splitOn p
      rw [hsplit] at hall
      rw [if_neg hx, hsplit]
      cases hall with
      | @cons _ m _ l hc hall =>
        obtain ⟨rfl, hl⟩ := List.cons_prefix_cons.1 hl
        exact ⟨(x :: m) :: l, by simpa using hl, .cons ((compMatches_cons x c m).2 hc) hall⟩

/-- `match_path` accepts the node that the path names. -/
theorem matchPath_of_names {p n : List Byte} {ns : List (List Byte)} (hn : 0x2f ∉ n)
    (hns : ∀ m ∈ ns, (0x2f : Byte) ∉ m)
    (h : List.Forall₂ compMatches (p.splitOn 0x2f) (n :: ns)) :
    matchPath (n ++ renderBelow ns) p := by
  induction p generalizing n ns with
  | nil =>
    obtain ⟨hc, hnil⟩ := List.forall₂_cons.1 h
    cases hnil
    rw [matchPath, decide_eq_true_eq]
    simpa [renderBelow] using (compMatches_nil n).1 hc
  | cons x p ih =>
    rw [splitOn_cons] at h
    by_cases hx : x = 0x2f
    · subst hx
      rw [if_pos rfl, List.forall₂_cons] at h
      obtain ⟨c, cs, hsplit⟩ := exists_splitOn p
      obtain ⟨hc, hall⟩ := h
      cases ns with
      | nil =>
        rw [hsplit] at hall
        cases hall
      | cons m ms =>
        exact (matchPath_sep hn).2 ⟨hc, m, ms, rfl,
          ih (hns m (by simp)) (fun k hk => hns k (by simp [hk])) hall⟩
    · obtain ⟨c, cs, hsplit⟩ := exists_splitOn p
      rw [if_neg hx, hsplit, List.modifyHead_cons, List.forall₂_cons] at h
      obtain ⟨hc, hall⟩ := h
      obtain ⟨n', rfl⟩ : ∃ n', n = x :: n' := by
        rcases hc with rfl | ⟨l, rfl⟩
        · exact ⟨c, rfl⟩
        · exact ⟨_, rfl⟩
      refine (matchPath_char hx).2
        ⟨n', rfl, ih (fun hmem => hn (List.mem_cons_of_mem _ hmem)) hns ?_⟩
      rw [hsplit]
      exact .cons ((compMatches_cons x c n').1 hc) hall

variable {path : List Byte} {ns : List (List Byte)}

/-- **`match_path` accepts only nodes at or below one that the path names.** -/
theorem exists_prefix_of_matchPath (hns : ∀ m ∈ ns, (0x2f : Byte) ∉ m)
    (h : matchPath (render ns) (0x2f :: path)) : ∃ ms, ms <+: ns ∧ Names (0x2f :: path) ms := by
  cases path with
  | nil => exact ⟨[], List.nil_prefix, .nil⟩
  | cons x path =>
    cases ns with
    | nil =>
      rw [render, matchPath_cons_self, matchPath] at h
      simp at h
    | cons n ns =>
      rw [render, renderBelow_cons, matchPath_cons_self] at h
      · exact exists_names_of_matchPath (hns n (by simp)) (fun m hm => hns m (by simp [hm])) h
      · simp

/-- **`match_path` accepts the nodes that the path names.** -/
theorem matchPath_render (hns : ∀ m ∈ ns, (0x2f : Byte) ∉ m) (h : Names (0x2f :: path) ns) :
    matchPath (render ns) (0x2f :: path) := by
  cases path with
  | nil =>
    cases h
    rfl
  | cons x path =>
    cases ns with
    | nil =>
      obtain ⟨c, cs, hsplit⟩ := exists_splitOn (x :: path)
      rw [Names, components, hsplit] at h
      · cases h
      · simp
    | cons n ns =>
      rw [render, renderBelow_cons, matchPath_cons_self]
      · exact matchPath_of_names (hns n (by simp)) (fun m hm => hns m (by simp [hm])) h
      · simp

end BareMetalOS.Boot
