import BareMetalOS.Foundations.CircularList
import BareMetalOS.Heap.Separate
import BareMetalOS.Memory.AllocatorInvariant

/-!
# What the memory represents

`Rep g P n m s`: the memory `m` holds the state `s` of the level above. Every frame is stored in
`frame_array`, and every free list is a ring of nodes (`Linked`) from its head: `free_area[k]` runs
through the nodes of frames, and the list of a chunk pool through the chunks themselves. The first
`n` chunk pools are set up.

As the data does not overlap, one statement for each kind of store is enough: to a frame
(`Rep.setFrame`), and the two list operations (`Rep.listAdd`, `Rep.listDel`).
-/

namespace BareMetalOS.Heap

open Memory

variable {g : Globals} {P : ℕ → Prop} {m : Mem} {f f' : Field} {r r' r'' : Part}
  {a b e h h' : Addr} {l l' : List Addr} {o o' v idx idx' k i n : ℕ}

/-! ## Stores of pointers -/

theorem get_set_of_ne (hs : Separate g P) (hf : Spot g P f r o) (hf' : Spot g P f' r' o')
    (hne : f' ≠ f) : get g (set g m f v) f' = get g m f' := by
  rw [get_set hs hf hf', if_neg hne]

theorem toNat_mod_size (a : Addr) : a.toNat % 256 ^ 8 = a.toNat := Nat.mod_eq_of_lt a.isLt

theorem ofNat_toNat (a : Addr) : BitVec.ofNat 64 a.toNat = a := by
  rw [BitVec.ofNat_toNat, BitVec.setWidth_eq]

/-- The two pointers of a list node lie at the address. -/
def Node (g : Globals) (P : ℕ → Prop) (r : Part) (a : Addr) : Prop :=
  ∃ o, Spot g P (.next a) r o ∧ Spot g P (.prev a) r (o + 8)

/-- The memory after `list_add`. -/
theorem get_listAdd (hs : Separate g P) (hb : Node g P r b) (hh : Node g P r' h)
    (hn : Node g P r'' (next g m h)) {rf : Part} (hf : Spot g P f rf o) :
    get g (listAdd g m b h) f =
      if f = .next h then b.toNat
      else if f = .prev b then h.toNat
      else if f = .next b then (next g m h).toNat
      else if f = .prev (next g m h) then b.toNat
      else get g m f := by
  obtain ⟨_, hb₁, hb₂⟩ := hb
  obtain ⟨_, hh₁, -⟩ := hh
  obtain ⟨_, -, hn₂⟩ := hn
  simp only [listAdd, get_set hs hh₁ hf, get_set hs hb₂ hf, get_set hs hb₁ hf, get_set hs hn₂ hf]
  simp only [Field.size, toNat_mod_size]

/-- The memory after `list_del`. -/
theorem get_listDel (hs : Separate g P) (he : Node g P r e) (hp : Node g P r' (prev g m e))
    (hn : Node g P r'' (next g m e)) {rf : Part} (hf : Spot g P f rf o) :
    get g (listDel g m e) f =
      if f = .prev e then e.toNat
      else if f = .next e then e.toNat
      else if f = .next (prev g m e) then (next g m e).toNat
      else if f = .prev (next g m e) then (prev g m e).toNat
      else get g m f := by
  obtain ⟨_, he₁, he₂⟩ := he
  obtain ⟨_, hp₁, -⟩ := hp
  obtain ⟨_, -, hn₂⟩ := hn
  simp only [listDel, initListHead, get_set hs he₂ hf, get_set hs he₁ hf, get_set hs hp₁ hf,
    get_set hs hn₂ hf]
  simp only [Field.size, toNat_mod_size]

/-- The field is a pointer of a list node. -/
def Field.IsLink : Field → Prop
  | .next _ | .prev _ => True
  | _ => False

/-! ## List operations on rings -/

section Rings

variable (hs : Separate g P) (hl : Linked (next g m) (prev g m) h l)
  (hnode : ∀ a ∈ h :: l, ∃ r, Node g P r a)
include hs hl hnode

theorem linked_listAdd (hb : Node g P r b) (hfresh : b ∉ h :: l) :
    Linked (next g (listAdd g m b h)) (prev g (listAdd g m b h)) h (b :: l) := by
  obtain ⟨rh, hh⟩ := hnode h List.mem_cons_self
  obtain ⟨rn, hn⟩ := hnode _ (hl.next_mem List.mem_cons_self)
  have hbh : b ≠ h := fun heq => hfresh (heq ▸ List.mem_cons_self)
  have hall : ∀ a ∈ h :: b :: l, ∃ r, Node g P r a := fun a ha => by
    rcases List.mem_cons.1 ha with rfl | ha
    · exact ⟨rh, hh⟩
    rcases List.mem_cons.1 ha with rfl | ha
    · exact ⟨r, hb⟩
    · exact hnode a (List.mem_cons_of_mem h ha)
  refine hl.add hfresh (fun a ha => ?_) fun a ha => ?_
  · obtain ⟨ra, _, ha₁, -⟩ := hall a ha
    rw [next, get_listAdd hs hb hh hn ha₁]
    simp only [Field.next.injEq, reduceCtorEq, if_false, apply_ite (BitVec.ofNat 64), ofNat_toNat]
    rfl
  · obtain ⟨ra, _, -, ha₂⟩ := hall a ha
    rw [prev, get_listAdd hs hb hh hn ha₂]
    simp only [Field.prev.injEq, reduceCtorEq, if_false, apply_ite (BitVec.ofNat 64), ofNat_toNat]
    rfl

theorem linked_listDel (he : e ∈ l) :
    Linked (next g (listDel g m e)) (prev g (listDel g m e)) h (l.erase e) := by
  have he' : e ∈ h :: l := List.mem_cons_of_mem h he
  obtain ⟨re, hen⟩ := hnode e he'
  obtain ⟨rn, hn⟩ := hnode _ (hl.next_mem he')
  obtain ⟨rp, hp⟩ := hnode _ (hl.prev_mem he')
  refine hl.remove he (fun a ha hae => ?_) fun a ha hae => ?_
  · obtain ⟨ra, _, ha₁, -⟩ := hnode a ha
    rw [next, get_listDel hs hen hp hn ha₁]
    simp only [Field.next.injEq, reduceCtorEq, if_false, hae, apply_ite (BitVec.ofNat 64),
      ofNat_toNat]
    rfl
  · obtain ⟨ra, _, -, ha₂⟩ := hnode a ha
    rw [prev, get_listDel hs hen hp hn ha₂]
    simp only [Field.prev.injEq, reduceCtorEq, if_false, hae, apply_ite (BitVec.ofNat 64),
      ofNat_toNat]
    rfl

/-- A ring without a common node stays as it is. -/
theorem linked_listAdd_of_disjoint (hb : Node g P r b)
    (hl' : Linked (next g m) (prev g m) h' l') (hnode' : ∀ a ∈ h' :: l', ∃ r, Node g P r a)
    (hdis : ∀ a ∈ h' :: l', a ∉ h :: l ∧ a ≠ b) :
    Linked (next g (listAdd g m b h)) (prev g (listAdd g m b h)) h' l' := by
  obtain ⟨rh, hh⟩ := hnode h List.mem_cons_self
  obtain ⟨rn, hn⟩ := hnode _ (hl.next_mem List.mem_cons_self)
  refine hl'.congr fun a ha => ?_
  obtain ⟨ra, _, ha₁, ha₂⟩ := hnode' a ha
  obtain ⟨hal, hab⟩ := hdis a ha
  have hah : a ≠ h := fun heq => hal (heq ▸ List.mem_cons_self)
  have han : a ≠ next g m h := fun heq => hal (heq ▸ hl.next_mem List.mem_cons_self)
  rw [next, prev, get_listAdd hs hb hh hn ha₁, get_listAdd hs hb hh hn ha₂]
  simp only [Field.next.injEq, Field.prev.injEq, reduceCtorEq, if_false, hab, hah, han]
  exact ⟨rfl, rfl⟩

theorem linked_listDel_of_disjoint (he : e ∈ l)
    (hl' : Linked (next g m) (prev g m) h' l') (hnode' : ∀ a ∈ h' :: l', ∃ r, Node g P r a)
    (hdis : ∀ a ∈ h' :: l', a ∉ h :: l) :
    Linked (next g (listDel g m e)) (prev g (listDel g m e)) h' l' := by
  have he' : e ∈ h :: l := List.mem_cons_of_mem h he
  obtain ⟨re, hen⟩ := hnode e he'
  obtain ⟨rn, hn⟩ := hnode _ (hl.next_mem he')
  obtain ⟨rp, hp⟩ := hnode _ (hl.prev_mem he')
  refine hl'.congr fun a ha => ?_
  obtain ⟨ra, _, ha₁, ha₂⟩ := hnode' a ha
  have hae : a ≠ e := fun heq => hdis a ha (heq ▸ he')
  have han : a ≠ next g m e := fun heq => hdis a ha (heq ▸ hl.next_mem he')
  have hap : a ≠ prev g m e := fun heq => hdis a ha (heq ▸ hl.prev_mem he')
  rw [next, prev, get_listDel hs hen hp hn ha₁, get_listDel hs hen hp hn ha₂]
  simp only [Field.next.injEq, Field.prev.injEq, reduceCtorEq, if_false, hae, han, hap]
  exact ⟨rfl, rfl⟩

theorem get_listAdd_of_not_link (hb : Node g P r b) (hf : Spot g P f r' o) (hnot : ¬ f.IsLink) :
    get g (listAdd g m b h) f = get g m f := by
  obtain ⟨rh, hh⟩ := hnode h List.mem_cons_self
  obtain ⟨rn, hn⟩ := hnode _ (hl.next_mem List.mem_cons_self)
  rw [get_listAdd hs hb hh hn hf]
  cases f <;> simp_all [Field.IsLink]

theorem get_listDel_of_not_link (he : e ∈ l) (hf : Spot g P f r' o) (hnot : ¬ f.IsLink) :
    get g (listDel g m e) f = get g m f := by
  have he' : e ∈ h :: l := List.mem_cons_of_mem h he
  obtain ⟨re, hen⟩ := hnode e he'
  obtain ⟨rn, hn⟩ := hnode _ (hl.next_mem he')
  obtain ⟨rp, hp⟩ := hnode _ (hl.prev_mem he')
  rw [get_listDel hs hen hp hn hf]
  cases f <;> simp_all [Field.IsLink]

end Rings

/-! ## The relation -/

/-- The numbers in a `struct frame`. -/
inductive Datum
  | order
  | state
  | metaPoolIdx
  | refCount
  | cowRefCount
  deriving DecidableEq, Repr

/-- Where a number of the frame `idx` is stored. -/
def Datum.field (idx : ℕ) : Datum → Field
  | .order => .order idx
  | .state => .state idx
  | .metaPoolIdx => .metaPoolIdx idx
  | .refCount => .refCount idx
  | .cowRefCount => .cowRefCount idx

/-- What is stored there. -/
def Datum.code (f : Frame) : Datum → ℕ
  | .order => toUnsigned f.order
  | .state => stateCode f.state
  | .metaPoolIdx => (f.metaPoolIdx % 2 ^ 8).toNat
  | .refCount => toUnsigned f.refCount
  | .cowRefCount => toUnsigned f.cowRefCount

/-- The circular lists. -/
inductive FreeList
  | area (k : ℕ)
  | pool (i : ℕ)
  deriving DecidableEq, Repr

namespace FreeList

/-- The head of the list. -/
def head (g : Globals) : FreeList → Addr
  | area k => g.freeAreaAt k
  | pool i => g.freeListAt i

/-- The nodes on the list. -/
def nodes (g : Globals) (s : Allocator) : FreeList → List Addr
  | area k => (s.buddy.freeArea k).map g.nodeAt
  | pool i => (s.gPools i).freeList

/-- The list is in use when the first `n` chunk pools are set up. -/
def InUse (n : ℕ) : FreeList → Prop
  | area k => k ≤ buddyMaxOrder
  | pool i => i < n

/-- The addresses that a node of the list may have. -/
def IsNode (g : Globals) (P : ℕ → Prop) : FreeList → Addr → Prop
  | area _, a => ∃ idx < g.memTotalPage, a = g.nodeAt idx
  | pool _, a => ∃ idx c, idx < g.memTotalPage ∧ P idx ∧ c < 256 ∧
      a = g.pageToAddr idx + BitVec.ofNat 64 (c * 16)

end FreeList

/-- The memory holds the state `s`, with the first `n` chunk pools. -/
structure Rep (g : Globals) (P : ℕ → Prop) (n : ℕ) (m : Mem) (s : Allocator) : Prop where
  start : s.buddy.mempoolStart = g.mempoolStart
  size : s.buddy.mempoolSize = g.mempoolSize
  total : s.buddy.memTotalPage = g.memTotalPage
  pools : n ≤ chunkPoolCount
  frame : ∀ idx < g.memTotalPage, ∀ d : Datum,
    get g m (d.field idx) = d.code (s.buddy.frameArray idx)
  chunkSize : ∀ i < n, get g m (.chunkSize i) = (s.gPools i).chunkSize
  linked : ∀ x : FreeList, x.InUse n → Linked (next g m) (prev g m) (x.head g) (x.nodes g s)
  area_lt : ∀ k ≤ buddyMaxOrder, ∀ idx ∈ s.buddy.freeArea k, idx < g.memTotalPage
  chunk : ∀ i < n, ∀ a ∈ (s.gPools i).freeList, (FreeList.pool i).IsNode g P a
  apart : ∀ x y : FreeList, x.InUse n → y.InUse n → ∀ a ∈ x.nodes g s, a ∈ y.nodes g s → x = y

variable {s s' : Allocator} {x y : FreeList} {d : Datum}

theorem Datum.spot (d : Datum) (h : idx < g.memTotalPage) :
    ∃ o, Spot g P (d.field idx) .frames o := by
  cases d
  · exact ⟨_, .order h⟩
  · exact ⟨_, .state h⟩
  · exact ⟨_, .metaPoolIdx h⟩
  · exact ⟨_, .refCount h⟩
  · exact ⟨_, .cowRefCount h⟩

theorem Datum.field_inj {d d' : Datum} : d.field idx = d'.field idx' ↔ d = d' ∧ idx = idx' := by
  cases d <;> cases d' <;> simp [Datum.field]

theorem Datum.not_isLink (d : Datum) : ¬ (d.field idx).IsLink := by
  cases d <;> exact id

namespace FreeList

/-- The part with the heads of such lists. -/
def headPart : FreeList → Part
  | area _ => .freeArea
  | pool _ => .gPools

/-- The part with their nodes. -/
def nodePart : FreeList → Part
  | area _ => .frames
  | pool _ => .pages

theorem node_head (hx : x.InUse n) (hn : n ≤ chunkPoolCount) : Node g P x.headPart (x.head g) := by
  cases x with
  | area k => exact ⟨_, .areaNext hx, .areaPrev hx⟩
  | pool i => exact ⟨_, .listNext (lt_of_lt_of_le hx hn), .listPrev (lt_of_lt_of_le hx hn)⟩

theorem IsNode.node (ha : x.IsNode g P a) : Node g P x.nodePart a := by
  cases x with
  | area k =>
    obtain ⟨idx, hidx, rfl⟩ := ha
    exact ⟨_, .nodeNext hidx, .nodePrev hidx⟩
  | pool i =>
    obtain ⟨idx, c, hidx, hP, hc, rfl⟩ := ha
    exact ⟨_, .chunkNext hidx hP hc, .chunkPrev hidx hP hc⟩

end FreeList

theorem Node.unique (hs : Separate g P) (ha : Node g P r a) (ha' : Node g P r' a) : r = r' := by
  obtain ⟨_, h₁, -⟩ := ha
  obtain ⟨_, h₂, -⟩ := ha'
  exact (h₁.unique h₂ hs).1

/-- A node is no head. -/
theorem FreeList.IsNode.ne_head (ha : x.IsNode g P a) (hs : Separate g P) (hy : y.InUse n)
    (hn : n ≤ chunkPoolCount) : a ≠ y.head g := by
  rintro rfl
  have hpart := ha.node.unique hs (FreeList.node_head hy hn)
  cases x <;> cases y <;> cases hpart

theorem FreeList.head_inj (hs : Separate g P) (hx : x.InUse n) (hy : y.InUse n)
    (hn : n ≤ chunkPoolCount) (heq : x.head g = y.head g) : x = y := by
  have hpart := (FreeList.node_head hx hn).unique hs (heq ▸ FreeList.node_head hy hn)
  cases x with
  | area k =>
    cases y with
    | area k' =>
      have h₁ : Spot g P (.next (g.freeAreaAt k)) .freeArea (k * 16) := .areaNext hx
      have h₂ : Spot g P (.next (g.freeAreaAt k')) .freeArea (k' * 16) := .areaNext hy
      rw [show g.freeAreaAt k = g.freeAreaAt k' from heq] at h₁
      have := (h₁.unique h₂ hs).2
      rw [Nat.eq_of_mul_eq_mul_right (by decide) this]
    | pool i => cases hpart
  | pool i =>
    cases y with
    | area k => cases hpart
    | pool i' =>
      have h₁ : Spot g P (.next (g.freeListAt i)) .gPools (i * 24 + 8) :=
        .listNext (lt_of_lt_of_le hx hn)
      have h₂ : Spot g P (.next (g.freeListAt i')) .gPools (i' * 24 + 8) :=
        .listNext (lt_of_lt_of_le hy hn)
      rw [show g.freeListAt i = g.freeListAt i' from heq] at h₁
      have := (h₁.unique h₂ hs).2
      rw [show i = i' by omega]

theorem nodeAt_inj (hs : Separate g P) (h : idx < g.memTotalPage) (h' : idx' < g.memTotalPage)
    (heq : g.nodeAt idx = g.nodeAt idx') : idx = idx' := by
  have h₁ : Spot g P (.next (g.nodeAt idx)) .frames (idx * 40 + 8) := .nodeNext h
  have h₂ : Spot g P (.next (g.nodeAt idx')) .frames (idx' * 40 + 8) := .nodeNext h'
  rw [heq] at h₁
  have := (h₁.unique h₂ hs).2
  omega

namespace Rep

theorem isNode (h : Rep g P n m s) (hx : x.InUse n) (ha : a ∈ x.nodes g s) : x.IsNode g P a := by
  cases x with
  | area k =>
    obtain ⟨idx, hidx, rfl⟩ := List.mem_map.1 ha
    exact ⟨idx, h.area_lt k hx idx hidx, rfl⟩
  | pool i => exact h.chunk i hx a ha

theorem node (h : Rep g P n m s) (hx : x.InUse n) :
    ∀ a ∈ x.head g :: x.nodes g s, ∃ r, Node g P r a := by
  intro a ha
  rcases List.mem_cons.1 ha with rfl | ha
  · exact ⟨_, FreeList.node_head hx h.pools⟩
  · exact ⟨_, (h.isNode hx ha).node⟩

/-- The rings of two lists have no common node. -/
theorem disjoint (h : Rep g P n m s) (hs : Separate g P) (hx : x.InUse n) (hy : y.InUse n)
    (hne : y ≠ x) : ∀ a ∈ y.head g :: y.nodes g s, a ∉ x.head g :: x.nodes g s := by
  intro a ha ha'
  rcases List.mem_cons.1 ha with rfl | ha
  · rcases List.mem_cons.1 ha' with heq | ha'
    · exact hne (FreeList.head_inj hs hy hx h.pools heq)
    · exact (h.isNode hx ha').ne_head hs hy h.pools rfl
  · rcases List.mem_cons.1 ha' with rfl | ha'
    · exact (h.isNode hy ha).ne_head hs hx h.pools rfl
    · exact hne (h.apart y x hy hx a ha ha')

end Rep

/-- Only the lists of the two states may differ. -/
structure SameData (s s' : Allocator) : Prop where
  start : s'.buddy.mempoolStart = s.buddy.mempoolStart
  size : s'.buddy.mempoolSize = s.buddy.mempoolSize
  total : s'.buddy.memTotalPage = s.buddy.memTotalPage
  frames : s'.buddy.frameArray = s.buddy.frameArray
  chunkSize : ∀ i, (s'.gPools i).chunkSize = (s.gPools i).chunkSize

namespace Rep

/-- `list_add` puts a new node on a list. -/
theorem listAdd (h : Rep g P n m s) (hs : Separate g P) (hx : x.InUse n) (hb : x.IsNode g P b)
    (hfresh : ∀ y : FreeList, y.InUse n → b ∉ y.nodes g s) (hsame : SameData s s')
    (hself : x.nodes g s' = b :: x.nodes g s)
    (hother : ∀ y : FreeList, y ≠ x → y.nodes g s' = y.nodes g s)
    (harea : ∀ k ≤ buddyMaxOrder, ∀ idx ∈ s'.buddy.freeArea k, idx < g.memTotalPage) :
    Rep g P n (Heap.listAdd g m b (x.head g)) s' := by
  have hring := h.linked x hx
  have hnode := h.node hx
  have hnew : b ∉ x.head g :: x.nodes g s := fun hmem =>
    (List.mem_cons.1 hmem).elim (hb.ne_head hs hx h.pools) (hfresh x hx)
  have hdata : ∀ {f r o}, Spot g P f r o → ¬ f.IsLink →
      get g (Heap.listAdd g m b (x.head g)) f = get g m f := fun hf hnot =>
    get_listAdd_of_not_link hs hring hnode hb.node hf hnot
  refine ⟨hsame.start.trans h.start, hsame.size.trans h.size, hsame.total.trans h.total, h.pools,
    fun idx hidx d => ?_, fun i hi => ?_, fun y hy => ?_, harea, fun i hi a ha => ?_,
    fun y z hy hz a hay haz => ?_⟩
  · obtain ⟨o, ho⟩ := d.spot hidx
    rw [hdata ho d.not_isLink, hsame.frames]
    exact h.frame idx hidx d
  · rw [hdata (.chunkSize (lt_of_lt_of_le hi h.pools)) id, hsame.chunkSize]
    exact h.chunkSize i hi
  · by_cases hyx : y = x
    · subst hyx
      rw [hself]
      exact linked_listAdd hs hring hnode hb.node hnew
    · rw [hother y hyx]
      refine linked_listAdd_of_disjoint hs hring hnode hb.node (h.linked y hy) (h.node hy)
        fun a ha => ⟨h.disjoint hs hx hy hyx a ha, ?_⟩
      rintro rfl
      exact (List.mem_cons.1 ha).elim (hb.ne_head hs hy h.pools) (hfresh y hy)
  · change a ∈ (FreeList.pool i).nodes g s' at ha
    by_cases hix : FreeList.pool i = x
    · subst hix
      rw [hself] at ha
      rcases List.mem_cons.1 ha with rfl | ha
      · exact hb
      · exact h.isNode hi ha
    · rw [hother _ hix] at ha
      exact h.isNode hi ha
  · by_contra hne
    have hcase : ∀ w : FreeList, w.InUse n → a ∈ w.nodes g s' → (w = x ∧ a = b) ∨
        a ∈ w.nodes g s := by
      intro w hw haw
      by_cases hwx : w = x
      · subst hwx
        rw [hself] at haw
        exact (List.mem_cons.1 haw).imp_left fun heq => ⟨rfl, heq⟩
      · rw [hother w hwx] at haw
        exact .inr haw
    rcases hcase y hy hay with ⟨hyx, rfl⟩ | hay
    · rcases hcase z hz haz with ⟨hzx, -⟩ | haz
      · exact hne (hyx.trans hzx.symm)
      · exact hfresh z hz haz
    · rcases hcase z hz haz with ⟨-, rfl⟩ | haz
      · exact hfresh y hy hay
      · exact hne (h.apart y z hy hz a hay haz)

/-- `list_del` takes a node off its list. -/
theorem listDel (h : Rep g P n m s) (hs : Separate g P) (hx : x.InUse n) (he : e ∈ x.nodes g s)
    (hsame : SameData s s') (hself : x.nodes g s' = (x.nodes g s).erase e)
    (hother : ∀ y : FreeList, y ≠ x → y.InUse n → y.nodes g s' = y.nodes g s)
    (harea : ∀ k ≤ buddyMaxOrder, ∀ idx ∈ s'.buddy.freeArea k, idx < g.memTotalPage) :
    Rep g P n (Heap.listDel g m e) s' := by
  have hring := h.linked x hx
  have hnode := h.node hx
  have hdata : ∀ {f r o}, Spot g P f r o → ¬ f.IsLink →
      get g (Heap.listDel g m e) f = get g m f := fun hf hnot =>
    get_listDel_of_not_link hs hring hnode he hf hnot
  have hsub : ∀ w : FreeList, w.InUse n → ∀ a ∈ w.nodes g s', a ∈ w.nodes g s := by
    intro w hw a ha
    by_cases hwx : w = x
    · subst hwx
      rw [hself] at ha
      exact List.mem_of_mem_erase ha
    · rwa [hother w hwx hw] at ha
  refine ⟨hsame.start.trans h.start, hsame.size.trans h.size, hsame.total.trans h.total, h.pools,
    fun idx hidx d => ?_, fun i hi => ?_, fun y hy => ?_, harea, fun i hi a ha => ?_,
    fun y z hy hz a hay haz => h.apart y z hy hz a (hsub y hy a hay) (hsub z hz a haz)⟩
  · obtain ⟨o, ho⟩ := d.spot hidx
    rw [hdata ho d.not_isLink, hsame.frames]
    exact h.frame idx hidx d
  · rw [hdata (.chunkSize (lt_of_lt_of_le hi h.pools)) id, hsame.chunkSize]
    exact h.chunkSize i hi
  · by_cases hyx : y = x
    · subst hyx
      rw [hself]
      exact linked_listDel hs hring hnode he
    · rw [hother y hyx hy]
      exact linked_listDel_of_disjoint hs hring hnode he (h.linked y hy) (h.node hy)
        fun a ha => h.disjoint hs hx hy hyx a ha
  · exact h.isNode (x := .pool i) hi (hsub (.pool i) hi a ha)

/-- A store to one number of a frame. -/
theorem setFrame (h : Rep g P n m s) (hs : Separate g P) (hidx : idx < g.memTotalPage) (d : Datum)
    (f : Frame) (hd : d.code f = v % 256 ^ (d.field idx).size)
    (hne : ∀ d', d' ≠ d → Datum.code f d' = Datum.code (s.buddy.frameArray idx) d') :
    Rep g P n (set g m (d.field idx) v) { s with buddy := s.buddy.setFrame idx f } := by
  obtain ⟨o, ho⟩ := Datum.spot (P := P) d hidx
  have hlink : ∀ {f r o}, Spot g P f r o → f.IsLink →
      get g (set g m (d.field idx) v) f = get g m f := by
    intro f r o hf hlink
    refine get_set_of_ne hs ho hf ?_
    rintro rfl
    exact d.not_isLink hlink
  refine ⟨h.start, h.size, h.total, h.pools, fun j hj d' => ?_, fun i hi => ?_, fun y hy => ?_,
    h.area_lt, h.chunk, h.apart⟩
  · obtain ⟨o', ho'⟩ := Datum.spot (P := P) d' hj
    rw [get_set hs ho ho', h.frame j hj]
    by_cases hji : j = idx
    · subst hji
      simp only [Buddy.setFrame, Function.update_self]
      by_cases hdd : d' = d
      · subst hdd
        rw [if_pos rfl, hd]
      · rw [if_neg fun heq => hdd (Datum.field_inj.1 heq).1, hne d' hdd]
    · simp only [Buddy.setFrame, Function.update_of_ne hji]
      rw [if_neg fun heq => hji (Datum.field_inj.1 heq).2]
  · rw [get_set_of_ne hs ho (.chunkSize (lt_of_lt_of_le hi h.pools))
      (by cases d <;> simp [Datum.field])]
    exact h.chunkSize i hi
  · refine (h.linked y hy).congr fun a ha => ?_
    obtain ⟨r, _, ha₁, ha₂⟩ := h.node hy a ha
    rw [next, prev, hlink ha₁ trivial, hlink ha₂ trivial]
    exact ⟨rfl, rfl⟩

end Rep

end BareMetalOS.Heap
