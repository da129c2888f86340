import BareMetalOS.Files.Readers

/-!
# The vnodes of a ramdisk

`ramfs_setup_mount` once more, now with the vnodes that it allocates: each has a place of its own,
its directory lists it and its `parent` points back. Every vnode but the root is listed by its
parent, and by no other directory (`Vnodes.WellFormed`); so a vnode is reached by one path only
(`walk_injective`), and a new entry changes one walk (`walk_addEntry`). When no entry lies below a
regular file, the walk along a path ends in what the first entry at or below the path makes of it
(`kindAt_foldl_add`).
-/

namespace BareMetalOS.Files

open Memory Boot

/-- A vnode of a ramdisk with its inode. A pointer to a vnode is its number in the order of
creation, and the root is number 0. -/
structure RamfsVnode where
  type : FsnodeType
  name : List Byte
  entries : List ℕ
  data : Addr
  size : BitVec 64
  parent : Option ℕ
  deriving DecidableEq

/-- The vnodes in the order of their creation. -/
abbrev Vnodes := List RamfsVnode

namespace Vnodes

/-! ## The operations -/

/-- `ramfs_create_vnode`. -/
def createVnode (type : FsnodeType) (name : List Byte) : RamfsVnode := ⟨type, name, [], 0, 0, none⟩

/-- `ramfs_create_vnode(FS_DIR, "/")` -/
def root : RamfsVnode := createVnode .fsDir (cstr "/")

/-- The name of a vnode. -/
def nameAt (h : Vnodes) (v : ℕ) : Option (List Byte) := h[v]?.map (·.name)

/-- `ramfs_lookup`. -/
def ramfsLookup (h : Vnodes) (dir : ℕ) (componentName : List Byte) : Option ℕ :=
  match h[dir]? with
  | some node =>
    if node.type = .fsDir then node.entries.find? (h.nameAt · = some componentName) else none
  | none => none

/-- The walk along the components of a path. -/
def walk (h : Vnodes) : ℕ → List (List Byte) → Option ℕ
  | v, [] => some v
  | v, c :: cs => (h.ramfsLookup v c).bind (h.walk · cs)

/-- `next->parent = curr; .. list_add_tail(&entry->list, &curr_inode->entries);` for a new vnode. -/
def addEntry (h : Vnodes) (curr : ℕ) (next : RamfsVnode) : Vnodes :=
  h.modify curr (fun dir => { dir with entries := dir.entries ++ [h.length] }) ++
    [{ next with parent := some curr }]

/-- The vnode made for a token that is not found. -/
def newVnode (mode : BitVec 32) (data : Addr) (size : BitVec 64) (token : List Byte)
    (tokens : List (List Byte)) : RamfsVnode :=
  if tokens ≠ [] ∨ mode &&& 0x4000 ≠ 0 then createVnode .fsDir token
  else { createVnode .fsFile token with data, size }

/-- The loop over the tokens of an entry. -/
def addTokens (mode : BitVec 32) (data : Addr) (size : BitVec 64) :
    Vnodes → ℕ → List (List Byte) → Vnodes
  | h, _, [] => h
  | h, curr, token :: tokens =>
    match h.ramfsLookup curr token with
    | some next => addTokens mode data size h next tokens
    | none =>
      addTokens mode data size (h.addEntry curr (newVnode mode data size token tokens)) h.length
        tokens

/-- The loop over the tokens of an entry, from the root on. -/
def add (h : Vnodes) (it : RamfsItem) : Vnodes := addTokens it.mode it.data it.size h 0 it.path

/-- `ramfs_setup_mount` has returned within `n` entries: the vnodes of the mount, or `-1`. The
result of `get_initrd_start` is `start`. -/
def ramfsSetupMount (mem : Bytes) (start : Addr) (n : ℕ) : Option (Option Vnodes) :=
  if initrdAddr start = 0 then some none
  else
    (Ramfs.entriesLoop add mem n (initrdAddr start) [root]).map some

/-! ## Parents and entries -/

/-- The parent of a vnode is the directory that lists it, and no directory lists a name twice. -/
structure WellFormed (h : Vnodes) : Prop where
  root : ∃ node, h[0]? = some node ∧ node.type = .fsDir ∧ node.parent = none
  entries : ∀ (d : ℕ) (dir : RamfsVnode), h[d]? = some dir → ∀ v ∈ dir.entries,
    ∃ node, h[v]? = some node ∧ node.parent = some d
  parent : ∀ (v : ℕ) (node : RamfsVnode), h[v]? = some node → v ≠ 0 →
    ∃ d dir, node.parent = some d ∧ h[d]? = some dir ∧ dir.type = .fsDir ∧ v ∈ dir.entries
  names : ∀ (d : ℕ) (dir : RamfsVnode), h[d]? = some dir → (dir.entries.map h.nameAt).Nodup

variable {h : Vnodes} {next : RamfsVnode} {d v curr : ℕ} {c : List Byte}
  {cs cs' base : List (List Byte)}

theorem ramfsLookup_eq_some (hv : h.ramfsLookup d c = some v) :
    ∃ dir, h[d]? = some dir ∧ dir.type = .fsDir ∧ v ∈ dir.entries ∧ h.nameAt v = some c := by
  rw [ramfsLookup] at hv
  cases hd : h[d]? with
  | none =>
    rw [hd] at hv
    cases hv
  | some dir =>
    simp only [hd] at hv
    split at hv
    · rename_i hdir
      exact ⟨dir, rfl, hdir, List.mem_of_find?_eq_some hv, by simpa using List.find?_some hv⟩
    · cases hv

/-- A walk goes one component further by a lookup. -/
theorem walk_append_singleton (h : Vnodes) (v : ℕ) (cs : List (List Byte)) (c : List Byte) :
    h.walk v (cs ++ [c]) = (h.walk v cs).bind (h.ramfsLookup · c) := by
  induction cs generalizing v with
  | nil => cases hv : h.ramfsLookup v c <;> simp [walk, hv]
  | cons a cs ih =>
    rw [List.cons_append, walk, walk, Option.bind_assoc]
    exact congrArg _ (funext ih)

namespace WellFormed

/-- What a lookup finds points back. -/
theorem parent_of_ramfsLookup (hh : h.WellFormed) (hv : h.ramfsLookup d c = some v) :
    ∃ node, h[v]? = some node ∧ node.parent = some d ∧ node.name = c := by
  obtain ⟨dir, hd, -, hmem, hname⟩ := ramfsLookup_eq_some hv
  obtain ⟨node, hnode, hparent⟩ := hh.entries d dir hd v hmem
  rw [nameAt, hnode] at hname
  exact ⟨node, hnode, hparent, Option.some.inj hname⟩

theorem exists_of_walk (hh : h.WellFormed) (hv : h.walk 0 cs = some v) :
    ∃ node, h[v]? = some node := by
  induction cs using List.reverseRecOn with
  | nil =>
    cases hv
    obtain ⟨node, hnode, -⟩ := hh.root
    exact ⟨node, hnode⟩
  | append_singleton cs c =>
    rw [walk_append_singleton] at hv
    obtain ⟨u, -, hu⟩ := Option.bind_eq_some_iff.1 hv
    obtain ⟨node, hnode, -⟩ := hh.parent_of_ramfsLookup hu
    exact ⟨node, hnode⟩

/-- No walk leads back to the root. -/
theorem walk_ne_root (hh : h.WellFormed) : h.walk 0 (cs ++ [c]) ≠ some 0 := by
  intro hv
  rw [walk_append_singleton] at hv
  obtain ⟨u, -, hu⟩ := Option.bind_eq_some_iff.1 hv
  obtain ⟨node, hnode, hparent, -⟩ := hh.parent_of_ramfsLookup hu
  obtain ⟨root, hroot, -, hnone⟩ := hh.root
  rw [hnode] at hroot
  cases hroot
  rw [hnone] at hparent
  cases hparent

/-- **A vnode is reached by one path only.** -/
theorem walk_injective (hh : h.WellFormed) (hcs : h.walk 0 cs = some v)
    (hcs' : h.walk 0 cs' = some v) : cs = cs' := by
  induction cs using List.reverseRecOn generalizing v cs' with
  | nil =>
    cases hcs
    cases cs' using List.reverseRecOn with
    | nil => rfl
    | append_singleton cs' c' => exact absurd hcs' hh.walk_ne_root
  | append_singleton cs c ih =>
    cases cs' using List.reverseRecOn with
    | nil =>
      cases hcs'
      exact absurd hcs hh.walk_ne_root
    | append_singleton cs' c' =>
      rw [walk_append_singleton] at hcs hcs'
      obtain ⟨u, hu, hv⟩ := Option.bind_eq_some_iff.1 hcs
      obtain ⟨u', hu', hv'⟩ := Option.bind_eq_some_iff.1 hcs'
      obtain ⟨node, hnode, hparent, hname⟩ := hh.parent_of_ramfsLookup hv
      obtain ⟨node', hnode', hparent', hname'⟩ := hh.parent_of_ramfsLookup hv'
      rw [hnode] at hnode'
      cases hnode'
      rw [hparent] at hparent'
      cases hparent'
      rw [ih hu hu', ← hname, hname']

end WellFormed

/-! ## A new vnode -/

theorem getElem?_addEntry (h : Vnodes) (curr v : ℕ) (next : RamfsVnode) :
    (h.addEntry curr next)[v]? =
      if v = h.length then some { next with parent := some curr }
      else h[v]?.map fun x =>
        if curr = v then { x with entries := x.entries ++ [h.length] } else x := by
  rw [addEntry]
  rcases lt_trichotomy v h.length with hv | rfl | hv
  · rw [List.getElem?_append_left (by simpa using hv), List.getElem?_modify, if_neg hv.ne]
    rfl
  · rw [if_pos rfl, List.getElem?_append_right (by simp)]
    simp
  · rw [if_neg hv.ne', List.getElem?_eq_none (by simpa using hv), List.getElem?_eq_none hv.le]
    rfl

theorem nameAt_addEntry (h : Vnodes) (curr v : ℕ) (next : RamfsVnode) :
    (h.addEntry curr next).nameAt v = if v = h.length then some next.name else h.nameAt v := by
  rw [nameAt, getElem?_addEntry, nameAt]
  split
  · rfl
  · rw [Option.map_map]
    congr 1
    funext x
    rw [Function.comp]
    split <;> rfl

/-- Nothing is found in the new vnode. -/
theorem ramfsLookup_addEntry_new (hnext : next.entries = []) :
    (h.addEntry curr next).ramfsLookup h.length c = none := by
  rw [ramfsLookup, getElem?_addEntry, if_pos rfl]
  simp [hnext]

theorem lt_length_of_getElem? {node : RamfsVnode} (hv : h[v]? = some node) : v < h.length :=
  (List.getElem?_eq_some_iff.1 hv).1

namespace WellFormed

theorem lt_length_of_mem_entries (hh : h.WellFormed) {dir : RamfsVnode} (hd : h[d]? = some dir)
    (hv : v ∈ dir.entries) : v < h.length := by
  obtain ⟨node, hnode, -⟩ := hh.entries d dir hd v hv
  exact lt_length_of_getElem? hnode

/-- The entries of a directory keep their names. -/
theorem nameAt_addEntry_of_mem (hh : h.WellFormed) {dir : RamfsVnode} (hd : h[d]? = some dir)
    (hv : v ∈ dir.entries) : (h.addEntry curr next).nameAt v = h.nameAt v := by
  rw [nameAt_addEntry, if_neg (hh.lt_length_of_mem_entries hd hv).ne]

/-- A lookup finds the new vnode in its directory, and everything else as before. -/
theorem ramfsLookup_addEntry (hh : h.WellFormed) {dir : RamfsVnode} (hcurr : h[curr]? = some dir)
    (hdir : dir.type = .fsDir) (hnone : h.ramfsLookup curr next.name = none) (hd : d < h.length) :
    (h.addEntry curr next).ramfsLookup d c =
      if d = curr ∧ c = next.name then some h.length else h.ramfsLookup d c := by
  have hfind : ∀ x : RamfsVnode, h[d]? = some x →
      x.entries.find? (fun e => (h.addEntry curr next).nameAt e = some c) =
        x.entries.find? (fun e => h.nameAt e = some c) := by
    intro x hx
    apply List.find?_congr
    intro e he
    rw [hh.nameAt_addEntry_of_mem hx he]
  have hnew : (h.addEntry curr next).nameAt h.length = some next.name := by
    rw [nameAt_addEntry, if_pos rfl]
  rw [ramfsLookup, getElem?_addEntry, if_neg hd.ne]
  by_cases hdc : curr = d
  · subst hdc
    have hlookup : ∀ c, h.ramfsLookup curr c = dir.entries.find? (h.nameAt · = some c) := by
      intro c
      rw [ramfsLookup, hcurr]
      exact if_pos hdir
    rw [hcurr, Option.map_some, if_pos rfl]
    simp only [hdir, if_true, List.find?_append, hfind dir hcurr]
    rw [hlookup]
    by_cases hc : c = next.name
    · rw [hlookup] at hnone
      rw [if_pos ⟨trivial, hc⟩, hc, hnone, Option.none_or, List.find?_cons_of_pos]
      rw [hnew]
      exact decide_eq_true rfl
    · rw [if_neg fun h => hc h.2, List.find?_cons_of_neg, List.find?_nil, Option.or_none]
      rw [hnew, decide_eq_true_eq, Option.some.injEq]
      exact Ne.symm hc
  · rw [if_neg fun h => hdc h.1.symm, ramfsLookup]
    cases hx : h[d]? with
    | none => rfl
    | some x =>
      rw [Option.map_some, if_neg hdc]
      simp only
      rw [hfind x hx]

theorem addEntry (hh : h.WellFormed) {dir : RamfsVnode} (hcurr : h[curr]? = some dir)
    (hdir : dir.type = .fsDir) (hnone : h.ramfsLookup curr next.name = none)
    (hnext : next.entries = []) : (h.addEntry curr next).WellFormed := by
  have hlt := lt_length_of_getElem? hcurr
  -- a vnode of the new heap is the new one, or an old one with or without a new entry
  have hcases : ∀ (v : ℕ) (node : RamfsVnode), (h.addEntry curr next)[v]? = some node →
      v = h.length ∧ node = { next with parent := some curr } ∨
        ∃ x, h[v]? = some x ∧
          node = if curr = v then { x with entries := x.entries ++ [h.length] } else x := by
    intro v node hnode
    rw [getElem?_addEntry] at hnode
    split at hnode
    · rename_i hv
      exact .inl ⟨hv, (Option.some.inj hnode).symm⟩
    · obtain ⟨x, hx, hnode⟩ := Option.map_eq_some_iff.1 hnode
      exact .inr ⟨x, hx, hnode.symm⟩
  have hold : ∀ (v : ℕ) (x : RamfsVnode), h[v]? = some x → ∃ node : RamfsVnode,
      (h.addEntry curr next)[v]? = some node ∧ node.parent = x.parent ∧ node.type = x.type ∧
        ∀ e ∈ x.entries, e ∈ node.entries := by
    intro v x hx
    have hv := (lt_length_of_getElem? hx).ne
    refine ⟨if curr = v then { x with entries := x.entries ++ [h.length] } else x, ?_, ?_⟩
    · rw [getElem?_addEntry, if_neg hv, hx]
      rfl
    · split
      · exact ⟨rfl, rfl, fun e he => List.mem_append_left _ he⟩
      · exact ⟨rfl, rfl, fun e he => he⟩
  have hself : (h.addEntry curr next)[curr]? =
      some { dir with entries := dir.entries ++ [h.length] } := by
    rw [getElem?_addEntry, if_neg hlt.ne, hcurr, Option.map_some, if_pos rfl]
  constructor
  case root =>
    obtain ⟨root, hroot, htype, hparent⟩ := hh.root
    obtain ⟨node, hnode, hp, ht, -⟩ := hold 0 root hroot
    exact ⟨node, hnode, ht.trans htype, hp.trans hparent⟩
  case entries =>
    intro d node hd e he
    rcases hcases d node hd with ⟨-, rfl⟩ | ⟨x, hx, rfl⟩
    · rw [hnext] at he
      cases he
    · have hmem : e ∈ x.entries ∨ curr = d ∧ e = h.length := by
        split at he
        · rename_i hdc
          rcases List.mem_append.1 he with he | he
          · exact .inl he
          · exact .inr ⟨hdc, List.mem_singleton.1 he⟩
        · exact .inl he
      rcases hmem with hmem | ⟨rfl, rfl⟩
      · obtain ⟨child, hchild, hparent⟩ := hh.entries d x hx e hmem
        obtain ⟨node, hnode, hp, -⟩ := hold e child hchild
        exact ⟨node, hnode, hp.trans hparent⟩
      · refine ⟨{ next with parent := some curr }, ?_, rfl⟩
        rw [getElem?_addEntry, if_pos rfl]
  case parent =>
    intro v node hv hne
    rcases hcases v node hv with ⟨rfl, rfl⟩ | ⟨x, hx, rfl⟩
    · exact ⟨curr, _, rfl, hself, hdir, List.mem_append_right _ (List.mem_singleton.2 rfl)⟩
    · obtain ⟨d, y, hparent, hd, htype, hmem⟩ := hh.parent v x hx hne
      obtain ⟨node, hnode, -, ht, he⟩ := hold d y hd
      refine ⟨d, node, ?_, hnode, ht.trans htype, he v hmem⟩
      split <;> exact hparent
  case names =>
    intro d node hd
    rcases hcases d node hd with ⟨-, rfl⟩ | ⟨x, hx, rfl⟩
    · rw [hnext]
      exact .nil
    · have hnames : x.entries.map (h.addEntry curr next).nameAt = x.entries.map h.nameAt :=
        List.map_congr_left fun e he => hh.nameAt_addEntry_of_mem hx he
      split
      · rename_i hdc
        subst hdc
        rw [hcurr] at hx
        cases hx
        rw [List.map_append, hnames, List.map_singleton, nameAt_addEntry, if_pos rfl,
          List.nodup_append]
        refine ⟨hh.names curr dir hcurr, List.nodup_singleton _, ?_⟩
        intro a ha b hb hab
        obtain ⟨e, he, rfl⟩ := List.mem_map.1 ha
        rw [List.mem_singleton.1 hb] at hab
        rw [ramfsLookup, hcurr] at hnone
        simp only [hdir, if_true] at hnone
        exact absurd (decide_eq_true hab) (List.find?_eq_none.1 hnone e he)
      · rw [hnames]
        exact hh.names d x hx

end WellFormed

/-- **A new vnode changes one walk only**: the one along its path. -/
theorem walk_addEntry (hh : h.WellFormed) {dir : RamfsVnode} (hcurr : h[curr]? = some dir)
    (hdir : dir.type = .fsDir) (hnone : h.ramfsLookup curr next.name = none)
    (hnext : next.entries = []) (hbase : h.walk 0 base = some curr) (cs : List (List Byte)) :
    (h.addEntry curr next).walk 0 cs =
      if cs = base ++ [next.name] then some h.length else h.walk 0 cs := by
  induction cs using List.reverseRecOn with
  | nil => rw [if_neg (by simp), walk, walk]
  | append_singleton cs c ih =>
    rw [walk_append_singleton, walk_append_singleton, ih]
    simp only [List.append_singleton_inj]
    by_cases hcs : cs = base ++ [next.name]
    · -- behind the new vnode there is nothing, and there was nothing before
      have hne : ¬ (cs = base ∧ c = next.name) := by
        rintro ⟨h, -⟩
        rw [h] at hcs
        simpa using congrArg List.length hcs
      rw [if_pos hcs, if_neg hne, Option.bind_some, ramfsLookup_addEntry_new hnext, hcs,
        walk_append_singleton, hbase, Option.bind_some, hnone, Option.bind_none]
    · rw [if_neg hcs]
      cases hv : h.walk 0 cs with
      | none =>
        have hne : ¬ (cs = base ∧ c = next.name) := by
          rintro ⟨rfl, -⟩
          rw [hbase] at hv
          cases hv
        rw [if_neg hne]
        rfl
      | some v =>
        obtain ⟨node, hnode⟩ := hh.exists_of_walk hv
        have hiff : v = curr ↔ cs = base := by
          constructor
          · rintro rfl
            exact hh.walk_injective hv hbase
          · rintro rfl
            exact Option.some.inj (hv.symm.trans hbase)
        rw [Option.bind_some, Option.bind_some,
          hh.ramfsLookup_addEntry hcurr hdir hnone (lt_length_of_getElem? hnode)]
        simp only [hiff]

/-! ## What a walk ends in -/

/-- A directory, or a file with the place and the size of its data. -/
inductive NodeKind
  | dir
  | file (data : Addr) (size : BitVec 64)
  deriving DecidableEq

/-- What a vnode is. -/
def kind (node : RamfsVnode) : NodeKind :=
  match node.type with
  | .fsDir => .dir
  | .fsFile => .file node.data node.size

/-- What the walk along a path from the root ends in. -/
def kindAt (h : Vnodes) (cs : List (List Byte)) : Option NodeKind :=
  (h.walk 0 cs).bind fun v => h[v]?.map kind

/-- What an entry is by its mode. -/
def itemKind (mode : BitVec 32) (data : Addr) (size : BitVec 64) : NodeKind :=
  if mode &&& 0x4000 ≠ 0 then .dir else .file data size

variable {mode : BitVec 32} {data : Addr} {size : BitVec 64} {token : List Byte}
  {tokens : List (List Byte)}

theorem name_newVnode : (newVnode mode data size token tokens).name = token := by
  rw [newVnode]
  split <;> rfl

theorem entries_newVnode : (newVnode mode data size token tokens).entries = [] := by
  rw [newVnode]
  split <;> rfl

theorem kind_newVnode : kind (newVnode mode data size token tokens) =
    if tokens = [] then itemKind mode data size else .dir := by
  rw [newVnode, itemKind]
  by_cases ht : tokens = []
  · rw [if_pos ht]
    by_cases hm : mode &&& 0x4000 = 0
    · rw [if_neg fun h => h.elim (absurd ht) (absurd hm), if_neg (not_not.2 hm)]
      rfl
    · rw [if_pos (.inr hm), if_pos hm]
      rfl
  · rw [if_neg ht, if_pos (.inl ht)]
    rfl

theorem kindAt_of_walk {node : RamfsVnode} (hv : h.walk 0 cs = some v) (hnode : h[v]? = some node) :
    h.kindAt cs = some (kind node) := by
  rw [kindAt, hv, Option.bind_some, hnode]
  rfl

theorem kind_eq_dir {node : RamfsVnode} : kind node = .dir ↔ node.type = .fsDir := by
  rw [kind]
  cases node.type <;> simp

theorem kindAt_addEntry (hh : h.WellFormed) {dir : RamfsVnode} (hcurr : h[curr]? = some dir)
    (hdir : dir.type = .fsDir) (hnone : h.ramfsLookup curr next.name = none)
    (hnext : next.entries = []) (hbase : h.walk 0 base = some curr) (cs : List (List Byte)) :
    (h.addEntry curr next).kindAt cs =
      if cs = base ++ [next.name] then some (kind next) else h.kindAt cs := by
  rw [kindAt, walk_addEntry hh hcurr hdir hnone hnext hbase]
  by_cases hcs : cs = base ++ [next.name]
  · rw [if_pos hcs, if_pos hcs, Option.bind_some, getElem?_addEntry, if_pos rfl]
    rfl
  · rw [if_neg hcs, if_neg hcs, kindAt]
    cases hv : h.walk 0 cs with
    | none => rfl
    | some v =>
      obtain ⟨node, hnode⟩ := hh.exists_of_walk hv
      rw [Option.bind_some, Option.bind_some, getElem?_addEntry,
        if_neg (lt_length_of_getElem? hnode).ne, hnode, Option.map_some, Option.map_some,
        Option.map_some]
      split <;> rfl

/-- What the tokens behind `base` add: nothing that was there changes, and every leading part of the
path that was missing is a directory or, for the whole path, what the mode says. -/
theorem addTokens_spec (hh : h.WellFormed) (hbase : h.walk 0 base = some curr)
    (hdirs : ∀ p, p <+: tokens → p ≠ tokens → ∀ k, h.kindAt (base ++ p) = some k → k = .dir) :
    (addTokens mode data size h curr tokens).WellFormed ∧
      ∀ cs, (addTokens mode data size h curr tokens).kindAt cs =
        (h.kindAt cs).or (if base.length < cs.length ∧ cs <+: base ++ tokens then
          some (if cs = base ++ tokens then itemKind mode data size else .dir) else none) := by
  induction tokens generalizing h curr base with
  | nil =>
    refine ⟨hh, fun cs => ?_⟩
    rw [addTokens, if_neg, Option.or_none]
    rintro ⟨hlt, hle⟩
    rw [List.append_nil] at hle
    exact absurd hle.length_le hlt.not_ge
  | cons token tokens ih =>
    obtain ⟨dir, hcurr⟩ := hh.exists_of_walk hbase
    have hdir : dir.type = .fsDir := by
      apply kind_eq_dir.1
      apply hdirs [] (List.nil_prefix) (by simp)
      rw [List.append_nil]
      exact kindAt_of_walk hbase hcurr
    have hassoc : base ++ token :: tokens = base ++ [token] ++ tokens := by
      rw [List.append_assoc, List.singleton_append]
    -- a leading part of the path is this one, or one of those that are left
    have hsplit : ∀ cs : List (List Byte),
        base.length < cs.length ∧ cs <+: base ++ token :: tokens ↔
        cs = base ++ [token] ∨
          (base ++ [token]).length < cs.length ∧ cs <+: base ++ [token] ++ tokens := by
      intro cs
      rw [hassoc, List.length_append, List.length_singleton]
      constructor
      · rintro ⟨hlt, hle⟩
        rcases Nat.lt_or_ge (base.length + 1) cs.length with hlt' | hge
        · exact .inr ⟨hlt', hle⟩
        · left
          have hpre := List.prefix_of_prefix_length_le hle (List.prefix_append _ _)
            (by rw [List.length_append, List.length_singleton]; exact hge)
          exact hpre.eq_of_length (by rw [List.length_append, List.length_singleton]; omega)
      · rintro (rfl | ⟨hlt, hle⟩)
        · exact ⟨by simp, List.prefix_append _ _⟩
        · exact ⟨by omega, hle⟩
    rw [addTokens]
    cases hnext : h.ramfsLookup curr token with
    | some next =>
      have hbase' : h.walk 0 (base ++ [token]) = some next := by
        rw [walk_append_singleton, hbase, Option.bind_some, hnext]
      obtain ⟨node, hnode⟩ := hh.exists_of_walk hbase'
      obtain ⟨hwf, hkind⟩ := ih hh hbase' (by
        intro p hp hne k hk
        rw [List.append_assoc, List.singleton_append] at hk
        exact hdirs (token :: p) (by simpa using hp) (by simpa using hne) k hk)
      refine ⟨hwf, fun cs => ?_⟩
      simp only [hkind, hsplit cs]
      by_cases hcs : cs = base ++ [token]
      · rw [hcs, kindAt_of_walk hbase' hnode]
        rfl
      · simp only [hcs, false_or, hassoc]
    | none =>
      have hname : h.ramfsLookup curr (newVnode mode data size token tokens).name = none := by
        rw [name_newVnode, hnext]
      have hwalk := walk_addEntry hh hcurr hdir hname entries_newVnode hbase
      have hadd := kindAt_addEntry hh hcurr hdir hname entries_newVnode hbase
      rw [name_newVnode] at hwalk
      simp only [name_newVnode] at hadd
      obtain ⟨hwf, hkind⟩ := ih (hh.addEntry hcurr hdir hname entries_newVnode)
        ((hwalk (base ++ [token])).trans (if_pos rfl)) (by
          intro p hp hne k hk
          rw [hadd] at hk
          split at hk
          · rename_i hnil
            have hpnil : p = [] := by simpa using hnil
            subst hpnil
            rw [kind_newVnode, if_neg (Ne.symm hne)] at hk
            exact (Option.some.inj hk).symm
          · rw [List.append_assoc, List.singleton_append] at hk
            exact hdirs (token :: p) (by simpa using hp) (by simpa using hne) k hk)
      refine ⟨hwf, fun cs => ?_⟩
      simp only
      rw [hkind, hadd]
      simp only [hsplit cs]
      by_cases hcs : cs = base ++ [token]
      · have hold : h.kindAt (base ++ [token]) = none := by
          rw [kindAt, walk_append_singleton, hbase, Option.bind_some, hnext, Option.bind_none]
        have hfull : base ++ [token] = base ++ token :: tokens ↔ tokens = [] := by
          rw [List.append_cancel_left_eq, List.cons.injEq, and_iff_right rfl, eq_comm]
        simp only [hcs, if_true, true_or, hold, Option.none_or, Option.some_or, hfull]
        rw [kind_newVnode]
      · simp only [hcs, false_or, if_false, hassoc]

/-! ## All entries -/

variable {items : List RamfsItem}

/-- No entry lies below a file. -/
def NoneBelowFile (items : List RamfsItem) : Prop :=
  ∀ it ∈ items, ¬ it.isDir → ∀ it' ∈ items, it.path <+: it'.path → it'.path = it.path

/-- What the first entry at or below a path makes of it. -/
def firstKind (items : List RamfsItem) (cs : List (List Byte)) : Option NodeKind :=
  (firstBelow items cs).map fun it =>
    if it.path = cs then itemKind it.mode it.data it.size else .dir

theorem itemKind_of_isDir {it : RamfsItem} (h : it.isDir) :
    itemKind it.mode it.data it.size = .dir :=
  if_pos h

theorem itemKind_of_not_isDir {it : RamfsItem} (h : ¬ it.isDir) :
    itemKind it.mode it.data it.size = .file it.data it.size :=
  if_neg h

theorem wellFormed_root : WellFormed [root] := by
  have hzero : ∀ {v : ℕ} {node : RamfsVnode}, [root][v]? = some node → v = 0 ∧ node = root := by
    intro v node hv
    cases v with
    | zero => exact ⟨rfl, (Option.some.inj hv).symm⟩
    | succ v => cases hv
  constructor
  · exact ⟨root, rfl, rfl, rfl⟩
  · intro d dir hd v hv
    rw [(hzero hd).2] at hv
    cases hv
  · intro v node hv hne
    exact absurd (hzero hv).1 hne
  · intro d dir hd
    rw [(hzero hd).2]
    exact .nil

theorem WellFormed.kindAt_nil (hh : h.WellFormed) : h.kindAt [] = some .dir := by
  obtain ⟨node, hnode, htype, -⟩ := hh.root
  rw [kindAt_of_walk rfl hnode, kind_eq_dir.2 htype]

theorem firstKind_append (items : List RamfsItem) (it : RamfsItem) (cs : List (List Byte)) :
    firstKind (items ++ [it]) cs = (firstKind items cs).or (if cs <+: it.path then
      some (if cs = it.path then itemKind it.mode it.data it.size else .dir) else none) := by
  rw [firstKind, firstKind, firstBelow, firstBelow, List.find?_append]
  cases List.find? (fun it => decide (cs <+: it.path)) items with
  | some x => rfl
  | none =>
    rw [Option.none_or, Option.map_none, Option.none_or]
    by_cases hcs : cs <+: it.path
    · rw [List.find?_cons_of_pos (by simpa using hcs), if_pos hcs, Option.map_some]
      simp only [eq_comm]
    · rw [List.find?_cons_of_neg (by simpa using hcs), if_neg hcs]
      rfl

/-- Where no entry lies below a file, only directories have something below them. -/
theorem firstKind_eq_dir {it : RamfsItem} {k : NodeKind} (hitems : NoneBelowFile (items ++ [it]))
    (hp : cs <+: it.path) (hne : cs ≠ it.path) (hk : firstKind items cs = some k) : k = .dir := by
  obtain ⟨x, hx, rfl⟩ := Option.map_eq_some_iff.1 hk
  split
  · rename_i hpath
    by_cases hdir : x.isDir
    · exact itemKind_of_isDir hdir
    · have hmem : x ∈ items := List.mem_of_find?_eq_some hx
      have heq := hitems x (List.mem_append_left _ hmem) hdir it
        (List.mem_append_right _ (List.mem_singleton.2 rfl)) (by rwa [hpath])
      exact absurd (hpath.symm.trans heq.symm) hne
  · rfl

/-- **The walk along a path ends in what the first entry at or below it says.** -/
theorem kindAt_foldl_add (hitems : NoneBelowFile items) :
    (items.foldl add [root]).WellFormed ∧
      ∀ cs, cs ≠ [] → (items.foldl add [root]).kindAt cs = firstKind items cs := by
  induction items using List.reverseRecOn with
  | nil =>
    refine ⟨wellFormed_root, fun cs hcs => ?_⟩
    cases cs with
    | nil => exact absurd rfl hcs
    | cons c cs => rfl
  | append_singleton items it ih =>
    obtain ⟨hwf, hkind⟩ := ih fun x hx hdir y hy =>
      hitems x (List.mem_append_left _ hx) hdir y (List.mem_append_left _ hy)
    rw [List.foldl_append]
    obtain ⟨hwf', hadd⟩ := @addTokens_spec _ _ [] it.mode it.data it.size it.path hwf rfl (by
      intro p hp hne k hk
      rw [List.nil_append] at hk
      by_cases hnil : p = []
      · rw [hnil, hwf.kindAt_nil] at hk
        exact (Option.some.inj hk).symm
      · rw [hkind p hnil] at hk
        exact firstKind_eq_dir hitems hp hne hk)
    refine ⟨hwf', fun cs hcs => ?_⟩
    have hpos : ([] : List (List Byte)).length < cs.length := List.length_pos_iff.2 hcs
    rw [firstKind_append, ← hkind cs hcs]
    refine (hadd cs).trans ?_
    simp only [hpos, true_and, List.nil_append]

/-! ### The same walk in the tree of inodes -/

/-- What an inode of the tree is. -/
def inodeKind (node : RamfsInode) : NodeKind :=
  match node.type with
  | .fsDir => .dir
  | .fsFile => .file node.data node.size

theorem inodeKind_foldl_add (node : RamfsInode) (items : List RamfsItem) :
    inodeKind (items.foldl RamfsInode.add node) = inodeKind node := by
  obtain ⟨l, hl⟩ := node.exists_foldl_add_eq items
  rw [hl, inodeKind, inodeKind, RamfsInode.type_setEntries, RamfsInode.data_setEntries,
    RamfsInode.size_setEntries]

theorem mem_below {c : List Byte} {it : RamfsItem} (h : it ∈ below c items) :
    ∃ x ∈ items, x.path = c :: it.path ∧ it = { x with path := it.path } := by
  obtain ⟨x, hx, hit⟩ := List.mem_filterMap.1 h
  cases hpath : x.path with
  | nil =>
    rw [hpath] at hit
    cases hit
  | cons t ts =>
    simp only [hpath] at hit
    split at hit
    · rename_i htc
      subst htc
      obtain rfl := Option.some.inj hit
      exact ⟨x, hx, hpath, rfl⟩
    · cases hit

theorem NoneBelowFile.below (hitems : NoneBelowFile items) (c : List Byte) :
    NoneBelowFile (below c items) := by
  intro it hit hdir it' hit' hp
  obtain ⟨x, hx, hxp, hxe⟩ := mem_below hit
  obtain ⟨y, hy, hyp, -⟩ := mem_below hit'
  rw [hxe] at hdir
  have := hitems x hx hdir y hy (by
    rw [hxp, hyp]
    exact List.cons_prefix_cons.2 ⟨rfl, hp⟩)
  rw [hxp, hyp] at this
  exact (List.cons.inj this).2

theorem firstKind_below (items : List RamfsItem) (c : List Byte) (cs : List (List Byte)) :
    firstKind (below c items) cs = firstKind items (c :: cs) := by
  rw [firstKind, firstKind, firstBelow_below, Option.map_map]
  cases hit : firstBelow items (c :: cs) with
  | none => rfl
  | some it =>
    obtain ⟨l, hl⟩ := firstBelow_path hit
    rw [Option.map_some, Option.map_some, Function.comp, ← hl]
    simp only [List.cons_append, List.tail_cons, List.cons.injEq, true_and]
    congr

/-- What is below a directory that the mount has made: nothing but what the entries make there. -/
theorem map_inodeKind_ramfsWalk (hitems : NoneBelowFile items) (name c : List Byte)
    (cs : List (List Byte)) :
    (ramfsWalk (items.foldl RamfsInode.add (ramfsCreateVnode .fsDir name))
      (c :: cs)).map inodeKind = firstKind items (c :: cs) := by
  induction cs generalizing items name c with
  | nil =>
    rw [ramfsWalk, ramfsLookup_foldl_add rfl, ← firstKind_below, firstKind, firstBelow_nil]
    cases below c items with
    | nil => rfl
    | cons it its =>
      have hcreated : inodeKind (created c it) =
          if it.path = [] then itemKind it.mode it.data it.size else .dir := by
        rw [created, itemKind, Ramfs.leaf]
        by_cases hpath : it.path = []
        · rw [if_neg (not_not.2 hpath), if_pos hpath]
          split <;> rfl
        · rw [if_pos hpath, if_neg hpath]
          rfl
      simp only [List.head?_cons, Option.map_some, ← hcreated]
      exact congrArg some (inodeKind_foldl_add _ _)
  | cons c' cs ih =>
    rw [ramfsWalk, ramfsLookup_foldl_add rfl, ← firstKind_below]
    have hbelow := hitems.below c
    cases hb : below c items with
    | nil => rfl
    | cons it its =>
      rw [hb] at hbelow
      change (ramfsWalk ((it :: its).foldl RamfsInode.add (created c it))
        (c' :: cs)).map inodeKind = firstKind (it :: its) (c' :: cs)
      by_cases hfile : it.path = [] ∧ ¬ it.isDir
      · -- a file has nothing below it, in the tree and among the entries
        rw [created_of_file hfile.1 hfile.2, firstKind]
        obtain ⟨l, hl⟩ := (ramfsCreateFile c it.data it.size).exists_foldl_add_eq (it :: its)
        have hnone : firstBelow (it :: its) (c' :: cs) = none := by
          rw [firstBelow, List.find?_eq_none]
          intro x hx hp
          have hpath := hbelow it List.mem_cons_self hfile.2 x hx
            (by rw [hfile.1]; exact List.nil_prefix)
          rw [decide_eq_true_eq, hpath, hfile.1] at hp
          exact absurd (List.prefix_nil.1 hp) (List.cons_ne_nil _ _)
        rw [hl, hnone]
        rfl
      · rw [created_of_dir fun h => not_not.1 fun h' => hfile ⟨h, h'⟩]
        exact ih hbelow c c'

/-- **The vnodes and the tree of inodes show the same at every path.** -/
theorem kindAt_eq_ramfsWalk (hitems : NoneBelowFile items) (hcs : cs ≠ []) :
    (items.foldl add [root]).kindAt cs =
      (ramfsWalk (items.foldl RamfsInode.add (ramfsCreateVnode .fsDir (cstr "/"))) cs).map
        inodeKind := by
  cases cs with
  | nil => exact absurd rfl hcs
  | cons c cs => rw [(kindAt_foldl_add hitems).2 _ hcs, map_inodeKind_ramfsWalk hitems]

end Vnodes

end BareMetalOS.Files
