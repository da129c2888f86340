import BareMetalOS.Files.Buffers

/-!
# Path operations with their faults

`vfs_mkdir`, `vfs_open` and `vfs_mount` with the faults of the source: an access outside of a
buffer, a call of an absent operation, a use of an absent root (`Fault`). Without a fault they do
what the model of the namespace says (`vfsMkdirIn_toOption`, `vfsOpenVnodeIn_toOption`).

No buffer is left exactly where every component that is parsed has at most 254 bytes and every path
that is split has at most 255; one of 255 bytes is not rejected but loses its last byte
(`keepsBuffers_iff`).
-/

namespace BareMetalOS.Files

open Memory (Addr)
open Boot (Byte cstr)

variable {s s' s₁ : Vfs} {cur : Addr} {path d c : List Byte} {type : FsnodeType} {stack : Stack}

/-! ## Operations -/

/-- `v_ops->create` and `v_ops->mkdir`, which the devfs does not have. -/
def vnodeAddIn (s : Vfs) (d : ℕ) (type : FsnodeType) (componentName : List Byte) :
    Except Fault (Vfs × Option ℕ) :=
  match (s.vnodes[d]?).map Vnode.internal with
  | some (.tmpfs inode) => .ok (tmpfsAdd s d inode type componentName)
  | some (.ramfs ..) => .ok (s, none)
  | some (.devfs _) => .error .operation
  | none => .error .vnode

/-- What `vfs_mkdir` and `vfs_open` do to add a vnode in the directory that a lookup answered. -/
def addUnder (type : FsnodeType) (filename : Except Fault (List Byte)) :
    Vfs × Option ℕ → Except Fault (Vfs × Option ℕ)
  | (s, none) => .ok (s, none)
  | (s, some dir) => do
    match ← vnodeAddIn s dir type (← filename) with
    | (s, none) => return (s, none)
    | (s, some new) => return (s.setParent new dir, some new)

/-- What `vfs_mkdir` and `vfs_open` do to add a vnode at the path: the vnode, or `-1`. -/
def addAtIn (s : Vfs) (cur : Addr) (type : FsnodeType) (pathname : List Byte) (stack : Stack) :
    Except Fault (Vfs × Option ℕ) := do
  let (dirname, filename) ← getParentAndChildIn pathname (stack.buffer 1 .temp)
    (stack.buffer 0 .dirname) (stack.buffer 0 .filename)
  addUnder type filename.cstring
    (← vfsLookupIn s cur (← dirname.cstring) (stack.buffer 2 .component))

/-- `vfs_mkdir` -/
def vfsMkdirIn (s : Vfs) (cur : Addr) (pathname : List Byte) (stack : Stack) :
    Except Fault (Vfs × Option ℕ) :=
  addAtIn s cur .fsDir pathname stack

/-- The vnode that `vfs_open` finds or, with `O_CREAT`, creates, or `-1`. -/
def vfsOpenVnodeIn (s : Vfs) (cur : Addr) (pathname : List Byte) (creat : Bool) (stack : Stack) :
    Except Fault (Vfs × Option ℕ) := do
  match ← vfsLookupIn s cur pathname (stack.buffer 3 .component) with
  | (s, some v) => return (s, some v)
  | (s, none) => if creat then addAtIn s cur .fsFile pathname stack else return (s, none)

/-- `vfs_mount`, where the search of `fs_list` finds `fs`: whether it succeeds. The result of
`setup_mount` is not checked. -/
def vfsMountIn (s : Vfs) (cur : Addr) (target : List Byte) (fs : Option Filesystem)
    (stack : Stack) : Except Fault (Vfs × Bool) :=
  match fs with
  | none => .ok (s, false)
  | some fs => do
    match ← vfsLookupIn s cur target (stack.buffer 3 .component) with
    | (s, none) => return (s, false)
    | (s, some mountPoint) =>
      let v ← Fault.valid s.vnodes[mountPoint]?
      match setupMount s fs with
      | none => .error .mountRoot
      | some new =>
        let root := s.vnodes.length
        let parent := if mountPoint = s.root then some root else v.parent
        let s := { s with vnodes := s.vnodes ++ new }
        let s := s.modify root fun x => { x with parent := parent }
        return (s.modify mountPoint fun x => { x with mount := some root }, true)

/-! ## Results -/

/-- The parent of a path that is split fits the buffer of the lookup. -/
theorem getParentAndChild_length (h : getParentAndChild path = some (d, c)) : d.length ≤ 254 := by
  have hlen : path.length ≤ 255 := by
    by_contra hlong
    rw [getParentAndChild, if_pos (by omega)] at h
    cases h
  have hseen := length_seenPath_le path
  rw [getParentAndChild_eq hlen] at h
  split at h
  · cases h
    decide
  · cases h
    decide
  · cases h
    exact (List.length_take_le' _ _).trans hseen

theorem length_le_of_mem_components (h : c ∈ components path d) :
    c.length ≤ d.length + path.length := by
  induction path generalizing d with
  | nil =>
    rw [components] at h
    split at h
    · cases h
    · cases List.mem_singleton.1 h
      exact le_rfl
  | cons x path ih =>
    have hskip : c ∈ components path [] → c.length ≤ d.length + (x :: path).length := by
      intro hmem
      have := ih hmem
      rw [List.length_nil] at this
      rw [List.length_cons]
      omega
    rw [components] at h
    split at h
    · split at h
      · exact hskip h
      · rcases List.mem_cons.1 h with rfl | hmem
        · exact Nat.le_add_right _ _
        · exact hskip hmem
    · have := ih h
      rw [List.length_append, List.length_singleton] at this
      rw [List.length_cons]
      omega

theorem length_le_of_mem_pathComponents (h : c ∈ pathComponents path) :
    c.length ≤ path.length := by
  rw [← components_eq] at h
  have := length_le_of_mem_components h
  rwa [List.length_nil, Nat.zero_add] at this

/-- The lookup of the parent of a path that is split. -/
theorem lookup_parent (h : VfsInv s) (cur : Addr) (hpc : getParentAndChild path = some (d, c)) :
    ∃ s₁ o, vfsLookup s cur d = some (s₁, o) := by
  have hlen := getParentAndChild_length hpc
  obtain ⟨s₁, o, hlook, -⟩ := @vfsLookup_spec s h cur d fun x hx => by
    rw [components_eq] at hx
    exact Nat.lt_succ_of_le ((length_le_of_mem_pathComponents hx).trans hlen)
  exact ⟨s₁, o, hlook⟩

/-- A path of at most 255 bytes is split, its parent is looked up, and the child is added there. -/
theorem addAtIn_eq (h : VfsInv s) (hnul : 0 ∉ path) (hlen : path.length ≤ 255) (cur : Addr)
    (type : FsnodeType) (stack : Stack) : ∃ d c s₁ o, getParentAndChild path = some (d, c) ∧
      vfsLookup s cur d = some (s₁, o) ∧
      addAtIn s cur type path stack = addUnder type (.ok c) (s₁, o) := by
  obtain ⟨d, c, dir, child, hpc, hin, hdir, hchild⟩ := @getParentAndChildIn_ok
    (stack.buffer 1 .temp) path hnul hlen (stack.buffer 0 .dirname) (stack.buffer 0 .filename) rfl
  obtain ⟨s₁, o, hlook⟩ := lookup_parent h cur hpc
  refine ⟨d, c, s₁, o, hpc, hlook, ?_⟩
  have hin' : vfsLookupIn s cur d (stack.buffer 2 .component) = .ok (s₁, o) := by
    rw [vfsLookupIn_eq h cur hdir.nul rfl, hlook]
    rfl
  rw [addAtIn, hin, ok_bind]
  dsimp only
  rw [hdir.cstring, ok_bind, hin', ok_bind, hchild.cstring]

/-- A longer path is not split. -/
theorem addAtIn_long (hnul : 0 ∉ path) (hlen : 255 < path.length) (s : Vfs) (cur : Addr)
    (type : FsnodeType) (stack : Stack) : addAtIn s cur type path stack =
      if path.length < 2 ^ 31 then .error (.index .temp (path.length - 1)) else .error .length := by
  rw [addAtIn, getParentAndChildIn_long hnul hlen _ _ rfl]
  split <;> rfl

theorem vnodeAddIn_toOption (s : Vfs) (d : ℕ) (type : FsnodeType) (c : List Byte) :
    (vnodeAddIn s d type c).toOption = vnodeAdd s d type c := by
  rw [vnodeAddIn, vnodeAdd]
  rcases (s.vnodes[d]?).map Vnode.internal with _ | _ | _ | _ <;> rfl

theorem addAtIn_toOption (h : VfsInv s) (hnul : 0 ∉ path) (cur : Addr) (type : FsnodeType)
    (stack : Stack) : (addAtIn s cur type path stack).toOption = addAt s cur type path := by
  rcases Nat.lt_or_ge 255 path.length with hlong | hshort
  · rw [addAtIn_long hnul hlong, addAt, getParentAndChild, if_pos hlong]
    split <;> rfl
  · obtain ⟨d, c, s₁, o, hpc, hlook, heq⟩ := addAtIn_eq h hnul hshort cur type stack
    rw [heq, addAt, hpc, Option.bind_eq_bind, Option.bind_some]
    dsimp only
    rw [hlook]
    cases o with
    | none => rfl
    | some dir =>
      have hadd := vnodeAddIn_toOption s₁ dir type c
      simp only [addUnder, ok_bind, Option.bind_eq_bind, Option.bind_some]
      rw [← hadd]
      cases vnodeAddIn s₁ dir type c with
      | error e => rfl
      | ok r =>
        obtain ⟨s₂, new⟩ := r
        cases new <;> rfl

/-! ## Components that do not fit -/

/-- The walk fails before each component that does not fit the buffer. -/
def FailsBeforeLong (s : Vfs) (v : ℕ) (cs : List (List Byte)) : Prop :=
  ∀ before c after, cs = before ++ c :: after → 255 ≤ c.length →
    ∃ s', walk s v before = some (s', none)

/-- The rounds of a lookup return where they fail before each component that does not fit. -/
theorem walk_returns_iff {v : ℕ} {cs : List (List Byte)} (h : VfsInv s)
    (hv : v < s.vnodes.length) : (∃ r, walk s v cs = some r) ↔ FailsBeforeLong s v cs := by
  constructor
  · rintro ⟨r, hr⟩ before c after rfl hc
    rw [walk_append, Option.bind_eq_bind, Option.bind_eq_some_iff] at hr
    obtain ⟨⟨s', o⟩, hbefore, hrest⟩ := hr
    cases o with
    | none => exact ⟨s', hbefore⟩
    | some w =>
      dsimp only at hrest
      rw [walk, lookupStep_long hc] at hrest
      cases hrest
  · intro hfail
    induction cs generalizing s v with
    | nil => exact ⟨_, rfl⟩
    | cons c cs ih =>
      have hc : c.length < 255 := by
        by_contra hlong
        obtain ⟨s', hnil⟩ := hfail [] c cs rfl (not_lt.1 hlong)
        cases hnil
      obtain ⟨s₁, o, hstep, hinv, -, ho⟩ := lookupStep_spec h hv hc
      rw [walk, hstep, Option.bind_eq_bind, Option.bind_some]
      cases o with
      | none => exact ⟨_, rfl⟩
      | some w =>
        apply ih hinv (ho w rfl)
        rintro before x after rfl hx
        obtain ⟨s', hbefore⟩ := hfail (c :: before) x after rfl hx
        rw [walk, hstep, Option.bind_eq_bind, Option.bind_some] at hbefore
        exact ⟨s', hbefore⟩

/-- Components that lead to a vnode fit the buffer. -/
theorem walk_some_length {v w : ℕ} {cs : List (List Byte)} (h : walk s v cs = some (s', some w)) :
    ∀ c ∈ cs, c.length < 255 := by
  induction cs generalizing s v with
  | nil => exact fun c hc => absurd hc List.not_mem_nil
  | cons x cs ih =>
    rw [walk, Option.bind_eq_bind, Option.bind_eq_some_iff] at h
    obtain ⟨⟨s₁, o⟩, hstep, h⟩ := h
    cases o with
    | none => cases h
    | some u =>
      intro c hc
      rcases List.mem_cons.1 hc with rfl | hc
      · by_contra hlong
        rw [lookupStep_long (not_lt.1 hlong)] at hstep
        cases hstep
      · exact ih h c hc

/-- A lookup returns where it fails before each component that does not fit. -/
theorem vfsLookup_returns_iff (h : VfsInv s) (cur : Addr) (path : List Byte) :
    (∃ r, vfsLookup s cur path = some r) ↔
      FailsBeforeLong s (startOf s cur path) (pathComponents path) := by
  rw [← walk_returns_iff h (h.startOf_lt cur path), ← components_eq]
  constructor
  · rintro ⟨⟨s', o⟩, hr⟩
    obtain ⟨o', hwalk, -⟩ := vfsLookup_eq_some.1 hr
    exact ⟨_, hwalk⟩
  · rintro ⟨⟨s', o'⟩, hwalk⟩
    cases o' with
    | none => exact ⟨_, vfsLookup_eq_some.2 ⟨none, hwalk, .inl ⟨rfl, rfl⟩⟩⟩
    | some v =>
      obtain ⟨hinv, -, hv⟩ := walk_some h (h.startOf_lt cur path) hwalk
      obtain ⟨w, -, hcross, -⟩ := cross_spec hinv (hv v rfl)
      exact ⟨_, vfsLookup_eq_some.2 ⟨some v, hwalk, .inr ⟨v, w, rfl, rfl, hcross⟩⟩⟩

/-- A path with a component that does not fit leads to no vnode. -/
theorem vfsLookup_long {o : Option ℕ} (hlook : vfsLookup s cur path = some (s', o))
    (hc : c ∈ pathComponents path) (hlong : 255 ≤ c.length) : o = none := by
  rw [← components_eq] at hc
  obtain ⟨o', hwalk, ⟨-, hnone⟩ | ⟨v, w, rfl, -, -⟩⟩ := vfsLookup_eq_some.1 hlook
  · exact hnone
  · exact absurd hlong (not_le.2 (walk_some_length hwalk c hc))

/-! ## Calls that keep to the buffers -/

/-- A call of `vfs_lookup`, `vfs_mkdir` or `vfs_open` by the thread `cur`. -/
inductive PathCall
  | lookup (cur : Addr) (path : List Byte)
  | mkdir (cur : Addr) (path : List Byte)
  | open (cur : Addr) (path : List Byte) (creat : Bool)

/-- The path of a call. -/
def PathCall.pathname : PathCall → List Byte
  | .lookup _ path | .mkdir _ path | .open _ path _ => path

/-- The call in a state. -/
def PathCall.exec (s : Vfs) (stack : Stack) : PathCall → Except Fault (Vfs × Option ℕ)
  | .lookup cur path => vfsLookupIn s cur path (stack.buffer 3 .component)
  | .mkdir cur path => vfsMkdirIn s cur path stack
  | .open cur path creat => vfsOpenVnodeIn s cur path creat stack

/-- The call puts a component, or a path, into a buffer that does not hold it. -/
def PathCall.TooLong (s : Vfs) : PathCall → Prop
  | .lookup _ path => ∃ c ∈ pathComponents path, 255 ≤ c.length
  | .mkdir _ path => 255 ≤ path.length
  | .open cur path creat => (∃ c ∈ pathComponents path, 255 ≤ c.length) ∨
      creat = true ∧ 255 ≤ path.length ∧ ∃ s₁, vfsLookup s cur path = some (s₁, none)

/-- The call leaves no buffer, and answers `-1` where something does not fit. -/
def PathCall.KeepsBuffers (s : Vfs) (call : PathCall) : Prop :=
  ∀ stack, (∀ b i, call.exec s stack ≠ .error (.index b i)) ∧
    (call.TooLong s → ∃ s', call.exec s stack = .ok (s', none))

/-- A directory does not take one more entry. -/
def Internal.Refuses : Internal → Prop
  | .tmpfs inode => ¬ (inode.type = .fsDir ∧ ∃ i, inode.entry i = none)
  | .ramfs .. => True
  | .devfs _ => False

/-- The parent of the path does not exist or takes no entry. -/
def Refused (s : Vfs) (cur : Addr) (path : List Byte) : Prop :=
  ∀ d c s₁ dir v, getParentAndChild path = some (d, c) → vfsLookup s cur d = some (s₁, some dir) →
    s₁.vnodes[dir]? = some v → v.internal.Refuses

/-- A path that is split fits, or loses its last byte and is refused. -/
def FitsTemp (s : Vfs) (cur : Addr) (path : List Byte) : Prop :=
  path.length ≤ 254 ∨ path.length = 255 ∧ Refused s cur path

/-- When a call keeps to the buffers. -/
def PathCall.Fits (s : Vfs) : PathCall → Prop
  | .lookup cur path => FailsBeforeLong s (startOf s cur path) (pathComponents path)
  | .mkdir cur path => FitsTemp s cur path
  | .open cur path creat =>
    FailsBeforeLong s (startOf s cur path) (pathComponents path) ∧
      (creat = true → ∀ s₁, vfsLookup s cur path = some (s₁, none) → FitsTemp s₁ cur path)

/-- The parent that a lookup answered takes no entry. -/
theorem addUnder_refused {o : Option ℕ} (ho : ∀ w, o = some w →
      ∃ wv, s.vnodes[w]? = some wv ∧ wv.mount = none) :
    (∃ s', addUnder type (.ok c) (s, o) = .ok (s', none)) ↔
      ∀ dir v, o = some dir → s.vnodes[dir]? = some v → v.internal.Refuses := by
  cases o with
  | none => simp [addUnder]
  | some dir =>
    obtain ⟨dv, hdv, -⟩ := ho dir rfl
    have hone : (∀ dir' v, some dir = some dir' → s.vnodes[dir']? = some v → v.internal.Refuses) ↔
        dv.internal.Refuses := by
      constructor
      · exact fun h => h dir dv rfl hdv
      · intro h dir' v heq hv
        cases heq
        cases hdv.symm.trans hv
        exact h
    rw [hone, addUnder, ok_bind, vnodeAddIn, hdv, Option.map_some]
    cases hint : dv.internal with
    | tmpfs inode =>
      dsimp only
      rw [ok_bind, Internal.Refuses]
      rcases tmpfsAdd_cases s dir inode type c with ⟨hadd, hroom⟩ | ⟨i, hdir, hi, hadd⟩
      · rw [hadd]
        exact iff_of_true ⟨s, rfl⟩ hroom
      · rw [hadd]
        refine iff_of_false ?_ (not_not.2 ⟨hdir, i, hi⟩)
        rintro ⟨s', heq⟩
        cases heq
    | ramfs => exact iff_of_true ⟨s, rfl⟩ trivial
    | devfs =>
      refine iff_of_false ?_ not_false
      rintro ⟨s', heq⟩
      cases heq

/-- Adding an entry leaves no buffer. -/
theorem addUnder_ne_index (c : List Byte) (r : Vfs × Option ℕ) (b : PathBuffer) (i : ℕ) :
    addUnder type (.ok c) r ≠ .error (.index b i) := by
  obtain ⟨s, o⟩ := r
  cases o with
  | none => simp [addUnder]
  | some dir =>
    rw [addUnder, ok_bind, vnodeAddIn]
    rcases (s.vnodes[dir]?).map Vnode.internal with _ | inode | _ | _
    · simp
    · dsimp only
      rw [ok_bind]
      rcases tmpfsAdd s dir inode type c with ⟨s₁, _ | new⟩ <;> exact fun h => nomatch h
    · exact fun h => nomatch h
    · simp

/-- Adding at a path leaves no buffer, and answers `-1` where the path does not fit, exactly when
the path fits, or loses its last byte and is refused. -/
theorem addAtIn_fits_iff (h : VfsInv s) (hnul : 0 ∉ path) (cur : Addr) (type : FsnodeType)
    (stack : Stack) : ((∀ b i, addAtIn s cur type path stack ≠ .error (.index b i)) ∧
      (255 ≤ path.length → ∃ s', addAtIn s cur type path stack = .ok (s', none))) ↔
      FitsTemp s cur path := by
  rcases Nat.lt_or_ge 255 path.length with hlong | hshort
  · rw [addAtIn_long hnul hlong, FitsTemp]
    refine iff_of_false ?_ (by omega)
    rintro ⟨-, hok⟩
    obtain ⟨s', heq⟩ := hok hlong.le
    split at heq <;> cases heq
  · obtain ⟨d, c, s₁, o, hpc, hlook, heq⟩ := addAtIn_eq h hnul hshort cur type stack
    obtain ⟨-, -, ho⟩ := vfsLookup_some h hlook
    have hrefused : (∃ s', addAtIn s cur type path stack = .ok (s', none)) ↔
        Refused s cur path := by
      rw [heq, addUnder_refused ho]
      constructor
      · intro hall d' c' s' dir v hpc' hlook' hv
        cases hpc.symm.trans hpc'
        cases hlook.symm.trans hlook'
        exact hall dir v rfl hv
      · intro hall dir v ho hv
        exact hall d c s₁ dir v hpc (ho ▸ hlook) hv
    have hindex : ∀ b i, addAtIn s cur type path stack ≠ .error (.index b i) :=
      fun b i => heq ▸ addUnder_ne_index c (s₁, o) b i
    rw [hrefused, FitsTemp]
    constructor
    · rintro ⟨-, hok⟩
      rcases hshort.eq_or_lt with hlen | hlen
      · exact .inr ⟨hlen, hok hlen.ge⟩
      · exact .inl (Nat.le_of_lt_succ hlen)
    · rintro (hlen | ⟨-, hr⟩)
      · exact ⟨hindex, fun hge => absurd hge (by omega)⟩
      · exact ⟨hindex, fun _ => hr⟩

/-- A lookup leaves no buffer, and answers `-1` where a component does not fit, exactly when it
fails before each such component. -/
theorem vfsLookupIn_fits_iff {b : Buffer} (h : VfsInv s) (hnul : 0 ∉ path) (cur : Addr)
    (hname : b.name = .component) : ((∀ b' i, vfsLookupIn s cur path b ≠ .error (.index b' i)) ∧
      ((∃ c ∈ pathComponents path, 255 ≤ c.length) →
        ∃ s', vfsLookupIn s cur path b = .ok (s', none))) ↔
      FailsBeforeLong s (startOf s cur path) (pathComponents path) := by
  rw [← vfsLookup_returns_iff h, vfsLookupIn_eq h cur hnul hname]
  cases hlook : vfsLookup s cur path with
  | none =>
    apply iff_of_false
    · exact fun hkeeps => hkeeps.1 .component pathMax rfl
    · rintro ⟨r, hr⟩
      cases hr
  | some r =>
    obtain ⟨s', o⟩ := r
    apply iff_of_true
    · refine ⟨fun b' i heq => (nomatch heq), ?_⟩
      rintro ⟨c, hc, hlong⟩
      cases vfsLookup_long hlook hc hlong
      exact ⟨s', rfl⟩
    · exact ⟨_, rfl⟩

/-- What `vfs_open` does once the path does not resolve. -/
theorem vfsOpenVnodeIn_eq (h : VfsInv s) (hnul : 0 ∉ path) (cur : Addr) (creat : Bool)
    (stack : Stack) : vfsOpenVnodeIn s cur path creat stack =
      match vfsLookup s cur path with
      | none => .error (.index .component pathMax)
      | some (s₁, some v) => .ok (s₁, some v)
      | some (s₁, none) => if creat then addAtIn s₁ cur .fsFile path stack else .ok (s₁, none) := by
  rw [vfsOpenVnodeIn, vfsLookupIn_eq h cur hnul rfl]
  rcases vfsLookup s cur path with _ | ⟨s₁, _ | v⟩ <;> rfl

/-- **`vfs_mkdir` without a fault** is that of the namespace. -/
theorem vfsMkdirIn_toOption (h : VfsInv s) (hnul : 0 ∉ path) (cur : Addr) (stack : Stack) :
    (vfsMkdirIn s cur path stack).toOption = vfsMkdir s cur path :=
  addAtIn_toOption h hnul cur .fsDir stack

/-- **`vfs_open` without a fault** finds or creates the vnode of the namespace. -/
theorem vfsOpenVnodeIn_toOption (h : VfsInv s) (hnul : 0 ∉ path) (cur : Addr) (creat : Bool)
    (stack : Stack) : (vfsOpenVnodeIn s cur path creat stack).toOption =
      vfsOpenVnode s cur path creat := by
  rw [vfsOpenVnodeIn_eq h hnul, vfsOpenVnode]
  cases hlook : vfsLookup s cur path with
  | none => rfl
  | some r =>
    obtain ⟨s₁, o⟩ := r
    obtain ⟨hinv, -, -⟩ := vfsLookup_some h hlook
    cases o with
    | some v => rfl
    | none =>
      cases creat with
      | false => rfl
      | true => exact addAtIn_toOption hinv hnul cur .fsFile stack

/-- What `KeepsBuffers` says of a result. -/
theorem PathCall.keepsBuffers_iff_of {call : PathCall} {P : Prop} (h : ∀ stack,
    ((∀ b i, call.exec s stack ≠ .error (.index b i)) ∧
      (call.TooLong s → ∃ s', call.exec s stack = .ok (s', none))) ↔ P) :
    call.KeepsBuffers s ↔ P :=
  ⟨fun hkeeps => (h fun _ _ _ => 0).1 (hkeeps _), fun hP stack => (h stack).2 hP⟩

/-- **Main.** In every state that a run from `vfs_init` reaches, a call with any path keeps to the
buffers exactly when it fits: a lookup fails before each component of 255 bytes or more; a path that
is split has at most 254 bytes, or it has 255 and its parent takes no entry. -/
theorem keepsBuffers_iff (initrd : Option RamfsInode) (ops : List VfsOp) (s : Vfs)
    (hrun : (Vfs.rootfs initrd).run ops = some s) (call : PathCall) (hnul : 0 ∉ call.pathname) :
    call.KeepsBuffers s ↔ call.Fits s := by
  have h := run_inv (rootfs_inv initrd) hrun
  cases call with
  | lookup cur path =>
    exact PathCall.keepsBuffers_iff_of fun stack => vfsLookupIn_fits_iff h hnul cur rfl
  | mkdir cur path =>
    exact PathCall.keepsBuffers_iff_of fun stack => addAtIn_fits_iff h hnul cur .fsDir stack
  | «open» cur path creat =>
    change 0 ∉ path at hnul
    apply PathCall.keepsBuffers_iff_of
    intro stack
    have hopen := vfsOpenVnodeIn_eq h hnul cur creat stack
    rw [PathCall.Fits, ← vfsLookup_returns_iff h, PathCall.exec, PathCall.TooLong, hopen]
    cases hlook : vfsLookup s cur path with
    | none =>
      apply iff_of_false
      · exact fun hkeeps => hkeeps.1 .component pathMax rfl
      · rintro ⟨⟨r, hr⟩, -⟩
        cases hr
    | some r =>
      obtain ⟨s₁, o⟩ := r
      have hlong : (∃ c ∈ pathComponents path, 255 ≤ c.length) → 255 ≤ path.length := by
        rintro ⟨c, hc, hlen⟩
        exact hlen.trans (length_le_of_mem_pathComponents hc)
      cases o with
      | some v =>
        apply iff_of_true
        · refine ⟨fun b i heq => (nomatch heq), ?_⟩
          rintro (⟨c, hc, hlen⟩ | ⟨-, -, s₂, heq⟩)
          · cases vfsLookup_long hlook hc hlen
          · cases heq
        · exact ⟨⟨_, rfl⟩, fun _ s₂ heq => nomatch heq⟩
      | none =>
        cases creat with
        | false =>
          apply iff_of_true
          · exact ⟨fun b i heq => (nomatch heq), fun _ => ⟨s₁, rfl⟩⟩
          · exact ⟨⟨_, rfl⟩, fun heq => nomatch heq⟩
        | true =>
          obtain ⟨hinv, -, -⟩ := vfsLookup_some h hlook
          have hfits := addAtIn_fits_iff hinv hnul cur .fsFile stack
          dsimp only
          rw [if_pos rfl]
          constructor
          · rintro ⟨hindex, hok⟩
            refine ⟨⟨_, rfl⟩, fun _ s₂ heq => ?_⟩
            cases heq
            exact hfits.1 ⟨hindex, fun hlen => hok (.inr ⟨rfl, hlen, s₁, rfl⟩)⟩
          · rintro ⟨-, hfit⟩
            obtain ⟨hindex, hok⟩ := hfits.2 (hfit rfl s₁ rfl)
            refine ⟨hindex, ?_⟩
            rintro (hcomp | ⟨-, hlen, -⟩)
            · exact hok (hlong hcomp)
            · exact hok hlen

/-- A path that fits. -/
theorem keepsBuffers_iff_fits : (PathCall.mkdir 0 (cstr "/a")).KeepsBuffers (Vfs.rootfs none) :=
  (keepsBuffers_iff none [] (Vfs.rootfs none) rfl (.mkdir 0 (cstr "/a")) (by decide)).2
    (.inl (by decide))

/-- A path of one component of 255 bytes. -/
def longComponent : List Byte := List.replicate 255 0x61

theorem length_longComponent : longComponent.length = 255 := List.length_replicate

theorem notMem_longComponent {x : Byte} (hx : x ≠ 0x61) : x ∉ longComponent :=
  fun hmem => hx (List.eq_of_mem_replicate hmem)

/-- The lookup of a component of 255 bytes writes to the byte behind `component`, and a directory at
a path of 256 bytes makes `get_parent_and_child` read the one behind `temp`. -/
theorem not_keepsBuffers_long : ∃ s, (Vfs.rootfs none).run [] = some s ∧
    ¬ (PathCall.lookup 0 longComponent).KeepsBuffers s ∧
    ¬ (PathCall.mkdir 0 (0x61 :: longComponent)).KeepsBuffers s := by
  have hnul : 0 ∉ longComponent := notMem_longComponent (by decide)
  have hslash : 0x2f ∉ longComponent := notMem_longComponent (by decide)
  have hlen := length_longComponent
  refine ⟨Vfs.rootfs none, rfl, fun hkeeps => ?_, fun hkeeps => ?_⟩
  · have hne : longComponent ≠ [] := by
      intro heq
      rw [heq] at hlen
      cases hlen
    have hfits := (vfsLookupIn_fits_iff (rootfs_inv none) hnul 0 rfl).1 (hkeeps fun _ _ _ => 0)
    obtain ⟨s', hwalk⟩ := hfits [] longComponent [] (pathComponents_single hslash hne) hlen.ge
    cases hwalk
  · have hnul' : 0 ∉ 0x61 :: longComponent := List.not_mem_cons_of_ne_of_not_mem (by decide) hnul
    have hfits := (addAtIn_fits_iff (rootfs_inv none) hnul' 0 .fsDir _).1 (hkeeps fun _ _ _ => 0)
    rw [FitsTemp, List.length_cons, hlen] at hfits
    omega

end BareMetalOS.Files
