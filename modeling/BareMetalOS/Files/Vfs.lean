import BareMetalOS.Files.Tmpfs

/-!
# The namespace

Path resolution and the operations that change the namespace: `vfs_lookup`, `vfs_mkdir`, `vfs_open`
and `vfs_mount` of `src/vfs.c`, with the vnode operations of the three file systems and `sys_chdir`.

No vnode is ever freed once it is in a directory, so that the vnodes form a list that only grows,
and a pointer to a vnode is its number there. Allocations succeed: the code does not check them. A
function fails (`none`) where the source has undefined behaviour: a component or path too long for
the buffers on the stack, a call of an absent vnode operation, an absent root of a mount.
-/

namespace BareMetalOS.Files

open Memory (Addr)
open Boot (Byte cstr)

/-- The field `internal` of a vnode, which also determines its operations. -/
inductive Internal
  | tmpfs (inode : TmpfsVnode)
  | ramfs (type : FsnodeType) (name : List Byte) (entries : List ℕ) (data : Addr)
      (size : BitVec 64)
  | devfs (name : List Byte)

/-- `struct vnode`; `mount` is the root of the mount on it. -/
structure Vnode where
  mount : Option ℕ
  internal : Internal
  parent : Option ℕ

/-- The vnodes, the working directories of the threads and the globals of `src/vfs.c` and
`src/devfs.c`. -/
structure Vfs where
  vnodes : List Vnode
  /-- `rootfs->root` -/
  root : ℕ
  /-- `cwd`, by thread -/
  cwd : Addr → Option ℕ
  /-- `uart_vnode` -/
  uart : Option ℕ
  /-- `fb_vnode` -/
  fb : Option ℕ
  /-- the tree that `ramfs_setup_mount` builds of the ramdisk, if there is one -/
  initrd : Option RamfsInode

/-- The registered file systems. -/
inductive Filesystem
  | tmpfs
  | ramfs
  | devfs
  deriving DecidableEq, Repr

namespace Vfs

/-- A new vnode at the end of the list. -/
def push (s : Vfs) (v : Vnode) : Vfs := { s with vnodes := s.vnodes ++ [v] }

/-- Write to a vnode. -/
def modify (s : Vfs) (v : ℕ) (f : Vnode → Vnode) : Vfs := { s with vnodes := s.vnodes.modify v f }

/-- `v->parent = parent`. -/
def setParent (s : Vfs) (v parent : ℕ) : Vfs := s.modify v fun x => { x with parent := some parent }

/-- The name of a vnode in its directory. -/
def nameOf (s : Vfs) (v : ℕ) : Option (List Byte) :=
  match (s.vnodes[v]?).map Vnode.internal with
  | some (.tmpfs inode) => some inode.name
  | some (.ramfs _ name _ _ _) => some name
  | _ => none

end Vfs

/-- The vnodes that a directory lists. -/
def Internal.entries : Internal → List ℕ
  | .tmpfs inode => (List.finRange 16).filterMap inode.entry
  | .ramfs _ _ entries _ _ => entries
  | .devfs _ => []

/-! ## The vnode operations -/

/-- `devfs_create_vnode`. -/
def devfsCreateVnode (name : List Byte) : Vnode := ⟨none, .devfs name, none⟩

/-- `devfs_lookup`: the devices are created on their first lookup, whatever the directory is. -/
def devfsLookup (s : Vfs) (componentName : List Byte) : Vfs × Option ℕ :=
  if componentName = cstr "uart" then
    match s.uart with
    | some v => (s, some v)
    | none =>
      ({ s.push (devfsCreateVnode (cstr "uart")) with uart := some s.vnodes.length },
        some s.vnodes.length)
  else if componentName = cstr "fb" then
    match s.fb with
    | some v => (s, some v)
    | none =>
      ({ s.push (devfsCreateVnode (cstr "fb")) with fb := some s.vnodes.length },
        some s.vnodes.length)
  else (s, none)

/-- `v_ops->lookup`: the entry of the directory `dir` with this name. -/
def vnodeLookup (s : Vfs) (dir : Internal) (componentName : List Byte) : Vfs × Option ℕ :=
  match dir with
  | .tmpfs inode =>
    if inode.type = .fsDir then
      (s, dir.entries.find? fun v => s.nameOf v = some componentName)
    else (s, none)
  | .ramfs type _ _ _ _ =>
    if type = .fsDir then (s, dir.entries.find? fun v => s.nameOf v = some componentName)
    else (s, none)
  | .devfs _ => devfsLookup s componentName

/-- `tmpfs_create` and `tmpfs_mkdir` on the directory `d`, for a vnode of this type. The name is cut
to fit its array. -/
def tmpfsAdd (s : Vfs) (d : ℕ) (inode : TmpfsVnode) (type : FsnodeType)
    (componentName : List Byte) : Vfs × Option ℕ :=
  if inode.type = .fsDir then
    match (List.finRange 16).find? fun i => (inode.entry i).isNone with
    | none => (s, none)
    | some i =>
      let new := s.vnodes.length
      let inode := { inode with entry := Function.update inode.entry i (some new) }
      let s := s.modify d fun v => { v with internal := .tmpfs inode }
      (s.push ⟨none, .tmpfs (tmpfsCreateVnode type (componentName.take 31)), none⟩, some new)
  else (s, none)

/-- `v_ops->create` and `v_ops->mkdir`: the ramfs is read only, and the devfs has neither. -/
def vnodeAdd (s : Vfs) (d : ℕ) (type : FsnodeType) (componentName : List Byte) :
    Option (Vfs × Option ℕ) :=
  match (s.vnodes[d]?).map Vnode.internal with
  | some (.tmpfs inode) => some (tmpfsAdd s d inode type componentName)
  | some (.ramfs ..) => some (s, none)
  | _ => none

/-! ## Paths -/

/-- The components of a path that `vfs_lookup` parses, `component` being what it has read of the
current one. -/
def components : List Byte → List Byte → List (List Byte)
  | [], component => if component = [] then [] else [component]
  | c :: path, component =>
    if c = 0x2f then
      if component = [] then components path [] else component :: components path []
    else components path (component ++ [c])

/-- `while (node->mount) node = node->mount->root;` within `n` rounds. -/
def crossLoop (s : Vfs) : ℕ → ℕ → Option ℕ
  | 0, _ => none
  | n + 1, node => do
    let v ← s.vnodes[node]?
    match v.mount with
    | none => return node
    | some root => crossLoop s n root

/-- From a vnode down to the root of the mounts on it; no such chain is longer than the list of
vnodes. -/
def cross (s : Vfs) (node : ℕ) : Option ℕ := crossLoop s s.vnodes.length node

/-- `if (next_node->parent == NULL && next_node != rootfs->root) next_node->parent = node;` -/
def fixParent (s : Vfs) (next node : ℕ) : Vfs :=
  s.modify next fun v =>
    if v.parent = none ∧ next ≠ s.root then { v with parent := some node } else v

/-- One round of `vfs_lookup`: the vnode that the component leads to, or `-1`. -/
def lookupStep (s : Vfs) (node : ℕ) (component : List Byte) : Option (Vfs × Option ℕ) := do
  let node ← cross s node
  let v ← s.vnodes[node]?
  if 255 ≤ component.length then none
  else if component = [0x2e] then return (s, some node)
  else if component = [0x2e, 0x2e] then return (s, some (v.parent.getD node))
  else
    match vnodeLookup s v.internal component with
    | (s, none) => return (s, none)
    | (s, some next) => return (fixParent s next node, some next)

/-- The rounds of `vfs_lookup`. -/
def walk : Vfs → ℕ → List (List Byte) → Option (Vfs × Option ℕ)
  | s, node, [] => some (s, some node)
  | s, node, c :: cs => do
    match ← lookupStep s node c with
    | (s, none) => return (s, none)
    | (s, some node) => walk s node cs

/-- The vnode at which `vfs_lookup` starts. -/
def startOf (s : Vfs) (cur : Addr) (pathname : List Byte) : ℕ :=
  if pathname.head? = some 0x2f then s.root else (s.cwd cur).getD s.root

/-- `vfs_lookup` by the thread `cur`: the vnode, or `-1`. -/
def vfsLookup (s : Vfs) (cur : Addr) (pathname : List Byte) : Option (Vfs × Option ℕ) := do
  match ← walk s (startOf s cur pathname) (components pathname []) with
  | (s, none) => return (s, none)
  | (s, some node) =>
    let node ← cross s node
    return (s, some node)

/-- `while (len > 1 && temp[len - 1] == '/') len--;`, on the reversed string. -/
def stripSlashes : List Byte → List Byte
  | c :: d :: l => if c = 0x2f then stripSlashes (d :: l) else c :: d :: l
  | l => l

/-- `for (i = 0; temp[i] != '\0'; i++) if (temp[i] == '/') last_slash = i;` -/
def lastSlash : List Byte → ℕ → Option ℕ → Option ℕ
  | [], _, last => last
  | c :: l, i, last => lastSlash l (i + 1) (if c = 0x2f then some i else last)

/-- `get_parent_and_child`: `dirname` and `childname`. A path of more than 255 bytes makes it read
beyond `temp`; of one of 255 bytes it sees the first 254. -/
def getParentAndChild (pathname : List Byte) : Option (List Byte × List Byte) :=
  if 255 < pathname.length then none
  else
    let temp := pathname.take 254
    let temp := if pathname.length ≤ 254 then (stripSlashes temp.reverse).reverse else temp
    match lastSlash temp 0 none with
    | none => some ([0x2e], temp)
    | some 0 => some ([0x2f], temp.drop 1)
    | some i => some (temp.take i, temp.drop (i + 1))

/-! ## The operations -/

/-- What `vfs_mkdir` and `vfs_open` do to add a vnode at the path: the vnode, or `-1`. -/
def addAt (s : Vfs) (cur : Addr) (type : FsnodeType) (pathname : List Byte) :
    Option (Vfs × Option ℕ) := do
  let (dirname, filename) ← getParentAndChild pathname
  match ← vfsLookup s cur dirname with
  | (s, none) => return (s, none)
  | (s, some dir) =>
    match ← vnodeAdd s dir type filename with
    | (s, none) => return (s, none)
    | (s, some new) => return (s.setParent new dir, some new)

/-- `vfs_mkdir`: the vnode, or `-1`. -/
def vfsMkdir (s : Vfs) (cur : Addr) (pathname : List Byte) : Option (Vfs × Option ℕ) :=
  addAt s cur .fsDir pathname

/-- The vnode that `vfs_open` finds or, with `O_CREAT`, creates, or `-1`. -/
def vfsOpenVnode (s : Vfs) (cur : Addr) (pathname : List Byte) (creat : Bool) :
    Option (Vfs × Option ℕ) := do
  match ← vfsLookup s cur pathname with
  | (s, some v) => return (s, some v)
  | (s, none) => if creat then addAt s cur .fsFile pathname else return (s, none)

mutual

/-- The number of vnodes of a tree. -/
def RamfsInode.count : RamfsInode → ℕ
  | .mk _ _ entries _ _ => countAll entries + 1

/-- The number of vnodes of several trees. -/
def countAll : List RamfsInode → ℕ
  | [] => 0
  | t :: ts => t.count + countAll ts

end

/-- The numbers of the roots of trees that are laid out one behind the other from `n` on. -/
def offsets : ℕ → List RamfsInode → List ℕ
  | _, [] => []
  | n, t :: ts => n :: offsets (n + t.count) ts

mutual

/-- The vnodes of a tree, numbered from `n` on. -/
def layout (n : ℕ) (parent : Option ℕ) : RamfsInode → List Vnode
  | .mk type name entries data size =>
    ⟨none, .ramfs type name (offsets (n + 1) entries) data size, parent⟩ ::
      layoutAll (n + 1) (some n) entries

/-- The vnodes of trees with a common parent. -/
def layoutAll (n : ℕ) (parent : Option ℕ) : List RamfsInode → List Vnode
  | [] => []
  | t :: ts => layout n parent t ++ layoutAll (n + t.count) parent ts

end

/-- `setup_mount`: the vnodes of the new mount, the first of which is its root. -/
def setupMount (s : Vfs) : Filesystem → Option (List Vnode)
  | .tmpfs => some [⟨none, .tmpfs (tmpfsCreateVnode .fsDir []), none⟩]
  | .ramfs => s.initrd.map (layout s.vnodes.length none)
  | .devfs => some [devfsCreateVnode (cstr "root")]

/-- `vfs_mount`, where the search of `fs_list` finds `fs`: whether it succeeds. -/
def vfsMount (s : Vfs) (cur : Addr) (target : List Byte) (fs : Option Filesystem) :
    Option (Vfs × Bool) :=
  match fs with
  | none => some (s, false)
  | some fs => do
    match ← vfsLookup s cur target with
    | (s, none) => return (s, false)
    | (s, some mountPoint) =>
      let v ← s.vnodes[mountPoint]?
      let new ← setupMount s fs
      let root := s.vnodes.length
      let parent := if mountPoint = s.root then some root else v.parent
      let s := { s with vnodes := s.vnodes ++ new }
      let s := s.modify root fun x => { x with parent := parent }
      return (s.modify mountPoint fun x => { x with mount := some root }, true)

/-- `sys_chdir`: whether it succeeds. -/
def sysChdir (s : Vfs) (cur : Addr) (path : List Byte) : Option (Vfs × Bool) := do
  match ← vfsLookup s cur path with
  | (s, none) => return (s, false)
  | (s, some node) => return ({ s with cwd := Function.update s.cwd cur (some node) }, true)

/-! ## Runs -/

/-- An operation on the namespace by the thread `cur`. -/
inductive VfsOp
  | lookup (cur : Addr) (path : List Byte)
  | mkdir (cur : Addr) (path : List Byte)
  | open (cur : Addr) (path : List Byte) (creat : Bool)
  | mount (cur : Addr) (target : List Byte) (fs : Option Filesystem)
  | chdir (cur : Addr) (path : List Byte)
  /-- the thread `child` starts with the working directory of `cur` -/
  | inherit (cur child : Addr)

/-- The operation on the state. -/
def Vfs.exec (s : Vfs) : VfsOp → Option Vfs
  | .lookup cur path => (vfsLookup s cur path).map Prod.fst
  | .mkdir cur path => (vfsMkdir s cur path).map Prod.fst
  | .open cur path creat => (vfsOpenVnode s cur path creat).map Prod.fst
  | .mount cur target fs => (vfsMount s cur target fs).map Prod.fst
  | .chdir cur path => (sysChdir s cur path).map Prod.fst
  | .inherit cur child => some { s with cwd := Function.update s.cwd child (s.cwd cur) }

/-- `vfs_init` after the root file system is set up: its root is its own parent. -/
def Vfs.rootfs (initrd : Option RamfsInode) : Vfs where
  vnodes := [⟨none, .tmpfs (tmpfsCreateVnode .fsDir []), some 0⟩]
  root := 0
  cwd := fun _ => none
  uart := none
  fb := none
  initrd := initrd

/-- The rest of `vfs_init`: the ramfs and the devfs are mounted. -/
def vfsInit (initrd : Option RamfsInode) : Option Vfs := do
  let s ← (Vfs.rootfs initrd).exec (.mkdir 0 (cstr "/ramfs"))
  let s ← s.exec (.mount 0 (cstr "/ramfs") (some .ramfs))
  let s ← s.exec (.mkdir 0 (cstr "/dev"))
  s.exec (.mount 0 (cstr "/dev") (some .devfs))

end BareMetalOS.Files
