import BareMetalOS.Foundations.Overwrite
import BareMetalOS.Files.Initrd
import BareMetalOS.Files.OpenFiles

/-!
# Files of the tmpfs

`tmpfs_open`, `tmpfs_read` and `tmpfs_write` of `src/tmpfs.c`. A file has a size and a buffer of
`TMPFS_MAX_FILE_SIZE` bytes, which is allocated by the first write and not cleared: a byte of it
that has not been written is `none`. Every handle has its own position. A function fails (`none`)
where the source would access memory outside the buffer.

The files together behave as byte sequences of at most 4096 bytes with a cursor for every handle
(`ByteFiles`). `Represents` relates the two, `Represents.exec` is the step, and the main result is
`tmpfs_refines`.
-/

namespace BareMetalOS.Files

open Memory (Addr)
open Boot (Byte)

/-- `TMPFS_MAX_FILE_SIZE`. -/
def tmpfsMaxFileSize : ℕ := 4096

/-- `struct tmpfs_vnode`; the vnodes in `entry` are given by their numbers. -/
structure TmpfsVnode where
  type : FsnodeType
  name : List Byte
  entry : Fin 16 → Option ℕ
  data : Option (List (Option Byte))
  size : BitVec 64

/-- The internals that `tmpfs_create_vnode` makes. -/
def tmpfsCreateVnode (type : FsnodeType) (name : List Byte) : TmpfsVnode :=
  ⟨type, name, fun _ => none, none, 0⟩

/-- The value of type `int` that a `size_t` is returned as. -/
def retInt (len : BitVec 64) : ℤ := (len.setWidth 32).toInt

/-- `memcpy(buf, data + pos, len)`: the bytes copied. -/
def loadBytes (data : Option (List (Option Byte))) (pos len : BitVec 64) :
    Option (List (Option Byte)) :=
  match data with
  | none => if len = 0 then some [] else none
  | some d =>
    if pos.toNat + len.toNat ≤ d.length then some ((d.drop pos.toNat).take len.toNat) else none

/-- `memcpy(data + pos, buf, len)`: the buffer afterwards. -/
def storeBytes (data : Option (List (Option Byte))) (pos : BitVec 64) (buf : ℕ → Byte)
    (len : BitVec 64) : Option (Option (List (Option Byte))) :=
  match data with
  | none => if len = 0 then some none else none
  | some d =>
    if pos.toNat + len.toNat ≤ d.length then
      some (some (overwrite d pos.toNat ((List.range len.toNat).map fun i => some (buf i))))
    else none

/-- `tmpfs_read`: the handle, the value returned and the bytes copied to `buf`. -/
def tmpfsRead (inode : TmpfsVnode) (file : File) (len : BitVec 64) :
    Option (File × ℤ × List (Option Byte)) :=
  if inode.type ≠ .fsFile then some (file, -1, [])
  else if inode.size ≤ file.fPos then some (file, 0, [])
  else do
    let len := if inode.size < file.fPos + len then inode.size - file.fPos else len
    let bytes ← loadBytes inode.data file.fPos len
    return ({ file with fPos := file.fPos + len }, retInt len, bytes)

/-- `if (inode->data == NULL) inode->data = allocate(TMPFS_MAX_FILE_SIZE);` -/
def TmpfsVnode.ensureData (inode : TmpfsVnode) (mem : Bool) : Option (List (Option Byte)) :=
  match inode.data with
  | none => if mem then some (List.replicate tmpfsMaxFileSize none) else none
  | some d => some d

/-- `tmpfs_write`: the file, the handle and the value returned. `mem` says that the buffer could be
allocated. -/
def tmpfsWrite (inode : TmpfsVnode) (file : File) (buf : ℕ → Byte) (len : BitVec 64) (mem : Bool) :
    Option (TmpfsVnode × File × ℤ) :=
  if inode.type ≠ .fsFile then some (inode, file, -1)
  else do
    let max := BitVec.ofNat 64 tmpfsMaxFileSize
    let len := if max < file.fPos + len then max - file.fPos else len
    let data ← storeBytes (inode.ensureData mem) file.fPos buf len
    let pos := file.fPos + len
    return ({ inode with data := data, size := if inode.size < pos then pos else inode.size },
      { file with fPos := pos }, retInt len)

/-! ## The files and their handles -/

/-- The vnodes of the tmpfs and the open handles. -/
structure TmpfsFiles where
  inode : Addr → Option TmpfsVnode
  file : Addr → Option File

/-- An operation on the files: one is created, a handle `mem` for it is opened, and bytes are read
or written through a handle. -/
inductive TmpfsOp
  | create (vnode : Addr) (type : FsnodeType) (name : List Byte)
  | open (vnode : Addr) (flags : BitVec 32) (mem : Addr)
  | read (file : Addr) (len : BitVec 64)
  | write (file : Addr) (buf : ℕ → Byte) (len : BitVec 64)

/-- The operation, with every allocation succeeding, and what it gives its caller. -/
def TmpfsFiles.exec (s : TmpfsFiles) : TmpfsOp → Option (TmpfsFiles × ℤ × List (Option Byte))
  | .create vnode type name =>
    if (s.inode vnode).isSome then none
    else
      some ({ s with
        inode := Function.update s.inode vnode (some (tmpfsCreateVnode type name)) }, 0, [])
  | .open vnode flags mem => do
    let _ ← s.inode vnode
    if (s.file mem).isSome then none
    let (file, _) ← vfsOpen s.file (some vnode) flags mem
    return ({ s with file := file }, 0, [])
  | .read f len => do
    let file ← s.file f
    let inode ← s.inode file.vnode
    let (file, ret, bytes) ← tmpfsRead inode file len
    return ({ s with file := Function.update s.file f (some file) }, ret, bytes)
  | .write f buf len => do
    let file ← s.file f
    let inode ← s.inode file.vnode
    let vnode := file.vnode
    let (inode, file, ret) ← tmpfsWrite inode file buf len true
    return ({ s with
      inode := Function.update s.inode vnode (some inode)
      file := Function.update s.file f (some file) }, ret, [])

/-- The operations in turn, with what they give. -/
def TmpfsFiles.run (s : TmpfsFiles) :
    List TmpfsOp → Option (TmpfsFiles × List (ℤ × List (Option Byte)))
  | [] => some (s, [])
  | op :: ops => do
    let (s, out) ← s.exec op
    let (s, outs) ← s.run ops
    return (s, out :: outs)

/-! ## The reference model -/

/-- A directory, or a file with its bytes. -/
inductive ByteNode
  | dir
  | file (bytes : List Byte)

/-- Files as byte sequences, and for every handle the file and the position of its cursor. -/
structure ByteFiles where
  node : Addr → Option ByteNode
  cursor : Addr → Option (Addr × ℕ)

/-- The bytes of a file that a read of `len` bytes at `pos` gives. -/
def readAt (bytes : List Byte) (pos len : ℕ) : List Byte := (bytes.drop pos).take len

/-- The bytes that a write of `len` bytes at `pos` stores: those within the largest file. -/
def writtenAt (buf : ℕ → Byte) (pos len : ℕ) : List Byte :=
  (List.range (min len (tmpfsMaxFileSize - pos))).map buf

/-- The operation on the reference model. A request that would wrap the position is outside of
it. -/
def ByteFiles.exec (r : ByteFiles) : TmpfsOp → Option (ByteFiles × ℤ × List Byte)
  | .create vnode type _ =>
    if (r.node vnode).isSome then none
    else
      let node := match type with
        | .fsDir => ByteNode.dir
        | .fsFile => .file []
      some ({ r with node := Function.update r.node vnode (some node) }, 0, [])
  | .open vnode _ mem =>
    if (r.node vnode).isNone ∨ (r.cursor mem).isSome ∨ mem = 0 then none
    else some ({ r with cursor := Function.update r.cursor mem (some (vnode, 0)) }, 0, [])
  | .read f len => do
    let (vnode, pos) ← r.cursor f
    match ← r.node vnode with
    | .dir => some (r, -1, [])
    | .file bytes =>
      if pos + len.toNat < 2 ^ 64 then
        let out := readAt bytes pos len.toNat
        let cursor := Function.update r.cursor f (some (vnode, pos + out.length))
        some ({ r with cursor := cursor }, out.length, out)
      else none
  | .write f buf len => do
    let (vnode, pos) ← r.cursor f
    match ← r.node vnode with
    | .dir => some (r, -1, [])
    | .file bytes =>
      if pos + len.toNat < 2 ^ 64 then
        let w := writtenAt buf pos len.toNat
        let node := Function.update r.node vnode (some (.file (overwrite bytes pos w)))
        let cursor := Function.update r.cursor f (some (vnode, pos + w.length))
        some (⟨node, cursor⟩, w.length, [])
      else none

/-- The operations in turn, with what they give. -/
def ByteFiles.run (r : ByteFiles) : List TmpfsOp → Option (ByteFiles × List (ℤ × List Byte))
  | [] => some (r, [])
  | op :: ops => do
    let (r, out) ← r.exec op
    let (r, outs) ← r.run ops
    return (r, out :: outs)

variable {s s' : TmpfsFiles} {r r' : ByteFiles} {inode : TmpfsVnode} {file : File}
  {bytes : List Byte} {len : BitVec 64} {buf : ℕ → Byte} {n pos : ℕ}

/-- The buffer of a file, as the first write finds it. -/
def TmpfsVnode.buffer (inode : TmpfsVnode) : List (Option Byte) :=
  inode.data.getD (List.replicate tmpfsMaxFileSize none)

theorem TmpfsVnode.ensureData_true (inode : TmpfsVnode) :
    inode.ensureData true = some inode.buffer := by
  rw [ensureData, buffer]
  cases inode.data <;> rfl

/-- The file holds these bytes: they are the first ones of its buffer, as many as its size. -/
structure Holds (inode : TmpfsVnode) (bytes : List Byte) : Prop where
  type : inode.type = .fsFile
  size : inode.size.toNat = bytes.length
  le : bytes.length ≤ tmpfsMaxFileSize
  length : inode.buffer.length = tmpfsMaxFileSize
  take : inode.buffer.take bytes.length = bytes.map some
  null : inode.data = none → bytes = []

theorem retInt_of_le (h : len.toNat ≤ tmpfsMaxFileSize) : retInt len = len.toNat := by
  rw [tmpfsMaxFileSize] at h
  rw [retInt, BitVec.toInt_eq_toNat_of_lt]
  · rw [BitVec.toNat_setWidth, Nat.mod_eq_of_lt (by omega)]
  · rw [BitVec.toNat_setWidth, Nat.mod_eq_of_lt (by omega)]
    omega

theorem File.setPos_self (h : file.fPos.toNat = n) :
    { file with fPos := BitVec.ofNat 64 n } = file := by
  rw [← h, BitVec.ofNat_toNat, BitVec.setWidth_eq]

theorem length_readAt : (readAt bytes pos n).length = min n (bytes.length - pos) := by
  rw [readAt, List.length_take, List.length_drop]

theorem length_writtenAt (buf : ℕ → Byte) :
    (writtenAt buf pos n).length = min n (tmpfsMaxFileSize - pos) := by
  rw [writtenAt, List.length_map, List.length_range]

/-- The length to which `tmpfs_read` and `tmpfs_write` cut a request, `bound` being the size of the
file or the largest one. -/
theorem cut_toNat (len : BitVec 64) {fPos bound : BitVec 64} (hpos : fPos.toNat ≤ bound.toNat)
    (hlen : fPos.toNat + len.toNat < 2 ^ 64) :
    (if bound < fPos + len then bound - fPos else len).toNat =
      min len.toNat (bound.toNat - fPos.toNat) := by
  have hadd : (fPos + len).toNat = fPos.toNat + len.toNat := BitVec.toNat_add_of_lt hlen
  split
  · rename_i hlt
    rw [BitVec.lt_def, hadd] at hlt
    rw [BitVec.toNat_sub_of_le (BitVec.le_def.2 hpos)]
    omega
  · rename_i hle
    rw [BitVec.lt_def, hadd] at hle
    omega

theorem ofNat_eq_add {fPos : BitVec 64} (h : fPos.toNat = pos) (hn : len.toNat = n) :
    fPos + len = BitVec.ofNat 64 (pos + n) := by
  rw [← h, ← hn, BitVec.ofNat_add, BitVec.ofNat_toNat, BitVec.ofNat_toNat, BitVec.setWidth_eq,
    BitVec.setWidth_eq]

/-- `tmpfs_read` gives the bytes from the cursor on. -/
theorem tmpfsRead_eq (h : Holds inode bytes) (hpos : file.fPos.toNat = pos)
    (hle : pos ≤ bytes.length) (hlen : pos + len.toNat < 2 ^ 64) :
    tmpfsRead inode file len =
      some ({ file with fPos := BitVec.ofNat 64 (pos + (readAt bytes pos len.toNat).length) },
        ((readAt bytes pos len.toNat).length : ℤ), (readAt bytes pos len.toNat).map some) := by
  rw [tmpfsRead, if_neg (by simp [h.type])]
  by_cases hend : inode.size ≤ file.fPos
  · have hout : readAt bytes pos len.toNat = [] := by
      rw [BitVec.le_def, h.size, hpos] at hend
      rw [readAt, List.drop_eq_nil_of_le hend, List.take_nil]
    rw [if_pos hend, hout, List.length_nil, Nat.add_zero, File.setPos_self hpos]
    rfl
  · rw [if_neg hend]
    rw [BitVec.le_def, h.size, hpos, not_le] at hend
    have hcut := cut_toNat len
      (show file.fPos.toNat ≤ inode.size.toNat by rw [h.size, hpos]; exact hle)
      (by rw [hpos]; exact hlen)
    rw [h.size, hpos, ← length_readAt] at hcut
    generalize (if inode.size < file.fPos + len then inode.size - file.fPos else len) = m at hcut
    have hle' : (readAt bytes pos len.toNat).length ≤ bytes.length - pos := by
      rw [length_readAt]
      omega
    have hbound := h.le
    obtain ⟨d, hd⟩ : ∃ d, inode.data = some d := by
      refine Option.ne_none_iff_exists'.1 fun hnone => ?_
      rw [h.null hnone] at hend
      simp at hend
    have hbuf : inode.buffer = d := by rw [TmpfsVnode.buffer, hd, Option.getD_some]
    have hload : loadBytes inode.data file.fPos m =
        some ((readAt bytes pos len.toNat).map some) := by
      rw [hd, loadBytes, if_pos (by rw [← hbuf, h.length, hpos, hcut]; omega)]
      rw [hpos, hcut, length_readAt, readAt, List.map_take, List.map_drop, ← h.take, hbuf,
        List.drop_take, List.take_take]
    simp only [hload, Option.bind_eq_bind, Option.bind_some]
    rw [ofNat_eq_add hpos hcut, retInt_of_le (by omega), hcut]
    rfl

/-- A file of `n` bytes after a write of the bytes `w` at `pos`. -/
def TmpfsVnode.written (inode : TmpfsVnode) (n pos : ℕ) (w : List Byte) : TmpfsVnode :=
  { inode with
    data := some (overwrite inode.buffer pos (w.map some))
    size := BitVec.ofNat 64 (max n (pos + w.length)) }

/-- `tmpfs_write` overwrites the bytes from the cursor on. -/
theorem tmpfsWrite_eq (h : Holds inode bytes) (hpos : file.fPos.toNat = pos)
    (hle : pos ≤ bytes.length) (hlen : pos + len.toNat < 2 ^ 64) :
    tmpfsWrite inode file buf len true =
      some (inode.written bytes.length pos (writtenAt buf pos len.toNat),
        { file with fPos := BitVec.ofNat 64 (pos + (writtenAt buf pos len.toNat).length) },
        ((writtenAt buf pos len.toNat).length : ℤ)) := by
  have hbound := h.le
  have hmax : (BitVec.ofNat 64 tmpfsMaxFileSize).toNat = tmpfsMaxFileSize := rfl
  have hcut := cut_toNat len (show file.fPos.toNat ≤ (BitVec.ofNat 64 tmpfsMaxFileSize).toNat by
    rw [hmax, hpos]; omega) (by rw [hpos]; exact hlen)
  rw [hmax, hpos, ← length_writtenAt buf] at hcut
  rw [tmpfsWrite, if_neg (by simp [h.type])]
  dsimp only
  rw [inode.ensureData_true]
  generalize (if BitVec.ofNat 64 tmpfsMaxFileSize < file.fPos + len then
    BitVec.ofNat 64 tmpfsMaxFileSize - file.fPos else len) = m at hcut
  have hw : (writtenAt buf pos len.toNat).length ≤ tmpfsMaxFileSize - pos := by
    rw [length_writtenAt]
    omega
  have hstore : storeBytes (some inode.buffer) file.fPos buf m =
      some (some (overwrite inode.buffer pos ((writtenAt buf pos len.toNat).map some))) := by
    rw [storeBytes, if_pos (by rw [h.length, hpos, hcut]; omega), hpos, hcut]
    rw [length_writtenAt, writtenAt, List.map_map]
    rfl
  simp only [hstore, Option.bind_eq_bind, Option.bind_some]
  rw [ofNat_eq_add hpos hcut, retInt_of_le (by omega), hcut]
  have hsize : (if inode.size < BitVec.ofNat 64 (pos + (writtenAt buf pos len.toNat).length) then
      BitVec.ofNat 64 (pos + (writtenAt buf pos len.toNat).length) else inode.size) =
      BitVec.ofNat 64 (max bytes.length (pos + (writtenAt buf pos len.toNat).length)) := by
    have hq : (BitVec.ofNat 64 (pos + (writtenAt buf pos len.toNat).length)).toNat =
        pos + (writtenAt buf pos len.toNat).length := by
      rw [tmpfsMaxFileSize] at hbound hw
      rw [BitVec.toNat_ofNat, Nat.mod_eq_of_lt (by omega)]
    split
    · rename_i hlt
      rw [BitVec.lt_def, hq, h.size] at hlt
      rw [max_eq_right hlt.le]
    · rename_i hge
      rw [BitVec.lt_def, hq, h.size] at hge
      rw [max_eq_left (not_lt.1 hge), ← h.size, BitVec.ofNat_toNat, BitVec.setWidth_eq]
  rw [hsize]
  rfl

/-- The file holds the bytes written. -/
theorem Holds.write (h : Holds inode bytes) (hle : pos ≤ bytes.length) (buf : ℕ → Byte) (n : ℕ) :
    Holds (inode.written bytes.length pos (writtenAt buf pos n))
      (overwrite bytes pos (writtenAt buf pos n)) := by
  have hbound := h.le
  have hw : (writtenAt buf pos n).length ≤ tmpfsMaxFileSize - pos := by
    rw [length_writtenAt]
    omega
  have hlen := length_overwrite (b := writtenAt buf pos n) hle
  refine ⟨h.type, ?_, ?_, ?_, ?_, nofun⟩
  · rw [TmpfsVnode.written, hlen, BitVec.toNat_ofNat, Nat.mod_eq_of_lt]
    rw [tmpfsMaxFileSize] at hbound hw
    omega
  · rw [hlen]
    omega
  · show (overwrite inode.buffer pos _).length = _
    rw [length_overwrite (by rw [h.length]; omega), h.length, List.length_map]
    omega
  · show (overwrite inode.buffer pos _).take _ = _
    rw [hlen, map_overwrite, ← h.take]
    have := take_overwrite (l := inode.buffer) (b := (writtenAt buf pos n).map some) hle
      (by rw [h.length, List.length_map]; omega)
    rwa [List.length_map] at this

/-- The handle moves to the position `n`. -/
def TmpfsFiles.moveTo (s : TmpfsFiles) (f : Addr) (file : File) (n : ℕ) : TmpfsFiles :=
  { s with file := Function.update s.file f (some { file with fPos := BitVec.ofNat 64 n }) }

/-- The files with the vnode `v` replaced. -/
def TmpfsFiles.setInode (s : TmpfsFiles) (v : Addr) (inode : TmpfsVnode) : TmpfsFiles :=
  { s with inode := Function.update s.inode v (some inode) }

/-- The handle `f` is at position `pos` of a file that holds these bytes. -/
structure OpenAt (s : TmpfsFiles) (f : Addr) (file : File) (inode : TmpfsVnode)
    (bytes : List Byte) (pos : ℕ) : Prop where
  file_eq : s.file f = some file
  inode_eq : s.inode file.vnode = some inode
  holds : Holds inode bytes
  pos_eq : file.fPos.toNat = pos
  pos_le : pos ≤ bytes.length

namespace OpenAt

variable {f : Addr}

theorem exec_read (h : OpenAt s f file inode bytes pos) (hlen : pos + len.toNat < 2 ^ 64) :
    s.exec (.read f len) = some (s.moveTo f file (pos + (readAt bytes pos len.toNat).length),
      ((readAt bytes pos len.toNat).length : ℤ), (readAt bytes pos len.toNat).map some) := by
  simp only [TmpfsFiles.exec, h.file_eq, h.inode_eq, tmpfsRead_eq h.holds h.pos_eq h.pos_le hlen,
    Option.bind_eq_bind, Option.bind_some]
  rfl

theorem exec_write (h : OpenAt s f file inode bytes pos) (hlen : pos + len.toNat < 2 ^ 64) :
    s.exec (.write f buf len) = some ((s.setInode file.vnode
      (inode.written bytes.length pos (writtenAt buf pos len.toNat))).moveTo f file
        (pos + (writtenAt buf pos len.toNat).length),
      ((writtenAt buf pos len.toNat).length : ℤ), []) := by
  simp only [TmpfsFiles.exec, h.file_eq, h.inode_eq, tmpfsWrite_eq h.holds h.pos_eq h.pos_le hlen,
    Option.bind_eq_bind, Option.bind_some]
  rfl

theorem moveTo (h : OpenAt s f file inode bytes pos) (hn : n ≤ bytes.length) :
    OpenAt (s.moveTo f file n) f { file with fPos := BitVec.ofNat 64 n } inode bytes n := by
  refine ⟨Function.update_self .., h.inode_eq, h.holds, ?_, hn⟩
  have hmax := h.holds.le
  rw [tmpfsMaxFileSize] at hmax
  rw [BitVec.toNat_ofNat, Nat.mod_eq_of_lt (by omega)]

/-- The file is replaced by one with at least as many bytes. -/
theorem setInode {inode' : TmpfsVnode} {bytes' : List Byte} (h : OpenAt s f file inode bytes pos)
    (hrep : Holds inode' bytes') (hle : pos ≤ bytes'.length) :
    OpenAt (s.setInode file.vnode inode') f file inode' bytes' pos :=
  ⟨h.file_eq, Function.update_self .., hrep, h.pos_eq, hle⟩

end OpenAt

/-! ## The simulation -/

/-- The vnode is a directory, or a file that holds the bytes. -/
def RepNode (inode : TmpfsVnode) : ByteNode → Prop
  | .dir => inode.type = .fsDir
  | .file bytes => Holds inode bytes

/-- The cursor of the handle. -/
def RepCursor (file : File) (c : Addr × ℕ) : Prop := file.vnode = c.1 ∧ file.fPos.toNat = c.2

/-- The files and handles of the tmpfs are those of the reference model, and no cursor is beyond the
end of its file. -/
structure Represents (s : TmpfsFiles) (r : ByteFiles) : Prop where
  node : ∀ v, Option.Rel RepNode (s.inode v) (r.node v)
  cursor : ∀ f, Option.Rel RepCursor (s.file f) (r.cursor f)
  bound : ∀ f v pos, r.cursor f = some (v, pos) → r.node v ≠ none ∧
    ∀ bytes, r.node v = some (.file bytes) → pos ≤ bytes.length

/-- No files and no handles. -/
def TmpfsFiles.empty : TmpfsFiles := ⟨fun _ => none, fun _ => none⟩

/-- No files and no handles. -/
def ByteFiles.empty : ByteFiles := ⟨fun _ => none, fun _ => none⟩

theorem represents_empty : Represents .empty .empty :=
  ⟨fun _ => .none, fun _ => .none, nofun⟩

theorem rel_update {α β : Type*} {R : α → β → Prop} {f : Addr → Option α}
    {g : Addr → Option β} (h : ∀ x, Option.Rel R (f x) (g x)) {x : Addr} {a : α} {b : β}
    (hab : R a b) (y : Addr) :
    Option.Rel R (Function.update f x (some a) y) (Function.update g x (some b) y) := by
  by_cases hy : y = x
  · subst hy
    rw [Function.update_self, Function.update_self]
    exact .some hab
  · rw [Function.update_of_ne hy, Function.update_of_ne hy]
    exact h y

theorem rel_some {α β : Type*} {R : α → β → Prop} {x : Option α} {b : β}
    (h : Option.Rel R x (some b)) : ∃ a, x = some a ∧ R a b := by
  cases h with
  | some hab => exact ⟨_, rfl, hab⟩

theorem rel_some' {α β : Type*} {R : α → β → Prop} {a : α} {y : Option β}
    (h : Option.Rel R (some a) y) : ∃ b, y = some b ∧ R a b := by
  cases h with
  | some hab => exact ⟨_, rfl, hab⟩

theorem rel_none {α β : Type*} {R : α → β → Prop} {x : Option α}
    (h : Option.Rel R x (none : Option β)) : x = none := by
  cases h
  rfl

namespace Represents

variable {ret : ℤ} {out : List Byte}

theorem create {vnode : Addr} {type : FsnodeType} {name : List Byte} (h : Represents s r)
    (he : r.exec (.create vnode type name) = some (r', ret, out)) :
    ∃ s', s.exec (.create vnode type name) = some (s', ret, out.map some) ∧ Represents s' r' := by
  simp only [ByteFiles.exec] at he
  split at he
  · cases he
  · rename_i hnone
    cases he
    rw [Option.not_isSome_iff_eq_none] at hnone
    have hs : s.inode vnode = none := rel_none (hnone ▸ h.node vnode)
    refine ⟨{ s with inode := Function.update s.inode vnode (some (tmpfsCreateVnode type name)) },
      ?_, ?_, h.cursor, fun f v pos hf => ?_⟩
    · rw [TmpfsFiles.exec, hs]
      rfl
    · apply rel_update h.node
      cases type with
      | fsDir => rfl
      | fsFile =>
        exact ⟨rfl, rfl, Nat.zero_le _, by simp [tmpfsCreateVnode, TmpfsVnode.buffer], rfl,
          fun _ => rfl⟩
    · obtain ⟨hv, hb⟩ := h.bound f v pos hf
      have hne : v ≠ vnode := by
        rintro rfl
        exact hv hnone
      simp only [Function.update_of_ne hne]
      exact ⟨hv, hb⟩

theorem openFile {vnode mem : Addr} {flags : BitVec 32} (h : Represents s r)
    (he : r.exec (.open vnode flags mem) = some (r', ret, out)) :
    ∃ s', s.exec (.open vnode flags mem) = some (s', ret, out.map some) ∧ Represents s' r' := by
  simp only [ByteFiles.exec] at he
  split at he
  · cases he
  · rename_i hok
    cases he
    simp only [not_or, Option.isNone_iff_eq_none, Option.not_isSome_iff_eq_none] at hok
    obtain ⟨hv, hmem, h₀⟩ := hok
    obtain ⟨n, hn⟩ := Option.ne_none_iff_exists'.1 hv
    obtain ⟨i, hi, hrep⟩ := rel_some (hn ▸ h.node vnode)
    have hs : s.file mem = none := rel_none (hmem ▸ h.cursor mem)
    refine ⟨{ s with file := Function.update s.file mem (some ⟨vnode, 0, flags, 1⟩) }, ?_, h.node,
      rel_update h.cursor ⟨rfl, rfl⟩, fun f v pos hf => ?_⟩
    · simp only [TmpfsFiles.exec, hi, hs, vfsOpen, if_neg h₀]
      rfl
    · simp only [Function.update_apply] at hf
      split at hf
      · cases hf
        exact ⟨hv, fun _ _ => Nat.zero_le _⟩
      · exact h.bound f v pos hf

/-- The file and the handle that an operation on a handle finds. -/
theorem handle {f v : Addr} {n : ByteNode} (h : Represents s r) (hf : r.cursor f = some (v, pos))
    (hn : r.node v = some n) : ∃ file inode, s.file f = some file ∧ file.vnode = v ∧
      s.inode v = some inode ∧ RepNode inode n ∧
      ∀ bytes, n = .file bytes → OpenAt s f file inode bytes pos := by
  obtain ⟨file, hfile, rfl, hpos⟩ := rel_some (hf ▸ h.cursor f)
  obtain ⟨inode, hi, hrep⟩ := rel_some (hn ▸ h.node file.vnode)
  refine ⟨file, inode, hfile, rfl, hi, hrep, ?_⟩
  rintro bytes rfl
  exact ⟨hfile, hi, hrep, hpos, (h.bound f _ _ hf).2 bytes hn⟩

/-- The cursor moves within its file. -/
theorem moveTo {f : Addr} (h : Represents s r) (hn : r.node file.vnode = some (.file bytes))
    (hi : s.inode file.vnode = some inode) (hle : n ≤ bytes.length) :
    Represents (s.moveTo f file n)
      { r with cursor := Function.update r.cursor f (some (file.vnode, n)) } := by
  have hrep : Holds inode bytes := by
    obtain ⟨i, hi', hrep⟩ := rel_some (hn ▸ h.node file.vnode)
    cases hi.symm.trans hi'
    exact hrep
  refine ⟨h.node, rel_update h.cursor ⟨rfl, ?_⟩, fun f' v pos hf => ?_⟩
  · have hmax := hrep.le
    rw [tmpfsMaxFileSize] at hmax
    rw [BitVec.toNat_ofNat, Nat.mod_eq_of_lt (by omega)]
  · simp only [Function.update_apply] at hf
    split at hf
    · cases hf
      refine ⟨by rw [hn]; nofun, fun b hb => ?_⟩
      cases hn.symm.trans hb
      exact hle
    · exact h.bound f' v pos hf

/-- The bytes of a file are replaced by at least as many. -/
theorem setInode {v : Addr} {bytes' : List Byte} (h : Represents s r)
    (hn : r.node v = some (.file bytes)) (hrep : Holds inode bytes')
    (hle : bytes.length ≤ bytes'.length) : Represents (s.setInode v inode)
      { r with node := Function.update r.node v (some (.file bytes')) } := by
  refine ⟨rel_update h.node hrep, h.cursor, fun f w pos hf => ?_⟩
  obtain ⟨hw, hb⟩ := h.bound f w pos hf
  simp only [Function.update_apply]
  split
  · rename_i hwv
    subst hwv
    refine ⟨nofun, fun b hb' => ?_⟩
    cases hb'
    exact (hb bytes hn).trans hle
  · exact ⟨hw, hb⟩

theorem read {f : Addr} (h : Represents s r) (he : r.exec (.read f len) = some (r', ret, out)) :
    ∃ s', s.exec (.read f len) = some (s', ret, out.map some) ∧ Represents s' r' := by
  simp only [ByteFiles.exec, Option.bind_eq_bind, Option.bind_eq_some_iff] at he
  obtain ⟨⟨v, pos⟩, hf, n, hn, he⟩ := he
  obtain ⟨file, inode, hfile, rfl, hi, hrep, hopen⟩ := h.handle hf hn
  cases n with
  | dir =>
    cases he
    refine ⟨s, ?_, h⟩
    have hread : tmpfsRead inode file len = some (file, -1, []) := by
      rw [tmpfsRead, if_pos (by rw [hrep]; nofun)]
    simp only [TmpfsFiles.exec, hfile, hi, hread, Option.bind_eq_bind, Option.bind_some]
    rw [Function.update_eq_self_iff.2 hfile.symm]
    rfl
  | file bytes =>
    simp only at he
    split at he
    · rename_i hlen
      cases he
      have hat := hopen bytes rfl
      have hle := hat.pos_le
      refine ⟨_, hat.exec_read hlen, h.moveTo hn hi ?_⟩
      rw [length_readAt]
      omega
    · cases he

theorem write {f : Addr} (h : Represents s r)
    (he : r.exec (.write f buf len) = some (r', ret, out)) :
    ∃ s', s.exec (.write f buf len) = some (s', ret, out.map some) ∧ Represents s' r' := by
  simp only [ByteFiles.exec, Option.bind_eq_bind, Option.bind_eq_some_iff] at he
  obtain ⟨⟨v, pos⟩, hf, n, hn, he⟩ := he
  obtain ⟨file, inode, hfile, rfl, hi, hrep, hopen⟩ := h.handle hf hn
  cases n with
  | dir =>
    cases he
    refine ⟨s, ?_, h⟩
    have hwrite : tmpfsWrite inode file buf len true = some (inode, file, -1) := by
      rw [tmpfsWrite, if_pos (by rw [hrep]; nofun)]
    simp only [TmpfsFiles.exec, hfile, hi, hwrite, Option.bind_eq_bind, Option.bind_some]
    rw [Function.update_eq_self_iff.2 hi.symm, Function.update_eq_self_iff.2 hfile.symm]
    rfl
  | file bytes =>
    simp only at he
    split at he
    · rename_i hlen
      cases he
      have hat := hopen bytes rfl
      have hlen' := length_overwrite (b := writtenAt buf pos len.toNat) hat.pos_le
      refine ⟨_, hat.exec_write hlen, ?_⟩
      refine (h.setInode hn (hat.holds.write hat.pos_le buf len.toNat) ?_).moveTo
        (Function.update_self ..) (Function.update_self ..) ?_
      · omega
      · omega
    · cases he

/-- **One step.** -/
theorem exec {op : TmpfsOp} (h : Represents s r) (he : r.exec op = some (r', ret, out)) :
    ∃ s', s.exec op = some (s', ret, out.map some) ∧ Represents s' r' := by
  cases op with
  | create vnode type name => exact h.create he
  | «open» vnode flags mem => exact h.openFile he
  | read f len => exact h.read he
  | write f buf len => exact h.write he

/-- Every run. -/
theorem run {ops : List TmpfsOp} {outs : List (ℤ × List Byte)} (h : Represents s r)
    (hr : r.run ops = some (r', outs)) : ∃ s',
      s.run ops = some (s', outs.map fun out => (out.1, out.2.map some)) ∧ Represents s' r' := by
  induction ops generalizing s r outs with
  | nil =>
    cases hr
    exact ⟨s, rfl, h⟩
  | cons op ops ih =>
    simp only [ByteFiles.run, Option.bind_eq_bind, Option.bind_eq_some_iff] at hr
    obtain ⟨⟨r₁, ret, out⟩, he, ⟨r₂, outs'⟩, hr, hp⟩ := hr
    cases hp
    obtain ⟨s₁, hs₁, h₁⟩ := h.exec he
    obtain ⟨s₂, hs₂, h₂⟩ := ih h₁ hr
    refine ⟨s₂, ?_, h₂⟩
    simp only [TmpfsFiles.run, hs₁, Option.bind_eq_bind, Option.bind_some, hs₂]
    rfl

end Represents

/-! ## Requests in pieces -/

theorem readAt_add (bytes : List Byte) (pos n m : ℕ) :
    readAt bytes pos (n + m) =
      readAt bytes pos n ++ readAt bytes (pos + (readAt bytes pos n).length) m := by
  rw [length_readAt]
  simp only [readAt]
  rw [List.take_add, List.drop_drop]
  by_cases hn : n ≤ bytes.length - pos
  · rw [min_eq_left hn]
  · -- the first piece reaches the end of the file
    have hend : bytes.length ≤ pos + n := by omega
    have hend' : bytes.length ≤ pos + min n (bytes.length - pos) := by omega
    rw [List.drop_eq_nil_of_le hend, List.drop_eq_nil_of_le hend']

theorem writtenAt_add (buf : ℕ → Byte) (pos n m : ℕ) :
    writtenAt buf pos (n + m) = writtenAt buf pos n ++
      writtenAt (fun i => buf (n + i)) (pos + (writtenAt buf pos n).length) m := by
  rw [length_writtenAt]
  simp only [writtenAt]
  by_cases hn : n ≤ tmpfsMaxFileSize - pos
  · have hsplit : min (n + m) (tmpfsMaxFileSize - pos) =
        n + min m (tmpfsMaxFileSize - (pos + n)) := by omega
    rw [min_eq_left hn, hsplit, List.range_add, List.map_append, List.map_map]
    rfl
  · -- the first piece reaches the end of the largest file
    have hfirst : min n (tmpfsMaxFileSize - pos) = tmpfsMaxFileSize - pos := by omega
    have hboth : min (n + m) (tmpfsMaxFileSize - pos) = tmpfsMaxFileSize - pos := by omega
    have hzero : min m (tmpfsMaxFileSize - (pos + (tmpfsMaxFileSize - pos))) = 0 := by omega
    rw [hfirst, hboth, hzero]
    simp

theorem TmpfsVnode.written_written {inode : TmpfsVnode} {n pos : ℕ} {w₁ w₂ : List Byte}
    (h : pos ≤ inode.buffer.length) :
    (inode.written n pos w₁).written (max n (pos + w₁.length)) (pos + w₁.length) w₂ =
      inode.written n pos (w₁ ++ w₂) := by
  have hdata := overwrite_append h (w₁.map some) (w₂.map some)
  rw [List.length_map, ← List.map_append] at hdata
  have hsize : max (max n (pos + w₁.length)) (pos + w₁.length + w₂.length) =
      max n (pos + (w₁ ++ w₂).length) := by
    rw [List.length_append]
    omega
  simp only [written, buffer, Option.getD_some] at hdata ⊢
  rw [hdata, hsize]

/-- The total length of the pieces. -/
def total (lens : List (BitVec 64)) : ℕ := (lens.map BitVec.toNat).sum

theorem toNat_total {lens : List (BitVec 64)} (h : pos + total lens < 2 ^ 64) :
    (BitVec.ofNat 64 (total lens)).toNat = total lens := by
  rw [BitVec.toNat_ofNat, Nat.mod_eq_of_lt (by omega)]

/-- The writes of the pieces of `buf`, from the offset `o` on. -/
def writeOps (f : Addr) (buf : ℕ → Byte) : ℕ → List (BitVec 64) → List TmpfsOp
  | _, [] => []
  | o, l :: lens => .write f (fun i => buf (o + i)) l :: writeOps f buf (o + l.toNat) lens

namespace OpenAt

variable {f : Addr}

theorem read_nil (h : OpenAt s f file inode bytes pos) :
    s.exec (.read f 0) = some (s, 0, []) := by
  rw [h.exec_read (by rw [← h.pos_eq]; exact file.fPos.isLt)]
  have hself : s.moveTo f file pos = s := by
    rw [TmpfsFiles.moveTo, File.setPos_self h.pos_eq, Function.update_eq_self_iff.2 h.file_eq.symm]
  simp [readAt, hself]

/-- One read of the total length does what the reads of the pieces do. -/
theorem run_reads (h : OpenAt s f file inode bytes pos) (lens : List (BitVec 64))
    (hsum : pos + total lens < 2 ^ 64) :
    ∃ s' outs, s.run (lens.map (.read f)) = some (s', outs) ∧
      s.exec (.read f (BitVec.ofNat 64 (total lens))) =
        some (s', (outs.map Prod.fst).sum, outs.flatMap Prod.snd) := by
  induction lens generalizing s file pos with
  | nil => exact ⟨s, [], rfl, h.read_nil⟩
  | cons l lens ih =>
    have htotal : total (l :: lens) = l.toNat + total lens := rfl
    have hlen : (readAt bytes pos l.toNat).length ≤ min l.toNat (bytes.length - pos) :=
      length_readAt.le
    have hle := h.pos_le
    have h₁ := h.moveTo (n := pos + (readAt bytes pos l.toNat).length) (by omega)
    have hrest : pos + (readAt bytes pos l.toNat).length + total lens < 2 ^ 64 := by omega
    obtain ⟨s', outs, hrun, hexec⟩ := ih h₁ hrest
    rw [h₁.exec_read (by rw [toNat_total hrest]; exact hrest), toNat_total hrest] at hexec
    simp only [Option.some.injEq, Prod.mk.injEq] at hexec
    obtain ⟨hs', hret, hbytes⟩ := hexec
    refine ⟨s', ((readAt bytes pos l.toNat).length, (readAt bytes pos l.toNat).map some) :: outs,
      ?_, ?_⟩
    · simp only [List.map_cons, TmpfsFiles.run, h.exec_read (by omega : pos + l.toNat < 2 ^ 64),
        Option.bind_eq_bind, Option.bind_some, hrun]
      rfl
    · rw [h.exec_read (by rw [toNat_total hsum]; exact hsum), toNat_total hsum, htotal, readAt_add,
        List.map_cons, List.sum_cons, List.flatMap_cons, ← hret, ← hbytes, ← hs']
      simp [TmpfsFiles.moveTo, Nat.add_assoc]

/-- Two consecutive writes. -/
theorem exec_write_write (buf : ℕ → Byte) (l₁ l₂ : BitVec 64) (h : OpenAt s f file inode bytes pos)
    (hsum : pos + (l₁.toNat + l₂.toNat) < 2 ^ 64) : ∃ s₁ s₂ file₁ inode₁ bytes₁ pos₁ n₁ n₂,
      s.exec (.write f buf l₁) = some (s₁, n₁, []) ∧ OpenAt s₁ f file₁ inode₁ bytes₁ pos₁ ∧
      pos₁ ≤ pos + l₁.toNat ∧
      s₁.exec (.write f (fun i => buf (l₁.toNat + i)) l₂) = some (s₂, n₂, []) ∧
      s.exec (.write f buf (l₁ + l₂)) = some (s₂, n₁ + n₂, []) := by
  have hle := h.pos_le
  have hbound := h.holds.le
  have hadd : (l₁ + l₂).toNat = l₁.toNat + l₂.toNat := BitVec.toNat_add_of_lt (by omega)
  have hlen := length_overwrite (b := writtenAt buf pos l₁.toNat) hle
  have hw : (writtenAt buf pos l₁.toNat).length ≤ l₁.toNat := by
    rw [length_writtenAt]
    omega
  have h₁ := (h.setInode (h.holds.write hle buf l₁.toNat) (by omega)).moveTo
    (n := pos + (writtenAt buf pos l₁.toNat).length) (by omega)
  refine ⟨_, _, _, _, _, _, _, _, h.exec_write (by omega), h₁, by omega,
    h₁.exec_write (by omega), ?_⟩
  rw [h.exec_write (by omega), hadd, writtenAt_add, List.length_append, hlen,
    TmpfsVnode.written_written (by rw [h.holds.length]; omega)]
  simp [TmpfsFiles.moveTo, TmpfsFiles.setInode, Nat.add_assoc]

/-- One write of the total length does what the writes of the pieces do. -/
theorem run_writes (h : OpenAt s f file inode bytes pos) (buf : ℕ → Byte) (o : ℕ)
    (l : BitVec 64) (lens : List (BitVec 64)) (hsum : pos + total (l :: lens) < 2 ^ 64) :
    ∃ s' outs, s.run (writeOps f buf o (l :: lens)) = some (s', outs) ∧
      s.exec (.write f (fun i => buf (o + i)) (BitVec.ofNat 64 (total (l :: lens)))) =
        some (s', (outs.map Prod.fst).sum, []) := by
  induction lens generalizing s file inode bytes pos o l with
  | nil =>
    have htotal : BitVec.ofNat 64 (total [l]) = l := by simp [total]
    have hl : pos + l.toNat < 2 ^ 64 := by simpa [total] using hsum
    rw [htotal]
    refine ⟨_, _, by simp only [writeOps, TmpfsFiles.run, h.exec_write hl, Option.bind_eq_bind,
      Option.bind_some]; rfl, ?_⟩
    rw [h.exec_write hl]
    simp
  | cons l' lens ih =>
    have htotal : total (l :: l' :: lens) = l.toNat + total (l' :: lens) := rfl
    have htail := toNat_total (show pos + total (l' :: lens) < 2 ^ 64 by omega)
    have hadd : BitVec.ofNat 64 (total (l :: l' :: lens)) =
        l + BitVec.ofNat 64 (total (l' :: lens)) := by
      rw [htotal, BitVec.ofNat_add, BitVec.ofNat_toNat, BitVec.setWidth_eq]
    obtain ⟨s₁, s₂, file₁, inode₁, bytes₁, pos₁, n₁, n₂, he₁, h₁, hpos₁, he₂, he⟩ :=
      h.exec_write_write (fun i => buf (o + i)) l (BitVec.ofNat 64 (total (l' :: lens)))
        (by rw [htail]; omega)
    obtain ⟨s', outs, hrun, hexec⟩ := ih h₁ (o + l.toNat) l' (by omega)
    simp only [Nat.add_assoc] at hexec
    cases hexec.symm.trans he₂
    refine ⟨s₂, (n₁, []) :: outs, ?_, ?_⟩
    · rw [writeOps, TmpfsFiles.run, he₁]
      simp only [Option.bind_eq_bind, Option.bind_some, hrun]
      rfl
    · rw [hadd, he, List.map_cons, List.sum_cons]

end OpenAt

/-! ## The main result -/

/-- A handle on a file of a represented state. -/
theorem Represents.openAt {f : Addr} (h : Represents s r) (hf : s.file f = some file)
    (hi : s.inode file.vnode = some inode) (ht : inode.type = .fsFile) :
    ∃ bytes, OpenAt s f file inode bytes file.fPos.toNat := by
  have hcursor := h.cursor f
  rw [hf] at hcursor
  obtain ⟨c, hc, hv, hpos⟩ := rel_some' hcursor
  have hnode := h.node file.vnode
  rw [hi] at hnode
  obtain ⟨n, hn, hrep⟩ := rel_some' hnode
  cases n with
  | dir =>
    have hdir : inode.type = .fsDir := hrep
    rw [ht] at hdir
    cases hdir
  | file bytes =>
    refine ⟨bytes, hf, hi, hrep, rfl, ?_⟩
    rw [hpos]
    refine (h.bound f c.1 c.2 hc).2 bytes ?_
    rw [← hv, hn]

/-- A file of a represented state. -/
theorem Represents.holds {v : Addr} (h : Represents s r) (hi : s.inode v = some inode)
    (ht : inode.type = .fsFile) : ∃ bytes, Holds inode bytes := by
  have hnode := h.node v
  rw [hi] at hnode
  obtain ⟨n, hn, hrep⟩ := rel_some' hnode
  cases n with
  | dir =>
    have hdir : inode.type = .fsDir := hrep
    rw [ht] at hdir
    cases hdir
  | file bytes => exact ⟨bytes, hrep⟩

/-- Every byte below the size has been written. -/
theorem Holds.written (h : Holds inode bytes) (hn : n < inode.size.toNat) :
    ∃ b, inode.buffer[n]? = some (some b) := by
  rw [h.size] at hn
  have htake := congrArg (·[n]?) h.take
  simp only [List.getElem?_take, hn, if_true, List.getElem?_map, List.getElem?_eq_getElem hn,
    Option.map_some] at htake
  exact ⟨_, htake⟩

/-- **Main.** The files of the tmpfs give the results of the reference model in every run and end
with its contents, no byte read is one that has not been written, no position is beyond the size of
its file and no size beyond 4096, and a request can be split into pieces. -/
theorem tmpfs_refines {ops : List TmpfsOp} {outs : List (ℤ × List Byte)}
    (hr : ByteFiles.empty.run ops = some (r, outs)) : ∃ s,
    TmpfsFiles.empty.run ops = some (s, outs.map fun out => (out.1, out.2.map some)) ∧
    Represents s r ∧
    (∀ v inode, s.inode v = some inode → inode.type = .fsFile →
      inode.size.toNat ≤ tmpfsMaxFileSize ∧
      ∀ i < inode.size.toNat, ∃ b, inode.buffer[i]? = some (some b)) ∧
    (∀ f file inode, s.file f = some file → s.inode file.vnode = some inode →
      inode.type = .fsFile →
      file.fPos.toNat ≤ inode.size.toNat ∧
      (∀ lens, file.fPos.toNat + total lens < 2 ^ 64 → ∃ s' outs,
        s.run (lens.map (.read f)) = some (s', outs) ∧
        s.exec (.read f (BitVec.ofNat 64 (total lens))) =
          some (s', (outs.map Prod.fst).sum, outs.flatMap Prod.snd)) ∧
      ∀ buf l lens, file.fPos.toNat + total (l :: lens) < 2 ^ 64 → ∃ s' outs,
        s.run (writeOps f buf 0 (l :: lens)) = some (s', outs) ∧
        s.exec (.write f buf (BitVec.ofNat 64 (total (l :: lens)))) =
          some (s', (outs.map Prod.fst).sum, [])) := by
  obtain ⟨s, hs, hrep⟩ := represents_empty.run hr
  refine ⟨s, hs, hrep, fun v inode hi ht => ?_, fun f file inode hf hi ht => ?_⟩
  · obtain ⟨bytes, hholds⟩ := hrep.holds hi ht
    exact ⟨by rw [hholds.size]; exact hholds.le, fun i hlt => hholds.written hlt⟩
  · obtain ⟨bytes, hopen⟩ := hrep.openAt hf hi ht
    refine ⟨by rw [hopen.holds.size]; exact hopen.pos_le, fun lens => hopen.run_reads lens,
      fun buf l lens hsum => ?_⟩
    have hwrites := hopen.run_writes buf 0 l lens hsum
    simpa only [Nat.zero_add] using hwrites

/-- Two handles on one file: the second reads what the first has written. -/
theorem tmpfs_refines_handles : ∃ r s, ByteFiles.empty.run
      [.create 1 .fsFile [], .open 1 0 2, .open 1 0 3, .write 2 (fun _ => 7) 3, .read 3 2] =
        some (r, [(0, []), (0, []), (0, []), (3, []), (2, [7, 7])]) ∧
    TmpfsFiles.empty.run
      [.create 1 .fsFile [], .open 1 0 2, .open 1 0 3, .write 2 (fun _ => 7) 3, .read 3 2] =
        some (s, [(0, []), (0, []), (0, []), (3, []), (2, [some 7, some 7])]) := by
  have hr : ByteFiles.empty.run
      [.create 1 .fsFile [], .open 1 0 2, .open 1 0 3, .write 2 (fun _ => 7) 3, .read 3 2] =
        some (_, [(0, []), (0, []), (0, []), (3, []), (2, [7, 7])]) := rfl
  obtain ⟨s, hs, -⟩ := tmpfs_refines hr
  exact ⟨_, s, hr, hs⟩

end BareMetalOS.Files
