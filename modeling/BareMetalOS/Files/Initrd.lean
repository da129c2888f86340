import BareMetalOS.Boot.Startup

/-!
# The two readers of the initial ramdisk

`initrd_get_file` of `lib/cpio.c` searches the archive for one name; `ramfs_setup_mount` of
`src/ramfs.c` builds a tree of inodes from all of it, which `ramfs_lookup` walks. Each file has its
own `hextoi` and its own alignment. The machine's `char` is unsigned, and an `int` that overflows
wraps.

Memory is a total function of the address: a reader that leaves the archive goes on with the bytes
it finds. The loops are bounded by a fuel, and `none` stands for a loop that is still running.
-/

namespace BareMetalOS.Files

open Memory Boot

/-- The bytes of memory, as the kernel sees them. -/
abbrev Bytes := Addr → Byte

/-! ## Strings -/

/-- `strncmp(p, s, n) == 0`, for a string `s` of length `n`. -/
def strncmpEq (mem : Bytes) : Addr → List Byte → Bool
  | _, [] => true
  | p, x :: s => mem p = x && strncmpEq mem (p + 1) s

/-- `strcmp(p, s) == 0`. -/
def strcmpEq (mem : Bytes) : Addr → List Byte → Bool
  | p, [] => mem p = 0
  | p, x :: s => mem p = x && strcmpEq mem (p + 1) s

/-- The string that `strncpy` copies from `p`, at most `n` bytes. -/
def strncpy (mem : Bytes) : Addr → ℕ → List Byte
  | _, 0 => []
  | p, n + 1 => if mem p = 0 then [] else mem p :: strncpy mem (p + 1) n

/-- `strtok_r` with the delimiter `/`: the token, and the rest of the string behind its
delimiter. -/
def strtokR (str : Option (List Byte)) : Option (List Byte × Option (List Byte)) :=
  let str := (str.getD []).dropWhile (· = 0x2f)
  if str = [] then none
  else
    match str.dropWhile (· ≠ 0x2f) with
    | [] => some (str.takeWhile (· ≠ 0x2f), none)
    | _ :: rest => some (str.takeWhile (· ≠ 0x2f), some rest)

/-- The tokens that the calls of `strtok_r` return until it finds no more, at most `n` of them. -/
def strtokLoop : ℕ → Option (List Byte) → List (List Byte)
  | 0, _ => []
  | n + 1, str =>
    match strtokR str with
    | none => []
    | some (token, saveptr) => token :: strtokLoop n saveptr

/-- The tokens of a string; each of them takes a byte of it. -/
def strtok (str : List Byte) : List (List Byte) := strtokLoop str.length (some str)

/-! ## Headers -/

/-- The fields of `struct cpio_t` after the magic, in order. -/
inductive CpioField
  | ino | mode | uid | gid | nlink | mtime | filesize | devmajor | devminor | rdevmajor | rdevminor
  | namesize | check
  deriving DecidableEq, Repr

/-- The fields in order. -/
def CpioField.all : List CpioField :=
  [.ino, .mode, .uid, .gid, .nlink, .mtime, .filesize, .devmajor, .devminor, .rdevmajor, .rdevminor,
    .namesize, .check]

/-- The offset of a field in `struct cpio_t`. -/
def CpioField.offset (f : CpioField) : ℕ := 6 + 8 * CpioField.all.idxOf f

/-- `sizeof(struct cpio_t)`. -/
def sizeofCpio : ℕ := 110

/-- The loop of `hextoi`, by what it adds for a character. For a character below `'0'` it adds
nothing and does not move on. -/
def hextoiLoop (digit : Byte → Option (BitVec 32)) (mem : Bytes) :
    ℕ → Addr → BitVec 32 → BitVec 32
  | 0, _, r => r
  | n + 1, s, r =>
    match digit (mem s) with
    | some d => hextoiLoop digit mem n (s + 1) (r <<< 4 + d)
    | none => hextoiLoop digit mem n s (r <<< 4)

namespace Cpio

/-- The branches of `hextoi` in `lib/cpio.c`. -/
def digit (c : Byte) : Option (BitVec 32) :=
  if 0x41 ≤ c then some (c.setWidth 32 - 0x41 + 10)
  else if 0x30 ≤ c then some (c.setWidth 32 - 0x30)
  else none

/-- `hextoi` of `lib/cpio.c`. -/
def hextoi (mem : Bytes) (s : Addr) (n : ℕ) : BitVec 32 := hextoiLoop digit mem n s 0

/-- `align_up_int`. -/
def alignUpInt (value alignment : BitVec 32) : BitVec 32 :=
  (value + alignment - 1) &&& ~~~(alignment - 1)

/-- The data of the entry at `ptr`; an `int` is added to the pointer. -/
def data (ptr : Addr) (namesize : BitVec 32) : Addr :=
  ptr + (alignUpInt (BitVec.ofNat 32 sizeofCpio + namesize) 4).signExtend 64

/-- The entry behind the one at `ptr`. -/
def next (ptr : Addr) (namesize filesize : BitVec 32) : Addr :=
  ptr + (alignUpInt (BitVec.ofNat 32 sizeofCpio + namesize) 4 + alignUpInt filesize 4).signExtend 64

/-- The loop of `initrd_get_file`. -/
def initrdGetFileLoop (mem : Bytes) (filename : List Byte) :
    ℕ → Addr → Option (Option (Addr × BitVec 32))
  | 0, _ => none
  | n + 1, ptr =>
    if strncmpEq mem ptr (cstr "070701") then
      let namesize := hextoi mem (ptr + BitVec.ofNat 64 CpioField.namesize.offset) 8
      let filesize := hextoi mem (ptr + BitVec.ofNat 64 CpioField.filesize.offset) 8
      let name := ptr + BitVec.ofNat 64 sizeofCpio
      if strcmpEq mem name (cstr "TRAILER!!!") then some none
      else if strcmpEq mem name filename then some (some (data ptr namesize, filesize))
      else initrdGetFileLoop mem filename n (next ptr namesize filesize)
    else some none

end Cpio

/-- `initrd_get_file` has returned within `n` entries: `*dataout` and `*sizeout`, or `-1`. -/
def initrdGetFile (mem : Bytes) (rd : Addr) (filename : List Byte) (n : ℕ) :
    Option (Option (Addr × BitVec 32)) :=
  Cpio.initrdGetFileLoop mem filename n rd

/-! ## Inodes -/

/-- `enum fsnode_type`. -/
inductive FsnodeType
  | fsDir
  | fsFile
  deriving DecidableEq, Repr

/-- `struct ramfs_inode`, with the inodes of its entries in order. -/
inductive RamfsInode
  | mk (type : FsnodeType) (name : List Byte) (entries : List RamfsInode) (data : Addr)
      (size : BitVec 64)

namespace RamfsInode

def type : RamfsInode → FsnodeType
  | mk type _ _ _ _ => type

def name : RamfsInode → List Byte
  | mk _ name _ _ _ => name

def entries : RamfsInode → List RamfsInode
  | mk _ _ entries _ _ => entries

def data : RamfsInode → Addr
  | mk _ _ _ data _ => data

def size : RamfsInode → BitVec 64
  | mk _ _ _ _ size => size

def setEntries : RamfsInode → List RamfsInode → RamfsInode
  | mk type name _ data size, entries => mk type name entries data size

end RamfsInode

/-- `ramfs_create_vnode`. -/
def ramfsCreateVnode (type : FsnodeType) (name : List Byte) : RamfsInode := .mk type name [] 0 0

/-- The inode of a file, with its data. -/
def ramfsCreateFile (name : List Byte) (data : Addr) (size : BitVec 64) : RamfsInode :=
  .mk .fsFile name [] data size

/-- `ramfs_lookup`. -/
def ramfsLookup (dir : RamfsInode) (componentName : List Byte) : Option RamfsInode :=
  if dir.type = .fsDir then dir.entries.find? (·.name = componentName) else none

/-- The walk along the components of a path. -/
def ramfsWalk : RamfsInode → List (List Byte) → Option RamfsInode
  | node, [] => some node
  | node, c :: cs => (ramfsLookup node c).bind (ramfsWalk · cs)

namespace Ramfs

/-- The branches of `hextoi` in `src/ramfs.c`. -/
def digit (c : Byte) : Option (BitVec 32) :=
  if 0x61 ≤ c then some (c.setWidth 32 - 0x61 + 10)
  else if 0x41 ≤ c then some (c.setWidth 32 - 0x41 + 10)
  else if 0x30 ≤ c then some (c.setWidth 32 - 0x30)
  else none

/-- `hextoi` of `src/ramfs.c`. -/
def hextoi (mem : Bytes) (s : Addr) (n : ℕ) : BitVec 32 := hextoiLoop digit mem n s 0

/-- `align_up`, on `unsigned int`. -/
def alignUp (n a : BitVec 32) : BitVec 32 := (n + a - 1) &&& ~~~(a - 1)

/-- The data of the entry at `ptr`; an `unsigned int` is added to the pointer. The sum with
`sizeof` is made in 64 bits and cut off. -/
def data (ptr : Addr) (namesize : BitVec 32) : Addr :=
  ptr + (alignUp ((BitVec.ofNat 64 sizeofCpio + namesize.signExtend 64).setWidth 32) 4).setWidth 64

/-- The entry behind the one at `ptr`. -/
def next (ptr : Addr) (namesize filesize : BitVec 32) : Addr :=
  ptr + (alignUp ((BitVec.ofNat 64 sizeofCpio + namesize.signExtend 64).setWidth 32) 4 +
    alignUp filesize 4).setWidth 64

/-- The inode made for the last token of an entry. -/
def leaf (token : List Byte) (mode : BitVec 32) (data : Addr) (size : BitVec 64) : RamfsInode :=
  if mode &&& 0x4000 ≠ 0 then ramfsCreateVnode .fsDir token else ramfsCreateFile token data size

/-- The loop over the tokens, from the inode `curr` on: `curr` with what the loop adds below it. A
token that `ramfs_lookup` does not find is added at the end of the entries of `curr`, also when
`curr` is a file. -/
def addTokens (mode : BitVec 32) (data : Addr) (size : BitVec 64) :
    RamfsInode → List (List Byte) → RamfsInode
  | curr, [] => curr
  | curr, token :: tokens =>
    let created := if tokens ≠ [] then ramfsCreateVnode .fsDir token else leaf token mode data size
    match ramfsLookup curr token with
    | some next =>
      let i := curr.entries.findIdx (·.name = token)
      curr.setEntries (curr.entries.set i (addTokens mode data size next tokens))
    | none => curr.setEntries (curr.entries ++ [addTokens mode data size created tokens])

/-- The loop of `ramfs_setup_mount` over the entries. -/
def setupMountLoop (mem : Bytes) : ℕ → Addr → RamfsInode → Option RamfsInode
  | 0, _, _ => none
  | n + 1, ptr, root =>
    if strncmpEq mem ptr (cstr "070701") then
      let namesize := hextoi mem (ptr + BitVec.ofNat 64 CpioField.namesize.offset) 8
      let filesize := hextoi mem (ptr + BitVec.ofNat 64 CpioField.filesize.offset) 8
      let mode := hextoi mem (ptr + BitVec.ofNat 64 CpioField.mode.offset) 8
      let name := ptr + BitVec.ofNat 64 sizeofCpio
      if strcmpEq mem name (cstr "TRAILER!!!") then some root
      else if strcmpEq mem name (cstr ".") then
        setupMountLoop mem n (next ptr namesize filesize) root
      else
        let tokens := strtok (strncpy mem name 255)
        let root := addTokens mode (data ptr namesize) (filesize.signExtend 64) root tokens
        setupMountLoop mem n (next ptr namesize filesize) root
    else some root

end Ramfs

/-- The address of the ramdisk in the linear map, from what `get_initrd_start` returns. -/
def initrdAddr (start : Addr) : Addr :=
  if start ≠ 0 ∧ start < pageOffset then start + pageOffset else start

/-- `ramfs_setup_mount` has returned within `n` entries: the root of the mount, or `-1`. The result
of `get_initrd_start` is `start`. -/
def ramfsSetupMount (mem : Bytes) (start : Addr) (n : ℕ) : Option (Option RamfsInode) :=
  if initrdAddr start = 0 then some none
  else
    (Ramfs.setupMountLoop mem n (initrdAddr start) (ramfsCreateVnode .fsDir (cstr "/"))).map some

end BareMetalOS.Files
