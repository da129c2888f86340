import BareMetalOS.Memory.Buddy

/-!
# The flattened device tree

The readers of `lib/fdt.c` that memory initialisation uses. A blob is the memory object that the
pointer `fdt` designates, addressed by offsets; `fdt` is aligned to four bytes, as its 32-bit loads
need, so that `align_up_ptr` may be read on offsets. A computation that loads outside the blob, or
overruns the buffer of `fdt_path_offset`, has no meaning and is `none`.

Every iteration of the token loops moves at least one token forward and loads inside the blob, so
the loops are bounded by the size of the blob.
-/

namespace BareMetalOS.Boot

open Memory

abbrev Byte := BitVec 8

/-- The memory object at `fdt`. -/
structure Blob where
  base : Addr
  size : ℕ
  byte : ℕ → Byte

/-- The bytes of a C string constant, without its terminator. -/
def cstr (s : String) : List Byte := s.toList.map fun c => BitVec.ofNat 8 c.toNat

/-! ## Loads -/

/-- One byte. -/
def Blob.get (b : Blob) (off : ℕ) : Option Byte := if off < b.size then some (b.byte off) else none

/-- `*(const uint32_t *)p`, on a little-endian machine. -/
def Blob.load32 (b : Blob) (off : ℕ) : Option (BitVec 32) := do
  let b₀ ← b.get off
  let b₁ ← b.get (off + 1)
  let b₂ ← b.get (off + 2)
  let b₃ ← b.get (off + 3)
  return b₃ ++ b₂ ++ b₁ ++ b₀

/-- `bswap32`. -/
def bswap32 (x : BitVec 32) : BitVec 32 :=
  (x &&& 0xff000000) >>> 24 ||| (x &&& 0x00ff0000) >>> 8 |||
    (x &&& 0x0000ff00) <<< 8 ||| (x &&& 0x000000ff) <<< 24

/-- `bswap64`. -/
def bswap64 (x : BitVec 64) : BitVec 64 :=
  (bswap32 ((x &&& 0xffffffff).setWidth 32)).setWidth 64 <<< 32 |||
    (bswap32 ((x >>> 32).setWidth 32)).setWidth 64

/-- A big-endian cell. -/
def Blob.cell (b : Blob) (off : ℕ) : Option (BitVec 32) := bswap32 <$> b.load32 off

/-- `*(const uint64_t *)p`, on a little-endian machine. -/
def Blob.load64 (b : Blob) (off : ℕ) : Option (BitVec 64) := do
  let lo ← b.load32 off
  let hi ← b.load32 (off + 4)
  return hi ++ lo

/-- Two big-endian cells, as `((unsigned long)bswap32(p[0]) << 32) | bswap32(p[1])`. -/
def Blob.cells (b : Blob) (off : ℕ) : Option Addr := do
  let hi ← b.cell off
  let lo ← b.cell (off + 4)
  return hi.setWidth 64 <<< 32 ||| lo.setWidth 64

/-- `align_up_ptr(p, 4)`. -/
def alignUpPtr (off : ℕ) : ℕ := (off + 3) / 4 * 4

/-- The conversion of an offset or of a `uint32_t` to `int`. -/
def toInt (x : ℕ) : ℤ := (x + 2 ^ 31 : ℤ) % 2 ^ 32 - 2 ^ 31

/-! ## Strings -/

def strlenLoop (b : Blob) : ℕ → ℕ → Option ℕ
  | 0, _ => none
  | n + 1, off => do
    let c ← b.get off
    if c = 0 then return 0
    let l ← strlenLoop b n (off + 1)
    return l + 1

/-- `strlen`. -/
def strlen (b : Blob) (off : ℕ) : Option ℕ := strlenLoop b (b.size - off + 1) off

/-- The first `n` bytes at an offset. -/
def Blob.take (b : Blob) (off : ℕ) : ℕ → List Byte
  | 0 => []
  | n + 1 => b.byte off :: b.take (off + 1) n

/-- `strcmp(p, name) == 0`, for a string constant `name`. -/
def strcmpEq (b : Blob) : ℕ → List Byte → Option Bool
  | off, [] => do
    let c ← b.get off
    return c = 0
  | off, x :: name => do
    let c ← b.get off
    if c = x then strcmpEq b (off + 1) name else return false

/-! ## Tokens -/

def fdtBeginNode : BitVec 32 := 1
def fdtEndNode : BitVec 32 := 2
def fdtProp : BitVec 32 := 3
def fdtNop : BitVec 32 := 4
def fdtEnd : BitVec 32 := 9

/-- The fields of `struct fdt_header` that are read. -/
def Blob.magic (b : Blob) : Option (BitVec 32) := b.cell 0
def Blob.totalsize (b : Blob) : Option (BitVec 32) := b.cell 4
def Blob.offDtStruct (b : Blob) : Option (BitVec 32) := b.cell 8
def Blob.offDtStrings (b : Blob) : Option (BitVec 32) := b.cell 12

/-! ## Finding a node -/

/-- `match_path`. In the second case the source skips the unit address in `current` and compares
again; what is left starts with the separator, or is empty and does not match. -/
def matchPath : List Byte → List Byte → Bool
  | current, [] => current = [] ∨ current.head? = some 0x40
  | current, x :: path =>
    if current.head? = some x then matchPath current.tail path
    else if current.head? = some 0x40 ∧ x = 0x2f then
      match current.dropWhile (· ≠ 0x2f) with
      | [] => false
      | _ :: rest => matchPath rest path
    else false

/-- `sizeof(current_path)`. -/
def pathMax : ℕ := 1024

/-- A node name is appended to the path; `none` if it does not fit the buffer. -/
def pushPath (current name : List Byte) : Option (List Byte) :=
  if current = [] then some [0x2f]
  else
    let current := if 1 < current.length then current ++ [0x2f] else current
    if current.length + name.length + 1 ≤ pathMax then some (current ++ name) else none

/-- The last node name is taken off the path. -/
def popPath (current : List Byte) : List Byte :=
  if current.length ≤ 1 then []
  else
    let current := (current.reverse.dropWhile (· ≠ 0x2f)).reverse
    if 1 < current.length then current.dropLast else current

/-- The token loop of `fdt_path_offset`. -/
def pathOffsetLoop (b : Blob) (path : List Byte) : ℕ → ℕ → List Byte → Option ℤ
  | 0, _, _ => none
  | n + 1, ptr, current => do
    let token ← b.cell ptr
    let tokenOffset := toInt ptr
    let ptr := ptr + 4
    if token = fdtBeginNode then
      let nameLen ← strlen b ptr
      let current ← pushPath current (b.take ptr nameLen)
      if matchPath current path then return tokenOffset
      pathOffsetLoop b path n (alignUpPtr (ptr + nameLen + 1)) current
    else if token = fdtEndNode then pathOffsetLoop b path n ptr (popPath current)
    else if token = fdtProp then
      let len ← b.cell ptr
      pathOffsetLoop b path n (alignUpPtr (ptr + 8 + len.toNat)) current
    else if token = fdtNop then pathOffsetLoop b path n ptr current
    else if token = fdtEnd then return -1
    else pathOffsetLoop b path n ptr current

/-- `fdt_path_offset`. -/
def fdtPathOffset (b : Blob) (path : List Byte) : Option ℤ := do
  let magic ← b.magic
  if magic ≠ 0xd00dfeed then return -1
  let offDtStruct ← b.offDtStruct
  pathOffsetLoop b path (b.size + 1) offDtStruct.toNat []

/-! ## Finding a property -/

/-- The token loop of `fdt_getprop`; the result is the offset of the value and its length. -/
def getpropLoop (b : Blob) (strings : ℕ) (name : List Byte) : ℕ → ℕ → Option (Option (ℕ × ℤ))
  | 0, _ => none
  | n + 1, ptr => do
    let token ← b.cell ptr
    let ptr := ptr + 4
    if token = fdtProp then
      let len ← b.cell ptr
      let nameoff ← b.cell (ptr + 4)
      let ptr := ptr + 8
      let eq ← strcmpEq b (strings + nameoff.toNat) name
      if eq then return some (ptr, toInt len.toNat)
      getpropLoop b strings name n (alignUpPtr (ptr + len.toNat))
    else if token = fdtNop then getpropLoop b strings name n ptr
    else return none

/-- `fdt_getprop`. -/
def fdtGetprop (b : Blob) (nodeoffset : ℤ) (name : List Byte) : Option (Option (ℕ × ℤ)) := do
  if nodeoffset < 0 then none
  let ptr := nodeoffset.toNat
  let strings ← b.offDtStrings
  let token ← b.cell ptr
  if token ≠ fdtBeginNode then return none
  let ptr := ptr + 4
  let nameLen ← strlen b ptr
  getpropLoop b strings.toNat name (b.size + 1) (alignUpPtr (ptr + nameLen + 1))

/-! ## Regions -/

/-- A start address and a size. -/
structure Region where
  start : Addr
  size : Addr
  deriving DecidableEq, Repr

/-- `fdt_totalsize`. -/
def fdtTotalsize (b : Blob) : Option Addr := do
  let magic ← b.magic
  if magic ≠ 0xd00dfeed then return 0
  let totalsize ← b.totalsize
  return totalsize.setWidth 64

/-- `parse_addr_prop`. -/
def parseAddrProp (b : Blob) : Option (ℕ × ℤ) → Option Addr
  | none => some 0
  | some (prop, len) =>
    if len = 4 then (·.setWidth 64) <$> b.cell prop
    else if len = 8 then b.cells prop
    else some 0

/-- `get_chosen_addr_prop`. -/
def getChosenAddrProp (b : Blob) (name fallbackName : List Byte) : Option Addr := do
  let chosen ← fdtPathOffset b (cstr "/chosen")
  if chosen < 0 then return 0
  let prop ← fdtGetprop b chosen name
  match prop with
  | some p => parseAddrProp b (some p)
  | none =>
    let prop ← fdtGetprop b chosen fallbackName
    parseAddrProp b prop

/-- `get_initrd_start`. -/
def getInitrdStart (b : Blob) : Option Addr :=
  getChosenAddrProp b (cstr "linux,initrd-start") (cstr "initrd-start")

/-- `get_initrd_end`. -/
def getInitrdEnd (b : Blob) : Option Addr :=
  getChosenAddrProp b (cstr "linux,initrd-end") (cstr "initrd-end")

/-- `parse_start_and_size`; the inner `none` is the result `-1`. -/
def parseStartAndSize (b : Blob) : Option (ℕ × ℤ) → Option (Option Region)
  | none => some none
  | some (prop, len) =>
    if len ≤ 0 then some none
    else if 16 ≤ len then do
      let start ← b.cells prop
      let size ← b.cells (prop + 8)
      return some ⟨start, size⟩
    else if 8 ≤ len then do
      let start ← b.cell prop
      let size ← b.cell (prop + 4)
      return some ⟨start.setWidth 64, size.setWidth 64⟩
    else some none

/-- The `size` property of `parse_alloc_ranges_with_size`. -/
def parseSize (b : Blob) : Option (ℕ × ℤ) → Option (Option Addr)
  | none => some none
  | some (prop, len) =>
    if len ≤ 0 then some none
    else if 8 ≤ len then some <$> b.cells prop
    else if 4 ≤ len then (fun c => some (c.setWidth 64)) <$> b.cell prop
    else some none

/-- `parse_alloc_ranges_with_size`. -/
def parseAllocRangesWithSize (b : Blob) (allocRangesProp sizeProp : Option (ℕ × ℤ)) :
    Option (Option Region) := do
  let range ← parseStartAndSize b allocRangesProp
  match range with
  | none => return none
  | some range =>
    let requested ← parseSize b sizeProp
    match requested with
    | none => return none
    | some requestedSize =>
      if requestedSize = 0 then return none
      return some ⟨range.start,
        if range.size ≠ 0 ∧ range.size < requestedSize then range.size else requestedSize⟩

/-- The region that a child of `/reserved-memory` defines. -/
def childRegion (b : Blob) (childOffset : ℤ) : Option (Option Region) := do
  let reg ← fdtGetprop b childOffset (cstr "reg")
  let region ← parseStartAndSize b reg
  match region with
  | some r => return some r
  | none =>
    let allocRanges ← fdtGetprop b childOffset (cstr "alloc-ranges")
    let size ← fdtGetprop b childOffset (cstr "size")
    parseAllocRangesWithSize b allocRanges size

/-- One iteration of the token loop of `fdt_get_reserved_memory_region`: the loop ends, or goes on
at another token and depth, and may have found a region. -/
def reservedStep (b : Blob) (ptr depth : ℕ) : Option (Option (ℕ × ℕ × Option Region)) := do
  if depth = 0 then return none
  let token ← b.cell ptr
  let tokenOffset := toInt ptr
  let ptr := ptr + 4
  if token = fdtBeginNode then
    let nameLen ← strlen b ptr
    let ptr := alignUpPtr (ptr + nameLen + 1)
    if depth + 1 = 2 then
      let region ← childRegion b tokenOffset
      return some (ptr, depth + 1, region)
    else return some (ptr, depth + 1, none)
  else if token = fdtEndNode then return some (ptr, depth - 1, none)
  else if token = fdtProp then
    let len ← b.cell ptr
    return some (alignUpPtr (ptr + 8 + len.toNat), depth, none)
  else if token = fdtNop then return some (ptr, depth, none)
  else if token = fdtEnd then return none
  else return some (ptr, depth, none)

/-- The token loop of `fdt_get_reserved_memory_region`, which counts the regions it finds. -/
def reservedLoop (b : Blob) (index : ℤ) : ℕ → ℕ → ℕ → ℤ → Option (Option Region)
  | 0, _, _, _ => none
  | n + 1, ptr, depth, current =>
    match reservedStep b ptr depth with
    | none => none
    | some none => some none
    | some (some (ptr, depth, none)) => reservedLoop b index n ptr depth current
    | some (some (ptr, depth, some r)) =>
      if current = index then some (some r) else reservedLoop b index n ptr depth (current + 1)

/-- The part of `fdt_get_reserved_memory_region` after the node's own `reg`. -/
def reservedChildren (b : Blob) (index reservedOffset current : ℤ) : Option (Option Region) := do
  let token ← b.cell reservedOffset.toNat
  if token ≠ fdtBeginNode then return none
  let ptr := reservedOffset.toNat + 4
  let nameLen ← strlen b ptr
  reservedLoop b index (b.size + 1) (alignUpPtr (ptr + nameLen + 1)) 1 current

/-- `fdt_get_reserved_memory_region`; the inner `none` is the result `-1`. -/
def fdtGetReservedMemoryRegion (b : Blob) (index : ℤ) : Option (Option Region) := do
  if index < 0 then return none
  let reservedOffset ← fdtPathOffset b (cstr "/reserved-memory")
  if reservedOffset < 0 then return none
  let reg ← fdtGetprop b reservedOffset (cstr "reg")
  let own ← parseStartAndSize b reg
  match own with
  | none => reservedChildren b index reservedOffset 0
  | some r => if index = 0 then return some r else reservedChildren b index reservedOffset 1

end BareMetalOS.Boot
