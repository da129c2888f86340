import BareMetalOS.Files.Paths

/-!
# The buffers of path resolution

`vfs_lookup` and `get_parent_and_child` at the level of their buffers of `PATH_MAX` bytes on the
stack, where every access checks its index. While the indices are inside, they compute what
`vfsLookup` and `getParentAndChild` say; a component of 255 bytes or more, and a path of 256 bytes
or more, take them outside (`vfsLookupIn_eq`, `getParentAndChildIn_ok`,
`getParentAndChildIn_long`).
-/

namespace BareMetalOS.Files

open Memory (Addr)
open Boot (Byte cstr)

/-! ## Accesses -/

/-- `PATH_MAX` -/
def pathMax : ℕ := 255

/-- The buffers of `src/vfs.c`; `childname` is the `filename` of the caller. -/
inductive PathBuffer
  | component
  | temp
  | dirname
  | filename
  deriving DecidableEq, Repr

/-- What the source must not do. -/
inductive Fault
  /-- the length of a string does not fit in an `int` -/
  | length
  /-- an access beyond the end of a buffer -/
  | index (buffer : PathBuffer) (i : ℕ)
  /-- a call of an absent operation of a vnode -/
  | operation
  /-- a use of the absent root of a mount -/
  | mountRoot
  /-- a use of a pointer that is not to a vnode -/
  | vnode
  deriving DecidableEq, Repr

/-- A buffer with its contents. -/
structure Buffer where
  name : PathBuffer
  bytes : Fin pathMax → Byte

/-- What the buffers of the nested calls hold when these start. -/
abbrev Stack := ℕ → PathBuffer → Fin pathMax → Byte

/-- The buffer of the `n`-th call. -/
def Stack.buffer (stack : Stack) (n : ℕ) (name : PathBuffer) : Buffer := ⟨name, stack n name⟩

namespace Buffer

/-- `b[i]` -/
def read (b : Buffer) (i : ℕ) : Except Fault Byte :=
  if h : i < pathMax then .ok (b.bytes ⟨i, h⟩) else .error (.index b.name i)

/-- The buffer with the byte `c` at the index `i`. -/
def set (b : Buffer) (i : ℕ) (c : Byte) : Buffer :=
  { b with bytes := fun j => if j = i then c else b.bytes j }

/-- `b[i] = c` -/
def write (b : Buffer) (i : ℕ) (c : Byte) : Except Fault Buffer :=
  if i < pathMax then .ok (b.set i c) else .error (.index b.name i)

/-- The string from the index `i` on, within `n` rounds. -/
def cstringLoop (b : Buffer) : ℕ → ℕ → Except Fault (List Byte)
  | 0, i => .error (.index b.name i)
  | n + 1, i => do
    let c ← b.read i
    if c = 0 then return []
    else return c :: (← cstringLoop b n (i + 1))

/-- The string in the buffer, as its readers see it. -/
def cstring (b : Buffer) : Except Fault (List Byte) := cstringLoop b pathMax 0

/-- The string is at the start of the buffer. -/
structure Holds (b : Buffer) (str : List Byte) : Prop where
  nul : 0 ∉ str
  length : str.length < pathMax
  bytes : ∀ i : Fin pathMax, i ≤ str.length → b.bytes i = str.getD i 0

/-- The buffer with the string and zeros behind it. -/
def filled (name : PathBuffer) (str : List Byte) : Buffer := ⟨name, fun i => str.getD i 0⟩

end Buffer

/-! ## The string functions -/

/-- `strlen` -/
def strlen (s : List Byte) : Except Fault ℕ :=
  if s.length < 2 ^ 31 then .ok s.length else .error .length

/-- `while (n && (*d++ = *src++)) n--;`: the buffer, the index and `n` after it. -/
def strncpyLoop (src : ℕ → Except Fault Byte) : ℕ → ℕ → Buffer → Except Fault (Buffer × ℕ × ℕ)
  | 0, i, dest => .ok (dest, i, 0)
  | n + 1, i, dest => do
    let c ← src i
    let dest ← dest.write i c
    if c = 0 then return (dest, i + 1, n + 1) else strncpyLoop src n (i + 1) dest

/-- `while (n--) *d++ = '\0';` -/
def zeroLoop : ℕ → ℕ → Buffer → Except Fault Buffer
  | 0, _, dest => .ok dest
  | n + 1, i, dest => do
    let dest ← dest.write i 0
    zeroLoop n (i + 1) dest

/-- `strncpy`, from the bytes that `src` reads; of a string shorter than `n` it writes one byte more
than `n`. -/
def strncpyIn (dest : Buffer) (src : ℕ → Except Fault Byte) (n : ℕ) : Except Fault Buffer := do
  let (dest, i, n) ← strncpyLoop src n 0 dest
  zeroLoop n i dest

/-- `while ((*d++ = *src++));` within `n` rounds. -/
def strcpyLoop (src : ℕ → Except Fault Byte) : ℕ → ℕ → Buffer → Except Fault Buffer
  | 0, i, dest => .error (.index dest.name i)
  | n + 1, i, dest => do
    let c ← src i
    let dest ← dest.write i c
    if c = 0 then return dest else strcpyLoop src n (i + 1) dest

/-- `strcpy` -/
def strcpyIn (dest : Buffer) (src : ℕ → Except Fault Byte) : Except Fault Buffer :=
  strcpyLoop src pathMax 0 dest

/-! ## `get_parent_and_child` -/

/-- `while (len > 1 && temp[len - 1] == '/') { temp[len - 1] = '\0'; len--; }` -/
def stripLoop : ℕ → Buffer → Except Fault Buffer
  | 0, temp => .ok temp
  | len + 1, temp => do
    if 0 < len then
      let c ← temp.read len
      if c = 0x2f then
        let temp ← temp.write len 0
        stripLoop len temp
      else return temp
    else return temp

/-- `for (int i = 0; temp[i] != '\0'; i++) if (temp[i] == '/') last_slash = i;` within `n`
rounds. -/
def lastSlashLoop (temp : Buffer) : ℕ → ℕ → Option ℕ → Except Fault (Option ℕ)
  | 0, i, _ => .error (.index temp.name i)
  | n + 1, i, last => do
    let c ← temp.read i
    if c = 0 then return last
    else lastSlashLoop temp n (i + 1) (if c = 0x2f then some i else last)

/-- `get_parent_and_child`: the buffers `dirname` and `childname` after it. -/
def getParentAndChildIn (pathname : List Byte) (temp dirname childname : Buffer) :
    Except Fault (Buffer × Buffer) := do
  let len ← strlen pathname
  let temp ← strncpyIn temp (fun i => .ok (pathname.getD i 0)) (pathMax - 1)
  let temp ← temp.write (pathMax - 1) 0
  let temp ← stripLoop len temp
  match ← lastSlashLoop temp pathMax 0 none with
  | none =>
    let dirname ← dirname.write 0 0x2e
    let dirname ← dirname.write 1 0
    let childname ← strcpyIn childname temp.read
    return (dirname, childname)
  | some 0 =>
    let dirname ← dirname.write 0 0x2f
    let dirname ← dirname.write 1 0
    let childname ← strcpyIn childname fun i => temp.read (i + 1)
    return (dirname, childname)
  | some lastSlash =>
    let dirname ← strncpyIn dirname temp.read lastSlash
    let dirname ← dirname.write lastSlash 0
    let childname ← strcpyIn childname fun i => temp.read (i + lastSlash + 1)
    return (dirname, childname)

/-! ## `vfs_lookup` -/

/-- `while (pathname[i] != '/' && pathname[i] != '\0') component[j++] = pathname[i++];`: the buffer,
`j` and the rest of the path after it. -/
def componentLoop : List Byte → ℕ → Buffer → Except Fault (Buffer × ℕ × List Byte)
  | [], j, component => .ok (component, j, [])
  | c :: path, j, component => do
    if c = 0x2f then return (component, j, c :: path)
    else
      let component ← component.write j c
      componentLoop path (j + 1) component

/-- A pointer that has to be to a vnode. -/
def Fault.valid {α : Type} (x : Option α) : Except Fault α :=
  match x with
  | none => .error .vnode
  | some x => .ok x

/-- The loop of `vfs_lookup` over the rest of the path, within `n` rounds. -/
def lookupLoop : ℕ → Vfs → ℕ → List Byte → Buffer → Except Fault (Vfs × Option ℕ)
  | 0, s, node, _, _ => .ok (s, some node)
  | n + 1, s, node, pathname, component =>
    if pathname = [] then .ok (s, some node)
    else do
      let node ← Fault.valid (cross s node)
      let v ← Fault.valid s.vnodes[node]?
      let (component, j, pathname) ← componentLoop pathname 0 component
      let component ← component.write j 0
      let name ← component.cstring
      let pathname := pathname.dropWhile (· = 0x2f)
      if name = [0x2e] then lookupLoop n s node pathname component
      else if name = [0x2e, 0x2e] then lookupLoop n s (v.parent.getD node) pathname component
      else if 0 < j then
        match vnodeLookup s v.internal name with
        | (s, none) => return (s, none)
        | (s, some next) => lookupLoop n (fixParent s next node) next pathname component
      else lookupLoop n s node pathname component

/-- `vfs_lookup` by the thread `cur`: the vnode, or `-1`. A round takes at least one byte of the
path. -/
def vfsLookupIn (s : Vfs) (cur : Addr) (pathname : List Byte) (component : Buffer) :
    Except Fault (Vfs × Option ℕ) := do
  match ← lookupLoop pathname.length s (startOf s cur pathname) (pathname.dropWhile (· = 0x2f))
      component with
  | (s, none) => return (s, none)
  | (s, some node) =>
    let node ← Fault.valid (cross s node)
    return (s, some node)

/-! ## Accesses inside -/

variable {b dest temp : Buffer} {str path : List Byte} {src : ℕ → Except Fault Byte} {i n : ℕ}
  {c : Byte}

@[simp] theorem ok_bind {α β : Type} (x : α) (f : α → Except Fault β) :
    ((.ok x : Except Fault α) >>= f) = f x := rfl

@[simp] theorem error_bind {α β : Type} (e : Fault) (f : α → Except Fault β) :
    ((.error e : Except Fault α) >>= f) = .error e := rfl

namespace Buffer

theorem read_ok (h : i < pathMax) : b.read i = .ok (b.bytes ⟨i, h⟩) := dif_pos h

theorem write_ok (h : i < pathMax) (c : Byte) : b.write i c = .ok (b.set i c) := if_pos h

theorem write_error (h : ¬ i < pathMax) (c : Byte) : b.write i c = .error (.index b.name i) :=
  if_neg h

@[simp] theorem set_name (b : Buffer) (i : ℕ) (c : Byte) : (b.set i c).name = b.name := rfl

@[simp] theorem set_bytes (b : Buffer) (i : ℕ) (c : Byte) (j : Fin pathMax) :
    (b.set i c).bytes j = if j = i then c else b.bytes j := rfl

@[ext] theorem ext {b b' : Buffer} (hname : b.name = b'.name)
    (hbytes : ∀ i, b.bytes i = b'.bytes i) : b = b' := by
  obtain ⟨name, bytes⟩ := b
  obtain ⟨name', bytes'⟩ := b'
  cases hname
  cases funext hbytes
  rfl

@[simp] theorem filled_bytes (name : PathBuffer) (str : List Byte) (i : Fin pathMax) :
    (filled name str).bytes i = str.getD i 0 := rfl

theorem filled_holds (name : PathBuffer) (hnul : 0 ∉ str) (hlen : str.length < pathMax) :
    (filled name str).Holds str :=
  ⟨hnul, hlen, fun _ _ => rfl⟩

theorem Holds.read (h : b.Holds str) (hi : i ≤ str.length) : b.read i = .ok (str.getD i 0) := by
  rw [read_ok (hi.trans_lt h.length), h.bytes _ hi]

theorem cstringLoop_eq (h : b.Holds str) (hi : i ≤ str.length) (hn : str.length < i + n) :
    b.cstringLoop n i = .ok (str.drop i) := by
  induction n generalizing i with
  | zero => omega
  | succ n ih =>
    rw [cstringLoop, h.read hi, ok_bind]
    rcases hi.eq_or_lt with rfl | hlt
    · rw [if_pos (by simp), List.drop_length]
      rfl
    · have hne : str.getD i 0 ≠ 0 := by
        intro h0
        rw [List.getD_eq_getElem _ _ hlt] at h0
        exact h.nul (h0 ▸ List.getElem_mem hlt)
      rw [if_neg hne, ih hlt (by omega), ok_bind, List.drop_eq_getElem_cons hlt,
        List.getD_eq_getElem _ _ hlt]
      rfl

/-- The last byte of the string in a buffer. -/
theorem filled_read_last (name : PathBuffer) (c : Byte) (hlen : str.length < pathMax) :
    (filled name (str ++ [c])).read str.length = .ok c := by
  rw [read_ok hlen, filled]
  simp [List.getD_eq_getElem?_getD]

theorem filled_write_last (name : PathBuffer) (c : Byte) (hlen : str.length < pathMax) :
    (filled name (str ++ [c])).write str.length 0 = .ok (filled name str) := by
  rw [write_ok hlen, Except.ok.injEq]
  apply Buffer.ext
  · rfl
  · intro j
    rw [set_bytes, filled_bytes, filled_bytes, List.getD_eq_getElem?_getD,
      List.getD_eq_getElem?_getD]
    rcases Nat.lt_trichotomy j str.length with hlt | heq | hgt
    · rw [if_neg hlt.ne, List.getElem?_append_left hlt]
    · rw [if_pos heq, heq, List.getElem?_eq_none le_rfl]
      rfl
    · have hlast : (str ++ [c]).length ≤ j := by
        rw [List.length_append]
        exact hgt
      rw [if_neg hgt.ne', List.getElem?_eq_none hlast, List.getElem?_eq_none hgt.le]

theorem Holds.cstring (h : b.Holds str) : b.cstring = .ok str :=
  cstringLoop_eq h (Nat.zero_le _) (by have := h.length; omega)

end Buffer

/-- The source of a copy is this string. -/
def Reads (src : ℕ → Except Fault Byte) (str : List Byte) : Prop :=
  0 ∉ str ∧ ∀ i ≤ str.length, src i = .ok (str.getD i 0)

theorem reads_string (hnul : 0 ∉ str) : Reads (fun i => .ok (str.getD i 0)) str :=
  ⟨hnul, fun _ _ => rfl⟩

theorem Buffer.Holds.reads_drop (h : b.Holds str) (hn : n ≤ str.length) :
    Reads (fun i => b.read (i + n)) (str.drop n) := by
  constructor
  · exact fun hmem => h.nul (List.mem_of_mem_drop hmem)
  · intro i hi
    rw [List.length_drop] at hi
    have hget : (str.drop n).getD i 0 = str.getD (i + n) 0 := by
      rw [List.getD_eq_getElem?_getD, List.getD_eq_getElem?_getD, List.getElem?_drop, Nat.add_comm]
    rw [hget]
    exact h.read (by omega)

theorem Buffer.Holds.reads (h : b.Holds str) : Reads b.read str := ⟨h.nul, fun _ hi => h.read hi⟩

theorem Reads.ne_zero (h : Reads src str) (hi : i < str.length) : str.getD i 0 ≠ 0 := by
  intro h0
  rw [List.getD_eq_getElem _ _ hi] at h0
  exact h.1 (h0 ▸ List.getElem_mem hi)

/-- The first loop of `strncpy` writes the string, up to `n` bytes and the zero at its end. -/
theorem strncpyLoop_eq (h : Reads src str) (hi : i ≤ str.length) (hn : i + n < pathMax)
    (dest : Buffer) : ∃ dest' i' n', strncpyLoop src n i dest = .ok (dest', i', n') ∧
      dest'.name = dest.name ∧ i ≤ i' ∧ i + n ≤ i' + n' ∧ i' + n' ≤ i + n + 1 ∧
      (n' = 0 ∨ str.length < i') ∧
      ∀ j : Fin pathMax, dest'.bytes j = if i ≤ j ∧ j < i' then str.getD j 0 else dest.bytes j := by
  induction n generalizing i dest with
  | zero =>
    refine ⟨dest, i, 0, rfl, rfl, le_rfl, le_rfl, by omega, .inl rfl, fun j => ?_⟩
    rw [if_neg (by omega)]
  | succ n ih =>
    have hlt : i < pathMax := by omega
    rw [strncpyLoop, h.2 i hi, ok_bind, Buffer.write_ok hlt, ok_bind]
    rcases hi.eq_or_lt with rfl | hi
    · rw [if_pos (by simp)]
      refine ⟨_, _, _, rfl, rfl, by omega, by omega, by omega, .inr (by omega), fun j => ?_⟩
      rw [Buffer.set_bytes]
      refine if_ctx_congr ?_ (fun hj => by rw [hj.1.antisymm' (by omega)]) fun _ => rfl
      omega
    · rw [if_neg (h.ne_zero hi)]
      obtain ⟨dest', i', n', heq, hname, h₁, h₂, h₃, h₄, hbytes⟩ := ih hi (by omega) _
      refine ⟨dest', i', n', heq, hname, by omega, by omega, by omega, h₄, fun j => ?_⟩
      rw [hbytes j, Buffer.set_bytes]
      rcases eq_or_ne j.val i with hj | hj
      · rw [if_neg (by omega), if_pos hj, if_pos (by omega), hj]
      · rw [if_neg hj]
        exact if_congr (by omega) rfl rfl

theorem zeroLoop_eq (hn : i + n ≤ pathMax) (dest : Buffer) :
    ∃ dest', zeroLoop n i dest = .ok dest' ∧ dest'.name = dest.name ∧
    ∀ j : Fin pathMax, dest'.bytes j = if i ≤ j ∧ j < i + n then 0 else dest.bytes j := by
  induction n generalizing i dest with
  | zero =>
    refine ⟨dest, rfl, rfl, fun j => ?_⟩
    rw [if_neg (by omega)]
  | succ n ih =>
    rw [zeroLoop, Buffer.write_ok (by omega), ok_bind]
    obtain ⟨dest', heq, hname, hbytes⟩ := @ih (i + 1) (by omega) (dest.set i 0)
    refine ⟨dest', heq, hname, fun j => ?_⟩
    rw [hbytes j, Buffer.set_bytes]
    rcases eq_or_ne j.val i with hj | hj
    · rw [if_neg (by omega), if_pos hj, if_pos (by omega)]
    · rw [if_neg hj]
      exact if_congr (by omega) rfl rfl

/-- `strncpy` of at most 254 bytes stays inside, and writes the string with zeros behind it. -/
theorem strncpyIn_eq (h : Reads src str) (hn : n < pathMax) (dest : Buffer) :
    ∃ dest', strncpyIn dest src n = .ok dest' ∧ dest'.name = dest.name ∧
      ∀ j : Fin pathMax, j < n → dest'.bytes j = str.getD j 0 := by
  obtain ⟨d₁, i', n', hloop, hname₁, -, h₂, h₃, h₄, hbytes₁⟩ :=
    @strncpyLoop_eq _ _ 0 n h (Nat.zero_le _) (by omega) dest
  obtain ⟨d₂, hzero, hname₂, hbytes₂⟩ := @zeroLoop_eq i' n' (by omega) d₁
  refine ⟨d₂, ?_, hname₂.trans hname₁, fun j hj => ?_⟩
  · rw [strncpyIn, hloop, ok_bind]
    exact hzero
  · rw [hbytes₂ j, hbytes₁ j]
    by_cases hlt : j < i'
    · rw [if_neg (by omega), if_pos (by omega)]
    · rw [if_pos (by omega), List.getD_eq_default]
      omega

theorem strcpyLoop_eq (h : Reads src str) (hi : i ≤ str.length) (hn : str.length < i + n)
    (hin : i + n = pathMax) (dest : Buffer) : ∃ dest', strcpyLoop src n i dest = .ok dest' ∧
      ∀ j : Fin pathMax, dest'.bytes j =
        if i ≤ j ∧ j ≤ str.length then str.getD j 0 else dest.bytes j := by
  induction n generalizing i dest with
  | zero => omega
  | succ n ih =>
    have hlt : i < pathMax := by omega
    rw [strcpyLoop, h.2 i hi, ok_bind, Buffer.write_ok hlt, ok_bind]
    rcases hi.eq_or_lt with rfl | hi
    · rw [if_pos (by simp)]
      refine ⟨_, rfl, fun j => ?_⟩
      rw [Buffer.set_bytes]
      refine if_ctx_congr ?_ (fun hj => by rw [hj.1.antisymm' hj.2]) fun _ => rfl
      omega
    · rw [if_neg (h.ne_zero hi)]
      obtain ⟨dest', heq, hbytes⟩ := ih hi (by omega) (by omega) _
      refine ⟨dest', heq, fun j => ?_⟩
      rw [hbytes j, Buffer.set_bytes]
      rcases eq_or_ne j.val i with hj | hj
      · rw [if_neg (by omega), if_pos hj, if_pos (by omega), hj]
      · rw [if_neg hj]
        exact if_congr (by omega) rfl rfl

/-- `strcpy` of a string that fits. -/
theorem strcpyIn_eq (h : Reads src str) (hlen : str.length < pathMax) (dest : Buffer) :
    ∃ dest', strcpyIn dest src = .ok dest' ∧ dest'.Holds str := by
  obtain ⟨dest', heq, hbytes⟩ := @strcpyLoop_eq _ _ 0 pathMax h (Nat.zero_le _) (by omega)
    (Nat.zero_add _) dest
  refine ⟨dest', heq, h.1, hlen, fun j hj => ?_⟩
  rw [hbytes j, if_pos ⟨Nat.zero_le _, hj⟩]

/-! ## Splitting a path -/

theorem stripLoop_eq (l : List Byte) (hlen : l.length < pathMax) :
    stripLoop l.length (Buffer.filled .temp l.reverse) =
      .ok (Buffer.filled .temp (stripSlashes l).reverse) := by
  induction l with
  | nil => rfl
  | cons c l ih =>
    cases l with
    | nil =>
      rw [List.length_singleton, stripLoop, if_neg (lt_irrefl 0)]
      rfl
    | cons d l =>
      have hlen' : (d :: l).length < pathMax := (Nat.lt_succ_self _).trans hlen
      have hrev : (c :: d :: l).reverse = (d :: l).reverse ++ [c] := List.reverse_cons
      have hdl : (d :: l).reverse.length = (d :: l).length := List.length_reverse
      have hread := Buffer.filled_read_last .temp c (hdl ▸ hlen')
      have hwrite := Buffer.filled_write_last .temp c (hdl ▸ hlen')
      rw [hdl] at hread hwrite
      rw [List.length_cons, stripLoop, if_pos (by simp), hrev, hread, ok_bind, stripSlashes]
      split
      · rw [hwrite, ok_bind, ih hlen']
      · rw [hrev]
        rfl

theorem lastSlashLoop_eq (h : temp.Holds str) (hi : i ≤ str.length) (hn : str.length < i + n)
    (last : Option ℕ) : lastSlashLoop temp n i last = .ok (lastSlash (str.drop i) i last) := by
  induction n generalizing i last with
  | zero => omega
  | succ n ih =>
    rw [lastSlashLoop, h.read hi, ok_bind]
    rcases hi.eq_or_lt with rfl | hlt
    · rw [if_pos (by simp), List.drop_length]
      rfl
    · rw [if_neg (h.reads.ne_zero hlt), ih hlt (by omega), List.drop_eq_getElem_cons hlt, lastSlash,
        List.getD_eq_getElem _ _ hlt]

/-- The last slash is in the string. -/
theorem lastSlash_lt {l : List Byte} {last : Option ℕ} (h : lastSlash l i last = some n) :
    last = some n ∨ n < i + l.length := by
  induction l generalizing i last with
  | nil => exact .inl h
  | cons c l ih =>
    rw [lastSlash] at h
    rw [List.length_cons]
    rcases ih h with heq | hlt
    · split at heq
      · cases heq
        exact .inr (by omega)
      · exact .inl heq
    · exact .inr (by omega)

/-- What `get_parent_and_child` sees of the path: 254 bytes at most, without trailing slashes. -/
def seenPath (pathname : List Byte) : List Byte :=
  if pathname.length ≤ 254 then (stripSlashes pathname.reverse).reverse else pathname.take 254

theorem mem_of_mem_stripSlashes {l : List Byte} (h : c ∈ stripSlashes l) : c ∈ l := by
  induction l with
  | nil => exact h
  | cons d l ih =>
    cases l with
    | nil => exact h
    | cons e l =>
      rw [stripSlashes] at h
      split at h
      · exact List.mem_cons_of_mem _ (ih h)
      · exact h

theorem length_stripSlashes_le (l : List Byte) : (stripSlashes l).length ≤ l.length := by
  induction l with
  | nil => exact le_rfl
  | cons d l ih =>
    cases l with
    | nil => exact le_rfl
    | cons e l =>
      rw [stripSlashes]
      split
      · exact ih.trans (Nat.le_succ _)
      · exact le_rfl

theorem seenPath_nul (h : 0 ∉ path) : 0 ∉ seenPath path := by
  rw [seenPath]
  split
  · intro hmem
    rw [List.mem_reverse] at hmem
    exact h (List.mem_reverse.1 (mem_of_mem_stripSlashes hmem))
  · exact fun hmem => h (List.mem_of_mem_take hmem)

theorem length_seenPath_le (path : List Byte) : (seenPath path).length ≤ 254 := by
  rw [seenPath]
  split
  · have := length_stripSlashes_le path.reverse
    rw [List.length_reverse] at this ⊢
    omega
  · rw [List.length_take]
    omega

theorem seenPath_holds (h : 0 ∉ path) :
    (Buffer.filled .temp (seenPath path)).Holds (seenPath path) :=
  Buffer.filled_holds .temp (seenPath_nul h) (Nat.lt_succ_of_le (length_seenPath_le path))

/-- `temp` with the first 254 bytes of the path. -/
theorem copyPath_eq (h : 0 ∉ path) (hname : temp.name = .temp) :
    ∃ t, strncpyIn temp (fun i => .ok (path.getD i 0)) (pathMax - 1) = .ok t ∧
      t.write (pathMax - 1) 0 = .ok (Buffer.filled .temp (path.take 254)) := by
  obtain ⟨t, heq, htname, hbytes⟩ :=
    @strncpyIn_eq _ _ (pathMax - 1) (reads_string h) (by decide) temp
  refine ⟨t, heq, ?_⟩
  rw [Buffer.write_ok (by decide), Except.ok.injEq]
  apply Buffer.ext
  · exact htname.trans hname
  · intro j
    have hj := j.isLt
    rw [Buffer.set_bytes, Buffer.filled_bytes, List.getD_eq_getElem?_getD]
    rcases eq_or_ne j.val (pathMax - 1) with heq | hne
    · have hnone : (path.take 254)[(254 : ℕ)]? = none :=
        List.getElem?_eq_none (List.length_take_le _ _)
      rw [if_pos heq, heq]
      exact (congrArg (·.getD 0) hnone).symm
    · have hlt : j.val < 254 := Nat.lt_of_le_of_ne (Nat.le_of_lt_succ hj) hne
      rw [if_neg hne, hbytes j hlt, List.getElem?_take_of_lt hlt, List.getD_eq_getElem?_getD]

/-- The loop that strips the slashes, for a path of at most 255 bytes. -/
theorem stripLoop_seenPath (hlen : path.length ≤ 255) :
    stripLoop path.length (Buffer.filled .temp (path.take 254)) =
      .ok (Buffer.filled .temp (seenPath path)) := by
  rw [seenPath]
  split
  · rename_i hle
    have hlt : path.reverse.length < pathMax := by
      rw [List.length_reverse]
      exact Nat.lt_succ_of_le hle
    have hstrip := stripLoop_eq path.reverse hlt
    rw [List.length_reverse, List.reverse_reverse] at hstrip
    rw [List.take_of_length_le hle, hstrip]
  · rename_i hle
    have h255 : path.length = 254 + 1 := by omega
    have hzero : (Buffer.filled .temp (path.take 254)).read 254 = .ok 0 := by
      rw [Buffer.read_ok (by decide), Buffer.filled]
      simp [List.getD_eq_getElem?_getD]
    rw [h255, stripLoop, if_pos (by decide), hzero]
    rfl

/-- What the model says of a path of at most 255 bytes. -/
theorem getParentAndChild_eq (hlen : path.length ≤ 255) : getParentAndChild path =
    match lastSlash (seenPath path) 0 none with
    | none => some ([0x2e], seenPath path)
    | some 0 => some ([0x2f], (seenPath path).drop 1)
    | some i => some ((seenPath path).take i, (seenPath path).drop (i + 1)) := by
  have hseen : (if path.length ≤ 254 then (stripSlashes (path.take 254).reverse).reverse
      else path.take 254) = seenPath path := by
    rw [seenPath]
    split
    · rw [List.take_of_length_le ‹_›]
    · rfl
  rw [getParentAndChild, if_neg (by omega)]
  exact hseen ▸ rfl

theorem write_single (h : c ≠ 0) (b : Buffer) : ∃ b₁ b₂, b.write 0 c = .ok b₁ ∧
    b₁.write 1 0 = .ok b₂ ∧ b₂.Holds [c] := by
  refine ⟨_, _, Buffer.write_ok (by decide) c, Buffer.write_ok (by decide) 0, ?_, ?_, ?_⟩
  · simpa using h.symm
  · exact (by decide : 1 < pathMax)
  · intro i hi
    rw [List.length_singleton] at hi
    rcases Nat.le_one_iff_eq_zero_or_eq_one.1 hi with heq | heq <;> simp [heq]

/-- **Splitting.** A path of at most 255 bytes is split inside the buffers, as `getParentAndChild`
says. -/
theorem getParentAndChildIn_ok (h : 0 ∉ path) (hlen : path.length ≤ 255)
    (dirname childname : Buffer) (hname : temp.name = .temp) :
    ∃ d c dir child, getParentAndChild path = some (d, c) ∧
      getParentAndChildIn path temp dirname childname = .ok (dir, child) ∧
      dir.Holds d ∧ child.Holds c := by
  have hholds := seenPath_holds h
  have hbound := length_seenPath_le path
  have hlast := @lastSlashLoop_eq _ _ 0 pathMax hholds (Nat.zero_le _) (by rw [pathMax]; omega) none
  have hstrlen : strlen path = .ok path.length := if_pos (by omega)
  obtain ⟨t, hcopy, hwrite⟩ := copyPath_eq h hname
  rw [List.drop_zero] at hlast
  rw [getParentAndChild_eq hlen, getParentAndChildIn, hstrlen, ok_bind, hcopy, ok_bind, hwrite,
    ok_bind, stripLoop_seenPath hlen, ok_bind, hlast, ok_bind]
  have hshort : (seenPath path).length < pathMax := Nat.lt_succ_of_le hbound
  rcases hcase : lastSlash (seenPath path) 0 none with _ | _ | i
  · obtain ⟨b₁, b₂, hb₁, hb₂, hdir⟩ := @write_single 0x2e (by decide) dirname
    obtain ⟨child, hcopied, hchild⟩ := strcpyIn_eq hholds.reads hshort childname
    refine ⟨_, _, b₂, child, rfl, ?_, hdir, hchild⟩
    rw [hb₁, ok_bind, hb₂, ok_bind, hcopied, ok_bind]
    rfl
  · obtain ⟨b₁, b₂, hb₁, hb₂, hdir⟩ := @write_single 0x2f (by decide) dirname
    have hlt := (lastSlash_lt hcase).resolve_left (by simp)
    rw [Nat.zero_add] at hlt
    have hdrop : ((seenPath path).drop 1).length < pathMax := by
      rw [List.length_drop]
      omega
    obtain ⟨child, hcopied, hchild⟩ := strcpyIn_eq (hholds.reads_drop hlt) hdrop childname
    refine ⟨_, _, b₂, child, rfl, ?_, hdir, hchild⟩
    rw [hb₁, ok_bind, hb₂, ok_bind, hcopied, ok_bind]
    rfl
  · have hlt := (lastSlash_lt hcase).resolve_left (by simp)
    rw [Nat.zero_add] at hlt
    have hdrop : ((seenPath path).drop (i + 1 + 1)).length < pathMax := by
      rw [List.length_drop]
      omega
    obtain ⟨child, hcopied, hchild⟩ := strcpyIn_eq (hholds.reads_drop hlt) hdrop childname
    obtain ⟨d, hd, -, hbytes⟩ := @strncpyIn_eq _ _ (i + 1) hholds.reads (by omega) dirname
    have htake : ((seenPath path).take (i + 1)).length = i + 1 :=
      List.length_take_of_le hlt.le
    refine ⟨_, _, d.set (i + 1) 0, child, rfl, ?_, ⟨?_, ?_, ?_⟩, hchild⟩
    · simp only [hd, Buffer.write_ok (show i + 1 < pathMax by omega), ok_bind, Nat.add_assoc]
      simp only [Nat.succ_eq_add_one, Nat.add_assoc] at hcopied
      rw [hcopied]
      rfl
    · exact fun hmem => hholds.nul (List.mem_of_mem_take hmem)
    · omega
    · intro j hj
      rw [htake] at hj
      rw [Buffer.set_bytes]
      rcases hj.eq_or_lt with heq | hlt'
      · rw [if_pos heq, heq, List.getD_eq_default _ _ htake.le]
      · rw [if_neg hlt'.ne, hbytes j hlt', List.getD_eq_getElem?_getD, List.getD_eq_getElem?_getD,
          List.getElem?_take_of_lt hlt']

/-- A longer path is read beyond `temp`, if its length is not too large for an `int`. -/
theorem getParentAndChildIn_long (h : 0 ∉ path) (hlen : 255 < path.length)
    (dirname childname : Buffer) (hname : temp.name = .temp) :
    getParentAndChildIn path temp dirname childname =
      if path.length < 2 ^ 31 then .error (.index .temp (path.length - 1)) else .error .length := by
  rw [getParentAndChildIn, strlen]
  split
  · obtain ⟨t, hcopy, hwrite⟩ := copyPath_eq h hname
    obtain ⟨n, hn⟩ : ∃ n, path.length = n + 1 := ⟨path.length - 1, by omega⟩
    have hread : (Buffer.filled .temp (path.take 254)).read n = .error (.index .temp n) :=
      dif_neg (by rw [pathMax]; omega)
    rw [ok_bind, hcopy, ok_bind, hwrite, ok_bind, hn, stripLoop, if_pos (by omega), hread]
    rfl
  · rfl

/-! ## Looking a path up -/

/-- The component up to the next slash goes into the buffer, if it fits there. -/
theorem componentLoop_eq (path : List Byte) (hi : i + (path.takeWhile (· ≠ 0x2f)).length ≤ pathMax)
    (b : Buffer) : ∃ b', componentLoop path i b =
        .ok (b', i + (path.takeWhile (· ≠ 0x2f)).length, path.dropWhile (· ≠ 0x2f)) ∧
      b'.name = b.name ∧ ∀ j : Fin pathMax, b'.bytes j =
        if i ≤ j ∧ j < i + (path.takeWhile (· ≠ 0x2f)).length then
          (path.takeWhile (· ≠ 0x2f)).getD (j - i) 0
        else b.bytes j := by
  induction path generalizing i b with
  | nil =>
    refine ⟨b, rfl, rfl, fun j => ?_⟩
    rw [List.takeWhile_nil, List.length_nil, if_neg (by omega)]
  | cons c path ih =>
    rw [componentLoop]
    by_cases hc : c = 0x2f
    · rw [if_pos hc, List.takeWhile_cons_of_neg (by simp [hc]),
        List.dropWhile_cons_of_neg (by simp [hc])]
      refine ⟨b, rfl, rfl, fun j => ?_⟩
      rw [List.length_nil, if_neg (by omega)]
    · rw [List.takeWhile_cons_of_pos (by simpa using hc), List.length_cons] at hi ⊢
      rw [if_neg hc, List.dropWhile_cons_of_pos (by simpa using hc), Buffer.write_ok (by omega),
        ok_bind]
      obtain ⟨b', heq, hname, hbytes⟩ := @ih (i + 1) (by omega) (b.set i c)
      refine ⟨b', ?_, hname, fun j => ?_⟩
      · rw [heq, Nat.add_right_comm, Nat.add_assoc]
      · rw [hbytes j, Buffer.set_bytes]
        rcases Nat.lt_trichotomy j.val i with hlt | heq | hgt
        · rw [if_neg (by omega), if_neg hlt.ne, if_neg (by omega)]
        · rw [if_neg (by omega), if_pos heq, if_pos (by omega), heq, Nat.sub_self,
            List.getD_cons_zero]
        · have hsub : j.val - i = j.val - (i + 1) + 1 := by omega
          rw [if_neg hgt.ne', hsub, List.getD_cons_succ]
          exact if_congr (by omega) rfl rfl

/-- A longer component is written behind the buffer. -/
theorem componentLoop_long (path : List Byte) (hi : i ≤ pathMax)
    (hlong : pathMax < i + (path.takeWhile (· ≠ 0x2f)).length) (b : Buffer) :
    componentLoop path i b = .error (.index b.name pathMax) := by
  induction path generalizing i b with
  | nil =>
    rw [List.takeWhile_nil, List.length_nil] at hlong
    omega
  | cons c path ih =>
    rw [componentLoop]
    by_cases hc : c = 0x2f
    · rw [List.takeWhile_cons_of_neg (by simp [hc]), List.length_nil] at hlong
      omega
    · rw [List.takeWhile_cons_of_pos (by simpa using hc), List.length_cons] at hlong
      rw [if_neg hc]
      rcases hi.eq_or_lt with rfl | hlt
      · rw [Buffer.write_error (lt_irrefl _)]
        rfl
      · rw [Buffer.write_ok hlt, ok_bind]
        exact ih hlt (by omega) (b.set i c)

/-- The first component of a path that does not begin with a slash. -/
theorem pathComponents_takeWhile (hne : path ≠ []) (hhead : path.head? ≠ some 0x2f) :
    path.takeWhile (· ≠ 0x2f) ≠ [] ∧ pathComponents path = path.takeWhile (· ≠ 0x2f) ::
      pathComponents ((path.dropWhile (· ≠ 0x2f)).dropWhile (· = 0x2f)) := by
  have hsplit := @List.takeWhile_append_dropWhile _ (fun x : Byte => decide (x ≠ 0x2f)) path
  have hslash := not_mem_takeWhile_sep path
  have hrest := List.head?_dropWhile_not (fun x : Byte => decide (x ≠ 0x2f)) path
  have hnil : path.takeWhile (· ≠ 0x2f) ≠ [] := by
    obtain ⟨x, l, rfl⟩ := List.exists_cons_of_ne_nil hne
    have hx : x ≠ 0x2f := by simpa using hhead
    rw [List.takeWhile_cons_of_pos (by simpa using hx)]
    exact List.cons_ne_nil _ _
  refine ⟨hnil, ?_⟩
  rw [pathComponents_dropWhile]
  generalize path.takeWhile (fun x => decide (x ≠ 0x2f)) = t at hsplit hslash hnil ⊢
  cases hd : path.dropWhile (fun x => decide (x ≠ 0x2f)) with
  | nil =>
    rw [hd, List.append_nil] at hsplit
    rw [← hsplit, pathComponents_single hslash hnil]
    rfl
  | cons x l =>
    rw [hd] at hrest hsplit
    have hx : x = 0x2f := by simpa using hrest
    rw [hx] at hsplit ⊢
    rw [pathComponents_sep, ← hsplit, pathComponents_cons hslash hnil]

/-- What the lookup does with the first component. -/
def afterStep (n : ℕ) (rest : List Byte) (component : Buffer) :
    Option (Vfs × Option ℕ) → Except Fault (Vfs × Option ℕ)
  | none => .error (.index .component pathMax)
  | some (s, none) => .ok (s, none)
  | some (s, some w) => lookupLoop n s w rest component

variable {s : Vfs} {cur : Addr} {v : ℕ}

/-- A round of the lookup does with the first component what the model says. -/
theorem lookupLoop_succ (h : VfsInv s) (hv : v < s.vnodes.length) (hnul : 0 ∉ path)
    (hne : path ≠ []) (hhead : path.head? ≠ some 0x2f) (hname : b.name = .component) :
    ∃ b', b'.name = .component ∧ lookupLoop (n + 1) s v path b =
      afterStep n ((path.dropWhile (· ≠ 0x2f)).dropWhile (· = 0x2f)) b'
        (lookupStep s v (path.takeWhile (· ≠ 0x2f))) := by
  obtain ⟨r, rv, hcross, hr, -⟩ := cross_spec h hv
  have hpos := (pathComponents_takeWhile hne hhead).1
  rw [lookupLoop, if_neg hne, hcross, Fault.valid, ok_bind, hr, Fault.valid, ok_bind]
  rcases Nat.lt_or_ge pathMax (path.takeWhile (· ≠ 0x2f)).length with hlong | hshort
  · refine ⟨b, hname, ?_⟩
    rw [componentLoop_long path (Nat.zero_le _) (by omega), hname, lookupStep_long hlong.le]
    rfl
  obtain ⟨b', hloop, hname', hbytes⟩ := @componentLoop_eq 0 path (by omega) b
  rw [Nat.zero_add] at hloop hbytes
  rw [hloop, ok_bind]
  generalize hc : path.takeWhile (· ≠ 0x2f) = c at hpos hshort hbytes ⊢
  rcases hshort.eq_or_lt with heq | hlt
  · refine ⟨b', hname'.trans hname, ?_⟩
    dsimp only
    rw [Buffer.write_error (by omega), hname', hname, lookupStep_long heq.ge, heq]
    rfl
  have hcnul : 0 ∉ c := fun hmem => hnul ((List.takeWhile_sublist _).subset (hc ▸ hmem))
  have hholds : (b'.set c.length 0).Holds c := by
    refine ⟨hcnul, hlt, fun j hj => ?_⟩
    rw [Buffer.set_bytes]
    rcases hj.eq_or_lt with heq | hjlt
    · rw [if_pos heq, heq, List.getD_eq_default _ _ le_rfl]
    · rw [if_neg hjlt.ne, hbytes j, if_pos ⟨Nat.zero_le _, hjlt⟩]
      rfl
  dsimp only
  rw [Buffer.write_ok hlt, ok_bind, hholds.cstring, ok_bind]
  refine ⟨b'.set c.length 0, hname'.trans hname, ?_⟩
  have hstep : lookupStep s v c = if c = [0x2e] then some (s, some r)
      else if c = [0x2e, 0x2e] then some (s, some (rv.parent.getD r))
      else match vnodeLookup s rv.internal c with
        | (s, none) => some (s, none)
        | (s, some next) => some (fixParent s next r, some next) := by
    rw [lookupStep, hcross, Option.bind_eq_bind, Option.bind_some, hr, Option.bind_eq_bind,
      Option.bind_some, if_neg (show ¬ 255 ≤ c.length from Nat.not_le.2 hlt)]
    rfl
  rw [hstep]
  split
  · rfl
  · split
    · rfl
    · rw [if_pos (List.length_pos_iff.2 hpos)]
      split <;> rfl

/-- What a lookup at the level of the buffer does where the model has this result. -/
def checked : Option (Vfs × Option ℕ) → Except Fault (Vfs × Option ℕ)
  | none => .error (.index .component pathMax)
  | some r => .ok r

/-- The rounds of the lookup do what the model says. -/
theorem lookupLoop_eq (h : VfsInv s) (hv : v < s.vnodes.length) (hnul : 0 ∉ path)
    (hlen : path.length ≤ n) (hhead : path.head? ≠ some 0x2f) (hname : b.name = .component) :
    lookupLoop n s v path b = checked (walk s v (pathComponents path)) := by
  induction n generalizing s v path b with
  | zero =>
    rw [List.length_eq_zero_iff.1 (Nat.le_zero.1 hlen)]
    rfl
  | succ n ih =>
    by_cases hne : path = []
    · subst hne
      rfl
    obtain ⟨hpos, hcomp⟩ := pathComponents_takeWhile hne hhead
    obtain ⟨b', hname', heq⟩ := @lookupLoop_succ _ path n s v h hv hnul hne hhead hname
    rw [heq, hcomp, walk]
    cases hstep : lookupStep s v (path.takeWhile (· ≠ 0x2f)) with
    | none => rfl
    | some r =>
      obtain ⟨s₁, o⟩ := r
      cases o with
      | none => rfl
      | some w =>
        obtain ⟨-, hinv, -, hw⟩ := lookupStep_some h hv hstep
        have hsub : ((path.dropWhile (· ≠ 0x2f)).dropWhile (· = 0x2f)).Sublist path :=
          (List.dropWhile_sublist _).trans (List.dropWhile_sublist _)
        have hshort : (path.dropWhile (· ≠ 0x2f)).length < path.length := by
          have hsplit := congrArg List.length
            (@List.takeWhile_append_dropWhile _ (fun x : Byte => decide (x ≠ 0x2f)) path)
          have := List.length_pos_iff.2 hpos
          rw [List.length_append] at hsplit
          omega
        have hle := (List.dropWhile_sublist (fun x : Byte => decide (x = 0x2f))
          (l := path.dropWhile (· ≠ 0x2f))).length_le
        have hhead' := List.head?_dropWhile_not (fun x : Byte => decide (x = 0x2f))
          (path.dropWhile (· ≠ 0x2f))
        apply ih hinv (hw w rfl) (fun hmem => hnul (hsub.subset hmem)) (by omega) _ hname'
        intro hslash
        rw [hslash] at hhead'
        simp at hhead'

/-- **Lookups.** A lookup at the level of its buffer has the result of the model; where that has
none, it writes to the byte behind the buffer. -/
theorem vfsLookupIn_eq (h : VfsInv s) (cur : Addr) (hnul : 0 ∉ path) (hname : b.name = .component) :
    vfsLookupIn s cur path b = checked (vfsLookup s cur path) := by
  have hsub := List.dropWhile_sublist (fun x : Byte => decide (x = 0x2f)) (l := path)
  have hhead := List.head?_dropWhile_not (fun x : Byte => decide (x = 0x2f)) path
  have hloop := lookupLoop_eq h (h.startOf_lt cur path) (fun hmem => hnul (hsub.subset hmem))
    hsub.length_le (fun hslash => by rw [hslash] at hhead; simp at hhead) hname
  rw [pathComponents_dropWhile] at hloop
  rw [vfsLookupIn, hloop, vfsLookup, components_eq]
  cases hwalk : walk s (startOf s cur path) (pathComponents path) with
  | none => rfl
  | some r =>
    obtain ⟨s₁, o⟩ := r
    cases o with
    | none => rfl
    | some w =>
      obtain ⟨hinv, -, hw⟩ := walk_some h (h.startOf_lt cur path) hwalk
      obtain ⟨r, rv, hcross, -⟩ := cross_spec hinv (hw w rfl)
      simp only [checked, ok_bind, hcross, Fault.valid, Option.bind_eq_bind, Option.bind_some]
      rfl

end BareMetalOS.Files
