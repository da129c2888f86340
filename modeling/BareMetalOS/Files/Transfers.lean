import BareMetalOS.Files.Tmpfs

/-!
# The bytes that a read or a write touches

`tmpfs_read`, `tmpfs_write` and `ramfs_read` cut a request at the end of the file: `f_pos + len` is
compared with the bound, in 64 bits. `sys_read` and `sys_write` pass the length of the user on, so
the sum may wrap, and then nothing is cut. In every state that calls on the tmpfs lead to, a
position is at most the size of its file (`TmpfsOk`), and a call touches the right bytes exactly
when the sum does not wrap (`transfers_iff`); for a write the buffer also has to be there.
-/

namespace BareMetalOS.Files

open Memory (Addr)
open Boot (Byte)

/-! ## `ramfs_read` -/

/-- `ramfs_read`: the handle, the value returned and the bytes copied to `buf`. -/
def ramfsRead (mem : Bytes) (inode : RamfsInode) (file : File) (len : BitVec 64) :
    File × ℤ × List Byte :=
  if inode.type ≠ .fsFile then (file, -1, [])
  else if inode.size ≤ file.fPos then (file, 0, [])
  else
    let len := if inode.size < file.fPos + len then inode.size - file.fPos else len
    ({ file with fPos := file.fPos + len }, retInt len,
      (List.range len.toNat).map fun i => mem (inode.data + file.fPos + BitVec.ofNat 64 i))

/-! ## What a call is to touch -/

/-- The bytes are those at the offsets from `pos` on, all of them below `bound`, and as many as
asked for or left. -/
structure CopiesInside {β : Type*} (src : ℕ → Option β) (bytes : List β) (pos bound len : ℕ) :
    Prop where
  length : bytes.length = min len (bound - pos)
  offsets : ∀ i < bytes.length, pos + i < bound ∧ bytes[i]? = src (pos + i)

/-- `tmpfs_read` copies bytes of the file from the position on. -/
def ReadsInside (inode : TmpfsVnode) (file : File) (len : BitVec 64) : Prop :=
  ∃ file' ret bytes, tmpfsRead inode file len = some (file', ret, bytes) ∧
    CopiesInside (inode.buffer[·]?) bytes file.fPos.toNat inode.size.toNat len.toNat

/-- `ramfs_read` copies bytes of the file from the position on. -/
def RamfsReadsInside (mem : Bytes) (inode : RamfsInode) (file : File) (len : BitVec 64) : Prop :=
  CopiesInside (fun i => some (mem (inode.data + BitVec.ofNat 64 i)))
    (ramfsRead mem inode file len).2.2 file.fPos.toNat inode.size.toNat len.toNat

/-- `tmpfs_write` stores the bytes of `buf` from the position on, at offsets of the buffer only, as
many as asked for or left, and leaves the rest of the buffer. -/
def WritesInside (inode : TmpfsVnode) (file : File) (buf : ℕ → Byte) (len : BitVec 64)
    (mem : Bool) : Prop :=
  ∃ inode' file' ret, tmpfsWrite inode file buf len mem = some (inode', file', ret) ∧
    file'.fPos.toNat = file.fPos.toNat + min len.toNat (tmpfsMaxFileSize - file.fPos.toNat) ∧
    ∀ j, inode'.buffer[j]? =
      if file.fPos.toNat ≤ j ∧ j < file'.fPos.toNat then some (some (buf (j - file.fPos.toNat)))
      else inode.buffer[j]?

/-! ## The states that calls lead to -/

/-- A call on the tmpfs; a write may find no memory for the buffer. -/
inductive TmpfsStep : TmpfsFiles → TmpfsFiles → Prop
  | exec {s s' : TmpfsFiles} {op : TmpfsOp} {ret : ℤ} {out : List (Option Byte)} :
      s.exec op = some (s', ret, out) → TmpfsStep s s'
  | writeFull {s : TmpfsFiles} {f : Addr} {file file' : File} {inode inode' : TmpfsVnode}
      {buf : ℕ → Byte} {len : BitVec 64} {ret : ℤ} : s.file f = some file →
      s.inode file.vnode = some inode →
      tmpfsWrite inode file buf len false = some (inode', file', ret) →
      TmpfsStep s ⟨Function.update s.inode file.vnode (some inode'),
        Function.update s.file f (some file')⟩

/-- The states that calls lead to, none of which has left a buffer. -/
def TmpfsReachable (s : TmpfsFiles) : Prop := Relation.ReflTransGen TmpfsStep .empty s

/-- What holds of every vnode: the buffer has its full length, and there is one if the size is
positive. -/
structure NodeOk (inode : TmpfsVnode) : Prop where
  length : inode.buffer.length = tmpfsMaxFileSize
  size : inode.size.toNat ≤ tmpfsMaxFileSize
  null : inode.data = none → inode.size.toNat = 0

/-- What holds in every state: no position is beyond the size of its file. -/
structure TmpfsOk (s : TmpfsFiles) : Prop where
  node : ∀ v inode, s.inode v = some inode → NodeOk inode
  cursor : ∀ f file, s.file f = some file →
    ∃ inode, s.inode file.vnode = some inode ∧ file.fPos.toNat ≤ inode.size.toNat

variable {s s' : TmpfsFiles} {inode inode' : TmpfsVnode} {file file' : File} {len : BitVec 64}
  {buf : ℕ → Byte} {mem : Bool} {ret : ℤ} {f : Addr} {out : List (Option Byte)}

theorem tmpfsOk_empty : TmpfsOk .empty := ⟨fun _ _ h => (by cases h), fun _ _ h => (by cases h)⟩

/-! ## The cut -/

/-- When the sum wraps, the request is not cut. -/
theorem cut_of_wrap {fPos bound : BitVec 64} (hpos : fPos.toNat ≤ bound.toNat)
    (hlen : 2 ^ 64 ≤ fPos.toNat + len.toNat) :
    (if bound < fPos + len then bound - fPos else len) = len := by
  have h₁ := fPos.isLt
  have h₂ := len.isLt
  rw [if_neg]
  rw [BitVec.lt_def, BitVec.toNat_add]
  omega

theorem loadBytes_eq_some {data : Option (List (Option Byte))} {pos : BitVec 64}
    (h : loadBytes data pos len = some out) :
    (data = none ∧ len = 0 ∧ out = []) ∨
      ∃ d, data = some d ∧ pos.toNat + len.toNat ≤ d.length ∧
        out = (d.drop pos.toNat).take len.toNat := by
  unfold loadBytes at h
  rcases data with _ | d
  · simp only at h
    split_ifs at h with h0
    exact .inl ⟨rfl, h0, (Option.some.inj h).symm⟩
  · simp only at h
    split_ifs at h with hle
    exact .inr ⟨d, rfl, hle, (Option.some.inj h).symm⟩

theorem storeBytes_eq_some {data data' : Option (List (Option Byte))} {pos : BitVec 64}
    (h : storeBytes data pos buf len = some data') :
    (data = none ∧ len = 0 ∧ data' = none) ∨
      ∃ d, data = some d ∧ pos.toNat + len.toNat ≤ d.length ∧
        data' =
          some (overwrite d pos.toNat ((List.range len.toNat).map fun i => some (buf i))) := by
  unfold storeBytes at h
  rcases data with _ | d
  · simp only at h
    split_ifs at h with h0
    exact .inl ⟨rfl, h0, (Option.some.inj h).symm⟩
  · simp only at h
    split_ifs at h with hle
    exact .inr ⟨d, rfl, hle, (Option.some.inj h).symm⟩

theorem ensureData_eq (inode : TmpfsVnode) (mem : Bool) :
    inode.ensureData mem = if inode.data.isSome ∨ mem then some inode.buffer else none := by
  rw [TmpfsVnode.ensureData, TmpfsVnode.buffer]
  cases inode.data <;> cases mem <;> rfl

theorem getElem?_overwrite {α : Type*} {l b : List α} {p : ℕ} (h : p ≤ l.length) (j : ℕ) :
    (overwrite l p b)[j]? =
      if p ≤ j ∧ j < p + b.length then b[j - p]? else l[j]? := by
  have hlen : (l.take p).length = p := by
    rw [List.length_take]
    omega
  rw [overwrite, List.append_assoc, List.getElem?_append, hlen]
  split_ifs with h₁ h₂ h₂
  · omega
  · rw [List.getElem?_take, if_pos h₁]
  · rw [List.getElem?_append, if_pos (by omega)]
  · rw [List.getElem?_append, if_neg (by omega), List.getElem?_drop]
    congr 1
    omega

/-! ## Writes -/

/-- The length of a write after the cut. -/
def cutWrite (file : File) (len : BitVec 64) : BitVec 64 :=
  if BitVec.ofNat 64 tmpfsMaxFileSize < file.fPos + len
  then BitVec.ofNat 64 tmpfsMaxFileSize - file.fPos else len

theorem toNat_tmpfsMaxFileSize : (BitVec.ofNat 64 tmpfsMaxFileSize).toNat = tmpfsMaxFileSize := rfl

/-- The writes that succeed: on a file, the bytes fit in the buffer, or there is no buffer and
nothing to write. -/
theorem tmpfsWrite_eq_some (ht : inode.type = .fsFile)
    (h : tmpfsWrite inode file buf len mem = some (inode', file', ret)) :
    ∃ data, storeBytes (inode.ensureData mem) file.fPos buf (cutWrite file len) = some data ∧
      inode' = { inode with
        data := data
        size := if inode.size < file.fPos + cutWrite file len then file.fPos + cutWrite file len
          else inode.size } ∧
      file' = { file with fPos := file.fPos + cutWrite file len } := by
  rw [tmpfsWrite, if_neg (by simp [ht])] at h
  obtain ⟨data, hdata, h⟩ := Option.bind_eq_some_iff.1 h
  simp only [Option.pure_def, Option.some.injEq, Prod.mk.injEq] at h
  exact ⟨data, hdata, h.1.symm, h.2.1.symm⟩

theorem tmpfsWrite_of_store {data : Option (List (Option Byte))} (ht : inode.type = .fsFile)
    (h : storeBytes (inode.ensureData mem) file.fPos buf (cutWrite file len) = some data) :
    tmpfsWrite inode file buf len mem = some
      ({ inode with
        data := data
        size := if inode.size < file.fPos + cutWrite file len then file.fPos + cutWrite file len
          else inode.size },
      { file with fPos := file.fPos + cutWrite file len }, retInt (cutWrite file len)) := by
  rw [tmpfsWrite, if_neg (by simp [ht])]
  exact congrArg (Option.bind · _) h

/-- A write that succeeds keeps the invariant of the file and of the position. -/
theorem NodeOk.write (hn : NodeOk inode) (hpos : file.fPos.toNat ≤ inode.size.toNat)
    (h : tmpfsWrite inode file buf len mem = some (inode', file', ret)) :
    NodeOk inode' ∧ file'.vnode = file.vnode ∧ file'.fPos.toNat ≤ inode'.size.toNat ∧
      inode.size.toNat ≤ inode'.size.toNat := by
  by_cases ht : inode.type = .fsFile
  · obtain ⟨data, hstore, rfl, rfl⟩ := tmpfsWrite_eq_some ht h
    rw [ensureData_eq] at hstore
    have hle := hn.size
    rcases storeBytes_eq_some hstore with ⟨hd, hlen, rfl⟩ | ⟨d, hd, hfit, rfl⟩
    · -- no buffer: nothing was written, and the file is as it was
      have hnone : inode.data = none := by
        split_ifs at hd with hor
        exact Option.isNone_iff_eq_none.1 (by simpa using fun hsome => hor (.inl hsome))
      rw [hlen, show file.fPos + 0 = file.fPos from BitVec.add_zero _,
        if_neg (by rw [BitVec.lt_def]; omega)]
      have hsame : { inode with data := none } = inode := by rw [← hnone]
      rw [hsame]
      exact ⟨hn, rfl, hpos, le_rfl⟩
    · obtain rfl : inode.buffer = d := by
        split_ifs at hd with hor
        exact Option.some.inj hd
      rw [hn.length] at hfit
      have hsum : (file.fPos + cutWrite file len).toNat =
          file.fPos.toNat + (cutWrite file len).toNat := by
        rw [BitVec.toNat_add]
        unfold tmpfsMaxFileSize at hfit
        exact Nat.mod_eq_of_lt (by omega)
      refine ⟨⟨?_, ?_, fun hnone => by cases hnone⟩, rfl, ?_, ?_⟩
      · rw [TmpfsVnode.buffer, Option.getD_some, length_overwrite (by rw [hn.length]; omega),
          hn.length, List.length_map, List.length_range]
        omega
      · simp only
        split_ifs <;> omega
      · simp only
        split_ifs with hlt
        · exact le_rfl
        · rw [BitVec.lt_def] at hlt
          omega
      · simp only
        split_ifs with hlt
        · rw [BitVec.lt_def] at hlt
          omega
        · exact le_rfl
  · rw [tmpfsWrite, if_pos ht] at h
    cases h
    exact ⟨hn, rfl, hpos, le_rfl⟩

/-- **Writes.** A write touches the right bytes when the sum does not wrap and there is a buffer, or
nothing to write. -/
theorem writesInside_iff (hn : NodeOk inode) (hpos : file.fPos.toNat ≤ inode.size.toNat)
    (ht : inode.type = .fsFile) : WritesInside inode file buf len mem ↔
      file.fPos.toNat + len.toNat < 2 ^ 64 ∧ (inode.data.isSome ∨ mem ∨ len = 0) := by
  have hle := hn.size
  have hmax : file.fPos.toNat ≤ (BitVec.ofNat 64 tmpfsMaxFileSize).toNat := by
    rw [toNat_tmpfsMaxFileSize]
    omega
  constructor
  · rintro ⟨inode', file', ret, h, -, -⟩
    obtain ⟨data, hstore, -, -⟩ := tmpfsWrite_eq_some ht h
    have hfits : file.fPos.toNat + (cutWrite file len).toNat ≤ tmpfsMaxFileSize := by
      rcases storeBytes_eq_some hstore with ⟨-, hlen, -⟩ | ⟨d, hd, hfit, -⟩
      · rw [hlen]
        exact le_trans hpos hle
      · rw [ensureData_eq] at hd
        split_ifs at hd with hor
        rwa [← hn.length, Option.some.inj hd]
    have hwrap : file.fPos.toNat + len.toNat < 2 ^ 64 := by
      by_contra hge
      rw [cutWrite, cut_of_wrap hmax (by omega)] at hfits
      unfold tmpfsMaxFileSize at *
      omega
    refine ⟨hwrap, ?_⟩
    rcases storeBytes_eq_some hstore with ⟨hd, hlen, -⟩ | ⟨d, hd, -, -⟩
    · rw [ensureData_eq] at hd
      split_ifs at hd with hor
      have hnone : inode.data = none :=
        Option.isNone_iff_eq_none.1 (by simpa using fun hsome => hor (.inl hsome))
      have hcut : (cutWrite file len).toNat = 0 := by
        rw [hlen]
        rfl
      rw [cutWrite, cut_toNat len hmax hwrap, toNat_tmpfsMaxFileSize] at hcut
      have hzero := hn.null hnone
      have hlen0 : len.toNat = 0 := by
        unfold tmpfsMaxFileSize at hcut
        omega
      exact .inr (.inr (BitVec.eq_of_toNat_eq hlen0))
    · rw [ensureData_eq] at hd
      split_ifs at hd with hor
      rcases hor with hsome | hmem
      · exact .inl hsome
      · exact .inr (.inl hmem)
  · rintro ⟨hwrap, hbuf⟩
    have hcut : (cutWrite file len).toNat =
        min len.toNat (tmpfsMaxFileSize - file.fPos.toNat) := cut_toNat len hmax hwrap
    have hsum : (file.fPos + cutWrite file len).toNat =
        file.fPos.toNat + min len.toNat (tmpfsMaxFileSize - file.fPos.toNat) := by
      rw [BitVec.toNat_add, hcut]
      exact Nat.mod_eq_of_lt (by omega)
    by_cases hor : inode.data.isSome ∨ mem
    · have hstore : storeBytes (inode.ensureData mem) file.fPos buf (cutWrite file len) =
          some (some (overwrite inode.buffer file.fPos.toNat
            ((List.range (cutWrite file len).toNat).map fun i => some (buf i)))) := by
        rw [ensureData_eq, if_pos hor, storeBytes, if_pos (by rw [hn.length, hcut]; omega)]
      refine ⟨_, _, _, tmpfsWrite_of_store ht hstore, hsum, ?_⟩
      intro j
      rw [TmpfsVnode.buffer, Option.getD_some, getElem?_overwrite (by rw [hn.length]; omega),
        List.length_map, List.length_range, hsum, hcut]
      split_ifs with hj
      · rw [List.getElem?_map, List.getElem?_range (by omega), Option.map_some]
      · rfl
    · obtain rfl : len = 0 := by tauto
      have hzero : cutWrite file 0 = 0 := BitVec.eq_of_toNat_eq (by rw [hcut]; exact Nat.zero_min _)
      have hstore : storeBytes (inode.ensureData mem) file.fPos buf (cutWrite file 0) =
          some none := by
        rw [ensureData_eq, if_neg hor, hzero]
        rfl
      refine ⟨_, _, _, tmpfsWrite_of_store ht hstore, hsum, ?_⟩
      intro j
      have hnone : inode.data = none :=
        Option.isNone_iff_eq_none.1 (by simpa using fun hsome => hor (.inl hsome))
      have hempty : ¬ (file.fPos.toNat ≤ j ∧ j < (file.fPos + cutWrite file 0).toNat) := by
        rw [hsum, show (0 : BitVec 64).toNat = 0 from rfl, Nat.zero_min]
        omega
      simp only [TmpfsVnode.buffer, hnone]
      rw [if_neg hempty]

/-! ## Reads -/

/-- The cut of a read, on bytes that are there for the whole request: the right ones are copied
exactly when the sum does not wrap. -/
theorem copiesInside_cut_iff {β : Type*} {src : ℕ → Option β} {bytes : List β}
    {fPos size cut : BitVec 64} (hlt : fPos.toNat < size.toNat)
    (hcut : cut = if size < fPos + len then size - fPos else len)
    (hlen : bytes.length = cut.toNat) (hsrc : ∀ i < cut.toNat, bytes[i]? = src (fPos.toNat + i)) :
    CopiesInside src bytes fPos.toNat size.toNat len.toNat ↔
      fPos.toNat + len.toNat < 2 ^ 64 := by
  constructor
  · rintro ⟨h, -⟩
    by_contra hge
    rw [hlen, hcut, cut_of_wrap hlt.le (by omega)] at h
    have := size.isLt
    omega
  · intro hwrap
    have hmin : cut.toNat = min len.toNat (size.toNat - fPos.toNat) := by
      rw [hcut]
      exact cut_toNat len hlt.le hwrap
    refine ⟨hlen.trans hmin, ?_⟩
    intro i hi
    rw [hlen] at hi
    exact ⟨by omega, hsrc i hi⟩

theorem copiesInside_nil {β : Type*} {src : ℕ → Option β} {pos bound n : ℕ} (h : bound ≤ pos) :
    CopiesInside src [] pos bound n :=
  ⟨by rw [Nat.sub_eq_zero_of_le h, Nat.min_zero]; rfl, fun _ hi => absurd hi (Nat.not_lt_zero _)⟩

/-- **Reads of the ramfs.** -/
theorem ramfsReadsInside_iff (mem : Bytes) (inode : RamfsInode) (file : File) (len : BitVec 64)
    (ht : inode.type = .fsFile) : RamfsReadsInside mem inode file len ↔
      inode.size ≤ file.fPos ∨ file.fPos.toNat + len.toNat < 2 ^ 64 := by
  unfold RamfsReadsInside
  rw [ramfsRead, if_neg (by simp [ht])]
  by_cases hend : inode.size ≤ file.fPos
  · rw [if_pos hend]
    exact iff_of_true (copiesInside_nil (BitVec.le_def.1 hend)) (.inl hend)
  · rw [if_neg hend, or_iff_right hend]
    apply copiesInside_cut_iff (by rw [BitVec.le_def] at hend; omega) rfl
    · rw [List.length_map, List.length_range]
    · intro i hi
      rw [List.getElem?_map, List.getElem?_range hi, Option.map_some, BitVec.add_assoc,
        ofNat_eq_add rfl (BitVec.toNat_ofNat i 64), BitVec.ofNat_add, BitVec.ofNat_add]
      congr 4
      apply BitVec.eq_of_toNat_eq
      rw [BitVec.toNat_ofNat, BitVec.toNat_ofNat, Nat.mod_mod]

/-- **Reads of the tmpfs.** -/
theorem readsInside_iff (hn : NodeOk inode) (ht : inode.type = .fsFile) :
    ReadsInside inode file len ↔
      inode.size ≤ file.fPos ∨ file.fPos.toNat + len.toNat < 2 ^ 64 := by
  have hle := hn.size
  unfold ReadsInside
  rw [tmpfsRead, if_neg (by simp [ht])]
  by_cases hend : inode.size ≤ file.fPos
  · rw [if_pos hend]
    exact iff_of_true ⟨_, _, _, rfl, copiesInside_nil (BitVec.le_def.1 hend)⟩ (.inl hend)
  · rw [if_neg hend, or_iff_right hend]
    rw [BitVec.le_def, not_le] at hend
    obtain ⟨d, hd⟩ : ∃ d, inode.data = some d := by
      rw [← Option.ne_none_iff_exists']
      intro hnone
      have := hn.null hnone
      omega
    have hbuf : inode.buffer = d := by rw [TmpfsVnode.buffer, hd, Option.getD_some]
    have hdlen : d.length = tmpfsMaxFileSize := by rw [← hbuf, hn.length]
    generalize hcut : (if inode.size < file.fPos + len then inode.size - file.fPos else len) = cut
    by_cases hfit : file.fPos.toNat + cut.toNat ≤ d.length
    · have hload : loadBytes inode.data file.fPos cut =
          some ((d.drop file.fPos.toNat).take cut.toNat) := by
        rw [hd, loadBytes, if_pos hfit]
      simp only [hload, Option.bind_eq_bind, Option.bind_some, Option.pure_def, Option.some.injEq,
        Prod.mk.injEq, exists_eq_left', ↓existsAndEq, and_true]
      apply copiesInside_cut_iff hend hcut.symm
      · rw [List.length_take, List.length_drop]
        omega
      · intro i hi
        rw [List.getElem?_take, if_pos hi, List.getElem?_drop, hbuf]
    · have hload : loadBytes inode.data file.fPos cut = none := by
        rw [hd, loadBytes, if_neg hfit]
      simp only [hload, Option.bind_eq_bind, Option.bind_none, reduceCtorEq, false_and,
        exists_false, false_iff, not_lt]
      by_contra hwrap
      have hmin := cut_toNat len hend.le (Nat.lt_of_not_le hwrap)
      rw [hcut] at hmin
      omega

/-! ## Runs -/

/-- A read that succeeds keeps the vnode of the handle and stays in the file. -/
theorem NodeOk.read (hn : NodeOk inode) (hpos : file.fPos.toNat ≤ inode.size.toNat)
    (h : tmpfsRead inode file len = some (file', ret, out)) :
    file'.vnode = file.vnode ∧ file'.fPos.toNat ≤ inode.size.toNat := by
  have hle := hn.size
  by_cases ht : inode.type = .fsFile
  · rw [tmpfsRead, if_neg (by simp [ht])] at h
    by_cases hend : inode.size ≤ file.fPos
    · rw [if_pos hend] at h
      cases h
      exact ⟨rfl, hpos⟩
    rw [if_neg hend] at h
    obtain ⟨bytes, hload, h⟩ := Option.bind_eq_some_iff.1 h
    simp only [Option.pure_def, Option.some.injEq, Prod.mk.injEq] at h
    obtain ⟨rfl, -, -⟩ := h
    refine ⟨rfl, ?_⟩
    have hfit : file.fPos.toNat +
        (if inode.size < file.fPos + len then inode.size - file.fPos else len).toNat ≤
          tmpfsMaxFileSize := by
      rcases loadBytes_eq_some hload with ⟨-, hzero, -⟩ | ⟨d, hd, hfit, -⟩
      · rw [hzero]
        exact le_trans hpos hle
      · rwa [← hn.length, TmpfsVnode.buffer, hd, Option.getD_some]
    have hwrap : file.fPos.toNat + len.toNat < 2 ^ 64 := by
      by_contra hge
      rw [cut_of_wrap hpos (by omega)] at hfit
      unfold tmpfsMaxFileSize at hfit
      omega
    rw [cut_toNat len hpos hwrap] at hfit
    simp only
    rw [BitVec.toNat_add, cut_toNat len hpos hwrap, Nat.mod_eq_of_lt (by omega)]
    omega
  · rw [tmpfsRead, if_pos ht] at h
    cases h
    exact ⟨rfl, hpos⟩

/-- A vnode may grow, and a handle may move in its file. -/
theorem TmpfsOk.update (h : TmpfsOk s) (hf : s.file f = some file)
    (hi : s.inode file.vnode = some inode) (hn : NodeOk inode') (hv : file'.vnode = file.vnode)
    (hpos : file'.fPos.toNat ≤ inode'.size.toNat) (hle : inode.size.toNat ≤ inode'.size.toNat) :
    TmpfsOk ⟨Function.update s.inode file.vnode (some inode'),
      Function.update s.file f (some file')⟩ := by
  constructor
  · intro v node hnode
    simp only at hnode
    by_cases hvv : v = file.vnode
    · subst hvv
      rw [Function.update_self] at hnode
      cases hnode
      exact hn
    · rw [Function.update_of_ne hvv] at hnode
      exact h.node v node hnode
  · intro g gfile hg
    simp only at hg
    by_cases hgf : g = f
    · subst hgf
      rw [Function.update_self] at hg
      cases hg
      exact ⟨inode', by rw [hv]; exact Function.update_self .., hpos⟩
    · rw [Function.update_of_ne hgf] at hg
      obtain ⟨node, hnode, hp⟩ := h.cursor g gfile hg
      by_cases hvv : gfile.vnode = file.vnode
      · rw [hvv, hi] at hnode
        cases hnode
        exact ⟨inode', by rw [hvv]; exact Function.update_self .., hp.trans hle⟩
      · exact ⟨node, by rw [← hnode]; exact Function.update_of_ne hvv .., hp⟩

theorem nodeOk_create (type : FsnodeType) (name : List Byte) :
    NodeOk (tmpfsCreateVnode type name) :=
  ⟨List.length_replicate, Nat.zero_le _, fun _ => rfl⟩

theorem TmpfsOk.create {v : Addr} (h : TmpfsOk s) (hv : s.inode v = none) (hn : NodeOk inode) :
    TmpfsOk { s with inode := Function.update s.inode v (some inode) } := by
  constructor
  · intro w node hnode
    simp only at hnode
    by_cases hw : w = v
    · subst hw
      rw [Function.update_self] at hnode
      cases hnode
      exact hn
    · rw [Function.update_of_ne hw] at hnode
      exact h.node w node hnode
  · intro g gfile hg
    obtain ⟨node, hnode, hp⟩ := h.cursor g gfile hg
    have hne : gfile.vnode ≠ v := by
      rintro heq
      rw [heq, hv] at hnode
      cases hnode
    exact ⟨node, by rw [← hnode]; exact Function.update_of_ne hne .., hp⟩

theorem TmpfsOk.openFile {v m : Addr} (h : TmpfsOk s) (hv : s.inode v = some inode)
    (hfile : file.vnode = v) (hpos : file.fPos.toNat = 0) :
    TmpfsOk { s with file := Function.update s.file m (some file) } := by
  constructor
  · exact h.node
  · intro g gfile hg
    simp only at hg
    by_cases hgm : g = m
    · subst hgm
      rw [Function.update_self] at hg
      cases hg
      exact ⟨inode, by rw [hfile]; exact hv, by omega⟩
    · rw [Function.update_of_ne hgm] at hg
      exact h.cursor g gfile hg

/-- **A call keeps the invariant.** -/
theorem TmpfsOk.step (h : TmpfsOk s) (hstep : TmpfsStep s s') : TmpfsOk s' := by
  cases hstep with
  | @writeFull f file file' inode inode' buf len ret hf hi hw =>
    obtain ⟨node, hnode, hpos⟩ := h.cursor f file hf
    rw [hi] at hnode
    cases hnode
    obtain ⟨hn, hv, hp, hle⟩ := (h.node _ _ hi).write hpos hw
    exact h.update hf hi hn hv hp hle
  | @exec _ op ret out he =>
    cases op with
    | create v type name =>
      rw [TmpfsFiles.exec] at he
      split_ifs at he with hsome
      cases he
      exact h.create (by simpa using hsome) (nodeOk_create type name)
    | «open» v flags m =>
      simp only [TmpfsFiles.exec, Option.bind_eq_bind, Option.bind_eq_some_iff] at he
      obtain ⟨node, hnode, he⟩ := he
      split_ifs at he with hm
      · cases he
      · obtain ⟨⟨files, _⟩, hopen, he⟩ := Option.bind_eq_some_iff.1 he
        simp only [vfsOpen] at hopen
        split_ifs at hopen with hz
        cases hopen
        cases he
        exact h.openFile hnode rfl rfl
    | read f len =>
      simp only [TmpfsFiles.exec, Option.bind_eq_bind, Option.bind_eq_some_iff] at he
      obtain ⟨file, hf, inode, hi, ⟨file', r, bytes⟩, hr, he⟩ := he
      cases he
      obtain ⟨node, hnode, hpos⟩ := h.cursor f file hf
      rw [hi] at hnode
      cases hnode
      obtain ⟨hv, hp⟩ := (h.node _ _ hi).read hpos hr
      have := h.update hf hi (h.node _ _ hi) hv hp le_rfl
      rwa [Function.update_eq_self_iff.2 hi.symm] at this
    | write f buf len =>
      simp only [TmpfsFiles.exec, Option.bind_eq_bind, Option.bind_eq_some_iff] at he
      obtain ⟨file, hf, inode, hi, ⟨inode', file', r⟩, hw, he⟩ := he
      cases he
      obtain ⟨node, hnode, hpos⟩ := h.cursor f file hf
      rw [hi] at hnode
      cases hnode
      obtain ⟨hn, hv, hp, hle⟩ := (h.node _ _ hi).write hpos hw
      exact h.update hf hi hn hv hp hle

theorem TmpfsReachable.ok (h : TmpfsReachable s) : TmpfsOk s := by
  induction h with
  | refl => exact tmpfsOk_empty
  | tail _ hstep ih => exact ih.step hstep

/-- A file of the tmpfs with a handle at its start. -/
def freshFile : TmpfsFiles where
  inode := Function.update (fun _ => none) 1 (some (tmpfsCreateVnode .fsFile []))
  file := Function.update (fun _ => none) 2 (some ⟨1, 0, 0, 1⟩)

theorem freshFile_reachable : TmpfsReachable freshFile :=
  .tail (.single (@TmpfsStep.exec _ _ (.create 1 .fsFile []) _ _ rfl))
    (@TmpfsStep.exec _ _ (.open 1 0 2) _ _ rfl)

/-- **Reads and writes touch the right bytes exactly when the sum does not wrap**, at every position
that calls lead to and for every length; a read at the end of the file copies nothing, and a write
needs the buffer. -/
theorem transfers_iff (hs : TmpfsReachable s) (hf : s.file f = some file)
    (hi : s.inode file.vnode = some inode) (ht : inode.type = .fsFile) (len : BitVec 64)
    (buf : ℕ → Byte) (mem : Bool) :
    (ReadsInside inode file len ↔
      inode.size ≤ file.fPos ∨ file.fPos.toNat + len.toNat < 2 ^ 64) ∧
    (WritesInside inode file buf len mem ↔
      file.fPos.toNat + len.toNat < 2 ^ 64 ∧ (inode.data.isSome ∨ mem ∨ len = 0)) ∧
    ∀ (bytes : Bytes) (node : RamfsInode) (handle : File), node.type = .fsFile →
      (RamfsReadsInside bytes node handle len ↔
        node.size ≤ handle.fPos ∨ handle.fPos.toNat + len.toNat < 2 ^ 64) := by
  have hn := hs.ok.node _ _ hi
  obtain ⟨node, hnode, hpos⟩ := hs.ok.cursor f file hf
  rw [hi] at hnode
  cases hnode
  refine ⟨readsInside_iff hn ht, writesInside_iff hn hpos ht, ?_⟩
  intro bytes node handle hnode
  exact ramfsReadsInside_iff bytes node handle len hnode

/-- A write of three bytes to a new file. -/
theorem transfers_iff_freshFile :
    WritesInside (tmpfsCreateVnode .fsFile []) ⟨1, 0, 0, 1⟩ (fun _ => 7) 3 true := by
  have hfile : freshFile.file 2 = some ⟨1, 0, 0, 1⟩ := by
    simp only [freshFile, Function.update_self]
  have hinode : freshFile.inode 1 = some (tmpfsCreateVnode .fsFile []) := by
    simp only [freshFile, Function.update_self]
  have h := transfers_iff freshFile_reachable hfile hinode rfl 3 (fun _ => 7) true
  exact h.2.1.2 ⟨by decide, .inr (.inl rfl)⟩

/-- After a write of one byte, a write of `2 ^ 64 - 1` bytes is not cut. -/
theorem transfers_wrap : ∃ s f file inode, TmpfsReachable s ∧ s.file f = some file ∧
    s.inode file.vnode = some inode ∧ inode.type = .fsFile ∧
    ¬ WritesInside inode file (fun _ => 7) 0xffffffffffffffff true := by
  obtain ⟨inode, file, ret, hw, hpos, -⟩ :
      WritesInside (tmpfsCreateVnode .fsFile []) ⟨1, 0, 0, 1⟩ (fun _ => 7) 1 true :=
    (writesInside_iff (nodeOk_create .fsFile []) le_rfl rfl).2 ⟨by decide, .inr (.inl rfl)⟩
  have hstep : TmpfsStep freshFile ⟨Function.update freshFile.inode 1 (some inode),
      Function.update freshFile.file 2 (some file)⟩ := by
    apply @TmpfsStep.exec _ _ (.write 2 (fun _ => 7) 1) ret []
    simp only [TmpfsFiles.exec, freshFile, Function.update_self, Option.bind_eq_bind,
      Option.bind_some, hw]
    rfl
  have hs : TmpfsReachable _ := freshFile_reachable.tail hstep
  have ht : inode.type = .fsFile := by
    obtain ⟨data, -, rfl, -⟩ := tmpfsWrite_eq_some rfl hw
    rfl
  obtain ⟨hn, hv, hle, -⟩ := (nodeOk_create .fsFile []).write (by exact le_rfl) hw
  refine ⟨_, 2, file, inode, hs, by simp only [Function.update_self], ?_, ht, ?_⟩
  · simp only
    rw [hv]
    exact Function.update_self ..
  · rw [writesInside_iff hn hle ht, hpos]
    rintro ⟨h, -⟩
    exact absurd h (by decide)

end BareMetalOS.Files
