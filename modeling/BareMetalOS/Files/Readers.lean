import BareMetalOS.Files.Archive
import BareMetalOS.Files.Ramfs

/-!
# Where the readers of the initial ramdisk agree

Both loops are followed through an archive, entry by entry: the search finds the first entry of a
name (`initrdGetFileLoop_find`), the mount adds every entry to the tree (`setupMountLoop_eq`). The
readers agree on a file when the search has met no lower-case digit in a size and the file's entry
is the first one at its path (`readersAgree_of_sizesPlain`). A file of ten bytes whose size is
written `0000000a` has 42 bytes for `initrd_get_file` (`not_readersAgree_lower`).
-/

namespace BareMetalOS.Files

open Memory Boot

/-! ## Tokens are components -/

theorem pathComponents_sep (s : List Byte) : pathComponents (0x2f :: s) = pathComponents s := by
  rw [pathComponents, List.splitOn_cons_eq_if_modifyHead, if_pos (by simp)]
  rfl

theorem pathComponents_dropWhile (s : List Byte) :
    pathComponents (s.dropWhile (· = 0x2f)) = pathComponents s := by
  induction s with
  | nil => rfl
  | cons x s ih =>
    by_cases hx : x = 0x2f
    · rw [List.dropWhile_cons_of_pos (by simpa using hx), ih, hx, pathComponents_sep]
    · rw [List.dropWhile_cons_of_neg (by simpa using hx)]

theorem pathComponents_single {t : List Byte} (ht : 0x2f ∉ t) (hne : t ≠ []) :
    pathComponents t = [t] := by
  rw [pathComponents, List.splitOn_eq_singleton ht]
  simp [hne]

theorem pathComponents_cons {t : List Byte} (ht : 0x2f ∉ t) (hne : t ≠ []) (s : List Byte) :
    pathComponents (t ++ 0x2f :: s) = t :: pathComponents s := by
  rw [pathComponents, List.splitOn_append_cons_self_of_not_mem ht, List.filter_cons_of_pos]
  · rfl
  · simpa using hne

theorem not_mem_takeWhile_sep (s : List Byte) : 0x2f ∉ s.takeWhile (· ≠ 0x2f) := by
  intro h
  simpa using List.all_eq_true.1 List.all_takeWhile _ h

theorem strtokLoop_none (n : ℕ) : strtokLoop n none = [] := by
  cases n <;> rfl

theorem strtokLoop_eq (n : ℕ) (s : List Byte) (h : s.length ≤ n) :
    strtokLoop n (some s) = pathComponents s := by
  induction n generalizing s with
  | zero =>
    rw [List.length_eq_zero_iff.1 (Nat.le_zero.1 h)]
    rfl
  | succ n ih =>
    rw [strtokLoop, strtokR, Option.getD_some, ← pathComponents_dropWhile s]
    have hlen : (s.dropWhile (· = 0x2f)).length ≤ n + 1 :=
      (List.dropWhile_sublist _).length_le.trans h
    have hhead := List.head?_dropWhile_not (fun x : Byte => decide (x = 0x2f)) s
    generalize s.dropWhile (· = 0x2f) = r at hlen hhead ⊢
    cases r with
    | nil => rfl
    | cons x r =>
      have hx : x ≠ 0x2f := by simpa using hhead
      have hsplit := @List.takeWhile_append_dropWhile _ (fun y : Byte => decide (y ≠ 0x2f)) (x :: r)
      have hne : (x :: r).takeWhile (· ≠ 0x2f) ≠ [] := by
        rw [List.takeWhile_cons_of_pos (by simpa using hx)]
        simp
      have hmem := not_mem_takeWhile_sep (x :: r)
      have hrest := List.head?_dropWhile_not (fun y : Byte => decide (y ≠ 0x2f)) (x :: r)
      simp only [List.cons_ne_nil, if_false]
      generalize (x :: r).takeWhile (fun y => decide (y ≠ 0x2f)) = t at hsplit hne hmem ⊢
      cases hd : (x :: r).dropWhile (fun y => decide (y ≠ 0x2f)) with
      | nil =>
        rw [hd, List.append_nil] at hsplit
        rw [← hsplit, pathComponents_single hmem hne]
        exact congrArg (t :: ·) (strtokLoop_none n)
      | cons y rest =>
        rw [hd] at hrest
        have hy : y = 0x2f := by simpa using hrest
        rw [hd, hy] at hsplit
        have hpos := List.length_pos_iff.2 hne
        have hle : rest.length ≤ n := by
          have := congrArg List.length hsplit
          rw [List.length_append, List.length_cons] at this
          omega
        rw [← hsplit, pathComponents_cons hmem hne]
        exact congrArg (t :: ·) (ih rest hle)

/-- **`strtok_r` splits a path into its components.** -/
theorem strtok_eq (s : List Byte) : strtok s = pathComponents s := strtokLoop_eq _ s le_rfl

/-! ## Entries and their places -/

/-- The entries of an archive with their offsets. -/
def locate : ℕ → List CpioEntry → List (ℕ × CpioEntry)
  | _, [] => []
  | off, e :: es => (off, e) :: locate (off + e.bytes.length) es

theorem map_snd_locate (off : ℕ) (es : List CpioEntry) : (locate off es).map Prod.snd = es := by
  induction es generalizing off with
  | nil => rfl
  | cons e es ih => rw [locate, List.map_cons, ih]

theorem le_fst_of_mem_locate {off : ℕ} {es : List CpioEntry} {x : ℕ × CpioEntry}
    (h : x ∈ locate off es) : off ≤ x.1 ∧
      x.1 + x.2.bytes.length ≤ off + (es.flatMap CpioEntry.bytes).length := by
  induction es generalizing off with
  | nil => cases h
  | cons e es ih =>
    rw [locate, List.mem_cons] at h
    rw [List.flatMap_cons, List.length_append]
    rcases h with rfl | h
    · exact ⟨le_rfl, by simp only; omega⟩
    · have := ih h
      omega

/-- An entry ends before the next one starts. -/
theorem pairwise_locate (off : ℕ) (es : List CpioEntry) :
    (locate off es).Pairwise fun x y => x.1 + x.2.bytes.length ≤ y.1 := by
  induction es generalizing off with
  | nil => exact .nil
  | cons e es ih => exact .cons (fun y hy => (le_fst_of_mem_locate hy).1) (ih _)

theorem find?_le_of_pairwise {α : Type*} {R : α → α → Prop} {l : List α} {f : α → Bool} {a b : α}
    (hl : l.Pairwise R) (ha : l.find? f = some a) (hb : b ∈ l) (hfb : f b) : a = b ∨ R a b := by
  induction l with
  | nil => cases hb
  | cons x l ih =>
    obtain ⟨hx, hl⟩ := List.pairwise_cons.1 hl
    by_cases hfx : f x
    · rw [List.find?_cons_of_pos hfx] at ha
      cases ha
      rcases List.mem_cons.1 hb with rfl | hb
      · exact .inl rfl
      · exact .inr (hx b hb)
    · rw [List.find?_cons_of_neg hfx] at ha
      rcases List.mem_cons.1 hb with rfl | hb
      · exact absurd hfb hfx
      · exact ih hl ha hb

/-! ## The search -/

variable {mem : Bytes} {rd p : Addr} {off n : ℕ} {e : CpioEntry} {es : List CpioEntry}
  {name : List Byte}

namespace CpioEntry

/-- What `lib/cpio.c` reads in a size field. -/
def cpioSize (e : CpioEntry) (f : CpioField) : BitVec 32 :=
  BitVec.ofNat 32 (hexValue (e.field f) + 32 * lowerMask (e.field f))

theorem cpio_hextoi_field (he : e.WellFormed) (hat : e.At mem p) (f : CpioField) :
    Cpio.hextoi mem (p + BitVec.ofNat 64 f.offset) 8 = e.cpioSize f :=
  cpio_hextoi (he.digits f) (he.length f) (hat.field f)

theorem ramfs_hextoi_field (he : e.WellFormed) (hat : e.At mem p) (f : CpioField) :
    Ramfs.hextoi mem (p + BitVec.ofNat 64 f.offset) 8 = BitVec.ofNat 32 (hexValue (e.field f)) :=
  ramfs_hextoi (he.digits f) (he.length f) (hat.field f)

/-- A field without lower-case letters is read right. -/
theorem cpioSize_of_noLower {f : CpioField} (h : NoLower (e.field f)) :
    e.cpioSize f = BitVec.ofNat 32 (hexValue (e.field f)) := by
  rw [cpioSize, lowerMask_eq_zero_iff.2 h]
  rfl

end CpioEntry

theorem initrdGetFileLoop_succ (he : e.WellFormed) (hat : e.At mem p)
    (ht : e.name ≠ cstr "TRAILER!!!") (hname : 0 ∉ name) :
    Cpio.initrdGetFileLoop mem name (n + 1) p =
      if e.name = name then
        some (some (Cpio.data p (e.cpioSize .namesize), e.cpioSize .filesize))
      else Cpio.initrdGetFileLoop mem name n
        (Cpio.next p (e.cpioSize .namesize) (e.cpioSize .filesize)) := by
  have htrailer : strcmpEq mem (p + BitVec.ofNat 64 sizeofCpio) (cstr "TRAILER!!!") = false := by
    rw [← Bool.not_eq_true, strcmpEq_iff he.name (by decide) hat.name]
    exact ht
  rw [Cpio.initrdGetFileLoop, if_pos (strncmpEq_iff.2 hat.magic)]
  simp only [htrailer, Bool.false_eq_true, if_false, strcmpEq_iff he.name hname hat.name,
    CpioEntry.cpio_hextoi_field he hat]

theorem initrdGetFileLoop_mono {k : ℕ} {r : Option (Addr × BitVec 32)}
    (h : Cpio.initrdGetFileLoop mem name n p = some r) (hk : n ≤ k) :
    Cpio.initrdGetFileLoop mem name k p = some r := by
  induction n generalizing k p with
  | zero => cases h
  | succ n ih =>
    obtain ⟨k, rfl⟩ := Nat.exists_eq_add_of_le' (by omega : 1 ≤ k)
    rw [Cpio.initrdGetFileLoop] at h ⊢
    dsimp only at h ⊢
    split_ifs at h ⊢
    · exact h
    · exact h
    · exact ih h (by omega)
    · exact h

/-- The entries before the first one of a name. -/
def entriesBefore (name : List Byte) (es : List CpioEntry) : List CpioEntry :=
  es.takeWhile (·.name ≠ name)

/-- **The search finds the first entry of a name**, if the entries before it are read right. -/
theorem initrdGetFileLoop_find {x : ℕ × CpioEntry} (hname : 0 ∉ name)
    (hwf : ∀ e ∈ es, e.WellFormed ∧ e.name ≠ cstr "TRAILER!!!")
    (hbefore : ∀ e ∈ entriesBefore name es, e.Plain ∧ e.bytes.length < 2 ^ 31)
    (hmem : HoldsAt mem (rd + BitVec.ofNat 64 off) (es.flatMap CpioEntry.bytes))
    (hx : (locate off es).find? (·.2.name = name) = some x) :
    Cpio.initrdGetFileLoop mem name es.length (rd + BitVec.ofNat 64 off) =
      some (some (Cpio.data (rd + BitVec.ofNat 64 x.1) (x.2.cpioSize .namesize),
        x.2.cpioSize .filesize)) := by
  induction es generalizing off with
  | nil => cases hx
  | cons e es ih =>
    obtain ⟨he, ht⟩ := hwf e (by simp)
    rw [List.flatMap_cons, holdsAt_append, BitVec.add_assoc, ← BitVec.ofNat_add] at hmem
    have hat := CpioEntry.at_of_holdsAt he hmem.1
    rw [List.length_cons, initrdGetFileLoop_succ he hat ht hname]
    by_cases hn : e.name = name
    · rw [locate, List.find?_cons_of_pos (by simpa using hn)] at hx
      cases hx
      rw [if_pos hn]
    · rw [locate, List.find?_cons_of_neg (by simpa using hn)] at hx
      have htake : entriesBefore name (e :: es) = e :: entriesBefore name es :=
        List.takeWhile_cons_of_pos (by simpa using hn)
      rw [htake] at hbefore
      obtain ⟨hplain, hlen⟩ := hbefore e (by simp)
      rw [if_neg hn, CpioEntry.cpioSize_of_noLower hplain.1, CpioEntry.cpioSize_of_noLower hplain.2,
        he.namesize, he.filesize, CpioEntry.cpio_next he hlen, BitVec.add_assoc, ← BitVec.ofNat_add]
      exact ih (fun e he => hwf e (by simp [he])) (fun e he => hbefore e (by simp [he])) hmem.2 hx

/-! ## The tree -/

/-- What `src/ramfs.c` decodes of an entry. -/
def ramfsItem (rd : Addr) (x : ℕ × CpioEntry) : RamfsItem where
  path := x.2.path
  mode := BitVec.ofNat 32 x.2.mode
  data := rd + BitVec.ofNat 64 x.1 + BitVec.ofNat 64 x.2.header.length
  size := (BitVec.ofNat 32 x.2.data.length).signExtend 64

/-- What `src/ramfs.c` decodes of an archive. It skips the entry `.`. -/
def ramfsItems (rd : Addr) (off : ℕ) (es : List CpioEntry) : List RamfsItem :=
  ((locate off es).filter (·.2.name ≠ cstr ".")).map (ramfsItem rd)

/-- The loop of `ramfs_setup_mount` over the entries, by what it does with one of them. -/
def Ramfs.entriesLoop {σ : Type} (add : σ → RamfsItem → σ) (mem : Bytes) :
    ℕ → Addr → σ → Option σ
  | 0, _, _ => none
  | n + 1, ptr, s =>
    if strncmpEq mem ptr (cstr "070701") then
      let namesize := hextoi mem (ptr + BitVec.ofNat 64 CpioField.namesize.offset) 8
      let filesize := hextoi mem (ptr + BitVec.ofNat 64 CpioField.filesize.offset) 8
      let mode := hextoi mem (ptr + BitVec.ofNat 64 CpioField.mode.offset) 8
      let name := ptr + BitVec.ofNat 64 sizeofCpio
      if strcmpEq mem name (cstr "TRAILER!!!") then some s
      else if strcmpEq mem name (cstr ".") then
        entriesLoop add mem n (next ptr namesize filesize) s
      else
        let tokens := strtok (strncpy mem name 255)
        entriesLoop add mem n (next ptr namesize filesize)
          (add s ⟨tokens, mode, data ptr namesize, filesize.signExtend 64⟩)
    else some s

theorem setupMountLoop_eq_entriesLoop (mem : Bytes) (n : ℕ) (p : Addr) (root : RamfsInode) :
    Ramfs.setupMountLoop mem n p root = Ramfs.entriesLoop RamfsInode.add mem n p root := by
  induction n generalizing p root with
  | zero => rfl
  | succ n ih =>
    rw [Ramfs.setupMountLoop, Ramfs.entriesLoop]
    simp only [ih]
    rfl

section

variable {σ : Type} {add : σ → RamfsItem → σ} {s r : σ}

theorem entriesLoop_mono {k : ℕ} (h : Ramfs.entriesLoop add mem n p s = some r) (hk : n ≤ k) :
    Ramfs.entriesLoop add mem k p s = some r := by
  induction n generalizing k p s with
  | zero => cases h
  | succ n ih =>
    obtain ⟨k, rfl⟩ := Nat.exists_eq_add_of_le' (by omega : 1 ≤ k)
    rw [Ramfs.entriesLoop] at h ⊢
    dsimp only at h ⊢
    split_ifs at h ⊢
    · exact h
    · exact ih h (by omega)
    · exact ih h (by omega)
    · exact h

theorem entriesLoop_succ (he : e.WellFormed) (hat : e.At mem (rd + BitVec.ofNat 64 off))
    (ht : e.name ≠ cstr "TRAILER!!!") (hlen : e.bytes.length < 2 ^ 32) :
    Ramfs.entriesLoop add mem (n + 1) (rd + BitVec.ofNat 64 off) s =
      Ramfs.entriesLoop add mem n (rd + BitVec.ofNat 64 (off + e.bytes.length))
        (if e.name = cstr "." then s else add s (ramfsItem rd (off, e))) := by
  have htrailer : strcmpEq mem (rd + BitVec.ofNat 64 off + BitVec.ofNat 64 sizeofCpio)
      (cstr "TRAILER!!!") = false := by
    rw [← Bool.not_eq_true, strcmpEq_iff he.name (by decide) hat.name]
    exact ht
  rw [Ramfs.entriesLoop, if_pos (strncmpEq_iff.2 hat.magic), BitVec.ofNat_add,
    ← BitVec.add_assoc]
  simp only [htrailer, Bool.false_eq_true, if_false, CpioEntry.ramfs_hextoi_field he hat,
    he.namesize, he.filesize, CpioEntry.ramfs_next he hlen, CpioEntry.ramfs_data he hlen,
    strcmpEq_iff he.name (show 0 ∉ cstr "." by decide) hat.name, strncpy_eq he.name hat.name,
    strtok_eq]
  split_ifs
  · rfl
  · rfl

/-- **All entries of the archive are added in order.** -/
theorem entriesLoop_eq {trailer : CpioEntry}
    (hwf : ∀ e ∈ es, e.WellFormed ∧ e.name ≠ cstr "TRAILER!!!")
    (hlen : ∀ e ∈ es, e.bytes.length < 2 ^ 32) (hmem : HoldsAt mem (rd + BitVec.ofNat 64 off)
      (es.flatMap CpioEntry.bytes ++ trailer.bytes))
    (ht : trailer.WellFormed ∧ trailer.name = cstr "TRAILER!!!") :
    Ramfs.entriesLoop add mem (es.length + 1) (rd + BitVec.ofNat 64 off) s =
      some ((ramfsItems rd off es).foldl add s) := by
  induction es generalizing off s with
  | nil =>
    have hat := CpioEntry.at_of_holdsAt ht.1 hmem
    have htrailer : strcmpEq mem (rd + BitVec.ofNat 64 off + BitVec.ofNat 64 sizeofCpio)
        (cstr "TRAILER!!!") = true := (strcmpEq_iff ht.1.name (by decide) hat.name).2 ht.2
    rw [List.length_nil, Ramfs.entriesLoop, if_pos (strncmpEq_iff.2 hat.magic)]
    simp only [htrailer, if_true]
    rfl
  | cons e es ih =>
    obtain ⟨he, hne⟩ := hwf e (by simp)
    rw [List.flatMap_cons, List.append_assoc, holdsAt_append, BitVec.add_assoc,
      ← BitVec.ofNat_add] at hmem
    have hat := CpioEntry.at_of_holdsAt he hmem.1
    rw [List.length_cons, entriesLoop_succ he hat hne (hlen e (by simp)),
      ih (fun e he => hwf e (by simp [he])) (fun e he => hlen e (by simp [he])) hmem.2]
    rw [ramfsItems, ramfsItems, locate]
    by_cases hdot : e.name = cstr "."
    · rw [if_pos hdot, List.filter_cons_of_neg (by simpa using hdot)]
    · rw [if_neg hdot, List.filter_cons_of_pos (by simpa using hdot), List.map_cons,
        List.foldl_cons]

end

theorem setupMountLoop_mono {k : ℕ} {root r : RamfsInode}
    (h : Ramfs.setupMountLoop mem n p root = some r) (hk : n ≤ k) :
    Ramfs.setupMountLoop mem k p root = some r := by
  rw [setupMountLoop_eq_entriesLoop] at h ⊢
  exact entriesLoop_mono h hk

/-- The tree of the archive. -/
theorem setupMountLoop_eq {trailer : CpioEntry} {root : RamfsInode}
    (hwf : ∀ e ∈ es, e.WellFormed ∧ e.name ≠ cstr "TRAILER!!!")
    (hlen : ∀ e ∈ es, e.bytes.length < 2 ^ 32) (hmem : HoldsAt mem (rd + BitVec.ofNat 64 off)
      (es.flatMap CpioEntry.bytes ++ trailer.bytes))
    (ht : trailer.WellFormed ∧ trailer.name = cstr "TRAILER!!!") :
    Ramfs.setupMountLoop mem (es.length + 1) (rd + BitVec.ofNat 64 off) root =
      some ((ramfsItems rd off es).foldl RamfsInode.add root) := by
  rw [setupMountLoop_eq_entriesLoop]
  exact entriesLoop_eq hwf hlen hmem ht

/-! ## Agreement -/

namespace CpioArchive

/-- The archive lies in memory at `rd`, inside the 4 GiB that `setup_vm` maps. -/
structure InMemory (A : CpioArchive) (mem : Bytes) (rd : Addr) : Prop where
  holds : HoldsAt mem rd A.bytes
  start : pageOffset.toNat ≤ rd.toNat
  fits : rd.toNat + A.bytes.length ≤ pageOffset.toNat + 2 ^ 32

/-- The first entry at or below a path, apart from the entry `.`. -/
def firstBelow (A : CpioArchive) (p : List (List Byte)) : Option CpioEntry :=
  A.entries.find? fun e => e.name ≠ cstr "." ∧ p <+: e.path

/-- The sizes that the search for a name depends on are written without lower-case letters and fit
an `int`: those of the entries that it passes, and those of the entry it finds. -/
structure SizesPlain (A : CpioArchive) (name : List Byte) : Prop where
  before : ∀ e ∈ entriesBefore name A.entries, e.Plain ∧ e.bytes.length < 2 ^ 31
  found : ∀ e, A.entries.find? (·.name = name) = some e → e.Plain ∧ e.data.length < 2 ^ 31

/-- The first entry at or below the path of a name has this very name and is no directory, and no
leading part of the path came in first as a file. -/
structure NameFirst (A : CpioArchive) (name : List Byte) : Prop where
  ne : pathComponents name ≠ []
  first : ∃ e, A.firstBelow (pathComponents name) = some e ∧ e.name = name ∧ ¬ e.isDir
  above : ∀ p, p <+: pathComponents name → p ≠ [] → p ≠ pathComponents name →
    ∀ e, A.firstBelow p = some e → e.path = p → e.isDir

end CpioArchive

/-- The regular files in question: their names are shorter than 255 bytes and have no component `.`
or `..`. -/
structure CpioEntry.IsPlainFile (e : CpioEntry) : Prop where
  regular : e.IsRegular
  length : e.name.length < 255
  dot : cstr "." ∉ pathComponents e.name
  dotdot : cstr ".." ∉ pathComponents e.name

/-- `initrd_get_file` gives a data address and a size exactly when the walk along the components of
the name ends in a file node with this address and size. -/
def ReadersAgree (mem : Bytes) (start : Addr) (name : List Byte) : Prop :=
  ∀ (data : Addr) (size : ℤ),
    (∃ n sizeout, initrdGetFile mem (initrdAddr start) name n = some (some (data, sizeout)) ∧
      sizeout.toInt = size) ↔
    ∃ n root node, ramfsSetupMount mem start n = some (some root) ∧
      ramfsWalk root (pathComponents name) = some node ∧ node.type = .fsFile ∧ node.data = data ∧
      (node.size.toNat : ℤ) = size

variable {A : CpioArchive} {start : Addr} {data : Addr} {size : ℤ}

/-- What the search returns, with the loop's fuel taken away. -/
theorem exists_initrdGetFile_iff {r : Addr × BitVec 32} {m : ℕ}
    (h : initrdGetFile mem rd name m = some (some r)) :
    (∃ n sizeout, initrdGetFile mem rd name n = some (some (data, sizeout)) ∧
      sizeout.toInt = size) ↔ data = r.1 ∧ size = r.2.toInt := by
  constructor
  · rintro ⟨n, sizeout, hn, rfl⟩
    have h₁ := initrdGetFileLoop_mono h (le_max_left m n)
    have h₂ := initrdGetFileLoop_mono hn (le_max_right m n)
    rw [h₁, Option.some.injEq, Option.some.injEq] at h₂
    rw [h₂]
    exact ⟨rfl, rfl⟩
  · rintro ⟨rfl, rfl⟩
    exact ⟨m, r.2, h, rfl⟩

/-- What the walk finds, with the loop's fuel taken away. -/
theorem exists_ramfsWalk_iff {items : List RamfsItem} {m : ℕ} (h₀ : initrdAddr start ≠ 0)
    (h : Ramfs.setupMountLoop mem m (initrdAddr start) (ramfsCreateVnode .fsDir (cstr "/")) =
      some (items.foldl RamfsInode.add (ramfsCreateVnode .fsDir (cstr "/")))) :
    (∃ n root node, ramfsSetupMount mem start n = some (some root) ∧
      ramfsWalk root (pathComponents name) = some node ∧ node.type = .fsFile ∧ node.data = data ∧
      (node.size.toNat : ℤ) = size) ↔
      ∃ it, FileAt items (pathComponents name) it ∧ it.data = data ∧
        (it.size.toNat : ℤ) = size := by
  have hmount : ∀ n root, ramfsSetupMount mem start n = some (some root) ↔
      Ramfs.setupMountLoop mem n (initrdAddr start) (ramfsCreateVnode .fsDir (cstr "/")) =
        some root := by
    intro n root
    rw [ramfsSetupMount, if_neg h₀, Option.map_eq_some_iff]
    simp
  constructor
  · rintro ⟨n, root, node, hroot, hwalk, htype, hdata, hsize⟩
    have h₁ := setupMountLoop_mono h (le_max_left m n)
    have h₂ := setupMountLoop_mono ((hmount n root).1 hroot) (le_max_right m n)
    rw [h₁, Option.some.injEq] at h₂
    subst h₂
    obtain ⟨it, hit, hd, hs⟩ := (exists_walk_file_iff _ _ _ _ _).1
      ⟨node, hwalk, htype, rfl, rfl⟩
    exact ⟨it, hit, hd.trans hdata, hs ▸ hsize⟩
  · rintro ⟨it, hit, hdata, hsize⟩
    obtain ⟨node, hwalk, htype, hd, hs⟩ := (exists_walk_file_iff (cstr "/") _ _ _ _).2
      ⟨it, hit, rfl, rfl⟩
    exact ⟨m, _, node, (hmount m _).2 h, hwalk, htype, hd.trans hdata, hs ▸ hsize⟩

namespace CpioEntry

/-- The search puts the data of an entry 32 bytes too far for every unit of the mask. -/
theorem cpio_data (he : e.WellFormed) (hlen : e.name.length < 255) :
    Cpio.data (rd + BitVec.ofNat 64 off) (e.cpioSize .namesize) =
      rd + BitVec.ofNat 64 (off + e.header.length + 32 * lowerMask (e.field .namesize)) := by
  have hmask := ten_mul_lowerMask_le (he.digits .namesize)
  have hh := length_header he
  rw [he.namesize] at hmask
  have hnat : (Ramfs.alignUp (BitVec.ofNat 32 sizeofCpio + e.cpioSize .namesize) 4).toNat =
      e.header.length + 32 * lowerMask (e.field .namesize) := by
    rw [cpioSize, he.namesize, ← BitVec.ofNat_add,
      toNat_alignUp (by simp only [sizeofCpio]; omega), hh, roundUp]
    omega
  rw [Cpio.data, alignUpInt_eq, signExtend_eq, hnat, BitVec.add_assoc, ← BitVec.ofNat_add,
    Nat.add_assoc]
  rw [hnat, hh]
  simp only [sizeofCpio]
  omega

/-- The sizes are the same number exactly when the file is smaller than 2 GiB and its size is
written without lower-case letters. -/
theorem size_eq_iff (he : e.WellFormed) (hlen : e.data.length < 2 ^ 32) :
    (((BitVec.ofNat 32 e.data.length).signExtend 64).toNat : ℤ) = (e.cpioSize .filesize).toInt ↔
      NoLower (e.field .filesize) ∧ e.data.length < 2 ^ 31 := by
  have hF : (BitVec.ofNat 32 e.data.length).toNat = e.data.length := by
    rw [BitVec.toNat_ofNat, Nat.mod_eq_of_lt hlen]
  have hsize : (e.cpioSize .filesize).toNat =
      (e.data.length + 32 * lowerMask (e.field .filesize)) % 2 ^ 32 := by
    rw [cpioSize, he.filesize, BitVec.toNat_ofNat]
  by_cases hlt : e.data.length < 2 ^ 31
  · have hmask := lowerMask_lt (he.digits .filesize) (he.length .filesize)
      (by rw [he.filesize]; exact hlt)
    rw [signExtend_eq (by rw [hF]; exact hlt), hF, BitVec.toNat_ofNat, Nat.mod_eq_of_lt (by omega),
      BitVec.toInt_eq_toNat_cond, hsize, ← lowerMask_eq_zero_iff]
    constructor
    · intro h
      split_ifs at h <;> omega
    · intro h
      rw [h.1, Nat.mul_zero, Nat.add_zero, Nat.mod_eq_of_lt hlen, if_pos (by omega)]
  · refine iff_of_false ?_ fun h => hlt h.2
    intro h
    have hmsb : (BitVec.ofNat 32 e.data.length).msb = true := by
      rw [BitVec.msb_eq_true_iff_two_mul_ge, hF]
      omega
    have hle := (e.cpioSize .filesize).isLt
    rw [BitVec.toNat_signExtend, hmsb, BitVec.toNat_setWidth, hF, BitVec.toInt_eq_toNat_cond] at h
    simp only [if_true] at h
    split_ifs at h <;> omega

end CpioEntry

/-! ### The first entry below a path -/

theorem isDir_ramfsItem {x : ℕ × CpioEntry} (hx : x.2.WellFormed) :
    (ramfsItem rd x).isDir ↔ x.2.isDir := by
  have hlt : x.2.mode < 2 ^ 32 := by
    have := hexValue_lt (hx.digits .mode)
    rwa [hx.length] at this
  have hmod : (BitVec.ofNat 32 x.2.mode &&& 0x4000).toNat = x.2.mode &&& 0x4000 := by
    rw [BitVec.toNat_and, BitVec.toNat_ofNat, Nat.mod_eq_of_lt hlt]
    rfl
  rw [RamfsItem.isDir, CpioEntry.isDir, decide_eq_true_eq, ne_eq, ne_eq, ← hmod, ramfsItem,
    ← BitVec.toNat_inj]
  rfl

/-- The first located entry at or below a path, apart from the entry `.`. -/
def locateBelow (es : List CpioEntry) (p : List (List Byte)) : Option (ℕ × CpioEntry) :=
  (locate 0 es).find? fun x => x.2.name ≠ cstr "." ∧ p <+: x.2.path

theorem firstBelow_ramfsItems (es : List CpioEntry) (p : List (List Byte)) :
    firstBelow (ramfsItems rd 0 es) p = (locateBelow es p).map (ramfsItem rd) := by
  rw [firstBelow, ramfsItems, locateBelow, List.find?_map, List.find?_filter]
  congr 2
  funext x
  rw [Bool.eq_iff_iff]
  simp only [ramfsItem, Function.comp, decide_eq_true_eq]
  exact and_congr_right fun _ => decide_eq_true_iff

theorem CpioArchive.firstBelow_eq (A : CpioArchive) (p : List (List Byte)) :
    A.firstBelow p = (locateBelow A.entries p).map Prod.snd := by
  rw [CpioArchive.firstBelow, locateBelow]
  nth_rewrite 1 [← map_snd_locate 0 A.entries]
  rw [List.find?_map]
  rfl

/-! ### The two results -/

section

variable {f : CpioEntry}

theorem bytes_length_lt (hmem : A.InMemory mem rd) {x : ℕ × CpioEntry}
    (hx : x ∈ locate 0 A.entries) : x.1 + x.2.bytes.length < 2 ^ 32 := by
  have h := (le_fst_of_mem_locate hx).2
  have hfits := hmem.fits
  have hstart := hmem.start
  rw [CpioArchive.bytes, List.length_append] at hfits
  have htrailer : 0 < A.trailer.bytes.length := by
    rw [CpioEntry.bytes, CpioEntry.header]
    simp [cstr]
  omega

theorem initrdAddr_ne_zero (hmem : A.InMemory mem (initrdAddr start)) : initrdAddr start ≠ 0 := by
  intro h
  have := hmem.start
  rw [h] at this
  exact absurd this (by decide)

/-- The file's first entry, with its offset. -/
theorem exists_find_name (hf : f ∈ A.entries) :
    ∃ x, (locate 0 A.entries).find? (·.2.name = f.name) = some x := by
  rw [← Option.isSome_iff_exists, List.find?_isSome]
  rw [← map_snd_locate 0 A.entries, List.mem_map] at hf
  obtain ⟨y, hy, rfl⟩ := hf
  exact ⟨y, hy, by simp⟩

theorem find?_entries {x : ℕ × CpioEntry} {name : List Byte}
    (hx : (locate 0 A.entries).find? (·.2.name = name) = some x) :
    A.entries.find? (·.name = name) = some x.2 := by
  nth_rewrite 1 [← map_snd_locate 0 A.entries]
  rw [List.find?_map]
  exact congrArg (Option.map Prod.snd) hx

theorem snd_mem_of_mem_locate {x : ℕ × CpioEntry} (hx : x ∈ locate 0 A.entries) :
    x.2 ∈ A.entries := by
  have : x.2 ∈ (locate 0 A.entries).map Prod.snd := List.mem_map_of_mem hx
  rwa [map_snd_locate] at this

/-- The entry that the walk depends on and the entry that the search finds. -/
theorem locateBelow_eq_iff {x y : ℕ × CpioEntry} (hdot : f.name ≠ cstr ".")
    (hlen : f.name.length < 255) (hx : (locate 0 A.entries).find? (·.2.name = f.name) = some x)
    (hy : locateBelow A.entries (pathComponents f.name) = some y) :
    x = y ∨ y.2.name ≠ f.name ∧ y.1 + y.2.bytes.length ≤ x.1 := by
  have hxname : x.2.name = f.name := by simpa using List.find?_some hx
  have hxpath : x.2.path = pathComponents f.name := by
    rw [CpioEntry.path, hxname, List.take_of_length_le (by omega)]
  have hyx := find?_le_of_pairwise (pairwise_locate 0 A.entries) hy (List.mem_of_find?_eq_some hx)
    (by simp [hxname, hdot, hxpath])
  rcases hyx with rfl | hyx
  · exact .inl rfl
  · by_cases hyname : y.2.name = f.name
    · have hxy := find?_le_of_pairwise (pairwise_locate 0 A.entries) hx
        (List.mem_of_find?_eq_some hy) (by simpa using hyname)
      rcases hxy with rfl | hxy
      · exact .inl rfl
      · have hpos : 0 < y.2.bytes.length := by
          rw [CpioEntry.bytes, CpioEntry.header]
          simp [cstr]
        omega
    · exact .inr ⟨hyname, hyx⟩

/-- A file node at the name's path, in terms of the archive. -/
theorem fileAt_ramfsItems_iff (hA : A.WellFormed) {it : RamfsItem} {cs : List (List Byte)} :
    FileAt (ramfsItems rd 0 A.entries) cs it ↔ cs ≠ [] ∧
      (∃ y, locateBelow A.entries cs = some y ∧ it = ramfsItem rd y ∧ y.2.path = cs ∧ ¬ y.2.isDir) ∧
      ∀ p, p <+: cs → p ≠ [] → p ≠ cs → ∀ e, A.firstBelow p = some e → e.path = p → e.isDir := by
  have hwf : ∀ p y, locateBelow A.entries p = some y → y.2.WellFormed := by
    intro p y hy
    exact (hA.entries y.2 (snd_mem_of_mem_locate (List.mem_of_find?_eq_some hy))).1
  have habove : ∀ p, (∀ it, firstBelow (ramfsItems rd 0 A.entries) p = some it → it.path = p →
      it.isDir) ↔ ∀ e, A.firstBelow p = some e → e.path = p → e.isDir := by
    intro p
    rw [firstBelow_ramfsItems, A.firstBelow_eq]
    constructor
    · intro h e he hpath
      obtain ⟨y, hy, rfl⟩ := Option.map_eq_some_iff.1 he
      exact (isDir_ramfsItem (hwf p y hy)).1
        (h _ (Option.map_eq_some_iff.2 ⟨y, hy, rfl⟩) hpath)
    · intro h it hit hpath
      obtain ⟨y, hy, rfl⟩ := Option.map_eq_some_iff.1 hit
      exact (isDir_ramfsItem (hwf p y hy)).2
        (h _ (Option.map_eq_some_iff.2 ⟨y, hy, rfl⟩) hpath)
  constructor
  · rintro ⟨hne, hit, hpath, hdir, hdirs⟩
    rw [firstBelow_ramfsItems] at hit
    obtain ⟨y, hy, rfl⟩ := Option.map_eq_some_iff.1 hit
    exact ⟨hne, ⟨y, hy, rfl, hpath, fun h => hdir ((isDir_ramfsItem (hwf cs y hy)).2 h)⟩,
      fun p h₁ h₂ h₃ => (habove p).1 (hdirs p h₁ h₂ h₃)⟩
  · rintro ⟨hne, ⟨y, hy, rfl, hpath, hdir⟩, hdirs⟩
    refine ⟨hne, ?_, hpath, fun h => hdir ((isDir_ramfsItem (hwf cs y hy)).1 h),
      fun p h₁ h₂ h₃ => (habove p).2 (hdirs p h₁ h₂ h₃)⟩
    rw [firstBelow_ramfsItems, hy]
    rfl

/-- The two results side by side, where the entries that the search passes are read right. -/
theorem readersAgree_iff_forall {x : ℕ × CpioEntry} (hA : A.WellFormed)
    (hmem : A.InMemory mem (initrdAddr start)) (hf : f ∈ A.entries) (hlen : f.name.length < 255)
    (hbefore : ∀ e ∈ entriesBefore f.name A.entries, e.Plain ∧ e.bytes.length < 2 ^ 31)
    (hx : (locate 0 A.entries).find? (·.2.name = f.name) = some x) :
    ReadersAgree mem start f.name ↔ ∀ (data : Addr) (size : ℤ),
      (data = initrdAddr start + BitVec.ofNat 64 (x.1 + x.2.header.length +
        32 * lowerMask (x.2.field .namesize)) ∧ size = (x.2.cpioSize .filesize).toInt) ↔
      ∃ it, FileAt (ramfsItems (initrdAddr start) 0 A.entries) (pathComponents f.name) it ∧
        it.data = data ∧ (it.size.toNat : ℤ) = size := by
  have hholds := hmem.holds
  rw [CpioArchive.bytes] at hholds
  have hzero : initrdAddr start + BitVec.ofNat 64 0 = initrdAddr start := by simp
  have hxname : x.2.name = f.name := by simpa using List.find?_some hx
  have hxwf := (hA.entries x.2 (snd_mem_of_mem_locate (List.mem_of_find?_eq_some hx))).1
  have hbytes : ∀ e ∈ A.entries, e.bytes.length < 2 ^ 32 := by
    intro e he
    rw [← map_snd_locate 0 A.entries] at he
    obtain ⟨y, hy, rfl⟩ := List.mem_map.1 he
    have := bytes_length_lt hmem hy
    omega
  have hsearch := initrdGetFileLoop_find (hA.entries f hf).1.name hA.entries hbefore
    (hzero ▸ (holdsAt_append.1 hholds).1) hx
  have htree := @setupMountLoop_eq _ (initrdAddr start) 0 _ _ (ramfsCreateVnode .fsDir (cstr "/"))
    hA.entries hbytes (hzero.symm ▸ hholds) hA.trailer
  rw [hzero] at hsearch htree
  rw [CpioEntry.cpio_data hxwf (by rw [hxname]; exact hlen)] at hsearch
  refine forall_congr' fun data => forall_congr' fun size => ?_
  rw [exists_initrdGetFile_iff hsearch, exists_ramfsWalk_iff (initrdAddr_ne_zero hmem) htree]

/-- Where the entries that the search passes are read right, the readers agree exactly when the
search reads the entry it finds right and the tree has it at its name. -/
theorem readersAgree_iff_of_before (hA : A.WellFormed) (hmem : A.InMemory mem (initrdAddr start))
    (hf : f ∈ A.entries) (hplain : f.IsPlainFile)
    (hbefore : ∀ e ∈ entriesBefore f.name A.entries, e.Plain ∧ e.bytes.length < 2 ^ 31) :
    ReadersAgree mem start f.name ↔ A.SizesPlain f.name ∧ A.NameFirst f.name := by
  obtain ⟨x, hx⟩ := exists_find_name hf
  have hxmem := List.mem_of_find?_eq_some hx
  have hxname : x.2.name = f.name := by simpa using List.find?_some hx
  have hxwf := (hA.entries x.2 (snd_mem_of_mem_locate hxmem)).1
  have hxpath : x.2.path = pathComponents f.name := by
    rw [CpioEntry.path, hxname, List.take_of_length_le (by have := hplain.length; omega)]
  have hxlen := bytes_length_lt hmem hxmem
  have hxheader := CpioEntry.length_header_le hxwf
  have hdata : x.2.data.length < 2 ^ 32 := by
    have := CpioEntry.length_bytes hxwf
    omega
  have hdot : f.name ≠ cstr "." := by
    intro h
    exact hplain.dot (by rw [h]; decide)
  rw [readersAgree_iff_forall hA hmem hf hplain.length hbefore hx]
  constructor
  · intro h
    obtain ⟨it, hit, hitdata, hitsize⟩ := (h _ _).1 ⟨rfl, rfl⟩
    obtain ⟨hne, ⟨y, hy, rfl, hypath, hydir⟩, habove⟩ := (fileAt_ramfsItems_iff hA).1 hit
    have hylen := bytes_length_lt hmem (List.mem_of_find?_eq_some hy)
    have hyheader := CpioEntry.length_header_le
      (hA.entries y.2 (snd_mem_of_mem_locate (List.mem_of_find?_eq_some hy))).1
    have hmask := ten_mul_lowerMask_le (hxwf.digits .namesize)
    have hnamelen := hplain.length
    rw [hxwf.namesize, hxname] at hmask
    -- The data addresses are equal, so the distances from the start of the archive are.
    rw [ramfsItem] at hitdata
    simp only at hitdata
    rw [BitVec.add_assoc, ← BitVec.ofNat_add, add_ofNat_inj (by omega) (by omega)] at hitdata
    have hhead : 0 < x.2.header.length := by
      rw [CpioEntry.length_header hxwf]
      simp only [sizeofCpio]
      omega
    obtain rfl : x = y := by
      rcases locateBelow_eq_iff hdot hplain.length hx hy with rfl | ⟨-, hle⟩
      · rfl
      · omega
    have hmask₀ : lowerMask (x.2.field .namesize) = 0 := by omega
    obtain ⟨hlower, hsmall⟩ := (CpioEntry.size_eq_iff hxwf hdata).1 hitsize
    refine ⟨⟨hbefore, fun e he => ?_⟩, hne, ⟨x.2, ?_, hxname, hydir⟩, habove⟩
    · rw [find?_entries hx] at he
      cases he
      exact ⟨⟨lowerMask_eq_zero_iff.1 hmask₀, hlower⟩, hsmall⟩
    · rw [A.firstBelow_eq, hy]
      rfl
  · rintro ⟨hsizes, hfirst⟩ data size
    obtain ⟨⟨hnamesize, hfilesize⟩, hsmall⟩ := hsizes.found x.2 (find?_entries hx)
    obtain ⟨e, he, hename, hedir⟩ := hfirst.first
    rw [A.firstBelow_eq] at he
    obtain ⟨y, hy, rfl⟩ := Option.map_eq_some_iff.1 he
    obtain rfl : x = y := by
      rcases locateBelow_eq_iff hdot hplain.length hx hy with rfl | ⟨hne, -⟩
      · rfl
      · exact absurd hename hne
    have hsize := (CpioEntry.size_eq_iff hxwf hdata).2 ⟨hfilesize, hsmall⟩
    rw [lowerMask_eq_zero_iff.2 hnamesize, Nat.mul_zero, Nat.add_zero, ← hsize]
    constructor
    · rintro ⟨rfl, rfl⟩
      refine ⟨ramfsItem (initrdAddr start) x, (fileAt_ramfsItems_iff hA).2
        ⟨hfirst.ne, ⟨x, hy, rfl, hxpath, hedir⟩, hfirst.above⟩, ?_, rfl⟩
      rw [ramfsItem, BitVec.add_assoc, ← BitVec.ofNat_add]
    · rintro ⟨it, hit, rfl, rfl⟩
      obtain ⟨-, ⟨y, hy', rfl, -, -⟩, -⟩ := (fileAt_ramfsItems_iff hA).1 hit
      rw [hy] at hy'
      cases hy'
      refine ⟨?_, rfl⟩
      rw [ramfsItem, BitVec.add_assoc, ← BitVec.ofNat_add]

/-- **The readers agree on a file** whose sizes, and those of the entries before it, have no
lower-case digits, and whose entry is the first one at its path. Conversely, if the entries before
it are read right, the readers agree on it only then. -/
theorem readersAgree_of_sizesPlain (hA : A.WellFormed) (hmem : A.InMemory mem (initrdAddr start))
    (hf : f ∈ A.entries) (hplain : f.IsPlainFile) :
    (A.SizesPlain f.name → A.NameFirst f.name → ReadersAgree mem start f.name) ∧
      ((∀ e ∈ entriesBefore f.name A.entries, e.Plain ∧ e.bytes.length < 2 ^ 31) →
        ReadersAgree mem start f.name → A.SizesPlain f.name ∧ A.NameFirst f.name) :=
  ⟨fun h₁ h₂ => (readersAgree_iff_of_before hA hmem hf hplain h₁.before).2 ⟨h₁, h₂⟩,
    fun h => (readersAgree_iff_of_before hA hmem hf hplain h).1⟩

end

/-! ### A small ramdisk -/

/-- Eight hexadecimal digits, of which only the last ones may differ from zero. -/
def digits (s : List Byte) : List Byte := List.replicate (8 - s.length) 0x30 ++ s

/-- An entry with the given fields; the others are zero. -/
def smallEntry (mode filesize namesize name data : List Byte) : CpioEntry where
  field
    | .mode => digits mode
    | .filesize => digits filesize
    | .namesize => digits namesize
    | _ => digits []
  name := name
  data := data

/-- A regular file `a` with ten bytes; its mode is `81A4`, its size is written as given. -/
def smallFile (filesize : Byte) : CpioEntry :=
  smallEntry [0x38, 0x31, 0x41, 0x34] [filesize] [0x32] [0x61] (List.replicate 10 0x78)

/-- The trailer. -/
def smallTrailer : CpioEntry := smallEntry [] [] [0x42] (cstr "TRAILER!!!") []

def smallArchive (filesize : Byte) : CpioArchive := ⟨[smallFile filesize], smallTrailer⟩

/-- A memory with the archive at an address. -/
def memoryOf (rd : Addr) (A : CpioArchive) : Bytes := fun a => A.bytes.getD (a - rd).toNat 0

theorem holdsAt_memoryOf (rd : Addr) (A : CpioArchive) (hlen : A.bytes.length ≤ 2 ^ 64) :
    HoldsAt (memoryOf rd A) rd A.bytes :=
  holdsAt_bytesFrom rd A.bytes hlen

theorem smallEntry_wellFormed {mode filesize namesize name data : List Byte}
    (hlen : mode.length ≤ 8 ∧ filesize.length ≤ 8 ∧ namesize.length ≤ 8)
    (hdigits : ∀ c ∈ mode ++ filesize ++ namesize, IsHexDigit c) (hname : 0 ∉ name)
    (hnamesize : hexValue (digits namesize) = name.length + 1)
    (hfilesize : hexValue (digits filesize) = data.length) :
    (smallEntry mode filesize namesize name data).WellFormed := by
  have hlength : ∀ s : List Byte, s.length ≤ 8 → (digits s).length = 8 := by
    intro s hs
    rw [digits, List.length_append, List.length_replicate]
    omega
  have hzero : IsHexDigit 0x30 := by decide
  have hmem : ∀ s : List Byte, (∀ c ∈ s, IsHexDigit c) → ∀ c ∈ digits s, IsHexDigit c := by
    intro s hs c hc
    rw [digits, List.mem_append, List.mem_replicate] at hc
    rcases hc with ⟨-, rfl⟩ | hc
    · exact hzero
    · exact hs c hc
  simp only [List.mem_append, or_imp, forall_and] at hdigits
  obtain ⟨⟨h₁, h₂⟩, h₃⟩ := hdigits
  refine ⟨fun f => ?_, fun f => ?_, hname, hnamesize, hfilesize⟩
  · cases f <;> exact hlength _ (by first | exact hlen.1 | exact hlen.2.1 | exact hlen.2.2 | simp)
  · cases f <;> exact hmem _ (by first | exact h₁ | exact h₂ | exact h₃ | simp)

theorem smallTrailer_wellFormed : smallTrailer.WellFormed :=
  smallEntry_wellFormed (by decide) (by decide) (by decide) (by decide) (by decide)

theorem smallFile_wellFormed {c : Byte} (hc : c = 0x41 ∨ c = 0x61) : (smallFile c).WellFormed := by
  rcases hc with rfl | rfl
  · exact smallEntry_wellFormed (by decide) (by decide) (by decide) (by decide) (by decide)
  · exact smallEntry_wellFormed (by decide) (by decide) (by decide) (by decide) (by decide)

theorem smallFile_isPlainFile (c : Byte) : (smallFile c).IsPlainFile :=
  ⟨show hexValue (digits [0x38, 0x31, 0x41, 0x34]) &&& 0xf000 = 0x8000 by decide,
    show ([0x61] : List Byte).length < 255 by decide,
    show cstr "." ∉ pathComponents [0x61] by decide,
    show cstr ".." ∉ pathComponents [0x61] by decide⟩

theorem smallArchive_wellFormed {c : Byte} (hc : c = 0x41 ∨ c = 0x61) :
    (smallArchive c).WellFormed := by
  refine ⟨fun e he => ?_, smallTrailer_wellFormed, rfl⟩
  rw [List.mem_singleton.1 he]
  exact ⟨smallFile_wellFormed hc, show ([0x61] : List Byte) ≠ cstr "TRAILER!!!" by decide⟩

/-- The address of the small ramdisk. -/
def smallAddr : Addr := 0x82200000

theorem smallArchive_inMemory {c : Byte} (hc : c = 0x41 ∨ c = 0x61) :
    (smallArchive c).InMemory (memoryOf (initrdAddr smallAddr) (smallArchive c))
      (initrdAddr smallAddr) := by
  have hfile : (smallFile c).name.length = 1 ∧ (smallFile c).data.length = 10 := ⟨rfl, rfl⟩
  have htrailer : smallTrailer.name.length = 10 ∧ smallTrailer.data.length = 0 := by decide
  have hlen : (smallArchive c).bytes.length = 248 := by
    rw [CpioArchive.bytes, smallArchive, List.flatMap_singleton, List.length_append,
      CpioEntry.length_bytes (smallFile_wellFormed hc),
        CpioEntry.length_bytes smallTrailer_wellFormed,
      hfile.1, hfile.2, htrailer.1, htrailer.2]
    rfl
  have haddr : (initrdAddr smallAddr).toNat = pageOffset.toNat + 0x82200000 := by decide
  refine ⟨holdsAt_memoryOf _ _ (by omega), by omega, by omega⟩

theorem readersAgree_of_sizesPlain_small :
    ReadersAgree (memoryOf (initrdAddr smallAddr) (smallArchive 0x41)) smallAddr [0x61] := by
  have hfind : (smallArchive 0x41).entries.find? (·.name = [0x61]) = some (smallFile 0x41) := rfl
  refine (readersAgree_of_sizesPlain (smallArchive_wellFormed (.inl rfl))
    (smallArchive_inMemory (.inl rfl)) (List.mem_singleton.2 rfl) (smallFile_isPlainFile 0x41)).1
    ⟨?_, ?_⟩ ⟨?_, ?_, ?_⟩
  · intro e he
    cases he
  · intro e he
    rw [show (smallFile 0x41).name = [0x61] from rfl, hfind] at he
    cases he
    decide
  · decide
  · exact ⟨smallFile 0x41, List.find?_cons_of_pos (by decide), rfl, by decide⟩
  · intro p hp h₀ hne
    have hcomp : pathComponents (smallFile 0x41).name = [[0x61]] := by decide
    rw [hcomp] at hp hne
    cases p with
    | nil => exact absurd rfl h₀
    | cons b p =>
      obtain ⟨rfl, hp'⟩ := List.cons_prefix_cons.1 hp
      exact absurd (by rw [List.prefix_nil.1 hp']) hne

/-- **A size with a lower-case digit is read differently**: 42 and 10. -/
theorem not_readersAgree_lower :
    (smallArchive 0x61).WellFormed ∧
      (smallArchive 0x61).InMemory (memoryOf (initrdAddr smallAddr) (smallArchive 0x61))
        (initrdAddr smallAddr) ∧
      smallFile 0x61 ∈ (smallArchive 0x61).entries ∧ (smallFile 0x61).IsPlainFile ∧
      ¬ ReadersAgree (memoryOf (initrdAddr smallAddr) (smallArchive 0x61)) smallAddr
        (smallFile 0x61).name := by
  have hmem : smallFile 0x61 ∈ (smallArchive 0x61).entries := List.mem_singleton.2 rfl
  refine ⟨smallArchive_wellFormed (.inr rfl), smallArchive_inMemory (.inr rfl), hmem,
    smallFile_isPlainFile 0x61, ?_⟩
  rw [readersAgree_iff_of_before (smallArchive_wellFormed (.inr rfl))
    (smallArchive_inMemory (.inr rfl)) hmem (smallFile_isPlainFile 0x61) (by intro e he; cases he)]
  rintro ⟨hsizes, -⟩
  have hplain := (hsizes.found (smallFile 0x61) rfl).1.2
  exact absurd hplain (by decide)

end BareMetalOS.Files
