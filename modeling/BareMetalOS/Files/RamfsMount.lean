import BareMetalOS.Files.Vnodes

/-!
# What `ramfs_setup_mount` makes of an archive

For an archive in which no entry lies below a regular file, the walk along a path from the root
reaches a file exactly when the first entry of that name is a regular file, with its data and its
size, and a directory exactly when the first entry of that name is a directory or the path leads to
some entry further down (`ramfsSetupMount_denotes`). The entry `.` is the exception: it stands for
the root, no vnode is made for it and the walk along `.` finds nothing (`not_denotes_dot`).
-/

namespace BareMetalOS.Files

open Memory Boot

/-! ## What an archive stands for -/

/-- The components of the name of an entry. -/
def CpioEntry.components (e : CpioEntry) : List (List Byte) := e.name.splitOn 0x2f

/-- `S_ISDIR`. -/
def CpioEntry.IsDirectory (e : CpioEntry) : Prop := e.mode &&& 0xf000 = 0x4000

namespace CpioArchive

/-- The first entry of a name. -/
def firstNamed (A : CpioArchive) (cs : List (List Byte)) : Option CpioEntry :=
  A.entries.find? (·.components = cs)

/-- An archive of directories and regular files. Apart from `.`, the names are relative paths of at
most 254 bytes without `.` and `..`, and no entry lies below a regular file. -/
structure Newc (A : CpioArchive) : Prop extends CpioArchive.WellFormed A where
  names : ∀ e ∈ A.entries, e.name ≠ cstr "." →
    e.name.length ≤ 254 ∧ ∀ c ∈ e.components, c ≠ [] ∧ c ≠ cstr "." ∧ c ≠ cstr ".."
  kinds : ∀ e ∈ A.entries, e.IsRegular ∨ e.IsDirectory
  below : ∀ e ∈ A.entries, e.IsRegular → ∀ e' ∈ A.entries, e.components <+: e'.components →
    e'.components = e.components
  length : A.bytes.length < 2 ^ 31

/-- The first entry of the name is a regular file with the data `d`. -/
def HasFile (A : CpioArchive) (cs : List (List Byte)) (d : List Byte) : Prop :=
  ∃ e, A.firstNamed cs = some e ∧ e.IsRegular ∧ e.data = d

/-- The first entry of the name is a directory, or some entry lies below it. -/
def HasDir (A : CpioArchive) (cs : List (List Byte)) : Prop :=
  (∃ e, A.firstNamed cs = some e ∧ e.IsDirectory) ∨
    ∃ e ∈ A.entries, cs <+: e.components ∧ cs ≠ e.components

end CpioArchive

namespace Vnodes

/-- The walk along the path reaches a file with the data `d`. -/
def ReachesFile (h : Vnodes) (mem : Bytes) (cs : List (List Byte)) (d : List Byte) : Prop :=
  ∃ (v : ℕ) (node : RamfsVnode), h.walk 0 cs = some v ∧ h[v]? = some node ∧ node.type = .fsFile ∧
    node.size.toNat = d.length ∧ HoldsAt mem node.data d

/-- The walk along the path reaches a directory. -/
def ReachesDir (h : Vnodes) (cs : List (List Byte)) : Prop :=
  ∃ (v : ℕ) (node : RamfsVnode), h.walk 0 cs = some v ∧ h[v]? = some node ∧ node.type = .fsDir

/-- The vnodes show at a path what the archive has there. -/
structure Denotes (h : Vnodes) (mem : Bytes) (A : CpioArchive) (cs : List (List Byte)) : Prop where
  file : ∀ d, h.ReachesFile mem cs d ↔ A.HasFile cs d
  dir : h.ReachesDir cs ↔ A.HasDir cs
  fails : (¬ ∃ d, A.HasFile cs d) → ¬ A.HasDir cs → h.walk 0 cs = none

variable {h : Vnodes} {mem : Bytes} {cs : List (List Byte)} {d : List Byte}

theorem reachesFile_iff : h.ReachesFile mem cs d ↔
    ∃ data size, h.kindAt cs = some (.file data size) ∧ size.toNat = d.length ∧
      HoldsAt mem data d := by
  constructor
  · rintro ⟨v, node, hv, hnode, htype, hsize, hdata⟩
    refine ⟨node.data, node.size, ?_, hsize, hdata⟩
    rw [kindAt_of_walk hv hnode, kind, htype]
  · rintro ⟨data, size, hkind, hsize, hdata⟩
    rw [kindAt] at hkind
    obtain ⟨v, hv, hkind⟩ := Option.bind_eq_some_iff.1 hkind
    obtain ⟨node, hnode, hkind⟩ := Option.map_eq_some_iff.1 hkind
    rw [kind] at hkind
    cases htype : node.type with
    | fsDir =>
      rw [htype] at hkind
      cases hkind
    | fsFile =>
      rw [htype] at hkind
      cases hkind
      exact ⟨v, node, hv, hnode, htype, hsize, hdata⟩

theorem reachesDir_iff : h.ReachesDir cs ↔ h.kindAt cs = some .dir := by
  constructor
  · rintro ⟨v, node, hv, hnode, htype⟩
    rw [kindAt_of_walk hv hnode, kind_eq_dir.2 htype]
  · intro hkind
    rw [kindAt] at hkind
    obtain ⟨v, hv, hkind⟩ := Option.bind_eq_some_iff.1 hkind
    obtain ⟨node, hnode, hkind⟩ := Option.map_eq_some_iff.1 hkind
    exact ⟨v, node, hv, hnode, kind_eq_dir.1 hkind⟩

theorem WellFormed.walk_eq_none (hh : h.WellFormed) (hkind : h.kindAt cs = none) :
    h.walk 0 cs = none := by
  cases hv : h.walk 0 cs with
  | none => rfl
  | some v =>
    obtain ⟨node, hnode⟩ := hh.exists_of_walk hv
    rw [kindAt_of_walk hv hnode] at hkind
    cases hkind

end Vnodes

/-! ## The first entry at or below a path -/

theorem not_isDirectory_of_isRegular {e : CpioEntry} (h : e.IsRegular) : ¬ e.IsDirectory := by
  intro h'
  rw [CpioEntry.IsRegular] at h
  rw [CpioEntry.IsDirectory, h] at h'
  omega

/-- The bit that the mount looks at. -/
theorem isDir_iff_isDirectory {e : CpioEntry} (h : e.IsRegular ∨ e.IsDirectory) :
    e.isDir ↔ e.IsDirectory := by
  have hbit : e.mode &&& 0x4000 = (e.mode &&& 0xf000) &&& 0x4000 := by
    rw [Nat.and_assoc]
    rfl
  rw [CpioEntry.isDir, decide_eq_true_eq, hbit]
  rcases h with h | h
  · rw [CpioEntry.IsRegular] at h
    rw [h]
    exact iff_of_false (by decide) (not_isDirectory_of_isRegular h)
  · rw [CpioEntry.IsDirectory] at h
    rw [h]
    exact iff_of_true (by decide) h

namespace CpioArchive.Newc

variable {A : CpioArchive} {e : CpioEntry} {cs : List (List Byte)}

theorem path_eq (hA : A.Newc) (he : e ∈ A.entries) (hdot : e.name ≠ cstr ".") :
    e.path = e.components := by
  obtain ⟨hlen, hcomp⟩ := hA.names e he hdot
  rw [CpioEntry.path, List.take_of_length_le (by omega), pathComponents, CpioEntry.components,
    List.filter_eq_self]
  intro c hc
  exact decide_eq_true (hcomp c hc).1

theorem components_dot (hdot : e.name = cstr ".") : e.components = [cstr "."] := by
  rw [CpioEntry.components, hdot]
  decide

/-- Below the entry `.` there is nothing but `.` itself. -/
theorem name_ne_dot (hcs : cs ≠ []) (hdot : cs ≠ [cstr "."]) (hp : cs <+: e.components) :
    e.name ≠ cstr "." := by
  intro hname
  rw [components_dot hname] at hp
  cases cs with
  | nil => exact hcs rfl
  | cons c cs =>
    obtain ⟨rfl, hnil⟩ := List.cons_prefix_cons.1 hp
    exact hdot (by rw [List.prefix_nil.1 hnil])

/-- An entry at or below the path, as the mount and as the archive sees it. -/
theorem prefix_path_iff (hA : A.Newc) (hcs : cs ≠ []) (hdot : cs ≠ [cstr "."])
    (he : e ∈ A.entries) : (e.name ≠ cstr "." ∧ cs <+: e.path) ↔ cs <+: e.components := by
  constructor
  · rintro ⟨hname, hp⟩
    rwa [hA.path_eq he hname] at hp
  · intro hp
    have hname := name_ne_dot hcs hdot hp
    rw [hA.path_eq he hname]
    exact ⟨hname, hp⟩

theorem firstBelow_eq (hA : A.Newc) (hcs : cs ≠ []) (hdot : cs ≠ [cstr "."]) :
    A.firstBelow cs = A.entries.find? (cs <+: ·.components) := by
  apply List.find?_congr
  intro e he
  exact decide_eq_decide.2 (hA.prefix_path_iff hcs hdot he)

/-- Where a regular file has the name, it has nothing below it. -/
theorem firstNamed_eq_firstBelow (hA : A.Newc) (hcs : cs ≠ []) (hdot : cs ≠ [cstr "."])
    (he : e ∈ A.entries) (hreg : e.IsRegular) (hcomp : e.components = cs) :
    A.firstNamed cs = A.firstBelow cs := by
  rw [hA.firstBelow_eq hcs hdot]
  apply List.find?_congr
  intro x hx
  apply decide_eq_decide.2
  constructor
  · rintro rfl
    exact List.prefix_rfl
  · intro hp
    rw [← hcomp] at hp ⊢
    exact hA.below e he hreg x hx hp

theorem of_firstNamed (hfirst : A.firstNamed cs = some e) : e ∈ A.entries ∧ e.components = cs :=
  ⟨List.mem_of_find?_eq_some hfirst, by simpa using List.find?_some hfirst⟩

theorem exists_firstNamed (he : e ∈ A.entries) (hcomp : e.components = cs) :
    ∃ x, A.firstNamed cs = some x := by
  rw [← Option.isSome_iff_exists, firstNamed, List.find?_isSome]
  exact ⟨e, he, decide_eq_true hcomp⟩

/-- No entry at or below the path. -/
theorem not_hasDir_of_none (hA : A.Newc) (hcs : cs ≠ []) (hdot : cs ≠ [cstr "."])
    (hnone : A.firstBelow cs = none) : (¬ ∃ d, A.HasFile cs d) ∧ ¬ A.HasDir cs := by
  rw [hA.firstBelow_eq hcs hdot, List.find?_eq_none] at hnone
  have hno : ∀ e ∈ A.entries, ¬ cs <+: e.components := fun e he => by simpa using hnone e he
  have hname : ∀ e, A.firstNamed cs ≠ some e := by
    intro e hfirst
    obtain ⟨he, rfl⟩ := of_firstNamed hfirst
    exact hno e he List.prefix_rfl
  constructor
  · rintro ⟨d, e, hfirst, -⟩
    exact hname e hfirst
  · rintro (⟨e, hfirst, -⟩ | ⟨e, he, hp, -⟩)
    · exact hname e hfirst
    · exact hno e he hp

/-- The first entry at or below the path is a regular file of this name. -/
theorem hasFile_of_firstBelow (hA : A.Newc) (hcs : cs ≠ []) (hdot : cs ≠ [cstr "."])
    (hfirst : A.firstBelow cs = some e) (hcomp : e.components = cs) (hreg : e.IsRegular) :
    (∀ d, A.HasFile cs d ↔ e.data = d) ∧ ¬ A.HasDir cs := by
  have he : e ∈ A.entries := List.mem_of_find?_eq_some hfirst
  have hname := hA.firstNamed_eq_firstBelow hcs hdot he hreg hcomp
  constructor
  · intro d
    rw [HasFile, hname, hfirst]
    constructor
    · rintro ⟨x, hx, -, hd⟩
      cases hx
      exact hd
    · exact fun hd => ⟨e, rfl, hreg, hd⟩
  · rintro (⟨x, hx, hdir⟩ | ⟨x, hx, hp, hne⟩)
    · rw [hname, hfirst] at hx
      cases hx
      exact not_isDirectory_of_isRegular hreg hdir
    · rw [← hcomp] at hp hne
      exact hne (hA.below e he hreg x hx hp).symm

/-- The first entry at or below the path is a directory or lies below it. -/
theorem hasDir_of_firstBelow (hA : A.Newc) (hcs : cs ≠ []) (hdot : cs ≠ [cstr "."])
    (hfirst : A.firstBelow cs = some e) (hnot : ¬ (e.components = cs ∧ e.IsRegular)) :
    (∀ d, ¬ A.HasFile cs d) ∧ A.HasDir cs := by
  have he : e ∈ A.entries := List.mem_of_find?_eq_some hfirst
  have hp : cs <+: e.components := by
    rw [hA.firstBelow_eq hcs hdot] at hfirst
    simpa using List.find?_some hfirst
  have hfile : ∀ x, A.firstNamed cs = some x → ¬ x.IsRegular := by
    intro x hx hreg
    obtain ⟨hmem, hcomp⟩ := of_firstNamed hx
    rw [hA.firstNamed_eq_firstBelow hcs hdot hmem hreg hcomp, hfirst] at hx
    cases hx
    exact hnot ⟨hcomp, hreg⟩
  constructor
  · rintro d ⟨x, hx, hreg, -⟩
    exact hfile x hx hreg
  · by_cases hcomp : e.components = cs
    · obtain ⟨x, hx⟩ := exists_firstNamed he hcomp
      exact .inl ⟨x, hx, (hA.kinds x (of_firstNamed hx).1).resolve_left (hfile x hx)⟩
    · exact .inr ⟨e, he, hp, Ne.symm hcomp⟩

end CpioArchive.Newc

/-! ## From the bytes to the vnodes -/

section

variable {A : CpioArchive} {mem : Bytes} {rd p start : Addr} {off : ℕ} {es : List CpioEntry}
  {x : ℕ × CpioEntry} {cs : List (List Byte)} {s t : List Byte}

theorem HoldsAt.unique (hs : HoldsAt mem p s) (ht : HoldsAt mem p t) (hlen : s.length = t.length) :
    s = t := by
  induction s generalizing p t with
  | nil => exact (List.length_eq_zero_iff.1 hlen.symm).symm
  | cons c s ih =>
    cases t with
    | nil => cases hlen
    | cons b t =>
      rw [← hs.1, ← ht.1, ih hs.2 ht.2 (Nat.succ.inj hlen)]

/-- Every entry lies at its offset. -/
theorem holdsAt_of_mem_locate
    (hmem : HoldsAt mem (rd + BitVec.ofNat 64 off) (es.flatMap CpioEntry.bytes))
    (hx : x ∈ locate off es) : HoldsAt mem (rd + BitVec.ofNat 64 x.1) x.2.bytes := by
  induction es generalizing off with
  | nil => cases hx
  | cons e es ih =>
    rw [List.flatMap_cons, holdsAt_append, BitVec.add_assoc, ← BitVec.ofNat_add] at hmem
    rcases List.mem_cons.1 hx with rfl | hx
    · exact hmem.1
    · exact ih hmem.2 hx

/-- The data of an entry lie behind its header. -/
theorem holdsAt_data {e : CpioEntry} (h : HoldsAt mem p e.bytes) :
    HoldsAt mem (p + BitVec.ofNat 64 e.header.length) e.data := by
  rw [CpioEntry.bytes, holdsAt_append, holdsAt_append] at h
  exact h.1.2

theorem mem_ramfsItems {it : RamfsItem} (h : it ∈ ramfsItems rd 0 A.entries) :
    ∃ x, x.2 ∈ A.entries ∧ x.2.name ≠ cstr "." ∧ ramfsItem rd x = it := by
  obtain ⟨x, hx, rfl⟩ := List.mem_map.1 h
  obtain ⟨hmem, hname⟩ := List.mem_filter.1 hx
  exact ⟨x, snd_mem_of_mem_locate hmem, of_decide_eq_true hname, rfl⟩

theorem mem_of_locateBelow (h : locateBelow es cs = some x) :
    x ∈ locate 0 es ∧ x.2.name ≠ cstr "." := by
  rw [locateBelow] at h
  have hx := List.find?_some h
  exact ⟨List.mem_of_find?_eq_some h, (of_decide_eq_true hx).1⟩

theorem firstKind_ramfsItems (rd : Addr) (es : List CpioEntry) (cs : List (List Byte)) :
    Vnodes.firstKind (ramfsItems rd 0 es) cs = (locateBelow es cs).map fun y =>
      if y.2.path = cs then
        Vnodes.itemKind (ramfsItem rd y).mode (ramfsItem rd y).data (ramfsItem rd y).size
      else .dir := by
  rw [Vnodes.firstKind, firstBelow_ramfsItems, Option.map_map]
  rfl

namespace CpioArchive.Newc

theorem noneBelowFile (hA : A.Newc) (rd : Addr) :
    Vnodes.NoneBelowFile (ramfsItems rd 0 A.entries) := by
  intro it hit hdir it' hit' hp
  obtain ⟨x, hx, hxname, rfl⟩ := mem_ramfsItems hit
  obtain ⟨y, hy, hyname, rfl⟩ := mem_ramfsItems hit'
  rw [isDir_ramfsItem (hA.entries x.2 hx).1, isDir_iff_isDirectory (hA.kinds x.2 hx)] at hdir
  have hreg := (hA.kinds x.2 hx).resolve_right hdir
  simp only [ramfsItem, hA.path_eq hx hxname, hA.path_eq hy hyname] at hp ⊢
  exact hA.below x.2 hx hreg y.2 hy hp

/-- No entry but `.` lies at `.` or below it. -/
theorem locateBelow_dot (hA : A.Newc) : locateBelow A.entries [cstr "."] = none := by
  rw [locateBelow, List.find?_eq_none]
  intro x hx h
  obtain ⟨hname, hp⟩ := of_decide_eq_true h
  have hmem := snd_mem_of_mem_locate hx
  rw [hA.path_eq hmem hname] at hp
  obtain ⟨t, ht⟩ := hp
  exact ((hA.names x.2 hmem hname).2 (cstr ".") (by rw [← ht]; simp)).2.1 rfl

theorem entry_length_lt (hA : A.Newc) (hx : x ∈ locate 0 A.entries) :
    x.2.bytes.length < 2 ^ 31 := by
  have hle := (le_fst_of_mem_locate hx).2
  have hlen := hA.length
  rw [CpioArchive.bytes, List.length_append] at hlen
  omega

/-- The bytes and the size of a regular file, as the mount decodes them. -/
theorem holdsAt_ramfsItem (hA : A.Newc) (hmem : HoldsAt mem rd A.bytes)
    (hx : x ∈ locate 0 A.entries) :
    HoldsAt mem (ramfsItem rd x).data x.2.data ∧
      (ramfsItem rd x).size.toNat = x.2.data.length := by
  have hwf := (hA.entries x.2 (snd_mem_of_mem_locate hx)).1
  have hlt := hA.entry_length_lt hx
  have hbytes := CpioEntry.length_bytes hwf
  have hnat : (BitVec.ofNat 32 x.2.data.length).toNat = x.2.data.length :=
    Nat.mod_eq_of_lt (by omega)
  rw [CpioArchive.bytes, holdsAt_append] at hmem
  constructor
  · apply holdsAt_data
    apply holdsAt_of_mem_locate _ hx
    simpa using hmem.1
  · rw [ramfsItem, signExtend_eq (by rw [hnat]; omega), hnat, BitVec.toNat_ofNat,
      Nat.mod_eq_of_lt (by omega)]

/-- The vnodes of an archive, once all its entries are added. -/
theorem denotes (hA : A.Newc) (hmem : HoldsAt mem rd A.bytes) (hcs : cs ≠ [])
    (hdot : cs ≠ [cstr "."]) :
    ((ramfsItems rd 0 A.entries).foldl Vnodes.add [Vnodes.root]).Denotes mem A cs := by
  obtain ⟨hwf, hkind⟩ := Vnodes.kindAt_foldl_add (hA.noneBelowFile rd)
  have hk := hkind cs hcs
  rw [firstKind_ramfsItems] at hk
  have hfirst := A.firstBelow_eq cs
  cases hy : locateBelow A.entries cs with
  | none =>
    rw [hy] at hk hfirst
    obtain ⟨hnofile, hnodir⟩ := hA.not_hasDir_of_none hcs hdot hfirst
    constructor
    · intro d
      rw [Vnodes.reachesFile_iff, hk]
      apply iff_of_false
      · rintro ⟨data, size, hnone, -⟩
        cases hnone
      · exact fun h => hnofile ⟨d, h⟩
    · rw [Vnodes.reachesDir_iff, hk]
      exact iff_of_false (fun h => nomatch h) hnodir
    · exact fun _ _ => hwf.walk_eq_none hk
  | some y =>
    rw [hy, Option.map_some] at hk hfirst
    obtain ⟨hloc, hname⟩ := mem_of_locateBelow hy
    have hy' := snd_mem_of_mem_locate hloc
    have hisDir : (ramfsItem rd y).isDir ↔ y.2.IsDirectory := by
      rw [isDir_ramfsItem (hA.entries y.2 hy').1, isDir_iff_isDirectory (hA.kinds y.2 hy')]
    rw [hA.path_eq hy' hname] at hk
    by_cases hreg : y.2.components = cs ∧ y.2.IsRegular
    · -- a regular file
      obtain ⟨hfile, hnodir⟩ := hA.hasFile_of_firstBelow hcs hdot hfirst hreg.1 hreg.2
      have hdir : ¬ (ramfsItem rd y).isDir := fun h =>
        not_isDirectory_of_isRegular hreg.2 (hisDir.1 h)
      obtain ⟨hdata, hsize⟩ := hA.holdsAt_ramfsItem hmem hloc
      rw [if_pos hreg.1, Vnodes.itemKind_of_not_isDir hdir] at hk
      constructor
      · intro d
        rw [Vnodes.reachesFile_iff, hk, hfile]
        constructor
        · rintro ⟨data, size, heq, hlen, hd⟩
          cases heq
          exact hdata.unique hd (hsize.symm.trans hlen)
        · rintro rfl
          exact ⟨_, _, rfl, hsize, hdata⟩
      · rw [Vnodes.reachesDir_iff, hk]
        exact iff_of_false (fun h => nomatch h) hnodir
      · exact fun hno _ => absurd ⟨_, (hfile _).2 rfl⟩ hno
    · -- a directory, or an entry further down
      obtain ⟨hnofile, hdir⟩ := hA.hasDir_of_firstBelow hcs hdot hfirst hreg
      have hkdir : ((ramfsItems rd 0 A.entries).foldl Vnodes.add [Vnodes.root]).kindAt cs =
          some .dir := by
        rw [hk]
        split
        · rename_i hcomp
          have := (hA.kinds y.2 hy').resolve_left fun h => hreg ⟨hcomp, h⟩
          rw [Vnodes.itemKind_of_isDir (hisDir.2 this)]
        · rfl
      constructor
      · intro d
        rw [Vnodes.reachesFile_iff, hkdir]
        apply iff_of_false
        · rintro ⟨data, size, heq, -⟩
          cases heq
        · exact hnofile d
      · rw [Vnodes.reachesDir_iff]
        exact iff_of_true hkdir hdir
      · exact fun _ hno => absurd hdir hno

/-- The mount returns, with the vnodes that the entries make in order. -/
theorem ramfsSetupMount_eq (hA : A.Newc) (h₀ : initrdAddr start ≠ 0)
    (hmem : HoldsAt mem (initrdAddr start) A.bytes) {n : ℕ} (hn : A.entries.length < n) :
    Vnodes.ramfsSetupMount mem start n =
      some (some ((ramfsItems (initrdAddr start) 0 A.entries).foldl Vnodes.add [Vnodes.root])) := by
  have hloop : Ramfs.entriesLoop Vnodes.add mem (A.entries.length + 1)
      (initrdAddr start + BitVec.ofNat 64 0) [Vnodes.root] =
        some ((ramfsItems (initrdAddr start) 0 A.entries).foldl Vnodes.add [Vnodes.root]) := by
    apply entriesLoop_eq hA.entries _ _ hA.trailer
    · intro e he
      rw [← map_snd_locate 0 A.entries] at he
      obtain ⟨x, hx, rfl⟩ := List.mem_map.1 he
      exact (hA.entry_length_lt hx).trans (by norm_num)
    · rw [BitVec.add_zero]
      exact hmem
  rw [BitVec.add_zero] at hloop
  rw [Vnodes.ramfsSetupMount, if_neg h₀, entriesLoop_mono hloop hn, Option.map_some]

/-- The walk along `.` finds nothing. -/
theorem walk_dot (hA : A.Newc) (rd : Addr) : Vnodes.walk
    ((ramfsItems rd 0 A.entries).foldl Vnodes.add [Vnodes.root]) 0 [cstr "."] = none := by
  obtain ⟨hwf, hkind⟩ := Vnodes.kindAt_foldl_add (hA.noneBelowFile rd)
  apply hwf.walk_eq_none
  rw [hkind _ (by simp), firstKind_ramfsItems, hA.locateBelow_dot, Option.map_none]

end CpioArchive.Newc

/-- **After the mount the walks reach what the archive says**, each vnode's parent is the directory
that lists it, and no directory lists a name twice. -/
theorem ramfsSetupMount_denotes (hA : A.Newc) (h₀ : initrdAddr start ≠ 0)
    (hmem : HoldsAt mem (initrdAddr start) A.bytes) :
    ∃ h : Vnodes,
      (∀ n, A.entries.length < n → Vnodes.ramfsSetupMount mem start n = some (some h)) ∧
      h.WellFormed ∧ h.walk 0 [cstr "."] = none ∧
      ∀ cs, cs ≠ [] → cs ≠ [cstr "."] → h.Denotes mem A cs :=
  ⟨_, fun _ => hA.ramfsSetupMount_eq h₀ hmem, (Vnodes.kindAt_foldl_add (hA.noneBelowFile _)).1,
    hA.walk_dot _, fun _ => hA.denotes hmem⟩

end

/-! ### An archive with the entry `.` -/

/-- The directory `.` and a regular file `a/b` of ten bytes, with its size in lower case. -/
def dottedArchive : CpioArchive where
  entries :=
    [smallEntry (cstr "41ED") [] [0x32] (cstr ".") [],
      smallEntry (cstr "81A4") [0x61] [0x34] (cstr "a/b") (List.replicate 10 0x78)]
  trailer := smallTrailer

theorem dottedArchive_newc : dottedArchive.Newc := by
  constructor
  case toWellFormed =>
    constructor
    · intro e he
      simp only [dottedArchive, List.mem_cons, List.not_mem_nil, or_false] at he
      rcases he with rfl | rfl
      · exact ⟨smallEntry_wellFormed (by decide) (by decide) (by decide) (by decide) (by decide),
          show cstr "." ≠ cstr "TRAILER!!!" by decide⟩
      · exact ⟨smallEntry_wellFormed (by decide) (by decide) (by decide) (by decide) (by decide),
          show cstr "a/b" ≠ cstr "TRAILER!!!" by decide⟩
    · exact ⟨smallTrailer_wellFormed, rfl⟩
  case names =>
    intro e he hdot
    simp only [dottedArchive, List.mem_cons, List.not_mem_nil, or_false] at he
    rcases he with rfl | rfl
    · exact absurd rfl hdot
    · exact ⟨show (cstr "a/b").length ≤ 254 by decide,
        show ∀ c ∈ (cstr "a/b").splitOn 0x2f, c ≠ [] ∧ c ≠ cstr "." ∧ c ≠ cstr ".." by decide⟩
  case kinds =>
    intro e he
    simp only [dottedArchive, List.mem_cons, List.not_mem_nil, or_false] at he
    rcases he with rfl | rfl
    · exact .inr (show hexValue (digits (cstr "41ED")) &&& 0xf000 = 0x4000 by decide)
    · exact .inl (show hexValue (digits (cstr "81A4")) &&& 0xf000 = 0x8000 by decide)
  case below =>
    have hcomp : ∀ x ∈ [cstr ".", cstr "a/b"], ∀ y ∈ [cstr ".", cstr "a/b"],
        x.splitOn 0x2f <+: y.splitOn 0x2f → y.splitOn 0x2f = x.splitOn 0x2f := by
      decide
    have hname : ∀ e ∈ dottedArchive.entries, e.name ∈ [cstr ".", cstr "a/b"] := by
      intro e he
      simp only [dottedArchive, List.mem_cons, List.not_mem_nil, or_false] at he
      rcases he with rfl | rfl
      · exact List.mem_cons_self
      · exact List.mem_cons_of_mem _ (List.mem_singleton.2 rfl)
    exact fun e he _ e' he' hp => hcomp _ (hname e he) _ (hname e' he') hp
  case length =>
    have hlen : dottedArchive.bytes.length = 364 := by decide +kernel
    omega

theorem dottedArchive_holdsAt :
    HoldsAt (memoryOf (initrdAddr smallAddr) dottedArchive) (initrdAddr smallAddr)
      dottedArchive.bytes :=
  holdsAt_memoryOf _ _ (dottedArchive_newc.length.le.trans (by norm_num))

theorem ramfsSetupMount_denotes_dotted :
    ∃ h : Vnodes, h.WellFormed ∧
      h.ReachesFile (memoryOf (initrdAddr smallAddr) dottedArchive) [cstr "a", cstr "b"]
        (List.replicate 10 0x78) ∧
      h.ReachesDir [cstr "a"] := by
  obtain ⟨h, -, hwf, -, hdenotes⟩ := ramfsSetupMount_denotes dottedArchive_newc
    (show initrdAddr smallAddr ≠ 0 by decide) dottedArchive_holdsAt
  refine ⟨h, hwf, ?_, ?_⟩
  · rw [(hdenotes [cstr "a", cstr "b"] (by decide) (by decide)).file]
    exact ⟨_, rfl, show hexValue (digits (cstr "81A4")) &&& 0xf000 = 0x8000 by decide, rfl⟩
  · rw [(hdenotes [cstr "a"] (by decide) (by decide)).dir]
    refine .inr ⟨_, List.mem_cons_of_mem _ (List.mem_singleton.2 rfl), ?_, ?_⟩
    · exact show [cstr "a"] <+: (cstr "a/b").splitOn 0x2f by decide
    · exact show [cstr "a"] ≠ (cstr "a/b").splitOn 0x2f by decide

/-- **The entry `.` is a directory of the archive, and the walk along `.` fails.** -/
theorem not_denotes_dot :
    dottedArchive.Newc ∧ initrdAddr smallAddr ≠ 0 ∧
      HoldsAt (memoryOf (initrdAddr smallAddr) dottedArchive) (initrdAddr smallAddr)
        dottedArchive.bytes ∧
      ∃ h, Vnodes.ramfsSetupMount (memoryOf (initrdAddr smallAddr) dottedArchive) smallAddr 3 =
          some (some h) ∧
        ¬ Vnodes.Denotes h (memoryOf (initrdAddr smallAddr) dottedArchive) dottedArchive
          [cstr "."] := by
  have h₀ : initrdAddr smallAddr ≠ 0 := by decide
  refine ⟨dottedArchive_newc, h₀, dottedArchive_holdsAt, _,
    dottedArchive_newc.ramfsSetupMount_eq h₀ dottedArchive_holdsAt (by decide), ?_⟩
  intro h
  have hdir : dottedArchive.HasDir [cstr "."] :=
    .inl ⟨_, rfl, show hexValue (digits (cstr "41ED")) &&& 0xf000 = 0x4000 by decide⟩
  obtain ⟨v, node, hv, -⟩ := h.dir.2 hdir
  rw [dottedArchive_newc.walk_dot] at hv
  cases hv

end BareMetalOS.Files
