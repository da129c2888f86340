import BareMetalOS.Files.Initrd

/-!
# The tree of a ramdisk

`ramfs_setup_mount` adds the entries of the archive to a tree one after the other. A token that is
already there is left as it is, so the first entry at or below a path decides what its node is: a
file if that entry is a file with this very path, a directory otherwise. Below a file nothing is
ever found. `walk_eq_file_iff` says this for every list of entries and every path.
-/

namespace BareMetalOS.Files

open Memory Boot

/-! ## What one entry adds -/

/-- What `ramfs_setup_mount` has decoded of an entry when it adds it. -/
structure RamfsItem where
  path : List (List Byte)
  mode : BitVec 32
  data : Addr
  size : BitVec 64

/-- The entry is a directory. -/
def RamfsItem.isDir (it : RamfsItem) : Prop := it.mode &&& 0x4000 ≠ 0

/-- The loop over the tokens of an entry. -/
def RamfsInode.add (node : RamfsInode) (it : RamfsItem) : RamfsInode :=
  Ramfs.addTokens it.mode it.data it.size node it.path

/-- The entries below one component, with the rest of their paths. -/
def below (c : List Byte) (items : List RamfsItem) : List RamfsItem :=
  items.filterMap fun it =>
    match it.path with
    | [] => none
    | t :: ts => if t = c then some { it with path := ts } else none

/-- The inode that is created for a component, for the first entry with it. -/
def created (c : List Byte) (it : RamfsItem) : RamfsInode :=
  if it.path ≠ [] then ramfsCreateVnode .fsDir c else Ramfs.leaf c it.mode it.data it.size

namespace RamfsInode

@[simp] theorem type_setEntries (node : RamfsInode) (l : List RamfsInode) :
    (node.setEntries l).type = node.type := by
  cases node
  rfl

@[simp] theorem name_setEntries (node : RamfsInode) (l : List RamfsInode) :
    (node.setEntries l).name = node.name := by
  cases node
  rfl

@[simp] theorem entries_setEntries (node : RamfsInode) (l : List RamfsInode) :
    (node.setEntries l).entries = l := by
  cases node
  rfl

@[simp] theorem data_setEntries (node : RamfsInode) (l : List RamfsInode) :
    (node.setEntries l).data = node.data := by
  cases node
  rfl

@[simp] theorem size_setEntries (node : RamfsInode) (l : List RamfsInode) :
    (node.setEntries l).size = node.size := by
  cases node
  rfl

/-- An inode keeps everything but its entries. -/
theorem exists_add_eq (node : RamfsInode) (it : RamfsItem) :
    ∃ l, node.add it = node.setEntries l := by
  obtain ⟨path, mode, data, size⟩ := it
  cases path with
  | nil =>
    refine ⟨node.entries, ?_⟩
    cases node
    rfl
  | cons token tokens =>
    rw [add, Ramfs.addTokens]
    cases ramfsLookup node token with
    | none => exact ⟨_, rfl⟩
    | some next => exact ⟨_, rfl⟩

theorem type_add (node : RamfsInode) (it : RamfsItem) : (node.add it).type = node.type := by
  obtain ⟨l, hl⟩ := node.exists_add_eq it
  rw [hl, type_setEntries]

theorem name_add (node : RamfsInode) (it : RamfsItem) : (node.add it).name = node.name := by
  obtain ⟨l, hl⟩ := node.exists_add_eq it
  rw [hl, name_setEntries]

theorem exists_foldl_add_eq (node : RamfsInode) (items : List RamfsItem) :
    ∃ l, items.foldl add node = node.setEntries l := by
  induction items generalizing node with
  | nil =>
    refine ⟨node.entries, ?_⟩
    cases node
    rfl
  | cons it items ih =>
    obtain ⟨l, hl⟩ := node.exists_add_eq it
    obtain ⟨l', hl'⟩ := ih (node.setEntries l)
    refine ⟨l', ?_⟩
    rw [List.foldl_cons, hl, hl']
    cases node
    rfl

end RamfsInode

/-! ## Lookups after an addition -/

theorem name_of_ramfsLookup {node child : RamfsInode} {c : List Byte}
    (h : ramfsLookup node c = some child) : child.name = c := by
  rw [ramfsLookup] at h
  split at h
  · simpa using List.find?_some h
  · cases h

theorem name_created (c : List Byte) (it : RamfsItem) : (created c it).name = c := by
  rw [created, Ramfs.leaf]
  split_ifs <;> rfl

theorem find?_set_findIdx {α : Type*} {f : α → Bool} {l : List α} {x y : α} (h : l.find? f = some x)
    (hy : f y) : (l.set (l.findIdx f) y).find? f = some y := by
  induction l with
  | nil => cases h
  | cons z l ih =>
    by_cases hz : f z
    · simp [List.findIdx_cons, hz, hy]
    · rw [List.find?_cons_of_neg hz] at h
      simp [List.findIdx_cons, hz, ih h]

theorem find?_set_findIdx_ne {α : Type*} {f g : α → Bool} {l : List α} {x y : α}
    (h : l.find? f = some x) (hx : ¬ g x) (hy : ¬ g y) :
    (l.set (l.findIdx f) y).find? g = l.find? g := by
  induction l with
  | nil => cases h
  | cons z l ih =>
    by_cases hz : f z
    · rw [List.find?_cons_of_pos hz] at h
      cases h
      simp [List.findIdx_cons, hz, hx, hy]
    · rw [List.find?_cons_of_neg hz] at h
      simp only [List.findIdx_cons, hz, cond_false, List.set_cons_succ, List.find?_cons]
      rw [ih h]

variable {node : RamfsInode} {it : RamfsItem} {items : List RamfsItem} {c t : List Byte}
  {ts : List (List Byte)}

/-- The child that an entry goes on from: the one that is found, or a new one. -/
theorem ramfsLookup_add_self (hd : node.type = .fsDir) (hp : it.path = c :: ts) :
    ramfsLookup (node.add it) c =
      some (((ramfsLookup node c).getD (created c { it with path := ts })).add
        { it with path := ts }) := by
  rw [RamfsInode.add, hp, Ramfs.addTokens]
  cases h : ramfsLookup node c with
  | none =>
    have hnone : node.entries.find? (·.name = c) = none := by rwa [ramfsLookup, if_pos hd] at h
    have hname := RamfsInode.name_add (created c { it with path := ts }) { it with path := ts }
    rw [name_created] at hname
    simp only [ramfsLookup, RamfsInode.type_setEntries, RamfsInode.entries_setEntries, hd, if_true,
      List.find?_append, hnone, Option.none_or, Option.getD_none]
    rw [List.find?_cons_of_pos]
    · rfl
    · exact decide_eq_true hname
  | some next =>
    have hsome : node.entries.find? (·.name = c) = some next := by rwa [ramfsLookup, if_pos hd] at h
    simp only [ramfsLookup, RamfsInode.type_setEntries, RamfsInode.entries_setEntries, hd, if_true,
      Option.getD_some]
    refine find?_set_findIdx hsome (decide_eq_true ?_)
    exact (RamfsInode.name_add next { it with path := ts }).trans (name_of_ramfsLookup h)

theorem ramfsLookup_add_of_ne (hp : it.path = t :: ts) (hne : t ≠ c) :
    ramfsLookup (node.add it) c = ramfsLookup node c := by
  rw [RamfsInode.add, hp, Ramfs.addTokens]
  cases h : ramfsLookup node t with
  | none =>
    have hname := RamfsInode.name_add (created t { it with path := ts }) { it with path := ts }
    rw [name_created] at hname
    simp only [ramfsLookup, RamfsInode.type_setEntries, RamfsInode.entries_setEntries,
      List.find?_append]
    rw [List.find?_cons_of_neg, List.find?_nil, Option.or_none]
    rw [decide_eq_true_eq]
    exact fun h => hne (hname.symm.trans h)
  | some next =>
    have hname := name_of_ramfsLookup h
    have hsome : node.entries.find? (·.name = t) = some next := by
      rw [ramfsLookup] at h
      split at h
      · exact h
      · cases h
    simp only [ramfsLookup, RamfsInode.type_setEntries, RamfsInode.entries_setEntries]
    rw [find?_set_findIdx_ne hsome]
    · simpa [hname] using hne
    · have := RamfsInode.name_add next { it with path := ts }
      rw [decide_eq_true_eq]
      exact fun h => hne (hname.symm.trans (this.symm.trans h))

/-- **What is found below a directory when all entries have been added.** -/
theorem ramfsLookup_foldl_add (hd : node.type = .fsDir) (items : List RamfsItem) (c : List Byte) :
    ramfsLookup (items.foldl RamfsInode.add node) c =
      ((ramfsLookup node c).or ((below c items).head?.map (created c))).map
        ((below c items).foldl RamfsInode.add) := by
  induction items generalizing node with
  | nil => cases h : ramfsLookup node c <;> simp [below, h]
  | cons it items ih =>
    rw [List.foldl_cons, ih ((node.type_add it).trans hd)]
    cases hp : it.path with
    | nil =>
      have hadd : node.add it = node := by rw [RamfsInode.add, hp, Ramfs.addTokens]
      simp [below, hp, hadd]
    | cons t ts =>
      by_cases hc : t = c
      · subst hc
        have hbelow : below t (it :: items) = { it with path := ts } :: below t items := by
          simp [below, hp]
        rw [ramfsLookup_add_self hd hp, hbelow]
        cases ramfsLookup node t <;> simp
      · have hbelow : below c (it :: items) = below c items := by simp [below, hp, hc]
        rw [ramfsLookup_add_of_ne hp hc, hbelow]

/-! ## Files -/

/-- The first entry at or below a path. -/
def firstBelow (items : List RamfsItem) (p : List (List Byte)) : Option RamfsItem :=
  items.find? fun it => p <+: it.path

/-- No leading part of the path came in first as a file. -/
def DirsAbove (items : List RamfsItem) (cs : List (List Byte)) : Prop :=
  ∀ p, p <+: cs → p ≠ [] → p ≠ cs → ∀ it, firstBelow items p = some it → it.path = p → it.isDir

/-- The first entry at or below the path is a file with this very path, and the directories above it
came in as directories. -/
def FileAt (items : List RamfsItem) (cs : List (List Byte)) (it : RamfsItem) : Prop :=
  cs ≠ [] ∧ firstBelow items cs = some it ∧ it.path = cs ∧ ¬ it.isDir ∧ DirsAbove items cs

variable {p cs : List (List Byte)}

theorem firstBelow_below (items : List RamfsItem) (c : List Byte) (p : List (List Byte)) :
    firstBelow (below c items) p =
      (firstBelow items (c :: p)).map fun it => { it with path := it.path.tail } := by
  induction items with
  | nil => rfl
  | cons it items ih =>
    cases hp : it.path with
    | nil =>
      have hbelow : below c (it :: items) = below c items := by simp [below, hp]
      rw [hbelow, ih, firstBelow, firstBelow, List.find?_cons_of_neg]
      simp [hp]
    | cons t ts =>
      by_cases hc : t = c
      · subst hc
        have hbelow : below t (it :: items) = { it with path := ts } :: below t items := by
          simp [below, hp]
        rw [hbelow, firstBelow, firstBelow]
        by_cases hpre : p <+: ts
        · rw [List.find?_cons_of_pos (by simpa using hpre),
            List.find?_cons_of_pos (by simpa [hp] using hpre)]
          simp [hp]
        · rw [List.find?_cons_of_neg (by simpa using hpre),
            List.find?_cons_of_neg (by simpa [hp] using hpre)]
          exact ih
      · have hbelow : below c (it :: items) = below c items := by simp [below, hp, hc]
        rw [hbelow, ih, firstBelow, firstBelow, List.find?_cons_of_neg]
        simpa [hp] using fun h => absurd h (Ne.symm hc)

theorem firstBelow_path (h : firstBelow items p = some it) : p <+: it.path := by
  simpa using List.find?_some h

theorem firstBelow_nil (items : List RamfsItem) : firstBelow items [] = items.head? := by
  cases items <;> simp [firstBelow]

/-- The directories above a path, from the first component on. -/
theorem dirsAbove_cons (hcs : cs ≠ []) : DirsAbove items (c :: cs) ↔
    (∀ it, (below c items).head? = some it → it.path = [] → it.isDir) ∧
      DirsAbove (below c items) cs := by
  have key : ∀ p, (∀ it, firstBelow items (c :: p) = some it → it.path = c :: p → it.isDir) ↔
      ∀ it, firstBelow (below c items) p = some it → it.path = p → it.isDir := by
    intro p
    rw [firstBelow_below]
    constructor
    · rintro h it' hit' hpath
      obtain ⟨it, hit, rfl⟩ := Option.map_eq_some_iff.1 hit'
      obtain ⟨l, hl⟩ := firstBelow_path hit
      refine h it hit ?_
      rw [← hl] at hpath ⊢
      simpa using hpath
    · intro h it hit hpath
      refine h { it with path := it.path.tail } (Option.map_eq_some_iff.2 ⟨it, hit, rfl⟩) ?_
      rw [hpath, List.tail_cons]
  rw [← firstBelow_nil]
  constructor
  · intro h
    refine ⟨(key []).1 (h [c] (by simp) (by simp) (by simpa using Ne.symm hcs)),
      fun p hp h₀ hne => ?_⟩
    exact (key p).1 (h (c :: p) (by simpa using hp) (by simp) (by simpa using hne))
  · rintro ⟨h₁, h₂⟩ p hp h₀ hne
    cases p with
    | nil => exact absurd rfl h₀
    | cons b p =>
      obtain ⟨rfl, hp'⟩ := List.cons_prefix_cons.1 hp
      rw [key]
      cases p with
      | nil => exact h₁
      | cons b' p => exact h₂ _ hp' (by simp) (by simpa using hne)

/-- The file at a path of one component. -/
theorem exists_fileAt_singleton {P : RamfsItem → Prop}
    (hP : ∀ it : RamfsItem, ∀ ts, P it ↔ P { it with path := ts }) :
    (∃ it, FileAt items [c] it ∧ P it) ↔
      ∃ it, (below c items).head? = some it ∧ it.path = [] ∧ ¬ it.isDir ∧ P it := by
  have hdirs : DirsAbove items [c] := by
    intro p hp h₀ hne
    cases p with
    | nil => exact absurd rfl h₀
    | cons b p =>
      obtain ⟨rfl, hp'⟩ := List.cons_prefix_cons.1 hp
      exact absurd (by rw [List.prefix_nil.1 hp']) hne
  rw [← firstBelow_nil, firstBelow_below]
  constructor
  · rintro ⟨it, ⟨-, hit, hpath, hdir, -⟩, h⟩
    refine ⟨{ it with path := it.path.tail }, Option.map_eq_some_iff.2 ⟨it, hit, rfl⟩, ?_, hdir,
      (hP it _).1 h⟩
    rw [hpath, List.tail_cons]
  · rintro ⟨it', hit', hpath, hdir, h⟩
    obtain ⟨it, hit, rfl⟩ := Option.map_eq_some_iff.1 hit'
    obtain ⟨l, hl⟩ := firstBelow_path hit
    refine ⟨it, ⟨by simp, hit, ?_, hdir, hdirs⟩, (hP it _).2 h⟩
    rw [← hl] at hpath ⊢
    simpa using hpath

/-- The file at a longer path is one below the directory of its first component. -/
theorem exists_fileAt_cons {P : RamfsItem → Prop}
    (hP : ∀ it : RamfsItem, ∀ ts, P it ↔ P { it with path := ts }) (hcs : cs ≠ []) :
    (∃ it, FileAt items (c :: cs) it ∧ P it) ↔
      (∀ it, (below c items).head? = some it → it.path = [] → it.isDir) ∧
        ∃ it, FileAt (below c items) cs it ∧ P it := by
  constructor
  · rintro ⟨it, ⟨-, hit, hpath, hdir, hdirs⟩, h⟩
    rw [dirsAbove_cons hcs] at hdirs
    refine ⟨hdirs.1, { it with path := it.path.tail }, ⟨hcs, ?_, ?_, hdir, hdirs.2⟩, (hP it _).1 h⟩
    · rw [firstBelow_below]
      exact Option.map_eq_some_iff.2 ⟨it, hit, rfl⟩
    · rw [hpath, List.tail_cons]
  · rintro ⟨hhead, it', ⟨-, hit', hpath, hdir, hdirs⟩, h⟩
    rw [firstBelow_below] at hit'
    obtain ⟨it, hit, rfl⟩ := Option.map_eq_some_iff.1 hit'
    obtain ⟨l, hl⟩ := firstBelow_path hit
    refine ⟨it, ⟨by simp, hit, ?_, hdir, (dirsAbove_cons hcs).2 ⟨hhead, hdirs⟩⟩, (hP it _).2 h⟩
    rw [← hl] at hpath ⊢
    simpa using hpath

theorem created_of_file (h₁ : it.path = []) (h₂ : ¬ it.isDir) :
    created c it = ramfsCreateFile c it.data it.size := by
  rw [RamfsItem.isDir] at h₂
  rw [created, Ramfs.leaf, if_neg (by simpa using h₁), if_neg h₂]

theorem created_of_dir (h : it.path = [] → it.isDir) :
    created c it = ramfsCreateVnode .fsDir c := by
  rw [created, Ramfs.leaf]
  split_ifs with h₁ h₂
  · rfl
  · rfl
  · exact absurd (h (by simpa using h₁)) h₂

/-- Below a file nothing is found, and the file itself stays as it is. -/
theorem walk_file_iff {P : RamfsInode → Prop} {name : List Byte} {data : Addr} {size : BitVec 64}
    (hP : ∀ l, P (.mk .fsFile name l data size) ↔ P (ramfsCreateFile name data size)) :
    (∃ n, ramfsWalk (items.foldl RamfsInode.add (ramfsCreateFile name data size)) cs = some n ∧
      P n) ↔ cs = [] ∧ P (ramfsCreateFile name data size) := by
  obtain ⟨l, hl⟩ := (ramfsCreateFile name data size).exists_foldl_add_eq items
  rw [hl]
  cases cs with
  | nil =>
    rw [ramfsWalk, and_iff_right rfl, ← hP l]
    constructor
    · rintro ⟨n, hn, h⟩
      cases hn
      exact h
    · exact fun h => ⟨_, rfl, h⟩
  | cons c cs =>
    have hnone : ramfsLookup ((ramfsCreateFile name data size).setEntries l) c = none := rfl
    simp [ramfsWalk, hnone]

/-- **The walk reaches a file exactly where an entry came in first as a file.** -/
theorem exists_walk_file_iff (name : List Byte) (data : Addr) (size : BitVec 64)
    (items : List RamfsItem) (cs : List (List Byte)) :
    (∃ n, ramfsWalk (items.foldl RamfsInode.add (ramfsCreateVnode .fsDir name)) cs = some n ∧
      n.type = .fsFile ∧ n.data = data ∧ n.size = size) ↔
      ∃ it, FileAt items cs it ∧ it.data = data ∧ it.size = size := by
  induction cs generalizing name items with
  | nil =>
    obtain ⟨l, hl⟩ := (ramfsCreateVnode .fsDir name).exists_foldl_add_eq items
    refine iff_of_false ?_ fun ⟨it, h, _⟩ => h.1 rfl
    rintro ⟨n, hwalk, htype, -⟩
    rw [ramfsWalk, hl] at hwalk
    cases hwalk
    cases htype
  | cons c cs ih =>
    have hnone : ramfsLookup (ramfsCreateVnode .fsDir name) c = none := rfl
    rw [ramfsWalk, ramfsLookup_foldl_add rfl, hnone, Option.none_or]
    cases hb : below c items with
    | nil =>
      refine iff_of_false (by simp) ?_
      rintro ⟨it, ⟨-, hit, -⟩, -⟩
      have hnil := firstBelow_below items c cs
      rw [hb, hit] at hnil
      cases hnil
    | cons it its =>
      rw [List.head?_cons, Option.map_some, Option.map_some, Option.bind_some]
      by_cases hfile : it.path = [] ∧ ¬ it.isDir
      · rw [created_of_file hfile.1 hfile.2, walk_file_iff fun _ => Iff.rfl]
        by_cases hcs : cs = []
        · subst hcs
          rw [exists_fileAt_singleton fun _ _ => Iff.rfl, hb]
          simp [hfile, ramfsCreateFile, RamfsInode.type, RamfsInode.data, RamfsInode.size]
        · rw [exists_fileAt_cons (fun _ _ => Iff.rfl) hcs, hb]
          refine iff_of_false (fun h => hcs h.1) fun h => hfile.2 (h.1 it rfl hfile.1)
      · have hdir : it.path = [] → it.isDir := fun h => not_not.1 fun h' => hfile ⟨h, h'⟩
        rw [created_of_dir hdir, ih c (it :: its)]
        by_cases hcs : cs = []
        · subst hcs
          rw [exists_fileAt_singleton fun _ _ => Iff.rfl, hb]
          refine iff_of_false (fun ⟨_, h, _⟩ => h.1 rfl) ?_
          rintro ⟨it', hit', hpath, hnot, -⟩
          cases hit'
          exact hnot (hdir hpath)
        · rw [exists_fileAt_cons (fun _ _ => Iff.rfl) hcs, hb, and_iff_right]
          intro it' hit'
          cases hit'
          exact hdir

end BareMetalOS.Files
