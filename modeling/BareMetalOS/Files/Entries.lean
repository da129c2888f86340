import BareMetalOS.Files.VfsSteps
import BareMetalOS.Files.Mounts

/-!
# The names in the directories

`vfs_mkdir` and, with `O_CREAT`, `vfs_open` put a new vnode into a directory under the last
component of the path, cut to the length of the array. Neither of them looks this name up in the
directory. As long as every name that is added is ordinary and new in its directory (`FreshNames`),
no directory of the tmpfs has two entries of one name, and every entry is found under its name
(`entries_found_iff_fresh`).
-/

namespace BareMetalOS.Files

open Memory (Addr)
open Boot (Byte cstr)

variable {s s' s₁ : Vfs} {op : VfsOp} {cur : Addr} {d v e : ℕ} {name : List Byte}
  {inode : TmpfsVnode} {i : Fin 16}

/-! ## The inodes -/

/-- The inode of a vnode. -/
def Vfs.internalAt (s : Vfs) (v : ℕ) : Option Internal := (s.vnodes[v]?).map Vnode.internal

theorem Vfs.nameOf_congr (h : s'.internalAt v = s.internalAt v) : s'.nameOf v = s.nameOf v := by
  rw [Vfs.internalAt, Vfs.internalAt] at h
  rw [Vfs.nameOf, Vfs.nameOf, h]

theorem Vfs.internalAt_lt {x : Internal} (h : s.internalAt v = some x) : v < s.vnodes.length := by
  obtain ⟨vv, hvv, -⟩ := Option.map_eq_some_iff.1 h
  exact (List.getElem?_eq_some_iff.1 hvv).1

/-- The old vnodes keep their inodes, and no new one has entries of the tmpfs. -/
structure Quiet (s s' : Vfs) : Prop where
  old : ∀ v < s.vnodes.length, s'.internalAt v = s.internalAt v
  new : ∀ v inode i, s.vnodes.length ≤ v → s'.internalAt v = some (.tmpfs inode) →
    inode.entry i = none

theorem Grows.quiet (h : Grows s s') : Quiet s s' := by
  refine ⟨fun v hv => ?_, fun v inode i hv hint => ?_⟩
  · rw [Vfs.internalAt, Vfs.internalAt, h.getElem? (List.getElem?_eq_getElem hv),
      List.getElem?_eq_getElem hv]
  · obtain ⟨vv, hvv, hint⟩ := Option.map_eq_some_iff.1 hint
    rcases h.cases hvv with hold | ⟨-, -, hfs⟩
    · have := (List.getElem?_eq_some_iff.1 hold).1
      omega
    · rw [hint] at hfs
      cases hfs

theorem addMount_quiet {fs : Filesystem} {m p : ℕ} {new : List Vnode}
    (hnew : setupMount s fs = some new) : Quiet s (s.addMount m new p) := by
  have hkeep : ∀ v, (s.addMount m new p).internalAt v =
      ((s.vnodes ++ rooted new p)[v]?).map Vnode.internal := by
    intro v
    rw [Vfs.internalAt, Vfs.addMount, Vfs.modify, List.getElem?_modify, Option.map_eq_map,
      Option.map_map]
    congr 1
    funext x
    simp only [Function.comp_apply]
    split <;> rfl
  refine ⟨fun v hv => ?_, fun v inode i hv hint => ?_⟩
  · rw [hkeep, List.getElem?_append_left hv]
    rfl
  · rw [hkeep, List.getElem?_append_right hv] at hint
    obtain ⟨vv, hvv, hint⟩ := Option.map_eq_some_iff.1 hint
    obtain ⟨-, hfs, -⟩ := (setupMount_spec hnew p).2 _ vv hvv
    rw [hint] at hfs
    cases hfs
    cases hnew
    cases hidx : v - s.vnodes.length with
    | zero =>
      rw [hidx] at hvv
      cases hvv
      cases hint
      rfl
    | succ k =>
      rw [hidx] at hvv
      cases hvv

/-- The inodes after a vnode was added to a directory. -/
theorem addEntry_internalAt (inode : TmpfsVnode) (i : Fin 16) (type : FsnodeType)
    (name : List Byte) (hd : d < s.vnodes.length) (v : ℕ) :
    (s.addEntry d inode i type name).internalAt v =
      if v = d then some (.tmpfs (inode.withEntry i s.vnodes.length))
      else if v = s.vnodes.length then some (.tmpfs (tmpfsCreateVnode type name))
      else s.internalAt v := by
  rw [Vfs.internalAt, Vfs.addEntry, Vfs.modify, List.getElem?_modify, Vfs.push]
  rcases Nat.lt_trichotomy v s.vnodes.length with hv | rfl | hv
  · rw [List.getElem?_append_left hv, List.getElem?_eq_getElem hv]
    rcases eq_or_ne v d with rfl | hne
    · simp
    · simp [hne, hne.symm, hv.ne, Vfs.internalAt, List.getElem?_eq_getElem hv]
  · simp [hd.ne, hd.ne']
  · rw [List.getElem?_eq_none (by simp; omega), if_neg (by omega), if_neg (by omega),
      Vfs.internalAt, List.getElem?_eq_none (by omega)]
    rfl

/-- What an operation does to the inodes. -/
theorem VfsStep.cases_adds (h : VfsStep s op s') : (op.adds s = none ∧ Quiet s s') ∨
    ∃ s₁ d dv inode i type name, op.adds s = some (d, name) ∧ Quiet s s₁ ∧ VfsInv s₁ ∧
      s₁.vnodes[d]? = some dv ∧ s₁.internalAt d = some (.tmpfs inode) ∧ inode.type = .fsDir ∧
      inode.entry i = none ∧ s' = s₁.addEntry d inode i type name := by
  cases h with
  | look _ hgrow _ hadds => exact .inl ⟨hadds, hgrow.quiet⟩
  | cwd s₁ hgrow _ hadds => exact .inl ⟨hadds, hgrow.quiet.old, hgrow.quiet.new⟩
  | add s₁ hgrow hinv d dv inode i type name hadds hd _ hint hdir hi =>
    exact .inr ⟨s₁, d, dv, inode, i, type, name, hadds, hgrow.quiet, hinv, hd,
      by rw [Vfs.internalAt, hd, Option.map_some, hint], hdir, hi, rfl⟩
  | mount s₁ hgrow _ hadds fs _ m mv new p hm _ hnew =>
    have hq := addMount_quiet (m := m) (p := p) hnew
    have hle := hgrow.length_le
    refine .inl ⟨hadds, fun v hv => ?_, fun v inode i hv hint => ?_⟩
    · rw [hq.old v (by omega), hgrow.quiet.old v hv]
    · rcases Nat.lt_or_ge v s₁.vnodes.length with hlt | hge
      · rw [hq.old v hlt] at hint
        exact hgrow.quiet.new v inode i hv hint
      · exact hq.new v inode i hge hint

/-! ## The entries -/

/-- Only directories have entries, and those are vnodes of the tmpfs. -/
def EntriesInv (s : Vfs) : Prop := ∀ d inode, s.internalAt d = some (.tmpfs inode) →
  ∀ i e, inode.entry i = some e → inode.type = .fsDir ∧
    ∃ en, s.internalAt e = some (.tmpfs en) ∧ en.name.length ≤ 31 ∧ 0x2f ∉ en.name

/-- The entries of each directory have different, ordinary names. -/
def NamesOk (s : Vfs) : Prop := ∀ d inode, s.internalAt d = some (.tmpfs inode) →
  (∀ i j e e', inode.entry i = some e → inode.entry j = some e' → s.nameOf e = s.nameOf e' →
    i = j) ∧
  ∀ i e, inode.entry i = some e → ∃ name, s.nameOf e = some name ∧ Ordinary name

/-- The name is ordinary, and no entry of the directory has it. -/
def Fresh (s : Vfs) (d : ℕ) (name : List Byte) : Prop := Ordinary name ∧
  ∀ inode i e, s.internalAt d = some (.tmpfs inode) → inode.entry i = some e →
    s.nameOf e ≠ some name

theorem Quiet.cases (h : Quiet s s') (hv : s'.internalAt v = some (.tmpfs inode)) {e : ℕ}
    (he : inode.entry i = some e) : s.internalAt v = some (.tmpfs inode) := by
  rcases Nat.lt_or_ge v s.vnodes.length with hlt | hge
  · rw [← h.old v hlt, hv]
  · rw [h.new v inode i hge hv] at he
    cases he

theorem Quiet.entriesInv (h : Quiet s s') (hs : EntriesInv s) : EntriesInv s' := by
  intro d inode hd i e he
  obtain ⟨hdir, en, hen, hlen, hslash⟩ := hs d inode (h.cases hd he) i e he
  exact ⟨hdir, en, by rw [h.old e (Vfs.internalAt_lt hen), hen], hlen, hslash⟩

theorem Quiet.nameOf (h : Quiet s s') (hs : EntriesInv s)
    (hd : s.internalAt d = some (.tmpfs inode)) (he : inode.entry i = some e) :
    s'.nameOf e = s.nameOf e := by
  obtain ⟨-, en, hen, -⟩ := hs d inode hd i e he
  exact Vfs.nameOf_congr (h.old e (Vfs.internalAt_lt hen))

theorem Quiet.namesOk (h : Quiet s s') (hs : EntriesInv s) (hn : NamesOk s) : NamesOk s' := by
  intro d inode hd
  refine ⟨fun i j e e' he he' heq => ?_, fun i e he => ?_⟩
  · have hd' := h.cases hd he
    rw [h.nameOf hs hd' he, h.nameOf hs hd' he'] at heq
    exact (hn d inode hd').1 i j e e' he he' heq
  · have hd' := h.cases hd he
    rw [h.nameOf hs hd' he]
    exact (hn d inode hd').2 i e he

/-- A name is fresh after a lookup if and only if it was before. -/
theorem Quiet.fresh_iff (h : Quiet s s') (hs : EntriesInv s) :
    Fresh s' d name ↔ Fresh s d name := by
  refine and_congr_right fun _ => ⟨fun hf inode i e hd he => ?_, fun hf inode i e hd he => ?_⟩
  · rw [← h.nameOf hs hd he]
    exact hf inode i e (by rw [h.old d (Vfs.internalAt_lt hd), hd]) he
  · have hd' := h.cases hd he
    rw [h.nameOf hs hd' he]
    exact hf inode i e hd' he

/-! ## A new entry -/

section

variable {type : FsnodeType}

theorem addEntry_nameOf_new (inode : TmpfsVnode) (i : Fin 16) (type : FsnodeType)
    (name : List Byte) (hd : d < s.vnodes.length) :
    (s.addEntry d inode i type name).nameOf s.vnodes.length = some name := by
  have hint := addEntry_internalAt inode i type name hd s.vnodes.length
  rw [if_neg hd.ne', if_pos rfl] at hint
  rw [Vfs.internalAt] at hint
  rw [Vfs.nameOf, hint]
  rfl

/-- The old vnodes keep their names. -/
theorem addEntry_nameOf_old (hd : s.internalAt d = some (.tmpfs inode))
    (hv : v < s.vnodes.length) : (s.addEntry d inode i type name).nameOf v = s.nameOf v := by
  have hint := addEntry_internalAt inode i type name (Vfs.internalAt_lt hd) v
  rcases eq_or_ne v d with rfl | hne
  · rw [if_pos rfl, Vfs.internalAt] at hint
    rw [Vfs.internalAt] at hd
    rw [Vfs.nameOf, Vfs.nameOf, hint, hd]
    rfl
  · rw [if_neg hne, if_neg hv.ne] at hint
    exact Vfs.nameOf_congr hint

/-- The entries after a vnode was added: the old ones, and the new vnode in its slot. -/
theorem addEntry_cases {inode' : TmpfsVnode} {j : Fin 16}
    (hd : s.internalAt d = some (.tmpfs inode))
    (hv : (s.addEntry d inode i type name).internalAt v = some (.tmpfs inode'))
    (he : inode'.entry j = some e) :
    (v = d ∧ j = i ∧ e = s.vnodes.length) ∨
      ∃ old, s.internalAt v = some (.tmpfs old) ∧ old.entry j = some e ∧ old.type = inode'.type ∧
        (v = d → j ≠ i) := by
  rw [addEntry_internalAt _ _ _ _ (Vfs.internalAt_lt hd)] at hv
  split at hv
  · subst v
    cases hv
    rcases eq_or_ne j i with rfl | hne
    · rw [inode.withEntry_self] at he
      exact .inl ⟨rfl, rfl, (Option.some.inj he).symm⟩
    · rw [inode.withEntry_of_ne hne] at he
      exact .inr ⟨inode, hd, he, rfl, fun _ => hne⟩
  · rename_i hne
    split at hv
    · cases hv
      cases he
    · exact .inr ⟨inode', hv, he, rfl, fun h => (hne h).elim⟩

/-- The old vnodes of the tmpfs stay such. -/
theorem addEntry_old {en : TmpfsVnode} (hd : s.internalAt d = some (.tmpfs inode))
    (hv : s.internalAt v = some (.tmpfs en)) : ∃ en', en'.name = en.name ∧
      (s.addEntry d inode i type name).internalAt v = some (.tmpfs en') := by
  rw [addEntry_internalAt _ _ _ _ (Vfs.internalAt_lt hd)]
  split
  · subst v
    cases hd.symm.trans hv
    exact ⟨inode.withEntry i s.vnodes.length, rfl, rfl⟩
  · rw [if_neg (Vfs.internalAt_lt hv).ne]
    exact ⟨en, rfl, hv⟩

theorem addEntry_entriesInv (hs : EntriesInv s) (hd : s.internalAt d = some (.tmpfs inode))
    (hdir : inode.type = .fsDir) (hlen : name.length ≤ 31) (hslash : 0x2f ∉ name) :
    EntriesInv (s.addEntry d inode i type name) := by
  intro v inode' hv j e he
  rcases addEntry_cases hd hv he with ⟨rfl, rfl, rfl⟩ | ⟨old, hold, hej, htype, -⟩
  · rw [addEntry_internalAt _ _ _ _ (Vfs.internalAt_lt hd), if_pos rfl] at hv
    cases hv
    refine ⟨hdir, tmpfsCreateVnode type name, ?_, hlen, hslash⟩
    rw [addEntry_internalAt _ _ _ _ (Vfs.internalAt_lt hd), if_neg (Vfs.internalAt_lt hd).ne',
      if_pos rfl]
  · obtain ⟨hdir', en, hen, hlen', hslash'⟩ := hs v old hold j e hej
    obtain ⟨en', hname, hen'⟩ := addEntry_old hd hen
    exact ⟨htype ▸ hdir', en', hen', by rwa [hname], by rwa [hname]⟩

/-- A fresh name keeps the names different. -/
theorem addEntry_namesOk (hs : EntriesInv s) (hn : NamesOk s)
    (hd : s.internalAt d = some (.tmpfs inode)) (hf : Fresh s d name) :
    NamesOk (s.addEntry d inode i type name) := by
  have hold : ∀ {v old j e}, s.internalAt v = some (.tmpfs old) → old.entry j = some e →
      (s.addEntry d inode i type name).nameOf e = s.nameOf e := by
    intro v old j e hv he
    obtain ⟨-, en, hen, -⟩ := hs v old hv j e he
    exact addEntry_nameOf_old hd (Vfs.internalAt_lt hen)
  have hnew := addEntry_nameOf_new inode i type name (Vfs.internalAt_lt hd)
  intro v inode' hv
  refine ⟨fun j k e e' he he' heq => ?_, fun j e he => ?_⟩
  · rcases addEntry_cases hd hv he with ⟨rfl, rfl, rfl⟩ | ⟨old, hov, hej, -, -⟩ <;>
      rcases addEntry_cases hd hv he' with ⟨hvd, hk, rfl⟩ | ⟨old', hov', hek, -, -⟩
    · exact hk.symm
    · rw [hnew, hold hov' hek] at heq
      exact (hf.2 old' k e' hov' hek heq.symm).elim
    · subst hvd
      rw [hnew, hold hov hej] at heq
      exact (hf.2 old j e hov hej heq).elim
    · cases hov.symm.trans hov'
      rw [hold hov hej, hold hov hek] at heq
      exact (hn v old hov).1 j k e e' hej hek heq
  · rcases addEntry_cases hd hv he with ⟨rfl, rfl, rfl⟩ | ⟨old, hov, hej, -, -⟩
    · exact ⟨name, hnew, hf.1⟩
    · rw [hold hov hej]
      exact (hn v old hov).2 j e hej

/-- A name that is not fresh is then there twice, or is not ordinary. -/
theorem fresh_of_namesOk (hs : EntriesInv s) (hd : s.internalAt d = some (.tmpfs inode))
    (hi : inode.entry i = none) (hn : NamesOk (s.addEntry d inode i type name)) :
    Fresh s d name := by
  have hnew := addEntry_nameOf_new inode i type name (Vfs.internalAt_lt hd)
  have hdir : (s.addEntry d inode i type name).internalAt d =
      some (.tmpfs (inode.withEntry i s.vnodes.length)) := by
    rw [addEntry_internalAt _ _ _ _ (Vfs.internalAt_lt hd), if_pos rfl]
  refine ⟨?_, fun inode' j e hd' he heq => ?_⟩
  · obtain ⟨name', hname', hord⟩ := (hn d _ hdir).2 i _ (inode.withEntry_self i _)
    cases hnew.symm.trans hname'
    exact hord
  · cases hd.symm.trans hd'
    have hne : j ≠ i := by
      rintro rfl
      rw [hi] at he
      cases he
    obtain ⟨-, en, hen, -⟩ := hs d inode hd j e he
    apply hne
    apply (hn d _ hdir).1 j i e s.vnodes.length
    · rw [inode.withEntry_of_ne hne, he]
    · exact inode.withEntry_self i _
    · rw [addEntry_nameOf_old hd (Vfs.internalAt_lt hen), hnew, heq]

end

/-! ## The names -/

theorem lastSlash_none {l : List Byte} {k : ℕ} {last : Option ℕ} (h : lastSlash l k last = none) :
    last = none ∧ 0x2f ∉ l := by
  induction l generalizing k last with
  | nil => exact ⟨h, by simp⟩
  | cons c l ih =>
    obtain ⟨hlast, hl⟩ := ih h
    split at hlast
    · cases hlast
    · rename_i hc
      exact ⟨hlast, List.not_mem_cons_of_ne_of_not_mem (Ne.symm hc) hl⟩

/-- Behind the last slash there is none. -/
theorem lastSlash_some {l : List Byte} {k j : ℕ} {last : Option ℕ}
    (h : lastSlash l k last = some j) : (last = some j ∧ 0x2f ∉ l) ∨
      (k ≤ j ∧ 0x2f ∉ l.drop (j + 1 - k)) := by
  induction l generalizing k last with
  | nil => exact .inl ⟨h, by simp⟩
  | cons c l ih =>
    rcases ih h with ⟨hlast, hl⟩ | ⟨hle, hl⟩
    · split at hlast
      · cases hlast
        refine .inr ⟨le_rfl, ?_⟩
        rwa [Nat.add_sub_cancel_left, List.drop_one, List.tail_cons]
      · rename_i hc
        exact .inl ⟨hlast, List.not_mem_cons_of_ne_of_not_mem (Ne.symm hc) hl⟩
    · refine .inr ⟨by omega, ?_⟩
      rwa [show j + 1 - k = j + 1 - (k + 1) + 1 by omega, List.drop_succ_cons]

/-- The last component has no slashes. -/
theorem slash_notMem_childname {path dirname childname : List Byte}
    (h : getParentAndChild path = some (dirname, childname)) : 0x2f ∉ childname := by
  rw [getParentAndChild] at h
  split at h
  · cases h
  · dsimp only at h
    split at h
    · rename_i hl
      cases h
      exact (lastSlash_none hl).2
    all_goals
      rename_i hl
      cases h
      rcases lastSlash_some hl with ⟨hnone, -⟩ | ⟨-, hl⟩
      · cases hnone
      · exact hl

theorem addsAt_name {path : List Byte} (h : addsAt s cur path = some (d, name)) :
    name.length ≤ 31 ∧ 0x2f ∉ name := by
  rw [addsAt, Option.bind_eq_bind, Option.bind_eq_some_iff] at h
  obtain ⟨⟨dirname, filename⟩, hpc, h⟩ := h
  rw [Option.bind_eq_bind, Option.bind_eq_some_iff] at h
  obtain ⟨⟨s₁, o⟩, -, h⟩ := h
  cases o with
  | none => cases h
  | some dir =>
    dsimp only at h
    split at h
    · split at h
      · cases h
        refine ⟨List.length_take_le .., fun hmem => ?_⟩
        exact slash_notMem_childname hpc (List.mem_of_mem_take hmem)
      · cases h
    · cases h

theorem VfsOp.adds_name (h : op.adds s = some (d, name)) : name.length ≤ 31 ∧ 0x2f ∉ name := by
  cases op with
  | mkdir cur path => exact addsAt_name h
  | «open» cur path creat =>
    cases creat with
    | false => cases h
    | true =>
      rw [VfsOp.adds] at h
      split at h
      · exact addsAt_name h
      · cases h
  | lookup | mount | chdir | inherit => cases h

/-! ## Runs -/

/-- Every name that an operation adds is fresh. -/
def FreshNames : Vfs → List VfsOp → Prop
  | _, [] => True
  | s, op :: ops => (∀ d name, op.adds s = some (d, name) → Fresh s d name) ∧
      ∀ s', s.exec op = some s' → FreshNames s' ops

theorem VfsStep.entriesInv (h : VfsStep s op s') (hs : EntriesInv s) : EntriesInv s' := by
  rcases h.cases_adds with ⟨-, hq⟩ | ⟨s₁, d, dv, inode, i, type, name, hadds, hq, -, -, hint, hdir,
    -, rfl⟩
  · exact hq.entriesInv hs
  · obtain ⟨hlen, hslash⟩ := VfsOp.adds_name hadds
    exact addEntry_entriesInv (hq.entriesInv hs) hint hdir hlen hslash

/-- After an operation the names are still different and ordinary if and only if it adds a fresh
name or none. -/
theorem VfsStep.namesOk_iff (h : VfsStep s op s') (hs : EntriesInv s) (hn : NamesOk s) :
    NamesOk s' ↔ ∀ d name, op.adds s = some (d, name) → Fresh s d name := by
  rcases h.cases_adds with ⟨hnone, hq⟩ | ⟨s₁, d, dv, inode, i, type, name, hadds, hq, -, -, hint,
    hdir, hi, rfl⟩
  · refine iff_of_true (hq.namesOk hs hn) fun d name hadds => ?_
    rw [hnone] at hadds
    cases hadds
  · constructor
    · intro hn' d' name' hadds'
      cases hadds.symm.trans hadds'
      exact (hq.fresh_iff hs).1 (fresh_of_namesOk (hq.entriesInv hs) hint hi hn')
    · intro hf
      exact addEntry_namesOk (hq.entriesInv hs) (hq.namesOk hs hn) hint
        ((hq.fresh_iff hs).2 (hf d name hadds))

/-- The names are different and ordinary in all states of a run if and only if every name that it
adds is fresh. -/
theorem run_namesOk_iff {ops : List VfsOp} (h : VfsInv s) (hs : EntriesInv s) (hn : NamesOk s)
    (hrun : s.run ops = some s') :
    (∀ k sk, s.run (ops.take k) = some sk → NamesOk sk) ↔ FreshNames s ops := by
  induction ops generalizing s with
  | nil =>
    refine iff_of_true (fun k sk hk => ?_) trivial
    rw [List.take_nil] at hk
    cases hk
    exact hn
  | cons op ops ih =>
    rw [Vfs.run, Option.bind_eq_bind, Option.bind_eq_some_iff] at hrun
    obtain ⟨s₁, hexec, hrun⟩ := hrun
    have hstep := exec_step h hexec
    have hiff := hstep.namesOk_iff hs hn
    have hrun₁ : ∀ k, s.run ((op :: ops).take (k + 1)) = s₁.run (ops.take k) := by
      intro k
      rw [List.take_succ_cons, Vfs.run, hexec]
      rfl
    constructor
    · intro hall
      have hn₁ : NamesOk s₁ := hall 1 s₁ (by rw [hrun₁ 0]; rfl)
      refine ⟨hiff.1 hn₁, fun s₂ hexec₂ => ?_⟩
      cases hexec.symm.trans hexec₂
      exact (ih hstep.inv (hstep.entriesInv hs) hn₁ hrun).1 fun k sk hk => hall (k + 1) sk
        (by rw [hrun₁, hk])
    · rintro ⟨hf, hrest⟩ k sk hk
      cases k with
      | zero =>
        cases hk
        exact hn
      | succ k =>
        rw [hrun₁] at hk
        exact (ih hstep.inv (hstep.entriesInv hs) (hiff.2 hf) hrun).2 (hrest s₁ hexec) k sk hk

/-! ## Entries are found -/

/-- Every entry of a directory is found in it under its name, and so is the path of the directory
with this name. -/
def EntriesFound (s : Vfs) : Prop := ∀ d inode i e, s.internalAt d = some (.tmpfs inode) →
  inode.entry i = some e → ∃ name, s.nameOf e = some name ∧
    vnodeLookup s (.tmpfs inode) name = (s, some e) ∧
    ∀ cur p s₁, vfsLookup s cur p = some (s₁, some d) → ∃ C, cross s₁ e = some C ∧
      vfsLookup s cur (join p name) = some (s₁, some C)

/-- A name that no other entry has leads to its entry. -/
theorem vnodeLookup_entry (hs : EntriesInv s) (hn : NamesOk s)
    (hd : s.internalAt d = some (.tmpfs inode)) (he : inode.entry i = some e)
    (hname : s.nameOf e = some name) : vnodeLookup s (.tmpfs inode) name = (s, some e) := by
  obtain ⟨hdir, -⟩ := hs d inode hd i e he
  have hmem : e ∈ (Internal.tmpfs inode).entries :=
    List.mem_filterMap.2 ⟨i, List.mem_finRange i, he⟩
  rw [vnodeLookup, if_pos hdir]
  cases hfind : (Internal.tmpfs inode).entries.find? fun v => s.nameOf v = some name with
  | none =>
    have := List.find?_eq_none.1 hfind e hmem
    simp [hname] at this
  | some e' =>
    obtain ⟨j, -, hj⟩ := List.mem_filterMap.1 (List.mem_of_find?_eq_some hfind)
    have hname' : s.nameOf e' = some name := by
      simpa using List.find?_some hfind
    cases (hn d inode hd).1 i j e e' he hj (hname.trans hname'.symm)
    cases he.symm.trans hj
    rfl

theorem entriesFound (h : VfsInv s) (hs : EntriesInv s) (hn : NamesOk s) : EntriesFound s := by
  intro d inode i e hd he
  obtain ⟨name, hname, hord⟩ := (hn d inode hd).2 i e he
  refine ⟨name, hname, vnodeLookup_entry hs hn hd he hname, fun cur p s₁ hp => ?_⟩
  obtain ⟨hinv, hgrow, -⟩ := vfsLookup_some h hp
  have hq := hgrow.quiet
  have hd₁ : s₁.internalAt d = some (.tmpfs inode) := by
    rw [hq.old d (Vfs.internalAt_lt hd), hd]
  obtain ⟨dv, hdv, hint⟩ := Option.map_eq_some_iff.1 hd₁
  obtain ⟨-, en, hen, hlen, hslash⟩ := hs d inode hd i e he
  have hname₁ : s₁.nameOf e = some name := by
    rw [hq.nameOf hs hd he, hname]
  obtain ⟨hlen, hslash⟩ : name.length ≤ 31 ∧ 0x2f ∉ name := by
    rw [Vfs.internalAt] at hen
    rw [Vfs.nameOf, hen] at hname
    cases hname
    exact ⟨hlen, hslash⟩
  obtain ⟨o, hwalk, ⟨-, hnone⟩ | ⟨v, w, rfl, hw, hcross⟩⟩ := vfsLookup_eq_some.1 hp
  · cases hnone
  cases hw
  have hnext : nextOf s₁ d dv name = some e := by
    rw [nextOf, if_neg hord.2.1, if_neg hord.2.2, hint,
      vnodeLookup_entry (hq.entriesInv hs) (hq.namesOk hs hn) hd₁ he hname₁]
  have hstep := lookupStep_eq hinv hcross hdv (by rw [hint]; simp [Internal.fs])
    (show name.length < 255 by omega)
  rw [hnext] at hstep
  have helt : e < s₁.vnodes.length := (Vfs.internalAt_lt hen).trans_le hgrow.length_le
  obtain ⟨C, -, hC, -⟩ := cross_spec hinv helt
  refine ⟨C, hC, vfsLookup_eq_some.2 ⟨some e, ?_, .inr ⟨e, C, rfl, rfl, hC⟩⟩⟩
  rw [walk_join ⟨hord.1, hslash⟩ hwalk, hstep]

theorem run_entriesInv {ops : List VfsOp} (h : VfsInv s) (hs : EntriesInv s)
    (hrun : s.run ops = some s') : VfsInv s' ∧ EntriesInv s' :=
  run_induction (fun _ _ _ _ hs hstep => hstep.entriesInv hs) h hs hrun

/-- The root directory has no entries at first. -/
theorem rootfs_entry {initrd : Option RamfsInode}
    (hd : (Vfs.rootfs initrd).internalAt d = some (.tmpfs inode)) (i : Fin 16) :
    inode.entry i = none := by
  cases d with
  | zero =>
    cases hd
    rfl
  | succ d => cases hd

/-- **Main.** In all states of a run from `vfs_init`, the entries of every directory of the tmpfs
have different names, none of them empty, `.` or `..`, and every entry is found under its name, if
and only if every name that the run adds is ordinary and new in its directory. -/
theorem entries_found_iff_fresh (initrd : Option RamfsInode) (ops : List VfsOp) (s : Vfs)
    (hrun : (Vfs.rootfs initrd).run ops = some s) :
    (∀ k sk, (Vfs.rootfs initrd).run (ops.take k) = some sk → NamesOk sk ∧ EntriesFound sk) ↔
      FreshNames (Vfs.rootfs initrd) ops := by
  have hinv := rootfs_inv initrd
  have hs : EntriesInv (Vfs.rootfs initrd) := by
    intro d inode hd i e he
    rw [rootfs_entry hd i] at he
    cases he
  have hn : NamesOk (Vfs.rootfs initrd) := by
    intro d inode hd
    refine ⟨fun i j e e' he => ?_, fun i e he => ?_⟩ <;>
    · rw [rootfs_entry hd i] at he
      cases he
  rw [← run_namesOk_iff hinv hs hn hrun]
  refine forall_congr' fun k => forall_congr' fun sk => forall_congr' fun hk =>
    and_iff_left_of_imp fun hnk => ?_
  obtain ⟨hinvk, hsk⟩ := run_entriesInv hinv hs hk
  exact entriesFound hinvk hsk hnk

/-- The directory `/a`, once. -/
theorem entries_found_iff_fresh_once : ∃ s, (Vfs.rootfs none).run [.mkdir 0 [0x2f, 0x61]] = some s ∧
    NamesOk s ∧ EntriesFound s := by
  obtain ⟨s, hs⟩ : ∃ s, (Vfs.rootfs none).run [.mkdir 0 [0x2f, 0x61]] = some s :=
    Option.isSome_iff_exists.1 (by decide +kernel)
  have hadds : VfsOp.adds (Vfs.rootfs none) (.mkdir 0 [0x2f, 0x61]) = some (0, [0x61]) := by
    decide +kernel
  refine ⟨s, hs, (entries_found_iff_fresh none _ s hs).2
    ⟨fun d name hd => ?_, fun _ _ => trivial⟩ 1 s hs⟩
  cases hadds.symm.trans hd
  refine ⟨by simp [Ordinary], fun inode i e hd he => ?_⟩
  rw [rootfs_entry hd i] at he
  cases he

/-- The inode of a vnode of `tmpfs`. -/
def Internal.tmpfsVnode : Internal → Option TmpfsVnode
  | .tmpfs inode => some inode
  | _ => none

theorem Internal.tmpfsVnode_eq_some {i : Internal} {inode : TmpfsVnode}
    (h : i.tmpfsVnode = some inode) : i = .tmpfs inode := by
  cases i with
  | tmpfs inode' =>
    cases h
    rfl
  | ramfs type name entries data size => cases h
  | devfs name => cases h

/-- The directory `/a`, twice: the root has two entries of this name, and the second is not
found. -/
theorem entries_twice : ∃ s, (Vfs.rootfs none).run [.mkdir 0 [0x2f, 0x61], .mkdir 0 [0x2f, 0x61]] =
    some s ∧ ¬ NamesOk s ∧ ¬ EntriesFound s := by
  obtain ⟨s, hs⟩ : ∃ s, (Vfs.rootfs none).run
      [.mkdir 0 [0x2f, 0x61], .mkdir 0 [0x2f, 0x61]] = some s :=
    Option.isSome_iff_exists.1 (by decide +kernel)
  have hprobe : ((Vfs.rootfs none).run [.mkdir 0 [0x2f, 0x61], .mkdir 0 [0x2f, 0x61]]).bind
      (fun s => ((s.internalAt 0).bind Internal.tmpfsVnode).map fun inode =>
        (inode.entry 0, inode.entry 1, (vnodeLookup s (.tmpfs inode) [0x61]).2)) =
          some (some 1, some 2, some 1) := by
    decide +kernel
  have hnames : ((Vfs.rootfs none).run [.mkdir 0 [0x2f, 0x61], .mkdir 0 [0x2f, 0x61]]).map
      (fun s => (s.nameOf 1, s.nameOf 2)) = some (some [0x61], some [0x61]) := by
    decide +kernel
  rw [hs, Option.bind_some] at hprobe
  rw [hs, Option.map_some] at hnames
  obtain ⟨inode, hinode, hprobe⟩ := Option.map_eq_some_iff.1 hprobe
  obtain ⟨i, hi, hinode⟩ := Option.bind_eq_some_iff.1 hinode
  have hroot : s.internalAt 0 = some (.tmpfs inode) := by
    rw [hi, Internal.tmpfsVnode_eq_some hinode]
  simp only [Option.some.injEq, Prod.mk.injEq] at hprobe hnames
  obtain ⟨h0, h1, hlook⟩ := hprobe
  obtain ⟨hname1, hname2⟩ := hnames
  refine ⟨s, hs, fun hn => ?_, fun hf => ?_⟩
  · exact absurd ((hn 0 inode hroot).1 0 1 1 2 h0 h1 (hname1.trans hname2.symm)) (by decide)
  · obtain ⟨name, hname, hfound, -⟩ := hf 0 inode 1 2 hroot h1
    cases hname2.symm.trans hname
    rw [hfound] at hlook
    cases hlook

end BareMetalOS.Files
