import BareMetalOS.Files.Namespace

/-!
# Runs of the namespace

Every operation looks paths up and then does one of four things: nothing, set a working directory,
add a vnode to a directory of the tmpfs, or cover a vnode by the root of a mount (`VfsStep`,
`exec_step`). All of them keep the invariant (`VfsStep.inv`), so that it holds in every state that
a run from `vfs_init` reaches (`run_inv`).
-/

namespace BareMetalOS.Files

open Memory (Addr)
open Boot (Byte cstr)

variable {s s' s₁ : Vfs} {op : VfsOp} {cur : Addr} {path : List Byte}

/-- The directory of the tmpfs to which a vnode at this path is added, and the name that the vnode
gets. -/
def addsAt (s : Vfs) (cur : Addr) (pathname : List Byte) : Option (ℕ × List Byte) := do
  let (dirname, filename) ← getParentAndChild pathname
  match ← vfsLookup s cur dirname with
  | (_, none) => none
  | (s, some dir) =>
    match (s.vnodes[dir]?).map Vnode.internal with
    | some (.tmpfs inode) =>
      if inode.type = .fsDir ∧ ∃ i, inode.entry i = none then some (dir, filename.take 31) else none
    | _ => none

/-- The directory to which an operation adds a vnode, and the name that the vnode gets. -/
def VfsOp.adds (s : Vfs) : VfsOp → Option (ℕ × List Byte)
  | .mkdir cur path => addsAt s cur path
  | .open cur path true =>
    match vfsLookup s cur path with
    | some (s, none) => addsAt s cur path
    | _ => none
  | _ => none

/-- The file system that an operation mounts. -/
def VfsOp.mounts : VfsOp → Option Filesystem
  | .mount _ _ fs => fs
  | _ => none

/-- What an operation does. -/
inductive VfsStep (s : Vfs) (op : VfsOp) : Vfs → Prop
  | look (s₁ : Vfs) (hgrow : Grows s s₁) (hinv : VfsInv s₁) (hadds : op.adds s = none) :
    VfsStep s op s₁
  | cwd (s₁ : Vfs) (hgrow : Grows s s₁) (hinv : VfsInv s₁) (hadds : op.adds s = none)
    (cwd : Addr → Option ℕ) (hcwd : ∀ t v, cwd t = some v → v < s₁.vnodes.length) :
    VfsStep s op { s₁ with cwd := cwd }
  | add (s₁ : Vfs) (hgrow : Grows s s₁) (hinv : VfsInv s₁) (d : ℕ) (dv : Vnode)
    (inode : TmpfsVnode) (i : Fin 16) (type : FsnodeType) (name : List Byte)
    (hadds : op.adds s = some (d, name)) (hd : s₁.vnodes[d]? = some dv)
    (hmount : dv.mount = none) (hinode : dv.internal = .tmpfs inode) (hdir : inode.type = .fsDir)
    (hi : inode.entry i = none) : VfsStep s op (s₁.addEntry d inode i type name)
  | mount (s₁ : Vfs) (hgrow : Grows s s₁) (hinv : VfsInv s₁) (hadds : op.adds s = none)
    (fs : Filesystem) (hfs : op.mounts = some fs) (m : ℕ) (mv : Vnode) (new : List Vnode) (p : ℕ)
    (hm : s₁.vnodes[m]? = some mv) (hmount : mv.mount = none) (hnew : setupMount s₁ fs = some new)
    (hp : if m = s₁.root then p = s₁.vnodes.length else mv.parent = some p) :
    VfsStep s op (s₁.addMount m new p)

/-! ## The invariant -/

theorem VfsInv.addEntry {d : ℕ} {dv : Vnode} {inode : TmpfsVnode} {i : Fin 16} (h : VfsInv s)
    (hd : s.vnodes[d]? = some dv) (hinode : dv.internal = .tmpfs inode) (type : FsnodeType)
    (name : List Byte) : VfsInv (s.addEntry d inode i type name) := by
  have hdlt := (List.getElem?_eq_some_iff.1 hd).1
  have hpush : VfsInv (s.push ⟨none, .tmpfs (tmpfsCreateVnode type name), some d⟩) := by
    refine h.append rfl rfl rfl ?_ ?_
    · intro v hv
      have := h.device v hv
      simp only [Vfs.push, List.length_append, List.length_singleton]
      omega
    · intro j vv hj
      cases j with
      | zero =>
        cases hj
        refine ⟨rfl, ⟨d, ?_, rfl⟩, by simp [Internal.entries, tmpfsCreateVnode]⟩
        simp only [Vfs.push, List.length_append, List.length_singleton]
        omega
      | succ j => cases hj
  have hold : ∀ (v : ℕ) (vv : Vnode), s.vnodes[v]? = some vv →
      (s.push ⟨none, .tmpfs (tmpfsCreateVnode type name), some d⟩).vnodes[v]? = some vv := by
    intro v vv hv
    rw [Vfs.push, List.getElem?_append_left (List.getElem?_eq_some_iff.1 hv).1, hv]
  apply hpush.setInternal
  intro e he
  obtain ⟨j, -, hj⟩ := List.mem_filterMap.1 he
  rcases eq_or_ne j i with rfl | hne
  · rw [inode.withEntry_self] at hj
    cases hj
    refine ⟨h.root_lt.ne', ⟨none, .tmpfs (tmpfsCreateVnode type name), some d⟩, ?_, rfl⟩
    rw [Vfs.push, List.getElem?_append_right le_rfl, Nat.sub_self, List.getElem?_cons_zero]
  · rw [inode.withEntry_of_ne hne] at hj
    have hmem : e ∈ dv.internal.entries := by
      rw [hinode]
      exact List.mem_filterMap.2 ⟨j, List.mem_finRange j, hj⟩
    obtain ⟨hroot, ev, hev, hpar⟩ := h.entry d dv e hd hmem
    exact ⟨hroot, ev, hold e ev hev, hpar⟩

theorem VfsInv.addMount {fs : Filesystem} {m p : ℕ} {mv : Vnode} {new : List Vnode} (h : VfsInv s)
    (hm : s.vnodes[m]? = some mv) (hnew : setupMount s fs = some new)
    (hp : if m = s.root then p = s.vnodes.length else mv.parent = some p) :
    VfsInv (s.addMount m new p) := by
  obtain ⟨⟨rv, hrv, hrp⟩, hl⟩ := setupMount_spec hnew p
  have hmlt := (List.getElem?_eq_some_iff.1 hm).1
  have hpos := (List.getElem?_eq_some_iff.1 hrv).1
  have hplt : p < s.vnodes.length + (rooted new p).length := by
    split at hp
    · omega
    · obtain ⟨q, hq, hpar⟩ := h.parent m mv hm
      cases hp.symm.trans hpar
      omega
  have happ : VfsInv { s with vnodes := s.vnodes ++ rooted new p } := by
    refine h.append rfl rfl rfl ?_ ?_
    · intro v hv
      have := h.device v hv
      simp only [List.length_append]
      omega
    · intro i vv hi
      obtain ⟨hmount, -, hpar, he⟩ := hl i vv hi
      refine ⟨hmount, ?_, he⟩
      simp only [List.length_append]
      rcases hpar with hpar | ⟨j, hj, hpar⟩
      · exact ⟨p, hplt, hpar⟩
      · exact ⟨_, Nat.add_lt_add_left hj _, hpar⟩
  have hmv : (s.vnodes ++ rooted new p)[m]? = some mv := by
    rw [List.getElem?_append_left hmlt, hm]
  have hroot : (s.vnodes ++ rooted new p)[s.vnodes.length]? = some rv := by
    rw [List.getElem?_append_right le_rfl, Nat.sub_self, hrv]
  refine happ.setMount hmv hmlt h.root_lt.ne' hroot ?_
  rw [hrp]
  split at hp
  · rw [if_pos ‹_›, hp]
  · rw [if_neg ‹_›, hp]

/-- Every operation keeps the invariant. -/
theorem VfsStep.inv (h : VfsStep s op s') : VfsInv s' := by
  cases h with
  | look s₁ _ hinv => exact hinv
  | cwd s₁ _ hinv _ cwd hcwd =>
    exact ⟨hinv.root, hinv.parent, hinv.entry, hinv.mount, hcwd, hinv.device⟩
  | add s₁ _ hinv d dv inode i type name _ hd _ hinode => exact hinv.addEntry hd hinode type name
  | mount s₁ _ hinv _ fs _ m mv new p hm _ hnew hp => exact hinv.addMount hm hnew hp

/-! ## The operations -/

/-- The directory gets the new vnode in its first free slot, if it has one. -/
theorem tmpfsAdd_cases (s : Vfs) (d : ℕ) (inode : TmpfsVnode) (type : FsnodeType)
    (name : List Byte) :
    (tmpfsAdd s d inode type name = (s, none) ∧
      ¬ (inode.type = .fsDir ∧ ∃ i, inode.entry i = none)) ∨
    ∃ i, inode.type = .fsDir ∧ inode.entry i = none ∧ tmpfsAdd s d inode type name =
      ((s.modify d fun v => { v with internal := .tmpfs (inode.withEntry i s.vnodes.length) }).push
        ⟨none, .tmpfs (tmpfsCreateVnode type (name.take 31)), none⟩, some s.vnodes.length) := by
  rw [tmpfsAdd]
  split
  · rename_i hdir
    split
    · rename_i hfind
      refine .inl ⟨rfl, ?_⟩
      rintro ⟨-, i, hi⟩
      have := List.find?_eq_none.1 hfind i (List.mem_finRange i)
      simp [hi] at this
    · rename_i i hfind
      exact .inr ⟨i, hdir, by simpa using List.find?_some hfind, rfl⟩
  · rename_i hdir
    exact .inl ⟨rfl, fun hcond => hdir hcond.1⟩

/-- The new vnode gets the directory as its parent. -/
theorem setParent_push {d : ℕ} {f : Vnode → Vnode} {x : Vnode} (hd : d < s.vnodes.length) :
    ((s.modify d f).push x).setParent s.vnodes.length d =
      (s.push { x with parent := some d }).modify d f := by
  have heq : (((s.modify d f).push x).setParent s.vnodes.length d).vnodes =
      ((s.push { x with parent := some d }).modify d f).vnodes := by
    apply List.ext_getElem?
    intro i
    simp only [Vfs.setParent, Vfs.modify, Vfs.push, List.getElem?_modify]
    rcases Nat.lt_trichotomy i s.vnodes.length with hi | rfl | hi
    · rw [List.getElem?_append_left (by simpa using hi), List.getElem?_append_left hi,
        List.getElem?_modify]
      simp [(show s.vnodes.length ≠ i by omega)]
    · simp [hd.ne]
    · rw [List.getElem?_eq_none (by simp; omega), List.getElem?_eq_none (by simp; omega)]
      rfl
  exact congrArg (fun l => { s with vnodes := l }) heq

/-- What `vfs_mkdir` and `vfs_open` do to add a vnode: nothing, or they look up the parent and add a
vnode in the directory of the tmpfs there. -/
theorem addAt_cases {type : FsnodeType} {o : Option ℕ} (h : VfsInv s)
    (heq : addAt s cur type path = some (s', o)) :
    (o = none ∧ Grows s s' ∧ VfsInv s' ∧ addsAt s cur path = none) ∨
    ∃ d c s₁ D dv inode i, getParentAndChild path = some (d, c) ∧
      vfsLookup s cur d = some (s₁, some D) ∧ addsAt s cur path = some (D, c.take 31) ∧
      s₁.vnodes[D]? = some dv ∧ dv.mount = none ∧ dv.internal = .tmpfs inode ∧
      inode.type = .fsDir ∧ inode.entry i = none ∧ o = some s₁.vnodes.length ∧
      s' = s₁.addEntry D inode i type (c.take 31) := by
  rw [addAt, Option.bind_eq_bind, Option.bind_eq_some_iff] at heq
  obtain ⟨⟨dirname, filename⟩, hpc, heq⟩ := heq
  rw [Option.bind_eq_bind, Option.bind_eq_some_iff] at heq
  obtain ⟨⟨s₁, o₁⟩, hlook, heq⟩ := heq
  obtain ⟨hinv, hgrow, ho⟩ := vfsLookup_some h hlook
  cases o₁ with
  | none =>
    cases heq
    exact .inl ⟨rfl, hgrow, hinv, by simp [addsAt, hpc, hlook]⟩
  | some dir =>
    obtain ⟨dv, hdv, hmount⟩ := ho dir rfl
    have hdlt := (List.getElem?_eq_some_iff.1 hdv).1
    have hadds : addsAt s cur path = match some dv.internal with
        | some (.tmpfs inode) => if inode.type = .fsDir ∧ ∃ i, inode.entry i = none then
            some (dir, filename.take 31) else none
        | _ => none := by
      simp [addsAt, hpc, hlook, hdv]
    simp only [vnodeAdd, hdv, Option.map_some] at heq
    cases hint : dv.internal with
    | tmpfs inode =>
      simp only [hint] at heq hadds
      rcases tmpfsAdd_cases s₁ dir inode type filename with ⟨hadd, hroom⟩ | ⟨i, hdir, hi, hadd⟩
      · rw [hadd] at heq
        cases heq
        exact .inl ⟨rfl, hgrow, hinv, by rw [hadds, if_neg hroom]⟩
      · rw [hadd] at heq
        cases heq
        rw [setParent_push hdlt]
        exact .inr ⟨dirname, filename, s₁, dir, dv, inode, i, hpc, hlook,
          by rw [hadds, if_pos ⟨hdir, i, hi⟩], hdv, hmount, hint, hdir, hi, rfl, rfl⟩
    | ramfs type' name entries data size =>
      simp only [hint] at heq hadds
      cases heq
      exact .inl ⟨rfl, hgrow, hinv, hadds⟩
    | devfs name =>
      simp only [hint] at heq
      cases heq

/-- An addition as a step. -/
theorem addAt_step {type : FsnodeType} {o : Option ℕ} (h : VfsInv s)
    (heq : addAt s cur type path = some (s', o)) : VfsInv s' ∧
    ((Grows s s' ∧ addsAt s cur path = none) ∨
    ∃ s₁ d dv inode i name, Grows s s₁ ∧ VfsInv s₁ ∧ addsAt s cur path = some (d, name) ∧
      s₁.vnodes[d]? = some dv ∧ dv.mount = none ∧ dv.internal = .tmpfs inode ∧
      inode.type = .fsDir ∧ inode.entry i = none ∧ s' = s₁.addEntry d inode i type name) := by
  rcases addAt_cases h heq with ⟨-, hgrow, hinv, hadds⟩ | ⟨d, c, s₁, D, dv, inode, i, -, hlook,
    hadds, hdv, hmount, hint, hdir, hi, -, rfl⟩
  · exact ⟨hinv, .inl ⟨hgrow, hadds⟩⟩
  · obtain ⟨hinv, hgrow, -⟩ := vfsLookup_some h hlook
    exact ⟨hinv.addEntry hdv hint type _, .inr ⟨s₁, D, dv, inode, i, c.take 31, hgrow, hinv, hadds,
      hdv, hmount, hint, hdir, hi, rfl⟩⟩

/-- What `vfs_mount` does. -/
theorem vfsMount_step {target : List Byte} {fs : Option Filesystem} {b : Bool} (h : VfsInv s)
    (heq : vfsMount s cur target fs = some (s', b)) :
    (b = false ∧ Grows s s' ∧ VfsInv s') ∨
    ∃ s₁ m mv new p fs', b = true ∧ fs = some fs' ∧ vfsLookup s cur target = some (s₁, some m) ∧
      s₁.vnodes[m]? = some mv ∧ mv.mount = none ∧ setupMount s₁ fs' = some new ∧
      (if m = s₁.root then p = s₁.vnodes.length else mv.parent = some p) ∧
      s' = s₁.addMount m new p := by
  cases fs with
  | none =>
    cases heq
    exact .inl ⟨rfl, Grows.refl s, h⟩
  | some fs =>
    rw [vfsMount, Option.bind_eq_bind, Option.bind_eq_some_iff] at heq
    obtain ⟨⟨s₁, o₁⟩, hlook, heq⟩ := heq
    obtain ⟨hinv, hgrow, ho⟩ := vfsLookup_some h hlook
    cases o₁ with
    | none =>
      cases heq
      exact .inl ⟨rfl, hgrow, hinv⟩
    | some m =>
      obtain ⟨mv, hmv, hmount⟩ := ho m rfl
      obtain ⟨q, -, hq⟩ := hinv.parent m mv hmv
      simp only [hmv, Option.bind_eq_bind, Option.bind_some] at heq
      rw [Option.bind_eq_some_iff] at heq
      obtain ⟨new, hnew, heq⟩ := heq
      cases heq
      refine .inr ⟨s₁, m, mv, new, if m = s₁.root then s₁.vnodes.length else q, fs, rfl, rfl, hlook,
        hmv, hmount, hnew, ?_, ?_⟩
      · split
        · rfl
        · exact hq
      · have hpar : (if m = s₁.root then some s₁.vnodes.length else mv.parent) =
            some (if m = s₁.root then s₁.vnodes.length else q) := by
          split
          · rfl
          · exact hq
        have hroot : (s₁.vnodes ++ new).modify s₁.vnodes.length (fun x =>
              { x with parent := some (if m = s₁.root then s₁.vnodes.length else q) }) =
            s₁.vnodes ++ rooted new (if m = s₁.root then s₁.vnodes.length else q) := by
          apply List.ext_getElem?
          intro i
          rw [rooted, List.getElem?_modify]
          rcases Nat.lt_or_ge i s₁.vnodes.length with hi | hi
          · rw [List.getElem?_append_left hi, List.getElem?_append_left hi]
            simp [hi.ne']
          · rw [List.getElem?_append_right hi, List.getElem?_append_right hi, List.getElem?_modify]
            simp only [(show (s₁.vnodes.length = i) = (0 = i - s₁.vnodes.length) by
              rw [eq_iff_iff]; omega)]
        simp only [hpar, Vfs.addMount, Vfs.modify, hroot]

/-- Every operation is one of the steps. -/
theorem exec_step (h : VfsInv s) (heq : s.exec op = some s') : VfsStep s op s' := by
  cases op with
  | lookup cur path =>
    obtain ⟨⟨s₁, o⟩, hlook, rfl⟩ := Option.map_eq_some_iff.1 heq
    obtain ⟨hinv, hgrow, -⟩ := vfsLookup_some h hlook
    exact .look _ hgrow hinv rfl
  | mkdir cur path =>
    obtain ⟨⟨s₁, o⟩, hadd, rfl⟩ := Option.map_eq_some_iff.1 heq
    obtain ⟨hinv', ⟨hgrow, hnone⟩ | ⟨s₁, d, dv, inode, i, name, hgrow, hinv, hadds, hd, hm, hi,
      hdir, hfree, rfl⟩⟩ := addAt_step h hadd
    · exact .look _ hgrow hinv' hnone
    · exact .add s₁ hgrow hinv d dv inode i _ name hadds hd hm hi hdir hfree
  | «open» cur path creat =>
    obtain ⟨⟨s₂, o⟩, hopen, rfl⟩ := Option.map_eq_some_iff.1 heq
    rw [vfsOpenVnode, Option.bind_eq_bind, Option.bind_eq_some_iff] at hopen
    obtain ⟨⟨s₁, o₁⟩, hlook, hopen⟩ := hopen
    obtain ⟨hinv, hgrow, -⟩ := vfsLookup_some h hlook
    cases o₁ with
    | some v =>
      cases hopen
      refine .look _ hgrow hinv ?_
      cases creat <;> simp [VfsOp.adds, hlook]
    | none =>
      cases creat with
      | false =>
        cases hopen
        exact .look _ hgrow hinv rfl
      | true =>
        have hadds : VfsOp.adds s (.open cur path true) = addsAt s₁ cur path := by
          simp [VfsOp.adds, hlook]
        obtain ⟨hinv', ⟨hgrow', hnone⟩ | ⟨s₂, d, dv, inode, i, name, hgrow', hinv₂, hadds', hd, hm,
          hi, hdir, hfree, rfl⟩⟩ := addAt_step hinv hopen
        · exact .look _ (hgrow.trans hgrow') hinv' (hadds.trans hnone)
        · exact .add s₂ (hgrow.trans hgrow') hinv₂ d dv inode i _ name (hadds.trans hadds') hd hm hi
            hdir hfree
  | mount cur target fs =>
    obtain ⟨⟨s₁, b⟩, hmount, rfl⟩ := Option.map_eq_some_iff.1 heq
    rcases vfsMount_step h hmount with ⟨-, hgrow, hinv⟩ | ⟨s₁, m, mv, new, p, fs', -, rfl, hlook,
      hmv, hm, hnew, hp, rfl⟩
    · exact .look _ hgrow hinv rfl
    · obtain ⟨hinv, hgrow, -⟩ := vfsLookup_some h hlook
      exact .mount s₁ hgrow hinv rfl fs' rfl m mv new p hmv hm hnew hp
  | chdir cur path =>
    obtain ⟨⟨s₂, b⟩, hcd, rfl⟩ := Option.map_eq_some_iff.1 heq
    rw [sysChdir, Option.bind_eq_bind, Option.bind_eq_some_iff] at hcd
    obtain ⟨⟨s₁, o₁⟩, hlook, hcd⟩ := hcd
    obtain ⟨hinv, hgrow, ho⟩ := vfsLookup_some h hlook
    cases o₁ with
    | none =>
      cases hcd
      exact .look _ hgrow hinv rfl
    | some node =>
      cases hcd
      refine .cwd s₁ hgrow hinv rfl _ fun t v hv => ?_
      obtain ⟨nv, hnv, -⟩ := ho node rfl
      rcases eq_or_ne t cur with rfl | hne
      · rw [Function.update_self] at hv
        cases hv
        exact (List.getElem?_eq_some_iff.1 hnv).1
      · rw [Function.update_of_ne hne] at hv
        exact hinv.cwd t v hv
  | inherit cur child =>
    cases heq
    refine .cwd s (Grows.refl s) h rfl _ fun t v hv => ?_
    rcases eq_or_ne t child with rfl | hne
    · rw [Function.update_self] at hv
      exact h.cwd cur v hv
    · rw [Function.update_of_ne hne] at hv
      exact h.cwd t v hv

/-! ## Runs -/

/-- The operations one after the other. -/
def Vfs.run (s : Vfs) : List VfsOp → Option Vfs
  | [] => some s
  | op :: ops => s.exec op >>= fun s => s.run ops

/-- The state in which `vfs_init` has set up the root. -/
theorem rootfs_inv (initrd : Option RamfsInode) : VfsInv (Vfs.rootfs initrd) := by
  have hone : ∀ (v : ℕ) (vv : Vnode), (Vfs.rootfs initrd).vnodes[v]? = some vv →
      v = 0 ∧ vv = ⟨none, .tmpfs (tmpfsCreateVnode .fsDir []), some 0⟩ := by
    intro v vv hv
    cases v with
    | zero => exact ⟨rfl, (Option.some.inj hv).symm⟩
    | succ v => cases hv
  refine ⟨⟨_, rfl, rfl⟩, fun v vv hv => ?_, fun d dv e hd he => ?_, fun m mv r hm hr => ?_,
    fun t v hc => (by cases hc), fun v hv => (by rcases hv with hv | hv <;> cases hv)⟩
  · obtain ⟨-, rfl⟩ := hone v vv hv
    exact ⟨0, Nat.one_pos, rfl⟩
  · obtain ⟨-, rfl⟩ := hone d dv hd
    simp [Internal.entries, tmpfsCreateVnode] at he
  · obtain ⟨-, rfl⟩ := hone m mv hm
    cases hr

/-- A property that every operation keeps under the invariant holds after every run. -/
theorem run_induction {P : Vfs → Prop} (hstep : ∀ s op s', VfsInv s → P s → VfsStep s op s' → P s')
    {ops : List VfsOp} (h : VfsInv s) (hP : P s) (hrun : s.run ops = some s') :
    VfsInv s' ∧ P s' := by
  induction ops generalizing s with
  | nil =>
    cases hrun
    exact ⟨h, hP⟩
  | cons op ops ih =>
    rw [Vfs.run, Option.bind_eq_bind, Option.bind_eq_some_iff] at hrun
    obtain ⟨s₁, hexec, hrun⟩ := hrun
    have hs := exec_step h hexec
    exact ih hs.inv (hstep s op s₁ h hP hs) hrun

/-- The invariant holds after every run. -/
theorem run_inv {ops : List VfsOp} (h : VfsInv s) (hrun : s.run ops = some s') : VfsInv s' :=
  (run_induction (fun _ _ _ _ _ _ => trivial) h trivial hrun).1

end BareMetalOS.Files
