import BareMetalOS.Files.Counts
import BareMetalOS.Files.Entries

/-!
# Failures of `sys_open`

`sys_open` over the namespace and the open files together. Where it answers `-1`, it has changed
neither, except that a file it has created stays when there is no free descriptor for it
(`open_failure_iff`).
-/

namespace BareMetalOS.Files

open Memory (Addr)
open Boot (Byte cstr)

/-- The namespace and the open files. -/
structure FileSystem where
  vfs : Vfs
  openFiles : OpenFiles

variable {s s' : FileSystem} {path : List Byte} {flags : BitVec 32} {addr : ℕ → Addr} {mem : Addr}

/-- `flags & O_CREAT` -/
def creates (flags : BitVec 32) : Bool := flags &&& 0x40 ≠ 0

/-- `sys_open`, with its result: the vnode number `v` is at the address `addr v`, and the handle
gets the memory `mem`. -/
def FileSystem.sysOpen (s : FileSystem) (pathname : List Byte) (flags : BitVec 32)
    (addr : ℕ → Addr) (mem : Addr) : Option (FileSystem × ℤ) := do
  let (vfs, vnode) ← vfsOpenVnode s.vfs s.openFiles.sched.tp pathname (creates flags)
  let (openFiles, r) ← Files.sysOpen s.openFiles (vnode.map addr) flags mem
  return (⟨vfs, openFiles⟩, r)

/-! ## Runs -/

/-- An operation on the namespace, on the open files, or on both. -/
inductive SystemOp
  | namespace (op : VfsOp)
  | files (op : FileOp)
  | sysOpen (pathname : List Byte) (flags : BitVec 32) (addr : ℕ → Addr) (mem : Addr)

/-- The operation on the state. -/
def FileSystem.exec (s : FileSystem) : SystemOp → Option FileSystem
  | .namespace op => (s.vfs.exec op).map fun vfs => { s with vfs := vfs }
  | .files op => (s.openFiles.exec op).map fun openFiles => { s with openFiles := openFiles }
  | .sysOpen pathname flags addr mem => (s.sysOpen pathname flags addr mem).map Prod.fst

/-- What the callers promise; a new handle is none of those alive. -/
def SystemAllowed (s : FileSystem) : SystemOp → Prop
  | .namespace _ => True
  | .files op => FileAllowed s.openFiles op
  | .sysOpen _ _ _ mem => s.openFiles.files mem = none

/-- One operation of a run. -/
def SystemStep (s s' : FileSystem) : Prop := ∃ op, SystemAllowed s op ∧ s.exec op = some s'

/-- The states of the runs that start with `vfs_init` and `init_thread_system`. -/
def SystemReachable (s : FileSystem) : Prop :=
  ∃ initrd mem, mem ≠ 0 ∧
    Relation.ReflTransGen SystemStep ⟨Vfs.rootfs initrd, .booted mem⟩ s

/-- What `sys_open` does to the namespace is what `vfs_open` does. -/
theorem sysOpen_some {r : ℤ} (h : s.sysOpen path flags addr mem = some (s', r)) :
    ∃ o, vfsOpenVnode s.vfs s.openFiles.sched.tp path (creates flags) = some (s'.vfs, o) ∧
      sysOpen s.openFiles (o.map addr) flags mem = some (s'.openFiles, r) := by
  rw [FileSystem.sysOpen, Option.bind_eq_bind, Option.bind_eq_some_iff] at h
  obtain ⟨⟨vfs, o⟩, hopen, h⟩ := h
  rw [Option.bind_eq_bind, Option.bind_eq_some_iff] at h
  obtain ⟨⟨openFiles, r'⟩, hsys, h⟩ := h
  cases h
  exact ⟨o, hopen, hsys⟩

theorem SystemStep.inv (h : VfsInv s.vfs) (hstep : SystemStep s s') : VfsInv s'.vfs := by
  obtain ⟨op, -, hexec⟩ := hstep
  cases op with
  | «namespace» op =>
    obtain ⟨vfs, hvfs, rfl⟩ := Option.map_eq_some_iff.1 hexec
    exact (exec_step h hvfs).inv
  | files op =>
    obtain ⟨openFiles, -, rfl⟩ := Option.map_eq_some_iff.1 hexec
    exact h
  | sysOpen path flags addr mem =>
    obtain ⟨⟨s₁, r⟩, hopen, rfl⟩ := Option.map_eq_some_iff.1 hexec
    obtain ⟨o, hvfs, -⟩ := sysOpen_some hopen
    have hexec : s.vfs.exec (.open s.openFiles.sched.tp path (creates flags)) = some s₁.vfs := by
      rw [Vfs.exec, hvfs]
      rfl
    exact (exec_step h hexec).inv

theorem SystemReachable.inv (h : SystemReachable s) : VfsInv s.vfs := by
  obtain ⟨initrd, mem, -, hrun⟩ := h
  induction hrun with
  | refl => exact rootfs_inv initrd
  | tail _ hstep ih => exact hstep.inv ih

/-! ## The open files -/

/-- `sys_open` fails without an effect on the open files, or it takes a free descriptor. -/
theorem sysOpen_cases {s s' : OpenFiles} {vnode : Option Addr} {r : ℤ} (hmem : s.files mem = none)
    (h : sysOpen s vnode flags mem = some (s', r)) :
    (r = -1 ∧ s' = s ∧ (vnode = none ∨ freeFd (s.fdt s.sched.tp) = none)) ∨
      (0 ≤ r ∧ vnode ≠ none ∧ freeFd (s.fdt s.sched.tp) ≠ none) := by
  rw [sysOpen, Option.bind_eq_bind, Option.bind_eq_some_iff] at h
  obtain ⟨⟨files, o⟩, hopen, h⟩ := h
  cases vnode with
  | none =>
    cases hopen
    cases h
    exact .inl ⟨rfl, rfl, .inl rfl⟩
  | some v =>
    rw [vfsOpen] at hopen
    split at hopen
    · cases hopen
    · cases hopen
      cases hfd : freeFd (s.fdt s.sched.tp) with
      | some i =>
        simp only [hfd] at h
        cases h
        exact .inr ⟨Int.natCast_nonneg _, Option.some_ne_none v, Option.some_ne_none i⟩
      | none =>
        simp only [hfd] at h
        rw [Option.bind_eq_bind, Option.bind_eq_some_iff] at h
        obtain ⟨files', hclose, h⟩ := h
        cases h
        refine .inl ⟨rfl, ?_, .inr rfl⟩
        have hfiles : files' = s.files := by
          rw [vfsClose, release, Function.update_self, Option.map_some, Option.some_inj] at hclose
          rw [← hclose]
          simp only [refCounter, Int.sub_self, lt_irrefl, if_false, Function.update_idem]
          rw [← hmem, Function.update_eq_self]
        rw [hfiles]

/-! ## The namespace -/

/-- What `vfs_open` does: it adds a vnode where the path does not resolve and its parent takes it,
and otherwise nothing. -/
theorem vfsOpenVnode_cases {s s' : Vfs} {cur : Addr} {creat : Bool} {o : Option ℕ} (h : VfsInv s)
    (hopen : vfsOpenVnode s cur path creat = some (s', o)) :
    (Grows s s' ∧ ¬ (creat = true ∧ VfsOp.adds s (.open cur path true) ≠ none)) ∨
      (o ≠ none ∧ ¬ Grows s s' ∧ creat = true ∧ VfsOp.adds s (.open cur path true) ≠ none) := by
  rw [vfsOpenVnode, Option.bind_eq_bind, Option.bind_eq_some_iff] at hopen
  obtain ⟨⟨s₁, o₁⟩, hlook, hopen⟩ := hopen
  obtain ⟨hinv, hgrow, -⟩ := vfsLookup_some h hlook
  cases o₁ with
  | some v =>
    cases hopen
    exact .inl ⟨hgrow, fun hadds => hadds.2 (by simp [VfsOp.adds, hlook])⟩
  | none =>
    have hadds : VfsOp.adds s (.open cur path true) = addsAt s₁ cur path := by
      simp [VfsOp.adds, hlook]
    rw [hadds]
    cases creat with
    | false =>
      cases hopen
      refine .inl ⟨hgrow, ?_⟩
      rintro ⟨hc, -⟩
      cases hc
    | true =>
      rcases addAt_cases hinv hopen with ⟨-, hgrow', -, hnone⟩ |
        ⟨d, c, s₂, D, dv, inode, i, -, hlook', hsome, hdv, -, hint, -, hi, ho, rfl⟩
      · exact .inl ⟨hgrow.trans hgrow', fun hc => hc.2 hnone⟩
      · refine .inr ⟨ho ▸ Option.some_ne_none _, fun hg => ?_, rfl,
          hsome ▸ Option.some_ne_none _⟩
        obtain ⟨-, hgrow₂, -⟩ := vfsLookup_some hinv hlook'
        have hold : s.vnodes[D]? = some dv := by
          rcases (hgrow.trans hgrow₂).cases hdv with hold | ⟨-, -, hfs⟩
          · exact hold
          · rw [hint] at hfs
            cases hfs
        have hat := addEntry_internalAt inode i .fsFile (c.take 31)
          (List.getElem?_eq_some_iff.1 hdv).1 D
        rw [if_pos rfl, Vfs.internalAt, hg.getElem? hold, Option.map_some, hint, Option.some_inj,
          Internal.tmpfs.injEq] at hat
        have hself := inode.withEntry_self i s₂.vnodes.length
        rw [← hat, hi] at hself
        cases hself

/-! ## The result -/

/-- The namespace (up to the vnodes that a lookup makes for devices), the descriptors of the thread
and every open file are as before. -/
structure Untouched (s s' : FileSystem) : Prop where
  vfs : Grows s.vfs s'.vfs
  fdt : s'.openFiles.fdt s.openFiles.sched.tp = s.openFiles.fdt s.openFiles.sched.tp
  files : ∀ f x, s.openFiles.files f = some x → s'.openFiles.files f = some x

/-- The path does not resolve, `O_CREAT` makes a file there, and no descriptor is free for it. -/
def Strands (s : FileSystem) (path : List Byte) (flags : BitVec 32) : Prop :=
  creates flags = true ∧
    VfsOp.adds s.vfs (.open s.openFiles.sched.tp path true) ≠ none ∧
    freeFd (s.openFiles.fdt s.openFiles.sched.tp) = none

/-- **Main.** In every state of every run, and for every path and flags: where `sys_open` answers
`-1`, everything is as before, exactly if it has not created a file for which there is no free
descriptor. -/
theorem open_failure_iff (s : FileSystem) (h : SystemReachable s) (path : List Byte)
    (flags : BitVec 32) (addr : ℕ → Addr) (mem : Addr) (hmem : s.openFiles.files mem = none)
    (s' : FileSystem) (r : ℤ) (hopen : s.sysOpen path flags addr mem = some (s', r)) :
    (r = -1 → Untouched s s') ↔ ¬ Strands s path flags := by
  obtain ⟨o, hvfs, hsys⟩ := sysOpen_some hopen
  rcases vfsOpenVnode_cases h.inv hvfs with ⟨hgrow, hno⟩ | ⟨ho, hgrow, hcreat, hadds⟩
  · apply iff_of_true
    · intro hr
      rcases sysOpen_cases hmem hsys with ⟨-, heq, -⟩ | ⟨hpos, -⟩
      · exact ⟨hgrow, by rw [heq], fun f x hx => heq ▸ hx⟩
      · omega
    · exact fun hs => hno ⟨hs.1, hs.2.1⟩
  · rcases sysOpen_cases hmem hsys with ⟨hr, -, hnone | hfd⟩ | ⟨hpos, -, hfd⟩
    · exact absurd (Option.map_eq_none_iff.1 hnone) ho
    · exact iff_of_false (fun hall => hgrow (hall hr).vfs) (not_not.2 ⟨hcreat, hadds, hfd⟩)
    · apply iff_of_true
      · intro hr
        omega
      · exact fun hs => hfd hs.2.2

/-- The system after it was started. -/
def FileSystem.booted : FileSystem := ⟨Vfs.rootfs none, .booted 0x1000⟩

theorem booted_reachable : SystemReachable .booted := ⟨none, 0x1000, by decide, .refl⟩

/-- A file that does not exist is opened without `O_CREAT`. -/
theorem open_failure_iff_missing : ∃ s', FileSystem.booted.sysOpen (cstr "/a") 0 (fun _ => 0x9000)
    0x8000 = some (s', -1) ∧ Untouched .booted s' := by
  have hopen : (FileSystem.booted.sysOpen (cstr "/a") 0 (fun _ => 0x9000) 0x8000).map Prod.snd =
      some (-1) := by decide
  obtain ⟨⟨s', _⟩, hopen, rfl⟩ := Option.map_eq_some_iff.1 hopen
  refine ⟨s', hopen, ?_⟩
  apply (open_failure_iff .booted booted_reachable (cstr "/a") 0 (fun _ => 0x9000) 0x8000 rfl s'
    (-1) hopen).2 _ rfl
  exact fun hs => absurd hs.1 (by decide)

/-- The system after the current thread has opened `n` files. -/
def opened : ℕ → FileSystem
  | 0 => .booted
  | n + 1 =>
    ((opened n).exec (.files (.sysOpen (some 0x9000) 0 (0x8000 + BitVec.ofNat 64 n)))).getD .booted

theorem opened_reachable {n : ℕ} (hn : n ≤ 16) : SystemReachable (opened n) := by
  have hfree : ∀ n < 16, (opened n).openFiles.files (0x8000 + BitVec.ofNat 64 n) = none ∧
      ((opened n).exec
        (.files (.sysOpen (some 0x9000) 0 (0x8000 + BitVec.ofNat 64 n)))).isSome := by
    decide +kernel
  induction n with
  | zero => exact booted_reachable
  | succ n ih =>
    obtain ⟨hmem, hsome⟩ := hfree n hn
    obtain ⟨s', hs'⟩ := Option.isSome_iff_exists.1 hsome
    obtain ⟨initrd, mem, hne, hrun⟩ := ih (by omega)
    refine ⟨initrd, mem, hne, hrun.tail
      ⟨.files (.sysOpen (some 0x9000) 0 (0x8000 + BitVec.ofNat 64 n)), hmem, ?_⟩⟩
    rw [opened, hs']
    rfl

/-- The 17th file is created, although there is no descriptor for it. -/
theorem not_open_failure : ∃ s s', SystemReachable s ∧ s.openFiles.files 0x9000 = none ∧
    s.sysOpen (cstr "/a") 0x40 (fun _ => 0xa000) 0x9000 = some (s', -1) ∧ ¬ Untouched s s' := by
  have hopen : ((opened 16).sysOpen (cstr "/a") 0x40 (fun _ => 0xa000) 0x9000).map Prod.snd =
      some (-1) := by decide +kernel
  obtain ⟨⟨s', _⟩, hopen, rfl⟩ := Option.map_eq_some_iff.1 hopen
  have hreach := opened_reachable le_rfl
  refine ⟨opened 16, s', hreach, by decide +kernel, hopen, fun hu => ?_⟩
  obtain ⟨o, hvfs, -⟩ := sysOpen_some hopen
  have hadds : (VfsOp.adds (opened 16).vfs
      (.open (opened 16).openFiles.sched.tp (cstr "/a") true)).isSome := by decide +kernel
  rcases vfsOpenVnode_cases hreach.inv hvfs with ⟨-, hno⟩ | ⟨-, hgrow, -⟩
  · exact hno ⟨by decide, Option.isSome_iff_ne_none.1 hadds⟩
  · exact hgrow hu.vfs

end BareMetalOS.Files
