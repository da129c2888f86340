import BareMetalOS.Files.Checked

/-!
# Absent operations and absent roots

The devfs has neither `create` nor `mkdir`, and the ramfs sets up no root without a ramdisk; neither
is checked. So `vfs_open` with `O_CREAT` and `vfs_mkdir` call an absent operation exactly when the
parent of the path is a vnode of the devfs, and `vfs_mount` uses an absent root exactly when it
mounts the ramfs where there is no ramdisk (`dispatches_iff`).
-/

namespace BareMetalOS.Files

open Memory (Addr)
open Boot (Byte cstr)

variable {s s' s₀ s₁ : Vfs} {cur : Addr} {path : List Byte} {type : FsnodeType}
  {stack : Stack} {v : Vnode}

/-! ## Calls -/

/-- A call of `vfs_open`, `vfs_mkdir` or `vfs_mount` by the thread `cur`. -/
inductive NamespaceCall
  | open (cur : Addr) (path : List Byte) (creat : Bool)
  | mkdir (cur : Addr) (path : List Byte)
  | mount (cur : Addr) (target : List Byte) (fs : Option Filesystem)

namespace NamespaceCall

/-- The path of a call. -/
def pathname : NamespaceCall → List Byte
  | .open _ path _ | .mkdir _ path | .mount _ path _ => path

/-- Whether a vnode was found or added. -/
def succeeded (r : Except Fault (Vfs × Option ℕ)) : Except Fault (Vfs × Bool) := do
  let (s, o) ← r
  return (s, o.isSome)

/-- The call in a state, and whether it succeeds. -/
def exec (s : Vfs) (stack : Stack) : NamespaceCall → Except Fault (Vfs × Bool)
  | .open cur path creat => succeeded (vfsOpenVnodeIn s cur path creat stack)
  | .mkdir cur path => succeeded (vfsMkdirIn s cur path stack)
  | .mount cur target fs => vfsMountIn s cur target fs stack

end NamespaceCall

/-- The parent of the path is this vnode. -/
def ParentIs (s : Vfs) (cur : Addr) (path : List Byte) (v : Vnode) : Prop :=
  ∃ d c s₁ dir, getParentAndChild path = some (d, c) ∧ vfsLookup s cur d = some (s₁, some dir) ∧
    s₁.vnodes[dir]? = some v

/-- The path does not resolve, and then its parent is this vnode. -/
def MissingIn (s : Vfs) (cur : Addr) (path : List Byte) (v : Vnode) : Prop :=
  ∃ s₁, vfsLookup s cur path = some (s₁, none) ∧ ParentIs s₁ cur path v

/-- The path of a mount resolves, and the file system cannot set up a root. -/
def SetupFails (s : Vfs) (cur : Addr) (target : List Byte) (fs : Option Filesystem) : Prop :=
  ∃ s₁ m f, vfsLookup s cur target = some (s₁, some m) ∧ fs = some f ∧ setupMount s₁ f = none

namespace NamespaceCall

/-- The file system does not support what the call asks of it. -/
def Unsupported (s : Vfs) : NamespaceCall → Prop
  | .open cur path creat => creat = true ∧ ∃ v, MissingIn s cur path v ∧ v.internal.fs ≠ .tmpfs
  | .mkdir cur path => ∃ v, ParentIs s cur path v ∧ v.internal.fs ≠ .tmpfs
  | .mount cur target fs => SetupFails s cur target fs

/-- The call uses nothing that is absent, and where the file system does not support what it asks,
it fails and leaves the namespace, up to the vnodes that a lookup makes for devices. -/
def Dispatches (s : Vfs) (call : NamespaceCall) : Prop :=
  ∀ stack, call.exec s stack ≠ .error .operation ∧ call.exec s stack ≠ .error .mountRoot ∧
    (call.Unsupported s → ∃ s', call.exec s stack = .ok (s', false) ∧ Grows s s')

/-- When what the call uses is there. -/
def Present (s : Vfs) : NamespaceCall → Prop
  | .open cur path creat => creat = true → ∀ v, MissingIn s cur path v → v.internal.fs ≠ .devfs
  | .mkdir cur path => ∀ v, ParentIs s cur path v → v.internal.fs ≠ .devfs
  | .mount cur target fs =>
    fs = some .ramfs → (∃ s₁ m, vfsLookup s cur target = some (s₁, some m)) → s.initrd.isSome

end NamespaceCall

/-! ## Adding a vnode -/

/-- What holds of a result that uses nothing absent. -/
def Handled (s : Vfs) (r : Except Fault (Vfs × Bool)) (unsupported : Prop) : Prop :=
  r ≠ .error .operation ∧ r ≠ .error .mountRoot ∧
    (unsupported → ∃ s', r = .ok (s', false) ∧ Grows s s')

open NamespaceCall in
/-- A vnode is added without the use of anything absent exactly when its parent is no vnode of the
devfs. -/
theorem addAtIn_handled_iff (h : VfsInv s) (hs : Grows s₀ s) (hnul : 0 ∉ path) (cur : Addr)
    (type : FsnodeType) (stack : Stack) : Handled s₀ (succeeded (addAtIn s cur type path stack))
        (∃ v, ParentIs s cur path v ∧ v.internal.fs ≠ .tmpfs) ↔
      ∀ v, ParentIs s cur path v → v.internal.fs ≠ .devfs := by
  rcases Nat.lt_or_ge 255 path.length with hlong | hshort
  · have hnone : ∀ v, ¬ ParentIs s cur path v := by
      rintro v ⟨d, c, s₁, dir, hpc, -⟩
      rw [getParentAndChild, if_pos hlong] at hpc
      cases hpc
    apply iff_of_true
    · rw [addAtIn_long hnul hlong]
      refine ⟨?_, ?_, fun hv => absurd hv.choose_spec.1 (hnone _)⟩
      · intro heq
        split at heq <;> cases heq
      · intro heq
        split at heq <;> cases heq
    · exact fun v hv => absurd hv (hnone v)
  · obtain ⟨d, c, s₁, o, hpc, hlook, heq⟩ := addAtIn_eq h hnul hshort cur type stack
    obtain ⟨-, hgrow, ho⟩ := vfsLookup_some h hlook
    rw [heq]
    cases o with
    | none =>
      have hnone : ∀ v, ¬ ParentIs s cur path v := by
        rintro v ⟨d', c', s₂, dir, hpc', hlook', -⟩
        cases hpc.symm.trans hpc'
        cases hlook.symm.trans hlook'
      apply iff_of_true
      · refine ⟨?_, ?_, fun hv => absurd hv.choose_spec.1 (hnone _)⟩
        · intro heq
          cases heq
        · intro heq
          cases heq
      · exact fun v hv => absurd hv (hnone v)
    | some dir =>
      obtain ⟨dv, hdv, -⟩ := ho dir rfl
      have hparent : ParentIs s cur path dv := ⟨d, c, s₁, dir, hpc, hlook, hdv⟩
      have honly : ∀ v, ParentIs s cur path v → v = dv := by
        rintro v ⟨d', c', s₂, dir', hpc', hlook', hv⟩
        cases hpc.symm.trans hpc'
        cases hlook.symm.trans hlook'
        exact Option.some.inj (hv.symm.trans hdv)
      rw [addUnder, ok_bind, vnodeAddIn, hdv, Option.map_some]
      cases hint : dv.internal with
      | tmpfs inode =>
        have hfs : dv.internal.fs = .tmpfs := by rw [hint, Internal.fs]
        dsimp only
        rw [ok_bind]
        apply iff_of_true
        · refine ⟨?_, ?_, ?_⟩
          · rcases tmpfsAdd s₁ dir inode type c with ⟨s₂, _ | new⟩ <;> intro heq <;> cases heq
          · rcases tmpfsAdd s₁ dir inode type c with ⟨s₂, _ | new⟩ <;> intro heq <;> cases heq
          · rintro ⟨v, hv, hne⟩
            exact absurd (honly v hv ▸ hfs) hne
        · intro v hv heq
          rw [honly v hv, hfs] at heq
          cases heq
      | ramfs type' name entries data size =>
        apply iff_of_true
        · refine ⟨?_, ?_, fun _ => ⟨s₁, rfl, hs.trans hgrow⟩⟩
          · intro heq
            cases heq
          · intro heq
            cases heq
        · intro v hv heq
          rw [honly v hv, hint] at heq
          cases heq
      | devfs name =>
        apply iff_of_false
        · exact fun hh => hh.1 rfl
        · intro hall
          apply hall dv hparent
          rw [hint, Internal.fs]

/-! ## Mounts -/

theorem setupMount_eq_none {fs : Filesystem} :
    setupMount s fs = none ↔ fs = .ramfs ∧ s.initrd = none := by
  cases fs <;> simp [setupMount]

/-- What `vfs_mount` does with the vnode that a lookup answered. -/
theorem vfsMountIn_eq (h : VfsInv s) (hnul : 0 ∉ path) (cur : Addr) (fs : Filesystem)
    (stack : Stack) : (vfsLookup s cur path = none ∧
        vfsMountIn s cur path (some fs) stack = .error (.index .component pathMax)) ∨
      (∃ s₁, vfsLookup s cur path = some (s₁, none) ∧
        vfsMountIn s cur path (some fs) stack = .ok (s₁, false)) ∨
      ∃ s₁ m, vfsLookup s cur path = some (s₁, some m) ∧
        (setupMount s₁ fs = none ∧ vfsMountIn s cur path (some fs) stack = .error .mountRoot ∨
          setupMount s₁ fs ≠ none ∧
            ∃ s', vfsMountIn s cur path (some fs) stack = .ok (s', true)) := by
  rw [vfsMountIn, vfsLookupIn_eq h cur hnul rfl]
  cases hlook : vfsLookup s cur path with
  | none => exact .inl ⟨rfl, rfl⟩
  | some r =>
    obtain ⟨s₁, o⟩ := r
    obtain ⟨-, -, ho⟩ := vfsLookup_some h hlook
    cases o with
    | none => exact .inr (.inl ⟨s₁, rfl, rfl⟩)
    | some m =>
      obtain ⟨mv, hmv, -⟩ := ho m rfl
      refine .inr (.inr ⟨s₁, m, rfl, ?_⟩)
      rw [checked, ok_bind]
      dsimp only
      rw [hmv, Fault.valid, ok_bind]
      cases setupMount s₁ fs with
      | none => exact .inl ⟨rfl, rfl⟩
      | some new => exact .inr ⟨Option.some_ne_none new, _, rfl⟩

/-- A mount is made without the use of an absent root exactly when there is a ramdisk where the
ramfs is mounted. -/
theorem vfsMountIn_handled_iff (h : VfsInv s) (hnul : 0 ∉ path) (cur : Addr)
    (fs : Option Filesystem) (stack : Stack) :
    Handled s (vfsMountIn s cur path fs stack) (SetupFails s cur path fs) ↔
      (fs = some .ramfs → (∃ s₁ m, vfsLookup s cur path = some (s₁, some m)) →
        s.initrd.isSome) := by
  cases fs with
  | none =>
    apply iff_of_true
    · refine ⟨fun heq => (nomatch heq), fun heq => (nomatch heq), ?_⟩
      rintro ⟨s₁, m, f, -, hf, -⟩
      cases hf
    · exact fun hf => nomatch hf
  | some fs =>
    rcases vfsMountIn_eq h hnul cur fs stack with ⟨hlook, heq⟩ | ⟨s₁, hlook, heq⟩ |
      ⟨s₁, m, hlook, ⟨hsetup, heq⟩ | ⟨hsetup, s', heq⟩⟩
    · rw [Handled, heq]
      apply iff_of_true
      · refine ⟨fun heq => (nomatch heq), fun heq => (nomatch heq), ?_⟩
        rintro ⟨s₁, m, f, hlook', -⟩
        cases hlook.symm.trans hlook'
      · rintro - ⟨s₁, m, hlook'⟩
        cases hlook.symm.trans hlook'
    · rw [Handled, heq]
      apply iff_of_true
      · refine ⟨fun heq => (nomatch heq), fun heq => (nomatch heq), ?_⟩
        rintro ⟨s₂, m, f, hlook', -⟩
        cases hlook.symm.trans hlook'
      · rintro - ⟨s₂, m, hlook'⟩
        cases hlook.symm.trans hlook'
    · obtain ⟨-, hgrow, -⟩ := vfsLookup_some h hlook
      rw [Handled, heq]
      apply iff_of_false
      · exact fun hh => hh.2.1 rfl
      · intro hall
        obtain ⟨rfl, hinitrd⟩ := setupMount_eq_none.1 hsetup
        have hsome := hall rfl ⟨s₁, m, hlook⟩
        rw [← hgrow.initrd, hinitrd] at hsome
        cases hsome
    · obtain ⟨-, hgrow, -⟩ := vfsLookup_some h hlook
      rw [Handled, heq]
      apply iff_of_true
      · refine ⟨fun heq => (nomatch heq), fun heq => (nomatch heq), ?_⟩
        rintro ⟨s₂, m', f, hlook', hf, hnone⟩
        cases hlook.symm.trans hlook'
        cases hf
        exact absurd hnone hsetup
      · rintro hf -
        cases hf
        rw [← hgrow.initrd, Option.isSome_iff_ne_none]
        exact fun hnone => hsetup (setupMount_eq_none.2 ⟨rfl, hnone⟩)

/-! ## The result -/

/-- What `Dispatches` says of a result. -/
theorem NamespaceCall.dispatches_iff_of {call : NamespaceCall} {P : Prop}
    (h : ∀ stack, Handled s (call.exec s stack) (call.Unsupported s) ↔ P) :
    call.Dispatches s ↔ P :=
  ⟨fun hd => (h fun _ _ _ => 0).1 (hd _), fun hP stack => (h stack).2 hP⟩

/-- **Main.** In every state that a run from `vfs_init` reaches, wherever the file systems are
mounted and whether or not there is a ramdisk, a call uses no absent operation and no absent root,
and fails where a file system does not support it, exactly when what it uses is there: `vfs_mkdir`,
and `vfs_open` where it creates, find a parent that is no vnode of the devfs, and `vfs_mount` of the
ramfs finds a ramdisk. -/
theorem dispatches_iff (initrd : Option RamfsInode) (ops : List VfsOp) (s : Vfs)
    (hrun : (Vfs.rootfs initrd).run ops = some s) (call : NamespaceCall)
    (hnul : 0 ∉ call.pathname) : call.Dispatches s ↔ call.Present s := by
  have h := run_inv (rootfs_inv initrd) hrun
  cases call with
  | «open» cur path creat =>
    change 0 ∉ path at hnul
    apply NamespaceCall.dispatches_iff_of
    intro stack
    rw [NamespaceCall.exec, vfsOpenVnodeIn_eq h hnul]
    cases hlook : vfsLookup s cur path with
    | none =>
      have hfound : ∀ v, ¬ MissingIn s cur path v := by
        rintro v ⟨s₁, hlook', -⟩
        cases hlook.symm.trans hlook'
      apply iff_of_true
      · exact ⟨fun heq => (nomatch heq), fun heq => (nomatch heq),
          fun ⟨_, v, hv, _⟩ => absurd hv (hfound v)⟩
      · exact fun _ v hv => absurd hv (hfound v)
    | some r =>
      obtain ⟨s₁, o⟩ := r
      obtain ⟨hinv, hgrow, -⟩ := vfsLookup_some h hlook
      cases o with
      | some w =>
        have hfound : ∀ v, ¬ MissingIn s cur path v := by
          rintro v ⟨s₂, hlook', -⟩
          cases hlook.symm.trans hlook'
        apply iff_of_true
        · exact ⟨fun heq => (nomatch heq), fun heq => (nomatch heq),
            fun ⟨_, v, hv, _⟩ => absurd hv (hfound v)⟩
        · exact fun _ v hv => absurd hv (hfound v)
      | none =>
        cases creat with
        | false =>
          apply iff_of_true
          · exact ⟨fun heq => (nomatch heq), fun heq => (nomatch heq), fun hu => nomatch hu.1⟩
          · exact fun heq => nomatch heq
        | true =>
          have hmissing : ∀ v, MissingIn s cur path v ↔ ParentIs s₁ cur path v := by
            intro v
            constructor
            · rintro ⟨s₂, hlook', hv⟩
              cases hlook.symm.trans hlook'
              exact hv
            · exact fun hv => ⟨s₁, hlook, hv⟩
          have hadd := addAtIn_handled_iff hinv hgrow hnul cur .fsFile stack
          simp only [NamespaceCall.Unsupported, NamespaceCall.Present, hmissing, true_and,
            true_imp_iff, if_true]
          exact hadd
  | mkdir cur path =>
    exact NamespaceCall.dispatches_iff_of fun stack =>
      addAtIn_handled_iff h (Grows.refl s) hnul cur .fsDir stack
  | mount cur target fs =>
    exact NamespaceCall.dispatches_iff_of fun stack => vfsMountIn_handled_iff h hnul cur fs stack

/-- A mount of the tmpfs on the root. -/
theorem dispatches_iff_tmpfs :
    (NamespaceCall.mount 0 (cstr "/") (some .tmpfs)).Dispatches (Vfs.rootfs none) :=
  (dispatches_iff none [] (Vfs.rootfs none) rfl (.mount 0 (cstr "/") (some .tmpfs)) (by decide)).2
    (fun heq => nomatch heq)

/-- The devfs on `/dev`. -/
def devMounted : List VfsOp := [.mkdir 0 (cstr "/dev"), .mount 0 (cstr "/dev") (some .devfs)]

/-- A directory below `/dev`, and the ramfs without a ramdisk. -/
theorem not_dispatches : ∃ s, (Vfs.rootfs none).run devMounted = some s ∧
    ¬ (NamespaceCall.mkdir 0 (cstr "/dev/x")).Dispatches s ∧
    ¬ (NamespaceCall.mount 0 (cstr "/") (some .ramfs)).Dispatches s := by
  obtain ⟨s, hs⟩ : ∃ s, (Vfs.rootfs none).run devMounted = some s :=
    Option.isSome_iff_exists.1 (by decide +kernel)
  have h := run_inv (rootfs_inv none) hs
  refine ⟨s, hs, fun hd => ?_, fun hd => ?_⟩
  · have hpc : getParentAndChild (cstr "/dev/x") = some (cstr "/dev", cstr "x") := by
      decide +kernel
    have hdev : ((Vfs.rootfs none).run devMounted).bind (fun s => (vfsLookup s 0 (cstr "/dev")).bind
        fun r => r.2.bind fun d => (r.1.vnodes[d]?).map fun v => v.internal.fs) = some .devfs := by
      decide +kernel
    rw [hs, Option.bind_some, Option.bind_eq_some_iff] at hdev
    obtain ⟨⟨s₁, o⟩, hlook, hdev⟩ := hdev
    obtain ⟨d, rfl, hdev⟩ := Option.bind_eq_some_iff.1 hdev
    obtain ⟨v, hv, hfs⟩ := Option.map_eq_some_iff.1 hdev
    have hall := (addAtIn_handled_iff h (Grows.refl s) (by decide) 0 .fsDir _).1
      (hd fun _ _ _ => 0)
    exact hall v ⟨_, _, s₁, d, hpc, hlook, hv⟩ hfs
  · have hroot : ((Vfs.rootfs none).run devMounted).bind (fun s =>
        (vfsLookup s 0 (cstr "/")).bind fun r => r.2.map fun _ => s.initrd.isSome) =
        some false := by
      decide +kernel
    rw [hs, Option.bind_some, Option.bind_eq_some_iff] at hroot
    obtain ⟨⟨s₁, o⟩, hlook, hroot⟩ := hroot
    obtain ⟨m, rfl, hinitrd⟩ := Option.map_eq_some_iff.1 hroot
    have hall := (vfsMountIn_handled_iff h (by decide) 0 (some .ramfs) _).1 (hd fun _ _ _ => 0)
    rw [hall rfl ⟨s₁, m, hlook⟩] at hinitrd
    cases hinitrd

end BareMetalOS.Files
