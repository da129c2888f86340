import BareMetalOS.Foundations.RefCount
import BareMetalOS.Sched.Runs

/-!
# Open files

The file handles of `src/vfs.c` and the descriptor tables of the threads: `vfs_open` and
`vfs_close`, the system calls `sys_open`, `sys_close` and `sys_exit`, and what `sys_fork`,
`thread_create` and `kill_zombies` do to the table of a thread. The descriptor table is part of the
thread struct and is kept here by the address of the struct; a pointer `0` in it is `NULL`.

A function fails (`none`) where the source would access a handle that has been freed, or one that
could not be allocated. Whether a path has a vnode, and what `allocate` answers, are arguments. All
three file systems open and close a handle with result `0`.
-/

namespace BareMetalOS.Files

open Memory (Addr)
open Sched (State Op)

/-- `struct file`, without its operations, which are those of its vnode. -/
structure File where
  vnode : Addr
  fPos : BitVec 64
  flags : BitVec 32
  refCount : ℤ
  deriving DecidableEq, Repr

/-- The field `ref_count`. -/
def refCounter : Counter File where
  get := File.refCount
  set x n := { x with refCount := n }
  get_set _ _ := rfl

/-- The array `fdt` of a thread. -/
abbrev Fdt := Fin 16 → Addr

/-- `vfs_open`, where the path has the vnode `vnode` (found or created) and `allocate` answers
`mem`. Gives the handle, or `none` for the result `-1`. -/
def vfsOpen (files : Addr → Option File) (vnode : Option Addr) (flags : BitVec 32) (mem : Addr) :
    Option ((Addr → Option File) × Option Addr) :=
  match vnode with
  | none => some (files, none)
  | some v =>
    if mem = 0 then none
    else some (Function.update files mem (some ⟨v, 0, flags, 1⟩), some mem)

/-- `vfs_close`. -/
def vfsClose (files : Addr → Option File) (f : Addr) : Option (Addr → Option File) :=
  release refCounter files f

/-- `for (i = 0; i < 16; i++) if (fdt[i]) fdt[i]->ref_count++;` -/
def retainFds (files : Addr → Option File) (fdt : Fdt) : Option (Addr → Option File) :=
  retainAll refCounter 0 files (List.ofFn fdt)

/-- `for (i = 0; i < 16; i++) if (fdt[i]) vfs_close(fdt[i]);` -/
def closeFds (files : Addr → Option File) (fdt : Fdt) : Option (Addr → Option File) :=
  releaseAll refCounter 0 files (List.ofFn fdt)

/-- The thread system with the descriptor tables and the file handles. -/
structure OpenFiles where
  sched : State
  /-- `fdt`, by the address of the thread struct -/
  fdt : Addr → Fdt
  files : Addr → Option File
  /-- handles that kernel code got from `vfs_open` and has not closed -/
  handles : List Addr

/-- The first `i` with `fdt[i] == NULL`. -/
def freeFd (fdt : Fdt) : Option (Fin 16) := (List.finRange 16).find? fun i => fdt i = 0

/-- `sys_open`, with its result. -/
def sysOpen (s : OpenFiles) (vnode : Option Addr) (flags : BitVec 32) (mem : Addr) :
    Option (OpenFiles × ℤ) := do
  let (files, f) ← vfsOpen s.files vnode flags mem
  match f with
  | none => return ({ s with files := files }, -1)
  | some f =>
    match freeFd (s.fdt s.sched.tp) with
    | some i =>
      let fdt := Function.update (s.fdt s.sched.tp) i f
      return ({ s with files := files, fdt := Function.update s.fdt s.sched.tp fdt }, i.val)
    | none =>
      let files ← vfsClose files f
      return ({ s with files := files }, -1)

theorem toNat_fd_lt {fd : ℤ} (h : 0 ≤ fd ∧ fd < 16) : fd.toNat < 16 := by
  omega

/-- `sys_close`, with its result. -/
def sysClose (s : OpenFiles) (fd : ℤ) : Option (OpenFiles × ℤ) :=
  if h : 0 ≤ fd ∧ fd < 16 then
    let i : Fin 16 := ⟨fd.toNat, toNat_fd_lt h⟩
    if s.fdt s.sched.tp i = 0 then some (s, -1)
    else do
      let files ← vfsClose s.files (s.fdt s.sched.tp i)
      let fdt := Function.update (s.fdt s.sched.tp) i 0
      return ({ s with files := files, fdt := Function.update s.fdt s.sched.tp fdt }, 0)
  else some (s, -1)

/-- `sys_exit`. -/
def sysExit (s : OpenFiles) : Option OpenFiles := do
  let files ← closeFds s.files (s.fdt s.sched.tp)
  let sched ← Sched.threadExit s.sched
  return { s with
    sched := sched
    files := files
    fdt := Function.update s.fdt s.sched.tp fun _ => 0 }

/-- The part of `thread_create` and `sys_fork` about files: the new thread at `mem` gets the table
of the current one. -/
def inheritFds (s : OpenFiles) (mem : Addr) : Option OpenFiles := do
  let files ← retainFds s.files (s.fdt s.sched.tp)
  return { s with files := files, fdt := Function.update s.fdt mem (s.fdt s.sched.tp) }

/-- `kill_zombies` closes the tables of the threads it frees, one after the other. -/
def closeZombies (fdt : Addr → Fdt) : (Addr → Option File) → List Addr →
    Option (Addr → Option File)
  | files, [] => some files
  | files, a :: gone => do
    let files ← closeFds files (fdt a)
    closeZombies fdt files gone

/-- `thread_create`. -/
def threadCreate (s : OpenFiles) (mem : Addr) : Option OpenFiles := do
  let sched ← Sched.threadCreate s.sched mem
  (if mem = 0 then some s else inheritFds s mem).map fun s => { s with sched := sched }

/-- `sys_fork`. -/
def sysFork (s : OpenFiles) (mem : Addr) (copied : Bool) : Option OpenFiles := do
  let r ← Sched.sysFork s.sched mem copied
  (if mem = 0 ∨ copied = false then some s else inheritFds s mem).map fun s =>
    { s with sched := r.1 }

/-- `kill_zombies`. -/
def killZombies (s : OpenFiles) : Option OpenFiles := do
  let r ← Sched.killZombies s.sched
  let files ← closeZombies s.fdt s.files r.2
  return { s with sched := r.1, files := files }

/-- An operation of the thread system that does not touch the files. -/
def threadOp (s : OpenFiles) (op : Op) : Option OpenFiles :=
  (Sched.exec s.sched op).map fun sched => { s with sched := sched }

/-- Kernel code opens a file for itself. -/
def openHandle (s : OpenFiles) (vnode : Option Addr) (flags : BitVec 32) (mem : Addr) :
    Option OpenFiles :=
  (vfsOpen s.files vnode flags mem).map fun r =>
    { s with files := r.1, handles := r.2.toList ++ s.handles }

/-- Kernel code closes a file that it has opened. -/
def closeHandle (s : OpenFiles) (f : Addr) : Option OpenFiles :=
  (vfsClose s.files f).map fun files => { s with files := files, handles := s.handles.erase f }

/-- An operation of a run. -/
inductive FileOp
  | thread (op : Op)
  | sysExit
  | sysOpen (vnode : Option Addr) (flags : BitVec 32) (mem : Addr)
  | sysClose (fd : ℤ)
  | openHandle (vnode : Option Addr) (flags : BitVec 32) (mem : Addr)
  | closeHandle (f : Addr)

/-- The operation on the state. -/
def OpenFiles.exec (s : OpenFiles) : FileOp → Option OpenFiles
  | .thread (.threadCreate mem) => Files.threadCreate s mem
  | .thread (.sysFork mem copied) => Files.sysFork s mem copied
  | .thread .killZombies => Files.killZombies s
  | .thread op => threadOp s op
  | .sysExit => Files.sysExit s
  | .sysOpen vnode flags mem => (Files.sysOpen s vnode flags mem).map Prod.fst
  | .sysClose fd => (Files.sysClose s fd).map Prod.fst
  | .openHandle vnode flags mem => Files.openHandle s vnode flags mem
  | .closeHandle f => Files.closeHandle s f

/-- What the callers promise, as in `Sched.Allowed`; a new handle is none of those alive, and kernel
code closes only what it has opened. -/
def FileAllowed (s : OpenFiles) : FileOp → Prop
  | .thread op => Sched.Allowed s.sched op
  | .sysExit => Sched.Allowed s.sched .threadExit
  | .sysOpen _ _ mem | .openHandle _ _ mem => s.files mem = none
  | .closeHandle f => f ∈ s.handles
  | .sysClose _ => True

/-- One operation of a run. -/
def FileStep (s s' : OpenFiles) : Prop := ∃ op, FileAllowed s op ∧ s.exec op = some s'

/-- The system after `init_thread_system`: no file is open. -/
def OpenFiles.booted (mem : Addr) : OpenFiles where
  sched := .booted mem
  fdt := fun _ _ => 0
  files := fun _ => none
  handles := []

/-- The states of the runs that start with `init_thread_system`. -/
def FileReachable (s : OpenFiles) : Prop :=
  ∃ mem, mem ≠ 0 ∧ Relation.ReflTransGen FileStep (.booted mem) s

end BareMetalOS.Files
