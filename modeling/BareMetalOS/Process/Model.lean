import BareMetalOS.Files.OpenFiles
import BareMetalOS.Mmu.Copy
import BareMetalOS.Mmu.Vma
import BareMetalOS.Trap.Machine

/-!
# User processes

The system calls and traps that work on the memory of user processes: page faults (`do_trap`),
`sys_fork`, `sys_exec`, `sys_mmap`, the delivery of signals and the return from it, and what
`kill_zombies` frees. A process is a thread with a page table of its own; which one runs is left
open, so that a run is any interleaving of their steps. Interrupts of the kernel are not part of it,
and user code keeps the register `tp` (the module `Trap.Current` is about user code that does not).

Where the source goes on with a `NULL` pointer that it has not checked, the functions here fail
(`none`). The contents of kernel stacks, chunks and structs are not in the memory of `Vm`.
-/

namespace BareMetalOS.Process

open Memory (Addr allocate)
open Mmu Sched Trap Files

/-- Where a process is between two steps: in user mode, in a system call or an interrupt, or about
to call `check_signals`. -/
inductive Mode
  | user
  | kernel
  | signals
  deriving DecidableEq

/-- A thread with its memory, its files and its trap frame. -/
structure Proc where
  /-- the address of the `struct thread` -/
  addr : Addr
  /-- the fields of the struct that are not about memory -/
  task : Thread
  kernelStack : Addr
  pgd : Addr
  vmas : List VmArea
  signalStackPage : Addr
  signalStackVaddr : Addr
  fdt : Fdt
  regs : PtRegs
  mode : Mode

/-- The bytes of `sigreturn_stub`: their number, and a page that ends with them. -/
structure Stub where
  size : BitVec 64
  page : Fin 512 → BitVec 64

/-- The processes, the files and the memory. -/
structure Sys where
  vm : Vm
  /-- `kernel_pgd` -/
  kernelPgd : Addr
  /-- the processes that have not been reaped -/
  procs : List Proc
  /-- `nr_threads` -/
  nrThreads : ℤ
  files : Addr → Option File
  /-- the blocks that the rest of the kernel has allocated, with their sizes -/
  held : List (Addr × ℕ)
  stub : Stub

/-- `sizeof(struct file)`. -/
def sizeofFile : ℕ := 32
/-- `sizeof(thread)`. -/
def sizeofThread : ℕ := 912
/-- `KERNEL_STACK_SIZE`. -/
def kernelStackSize : ℕ := 0x2000
/-- `USER_STACK_SIZE`. -/
def userStackSize : BitVec 64 := 0x2000
/-- `stack_top`. -/
def stackTop : BitVec 64 := 0x4000000000

/-- `allocate(size)`. -/
def allocBytes (s : Vm) (size : ℕ) : Addr × Vm :=
  ((allocate s.alloc size).1, { s with alloc := (allocate s.alloc size).2 })

/-- The loop that frees the list of regions. -/
def freeVmas (s : Vm) (vmas : List VmArea) : Vm := s.freeAll (vmas.map VmArea.node)

/-! ## Page faults -/

/-- The byte at an address. -/
def loadByte (m : Mem) (a : Addr) : BitVec 8 :=
  (m (a &&& ~~~4095) (vpn a 3)).extractLsb' (8 * (a.toNat % 8)) 8

/-- A word made of its bytes. -/
def wordOf (byte : Fin 8 → BitVec 8) : BitVec 64 :=
  (List.finRange 8).foldl (fun w j => w ||| (byte j).setWidth 64 <<< (8 * j.val)) 0

/-- The page of a region with the offset `off`: zeros, with the bytes of the file that belong to
it. -/
def filePage (m : Mem) (v : VmArea) (off : BitVec 64) (i : Fin 512) : BitVec 64 :=
  wordOf fun j =>
    let at' : ℕ := 8 * i.val + j.val
    if v.fileData ≠ 0 ∧ off < v.fileSize ∧ at' < (v.fileSize - off).toNat then
      loadByte m (v.fileData + off + BitVec.ofNat 64 at')
    else 0

/-- The region of an address. -/
def findVma (vmas : List VmArea) (badaddr : Addr) : Option VmArea :=
  vmas.find? fun v => v.start ≤ badaddr ∧ badaddr < v.stop

/-- The entry of an address, where its tables are there. -/
def entryAt (s : Vm) (pgd badaddr : Addr) : Option (Addr × Fin 512) :=
  (pagewalk s pgd badaddr false).2

/-- A store fault on a read-only page of a writable region. -/
def isCow (s : Vm) (pgd : Addr) (v : VmArea) (cause badaddr : BitVec 64) : Bool :=
  cause = 15 ∧ HasFlag v.prot protWrite ∧ (entryAt s pgd badaddr).any fun e =>
    HasFlag (s.mem e.1 e.2) pteV ∧ ¬ HasFlag (s.mem e.1 e.2) pteW

/-- The copy-on-write of a page. -/
def cow (s : Vm) (e : Addr × Fin 512) : Vm :=
  let pte := s.mem e.1 e.2
  let oldPage := frameAt pte
  if Memory.getPageRef s.alloc oldPage > 1 then
    let (newPage, s) := s.allocPage
    if newPage = 0 then s
    else
      let s := s.setPage newPage (s.mem oldPage)
      let s := s.store e.1 e.2 (entryOf newPage (s.mem e.1 e.2 &&& 0x3ff ||| pteW))
      s.freePage oldPage
  else s.store e.1 e.2 (pte ||| pteW)

/-- The access is permitted by the region. -/
def permissionOk (v : VmArea) (cause : BitVec 64) : Bool :=
  ¬ (cause = 12 ∧ ¬ HasFlag v.prot protExec) ∧ ¬ (cause = 13 ∧ ¬ HasFlag v.prot protRead) ∧
    ¬ (cause = 15 ∧ ¬ HasFlag v.prot protWrite)

/-- The page fault of `do_trap`; the flag is `handled`. -/
def pageFault (s : Vm) (p : Proc) (cause badaddr : BitVec 64) : Option (Vm × Bool) :=
  match findVma p.vmas badaddr with
  | none => some (s, false)
  | some v =>
    match isCow s p.pgd v cause badaddr, entryAt s p.pgd badaddr with
    | true, some e => some (cow s e, true)
    | _, _ =>
      if ¬ permissionOk v cause then some (s, false)
      else
        let (physPage, s) := s.allocPage
        if physPage = 0 then some (s, false)
        else do
          let page := badaddr &&& ~~~4095
          let s := s.setPage physPage (filePage s.mem v (page - v.start))
          let s ← mapPagesAt s p.pgd page (physPage - pageOffset) 4096 (pteProt v.prot)
          return (s, true)

/-! ## `sys_exec` -/

/-- A PGD with the kernel half of `kernel_pgd`; `none` if there is no memory for it. -/
def newPgd (s : Vm) (kernelPgd : Addr) : Option (Addr × Vm) :=
  let (newPgd, s) := s.allocPage
  if newPgd = 0 then none
  else some (newPgd, s.setPage newPgd fun i => if 256 ≤ i.val then s.mem kernelPgd i else 0)

/-- `(size + PAGE_SIZE - 1) / PAGE_SIZE * PAGE_SIZE`. -/
def codeLength (size : BitVec 32) : BitVec 64 := (size.signExtend 64 + 4096 - 1) / 4096 * 4096

/-- The regions of a program: its code and its stack. -/
def programVmas (s : Vm) (data : Addr) (size : BitVec 32) : Option (Vm × List VmArea) := do
  let (s, code) ← addVma s [] 0 (codeLength size) (protRead ||| protWrite ||| protExec) mapAnonymous
  let code := code.map fun v => { v with fileData := data, fileSize := size.signExtend 64 }
  addVma s code (stackTop - userStackSize) userStackSize (protRead ||| protWrite) mapAnonymous

/-- `sys_exec` with the file that `initrd_get_file` has found. -/
def sysExec (s : Vm) (kernelPgd : Addr) (p : Proc) (data : Addr) (size : BitVec 32) :
    Option (Vm × Proc) := do
  let s := freeVmas s p.vmas
  let (pgd, s) ← newPgd s kernelPgd
  let (s, vmas) ← programVmas s data size
  let s := if p.pgd ≠ 0 ∧ p.pgd ≠ kernelPgd then freePgd s p.pgd else s
  let regs := { p.regs with x := Function.update p.regs.x 2 stackTop, epc := -4 }
  return (s, { p with pgd := pgd, vmas := vmas, regs := regs })

/-- `thread_create`, and `exec` in the new thread. -/
def launch (s : Vm) (kernelPgd : Addr) (pid : ℤ) (data : Addr) (size : BitVec 32) :
    Option (Vm × Proc) := do
  let (addr, s) := allocBytes s sizeofThread
  if addr = 0 then none
  let (kernelStack, s) := allocBytes s kernelStackSize
  if kernelStack = 0 then none
  let (pgd, s) ← newPgd s kernelPgd
  let (s, vmas) ← programVmas s data size
  return (s, {
    addr := addr
    task := .fresh pid
    kernelStack := kernelStack
    pgd := pgd
    vmas := vmas
    signalStackPage := 0
    signalStackVaddr := 0
    fdt := fun _ => 0
    regs := { PtRegs.zero with x := Function.update (fun _ => 0) 2 stackTop }
    mode := .user })

/-! ## `sys_fork` -/

/-- The address space of the child, or `NULL`. -/
def forkPgd (s : Vm) (kernelPgd pgd : Addr) : Vm × Addr :=
  if pgd ≠ 0 ∧ pgd ≠ kernelPgd then copyPgd s pgd else (s, kernelPgd)

/-- The child of `sys_fork`. -/
def forkChild (p : Proc) (child kernelStack pgd : Addr) (vmas : List VmArea) (pid : ℤ) : Proc :=
  { p with
    addr := child
    task := p.task.forked p.addr pid
    kernelStack := kernelStack
    pgd := pgd
    vmas := vmas
    signalStackPage := 0
    signalStackVaddr := 0
    regs := childRegs p.regs child
    mode := .user }

/-- `sys_fork` of the process `p` beside `rest`, with its result, `none` for `-1`. -/
def sysFork (s : Sys) (p : Proc) (rest : List Proc) : Option (Sys × Option ℤ) :=
  let (child, vm) := allocBytes s.vm sizeofThread
  if child = 0 then some ({ s with vm := vm, procs := p :: rest }, none)
  else if s.nrThreads < 2 ^ 31 - 1 then
    let pid := s.nrThreads
    let s := { s with nrThreads := pid + 1, procs := p :: rest }
    let (kernelStack, vm) := allocBytes vm kernelStackSize
    if kernelStack = 0 then some ({ s with vm := vm.freePage child }, none)
    else
      let (vm, pgd) := forkPgd vm s.kernelPgd p.pgd
      if pgd = 0 then
        some ({ s with vm := (vm.freePage kernelStack).freePage child }, none)
      else do
        let (vm, vmas) := copyVmaList vm p.vmas
        let files ← retainFds s.files p.fdt
        let c := forkChild p child kernelStack pgd vmas pid
        return ({ s with vm := vm, files := files, procs := c :: p :: rest }, some pid)
  else none

/-! ## Signals -/

/-- The flags of the entry of a signal stack. -/
def signalStackProt : BitVec 64 := pteV ||| pteU ||| pteR ||| pteW ||| pteX ||| pteA ||| pteD

/-- `check_signals` where it delivers the signal `i`. -/
def deliver (s : Vm) (stub : Stub) (p : Proc) (i : ℕ) : Option (Vm × Proc) :=
  let (sigPhys, s) := s.allocPage
  if sigPhys = 0 then none
  else do
    let s := s.setPage sigPhys fun _ => 0
    let sigVaddr ← findFreeVmaRegion p.vmas 4096
    let (s, vmas) ← addVma s p.vmas sigVaddr 4096 (protRead ||| protWrite ||| protExec) mapAnonymous
    let s ← mapPagesAt s p.pgd sigVaddr (sigPhys - pageOffset) 4096 signalStackProt
    let s := s.setPage sigPhys stub.page
    let trampolineUser := sigVaddr + 4096 - stub.size
    return (s, { p with
      task := signalThread p.task i p.regs
      vmas := vmas
      signalStackPage := sigPhys
      signalStackVaddr := sigVaddr
      regs := signalFrame p.task i p.regs trampolineUser })

/-- `check_signals`. -/
def checkSignals (s : Vm) (stub : Stub) (p : Proc) : Option (Vm × Proc) :=
  match deliverable p.task, firstSignal p.task.sigpending with
  | true, some i => deliver s stub p i
  | _, _ => some (s, p)

/-- `sys_sigreturn`: the signal stack is freed and unmapped, and the frame is restored. -/
def sysSigreturn (s : Vm) (p : Proc) : Vm × Proc :=
  let restored := { p with
    regs := p.task.signalSavedRegs
    task := { p.task with isHandlingSignal := false } }
  if p.signalStackPage = 0 then (s, restored)
  else
    let s := s.freePage p.signalStackPage
    let s := match entryAt s p.pgd p.signalStackVaddr with
      | some e => s.store e.1 e.2 0
      | none => s
    let (s, vmas) := removeVma s p.vmas p.signalStackVaddr
    (s, { restored with vmas := vmas, signalStackPage := 0, signalStackVaddr := 0 })

/-! ## `kill_zombies` -/

/-- The memory that `kill_zombies` frees of one thread. -/
def reap (s : Vm) (kernelPgd : Addr) (p : Proc) : Vm :=
  let s := if p.kernelStack ≠ 0 then s.freePage p.kernelStack else s
  let s := if p.pgd ≠ 0 ∧ p.pgd ≠ kernelPgd then freePgd s p.pgd else s
  (freeVmas s p.vmas).freePage p.addr

/-! ## Files -/

/-- `vfs_close(f)`: the handle is freed with its last reference. -/
def closeFile (s : Vm) (files : Addr → Option File) (f : Addr) :
    Option (Vm × (Addr → Option File)) :=
  (vfsClose files f).map fun files' => (if (files' f).isNone then s.freePage f else s, files')

/-- `vfs_close` for each descriptor that is open. -/
def closeFiles (s : Vm) (files : Addr → Option File) :
    List Addr → Option (Vm × (Addr → Option File))
  | [] => some (s, files)
  | f :: fs =>
    if f = 0 then closeFiles s files fs
    else do
      let (s, files) ← closeFile s files f
      closeFiles s files fs

/-- `sys_open` of a file that exists, with its vnode. -/
def sysOpen (s : Vm) (files : Addr → Option File) (p : Proc) (vnode : Addr) (flags : BitVec 32) :
    Option (Vm × (Addr → Option File) × Fdt × ℤ) := do
  let (f, s) := allocBytes s sizeofFile
  let (files, _) ← vfsOpen files (some vnode) flags f
  match freeFd p.fdt with
  | some i => return (s, files, Function.update p.fdt i f, i.val)
  | none =>
    let (s, files) ← closeFile s files f
    return (s, files, p.fdt, -1)

/-- `sys_close`. -/
def sysClose (s : Vm) (files : Addr → Option File) (p : Proc) (fd : ℤ) :
    Option (Vm × (Addr → Option File) × Fdt × ℤ) :=
  if h : 0 ≤ fd ∧ fd < 16 then
    let i : Fin 16 := ⟨fd.toNat, toNat_fd_lt h⟩
    if p.fdt i = 0 then some (s, files, p.fdt, -1)
    else do
      let (s, files) ← closeFile s files (p.fdt i)
      return (s, files, Function.update p.fdt i 0, 0)
  else some (s, files, p.fdt, -1)

/-! ## Runs -/

/-- A step of a process, by the address of its thread, or of the rest of the kernel. -/
inductive Op
  /-- the shell starts a program -/
  | launch (data : Addr) (size : BitVec 32)
  /-- an ecall or an interrupt in user mode, with any registers -/
  | trap (a : Addr) (regs : PtRegs)
  /-- a page fault, in user mode or where a system call accesses the memory of its caller -/
  | fault (a : Addr) (cause badaddr : BitVec 64)
  /-- a store of the process, to the word `i` of the page of `va` in the user half -/
  | store (a va : Addr) (i : Fin 512) (word : BitVec 64)
  | fork (a : Addr)
  | exec (a : Addr) (data : Addr) (size : BitVec 32)
  | mmap (a : Addr) (addr length : BitVec 64) (prot flags : BitVec 32)
  | openFile (a vnode : Addr) (flags : BitVec 32)
  | closeFile (a : Addr) (fd : ℤ)
  | signal (a : Addr) (signum : ℕ) (handler : BitVec 64)
  | sigreturn (a : Addr)
  /-- any other system call, with its result -/
  | call (a : Addr) (ret : BitVec 64)
  /-- the end of an interrupt -/
  | interrupt (a : Addr)
  | checkSignals (a : Addr)
  /-- `sys_kill` by someone, where there is a handler -/
  | pend (a : Addr) (signum : ℕ)
  | exit (a : Addr)
  /-- `thread_exit`, `sys_stop`, or `sys_kill` without a handler -/
  | stop (a : Addr) (status : Status)
  /-- `kill_zombies` frees the thread -/
  | reap (a : Addr)
  | kernelAlloc (size : ℕ)
  | kernelFree (x : Addr) (k : ℕ)

/-- `handle_syscall` returns: `regs->a0 = ret; regs->epc += 4;` -/
def Proc.returns (p : Proc) (ret : BitVec 64) : Proc :=
  { p with
    regs := { p.regs with x := Function.update p.regs.x 10 ret, epc := p.regs.epc + 4 }
    mode := .signals }

/-- The status of a process that is no zombie, or `none`. -/
def Proc.isAlive (p : Proc) : Bool := !p.task.status.isZombie

/-- `thread_exit` and the like. -/
def Proc.ended (p : Proc) (status : Status) : Proc :=
  { p with task := { p.task with status := status } }

/-- The process whose thread is at `a`. -/
def Sys.proc (s : Sys) (a : Addr) : Option Proc := s.procs.find? (·.addr = a)

/-- The processes beside the one at `a`. -/
def Sys.others (s : Sys) (a : Addr) : List Proc := s.procs.eraseP (·.addr = a)

/-- A step of the process at `a`, which is given with the others. -/
def Sys.withProc (s : Sys) (a : Addr) (f : Proc → List Proc → Option Sys) : Option Sys := do
  let p ← s.proc a
  f p (s.others a)

/-- A step of the process at `a`, which is no zombie. -/
def Sys.withAlive (s : Sys) (a : Addr) (f : Proc → List Proc → Option Sys) : Option Sys :=
  s.withProc a fun p rest => if p.isAlive then f p rest else none

/-- A system call of the process at `a`. -/
def Sys.syscall (s : Sys) (a : Addr) (f : Proc → List Proc → Option Sys) : Option Sys :=
  s.withAlive a fun p rest => if p.mode = .kernel then f p rest else none

/-- The result of a system call in `a0`. -/
def toReg (ret : ℤ) : BitVec 64 := BitVec.ofInt 64 ret

/-- A step of a run; `none` where there is no such step. -/
def Sys.step (s : Sys) : Op → Option Sys
  | .launch data size =>
    if s.nrThreads < 2 ^ 31 - 1 then
      (Process.launch s.vm s.kernelPgd s.nrThreads data size).map fun (vm, p) =>
        { s with vm := vm, procs := p :: s.procs, nrThreads := s.nrThreads + 1 }
    else none
  | .trap a regs => s.withAlive a fun p rest =>
    if p.mode = .user ∧ regs.x tpReg = a then
      some { s with procs := { p with regs := regs, mode := .kernel } :: rest }
    else none
  | .fault a cause badaddr => s.withAlive a fun p rest =>
    (pageFault s.vm p cause badaddr).map fun (vm, handled) =>
      { s with vm := vm, procs := (if handled then p else p.ended .terminated) :: rest }
  | .store a va i word => s.withAlive a fun p rest => do
    let e ← entryAt s.vm p.pgd va
    let pte := s.vm.mem e.1 e.2
    if va.toNat < 2 ^ 38 ∧ HasFlag pte pteV ∧ HasFlag pte pteU ∧ HasFlag pte pteW then
      some { s with vm := s.vm.store (frameAt pte) i word, procs := p :: rest }
    else none
  | .fork a => s.syscall a fun p rest =>
    (sysFork s p rest).map fun (s', ret) =>
      { s' with procs := s'.procs.map fun q =>
        if q.addr = a then q.returns (toReg (ret.getD (-1))) else q }
  | .exec a data size => s.syscall a fun p rest =>
    (sysExec s.vm s.kernelPgd p data size).map fun (vm, p) =>
      { s with vm := vm, procs := p.returns 0 :: rest }
  | .mmap a addr length prot flags => s.syscall a fun p rest =>
    (sysMmap s.vm p.pgd p.vmas addr length prot flags).map fun r =>
      { s with vm := r.vm, procs := { p with vmas := r.vmas }.returns (r.ret.getD (-1)) :: rest }
  | .openFile a vnode flags => s.syscall a fun p rest =>
    (sysOpen s.vm s.files p vnode flags).map fun (vm, files, fdt, fd) =>
      { s with vm := vm, files := files, procs := { p with fdt := fdt }.returns (toReg fd) :: rest }
  | .closeFile a fd => s.syscall a fun p rest =>
    (sysClose s.vm s.files p fd).map fun (vm, files, fdt, ret) =>
      { s with
        vm := vm, files := files, procs := { p with fdt := fdt }.returns (toReg ret) :: rest }
  | .signal a signum handler => s.syscall a fun p rest =>
    let task := { p.task with signalHandler := Function.update p.task.signalHandler signum handler }
    if signum < 32 then some { s with procs := { p with task := task }.returns 0 :: rest }
    else some { s with procs := p.returns (-1) :: rest }
  | .sigreturn a => s.syscall a fun p rest =>
    let r := sysSigreturn s.vm p
    some { s with vm := r.1, procs := { r.2 with mode := .signals } :: rest }
  | .call a ret => s.syscall a fun p rest => some { s with procs := p.returns ret :: rest }
  | .interrupt a => s.syscall a fun p rest =>
    some { s with procs := { p with mode := .signals } :: rest }
  | .checkSignals a => s.withAlive a fun p rest =>
    if p.mode = .signals then
      (Process.checkSignals s.vm s.stub p).map fun (vm, p) =>
        { s with vm := vm, procs := { p with mode := .user } :: rest }
    else none
  | .pend a signum => s.withAlive a fun p rest =>
    if signum < 32 ∧ p.task.signalHandler signum ≠ 0 then
      let task := { p.task with sigpending := p.task.sigpending ||| 1#32 <<< signum }
      some { s with procs := { p with task := task } :: rest }
    else none
  | .exit a => s.syscall a fun p rest =>
    (closeFiles s.vm s.files (List.ofFn p.fdt)).map fun (vm, files) =>
      { s with
        vm := vm
        files := files
        procs := { p with fdt := fun _ => 0 }.ended .terminated :: rest }
  | .stop a status => s.withAlive a fun p rest =>
    if status.isZombie then some { s with procs := p.ended status :: rest } else none
  | .reap a => s.withProc a fun p rest =>
    if p.isAlive then none
    else (closeFiles s.vm s.files (List.ofFn p.fdt)).map fun (vm, files) =>
      { s with vm := Process.reap vm s.kernelPgd p, files := files, procs := rest }
  | .kernelAlloc size =>
    let (x, vm) := allocBytes s.vm size
    some { s with
      vm := vm, held := if x = 0 then s.held else (x, Memory.blockBytes size) :: s.held }
  | .kernelFree x k =>
    if (x, k) ∈ s.held then some { s with vm := s.vm.freePage x, held := s.held.erase (x, k) }
    else none

/-- The step of a process that is about to call `check_signals`. -/
def Op.checks : Op → Bool
  | .checkSignals _ => true
  | _ => false

/-- A step of a run. `check_signals` follows at once where a system call or an interrupt ends, since
interrupts are off there. -/
def Sys.exec (s : Sys) (op : Op) : Option Sys :=
  if op.checks ∨ ∀ p ∈ s.procs, p.mode ≠ .signals then s.step op else none

end BareMetalOS.Process
