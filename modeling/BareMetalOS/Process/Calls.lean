import BareMetalOS.Memory.Calls
import BareMetalOS.Mmu.KernelMap
import BareMetalOS.Process.Runs

/-!
# What a run does to the allocator

Whatever the processes and the kernel do, they use the allocator by `allocate`, `free` and
`page_inc_ref` only (`Reaches.calls`). So a run keeps all that these calls keep, whatever their
arguments are: the pool and the pages that `allocator_init` has reserved.
-/

namespace BareMetalOS.Process

open Memory (Addr AllocCalls allocate)
open Mmu Sched Trap Files

/-- Between two states of memory are calls of the allocator, and changes of the pages. -/
structure VmCalls (vm vm' : Vm) : Prop where
  calls : AllocCalls vm.alloc vm'.alloc

variable {vm vm' vm'' : Vm} {s s' : Sys} {p p' : Proc} {rest : List Proc}

namespace VmCalls

theorem refl (vm : Vm) : VmCalls vm vm := ⟨AllocCalls.refl _⟩

theorem trans (h : VmCalls vm vm') (h' : VmCalls vm' vm'') : VmCalls vm vm'' :=
  ⟨AllocCalls.trans h.calls h'.calls⟩

theorem setPage (h : VmCalls vm vm') (q : Addr) (words : Fin 512 → BitVec 64) :
    VmCalls vm (vm'.setPage q words) := ⟨h.calls⟩

theorem store (h : VmCalls vm vm') (q : Addr) (i : Fin 512) (word : BitVec 64) :
    VmCalls vm (vm'.store q i word) := ⟨h.calls⟩

/-! ## Page tables -/

theorem allocBytes (vm : Vm) (size : ℕ) : VmCalls vm (Process.allocBytes vm size).2 :=
  ⟨AllocCalls.allocate _ size⟩

theorem allocPage (vm : Vm) : VmCalls vm vm.allocPage.2 := ⟨AllocCalls.allocate _ _⟩

theorem freePage (vm : Vm) (q : Addr) : VmCalls vm (vm.freePage q) := ⟨AllocCalls.free _ q⟩

theorem incRef (vm : Vm) (q : Addr) : VmCalls vm (vm.incRef q) := ⟨AllocCalls.pageIncRef _ q⟩

/-- A loop. -/
theorem foldl {α : Type*} {f : Vm → α → Vm} (hf : ∀ vm a, VmCalls vm (f vm a)) (l : List α)
    (vm : Vm) : VmCalls vm (l.foldl f vm) := by
  induction l generalizing vm with
  | nil => exact refl vm
  | cons a l ih => exact (hf vm a).trans (ih _)

theorem ite {c : Prop} [Decidable c] (h : VmCalls vm vm') (h' : VmCalls vm vm'') :
    VmCalls vm (if c then vm' else vm'') := by
  split
  · exact h
  · exact h'

theorem nextTable (vm : Vm) (table : Addr) (i : Fin 512) (alloc : Bool) :
    VmCalls vm (Mmu.nextTable vm table i alloc).1 := by
  unfold Mmu.nextTable
  split
  · exact refl vm
  · split
    · dsimp only
      split
      · exact allocPage vm
      · exact ((allocPage vm).setPage _ _).store _ _ _
    · exact refl vm

theorem pagewalk (vm : Vm) (pgd va : Addr) (alloc : Bool) :
    VmCalls vm (Mmu.pagewalk vm pgd va alloc).1 := by
  have h := nextTable vm pgd (vpn va 30) alloc
  unfold Mmu.pagewalk
  rcases hn : Mmu.nextTable vm pgd (vpn va 30) alloc with ⟨vm₁, _ | pmd⟩
  · rw [hn] at h
    exact h
  · rw [hn] at h
    have h₁ := nextTable vm₁ pmd (vpn va 21) alloc
    dsimp only
    rcases hn₁ : Mmu.nextTable vm₁ pmd (vpn va 21) alloc with ⟨vm₂, _ | pt⟩
    · rw [hn₁] at h₁
      exact h.trans h₁
    · rw [hn₁] at h₁
      exact h.trans h₁

theorem mapPage (vm : Vm) (pgd a pa prot : BitVec 64) :
    VmCalls vm (Mmu.mapPage vm pgd a pa prot) := by
  have h := pagewalk vm pgd a true
  unfold Mmu.mapPage
  rcases hn : Mmu.pagewalk vm pgd a true with ⟨vm₁, _ | ⟨pt, k⟩⟩
  · rw [hn] at h
    exact h
  · rw [hn] at h
    exact h.store _ _ _

theorem mapLoop {pgd stop prot a pa : BitVec 64} {n : ℕ}
    (h : Mmu.mapLoop pgd stop prot n vm a pa = some vm') : VmCalls vm vm' := by
  induction n generalizing vm a pa with
  | zero => cases h
  | succ n ih =>
    rw [Mmu.mapLoop] at h
    split at h
    · exact (mapPage _ pgd a pa prot).trans (ih h)
    · cases h
      exact refl _

theorem mapPagesAt {pgd va pa size prot : BitVec 64}
    (h : Mmu.mapPagesAt vm pgd va pa size prot = some vm') : VmCalls vm vm' := mapLoop h

theorem mapCalls {pgd : Addr} {cs : List MapCall} (h : Mmu.mapCalls pgd cs vm = some vm') :
    VmCalls vm vm' := by
  induction cs generalizing vm with
  | nil =>
    cases h
    exact refl _
  | cons c cs ih =>
    obtain ⟨vm₁, hc, h⟩ := Option.bind_eq_some_iff.1 h
    exact (mapPagesAt hc).trans (ih h)

theorem mmuInit {board : Memory.Board} {l : Layout} {pgd : Addr}
    (h : Mmu.mmuInit board l vm = some (vm', pgd)) : VmCalls vm vm' := by
  unfold Mmu.mmuInit at h
  dsimp only at h
  split at h
  · cases h
  · obtain ⟨vm₁, hcalls, h⟩ := Option.bind_eq_some_iff.1 h
    cases h
    exact ((allocPage vm).setPage _ _).trans (mapCalls hcalls)

theorem freePt (vm : Vm) (pt : Addr) : VmCalls vm (Mmu.freePt vm pt) :=
  (foldl (fun vm _ => ite (freePage vm _) (refl vm)) _ vm).trans (freePage _ pt)

theorem freePmd (vm : Vm) (pmd : Addr) : VmCalls vm (Mmu.freePmd vm pmd) :=
  (foldl (fun vm _ => ite (freePt vm _) (refl vm)) _ vm).trans (freePage _ pmd)

theorem freePgd (vm : Vm) (pgd : Addr) : VmCalls vm (Mmu.freePgd vm pgd) :=
  (foldl (fun vm _ => ite (freePmd vm _) (refl vm)) _ vm).trans (freePage _ pgd)

theorem copyPt (parentPt childPt : Addr) (ks : List (Fin 512)) (vm : Vm) :
    VmCalls vm (Mmu.copyPt parentPt childPt ks vm) := by
  induction ks generalizing vm with
  | nil => exact refl vm
  | cons k ks ih =>
    rw [Mmu.copyPt]
    split
    · exact ((((refl vm).store _ _ _).store _ _ _).trans (incRef _ _)).trans (ih _)
    · exact ih vm

theorem copyPmd (parentPmd childPmd : Addr) (js : List (Fin 512)) (vm : Vm) :
    VmCalls vm (Mmu.copyPmd parentPmd childPmd js vm).1 := by
  induction js generalizing vm with
  | nil => exact refl vm
  | cons j js ih =>
    rw [Mmu.copyPmd]
    split
    · dsimp only
      split
      · exact allocPage vm
      · exact ((((allocPage vm).setPage _ _).store _ _ _).trans (copyPt _ _ _ _)).trans (ih _)
    · exact ih vm

theorem copyUser (pgd newPgd : Addr) (is : List (Fin 512)) (vm : Vm) :
    VmCalls vm (Mmu.copyUser pgd newPgd is vm).1 := by
  induction is generalizing vm with
  | nil => exact refl vm
  | cons i is ih =>
    rw [Mmu.copyUser]
    split
    · dsimp only
      split
      · exact allocPage vm
      · have hpmd := (((allocPage vm).setPage vm.allocPage.1 fun _ => 0).store newPgd i
          (entryOf vm.allocPage.1 pteV)).trans
            (copyPmd (frameAt (vm.mem pgd i)) vm.allocPage.1 (List.finRange 512) _)
        split
        · exact hpmd.trans (ih _)
        · exact hpmd
    · exact ih vm

theorem copyPgd (vm : Vm) (pgd : Addr) : VmCalls vm (Mmu.copyPgd vm pgd).1 := by
  unfold Mmu.copyPgd
  dsimp only
  split
  · exact allocPage vm
  · have huser := ((allocPage vm).setPage vm.allocPage.1 fun i =>
      if 256 ≤ i.val then vm.allocPage.2.mem pgd i else 0).trans
        (copyUser pgd vm.allocPage.1 userHalf _)
    split
    · dsimp only
      exact huser
    · dsimp only
      exact huser.trans (freePgd _ _)

/-! ## Regions -/

theorem addVma {vmas vmas' : List VmArea} {start length prot flags : BitVec 64}
    (h : Mmu.addVma vm vmas start length prot flags = some (vm', vmas')) : VmCalls vm vm' := by
  unfold Mmu.addVma at h
  dsimp only at h
  split at h
  · cases h
  · cases h
    exact ⟨AllocCalls.allocate _ _⟩

theorem removeVma (vm : Vm) (vmas : List VmArea) (start : BitVec 64) :
    VmCalls vm (Mmu.removeVma vm vmas start).1 := by
  unfold Mmu.removeVma
  split
  · exact refl vm
  · exact ⟨AllocCalls.free _ _⟩

theorem copyVmaList (vm : Vm) (vmas : List VmArea) : VmCalls vm (Mmu.copyVmaList vm vmas).1 := by
  induction vmas generalizing vm with
  | nil => exact refl vm
  | cons v vmas ih =>
    rw [Mmu.copyVmaList]
    dsimp only
    have hnode : VmCalls vm { vm with alloc := (allocate vm.alloc sizeofVmArea).2 } :=
      ⟨AllocCalls.allocate _ _⟩
    split
    · exact hnode
    · exact hnode.trans (ih _)

theorem freeVmas (vm : Vm) (vmas : List VmArea) : VmCalls vm (Process.freeVmas vm vmas) :=
  foldl freePage _ vm

theorem populateLoop {pgd stop prot a : BitVec 64} {n : ℕ} {ok : Bool}
    (h : Mmu.populateLoop pgd stop prot n vm a = some (vm', ok)) : VmCalls vm vm' := by
  induction n generalizing vm a with
  | zero => cases h
  | succ n ih =>
    rw [Mmu.populateLoop] at h
    split at h
    · dsimp only at h
      split at h
      · cases h
        exact allocPage _
      · obtain ⟨vm₁, hmap, h⟩ := Option.bind_eq_some_iff.1 h
        exact (((allocPage _).setPage _ _).trans (mapPagesAt hmap)).trans (ih h)
    · cases h
      exact refl _

theorem sysMmap {pgd : Addr} {vmas : List VmArea} {addr length : BitVec 64} {prot flags : BitVec 32}
    {r : MmapResult} (h : Mmu.sysMmap vm pgd vmas addr length prot flags = some r) :
    VmCalls vm r.vm := by
  unfold Mmu.sysMmap at h
  dsimp only at h
  split at h
  · cases h
    exact refl vm
  · obtain ⟨start, -, h⟩ := Option.bind_eq_some_iff.1 h
    obtain ⟨⟨vm₁, vmas₁⟩, hadd, h⟩ := Option.bind_eq_some_iff.1 h
    dsimp only at h
    split at h
    · obtain ⟨⟨vm₂, ok⟩, hpop, h⟩ := Option.bind_eq_some_iff.1 h
      cases h
      exact (addVma hadd).trans (populateLoop hpop)
    · cases h
      exact addVma hadd

/-! ## Processes -/

theorem cow (vm : Vm) (e : Addr × Fin 512) : VmCalls vm (Process.cow vm e) := by
  unfold Process.cow
  dsimp only
  split
  · split
    · exact allocPage vm
    · exact (((allocPage vm).setPage _ _).store _ _ _).trans (freePage _ _)
  · exact (refl vm).store _ _ _

theorem pageFault {cause badaddr : BitVec 64} {handled : Bool}
    (h : Process.pageFault vm p cause badaddr = some (vm', handled)) : VmCalls vm vm' := by
  unfold Process.pageFault at h
  split at h
  · cases h
    exact refl vm
  · split at h
    · cases h
      exact cow vm _
    · split at h
      · cases h
        exact refl vm
      · dsimp only at h
        split at h
        · cases h
          exact allocPage vm
        · obtain ⟨vm₁, hmap, h⟩ := Option.bind_eq_some_iff.1 h
          cases h
          exact ((allocPage vm).setPage _ _).trans (mapPagesAt hmap)

theorem newPgd {kernelPgd pgd : Addr} (h : Process.newPgd vm kernelPgd = some (pgd, vm')) :
    VmCalls vm vm' := by
  unfold Process.newPgd at h
  dsimp only at h
  split at h
  · cases h
  · cases h
    exact (allocPage vm).setPage _ _

theorem programVmas {dat : Addr} {size : BitVec 32} {vmas : List VmArea}
    (h : Process.programVmas vm dat size = some (vm', vmas)) : VmCalls vm vm' := by
  obtain ⟨⟨vm₁, code⟩, hcode, h⟩ := Option.bind_eq_some_iff.1 h
  exact (addVma hcode).trans (addVma h)

theorem sysExec {kernelPgd dat : Addr} {size : BitVec 32}
    (h : Process.sysExec vm kernelPgd p dat size = some (vm', p')) : VmCalls vm vm' := by
  obtain ⟨⟨pgd, vm₁⟩, hpgd, h⟩ := Option.bind_eq_some_iff.1 h
  obtain ⟨⟨vm₂, vmas⟩, hvmas, h⟩ := Option.bind_eq_some_iff.1 h
  cases h
  exact (((freeVmas vm _).trans (newPgd hpgd)).trans (programVmas hvmas)).trans
    (ite (freePgd _ _) (refl _))

theorem launch {kernelPgd dat : Addr} {pid : ℤ} {size : BitVec 32}
    (h : Process.launch vm kernelPgd pid dat size = some (vm', p)) : VmCalls vm vm' := by
  unfold Process.launch at h
  dsimp only at h
  split at h
  · cases h
  · split at h
    · cases h
    · obtain ⟨⟨pgd, vm₁⟩, hpgd, h⟩ := Option.bind_eq_some_iff.1 h
      obtain ⟨⟨vm₂, vmas⟩, hvmas, h⟩ := Option.bind_eq_some_iff.1 h
      cases h
      exact (((allocBytes vm _).trans (allocBytes _ _)).trans (newPgd hpgd)).trans
        (programVmas hvmas)

theorem forkPgd (vm : Vm) (kernelPgd pgd : Addr) :
    VmCalls vm (Process.forkPgd vm kernelPgd pgd).1 := by
  unfold Process.forkPgd
  split
  · exact copyPgd vm pgd
  · exact refl vm

theorem sysFork {pid : Option ℤ} (h : Process.sysFork s p rest = some (s', pid)) :
    VmCalls s.vm s'.vm := by
  unfold Process.sysFork at h
  dsimp only at h
  split at h
  · cases h
    exact allocBytes s.vm _
  · split at h
    · split at h
      · cases h
        exact ((allocBytes s.vm _).trans (allocBytes _ _)).trans (freePage _ _)
      · have hpgd := ((allocBytes s.vm sizeofThread).trans (allocBytes _ kernelStackSize)).trans
          (forkPgd _ s.kernelPgd p.pgd)
        split at h
        · cases h
          exact (hpgd.trans (freePage _ _)).trans (freePage _ _)
        · obtain ⟨files, -, h⟩ := Option.bind_eq_some_iff.1 h
          cases h
          exact hpgd.trans (copyVmaList _ _)
    · cases h

theorem deliver {stub : Stub} {i : ℕ} (h : Process.deliver vm stub p i = some (vm', p')) :
    VmCalls vm vm' := by
  unfold Process.deliver at h
  dsimp only at h
  split at h
  · cases h
  · obtain ⟨va, -, h⟩ := Option.bind_eq_some_iff.1 h
    obtain ⟨⟨vm₁, vmas⟩, hadd, h⟩ := Option.bind_eq_some_iff.1 h
    obtain ⟨vm₂, hmap, h⟩ := Option.bind_eq_some_iff.1 h
    cases h
    exact ((((allocPage vm).setPage _ _).trans (addVma hadd)).trans (mapPagesAt hmap)).setPage _ _

theorem checkSignals {stub : Stub} (h : Process.checkSignals vm stub p = some (vm', p')) :
    VmCalls vm vm' := by
  unfold Process.checkSignals at h
  split at h
  · exact deliver h
  · cases h
    exact refl vm

theorem sysSigreturn (vm : Vm) (p : Proc) : VmCalls vm (Process.sysSigreturn vm p).1 := by
  unfold Process.sysSigreturn
  dsimp only
  split
  · exact refl vm
  · have hfree := freePage vm p.signalStackPage
    split
    · exact (hfree.store _ _ _).trans (removeVma _ p.vmas p.signalStackVaddr)
    · exact hfree.trans (removeVma _ p.vmas p.signalStackVaddr)

theorem reap (vm : Vm) (kernelPgd : Addr) (p : Proc) : VmCalls vm (Process.reap vm kernelPgd p) :=
  (((ite (freePage vm _) (refl vm)).trans (ite (freePgd _ _) (refl _))).trans (freeVmas _ _)).trans
    (freePage _ _)

/-! ## Files -/

theorem closeFile {files files' : Addr → Option File} {f : Addr}
    (h : Process.closeFile vm files f = some (vm', files')) : VmCalls vm vm' := by
  obtain ⟨files₁, -, h⟩ := Option.map_eq_some_iff.1 h
  cases h
  exact ite (freePage vm f) (refl vm)

theorem closeFiles {fs : List Addr} {files files' : Addr → Option File}
    (h : Process.closeFiles vm files fs = some (vm', files')) : VmCalls vm vm' := by
  induction fs generalizing vm files with
  | nil =>
    cases h
    exact refl _
  | cons f fs ih =>
    rw [Process.closeFiles] at h
    split at h
    · exact ih h
    · obtain ⟨⟨vm₁, files₁⟩, hclose, h⟩ := Option.bind_eq_some_iff.1 h
      exact (closeFile hclose).trans (ih h)

theorem sysOpen {files files' : Addr → Option File} {vnode : Addr} {flags : BitVec 32} {fdt : Fdt}
    {fd : ℤ} (h : Process.sysOpen vm files p vnode flags = some (vm', files', fdt, fd)) :
    VmCalls vm vm' := by
  unfold Process.sysOpen at h
  dsimp only at h
  obtain ⟨⟨files₁, file⟩, -, h⟩ := Option.bind_eq_some_iff.1 h
  dsimp only at h
  split at h
  · cases h
    exact allocBytes vm _
  · obtain ⟨⟨vm₁, files₂⟩, hclose, h⟩ := Option.bind_eq_some_iff.1 h
    cases h
    exact (allocBytes vm _).trans (closeFile hclose)

theorem sysClose {files files' : Addr → Option File} {fd ret : ℤ} {fdt : Fdt}
    (h : Process.sysClose vm files p fd = some (vm', files', fdt, ret)) : VmCalls vm vm' := by
  unfold Process.sysClose at h
  split at h
  · dsimp only at h
    split at h
    · cases h
      exact refl vm
    · obtain ⟨⟨vm₁, files₁⟩, hclose, h⟩ := Option.bind_eq_some_iff.1 h
      cases h
      exact closeFile hclose
  · cases h
    exact refl vm

end VmCalls

/-! ## Runs -/

theorem exists_of_withAlive {a : Addr} {f : Proc → List Proc → Option Sys}
    (h : s.withAlive a f = some s') : ∃ p rest, f p rest = some s' := by
  obtain ⟨p, -, h⟩ := Option.bind_eq_some_iff.1 h
  dsimp only at h
  split at h
  · exact ⟨p, _, h⟩
  · cases h

theorem exists_of_syscall {a : Addr} {f : Proc → List Proc → Option Sys}
    (h : s.syscall a f = some s') : ∃ p rest, f p rest = some s' := by
  obtain ⟨p, rest, h⟩ := exists_of_withAlive h
  split at h
  · exact ⟨p, rest, h⟩
  · cases h

/-- One step. -/
theorem VmCalls.step {op : Op} (h : s.step op = some s') : VmCalls s.vm s'.vm := by
  cases op with
  | launch dat size =>
    rw [Sys.step] at h
    split at h
    · obtain ⟨⟨vm, p⟩, hl, rfl⟩ := Option.map_eq_some_iff.1 h
      exact launch hl
    · cases h
  | trap a regs =>
    obtain ⟨p, rest, h⟩ := exists_of_withAlive h
    split at h
    · cases h
      exact refl s.vm
    · cases h
  | fault a cause badaddr =>
    obtain ⟨p, rest, h⟩ := exists_of_withAlive h
    obtain ⟨⟨vm, handled⟩, hf, rfl⟩ := Option.map_eq_some_iff.1 h
    exact pageFault hf
  | store a va i word =>
    obtain ⟨p, rest, h⟩ := exists_of_withAlive h
    obtain ⟨e, -, h⟩ := Option.bind_eq_some_iff.1 h
    dsimp only at h
    split at h
    · cases h
      exact (refl s.vm).store _ _ _
    · cases h
  | fork a =>
    obtain ⟨p, rest, h⟩ := exists_of_syscall h
    obtain ⟨⟨s₁, ret⟩, hf, rfl⟩ := Option.map_eq_some_iff.1 h
    exact @sysFork s s₁ p rest ret hf
  | exec a dat size =>
    obtain ⟨p, rest, h⟩ := exists_of_syscall h
    obtain ⟨⟨vm, p'⟩, he, rfl⟩ := Option.map_eq_some_iff.1 h
    exact sysExec he
  | mmap a addr length prot flags =>
    obtain ⟨p, rest, h⟩ := exists_of_syscall h
    obtain ⟨r, hm, rfl⟩ := Option.map_eq_some_iff.1 h
    exact sysMmap hm
  | openFile a vnode flags =>
    obtain ⟨p, rest, h⟩ := exists_of_syscall h
    obtain ⟨⟨vm, files, fdt, fd⟩, ho, rfl⟩ := Option.map_eq_some_iff.1 h
    exact sysOpen ho
  | closeFile a fd =>
    obtain ⟨p, rest, h⟩ := exists_of_syscall h
    obtain ⟨⟨vm, files, fdt, ret⟩, hc, rfl⟩ := Option.map_eq_some_iff.1 h
    exact sysClose hc
  | signal a signum handler =>
    obtain ⟨p, rest, h⟩ := exists_of_syscall h
    dsimp only at h
    split at h
    · cases h
      exact refl s.vm
    · cases h
      exact refl s.vm
  | sigreturn a =>
    obtain ⟨p, rest, h⟩ := exists_of_syscall h
    cases h
    exact sysSigreturn s.vm p
  | call a ret =>
    obtain ⟨p, rest, h⟩ := exists_of_syscall h
    cases h
    exact refl s.vm
  | interrupt a =>
    obtain ⟨p, rest, h⟩ := exists_of_syscall h
    cases h
    exact refl s.vm
  | checkSignals a =>
    obtain ⟨p, rest, h⟩ := exists_of_withAlive h
    split at h
    · obtain ⟨⟨vm, p'⟩, hc, rfl⟩ := Option.map_eq_some_iff.1 h
      exact checkSignals hc
    · cases h
  | pend a signum =>
    obtain ⟨p, rest, h⟩ := exists_of_withAlive h
    split at h
    · cases h
      exact refl s.vm
    · cases h
  | exit a =>
    obtain ⟨p, rest, h⟩ := exists_of_syscall h
    obtain ⟨⟨vm, files⟩, hc, rfl⟩ := Option.map_eq_some_iff.1 h
    exact closeFiles hc
  | stop a status =>
    obtain ⟨p, rest, h⟩ := exists_of_withAlive h
    split at h
    · cases h
      exact refl s.vm
    · cases h
  | reap a =>
    obtain ⟨p, -, h⟩ := Option.bind_eq_some_iff.1 h
    dsimp only at h
    split at h
    · cases h
    · obtain ⟨⟨vm, files⟩, hc, rfl⟩ := Option.map_eq_some_iff.1 h
      exact (closeFiles hc).trans (reap vm _ p)
  | kernelAlloc size =>
    cases h
    exact allocBytes s.vm size
  | kernelFree x k =>
    rw [Sys.step] at h
    split at h
    · cases h
      exact freePage s.vm x
    · cases h

/-- **Calls.** A run of the processes is a sequence of calls for the allocator. -/
theorem Reaches.calls (h : Reaches s s') : VmCalls s.vm s'.vm := by
  induction h with
  | refl => exact .refl s.vm
  | @tail s₁ s₂ _ hstep ih =>
    obtain ⟨op, -, hexec⟩ := hstep
    rw [Sys.exec] at hexec
    split at hexec
    · exact ih.trans (.step hexec)
    · cases hexec

end BareMetalOS.Process
