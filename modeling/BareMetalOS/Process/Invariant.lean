import BareMetalOS.Files.Counts
import BareMetalOS.Mmu.Holdings
import BareMetalOS.Mmu.MapPages
import BareMetalOS.Mmu.VmaOrder
import BareMetalOS.Process.Model

/-!
# The invariant of the processes

`Inv` says what the processes hold together. The allocator knows of exactly the references of their
page tables, of the pages of the kernel's own page table, of pages that were lost, and of the
structs that the processes and the rest of the kernel hold. A lost page is not mapped. A page that
is mapped with the W bit is mapped once. The mappings of a process lie in its regions, with the
flags of the region up to the W bit, and the regions are in order in the user half. The kernel half
of each page table is that of the kernel. A process that handles a signal has its signal stack
mapped, with the W bit.

The parts that concern one process depend on its leaves and its regions only (`Regions`,
`SignalOk`), so that a step of one process does not concern the others (`Inv.change`).
-/

namespace BareMetalOS.Process

open Memory (Addr blockBytes)
open Mmu Sched Trap Files

/-- What the kernel has set up before the first process: other blocks, its page table and the
contents of it. -/
structure Ground where
  base : Addr → Option (ℕ × ℤ)
  tables : Addr → ℕ
  pgd : Addr
  mem : Mem

/-- The block of the structure of a region. -/
def vmaBlock (v : VmArea) : Addr × ℕ := (v.node, blockBytes sizeofVmArea)

/-- The blocks that a process holds beside its page table. -/
def Proc.blocks (p : Proc) : List (Addr × ℕ) :=
  (p.addr, blockBytes sizeofThread) :: (p.kernelStack, blockBytes kernelStackSize) ::
    p.vmas.map vmaBlock

/-- The block of a file handle. -/
def fileBlock (f : Addr) : Addr × ℕ := (f, blockBytes sizeofFile)

/-- The PGDs of the processes. -/
def pgds (procs : List Proc) : List Addr := procs.map Proc.pgd

/-- All blocks that are held beside page tables, where `opened` are the file handles and `held` is
what the rest of the kernel holds. -/
def allBlocks (procs : List Proc) (opened : List Addr) (held : List (Addr × ℕ)) : List (Addr × ℕ) :=
  procs.flatMap Proc.blocks ++ (opened.map fileBlock ++ held)

/-- The first address of a page. -/
def leafBase (x : Leaf) : ℕ := (x.1.val * 2 ^ 18 + x.2.1.val * 2 ^ 9 + x.2.2.val) * 4096

/-- The page is in the region. -/
def Covers (v : VmArea) (x : Leaf) : Prop := v.start.toNat ≤ leafBase x ∧ leafBase x < v.stop.toNat

/-- The entry has the flags of the region, perhaps without the W bit. -/
def FlagsOf (v : VmArea) (w : BitVec 64) : Prop :=
  w &&& 0x3ff = pteProt v.prot ∨ w &&& 0x3ff = readOnly (pteProt v.prot)

/-- The regions of a process, and its leaves in them. -/
structure Regions (leaf : Leaf → Option (BitVec 64)) (vmas : List VmArea) : Prop where
  ok : VmasOk vmas
  below : ∀ v ∈ vmas, v.stop.toNat ≤ 2 ^ 38
  positive : ∀ v ∈ vmas, v.start = 0 ∨ v.start.toNat < v.stop.toNat
  covered : ∀ x w, leaf x = some w → ∃ v ∈ vmas, Covers v x ∧ FlagsOf v w

/-- The signal stack of a process that handles a signal. -/
structure SignalStack (leaf : Leaf → Option (BitVec 64)) (p : Proc) : Prop where
  region : ∃ v ∈ p.vmas, v.start = p.signalStackVaddr ∧ v.stop = p.signalStackVaddr + 4096
  user : p.signalStackVaddr ≠ 0 ∧ p.signalStackVaddr.toNat + 4096 ≤ 2 ^ 38
  entry : ∃ w, leaf (leafIndex p.signalStackVaddr) = some w ∧ frameAt w = p.signalStackPage ∧
    HasFlag w pteW

/-- A process has a signal stack while it handles a signal, and no other. -/
def SignalOk (leaf : Leaf → Option (BitVec 64)) (p : Proc) : Prop :=
  if p.task.isHandlingSignal then SignalStack leaf p else p.signalStackPage = 0

/-- The pointers of the processes to a file handle. -/
def fileRefs (procs : List Proc) (f : Addr) : ℕ := (procs.map fun p => p.fdt.refs f).sum

/-- The file handles are those the descriptors point to. -/
structure FilesOk (s : Sys) (opened : List Addr) : Prop where
  counted : Counted refCounter 0 s.files (fileRefs s.procs)
  null : s.files 0 = none
  mem : ∀ f, f ∈ opened ↔ s.files f ≠ none

/-- The invariant, with the pages that were lost and the file handles. -/
structure Inv (g : Ground) (s : Sys) (lost : Addr → ℕ) (opened : List Addr) : Prop where
  owned : Owned s.vm (pgds s.procs) (g.tables + lost) g.base (allBlocks s.procs opened s.held)
  unmapped : ∀ q, (g.tables + lost) q ≠ 0 → refsAll s.vm.mem (pgds s.procs) q = 0
  writable : ∀ p ∈ s.procs, ∀ x w, leafAt 256 s.vm.mem p.pgd x = some w → HasFlag w pteW →
    refsAll s.vm.mem (pgds s.procs) (frameAt w) = 1
  regions : ∀ p ∈ s.procs, Regions (leafAt 256 s.vm.mem p.pgd) p.vmas
  signals : ∀ p ∈ s.procs, SignalOk (leafAt 256 s.vm.mem p.pgd) p
  upper : ∀ p ∈ s.procs, ∀ i : Fin 512, 256 ≤ i.val → s.vm.mem p.pgd i = g.mem g.pgd i
  kernel : ∀ t, g.tables t ≠ 0 → s.vm.mem t = g.mem t
  pgd : s.kernelPgd = g.pgd ∧ g.tables g.pgd ≠ 0
  files : FilesOk s opened

variable {g : Ground} {s s' : Sys} {vm' : Vm} {p p' q : Proc} {rest : List Proc}
  {lost lost' : Addr → ℕ} {opened opened' : List Addr} {x : Leaf} {w : BitVec 64} {a va : Addr}

theorem signalOk_of_handling {leaf : Leaf → Option (BitVec 64)}
    (hsig : p.task.isHandlingSignal = true) : SignalOk leaf p ↔ SignalStack leaf p := by
  rw [SignalOk, if_pos hsig]

theorem signalOk_of_not {leaf : Leaf → Option (BitVec 64)}
    (hsig : p.task.isHandlingSignal = false) : SignalOk leaf p ↔ p.signalStackPage = 0 := by
  rw [SignalOk, if_neg (by rw [hsig]; exact Bool.false_ne_true)]

/-- The signal stack does not depend on the other fields of a process. -/
theorem SignalOk.congr {leaf : Leaf → Option (BitVec 64)} (h : SignalOk leaf p)
    (htask : p'.task.isHandlingSignal = p.task.isHandlingSignal) (hvmas : p'.vmas = p.vmas)
    (hpage : p'.signalStackPage = p.signalStackPage)
    (hvaddr : p'.signalStackVaddr = p.signalStackVaddr) : SignalOk leaf p' := by
  unfold SignalOk at h ⊢
  rw [htask, hpage]
  split
  · rename_i hsig
    rw [if_pos hsig] at h
    obtain ⟨hregion, huser, hentry⟩ := h
    rw [← hvmas, ← hvaddr] at hregion
    rw [← hvaddr] at huser
    rw [← hvaddr, ← hpage] at hentry
    exact ⟨hregion, huser, hentry⟩
  · rename_i hsig
    rwa [if_neg hsig] at h

/-! ## The order of the processes -/

theorem pgds_perm {l l' : List Proc} (h : l.Perm l') : (pgds l).Perm (pgds l') := h.map _

theorem fileRefs_perm {l l' : List Proc} (h : l.Perm l') : fileRefs l = fileRefs l' := by
  funext f
  exact (h.map _).sum_eq

theorem fileRefs_cons (p : Proc) (l : List Proc) (f : Addr) :
    fileRefs (p :: l) f = p.fdt.refs f + fileRefs l f := by
  rw [fileRefs, List.map_cons, List.sum_cons]
  rfl

theorem FilesOk.perm (h : FilesOk s opened) {l : List Proc} (hp : s.procs.Perm l) :
    FilesOk { s with procs := l } opened := by
  refine ⟨?_, h.null, h.mem⟩
  rw [← fileRefs_perm hp]
  exact h.counted

theorem Inv.perm (h : Inv g s lost opened) {l : List Proc} (hp : s.procs.Perm l) :
    Inv g { s with procs := l } lost opened := by
  have hpg := pgds_perm hp
  refine ⟨?_, fun q hq => ?_, fun p hm x w hx hw => ?_, fun p hm => h.regions p (hp.mem_iff.2 hm),
    fun p hm => h.signals p (hp.mem_iff.2 hm), fun p hm => h.upper p (hp.mem_iff.2 hm), h.kernel,
    h.pgd, h.files.perm hp⟩
  · have howned := h.owned.perm ((hp.flatMap_right Proc.blocks).append_right _)
    exact howned.of_spaces (howned.spaces.perm hpg)
  · rw [← refsAll_perm hpg]
    exact h.unmapped q hq
  · rw [← refsAll_perm hpg]
    exact h.writable p (hp.mem_iff.2 hm) x w hx hw

/-- The invariant, with a process first. -/
theorem Inv.mem (h : Inv g s lost opened) (hp : p ∈ s.procs) :
    ∃ rest, s.procs.Perm (p :: rest) ∧ Inv g { s with procs := p :: rest } lost opened := by
  obtain ⟨l, l', hl⟩ := List.append_of_mem hp
  have hperm : s.procs.Perm (p :: (l ++ l')) := hl ▸ List.perm_middle
  exact ⟨l ++ l', hperm, h.perm hperm⟩

/-- The first element with a property, and the others. -/
theorem perm_of_find {α : Type*} {P : α → Bool} {l : List α} {a : α} (h : l.find? P = some a) :
    l.Perm (a :: l.eraseP P) := by
  induction l with
  | nil => cases h
  | cons q l ih =>
    rw [List.find?_cons] at h
    rw [List.eraseP_cons]
    cases hq : P q with
    | true =>
      rw [hq] at h
      cases h
      exact .refl _
    | false =>
      rw [hq] at h
      exact ((ih h).cons q).trans (.swap _ _ _)

/-! ## A step of one process -/

theorem allBlocks_cons (p : Proc) (rest : List Proc) (opened : List Addr) (held : List (Addr × ℕ)) :
    allBlocks (p :: rest) opened held = p.blocks ++ allBlocks rest opened held := by
  simp [allBlocks]

theorem Inv.owned_cons (h : Inv g { s with procs := p :: rest } lost opened) :
    Owned s.vm (p.pgd :: pgds rest) (g.tables + lost) g.base
      (p.blocks ++ allBlocks rest opened s.held) := by
  rw [← allBlocks_cons]
  exact h.owned

/-- The memory and one process change, and the others do not notice. -/
theorem Inv.change (h : Inv g { s with procs := p :: rest } lost opened) (hfdt : p'.fdt = p.fdt)
    (howned : Owned vm' (p'.pgd :: pgds rest) (g.tables + lost') g.base
      (p'.blocks ++ allBlocks rest opened s.held))
    (hunmapped : ∀ q, (g.tables + lost') q ≠ 0 → refsAll vm'.mem (p'.pgd :: pgds rest) q = 0)
    (hwritable : ∀ x w, leafAt 256 vm'.mem p'.pgd x = some w → HasFlag w pteW →
      refsAll vm'.mem (p'.pgd :: pgds rest) (frameAt w) = 1)
    (hrest : ∀ q ∈ rest, ∀ x w, leafAt 256 s.vm.mem q.pgd x = some w → HasFlag w pteW →
      refsAll vm'.mem (p'.pgd :: pgds rest) (frameAt w) ≤ 1)
    (hregions : Regions (leafAt 256 vm'.mem p'.pgd) p'.vmas)
    (hsignals : SignalOk (leafAt 256 vm'.mem p'.pgd) p')
    (hothers : ∀ q ∈ rest, SameSpace 256 s.vm.mem vm'.mem q.pgd)
    (hupper : ∀ i : Fin 512, 256 ≤ i.val → vm'.mem p'.pgd i = g.mem g.pgd i)
    (hupperRest : UpperKept s.vm.mem vm'.mem (pgds rest))
    (hkernel : ∀ t, g.tables t ≠ 0 → vm'.mem t = s.vm.mem t) :
    Inv g { s with vm := vm', procs := p' :: rest } lost' opened := by
  refine ⟨?_, hunmapped, fun q hm x w hx hw => ?_, fun q hm => ?_, fun q hm => ?_,
    fun q hm i hi => ?_, fun t ht => (hkernel t ht).trans (h.kernel t ht), h.pgd, ?_, h.files.null,
    h.files.mem⟩
  · rw [← allBlocks_cons] at howned
    exact howned
  · rcases List.mem_cons.1 hm with rfl | hm'
    · exact hwritable x w hx hw
    · rw [(hothers q hm').leaf] at hx
      have hle := hrest q hm' x w hx hw
      have hmapped : mapped vm'.mem q.pgd x = some (frameAt w) := by
        rw [mapped, (hothers q hm').leaf, hx]
        rfl
      have hpos := refsIn_pos_of_mapped hmapped
      have hmem : q.pgd ∈ p'.pgd :: pgds rest := List.mem_cons_of_mem _ (List.mem_map_of_mem hm')
      have hin : refsIn vm'.mem q.pgd (frameAt w) ≤
          refsAll vm'.mem (p'.pgd :: pgds rest) (frameAt w) := refsIn_le_refsAll hmem
      change refsAll vm'.mem (p'.pgd :: pgds rest) (frameAt w) = 1
      omega
  · rcases List.mem_cons.1 hm with rfl | hm'
    · exact hregions
    · change Regions (leafAt 256 vm'.mem q.pgd) q.vmas
      rw [(hothers q hm').leaf]
      exact h.regions q (List.mem_cons_of_mem _ hm')
  · rcases List.mem_cons.1 hm with rfl | hm'
    · exact hsignals
    · change SignalOk (leafAt 256 vm'.mem q.pgd) q
      rw [(hothers q hm').leaf]
      exact h.signals q (List.mem_cons_of_mem _ hm')
  · rcases List.mem_cons.1 hm with rfl | hm'
    · exact hupper i hi
    · exact (hupperRest q.pgd (List.mem_map_of_mem hm') i hi).trans
        (h.upper q (List.mem_cons_of_mem _ hm') i hi)
  · have hrefs : fileRefs (p' :: rest) = fileRefs (p :: rest) := by
      funext f
      rw [fileRefs, fileRefs, List.map_cons, List.map_cons, hfdt]
    change Counted refCounter 0 s.files (fileRefs (p' :: rest))
    rw [hrefs]
    exact h.files.counted

end BareMetalOS.Process
