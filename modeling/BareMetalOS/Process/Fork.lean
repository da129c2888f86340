import BareMetalOS.Process.Pages

/-!
# `sys_fork`

`sys_fork` allocates a struct, a kernel stack, the tables of an address space and a structure for
each region. Where one of the first three is missing it returns `-1` and has given back what it had.
It does not notice that a structure for a region is missing: the list of the child then ends there
(`copyVmaList_data`). The invariant of the processes is kept by a call that copies the whole list.
-/

namespace BareMetalOS.Process

open Memory (Addr Allocator allocate blockBytes blocks)
open Mmu Sched Trap Files

variable {g : Ground} {s s' : Sys} {vm vm' : Vm} {p c : Proc} {rest : List Proc} {ps : List Addr}
  {lost loose : Addr → ℕ} {opened : List Addr} {x : Leaf} {w : BitVec 64} {v : VmArea}
  {vmas vmas' : List VmArea} {base : Addr → Option (ℕ × ℤ)} {held : List (Addr × ℕ)}
  {leaf : Leaf → Option (BitVec 64)} {ret : Option ℤ} {pgd : Addr}

/-! ## The list of regions -/

/-- The fields of a region, whatever the address of its structure. -/
def data (v : VmArea) : VmArea := { v with node := 0 }

/-- `allocate` has a structure for each of so many regions. -/
def NodesFor : ℕ → Allocator → Prop
  | 0, _ => True
  | n + 1, a => (allocate a sizeofVmArea).1 ≠ 0 ∧ NodesFor n (allocate a sizeofVmArea).2

instance : ∀ (n : ℕ) (a : Allocator), Decidable (NodesFor n a)
  | 0, _ => .isTrue trivial
  | n + 1, a =>
    have := instDecidableNodesFor n (allocate a sizeofVmArea).2
    inferInstanceAs (Decidable (_ ∧ _))

theorem copyVmaList_owned (vmas : List VmArea) (vm : Vm) (h : Owned vm ps loose base held) :
    Owned (copyVmaList vm vmas).1 ps loose base ((copyVmaList vm vmas).2.map vmaBlock ++ held) ∧
      (copyVmaList vm vmas).1.mem = vm.mem := by
  induction vmas generalizing vm held with
  | nil => exact ⟨h, rfl⟩
  | cons v vmas ih =>
    rw [copyVmaList]
    dsimp only
    rcases h.allocBlock sizeofVmArea with ⟨h0, howned⟩ | ⟨h0, howned⟩
    · rw [if_pos h0]
      exact ⟨howned, rfl⟩
    · rw [if_neg h0]
      obtain ⟨hrest, hmem⟩ := ih _ howned
      exact ⟨hrest.perm List.perm_middle, hmem⟩

/-- The copy has the regions of the original, as long as there is memory for them. -/
theorem copyVmaList_data (vmas : List VmArea) (vm : Vm) :
    (copyVmaList vm vmas).2.map data = vmas.map data ↔ NodesFor vmas.length vm.alloc := by
  induction vmas generalizing vm with
  | nil => exact iff_of_true rfl trivial
  | cons v vmas ih =>
    rw [copyVmaList]
    dsimp only
    rw [List.length_cons, NodesFor]
    by_cases h0 : (allocate vm.alloc sizeofVmArea).1 = 0
    · rw [if_pos h0]
      refine iff_of_false (fun h => ?_) fun h => h.1 h0
      cases h
    · rw [if_neg h0, and_iff_right h0, ← ih { vm with alloc := (allocate vm.alloc sizeofVmArea).2 },
        List.map_cons, List.map_cons]
      exact List.cons_inj_right (data v)

/-- The memory after the struct and the kernel stack of a child, and its address space. -/
def forkSpace (s : Sys) (p : Proc) : Vm × Addr :=
  forkPgd (allocBytes (allocBytes s.vm sizeofThread).2 kernelStackSize).2 s.kernelPgd p.pgd

/-- Once there is memory for the struct, the kernel stack and the tables of a child, there is memory
for its regions. -/
def ForkNodes (s : Sys) (p : Proc) : Prop :=
  (allocBytes s.vm sizeofThread).1 ≠ 0 →
    (allocBytes (allocBytes s.vm sizeofThread).2 kernelStackSize).1 ≠ 0 →
    (forkSpace s p).2 ≠ 0 → NodesFor p.vmas.length (forkSpace s p).1.alloc

instance (s : Sys) (p : Proc) : Decidable (ForkNodes s p) :=
  inferInstanceAs (Decidable (_ ≠ _ → _ ≠ _ → _ ≠ _ → NodesFor _ _))

/-- What the regions say does not depend on their structures. -/
theorem Regions.congr (h : Regions leaf vmas) (hd : vmas'.map data = vmas.map data) :
    Regions leaf vmas' := by
  have hmem : ∀ {l l' : List VmArea}, l'.map data = l.map data → ∀ v ∈ l', ∃ u ∈ l,
      u.start = v.start ∧ u.stop = v.stop ∧ u.prot = v.prot := by
    intro l l' hd v hv
    have hv' : data v ∈ l.map data := hd ▸ List.mem_map_of_mem hv
    obtain ⟨u, hu, heq⟩ := List.mem_map.1 hv'
    simp only [data, VmArea.mk.injEq] at heq
    exact ⟨u, hu, heq.2.1, heq.2.2.1, heq.2.2.2.1⟩
  have hpair : ∀ R : VmArea → VmArea → Prop, (∀ u v, R (data u) (data v) ↔ R u v) →
      vmas.Pairwise R → vmas'.Pairwise R := by
    intro R hR hp
    have hp' : (vmas.map data).Pairwise R := List.pairwise_map.2 (hp.imp fun {u v} => (hR u v).2)
    rw [← hd, List.pairwise_map] at hp'
    exact hp'.imp fun {u v} => (hR u v).1
  refine ⟨⟨hpair _ (fun _ _ => Iff.rfl) h.ok.sorted, hpair _ (fun _ _ => Iff.rfl) h.ok.apart, ?_⟩,
    ?_, ?_, ?_⟩
  · intro v hv
    obtain ⟨u, hu, hstart, hstop, -⟩ := hmem hd v hv
    rw [← hstart, ← hstop]
    exact h.ok.aligned u hu
  · intro v hv
    obtain ⟨u, hu, -, hstop, -⟩ := hmem hd v hv
    rw [← hstop]
    exact h.below u hu
  · intro v hv
    obtain ⟨u, hu, hstart, hstop, -⟩ := hmem hd v hv
    rw [← hstart, ← hstop]
    exact h.positive u hu
  · intro x w hx
    obtain ⟨u, hu, hcov, hflags⟩ := h.covered x w hx
    obtain ⟨v, hv, hstart, hstop, hprot⟩ := hmem hd.symm u hu
    refine ⟨v, hv, ?_, ?_⟩
    · rw [Covers, hstart, hstop]
      exact hcov
    · rw [FlagsOf, hprot]
      exact hflags

/-! ## Read-only pages -/

theorem readOnly_and : readOnly w &&& 0x3ff = readOnly (w &&& 0x3ff) := by
  rw [readOnly, readOnly, BitVec.and_assoc, BitVec.and_comm _ 0x3ff, ← BitVec.and_assoc]

theorem not_hasFlag_readOnly : ¬ HasFlag (readOnly w) pteW := by
  rw [hasFlag_w, readOnly, getLsbD_and_not_w]
  simp

theorem FlagsOf.readOnly (h : FlagsOf v w) : FlagsOf v (readOnly w) := by
  refine .inr ?_
  rw [readOnly_and]
  rcases h with h | h
  · rw [h]
  · rw [h, readOnly_readOnly]

/-- The regions of a process some of whose pages have become read-only. -/
theorem Regions.weaken {leaf' : Leaf → Option (BitVec 64)} (h : Regions leaf vmas)
    (hleaf : ∀ x, leaf' x = leaf x ∨ leaf' x = (leaf x).map readOnly) : Regions leaf' vmas := by
  refine ⟨h.ok, h.below, h.positive, fun x w hx => ?_⟩
  rcases hleaf x with heq | heq
  · rw [heq] at hx
    exact h.covered x w hx
  · rw [heq] at hx
    obtain ⟨w, hw, rfl⟩ := Option.map_eq_some_iff.1 hx
    obtain ⟨v, hv, hcov, hflags⟩ := h.covered x w hw
    exact ⟨v, hv, hcov, hflags.readOnly⟩

/-- The references after the address space has been copied, to a page that is no table. -/
theorem refsAll_forked (h : Forked vm vm' p.pgd pgd ps loose) {t : Addr}
    (hold : ¬ IsTable 256 vm.mem p.pgd t) (hnew : ¬ IsTable 256 vm'.mem p.pgd t)
    (hcopy : ¬ IsTable 256 vm'.mem pgd t) :
    refsAll vm'.mem (pgd :: p.pgd :: ps) t =
      refsIn vm.mem p.pgd t + refsAll vm.mem (p.pgd :: ps) t := by
  have hmapped : ∀ pgd',
      (∀ x, leafAt 256 vm'.mem pgd' x = (leafAt 256 vm.mem p.pgd x).map readOnly) →
      mapped vm'.mem pgd' = mapped vm.mem p.pgd := by
    intro pgd' hleaf
    funext x
    rw [mapped, mapped, hleaf, Option.map_map,
      show frameAt ∘ readOnly = frameAt from funext frameAt_readOnly]
  rw [refsAll_cons, refsAll_cons, refsAll_cons, refsAll_congr h.others, Pi.add_apply, Pi.add_apply,
    Pi.add_apply, refsIn_of_not_isTable hold, refsIn_of_not_isTable hnew,
    refsIn_of_not_isTable hcopy,
    hmapped p.pgd h.leaf, hmapped pgd h.copy]

namespace Inv

/-- The PGD of a process is a page, and it is not that of the kernel. -/
theorem pgd_ne (h : Inv g s lost opened) (hp : p ∈ s.procs) : p.pgd ≠ 0 ∧ p.pgd ≠ s.kernelPgd := by
  have htable : IsTable 256 s.vm.mem p.pgd p.pgd := .inl rfl
  constructor
  · have hpos := refsIn_pos_of_isTable htable
    have hle : refsIn s.vm.mem p.pgd p.pgd ≤ refsAll s.vm.mem (pgds s.procs) p.pgd :=
      refsIn_le_refsAll (mem_pgds hp)
    apply (h.owned.spaces.owns.pageAligned (p := p.pgd) _).2
    rw [Pi.add_apply]
    omega
  · intro heq
    rw [h.pgd.1] at heq
    apply (h.isFrame_kernel h.pgd.2).2 p.pgd (mem_pgds hp)
    rw [← heq]
    exact htable

/-- An undone `sys_fork` leaves some pages read-only. -/
theorem weaken (h : Inv g { s with procs := p :: rest } lost opened)
    (howned : Owned vm' (p.pgd :: pgds rest) (g.tables + lost) g.base
      (p.blocks ++ allBlocks rest opened s.held))
    (hweak : Weakened s.vm.mem vm'.mem p.pgd)
    (hothers : ∀ pgd' ∈ pgds rest, SameSpace 256 s.vm.mem vm'.mem pgd')
    (hframes : ∀ q, IsFrame s.vm (p.pgd :: pgds rest) (g.tables + lost) q → vm'.mem q = s.vm.mem q)
    (hupper : UpperKept s.vm.mem vm'.mem (p.pgd :: pgds rest))
    (hsig : p.task.isHandlingSignal = false) :
    Inv g { s with vm := vm', procs := p :: rest } lost opened := by
  have hp : p ∈ p :: rest := List.mem_cons_self ..
  have hrefs : refsAll vm'.mem (p.pgd :: pgds rest) = refsAll s.vm.mem (p.pgd :: pgds rest) := by
    rw [refsAll_cons, refsAll_cons, hweak.refsIn, refsAll_congr hothers]
  refine h.change rfl howned ?_ ?_ ?_ ((h.regions p hp).weaken hweak.leaf) ?_
    (fun q hq => hothers q.pgd (mem_pgds hq)) ?_
    (fun pgd' hm => hupper pgd' (List.mem_cons_of_mem _ hm))
    (fun t ht => hframes t (h.isFrame_kernel ht))
  · intro q hq
    rw [hrefs]
    exact h.unmapped q hq
  · intro x w hx hw
    rw [hrefs]
    rcases hweak.leaf x with heq | heq
    · rw [heq] at hx
      exact h.writable p hp x w hx hw
    · rw [heq] at hx
      obtain ⟨w', -, rfl⟩ := Option.map_eq_some_iff.1 hx
      exact absurd hw not_hasFlag_readOnly
  · intro q hq x w hx hw
    rw [hrefs]
    exact (h.writable q (List.mem_cons_of_mem _ hq) x w hx hw).le
  · exact (signalOk_of_not hsig).2 ((signalOk_of_not hsig).1 (h.signals p hp))
  · intro i hi
    exact (hupper p.pgd (List.mem_cons_self ..) i hi).trans (h.upper p hp i hi)

end Inv

/-- The files after the child has got the descriptors of its parent. -/
theorem FilesOk.retainFds (h : FilesOk { s with procs := p :: rest } opened) :
    ∃ files, Files.retainFds s.files p.fdt = some files ∧ ∀ c : Proc, c.fdt = p.fdt →
      FilesOk { s with files := files, procs := c :: p :: rest } opened := by
  have hin : ∀ f, fileRefs (p :: rest) f = (List.ofFn p.fdt).count f + fileRefs rest f := by
    intro f
    rw [fileRefs_cons]
    rfl
  obtain ⟨files, hfiles, hcounted⟩ := h.counted.retainAll (l := List.ofFn p.fdt) (by
    intro f hf _
    have hpos : 0 < (List.ofFn p.fdt).count f := List.count_pos_iff.2 hf
    change fileRefs (p :: rest) f ≠ 0
    rw [hin]
    omega)
  have hnull : files 0 = none := (retainAll_null hfiles).trans h.null
  refine ⟨files, hfiles, fun c hfdt => ⟨hcounted.congr fun f _ => ?_, hnull, fun f => ?_⟩⟩
  · change fileRefs (c :: p :: rest) f = _
    rw [fileRefs_cons c, hfdt, Nat.add_comm]
    rfl
  rw [h.mem]
  change s.files f ≠ none ↔ files f ≠ none
  rcases eq_or_ne f 0 with rfl | h0
  · rw [hnull]
    exact not_congr (iff_of_eq (congrArg (· = none) h.null))
  · have hold : s.files f = none ↔ fileRefs (p :: rest) f = 0 := h.counted.alive f h0
    have hnew : files f = none ↔ fileRefs (p :: rest) f + (List.ofFn p.fdt).count f = 0 :=
      hcounted.alive f h0
    rw [ne_eq, ne_eq, hold, hnew, hin]
    omega

/-! ## The call -/

/-- What `sys_fork` does, by the allocation that fails. -/
theorem sysFork_cases (howned : Owned s.vm (p.pgd :: pgds rest) loose base held)
    (hpgd : p.pgd ≠ 0 ∧ p.pgd ≠ s.kernelPgd) (hok : FilesOk { s with procs := p :: rest } opened)
    (hpid : s.nrThreads < 2 ^ 31 - 1) :
    (∃ vm' n,
      sysFork s p rest = some ({ s with vm := vm', nrThreads := n, procs := p :: rest }, none) ∧
      Owned vm' (p.pgd :: pgds rest) loose base held ∧ Weakened s.vm.mem vm'.mem p.pgd ∧
      (∀ pgd' ∈ pgds rest, SameSpace 256 s.vm.mem vm'.mem pgd') ∧
      (∀ q, IsFrame s.vm (p.pgd :: pgds rest) loose q → vm'.mem q = s.vm.mem q) ∧
      UpperKept s.vm.mem vm'.mem (p.pgd :: pgds rest) ∧ ForkNodes s p) ∨
    ∃ child kernelStack pgd vm' files,
      sysFork s p rest = some ({ s with
        vm := (copyVmaList vm' p.vmas).1
        nrThreads := s.nrThreads + 1
        files := files
        procs := forkChild p child kernelStack pgd (copyVmaList vm' p.vmas).2 s.nrThreads ::
          p :: rest }, some s.nrThreads) ∧
      Owned vm' (pgd :: p.pgd :: pgds rest) loose base
        ((kernelStack, blockBytes kernelStackSize) :: (child, blockBytes sizeofThread) :: held) ∧
      Forked s.vm vm' p.pgd pgd (pgds rest) loose ∧
      (∀ c : Proc, c.fdt = p.fdt →
        FilesOk { s with files := files, procs := c :: p :: rest } opened) ∧
      (ForkNodes s p ↔ NodesFor p.vmas.length vm'.alloc) := by
  have hfork : ∀ vm, forkPgd vm s.kernelPgd p.pgd = copyPgd vm p.pgd := fun _ => if_pos hpgd
  obtain ⟨files, hfiles, hfilesOk⟩ := hok.retainFds
  unfold sysFork ForkNodes forkSpace allocBytes
  dsimp only
  rw [if_pos hpid]
  rcases howned.allocBlock sizeofThread with ⟨h0, h₁⟩ | ⟨h0, h₁⟩
  · rw [if_pos h0]
    exact .inl ⟨_, _, rfl, h₁, ⟨rfl, rfl, fun x => .inl rfl⟩, fun _ _ => .refl _ _, fun _ _ => rfl,
      fun _ _ _ _ => rfl, fun hne => absurd h0 hne⟩
  rw [if_neg h0]
  generalize hc : (allocate s.vm.alloc sizeofThread).1 = child at *
  generalize (allocate s.vm.alloc sizeofThread).2 = a₁ at *
  rcases h₁.allocBlock kernelStackSize with ⟨h0', h₂⟩ | ⟨h0', h₂⟩
  · rw [if_pos h0']
    exact .inl ⟨_, _, rfl, h₂.freeBlock, ⟨rfl, rfl, fun x => .inl rfl⟩, fun _ _ => .refl _ _,
      fun _ _ => rfl, fun _ _ _ _ => rfl, fun _ hne => absurd h0' hne⟩
  rw [if_neg h0']
  dsimp only at h₂ h0' ⊢
  generalize (allocate a₁ kernelStackSize).1 = stack at *
  generalize (allocate a₁ kernelStackSize).2 = a₂ at *
  rw [hfork]
  rcases copyPgd_spec h₂.spaces with ⟨h0'', hs, hweak, hothers, hframes, hupper⟩ |
    ⟨h0'', hs, hforked⟩
  · rw [if_pos h0'']
    have howned := (h₂.of_spaces hs).freeBlock.freeBlock
    exact .inl ⟨_, _, rfl, howned, hweak, hothers, fun q hq => (hframes q hq).2, hupper,
      fun _ _ hne => absurd h0'' hne⟩
  · rw [if_neg h0'', hfiles]
    exact .inr ⟨child, stack, _, _, files, rfl, h₂.of_spaces hs, ⟨hforked.leaf, hforked.copy,
      hforked.others, hforked.frames, hforked.upper, hforked.upperCopy⟩, hfilesOk,
      fun hn => hn h0 h0' h0'', fun hn _ _ _ => hn⟩

namespace Inv

/-- The invariant after a child has got the whole address space and all regions of its parent. -/
theorem forked {child stack pgd : Addr} {files : Addr → Option File}
    (h : Inv g { s with procs := p :: rest } lost opened) (hsig : p.task.isHandlingSignal = false)
    (howned : Owned vm' (pgd :: p.pgd :: pgds rest) (g.tables + lost) g.base
      (((stack, blockBytes kernelStackSize)) :: (child, blockBytes sizeofThread) ::
        (p.blocks ++ allBlocks rest opened s.held)))
    (hforked : Forked s.vm vm' p.pgd pgd (pgds rest) (g.tables + lost))
    (hfiles : ∀ c : Proc, c.fdt = p.fdt →
      FilesOk { s with files := files, procs := c :: p :: rest } opened)
    (hnodes : NodesFor p.vmas.length vm'.alloc) (pid n : ℤ) :
    Inv g { s with
      vm := (copyVmaList vm' p.vmas).1
      nrThreads := n
      files := files
      procs := forkChild p child stack pgd (copyVmaList vm' p.vmas).2 pid :: p :: rest }
      lost opened := by
  obtain ⟨howned', hmem⟩ := copyVmaList_owned p.vmas vm' howned
  have hdata := (copyVmaList_data p.vmas vm').2 hnodes
  have hp : p ∈ p :: rest := List.mem_cons_self ..
  generalize (copyVmaList vm' p.vmas).1 = vm'' at *
  generalize (copyVmaList vm' p.vmas).2 = vmas at *
  have hreg := h.regions p hp
  have hpage : p.signalStackPage = 0 := (signalOk_of_not hsig).1 (h.signals p hp)
  have hreg' : Regions (fun x => (leafAt 256 s.vm.mem p.pgd x).map readOnly) p.vmas :=
    hreg.weaken fun x => .inr rfl
  have hleaf : leafAt 256 vm''.mem p.pgd = fun x => (leafAt 256 s.vm.mem p.pgd x).map readOnly := by
    rw [hmem]
    exact funext hforked.leaf
  have hcopy : leafAt 256 vm''.mem pgd = fun x => (leafAt 256 s.vm.mem p.pgd x).map readOnly := by
    rw [hmem]
    exact funext hforked.copy
  have hrest : ∀ q ∈ rest, leafAt 256 vm''.mem q.pgd = leafAt 256 s.vm.mem q.pgd := by
    intro q hq
    rw [hmem]
    exact (hforked.others q.pgd (mem_pgds hq)).leaf
  have hno : ∀ {o : Option (BitVec 64)} {w}, o.map readOnly = some w → ¬ HasFlag w pteW := by
    intro o w hw
    obtain ⟨w, -, rfl⟩ := Option.map_eq_some_iff.1 hw
    exact not_hasFlag_readOnly
  obtain ⟨hcounted, hnull, hopened⟩ :=
    hfiles (forkChild p child stack pgd vmas pid) rfl
  have hspaces : Spaces vm'' (pgd :: p.pgd :: pgds rest) (g.tables + lost) _ := howned'.spaces
  -- the references to a page that is no table, before and after
  have hrefs : ∀ t, ¬ IsTable 256 s.vm.mem p.pgd t →
      (∀ pgd' ∈ pgd :: p.pgd :: pgds rest, ¬ IsTable 256 vm''.mem pgd' t) →
      refsAll vm''.mem (pgd :: p.pgd :: pgds rest) t =
        refsIn s.vm.mem p.pgd t + refsAll s.vm.mem (p.pgd :: pgds rest) t := by
    intro t ht ht'
    rw [hmem] at ht' ⊢
    exact refsAll_forked hforked ht (ht' p.pgd (by simp)) (ht' pgd (by simp))
  refine ⟨howned'.perm ?_, fun t ht => ?_, fun q hq x w hx hw => ?_, fun q hq => ?_, fun q hq => ?_,
    fun q hq i hi => ?_, fun t ht => ?_, h.pgd, hcounted, hnull, hopened⟩
  · rw [allBlocks_cons, allBlocks_cons]
    exact (List.perm_middle.trans (List.perm_middle.cons _)).trans (.swap _ _ _)
  · have hold : ¬ IsTable 256 s.vm.mem p.pgd t :=
      h.owned.spaces.not_isTable_of_loose ht (mem_pgds hp)
    have hzero : refsAll s.vm.mem (p.pgd :: pgds rest) t = 0 := h.unmapped t ht
    have hle : refsIn s.vm.mem p.pgd t ≤ refsAll s.vm.mem (p.pgd :: pgds rest) t :=
      refsIn_le_refsAll (List.mem_cons_self ..)
    have heq := hrefs t hold fun pgd' hm => hspaces.not_isTable_of_loose ht hm
    change refsAll vm''.mem (pgd :: p.pgd :: pgds rest) t = 0
    omega
  · rcases List.mem_cons.1 hq with rfl | hq
    · exact absurd hw (hno ((congrFun hcopy x).symm.trans hx))
    rcases List.mem_cons.1 hq with rfl | hq
    · exact absurd hw (hno ((congrFun hleaf x).symm.trans hx))
    · have hx' : mapped vm''.mem q.pgd x = some (frameAt w) := by
        rw [mapped, hx]
        rfl
      have hx'' : leafAt 256 s.vm.mem q.pgd x = some w := (congrFun (hrest q hq) x).symm.trans hx
      have hone : refsAll s.vm.mem (p.pgd :: pgds rest) (frameAt w) = 1 :=
        h.writable q (List.mem_cons_of_mem _ hq) x w hx'' hw
      have hpos : 0 < refsAll s.vm.mem (pgds rest) (frameAt w) := refsAll_pos hx'' (mem_pgds hq)
      have heq := hrefs (frameAt w)
        (h.not_isTable_leaf (List.mem_cons_of_mem _ hq) hx'' (mem_pgds hp)) fun pgd' hm =>
          hspaces.not_isTable_of_mapped (by simp [mem_pgds hq]) hx' hm
      rw [refsAll_cons, Pi.add_apply] at hone
      rw [refsAll_cons s.vm.mem, Pi.add_apply] at heq
      change refsAll vm''.mem (pgd :: p.pgd :: pgds rest) (frameAt w) = 1
      omega
  · rcases List.mem_cons.1 hq with rfl | hq
    · change Regions (leafAt 256 vm''.mem pgd) vmas
      rw [hcopy]
      exact hreg'.congr hdata
    rcases List.mem_cons.1 hq with rfl | hq
    · change Regions (leafAt 256 vm''.mem q.pgd) q.vmas
      rw [hleaf]
      exact hreg'
    · change Regions (leafAt 256 vm''.mem q.pgd) q.vmas
      rw [hrest q hq]
      exact h.regions q (List.mem_cons_of_mem _ hq)
  · rcases List.mem_cons.1 hq with rfl | hq
    · exact (signalOk_of_not rfl).2 rfl
    rcases List.mem_cons.1 hq with rfl | hq
    · exact (signalOk_of_not hsig).2 hpage
    · change SignalOk (leafAt 256 vm''.mem q.pgd) q
      rw [hrest q hq]
      exact h.signals q (List.mem_cons_of_mem _ hq)
  · change vm''.mem q.pgd i = g.mem g.pgd i
    rw [hmem]
    rcases List.mem_cons.1 hq with rfl | hq
    · exact (hforked.upperCopy i hi).trans (h.upper p hp i hi)
    · exact (hforked.upper q.pgd (mem_pgds hq) i hi).trans (h.upper q hq i hi)
  · change vm''.mem t = g.mem t
    rw [hmem, (hforked.frames t (h.isFrame_kernel ht)).2]
    exact h.kernel t ht

/-- `sys_fork` that copies the whole list of regions, or fails. -/
theorem fork (h : Inv g { s with procs := p :: rest } lost opened)
    (hsig : p.task.isHandlingSignal = false) (hnodes : ForkNodes s p)
    (hf : sysFork s p rest = some (s', ret)) : Inv g s' lost opened := by
  by_cases hpid : s.nrThreads < 2 ^ 31 - 1
  case neg =>
    unfold sysFork allocBytes at hf
    dsimp only at hf
    rcases h.owned_cons.allocBlock sizeofThread with ⟨h0, howned⟩ | ⟨h0, -⟩
    · rw [if_pos h0, Option.some_inj, Prod.mk.injEq] at hf
      rw [← hf.1]
      exact h.weaken howned ⟨rfl, rfl, fun x => .inl rfl⟩ (fun _ _ => .refl _ _) (fun _ _ => rfl)
        (fun _ _ _ _ => rfl) hsig
    · rw [if_neg h0, if_neg hpid] at hf
      cases hf
  rcases sysFork_cases h.owned_cons (h.pgd_ne (List.mem_cons_self ..)) h.files hpid with
    ⟨vm', n, heq, howned, hweak, hothers, hframes, hupper, -⟩ |
    ⟨child, stack, pgd, vm', files, heq, howned, hforked, hfiles, hiff⟩
  · rw [hf, Option.some_inj, Prod.mk.injEq] at heq
    have h' := h.weaken howned hweak hothers hframes hupper hsig
    rw [heq.1]
    exact ⟨h'.owned, h'.unmapped, h'.writable, h'.regions, h'.signals, h'.upper, h'.kernel, h'.pgd,
      h'.files.counted, h'.files.null, h'.files.mem⟩
  · rw [hf, Option.some_inj, Prod.mk.injEq] at heq
    rw [heq.1]
    exact h.forked hsig howned hforked hfiles (hiff.1 hnodes) _ _

end Inv

end BareMetalOS.Process
