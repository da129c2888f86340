import BareMetalOS.Process.Fork

/-!
# Programs

A program starts with an address space that maps nothing but the kernel, and with two regions, its
code and its stack. `sys_exec` and `launch` set it up; `sys_exec` and `kill_zombies` free what the
process had before.
-/

namespace BareMetalOS.Process

open Memory (Addr blockBytes)
open Mmu Sched Trap Files

variable {g : Ground} {s s' : Sys} {vm vm' : Vm} {p p' : Proc} {rest : List Proc} {ps : List Addr}
  {lost loose : Addr → ℕ} {opened : List Addr} {w : BitVec 64} {vmas : List VmArea}
  {base : Addr → Option (ℕ × ℤ)} {held : List (Addr × ℕ)} {leaf : Leaf → Option (BitVec 64)}
  {pgd k dat : Addr} {size : BitVec 32}

/-! ## The address space -/

/-- An address space without user mappings has been added. -/
structure NewSpace (vm vm' : Vm) (pgd k : Addr) (ps : List Addr) (loose : Addr → ℕ) : Prop where
  leaf : ∀ x, leafAt 256 vm'.mem pgd x = none
  others : ∀ pgd' ∈ ps, SameSpace 256 vm.mem vm'.mem pgd'
  frames : ∀ q, IsFrame vm ps loose q → vm'.mem q = vm.mem q
  upper : ∀ i : Fin 512, 256 ≤ i.val → vm'.mem pgd i = vm.mem k i
  upperKept : UpperKept vm.mem vm'.mem ps

theorem newPgd_spec (h : Owned vm ps loose base held) (hn : newPgd vm k = some (pgd, vm')) :
    Owned vm' (pgd :: ps) loose base held ∧ NewSpace vm vm' pgd k ps loose := by
  rw [newPgd] at hn
  dsimp only at hn
  rcases h.spaces.allocPage with ⟨h0, -⟩ | ⟨h0, -, hnew, hs⟩
  · rw [if_pos h0] at hn
    cases hn
  · rw [if_neg h0, Option.some_inj, Prod.mk.injEq] at hn
    obtain ⟨rfl, rfl⟩ := hn
    obtain ⟨hs', hpmd, hsame, hframes⟩ := hs.newPgd hnew
      (fun i => if 256 ≤ i.val then vm.allocPage.2.mem k i else 0) fun i hi => if_neg (by omega)
    refine ⟨h.of_spaces hs', leafAt_of_pmdAt_none hpmd, hsame, fun q hq => (hframes q hq).2,
      fun i hi => ?_, fun pgd' hm i _ => ?_⟩
    · rw [setPage_mem, Function.update_self, if_pos hi]
      rfl
    · rw [setPage_mem, Function.update_of_ne]
      · rfl
      · rintro rfl
        exact hs.not_isTable_of_loose (by simp) hm (.inl rfl)

/-- An address space without user mappings refers to its tables only. -/
theorem refsAll_empty {m m' : Mem} {t : Addr} (hleaf : ∀ x, leafAt 256 m' pgd x = none)
    (hothers : ∀ pgd' ∈ ps, SameSpace 256 m m' pgd') (ht : ¬ IsTable 256 m' pgd t) :
    refsAll m' (pgd :: ps) t = refsAll m ps t := by
  have hzero : fiber (mapped m' pgd) t = 0 := by
    rw [fiber_eq_zero]
    intro x
    rw [mapped, hleaf]
    simp
  rw [refsAll_cons, Pi.add_apply, refsIn_of_not_isTable ht, refsAll_congr hothers, hzero, zero_add]

/-! ## The regions -/

/-- The regions of a program. -/
theorem programVmas_spec (h : Owned vm ps loose base held)
    (hv : programVmas vm dat size = some (vm', vmas)) :
    Owned vm' ps loose base (vmas.map vmaBlock ++ held) ∧ vm'.mem = vm.mem ∧
      ∃ code stack, vmas = [⟨code, 0, codeLength size, protRead ||| protWrite ||| protExec,
        mapAnonymous, dat, size.signExtend 64⟩, ⟨stack, stackTop - userStackSize, stackTop,
        protRead ||| protWrite, mapAnonymous, 0, 0⟩] := by
  unfold programVmas Mmu.addVma at hv
  dsimp only at hv
  rcases h.allocBlock sizeofVmArea with ⟨h0, -⟩ | ⟨h0, h₁⟩
  · rw [if_pos h0] at hv
    cases hv
  rw [if_neg h0, Option.bind_eq_bind, Option.bind_some] at hv
  generalize (Memory.allocate vm.alloc sizeofVmArea).1 = code at *
  generalize (Memory.allocate vm.alloc sizeofVmArea).2 = a₁ at *
  rcases h₁.allocBlock sizeofVmArea with ⟨h0', -⟩ | ⟨h0', h₂⟩
  · rw [if_pos h0'] at hv
    cases hv
  rw [if_neg h0', Option.some_inj, Prod.mk.injEq] at hv
  obtain ⟨rfl, rfl⟩ := hv
  refine ⟨h₂.perm (.swap _ _ _), rfl, code, (Memory.allocate a₁ sizeofVmArea).1, ?_⟩
  rw [show (0 : Addr) + codeLength size = codeLength size from BitVec.zero_add _]
  rfl

theorem toNat_codeLength (h : 0 ≤ size.toInt) :
    (codeLength size).toNat = (size.toNat + 4095) / 4096 * 4096 := by
  have hlt : 2 * size.toNat < 2 ^ 32 := by
    rw [BitVec.toInt_eq_toNat_cond] at h
    split at h <;> omega
  have hext : size.signExtend 64 = size.setWidth 64 := by
    apply BitVec.signExtend_eq_setWidth_of_msb_false
    rw [BitVec.msb_eq_false_iff_two_mul_lt]
    exact hlt
  have hsum : (size.setWidth 64 + 4096 - 1).toNat = size.toNat + 4095 := by
    rw [BitVec.toNat_sub, BitVec.toNat_add, BitVec.toNat_setWidth,
      show (4096 : BitVec 64).toNat = 4096 from rfl, show (1 : BitVec 64).toNat = 1 from rfl]
    omega
  rw [codeLength, hext, BitVec.toNat_mul, BitVec.toNat_udiv, hsum,
    show (4096 : BitVec 64).toNat = 4096 from rfl]
  omega

/-- The regions of a program that is not too large are in order. -/
theorem programVmas_regions (hsize : 0 ≤ size.toInt) (code stack dat fileSize : BitVec 64)
    (hleaf : ∀ x, leaf x = none) (prot prot' flags : BitVec 64) :
    Regions leaf [⟨code, 0, codeLength size, prot, flags, dat, fileSize⟩,
      ⟨stack, stackTop - userStackSize, stackTop, prot', flags, 0, 0⟩] := by
  have hcode := toNat_codeLength hsize
  have hlt : 2 * size.toNat < 2 ^ 32 := by
    rw [BitVec.toInt_eq_toNat_cond] at hsize
    split at hsize <;> omega
  have hbottom : (stackTop - userStackSize).toNat = 0x3fffffe000 := rfl
  have htop : stackTop.toNat = 0x4000000000 := rfl
  have h0 : (0 : BitVec 64).toNat = 0 := rfl
  refine ⟨⟨?_, ?_, ?_⟩, ?_, ?_, ?_⟩
  · simp
  · simp [hcode, hbottom]
    omega
  · simp [hcode, hbottom, htop]
  · simp [hcode, htop]
    omega
  · simp [hbottom, htop]
  · intro x w hx
    rw [hleaf] at hx
    cases hx

/-! ## The steps -/

/-- The blocks of a process, with those of its regions first. -/
theorem blocks_vmas (p : Proc) (held : List (Addr × ℕ)) : (p.blocks ++ held).Perm
    (p.vmas.map vmaBlock ++ ((p.addr, blockBytes sizeofThread) ::
      (p.kernelStack, blockBytes kernelStackSize) :: held)) :=
  ((List.perm_middle.trans (List.perm_middle.cons _)).trans (.refl _)).symm

/-- The structures of the regions are freed. -/
theorem freeVmas_owned (h : Owned vm ps loose base (p.blocks ++ held)) :
    Owned (freeVmas vm p.vmas) ps loose base ((p.addr, blockBytes sizeofThread) ::
      (p.kernelStack, blockBytes kernelStackSize) :: held) := by
  have howned := (h.perm (blocks_vmas p held)).freeBlocks
  rw [List.map_map] at howned
  exact howned

namespace Inv

/-- Nothing is mapped in the address space that `sys_exec` makes. -/
theorem exec_unmapped (h : Inv g { s with procs := p :: rest } lost opened)
    (he : sysExec s.vm s.kernelPgd p dat size = some (vm', p')) (x : Leaf) :
    mapped vm'.mem p'.pgd x = none := by
  have hne' : p.pgd ≠ 0 ∧ p.pgd ≠ s.kernelPgd := h.pgd_ne (List.mem_cons_self ..)
  unfold sysExec at he
  dsimp only at he
  obtain ⟨⟨pgd, vm₂⟩, hnew, he⟩ := Option.bind_eq_some_iff.1 he
  obtain ⟨⟨vm₃, vmas⟩, hvmas, he⟩ := Option.bind_eq_some_iff.1 he
  dsimp only at hnew hvmas he
  rw [if_pos hne'] at he
  obtain ⟨rfl, rfl⟩ := Prod.mk.inj (Option.some.inj he)
  obtain ⟨howned₂, hspace⟩ := newPgd_spec (freeVmas_owned h.owned_cons) hnew
  obtain ⟨-, hmem₃, -⟩ := programVmas_spec howned₂ hvmas
  rw [mapped, freePgd_mem, hmem₃, hspace.leaf]
  rfl

/-- `sys_exec` by a process that handles no signal. -/
theorem exec (h : Inv g { s with procs := p :: rest } lost opened)
    (hsig : p.task.isHandlingSignal = false) (hsize : 0 ≤ size.toInt)
    (he : sysExec s.vm s.kernelPgd p dat size = some (vm', p')) :
    Inv g { s with vm := vm', procs := p' :: rest } lost opened := by
  have hp : p ∈ p :: rest := List.mem_cons_self ..
  have hne := h.pgd_ne hp
  have hne' : p.pgd ≠ 0 ∧ p.pgd ≠ s.kernelPgd := hne
  unfold sysExec at he
  dsimp only at he
  obtain ⟨⟨pgd, vm₂⟩, hnew, he⟩ := Option.bind_eq_some_iff.1 he
  obtain ⟨⟨vm₃, vmas⟩, hvmas, he⟩ := Option.bind_eq_some_iff.1 he
  dsimp only at hnew hvmas he
  rw [if_pos hne'] at he
  obtain ⟨rfl, rfl⟩ := Prod.mk.inj (Option.some.inj he)
  obtain ⟨howned₂, hspace⟩ := newPgd_spec (freeVmas_owned h.owned_cons) hnew
  obtain ⟨howned₃, hmem₃, code, stack, hlist⟩ := programVmas_spec howned₂ hvmas
  have hfmem : (freeVmas s.vm p.vmas).mem = s.vm.mem := freeAll_mem _ _
  have hmem : (freePgd vm₃ p.pgd).mem = vm₂.mem := (freePgd_mem _ _).trans hmem₃
  obtain ⟨hleaf, hothers, hframes, hupper, hkept⟩ := hspace
  rw [hfmem] at hothers hupper hkept
  have hspaces₃ := (howned₃.spaces.perm (.swap _ _ _)).freePgd
  have howned : Owned (freePgd vm₃ p.pgd) (pgd :: pgds rest) (g.tables + lost) g.base
      (Proc.blocks { p with pgd := pgd, vmas := vmas } ++ allBlocks rest opened s.held) :=
    (howned₃.of_spaces hspaces₃).perm (blocks_vmas { p with pgd := pgd, vmas := vmas } _).symm
  -- nothing is mapped in the new address space
  have hrefs : ∀ t, ¬ IsTable 256 (freePgd vm₃ p.pgd).mem pgd t →
      refsAll (freePgd vm₃ p.pgd).mem (pgd :: pgds rest) t = refsAll s.vm.mem (pgds rest) t := by
    intro t ht
    rw [hmem] at ht ⊢
    exact refsAll_empty hleaf (fun pgd' hm => hothers pgd' (List.mem_cons_of_mem _ hm)) ht
  have hle : ∀ t, refsAll s.vm.mem (pgds rest) t ≤ refsAll s.vm.mem (p.pgd :: pgds rest) t := by
    intro t
    rw [refsAll_cons, Pi.add_apply]
    omega
  refine h.change rfl howned ?_ ?_ ?_ ?_ ?_ ?_ ?_ ?_ ?_
  · intro t ht
    have h0 : refsAll s.vm.mem (p.pgd :: pgds rest) t = 0 := h.unmapped t ht
    have hle' := hle t
    have heq := hrefs t (howned.spaces.not_isTable_of_loose ht (List.mem_cons_self ..))
    change refsAll (freePgd vm₃ p.pgd).mem (pgd :: pgds rest) t = 0
    omega
  · intro x w hx _
    dsimp only at hx
    rw [hmem, hleaf] at hx
    cases hx
  · intro q hq x w hx hw
    have hone : refsAll s.vm.mem (p.pgd :: pgds rest) (frameAt w) = 1 :=
      h.writable q (List.mem_cons_of_mem _ hq) x w hx hw
    have hle' := hle (frameAt w)
    have hx' : mapped (freePgd vm₃ p.pgd).mem q.pgd x = some (frameAt w) := by
      rw [mapped, hmem, (hothers q.pgd (List.mem_cons_of_mem _ (mem_pgds hq))).leaf, hx]
      rfl
    have heq := hrefs (frameAt w) (howned.spaces.not_isTable_of_mapped
      (List.mem_cons_of_mem _ (mem_pgds hq)) hx' (List.mem_cons_self ..))
    change refsAll (freePgd vm₃ p.pgd).mem (pgd :: pgds rest) (frameAt w) ≤ 1
    omega
  · dsimp only
    rw [hlist, hmem]
    exact programVmas_regions hsize code stack _ _ hleaf _ _ _
  · exact (signalOk_of_not (by exact hsig)).2 ((signalOk_of_not hsig).1 (h.signals p hp))
  · intro q hq
    rw [hmem]
    exact hothers q.pgd (List.mem_cons_of_mem _ (mem_pgds hq))
  · intro i hi
    dsimp only
    rw [hmem, hupper i hi, h.pgd.1, h.kernel _ h.pgd.2]
  · intro pgd' hm i hi
    rw [hmem]
    exact hkept pgd' (List.mem_cons_of_mem _ hm) i hi
  · intro t ht
    have hframe : IsFrame (freeVmas s.vm p.vmas) (p.pgd :: pgds rest) (g.tables + lost) t := by
      have hk : IsFrame s.vm (p.pgd :: pgds rest) (g.tables + lost) t := h.isFrame_kernel ht
      rw [IsFrame, hfmem]
      exact hk
    rw [hmem, hframes t hframe, hfmem]

/-- A program is started. -/
theorem launch {pid : ℤ} (h : Inv g s lost opened) (hsize : 0 ≤ size.toInt)
    (hl : Process.launch s.vm s.kernelPgd pid dat size = some (vm', p)) (n : ℤ) :
    Inv g { s with vm := vm', procs := p :: s.procs, nrThreads := n } lost opened := by
  unfold Process.launch allocBytes at hl
  dsimp only at hl
  rcases h.owned.allocBlock sizeofThread with ⟨h0, -⟩ | ⟨h0, h₁⟩
  · rw [if_pos h0] at hl
    cases hl
  rw [if_neg h0] at hl
  generalize (Memory.allocate s.vm.alloc sizeofThread).1 = addr at *
  generalize (Memory.allocate s.vm.alloc sizeofThread).2 = a₁ at *
  rcases h₁.allocBlock kernelStackSize with ⟨h0', -⟩ | ⟨h0', h₂⟩
  · rw [if_pos h0'] at hl
    cases hl
  rw [if_neg h0'] at hl
  dsimp only at h₂ hl
  generalize (Memory.allocate a₁ kernelStackSize).1 = stack at *
  generalize (Memory.allocate a₁ kernelStackSize).2 = a₂ at *
  obtain ⟨-, -, hl⟩ := Option.bind_eq_some_iff.1 hl
  obtain ⟨-, -, hl⟩ := Option.bind_eq_some_iff.1 hl
  obtain ⟨⟨pgd, vm₃⟩, hnew, hl⟩ := Option.bind_eq_some_iff.1 hl
  obtain ⟨⟨vm₄, vmas⟩, hvmas, hl⟩ := Option.bind_eq_some_iff.1 hl
  obtain ⟨rfl, rfl⟩ := Prod.mk.inj (Option.some.inj hl)
  obtain ⟨howned₃, hleaf, hothers, hframes, hupper, hkept⟩ := newPgd_spec h₂ hnew
  obtain ⟨howned₄, hmem, code, stack', hlist⟩ := programVmas_spec howned₃ hvmas
  rw [← hmem] at hleaf hothers hframes hupper hkept
  have howned : Owned vm₄ (pgd :: pgds s.procs) (g.tables + lost) g.base
      ((addr, blockBytes sizeofThread) :: (stack, blockBytes kernelStackSize) ::
        (vmas.map vmaBlock ++ allBlocks s.procs opened s.held)) := by
    apply howned₄.perm
    exact (List.perm_middle.trans (List.perm_middle.cons _)).trans (.swap _ _ _)
  have hspaces : Spaces vm₄ (pgd :: pgds s.procs) (g.tables + lost) _ := howned.spaces
  have hframes' : ∀ t, IsFrame s.vm (pgds s.procs) (g.tables + lost) t → vm₄.mem t = s.vm.mem t :=
    hframes
  clear hframes howned₃ howned₄
  refine ⟨?_, fun t ht => ?_, fun q hq x w hx hw => ?_, fun q hq => ?_, fun q hq => ?_,
    fun q hq i hi => ?_, fun t ht => ?_, h.pgd, h.files.counted.congr fun f hf => ?_, h.files.null,
    h.files.mem⟩
  · rw [allBlocks_cons]
    exact howned
  · rw [pgds_cons, refsAll_empty hleaf hothers
      (hspaces.not_isTable_of_loose ht (List.mem_cons_self ..))]
    exact h.unmapped t ht
  · rcases List.mem_cons.1 hq with rfl | hq
    · rw [hleaf] at hx
      cases hx
    · have hx' : mapped vm₄.mem q.pgd x = some (frameAt w) := by
        rw [mapped, hx]
        rfl
      rw [(hothers q.pgd (mem_pgds hq)).leaf] at hx
      rw [pgds_cons, refsAll_empty hleaf hothers (hspaces.not_isTable_of_mapped
        (List.mem_cons_of_mem _ (mem_pgds hq)) hx' (List.mem_cons_self ..))]
      exact h.writable q hq x w hx hw
  · rcases List.mem_cons.1 hq with rfl | hq
    · dsimp only
      rw [hlist]
      exact programVmas_regions hsize code stack' _ _ hleaf _ _ _
    · rw [(hothers q.pgd (mem_pgds hq)).leaf]
      exact h.regions q hq
  · rcases List.mem_cons.1 hq with rfl | hq
    · exact (signalOk_of_not rfl).2 rfl
    · rw [(hothers q.pgd (mem_pgds hq)).leaf]
      exact h.signals q hq
  · rcases List.mem_cons.1 hq with rfl | hq
    · exact (hupper i hi).trans ((congrFun (h.kernel _ (h.pgd.1 ▸ h.pgd.2)) i).trans
        (by rw [h.pgd.1]))
    · exact (hkept q.pgd (mem_pgds hq) i hi).trans (h.upper q hq i hi)
  · exact (hframes' t (h.isFrame_kernel ht)).trans (h.kernel t ht)
  · rw [fileRefs_cons, Fdt.refs_zero hf, zero_add]

/-- `kill_zombies` frees a process whose descriptors are closed. -/
theorem reap (h : Inv g { s with procs := p :: rest } lost opened) (hfdt : p.fdt = fun _ => 0) :
    Inv g { s with vm := Process.reap s.vm s.kernelPgd p, procs := rest } lost opened := by
  have hp : p ∈ p :: rest := List.mem_cons_self ..
  have hne : p.pgd ≠ 0 ∧ p.pgd ≠ s.kernelPgd := h.pgd_ne hp
  have hstack : p.kernelStack ≠ 0 :=
    h.owned_cons.ne_zero (List.mem_cons_of_mem _ (List.mem_cons_self ..)) (by decide)
  have hmem : (Process.reap s.vm s.kernelPgd p).mem = s.vm.mem := by
    rw [Process.reap, if_pos hstack, if_pos hne, freeVmas]
    change (Vm.freeAll _ _).mem = _
    rw [freeAll_mem, freePgd_mem]
    rfl
  have howned : Owned (Process.reap s.vm s.kernelPgd p) (pgds rest) (g.tables + lost) g.base
      (allBlocks rest opened s.held) := by
    have h₁ := (h.owned_cons.perm (.swap _ _ _)).freeBlock
    have h₂ := h₁.of_spaces h₁.spaces.freePgd
    have h₃ := (h₂.perm List.perm_middle.symm).freeBlocks (l := p.vmas.map vmaBlock)
    rw [List.map_map] at h₃
    have h₄ := h₃.freeBlock
    rw [Process.reap, if_pos hstack, if_pos hne]
    exact h₄
  have hle : ∀ t, refsAll s.vm.mem (pgds rest) t ≤ refsAll s.vm.mem (p.pgd :: pgds rest) t := by
    intro t
    rw [refsAll_cons, Pi.add_apply]
    omega
  generalize Process.reap s.vm s.kernelPgd p = vm' at *
  refine ⟨howned, fun t ht => ?_, fun q hq x w hx hw => ?_, fun q hq => ?_, fun q hq => ?_,
    fun q hq i hi => ?_, fun t ht => ?_, h.pgd, h.files.counted.congr fun f hf => ?_, h.files.null,
    h.files.mem⟩
  · have h0 : refsAll s.vm.mem (p.pgd :: pgds rest) t = 0 := h.unmapped t ht
    have hle' := hle t
    change refsAll vm'.mem (pgds rest) t = 0
    rw [hmem]
    omega
  · rw [hmem] at hx
    have hone : refsAll s.vm.mem (p.pgd :: pgds rest) (frameAt w) = 1 :=
      h.writable q (List.mem_cons_of_mem _ hq) x w hx hw
    have hle' := hle (frameAt w)
    have hpos : 0 < refsAll s.vm.mem (pgds rest) (frameAt w) := refsAll_pos hx (mem_pgds hq)
    change refsAll vm'.mem (pgds rest) (frameAt w) = 1
    rw [hmem]
    omega
  · change Regions (leafAt 256 vm'.mem q.pgd) q.vmas
    rw [hmem]
    exact h.regions q (List.mem_cons_of_mem _ hq)
  · change SignalOk (leafAt 256 vm'.mem q.pgd) q
    rw [hmem]
    exact h.signals q (List.mem_cons_of_mem _ hq)
  · change vm'.mem q.pgd i = g.mem g.pgd i
    rw [hmem]
    exact h.upper q (List.mem_cons_of_mem _ hq) i hi
  · change vm'.mem t = g.mem t
    rw [hmem]
    exact h.kernel t ht
  · dsimp only
    rw [fileRefs_cons, hfdt, Fdt.refs_zero hf, zero_add]

end Inv

end BareMetalOS.Process
