import BareMetalOS.Process.Faults

/-!
# File handles

A file handle is a block of the allocator that is freed with the last descriptor that points to it.
`Handles` says so of the descriptors that are counted by `n`; `sys_open`, `sys_close` and the end of
a process keep it.
-/

namespace BareMetalOS.Process

open Memory (Addr allocate blockBytes)
open Mmu Sched Trap Files

variable {g : Ground} {s s' : Sys} {vm vm' : Vm} {p p' : Proc} {rest : List Proc} {ps : List Addr}
  {lost loose : Addr → ℕ} {opened opened' : List Addr} {base : Addr → Option (ℕ × ℤ)}
  {held : List (Addr × ℕ)} {f vnode : Addr} {files files' : Addr → Option File} {n : Addr → ℕ}
  {fdt : Fdt} {flags : BitVec 32} {fd ret : ℤ}

/-- The blocks of the file handles, and their counts. -/
structure Handles (vm : Vm) (files : Addr → Option File) (ps : List Addr) (loose : Addr → ℕ)
    (base : Addr → Option (ℕ × ℤ)) (held : List (Addr × ℕ)) (opened : List Addr) (n : Addr → ℕ) :
    Prop where
  owned : Owned vm ps loose base (opened.map fileBlock ++ held)
  counted : Counted refCounter 0 files n
  null : files 0 = none
  mem : ∀ f, f ∈ opened ↔ files f ≠ none

namespace Handles

theorem congr {m : Addr → ℕ} (h : Handles vm files ps loose base held opened n)
    (hm : ∀ f, f ≠ 0 → m f = n f) : Handles vm files ps loose base held opened m :=
  ⟨h.owned, h.counted.congr hm, h.null, h.mem⟩

theorem nodup (h : Handles vm files ps loose base held opened n) : opened.Nodup := by
  have hnd := h.owned.nodup
  rw [List.map_append, List.map_map] at hnd
  exact (List.map_id opened) ▸ (List.nodup_append.1 hnd).1

/-- `vfs_close` of a handle with a pointer to it. -/
theorem closeFile (h : Handles vm files ps loose base held opened n) (hf : f ≠ 0) (hn : n f ≠ 0) :
    ∃ vm' files' opened', Process.closeFile vm files f = some (vm', files') ∧ vm'.mem = vm.mem ∧
      Handles vm' files' ps loose base held opened' (Function.update n f (n f - 1)) := by
  obtain ⟨files', hfiles', hcounted⟩ := h.counted.release hf hn
  obtain ⟨x, hx⟩ := h.counted.exists_object hf hn
  have hother : ∀ a, a ≠ f → files' a = files a := by
    intro a ha
    rw [release, hx] at hfiles'
    cases hfiles'
    exact Function.update_of_ne ha ..
  have hclose : Process.closeFile vm files f =
      some (if (files' f).isNone then vm.freePage f else vm, files') := by
    rw [Process.closeFile, vfsClose, hfiles']
    rfl
  have hnull : files' 0 = none := (hother 0 (Ne.symm hf)).trans h.null
  cases hlast : files' f with
  | none =>
    rw [hlast] at hclose
    refine ⟨vm.freePage f, files', opened.erase f, hclose, rfl, ?_, hcounted, hnull, fun a => ?_⟩
    · have hin : f ∈ opened := (h.mem f).2 (by rw [hx]; simp)
      have hperm := ((List.perm_cons_erase hin).map fileBlock).append_right held
      exact (h.owned.perm hperm).freeBlock
    · rcases eq_or_ne a f with rfl | hne
      · rw [hlast]
        simpa using h.nodup.not_mem_erase
      · rw [List.mem_erase_of_ne hne, hother a hne]
        exact h.mem a
  | some y =>
    rw [hlast] at hclose
    refine ⟨vm, files', opened, hclose, rfl, h.owned, hcounted, hnull, fun a => ?_⟩
    rcases eq_or_ne a f with rfl | hne
    · rw [hlast, h.mem, hx]
      simp
    · rw [hother a hne]
      exact h.mem a

/-- `vfs_close` of several handles. -/
theorem closeFiles (l : List Addr) (vm : Vm) (files : Addr → Option File) (opened : List Addr)
    (h : Handles vm files ps loose base held opened fun f => n f + l.count f) :
    ∃ vm' files' opened', Process.closeFiles vm files l = some (vm', files') ∧ vm'.mem = vm.mem ∧
      Handles vm' files' ps loose base held opened' n := by
  induction l generalizing vm files opened with
  | nil => exact ⟨vm, files, opened, rfl, rfl, h⟩
  | cons f l ih =>
    rw [Process.closeFiles]
    by_cases hf : f = 0
    · rw [if_pos hf]
      apply ih vm files opened
      apply h.congr
      intro a ha
      rw [List.count_cons_of_ne (by rw [hf]; exact Ne.symm ha)]
    · rw [if_neg hf]
      obtain ⟨vm₁, files₁, opened₁, hclose, hmem₁, h₁⟩ := h.closeFile hf (by
        rw [List.count_cons_self]
        omega)
      obtain ⟨vm₂, files₂, opened₂, hrest, hmem₂, h₂⟩ :=
        ih vm₁ files₁ opened₁ (h₁.congr fun a _ => by
        rcases eq_or_ne a f with rfl | hne
        · rw [Function.update_self, List.count_cons_self]
          omega
        · rw [Function.update_of_ne hne, List.count_cons_of_ne (Ne.symm hne)])
      exact ⟨vm₂, files₂, opened₂, by rw [hclose]; exact hrest, hmem₂.trans hmem₁, h₂⟩

/-- `vfs_open` of a file that exists. -/
theorem vfsOpen (h : Handles vm files ps loose base held opened n)
    (h0 : (allocate vm.alloc sizeofFile).1 ≠ 0) (vnode : Addr) (flags : BitVec 32) :
    Handles { vm with alloc := (allocate vm.alloc sizeofFile).2 }
      (Function.update files (allocate vm.alloc sizeofFile).1 (some ⟨vnode, 0, flags, 1⟩))
      ps loose base held ((allocate vm.alloc sizeofFile).1 :: opened)
      (Function.update n (allocate vm.alloc sizeofFile).1 1) ∧
    n (allocate vm.alloc sizeofFile).1 = 0 := by
  rcases h.owned.allocBlock sizeofFile with ⟨h0', -⟩ | ⟨-, howned⟩
  · exact absurd h0' h0
  generalize (allocate vm.alloc sizeofFile).1 = f at *
  have hnd := howned.nodup
  rw [List.map_cons, List.nodup_cons, List.map_append, List.mem_append, not_or, List.map_map] at hnd
  have hnew : f ∉ opened := fun hm => hnd.1.1 (List.mem_map_of_mem (f := Prod.fst ∘ fileBlock) hm)
  have hfile : files f = none := by
    by_contra hne
    exact hnew ((h.mem f).2 hne)
  refine ⟨⟨howned, h.counted.update (fun y hy => ?_) (by simp), ?_, fun a => ?_⟩,
    (h.counted.alive f h0).1 hfile⟩
  · cases hy
    rfl
  · rw [Function.update_of_ne (Ne.symm h0)]
    exact h.null
  · rcases eq_or_ne a f with rfl | hne
    · simp
    · rw [Function.update_of_ne hne, List.mem_cons, or_iff_right hne]
      exact h.mem a

end Handles

/-! ## The invariant -/

/-- The blocks of the processes and of the rest of the kernel. -/
def otherBlocks (procs : List Proc) (held : List (Addr × ℕ)) : List (Addr × ℕ) :=
  procs.flatMap Proc.blocks ++ held

theorem allBlocks_perm (procs : List Proc) (opened : List Addr) (held : List (Addr × ℕ)) :
    (allBlocks procs opened held).Perm (opened.map fileBlock ++ otherBlocks procs held) := by
  rw [allBlocks, otherBlocks, ← List.append_assoc, ← List.append_assoc]
  exact List.perm_append_comm.append_right held

namespace Inv

theorem handles (h : Inv g s lost opened) :
    Handles s.vm s.files (pgds s.procs) (g.tables + lost) g.base (otherBlocks s.procs s.held) opened
      (fileRefs s.procs) :=
  ⟨h.owned.perm (allBlocks_perm _ _ _), h.files.counted, h.files.null, h.files.mem⟩

/-- The files change, and so do the descriptors of one process. -/
theorem setFiles (h : Inv g { s with procs := p :: rest } lost opened) (hmem : vm'.mem = s.vm.mem)
    (hpgd : p'.pgd = p.pgd) (hvmas : p'.vmas = p.vmas) (hblocks : p'.blocks = p.blocks)
    (hsignals : SignalOk (leafAt 256 s.vm.mem p.pgd) p')
    (hh : Handles vm' files' (p.pgd :: pgds rest) (g.tables + lost) g.base
      (otherBlocks (p :: rest) s.held) opened' (fileRefs (p' :: rest))) :
    Inv g { s with vm := vm', files := files', procs := p' :: rest } lost opened' := by
  have hps : pgds (p' :: rest) = p.pgd :: pgds rest := by
    rw [pgds_cons, hpgd]
  have hb : otherBlocks (p' :: rest) s.held = otherBlocks (p :: rest) s.held := by
    rw [otherBlocks, otherBlocks, List.flatMap_cons, List.flatMap_cons, hblocks]
  refine ⟨?_, fun t ht => ?_, fun q hq x w hx hw => ?_, fun q hq => ?_, fun q hq => ?_,
    fun q hq i hi => ?_, fun t ht => ?_, h.pgd, hh.counted, hh.null, hh.mem⟩
  · have howned := hh.owned
    rw [← hb] at howned
    rw [hps]
    exact howned.perm (allBlocks_perm _ _ _).symm
  · change refsAll vm'.mem (pgds (p' :: rest)) t = 0
    rw [hps, hmem]
    exact h.unmapped t ht
  · change refsAll vm'.mem (pgds (p' :: rest)) (frameAt w) = 1
    rw [hps, hmem]
    rw [hmem] at hx
    rcases List.mem_cons.1 hq with rfl | hq
    · rw [hpgd] at hx
      exact h.writable p (List.mem_cons_self ..) x w hx hw
    · exact h.writable q (List.mem_cons_of_mem _ hq) x w hx hw
  · change Regions (leafAt 256 vm'.mem q.pgd) q.vmas
    rw [hmem]
    rcases List.mem_cons.1 hq with rfl | hq
    · rw [hpgd, hvmas]
      exact h.regions p (List.mem_cons_self ..)
    · exact h.regions q (List.mem_cons_of_mem _ hq)
  · change SignalOk (leafAt 256 vm'.mem q.pgd) q
    rw [hmem]
    rcases List.mem_cons.1 hq with rfl | hq
    · rw [hpgd]
      exact hsignals
    · exact h.signals q (List.mem_cons_of_mem _ hq)
  · change vm'.mem q.pgd i = g.mem g.pgd i
    rw [hmem]
    rcases List.mem_cons.1 hq with rfl | hq
    · rw [hpgd]
      exact h.upper p (List.mem_cons_self ..) i hi
    · exact h.upper q (List.mem_cons_of_mem _ hq) i hi
  · change vm'.mem t = g.mem t
    rw [hmem]
    exact h.kernel t ht

/-- `sys_open`. -/
theorem sysOpen (h : Inv g { s with procs := p :: rest } lost opened)
    (ho : Process.sysOpen s.vm s.files p vnode flags = some (vm', files', fdt, ret)) :
    ∃ opened', Inv g { s with vm := vm', files := files', procs := { p with fdt := fdt } :: rest }
      lost opened' := by
  unfold Process.sysOpen allocBytes at ho
  dsimp only at ho
  rw [Files.vfsOpen] at ho
  by_cases h0 : (allocate s.vm.alloc sizeofFile).1 = 0
  · rw [if_pos h0] at ho
    cases ho
  rw [if_neg h0, Option.bind_eq_bind, Option.bind_some] at ho
  obtain ⟨hh, hzero⟩ := h.handles.vfsOpen h0 vnode flags
  have hsig := h.signals p (List.mem_cons_self ..)
  dsimp only at ho hh hzero
  generalize (allocate s.vm.alloc sizeofFile).1 = f at *
  cases hfd : freeFd p.fdt with
  | some i =>
    rw [hfd] at ho
    obtain ⟨rfl, rfl, rfl, rfl⟩ : _ ∧ _ ∧ _ ∧ _ := by
      simpa only [Option.pure_def, Option.some_inj, Prod.mk.injEq] using ho
    have hi : p.fdt i = 0 := by simpa using List.find?_some hfd
    refine ⟨_, @setFiles _ _ _ _ { p with fdt := Function.update p.fdt i f } _ _ _ _ _ h
      rfl rfl rfl rfl
      (hsig.congr rfl rfl rfl rfl) (hh.congr fun a ha => ?_)⟩
    have hup := Fdt.refs_update p.fdt i f a
    rw [hi, if_neg (Ne.symm ha)] at hup
    rw [fileRefs_cons]
    dsimp only
    rcases eq_or_ne a f with rfl | hne
    · rw [fileRefs_cons] at hzero
      rw [if_pos rfl] at hup
      rw [Function.update_self]
      omega
    · rw [if_neg (Ne.symm hne)] at hup
      rw [Function.update_of_ne hne, fileRefs_cons]
      omega
  | none =>
    rw [hfd] at ho
    obtain ⟨⟨vm₂, files₂⟩, hclose, ho⟩ := Option.bind_eq_some_iff.1 ho
    obtain ⟨rfl, rfl, rfl, rfl⟩ : _ ∧ _ ∧ _ ∧ _ := by
      simpa only [Option.pure_def, Option.some_inj, Prod.mk.injEq] using ho
    obtain ⟨vm₃, files₃, opened', hclose', hmem, hh'⟩ := hh.closeFile h0 (by simp)
    rw [hclose, Option.some_inj, Prod.mk.injEq] at hclose'
    obtain ⟨rfl, rfl⟩ := hclose'
    refine ⟨opened', h.setFiles hmem rfl rfl rfl hsig (hh'.congr fun a _ => ?_)⟩
    rcases eq_or_ne a f with rfl | hne
    · rw [Function.update_self, Function.update_self]
      exact hzero
    · rw [Function.update_of_ne hne, Function.update_of_ne hne]

/-- `sys_close`. -/
theorem sysClose (h : Inv g { s with procs := p :: rest } lost opened)
    (hc : Process.sysClose s.vm s.files p fd = some (vm', files', fdt, ret)) :
    ∃ opened', Inv g { s with vm := vm', files := files', procs := { p with fdt := fdt } :: rest }
      lost opened' := by
  have hsig := h.signals p (List.mem_cons_self ..)
  rw [Process.sysClose] at hc
  split at hc
  · rename_i hfd
    dsimp only at hc
    generalize (⟨fd.toNat, by omega⟩ : Fin 16) = i at hc
    by_cases h0 : p.fdt i = 0
    · rw [if_pos h0] at hc
      obtain ⟨rfl, rfl, rfl, rfl⟩ : _ ∧ _ ∧ _ ∧ _ := by
        simpa only [Option.some_inj, Prod.mk.injEq] using hc
      exact ⟨opened, h⟩
    · rw [if_neg h0] at hc
      obtain ⟨⟨vm₂, files₂⟩, hclose, hc⟩ := Option.bind_eq_some_iff.1 hc
      obtain ⟨rfl, rfl, rfl, rfl⟩ : _ ∧ _ ∧ _ ∧ _ := by
        simpa only [Option.pure_def, Option.some_inj, Prod.mk.injEq] using hc
      have hpos : 0 < p.fdt.refs (p.fdt i) := List.count_pos_iff.2 ((List.mem_ofFn ..).2 ⟨i, rfl⟩)
      obtain ⟨vm₃, files₃, opened', hclose', hmem, hh⟩ := h.handles.closeFile h0 (by
        rw [fileRefs_cons]
        omega)
      dsimp only at hclose'
      rw [hclose, Option.some_inj, Prod.mk.injEq] at hclose'
      obtain ⟨rfl, rfl⟩ := hclose'
      refine ⟨opened', @setFiles _ _ _ _ { p with fdt := Function.update p.fdt i 0 } _ _ _ _ _ h
        hmem rfl rfl rfl (hsig.congr rfl rfl rfl rfl) (hh.congr fun a ha => ?_)⟩
      have hup := Fdt.refs_update p.fdt i 0 a
      rw [if_neg (Ne.symm ha)] at hup
      rw [fileRefs_cons]
      dsimp only
      rcases eq_or_ne a (p.fdt i) with rfl | hne
      · rw [if_pos rfl] at hup
        rw [Function.update_self, fileRefs_cons]
        omega
      · rw [if_neg (Ne.symm hne)] at hup
        rw [Function.update_of_ne hne, fileRefs_cons]
        omega
  · obtain ⟨rfl, rfl, rfl, rfl⟩ : _ ∧ _ ∧ _ ∧ _ := by
      simpa only [Option.some_inj, Prod.mk.injEq] using hc
    exact ⟨opened, h⟩

/-- The descriptors of a process are closed. -/
theorem closeFiles (h : Inv g { s with procs := p :: rest } lost opened)
    (hc : Process.closeFiles s.vm s.files (List.ofFn p.fdt) = some (vm', files')) :
    ∃ opened', Inv g { s with
      vm := vm', files := files', procs := { p with fdt := fun _ => 0 } :: rest } lost opened' ∧
      vm'.mem = s.vm.mem := by
  have hh := h.handles.congr (m := fun f => fileRefs rest f + (List.ofFn p.fdt).count f)
    fun f _ => by
    rw [fileRefs_cons, Nat.add_comm]
    rfl
  obtain ⟨vm₂, files₂, opened', hclose, hmem, hh'⟩ := Handles.closeFiles (List.ofFn p.fdt) _ _ _ hh
  dsimp only at hclose
  rw [hc, Option.some_inj, Prod.mk.injEq] at hclose
  obtain ⟨rfl, rfl⟩ := hclose
  refine ⟨opened', @setFiles _ _ _ _ { p with fdt := fun _ => 0 } _ _ _ _ _ h hmem rfl rfl rfl
    ((h.signals p (List.mem_cons_self ..)).congr rfl rfl rfl rfl) (hh'.congr fun a ha => ?_), hmem⟩
  rw [fileRefs_cons, Fdt.refs_zero ha, zero_add]

end Inv

end BareMetalOS.Process
