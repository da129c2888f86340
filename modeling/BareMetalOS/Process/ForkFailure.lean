import BareMetalOS.Process.Runs

/-!
# `sys_fork` without memory

`sys_fork` is all or nothing as long as there is memory for the list of regions once there is memory
for everything else (`sysFork_sound_iff`): `copy_vma_list` returns what it has copied so far, and
nobody looks whether this is the whole list.
-/

namespace BareMetalOS.Process

open Memory (Addr blocks)
open Mmu Sched Trap Files

variable {g : Ground} {s s₀ : Sys} {p : Proc} {rest : List Proc} {lost : Addr → ℕ}
  {opened : List Addr} {a : Addr}

/-- What `sys_fork` should do: return `-1` with no new thread and nothing allocated or counted, or
return the pid of a child with the regions of its parent. -/
def ForkSound (s : Sys) (p : Proc) (rest : List Proc) (s' : Sys) : Option ℤ → Prop
  | none => s'.procs = p :: rest ∧ s'.files = s.files ∧
      ∀ q, blocks s'.vm.alloc q = blocks s.vm.alloc q
  | some pid => ∃ c, s'.procs = c :: p :: rest ∧ c.task.pid = pid ∧
      c.vmas.map data = p.vmas.map data

/-- A state that `sys_fork` finds: the allocator knows of exactly what page tables, structs and
files hold, the process has an address space of its own, and its files are counted. -/
structure Consistent (s : Sys) (p : Proc) (rest : List Proc) : Prop where
  owned : ∃ loose base held, Owned s.vm (p.pgd :: pgds rest) loose base held
  pgd : p.pgd ≠ 0 ∧ p.pgd ≠ s.kernelPgd
  files : ∃ opened, FilesOk { s with procs := p :: rest } opened
  pid : s.nrThreads < 2 ^ 31 - 1

/-- **All or nothing.** `sys_fork` returns `-1` and leaves nothing behind, or it returns the pid of
a child with the regions of its parent: this holds if and only if there is memory for the list of
regions once there is memory for everything else. -/
theorem sysFork_sound_iff (h : Consistent s p rest) :
    ∃ s' ret, sysFork s p rest = some (s', ret) ∧ (ForkSound s p rest s' ret ↔ ForkNodes s p) := by
  obtain ⟨loose, base, held, howned⟩ := h.owned
  obtain ⟨opened, hok⟩ := h.files
  rcases sysFork_cases howned h.pgd hok h.pid with
    ⟨vm', n, heq, howned', hweak, hothers, -, -, hnodes⟩ |
    ⟨child, stack, pgd, vm', files, heq, -, -, -, hiff⟩
  · refine ⟨_, _, heq, iff_of_true ⟨rfl, rfl, ?_⟩ hnodes⟩
    apply howned.blocks_eq howned'
    rw [refsAll_cons, refsAll_cons, hweak.refsIn, refsAll_congr hothers]
  · refine ⟨_, _, heq, ?_⟩
    rw [hiff, ← copyVmaList_data]
    constructor
    · rintro ⟨c, hprocs, -, hdata⟩
      rw [← (List.cons.inj hprocs).1] at hdata
      exact hdata
    · exact fun hdata => ⟨_, rfl, rfl, hdata⟩

/-- The states of a run are consistent. -/
theorem Inv.consistent (h : Inv g s lost opened) (hp : s.proc a = some p)
    (hpid : s.nrThreads < 2 ^ 31 - 1) : Consistent s p (s.others a) := by
  have h' := h.proc hp
  exact ⟨⟨_, _, _, h'.owned_cons⟩, h'.pgd_ne (List.mem_cons_self ..), ⟨opened, h'.files⟩, hpid⟩

/-- A program is started and makes a system call. -/
def oneCall : List Op := [.launch 0 0x1000, .trap firstThread (trapRegs firstThread)]

/-- The same, where the rest of the kernel holds all but three pages and all other chunks of the
size of a region. -/
def crowded : List Op :=
  .launch 0 0x1000 :: List.replicate 62 (.kernelAlloc sizeofVmArea) ++
    List.replicate 7 (.kernelAlloc Memory.pageSize) ++ [.trap firstThread (trapRegs firstThread)]

/-- With enough memory the child gets both regions. -/
theorem sysFork_sound_iff_oneCall : ∃ s p s' ret, sixteenPages.soundRun oneCall = some s ∧
    s.proc firstThread = some p ∧ sysFork s p (s.others firstThread) = some (s', ret) ∧
    (ForkSound s p (s.others firstThread) s' ret ↔ ForkNodes s p) := by
  have hrun : ((sixteenPages.soundRun oneCall).bind fun s =>
      (s.proc firstThread).map fun _ => decide (s.nrThreads < 2 ^ 31 - 1)) = some true := by
    decide +kernel
  obtain ⟨s, hs, hrun⟩ := Option.bind_eq_some_iff.1 hrun
  obtain ⟨p, hp, hpid⟩ := Option.map_eq_some_iff.1 hrun
  obtain ⟨lost, opened, hinv⟩ := (reaches_soundRun hs).inv booted_sixteenPages.inv
  obtain ⟨s', ret, hf, hiff⟩ := sysFork_sound_iff (hinv.consistent hp (of_decide_eq_true hpid))
  exact ⟨s, p, s', ret, hs, hp, hf, hiff⟩

/-- The structure of the first region is missing: `sys_fork` returns the pid of a child without
regions. -/
theorem sysFork_not_sound : ∃ s p s' ret, Booted sixteenPages ∧ Reaches sixteenPages s ∧
    s.proc firstThread = some p ∧ sysFork s p (s.others firstThread) = some (s', ret) ∧
    ¬ ForkSound s p (s.others firstThread) s' ret := by
  have hrun : ((sixteenPages.soundRun crowded).bind fun s => (s.proc firstThread).bind fun p =>
      (sysFork s p (s.others firstThread)).map fun r =>
        (r.2, r.1.procs.map fun q => q.vmas.length, p.vmas.length)) = some (some 2, [0, 2], 2) := by
    decide +kernel
  obtain ⟨s, hs, hrun⟩ := Option.bind_eq_some_iff.1 hrun
  obtain ⟨p, hp, hrun⟩ := Option.bind_eq_some_iff.1 hrun
  obtain ⟨⟨s', ret⟩, hf, heq⟩ := Option.map_eq_some_iff.1 hrun
  simp only [Prod.mk.injEq] at heq
  obtain ⟨rfl, hlengths, hlength⟩ := heq
  refine ⟨s, p, s', _, booted_sixteenPages, reaches_soundRun hs, hp, hf, ?_⟩
  rintro ⟨c, hprocs, -, hdata⟩
  have hlen := congrArg List.length hdata
  rw [List.length_map, List.length_map] at hlen
  rw [hprocs, List.map_cons, List.cons.injEq] at hlengths
  omega

end BareMetalOS.Process
