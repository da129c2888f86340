import BareMetalOS.Process.Frames

/-!
# What is allocated

A run in which `map_pages_at` finds the tables or the memory for them loses no page
(`FullReaches.inv`). The blocks of the allocator are then exactly those of the start and those that
the processes, their files and the rest of the kernel hold, with the counts that these give
(`blocks_of_fullReaches`). So what a process has allocated is free when `kill_zombies` is through
with it (`returned_of_fullReaches`).
-/

namespace BareMetalOS.Process

open Memory (Addr blocks blockBytes pageSize)
open Mmu Sched Trap Files

variable {s₀ s s' : Sys} {opened : List Addr} {q : Addr} {k : ℕ} {b : ℕ × ℤ}

/-- A step that loses no page. -/
def FullStep (s s' : Sys) : Prop := ∃ op, Sound s op ∧ TablesFound s op ∧ s.exec op = some s'

/-- The runs of such steps. -/
def FullReaches (s s' : Sys) : Prop := Relation.ReflTransGen FullStep s s'

/-- No page is lost. -/
theorem FullReaches.inv (h : FullReaches s s') {g : Ground} (h₀ : Inv g s 0 opened) :
    ∃ opened', Inv g s' 0 opened' := by
  induction h with
  | refl => exact ⟨opened, h₀⟩
  | tail _ hs ih =>
    obtain ⟨opened₁, h₁⟩ := ih
    obtain ⟨op, hsound, htables, hexec⟩ := hs
    obtain ⟨lost', opened', h', hlost⟩ := h₁.step_lost hsound (step_of_exec hexec)
    obtain rfl := hlost htables
    exact ⟨opened', h'⟩

/-- Several steps that lose no page. -/
def Sys.fullRun (s : Sys) (ops : List Op) : Option Sys :=
  ops.foldlM (fun s op => if Sound s op ∧ TablesFound s op then s.exec op else none) s

theorem fullReaches_fullRun {ops : List Op} (h : s.fullRun ops = some s') : FullReaches s s' := by
  induction ops generalizing s with
  | nil =>
    cases h
    exact .refl
  | cons op ops ih =>
    obtain ⟨s₁, hs₁, h⟩ := Option.bind_eq_some_iff.1 h
    dsimp only at hs₁
    split_ifs at hs₁ with hop
    exact .head ⟨op, hop.1, hop.2, hs₁⟩ (ih h)

/-! ## The blocks -/

/-- What holds a block: the kernel since the start, the page tables of a process with its mappings,
the structures of a process, a file handle that is open, or the rest of the kernel. -/
inductive HeldBy (s₀ s : Sys) (q : Addr) : ℕ × ℤ → Prop
  | start {b : ℕ × ℤ} (h : blocks s₀.vm.alloc q = some b) : HeldBy s₀ s q b
  | table {p : Proc} (hp : p ∈ s.procs) (h : IsTable 256 s.vm.mem p.pgd q) :
    HeldBy s₀ s q (pageSize, 1)
  | frame (h : 0 < mappings s.vm.mem (pgds s.procs) q) :
    HeldBy s₀ s q (pageSize, mappings s.vm.mem (pgds s.procs) q)
  | process {p : Proc} {k : ℕ} (hp : p ∈ s.procs) (h : (q, k) ∈ p.blocks) : HeldBy s₀ s q (k, 1)
  | file (h : s.files q ≠ none) : HeldBy s₀ s q (blockBytes sizeofFile, 1)
  | other {k : ℕ} (h : (q, k) ∈ s.held) : HeldBy s₀ s q (k, 1)

/-- The kernel's own tables are blocks since the start. -/
theorem Booted.blocks_table (h₀ : Booted s₀) (hq : IsTable 512 s₀.vm.mem s₀.kernelPgd q) :
    blocks s₀.vm.alloc q = some (pageSize, 1) := by
  have hone : s₀.ground.tables q = 1 := if_pos hq
  have hb := h₀.inv.owned.spaces.owns.blocks q
  rw [h₀.procs, Pi.add_apply, Pi.add_apply, hone] at hb
  exact hb

/-- A block of the start is one of the kernel's own tables, or it is not concerned. -/
theorem Booted.start_cases (h₀ : Booted s₀) (hb : blocks s₀.vm.alloc q = some b) :
    s₀.ground.tables q = 1 ∧ b = (pageSize, 1) ∨ s₀.ground.base q = some b := by
  by_cases hq : IsTable 512 s₀.vm.mem s₀.kernelPgd q
  · rw [h₀.blocks_table hq, Option.some_inj] at hb
    exact .inl ⟨if_pos hq, hb.symm⟩
  · have hbase : s₀.ground.base q = blocks s₀.vm.alloc q := if_neg hq
    exact .inr (hbase.trans hb)

theorem Inv.heldBy_of_blocks (h₀ : Booted s₀) (h : Inv s₀.ground s 0 opened)
    (hb : blocks s.vm.alloc q = some b) : HeldBy s₀ s q b := by
  have howns := h.owned.spaces.owns.blocks q
  rw [hb] at howns
  split_ifs at howns with hn
  · -- a block that is no page of a page table
    rw [withBlocks] at howns
    cases hf : (allBlocks s.procs opened s.held).find? (·.1 = q) with
    | none =>
      rw [hf] at howns
      by_cases hq : IsTable 512 s₀.vm.mem s₀.kernelPgd q
      · have hbase : s₀.ground.base q = none := if_pos hq
        cases howns.trans hbase
      · have hbase : s₀.ground.base q = blocks s₀.vm.alloc q := if_neg hq
        exact .start (hbase.symm.trans howns.symm)
    | some e =>
      rw [hf, Option.elim_some, Option.some_inj] at howns
      obtain rfl := howns
      have hq : e.1 = q := by simpa using List.find?_some hf
      subst hq
      rcases List.mem_append.1 (List.mem_of_find?_eq_some hf) with he | he
      · obtain ⟨p, hp, he⟩ := List.mem_flatMap.1 he
        exact .process hp he
      · rcases List.mem_append.1 he with he | he
        · obtain ⟨f, hopen, rfl⟩ := List.mem_map.1 he
          exact .file ((h.files.mem f).1 hopen)
        · exact .other he
  · obtain rfl := Option.some.inj howns
    rw [add_zero] at hn ⊢
    by_cases ht : s₀.ground.tables q = 0
    · rw [Pi.add_apply, ht, add_zero] at hn ⊢
      by_cases hex : ∃ p ∈ s.procs, IsTable 256 s.vm.mem p.pgd q
      · obtain ⟨p, hp, htable⟩ := hex
        have hone := h.owned.spaces.table p.pgd (mem_pgds hp) q htable
        rw [add_zero, Pi.add_apply, ht, add_zero] at hone
        rw [hone]
        exact .table hp htable
      · have hmap : refsAll s.vm.mem (pgds s.procs) q = mappings s.vm.mem (pgds s.procs) q := by
          apply refsAll_eq_mappings
          intro pgd hm htable
          obtain ⟨p, hp, rfl⟩ := List.mem_map.1 hm
          exact hex ⟨p, hp, htable⟩
        rw [hmap] at hn ⊢
        exact .frame (Nat.pos_of_ne_zero hn)
    · -- a table of the kernel
      have hzero := h.unmapped q (by rwa [add_zero])
      have hq : IsTable 512 s₀.vm.mem s₀.kernelPgd q := by
        by_contra hno
        exact ht (if_neg hno)
      have hone : s₀.ground.tables q = 1 := if_pos hq
      rw [Pi.add_apply, hzero, hone]
      exact .start (h₀.blocks_table hq)

theorem Inv.blocks_of_heldBy (h₀ : Booted s₀) (h : Inv s₀.ground s 0 opened)
    (hb : HeldBy s₀ s q b) : blocks s.vm.alloc q = some b := by
  have howns := h.owned.spaces.owns
  cases hb with
  | start hb =>
    rcases h₀.start_cases hb with ⟨hone, rfl⟩ | hbase
    · have hzero := h.unmapped q (by rw [add_zero, hone]; exact one_ne_zero)
      rw [howns.blocks, Pi.add_apply, hzero, add_zero, hone, if_neg (by omega)]
      rfl
    · have hother : withBlocks s₀.ground.base (allBlocks s.procs opened s.held) q = some b := by
        rw [withBlocks_of_notMem, hbase]
        intro hm
        obtain ⟨e, he, rfl⟩ := List.mem_map.1 hm
        rw [h.owned.base e he] at hbase
        cases hbase
      rw [howns.blocks, if_pos, hother]
      by_contra hne
      rw [howns.disjoint q hne] at hother
      cases hother
  | table hp ht =>
    have hone := h.owned.spaces.table _ (mem_pgds hp) q ht
    rw [howns.blocks, hone, if_neg one_ne_zero]
    rfl
  | frame hpos =>
    obtain ⟨pgd, hm, x, hx⟩ := exists_mapped_of_mappings hpos
    obtain ⟨p, hp, rfl⟩ := List.mem_map.1 hm
    exact (h.blocks_mapped hp hx).2
  | process hp he =>
    exact h.owned.blocks_of_mem (List.mem_append_left _ (List.mem_flatMap.2 ⟨_, hp, he⟩))
  | file hf =>
    exact h.owned.blocks_of_mem (List.mem_append_right _ (List.mem_append_left _
      (List.mem_map.2 ⟨q, (h.files.mem q).2 hf, rfl⟩)))
  | other he => exact h.owned.blocks_of_mem (List.mem_append_right _ (List.mem_append_right _ he))

/-- **What is allocated.** In every state of a run that loses no page, an address is a block of the
allocator exactly if it was one at the start, is a page table or a frame of a process, a structure
of a process, a file handle that is open, or held by the rest of the kernel; a frame has its
mappings as its count, and every other block of these has one owner. -/
theorem blocks_of_fullReaches (h₀ : Booted s₀) (h : FullReaches s₀ s) :
    blocks s.vm.alloc q = some b ↔ HeldBy s₀ s q b := by
  obtain ⟨opened, hinv⟩ := h.inv h₀.inv
  exact ⟨hinv.heldBy_of_blocks h₀, hinv.blocks_of_heldBy h₀⟩

/-- The frame of the stack of a program that has written to it. -/
theorem blocks_of_fullReaches_stack : ∃ s, sixteenPages.fullRun stackStored = some s ∧
    ∀ q b, blocks s.vm.alloc q = some b ↔ HeldBy sixteenPages s q b := by
  have hrun : (sixteenPages.fullRun stackStored).isSome = true := by decide +kernel
  obtain ⟨s, hs⟩ := Option.isSome_iff_exists.1 hrun
  exact ⟨s, hs, fun q b => blocks_of_fullReaches booted_sixteenPages (fullReaches_fullRun hs)⟩

/-- **No leak.** Once all processes of a run that loses no page are reaped and the rest of the
kernel has freed what it allocated, no file is open, and the allocator has the blocks of the
start. -/
theorem returned_of_fullReaches (h₀ : Booted s₀) (h : FullReaches s₀ s) (hprocs : s.procs = [])
    (hheld : s.held = []) : blocks s.vm.alloc = blocks s₀.vm.alloc ∧ s.files = fun _ => none := by
  obtain ⟨opened, hinv⟩ := h.inv h₀.inv
  have hfiles : s.files = fun _ => none := by
    funext f
    rcases eq_or_ne f 0 with rfl | hne
    · exact hinv.files.null
    · rw [(hinv.files.counted.alive f hne), hprocs]
      rfl
  refine ⟨funext fun q => Option.ext fun b => ?_, hfiles⟩
  constructor
  · intro hb
    cases hinv.heldBy_of_blocks h₀ hb with
    | start hb => exact hb
    | table hp _ | process hp _ =>
      rw [hprocs] at hp
      cases hp
    | frame hpos =>
      rw [hprocs] at hpos
      cases hpos
    | file hf =>
      rw [hfiles] at hf
      exact absurd rfl hf
    | other he =>
      rw [hheld] at he
      cases he
  · exact fun hb => hinv.blocks_of_heldBy h₀ (.start hb)

/-- A program writes to its stack, forks, and both processes end. -/
def bothEnd : List Op :=
  let a := firstThread
  let c : Addr := 0xffffffc080001800
  stackStored ++ [.fork a, .checkSignals a, .fault c 15 stackWord,
    .store c stackWord (Fin.last 511) 8,
    .trap c (trapRegs c), .exit c, .reap c, .trap a (trapRegs a), .exit a, .reap a]

theorem returned_of_fullReaches_bothEnd : ∃ s, sixteenPages.fullRun bothEnd = some s ∧
    blocks s.vm.alloc = blocks sixteenPages.vm.alloc ∧ s.files = fun _ => none := by
  have hrun : ((sixteenPages.fullRun bothEnd).map fun s => (s.procs.length, s.held)) =
      some (0, []) := by
    decide +kernel
  obtain ⟨s, hs, heq⟩ := Option.map_eq_some_iff.1 hrun
  obtain ⟨hprocs, hheld⟩ := Prod.mk.inj heq
  exact ⟨s, hs, returned_of_fullReaches booted_sixteenPages (fullReaches_fullRun hs)
    (List.length_eq_zero_iff.1 hprocs) hheld⟩

end BareMetalOS.Process
