import BareMetalOS.Files.OpenFiles
import BareMetalOS.Sched.Pointers

/-!
# The reference counts of open files

In every state of every run, `ref_count` of a file handle is the number of descriptor slots of
unreaped threads that point to it, plus the handles that kernel code holds; the handles with at
least one such pointer are exactly those not freed. So no slot points to a freed handle, and no
operation of a run accesses one: `fileReachable_wellCounted`.
-/

namespace BareMetalOS.Files

open Memory (Addr)
open Sched (State Op Thread Inv)

variable {s s' : OpenFiles} {q q' : List Addr} {a f mem : Addr} {fdt : Addr → Fdt} {g g' : Fdt}

/-! ## Counting slots -/

/-- The number of slots of the table that point to `f`. -/
def Fdt.refs (g : Fdt) (f : Addr) : ℕ := (List.ofFn g).count f

/-- The number of slots of the threads in `q` that point to `f`. -/
def slotRefs (fdt : Addr → Fdt) (q : List Addr) (f : Addr) : ℕ :=
  (q.map fun a => (fdt a).refs f).sum

/-- The number of pointers to `f`, with the handles that kernel code holds. -/
def OpenFiles.refs (s : OpenFiles) (q : List Addr) (f : Addr) : ℕ :=
  slotRefs s.fdt q f + s.handles.count f

theorem Fdt.refs_zero (hf : f ≠ 0) : Fdt.refs (fun _ => 0) f = 0 := by
  rw [refs, List.count_eq_zero]
  intro h
  obtain ⟨i, hi⟩ := (List.mem_ofFn ..).1 h
  exact hf hi.symm

theorem Fdt.refs_update (g : Fdt) (i : Fin 16) (v f : Addr) :
    Fdt.refs (Function.update g i v) f + (if g i = f then 1 else 0) =
      g.refs f + if v = f then 1 else 0 := by
  have hset : List.ofFn (Function.update g i v) = (List.ofFn g).set i v := by
    refine List.ext_getElem (by simp) fun j _ _ => ?_
    rw [List.getElem_ofFn, List.getElem_set, List.getElem_ofFn, Function.update_apply]
    exact if_congr (by rw [Fin.ext_iff]; exact eq_comm) rfl rfl
  have hi : (i : ℕ) < (List.ofFn g).length := by simp
  have hpos : g i = f → 0 < (List.ofFn g).count f := fun h =>
    List.count_pos_iff.2 ((List.mem_ofFn ..).2 ⟨i, h⟩)
  rw [refs, refs, hset, List.count_set hi]
  simp only [List.getElem_ofFn, beq_iff_eq]
  by_cases h : g i = f
  · have := hpos h
    simp only [h, if_true]
    omega
  · simp [h]

theorem slotRefs_cons (fdt : Addr → Fdt) (a : Addr) (q : List Addr) (f : Addr) :
    slotRefs fdt (a :: q) f = (fdt a).refs f + slotRefs fdt q f := rfl

theorem slotRefs_perm (h : q'.Perm q) (f : Addr) : slotRefs fdt q' f = slotRefs fdt q f :=
  (h.map _).sum_eq

theorem slotRefs_update_of_notMem (h : a ∉ q) (f : Addr) :
    slotRefs (Function.update fdt a g) q f = slotRefs fdt q f := by
  have : ∀ b ∈ q, (Function.update fdt a g b).refs f = (fdt b).refs f := fun b hb => by
    rw [Function.update_of_ne (by rintro rfl; exact h hb)]
  rw [slotRefs, List.map_congr_left this, slotRefs]

/-- Changing the table of one thread. -/
theorem slotRefs_update (ha : a ∈ q) (hnd : q.Nodup) (f : Addr) :
    slotRefs (Function.update fdt a g) q f + (fdt a).refs f = slotRefs fdt q f + g.refs f := by
  induction q with
  | nil => cases ha
  | cons b q ih =>
    rw [List.nodup_cons] at hnd
    rw [slotRefs_cons, slotRefs_cons]
    rcases List.mem_cons.1 ha with rfl | ha
    · rw [Function.update_self, slotRefs_update_of_notMem hnd.1]
      omega
    · have hne : b ≠ a := by rintro rfl; exact hnd.1 ha
      rw [Function.update_of_ne hne]
      have := ih ha hnd.2
      omega

/-- The threads of a queue are those that satisfy `p` and the others. -/
theorem slotRefs_filter (p : Addr → Bool) (fdt : Addr → Fdt) (q : List Addr) (f : Addr) :
    slotRefs fdt (q.filter fun a => !p a) f + slotRefs fdt (q.filter p) f = slotRefs fdt q f := by
  induction q with
  | nil => rfl
  | cons a q ih =>
    rw [slotRefs_cons, ← ih]
    by_cases h : p a
    · rw [List.filter_cons_of_pos h, List.filter_cons_of_neg (by simp [h]), slotRefs_cons]
      omega
    · rw [List.filter_cons_of_neg h, List.filter_cons_of_pos (by simp [h]), slotRefs_cons]
      omega

theorem slotRefs_pos (ha : a ∈ q) (i : Fin 16) : slotRefs fdt q (fdt a i) ≠ 0 := by
  have hslot : 0 < (fdt a).refs (fdt a i) :=
    List.count_pos_iff.2 ((List.mem_ofFn ..).2 ⟨i, rfl⟩)
  have hle : (fdt a).refs (fdt a i) ≤ slotRefs fdt q (fdt a i) :=
    List.single_le_sum (by simp) _
      (List.mem_map_of_mem (f := fun b => (fdt b).refs (fdt a i)) ha)
  omega

/-! ## One operation -/

/-- The invariant, for the run queue `q`. -/
structure FileInv (s : OpenFiles) (q : List Addr) : Prop where
  queue : Inv s.sched q
  counted : Counted refCounter 0 s.files (s.refs q)
  handles : 0 ∉ s.handles

/-- The operation goes through and keeps the invariant. -/
def Keeps (s : OpenFiles) (op : FileOp) : Prop := ∃ s' q', s.exec op = some s' ∧ FileInv s' q'

namespace FileInv

theorem refs_perm (h : q'.Perm q) (f : Addr) : s.refs q' f = s.refs q f := by
  rw [OpenFiles.refs, OpenFiles.refs, slotRefs_perm h]

/-- The thread system goes on, with the same threads. -/
theorem sched {sched : State} (h : FileInv s q) (hq : Inv sched q') (hperm : q'.Perm q) :
    FileInv { s with sched := sched } q' :=
  ⟨hq, h.counted.congr fun f _ => refs_perm (s := s) hperm f, h.handles⟩

/-- The slots of the current thread are counted. -/
theorem refs_current (h : FileInv s q) (i : Fin 16) : s.refs q (s.fdt s.sched.tp i) ≠ 0 := by
  have : slotRefs s.fdt q (s.fdt s.sched.tp i) ≠ 0 := slotRefs_pos h.queue.tp_mem i
  rw [OpenFiles.refs]
  omega

/-- The pointers of the current thread are among those counted. -/
theorem refs_le (h : FileInv s q) (f : Addr) : (s.fdt s.sched.tp).refs f ≤ s.refs q f := by
  have hle : (s.fdt s.sched.tp).refs f ≤ slotRefs s.fdt q f :=
    List.single_le_sum (by simp) _
      (List.mem_map_of_mem (f := fun b => (s.fdt b).refs f) h.queue.tp_mem)
  rw [OpenFiles.refs]
  omega

/-- The table of the current thread is replaced by one with other pointers. -/
theorem setFdt {files : Addr → Option File} (h : FileInv s q)
    (hc : Counted refCounter 0 files fun f => s.refs q f - (s.fdt s.sched.tp).refs f + g.refs f) :
    FileInv { s with files := files, fdt := Function.update s.fdt s.sched.tp g } q := by
  refine ⟨h.queue, hc.congr fun f _ => ?_, h.handles⟩
  have hup : slotRefs (Function.update s.fdt s.sched.tp g) q f + (s.fdt s.sched.tp).refs f =
      slotRefs s.fdt q f + g.refs f :=
    slotRefs_update h.queue.tp_mem h.queue.ring.nodup f
  have hle := h.refs_le f
  simp only [OpenFiles.refs] at hle ⊢
  omega

/-- A new thread at `mem` has inherited the table of the current one. -/
theorem inheritFds {sched : State} (h : FileInv s q) (hmem : s.sched.heap mem = none)
    (hq : Inv sched q') (hperm : q'.Perm (mem :: q)) :
    ∃ s', inheritFds s mem = some s' ∧ FileInv { s' with sched := sched } q' := by
  obtain ⟨files, hfiles, hc⟩ := h.counted.retainAll (l := List.ofFn (s.fdt s.sched.tp))
    fun f hf _ => by
      obtain ⟨i, rfl⟩ := (List.mem_ofFn ..).1 hf
      exact h.refs_current i
  refine ⟨{ s with files := files, fdt := Function.update s.fdt mem (s.fdt s.sched.tp) },
    by rw [Files.inheritFds, retainFds, hfiles]; rfl, hq, hc.congr fun f _ => ?_, h.handles⟩
  have hnot : mem ∉ q := fun hin => by
    obtain ⟨t, ht⟩ := (h.queue.mem_iff mem).1 hin
    rw [hmem] at ht
    cases ht
  rw [refs_perm hperm]
  simp only [OpenFiles.refs, slotRefs_cons, Function.update_self, slotRefs_update_of_notMem hnot,
    Fdt.refs]
  omega

theorem closeZombies {files : Addr → Option File} {n : Addr → ℕ} (gone : List Addr)
    (h : Counted refCounter 0 files fun f => n f + slotRefs fdt gone f) :
    ∃ files', closeZombies fdt files gone = some files' ∧ Counted refCounter 0 files' n := by
  induction gone generalizing files with
  | nil => exact ⟨files, rfl, h⟩
  | cons a gone ih =>
    obtain ⟨files₁, hfiles₁, h₁⟩ := Counted.releaseAll (l := List.ofFn (fdt a))
      (n := fun f => n f + slotRefs fdt gone f) (h.congr fun f _ => by
        rw [slotRefs_cons, Fdt.refs]
        omega)
    obtain ⟨files', hfiles', h'⟩ := ih h₁
    refine ⟨files', ?_, h'⟩
    simp only [Files.closeZombies, closeFds, hfiles₁, Option.bind_eq_bind, Option.bind_some,
      hfiles']

theorem killZombies (h : FileInv s q) : Keeps s (.thread .killZombies) := by
  obtain ⟨sched, hs, hq, -⟩ := Sched.killZombies_spec h.queue
  have hcounted : Counted refCounter 0 s.files fun f =>
      s.refs (q.filter fun a => !s.sched.zombieAt a) f +
        slotRefs s.fdt (q.filter s.sched.zombieAt) f := by
    refine h.counted.congr fun f _ => ?_
    have hsplit := slotRefs_filter s.sched.zombieAt s.fdt q f
    simp only [OpenFiles.refs]
    omega
  obtain ⟨files, hfiles, hc⟩ := closeZombies (q.filter s.sched.zombieAt) hcounted
  refine ⟨{ s with sched := sched, files := files }, _, ?_, hq, hc, h.handles⟩
  show Files.killZombies s = _
  simp only [Files.killZombies, hs, hfiles, Option.bind_eq_bind, Option.bind_some, Option.pure_def]

theorem sysExit (h : FileInv s q) (ha : Sched.Allowed s.sched .threadExit) : Keeps s .sysExit := by
  obtain ⟨sched, hs, -⟩ := Sched.exec_effect h.queue ha nofun
  obtain ⟨q', hq', hperm⟩ := Sched.exec_queue h.queue ha hs nofun
  obtain ⟨files, hfiles, hc⟩ := Counted.releaseAll (l := List.ofFn (s.fdt s.sched.tp))
    (n := fun f => s.refs q f - (s.fdt s.sched.tp).refs f) (h.counted.congr fun f _ => by
      have hle := h.refs_le f
      rw [Fdt.refs] at hle ⊢
      omega)
  have hset := (h.setFdt (g := fun _ => 0) (hc.congr fun f hf => by
    rw [Fdt.refs_zero hf, Nat.add_zero])).sched hq' hperm
  refine ⟨_, q', ?_, hset⟩
  show Files.sysExit s = _
  rw [Sched.exec] at hs
  simp only [Files.sysExit, closeFds, hfiles, hs, Option.bind_eq_bind, Option.bind_some,
    Option.pure_def]

/-- `vfs_open` of a path that has a vnode counts the pointer of its caller. -/
theorem vfsOpen (h : FileInv s q) (hmem : s.files mem = none) (h₀ : mem ≠ 0) (x : File)
    (hx : x.refCount = 1) : s.refs q mem = 0 ∧
      Counted refCounter 0 (Function.update s.files mem (some x))
        fun f => s.refs q f + if mem = f then 1 else 0 := by
  have hz := (h.counted.alive mem h₀).1 hmem
  refine ⟨hz, (h.counted.update (a := mem) (k := 1) (v := some x) (fun y hy => ?_) (by simp)).congr
    fun f _ => ?_⟩
  · cases hy
    exact hx
  · by_cases hf : f = mem
    · subst hf
      rw [Function.update_self, if_pos rfl, hz]
    · rw [Function.update_of_ne hf, if_neg (Ne.symm hf), Nat.add_zero]

theorem sysOpen {vnode : Option Addr} {flags : BitVec 32} (h : FileInv s q)
    (hmem : s.files mem = none) (h₀ : vnode ≠ none → mem ≠ 0) :
    Keeps s (.sysOpen vnode flags mem) := by
  cases vnode with
  | none => exact ⟨s, q, rfl, h⟩
  | some v =>
    have h₀ := h₀ (by simp)
    obtain ⟨hz, hc⟩ := h.vfsOpen hmem h₀ ⟨v, 0, flags, 1⟩ rfl
    set files := Function.update s.files mem (some ⟨v, 0, flags, 1⟩) with hfiles
    have hopen : Files.vfsOpen s.files (some v) flags mem = some (files, some mem) := by
      rw [Files.vfsOpen, if_neg h₀]
    cases hfd : freeFd (s.fdt s.sched.tp) with
    | some i =>
      have hi : s.fdt s.sched.tp i = 0 := by
        simpa using List.find?_some hfd
      refine ⟨_, q, ?_, h.setFdt (g := Function.update (s.fdt s.sched.tp) i mem)
        (hc.congr fun f hf => ?_)⟩
      · show (Files.sysOpen s (some v) flags mem).map Prod.fst = _
        simp only [Files.sysOpen, hopen, hfd, Option.bind_eq_bind, Option.bind_some,
          Option.pure_def, Option.map_some]
      · have hup := Fdt.refs_update (s.fdt s.sched.tp) i mem f
        have hle := h.refs_le f
        rw [hi, if_neg (Ne.symm hf)] at hup
        omega
    | none =>
      obtain ⟨files', hfiles', hc'⟩ := hc.release (a := mem) h₀ (by simp)
      refine ⟨{ s with files := files' }, q, ?_, h.queue, hc'.congr fun f _ => ?_, h.handles⟩
      · show (Files.sysOpen s (some v) flags mem).map Prod.fst = _
        simp only [Files.sysOpen, hopen, hfd, vfsClose, hfiles', Option.bind_eq_bind,
          Option.bind_some, Option.pure_def, Option.map_some]
      · by_cases hf : f = mem
        · subst hf
          rw [Function.update_self, if_pos rfl, Nat.add_sub_cancel]
          rfl
        · rw [Function.update_of_ne hf, if_neg (Ne.symm hf), Nat.add_zero]
          rfl

theorem sysClose (h : FileInv s q) (fd : ℤ) : Keeps s (.sysClose fd) := by
  by_cases hfd : 0 ≤ fd ∧ fd < 16
  · set i : Fin 16 := ⟨fd.toNat, by omega⟩ with hi
    by_cases h₀ : s.fdt s.sched.tp i = 0
    · refine ⟨s, q, ?_, h⟩
      show (Files.sysClose s fd).map Prod.fst = _
      rw [Files.sysClose, dif_pos hfd, if_pos h₀]
      rfl
    · obtain ⟨files, hfiles, hc⟩ := h.counted.release h₀ (h.refs_current i)
      refine ⟨_, q, ?_, h.setFdt (g := Function.update (s.fdt s.sched.tp) i 0)
        (hc.congr fun f hf => ?_)⟩
      · show (Files.sysClose s fd).map Prod.fst = _
        rw [Files.sysClose, dif_pos hfd, if_neg h₀, vfsClose, hfiles]
        rfl
      · have hup := Fdt.refs_update (s.fdt s.sched.tp) i 0 f
        have hle := h.refs_le f
        have hcur := h.refs_current i
        rw [if_neg (Ne.symm hf)] at hup
        by_cases heq : f = s.fdt s.sched.tp i
        · rw [heq, Function.update_self]
          rw [heq, if_pos rfl] at hup
          rw [heq] at hle
          omega
        · rw [Function.update_of_ne heq]
          rw [if_neg (Ne.symm heq)] at hup
          omega
  · refine ⟨s, q, ?_, h⟩
    show (Files.sysClose s fd).map Prod.fst = _
    rw [Files.sysClose, dif_neg hfd]
    rfl

theorem openHandle {vnode : Option Addr} {flags : BitVec 32} (h : FileInv s q)
    (hmem : s.files mem = none) (h₀ : vnode ≠ none → mem ≠ 0) :
    Keeps s (.openHandle vnode flags mem) := by
  cases vnode with
  | none => exact ⟨s, q, rfl, h⟩
  | some v =>
    have h₀ := h₀ (by simp)
    obtain ⟨-, hc⟩ := h.vfsOpen hmem h₀ ⟨v, 0, flags, 1⟩ rfl
    refine ⟨{ s with
      files := Function.update s.files mem (some ⟨v, 0, flags, 1⟩)
      handles := mem :: s.handles }, q, ?_, h.queue, hc.congr fun f _ => ?_, ?_⟩
    · show Files.openHandle s (some v) flags mem = _
      rw [Files.openHandle, Files.vfsOpen, if_neg h₀]
      rfl
    · simp only [OpenFiles.refs, List.count_cons, beq_iff_eq]
      omega
    · rw [List.mem_cons, not_or]
      exact ⟨Ne.symm h₀, h.handles⟩

theorem closeHandle (h : FileInv s q) (hf : f ∈ s.handles) : Keeps s (.closeHandle f) := by
  have h₀ : f ≠ 0 := by
    rintro rfl
    exact h.handles hf
  have hpos := List.count_pos_iff.2 hf
  obtain ⟨files, hfiles, hc⟩ := h.counted.release h₀ (by rw [OpenFiles.refs]; omega)
  refine ⟨{ s with files := files, handles := s.handles.erase f }, q, ?_, h.queue,
    hc.congr fun b _ => ?_, fun hmem => h.handles (List.mem_of_mem_erase hmem)⟩
  · show Files.closeHandle s f = _
    rw [Files.closeHandle, vfsClose, hfiles]
    rfl
  · by_cases hb : b = f
    · subst hb
      simp only [Function.update_self, OpenFiles.refs, List.count_erase_self]
      omega
    · simp only [Function.update_of_ne hb, OpenFiles.refs, List.count_erase_of_ne hb]

theorem threadCreate (h : FileInv s q) (ha : Sched.Allowed s.sched (.threadCreate mem))
    (hn : mem ≠ 0 → s.sched.nrThreads < 2 ^ 31 - 1) : Keeps s (.thread (.threadCreate mem)) := by
  obtain ⟨sched, hs, -⟩ := Sched.exec_effect h.queue ha hn
  obtain ⟨q', hq', hperm⟩ := Sched.exec_queue h.queue ha hs nofun
  rw [Sched.exec] at hs
  by_cases h₀ : mem = 0
  · rw [Op.creates, if_pos h₀] at hperm
    refine ⟨_, q', ?_, h.sched hq' hperm⟩
    show Files.threadCreate s mem = _
    rw [Files.threadCreate, hs, Option.bind_eq_bind, Option.bind_some, if_pos h₀]
    rfl
  · rw [Op.creates, if_neg h₀] at hperm
    obtain ⟨s', hs', h'⟩ := h.inheritFds ha hq' hperm
    refine ⟨_, q', ?_, h'⟩
    show Files.threadCreate s mem = _
    rw [Files.threadCreate, hs, Option.bind_eq_bind, Option.bind_some, if_neg h₀, hs']
    rfl

theorem sysFork {copied : Bool} (h : FileInv s q)
    (ha : Sched.Allowed s.sched (.sysFork mem copied))
    (hn : mem ≠ 0 → s.sched.nrThreads < 2 ^ 31 - 1) : Keeps s (.thread (.sysFork mem copied)) := by
  obtain ⟨sched, hs, -⟩ := Sched.exec_effect h.queue ha hn
  obtain ⟨q', hq', hperm⟩ := Sched.exec_queue h.queue ha hs nofun
  rw [Sched.exec] at hs
  obtain ⟨r, hr, rfl⟩ := Option.map_eq_some_iff.1 hs
  by_cases h₀ : mem = 0 ∨ copied = false
  · rw [Op.creates, if_pos h₀] at hperm
    refine ⟨_, q', ?_, h.sched hq' hperm⟩
    show Files.sysFork s mem copied = _
    rw [Files.sysFork, hr, Option.bind_eq_bind, Option.bind_some, if_pos h₀]
    rfl
  · rw [Op.creates, if_neg h₀] at hperm
    obtain ⟨s', hs', h'⟩ := h.inheritFds ha hq' hperm
    refine ⟨_, q', ?_, h'⟩
    show Files.sysFork s mem copied = _
    rw [Files.sysFork, hr, Option.bind_eq_bind, Option.bind_some, if_neg h₀, hs']
    rfl

theorem thread {op : Op} (h : FileInv s q) (ha : Sched.Allowed s.sched op)
    (hn : op.TakesPid → s.sched.nrThreads < 2 ^ 31 - 1) : Keeps s (.thread op) := by
  cases op with
  | killZombies => exact h.killZombies
  | threadCreate mem => exact h.threadCreate ha hn
  | sysFork mem copied => exact h.sysFork ha hn
  | _ =>
    obtain ⟨sched, hs, -⟩ := Sched.exec_effect h.queue ha hn
    obtain ⟨q', hq', hperm⟩ := Sched.exec_queue h.queue ha hs nofun
    refine ⟨_, q', ?_, h.sched hq' hperm⟩
    show threadOp s _ = _
    rw [threadOp, hs]
    rfl

end FileInv

/-- There is a pid for a new thread and memory for a new handle. -/
def Possible (s : OpenFiles) : FileOp → Prop
  | .thread op => op.TakesPid → s.sched.nrThreads < 2 ^ 31 - 1
  | .sysOpen vnode _ mem | .openHandle vnode _ mem => vnode ≠ none → mem ≠ 0
  | _ => True

theorem FileInv.exec {op : FileOp} (h : FileInv s q) (ha : FileAllowed s op) (hp : Possible s op) :
    Keeps s op := by
  cases op with
  | thread op => exact h.thread ha hp
  | sysExit => exact h.sysExit ha
  | sysOpen vnode flags mem => exact h.sysOpen ha hp
  | sysClose fd => exact h.sysClose fd
  | openHandle vnode flags mem => exact h.openHandle ha hp
  | closeHandle f => exact h.closeHandle ha

theorem vfsOpen_ne_zero {files : Addr → Option File} {vnode : Option Addr} {flags : BitVec 32}
    (h : (vfsOpen files vnode flags mem).isSome) (hv : vnode ≠ none) : mem ≠ 0 := by
  rintro rfl
  cases vnode with
  | none => exact hv rfl
  | some v => cases h

theorem threadCreate_sched (h : threadCreate s mem = some s') :
    Sched.exec s.sched (.threadCreate mem) = some s'.sched := by
  obtain ⟨sched, hs, h⟩ := Option.bind_eq_some_iff.1 h
  obtain ⟨s₁, -, rfl⟩ := Option.map_eq_some_iff.1 h
  exact hs

theorem sysFork_sched {copied : Bool} (h : sysFork s mem copied = some s') :
    Sched.exec s.sched (.sysFork mem copied) = some s'.sched := by
  obtain ⟨r, hr, h⟩ := Option.bind_eq_some_iff.1 h
  obtain ⟨s₁, -, rfl⟩ := Option.map_eq_some_iff.1 h
  rw [Sched.exec, hr]
  rfl

/-- What went through was possible. -/
theorem possible_of_exec {op : FileOp} (he : s.exec op = some s') : Possible s op := by
  cases op with
  | thread op =>
    cases op with
    | threadCreate mem => exact Sched.exec_takesPid (threadCreate_sched he)
    | sysFork mem copied => exact Sched.exec_takesPid (sysFork_sched he)
    | _ => exact nofun
  | sysOpen vnode flags mem =>
    obtain ⟨r, hr, -⟩ := Option.map_eq_some_iff.1 he
    obtain ⟨r', hr', -⟩ := Option.bind_eq_some_iff.1 hr
    exact vfsOpen_ne_zero (Option.isSome_iff_exists.2 ⟨r', hr'⟩)
  | openHandle vnode flags mem =>
    obtain ⟨r, hr, -⟩ := Option.map_eq_some_iff.1 he
    exact vfsOpen_ne_zero (Option.isSome_iff_exists.2 ⟨r, hr⟩)
  | _ => trivial

/-! ## Runs -/

/-- **One step.** -/
theorem FileInv.step (h : FileInv s q) (hs : FileStep s s') : ∃ q', FileInv s' q' := by
  obtain ⟨op, ha, he⟩ := hs
  obtain ⟨s'', q', he', h'⟩ := h.exec ha (possible_of_exec he)
  cases he.symm.trans he'
  exact ⟨q', h'⟩

theorem fileInv_booted (h₀ : mem ≠ 0) : FileInv (.booted mem) [mem] := by
  have hrefs : ∀ f, f ≠ 0 → (OpenFiles.booted mem).refs [mem] f = 0 := fun f hf => by
    rw [OpenFiles.refs, slotRefs_cons]
    exact congrArg (· + 0 + 0) (Fdt.refs_zero hf)
  exact ⟨Sched.inv_booted h₀, ⟨nofun, fun f hf => iff_of_true rfl (hrefs f hf)⟩, List.not_mem_nil⟩

theorem FileReachable.inv (h : FileReachable s) : ∃ q, FileInv s q := by
  obtain ⟨mem, h₀, hs⟩ := h
  induction hs with
  | refl => exact ⟨_, fileInv_booted h₀⟩
  | tail _ hstep ih =>
    obtain ⟨q, hq⟩ := ih
    exact hq.step hstep

/-- What holds of the file handles in a state whose run queue is `q`. -/
structure WellCounted (s : OpenFiles) (q : List Addr) : Prop where
  /-- The run queue is the list of the unreaped threads. -/
  ring : Ring s.sched.heap Thread.next s.sched.runQueue q
  threads : ∀ a, a ∈ q ↔ ∃ t, s.sched.heap a = some t
  /-- `ref_count` is the number of pointers to the handle. -/
  count : ∀ f x, f ≠ 0 → s.files f = some x → x.refCount = s.refs q f
  /-- A handle has been freed exactly if there is no pointer to it. -/
  freed : ∀ f, f ≠ 0 → (s.files f = none ↔ s.refs q f = 0)
  /-- No slot points to a freed handle. -/
  slots : ∀ a ∈ q, ∀ i, s.fdt a i ≠ 0 → ∃ x, s.files (s.fdt a i) = some x
  /-- No operation accesses a freed handle. -/
  progress : ∀ op, FileAllowed s op → Possible s op → ∃ s', s.exec op = some s'

/-- **The files count their pointers.** In every state of every run, `ref_count` of each file handle
is the number of pointers to it, and the handles alive are those with a pointer to them. The
operations of a run are whole: a thread is not preempted inside of one. -/
theorem fileReachable_wellCounted (h : FileReachable s) : ∃ q, WellCounted s q := by
  obtain ⟨q, hq⟩ := h.inv
  refine ⟨q, hq.queue.ring, hq.queue.mem_iff, hq.counted.count, hq.counted.alive, ?_, ?_⟩
  · intro a ha i hi
    refine hq.counted.exists_object hi ?_
    have : slotRefs s.fdt q (s.fdt a i) ≠ 0 := slotRefs_pos ha i
    rw [OpenFiles.refs]
    omega
  · intro op ha hp
    obtain ⟨s', -, hs', -⟩ := hq.exec ha hp
    exact ⟨s', hs'⟩

/-- A thread (at `0x2000`) opens a file (at `0x8000`) and forks. -/
theorem fileReachable_wellCounted_fork : ∃ s, FileReachable s ∧
    s.files 0x8000 = some ⟨0x9000, 0, 0, 2⟩ ∧ ∃ q, WellCounted s q := by
  have hrun : FileReachable _ := ⟨0x1000, by decide, .tail (.tail (.tail (.tail .refl
    ⟨.thread (.threadCreate 0x2000), rfl, rfl⟩) ⟨.thread .schedule, trivial, rfl⟩)
    ⟨.sysOpen (some 0x9000) 0 0x8000, rfl, rfl⟩) ⟨.thread (.sysFork 0x3000 true), rfl, rfl⟩⟩
  exact ⟨_, hrun, rfl, fileReachable_wellCounted hrun⟩

end BareMetalOS.Files
