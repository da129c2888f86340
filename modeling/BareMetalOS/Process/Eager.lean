import BareMetalOS.Process.Isolation

/-!
# Lazy memory and eager memory

What the memory of the processes is for, without page tables: each process has a page at each place
of its regions, from the moment on at which it gets the region (`Eager`). A program is installed as
a whole, new regions are zeros, `sys_fork` copies everything. The kernel installs pages on the first
access and shares them until somebody writes; that nobody can tell is a simulation: each run of the
kernel is a run of the eager memories, in which a load that the page table permits gives the same
word (`Lazy.lean`).
-/

namespace BareMetalOS.Process

open Memory (Addr)
open Mmu Sched Trap Files

/-! ## Eager memory -/

/-- The memory of a process: the page at each place where it has one, and the place of its signal
stack. -/
structure Eager where
  pages : Leaf → Option Page
  signal : Option Leaf

namespace Eager

/-- A page of zeros. -/
def zeros : Page := fun _ => 0

/-- The whole image of a program, with zeros to the end of the last page, and its stack. -/
def program (m : Mem) (dat : Addr) (size : BitVec 32) : Eager where
  pages x :=
    if leafBase x < (size.toNat + 4095) / 4096 * 4096 then
      some fun i => wordOf fun j =>
        let at' := leafBase x + (8 * i.val + j.val)
        if dat ≠ 0 ∧ at' < size.toNat then loadByte m (dat + BitVec.ofNat 64 at') else 0
    else if (stackTop - userStackSize).toNat ≤ leafBase x ∧ leafBase x < stackTop.toNat then
      some zeros
    else none
  signal := none

/-- The pages of a region. -/
def InRange (start length : ℕ) (x : Leaf) : Prop := start ≤ leafBase x ∧ leafBase x < start + length

instance (start length : ℕ) (x : Leaf) : Decidable (InRange start length x) :=
  inferInstanceAs (Decidable (_ ∧ _))

/-- A region of zeros. -/
def addZeros (pages : Leaf → Option Page) (start length : ℕ) (x : Leaf) : Option Page :=
  if InRange start length x then some zeros else pages x

/-- What a step makes of the memories, by the addresses of the threads. Where the kernel may fail
for want of memory, or chooses an address, the step says what it does if it succeeds. -/
def Step (m : Mem) (stub : Page) (e e' : Addr → Option Eager) : Op → Prop
  | .launch dat size => ∃ a, e a = none ∧ e' = Function.update e a (some (program m dat size))
  | .store a va i word => ∃ p c, e a = some p ∧ p.pages (leafIndex va) = some c ∧
    e' = Function.update e a (some { p with
      pages := Function.update p.pages (leafIndex va) (some (Function.update c i word)) })
  | .fork a => e' = e ∨ ∃ p c, e a = some p ∧ e c = none ∧
    e' = Function.update e c (some { p with signal := none })
  | .exec a dat size => (e a).isSome ∧ e' = Function.update e a (some (program m dat size))
  | .mmap a _ length _ _ => e' = e ∨ ∃ p start, e a = some p ∧
    (∀ x, InRange start (roundLength length).toNat x → p.pages x = none) ∧
    e' = Function.update e a (some { p with
      pages := addZeros p.pages start (roundLength length).toNat })
  | .checkSignals a => e' = e ∨ ∃ p x, e a = some p ∧ p.pages x = none ∧
    e' = Function.update e a (some ⟨Function.update p.pages x (some stub), some x⟩)
  | .sigreturn a => ∃ p, e a = some p ∧ e' = Function.update e a (some
    ⟨p.signal.elim p.pages fun x => Function.update p.pages x none, none⟩)
  | .reap a => (e a).isSome ∧ e' = Function.update e a none
  | _ => e' = e

/-- The runs from the start, with their steps. -/
inductive Run (m : Mem) (stub : Page) : List Op → (Addr → Option Eager) → Prop
  | nil : Run m stub [] fun _ => none
  | snoc {ops : List Op} {op : Op} {e e' : Addr → Option Eager} (h : Run m stub ops e)
    (hs : Step m stub e e' op) : Run m stub (ops ++ [op]) e'

/-- The word that a process reads. -/
def load (e : Addr → Option Eager) (a va : Addr) : Option (BitVec 64) := do
  let p ← e a
  let c ← p.pages (leafIndex va)
  return c (vpn va 3)

end Eager

/-! ## The memory of a process -/

variable {s s₀ : Sys} {vm' : Vm} {p p' : Proc} {a va : Addr} {op : Op} {w : BitVec 64}
  {m m' m₀ : Mem} {vmas vmas' : List VmArea} {v new : VmArea} {x : Leaf} {dat : Addr}
  {size : BitVec 32} {c : Page}

/-- The page that a fault installs. -/
def regionPage (m : Mem) (vmas : List VmArea) (x : Leaf) : Option Page :=
  (findVma vmas (pageAddr x)).map fun v => filePage m v (pageAddr x - v.start)

/-- The page that a process has, mapped or not, where its program comes from the memory `m₀`. -/
def view (m₀ m : Mem) (p : Proc) (x : Leaf) : Option Page :=
  (contents m p.pgd x).or (regionPage m₀ p.vmas x)

/-- The memory of a process, without its page table. -/
def Proc.eager (m₀ m : Mem) (p : Proc) : Eager where
  pages := view m₀ m p
  signal := if p.task.isHandlingSignal then some (leafIndex p.signalStackVaddr) else none

/-- The memories of all processes. -/
def Sys.eager (m₀ : Mem) (s : Sys) (a : Addr) : Option Eager :=
  (s.proc a).map (Proc.eager m₀ s.vm.mem)

/-! ## Regions and their pages -/

theorem covers_iff : Covers v x ↔ v.start ≤ pageAddr x ∧ pageAddr x < v.stop := by
  rw [Covers, BitVec.le_def, BitVec.lt_def, toNat_pageAddr]

/-- The region of a page. -/
theorem findVma_eq_some (h : VmasOk vmas) :
    findVma vmas (pageAddr x) = some v ↔ v ∈ vmas ∧ Covers v x := by
  constructor
  · intro hfind
    obtain ⟨hv, hin⟩ := findVma_eq hfind
    exact ⟨hv, covers_iff.2 hin⟩
  · rintro ⟨hv, hcov⟩
    cases hfind : findVma vmas (pageAddr x) with
    | none =>
      rw [findVma, List.find?_eq_none] at hfind
      exact absurd (by simpa using covers_iff.1 hcov) (hfind v hv)
    | some u =>
      obtain ⟨hu, hin⟩ := findVma_eq hfind
      rw [covers_unique h hv hu hcov (covers_iff.2 hin)]

theorem findVma_eq_none (h : VmasOk vmas) :
    findVma vmas (pageAddr x) = none ↔ ∀ v ∈ vmas, ¬ Covers v x := by
  constructor
  · intro hfind v hv hcov
    rw [(findVma_eq_some h).2 ⟨hv, hcov⟩] at hfind
    cases hfind
  · intro hno
    by_contra hsome
    obtain ⟨v, hv⟩ := Option.ne_none_iff_exists'.1 hsome
    obtain ⟨hv, hcov⟩ := (findVma_eq_some h).1 hv
    exact hno v hv hcov

theorem regionPage_of_covers (h : VmasOk vmas) (hv : v ∈ vmas) (hcov : Covers v x) :
    regionPage m vmas x = some (filePage m v (pageAddr x - v.start)) := by
  rw [regionPage, (findVma_eq_some h).2 ⟨hv, hcov⟩]
  rfl

theorem regionPage_of_not (h : VmasOk vmas) (hno : ∀ v ∈ vmas, ¬ Covers v x) :
    regionPage m vmas x = none := by
  rw [regionPage, (findVma_eq_none h).2 hno]
  rfl

/-- Only the regions that contain the page matter. -/
theorem regionPage_congr (h : VmasOk vmas) (h' : VmasOk vmas')
    (hmem : ∀ v, Covers v x → (v ∈ vmas' ↔ v ∈ vmas)) :
    regionPage m vmas' x = regionPage m vmas x := by
  by_cases hex : ∃ v ∈ vmas, Covers v x
  · obtain ⟨v, hv, hcov⟩ := hex
    rw [regionPage_of_covers h hv hcov, regionPage_of_covers h' ((hmem v hcov).2 hv) hcov]
  · push Not at hex
    rw [regionPage_of_not h hex,
      regionPage_of_not h' fun v hv hcov => hex v ((hmem v hcov).1 hv) hcov]

/-- Another region does not matter. -/
theorem regionPage_insert (h : VmasOk vmas) (h' : VmasOk (insertVma new vmas))
    (hnot : ¬ Covers new x) : regionPage m (insertVma new vmas) x = regionPage m vmas x := by
  apply regionPage_congr h h'
  intro v hv
  rw [(insertVma_perm _ _).mem_iff, List.mem_cons]
  constructor
  · rintro (rfl | hv')
    · exact absurd hv hnot
    · exact hv'
  · exact .inr

/-- The page of a region of one page. -/
theorem eq_leafIndex_of_covers (halign : v.start.toNat % 4096 = 0) (hlt : v.start.toNat < 2 ^ 38)
    (hstop : v.stop.toNat = v.start.toNat + 4096) (hcov : Covers v x) : x = leafIndex v.start := by
  have hbase := leafBase_leafIndex hlt
  have hmod : leafBase x % 4096 = 0 := Nat.mul_mod_left _ _
  apply leafBase_injective
  unfold Covers at hcov
  omega

theorem wordOf_zero : wordOf (fun _ => 0) = 0 := by decide

/-- A region without a file has zeros. -/
theorem filePage_zeros (h : v.fileData = 0) (off : BitVec 64) : filePage m v off = Eager.zeros := by
  funext i
  have hbytes : (fun j : Fin 8 => if v.fileData ≠ 0 ∧ off < v.fileSize ∧
          8 * i.val + j.val < (v.fileSize - off).toNat
        then loadByte m (v.fileData + off + BitVec.ofNat 64 (8 * i.val + j.val)) else 0) =
      fun _ => 0 := by
    funext j
    rw [if_neg (by rw [h]; exact fun hne => hne.1 rfl)]
  rw [filePage]
  dsimp only
  rw [hbytes, wordOf_zero]
  rfl

/-- The fields of a region, but for the address of its structure. -/
theorem regionPage_data : regionPage m (vmas.map data) x = regionPage m vmas x := by
  rw [regionPage, regionPage, findVma, findVma, List.find?_map, Option.map_map]
  rfl

/-! ## Files that stay as they are -/

/-- The bytes of a file are in pages that are not given away. -/
def FileWithheld (al : Memory.Allocator) (dat : Addr) (size : ℕ) : Prop :=
  dat ≠ 0 → ∀ i < size, Withheld al ((dat + BitVec.ofNat 64 i) &&& ~~~4095)

theorem fileWithheld_zero (al : Memory.Allocator) (n : ℕ) : FileWithheld al 0 n :=
  fun hne => absurd rfl hne

theorem add_offset (start off : BitVec 64) (i : ℕ) :
    start + off + BitVec.ofNat 64 i = start + BitVec.ofNat 64 (off.toNat + i) := by
  rw [BitVec.ofNat_add off.toNat i, BitVec.ofNat_toNat, BitVec.setWidth_eq, BitVec.add_assoc]

/-- A fault installs the page that the file has had from the start. -/
theorem filePage_withheld {vm : Vm} (h : WithheldKept vm vm')
    (hfile : FileWithheld vm.alloc v.fileData v.fileSize.toNat) (off : BitVec 64) :
    filePage vm'.mem v off = filePage vm.mem v off := by
  funext i
  rw [filePage, filePage]
  dsimp only
  congr 1
  funext j
  by_cases hin : v.fileData ≠ 0 ∧ off < v.fileSize ∧ 8 * i.val + j.val < (v.fileSize - off).toNat
  · rw [if_pos hin, if_pos hin]
    obtain ⟨hdat, hoff, hlt⟩ := hin
    have hsub := BitVec.toNat_sub_of_le (BitVec.le_of_lt hoff)
    rw [BitVec.lt_def] at hoff
    have haddr : v.fileData + off + BitVec.ofNat 64 (8 * i.val + j.val) =
        v.fileData + BitVec.ofNat 64 (off.toNat + (8 * i.val + j.val)) := add_offset _ _ _
    rw [loadByte, loadByte, haddr, h.mem _ (hfile hdat _ (by omega))]
  · rw [if_neg hin, if_neg hin]

/-- What a run keeps of the start: the contents of the archive and the trampoline. -/
structure FromStart (s₀ s : Sys) : Prop where
  kept : WithheldKept s₀.vm s.vm
  files : ∀ p ∈ s.procs, ∀ v ∈ p.vmas, FileWithheld s₀.vm.alloc v.fileData v.fileSize.toNat
  stub : s.stub = s₀.stub

/-- The program that is started is in the archive. -/
def FromArchive (s₀ : Sys) : Op → Prop
  | .launch dat size | .exec _ dat size => FileWithheld s₀.vm.alloc dat size.toNat
  | _ => True

theorem FromStart.filePage {s₀ : Sys} (h : FromStart s₀ s) (hp : p ∈ s.procs) (hv : v ∈ p.vmas)
    (off : BitVec 64) : Process.filePage s.vm.mem v off = Process.filePage s₀.vm.mem v off :=
  filePage_withheld h.kept (h.files p hp v hv) off

/-! ## The memory after each operation -/

/-- A page that is mapped now was already there. -/
theorem view_fault (hok : VmasOk p.vmas) (hv : v ∈ p.vmas) (hcov : Covers v x)
    (hnone : contents m p.pgd x = none) (hfile : filePage m v = filePage m₀ v)
    (hcontents : contents m' p.pgd = Function.update (contents m p.pgd) x
      (some (filePage m v (pageAddr x - v.start)))) : view m₀ m' p = view m₀ m p := by
  funext y
  rw [view, view, hcontents]
  rcases eq_or_ne y x with rfl | hne
  · rw [Function.update_self, hnone, Option.some_or, Option.none_or,
      regionPage_of_covers hok hv hcov, hfile]
  · rw [Function.update_of_ne hne]

/-- A page that is mapped is written to. -/
theorem view_update
    (hcontents : contents m' p.pgd = Function.update (contents m p.pgd) x (some c)) :
    view m₀ m' p = Function.update (view m₀ m p) x (some c) := by
  funext y
  rw [view, hcontents]
  rcases eq_or_ne y x with rfl | hne
  · rw [Function.update_self, Function.update_self, Option.some_or]
  · rw [Function.update_of_ne hne, Function.update_of_ne hne, view]

/-- A process has the pages that are mapped. -/
theorem view_of_contents (h : contents m p.pgd x = some c) : view m₀ m p x = some c := by
  rw [view, h, Option.some_or]

/-- Nothing is in the pages of a new region. -/
theorem view_of_apart (hreg : Regions (leafAt 256 m p.pgd) p.vmas) (hapart : ApartFrom new p.vmas)
    (hcov : Covers new x) : view m₀ m p x = none := by
  have hno : ∀ v ∈ p.vmas, ¬ Covers v x := by
    intro v hv hcov'
    have := hapart v hv
    unfold Covers at hcov hcov'
    omega
  have hleaf : leafAt 256 m p.pgd x = none := by
    by_contra hsome
    obtain ⟨w, hw⟩ := Option.ne_none_iff_exists'.1 hsome
    obtain ⟨v, hv, hcov', -⟩ := hreg.covered x w hw
    exact hno v hv hcov'
  rw [view, contents, mapped, hleaf, regionPage_of_not hreg.ok hno]
  rfl

theorem view_leafIndex (hreg : Regions (leafAt 256 m p.pgd) p.vmas)
    (halign : new.start.toNat % 4096 = 0)
    (hstop : new.stop.toNat = new.start.toNat + 4096) (hbelow : new.stop.toNat ≤ 2 ^ 38)
    (hapart : ApartFrom new p.vmas) : view m₀ m p (leafIndex new.start) = none := by
  have hbase := @leafBase_leafIndex new.start (by omega)
  apply view_of_apart hreg hapart
  unfold Covers
  omega

theorem covers_of_stop {n : ℕ} (hstop : new.stop.toNat = new.start.toNat + n) :
    Covers new x ↔ Eager.InRange new.start.toNat n x := by
  rw [Covers, Eager.InRange, hstop]

/-- A region of zeros is added, some of which are mapped. -/
theorem view_mmap {n : ℕ} (hreg : Regions (leafAt 256 m p.pgd) p.vmas)
    (hok : VmasOk (insertVma new p.vmas)) (hfile : new.fileData = 0)
    (hstop : new.stop.toNat = new.start.toNat + n) (hapart : ApartFrom new p.vmas)
    (hvmas : p'.vmas = insertVma new p.vmas) (hpgd : p'.pgd = p.pgd)
    (hcontents : ∀ x, contents m' p.pgd x = contents m p.pgd x ∨
      Covers new x ∧ contents m' p.pgd x = some fun _ => 0) :
    view m₀ m' p' = Eager.addZeros (view m₀ m p) new.start.toNat n := by
  funext x
  rw [view, hvmas, hpgd, Eager.addZeros]
  by_cases hcov : Covers new x
  · have hin : new ∈ insertVma new p.vmas := (insertVma_perm _ _).mem_iff.2 (List.mem_cons_self ..)
    rw [if_pos ((covers_of_stop hstop).1 hcov), regionPage_of_covers hok hin hcov,
      filePage_zeros hfile]
    have hview : view m₀ m p x = none := view_of_apart hreg hapart hcov
    rw [view, Option.or_eq_none_iff] at hview
    rcases hcontents x with hsame | ⟨-, hzero⟩
    · rw [hsame, hview.1, Option.none_or]
    · rw [hzero]
      rfl
  · rw [if_neg fun hin => hcov ((covers_of_stop hstop).2 hin), view]
    rcases hcontents x with hsame | ⟨hcov', -⟩
    · rw [hsame, regionPage_insert hreg.ok hok hcov]
    · exact absurd hcov' hcov

/-- A region of one page is added, with its page. -/
theorem view_deliver (hreg : Regions (leafAt 256 m p.pgd) p.vmas)
    (hok : VmasOk (insertVma new p.vmas)) (halign : new.start.toNat % 4096 = 0)
    (hstop : new.stop.toNat = new.start.toNat + 4096) (hbelow : new.stop.toNat ≤ 2 ^ 38)
    (hvmas : p'.vmas = insertVma new p.vmas) (hpgd : p'.pgd = p.pgd)
    (hcontents : contents m' p.pgd =
      Function.update (contents m p.pgd) (leafIndex new.start) (some c)) :
    view m₀ m' p' = Function.update (view m₀ m p) (leafIndex new.start) (some c) := by
  funext x
  rw [view, hvmas, hpgd, hcontents]
  rcases eq_or_ne x (leafIndex new.start) with rfl | hne
  · rw [Function.update_self, Function.update_self, Option.some_or]
  · rw [Function.update_of_ne hne, Function.update_of_ne hne, view]
    rw [regionPage_insert hreg.ok hok fun hcov =>
      hne (eq_leafIndex_of_covers halign (by omega) hstop hcov)]

/-- A region of one page goes, with its page. -/
theorem view_sigreturn (hok : VmasOk p.vmas) (hok' : VmasOk p'.vmas)
    (hperm : p.vmas.Perm (v :: p'.vmas))
    (halign : v.start.toNat % 4096 = 0) (hlt : v.start.toNat < 2 ^ 38)
    (hstop : v.stop.toNat = v.start.toNat + 4096) (hpgd : p'.pgd = p.pgd)
    (hcontents : contents m' p.pgd = Function.update (contents m p.pgd) (leafIndex v.start) none) :
    view m₀ m' p' = Function.update (view m₀ m p) (leafIndex v.start) none := by
  have hbase := leafBase_leafIndex hlt
  have hapart : ∀ u ∈ p'.vmas, v.stop.toNat ≤ u.start.toNat ∨ u.stop.toNat ≤ v.start.toNat :=
    (List.pairwise_cons.1 (hperm.pairwise hok.apart fun h => h.symm)).1
  funext x
  rw [view, hpgd, hcontents]
  rcases eq_or_ne x (leafIndex v.start) with rfl | hne
  · rw [Function.update_self, Function.update_self, Option.none_or]
    apply regionPage_of_not hok'
    intro u hu hcov
    have := hapart u hu
    unfold Covers at hcov
    omega
  · rw [Function.update_of_ne hne, Function.update_of_ne hne, view]
    congr 1
    apply regionPage_congr hok hok'
    intro u hu
    rw [hperm.mem_iff, List.mem_cons]
    constructor
    · exact .inr
    · rintro (rfl | hu')
      · exact absurd (eq_leafIndex_of_covers halign hlt hstop hu) hne
      · exact hu'

theorem toNat_signExtend (h : 0 ≤ size.toInt) : (size.signExtend 64).toNat = size.toNat := by
  have hmsb : size.msb = false := by
    rw [BitVec.msb_eq_toInt, decide_eq_false_iff_not]
    omega
  rw [BitVec.signExtend_eq_setWidth_of_msb_false hmsb, BitVec.toNat_setWidth]
  have := size.isLt
  omega

/-- A page of the code holds the bytes of the program. -/
theorem filePage_code (hsize : 0 ≤ size.toInt) (hstart : v.start = 0) (hfile : v.fileData = dat)
    (hlen : v.fileSize = size.signExtend 64) (i : Fin 512) :
    filePage m v (pageAddr x - v.start) i = wordOf fun j =>
      if dat ≠ 0 ∧ leafBase x + (8 * i.val + j.val) < size.toNat then
        loadByte m (dat + BitVec.ofNat 64 (leafBase x + (8 * i.val + j.val))) else 0 := by
  rw [filePage, hstart, hfile, hlen, show pageAddr x - 0 = pageAddr x from BitVec.sub_zero _]
  dsimp only
  congr 1
  funext j
  have hpage := toNat_pageAddr x
  have hlen := toNat_signExtend hsize
  have hsub : pageAddr x < size.signExtend 64 →
      (size.signExtend 64 - pageAddr x).toNat = size.toNat - leafBase x := by
    intro hlt
    rw [BitVec.toNat_sub_of_le (BitVec.le_of_lt hlt), hlen, hpage]
  by_cases hin : dat ≠ 0 ∧ leafBase x + (8 * i.val + j.val) < size.toNat
  · have hlt : pageAddr x < size.signExtend 64 := by
      rw [BitVec.lt_def]
      omega
    rw [if_pos hin, if_pos ⟨hin.1, hlt, by rw [hsub hlt]; omega⟩, add_offset, hpage]
  · rw [if_neg hin, if_neg]
    rintro ⟨hdat, hlt, hbyte⟩
    rw [hsub hlt] at hbyte
    rw [BitVec.lt_def] at hlt
    exact hin ⟨hdat, by omega⟩

/-- A process that has only its regions has the image of its program. -/
theorem view_program {code stack : Addr} (hsize : 0 ≤ size.toInt)
    (hcontents : contents m p.pgd = fun _ => none)
    (hvmas : p.vmas = [⟨code, 0, codeLength size, protRead ||| protWrite ||| protExec,
      mapAnonymous, dat,
      size.signExtend 64⟩, ⟨stack, stackTop - userStackSize, stackTop, protRead ||| protWrite,
      mapAnonymous, 0, 0⟩]) : view m₀ m p = (Eager.program m₀ dat size).pages := by
  funext x
  have hpage := toNat_pageAddr x
  have hcode := toNat_codeLength hsize
  rw [view, hcontents, Option.none_or, hvmas, regionPage, findVma, Eager.program]
  dsimp only
  by_cases hlt : leafBase x < (size.toNat + 4095) / 4096 * 4096
  · rw [if_pos hlt, List.find?_cons_of_pos]
    · rw [Option.map_some]
      congr 1
      funext i
      rw [filePage_code hsize rfl rfl rfl]
    · rw [decide_eq_true_eq, BitVec.le_def, BitVec.lt_def, hpage, hcode]
      exact ⟨Nat.zero_le _, hlt⟩
  · rw [if_neg hlt, List.find?_cons_of_neg]
    · by_cases hstack : (stackTop - userStackSize).toNat ≤ leafBase x ∧ leafBase x < stackTop.toNat
      · rw [if_pos hstack, List.find?_cons_of_pos]
        · rw [Option.map_some, filePage_zeros rfl]
        · rw [decide_eq_true_eq, BitVec.le_def, BitVec.lt_def, hpage]
          exact hstack
      · rw [if_neg hstack, List.find?_cons_of_neg]
        · rfl
        · rw [decide_eq_true_eq, BitVec.le_def, BitVec.lt_def, hpage]
          exact hstack
    · rw [decide_eq_true_eq, BitVec.le_def, BitVec.lt_def, hpage, hcode]
      exact fun h => hlt h.2

/-- The files of the regions of a program stay as they are. -/
theorem fileWithheld_program {code stack : Addr} (hsize : 0 ≤ size.toInt)
    (hfile : FileWithheld s₀.vm.alloc dat size.toNat)
    (hvmas : p.vmas = [⟨code, 0, codeLength size, protRead ||| protWrite ||| protExec,
      mapAnonymous, dat,
      size.signExtend 64⟩, ⟨stack, stackTop - userStackSize, stackTop, protRead ||| protWrite,
      mapAnonymous, 0, 0⟩]) (hv : v ∈ p.vmas) :
    FileWithheld s₀.vm.alloc v.fileData v.fileSize.toNat := by
  rw [hvmas, List.mem_cons, List.mem_singleton] at hv
  rcases hv with rfl | rfl
  · dsimp only
    rw [toNat_signExtend hsize]
    exact hfile
  · exact fileWithheld_zero _ _

end BareMetalOS.Process
