import BareMetalOS.Mmu.Withheld
import BareMetalOS.Process.FaultPages

/-!
# What the operations do to the contents of pages

The contents of the pages that an address space maps, and what each operation of a process does to
them. A page that is copied on write has the contents it had; a page that a fault maps has those of
its region; the pages of the other processes are as before, and so are pages that the allocator does
not give away (`Effect`).
-/

namespace BareMetalOS.Process

open Memory (Addr AllocInv)
open Mmu Sched Trap Files

variable {g : Ground} {s : Sys} {vm vm' vm'' : Vm} {p : Proc} {rest : List Proc}
  {lost loose : Addr → ℕ} {opened : List Addr} {x : Leaf} {f pgd pt q va : Addr} {w : BitVec 64}
  {v : VmArea} {ps : List Addr} {m m' m'' : Mem} {other : Addr → Option (ℕ × ℤ)} {i j k : Fin 512}
  {prot : BitVec 64} {files files' : Addr → Option File} {fdt : Fdt}

/-! ## Contents -/

/-- The words of a page. -/
abbrev Page := Fin 512 → BitVec 64

/-- The contents of the pages that an address space maps. -/
def contents (m : Mem) (pgd : Addr) (x : Leaf) : Option Page := (mapped m pgd x).map m

/-- An address space is as before, and so are its frames. -/
structure Unseen (m m' : Mem) (pgd : Addr) : Prop where
  space : SameSpace 256 m m' pgd
  frames : ∀ x f, mapped m pgd x = some f → m' f = m f

namespace Unseen

theorem refl (m : Mem) (pgd : Addr) : Unseen m m pgd := ⟨.refl _ _, fun _ _ _ => rfl⟩

theorem trans (h : Unseen m m' pgd) (h' : Unseen m' m'' pgd) : Unseen m m'' pgd := by
  refine ⟨h.space.trans h'.space, fun x f hx => ?_⟩
  rw [← h.frames x f hx]
  apply h'.frames x f
  rw [h.space.mapped]
  exact hx

theorem contents (h : Unseen m m' pgd) : contents m' pgd = contents m pgd := by
  funext x
  rw [Process.contents, Process.contents, h.space.mapped]
  exact Option.map_congr fun f hf => h.frames x f hf

end Unseen

/-- One mapping has changed. -/
theorem contents_update {o : Option Addr}
    (hmapped : mapped m' pgd = Function.update (mapped m pgd) x o)
    (hframes : ∀ y f, mapped m pgd y = some f → m' f = m f) :
    contents m' pgd = Function.update (contents m pgd) x (o.map m') := by
  funext y
  rw [contents, hmapped]
  rcases eq_or_ne y x with rfl | hne
  · rw [Function.update_self, Function.update_self]
  · rw [Function.update_of_ne hne, Function.update_of_ne hne, contents]
    exact Option.map_congr fun f hf => hframes y f hf

/-- A frame that is mapped is referred to, and it is no table. -/
theorem isFrame_mapped (h : Spaces vm ps loose other) (hm : pgd ∈ ps)
    (hx : mapped vm.mem pgd x = some f) : IsFrame vm ps loose f := by
  refine ⟨?_, fun pgd' hm' => h.not_isTable_of_mapped hm hx hm'⟩
  have hpos := refsIn_pos_of_mapped hx
  have hle : refsIn vm.mem pgd f ≤ refsAll vm.mem ps f := refsIn_le_refsAll hm
  rw [Pi.add_apply]
  omega

/-- A page that nobody maps is no table either. -/
theorem isFrame_loose (h : Spaces vm ps (loose + Pi.single q 1) other) :
    IsFrame vm ps (loose + Pi.single q 1) q :=
  ⟨by simp, fun _ hm => h.not_isTable_of_loose (by simp) hm⟩

/-! ## Effects -/

/-- What an operation of one process leaves alone: the other processes, and the pages that are not
given away. -/
structure Effect (vm vm' : Vm) (rest : List Proc) : Prop where
  others : ∀ q ∈ rest, Unseen vm.mem vm'.mem q.pgd
  withheld : WithheldKept vm vm'

theorem Effect.trans (h : Effect vm vm' rest) (h' : Effect vm' vm'' rest) : Effect vm vm'' rest :=
  ⟨fun q hq => (h.others q hq).trans (h'.others q hq), h.withheld.trans h'.withheld⟩

/-- Only the allocator has changed. -/
structure AllocOnly (vm vm' : Vm) : Prop where
  mem : vm'.mem = vm.mem
  withheld : WithheldKept vm vm'

namespace AllocOnly

theorem refl (h : AllocInv vm.alloc) : AllocOnly vm vm := ⟨rfl, .refl h⟩

theorem trans (h : AllocOnly vm vm') (h' : AllocOnly vm' vm'') : AllocOnly vm vm'' :=
  ⟨h'.mem.trans h.mem, h.withheld.trans h'.withheld⟩

theorem effect (h : AllocOnly vm vm') (rest : List Proc) : Effect vm vm' rest := by
  refine ⟨fun q _ => ?_, h.withheld⟩
  rw [h.mem]
  exact .refl _ _

theorem allocBytes (h : AllocInv vm.alloc) (size : ℕ) : AllocOnly vm (allocBytes vm size).2 :=
  ⟨rfl, .alloc h size⟩

theorem allocPage (h : AllocInv vm.alloc) : AllocOnly vm vm.allocPage.2 := ⟨rfl, .allocPage h⟩

theorem freePage (h : AllocInv vm.alloc) (q : Addr) : AllocOnly vm (vm.freePage q) :=
  ⟨rfl, .freePage h q⟩

theorem freeVmas (h : AllocInv vm.alloc) (vmas : List VmArea) : AllocOnly vm (freeVmas vm vmas) :=
  ⟨freeAll_mem _ _, .freeAll h _⟩

theorem freePgd (h : AllocInv vm.alloc) (pgd : Addr) : AllocOnly vm (Mmu.freePgd vm pgd) :=
  ⟨freePgd_mem _ _, .freePgd h pgd⟩

theorem addVma (h : AllocInv vm.alloc) {vmas vmas' : List VmArea} {start length flags : BitVec 64}
    (hadd : addVma vm vmas start length prot flags = some (vm', vmas')) : AllocOnly vm vm' := by
  rw [Mmu.addVma] at hadd
  split_ifs at hadd
  obtain ⟨rfl, -⟩ := Prod.mk.inj (Option.some.inj hadd)
  exact ⟨rfl, .alloc h _⟩

theorem programVmas (h : AllocInv vm.alloc) {dat : Addr} {size : BitVec 32} {vmas : List VmArea}
    (hv : programVmas vm dat size = some (vm', vmas)) : AllocOnly vm vm' := by
  unfold Process.programVmas at hv
  obtain ⟨⟨vm₁, code⟩, hadd, hv⟩ := Option.bind_eq_some_iff.1 hv
  have h₁ := addVma h hadd
  exact h₁.trans (addVma h₁.withheld.inv hv)

theorem copyVmaList (vmas : List VmArea) (h : AllocInv vm.alloc) :
    AllocOnly vm (copyVmaList vm vmas).1 := by
  induction vmas generalizing vm with
  | nil => exact .refl h
  | cons v vmas ih =>
    have h₁ : AllocOnly vm { vm with alloc := (Memory.allocate vm.alloc sizeofVmArea).2 } :=
      ⟨rfl, .alloc h _⟩
    rw [Mmu.copyVmaList]
    dsimp only
    split_ifs
    · exact h₁
    · exact h₁.trans (ih h₁.withheld.inv)

theorem closeFile (h : AllocInv vm.alloc) (hc : closeFile vm files f = some (vm', files')) :
    AllocOnly vm vm' := by
  rw [Process.closeFile] at hc
  obtain ⟨files₁, -, heq⟩ := Option.map_eq_some_iff.1 hc
  obtain ⟨rfl, -⟩ := Prod.mk.inj heq
  split_ifs
  · exact .freePage h f
  · exact .refl h

theorem closeFiles (l : List Addr) (h : AllocInv vm.alloc)
    (hc : closeFiles vm files l = some (vm', files')) : AllocOnly vm vm' := by
  induction l generalizing vm files with
  | nil =>
    cases hc
    exact .refl h
  | cons f l ih =>
    rw [Process.closeFiles] at hc
    split_ifs at hc
    · exact ih h hc
    · obtain ⟨⟨vm₁, files₁⟩, hclose, hc⟩ := Option.bind_eq_some_iff.1 hc
      have h₁ := closeFile h hclose
      exact h₁.trans (ih h₁.withheld.inv hc)

theorem sysOpen (h : AllocInv vm.alloc) {vnode : Addr} {flags : BitVec 32} {ret : ℤ}
    (ho : sysOpen vm files p vnode flags = some (vm', files', fdt, ret)) : AllocOnly vm vm' := by
  unfold Process.sysOpen at ho
  dsimp only at ho
  have h₁ := allocBytes h sizeofFile
  obtain ⟨⟨files₁, _⟩, -, ho⟩ := Option.bind_eq_some_iff.1 ho
  cases hfd : freeFd p.fdt with
  | some i =>
    rw [hfd] at ho
    obtain ⟨rfl, -⟩ := Prod.mk.inj (Option.some.inj ho)
    exact h₁
  | none =>
    rw [hfd] at ho
    obtain ⟨⟨vm₂, files₂⟩, hclose, ho⟩ := Option.bind_eq_some_iff.1 ho
    obtain ⟨rfl, -⟩ := Prod.mk.inj (Option.some.inj ho)
    exact h₁.trans (closeFile h₁.withheld.inv hclose)

theorem sysClose (h : AllocInv vm.alloc) {fd ret : ℤ}
    (hc : sysClose vm files p fd = some (vm', files', fdt, ret)) : AllocOnly vm vm' := by
  rw [Process.sysClose] at hc
  split at hc
  · dsimp only at hc
    split_ifs at hc
    · obtain ⟨rfl, -⟩ := Prod.mk.inj (Option.some.inj hc)
      exact .refl h
    · obtain ⟨⟨vm₂, files₂⟩, hclose, hc⟩ := Option.bind_eq_some_iff.1 hc
      obtain ⟨rfl, -⟩ := Prod.mk.inj (Option.some.inj hc)
      exact closeFile h hclose
  · obtain ⟨rfl, -⟩ := Prod.mk.inj (Option.some.inj hc)
    exact .refl h

theorem reap (h : AllocInv vm.alloc) (kernelPgd : Addr) (p : Proc) :
    AllocOnly vm (reap vm kernelPgd p) := by
  unfold Process.reap
  dsimp only
  have h₁ : AllocOnly vm (if p.kernelStack ≠ 0 then vm.freePage p.kernelStack else vm) := by
    split_ifs
    · exact .freePage h _
    · exact .refl h
  generalize (if p.kernelStack ≠ 0 then vm.freePage p.kernelStack else vm) = vm₁ at h₁ ⊢
  have h₂ : AllocOnly vm
      (if p.pgd ≠ 0 ∧ p.pgd ≠ kernelPgd then Mmu.freePgd vm₁ p.pgd else vm₁) := by
    split_ifs
    · exact h₁.trans (.freePgd h₁.withheld.inv _)
    · exact h₁
  generalize (if p.pgd ≠ 0 ∧ p.pgd ≠ kernelPgd then Mmu.freePgd vm₁ p.pgd else vm₁) = vm₂ at h₂ ⊢
  have h₃ := h₂.trans (.freeVmas h₂.withheld.inv p.vmas)
  exact h₃.trans (.freePage h₃.withheld.inv _)

end AllocOnly

/-! ## Mapping -/

/-- The other address spaces are as before where their tables and the frames are. -/
theorem unseen_of_frames (h : Spaces vm ps loose other) (hm : pgd ∈ ps)
    (hspace : SameSpace 256 vm.mem vm'.mem pgd)
    (hframes : ∀ t, IsFrame vm ps loose t → vm'.mem t = vm.mem t) : Unseen vm.mem vm'.mem pgd :=
  ⟨hspace, fun _ _ hx => hframes _ (isFrame_mapped h hm hx)⟩

/-- A last table is written. -/
theorem effect_storeLeaf (rest : List Proc) (h : Spaces vm (p.pgd :: pgds rest) loose other)
    (hpt : ptAt 256 vm.mem p.pgd (i, j) = some pt)
    (hframe : ∀ f, (validEntry w).map frameAt = some f → IsFrame vm (p.pgd :: pgds rest) loose f) :
    Effect vm (vm.store pt k w) rest ∧ contents (vm.store pt k w).mem p.pgd =
      Function.update (contents vm.mem p.pgd) (i, j, k)
        (((validEntry w).map frameAt).map vm.mem) := by
  have htable : IsTable 256 vm.mem p.pgd pt := isTable_pt hpt
  have hkeep : ∀ t, IsFrame vm (p.pgd :: pgds rest) loose t →
      (vm.store pt k w).mem t = vm.mem t := by
    intro t ht
    apply store_mem_of_ne
    rintro rfl
    exact ht.2 p.pgd (List.mem_cons_self ..) htable
  refine ⟨⟨fun q hq => ?_, .store h.owns.inv (h.not_withheld (List.mem_cons_self ..) htable) k w⟩,
    ?_⟩
  · exact unseen_of_frames h (List.mem_cons_of_mem _ (mem_pgds hq))
      (h.sameSpace_store htable (mem_pgds hq)) hkeep
  · rw [contents_update
        (mapped_update ((h.tree (List.mem_cons_self ..)).apart.store_leaf hpt k w).2.2)
      fun y f hy => hkeep f (isFrame_mapped h (List.mem_cons_self ..) hy)]
    congr 1
    exact Option.map_congr fun f hf => hkeep f (hframe f hf)

/-- A page that nobody maps is mapped, unless a table is missing. -/
theorem effect_mapPage (rest : List Proc)
    (h : Spaces vm (p.pgd :: pgds rest) (loose + Pi.single q 1) other)
    (hva : UserVa va) (hq : PageAligned q) (hf : FlagBits prot) (hv : HasFlag prot pteV) :
    Effect vm (mapPage vm p.pgd va (q - pageOffset) prot) rest ∧
      ((pagewalk vm p.pgd va true).2 = none ∧
        contents (mapPage vm p.pgd va (q - pageOffset) prot).mem p.pgd = contents vm.mem p.pgd ∨
      contents (mapPage vm p.pgd va (q - pageOffset) prot).mem p.pgd =
        Function.update (contents vm.mem p.pgd) (leafIndex va) (some (vm.mem q))) := by
  have hp : p.pgd ∈ p.pgd :: pgds rest := List.mem_cons_self ..
  have hkept : WithheldKept vm (mapPage vm p.pgd va (q - pageOffset) prot) := mapPage_withheld h hva
  rcases mapPage_spec h hva hq hf hv with ⟨hwalk, -, hg⟩ | ⟨-, hr⟩
  · have hframes := fun t ht => (hg.frames t ht).2
    refine ⟨⟨fun q hq => ?_, hkept⟩, .inl ⟨hwalk, ?_⟩⟩
    · exact unseen_of_frames h (List.mem_cons_of_mem _ (mem_pgds hq))
        (hg.others q.pgd (mem_pgds hq)) hframes
    · funext x
      rw [contents, contents, hg.mapped]
      exact Option.map_congr fun f hf => hframes f (isFrame_mapped h hp hf)
  · have hframes := fun t ht => (hr.frames t ht).2
    refine ⟨⟨fun q hq => ?_, hkept⟩, .inr ?_⟩
    · exact unseen_of_frames h (List.mem_cons_of_mem _ (mem_pgds hq))
        (hr.others q.pgd (mem_pgds hq)) hframes
    · rw [contents_update (mapped_update hr.leaf) fun y f hy => hframes f (isFrame_mapped h hp hy),
        Option.map_some, Option.map_some, frameAt_entryOf hq hf, hframes q (isFrame_loose h)]

/-- A page is allocated and written. -/
theorem effect_allocFilled (rest : List Proc) (h : Spaces vm (pgds rest) loose other)
    (h0 : vm.allocPage.1 ≠ 0) (words : Page) :
    PageAligned vm.allocPage.1 ∧
      Spaces (vm.allocPage.2.setPage vm.allocPage.1 words) (pgds rest)
        (loose + Pi.single vm.allocPage.1 1) other ∧
      Effect vm (vm.allocPage.2.setPage vm.allocPage.1 words) rest := by
  rcases h.allocPage with ⟨h0', -⟩ | ⟨-, hal, hnew, hs⟩
  · exact absurd h0' h0
  · have hsame : ∀ pgd ∈ pgds rest, SameSpace 256 vm.mem
        (vm.allocPage.2.setPage vm.allocPage.1 words).mem pgd := fun pgd hm =>
      sameSpace_setPage (s := vm.allocPage.2) (hs.not_isTable_of_loose (by simp) hm)
    refine ⟨hal, hs.congr rfl hsame, fun q hq => ?_, ?_⟩
    · refine unseen_of_frames h (mem_pgds hq) (hsame q.pgd (mem_pgds hq)) fun t ht => ?_
      rw [setPage_mem, Function.update_of_ne]
      · rfl
      · rintro rfl
        exact ht.1 hnew
    · have h₁ : WithheldKept vm vm.allocPage.2 := .allocPage h.owns.inv
      exact h₁.trans (.setPage h₁.inv (h.not_withheld_allocPage h0) words)

/-- The owner of a frame that nobody else maps writes to it. -/
theorem effect_writeFrame (h : Spaces vm (p.pgd :: pgds rest) loose other)
    (hx : mapped vm.mem p.pgd x = some f) (hone : refsAll vm.mem (p.pgd :: pgds rest) f = 1)
    (words : Page) : Effect vm (vm.setPage f words) rest ∧
      contents (vm.setPage f words).mem p.pgd =
        Function.update (contents vm.mem p.pgd) x (some words) := by
  have hp : p.pgd ∈ p.pgd :: pgds rest := List.mem_cons_self ..
  have hnt : ∀ pgd ∈ p.pgd :: pgds rest, ¬ IsTable 256 vm.mem pgd f := fun pgd hm =>
    h.not_isTable_of_mapped hp hx hm
  have hpos := refsIn_pos_of_mapped hx
  have hzero : refsIn vm.mem p.pgd f = 1 ∧ refsAll vm.mem (pgds rest) f = 0 := by
    rw [refsAll_cons, Pi.add_apply] at hone
    omega
  refine ⟨⟨fun q hq => ⟨sameSpace_setPage (hnt q.pgd (List.mem_cons_of_mem _ (mem_pgds hq))),
    fun y t hy => ?_⟩,
    .setPage h.owns.inv (h.owns.not_withheld (isFrame_mapped h hp hx).1) words⟩, ?_⟩
  · rw [setPage_mem, Function.update_of_ne]
    rintro rfl
    have hq' := refsIn_pos_of_mapped hy
    have hle : refsIn vm.mem q.pgd t ≤ refsAll vm.mem (pgds rest) t :=
      refsIn_le_refsAll (mem_pgds hq)
    omega
  · funext y
    rw [contents, (sameSpace_setPage (hnt p.pgd hp)).mapped]
    rcases eq_or_ne y x with rfl | hne
    · rw [hx, Function.update_self, Option.map_some, setPage_mem, Function.update_self]
    · rw [Function.update_of_ne hne, contents]
      refine Option.map_congr fun t ht => ?_
      rw [setPage_mem, Function.update_of_ne]
      rintro rfl
      have hfiber := hzero.1
      rw [refsIn_of_not_isTable (hnt p.pgd hp)] at hfiber
      exact hne (eq_of_fiber_le_one hfiber.le ht hx)

/-! ## Page faults -/

namespace Inv

/-- Copy-on-write does not change what the process reads. -/
theorem effect_cow {e : Addr × Fin 512} (h : Inv g { s with procs := p :: rest } lost opened)
    (hva : UserVa va) (he : entryAt s.vm p.pgd va = some e)
    (hvalid : HasFlag (s.vm.mem e.1 e.2) pteV) :
    Effect s.vm (Process.cow s.vm e) rest ∧
      contents (Process.cow s.vm e).mem p.pgd = contents s.vm.mem p.pgd := by
  have hp : p ∈ p :: rest := List.mem_cons_self ..
  obtain ⟨hpt, hk, hleaf⟩ := leafAt_of_entryAt hva he hvalid
  obtain ⟨pt, k⟩ := e
  dsimp only at hpt hk hleaf hvalid
  subst hk
  have hmapped : mapped s.vm.mem p.pgd (leafIndex va) =
      some (frameAt (s.vm.mem pt (vpn va 12))) := by
    rw [mapped, hleaf]
    rfl
  have hsome : contents s.vm.mem p.pgd (leafIndex va) =
      some (s.vm.mem (frameAt (s.vm.mem pt (vpn va 12)))) := by
    rw [contents, hmapped]
    rfl
  have hspaces : Spaces s.vm (p.pgd :: pgds rest) (g.tables + lost) _ := h.owned.spaces
  rcases cow_cases s.vm (pt, vpn va 12) with heq | heq | ⟨-, h0, heq⟩
  · rw [heq]
    have hentry : (validEntry (s.vm.mem pt (vpn va 12) ||| pteW)).map frameAt =
        some (frameAt (s.vm.mem pt (vpn va 12))) := by
      rw [validEntry_eq_some.2 ⟨hasFlag_v_or_w.2 hvalid, rfl⟩, Option.map_some, frameAt_or_w]
    obtain ⟨heffect, hcontents⟩ := effect_storeLeaf (k := vpn va 12)
      (w := s.vm.mem pt (vpn va 12) ||| pteW) rest hspaces hpt fun f hf => by
        rw [hentry] at hf
        exact isFrame_mapped hspaces (List.mem_cons_self ..) (hmapped.trans hf)
    refine ⟨heffect, hcontents.trans ?_⟩
    rw [hentry, Option.map_some, ← hsome]
    exact Function.update_eq_self _ _
  · rw [heq]
    have hquiet : AllocOnly s.vm s.vm.allocPage.2 := .allocPage hspaces.owns.inv
    exact ⟨hquiet.effect rest, by rw [hquiet.mem]⟩
  · rw [heq]
    obtain ⟨hal, hspaces₁, heffect₁⟩ := effect_allocFilled (p :: rest) h.owned.spaces h0
      (s.vm.mem (frameAt (s.vm.mem pt (vpn va 12))))
    have hspaces₁ : Spaces _ (p.pgd :: pgds rest)
        (g.tables + lost + Pi.single s.vm.allocPage.1 1) _ :=
      hspaces₁
    dsimp only at heffect₁ hspaces₁ hal
    set new := s.vm.allocPage.1 with hnew
    set vm₁ := s.vm.allocPage.2.setPage new (s.vm.mem (frameAt (s.vm.mem pt (vpn va 12)))) with hvm₁
    have hread : vm₁.mem pt = s.vm.mem pt := by
      have hpos := refsAll_table_pos (s := { s with procs := p :: rest }) hp (isTable_pt hpt)
      exact (mem_allocFilled (s := { s with procs := p :: rest }) h hpos h0 _).2
    have hpt₁ : ptAt 256 vm₁.mem p.pgd (tableIndex va) = some pt := by
      rw [(heffect₁.others p hp).space.pt]
      exact hpt
    have hentry : (validEntry
        (entryOf new (s.vm.mem pt (vpn va 12) &&& 0x3ff ||| pteW))).map frameAt =
        some new := by
      rw [validEntry_eq_some.2 ⟨hasFlag_entryOf_v.2 (hasFlag_cow hvalid), rfl⟩, Option.map_some,
        frameAt_entryOf hal (flagBits_cow _)]
    dsimp only
    rw [hread]
    obtain ⟨heffect₂, hcontents₂⟩ := effect_storeLeaf (k := vpn va 12)
      (w := entryOf new (s.vm.mem pt (vpn va 12) &&& 0x3ff ||| pteW)) rest hspaces₁ hpt₁
      fun f hf => by
        rw [hentry] at hf
        rw [← Option.some.inj hf]
        exact isFrame_loose hspaces₁
    have hquiet : AllocOnly (vm₁.store pt (vpn va 12)
        (entryOf new (s.vm.mem pt (vpn va 12) &&& 0x3ff ||| pteW)))
        _ := .freePage heffect₂.withheld.inv (frameAt (s.vm.mem pt (vpn va 12)))
    have heffect₁' : Effect s.vm vm₁ rest :=
      ⟨fun q hq => heffect₁.others q (List.mem_cons_of_mem _ hq), heffect₁.withheld⟩
    refine ⟨(heffect₁'.trans heffect₂).trans (hquiet.effect rest), ?_⟩
    have hself : vm₁.mem new = s.vm.mem (frameAt (s.vm.mem pt (vpn va 12))) := by
      rw [hvm₁, setPage_mem, Function.update_self]
    rw [hquiet.mem, hcontents₂, hentry, (heffect₁.others p hp).contents, Option.map_some, hself,
      ← hsome]
    exact Function.update_eq_self _ _

end Inv

end BareMetalOS.Process
