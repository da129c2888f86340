import BareMetalOS.Process.Runs

/-!
# Pages that are mapped, and page faults

`do_trap` tells from the cause, the region and the entry whether a page is missing or is to be
copied on write, but not whether it is there and the access was refused for another reason: the
kernel that reads a user page without the SUM bit faults on a page that is mapped, and gets a new
page in its place. A page fault that is resolved keeps the mapped pages of all processes if and only
if the page table does not permit the access in user mode (`pageFault_keeps_iff`).
-/

namespace BareMetalOS.Process

open Memory (Addr blocks pageSize)
open Mmu Sched Trap Files

variable {g : Ground} {s s₀ : Sys} {vm' : Vm} {p : Proc} {rest : List Proc} {lost lost' : Addr → ℕ}
  {opened : List Addr} {x : Leaf} {f pgd pt va : Addr} {w : BitVec 64} {v : VmArea} {ps : List Addr}
  {m m' : Mem} {cause badaddr : BitVec 64}

/-! ## The mappings of a frame -/

/-- The number of entries in user halves that map a frame. -/
def mappings (m : Mem) (ps : List Addr) (f : Addr) : ℕ :=
  (ps.map fun pgd => fiber (mapped m pgd) f).sum

/-- A page that is no table is referred to by its mappings. -/
theorem refsAll_eq_mappings (h : ∀ pgd ∈ ps, ¬ IsTable 256 m pgd f) :
    refsAll m ps f = mappings m ps f := by
  rw [refsAll, mappings, List.map_congr_left fun pgd hm => refsIn_of_not_isTable (h pgd hm)]

theorem exists_mapped_of_mappings (h : 0 < mappings m ps f) :
    ∃ pgd ∈ ps, ∃ x, mapped m pgd x = some f := by
  by_contra hno
  push Not at hno
  have hzero : mappings m ps f = 0 := by
    rw [mappings, List.sum_eq_zero_iff]
    intro n hn
    obtain ⟨pgd, hm, rfl⟩ := List.mem_map.1 hn
    exact fiber_eq_zero.2 (hno pgd hm)
  omega

theorem mappings_cons (m : Mem) (pgd : Addr) (ps : List Addr) (f : Addr) :
    mappings m (pgd :: ps) f = fiber (mapped m pgd) f + mappings m ps f := by
  rw [mappings, List.map_cons, List.sum_cons]
  rfl

theorem mappings_congr (h : ∀ pgd ∈ ps, mapped m' pgd = mapped m pgd) :
    mappings m' ps f = mappings m ps f := by
  rw [mappings, mappings, List.map_congr_left fun pgd hm => by rw [h pgd hm]]

theorem mappings_perm {ps' : List Addr} (h : ps.Perm ps') : mappings m ps f = mappings m ps' f :=
  (h.map _).sum_eq

/-- The count of a frame is the number of its mappings. -/
theorem Inv.blocks_mapped (h : Inv g s lost opened) (hp : p ∈ s.procs)
    (hx : mapped s.vm.mem p.pgd x = some f) : 0 < mappings s.vm.mem (pgds s.procs) f ∧
      blocks s.vm.alloc f = some (pageSize, (mappings s.vm.mem (pgds s.procs) f : ℤ)) := by
  obtain ⟨w, hw, rfl⟩ := Option.map_eq_some_iff.1 hx
  rw [← refsAll_eq_mappings fun pgd hm => h.not_isTable_leaf hp hw hm]
  exact ⟨refsAll_pos hw (mem_pgds hp), h.blocks_frame hp hw⟩

/-! ## What a fault should keep -/

/-- The pages that were mapped are mapped at the same places with the same contents, and each frame
that was mapped still is, as often as the allocator counts: it is neither lost nor replaced. -/
structure PagesKept (s : Sys) (vm' : Vm) : Prop where
  contents : ∀ q ∈ s.procs, ∀ x f, mapped s.vm.mem q.pgd x = some f →
    ∃ f', mapped vm'.mem q.pgd x = some f' ∧ vm'.mem f' = s.vm.mem f
  frames : ∀ q ∈ s.procs, ∀ x f, mapped s.vm.mem q.pgd x = some f →
    0 < mappings vm'.mem (pgds s.procs) f ∧
      blocks vm'.alloc f = some (pageSize, (mappings vm'.mem (pgds s.procs) f : ℤ))

theorem PagesKept.perm {l : List Proc} (h : PagesKept s vm') (hp : s.procs.Perm l) :
    PagesKept { s with procs := l } vm' := by
  refine ⟨fun q hq => h.contents q (hp.mem_iff.2 hq), fun q hq x f hx => ?_⟩
  have hframe := h.frames q (hp.mem_iff.2 hq) x f hx
  rwa [mappings_perm (pgds_perm hp)] at hframe

/-- Where the invariant holds afterwards, it is enough that each frame is mapped by someone. -/
theorem Inv.pagesKept (h' : Inv g { s with vm := vm' } lost' opened)
    (hkept : ∀ q ∈ s.procs, ∀ x f, mapped s.vm.mem q.pgd x = some f →
      (∃ f', mapped vm'.mem q.pgd x = some f' ∧ vm'.mem f' = s.vm.mem f) ∧
        ∃ q' ∈ s.procs, ∃ x', mapped vm'.mem q'.pgd x' = some f) : PagesKept s vm' := by
  refine ⟨fun q hq x f hx => (hkept q hq x f hx).1, fun q hq x f hx => ?_⟩
  obtain ⟨q', hq', x', hx'⟩ := (hkept q hq x f hx).2
  exact h'.blocks_mapped hq' hx'

/-- The mappings stay, and so do the contents of the frames. -/
theorem Inv.pagesKept_of_mapped (h' : Inv g { s with vm := vm' } lost' opened)
    (hmapped : ∀ q ∈ s.procs, ∀ x f, mapped s.vm.mem q.pgd x = some f →
      mapped vm'.mem q.pgd x = some f)
    (hmem : ∀ q ∈ s.procs, ∀ x f, mapped s.vm.mem q.pgd x = some f → vm'.mem f = s.vm.mem f) :
    PagesKept s vm' :=
  h'.pagesKept fun q hq x f hx =>
    ⟨⟨f, hmapped q hq x f hx, hmem q hq x f hx⟩, q, hq, x, hmapped q hq x f hx⟩

namespace Inv

/-- A page that is referred to does not change where a page is allocated and written. -/
theorem mem_allocFilled (h : Inv g s lost opened) (hf : 0 < refsAll s.vm.mem (pgds s.procs) f)
    (h0 : s.vm.allocPage.1 ≠ 0) (words : Fin 512 → BitVec 64) :
    f ≠ s.vm.allocPage.1 ∧
      (s.vm.allocPage.2.setPage s.vm.allocPage.1 words).mem f = s.vm.mem f := by
  have hne : f ≠ s.vm.allocPage.1 := by
    rintro rfl
    rcases h.owned.spaces.allocPage with ⟨h0', -⟩ | ⟨-, -, hnew, -⟩
    · exact h0 h0'
    · rw [Pi.add_apply] at hnew
      omega
  refine ⟨hne, ?_⟩
  rw [setPage_mem, Function.update_of_ne hne]
  rfl

theorem refsAll_mapped_pos (hp : p ∈ s.procs) (hx : mapped s.vm.mem p.pgd x = some f) :
    0 < refsAll s.vm.mem (pgds s.procs) f :=
  lt_of_lt_of_le (refsIn_pos_of_mapped hx) (refsIn_le_refsAll (mem_pgds hp))

theorem refsAll_table_pos (hp : p ∈ s.procs) (ht : IsTable 256 s.vm.mem p.pgd f) :
    0 < refsAll s.vm.mem (pgds s.procs) f :=
  lt_of_lt_of_le (refsIn_pos_of_isTable ht) (refsIn_le_refsAll (mem_pgds hp))

end Inv

/-! ## Copy-on-write -/

/-- Copy-on-write sets the W bit, finds no memory, or maps a copy of the page. -/
theorem cow_cases (vm : Vm) (e : Addr × Fin 512) :
    Process.cow vm e = vm.store e.1 e.2 (vm.mem e.1 e.2 ||| pteW) ∨
    Process.cow vm e = vm.allocPage.2 ∨
    Memory.getPageRef vm.alloc (frameAt (vm.mem e.1 e.2)) > 1 ∧ vm.allocPage.1 ≠ 0 ∧
      Process.cow vm e = ((vm.allocPage.2.setPage vm.allocPage.1
        (vm.mem (frameAt (vm.mem e.1 e.2)))).store
        e.1 e.2 (entryOf vm.allocPage.1 ((vm.allocPage.2.setPage vm.allocPage.1
          (vm.mem (frameAt (vm.mem e.1 e.2)))).mem e.1 e.2 &&& 0x3ff ||| pteW))).freePage
            (frameAt (vm.mem e.1 e.2)) := by
  unfold Process.cow
  dsimp only
  split
  · rename_i hcount
    by_cases h0 : vm.allocPage.1 = 0
    · rw [if_pos h0]
      exact .inr (.inl rfl)
    · rw [if_neg h0]
      exact .inr (.inr ⟨hcount, h0, rfl⟩)
  · exact .inl rfl

/-- The flags that copy-on-write writes are flags, and V is one of them. -/
theorem flagBits_cow (w : BitVec 64) : FlagBits (w &&& 0x3ff ||| pteW) := by
  rw [FlagBits, BitVec.ushiftRight_or_distrib, BitVec.ushiftRight_and_distrib,
    show (0x3ff : BitVec 64) >>> 10 = 0#64 from rfl, show pteW >>> 10 = 0#64 from rfl,
    BitVec.and_zero, BitVec.or_zero]
  rfl

theorem hasFlag_cow (hv : HasFlag w pteV) : HasFlag (w &&& 0x3ff ||| pteW) pteV :=
  hasFlag_v_or_w.2 ((hasFlag_and (by decide)).2 hv)

namespace Inv

/-- An entry of a process is written. -/
theorem leaf_store {k : Fin 512} (h : Inv g { s with procs := p :: rest } lost opened)
    (hpt : ptAt 256 s.vm.mem p.pgd (tableIndex va) = some pt) (hk : k = vpn va 12)
    (hw : HasFlag w pteV)
    {vm : Vm} (hsame : SameSpace 256 s.vm.mem vm.mem p.pgd) :
    leafAt 256 (vm.store pt k w).mem p.pgd =
      Function.update (leafAt 256 s.vm.mem p.pgd) (leafIndex va) (some w) := by
  have hspaces : Spaces s.vm (p.pgd :: pgds rest) _ _ := h.owned.spaces
  have hapart : Apart 256 vm.mem p.pgd :=
    (hspaces.tree (List.mem_cons_self ..)).apart.congr hsame.pmd hsame.pt
  subst hk
  rw [← hsame.pt] at hpt
  have hleaf := (hapart.store_leaf hpt (vpn va 12) w).2.2
  rw [validEntry_eq_some.2 ⟨hw, rfl⟩, hsame.leaf] at hleaf
  exact hleaf

/-- An entry of a process is written, and other processes do not notice. -/
theorem mapped_store {k : Fin 512} (h : Inv g { s with procs := p :: rest } lost opened)
    (hpt : ptAt 256 s.vm.mem p.pgd (tableIndex va) = some pt) (hk : k = vpn va 12)
    (hw : HasFlag w pteV)
    {vm : Vm} (hsame : ∀ q ∈ p :: rest, SameSpace 256 s.vm.mem vm.mem q.pgd) :
    mapped (vm.store pt k w).mem p.pgd =
        Function.update (mapped s.vm.mem p.pgd) (leafIndex va) (some (frameAt w)) ∧
      ∀ q ∈ rest, mapped (vm.store pt k w).mem q.pgd = mapped s.vm.mem q.pgd := by
  have hp : p ∈ p :: rest := List.mem_cons_self ..
  have htable : IsTable 256 s.vm.mem p.pgd pt := isTable_pt hpt
  have hspaces : Spaces s.vm (p.pgd :: pgds rest) _ _ := h.owned.spaces
  constructor
  · exact mapped_update (h.leaf_store hpt hk hw (hsame p hp))
  · intro q hq
    have hnt : ¬ IsTable 256 vm.mem q.pgd pt := by
      rw [(hsame q (List.mem_cons_of_mem _ hq)).isTable]
      exact hspaces.not_isTable_of_mem htable (mem_pgds hq)
    rw [(sameSpace_store hnt).mapped, (hsame q (List.mem_cons_of_mem _ hq)).mapped]

/-- Copy-on-write keeps the pages. -/
theorem cow_keeps {e : Addr × Fin 512} (h : Inv g { s with procs := p :: rest } lost opened)
    (h' : Inv g { s with vm := Process.cow s.vm e, procs := p :: rest } lost' opened)
    (hva : UserVa va) (he : entryAt s.vm p.pgd va = some e)
    (hvalid : HasFlag (s.vm.mem e.1 e.2) pteV) :
    PagesKept { s with procs := p :: rest } (Process.cow s.vm e) := by
  have hp : p ∈ p :: rest := List.mem_cons_self ..
  obtain ⟨hpt, hk, hleaf⟩ := leafAt_of_entryAt hva he hvalid
  obtain ⟨pt, k⟩ := e
  dsimp only at hpt hk hleaf hvalid
  have hmapped : mapped s.vm.mem p.pgd (leafIndex va) = some (frameAt (s.vm.mem pt k)) := by
    rw [mapped, hleaf]
    rfl
  -- a frame is no table
  have hne : ∀ q ∈ p :: rest, ∀ x f, mapped s.vm.mem q.pgd x = some f → f ≠ pt := by
    rintro q hq x f hx rfl
    obtain ⟨w, hw, hwf⟩ := Option.map_eq_some_iff.1 hx
    exact h.not_isTable_leaf hq hw (mem_pgds hp) (hwf ▸ isTable_pt hpt)
  rcases cow_cases s.vm (pt, k) with heq | heq | ⟨hcount, h0, heq⟩
  · rw [heq] at h' ⊢
    obtain ⟨hp', hrest'⟩ := h.mapped_store hpt hk (hasFlag_v_or_w.2 hvalid) fun q _ => .refl _ _
    rw [frameAt_or_w, ← hmapped, Function.update_eq_self] at hp'
    refine h'.pagesKept_of_mapped (fun q hq x f hx => ?_) fun q hq x f hx =>
      store_mem_of_ne (hne q hq x f hx)
    rcases List.mem_cons.1 hq with rfl | hq'
    · rw [hp']
      exact hx
    · rw [hrest' q hq']
      exact hx
  · rw [heq] at h' ⊢
    exact h'.pagesKept_of_mapped (fun q hq x f hx => hx) fun q hq x f hx => rfl
  · set old := frameAt (s.vm.mem pt k) with hold
    set new := s.vm.allocPage.1 with hnew
    set vm := s.vm.allocPage.2.setPage new (s.vm.mem old) with hvm
    obtain ⟨hal, -, -, hsame⟩ := h.allocFilled (s.vm.mem old) h0
    have hkeep : ∀ f, 0 < refsAll s.vm.mem (pgds (p :: rest)) f → f ≠ new ∧ vm.mem f = s.vm.mem f :=
      fun f hf => mem_allocFilled (s := { s with procs := p :: rest }) h hf h0 _
    have htable := hkeep pt (refsAll_table_pos (s := { s with procs := p :: rest }) hp
      (isTable_pt hpt))
    have hframe : ∀ q ∈ p :: rest, ∀ x f, mapped s.vm.mem q.pgd x = some f →
        f ≠ new ∧ vm.mem f = s.vm.mem f := fun q hq x f hx =>
      hkeep f (refsAll_mapped_pos (s := { s with procs := p :: rest }) hq hx)
    rw [heq] at h' ⊢
    dsimp only at h' ⊢
    rw [htable.2] at h' ⊢
    obtain ⟨hp', hrest'⟩ := h.mapped_store hpt hk (hasFlag_entryOf_v.2 (hasFlag_cow hvalid)) hsame
    rw [frameAt_entryOf hal (flagBits_cow _)] at hp'
    set vm₃ :=
      (vm.store pt k (entryOf new (s.vm.mem pt k &&& 0x3ff ||| pteW))).freePage old with hvm₃
    have hmem₃ : ∀ f, f ≠ pt → vm₃.mem f = vm.mem f := fun f hf => store_mem_of_ne hf
    have hp₃ : mapped vm₃.mem p.pgd =
        Function.update (mapped s.vm.mem p.pgd) (leafIndex va) (some new) := hp'
    have hrest₃ : ∀ q ∈ rest, mapped vm₃.mem q.pgd = mapped s.vm.mem q.pgd := hrest'
    -- the other mappings of the old frame
    have hstill : 0 < mappings vm₃.mem (p.pgd :: pgds rest) old := by
      have hbefore : 1 < mappings s.vm.mem (p.pgd :: pgds rest) old := by
        have hget := h.getPageRef hp hleaf
        rw [refsAll_eq_mappings fun pgd hm => h.not_isTable_leaf hp hleaf hm] at hget
        have hget' : Memory.getPageRef s.vm.alloc old =
          mappings s.vm.mem (p.pgd :: pgds rest) old := hget
        omega
      have hothers : mappings vm₃.mem (pgds rest) old = mappings s.vm.mem (pgds rest) old := by
        apply mappings_congr
        intro pgd hm
        obtain ⟨q, hq, rfl⟩ := List.mem_map.1 hm
        exact hrest₃ q hq
      have hfiber := fiber_update_bag (mapped s.vm.mem p.pgd) (leafIndex va) (some new) old
      have hone : bag (mapped s.vm.mem p.pgd (leafIndex va)) old = 1 := if_pos hmapped
      rw [mappings_cons] at hbefore ⊢
      rw [hp₃, hothers]
      omega
    refine h'.pagesKept fun q hq x f hx => ⟨?_, ?_⟩
    · have hmem : vm₃.mem f = s.vm.mem f := (hmem₃ f (hne q hq x f hx)).trans (hframe q hq x f hx).2
      rcases List.mem_cons.1 hq with rfl | hq'
      · rcases eq_or_ne x (leafIndex va) with rfl | hx'
        · obtain rfl := Option.some.inj (hmapped.symm.trans hx)
          refine ⟨new, by rw [hp₃, Function.update_self], ?_⟩
          rw [hmem₃ new htable.1.symm, hvm, setPage_mem, Function.update_self]
        · exact ⟨f, by rw [hp₃, Function.update_of_ne hx']; exact hx, hmem⟩
      · exact ⟨f, by rw [hrest₃ q hq']; exact hx, hmem⟩
    · rcases eq_or_ne f old with rfl | hold'
      · obtain ⟨pgd, hm, hx'⟩ := exists_mapped_of_mappings hstill
        rw [← pgds_cons] at hm
        obtain ⟨q', hq', rfl⟩ := List.mem_map.1 hm
        exact ⟨q', hq', hx'⟩
      · refine ⟨q, hq, x, ?_⟩
        rcases List.mem_cons.1 hq with rfl | hq'
        · rw [hp₃, Function.update_of_ne]
          · exact hx
          · rintro rfl
            exact hold' (Option.some.inj (hx.symm.trans hmapped))
        · rw [hrest₃ q hq']
          exact hx

end Inv

/-! ## New pages -/

/-- Where the tables are there, `pagewalk` makes none. -/
theorem pagewalk_true {vm : Vm} (hva : UserVa va)
    (hpt : ptAt 256 vm.mem pgd (tableIndex va) = some pt) :
    pagewalk vm pgd va true = (vm, some (pt, vpn va 12)) := by
  obtain ⟨pmd, hpmd, hpt⟩ := ptAt_eq_some.1 hpt
  have hpmd' : next vm.mem pgd (vpn va 30) = some pmd := (if_pos hva).symm.trans hpmd
  have hnext : ∀ table i q, next vm.mem table i = some q →
      nextTable vm table i true = (vm, some q) := by
    intro table i q hq
    obtain ⟨hv, hframe⟩ := next_eq_some.1 hq
    rw [nextTable, if_pos hv, hframe]
  rw [pagewalk, hnext _ _ _ hpmd']
  dsimp only
  rw [hnext _ _ _ hpt]

namespace Inv

/-- What the mapping of a new page leaves alone, and what it does to the leaf of its address. -/
theorem mapNew_spec (h : Inv g { s with procs := p :: rest } lost opened)
    (words : Fin 512 → BitVec 64) (hlt : badaddr.toNat < 2 ^ 38) (h0 : s.vm.allocPage.1 ≠ 0)
    (hmap : mapPagesAt (s.vm.allocPage.2.setPage s.vm.allocPage.1 words) p.pgd (badaddr &&& ~~~4095)
      (s.vm.allocPage.1 - pageOffset) 4096 (pteProt v.prot) = some vm') :
    (∀ q ∈ p :: rest, ∀ x f, mapped s.vm.mem q.pgd x = some f → vm'.mem f = s.vm.mem f) ∧
    (∀ q ∈ rest, mapped vm'.mem q.pgd = mapped s.vm.mem q.pgd) ∧
    (mapped s.vm.mem p.pgd (leafIndex badaddr) = none ∧
      mapped vm'.mem p.pgd = mapped s.vm.mem p.pgd ∨
      mapped vm'.mem p.pgd = Function.update (mapped s.vm.mem p.pgd) (leafIndex badaddr)
          (some s.vm.allocPage.1) ∧
        Spaces vm' (p.pgd :: pgds rest)
          (g.tables + lost + bag (mapped s.vm.mem p.pgd (leafIndex badaddr)))
          (withBlocks g.base (allBlocks (p :: rest) opened s.held))) := by
  have hp : p ∈ p :: rest := List.mem_cons_self ..
  obtain ⟨hal, -, h₁, hsame⟩ := h.allocFilled words h0
  have hpage := toNat_page badaddr
  have huser : UserVa (badaddr &&& ~~~4095) := userVa_of_lt (by omega)
  rw [mapPagesAt_page _ _ _ _ (by omega)] at hmap
  cases hmap
  have hkeep : ∀ f, 0 < refsAll s.vm.mem (pgds (p :: rest)) f → _ ∧ _ :=
    fun f hf => mem_allocFilled (s := { s with procs := p :: rest }) h hf h0 words
  generalize s.vm.allocPage.2.setPage s.vm.allocPage.1 words = vm₁ at *
  generalize s.vm.allocPage.1 = new at *
  have hspaces : Spaces vm₁ (p.pgd :: pgds rest) (g.tables + lost + Pi.single new 1)
      (withBlocks g.base (allBlocks (p :: rest) opened s.held)) := by
    rw [add_assoc]
    exact h₁.owned.spaces
  have hmapped : ∀ q ∈ p :: rest, mapped vm₁.mem q.pgd = mapped s.vm.mem q.pgd := fun q hq =>
    (hsame q hq).mapped
  have hsame' : ∀ pgd ∈ p.pgd :: pgds rest, SameSpace 256 s.vm.mem vm₁.mem pgd := by
    intro pgd hm
    rw [← pgds_cons] at hm
    obtain ⟨q, hq, rfl⟩ := List.mem_map.1 hm
    exact hsame q hq
  -- a frame is a frame after the allocation too
  have hframe : ∀ q ∈ p :: rest, ∀ x f, mapped s.vm.mem q.pgd x = some f →
      IsFrame vm₁ (p.pgd :: pgds rest) (g.tables + lost + Pi.single new 1) f := by
    intro q hq x f hx
    have hpos := refsAll_mapped_pos (s := { s with procs := p :: rest }) hq hx
    obtain ⟨w, hw, rfl⟩ := Option.map_eq_some_iff.1 hx
    refine ⟨?_, fun pgd hm => ?_⟩
    · rw [refsAll_congr hsame', Pi.add_apply]
      have hpos' : 0 < refsAll s.vm.mem (p.pgd :: pgds rest) (frameAt w) := hpos
      omega
    · rw [(hsame' pgd hm).isTable]
      exact h.not_isTable_leaf hq hw hm
  rcases mapPage_spec hspaces huser hal (flagBits_pteProt v.prot) (hasFlag_pteProt v.prot) with
    ⟨hwalk, -, hg⟩ | ⟨hs, hr⟩
  · refine ⟨fun q hq x f hx => ((hg.frames f (hframe q hq x f hx)).2).trans
      (hkeep f (refsAll_mapped_pos (s := { s with procs := p :: rest }) hq hx)).2, fun q hq => ?_,
      .inl ⟨?_, hg.mapped.trans (hmapped p hp)⟩⟩
    · rw [(hg.others q.pgd (mem_pgds hq)).mapped, hmapped q (List.mem_cons_of_mem _ hq)]
    · by_contra hsome
      obtain ⟨f, hf⟩ := Option.ne_none_iff_exists'.1 hsome
      obtain ⟨w, hw, -⟩ := Option.map_eq_some_iff.1 hf
      obtain ⟨pt, hpt, -⟩ := leafAt_eq_some.1 hw
      have hpt₁ : ptAt 256 vm₁.mem p.pgd (tableIndex (badaddr &&& ~~~4095)) = some pt := by
        have hindex := leafIndex_page badaddr
        simp only [leafIndex, Prod.mk.injEq] at hindex
        rw [(hsame p hp).pt, tableIndex, hindex.1, hindex.2.1]
        exact hpt
      rw [pagewalk_true huser hpt₁] at hwalk
      cases hwalk
  · refine ⟨fun q hq x f hx => ((hr.frames f (hframe q hq x f hx)).2).trans
      (hkeep f (refsAll_mapped_pos (s := { s with procs := p :: rest }) hq hx)).2, fun q hq => ?_,
      .inr ⟨?_, ?_⟩⟩
    · rw [(hr.others q.pgd (mem_pgds hq)).mapped, hmapped q (List.mem_cons_of_mem _ hq)]
    · rw [mapped_update hr.leaf, hmapped p hp, leafIndex_page badaddr, Option.map_some,
        frameAt_entryOf hal (flagBits_pteProt v.prot)]
    · rw [hmapped p hp, leafIndex_page badaddr] at hs
      exact hs

/-- A page fault that is resolved keeps the mapped pages if and only if the access was not
permitted. -/
theorem pageFault_keeps (h : Inv g { s with procs := p :: rest } lost opened)
    (hc : IsPageFault cause) (hf : Process.pageFault s.vm p cause badaddr = some (vm', true)) :
    PagesKept { s with procs := p :: rest } vm' ↔ ¬ Permitted s.vm.mem p.pgd cause badaddr := by
  have hp : p ∈ p :: rest := List.mem_cons_self ..
  have hreg := h.regions p hp
  rcases pageFault_cases hf with ⟨hfalse, -⟩ | ⟨v, e, hfind, hcow, he, rfl, -⟩ |
    ⟨v, hfind, hcow, hok, h0, -, hmap⟩
  · cases hfalse
  · obtain ⟨hv, hstart, hstop⟩ := findVma_eq hfind
    obtain ⟨hlt, hcov⟩ := covers_leafIndex hreg hv hstart hstop
    obtain ⟨hcause, hwrite, e', he', hvalid, hw⟩ := isCow_eq hcow
    obtain rfl := Option.some.inj (he.symm.trans he')
    have huser : UserVa badaddr := userVa_of_lt hlt
    refine iff_of_true (h.cow_keeps (h.cow huser he hvalid hw hv hcov hwrite) huser he hvalid) ?_
    rintro ⟨w, hleaf, -, hflag⟩
    rw [(leafAt_of_entryAt huser he hvalid).2.2] at hleaf
    obtain rfl := Option.some.inj hleaf
    rw [hcause] at hflag
    exact hw hflag
  · obtain ⟨hv, hstart, hstop⟩ := findVma_eq hfind
    obtain ⟨hlt, hcov⟩ := covers_leafIndex hreg hv hstart hstop
    obtain ⟨hmem, hothers, hleaf⟩ := h.mapNew_spec _ hlt h0 hmap
    constructor
    · rintro hkept ⟨w, hw, -⟩
      have hx : mapped s.vm.mem p.pgd (leafIndex badaddr) = some (frameAt w) := by
        rw [mapped, hw]
        rfl
      rcases hleaf with ⟨hnone, -⟩ | ⟨-, hs⟩
      · rw [hnone] at hx
        cases hx
      · -- the old frame is referred to by nobody
        obtain ⟨hpos, hcount⟩ := hkept.frames p hp _ _ hx
        rw [hx, bag_some] at hs
        have hloose : (g.tables + lost + Pi.single (frameAt w) 1 : Addr → ℕ) (frameAt w) ≠ 0 := by
          simp
        have hrefs : refsAll vm'.mem (p.pgd :: pgds rest) (frameAt w) =
            mappings vm'.mem (p.pgd :: pgds rest) (frameAt w) :=
          refsAll_eq_mappings fun pgd hm => hs.not_isTable_of_loose hloose hm
        rw [hs.owns.blocks, if_neg (by simp), Pi.add_apply, hrefs, Option.some_inj,
          Prod.mk.injEq] at hcount
        have hone := hcount.2
        rw [Pi.add_apply, Pi.single_eq_same] at hone
        have hpgds : pgds (p :: rest) = p.pgd :: pgds rest := rfl
        rw [hpgds] at hone
        omega
    · intro hn
      obtain ⟨lost', h'⟩ := h.pageFault hc hn hf
      have hnone : mapped s.vm.mem p.pgd (leafIndex badaddr) = none := by
        rw [mapped, h.leaf_none hc hn hv hlt hcov hcow hok]
        rfl
      refine pagesKept_of_mapped (s := { s with procs := p :: rest }) h'
        (fun q hq x f hx => ?_) hmem
      rcases List.mem_cons.1 hq with rfl | hq'
      · rcases hleaf with ⟨-, hsame⟩ | ⟨hupdate, -⟩
        · rw [hsame]
          exact hx
        · rw [hupdate, Function.update_of_ne]
          · exact hx
          · rintro rfl
            rw [hnone] at hx
            cases hx
      · rw [hothers q hq']
        exact hx

end Inv

/-! ## Runs -/

/-- **Pages in page faults.** In a state of a run, a page fault that is resolved keeps the mapped
pages of all processes if and only if the page table does not permit the access. -/
theorem pageFault_keeps_iff (h₀ : Booted s₀) (h : Reaches s₀ s) (hp : p ∈ s.procs)
    (hc : IsPageFault cause) (hf : pageFault s.vm p cause badaddr = some (vm', true)) :
    PagesKept s vm' ↔ ¬ Permitted s.vm.mem p.pgd cause badaddr := by
  obtain ⟨lost, opened, hinv⟩ := h.inv h₀.inv
  obtain ⟨rest, hperm, hinv'⟩ := hinv.mem hp
  rw [← hinv'.pageFault_keeps hc hf]
  exact ⟨fun hk => hk.perm hperm, fun hk => hk.perm hperm.symm⟩

/-- An address of the stack of a program. -/
def stackWord : Addr := stackTop - 8

/-- The page of the stack is mapped, a word is stored in it, and the program makes a system call. -/
def stackStored : List Op :=
  [.launch 0 0x1000, .fault firstThread 15 stackWord, .store firstThread stackWord (Fin.last 511) 7,
    .trap firstThread (trapRegs firstThread)]

/-- The kernel reads the page without the SUM bit, as `sys_exec` does when it prints the path that
it has not found: the page is not kept. -/
theorem pageFault_keeps_iff_load : ∃ s p vm', sixteenPages.soundRun stackStored = some s ∧
    s.proc firstThread = some p ∧ pageFault s.vm p 13 stackWord = some (vm', true) ∧
    ¬ PagesKept s vm' := by
  have hrun : ((sixteenPages.soundRun stackStored).bind fun s => (s.proc firstThread).bind fun p =>
      (pageFault s.vm p 13 stackWord).map fun r =>
        (r.2, decide (Permitted s.vm.mem p.pgd 13 stackWord))) = some (true, true) := by
    decide +kernel
  obtain ⟨s, hs, hrun⟩ := Option.bind_eq_some_iff.1 hrun
  obtain ⟨p, hp, hrun⟩ := Option.bind_eq_some_iff.1 hrun
  obtain ⟨⟨vm', handled⟩, hf, heq⟩ := Option.map_eq_some_iff.1 hrun
  simp only [Prod.mk.injEq, decide_eq_true_eq] at heq
  obtain ⟨rfl, hperm⟩ := heq
  have hiff := pageFault_keeps_iff booted_sixteenPages (reaches_soundRun hs)
    (List.mem_of_find?_eq_some hp) (.inr (.inl rfl)) hf
  exact ⟨s, p, vm', hs, hp, hf, fun hkept => hiff.1 hkept hperm⟩

end BareMetalOS.Process
