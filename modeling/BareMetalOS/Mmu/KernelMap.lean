import BareMetalOS.Mmu.MapPages
import BareMetalOS.Memory.Region

/-!
# The page table of the kernel

`mmu_init` builds the page table that the kernel uses from then on: the memory pool first, with the
right to write, then the text and the read-only data of the kernel over it, and the devices. A later
call of `map_pages_at` replaces what an earlier one has mapped, so the entry of an address is that
of the last call whose range holds it (`mapCalls_leaf`). `map_pages_at` goes on if it finds no
memory for a table, so that a page can also be missing.

The main result is `kernelMap`: every page that is mapped is where its address says, only the text
can be executed and only what is behind the read-only data can be written, and user mode has no
access.
-/

namespace BareMetalOS.Mmu

open Memory (Addr Board AllocReachable)

variable {s s' : Vm} {pgd va pa size stop a b : Addr} {prot w : BitVec 64} {x : Leaf}

/-! ## `mmu_init` -/

/-- `PTE_G` -/
def pteG : BitVec 64 := 32

/-- `PROT_MMIO` -/
def protMmio : BitVec 64 := pteV ||| pteR ||| pteW ||| pteG ||| pteA ||| pteD

/-- The arguments of a call of `map_pages_at`. -/
structure MapCall where
  va : Addr
  pa : Addr
  size : Addr
  prot : BitVec 64

/-- The call. -/
def MapCall.run (pgd : Addr) (s : Vm) (c : MapCall) : Option Vm :=
  mapPagesAt s pgd c.va c.pa c.size c.prot

/-- What `mmu_init` reads: the memory pool, the symbols of the linker script, and the addresses of
the devices. -/
structure Layout where
  /-- `G_MEMPOOL_START` -/
  poolStart : Addr
  /-- `G_MEMPOOL_SIZE` -/
  poolSize : Addr
  /-- `_start` -/
  start : Addr
  /-- `_text_end` -/
  textEnd : Addr
  /-- `_rodata_end` -/
  rodataEnd : Addr
  /-- `uart_base_addr` -/
  uartBase : Addr
  /-- `plic_base` -/
  plicBase : Addr

namespace Layout

/-- The memory pool. -/
def pool (l : Layout) : MapCall :=
  ⟨l.poolStart, l.poolStart - pageOffset, l.poolSize,
    pteV ||| pteR ||| pteW ||| pteA ||| pteD ||| pteG⟩

/-- The text of the kernel. -/
def text (l : Layout) : MapCall :=
  ⟨l.start, l.start - pageOffset, l.textEnd - l.start, pteV ||| pteR ||| pteX ||| pteA ||| pteG⟩

/-- The read-only data of the kernel. -/
def rodata (l : Layout) : MapCall :=
  ⟨l.textEnd, l.start - pageOffset + (l.textEnd - l.start), l.rodataEnd - l.textEnd,
    pteV ||| pteR ||| pteA ||| pteG⟩

/-- The devices: the serial port, the interrupt controller, and the framebuffer of the board with
its `fw_cfg` interface. -/
def devices (board : Board) (l : Layout) : List MapCall :=
  (if l.uartBase ≠ 0 then [⟨l.uartBase, l.uartBase - pageOffset, 4096, protMmio⟩] else []) ++
  (if l.plicBase ≠ 0 then [⟨l.plicBase, l.plicBase - pageOffset, 0x400000, protMmio⟩] else []) ++
  match board with
  | .qemu =>
    [⟨0x10100000 + pageOffset, 0x10100000, 4096, protMmio⟩,
      ⟨0x87000000 + pageOffset, 0x87000000, 0x800000, protMmio⟩]
  | .orangePi => [⟨0x7f700000 + pageOffset, 0x7f700000, 0x1000000, protMmio⟩]

/-- The calls of `mmu_init`, in order. -/
def calls (board : Board) (l : Layout) : List MapCall :=
  l.pool :: l.text :: l.rodata :: l.devices board

end Layout

/-- Perform the calls in turn. -/
def mapCalls (pgd : Addr) : List MapCall → Vm → Option Vm
  | [], s => some s
  | c :: cs, s => do
    let s' ← c.run pgd s
    mapCalls pgd cs s'

/-- `mmu_init`, without the switch to the new page table: the state and `kernel_pgd`. There is no
page table if `allocate` fails, as the first `memset` would write to `NULL`. -/
def mmuInit (board : Board) (l : Layout) (s : Vm) : Option (Vm × Addr) :=
  let r := s.allocPage
  if r.1 = 0 then none
  else do
    let s' ← mapCalls r.1 (l.calls board) (r.2.setPage r.1 fun _ => 0)
    return (s', r.1)

/-! ## One call -/

/-- The address `b` is one of those that the loop of the call visits. -/
def MapCall.Visits (c : MapCall) (b : Addr) : Prop :=
  c.va ≤ b ∧ b < c.va + c.size ∧ b.toNat % 4096 = c.va.toNat % 4096

/-- The entry that the call makes for `b`. -/
def MapCall.entry (c : MapCall) (b : Addr) : BitVec 64 :=
  (c.pa + (b - c.va)) >>> 12 <<< 10 ||| c.prot

/-- A walk along an entry that is there needs no memory. -/
theorem nextTable_of_some {table p : Addr} {i : Fin 512} {alloc : Bool}
    (h : next s.mem table i = some p) : nextTable s table i alloc = (s, some p) := by
  obtain ⟨hv, rfl⟩ := next_eq_some.1 h
  rw [nextTable, if_pos hv]

theorem pagewalk_of_leaf (h : leafAt 512 s.mem pgd (leafIndex va) = some w) :
    (pagewalk s pgd va true).2 ≠ none := by
  obtain ⟨pt, hpt, -, -⟩ := leafAt_eq_some.1 h
  obtain ⟨pmd, hpmd, hnext⟩ := ptAt_eq_some.1 hpt
  rw [pmdAt, if_pos (vpn va 30).isLt] at hpmd
  rw [pagewalk, nextTable_of_some hpmd]
  simp only [nextTable_of_some hnext]
  simp

/-- One round: the leaf of its address is the new entry or missing, and the others stay. -/
theorem Radix.mapPage_leaf (h : Radix s pgd) (va pa : Addr) (hv : HasFlag prot pteV)
    (hw : leafAt 512 (Mmu.mapPage s pgd va pa prot).mem pgd x = some w) :
    x = leafIndex va ∧ w = pa >>> 12 <<< 10 ||| prot ∨
      x ≠ leafIndex va ∧ leafAt 512 s.mem pgd x = some w := by
  by_cases hwalk : (Mmu.pagewalk s pgd va true).2 = none
  · have hleaf : leafAt 512 (Mmu.mapPage s pgd va pa prot).mem pgd = leafAt 512 s.mem pgd := by
      have hwid := (h.pagewalk va).1.leaf
      unfold Mmu.mapPage
      rcases hp : Mmu.pagewalk s pgd va true with ⟨s₁, _ | ⟨pt, k⟩⟩
      · rw [hp] at hwid
        exact hwid
      · rw [hp] at hwalk
        cases hwalk
    rw [hleaf] at hw
    refine .inr ⟨?_, hw⟩
    rintro rfl
    exact pagewalk_of_leaf hw hwalk
  · rw [(h.mapPage va pa prot).2 hwalk] at hw
    rcases eq_or_ne x (leafIndex va) with rfl | hne
    · rw [Function.update_self, validEntry_or hv] at hw
      exact .inl ⟨rfl, (Option.some.inj hw).symm⟩
    · rw [Function.update_of_ne hne] at hw
      exact .inr ⟨hne, hw⟩

/-- The loop: a leaf is new, or an old one of an address that is not visited. -/
theorem mapLoop_leaf (hv : HasFlag prot pteV) (hstop : stop.toNat + 4096 ≤ 2 ^ 64) :
    ∀ (fuel : ℕ) (s : Vm) (a pa : Addr), Radix s pgd → mapLoop pgd stop prot fuel s a pa = some s' →
      Radix s' pgd ∧ ∀ x w, leafAt 512 s'.mem pgd x = some w →
        (∃ b, a ≤ b ∧ b < stop ∧ b.toNat % 4096 = a.toNat % 4096 ∧ x = leafIndex b ∧
          w = (pa + (b - a)) >>> 12 <<< 10 ||| prot) ∨
        leafAt 512 s.mem pgd x = some w ∧
          ∀ b, a ≤ b → b < stop → b.toNat % 4096 = a.toNat % 4096 → x ≠ leafIndex b := by
  intro fuel
  induction fuel with
  | zero => exact fun s a pa _ h => by cases h
  | succ fuel ih =>
    intro s a pa hs h
    rw [mapLoop] at h
    split at h
    · rename_i hlt
      have hlt' := BitVec.lt_def.1 hlt
      have hnext : (a + 4096).toNat = a.toNat + 4096 := by
        rw [BitVec.toNat_add, show (4096 : Addr).toNat = 4096 from rfl]
        omega
      obtain ⟨hs', hleaf⟩ := ih _ _ _ (hs.mapPage a pa prot).1 h
      refine ⟨hs', fun x w hw => ?_⟩
      rcases hleaf x w hw with ⟨b, hab, hb, hmod, hx, rfl⟩ | ⟨hold, hnot⟩
      · have hab' := BitVec.le_def.1 hab
        refine .inl ⟨b, BitVec.le_def.2 (by omega), hb, by omega, hx, ?_⟩
        rw [show pa + 4096 + (b - (a + 4096)) = pa + (b - a) by bv_omega]
      · rcases hs.mapPage_leaf a pa hv hold with ⟨hx, rfl⟩ | ⟨hne, hold⟩
        · refine .inl ⟨a, BitVec.le_refl a, hlt, rfl, hx, ?_⟩
          rw [BitVec.sub_self, BitVec.add_zero]
        · refine .inr ⟨hold, fun b hab hb hmod => ?_⟩
          rcases eq_or_ne b a with rfl | hba
          · exact hne
          · refine hnot b (BitVec.le_def.2 ?_) hb (by omega)
            have hab' := BitVec.le_def.1 hab
            have hval : b.toNat ≠ a.toNat := fun h => hba (BitVec.eq_of_toNat_eq h)
            omega
    · rename_i hlt
      cases h
      refine ⟨hs, fun x w hw => .inr ⟨hw, fun b hab hb _ => ?_⟩⟩
      rw [BitVec.le_def] at hab
      rw [BitVec.lt_def] at hlt hb
      omega

/-- The range of the call ends before the last page of the address space, and its pages are
valid. -/
structure MapCall.Proper (c : MapCall) : Prop where
  fits : c.va.toNat + c.size.toNat + 4096 ≤ 2 ^ 64
  valid : HasFlag c.prot pteV

/-- **One call.** -/
theorem MapCall.Proper.leaf {c : MapCall} (hc : c.Proper) (h : Radix s pgd)
    (he : c.run pgd s = some s') : Radix s' pgd ∧ ∀ x w, leafAt 512 s'.mem pgd x = some w →
      (∃ b, c.Visits b ∧ x = leafIndex b ∧ w = c.entry b) ∨
      leafAt 512 s.mem pgd x = some w ∧ ∀ b, c.Visits b → x ≠ leafIndex b := by
  have hfits := hc.fits
  have hstop : (c.va + c.size).toNat + 4096 ≤ 2 ^ 64 := by
    rw [BitVec.toNat_add]
    have := Nat.mod_le (c.va.toNat + c.size.toNat) (2 ^ 64)
    omega
  obtain ⟨hs', hleaf⟩ := mapLoop_leaf hc.valid hstop _ s c.va c.pa h he
  refine ⟨hs', fun x w hw => ?_⟩
  rcases hleaf x w hw with ⟨b, hab, hb, hmod, hx, rfl⟩ | ⟨hold, hnot⟩
  · exact .inl ⟨b, ⟨hab, hb, hmod⟩, hx, rfl⟩
  · exact .inr ⟨hold, fun b hb => hnot b hb.1 hb.2.1 hb.2.2⟩

/-! ## All calls -/

/-- **The last call counts.** A leaf after the calls is that of the last call that visits its page,
or was there before if none does. -/
theorem mapCalls_leaf {cs : List MapCall} (hcs : ∀ c ∈ cs, c.Proper) (h : Radix s pgd)
    (he : mapCalls pgd cs s = some s') : Radix s' pgd ∧ ∀ x w, leafAt 512 s'.mem pgd x = some w →
      (∃ pre c post b, cs = pre ++ c :: post ∧ c.Visits b ∧ x = leafIndex b ∧ w = c.entry b ∧
        ∀ c' ∈ post, ∀ b', c'.Visits b' → x ≠ leafIndex b') ∨
      leafAt 512 s.mem pgd x = some w ∧ ∀ c ∈ cs, ∀ b, c.Visits b → x ≠ leafIndex b := by
  induction cs generalizing s with
  | nil =>
    cases he
    exact ⟨h, fun x w hw => .inr ⟨hw, fun c hc => by cases hc⟩⟩
  | cons c cs ih =>
    obtain ⟨s₁, hs₁, he⟩ := Option.bind_eq_some_iff.1 he
    obtain ⟨hr₁, hleaf₁⟩ := (hcs c List.mem_cons_self).leaf h hs₁
    obtain ⟨hr', hleaf'⟩ := ih (fun c hc => hcs c (List.mem_cons_of_mem _ hc)) hr₁ he
    refine ⟨hr', fun x w hw => ?_⟩
    rcases hleaf' x w hw with ⟨pre, d, post, b, rfl, hrest⟩ | ⟨hold, hnot⟩
    · exact .inl ⟨c :: pre, d, post, b, rfl, hrest⟩
    · rcases hleaf₁ x w hold with ⟨b, hb, hx, rfl⟩ | ⟨hold, hnot₁⟩
      · exact .inl ⟨[], c, cs, b, rfl, hb, hx, rfl, hnot⟩
      · refine .inr ⟨hold, fun d hd => ?_⟩
        rcases List.mem_cons.1 hd with rfl | hd
        · exact hnot₁
        · exact hnot d hd

/-! ## What is missing -/

/-- All walks of the calls find memory for their tables. -/
def CallsSucceed (pgd : Addr) : List MapCall → Vm → Prop
  | [], _ => True
  | c :: cs, s => WalksSucceed pgd c.prot ((c.size.toNat + 4095) / 4096) s c.va c.pa ∧
    ∀ s', c.run pgd s = some s' → CallsSucceed pgd cs s'

/-- No leaf goes away, and that of a walk which succeeds is there. -/
theorem Radix.mapPage_present (h : Radix s pgd) (va pa : Addr) (hv : HasFlag prot pteV) :
    (∀ x, leafAt 512 s.mem pgd x ≠ none →
      leafAt 512 (Mmu.mapPage s pgd va pa prot).mem pgd x ≠ none) ∧
      ((Mmu.pagewalk s pgd va true).2 ≠ none →
        leafAt 512 (Mmu.mapPage s pgd va pa prot).mem pgd (leafIndex va) ≠ none) := by
  have hset := (h.mapPage va pa prot).2
  refine ⟨fun x hx => ?_, fun hwalk => ?_⟩
  · by_cases hwalk : (Mmu.pagewalk s pgd va true).2 = none
    · have hleaf := (h.pagewalk va).1.leaf
      unfold Mmu.mapPage
      rcases hp : Mmu.pagewalk s pgd va true with ⟨s₁, _ | ⟨pt, k⟩⟩
      · rw [hp] at hleaf
        rwa [hleaf]
      · rw [hp] at hwalk
        cases hwalk
    · rw [hset hwalk]
      rcases eq_or_ne x (leafIndex va) with rfl | hne
      · rw [Function.update_self, validEntry_or hv]
        simp
      · rwa [Function.update_of_ne hne]
  · rw [hset hwalk, Function.update_self, validEntry_or hv]
    simp

theorem mapLoop_present (hv : HasFlag prot pteV) (hstop : stop.toNat + 4096 ≤ 2 ^ 64) :
    ∀ (fuel : ℕ) (s : Vm) (a pa : Addr), Radix s pgd → mapLoop pgd stop prot fuel s a pa = some s' →
      (∀ x, leafAt 512 s.mem pgd x ≠ none → leafAt 512 s'.mem pgd x ≠ none) ∧
      ∀ rounds, stop.toNat ≤ a.toNat + 4096 * rounds → WalksSucceed pgd prot rounds s a pa →
        ∀ b, a ≤ b → b < stop → b.toNat % 4096 = a.toNat % 4096 →
          leafAt 512 s'.mem pgd (leafIndex b) ≠ none := by
  intro fuel
  induction fuel with
  | zero => exact fun s a pa _ h => by cases h
  | succ fuel ih =>
    intro s a pa hs h
    rw [mapLoop] at h
    split at h
    · rename_i hlt
      have hlt' := BitVec.lt_def.1 hlt
      have hnext : (a + 4096).toNat = a.toNat + 4096 := by
        rw [BitVec.toNat_add, show (4096 : Addr).toNat = 4096 from rfl]
        omega
      obtain ⟨hkeep₁, hnew₁⟩ := hs.mapPage_present a pa hv
      obtain ⟨hkeep, hnew⟩ := ih _ _ _ (hs.mapPage a pa prot).1 h
      refine ⟨fun x hx => hkeep x (hkeep₁ x hx), fun rounds hrounds hwalks b hab hb hmod => ?_⟩
      obtain ⟨rounds, rfl⟩ : ∃ n, rounds = n + 1 := ⟨rounds - 1, by omega⟩
      rcases eq_or_ne b a with rfl | hba
      · exact hkeep _ (hnew₁ hwalks.1)
      · refine hnew rounds (by omega) hwalks.2 b (BitVec.le_def.2 ?_) hb (by omega)
        have hab' := BitVec.le_def.1 hab
        have hval : b.toNat ≠ a.toNat := fun h => hba (BitVec.eq_of_toNat_eq h)
        omega
    · rename_i hlt
      cases h
      refine ⟨fun x hx => hx, fun _ _ _ b hab hb _ => ?_⟩
      rw [BitVec.le_def] at hab
      rw [BitVec.lt_def] at hlt hb
      omega

/-- If memory suffices, the calls leave no page out. -/
theorem mapCalls_present {cs : List MapCall} (hcs : ∀ c ∈ cs, c.Proper) (h : Radix s pgd)
    (he : mapCalls pgd cs s = some s') :
    (∀ x, leafAt 512 s.mem pgd x ≠ none → leafAt 512 s'.mem pgd x ≠ none) ∧
      (CallsSucceed pgd cs s → ∀ c ∈ cs, ∀ b, c.Visits b →
        leafAt 512 s'.mem pgd (leafIndex b) ≠ none) := by
  induction cs generalizing s with
  | nil =>
    cases he
    exact ⟨fun x hx => hx, fun _ c hc => by cases hc⟩
  | cons c cs ih =>
    obtain ⟨s₁, hs₁, he⟩ := Option.bind_eq_some_iff.1 he
    have hc := hcs c List.mem_cons_self
    have hfits := hc.fits
    have hsum : (c.va + c.size).toNat = c.va.toNat + c.size.toNat := by
      rw [BitVec.toNat_add]
      omega
    obtain ⟨hkeep₁, hnew₁⟩ := mapLoop_present hc.valid (by omega) _ s c.va c.pa h hs₁
    obtain ⟨hkeep, hnew⟩ := ih (fun c hc => hcs c (List.mem_cons_of_mem _ hc)) (hc.leaf h hs₁).1 he
    refine ⟨fun x hx => hkeep x (hkeep₁ x hx), fun hok d hd b hb => ?_⟩
    rcases List.mem_cons.1 hd with rfl | hd
    · exact hkeep _ (hnew₁ _ (by omega) hok.1 b hb.1 hb.2.1 hb.2.2)
    · exact hnew (hok.2 s₁ hs₁) d hd b hb

/-! ## Few tables -/

/-- Without memory the loop of `map_pages_at` maps nothing where the PGD has no entry. -/
theorem mapLoop_of_full (hfull : s.allocPage = (0, s)) (hstop : stop.toNat + 4096 ≤ 2 ^ 64)
    (n : ℕ) (hempty : ∀ b : Addr, va ≤ b → b < stop → ¬ HasFlag (s.mem pgd (vpn b 30)) pteV)
    (h : mapLoop pgd stop prot n s va pa = some s') : s' = s := by
  induction n generalizing va pa with
  | zero => cases h
  | succ n ih =>
    rw [mapLoop] at h
    split_ifs at h with hlt
    · have hsame : mapPage s pgd va pa prot = s := by
        have hno := hempty va (BitVec.le_refl va) hlt
        rw [mapPage, pagewalk, nextTable, if_neg hno]
        simp [hfull]
      rw [hsame] at h
      refine ih (fun b hb => hempty b ?_) h
      have hnext : (va + 4096).toNat = va.toNat + 4096 := by
        rw [BitVec.lt_def] at hlt
        rw [BitVec.toNat_add]
        change (va.toNat + 4096) % 2 ^ 64 = _
        omega
      rw [BitVec.le_def, hnext] at hb
      rw [BitVec.le_def]
      omega
    · exact (Option.some.inj h).symm

theorem MapCall.Proper.run_of_full {c : MapCall} (hc : c.Proper) (hfull : s.allocPage = (0, s))
    (hempty : ∀ b : Addr, c.va ≤ b → b < c.va + c.size → ¬ HasFlag (s.mem pgd (vpn b 30)) pteV)
    (h : c.run pgd s = some s') : s' = s := by
  have hfits := hc.fits
  refine mapLoop_of_full hfull ?_ _ hempty h
  have := Nat.mod_le (c.va.toNat + c.size.toNat) (2 ^ 64)
  rw [BitVec.toNat_add]
  omega

/-- A failed `allocate` of a page leaves the memory as it is. -/
theorem allocPage_full (h : AllocReachable s.alloc) (h0 : s.allocPage.1 = 0) :
    s.allocPage = (0, s) := by
  obtain ⟨hinv, hreal⟩ := h.inv
  have hready :
      ¬ (¬ s.alloc.ready ∨ Memory.pageSize = 0 ∨ Memory.maxAllocSize < Memory.pageSize) := by
    rw [hinv.ready]
    decide
  have hpage : Memory.allocate s.alloc Memory.pageSize =
      ((Memory.buddyAllocPages s.alloc.buddy 0).1,
        { s.alloc with buddy := (Memory.buddyAllocPages s.alloc.buddy 0).2 }) := by
    rw [Memory.allocate, if_neg hready, if_neg (by decide)]
    rfl
  rw [Vm.allocPage, hpage] at h0 ⊢
  have hsame := ((Memory.buddyAllocPages_complete (.below h) (Nat.zero_le _)).2.2 hreal).2 h0
  simp only at h0
  rw [h0, hsame]

/-- A loop of `map_pages_at` below one table that is there writes to this table only. -/
theorem mapLoop_block {i j : Fin 512} {pmd pt : Addr} (hstop : stop.toNat + 4096 ≤ 2 ^ 64)
    (hne : pt ≠ pgd) (hne' : pt ≠ pmd) (n : ℕ) (hpmd : next s.mem pgd i = some pmd)
    (hpt : next s.mem pmd j = some pt)
    (hidx : ∀ b : Addr, va ≤ b → b < stop → vpn b 30 = i ∧ vpn b 21 = j)
    (h : mapLoop pgd stop prot n s va pa = some s') :
    s'.alloc = s.alloc ∧ ∀ t, t ≠ pt → s'.mem t = s.mem t := by
  induction n generalizing s va pa with
  | zero => cases h
  | succ n ih =>
    rw [mapLoop] at h
    split_ifs at h with hlt
    · obtain ⟨hi, hj⟩ := hidx va (BitVec.le_refl va) hlt
      have hpage : mapPage s pgd va pa prot =
          s.store pt (vpn va 12) (pa >>> 12 <<< 10 ||| prot) := by
        rw [mapPage, pagewalk, hi, hj, nextTable_of_some hpmd]
        simp only [nextTable_of_some hpt]
      have hmem : ∀ t, t ≠ pt → (mapPage s pgd va pa prot).mem t = s.mem t := by
        intro t ht
        rw [hpage]
        exact Function.update_of_ne ht ..
      have hnext : (va + 4096).toNat = va.toNat + 4096 := by
        rw [BitVec.lt_def] at hlt
        rw [BitVec.toNat_add]
        change (va.toNat + 4096) % 2 ^ 64 = _
        omega
      obtain ⟨halloc, hrest⟩ := ih (by rw [next, hmem _ hne.symm]; exact hpmd)
        (by rw [next, hmem _ hne'.symm]; exact hpt) (fun b hb => hidx b (by
          rw [BitVec.le_def, hnext] at hb
          rw [BitVec.le_def]
          omega)) h
      refine ⟨halloc.trans (by rw [hpage]; rfl), fun t ht => (hrest t ht).trans (hmem t ht)⟩
    · cases h
      exact ⟨rfl, fun _ _ => rfl⟩

/-! ## The page table of the kernel -/

/-- The layout of a board: kernel addresses, page-aligned sections in the order of the linker
script, and devices apart from these. -/
structure Layout.WellFormed (board : Board) (l : Layout) : Prop where
  range : ∀ c ∈ l.calls board, pageOffset ≤ c.va ∧ c.va.toNat + c.size.toNat + 4096 ≤ 2 ^ 64
  aligned : PageAligned l.start ∧ PageAligned l.textEnd ∧ PageAligned l.rodataEnd
  ordered : l.start ≤ l.textEnd ∧ l.textEnd ≤ l.rodataEnd
  apart : ∀ c ∈ l.devices board, c.va + c.size ≤ l.start ∨ l.rodataEnd ≤ c.va

/-- The rights of the pages of a call. -/
structure MapCall.Rights (c : MapCall) (write exec : Bool) : Prop where
  linear : c.pa = c.va - pageOffset
  flags : FlagBits c.prot
  valid : HasFlag c.prot pteV
  user : ¬ HasFlag c.prot pteU
  write : HasFlag c.prot pteW ↔ write = true
  exec : HasFlag c.prot pteX ↔ exec = true

/-- The rights that the flags of a call give. -/
theorem MapCall.rights_of {c : MapCall} {write exec : Bool} {flags : BitVec 64}
    (hpa : c.pa = c.va - pageOffset) (hprot : c.prot = flags)
    (hflags : FlagBits flags ∧ HasFlag flags pteV ∧ ¬ HasFlag flags pteU ∧
      (HasFlag flags pteW ↔ write = true) ∧ (HasFlag flags pteX ↔ exec = true)) :
    c.Rights write exec := by
  subst hprot
  exact ⟨hpa, hflags.1, hflags.2.1, hflags.2.2.1, hflags.2.2.2.1, hflags.2.2.2.2⟩

theorem Layout.rights_pool (l : Layout) : l.pool.Rights true false :=
  @MapCall.rights_of l.pool true false (pteV ||| pteR ||| pteW ||| pteA ||| pteD ||| pteG) rfl rfl
    (by decide)

theorem Layout.rights_text (l : Layout) : l.text.Rights false true :=
  @MapCall.rights_of l.text false true (pteV ||| pteR ||| pteX ||| pteA ||| pteG) rfl rfl
    (by decide)

theorem Layout.rights_rodata (l : Layout) : l.rodata.Rights false false := by
  refine @MapCall.rights_of l.rodata false false (pteV ||| pteR ||| pteA ||| pteG) ?_ rfl
    (by decide)
  rw [rodata]
  bv_omega

theorem Layout.rights_device {board : Board} {l : Layout} {c : MapCall} (h : c ∈ l.devices board) :
    c.Rights true false := by
  obtain ⟨hpa, hprot⟩ : c.pa = c.va - pageOffset ∧ c.prot = protMmio := by
    unfold devices at h
    simp only [List.mem_append] at h
    rcases h with (h | h) | h
    · split at h
      · obtain rfl := List.mem_singleton.1 h
        exact ⟨rfl, rfl⟩
      · cases h
    · split at h
      · obtain rfl := List.mem_singleton.1 h
        exact ⟨rfl, rfl⟩
      · cases h
    · cases board
      · simp only [List.mem_cons, List.not_mem_nil, or_false] at h
        rcases h with rfl | rfl
        · exact ⟨by decide, rfl⟩
        · exact ⟨by decide, rfl⟩
      · obtain rfl := List.mem_singleton.1 h
        exact ⟨by decide, rfl⟩
  exact MapCall.rights_of hpa hprot (by decide)

theorem Layout.proper {board : Board} {l : Layout} (hl : l.WellFormed board) :
    ∀ c ∈ l.calls board, c.Proper := by
  intro c hc
  refine ⟨(hl.range c hc).2, ?_⟩
  rw [calls, List.mem_cons, List.mem_cons, List.mem_cons] at hc
  rcases hc with rfl | rfl | rfl | hc
  · exact l.rights_pool.valid
  · exact l.rights_text.valid
  · exact l.rights_rodata.valid
  · exact (rights_device hc).valid

/-- The first address of a page. -/
theorem toNat_pageStart (va : Addr) : (va >>> 12 <<< 12).toNat = va.toNat / 4096 * 4096 := by
  rw [BitVec.toNat_shiftLeft, BitVec.toNat_ushiftRight, Nat.shiftRight_eq_div_pow, Nat.shiftLeft_eq]
  omega

theorem leafIndex_page (va : Addr) : leafIndex (va >>> 12 <<< 12) = leafIndex va := by
  simp only [leafIndex, Prod.mk.injEq, Fin.ext_iff, val_vpn, toNat_pageStart]
  omega

/-- Only the page of an address counts for the entry that leads to it. -/
theorem entryOf_page (page : Addr) (flags : BitVec 64) :
    entryOf (page >>> 12 <<< 12) flags = entryOf page flags := by
  have hshift : (page >>> 12 <<< 12 - pageOffset) >>> 12 = (page - pageOffset) >>> 12 := by
    apply BitVec.eq_of_toNat_eq
    rw [BitVec.toNat_ushiftRight, BitVec.toNat_ushiftRight, Nat.shiftRight_eq_div_pow,
      Nat.shiftRight_eq_div_pow, BitVec.toNat_sub, BitVec.toNat_sub, toNat_pageStart,
      show pageOffset.toNat = 0xffffffc000000000 from rfl]
    omega
  rw [entryOf, entryOf, hshift]

/-- What a call with given rights writes for an address. -/
theorem MapCall.Rights.entry {c : MapCall} {write exec : Bool} (h : c.Rights write exec)
    (hpage : a.toNat / 4096 = b.toNat / 4096) :
    frameAt (c.entry b) = a >>> 12 <<< 12 ∧ ¬ HasFlag (c.entry b) pteU ∧
      (HasFlag (c.entry b) pteW ↔ write = true) ∧ (HasFlag (c.entry b) pteX ↔ exec = true) := by
  have hab : a >>> 12 <<< 12 = b >>> 12 <<< 12 := by
    apply BitVec.eq_of_toNat_eq
    rw [toNat_pageStart, toNat_pageStart, hpage]
  have hentry : c.entry b = entryOf (b >>> 12 <<< 12) c.prot := by
    rw [entryOf_page, MapCall.entry, h.linear, entryOf,
      show c.va - pageOffset + (b - c.va) = b - pageOffset by bv_omega]
  have hbit : ∀ i < 10, (c.entry b).getLsbD i = c.prot.getLsbD i := fun i hi => by
    rw [hentry, getLsbD_entryOf hi]
  have haligned : PageAligned (b >>> 12 <<< 12) := by
    rw [pageAligned_iff, toNat_pageStart]
    omega
  refine ⟨?_, ?_, ?_, ?_⟩
  · rw [hentry, frameAt_entryOf haligned h.flags, hab]
  · have hu := h.user
    rw [show pteU = BitVec.twoPow 64 4 from rfl, hasFlag_iff (by norm_num)] at hu ⊢
    rwa [hbit 4 (by norm_num)]
  · rw [← h.write, hasFlag_w, hasFlag_w, hbit 2 (by norm_num)]
  · rw [← h.exec, hasFlag_x, hasFlag_x, hbit 3 (by norm_num)]

/-- A section visits each of its pages. -/
theorem MapCall.visits_page {c : MapCall} (ha : PageAligned c.va) (h : c.va ≤ va)
    (h' : va < c.va + c.size) : c.Visits (va >>> 12 <<< 12) := by
  rw [pageAligned_iff] at ha
  rw [BitVec.le_def] at h
  rw [BitVec.lt_def] at h'
  refine ⟨?_, ?_, ?_⟩
  · rw [BitVec.le_def, toNat_pageStart]
    omega
  · rw [BitVec.lt_def, toNat_pageStart]
    omega
  · rw [toNat_pageStart]
    omega

/-- The call that an entry is from, and the sections that come after it. -/
theorem Layout.last_call {board : Board} {l : Layout} {pre post : List MapCall} {c : MapCall}
    (h : l.calls board = pre ++ c :: post) :
    c = l.pool ∧ l.text ∈ post ∧ l.rodata ∈ post ∨ c = l.text ∨ c = l.rodata ∨
      c ∈ l.devices board := by
  rw [calls] at h
  rcases pre with _ | ⟨d, _ | ⟨d', _ | ⟨d'', pre⟩⟩⟩
  · obtain ⟨rfl, rfl⟩ := List.cons_eq_cons.1 h
    exact .inl ⟨rfl, by simp, by simp⟩
  · simp only [List.cons_append, List.nil_append, List.cons.injEq] at h
    exact .inr (.inl h.2.1.symm)
  · simp only [List.cons_append, List.nil_append, List.cons.injEq] at h
    exact .inr (.inr (.inl h.2.2.1.symm))
  · simp only [List.cons_append, List.cons.injEq] at h
    rw [h.2.2.2]
    simp

/-- What the kernel has at an address: the frame of the address itself, without access for user
mode, and it executes only its text and writes only behind its read-only data. -/
structure KernelEntry (l : Layout) (va : Addr) (w : BitVec 64) : Prop where
  kernel : pageOffset ≤ va
  frame : frameAt w = va >>> 12 <<< 12
  user : ¬ HasFlag w pteU
  exec : HasFlag w pteX ↔ l.start ≤ va ∧ va < l.textEnd
  write : HasFlag w pteW ↔ ¬ (l.start ≤ va ∧ va < l.rodataEnd)

theorem Layout.text_end (l : Layout) : l.text.va + l.text.size = l.textEnd := by
  rw [text]
  bv_omega

theorem Layout.rodata_end (l : Layout) : l.rodata.va + l.rodata.size = l.rodataEnd := by
  rw [rodata]
  bv_omega

/-- Where an address is whose page a call visits. -/
theorem Layout.WellFormed.where {board : Board} {l : Layout} (hl : l.WellFormed board)
    {c : MapCall} (hc : c ∈ l.calls board) (hb : c.Visits b)
    (hpage : va.toNat / 4096 = b.toNat / 4096) :
    pageOffset ≤ va ∧ (c = l.text → l.start ≤ va ∧ va < l.textEnd) ∧
      (c = l.rodata → l.textEnd ≤ va ∧ va < l.rodataEnd) ∧
      (c ∈ l.devices board → va < l.start ∨ l.rodataEnd ≤ va) := by
  obtain ⟨hkernel, hfits⟩ := hl.range c hc
  obtain ⟨hstart, htext, hrodata⟩ := hl.aligned
  obtain ⟨hcb, hbc, -⟩ := hb
  -- the bounds are aligned, so that they hold for a whole page or for none of it
  rw [pageAligned_iff] at hstart htext hrodata
  rw [BitVec.le_def] at hkernel hcb
  rw [BitVec.lt_def] at hbc
  have hoff : pageOffset.toNat = 0xffffffc000000000 := rfl
  refine ⟨?_, ?_, ?_, fun hdev => ?_⟩
  · rw [BitVec.le_def]
    omega
  · rintro rfl
    rw [l.text_end] at hbc
    rw [show l.text.va = l.start from rfl] at hcb
    rw [BitVec.le_def, BitVec.lt_def]
    omega
  · rintro rfl
    rw [l.rodata_end] at hbc
    rw [show l.rodata.va = l.textEnd from rfl] at hcb
    rw [BitVec.le_def, BitVec.lt_def]
    omega
  · have hapart := hl.apart c hdev
    rw [BitVec.le_def, BitVec.le_def] at hapart
    rw [BitVec.le_def, BitVec.lt_def]
    omega

/-- An address of the text or the read-only data. -/
theorem Layout.WellFormed.cases {board : Board} {l : Layout} (hl : l.WellFormed board)
    (h : l.start ≤ va ∧ va < l.rodataEnd) :
    l.text.Visits (va >>> 12 <<< 12) ∨ l.rodata.Visits (va >>> 12 <<< 12) := by
  by_cases ht : va < l.textEnd
  · refine .inl (MapCall.visits_page hl.aligned.1 h.1 ?_)
    rwa [l.text_end]
  · refine .inr (MapCall.visits_page hl.aligned.2.1 ?_ ?_)
    · rw [show l.rodata.va = l.textEnd from rfl, BitVec.le_def]
      rw [BitVec.lt_def] at ht
      omega
    · rw [l.rodata_end]
      exact h.2

/-- An entry of the last call that visits its page. -/
theorem Layout.WellFormed.entry {board : Board} {l : Layout} (hl : l.WellFormed board)
    {pre post : List MapCall} {c : MapCall} (hcs : l.calls board = pre ++ c :: post)
    (hb : c.Visits b) (hpage : va.toNat / 4096 = b.toNat / 4096)
    (hpost : ∀ c' ∈ post, ∀ b', c'.Visits b' → leafIndex va ≠ leafIndex b') :
    KernelEntry l va (c.entry b) := by
  have hmem : c ∈ l.calls board := by
    rw [hcs]
    simp
  obtain ⟨hupper, htext, hrodata, hdevice⟩ := hl.where hmem hb hpage
  have hord := BitVec.le_def.1 hl.ordered.1
  have hord' := BitVec.le_def.1 hl.ordered.2
  simp only [BitVec.le_def, BitVec.lt_def] at htext hrodata hdevice
  rcases last_call hcs with ⟨rfl, ht, hr⟩ | rfl | rfl | hdev
  · obtain ⟨hf, hu, hw, hx⟩ := l.rights_pool.entry hpage
    -- the sections have replaced what was there for the pool
    have hout : ¬ (l.start ≤ va ∧ va < l.rodataEnd) := fun h => by
      rcases hl.cases h with hv | hv
      · exact hpost _ ht _ hv (leafIndex_page va).symm
      · exact hpost _ hr _ hv (leafIndex_page va).symm
    refine ⟨hupper, hf, hu, hx.trans (iff_of_false (by simp) ?_), hw.trans (iff_of_true rfl hout)⟩
    rw [BitVec.le_def, BitVec.lt_def] at hout ⊢
    omega
  · obtain ⟨hf, hu, hw, hx⟩ := l.rights_text.entry hpage
    refine ⟨hupper, hf, hu, hx.trans (iff_of_true rfl ?_), hw.trans (iff_of_false (by simp) ?_)⟩
    · rw [BitVec.le_def, BitVec.lt_def]
      exact htext rfl
    · rw [BitVec.le_def, BitVec.lt_def]
      have := htext rfl
      omega
  · obtain ⟨hf, hu, hw, hx⟩ := l.rights_rodata.entry hpage
    have := hrodata rfl
    refine ⟨hupper, hf, hu, hx.trans (iff_of_false (by simp) ?_),
      hw.trans (iff_of_false (by simp) ?_)⟩
    · rw [BitVec.le_def, BitVec.lt_def]
      omega
    · rw [BitVec.le_def, BitVec.lt_def]
      omega
  · obtain ⟨hf, hu, hw, hx⟩ := (rights_device hdev).entry hpage
    have := hdevice hdev
    refine ⟨hupper, hf, hu, hx.trans (iff_of_false (by simp) ?_), hw.trans (iff_of_true rfl ?_)⟩
    · rw [BitVec.le_def, BitVec.lt_def]
      omega
    · rw [BitVec.le_def, BitVec.lt_def]
      omega

/-! ## The whole of `mmu_init` -/

/-- The loop ends, and the page table is one that the functions have built. -/
theorem mapLoop_built (hstop : stop.toNat + 4096 ≤ 2 ^ 64) :
    ∀ (rounds : ℕ) (s : Vm) (a pa : Addr), Built s pgd → stop.toNat ≤ a.toNat + 4096 * rounds →
      ∃ s', mapLoop pgd stop prot (rounds + 1) s a pa = some s' ∧ Built s' pgd := by
  intro rounds
  induction rounds with
  | zero =>
    intro s a pa hs h
    rw [mapLoop, if_neg (by rw [BitVec.lt_def]; omega)]
    exact ⟨s, rfl, hs⟩
  | succ rounds ih =>
    intro s a pa hs h
    rw [mapLoop]
    split
    · rename_i hlt
      have hlt' := BitVec.lt_def.1 hlt
      have hnext : (a + 4096).toNat = a.toNat + 4096 := by
        rw [BitVec.toNat_add, show (4096 : Addr).toNat = 4096 from rfl]
        omega
      exact ih _ _ _ (hs.map a pa prot) (by omega)
    · exact ⟨s, rfl, hs⟩

theorem mapCalls_built {cs : List MapCall} (hcs : ∀ c ∈ cs, c.Proper) (h : Built s pgd) :
    ∃ s', mapCalls pgd cs s = some s' ∧ Built s' pgd := by
  induction cs generalizing s with
  | nil => exact ⟨s, rfl, h⟩
  | cons c cs ih =>
    have hfits := (hcs c List.mem_cons_self).fits
    have hsum : (c.va + c.size).toNat = c.va.toNat + c.size.toNat := by
      rw [BitVec.toNat_add]
      omega
    have hstop : (c.va + c.size).toNat + 4096 ≤ 2 ^ 64 := by omega
    obtain ⟨s₁, hs₁, hbuilt⟩ := mapLoop_built hstop (c.size.toNat / 4096 + 1) s c.va c.pa h
      (by omega)
    obtain ⟨s', hs', hbuilt'⟩ := ih (fun d hd => hcs d (List.mem_cons_of_mem _ hd)) hbuilt
    exact ⟨s', Option.bind_eq_some_iff.2 ⟨s₁, hs₁, hs'⟩, hbuilt'⟩

/-- `mmu_init` ends if there is memory for a page table. -/
theorem mmuInit_built {board : Board} {l : Layout} (hs : AllocReachable s.alloc)
    (h0 : s.allocPage.1 ≠ 0) (hl : l.WellFormed board) :
    ∃ s', mapCalls s.allocPage.1 (l.calls board) (s.allocPage.2.setPage s.allocPage.1 fun _ => 0) =
        some s' ∧ mmuInit board l s = some (s', s.allocPage.1) ∧ Built s' s.allocPage.1 := by
  obtain ⟨s', hcalls, hbuilt⟩ := mapCalls_built (Layout.proper hl) (Built.new hs h0)
  refine ⟨s', hcalls, ?_, hbuilt⟩
  rw [mmuInit, if_neg h0, hcalls]
  rfl

/-- What it maps. -/
theorem mmuInit_entry {board : Board} {l : Layout} (hs : AllocReachable s.alloc)
    (hl : l.WellFormed board) (he : mmuInit board l s = some (s', pgd)) (hva : Canonical va)
    (hw : leafAt 512 s'.mem pgd (leafIndex va) = some w) : KernelEntry l va w := by
  have h0 : s.allocPage.1 ≠ 0 := fun h0 => by
    rw [mmuInit, if_pos h0] at he
    cases he
  obtain ⟨vm, hcalls, he', -⟩ := mmuInit_built hs h0 hl
  obtain ⟨rfl, rfl⟩ := Prod.mk.inj (Option.some.inj (he'.symm.trans he))
  obtain ⟨-, hleaf⟩ := mapCalls_leaf (Layout.proper hl) (Built.new hs h0).radix hcalls
  rcases hleaf _ w hw with ⟨pre, c, post, b, hcs, hb, hx, rfl, hpost⟩ | ⟨hold, -⟩
  · have hmem : c ∈ l.calls board := by
      rw [hcs]
      simp
    have hkernel := (hl.range c hmem).1
    have hcan : Canonical b := by
      have hcb := hb.1
      rw [BitVec.le_def] at hkernel hcb
      rw [show pageOffset.toNat = 2 ^ 64 - 2 ^ 38 from rfl] at hkernel
      exact .inr (hkernel.trans hcb)
    exact hl.entry hcs hb (page_eq_of_leafIndex hva hcan hx) hpost
  · -- the table that `mmu_init` starts with is empty
    obtain ⟨pt, hpt, -, -⟩ := leafAt_eq_some.1 hold
    obtain ⟨pmd, hpmd, -⟩ := ptAt_eq_some.1 hpt
    rw [pmdAt, next_zero (by rw [setPage_mem, Function.update_self]), ite_self] at hpmd
    cases hpmd

/-- **The page table of the kernel.** If there is memory for a page table, `mmu_init` ends with one
in which every entry is that of its own address, is out of reach for user mode, and allows to
execute exactly the text and to write exactly what is neither text nor read-only data. If there is
memory for all tables, nothing that it is to map is missing. -/
theorem kernelMap {board : Board} {l : Layout} (hs : AllocReachable s.alloc)
    (h0 : s.allocPage.1 ≠ 0) (hl : l.WellFormed board) :
    ∃ s', mmuInit board l s = some (s', s.allocPage.1) ∧ Built s' s.allocPage.1 ∧
      (∀ va w, Canonical va → leafOf s' s.allocPage.1 va = some w → KernelEntry l va w) ∧
      (CallsSucceed s.allocPage.1 (l.calls board) (s.allocPage.2.setPage s.allocPage.1 fun _ => 0) →
        ∀ c ∈ l.calls board, ∀ va, c.Visits va → ∃ w, leafOf s' s.allocPage.1 va = some w) := by
  obtain ⟨s', hcalls, he, hbuilt⟩ := mmuInit_built hs h0 hl
  obtain ⟨-, hpresent⟩ := mapCalls_present (Layout.proper hl) (Built.new hs h0).radix hcalls
  refine ⟨s', he, hbuilt, fun va w hva hw => ?_, fun hok c hc va hv => ?_⟩
  · rw [leafOf_eq] at hw
    exact mmuInit_entry hs hl he hva hw
  · rw [leafOf_eq]
    exact Option.ne_none_iff_exists'.1 (hpresent hok c hc va hv)

end BareMetalOS.Mmu
