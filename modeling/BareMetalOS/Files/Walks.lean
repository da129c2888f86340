import BareMetalOS.Files.Readers
import BareMetalOS.Foundations.Loops

/-!
# Progress of the walks over an archive

`initrd_list`, `initrd_get_file` and `ramfs_setup_mount` go from header to header. The step is the
sum of two sizes rounded up to multiples of four, made in 32 bits out of whatever eight bytes stand
in each size field; the first two add it as an `int`, the third one as an `unsigned int`. Each round
moves `ptr` forward, and all three walks end, exactly when no step on the way is 0, an `int` step is
no negative number, and no step passes the end of the address space (`walksForward_iff`). With
`namesize` -110 and `filesize` 0 the step is 0 (`not_walksForward`).
-/

namespace BareMetalOS.Files

open Memory Boot

/-! ## One round of each walk -/

/-- The header at `ptr` has the magic, and it is not the trailer. -/
def isEntry (mem : Bytes) (ptr : Addr) : Bool :=
  strncmpEq mem ptr (cstr "070701") &&
    !strcmpEq mem (ptr + BitVec.ofNat 64 sizeofCpio) (cstr "TRAILER!!!")

/-- The value of a header field at `ptr`, as one of the two `hextoi` decodes it. -/
def fieldAt (hextoi : Bytes → Addr → ℕ → BitVec 32) (mem : Bytes) (f : CpioField) (ptr : Addr) :
    BitVec 32 :=
  hextoi mem (ptr + BitVec.ofNat 64 f.offset) 8

namespace Cpio

/-- The entry behind the one at `ptr`, by the sizes in its header. -/
def nextAt (mem : Bytes) (ptr : Addr) : Addr :=
  next ptr (fieldAt hextoi mem .namesize ptr) (fieldAt hextoi mem .filesize ptr)

/-- The loop of `initrd_list`: its calls of `printf`. -/
def initrdListLoop (mem : Bytes) : ℕ → Addr → Option (List (List Byte × List Addr))
  | 0, _ => none
  | n + 1, ptr =>
    if strncmpEq mem ptr (cstr "070701") then
      let namesize := hextoi mem (ptr + BitVec.ofNat 64 CpioField.namesize.offset) 8
      let filesize := hextoi mem (ptr + BitVec.ofNat 64 CpioField.filesize.offset) 8
      let name := ptr + BitVec.ofNat 64 sizeofCpio
      if strcmpEq mem name (cstr "TRAILER!!!") then some []
      else
        (initrdListLoop mem n (next ptr namesize filesize)).map fun out =>
          (cstr "%d \t %s\r\n", [filesize.signExtend 64, name]) :: out
    else some [(cstr "Invalid magic\r\n", [])]

/-- One round of `initrd_list`: the next `ptr`. -/
def initrdListStep (mem : Bytes) (ptr : Addr) : Option Addr :=
  if isEntry mem ptr then some (nextAt mem ptr) else none

/-- One round of `initrd_get_file`: the next `ptr`. -/
def initrdGetFileStep (mem : Bytes) (filename : List Byte) (ptr : Addr) : Option Addr :=
  if isEntry mem ptr && !strcmpEq mem (ptr + BitVec.ofNat 64 sizeofCpio) filename then
    some (nextAt mem ptr)
  else none

end Cpio

namespace Ramfs

/-- The entry behind the one at `ptr`, by the sizes in its header. -/
def nextAt (mem : Bytes) (ptr : Addr) : Addr :=
  next ptr (fieldAt hextoi mem .namesize ptr) (fieldAt hextoi mem .filesize ptr)

/-- One round of `ramfs_setup_mount`: the next `ptr`. -/
def setupMountStep (mem : Bytes) (ptr : Addr) : Option Addr :=
  if isEntry mem ptr then some (nextAt mem ptr) else none

end Ramfs

/-- `initrd_list` has returned within `n` entries: its calls of `printf`, each with its format and
its arguments. -/
def initrdList (mem : Bytes) (rd : Addr) (n : ℕ) : Option (List (List Byte × List Addr)) :=
  Cpio.initrdListLoop mem n rd

variable {mem : Bytes} {rd p q : Addr} {filename : List Byte}

/-- The loop of `initrd_list` returns when its rounds stop. -/
theorem initrdListLoop_isSome_iff (n : ℕ) (p : Addr) :
    (Cpio.initrdListLoop mem n p).isSome ↔ afterSteps (Cpio.initrdListStep mem) n p = none := by
  induction n generalizing p with
  | zero => simp [Cpio.initrdListLoop, afterSteps]
  | succ n ih =>
    rw [Cpio.initrdListLoop, afterSteps, Cpio.initrdListStep, isEntry]
    dsimp only
    cases strncmpEq mem p (cstr "070701") with
    | false => simp
    | true =>
      cases strcmpEq mem (p + BitVec.ofNat 64 sizeofCpio) (cstr "TRAILER!!!") with
      | true => simp
      | false => simpa [Option.isSome_map, Cpio.nextAt, fieldAt] using ih _

/-- The loop of `initrd_get_file` returns when its rounds stop. -/
theorem initrdGetFileLoop_isSome_iff (n : ℕ) (p : Addr) :
    (Cpio.initrdGetFileLoop mem filename n p).isSome ↔
      afterSteps (Cpio.initrdGetFileStep mem filename) n p = none := by
  induction n generalizing p with
  | zero => simp [Cpio.initrdGetFileLoop, afterSteps]
  | succ n ih =>
    rw [Cpio.initrdGetFileLoop, afterSteps, Cpio.initrdGetFileStep, isEntry]
    dsimp only
    cases strncmpEq mem p (cstr "070701") with
    | false => simp
    | true =>
      cases strcmpEq mem (p + BitVec.ofNat 64 sizeofCpio) (cstr "TRAILER!!!") with
      | true => simp
      | false =>
        cases strcmpEq mem (p + BitVec.ofNat 64 sizeofCpio) filename with
        | true => simp
        | false => simpa [Cpio.nextAt, fieldAt] using ih _

/-- The loop of `ramfs_setup_mount` returns when its rounds stop. -/
theorem setupMountLoop_isSome_iff (n : ℕ) (p : Addr) (root : RamfsInode) :
    (Ramfs.setupMountLoop mem n p root).isSome ↔
      afterSteps (Ramfs.setupMountStep mem) n p = none := by
  induction n generalizing p root with
  | zero => simp [Ramfs.setupMountLoop, afterSteps]
  | succ n ih =>
    rw [Ramfs.setupMountLoop, afterSteps, Ramfs.setupMountStep, isEntry]
    dsimp only
    cases strncmpEq mem p (cstr "070701") with
    | false => simp
    | true =>
      cases strcmpEq mem (p + BitVec.ofNat 64 sizeofCpio) (cstr "TRAILER!!!") with
      | true => simp
      | false =>
        cases strcmpEq mem (p + BitVec.ofNat 64 sizeofCpio) (cstr ".") with
        | true => simpa [Ramfs.nextAt, fieldAt] using ih _ _
        | false => simpa [Ramfs.nextAt, fieldAt] using ih _ _

/-! ## The step in numbers -/

/-- The bytes that an entry takes by its sizes: the header with the name and the data, each rounded
up to a multiple of four, in 32 bits. -/
def span (namesize filesize : BitVec 32) : ℕ :=
  (roundUp (sizeofCpio + namesize.toNat) + roundUp filesize.toNat) % 2 ^ 32

/-- The pointer `q` lies strictly behind `p`, also as the sum of `p` and a signed distance. -/
def Forward (p q : Addr) : Prop := p < q ∧ 0 < (q - p).toInt

/-- `align_up` with its wrap-around. -/
theorem toNat_alignUp_mod (n : BitVec 32) :
    (Ramfs.alignUp n 4).toNat = roundUp n.toNat % 2 ^ 32 := by
  have hsum : (n + 4 - 1).toNat = (n.toNat + 3) % 2 ^ 32 := by
    bv_omega
  have hmask : (4 - 1 : BitVec 32) = BitVec.ofNat 32 (2 ^ 2 - 1) := by decide
  rw [Ramfs.alignUp, hmask, toNat_and_not_mask _ (by omega), hsum, roundUp]
  omega

theorem toNat_span (namesize filesize : BitVec 32) :
    (Ramfs.alignUp (BitVec.ofNat 32 sizeofCpio + namesize) 4 + Ramfs.alignUp filesize 4).toNat =
      span namesize filesize := by
  rw [BitVec.toNat_add, toNat_alignUp_mod, toNat_alignUp_mod, BitVec.toNat_add, BitVec.toNat_ofNat,
    span, roundUp, roundUp, roundUp, sizeofCpio]
  omega

theorem forward_add_iff {n : ℕ} (hn : n < 2 ^ 63) :
    Forward p (p + BitVec.ofNat 64 n) ↔ 0 < n ∧ p.toNat + n < 2 ^ 64 := by
  have hdist : p + BitVec.ofNat 64 n - p = BitVec.ofNat 64 n := by
    rw [BitVec.add_comm, BitVec.add_sub_cancel]
  have hnat : (BitVec.ofNat 64 n).toNat = n := Nat.mod_eq_of_lt (by omega)
  have hp := p.isLt
  rw [Forward, hdist, BitVec.lt_def, BitVec.toNat_add, BitVec.toInt_eq_toNat_cond, hnat,
    if_pos (by omega)]
  omega

/-- An `int` moves a pointer forward if it is positive. -/
theorem forward_signExtend_iff (x : BitVec 32) :
    Forward p (p + x.signExtend 64) ↔
      0 < x.toNat ∧ x.toNat < 2 ^ 31 ∧ p.toNat + x.toNat < 2 ^ 64 := by
  by_cases hx : x.toNat < 2 ^ 31
  · rw [signExtend_eq hx, forward_add_iff (by omega)]
    exact and_congr_right fun _ => (and_iff_right hx).symm
  · apply iff_of_false
    · rintro ⟨-, hpos⟩
      rw [BitVec.add_comm, BitVec.add_sub_cancel, BitVec.toInt_signExtend_of_le (by omega),
        BitVec.toInt_eq_toNat_cond] at hpos
      split_ifs at hpos <;> omega
    · exact fun h => hx h.2.1

/-! ## Progress and termination -/

/-- Every round that a walk from `rd` makes moves `ptr` strictly forward. -/
def MovesForward (step : Addr → Option Addr) (rd : Addr) : Prop :=
  ∀ n p q, afterSteps step n rd = some p → step p = some q → Forward p q

/-- Every round of the three walks moves `ptr` strictly forward, and the walks end. -/
structure WalksForward (mem : Bytes) (rd : Addr) : Prop where
  list : MovesForward (Cpio.initrdListStep mem) rd
  getFile : ∀ filename, MovesForward (Cpio.initrdGetFileStep mem filename) rd
  setupMount : MovesForward (Ramfs.setupMountStep mem) rd
  list_returns : ∃ n out, initrdList mem rd n = some out
  getFile_returns : ∀ filename, ∃ n r, initrdGetFile mem rd filename n = some r
  setupMount_returns : ∀ root, ∃ n r, Ramfs.setupMountLoop mem n rd root = some r

/-- The bytes that the entry at `p` takes, by one of the two decoders. -/
def spanAt (hextoi : Bytes → Addr → ℕ → BitVec 32) (mem : Bytes) (p : Addr) : ℕ :=
  span (fieldAt hextoi mem .namesize p) (fieldAt hextoi mem .filesize p)

/-- The headers that the sizes lead to, from `rd` up to the trailer or the first one without the
magic. -/
inductive HeaderAt (hextoi : Bytes → Addr → ℕ → BitVec 32) (mem : Bytes) (rd : Addr) : Addr → Prop
  | first : HeaderAt hextoi mem rd rd
  | next {p : Addr} (hp : HeaderAt hextoi mem rd p) (he : isEntry mem p) :
    HeaderAt hextoi mem rd (p + BitVec.ofNat 64 (spanAt hextoi mem p))

/-- No entry takes 0 bytes, `limit` bytes or more, or the end of the address space. -/
def SpansAdvance (hextoi : Bytes → Addr → ℕ → BitVec 32) (limit : ℕ) (mem : Bytes) (rd : Addr) :
    Prop :=
  ∀ p, HeaderAt hextoi mem rd p → isEntry mem p →
    0 < spanAt hextoi mem p ∧ spanAt hextoi mem p < limit ∧
      p.toNat + spanAt hextoi mem p < 2 ^ 64

theorem cpio_forward_iff (p : Addr) : Forward p (Cpio.nextAt mem p) ↔
    0 < spanAt Cpio.hextoi mem p ∧ spanAt Cpio.hextoi mem p < 2 ^ 31 ∧
      p.toNat + spanAt Cpio.hextoi mem p < 2 ^ 64 := by
  rw [Cpio.nextAt, Cpio.next, alignUpInt_eq, alignUpInt_eq, forward_signExtend_iff, toNat_span]
  rfl

theorem cpio_nextAt_eq (h : Forward p (Cpio.nextAt mem p)) :
    Cpio.nextAt mem p = p + BitVec.ofNat 64 (spanAt Cpio.hextoi mem p) := by
  have hlt := ((cpio_forward_iff p).1 h).2.1
  rw [Cpio.nextAt, Cpio.next, alignUpInt_eq, alignUpInt_eq, signExtend_eq, toNat_span]
  · rfl
  · rw [toNat_span]
    exact hlt

theorem ramfs_nextAt_eq (p : Addr) :
    Ramfs.nextAt mem p = p + BitVec.ofNat 64 (spanAt Ramfs.hextoi mem p) := by
  rw [Ramfs.nextAt, Ramfs.next, setWidth_sizeof_add, setWidth_eq, toNat_span]
  rfl

theorem spanAt_lt (hextoi : Bytes → Addr → ℕ → BitVec 32) (mem : Bytes) (p : Addr) :
    spanAt hextoi mem p < 2 ^ 32 :=
  Nat.mod_lt _ (Nat.two_pow_pos 32)

theorem ramfs_forward_iff (p : Addr) : Forward p (Ramfs.nextAt mem p) ↔
    0 < spanAt Ramfs.hextoi mem p ∧ spanAt Ramfs.hextoi mem p < 2 ^ 32 ∧
      p.toNat + spanAt Ramfs.hextoi mem p < 2 ^ 64 := by
  have hlt := spanAt_lt Ramfs.hextoi mem p
  rw [ramfs_nextAt_eq, forward_add_iff (by omega), and_iff_right hlt]

/-- A walk that goes on at every entry moves forward exactly when the sizes do. -/
theorem movesForward_iff {step : Addr → Option Addr} {next : Addr → Addr}
    {hextoi : Bytes → Addr → ℕ → BitVec 32} {limit : ℕ}
    (hstep : ∀ p, step p = if isEntry mem p then some (next p) else none)
    (hforward : ∀ p, Forward p (next p) ↔ 0 < spanAt hextoi mem p ∧ spanAt hextoi mem p < limit ∧
      p.toNat + spanAt hextoi mem p < 2 ^ 64)
    (hnext : ∀ p, Forward p (next p) → next p = p + BitVec.ofNat 64 (spanAt hextoi mem p)) :
    MovesForward step rd ↔ SpansAdvance hextoi limit mem rd := by
  have hentry : ∀ p, isEntry mem p → step p = some (next p) := by
    intro p hp
    rw [hstep, if_pos hp]
  have hof : ∀ p q, step p = some q → isEntry mem p ∧ next p = q := by
    intro p q h
    rw [hstep] at h
    split at h
    · rename_i hp
      exact ⟨hp, Option.some.inj h⟩
    · cases h
  constructor
  · intro h
    have hreach : ∀ p, HeaderAt hextoi mem rd p → ∃ n, afterSteps step n rd = some p := by
      intro p hp
      induction hp with
      | first => exact ⟨0, rfl⟩
      | next _ he ih =>
        obtain ⟨n, hn⟩ := ih
        refine ⟨n + 1, ?_⟩
        rw [afterSteps_succ, hn, Option.bind_some, hentry _ he, hnext _ (h n _ _ hn (hentry _ he))]
    intro p hp he
    obtain ⟨n, hn⟩ := hreach p hp
    exact (hforward p).1 (h n p _ hn (hentry p he))
  · intro h
    have hheader : ∀ n p, afterSteps step n rd = some p → HeaderAt hextoi mem rd p := by
      intro n
      induction n with
      | zero =>
        intro p hp
        cases hp
        exact .first
      | succ n ih =>
        intro q hq
        rw [afterSteps_succ] at hq
        obtain ⟨p, hp, hq⟩ := Option.bind_eq_some_iff.1 hq
        obtain ⟨he, rfl⟩ := hof p q hq
        rw [hnext p ((hforward p).2 (h p (ih p hp) he))]
        exact .next (ih p hp) he
    intro n p q hn hq
    obtain ⟨he, rfl⟩ := hof p q hq
    exact (hforward p).2 (h p (hheader n p hn) he)

/-- A walk that moves forward stops at the latest at the end of the address space. -/
theorem MovesForward.stops {step : Addr → Option Addr} (h : MovesForward step rd) :
    ∃ n, afterSteps step n rd = none := by
  apply exists_afterSteps_eq_none (m := BitVec.toNat) BitVec.isLt
  intro n p q hp hq
  exact BitVec.lt_def.1 (h n p q hp hq).1

/-- The search makes no rounds that the listing does not make. -/
theorem movesForward_initrdGetFile (h : MovesForward (Cpio.initrdListStep mem) rd)
    (filename : List Byte) : MovesForward (Cpio.initrdGetFileStep mem filename) rd := by
  have hmono : ∀ p q, Cpio.initrdGetFileStep mem filename p = some q →
      Cpio.initrdListStep mem p = some q := by
    intro p q hpq
    rw [Cpio.initrdGetFileStep] at hpq
    split at hpq
    · rename_i he
      rw [Cpio.initrdListStep, if_pos (Bool.and_eq_true_iff.1 he).1, hpq]
    · cases hpq
  intro n p q hn hq
  exact h n p q (afterSteps_mono hmono hn) (hmono p q hq)

/-- **The three walks move forward and end exactly when the sizes do.** -/
theorem walksForward_iff (mem : Bytes) (rd : Addr) :
    WalksForward mem rd ↔
      SpansAdvance Cpio.hextoi (2 ^ 31) mem rd ∧ SpansAdvance Ramfs.hextoi (2 ^ 32) mem rd := by
  rw [← movesForward_iff (fun _ => rfl) cpio_forward_iff (fun _ => cpio_nextAt_eq),
    ← movesForward_iff (fun _ => rfl) ramfs_forward_iff (fun p _ => ramfs_nextAt_eq p)]
  constructor
  · exact fun h => ⟨h.list, h.setupMount⟩
  · rintro ⟨hlist, hmount⟩
    have hget := movesForward_initrdGetFile hlist
    constructor
    · exact hlist
    · exact hget
    · exact hmount
    · obtain ⟨n, hn⟩ := hlist.stops
      exact ⟨n, Option.isSome_iff_exists.1 ((initrdListLoop_isSome_iff n rd).2 hn)⟩
    · intro filename
      obtain ⟨n, hn⟩ := (hget filename).stops
      exact ⟨n, Option.isSome_iff_exists.1 ((initrdGetFileLoop_isSome_iff n rd).2 hn)⟩
    · intro root
      obtain ⟨n, hn⟩ := hmount.stops
      exact ⟨n, Option.isSome_iff_exists.1 ((setupMountLoop_isSome_iff n rd root).2 hn)⟩

/-! ### An entry that takes no bytes -/

/-- The last header of the image has no magic. -/
def EndsWithoutMagic (image : List Byte) : Prop :=
  ∃ s r, image = s ++ r ∧ r.length = sizeofCpio ∧ r.take 6 ≠ cstr "070701"

/-- An entry `a` with the sizes `FFFFFF92` and 0, and a header of zeros. -/
def stuckImage : List Byte :=
  cstr "070701" ++
    (CpioField.all.flatMap fun f => if f = .namesize then cstr "FFFFFF92" else cstr "00000000") ++
    [0x61, 0] ++ List.replicate sizeofCpio 0

/-- **All three walks stay at an entry that takes no bytes.** -/
theorem not_walksForward :
    HoldsAt (bytesFrom pageOffset stuckImage) pageOffset stuckImage ∧
      EndsWithoutMagic stuckImage ∧
      (∀ n, initrdList (bytesFrom pageOffset stuckImage) pageOffset n = none) ∧
      (∀ n, initrdGetFile (bytesFrom pageOffset stuckImage) pageOffset [0x62] n = none) ∧
      (∀ n root, Ramfs.setupMountLoop (bytesFrom pageOffset stuckImage) n pageOffset root = none) ∧
      ¬ WalksForward (bytesFrom pageOffset stuckImage) pageOffset := by
  have hstay : ∀ {step : Addr → Option Addr}, step pageOffset = some pageOffset →
      ∀ n, afterSteps step n pageOffset = some pageOffset := by
    intro step hstep n
    induction n with
    | zero => rfl
    | succ n ih => rw [afterSteps_succ, ih, Option.bind_some, hstep]
  have hlist : ∀ n, initrdList (bytesFrom pageOffset stuckImage) pageOffset n = none := by
    intro n
    rw [← Option.not_isSome_iff_eq_none, initrdList, initrdListLoop_isSome_iff,
      hstay (by decide +kernel)]
    simp
  refine ⟨holdsAt_bytesFrom _ _ (by decide +kernel), ⟨stuckImage.take 112, stuckImage.drop 112, ?_⟩,
    hlist, ?_, ?_, ?_⟩
  · decide +kernel
  · intro n
    rw [← Option.not_isSome_iff_eq_none, initrdGetFile, initrdGetFileLoop_isSome_iff,
      hstay (by decide +kernel)]
    simp
  · intro n root
    rw [← Option.not_isSome_iff_eq_none, setupMountLoop_isSome_iff, hstay (by decide +kernel)]
    simp
  · intro h
    obtain ⟨n, out, hn⟩ := h.list_returns
    rw [hlist] at hn
    cases hn

end BareMetalOS.Files
