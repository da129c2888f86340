import BareMetalOS.Foundations.Words
import BareMetalOS.Files.OpenFiles
import BareMetalOS.Memory.Region
import BareMetalOS.Boot.Startup

/-!
# The framebuffer

`video_bmp_display` of `src/video.c` copies an image row by row to the middle of the framebuffer,
and `devfs_write` of `src/devfs.c` copies bytes to the position of a handle on `/dev/fb`, which
`devfs_lseek64` sets. Both take what the user gives them. `displayInside_iff` and `writeInside_iff`
say which calls stay in the framebuffer, and `fbRun_inside_iff` says it of every sequence of calls.
-/

namespace BareMetalOS.Files

open Memory (Addr Board)
open Boot (pageOffset)

/-! ## The code -/

/-- `FB_WIDTH`. -/
def fbWidth : ℕ := 1920

/-- `FB_HEIGHT`. -/
def fbHeight : ℕ := 1080

/-- `FB_BPP`. -/
def fbBpp : ℕ := 4

/-- `FB_BASE`. -/
def fbBase : Board → Addr
  | .qemu => 0x87000000 + pageOffset
  | .orangePi => 0x7f700000 + pageOffset

/-- The bytes of the framebuffer. -/
def fbSize : ℕ := fbWidth * fbHeight * fbBpp

/-- The addresses of the framebuffer. -/
def framebuffer (board : Board) : Set Addr := bytesAt (fbBase board) fbSize

/-- `start_x`; an `int` wraps. -/
def startX (width : BitVec 32) : BitVec 32 := (BitVec.ofNat 32 fbWidth - width).sdiv 2

/-- `start_y`. -/
def startY (height : BitVec 32) : BitVec 32 := (BitVec.ofNat 32 fbHeight - height).sdiv 2

/-- `dst`, for the row `y`: the products are made in `int`, and the sums with the pointer in 64
bits. -/
def rowDst (board : Board) (width height y : BitVec 32) : Addr :=
  fbBase board + ((startY height + y) * BitVec.ofNat 32 fbWidth).signExtend 64 * 4 +
    (startX width).signExtend 64 * 4

/-- `video_bmp_display`: the destinations and lengths of its copies. -/
def videoBmpDisplay (board : Board) (width height : BitVec 32) : List (Addr × ℕ) :=
  (List.range height.toInt.toNat).map fun y =>
    (rowDst board width height (BitVec.ofNat 32 y), width.toNat * 4)

/-- `devfs_write`: the handle, and the destination and length of its copy if it is on `/dev/fb`. -/
def devfsWrite (board : Board) (fbVnode : Addr) (file : File) (len : BitVec 64) :
    File × List (Addr × ℕ) :=
  if file.vnode = fbVnode then
    ({ file with fPos := file.fPos + len }, [(fbBase board + file.fPos, len.toNat)])
  else (file, [])

/-- `devfs_lseek64`: the handle and the value returned. -/
def devfsLseek64 (file : File) (offset : BitVec 64) (whence : ℤ) : File × ℤ :=
  if whence = 0 then ({ file with fPos := offset }, offset.toInt) else (file, -1)

/-! ## Calls -/

/-- The handles of the devfs. -/
structure DevFiles where
  fbVnode : Addr
  file : Addr → Option File

/-- A call that reaches the framebuffer; the second and third are on a handle. -/
inductive FbOp
  | display (width height : BitVec 32)
  | lseek64 (f : Addr) (offset : BitVec 64) (whence : ℤ)
  | write (f : Addr) (len : BitVec 64)

/-- A call: the handles afterwards and the copies it made. -/
def DevFiles.exec (board : Board) (s : DevFiles) : FbOp → DevFiles × List (Addr × ℕ)
  | .display width height => (s, videoBmpDisplay board width height)
  | .lseek64 f offset whence =>
    match s.file f with
    | none => (s, [])
    | some file =>
      ({ s with file := Function.update s.file f (some (devfsLseek64 file offset whence).1) }, [])
  | .write f len =>
    match s.file f with
    | none => (s, [])
    | some file =>
      let r := devfsWrite board s.fbVnode file len
      ({ s with file := Function.update s.file f (some r.1) }, r.2)

/-- The copies of a sequence of calls. -/
def DevFiles.run (board : Board) (s : DevFiles) : List FbOp → List (Addr × ℕ)
  | [] => []
  | op :: ops => (s.exec board op).2 ++ DevFiles.run board (s.exec board op).1 ops

/-- The addresses that copies write to. -/
def written (copies : List (Addr × ℕ)) : Set Addr := {a | ∃ c ∈ copies, a ∈ bytesAt c.1 c.2}

/-! ## Which calls stay inside -/

/-- The rows above a centred image, `(1080 - height) / 2`. -/
def rowsAbove (height : ℕ) : ℕ := (fbHeight - height) / 2

/-- The image is empty, or it is at most as high as the screen and what it is wider than the screen
fits into the rows above it on the left and into the rows below it on the right. -/
def DisplayFits (width height : BitVec 32) : Prop :=
  width = 0 ∨ height.toInt ≤ 0 ∨
    height.toNat ≤ fbHeight ∧
      (width.toNat - fbWidth) / 2 ≤ rowsAbove height.toNat * fbWidth ∧
      (width.toNat - fbWidth) - (width.toNat - fbWidth) / 2 ≤
        (fbHeight - height.toNat - rowsAbove height.toNat) * fbWidth

/-- The call stays inside, by the state before it. -/
def DevFiles.Fits (s : DevFiles) : FbOp → Prop
  | .display width height => DisplayFits width height
  | .lseek64 .. => True
  | .write f len => ∀ file, s.file f = some file → file.vnode = s.fbVnode →
      len = 0 ∨ file.fPos.toNat + len.toNat ≤ fbSize

/-- Every call of the sequence fits when its turn comes. -/
def DevFiles.RunFits (board : Board) (s : DevFiles) : List FbOp → Prop
  | [] => True
  | op :: ops => s.Fits op ∧ DevFiles.RunFits board (s.exec board op).1 ops

variable {board : Board} {s : DevFiles} {width height : BitVec 32}

/-! ## Ranges -/

/-- A range at a distance `k` from the framebuffer, counted in 64 bits. -/
theorem bytesAt_subset_framebuffer_iff {k : BitVec 64} {n : ℕ} (hn : 0 < n) :
    bytesAt (fbBase board + k) n ⊆ framebuffer board ↔ k.toNat + n ≤ fbSize := by
  have hsize : fbSize = 8294400 := rfl
  have hk := k.isLt
  have hofNat : fbBase board + k = fbBase board + BitVec.ofNat 64 k.toNat := by
    rw [BitVec.ofNat_toNat, BitVec.setWidth_eq]
  constructor
  · intro h
    by_contra hlt
    -- the first byte of the range that is not in the framebuffer
    by_cases hout : fbSize ≤ k.toNat
    · obtain ⟨j, hj, heq⟩ := h ⟨0, hn, rfl⟩
      rw [BitVec.add_zero, hofNat, add_ofNat_inj (by omega) (by omega)] at heq
      omega
    · obtain ⟨j, hj, heq⟩ := h ⟨fbSize - k.toNat, by omega, rfl⟩
      rw [hofNat, BitVec.add_assoc, ← BitVec.ofNat_add, add_ofNat_inj (by omega) (by omega)] at heq
      omega
  · intro h
    rw [hofNat]
    exact bytesAt_subset h

theorem bytesAt_zero (p : Addr) : bytesAt p 0 = ∅ := by
  ext a
  simp [bytesAt]

/-- The same, for the distance as an integer. -/
theorem bytesAt_subset_framebuffer_iff_int {k : ℤ} {n : ℕ} (hn : 0 < n) (h₁ : -2 ^ 63 ≤ k)
    (h₂ : k < 2 ^ 63) :
    bytesAt (fbBase board + BitVec.ofInt 64 k) n ⊆ framebuffer board ↔
      0 ≤ k ∧ k + n ≤ fbSize := by
  have hsize : fbSize = 8294400 := rfl
  rw [bytesAt_subset_framebuffer_iff hn, BitVec.toNat_ofInt]
  omega

/-! ## The rows of an image -/

/-- The first pixel of the row `y`, counted from the first pixel of the framebuffer. -/
def rowStart (width height y : BitVec 32) : ℤ :=
  ((startY height + y) * BitVec.ofNat 32 fbWidth).toInt + (startX width).toInt

theorem rowDst_eq (board : Board) (width height y : BitVec 32) :
    rowDst board width height y =
      fbBase board + BitVec.ofInt 64 (rowStart width height y * 4) := by
  rw [rowDst, rowStart, BitVec.add_assoc, Int.add_mul, BitVec.ofInt_add, BitVec.ofInt_mul,
    BitVec.ofInt_mul]
  rfl

/-- A row is inside when its pixels are. -/
theorem row_subset_iff {y : BitVec 32} (hw : 0 < width.toNat) :
    bytesAt (rowDst board width height y) (width.toNat * 4) ⊆ framebuffer board ↔
      0 ≤ rowStart width height y ∧
        rowStart width height y + width.toNat ≤ fbWidth * fbHeight := by
  have h₁ := BitVec.le_toInt ((startY height + y) * BitVec.ofNat 32 fbWidth)
  have h₂ := BitVec.toInt_lt (x := (startY height + y) * BitVec.ofNat 32 fbWidth)
  have h₃ := BitVec.le_toInt (startX width)
  have h₄ := BitVec.toInt_lt (x := startX width)
  have hsize : fbSize = 8294400 := rfl
  have hpix : (fbWidth : ℤ) * fbHeight = 2073600 := rfl
  rw [rowDst_eq, bytesAt_subset_framebuffer_iff_int (by omega) (by unfold rowStart; omega)
    (by unfold rowStart; omega)]
  omega

/-- A difference of type `int` that does not overflow. -/
theorem toInt_half {n : ℕ} {v : BitVec 32} (hn : n < 2 ^ 31) (h : (n : ℤ) - v.toInt < 2 ^ 31) :
    ((BitVec.ofNat 32 n - v).sdiv 2).toInt = ((n : ℤ) - v.toInt).tdiv 2 := by
  have hv := BitVec.toInt_lt (x := v)
  have hn' : (BitVec.ofNat 32 n).toInt = n := by
    rw [BitVec.toInt_ofNat', Int.bmod_eq_of_le] <;> omega
  rw [BitVec.toInt_sdiv_of_ne_or_ne _ _ (.inr (by decide)), BitVec.toInt_sub, hn',
    Int.bmod_eq_of_le (by omega) (by omega)]
  rfl

theorem tdiv_two (x : ℤ) : x.tdiv 2 = if 0 ≤ x then x / 2 else -(-x / 2) := by
  split_ifs with h
  · exact Int.tdiv_eq_ediv_of_nonneg h
  · rw [← Int.tdiv_eq_ediv_of_nonneg (by omega), Int.neg_tdiv, neg_neg]

/-- The rows of the image that are on the screen, or just above or below it. -/
theorem rowStart_eq (hw : width.toNat ≤ fbWidth * fbHeight) (hh : 0 ≤ height.toInt) {y : ℕ} {k : ℤ}
    (hy : (y : ℤ) < 2 ^ 31) (hk : (1080 - height.toInt).tdiv 2 + y = k) (h₁ : -1 ≤ k)
    (h₂ : k ≤ 1080) :
    rowStart width height (BitVec.ofNat 32 y) = k * 1920 + (1920 - (width.toNat : ℤ)).tdiv 2 := by
  have hpix : fbWidth * fbHeight = 2073600 := rfl
  have hx : (startX width).toInt = (1920 - (width.toNat : ℤ)).tdiv 2 := by
    have hwi : width.toInt = width.toNat := BitVec.toInt_eq_toNat_of_lt (by omega)
    rw [startX, toInt_half (by decide) (by rw [hwi]; unfold fbWidth; omega), hwi]
    rfl
  have hsy : (startY height).toInt = (1080 - height.toInt).tdiv 2 :=
    toInt_half (by decide) (by unfold fbHeight; omega)
  have hyi : (BitVec.ofNat 32 y).toInt = y := by
    rw [BitVec.toInt_ofNat', Int.bmod_eq_of_le] <;> omega
  have hrow : ((startY height + BitVec.ofNat 32 y) * BitVec.ofNat 32 fbWidth).toInt = k * 1920 := by
    have hsum : (startY height + BitVec.ofNat 32 y).toInt = k := by
      rw [BitVec.toInt_add, hsy, hyi, hk]
      exact Int.bmod_eq_of_le (by omega) (by omega)
    rw [BitVec.toInt_mul, hsum, show (BitVec.ofNat 32 fbWidth).toInt = 1920 from rfl]
    exact Int.bmod_eq_of_le (by omega) (by omega)
  rw [rowStart, hrow, hx]

/-- The image is inside when all its rows are. -/
theorem display_subset_iff :
    written (videoBmpDisplay board width height) ⊆ framebuffer board ↔
      ∀ y < height.toInt.toNat,
        bytesAt (rowDst board width height (BitVec.ofNat 32 y)) (width.toNat * 4) ⊆
          framebuffer board := by
  constructor
  · intro h y hy a ha
    exact h ⟨_, List.mem_map.2 ⟨y, List.mem_range.2 hy, rfl⟩, ha⟩
  · rintro h a ⟨c, hc, ha⟩
    obtain ⟨y, hy, rfl⟩ := List.mem_map.1 hc
    exact h y (List.mem_range.1 hy) ha

/-- An image that is higher than the screen has a row that is not on the screen. -/
theorem height_le_of_rows (hw : 0 < width.toNat) (hh : 0 < height.toInt)
    (h : ∀ y < height.toInt.toNat, 0 ≤ rowStart width height (BitVec.ofNat 32 y) ∧
      rowStart width height (BitVec.ofNat 32 y) + width.toNat ≤ fbWidth * fbHeight) :
    height.toInt ≤ 1080 := by
  have hpix : (fbWidth : ℤ) * fbHeight = 2073600 := rfl
  have hpix' : fbWidth * fbHeight = 2073600 := rfl
  have hlt := BitVec.toInt_lt (x := height)
  have hwle : width.toNat ≤ fbWidth * fbHeight := by
    have := h 0 (by omega)
    omega
  by_contra hgt
  have hsx := tdiv_two (1920 - (width.toNat : ℤ))
  have hsy := tdiv_two (1080 - height.toInt)
  rw [if_neg (by omega)] at hsy
  by_cases hone : height.toInt = 1081
  · -- one row too many: the image starts in the first row and ends below the last one
    have hrow := h 1080 (by omega)
    rw [rowStart_eq (k := 1080) hwle hh.le (by omega) (by omega) (by omega) (by omega)] at hrow
    split_ifs at hsx <;> omega
  · -- the row before the first one
    have hrow := h ((-(1080 - height.toInt).tdiv 2 - 1).toNat) (by omega)
    rw [rowStart_eq (k := -1) hwle hh.le (by omega) (by omega) (by omega) (by omega)] at hrow
    split_ifs at hsx <;> omega

/-- **Images.** The display stays inside exactly when the image fits. -/
theorem displayInside_iff :
    written (videoBmpDisplay board width height) ⊆ framebuffer board ↔
      DisplayFits width height := by
  have hpix : (fbWidth : ℤ) * fbHeight = 2073600 := rfl
  have hpix' : fbWidth * fbHeight = 2073600 := rfl
  rw [display_subset_iff, DisplayFits]
  by_cases hw : width = 0
  · refine iff_of_true ?_ (.inl hw)
    intro y _
    rw [hw, show (0 : BitVec 32).toNat * 4 = 0 from rfl, bytesAt_zero]
    exact Set.empty_subset _
  by_cases hh : height.toInt ≤ 0
  · exact iff_of_true (fun y hy => by omega) (.inr (.inl hh))
  rw [or_iff_right hw, or_iff_right hh]
  have hpos : 0 < width.toNat := by
    rw [Nat.pos_iff_ne_zero]
    exact fun h => hw (BitVec.eq_of_toNat_eq h)
  have hhi : height.toInt = height.toNat :=
    BitVec.toInt_eq_toNat_of_lt (BitVec.toInt_pos_iff.1 (by omega))
  simp only [row_subset_iff hpos]
  have hsx := tdiv_two (1920 - (width.toNat : ℤ))
  have hsy := tdiv_two (1080 - height.toInt)
  unfold rowsAbove
  simp only [show fbHeight = 1080 from rfl, show fbWidth = 1920 from rfl] at *
  constructor
  · intro h
    have hle := height_le_of_rows hpos (by omega) h
    have hwle : width.toNat ≤ fbWidth * fbHeight := by
      have := h 0 (by omega)
      unfold fbWidth fbHeight
      omega
    rw [if_pos (by omega)] at hsy
    have hfirst := h 0 (by omega)
    have hlast := h (height.toNat - 1) (by omega)
    rw [rowStart_eq (k := (1080 - height.toInt).tdiv 2) hwle (by omega) (by omega) (by omega)
      (by omega) (by omega)] at hfirst
    rw [rowStart_eq (k := (1080 - height.toInt).tdiv 2 + (height.toNat - 1 : ℕ)) hwle (by omega)
      (by omega) (by omega) (by omega) (by omega)] at hlast
    split_ifs at hsx <;> omega
  · rintro ⟨hle, hleft, hright⟩ y hy
    rw [if_pos (by omega)] at hsy
    have hwle : width.toNat ≤ fbWidth * fbHeight := by
      unfold fbWidth fbHeight
      omega
    rw [rowStart_eq (k := (1080 - height.toInt).tdiv 2 + y) hwle (by omega) (by omega) rfl
      (by omega) (by omega)]
    split_ifs at hsx <;> omega

/-! ## Writes to a handle, and sequences of calls -/

/-- **Writes.** A write to `/dev/fb` stays inside exactly when it ends in the framebuffer. -/
theorem writeInside_iff (fbVnode : Addr) (file : File) (len : BitVec 64)
    (hv : file.vnode = fbVnode) :
    written (devfsWrite board fbVnode file len).2 ⊆ framebuffer board ↔
      len = 0 ∨ file.fPos.toNat + len.toNat ≤ fbSize := by
  rw [devfsWrite, if_pos hv]
  simp only [written, List.mem_singleton, exists_eq_left]
  change bytesAt (fbBase board + file.fPos) len.toNat ⊆ _ ↔ _
  by_cases h0 : len = 0
  · refine iff_of_true ?_ (.inl h0)
    rw [h0, show (0 : BitVec 64).toNat = 0 from rfl, bytesAt_zero]
    exact Set.empty_subset _
  · rw [or_iff_right h0]
    apply bytesAt_subset_framebuffer_iff
    rw [Nat.pos_iff_ne_zero]
    exact fun h => h0 (BitVec.eq_of_toNat_eq h)

theorem written_nil : written [] = ∅ := by
  ext a
  simp [written]

theorem written_append (c c' : List (Addr × ℕ)) : written (c ++ c') = written c ∪ written c' := by
  ext a
  simp [written, or_and_right, exists_or]

/-- One call stays inside exactly when it fits. -/
theorem exec_inside_iff (op : FbOp) :
    written (s.exec board op).2 ⊆ framebuffer board ↔ s.Fits op := by
  cases op with
  | display width height => exact displayInside_iff
  | lseek64 f offset whence =>
    have hnil : (s.exec board (.lseek64 f offset whence)).2 = [] := by
      rw [DevFiles.exec]
      split <;> rfl
    rw [hnil, written_nil]
    exact iff_of_true (Set.empty_subset _) trivial
  | write f len =>
    rw [DevFiles.exec, DevFiles.Fits]
    rcases hf : s.file f with _ | file
    · simp only [written_nil]
      exact iff_of_true (Set.empty_subset _) (fun _ h => by cases h)
    · simp only [Option.some.injEq, forall_eq']
      by_cases hv : file.vnode = s.fbVnode
      · rw [writeInside_iff _ _ _ hv]
        exact ⟨fun h _ => h, fun h => h hv⟩
      · rw [devfsWrite, if_neg hv, written_nil]
        exact iff_of_true (Set.empty_subset _) (fun h => absurd h hv)

/-- **The framebuffer is respected exactly by the sequences of calls that fit**, each by the state
that the calls before it have left. -/
theorem fbRun_inside_iff (board : Board) (s : DevFiles) (ops : List FbOp) :
    written (s.run board ops) ⊆ framebuffer board ↔ s.RunFits board ops := by
  induction ops generalizing s with
  | nil => exact iff_of_true (by rw [DevFiles.run, written_nil]; exact Set.empty_subset _) trivial
  | cons op ops ih =>
    rw [DevFiles.run, DevFiles.RunFits, written_append, Set.union_subset_iff, exec_inside_iff, ih]

/-- An image of one row more than the screen. -/
theorem fbRun_outside :
    ¬ written (DevFiles.run .qemu ⟨1, fun _ => none⟩ [.display 1 1081]) ⊆ framebuffer .qemu := by
  rw [DevFiles.run, DevFiles.run, List.append_nil, DevFiles.exec, displayInside_iff]
  rintro (h | h | ⟨h, -, -⟩)
  · exact absurd h (by decide)
  · exact absurd h (by decide)
  · exact absurd h (by decide)

end BareMetalOS.Files
