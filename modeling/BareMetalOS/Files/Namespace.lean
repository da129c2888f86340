import BareMetalOS.Files.Vfs

/-!
# The invariant of the namespace

Between two operations every vnode has a parent; the parent of a vnode that a directory lists is
this directory; and a mount leads from a vnode to a later one, the root of the mount, which has
borrowed the parent of the vnode it covers (`VfsInv`). So the chains of mounts end (`cross_spec`),
and every lookup of components that fit the buffer returns (`walk_spec`). A lookup adds at most the
vnodes of devices to the namespace (`Grows`).
-/

namespace BareMetalOS.Files

open Memory (Addr)
open Boot (Byte cstr)

variable {s s' s'' : Vfs} {v r d e : ℕ} {vv rv : Vnode} {c : List Byte}

/-- The vnode `r` is the root of the mount on `v`. -/
def Covered (s : Vfs) (v r : ℕ) : Prop := ∃ vv, s.vnodes[v]? = some vv ∧ vv.mount = some r

/-- What holds of the vnodes between two operations. -/
structure VfsInv (s : Vfs) : Prop where
  root : ∃ rv, s.vnodes[s.root]? = some rv ∧ rv.parent = some s.root
  parent : ∀ (v : ℕ) (vv : Vnode), s.vnodes[v]? = some vv →
    ∃ p < s.vnodes.length, vv.parent = some p
  /-- the directory that lists a vnode is its parent -/
  entry : ∀ (d : ℕ) (dv : Vnode) (e : ℕ), s.vnodes[d]? = some dv → e ∈ dv.internal.entries →
    e ≠ s.root ∧ ∃ ev, s.vnodes[e]? = some ev ∧ ev.parent = some d
  /-- the root of a mount has the parent of the vnode it covers, or is its own parent -/
  mount : ∀ (m : ℕ) (mv : Vnode) (r : ℕ), s.vnodes[m]? = some mv → mv.mount = some r →
    m < r ∧ r ≠ s.root ∧
    ∃ rv, s.vnodes[r]? = some rv ∧ rv.parent = if m = s.root then some r else mv.parent
  cwd : ∀ t v, s.cwd t = some v → v < s.vnodes.length
  device : ∀ v, s.uart = some v ∨ s.fb = some v → v < s.vnodes.length

theorem VfsInv.root_lt (h : VfsInv s) : s.root < s.vnodes.length := by
  obtain ⟨rv, hrv, -⟩ := h.root
  exact (List.getElem?_eq_some_iff.1 hrv).1

/-! ## Mounts -/

/-- A chain of mounts is walked to its end. -/
theorem crossLoop_spec (h : VfsInv s) (n : ℕ) (hv : v < s.vnodes.length)
    (hn : s.vnodes.length - v ≤ n) : ∃ r rv, crossLoop s n v = some r ∧ s.vnodes[r]? = some rv ∧
      rv.mount = none ∧ Relation.ReflTransGen (Covered s) v r := by
  induction n generalizing v with
  | zero => omega
  | succ n ih =>
    obtain ⟨vv, hvv⟩ : ∃ vv, s.vnodes[v]? = some vv := ⟨_, List.getElem?_eq_getElem hv⟩
    rw [crossLoop, hvv, Option.bind_eq_bind, Option.bind_some]
    cases hm : vv.mount with
    | none => exact ⟨v, vv, rfl, hvv, hm, .refl⟩
    | some root =>
      obtain ⟨hlt, -, rv, hrv, -⟩ := h.mount v vv root hvv hm
      have hroot := (List.getElem?_eq_some_iff.1 hrv).1
      obtain ⟨r, rv, hr, hrv, hnone, hchain⟩ := ih hroot (by omega)
      exact ⟨r, rv, hr, hrv, hnone, .head ⟨vv, hvv, hm⟩ hchain⟩

theorem cross_spec (h : VfsInv s) (hv : v < s.vnodes.length) : ∃ r rv, cross s v = some r ∧
    s.vnodes[r]? = some rv ∧ rv.mount = none ∧ Relation.ReflTransGen (Covered s) v r :=
  crossLoop_spec h _ hv (Nat.sub_le ..)

/-- The end of a chain of mounts is unique. -/
theorem Covered.unique {r' : ℕ} (h : Relation.ReflTransGen (Covered s) v r)
    (h' : Relation.ReflTransGen (Covered s) v r') (hr : ∀ x, ¬ Covered s r x)
    (hr' : ∀ x, ¬ Covered s r' x) : r = r' := by
  induction h using Relation.ReflTransGen.head_induction_on with
  | refl =>
    rcases h'.cases_head with rfl | ⟨x, hx, -⟩
    · rfl
    · exact (hr x hx).elim
  | head hvx _ ih =>
    rcases h'.cases_head with rfl | ⟨y, hy, hy'⟩
    · exact (hr' _ hvx).elim
    · obtain ⟨vv, hvv, hm⟩ := hvx
      obtain ⟨vv', hvv', hm'⟩ := hy
      cases hvv.symm.trans hvv'
      cases hm.symm.trans hm'
      exact ih hy'

theorem not_covered (hr : s.vnodes[r]? = some rv) (hm : rv.mount = none) (x : ℕ) :
    ¬ Covered s r x := by
  rintro ⟨vv, hvv, hx⟩
  cases hr.symm.trans hvv
  rw [hm] at hx
  cases hx

/-- The vnode at the end of a chain of mounts is what the loop finds. -/
theorem cross_eq (h : VfsInv s) (hv : v < s.vnodes.length)
    (hc : Relation.ReflTransGen (Covered s) v r) (hr : s.vnodes[r]? = some rv)
    (hm : rv.mount = none) : cross s v = some r := by
  obtain ⟨r', rv', hcross, hr', hm', hchain⟩ := cross_spec h hv
  rw [hcross, Covered.unique hchain hc (not_covered hr' hm') (not_covered hr hm)]

theorem cross_self (h : VfsInv s) (hv : s.vnodes[v]? = some vv) (hm : vv.mount = none) :
    cross s v = some v :=
  cross_eq h (List.getElem?_eq_some_iff.1 hv).1 .refl hv hm

theorem cross_some (h : VfsInv s) (hv : v < s.vnodes.length) (hc : cross s v = some r) :
    ∃ rv, s.vnodes[r]? = some rv ∧ rv.mount = none ∧ Relation.ReflTransGen (Covered s) v r := by
  obtain ⟨r', rv, hcross, hr, hm, hchain⟩ := cross_spec h hv
  cases hc.symm.trans hcross
  exact ⟨rv, hr, hm, hchain⟩

/-- Mounts lead to later vnodes, so that they form no cycle. -/
theorem VfsInv.covered_lt (h : VfsInv s) (hc : Relation.TransGen (Covered s) v r) : v < r := by
  induction hc with
  | single hc =>
    obtain ⟨vv, hvv, hm⟩ := hc
    exact (h.mount _ vv _ hvv hm).1
  | tail _ hc ih =>
    obtain ⟨vv, hvv, hm⟩ := hc
    exact ih.trans (h.mount _ vv _ hvv hm).1

/-- The mounts on a vnode other than the root have its parent. -/
theorem VfsInv.parent_covered (h : VfsInv s) (hc : Relation.ReflTransGen (Covered s) v r)
    (hv : s.vnodes[v]? = some vv) (hne : v ≠ s.root) :
    r ≠ s.root ∧ ∃ rv, s.vnodes[r]? = some rv ∧ rv.parent = vv.parent := by
  induction hc with
  | refl => exact ⟨hne, vv, hv, rfl⟩
  | tail _ hc ih =>
    obtain ⟨hne', xv, hx, hpar⟩ := ih
    obtain ⟨xv', hx', hm⟩ := hc
    cases hx.symm.trans hx'
    obtain ⟨-, hroot, rv, hr, hrpar⟩ := h.mount _ xv _ hx hm
    rw [if_neg hne'] at hrpar
    exact ⟨hroot, rv, hr, hrpar.trans hpar⟩

/-! ## Changes -/

theorem Vfs.modify_some {f : Vnode → Vnode} (h : (s.modify d f).vnodes[v]? = some vv) :
    ∃ old, s.vnodes[v]? = some old ∧ vv = if d = v then f old else old := by
  rw [Vfs.modify, List.getElem?_modify, Option.map_eq_map, Option.map_eq_some_iff] at h
  obtain ⟨old, hold, hvv⟩ := h
  exact ⟨old, hold, hvv.symm⟩

theorem Vfs.modify_getElem? {f : Vnode → Vnode} (h : s.vnodes[v]? = some vv) :
    (s.modify d f).vnodes[v]? = some (if d = v then f vv else vv) := by
  rw [Vfs.modify, List.getElem?_modify, h]
  rfl

@[simp] theorem Vfs.modify_root (f : Vnode → Vnode) : (s.modify d f).root = s.root := rfl

@[simp] theorem Vfs.modify_length (f : Vnode → Vnode) :
    (s.modify d f).vnodes.length = s.vnodes.length := by
  simp [Vfs.modify]

/-- New vnodes that refer to each other and to old ones as parents. -/
theorem VfsInv.append {l : List Vnode} (h : VfsInv s) (hv : s'.vnodes = s.vnodes ++ l)
    (hr : s'.root = s.root) (hc : s'.cwd = s.cwd)
    (hd : ∀ v, s'.uart = some v ∨ s'.fb = some v → v < s'.vnodes.length)
    (hl : ∀ (i : ℕ) (vv : Vnode), l[i]? = some vv → vv.mount = none ∧
      (∃ p < s'.vnodes.length, vv.parent = some p) ∧ ∀ e ∈ vv.internal.entries, ∃ j ev,
        e = s.vnodes.length + j ∧ l[j]? = some ev ∧ ev.parent = some (s.vnodes.length + i)) :
    VfsInv s' := by
  have hlen : s.vnodes.length ≤ s'.vnodes.length := by
    rw [hv, List.length_append]
    omega
  have hold : ∀ (v : ℕ) (vv : Vnode), s.vnodes[v]? = some vv → s'.vnodes[v]? = some vv := by
    intro v vv hvv
    rw [hv, List.getElem?_append_left (List.getElem?_eq_some_iff.1 hvv).1, hvv]
  have hnew : ∀ (i : ℕ) (vv : Vnode), l[i]? = some vv →
      s'.vnodes[s.vnodes.length + i]? = some vv := by
    intro i vv hi
    rw [hv, List.getElem?_append_right (by omega), Nat.add_sub_cancel_left, hi]
  have hcases : ∀ (v : ℕ) (vv : Vnode), s'.vnodes[v]? = some vv → s.vnodes[v]? = some vv ∨
      ∃ i, v = s.vnodes.length + i ∧ l[i]? = some vv := by
    intro v vv hvv
    rw [hv] at hvv
    rcases Nat.lt_or_ge v s.vnodes.length with hlt | hge
    · rw [List.getElem?_append_left hlt] at hvv
      exact .inl hvv
    · rw [List.getElem?_append_right hge] at hvv
      exact .inr ⟨v - s.vnodes.length, by omega, hvv⟩
  have hroot := h.root_lt
  obtain ⟨rootv, hrootv, hrootp⟩ := h.root
  refine ⟨⟨rootv, by rw [hr]; exact hold _ _ hrootv, by rw [hr, hrootp]⟩, fun v vv hvv => ?_,
    fun d dv e hdv he => ?_, fun m mv r hmv hm => ?_, fun t v hcwd => ?_, hd⟩
  · rcases hcases v vv hvv with hvv | ⟨i, rfl, hi⟩
    · obtain ⟨p, hp, hpar⟩ := h.parent v vv hvv
      exact ⟨p, by omega, hpar⟩
    · exact (hl i vv hi).2.1
  · rcases hcases d dv hdv with hdv | ⟨i, rfl, hi⟩
    · obtain ⟨hne, ev, hev, hpar⟩ := h.entry d dv e hdv he
      exact ⟨by rwa [hr], ev, hold e ev hev, hpar⟩
    · obtain ⟨j, ev, rfl, hj, hpar⟩ := (hl i dv hi).2.2 e he
      exact ⟨by omega, ev, hnew j ev hj, hpar⟩
  · rcases hcases m mv hmv with hmv | ⟨i, rfl, hi⟩
    · obtain ⟨hlt, hne, rv, hrv, hpar⟩ := h.mount m mv r hmv hm
      exact ⟨hlt, by rwa [hr], rv, hold r rv hrv, by rwa [hr]⟩
    · rw [(hl i mv hi).1] at hm
      cases hm
  · rw [hc] at hcwd
    exact (h.cwd t v hcwd).trans_le hlen

/-- The directory `d` gets an entry whose parent it is. -/
theorem VfsInv.setInternal {internal : Internal} (h : VfsInv s)
    (hi : ∀ e ∈ internal.entries, e ≠ s.root ∧ ∃ ev, s.vnodes[e]? = some ev ∧
      ev.parent = some d) :
    VfsInv (s.modify d fun v => { v with internal := internal }) := by
  have hkeep : ∀ (v : ℕ) (vv : Vnode), s.vnodes[v]? = some vv →
      ∃ vv', (s.modify d fun v => { v with internal := internal }).vnodes[v]? = some vv' ∧
        vv'.parent = vv.parent := by
    intro v vv hvv
    refine ⟨_, Vfs.modify_getElem? hvv, ?_⟩
    split <;> rfl
  obtain ⟨rootv, hrootv, hrootp⟩ := h.root
  obtain ⟨rootv', hrootv', hrootp'⟩ := hkeep _ _ hrootv
  refine ⟨⟨rootv', hrootv', hrootp'.trans hrootp⟩, fun v vv hvv => ?_, fun d' dv e hdv he => ?_,
    fun m mv r hmv hm => ?_, fun t v hc => by simpa using h.cwd t v hc,
    fun v hv => by simpa using h.device v hv⟩
  · obtain ⟨old, hold, rfl⟩ := Vfs.modify_some hvv
    obtain ⟨p, hp, hpar⟩ := h.parent v old hold
    refine ⟨p, by simpa using hp, ?_⟩
    split <;> exact hpar
  · obtain ⟨old, hold, rfl⟩ := Vfs.modify_some hdv
    by_cases hd : d = d'
    · subst hd
      rw [if_pos rfl] at he
      obtain ⟨hne, ev, hev, hpar⟩ := hi e he
      obtain ⟨ev', hev', hpar'⟩ := hkeep e ev hev
      exact ⟨hne, ev', hev', hpar'.trans hpar⟩
    · rw [if_neg hd] at he
      obtain ⟨hne, ev, hev, hpar⟩ := h.entry d' old e hold he
      obtain ⟨ev', hev', hpar'⟩ := hkeep e ev hev
      exact ⟨hne, ev', hev', hpar'.trans hpar⟩
  · obtain ⟨old, hold, rfl⟩ := Vfs.modify_some hmv
    have hm' : old.mount = some r := by
      split at hm <;> exact hm
    obtain ⟨hlt, hne, rv, hrv, hpar⟩ := h.mount m old r hold hm'
    obtain ⟨rv', hrv', hpar'⟩ := hkeep r rv hrv
    have hold' : (if d = m then { old with internal := internal } else old).parent =
        old.parent := by
      split <;> rfl
    refine ⟨hlt, hne, rv', hrv', ?_⟩
    rw [hold']
    exact hpar'.trans hpar

/-- The vnode `m` is covered by a later one that has its parent. -/
theorem VfsInv.setMount {m : ℕ} {mv : Vnode} (h : VfsInv s) (hm : s.vnodes[m]? = some mv)
    (hlt : m < r) (hne : r ≠ s.root) (hr : s.vnodes[r]? = some rv)
    (hpar : rv.parent = if m = s.root then some r else mv.parent) :
    VfsInv (s.modify m fun v => { v with mount := some r }) := by
  have hkeep : ∀ (v : ℕ) (vv : Vnode), s.vnodes[v]? = some vv →
      ∃ vv', (s.modify m fun v => { v with mount := some r }).vnodes[v]? = some vv' ∧
        vv'.parent = vv.parent := by
    intro v vv hvv
    refine ⟨_, Vfs.modify_getElem? hvv, ?_⟩
    split <;> rfl
  obtain ⟨rootv, hrootv, hrootp⟩ := h.root
  obtain ⟨rootv', hrootv', hrootp'⟩ := hkeep _ _ hrootv
  refine ⟨⟨rootv', hrootv', hrootp'.trans hrootp⟩, fun v vv hvv => ?_, fun d dv e hdv he => ?_,
    fun m' mv' r' hmv hmount => ?_, fun t v hc => by simpa using h.cwd t v hc,
    fun v hv => by simpa using h.device v hv⟩
  · obtain ⟨old, hold, rfl⟩ := Vfs.modify_some hvv
    obtain ⟨p, hp, hpar⟩ := h.parent v old hold
    refine ⟨p, by simpa using hp, ?_⟩
    split <;> exact hpar
  · obtain ⟨old, hold, rfl⟩ := Vfs.modify_some hdv
    have he' : e ∈ old.internal.entries := by
      split at he <;> exact he
    obtain ⟨hne, ev, hev, hpar⟩ := h.entry d old e hold he'
    obtain ⟨ev', hev', hpar'⟩ := hkeep e ev hev
    exact ⟨hne, ev', hev', hpar'.trans hpar⟩
  · obtain ⟨old, hold, rfl⟩ := Vfs.modify_some hmv
    by_cases heq : m = m'
    · subst heq
      cases hm.symm.trans hold
      rw [if_pos rfl] at hmount ⊢
      cases hmount
      obtain ⟨rv', hrv', hpar'⟩ := hkeep r rv hr
      exact ⟨hlt, hne, rv', hrv', hpar'.trans hpar⟩
    · rw [if_neg heq] at hmount ⊢
      obtain ⟨hlt', hne', xv, hxv, hxpar⟩ := h.mount m' old r' hold hmount
      obtain ⟨xv', hxv', hxpar'⟩ := hkeep r' xv hxv
      exact ⟨hlt', hne', xv', hxv', hxpar'.trans hxpar⟩

/-! ## Lookups -/

/-- The file system to which a vnode belongs. -/
def Internal.fs : Internal → Filesystem
  | .tmpfs _ => .tmpfs
  | .ramfs .. => .ramfs
  | .devfs _ => .devfs

/-- No vnode belongs to the devfs. -/
def NoDevfs (s : Vfs) : Prop := ∀ x ∈ s.vnodes, x.internal.fs ≠ .devfs

/-- The namespace after a lookup: vnodes of devices may have been added. -/
structure Grows (s s' : Vfs) : Prop where
  same : NoDevfs s → s' = s
  vnodes : ∃ l, s'.vnodes = s.vnodes ++ l ∧ ∀ x ∈ l, x.mount = none ∧ x.internal.fs = .devfs
  root : s'.root = s.root
  cwd : s'.cwd = s.cwd
  initrd : s'.initrd = s.initrd

theorem Grows.refl (s : Vfs) : Grows s s := ⟨fun _ => rfl, ⟨[], by simp⟩, rfl, rfl, rfl⟩

theorem Grows.trans (h : Grows s s') (h' : Grows s' s'') : Grows s s'' := by
  obtain ⟨hs, ⟨l, hl, hm⟩, hr, hc, hi⟩ := h
  obtain ⟨hs', ⟨l', hl', hm'⟩, hr', hc', hi'⟩ := h'
  refine ⟨fun hd => ?_, ⟨l ++ l', by rw [hl', hl, List.append_assoc], fun x hx => ?_⟩,
    hr'.trans hr, hc'.trans hc, hi'.trans hi⟩
  · have heq := hs hd
    rw [hs' (by rwa [heq]), heq]
  rcases List.mem_append.1 hx with hx | hx
  · exact hm x hx
  · exact hm' x hx

theorem Grows.getElem? (h : Grows s s') (hv : s.vnodes[v]? = some vv) :
    s'.vnodes[v]? = some vv := by
  obtain ⟨l, hl, -⟩ := h.vnodes
  rw [hl, List.getElem?_append_left (List.getElem?_eq_some_iff.1 hv).1, hv]

/-- A vnode after a lookup is an old one or that of a device. -/
theorem Grows.cases (h : Grows s s') (hv : s'.vnodes[v]? = some vv) :
    s.vnodes[v]? = some vv ∨
      s.vnodes.length ≤ v ∧ vv.mount = none ∧ vv.internal.fs = .devfs := by
  obtain ⟨l, hl, hm⟩ := h.vnodes
  rw [hl] at hv
  rcases Nat.lt_or_ge v s.vnodes.length with hlt | hge
  · rw [List.getElem?_append_left hlt] at hv
    exact .inl hv
  · rw [List.getElem?_append_right hge] at hv
    exact .inr ⟨hge, hm vv (List.mem_of_getElem? hv)⟩

theorem Grows.length_le (h : Grows s s') : s.vnodes.length ≤ s'.vnodes.length := by
  obtain ⟨l, hl, -⟩ := h.vnodes
  rw [hl, List.length_append]
  omega

/-- A vnode that has a parent keeps it. -/
theorem fixParent_eq (hv : s.vnodes[v]? = some vv) (hp : vv.parent ≠ none) (d : ℕ) :
    fixParent s v d = s := by
  have hmod : s.vnodes.modify v (fun x => if x.parent = none ∧ v ≠ s.root then
      { x with parent := some d } else x) = s.vnodes := by
    apply List.ext_getElem?
    intro i
    rw [List.getElem?_modify]
    by_cases hi : v = i
    · subst hi
      simp [hv, hp]
    · simp [hi]
  rw [fixParent, Vfs.modify, hmod]

theorem VfsInv.fixParent_eq (h : VfsInv s) (hv : v < s.vnodes.length) (d : ℕ) :
    fixParent s v d = s := by
  obtain ⟨p, -, hp⟩ := h.parent v _ (List.getElem?_eq_getElem hv)
  exact Files.fixParent_eq (List.getElem?_eq_getElem hv) (by simp [hp]) d

/-- A new device gets the directory in which it was looked up as its parent. -/
theorem VfsInv.newDevice {name : List Byte} {dv : Vnode} (h : VfsInv s)
    (hdv : s.vnodes[d]? = some dv) (hfs : dv.internal.fs = .devfs)
    (hv : s'.vnodes = s.vnodes ++ [devfsCreateVnode name]) (hr : s'.root = s.root)
    (hc : s'.cwd = s.cwd) (hi : s'.initrd = s.initrd)
    (hdev : ∀ v, s'.uart = some v ∨ s'.fb = some v → v ≤ s.vnodes.length) :
    VfsInv (fixParent s' s.vnodes.length d) ∧ Grows s (fixParent s' s.vnodes.length d) ∧
      s.vnodes.length < (fixParent s' s.vnodes.length d).vnodes.length := by
  have hroot := h.root_lt
  have hd := (List.getElem?_eq_some_iff.1 hdv).1
  have heq : (fixParent s' s.vnodes.length d).vnodes =
      s.vnodes ++ [⟨none, .devfs name, some d⟩] := by
    apply List.ext_getElem?
    intro i
    rw [fixParent, Vfs.modify, hv, hr, List.getElem?_modify]
    rcases Nat.lt_trichotomy i s.vnodes.length with hi | rfl | hi
    · rw [List.getElem?_append_left hi, List.getElem?_append_left hi]
      simp [(show s.vnodes.length ≠ i by omega)]
    · simp [devfsCreateVnode, hroot.ne']
    · rw [List.getElem?_eq_none (by simp; omega), List.getElem?_eq_none (by simp; omega)]
      rfl
  have hlen : (fixParent s' s.vnodes.length d).vnodes.length = s.vnodes.length + 1 := by
    rw [heq, List.length_append, List.length_singleton]
  refine ⟨?_, ⟨fun hno => (hno dv (List.mem_of_getElem? hdv) hfs).elim,
    ⟨_, heq, by simp [Internal.fs]⟩, hr, hc, hi⟩, by omega⟩
  apply h.append heq hr hc
  · intro v hv
    have := hdev v hv
    omega
  · intro i vv hi
    obtain ⟨rfl, rfl⟩ : i = 0 ∧ vv = ⟨none, .devfs name, some d⟩ := by
      cases i with
      | zero => exact ⟨rfl, by simpa using hi.symm⟩
      | succ i => simp at hi
    exact ⟨rfl, ⟨d, by omega, rfl⟩, by simp [Internal.entries]⟩

/-- The lookup of a device that is there already. -/
theorem VfsInv.oldDevice (h : VfsInv s) (hv : s.uart = some v ∨ s.fb = some v) (d : ℕ) :
    VfsInv (fixParent s v d) ∧ Grows s (fixParent s v d) ∧
      v < (fixParent s v d).vnodes.length := by
  rw [h.fixParent_eq (h.device v hv)]
  exact ⟨h, Grows.refl s, h.device v hv⟩

/-- A lookup in a directory of the devfs. -/
theorem devfsLookup_spec {dv : Vnode} (h : VfsInv s) (hd : s.vnodes[d]? = some dv)
    (hfs : dv.internal.fs = .devfs) (c : List Byte) :
    devfsLookup s c = (s, none) ∨ ∃ s' next, devfsLookup s c = (s', some next) ∧
      VfsInv (fixParent s' next d) ∧ Grows s (fixParent s' next d) ∧
      next < (fixParent s' next d).vnodes.length := by
  rw [devfsLookup]
  split
  · cases hu : s.uart with
    | some v => exact .inr ⟨s, v, rfl, h.oldDevice (.inl hu) d⟩
    | none =>
      refine .inr ⟨_, _, rfl, h.newDevice hd hfs rfl rfl rfl rfl fun v hv => ?_⟩
      rcases hv with hv | hv
      · exact (Option.some.inj hv).ge
      · exact (h.device v (.inr hv)).le
  · split
    · cases hu : s.fb with
      | some v => exact .inr ⟨s, v, rfl, h.oldDevice (.inr hu) d⟩
      | none =>
        refine .inr ⟨_, _, rfl, h.newDevice hd hfs rfl rfl rfl rfl fun v hv => ?_⟩
        rcases hv with hv | hv
        · exact (h.device v (.inl hv)).le
        · exact (Option.some.inj hv).ge
    · exact .inl rfl

/-- The entry of a directory of the tmpfs or the ramfs that a lookup finds. -/
theorem vnodeLookup_eq {dir : Internal} (hfs : dir.fs ≠ .devfs) (c : List Byte) :
    ∃ o, vnodeLookup s dir c = (s, o) ∧ ∀ e, o = some e → e ∈ dir.entries := by
  cases dir with
  | tmpfs inode =>
    rw [vnodeLookup]
    split
    · exact ⟨_, rfl, fun e he => List.mem_of_find?_eq_some he⟩
    · exact ⟨none, rfl, by simp⟩
  | ramfs type name entries data size =>
    rw [vnodeLookup]
    split
    · exact ⟨_, rfl, fun e he => List.mem_of_find?_eq_some he⟩
    · exact ⟨none, rfl, by simp⟩
  | devfs name => exact (hfs rfl).elim

/-- A component that leads on by its name. -/
def Ordinary (c : List Byte) : Prop := c ≠ [] ∧ c ≠ [0x2e] ∧ c ≠ [0x2e, 0x2e]

/-- A round of the lookup returns. -/
theorem lookupStep_spec (h : VfsInv s) (hv : v < s.vnodes.length) (hc : c.length < 255) :
    ∃ s' o, lookupStep s v c = some (s', o) ∧ VfsInv s' ∧ Grows s s' ∧
      ∀ w, o = some w → w < s'.vnodes.length := by
  obtain ⟨d, dv, hcross, hd, -⟩ := cross_spec h hv
  have hlt := (List.getElem?_eq_some_iff.1 hd).1
  rw [lookupStep, hcross, Option.bind_eq_bind, Option.bind_some, hd, Option.bind_eq_bind,
    Option.bind_some, if_neg (by omega)]
  split
  · exact ⟨s, some d, rfl, h, Grows.refl s, by simpa using hlt⟩
  · split
    · obtain ⟨p, hp, hpar⟩ := h.parent d dv hd
      exact ⟨s, _, rfl, h, Grows.refl s, by simpa [hpar] using hp⟩
    · by_cases hfs : dv.internal.fs = .devfs
      · obtain ⟨name, hname⟩ : ∃ name, dv.internal = .devfs name := by
          cases hi : dv.internal with
          | devfs name => exact ⟨name, rfl⟩
          | tmpfs | ramfs => simp [hi, Internal.fs] at hfs
        rw [hname, vnodeLookup]
        rcases devfsLookup_spec h hd hfs c with heq | ⟨s', next, heq, hinv, hgrow, hnext⟩
        · rw [heq]
          exact ⟨s, none, rfl, h, Grows.refl s, by simp⟩
        · rw [heq]
          exact ⟨_, some next, rfl, hinv, hgrow, by simpa using hnext⟩
      · obtain ⟨o, heq, ho⟩ := vnodeLookup_eq (s := s) hfs c
        rw [heq]
        cases o with
        | none => exact ⟨s, none, rfl, h, Grows.refl s, by simp⟩
        | some e =>
          obtain ⟨-, ev, hev, -⟩ := h.entry d dv e hd (ho e rfl)
          have he := (List.getElem?_eq_some_iff.1 hev).1
          refine ⟨s, some e, by simp [h.fixParent_eq he], h, Grows.refl s, by simpa using he⟩

/-- The rounds of the lookup return. -/
theorem walk_spec (h : VfsInv s) (hv : v < s.vnodes.length) {cs : List (List Byte)}
    (hc : ∀ c ∈ cs, c.length < 255) : ∃ s' o, walk s v cs = some (s', o) ∧ VfsInv s' ∧
      Grows s s' ∧ ∀ w, o = some w → w < s'.vnodes.length := by
  induction cs generalizing s v with
  | nil => exact ⟨s, some v, rfl, h, Grows.refl s, by simpa using hv⟩
  | cons c cs ih =>
    obtain ⟨s₁, o, heq, hinv, hgrow, ho⟩ := lookupStep_spec h hv (hc c (by simp))
    rw [walk, heq, Option.bind_eq_bind, Option.bind_some]
    cases o with
    | none => exact ⟨s₁, none, rfl, hinv, hgrow, by simp⟩
    | some w =>
      obtain ⟨s₂, o, heq, hinv, hgrow', ho⟩ := ih hinv (ho w rfl) fun c hm => hc c (by simp [hm])
      exact ⟨s₂, o, heq, hinv, hgrow.trans hgrow', ho⟩

theorem VfsInv.startOf_lt (h : VfsInv s) (cur : Addr) (path : List Byte) :
    startOf s cur path < s.vnodes.length := by
  rw [startOf]
  split
  · exact h.root_lt
  · cases hc : s.cwd cur with
    | none => exact h.root_lt
    | some v => exact h.cwd cur v hc

/-- A lookup whose components fit the buffer returns. -/
theorem vfsLookup_spec (h : VfsInv s) (cur : Addr) {path : List Byte}
    (hc : ∀ c ∈ components path [], c.length < 255) :
    ∃ s' o, vfsLookup s cur path = some (s', o) ∧ VfsInv s' ∧ Grows s s' ∧
      ∀ w, o = some w → ∃ wv, s'.vnodes[w]? = some wv ∧ wv.mount = none := by
  obtain ⟨s', o, heq, hinv, hgrow, ho⟩ := walk_spec h (h.startOf_lt cur path) hc
  rw [vfsLookup, heq, Option.bind_eq_bind, Option.bind_some]
  cases o with
  | none => exact ⟨s', none, rfl, hinv, hgrow, by simp⟩
  | some w =>
    obtain ⟨r, rv, hcross, hr, hm, -⟩ := cross_spec hinv (ho w rfl)
    refine ⟨s', some r, by simp [hcross], hinv, hgrow, fun w hw => ?_⟩
    cases hw
    exact ⟨rv, hr, hm⟩

/-- A round of the lookup does not return where a component does not fit. -/
theorem lookupStep_long (hc : 255 ≤ c.length) : lookupStep s v c = none := by
  rw [lookupStep]
  cases cross s v with
  | none => rfl
  | some d =>
    rw [Option.bind_eq_bind, Option.bind_some]
    cases s.vnodes[d]? with
    | none => rfl
    | some dv => simp [hc]

theorem lookupStep_some {o : Option ℕ} (h : VfsInv s) (hv : v < s.vnodes.length)
    (heq : lookupStep s v c = some (s', o)) : c.length < 255 ∧ VfsInv s' ∧ Grows s s' ∧
      ∀ w, o = some w → w < s'.vnodes.length := by
  rcases Nat.lt_or_ge c.length 255 with hc | hc
  · obtain ⟨s₁, o₁, heq₁, hspec⟩ := lookupStep_spec h hv hc
    cases heq.symm.trans heq₁
    exact ⟨hc, hspec⟩
  · rw [lookupStep_long hc] at heq
    cases heq

/-- What holds after rounds that return. -/
theorem walk_some {o : Option ℕ} {cs : List (List Byte)} (h : VfsInv s) (hv : v < s.vnodes.length)
    (heq : walk s v cs = some (s', o)) : VfsInv s' ∧ Grows s s' ∧
      ∀ w, o = some w → w < s'.vnodes.length := by
  induction cs generalizing s v with
  | nil =>
    cases heq
    exact ⟨h, Grows.refl _, by simpa using hv⟩
  | cons c cs ih =>
    rw [walk, Option.bind_eq_bind, Option.bind_eq_some_iff] at heq
    obtain ⟨⟨s₁, o₁⟩, hstep, heq⟩ := heq
    obtain ⟨-, hinv, hgrow, ho⟩ := lookupStep_some h hv hstep
    cases o₁ with
    | none =>
      cases heq
      exact ⟨hinv, hgrow, by simp⟩
    | some w =>
      obtain ⟨hinv', hgrow', ho'⟩ := ih hinv (ho w rfl) heq
      exact ⟨hinv', hgrow.trans hgrow', ho'⟩

/-- What holds after a lookup that returns. -/
theorem vfsLookup_some {o : Option ℕ} {cur : Addr} {path : List Byte} (h : VfsInv s)
    (heq : vfsLookup s cur path = some (s', o)) : VfsInv s' ∧ Grows s s' ∧
      ∀ w, o = some w → ∃ wv, s'.vnodes[w]? = some wv ∧ wv.mount = none := by
  rw [vfsLookup, Option.bind_eq_bind, Option.bind_eq_some_iff] at heq
  obtain ⟨⟨s₁, o₁⟩, hwalk, heq⟩ := heq
  obtain ⟨hinv, hgrow, ho⟩ := walk_some h (h.startOf_lt cur path) hwalk
  cases o₁ with
  | none =>
    cases heq
    exact ⟨hinv, hgrow, by simp⟩
  | some w =>
    obtain ⟨r, rv, hcross, hr, hm, -⟩ := cross_spec hinv (ho w rfl)
    simp only [hcross, Option.bind_eq_bind, Option.bind_some] at heq
    cases heq
    refine ⟨hinv, hgrow, fun w hw => ?_⟩
    cases hw
    exact ⟨rv, hr, hm⟩

/-! ## Steps -/

/-- Vnodes numbered from `n` on that refer to each other as parents and entries; others than
them have the parent `parent`. -/
def LaidOut (n : ℕ) (parent : Option ℕ) (l : List Vnode) : Prop :=
  ∀ (i : ℕ) (vv : Vnode), l[i]? = some vv → vv.mount = none ∧ vv.internal.fs = .ramfs ∧
    (vv.parent = parent ∨ ∃ j < l.length, vv.parent = some (n + j)) ∧
    ∀ e ∈ vv.internal.entries, ∃ j ev, e = n + j ∧ l[j]? = some ev ∧ ev.parent = some (n + i)

theorem LaidOut.append {n : ℕ} {parent : Option ℕ} {l m : List Vnode} (h : LaidOut n parent l)
    (hm : LaidOut (n + l.length) parent m) : LaidOut n parent (l ++ m) := by
  intro i vv hi
  have hlen : (l ++ m).length = l.length + m.length := List.length_append
  rcases Nat.lt_or_ge i l.length with hlt | hge
  · rw [List.getElem?_append_left hlt] at hi
    obtain ⟨hmount, hfs, hpar, he⟩ := h i vv hi
    refine ⟨hmount, hfs, hpar.imp_right fun ⟨j, hj, hp⟩ => ⟨j, by omega, hp⟩, fun e hmem => ?_⟩
    obtain ⟨j, ev, heq, hj, hpar⟩ := he e hmem
    exact ⟨j, ev, heq, by rw [List.getElem?_append_left (List.getElem?_eq_some_iff.1 hj).1, hj],
      hpar⟩
  · rw [List.getElem?_append_right hge] at hi
    obtain ⟨hmount, hfs, hpar, he⟩ := hm _ vv hi
    refine ⟨hmount, hfs, hpar.imp_right fun ⟨j, hj, hp⟩ => ⟨l.length + j, by omega,
      by rw [hp, Nat.add_assoc]⟩, fun e hmem => ?_⟩
    obtain ⟨j, ev, heq, hj, hpar⟩ := he e hmem
    refine ⟨l.length + j, ev, by omega, ?_, by rw [hpar]; congr 1; omega⟩
    rw [List.getElem?_append_right (by omega), Nat.add_sub_cancel_left, hj]

mutual

theorem length_layout (n : ℕ) (parent : Option ℕ) (t : RamfsInode) :
    (layout n parent t).length = t.count := by
  cases t with
  | mk type name entries data size =>
    rw [layout, List.length_cons, length_layoutAll, RamfsInode.count]

theorem length_layoutAll (n : ℕ) (parent : Option ℕ) (ts : List RamfsInode) :
    (layoutAll n parent ts).length = countAll ts := by
  cases ts with
  | nil => rfl
  | cons t ts => rw [layoutAll, List.length_append, length_layout, length_layoutAll, countAll]

end

/-- The root of a tree comes first. -/
theorem layout_head (n : ℕ) (parent : Option ℕ) (t : RamfsInode) :
    ∃ rv, (layout n parent t)[0]? = some rv ∧ rv.parent = parent := by
  cases t with
  | mk type name entries data size => exact ⟨_, by rw [layout, List.getElem?_cons_zero], rfl⟩

/-- The roots of several trees are at their offsets. -/
theorem mem_offsets {n e : ℕ} (parent : Option ℕ) {ts : List RamfsInode} (he : e ∈ offsets n ts) :
    ∃ j ev, e = n + j ∧ (layoutAll n parent ts)[j]? = some ev ∧ ev.parent = parent := by
  induction ts generalizing n with
  | nil => cases he
  | cons t ts ih =>
    have hlen := length_layout n parent t
    rcases List.mem_cons.1 he with rfl | he
    · obtain ⟨rv, hrv, hpar⟩ := layout_head e parent t
      refine ⟨0, rv, rfl, ?_, hpar⟩
      rw [layoutAll, List.getElem?_append_left (List.getElem?_eq_some_iff.1 hrv).1, hrv]
    · obtain ⟨j, ev, rfl, hj, hpar⟩ := ih he
      refine ⟨t.count + j, ev, by omega, ?_, hpar⟩
      rw [layoutAll, List.getElem?_append_right (by omega), hlen, Nat.add_sub_cancel_left, hj]

mutual

theorem laidOut_layout (n : ℕ) (parent : Option ℕ) (t : RamfsInode) :
    LaidOut n parent (layout n parent t) := by
  cases t with
  | mk type name entries data size =>
    intro i vv hi
    rw [layout] at hi ⊢
    cases i with
    | zero =>
      rw [List.getElem?_cons_zero] at hi
      cases hi
      refine ⟨rfl, rfl, .inl rfl, fun e he => ?_⟩
      obtain ⟨j, ev, rfl, hj, hpar⟩ := mem_offsets (some n) he
      exact ⟨j + 1, ev, by omega, by rw [List.getElem?_cons_succ, hj], hpar⟩
    | succ i =>
      rw [List.getElem?_cons_succ] at hi
      obtain ⟨hmount, hfs, hpar, he⟩ := laidOut_layoutAll (n + 1) (some n) entries i vv hi
      refine ⟨hmount, hfs, .inr ?_, fun e hmem => ?_⟩
      · rcases hpar with hpar | ⟨j, hj, hpar⟩
        · exact ⟨0, Nat.succ_pos _, hpar⟩
        · exact ⟨j + 1, Nat.succ_lt_succ hj, by rw [hpar]; congr 1; omega⟩
      · obtain ⟨j, ev, rfl, hj, hpar⟩ := he e hmem
        exact ⟨j + 1, ev, by omega, by rw [List.getElem?_cons_succ, hj],
          by rw [hpar]; congr 1; omega⟩

theorem laidOut_layoutAll (n : ℕ) (parent : Option ℕ) (ts : List RamfsInode) :
    LaidOut n parent (layoutAll n parent ts) := by
  cases ts with
  | nil =>
    intro i vv hi
    rw [layoutAll, List.getElem?_nil] at hi
    cases hi
  | cons t ts =>
    rw [layoutAll]
    apply (laidOut_layout n parent t).append
    rw [length_layout]
    exact laidOut_layoutAll (n + t.count) parent ts

end

/-- Setting the parent of the root of a tree. -/
theorem modify_layout (n p : ℕ) (t : RamfsInode) :
    (layout n none t).modify 0 (fun x => { x with parent := some p }) = layout n (some p) t := by
  cases t with
  | mk type name entries data size => rw [layout, List.modify_zero_cons, layout]

/-- The vnodes of a new mount whose root has the parent `p`. -/
def rooted (new : List Vnode) (p : ℕ) : List Vnode :=
  new.modify 0 fun x => { x with parent := some p }

/-- What a mount adds: its root is first, and the vnodes are those of the file system. -/
theorem setupMount_spec {fs : Filesystem} {new : List Vnode} (hs : setupMount s fs = some new)
    (p : ℕ) : (∃ rv, (rooted new p)[0]? = some rv ∧ rv.parent = some p) ∧
      ∀ (i : ℕ) (vv : Vnode), (rooted new p)[i]? = some vv → vv.mount = none ∧
        vv.internal.fs = fs ∧
        (vv.parent = some p ∨ ∃ j < (rooted new p).length, vv.parent = some (s.vnodes.length + j)) ∧
        ∀ e ∈ vv.internal.entries, ∃ j ev, e = s.vnodes.length + j ∧ (rooted new p)[j]? = some ev ∧
          ev.parent = some (s.vnodes.length + i) := by
  cases fs with
  | tmpfs =>
    cases hs
    refine ⟨⟨_, rfl, rfl⟩, fun i vv hi => ?_⟩
    cases i with
    | zero =>
      cases hi
      exact ⟨rfl, rfl, .inl rfl, by simp [Internal.entries, tmpfsCreateVnode]⟩
    | succ i => cases hi
  | ramfs =>
    obtain ⟨t, -, rfl⟩ := Option.map_eq_some_iff.1 hs
    rw [rooted, modify_layout]
    exact ⟨layout_head _ _ t, laidOut_layout _ _ t⟩
  | devfs =>
    cases hs
    refine ⟨⟨_, rfl, rfl⟩, fun i vv hi => ?_⟩
    cases i with
    | zero =>
      cases hi
      exact ⟨rfl, rfl, .inl rfl, by simp [Internal.entries, devfsCreateVnode]⟩
    | succ i => cases hi

/-- The inode of a directory with a vnode in the slot `i`. -/
def TmpfsVnode.withEntry (inode : TmpfsVnode) (i : Fin 16) (v : ℕ) : TmpfsVnode :=
  { inode with entry := Function.update inode.entry i (some v) }

theorem TmpfsVnode.withEntry_self (inode : TmpfsVnode) (i : Fin 16) (v : ℕ) :
    (inode.withEntry i v).entry i = some v :=
  Function.update_self ..

theorem TmpfsVnode.withEntry_of_ne (inode : TmpfsVnode) {i j : Fin 16} (h : j ≠ i) (v : ℕ) :
    (inode.withEntry i v).entry j = inode.entry j :=
  Function.update_of_ne h ..

/-- The state with a new vnode in the slot `i` of the directory `d`. -/
def Vfs.addEntry (s : Vfs) (d : ℕ) (inode : TmpfsVnode) (i : Fin 16) (type : FsnodeType)
    (name : List Byte) : Vfs :=
  (s.push ⟨none, .tmpfs (tmpfsCreateVnode type name), some d⟩).modify d fun v =>
    { v with internal := .tmpfs (inode.withEntry i s.vnodes.length) }

/-- The state with a mount on the vnode `m`. -/
def Vfs.addMount (s : Vfs) (m : ℕ) (new : List Vnode) (p : ℕ) : Vfs :=
  { s with vnodes := s.vnodes ++ rooted new p }.modify m fun v =>
    { v with mount := some s.vnodes.length }

end BareMetalOS.Files
