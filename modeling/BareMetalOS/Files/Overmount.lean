import BareMetalOS.Files.Mounts

/-!
# What a mount redirects

A mount of the tmpfs writes one pointer: the vnode it covers gets the root of the mount. The rounds
of a lookup in the states before and after are related by where they are below the mounts (`Sim`):
the same vnode, or the new root for the covered vnode. This holds as long as the lookup before does
not look an ordinary component up in the covered vnode (`LooksUp`), which the mount hides.
-/

namespace BareMetalOS.Files

open Memory (Addr)
open Boot (Byte cstr)

variable {s s' s₁ : Vfs} {cur : Addr} {v v' w w' x : ℕ} {c path : List Byte} {cs : List (List Byte)}

/-- The rounds of a lookup from `v` come by the vnode `x`. -/
inductive Visits : Vfs → ℕ → List (List Byte) → ℕ → Prop
  | chain {s : Vfs} {v x : ℕ} {cs : List (List Byte)}
    (h : Relation.ReflTransGen (Covered s) v x) : Visits s v cs x
  | round {s s' : Vfs} {v w x : ℕ} {c : List Byte} {cs : List (List Byte)}
    (hstep : lookupStep s v c = some (s', some w)) (h : Visits s' w cs x) : Visits s v (c :: cs) x

/-- The rounds of a lookup from `v` look a component other than `.` and `..` up in `x`. -/
inductive LooksUp : Vfs → ℕ → List (List Byte) → ℕ → Prop
  | here {s : Vfs} {v x : ℕ} {c : List Byte} {cs : List (List Byte)} (h : cross s v = some x)
    (hdot : c ≠ [0x2e]) (hdotdot : c ≠ [0x2e, 0x2e]) : LooksUp s v (c :: cs) x
  | round {s s' : Vfs} {v w x : ℕ} {c : List Byte} {cs : List (List Byte)}
    (hstep : lookupStep s v c = some (s', some w)) (h : LooksUp s' w cs x) :
    LooksUp s v (c :: cs) x

theorem LooksUp.visits (h : LooksUp s v cs x) (hinv : VfsInv s) (hv : v < s.vnodes.length) :
    Visits s v cs x := by
  induction h with
  | here h =>
    obtain ⟨-, -, -, hchain⟩ := cross_some hinv hv h
    exact .chain hchain
  | round hstep _ ih =>
    obtain ⟨-, hinv', -, hw⟩ := lookupStep_some hinv hv hstep
    exact .round hstep (ih hinv' (hw _ rfl))

/-- A lookup comes by the vnode that it finds. -/
theorem visits_of_walk (hinv : VfsInv s) (hv : v < s.vnodes.length)
    (hwalk : walk s v cs = some (s', some w)) (hx : cross s' w = some x) : Visits s v cs x := by
  induction cs generalizing s v with
  | nil =>
    cases hwalk
    obtain ⟨-, -, -, hchain⟩ := cross_some hinv hv hx
    exact .chain hchain
  | cons c cs ih =>
    rw [walk, Option.bind_eq_bind, Option.bind_eq_some_iff] at hwalk
    obtain ⟨⟨s₁, o⟩, hstep, hwalk⟩ := hwalk
    obtain ⟨-, hinv₁, -, ho⟩ := lookupStep_some hinv hv hstep
    cases o with
    | none => cases hwalk
    | some u => exact .round hstep (ih hinv₁ (ho u rfl) hwalk)

/-- A last component `..` is not looked up. -/
theorem LooksUp.of_append (h : LooksUp s v (cs ++ [[0x2e, 0x2e]]) x) : LooksUp s v cs x := by
  induction cs generalizing s v with
  | nil =>
    cases h with
    | here _ _ hdd => exact (hdd rfl).elim
    | round _ h => cases h
  | cons c cs ih =>
    cases h with
    | here h hdot hdd => exact .here h hdot hdd
    | round hstep h => exact .round hstep (ih h)

/-! ## The state after the mount -/

/-- The state `s'` is the state `s` after a mount of the tmpfs on `m`, whose root is `r`. -/
structure Mounted (s s' : Vfs) (m r : ℕ) : Prop where
  inv : VfsInv s
  inv' : VfsInv s'
  noDevfs : NoDevfs s
  noDevfs' : NoDevfs s'
  fresh : r = s.vnodes.length
  root : s'.root = s.root
  cwd : s'.cwd = s.cwd
  old : ∀ (v : ℕ) (vv : Vnode), s.vnodes[v]? = some vv →
    s'.vnodes[v]? = some (if m = v then { vv with mount := some r } else vv)
  covered : ∃ mv, s.vnodes[m]? = some mv ∧ mv.mount = none ∧ ∃ rv, s'.vnodes[r]? = some rv ∧
    rv.mount = none ∧ rv.internal = .tmpfs (tmpfsCreateVnode .fsDir []) ∧
    rv.parent = if m = s.root then some r else mv.parent

/-- A vnode with the covered one replaced by the new root. -/
def redirect (m r x : ℕ) : ℕ := if x = m then r else x

variable {m r : ℕ}

theorem Mounted.lt (h : Mounted s s' m r) : m < r := by
  obtain ⟨mv, hm, -⟩ := h.covered
  rw [h.fresh]
  exact (List.getElem?_eq_some_iff.1 hm).1

theorem Mounted.cross_root (h : Mounted s s' m r) : cross s' r = some r := by
  obtain ⟨-, -, -, rv, hr, hm, -⟩ := h.covered
  exact cross_self h.inv' hr hm

theorem Mounted.chain (h : Mounted s s' m r) (hc : Relation.ReflTransGen (Covered s) v x) :
    Relation.ReflTransGen (Covered s') v x := by
  refine Relation.ReflTransGen.mono (fun a b hab => ?_) _ _ hc
  obtain ⟨av, ha, hb⟩ := hab
  obtain ⟨mv, hm, hnone, -⟩ := h.covered
  refine ⟨_, h.old a av ha, ?_⟩
  rw [if_neg]
  · exact hb
  · rintro rfl
    cases hm.symm.trans ha
    rw [hnone] at hb
    cases hb

/-- The loop over the mounts ends at the same vnode, or at the new root. -/
theorem Mounted.cross (h : Mounted s s' m r) (hx : cross s v = some x)
    (hv : v < s.vnodes.length) : cross s' v = some (redirect m r x) := by
  obtain ⟨xv, hxv, hnone, hchain⟩ := cross_some h.inv hv hx
  have hv' : v < s'.vnodes.length := (List.getElem?_eq_some_iff.1
    (h.old v _ (List.getElem?_eq_getElem hv))).1
  have hx' := h.old x xv hxv
  rw [redirect]
  split
  · subst x
    obtain ⟨mv, hm, -, rv, hr, hrm, -⟩ := h.covered
    rw [if_pos rfl] at hx'
    exact cross_eq h.inv' hv' ((h.chain hchain).tail ⟨_, hx', rfl⟩) hr hrm
  · rename_i hne
    rw [if_neg (Ne.symm hne)] at hx'
    exact cross_eq h.inv' hv' (h.chain hchain) hx' hnone

/-- The names of the old vnodes are the same. -/
theorem Mounted.nameOf (h : Mounted s s' m r) (hv : v < s.vnodes.length) :
    s'.nameOf v = s.nameOf v := by
  have hvv := List.getElem?_eq_getElem hv
  have hint : (s'.vnodes[v]?).map Vnode.internal = (s.vnodes[v]?).map Vnode.internal := by
    rw [hvv, h.old v _ hvv]
    split <;> rfl
  rw [Vfs.nameOf, Vfs.nameOf, hint]

/-- So are the lookups in the old directories. -/
theorem Mounted.vnodeLookup (h : Mounted s s' m r) {xv : Vnode} (hx : s.vnodes[x]? = some xv)
    (c : List Byte) : (vnodeLookup s' xv.internal c).2 = (vnodeLookup s xv.internal c).2 := by
  have hname : ∀ e ∈ xv.internal.entries, decide (s'.nameOf e = some c) =
      decide (s.nameOf e = some c) := by
    intro e he
    obtain ⟨-, ev, hev, -⟩ := h.inv.entry x xv e hx he
    rw [h.nameOf (List.getElem?_eq_some_iff.1 hev).1]
  have hfind := List.find?_congr hname
  have hfs := h.noDevfs xv (List.mem_of_getElem? hx)
  cases hi : xv.internal with
  | tmpfs inode =>
    rw [hi] at hfind
    simp only [Files.vnodeLookup]
    split
    · exact hfind
    · rfl
  | ramfs type name entries data size =>
    rw [hi] at hfind
    simp only [Files.vnodeLookup]
    split
    · exact hfind
    · rfl
  | devfs name =>
    rw [hi] at hfs
    exact (hfs rfl).elim

/-! ## Lookups before and after -/

/-- Below the mounts, `v'` after the mount is where `v` was before, or the new root. -/
def Sim (s s' : Vfs) (m r v v' : ℕ) : Prop :=
  v < s.vnodes.length ∧ v' < s'.vnodes.length ∧
    ∀ x, Files.cross s v = some x → Files.cross s' v' = some (redirect m r x)

theorem Mounted.sim_self (h : Mounted s s' m r) (hv : v < s.vnodes.length) : Sim s s' m r v v :=
  ⟨hv, (List.getElem?_eq_some_iff.1 (h.old v _ (List.getElem?_eq_getElem hv))).1,
    fun _ hx => h.cross hx hv⟩

theorem Mounted.sim_root (h : Mounted s s' m r) : Sim s s' m r m r := by
  obtain ⟨mv, hm, hnone, rv, hr, -⟩ := h.covered
  refine ⟨(List.getElem?_eq_some_iff.1 hm).1, (List.getElem?_eq_some_iff.1 hr).1, fun x hx => ?_⟩
  cases hx.symm.trans (cross_self h.inv hm hnone)
  rw [h.cross_root, redirect, if_pos rfl]

/-- The rounds are at related vnodes, or have both failed. -/
def SimResult (s s' : Vfs) (m r : ℕ) : Option ℕ → Option ℕ → Prop
  | none, none => True
  | some v, some v' => Sim s s' m r v v'
  | _, _ => False

/-- A round that looks nothing up in the covered vnode. -/
theorem Mounted.lookupStep (h : Mounted s s' m r) (hs : Sim s s' m r v v')
    (hlen : c.length < 255) (hl : ∀ x, Files.cross s v = some x → c ≠ [0x2e] →
      c ≠ [0x2e, 0x2e] → x ≠ m) : ∃ o o', Files.lookupStep s v c = some (s, o) ∧
      Files.lookupStep s' v' c = some (s', o') ∧ SimResult s s' m r o o' := by
  obtain ⟨hv, hv', hcross'⟩ := hs
  obtain ⟨x, xv, hcross, hx, hnone, -⟩ := cross_spec h.inv hv
  have hstep := lookupStep_eq h.inv hcross hx (h.noDevfs xv (List.mem_of_getElem? hx)) hlen
  refine ⟨nextOf s x xv c, ?_⟩
  by_cases hxm : x = m
  · -- the covered vnode: the component is one of the two that are not looked up
    subst hxm
    obtain ⟨mv, hm, -, rv, hr, hrm, hint, hpar⟩ := h.covered
    cases hx.symm.trans hm
    obtain ⟨q, hq, hqpar⟩ := h.inv.parent x xv hx
    have hcr := hcross' x hcross
    rw [redirect, if_pos rfl] at hcr
    have hstep' := lookupStep_eq h.inv' hcr hr (h.noDevfs' rv (List.mem_of_getElem? hr)) hlen
    refine ⟨_, hstep, hstep', ?_⟩
    by_cases hdot : c = [0x2e]
    · simp only [nextOf, if_pos hdot]
      exact h.sim_root
    · by_cases hdd : c = [0x2e, 0x2e]
      · simp only [nextOf, if_neg hdot, if_pos hdd]
        rw [hpar, hqpar]
        split
        · rename_i hroot
          obtain ⟨xv', hx', hself⟩ := h.inv.root
          rw [← hroot] at hx' hself
          cases hx.symm.trans hx'
          cases hqpar.symm.trans hself
          exact h.sim_root
        · exact h.sim_self hq
      · exact (hl x hcross hdot hdd rfl).elim
  · have hx' := h.old x xv hx
    rw [if_neg (Ne.symm hxm)] at hx'
    have hcr := hcross' x hcross
    rw [redirect, if_neg hxm] at hcr
    have hstep' := lookupStep_eq h.inv' hcr hx' (h.noDevfs' xv (List.mem_of_getElem? hx')) hlen
    have hnext : nextOf s' x xv c = nextOf s x xv c := by
      rw [nextOf, nextOf, h.vnodeLookup hx]
    refine ⟨_, hstep, hstep', ?_⟩
    rw [hnext]
    cases ho : nextOf s x xv c with
    | none => trivial
    | some w =>
      obtain ⟨-, -, -, hw⟩ := lookupStep_some h.inv hv hstep
      exact h.sim_self (hw w ho)

/-- Rounds that look nothing up in the covered vnode. -/
theorem Mounted.walk {o : Option ℕ} (h : Mounted s s' m r) (hs : Sim s s' m r v v')
    (hl : ¬ LooksUp s v cs m) (heq : Files.walk s v cs = some (s₁, o)) :
    s₁ = s ∧ ∃ o', Files.walk s' v' cs = some (s', o') ∧ SimResult s s' m r o o' := by
  induction cs generalizing v v' with
  | nil =>
    cases heq
    exact ⟨rfl, some v', rfl, hs⟩
  | cons c cs ih =>
    rw [Files.walk, Option.bind_eq_bind, Option.bind_eq_some_iff] at heq
    obtain ⟨⟨s₂, o₂⟩, hstep₂, heq⟩ := heq
    obtain ⟨hlen, -⟩ := lookupStep_some h.inv hs.1 hstep₂
    obtain ⟨o, o', hstep, hstep', hsim⟩ := h.lookupStep hs hlen fun x hx hdot hdd hxm =>
      hl (.here (hxm ▸ hx) hdot hdd)
    cases hstep₂.symm.trans hstep
    rw [Files.walk, hstep', Option.bind_eq_bind, Option.bind_some]
    cases o₂ with
    | none =>
      cases o' with
      | none =>
        cases heq
        exact ⟨rfl, none, rfl, trivial⟩
      | some w' => exact hsim.elim
    | some w =>
      cases o' with
      | none => exact hsim.elim
      | some w' => exact ih hsim (fun hl' => hl (.round hstep hl')) heq

/-- A lookup that looks nothing up in the covered vnode finds the same vnode, or the new root for
the covered one. -/
theorem Mounted.vfsLookup {o : Option ℕ} (h : Mounted s s' m r)
    (hl : ¬ LooksUp s (startOf s cur path) (components path []) m)
    (heq : Files.vfsLookup s cur path = some (s₁, o)) :
    Files.vfsLookup s' cur path = some (s', o.map (redirect m r)) := by
  have hstart : startOf s' cur path = startOf s cur path := by
    rw [startOf, startOf, h.root, h.cwd]
  obtain ⟨o', hwalk, hres⟩ := vfsLookup_eq_some.1 heq
  obtain ⟨rfl, o'', hwalk', hsim⟩ := h.walk (h.sim_self (h.inv.startOf_lt cur path)) hl hwalk
  apply vfsLookup_eq_some.2
  rw [hstart]
  rcases hres with ⟨rfl, rfl⟩ | ⟨v, w, rfl, rfl, hcross⟩
  · cases o'' with
    | none => exact ⟨none, hwalk', .inl ⟨rfl, rfl⟩⟩
    | some v' => exact hsim.elim
  · cases o'' with
    | none => exact hsim.elim
    | some v' => exact ⟨some v', hwalk', .inr ⟨v', _, rfl, rfl, hsim.2.2 w hcross⟩⟩

/-! ## The mount -/

/-- What a mount of the tmpfs that succeeds does. -/
theorem vfsMount_mounted {target : List Byte} (h : VfsInv s) (hd : NoDevfs s)
    (heq : vfsMount s cur target (some .tmpfs) = some (s', true)) :
    ∃ m, Files.vfsLookup s cur target = some (s, some m) ∧ Mounted s s' m s.vnodes.length := by
  have hexec : s.exec (.mount cur target (some .tmpfs)) = some s' := by
    rw [Vfs.exec, heq]
    rfl
  have hstep := exec_step h hexec
  have hd' := hstep.noDevfs hd (by simp [VfsOp.mounts])
  rcases vfsMount_step h heq with ⟨hb, -⟩ | ⟨s₁, m, mv, new, p, fs, -, hfs, hlook, hm, hnone, hnew,
    hp, rfl⟩
  · cases hb
  obtain ⟨-, hgrow, -⟩ := vfsLookup_some h hlook
  cases hgrow.same hd
  cases hfs
  cases hnew
  have hmlt := (List.getElem?_eq_some_iff.1 hm).1
  refine ⟨m, hlook, h, hstep.inv, hd, hd', rfl, rfl, rfl, fun v vv hv => ?_, mv, hm, hnone, ?_⟩
  · apply Vfs.modify_getElem?
    rw [List.getElem?_append_left (List.getElem?_eq_some_iff.1 hv).1, hv]
  · refine ⟨⟨none, .tmpfs (tmpfsCreateVnode .fsDir []), some p⟩, ?_, rfl, rfl, ?_⟩
    · have hroot : (s.vnodes ++ rooted [⟨none, .tmpfs (tmpfsCreateVnode .fsDir []), none⟩] p)[
          s.vnodes.length]? = some ⟨none, .tmpfs (tmpfsCreateVnode .fsDir []), some p⟩ := by
        rw [List.getElem?_append_right le_rfl, Nat.sub_self]
        rfl
      refine (Vfs.modify_getElem? hroot).trans ?_
      rw [if_neg hmlt.ne]
    · split at hp
      · rw [if_pos ‹_›, hp]
      · rw [if_neg ‹_›, hp]

/-- Nothing is added to the directory `d`. -/
def NeverAdds (d : ℕ) : Vfs → List VfsOp → Prop
  | _, [] => True
  | s, op :: ops => (∀ name, op.adds s ≠ some (d, name)) ∧
      ∀ s', s.exec op = some s' → NeverAdds d s' ops

/-- A vnode to which nothing is added keeps its inode. -/
theorem VfsStep.internal_eq {op : VfsOp} {vv : Vnode} (h : VfsStep s op s')
    (hadds : ∀ name, op.adds s ≠ some (v, name)) (hv : s.vnodes[v]? = some vv) :
    ∃ vv', s'.vnodes[v]? = some vv' ∧ vv'.internal = vv.internal := by
  cases h with
  | look _ hgrow => exact ⟨vv, hgrow.getElem? hv, rfl⟩
  | cwd s₁ hgrow => exact ⟨vv, hgrow.getElem? hv, rfl⟩
  | add s₁ hgrow _ d dv inode i type name hadd =>
    have hne : d ≠ v := by
      rintro rfl
      exact hadds name hadd
    have hv₁ := hgrow.getElem? hv
    have hpush : (s₁.push ⟨none, .tmpfs (tmpfsCreateVnode type name), some d⟩).vnodes[v]? =
        some vv := by
      rw [Vfs.push, List.getElem?_append_left (List.getElem?_eq_some_iff.1 hv₁).1, hv₁]
    exact ⟨vv, (Vfs.modify_getElem? hpush).trans (by rw [if_neg hne]), rfl⟩
  | mount s₁ hgrow _ _ fs _ m mv new p =>
    have hv₁ := hgrow.getElem? hv
    have happ : (s₁.vnodes ++ rooted new p)[v]? = some vv := by
      rw [List.getElem?_append_left (List.getElem?_eq_some_iff.1 hv₁).1, hv₁]
    refine ⟨_, Vfs.modify_getElem? happ, ?_⟩
    split <;> rfl

theorem run_internal_eq {ops : List VfsOp} {vv : Vnode} (h : VfsInv s) (hadds : NeverAdds v s ops)
    (hv : s.vnodes[v]? = some vv) (hrun : s.run ops = some s') :
    ∃ vv', s'.vnodes[v]? = some vv' ∧ vv'.internal = vv.internal := by
  induction ops generalizing s vv with
  | nil =>
    cases hrun
    exact ⟨vv, hv, rfl⟩
  | cons op ops ih =>
    rw [Vfs.run, Option.bind_eq_bind, Option.bind_eq_some_iff] at hrun
    obtain ⟨s₁, hexec, hrun⟩ := hrun
    have hs := exec_step h hexec
    obtain ⟨v₁, hv₁, hint₁⟩ := hs.internal_eq hadds.1 hv
    obtain ⟨v₂, hv₂, hint₂⟩ := ih hs.inv (hadds.2 s₁ hexec) hv₁ hrun
    exact ⟨v₂, hv₂, hint₂.trans hint₁⟩

/-- **Main.** Let a run from `vfs_init` mount no devfs, and a mount of the tmpfs on `target` succeed
after it; let `m` be the vnode that it covers and `r` the root of the mount. Lookups in `r` fail
until something is added to it. If the lookup of `target` looked no ordinary component up in `m`,
then `target` resolves to `r` afterwards, `target` with an ordinary component does not resolve, and
`target` with `..` resolves as before, or to `r` where it resolved to `m`. Every path that did not
come by `m` resolves as before. -/
theorem mount_redirects (initrd : Option RamfsInode) (ops : List VfsOp) (s s' : Vfs) (cur : Addr)
    (target : List Byte) (hops : ∀ op ∈ ops, op.mounts ≠ some .devfs)
    (hrun : (Vfs.rootfs initrd).run ops = some s)
    (hmount : vfsMount s cur target (some .tmpfs) = some (s', true)) :
    ∃ m r, vfsLookup s cur target = some (s, some m) ∧ s.vnodes.length ≤ r ∧
      (∀ ops' s'' rv c, s'.run ops' = some s'' → NeverAdds r s' ops' →
        s''.vnodes[r]? = some rv → vnodeLookup s'' rv.internal c = (s'', none)) ∧
      (¬ LooksUp s (startOf s cur target) (components target []) m →
        vfsLookup s' cur target = some (s', some r) ∧
        (∀ c, Ordinary c → 0x2f ∉ c → c.length ≤ 254 →
          vfsLookup s' cur (join target c) = some (s', none)) ∧
        ∀ Q, vfsLookup s cur (join target [0x2e, 0x2e]) = some (s, some Q) →
          vfsLookup s' cur (join target [0x2e, 0x2e]) = some (s', some (if Q = m then r else Q))) ∧
      ∀ cur' path s₁ o, vfsLookup s cur' path = some (s₁, o) →
        ¬ Visits s (startOf s cur' path) (components path []) m →
        vfsLookup s' cur' path = some (s', o) := by
  have hinv := run_inv (rootfs_inv initrd) hrun
  have hno := run_noDevfs (rootfs_inv initrd) (rootfs_noDevfs initrd) hops hrun
  obtain ⟨m, hlook, h⟩ := vfsMount_mounted hinv hno hmount
  obtain ⟨mv, -, -, rv, hrv, hrm, hrint, -⟩ := h.covered
  refine ⟨m, s.vnodes.length, hlook, le_rfl, ?_, fun hl => ⟨?_, ?_, ?_⟩, ?_⟩
  · intro ops' s'' rv'' c hrun' hadds hrv''
    obtain ⟨rv', hrv', hint⟩ := run_internal_eq h.inv' hadds hrv hrun'
    cases hrv''.symm.trans hrv'
    rw [hint, hrint]
    simp [vnodeLookup, Internal.entries, tmpfsCreateVnode]
  · have hres := h.vfsLookup hl hlook
    rwa [Option.map_some, redirect, if_pos rfl] at hres
  · intro c hc hslash hlen
    have hres := h.vfsLookup hl hlook
    rw [Option.map_some, redirect, if_pos rfl] at hres
    obtain ⟨o, hwalk, ⟨-, hnone⟩ | ⟨v, w, rfl, hw, hcross⟩⟩ := vfsLookup_eq_some.1 hres
    · cases hnone
    cases hw
    have hstep := lookupStep_eq h.inv' hcross hrv (h.noDevfs' rv (List.mem_of_getElem? hrv))
      (Nat.lt_succ_of_le hlen)
    have hnext : nextOf s' s.vnodes.length rv c = none := by
      rw [nextOf, if_neg hc.2.1, if_neg hc.2.2, hrint]
      simp [vnodeLookup, Internal.entries, tmpfsCreateVnode]
    apply vfsLookup_eq_some.2
    refine ⟨none, ?_, .inl ⟨rfl, rfl⟩⟩
    rw [walk_join ⟨hc.1, hslash⟩ hwalk, hstep, hnext]
  · intro Q hQ
    have hcomp := components_join isComponent_dotdot target
    have hl' : ¬ LooksUp s (startOf s cur (join target [0x2e, 0x2e]))
        (components (join target [0x2e, 0x2e]) []) m := by
      rw [startOf_join isComponent_dotdot, hcomp]
      exact fun hlu => hl hlu.of_append
    exact h.vfsLookup hl' hQ
  · intro cur' path s₁ o heq hvis
    have hstart := hinv.startOf_lt cur' path
    have hres := h.vfsLookup (fun hlu => hvis (hlu.visits hinv hstart)) heq
    obtain ⟨o', hwalk, ⟨-, rfl⟩ | ⟨v, w, rfl, rfl, hcross⟩⟩ := vfsLookup_eq_some.1 heq
    · exact hres
    · have hne : w ≠ m := by
        rintro rfl
        exact hvis (visits_of_walk hinv hstart hwalk hcross)
      rwa [Option.map_some, redirect, if_neg hne] at hres

/-- A mount on the directory `/a`: afterwards it resolves to a vnode that was not there before. -/
theorem mount_redirects_directory : ∃ s s' r,
    (Vfs.rootfs none).run [.mkdir 0 [0x2f, 0x61]] = some s ∧
    vfsMount s 0 [0x2f, 0x61] (some .tmpfs) = some (s', true) ∧ s.vnodes.length ≤ r ∧
    vfsLookup s' 0 [0x2f, 0x61] = some (s', some r) := by
  obtain ⟨s, hs⟩ : ∃ s, (Vfs.rootfs none).run [.mkdir 0 [0x2f, 0x61]] = some s :=
    Option.isSome_iff_exists.1 (by decide +kernel)
  have hm : ((Vfs.rootfs none).run [.mkdir 0 [0x2f, 0x61]]).bind (fun s =>
      (vfsMount s 0 [0x2f, 0x61] (some .tmpfs)).map Prod.snd) = some true := by
    decide +kernel
  have hpath : ((Vfs.rootfs none).run [.mkdir 0 [0x2f, 0x61]]).bind (fun s =>
      (vfsLookup s 0 [0x2f, 0x61]).map Prod.snd) = some (some 1) := by
    decide +kernel
  have hroot : ((Vfs.rootfs none).run [.mkdir 0 [0x2f, 0x61]]).bind (fun s =>
      cross s s.root) = some 0 := by
    decide +kernel
  rw [hs, Option.bind_some] at hm hpath hroot
  obtain ⟨⟨s', b⟩, hm, rfl⟩ := Option.map_eq_some_iff.1 hm
  obtain ⟨m, r, hlook, hr, -, htarget, -⟩ := mount_redirects none _ s s' 0 [0x2f, 0x61]
    (by simp [VfsOp.mounts]) hs hm
  refine ⟨s, s', r, hs, hm, hr, (htarget fun hl => ?_).1⟩
  rw [hlook] at hpath
  cases hpath
  -- the component is looked up in the root, which is not the covered vnode
  cases hl with
  | here h => cases hroot.symm.trans h
  | round _ h => cases h

/-- A mount on `/a/..` hides `/a`, so that its own target does not resolve afterwards. -/
theorem mount_hides_target : ∃ s s', (Vfs.rootfs none).run [.mkdir 0 [0x2f, 0x61]] = some s ∧
    vfsMount s 0 [0x2f, 0x61, 0x2f, 0x2e, 0x2e] (some .tmpfs) = some (s', true) ∧
    (vfsLookup s' 0 [0x2f, 0x61, 0x2f, 0x2e, 0x2e]).map Prod.snd = some none := by
  obtain ⟨s, hs⟩ : ∃ s, (Vfs.rootfs none).run [.mkdir 0 [0x2f, 0x61]] = some s :=
    Option.isSome_iff_exists.1 (by decide +kernel)
  have hm : ((Vfs.rootfs none).run [.mkdir 0 [0x2f, 0x61]]).bind (fun s =>
      (vfsMount s 0 [0x2f, 0x61, 0x2f, 0x2e, 0x2e] (some .tmpfs)).bind fun r =>
        (vfsLookup r.1 0 [0x2f, 0x61, 0x2f, 0x2e, 0x2e]).map fun r' => (r.2, r'.2)) =
      some (true, none) := by
    decide +kernel
  rw [hs, Option.bind_some, Option.bind_eq_some_iff] at hm
  obtain ⟨⟨s', b⟩, hm, hl⟩ := hm
  obtain ⟨⟨s'', o⟩, hl, heq⟩ := Option.map_eq_some_iff.1 hl
  cases heq
  refine ⟨s, s', hs, hm, ?_⟩
  rw [hl]
  rfl

end BareMetalOS.Files
