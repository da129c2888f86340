import BareMetalOS.Files.VfsSteps

/-!
# Mounts and parents

In every state that a run reaches, `..` after a component leads back to the vnode the component was
looked up in, across mounts as well, and every lookup returns (`lookup_parent_of_child`). A mount
redirects the paths that end at the covered vnode to its root, and leaves alone those that do not
come by it (`mount_redirects`).
-/

namespace BareMetalOS.Files

open Memory (Addr)
open Boot (Byte cstr)

variable {s s' s₁ s₂ : Vfs} {cur : Addr} {p c : List Byte} {v w P : ℕ}

/-! ## Paths -/

/-- The path `p` followed by the component `c`. -/
def join (p c : List Byte) : List Byte := if p = [] then c else p ++ 0x2f :: c

/-- A component has no slashes and is not empty. -/
def IsComponent (c : List Byte) : Prop := c ≠ [] ∧ 0x2f ∉ c

theorem components_of_slashfree {c : List Byte} (hc : 0x2f ∉ c) (cur : List Byte) :
    components c cur = if cur ++ c = [] then [] else [cur ++ c] := by
  induction c generalizing cur with
  | nil => simp [components]
  | cons x c ih =>
    obtain ⟨hx, hc⟩ := not_or.1 (List.mem_cons.not.1 hc)
    rw [components, if_neg (Ne.symm hx), ih hc]
    simp

theorem components_append_slash (p c cur : List Byte) :
    components (p ++ 0x2f :: c) cur = components p cur ++ components c [] := by
  induction p generalizing cur with
  | nil =>
    simp only [List.nil_append, components, ↓reduceIte]
    split <;> rfl
  | cons x p ih =>
    rw [List.cons_append, components, components]
    split
    · split
      · exact ih []
      · rw [ih, List.cons_append]
    · exact ih _

theorem components_join (hc : IsComponent c) (p : List Byte) :
    components (join p c) [] = components p [] ++ [c] := by
  have hone : components c [] = [c] := by
    rw [components_of_slashfree hc.2, List.nil_append, if_neg hc.1]
  rw [join]
  split
  · subst p
    rw [hone]
    rfl
  · rw [components_append_slash, hone]

theorem startOf_join (hc : IsComponent c) (p : List Byte) :
    startOf s cur (join p c) = startOf s cur p := by
  rw [join]
  split
  · subst p
    have hhead : c.head? ≠ some 0x2f := fun hh => hc.2 (List.mem_of_mem_head? hh)
    rw [startOf, startOf, if_neg hhead, if_neg (by simp)]
  · rename_i hp
    rw [startOf, startOf, List.head?_append_of_ne_nil _ hp]

theorem isComponent_dotdot : IsComponent [0x2e, 0x2e] := ⟨by simp, by decide⟩

/-! ## Rounds of a lookup -/

theorem walk_append (s : Vfs) (v : ℕ) (cs cs' : List (List Byte)) :
    walk s v (cs ++ cs') = walk s v cs >>= fun r =>
      match r with
      | (s, none) => some (s, none)
      | (s, some w) => walk s w cs' := by
  induction cs generalizing s v with
  | nil => rfl
  | cons c cs ih =>
    rw [List.cons_append, walk, walk]
    cases lookupStep s v c with
    | none => rfl
    | some r =>
      obtain ⟨s₁, o⟩ := r
      cases o with
      | none => rfl
      | some w => exact ih s₁ w

/-- A path resolves where its rounds end, below the mounts. -/
theorem vfsLookup_eq_some {o : Option ℕ} : vfsLookup s cur p = some (s', o) ↔
    ∃ o', walk s (startOf s cur p) (components p []) = some (s', o') ∧
      (o' = none ∧ o = none ∨ ∃ v w, o' = some v ∧ o = some w ∧ cross s' v = some w) := by
  rw [vfsLookup, Option.bind_eq_bind, Option.bind_eq_some_iff]
  constructor
  · rintro ⟨⟨s₁, o'⟩, hwalk, heq⟩
    cases o' with
    | none =>
      cases heq
      exact ⟨none, hwalk, .inl ⟨rfl, rfl⟩⟩
    | some v =>
      rw [Option.bind_eq_bind, Option.bind_eq_some_iff] at heq
      obtain ⟨w, hw, heq⟩ := heq
      cases heq
      exact ⟨some v, hwalk, .inr ⟨v, w, rfl, rfl, hw⟩⟩
  · rintro ⟨o', hwalk, ⟨rfl, rfl⟩ | ⟨v, w, rfl, rfl, hw⟩⟩
    · exact ⟨_, hwalk, rfl⟩
    · exact ⟨_, hwalk, by simp [hw]⟩

/-- The lookup of a path with one more component. -/
theorem walk_join (hc : IsComponent c) (hp : walk s (startOf s cur p) (components p []) =
      some (s₁, some v)) : walk s (startOf s cur (join p c)) (components (join p c) []) =
    lookupStep s₁ v c := by
  rw [startOf_join hc, components_join hc, walk_append, hp, Option.bind_eq_bind, Option.bind_some]
  simp only [walk]
  cases lookupStep s₁ v c with
  | none => rfl
  | some r =>
    obtain ⟨s₂, o⟩ := r
    cases o <;> rfl

/-- The vnode to which a component leads from the vnode `P`. -/
def nextOf (s : Vfs) (P : ℕ) (dv : Vnode) (c : List Byte) : Option ℕ :=
  if c = [0x2e] then some P
  else if c = [0x2e, 0x2e] then some (dv.parent.getD P)
  else (vnodeLookup s dv.internal c).2

/-- A round of the lookup outside of the devfs changes nothing. -/
theorem lookupStep_eq {dv : Vnode} (h : VfsInv s) (hcross : cross s v = some P)
    (hP : s.vnodes[P]? = some dv) (hfs : dv.internal.fs ≠ .devfs) (hlen : c.length < 255) :
    lookupStep s v c = some (s, nextOf s P dv c) := by
  obtain ⟨o, heq, ho⟩ := vnodeLookup_eq (s := s) hfs c
  simp only [lookupStep, nextOf, hcross, Option.bind_eq_bind, Option.bind_some, hP, heq]
  rw [if_neg (by omega)]
  split
  · rfl
  · split
    · rfl
    · cases o with
      | none => rfl
      | some e =>
        obtain ⟨-, ev, hev, -⟩ := h.entry P dv e hP (ho e rfl)
        simp [h.fixParent_eq (List.getElem?_eq_some_iff.1 hev).1]

/-- An ordinary component leads to an entry. -/
theorem nextOf_mem {dv : Vnode} {e : ℕ} (hfs : dv.internal.fs ≠ .devfs) (hc : Ordinary c)
    (he : nextOf s P dv c = some e) : e ∈ dv.internal.entries := by
  obtain ⟨o, heq, ho⟩ := vnodeLookup_eq (s := s) hfs c
  rw [nextOf, if_neg hc.2.1, if_neg hc.2.2, heq] at he
  exact ho e he

/-- `..` leads from an entry of a directory, below the mounts on it, to the directory. -/
theorem lookupStep_dotdot_entry {dv : Vnode} {e : ℕ} (h : VfsInv s) (hP : s.vnodes[P]? = some dv)
    (he : e ∈ dv.internal.entries) : lookupStep s e [0x2e, 0x2e] = some (s, some P) := by
  obtain ⟨hne, ev, hev, hpar⟩ := h.entry P dv e hP he
  obtain ⟨r, rv, hcross, hr, -, hchain⟩ := cross_spec h (List.getElem?_eq_some_iff.1 hev).1
  obtain ⟨-, rv', hr', hpar'⟩ := h.parent_covered hchain hev hne
  cases hr.symm.trans hr'
  simp [lookupStep, hcross, hr, hpar', hpar]

/-! ## Parents of children -/

/-- `..` after a component leads back. -/
theorem VfsInv.lookup_join_dotdot {dv : Vnode} {C : ℕ} (h : VfsInv s)
    (hp : vfsLookup s cur p = some (s₁, some P)) (hP : s₁.vnodes[P]? = some dv)
    (hfs : dv.internal.fs ≠ .devfs) (hc : Ordinary c) (hslash : 0x2f ∉ c)
    (hpc : vfsLookup s cur (join p c) = some (s₂, some C)) :
    vfsLookup s cur (join (join p c) [0x2e, 0x2e]) = some (s₁, some P) := by
  obtain ⟨hinv, -, hPm⟩ := vfsLookup_some h hp
  obtain ⟨dv', hP', hm⟩ := hPm P rfl
  cases hP.symm.trans hP'
  obtain ⟨o, hwalk, ⟨-, hnone⟩ | ⟨v, P', rfl, hsome, hcross⟩⟩ := vfsLookup_eq_some.1 hp
  · cases hnone
  cases hsome
  obtain ⟨-, -, hvlt⟩ := walk_some h (h.startOf_lt cur p) hwalk
  -- the component leads from `P` to one of its entries
  obtain ⟨o, hwalkc, ⟨-, hnone⟩ | ⟨e, C', rfl, hsome, -⟩⟩ := vfsLookup_eq_some.1 hpc
  · cases hnone
  have hcomp : IsComponent c := ⟨hc.1, hslash⟩
  rw [walk_join hcomp hwalk] at hwalkc
  obtain ⟨hlen, -⟩ := lookupStep_some hinv (hvlt v rfl) hwalkc
  have hstep := hwalkc
  rw [lookupStep_eq hinv hcross hP hfs hlen, Option.some_inj, Prod.mk.injEq] at hstep
  obtain ⟨rfl, hnext⟩ := hstep
  have he := nextOf_mem hfs hc hnext
  have hwalkcc := walk_join hcomp hwalk
  rw [hwalkc] at hwalkcc
  apply vfsLookup_eq_some.2
  refine ⟨some P, ?_, .inr ⟨P, P, rfl, rfl, cross_self hinv hP hm⟩⟩
  rw [walk_join isComponent_dotdot hwalkcc, lookupStep_dotdot_entry hinv hP he]

/-- An operation other than the mount of the devfs adds no vnode of the devfs. -/
theorem VfsStep.noDevfs {op : VfsOp} (h : VfsStep s op s') (hd : NoDevfs s)
    (hop : op.mounts ≠ some .devfs) : NoDevfs s' := by
  cases h with
  | look _ hgrow => rwa [hgrow.same hd]
  | cwd s₁ hgrow =>
    cases hgrow.same hd
    exact hd
  | add s₁ hgrow _ d dv inode i type name =>
    cases hgrow.same hd
    intro x hx
    obtain ⟨j, hj⟩ := List.mem_iff_getElem?.1 hx
    obtain ⟨old, hold, rfl⟩ := Vfs.modify_some hj
    split
    · simp [Internal.fs]
    · rcases List.mem_append.1 (List.mem_of_getElem? hold) with hmem | hmem
      · exact hd old hmem
      · cases List.mem_singleton.1 hmem
        simp [Internal.fs]
  | mount s₁ hgrow _ _ fs hfs m mv new p hm _ hnew =>
    cases hgrow.same hd
    intro x hx
    obtain ⟨j, hj⟩ := List.mem_iff_getElem?.1 hx
    obtain ⟨old, hold, rfl⟩ := Vfs.modify_some hj
    have hold' : old.internal.fs ≠ .devfs := by
      rcases List.mem_append.1 (List.mem_of_getElem? hold) with hmem | hmem
      · exact hd old hmem
      · obtain ⟨k, hk⟩ := List.mem_iff_getElem?.1 hmem
        rw [((setupMount_spec hnew p).2 k old hk).2.1]
        rintro rfl
        exact hop hfs
    split <;> exact hold'

theorem rootfs_noDevfs (initrd : Option RamfsInode) : NoDevfs (Vfs.rootfs initrd) := by
  intro x hx
  cases List.mem_singleton.1 hx
  simp [Internal.fs]

theorem run_noDevfs {ops : List VfsOp} (h : VfsInv s) (hd : NoDevfs s)
    (hops : ∀ op ∈ ops, op.mounts ≠ some .devfs) (hrun : s.run ops = some s') : NoDevfs s' := by
  induction ops generalizing s with
  | nil =>
    cases hrun
    exact hd
  | cons op ops ih =>
    rw [Vfs.run, Option.bind_eq_bind, Option.bind_eq_some_iff] at hrun
    obtain ⟨s₁, hexec, hrun⟩ := hrun
    have hs := exec_step h hexec
    exact ih hs.inv (hs.noDevfs hd (hops op List.mem_cons_self))
      (fun op hop => hops op (List.mem_cons_of_mem _ hop)) hrun

/-- **Main.** In every state that a run from `vfs_init` reaches: the mounts form no cycle, and a
lookup returns whenever its components fit the buffer; and where a path resolves to a vnode `P` and
resolves with a component appended, it resolves to `P` with `..` appended after that. For this,
the run mounts no devfs, or `P` is at least not a vnode of the devfs. -/
theorem lookup_parent_of_child (initrd : Option RamfsInode) (ops : List VfsOp) (s : Vfs)
    (hrun : (Vfs.rootfs initrd).run ops = some s) :
    (∀ v, ¬ Relation.TransGen (Covered s) v v) ∧
    (∀ cur path, (∀ c ∈ components path [], c.length ≤ 254) →
      ∃ s' o, vfsLookup s cur path = some (s', o)) ∧
    ∀ cur p c P s₁ s₂ C, Ordinary c → 0x2f ∉ c →
      vfsLookup s cur p = some (s₁, some P) →
      vfsLookup s cur (join p c) = some (s₂, some C) →
      ((∀ op ∈ ops, op.mounts ≠ some .devfs) ∨
        ∀ dv, s₁.vnodes[P]? = some dv → dv.internal.fs ≠ .devfs) →
      vfsLookup s cur (join (join p c) [0x2e, 0x2e]) = some (s₁, some P) := by
  have hinv := run_inv (rootfs_inv initrd) hrun
  refine ⟨fun v hv => (hinv.covered_lt hv).ne rfl, fun cur path hlen => ?_,
    fun cur p c P s₁ s₂ C hc hslash hp hpc hdev => ?_⟩
  · obtain ⟨s', o, heq, -⟩ := vfsLookup_spec hinv cur fun c hc => Nat.lt_succ_of_le (hlen c hc)
    exact ⟨s', o, heq⟩
  · obtain ⟨-, hgrow, hP⟩ := vfsLookup_some hinv hp
    obtain ⟨dv, hdv, -⟩ := hP P rfl
    apply hinv.lookup_join_dotdot hp hdv ?_ hc hslash hpc
    rcases hdev with hops | hdev
    · have hno := run_noDevfs (rootfs_inv initrd) (rootfs_noDevfs initrd) hops hrun
      cases hgrow.same hno
      exact hno dv (List.mem_of_getElem? hdv)
    · exact hdev dv hdv

/-- The directories `/a` and `/a/b`, with mounts on both. -/
def nestedMounts : List VfsOp :=
  [.mkdir 0 [0x2f, 0x61], .mount 0 [0x2f, 0x61] (some .tmpfs),
    .mkdir 0 [0x2f, 0x61, 0x2f, 0x62], .mount 0 [0x2f, 0x61, 0x2f, 0x62] (some .tmpfs),
    .mount 0 [0x2f, 0x61, 0x2f, 0x62] (some .tmpfs)]

/-- `/a/b/..` is `/a` across the mounts. -/
theorem lookup_parent_of_child_nested : ∃ s s₁, (Vfs.rootfs none).run nestedMounts = some s ∧
    vfsLookup s 0 (join (join [0x2f, 0x61] [0x62]) [0x2e, 0x2e]) = some (s₁, some 2) := by
  obtain ⟨s, hs⟩ : ∃ s, (Vfs.rootfs none).run nestedMounts = some s :=
    Option.isSome_iff_exists.1 (by decide +kernel)
  have hp : ((Vfs.rootfs none).run nestedMounts).bind
      (fun s => (vfsLookup s 0 [0x2f, 0x61]).map Prod.snd) = some (some 2) := by decide +kernel
  have hpc : ((Vfs.rootfs none).run nestedMounts).bind
      (fun s => (vfsLookup s 0 (join [0x2f, 0x61] [0x62])).map Prod.snd) = some (some 5) := by
    decide +kernel
  rw [hs, Option.bind_some, Option.map_eq_some_iff] at hp hpc
  obtain ⟨⟨s₁, _⟩, hp, rfl⟩ := hp
  obtain ⟨⟨s₂, _⟩, hpc, rfl⟩ := hpc
  refine ⟨s, s₁, hs, ?_⟩
  apply (lookup_parent_of_child none nestedMounts s hs).2.2 0 _ _ 2 s₁ s₂ 5 _ _ hp hpc
  · simp [nestedMounts, VfsOp.mounts]
  · simp [Ordinary]
  · decide

end BareMetalOS.Files
