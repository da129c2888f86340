import BareMetalOS.Files.Entries
import BareMetalOS.Files.Splits

/-!
# Created vnodes are found

A vnode that `vfs_open` or `vfs_mkdir` creates at a path that did not resolve is what the path
resolves to afterwards exactly when the name of the vnode is the last component: that has at most 31
bytes, and `get_parent_and_child` does not cut it (`created_found_iff`). For this, the addition
changes nothing of the lookups that succeeded before (`Extends`, `vfsLookup_again`).
-/

namespace BareMetalOS.Files

open Memory (Addr)
open Boot (Byte cstr)

variable {s s' s₀ s₁ s₂ : Vfs} {cur : Addr} {path d c name : List Byte} {v w D e : ℕ}
  {type : FsnodeType} {inode : TmpfsVnode} {i : Fin 16} {vv dv : Vnode}

/-! ## Entries of a directory -/

/-- Whether the lookup searches the entries. -/
def Internal.isDir : Internal → Bool
  | .tmpfs inode => inode.type = .fsDir
  | .ramfs type _ _ _ _ => type = .fsDir
  | .devfs _ => true

/-- The result of a lookup in a directory of the tmpfs or the ramfs. -/
theorem vnodeLookup_snd {dir : Internal} (hfs : dir.fs ≠ .devfs) (c : List Byte) :
    (vnodeLookup s dir c).2 =
      if dir.isDir then dir.entries.find? fun v => s.nameOf v = some c else none := by
  cases dir with
  | tmpfs inode =>
    rw [vnodeLookup]
    by_cases hdir : inode.type = .fsDir <;> simp [Internal.isDir, hdir]
  | ramfs type name entries data size =>
    rw [vnodeLookup]
    by_cases hdir : type = .fsDir <;> simp [Internal.isDir, hdir]
  | devfs name => exact absurd rfl hfs

theorem entries_find? (inode : TmpfsVnode) (p : ℕ → Bool) :
    (Internal.tmpfs inode).entries.find? p =
      ((List.finRange 16).find? fun j => (inode.entry j).any p).bind inode.entry :=
  List.find?_filterMap

/-- The search of a directory passes a new entry with another name. -/
theorem find?_withEntry_of_not (p : ℕ → Bool) (hi : inode.entry i = none) (hp : ¬ p v) :
    (Internal.tmpfs (inode.withEntry i v)).entries.find? p =
      (Internal.tmpfs inode).entries.find? p := by
  have hany : ∀ j, ((inode.withEntry i v).entry j).any p = (inode.entry j).any p := by
    intro j
    rcases eq_or_ne j i with rfl | hne
    · rw [inode.withEntry_self, hi]
      simpa using hp
    · rw [inode.withEntry_of_ne hne]
  rw [entries_find?, entries_find?]
  simp only [hany]
  cases hfind : (List.finRange 16).find? fun j => (inode.entry j).any p with
  | none => rfl
  | some j =>
    have hne : j ≠ i := by
      rintro rfl
      have := List.find?_some hfind
      rw [hi] at this
      cases this
    rw [Option.bind_some, Option.bind_some, inode.withEntry_of_ne hne]

/-- The search of a directory finds a new entry that has the name first. -/
theorem find?_withEntry (p : ℕ → Bool) (hp : p v)
    (hold : (Internal.tmpfs inode).entries.find? p = none) :
    (Internal.tmpfs (inode.withEntry i v)).entries.find? p = some v := by
  have hnone : ∀ j, j ≠ i → ¬ ((inode.withEntry i v).entry j).any p := by
    intro j hne hany
    rw [inode.withEntry_of_ne hne] at hany
    obtain ⟨e, he, hpe⟩ := Option.any_eq_true _ _ |>.1 hany
    have hmem : e ∈ (Internal.tmpfs inode).entries :=
      List.mem_filterMap.2 ⟨j, List.mem_finRange j, he⟩
    exact List.find?_eq_none.1 hold e hmem hpe
  have hself : ((inode.withEntry i v).entry i).any p := by
    rw [inode.withEntry_self]
    exact hp
  rw [entries_find?]
  have hfind : (List.finRange 16).find? (fun j => ((inode.withEntry i v).entry j).any p) =
      some i := by
    cases hf : (List.finRange 16).find? fun j => ((inode.withEntry i v).entry j).any p with
    | none => exact absurd hself (List.find?_eq_none.1 hf i (List.mem_finRange i))
    | some j =>
      have hj : ((inode.withEntry i v).entry j).any p :=
        @List.find?_some _ (fun j => ((inode.withEntry i v).entry j).any p) j _ hf
      by_contra hne
      exact hnone j (fun h => hne (congrArg some h)) hj
  rw [hfind, Option.bind_some, inode.withEntry_self]

/-! ## Lookups that still succeed -/

/-- What was found in `s` is found in `s'` as well. -/
structure Extends (s s' : Vfs) : Prop where
  root : s'.root = s.root
  cwd : s'.cwd = s.cwd
  uart : ∀ v, s.uart = some v → s'.uart = some v
  fb : ∀ v, s.fb = some v → s'.fb = some v
  vnode : ∀ (v : ℕ) (vv : Vnode), s.vnodes[v]? = some vv → ∃ vv', s'.vnodes[v]? = some vv' ∧
    vv'.mount = vv.mount ∧ vv'.parent = vv.parent ∧ vv'.internal.fs = vv.internal.fs ∧
    (vv.internal.fs ≠ .devfs → ∀ c e, (vnodeLookup s vv.internal c).2 = some e →
      (vnodeLookup s' vv'.internal c).2 = some e)

theorem Extends.trans (h : Extends s s₁) (h' : Extends s₁ s₂) : Extends s s₂ := by
  refine ⟨h'.root.trans h.root, h'.cwd.trans h.cwd, fun v hv => h'.uart v (h.uart v hv),
    fun v hv => h'.fb v (h.fb v hv), fun v vv hv => ?_⟩
  obtain ⟨vv₁, hv₁, hm₁, hp₁, hf₁, hl₁⟩ := h.vnode v vv hv
  obtain ⟨vv₂, hv₂, hm₂, hp₂, hf₂, hl₂⟩ := h'.vnode v vv₁ hv₁
  exact ⟨vv₂, hv₂, hm₂.trans hm₁, hp₂.trans hp₁, hf₂.trans hf₁,
    fun hfs c e he => hl₂ (hf₁ ▸ hfs) c e (hl₁ hfs c e he)⟩

/-- The names of the entries of old directories are those of old vnodes. -/
theorem VfsInv.lookup_congr (h : VfsInv s) (hv : s.vnodes[v]? = some vv)
    (hfs : vv.internal.fs ≠ .devfs) (hname : ∀ e < s.vnodes.length, s'.nameOf e = s.nameOf e)
    (c : List Byte) : (vnodeLookup s' vv.internal c).2 = (vnodeLookup s vv.internal c).2 := by
  rw [vnodeLookup_snd hfs, vnodeLookup_snd hfs]
  split
  · apply List.find?_congr
    intro e he
    obtain ⟨-, ev, hev, -⟩ := h.entry v vv e hv he
    rw [hname e (List.getElem?_eq_some_iff.1 hev).1]
  · rfl

theorem Grows.extends (h : VfsInv s) (hg : Grows s s')
    (huart : ∀ v, s.uart = some v → s'.uart = some v) (hfb : ∀ v, s.fb = some v → s'.fb = some v) :
    Extends s s' := by
  refine ⟨hg.root, hg.cwd, huart, hfb, fun v vv hv => ?_⟩
  refine ⟨vv, hg.getElem? hv, rfl, rfl, rfl, fun hfs c e he => ?_⟩
  rwa [h.lookup_congr hv hfs fun e he => Vfs.nameOf_congr (hg.quiet.old e he)]

/-- The devices that were made stay, and are found again. -/
theorem devfsLookup_cases {o : Option ℕ} (h : devfsLookup s c = (s₁, o)) :
    (∀ v, s.uart = some v → s₁.uart = some v) ∧ (∀ v, s.fb = some v → s₁.fb = some v) ∧
      (∀ v, s₁.uart = some v ∨ s₁.fb = some v →
        s.uart = some v ∨ s.fb = some v ∨ v = s.vnodes.length) ∧
      ∀ w, o = some w → (s₁.uart = some w ∨ s₁.fb = some w) ∧
        ∀ s₂ : Vfs, (∀ v, s₁.uart = some v → s₂.uart = some v) →
          (∀ v, s₁.fb = some v → s₂.fb = some v) → devfsLookup s₂ c = (s₂, some w) := by
  rw [devfsLookup] at h
  split at h
  · rename_i hc
    cases hu : s.uart with
    | some u =>
      rw [hu] at h
      cases h
      refine ⟨fun v hv => hu ▸ hv, fun v hv => hv, fun v hv => ?_, fun w hw => ?_⟩
      · rw [hu] at hv
        tauto
      · cases hw
        refine ⟨.inl hu, fun s₂ hu₂ _ => ?_⟩
        rw [devfsLookup, if_pos hc, hu₂ u hu]
    | none =>
      rw [hu] at h
      cases h
      refine ⟨fun v hv => (by cases hv), fun v hv => hv, fun v hv => ?_, fun w hw => ?_⟩
      · rcases hv with hv | hv
        · exact .inr (.inr (Option.some.inj hv).symm)
        · exact .inr (.inl hv)
      · cases hw
        refine ⟨.inl rfl, fun s₂ hu₂ _ => ?_⟩
        rw [devfsLookup, if_pos hc, hu₂ _ rfl]
  · rename_i hc
    split at h
    · rename_i hc'
      cases hu : s.fb with
      | some u =>
        rw [hu] at h
        cases h
        refine ⟨fun v hv => hv, fun v hv => hu ▸ hv, fun v hv => ?_, fun w hw => ?_⟩
        · rw [hu] at hv
          tauto
        · cases hw
          refine ⟨.inr hu, fun s₂ _ hu₂ => ?_⟩
          rw [devfsLookup, if_neg hc, if_pos hc', hu₂ u hu]
      | none =>
        rw [hu] at h
        cases h
        refine ⟨fun v hv => hv, fun v hv => (by cases hv), fun v hv => ?_, fun w hw => ?_⟩
        · rcases hv with hv | hv
          · exact .inl hv
          · exact .inr (.inr (Option.some.inj hv).symm)
        · cases hw
          refine ⟨.inr rfl, fun s₂ _ hu₂ => ?_⟩
          rw [devfsLookup, if_neg hc, if_pos hc', hu₂ _ rfl]
    · cases h
      exact ⟨fun v hv => hv, fun v hv => hv, fun v hv => by tauto, fun w hw => by cases hw⟩

/-- What a round of a lookup does. -/
theorem lookupStep_cases {o : Option ℕ} (h : VfsInv s) (hv : v < s.vnodes.length)
    (hstep : lookupStep s v c = some (s₁, o)) : ∃ r rv, cross s v = some r ∧
      s.vnodes[r]? = some rv ∧ rv.mount = none ∧
      Relation.ReflTransGen (Covered s) v r ∧
      (c = [0x2e] ∧ s₁ = s ∧ o = some r ∨
        c = [0x2e, 0x2e] ∧ s₁ = s ∧ o = some (rv.parent.getD r) ∨
        c ≠ [0x2e] ∧ c ≠ [0x2e, 0x2e] ∧ ∃ s₂, vnodeLookup s rv.internal c = (s₂, o) ∧
          s₁.uart = s₂.uart ∧ s₁.fb = s₂.fb ∧ (rv.internal.fs ≠ .devfs → s₁ = s)) := by
  obtain ⟨hlen, -⟩ := lookupStep_some h hv hstep
  obtain ⟨r, rv, hcross, hr, hm, hchain⟩ := cross_spec h hv
  refine ⟨r, rv, hcross, hr, hm, hchain, ?_⟩
  rw [lookupStep, hcross, Option.bind_eq_bind, Option.bind_some, hr, Option.bind_eq_bind,
    Option.bind_some, if_neg (by omega)] at hstep
  split at hstep
  · cases hstep
    exact .inl ⟨‹_›, rfl, rfl⟩
  · split at hstep
    · cases hstep
      exact .inr (.inl ⟨‹_›, rfl, rfl⟩)
    · refine .inr (.inr ⟨‹_›, ‹_›, ?_⟩)
      rcases hlook : vnodeLookup s rv.internal c with ⟨s₂, _ | w⟩
      · rw [hlook] at hstep
        cases hstep
        refine ⟨s₁, rfl, rfl, rfl, fun hfs => ?_⟩
        obtain ⟨o', heq, -⟩ := vnodeLookup_eq (s := s) hfs c
        exact (congrArg Prod.fst (hlook.symm.trans heq))
      · rw [hlook] at hstep
        cases hstep
        refine ⟨s₂, rfl, rfl, rfl, fun hfs => ?_⟩
        obtain ⟨o', heq, ho⟩ := vnodeLookup_eq (s := s) hfs c
        cases hlook.symm.trans heq
        obtain ⟨-, ev, hev, -⟩ := h.entry r rv w hr (ho w rfl)
        exact h.fixParent_eq (List.getElem?_eq_some_iff.1 hev).1 r

theorem devfs_of_fs {dir : Internal} (h : dir.fs = .devfs) : ∃ name, dir = .devfs name := by
  cases dir with
  | devfs name => exact ⟨name, rfl⟩
  | tmpfs | ramfs => cases h

/-- A round of a lookup extends the namespace. -/
theorem lookupStep_extends {o : Option ℕ} (h : VfsInv s) (hv : v < s.vnodes.length)
    (hstep : lookupStep s v c = some (s₁, o)) : Extends s s₁ := by
  obtain ⟨-, -, hgrow, -⟩ := lookupStep_some h hv hstep
  obtain ⟨r, rv, -, -, -, -, ⟨-, rfl, -⟩ | ⟨-, rfl, -⟩ | ⟨-, -, s₂, hlook, hu, hf, hsame⟩⟩ :=
    lookupStep_cases h hv hstep
  · exact hgrow.extends h (fun v hv => hv) fun v hv => hv
  · exact hgrow.extends h (fun v hv => hv) fun v hv => hv
  · by_cases hfs : rv.internal.fs = .devfs
    · obtain ⟨name, hname⟩ := devfs_of_fs hfs
      rw [hname, vnodeLookup] at hlook
      obtain ⟨huart, hfb, -⟩ := devfsLookup_cases hlook
      exact hgrow.extends h (fun v hv => hu ▸ huart v hv) fun v hv => hf ▸ hfb v hv
    · cases hsame hfs
      exact hgrow.extends h (fun v hv => hv) fun v hv => hv

/-- The mounts are walked as before. -/
theorem Extends.cross (h : Extends s s') (hinv : VfsInv s') {r : ℕ} {rv : Vnode}
    (hr : s.vnodes[r]? = some rv) (hm : rv.mount = none)
    (hchain : Relation.ReflTransGen (Covered s) v r) (hv : s.vnodes[v]? = some vv) :
    cross s' v = some r := by
  obtain ⟨vv', hvv', -⟩ := h.vnode v vv hv
  obtain ⟨rv', hr', hm', -⟩ := h.vnode r rv hr
  have hchain' : Relation.ReflTransGen (Covered s') v r := by
    refine hchain.lift id ?_
    rintro a b ⟨av, hav, hab⟩
    obtain ⟨av', hav', hmount, -⟩ := h.vnode a av hav
    exact ⟨av', hav', hmount.trans hab⟩
  exact cross_eq hinv (List.getElem?_eq_some_iff.1 hvv').1 hchain' hr' (hm'.trans hm)

/-- A round of a lookup that succeeded leads to the same vnode again. -/
theorem lookupStep_again (h : VfsInv s) (hv : v < s.vnodes.length)
    (hstep : lookupStep s v c = some (s₁, some w)) (hext : Extends s₁ s₂) (hinv : VfsInv s₂) :
    lookupStep s₂ v c = some (s₂, some w) := by
  obtain ⟨hlen, hinv₁, -, hw⟩ := lookupStep_some h hv hstep
  have hall := (lookupStep_extends h hv hstep).trans hext
  obtain ⟨r, rv, -, hr, hm, hchain, hcases⟩ := lookupStep_cases h hv hstep
  obtain ⟨rv₂, hr₂, -, hpar, hfs₂, hlook₂⟩ := hall.vnode r rv hr
  have hcross := hall.cross hinv hr hm hchain (List.getElem?_eq_getElem hv)
  obtain ⟨wv, hwv⟩ : ∃ wv, s₁.vnodes[w]? = some wv := ⟨_, List.getElem?_eq_getElem (hw w rfl)⟩
  obtain ⟨wv₂, hwv₂, -⟩ := hext.vnode w wv hwv
  have hfix := hinv.fixParent_eq (List.getElem?_eq_some_iff.1 hwv₂).1 r
  rw [lookupStep, hcross, Option.bind_eq_bind, Option.bind_some, hr₂, Option.bind_eq_bind,
    Option.bind_some, if_neg (by omega)]
  rcases hcases with ⟨hc, -, ho⟩ | ⟨hc, -, ho⟩ | ⟨hc, hc', s', hlook, hu, hf, hsame⟩
  · rw [if_pos hc, ho]
    rfl
  · rw [if_neg (by rw [hc]; decide), if_pos hc, ho, hpar]
    rfl
  · have hagain : vnodeLookup s₂ rv₂.internal c = (s₂, some w) := by
      by_cases hfs : rv.internal.fs = .devfs
      · obtain ⟨name, hname⟩ := devfs_of_fs hfs
        obtain ⟨name₂, hname₂⟩ := devfs_of_fs (hfs₂.trans hfs)
        rw [hname, vnodeLookup] at hlook
        rw [hname₂, vnodeLookup]
        obtain ⟨-, -, -, hfound⟩ := devfsLookup_cases hlook
        exact (hfound w rfl).2 s₂ (fun v hv => hext.uart v (hu ▸ hv)) fun v hv =>
          hext.fb v (hf ▸ hv)
      · obtain ⟨o, heq, -⟩ := vnodeLookup_eq (s := s₂) (hfs₂ ▸ hfs) c
        have hsnd := hlook₂ hfs c w (by rw [hlook])
        rw [heq] at hsnd ⊢
        exact congrArg (s₂, ·) hsnd
    rw [if_neg hc, if_neg hc', hagain]
    dsimp only
    rw [hfix]
    rfl

/-- The rounds of a lookup that succeeded lead to the same vnode again. -/
theorem walk_again {cs : List (List Byte)} (h : VfsInv s) (hv : v < s.vnodes.length)
    (hwalk : walk s v cs = some (s₁, some w)) (hext : Extends s₁ s₂) (hinv : VfsInv s₂) :
    Extends s s₁ ∧ walk s₂ v cs = some (s₂, some w) := by
  induction cs generalizing s v with
  | nil =>
    cases hwalk
    exact ⟨(Grows.refl _).extends h (fun v hv => hv) fun v hv => hv, rfl⟩
  | cons c cs ih =>
    rw [walk, Option.bind_eq_bind, Option.bind_eq_some_iff] at hwalk
    obtain ⟨⟨s₃, o⟩, hstep, hwalk⟩ := hwalk
    obtain ⟨-, hinv₃, -, hu⟩ := lookupStep_some h hv hstep
    cases o with
    | none => cases hwalk
    | some u =>
      obtain ⟨hext₃, hagain⟩ := ih hinv₃ (hu u rfl) hwalk
      have hstep₂ := lookupStep_again h hv hstep (hext₃.trans hext) hinv
      refine ⟨(lookupStep_extends h hv hstep).trans hext₃, ?_⟩
      rw [walk, hstep₂, Option.bind_eq_bind, Option.bind_some]
      exact hagain

/-- A path that resolved resolves to the same vnode again. -/
theorem vfsLookup_again (h : VfsInv s) (hlook : vfsLookup s cur path = some (s₁, some w))
    (hext : Extends s₁ s₂) (hinv : VfsInv s₂) :
    Extends s s₁ ∧ vfsLookup s₂ cur path = some (s₂, some w) := by
  obtain ⟨o, hwalk, ⟨-, hnone⟩ | ⟨v, w', rfl, hsome, hcross⟩⟩ := vfsLookup_eq_some.1 hlook
  · cases hnone
  cases hsome
  obtain ⟨hinv₁, -, hv⟩ := walk_some h (h.startOf_lt cur path) hwalk
  obtain ⟨hext₁, hagain⟩ := walk_again h (h.startOf_lt cur path) hwalk hext hinv
  obtain ⟨rv, hr, hm, hchain⟩ := cross_some hinv₁ (hv v rfl) hcross
  have hstart : startOf s₂ cur path = startOf s cur path := by
    rw [startOf, startOf, hext.root, hext₁.root, hext.cwd, hext₁.cwd]
  refine ⟨hext₁, vfsLookup_eq_some.2 ⟨some v, ?_, .inr ⟨v, w, rfl, rfl, ?_⟩⟩⟩
  · rw [hstart]
    exact hagain
  · exact hext.cross hinv hr hm hchain (List.getElem?_eq_getElem (hv v rfl))

/-- A round of a lookup that fails changes nothing. -/
theorem lookupStep_none (h : VfsInv s) (hv : v < s.vnodes.length)
    (hstep : lookupStep s v c = some (s₁, none)) : s₁ = s := by
  obtain ⟨hlen, -⟩ := lookupStep_some h hv hstep
  obtain ⟨r, rv, hcross, hr, -⟩ := cross_spec h hv
  rw [lookupStep, hcross, Option.bind_eq_bind, Option.bind_some, hr, Option.bind_eq_bind,
    Option.bind_some, if_neg (by omega)] at hstep
  split at hstep
  · cases hstep
  · split at hstep
    · cases hstep
    · rcases hlook : vnodeLookup s rv.internal c with ⟨s₂, _ | w⟩
      · rw [hlook] at hstep
        cases hstep
        by_cases hfs : rv.internal.fs = .devfs
        · obtain ⟨name, hname⟩ := devfs_of_fs hfs
          rw [hname, vnodeLookup] at hlook
          rcases devfsLookup_spec h hr hfs c with heq | ⟨s', next, heq, -⟩
          · exact congrArg Prod.fst (hlook.symm.trans heq)
          · cases hlook.symm.trans heq
        · obtain ⟨o, heq, -⟩ := vnodeLookup_eq (s := s) hfs c
          exact congrArg Prod.fst (hlook.symm.trans heq)
      · rw [hlook] at hstep
        cases hstep

/-- A path that did not resolve does not resolve after the lookup. -/
theorem walk_none_again {cs : List (List Byte)} (h : VfsInv s) (hv : v < s.vnodes.length)
    (hwalk : walk s v cs = some (s₀, none)) :
    Extends s s₀ ∧ walk s₀ v cs = some (s₀, none) := by
  induction cs generalizing s v with
  | nil => cases hwalk
  | cons c cs ih =>
    rw [walk, Option.bind_eq_bind, Option.bind_eq_some_iff] at hwalk
    obtain ⟨⟨s₃, o⟩, hstep, hwalk⟩ := hwalk
    have hext := lookupStep_extends h hv hstep
    cases o with
    | none =>
      cases hwalk
      have hsame := lookupStep_none h hv hstep
      subst hsame
      refine ⟨hext, ?_⟩
      rw [walk, hstep]
      rfl
    | some u =>
      obtain ⟨-, hinv, -, hu⟩ := lookupStep_some h hv hstep
      obtain ⟨hinv₀, -, -⟩ := walk_some hinv (hu u rfl) hwalk
      obtain ⟨hext₀, hagain⟩ := ih hinv (hu u rfl) hwalk
      refine ⟨hext.trans hext₀, ?_⟩
      rw [walk, lookupStep_again h hv hstep hext₀ hinv₀, Option.bind_eq_bind, Option.bind_some]
      exact hagain

theorem vfsLookup_none_again (h : VfsInv s) (hlook : vfsLookup s cur path = some (s₀, none)) :
    vfsLookup s₀ cur path = some (s₀, none) := by
  obtain ⟨o, hwalk, ⟨rfl, -⟩ | ⟨v, w', -, hsome, -⟩⟩ := vfsLookup_eq_some.1 hlook
  · obtain ⟨hext, hagain⟩ := walk_none_again h (h.startOf_lt cur path) hwalk
    have hstart : startOf s₀ cur path = startOf s cur path := by
      rw [startOf, startOf, hext.root, hext.cwd]
    exact vfsLookup_eq_some.2 ⟨none, hstart ▸ hagain, .inl ⟨rfl, rfl⟩⟩
  · cases hsome

/-! ## The new vnode -/

/-- What `vfs_mkdir` and `vfs_open` do where they add a vnode. -/
theorem addAt_some (h : VfsInv s) (hadd : addAt s cur type path = some (s', some v)) :
    ∃ d c s₁ D dv inode i, getParentAndChild path = some (d, c) ∧
      vfsLookup s cur d = some (s₁, some D) ∧ s₁.vnodes[D]? = some dv ∧ dv.mount = none ∧
      dv.internal = .tmpfs inode ∧ inode.type = .fsDir ∧ inode.entry i = none ∧
      v = s₁.vnodes.length ∧ s' = s₁.addEntry D inode i type (c.take 31) := by
  rcases addAt_cases h hadd with ⟨hnone, -⟩ | ⟨d, c, s₁, D, dv, inode, i, hpc, hlook, -, hdv,
    hmount, hint, hdir, hi, hv, heq⟩
  · cases hnone
  · exact ⟨d, c, s₁, D, dv, inode, i, hpc, hlook, hdv, hmount, hint, hdir, hi, Option.some.inj hv,
      heq⟩

theorem addEntry_vnode (hv : s.vnodes[v]? = some vv) :
    (s.addEntry D inode i type name).vnodes[v]? = some (if D = v then
      { vv with internal := .tmpfs (inode.withEntry i s.vnodes.length) } else vv) := by
  apply Vfs.modify_getElem?
  rw [Vfs.push, List.getElem?_append_left (List.getElem?_eq_some_iff.1 hv).1, hv]

theorem addEntry_vnode_new (hD : D < s.vnodes.length) :
    (s.addEntry D inode i type name).vnodes[s.vnodes.length]? =
      some ⟨none, .tmpfs (tmpfsCreateVnode type name), some D⟩ := by
  have hnew : (s.push ⟨none, .tmpfs (tmpfsCreateVnode type name), some D⟩).vnodes[
      s.vnodes.length]? = some ⟨none, .tmpfs (tmpfsCreateVnode type name), some D⟩ := by
    rw [Vfs.push, List.getElem?_concat_length]
  have := Vfs.modify_getElem? (d := D)
    (f := fun v => { v with internal := .tmpfs (inode.withEntry i s.vnodes.length) }) hnew
  rwa [if_neg hD.ne] at this

/-- The addition of a name that the directory does not have leaves what was found. -/
theorem addEntry_extends (h : VfsInv s) (hd : s.vnodes[D]? = some dv)
    (hint : dv.internal = .tmpfs inode) (hi : inode.entry i = none)
    (hfresh : (vnodeLookup s dv.internal name).2 = none) :
    Extends s (s.addEntry D inode i type name) := by
  have hD := (List.getElem?_eq_some_iff.1 hd).1
  have hat : s.internalAt D = some (.tmpfs inode) := by
    rw [Vfs.internalAt, hd, Option.map_some, hint]
  have hnew := addEntry_nameOf_new inode i type name hD
  refine ⟨rfl, rfl, fun _ hu => hu, fun _ hu => hu, fun v vv hv => ?_⟩
  refine ⟨_, addEntry_vnode hv, ?_⟩
  rcases eq_or_ne D v with rfl | hne
  · cases hd.symm.trans hv
    rw [if_pos rfl, hint]
    refine ⟨rfl, rfl, rfl, fun hfs c e he => ?_⟩
    have hc : c ≠ name := by
      rintro rfl
      rw [hint] at hfresh
      rw [hfresh] at he
      cases he
    rw [vnodeLookup_snd hfs] at he
    rw [vnodeLookup_snd (by exact hfs)]
    have hdir : (Internal.tmpfs inode).isDir =
        (Internal.tmpfs (inode.withEntry i s.vnodes.length)).isDir := rfl
    rw [← hdir]
    split at he
    · rw [if_pos ‹_›, find?_withEntry_of_not _ hi, ← he]
      · apply List.find?_congr
        intro x hx
        obtain ⟨-, xv, hxv, -⟩ := h.entry D dv x hd (hint ▸ hx)
        rw [addEntry_nameOf_old hat (List.getElem?_eq_some_iff.1 hxv).1]
      · rw [hnew]
        simpa using hc.symm
    · cases he
  · rw [if_neg hne]
    refine ⟨rfl, rfl, rfl, fun hfs c e he => ?_⟩
    rwa [h.lookup_congr hv hfs fun x hx => addEntry_nameOf_old hat hx]

/-- The lookup of the name of a new entry that the directory did not have. -/
theorem addEntry_lookup (h : VfsInv s) (hd : s.vnodes[D]? = some dv)
    (hint : dv.internal = .tmpfs inode) (hdir : inode.type = .fsDir)
    (hfresh : (vnodeLookup s dv.internal name).2 = none) :
    (vnodeLookup (s.addEntry D inode i type name)
      (.tmpfs (inode.withEntry i s.vnodes.length)) name).2 = some s.vnodes.length := by
  have hD := (List.getElem?_eq_some_iff.1 hd).1
  have hat : s.internalAt D = some (.tmpfs inode) := by
    rw [Vfs.internalAt, hd, Option.map_some, hint]
  have hfs : dv.internal.fs ≠ .devfs := by
    rw [hint]
    intro heq
    cases heq
  have hisdir : (Internal.tmpfs (inode.withEntry i s.vnodes.length)).isDir := decide_eq_true hdir
  have holddir : (Internal.tmpfs inode).isDir := decide_eq_true hdir
  have hfs' : (Internal.tmpfs (inode.withEntry i s.vnodes.length)).fs ≠ .devfs := by
    rw [Internal.fs]
    intro heq
    cases heq
  rw [vnodeLookup_snd hfs', if_pos hisdir]
  apply find?_withEntry
  · rw [addEntry_nameOf_new inode i type name hD]
    exact decide_eq_true rfl
  · rw [vnodeLookup_snd hfs, hint, if_pos holddir] at hfresh
    rw [← hfresh]
    apply List.find?_congr
    intro x hx
    obtain ⟨-, xv, hxv, -⟩ := h.entry D dv x hd (hint ▸ hx)
    rw [addEntry_nameOf_old hat (List.getElem?_eq_some_iff.1 hxv).1]

/-! ## The path of a new vnode -/

/-- The components of two parts of a path, one after the other. -/
theorem resolve_append {cs : List (List Byte)} (h : VfsInv s) (hv : v < s.vnodes.length)
    (cs' : List (List Byte)) : resolve s v (cs ++ cs') = resolve s v cs >>= fun r =>
      match r with
      | (s, none) => some (s, none)
      | (s, some w) => resolve s w cs' := by
  induction cs generalizing s v with
  | nil =>
    obtain ⟨r, rv, hcross, -⟩ := cross_spec h hv
    rw [List.nil_append, resolve_nil, hcross, Option.map_some, Option.bind_eq_bind,
      Option.bind_some]
    exact (resolve_cross h hv hcross cs').symm
  | cons c cs ih =>
    rw [List.cons_append, resolve_cons, resolve_cons]
    cases hstep : lookupStep s v c with
    | none => rfl
    | some r =>
      obtain ⟨s₁, o⟩ := r
      cases o with
      | none => rfl
      | some w =>
        obtain ⟨-, hinv, -, hw⟩ := lookupStep_some h hv hstep
        exact ih hinv (hw w rfl)

/-- A path resolves as its parent and then what is left of it. -/
theorem lookup_split (h : VfsInv s) (hpc : getParentAndChild path = some (d, c)) :
    vfsLookup s cur path = vfsLookup s cur d >>= fun r =>
      match r with
      | (s, none) => some (s, none)
      | (s, some w) => resolve s w (significant (c ++ lostByte path)) := by
  obtain ⟨hsig, hhead, -⟩ := splits hpc
  have hstart : startOf s cur path = startOf s cur d := by
    rw [startOf, startOf]
    exact if_congr hhead rfl rfl
  rw [h.lookup_eq_significant, hsig, resolve_append h (h.startOf_lt cur path), hstart,
    ← h.lookup_eq_significant]

/-- A single component. -/
theorem resolve_single (s : Vfs) (v : ℕ) (c : List Byte) :
    resolve s v [c] = lookupStep s v c >>= fun r =>
      match r with
      | (s, none) => some (s, none)
      | (s, some w) => (cross s w).map fun x => (s, some x) := by
  rw [resolve_cons]
  cases hstep : lookupStep s v c with
  | none => rfl
  | some r =>
    obtain ⟨s₁, o⟩ := r
    cases o with
    | none => rfl
    | some w => exact resolve_nil s₁ w

/-- What is left of a path that does not resolve, although its parent does, is an ordinary component
that the parent does not have. -/
theorem missing_child (h : VfsInv s) (hun : vfsLookup s cur path = some (s₀, none))
    (hpc : getParentAndChild path = some (d, c)) (hlook : vfsLookup s cur d = some (s₁, some D))
    (hdv : s₁.vnodes[D]? = some dv) :
    significant path = significant d ++ [c ++ lostByte path] ∧
      significant (c ++ lostByte path) = [c ++ lostByte path] ∧
      Ordinary (c ++ lostByte path) ∧
      (vnodeLookup s₁ dv.internal (c ++ lostByte path)).2 = none := by
  obtain ⟨hsig, -, hslash⟩ := splits hpc
  obtain ⟨hinv, -, hD⟩ := vfsLookup_some h hlook
  obtain ⟨dv', hdv', hmount⟩ := hD D rfl
  cases hdv.symm.trans hdv'
  have hself := cross_self hinv hdv hmount
  have hDlt := (List.getElem?_eq_some_iff.1 hdv).1
  rw [lookup_split h hpc, hlook, Option.bind_eq_bind, Option.bind_some] at hun
  dsimp only at hun
  generalize c ++ lostByte path = x at hsig hslash hun ⊢
  have hsome : significant x ≠ [] := by
    intro hnil
    rw [hnil, resolve_nil, hself] at hun
    cases hun
  have hne : x ≠ [] := fun hx => hsome (hx ▸ significant_nil)
  have hdot : x ≠ cstr "." := fun hx => hsome (by rw [hx]; decide)
  have hsingle := significant_single hslash hne hdot
  rw [hsingle] at hsig hun ⊢
  refine ⟨hsig, rfl, ?_⟩
  rw [resolve_single, Option.bind_eq_bind, Option.bind_eq_some_iff] at hun
  obtain ⟨⟨s₃, o⟩, hstep, hun⟩ := hun
  cases o with
  | some w =>
    obtain ⟨y, -, hy⟩ := Option.map_eq_some_iff.1 hun
    cases hy
  | none =>
    obtain ⟨r, rv, hcross, hr, -, -, ⟨-, -, ho⟩ | ⟨-, -, ho⟩ | ⟨hx, hx', s₂, hfind, -⟩⟩ :=
      lookupStep_cases hinv hDlt hstep
    · cases ho
    · cases ho
    · cases hself.symm.trans hcross
      cases hdv.symm.trans hr
      exact ⟨⟨hne, hx, hx'⟩, by rw [hfind]⟩

/-- The new vnode is found at its path if its name is the last component. -/
theorem addAt_found (h : VfsInv s) (hun : vfsLookup s cur path = some (s₀, none))
    (hadd : addAt s cur type path = some (s', some v)) (hlost : lostByte path = [])
    (hlast : ∀ c, (significant path).getLast? = some c → c.length ≤ 31) :
    vfsLookup s' cur path = some (s', some v) := by
  obtain ⟨d, c, s₁, D, dv, inode, i, hpc, hlook, hdv, hmount, hint, hdir, hi, rfl, rfl⟩ :=
    addAt_some h hadd
  obtain ⟨hinv, -, -⟩ := vfsLookup_some h hlook
  obtain ⟨hsig, hsingle, hord, hfresh⟩ := missing_child h hun hpc hlook hdv
  have hsplit := fun s (hs : VfsInv s) => @lookup_split s cur _ _ _ hs hpc
  rw [hlost, List.append_nil] at hsig hord hfresh hsingle
  simp only [hlost, List.append_nil, hsingle] at hsplit
  have hlen : c.length ≤ 31 := hlast c (by rw [hsig, List.getLast?_concat])
  have hname : c.take 31 = c := List.take_of_length_le hlen
  rw [hname]
  have hinv' := hinv.addEntry (i := i) hdv hint type c
  have hD := (List.getElem?_eq_some_iff.1 hdv).1
  have hext := @addEntry_extends s₁ c D type inode i dv hinv hdv hint hi hfresh
  have hD' := @addEntry_vnode s₁ c D D type inode i dv hdv
  have hnew := @addEntry_vnode_new s₁ c D type inode i hD
  have hfind := @addEntry_lookup s₁ c D type inode i dv hinv hdv hint hdir hfresh
  generalize s₁.addEntry D inode i type c = s' at hinv' hext hD' hnew hfind ⊢
  rw [if_pos rfl] at hD'
  obtain ⟨-, hagain⟩ := vfsLookup_again h hlook hext hinv'
  rw [hsplit s' hinv', hagain, Option.bind_eq_bind, Option.bind_some]
  dsimp only
  have hstep : lookupStep s' D c = some (s', some s₁.vnodes.length) := by
    have hfs : (Internal.tmpfs (inode.withEntry i s₁.vnodes.length)).fs ≠ .devfs := by
      rw [Internal.fs]
      intro heq
      cases heq
    obtain ⟨o, heq, -⟩ := vnodeLookup_eq (s := s') hfs c
    rw [heq] at hfind
    rw [lookupStep_eq hinv' (cross_self hinv' hD' hmount) hD' hfs (by omega), nextOf,
      if_neg hord.2.1, if_neg hord.2.2]
    dsimp only
    rw [heq]
    exact congrArg (fun o => some (s', o)) hfind
  rw [resolve_single, hstep, Option.bind_eq_bind, Option.bind_some]
  dsimp only
  rw [cross_self hinv' hnew rfl]
  rfl

/-! ## What is not found -/

/-- The vnode is none of the devices. -/
def NotDevice (s : Vfs) (v : ℕ) : Prop := s.uart ≠ some v ∧ s.fb ≠ some v

theorem lookupStep_notDevice {o : Option ℕ} {x : ℕ} (h : VfsInv s) (hx : x < s.vnodes.length)
    (hv : v < s.vnodes.length) (hn : NotDevice s v) (hstep : lookupStep s x c = some (s₁, o)) :
    NotDevice s₁ v := by
  obtain ⟨r, rv, -, -, -, -, ⟨-, rfl, -⟩ | ⟨-, rfl, -⟩ | ⟨-, -, s₂, hlook, hu, hf, hsame⟩⟩ :=
    lookupStep_cases h hx hstep
  · exact hn
  · exact hn
  · by_cases hfs : rv.internal.fs = .devfs
    · obtain ⟨name, hname⟩ := devfs_of_fs hfs
      rw [hname, vnodeLookup] at hlook
      obtain ⟨-, -, hold, -⟩ := devfsLookup_cases hlook
      have hnone : ¬ (s₂.uart = some v ∨ s₂.fb = some v) := by
        intro hdev
        rcases hold v hdev with hd | hd | hd
        · exact hn.1 hd
        · exact hn.2 hd
        · omega
      exact ⟨fun hd => hnone (.inl (hu ▸ hd)), fun hd => hnone (.inr (hf ▸ hd))⟩
    · rw [hsame hfs]
      exact hn

theorem walk_notDevice {cs : List (List Byte)} {o : Option ℕ} {x : ℕ} (h : VfsInv s)
    (hx : x < s.vnodes.length) (hv : v < s.vnodes.length) (hn : NotDevice s v)
    (hwalk : walk s x cs = some (s₁, o)) : NotDevice s₁ v := by
  induction cs generalizing s x with
  | nil =>
    cases hwalk
    exact hn
  | cons c cs ih =>
    rw [walk, Option.bind_eq_bind, Option.bind_eq_some_iff] at hwalk
    obtain ⟨⟨s₃, o₃⟩, hstep, hwalk⟩ := hwalk
    obtain ⟨-, hinv, hgrow, hu⟩ := lookupStep_some h hx hstep
    have hn₃ := lookupStep_notDevice h hx hv hn hstep
    cases o₃ with
    | none =>
      cases hwalk
      exact hn₃
    | some u => exact ih hinv (hu u rfl) (hv.trans_le hgrow.length_le) hn₃ hwalk

/-- An ordinary component that leads to a vnode of the tmpfs is its name. -/
theorem lookupStep_name {x : ℕ} (h : VfsInv s) (hx : x < s.vnodes.length)
    (hv : v < s.vnodes.length) (hn : NotDevice s v) (hc : Ordinary c)
    (hstep : lookupStep s x c = some (s₁, some v)) : s.nameOf v = some c := by
  obtain ⟨r, rv, -, hr, -, -, ⟨hdot, -⟩ | ⟨hdot, -⟩ | ⟨-, -, s₂, hlook, -⟩⟩ :=
    lookupStep_cases h hx hstep
  · exact absurd hdot hc.2.1
  · exact absurd hdot hc.2.2
  · by_cases hfs : rv.internal.fs = .devfs
    · obtain ⟨name, hname⟩ := devfs_of_fs hfs
      rw [hname, vnodeLookup] at hlook
      obtain ⟨-, -, hold, hfound⟩ := devfsLookup_cases hlook
      rcases hold v (hfound v rfl).1 with hd | hd | hd
      · exact absurd hd hn.1
      · exact absurd hd hn.2
      · omega
    · have hsnd : (vnodeLookup s rv.internal c).2 = some v := by rw [hlook]
      rw [vnodeLookup_snd hfs] at hsnd
      split at hsnd
      · simpa using List.find?_some hsnd
      · cases hsnd

theorem resolve_some {cs : List (List Byte)} (h : resolve s v cs = some (s₁, some w)) :
    ∃ u, walk s v cs = some (s₁, some u) ∧ cross s₁ u = some w := by
  rw [resolve, Option.bind_eq_bind, Option.bind_eq_some_iff] at h
  obtain ⟨⟨s₃, o⟩, hwalk, h⟩ := h
  cases o with
  | none => cases h
  | some u =>
    rw [Option.bind_eq_bind, Option.bind_eq_some_iff] at h
    obtain ⟨x, hcross, h⟩ := h
    cases h
    exact ⟨u, hwalk, hcross⟩

/-- No mount leads to the new vnode. -/
theorem addEntry_uncovered (h : VfsInv s) {y : ℕ} {yv : Vnode}
    (hy : (s.addEntry D inode i type name).vnodes[y]? = some yv) :
    yv.mount ≠ some s.vnodes.length := by
  intro hm
  obtain ⟨old, hold, rfl⟩ := Vfs.modify_some hy
  have hmount : old.mount = some s.vnodes.length := by
    split at hm <;> exact hm
  rw [Vfs.push] at hold
  rcases Nat.lt_or_ge y s.vnodes.length with hlt | hge
  · rw [List.getElem?_append_left hlt] at hold
    obtain ⟨-, -, rv, hrv, -⟩ := h.mount y old _ hold hmount
    exact lt_irrefl _ (List.getElem?_eq_some_iff.1 hrv).1
  · rw [List.getElem?_append_right hge] at hold
    cases List.mem_singleton.1 (List.mem_of_getElem? hold)
    cases hmount

/-- The walk over the mounts ends at a vnode to which none leads only if it starts there. -/
theorem cross_uncovered (h : VfsInv s₁) (hgrow : Grows s s₁) (hw : w < s₁.vnodes.length)
    (hun : ∀ (y : ℕ) (yv : Vnode), s.vnodes[y]? = some yv → yv.mount ≠ some v)
    (hcross : cross s₁ w = some v) : w = v := by
  obtain ⟨-, -, -, hchain⟩ := cross_some h hw hcross
  rcases hchain.cases_tail with heq | ⟨y, -, yv, hyv, hm⟩
  · exact heq.symm
  · rcases hgrow.cases hyv with hold | ⟨-, hnone, -⟩
    · exact absurd hm (hun y yv hold)
    · rw [hnone] at hm
      cases hm

/-- A vnode is found at a path only if its name is the last component. -/
theorem addAt_found_only (h : VfsInv s) (hun : vfsLookup s cur path = some (s₀, none))
    (hadd : addAt s cur type path = some (s', some v))
    (hfound : vfsLookup s' cur path = some (s₂, some v)) :
    lostByte path = [] ∧ ∀ c, (significant path).getLast? = some c → c.length ≤ 31 := by
  obtain ⟨d, c, s₁, D, dv, inode, i, hpc, hlook, hdv, hmount, hint, hdir, hi, rfl, rfl⟩ :=
    addAt_some h hadd
  obtain ⟨hinv, -, -⟩ := vfsLookup_some h hlook
  obtain ⟨hsig, -, hord, -⟩ := missing_child h hun hpc hlook hdv
  have hinv' := hinv.addEntry (i := i) hdv hint type (c.take 31)
  have hD := (List.getElem?_eq_some_iff.1 hdv).1
  have hnew := @addEntry_vnode_new s₁ (c.take 31) D type inode i hD
  have hnewname := addEntry_nameOf_new inode i type (c.take 31) hD
  have hdevice : NotDevice (s₁.addEntry D inode i type (c.take 31)) s₁.vnodes.length :=
    ⟨fun hu => lt_irrefl _ (hinv.device _ (.inl hu)),
      fun hf => lt_irrefl _ (hinv.device _ (.inr hf))⟩
  have huncovered := fun y yv => @addEntry_uncovered s₁ (c.take 31) D type inode i hinv y yv
  generalize s₁.addEntry D inode i type (c.take 31) = s' at *
  have hlt := (List.getElem?_eq_some_iff.1 hnew).1
  have hstart := hinv'.startOf_lt cur path
  rw [hinv'.lookup_eq_significant, hsig, resolve_append hinv' hstart, Option.bind_eq_bind,
    Option.bind_eq_some_iff] at hfound
  obtain ⟨⟨s₃, o₃⟩, hparent, hfound⟩ := hfound
  cases o₃ with
  | none => cases hfound
  | some x =>
    obtain ⟨u, hwalk, hcross⟩ := resolve_some hparent
    obtain ⟨hinv₃, hgrow₃, hu⟩ := walk_some hinv' hstart hwalk
    have hdevice₃ := walk_notDevice hinv' hstart hlt hdevice hwalk
    obtain ⟨xv, hxv, -, -⟩ := cross_some hinv₃ (hu u rfl) hcross
    have hxlt := (List.getElem?_eq_some_iff.1 hxv).1
    dsimp only at hfound
    obtain ⟨w, hwalk₄, hcross₄⟩ := resolve_some hfound
    rw [walk, Option.bind_eq_bind, Option.bind_eq_some_iff] at hwalk₄
    obtain ⟨⟨s₄, o₄⟩, hstep, hwalk₄⟩ := hwalk₄
    cases o₄ with
    | none => cases hwalk₄
    | some w' =>
      cases hwalk₄
      obtain ⟨-, hinv₄, hgrow₄, hw⟩ := lookupStep_some hinv₃ hxlt hstep
      have heq := cross_uncovered hinv₄ (hgrow₃.trans hgrow₄) (hw _ rfl) huncovered hcross₄
      subst heq
      have hname := lookupStep_name hinv₃ hxlt (hlt.trans_le hgrow₃.length_le) hdevice₃ hord hstep
      rw [Vfs.nameOf_congr (hgrow₃.quiet.old _ hlt), hnewname, Option.some_inj] at hname
      have hlength := congrArg List.length hname
      rw [List.length_take, List.length_append] at hlength
      have hlost : lostByte path = [] := List.eq_nil_of_length_eq_zero (by omega)
      refine ⟨hlost, fun c' hc' => ?_⟩
      rw [hsig, List.getLast?_concat, hlost, List.append_nil, Option.some_inj] at hc'
      rw [← hc']
      omega

/-! ## The result -/

/-- A call of `vfs_open` with `O_CREAT`, or of `vfs_mkdir`, by the thread `cur`. -/
inductive CreateCall
  | open (cur : Addr) (path : List Byte)
  | mkdir (cur : Addr) (path : List Byte)

namespace CreateCall

/-- The thread of a call. -/
def thread : CreateCall → Addr
  | .open cur _ | .mkdir cur _ => cur

/-- The path of a call. -/
def pathname : CreateCall → List Byte
  | .open _ path | .mkdir _ path => path

/-- The call in a state: the vnode, or `-1`. -/
def exec (s : Vfs) : CreateCall → Option (Vfs × Option ℕ)
  | .open cur path => vfsOpenVnode s cur path true
  | .mkdir cur path => vfsMkdir s cur path

end CreateCall

/-- The path resolves to the vnode, and `vfs_open` with `O_CREAT` opens it and creates none. -/
def Found (s : Vfs) (cur : Addr) (path : List Byte) (v : ℕ) : Prop :=
  (∃ s₁, vfsLookup s cur path = some (s₁, some v)) ∧
    ∃ s₂, vfsOpenVnode s cur path true = some (s₂, some v) ∧ s₂.vnodes = s.vnodes

/-- The name of a new vnode at the path is its last component: `get_parent_and_child` sees all of
the path but trailing slashes, and the component fits the array of the name. -/
def NameKept (path : List Byte) : Prop :=
  (path.length ≤ 254 ∨ path.length = 255 ∧ path.getLast? = some 0x2f) ∧
    ∀ c, (significant path).getLast? = some c → c.length ≤ 31

theorem lostByte_eq_nil_iff (hlen : path.length ≤ 255) : lostByte path = [] ↔
    path.length ≤ 254 ∨ path.length = 255 ∧ path.getLast? = some 0x2f := by
  rw [lostByte]
  split
  · rename_i h255
    obtain ⟨x, hx⟩ : ∃ x, path.drop 254 = [x] := by
      apply List.length_eq_one_iff.1
      rw [List.length_drop]
      omega
    have hlast : path.getLast? = some x := by
      rw [← List.take_append_drop 254 path, hx, List.getLast?_concat]
    rw [hx, hlast]
    by_cases hslash : x = 0x2f <;> simp [hslash, h255]
  · exact iff_of_true rfl (.inl (by omega))

/-- A call that adds a vnode does so in a state in which the path does not resolve either. -/
theorem CreateCall.exec_some {call : CreateCall} (h : VfsInv s)
    (hun : vfsLookup s call.thread call.pathname = some (s₀, none))
    (hexec : call.exec s = some (s', some v)) : ∃ s₁ s₂ type, VfsInv s₁ ∧
      vfsLookup s₁ call.thread call.pathname = some (s₂, none) ∧
      addAt s₁ call.thread type call.pathname = some (s', some v) := by
  cases call with
  | mkdir cur path => exact ⟨s, s₀, .fsDir, h, hun, hexec⟩
  | «open» cur path =>
    change vfsLookup s cur path = some (s₀, none) at hun
    rw [CreateCall.exec, vfsOpenVnode, hun, Option.bind_eq_bind, Option.bind_some] at hexec
    exact ⟨s₀, s₀, .fsFile, (vfsLookup_some h hun).1, vfsLookup_none_again h hun, hexec⟩

/-- **Main.** In every state that a run from `vfs_init` reaches: a vnode that `vfs_open` with
`O_CREAT` or `vfs_mkdir` adds at a path that did not resolve is what the path resolves to after it,
and what a second `vfs_open` opens, exactly when its name is the last component of the path. -/
theorem created_found_iff (initrd : Option RamfsInode) (ops : List VfsOp) (s : Vfs)
    (hrun : (Vfs.rootfs initrd).run ops = some s) (call : CreateCall) (s₀ s' : Vfs) (v : ℕ)
    (hun : vfsLookup s call.thread call.pathname = some (s₀, none))
    (hexec : call.exec s = some (s', some v)) :
    Found s' call.thread call.pathname v ↔ NameKept call.pathname := by
  have hinv := run_inv (rootfs_inv initrd) hrun
  obtain ⟨s₁, s₂, type, h, hun', hadd⟩ := call.exec_some hinv hun hexec
  obtain ⟨d, c, -, -, -, -, -, hpc, -⟩ := addAt_some h hadd
  have hlen : call.pathname.length ≤ 255 := by
    by_contra hlong
    rw [getParentAndChild, if_pos (by omega)] at hpc
    cases hpc
  rw [NameKept, ← lostByte_eq_nil_iff hlen]
  constructor
  · rintro ⟨⟨s₃, hfound⟩, -⟩
    exact addAt_found_only h hun' hadd hfound
  · rintro ⟨hlost, hlast⟩
    have hfound := addAt_found h hun' hadd hlost hlast
    refine ⟨⟨s', hfound⟩, s', ?_, rfl⟩
    rw [vfsOpenVnode, hfound]
    rfl

/-- The file `/a` in the root. -/
theorem created_found_iff_short : ∃ s' v, (CreateCall.open 0 (cstr "/a")).exec (Vfs.rootfs none) =
    some (s', some v) ∧ Found s' 0 (cstr "/a") v := by
  have hun : (vfsLookup (Vfs.rootfs none) 0 (cstr "/a")).map Prod.snd = some none := by decide
  have hexec : ((CreateCall.open 0 (cstr "/a")).exec (Vfs.rootfs none)).map Prod.snd =
      some (some 1) := by decide
  obtain ⟨⟨s₀, _⟩, hun, rfl⟩ := Option.map_eq_some_iff.1 hun
  obtain ⟨⟨s', _⟩, hexec, rfl⟩ := Option.map_eq_some_iff.1 hexec
  refine ⟨s', 1, hexec, ?_⟩
  apply (created_found_iff none [] (Vfs.rootfs none) rfl (.open 0 (cstr "/a")) s₀ s' 1 hun hexec).2
  refine ⟨.inl (by decide), fun c hc => ?_⟩
  have hlast : (significant (cstr "/a")).getLast? = some (cstr "a") := by decide
  cases hlast.symm.trans hc
  decide

/-- A file with a name of 32 bytes in the root. -/
def longName : List Byte := 0x2f :: List.replicate 32 0x61

/-- Its name is cut to 31 bytes, so that its path does not resolve. -/
theorem not_created_found : ∃ s₀ s' v, vfsLookup (Vfs.rootfs none) 0 longName = some (s₀, none) ∧
    (CreateCall.open 0 longName).exec (Vfs.rootfs none) = some (s', some v) ∧
    ¬ Found s' 0 longName v := by
  have hun : (vfsLookup (Vfs.rootfs none) 0 longName).map Prod.snd = some none := by
    decide +kernel
  have hexec : ((CreateCall.open 0 longName).exec (Vfs.rootfs none)).map Prod.snd =
      some (some 1) := by decide +kernel
  have hagain : ((CreateCall.open 0 longName).exec (Vfs.rootfs none)).bind
      (fun r => (vfsLookup r.1 0 longName).map Prod.snd) = some none := by decide +kernel
  obtain ⟨⟨s₀, _⟩, hun, rfl⟩ := Option.map_eq_some_iff.1 hun
  obtain ⟨⟨s', _⟩, hexec, rfl⟩ := Option.map_eq_some_iff.1 hexec
  refine ⟨s₀, s', 1, hun, hexec, ?_⟩
  rintro ⟨⟨s₁, hlook⟩, -⟩
  rw [hexec, Option.bind_some, hlook] at hagain
  cases hagain

end BareMetalOS.Files
