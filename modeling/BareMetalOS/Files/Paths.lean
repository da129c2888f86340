import BareMetalOS.Files.Mounts
import BareMetalOS.Files.Readers

/-!
# Spellings of a path

Of a path, a lookup depends on the first byte and on the components other than `""` and `"."` alone
(`lookup_eq_of_significant`): repeated, trailing and leading slashes separate nothing, and the
component `"."` stays at the vnode below the mounts, where the next component, or the end of the
path, would have gone as well.
-/

namespace BareMetalOS.Files

open Memory (Addr)
open Boot (Byte cstr)

variable {s s' : Vfs} {cur : Addr} {c path path' : List Byte} {v r : ℕ} {cs : List (List Byte)}

/-! ## Components -/

/-- The scanner of `vfs_lookup` reads the pieces between the slashes, other than the empty ones. -/
theorem components_append (hc : 0x2f ∉ c) (path : List Byte) :
    components path c = pathComponents (c ++ path) := by
  induction path generalizing c with
  | nil =>
    rw [components, List.append_nil]
    split
    · subst c
      decide
    · rw [pathComponents_single hc ‹_›]
  | cons x path ih =>
    rw [components]
    split
    · subst x
      have hrest : components path [] = pathComponents path := ih (List.not_mem_nil)
      split
      · subst c
        rw [List.nil_append, pathComponents_sep, hrest]
      · rw [pathComponents_cons hc ‹_›, hrest]
    · rename_i hx
      have hcx : 0x2f ∉ c ++ [x] := by
        rw [List.mem_append, List.mem_singleton]
        exact not_or.2 ⟨hc, Ne.symm hx⟩
      rw [ih hcx, List.append_assoc, List.singleton_append]

theorem components_eq (path : List Byte) : components path [] = pathComponents path :=
  components_append List.not_mem_nil path

/-- The components of a path other than `""` and `"."`. -/
def significant (path : List Byte) : List (List Byte) :=
  (pathComponents path).filter (· ≠ cstr ".")

/-! ## The component `.` -/

/-- The vnode below the mounts to which components lead. -/
def resolve (s : Vfs) (v : ℕ) (cs : List (List Byte)) : Option (Vfs × Option ℕ) := do
  match ← walk s v cs with
  | (s, none) => return (s, none)
  | (s, some node) =>
    let node ← cross s node
    return (s, some node)

theorem vfsLookup_eq_resolve (s : Vfs) (cur : Addr) (path : List Byte) :
    vfsLookup s cur path = resolve s (startOf s cur path) (pathComponents path) := by
  rw [← components_eq]
  rfl

theorem resolve_nil (s : Vfs) (v : ℕ) :
    resolve s v [] = (cross s v).map fun r => (s, some r) := by
  cases h : cross s v <;> simp [resolve, walk, h]

/-- The first component, and the others from where it leads. -/
theorem resolve_cons (s : Vfs) (v : ℕ) (c : List Byte) (cs : List (List Byte)) :
    resolve s v (c :: cs) = lookupStep s v c >>= fun r =>
      match r with
      | (s, none) => some (s, none)
      | (s, some w) => resolve s w cs := by
  rw [resolve, walk]
  cases lookupStep s v c with
  | none => rfl
  | some r =>
    obtain ⟨s₁, o⟩ := r
    cases o <;> rfl

/-- What a vnode covers does not matter to the components after it. -/
theorem resolve_cross (h : VfsInv s) (hv : v < s.vnodes.length) (hr : cross s v = some r)
    (cs : List (List Byte)) : resolve s r cs = resolve s v cs := by
  obtain ⟨rv, hrv, hm, -⟩ := cross_some h hv hr
  have hself : cross s r = some r := cross_self h hrv hm
  cases cs with
  | nil => rw [resolve_nil, resolve_nil, hself, hr]
  | cons c cs =>
    have hstep : lookupStep s r c = lookupStep s v c := by
      rw [lookupStep, lookupStep, hself, hr]
    rw [resolve_cons, resolve_cons, hstep]

theorem resolve_dot (h : VfsInv s) (hv : v < s.vnodes.length) (cs : List (List Byte)) :
    resolve s v (cstr "." :: cs) = resolve s v cs := by
  obtain ⟨r, rv, hr, hrv, -⟩ := cross_spec h hv
  have hdot : cstr "." = [0x2e] := by decide
  have hstep : lookupStep s v (cstr ".") = some (s, some r) := by
    simp [lookupStep, hr, hrv, hdot]
  rw [resolve_cons, hstep]
  exact resolve_cross h hv hr cs

/-- The components `"."` may be left out. -/
theorem resolve_filter (h : VfsInv s) (hv : v < s.vnodes.length) (cs : List (List Byte)) :
    resolve s v (cs.filter (· ≠ cstr ".")) = resolve s v cs := by
  induction cs generalizing s v with
  | nil => rfl
  | cons c cs ih =>
    by_cases hc : c = cstr "."
    · subst c
      rw [List.filter_cons_of_neg (by simp), resolve_dot h hv]
      exact ih h hv
    · rw [List.filter_cons_of_pos (by simpa using hc), resolve_cons, resolve_cons]
      cases hstep : lookupStep s v c with
      | none => rfl
      | some p =>
        obtain ⟨s₁, o⟩ := p
        cases o with
        | none => rfl
        | some w =>
          obtain ⟨-, hinv, -, hw⟩ := lookupStep_some h hv hstep
          exact ih hinv (hw w rfl)

/-- A lookup depends on the first byte and the significant components. -/
theorem VfsInv.lookup_eq_significant (h : VfsInv s) (cur : Addr) (path : List Byte) :
    vfsLookup s cur path = resolve s (startOf s cur path) (significant path) := by
  rw [vfsLookup_eq_resolve, significant, resolve_filter h (h.startOf_lt cur path)]

/-- **Main.** In every state that a run from `vfs_init` reaches, and for every thread: two paths
that both or neither begin with a slash and have the same components other than `""` and `"."`, each
of at most 254 bytes, resolve to the same vnode, or neither does. -/
theorem lookup_eq_of_significant (initrd : Option RamfsInode) (ops : List VfsOp) (s : Vfs)
    (hrun : (Vfs.rootfs initrd).run ops = some s) (cur : Addr) (path path' : List Byte)
    (hlen : ∀ c ∈ pathComponents path, c.length ≤ 254)
    (hhead : path.head? = some 0x2f ↔ path'.head? = some 0x2f)
    (hsig : significant path = significant path') :
    ∃ s' o, vfsLookup s cur path = some (s', o) ∧ vfsLookup s cur path' = some (s', o) := by
  have hinv := run_inv (rootfs_inv initrd) hrun
  have hstart : startOf s cur path = startOf s cur path' := by
    rw [startOf, startOf]
    exact if_congr hhead rfl rfl
  have hsame : vfsLookup s cur path = vfsLookup s cur path' := by
    rw [hinv.lookup_eq_significant, hinv.lookup_eq_significant, hstart, hsig]
  rw [← components_eq] at hlen
  obtain ⟨s', o, hlook, -⟩ := vfsLookup_spec hinv cur fun c hc => Nat.lt_succ_of_le (hlen c hc)
  exact ⟨s', o, hlook, hsame.symm.trans hlook⟩

/-- `/a` and `//./a/./` where `/a` is a mount point. -/
theorem lookup_eq_of_significant_mount : ∃ s s' o,
    (Vfs.rootfs none).run [.mkdir 0 (cstr "/a"), .mount 0 (cstr "/a") (some .tmpfs)] = some s ∧
    vfsLookup s 0 (cstr "/a") = some (s', o) ∧ vfsLookup s 0 (cstr "//./a/./") = some (s', o) := by
  obtain ⟨s, hs⟩ : ∃ s, (Vfs.rootfs none).run
      [.mkdir 0 (cstr "/a"), .mount 0 (cstr "/a") (some .tmpfs)] = some s :=
    Option.isSome_iff_exists.1 (by decide +kernel)
  obtain ⟨s', o, h, h'⟩ := lookup_eq_of_significant none _ s hs 0 (cstr "/a") (cstr "//./a/./")
    (by decide +kernel) (by decide +kernel) (by decide +kernel)
  exact ⟨s, s', o, hs, h, h'⟩

end BareMetalOS.Files
