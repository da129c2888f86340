import BareMetalOS.Files.Buffers

/-!
# The parent and the child of a path

What `get_parent_and_child` splits off is the last component: the parent resolves as the path
without it does. A path of 255 bytes loses its last byte in this, which is part of its last
component unless it is a slash (`splits`).
-/

namespace BareMetalOS.Files

open Memory (Addr)
open Boot (Byte cstr)

variable {path d c l a b y : List Byte} {i : ℕ} {last : Option ℕ}

/-! ## The components of a path with a suffix -/

theorem significant_append_slash (p q : List Byte) :
    significant (p ++ 0x2f :: q) = significant p ++ significant q := by
  simp only [significant, ← components_eq, components_append_slash, List.filter_append]

theorem significant_nil : significant [] = [] := by decide

theorem significant_replicate (p : List Byte) (k : ℕ) :
    significant (p ++ List.replicate k 0x2f) = significant p := by
  induction k with
  | zero => rw [List.replicate_zero, List.append_nil]
  | succ k ih =>
    have hnil : significant (List.replicate k 0x2f) = [] := by
      clear ih
      induction k with
      | zero => exact significant_nil
      | succ k ih =>
        rw [List.replicate_succ]
        exact (significant_append_slash [] _).trans (by rw [ih, significant_nil]; rfl)
    rw [List.replicate_succ, significant_append_slash, hnil, List.append_nil]

theorem significant_single (hslash : 0x2f ∉ c) (hne : c ≠ []) (hdot : c ≠ cstr ".") :
    significant c = [c] := by
  rw [significant, pathComponents_single hslash hne, List.filter_cons_of_pos (by simpa using hdot)]
  rfl

/-! ## The last slash -/

theorem lastSlash_of_notMem (h : 0x2f ∉ l) : lastSlash l i last = last := by
  induction l generalizing i last with
  | nil => rfl
  | cons c l ih =>
    rw [List.mem_cons, not_or] at h
    rw [lastSlash, if_neg (Ne.symm h.1), ih h.2]

theorem lastSlash_append (h : 0x2f ∉ b) :
    lastSlash (a ++ 0x2f :: b) i last = some (i + a.length) := by
  induction a generalizing i last with
  | nil =>
    rw [List.nil_append, lastSlash, if_pos rfl, lastSlash_of_notMem h]
    rfl
  | cons c a ih =>
    rw [List.cons_append, lastSlash, ih, List.length_cons]
    congr 1
    omega

/-- A string with a slash at its last one. -/
theorem exists_lastSlash (h : 0x2f ∈ l) : ∃ a b, l = a ++ 0x2f :: b ∧ 0x2f ∉ b := by
  obtain ⟨b, a, heq, hb⟩ := List.eq_append_cons_of_mem (List.mem_reverse.2 h)
  refine ⟨a.reverse, b.reverse, ?_, fun hmem => hb (List.mem_reverse.1 hmem)⟩
  have := congrArg List.reverse heq
  simpa using this

/-- A slash splits the path that is seen into the parent and the child; without one, the parent is
the working directory. -/
theorem getParentAndChild_cases (h : getParentAndChild path = some (d, c)) :
    0x2f ∉ c ∧ (seenPath path = c ∧ d = cstr "." ∨
      ∃ a, seenPath path = a ++ 0x2f :: c ∧ d = if a = [] then cstr "/" else a) := by
  have hlen : path.length ≤ 255 := by
    by_contra hlong
    rw [getParentAndChild, if_pos (by omega)] at h
    cases h
  rw [getParentAndChild_eq hlen] at h
  by_cases hslash : 0x2f ∈ seenPath path
  · obtain ⟨a, b, hab, hb⟩ := exists_lastSlash hslash
    have hlast : lastSlash (seenPath path) 0 none = some a.length := by
      rw [hab, lastSlash_append hb, Nat.zero_add]
    rw [hlast] at h
    cases a with
    | nil =>
      rw [hab] at h
      cases h
      exact ⟨hb, .inr ⟨[], hab, by decide⟩⟩
    | cons x a =>
      have htake : (seenPath path).take (x :: a).length = x :: a := by
        rw [hab]
        exact List.take_left
      have hdrop : (seenPath path).drop ((x :: a).length + 1) = b := by
        rw [hab, ← List.drop_drop, List.drop_left]
        rfl
      rw [List.length_cons] at h htake hdrop
      simp only [Option.some.injEq, Prod.mk.injEq] at h
      obtain ⟨rfl, rfl⟩ := h
      rw [hdrop, htake]
      exact ⟨hb, .inr ⟨x :: a, hab, rfl⟩⟩
  · rw [lastSlash_of_notMem hslash] at h
    cases h
    exact ⟨hslash, .inl ⟨rfl, by decide⟩⟩

/-! ## What is seen of a path -/

/-- The slashes that are stripped, on the reversed string. -/
theorem exists_stripSlashes (l : List Byte) :
    (∃ k, l = List.replicate k 0x2f ++ stripSlashes l) ∧ (stripSlashes l = [] → l = []) := by
  induction l with
  | nil => exact ⟨⟨0, rfl⟩, fun _ => rfl⟩
  | cons c l ih =>
    cases l with
    | nil => exact ⟨⟨0, rfl⟩, id⟩
    | cons d l =>
      obtain ⟨⟨k, hk⟩, hnil⟩ := ih
      rw [stripSlashes]
      split
      · rename_i hc
        refine ⟨⟨k + 1, ?_⟩, fun h => ?_⟩
        · rw [hc, List.replicate_succ, List.cons_append, ← hk]
        · cases hnil h
      · exact ⟨⟨0, rfl⟩, id⟩

/-- Trailing slashes of a path of at most 254 bytes are not seen. -/
theorem seenPath_short (h : path.length ≤ 254) :
    (∃ k, path = seenPath path ++ List.replicate k 0x2f) ∧ (seenPath path = [] → path = []) := by
  obtain ⟨⟨k, hk⟩, hnil⟩ := exists_stripSlashes path.reverse
  rw [seenPath, if_pos h]
  refine ⟨⟨k, ?_⟩, fun heq => ?_⟩
  · have := congrArg List.reverse hk
    simpa using this
  · rw [List.reverse_eq_nil_iff] at heq
    exact List.reverse_eq_nil_iff.1 (hnil heq)

/-- The byte of the last component that `get_parent_and_child` does not see. -/
def lostByte (path : List Byte) : List Byte :=
  if path.length = 255 then (path.drop 254).filter (· ≠ 0x2f) else []

theorem notMem_lostByte (path : List Byte) : 0x2f ∉ lostByte path := by
  rw [lostByte]
  split
  · simp
  · exact List.not_mem_nil

/-- What is seen of a path, with the byte that is lost, has its components and its first byte. -/
theorem seenPath_append (hlen : path.length ≤ 255) :
    significant path = significant (seenPath path ++ lostByte path) ∧
      path.head? = (seenPath path ++ lostByte path).head? := by
  rw [lostByte]
  split
  · rename_i h255
    have hseen : seenPath path = path.take 254 := if_neg (by omega)
    obtain ⟨x, hx⟩ : ∃ x, path.drop 254 = [x] := by
      apply List.length_eq_one_iff.1
      rw [List.length_drop]
      omega
    have hsplit : path = path.take 254 ++ [x] := by
      rw [← hx, List.take_append_drop]
    have hne : path.take 254 ≠ [] := by
      intro hnil
      have := congrArg List.length hnil
      rw [List.length_take, List.length_nil] at this
      omega
    rw [hseen, hx]
    by_cases hslash : x = 0x2f
    · rw [List.filter_cons_of_neg (by simpa using hslash), List.filter_nil, List.append_nil]
      constructor
      · conv_lhs => rw [hsplit, hslash]
        exact significant_replicate _ 1
      · conv_lhs => rw [hsplit]
        exact List.head?_append_of_ne_nil _ hne
    · rw [List.filter_cons_of_pos (by simpa using hslash), List.filter_nil, ← hsplit]
      exact ⟨rfl, rfl⟩
  · have hshort : path.length ≤ 254 := by omega
    obtain ⟨⟨k, hk⟩, hnil⟩ := seenPath_short hshort
    rw [List.append_nil]
    by_cases hseen : seenPath path = []
    · rw [hseen, hnil hseen]
      exact ⟨rfl, rfl⟩
    · constructor
      · conv_lhs => rw [hk]
        exact significant_replicate _ k
      · conv_lhs => rw [hk]
        exact List.head?_append_of_ne_nil _ hseen

/-- **Splitting a path.** The components of a path are those of its parent and, with the byte that
is lost, its child. -/
theorem splits (h : getParentAndChild path = some (d, c)) :
    significant path = significant d ++ significant (c ++ lostByte path) ∧
      (path.head? = some 0x2f ↔ d.head? = some 0x2f) ∧ 0x2f ∉ c ++ lostByte path := by
  have hlen : path.length ≤ 255 := by
    by_contra hlong
    rw [getParentAndChild, if_pos (by omega)] at h
    cases h
  obtain ⟨hsig, hhead⟩ := seenPath_append hlen
  obtain ⟨hc, ⟨hseen, rfl⟩ | ⟨a, hseen, rfl⟩⟩ := getParentAndChild_cases h
  · have hslash : 0x2f ∉ c ++ lostByte path :=
      fun hmem => (List.mem_append.1 hmem).elim hc (notMem_lostByte path)
    rw [hsig, hhead, hseen]
    refine ⟨rfl, iff_of_false (fun hh => hslash (List.mem_of_mem_head? hh)) (by decide), hslash⟩
  · have hslash : 0x2f ∉ c ++ lostByte path :=
      fun hmem => (List.mem_append.1 hmem).elim hc (notMem_lostByte path)
    rw [hsig, hhead, hseen, List.append_assoc, List.cons_append, significant_append_slash]
    split
    · subst a
      refine ⟨?_, iff_of_true rfl (by decide), hslash⟩
      rw [significant_nil]
      rfl
    · rename_i ha
      refine ⟨rfl, ?_, hslash⟩
      rw [List.head?_append_of_ne_nil _ ha]

/-! ## All components -/

theorem pathComponents_append_slash (p q : List Byte) :
    pathComponents (p ++ 0x2f :: q) = pathComponents p ++ pathComponents q := by
  simp only [← components_eq, components_append_slash]

theorem pathComponents_nil : pathComponents [] = [] := by decide

theorem pathComponents_replicate (p : List Byte) (k : ℕ) :
    pathComponents (p ++ List.replicate k 0x2f) = pathComponents p := by
  induction k generalizing p with
  | zero => rw [List.replicate_zero, List.append_nil]
  | succ k ih =>
    have hslash := ih (p ++ [0x2f])
    rw [List.append_assoc, List.singleton_append, ← List.replicate_succ] at hslash
    rw [hslash, pathComponents_append_slash, pathComponents_nil, List.append_nil]

/-- The slashes are stripped, except a first one. -/
theorem stripSlashes_head (h : (stripSlashes l).head? = some 0x2f) : stripSlashes l = [0x2f] := by
  induction l with
  | nil => cases h
  | cons x l ih =>
    cases l with
    | nil =>
      cases h
      rfl
    | cons y l =>
      rw [stripSlashes] at h ⊢
      split at h
      · rw [if_pos ‹_›]
        exact ih h
      · cases h
        contradiction

/-- A last slash that is seen is the whole of what is seen. -/
theorem seenPath_getLast (hlen : path.length ≤ 254) (h : seenPath path = a ++ [0x2f]) : a = [] := by
  rw [seenPath, if_pos hlen, List.reverse_eq_iff, List.reverse_append] at h
  have hhead : (stripSlashes path.reverse).head? = some 0x2f := by
    rw [h]
    rfl
  have hone := stripSlashes_head hhead
  rw [h] at hone
  simpa using hone

/-- **The split of a path.** Inside its buffers, whatever these held, `get_parent_and_child` splits
off the last component; the parent is `"."` for a bare name, and otherwise has the other
components, and is absolute exactly when the path is. -/
theorem getParentAndChildIn_splits (pathname : List Byte) (hnul : 0 ∉ pathname)
    (hlen : pathname.length ≤ 254) (hne : pathComponents pathname ≠ [])
    (temp dirname childname : Fin pathMax → Byte) :
    ∃ d c dir child, getParentAndChildIn pathname ⟨.temp, temp⟩ ⟨.dirname, dirname⟩
        ⟨.filename, childname⟩ = .ok (dir, child) ∧
      dir.Holds d ∧ child.Holds c ∧ 0x2f ∉ c ∧
      (pathComponents pathname).getLast? = some c ∧
      (d.head? = some 0x2f ↔ pathname.head? = some 0x2f) ∧
      if pathname.head? ≠ some 0x2f ∧ pathComponents pathname = [c] then d = cstr "."
      else pathComponents d ++ [c] = pathComponents pathname := by
  obtain ⟨d, c, dir, child, hsplit, hrun, hdir, hchild⟩ :=
    @getParentAndChildIn_ok ⟨.temp, temp⟩ pathname hnul (by omega) ⟨.dirname, dirname⟩
      ⟨.filename, childname⟩ rfl
  obtain ⟨hslash, hcases⟩ := getParentAndChild_cases hsplit
  obtain ⟨⟨k, hk⟩, hnil⟩ := seenPath_short hlen
  have hcomp : pathComponents pathname = pathComponents (seenPath pathname) := by
    conv_lhs => rw [hk]
    exact pathComponents_replicate _ k
  have hseen : seenPath pathname ≠ [] := by
    intro heq
    rw [hnil heq] at hne
    exact hne pathComponents_nil
  have hhead : pathname.head? = (seenPath pathname).head? := by
    conv_lhs => rw [hk]
    exact List.head?_append_of_ne_nil _ hseen
  refine ⟨d, c, dir, child, hrun, hdir, hchild, hslash, ?_⟩
  obtain ⟨heq, rfl⟩ | ⟨a, heq, rfl⟩ := hcases
  · -- a bare name
    have hone : pathComponents pathname = [c] := by
      rw [hcomp, heq]
      exact pathComponents_single hslash (heq ▸ hseen)
    have hrel : pathname.head? ≠ some 0x2f := by
      rw [hhead, heq]
      exact fun hc => hslash (List.mem_of_mem_head? hc)
    rw [if_pos ⟨hrel, hone⟩, hone]
    exact ⟨rfl, iff_of_false (by decide) hrel, rfl⟩
  · have hc : c ≠ [] := by
      rintro rfl
      have hroot := seenPath_getLast hlen heq
      rw [hcomp, heq, hroot] at hne
      exact hne (by decide)
    have hlast : pathComponents pathname = pathComponents a ++ [c] := by
      rw [hcomp, heq, pathComponents_append_slash, pathComponents_single hslash hc]
    by_cases ha : a = []
    · subst a
      have habs : pathname.head? = some 0x2f := by
        rw [hhead, heq]
        rfl
      have hslashes : pathComponents (cstr "/") = pathComponents [] := by decide
      rw [if_pos rfl, if_neg fun h => h.1 habs, hlast, List.getLast?_concat]
      exact ⟨rfl, iff_of_true (by decide) habs, congrArg (· ++ [c]) hslashes⟩
    · have hdir : a.head? = pathname.head? := by
        rw [hhead, heq, List.head?_append_of_ne_nil _ ha]
      have hmore : ¬ (pathname.head? ≠ some 0x2f ∧ pathComponents pathname = [c]) := by
        rintro ⟨hrel, hone⟩
        have hfirst := (pathComponents_takeWhile ha (hdir ▸ hrel)).2
        rw [hlast, hfirst] at hone
        simp at hone
      rw [if_neg ha, if_neg hmore, hlast, List.getLast?_concat, hdir]
      exact ⟨rfl, Iff.rfl, rfl⟩

/-- The split of `"a//b/"`. -/
theorem getParentAndChildIn_splits_slashes : ∃ dir child,
    getParentAndChildIn (cstr "a//b/") ⟨.temp, fun _ => 1⟩ ⟨.dirname, fun _ => 1⟩
      ⟨.filename, fun _ => 1⟩ = .ok (dir, child) ∧ child.Holds (cstr "b") := by
  obtain ⟨d, c, dir, child, hrun, -, hchild, -, hlast, -⟩ :=
    getParentAndChildIn_splits (cstr "a//b/") (by decide) (by decide) (by decide) (fun _ => 1)
      (fun _ => 1) (fun _ => 1)
  have hb : (pathComponents (cstr "a//b/")).getLast? = some (cstr "b") := by decide
  rw [hb, Option.some.injEq] at hlast
  exact ⟨dir, child, hrun, hlast ▸ hchild⟩

end BareMetalOS.Files
