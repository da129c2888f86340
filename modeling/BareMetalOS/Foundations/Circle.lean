import BareMetalOS.Foundations.Ring

/-!
# Going round a list

A list without repetitions is a circle if one goes on with its head after its last element. `around
l c` is the list of the other elements in the order in which one meets them from `c` on, and `waits
l c a` the number of those met before `a`. A search around the circle that would stop at `a` brings
`a` nearer (`waits_of_find?`). Taking elements out of the circle does so too (`waits_filter_le`),
and a new element moves `a` away by one place at most (`waits_insert_le`). A circular list in a heap
is such a circle (`Ring.around`).
-/

namespace BareMetalOS

variable {α : Type*} [DecidableEq α] {l l₁ l₂ : List α} {a c n x : α} {p : α → Bool}

/-- The elements met from `c` on, going round the list back to `c`. -/
def around (l : List α) (c : α) : List α := (l.dropWhile (· ≠ c)).tail ++ l.takeWhile (· ≠ c)

/-- The number of elements met from `c` on before `a`. -/
def waits (l : List α) (c a : α) : ℕ := (around l c ++ [c]).idxOf a

theorem around_append (h : c ∉ l₁) : around (l₁ ++ c :: l₂) c = l₂ ++ l₁ := by
  have hne : ∀ b ∈ l₁, decide (b ≠ c) = true := fun b hb => decide_eq_true fun hbc => h (hbc ▸ hb)
  rw [around, List.dropWhile_append_of_pos hne, List.takeWhile_append_of_pos hne]
  simp

theorem around_head (c : α) (l : List α) : around (c :: l) c = l := by
  simp [around]

/-- The way round from an element met on the way round. -/
theorem around_of_around {as bs : List α} (hnd : l.Nodup) (hc : c ∈ l)
    (h : around l c = as ++ n :: bs) : around l n = bs ++ c :: as := by
  obtain ⟨l₁, l₂, rfl⟩ := List.append_of_mem hc
  obtain ⟨-, hcl, hdisj⟩ := List.nodup_append.1 hnd
  rw [around_append fun hc => hdisj c hc c List.mem_cons_self rfl] at h
  rcases List.append_eq_append_iff.1 h with ⟨m, rfl, hm⟩ | ⟨m, hm, hbs⟩
  · -- `n` comes before `c` in the list
    have hn : n ∉ m := by
      subst hm
      rw [List.append_assoc, List.nodup_append] at hnd
      exact fun hn => hnd.2.2 n hn n (by simp) rfl
    rw [hm, List.append_assoc, List.cons_append, around_append hn]
    simp
  · cases m with
    | nil =>
      -- `n` is the first element of the list
      obtain rfl : l₁ = n :: bs := by simpa using hbs.symm
      obtain rfl : as = l₂ := by simpa using hm.symm
      exact around_head n _
    | cons m₀ m =>
      -- `n` comes after `c` in the list
      obtain ⟨rfl, rfl⟩ : n = m₀ ∧ bs = m ++ l₁ := by simpa using hbs
      subst hm
      have hn : n ∉ l₁ ++ c :: as := by
        rw [show l₁ ++ c :: (as ++ n :: m) = (l₁ ++ c :: as) ++ n :: m by simp,
          List.nodup_append] at hnd
        exact fun hn => hnd.2.2 n hn n List.mem_cons_self rfl
      rw [show l₁ ++ c :: (as ++ n :: m) = (l₁ ++ c :: as) ++ n :: m by simp, around_append hn]
      simp

theorem mem_around (hc : c ∈ l) : a ∈ around l c ++ [c] ↔ a ∈ l := by
  obtain ⟨l₁, l₂, rfl, hl₁⟩ := List.eq_append_cons_of_mem hc
  rw [around_append hl₁]
  simp only [List.mem_append, List.mem_cons, List.not_mem_nil, or_false]
  tauto

/-- A circular list in a heap, from the node after `c` on. -/
theorem Ring.around {β : Type*} {heap : α → Option β} {next : β → α} {head : α} {t : β}
    (h : Ring heap next head l) (hc : c ∈ l) (ht : heap c = some t) :
    Ring heap next (next t) (around l c ++ [c]) ∧ (BareMetalOS.around l c ++ [c]).Perm l := by
  obtain ⟨l₁, l₂, rfl, hl₁⟩ := List.eq_append_cons_of_mem hc
  rw [around_append hl₁, List.append_assoc]
  exact h.rotate_append ht

/-! ## Searching -/

/-- A search around the circle that would stop at `a` ends at `a`, or nearer to it. -/
theorem waits_of_find? (hnd : l.Nodup) (hc : c ∈ l) (ha : a ∈ l) (hp : p a)
    (h : (around l c ++ [c]).find? p = some n) : n = a ∨ waits l n a < waits l c a := by
  obtain ⟨-, as, bs, hsplit, has⟩ := List.find?_eq_some_iff_append.1 h
  have hna : a ∉ as := fun ha' => by simpa [hp] using has a ha'
  rcases eq_or_ne n a with rfl | hne
  · exact .inl rfl
  have hw : waits l c a = as.length + (bs.idxOf a + 1) := by
    rw [waits, hsplit, List.idxOf_append_of_notMem hna, List.idxOf_cons_ne _ hne]
  refine .inr ?_
  have habs : a ∈ bs := by
    have := (mem_around hc).2 ha
    rw [hsplit] at this
    simp only [List.mem_append, List.mem_cons, hna, hne.symm, false_or] at this
    exact this
  -- the way from `n` begins with `bs`, without its last element
  cases bs using List.reverseRecOn with
  | nil => cases habs
  | append_singleton bs b =>
    have hsplit' : around l c ++ [c] = (as ++ n :: bs) ++ [b] := by simpa using hsplit
    obtain ⟨hround, hb⟩ := List.append_inj' hsplit' rfl
    obtain rfl : c = b := by simpa using hb
    rw [hw, waits, around_of_around hnd hc hround]
    by_cases hab : a ∈ bs
    · rw [List.append_assoc, List.idxOf_append_of_mem hab, List.idxOf_append_of_mem hab]
      omega
    · obtain rfl : a = c := by simpa [hab] using habs
      rw [List.append_assoc, List.idxOf_append_of_notMem hab, List.idxOf_append_of_notMem hab]
      simp
      omega

/-! ## Changing the circle -/

theorem idxOf_filter_le (hp : p a) (l : List α) : (l.filter p).idxOf a ≤ l.idxOf a := by
  induction l with
  | nil => rfl
  | cons b l ih =>
    rw [List.filter_cons]
    rcases eq_or_ne b a with rfl | hne
    · simp [hp]
    · rw [List.idxOf_cons_ne _ hne]
      split
      · rw [List.idxOf_cons_ne _ hne]
        omega
      · omega

theorem idxOf_insert_le (l₁ l₂ : List α) : (l₁ ++ x :: l₂).idxOf a ≤ (l₁ ++ l₂).idxOf a + 1 := by
  by_cases ha : a ∈ l₁
  · rw [List.idxOf_append_of_mem ha, List.idxOf_append_of_mem ha]
    omega
  · rw [List.idxOf_append_of_notMem ha, List.idxOf_append_of_notMem ha, List.idxOf_cons]
    cases x == a
    · exact le_rfl
    · exact (by omega : l₁.length + 0 ≤ l₁.length + l₂.idxOf a + 1)

theorem around_filter (hc : c ∈ l) (hp : p c) :
    around (l.filter p) c = (around l c).filter p := by
  obtain ⟨l₁, l₂, rfl, hl₁⟩ := List.eq_append_cons_of_mem hc
  rw [around_append hl₁, List.filter_append, List.filter_cons_of_pos hp,
    around_append fun h => hl₁ (List.mem_of_mem_filter h), List.filter_append]

/-- Taking other elements out moves `a` nearer. -/
theorem waits_filter_le (hc : c ∈ l) (hpc : p c) (hpa : p a) :
    waits (l.filter p) c a ≤ waits l c a := by
  have hfilter : (around l c ++ [c]).filter p = around (l.filter p) c ++ [c] := by
    rw [List.filter_append, around_filter hc hpc, List.filter_singleton, hpc]
    rfl
  rw [waits, ← hfilter]
  exact idxOf_filter_le hpa _

/-- A new element behind the head moves `a` away by one place at most. -/
theorem waits_insert_le {h : α} (hc : c ∈ h :: l) (hx : x ≠ c) :
    waits (h :: x :: l) c a ≤ waits (h :: l) c a + 1 := by
  rcases eq_or_ne h c with rfl | hne
  · rw [waits, waits, around_head, around_head]
    simpa using idxOf_insert_le (a := a) (x := x) [] (l ++ [h])
  · have hcl : c ∈ l := by simpa [hne.symm] using hc
    obtain ⟨l₁, l₂, rfl, hl₁⟩ := List.eq_append_cons_of_mem hcl
    have h₁ : around (h :: (l₁ ++ c :: l₂)) c = l₂ ++ h :: l₁ :=
      @around_append _ _ (h :: l₁) l₂ c (by simpa [hne.symm] using hl₁)
    have h₂ : around (h :: x :: (l₁ ++ c :: l₂)) c = l₂ ++ h :: x :: l₁ :=
      @around_append _ _ (h :: x :: l₁) l₂ c (by simpa [hne.symm, hx.symm] using hl₁)
    rw [waits, waits, h₁, h₂]
    simpa using idxOf_insert_le (a := a) (x := x) (l₂ ++ [h]) (l₁ ++ [c])

end BareMetalOS
