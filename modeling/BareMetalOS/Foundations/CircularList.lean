import Mathlib.Data.List.Chain
import Mathlib.Data.List.Nodup
import Mathlib.Tactic

/-!
# Circular doubly linked lists

`Linked next prev h l`: the pointers `next` and `prev` link the head `h` and the nodes `l`, in this
order, into a ring. The nodes may lie anywhere, so an operation on a list is described by what it
does to the pointers of the nodes of that list: `Linked.add` puts a node behind the head,
`Linked.remove` takes one off, and `Linked.congr` is for a list that the operation does not touch.
-/

namespace BareMetalOS

variable {α : Type*} {next prev next' prev' : α → α} {h a b e : α} {l xs ys : List α}

/-- The nodes `l` follow the head `h` in a ring. -/
structure Linked (next prev : α → α) (h : α) (l : List α) : Prop where
  nodup : (h :: l).Nodup
  chain : (h :: l ++ [h]).IsChain fun a b => next a = b ∧ prev b = a

namespace Linked

theorem nil (hn : next h = h) (hp : prev h = h) : Linked next prev h [] :=
  ⟨List.nodup_singleton h, .cons_cons ⟨hn, hp⟩ (.singleton h)⟩

theorem mem_of_mem_ring (hmem : a ∈ h :: l ++ [h]) : a ∈ h :: l := by
  simp only [List.mem_append, List.mem_cons, List.not_mem_nil, or_false] at hmem ⊢
  tauto

theorem congr (hl : Linked next prev h l)
    (heq : ∀ a ∈ h :: l, next' a = next a ∧ prev' a = prev a) : Linked next' prev' h l := by
  refine ⟨hl.nodup, hl.chain.imp_of_mem_imp fun a b ha hb hab => ?_⟩
  rw [(heq a (mem_of_mem_ring ha)).1, (heq b (mem_of_mem_ring hb)).2]
  exact hab

/-- The node behind `a`. -/
theorem next_eq (hl : Linked next prev h l) (hs : h :: l = xs ++ a :: ys) :
    next a = ys.headD h := by
  have hchain := hl.chain
  rw [hs, List.append_assoc, List.cons_append] at hchain
  cases ys with
  | nil =>
    rw [List.nil_append, List.isChain_append_cons_cons] at hchain
    exact hchain.2.1.1
  | cons y ys =>
    rw [List.cons_append, List.isChain_append_cons_cons] at hchain
    exact hchain.2.1.1

/-- The head comes first. -/
theorem ne_head (hl : Linked next prev h l) (hs : h :: l = xs ++ a :: ys) (hxs : xs ≠ []) :
    a ≠ h := by
  obtain ⟨x, xs, rfl⟩ := List.exists_cons_of_ne_nil hxs
  obtain ⟨rfl, rfl⟩ := List.cons.inj hs
  rintro rfl
  exact (List.nodup_cons.1 hl.nodup).1 (by simp)

theorem next_head (hl : Linked next prev h l) : next h = l.headD h := by
  have hs : h :: l = [] ++ h :: l := rfl
  exact hl.next_eq hs

/-- The list is empty exactly if its head points to itself. -/
theorem next_head_eq_iff (hl : Linked next prev h l) : next h = h ↔ l = [] := by
  rw [hl.next_head]
  cases l with
  | nil => simp
  | cons y l =>
    have hne : y ≠ h := fun heq => (List.nodup_cons.1 hl.nodup).1 (heq ▸ List.mem_cons_self)
    simpa using hne

theorem next_mem (hl : Linked next prev h l) (ha : a ∈ h :: l) : next a ∈ h :: l := by
  obtain ⟨xs, ys, hs⟩ := List.append_of_mem ha
  rw [hl.next_eq hs]
  cases ys with
  | nil => exact List.mem_cons_self
  | cons y ys =>
    rw [hs]
    simp

/-- The ring the other way round. -/
theorem reverse (hl : Linked next prev h l) : Linked prev next h l.reverse := by
  refine ⟨?_, ?_⟩
  · have hnd := List.nodup_cons.1 hl.nodup
    exact List.nodup_cons.2 ⟨by simpa using hnd.1, List.nodup_reverse.2 hnd.2⟩
  · have hrev : h :: l.reverse ++ [h] = (h :: l ++ [h]).reverse := by simp
    rw [hrev, List.isChain_reverse]
    exact hl.chain.imp fun _ _ hab => ⟨hab.2, hab.1⟩

theorem prev_mem (hl : Linked next prev h l) (ha : a ∈ h :: l) : prev a ∈ h :: l := by
  have hmem := hl.reverse.next_mem (a := a) (by simpa using ha)
  simpa using hmem

variable [DecidableEq α]

/-- `list_add`: the node `b` is put behind the head. -/
theorem add (hl : Linked next prev h l) (hb : b ∉ h :: l)
    (hnext : ∀ a ∈ h :: b :: l, next' a = if a = h then b else if a = b then next h else next a)
    (hprev : ∀ a ∈ h :: b :: l, prev' a = if a = b then h else if a = next h then b else prev a) :
    Linked next' prev' h (b :: l) := by
  obtain ⟨hbh, hbl⟩ : b ≠ h ∧ b ∉ l := by simpa using hb
  have hnd := List.nodup_cons.1 hl.nodup
  refine ⟨List.nodup_cons.2 ⟨?_, List.nodup_cons.2 ⟨hbl, hnd.2⟩⟩, ?_⟩
  · exact fun hmem => (List.mem_cons.1 hmem).elim (Ne.symm hbh) hnd.1
  have hhb : next' h = b ∧ prev' b = h := by
    rw [hnext h (by simp), if_pos rfl, hprev b (by simp), if_pos rfl]
    exact ⟨rfl, rfl⟩
  have hbn : next' b = next h := by
    rw [hnext b (by simp), if_neg hbh, if_pos rfl]
  have hpn : prev' (next h) = b := by
    have hmem := hl.next_mem List.mem_cons_self
    rw [hprev _ (List.mem_cons.2 ((List.mem_cons.1 hmem).imp_right (List.mem_cons_of_mem b))),
      if_neg (ne_of_mem_of_not_mem hmem hb), if_pos rfl]
  refine List.isChain_cons_cons.2 ⟨hhb, ?_⟩
  cases l with
  | nil =>
    rw [hl.next_head] at hbn hpn
    exact .cons_cons ⟨hbn, hpn⟩ (.singleton h)
  | cons y l =>
    rw [hl.next_head, List.headD_cons] at hbn hpn
    refine List.isChain_cons_cons.2 ⟨⟨hbn, hpn⟩, ?_⟩
    have hchain := (List.isChain_cons_cons.1 hl.chain).2
    refine hchain.imp_of_mem_tail_imp fun c d hc hd hcd => ?_
    -- the old neighbours `c` and `d`: `c` is not the head, and `d` does not follow it
    have hdy : d ≠ y := by
      rintro rfl
      rcases List.mem_append.1 hd with hd | hd
      · exact (List.nodup_cons.1 hnd.2).1 hd
      · exact hnd.1 (List.mem_singleton.1 hd ▸ List.mem_cons_self)
    have hch : c ≠ h := by
      rintro rfl
      exact hdy (hcd.1.symm.trans hl.next_head)
    have hc' : c ∈ h :: y :: l := mem_of_mem_ring (List.mem_cons_of_mem h hc)
    have hd' : d ∈ h :: y :: l :=
      mem_of_mem_ring (List.mem_cons_of_mem h (List.mem_cons_of_mem y hd))
    have hcb : c ≠ b := fun heq => hb (heq ▸ hc')
    have hdb : d ≠ b := fun heq => hb (heq ▸ hd')
    have hin : ∀ {x}, x ∈ h :: y :: l → x ∈ h :: b :: y :: l := fun hx =>
      List.mem_cons.2 ((List.mem_cons.1 hx).imp_right (List.mem_cons_of_mem b))
    rw [hnext c (hin hc'), if_neg hch, if_neg hcb, hprev d (hin hd'), if_neg hdb,
      if_neg (by rwa [hl.next_head])]
    exact hcd

/-- `list_del`: the node `e` is taken off; its own pointers do not matter any more. -/
theorem remove (hl : Linked next prev h l) (he : e ∈ l)
    (hnext : ∀ a ∈ h :: l, a ≠ e → next' a = if a = prev e then next e else next a)
    (hprev : ∀ a ∈ h :: l, a ≠ e → prev' a = if a = next e then prev e else prev a) :
    Linked next' prev' h (l.erase e) := by
  obtain ⟨pre, suf, hpre, rfl, herase⟩ := List.exists_erase_eq he
  rw [herase]
  have hnd := hl.nodup
  have hsub : (h :: (pre ++ suf)).Sublist (h :: (pre ++ e :: suf)) :=
    ((List.Sublist.refl pre).append (List.sublist_cons_self e suf)).cons_cons h
  have hne : e ∉ h :: (pre ++ suf) := by
    rw [← List.cons_append] at hnd ⊢
    exact (List.nodup_cons.1 (List.nodup_middle.1 hnd)).1
  refine ⟨hnd.sublist hsub, ?_⟩
  have hchain := hl.chain
  -- the last node before `e` and the first one after it
  obtain ⟨xs, p, hxs⟩ : ∃ xs p, h :: pre = xs ++ [p] :=
    ⟨_, _, (List.dropLast_append_getLast (List.cons_ne_nil h pre)).symm⟩
  obtain ⟨x, ys, hys⟩ : ∃ x ys, suf ++ [h] = x :: ys := List.exists_cons_of_ne_nil (by simp)
  have hold : h :: (pre ++ e :: suf) ++ [h] = xs ++ p :: e :: x :: ys := by
    rw [← List.cons_append, hxs]
    simp [hys]
  have hnew : h :: (pre ++ suf) ++ [h] = xs ++ p :: x :: ys := by
    rw [← List.cons_append, hxs]
    simp [hys]
  have hring : ∀ c ∈ xs ++ p :: x :: ys, c ∈ h :: (pre ++ suf) := fun c hc =>
    mem_of_mem_ring (hnew ▸ hc)
  rw [hold, List.isChain_append_cons_cons, List.isChain_cons_cons] at hchain
  obtain ⟨hleft, ⟨hpe, hep⟩, ⟨hex, hxe⟩, hright⟩ := hchain
  rw [hnew, List.isChain_append_cons_cons]
  -- neighbours other than `e` stay neighbours
  have hkeep : ∀ c d, c ∈ h :: (pre ++ suf) → d ∈ h :: (pre ++ suf) →
      next c = d ∧ prev d = c → next' c = d ∧ prev' d = c := by
    rintro c d hc hd ⟨hcd, hdc⟩
    have hce : c ≠ e := fun heq => hne (heq ▸ hc)
    have hde : d ≠ e := fun heq => hne (heq ▸ hd)
    rw [hnext c (hsub.subset hc) hce, hprev d (hsub.subset hd) hde, hep, hex, if_neg, if_neg]
    · exact ⟨hcd, hdc⟩
    · rintro rfl
      exact hce (hdc.symm.trans hxe)
    · rintro rfl
      exact hde (hcd.symm.trans hpe)
  refine ⟨hleft.imp_of_mem_imp fun c d hc hd => hkeep c d (hring c ?_) (hring d ?_), ⟨?_, ?_⟩,
    hright.imp_of_mem_imp fun c d hc hd => hkeep c d (hring c ?_) (hring d ?_)⟩
  · simp only [List.mem_append, List.mem_cons] at hc ⊢
    tauto
  · simp only [List.mem_append, List.mem_cons] at hd ⊢
    tauto
  · have hp := hring p (by simp)
    rw [hnext p (hsub.subset hp) fun heq => hne (heq ▸ hp), hep, if_pos rfl, hex]
  · have hx := hring x (by simp)
    rw [hprev x (hsub.subset hx) fun heq => hne (heq ▸ hx), hex, if_pos rfl, hep]
  · simp only [List.mem_append, List.mem_cons] at hc ⊢
    tauto
  · simp only [List.mem_append, List.mem_cons] at hd ⊢
    tauto

end Linked

end BareMetalOS
