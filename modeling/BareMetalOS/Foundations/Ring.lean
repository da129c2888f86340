import Mathlib.Data.Fintype.Card
import Mathlib.Logic.Function.Basic
import Mathlib.Tactic

/-!
# Circular lists in a heap

Nodes of type `β` live in a heap `α → Option β` and point to each other through `next`.
`Path heap next a l b` says that following the pointers from `a` visits the nodes of `l`, in this
order, and then arrives at `b`; a circular list is a path without repetition from its head back to
the head (`Ring`). A search that walks such a list (`findFrom`) is `List.find?` on its nodes
(`findFrom_eq`); nodes are inserted after and removed behind a node of the path (`Path.insert`,
`Path.remove`).
-/

namespace BareMetalOS

variable {α β : Type*} {heap heap' : α → Option β} {next : β → α}

/-- From `a` the pointers visit the nodes of the list and then arrive at `b`. -/
def Path (heap : α → Option β) (next : β → α) : α → List α → α → Prop
  | a, [], b => a = b
  | a, x :: l, b => a = x ∧ ∃ t, heap a = some t ∧ Path heap next (next t) l b

/-- The circular list from `head` back to `head`. -/
structure Ring (heap : α → Option β) (next : β → α) (head : α) (l : List α) : Prop where
  path : Path heap next head l head
  nodup : l.Nodup
  ne_nil : l ≠ []

/-! ## Paths -/

namespace Path

instance decidable [DecidableEq α] : (a : α) → (l : List α) → (b : α) →
    Decidable (Path heap next a l b)
  | a, [], b => inferInstanceAs (Decidable (a = b))
  | a, x :: l, b =>
    match h : heap a with
    | none => isFalse fun ⟨_, t, ht, _⟩ => by cases h.symm.trans ht
    | some t =>
      have := decidable (next t) l b
      decidable_of_iff (a = x ∧ Path heap next (next t) l b) (by simp [Path, h])

theorem append_iff {l₁ l₂ : List α} {a c : α} :
    Path heap next a (l₁ ++ l₂) c ↔ ∃ b, Path heap next a l₁ b ∧ Path heap next b l₂ c := by
  induction l₁ generalizing a with
  | nil => simp [Path]
  | cons x l₁ ih =>
    simp only [List.cons_append, Path, ih]
    constructor
    · rintro ⟨rfl, t, ht, b, h₁, h₂⟩
      exact ⟨b, ⟨rfl, t, ht, h₁⟩, h₂⟩
    · rintro ⟨b, ⟨rfl, t, ht, h₁⟩, h₂⟩
      exact ⟨rfl, t, ht, b, h₁, h₂⟩

theorem append {l₁ l₂ : List α} {a b c : α} (h₁ : Path heap next a l₁ b)
    (h₂ : Path heap next b l₂ c) : Path heap next a (l₁ ++ l₂) c :=
  append_iff.2 ⟨b, h₁, h₂⟩

theorem head_eq {l : List α} {a b x : α} (h : Path heap next a (x :: l) b) : a = x := h.1

/-- Only the pointers of the nodes visited matter. -/
theorem congr {l : List α} {a b : α} (h : Path heap next a l b)
    (hl : ∀ x ∈ l, ∀ t, heap x = some t → ∃ t', heap' x = some t' ∧ next t' = next t) :
    Path heap' next a l b := by
  induction l generalizing a with
  | nil => exact h
  | cons x l ih =>
    obtain ⟨rfl, t, ht, hp⟩ := h
    obtain ⟨t', ht', hn⟩ := hl a (by simp) t ht
    refine ⟨rfl, t', ht', ?_⟩
    rw [hn]
    exact ih hp fun y hy => hl y (List.mem_cons_of_mem _ hy)

theorem exists_node {l : List α} {a b x : α} (h : Path heap next a l b) (hx : x ∈ l) :
    ∃ t, heap x = some t := by
  induction l generalizing a with
  | nil => simp at hx
  | cons y l ih =>
    obtain ⟨rfl, t, ht, hp⟩ := h
    rcases List.mem_cons.1 hx with rfl | hx
    · exact ⟨t, ht⟩
    · exact ih hp hx

/-- The pointers determine the nodes visited up to the first arrival at the end. -/
theorem unique {l l' : List α} {a b : α} (h : Path heap next a l b) (h' : Path heap next a l' b)
    (hb : b ∉ l) (hb' : b ∉ l') : l = l' := by
  induction l generalizing a l' with
  | nil =>
    cases l' with
    | nil => rfl
    | cons y l' => exact (hb' (by rw [← h'.1, show a = b from h]; simp)).elim
  | cons x l ih =>
    obtain ⟨rfl, t, ht, hp⟩ := h
    cases l' with
    | nil => exact (hb (by rw [show a = b from h']; simp)).elim
    | cons y l' =>
      obtain ⟨rfl, t', ht', hp'⟩ := h'
      cases ht.symm.trans ht'
      rw [ih hp hp' (fun hm => hb (List.mem_cons_of_mem _ hm))
        fun hm => hb' (List.mem_cons_of_mem _ hm)]

variable [DecidableEq α]

/-- Changing a node that is not visited does not matter. -/
theorem update_of_notMem {l : List α} {a b x : α} {v : Option β} (h : Path heap next a l b)
    (hx : x ∉ l) : Path (Function.update heap x v) next a l b := by
  refine h.congr fun y hy t ht => ⟨t, ?_, rfl⟩
  rwa [Function.update_of_ne (by rintro rfl; exact hx hy)]

/-- The nodes `p` and then `x` become `p` alone when `p` takes over the pointer of `x`. -/
theorem remove {l₁ l₂ : List α} {a b p x : α} {tp tx : β}
    (h : Path heap next a (l₁ ++ [p] ++ x :: l₂) b) (hnd : (l₁ ++ [p] ++ x :: l₂).Nodup)
    (hx : heap x = some tx) (hn : next tp = next tx) :
    Path (Function.update (Function.update heap p (some tp)) x none) next a
      (l₁ ++ [p] ++ l₂) b := by
  obtain ⟨c, h₁, h₂⟩ := append_iff.1 h
  obtain ⟨q, h₀, rfl, t, ht, hp⟩ := append_iff.1 h₁
  obtain ⟨rfl, tx', hx', h₃⟩ := h₂
  cases hx.symm.trans hx'
  simp only [List.append_assoc, List.singleton_append, List.nodup_append, List.nodup_cons,
    List.mem_cons] at hnd
  refine append (append (b := q) ?_ ?_) (?_ : Path _ _ (next tx) l₂ b)
  · exact (h₀.update_of_notMem (by grind)).update_of_notMem (by grind)
  · refine ⟨rfl, tp, ?_, hn⟩
    rw [Function.update_of_ne (by grind), Function.update_self]
  · exact (h₃.update_of_notMem (by grind)).update_of_notMem (by grind)

end Path

/-! ## Circular lists -/

namespace Ring

variable {head : α} {l : List α}

instance [DecidableEq α] : Decidable (Ring heap next head l) :=
  decidable_of_iff (Path heap next head l head ∧ l.Nodup ∧ l ≠ [])
    ⟨fun h => ⟨h.1, h.2.1, h.2.2⟩, fun h => ⟨h.path, h.nodup, h.ne_nil⟩⟩

theorem exists_cons (h : Ring heap next head l) : ∃ l', l = head :: l' := by
  match l, h with
  | [], h => exact (h.ne_nil rfl).elim
  | x :: l', h => exact ⟨l', by rw [h.path.head_eq]⟩

theorem head_mem (h : Ring heap next head l) : head ∈ l := by
  obtain ⟨l', rfl⟩ := h.exists_cons
  exact List.mem_cons_self

theorem unique {l' : List α} (h : Ring heap next head l) (h' : Ring heap next head l') :
    l = l' := by
  obtain ⟨l, rfl⟩ := h.exists_cons
  obtain ⟨l', rfl⟩ := h'.exists_cons
  obtain ⟨-, t, ht, hp⟩ := h.path
  obtain ⟨-, t', ht', hp'⟩ := h'.path
  cases ht.symm.trans ht'
  rw [hp.unique hp' (List.nodup_cons.1 h.nodup).1 (List.nodup_cons.1 h'.nodup).1]

theorem congr (h : Ring heap next head l)
    (hl : ∀ x ∈ l, ∀ t, heap x = some t → ∃ t', heap' x = some t' ∧ next t' = next t) :
    Ring heap' next head l :=
  ⟨h.path.congr hl, h.nodup, h.ne_nil⟩

/-- The circular list seen from the node after `x`. -/
theorem rotate_append {x : α} {t : β} {l₁ l₂ : List α} (h : Ring heap next head (l₁ ++ x :: l₂))
    (ht : heap x = some t) :
    Ring heap next (next t) (l₂ ++ (l₁ ++ [x])) ∧ (l₂ ++ (l₁ ++ [x])).Perm (l₁ ++ x :: l₂) := by
  obtain ⟨b, h₁, rfl, t', ht', h₂⟩ := Path.append_iff.1 h.path
  cases ht.symm.trans ht'
  have hp : Path heap next (next t) (l₂ ++ (l₁ ++ [b])) (next t) :=
    h₂.append (h₁.append ⟨rfl, t, ht, rfl⟩)
  have hperm : (l₂ ++ (l₁ ++ [b])).Perm (l₁ ++ b :: l₂) := by
    rw [show l₁ ++ b :: l₂ = (l₁ ++ [b]) ++ l₂ by simp]
    exact List.perm_append_comm
  exact ⟨⟨hp, hperm.nodup_iff.2 h.nodup, by simp⟩, hperm⟩

/-- The circular list seen from the node after one of its nodes. -/
theorem rotate {x : α} {t : β} (h : Ring heap next head l) (hx : x ∈ l) (ht : heap x = some t) :
    ∃ l', Ring heap next (next t) l' ∧ l'.Perm l := by
  obtain ⟨l₁, l₂, rfl⟩ := List.append_of_mem hx
  exact ⟨_, h.rotate_append ht⟩

variable [DecidableEq α]

/-- A new node `x` between the head and the node after it. -/
theorem insert {x : α} {th tx : β} {th' : β} (h : Ring heap next head (head :: l))
    (hh : heap head = some th) (hx : x ∉ head :: l) (hn : next th' = x) (hn' : next tx = next th) :
    Ring (Function.update (Function.update heap head (some th')) x (some tx)) next head
      (head :: x :: l) := by
  obtain ⟨-, t, ht, hp⟩ := h.path
  cases hh.symm.trans ht
  have hnd := h.nodup
  simp only [List.mem_cons, not_or, List.nodup_cons] at hx hnd
  refine ⟨⟨rfl, th', ?_, ?_⟩, ?_, by simp⟩
  · rw [Function.update_of_ne (Ne.symm hx.1), Function.update_self]
  · refine ⟨hn, tx, by rw [hn, Function.update_self], ?_⟩
    rw [hn']
    exact (hp.update_of_notMem hnd.1).update_of_notMem hx.2
  · simp only [List.nodup_cons, List.mem_cons, not_or]
    exact ⟨⟨Ne.symm hx.1, hnd.1⟩, hx.2, hnd.2⟩

end Ring

/-! ## Searching -/

/-- `do { if (p(node)) return node; node = node->next; } while (node != stop); return NULL;`
An absent node on the way, or a walk of more steps than the bound, has no result. -/
def findFrom [DecidableEq α] (heap : α → Option β) (next : β → α) (p : β → Bool) (stop : α) :
    ℕ → α → Option (Option α)
  | 0, _ => none
  | n + 1, node =>
    match heap node with
    | none => none
    | some t =>
      if p t then some (some node)
      else if next t = stop then some none
      else findFrom heap next p stop n (next t)

/-- A search along a path to its end is the search in the list of its nodes. -/
theorem findFrom_path [DecidableEq α] {p : β → Bool} {stop a : α} {l : List α} {n : ℕ}
    (h : Path heap next a l stop) (hne : l ≠ []) (hstop : stop ∉ l.tail) (hn : l.length ≤ n) :
    findFrom heap next p stop n a = some (l.find? fun x => (heap x).any p) := by
  induction l generalizing a n with
  | nil => exact (hne rfl).elim
  | cons x l ih =>
    obtain ⟨rfl, t, ht, hp⟩ := h
    obtain ⟨n, rfl⟩ : ∃ m, n = m + 1 := ⟨n - 1, by simp at hn; omega⟩
    rw [findFrom, ht]
    simp only [List.find?_cons, ht, Option.any_some]
    by_cases hpt : p t
    · simp [hpt]
    · simp only [hpt, Bool.false_eq_true, if_false]
      cases l with
      | nil => rw [if_pos (show next t = stop from hp), List.find?_nil]
      | cons y l =>
        have hy := hp.head_eq
        rw [if_neg (by rintro rfl; exact hstop (by simp [hy]))]
        refine ih hp (by simp) (fun hs => hstop (List.mem_cons_of_mem _ hs)) ?_
        simpa using hn

/-- No circular list is longer than the address space. -/
theorem Ring.length_le {head : α} {l : List α} {n : ℕ} (h : Ring heap next head l) (f : α → Fin n)
    (hf : Function.Injective f) : l.length ≤ n := by
  simpa using (h.nodup.map hf).length_le_card

/-- A search around a circular list is the search in the list of its nodes. -/
theorem findFrom_eq [DecidableEq α] {p : β → Bool} {head : α} {l : List α} {n : ℕ}
    (h : Ring heap next head l) (hn : l.length ≤ n) :
    findFrom heap next p head n head = some (l.find? fun x => (heap x).any p) := by
  obtain ⟨l', rfl⟩ := h.exists_cons
  have hnd := h.nodup
  rw [List.nodup_cons] at hnd
  exact findFrom_path h.path (by simp) hnd.1 hn

end BareMetalOS
