import Mathlib.Data.Nat.Bitwise
import Mathlib.Logic.Function.Basic
import Mathlib.Tactic

/-!
# Loops over an array, and the arithmetic of aligned powers of two

`updRange g f lo n` is the loop `for (i = lo; i < lo + n; ++i) f[i] = g(f[i])` over an array seen
as a function of its index. The second half is about the partner of an aligned block: for
`2 ^ k ∣ a`, the number `a ^^^ 2 ^ k` is the other half of the block of length `2 ^ (k + 1)` that
contains `a` (`xor_two_pow_of_dvd`, `xor_two_pow_of_not_dvd`). `runAll` performs a list of
operations, and its result is the end of a run (`runAll_run`); `runUntil` performs them up to the
first one that fails, and what it reaches is known without performing it (`forall_runUntil_iff`).
`afterSteps` follows a step function that can stop, and a bounded measure that grows with every step
makes it stop (`exists_afterSteps_eq_none`).
-/

namespace BareMetalOS

/-! ## Updating a range of an array -/

variable {α : Type*}

/-- `for (i = lo; i < lo + n; ++i) f[i] = g(f[i])`. -/
def updRange (g : α → α) (f : ℕ → α) (lo : ℕ) : ℕ → (ℕ → α)
  | 0 => f
  | n + 1 => Function.update (updRange g f lo n) (lo + n) (g (updRange g f lo n (lo + n)))

theorem updRange_apply (g : α → α) (f : ℕ → α) (lo n j : ℕ) :
    updRange g f lo n j = if lo ≤ j ∧ j < lo + n then g (f j) else f j := by
  induction n generalizing j with
  | zero => simp [updRange]
  | succ n ih =>
    rw [updRange]
    by_cases hj : j = lo + n
    · subst hj
      rw [Function.update_self, ih, if_neg (by omega), if_pos (by omega)]
    · rw [Function.update_of_ne hj, ih]
      by_cases h : lo ≤ j ∧ j < lo + n
      · rw [if_pos h, if_pos (by omega)]
      · rw [if_neg h, if_neg (by omega)]

/-! ## Running a list of operations -/

/-- Perform the operations in turn; `none` if one of them is not permitted or fails. -/
def runAll {β : Type*} (f : α → β → Option α) (ok : α → β → Bool) : α → List β → Option α
  | s, [] => some s
  | s, b :: bs => if ok s b then (f s b).bind fun s' => runAll f ok s' bs else none

theorem runAll_run {β : Type*} {f : α → β → Option α} {ok : α → β → Bool} {r : α → α → Prop}
    {s s' : α} {bs : List β} (hr : ∀ s, ∀ b ∈ bs, ∀ s', ok s b → f s b = some s' → r s s')
    (h : runAll f ok s bs = some s') : Relation.ReflTransGen r s s' := by
  induction bs generalizing s with
  | nil =>
    cases h
    exact .refl
  | cons b bs ih =>
    rw [runAll] at h
    split at h
    · rename_i hok
      obtain ⟨s₁, hs₁, h⟩ := Option.bind_eq_some_iff.1 h
      exact .head (hr s b List.mem_cons_self s₁ hok hs₁)
        (ih (fun s c hc => hr s c (List.mem_cons_of_mem _ hc)) h)
    · cases h

/-! ## Running up to a failure -/

section Until

variable {ε β : Type*} {f : α → Except ε β} {p : α → Bool} {good : α → Prop}
  {P : α → Except ε β → Prop} {l : List α}

/-- Perform the operations in turn up to the first one that fails: each with its result. -/
def runUntil (f : α → Except ε β) : List α → List (α × Except ε β)
  | [] => []
  | a :: l =>
    match f a with
    | .ok b => (a, .ok b) :: runUntil f l
    | .error e => [(a, .error e)]

/-- The elements up to the first one without the property, and this one. -/
def reachedBy (p : α → Bool) : List α → List α
  | [] => []
  | a :: l => if p a then a :: reachedBy p l else [a]

/-- If the operations that are good fail only where `p` says so, then all results are right exactly
when the operations that `p` lets it reach are good. -/
theorem forall_runUntil_iff (hP : ∀ a, P a (f a) ↔ good a)
    (hok : ∀ a, good a → (p a ↔ ∃ b, f a = .ok b)) (hgood : ∀ a, ¬ p a → good a) :
    (∀ x ∈ runUntil f l, P x.1 x.2) ↔ ∀ a ∈ reachedBy p l, good a := by
  induction l with
  | nil => simp [runUntil, reachedBy]
  | cons a l ih =>
    rw [runUntil, reachedBy]
    by_cases hga : good a
    · by_cases hpa : p a
      · obtain ⟨b, hb⟩ := (hok a hga).1 hpa
        have hPa : P a (.ok b) := hb ▸ (hP a).2 hga
        simp only [hb, hpa, if_true, List.forall_mem_cons, hPa, hga, true_and]
        exact ih
      · have herr : ∃ e, f a = .error e := by
          cases hfa : f a with
          | error e => exact ⟨e, rfl⟩
          | ok b => exact absurd ((hok a hga).2 ⟨b, hfa⟩) hpa
        obtain ⟨e, he⟩ := herr
        have hPa : P a (.error e) := he ▸ (hP a).2 hga
        simp only [he, hpa, List.forall_mem_singleton, hPa]
        exact iff_of_true trivial (by simpa using hga)
    · have hpa : p a := by
        by_contra hpa
        exact hga (hgood a hpa)
      have hPa : ¬ P a (f a) := fun h => hga ((hP a).1 h)
      rw [if_pos hpa]
      apply iff_of_false
      · intro h
        cases hfa : f a with
        | ok b =>
          rw [hfa] at h hPa
          exact hPa (h _ List.mem_cons_self)
        | error e =>
          rw [hfa] at h hPa
          exact hPa (h _ List.mem_cons_self)
      · exact fun h => hga (h a List.mem_cons_self)

/-- Then these operations are performed. -/
theorem map_fst_runUntil (hok : ∀ a, good a → (p a ↔ ∃ b, f a = .ok b))
    (h : ∀ a ∈ reachedBy p l, good a) : (runUntil f l).map Prod.fst = reachedBy p l := by
  induction l with
  | nil => rfl
  | cons a l ih =>
    rw [reachedBy] at h
    rw [runUntil, reachedBy]
    have hga : good a := by
      split at h <;> exact h a List.mem_cons_self
    cases hfa : f a with
    | ok b =>
      have hpa : p a := (hok a hga).2 ⟨b, hfa⟩
      rw [if_pos hpa] at h ⊢
      rw [List.map_cons, ih fun x hx => h x (List.mem_cons_of_mem a hx)]
    | error e =>
      have hpa : ¬ p a := by
        intro hpa
        obtain ⟨b, hb⟩ := (hok a hga).1 hpa
        cases hfa.symm.trans hb
      rw [if_neg hpa]
      rfl

end Until

/-! ## Steps that can stop -/

section Steps

variable {f g : α → Option α} {m : α → ℕ} {bound : ℕ} {a b : α}

/-- Where `n` steps lead; `none` if one of them has stopped. -/
def afterSteps (f : α → Option α) : ℕ → α → Option α
  | 0, a => some a
  | n + 1, a => (f a).bind (afterSteps f n)

theorem afterSteps_succ (f : α → Option α) (n : ℕ) (a : α) :
    afterSteps f (n + 1) a = (afterSteps f n a).bind f := by
  induction n generalizing a with
  | zero => cases h : f a <;> simp [afterSteps, h]
  | succ n ih =>
    rw [afterSteps, afterSteps, Option.bind_assoc]
    exact congrArg _ (funext ih)

theorem afterSteps_mono (hfg : ∀ a b, f a = some b → g a = some b) {n : ℕ}
    (h : afterSteps f n a = some b) : afterSteps g n a = some b := by
  induction n generalizing a with
  | zero => exact h
  | succ n ih =>
    obtain ⟨c, hc, h⟩ := Option.bind_eq_some_iff.1 h
    exact Option.bind_eq_some_iff.2 ⟨c, hfg a c hc, ih h⟩

/-- **Steps that increase a bounded measure stop.** -/
theorem exists_afterSteps_eq_none (hm : ∀ a, m a < bound)
    (h : ∀ n b c, afterSteps f n a = some b → f b = some c → m b < m c) :
    ∃ n, afterSteps f n a = none := by
  have hle : ∀ n b, afterSteps f n a = some b → n ≤ m b := by
    intro n
    induction n with
    | zero => exact fun b _ => Nat.zero_le _
    | succ n ih =>
      intro c hc
      rw [afterSteps_succ] at hc
      obtain ⟨b, hb, hc⟩ := Option.bind_eq_some_iff.1 hc
      exact (ih b hb).trans_lt (h n b c hb hc)
  cases hb : afterSteps f bound a with
  | none => exact ⟨bound, hb⟩
  | some b => exact absurd (hle bound b hb) (hm b).not_ge

end Steps

/-! ## The partner of an aligned block -/

variable {a k m : ℕ}

theorem mul_two_pow_xor (m k : ℕ) : m * 2 ^ k ^^^ 2 ^ k = (m ^^^ 1) * 2 ^ k := by
  have h := Nat.shiftLeft_xor_distrib (a := m) (b := 1) (i := k)
  simp only [Nat.shiftLeft_eq, one_mul] at h
  exact h.symm

/-- The partner of the lower half is the upper half. -/
theorem xor_two_pow_of_dvd (h : 2 ^ (k + 1) ∣ a) : a ^^^ 2 ^ k = a + 2 ^ k := by
  obtain ⟨m, rfl⟩ := h
  rw [show 2 ^ (k + 1) * m = 2 * m * 2 ^ k by ring, mul_two_pow_xor,
    Nat.xor_one_of_even (even_two_mul m)]
  ring

/-- The partner of the upper half is the lower half. -/
theorem xor_two_pow_of_not_dvd (h : 2 ^ k ∣ a) (h' : ¬ 2 ^ (k + 1) ∣ a) :
    2 ^ (k + 1) ∣ a ^^^ 2 ^ k ∧ (a ^^^ 2 ^ k) + 2 ^ k = a := by
  obtain ⟨m, rfl⟩ := h
  have hm : Odd m := by
    rw [← Nat.not_even_iff_odd]
    rintro ⟨n, rfl⟩
    exact h' ⟨n, by ring⟩
  obtain ⟨n, rfl⟩ := hm
  rw [mul_comm, mul_two_pow_xor, Nat.xor_one_of_odd ⟨n, rfl⟩, Nat.add_sub_cancel]
  exact ⟨⟨n, by ring⟩, by ring⟩

/-- The partner of an aligned block lies outside it. -/
theorem xor_two_pow_outside (hd : 2 ^ k ∣ a) : a ^^^ 2 ^ k < a ∨ a + 2 ^ k ≤ a ^^^ 2 ^ k := by
  have hpos := Nat.two_pow_pos k
  by_cases hd' : 2 ^ (k + 1) ∣ a
  · rw [xor_two_pow_of_dvd hd']
    omega
  · have := (xor_two_pow_of_not_dvd hd hd').2
    omega

/-- A block and its partner make up the block of the next order, which starts at the lower of the
two. -/
theorem xor_two_pow_union {lo : ℕ} (hd : 2 ^ k ∣ a)
    (hlo : lo = if a ^^^ 2 ^ k < a then a ^^^ 2 ^ k else a) :
    lo ≤ a ∧ a + 2 ^ k ≤ lo + 2 ^ (k + 1) ∧
      lo ≤ a ^^^ 2 ^ k ∧ a ^^^ 2 ^ k < lo + 2 ^ (k + 1) ∧
      ∀ j, lo ≤ j → j < lo + 2 ^ (k + 1) → j < a ∨ a + 2 ^ k ≤ j →
        a ^^^ 2 ^ k ≤ j ∧ j < (a ^^^ 2 ^ k) + 2 ^ k := by
  have hpow : 2 ^ (k + 1) = 2 ^ k + 2 ^ k := by ring
  have hpos := Nat.two_pow_pos k
  subst hlo
  by_cases hdd : 2 ^ (k + 1) ∣ a
  · rw [xor_two_pow_of_dvd hdd, if_neg (by omega)]
    refine ⟨by omega, by omega, by omega, by omega, fun j _ _ _ => by omega⟩
  · have hx := (xor_two_pow_of_not_dvd hd hdd).2
    rw [if_pos (by omega)]
    refine ⟨by omega, by omega, by omega, by omega, fun j _ _ _ => by omega⟩

theorem xor_two_pow_ne (a k : ℕ) : a ^^^ 2 ^ k ≠ a := by
  intro h
  have := congrArg (a ^^^ ·) h
  simp at this

end BareMetalOS
