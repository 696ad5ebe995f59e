import Mathlib.Data.List.Count
import Mathlib.Data.List.TakeDrop
import Mathlib.Data.Nat.Init

/-!
# Two counters on one run

Two machines answer the same inputs, and each answer either counts or does
not. Point by point they may disagree in both directions: the machine that
counted more earlier may have less room now. What can be compared is the
totals.

Results:

* `countP_take_le_of_catch_up` — the second machine is never behind on any
  prefix, when it counts whatever the first one counts as long as no stretch
  that ends there holds more of its own answers than of the first one's;
* `exists_suffix_of_monotone`, `filter_eq_drop` — a condition that stays true
  along a list once it is true cuts the list into two, so what it selects is a
  stretch.
-/

namespace CatchUp

variable {α β : Type*}

-- ---------------------------------------------------------------------------
-- Stretches
-- ---------------------------------------------------------------------------

/-- What a stretch counts is the difference of two prefixes. -/
theorem countP_stretch (p : α → Bool) (xs : List α) {i j : ℕ} (hij : i ≤ j) :
    (xs.take i).countP p + ((xs.take j).drop i).countP p = (xs.take j).countP p := by
  have hSplit := congrArg (List.countP p) (List.take_append_drop i (xs.take j))
  rwa [List.countP_append, List.take_take, Nat.min_eq_left hij] at hSplit

theorem countP_take_succ (p : α → Bool) (xs : List α) {j : ℕ} (hj : j < xs.length) :
    (xs.take (j + 1)).countP p = (xs.take j).countP p + if p xs[j] then 1 else 0 := by
  rw [List.take_succ_eq_append_getElem hj, List.countP_append, List.countP_singleton]

/-- A condition that stays true along a list holds of a suffix of it. -/
theorem exists_suffix_of_monotone {p : α → Bool} {xs : List α}
    (hMono : xs.Pairwise fun a b => p a = true → p b = true) :
    ∃ i, ∀ k (hk : k < xs.length), p xs[k] = true ↔ i ≤ k := by
  induction xs with
  | nil => exact ⟨0, fun k hk => absurd hk (Nat.not_lt_zero k)⟩
  | cons x xs ih =>
    rw [List.pairwise_cons] at hMono
    obtain ⟨i, hi⟩ := ih hMono.2
    cases hx : p x with
    | true =>
      -- from here on all pass
      refine ⟨0, fun k hk => iff_of_true ?_ (Nat.zero_le k)⟩
      cases k with
      | zero => exact hx
      | succ k => exact hMono.1 _ (List.getElem_mem _) hx
    | false =>
      refine ⟨i + 1, fun k hk => ?_⟩
      cases k with
      | zero => simp [hx]
      | succ k => simpa using hi k (Nat.lt_of_succ_lt_succ hk)

/-- What is selected by a condition that holds of a suffix. -/
theorem filter_eq_drop {p : α → Bool} {xs : List α} {i : ℕ}
    (h : ∀ k (hk : k < xs.length), p xs[k] = true ↔ i ≤ k) : xs.filter p = xs.drop i := by
  induction xs generalizing i with
  | nil => simp
  | cons x xs ih =>
    have hTail : ∀ k (hk : k < xs.length), p xs[k] = true ↔ i ≤ k + 1 := fun k hk => by
      simpa using h (k + 1) (Nat.succ_lt_succ hk)
    cases i with
    | zero =>
      have hx : p x = true := (h 0 (Nat.succ_pos _)).mpr (Nat.le_refl 0)
      rw [List.filter_cons_of_pos hx, ih (i := 0) fun k hk => by simpa using hTail k hk]
      rfl
    | succ i =>
      have hx : p x ≠ true := fun hx => absurd ((h 0 (Nat.succ_pos _)).mp hx) (by omega)
      rw [List.filter_cons_of_neg hx, ih fun k hk => by simpa using hTail k hk]
      rfl

-- ---------------------------------------------------------------------------
-- The rule
-- ---------------------------------------------------------------------------

/--
**Catching up.** Two runs of the same length. Wherever no stretch that ends at
`j` counts more for the second run than for the first one, the second run
counts at `j` if the first one does. Then the second run is never behind.
-/
theorem countP_take_le_of_catch_up {p : α → Bool} {q : β → Bool} {xs : List α} {ys : List β}
    (hLength : xs.length = ys.length)
    (hCatch : ∀ j (hj : j < xs.length) (hj' : j < ys.length),
      (∀ i ≤ j, ((ys.take j).drop i).countP q ≤ ((xs.take j).drop i).countP p) →
      p xs[j] = true → q ys[j] = true) (n : ℕ) :
    (xs.take n).countP p ≤ (ys.take n).countP q := by
  induction n using Nat.strong_induction_on with
  | _ n ih =>
    cases n with
    | zero => simp
    | succ j =>
      by_cases hj : j < xs.length
      · have hj' : j < ys.length := hLength ▸ hj
        have hAhead := ih j (Nat.lt_succ_self j)
        rw [countP_take_succ p xs hj, countP_take_succ q ys hj']
        rcases Nat.lt_or_eq_of_le hAhead with hLess | hSame
        · -- one ahead is enough, whatever happens here
          split <;> omega
        · -- level: what the second run has more on a stretch, it had less before it
          have hStretches : ∀ i ≤ j,
              ((ys.take j).drop i).countP q ≤ ((xs.take j).drop i).countP p := by
            intro i hi
            have hBefore := ih i (by omega)
            have hxs := countP_stretch p xs hi
            have hys := countP_stretch q ys hi
            omega
          have hNext := hCatch j hj hj' hStretches
          by_cases hCounts : p xs[j] = true
          · rw [if_pos hCounts, if_pos (hNext hCounts)]
            omega
          · rw [if_neg hCounts]
            omega
      · -- past the end nothing is added
        have hWhole := ih j (Nat.lt_succ_self j)
        rw [List.take_of_length_le (Nat.le_of_not_lt hj),
          List.take_of_length_le (hLength ▸ Nat.le_of_not_lt hj)] at hWhole
        rwa [List.take_of_length_le (by omega), List.take_of_length_le (by omega)]

end CatchUp
