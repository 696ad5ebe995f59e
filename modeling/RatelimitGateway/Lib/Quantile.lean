import Mathlib.Algebra.Order.Field.Basic
import Mathlib.Algebra.Order.Floor.Ring
import Mathlib.Data.List.Infix
import Mathlib.Data.List.Sort
import Mathlib.Data.Rat.Floor
import Mathlib.Tactic.FieldSimp
import Mathlib.Tactic.Linarith
import Mathlib.Tactic.Positivity

/-!
# Quantiles

The exact `q`-quantile of a list of observations is the observation of the
least rank that has at least `q` of them at or below it (`nearestRank`). A
histogram forgets the observations and keeps how many are at or below each of
a few bounds; `interpolate` looks for the quantile there: it walks up the
bounds to the first one that reaches the target count, and interpolates between
that bound and the one before it.

Results:

* `nearestRank_le_iff`      — an exact quantile is at or below a bound exactly
  when the count at that bound reaches the target: a histogram knows which
  bucket it is in;
* `interpolate_in_bucket`   — the interpolated value lies between the first
  bound that reaches the target and the one before it;
* `interpolate_beyond`      — when none does, it is the last bound;
* `interpolate_mono`        — it is monotone in the target.
-/

namespace Quantile

-- ---------------------------------------------------------------------------
-- The exact quantile
-- ---------------------------------------------------------------------------

section Exact

variable {α : Type*} [LinearOrder α]

/-- The observation of rank `⌈q * n⌉`, when there are `n` of them. -/
def nearestRank (q : ℚ) (obs : List α) : Option α :=
  (obs.insertionSort (· ≤ ·))[⌈q * obs.length⌉.toNat - 1]?

/-- A place in a sorted list is at or below `b` when it is before the count of
those that are. -/
theorem getElem_le_iff_lt_countP {l : List α} (hSorted : l.Pairwise (· ≤ ·)) {i : ℕ} {x : α}
    (hx : l[i]? = some x) (b : α) : x ≤ b ↔ i < l.countP (· ≤ b) := by
  induction l generalizing i with
  | nil => cases hx
  | cons a l ih =>
    obtain ⟨hHead, hTail⟩ := List.pairwise_cons.mp hSorted
    -- sorted: once the head is above, all are
    have hNone : ¬ a ≤ b → l.countP (· ≤ b) = 0 := by
      intro hAbove
      refine List.countP_eq_zero.mpr fun y hy => ?_
      simpa using (not_le.mp hAbove).trans_le (hHead y hy)
    rw [List.countP_cons]
    cases i with
    | zero =>
      obtain rfl : a = x := by simpa using hx
      by_cases ha : a ≤ b
      · simp [ha]
      · simp [ha, hNone ha]
    | succ i =>
      have hRest : l[i]? = some x := by simpa using hx
      by_cases ha : a ≤ b
      · simp only [ha, decide_true, if_true]
        rw [ih hTail hRest]
        omega
      · have hAbove : ¬ x ≤ b := fun h => ha ((hHead x (List.mem_of_getElem? hRest)).trans h)
        simp [ha, hNone ha, hAbove]

/-- There is a quantile of anything that has been observed. -/
theorem exists_nearestRank {q : ℚ} (hq : q ≤ 1) {obs : List α} (hSome : obs ≠ []) :
    ∃ x, nearestRank q obs = some x := by
  have hLength : 0 < obs.length := List.length_pos_iff.mpr hSome
  have hRank : ⌈q * obs.length⌉ ≤ obs.length := by
    rw [Int.ceil_le]
    have hCast : (0 : ℚ) ≤ obs.length := obs.length.cast_nonneg
    push_cast
    nlinarith
  refine ⟨_, List.getElem?_eq_getElem ?_⟩
  rw [List.length_insertionSort]
  omega

/-- The exact quantile is one of the observations. -/
theorem mem_of_nearestRank {q : ℚ} {obs : List α} {x : α} (hx : nearestRank q obs = some x) :
    x ∈ obs :=
  (List.mem_insertionSort (· ≤ ·)).mp (List.mem_of_getElem? hx)

/-- **The bucket of a quantile.** A quantile is at or below `b` exactly when at
least the share `q` of the observations is. -/
theorem nearestRank_le_iff {q : ℚ} (hq : 0 < q) {obs : List α} {x : α}
    (hx : nearestRank q obs = some x) (b : α) :
    x ≤ b ↔ q * obs.length ≤ (obs.countP (· ≤ b) : ℕ) := by
  have hPlace := getElem_le_iff_lt_countP (List.pairwise_insertionSort (· ≤ ·) obs) hx b
  rw [(List.perm_insertionSort (· ≤ ·) obs).countP_eq] at hPlace
  have hLength : 0 < obs.length := by
    by_contra hNone
    obtain rfl : obs = [] := List.length_eq_zero_iff.mp (by omega)
    cases hx
  have hPositive : 0 < ⌈q * obs.length⌉ := by
    have hCast : (0 : ℚ) < obs.length := by exact_mod_cast hLength
    exact Int.ceil_pos.mpr (mul_pos hq hCast)
  -- a count is whole, so it reaches the rank if it reaches the target
  have hCeil : q * obs.length ≤ (obs.countP (· ≤ b) : ℕ) ↔
      ⌈q * obs.length⌉ ≤ (obs.countP (· ≤ b) : ℕ) := by
    rw [Int.ceil_le]
    push_cast
    rfl
  rw [hPlace, hCeil]
  omega

end Exact

-- ---------------------------------------------------------------------------
-- The interpolated quantile
-- ---------------------------------------------------------------------------

section Interpolated

variable {K : Type*} [Field K] [LinearOrder K]

/-- The value at which the line from `(prevBound, prevCount)` to the first bound
that reaches the target reaches it itself. -/
def interpolate (count : K → K) (target : K) : List K → K → K → K
  | [], _, prevBound => prevBound
  | bound :: rest, prevCount, prevBound =>
    if count bound < target then interpolate count target rest (count bound) bound
    else prevBound + (target - prevCount) / (count bound - prevCount) * (bound - prevBound)

variable [IsStrictOrderedRing K] {count : K → K} {target target' : K}

/-- A point of the line, above its lower end and not above its upper end. -/
theorem line_bounds {c c' b b' : K} (hLow : c < target) (hHigh : target ≤ c') (hBounds : b < b') :
    b < b + (target - c) / (c' - c) * (b' - b) ∧ b + (target - c) / (c' - c) * (b' - b) ≤ b' := by
  have hCounts : 0 < c' - c := by linarith
  have hWidth : 0 < b' - b := sub_pos.mpr hBounds
  have hPositive : 0 < (target - c) / (c' - c) := div_pos (sub_pos.mpr hLow) hCounts
  have hShare : (target - c) / (c' - c) ≤ 1 := (div_le_one hCounts).mpr (by linarith)
  constructor
  · linarith [mul_pos hPositive hWidth]
  · linarith [mul_le_of_le_one_left hWidth.le hShare]

/-- The interpolated value is not below the bound before. -/
theorem le_interpolate {bounds : List K} {prevCount prevBound : K} (hPrev : prevCount < target)
    (hSorted : (prevBound :: bounds).Pairwise (· < ·)) :
    prevBound ≤ interpolate count target bounds prevCount prevBound := by
  induction bounds generalizing prevCount prevBound with
  | nil => exact le_rfl
  | cons bound rest ih =>
    obtain ⟨hHead, hTail⟩ := List.pairwise_cons.mp hSorted
    have hNext : prevBound < bound := hHead bound List.mem_cons_self
    rw [interpolate]
    split
    · rename_i hShort
      exact hNext.le.trans (ih hShort hTail)
    · rename_i hEnough
      exact (line_bounds hPrev (not_lt.mp hEnough) hNext).1.le

/-- **In the bucket.** The value is between two neighbouring bounds, of which
the upper one is the first to reach the target. -/
theorem interpolate_in_bucket {bounds : List K} {prevCount prevBound : K}
    (hPrev : prevCount < target) (hSorted : (prevBound :: bounds).Pairwise (· < ·))
    (hReached : ∃ b ∈ bounds, target ≤ count b) :
    ∃ lower upper, [lower, upper] <:+: prevBound :: bounds ∧
      (lower = prevBound ∨ count lower < target) ∧ target ≤ count upper ∧
      lower < interpolate count target bounds prevCount prevBound ∧
      interpolate count target bounds prevCount prevBound ≤ upper := by
  induction bounds generalizing prevCount prevBound with
  | nil =>
    obtain ⟨b, hb, -⟩ := hReached
    cases hb
  | cons bound rest ih =>
    obtain ⟨hHead, hTail⟩ := List.pairwise_cons.mp hSorted
    have hNext : prevBound < bound := hHead bound List.mem_cons_self
    rw [interpolate]
    split
    · -- the bucket falls short, so a later one reaches the target
      rename_i hShort
      have hLater : ∃ b ∈ rest, target ≤ count b := by
        obtain ⟨b, hb, hCount⟩ := hReached
        rcases List.mem_cons.mp hb with rfl | hRest
        · exact absurd hCount (not_le.mpr hShort)
        · exact ⟨b, hRest, hCount⟩
      obtain ⟨lower, upper, hInfix, hLower, hRest⟩ := ih hShort hTail hLater
      refine ⟨lower, upper, hInfix.trans (List.suffix_cons _ _).isInfix, .inr ?_, hRest⟩
      rcases hLower with rfl | hCount
      · exact hShort
      · exact hCount
    · -- the first bucket that reaches it: the line stays inside
      rename_i hEnough
      obtain ⟨hLow, hHigh⟩ := line_bounds hPrev (not_lt.mp hEnough) hNext
      refine ⟨prevBound, bound, ?_, .inl rfl, not_lt.mp hEnough, hLow, hHigh⟩
      exact List.IsPrefix.isInfix ⟨rest, rfl⟩

omit [IsStrictOrderedRing K] in
/-- **Beyond the buckets.** No bound reaches the target. -/
theorem interpolate_beyond {bounds : List K} {prevCount prevBound : K}
    (hBeyond : ∀ b ∈ bounds, count b < target) :
    interpolate count target bounds prevCount prevBound =
      (prevBound :: bounds).getLast (List.cons_ne_nil _ _) := by
  induction bounds generalizing prevCount prevBound with
  | nil => rfl
  | cons bound rest ih =>
    rw [interpolate, if_pos (hBeyond bound List.mem_cons_self),
      ih fun b hb => hBeyond b (List.mem_cons_of_mem _ hb)]
    exact (List.getLast_cons (List.cons_ne_nil _ _)).symm

/-- **Monotone in the target.** -/
theorem interpolate_mono {bounds : List K} {prevCount prevBound : K} (hPrev : prevCount < target)
    (hSorted : (prevBound :: bounds).Pairwise (· < ·)) (hTargets : target ≤ target') :
    interpolate count target bounds prevCount prevBound ≤
      interpolate count target' bounds prevCount prevBound := by
  induction bounds generalizing prevCount prevBound with
  | nil => exact le_rfl
  | cons bound rest ih =>
    obtain ⟨hHead, hTail⟩ := List.pairwise_cons.mp hSorted
    have hNext : prevBound < bound := hHead bound List.mem_cons_self
    rw [interpolate, interpolate]
    by_cases hShort : count bound < target
    · rw [if_pos hShort, if_pos (hShort.trans_le hTargets)]
      exact ih hShort hTail
    · have hHere := line_bounds hPrev (not_lt.mp hShort) hNext
      rw [if_neg hShort]
      split
      · -- the larger target is not reached here
        rename_i hShort'
        exact hHere.2.trans (le_interpolate hShort' hTail)
      · -- both lie in this bucket, on the same line
        have hCounts : 0 < count bound - prevCount := by linarith [not_lt.mp hShort]
        have hWidth : 0 ≤ bound - prevBound := (sub_pos.mpr hNext).le
        have hRatio : (target - prevCount) / (count bound - prevCount) ≤
            (target' - prevCount) / (count bound - prevCount) :=
          div_le_div_of_nonneg_right (by linarith) hCounts.le
        linarith [mul_le_mul_of_nonneg_right hRatio hWidth]

end Interpolated

end Quantile
