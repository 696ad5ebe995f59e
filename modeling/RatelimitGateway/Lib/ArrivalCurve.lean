import Mathlib.Algebra.Order.Field.Basic
import Mathlib.Algebra.Order.Floor.Ring
import Mathlib.Data.List.Induction
import Mathlib.Tactic.Ring
import Mathlib.Tactic.Linarith

/-!
# Arrival curves

A *flow* is a list of arrivals, each with its time and the amount it
consumes, oldest first. It conforms to the affine arrival curve with burst
`B` and rate `ρ` when every stretch of it, from the `i`-th to the `j`-th
arrival, consumes at most `B + ρ * (t_j - t_i)`.

`headroom B ρ t h` is the largest amount that may still be consumed at time
`t` after the flow `h`: the least slack over all stretches that end at `t`
(a min-plus convolution, written as a recursion over the flow).

Results:

* `le_headroom_iff`   — the headroom is exactly that least slack;
* `headroom_concat`   — it can be maintained from the last arrival alone: one
  number that refills with `ρ` and is capped at `B`. This is why a bucket of
  tokens can stand for the whole history;
* `conforms_concat`   — a flow stays conformant exactly while every arrival
  takes at most its headroom, so taking greedily refuses nothing that the
  curve would permit.

* `taken_of_saturated` — arrivals of one unit each that come no further apart
  than a unit refills: the curve is used up, from the first arrival on.

`forwardTravel` measures a clock that may step backwards: the total of its
forward steps. `spread` is the distance between its largest and its smallest
reading.
-/

namespace ArrivalCurve

variable {K : Type*} [Field K]

/-- What a flow consumes in total. -/
def consumed (h : List (K × K)) : K := (h.map Prod.snd).sum

@[simp] theorem consumed_nil : consumed ([] : List (K × K)) = 0 := rfl

@[simp] theorem consumed_cons (x : K × K) (h : List (K × K)) :
    consumed (x :: h) = x.2 + consumed h := by
  simp [consumed]

@[simp] theorem consumed_append (g h : List (K × K)) :
    consumed (g ++ h) = consumed g + consumed h := by
  simp [consumed]

variable [LinearOrder K]

/-- The largest amount that may be consumed at time `t` after the flow `h`. -/
def headroom (B ρ t : K) : List (K × K) → K
  | [] => B
  | x :: h => min (B + ρ * (t - x.1) - consumed (x :: h)) (headroom B ρ t h)

/-- Every stretch of the flow stays under the arrival curve. -/
def Conforms (B ρ : K) (h : List (K × K)) : Prop :=
  ∀ i j (hi : i ≤ j) (hj : j < h.length),
    consumed ((h.take (j + 1)).drop i) ≤ B + ρ * (h[j].1 - h[i].1)

variable [IsStrictOrderedRing K] {B ρ t : K}

/-- The headroom is the least slack over all stretches that end at `t`. -/
theorem le_headroom_iff {x : K} {h : List (K × K)} :
    x ≤ headroom B ρ t h ↔
      x ≤ B ∧ ∀ i (hi : i < h.length),
        consumed (h.drop i) + x ≤ B + ρ * (t - h[i].1) := by
  induction h with
  | nil => simp [headroom]
  | cons e h ih =>
    rw [headroom, le_min_iff, ih]
    constructor
    · -- the stretch from the first arrival on, then the later ones
      rintro ⟨hHead, hB, hTail⟩
      refine ⟨hB, fun i hi => ?_⟩
      cases i with
      | zero =>
        have : consumed ((e :: h).drop 0) = consumed (e :: h) := rfl
        have hGet : (e :: h)[0] = e := rfl
        rw [this, hGet]
        linarith
      | succ i => exact hTail i (by simpa using hi)
    · rintro ⟨hB, hAll⟩
      refine ⟨?_, hB, fun i hi => hAll (i + 1) (by simpa using hi)⟩
      have hZero := hAll 0 (by simp)
      have : consumed ((e :: h).drop 0) = consumed (e :: h) := rfl
      have hGet : (e :: h)[0] = e := rfl
      rw [this, hGet] at hZero
      linarith

/--
**The headroom is a bucket.** After an arrival at `u` that consumed `n`, the
headroom at `t` is what was left at `u`, refilled at rate `ρ` for the time
since and capped at `B`.
-/
theorem headroom_concat (u n : K) (h : List (K × K)) :
    headroom B ρ t (h ++ [(u, n)]) = min B (headroom B ρ u h - n + ρ * (t - u)) := by
  induction h with
  | nil =>
    simp only [List.nil_append, headroom, consumed_cons, consumed_nil]
    rw [min_comm]
    congr 1
    ring
  | cons e h ih =>
    have hSplit : B + ρ * (t - e.1) - consumed (e :: (h ++ [(u, n)])) =
        B + ρ * (u - e.1) - consumed (e :: h) - n + ρ * (t - u) := by
      simp only [consumed_cons, consumed_append, consumed_nil]
      ring
    -- time passing moves both sides of the minimum alike
    have hShift : ∀ a b : K, min (a - n + ρ * (t - u)) (b - n + ρ * (t - u)) =
        min a b - n + ρ * (t - u) := by
      intro a b
      rw [min_add_add_right]
      simp only [sub_eq_add_neg, min_add_add_right]
    rw [List.cons_append, headroom, ih, hSplit, headroom, min_left_comm, hShift]

/--
**Greedy conformance.** Extending a conformant flow keeps it conformant
exactly when the new arrival takes at most the headroom at its time.
-/
theorem conforms_concat {h : List (K × K)} {n : K} :
    Conforms B ρ (h ++ [(t, n)]) ↔ Conforms B ρ h ∧ n ≤ headroom B ρ t h := by
  rw [le_headroom_iff]
  constructor
  · -- the stretches of the old list, and those that end with the new arrival
    intro hAll
    refine ⟨fun i j hi hj => ?_, ?_, fun i hi => ?_⟩
    · have hij := hAll i j hi (by rw [List.length_append]; omega)
      rw [List.take_append_of_le_length (by omega)] at hij
      rwa [List.getElem_append_left hj, List.getElem_append_left (by omega)] at hij
    · have hLast := hAll h.length h.length le_rfl (by simp)
      simpa [List.take_of_length_le, consumed] using hLast
    · have hij := hAll i h.length hi.le (by simp)
      rw [List.take_of_length_le (by simp), List.drop_append_of_le_length hi.le] at hij
      simpa [List.getElem_append_left hi] using hij
  · rintro ⟨hOld, hB, hNew⟩ i j hi hj
    rw [List.length_append, List.length_singleton] at hj
    rcases Nat.lt_or_ge j h.length with hlt | hge
    · have hij := hOld i j hi hlt
      rw [List.take_append_of_le_length (by omega)]
      rwa [List.getElem_append_left hlt, List.getElem_append_left (by omega)]
    · -- a stretch that ends with the new arrival, alone or with others before it
      obtain rfl : j = h.length := by omega
      rw [List.take_of_length_le (by simp)]
      rcases Nat.lt_or_ge i h.length with hlt | hge'
      · rw [List.drop_append_of_le_length hlt.le]
        simpa [List.getElem_append_left hlt] using hNew i hlt
      · obtain rfl : i = h.length := by omega
        simpa [consumed] using hB

/-- A conformant flow never leaves a negative headroom behind. -/
theorem headroom_nonneg (hB : 0 ≤ B) (hρ : 0 ≤ ρ) {h : List (K × K)}
    (hConf : Conforms B ρ h) (hLate : ∀ x ∈ h, x.1 ≤ t) : 0 ≤ headroom B ρ t h := by
  refine le_headroom_iff.mpr ⟨hB, fun i hi => ?_⟩
  have hStretch := hConf i (h.length - 1) (by omega) (by omega)
  rw [show h.length - 1 + 1 = h.length by omega, List.take_length] at hStretch
  have hLast : h[h.length - 1].1 ≤ t := hLate _ (List.getElem_mem _)
  have hRefill := mul_le_mul_of_nonneg_left (sub_le_sub_right hLast h[i].1) hρ
  linarith

/-- The headroom refills with `ρ`, and does not grow while the clock steps back. -/
theorem headroom_le_later (hρ : 0 ≤ ρ) (u : K) (h : List (K × K)) :
    headroom B ρ t h ≤ headroom B ρ u h + ρ * max 0 (t - u) := by
  have hRefill : ρ * (t - u) ≤ ρ * max 0 (t - u) :=
    mul_le_mul_of_nonneg_left (le_max_right _ _) hρ
  have hNone : 0 ≤ ρ * max 0 (t - u) := mul_nonneg hρ (le_max_left _ _)
  obtain ⟨hBurst, hStretch⟩ := le_headroom_iff.mp (le_refl (headroom B ρ t h))
  rw [← sub_le_iff_le_add, le_headroom_iff]
  refine ⟨by linarith, fun i hi => ?_⟩
  have := hStretch i hi
  linarith

/-! ## Arrivals that never let the headroom fill up -/

section Saturation

variable [FloorRing K]

/-- What is taken by arrival `n` at the latest, when the curve is used up. -/
theorem min_floor_succ {n a : ℕ} {x y : K} (ha : (a : ℤ) = min (n : ℤ) ⌊x⌋) (hUp : x ≤ y)
    (hUnit : y ≤ x + 1) :
    ((if (a : K) + 1 ≤ y then a + 1 else a : ℕ) : ℤ) = min ((n : ℤ) + 1) ⌊y⌋ := by
  have hFloor : ⌊x⌋ ≤ ⌊y⌋ := Int.floor_le_floor hUp
  have hFloor' : ⌊y⌋ ≤ ⌊x⌋ + 1 := by
    rw [← Int.floor_add_one]
    exact Int.floor_le_floor hUnit
  have hTakes : (a : K) + 1 ≤ y ↔ (a : ℤ) + 1 ≤ ⌊y⌋ := by
    rw [Int.le_floor]
    push_cast
    rfl
  simp only [hTakes]
  split <;> push_cast <;> omega

/-- What is below a bound, and a whole unit below another, is below the floor of both. -/
theorem le_of_min_floor {n : ℤ} {a : ℕ} {x y : K} (ha : (a : ℤ) = min n ⌊x⌋) (hn : y ≤ n)
    (hx : y + 1 ≤ x) : y ≤ a := by
  have hCast : ((a : ℤ) : K) = ((min n ⌊x⌋ : ℤ) : K) := by rw [ha]
  rw [Int.cast_natCast] at hCast
  rw [hCast]
  rcases min_choice n ⌊x⌋ with hMin | hMin
  · rwa [hMin]
  · rw [hMin]
    have hFloor := Int.lt_floor_add_one x
    linarith

/--
**Saturation.** `X j` is the refill up to arrival `j`, and `A j` what the
arrivals before it have taken; an arrival takes one unit exactly when no
stretch that ends in it gets above the curve. When every gap refills at most
one unit, and leaves room for one more under the burst, then the arrivals up
to `n` have taken all that the burst and the refill since the first one come
to, or one unit each.
-/
theorem taken_of_saturated {A : ℕ → ℕ} {X : ℕ → K} {N : ℕ} (hB : 1 ≤ B) (hZero : A 0 = 0)
    (hTake : ∀ j < N, A (j + 1) =
      if ∀ i ≤ j, (A j : K) - A i + 1 ≤ B + (X j - X i) then A j + 1 else A j)
    (hGap : ∀ j, j + 1 < N → X j ≤ X (j + 1) ∧ X (j + 1) ≤ X j + 1 ∧ X (j + 1) + 1 ≤ X j + B)
    {n : ℕ} (hn : n < N) : (A (n + 1) : ℤ) = min ((n : ℤ) + 1) ⌊B + (X n - X 0)⌋ := by
  -- what is taken keeps up with the refill (`hKept`), so no later stretch binds
  suffices h : (A (n + 1) : ℤ) = min ((n : ℤ) + 1) ⌊B + (X n - X 0)⌋ ∧
      X n - X 0 ≤ n ∧ ∀ i ≤ n, X i - X 0 ≤ A i from h.1
  induction n with
  | zero =>
    -- the first arrival is always taken, since the capacity is at least one
    have hFirst : A 1 = 1 := by
      rw [hTake 0 hn, if_pos (fun i hi => by
        obtain rfl := Nat.le_zero.mp hi
        simpa using hB), hZero]
    have hOne : 1 ≤ ⌊B⌋ := Int.le_floor.mpr (by exact_mod_cast hB)
    refine ⟨?_, by simp, fun i hi => ?_⟩
    · rw [hFirst, sub_self, add_zero]
      push_cast
      omega
    · obtain rfl := Nat.le_zero.mp hi
      simp [hZero]
  | succ n ih =>
    obtain ⟨hTaken, hSlow, hKept⟩ := ih (by omega)
    obtain ⟨hUp, hUnit, hRoom⟩ := hGap n hn
    have hKept' : ∀ i ≤ n + 1, X i - X 0 ≤ A i := by
      intro i hi
      rcases Nat.le_succ_iff.mp hi with hle | rfl
      · exact hKept i hle
      · refine le_of_min_floor hTaken ?_ (by linarith)
        push_cast
        linarith
    -- the stretch from the first arrival on is the one that binds
    have hBinds : (∀ i ≤ n + 1, (A (n + 1) : K) - A i + 1 ≤ B + (X (n + 1) - X i)) ↔
        (A (n + 1) : K) + 1 ≤ B + (X (n + 1) - X 0) := by
      constructor
      · intro hAll
        simpa [hZero] using hAll 0 (Nat.zero_le _)
      · intro hFirst i hi
        have := hKept' i hi
        linarith
    refine ⟨?_, ?_, hKept'⟩
    · rw [hTake (n + 1) hn]
      simp only [hBinds]
      rw [min_floor_succ (by exact_mod_cast hTaken) (by linarith) (by linarith)]
    · push_cast
      linarith

end Saturation

/-! ## Clocks that step backwards -/

section Clock

variable {K : Type*} [AddCommGroup K] [LinearOrder K]

/-- The total of the forward steps of a clock. -/
def forwardTravel : List K → K
  | t :: t' :: ts => max 0 (t' - t) + forwardTravel (t' :: ts)
  | _ => 0

/-- The distance between the largest and the smallest reading of a clock. -/
def spread (ts : List K) : K := ts.max?.getD 0 - ts.min?.getD 0

/-- A stamp adds what it is later than the last one. -/
theorem forwardTravel_concat (ts : List K) (u t : K) :
    forwardTravel (ts ++ [u, t]) = forwardTravel (ts ++ [u]) + max 0 (t - u) := by
  induction ts with
  | nil => simp [forwardTravel]
  | cons x ts ih =>
    cases ts with
    | nil => simp [forwardTravel]
    | cons y ts =>
      simp only [List.cons_append, forwardTravel] at ih ⊢
      rw [ih, add_assoc]

/-- A clock that never steps back travels no further than it has to. -/
theorem forwardTravel_le_of_sorted [IsOrderedAddMonoid K] {ts : List K} {t t' : K}
    (hSorted : ts.Pairwise (· ≤ ·)) (hWithin : ∀ u ∈ ts, t ≤ u ∧ u ≤ t') (hSpan : t ≤ t') :
    forwardTravel ts ≤ t' - t := by
  induction ts generalizing t with
  | nil => exact sub_nonneg.mpr hSpan
  | cons u ts ih =>
    obtain ⟨hFrom, hTo⟩ := hWithin u List.mem_cons_self
    obtain ⟨hFirst, hRest⟩ := List.pairwise_cons.mp hSorted
    cases ts with
    | nil => exact sub_nonneg.mpr hSpan
    | cons v ts =>
      have huv := hFirst v List.mem_cons_self
      have hvt' := (hWithin v (List.mem_cons_of_mem _ List.mem_cons_self)).2
      -- what is left after the step from `u` to `v`
      have hTail := ih (t := v) hRest (fun w hw => ⟨?_, ?_⟩) hvt'
      · rw [forwardTravel, max_eq_right (sub_nonneg.mpr huv)]
        calc v - u + forwardTravel (v :: ts) ≤ v - u + (t' - v) := by gcongr
          _ = t' - u := by abel
          _ ≤ t' - t := sub_le_sub_left hFrom t'
      · rcases List.mem_cons.mp hw with rfl | hw'
        · exact le_rfl
        · exact (List.pairwise_cons.mp hRest).1 w hw'
      · exact (hWithin w (List.mem_cons_of_mem _ hw)).2

/-- No two readings of a clock are further apart than its spread. -/
theorem sub_le_spread [IsOrderedAddMonoid K] {ts : List K} {t u : K} (ht : t ∈ ts)
    (hu : u ∈ ts) : t - u ≤ spread ts := by
  unfold spread
  cases hMax : ts.max? with
  | none => simp [List.max?_eq_none_iff.mp hMax] at ht
  | some b =>
    cases hMin : ts.min? with
    | none => simp [List.min?_eq_none_iff.mp hMin] at hu
    | some a =>
      have hb := (List.max?_eq_some_iff.mp hMax).2 t ht
      have ha := (List.min?_eq_some_iff.mp hMin).2 u hu
      exact sub_le_sub hb ha

/-- The largest reading is not below the smallest. -/
theorem spread_nonneg [IsOrderedAddMonoid K] (ts : List K) : 0 ≤ spread ts := by
  cases ts with
  | nil => simp [spread]
  | cons t ts =>
    have hSelf : t - t ≤ spread (t :: ts) := sub_le_spread List.mem_cons_self List.mem_cons_self
    rwa [sub_self] at hSelf

end Clock

end ArrivalCurve
