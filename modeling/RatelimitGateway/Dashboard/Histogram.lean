import Mathlib.Algebra.BigOperators.Group.List.Basic
import Mathlib.Order.WithBot
import RatelimitGateway.Lib.Quantile

/-!
# Latency quantiles

Translated from `internal/dashboard`: how the label combinations of a histogram
family are merged, and how a quantile is read off the merged buckets. Floats
are exact: rationals, and the +Inf that a bucket may have for its bound; where
the arithmetic has no number (a division by zero, a difference of infinities)
the result is `none`.

The buckets of a family can come in any order, and so can its metrics and the
keys of the Go map that they are merged in. None of it matters. What does matter is
the +Inf bucket, which some metrics can export and others not: it is then short of
observations, and a quantile can run past it.

* `merged_quantile_iff` — the reported quantiles lie in the buckets of the exact ones
  for all families but those that this happens to.
-/

namespace RatelimitGateway.Dashboard

open Quantile

-- ---------------------------------------------------------------------------
-- dashboard.go
-- ---------------------------------------------------------------------------

/-- The bound of a bucket: a number, or +Inf. -/
abbrev Bound := WithTop ℚ

/-- `dto.Bucket`. -/
structure Bucket where
  upperBound : Bound
  cumulativeCount : ℕ
  deriving DecidableEq

/-- `dto.Histogram`. -/
structure Histogram where
  sampleCount : ℕ
  bucket : List Bucket
  deriving DecidableEq

/-- `dto.Metric`; its histogram may be nil. -/
structure Metric where
  histogram : Option Histogram
  deriving DecidableEq

structure LatencyStat where
  p50 : Bound
  p95 : Bound
  p99 : Bound
  count : ℕ
  deriving DecidableEq

/-- `map[float64]uint64`. -/
abbrev Counts := List (Bound × ℕ)

namespace Counts

def get (m : Counts) (bound : Bound) : ℕ := (m.lookup bound).getD 0

/-- `m[bound] += count`. -/
def bump : Counts → Bound → ℕ → Counts
  | [], bound, count => [(bound, count)]
  | (b, n) :: rest, bound, count =>
    if b = bound then (b, n + count) :: rest else (b, n) :: bump rest bound count

end Counts

/-- The loop of `aggregateHistogram` over the metrics of a family. -/
def merge (metrics : List Metric) : Counts × ℕ :=
  metrics.foldl (fun (merged, total) m =>
    match m.histogram with
    | none => (merged, total)
    | some h =>
      (h.bucket.foldl (fun merged b => merged.bump b.upperBound b.cumulativeCount) merged,
        total + h.sampleCount)) ([], 0)

/-- One pass of the inner loop of `sortFloats`: the value sinks into the sorted
part before it, which is listed from its end. -/
def sink (value : Bound) : List Bound → List Bound
  | [] => [value]
  | last :: rest => if value < last then last :: sink value rest else value :: last :: rest

def sortFloats (values : List Bound) : List Bound :=
  (values.foldl (fun sorted value => sink value sorted) []).reverse

/-- Division of floats, where the quotient is a number. -/
def divide (x y : ℚ) : Option ℚ := if y = 0 then none else some (x / y)

/-- The loop of `quantile` over the bounds. -/
def quantileLoop (cumulative : Counts) (target : ℚ) : List Bound → ℚ → Bound → Option Bound
  | [], _, prevBound => some prevBound
  | bound :: rest, prevCount, prevBound =>
    let count : ℚ := cumulative.get bound
    if count < target then quantileLoop cumulative target rest count bound
    else
      match bound with
      -- The +Inf bucket has no upper edge to interpolate towards.
      | none => some prevBound
      | some b =>
        if count = prevCount then some bound
        else
          match divide (target - prevCount) (count - prevCount), prevBound with
          | some ratio, some p => some (some (p + ratio * (b - p)))
          | _, _ => none

/-- `quantile` interpolates a quantile out of cumulative histogram buckets. -/
def quantile (bounds : List Bound) (cumulative : Counts) (total : ℕ) (q : ℚ) : Option Bound :=
  quantileLoop cumulative (q * total) bounds 0 (0 : ℚ)

/-- `aggregateHistogram`; `range` is the order in which Go visits the keys of
the map. -/
def aggregateHistogram (range : List Bound → List Bound) (metrics : List Metric) :
    Option LatencyStat :=
  let (merged, total) := merge metrics
  if total = 0 then some ⟨(0 : ℚ), (0 : ℚ), (0 : ℚ), 0⟩
  else do
    let bounds := sortFloats (range (merged.map Prod.fst))
    let p50 ← quantile bounds merged total (50 / 100)
    let p95 ← quantile bounds merged total (95 / 100)
    let p99 ← quantile bounds merged total (99 / 100)
    some ⟨p50, p95, p99, total⟩

-- ---------------------------------------------------------------------------
-- The merged buckets
-- ---------------------------------------------------------------------------

/-- The count that a list of buckets gives a bound. -/
def countIn (buckets : List Bucket) (bound : Bound) : ℕ :=
  ((buckets.filter fun b => b.upperBound = bound).map Bucket.cumulativeCount).sum

/-- Bumping one bound changes its own count. -/
theorem get_bump (m : Counts) (bound : Bound) (count : ℕ) (b : Bound) :
    (m.bump bound count).get b = m.get b + if bound = b then count else 0 := by
  induction m with
  | nil =>
    by_cases hSame : bound = b
    · simp [Counts.bump, Counts.get, hSame]
    · simp [Counts.bump, Counts.get, List.lookup_cons, beq_false_of_ne (Ne.symm hSame), hSame]
  | cons head rest ih =>
    obtain ⟨k, n⟩ := head
    simp only [Counts.get] at ih
    simp only [Counts.bump, Counts.get]
    -- the head is the bound counted up, or the search goes on
    by_cases hHead : k = bound
    · subst hHead
      by_cases hSame : k = b
      · simp [hSame]
      · simp [List.lookup_cons, beq_false_of_ne (Ne.symm hSame), hSame]
    · rw [if_neg hHead, List.lookup_cons, List.lookup_cons]
      by_cases hSame : b = k
      · subst hSame
        simp [Ne.symm hHead]
      · rw [beq_false_of_ne hSame]
        exact ih

/-- A bumped bound has a count. -/
theorem mem_keys_bump (m : Counts) (bound : Bound) (count : ℕ) (b : Bound) :
    b ∈ (m.bump bound count).map Prod.fst ↔ b ∈ m.map Prod.fst ∨ b = bound := by
  induction m with
  | nil => simp [Counts.bump]
  | cons head rest ih =>
    obtain ⟨k, n⟩ := head
    rw [Counts.bump]
    by_cases hHead : k = bound
    · subst hHead
      rw [if_pos rfl, List.map_cons, List.map_cons, List.mem_cons]
      tauto
    · rw [if_neg hHead, List.map_cons, List.map_cons, List.mem_cons, List.mem_cons, ih]
      tauto

/-- No bound has two counts. -/
theorem nodup_keys_bump {m : Counts} (h : (m.map Prod.fst).Nodup) (bound : Bound) (count : ℕ) :
    ((m.bump bound count).map Prod.fst).Nodup := by
  induction m with
  | nil => exact List.nodup_singleton _
  | cons head rest ih =>
    obtain ⟨k, n⟩ := head
    obtain ⟨hFresh, hRest⟩ := List.nodup_cons.mp h
    rw [Counts.bump]
    by_cases hHead : k = bound
    · rw [if_pos hHead]
      exact h
    · rw [if_neg hHead]
      refine List.nodup_cons.mpr ⟨fun hMem => ?_, ih hRest⟩
      rcases (mem_keys_bump rest bound count k).mp hMem with hOld | hNew
      · exact hFresh hOld
      · exact hHead hNew

/-- The histograms of a family, where there is one. -/
def histograms (metrics : List Metric) : List Histogram := metrics.filterMap Metric.histogram

def allBuckets (hs : List Histogram) : List Bucket := hs.flatMap Histogram.bucket

/-- What a map of counts holds after some buckets have been added to it. -/
structure Holds (merged : Counts) (buckets : List Bucket) : Prop where
  counts : ∀ b, merged.get b = countIn buckets b
  keys   : ∀ b, b ∈ merged.map Prod.fst ↔ b ∈ buckets.map Bucket.upperBound
  nodup  : (merged.map Prod.fst).Nodup

/-- One more bucket is merged. -/
theorem holds_bump {merged : Counts} {buckets : List Bucket} (h : Holds merged buckets)
    (b : Bucket) : Holds (merged.bump b.upperBound b.cumulativeCount) (buckets ++ [b]) where
  counts := fun bound => by
    rw [get_bump, h.counts, countIn, countIn, List.filter_append, List.map_append, List.sum_append]
    by_cases hSame : b.upperBound = bound <;> simp [hSame]
  keys := fun bound => by
    rw [mem_keys_bump, h.keys, List.map_append, List.mem_append, List.map_singleton,
      List.mem_singleton]
  nodup := nodup_keys_bump h.nodup _ _

/-- So are all the buckets of a histogram. -/
theorem holds_foldl {merged : Counts} {buckets : List Bucket} (h : Holds merged buckets)
    (more : List Bucket) :
    Holds (more.foldl (fun merged b => merged.bump b.upperBound b.cumulativeCount) merged)
      (buckets ++ more) := by
  induction more generalizing merged buckets with
  | nil => simpa using h
  | cons b more ih =>
    have hNext := ih (holds_bump h b)
    rwa [List.append_assoc, List.singleton_append] at hNext

/-- Whatever the metrics, the merged map holds the buckets of them all. -/
theorem holds_merge (metrics : List Metric) :
    Holds (merge metrics).1 (allBuckets (histograms metrics)) ∧
      (merge metrics).2 = ((histograms metrics).map Histogram.sampleCount).sum := by
  induction metrics using List.reverseRecOn with
  | nil => exact ⟨⟨fun _ => rfl, fun _ => by simp [merge, histograms, allBuckets],
      List.nodup_nil⟩, rfl⟩
  | append_singleton metrics m ih =>
    obtain ⟨hHolds, hTotal⟩ := ih
    have hFilter : histograms (metrics ++ [m]) = histograms metrics ++ m.histogram.toList := by
      rw [histograms, List.filterMap_append]
      cases hm : m.histogram <;> simp [histograms, hm]
    rw [merge, List.foldl_append, List.foldl_cons, List.foldl_nil, ← merge, hFilter]
    cases hm : m.histogram with
    -- a metric that is no histogram is passed over
    | none => simpa using ⟨hHolds, hTotal⟩
    | some h =>
      have hNext := holds_foldl hHolds h.bucket
      simp only [hTotal, Option.toList_some, allBuckets, List.flatMap_append,
        List.flatMap_singleton, List.map_append, List.sum_append, List.map_singleton,
        List.sum_singleton]
      exact ⟨hNext, trivial⟩

-- ---------------------------------------------------------------------------
-- The hand-written sort
-- ---------------------------------------------------------------------------

/-- Sinking a value is inserting it in order. -/
theorem sink_eq_orderedInsert (value : Bound) (l : List Bound) :
    sink value l = l.orderedInsert (· ≥ ·) value := by
  induction l with
  | nil => rfl
  | cons last rest ih =>
    rw [sink, List.orderedInsert_cons]
    by_cases hLess : value < last
    · rw [if_pos hLess, if_neg (not_le.mpr hLess), ih]
    · rw [if_neg hLess, if_pos (not_lt.mp hLess)]

/-- Sinking one value after the other sorts them. -/
theorem sinkAll_spec {sorted : List Bound} (hSorted : sorted.Pairwise (· ≥ ·))
    (values : List Bound) :
    (values.foldl (fun sorted value => sink value sorted) sorted).Pairwise (· ≥ ·) ∧
      (values.foldl (fun sorted value => sink value sorted) sorted).Perm (sorted ++ values) := by
  induction values generalizing sorted with
  | nil => exact ⟨hSorted, by simp⟩
  | cons value values ih =>
    rw [List.foldl_cons, sink_eq_orderedInsert]
    obtain ⟨hNext, hPerm⟩ := ih (hSorted.orderedInsert value _)
    refine ⟨hNext, hPerm.trans ?_⟩
    refine ((List.perm_orderedInsert (· ≥ ·) value sorted).append_right values).trans ?_
    exact List.perm_middle.symm

/-- `sortFloats` sorts. -/
theorem sortFloats_spec (values : List Bound) :
    (sortFloats values).Pairwise (· ≤ ·) ∧ (sortFloats values).Perm values := by
  obtain ⟨hSorted, hPerm⟩ := sinkAll_spec List.Pairwise.nil values
  refine ⟨List.pairwise_reverse.mpr hSorted, ?_⟩
  exact (List.reverse_perm _).trans (by simpa using hPerm)

-- ---------------------------------------------------------------------------
-- Families
-- ---------------------------------------------------------------------------

/-- What one label combination has observed. Its +Inf bucket may be exported or left
to the sample count. -/
structure Combination where
  explicitInf : Bool
  observations : List ℚ

/-- What a histogram family has observed, and the finite bounds that it counts at. -/
structure Family where
  bounds : List ℚ
  series : List Combination
  positive : ∀ b ∈ bounds, 0 < b
  distinct : bounds.Nodup
  nonneg : ∀ c ∈ series, ∀ x ∈ c.observations, 0 ≤ x

namespace Family

/-- The bounds of the buckets that a label combination exports. -/
def edges (F : Family) (explicitInf : Bool) : List Bound :=
  (F.bounds.map fun b : ℚ => (b : Bound)) ++ if explicitInf then [⊤] else []

/-- The buckets of one label combination. -/
def buckets (F : Family) (c : Combination) : List Bucket :=
  (F.edges c.explicitInf).map fun e => ⟨e, c.observations.countP fun x : ℚ => (x : Bound) ≤ e⟩

/-- All observations together. -/
def pooled (F : Family) : List ℚ := F.series.flatMap Combination.observations

/-- Is a +Inf bucket exported at all? -/
def someInf (F : Family) : Bool := F.series.any Combination.explicitInf

/-- The metrics are those of the family, in any order, and each has its buckets
in any order. -/
def Exports (F : Family) (metrics : List Metric) : Prop :=
  ∃ series, series.Perm F.series ∧
    List.Forall₂ (fun h c =>
      h.sampleCount = c.observations.length ∧ h.bucket.Perm (F.buckets c))
      (histograms metrics) series

/-- No +Inf bucket is exported, or none is missing where there are observations, or
no observation is beyond the finite bounds. -/
def Consistent (F : Family) : Prop :=
  (∀ c ∈ F.series, c.explicitInf = false) ∨
  (∀ c ∈ F.series, c.explicitInf = false → c.observations = []) ∨
  ∀ x ∈ F.pooled, ∃ b ∈ F.bounds, x ≤ b

end Family

theorem countIn_append (l l' : List Bucket) (b : Bound) :
    countIn (l ++ l') b = countIn l b + countIn l' b := by
  rw [countIn, List.filter_append, List.map_append, List.sum_append, ← countIn, ← countIn]

theorem countIn_perm {l l' : List Bucket} (h : l.Perm l') (b : Bound) :
    countIn l b = countIn l' b :=
  ((h.filter _).map _).sum_eq

/-- Distinct bounds are counted once. -/
theorem countIn_map {edges : List Bound} (hNodup : edges.Nodup) (count : Bound → ℕ) {b : Bound}
    (hb : b ∈ edges) : countIn (edges.map fun e => ⟨e, count e⟩) b = count b := by
  induction edges with
  | nil => cases hb
  | cons e rest ih =>
    obtain ⟨hFresh, hRest⟩ := List.nodup_cons.mp hNodup
    have hCons : countIn ((e :: rest).map fun e => ⟨e, count e⟩) b =
        (if e = b then count e else 0) + countIn (rest.map fun e => ⟨e, count e⟩) b := by
      rw [List.map_cons, ← List.singleton_append, countIn_append]
      by_cases hSame : e = b <;> simp [countIn, hSame]
    rw [hCons]
    rcases List.mem_cons.mp hb with rfl | hLater
    · -- the edges differ, so no later bucket has this bound
      have hNone : countIn (rest.map fun e => (⟨e, count e⟩ : Bucket)) b = 0 := by
        rw [countIn, List.filter_eq_nil_iff.mpr]
        · rfl
        · intro x hx
          obtain ⟨e, he, rfl⟩ := List.mem_map.mp hx
          rw [decide_eq_true_eq]
          rintro rfl
          exact hFresh he
      rw [if_pos rfl, hNone, add_zero]
    · rw [if_neg fun hSame : e = b => hFresh (hSame ▸ hLater), zero_add]
      exact ih hRest hLater

section Exported

variable {F : Family} {metrics : List Metric}

/-- No edge is listed twice. -/
theorem Family.nodup_edges (F : Family) (explicitInf : Bool) : (F.edges explicitInf).Nodup := by
  have hFinite : (F.bounds.map fun b : ℚ => (b : Bound)).Nodup :=
    F.distinct.map WithTop.coe_injective
  unfold Family.edges
  split
  · refine List.nodup_append.mpr ⟨hFinite, List.nodup_singleton _, ?_⟩
    intro x hx y hy hSame
    obtain ⟨b, -, rfl⟩ := List.mem_map.mp hx
    rw [List.mem_singleton.mp hy] at hSame
    exact WithTop.coe_ne_top hSame
  · simpa using hFinite

/-- A finite bound is exported by every label combination. -/
theorem Family.coe_mem_edges {F : Family} {explicitInf : Bool} {b : ℚ} :
    (b : Bound) ∈ F.edges explicitInf ↔ b ∈ F.bounds := by
  rw [Family.edges, List.mem_append]
  constructor
  · rintro (hFinite | hInf)
    · obtain ⟨b', hb', hSame⟩ := List.mem_map.mp hFinite
      rwa [← WithTop.coe_injective hSame]
    · split at hInf
      · exact absurd (List.mem_singleton.mp hInf) WithTop.coe_ne_top
      · cases hInf
  · exact fun hb => .inl (List.mem_map_of_mem hb)

/-- The +Inf bound is exported by those that say so. -/
theorem Family.top_mem_edges {F : Family} {explicitInf : Bool} :
    (⊤ : Bound) ∈ F.edges explicitInf ↔ explicitInf = true := by
  rw [Family.edges, List.mem_append]
  constructor
  · rintro (hFinite | hInf)
    · obtain ⟨b, -, hSame⟩ := List.mem_map.mp hFinite
      exact absurd hSame WithTop.coe_ne_top
    · split at hInf
      · assumption
      · cases hInf
  · intro hExplicit
    rw [if_pos hExplicit]
    exact .inr (List.mem_singleton_self _)

/-- The exported buckets, but for their order. -/
theorem Family.Exports.buckets_perm (h : F.Exports metrics) :
    (allBuckets (histograms metrics)).Perm (F.series.flatMap F.buckets) := by
  obtain ⟨series, hPerm, hEach⟩ := h
  refine List.Perm.trans ?_ (hPerm.flatMap_right _)
  clear hPerm
  unfold allBuckets
  generalize histograms metrics = hs at hEach
  induction hEach with
  | nil => exact List.Perm.refl _
  | cons hHead _ ih =>
    rw [List.flatMap_cons, List.flatMap_cons]
    exact hHead.2.append ih

/-- The merged total is the number of observations. -/
theorem Family.Exports.total (h : F.Exports metrics) :
    (merge metrics).2 = F.pooled.length := by
  obtain ⟨series, hPerm, hEach⟩ := h
  rw [(holds_merge metrics).2, Family.pooled, ← (hPerm.flatMap_right _).length_eq,
    List.length_flatMap]
  clear hPerm
  generalize histograms metrics = hs at hEach
  induction hEach with
  | nil => rfl
  | cons hHead _ ih => rw [List.map_cons, List.map_cons, List.sum_cons, List.sum_cons, hHead.1, ih]

/-- The merged count at a finite bound is the number of observations at or below it. -/
theorem Family.Exports.get (h : F.Exports metrics) {b : ℚ} (hb : b ∈ F.bounds) :
    (merge metrics).1.get b = F.pooled.countP fun x => x ≤ b := by
  rw [(holds_merge metrics).1.counts, countIn_perm h.buckets_perm, Family.pooled]
  generalize F.series = series
  induction series with
  | nil => rfl
  | cons c series ih =>
    rw [List.flatMap_cons, countIn_append, ih, List.flatMap_cons, List.countP_append,
      Family.buckets, countIn_map (F.nodup_edges _) _ (Family.coe_mem_edges.mpr hb)]
    simp only [WithTop.coe_le_coe]

/-- The merged count at +Inf is the number of observations of those that export it. -/
theorem Family.Exports.get_top (h : F.Exports metrics) : (merge metrics).1.get ⊤ =
    ((F.series.filter Combination.explicitInf).flatMap Combination.observations).length := by
  rw [(holds_merge metrics).1.counts, countIn_perm h.buckets_perm]
  generalize F.series = series
  induction series with
  | nil => rfl
  | cons c series ih =>
    rw [List.flatMap_cons, countIn_append, ih]
    cases hInf : c.explicitInf with
    | true =>
      -- its +Inf bucket counts every observation
      have hAll : c.observations.countP (fun x : ℚ => (x : Bound) ≤ ⊤) = c.observations.length :=
        List.countP_eq_length.mpr fun x _ => decide_eq_true le_top
      rw [List.filter_cons_of_pos hInf, List.flatMap_cons, List.length_append, Family.buckets,
        countIn_map (F.nodup_edges _) _ (Family.top_mem_edges.mpr hInf), hAll]
    | false =>
      -- it has no bucket at +Inf, so it adds nothing there
      have hNone : countIn (F.buckets c) ⊤ = 0 := by
        rw [countIn, List.filter_eq_nil_iff.mpr]
        · rfl
        · intro x hx hTop
          obtain ⟨e, he, rfl⟩ := List.mem_map.mp hx
          obtain rfl : e = ⊤ := of_decide_eq_true hTop
          rw [Family.top_mem_edges, hInf] at he
          cases he
      rw [List.filter_cons_of_neg (by simp [hInf]), hNone, Nat.zero_add]

/-- Where every label combination with observations exports +Inf, its bucket counts
them all. -/
theorem Family.length_explicit_eq
    (hFull : ∀ c ∈ F.series, c.explicitInf = false → c.observations = []) :
    ((F.series.filter Combination.explicitInf).flatMap Combination.observations).length =
      F.pooled.length := by
  unfold Family.pooled
  generalize F.series = series at hFull
  induction series with
  | nil => rfl
  | cons c series ih =>
    have hRest := ih fun c' hc' => hFull c' (List.mem_cons_of_mem _ hc')
    rw [List.flatMap_cons, List.length_append, ← hRest]
    cases hInf : c.explicitInf with
    | true => rw [List.filter_cons_of_pos hInf, List.flatMap_cons, List.length_append]
    | false =>
      rw [List.filter_cons_of_neg (by simp [hInf]), hFull c List.mem_cons_self hInf,
        List.length_nil, Nat.zero_add]

/-- Where one with observations does not, its bucket misses some. -/
theorem Family.length_explicit_lt {c : Combination} (hc : c ∈ F.series)
    (hInf : c.explicitInf = false) (hSome : c.observations ≠ []) :
    ((F.series.filter Combination.explicitInf).flatMap Combination.observations).length <
      F.pooled.length := by
  unfold Family.pooled
  generalize F.series = series at hc
  have hSub : ∀ l : List Combination,
      ((l.filter Combination.explicitInf).flatMap Combination.observations).length ≤
        (l.flatMap Combination.observations).length :=
    fun l => (List.filter_sublist.flatMap _).length_le
  obtain ⟨before, after, rfl⟩ := List.append_of_mem hc
  have hBefore := hSub before
  have hAfter := hSub after
  have hLost : 0 < c.observations.length := List.length_pos_iff.mpr hSome
  rw [List.filter_append, List.filter_cons_of_neg (by simp [hInf])]
  simp only [List.flatMap_append, List.flatMap_cons, List.length_append]
  omega

/-- The merged bounds are the edges, with +Inf if one combination exports it. -/
theorem Family.Exports.keys (h : F.Exports metrics) (hSome : F.pooled ≠ []) (b : Bound) :
    b ∈ (merge metrics).1.map Prod.fst ↔ b ∈ F.edges F.someInf := by
  rw [(holds_merge metrics).1.keys, (h.buckets_perm.map _).mem_iff]
  have hExported : b ∈ (F.series.flatMap F.buckets).map Bucket.upperBound ↔
      ∃ c ∈ F.series, b ∈ F.edges c.explicitInf := by
    simp only [List.mem_map, List.mem_flatMap, Family.buckets]
    constructor
    · rintro ⟨_, ⟨c, hc, e, he, rfl⟩, rfl⟩
      exact ⟨c, hc, he⟩
    · rintro ⟨c, hc, hb⟩
      exact ⟨_, ⟨c, hc, b, hb, rfl⟩, rfl⟩
  rw [hExported]
  -- +Inf is there if one combination has it; a finite bound is there for all of them
  cases b using WithTop.recTopCoe with
  | top => simp only [Family.top_mem_edges, Family.someInf, List.any_eq_true]
  | coe b =>
    simp only [Family.coe_mem_edges]
    refine ⟨fun ⟨_, _, hb⟩ => hb, fun hb => ?_⟩
    -- some label combination has an observation
    obtain ⟨x, hx⟩ := List.exists_mem_of_ne_nil _ hSome
    obtain ⟨c, hc, -⟩ := List.mem_flatMap.mp hx
    exact ⟨c, hc, hb⟩

/-- The sorted bounds, however the keys of the map are visited. -/
theorem Family.Exports.sorted (h : F.Exports metrics) (hSome : F.pooled ≠ [])
    {range : List Bound → List Bound} (hRange : ∀ l, (range l).Perm l) :
    sortFloats (range ((merge metrics).1.map Prod.fst)) =
      ((F.bounds.insertionSort (· ≤ ·)).map fun b : ℚ => (b : Bound)) ++
        if F.someInf then [⊤] else [] := by
  obtain ⟨hSorted, hPerm⟩ := sortFloats_spec (range ((merge metrics).1.map Prod.fst))
  have hKeys : ((merge metrics).1.map Prod.fst).Perm (F.edges F.someInf) :=
    (List.perm_ext_iff_of_nodup (holds_merge metrics).1.nodup (F.nodup_edges _)).mpr
      (h.keys hSome)
  have hFinite := (List.perm_insertionSort (· ≤ ·) F.bounds).map fun b : ℚ => (b : Bound)
  -- both sides are sorted and hold the same bounds
  refine List.Perm.eq_of_pairwise' hSorted ?_ ?_
  · have hBounds : ((F.bounds.insertionSort (· ≤ ·)).map fun b : ℚ => (b : Bound)).Pairwise
        (· ≤ ·) :=
      List.pairwise_map.mpr ((List.pairwise_insertionSort (· ≤ ·) F.bounds).imp
        fun hLe => WithTop.coe_le_coe.mpr hLe)
    split
    · refine List.pairwise_append.mpr ⟨hBounds, List.pairwise_singleton _ _, ?_⟩
      intro x _ y hy
      rw [List.mem_singleton.mp hy]
      exact le_top
    · simpa using hBounds
  · exact hPerm.trans ((hRange _).trans (hKeys.trans (hFinite.symm.append_right _)))

end Exported

-- ---------------------------------------------------------------------------
-- The quantile of the merged buckets
-- ---------------------------------------------------------------------------

/-- How many of the pooled observations are at or below a bound. -/
def Family.countAt (F : Family) (b : ℚ) : ℚ := (F.pooled.countP (· ≤ b) : ℕ)

/-- The loop interpolates between the finite bounds. A +Inf bound after them is
harmless if it reaches the target, or if it is never looked at. -/
theorem quantileLoop_eq {counts : Counts} {count : ℚ → ℚ} {target : ℚ} {bounds : List ℚ}
    {last : List Bound} (hCounts : ∀ b ∈ bounds, (counts.get (b : ℚ) : ℚ) = count b)
    (hLast : last = [] ∨
      last = [⊤] ∧ (target ≤ counts.get ⊤ ∨ ∃ b ∈ bounds, target ≤ count b))
    {prevCount prevBound : ℚ} (hPrev : prevCount < target) :
    quantileLoop counts target ((bounds.map fun b : ℚ => (b : Bound)) ++ last) prevCount prevBound =
      some (interpolate count target bounds prevCount prevBound) := by
  induction bounds generalizing prevCount prevBound with
  | nil =>
    rcases hLast with rfl | ⟨rfl, hAll | ⟨_, hNone, -⟩⟩
    · rfl
    · -- at +Inf, with the target within its count: the bound before it is returned
      show quantileLoop counts target [⊤] prevCount prevBound = _
      rw [quantileLoop.eq_def]
      exact if_neg (not_lt.mpr hAll)
    · cases hNone
  | cons bound rest ih =>
    have hHere := hCounts bound List.mem_cons_self
    rw [List.map_cons, List.cons_append, quantileLoop.eq_def, interpolate]
    dsimp only
    rw [hHere]
    split
    · -- the bucket falls short of the target: go on with it as the previous one
      rename_i hShort
      refine ih (fun b hb => hCounts b (List.mem_cons_of_mem _ hb)) ?_ hShort
      rcases hLast with hNone | ⟨hInf, hAll | ⟨b, hb, hReached⟩⟩
      · exact .inl hNone
      · exact .inr ⟨hInf, .inl hAll⟩
      · rcases List.mem_cons.mp hb with rfl | hLater
        · exact absurd hReached (not_le.mpr hShort)
        · exact .inr ⟨hInf, .inr ⟨b, hLater, hReached⟩⟩
    · -- the target lies in this bucket, so its count is more than the previous one
      rename_i hEnough
      have hMore : count bound ≠ prevCount := fun hSame => by linarith
      have hRatio : divide (target - prevCount) (count bound - prevCount) =
          some ((target - prevCount) / (count bound - prevCount)) := if_neg (sub_ne_zero.mpr hMore)
      refine (if_neg hMore).trans ?_
      rw [hRatio]
      rfl

/-- A target that even the +Inf bucket does not reach: the loop runs past it, and
`prevBound` is +Inf by then. -/
theorem quantileLoop_beyond {counts : Counts} {target : ℚ} {bounds : List Bound}
    (hShort : ∀ b ∈ bounds, (counts.get b : ℚ) < target) (hTop : (counts.get ⊤ : ℚ) < target)
    (prevCount : ℚ) (prevBound : Bound) :
    quantileLoop counts target (bounds ++ [⊤]) prevCount prevBound = some ⊤ := by
  induction bounds generalizing prevCount prevBound with
  | nil =>
    show quantileLoop counts target [⊤] prevCount prevBound = _
    rw [quantileLoop.eq_def]
    exact if_pos hTop
  | cons bound rest ih =>
    rw [List.cons_append, quantileLoop.eq_def]
    dsimp only
    rw [if_pos (hShort bound List.mem_cons_self)]
    exact ih (fun b hb => hShort b (List.mem_cons_of_mem _ hb)) _ _

/-- The quantile that `aggregateHistogram` reads off the merged buckets. -/
def mergedQuantile (range : List Bound → List Bound) (metrics : List Metric) (q : ℚ) :
    Option Bound :=
  quantile (sortFloats (range ((merge metrics).1.map Prod.fst))) (merge metrics).1
    (merge metrics).2 q

/-- The handler computes its three quantiles on the merged counts, with the total. -/
theorem aggregateHistogram_eq (range : List Bound → List Bound) {metrics : List Metric}
    (hTotal : (merge metrics).2 ≠ 0) : aggregateHistogram range metrics = (do
      let p50 ← mergedQuantile range metrics (50 / 100)
      let p95 ← mergedQuantile range metrics (95 / 100)
      let p99 ← mergedQuantile range metrics (99 / 100)
      some ⟨p50, p95, p99, (merge metrics).2⟩) :=
  if_neg hTotal

namespace Family

variable {F : Family}

/-- The quantile that is interpolated between the bounds of the family. -/
def estimate (F : Family) (q : ℚ) : ℚ :=
  interpolate F.countAt (q * F.pooled.length) (F.bounds.insertionSort (· ≤ ·)) 0 0

/-- The bounds go up from zero. -/
theorem bounds_sorted (F : Family) : (0 :: F.bounds.insertionSort (· ≤ ·)).Pairwise (· < ·) := by
  have hPerm := List.perm_insertionSort (· ≤ ·) F.bounds
  refine List.pairwise_cons.mpr ⟨fun b hb => F.positive b (hPerm.mem_iff.mp hb), ?_⟩
  have hDistinct : (F.bounds.insertionSort (· ≤ ·)).Nodup := hPerm.nodup_iff.mpr F.distinct
  exact ((List.pairwise_insertionSort (· ≤ ·) F.bounds).and hDistinct).imp
    fun h => lt_of_le_of_ne h.1 h.2

theorem target_pos (hSome : F.pooled ≠ []) {q : ℚ} (hq : 0 < q) : 0 < q * F.pooled.length := by
  have hLength : (0 : ℚ) < F.pooled.length := by exact_mod_cast List.length_pos_iff.mpr hSome
  exact mul_pos hq hLength

/-- In a consistent family the +Inf bucket reaches every target that its largest
observation does, or a finite bound does. -/
theorem Consistent.reached (hConsistent : F.Consistent) {metrics : List Metric}
    (h : F.Exports metrics) (hSome : F.pooled ≠ []) (hInf : F.someInf = true) {q : ℚ}
    (hq : 0 < q) (hq' : q ≤ 1) :
    q * F.pooled.length ≤ (merge metrics).1.get ⊤ ∨
      ∃ b ∈ F.bounds.insertionSort (· ≤ ·), q * F.pooled.length ≤ F.countAt b := by
  rcases hConsistent with hNone | hFull | hWithin
  · obtain ⟨c, hc, hExplicit⟩ := List.any_eq_true.mp hInf
    rw [hNone c hc] at hExplicit
    cases hExplicit
  · left
    rw [h.get_top, length_explicit_eq hFull]
    exact mul_le_of_le_one_left F.pooled.length.cast_nonneg hq'
  · right
    obtain ⟨x, hx⟩ := exists_nearestRank hq' hSome
    obtain ⟨b, hb, hBelow⟩ := hWithin x (mem_of_nearestRank hx)
    exact ⟨b, (List.mem_insertionSort (· ≤ ·)).mpr hb, (nearestRank_le_iff hq hx b).mp hBelow⟩

/-- Whatever order things come in, what a consistent family reports is the estimate. -/
theorem Exports.mergedQuantile {metrics : List Metric} (h : F.Exports metrics)
    (hConsistent : F.Consistent) (hSome : F.pooled ≠ []) {range : List Bound → List Bound}
    (hRange : ∀ l, (range l).Perm l) {q : ℚ} (hq : 0 < q) (hq' : q ≤ 1) :
    mergedQuantile range metrics q = some (F.estimate q : Bound) := by
  rw [Dashboard.mergedQuantile, quantile, h.sorted hSome hRange, h.total]
  refine quantileLoop_eq (fun b hb => ?_) ?_ (target_pos hSome hq)
  · rw [h.get ((List.mem_insertionSort (· ≤ ·)).mp hb), countAt]
  · cases hInf : F.someInf with
    | false => exact .inl rfl
    | true => exact .inr ⟨rfl, hConsistent.reached h hSome hInf hq hq'⟩

/-- The estimate shares a bucket with the exact quantile, or stops at the last
bound before it. -/
theorem estimate_spec {q : ℚ} (hSome : F.pooled ≠ []) (hq : 0 < q) {x : ℚ}
    (hx : nearestRank q F.pooled = some x) :
    (∃ lower upper, [lower, upper] <:+: 0 :: F.bounds.insertionSort (· ≤ ·) ∧
        (lower < x ∨ lower = 0) ∧ x ≤ upper ∧ lower < F.estimate q ∧ F.estimate q ≤ upper) ∨
      (∀ b ∈ F.bounds, b < x) ∧ F.estimate q ∈ 0 :: F.bounds ∧
        ∀ b ∈ F.bounds, b ≤ F.estimate q := by
  have hMem : ∀ b, b ∈ F.bounds.insertionSort (· ≤ ·) ↔ b ∈ F.bounds :=
    fun b => List.mem_insertionSort (· ≤ ·)
  have hBucket := fun b => nearestRank_le_iff hq hx b
  have hPrev := target_pos hSome hq
  -- either some finite bucket reaches the target, or the rank is beyond them all
  by_cases hReached : ∃ b ∈ F.bounds.insertionSort (· ≤ ·), q * F.pooled.length ≤ F.countAt b
  · left
    obtain ⟨lower, upper, hNeighbours, hLower, hUpper, hInside⟩ :=
      interpolate_in_bucket hPrev F.bounds_sorted hReached
    refine ⟨lower, upper, hNeighbours, ?_, (hBucket upper).mpr hUpper, hInside⟩
    -- the bucket starts at 0 or at a bound the rank is above
    rcases hLower with hZero | hShort
    · exact .inr hZero
    · exact .inl (not_le.mp fun hAbove => not_le.mpr hShort ((hBucket lower).mp hAbove))
  · right
    have hShort : ∀ b ∈ F.bounds.insertionSort (· ≤ ·), F.countAt b < q * F.pooled.length :=
      fun b hb => not_le.mp fun hEnough => hReached ⟨b, hb, hEnough⟩
    -- the loop ends on the last finite bound
    have hLast : F.estimate q = _ := interpolate_beyond hShort
    refine ⟨fun b hb => not_le.mp fun hBelow => ?_, ?_, fun b hb => ?_⟩
    · exact not_le.mpr (hShort b ((hMem b).mpr hb)) ((hBucket b).mp hBelow)
    · have hIn := List.getLast_mem (List.cons_ne_nil 0 (F.bounds.insertionSort (· ≤ ·)))
      rw [← hLast] at hIn
      rcases List.mem_cons.mp hIn with hZero | hBound
      · exact hZero ▸ List.mem_cons_self
      · exact List.mem_cons_of_mem _ ((hMem _).mp hBound)
    · rw [hLast]
      exact (F.bounds_sorted.imp le_of_lt).rel_getLast
        (List.mem_cons_of_mem _ ((hMem b).mpr hb))

theorem estimate_mono {q q' : ℚ} (hSome : F.pooled ≠ []) (hq : 0 < q) (hqq' : q ≤ q') :
    F.estimate q ≤ F.estimate q' := by
  have hLength : (0 : ℚ) ≤ F.pooled.length := F.pooled.length.cast_nonneg
  exact interpolate_mono (target_pos hSome hq) F.bounds_sorted
    (mul_le_mul_of_nonneg_right hqq' hLength)

/-- A value shares a bucket with the exact quantile of all observations, or it is the
largest finite bound (0 when there is none) and the quantile lies beyond it. -/
def Near (F : Family) (q v : ℚ) : Prop :=
  ∃ x, nearestRank q F.pooled = some x ∧
    ((∃ lower upper, [lower, upper] <:+: 0 :: F.bounds.insertionSort (· ≤ ·) ∧
        (lower < x ∨ lower = 0) ∧ x ≤ upper ∧ lower < v ∧ v ≤ upper) ∨
      (∀ b ∈ F.bounds, b < x) ∧ v ∈ 0 :: F.bounds ∧ ∀ b ∈ F.bounds, b ≤ v)

/-- The estimate is near the exact quantile. -/
theorem near_estimate (hSome : F.pooled ≠ []) {q : ℚ} (hq : 0 < q) (hq' : q ≤ 1) :
    F.Near q (F.estimate q) := by
  obtain ⟨x, hx⟩ := exists_nearestRank hq' hSome
  exact ⟨x, hx, F.estimate_spec hSome hq hx⟩

/-- What the dashboard should make of the exported metrics: quantiles near the exact
ones, monotone, and the same whatever the order of things. -/
structure Reported (F : Family) (range : List Bound → List Bound) (metrics : List Metric) :
    Prop where
  near  : ∀ q, 0 < q → q ≤ 1 →
    ∃ v : ℚ, Dashboard.mergedQuantile range metrics q = some (v : Bound) ∧ F.Near q v
  mono  : ∀ p q, 0 < p → p ≤ q → q ≤ 1 →
    ∃ v w : ℚ, Dashboard.mergedQuantile range metrics p = some (v : Bound) ∧
      Dashboard.mergedQuantile range metrics q = some (w : Bound) ∧ v ≤ w
  stat  : ∃ p50 p95 p99 : ℚ,
    aggregateHistogram range metrics = some ⟨p50, p95, p99, F.pooled.length⟩ ∧
      F.Near (50 / 100) p50 ∧ F.Near (95 / 100) p95 ∧ F.Near (99 / 100) p99 ∧
      p50 ≤ p95 ∧ p95 ≤ p99
  order : ∀ (metrics' : List Metric) (range' : List Bound → List Bound), F.Exports metrics' →
    (∀ l, (range' l).Perm l) →
      aggregateHistogram range' metrics' = aggregateHistogram range metrics ∧
      ∀ q, 0 < q → q ≤ 1 →
        Dashboard.mergedQuantile range' metrics' q = Dashboard.mergedQuantile range metrics q

/-- All that a consistent family reports are estimates. -/
theorem Exports.aggregateHistogram {metrics : List Metric} (h : F.Exports metrics)
    (hConsistent : F.Consistent) (hSome : F.pooled ≠ []) {range : List Bound → List Bound}
    (hRange : ∀ l, (range l).Perm l) :
    aggregateHistogram range metrics =
      some ⟨F.estimate (50 / 100), F.estimate (95 / 100), F.estimate (99 / 100),
        F.pooled.length⟩ := by
  have hTotal : (merge metrics).2 ≠ 0 := by
    rw [h.total]
    exact (List.length_pos_iff.mpr hSome).ne'
  have hEach := fun (q : ℚ) (hq : 0 < q) (hq' : q ≤ 1) =>
    h.mergedQuantile hConsistent hSome hRange hq hq'
  rw [aggregateHistogram_eq range hTotal, hEach (50 / 100) (by norm_num) (by norm_num),
    hEach (95 / 100) (by norm_num) (by norm_num), hEach (99 / 100) (by norm_num) (by norm_num),
    h.total]
  rfl

/-- A consistent family is reported as it should be. -/
theorem Exports.reported {metrics : List Metric} (h : F.Exports metrics)
    (hConsistent : F.Consistent) (hSome : F.pooled ≠ []) {range : List Bound → List Bound}
    (hRange : ∀ l, (range l).Perm l) : F.Reported range metrics where
  near := fun q hq hq' =>
    ⟨_, h.mergedQuantile hConsistent hSome hRange hq hq', near_estimate hSome hq hq'⟩
  mono := fun p q hp hpq hq =>
    ⟨_, _, h.mergedQuantile hConsistent hSome hRange hp (hpq.trans hq),
      h.mergedQuantile hConsistent hSome hRange (hp.trans_le hpq) hq,
      F.estimate_mono hSome hp hpq⟩
  stat := by
    have hNear := fun (q : ℚ) (hq : 0 < q) (hq' : q ≤ 1) => near_estimate hSome hq hq'
    refine ⟨_, _, _, h.aggregateHistogram hConsistent hSome hRange,
      hNear _ (by norm_num) (by norm_num), hNear _ (by norm_num) (by norm_num),
      hNear _ (by norm_num) (by norm_num), ?_, ?_⟩
    · -- p50 to p95, then p95 to p99
      exact F.estimate_mono hSome (by norm_num) (by norm_num)
    · exact F.estimate_mono hSome (by norm_num) (by norm_num)
  order := fun metrics' range' h' hRange' => by
    refine ⟨?_, fun q hq hq' => ?_⟩
    · rw [h'.aggregateHistogram hConsistent hSome hRange',
        h.aggregateHistogram hConsistent hSome hRange]
    · rw [h'.mergedQuantile hConsistent hSome hRange' hq hq',
        h.mergedQuantile hConsistent hSome hRange hq hq']

/-- The largest quantile of any other family is +Inf. -/
theorem Exports.mergedQuantile_one {metrics : List Metric} (h : F.Exports metrics)
    (hMixed : ¬ F.Consistent) {range : List Bound → List Bound} (hRange : ∀ l, (range l).Perm l) :
    Dashboard.mergedQuantile range metrics 1 = some ⊤ := by
  simp only [Consistent, not_or, not_forall] at hMixed
  obtain ⟨⟨c, hc, hExplicit⟩, ⟨c', hc', hMissing, hLost⟩, x, hx, hBeyond⟩ := hMixed
  have hSome : F.pooled ≠ [] := List.ne_nil_of_mem hx
  have hInf : F.someInf = true :=
    List.any_eq_true.mpr ⟨c, hc, eq_true_of_ne_false hExplicit⟩
  rw [Dashboard.mergedQuantile, quantile, h.sorted hSome hRange, hInf, if_pos rfl, h.total, one_mul]
  refine quantileLoop_beyond (fun bound hBound => ?_) ?_ 0 0
  · -- the observation beyond the finite bounds is counted at none of them
    obtain ⟨b, hb, rfl⟩ := List.mem_map.mp hBound
    have hFinite : b ∈ F.bounds := (List.mem_insertionSort (· ≤ ·)).mp hb
    rw [h.get hFinite]
    refine Nat.cast_lt.mpr (List.countP_lt_length_iff.mpr ⟨x, hx, ?_⟩)
    exact decide_eq_false fun hBelow => hBeyond ⟨b, hFinite, hBelow⟩
  · rw [h.get_top]
    exact Nat.cast_lt.mpr (length_explicit_lt hc' hMissing hLost)

end Family

/--
**Merged latency quantiles.** Whatever the order of the metrics, of their buckets and
of the keys of the Go map: the quantiles that are reported for `0 < q ≤ 1` are in
the buckets of the exact quantiles of all observations together, monotone in `q` and
the same for every such order, exactly when the +Inf buckets are consistent. With a
missing one the loop runs past the +Inf bucket of the others, and `prevBound`,
which should be the last finite boundary, is +Inf.
-/
theorem merged_quantile_iff {F : Family} {metrics : List Metric} (hExports : F.Exports metrics)
    (hSome : F.pooled ≠ []) {range : List Bound → List Bound} (hRange : ∀ l, (range l).Perm l) :
    F.Reported range metrics ↔ F.Consistent := by
  refine ⟨fun hReported => ?_, fun hConsistent => hExports.reported hConsistent hSome hRange⟩
  by_contra hMixed
  obtain ⟨v, hv, -⟩ := hReported.near 1 one_pos le_rfl
  rw [hExports.mergedQuantile_one hMixed hRange] at hv
  exact WithTop.top_ne_coe (Option.some_injective _ hv)

/-- Three observations under two label combinations, one beyond the buckets. -/
def threeCalls : Family where
  bounds := [2, 1]
  series := [⟨true, [1 / 2, 3]⟩, ⟨true, [1]⟩]
  positive := by decide
  distinct := by decide
  nonneg := by decide +kernel

/-- Two combinations and one metric that is no histogram, in another order. -/
theorem merged_quantile_iff_demo :
    let metrics : List Metric := [⟨some ⟨1, threeCalls.buckets ⟨true, [1]⟩⟩⟩, ⟨none⟩,
      ⟨some ⟨2, (threeCalls.buckets ⟨true, [1 / 2, 3]⟩).reverse⟩⟩]
    threeCalls.Reported List.reverse metrics := by
  intro metrics
  have hExports : threeCalls.Exports metrics := by
    refine ⟨[⟨true, [1]⟩, ⟨true, [1 / 2, 3]⟩], List.Perm.swap _ _ _, ?_⟩
    refine .cons ⟨rfl, List.Perm.refl _⟩ (.cons ⟨rfl, List.reverse_perm _⟩ .nil)
  exact (merged_quantile_iff hExports (by decide) List.reverse_perm).mpr
    (.inr (.inl (by decide)))

/-- Two label combinations, of which only the one with the fast call exports +Inf. -/
def mixedInf : Family where
  bounds := [1]
  series := [⟨true, [1 / 2]⟩, ⟨false, [3]⟩]
  positive := by decide
  distinct := by decide
  nonneg := by decide +kernel

/-- The slow call is beyond every bucket, and P95 and P99 are +Inf. -/
theorem merged_quantile_infinite :
    let metrics : List Metric := [⟨some ⟨1, mixedInf.buckets ⟨true, [1 / 2]⟩⟩⟩,
      ⟨some ⟨1, mixedInf.buckets ⟨false, [3]⟩⟩⟩]
    mixedInf.Exports metrics ∧ mixedInf.pooled ≠ [] ∧
      aggregateHistogram id metrics = some ⟨(1 : ℚ), ⊤, ⊤, 2⟩ ∧
      ¬ mixedInf.Reported id metrics := by
  intro metrics
  have hStat : aggregateHistogram id metrics = some ⟨(1 : ℚ), ⊤, ⊤, 2⟩ := by decide +kernel
  refine ⟨⟨_, List.Perm.refl _, ?_⟩, by decide, hStat, fun hReported => ?_⟩
  · exact .cons ⟨rfl, List.Perm.refl _⟩ (.cons ⟨rfl, List.Perm.refl _⟩ .nil)
  · obtain ⟨p50, p95, p99, hFinite, -⟩ := hReported.stat
    rw [hStat] at hFinite
    injection hFinite with hFinite
    injection hFinite with _ hP95 _ _
    exact WithTop.top_ne_coe hP95

end RatelimitGateway.Dashboard
