import Mathlib.Tactic.FieldSimp
import RatelimitGateway.Lib.ArrivalCurve
import RatelimitGateway.Limiter.Execution

/-!
# Token bucket: what a run admits

The script keeps two numbers, `tokens` and `updated_at`. On runs whose stamps
never step back these two numbers are the headroom of the whole history under
the arrival curve with burst `burst` and rate `rate` (`AdmissionInv.level`),
so the script admits exactly what that curve permits.

A call always overwrites `updated_at` with its own stamp, also when it is
refused and also when the stamp is older. Stamps that step back therefore
make the script refill one interval of time more than once; what it pays out
is bounded by the total of the forward steps of the stamps, and by nothing
less. That Redis expires buckets does no harm as long as its clock keeps pace
with the stamps: a bucket that has run out would be full (`found_next`).

* `tokenBucket_admission_law`  — the exact admission law, in-order stamps;
* `tokenBucket_cap_iff`        — an order of stamps is safe for every bucket
  exactly when its forward steps add up to at most its spread.
-/

namespace RatelimitGateway.Limiter

open KeyStore Redis ArrivalCurve

/-- The script as `Allow` calls it, under a constant quota. -/
def tokenBucketCall (key : String) (rate burst : ℚ) (c : Call) : Script Reply :=
  tokenBucket key rate burst c.nowMs 1

/-- The stamps of a list of calls. -/
def stamps (calls : List Call) : List ℤ := calls.map Call.nowMs

/-- What a transcript consumes: one token for every admitted call. -/
def flow (tr : List Served) : List (ℚ × ℚ) :=
  tr.map fun x => ((x.1.nowMs : ℚ), if admitted x then 1 else 0)

/-- The flow consumes as many as were admitted. -/
theorem consumed_flow (tr : List Served) : consumed (flow tr) = admittedCount tr := by
  induction tr with
  | nil => rfl
  | cons x tr ih =>
    simp only [flow, admittedCount, List.map_cons, consumed_cons, List.countP_cons] at ih ⊢
    rw [ih]
    push_cast
    ring

theorem flow_concat (tr : List Served) (x : Served) :
    flow (tr ++ [x]) = flow tr ++ [((x.1.nowMs : ℚ), if admitted x then 1 else 0)] := by
  simp [flow]

theorem consumed_drop_flow (tr : List Served) (i : ℕ) :
    consumed ((flow tr).drop i) = admittedCount (tr.drop i) := by
  rw [flow, ← List.map_drop, ← consumed_flow, flow]

/-- The stretches of a flow, counted on the transcript. -/
theorem le_headroom_flow {burst rate : ℚ} {tr : List Served} {j : ℕ} (hj : j < tr.length)
    {x : ℚ} :
    x ≤ headroom burst (rate / 1000) tr[j].1.nowMs (flow (tr.take j)) ↔
      x ≤ burst ∧ ∀ i (hi : i < j), (admittedCount ((tr.take j).drop i) : ℚ) + x ≤
        burst + rate * ((tr[j].1.nowMs : ℚ) - tr[i].1.nowMs) / 1000 := by
  have hLen : (flow (tr.take j)).length = j := by
    simp only [flow, List.length_map, List.length_take]
    omega
  -- the flow keeps the stamps of the calls it was read off
  have hStamp : ∀ i (hi : i < (flow (tr.take j)).length) (hij : i < j),
      (flow (tr.take j))[i].1 = (tr[i].1.nowMs : ℚ) := by
    intro i hi hij
    simp [flow]
  have hRate : ∀ d : ℚ, rate / 1000 * d = rate * d / 1000 := fun d => by ring
  rw [le_headroom_iff]
  refine and_congr_right fun _ => ⟨fun hAll i hi => ?_, fun hAll i hi => ?_⟩
  · have hSlack := hAll i (by omega)
    rwa [consumed_drop_flow, hStamp i _ hi, hRate] at hSlack
  · rw [consumed_drop_flow, hStamp i hi (by omega), hRate]
    exact hAll i (by omega)

-- ---------------------------------------------------------------------------
-- One call
-- ---------------------------------------------------------------------------

/-- The key holds a bucket, if anything. -/
def KeptBucket (key : String) (s : Store) : Prop :=
  ∀ x, s key = some x → ∃ b, x.value = .hash b

theorem KeptBucket.holdsHash {key : String} {s : Store} (h : KeptBucket key s) (c : Clock) :
    HoldsHash c s key := by
  intro v hv
  obtain ⟨x, hx, rfl⟩ := exists_entry hv
  exact h x hx

theorem keptBucket_of_absent {key : String} {s : Store} (hAbsent : s key = none) :
    KeptBucket key s := by
  intro x hx
  exact absurd (hAbsent.symm.trans hx) nofun

/-- A call leaves a bucket. -/
theorem keptBucket_update {key : String} {s : Store} {c : Clock} {rate burst now avail : ℚ} :
    KeptBucket key (Function.update s key (some (bucketEntry c rate burst now 1 avail))) := by
  intro x hx
  rw [Function.update_self, Option.some.injEq] at hx
  subst hx
  exact ⟨_, rfl⟩

/-- The tokens that the call finds. -/
def found (e : Expiry) (key : String) (rate burst : ℚ) (s : Store) (c : Call) : ℚ :=
  available rate burst c.nowMs (bucketFields ⟨e, c.execAt⟩ s key)

section Step

variable {e : Expiry} {key : String} {rate burst : ℚ} {s : Store} {c : Call}

/-- What a call does to the bucket that it finds. -/
theorem serve_bucket (hType : HoldsHash ⟨e, c.execAt⟩ s key) :
    serve e (tokenBucketCall key rate burst) s c =
      (.ok (bucketReply rate burst 1 (found e key rate burst s c)),
        Function.update s key (some (bucketEntry ⟨e, c.execAt⟩ rate burst c.nowMs 1
          (found e key rate burst s c)))) :=
  exec_tokenBucket hType 1 rfl

theorem found_of_gone (hGone : find ⟨e, c.execAt⟩ s key = none) :
    found e key rate burst s c = burst := by
  simp only [found, bucketFields, valueAt, hGone, Option.map_none, available]

/-- The tokens that a call finds in a bucket that is still there. -/
theorem found_of_live {tokens : ℚ} {updated : ℤ} {d : Option ℤ}
    (hFind : find ⟨e, c.execAt⟩ s key = some ⟨.hash ⟨some tokens, some (updated : ℚ)⟩, d⟩) :
    found e key rate burst s c =
      min burst (tokens + ((max 0 (c.nowMs - updated) : ℤ) : ℚ) / 1000 * rate) := by
  simp only [found, bucketFields, valueAt, hFind, Option.map_some, available]
  push_cast
  rfl

/-- How long a bucket takes to refill to `x`. -/
theorem le_refill_iff {x tokens : ℚ} (hRate : 0 < rate) (ms : ℤ) :
    x ≤ tokens + (ms : ℚ) / 1000 * rate ↔ ⌈(x - tokens) / rate * 1000⌉ ≤ ms := by
  rw [Int.ceil_le, ← le_div_iff₀ (by norm_num : (0 : ℚ) < 1000), div_le_iff₀ hRate]
  constructor <;> intro h <;> linarith

/-- The time to a full bucket is not negative. -/
theorem bucketReset_nonneg {avail : ℚ} : 0 ≤ bucketReset rate burst 1 avail := by
  unfold bucketReset
  split
  · rename_i hShort
    have hMissing := sub_pos.mpr hShort.1
    have hRate := hShort.2
    exact Int.ceil_nonneg (by positivity)
  · exact le_rfl

/-- After its `reset_after_ms` a bucket is full. -/
theorem full_after_reset {avail : ℚ} {ms : ℤ} (hRate : 0 < rate) (hLate : 0 ≤ ms)
    (hReset : bucketReset rate burst 1 avail ≤ ms) :
    burst ≤ tokensLeft 1 avail + (ms : ℚ) / 1000 * rate := by
  by_cases hShort : tokensLeft 1 avail < burst
  · have hCeil : bucketReset rate burst 1 avail =
        ⌈(burst - tokensLeft 1 avail) / rate * 1000⌉ := if_pos ⟨hShort, hRate⟩
    rw [le_refill_iff hRate, ← hCeil]
    exact hReset
  · have hRefill : (0 : ℚ) ≤ (ms : ℚ) / 1000 * rate := by positivity
    linarith [not_lt.mp hShort]

/-- Redis' clock gains at most one second on the stamps from one script run
to the next: the slack that the script gives its keys. -/
def Follows (e : Expiry) (c c' : Call) : Prop :=
  e = .honoured → c'.execAt - c.execAt ≤ max 0 (c'.nowMs - c.nowMs) + 1000

/-- Without expiry no pace is asked of the clocks. -/
theorem follows_ignored (c c' : Call) : Follows .ignored c c' :=
  fun hHonoured => by cases hHonoured

/-- A bucket that has run out by then would be full. -/
theorem found_next {avail : ℚ} {c' : Call} (hRate : 0 < rate) (hFollows : Follows e c c') :
    found e key rate burst (Function.update s key
        (some (bucketEntry ⟨e, c.execAt⟩ rate burst c.nowMs 1 avail))) c' =
      min burst (tokensLeft 1 avail + ((max 0 (c'.nowMs - c.nowMs) : ℤ) : ℚ) / 1000 * rate) := by
  generalize hStore : Function.update s key
    (some (bucketEntry ⟨e, c.execAt⟩ rate burst c.nowMs 1 avail)) = s'
  have hEntry : s' key = some ⟨.hash ⟨some (tokensLeft 1 avail), some (c.nowMs : ℚ)⟩,
      some (c.execAt + (bucketReset rate burst 1 avail + 1000))⟩ := by
    rw [← hStore, Function.update_self]
    rfl
  cases e with
  | ignored => exact found_of_live (find_eq_some_iff.mpr ⟨hEntry, live_ignored _ _⟩)
  | honoured =>
    rcases lt_or_ge c'.execAt (c.execAt + (bucketReset rate burst 1 avail + 1000))
      with hLive | hDead
    · -- while the entry lives the script refills it
      exact found_of_live (find_before hEntry hLive)
    · -- once it has expired the script starts full, and the refill would have filled it too
      have hGain := hFollows rfl
      rw [found_of_gone (find_after hEntry hDead), min_eq_left]
      exact full_after_reset hRate (le_max_left _ _) (by omega)

theorem admitted_bucketReply (rate burst : ℚ) (c : Call) (avail : ℚ) :
    admitted (c, .ok (bucketReply rate burst 1 avail)) = decide (1 ≤ avail) := by
  by_cases h : 1 ≤ avail <;> simp [admitted, bucketReply, h]

/-- A call takes its token exactly when it is admitted. -/
theorem tokensLeft_one (rate burst : ℚ) (c : Call) (avail : ℚ) :
    tokensLeft 1 avail =
      avail - if admitted (c, .ok (bucketReply rate burst 1 avail)) then 1 else 0 := by
  rw [admitted_bucketReply]
  by_cases h : 1 ≤ avail <;> simp [tokensLeft, h]

end Step

-- ---------------------------------------------------------------------------
-- In-order stamps: the bucket is the headroom of the history
-- ---------------------------------------------------------------------------

/-- What holds after every call of a run with in-order stamps. -/
structure AdmissionInv (key : String) (rate burst : ℚ) (tr : List Served) (s : Store) :
    Prop where
  answered : Answered tr
  kept     : KeptBucket key s
  level    : ∀ c : Call, (∀ x ∈ tr, x.1.nowMs ≤ c.nowMs) →
    found .ignored key rate burst s c = headroom burst (rate / 1000) c.nowMs (flow tr)
  law      : ∀ j (hj : j < tr.length), admitted tr[j] = true ↔
    1 ≤ headroom burst (rate / 1000) tr[j].1.nowMs (flow (tr.take j))
  conforms : Conforms burst (rate / 1000) (flow tr)

/-- An unused key has a full bucket. -/
theorem admissionInv_init {key : String} {rate burst : ℚ} {s : Store} (hAbsent : s key = none) :
    AdmissionInv key rate burst [] s where
  answered := by simp [Answered]
  kept := keptBucket_of_absent hAbsent
  level := fun c _ => found_of_gone (find_eq_none_of_absent hAbsent)
  law := by simp
  conforms := by
    intro i j hi hj
    simp [flow] at hj

/-- The bucket holds what the arrival curve has left, also after one more call. -/
theorem admissionInv_step {key : String} {rate burst : ℚ} (hBurst : 0 ≤ burst) (hRate : 0 < rate)
    {tr : List Served} {s : Store} {c : Call} (hOrder : ∀ x ∈ tr, x.1.nowMs ≤ c.nowMs)
    (hInv : AdmissionInv key rate burst tr s) :
    AdmissionInv key rate burst
      (tr ++ [(c, (serve .ignored (tokenBucketCall key rate burst) s c).1)])
      (serve .ignored (tokenBucketCall key rate burst) s c).2 := by
  have hFound := hInv.level c hOrder
  rw [serve_bucket (hInv.kept.holdsHash _)]
  generalize found .ignored key rate burst s c = avail at hFound ⊢
  have hAdm := admitted_bucketReply rate burst c avail
  have hLate : ∀ x ∈ flow tr, x.1 ≤ (c.nowMs : ℚ) := by
    intro x hx
    obtain ⟨y, hy, rfl⟩ := List.mem_map.mp hx
    exact Int.cast_le.mpr (hOrder y hy)
  have hNonneg : 0 ≤ avail := by
    rw [hFound]
    exact headroom_nonneg hBurst (by positivity) hInv.conforms hLate
  refine ⟨answered_concat hInv.answered rfl, keptBucket_update, fun c' hc' => ?_, ?_, ?_⟩
  · -- the new level is the old headroom, less the token taken, refilled
    have hcc' : c.nowMs ≤ c'.nowMs :=
      hc' _ (List.mem_append_right _ (List.mem_singleton_self _))
    rw [found_next hRate (follows_ignored c c'), flow_concat, headroom_concat, ← hFound,
      tokensLeft_one rate burst c, max_eq_right (sub_nonneg.mpr hcc')]
    congr 1
    push_cast
    ring
  · refine Machine.forall_getElem_concat (P := fun pre x => admitted x = true ↔
      1 ≤ headroom burst (rate / 1000) x.1.nowMs (flow pre)) hInv.law ?_
    rw [hAdm, ← hFound, decide_eq_true_eq]
  · -- what is taken never exceeds the headroom
    rw [flow_concat]
    refine conforms_concat.mpr ⟨hInv.conforms, ?_⟩
    rw [hAdm, ← hFound]
    by_cases hTake : 1 ≤ avail <;> simp [hTake, hNonneg]

/-- So it does along every run in order. -/
theorem admissionInv_run {key : String} {rate burst : ℚ} (hBurst : 0 ≤ burst) (hRate : 0 < rate)
    {s : Store} (hAbsent : s key = none) {calls : List Call} (hOrder : InOrder calls) :
    AdmissionInv key rate burst
      (transcript .ignored (tokenBucketCall key rate burst) s calls)
      (keyspace .ignored (tokenBucketCall key rate burst) s calls) :=
  Machine.trace_invariant (admissionInv_init hAbsent)
    (fun _ _ _ hLast hInv => admissionInv_step hBurst hRate hLast hInv) hOrder

/--
**Token bucket, exact admission law.** On an initially absent key, with
stamps that never step back, every call is answered; call `j` is admitted
exactly when every stretch of the run that ends in it stays within
`burst + rate * duration` with it; and every stretch does.
-/
theorem tokenBucket_admission_law {key : String} {rate burst : ℚ}
    (hBurst : 1 ≤ burst) (hRate : 0 < rate) {s : Store} (hAbsent : s key = none)
    {calls : List Call} (hOrder : InOrder calls) :
    let run := transcript .ignored (tokenBucketCall key rate burst) s calls
    Answered run ∧
    (∀ j (hj : j < run.length), admitted run[j] = true ↔
      ∀ i (hi : i ≤ j), (admittedCount ((run.take j).drop i) : ℚ) + 1 ≤
        burst + rate * ((run[j].1.nowMs : ℚ) - run[i].1.nowMs) / 1000) ∧
    (∀ i j (hi : i ≤ j) (hj : j < run.length),
      (admittedCount ((run.take (j + 1)).drop i) : ℚ) ≤
        burst + rate * ((run[j].1.nowMs : ℚ) - run[i].1.nowMs) / 1000) := by
  intro run
  have hInv := admissionInv_run (zero_le_one.trans hBurst) hRate hAbsent hOrder
  refine ⟨hInv.answered, fun j hj => ?_, fun i j hi hj => ?_⟩
  · rw [hInv.law j hj, le_headroom_flow hj]
    constructor
    · rintro ⟨-, hAll⟩ i hi
      rcases hi.lt_or_eq with hlt | rfl
      · exact hAll i hlt
      · -- the stretch that consists of the call alone
        simpa [admittedCount] using hBurst
    · intro hAll
      exact ⟨hBurst, fun i hi => hAll i hi.le⟩
  · -- every stretch of the run keeps to the curve
    have hStretch := hInv.conforms i j hi (by simpa [flow] using hj)
    rw [show (flow run).take (j + 1) = flow (run.take (j + 1)) from List.map_take.symm,
      consumed_drop_flow] at hStretch
    simpa [flow, div_mul_eq_mul_div] using hStretch

/-- Two tokens, refilled every 500 ms: three calls at once and one later. -/
theorem tokenBucket_admission_law_demo :
    let run := transcript .ignored (tokenBucketCall "rl:token_bucket:demo" 2 2) empty
      [⟨0, 0, ""⟩, ⟨0, 0, ""⟩, ⟨0, 0, ""⟩, ⟨500, 500, ""⟩]
    Answered run ∧
    (∀ j (hj : j < run.length), admitted run[j] = true ↔
      ∀ i (hi : i ≤ j), (admittedCount ((run.take j).drop i) : ℚ) + 1 ≤
        2 + 2 * ((run[j].1.nowMs : ℚ) - run[i].1.nowMs) / 1000) ∧
    (∀ i j (hi : i ≤ j) (hj : j < run.length),
      (admittedCount ((run.take (j + 1)).drop i) : ℚ) ≤
        2 + 2 * ((run[j].1.nowMs : ℚ) - run[i].1.nowMs) / 1000) :=
  tokenBucket_admission_law (by norm_num) (by norm_num) rfl (by simp [InOrder])

-- ---------------------------------------------------------------------------
-- Stamps in any order: what the script pays out
-- ---------------------------------------------------------------------------

theorem stamps_concat (calls : List Call) (c : Call) :
    stamps (calls ++ [c]) = stamps calls ++ [c.nowMs] := by
  simp [stamps]

theorem cast_admittedCount_concat (tr : List Served) (x : Served) :
    (admittedCount (tr ++ [x]) : ℚ) = admittedCount tr + if admitted x then 1 else 0 := by
  rw [admittedCount_concat]
  split <;> simp

/-- Every script run of the calls follows on the last (`Follows`). Where keys do
not expire there is nothing to follow. -/
def KeepsPace (e : Expiry) (calls : List Call) : Prop := calls.IsChain (Follows e)

theorem follows_last {e : Expiry} {tr : List Served} {c c' : Call} {r : Except RedisError Reply}
    (h : ∀ x ∈ (tr ++ [(c, r)]).getLast?, Follows e x.1 c') : Follows e c c' :=
  h (c, r) (by rw [List.getLast?_concat]; exact Option.mem_some_self _)

/-- What holds after every call, whatever the stamps: the script has paid out
no more than the burst and a refill of every forward step. -/
structure TravelInv (e : Expiry) (key : String) (rate burst : ℚ) (tr : List Served) (s : Store) :
    Prop where
  kept   : KeptBucket key s
  nonneg : ∀ c, (∀ x ∈ tr.getLast?, Follows e x.1 c) → 0 ≤ found e key rate burst s c
  paid   : ∀ c, (∀ x ∈ tr.getLast?, Follows e x.1 c) →
    (admittedCount tr : ℚ) + found e key rate burst s c ≤
      burst + rate / 1000 * (forwardTravel (stamps (tr.map Prod.fst) ++ [c.nowMs]) : ℤ)

/-- Nothing is paid out yet. -/
theorem travelInv_init {e : Expiry} {key : String} {rate burst : ℚ} (hBurst : 0 ≤ burst)
    {s : Store} (hAbsent : s key = none) : TravelInv e key rate burst [] s where
  kept := keptBucket_of_absent hAbsent
  nonneg := fun c _ => by rwa [found_of_gone (find_eq_none_of_absent hAbsent)]
  paid := fun c _ => by
    rw [found_of_gone (find_eq_none_of_absent hAbsent)]
    simp [admittedCount, stamps, forwardTravel]

/-- One more call, whatever its stamp. -/
theorem travelInv_step {e : Expiry} {key : String} {rate burst : ℚ} (hBurst : 0 ≤ burst)
    (hRate : 0 < rate) {tr : List Served} {s : Store} {c : Call}
    (hFollows : ∀ x ∈ tr.getLast?, Follows e x.1 c) (hInv : TravelInv e key rate burst tr s) :
    TravelInv e key rate burst
      (tr ++ [(c, (serve e (tokenBucketCall key rate burst) s c).1)])
      (serve e (tokenBucketCall key rate burst) s c).2 := by
  have hPaid := hInv.paid c hFollows
  have hNonneg := hInv.nonneg c hFollows
  rw [serve_bucket (hInv.kept.holdsHash _)]
  generalize found e key rate burst s c = avail at hPaid hNonneg ⊢
  have hLeft : 0 ≤ tokensLeft 1 avail := by
    unfold tokensLeft
    split <;> linarith
  have hTaken := tokensLeft_one rate burst c avail
  refine ⟨keptBucket_update, fun c' hLast => ?_, fun c' hLast => ?_⟩
  · have hNext : Follows e c c' := follows_last hLast
    rw [found_next hRate hNext]
    exact le_min hBurst (by positivity)
  · have hNext : Follows e c c' := follows_last hLast
    have hFound : found e key rate burst (Function.update s key
        (some (bucketEntry ⟨e, c.execAt⟩ rate burst c.nowMs 1 avail))) c' ≤
          tokensLeft 1 avail + ((max 0 (c'.nowMs - c.nowMs) : ℤ) : ℚ) / 1000 * rate := by
      rw [found_next hRate hNext]
      exact min_le_right _ _
    generalize found e key rate burst _ c' = avail' at hFound ⊢
    generalize hx : ((c, .ok (bucketReply rate burst 1 avail)) : Served) = x at hTaken ⊢
    -- one more call moves the stamps forward by the gap, if that is positive
    have hTravel : forwardTravel (stamps ((tr ++ [x]).map Prod.fst) ++ [c'.nowMs]) =
        forwardTravel (stamps (tr.map Prod.fst) ++ [c.nowMs]) + max 0 (c'.nowMs - c.nowMs) := by
      rw [← hx, List.map_append, List.map_singleton, stamps_concat, List.append_assoc,
        List.singleton_append, forwardTravel_concat]
    rw [hTravel, cast_admittedCount_concat, Int.cast_add]
    generalize max 0 (c'.nowMs - c.nowMs) = forward at hFound ⊢
    calc (admittedCount tr : ℚ) + (if admitted x then 1 else 0) + avail'
        ≤ admittedCount tr + avail + (forward : ℚ) / 1000 * rate := by linarith
      _ ≤ burst + rate / 1000 * (forwardTravel (stamps (tr.map Prod.fst) ++ [c.nowMs]) : ℤ) +
            (forward : ℚ) / 1000 * rate := by linarith
      _ = burst + rate / 1000 * ((forwardTravel (stamps (tr.map Prod.fst) ++ [c.nowMs]) : ℤ) +
            (forward : ℚ)) := by ring

/-- Along every run that keeps pace with Redis. -/
theorem travelInv_run {e : Expiry} {key : String} {rate burst : ℚ} (hBurst : 0 ≤ burst)
    (hRate : 0 < rate) {s : Store} (hAbsent : s key = none) {calls : List Call}
    (hPace : KeepsPace e calls) :
    TravelInv e key rate burst (transcript e (tokenBucketCall key rate burst) s calls)
      (keyspace e (tokenBucketCall key rate burst) s calls) :=
  Machine.trace_invariant_of_chain (travelInv_init hBurst hAbsent)
    (fun _ _ _ hLast hInv => travelInv_step hBurst hRate hLast hInv) hPace

/-- A run pays out at most the burst and a refill of every forward step. -/
theorem tokenBucket_paid_le_travel {e : Expiry} {key : String} {rate burst : ℚ}
    (hBurst : 0 ≤ burst) (hRate : 0 < rate) {s : Store} (hAbsent : s key = none)
    {calls : List Call} (hPace : KeepsPace e calls) :
    (admittedCount (transcript e (tokenBucketCall key rate burst) s calls) : ℚ) ≤
      burst + rate / 1000 * (forwardTravel (stamps calls) : ℤ) := by
  have hInv := travelInv_run hBurst hRate hAbsent hPace
  cases calls using List.reverseRecOn with
  | nil => simpa [transcript, admittedCount, stamps, forwardTravel] using hBurst
  | append_singleton calls c =>
    -- a call that comes right after the last one finds what is left
    have hLast : ∀ x ∈ (transcript e (tokenBucketCall key rate burst) s
        (calls ++ [c])).getLast?, Follows e x.1 c := by
      intro x hx _
      rw [transcript, Machine.trace_concat, List.getLast?_concat, Option.mem_some_iff] at hx
      rw [← hx]
      show c.execAt - c.execAt ≤ max 0 (c.nowMs - c.nowMs) + 1000
      omega
    have hPaid := hInv.paid c hLast
    have hNonneg := hInv.nonneg c hLast
    rw [transcript, Machine.map_fst_trace, stamps_concat, List.append_assoc,
      List.singleton_append, forwardTravel_concat, sub_self, max_self, add_zero,
      ← stamps_concat] at hPaid
    rw [transcript]
    linarith

-- ---------------------------------------------------------------------------
-- The bucket that a travelling clock overdraws
-- ---------------------------------------------------------------------------

/--
A bucket of one token that refills in `U` ms of forward travel. Either the
run is empty, or it has been paid twice, or it was paid once and the bucket
holds the travel since then as a fraction of `U`.
-/
structure OneTokenInv (e : Expiry) (key : String) (U : ℤ) (tr : List Served) (s : Store) :
    Prop where
  kept  : KeptBucket key s
  cases : (tr = [] ∧ ∀ c, found e key (1000 / U) 1 s c = 1) ∨
    2 ≤ admittedCount tr ∨
    (admittedCount tr = 1 ∧ forwardTravel (stamps (tr.map Prod.fst)) < U ∧
      ∀ c, (∀ x ∈ tr.getLast?, Follows e x.1 c) → found e key (1000 / U) 1 s c =
        min 1 ((forwardTravel (stamps (tr.map Prod.fst) ++ [c.nowMs]) : ℤ) / (U : ℚ)))

/-- With a burst of one, one more call. -/
theorem oneTokenInv_step {e : Expiry} {key : String} {U : ℤ} (hU : 0 < U) {tr : List Served}
    {s : Store} {c : Call} (hFollows : ∀ x ∈ tr.getLast?, Follows e x.1 c)
    (hInv : OneTokenInv e key U tr s) :
    OneTokenInv e key U (tr ++ [(c, (serve e (tokenBucketCall key (1000 / U) 1) s c).1)])
      (serve e (tokenBucketCall key (1000 / U) 1) s c).2 := by
  have hCases := hInv.cases
  have hUq : (0 : ℚ) < U := by exact_mod_cast hU
  rw [serve_bucket (hInv.kept.holdsHash _)]
  have hAdm := admitted_bucketReply (1000 / U) 1 c (found e key (1000 / U) 1 s c)
  have hNext : ∀ avail (c' : Call), Follows e c c' → found e key (1000 / U) 1
      (Function.update s key (some (bucketEntry ⟨e, c.execAt⟩ (1000 / U) 1 c.nowMs 1 avail))) c' =
        min 1 (tokensLeft 1 avail + ((max 0 (c'.nowMs - c.nowMs) : ℤ) : ℚ) / U) := by
    intro avail c' hLast
    rw [found_next (by positivity) hLast]
    congr 2
    field_simp
  refine ⟨keptBucket_update, ?_⟩
  rcases hCases with ⟨rfl, hOne⟩ | hTwice | ⟨hOnce, hShort, hHolds⟩
  · -- the first call empties the bucket
    rw [hOne] at hAdm ⊢
    refine .inr (.inr ⟨?_, ?_, fun c' hLast => ?_⟩)
    · rw [admittedCount_concat, hAdm]
      simp [admittedCount]
    · simpa [stamps, forwardTravel] using hU
    · rw [hNext 1 c' (follows_last hLast)]
      simp [tokensLeft, stamps, forwardTravel]
  · -- it was paid twice already
    refine .inr (.inl ?_)
    rw [admittedCount_concat]
    omega
  · rw [hHolds c hFollows] at hAdm ⊢
    by_cases hFull : U ≤ forwardTravel (stamps (tr.map Prod.fst) ++ [c.nowMs])
    · -- the travel has refilled the token: it is paid a second time
      have hPaid : (1 : ℚ) ≤ (forwardTravel (stamps (tr.map Prod.fst) ++ [c.nowMs]) : ℤ) / U := by
        rw [one_le_div hUq]
        exact_mod_cast hFull
      rw [min_eq_left hPaid] at hAdm ⊢
      refine .inr (.inl ?_)
      rw [admittedCount_concat, hAdm]
      simp [hOnce]
    · -- short of a whole token: refused, and the travel adds up
      have hLess : ((forwardTravel (stamps (tr.map Prod.fst) ++ [c.nowMs]) : ℤ) : ℚ) / U < 1 := by
        rw [div_lt_one hUq]
        exact_mod_cast not_le.mp hFull
      rw [min_eq_right hLess.le] at hAdm ⊢
      refine .inr (.inr ⟨?_, ?_, fun c' hLast => ?_⟩)
      · rw [admittedCount_concat, hAdm]
        simp [hOnce, not_le.mpr hLess]
      · rw [List.map_append, List.map_singleton, stamps_concat]
        exact not_le.mp hFull
      · rw [hNext _ c' (follows_last hLast), tokensLeft, if_neg (not_le.mpr hLess),
          List.map_append, List.map_singleton, stamps_concat, List.append_assoc,
          List.singleton_append, forwardTravel_concat, Int.cast_add, add_div]

/-- A run whose stamps travel exactly `U` is paid twice. -/
theorem oneToken_paid_twice {e : Expiry} {key : String} {s : Store} (hAbsent : s key = none)
    {calls : List Call} (hPace : KeepsPace e calls) (hU : 0 < forwardTravel (stamps calls)) :
    2 ≤ admittedCount (transcript e
      (tokenBucketCall key (1000 / (forwardTravel (stamps calls) : ℤ)) 1) s calls) := by
  have hInit : OneTokenInv e key (forwardTravel (stamps calls)) [] s :=
    ⟨keptBucket_of_absent hAbsent,
      .inl ⟨rfl, fun c => found_of_gone (find_eq_none_of_absent hAbsent)⟩⟩
  have hInv := Machine.trace_invariant_of_chain hInit
    (fun _ _ _ hLast hInv => oneTokenInv_step hU hLast hInv) hPace
  rcases hInv.cases with ⟨hNil, -⟩ | hTwice | ⟨-, hShort, -⟩
  · have hLen := congrArg List.length hNil
    rw [Machine.length_trace, List.length_nil, List.length_eq_zero_iff] at hLen
    subst hLen
    simp [stamps, forwardTravel] at hU
  · exact hTwice
  · rw [Machine.map_fst_trace] at hShort
    exact absurd hShort (lt_irrefl _)

/--
**Which orders of stamps are safe.** Whatever order the stamps reach Redis
in, the run stays under `burst + rate * (largest - smallest stamp)` for every
bucket exactly when the stamps, in the order in which the scripts run, move
forward by no more than that distance in total. Where Redis expires keys, its
clock has to keep pace with the stamps.
-/
theorem tokenBucket_cap_iff {e : Expiry} {key : String} {s : Store} (hAbsent : s key = none)
    {calls : List Call} (hPace : KeepsPace e calls) :
    (∀ burst rate : ℚ, 1 ≤ burst → 0 < rate →
      (admittedCount (transcript e (tokenBucketCall key rate burst) s calls) : ℚ) ≤
        burst + rate * (spread (stamps calls) : ℤ) / 1000) ↔
    forwardTravel (stamps calls) ≤ spread (stamps calls) := by
  constructor
  · intro hSafe
    by_contra hFar
    have hSpread := spread_nonneg (stamps calls)
    have hU : 0 < forwardTravel (stamps calls) := by omega
    have hUq : (0 : ℚ) < (forwardTravel (stamps calls) : ℤ) := by exact_mod_cast hU
    -- a bucket of one token that refills over just the travel
    have hCap := hSafe 1 (1000 / (forwardTravel (stamps calls) : ℤ)) le_rfl (by positivity)
    -- the travel pays it a second token, which the spread does not allow
    have hTwice : (2 : ℚ) ≤ admittedCount (transcript e
        (tokenBucketCall key (1000 / (forwardTravel (stamps calls) : ℤ)) 1) s calls) := by
      exact_mod_cast oneToken_paid_twice hAbsent hPace hU
    have hLess : ((spread (stamps calls) : ℤ) : ℚ) / (forwardTravel (stamps calls) : ℤ) < 1 := by
      rw [div_lt_one hUq]
      exact_mod_cast not_le.mp hFar
    have hShape : (1000 : ℚ) / (forwardTravel (stamps calls) : ℤ) * (spread (stamps calls) : ℤ)
        / 1000 = (spread (stamps calls) : ℤ) / (forwardTravel (stamps calls) : ℤ) := by
      field_simp
    linarith
  · intro hNear burst rate hBurst hRate
    -- the bucket pays by the travel, which the spread bounds
    have hPaid := tokenBucket_paid_le_travel (zero_le_one.trans hBurst) hRate hAbsent hPace
    have hNearQ : ((forwardTravel (stamps calls) : ℤ) : ℚ) ≤ (spread (stamps calls) : ℤ) := by
      exact_mod_cast hNear
    calc (admittedCount (transcript e (tokenBucketCall key rate burst) s calls) : ℚ)
        ≤ burst + rate / 1000 * (forwardTravel (stamps calls) : ℤ) := hPaid
      _ ≤ burst + rate / 1000 * (spread (stamps calls) : ℤ) := by
          have := mul_le_mul_of_nonneg_left hNearQ (by positivity : 0 ≤ rate / 1000)
          linarith
      _ = burst + rate * (spread (stamps calls) : ℤ) / 1000 := by ring

/-- Three calls, the second stamped before the first. -/
theorem tokenBucket_cap_iff_demo :
    (∀ burst rate : ℚ, 1 ≤ burst → 0 < rate →
      (admittedCount (transcript .honoured (tokenBucketCall "rl:token_bucket:demo" rate burst)
        empty [⟨7, 7, ""⟩, ⟨5, 8, ""⟩, ⟨9, 1009, ""⟩]) : ℚ) ≤
        burst + rate * (spread (stamps [⟨7, 7, ""⟩, ⟨5, 8, ""⟩, ⟨9, 1009, ""⟩]) : ℤ) / 1000) ↔
    forwardTravel (stamps [⟨7, 7, ""⟩, ⟨5, 8, ""⟩, ⟨9, 1009, ""⟩]) ≤
      spread (stamps [⟨7, 7, ""⟩, ⟨5, 8, ""⟩, ⟨9, 1009, ""⟩]) :=
  tokenBucket_cap_iff rfl (by simp [KeepsPace, Follows])

-- Out of pace: the stamps stand still, and the bucket has run out a second later.
example : admittedCount (transcript .honoured (tokenBucketCall "rl:token_bucket:demo" 1000 1) empty
    [⟨0, 0, ""⟩, ⟨0, 1001, ""⟩]) = 2 := by decide +kernel

/-- One token per millisecond, and two replicas whose scripts alternate one
millisecond apart: the interval `[0, 1]` is refilled twice. -/
theorem tokenBucket_overspends :
    ¬ (admittedCount (transcript .honoured (tokenBucketCall "rl:token_bucket:demo" 1000 1) empty
        [⟨0, 1, ""⟩, ⟨1, 1, ""⟩, ⟨0, 2, ""⟩, ⟨1, 2, ""⟩]) : ℚ) ≤
      1 + 1000 * (spread (stamps [⟨0, 1, ""⟩, ⟨1, 1, ""⟩, ⟨0, 2, ""⟩, ⟨1, 2, ""⟩]) : ℤ) / 1000 := by
  decide +kernel

end RatelimitGateway.Limiter
