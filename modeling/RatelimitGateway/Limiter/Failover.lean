import RatelimitGateway.Limiter.Coherent
import RatelimitGateway.Limiter.Justified

/-!
# When Redis forgets

A Redis that is restarted without its data, that evicts a key, or that fails over
to a replica that lags behind, goes on with a keyspace that has forgotten some of
the calls. Whatever it has forgotten, it is a keyspace that the limiter has left
for the key at some time (`LeftBehind`), or an empty one, and from any such
keyspace the calls that follow are admitted within one allowance.

* `failovers_cost` — a run in which the keyspace is replaced `n` times admits at
  most `n + 1` allowances.
-/

namespace RatelimitGateway.Limiter

open KeyStore Redis ArrivalCurve

/-- A keyspace as the limiter leaves it for the key up to the stamp `t`. -/
structure LeftBehind (l : RedisLimiter) (key : String) (q : Quota) (t : ℤ) (s : Store) : Prop where
  sound : Sound l key s
  kept  : Kept l key q t s

theorem leftBehind_of_unused {l : RedisLimiter} {key : String} {s : Store} (h : Unused l key s)
    (q : Quota) (t : ℤ) : LeftBehind l key q t s :=
  ⟨sound_of_unused h, kept_of_unused h q t⟩

theorem leftBehind_step {l : RedisLimiter} {key : String} {q : Quota} (hq : ValidQuota q) {t : ℤ}
    {s : Store} (hLeft : LeftBehind l key q t s) {c : Call} (hLate : t ≤ c.nowMs)
    (hOnTime : OnTime c) :
    LeftBehind l key q c.nowMs (serve .honoured (l.script key q) s c).2 :=
  ⟨(coherent_step hq hLeft.sound c).2.1, (kept_step hq hLeft.kept hLate hOnTime).2⟩

/-- The calls may be served from a keyspace of `t`. -/
structure Follow (t : ℤ) (calls : List Call) : Prop where
  after   : ∀ c ∈ calls, t ≤ c.nowMs
  order   : InOrder calls
  onTime  : ∀ c ∈ calls, OnTime c
  members : DistinctMembers calls

/-- What a call of such a run may assume of the calls before it. -/
theorem Follow.at {t : ℤ} {calls pre post : List Call} {c : Call} (h : Follow t calls)
    (hSplit : calls = pre ++ c :: post) :
    (∀ a ∈ pre, a.nowMs ≤ c.nowMs ∧ a.member ≠ c.member) ∧ OnTime c ∧ t ≤ c.nowMs := by
  have hMem : c ∈ calls := hSplit ▸ List.mem_append_right _ List.mem_cons_self
  refine ⟨fun a ha => ⟨?_, ?_⟩, h.onTime c hMem, h.after c hMem⟩
  · have hOrder := h.order
    rw [hSplit, InOrder, List.pairwise_append] at hOrder
    exact hOrder.2.2 a ha c List.mem_cons_self
  · have hMembers := h.members
    rw [hSplit, DistinctMembers, List.pairwise_append] at hMembers
    exact hMembers.2.2 a ha c List.mem_cons_self

-- ---------------------------------------------------------------------------
-- token_bucket.lua
-- ---------------------------------------------------------------------------

/-- Any balance that was left behind is within the burst. -/
theorem travelInv_of_balance {key : String} {rate : ℚ} {burst : ℤ} (hRate : 0 < rate)
    (hBurst : 1 ≤ burst) {s : Store} (hBalance : HoldsBalance key s) :
    TravelInv .honoured key rate burst [] s where
  kept := hBalance.kept
  nonneg := fun c _ => hBalance.found_nonneg hRate hBurst .honoured c
  paid := fun c _ => by
    have hFull : found .honoured key rate (burst : ℚ) s c ≤ burst := found_le_burst s c
    simpa [admittedCount, stamps, forwardTravel] using hFull

/-- The time that calls in order travel, up to `t'`. -/
theorem Follow.travel_le {t t' : ℤ} {calls : List Call} (h : Follow t calls)
    (hBefore : ∀ c ∈ calls, c.nowMs ≤ t') (hSpan : t ≤ t') :
    forwardTravel (stamps calls ++ [t']) ≤ t' - t := by
  refine forwardTravel_le_of_sorted ?_ (fun u hu => ?_) hSpan
  · refine List.pairwise_append.mpr ⟨List.pairwise_map.mpr h.order, by simp, ?_⟩
    intro u hu v hv
    obtain ⟨c, hc, rfl⟩ := List.mem_map.mp hu
    rw [List.mem_singleton.mp hv]
    exact hBefore c hc
  · rcases List.mem_append.mp hu with hCall | hLast
    · obtain ⟨c, hc, rfl⟩ := List.mem_map.mp hCall
      exact ⟨h.after c hc, hBefore c hc⟩
    · rw [List.mem_singleton.mp hLast]
      exact ⟨hSpan, le_rfl⟩

/-- Calls on time follow on one another. -/
theorem follows_of_onTime {c c' : Call} (h : OnTime c) (h' : OnTime c') (e : Expiry) :
    Follows e c c' := follows_of_inFlight h.inFlight h'.inFlight e

/-- From whatever balance, a run pays out at most the burst and the refill. -/
theorem bucket_paid {key : String} {rate : ℚ} {burst : ℤ} (hRate : 0 < rate) (hBurst : 1 ≤ burst)
    {s : Store} (hBalance : HoldsBalance key s) {t t' : ℤ} {calls : List Call}
    (hFollow : Follow t calls) (hBefore : ∀ c ∈ calls, c.nowMs ≤ t') (hSpan : t ≤ t') :
    (admittedCount (transcript .honoured (tokenBucketCall key rate burst) s calls) : ℚ) ≤
      burst + rate / 1000 * (t' - t : ℤ) := by
  have hPace : KeepsPace .honoured calls :=
    keepsPace_of_inFlight (fun c hc => (hFollow.onTime c hc).inFlight) _
  have hInv : TravelInv .honoured key rate burst
      (transcript .honoured (tokenBucketCall key rate burst) s calls) _ :=
    Machine.trace_invariant_of_chain (travelInv_of_balance hRate hBurst hBalance)
      (fun _ _ _ hLast hInv => travelInv_step (by exact_mod_cast zero_le_one.trans hBurst) hRate
        hLast hInv) hPace
  -- what a call at `t'` would find
  have hEnd : ∀ x ∈ (transcript .honoured (tokenBucketCall key rate burst) s calls).getLast?,
      Follows .honoured x.1 ⟨t', t', ""⟩ := by
    intro x hx
    have hMem : x.1 ∈ calls := Machine.fst_mem_of_mem_trace _ _ (List.mem_of_getLast? hx)
    exact follows_of_onTime (hFollow.onTime _ hMem) (show OnTime ⟨t', t', ""⟩ from rfl) _
  have hPaid := hInv.paid _ hEnd
  have hNonneg := hInv.nonneg _ hEnd
  have hTravel := hFollow.travel_le hBefore hSpan
  rw [transcript, Machine.map_fst_trace] at hPaid
  have hRefill : rate / 1000 * (forwardTravel (stamps calls ++ [t']) : ℤ) ≤
      rate / 1000 * (t' - t : ℤ) := by gcongr
  rw [transcript]
  linarith

-- ---------------------------------------------------------------------------
-- sliding_window.lua
-- ---------------------------------------------------------------------------

/-- Calls that are all in a log are no more than it has entries. -/
theorem countP_le_card_removeUpTo {z : SortedSet ℤ String} {pre : List Call}
    (hMembers : DistinctMembers pre) {cut : ℤ}
    (hSub : ∀ a ∈ pre, cut < a.nowMs → logged a ∈ z.entries) :
    pre.countP (fun a => decide (cut < a.nowMs)) ≤ (z.removeUpTo cut).card := by
  set recent := pre.filter fun a => decide (cut < a.nowMs) with hRecent
  have hNodup : (recent.map logged).Nodup := by
    refine List.pairwise_map.mpr ((hMembers.filter _).imp fun hab hEq => hab ?_)
    exact congrArg Prod.snd hEq
  have hIn : recent.map logged ⊆ (z.removeUpTo cut).entries := by
    intro x hx
    obtain ⟨a, ha, rfl⟩ := List.mem_map.mp hx
    obtain ⟨hMem, hLate⟩ := List.mem_filter.mp ha
    have hCut := of_decide_eq_true hLate
    exact SortedSet.mem_removeUpTo.mpr ⟨hSub a hMem hCut, hCut⟩
  have hLength := (List.subperm_of_subset hNodup hIn).length_le
  rwa [List.length_map, hRecent, ← List.countP_eq_length_filter] at hLength

/-- The calls that were admitted are still in the log, as far as they count. -/
structure LogCapInv (key : String) (windowMs cap : ℤ) (tr : List Served) (s : Store) : Prop where
  members : DistinctMembers (admittedCalls tr)
  holds   : HoldsLog key s
  kept    : ∀ c, OnTime c → (∀ x ∈ tr, x.1.nowMs ≤ c.nowMs) → ∀ a ∈ admittedCalls tr,
    c.nowMs - windowMs < a.nowMs → logged a ∈ (foundLog .honoured key s c).entries
  capped  : ∀ t, (windowCount windowMs t (admittedCalls tr) : ℤ) ≤ cap

theorem logCapInv_init {key : String} {windowMs cap : ℤ} (hCap : 1 ≤ cap) {s : Store}
    (hLog : HoldsLog key s) : LogCapInv key windowMs cap [] s :=
  ⟨List.Pairwise.nil, hLog, fun _ _ _ _ ha => absurd ha List.not_mem_nil,
    fun _ => zero_le_one.trans hCap⟩

/-- A call under this limit, or under a smaller one. -/
theorem logCapInv_step {key : String} {windowMs cap limit : ℤ} (hLimit : limit ≤ cap)
    {tr : List Served} {s : Store} {c : Call}
    (hBefore : ∀ x ∈ tr, x.1.nowMs ≤ c.nowMs ∧ x.1.member ≠ c.member) (hOnTime : OnTime c)
    (hInv : LogCapInv key windowMs cap tr s) :
    LogCapInv key windowMs cap
      (tr ++ [(c, (serve .honoured (slidingWindowCall key windowMs limit) s c).1)])
      (serve .honoured (slidingWindowCall key windowMs limit) s c).2 := by
  have hKept := hInv.kept c hOnTime fun x hx => (hBefore x hx).1
  rw [serve_log (hInv.holds.holdsZset _)]
  set log := foundLog .honoured key s c with hLog
  have hEarlier : ∀ a ∈ admittedCalls tr, a.nowMs ≤ c.nowMs ∧ a.member ≠ c.member := by
    intro a ha
    obtain ⟨x, hx, rfl⟩ := mem_of_mem_admittedCalls ha
    exact hBefore x hx
  have hCount := countP_le_card_removeUpTo hInv.members hKept
  have hNext := admittedCalls_concat tr
    (c, .ok (slidingReply c.nowMs windowMs limit c.member log))
  rw [admitted_slidingReply] at hNext
  refine ⟨?_, holdsLog_update, fun c' hOnTime' hLater a ha hRecent => ?_, fun t => ?_⟩
  · rw [hNext]
    split
    · exact List.pairwise_append.mpr ⟨hInv.members, List.pairwise_singleton _ _,
        fun a ha b hb => by rw [List.mem_singleton.mp hb]; exact (hEarlier a ha).2⟩
    · exact hInv.members
  · have hcc' : c.nowMs ≤ c'.nowMs := hLater _ (List.mem_append_right _ (List.mem_singleton_self _))
    -- an earlier call that is still inside the window of c' was spared by this prune as well
    have hOld : ∀ b ∈ admittedCalls tr, c'.nowMs - windowMs < b.nowMs →
        logged b ∈ (logAfter c.nowMs windowMs limit c.member log).entries := fun b hb hSpared =>
      mem_logAfter_of_spared (hKept b hb (by omega)) (hEarlier b hb).2 (by
        show c.nowMs - windowMs < b.nowMs
        omega)
    have hAfter : logged a ∈ (logAfter c.nowMs windowMs limit c.member log).entries ∧
        a.nowMs ≤ c.nowMs := by
      rw [hNext] at ha
      split at ha
      · rename_i hFits
        rcases List.mem_append.mp ha with hEarly | hNew
        · exact ⟨hOld a hEarly hRecent, (hEarlier a hEarly).1⟩
        · obtain rfl := List.mem_singleton.mp hNew
          refine ⟨?_, le_rfl⟩
          rw [logAfter, if_pos (of_decide_eq_true hFits)]
          exact SortedSet.mem_add.mpr (.inl rfl)
      · exact ⟨hOld a ha hRecent, (hEarlier a ha).1⟩
    -- the log lives until all its entries have aged out
    rw [OnTime] at hOnTime hOnTime'
    rw [foundLog, (logAt_logEntry fun x hx => ?_).2]
    · exact hAfter.1
    · rw [live, hx]
      refine decide_eq_true (show c'.execAt < c.execAt + (windowMs + 1000) from ?_)
      have := hAfter.2
      omega
  · rw [hNext]
    split
    · rename_i hFits
      have hRoom := of_decide_eq_true hFits
      rw [windowCount_concat]
      cases hIn : inWindow windowMs t c with
      | false => simpa using hInv.capped t
      | true =>
        have hSpan := of_decide_eq_true hIn
        -- the windows that hold the new call see no more than the log did
        have hFewer : windowCount windowMs t (admittedCalls tr) ≤
            (admittedCalls tr).countP fun a => decide (c.nowMs - windowMs < a.nowMs) := by
          refine List.countP_mono_left fun a _ ha => ?_
          have := of_decide_eq_true ha
          exact decide_eq_true (by omega)
        push_cast
        simp only [if_true]
        omega
    · exact hInv.capped t

/-- From whatever log, a run admits at most the limit in any window. -/
theorem log_cap {key : String} {windowMs limit : ℤ} (hLimit : 1 ≤ limit) {s : Store}
    (hLog : HoldsLog key s) {t : ℤ} {calls : List Call} (hFollow : Follow t calls) (u : ℤ) :
    (windowCount windowMs u (admittedCalls
      (transcript .honoured (slidingWindowCall key windowMs limit) s calls)) : ℤ) ≤ limit := by
  refine (Machine.trace_invariant_of_prefix (C := fun pre c =>
    (∀ a ∈ pre, a.nowMs ≤ c.nowMs ∧ a.member ≠ c.member) ∧ OnTime c)
    (logCapInv_init hLimit hLog) ?_ ?_).capped u
  · rintro tr s c ⟨hBefore, hOnTime⟩ hInv
    exact logCapInv_step le_rfl (fun x hx => hBefore x.1 (List.mem_map_of_mem hx)) hOnTime hInv
  · intro pre c post hSplit
    obtain ⟨hBefore, hOnTime, -⟩ := hFollow.at hSplit
    exact ⟨hBefore, hOnTime⟩

-- ---------------------------------------------------------------------------
-- fixed_window.lua
-- ---------------------------------------------------------------------------

/-- On time, a counter is there for the calls of its window. -/
theorem counterAt_onTime {keyPrefix : String} {windowMs t k : ℤ} (hWindow : 1 ≤ windowMs)
    {s : Store} (hKept : KeptCounters keyPrefix windowMs t s) {c : Call} (hOnTime : OnTime c)
    (hIndex : windowIndex c.nowMs windowMs = .whole k) :
    counterAt ⟨.honoured, c.execAt⟩ s (windowKey keyPrefix (.whole k)) =
      counterAt ⟨.ignored, 0⟩ s (windowKey keyPrefix (.whole k)) := by
  cases hStored : s (windowKey keyPrefix (.whole k)) with
  | none => simp [counterAt, valueAt, find_eq_none_of_absent hStored]
  | some x =>
    obtain ⟨-, n, D, rfl, -, hEnd⟩ := hKept k x hStored
    have hBefore : c.execAt < D := by
      rw [hOnTime]
      exact lt_of_lt_of_le ((windowIndex_eq_iff hWindow).mp hIndex).2 hEnd
    have hFind : find ⟨.ignored, 0⟩ s (windowKey keyPrefix (.whole k)) =
        some ⟨.counter n, some D⟩ := find_eq_some_iff.mpr ⟨hStored, rfl⟩
    simp [counterAt, valueAt, find_before hStored hBefore, hFind]

/-- The counter of a window counts every call that was admitted in it. -/
structure CounterCapInv (keyPrefix : String) (windowMs cap t : ℤ) (tr : List Served) (s : Store) :
    Prop where
  kept    : ∀ t', t ≤ t' → (∀ x ∈ tr, x.1.nowMs ≤ t') → KeptCounters keyPrefix windowMs t' s
  counted : ∀ k, ((admittedCalls tr).countP (stampedIn windowMs k) : ℤ) ≤
    min cap (counterAt ⟨.ignored, 0⟩ s (windowKey keyPrefix (.whole k)))

/-- Counters that were left behind cap nothing that has been admitted yet. -/
theorem counterCapInv_init {keyPrefix : String} {windowMs cap t : ℤ} (hCap : 1 ≤ cap) {s : Store}
    (hKept : KeptCounters keyPrefix windowMs t s) :
    CounterCapInv keyPrefix windowMs cap t [] s where
  kept t' ht' _ j x hx := by
    obtain ⟨hBegun, hRest⟩ := hKept j x hx
    exact ⟨hBegun.trans ht', hRest⟩
  counted j := by
    refine le_min (zero_le_one.trans hCap) ?_
    unfold counterAt
    split
    · rename_i n hRead
      obtain ⟨x, hx, hValue⟩ := exists_entry hRead
      obtain ⟨-, m, D, rfl, hPos, -⟩ := hKept j x hx
      obtain rfl := Value.counter.inj hValue
      exact zero_le_one.trans hPos
    · exact le_rfl

/-- A call under this limit, or under a smaller one. -/
theorem counterCapInv_step {keyPrefix : String} {windowMs cap limit t : ℤ} (hLimit : limit ≤ cap)
    (hWindow : 1 ≤ windowMs) {tr : List Served} {s : Store} {c : Call}
    (hBefore : ∀ x ∈ tr, x.1.nowMs ≤ c.nowMs) (hLate : t ≤ c.nowMs) (hOnTime : OnTime c)
    (hInv : CounterCapInv keyPrefix windowMs cap t tr s) :
    CounterCapInv keyPrefix windowMs cap t
      (tr ++ [(c, (serve .honoured (fixedWindowCall keyPrefix windowMs limit) s c).1)])
      (serve .honoured (fixedWindowCall keyPrefix windowMs limit) s c).2 := by
  have hIndex := windowIndex_whole hWindow c.nowMs
  generalize ⌊(c.nowMs : ℚ) / windowMs⌋ = k at hIndex
  have hKept := hInv.kept c.nowMs hLate hBefore
  rw [serve_counter (hKept.holdsCounter _ k) hIndex]
  have hNext := admittedCalls_concat tr (c, .ok (fixedReply c.nowMs windowMs limit
    (counterAt ⟨.honoured, c.execAt⟩ s (windowKey keyPrefix (.whole k)) + 1)))
  rw [admitted_fixedReply, counterAt_onTime hWindow hKept hOnTime hIndex] at hNext
  refine ⟨fun t' _ hEnd => ?_, fun j => ?_⟩
  · have hct' : c.nowMs ≤ t' := hEnd _ (List.mem_append_right _ (List.mem_singleton_self _))
    intro j x hx
    obtain ⟨hBegun, hRest⟩ := keptCounters_update hWindow hKept le_rfl hOnTime hIndex j x hx
    exact ⟨hBegun.trans hct', hRest⟩
  · rw [counterAt_onTime hWindow hKept hOnTime hIndex, hNext]
    have hCounted := hInv.counted j
    by_cases hjk : j = k
    · subst hjk
      -- the counter of the call's own window moves on
      have hCounter : counterAt ⟨.ignored, 0⟩ (Function.update s (windowKey keyPrefix (.whole j))
          (some (counterEntry ⟨.honoured, c.execAt⟩ s (windowKey keyPrefix (.whole j)) windowMs)))
          (windowKey keyPrefix (.whole j)) =
          counterAt ⟨.ignored, 0⟩ s (windowKey keyPrefix (.whole j)) + 1 := by
        rw [← counterAt_onTime hWindow hKept hOnTime hIndex, counterAt,
          valueAt_update (live_ignored 0 _)]
        rfl
      rw [hCounter]
      split
      · rename_i hFits
        rw [List.countP_append, List.countP_singleton, stampedIn, decide_eq_true hIndex]
        simp only [if_true]
        push_cast
        have := of_decide_eq_true hFits
        omega
      · omega
    · -- the other counters are left alone, and the call is not stamped there
      have hOther : counterAt ⟨.ignored, 0⟩ (Function.update s (windowKey keyPrefix (.whole k))
          (some (counterEntry ⟨.honoured, c.execAt⟩ s (windowKey keyPrefix (.whole k)) windowMs)))
          (windowKey keyPrefix (.whole j)) =
          counterAt ⟨.ignored, 0⟩ s (windowKey keyPrefix (.whole j)) := by
        simp only [counterAt, valueAt, find, update_windowKey_of_ne hjk]
      rw [hOther]
      split
      · have hNot : stampedIn windowMs j c = false := by
          rw [stampedIn, hIndex]
          exact decide_eq_false fun hEq => hjk (WindowIndex.whole.inj hEq).symm
        rw [List.countP_append, List.countP_singleton, hNot]
        simpa using hCounted
      · exact hCounted

/-- From whatever counters, a run admits at most the limit in any aligned window. -/
theorem counters_cap {keyPrefix : String} {windowMs limit : ℤ} (hLimit : 1 ≤ limit)
    (hWindow : 1 ≤ windowMs) {s : Store} {t : ℤ} (hKept : KeptCounters keyPrefix windowMs t s)
    {calls : List Call} (hFollow : Follow t calls) (k : ℤ) :
    ((admittedCalls (transcript .honoured (fixedWindowCall keyPrefix windowMs limit) s
      calls)).countP (stampedIn windowMs k) : ℤ) ≤ limit := by
  refine ((Machine.trace_invariant_of_prefix (C := fun pre c =>
    (∀ a ∈ pre, a.nowMs ≤ c.nowMs) ∧ OnTime c ∧ t ≤ c.nowMs)
    (counterCapInv_init hLimit hKept) ?_ ?_).counted k).trans (min_le_left _ _)
  · rintro tr s c ⟨hBefore, hOnTime, hLate⟩ hInv
    exact counterCapInv_step le_rfl hWindow (fun x hx => hBefore x.1 (List.mem_map_of_mem hx)) hLate
      hOnTime hInv
  · intro pre c post hSplit
    obtain ⟨hBefore, hOnTime, hLate⟩ := hFollow.at hSplit
    exact ⟨fun a ha => (hBefore a ha).1, hOnTime, hLate⟩

-- ---------------------------------------------------------------------------
-- Whichever algorithm `Allow` runs
-- ---------------------------------------------------------------------------

/-- The calls, stamped from `t` to `t'`, are no more than `n` allowances. -/
def Allowances (alg : Algorithm) (q : Quota) (n : ℕ) (t t' : ℤ) (calls : List Call) : Prop :=
  match alg with
  | .tokenBucket =>
    (calls.length : ℚ) ≤ n * q.burstCapacity + q.ratePerSecond / 1000 * (t' - t : ℤ)
  | .slidingWindow => ∀ u, (windowCount q.windowMs u calls : ℤ) ≤ n * q.limit
  | .fixedWindow => ∀ k, (calls.countP (stampedIn q.windowMs k) : ℤ) ≤ n * q.limit

/-- Allowances of one stretch after the other add up. -/
theorem Allowances.append {alg : Algorithm} {q : Quota} {n m : ℕ} {t u t' : ℤ}
    {xs ys : List Call} (hxs : Allowances alg q n t u xs) (hys : Allowances alg q m u t' ys) :
    Allowances alg q (n + m) t t' (xs ++ ys) := by
  cases alg with
  | tokenBucket =>
    simp only [Allowances, List.length_append] at hxs hys ⊢
    push_cast at hxs hys ⊢
    linarith
  | slidingWindow =>
    intro w
    have hx := hxs w
    have hy := hys w
    rw [windowCount] at hx hy ⊢
    rw [List.countP_append]
    push_cast
    linarith
  | fixedWindow =>
    intro k
    have hx := hxs k
    have hy := hys k
    rw [List.countP_append]
    push_cast
    linarith

section ByAlgorithm

variable {l : RedisLimiter} {key : String} {q : Quota} {t t' : ℤ} {s : Store} {calls : List Call}

/-- From any keyspace that was left behind, a run admits one allowance. -/
theorem allowance_run (hq : ValidQuota q) (hLeft : LeftBehind l key q t s)
    (hFollow : Follow t calls) (hBefore : ∀ c ∈ calls, c.nowMs ≤ t') (hSpan : t ≤ t') :
    Allowances l.alg q 1 t t'
      (admittedCalls (transcript .honoured (l.script key q) s calls)) := by
  obtain ⟨hSound, hKept⟩ := hLeft
  unfold Sound at hSound
  cases hAlg : l.alg with
  | tokenBucket =>
    -- each script with the store it was left
    rw [hAlg] at hSound
    rw [script_tokenBucket hAlg, Allowances, Nat.cast_one, one_mul, admittedCalls,
      List.length_map, ← List.countP_eq_length_filter]
    exact bucket_paid hq.rate_pos hq.burst_pos hSound hFollow hBefore hSpan
  | slidingWindow =>
    rw [hAlg] at hSound
    intro u
    rw [script_slidingWindow hAlg, Nat.cast_one, one_mul]
    exact log_cap hq.limit hSound hFollow u
  | fixedWindow =>
    rw [kept_fixedWindow hAlg] at hKept
    intro k
    rw [script_fixedWindow hAlg, Nat.cast_one, one_mul]
    exact counters_cap hq.limit hq.window hKept hFollow k

/-- What such a run leaves is left behind too, and may be what a failover goes back
to. -/
theorem leftBehind_run (hq : ValidQuota q) (hLeft : LeftBehind l key q t s)
    (hFollow : Follow t calls) (hBefore : ∀ c ∈ calls, c.nowMs ≤ t') (hSpan : t ≤ t') :
    LeftBehind l key q t' (keyspace .honoured (l.script key q) s calls) := by
  have hRun : ∀ u, t ≤ u → (∀ x ∈ transcript .honoured (l.script key q) s calls, x.1.nowMs ≤ u) →
      LeftBehind l key q u (keyspace .honoured (l.script key q) s calls) := by
    refine Machine.trace_invariant_of_prefix
      (C := fun pre c => (∀ a ∈ pre, a.nowMs ≤ c.nowMs) ∧ OnTime c ∧ t ≤ c.nowMs)
      (P := fun tr s => ∀ u, t ≤ u → (∀ x ∈ tr, x.1.nowMs ≤ u) → LeftBehind l key q u s)
      (fun u hu _ => ⟨hLeft.sound, hLeft.kept.mono hu⟩) ?_ ?_
    · rintro tr s c ⟨hEarlier, hOnTime, hLate⟩ hInv u - hu
      have hHere := hInv c.nowMs hLate fun x hx => hEarlier x.1 (List.mem_map_of_mem hx)
      obtain ⟨hSound, hKept⟩ := leftBehind_step hq hHere le_rfl hOnTime
      exact ⟨hSound, hKept.mono (hu _ (List.mem_append_right _ (List.mem_singleton_self _)))⟩
    · intro pre c post hSplit
      obtain ⟨hEarlier, hOnTime, hLate⟩ := hFollow.at hSplit
      exact ⟨fun a ha => (hEarlier a ha).1, hOnTime, hLate⟩
  exact hRun t' hSpan fun x hx => hBefore x.1 (Machine.fst_mem_of_mem_trace _ _ hx)

end ByAlgorithm

-- ---------------------------------------------------------------------------
-- Runs with failovers
-- ---------------------------------------------------------------------------

/-- The calls from one failover to the next, and the keyspace that they begin with. -/
structure Segment where
  store : Store
  calls : List Call

/-- The segments of a run from `t` to `t'`: each begins with a keyspace that was left
behind, whenever that was. -/
def Segments (l : RedisLimiter) (key : String) (q : Quota) : ℤ → List Segment → ℤ → Prop
  | t, [], t' => t ≤ t'
  | t, g :: gs, t' => ∃ u, t ≤ u ∧ LeftBehind l key q t g.store ∧ Follow t g.calls ∧
      (∀ c ∈ g.calls, c.nowMs ≤ u) ∧ Segments l key q u gs t'

/-- The replies to all the calls of the run. -/
def servedIn (l : RedisLimiter) (key : String) (q : Quota) (gs : List Segment) : List Served :=
  gs.flatMap fun g => transcript .honoured (l.script key q) g.store g.calls

/--
**A failover costs one allowance.** Redis expires keys on the gateways' clock, and
scripts run at the stamps of their calls, which never step back. `n` times in the
run the keyspace is replaced by one that the limiter may have left for the key at
any time before: an earlier one, or an empty one. In total the key's calls are
admitted within `n + 1` allowances: as many bursts and the refill of the whole
time, or that multiple of the limit in any window.
-/
theorem failovers_cost {l : RedisLimiter} {key : String} {q : Quota} (hq : ValidQuota q)
    {t t' : ℤ} {gs : List Segment} (hSegments : Segments l key q t gs t') :
    Allowances l.alg q gs.length t t' (admittedCalls (servedIn l key q gs)) := by
  induction gs generalizing t with
  | nil =>
    have hSpan : t ≤ t' := hSegments
    unfold Allowances
    split
    · have hRefill : (0 : ℚ) ≤ (t' - t : ℤ) := by exact_mod_cast sub_nonneg.mpr hSpan
      have hRate := hq.rate_pos
      have := mul_nonneg (show 0 ≤ q.ratePerSecond / 1000 by positivity) hRefill
      simpa [servedIn, admittedCalls] using this
    · simp [servedIn, admittedCalls, windowCount]
    · simp [servedIn, admittedCalls]
  | cons g gs ih =>
    obtain ⟨u, hSpan, hLeft, hFollow, hBefore, hRest⟩ := hSegments
    -- one more segment, one more allowance
    have hHere := allowance_run hq hLeft hFollow hBefore hSpan
    have hMore := hHere.append (ih hRest)
    rw [servedIn, List.flatMap_cons, ← servedIn, admittedCalls, List.filter_append, List.map_append,
      ← admittedCalls, ← admittedCalls, List.length_cons, add_comm]
    exact hMore

/-- One per second. The call of 400 is forgotten when Redis goes back, at 500, to
what it held before. -/
theorem failovers_cost_demo :
    let l : RedisLimiter := ⟨.slidingWindow, "rl"⟩
    let q : Quota := ⟨1, 1000000000, 0⟩
    let before := keyspace .honoured (l.script "acme" q) empty []
    let gs : List Segment := [⟨empty, [⟨400, 400, "a"⟩]⟩, ⟨before, [⟨500, 500, "b"⟩]⟩]
    Allowances .slidingWindow q 2 400 500 (admittedCalls (servedIn l "acme" q gs)) ∧
      windowCount 1000 500 (admittedCalls (servedIn l "acme" q gs)) = 2 := by
  intro l q before gs
  have hq : ValidQuota q := ⟨by decide, by decide⟩
  have hLeft : ∀ t, LeftBehind l "acme" q t empty :=
    leftBehind_of_unused ⟨rfl, fun _ => rfl⟩ q
  have hFirst : Follow 400 [(⟨400, 400, "a"⟩ : Call)] :=
    ⟨by simp, by simp [InOrder], by simp [OnTime], by simp [DistinctMembers]⟩
  have hSecond : Follow 500 [(⟨500, 500, "b"⟩ : Call)] :=
    ⟨by simp, by simp [InOrder], by simp [OnTime], by simp [DistinctMembers]⟩
  -- the key space as it was before the first call: a replica that lost its writes
  have hBack : LeftBehind l "acme" q 500 before :=
    leftBehind_run hq (hLeft 400)
      ⟨by simp, by simp [InOrder], by simp, by simp [DistinctMembers]⟩ (by simp) (by decide)
  have hSegments : Segments l "acme" q 400 gs 500 := by
    refine ⟨500, by decide, hLeft 400, hFirst, by simp, ?_⟩
    refine ⟨500, le_rfl, hBack, hSecond, by simp, ?_⟩
    exact le_refl (500 : ℤ)
  exact ⟨failovers_cost hq hSegments, by decide +kernel⟩

end RatelimitGateway.Limiter
