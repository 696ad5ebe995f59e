import Mathlib.Data.Finset.Card
import RatelimitGateway.Limiter.Coherent
import RatelimitGateway.Limiter.Isolation

/-!
# What stays in Redis

A caller that goes away must not leave anything behind, or a scan of random
addresses would fill Redis for good. Each script gives its key an expiry in the
same run in which it writes it: the bucket the time it takes to fill up, the log
one window, both with a second to spare, and the counter one window, set by the
call that creates it and by no later one.

* `nothing_leaks` — whatever calls were made, under whatever quotas: a live key
  was touched by a call that is younger than its `lifetime`, its value is one
  that its algorithm writes, a log is no longer than the limit of a call, and
  there are no more live keys than young calls.
-/

namespace RatelimitGateway.Limiter

open KeyStore Redis

namespace KeyedCall

/-- For how long a call can keep its Redis key, in milliseconds. -/
def lifetime (c : KeyedCall) : ℤ :=
  match c.alg with
  | .tokenBucket => ⌈(c.quota.burstCapacity : ℚ) / c.quota.ratePerSecond * 1000⌉ + 1000
  | .slidingWindow => c.quota.windowMs + 1000
  | .fixedWindow => c.quota.windowMs

/-- A value that the call can leave under its key. -/
def MayLeave (c : KeyedCall) (v : Value) : Prop :=
  match c.alg with
  | .tokenBucket => ∃ tokens updated, v = .hash ⟨some tokens, some updated⟩ ∧ 0 ≤ tokens
  | .slidingWindow => ∃ z, v = .zset z ∧ (z.card : ℤ) ≤ c.quota.limit
  | .fixedWindow => ∃ n, v = .counter n

end KeyedCall

/-- A Redis key tells the algorithm that uses it. -/
theorem touched_alg {c c' : KeyedCall} (h : c.touched = c'.touched) : c.alg = c'.alg := by
  obtain ⟨alg, key, q, t, _, _⟩ := c
  obtain ⟨alg', key', q', t', _, _⟩ := c'
  cases alg <;> cases alg' <;>
    simp only [KeyedCall.touched, KeyedCall.limiter, RedisLimiter.touchedKey,
      windowKey_redisKey] at h <;>
    exact (redisKey_inj h).1

/-- Every entry goes back to calls on its key: one that can have left its value,
and one that can have set its deadline. -/
def Accounted (calls : List KeyedCall) (s : Store) : Prop :=
  ∀ k x, s k = some x → (∃ c ∈ calls, c.touched = k ∧ c.MayLeave x.value) ∧
    ∃ c ∈ calls, c.touched = k ∧ ∃ d, x.deadline = some d ∧ d ≤ c.execAt + c.lifetime

section Step

variable {calls : List KeyedCall} {s : Store} {c : KeyedCall}

theorem Accounted.mono (h : Accounted calls s) (c : KeyedCall) : Accounted (calls ++ [c]) s := by
  intro k x hx
  obtain ⟨⟨a, ha, hLeft⟩, b, hb, hDeadline⟩ := h k x hx
  exact ⟨⟨a, List.mem_append_left _ ha, hLeft⟩, b, List.mem_append_left _ hb, hDeadline⟩

/-- A call changes its own key. -/
theorem Accounted.update (h : Accounted calls s) {x : Option (Entry Value)}
    (hx : ∀ y, x = some y → (∃ a ∈ calls ++ [c], a.touched = c.touched ∧ a.MayLeave y.value) ∧
      ∃ a ∈ calls ++ [c], a.touched = c.touched ∧
        ∃ d, y.deadline = some d ∧ d ≤ a.execAt + a.lifetime) :
    Accounted (calls ++ [c]) (Function.update s c.touched x) := by
  intro k y hy
  by_cases hk : k = c.touched
  · rw [hk, Function.update_self] at hy
    rw [hk]
    exact hx y hy
  · rw [Function.update_of_ne hk] at hy
    exact h.mono c k y hy

/-- What is stored under the key of a call was left by its own algorithm. -/
theorem Accounted.left (h : Accounted calls s) {x : Entry Value} (hx : s c.touched = some x) :
    ∃ a ∈ calls, a.touched = c.touched ∧ a.alg = c.alg ∧ a.MayLeave x.value := by
  obtain ⟨⟨a, ha, hTouched, hLeft⟩, -⟩ := h _ x hx
  exact ⟨a, ha, hTouched, touched_alg hTouched, hLeft⟩

/-- A quota that gets past the check of `Allow`. -/
theorem rate_pos_of_checked {q : Quota} (hChecked : ¬(q.limit ≤ 0 ∨ q.window ≤ 0)) :
    0 < q.ratePerSecond ∧ 1 ≤ q.burstCapacity := by
  rw [not_or, not_le, not_le] at hChecked
  obtain ⟨hLimit, hWindow⟩ := hChecked
  have hLimit' : (0 : ℚ) < q.limit := by exact_mod_cast hLimit
  have hWindow' : (0 : ℚ) < q.window := by exact_mod_cast hWindow
  refine ⟨?_, ?_⟩
  · rw [Quota.ratePerSecond, if_neg (not_le.mpr hWindow)]
    positivity
  · unfold Quota.burstCapacity
    split <;> omega

/-- A bucket is full after the time that an empty one takes. -/
theorem bucketReset_le {rate avail : ℚ} {burst : ℤ} (hRate : 0 < rate) (hBurst : 1 ≤ burst)
    (hAvail : 0 ≤ avail) (hFull : avail ≤ burst) :
    bucketReset rate burst 1 avail ≤ ⌈(burst : ℚ) / rate * 1000⌉ := by
  have hLeft := (tokensLeft_bounds hBurst hAvail hFull).1
  unfold bucketReset
  split
  · refine Int.ceil_le_ceil ?_
    gcongr
    linarith
  · have hPos : (0 : ℚ) ≤ burst := by exact_mod_cast zero_le_one.trans hBurst
    exact Int.ceil_nonneg (by positivity)

/-- A call of the bucket accounts for the entry that it leaves. -/
theorem accounted_tokenBucket (h : Accounted calls s) (hAlg : c.alg = .tokenBucket)
    (hChecked : ¬(c.quota.limit ≤ 0 ∨ c.quota.window ≤ 0)) :
    Accounted (calls ++ [c]) (c.reply .honoured s).2 := by
  obtain ⟨hRate, hBurst⟩ := rate_pos_of_checked hChecked
  have hTouched : c.touched = c.limiter.redisKey c.key := by
    simp [KeyedCall.touched, RedisLimiter.touchedKey, KeyedCall.limiter, hAlg]
  -- the key was left by token bucket calls only, if by any
  have hBalance : HoldsBalance (c.limiter.redisKey c.key) s := by
    intro x hx
    rw [← hTouched] at hx
    obtain ⟨a, -, -, hSame, hLeft⟩ := h.left hx
    rwa [KeyedCall.MayLeave, hSame, hAlg] at hLeft
  have hAvail := hBalance.found_nonneg hRate hBurst .honoured c.toCall
  have hFull : found .honoured (c.limiter.redisKey c.key) c.quota.ratePerSecond
      c.quota.burstCapacity s c.toCall ≤ c.quota.burstCapacity := found_le_burst s c.toCall
  rw [KeyedCall.reply_eq_serve, script_tokenBucket hAlg, serve_bucket (hBalance.kept.holdsHash _),
    ← hTouched] at *
  refine h.update fun y hy => ?_
  obtain rfl := Option.some.inj hy
  refine ⟨⟨c, by simp, rfl, ?_⟩, c, by simp, rfl, _, rfl, ?_⟩
  · rw [KeyedCall.MayLeave, hAlg]
    exact ⟨_, _, rfl, (tokensLeft_bounds hBurst hAvail hFull).1⟩
  · -- it expires within the refill of the whole bucket and a second
    have hReset := bucketReset_le hRate hBurst hAvail hFull
    rw [KeyedCall.lifetime, hAlg]
    exact Int.add_le_add_left (Int.add_le_add_right hReset _) _

/-- A log that was no longer than a limit, or than the limit of the call, stays so. -/
theorem card_logAfter_le_max (nowMs windowMs limit : ℤ) (member : String)
    (log : SortedSet ℤ String) :
    ((logAfter nowMs windowMs limit member log).card : ℤ) ≤ max limit log.card := by
  have hPruned := SortedSet.card_removeUpTo_le (nowMs - windowMs) log
  have hAdd := SortedSet.card_add_le nowMs member (log.removeUpTo (nowMs - windowMs))
  unfold logAfter
  dsimp only
  split <;> omega

/-- A log that is not empty is the one that is stored. -/
theorem stored_of_foundLog {e : Expiry} {key : String} {s : Store} {c : Call}
    (hCard : 0 < (foundLog e key s c).card) :
    ∃ x, s key = some x ∧ x.value = .zset (foundLog e key s c) := by
  unfold foundLog logAt at hCard ⊢
  split
  · rename_i z hRead
    exact exists_entry hRead
  · simp_all [SortedSet.card]

/-- So does a call of the log. -/
theorem accounted_slidingWindow (h : Accounted calls s) (hAlg : c.alg = .slidingWindow)
    (hChecked : ¬(c.quota.limit ≤ 0 ∨ c.quota.window ≤ 0)) :
    Accounted (calls ++ [c]) (c.reply .honoured s).2 := by
  have hTouched : c.touched = c.limiter.redisKey c.key := by
    simp [KeyedCall.touched, RedisLimiter.touchedKey, KeyedCall.limiter, hAlg]
  -- the key was left by sliding window calls only, if by any
  have hLog : HoldsLog c.touched s := by
    intro x hx
    obtain ⟨a, -, -, hSame, hLeft⟩ := h.left hx
    rw [KeyedCall.MayLeave, hSame, hAlg] at hLeft
    obtain ⟨z, hz, -⟩ := hLeft
    exact ⟨z, hz⟩
  rw [KeyedCall.reply_eq_serve, script_slidingWindow hAlg, ← hTouched,
    serve_log (hLog.holdsZset _)]
  refine h.update fun y hy => ?_
  have hEntry := (Function.update_self c.touched _ s).trans hy
  obtain rfl := entry_of_logUpdate hEntry
  refine ⟨?_, c, by simp, rfl, _, rfl, ?_⟩
  · -- at most the limit of this call, or what was in the log before
    have hCard := card_logAfter_le_max c.nowMs c.quota.windowMs c.quota.limit c.toCall.member
      (foundLog .honoured c.touched s c.toCall)
    rcases le_max_iff.mp hCard with hOwn | hFound
    · refine ⟨c, by simp, rfl, ?_⟩
      rw [KeyedCall.MayLeave, hAlg]
      exact ⟨_, rfl, hOwn⟩
    · by_cases hEmpty : 0 < (foundLog .honoured c.touched s c.toCall).card
      · -- the log is one that an earlier call left, pruned
        obtain ⟨x, hx, hValue⟩ := stored_of_foundLog hEmpty
        obtain ⟨a, ha, hSameKey, hSame, hLeft⟩ := h.left hx
        rw [KeyedCall.MayLeave, hSame, hAlg, hValue] at hLeft
        obtain ⟨z, hz, hLimit⟩ := hLeft
        obtain rfl := Value.zset.inj hz
        refine ⟨a, List.mem_append_left _ ha, hSameKey, ?_⟩
        rw [KeyedCall.MayLeave, hSame, hAlg]
        exact ⟨_, rfl, hFound.trans hLimit⟩
      · -- an empty log was found, and the limit is positive
        refine ⟨c, by simp, rfl, ?_⟩
        rw [KeyedCall.MayLeave, hAlg]
        refine ⟨_, rfl, ?_⟩
        have hLimit : 0 < c.quota.limit := by omega
        have hZero : (foundLog .honoured c.touched s c.toCall).card = 0 := by omega
        exact (hFound.trans (by rw [hZero]; exact le_of_eq rfl)).trans hLimit.le
  · rw [KeyedCall.lifetime, hAlg]
    exact le_of_eq (by simp [KeyedCall.toCall])

/-- And a call that counts. -/
theorem accounted_fixedWindow (h : Accounted calls s) (hAlg : c.alg = .fixedWindow) :
    Accounted (calls ++ [c]) (c.reply .honoured s).2 := by
  have hType : HoldsCounter ⟨.honoured, c.execAt⟩ s c.touched := by
    intro v hv
    obtain ⟨x, hx, rfl⟩ := exists_entry hv
    obtain ⟨a, -, -, hSame, hLeft⟩ := h.left hx
    rwa [KeyedCall.MayLeave, hSame, hAlg] at hLeft
  have hKey : windowKey (c.limiter.redisKey c.key) (windowIndex c.nowMs c.quota.windowMs) =
      c.touched := by
    simp [KeyedCall.touched, RedisLimiter.touchedKey, KeyedCall.limiter, hAlg]
  have hRun : (c.reply .honoured s).2 = Function.update s c.touched
      (some (counterEntry ⟨.honoured, c.execAt⟩ s c.touched c.quota.windowMs)) := by
    rw [KeyedCall.reply_eq_serve, script_fixedWindow hAlg, serve, fixedWindowCall]
    exact congrArg Prod.snd (exec_fixedWindow c.quota.limit hKey hType)
  rw [hRun]
  refine h.update fun y hy => ?_
  obtain rfl := Option.some.inj hy
  refine ⟨⟨c, by simp, rfl, ?_⟩, ?_⟩
  · rw [KeyedCall.MayLeave, hAlg]
    exact ⟨_, rfl⟩
  · unfold counterEntry
    split
    · -- a new counter, which this call lets expire
      refine ⟨c, by simp, rfl, _, rfl, ?_⟩
      rw [KeyedCall.lifetime, hAlg]
    · -- the deadline of an earlier call stays
      rename_i hOld
      cases hFind : find ⟨.honoured, c.execAt⟩ s c.touched with
      | none => simp [counterAt, valueAt, hFind] at hOld
      | some x =>
        obtain ⟨hx, -⟩ := find_eq_some_iff.mp hFind
        obtain ⟨-, a, ha, hSameKey, hDeadline⟩ := h _ _ hx
        exact ⟨a, List.mem_append_left _ ha, hSameKey, hDeadline⟩

/-- One call of `Allow`, whatever it returns. -/
theorem accounted_allow (h : Accounted calls s) :
    Accounted (calls ++ [c]) (c.allow .honoured s).2 := by
  rw [allow_eq]
  split
  · exact h.mono c
  · rename_i hChecked
    split
    · exact h.mono c
    · have hStep : Accounted (calls ++ [c]) (c.reply .honoured s).2 := by
        cases hAlg : c.alg with
        | tokenBucket => exact accounted_tokenBucket h hAlg hChecked
        | slidingWindow => exact accounted_slidingWindow h hAlg hChecked
        | fixedWindow => exact accounted_fixedWindow h hAlg
      rcases hReply : c.reply .honoured s with ⟨_ | r, s'⟩ <;> rw [hReply] at hStep <;> exact hStep

end Step

/-- Every entry is accounted for, along every run. -/
theorem accounted_run (calls : List KeyedCall) :
    Accounted calls (Machine.final (KeyedCall.allow .honoured) empty calls) := by
  induction calls using List.reverseRecOn with
  | nil =>
    intro k x hx
    cases hx
  | append_singleton pre c ih =>
    rw [Machine.final_concat]
    exact accounted_allow ih

/-- Keys that all come from a list are no more than the list is long. -/
theorem card_le_of_come_from {α : Type} {f : α → String} {xs : List α} {keys : Finset String}
    (h : ∀ k ∈ keys, ∃ x ∈ xs, f x = k) : keys.card ≤ xs.length := by
  have hSub : keys ⊆ (xs.map f).toFinset := by
    intro k hk
    obtain ⟨x, hx, rfl⟩ := h k hk
    exact List.mem_toFinset.mpr (List.mem_map_of_mem hx)
  calc keys.card
      ≤ (xs.map f).toFinset.card := Finset.card_le_card hSub
    _ ≤ (xs.map f).length := List.toFinset_card_le _
    _ = xs.length := List.length_map _

/--
**Nothing leaks.** Whatever calls of `Allow` are made, by any algorithms, on any
keys, under any quotas and with stamps in any order: a key that is live at a
time was touched by a call that ran less than its lifetime before, and it holds
what a call on it leaves, so that a log is no longer than the limit of one of
them. There are no more live keys than calls that young, and none at all once
every call is older.
-/
theorem nothing_leaks (calls : List KeyedCall) (t : ℤ) :
    let s := Machine.final (KeyedCall.allow .honoured) empty calls
    let young : KeyedCall → Bool := fun c => decide (t < c.execAt + c.lifetime)
    (∀ k x, find ⟨.honoured, t⟩ s k = some x →
        (∃ c ∈ calls, c.touched = k ∧ young c) ∧
        ∃ c ∈ calls, c.touched = k ∧ c.MayLeave x.value) ∧
      ∀ keys : Finset String, (∀ k ∈ keys, find ⟨.honoured, t⟩ s k ≠ none) →
        keys.card ≤ calls.countP young := by
  intro s young
  have hLive : ∀ k x, find ⟨.honoured, t⟩ s k = some x →
      (∃ c ∈ calls, c.touched = k ∧ young c) ∧
        ∃ c ∈ calls, c.touched = k ∧ c.MayLeave x.value := by
    intro k x hFind
    obtain ⟨hx, hAlive⟩ := find_eq_some_iff.mp hFind
    obtain ⟨hLeft, c, hc, hTouched, d, hd, hDeadline⟩ := accounted_run calls k x hx
    refine ⟨⟨c, hc, hTouched, decide_eq_true (lt_of_lt_of_le ?_ hDeadline)⟩, hLeft⟩
    simpa [live, hd] using hAlive
  refine ⟨hLive, fun keys hKeys => ?_⟩
  rw [List.countP_eq_length_filter]
  -- each live key is one that a young call touched
  refine card_le_of_come_from (f := KeyedCall.touched) fun k hk => ?_
  obtain ⟨x, hx⟩ := Option.ne_none_iff_exists'.mp (hKeys k hk)
  obtain ⟨⟨c, hc, hTouched, hYoung⟩, -⟩ := hLive k x hx
  exact ⟨c, List.mem_filter.mpr ⟨hc, hYoung⟩, hTouched⟩

end RatelimitGateway.Limiter
