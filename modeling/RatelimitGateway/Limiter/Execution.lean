import RatelimitGateway.Lib.Machine
import RatelimitGateway.Limiter.Definitions

/-!
# Running the scripts

What each script replies and what it leaves in the keyspace, read off its
commands once: `exec_tokenBucket`, `exec_slidingWindow`, `exec_fixedWindow`.
Every later proof cites these and never runs a script again. Each needs only
that the key does not hold a value of another type.

A `Call` is one limiter call as Redis sees it: the time the gateway read
before the round trip, and the time on the server's clock when the script
runs. `transcript` is the run of a list of calls in the order in which their
scripts run.
-/

namespace RatelimitGateway.Limiter

open KeyStore Redis

-- ---------------------------------------------------------------------------
-- Calls and runs
-- ---------------------------------------------------------------------------

structure Call where
  /-- The gateway's clock, read before the call is sent. -/
  nowMs : ℤ
  /-- The server's clock when the script runs. -/
  execAt : ℤ
  member : String := ""
  deriving DecidableEq, Repr

/-- A call and the reply it got. -/
abbrev Served := Call × Except RedisError Reply

/-- One call: the script runs to its end. -/
def serve (e : Expiry) (script : Call → Script Reply) (s : Store) (c : Call) :
    Except RedisError Reply × Store :=
  exec (script c) ⟨e, c.execAt⟩ s

/-- The replies to a list of calls. -/
def transcript (e : Expiry) (script : Call → Script Reply) (s : Store) (calls : List Call) :
    List Served :=
  Machine.trace (serve e script) s calls

/-- The keyspace a list of calls leaves. -/
def keyspace (e : Expiry) (script : Call → Script Reply) (s : Store) (calls : List Call) :
    Store :=
  Machine.final (serve e script) s calls

/-- Did the call get a decision, and was it to admit? -/
def admitted (x : Served) : Bool :=
  match x.2 with
  | .ok r => r.allowed == 1
  | .error _ => false

def admittedCount (tr : List Served) : ℕ := tr.countP admitted

def admittedCalls (tr : List Served) : List Call := (tr.filter admitted).map Prod.fst

/-- Every call of the run got a reply. -/
def Answered (tr : List Served) : Prop := ∀ x ∈ tr, ∃ r, x.2 = .ok r

/-- The stamps of the calls never step back. -/
def InOrder (calls : List Call) : Prop := calls.Pairwise fun a b => a.nowMs ≤ b.nowMs

/-- No two calls carry the same member id. -/
def DistinctMembers (calls : List Call) : Prop := calls.Pairwise fun a b => a.member ≠ b.member

theorem admittedCalls_concat (tr : List Served) (x : Served) :
    admittedCalls (tr ++ [x]) =
      if admitted x then admittedCalls tr ++ [x.1] else admittedCalls tr := by
  cases hx : admitted x <;> simp [admittedCalls, hx]

theorem admittedCalls_sublist (tr : List Served) :
    (admittedCalls tr).Sublist (tr.map Prod.fst) :=
  List.filter_sublist.map _

theorem mem_of_mem_admittedCalls {tr : List Served} {a : Call} (ha : a ∈ admittedCalls tr) :
    ∃ x ∈ tr, x.1 = a := by
  obtain ⟨x, hx, rfl⟩ := List.mem_map.mp ha
  exact ⟨x, (List.mem_filter.mp hx).1, rfl⟩

theorem admittedCount_concat (tr : List Served) (x : Served) :
    admittedCount (tr ++ [x]) = admittedCount tr + if admitted x then 1 else 0 := by
  simp [admittedCount, List.countP_append, List.countP_cons]

/-- One more call is answered. -/
theorem answered_concat {tr : List Served} {x : Served} (h : Answered tr) {r : Reply}
    (hx : x.2 = .ok r) : Answered (tr ++ [x]) := by
  intro y hy
  rcases List.mem_append.mp hy with hTr | hNew
  · exact h y hTr
  · rw [List.mem_singleton] at hNew
    exact ⟨r, hNew ▸ hx⟩

-- ---------------------------------------------------------------------------
-- token_bucket.lua
-- ---------------------------------------------------------------------------

/-- The key is absent or holds a hash. -/
def HoldsHash (c : Clock) (s : Store) (key : String) : Prop :=
  ∀ v, valueAt c s key = some v → ∃ b, v = .hash b

theorem holdsHash_of_entry {c : Clock} {s : Store} {key : String} {b : Bucket} {d : Option ℤ}
    (hEntry : s key = some ⟨.hash b, d⟩) : HoldsHash c s key :=
  fun _ hv => ⟨b, (value_of_entry hEntry hv).symm⟩

/-- The two fields of the bucket, nil where the script reads nil. -/
def bucketFields (c : Clock) (s : Store) (key : String) : Option ℚ × Option ℚ :=
  match valueAt c s key with
  | some (.hash b) => (b.tokens, b.updatedAt)
  | _ => (none, none)

/-- The tokens in the bucket at `nowMs`, before the call takes any. -/
def available (rate burst nowMs : ℚ) : Option ℚ × Option ℚ → ℚ
  | (some tokens, some updated) => min burst (tokens + max 0 (nowMs - updated) / 1000 * rate)
  | _ => burst

/-- The tokens a call leaves behind when it finds `avail` of them. -/
def tokensLeft (requested avail : ℚ) : ℚ :=
  if requested ≤ avail then avail - requested else avail

/-- `reset_after_ms` of a call that finds `avail` tokens. -/
def bucketReset (rate burst requested avail : ℚ) : ℤ :=
  if tokensLeft requested avail < burst ∧ 0 < rate then
    ⌈(burst - tokensLeft requested avail) / rate * 1000⌉
  else 0

/-- The reply to a call that finds `avail` tokens. -/
def bucketReply (rate burst requested avail : ℚ) : Reply where
  allowed := if requested ≤ avail then 1 else 0
  remaining := ⌊tokensLeft requested avail⌋
  retryAfterMs := if avail < requested ∧ 0 < rate then ⌈(requested - avail) / rate * 1000⌉ else 0
  resetAfterMs := bucketReset rate burst requested avail

theorem bucketReply_refused {rate burst requested avail : ℚ} :
    (bucketReply rate burst requested avail).allowed = 0 ↔ avail < requested := by
  unfold bucketReply
  split <;> simp_all

/-- The bucket a call leaves behind. -/
def bucketEntry (c : Clock) (rate burst nowMs requested avail : ℚ) : Entry Value where
  value := .hash ⟨some (tokensLeft requested avail), some nowMs⟩
  deadline := some (c.time + (bucketReset rate burst requested avail + 1000))

/-- `HMGET` reads the fields of the bucket. -/
theorem exec_hmget {c : Clock} {s : Store} {key : String} (hType : HoldsHash c s key) :
    exec (hmget key) c s = (.ok (bucketFields c s key), s) := by
  cases hRead : valueAt c s key with
  | none => simp [exec, hmget, command, bucketFields, hRead]
  | some v =>
    obtain ⟨b, rfl⟩ := hType v hRead
    simp [exec, hmget, command, bucketFields, hRead]

/-- `HSET` writes them. -/
theorem exec_hset {c : Clock} {s : Store} {key : String} (hType : HoldsHash c s key)
    (tokens updated : ℚ) :
    exec (hset key tokens updated) c s =
      (.ok (), write c s key (.hash ⟨some tokens, some updated⟩)) := by
  cases hRead : valueAt c s key with
  | none => simp [exec, hset, command, hRead]
  | some v =>
    obtain ⟨b, rfl⟩ := hType v hRead
    simp [exec, hset, command, hRead]

theorem exec_pexpire {c : Clock} {s : Store} {key : String} (ms : ℤ) :
    exec (pexpire key ms) c s = (.ok (), expireAt c s key (c.time + ms)) := rfl

/-- The refill step of the script, whichever way it read the bucket. -/
theorem refill_eq_available (rate : ℚ) {burst nowMs tokens updated : ℚ}
    (fields : Option ℚ × Option ℚ)
    (h : (match fields with
      | (some tokens, some updated) => (tokens, updated)
      | _ => (burst, nowMs)) = (tokens, updated)) :
    min burst (tokens + max 0 (nowMs - updated) / 1000 * rate) =
      available rate burst nowMs fields := by
  split at h
  · obtain ⟨rfl, rfl⟩ := Prod.mk.inj h
    rfl
  · rename_i hNot
    obtain ⟨rfl, rfl⟩ := Prod.mk.inj h
    unfold available
    split
    · rename_i hf
      exact absurd rfl (hNot _ _)
    · simp

/-- **`token_bucket.lua`.** -/
theorem exec_tokenBucket {c : Clock} {s : Store} {key : String} (hType : HoldsHash c s key)
    {rate burst nowMs avail : ℚ} (requested : ℚ)
    (hAvail : available rate burst nowMs (bucketFields c s key) = avail) :
    exec (tokenBucket key rate burst nowMs requested) c s =
      (.ok (bucketReply rate burst requested avail),
        Function.update s key (some (bucketEntry c rate burst nowMs requested avail))) := by
  rw [tokenBucket, exec_bind_ok _ _ (exec_hmget hType)]
  split
  rename_i tokens updated hFields
  have hRefill := refill_eq_available rate _ hFields
  rw [hAvail] at hRefill
  simp only [hRefill, ge_iff_le, gt_iff_lt]
  by_cases hTake : requested ≤ avail
  · -- the request is taken: it waits for nothing
    simp only [hTake, if_true]
    rw [exec_bind_ok _ _ (exec_hset hType _ _), exec_bind_ok _ _ (exec_pexpire _), exec_pure,
      expireAt_write]
    simp [bucketReply, bucketEntry, tokensLeft, bucketReset, hTake, not_lt.mpr hTake]
  · simp only [hTake, if_false]
    rw [exec_bind_ok _ _ (exec_hset hType _ _), exec_bind_ok _ _ (exec_pexpire _), exec_pure,
      expireAt_write]
    simp [bucketReply, bucketEntry, tokensLeft, bucketReset, hTake, not_le.mp hTake]

-- ---------------------------------------------------------------------------
-- sliding_window.lua
-- ---------------------------------------------------------------------------

/-- The key is absent or holds a sorted set. -/
def HoldsZset (c : Clock) (s : Store) (key : String) : Prop :=
  ∀ v, valueAt c s key = some v → ∃ z, v = .zset z

theorem holdsZset_of_entry {c : Clock} {s : Store} {key : String} {z : SortedSet ℤ String}
    {d : Option ℤ} (hEntry : s key = some ⟨.zset z, d⟩) : HoldsZset c s key :=
  fun _ hv => ⟨z, (value_of_entry hEntry hv).symm⟩

/-- The log under a key, empty when the key is absent. -/
def logAt (c : Clock) (s : Store) (key : String) : SortedSet ℤ String :=
  match valueAt c s key with
  | some (.zset z) => z
  | _ => SortedSet.empty

/-- The log after a call that found `log`: pruned, and with the call in it
when the pruned log had room. -/
def logAfter (nowMs windowMs limit : ℤ) (member : String) (log : SortedSet ℤ String) :
    SortedSet ℤ String :=
  let pruned := log.removeUpTo (nowMs - windowMs)
  if (pruned.card : ℤ) < limit then pruned.add nowMs member else pruned

/-- `reset_after_ms` when the script leaves `log`. -/
def slidingReset (nowMs windowMs : ℤ) (log : SortedSet ℤ String) : ℤ :=
  match log.lowest? with
  | some (score, _) => max 0 (score + windowMs - nowMs)
  | none => 0

/-- The reply to a call that found `log`. -/
def slidingReply (nowMs windowMs limit : ℤ) (member : String) (log : SortedSet ℤ String) :
    Reply :=
  let count := (log.removeUpTo (nowMs - windowMs)).card
  let resetAfterMs := slidingReset nowMs windowMs (logAfter nowMs windowMs limit member log)
  if (count : ℤ) < limit then ⟨1, max 0 (limit - (count + 1)), 0, resetAfterMs⟩
  else ⟨0, max 0 (limit - count), resetAfterMs, resetAfterMs⟩

/-- A log refuses when it is full. -/
theorem slidingReply_refused {nowMs windowMs limit : ℤ} {member : String}
    {log : SortedSet ℤ String} :
    (slidingReply nowMs windowMs limit member log).allowed = 0 ↔
      ¬ ((log.removeUpTo (nowMs - windowMs)).card : ℤ) < limit := by
  unfold slidingReply
  dsimp only
  split <;> simp_all

/-- What the key holds when the script leaves `log`. -/
def logEntry (c : Clock) (windowMs : ℤ) (log : SortedSet ℤ String) : Option (Entry Value) :=
  if log.card = 0 then none else some ⟨.zset log, some (c.time + (windowMs + 1000))⟩

/-- A key that holds a log, or nothing, is read as a log. -/
theorem zget_eq_logAt {c : Clock} {s : Store} {key : String} (hType : HoldsZset c s key) :
    zget c s key = .ok (logAt c s key) := by
  cases hRead : valueAt c s key with
  | none => simp [zget, logAt, hRead]
  | some v =>
    obtain ⟨z, rfl⟩ := hType v hRead
    simp [zget, logAt, hRead]

/-- The keyspace after the prune, with what the commands after it see. -/
theorem exec_zremrangebyscore {c : Clock} {s : Store} {key : String}
    (hType : HoldsZset c s key) {bound : ℤ} {pruned : SortedSet ℤ String}
    (hPruned : (logAt c s key).removeUpTo bound = pruned) :
    ∃ s', exec (zremrangebyscore key bound) c s = (.ok (), s') ∧
      zget c s' key = .ok pruned ∧
      (∀ x, Function.update s' key x = Function.update s key x) ∧
      ∀ d, expireAt c s' key d = Function.update s key
        (if pruned.card = 0 then none else some ⟨.zset pruned, some d⟩) := by
  have hRun : exec (zremrangebyscore key bound) c s =
      if pruned.card = 0 then (.ok (), erase s key)
      else (.ok (), write c s key (.zset pruned)) := by
    simp [exec, zremrangebyscore, command, zget_eq_logAt hType, hPruned]
  by_cases hEmpty : pruned.card = 0
  · -- Redis removes a sorted set with its last member
    refine ⟨erase s key, by rw [hRun, if_pos hEmpty], ?_, ?_, ?_⟩
    · simp [zget, SortedSet.eq_empty_of_card hEmpty]
    · intro x
      simp [erase]
    · intro d
      rw [expireAt_of_absent (find_erase_self c s key), if_pos hEmpty, erase]
  · refine ⟨write c s key (.zset pruned), by rw [hRun, if_neg hEmpty], ?_, ?_, ?_⟩
    · simp [zget]
    · intro x
      simp [write]
    · intro d
      rw [expireAt_write, if_neg hEmpty]

/-- **`sliding_window.lua`.** -/
theorem exec_slidingWindow {c : Clock} {s : Store} {key : String} (hType : HoldsZset c s key)
    (nowMs windowMs limit : ℤ) (member : String) {log : SortedSet ℤ String}
    (hLog : logAt c s key = log) :
    exec (slidingWindow key nowMs windowMs limit member) c s =
      (.ok (slidingReply nowMs windowMs limit member log),
        Function.update s key
          (logEntry c windowMs (logAfter nowMs windowMs limit member log))) := by
  generalize hPruned : log.removeUpTo (nowMs - windowMs) = pruned
  obtain ⟨s', hRun, hSees, hUpdate, hExpire⟩ :=
    exec_zremrangebyscore hType (by rw [hLog, hPruned])
  have hCard : exec (zcard key) c s' = (.ok (pruned.card : ℤ), s') := by
    simp [exec, zcard, command, hSees, Except.map]
  rw [slidingWindow, exec_bind_ok _ _ hRun, exec_bind_ok _ _ hCard]
  by_cases hRoom : (pruned.card : ℤ) < limit
  · -- the call is entered into the log
    set after := pruned.add nowMs member with hAfter
    have hAdd : exec (zadd key nowMs member) c s' =
        (.ok (), write c s' key (.zset after)) := by
      simp [exec, zadd, command, hSees, hAfter]
    have hFirst : exec (zrangeFirst key) c (write c s' key (.zset after)) =
        (.ok after.lowest?, write c s' key (.zset after)) := by
      simp [exec, zrangeFirst, command, zget, Except.map]
    -- the set holds the call just added, so PEXPIRE finds it
    have hNonempty : after.card ≠ 0 := by
      have hMem : (nowMs, member) ∈ after.entries := SortedSet.mem_add.mpr (.inl rfl)
      exact (List.length_pos_of_mem hMem).ne'
    have hEnd : logAfter nowMs windowMs limit member log = after := by
      simp [logAfter, hPruned, hRoom, hAfter]
    simp only [hRoom, if_true, pure_bind]
    rw [exec_bind_ok _ _ hAdd, exec_bind_ok _ _ hFirst, exec_bind_ok _ _ (exec_pexpire _),
      exec_pure, expireAt_write, hUpdate, hEnd, logEntry, if_neg hNonempty]
    simp only [slidingReply, hPruned, hRoom, if_true, hEnd, slidingReset]
    cases after.lowest? <;> simp
  · -- the log is full: nothing is added
    have hFirst : exec (zrangeFirst key) c s' = (.ok pruned.lowest?, s') := by
      simp [exec, zrangeFirst, command, hSees, Except.map]
    have hEnd : logAfter nowMs windowMs limit member log = pruned := by
      simp [logAfter, hPruned, hRoom]
    simp only [hRoom, if_false, pure_bind]
    rw [exec_bind_ok _ _ hFirst, exec_bind_ok _ _ (exec_pexpire _), exec_pure, hExpire, hEnd,
      logEntry]
    simp only [slidingReply, hPruned, hRoom, if_false, hEnd, slidingReset]
    cases pruned.lowest? <;> simp

-- ---------------------------------------------------------------------------
-- fixed_window.lua
-- ---------------------------------------------------------------------------

/-- The key is absent or holds a counter. -/
def HoldsCounter (c : Clock) (s : Store) (key : String) : Prop :=
  ∀ v, valueAt c s key = some v → ∃ n, v = .counter n

theorem holdsCounter_of_entry {c : Clock} {s : Store} {key : String} {n : ℤ} {d : Option ℤ}
    (hEntry : s key = some ⟨.counter n, d⟩) : HoldsCounter c s key :=
  fun _ hv => ⟨n, (value_of_entry hEntry hv).symm⟩

theorem holdsCounter_of_gone {c : Clock} {s : Store} {key : String}
    (hGone : find c s key = none) : HoldsCounter c s key := by
  intro v hv
  simp [valueAt, hGone] at hv

/-- The counter under a key, zero when the key is absent. -/
def counterAt (c : Clock) (s : Store) (key : String) : ℤ :=
  match valueAt c s key with
  | some (.counter n) => n
  | _ => 0

/-- The reply to the `count`-th call of a window. -/
def fixedReply (nowMs windowMs limit count : ℤ) : Reply where
  allowed := if count > limit then 0 else 1
  remaining := max 0 (limit - count)
  retryAfterMs :=
    if count > limit then (windowIndex nowMs windowMs).resetAfterMs nowMs windowMs else 0
  resetAfterMs := (windowIndex nowMs windowMs).resetAfterMs nowMs windowMs

theorem fixedReply_refused {nowMs windowMs limit count : ℤ} :
    (fixedReply nowMs windowMs limit count).allowed = 0 ↔ limit < count := by
  unfold fixedReply
  split <;> simp_all

/-- The counter a call leaves: only the call that creates it sets the TTL. -/
def counterEntry (c : Clock) (s : Store) (key : String) (windowMs : ℤ) : Entry Value where
  value := .counter (counterAt c s key + 1)
  deadline :=
    if counterAt c s key + 1 = 1 then some (c.time + windowMs)
    else (find c s key).bind Entry.deadline

/-- `INCR` counts one more. -/
theorem exec_incr {c : Clock} {s : Store} {key : String} (hType : HoldsCounter c s key) :
    exec (incr key) c s = (.ok (counterAt c s key + 1),
      write c s key (.counter (counterAt c s key + 1))) := by
  cases hRead : valueAt c s key with
  | none => simp [exec, incr, command, counterAt, hRead]
  | some v =>
    obtain ⟨n, rfl⟩ := hType v hRead
    simp [exec, incr, command, counterAt, hRead]

/-- **`fixed_window.lua`.** -/
theorem exec_fixedWindow {c : Clock} {s : Store} {keyPrefix key : String}
    {nowMs windowMs : ℤ} (limit : ℤ)
    (hKey : windowKey keyPrefix (windowIndex nowMs windowMs) = key)
    (hType : HoldsCounter c s key) :
    exec (fixedWindow keyPrefix nowMs windowMs limit) c s =
      (.ok (fixedReply nowMs windowMs limit (counterAt c s key + 1)),
        Function.update s key (some (counterEntry c s key windowMs))) := by
  rw [fixedWindow]
  simp only [hKey]
  rw [exec_bind_ok _ _ (exec_incr hType)]
  -- only the call that creates the counter sets its time to live
  by_cases hFirst : counterAt c s key + 1 = 1
  · simp only [hFirst, if_true]
    rw [exec_bind_ok _ _ (exec_pexpire _), expireAt_write]
    by_cases hOver : 1 > limit <;>
      simp [fixedReply, counterEntry, hFirst, hOver]
  · simp only [hFirst, if_false]
    by_cases hOver : counterAt c s key + 1 > limit <;>
      simp [fixedReply, counterEntry, hFirst, hOver, write]

end RatelimitGateway.Limiter
