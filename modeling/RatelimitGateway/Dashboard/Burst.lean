import RatelimitGateway.Limiter.Burst
import RatelimitGateway.Tenant.MapOrder

/-!
# What the squares of the simulator show

Translated from `internal/dashboard/static/app.js`: `renderSimulation` draws a square
for each request of a burst and says which was the first to be rejected. The
requests go through the limiter itself, under the key of the tier, which every
operator of every gateway shares.

* `squares_show_capacity` — a square is green if and only if its request was among
  the first calls on the key, as many as the capacity of the tier, whichever
  operators these came from.
-/

namespace RatelimitGateway.Dashboard

open Limiter KeyStore Redis

-- ---------------------------------------------------------------------------
-- app.js
-- ---------------------------------------------------------------------------

structure Dot where
  cls : String
  title : String
  /-- Milliseconds. -/
  delay : ℕ
  deriving DecidableEq, Repr

/-- The elements that `renderSimulation` fills in, without the duration. -/
structure SimulationPanel where
  allowed : ℕ
  throttled : ℕ
  dots : List Dot
  note : String
  deriving DecidableEq, Repr

def dot (i : ℕ) (r : SimulateResult) : Dot where
  cls := if r.allowed then "dot" else "dot rejected"
  title :=
    if r.allowed then
      "#" ++ toString r.index ++ " allowed · " ++ toString r.remaining ++ " remaining"
    else "#" ++ toString r.index ++ " throttled · retry in " ++ toString r.retryAfterMs ++ "ms"
  delay := min (i * 6) 600

def noneRejected (allowed : ℕ) (tier : String) : String :=
  "All " ++ toString allowed ++ " requests fit inside the " ++ tier ++ " quota."

def firstRejected (first : ℕ) (tier : String) : String :=
  "Request #" ++ toString (first + 1) ++ " was the first rejected — the " ++ tier ++
    " tier's burst was exhausted there."

def renderSimulation (result : SimulateResponse) : SimulationPanel where
  allowed := result.allowed
  throttled := result.throttled
  dots := result.results.mapIdx dot
  note :=
    match result.results.findIdx? fun r => !r.allowed with
    | none => noneRejected result.allowed result.tier
    | some first => firstRejected first result.tier

/-- A square is green. -/
def Dot.Green (d : Dot) : Prop := d.cls = "dot"

theorem dot_green_iff (i : ℕ) (r : SimulateResult) : (dot i r).Green ↔ r.allowed = true := by
  unfold Dot.Green dot
  cases r.allowed <;> simp

-- ---------------------------------------------------------------------------
-- A run of green squares
-- ---------------------------------------------------------------------------

/-- Where none that pass follow one that fails, the first to fail comes after all
that pass. -/
theorem findIdx?_of_initial {α : Type*} {p : α → Bool} {xs : List α}
    (hInitial : xs.Pairwise fun a b => p b = true → p a = true) :
    xs.findIdx? (fun x => !p x) =
      if xs.countP p = xs.length then none else some (xs.countP p) := by
  induction xs with
  | nil => rfl
  | cons x xs ih =>
    obtain ⟨hHead, hTail⟩ := List.pairwise_cons.mp hInitial
    rw [List.findIdx?_cons]
    cases hx : p x with
    | true =>
      rw [List.countP_cons_of_pos hx, ih hTail, List.length_cons, if_neg (by simp)]
      by_cases hAll : xs.countP p = xs.length
      · rw [if_pos hAll, if_pos (congrArg (· + 1) hAll)]
        rfl
      · rw [if_neg hAll, if_neg fun hLength => hAll (Nat.succ.inj hLength)]
        rfl
    | false =>
      -- the first that fails: none of the rest passes either
      have hNone : xs.countP p = 0 := List.countP_eq_zero.mpr fun y hy hPass => by
        have hFirst := hHead y hy hPass
        rw [hx] at hFirst
        cases hFirst
      rw [List.countP_cons_of_neg (by simp [hx]), hNone, List.length_cons]
      simp

/-- So those that pass are as many as the places before that. -/
theorem getElem_iff_lt_countP {α : Type*} {p : α → Bool} {xs : List α}
    (hInitial : xs.Pairwise fun a b => p b = true → p a = true) {i : ℕ} (hi : i < xs.length) :
    p xs[i] = true ↔ i < xs.countP p := by
  induction xs generalizing i with
  | nil => cases hi
  | cons x xs ih =>
    obtain ⟨hHead, hTail⟩ := List.pairwise_cons.mp hInitial
    cases hx : p x with
    | true =>
      rw [List.countP_cons_of_pos hx]
      cases i with
      | zero => simpa using hx
      | succ i =>
        rw [List.getElem_cons_succ, ih hTail]
        omega
    | false =>
      -- none of the rest passes, so no index is below the count
      have hNone : xs.countP p = 0 := List.countP_eq_zero.mpr fun y hy hPass => by
        rw [hHead y hy hPass] at hx
        cases hx
      rw [List.countP_cons_of_neg (by simp [hx]), hNone]
      cases i with
      | zero => simp [hx]
      | succ i =>
        rw [List.getElem_cons_succ, ih hTail, hNone]
        omega

/-- If exactly the first `k` pass. -/
theorem countP_of_first {α : Type*} {p : α → Bool} {xs : List α} {k : ℕ}
    (hFirst : ∀ i (hi : i < xs.length), p xs[i] = true ↔ i < k) :
    xs.countP p = min xs.length k := by
  induction xs generalizing k with
  | nil => simp
  | cons x xs ih =>
    have hHead := hFirst 0 (by simp)
    -- the rest is the same question one index earlier
    have hTail : ∀ i (hi : i < xs.length), p xs[i] = true ↔ i < k - 1 := by
      intro i hi
      have hNext := hFirst (i + 1) (by simpa using hi)
      rw [List.getElem_cons_succ] at hNext
      rw [hNext]
      omega
    rw [List.countP_cons, ih hTail, List.length_cons]
    rw [List.getElem_cons_zero] at hHead
    by_cases hPass : p x = true
    · rw [if_pos hPass]
      have hSome := hHead.mp hPass
      omega
    · rw [if_neg hPass]
      have hNone := mt hHead.mpr hPass
      omega

-- ---------------------------------------------------------------------------
-- The loop, on the answers of the limiter
-- ---------------------------------------------------------------------------

/-- What `Allow` makes of the reply to its script. -/
def answer (l : RedisLimiter) (q : Quota) (x : Served) : Except LimiterError Decision :=
  match x.2 with
  | .ok r => .ok (l.decision q r)
  | .error e => .error (.runScript l.alg e)

/-- What `Allow` answers is what its script replied. -/
theorem answer_serve {l : RedisLimiter} {key : String} {q : Quota} (hq : ValidQuota q) {c : Call}
    {hex : String} (hMember : c.member = uniqueMember c.nowMs hex) (e : Expiry) (s : Store) :
    (l.allow key q c.nowMs (some hex) ⟨e, c.execAt⟩ s).1 =
      answer l q (c, (serve e (l.script key q) s c).1) := by
  have hLimit := hq.limit
  have hWindow := hq.window_pos
  rw [RedisLimiter.allow, if_neg (by omega), if_neg (by simp), Option.getD_some, ← hMember]
  unfold answer serve RedisLimiter.script
  cases hExec : exec (l.run key q c.nowMs c.member) ⟨e, c.execAt⟩ s with
  | mk reply s' => cases reply <;> rfl

/-- The `i`-th answer is what `Allow` returns to the `pos i`-th call on the key. -/
def AnsweredBy (l : RedisLimiter) (e : Expiry) (key : String) (q : Quota) (s : Store)
    (calls : List Call) (pos : ℕ → ℕ) (i : ℕ) (answer : Except LimiterError Decision) : Prop :=
  ∃ (c : Call) (hex : String), calls[pos i]? = some c ∧ c.member = uniqueMember c.nowMs hex ∧
    answer = (l.allow key q c.nowMs (some hex) ⟨e, c.execAt⟩
      (keyspace e (l.script key q) s (calls.take (pos i)))).1

/-- The answer at a position of a burst is the reply of the run to that call. -/
theorem AnsweredBy.getElem?_transcript {l : RedisLimiter} {e : Expiry} {key : String} {q : Quota}
    (hq : ValidQuota q) {s : Store} {calls : List Call} {pos : ℕ → ℕ} {i : ℕ}
    {a : Except LimiterError Decision} (h : AnsweredBy l e key q s calls pos i a) :
    ∃ x, (transcript e (l.script key q) s calls)[pos i]? = some x ∧ a = answer l q x := by
  obtain ⟨c, hex, hCall, hMember, rfl⟩ := h
  refine ⟨_, ?_, answer_serve hq hMember e _⟩
  rw [transcript, Machine.getElem?_trace, hCall]
  rfl

/-- A loop that hears only decisions runs to its end. -/
theorem simulateLoop_ok {h : Handler} {tier : Tier} {answers : ℕ → Except LimiterError Decision}
    {ds : List Decision} {i : ℕ} {resp : SimulateResponse}
    (hAnswers : ∀ j (hj : j < ds.length), answers (i + j) = .ok ds[j]) :
    simulateLoop h tier answers ds.length i resp = (.ok (resp.plus i ds), steps h tier ds) := by
  induction ds generalizing i resp with
  | nil => simp [simulateLoop, steps, SimulateResponse.plus]
  | cons d ds ih =>
    have hHead : answers i = .ok d := hAnswers 0 (by simp)
    have hTail : ∀ j (hj : j < ds.length), answers (i + 1 + j) = .ok ds[j] := by
      intro j hj
      have hNext := hAnswers (j + 1) (by simpa using hj)
      rw [List.getElem_cons_succ] at hNext
      rw [← hNext, Nat.add_assoc, Nat.add_comm 1]
    simp only [List.length_cons, simulateLoop, hHead, ih hTail, plus_cons]
    rfl

/-- A burst whose calls are all answered is put together from the answers. -/
theorem handleSimulate_ok {h : Handler} {req : SimulateRequest} {tier : Tier}
    (hTier : h.resolver.tier req.tier = some tier) {answers : ℕ → Except LimiterError Decision}
    {ds : List Decision} (hLength : (ds.length : ℤ) = clamped req.count)
    (hAnswers : ∀ j (hj : j < ds.length), answers j = .ok ds[j]) :
    handleSimulate h (some req) answers =
      (.ok (SimulateResponse.plus ⟨tier.name, h.limiterName.name, 0, 0, []⟩ 0 ds),
        steps h tier ds) := by
  have hClamped : ds.length = Int.toNat (
      let count := if req.count < 1 then 1 else req.count
      if maxSimulationRequests < count then maxSimulationRequests else count) := by
    unfold clamped maxSimulationRequests at *
    dsimp only
    split_ifs <;> omega
  rw [handleSimulate]
  simp only [hTier]
  rw [← hClamped]
  exact simulateLoop_ok fun j hj => by rw [Nat.zero_add, hAnswers j hj]

-- ---------------------------------------------------------------------------
-- The squares
-- ---------------------------------------------------------------------------

/-- The panel of a burst whose calls were the `pos 0`-th, the `pos 1`-th and so on on
their key. -/
structure Shows (capacity : ℤ) (pos : ℕ → ℕ) (tier : String) (panel : SimulationPanel) :
    Prop where
  green    : ∀ i (hi : i < panel.dots.length), panel.dots[i].Green ↔ (pos i : ℤ) < capacity
  rejected : ∀ d ∈ panel.dots, ¬ d.Green → d.cls = "dot rejected"
  /-- The squares count down what is left. -/
  titles   : ∀ i (hi : i < panel.dots.length), (pos i : ℤ) < capacity →
    panel.dots[i].title = "#" ++ toString (i + 1) ++ " allowed · " ++
      toString (capacity - (pos i + 1)) ++ " remaining"
  counts   : panel.allowed + panel.throttled = panel.dots.length
  /-- As many are green as are said to be allowed, and they come first. -/
  initial  : ∀ i (hi : i < panel.dots.length), panel.dots[i].Green ↔ i < panel.allowed
  note     : panel.note =
    if panel.allowed = panel.dots.length then noneRejected panel.allowed tier
    else firstRejected panel.allowed tier
  alone    : ∀ k : ℕ, (∀ i, pos i = k + i) →
    (panel.allowed : ℤ) = min (panel.dots.length : ℤ) (max 0 (capacity - k))

/-- The response to a burst that was decided so. -/
abbrev response (tier algorithm : String) (ds : List Decision) : SimulateResponse :=
  SimulateResponse.plus ⟨tier, algorithm, 0, 0, []⟩ 0 ds

section Panel

variable {tier algorithm : String} {ds : List Decision}

/-- One square for each decision. -/
theorem length_dots : (renderSimulation (response tier algorithm ds)).dots.length = ds.length := by
  simp [renderSimulation, SimulateResponse.plus]

theorem getElem_dots {i : ℕ} (hi : i < (renderSimulation (response tier algorithm ds)).dots.length)
    (hi' : i < ds.length) :
    (renderSimulation (response tier algorithm ds)).dots[i] = dot i (result i ds[i]) := by
  simp [renderSimulation, SimulateResponse.plus]

/-- The squares have the colours of the decisions. -/
theorem green_dots_iff {i : ℕ}
    (hi : i < (renderSimulation (response tier algorithm ds)).dots.length)
    (hi' : i < ds.length) :
    (renderSimulation (response tier algorithm ds)).dots[i].Green ↔ ds[i].allowed = true := by
  rw [getElem_dots hi hi', dot_green_iff, result]

theorem allowed_panel :
    (renderSimulation (response tier algorithm ds)).allowed = ds.countP (·.allowed) :=
  Nat.zero_add _

theorem throttled_panel :
    (renderSimulation (response tier algorithm ds)).throttled = ds.countP (!·.allowed) :=
  Nat.zero_add _

/-- The note names the first decision that is not allowed, if those that are come first. -/
theorem note_panel (hInitial : ds.Pairwise fun a b => b.allowed = true → a.allowed = true) :
    (renderSimulation (response tier algorithm ds)).note =
      if ds.countP (·.allowed) = ds.length then noneRejected (ds.countP (·.allowed)) tier
      else firstRejected (ds.countP (·.allowed)) tier := by
  -- numbering the decisions does not change whether they were allowed
  have hMap : (response tier algorithm ds).results.map (·.allowed) = ds.map (·.allowed) :=
    List.ext_getElem (by simp [SimulateResponse.plus]) fun i _ _ => by
      simp [SimulateResponse.plus, result]
  have hFirst : (response tier algorithm ds).results.findIdx? (fun r => !r.allowed) =
      ds.findIdx? fun d => !d.allowed := by
    have hIdx := congrArg (List.findIdx? (!·)) hMap
    rwa [List.findIdx?_map, List.findIdx?_map] at hIdx
  have hAllowed : (response tier algorithm ds).allowed = ds.countP (·.allowed) := Nat.zero_add _
  rw [renderSimulation, hFirst, findIdx?_of_initial hInitial, hAllowed]
  -- the page has one note for a burst that all got through and one for any other
  by_cases hAll : ds.countP (·.allowed) = ds.length
  · rw [if_pos hAll, if_pos hAll]
    rfl
  · rw [if_neg hAll, if_neg hAll]
    rfl

/-- Decisions that count down from the capacity are shown as such. -/
theorem shows_of_countdown {capacity : ℤ} {pos : ℕ → ℕ} (hPos : StrictMono pos)
    (hDown : ∀ i (hi : i < ds.length), ds[i].allowed = decide ((pos i : ℤ) < capacity) ∧
      ds[i].remaining = max 0 (capacity - (pos i + 1))) :
    Shows capacity pos tier (renderSimulation (response tier algorithm ds)) := by
  have hGreen : ∀ i (hi : i < ds.length), ds[i].allowed = true ↔ (pos i : ℤ) < capacity := by
    intro i hi
    rw [(hDown i hi).1, decide_eq_true_eq]
  -- the places grow, so the green squares come first
  have hInitial : ds.Pairwise fun a b => b.allowed = true → a.allowed = true := by
    refine List.pairwise_iff_getElem.mpr fun i j hi hj hij hLater => ?_
    have hBefore := hPos hij
    rw [hGreen j hj] at hLater
    rw [hGreen i hi]
    omega
  refine ⟨fun i hi => ?_, fun d hd hNot => ?_, fun i hi hFirst => ?_, ?_, fun i hi => ?_, ?_,
    fun k hAlone => ?_⟩
  · have hi' : i < ds.length := length_dots ▸ hi
    rw [green_dots_iff hi hi', hGreen i hi']
  · -- a square that is not green is a red one with its number
    obtain ⟨i, hi, rfl⟩ := List.mem_mapIdx.mp hd
    rw [dot_green_iff] at hNot
    simp [dot, hNot]
  · have hi' : i < ds.length := length_dots ▸ hi
    -- the tooltip of a green square: what is left after it
    have hRemaining : ds[i].remaining = capacity - (pos i + 1) := by
      rw [(hDown i hi').2]
      omega
    rw [getElem_dots hi hi']
    simp [dot, result, (hGreen i hi').mpr hFirst, hRemaining]
  · -- the two counters add up to the squares
    rw [allowed_panel, throttled_panel, length_dots]
    simpa using (List.length_eq_countP_add_countP (l := ds) fun d => d.allowed).symm
  · have hi' : i < ds.length := length_dots ▸ hi
    rw [green_dots_iff hi hi', allowed_panel, getElem_iff_lt_countP hInitial hi']
  · rw [note_panel hInitial, allowed_panel, length_dots]
  · rw [allowed_panel, length_dots,
      countP_of_first (k := (capacity - k).toNat) fun i hi => ?_]
    · omega
    · -- with nobody in between, the places are consecutive
      rw [hGreen i hi, hAlone i]
      omega

end Panel

-- ---------------------------------------------------------------------------
-- The burst
-- ---------------------------------------------------------------------------

section Loaded

variable {f : FileFormat} {trust : Bool} {r : Resolver} {name : String} {tier : Tier}

/-- A tier has the quota that `Load` has checked. -/
theorem validQuota_of_load (hLoad : load f trust = .ok r) (hTier : r.tier name = some tier)
    (hWindow : 1 ≤ tier.quota.windowMs) : ValidQuota tier.quota := by
  rw [(loaded_of_load hLoad).tiers] at hTier
  obtain ⟨tier', hLookup, rfl⟩ := Option.map_eq_some_iff.mp hTier
  have hGood := ((load_ok_iff f trust).mp ⟨r, hLoad⟩).positive _ (Lookup.mem_of_lookup hLookup)
  exact ⟨hGood.1, hWindow⟩

end Loaded

/-- The answers to a burst are decisions, one for each request. -/
theorem exists_decisions {l : RedisLimiter} {q : Quota} {tr : List Served} (hAnswered : Answered tr)
    {pos : ℕ → ℕ} {n : ℕ} {answers : ℕ → Except LimiterError Decision}
    (hAnswers : ∀ i < n, ∃ x, tr[pos i]? = some x ∧ answers i = answer l q x) :
    ∃ ds : List Decision, ds.length = n ∧ ∀ i (hi : i < ds.length), answers i = .ok ds[i] ∧
      ∃ (hTr : pos i < tr.length) (reply : Reply), tr[pos i].2 = .ok reply ∧
        ds[i] = l.decision q reply := by
  -- each answer is the decision built from the reply at its place in the transcript
  have hEach : ∀ i < n, ∃ d, answers i = .ok d ∧ ∃ (hTr : pos i < tr.length) (reply : Reply),
      tr[pos i].2 = .ok reply ∧ d = l.decision q reply := by
    intro i hi
    obtain ⟨x, hx, hAnswer⟩ := hAnswers i hi
    obtain ⟨hTr, rfl⟩ := List.getElem?_eq_some_iff.mp hx
    obtain ⟨reply, hReply⟩ := hAnswered _ (List.getElem_mem hTr)
    refine ⟨_, ?_, hTr, reply, hReply, rfl⟩
    rw [hAnswer, answer, hReply]
  choose d hDecision using hEach
  refine ⟨List.ofFn fun i : Fin n => d i i.2, List.length_ofFn, fun i hi => ?_⟩
  rw [List.getElem_ofFn]
  exact hDecision i (by simpa using hi)

/--
**The squares show the capacity of the tier.** The calls of any operators, of
any gateways, under the simulator's key of a tier, in the order of their stamps,
and a burst among them: a square is drawn for each request, and each that is among
the first calls, as many as the capacity of the tier, is green, however long it
takes. If nothing comes back before the calls are over, no other square is green,
the squares count down what is left, and the note names the first request that was
rejected; a burst that has the key to itself shows how many it could have, of the
burst or of what the calls before it have left.
-/
theorem squares_show_capacity {f : FileFormat} {trust : Bool} {h : Handler}
    (hLoad : load f trust = .ok h.resolver) {req : SimulateRequest} {tier : Tier}
    (hTier : h.resolver.tier req.tier = some tier) (hWindow : 1 ≤ tier.quota.windowMs)
    {l : RedisLimiter} (hLimiter : l.alg = h.limiterName) {e : Expiry} {s : Store}
    (hUnused : Unused l (simulatorKey tier) s) {calls : List Call} (hOrder : InOrder calls)
    (hClock : OnClock e calls) (hNew : l.alg = .slidingWindow → DistinctMembers calls)
    {pos : ℕ → ℕ} (hPos : StrictMono pos) {answers : ℕ → Except LimiterError Decision}
    (hAnswers : ∀ i < (clamped req.count).toNat,
      AnsweredBy l e (simulatorKey tier) tier.quota s calls pos i (answers i)) :
    ∃ resp, (handleSimulate h (some req) answers).1 = .ok resp ∧ resp.tier = req.tier ∧
      (renderSimulation resp).dots.length = clamped req.count ∧
      (∀ i (hi : i < (renderSimulation resp).dots.length),
        (pos i : ℤ) < l.appliedLimit tier.quota → (renderSimulation resp).dots[i].Green) ∧
      ∀ t, (∀ c ∈ calls, t ≤ c.nowMs ∧ NothingBack h.limiterName tier.quota t c.nowMs) →
        Shows (l.appliedLimit tier.quota) pos req.tier (renderSimulation resp) := by
  have hq := validQuota_of_load hLoad hTier hWindow
  have hInv := justifiedInv_run (e := e) hq hUnused calls
  obtain ⟨ds, hLength, hDs⟩ := exists_decisions hInv.answered fun i hi =>
    (hAnswers i hi).getElem?_transcript hq
  have hPositive : 0 ≤ clamped req.count := zero_le_one.trans (le_max_left _ _)
  have hClamped : (ds.length : ℤ) = clamped req.count := by omega
  have hReply := handleSimulate_ok (h := h) hTier hClamped fun i hi => (hDs i hi).1
  have hName := (tier_of_loaded (loaded_of_load hLoad) hTier).1
  refine ⟨_, congrArg Prod.fst hReply, hName, by rw [length_dots, hClamped],
    fun i hi hFirst => ?_, fun t hShort => ?_⟩
  · -- over a longer run room can come back, but the first ones still get in
    have hi' : i < ds.length := length_dots ▸ hi
    obtain ⟨-, hTr, reply, hServed, hDecision⟩ := hDs i hi'
    have hAdmitted := burst_first hq hUnused e hOrder hTr hFirst
    rw [admitted, hServed] at hAdmitted
    rw [green_dots_iff hi hi', hDecision]
    simpa [RedisLimiter.decision] using hAdmitted
  · -- no room comes back in the stretch: the key counts down, call after call
    have hDown := burst_countsDown hq hUnused hOrder hClock (fun c hc => (hShort c hc).1)
      (fun c hc => hLimiter ▸ (hShort c hc).2) hNew
    rw [← hName]
    refine shows_of_countdown hPos fun i hi => ?_
    obtain ⟨-, hTr, reply, hServed, hDecision⟩ := hDs i hi
    obtain ⟨reply', hServed', hAllowed, hRemaining⟩ := hDown (pos i) hTr
    obtain rfl := Except.ok.inj (hServed.symm.trans hServed')
    rw [hDecision]
    refine ⟨?_, hRemaining⟩
    show (reply.allowed == 1) = _
    rw [hAllowed]
    by_cases hFirst : (pos i : ℤ) < l.appliedLimit tier.quota
    · rw [if_pos hFirst, decide_eq_true hFirst]
      rfl
    · rw [if_neg hFirst, decide_eq_false hFirst]
      rfl

/-- Ten per second: of twelve requests in twelve milliseconds, ten are green. -/
theorem squares_show_capacity_demo :
    ∃ (h : Handler) (answers : ℕ → Except LimiterError Decision) (resp : SimulateResponse),
      (handleSimulate h (some ⟨"free", 12⟩) answers).1 = .ok resp ∧
        (renderSimulation resp).dots.length = 12 ∧ (renderSimulation resp).allowed = 10 ∧
        (∀ i (hi : i < (renderSimulation resp).dots.length),
          (renderSimulation resp).dots[i].Green ↔ i < 10) ∧
        (renderSimulation resp).note = firstRejected 10 "free" := by
  let free : Tier := ⟨"free", 10, 1000000000, 10⟩
  let h : Handler := ⟨⟨[("key-abc", ⟨⟨"acme", free⟩, true⟩)], [("free", free)], free, false⟩,
    .tokenBucket⟩
  let l : RedisLimiter := ⟨.tokenBucket, "rl"⟩
  let call : ℕ → Call := fun i => ⟨i, i, uniqueMember i "00"⟩
  let calls : List Call := (List.range 12).map call
  let answers : ℕ → Except LimiterError Decision := fun i =>
    (l.allow (simulatorKey free) free.quota i (some "00") ⟨.honoured, i⟩
      (keyspace .honoured (l.script (simulatorKey free) free.quota) empty (calls.take i))).1
  -- the tier is the default one of a file with a single key
  have hLoad : load (oneKey "acme") false = .ok h.resolver := rfl
  obtain ⟨resp, hReply, -, hLength, -, hShows⟩ := @squares_show_capacity _ _ h hLoad
    ⟨"free", 12⟩ free rfl (by decide) l rfl .honoured empty ⟨rfl, fun _ => rfl⟩ calls
    (by unfold InOrder; decide +kernel) (fun _ => by unfold OnTime; decide +kernel) nofun id
    strictMono_id answers fun i hi => ⟨call i, "00", by
      have hIn : i < 12 := hi
      simp [calls, hIn], rfl, rfl⟩
  -- the bucket gains less than a token in the twelve milliseconds
  have hPanel := hShows 0 (by decide +kernel)
  have hCap : l.appliedLimit free.quota = 10 := by decide
  have hTwelve : (renderSimulation resp).dots.length = 12 := by
    have hCount : clamped 12 = 12 := by decide
    rw [hCount] at hLength
    exact_mod_cast hLength
  have hAllowed : (renderSimulation resp).allowed = 10 := by
    have hTen := hPanel.alone 0 fun i => (Nat.zero_add i).symm
    have hMin : min ((12 : ℕ) : ℤ) (max 0 (10 - ((0 : ℕ) : ℤ))) = 10 := by decide
    rw [hCap, hTwelve, hMin] at hTen
    exact_mod_cast hTen
  refine ⟨h, answers, resp, hReply, hTwelve, hAllowed, fun i hi => ?_, ?_⟩
  · rw [hPanel.initial i hi, hAllowed]
  · rw [hPanel.note, hTwelve, hAllowed, if_neg (by decide)]

end RatelimitGateway.Dashboard
