import RatelimitGateway.Middleware.Definitions
import RatelimitGateway.Tenant.Keys

/-!
# The simulator

Translated from `internal/dashboard`: `handleSimulate` drives the limiter
against a key of its own and records every decision. Like a handler of the
middleware it returns what it does, in order; the answers that the limiter
gives to the calls of a burst are any. The duration that the response reports
is left out.

* `simulate_accounted` — what a burst answers, and what it has recorded.
-/

namespace RatelimitGateway.Dashboard

open Limiter

-- ---------------------------------------------------------------------------
-- dashboard.go
-- ---------------------------------------------------------------------------

/-- The label values of `gateway_rate_limit_decisions_total`. -/
structure Labels where
  tier : String
  algorithm : String
  decision : String
  source : String
  deriving DecidableEq, Repr

def sourceSimulator : String := "simulator"

structure SimulateRequest where
  tier : String
  count : ℤ
  deriving DecidableEq

structure SimulateResult where
  index : ℕ
  allowed : Bool
  remaining : ℤ
  retryAfterMs : ℤ
  deriving DecidableEq

structure SimulateResponse where
  tier : String
  algorithm : String
  allowed : ℕ
  throttled : ℕ
  results : List SimulateResult
  deriving DecidableEq

/-- What the handler answers. The text of an error from the limiter follows
that of its own. -/
inductive SimulateReply where
  | ok (resp : SimulateResponse)
  | error (code : ℕ) (text : String) (cause : Option LimiterError)
  deriving DecidableEq

inductive SimulateEffect where
  | call (key : String) (quota : Quota) (result : Except LimiterError Decision)
  /-- `h.record`. -/
  | record (tier algorithm decision : String)

/-- `Handler`, as far as it simulates. -/
structure Handler where
  resolver : Resolver
  limiterName : Algorithm

def outcome (d : Decision) : String := if d.allowed then "allowed" else "throttled"

/-- The line of the response about one decision. -/
def result (i : ℕ) (d : Decision) : SimulateResult :=
  ⟨i + 1, d.allowed, d.remaining, d.retryAfter.tdiv 1000000⟩

/-- The response after one more decision. -/
def SimulateResponse.add (resp : SimulateResponse) (i : ℕ) (d : Decision) : SimulateResponse :=
  let resp :=
    if d.allowed then { resp with allowed := resp.allowed + 1 }
    else { resp with throttled := resp.throttled + 1 }
  { resp with results := resp.results ++ [result i d] }

/-- The loop of `handleSimulate`, from `i` on; `answers` are those of the limiter,
one for each call. -/
def simulateLoop (h : Handler) (tier : Tier) (answers : ℕ → Except LimiterError Decision) :
    ℕ → ℕ → SimulateResponse → SimulateReply × List SimulateEffect
  | 0, _, resp => (.ok resp, [])
  | n + 1, i, resp =>
    let key := "dashboard-sim:" ++ tier.name
    match answers i with
    | .error err =>
      (.error 503 "limiter unavailable: " (some err), [.call key tier.quota (.error err)])
    | .ok d =>
      let (reply, rest) := simulateLoop h tier answers n (i + 1) (resp.add i d)
      (reply, .call key tier.quota (.ok d) ::
        .record tier.name h.limiterName.name (outcome d) :: rest)

/-- `handleSimulate`; the body is `none` when it cannot be decoded. -/
def handleSimulate (h : Handler) (body : Option SimulateRequest)
    (answers : ℕ → Except LimiterError Decision) : SimulateReply × List SimulateEffect :=
  match body with
  | none => (.error 400 "invalid request body" none, [])
  | some req =>
    match h.resolver.tier req.tier with
    | none => (.error 400 ("unknown tier " ++ req.tier) none, [])
    | some tier =>
      let count := req.count
      let count := if count < 1 then 1 else count
      let count := if maxSimulationRequests < count then maxSimulationRequests else count
      simulateLoop h tier answers count.toNat 0 ⟨tier.name, h.limiterName.name, 0, 0, []⟩

-- ---------------------------------------------------------------------------
-- What a burst has done
-- ---------------------------------------------------------------------------

/-- What the limiter answered, in the order of the calls. -/
def answered (effects : List SimulateEffect) : List (Except LimiterError Decision) :=
  effects.filterMap fun
    | .call _ _ result => some result
    | .record .. => none

/-- The decisions among it. -/
def decided (effects : List SimulateEffect) : List Decision :=
  effects.filterMap fun
    | .call _ _ (.ok d) => some d
    | _ => none

/-- What was recorded: the counter is incremented under these labels. -/
def recorded (effects : List SimulateEffect) : List Labels :=
  effects.filterMap fun
    | .record tier algorithm decision => some ⟨tier, algorithm, decision, sourceSimulator⟩
    | .call .. => none

-- ---------------------------------------------------------------------------
-- The loop
-- ---------------------------------------------------------------------------

/-- The key that a tier is simulated on. -/
def simulatorKey (tier : Tier) : String := "dashboard-sim:" ++ tier.name

/-- What the loop does for decisions. -/
def steps (h : Handler) (tier : Tier) (ds : List Decision) : List SimulateEffect :=
  ds.flatMap fun d => [.call (simulatorKey tier) tier.quota (.ok d),
    .record tier.name h.limiterName.name (outcome d)]

/-- What it adds to the response, from index `i` on. -/
def SimulateResponse.plus (resp : SimulateResponse) (i : ℕ) (ds : List Decision) :
    SimulateResponse :=
  { resp with
    allowed := resp.allowed + ds.countP (·.allowed)
    throttled := resp.throttled + ds.countP (!·.allowed)
    results := resp.results ++ ds.mapIdx fun j d => result (i + j) d }

/-- A burst is put together one decision after the other. -/
theorem plus_cons (resp : SimulateResponse) (i : ℕ) (d : Decision) (ds : List Decision) :
    resp.plus i (d :: ds) = (resp.add i d).plus (i + 1) ds := by
  have hShift : (fun j d => result (i + (j + 1)) d) = fun j d => result (i + 1 + j) d := by
    funext j d
    rw [Nat.add_right_comm, Nat.add_assoc]
  unfold SimulateResponse.plus SimulateResponse.add
  cases hAllowed : d.allowed with
  | true => simp [hAllowed, hShift, Nat.add_assoc, Nat.add_comm 1]
  | false => simp [hAllowed, hShift, Nat.add_assoc, Nat.add_comm 1]

/-- The loop runs to its end, or up to the first error of the limiter. -/
theorem simulateLoop_cases (h : Handler) (tier : Tier)
    (answers : ℕ → Except LimiterError Decision) (n i : ℕ) (resp : SimulateResponse) :
    ∃ ds, ds.map .ok = (List.range' i ds.length).map answers ∧
      ((ds.length = n ∧
        simulateLoop h tier answers n i resp = (.ok (resp.plus i ds), steps h tier ds)) ∨
      ∃ err, answers (i + ds.length) = .error err ∧
        simulateLoop h tier answers n i resp =
          (.error 503 "limiter unavailable: " (some err),
            steps h tier ds ++ [.call (simulatorKey tier) tier.quota (.error err)])) := by
  induction n generalizing i resp with
  | zero => exact ⟨[], rfl, .inl ⟨rfl, by simp [simulateLoop, steps, SimulateResponse.plus]⟩⟩
  | succ n ih =>
    cases hAnswer : answers i with
    | error err =>
      -- the loop returns at the first error
      refine ⟨[], rfl, .inr ⟨err, hAnswer, ?_⟩⟩
      simp only [simulateLoop, hAnswer]
      rfl
    | ok d =>
      obtain ⟨ds, hAnswers, hEnd⟩ := ih (i + 1) (resp.add i d)
      refine ⟨d :: ds, ?_, ?_⟩
      · rw [List.map_cons, List.length_cons, List.range'_succ, List.map_cons, hAnswer, hAnswers]
      · rcases hEnd with ⟨hLength, hLoop⟩ | ⟨err, hError, hLoop⟩
        · refine .inl ⟨congrArg (· + 1) hLength, ?_⟩
          simp only [simulateLoop, hAnswer, hLoop, plus_cons]
          rfl
        · refine .inr ⟨err, ?_, ?_⟩
          · rw [← hError, List.length_cons]
            congr 1
            omega
          · simp only [simulateLoop, hAnswer, hLoop]
            rfl

-- ---------------------------------------------------------------------------
-- The handler
-- ---------------------------------------------------------------------------

theorem answered_append (es es' : List SimulateEffect) :
    answered (es ++ es') = answered es ++ answered es' := List.filterMap_append

theorem decided_append (es es' : List SimulateEffect) :
    decided (es ++ es') = decided es ++ decided es' := List.filterMap_append

theorem recorded_append (es es' : List SimulateEffect) :
    recorded (es ++ es') = recorded es ++ recorded es' := List.filterMap_append

section Steps

variable (h : Handler) (tier : Tier) (ds : List Decision)

theorem answered_steps : answered (steps h tier ds) = ds.map .ok := by
  induction ds with
  | nil => rfl
  | cons d ds ih => exact congrArg (.ok d :: ·) ih

theorem decided_steps : decided (steps h tier ds) = ds := by
  induction ds with
  | nil => rfl
  | cons d ds ih => exact congrArg (d :: ·) ih

theorem recorded_steps : recorded (steps h tier ds) =
    ds.map fun d => ⟨tier.name, h.limiterName.name, outcome d, sourceSimulator⟩ := by
  induction ds with
  | nil => rfl
  | cons d ds ih => exact congrArg (_ :: ·) ih

end Steps

/-- The count that is asked for, between 1 and 500. -/
def clamped (count : ℤ) : ℤ := max 1 (min maxSimulationRequests count)

/-- A burst is rejected, or runs over some decisions: all those it asked for,
or those before the first error. -/
theorem handleSimulate_cases (h : Handler) (body : Option SimulateRequest)
    (answers : ℕ → Except LimiterError Decision) :
    (∃ text, handleSimulate h body answers = (.error 400 text none, [])) ∨
    ∃ req tier ds, body = some req ∧ h.resolver.tier req.tier = some tier ∧
      ds.map .ok = (List.range ds.length).map answers ∧
      (((ds.length : ℤ) = clamped req.count ∧ handleSimulate h body answers =
        (.ok (SimulateResponse.plus ⟨tier.name, h.limiterName.name, 0, 0, []⟩ 0 ds),
          steps h tier ds)) ∨
      ∃ err, answers ds.length = .error err ∧ handleSimulate h body answers =
        (.error 503 "limiter unavailable: " (some err),
          steps h tier ds ++ [.call (simulatorKey tier) tier.quota (.error err)])) := by
  cases body with
  | none => exact .inl ⟨_, rfl⟩
  | some req =>
    cases hTier : h.resolver.tier req.tier with
    | none => exact .inl ⟨"unknown tier " ++ req.tier, by simp only [handleSimulate, hTier]⟩
    | some tier =>
      right
      -- the two ifs of the handler clamp the count to 1..maxSimulationRequests
      have hClamped : clamped req.count =
          let count := if req.count < 1 then 1 else req.count
          if maxSimulationRequests < count then maxSimulationRequests else count := by
        unfold clamped maxSimulationRequests
        dsimp only
        split_ifs <;> omega
      have hPositive : 0 ≤ clamped req.count := le_trans zero_le_one (le_max_left _ _)
      obtain ⟨ds, hAnswers, hEnd⟩ := simulateLoop_cases h tier answers (clamped req.count).toNat 0
        ⟨tier.name, h.limiterName.name, 0, 0, []⟩
      refine ⟨req, tier, ds, rfl, hTier, by rw [hAnswers, List.range_eq_range'], ?_⟩
      simp only [handleSimulate, hTier]
      rcases hEnd with ⟨hLength, hLoop⟩ | ⟨err, hError, hLoop⟩
      · refine .inl ⟨by rw [hLength, Int.toNat_of_nonneg hPositive], ?_⟩
        rw [← hLoop, hClamped]
      · refine .inr ⟨err, by rw [← hError, Nat.zero_add], ?_⟩
        rw [← hLoop, hClamped]

/-- What is recorded is recorded under the name of a configured tier. -/
theorem known_of_recorded {h : Handler} {body : Option SimulateRequest}
    {answers : ℕ → Except LimiterError Decision} {l : Labels}
    (hl : l ∈ recorded (handleSimulate h body answers).2) :
    (∃ name tier, h.resolver.tier name = some tier ∧ l.tier = tier.name) ∧
      ∃ d, l.decision = outcome d := by
  -- what the loop records bears the name of the tier it looked up
  have hKnown : ∀ name tier ds, h.resolver.tier name = some tier →
      l ∈ recorded (steps h tier ds) →
      (∃ name tier, h.resolver.tier name = some tier ∧ l.tier = tier.name) ∧
        ∃ d, l.decision = outcome d := by
    intro name tier ds hTier hMem
    rw [recorded_steps] at hMem
    obtain ⟨d, -, rfl⟩ := List.mem_map.mp hMem
    exact ⟨⟨name, tier, hTier, rfl⟩, d, rfl⟩
  obtain ⟨text, hReply⟩ | ⟨req, tier, ds, rfl, hTier, -, ⟨-, hReply⟩ | ⟨err, -, hReply⟩⟩ :=
    handleSimulate_cases h body answers
  · rw [hReply] at hl
    cases hl
  · rw [hReply] at hl
    exact hKnown _ _ _ hTier hl
  · rw [hReply, recorded_append] at hl
    -- the failed call records nothing
    rcases List.mem_append.mp hl with hBefore | hFailed
    · exact hKnown _ _ _ hTier hBefore
    · cases hFailed

/-- What is promised of a burst, by what it answers and what it has done. -/
structure SimulateAccounted (h : Handler) (body : Option SimulateRequest)
    (answers : ℕ → Except LimiterError Decision) (reply : SimulateReply)
    (effects : List SimulateEffect) : Prop where
  calls    : answered effects = (List.range (answered effects).length).map answers
  records  : ∀ req, body = some req → recorded effects =
    (decided effects).map fun d => ⟨req.tier, h.limiterName.name, outcome d, sourceSimulator⟩
  success  : ∀ resp, reply = .ok resp → ∃ req, body = some req ∧
    answered effects = (decided effects).map .ok ∧
    (resp.results.length : ℤ) = clamped req.count ∧
    resp.allowed + resp.throttled = resp.results.length ∧
    resp.allowed = (decided effects).countP (·.allowed) ∧
    resp.results.map (·.index) = List.range' 1 resp.results.length ∧
    resp.results = (decided effects).mapIdx result
  failure  : ∀ code text err, reply = .error code text (some err) →
    answered effects = (decided effects).map .ok ++ [.error err]
  rejected : ∀ code text, reply = .error code text none → effects = []

section Accounting

variable {h : Handler} {req : SimulateRequest} {tier : Tier} {ds : List Decision}
  {answers : ℕ → Except LimiterError Decision}

/-- A burst that ran to its end. -/
theorem accounted_of_completed (hName : tier.name = req.tier)
    (hAnswers : ds.map .ok = (List.range ds.length).map answers)
    (hLength : (ds.length : ℤ) = clamped req.count) :
    SimulateAccounted h (some req) answers
      (.ok (SimulateResponse.plus ⟨tier.name, h.limiterName.name, 0, 0, []⟩ 0 ds))
      (steps h tier ds) := by
  refine ⟨?_, ?_, ?_, fun _ _ _ hErr => (by cases hErr), fun _ _ hErr => (by cases hErr)⟩
  · rw [answered_steps, List.length_map]
    exact hAnswers
  · -- each decision is counted under the tier that was asked for
    intro req' hBody
    obtain rfl := Option.some.inj hBody
    rw [recorded_steps, decided_steps, hName]
  · intro resp hOk
    obtain rfl := SimulateReply.ok.inj hOk
    rw [answered_steps, decided_steps]
    refine ⟨req, rfl, rfl, ?_, ?_, ?_, ?_, ?_⟩
    · simpa [SimulateResponse.plus] using hLength
    · -- allowed and throttled add up to the count
      show 0 + ds.countP (·.allowed) + (0 + ds.countP (!·.allowed)) = _
      simp [SimulateResponse.plus, List.length_eq_countP_add_countP (·.allowed) (l := ds)]
    · exact Nat.zero_add _
    · apply List.ext_getElem <;> simp [SimulateResponse.plus, result, Nat.add_comm]
    · simp [SimulateResponse.plus]

/-- A burst that stopped at the first call the limiter did not answer. -/
theorem accounted_of_failed {err : LimiterError} (hName : tier.name = req.tier)
    (hAnswers : ds.map .ok = (List.range ds.length).map answers)
    (hError : answers ds.length = .error err) :
    SimulateAccounted h (some req) answers (.error 503 "limiter unavailable: " (some err))
      (steps h tier ds ++ [.call (simulatorKey tier) tier.quota (.error err)]) := by
  have hCalls : answered (steps h tier ds ++
      [.call (simulatorKey tier) tier.quota (.error err)]) = ds.map .ok ++ [.error err] := by
    rw [answered_append, answered_steps]
    rfl
  -- the failed call is no decision, so it is not counted
  have hDecided : decided (steps h tier ds ++
      [.call (simulatorKey tier) tier.quota (.error err)]) = ds := by
    rw [decided_append, decided_steps]
    exact List.append_nil ds
  refine ⟨?_, ?_, fun _ hOk => (by cases hOk), ?_, fun _ _ hErr => (by cases hErr)⟩
  · rw [hCalls, List.length_append, List.length_map, List.length_singleton, List.range_succ,
      List.map_append, ← hAnswers, List.map_singleton, hError]
  · intro req' hBody
    obtain rfl := Option.some.inj hBody
    rw [hDecided, recorded_append, recorded_steps, hName]
    exact List.append_nil _
  · intro code text err' hErr
    obtain ⟨-, -, hCause⟩ := SimulateReply.error.inj hErr
    obtain rfl := Option.some.inj hCause
    rw [hCalls, hDecided]

end Accounting

/-- The account of a burst, from the run of its loop. -/
theorem simulate_accounted {h : Handler}
    (hNames : ∀ name tier, h.resolver.tier name = some tier → tier.name = name)
    (body : Option SimulateRequest) (answers : ℕ → Except LimiterError Decision) :
    SimulateAccounted h body answers (handleSimulate h body answers).1
      (handleSimulate h body answers).2 := by
  obtain ⟨text, hReply⟩ | ⟨req, tier, ds, rfl, hTier, hAnswers, ⟨hLength, hReply⟩ |
    ⟨err, hError, hReply⟩⟩ := handleSimulate_cases h body answers
  · rw [hReply]
    exact ⟨rfl, fun _ _ => rfl, fun _ hOk => (by cases hOk), fun _ _ _ hErr => (by cases hErr),
      fun _ _ _ => rfl⟩
  · rw [hReply]
    exact accounted_of_completed (hNames _ _ hTier) hAnswers hLength
  · rw [hReply]
    exact accounted_of_failed (hNames _ _ hTier) hAnswers hError

end RatelimitGateway.Dashboard
