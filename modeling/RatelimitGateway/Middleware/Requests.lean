import Mathlib.Algebra.Order.BigOperators.Group.List
import RatelimitGateway.Middleware.Pipeline

/-!
# Requests one action at a time

`Pipeline` lets a request begin, and complete its limiter call, in one step
each. Here every action of `Wrap` is a step of its own, and the actions of
different requests interleave freely: publish the state of the breaker, ask the
breaker, call the limiter, hear from it, report to the breaker, and then the
effects one after the other. Every request keeps the story of what it has done.

A story has one of three shapes, by whether the breaker refused the request,
the limiter failed or the limiter decided (`StoryOk`), and is at some point of
it; everything that is counted is counted on that shape.

* `requests_accounted` — what every request has done, at any moment and when
  it is finished.
-/

namespace RatelimitGateway.Middleware

open Limiter Transitions

/-- An action of a request, with what it was told. -/
inductive Action where
  /-- `recordBreakerState`. -/
  | publish (gauges : List Effect)
  | allow (admitted : Bool)
  | call (key : String) (q : Quota)
  | returned (key : String) (result : Except LimiterError Decision)
  /-- `Success` or `Failure`. -/
  | report (ok : Bool)
  | effect (e : Effect)

/-- Where a request is in `Wrap`. -/
inductive Point where
  | entered
  | published
  | admitted
  | waiting
  | returned (result : Except LimiterError Decision)
  /-- All that is left to do are these effects. -/
  | acting (rest : List Effect)

structure Request where
  id : ℕ
  tenant : Tenant
  point : Point
  story : List Action

/-- A replica: its breaker, and every request it was ever sent. -/
structure Server where
  breaker : Breaker
  requests : List Request

/-- The next action of a request, with a reading of the clock or the answer of
the limiter where it needs one. -/
inductive Move where
  | publish (now : ℤ)
  | consult (now : ℤ)
  | call
  | reply (result : Except LimiterError Decision)
  | report (now : ℤ)
  | act

inductive Moment where
  | arrive (id : ℕ) (tenant : Tenant)
  | move (id : ℕ) (m : Move)

/-- One action of `Wrap`. -/
def RateLimit.advance (rl : RateLimit) (t : Tenant) (b : Breaker) :
    Point → Move → Option (Breaker × Point × Action)
  | .entered, .publish now => some (b, .published, .publish (recordBreakerState now b))
  | .published, .consult now =>
    let (calling, effects, b) := rl.wrapStart t now b
    some (b, if calling then .admitted else .acting effects, .allow calling)
  | .admitted, .call => some (b, .waiting, .call t.id t.tier.quota)
  | .waiting, .reply result => some (b, .returned result, .returned t.id result)
  | .returned result, .report now =>
    let (effects, b) := rl.wrapFinish t result now b
    some (b, .acting effects, .report result.isOk)
  | .acting (e :: rest), .act => some (b, .acting rest, .effect e)
  | _, _ => none

namespace Server

def start (config : Breaker.Config) : Server where
  breaker := Breaker.init config
  requests := []

def request (s : Server) (id : ℕ) : Option Request := s.requests.find? fun r => r.id == id

/-- The requests once one of them has moved. -/
def moved (s : Server) (r : Request) : List Request :=
  s.requests.map fun r' => if r'.id = r.id then r else r'

def step (rl : RateLimit) (s : Server) : Moment → Option Server
  | .arrive id t =>
    if s.request id = none then some { s with requests := ⟨id, t, .entered, []⟩ :: s.requests }
    else none
  | .move id m =>
    (s.request id).bind fun r =>
      (rl.advance r.tenant s.breaker r.point m).map fun (b, p, a) =>
        { s with
          breaker := b
          requests := s.moved { r with point := p, story := r.story ++ [a] } }

end Server

-- ---------------------------------------------------------------------------
-- What a step can do
-- ---------------------------------------------------------------------------

/-- Everything one action can do. -/
inductive Does (rl : RateLimit) (t : Tenant) (b : Breaker) :
    Point → Move → Breaker → Point → Action → Prop
  | published {now} : Does rl t b .entered (.publish now) b .published
      (.publish (recordBreakerState now b))
  | admitted {now b'} (hAllow : b.allow now = (true, b')) :
      Does rl t b .published (.consult now) b' .admitted (.allow true)
  | refused {now b'} (hAllow : b.allow now = (false, b')) :
      Does rl t b .published (.consult now) b'
        (.acting (.incLimiterErrors "breaker_open" rl.policy :: rl.applyFailurePolicy t))
        (.allow false)
  | called : Does rl t b .admitted .call b .waiting (.call t.id t.tier.quota)
  | replied {result} : Does rl t b .waiting (.reply result) b (.returned result)
      (.returned t.id result)
  | failed {err now} : Does rl t b (.returned (.error err)) (.report now) (b.failure now)
      (.acting (.incLimiterErrors "limiter_error" rl.policy :: rl.applyFailurePolicy t))
      (.report false)
  | decided {d now} : Does rl t b (.returned (.ok d)) (.report now) b.success
      (.acting (rl.answer t d)) (.report true)
  | acted {e rest} : Does rl t b (.acting (e :: rest)) .act b (.acting rest) (.effect e)

/-- An action does one of these. -/
theorem does_of_advance {rl : RateLimit} {t : Tenant} {b b' : Breaker} {p p' : Point} {m : Move}
    {a : Action} (h : rl.advance t b p m = some (b', p', a)) : Does rl t b p m b' p' a := by
  cases p with
  | entered =>
    cases m with
    | publish now => cases h; exact .published
    | _ => cases h
  | published =>
    -- the breaker is asked, and its answer decides where the request goes
    cases m with
    | consult now =>
      cases hAllow : b.allow now with
      | mk admitted b₁ =>
        cases admitted with
        | true =>
          simp only [RateLimit.advance, RateLimit.wrapStart, hAllow, if_true] at h
          cases h
          exact .admitted hAllow
        | false =>
          simp only [RateLimit.advance, RateLimit.wrapStart, hAllow, Bool.false_eq_true,
            if_false] at h
          cases h
          exact .refused hAllow
    | _ => cases h
  | admitted =>
    cases m with
    | call => cases h; exact .called
    | _ => cases h
  | waiting =>
    cases m with
    | reply result => cases h; exact .replied
    | _ => cases h
  | returned result =>
    -- an error is reported as a failure, a decision as a success
    cases m with
    | report now =>
      cases result with
      | error err => cases h; exact .failed
      | ok d => cases h; exact .decided
    | _ => cases result <;> cases h
  | acting rest =>
    cases rest with
    | nil => cases m <;> cases h
    | cons e rest =>
      cases m with
      | act => cases h; exact .acted
      | _ => cases h

/-- A step is the arrival of a request or one action of one request. -/
theorem step_cases {rl : RateLimit} {s s' : Server} {e : Moment} (h : s.step rl e = some s') :
    (∃ id t, e = .arrive id t ∧ s.request id = none ∧
      s' = { s with requests := ⟨id, t, .entered, []⟩ :: s.requests }) ∨
    ∃ m r b p a, e = .move r.id m ∧ r ∈ s.requests ∧ s.request r.id = some r ∧
      Does rl r.tenant s.breaker r.point m b p a ∧
      s' = ⟨b, s.moved { r with point := p, story := r.story ++ [a] }⟩ := by
  cases e with
  | arrive id t =>
    rw [Server.step] at h
    split at h
    · exact .inl ⟨id, t, rfl, ‹_›, (Option.some.inj h).symm⟩
    · cases h
  | move id m =>
    obtain ⟨r, hRequest, hMove⟩ := Option.bind_eq_some_iff.mp h
    obtain ⟨⟨b, p, a⟩, hAdvance, hNext⟩ := Option.map_eq_some_iff.mp hMove
    obtain rfl : r.id = id := by simpa using List.find?_some hRequest
    exact .inr ⟨m, r, b, p, a, rfl, List.mem_of_find?_eq_some hRequest, hRequest,
      does_of_advance hAdvance, hNext.symm⟩

-- ---------------------------------------------------------------------------
-- The story of a request
-- ---------------------------------------------------------------------------

/-- What a request has been told in the end: nothing, if the breaker refused
it, or the result of its limiter call. -/
abbrev Outcome := Option (Except LimiterError Decision)

/-- The story up to the first effect. -/
def head (gauges : List Effect) (t : Tenant) : Outcome → List Action
  | none => [.publish gauges, .allow false]
  | some result =>
    [.publish gauges, .allow true, .call t.id t.tier.quota, .returned t.id result,
      .report result.isOk]

/-- The effects that follow. -/
def RateLimit.effects (rl : RateLimit) (t : Tenant) : Outcome → List Effect
  | none => .incLimiterErrors "breaker_open" rl.policy :: rl.applyFailurePolicy t
  | some (.error _) => .incLimiterErrors "limiter_error" rl.policy :: rl.applyFailurePolicy t
  | some (.ok d) => rl.answer t d

/-- The story fits the point that the request is at. -/
def StoryOk (rl : RateLimit) (t : Tenant) : Point → List Action → Prop
  | .entered, story => story = []
  | .published, story => ∃ g, story = [.publish g]
  | .admitted, story => ∃ g, story = [.publish g, .allow true]
  | .waiting, story => ∃ g, story = [.publish g, .allow true, .call t.id t.tier.quota]
  | .returned result, story => ∃ g, story =
      [.publish g, .allow true, .call t.id t.tier.quota, .returned t.id result]
  | .acting rest, story => ∃ g outcome done,
      story = head g t outcome ++ done.map .effect ∧ done ++ rest = rl.effects t outcome

/-- An action continues the story as the point it leads to asks. -/
theorem storyOk_does {rl : RateLimit} {t : Tenant} {b b' : Breaker} {p p' : Point} {m : Move}
    {a : Action} {story : List Action} (hStory : StoryOk rl t p story)
    (hDoes : Does rl t b p m b' p' a) : StoryOk rl t p' (story ++ [a]) := by
  cases hDoes with
  | published =>
    obtain rfl := hStory
    exact ⟨_, rfl⟩
  | admitted =>
    obtain ⟨g, rfl⟩ := hStory
    exact ⟨g, rfl⟩
  | refused =>
    -- a refused request goes straight to the failure policy
    obtain ⟨g, rfl⟩ := hStory
    exact ⟨g, none, [], rfl, rfl⟩
  | called =>
    obtain ⟨g, rfl⟩ := hStory
    exact ⟨g, rfl⟩
  | replied =>
    obtain ⟨g, rfl⟩ := hStory
    exact ⟨g, rfl⟩
  | @failed err =>
    obtain ⟨g, rfl⟩ := hStory
    exact ⟨g, some (.error err), [], rfl, rfl⟩
  | @decided d =>
    obtain ⟨g, rfl⟩ := hStory
    exact ⟨g, some (.ok d), [], rfl, rfl⟩
  | @acted e rest =>
    -- one effect more is done, and what is left follows it
    obtain ⟨g, outcome, done, rfl, hEffects⟩ := hStory
    refine ⟨g, outcome, done ++ [e], ?_, ?_⟩
    · rw [List.map_append, List.append_assoc]
      rfl
    · rw [List.append_assoc]
      exact hEffects

def StoriesOk (rl : RateLimit) (s : Server) : Prop :=
  ∀ r ∈ s.requests, StoryOk rl r.tenant r.point r.story

/-- Every step continues one story. -/
theorem storiesOk_step {rl : RateLimit} {s s' : Server} {e : Moment} (hStories : StoriesOk rl s)
    (hStep : s.step rl e = some s') : StoriesOk rl s' := by
  obtain ⟨id, t, -, -, rfl⟩ | ⟨m, r, b, p, a, -, hMem, -, hDoes, rfl⟩ := step_cases hStep
  · exact List.forall_mem_cons.mpr ⟨rfl, hStories⟩
  · intro r' hr'
    obtain ⟨r₀, hr₀, rfl⟩ := List.mem_map.mp hr'
    split
    · exact storyOk_does (hStories r hMem) hDoes
    · exact hStories r₀ hr₀

theorem storiesOk_run {rl : RateLimit} {config : Breaker.Config} {events : List Moment}
    {s : Server} (hRun : run (Server.step rl) (Server.start config) events = some s) :
    StoriesOk rl s :=
  reachable_invariant (fun _ hr => absurd hr List.not_mem_nil) (fun _ _ _ => storiesOk_step)
    ⟨events, hRun⟩

-- ---------------------------------------------------------------------------
-- What is counted on a story
-- ---------------------------------------------------------------------------

/-- The effects of a story. -/
def did (story : List Action) : List Effect :=
  story.filterMap fun
    | .effect e => some e
    | _ => none

/-- How often the breaker admitted the request. -/
def admissions (story : List Action) : ℕ :=
  story.countP fun
    | .allow admitted => admitted
    | _ => false

def limiterCalls (story : List Action) : ℕ :=
  story.countP fun
    | .call _ _ => true
    | _ => false

def reports (story : List Action) : ℕ :=
  story.countP fun
    | .report _ => true
    | _ => false

/-- The limiter calls on a key that returned allowed. -/
def grants (key : String) (story : List Action) : ℕ :=
  story.countP fun
    | .returned k (.ok d) => k == key && d.allowed
    | _ => false

/-- The decision that the limiter returned. -/
def decisionOf (story : List Action) : Option Decision :=
  story.findSome? fun
    | .returned _ (.ok d) => some d
    | _ => none

/-- How often the request was forwarded. -/
def forwards (effects : List Effect) : ℕ :=
  effects.countP fun
    | .serveNext => true
    | _ => false

/-- How often `Decisions` was incremented under this label. -/
def decisions (label : String) (effects : List Effect) : ℕ :=
  effects.countP fun
    | .incDecisions _ _ decision _ => decision = label
    | _ => false

def limiterErrors (effects : List Effect) : ℕ :=
  effects.countP fun
    | .incLimiterErrors _ _ => true
    | _ => false

section Story

variable (g : List Effect) (t : Tenant) (outcome : Outcome) (done : List Effect)

theorem did_story : did (head g t outcome ++ done.map .effect) = done := by
  cases outcome <;> simp [did, head]

theorem admissions_story : admissions (head g t outcome ++ done.map .effect) =
    if outcome.isSome then 1 else 0 := by
  cases outcome <;> simp [admissions, head, Function.comp_def]

theorem limiterCalls_story : limiterCalls (head g t outcome ++ done.map .effect) =
    if outcome.isSome then 1 else 0 := by
  cases outcome <;> simp [limiterCalls, head, Function.comp_def]

theorem reports_story : reports (head g t outcome ++ done.map .effect) =
    if outcome.isSome then 1 else 0 := by
  cases outcome <;> simp [reports, head, Function.comp_def]

/-- The decision of an outcome. -/
def Outcome.decision : Outcome → Option Decision
  | some (.ok d) => some d
  | _ => none

theorem decisionOf_story :
    decisionOf (head g t outcome ++ done.map .effect) = Outcome.decision outcome := by
  obtain _ | (err | d) := outcome <;> simp [decisionOf, head, Outcome.decision]

/-- Whoever is forwarded because of a decision has been granted a call. -/
theorem grants_story (key : String) : grants key (head g t outcome ++ done.map .effect) =
    if t.id = key ∧ ∃ d ∈ Outcome.decision outcome, d.allowed = true then 1 else 0 := by
  obtain _ | (err | d) := outcome
  · simp [grants, head, Outcome.decision, Function.comp_def]
  · simp [grants, head, Outcome.decision, Function.comp_def]
  · by_cases hKey : t.id = key <;> cases hAllowed : d.allowed <;>
      simp [grants, head, Outcome.decision, Function.comp_def, hKey, hAllowed]

end Story

/-- May the request be forwarded? -/
def RateLimit.forwarding (rl : RateLimit) : Option Decision → Bool
  | some d => d.allowed
  | none => rl.failOpen

section Effects

variable (rl : RateLimit) (t : Tenant) (outcome : Outcome)

/-- Without a decision the failure policy is applied, whatever the cause. -/
theorem effects_cases :
    (∃ cause, Outcome.decision outcome = none ∧
      rl.effects t outcome = .incLimiterErrors cause rl.policy :: rl.applyFailurePolicy t) ∨
    ∃ d, Outcome.decision outcome = some d ∧ rl.effects t outcome = rl.answer t d := by
  obtain _ | (err | d) := outcome
  · exact .inl ⟨"breaker_open", rfl, rfl⟩
  · exact .inl ⟨"limiter_error", rfl, rfl⟩
  · exact .inr ⟨d, rfl, rfl⟩

/-- A decision is answered. -/
theorem effects_of_decision {outcome : Outcome} {d : Decision}
    (hDecision : Outcome.decision outcome = some d) : rl.effects t outcome = rl.answer t d := by
  obtain ⟨cause, hNone, -⟩ | ⟨d', hSome, hEffects⟩ := effects_cases rl t outcome
  · rw [hNone] at hDecision
    cases hDecision
  · obtain rfl := Option.some.inj (hSome.symm.trans hDecision)
    exact hEffects

/-- The label under which the request is counted. -/
def label : Option Decision → String
  | some d => if d.allowed then "allowed" else "throttled"
  | none => "degraded"

/-- A request is forwarded once, or not at all. -/
theorem forwards_effects : forwards (rl.effects t outcome) =
    if rl.forwarding (Outcome.decision outcome) then 1 else 0 := by
  obtain ⟨cause, hNone, hEffects⟩ | ⟨d, hSome, hEffects⟩ := effects_cases rl t outcome
  · rw [hNone, hEffects]
    cases hPolicy : rl.failOpen <;>
      simp [forwards, RateLimit.forwarding, RateLimit.applyFailurePolicy, hPolicy]
  · rw [hSome, hEffects]
    cases hAllowed : d.allowed <;>
      simp [forwards, RateLimit.forwarding, RateLimit.answer, writeRateLimitHeaders, hAllowed]

/-- It is counted under one label. -/
theorem decisions_effects (l : String) : decisions l (rl.effects t outcome) =
    if label (Outcome.decision outcome) = l then 1 else 0 := by
  obtain ⟨cause, hNone, hEffects⟩ | ⟨d, hSome, hEffects⟩ := effects_cases rl t outcome
  · rw [hNone, hEffects]
    cases hPolicy : rl.failOpen <;> by_cases hLabel : "degraded" = l <;>
      simp [decisions, label, RateLimit.applyFailurePolicy, hPolicy, hLabel]
  · rw [hSome, hEffects]
    cases hAllowed : d.allowed <;>
      simp [decisions, label, RateLimit.answer, writeRateLimitHeaders, hAllowed, List.countP_cons]

/-- It is counted as an error when it has no decision. -/
theorem limiterErrors_effects : limiterErrors (rl.effects t outcome) =
    if Outcome.decision outcome = none then 1 else 0 := by
  obtain ⟨cause, hNone, hEffects⟩ | ⟨d, hSome, hEffects⟩ := effects_cases rl t outcome
  · rw [hNone, hEffects]
    cases hPolicy : rl.failOpen <;>
      simp [limiterErrors, RateLimit.applyFailurePolicy, hPolicy]
  · rw [hSome, hEffects]
    cases hAllowed : d.allowed <;>
      simp [limiterErrors, RateLimit.answer, writeRateLimitHeaders, hAllowed]

variable {rl t outcome} {done rest : List Effect}

/-- Forwarded without a decision, the request carries the mark. -/
theorem marked_of_forwarded (hEffects : done ++ rest = rl.effects t outcome)
    (hForwarded : 0 < forwards done) (hNone : Outcome.decision outcome = none) :
    .setHeader "X-RateLimit-Degraded" "true" ∈ done := by
  obtain ⟨cause, -, hPolicy⟩ | ⟨d, hSome, -⟩ := effects_cases rl t outcome
  · rw [hPolicy, RateLimit.applyFailurePolicy] at hEffects
    -- the mark comes right before the request is forwarded
    cases hPolicy : rl.failOpen with
    | false =>
      have hNever : forwards (done ++ rest) = 0 := by
        rw [hEffects, hPolicy]
        rfl
      rw [forwards, List.countP_append] at hNever
      unfold forwards at hForwarded
      omega
    | true =>
      rw [hPolicy, if_pos rfl] at hEffects
      -- the counter, the mark, the request: any beginning that forwards has the mark
      obtain _ | ⟨e₁, _ | ⟨e₂, _ | ⟨e₃, done⟩⟩⟩ := done
      · cases hForwarded
      · obtain ⟨rfl, -⟩ := List.cons.inj hEffects
        cases hForwarded
      · obtain ⟨hFirst, hTail⟩ := List.cons.inj hEffects
        obtain ⟨hSecond, -⟩ := List.cons.inj hTail
        rw [hFirst, hSecond] at hForwarded
        cases hForwarded
      · obtain ⟨-, hTail⟩ := List.cons.inj hEffects
        obtain ⟨-, hLast⟩ := List.cons.inj hTail
        obtain ⟨rfl, -⟩ := List.cons.inj hLast
        simp
  · rw [hNone] at hSome
    cases hSome

end Effects

-- ---------------------------------------------------------------------------
-- The account of a request
-- ---------------------------------------------------------------------------

/-- What holds of a request at any moment. -/
structure Bounded (rl : RateLimit) (story : List Action) : Prop where
  admitted  : admissions story ≤ 1
  consulted : limiterCalls story ≤ admissions story
  reported  : reports story ≤ limiterCalls story
  forwarded : forwards (did story) ≤ if rl.forwarding (decisionOf story) then 1 else 0
  counted   : decisions "allowed" (did story) + decisions "throttled" (did story) +
    decisions "degraded" (did story) ≤ 1
  errors    : decisions "degraded" (did story) ≤ limiterErrors (did story)
  marked    : 0 < forwards (did story) → decisionOf story = none →
    .setHeader "X-RateLimit-Degraded" "true" ∈ did story

/-- What holds of a request that is finished. -/
structure Settled (rl : RateLimit) (story : List Action) : Prop where
  consulted : limiterCalls story = admissions story
  reported  : reports story = admissions story
  forwarded : forwards (did story) = if rl.forwarding (decisionOf story) then 1 else 0
  counted   : decisions "allowed" (did story) + decisions "throttled" (did story) +
    decisions "degraded" (did story) = 1
  errors    : limiterErrors (did story) = decisions "degraded" (did story)

section Account

variable {rl : RateLimit} {t : Tenant} {story : List Action}

/-- A request without effects is within its bounds. -/
theorem bounded_of_idle (hIdle : did story = []) (hAdmitted : admissions story ≤ 1)
    (hConsulted : limiterCalls story ≤ admissions story)
    (hReported : reports story ≤ limiterCalls story) : Bounded rl story := by
  refine ⟨hAdmitted, hConsulted, hReported, ?_, ?_, ?_, ?_⟩
  · rw [hIdle]
    exact Nat.zero_le _
  · rw [hIdle]
    exact Nat.zero_le _
  · rw [hIdle]
    exact Nat.zero_le _
  · rw [hIdle]
    exact fun hForwarded => absurd hForwarded (Nat.lt_irrefl 0)

/-- One label is counted, under which the first three add up to one. -/
theorem decisions_effects_sum (rl : RateLimit) (t : Tenant) (outcome : Outcome) :
    decisions "allowed" (rl.effects t outcome) + decisions "throttled" (rl.effects t outcome) +
      decisions "degraded" (rl.effects t outcome) = 1 := by
  rw [decisions_effects, decisions_effects, decisions_effects]
  cases Outcome.decision outcome with
  | none => rfl
  | some d => cases hAllowed : d.allowed <;> simp [label, hAllowed]

/-- The error is counted before the request is counted as degraded. -/
theorem degraded_le_errors {outcome : Outcome} {done rest : List Effect}
    (hEffects : done ++ rest = rl.effects t outcome) :
    decisions "degraded" done ≤ limiterErrors done := by
  have hDegraded : decisions "degraded" done + decisions "degraded" rest =
      decisions "degraded" (rl.effects t outcome) := by
    rw [← hEffects, decisions, decisions, decisions, List.countP_append]
  rw [decisions_effects] at hDegraded
  obtain ⟨cause, hNone, hPolicy⟩ | ⟨d, hSome, -⟩ := effects_cases rl t outcome
  · cases done with
    | nil => exact le_rfl
    | cons e done =>
      rw [hPolicy] at hEffects
      obtain ⟨rfl, -⟩ := List.cons.inj hEffects
      -- the failure policy counts the error first
      have hFirst : limiterErrors (.incLimiterErrors cause rl.policy :: done) =
          limiterErrors done + 1 := List.countP_cons_of_pos rfl
      split at hDegraded <;> omega
  · -- a decision is never labelled degraded
    have hOther : label (some d) ≠ "degraded" := by
      cases hAllowed : d.allowed <;> simp [label, hAllowed]
    rw [hSome, if_neg hOther] at hDegraded
    omega

/-- So is every request, wherever it is. -/
theorem bounded_of_storyOk {p : Point} (hStory : StoryOk rl t p story) : Bounded rl story := by
  cases p with
  | entered =>
    obtain rfl := hStory
    exact bounded_of_idle rfl (Nat.zero_le _) le_rfl le_rfl
  | published =>
    obtain ⟨g, rfl⟩ := hStory
    exact bounded_of_idle rfl (Nat.zero_le _) le_rfl le_rfl
  | admitted =>
    obtain ⟨g, rfl⟩ := hStory
    exact bounded_of_idle rfl le_rfl (Nat.zero_le _) le_rfl
  | waiting =>
    obtain ⟨g, rfl⟩ := hStory
    exact bounded_of_idle rfl le_rfl le_rfl (Nat.zero_le _)
  | returned result =>
    obtain ⟨g, rfl⟩ := hStory
    refine bounded_of_idle rfl ?_ ?_ (Nat.zero_le _) <;> cases result <;> exact le_rfl
  | acting rest =>
    obtain ⟨g, outcome, done, rfl, hEffects⟩ := hStory
    -- what is done is a beginning of all the effects
    have hPart : ∀ f, done.countP f ≤ (rl.effects t outcome).countP f := by
      intro f
      rw [← hEffects, List.countP_append]
      exact Nat.le_add_right _ _
    refine ⟨?_, ?_, ?_, ?_, ?_, ?_, ?_⟩
    · rw [admissions_story]
      split <;> decide
    · rw [admissions_story, limiterCalls_story]
    · rw [limiterCalls_story, reports_story]
    · rw [did_story, decisionOf_story, ← forwards_effects rl t]
      exact hPart _
    · rw [did_story, ← decisions_effects_sum rl t outcome]
      exact Nat.add_le_add (Nat.add_le_add (hPart _) (hPart _)) (hPart _)
    · rw [did_story]
      exact degraded_le_errors hEffects
    · rw [did_story, decisionOf_story]
      exact marked_of_forwarded hEffects

/-- With no effects left, it is settled. -/
theorem settled_of_storyOk (hStory : StoryOk rl t (.acting []) story) : Settled rl story := by
  obtain ⟨g, outcome, done, rfl, hEffects⟩ := hStory
  rw [List.append_nil] at hEffects
  refine ⟨?_, ?_, ?_, ?_, ?_⟩
  · rw [limiterCalls_story, admissions_story]
  · rw [reports_story, admissions_story]
  · rw [did_story, decisionOf_story, hEffects, forwards_effects]
  · rw [did_story, hEffects, decisions_effects_sum]
  · rw [did_story, hEffects, limiterErrors_effects, decisions_effects]
    cases Outcome.decision outcome with
    | none => rfl
    | some d => cases hAllowed : d.allowed <;> simp [label, hAllowed]

/-- Failing closed, a forwarded request has been granted its call. -/
theorem forwards_le_grants {p : Point} (hStory : StoryOk rl t p story)
    (hClosed : rl.failOpen = false) : forwards (did story) ≤ grants t.id story := by
  cases p with
  | entered => obtain rfl := hStory; exact Nat.zero_le _
  | published => obtain ⟨g, rfl⟩ := hStory; exact Nat.zero_le _
  | admitted => obtain ⟨g, rfl⟩ := hStory; exact Nat.zero_le _
  | waiting => obtain ⟨g, rfl⟩ := hStory; exact Nat.zero_le _
  | returned result => obtain ⟨g, rfl⟩ := hStory; exact Nat.zero_le _
  | acting rest =>
    have hForwarded := (bounded_of_storyOk hStory).forwarded
    obtain ⟨g, outcome, done, rfl, -⟩ := hStory
    refine hForwarded.trans ?_
    rw [decisionOf_story, grants_story]
    cases hDecision : Outcome.decision outcome with
    | none => simp [RateLimit.forwarding, hClosed]
    | some d => cases hAllowed : d.allowed <;> simp [RateLimit.forwarding, hAllowed]

end Account

-- ---------------------------------------------------------------------------
-- Every request can finish
-- ---------------------------------------------------------------------------

def Request.Finished (r : Request) : Prop := r.point = .acting []

/-- A bound on the actions that are left. -/
def Point.left : Point → ℕ
  | .entered => 11
  | .published => 10
  | .admitted => 9
  | .waiting => 8
  | .returned _ => 7
  | .acting rest => rest.length

theorem length_applyFailurePolicy (rl : RateLimit) (t : Tenant) :
    (rl.applyFailurePolicy t).length = 3 := by
  unfold RateLimit.applyFailurePolicy
  split <;> rfl

theorem length_answer_le (rl : RateLimit) (t : Tenant) (d : Decision) :
    (rl.answer t d).length ≤ 6 := by
  unfold RateLimit.answer writeRateLimitHeaders
  split <;> simp

/-- Every action brings the request nearer to its end. -/
theorem left_lt {rl : RateLimit} {t : Tenant} {b b' : Breaker} {p p' : Point} {m : Move}
    {a : Action} (hDoes : Does rl t b p m b' p' a) : p'.left < p.left := by
  have hPolicy := length_applyFailurePolicy rl t
  cases hDoes with
  | published => decide
  | admitted => decide
  | refused =>
    show (rl.applyFailurePolicy t).length + 1 < 10
    omega
  | called => decide
  | replied => exact Nat.lt_succ_self _
  | failed =>
    show (rl.applyFailurePolicy t).length + 1 < 7
    omega
  | decided => exact Nat.lt_succ_of_le (length_answer_le rl t _)
  | acted => exact Nat.lt_succ_self _

/-- No request is stuck. -/
theorem exists_advance (rl : RateLimit) (t : Tenant) (b : Breaker) {p : Point}
    (hUnfinished : p ≠ .acting []) : ∃ m x, rl.advance t b p m = some x := by
  cases p with
  | entered => exact ⟨.publish 0, _, rfl⟩
  | published => exact ⟨.consult 0, _, rfl⟩
  | admitted => exact ⟨.call, _, rfl⟩
  | waiting => exact ⟨.reply (.error .contextDone), _, rfl⟩
  | returned result => exact ⟨.report 0, _, rfl⟩
  | acting rest =>
    cases rest with
    | nil => exact absurd rfl hUnfinished
    | cons e rest => exact ⟨.act, _, rfl⟩

/-- No two requests have the same identity. -/
def Distinct (s : Server) : Prop := (s.requests.map Request.id).Nodup

/-- A move leaves the identities. -/
theorem map_id_moved (s : Server) (r : Request) :
    (s.moved r).map Request.id = s.requests.map Request.id := by
  rw [Server.moved, List.map_map]
  refine List.map_congr_left fun r' _ => ?_
  show (if r'.id = r.id then r else r').id = r'.id
  split
  · exact Eq.symm ‹_›
  · rfl

/-- A request that arrives has an identity of its own. -/
theorem distinct_step {rl : RateLimit} {s s' : Server} {e : Moment} (hDistinct : Distinct s)
    (hStep : s.step rl e = some s') : Distinct s' := by
  obtain ⟨id, t, -, hNew, rfl⟩ | ⟨m, r, b, p, a, -, -, -, -, rfl⟩ := step_cases hStep
  · refine List.nodup_cons.mpr ⟨fun hOld => ?_, hDistinct⟩
    obtain ⟨r, hr, hId⟩ := List.mem_map.mp hOld
    have := List.find?_eq_none.mp hNew r hr
    exact this (by simp [hId])
  · show ((s.moved { r with point := p, story := r.story ++ [a] }).map Request.id).Nodup
    rwa [map_id_moved]

theorem distinct_run {rl : RateLimit} {config : Breaker.Config} {events : List Moment}
    {s : Server} (hRun : run (Server.step rl) (Server.start config) events = some s) :
    Distinct s :=
  reachable_invariant (show Distinct (Server.start config) from List.nodup_nil)
    (fun _ _ _ => distinct_step) ⟨events, hRun⟩

/-- A request is found by its identity. -/
theorem request_of_mem {s : Server} (hDistinct : Distinct s) {r : Request}
    (hr : r ∈ s.requests) : s.request r.id = some r := by
  cases hRequest : s.request r.id with
  | none => exact absurd (List.find?_eq_none.mp hRequest r hr) (by simp)
  | some r' =>
    have hId : r'.id = r.id := by simpa using List.find?_some hRequest
    exact congrArg some (List.inj_on_of_nodup_map hDistinct (List.mem_of_find?_eq_some hRequest)
      hr hId)

/-- Left alone with the replica, a request finishes. -/
theorem exists_finish {rl : RateLimit} {s : Server} (hDistinct : Distinct s) {r : Request}
    (hr : r ∈ s.requests) :
    ∃ (moves : List Move) (s' : Server),
      run (Server.step rl) s (moves.map (.move r.id)) = some s' ∧
      ∃ r' ∈ s'.requests, r'.id = r.id ∧ r'.Finished := by
  induction hLeft : r.point.left using Nat.strong_induction_on generalizing s r with
  | _ n ih =>
    by_cases hFinished : r.Finished
    · exact ⟨[], s, rfl, r, hr, rfl, hFinished⟩
    · obtain ⟨m, ⟨b, p, a⟩, hAdvance⟩ := exists_advance rl r.tenant s.breaker hFinished
      have hStep : s.step rl (.move r.id m) =
          some ⟨b, s.moved { r with point := p, story := r.story ++ [a] }⟩ := by
        rw [Server.step, request_of_mem hDistinct hr, Option.bind_some, hAdvance]
        rfl
      -- each move brings the request nearer to its end
      have hNearer := left_lt (does_of_advance hAdvance)
      rw [hLeft] at hNearer
      have hMoved : { r with point := p, story := r.story ++ [a] } ∈
          s.moved { r with point := p, story := r.story ++ [a] } :=
        List.mem_map.mpr ⟨r, hr, if_pos rfl⟩
      obtain ⟨moves, s', hRun, hEnd⟩ := ih _ hNearer (distinct_step hDistinct hStep) hMoved rfl
      exact ⟨m :: moves, s', run_cons_eq_some.mpr ⟨_, hStep, hRun⟩, hEnd⟩

-- ---------------------------------------------------------------------------
-- What the breaker hears
-- ---------------------------------------------------------------------------

/-- The reading of the clock that an action is made at. -/
def Move.now : Move → ℤ
  | .publish now | .consult now | .report now => now
  | .call | .reply _ | .act => 0

/-- What a step adds to the story of its request. -/
def Server.tells (_ : Server) : Moment → Server → List (ℤ × Action)
  | .arrive _ _, _ => []
  | .move id m, s' =>
    ((s'.request id).bind fun r => r.story.getLast?).toList.map fun a => (m.now, a)

/-- The breaker once a request has acted: it has given that answer, or has heard that
report, and anything else does not concern it. -/
def hears (b : Breaker) : ℤ × Action → Option Breaker
  | (now, .allow admitted) =>
    let (answer, b) := b.allow now
    if answer = admitted then some b else none
  | (now, .report ok) => some (b.report ok now)
  | _ => some b

/-- The breaker changes with the actions that concern it, as they say. -/
theorem hears_of_does {rl : RateLimit} {t : Tenant} {b b' : Breaker} {p p' : Point} {m : Move}
    {a : Action} (hDoes : Does rl t b p m b' p' a) : hears b (m.now, a) = some b' := by
  cases hDoes with
  | published => rfl
  | admitted hAllow => simp [hears, Move.now, hAllow]
  | refused hAllow => simp [hears, Move.now, hAllow]
  | called => rfl
  | replied => rfl
  | failed => rfl
  | decided => rfl
  | acted => rfl

/-- So it does in every step. -/
theorem hears_step {rl : RateLimit} {s s' : Server} {e : Moment} (hDistinct : Distinct s)
    (hStep : s.step rl e = some s') : run hears s.breaker (s.tells e s') = some s'.breaker := by
  have hDistinct' := distinct_step hDistinct hStep
  obtain ⟨id, t, rfl, -, rfl⟩ | ⟨m, r, b, p, a, rfl, hr, -, hDoes, rfl⟩ := step_cases hStep
  · rfl
  · have hMoved : { r with point := p, story := r.story ++ [a] } ∈
        s.moved { r with point := p, story := r.story ++ [a] } :=
      List.mem_map.mpr ⟨r, hr, if_pos rfl⟩
    have hRequest := request_of_mem hDistinct' hMoved
    rw [Server.tells, hRequest, Option.bind_some, List.getLast?_concat]
    exact run_cons_eq_some.mpr ⟨b, hears_of_does hDoes, rfl⟩

/-- The stories, one action after the other as they happened, are a history of the
breaker. -/
theorem hears_run {rl : RateLimit} {config : Breaker.Config} {events : List Moment} {s : Server}
    (hRun : run (Server.step rl) (Server.start config) events = some s) :
    run hears (Breaker.init config)
      (collect (Server.step rl) Server.tells (Server.start config) events) = some s.breaker := by
  have hInit : Distinct (Server.start config) ∧
      (Server.start config).breaker = Breaker.init config := ⟨List.nodup_nil, rfl⟩
  obtain ⟨b, hHeard, -, hBreaker⟩ : ∃ b, run hears (Breaker.init config)
      (collect (Server.step rl) Server.tells (Server.start config) events) = some b ∧
        Distinct s ∧ s.breaker = b := by
    refine run_forward_simulation (R := fun s b => Distinct s ∧ s.breaker = b)
      (fun s b e s' hNow hStep => ?_) hInit hRun
    obtain ⟨hDistinct, rfl⟩ := hNow
    exact ⟨s'.breaker, hears_step hDistinct hStep, distinct_step hDistinct hStep, rfl⟩
  rw [hBreaker]
  exact hHeard

-- ---------------------------------------------------------------------------
-- All requests
-- ---------------------------------------------------------------------------

/-- The requests forwarded for a key, and the limiter calls on it that returned
allowed. -/
def Server.forwardedFor (s : Server) (key : String) : ℕ :=
  (s.requests.map fun r => if r.tenant.id = key then forwards (did r.story) else 0).sum

def Server.grantedFor (s : Server) (key : String) : ℕ :=
  (s.requests.map fun r => grants key r.story).sum

/--
**The account of the pipeline.** After every interleaving of the actions of any
number of requests, for every breaker, every behaviour of the limiter and both
policies: every request is within its bounds, and one that is finished is
settled (`Bounded`, `Settled`: it consulted the limiter exactly when the breaker
admitted it, reported exactly once for that, was forwarded exactly once or not
at all, as its decision or the policy says, was counted under one label, and as
an error exactly when degraded; forwarded without a decision it is marked);
every request can finish; failing closed, no more requests are forwarded for a
key than limiter calls on the key returned allowed; and the breaker has given
the answers and heard the reports of these stories, and nothing else.
-/
theorem requests_accounted {rl : RateLimit} {config : Breaker.Config} {events : List Moment}
    {s : Server} (hRun : run (Server.step rl) (Server.start config) events = some s) :
    (∀ r ∈ s.requests, Bounded rl r.story ∧ (r.Finished → Settled rl r.story)) ∧
    (∀ r ∈ s.requests, ∃ (moves : List Move) (s' : Server),
      run (Server.step rl) s (moves.map (.move r.id)) = some s' ∧
        ∃ r' ∈ s'.requests, r'.id = r.id ∧ r'.Finished) ∧
    (rl.failOpen = false → ∀ key, s.forwardedFor key ≤ s.grantedFor key) ∧
    run hears (Breaker.init config)
      (collect (Server.step rl) Server.tells (Server.start config) events) = some s.breaker := by
  have hStories := storiesOk_run hRun
  refine ⟨fun r hr => ⟨bounded_of_storyOk (hStories r hr), fun hFinished => ?_⟩,
    fun r hr => exists_finish (distinct_run hRun) hr, fun hClosed key => ?_, hears_run hRun⟩
  · -- a finished request has done all its effects
    refine settled_of_storyOk (t := r.tenant) ?_
    rw [← hFinished]
    exact hStories r hr
  · -- request by request: fail-closed forwards only what the limiter granted
    refine List.sum_le_sum fun r hr => ?_
    split
    · rename_i hKey
      rw [← hKey]
      exact forwards_le_grants (hStories r hr) hClosed
    · exact Nat.zero_le _

/-- Two requests of one tenant, failing closed: one is decided and forwarded,
the limiter call of the other fails. -/
theorem requests_accounted_demo :
    let rl : RateLimit := ⟨.tokenBucket, false⟩
    let acme : Tenant := ⟨"acme", ⟨"free", 10, 1000000000, 0⟩⟩
    let events : List Moment :=
      [.arrive 1 acme, .arrive 2 acme, .move 1 (.publish 0), .move 2 (.publish 0),
       .move 1 (.consult 0), .move 2 (.consult 0), .move 2 .call, .move 1 .call,
       .move 1 (.reply (.ok ⟨true, 10, 9, 0, 0⟩)), .move 2 (.reply (.error .contextDone)),
       .move 2 (.report 1), .move 1 (.report 1)] ++
      List.replicate 5 (.move 1 .act)
    ∃ s, run (Server.step rl) (Server.start (Breaker.Config.of 5 1 [])) events = some s ∧
      s.forwardedFor "acme" ≤ s.grantedFor "acme" ∧
      ∀ r ∈ s.requests, Bounded rl r.story := by
  intro rl acme events
  obtain ⟨s, hRun⟩ : ∃ s, run (Server.step rl) (Server.start (Breaker.Config.of 5 1 [])) events =
      some s := Option.isSome_iff_exists.mp (by decide +kernel)
  obtain ⟨hEach, -, hClosed, -⟩ := requests_accounted hRun
  exact ⟨_, hRun, hClosed rfl "acme", fun r hr => (hEach r hr).1⟩

end RatelimitGateway.Middleware
