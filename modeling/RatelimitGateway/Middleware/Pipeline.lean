import RatelimitGateway.Breaker.Contract
import RatelimitGateway.Middleware.Definitions

/-!
# Concurrent requests through `Wrap`

One replica: any number of requests share a breaker, and each is at its own
point of `Wrap`. A request begins (the breaker admits it and its limiter call
starts, or it is answered at once), its client may hang up, and its limiter
call completes (the breaker hears of it and the request is answered). The
events of different requests interleave freely.

* `Did`              — everything a step can do, one case each;
* `keeps_contract`   — every run of the pipeline is a run of the breaker under
  its contract.
-/

namespace RatelimitGateway.Middleware

open Limiter Transitions

/-- A request whose limiter call has started and has not completed. -/
structure Flight where
  id : ℕ
  tenant : Tenant
  /-- Its client has not hung up; the context of the call is not done. -/
  connected : Bool
  deriving DecidableEq, Repr

/-- A request that has been answered. -/
structure Response where
  id : ℕ
  tenant : Tenant
  connected : Bool
  effects : List Effect
  deriving DecidableEq, Repr

structure Gateway where
  breaker : Breaker
  flights : List Flight
  responses : List Response
  /-- How many limiter calls have been started. -/
  calls : ℕ
  /-- The last reading of the breaker's clock. -/
  clock : ℤ
  deriving DecidableEq, Repr

inductive Event where
  | begin (id : ℕ) (tenant : Tenant) (connected : Bool) (now : ℤ)
  | disconnect (id : ℕ)
  | complete (id : ℕ) (result : Except LimiterError Decision) (now : ℤ)

/-- The reading of the breaker's clock, if the event takes one. -/
def Event.now : Event → Option ℤ
  | .begin _ _ _ now => some now
  | .disconnect _ => none
  | .complete _ _ now => some now

namespace Gateway

def start (config : Breaker.Config) (clock : ℤ) : Gateway where
  breaker := Breaker.init config
  flights := []
  responses := []
  calls := 0
  clock := clock

/-- The request of that identity, if its limiter call is in flight. -/
def flight (g : Gateway) (id : ℕ) : Option Flight :=
  g.flights.find? fun f => f.id == id

/-- The calls in flight once that one has completed. -/
def without (g : Gateway) (id : ℕ) : List Flight :=
  g.flights.eraseP fun f => f.id == id

/-- The calls in flight once the client of that one has hung up. -/
def hungUp (g : Gateway) (id : ℕ) : List Flight :=
  g.flights.map fun f => if f.id = id then { f with connected := false } else f

def step (rl : RateLimit) (g : Gateway) : Event → Option Gateway
  | .begin id t connected now =>
    if g.flight id = none then
      let (calling, effects, b) := rl.wrapStart t now g.breaker
      some { g with
        breaker := b
        flights := if calling then ⟨id, t, connected⟩ :: g.flights else g.flights
        responses := if calling then g.responses else ⟨id, t, connected, effects⟩ :: g.responses
        calls := if calling then g.calls + 1 else g.calls
        clock := now }
    else none
  | .disconnect id =>
    if g.flight id = none then none else some { g with flights := g.hungUp id }
  | .complete id result now =>
    match g.flight id with
    | none => none
    | some f =>
      let (effects, b) := rl.wrapFinish f.tenant result now g.breaker
      some { g with
        breaker := b
        flights := g.without id
        responses := ⟨id, f.tenant, f.connected, effects⟩ :: g.responses
        clock := now }

end Gateway

-- ---------------------------------------------------------------------------
-- What a step can do
-- ---------------------------------------------------------------------------

/-- Everything a step can do. -/
inductive Did (rl : RateLimit) (g : Gateway) : Event → Gateway → Prop
  | called {id t connected now b} (hNew : g.flight id = none)
      (hAllow : g.breaker.allow now = (true, b)) :
      Did rl g (.begin id t connected now) { g with
        breaker := b, flights := ⟨id, t, connected⟩ :: g.flights
        calls := g.calls + 1, clock := now }
  | skipped {id t connected now b effects} (hNew : g.flight id = none)
      (hAllow : g.breaker.allow now = (false, b)) (hDegraded : degraded effects = true) :
      Did rl g (.begin id t connected now) { g with
        breaker := b, responses := ⟨id, t, connected, effects⟩ :: g.responses, clock := now }
  | hungUp {id} (hFlight : g.flight id ≠ none) :
      Did rl g (.disconnect id) { g with flights := g.hungUp id }
  | answered {id d now f} (hFlight : g.flight id = some f) :
      Did rl g (.complete id (.ok d) now) { g with
        breaker := g.breaker.success, flights := g.without id
        responses := ⟨id, f.tenant, f.connected, rl.answer f.tenant d⟩ :: g.responses
        clock := now }
  | failed {id err now f effects} (hFlight : g.flight id = some f)
      (hDegraded : degraded effects = true) :
      Did rl g (.complete id (.error err) now) { g with
        breaker := g.breaker.failure now, flights := g.without id
        responses := ⟨id, f.tenant, f.connected, effects⟩ :: g.responses, clock := now }

/-- A step does one of these. -/
theorem did_of_step {rl : RateLimit} {g g' : Gateway} {e : Event} (h : g.step rl e = some g') :
    Did rl g e g' := by
  cases e with
  | begin id t connected now =>
    rw [Gateway.step] at h
    split at h
    · rename_i hNew
      -- the breaker decides whether the limiter is called
      cases hAllow : g.breaker.allow now with
      | mk admitted b =>
        cases admitted with
        | true =>
          simp only [RateLimit.wrapStart, hAllow, if_true, Option.some.injEq] at h
          exact h ▸ .called hNew hAllow
        | false =>
          simp only [RateLimit.wrapStart, hAllow, Bool.false_eq_true, if_false,
            Option.some.injEq] at h
          exact h ▸ .skipped hNew hAllow (degraded_refused rl t _)
    · cases h
  | disconnect id =>
    rw [Gateway.step] at h
    split at h
    · cases h
    · rename_i hFlight
      exact Option.some.inj h ▸ .hungUp hFlight
  | complete id result now =>
    rw [Gateway.step] at h
    cases hFlight : g.flight id with
    -- only a call that is in flight completes
    | none => simp [hFlight] at h
    | some f =>
      simp only [hFlight, Option.some.injEq] at h
      cases result with
      | ok d => exact h ▸ .answered hFlight
      | error err => exact h ▸ .failed hFlight (degraded_refused rl f.tenant _)

/-- The other calls stay in flight when one completes. -/
theorem perm_without {g : Gateway} {id : ℕ} {f : Flight} (hFlight : g.flight id = some f) :
    g.flights.Perm (f :: g.without id) := by
  obtain ⟨hId, before, after, hFlights, hOthers⟩ := List.find?_eq_some_iff_append.mp hFlight
  have hLeft : g.without id = before ++ after := by
    rw [Gateway.without, hFlights, List.eraseP_append_right _ (by simpa using hOthers)]
    exact congrArg (before ++ ·) (List.eraseP_cons_of_pos hId)
  rw [hLeft, hFlights]
  exact List.perm_middle

theorem length_without {g : Gateway} {id : ℕ} {f : Flight} (hFlight : g.flight id = some f) :
    g.flights.length = (g.without id).length + 1 :=
  (perm_without hFlight).length_eq

theorem length_hungUp (g : Gateway) (id : ℕ) : (g.hungUp id).length = g.flights.length := by
  simp [Gateway.hungUp]

-- ---------------------------------------------------------------------------
-- The contract of the breaker
-- ---------------------------------------------------------------------------

/-- What the breaker sees of an event. -/
def Event.view : Event → Option Breaker.Event
  | .begin id _ _ now => some (.allow id now)
  | .disconnect _ => none
  | .complete id (.ok _) now => some (.report id true now)
  | .complete id (.error _) now => some (.report id false now)

/-- The gateway's breaker and calls, as the contract records them. -/
structure SameCalls (g : Gateway) (s : Breaker.System) : Prop where
  breaker : s.breaker = g.breaker
  ids     : s.outstanding.map Breaker.Admission.id = g.flights.map Flight.id

/-- The calls outstanding under an identity, counted by identity alone. -/
theorem SameCalls.call_eq_none {g : Gateway} {s : Breaker.System} (h : SameCalls g s) {id : ℕ} :
    s.call id = none ↔ g.flight id = none := by
  have hCall : s.call id = none ↔ id ∉ s.outstanding.map Breaker.Admission.id := by
    simp [Breaker.System.call]
  have hFlight : g.flight id = none ↔ id ∉ g.flights.map Flight.id := by
    simp [Gateway.flight]
  rw [hCall, hFlight, h.ids]

/-- Erasing by identity, seen from the identities. -/
theorem map_eraseP_id {α : Type} (key : α → ℕ) (l : List α) (id : ℕ) :
    (l.eraseP fun a => key a == id).map key = (l.map key).erase id := by
  induction l with
  | nil => rfl
  | cons a l ih =>
    by_cases h : key a = id
    · simp [h]
    · rw [List.eraseP_cons_of_neg (by simpa using h), List.map_cons, List.map_cons,
        List.erase_cons_tail (by simpa using h), ih]

/-- A new request is an admission under the contract. -/
theorem SameCalls.allow {g : Gateway} {s : Breaker.System} (h : SameCalls g s) {id : ℕ}
    (hNew : g.flight id = none) {now : ℤ} {admitted : Bool} {b : Breaker}
    (hAllow : g.breaker.allow now = (admitted, b)) :
    ∃ s', s.step (.allow id now) = some s' ∧ s'.breaker = b ∧
      s'.outstanding.map Breaker.Admission.id =
        if admitted then id :: g.flights.map Flight.id else g.flights.map Flight.id := by
  rw [← h.breaker] at hAllow
  rw [← h.ids]
  exact Breaker.step_allow (h.call_eq_none.mpr hNew) hAllow

/-- A completed call is a report under the contract. -/
theorem SameCalls.report {g : Gateway} {s : Breaker.System} (h : SameCalls g s) {id : ℕ}
    {f : Flight} (hFlight : g.flight id = some f) (ok : Bool) (now : ℤ) :
    ∃ s', s.step (.report id ok now) = some s' ∧ s'.breaker = g.breaker.report ok now ∧
      s'.outstanding.map Breaker.Admission.id = (g.without id).map Flight.id := by
  cases hCall : s.call id with
  | none => simp [h.call_eq_none.mp hCall] at hFlight
  | some a =>
    obtain ⟨s', hStep, hBreaker, hLeft⟩ := Breaker.step_report hCall ok now
    refine ⟨s', hStep, by rw [hBreaker, h.breaker], ?_⟩
    rw [hLeft, Breaker.System.without, map_eraseP_id, h.ids, Gateway.without, map_eraseP_id]

/-- **`Wrap` keeps the breaker's contract.** Every run of the pipeline is, for
its breaker, a run in which every admitted call reports at most once and no
other call reports. -/
theorem keeps_contract {rl : RateLimit} {config : Breaker.Config} {clock : ℤ}
    {events : List Event} {g : Gateway}
    (hRun : run (Gateway.step rl) (Gateway.start config clock) events = some g) :
    ∃ s, run Breaker.System.step (Breaker.System.start config clock)
      (events.filterMap Event.view) = some s ∧ SameCalls g s := by
  refine run_simulation (R := SameCalls) ?_ ?_ ⟨rfl, rfl⟩ hRun
  · intro g s e g' hSame hStep hView
    cases did_of_step hStep with
    | hungUp =>
      -- a client that hangs up is nothing to the breaker, and its call stays in flight
      refine ⟨hSame.breaker, ?_⟩
      rw [hSame.ids, Gateway.hungUp, List.map_map]
      apply List.map_congr_left
      intro f _
      show f.id = (if f.id = _ then _ else f).id
      split <;> rfl
    | called => cases hView
    | skipped => cases hView
    | answered => cases hView
    | failed => cases hView
  · intro g s e g' d hSame hStep hView
    cases did_of_step hStep with
    | called hNew hAllow =>
      -- Allow is called once for the request, and admits it
      obtain ⟨s', hAllowed, hBreaker, hIds⟩ := hSame.allow hNew hAllow
      obtain rfl := Option.some.inj hView
      exact ⟨s', hAllowed, hBreaker, hIds⟩
    | skipped hNew hAllow =>
      obtain ⟨s', hAllowed, hBreaker, hIds⟩ := hSame.allow hNew hAllow
      obtain rfl := Option.some.inj hView
      exact ⟨s', hAllowed, hBreaker, hIds⟩
    | hungUp => cases hView
    | answered hFlight =>
      obtain ⟨s', hReport, hBreaker, hIds⟩ := hSame.report hFlight true _
      obtain rfl := Option.some.inj hView
      exact ⟨s', hReport, hBreaker, hIds⟩
    | failed hFlight =>
      -- one report for each call, and then it is not in flight any more
      obtain ⟨s', hReport, hBreaker, hIds⟩ := hSame.report hFlight false _
      obtain rfl := Option.some.inj hView
      exact ⟨s', hReport, hBreaker, hIds⟩

end RatelimitGateway.Middleware
