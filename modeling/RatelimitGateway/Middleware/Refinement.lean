import RatelimitGateway.Breaker.Probes
import RatelimitGateway.Middleware.Requests

/-!
# The actions of `Wrap`, taken together

`Pipeline` takes everything that `Wrap` does before its limiter call as one
step, and everything after it as another. This is no loss: seen from the
requests' own actions, a request begins at the moment at which it asks the
breaker, and is answered at the moment at which it reports. The effects that
are still to come after that are its own affair.

* `wrap_atomic` — every interleaving of actions is a run of the pipeline, with
  the same breaker, the same calls in flight and the same answers.
-/

namespace RatelimitGateway.Middleware

open Limiter Transitions

-- ---------------------------------------------------------------------------
-- What the pipeline sees
-- ---------------------------------------------------------------------------

/-- The limiter call of a request, as long as the breaker has not heard of it. -/
def Request.flight (r : Request) : Option Flight :=
  match r.point with
  | .admitted | .waiting | .returned _ => some ⟨r.id, r.tenant, true⟩
  | _ => none

/-- The answer of a request, with the effects that are still to come. -/
def Request.response (r : Request) : Option Response :=
  match r.point with
  | .acting rest => some ⟨r.id, r.tenant, true, did r.story ++ rest⟩
  | _ => none

theorem response_acting (id : ℕ) (t : Tenant) (rest : List Effect) (story : List Action) :
    Request.response ⟨id, t, .acting rest, story⟩ = some ⟨id, t, true, did story ++ rest⟩ := rfl

/-- The events of the pipeline at a step: the breaker is asked, or hears of a
call. -/
def Server.shows (s : Server) : Moment → Server → List Event
  | .move id (.consult now), _ =>
    ((s.request id).map fun r => .begin id r.tenant true now).toList
  | .move id (.report now), _ =>
    match (s.request id).map Request.point with
    | some (.returned result) => [.complete id result now]
    | _ => []
  | _, _ => []

/-- A pipeline that has come as far as the requests of a replica. -/
structure Refines (rl : RateLimit) (s : Server) (g : Gateway) : Prop where
  distinct  : Distinct s
  stories   : StoriesOk rl s
  breaker   : g.breaker = s.breaker
  flights   : g.flights.Perm (s.requests.filterMap Request.flight)
  responses : g.responses.Perm (s.requests.filterMap Request.response)

-- ---------------------------------------------------------------------------
-- The steps of the pipeline
-- ---------------------------------------------------------------------------

section Steps

variable {g : Gateway}

theorem step_called (rl : RateLimit) {id : ℕ} (t : Tenant) {now : ℤ} {b : Breaker}
    (hNew : g.flight id = none) (hAllow : g.breaker.allow now = (true, b)) :
    ∃ g', g.step rl (.begin id t true now) = some g' ∧ g'.breaker = b ∧
      g'.flights = ⟨id, t, true⟩ :: g.flights ∧ g'.responses = g.responses := by
  refine ⟨_, by rw [Gateway.step, if_pos hNew], ?_, ?_, ?_⟩ <;> simp [RateLimit.wrapStart, hAllow]

/-- A request begins and is refused by the breaker. -/
theorem step_skipped (rl : RateLimit) {id : ℕ} (t : Tenant) {now : ℤ} {b : Breaker}
    (hNew : g.flight id = none) (hAllow : g.breaker.allow now = (false, b)) :
    ∃ g', g.step rl (.begin id t true now) = some g' ∧ g'.breaker = b ∧
      g'.flights = g.flights ∧ g'.responses = ⟨id, t, true,
        .incLimiterErrors "breaker_open" rl.policy :: rl.applyFailurePolicy t⟩ :: g.responses := by
  refine ⟨_, by rw [Gateway.step, if_pos hNew], ?_, ?_, ?_⟩ <;> simp [RateLimit.wrapStart, hAllow]

/-- A limiter call completes. -/
theorem step_completed (rl : RateLimit) {f : Flight} (result : Except LimiterError Decision)
    (now : ℤ) (hFlight : g.flight f.id = some f) :
    ∃ g', g.step rl (.complete f.id result now) = some g' ∧
      g'.breaker = (rl.wrapFinish f.tenant result now g.breaker).2 ∧
      g'.flights = g.without f.id ∧ g'.responses = ⟨f.id, f.tenant, f.connected,
        (rl.wrapFinish f.tenant result now g.breaker).1⟩ :: g.responses :=
  ⟨_, by rw [Gateway.step, hFlight], rfl, rfl, rfl⟩

end Steps

-- ---------------------------------------------------------------------------
-- One request moves
-- ---------------------------------------------------------------------------

/-- All but one of the requests are as they were. -/
theorem filterMap_moved {α : Type} {s : Server} (hDistinct : Distinct s) {r r' : Request}
    (hr : r ∈ s.requests) (hId : r'.id = r.id) (φ : Request → Option α) :
    ∃ others, (s.requests.filterMap φ).Perm ((φ r).toList ++ others) ∧
      ((s.moved r').filterMap φ).Perm ((φ r').toList ++ others) := by
  obtain ⟨before, after, hRequests⟩ := List.append_of_mem hr
  -- the ids are distinct, so only this request is replaced
  have hIds : ((before ++ r :: after).map Request.id).Nodup := hRequests ▸ hDistinct
  rw [List.map_append, List.map_cons, List.nodup_middle, ← List.map_append,
    List.nodup_cons] at hIds
  have hKept : ∀ x ∈ before ++ after, (if x.id = r'.id then r' else x) = x := by
    intro x hx
    refine if_neg fun hSame => hIds.1 ?_
    rw [← hId, ← hSame]
    exact List.mem_map_of_mem hx
  have hMoved : s.moved r' = before ++ r' :: after := by
    rw [Server.moved, hRequests, List.map_append, List.map_cons, if_pos hId.symm,
      List.map_congr_left fun x hx => hKept x (List.mem_append_left _ hx),
      List.map_congr_left fun x hx => hKept x (List.mem_append_right _ hx), List.map_id',
      List.map_id']
  have hOne : ∀ x, ((before ++ x :: after).filterMap φ).Perm
      ((φ x).toList ++ (before ++ after).filterMap φ) := by
    intro x
    have hFront : ((before ++ x :: after).filterMap φ).Perm
        ((x :: (before ++ after)).filterMap φ) := List.perm_middle.filterMap φ
    refine hFront.trans (List.Perm.of_eq ?_)
    rw [List.filterMap_cons]
    cases φ x <;> rfl
  refine ⟨(before ++ after).filterMap φ, ?_, ?_⟩
  · rw [hRequests]
    exact hOne r
  · rw [hMoved]
    exact hOne r'

/-- A request's call is known by the request. -/
theorem flight_id {r : Request} {f : Flight} (h : r.flight = some f) : f.id = r.id := by
  unfold Request.flight at h
  split at h
  · exact congrArg Flight.id (Option.some.inj h).symm
  · exact congrArg Flight.id (Option.some.inj h).symm
  · exact congrArg Flight.id (Option.some.inj h).symm
  · cases h

section Moving

variable {rl : RateLimit} {s : Server} {g : Gateway} {r : Request}

/-- A request finds its own call in flight, or none. -/
theorem Refines.flight_eq (hRefines : Refines rl s g) (hr : r ∈ s.requests) :
    g.flight r.id = r.flight := by
  -- a flight of this id can only come from this request
  have hOwn : ∀ f ∈ g.flights, f.id = r.id → r.flight = some f := by
    intro f hf hId
    obtain ⟨r', hr', hFlight⟩ := List.mem_filterMap.mp (hRefines.flights.subset hf)
    have hSame : r' = r := List.inj_on_of_nodup_map hRefines.distinct hr' hr
      ((flight_id hFlight).symm.trans hId)
    exact hSame ▸ hFlight
  cases hFound : g.flight r.id with
  | some f =>
    have hId : f.id = r.id := by simpa using List.find?_some hFound
    exact (hOwn f (List.mem_of_find?_eq_some hFound) hId).symm
  | none =>
    cases hFlight : r.flight with
    | none => rfl
    | some f =>
      have hMem : f ∈ g.flights :=
        hRefines.flights.symm.subset (List.mem_filterMap.mpr ⟨r, hr, hFlight⟩)
      have hAbsent := List.find?_eq_none.mp hFound f hMem
      rw [flight_id hFlight, beq_self_eq_true] at hAbsent
      exact absurd rfl hAbsent

/-- A request has moved: the pipeline is to change by its call and its answer
alone. -/
theorem Refines.moved (hRefines : Refines rl s g) (hr : r ∈ s.requests) (r' : Request)
    (hId : r'.id = r.id) {b : Breaker} {g' : Gateway} (hDistinct : Distinct ⟨b, s.moved r'⟩)
    (hStories : StoriesOk rl ⟨b, s.moved r'⟩) (hBreaker : g'.breaker = b)
    (hFlights : ∀ others, g.flights.Perm (r.flight.toList ++ others) →
      g'.flights.Perm (r'.flight.toList ++ others))
    (hResponses : ∀ others, g.responses.Perm (r.response.toList ++ others) →
      g'.responses.Perm (r'.response.toList ++ others)) :
    Refines rl ⟨b, s.moved r'⟩ g' := by
  obtain ⟨flying, hBefore, hAfter⟩ := filterMap_moved hRefines.distinct hr hId Request.flight
  obtain ⟨answered, hOld, hNew⟩ := filterMap_moved hRefines.distinct hr hId Request.response
  exact ⟨hDistinct, hStories, hBreaker,
    (hFlights flying (hRefines.flights.trans hBefore)).trans hAfter.symm,
    (hResponses answered (hRefines.responses.trans hOld)).trans hNew.symm⟩

/-- Before its effects a request has had none. -/
theorem did_eq_nil {t : Tenant} {p : Point} {story : List Action} (hStory : StoryOk rl t p story)
    (hEarly : ∀ rest, p ≠ .acting rest) : did story = [] := by
  cases p with
  | entered => obtain rfl := hStory; rfl
  | published => obtain ⟨_, rfl⟩ := hStory; rfl
  | admitted => obtain ⟨_, rfl⟩ := hStory; rfl
  | waiting => obtain ⟨_, rfl⟩ := hStory; rfl
  | returned result => obtain ⟨_, rfl⟩ := hStory; rfl
  | acting rest => exact absurd rfl (hEarly rest)

theorem did_concat (story : List Action) (a : Action) : did (story ++ [a]) = did story ++ did [a] :=
  List.filterMap_append

/-- A report is the completion of the call in flight. -/
theorem Refines.reported (hRefines : Refines rl s g) {id : ℕ} {t : Tenant}
    {result : Except LimiterError Decision} {story : List Action}
    (hr : ⟨id, t, .returned result, story⟩ ∈ s.requests) {now : ℤ} {b : Breaker}
    {effects : List Effect} (hFinish : rl.wrapFinish t result now s.breaker = (effects, b))
    (ok : Bool) (hDistinct : Distinct ⟨b, s.moved ⟨id, t, .acting effects, story ++ [.report ok]⟩⟩)
    (hStories : StoriesOk rl ⟨b, s.moved ⟨id, t, .acting effects, story ++ [.report ok]⟩⟩) :
    ∃ g', g.step rl (.complete id result now) = some g' ∧
      Refines rl ⟨b, s.moved ⟨id, t, .acting effects, story ++ [.report ok]⟩⟩ g' := by
  have hFlight : g.flight id = some ⟨id, t, true⟩ := hRefines.flight_eq hr
  obtain ⟨g', hComplete, hBreaker, hFlights, hResponses⟩ :=
    step_completed rl (f := ⟨id, t, true⟩) result now hFlight
  rw [hRefines.breaker, hFinish] at hBreaker hResponses
  refine ⟨g', hComplete, hRefines.moved hr ⟨id, t, .acting effects, story ++ [.report ok]⟩ rfl
    hDistinct hStories hBreaker (fun _ h => ?_) fun _ h => ?_⟩
  · rw [hFlights]
    exact ((perm_without hFlight).symm.trans h).cons_inv
  · -- nothing was written before the report, so the response is the whole effect
    have hEarly : did story = [] :=
      did_eq_nil (hRefines.stories _ hr) fun rest hActing => by cases hActing
    rw [hResponses, response_acting, did_concat, hEarly]
    exact h.cons _

/-- Every action shows as an event of the pipeline, or not at all. -/
theorem refines_step {s' : Server} {e : Moment} (hRefines : Refines rl s g)
    (hStep : s.step rl e = some s') :
    ∃ g', run (Gateway.step rl) g (s.shows e s') = some g' ∧ Refines rl s' g' := by
  have hDistinct := distinct_step hRefines.distinct hStep
  have hStories := storiesOk_step hRefines.stories hStep
  obtain ⟨id, t, rfl, -, rfl⟩ | ⟨m, ⟨id, t, p, story⟩, b, p', a, rfl, hr, hRequest, hDoes, rfl⟩ :=
    step_cases hStep
  · -- a request that arrives shows nothing yet
    exact ⟨g, rfl, hDistinct, hStories, hRefines.breaker, hRefines.flights, hRefines.responses⟩
  · have hFlight := hRefines.flight_eq hr
    have hStory := hRefines.stories _ hr
    have hMoved := fun (g' : Gateway) (hBreaker : g'.breaker = b) =>
      hRefines.moved hr ⟨id, t, p', story ++ [a]⟩ rfl hDistinct hStories hBreaker
    cases hDoes with
    | published =>
      -- the gauges are no part of the pipeline
      exact ⟨g, rfl, hMoved g hRefines.breaker (fun _ h => h) fun _ h => h⟩
    | admitted hAllow =>
      -- the whole `begin` shows when the breaker is asked
      rw [← hRefines.breaker] at hAllow
      obtain ⟨g', hBegin, hBreaker, hFlights, hResponses⟩ :=
        step_called rl t hFlight hAllow
      refine ⟨g', ?_, hMoved g' hBreaker (fun _ h => ?_) fun _ h => ?_⟩
      · rw [Server.shows, hRequest]
        exact run_cons_eq_some.mpr ⟨g', hBegin, rfl⟩
      · rw [hFlights]
        exact h.cons _
      · rw [hResponses]
        exact h
    | refused hAllow =>
      rw [← hRefines.breaker] at hAllow
      obtain ⟨g', hBegin, hBreaker, hFlights, hResponses⟩ :=
        step_skipped rl t hFlight hAllow
      refine ⟨g', ?_, hMoved g' hBreaker (fun _ h => ?_) fun _ h => ?_⟩
      · rw [Server.shows, hRequest]
        exact run_cons_eq_some.mpr ⟨g', hBegin, rfl⟩
      · rw [hFlights]
        exact h
      · -- refused: the response is known, though not yet written
        have hEarly : did story = [] := did_eq_nil hStory fun rest hActing => by cases hActing
        rw [hResponses, response_acting, did_concat, hEarly]
        exact h.cons _
    | called =>
      exact ⟨g, rfl, hMoved g hRefines.breaker (fun _ h => h) fun _ h => h⟩
    | replied =>
      exact ⟨g, rfl, hMoved g hRefines.breaker (fun _ h => h) fun _ h => h⟩
    | failed =>
      -- the whole `complete` shows when the breaker hears of it
      obtain ⟨g', hComplete, hNext⟩ := hRefines.reported hr rfl false hDistinct hStories
      refine ⟨g', ?_, hNext⟩
      rw [Server.shows, hRequest]
      exact run_cons_eq_some.mpr ⟨g', hComplete, rfl⟩
    | decided =>
      obtain ⟨g', hComplete, hNext⟩ := hRefines.reported hr rfl true hDistinct hStories
      refine ⟨g', ?_, hNext⟩
      rw [Server.shows, hRequest]
      exact run_cons_eq_some.mpr ⟨g', hComplete, rfl⟩
    | @acted e rest =>
      -- what is written moves from the rest to what is done
      have hSame : did (story ++ [.effect e]) ++ rest = did story ++ e :: rest := by
        rw [did_concat, List.append_assoc]
        rfl
      refine ⟨g, rfl, hMoved g hRefines.breaker (fun _ h => h) fun _ h => ?_⟩
      rw [response_acting, hSame]
      exact h

end Moving

-- ---------------------------------------------------------------------------
-- Whole runs
-- ---------------------------------------------------------------------------

section Runs

variable {rl : RateLimit} {config : Breaker.Config} {events : List Moment} {s : Server}

/-- So does every run. -/
theorem refines_run (clock : ℤ)
    (hRun : run (Server.step rl) (Server.start config) events = some s) :
    ∃ g, run (Gateway.step rl) (Gateway.start config clock)
        (collect (Server.step rl) Server.shows (Server.start config) events) = some g ∧
      Refines rl s g := by
  refine run_forward_simulation (fun s g e s' hRefines => refines_step hRefines) ?_ hRun
  exact ⟨List.nodup_nil, fun _ hr => absurd hr List.not_mem_nil, rfl, .nil, .nil⟩

/-- Half-open, a probe is in flight. -/
theorem inFlight_of_halfOpen {clock : ℤ} {events : List Event} {g : Gateway}
    (hRun : run (Gateway.step rl) (Gateway.start config clock) events = some g)
    (hHalf : g.breaker.state = .halfOpen) : g.flights ≠ [] := by
  intro hIdle
  obtain ⟨y, hContract, hBreaker, hIds⟩ := keeps_contract hRun
  rw [hIdle] at hIds
  rw [← hBreaker] at hHalf
  obtain ⟨hSome, -, hCount⟩ := (Breaker.slotInv_run hContract).taken hHalf
  rw [← hCount, Breaker.System.probing, List.map_eq_nil_iff.mp hIds] at hSome
  exact absurd hSome (Nat.not_succ_le_zero 0)

/--
**The two halves of `Wrap` are atomic.** Every interleaving of the requests'
actions is a run of the pipeline: the one in which each request begins where it
asks the breaker and is answered where it reports. In the end the breaker is the
same, and so are the calls in flight and, with the effects that are still to
come, the answers. So the contract of the breaker reaches down to the actions:
with no limiter call in flight the breaker does not wait for one.
-/
theorem wrap_atomic (clock : ℤ)
    (hRun : run (Server.step rl) (Server.start config) events = some s) :
    (∃ g, run (Gateway.step rl) (Gateway.start config clock)
        (collect (Server.step rl) Server.shows (Server.start config) events) = some g ∧
      Refines rl s g) ∧
    ((∀ r ∈ s.requests, r.flight = none) → s.breaker.state ≠ .halfOpen) := by
  obtain ⟨g, hPipeline, hRefines⟩ := refines_run clock hRun
  refine ⟨⟨g, hPipeline, hRefines⟩, fun hIdle hHalf => ?_⟩
  refine inFlight_of_halfOpen hPipeline (hRefines.breaker ▸ hHalf) ?_
  exact List.Perm.eq_nil (List.filterMap_eq_nil_iff.mpr hIdle ▸ hRefines.flights)

end Runs

/-- Two requests ask the breaker one after the other and report in the other order. -/
theorem wrap_atomic_demo :
    let acme : Tenant := ⟨"acme", ⟨"free", 10, 1000, 0⟩⟩
    let moments : List Moment :=
      [.arrive 1 acme, .arrive 2 acme, .move 2 (.publish 0), .move 1 (.publish 0),
       .move 1 (.consult 1), .move 2 (.consult 2), .move 2 .call, .move 1 .call,
       .move 2 (.reply (.error .contextDone)), .move 1 (.reply (.ok ⟨true, 10, 9, 0, 100⟩)),
       .move 2 (.report 3), .move 2 .act, .move 1 (.report 4)]
    ∃ s g, run (Server.step ⟨.tokenBucket, true⟩) (Server.start (Breaker.Config.of 5 1 []))
        moments = some s ∧
      run (Gateway.step ⟨.tokenBucket, true⟩) (Gateway.start (Breaker.Config.of 5 1 []) 0)
        (collect (Server.step ⟨.tokenBucket, true⟩) Server.shows
          (Server.start (Breaker.Config.of 5 1 [])) moments) = some g ∧
      Refines ⟨.tokenBucket, true⟩ s g := by
  intro acme moments
  obtain ⟨s, hRun⟩ : ∃ s, run (Server.step ⟨.tokenBucket, true⟩)
      (Server.start (Breaker.Config.of 5 1 [])) moments = some s :=
    Option.isSome_iff_exists.mp (by decide +kernel)
  obtain ⟨g, hPipeline, hRefines⟩ := (wrap_atomic 0 hRun).1
  exact ⟨s, g, hRun, hPipeline, hRefines⟩

end RatelimitGateway.Middleware
