import Mathlib

/-!
# What the proxy's latency metric says was sent

Translated from `internal/proxy`: the writer that records the status of the
wrapped handler, and `Observe`, which reports it. The writer underneath it is
net/http's: the first final status fixes the response, and a body or a flush
fixes an implicit 200 when none has been given.

The recorder keeps the last status it is told, net/http the first final one,
and a handler that panics is not reported at all.

* `observe_records_iff` — the handlers for which the report is right.
-/

namespace RatelimitGateway.Proxy

-- ---------------------------------------------------------------------------
-- net/http
-- ---------------------------------------------------------------------------

/-- A status code; net/http panics when it is told any other. -/
structure StatusCode where
  code : ℕ
  valid : 100 ≤ code ∧ code ≤ 999
  deriving DecidableEq

/-- What a handler does with its writer. -/
inductive Action where
  | writeHeader (code : StatusCode)
  | write
  | flush
  deriving DecidableEq

inductive Ending where
  | returns
  | panics
  deriving DecidableEq

/-- The writer of net/http: the status of the response, once it is fixed. -/
structure ResponseWriter where
  status : Option ℕ
  deriving DecidableEq

namespace ResponseWriter

def writeHeader (w : ResponseWriter) (code : ℕ) : ResponseWriter :=
  if w.status ≠ none then w
  -- Informational responses are sent and fix nothing.
  else if 100 ≤ code ∧ code ≤ 199 then w
  else ⟨some code⟩

/-- The first `Write` or `Flush` sends the headers, if they were not sent. -/
def sendHeader (w : ResponseWriter) : ResponseWriter :=
  if w.status ≠ none then w else ⟨some 200⟩

end ResponseWriter

-- ---------------------------------------------------------------------------
-- proxy.go
-- ---------------------------------------------------------------------------

/-- `statusRecorder` captures the status code written by a downstream handler. -/
structure StatusRecorder where
  responseWriter : ResponseWriter
  status : ℕ
  deriving DecidableEq

namespace StatusRecorder

def writeHeader (s : StatusRecorder) (code : ℕ) : StatusRecorder where
  status := code
  responseWriter := s.responseWriter.writeHeader code

/-- `Write` records the implicit 200. -/
def write (s : StatusRecorder) : StatusRecorder where
  status := if s.status = 0 then 200 else s.status
  responseWriter := s.responseWriter.sendHeader

/-- A `Flush` goes to the writer that `Unwrap` exposes. -/
def flush (s : StatusRecorder) : StatusRecorder :=
  { s with responseWriter := s.responseWriter.sendHeader }

def act (s : StatusRecorder) : Action → StatusRecorder
  | .writeHeader c => s.writeHeader c.code
  | .write => s.write
  | .flush => s.flush

end StatusRecorder

/-- The handler runs on a new recorder around a new writer. -/
def serve (actions : List Action) : StatusRecorder :=
  actions.foldl StatusRecorder.act ⟨⟨none⟩, 0⟩

/-- `Observe`: the statuses that `record` is called with. A panic of the handler
passes through it. -/
def observe (actions : List Action) : Ending → List String
  | .panics => []
  | .returns =>
    let status := (serve actions).status
    [(if status = 0 then 200 else status).repr]

-- ---------------------------------------------------------------------------
-- The status that is sent
-- ---------------------------------------------------------------------------

/-- The action fixes the status of the response, if it is the first to. -/
def Action.fixes : Action → Option ℕ
  | .writeHeader c => if 100 ≤ c.code ∧ c.code ≤ 199 then none else some c.code
  | .write => some 200
  | .flush => some 200

/-- The status that the client is sent: that of the first action that fixes one,
and 200 when none does. -/
def sentStatus (actions : List Action) : ℕ := (actions.findSome? Action.fixes).getD 200

/-- The status of the last `WriteHeader`. -/
def lastHeader (actions : List Action) : Option ℕ :=
  (actions.filterMap fun
    | .writeHeader c => some c.code
    | _ => none).getLast?

/-- One action, on the writer underneath. -/
theorem act_responseWriter (s : StatusRecorder) (a : Action) :
    (s.act a).responseWriter.status = s.responseWriter.status.or a.fixes := by
  obtain ⟨⟨fixed⟩, status⟩ := s
  cases a with
  | writeHeader c =>
    simp only [StatusRecorder.act, StatusRecorder.writeHeader, ResponseWriter.writeHeader,
      Action.fixes]
    cases fixed with
    | none => by_cases hInformational : 100 ≤ c.code ∧ c.code ≤ 199 <;> simp [hInformational]
    | some fixed => simp
  | write =>
    simp only [StatusRecorder.act, StatusRecorder.write, ResponseWriter.sendHeader, Action.fixes]
    cases fixed <;> simp
  | flush =>
    simp only [StatusRecorder.act, StatusRecorder.flush, ResponseWriter.sendHeader, Action.fixes]
    cases fixed <;> simp

/-- The first action that fixes a status decides it. -/
theorem foldl_responseWriter (s : StatusRecorder) (actions : List Action) :
    (actions.foldl StatusRecorder.act s).responseWriter.status =
      s.responseWriter.status.or (actions.findSome? Action.fixes) := by
  induction actions generalizing s with
  | nil => simp
  | cons a actions ih =>
    rw [List.foldl_cons, ih, act_responseWriter, List.findSome?_cons]
    cases a.fixes <;> simp

theorem serve_sent (actions : List Action) :
    (serve actions).responseWriter.status.getD 200 = sentStatus actions := by
  rw [serve, foldl_responseWriter]
  rfl

/-- Without a `WriteHeader` it is 200. -/
theorem sentStatus_of_no_header {actions : List Action} (h : lastHeader actions = none) :
    sentStatus actions = 200 := by
  have hNone : ∀ c, Action.writeHeader c ∉ actions := by
    intro c hc
    rw [lastHeader, List.getLast?_eq_none_iff, List.filterMap_eq_nil_iff] at h
    exact absurd (h _ hc) (by simp)
  unfold sentStatus
  cases hFirst : actions.findSome? Action.fixes with
  | none => rfl
  | some status =>
    obtain ⟨a, ha, hStatus⟩ := List.exists_of_findSome?_eq_some hFirst
    cases a with
    | writeHeader c => exact absurd ha (hNone c)
    | write => exact (Option.some.inj hStatus).symm
    | flush => exact (Option.some.inj hStatus).symm

-- ---------------------------------------------------------------------------
-- The status that is recorded
-- ---------------------------------------------------------------------------

/-- The recorder keeps the status of the last `WriteHeader`. -/
theorem serve_recorded (actions : List Action) :
    (if (serve actions).status = 0 then 200 else (serve actions).status) =
      (lastHeader actions).getD 200 := by
  induction actions using List.reverseRecOn with
  | nil => rfl
  | append_singleton actions a ih =>
    have hServe : serve (actions ++ [a]) = (serve actions).act a := by
      simp [serve]
    rw [hServe]
    cases a with
    | writeHeader c =>
      -- the recorder keeps the last code, and no code is 0
      have hLast : lastHeader (actions ++ [.writeHeader c]) = some c.code := by
        simp [lastHeader]
      have hValid := c.valid.1
      rw [hLast]
      exact if_neg (by show c.code ≠ 0; omega)
    | write =>
      -- a Write sets 200 only if there is no code yet
      have hLast : lastHeader (actions ++ [.write]) = lastHeader actions := by
        simp [lastHeader]
      have hStatus : ((serve actions).act .write).status =
          if (serve actions).status = 0 then 200 else (serve actions).status := rfl
      rw [hLast, ← ih, hStatus]
      generalize (serve actions).status = status
      by_cases hZero : status = 0 <;> simp [hZero]
    | flush =>
      have hLast : lastHeader (actions ++ [.flush]) = lastHeader actions := by
        simp [lastHeader]
      rw [hLast, ← ih]
      rfl

/--
**What is reported was sent.** For every sequence of actions of the handler and
either ending: the writer underneath sends the status of the first action that
fixes one, and `Observe` reports this status, and once, exactly when the
handler returns and its last `WriteHeader`, if it makes any, carries that
status.
-/
theorem observe_records_iff (actions : List Action) (ending : Ending) :
    (serve actions).responseWriter.status.getD 200 = sentStatus actions ∧
      (observe actions ending = [(sentStatus actions).repr] ↔
        ending = .returns ∧
          ∀ code, lastHeader actions = some code → code = sentStatus actions) := by
  refine ⟨serve_sent actions, ?_⟩
  cases ending with
  | panics =>
    -- record is called after ServeHTTP and not deferred
    refine iff_of_false (fun h => ?_) fun h => ?_
    · cases h
    · cases h.1
  | returns =>
    have hRecorded := serve_recorded actions
    unfold observe
    dsimp only
    rw [hRecorded, List.singleton_inj, Nat.repr_inj]
    cases hLast : lastHeader actions with
    | none =>
      -- no WriteHeader at all: 200 is sent and recorded
      refine iff_of_true (sentStatus_of_no_header hLast).symm ⟨rfl, fun code hCode => ?_⟩
      cases hCode
    | some code =>
      constructor
      · intro hSame
        refine ⟨rfl, fun code' hCode => ?_⟩
        rw [← Option.some.inj hCode]
        exact hSame
      · intro hSame
        exact hSame.2 code rfl

/-- The proxy aborts a response whose body could not be copied: the client has
been sent a 200, and nothing is recorded. -/
theorem observe_drops_aborted :
    ¬ observe [.writeHeader ⟨200, by decide⟩, .write] .panics =
      [(sentStatus [.writeHeader ⟨200, by decide⟩, .write]).repr] := by
  decide

end RatelimitGateway.Proxy
