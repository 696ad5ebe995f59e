import Mathlib.Data.List.Basic
import Mathlib.Data.List.Induction

/-!
# Labelled transition systems

`step s e` is the state after the event `e`, or nothing when the event cannot
happen in `s`. A run is a list of events each of which can happen;
`EveryStep R` says that `R` holds of every step a list of events takes.

Results:

* `run_append`, `run_concat`    — runs compose;
* `everyStep_iff_prefixes`      — every step is the last one of a prefix;
* `run_invariant`               — induction over a run, for an invariant that
  may speak of the events so far;
* `everyStep_of_invariant`      — what an invariant gives at every step, when
  every step meets a condition;
* `everyStep_iff_of_invariant`  — the same as an equivalence with the
  condition;
* `collect_concat`              — what the steps of a run leave, one after the
  other;
* `run_forward_simulation`,
  `run_simulation`              — the runs of one system seen as runs of
  another.
-/

namespace Transitions

variable {σ τ ε δ : Type*}

/-- The state a list of events leads to. -/
def run (step : σ → ε → Option σ) : σ → List ε → Option σ
  | s, [] => some s
  | s, e :: es => (step s e).bind fun s' => run step s' es

/-- `R` holds of every step that a list of events takes. -/
def EveryStep (step : σ → ε → Option σ) (R : σ → ε → σ → Prop) : σ → List ε → Prop
  | _, [] => True
  | s, e :: es => ∀ s', step s e = some s' → R s e s' ∧ EveryStep step R s' es

/-- The states a run can reach from `s₀`. -/
def Reachable (step : σ → ε → Option σ) (s₀ s : σ) : Prop :=
  ∃ es, run step s₀ es = some s

/-- What the steps of a list of events leave, in order. -/
def collect (step : σ → ε → Option σ) (f : σ → ε → σ → List δ) : σ → List ε → List δ
  | _, [] => []
  | s, e :: es => ((step s e).map fun s' => f s e s' ++ collect step f s' es).getD []

section Runs

variable {step : σ → ε → Option σ}

theorem run_cons_eq_some {s s' : σ} {e : ε} {es : List ε} :
    run step s (e :: es) = some s' ↔ ∃ m, step s e = some m ∧ run step m es = some s' := by
  simp [run, Option.bind_eq_some_iff]

/-- A run in two parts. -/
theorem run_append {s : σ} {es fs : List ε} :
    run step s (es ++ fs) = (run step s es).bind fun m => run step m fs := by
  induction es generalizing s with
  | nil => rfl
  | cons e es ih =>
    show (step s e).bind _ = ((step s e).bind _).bind _
    rw [Option.bind_assoc]
    congr 1
    funext m
    exact ih

theorem run_trans {s m s' : σ} {es fs : List ε} (hFirst : run step s es = some m)
    (hThen : run step m fs = some s') : run step s (es ++ fs) = some s' := by
  rw [run_append, hFirst]
  exact hThen

theorem run_concat_eq_some {s s' : σ} {es : List ε} {e : ε} :
    run step s (es ++ [e]) = some s' ↔ ∃ m, run step s es = some m ∧ step m e = some s' := by
  rw [run_append, Option.bind_eq_some_iff]
  simp [run]

/-- The steps of a run that is continued. -/
theorem everyStep_concat {R : σ → ε → σ → Prop} {s : σ} {es : List ε} {e : ε} :
    EveryStep step R s (es ++ [e]) ↔ EveryStep step R s es ∧
      ∀ m s', run step s es = some m → step m e = some s' → R m e s' := by
  induction es generalizing s with
  | nil =>
    simp only [List.nil_append, EveryStep, run, Option.some.injEq, and_true, true_and]
    exact ⟨fun hAll m s' hm => hm ▸ hAll s', fun hAll s' => hAll s s' rfl⟩
  | cons f es ih =>
    rw [List.cons_append, EveryStep, EveryStep]
    constructor
    · intro hAll
      refine ⟨fun m hm => ⟨(hAll m hm).1, (ih.mp (hAll m hm).2).1⟩, fun m s' hRun hStep => ?_⟩
      obtain ⟨n, hn, hRest⟩ := run_cons_eq_some.mp hRun
      exact (ih.mp (hAll n hn).2).2 m s' hRest hStep
    · rintro ⟨hOld, hNew⟩ m hm
      refine ⟨(hOld m hm).1, ih.mpr ⟨(hOld m hm).2, fun n s' hRun hStep => ?_⟩⟩
      exact hNew n s' (run_cons_eq_some.mpr ⟨m, hm, hRun⟩) hStep

/-- The steps of a run in two parts. -/
theorem everyStep_append {R : σ → ε → σ → Prop} {s : σ} {es fs : List ε} :
    EveryStep step R s (es ++ fs) ↔ EveryStep step R s es ∧
      ∀ m, run step s es = some m → EveryStep step R m fs := by
  induction es generalizing s with
  | nil => simp [EveryStep, run]
  | cons e es ih =>
    simp only [List.cons_append, EveryStep, ih, run_cons_eq_some]
    constructor
    · intro h
      exact ⟨fun s' hStep => ⟨(h s' hStep).1, (h s' hStep).2.1⟩,
        fun m ⟨s', hStep, hRest⟩ => (h s' hStep).2.2 m hRest⟩
    · rintro ⟨hFirst, hThen⟩ s' hStep
      exact ⟨(hFirst s' hStep).1, (hFirst s' hStep).2, fun m hRest => hThen m ⟨s', hStep, hRest⟩⟩

/-- A property of every step, step by step. -/
theorem everyStep_iff_prefixes {R : σ → ε → σ → Prop} {s : σ} {es : List ε} :
    EveryStep step R s es ↔ ∀ pre e m s', pre ++ [e] <+: es → run step s pre = some m →
      step m e = some s' → R m e s' := by
  induction es using List.reverseRecOn with
  | nil =>
    refine iff_of_true trivial fun pre e m s' hPrefix => ?_
    exact absurd (List.prefix_nil.mp hPrefix) (List.append_ne_nil_of_right_ne_nil _ nofun)
  | append_singleton es e ih =>
    rw [everyStep_concat, ih]
    constructor
    · rintro ⟨hOld, hNew⟩ pre e' m s' hPrefix hRun hStep
      -- the last step, or one before it
      rcases List.prefix_concat_iff.mp hPrefix with hAll | hBefore
      · obtain ⟨rfl, hLast⟩ := List.append_inj' hAll rfl
        obtain rfl := List.singleton_injective hLast
        exact hNew m s' hRun hStep
      · exact hOld pre e' m s' hBefore hRun hStep
    · intro hAll
      refine ⟨fun pre e' m s' hPrefix => ?_, fun m s' => hAll es e m s' (List.prefix_refl _)⟩
      exact hAll pre e' m s' (hPrefix.trans (List.prefix_append _ _))

/-- A property of every step of a run can be checked step by step. -/
instance EveryStep.decidable {R : σ → ε → σ → Prop} [∀ s e s', Decidable (R s e s')] :
    ∀ s es, Decidable (EveryStep step R s es)
  | _, [] => .isTrue trivial
  | s, e :: es =>
    match hStep : step s e with
    | none => .isTrue fun s' hSome => by simp [hStep] at hSome
    | some m =>
      have := EveryStep.decidable (R := R) m es
      decidable_of_iff (R s e m ∧ EveryStep step R m es)
        ⟨fun h s' hSome => Option.some.inj (hStep.symm.trans hSome) ▸ h, fun h => h m hStep⟩

/-- The first step leaves its part first. -/
theorem collect_cons {f : σ → ε → σ → List δ} {s m : σ} {es : List ε} {e : ε}
    (hStep : step s e = some m) :
    collect step f s (e :: es) = f s e m ++ collect step f m es := by
  rw [collect, hStep]
  rfl

/-- The last step leaves its part last. -/
theorem collect_concat {f : σ → ε → σ → List δ} {s m s' : σ} {es : List ε} {e : ε}
    (hRun : run step s es = some m) (hStep : step m e = some s') :
    collect step f s (es ++ [e]) = collect step f s es ++ f m e s' := by
  induction es generalizing s with
  | nil =>
    obtain rfl : s = m := Option.some.inj hRun
    simp [collect, hStep]
  | cons e' es ih =>
    obtain ⟨n, hn, hRest⟩ := run_cons_eq_some.mp hRun
    rw [List.cons_append, collect_cons hn, collect_cons hn, ih hRest, List.append_assoc]

/-! ## Invariants -/

/--
**Run invariant.** An invariant of the events so far and the state, true of
the empty run and kept by every step that meets the condition `C`, is true
after every run whose steps meet `C`.
-/
theorem run_invariant {C : σ → ε → σ → Prop} {P : List ε → σ → Prop} {s₀ : σ}
    (hInit : P [] s₀)
    (hStep : ∀ es s e s', run step s₀ es = some s → P es s → step s e = some s' → C s e s' →
      P (es ++ [e]) s')
    {es : List ε} {s : σ} (hRun : run step s₀ es = some s) (hC : EveryStep step C s₀ es) :
    P es s := by
  induction es using List.reverseRecOn generalizing s with
  | nil =>
    obtain rfl : s₀ = s := Option.some.inj hRun
    exact hInit
  | append_singleton es e ih =>
    obtain ⟨m, hm, hLast⟩ := run_concat_eq_some.mp hRun
    obtain ⟨hOld, hNew⟩ := everyStep_concat.mp hC
    exact hStep es m e s hm (ih hm hOld) hLast (hNew m s hm hLast)

/-- What an invariant gives at every step of a run whose steps meet `C`. -/
theorem everyStep_of_invariant {C R : σ → ε → σ → Prop} {I : σ → Prop}
    (hStep : ∀ s e s', I s → step s e = some s' → C s e s' → I s' ∧ R s e s')
    {s : σ} (hInit : I s) {es : List ε} (hC : EveryStep step C s es) :
    EveryStep step R s es := by
  induction es generalizing s with
  | nil => exact trivial
  | cons e es ih =>
    intro s' hs'
    obtain ⟨hHere, hRest⟩ := hC s' hs'
    obtain ⟨hNext, hR⟩ := hStep s e s' hInit hs' hHere
    exact ⟨hR, ih hNext hRest⟩

/-- Two properties of steps that agree wherever an invariant holds. -/
theorem everyStep_iff_of_invariant {C R : σ → ε → σ → Prop} {I : σ → Prop}
    (hKept : ∀ s e s', I s → step s e = some s' → I s')
    (hIff : ∀ s e s', I s → step s e = some s' → (R s e s' ↔ C s e s'))
    {s : σ} (hInit : I s) {es : List ε} :
    EveryStep step R s es ↔ EveryStep step C s es :=
  ⟨everyStep_of_invariant (fun s e s' hI hs hR =>
      ⟨hKept s e s' hI hs, (hIff s e s' hI hs).mp hR⟩) hInit,
    everyStep_of_invariant (fun s e s' hI hs hC =>
      ⟨hKept s e s' hI hs, (hIff s e s' hI hs).mpr hC⟩) hInit⟩

theorem everyStep_true {s : σ} {es : List ε} : EveryStep step (fun _ _ _ => True) s es := by
  induction es generalizing s with
  | nil => exact trivial
  | cons e es ih => exact fun s' _ => ⟨trivial, ih⟩

/-- An invariant that every step keeps holds of every reachable state. -/
theorem reachable_invariant {I : σ → Prop} {s₀ s : σ} (hInit : I s₀)
    (hStep : ∀ s e s', I s → step s e = some s' → I s') (hReach : Reachable step s₀ s) : I s := by
  obtain ⟨es, hRun⟩ := hReach
  exact run_invariant (P := fun _ => I) (C := fun _ _ _ => True) hInit
    (fun _ s e s' _ hI hs _ => hStep s e s' hI hs) hRun everyStep_true

end Runs

/-! ## Simulation -/

/-- A simulation, one step at a time: what a step shows is a run of the other
system, so what a run shows, one step after the other, is a run of it too. -/
theorem run_forward_simulation {step : σ → ε → Option σ} {step' : τ → δ → Option τ}
    {shows : σ → ε → σ → List δ} {R : σ → τ → Prop}
    (hStep : ∀ s t e s', R s t → step s e = some s' →
      ∃ t', run step' t (shows s e s') = some t' ∧ R s' t')
    {s s' : σ} {t : τ} (hRel : R s t) {es : List ε} (hRun : run step s es = some s') :
    ∃ t', run step' t (collect step shows s es) = some t' ∧ R s' t' := by
  induction es generalizing s t with
  | nil =>
    obtain rfl : s = s' := Option.some.inj hRun
    exact ⟨t, rfl, hRel⟩
  | cons e es ih =>
    obtain ⟨m, hm, hRest⟩ := run_cons_eq_some.mp hRun
    obtain ⟨n, hn, hNext⟩ := hStep s t e m hRel hm
    obtain ⟨t', ht', hEnd⟩ := ih hNext hRest
    refine ⟨t', ?_, hEnd⟩
    rw [collect_cons hm, run_append, hn]
    exact ht'

/-- What a step shows may depend on its event alone. -/
theorem collect_view {step : σ → ε → Option σ} {view : ε → Option δ} {s s' : σ} {es : List ε}
    (hRun : run step s es = some s') :
    collect step (fun _ e _ => (view e).toList) s es = es.filterMap view := by
  induction es generalizing s with
  | nil => rfl
  | cons e es ih =>
    obtain ⟨m, hm, hRest⟩ := run_cons_eq_some.mp hRun
    rw [collect_cons hm, ih hRest, List.filterMap_cons]
    cases view e <;> rfl

/-- Every run of one system is a run of another that sees only some of its
events. -/
theorem run_simulation {step : σ → ε → Option σ} {step' : τ → δ → Option τ}
    {view : ε → Option δ} {R : σ → τ → Prop}
    (hSilent : ∀ s t e s', R s t → step s e = some s' → view e = none → R s' t)
    (hSeen : ∀ s t e s' d, R s t → step s e = some s' → view e = some d →
      ∃ t', step' t d = some t' ∧ R s' t')
    {s s' : σ} {t : τ} (hRel : R s t) {es : List ε} (hRun : run step s es = some s') :
    ∃ t', run step' t (es.filterMap view) = some t' ∧ R s' t' := by
  rw [← collect_view hRun]
  refine run_forward_simulation (fun s t e s' hRel hStep => ?_) hRel hRun
  cases hView : view e with
  | none => exact ⟨t, rfl, hSilent s t e s' hRel hStep hView⟩
  | some d =>
    obtain ⟨t', ht', hNext⟩ := hSeen s t e s' d hRel hStep hView
    exact ⟨t', run_cons_eq_some.mpr ⟨t', ht', rfl⟩, hNext⟩

end Transitions
