import Mathlib.Data.List.Basic
import Mathlib.Data.List.Chain
import Mathlib.Data.List.Induction

/-!
# Machines and their traces

A deterministic machine with answers: `step s i` answers the input `i` in
state `s` and moves to the next state. A run is a list of inputs, its `trace`
pairs every input with the answer it got, and `final` is the state it ends
in.

Results:

* `trace_append`, `final_append`  — runs compose;
* `trace_invariant_of_prefix`     — the induction over a run, packaged once:
  an invariant may speak of the whole trace so far and of the state, and a
  step may assume a condition on the inputs before it;
* `trace_invariant`               — the same where the condition relates every
  earlier input to the new one (non-decreasing clocks, distinct identifiers);
* `trace_invariant_of_chain`      — the same where it relates the last input to
  the new one;
* `trace_filter_of_simulation`    — two machines of which the second is not given
  some of the inputs, and what it answers to the others;
* `trace_eq_of_lockstep`          — two machines that give the same answers.
-/

namespace Machine

variable {σ τ ι κ ο ω : Type*}

/-- Every input of a run with the answer it got. -/
def trace (step : σ → ι → ο × σ) : σ → List ι → List (ι × ο)
  | _, [] => []
  | s, i :: is => (i, (step s i).1) :: trace step (step s i).2 is

/-- The state a run ends in. -/
def final (step : σ → ι → ο × σ) (s : σ) (is : List ι) : σ :=
  is.foldl (fun s i => (step s i).2) s

section Lemmas

variable (step : σ → ι → ο × σ) (s : σ)

@[simp] theorem trace_nil : trace step s [] = [] := rfl

@[simp] theorem trace_cons (i : ι) (is : List ι) :
    trace step s (i :: is) = (i, (step s i).1) :: trace step (step s i).2 is := rfl

@[simp] theorem final_nil : final step s [] = s := rfl

@[simp] theorem final_cons (i : ι) (is : List ι) :
    final step s (i :: is) = final step (step s i).2 is := rfl

theorem final_append (is js : List ι) :
    final step s (is ++ js) = final step (final step s is) js := by
  simp [final]

/-- A run in two parts. -/
theorem trace_append (is js : List ι) :
    trace step s (is ++ js) = trace step s is ++ trace step (final step s is) js := by
  induction is generalizing s with
  | nil => rfl
  | cons i is ih => simp [ih]

theorem final_concat (is : List ι) (i : ι) :
    final step s (is ++ [i]) = (step (final step s is) i).2 := by
  simp [final_append]

theorem trace_concat (is : List ι) (i : ι) :
    trace step s (is ++ [i]) = trace step s is ++ [(i, (step (final step s is) i).1)] := by
  simp [trace_append]

/-- A trace lists the inputs of its run in order. -/
@[simp] theorem map_fst_trace (is : List ι) : (trace step s is).map Prod.fst = is := by
  induction is generalizing s with
  | nil => rfl
  | cons i is ih => simp [ih]

@[simp] theorem length_trace (is : List ι) : (trace step s is).length = is.length := by
  rw [← List.length_map Prod.fst, map_fst_trace]

/-- A run cut short is the run of the inputs before the cut. -/
theorem take_trace (is : List ι) (n : ℕ) :
    (trace step s is).take n = trace step s (is.take n) := by
  induction is generalizing s n with
  | nil => simp
  | cons i is ih => cases n <;> simp [ih]

/-- One answer of a run. -/
theorem getElem?_trace (is : List ι) (n : ℕ) :
    (trace step s is)[n]? =
      is[n]?.map fun i => (i, (step (final step s (is.take n)) i).1) := by
  induction is generalizing s n with
  | nil => rfl
  | cons i is ih =>
    cases n with
    | zero => rfl
    | succ n => exact ih (step s i).2 n

/-- Two machines that take every step of a run alike. -/
theorem trace_congr {step' : σ → ι → ο × σ} {is : List ι}
    (h : ∀ i ∈ is, ∀ s, step s i = step' s i) : trace step s is = trace step' s is := by
  induction is generalizing s with
  | nil => rfl
  | cons i is ih =>
    rw [List.forall_mem_cons] at h
    rw [trace_cons, trace_cons, h.1, ih _ h.2]

/-- A machine whose inputs carry more than it reads. -/
theorem map_trace (f : κ → ι) (ks : List κ) :
    (trace (fun s k => step s (f k)) s ks).map (fun x => (f x.1, x.2)) =
      trace step s (ks.map f) := by
  induction ks generalizing s with
  | nil => rfl
  | cons k ks ih => simp [ih]

/-- A step of a run is taken from the state that the inputs before it leave. -/
theorem trace_split {is : List ι} {pre post : List (ι × ο)} {x : ι × ο}
    (h : trace step s is = pre ++ x :: post) :
    pre = trace step s (pre.map Prod.fst) ∧
      x.2 = (step (final step s (pre.map Prod.fst)) x.1).1 := by
  have hInputs : is = pre.map Prod.fst ++ x.1 :: post.map Prod.fst := by
    rw [← map_fst_trace step s is, h, List.map_append, List.map_cons]
  rw [hInputs, trace_append, trace_cons] at h
  obtain ⟨hPre, hRest⟩ := List.append_inj h (by simp)
  refine ⟨hPre.symm, ?_⟩
  rw [← (List.cons.inj hRest).1]

theorem fst_mem_of_mem_trace {is : List ι} {x : ι × ο} (hx : x ∈ trace step s is) :
    x.1 ∈ is := by
  rw [← map_fst_trace step s is]
  exact List.mem_map_of_mem hx

end Lemmas

/-- What holds of every element of a list and the elements before it, after one more. -/
theorem forall_getElem_concat {P : List ι → ι → Prop} {xs : List ι} {x : ι}
    (hBefore : ∀ j (hj : j < xs.length), P (xs.take j) xs[j]) (hLast : P xs x) :
    ∀ j (hj : j < (xs ++ [x]).length), P ((xs ++ [x]).take j) (xs ++ [x])[j] := by
  intro j hj
  rcases Nat.lt_or_ge j xs.length with hlt | hge
  · rw [List.getElem_append_left hlt, List.take_append_of_le_length hlt.le]
    exact hBefore j hlt
  · obtain rfl : j = xs.length := by
      rw [List.length_append, List.length_singleton] at hj
      omega
    rw [List.getElem_concat_length rfl, List.take_left]
    exact hLast

/-! ## Induction over a run -/

/--
**Trace invariant.** An invariant of the trace so far and the state, true of
the empty run and kept by every step, is true of every run. A step may assume
a condition `C` on the inputs before it and its own input.
-/
theorem trace_invariant_of_prefix {step : σ → ι → ο × σ} {C : List ι → ι → Prop}
    {P : List (ι × ο) → σ → Prop} {s₀ : σ}
    (hInit : P [] s₀)
    (hStep : ∀ tr s i, C (tr.map Prod.fst) i → P tr s →
      P (tr ++ [(i, (step s i).1)]) (step s i).2)
    {is : List ι} (hCond : ∀ pre i post, is = pre ++ i :: post → C pre i) :
    P (trace step s₀ is) (final step s₀ is) := by
  induction is using List.reverseRecOn with
  | nil => exact hInit
  | append_singleton is i ih =>
    rw [trace_concat, final_concat]
    refine hStep _ _ _ ?_ (ih fun pre j post hEq => ?_)
    · rw [map_fst_trace]
      exact hCond is i [] rfl
    · exact hCond pre j (post ++ [i]) (by simp [hEq])

/-- The invariant rule for runs whose inputs are pairwise related by `r`. -/
theorem trace_invariant {step : σ → ι → ο × σ} {r : ι → ι → Prop}
    {P : List (ι × ο) → σ → Prop} {s₀ : σ}
    (hInit : P [] s₀)
    (hStep : ∀ tr s i, (∀ x ∈ tr, r x.1 i) → P tr s →
      P (tr ++ [(i, (step s i).1)]) (step s i).2)
    {is : List ι} (hPair : is.Pairwise r) :
    P (trace step s₀ is) (final step s₀ is) := by
  refine trace_invariant_of_prefix (C := fun pre i => ∀ j ∈ pre, r j i) hInit ?_ ?_
  · intro tr s i hRel
    exact hStep tr s i fun x hx => hRel x.1 (List.mem_map_of_mem hx)
  · intro pre i post hEq j hj
    rw [hEq, List.pairwise_append] at hPair
    exact hPair.2.2 j hj i (by simp)

/-- The invariant rule for runs in which every input follows on the last by `r`. -/
theorem trace_invariant_of_chain {step : σ → ι → ο × σ} {r : ι → ι → Prop}
    {P : List (ι × ο) → σ → Prop} {s₀ : σ}
    (hInit : P [] s₀)
    (hStep : ∀ tr s i, (∀ x ∈ tr.getLast?, r x.1 i) → P tr s →
      P (tr ++ [(i, (step s i).1)]) (step s i).2)
    {is : List ι} (hChain : is.IsChain r) :
    P (trace step s₀ is) (final step s₀ is) := by
  refine trace_invariant_of_prefix (C := fun pre i => ∀ j ∈ pre.getLast?, r j i) hInit ?_ ?_
  · intro tr s i hRel
    refine hStep tr s i fun x hx => hRel x.1 ?_
    rw [List.getLast?_map]
    exact Option.mem_map_of_mem Prod.fst hx
  · intro pre i post hEq j hj
    rw [hEq, List.isChain_append] at hChain
    exact hChain.2.2 j hj i rfl

/-- The invariant rule for runs without a condition on the inputs. -/
theorem trace_invariant' {step : σ → ι → ο × σ} {P : List (ι × ο) → σ → Prop} {s₀ : σ}
    (hInit : P [] s₀)
    (hStep : ∀ tr s i, P tr s → P (tr ++ [(i, (step s i).1)]) (step s i).2)
    (is : List ι) : P (trace step s₀ is) (final step s₀ is) :=
  trace_invariant (r := fun _ _ => True) hInit (fun tr s i _ h => hStep tr s i h)
    (List.pairwise_of_forall fun _ _ => trivial)

/-! ## Two machines on one run -/

/--
**Simulation with inputs left out.** The second machine is given only the
inputs that `p` keeps. When an input that both are given is answered alike
and keeps them related, and an input that only the first is given, and answers
by `D`, keeps them related too, then the second machine answers what it is
given as the first one does.
-/
theorem trace_filter_of_simulation {step : σ → ι → ο × σ} {step' : τ → ι → ο × τ}
    {p : ι → Bool} {f : ο → ω} {C : List ι → ι → Prop} {D : ι → ο → Prop}
    {R : List ι → σ → τ → Prop} {s₀ : σ} {t₀ : τ} (hInit : R [] s₀ t₀)
    (hBoth : ∀ pre s t i, C pre i → R pre s t → p i = true →
      f (step s i).1 = f (step' t i).1 ∧ R (pre ++ [i]) (step s i).2 (step' t i).2)
    (hFirst : ∀ pre s t i, C pre i → R pre s t → p i = false → D i (step s i).1 →
      R (pre ++ [i]) (step s i).2 t)
    {is : List ι} (hCond : ∀ pre i post, is = pre ++ i :: post → C pre i)
    (hDropped : ∀ x ∈ trace step s₀ is, p x.1 = false → D x.1 x.2) :
    ((trace step s₀ is).filter fun x => p x.1).map (fun x => (x.1, f x.2)) =
      (trace step' t₀ (is.filter p)).map fun x => (x.1, f x.2) := by
  suffices hBothRuns : R is (final step s₀ is) (final step' t₀ (is.filter p)) ∧
      ((trace step s₀ is).filter fun x => p x.1).map (fun x => (x.1, f x.2)) =
        (trace step' t₀ (is.filter p)).map fun x => (x.1, f x.2) from hBothRuns.2
  induction is using List.reverseRecOn with
  | nil => exact ⟨hInit, rfl⟩
  | append_singleton is i ih =>
    rw [trace_concat] at hDropped
    obtain ⟨hRel, hSame⟩ := ih
      (fun pre j post hEq => hCond pre j (post ++ [i]) (by simp [hEq]))
      (fun x hx => hDropped x (List.mem_append_left _ hx))
    have hHere := hCond is i [] rfl
    rw [trace_concat, final_concat]
    cases hKeep : p i with
    | true =>
      -- both runs take the step
      obtain ⟨hAnswer, hNext⟩ := hBoth is _ _ i hHere hRel hKeep
      have hInputs : (is ++ [i]).filter p = is.filter p ++ [i] := by simp [hKeep]
      rw [hInputs, final_concat, trace_concat, List.filter_append, List.map_append, hSame]
      exact ⟨hNext, by simp [hKeep, hAnswer]⟩
    | false =>
      -- only the first run takes it, and its answer is one of those left out
      have hAnswer := hDropped (i, (step (final step s₀ is) i).1)
        (List.mem_append_right _ (List.mem_singleton_self _)) hKeep
      have hInputs : (is ++ [i]).filter p = is.filter p := by simp [hKeep]
      rw [hInputs, List.filter_append, List.map_append, hSame]
      exact ⟨hFirst is _ _ i hHere hRel hKeep hAnswer, by simp [hKeep]⟩

/-- **Lockstep.** Two machines that every input keeps related and that answer
it alike have one trace. -/
theorem trace_eq_of_lockstep {step : σ → ι → ο × σ} {step' : τ → ι → ο × τ}
    {C : List ι → ι → Prop} {R : List ι → σ → τ → Prop} {s₀ : σ} {t₀ : τ} (hInit : R [] s₀ t₀)
    (hStep : ∀ pre s t i, C pre i → R pre s t →
      (step s i).1 = (step' t i).1 ∧ R (pre ++ [i]) (step s i).2 (step' t i).2)
    {is : List ι} (hCond : ∀ pre i post, is = pre ++ i :: post → C pre i) :
    trace step s₀ is = trace step' t₀ is := by
  have hAll := trace_filter_of_simulation (p := fun _ => true) (f := id)
    (D := fun _ _ => True) hInit (fun pre s t i hC hR _ => hStep pre s t i hC hR)
    (fun _ _ _ _ _ _ hKeep => absurd hKeep nofun) hCond (fun _ _ _ => trivial)
  simpa using hAll

end Machine
