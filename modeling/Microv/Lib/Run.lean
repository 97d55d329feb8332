import Mathlib.Logic.Relation

/-!
# Guarded Runs

Runs of a system whose steps are labelled by events, all of whose events meet
a condition in the state they occur in.

A property that holds only as long as every event is well behaved is a
property of such runs: it is enough that it holds at the start and that an
event meeting the condition keeps it.

Where it matters which events there were, a run carries the list of them. A
part of a system that takes a few steps of its own for each step of the whole
has a run of its own, whose events are the whole's, one by one replaced by
those few (`Trace.project`).

A step relation is often right only as long as an event stays within bounds,
and beyond them the system may do anything. `Guarded` is that system. A run of
it whose events all stay within bounds is a run of the step relation.

## Main definitions

* `Run`: A run whose events meet a condition.
* `Guarded`: A system known only within bounds.
* `Bounded`: The same, as long as it is within them.
* `Trace`: A run with the list of its events.

## Theorems

* `Run.invariant`: What every admitted step keeps holds at the end.
* `Run.mono`: A stronger condition admits fewer runs.
* `Run.trans`: Runs one after the other.
* `Run.single`: One admitted step is a run.
* `Run.guarded`, `Run.within`: Runs of a system and of its guarded form.
* `Trace.trans`: The same, with the events.
* `Trace.project`: Steps that are runs of a part make runs of the part.
* `Trace.unique`: A run is determined by its events.
-/

namespace Microv

/-- A run of `step` all of whose events meet `C` where they occur. -/
inductive Run {σ ε : Type*} (step : ε → σ → σ → Prop) (C : σ → ε → Prop) : σ → σ → Prop where
  | refl (s : σ) : Run step C s s
  | tail {s t u : σ} (e : ε) : Run step C s t → C t e → step e t u → Run step C s u

section

variable {σ ε : Type*} {step : ε → σ → σ → Prop} {C C' : σ → ε → Prop} {s t : σ}

theorem Run.invariant {P : σ → Prop} (h : Run step C s t) (h0 : P s)
    (hstep : ∀ t e u, P t → C t e → step e t u → P u) : P t := by
  induction h with
  | refl => exact h0
  | tail e _ hc hs ih => exact hstep _ e _ ih hc hs

theorem Run.mono (h : Run step C s t) (hC : ∀ s e, C s e → C' s e) : Run step C' s t := by
  induction h with
  | refl => exact .refl _
  | tail e _ hc hs ih => exact .tail e ih (hC _ _ hc) hs

theorem Run.trans {u : σ} (h : Run step C s t) (h' : Run step C t u) : Run step C s u := by
  induction h' with
  | refl => exact h
  | tail e _ hc hs ih => exact .tail e ih hc hs

theorem Run.single (e : ε) (hc : C s e) (hs : step e s t) : Run step C s t :=
  .tail e (.refl s) hc hs

/-- `step` where the event meets `D`, and anything where it does not. -/
def Guarded (step : ε → σ → σ → Prop) (D : σ → ε → Prop) (e : ε) (s s' : σ) : Prop :=
  D s e → step e s s'

theorem Run.guarded (D : σ → ε → Prop) (h : Run step C s t) : Run (Guarded step D) C s t := by
  induction h with
  | refl => exact .refl _
  | tail e _ hc hs ih => exact .tail e ih hc fun _ => hs

/-- A run that stays within bounds is one of the step relation. -/
theorem Run.within {D : σ → ε → Prop} (h : Run (Guarded step D) C s t)
    (hC : ∀ s e, C s e → D s e) : Run step C s t := by
  induction h with
  | refl => exact .refl _
  | tail e _ hc hs ih => exact .tail e ih hc (hs (hC _ _ hc))

/-- `step`, as long as the event meets `D`. -/
def Bounded (step : ε → σ → σ → Prop) (D : σ → ε → Prop) (e : ε) (s s' : σ) : Prop :=
  D s e ∧ step e s s'

theorem Bounded.of_guarded {D : σ → ε → Prop} {e : ε} (h : Bounded (Guarded step D) D e s t) :
    step e s t :=
  h.2 h.1

end

/-- A run of `step`, with its events, newest first. -/
inductive Trace {σ ε : Type*} (step : ε → σ → σ → Prop) (s : σ) : List ε → σ → Prop where
  | nil : Trace step s [] s
  | cons {es : List ε} {t u : σ} (e : ε) : Trace step s es t → step e t u → Trace step s (e :: es) u

section

variable {σ ε σ' ε' : Type*} {step : ε → σ → σ → Prop} {s t u : σ} {es es' : List ε}

theorem Trace.single {e : ε} (h : step e s t) : Trace step s [e] t :=
  .cons e .nil h

theorem Trace.trans (h : Trace step s es t) (h' : Trace step t es' u) :
    Trace step s (es' ++ es) u := by
  induction h' with
  | nil => exact h
  | cons e _ hs ih => exact .cons e ih hs

/-- `π` picks out a part, and `f` what an event is to it. -/
theorem Trace.project {step' : ε' → σ' → σ' → Prop} {P : σ → Prop} (π : σ → σ') (f : ε → List ε')
    (h : Trace step s es t) (h0 : P s)
    (hstep : ∀ t e u, P t → e ∈ es → step e t u → P u ∧ Trace step' (π t) (f e) (π u)) :
    P t ∧ Trace step' (π s) (es.flatMap f) (π t) := by
  induction h with
  | nil => exact ⟨h0, .nil⟩
  | @cons es t u e _ hs ih =>
      rcases ih fun t e' u ht he => hstep t e' u ht (List.mem_cons_of_mem e he) with ⟨ht, htrace⟩
      rcases hstep t e u ht List.mem_cons_self hs with ⟨hu, hpart⟩
      refine ⟨hu, ?_⟩
      rw [List.flatMap_cons]
      exact htrace.trans hpart

/-- Where every step has one outcome, a run is determined by its events. -/
theorem Trace.unique {P : σ → Prop} (h0 : P s)
    (hstep : ∀ t e u v, P t → e ∈ es → step e t u → step e t v → P u ∧ u = v)
    (h : Trace step s es t) (h' : Trace step s es u) : P t ∧ t = u := by
  induction h generalizing u with
  | nil =>
      cases h'
      exact ⟨h0, rfl⟩
  | cons e _ hs ih =>
      rcases h' with _ | ⟨_, hbefore, hs'⟩
      have hearlier := ih (fun t e' u v ht he => hstep t e' u v ht (List.mem_cons_of_mem e he))
        hbefore
      rw [← hearlier.2] at hs'
      exact hstep _ e _ _ hearlier.1 List.mem_cons_self hs hs'

end

end Microv
