import Mathlib.Order.Lattice

/-!
# Bounded Computations

A loop that need not end is written with a bound on its steps, and answers
`none` when the bound runs out. Such a computation ends with a value when
every large enough bound gives that value and no bound gives another.

`EndsWith` is closed under the ways computations are put together, so that a
function which calls a loop inherits the loop's ending.

## Main definitions

* `EndsWith`: A bounded computation ends, with this value.

## Theorems

* `EndsWith.of_ite`: A loop that ends once its bound passes a number.
* `EndsWith.const`: A computation with no loop.
* `EndsWith.map`, `EndsWith.bind`: What follows an ending computation.
-/

namespace Microv

/-- The computation ends with `t`, and never with anything else. -/
def EndsWith {α : Type*} (f : Nat → Option α) (t : α) : Prop :=
  (∃ n, ∀ fuel, n < fuel → f fuel = some t) ∧ ∀ fuel u, f fuel = some u → u = t

section

variable {α γ : Type*} {f : Nat → Option α} {t : α}

theorem EndsWith.exists_fuel (h : EndsWith f t) : ∃ fuel, f fuel = some t := by
  rcases h.1 with ⟨n, hn⟩
  exact ⟨n + 1, hn (n + 1) (Nat.lt_succ_self n)⟩

theorem EndsWith.of_ite {n : Nat} (h : ∀ fuel, f fuel = if n < fuel then some t else none) :
    EndsWith f t := by
  refine ⟨⟨n, fun fuel hf => by rw [h, if_pos hf]⟩, fun fuel u hu => ?_⟩
  rw [h] at hu
  by_cases hf : n < fuel
  · rw [if_pos hf, Option.some.injEq] at hu
    exact hu.symm
  · rw [if_neg hf] at hu
    exact absurd hu (by simp only [reduceCtorEq, not_false_eq_true])

theorem EndsWith.const (t : α) : EndsWith (fun _ => some t) t :=
  ⟨⟨0, fun _ _ => rfl⟩, fun _ _ hu => (Option.some.inj hu).symm⟩

theorem EndsWith.bind {g : Nat → α → Option γ} {u : γ} (h : EndsWith f t)
    (hg : EndsWith (fun fuel => g fuel t) u) :
    EndsWith (fun fuel => (f fuel).bind (g fuel)) u := by
  refine ⟨?_, fun fuel v hv => ?_⟩
  · rcases h.1 with ⟨n, hn⟩
    rcases hg.1 with ⟨k, hk⟩
    refine ⟨max n k, fun fuel hf => ?_⟩
    have hfirst : f fuel = some t := hn fuel (lt_of_le_of_lt (le_max_left n k) hf)
    have hthen : g fuel t = some u := hk fuel (lt_of_le_of_lt (le_max_right n k) hf)
    simp only [hfirst, Option.bind_some, hthen]
  · rcases Option.bind_eq_some_iff.mp hv with ⟨t', ht', hv'⟩
    rw [h.2 fuel t' ht'] at hv'
    exact hg.2 fuel v hv'

theorem EndsWith.map (h : EndsWith f t) (g : α → γ) :
    EndsWith (fun fuel => (f fuel).map g) (g t) := by
  have hmap : (fun fuel => (f fuel).map g) = fun fuel => (f fuel).bind fun a => some (g a) := by
    funext fuel
    rw [Option.map_eq_bind]
    rfl
  rw [hmap]
  exact h.bind (EndsWith.const (g t))

end

end Microv
