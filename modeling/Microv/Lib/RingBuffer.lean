import Mathlib.Data.Nat.ModEq
import Mathlib.Logic.Function.Basic

/-!
# Ring Buffers

The queue a ring of `n` cells stands for: the `count` cells from `tail` on,
going round.

Appending writes the cell behind the last one, which is no cell of the queue
as long as the ring is not full; taking drops the first cell. Nothing is said
about how a program keeps `tail` and `count`, only about what they mean.

## Main definitions

* `ringContents`: The queue.

## Theorems

* `length_ringContents`: Its length is the count.
* `ringContents_put`: Writing behind the last cell appends.
* `ringContents_get`: The cell at `tail` is the first.
-/

namespace Microv

/-- The `count` cells of a ring of `n` from `tail` on. -/
def ringContents {α : Type*} (n : Nat) (data : Nat → α) (tail count : Nat) : List α :=
  (List.range count).map fun i => data ((tail + i) % n)

section

variable {α : Type*} (n : Nat) (data : Nat → α) (tail count : Nat)

@[simp] theorem length_ringContents : (ringContents n data tail count).length = count := by
  simp only [ringContents, List.length_map, List.length_range]

theorem ringContents_put (hcount : count < n) (x : α) :
    ringContents n (Function.update data ((tail + count) % n) x) tail (count + 1)
      = ringContents n data tail count ++ [x] := by
  unfold ringContents
  rw [List.range_succ, List.map_append, List.map_singleton, Function.update_self]
  congr 1
  refine List.map_congr_left ?_
  intro i hi
  have hlt : i < count := List.mem_range.mp hi
  -- Two places less than a lap apart are different cells.
  refine Function.update_of_ne (fun heq => ?_) _ _
  have hmod : i % n = count % n := Nat.ModEq.add_left_cancel' tail heq
  rw [Nat.mod_eq_of_lt (Nat.lt_trans hlt hcount), Nat.mod_eq_of_lt hcount] at hmod
  omega

theorem ringContents_get :
    ringContents n data tail (count + 1)
      = data (tail % n) :: ringContents n data ((tail + 1) % n) count := by
  unfold ringContents
  rw [List.range_succ_eq_map, List.map_cons, List.map_map, Nat.add_zero]
  congr 1
  refine List.map_congr_left ?_
  intro i _
  simp only [Function.comp, Nat.mod_add_mod]
  congr 2
  omega

end

end Microv
