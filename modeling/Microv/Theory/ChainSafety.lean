import Microv.Theory.Request

/-!
# Following Chains

Which descriptor pointers the handler dereferences.

`virtio_blk_handle_output` calls `virtq_get_avail` in three places and tests
the answer in one. Behind a descriptor with NEXT set the next ring entry is
taken as it comes, so where that entry is not available the handler goes on
with `NULL`.

The result is about the whole run of a handler entered on any queue, over any
memory. Every pointer it dereferences was returned by an earlier call exactly
when, each time it follows a NEXT flag, the entry it comes to is available.

## Main definitions

* `HandlerPc.derefs`: The pointers the next step dereferences.
* `Handler.returned`: What the next step's call returns.
* `DerefsReturned`: Every pointer dereferenced was returned before.
* `Handler.Followed`: The entry behind a NEXT flag is available.

## Theorems

* `handlerStep_pointers`: A pointer in use was in use or was just returned.
* `handlerStep_fault_iff`: The one way to a null pointer.
* `derefs_returned_iff`: When every pointer dereferenced was returned.
-/

namespace Microv

namespace HandlerPc

/-- The descriptor pointers live at a point. -/
def pointers : HandlerPc → List Nat
  | copyHeader u | getData u | getStatus u _ _ => [u]
  | transfer u d | putStatus u d _ _ | putFlags u d _ | putLen u d _ => [u, d]
  | getHead | signal | done | fault => []

/-- The descriptor pointers the step from a point dereferences, with `none` for
    `NULL`. -/
def derefs : HandlerPc → List (Option Nat)
  | copyHeader u | putFlags u _ _ | putLen u _ _ => [some u]
  | transfer _ d | putStatus _ d _ _ => [some d]
  | fault => [none]
  | getHead | getData _ | getStatus _ _ _ | signal | done => []

/-- The points that follow a NEXT flag to the next ring entry. -/
def follows : HandlerPc → Bool
  | getData _ | getStatus _ _ _ => true
  | _ => false

theorem derefs_subset (pc : HandlerPc) (a : Nat) (h : some a ∈ pc.derefs) : a ∈ pc.pointers := by
  cases pc with
  | copyHeader u | putFlags u d r | putLen u d r =>
      exact List.mem_cons.mpr (Or.inl (Option.some.inj (List.mem_singleton.mp h)))
  | transfer u d | putStatus u d st r =>
      have hd := Option.some.inj (List.mem_singleton.mp h)
      exact List.mem_cons.mpr (Or.inr (List.mem_singleton.mpr hd))
  | fault => exact absurd (List.mem_singleton.mp h) (Option.some_ne_none a)
  | getHead | getData u | getStatus u st r | signal | done => exact absurd h List.not_mem_nil

theorem none_mem_derefs (pc : HandlerPc) : none ∈ pc.derefs ↔ pc = fault := by
  cases pc <;> simp only [derefs, List.mem_singleton, List.not_mem_nil, reduceCtorEq]

end HandlerPc

/-- What the call of `virtq_get_avail` in the next step returns. -/
def Handler.returned (s : Handler) : Option Nat :=
  if s.pc = .getHead ∨ s.pc.follows = true then (virtqGetAvail s.mem s.vq).1 else none

/-- Every descriptor pointer that is dereferenced in the run from `s` was
    returned by an earlier call. -/
def DerefsReturned (mapper : Int → MemRegion) (s : Handler) : Prop :=
  ∀ k, ∀ p ∈ ((handlerStep mapper)^[k] s).pc.derefs,
    ∃ a j, p = some a ∧ j < k ∧ ((handlerStep mapper)^[j] s).returned = some a

/-- Where the handler follows a NEXT flag, the entry it comes to is
    available. -/
def Handler.Followed (s : Handler) : Prop :=
  s.pc.follows = true → s.vq.ready s.mem = true

section

variable (mapper : Int → MemRegion) (s : Handler)

/-- A pointer that is live after a step was live before it or was returned by
    the call in it. -/
theorem handlerStep_pointers (a : Nat) (h : a ∈ (handlerStep mapper s).pc.pointers) :
    a ∈ s.pc.pointers ∨ s.returned = some a := by
  have hcalls : ∀ vq', virtqGetAvail s.mem s.vq = (some s.vq.next, vq') →
      s.pc = .getHead ∨ s.pc.follows = true → s.returned = some s.vq.next := by
    intro vq' hav hpc
    rw [Handler.returned, if_pos hpc, hav]
  have hmove := handlerStep_move mapper s
  generalize handlerStep mapper s = s' at hmove h
  cases hmove with
  -- The three calls.
  | takeHead vq hpc _ hav =>
      rw [List.mem_singleton.mp h]
      exact Or.inr (hcalls vq hav (Or.inl hpc))
  | takeData u vq hpc _ hav | takeStatus u st r vq hpc _ hav =>
      rcases List.mem_cons.mp h with rfl | h
      · exact Or.inl (by rw [hpc]; exact List.mem_singleton.mpr rfl)
      · rw [List.mem_singleton.mp h]
        exact Or.inr (hcalls vq hav (Or.inr (by rw [hpc]; rfl)))
  -- The steps that keep their pointers.
  | headerData u hpc _ _ | headerStatus u hpc _ _ | putStatus u d st r _ hpc
  | putFlags u d r _ hpc =>
      rw [hpc]
      exact Or.inl h
  | transferNext u d _ hpc =>
      rw [hpc]
      exact Or.inl (List.mem_cons.mpr (Or.inl (List.mem_singleton.mp h)))
  | stay _ => exact Or.inl h
  | idle | headerEnd | missingData | transferEnd | missingStatus | putLen | raise | silent =>
      exact absurd h List.not_mem_nil

/-- The handler comes to a null pointer only by following a NEXT flag to an
    entry that is not available. -/
theorem handlerStep_fault_iff (hs : s.pc ≠ .fault) :
    (handlerStep mapper s).pc = .fault ↔ s.pc.follows = true ∧ s.vq.ready s.mem = false := by
  have hmove := handlerStep_move mapper s
  generalize handlerStep mapper s = s' at hmove
  cases hmove with
  | missingData u hpc hready | missingStatus u st r hpc hready =>
      simp only [hpc, HandlerPc.follows, hready, and_self]
  | takeData u vq hpc hready _ | takeStatus u st r vq hpc hready _ =>
      simp only [hready, reduceCtorEq, Bool.true_eq_false, and_false]
  | stay hpc =>
      rcases hpc with hpc | hpc
      · simp only [hpc, HandlerPc.follows, reduceCtorEq, Bool.false_eq_true, false_and]
      · exact absurd hpc hs
  | takeHead _ hpc | idle hpc | headerEnd _ hpc | headerData _ hpc | headerStatus _ hpc
  | transferEnd _ _ _ hpc | transferNext _ _ _ hpc | putStatus _ _ _ _ _ hpc
  | putFlags _ _ _ _ hpc | putLen _ _ _ _ hpc | raise hpc | silent hpc =>
      simp only [hpc, HandlerPc.follows, reduceCtorEq, Bool.false_eq_true, false_and]

/-- Every pointer live after `k` steps was returned in one of them. -/
theorem pointers_returned (hpc : s.pc = .getHead) (k a : Nat)
    (h : a ∈ ((handlerStep mapper)^[k] s).pc.pointers) :
    ∃ j, j < k ∧ ((handlerStep mapper)^[j] s).returned = some a := by
  induction k with
  | zero =>
      rw [Function.iterate_zero_apply, hpc] at h
      exact absurd h List.not_mem_nil
  | succ k ih =>
      rw [Function.iterate_succ_apply'] at h
      rcases handlerStep_pointers mapper _ a h with hold | hnew
      · rcases ih hold with ⟨j, hj, hret⟩
        exact ⟨j, by omega, hret⟩
      · exact ⟨k, by omega, hnew⟩

/-- A run that follows NEXT flags to available entries only never comes to a
    null pointer. -/
theorem run_ne_fault (hpc : s.pc = .getHead)
    (h : ∀ k, ((handlerStep mapper)^[k] s).Followed) (k : Nat) :
    ((handlerStep mapper)^[k] s).pc ≠ .fault := by
  induction k with
  | zero =>
      rw [Function.iterate_zero_apply, hpc]
      exact HandlerPc.noConfusion
  | succ k ih =>
      rw [Function.iterate_succ_apply']
      intro hfault
      rcases (handlerStep_fault_iff mapper _ ih).mp hfault with ⟨hfol, hready⟩
      rw [h k hfol] at hready
      exact Bool.noConfusion hready

end

/-- The handler, entered on any queue over any memory, dereferences only
    descriptors that a call returned, exactly when each time it follows a NEXT
    flag the entry it comes to is available. -/
theorem derefs_returned_iff (mapper : Int → MemRegion) (s : Handler) (hpc : s.pc = .getHead) :
    DerefsReturned mapper s ↔ ∀ k, ((handlerStep mapper)^[k] s).Followed := by
  constructor
  · intro h k hfol
    -- An entry that is not available would be dereferenced as `NULL` next.
    by_contra hready
    rw [Bool.not_eq_true] at hready
    have hne : ((handlerStep mapper)^[k] s).pc ≠ .fault := by
      intro hfault
      rw [hfault] at hfol
      exact Bool.noConfusion hfol
    have hfault := (handlerStep_fault_iff mapper _ hne).mpr ⟨hfol, hready⟩
    rw [← Function.iterate_succ_apply' (handlerStep mapper) k s] at hfault
    rcases h (k + 1) none (by rw [hfault]; exact List.mem_singleton.mpr rfl) with ⟨a, j, hsome, -⟩
    exact absurd hsome.symm (Option.some_ne_none a)
  · intro h k p hp
    cases p with
    | none => exact absurd ((HandlerPc.none_mem_derefs _).mp hp) (run_ne_fault mapper s hpc h k)
    | some a =>
        rcases pointers_returned mapper s hpc k a (HandlerPc.derefs_subset _ a hp) with
          ⟨j, hj, hret⟩
        exact ⟨a, j, rfl, hj, hret⟩

theorem derefs_returned_iff_header :
    let s := (headerAt 0x4000 16).entered sampleMapper sampleQueue
    s.pc = .getHead ∧ (DerefsReturned sampleMapper s ↔
      ∀ k, ((handlerStep sampleMapper)^[k] s).Followed) :=
  ⟨rfl, derefs_returned_iff sampleMapper _ rfl⟩

/-- A header with NEXT set that is the last entry published: the handler copies
    it, asks for the next entry, and dereferences the `NULL` it gets. -/
theorem incomplete_chain_faults :
    let s := (headerAt 0x4000 16).entered sampleMapper sampleQueue
    s.pc = .getHead ∧ ((handlerStep sampleMapper)^[3] s).pc = .fault ∧
      ¬ DerefsReturned sampleMapper s := by
  have hfault : ((handlerStep sampleMapper)^[3]
      ((headerAt 0x4000 16).entered sampleMapper sampleQueue)).pc = .fault := by
    decide +kernel
  refine ⟨rfl, hfault, fun h => ?_⟩
  rcases h 3 none (by rw [hfault]; exact List.mem_singleton.mpr rfl) with ⟨a, j, hsome, -⟩
  exact absurd hsome.symm (Option.some_ne_none a)

end Microv
