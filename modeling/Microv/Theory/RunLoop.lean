import Mathlib.Data.List.Infix
import Mathlib.Data.List.Induction
import Microv.Core.VcpuExec

/-!
# When the Run Loop Goes On

What `vcpu_exec` decides after each exit, for every sequence of exits.

The loop is meant to go on after an access to a port or to memory and to stop
after anything else. A turn is of one of three kinds (`vcpuExecTurn_cases`): it
serves an access and clears the variable, it returns whatever the variable
held, or it leaves the decision to the variable. The third kind is every reason
without a branch of its own, and also an internal error and a system event,
whose branches only print.

After an access the variable is zero, so an exit of the third kind is taken for
an access: the loop enters the guest again, and will do so for as long as the
exit comes back. As the first exit it meets a variable nobody assigned.
`run_loop_iff` says that these are all the sequences on which the loop goes
wrong: the first exit that is no access must not be of the third kind.

## Main definitions

* `KvmExit.IsIo`: The exit is an access the loop serves.
* `KvmExit.Unassigned`: The exit leaves the decision to the variable.
* `ContinuesOnIo`: The loop goes on after accesses only.
* `StopsAssigned`: The first exit that is no access assigns the variable.

## Theorems

* `vcpuExecTurn_cases`: The three kinds of turns.
* `vcpuExec_io`: After accesses the variable is zero.
* `vcpuExec_enters_iff`: What the loop has decided after a sequence.
* `run_loop_iff`: When it decides as it should.
-/

namespace Microv

section

variable {σ π : Type}

/-- `KVM_RUN` succeeded, with an access for one of the buses. -/
def KvmExit.IsIo (run : KvmExit π) : Prop :=
  0 ≤ run.runRet ∧ (run.exitReason = kvmExitIo ∨ run.exitReason = kvmExitMmio)

/-- `KVM_RUN` succeeded, with a reason whose branch assigns nothing. -/
def KvmExit.Unassigned (run : KvmExit π) : Prop :=
  0 ≤ run.runRet ∧ run.exitReason ∉ [kvmExitHlt, kvmExitIo, kvmExitMmio, kvmExitIrqWindowOpen,
    kvmExitShutdown, kvmExitUnknown]

/-- The loop calls `KVM_RUN` next. -/
def VcpuLoop.Enters : VcpuLoop σ → Prop
  | .entering _ _ => True
  | .returned _ _ => False

variable (handlePio handleMmio : π → σ → σ) (machine : σ)

/-- After each exit the loop calls `KVM_RUN` again if and only if the exit was
    an access it serves, whatever the variable held at first. -/
structure ContinuesOnIo (runs : List (KvmExit π)) : Prop where
  decides : ∀ (ret : Int) (before : List (KvmExit π)) (run : KvmExit π), before ++ [run] <+: runs →
    (vcpuExec handlePio handleMmio ret machine before).Enters →
    ((vcpuExec handlePio handleMmio ret machine (before ++ [run])).Enters ↔ run.IsIo)
  determined : ∀ (ret ret' : Int) (before : List (KvmExit π)), before <+: runs →
    ((vcpuExec handlePio handleMmio ret machine before).Enters ↔
      (vcpuExec handlePio handleMmio ret' machine before).Enters)

/-- The first exit that is no access, if there is one, assigns the variable. -/
def StopsAssigned (runs : List (KvmExit π)) : Prop :=
  ∀ (before : List (KvmExit π)) (run : KvmExit π), before ++ [run] <+: runs →
    (∀ r ∈ before, r.IsIo) → ¬ run.Unassigned

theorem KvmExit.IsIo.not_unassigned {run : KvmExit π} (h : run.IsIo) : ¬ run.Unassigned := by
  intro hun
  rcases h.2 with hr | hr
  · exact hun.2 (by simp [hr])
  · exact hun.2 (by simp [hr])

/-- A turn serves an access, or leaves the decision to the variable, or
    returns. -/
theorem vcpuExecTurn_cases (run : KvmExit π) :
    (run.IsIo ∧ ∃ f : σ → σ, ∀ ret machine,
      vcpuExecTurn handlePio handleMmio ret machine run = .entering 0 (f machine)) ∨
    (run.Unassigned ∧ ∀ ret machine,
      vcpuExecTurn handlePio handleMmio ret machine run = whileZero ret machine) ∨
    (¬ run.IsIo ∧ ¬ run.Unassigned ∧ ∃ r, ∀ ret machine,
      vcpuExecTurn handlePio handleMmio ret machine run = .returned r machine) := by
  unfold vcpuExecTurn KvmExit.IsIo KvmExit.Unassigned
  by_cases hfail : run.runRet < 0
  · refine Or.inr (Or.inr ⟨by omega, by omega, -1, ?_⟩)
    intro _ _
    rw [if_pos hfail]
  have hok : 0 ≤ run.runRet := by omega
  simp only [if_neg hfail, hok, true_and]
  generalize run.exitReason = reason
  by_cases hhlt : reason = kvmExitHlt
  · subst hhlt
    exact Or.inr (Or.inr ⟨by decide, by decide, 0, fun _ _ => rfl⟩)
  by_cases hio : reason = kvmExitIo
  · subst hio
    exact Or.inl ⟨Or.inl rfl, handlePio run.page, fun _ _ => rfl⟩
  by_cases hmmio : reason = kvmExitMmio
  · subst hmmio
    exact Or.inl ⟨Or.inr rfl, handleMmio run.page, fun _ _ => rfl⟩
  by_cases hirq : reason = kvmExitIrqWindowOpen
  · subst hirq
    exact Or.inr (Or.inr ⟨by decide, by decide, -1, fun _ _ => rfl⟩)
  by_cases hdown : reason = kvmExitShutdown
  · subst hdown
    exact Or.inr (Or.inr ⟨by decide, by decide, -1, fun _ _ => rfl⟩)
  by_cases hunknown : reason = kvmExitUnknown
  · subst hunknown
    exact Or.inr (Or.inr ⟨by decide, by decide, -1, fun _ _ => rfl⟩)
  -- What is left are the branches that print, which all do the same.
  refine Or.inr (Or.inl ⟨?_, ?_⟩)
  · simp only [List.mem_cons, List.not_mem_nil, or_false, not_or]
    exact ⟨hhlt, hio, hmmio, hirq, hdown, hunknown⟩
  · intro ret machine
    simp only [if_neg hhlt, if_neg hio, if_neg hmmio, if_neg hirq, if_neg hdown, if_neg hunknown,
      ite_self]

theorem whileZero_zero : whileZero 0 machine = .entering 0 machine :=
  if_pos rfl

theorem vcpuExec_append (ret : Int) (before : List (KvmExit π)) (run : KvmExit π) :
    vcpuExec handlePio handleMmio ret machine (before ++ [run])
      = (vcpuExec handlePio handleMmio ret machine before).step handlePio handleMmio run := by
  rw [vcpuExec, List.foldl_append]
  rfl

/-- After accesses the variable is zero, whatever it was at first. -/
theorem vcpuExec_io (runs : List (KvmExit π)) (hio : ∀ r ∈ runs, r.IsIo) (hne : runs ≠ []) :
    ∃ m : σ, ∀ ret, vcpuExec handlePio handleMmio ret machine runs = .entering 0 m := by
  induction runs using List.reverseRecOn with
  | nil => exact absurd rfl hne
  | append_singleton before run ih =>
      have hrun := hio run (by simp)
      -- Only the first kind of turn serves an access.
      rcases vcpuExecTurn_cases handlePio handleMmio run with ⟨_, f, hf⟩ | ⟨hun, _⟩ | ⟨hno, _⟩
      · by_cases hfirst : before = []
        · refine ⟨f machine, ?_⟩
          intro ret
          rw [hfirst, vcpuExec_append]
          exact hf ret machine
        · rcases ih (fun r hr => hio r (List.mem_append_left _ hr)) hfirst with ⟨m, hm⟩
          refine ⟨f m, ?_⟩
          intro ret
          rw [vcpuExec_append, hm ret]
          exact hf 0 m
      · exact absurd hun hrun.not_unassigned
      · exact absurd hrun hno

/-- With a zero in the variable from the start, the first exit is no different
    from the later ones. -/
theorem vcpuExec_io_zero (runs : List (KvmExit π)) (hio : ∀ r ∈ runs, r.IsIo) :
    ∃ m : σ, vcpuExec handlePio handleMmio 0 machine runs = .entering 0 m := by
  by_cases hne : runs = []
  · exact ⟨machine, by rw [hne]; rfl⟩
  · rcases vcpuExec_io handlePio handleMmio machine runs hio hne with ⟨m, hm⟩
    exact ⟨m, hm 0⟩

theorem StopsAssigned.mono {runs before : List (KvmExit π)} (h : StopsAssigned runs)
    (hp : before <+: runs) : StopsAssigned before :=
  fun b run hb hio => h b run (hb.trans hp) hio

/-- If the first exit that is no access assigns the variable, the loop goes on
    exactly as long as there were accesses only. -/
theorem vcpuExec_enters_iff (runs : List (KvmExit π)) (h : StopsAssigned runs) (ret : Int) :
    (vcpuExec handlePio handleMmio ret machine runs).Enters ↔ ∀ r ∈ runs, r.IsIo := by
  -- The last exit decides, given that the loop was still entering before it.
  induction runs using List.reverseRecOn with
  | nil => exact iff_of_true trivial (fun r hr => absurd hr List.not_mem_nil)
  | append_singleton before run ih =>
      have hbefore := ih (h.mono (List.prefix_append _ _))
      rw [vcpuExec_append]
      have hall : (∀ r ∈ before ++ [run], r.IsIo) ↔ (∀ r ∈ before, r.IsIo) ∧ run.IsIo := by
        simp only [List.mem_append, List.mem_singleton, or_imp, forall_and, forall_eq]
      rw [hall]
      cases hl : vcpuExec handlePio handleMmio ret machine before with
      | returned r m =>
          rw [hl] at hbefore
          exact ⟨False.elim, fun hc => hbefore.mpr hc.1⟩
      | entering r m =>
          rw [hl] at hbefore
          have hio := hbefore.mp trivial
          -- An exit that leaves `ret` alone would go by what the last one stored.
          have hassigned := h before run (List.prefix_refl _) hio
          rcases vcpuExecTurn_cases handlePio handleMmio run with
            ⟨hrun, f, hf⟩ | ⟨hun, _⟩ | ⟨hno, _, r', hr'⟩
          · rw [VcpuLoop.step, hf]
            exact iff_of_true trivial ⟨hio, hrun⟩
          · exact absurd hun hassigned
          · rw [VcpuLoop.step, hr']
            exact iff_of_false id (fun hc => hno hc.2)

/-- The loop goes on after accesses only, and without consulting what its
    variable held at first, exactly on the sequences whose first exit that is
    no access assigns the variable. -/
theorem run_loop_iff (runs : List (KvmExit π)) :
    ContinuesOnIo handlePio handleMmio machine runs ↔ StopsAssigned runs := by
  constructor
  · intro h before run hp hio hun
    -- With a zero in the variable the exit is taken for an access.
    rcases vcpuExec_io_zero handlePio handleMmio machine before hio with ⟨m, hm⟩
    have hdec := h.decides 0 before run hp (by rw [hm]; trivial)
    rw [vcpuExec_append, hm] at hdec
    rcases vcpuExecTurn_cases handlePio handleMmio run with ⟨hrun, _⟩ | ⟨_, hf⟩ | ⟨_, hno, _⟩
    · exact hrun.not_unassigned hun
    · rw [VcpuLoop.step, hf, whileZero_zero] at hdec
      exact (hdec.mp trivial).not_unassigned hun
    · exact hno hun
  · intro h
    refine ⟨?_, ?_⟩
    · intro ret before run hp henters
      have hb := h.mono ((List.prefix_append before [run]).trans hp)
      have hio := (vcpuExec_enters_iff handlePio handleMmio machine before hb ret).mp henters
      rw [vcpuExec_enters_iff handlePio handleMmio machine _ (h.mono hp) ret]
      simp only [List.mem_append, List.mem_singleton, or_imp, forall_and, forall_eq]
      exact ⟨fun hc => hc.2, fun hc => ⟨hio, hc⟩⟩
    · intro ret ret' before hp
      rw [vcpuExec_enters_iff handlePio handleMmio machine before (h.mono hp),
        vcpuExec_enters_iff handlePio handleMmio machine before (h.mono hp)]

end

/-- An internal error behind an access enters the guest again, and a system
    event as the first exit does so or not by what the variable happened to
    hold. -/
theorem run_loop_internal_error :
    (vcpuExec (fun _ m => m) (fun _ m => m) 1 ()
      [⟨0, kvmExitIo, ()⟩, ⟨0, kvmExitInternalError, ()⟩]).Enters ∧
    (vcpuExec (fun _ m => m) (fun _ m => m) 0 () [⟨0, kvmExitSystemEvent, ()⟩]).Enters ∧
    ¬ (vcpuExec (fun _ m => m) (fun _ m => m) 1 () [⟨0, kvmExitSystemEvent, ()⟩]).Enters ∧
    ¬ ContinuesOnIo (fun _ m => m) (fun _ m => m) ()
      [⟨0, kvmExitIo, ()⟩, ⟨0, kvmExitInternalError, ()⟩] := by
  have hspins : (vcpuExec (fun _ m => m) (fun _ m => m) 1 ()
      [⟨0, kvmExitIo, ()⟩, ⟨0, kvmExitInternalError, ()⟩]).Enters := trivial
  refine ⟨hspins, trivial, id, ?_⟩
  intro h
  have hio := ((h.decides 1 [⟨0, kvmExitIo, ()⟩] ⟨0, kvmExitInternalError, ()⟩
    (List.prefix_refl _) trivial).mp hspins).2
  exact absurd hio (by decide)

end Microv
