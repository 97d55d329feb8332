import Microv.Core.Ioeventfd
import Microv.Lib.Run

/-!
# Stopping the Event Thread

Whether the thread has left its loop when `ioeventfd_exit` returns.

The request and the acknowledgement are both a write of one to the same
counter. `ioeventfd_exit` writes and then reads, and nothing makes the read wait
for the other party: it may take back what it wrote itself, close both
descriptors, and return while the thread is still in its loop.

As long as no read does that, which is to say that both writes are in the
counter when it is read, the exchange is a handshake: over any interleaving and
with any number of events, `epoll_fd` is closed only once the thread is gone.

## Main definitions

* `StopStep`: The steps of the system, with doorbells.
* `TakesBoth`: The read finds both writes.
* `Handshake`: What the exchange is for.
* `StopInv`: What the counter says about the thread.

## Theorems

* `ioeventfdThread_loop`: The one-event thread is the same thread.
* `stopInv_step`: The invariant is kept.
* `stop_handshake`: The handshake, in every such run.
-/

namespace Microv

/-- The thread with one event and nothing to stop it, as the thread with any
    number of them. -/
def Ioevent.asStop {σ : Type} (e : Ioevent σ) : StopSys :=
  { StopSys.start with
    counter := Function.update (fun _ => 0) 0 e.counter,
    thread := match e.thread with
      | .wait => .wait
      | .read => .dispatch (.queue 0) []
      | .call => .call 0 []
      | .callback => .callback 0 [] }

/-- A step of the one-event thread is a step of the loop, or one inside the
    function, which the loop does not see. -/
theorem ioeventfdThread_loop {σ : Type} {fn step : σ → σ} {returned : σ → Bool}
    {e e' : Ioevent σ} (h : ioeventfdThread fn step returned e = some e') :
    e'.asStop = e.asStop ∨ ioeventfdLoop [.queue 0] e.asStop = some e'.asStop := by
  unfold ioeventfdThread at h
  cases hpc : e.thread with
  | wait =>
      simp only [hpc] at h
      split_ifs at h with hzero
      rw [← Option.some.inj h]
      refine Or.inr ?_
      simp [ioeventfdLoop, Ioevent.asStop, hpc, StopSys.start, StopSys.ready, hzero,
        ioeventfdMaxEvents, ThreadPc.next]
  | read =>
      simp only [hpc] at h
      split_ifs at h with hzero
      rw [← Option.some.inj h]
      refine Or.inr ?_
      simp [ioeventfdLoop, Ioevent.asStop, hpc, StopSys.start, hzero]
  | call =>
      simp only [hpc] at h
      rw [← Option.some.inj h]
      refine Or.inr ?_
      simp [ioeventfdLoop, Ioevent.asStop, hpc, StopSys.start]
  | callback =>
      simp only [hpc] at h
      split_ifs at h
      · rw [← Option.some.inj h]
        refine Or.inr ?_
        simp [ioeventfdLoop, Ioevent.asStop, hpc, StopSys.start, ThreadPc.next]
      · rw [← Option.some.inj h]
        -- The callback is not over: nothing the loop can see has happened.
        refine Or.inl ?_
        simp only [Ioevent.asStop, hpc]

/-- What can happen next: the thread steps, `epoll_wait` answering `fds`,
    `ioeventfd_exit` steps, or an event is signalled. -/
inductive StopEvent where
  | thread (fds : List IoFd)
  | exit
  | ring (q : Nat)

inductive StopStep : StopEvent → StopSys → StopSys → Prop where
  | thread (fds : List IoFd) (s s' : StopSys) : ioeventfdLoop fds s = some s' →
      StopStep (.thread fds) s s'
  | exit (s s' : StopSys) : ioeventfdExit s = some s' → StopStep .exit s s'
  | ring (q : Nat) (s : StopSys) :
      StopStep (.ring q) s { s with counter := Function.update s.counter q (s.counter q + 1) }

/-- The read of `ioeventfd_exit` finds both writes in the counter. -/
def TakesBoth (s : StopSys) : StopEvent → Prop
  | .exit => s.exit = .read → 2 ≤ s.stop
  | _ => True

/-- Once `ioeventfd_exit` has returned the thread has left its loop, and every
    step the thread takes is with `epoll_fd` open. -/
structure Handshake (s : StopSys) : Prop where
  left : s.exit = .returned → s.thread = .returned
  open_epoll : ∀ fds s', ioeventfdLoop fds s = some s' → s.epollOpen = true

/-- The events the thread has been told of and not looked at. -/
def ThreadPc.pending : ThreadPc → List IoFd
  | .wait | .returned => []
  | .dispatch fd rest => fd :: rest
  | .call _ rest | .callback _ rest => rest

theorem ThreadPc.pending_next (fds : List IoFd) : (ThreadPc.next fds).pending = fds := by
  cases fds <;> rfl

/-- The counter counts the writes, and the thread writes when told to. -/
structure StopInv (s : StopSys) : Prop where
  requested : .stop ∈ s.thread.pending ∨ s.thread = .returned → s.exit ≠ .write
  before : s.exit = .write → s.stop = 0
  between : s.exit = .read → s.stop = if s.thread = .returned then 2 else 1
  after : s.exit ≠ .write → s.exit ≠ .read → s.thread = .returned
  epoll : s.exit = .write ∨ s.exit = .read → s.epollOpen = true ∧ s.stopOpen = true

theorem stopInv_start : StopInv StopSys.start := by
  refine ⟨?_, fun _ => rfl, ?_, ?_, fun _ => ⟨rfl, rfl⟩⟩
  · rintro (h | h)
    · exact absurd h List.not_mem_nil
    · exact ThreadPc.noConfusion h
  · intro h
    exact ExitPc.noConfusion h
  · intro h
    exact absurd rfl h

theorem ThreadPc.next_ne_returned (fds : List IoFd) : ThreadPc.next fds ≠ .returned := by
  cases fds <;> exact ThreadPc.noConfusion

/-- What a step of the thread can do: learn of events, fail to, acknowledge the
    stop event, or go on with the events it knows of. -/
inductive LoopEffect (fds : List IoFd) (s : StopSys) : StopSys → Prop where
  | wakes : s.thread = .wait → s.epollOpen = true → (∀ fd ∈ fds, s.ready fd = true) →
      LoopEffect fds s { s with thread := .next fds }
  | fails : s.thread = .wait → s.epollOpen = false → LoopEffect fds s s
  | stops (rest : List IoFd) : s.thread = .dispatch .stop rest →
      LoopEffect fds s
        { s with stop := if s.stopOpen then s.stop + 1 else s.stop, thread := .returned }
  | goesOn (counter : Nat → Nat) (pc : ThreadPc) : s.thread ≠ .returned → pc ≠ .returned →
      (∀ fd ∈ pc.pending, fd ∈ s.thread.pending) →
      LoopEffect fds s { s with counter := counter, thread := pc }

theorem loopEffect {fds : List IoFd} {s s' : StopSys} (h : ioeventfdLoop fds s = some s') :
    LoopEffect fds s s' := by
  unfold ioeventfdLoop at h
  cases hpc : s.thread with
  | wait =>
      simp only [hpc] at h
      cases hopen : s.epollOpen with
      | false =>
          rw [if_neg (by rw [hopen]; exact Bool.false_ne_true)] at h
          rw [← Option.some.inj h]
          -- With the epoll descriptor closed the wait fails, and the loop returns.
          exact .fails hpc hopen
      | true =>
          rw [if_pos hopen] at h
          split_ifs at h with hfds
          rw [← Option.some.inj h]
          exact .wakes hpc hopen (List.all_eq_true.mp hfds.2.2.2)
  | dispatch fd rest =>
      cases fd with
      | stop =>
          simp only [hpc] at h
          rw [← Option.some.inj h]
          exact .stops rest hpc
      | queue q =>
          simp only [hpc] at h
          split_ifs at h
          rw [← Option.some.inj h]
          -- Reading a queue's counter clears it and leaves the events behind it.
          refine .goesOn _ _ (by rw [hpc]; exact ThreadPc.noConfusion) ThreadPc.noConfusion ?_
          intro fd hfd
          rw [hpc]
          exact List.mem_cons_of_mem _ hfd
  | call q rest =>
      simp only [hpc] at h
      rw [← Option.some.inj h]
      refine .goesOn s.counter _ (by rw [hpc]; exact ThreadPc.noConfusion) ThreadPc.noConfusion ?_
      intro fd hfd
      rw [hpc]
      exact hfd
  | callback q rest =>
      simp only [hpc] at h
      rw [← Option.some.inj h]
      refine .goesOn s.counter _ (by rw [hpc]; exact ThreadPc.noConfusion)
        (ThreadPc.next_ne_returned rest) ?_
      intro fd hfd
      rw [ThreadPc.pending_next] at hfd
      rw [hpc]
      exact hfd
  | returned =>
      simp only [hpc] at h
      exact absurd h (by simp only [reduceCtorEq, not_false_eq_true])

section

variable {s s' : StopSys} {fds : List IoFd}

theorem stopInv_thread (h : StopInv s) (hs : LoopEffect fds s s') : StopInv s' := by
  cases hs with
  | wakes hpc hopen hready =>
      have hnot : s.thread ≠ .returned := by rw [hpc]; exact ThreadPc.noConfusion
      have hnext := ThreadPc.next_ne_returned fds
      refine ⟨?_, h.before, ?_, fun h1 h2 => absurd (h.after h1 h2) hnot, h.epoll⟩
      · -- The stop event is reported only once something was written.
        rintro (hmem | hret) hw
        · rw [ThreadPc.pending_next] at hmem
          have hzero := hready _ hmem
          rw [StopSys.ready, h.before hw] at hzero
          exact absurd hzero (by decide)
        · exact absurd hret hnext
      · intro hr
        have hone := h.between hr
        rw [if_neg hnot] at hone
        rw [if_neg hnext]
        exact hone
  | fails => exact h
  | stops rest hpc =>
      have hnot : s.thread ≠ .returned := by rw [hpc]; exact ThreadPc.noConfusion
      have hreq := h.requested (Or.inl (by rw [hpc]; exact List.mem_cons_self))
      refine ⟨fun _ => hreq, fun hw => absurd hw hreq, ?_, fun _ _ => rfl, h.epoll⟩
      intro hr
      have hone := h.between hr
      rw [if_neg hnot] at hone
      rw [if_pos rfl]
      dsimp only
      rw [(h.epoll (Or.inr hr)).2, if_pos rfl, hone]
  | goesOn counter pc hnot hpc hsub =>
      refine ⟨?_, h.before, ?_, fun h1 h2 => absurd (h.after h1 h2) hnot, h.epoll⟩
      · rintro (hmem | hret)
        · exact h.requested (Or.inl (hsub _ hmem))
        · exact absurd hret hpc
      · intro hr
        have hone := h.between hr
        rw [if_neg hnot] at hone
        rw [if_neg hpc]
        exact hone

/-- Past the read there is nothing to keep but that the thread is gone. -/
theorem stopInv_gone (hret : s.thread = .returned) (hw : s.exit ≠ .write) (hr : s.exit ≠ .read) :
    StopInv s :=
  ⟨fun _ => hw, fun h => absurd h hw, fun h => absurd h hr, fun _ _ => hret,
    fun h => h.elim (fun h => absurd h hw) (fun h => absurd h hr)⟩

theorem stopInv_exit (h : StopInv s) (hc : TakesBoth s .exit) (hs : ioeventfdExit s = some s') :
    StopInv s' := by
  unfold ioeventfdExit at hs
  cases hpc : s.exit with
  | write =>
      simp only [hpc] at hs
      rw [← Option.some.inj hs]
      have hnot : s.thread ≠ .returned := fun hret => h.requested (Or.inr hret) hpc
      refine ⟨fun _ => ExitPc.noConfusion, fun hw => ExitPc.noConfusion hw, fun _ => ?_,
        fun _ hr => absurd rfl hr, fun _ => h.epoll (Or.inl hpc)⟩
      rw [if_neg hnot, h.before hpc]
  | read =>
      simp only [hpc] at hs
      split_ifs at hs
      rw [← Option.some.inj hs]
      -- Both writes are there, so the thread has made its own.
      have hret : s.thread = .returned := by
        by_contra hnot
        have hone := h.between hpc
        rw [if_neg hnot] at hone
        have htwo := hc hpc
        omega
      exact stopInv_gone hret ExitPc.noConfusion ExitPc.noConfusion
  | closeEpoll =>
      simp only [hpc] at hs
      rw [← Option.some.inj hs]
      have hret := h.after (by rw [hpc]; exact ExitPc.noConfusion)
        (by rw [hpc]; exact ExitPc.noConfusion)
      exact stopInv_gone hret ExitPc.noConfusion ExitPc.noConfusion
  | closeStop =>
      simp only [hpc] at hs
      rw [← Option.some.inj hs]
      have hret := h.after (by rw [hpc]; exact ExitPc.noConfusion)
        (by rw [hpc]; exact ExitPc.noConfusion)
      exact stopInv_gone hret ExitPc.noConfusion ExitPc.noConfusion
  | returned =>
      simp only [hpc] at hs
      exact absurd hs (by simp only [reduceCtorEq, not_false_eq_true])

theorem stopInv_step {e : StopEvent} (h : StopInv s) (hc : TakesBoth s e)
    (hs : StopStep e s s') : StopInv s' := by
  cases hs with
  | thread _ _ _ hloop => exact stopInv_thread h (loopEffect hloop)
  | exit _ _ hexit => exact stopInv_exit h hc hexit
  | ring => exact ⟨h.requested, h.before, h.between, h.after, h.epoll⟩

/-- A thread that is gone takes no step. -/
theorem loop_not_returned (h : ioeventfdLoop fds s = some s') : s.thread ≠ .returned := by
  intro hret
  cases loopEffect h with
  | wakes hpc => exact ThreadPc.noConfusion (hpc.symm.trans hret)
  | fails hpc => exact ThreadPc.noConfusion (hpc.symm.trans hret)
  | stops rest hpc => exact ThreadPc.noConfusion (hpc.symm.trans hret)
  | goesOn _ _ hnot => exact hnot hret

theorem StopInv.handshake (h : StopInv s) : Handshake s := by
  constructor
  · intro hexit
    exact h.after (by rw [hexit]; exact ExitPc.noConfusion)
      (by rw [hexit]; exact ExitPc.noConfusion)
  · intro fds s' hloop
    have hnot := loop_not_returned hloop
    by_cases hbefore : s.exit = .write ∨ s.exit = .read
    · exact (h.epoll hbefore).1
    · rw [not_or] at hbefore
      exact absurd (h.after hbefore.1 hbefore.2) hnot

end

/-- In every interleaving in which the read of `ioeventfd_exit` never finds
    fewer than both writes: once it has returned the thread has left its loop,
    and the thread neither waits on a closed descriptor nor calls a function for
    one. When the read is next, the counter tells whether the thread is gone. -/
theorem stop_handshake (s : StopSys) (hrun : Run StopStep TakesBoth StopSys.start s) :
    Handshake s ∧ (s.exit = .read → (s.thread = .returned ↔ 2 ≤ s.stop)) := by
  have h : StopInv s := hrun.invariant (P := StopInv) stopInv_start
    (fun _ _ _ ht hc hs => stopInv_step ht hc hs)
  refine ⟨h.handshake, fun hr => ?_⟩
  have hcount := h.between hr
  by_cases hret : s.thread = .returned
  · rw [if_pos hret] at hcount
    exact ⟨fun _ => by omega, fun _ => hret⟩
  · rw [if_neg hret] at hcount
    exact ⟨fun hc => absurd hc hret, fun htwo => absurd htwo (by omega)⟩

/-- A state with no event signalled. -/
def stopState (stop : Nat) (thread : ThreadPc) (exit : ExitPc) (epollOpen stopOpen : Bool) :
    StopSys :=
  { stop := stop, counter := fun _ => 0, thread := thread, exit := exit, epollOpen := epollOpen,
    stopOpen := stopOpen }

/-- The thread answers before its answer is read. -/
theorem stop_handshake_answered :
    Run StopStep TakesBoth StopSys.start (stopState 0 .returned .returned false false) ∧
      Handshake (stopState 0 .returned .returned false false) := by
  have hrun : Run StopStep TakesBoth StopSys.start
      (stopState 0 .returned .returned false false) := by
    have h1 : Run StopStep TakesBoth StopSys.start (stopState 1 .wait .read true true) :=
      .single .exit (fun h => ExitPc.noConfusion h) (.exit _ _ rfl)
    have h2 : Run StopStep TakesBoth StopSys.start
        (stopState 1 (.dispatch .stop []) .read true true) :=
      .tail (.thread [.stop]) h1 trivial (.thread _ _ _ rfl)
    have h3 : Run StopStep TakesBoth StopSys.start (stopState 2 .returned .read true true) :=
      .tail (.thread []) h2 trivial (.thread _ _ _ rfl)
    have h4 : Run StopStep TakesBoth StopSys.start (stopState 0 .returned .closeEpoll true true) :=
      .tail .exit h3 (fun _ => Nat.le_refl 2) (.exit _ _ rfl)
    have h5 : Run StopStep TakesBoth StopSys.start (stopState 0 .returned .closeStop false true) :=
      .tail .exit h4 (fun h => ExitPc.noConfusion h) (.exit _ _ rfl)
    exact .tail .exit h5 (fun h => ExitPc.noConfusion h) (.exit _ _ rfl)
  exact ⟨hrun, (stop_handshake _ hrun).1⟩

/-- `ioeventfd_exit` runs alone: it reads what it wrote, closes both descriptors
    and returns, and the thread's next call is `epoll_wait` on a closed one. -/
theorem stop_without_handshake :
    Run StopStep (fun _ _ => True) StopSys.start (stopState 0 .wait .returned false false) ∧
      ¬ Handshake (stopState 0 .wait .returned false false) ∧
      ioeventfdLoop [] (stopState 0 .wait .returned false false)
        = some (stopState 0 .wait .returned false false) := by
  have h1 : Run StopStep (fun _ _ => True) StopSys.start (stopState 1 .wait .read true true) :=
    .single .exit trivial (.exit _ _ rfl)
  have h2 : Run StopStep (fun _ _ => True) StopSys.start
      (stopState 0 .wait .closeEpoll true true) :=
    .tail .exit h1 trivial (.exit _ _ rfl)
  have h3 : Run StopStep (fun _ _ => True) StopSys.start
      (stopState 0 .wait .closeStop false true) :=
    .tail .exit h2 trivial (.exit _ _ rfl)
  exact ⟨.tail .exit h3 trivial (.exit _ _ rfl), fun h => ThreadPc.noConfusion (h.left rfl), rfl⟩

end Microv
