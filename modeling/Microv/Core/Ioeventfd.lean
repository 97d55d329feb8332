import Mathlib.Data.List.Nodup
import Mathlib.Data.Nat.Notation
import Mathlib.Logic.Function.Basic

/-!
# I/O Event Thread

`ioeventfd.c`: the thread that turns doorbells into calls of a registered
function.

An eventfd is a counter. A doorbell adds one to it, `read` returns and zeroes
it, and `epoll_wait` reports it while it is not zero. The thread waits, reads
the counter of the event it was woken for, and calls the event's function,
over and over. The function is a parameter, given by what entering it does
and by its steps, so that other parties can act while it runs.

The thread is here twice. `ioeventfdThread` has one event and the function's
own steps, which is what a doorbell needs. `ioeventfdLoop` has any number of
events and the stop event, and `ioeventfd_exit` beside it; what the functions
do inside does not matter there. `epoll_wait` may report any of the ready
descriptors in any order, so its answer is an argument of the step. The stop
event is told from the others by its tag, `data.fd`.

Registering an event goes through the kernel, the allocator and `epoll`, each
of which may refuse. Their answers are arguments, and so is what the pointer
to the new event holds before it is assigned, since one of the jumps to the
label that frees it is taken before that.

## Main definitions

* `IoeventPc`: The points of `ioeventfd_thread`.
* `Ioevent`: One event, the thread, and what the function works on.
* `ioeventfdThread`: One step of the thread, or `none` while it blocks.
* `Ioevent.ring`: One doorbell.
* `ThreadPc`, `ExitPc`: The points of the two parties.
* `StopSys`: The counters, the parties, and which descriptors are open.
* `ioeventfdLoop`: One step of the thread, stop event and all.
* `ioeventfdExit`: One step of `ioeventfd_exit`.
* `IoeventTables`: What a registration touches.
* `ioeventfdAddEvent`: Registering an event.
-/

namespace Microv

/-- The points of `ioeventfd_thread`. -/
inductive IoeventPc where
  -- In `epoll_wait`.
  | wait
  -- Woken, before `read`.
  | read
  -- Before the call of `ioevent->fn`.
  | call
  -- Inside `ioevent->fn`.
  | callback
  deriving DecidableEq, Repr

/-- An event's counter, the thread, and the state `fn` works on. -/
structure Ioevent (σ : Type) where
  counter : ℕ
  thread : IoeventPc
  state : σ

/-- One doorbell. -/
def Ioevent.ring {σ : Type} (e : Ioevent σ) : Ioevent σ :=
  { e with counter := e.counter + 1 }

/-- One step of `ioeventfd_thread`. `fn` enters the function, `step` is a step
    inside it, and `returned` tells when it is over. -/
def ioeventfdThread {σ : Type} (fn step : σ → σ) (returned : σ → Bool) (e : Ioevent σ) :
    Option (Ioevent σ) :=
  match e.thread with
  | .wait => if e.counter = 0 then none else some { e with thread := .read }
  | .read => if e.counter = 0 then none else some { e with counter := 0, thread := .call }
  | .call => some { e with state := fn e.state, thread := .callback }
  | .callback =>
      if returned e.state then some { e with thread := .wait }
      else some { e with state := step e.state }

/-- What `epoll_fd` watches. -/
inductive IoFd where
  | stop
  | queue (q : ℕ)
  deriving DecidableEq, Repr

/-- The points of `ioeventfd_thread`, with what is left of `event_sets`. -/
inductive ThreadPc where
  -- Before or in `epoll_wait`.
  | wait
  -- At the test of one reported event.
  | dispatch (fd : IoFd) (rest : List IoFd)
  -- Before the call of `ioevent->fn`.
  | call (q : ℕ) (rest : List IoFd)
  -- Inside `ioevent->fn`.
  | callback (q : ℕ) (rest : List IoFd)
  | returned
  deriving DecidableEq, Repr

/-- The loop over the reported events goes on, or comes to `epoll_wait`. -/
def ThreadPc.next : List IoFd → ThreadPc
  | [] => .wait
  | fd :: rest => .dispatch fd rest

/-- The points of `ioeventfd_exit`, each before the call it is named for. -/
inductive ExitPc where
  | write
  | read
  | closeEpoll
  | closeStop
  | returned
  deriving DecidableEq, Repr

/-- The counters of `epoll_stop_fd` and of the events, the two parties, and
    whether `epoll_fd` and `epoll_stop_fd` are open. -/
structure StopSys where
  stop : ℕ
  counter : ℕ → ℕ
  thread : ThreadPc
  exit : ExitPc
  epollOpen : Bool
  stopOpen : Bool

/-- `IOEVENTFD_MAX_EVENTS`. -/
def ioeventfdMaxEvents : ℕ := 32

/-- What `epoll_wait` reports as readable. -/
def StopSys.ready (s : StopSys) : IoFd → Bool
  | .stop => s.stop != 0
  | .queue q => s.counter q != 0

/-- One step of `ioeventfd_thread`, `fds` being what `epoll_wait` answers, or
    `none` while it blocks. -/
def ioeventfdLoop (fds : List IoFd) (s : StopSys) : Option StopSys :=
  match s.thread with
  | .wait =>
      if s.epollOpen then
        if fds ≠ [] ∧ fds.length ≤ ioeventfdMaxEvents ∧ fds.Nodup ∧ fds.all s.ready then
          some { s with thread := .next fds }
        else none
      -- On a closed descriptor the call fails, and the loop goes round.
      else some s
  | .dispatch .stop _ =>
      -- The source writes `tmp`, which is 1 or what the last read of an event left there.
      some { s with stop := if s.stopOpen then s.stop + 1 else s.stop, thread := .returned }
  | .dispatch (.queue q) rest =>
      if s.counter q = 0 then none
      else some { s with counter := Function.update s.counter q 0, thread := .call q rest }
  | .call q rest => some { s with thread := .callback q rest }
  | .callback _ rest => some { s with thread := .next rest }
  | .returned => none

/-- One step of `ioeventfd_exit`, or `none` while it blocks. -/
def ioeventfdExit (s : StopSys) : Option StopSys :=
  match s.exit with
  | .write => some { s with stop := s.stop + 1, exit := .read }
  | .read => if s.stop = 0 then none else some { s with stop := 0, exit := .closeEpoll }
  | .closeEpoll => some { s with epollOpen := false, exit := .closeStop }
  | .closeStop => some { s with stopOpen := false, exit := .returned }
  | .returned => none

/-- The state `ioeventfd_init` leaves, with `ioeventfd_exit` called. -/
def StopSys.start : StopSys :=
  { stop := 0, counter := fun _ => 0, thread := .wait, exit := .write, epollOpen := true,
    stopOpen := true }

section Registration

/-- `struct kvm_ioeventfd`. -/
structure KvmIoeventfdArg where
  datamatch : ℕ
  addr : ℕ
  len : ℕ
  fd : ℕ
  flags : ℕ
  deriving DecidableEq, Repr

/-- `struct ioevent`, the two pointers of the function among it; its place in
    the list is that of the list. -/
structure IoeventArg where
  kvmIoeventfd : KvmIoeventfdArg
  fnPtr : ℕ
  fn : ℕ
  deriving DecidableEq, Repr

/-- What a registration touches: the events KVM holds, the descriptors
    `epoll_fd` watches with the event each is for, `used_ioevents`, and the
    allocated events. -/
structure IoeventTables where
  initIoeventfd : Bool
  registered : List KvmIoeventfdArg
  epoll : List (ℕ × ℕ)
  usedIoevents : List ℕ
  heap : ℕ → Option IoeventArg

/-- What `ioctl`, `malloc` and `epoll_ctl` answer, and what the pointer holds
    that is not initialised. -/
structure AddEventEnv where
  ioctl : Int
  malloc : Option ℕ
  epollCtl : Int
  newIoevent : ℕ

/-- A call of `ioeventfd_add_event` once it is over, with the blocks it
    allocated and those it freed. -/
structure AddEventResult where
  ret : Int
  tables : IoeventTables
  allocated : List ℕ
  freed : List ℕ

/-- `cleanup`: free the pointer, whatever it is, and return. Freeing a null
    pointer does nothing. -/
def addEventCleanup (t : IoeventTables) (ret : Int) (allocated : List ℕ) (newIoevent : ℕ) :
    AddEventResult :=
  if newIoevent = 0 then ⟨ret, t, allocated, []⟩
  else ⟨ret, { t with heap := Function.update t.heap newIoevent none }, allocated, [newIoevent]⟩

/-- `ioeventfd_add_event`. -/
def ioeventfdAddEvent (env : AddEventEnv) (t : IoeventTables) (ioevent : IoeventArg) :
    AddEventResult :=
  if t.initIoeventfd = false then ⟨-1, t, [], []⟩
  else if env.ioctl ≠ 0 then addEventCleanup t env.ioctl [] env.newIoevent
  else
    let t := { t with registered := t.registered ++ [ioevent.kvmIoeventfd] }
    match env.malloc with
    -- The one failure that does not go through `cleanup`.
    | none => ⟨-1, t, [], []⟩
    | some p =>
        let t := { t with heap := Function.update t.heap p (some ioevent) }
        if env.epollCtl ≠ 0 then addEventCleanup t env.epollCtl [p] p
        else
          ⟨0, { t with
            epoll := t.epoll ++ [(ioevent.kvmIoeventfd.fd, p)],
            usedIoevents := t.usedIoevents ++ [p] }, [p], []⟩

end Registration

end Microv
