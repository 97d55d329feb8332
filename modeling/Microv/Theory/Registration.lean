import Microv.Core.Ioeventfd
import Microv.Core.VirtioBus

/-!
# Registering an Event

What `ioeventfd_add_event` leaves behind when one of its three resources is
refused.

The kernel is asked first. From then on it takes doorbells at the address away
from the guest's exits, so an event that got no further is a doorbell nobody
hears. The function has a label that frees the new event and returns, but none
of its failures takes the registration back, and the first one reaches the
label before there is an event, so that it frees whatever the pointer held.
`addEvent_cases` lists what a call can do, and `registration_iff` reads off
when that is all or nothing.

A guest brings the first failure about by enabling a queue twice, since the
kernel refuses the same doorbell a second time. If the stack still holds the
pointer of the first call, the event that is in use is freed.

## Main definitions

* `IoeventTables.add`: An event in all the tables.
* `AllOrNothing`: What a registration is meant to do.

## Theorems

* `addEvent_cases`: The five ways through the function.
* `registered_keys`: The events KVM holds, as the bus model has them.
* `registration_iff`: When a registration is all or nothing.
-/

namespace Microv

/-- The event in all the tables, allocated at `p`. -/
def IoeventTables.add (t : IoeventTables) (e : IoeventArg) (p : Nat) : IoeventTables :=
  { t with
    registered := t.registered ++ [e.kvmIoeventfd],
    epoll := t.epoll ++ [(e.kvmIoeventfd.fd, p)],
    usedIoevents := t.usedIoevents ++ [p],
    heap := Function.update t.heap p (some e) }

/-- Zero and the event added everywhere, or non-zero and everything as before;
    and nothing freed but what the call allocated. -/
structure AllOrNothing (t : IoeventTables) (e : IoeventArg) (r : AddEventResult) : Prop where
  tables : (r.ret = 0 ∧ ∃ p, t.heap p = none ∧ r.tables = t.add e p) ∨ (r.ret ≠ 0 ∧ r.tables = t)
  freed : ∀ p ∈ r.freed, p ∈ r.allocated

/-- `malloc` returns a block that is not in use. -/
def AddEventEnv.Fresh (env : AddEventEnv) (t : IoeventTables) : Prop :=
  ∀ p, env.malloc = some p → p ≠ 0 ∧ t.heap p = none

section

variable (env : AddEventEnv) (t : IoeventTables) (e : IoeventArg)

/-- The ways through the function: not initialised, refused by the kernel, out
    of memory, refused by `epoll`, and registered. -/
theorem addEvent_cases :
    (t.initIoeventfd = false ∧ ioeventfdAddEvent env t e = ⟨-1, t, [], []⟩) ∨
    (t.initIoeventfd = true ∧ env.ioctl ≠ 0 ∧
      ioeventfdAddEvent env t e = addEventCleanup t env.ioctl [] env.newIoevent) ∨
    (t.initIoeventfd = true ∧ env.ioctl = 0 ∧ env.malloc = none ∧
      ioeventfdAddEvent env t e
        = ⟨-1, { t with registered := t.registered ++ [e.kvmIoeventfd] }, [], []⟩) ∨
    (t.initIoeventfd = true ∧ env.ioctl = 0 ∧ ∃ p, env.malloc = some p ∧ env.epollCtl ≠ 0 ∧
      ioeventfdAddEvent env t e = addEventCleanup
        { t with
          registered := t.registered ++ [e.kvmIoeventfd],
          heap := Function.update t.heap p (some e) } env.epollCtl [p] p) ∨
    (t.initIoeventfd = true ∧ env.ioctl = 0 ∧ ∃ p, env.malloc = some p ∧ env.epollCtl = 0 ∧
      ioeventfdAddEvent env t e = ⟨0, t.add e p, [p], []⟩) := by
  -- In the order of the source: each call is made if the ones before it succeed.
  unfold ioeventfdAddEvent
  by_cases hinit : t.initIoeventfd = false
  · exact Or.inl ⟨hinit, if_pos hinit⟩
  rw [if_neg hinit]
  rw [Bool.not_eq_false] at hinit
  refine Or.inr ?_
  by_cases hioctl : env.ioctl ≠ 0
  · exact Or.inl ⟨hinit, hioctl, if_pos hioctl⟩
  rw [if_neg hioctl]
  rw [not_not] at hioctl
  refine Or.inr ?_
  cases hmalloc : env.malloc with
  | none => exact Or.inl ⟨hinit, hioctl, rfl, rfl⟩
  | some p =>
      refine Or.inr ?_
      by_cases hepoll : env.epollCtl ≠ 0
      · exact Or.inl ⟨hinit, hioctl, p, rfl, hepoll, if_pos hepoll⟩
      · exact Or.inr ⟨hinit, hioctl, p, rfl, not_not.mp hepoll, if_neg hepoll⟩

-- `cleanup` returns its first argument, and leaves everything but the heap alone.
theorem addEventCleanup_ret (ret : Int) (as : List Nat) (p : Nat) :
    (addEventCleanup t ret as p).ret = ret := by
  unfold addEventCleanup
  split <;> rfl

theorem addEventCleanup_registered (ret : Int) (as : List Nat) (p : Nat) :
    (addEventCleanup t ret as p).tables.registered = t.registered := by
  unfold addEventCleanup
  split <;> rfl

/-- A call that fails with the event left in the kernel's table. -/
theorem not_allOrNothing_of_registered {r : AddEventResult} (hret : r.ret ≠ 0)
    (hreg : r.tables.registered = t.registered ++ [e.kvmIoeventfd]) : ¬ AllOrNothing t e r := by
  intro h
  rcases h.tables with ⟨hzero, _⟩ | ⟨_, hsame⟩
  · exact hret hzero
  · rw [hsame] at hreg
    exact List.cons_ne_nil _ _ (List.self_eq_append_right.mp hreg)

/-- A registration is all or nothing exactly if the thread was never set up,
    or all three calls succeed, or the kernel refuses and the pointer happens
    to be null. -/
theorem registration_iff (hfresh : env.Fresh t) :
    AllOrNothing t e (ioeventfdAddEvent env t e) ↔
      t.initIoeventfd = false ∨ (env.ioctl = 0 ∧ env.malloc ≠ none ∧ env.epollCtl = 0) ∨
        (env.ioctl ≠ 0 ∧ env.newIoevent = 0) := by
  rcases addEvent_cases env t e with ⟨hinit, hr⟩ | ⟨hinit, hioctl, hr⟩ |
    ⟨hinit, hioctl, hnull, hr⟩ | ⟨hinit, hioctl, p, hp, hepoll, hr⟩ |
    ⟨hinit, hioctl, p, hp, hepoll, hr⟩
  · refine iff_of_true ?_ (Or.inl hinit)
    rw [hr]
    exact ⟨Or.inr ⟨(by decide : (-1 : Int) ≠ 0), rfl⟩, by simp⟩
  · -- The pointer is freed as it is, so only a null pointer is harmless.
    rw [hr]
    by_cases hnull : env.newIoevent = 0
    · refine iff_of_true ?_ (Or.inr (Or.inr ⟨hioctl, hnull⟩))
      rw [addEventCleanup, if_pos hnull]
      exact ⟨Or.inr ⟨hioctl, rfl⟩, by simp⟩
    · refine iff_of_false ?_ ?_
      · intro h
        have hfreed := h.freed
        rw [addEventCleanup, if_neg hnull] at hfreed
        exact List.not_mem_nil (hfreed env.newIoevent (List.mem_singleton_self _))
      · rintro (h | ⟨h, _⟩ | ⟨_, h⟩)
        · exact absurd (h.symm.trans hinit) (by decide)
        · exact hioctl h
        · exact hnull h
  · rw [hr]
    refine iff_of_false (not_allOrNothing_of_registered t e (by decide : (-1 : Int) ≠ 0) rfl) ?_
    rintro (h | ⟨_, h, _⟩ | ⟨h, _⟩)
    · exact absurd (h.symm.trans hinit) (by decide)
    · exact h hnull
    · exact h hioctl
  · rw [hr]
    refine iff_of_false (not_allOrNothing_of_registered t e ?_ ?_) ?_
    · rw [addEventCleanup_ret]
      exact hepoll
    · rw [addEventCleanup_registered]
    · rintro (h | ⟨_, _, h⟩ | ⟨h, _⟩)
      · exact absurd (h.symm.trans hinit) (by decide)
      · exact hepoll h
      · exact h hioctl
  · rw [hr]
    refine iff_of_true ⟨Or.inl ⟨rfl, p, (hfresh p hp).2, rfl⟩, by simp⟩ ?_
    exact Or.inr (Or.inl ⟨hioctl, by rw [hp]; exact Option.some_ne_none p, hepoll⟩)

/-- What KVM compares: the address, the length and the value. -/
def KvmIoeventfdArg.key (a : KvmIoeventfdArg) : Nat × Nat × Nat :=
  (a.addr, a.len, a.datamatch)

def KvmIoeventfd.key (a : KvmIoeventfd) : Nat × Nat × Nat :=
  (a.addr, a.len, a.datamatch)

/-- The bus model keeps the events KVM holds and nothing else of a
    registration. It has them right whatever `malloc` and `epoll` answer, as
    long as the kernel refuses an event it already has and no other. -/
theorem registered_keys (es : List KvmIoeventfd) (a : KvmIoeventfd)
    (hinit : t.initIoeventfd = true) (hes : t.registered.map (·.key) = es.map (·.key))
    (ha : e.kvmIoeventfd.key = a.key) (hkvm : env.ioctl ≠ 0 ↔ a.key ∈ es.map (·.key)) :
    (ioeventfdAddEvent env t e).tables.registered.map (·.key)
      = (kvmIoeventfd es a).map (·.key) := by
  have hany : (es.any fun e' => e'.addr = a.addr ∧ e'.len = a.len ∧ e'.datamatch = a.datamatch)
      = true ↔ env.ioctl ≠ 0 := by
    rw [hkvm, List.any_eq_true, List.mem_map]
    simp only [KvmIoeventfd.key, Prod.mk.injEq, decide_eq_true_eq]
  have hadded : (t.registered ++ [e.kvmIoeventfd]).map (·.key) = (es ++ [a]).map (·.key) := by
    rw [List.map_append, List.map_append, hes, List.map_singleton, List.map_singleton, ha]
  unfold kvmIoeventfd
  rcases addEvent_cases env t e with ⟨hno, _⟩ | ⟨_, hioctl, hr⟩ | ⟨_, hioctl, _, hr⟩ |
    ⟨_, hioctl, p, _, _, hr⟩ | ⟨_, hioctl, p, _, _, hr⟩
  · exact absurd (hno.symm.trans hinit) (by decide)
  · rw [hr, addEventCleanup_registered, if_pos (hany.mpr hioctl)]
    exact hes
  all_goals rw [hr, if_neg (fun hc => hany.mp hc hioctl)]
  · exact hadded
  · rw [addEventCleanup_registered]
    exact hadded
  · exact hadded

end

section Samples

/-- The event of queue 0 at one address, with descriptor 7. -/
def sampleIoevent : IoeventArg :=
  { kvmIoeventfd := { datamatch := 0, addr := 0xd0000040, len := 2, fd := 7, flags := 1 },
    fnPtr := 0x5000, fn := 0x6000 }

def sampleTables : IoeventTables :=
  { initIoeventfd := true, registered := [], epoll := [], usedIoevents := [],
    heap := fun _ => none }

/-- All three calls succeed. -/
theorem registration_iff_succeeds :
    AllOrNothing sampleTables sampleIoevent
      (ioeventfdAddEvent ⟨0, some 0x1000, 0, 0x77⟩ sampleTables sampleIoevent) := by
  refine (registration_iff ⟨0, some 0x1000, 0, 0x77⟩ sampleTables sampleIoevent ?_).mpr
    (Or.inr (Or.inl ⟨rfl, by decide, rfl⟩))
  intro p hp
  cases hp
  exact ⟨by decide, rfl⟩

/-- The queue is enabled again, and the kernel refuses. The stack still holds
    the first event, which is watched and in the list, and it is freed. -/
theorem registration_repeated :
    sampleTables.add sampleIoevent 0x1000
        = (ioeventfdAddEvent ⟨0, some 0x1000, 0, 0x77⟩ sampleTables sampleIoevent).tables ∧
    (ioeventfdAddEvent ⟨-1, none, 0, 0x1000⟩ (sampleTables.add sampleIoevent 0x1000)
        sampleIoevent).freed = [0x1000] ∧
    (ioeventfdAddEvent ⟨-1, none, 0, 0x1000⟩ (sampleTables.add sampleIoevent 0x1000)
        sampleIoevent).tables.usedIoevents = [0x1000] ∧
    (ioeventfdAddEvent ⟨-1, none, 0, 0x1000⟩ (sampleTables.add sampleIoevent 0x1000)
        sampleIoevent).tables.heap 0x1000 = none ∧
    ¬ AllOrNothing (sampleTables.add sampleIoevent 0x1000) sampleIoevent
      (ioeventfdAddEvent ⟨-1, none, 0, 0x1000⟩ (sampleTables.add sampleIoevent 0x1000)
        sampleIoevent) := by
  refine ⟨rfl, rfl, rfl, rfl, ?_⟩
  intro h
  have hfreed : (0x1000 : Nat) ∈ ([] : List Nat) := h.freed 0x1000 (List.mem_singleton_self _)
  exact List.not_mem_nil hfreed

end Samples

end Microv
