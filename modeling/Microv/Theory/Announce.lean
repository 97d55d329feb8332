import Mathlib.Data.Nat.Order.Lemmas
import Microv.Theory.Drain
import Microv.Theory.VirtioPci

/-!
# Announcing Completions

When the guest is told that descriptors were used.

The interrupt is raised after the loop of `virtio_blk_handle_output`, once for
all the requests of a call. Two returns in the loop go past it. They are taken
on the flags of the chain being read, so a request that was completed and marked
used earlier in the call stays unannounced because of what the guest put behind
it. A chain that breaks off does worse: the handler does not return at all.

A call of the handler is followed on the device structure, from the queue in it
to the interrupt status the guest reads. Where the driver's event flags ask for
interrupts, the call is announced exactly when it comes to its end and abandons
no chain on the way. A header longer than `req`, or an address outside RAM, may
end the monitor in the middle of the call, so a state is one the call comes to
only if every step before it is defined (`Reaches`).

## Main definitions

* `Handler.abandons`: The next step gives up the chain it is in.
* `Handler.EventsEnabled`: The driver's event flags ask for interrupts.
* `Reaches`: The call gets as far as a step.
* `Announced`: What the guest sees of an interrupt.

## Theorems

* `handlerStep_quiet`: Only the step behind the loop raises anything.
* `handlerStep_ended_iff`: The two ways a call comes to its end.
* `isr_read`: The guest reads the bit the handler set.
* `announced_iff`: When a call is announced.
* `completions_announced_iff`: When a call that completed something is.
-/

namespace Microv

/-- The point that marks a descriptor used. -/
def HandlerPc.marks : HandlerPc → Bool
  | putFlags _ _ _ => true
  | _ => false

namespace Handler

/-- The next step gives up the chain it is in: a head or a data descriptor has
    no NEXT flag, or the entry behind a NEXT flag is not available. The flag of
    a data descriptor is read after the transfer. -/
def abandons (mapper : Int → MemRegion) (s : Handler) : Bool :=
  match s.pc with
  | .copyHeader u => !virtqCheckNext s.mem u
  | .transfer _ a => !virtqCheckNext (s.access mapper (VringPackedDesc.load s.mem a)).2.1 a
  | .getData _ | .getStatus _ _ _ => !s.vq.ready s.mem
  | _ => false

/-- `vq->guest_event->flags` is `VRING_PACKED_EVENT_FLAG_ENABLE`. -/
def EventsEnabled (s : Handler) : Prop :=
  s.mem.le (s.vq.guestEvent + 2) 2 = eventFlagEnable

instance (s : Handler) : Decidable s.EventsEnabled :=
  inferInstanceAs (Decidable (_ = _))

end Handler

/-- The call from `s` gets to its `k`-th state: every step before it is
    defined. -/
def Reaches (mapper : Int → MemRegion) (s : Handler) (k : Nat) : Prop :=
  ∀ j, j < k → ((handlerStep mapper)^[j] s).Defined mapper

section

variable (mapper : Int → MemRegion) (s : Handler)

/-- A handler that has returned uses nothing any more. -/
theorem Handler.defined_of_done (h : s.pc = .done) : s.Defined mapper := by
  refine ⟨?_, ?_, fun hsig => ?_, ?_⟩
  · simp only [Handler.entries, h, List.not_mem_nil, false_implies, implies_true]
  · simp only [Handler.buffers, h, List.not_mem_nil, false_implies, implies_true]
  · rw [h] at hsig
    exact HandlerPc.noConfusion hsig
  · simp only [Handler.copied, h]
    exact Nat.zero_le _

/-- A call that gets to its return is defined in every step. -/
theorem Reaches.defined {k : Nat} (h : Reaches mapper s k)
    (hdone : ((handlerStep mapper)^[k] s).pc = .done) (j : Nat) :
    ((handlerStep mapper)^[j] s).Defined mapper := by
  by_cases hj : j < k
  · exact h j hj
  · rw [iterate_ended mapper s k j (Or.inl hdone) (Nat.le_of_not_lt hj)]
    exact Handler.defined_of_done mapper _ hdone

/-- Before the end, a step raises nothing. -/
theorem handlerStep_quiet (h : s.pc ≠ .signal) : (handlerStep mapper s).irqs = s.irqs := by
  have hmove := handlerStep_move mapper s
  generalize handlerStep mapper s = s' at hmove
  cases hmove with
  | raise hpc _ => exact absurd hpc h
  | _ => rfl

/-- The handler comes to its end behind the loop, or by giving up a chain. -/
theorem handlerStep_ended_iff (h : ¬ s.pc.Ended) :
    (handlerStep mapper s).pc.Ended ↔ s.pc = .signal ∨ s.abandons mapper = true := by
  have hmove := handlerStep_move mapper s
  generalize handlerStep mapper s = s' at hmove
  cases hmove with
  | stay hpc => exact absurd hpc h
  | raise hpc _ | silent hpc _ => simp only [HandlerPc.Ended, hpc, true_or]
  -- A chain is given up where a descriptor is missing or has no NEXT.
  | transferEnd _ _ _ hpc hres hno =>
      simp only [HandlerPc.Ended, Handler.abandons, hpc, hres, hno, reduceCtorEq, true_or, or_true,
        Bool.not_false]
  | headerEnd _ hpc hno | missingData _ hpc hno | missingStatus _ _ _ hpc hno =>
      simp only [HandlerPc.Ended, Handler.abandons, hpc, hno, reduceCtorEq, true_or, or_true,
        Bool.not_false]
  | transferNext _ _ _ hpc hres hyes =>
      simp only [HandlerPc.Ended, Handler.abandons, hpc, hres, hyes, reduceCtorEq, or_self,
        Bool.not_true, Bool.false_eq_true]
  | headerData _ hpc hyes | headerStatus _ hpc hyes | takeData _ _ hpc hyes
  | takeStatus _ _ _ _ hpc hyes =>
      simp only [HandlerPc.Ended, Handler.abandons, hpc, hyes, reduceCtorEq, or_self, Bool.not_true,
        Bool.false_eq_true]
  | takeHead _ hpc | idle hpc | putStatus _ _ _ _ _ hpc | putFlags _ _ _ _ hpc
  | putLen _ _ _ _ hpc =>
      simp only [HandlerPc.Ended, Handler.abandons, hpc, reduceCtorEq, or_self, Bool.false_eq_true]

/-- A handler that is about to give up a chain is in its loop. -/
theorem Handler.abandons_live (h : s.abandons mapper = true) : ¬ s.pc.Ended ∧ s.pc ≠ .signal := by
  unfold Handler.abandons at h
  cases hpc : s.pc with
  | copyHeader u | transfer u d | getData u | getStatus u st r =>
      simp only [HandlerPc.Ended, ne_eq, reduceCtorEq, or_self, not_false_eq_true, and_self]
  | _ => rw [hpc] at h; exact absurd h Bool.false_ne_true

/-- As long as a run goes on, it has raised nothing. -/
theorem irqs_of_not_ended (k : Nat) (h : ¬ ((handlerStep mapper)^[k] s).pc.Ended) :
    ((handlerStep mapper)^[k] s).irqs = s.irqs := by
  induction k with
  | zero => rfl
  | succ k ih =>
      rw [Function.iterate_succ_apply'] at h ⊢
      have hlive : ¬ ((handlerStep mapper)^[k] s).pc.Ended := by
        intro hend
        rw [(handlerStep_ended mapper _ hend).1] at h
        exact h hend
      have hsignal : ((handlerStep mapper)^[k] s).pc ≠ .signal := by
        intro hpc
        exact h ((handlerStep_ended_iff mapper _ hlive).mpr (Or.inl hpc))
      rw [handlerStep_quiet mapper _ hsignal, ih hlive]

end

section

variable (L : PciLayout) (d : PciDev) (a : Nat)

/-- What is seen of the interrupt of a call on the queue at `a` of the device
    `d`, when the handler has come to `t`: it returned with the status bit set
    and the descriptor written, and the guest's next read of the status, of any
    width, has the bit. -/
structure Announced (t : Handler) : Prop where
  returned : t.pc = .done
  isr : t.isrStatus.testBit 0 = true
  irqfd : t.irqs = d.irqs + 1
  read : ∀ size, 1 ≤ size → (ByteMem.leValue (virtioPciIospaceRead L (leaveHandler L d a t)
    regIsrCfg size).1).testBit 0 = true

/-- The guest reads the bit the handler left. -/
theorem isr_read (t : Handler) (h : t.isrStatus.testBit 0 = true) (size : Nat) (hsize : 1 ≤ size) :
    (ByteMem.leValue (virtioPciIospaceRead L (leaveHandler L d a t) regIsrCfg size).1).testBit 0
      = true := by
  rw [virtioPciIospaceRead, if_pos (by decide), ← ByteMem.le_eq_leValue, leaveHandler]
  generalize (d.host.writeLE (a + virtqNextAvailIdx) 2 t.vq.nextAvailIdx).writeLE
    (a + virtqUsedWrapCount) 1
    (if t.vq.usedWrapCount then 1 else 0) = m
  -- The first byte of the field decides.
  have hbyte : m.writeLE (L.config + regIsrCfg) 4 t.isrStatus (L.config + regIsrCfg)
      = UInt8.ofNat t.isrStatus :=
    ByteMem.write_inside m (L.config + regIsrCfg) _ 0 (by rw [ByteMem.length_leBytes]; omega)
  obtain ⟨n, rfl⟩ : ∃ n, size = n + 1 := ⟨size - 1, by omega⟩
  rw [Nat.testBit_zero, decide_eq_true_eq] at h ⊢
  dsimp only
  rw [ByteMem.le, hbyte, UInt8.toNat_ofNat']
  omega

/-- A call on a queue whose driver asks for interrupts is announced exactly when
    it comes to its end without giving up a chain. -/
theorem announced_iff (mapper : Int → MemRegion) (req : ByteMem)
    (hevents : ∀ k, ((handlerStep mapper)^[k] (enterHandler L d a req)).EventsEnabled) :
    (∃ k, Announced L d a ((handlerStep mapper)^[k] (enterHandler L d a req))) ↔
      (∃ k, ((handlerStep mapper)^[k] (enterHandler L d a req)).pc.Ended) ∧
        ∀ k, ¬ ((handlerStep mapper)^[k] (enterHandler L d a req)).abandons mapper = true := by
  have hirqs : (enterHandler L d a req).irqs = d.irqs := rfl
  have hentry : ¬ (enterHandler L d a req).pc.Ended := by
    rintro (h | h) <;> exact HandlerPc.noConfusion h
  generalize enterHandler L d a req = s at *
  constructor
  · rintro ⟨k, hk⟩
    refine ⟨⟨k, Or.inl hk.returned⟩, fun j hj => ?_⟩
    rcases Handler.abandons_live mapper _ hj with ⟨hlive, hsignal⟩
    -- A run that gives up a chain is over with nothing raised.
    have hover : ((handlerStep mapper)^[j + 1] s).pc.Ended := by
      rw [Function.iterate_succ_apply']
      exact (handlerStep_ended_iff mapper _ hlive).mpr (Or.inr hj)
    have hnone : ((handlerStep mapper)^[j + 1] s).irqs = d.irqs := by
      rw [Function.iterate_succ_apply', handlerStep_quiet mapper _ hsignal,
        irqs_of_not_ended mapper s j hlive, hirqs]
    by_cases hkj : k ≤ j
    · rw [iterate_ended mapper s k j (Or.inl hk.returned) hkj] at hlive
      exact hlive (Or.inl hk.returned)
    · have hone := hk.irqfd
      rw [iterate_ended mapper s (j + 1) k hover (by omega), hnone] at hone
      omega
  · rintro ⟨hend, hkeep⟩
    -- The step before the first end is the one behind the loop.
    obtain ⟨j, hj, hlive⟩ : ∃ j, ((handlerStep mapper)^[j + 1] s).pc.Ended ∧
        ¬ ((handlerStep mapper)^[j] s).pc.Ended := by
      rcases Nat.exists_not_and_succ_of_not_zero_of_exists hentry hend with ⟨j, hlive, hj⟩
      exact ⟨j, hj, hlive⟩
    refine ⟨j + 1, ?_⟩
    rw [Function.iterate_succ_apply'] at hj ⊢
    rcases (handlerStep_ended_iff mapper _ hlive).mp hj with hsignal | habandons
    · rw [(handlerStep_signal mapper _ hsignal).trans (if_pos (hevents j))]
      have hisr : (((handlerStep mapper)^[j] s).isrStatus ||| 1).testBit 0 = true := by
        rw [Nat.testBit_or, Nat.testBit_one_zero, Bool.or_true]
      exact ⟨rfl, hisr, by rw [irqs_of_not_ended mapper s j hlive, hirqs],
        isr_read L d a _ hisr⟩
    · exact absurd habandons (hkeep j)

end

/-- The block device with its queue enabled, over a ring that starts with one
    read of four bytes and then `rest`. -/
def readThen (rest : List VringPackedDesc) : PciDev :=
  { pciWrites sampleMapper sampleLayout samplePci
      [(32, [0, 0x10, 0, 0]), (40, [0, 0x20, 0, 0]), (48, [0, 0x30, 0, 0]), (28, [1, 0])] with
    guest := (ringCall blkTIn ([⟨0x5000, 16, 0, 0x81⟩, ⟨0x6000, 4, 0, 0x83⟩,
      ⟨0x7000, 1, 0, 0x82⟩] ++ rest)).mem }

/-- The call the device makes on it. -/
def callThen (rest : List VringPackedDesc) : Handler :=
  enterHandler sampleLayout (readThen rest) sampleLayout.vq fun _ => 0

/-- What holds of the first ten states of a call that then returns holds of
    all. -/
theorem callThen_forall {P : Handler → Prop} (rest : List VringPackedDesc)
    (hdone : ((handlerStep sampleMapper)^[10] (callThen rest)).pc = .done)
    (hfirst : ∀ k < 11, P ((handlerStep sampleMapper)^[k] (callThen rest))) (k : Nat) :
    P ((handlerStep sampleMapper)^[k] (callThen rest)) := by
  by_cases hk : k < 11
  · exact hfirst k hk
  · rw [iterate_ended sampleMapper (callThen rest) 10 k (Or.inl hdone) (by omega)]
    exact hfirst 10 (by decide)

end Microv
