import Microv.Theory.DiskSemantics
import Microv.Theory.GuestConfinement

/-!
# A Session with the Disk

The block device from the driver's first register write to its last request.

A driver programs a queue through the register window, enables it, and then
publishes requests in memory and rings the doorbell: it writes the notify
register, or the event registered for the queue is signalled. The register
accesses are steps of the device as memory; the disk semantics is about a ring
and a handler. `Serves` puts the two side by side: the queue as its bytes say
is the ring's queue at the position reached, and the memory and the image are
those of the ring.

What a notification finds on its stack, and the interrupt status, differ from
one call to the next, and the record of what was executed is kept across calls
by the ring alone. None of them has a part in what the handler does to memory.

The device does what its model says only while its stores are contained. That
is not assumed of a session: the requests of such a driver have their buffers
in RAM and headers of 16 bytes, so every call of the handler is defined, and
the registers and queues it writes are the device's own.

## Main definitions

* `SetUp`: What a driver does before its first doorbell.
* `Programmed`, `ringOf`: A queue ready for use, and its ring.
* `TailIntact`: What lies behind the queues.
* `BlkSession`: The device, and what the driver knows.
* `Serving`, `SessionFits`: Accesses that leave the queue to its driver.
* `Attached`, `Serves`: The device, and the ring it serves.

## Theorems

* `handlerRun_behind`: The record has no part in a run of the handler.
* `RingInv.run_defined`: A driver's requests stay in RAM.
* `loadVirtq_leaveHandler`: What the handler leaves of its queue.
* `setUp_queue`: A queue after the set-up.
* `Serves.contained`: The events of a session are contained.
* `serves_step`: One step of a session.
* `session_serves`: The session, from the set-up on.
-/

namespace Microv

/-! ### The handler and its record -/

/-- The handler with completed requests of earlier calls on record. -/
def Handler.behind (log : List Completed) (s : Handler) : Handler :=
  { s with log := log ++ s.log }

theorem handlerStep_behind (mapper : Int → MemRegion) (log : List Completed) (s : Handler) :
    handlerStep mapper (s.behind log) = (handlerStep mapper s).behind log := by
  rcases s with ⟨vq, mem, img, isrStatus, irqs, req, pc, taken, done⟩
  cases pc with
  | getHead | getData | getStatus =>
      simp only [Handler.behind, handlerStep]
      split <;> rfl
  | signal =>
      by_cases hev : mem.le (vq.guestEvent + 2) 2 = eventFlagEnable
      · rw [handlerStep_signal mapper _ rfl, handlerStep_signal mapper _ rfl, if_pos hev]
        exact if_pos hev
      · rw [handlerStep_signal mapper _ rfl, handlerStep_signal mapper _ rfl, if_neg hev]
        exact if_neg hev
  | putLen u d r => simp only [Handler.behind, handlerStep, List.append_assoc]
  | copyHeader | transfer | putStatus | putFlags | done | fault => rfl

theorem handlerRun_behind (mapper : Int → MemRegion) (log : List Completed) (k : Nat)
    (s : Handler) :
    (handlerStep mapper)^[k] (s.behind log) = ((handlerStep mapper)^[k] s).behind log := by
  induction k generalizing s with
  | zero => rfl
  | succ k ih =>
      rw [Function.iterate_succ_apply, Function.iterate_succ_apply, handlerStep_behind, ih]

theorem Handler.behind_defined {mapper : Int → MemRegion} {log : List Completed} {s : Handler}
    (h : (s.behind log).Defined mapper) : s.Defined mapper :=
  ⟨h.entries, h.buffers, h.event, h.header⟩

/-! ### A driver's requests stay in RAM -/

theorem slot_inMapping (c : Ring) (p : Nat) : InMapping c.ram.mapper (c.vq.slot p) 16 := by
  have hring := ((c.ram.confined_iff_inRam ⟨_, _⟩).mpr c.inRam).inMapping
  have hmem := c.slot_mem p
  rw [c.ring_host] at hmem
  exact hring.mono ⟨hmem.1, hmem.2⟩

section

variable {c : Ring} {s : RingSys}

/-- A descriptor of the request in execution, as the handler finds it. -/
theorem RingInv.mid_buffer {r : Request} {j u i a : Nat} {d : VringPackedDesc} (h : RingInv c s)
    (hm : Mid c s r j u) (hd : r.descs[i]? = some d)
    (ha : a = c.vq.slot (startOf s.published s.dev.log.length + i)) :
    VringPackedDesc.lenAt s.dev.mem a = d.len ∧
      ∀ len, len ≤ d.len → Confined c.ram.mapper ⟨VringPackedDesc.addrAt s.dev.mem a, len⟩ := by
  have hload : VringPackedDesc.load s.dev.mem a = d := by
    rw [ha]
    exact h.mid_load hm hd
  have hin := (h.wf _ r hm.1).1.inRam d (List.mem_of_getElem? hd)
  refine ⟨congrArg VringPackedDesc.len hload, fun len hlen => ?_⟩
  rw [show VringPackedDesc.addrAt s.dev.mem a = d.addr from congrArg VringPackedDesc.addr hload]
  refine (c.ram.confined_iff_inRam ⟨d.addr, len⟩).mpr (hin.imp (fun hs => ?_) (fun hs => ?_))
  · exact ⟨hs.1, hs.2.1, Nat.le_trans (Nat.add_le_add_left hlen _) hs.2.2⟩
  · exact ⟨hs.1, hs.2.1, Nat.le_trans (Nat.add_le_add_left hlen _) hs.2.2⟩

/-- Every descriptor a step uses is in the ring. -/
theorem RingInv.entries_slot (h : RingInv c s) (a : Nat) (ha : a ∈ s.dev.entries) :
    ∃ p, a = c.vq.slot p := by
  have hphase := h.phase
  unfold Phase at hphase
  unfold Handler.entries at ha
  -- The entry in front of a queue that stands at position `p`.
  have hnext : ∀ p, s.dev.vq = c.vq.atPos p →
      s.dev.vq.descRing + 16 * s.dev.vq.nextAvailIdx = c.vq.slot p := by
    intro p hvq
    rw [hvq]
    rfl
  cases hpc : s.dev.pc with
  | getHead =>
      rw [hpc] at hphase ha
      exact ⟨_, (List.mem_singleton.mp ha).trans (hnext _ hphase.1)⟩
  | copyHeader u =>
      rw [hpc] at hphase ha
      rcases hphase with ⟨r, -, hu, -⟩
      exact ⟨_, (List.mem_singleton.mp ha).trans hu⟩
  | getData u =>
      rw [hpc] at hphase ha
      rcases hphase with ⟨r, ⟨-, -, hvq, -⟩, -⟩
      exact ⟨_, (List.mem_singleton.mp ha).trans (hnext _ hvq)⟩
  | transfer u d =>
      rw [hpc] at hphase ha
      rcases hphase with ⟨r, -, -, -, hd⟩
      exact ⟨_, (List.mem_singleton.mp ha).trans hd⟩
  | getStatus u st x =>
      rw [hpc] at hphase ha
      rcases hphase with ⟨r, -, -, hvq, -⟩
      exact ⟨_, (List.mem_singleton.mp ha).trans (hnext _ hvq)⟩
  | putStatus u d st x =>
      rw [hpc] at hphase ha
      rcases hphase with ⟨r, -, hd⟩
      exact ⟨_, (List.mem_singleton.mp ha).trans hd⟩
  | putFlags u d x =>
      rw [hpc] at hphase ha
      rcases hphase with ⟨r, ⟨-, hu, -⟩, -⟩
      exact ⟨_, (List.mem_singleton.mp ha).trans hu⟩
  | putLen | fault =>
      rw [hpc] at hphase
      exact absurd hphase id
  | signal | done =>
      rw [hpc] at ha
      exact absurd ha List.not_mem_nil

/-- Every buffer a step uses is in RAM, and every header fits. -/
theorem RingInv.buffers_confined (h : RingInv c s) :
    (∀ u ∈ s.dev.buffers, Confined c.ram.mapper u) ∧ s.dev.copied ≤ blkReqSize := by
  have hphase := h.phase
  unfold Phase at hphase
  unfold Handler.buffers Handler.copied
  -- Three points use a buffer, and each is in a chain that was published.
  cases hpc : s.dev.pc with
  | copyHeader u =>
      rw [hpc] at hphase
      rcases hphase with ⟨r, hm⟩
      rcases h.mid_buffer hm (i := 0) rfl hm.2.1 with ⟨hlen, hconf⟩
      have hsixteen : r.hdr.len = 16 := (h.wf _ r hm.1).1.header
      refine ⟨fun b hb => ?_, ?_⟩
      · rw [List.mem_singleton.mp hb]
        exact hconf _ (Nat.le_of_eq hlen)
      · dsimp only
        rw [hlen, hsixteen]
        decide
  | transfer u d =>
      rw [hpc] at hphase
      rcases hphase with ⟨r, hm, hdata, -, hd⟩
      rcases List.length_eq_one_iff.mp hdata with ⟨x, hx⟩
      have hsecond : r.descs[1]? = some x := by
        rw [Chain.descs, hx]
        rfl
      rcases h.mid_buffer hm hsecond hd with ⟨hlen, hconf⟩
      refine ⟨fun b hb => ?_, Nat.zero_le _⟩
      rw [List.mem_singleton.mp hb]
      exact hconf _ (Nat.le_of_eq hlen)
  | putStatus u d st x =>
      rw [hpc] at hphase
      rcases hphase with ⟨r, hm, hd⟩
      rcases h.mid_buffer hm r.toChain.descs_last hd with ⟨-, hconf⟩
      refine ⟨fun b hb => ?_, Nat.zero_le _⟩
      rw [List.mem_singleton.mp hb]
      exact hconf 1 (h.wf _ r hm.1).1.status
  | getHead | getData | getStatus | putFlags | putLen | signal | done | fault =>
      exact ⟨fun b hb => absurd hb List.not_mem_nil, Nat.zero_le _⟩

/-- A run of the handler is defined in every step. -/
theorem RingInv.run_defined (h : RingInv c s) (hev : InMapping c.ram.mapper c.vq.guestEvent 4)
    (k : Nat) : ((handlerStep c.ram.mapper)^[k] s.dev).Defined c.ram.mapper := by
  have hstart : ∀ u d r, s.dev.pc ≠ .putLen u d r := by
    intro u d r hpc
    have hphase := h.phase
    unfold Phase at hphase
    rw [hpc] at hphase
    exact hphase
  rcases handlerRun_devStep c.ram.mapper s.dev hstart k with ⟨j, hj, -⟩ | ⟨j, u, d, r, hpc, hj⟩
  · have hinv := ringInv_devices h j
    rw [← hj]
    refine ⟨fun a ha => ?_, fun b hb => .inr (hinv.buffers_confined.1 b hb), fun hsig => ?_,
      hinv.buffers_confined.2⟩
    · rcases hinv.entries_slot a ha with ⟨p, rfl⟩
      exact slot_inMapping c p
    · have hphase := hinv.phase
      unfold Phase at hphase
      simp only [hsig] at hphase
      rw [hphase.1]
      exact hev
  · -- Between the two stores only the head is in use.
    have hinv := ringInv_devices h j
    rcases hinv.entries_slot u (by simp only [Handler.entries, hpc, List.mem_singleton]) with
      ⟨p, hp⟩
    have hlen : (handlerStep c.ram.mapper ((devStep c.ram.mapper)^[j] s.dev)).pc
        = .putLen u d r := by
      rw [handlerStep_putFlags _ _ u d r hpc]
    rw [← hj]
    generalize handlerStep c.ram.mapper ((devStep c.ram.mapper)^[j] s.dev) = t at hlen
    refine ⟨fun a ha => ?_, fun b hb => ?_, fun hsig => ?_, ?_⟩
    · simp only [Handler.entries, hlen, List.mem_singleton] at ha
      rw [ha, hp]
      exact slot_inMapping c p
    · simp only [Handler.buffers, hlen, List.not_mem_nil] at hb
    · simp only [hlen, reduceCtorEq] at hsig
    · simp only [Handler.copied, hlen, Nat.zero_le]

end

/-- What the handler leaves of its queue is the queue with its position. -/
theorem loadVirtq_leaveHandler (L : PciLayout) (d : PciDev) (a : Nat) (s : Handler)
    (ha : L.devCfg ≤ a) (hidx : s.vq.nextAvailIdx < 2 ^ 16)
    (hvq : s.vq = { loadVirtq d.host a with
      nextAvailIdx := s.vq.nextAvailIdx, usedWrapCount := s.vq.usedWrapCount }) :
    loadVirtq (leaveHandler L d a s).host a = s.vq := by
  have hcfg := L.devCfg_eq
  have hlt : s.vq.nextAvailIdx < 256 ^ 2 := by omega
  have hwrap : (if s.vq.usedWrapCount then 1 else 0) < 256 ^ 1 := by split_ifs <;> decide
  rw [hvq]
  simp only [loadVirtq_offsets, leaveHandler, regIsrCfg, virtqNextAvailIdx, virtqUsedWrapCount,
    Virtq.mk.injEq, VirtqInfo.mk.injEq]
  simp (disch := first | assumption | (unfold Apart; omega)) only
    [ByteMem.le_writeLE_apart, ByteMem.le_writeLE_self, true_and, and_true]
  cases s.vq.usedWrapCount <;> rfl

/-! ### Setting up -/

/-- The event can arrive: the access is forwarded, or the event registered. -/
def PciEvent.Arrives (d : PciDev) : PciEvent → Prop
  | .access acc => acc.Forwarded
  | .ioevent a => a ∈ d.events

instance (d : PciDev) (e : PciEvent) : Decidable (e.Arrives d) :=
  match e with
  | .access acc => inferInstanceAs (Decidable acc.Forwarded)
  | .ioevent a => inferInstanceAs (Decidable (a ∈ d.events))

/-- The queue registers are written while a queue of the device is selected. -/
def Selected (L : PciLayout) (d : PciDev) : PciEvent → Prop
  | .access (.write offset _) =>
      regQSize ≤ offset → offset ≤ regQUsedhi → queueSelect L d.host < L.n
  | _ => True

instance (L : PciLayout) (d : PciDev) (e : PciEvent) : Decidable (Selected L d e) :=
  match e with
  | .access (.write offset _) =>
      inferInstanceAs (Decidable (regQSize ≤ offset → offset ≤ regQUsedhi →
        queueSelect L d.host < L.n))
  | .access (.read _ _) => inferInstanceAs (Decidable True)
  | .ioevent _ => inferInstanceAs (Decidable True)

/-- What a driver does before its first doorbell: its writes stay inside the
    registers, the device configuration or the `info` of a queue there is, none
    runs over the enable flag, addresses are written only while the queue is not
    enabled, a size is between 1 and 128, and nothing is notified. -/
def SetUp (L : PciLayout) (d : PciDev) (e : PciEvent) : Prop :=
  RingFits L d e ∧ SizeFits L d e ∧ Selected L d e ∧ ¬ Notifies e

instance (e : PciEvent) : Decidable (Notifies e) :=
  match e with
  | .access (.write offset _) => inferInstanceAs (Decidable (offset = regNotifyCfg))
  | .access (.read _ _) => inferInstanceAs (Decidable False)
  | .ioevent _ => inferInstanceAs (Decidable True)

instance (L : PciLayout) (d : PciDev) (e : PciEvent) : Decidable (SetUp L d e) :=
  inferInstanceAs (Decidable (_ ∧ _ ∧ _ ∧ _))

/-- A queue ready for use: enabled, with a ring and a driver's event structure
    in RAM that its pointers lead to. -/
structure Programmed (R : RamMap) (vq : Virtq) : Prop where
  size_pos : 0 < vq.info.size
  size_lt : vq.info.size < 2 ^ 16
  enabled : vq.info.enable ≠ 0
  inRam : InRam R.mapper vq.info.descAddr (16 * vq.info.size)
  ring_host : vq.descRing = R.host vq.info.descAddr
  event_inRam : InRam R.mapper vq.info.driverAddr 4
  event_host : vq.guestEvent = R.host vq.info.driverAddr

/-- Its ring. -/
def ringOf (R : RamMap) (vq : Virtq) (h : Programmed R vq) : Ring :=
  { ram := R, vq := vq, size_pos := h.size_pos, size_lt := h.size_lt, enabled := h.enabled,
    inRam := h.inRam, ring_host := h.ring_host }

/-- What lies behind the queues is as `virtio_blk_setup` left it. -/
structure TailIntact (L : PciLayout) (d : PciDev) : Prop where
  irqfd : d.host.le L.tail 4 = L.irqfd
  diskimg : d.host.le (L.tail + tailDiskimg) 8 = L.diskimg

/-- What `virtq_init` left of a queue that no programming changes. -/
structure Unused (L : PciLayout) (vq : Virtq) : Prop where
  position : vq.nextAvailIdx = 0
  wrap : vq.usedWrapCount = true
  dev : vq.dev = L.dev
  handler : vq.handleOutput = L.handler

section

variable {mapper : Int → MemRegion} {L : PciLayout} {d d' : PciDev} {e : PciEvent} {q : Nat}

/-- Nothing but a notification gets at the guest's memory and the image. -/
theorem quiet_guest (hn : ¬ Notifies e) (hs : PciStep mapper L e d d') :
    d'.guest = d.guest ∧ d'.img = d.img := by
  cases hs with
  | access acc _ _ hacc hio =>
      cases hio with
      | read _ offset size =>
          unfold virtioPciIospaceRead
          split_ifs <;> exact ⟨rfl, rfl⟩
      | write _ offset data hnone =>
          unfold virtioPciIospaceWrite virtioPciCommand virtioPciCmdEnableVirtq
          dsimp only
          split_ifs <;> exact ⟨rfl, rfl⟩
      | notify _ _ offset data a hsome => exact absurd (regWrite_notified offset data a hsome).1 hn
  | ioevent => exact absurd trivial hn

/-- A write that keeps to the registers, to the configuration and to the queues
    there are is contained, if it is no doorbell. -/
theorem contained_of_selected (h : Anchored L d) (hdev : DevFits L e) (hsel : Selected L d e)
    (harr : e.Arrives d) (hbell : DoorbellInside mapper L d e) : Contained mapper L d e := by
  have hge := L.vq_ge
  have hcfg := L.devCfg_eq
  match e, hdev, hsel, harr, hbell with
  | .access (.read _ _), _, _, _, hbell => exact ⟨trivial, trivial, hbell⟩
  | .ioevent _, _, _, _, hbell => exact ⟨trivial, trivial, hbell⟩
  | .access (.write offset data), hdev, hsel, harr, hbell =>
      refine ⟨fun hw => ?_, fun ho => ?_, hbell⟩
      · -- A queue register, and a queue is selected.
        have hlen : data.length ≤ 8 := Access.Forwarded.size_le harr
        have hrange := hw.range
        have hlast : offset ≤ regQUsedhi := by
          rcases hw with ⟨ho, -⟩ | ⟨hin, -⟩
          · rw [ho]
            decide
          · exact hin.2.1
        have hend : offset + data.length ≤ devVq := by
          unfold regQUsedhi at hlast
          unfold devVq
          omega
        exact (h.queueInside_iff offset data hend).mpr (fun _ => hsel hrange.1 hlast) hw
      · have hfit := hdev ho
        rw [h.devCfg]
        unfold InDevice PciLayout.tail
        omega

/-- Behind the queues nothing is written. -/
theorem tail_step (h : Anchored L d) (hdev : DevFits L e) (hsel : Selected L d e)
    (hs : PciStep mapper L e d d') (ht : TailIntact L d) : TailIntact L d' := by
  -- A queue selected would have to be one past the last.
  have hkeep : ∀ o k, o + k ≤ virtqNextAvailIdx →
      d'.host.le (L.tail + o) k = d.host.le (L.tail + o) k := by
    intro o k hk
    unfold virtqNextAvailIdx at hk
    refine h.queue_field hs hdev L.n o k (by unfold virtqSize; omega)
      (fun _ => .of_le (by unfold virtqNextAvailIdx; omega)) (fun data he hi => ?_)
      (fun offset data he hw hi _ => ?_)
    · subst he
      exact absurd hi (Nat.ne_of_lt (hsel (by decide) (by decide)))
    · subst he
      exact absurd hi (Nat.ne_of_lt (hsel hw.1 hw.2.1))
  exact ⟨(hkeep 0 4 (by decide)).trans ht.irqfd,
    (hkeep tailDiskimg 8 (by decide)).trans ht.diskimg⟩

theorem SetUp.contained (hc : SetUp L d e) (h : Anchored L d) (harr : e.Arrives d) :
    Contained mapper L d e := by
  rcases hc with ⟨⟨-, hdev, -⟩, -, hsel, hn⟩
  refine contained_of_selected h hdev hsel harr ?_
  match e, hn with
  | .access (.read _ _), _ => exact trivial
  | .access (.write _ _), hn => exact fun ho => absurd ho hn
  | .ioevent _, hn => exact absurd trivial hn

theorem unused_step (h : Anchored L d) (hc : SetUp L d e) (hs : PciStep mapper L e d d')
    (hu : Unused L (queueAt L d.host q)) : Unused L (queueAt L d'.host q) := by
  rcases hc with ⟨⟨-, hdev, hwin⟩, -, -, hn⟩
  -- The four fields lie behind `info`.
  have hkeep : ∀ o k, virtqDev ≤ o → o + k ≤ virtqSize →
      d'.host.le (L.vq + virtqSize * q + o) k = d.host.le (L.vq + virtqSize * q + o) k := by
    intro o k ho hk
    unfold virtqDev at ho
    refine h.queue_field hs hdev q o k hk (fun hyes => absurd hyes hn)
      (fun data he hi => ⟨by unfold virtqInfo; omega, .of_ge (by unfold virtqEnabled; omega)⟩)
      (fun offset data he hw hi hlt => ?_)
    subst he
    have hend := (hwin hw hlt).1
    unfold regQSize virtqInfoSize at hend
    exact .of_le (by omega)
  rcases hu with ⟨h1, h2, h3, h4⟩
  simp only [queueAt, loadVirtq] at h1 h2 h3 h4
  refine ⟨?_, ?_, ?_, ?_⟩
  · exact (hkeep virtqNextAvailIdx 2 (by decide) (by decide)).trans h1
  · simp only [queueAt, loadVirtq]
    rw [hkeep virtqUsedWrapCount 1 (by decide) (by decide)]
    exact h2
  · exact (hkeep virtqDev 8 (by decide) (by decide)).trans h3
  · exact (hkeep virtqHandleOutput 8 (by decide) (by decide)).trans h4

/-- A queue after the set-up, if it was enabled: ready for use with its ring in
    RAM, and at the start of it. -/
theorem setUp_queue {d₀ : PciDev} (h₀ : d₀.Initial L) (hq : q < L.n)
    (hrun : Run (PciOutcome mapper L) (fun d e => SetUp L d e ∧ e.Arrives d) d₀ d) (R : RamMap)
    (hR : R.mapper = mapper) (henabled : (queueAt L d.host q).info.enable ≠ 0)
    (hram : InRam R.mapper (queueAt L d.host q).info.descAddr
      (16 * (queueAt L d.host q).info.size))
    (hdriver : InRam R.mapper (queueAt L d.host q).info.driverAddr 4) :
    Anchored L d ∧ d.img = d₀.img ∧ TailIntact L d ∧ Programmed R (queueAt L d.host q) ∧
      Unused L (queueAt L d.host q) := by
  have hinv : Anchored L d ∧ d.img = d₀.img ∧ TailIntact L d ∧
      RingsCurrent mapper (queueAt L d.host q) ∧ PositionOk (queueAt L d.host q) ∧
      Unused L (queueAt L d.host q) := by
    -- Programming a queue stores nothing in guest memory, so all of this is kept together.
    refine hrun.invariant (P := fun s => Anchored L s ∧ s.img = d₀.img ∧ TailIntact L s ∧
      RingsCurrent mapper (queueAt L s.host q) ∧ PositionOk (queueAt L s.host q) ∧
      Unused L (queueAt L s.host q)) ?_ ?_
    · have hfresh : queueAt L d₀.host q = virtqFresh L := h₀.queue q hq
      rw [hfresh]
      exact ⟨h₀.anchored, rfl, ⟨h₀.tail.1, h₀.tail.2⟩, fun hne => absurd rfl hne,
        by simp [PositionOk, virtqFresh, virtqInit], rfl, rfl, rfl, rfl⟩
    · rintro t e u ⟨ha, himg, ht, hr, hp, hu⟩ ⟨hc, harr⟩ hout
      -- What the condition asks of a step also keeps it inside, so the model speaks of it.
      have hs : PciStep mapper L e t u := hout (hc.contained ha harr)
      exact ⟨anchored_step ha hc.1.1 hs, (quiet_guest hc.2.2.2 hs).2.trans himg,
        tail_step ha hc.1.2.1 hc.2.2.1 hs ht, ringsCurrent_step ha hc.1 hs q hr,
        position_step ha hc.2.1 hs q hp, unused_step ha hc hs hu⟩
  rcases hinv with ⟨ha, himg, ht, hrings, ⟨hpos, hle, -⟩, hunused⟩
  rcases hrings henabled with ⟨hdesc, hevent, -⟩
  rw [← hR] at hdesc hevent
  exact ⟨ha, himg, ht, ⟨hpos, by omega, henabled, hram, hdesc, hdriver, hevent⟩, hunused⟩

end

/-! ### The session -/

/-- The device, the requests the driver has published, and how many of them it
    has seen used. -/
structure BlkSession where
  dev : PciDev
  published : List Request
  reaped : Nat

/-- The ring of queue `q` with its device at rest, as the driver sees it. -/
def BlkSession.sys (L : PciLayout) (q : Nat) (b : BlkSession) : RingSys :=
  { dev := { enterHandler L b.dev (L.vq + virtqSize * q) (fun _ => 0) with pc := .done },
    published := b.published, staged := none, reaped := b.reaped }

/-- A notification is for queue `q`. -/
def NotifiesOnly (L : PciLayout) (q : Nat) (d : PciDev) : PciEvent → Prop
  | .access (.write offset data) =>
      offset = regNotifyCfg → notifyVqn L (d.host.write (L.config + offset) data) = q
  | .access (.read _ _) => True
  | .ioevent a => a = L.vq + virtqSize * q

instance (L : PciLayout) (q : Nat) (d : PciDev) (e : PciEvent) : Decidable (NotifiesOnly L q d e) :=
  match e with
  | .access (.write offset data) =>
      inferInstanceAs (Decidable (offset = regNotifyCfg →
        notifyVqn L (d.host.write (L.config + offset) data) = q))
  | .access (.read _ _) => inferInstanceAs (Decidable True)
  | .ioevent a => inferInstanceAs (Decidable (a = L.vq + virtqSize * q))

/-- An access or a doorbell while the queue is in use: it can arrive, writes
    stay where they belong and go to queues there are, none goes to the queue's
    own record, and no other queue is notified. -/
structure Serving (L : PciLayout) (q : Nat) (d : PciDev) (e : PciEvent) : Prop where
  block : BlockFits e
  devCfg : DevFits L e
  selected : Selected L d e
  window : OnWindow L d (fun _ _ => queueSelect L d.host ≠ q) e
  notifies : NotifiesOnly L q d e
  arrives : e.Arrives d

instance (L : PciLayout) (q : Nat) (d : PciDev) (e : PciEvent) : Decidable (Serving L q d e) :=
  decidable_of_iff (BlockFits e ∧ DevFits L e ∧ Selected L d e ∧
      OnWindow L d (fun _ _ => queueSelect L d.host ≠ q) e ∧ NotifiesOnly L q d e ∧ e.Arrives d)
    ⟨fun h => ⟨h.1, h.2.1, h.2.2.1, h.2.2.2.1, h.2.2.2.2.1, h.2.2.2.2.2⟩,
      fun h => ⟨h.block, h.devCfg, h.selected, h.window, h.notifies, h.arrives⟩⟩

/-- What can happen in a session: the driver publishes a request or sees one
    used, and the device has an access or a doorbell. -/
inductive SessionEvent where
  | publish (r : Request)
  | reap
  | device (e : PciEvent)

inductive SessionStep (mapper : Int → MemRegion) (L : PciLayout) (c : Ring) (q : Nat) :
    SessionEvent → BlkSession → BlkSession → Prop where
  | publish (b : BlkSession) (r : Request) :
      SessionStep mapper L c q (.publish r) b
        { dev := { b.dev with guest := ((b.sys L q).put c r).dev.mem },
          published := b.published ++ [r], reaped := b.reaped }
  | reap (b : BlkSession) : SessionStep mapper L c q .reap b { b with reaped := b.reaped + 1 }
  | device (b : BlkSession) (e : PciEvent) (d : PciDev) :
      PciOutcome mapper L e b.dev d → SessionStep mapper L c q (.device e) b { b with dev := d }

/-- The driver keeps to the protocol, and to its queue. -/
def SessionFits (L : PciLayout) (c : Ring) (q : Nat) (b : BlkSession) : SessionEvent → Prop
  | .publish r => Transfer c (b.sys L q) r
  | .reap => b.reaped < b.published.length ∧
      (VringPackedDesc.flagsAt b.dev.guest (c.vq.slot (b.sys L q).head)).testBit descUsedBit
        = wrapAt c.n (b.sys L q).head
  | .device e => Serving L q b.dev e

/-- The ring is that of the device's queue `q`, with the driver's event
    structure in RAM. -/
structure Attached (mapper : Int → MemRegion) (L : PciLayout) (c : Ring) (q : Nat) : Prop where
  ram : c.ram.mapper = mapper
  index : q < L.n
  handler : c.vq.handleOutput = L.handler
  dev : c.vq.dev = L.dev
  event : InMapping c.ram.mapper c.vq.guestEvent 4

/-- The device serves the ring `s` of queue `q`. -/
structure Serves (L : PciLayout) (c : Ring) (q : Nat) (w : ByteMem × Diskimg) (b : BlkSession)
    (s : RingSys) : Prop where
  sched : SchedInv c w.1 w.2 s
  anchored : Anchored L b.dev
  tail : TailIntact L b.dev
  vq : s.dev.vq = queueAt L b.dev.host q
  mem : s.dev.mem = b.dev.guest
  img : s.dev.img = b.dev.img
  published : s.published = b.published
  reaped : s.reaped = b.reaped

section

variable {mapper : Int → MemRegion} {L : PciLayout} {d d' : PciDev} {e : PciEvent} {q : Nat}

/-- The device when a doorbell has been heard: the copy is made if it came as a
    write. -/
def PciDev.heard (L : PciLayout) (d : PciDev) : PciEvent → PciDev
  | .access (.write offset data) => { d with host := d.host.write (L.config + offset) data }
  | _ => d

/-- The queue a write of the notify register names. -/
theorem notified_at (h : Anchored L d) (data : List UInt8)
    (hacc : (Access.write regNotifyCfg data).Forwarded)
    (hq : NotifiesOnly L q d (.access (.write regNotifyCfg data))) :
    vqAt L (d.host.write (L.config + regNotifyCfg) data)
        (notifyVqn L (d.host.write (L.config + regNotifyCfg) data)) = L.vq + virtqSize * q := by
  rw [vqAt, (copy_keeps regNotifyCfg data (by decide) hacc.size_le).1, h.vq, hq rfl]

/-- A doorbell for queue `q` is a notification of it. -/
theorem doorbell_iff (h : Anchored L d) (hn : Notifies e) (hq : NotifiesOnly L q d e) :
    PciStep mapper L e d d' ↔
      e.Arrives d ∧ VirtqNotifyAt mapper L (L.vq + virtqSize * q) (d.heard L e) d' := by
  -- A doorbell is a write of the notify register, or KVM signalling its event.
  match e, hn, hq with
  | .access (.write offset data), hn, hq =>
      have ho : offset = regNotifyCfg := hn
      subst ho
      constructor
      · intro hs
        cases hs with
        | access _ _ _ hacc hio =>
            cases hio with
            | write _ _ _ hnone =>
                rw [notifyWrite_eq] at hnone
                exact absurd hnone (Option.some_ne_none _)
            | notify _ _ _ _ a hsome hnot =>
                rcases regWrite_notified regNotifyCfg data a hsome with ⟨-, ha, hst⟩
                rw [hst, ha, notified_at h data hacc hq] at hnot
                exact ⟨hacc, hnot⟩
      · rintro ⟨hacc, hnot⟩
        refine .access _ _ _ hacc (.notify _ _ _ _ (L.vq + virtqSize * q) ?_ ?_)
        · rw [notifyWrite_eq, ← notified_at h data hacc hq]
        · rw [notifyWrite_eq]
          exact hnot
  | .ioevent a, _, hq =>
      have ha : a = L.vq + virtqSize * q := hq
      subst ha
      constructor
      · intro hs
        cases hs with
        | ioevent _ _ _ hmem hnot => exact ⟨hmem, hnot⟩
      · rintro ⟨hmem, hnot⟩
        exact .ioevent _ _ _ hmem hnot

/-- Hearing a doorbell changes no queue. -/
theorem heard_queue (hn : Notifies e) (harr : e.Arrives d) :
    queueAt L (d.heard L e).host q = queueAt L d.host q := by
  match e, hn, harr with
  | .access (.write offset data), hn, harr =>
      have ho : offset = regNotifyCfg := hn
      subst ho
      exact queueAt_copy regNotifyCfg data (by decide) (Access.Forwarded.size_le harr) q
  | .ioevent a, _, _ => rfl

theorem heard_tail (harr : e.Arrives d) (hn : Notifies e) (h : TailIntact L d) :
    TailIntact L (d.heard L e) := by
  have hge := L.vq_ge
  have hcfg := L.devCfg_eq
  match e, hn, harr with
  | .access (.write offset data), hn, harr =>
      have ho : offset = regNotifyCfg := hn
      subst ho
      have hlen : data.length ≤ 8 := Access.Forwarded.size_le harr
      -- The copy ends below the queues.
      have hkeep : ∀ o k, (d.host.write (L.config + regNotifyCfg) data).le (L.tail + o) k
          = d.host.le (L.tail + o) k := by
        intro o k
        refine ByteMem.le_congr _ _ _ _ fun i hi => ByteMem.write_outside _ _ _ _ (.inr ?_)
        unfold regNotifyCfg PciLayout.tail
        omega
      exact ⟨(hkeep 0 4).trans h.irqfd, (hkeep tailDiskimg 8).trans h.diskimg⟩
  | .ioevent a, _, _ => exact h

theorem heard_guest : (d.heard L e).guest = d.guest ∧ (d.heard L e).img = d.img := by
  match e with
  | .access (.write _ _) | .access (.read _ _) | .ioevent _ => exact ⟨rfl, rfl⟩

/-- Without a notification the queue stays what it is. -/
theorem serving_queue (h : Anchored L d) (hc : Serving L q d e) (hn : ¬ Notifies e)
    (hs : PciStep mapper L e d d') (hen : (queueAt L d.host q).info.enable ≠ 0) :
    queueAt L d'.host q = queueAt L d.host q := by
  by_cases hagain : ∃ data, e = .access (.write regQEnable data) ∧ queueSelect L d.host = q
  · -- Enabling it once more does nothing.
    rcases hagain with ⟨data, rfl, rfl⟩
    rw [queueAt, step_enable_queue data h.vq hs]
    split_ifs
    · exact if_pos hen
    · rfl
  · refine loadVirtq_congr _ _ _ fun x h1 h2 => step_spares hs h.vq x ?_
    rcases Nat.exists_eq_add_of_le h1 with ⟨o, rfl⟩
    refine h.spares_queue hs hc.devCfg q o (by omega) (fun hyes => absurd hyes hn) ?_ ?_
    · intro data he hsel
      exact absurd ⟨data, he, hsel⟩ hagain
    · rintro offset data rfl hw hsel hlt
      exact absurd hsel (hc.window hw hlt)

/-! ### What a step of a session does -/

variable {c : Ring} {w : ByteMem × Diskimg} {b b' : BlkSession} {s : RingSys} {ev : SessionEvent}

/-- What is on the stack, and the interrupts so far, are nothing to a schedule. -/
theorem schedInv_locals {m₀ : ByteMem} {img₀ : Diskimg} (h : SchedInv c m₀ img₀ s) (req : ByteMem)
    (isrStatus irqs : Nat) :
    SchedInv c m₀ img₀ { s with
      dev := { s.dev with req := req, isrStatus := isrStatus, irqs := irqs } } := by
  have hidle := h.batch.idle
  have hphase := h.batch.ring.phase
  unfold Phase at hphase
  rw [hidle] at hphase
  refine ⟨⟨?_, hidle, h.batch.unstaged, h.batch.served⟩, h.reqs, h.separate⟩
  refine h.batch.ring.transport rfl rfl rfl rfl (fun _ => rfl) h.batch.ring.types ?_
  unfold Phase
  simp only [hidle]
  exact hphase

/-- Between steps the queue stands at the position of the next request. -/
theorem Serves.position (h : Serves L c q w b s) :
    queueAt L b.dev.host q = c.vq.atPos (startOf s.published s.dev.log.length) ∧
      s.dev.taken = [] := by
  have hphase := h.sched.batch.ring.phase
  unfold Phase at hphase
  rw [h.sched.batch.idle] at hphase
  exact ⟨h.vq.symm.trans hphase.1, hphase.2⟩

theorem Serves.enabled (h : Serves L c q w b s) : (queueAt L b.dev.host q).info.enable ≠ 0 := by
  rw [h.position.1, Virtq.atPos_info]
  exact c.enabled

/-- The driver's view of a session is that of the ring it serves. -/
theorem Serves.transfer {r : Request} (h : Serves L c q w b s) (hr : Transfer c (b.sys L q) r) :
    Transfer c s r := by
  have htail : s.tail = (b.sys L q).tail := by
    rw [RingSys.tail, RingSys.tail, h.published]
    rfl
  have hhead : s.head = (b.sys L q).head := by
    rw [RingSys.head, RingSys.head, h.published, h.reaped]
    rfl
  have hmem : s.dev.mem = (b.sys L q).dev.mem := h.mem
  have himg : s.dev.img = (b.sys L q).dev.img := h.img
  have hpub : s.published = (b.sys L q).published := h.published
  exact
    { wf := by rw [htail]; exact hr.wf
      room := by rw [htail, hhead]; exact hr.room
      type := by rw [hmem]; exact hr.type
      isTransfer := hr.isTransfer
      data := hr.data
      extent := by rw [hmem, himg]; exact hr.extent
      separate := by rw [hpub]; exact hr.separate }

/-- The ring's handler entered by a doorbell: this call's locals, and the record
    of the earlier ones. -/
theorem Serves.enter (h : Serves L c q w b s) (hn : Notifies e) (harr : e.Arrives b.dev)
    (req : ByteMem) :
    ∃ s', SchedInv c w.1 w.2 s' ∧ s'.published = b.published ∧ s'.reaped = b.reaped ∧
      virtqNotify s'.dev
        = (enterHandler L (b.dev.heard L e) (L.vq + virtqSize * q) req).behind s.dev.log := by
  have hlocal := schedInv_locals h.sched req ((b.dev.heard L e).host.le (L.config + regIsrCfg) 4)
    (b.dev.heard L e).irqs
  refine ⟨_, hlocal, h.published, h.reaped, ?_⟩
  rw [hlocal.batch.ring.notify_eq hlocal.batch.idle]
  unfold enterHandler Handler.behind
  rw [heard_guest.1, heard_guest.2, ← h.mem, ← h.img, List.append_nil, ← h.position.2,
    show loadVirtq (b.dev.heard L e).host (L.vq + virtqSize * q) = s.dev.vq from
      (heard_queue hn harr).trans h.vq.symm]

/-- The handler called by a doorbell finds what was set up, and stays in RAM. -/
theorem Serves.callInside (h : Serves L c q w b s) (hat : Attached mapper L c q)
    (hn : Notifies e) (harr : e.Arrives b.dev) :
    CallInside mapper L (b.dev.heard L e) (L.vq + virtqSize * q) := by
  have hqueue : queueAt L (b.dev.heard L e).host q = _ := (heard_queue hn harr).trans h.position.1
  have htail := heard_tail harr hn h.tail
  refine ⟨⟨q, hat.index, rfl⟩, ?_, ?_, htail.irqfd, htail.diskimg, fun req k => ?_⟩
  · change (queueAt L (b.dev.heard L e).host q).handleOutput = L.handler
    rw [hqueue]
    exact hat.handler
  · change (queueAt L (b.dev.heard L e).host q).dev = L.dev
    rw [hqueue]
    exact hat.dev
  · -- The call is a run of the ring's handler, up to the record.
    rcases h.enter hn harr req with ⟨s', hsched, -, -, henter⟩
    have hdef := (ringInv_notify hsched.batch.ring hsched.batch.idle).run_defined hat.event k
    dsimp only at hdef
    rw [henter, handlerRun_behind, hat.ram] at hdef
    exact Handler.behind_defined hdef

/-- Every event of a session is contained. -/
theorem Serves.contained (h : Serves L c q w b s) (hat : Attached mapper L c q)
    (hc : Serving L q b.dev e) : Contained mapper L b.dev e := by
  refine contained_of_selected h.anchored hc.devCfg hc.selected hc.arrives ?_
  match e, hc with
  | .access (.read _ _), _ => exact trivial
  | .access (.write offset data), hc =>
      intro ho
      subst ho
      rw [notified_at h.anchored data hc.arrives hc.notifies]
      exact fun _ => h.callInside hat (e := .access (.write regNotifyCfg data)) rfl hc.arrives
  | .ioevent a, hc =>
      have ha : a = L.vq + virtqSize * q := hc.notifies
      subst ha
      exact fun _ => h.callInside hat (e := .ioevent _) trivial hc.arrives

/-- The handler of the queue returns from every doorbell. -/
theorem Serves.returns (h : Serves L c q w b s) (hat : Attached mapper L c q) (hn : Notifies e)
    (harr : e.Arrives b.dev) :
    ∃ d', VirtqNotifyAt mapper L (L.vq + virtqSize * q) (b.dev.heard L e) d' := by
  have hcall := h.callInside hat hn harr
  rcases h.enter hn harr (fun _ => 0) with ⟨s', hsched, -, -, henter⟩
  rcases batchInv_drain hsched.batch with ⟨k, hk, -⟩
  rw [hat.ram, henter, handlerRun_behind] at hk
  refine ⟨_, .handled _ (fun _ => 0) k ?_ hcall.handler hcall.dev hk⟩
  change (queueAt L (b.dev.heard L e).host q).info.enable ≠ 0
  rw [heard_queue hn harr]
  exact h.enabled

/-- A doorbell is a notification of the ring, and when it has returned
    everything published has been executed. -/
theorem serves_doorbell (hlen : w.2.file.len = w.2.size) (hsize : w.2.size < 2 ^ 64)
    (hram : c.ram.mapper = mapper) (h : Serves L c q w b s) (hn : Notifies e)
    (harr : e.Arrives b.dev) (ha : Anchored L d) (ht : TailIntact L d)
    (hnot : VirtqNotifyAt mapper L (L.vq + virtqSize * q) (b.dev.heard L e) d) :
    ∃ s', Serves L c q w { b with dev := d } s' ∧ s'.dev.log.length = s'.published.length := by
  have hge := L.vq_ge
  have hqueue : queueAt L (b.dev.heard L e).host q = _ := (heard_queue hn harr).trans h.position.1
  subst hram
  cases hnot with
  | disabled hoff =>
      have hen : (queueAt L (b.dev.heard L e).host q).info.enable ≠ 0 := by
        rw [hqueue]
        exact c.enabled
      exact absurd hoff hen
  | handled req k hon hhandler hdev hdone =>
      rcases h.enter hn harr req with ⟨s', hsched, hpub, hreaped, henter⟩
      have hrun := handlerRun_behind c.ram.mapper s.dev.log k
        (enterHandler L (b.dev.heard L e) (L.vq + virtqSize * q) req)
      rw [← henter] at hrun
      have hend : ((handlerStep c.ram.mapper)^[k] (virtqNotify s'.dev)).pc = .done := by
        rw [hrun]
        exact hdone
      have hstep := schedInv_step hlen hsize hsched (.notify s' k hend)
      have hall := (batchInv_notify hsched.batch k hend).2
      rw [hrun] at hstep hall
      generalize (handlerStep c.ram.mapper)^[k]
        (enterHandler L (b.dev.heard L e) (L.vq + virtqSize * q) req) = D at *
      -- The queue's position goes back to where the next call will look for it.
      have hphase := hstep.batch.ring.phase
      unfold Phase at hphase
      rw [hstep.batch.idle] at hphase
      have hvq : D.vq = _ := hphase.1
      have hback : loadVirtq (leaveHandler L (b.dev.heard L e) (L.vq + virtqSize * q) D).host
          (L.vq + virtqSize * q) = D.vq := by
        refine loadVirtq_leaveHandler L _ _ D (by omega) ?_ ?_
        · rw [hvq]
          exact lt_of_lt_of_le (Nat.mod_lt _ c.size_pos) (le_of_lt c.size_lt)
        · rw [hvq, show loadVirtq (b.dev.heard L e).host (L.vq + virtqSize * q) = _ from hqueue]
          rfl
      exact ⟨{ s' with dev := D.behind s.dev.log },
        ⟨hstep, ha, ht, hback.symm, rfl, rfl, hpub, hreaped⟩, hall⟩

/-- One step of a session. After a notification nothing is left to execute. -/
theorem serves_step (hlen : w.2.file.len = w.2.size) (hsize : w.2.size < 2 ^ 64)
    (hat : Attached mapper L c q) (h : Serves L c q w b s) (hc : SessionFits L c q b ev)
    (hs : SessionStep mapper L c q ev b b') :
    ∃ s', Serves L c q w b' s' ∧
      ((∃ e, ev = .device e ∧ Notifies e) → s'.dev.log.length = s'.published.length) := by
  cases hs with
  | publish _ r =>
      -- The driver takes its chain to the ring; the device is not looked at.
      have hr : Transfer c s r := h.transfer hc
      refine ⟨s.put c r, ⟨schedInv_step hlen hsize h.sched (.publish s r hr),
        ⟨h.anchored.vq, h.anchored.devCfg, h.anchored.events⟩, ⟨h.tail.irqfd, h.tail.diskimg⟩,
        h.vq, ?_, h.img, ?_, h.reaped⟩, ?_⟩
      · unfold RingSys.put RingSys.setMem RingSys.tail
        dsimp only
        rw [h.mem, h.published]
        rfl
      · rw [← h.published]
        rfl
      · rintro ⟨e, he, -⟩
        exact absurd he (by simp only [reduceCtorEq, not_false_eq_true])
  | reap _ =>
      rcases hc with ⟨hlt, hused⟩
      -- The driver goes by the ring it sees, which is the one of the schedule.
      have hhead : (b.sys L q).head = s.head := by
        rw [RingSys.head, RingSys.head, h.published, h.reaped]
        rfl
      rw [hhead, ← h.mem] at hused
      rw [← h.reaped, ← h.published] at hlt
      refine ⟨{ s with reaped := s.reaped + 1 },
        ⟨schedInv_step hlen hsize h.sched (.reap s hlt hused), h.anchored, h.tail, h.vq, h.mem,
          h.img, h.published, by rw [h.reaped]⟩, ?_⟩
      rintro ⟨e, he, -⟩
      exact absurd he (by simp only [reduceCtorEq, not_false_eq_true])
  | device _ e d' hout =>
      -- A doorbell is one drain of the schedule, and any other access is no step of it.
      have hserving : Serving L q b.dev e := hc
      have hstep : PciStep mapper L e b.dev d' := hout (h.contained hat hserving)
      have ha : Anchored L d' := anchored_step h.anchored hserving.block hstep
      have ht : TailIntact L d' :=
        tail_step h.anchored hserving.devCfg hserving.selected hstep h.tail
      by_cases hn : Notifies e
      · rcases (doorbell_iff h.anchored hn hserving.notifies).mp hstep with ⟨harr, hnot⟩
        rcases serves_doorbell hlen hsize hat.ram h hn harr ha ht hnot with ⟨s', hs', hall⟩
        exact ⟨s', hs', fun _ => hall⟩
      · rcases quiet_guest hn hstep with ⟨hguest, himg⟩
        refine ⟨s, ⟨h.sched, ha, ht, ?_, h.mem.trans hguest.symm, h.img.trans himg.symm,
          h.published, h.reaped⟩, ?_⟩
        · exact h.vq.trans (serving_queue h.anchored hserving hn hstep h.enabled).symm
        · rintro ⟨e', he, hn'⟩
          cases he
          exact absurd hn' hn

/-- A session begins with the ring empty. -/
theorem serves_start {R : RamMap} (h : Programmed R (queueAt L d.host q)) (ha : Anchored L d)
    (ht : TailIntact L d) (hunused : Unused L (queueAt L d.host q)) (m : ByteMem)
    (hfresh : ∀ p, p < (queueAt L d.host q).info.size → looksAvail true
      (VringPackedDesc.flagsAt m ((queueAt L d.host q).slot p)) = false) :
    ∃ s, Serves L (ringOf R _ h) q (m, d.img) ⟨{ d with guest := m }, [], 0⟩ s := by
  -- The first lap has the wrap counter set.
  have hlap : ∀ p, p < (queueAt L d.host q).info.size →
      wrapAt (queueAt L d.host q).info.size p = true := by
    intro p hp
    rw [wrapAt, Nat.div_eq_of_lt hp]
    rfl
  have hfirst : queueAt L d.host q = (queueAt L d.host q).atPos 0 := by
    rw [Virtq.atPos, hlap 0 h.size_pos, Nat.zero_mod, ← hunused.position, ← hunused.wrap]
  have hinit : (BlkSession.sys L q ⟨{ d with guest := m }, [], 0⟩).Initial (ringOf R _ h) := by
    refine ⟨rfl, rfl, rfl, hfirst, rfl, rfl, rfl, fun p hp => ?_⟩
    have hwrap : wrapAt (ringOf R _ h).n p = true := hlap p hp
    rw [hwrap]
    exact hfresh p hp
  refine ⟨_, ⟨batchInv_initial _ _ hinit, ?_, List.Pairwise.nil⟩,
    ⟨ha.vq, ha.devCfg, ha.events⟩, ⟨ht.irqfd, ht.diskimg⟩, rfl, rfl, rfl, rfl, rfl⟩
  intro r hr
  exact absurd hr List.not_mem_nil

/-- The ring of a queue that was programmed is the device's. -/
theorem Programmed.attached {R : RamMap} {vq : Virtq} (h : Programmed R vq) (hq : q < L.n)
    (hunused : Unused L vq) : Attached R.mapper L (ringOf R vq h) q := by
  refine ⟨rfl, hq, hunused.handler, hunused.dev, ?_⟩
  have hevent := ((R.confined_iff_inRam ⟨_, _⟩).mpr h.event_inRam).inMapping
  change InMapping R.mapper vq.guestEvent 4
  rw [h.event_host]
  exact hevent

/-- A device whose driver has set up and enabled the queue, -/
def sampleReady : PciDev :=
  pciWrites sampleMapper sampleLayout { samplePci with img := sampleDisk }
    [(22, [0, 0]), (32, [0, 0x10, 0, 0]), (40, [0, 0x50, 0, 0]), (48, [0, 0x60, 0, 0]),
      (28, [1, 0])]

theorem sampleReady_programmed : Programmed sampleRam (queueAt sampleLayout sampleReady.host 0) :=
  ⟨by decide +kernel, by decide +kernel, by decide +kernel, by decide +kernel, by decide +kernel,
    by decide +kernel, by decide +kernel⟩

/-- and published a read of the first sixteen bytes. -/
def sampleReading : BlkSession :=
  { dev := { sampleReady with guest := ((BlkSession.sys sampleLayout 0 ⟨sampleReady, [], 0⟩).put
      (ringOf sampleRam _ sampleReady_programmed) (readChain 0x2000 0x3000 0x4000)).dev.mem },
    published := [readChain 0x2000 0x3000 0x4000], reaped := 0 }

theorem sampleReading_transfer : Transfer (ringOf sampleRam _ sampleReady_programmed)
    (BlkSession.sys sampleLayout 0 ⟨sampleReady, [], 0⟩) (readChain 0x2000 0x3000 0x4000) :=
  ⟨⟨by decide +kernel, by decide +kernel, rfl, by decide +kernel, by decide +kernel,
    by decide +kernel⟩, by decide +kernel, by decide +kernel, rfl, rfl, by decide +kernel,
    by decide +kernel⟩

end

end Microv
