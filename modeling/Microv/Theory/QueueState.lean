import Microv.Theory.Handler
import Microv.Theory.VirtioPci

/-!
# What a Queue Holds

Two invariants of a queue under guest programming: its ring pointers are those
of the programmed addresses, and its position lies in the ring.

`virtq_enable` translates the addresses once, and the window goes on writing
to `info` afterwards. The pointers stay current as long as the window does not
reach `enable`, and not the addresses of a queue that is enabled. The position
moves in the handler, which compares it with the size; the size may be
rewritten in between, and the position stays in the ring as long as no size is
written that it has passed. Both hold of runs whose events are contained: a
request with a buffer outside RAM could store over either.

## Main definitions

* `RingsCurrent`, `RingFits`: The pointers, and the condition on a write.
* `PositionOk`, `SizeFits`: The position, and the condition on a write.

## Theorems

* `ringsCurrent_step`, `enabled_rings_current`: A step, and every run.
* `handlerRun_position`: The handler keeps the position.
* `position_step`, `position_in_ring`: A step, and every run.
-/

namespace Microv

/-! ### Ring pointers -/

/-- An enabled queue points at the rings its addresses name. -/
def RingsCurrent (mapper : Int → MemRegion) (vq : Virtq) : Prop :=
  vq.info.enable ≠ 0 →
    vq.descRing = getUserspaceAddr mapper vq.info.descAddr ∧
    vq.guestEvent = getUserspaceAddr mapper vq.info.driverAddr ∧
    vq.deviceEvent = getUserspaceAddr mapper vq.info.deviceAddr

/-- Writes stay where they belong, and a write through the window reaches
    neither `enable` nor, while the queue is enabled, the addresses. -/
def RingFits (L : PciLayout) (d : PciDev) (e : PciEvent) : Prop :=
  BlockFits e ∧ DevFits L e ∧ OnWindow L d (fun offset data =>
    offset + data.length ≤ regQSize + virtqInfoSize ∧ Apart offset data.length regQEnable 2 ∧
      ((queueAt L d.host (queueSelect L d.host)).info.enable ≠ 0 →
        offset + data.length ≤ regQDesclo)) e

instance (L : PciLayout) (d : PciDev) (e : PciEvent) : Decidable (RingFits L d e) :=
  inferInstanceAs (Decidable (_ ∧ _ ∧ OnWindow L d (fun offset data =>
    offset + data.length ≤ regQSize + virtqInfoSize ∧ Apart offset data.length regQEnable 2 ∧
      ((queueAt L d.host (queueSelect L d.host)).info.enable ≠ 0 →
        offset + data.length ≤ regQDesclo)) e))

section

variable {mapper : Int → MemRegion} {L : PciLayout} {d d' : PciDev} {e : PciEvent}

theorem ringsCurrent_virtqEnable (vq : Virtq) (h : RingsCurrent mapper vq) :
    RingsCurrent mapper (virtqEnable mapper vq) := by
  unfold virtqEnable
  split_ifs with hen
  · exact h
  · exact fun _ => ⟨rfl, rfl, rfl⟩

/-- A field of a queue that no copy reaches. -/
theorem Anchored.queue_field (h : Anchored L d) (hs : PciStep mapper L e d d')
    (hdev : DevFits L e) (i o k : Nat) (ho : o + k ≤ virtqSize)
    (hpos : Notifies e → Apart o k virtqNextAvailIdx 3)
    (hen : ∀ data, e = .access (.write regQEnable data) → queueSelect L d.host = i →
      virtqInfo ≤ o ∧ Apart o k virtqEnabled 2)
    (hwin : ∀ offset data, e = .access (.write offset data) → InWindow offset →
      queueSelect L d.host = i → queueSelect L d.host < numQueues L d.host →
      Apart offset data.length o k) :
    d'.host.le (L.vq + virtqSize * i + o) k = d.host.le (L.vq + virtqSize * i + o) k := by
  refine step_field hs h.vq _ _ ?_
  intro x h1 h2
  rcases Nat.exists_eq_add_of_le (show L.vq + virtqSize * i ≤ x by omega) with ⟨j, rfl⟩
  refine h.spares_queue hs hdev i j (by omega) (fun hn => ?_) (fun data he hi => ?_)
    (fun offset data he hw hi hlt => ?_)
  · have hap := hpos hn
    simp only [Off, Apart] at hap ⊢
    omega
  · have hap := hen data he hi
    simp only [Off, Apart, virtqInfo] at hap ⊢
    omega
  · have hap := hwin offset data he hw hi hlt
    simp only [Off, Apart] at hap ⊢
    omega

theorem ringsCurrent_step (h : Anchored L d) (hc : RingFits L d e)
    (hs : PciStep mapper L e d d') (i : Nat) (hr : RingsCurrent mapper (queueAt L d.host i)) :
    RingsCurrent mapper (queueAt L d'.host i) := by
  rcases hc with ⟨-, hdev, hwin⟩
  by_cases hen : ∃ data, e = .access (.write regQEnable data) ∧ queueSelect L d.host = i
  · rcases hen with ⟨data, rfl, rfl⟩
    rw [queueAt, step_enable_queue data h.vq hs]
    split_ifs
    · exact ringsCurrent_virtqEnable _ hr
    · exact hr
  · have hno : ∀ data, e = .access (.write regQEnable data) → queueSelect L d.host ≠ i :=
      fun data he hi => hen ⟨data, he, hi⟩
    -- The window never reaches `enable`, so the queue is as enabled as it was.
    have hkeep : d'.host.le (L.vq + virtqSize * i + virtqEnabled) 2
        = d.host.le (L.vq + virtqSize * i + virtqEnabled) 2 := by
      refine h.queue_field hs hdev i virtqEnabled 2 (by decide) (fun _ => .of_le (by decide))
        (fun data he hi => absurd hi (hno data he)) (fun offset data he hw hi hlt => ?_)
      subst he
      exact (hwin hw hlt).2.1
    intro hne
    have hold : (queueAt L d.host i).info.enable ≠ 0 := by
      simp only [queueAt, loadVirtq] at hne ⊢
      rw [← hkeep]
      exact hne
    -- While it is enabled, the window ends before the addresses.
    have hfield : ∀ o, o + 8 ≤ virtqInfo ∨ (virtqDescAddr ≤ o ∧ o + 8 ≤ virtqDev) →
        d'.host.le (L.vq + virtqSize * i + o) 8 = d.host.le (L.vq + virtqSize * i + o) 8 := by
      intro o ho
      unfold virtqInfo virtqDescAddr virtqDev at ho
      refine h.queue_field hs hdev i o 8 (by unfold virtqSize; omega)
        (fun _ => .of_le (by unfold virtqNextAvailIdx; omega))
        (fun data he hi => absurd hi (hno data he)) (fun offset data he hw hi hlt => ?_)
      subst he
      have hend := (hwin hw hlt).2.2 (by rw [hi]; exact hold)
      have hge := hw.1
      unfold regQDesclo at hend
      unfold regQSize at hge
      unfold Apart
      omega
    have h0 := hfield 0 (by decide)
    rw [Nat.add_zero] at h0
    have hcur := hr hold
    simp only [queueAt, loadVirtq] at hcur ⊢
    rw [h0, hfield virtqDeviceEvent (by decide), hfield virtqGuestEvent (by decide),
      hfield virtqDescAddr (by decide), hfield virtqDriverAddr (by decide),
      hfield virtqDeviceAddr (by decide)]
    exact hcur

end

/-- In every run whose writes fit and whose events are contained, an enabled
    queue uses the rings the guest programmed. -/
theorem enabled_rings_current (mapper : Int → MemRegion) (L : PciLayout) (d₀ d : PciDev)
    (h₀ : d₀.Initial L)
    (hrun : Run (PciOutcome mapper L) (fun d e => RingFits L d e ∧ Contained mapper L d e) d₀ d) :
    ∀ i, i < L.n → RingsCurrent mapper (queueAt L d.host i) := by
  have hinv : Anchored L d ∧ ∀ i, i < L.n → RingsCurrent mapper (queueAt L d.host i) := by
    refine hrun.invariant
      (P := fun s => Anchored L s ∧ ∀ i, i < L.n → RingsCurrent mapper (queueAt L s.host i))
      ⟨h₀.anchored, fun i hi hne => ?_⟩ (fun t e u ht hc ho => ?_)
    · rw [queueAt, h₀.queue i hi] at hne
      exact absurd rfl hne
    · have hs := ho hc.2
      exact ⟨anchored_step ht.1 hc.1.1 hs,
        fun i hi => ringsCurrent_step ht.1 hc.1 hs i (ht.2 i hi)⟩
  exact hinv.2

/-- `enabled_rings_current` after the guest has programmed and enabled the
    queue. -/
theorem enabled_rings_current_programmed :
    let d := pciWrites sampleMapper sampleLayout samplePci
      [(22, [0, 0]), (32, [0, 0x10, 0, 0]), (40, [0, 0x20, 0, 0]), (48, [0, 0x30, 0, 0]),
        (28, [1, 0])]
    (queueAt sampleLayout d.host 0).info.enable = 1 ∧
      RingsCurrent sampleMapper (queueAt sampleLayout d.host 0) :=
  ⟨by decide +kernel,
    enabled_rings_current sampleMapper sampleLayout samplePci _ samplePci_initial
      (outcome_writes sampleMapper sampleLayout _ _ (by decide +kernel)) 0 (by decide)⟩

/-- Four bytes at `queue_msix_vector` enable the queue behind the back of
    `virtq_enable`, so its ring pointer is null; and an address written after
    enabling leaves the pointer where it was. -/
theorem enabled_rings_stale :
    ∃ d d', Run (PciStep sampleMapper sampleLayout) (fun _ _ => True) samplePci d ∧
      (queueAt sampleLayout d.host 0).descRing = 0 ∧
      ¬ RingsCurrent sampleMapper (queueAt sampleLayout d.host 0) ∧
      Run (PciStep sampleMapper sampleLayout) (fun _ _ => True) samplePci d' ∧
      ¬ RingsCurrent sampleMapper (queueAt sampleLayout d'.host 0) := by
  refine ⟨pciWrites sampleMapper sampleLayout samplePci [(26, [0, 0, 1, 0])],
    pciWrites sampleMapper sampleLayout samplePci [(28, [1, 0]), (32, [0, 0x10, 0, 0])],
    run_writes _ _ (.refl _) _ (by decide +kernel), by decide +kernel, fun h => ?_,
    run_writes _ _ (.refl _) _ (by decide +kernel), fun h => ?_⟩
  · exact absurd (h (by decide +kernel)).1 (by decide +kernel)
  · exact absurd (h (by decide +kernel)).1 (by decide +kernel)

/-! ### The position -/

/-- The ring has a size of at most the one the queue was set up with, and the
    position lies in it. -/
def PositionOk (vq : Virtq) : Prop :=
  0 < vq.info.size ∧ vq.info.size ≤ 128 ∧ vq.nextAvailIdx < vq.info.size

instance (vq : Virtq) : Decidable (PositionOk vq) :=
  inferInstanceAs (Decidable (_ ∧ _ ∧ _))

/-- The size a window write leaves in the selected queue. -/
def sizeAfter (L : PciLayout) (h : ByteMem) (offset : Nat) (data : List UInt8) : Nat :=
  let q := L.vq + virtqSize * queueSelect L h
  (h.write (q + offset) data).le (q + virtqInfo) 2

/-- Writes stay where they belong, and one that reaches the size of the
    selected queue leaves a size that is neither zero, nor larger than at
    set-up, nor passed by the position. -/
def SizeFits (L : PciLayout) (d : PciDev) (e : PciEvent) : Prop :=
  BlockFits e ∧ DevFits L e ∧ OnWindow L d (fun offset data =>
    offset + data.length ≤ regQSize + virtqInfoSize ∧
      (offset < regQSize + 2 →
        0 < sizeAfter L d.host offset data ∧ sizeAfter L d.host offset data ≤ 128 ∧
        (queueAt L d.host (queueSelect L d.host)).nextAvailIdx
          < sizeAfter L d.host offset data)) e

instance (L : PciLayout) (d : PciDev) (e : PciEvent) : Decidable (SizeFits L d e) :=
  inferInstanceAs (Decidable (_ ∧ _ ∧ OnWindow L d (fun offset data =>
    offset + data.length ≤ regQSize + virtqInfoSize ∧
      (offset < regQSize + 2 →
        0 < sizeAfter L d.host offset data ∧ sizeAfter L d.host offset data ≤ 128 ∧
        (queueAt L d.host (queueSelect L d.host)).nextAvailIdx
          < sizeAfter L d.host offset data)) e))

/-- The position stays in the ring when a descriptor is taken. -/
theorem positionOk_virtqGetAvail (m : ByteMem) (vq : Virtq) (h : PositionOk vq) :
    PositionOk (virtqGetAvail m vq).2 := by
  rcases h with ⟨h1, h2, h3⟩
  unfold virtqGetAvail
  simp only
  split_ifs with hnot hwrap
  · exact ⟨h1, h2, h3⟩
  · refine ⟨h1, h2, ?_⟩
    simp only
    omega
  · exact ⟨h1, h2, Nat.lt_of_not_le hwrap⟩

/-- The handler keeps the queue's parameters and its position in the ring. -/
theorem handlerRun_position (mapper : Int → MemRegion) (k : Nat) (s : Handler)
    (h : PositionOk s.vq) :
    ((handlerStep mapper)^[k] s).vq.info = s.vq.info ∧
      PositionOk ((handlerStep mapper)^[k] s).vq := by
  induction k generalizing s with
  | zero => exact ⟨rfl, h⟩
  | succ k ih =>
      rw [Function.iterate_succ_apply]
      rcases handlerStep_vq mapper s with hvq | hvq
      · have hstep := ih (handlerStep mapper s) (by rw [hvq]; exact h)
        rw [hvq] at hstep
        exact hstep
      · have hstep := ih (handlerStep mapper s)
          (by rw [hvq]; exact positionOk_virtqGetAvail s.mem s.vq h)
        rw [hvq, virtqGetAvail_info] at hstep
        exact hstep

section

variable {mapper : Int → MemRegion} {L : PciLayout} {d d' : PciDev} {e : PciEvent}

/-- A notification keeps the notified queue's position in its ring. -/
theorem notifyAt_positionOk {a : Nat} (ha : L.devCfg ≤ a) (h : VirtqNotifyAt mapper L a d d')
    (hp : PositionOk (loadVirtq d.host a)) : PositionOk (loadVirtq d'.host a) := by
  have hcfg := L.devCfg_eq
  cases h with
  | disabled => exact hp
  | handled req k =>
      rcases handlerRun_position mapper k (enterHandler L d a req) hp with ⟨hinfo, h1, h2, h3⟩
      -- What the handler leaves is stored back, the position in two bytes.
      generalize (handlerStep mapper)^[k] (enterHandler L d a req) = s at hinfo h1 h2 h3 ⊢
      have hsize : s.vq.info.size = d.host.le (a + virtqInfo) 2 := by rw [hinfo]; rfl
      have hidx : s.vq.nextAvailIdx < 256 ^ 2 := by omega
      unfold PositionOk
      simp only [virtqInfo] at hsize
      simp only [loadVirtq_offsets, leaveHandler, regIsrCfg, virtqNextAvailIdx, virtqUsedWrapCount]
      simp (disch := first | assumption | (unfold Apart; omega)) only
        [ByteMem.le_writeLE_apart, ByteMem.le_writeLE_self]
      rw [← hsize]
      exact ⟨h1, h2, h3⟩

/-- Queue `i` is not touched by a notification of another queue. -/
theorem notifyAt_other {i j : Nat} (hij : i ≠ j)
    (h : VirtqNotifyAt mapper L (L.vq + virtqSize * j) d d') :
    queueAt L d'.host i = queueAt L d.host i := by
  have hge := L.vq_ge
  have hcfg := L.devCfg_eq
  refine loadVirtq_congr _ _ _ (fun x h1 h2 => notifyAt_off h x ?_ ?_)
  · simp only [Off, virtqSize, virtqNextAvailIdx] at h1 h2 ⊢
    omega
  · unfold Off regIsrCfg
    omega

theorem notifyAt_positions (j : Nat) (h : VirtqNotifyAt mapper L (L.vq + virtqSize * j) d d')
    (i : Nat) (hp : PositionOk (queueAt L d.host i)) : PositionOk (queueAt L d'.host i) := by
  have hge := L.vq_ge
  by_cases hij : i = j
  · subst hij
    exact notifyAt_positionOk (by omega) h hp
  · rw [notifyAt_other hij h]
    exact hp

/-- The copy of a register write is below the queues. -/
theorem queueAt_copy (offset : Nat) (data : List UInt8) (hoff : offset < regDevCfg)
    (hsize : data.length ≤ 8) (i : Nat) :
    queueAt L (d.host.write (L.config + offset) data) i = queueAt L d.host i := by
  have hge := L.vq_ge
  have hcfg := L.devCfg_eq
  unfold regDevCfg at hoff
  exact loadVirtq_congr _ _ _ (fun x h1 h2 => ByteMem.write_outside _ _ _ _ (by omega))

/-- A notification, from the bus or from an event, is one on some place of the
    queue array. -/
theorem step_notifies (h : Anchored L d) (hs : PciStep mapper L e d d') (hn : Notifies e) :
    ∃ j d₁, VirtqNotifyAt mapper L (L.vq + virtqSize * j) d₁ d' ∧
      ∀ i, queueAt L d₁.host i = queueAt L d.host i := by
  cases hs with
  | access acc _ _ hacc hio =>
      cases hio with
      | read => exact absurd hn id
      | write _ offset data hnone =>
          -- A write to the notify register always notifies.
          have ho : offset = regNotifyCfg := hn
          subst ho
          rw [notifyWrite_eq] at hnone
          exact absurd hnone (Option.some_ne_none _)
      | notify _ _ offset data a hsome hnot =>
          rcases regWrite_notified offset data a hsome with ⟨ho, ha, hst⟩
          have hlt : offset < regDevCfg := by rw [ho]; decide
          rw [hst, ha, vqAt, (copy_keeps offset data hlt hacc.size_le).1, h.vq] at hnot
          exact ⟨_, _, hnot, fun i => queueAt_copy offset data hlt hacc.size_le i⟩
  | ioevent a _ _ ha hnot =>
      rcases h.events a ha with ⟨j, rfl⟩
      exact ⟨j, d, hnot, fun _ => rfl⟩

/-- The size field after a window write to the queue. -/
theorem windowWrite_size (h : Anchored L d) (offset : Nat) (data : List UInt8)
    (hs : PciStep mapper L (.access (.write offset data)) d d') (hw : InWindow offset)
    (hlt : queueSelect L d.host < numQueues L d.host) :
    (queueAt L d'.host (queueSelect L d.host)).info.size = sizeAfter L d.host offset data := by
  have hge := L.vq_ge
  have hcfg := L.devCfg_eq
  have hend := hw.2.1
  unfold regQUsedhi at hend
  have hsize := (step_write_eq offset data (by unfold regNotifyCfg; omega) hs).1
  simp only [queueAt, loadVirtq, sizeAfter, virtqInfo]
  rw [step_window h.vq offset data hw hs, if_pos hlt]
  refine ByteMem.le_congr _ _ _ _ (fun i hi => ByteMem.write_congr _ _ _ _ _ ?_)
  exact ByteMem.write_outside _ _ _ _ (by omega)

theorem position_step (h : Anchored L d) (hc : SizeFits L d e) (hs : PciStep mapper L e d d')
    (i : Nat) (hp : PositionOk (queueAt L d.host i)) : PositionOk (queueAt L d'.host i) := by
  rcases hc with ⟨-, hdev, hwin⟩
  by_cases hn : Notifies e
  · rcases step_notifies h hs hn with ⟨j, d₁, hnot, hq⟩
    exact notifyAt_positions j hnot i (by rw [hq i]; exact hp)
  · -- The position is the notifications' alone.
    have hidx : (queueAt L d'.host i).nextAvailIdx = (queueAt L d.host i).nextAvailIdx := by
      refine h.queue_field hs hdev i virtqNextAvailIdx 2 (by decide) (fun hyes => absurd hyes hn)
        (fun data he hi => ⟨by decide, .of_ge (by decide)⟩) (fun offset data he hw hi hlt => ?_)
      subst he
      have hfit := (hwin hw hlt).1
      unfold regQSize virtqInfoSize at hfit
      exact .of_le (by unfold virtqNextAvailIdx; omega)
    by_cases hsz : ∃ offset data, e = .access (.write offset data) ∧ InWindow offset ∧
        queueSelect L d.host = i ∧ queueSelect L d.host < numQueues L d.host ∧
        offset < regQSize + 2
    · rcases hsz with ⟨offset, data, rfl, hw, rfl, hlt, h26⟩
      unfold PositionOk
      rw [hidx, windowWrite_size h offset data hs hw hlt]
      exact (hwin hw hlt).2 h26
    · have hsame : (queueAt L d'.host i).info.size = (queueAt L d.host i).info.size := by
        refine h.queue_field hs hdev i virtqInfo 2 (by decide) (fun hyes => absurd hyes hn)
          (fun data he hi => ⟨by decide, .of_le (by decide)⟩) (fun offset data he hw hi hlt => ?_)
        have hge : ¬ offset < regQSize + 2 := fun h26 => hsz ⟨offset, data, he, hw, hi, hlt, h26⟩
        unfold regQSize at hge
        exact .of_ge (by unfold virtqInfo; omega)
      unfold PositionOk
      rw [hidx, hsame]
      exact hp

end

/-- In every run whose writes fit and whose events are contained, the position
    of each queue lies in its ring, and stays there at every step of a
    notification. -/
theorem position_in_ring (mapper : Int → MemRegion) (L : PciLayout) (d₀ d : PciDev)
    (h₀ : d₀.Initial L)
    (hrun : Run (PciOutcome mapper L) (fun d e => SizeFits L d e ∧ Contained mapper L d e) d₀ d) :
    ∀ i, i < L.n → PositionOk (queueAt L d.host i) ∧
      ∀ req k, PositionOk
        ((handlerStep mapper)^[k] (enterHandler L d (L.vq + virtqSize * i) req)).vq := by
  have hinv : Anchored L d ∧ ∀ i, i < L.n → PositionOk (queueAt L d.host i) := by
    refine hrun.invariant
      (P := fun s => Anchored L s ∧ ∀ i, i < L.n → PositionOk (queueAt L s.host i))
      ⟨h₀.anchored, fun i hi => ?_⟩ (fun t e u ht hc ho => ?_)
    · rw [queueAt, h₀.queue i hi]
      simp [PositionOk, virtqFresh, virtqInit]
    · have hs := ho hc.2
      exact ⟨anchored_step ht.1 hc.1.1 hs, fun i hi => position_step ht.1 hc.1 hs i (ht.2 i hi)⟩
  refine fun i hi => ⟨hinv.2 i hi, fun req k => ?_⟩
  have henter : PositionOk (enterHandler L d (L.vq + virtqSize * i) req).vq := hinv.2 i hi
  exact (handlerRun_position mapper k _ henter).2

/-- `position_in_ring` after the guest has halved the ring. -/
theorem position_in_ring_halved :
    let d := pciWrites sampleMapper sampleLayout samplePci [(22, [0, 0]), (24, [64, 0])]
    (queueAt sampleLayout d.host 0).info.size = 64 ∧ PositionOk (queueAt sampleLayout d.host 0) :=
  ⟨by decide +kernel,
    (position_in_ring sampleMapper sampleLayout samplePci _ samplePci_initial
      (outcome_writes sampleMapper sampleLayout _ _ (by decide +kernel)) 0 (by decide)).1⟩

/-- Nothing keeps the guest from a ring of size zero, or from one larger than
    it was offered. -/
theorem position_out_of_ring :
    ∃ d d', Run (PciStep sampleMapper sampleLayout) (fun _ _ => True) samplePci d ∧
      (queueAt sampleLayout d.host 0).info.size = 0 ∧
      Run (PciStep sampleMapper sampleLayout) (fun _ _ => True) samplePci d' ∧
      (queueAt sampleLayout d'.host 0).info.size = 0xFFFF ∧
      ¬ PositionOk (queueAt sampleLayout d.host 0) ∧
      ¬ PositionOk (queueAt sampleLayout d'.host 0) := by
  refine ⟨pciWrites sampleMapper sampleLayout samplePci [(24, [0, 0])],
    pciWrites sampleMapper sampleLayout samplePci [(24, [0xFF, 0xFF])],
    run_writes _ _ (.refl _) _ (by decide +kernel), by decide +kernel,
    run_writes _ _ (.refl _) _ (by decide +kernel), by decide +kernel, by decide +kernel,
    by decide +kernel⟩

end Microv
