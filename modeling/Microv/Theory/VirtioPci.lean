import Microv.Core.VirtioPci
import Microv.Lib.Run
import Microv.Theory.GuestMemory

/-!
# The Register Window

Runs of the device under accesses to its window, and what each of them leaves
alone.

An access is a copy of a guest-chosen width, followed by what the register at
its offset commands. Which bytes of the structure it may write follows from
the offset and the selected queue: `Spares` says of one byte that an event
does not write it, and `step_spares` that it is then unchanged. Every frame
argument about the window is `Spares` at the bytes of a field.

The code follows two pointers in the structure. `Anchored` is that they are
where they were set up, and it is kept as long as register writes end inside
the registers; past them lies the first of the two pointers.

## Main definitions

* `CommandEffect`: What a register commands.
* `PciDev.Initial`: The device as it is set up.
* `Spares`: An event does not write a byte.
* `BlockFits`, `DevFits`, `OnWindow`: Where writes may end.
* `Anchored`: The pointers are where they were set up.
* `queueAt`: A queue of the array.

## Theorems

* `virtioPciCommand_effect`: The ways a command goes.
* `step_spares`: What is spared is unchanged.
* `enableWrite_host`, `selectWrite_host`, `notifyWrite_eq`: Writes of one register.
* `step_events`: The events after a step.
* `step_enable_queue`: Enabling a queue through the window.
* `anchored_step`, `anchored_run`: The pointers stay.
* `Anchored.spares_queue`: What of a queue a step spares.
* `run_writes`, `outcome_writes`: A list of writes as a run.
-/

namespace Microv

/-- The range `[a, a + k)` lies inside `[b, b + l)`. -/
def Inside (a k b l : Nat) : Prop :=
  b ≤ a ∧ a + k ≤ b + l

instance (a k b l : Nat) : Decidable (Inside a k b l) :=
  inferInstanceAs (Decidable (_ ∧ _))

/-- The byte at `x` is not in `[a, a + k)`. -/
def Off (x a k : Nat) : Prop :=
  x < a ∨ a + k ≤ x

/-- A range apart from a field is off each of its bytes, wherever the two are
    counted from. -/
theorem Apart.off {a k b l : Nat} (h : Apart a k b l) (c : Nat) {i : Nat} (hi : i < k) :
    Off (c + a + i) (c + b) l := by
  unfold Apart at h
  unfold Off
  omega

/-! ### What a step writes -/

section

variable (mapper : Int → MemRegion) (L : PciLayout) (d : PciDev)

theorem writeLE_off (m : ByteMem) (a k v x : Nat) (h : Off x a k) : m.writeLE a k v x = m x :=
  ByteMem.write_outside _ _ _ _ (by rw [ByteMem.length_leBytes]; exact h)

theorem virtqEnableAt_off (h : ByteMem) (a x : Nat) (h1 : Off x a 24)
    (h2 : Off x (a + virtqEnabled) 2) :
    virtqEnableAt mapper h a x = h x := by
  unfold Off virtqEnabled at *
  unfold virtqEnableAt virtqEnabled
  split_ifs
  · rfl
  · simp only [virtqGuestEvent, virtqDeviceEvent]
    rw [writeLE_off _ _ _ _ _ (by unfold Off; omega), writeLE_off _ _ _ _ _ (by unfold Off; omega),
      writeLE_off _ _ _ _ _ (by unfold Off; omega), writeLE_off _ _ _ _ _ (by unfold Off; omega)]

/-- What a command does to the device, and the queue it notifies. -/
inductive CommandEffect (mapper : Int → MemRegion) (L : PciLayout) (d : PciDev) (offset : Nat)
    (data : List UInt8) : PciDev × Option Nat → Prop where
  | selectFeature : offset = regDfselect → CommandEffect mapper L d offset data
      ({ d with host := virtioPciCmdSelectDeviceFeature L d.host }, none)
  | writeFeature : offset = regGfselect → CommandEffect mapper L d offset data
      ({ d with host := virtioPciCmdWriteGuestFeature L d.host }, none)
  | selectVirtq : offset = regQSelect → CommandEffect mapper L d offset data
      ({ d with host := virtioPciCmdSelectVirtq L d.host }, none)
  | enableVirtq : offset = regQEnable → queueEnable L d.host ≠ 0 →
      CommandEffect mapper L d offset data (virtioPciCmdEnableVirtq mapper L d, none)
  | window : regQSize ≤ offset → offset ≤ regQUsedhi → offset ≠ regQEnable →
      queueSelect L d.host < numQueues L d.host → CommandEffect mapper L d offset data
        ({ d with
          host := d.host.write
            (vqAt L d.host (queueSelect L d.host) + virtqInfo + (offset - regQSize)) data }, none)
  | notify : offset = regNotifyCfg → CommandEffect mapper L d offset data
      (d, some (vqAt L d.host (notifyVqn L d.host)))
  | stored : CommandEffect mapper L d offset data (d, none)

theorem virtioPciCommand_effect (offset : Nat) (data : List UInt8) :
    CommandEffect mapper L d offset data (virtioPciCommand mapper L d offset data) := by
  -- The branches are tried in the order of the source.
  unfold virtioPciCommand
  by_cases hdf : offset = regDfselect
  · rw [if_pos hdf]
    exact .selectFeature hdf
  rw [if_neg hdf]
  by_cases hgf : offset = regGfselect
  · rw [if_pos hgf]
    exact .writeFeature hgf
  rw [if_neg hgf]
  by_cases hsel : offset = regQSelect
  · rw [if_pos hsel]
    exact .selectVirtq hsel
  rw [if_neg hsel]
  by_cases hen : offset = regQEnable
  · rw [if_pos hen]
    -- Writing 0 to the enable register does nothing beyond the store.
    by_cases hon : queueEnable L d.host ≠ 0
    · rw [if_pos hon]
      exact .enableVirtq hen hon
    · rw [if_neg hon]
      exact .stored
  rw [if_neg hen]
  by_cases hwin : regQSize ≤ offset ∧ offset ≤ regQUsedhi
  · rw [if_pos hwin]
    by_cases hq : queueSelect L d.host < numQueues L d.host
    · simp only [if_pos hq]
      exact .window hwin.1 hwin.2 hen hq
    · simp only [if_neg hq]
      exact .stored
  rw [if_neg hwin]
  by_cases hnot : offset = regNotifyCfg
  · rw [if_pos hnot]
    exact .notify hnot
  · rw [if_neg hnot]
    exact .stored

/-- A command changes the structure only where its register says. -/
theorem virtioPciCommand_off (offset : Nat) (data : List UInt8) (x : Nat)
    (hdf : offset = regDfselect → Off x (L.config + regDf) 4)
    (hgf : offset = regGfselect → Off x (L.config + devGuestFeature) 8)
    (hsel : offset = regQSelect → Off x (L.config + regQSize) virtqInfoSize)
    (hen : offset = regQEnable → Off x (vqAt L d.host (queueSelect L d.host)) 24 ∧
      Off x (vqAt L d.host (queueSelect L d.host) + virtqEnabled) 2)
    (hwin : regQSize ≤ offset → offset ≤ regQUsedhi → offset ≠ regQEnable →
      queueSelect L d.host < numQueues L d.host →
      Off x (vqAt L d.host (queueSelect L d.host) + offset) data.length) :
    (virtioPciCommand mapper L d offset data).1.host x = d.host x := by
  -- Each command writes the fields of its own register.
  have heffect := virtioPciCommand_effect mapper L d offset data
  generalize virtioPciCommand mapper L d offset data = r at heffect ⊢
  cases heffect with
  | selectFeature ho => exact writeLE_off _ _ _ _ _ (hdf ho)
  | writeFeature ho =>
      simp only [virtioPciCmdWriteGuestFeature]
      split_ifs
      · exact writeLE_off _ _ _ _ _ (hgf ho)
      · exact writeLE_off _ _ _ _ _ (hgf ho)
      · rfl
  | selectVirtq ho =>
      have hx := hsel ho
      simp only [virtioPciCmdSelectVirtq]
      split_ifs
      · exact ByteMem.write_outside _ _ _ _ (by rw [ByteMem.length_read]; exact hx)
      · refine writeLE_off _ _ _ _ _ ?_
        unfold Off virtqInfoSize at *
        omega
  | enableVirtq ho => exact virtqEnableAt_off _ _ _ _ (hen ho).1 (hen ho).2
  | window hlo hhi hne hq =>
      refine ByteMem.write_outside _ _ _ _ ?_
      have hx := hwin hlo hhi hne hq
      unfold Off at hx
      simp only [virtqInfo, regQSize] at hlo ⊢
      omega
  | notify => rfl
  | stored => rfl

end

/-! ### Accesses -/

section

variable {mapper : Int → MemRegion} {L : PciLayout} {d d' : PciDev}

theorem copy_vqPtr (offset : Nat) (data : List UInt8) (hend : offset + data.length ≤ devVq) :
    vqPtr L (d.host.write (L.config + offset) data) = vqPtr L d.host :=
  ByteMem.le_write_apart _ _ _ _ _ (.of_le (by omega))

/-- The selector and the number of queues lie before the window. -/
theorem copy_select (offset : Nat) (data : List UInt8) (hq : regQSize ≤ offset) :
    queueSelect L (d.host.write (L.config + offset) data) = queueSelect L d.host ∧
      numQueues L (d.host.write (L.config + offset) data) = numQueues L d.host := by
  unfold regQSize at hq
  exact ⟨ByteMem.le_write_apart _ _ _ _ _ (.of_ge (by unfold regQSelect; omega)),
    ByteMem.le_write_apart _ _ _ _ _ (.of_ge (by unfold regNumq; omega))⟩

/-- The copy of a register write leaves the queue pointer alone, and from the
    queue registers on it leaves the selection alone too. -/
theorem copy_keeps (offset : Nat) (data : List UInt8) (hoff : offset < regDevCfg)
    (hsize : data.length ≤ 8) :
    vqPtr L (d.host.write (L.config + offset) data) = vqPtr L d.host ∧
      (regQSize ≤ offset →
        queueSelect L (d.host.write (L.config + offset) data) = queueSelect L d.host ∧
        numQueues L (d.host.write (L.config + offset) data) = numQueues L d.host) := by
  unfold regDevCfg at hoff
  exact ⟨copy_vqPtr offset data (by unfold devVq; omega), copy_select offset data⟩

/-- A register write changes the copied range, the fields of its command, and
    the selected queue's part. -/
theorem regWrite_off (offset : Nat) (data : List UInt8) (hvq : vqPtr L d.host = L.vq)
    (hoff : offset < regDevCfg) (hsize : data.length ≤ 8) (x : Nat)
    (hcopy : Off x (L.config + offset) data.length)
    (hdf : offset = regDfselect → Off x (L.config + regDf) 4)
    (hgf : offset = regGfselect → Off x (L.config + devGuestFeature) 8)
    (hsel : offset = regQSelect → Off x (L.config + regQSize) virtqInfoSize)
    (hen : offset = regQEnable →
      Off x (L.vq + virtqSize * queueSelect L d.host) 24 ∧
      Off x (L.vq + virtqSize * queueSelect L d.host + virtqEnabled) 2)
    (hwin : regQSize ≤ offset → offset ≤ regQUsedhi → offset ≠ regQEnable →
      queueSelect L d.host < numQueues L d.host →
      Off x (L.vq + virtqSize * queueSelect L d.host + offset) data.length) :
    (virtioPciIospaceWrite mapper L d offset data).1.host x = d.host x := by
  rcases copy_keeps (L := L) (d := d) offset data hoff hsize with ⟨hptr, hsel'⟩
  -- After the copy the queue is found where it was.
  have hat : regQSize ≤ offset →
      vqAt L (d.host.write (L.config + offset) data)
        (queueSelect L (d.host.write (L.config + offset) data))
      = L.vq + virtqSize * queueSelect L d.host := by
    intro hq
    rw [vqAt, hptr, hvq, (hsel' hq).1]
  rw [virtioPciIospaceWrite, if_pos hoff, virtioPciCommand_off mapper L _ offset data x hdf
    hgf hsel ?_ ?_]
  · exact ByteMem.write_outside _ _ _ _ hcopy
  · intro he
    rw [hat (by rw [he]; decide)]
    exact hen he
  · intro h1 h2 h3 h4
    rw [hat h1]
    simp only [(hsel' h1).1, (hsel' h1).2] at h4
    exact hwin h1 h2 h3 h4

/-- A device-configuration write changes the range behind the pointer. -/
theorem devWrite_off (offset : Nat) (data : List UInt8) (hoff : ¬ offset < regDevCfg) (x : Nat)
    (hx : Off x (devCfgPtr L d.host + (offset - regDevCfg)) data.length) :
    (virtioPciIospaceWrite mapper L d offset data).1.host x = d.host x := by
  rw [virtioPciIospaceWrite, if_neg hoff]
  exact ByteMem.write_outside _ _ _ _ hx

/-- A notification changes the queue's position and the interrupt status. -/
theorem notifyAt_off {a : Nat} (h : VirtqNotifyAt mapper L a d d') (x : Nat)
    (hq : Off x (a + virtqNextAvailIdx) 3) (hisr : Off x (L.config + regIsrCfg) 4) :
    d'.host x = d.host x := by
  cases h with
  | disabled => rfl
  | handled req k =>
      unfold Off virtqNextAvailIdx at hq
      simp only [leaveHandler, virtqNextAvailIdx, virtqUsedWrapCount]
      rw [writeLE_off _ _ _ _ _ hisr, writeLE_off _ _ _ _ _ (by unfold Off; omega),
        writeLE_off _ _ _ _ _ (by unfold Off; omega)]

theorem notifyAt_events {a : Nat} (h : VirtqNotifyAt mapper L a d d') : d'.events = d.events := by
  cases h <;> rfl

theorem iospaceRead_off (offset size : Nat) (x : Nat) (hisr : Off x (L.config + regIsrCfg) 4) :
    (virtioPciIospaceRead L d offset size).2.host x = d.host x := by
  unfold virtioPciIospaceRead
  split_ifs
  · exact writeLE_off _ _ _ _ _ hisr
  · rfl
  · rfl

/-- The queue a register write notifies is the one its register names. -/
theorem regWrite_notified (offset : Nat) (data : List UInt8) (a : Nat)
    (h : (virtioPciIospaceWrite mapper L d offset data).2 = some a) :
    offset = regNotifyCfg ∧
      a = vqAt L (d.host.write (L.config + offset) data)
        (notifyVqn L (d.host.write (L.config + offset) data)) ∧
      (virtioPciIospaceWrite mapper L d offset data).1
        = { d with host := d.host.write (L.config + offset) data } := by
  by_cases hoff : offset < regDevCfg
  · rw [virtioPciIospaceWrite, if_pos hoff] at h ⊢
    have heffect := virtioPciCommand_effect mapper L
      { d with host := d.host.write (L.config + offset) data } offset data
    generalize virtioPciCommand mapper L _ offset data = r at h heffect ⊢
    cases heffect with
    | notify ho => exact ⟨ho, (Option.some.inj h).symm, rfl⟩
    | _ => cases h
  · rw [virtioPciIospaceWrite, if_neg hoff] at h
    cases h

/-- The events after a register write: at most the selected queue's is new. -/
theorem regWrite_events (mapper : Int → MemRegion) (offset : Nat) (data : List UInt8)
    (hvq : vqPtr L d.host = L.vq)
    (hsize : data.length ≤ 8) :
    (virtioPciIospaceWrite mapper L d offset data).1.events = d.events ∨
      (offset = regQEnable ∧
        queueEnable L (d.host.write (L.config + offset) data) ≠ 0 ∧
        (virtioPciIospaceWrite mapper L d offset data).1.events
          = d.events ++ [L.vq + virtqSize * queueSelect L d.host]) := by
  by_cases hoff : offset < regDevCfg
  · rcases copy_keeps (L := L) (d := d) offset data hoff hsize with ⟨hptr, hsel⟩
    rw [virtioPciIospaceWrite, if_pos hoff]
    have heffect := virtioPciCommand_effect mapper L
      { d with host := d.host.write (L.config + offset) data } offset data
    -- Enabling is the only command that registers an event.
    generalize virtioPciCommand mapper L _ offset data = r at heffect ⊢
    cases heffect with
    | enableVirtq ho hon =>
        refine .inr ⟨ho, hon, ?_⟩
        simp only [virtioPciCmdEnableVirtq, vqAt]
        rw [hptr, hvq, (hsel (by rw [ho]; decide)).1]
    | _ => exact .inl rfl
  · rw [virtioPciIospaceWrite, if_neg hoff]
    exact .inl rfl

end

/-! ### Runs -/

/-- The device as `virtio_blk_init_pci` leaves it. -/
structure PciDev.Initial (L : PciLayout) (d : PciDev) : Prop where
  host : ∃ h capacity, d.host = virtioBlkInitPci L h capacity
  events : d.events = []

/-- An event leaves the byte at `x` alone: `x` is off every range the event
    may write. -/
def Spares (L : PciLayout) (d : PciDev) (x : Nat) : PciEvent → Prop
  | .access (.read offset _) => offset = regIsrCfg → Off x (L.config + regIsrCfg) 4
  | .access (.write offset data) =>
      let q := L.vq + virtqSize * queueSelect L d.host
      (offset < regDevCfg → Off x (L.config + offset) data.length) ∧
      (offset = regDfselect → Off x (L.config + regDf) 4) ∧
      (offset = regGfselect → Off x (L.config + devGuestFeature) 8) ∧
      (offset = regQSelect → Off x (L.config + regQSize) virtqInfoSize) ∧
      (offset = regQEnable → Off x q 24 ∧ Off x (q + virtqEnabled) 2) ∧
      (regQSize ≤ offset → offset ≤ regQUsedhi → offset ≠ regQEnable →
        queueSelect L d.host < numQueues L d.host → Off x (q + offset) data.length) ∧
      (offset = regNotifyCfg →
        Off x (L.vq + virtqSize * notifyVqn L (d.host.write (L.config + offset) data)
          + virtqNextAvailIdx) 3 ∧
        Off x (L.config + regIsrCfg) 4) ∧
      (regDevCfg ≤ offset → Off x (devCfgPtr L d.host + (offset - regDevCfg)) data.length)
  | .ioevent a => Off x (a + virtqNextAvailIdx) 3 ∧ Off x (L.config + regIsrCfg) 4

/-- The ranges of a write, their offsets spelled out. -/
theorem spares_write (L : PciLayout) (d : PciDev) (x offset : Nat) (data : List UInt8) :
    Spares L d x (.access (.write offset data)) ↔
      (offset < 64 → Off x (L.config + offset) data.length) ∧
      (offset = 0 → Off x (L.config + 4) 4) ∧ (offset = 8 → Off x (L.config + 80) 8) ∧
      (offset = 22 → Off x (L.config + 24) 32) ∧
      (offset = 28 → Off x (L.vq + 80 * queueSelect L d.host) 24 ∧
        Off x (L.vq + 80 * queueSelect L d.host + 28) 2) ∧
      (24 ≤ offset → offset ≤ 52 → offset ≠ 28 → queueSelect L d.host < numQueues L d.host →
        Off x (L.vq + 80 * queueSelect L d.host + offset) data.length) ∧
      (offset = 60 →
        Off x (L.vq + 80 * notifyVqn L (d.host.write (L.config + offset) data) + 64) 3 ∧
        Off x (L.config + 56) 4) ∧
      (64 ≤ offset → Off x (devCfgPtr L d.host + (offset - 64)) data.length) :=
  Iff.rfl

section

variable {mapper : Int → MemRegion} {L : PciLayout} {d d' : PciDev} {e : PciEvent}

theorem Access.Forwarded.size_le {acc : Access} (h : acc.Forwarded) : acc.size ≤ 8 := by
  rcases h with ⟨h | h | h | h, _⟩ <;> omega

/-- Spared by a write, before any notification. -/
theorem write_spares (mapper : Int → MemRegion) (offset : Nat) (data : List UInt8)
    (hsize : data.length ≤ 8) (hvq : vqPtr L d.host = L.vq) (x : Nat)
    (hx : Spares L d x (.access (.write offset data))) :
    (virtioPciIospaceWrite mapper L d offset data).1.host x = d.host x := by
  rcases hx with ⟨hcopy, hdf, hgf, hsel, hen, hwin, -, hdev⟩
  by_cases hoff : offset < regDevCfg
  · exact regWrite_off offset data hvq hoff hsize x (hcopy hoff) hdf hgf hsel hen hwin
  · exact devWrite_off offset data hoff x (hdev (Nat.le_of_not_lt hoff))

/-- A step keeps the bytes it spares. -/
theorem step_spares (h : PciStep mapper L e d d') (hvq : vqPtr L d.host = L.vq) (x : Nat)
    (hx : Spares L d x e) : d'.host x = d.host x := by
  cases h with
  | access acc _ _ hacc hio =>
      cases hio with
      | read _ offset size =>
          by_cases ho : offset = regIsrCfg
          · exact iospaceRead_off offset size x (hx ho)
          · unfold virtioPciIospaceRead
            split_ifs
            · rfl
            · rfl
      | write _ offset data hnone => exact write_spares mapper offset data hacc.size_le hvq x hx
      | notify _ _ offset data a hsome hn =>
          -- First the copy and its command, then the handler on the queue named.
          have hw := write_spares mapper offset data hacc.size_le hvq x hx
          rcases regWrite_notified offset data a hsome with ⟨ho, ha, hst⟩
          have hlt : offset < regDevCfg := by rw [ho]; decide
          have hq := hx.2.2.2.2.2.2.1 ho
          have hptr := (copy_keeps (L := L) (d := d) offset data hlt hacc.size_le).1
          rw [notifyAt_off hn x ?_ hq.2, hw]
          rw [ha, vqAt, hptr, hvq]
          exact hq.1
  | ioevent a _ _ _ hn => exact notifyAt_off hn x hx.1 hx.2

/-- A field whose bytes are spared keeps its value. -/
theorem step_field (h : PciStep mapper L e d d') (hvq : vqPtr L d.host = L.vq) (a k : Nat)
    (hx : ∀ x, a ≤ x → x < a + k → Spares L d x e) : d'.host.le a k = d.host.le a k :=
  ByteMem.le_congr _ _ _ _
    (fun i hi => step_spares h hvq (a + i) (hx (a + i) (by omega) (by omega)))

/-- The events after a step: at most the selected queue's is new. -/
theorem step_events (h : PciStep mapper L e d d') (hvq : vqPtr L d.host = L.vq) :
    d'.events = d.events ∨
      ∃ data, e = .access (.write regQEnable data) ∧
        queueEnable L (d.host.write (L.config + regQEnable) data) ≠ 0 ∧
        d'.events = d.events ++ [L.vq + virtqSize * queueSelect L d.host] := by
  cases h with
  | access acc _ _ hacc hio =>
      cases hio with
      | read _ offset size =>
          left
          unfold virtioPciIospaceRead
          split_ifs
          · rfl
          · rfl
          · rfl
      | write _ offset data hnone =>
          -- Only a write can enable a queue.
          rcases regWrite_events mapper offset data hvq hacc.size_le
            with hev | ⟨rfl, hen, hev⟩
          · exact Or.inl hev
          · exact Or.inr ⟨data, rfl, hen, hev⟩
      | notify _ _ offset data a hsome hn =>
          left
          rw [notifyAt_events hn, (regWrite_notified offset data a hsome).2.2]
  | ioevent a _ _ _ hn => exact Or.inl (notifyAt_events hn)

end

/-! ### Enabling a queue -/

section

variable {mapper : Int → MemRegion} {L : PciLayout} {d d' : PciDev}

/-- The queue at `a`, field by field. -/
theorem loadVirtq_offsets (m : ByteMem) (a : Nat) : loadVirtq m a =
    { descRing := m.le a 8, deviceEvent := m.le (a + 8) 8, guestEvent := m.le (a + 16) 8,
      info :=
        { size := m.le (a + 24) 2, msixVector := m.le (a + 26) 2, enable := m.le (a + 28) 2,
          notifyOff := m.le (a + 30) 2, descAddr := m.le (a + 32) 8,
          driverAddr := m.le (a + 40) 8, deviceAddr := m.le (a + 48) 8 },
      dev := m.le (a + 56) 8, nextAvailIdx := m.le (a + 64) 2,
      usedWrapCount := m.le (a + 66) 1 != 0, handleOutput := m.le (a + 72) 8 } :=
  rfl

theorem loadVirtq_congr (m m' : ByteMem) (a : Nat)
    (hm : ∀ x, a ≤ x → x < a + virtqSize → m x = m' x) : loadVirtq m a = loadVirtq m' a := by
  have hle : ∀ o k, o + k ≤ 80 → m.le (a + o) k = m'.le (a + o) k := fun o k hk =>
    ByteMem.le_congr _ _ _ _ (fun i hi => hm _ (by omega) (by unfold virtqSize; omega))
  have h0 := hle 0 8 (by omega)
  rw [Nat.add_zero] at h0
  simp (disch := omega) only [loadVirtq_offsets, hle, h0]

/-- `virtq_enable` in memory is `virtq_enable` on the queue. -/
theorem loadVirtq_virtqEnableAt (mapper : Int → MemRegion) (h : ByteMem) (a : Nat) :
    loadVirtq (virtqEnableAt mapper h a) a = virtqEnable mapper (loadVirtq h a) := by
  have hlt : ∀ g, getUserspaceAddr mapper g < 256 ^ 8 := fun g => Nat.mod_lt _ (by decide)
  have h1 : 1 < 256 ^ 2 := by decide
  unfold virtqEnableAt
  split_ifs with hen
  · exact (if_pos hen).symm
  · have hq : virtqEnable mapper (loadVirtq h a) = _ := if_neg hen
    rw [hq]
    simp only [loadVirtq_offsets, virtqEnabled, virtqGuestEvent, virtqDeviceEvent, Virtq.mk.injEq,
      VirtqInfo.mk.injEq]
    simp (disch := first | exact hlt _ | assumption | (unfold Apart; omega)) only
      [ByteMem.le_writeLE_apart, ByteMem.le_writeLE_self, and_self]

/-- A write of `queue_enable` enables the selected queue, or does nothing. -/
theorem enableWrite_host (data : List UInt8) (hsize : data.length ≤ 8)
    (hvq : vqPtr L d.host = L.vq) :
    (virtioPciIospaceWrite mapper L d regQEnable data).1.host
      = if queueEnable L (d.host.write (L.config + regQEnable) data) ≠ 0 then
          virtqEnableAt mapper (d.host.write (L.config + regQEnable) data)
            (L.vq + virtqSize * queueSelect L d.host)
        else d.host.write (L.config + regQEnable) data := by
  rcases copy_keeps (L := L) (d := d) regQEnable data (by decide) hsize with ⟨hptr, hsel⟩
  rw [virtioPciIospaceWrite, if_pos (by decide), virtioPciCommand, if_neg (by decide),
    if_neg (by decide), if_neg (by decide), if_pos rfl]
  split_ifs with hen
  · simp only [virtioPciCmdEnableVirtq, vqAt]
    rw [hptr, hvq, (hsel (by decide)).1]
  · rfl

/-- A write of `queue_select` shows the selected queue, or a size of zero. -/
theorem selectWrite_host (data : List UInt8) (hsize : data.length ≤ 8)
    (hvq : vqPtr L d.host = L.vq) :
    (virtioPciIospaceWrite mapper L d regQSelect data).1.host
      = let c := d.host.write (L.config + regQSelect) data
        if queueSelect L c < numQueues L d.host then
          c.write (L.config + regQSize)
            (c.read (L.vq + virtqSize * queueSelect L c + virtqInfo) virtqInfoSize)
        else c.writeLE (L.config + regQSize) 2 0 := by
  have hptr := (copy_keeps (L := L) (d := d) regQSelect data (by decide) hsize).1
  have hnum : numQueues L (d.host.write (L.config + regQSelect) data) = numQueues L d.host :=
    ByteMem.le_write_apart _ _ _ _ _ (.of_ge (by unfold regNumq regQSelect; omega))
  rw [virtioPciIospaceWrite, if_pos (by decide), virtioPciCommand, if_neg (by decide),
    if_neg (by decide), if_pos rfl]
  simp only [virtioPciCmdSelectVirtq, vqAt]
  rw [hnum, hptr, hvq]

/-- A write of the notify register is stored, and notifies the queue it names. -/
theorem notifyWrite_eq (data : List UInt8) :
    virtioPciIospaceWrite mapper L d regNotifyCfg data
      = let c := d.host.write (L.config + regNotifyCfg) data
        ({ d with host := c }, some (vqAt L c (notifyVqn L c))) := by
  rw [virtioPciIospaceWrite, if_pos (by decide), virtioPciCommand, if_neg (by decide),
    if_neg (by decide), if_neg (by decide), if_neg (by decide), if_neg (by decide), if_pos rfl]

/-- A write to any register but the notify register is its copy and its
    command. -/
theorem step_write_eq (offset : Nat) (data : List UInt8) (hn : offset ≠ regNotifyCfg)
    (h : PciStep mapper L (.access (.write offset data)) d d') :
    data.length ≤ 8 ∧ d' = (virtioPciIospaceWrite mapper L d offset data).1 := by
  cases h with
  | access acc _ _ hacc hio =>
      refine ⟨hacc.size_le, ?_⟩
      cases hio with
      | write => rfl
      | notify _ _ _ _ a hsome _ => exact absurd (regWrite_notified offset data a hsome).1 hn

/-- The selected queue after a write of `queue_enable`. -/
theorem step_enable_queue (data : List UInt8) (hvq : vqPtr L d.host = L.vq)
    (h : PciStep mapper L (.access (.write regQEnable data)) d d') :
    loadVirtq d'.host (L.vq + virtqSize * queueSelect L d.host)
      = if queueEnable L (d.host.write (L.config + regQEnable) data) ≠ 0 then
          virtqEnable mapper (loadVirtq d.host (L.vq + virtqSize * queueSelect L d.host))
        else loadVirtq d.host (L.vq + virtqSize * queueSelect L d.host) := by
  rcases step_write_eq regQEnable data (by decide) h with ⟨hsize, rfl⟩
  have hdev := L.devCfg_eq
  have hge := L.vq_ge
  have hcopy : loadVirtq (d.host.write (L.config + regQEnable) data)
      (L.vq + virtqSize * queueSelect L d.host)
      = loadVirtq d.host (L.vq + virtqSize * queueSelect L d.host) :=
    loadVirtq_congr _ _ _ (fun x h1 h2 =>
      ByteMem.write_outside _ _ _ _ (by unfold regQEnable; omega))
  rw [enableWrite_host data hsize hvq]
  split_ifs with hen
  · rw [loadVirtq_virtqEnableAt, hcopy]
  · exact hcopy

end

/-! ### The pointers the code follows -/

/-- Register writes end inside the registers. -/
def BlockFits : PciEvent → Prop
  | .access (.write offset data) => offset < regDevCfg → offset + data.length ≤ regDevCfg
  | _ => True

instance (e : PciEvent) : Decidable (BlockFits e) :=
  match e with
  | .access (.write offset data) =>
      inferInstanceAs (Decidable (offset < regDevCfg → offset + data.length ≤ regDevCfg))
  | .access (.read _ _) => inferInstanceAs (Decidable True)
  | .ioevent _ => inferInstanceAs (Decidable True)

/-- The queue array and the device configuration are where they were set up,
    and events are registered for places of the array. -/
structure Anchored (L : PciLayout) (d : PciDev) : Prop where
  vq : vqPtr L d.host = L.vq
  devCfg : devCfgPtr L d.host = L.devCfg
  events : ∀ a ∈ d.events, ∃ i, a = L.vq + virtqSize * i

section

variable {mapper : Int → MemRegion} {L : PciLayout} {d d' : PciDev} {e : PciEvent}

/-- Where an event's writes go, seen from a byte below the queues and off the
    block of registers. -/
theorem Anchored.spares_below (h : Anchored L d) (hs : PciStep mapper L e d d') (x : Nat)
    (hx : Off x L.config regDevCfg) (hgf : Off x (L.config + devGuestFeature) 8)
    (hcfg : x < L.devCfg) (hfits : BlockFits e) : Spares L d x e := by
  have hvq := L.vq_ge
  have hdev := L.devCfg_eq
  unfold Off regDevCfg devGuestFeature at *
  cases hs with
  | access acc _ _ hacc hio =>
      cases acc with
      | read offset size =>
          intro ho
          unfold Off regIsrCfg
          omega
      | write offset data =>
          -- Every range of the write is a register's, the feature word's or a queue's.
          simp only [BlockFits, regDevCfg] at hfits
          rw [spares_write, h.devCfg]
          unfold Off
          refine ⟨?_, ?_, ?_, ?_, ?_, ?_, ?_, ?_⟩ <;> intros <;> omega
  | ioevent a _ _ ha hn =>
      rcases h.events a ha with ⟨i, rfl⟩
      simp only [Spares, Off, regIsrCfg]
      omega

/-- Only register writes, from the size of the window on, act on a queue. -/
theorem WritesQueue.range {h : ByteMem} {offset : Nat} (hw : WritesQueue L h offset) :
    regQSize ≤ offset ∧ offset < regDevCfg := by
  rcases hw with ⟨ho, -⟩ | ⟨⟨h1, h2, -⟩, -⟩
  · rw [ho]
    decide
  · unfold regQUsedhi at h2
    exact ⟨h1, by unfold regDevCfg; omega⟩

/-- The queue a register write acts on is the selected one. -/
theorem Anchored.queueInside_iff (h : Anchored L d) (offset : Nat) (data : List UInt8)
    (hend : offset + data.length ≤ devVq) :
    QueueInside L d (.access (.write offset data)) ↔
      (WritesQueue L (d.host.write (L.config + offset) data) offset →
        queueSelect L d.host < L.n) := by
  refine forall_congr' fun hw => ?_
  rw [vqAt, copy_vqPtr offset data hend, h.vq, (copy_select offset data hw.range.1).1]
  constructor
  · rintro ⟨i, hi, heq⟩
    unfold virtqSize at heq
    omega
  · intro hlt
    exact ⟨_, hlt, rfl⟩

theorem anchored_step (h : Anchored L d) (hfits : BlockFits e) (hs : PciStep mapper L e d d') :
    Anchored L d' := by
  have hdev := L.devCfg_eq
  refine ⟨?_, ?_, fun a ha => ?_⟩
  · -- Both pointers lie behind the registers and below the queues.
    refine (step_field hs h.vq _ _ fun x h1 h2 => ?_).trans h.vq
    unfold devVq at h1 h2
    refine h.spares_below hs x ?_ ?_ (by omega) hfits
    · exact Or.inr (by unfold regDevCfg; omega)
    · exact Or.inr (by unfold devGuestFeature; omega)
  · refine (step_field hs h.vq _ _ fun x h1 h2 => ?_).trans h.devCfg
    unfold regDevCfg at h1 h2
    refine h.spares_below hs x ?_ ?_ (by omega) hfits
    · exact Or.inr (by unfold regDevCfg; omega)
    · exact Or.inl (by unfold devGuestFeature; omega)
  · -- A new event is the selected queue, which is in the array.
    rcases step_events hs h.vq with hev | ⟨data, -, -, hev⟩
    · exact h.events a (hev ▸ ha)
    · rw [hev, List.mem_append, List.mem_singleton] at ha
      rcases ha with ha | ha
      · exact h.events a ha
      · exact ⟨_, ha⟩

end

/-! ### The registers -/

/-- The events that are no register write. -/
def Quiet : PciEvent → Prop
  | .access (.write offset _) => regDevCfg ≤ offset
  | _ => True

section

variable {mapper : Int → MemRegion} {L : PciLayout} {d d' : PciDev} {e : PciEvent}

/-- A register after a register write: the copy, unless the command of the
    offset sets it. -/
theorem Anchored.regWrite_byte (h : Anchored L d) (offset : Nat) (data : List UInt8)
    (hs : PciStep mapper L (.access (.write offset data)) d d') (hoff : offset < regDevCfg)
    (x : Nat) (hlt : x < L.devCfg)
    (hgf : offset = regGfselect → Off x (L.config + devGuestFeature) 8)
    (hdf : offset = regDfselect → Off x (L.config + regDf) 4)
    (hsel : offset = regQSelect → Off x (L.config + regQSize) virtqInfoSize)
    (hisr : offset = regNotifyCfg → Off x (L.config + regIsrCfg) 4) :
    d'.host x = d.host.write (L.config + offset) data x := by
  have hge := L.vq_ge
  cases hs with
  | access acc _ _ hacc hio =>
      have hptr := (copy_keeps (L := L) (d := d) offset data hoff hacc.size_le).1
      -- Whatever queue the command is about, it lies above `x`.
      have hat : ∀ j, L.vq ≤ vqAt L (d.host.write (L.config + offset) data) j := by
        intro j
        rw [vqAt, hptr, h.vq]
        omega
      have hw : (virtioPciIospaceWrite mapper L d offset data).1.host x
          = d.host.write (L.config + offset) data x := by
        rw [virtioPciIospaceWrite, if_pos hoff]
        refine virtioPciCommand_off mapper L _ offset data x hdf hgf hsel ?_ ?_
        · intro _
          have hj := hat (queueSelect L (d.host.write (L.config + offset) data))
          exact ⟨Or.inl (Nat.lt_of_lt_of_le (by omega) hj),
            Or.inl (Nat.lt_of_lt_of_le (by omega) (Nat.le_add_right_of_le hj))⟩
        · intros
          have hj := hat (queueSelect L (d.host.write (L.config + offset) data))
          exact Or.inl (Nat.lt_of_lt_of_le (by omega) (Nat.le_add_right_of_le hj))
      cases hio with
      | write => exact hw
      | notify _ _ _ _ a hsome hn =>
          rcases regWrite_notified offset data a hsome with ⟨ho, ha, -⟩
          rw [notifyAt_off hn x ?_ (hisr ho), hw]
          rw [ha]
          have hj := hat (notifyVqn L (d.host.write (L.config + offset) data))
          unfold Off
          omega

/-- Other events leave everything before the device configuration alone, the
    interrupt status apart. -/
theorem Anchored.quiet_byte (h : Anchored L d) (hs : PciStep mapper L e d d') (hq : Quiet e)
    (x : Nat) (hlt : x < L.devCfg) (hisr : Off x (L.config + regIsrCfg) 4) :
    d'.host x = d.host x := by
  have hge := L.vq_ge
  refine step_spares hs h.vq x ?_
  cases hs with
  | access acc _ _ hacc hio =>
      cases acc with
      | read offset size => exact fun _ => hisr
      | write offset data =>
          -- A write past the registers goes through `dev_cfg`.
          simp only [Quiet, regDevCfg] at hq
          rw [spares_write, h.devCfg]
          unfold Off regIsrCfg at *
          refine ⟨?_, ?_, ?_, ?_, ?_, ?_, ?_, ?_⟩ <;> intros <;> omega
  | ioevent a _ _ ha hn =>
      rcases h.events a ha with ⟨i, rfl⟩
      exact ⟨Or.inl (by omega), hisr⟩

end

/-! ### The queues -/

/-- Device-configuration writes end inside the configuration. -/
def DevFits (L : PciLayout) : PciEvent → Prop
  | .access (.write offset data) => regDevCfg ≤ offset → offset - regDevCfg + data.length ≤ L.len
  | _ => True

instance (L : PciLayout) (e : PciEvent) : Decidable (DevFits L e) :=
  match e with
  | .access (.write offset data) =>
      inferInstanceAs (Decidable (regDevCfg ≤ offset → offset - regDevCfg + data.length ≤ L.len))
  | .access (.read _ _) => inferInstanceAs (Decidable True)
  | .ioevent _ => inferInstanceAs (Decidable True)

/-- Queue `i` of the device. -/
def queueAt (L : PciLayout) (h : ByteMem) (i : Nat) : Virtq :=
  loadVirtq h (L.vq + virtqSize * i)

/-- A write that is copied into the selected queue meets `P`. -/
def OnWindow (L : PciLayout) (d : PciDev) (P : Nat → List UInt8 → Prop) : PciEvent → Prop
  | .access (.write offset data) =>
      InWindow offset → queueSelect L d.host < numQueues L d.host → P offset data
  | _ => True

instance (L : PciLayout) (d : PciDev) (P : Nat → List UInt8 → Prop)
    [∀ offset data, Decidable (P offset data)] (e : PciEvent) : Decidable (OnWindow L d P e) :=
  match e with
  | .access (.write offset data) =>
      inferInstanceAs (Decidable (InWindow offset → queueSelect L d.host < numQueues L d.host →
        P offset data))
  | .access (.read _ _) => inferInstanceAs (Decidable True)
  | .ioevent _ => inferInstanceAs (Decidable True)

section

variable {mapper : Int → MemRegion} {L : PciLayout} {d d' : PciDev} {e : PciEvent}

/-- A window write is copied twice while an existing queue is selected. -/
theorem step_window (hvq : vqPtr L d.host = L.vq) (offset : Nat) (data : List UInt8)
    (hw : InWindow offset) (hs : PciStep mapper L (.access (.write offset data)) d d') :
    d'.host = if queueSelect L d.host < numQueues L d.host then
        (d.host.write (L.config + offset) data).write
          (L.vq + virtqSize * queueSelect L d.host + offset) data
      else d.host.write (L.config + offset) data := by
  rcases hw with ⟨h1, h2, h3⟩
  unfold regQSize at h1
  unfold regQUsedhi at h2
  have hoff : offset < regDevCfg := by unfold regDevCfg; omega
  rcases step_write_eq offset data (by unfold regNotifyCfg; omega) hs with ⟨hsize, rfl⟩
  rcases copy_keeps (L := L) (d := d) offset data hoff hsize with ⟨hptr, hsel⟩
  -- The window starts as far into the registers as `info` into the queue.
  have hadd : ∀ q, q + virtqInfo + (offset - regQSize) = q + offset := by
    intro q
    unfold virtqInfo regQSize
    omega
  rw [virtioPciIospaceWrite, if_pos hoff, virtioPciCommand,
    if_neg (by unfold regDfselect; omega), if_neg (by unfold regGfselect; omega),
    if_neg (by unfold regQSelect; omega), if_neg h3,
    if_pos ⟨by unfold regQSize; omega, by unfold regQUsedhi; omega⟩]
  simp only [vqAt, hadd]
  rw [(hsel h1).1, (hsel h1).2, hptr, hvq]
  split_ifs
  · rfl
  · rfl

/-- The event is a notification. -/
def Notifies : PciEvent → Prop
  | .access (.write offset _) => offset = regNotifyCfg
  | .access (.read _ _) => False
  | .ioevent _ => True

/-- Where an event's writes go, seen from byte `o` of queue `i`: a queue is
    written by its enabling, by its window and, at its position, by
    notifications. -/
theorem Anchored.spares_queue (h : Anchored L d) (hs : PciStep mapper L e d d')
    (hdev : DevFits L e) (i o : Nat) (ho : o < virtqSize)
    (hpos : Notifies e → Off o virtqNextAvailIdx 3)
    (hen : ∀ data, e = .access (.write regQEnable data) → queueSelect L d.host = i →
      virtqInfo ≤ o ∧ Off o virtqEnabled 2)
    (hwin : ∀ offset data, e = .access (.write offset data) → InWindow offset →
      queueSelect L d.host = i → queueSelect L d.host < numQueues L d.host →
      Off o offset data.length) :
    Spares L d (L.vq + virtqSize * i + o) e := by
  have hvq := L.vq_ge
  have hcfg := L.devCfg_eq
  unfold virtqSize at ho ⊢
  cases hs with
  | access acc _ _ hacc hio =>
      cases acc with
      | read offset size =>
          intro _
          unfold Off regIsrCfg
          omega
      | write offset data =>
          have hlen := hacc.size_le
          simp only [Access.size] at hlen
          have he := hen data
          have hw := hwin offset data rfl
          simp only [DevFits, regDevCfg] at hdev
          simp only [InWindow, Notifies, Off, regQSize, regQUsedhi, regQEnable, regNotifyCfg,
            virtqInfo, virtqEnabled, virtqNextAvailIdx] at hw he hpos
          rw [spares_write, h.devCfg]
          unfold Off
          -- Register ranges end below the queues; enabling and the window are as assumed.
          refine ⟨?_, ?_, ?_, ?_, ?_, ?_, ?_, ?_⟩
          · intros; omega
          · intros; omega
          · intros; omega
          · intros; omega
          · intro h28
            subst h28
            have he' := he rfl
            omega
          · intro h1 h2 h3 h4
            have hw' := fun hsel => hw ⟨h1, h2, h3⟩ hsel h4
            omega
          · intros; omega
          · intros; omega
  | ioevent a _ _ ha hn =>
      rcases h.events a ha with ⟨j, rfl⟩
      have hp := hpos trivial
      simp only [Spares, Off, regIsrCfg, virtqSize, virtqNextAvailIdx] at hp ⊢
      omega

end

/-! ### The device after set-up -/

section

variable (L : PciLayout) (h : ByteMem)

/-- A queue after `virtq_init` on cleared memory. -/
def virtqFresh (L : PciLayout) : Virtq :=
  virtqInit ⟨0, 0, 0, ⟨0, 0, 0, 0, 0, 0, 0⟩, 0, 0, false, 0⟩ L.dev 128 L.handler

/-- `virtq_init`, its offsets spelled out. -/
theorem virtqInitAt_offsets (a dev size handler : Nat) : virtqInitAt h a dev size handler =
    ((((((h.writeLE (a + 24) 2 size).writeLE (a + 30) 2 0).writeLE (a + 28) 2 0).writeLE
      (a + 64) 2 0).writeLE (a + 66) 1 1).writeLE (a + 56) 8 dev).writeLE (a + 72) 8 handler :=
  rfl

theorem virtqInitAt_off (a dev size handler x : Nat) (hx : Off x a virtqSize) :
    virtqInitAt h a dev size handler x = h x := by
  unfold Off virtqSize at hx
  rw [virtqInitAt_offsets]
  iterate 7 rw [writeLE_off _ _ _ _ _ (by unfold Off; omega)]

/-- `virtq_init` on a cleared queue gives a fresh one. -/
theorem loadVirtq_virtqInitAt (a : Nat) (hz : ∀ x, a ≤ x → x < a + virtqSize → h x = 0) :
    loadVirtq (virtqInitAt h a L.dev 128 L.handler) a = virtqFresh L := by
  have hdev : L.dev < 256 ^ 8 := L.dev_lt
  have hhan : L.handler < 256 ^ 8 := L.handler_lt
  have hz' : ∀ o k, o + k ≤ 80 → h.le (a + o) k = 0 := fun o k hk =>
    h.le_zero (a + o) k (fun i hi => hz _ (by omega) (by unfold virtqSize; omega))
  have h0 := hz' 0 8 (by omega)
  rw [Nat.add_zero] at h0
  simp only [loadVirtq_offsets, virtqInitAt_offsets, virtqFresh, virtqInit, Virtq.mk.injEq,
    VirtqInfo.mk.injEq]
  simp (disch := first | assumption | omega | (unfold Apart; omega)) only
    [ByteMem.le_writeLE_apart, ByteMem.le_writeLE_self, hz', h0]
  decide

/-- The loop over the queues stays inside the array. -/
theorem virtqInitAll_off (k x : Nat) (hx : Off x L.vq (virtqSize * k)) :
    virtqInitAll L h k x = h x := by
  unfold Off virtqSize at hx
  induction k with
  | zero => rfl
  | succ k ih =>
      rw [virtqInitAll, virtqInitAt_off _ _ _ _ _ _ (by unfold Off virtqSize; omega)]
      exact ih (by omega)

/-- After the loop every queue is fresh. -/
theorem loadVirtq_virtqInitAll (k i : Nat) (hi : i < k)
    (hz : ∀ x, L.vq ≤ x → x < L.vq + virtqSize * k → h x = 0) :
    loadVirtq (virtqInitAll L h k) (L.vq + virtqSize * i) = virtqFresh L := by
  induction k with
  | zero => omega
  | succ k ih =>
      unfold virtqSize at *
      rw [virtqInitAll]
      -- The last queue is the one just set up, the others are as they were.
      by_cases hik : i = k
      · subst hik
        refine loadVirtq_virtqInitAt L _ _ ?_
        intro x h1 h2
        unfold virtqSize at *
        rw [virtqInitAll_off _ _ _ _ (by unfold Off virtqSize; omega)]
        exact hz x (by omega) (by omega)
      · rw [loadVirtq_congr _ (virtqInitAll L h k) _ (fun x h1 h2 => ?_)]
        · exact ih (by omega) (fun x h1 h2 => hz x h1 (by omega))
        · unfold virtqSize at *
          exact virtqInitAt_off _ _ _ _ _ _ (by unfold Off virtqSize; omega)

end

section

variable {L : PciLayout} {d : PciDev}

/-- Before the queues are set up, everything up to their end is zero, the
    capacity apart. -/
theorem virtioBlkFields_zero (L : PciLayout) (h : ByteMem) (capacity x : Nat)
    (h1 : L.config ≤ x) (h2 : x < L.tail) (hcap : Off x L.devCfg 8) :
    virtioBlkFields L h capacity x = 0 := by
  unfold virtioBlkFields
  rw [writeLE_off _ _ _ _ _ (Or.inl h2), writeLE_off _ _ _ _ _ hcap,
    writeLE_off _ _ _ _ _ (Or.inl (by omega))]
  rcases Nat.exists_eq_add_of_le h1 with ⟨i, rfl⟩
  rw [ByteMem.write_inside _ _ _ _ (by rw [List.length_replicate]; omega), List.getElem_replicate]

/-- What is set after the queues lies below them. -/
theorem virtioBlkInitPci_queues (L : PciLayout) (h : ByteMem) (capacity x : Nat)
    (hx : L.devCfg ≤ x) :
    virtioBlkInitPci L h capacity x = virtqInitAll L (virtioBlkFields L h capacity) L.n x := by
  have hdev := L.devCfg_eq
  unfold virtioBlkInitPci
  rw [writeLE_off _ _ _ _ _ (Or.inr (by unfold devVq; omega)),
    writeLE_off _ _ _ _ _ (Or.inr (by unfold regNumq; omega)),
    writeLE_off _ _ _ _ _ (Or.inr (by unfold regDevCfg; omega)),
    writeLE_off _ _ _ _ _ (Or.inr (by unfold devDeviceFeature; omega))]

/-- The registers after set-up are zero, except for the number of queues. -/
theorem virtioBlkInitPci_zero (L : PciLayout) (h : ByteMem) (capacity x : Nat)
    (h1 : L.config ≤ x) (h2 : x < L.config + devVq) (hn : Off x (L.config + regNumq) 2)
    (hf : Off x (L.config + devDeviceFeature) 8) (hd : Off x (L.config + regDevCfg) 8) :
    virtioBlkInitPci L h capacity x = 0 := by
  have hdev := L.devCfg_eq
  have hvq := L.vq_ge
  have hlow : x < L.devCfg := by unfold devVq at h2; omega
  unfold virtioBlkInitPci
  rw [writeLE_off _ _ _ _ _ (Or.inl h2), writeLE_off _ _ _ _ _ hn, writeLE_off _ _ _ _ _ hd,
    writeLE_off _ _ _ _ _ hf, virtqInitAll_off _ _ _ _ (Or.inl (by omega))]
  exact virtioBlkFields_zero L h capacity x h1 (by unfold PciLayout.tail; omega) (Or.inl hlow)

/-- After set-up every queue is fresh. -/
theorem virtioBlkInitPci_queue (L : PciLayout) (h : ByteMem) (capacity i : Nat) (hi : i < L.n) :
    loadVirtq (virtioBlkInitPci L h capacity) (L.vq + virtqSize * i) = virtqFresh L := by
  have hdev := L.devCfg_eq
  have hvq := L.vq_ge
  have hlen := L.len_ge
  refine (loadVirtq_congr _ _ _ (fun x h1 h2 => ?_)).trans
    (loadVirtq_virtqInitAll L (virtioBlkFields L h capacity) L.n i hi (fun x h1 h2 => ?_))
  · exact virtioBlkInitPci_queues L h capacity x (by omega)
  · exact virtioBlkFields_zero L h capacity x (by omega) h2 (Or.inr (by omega))

/-- What lies behind the queues is as `virtio_blk_setup` left it. -/
theorem PciDev.Initial.tail (h : d.Initial L) :
    d.host.le L.tail 4 = L.irqfd ∧ d.host.le (L.tail + tailDiskimg) 8 = L.diskimg := by
  rcases h.host with ⟨m, capacity, hm⟩
  have hvq := L.vq_ge
  have hlen := L.len_ge
  have hle : ∀ a k, L.tail ≤ a →
      d.host.le a k = (virtioBlkFields L m capacity).le a k := by
    intro a k ha
    refine ByteMem.le_congr _ _ _ _ fun i hi => ?_
    unfold PciLayout.tail at ha
    rw [hm, virtioBlkInitPci_queues L m capacity _ (by omega),
      virtqInitAll_off _ _ _ _ (Or.inr (by omega))]
  rw [hle _ _ (Nat.le_refl _), hle _ _ (Nat.le_add_right _ _)]
  unfold virtioBlkFields tailDiskimg
  constructor
  · exact ByteMem.le_writeLE_self _ _ _ _ L.irqfd_lt
  · rw [ByteMem.le_writeLE_apart _ _ _ _ _ _ (.of_le (by omega)),
      ByteMem.le_writeLE_apart _ _ _ _ _ _ (.of_le (by unfold PciLayout.tail; omega)),
      ByteMem.le_writeLE_self _ _ _ _ L.diskimg_lt]

theorem PciDev.Initial.zero (h : d.Initial L) (x : Nat) (h1 : L.config ≤ x)
    (h2 : x < L.config + devVq) (hn : Off x (L.config + regNumq) 2)
    (hf : Off x (L.config + devDeviceFeature) 8) (hd : Off x (L.config + regDevCfg) 8) :
    d.host x = 0 := by
  rcases h.host with ⟨m, capacity, hm⟩
  rw [hm]
  exact virtioBlkInitPci_zero L m capacity x h1 h2 hn hf hd

/-- The registers and the driver's features start at zero. -/
theorem PciDev.Initial.le_zero (h : d.Initial L) (a k : Nat)
    (ha : a + k ≤ regNumq ∨ (regNumq + 2 ≤ a ∧ a + k ≤ regDevCfg) ∨
      (devGuestFeature ≤ a ∧ a + k ≤ devVq)) :
    d.host.le (L.config + a) k = 0 := by
  unfold regNumq regDevCfg devGuestFeature devVq at ha
  refine ByteMem.le_zero _ _ _ (fun i hi => h.zero _ ?_ ?_ ?_ ?_ ?_)
  · omega
  · unfold devVq
    omega
  · unfold Off regNumq
    omega
  · unfold Off devDeviceFeature
    omega
  · unfold Off regDevCfg
    omega

theorem PciDev.Initial.queue (h : d.Initial L) (i : Nat) (hi : i < L.n) :
    loadVirtq d.host (L.vq + virtqSize * i) = virtqFresh L := by
  rcases h.host with ⟨m, capacity, hm⟩
  rw [hm]
  exact virtioBlkInitPci_queue L m capacity i hi

theorem PciDev.Initial.numQueues (h : d.Initial L) : numQueues L d.host = L.n := by
  rcases h.host with ⟨m, capacity, hm⟩
  rw [hm, Microv.numQueues, virtioBlkInitPci,
    ByteMem.le_writeLE_apart _ _ _ _ _ _ (.of_ge (by unfold regNumq devVq; omega)),
    ByteMem.le_writeLE_self _ _ _ _ L.n_lt]

theorem PciDev.Initial.deviceFeature (h : d.Initial L) :
    d.host.le (L.config + devDeviceFeature) 8 = 2 ^ 34 ||| 2 ^ 32 := by
  rcases h.host with ⟨m, capacity, hm⟩
  rw [hm, virtioBlkInitPci,
    ByteMem.le_writeLE_apart _ _ _ _ _ _ (.of_ge (by unfold devDeviceFeature devVq; omega)),
    ByteMem.le_writeLE_apart _ _ _ _ _ _ (.of_le (by unfold regNumq devDeviceFeature; omega)),
    ByteMem.le_writeLE_apart _ _ _ _ _ _ (.of_le (by unfold regDevCfg devDeviceFeature; omega)),
    ByteMem.le_writeLE_self _ _ _ _ (by decide)]

theorem PciDev.Initial.anchored (h : d.Initial L) : Anchored L d := by
  rcases h.host with ⟨m, capacity, hm⟩
  have hdev := L.devCfg_eq
  have hvq := L.vq_ge
  have hlt := L.vq_lt
  refine ⟨?_, ?_, fun a ha => ?_⟩
  · rw [hm, vqPtr, virtioBlkInitPci, ByteMem.le_writeLE_self _ _ _ _ hlt]
  · rw [hm, devCfgPtr, virtioBlkInitPci,
      ByteMem.le_writeLE_apart _ _ _ _ _ _ (.of_ge (by unfold regDevCfg devVq; omega)),
      ByteMem.le_writeLE_apart _ _ _ _ _ _ (.of_le (by unfold regDevCfg regNumq; omega)),
      ByteMem.le_writeLE_self _ _ _ _ (by omega)]
  · rw [h.events] at ha
    exact absurd ha List.not_mem_nil

/-- The pointers stay where they are along every run whose register writes
    fit. -/
theorem anchored_run {mapper : Int → MemRegion} {C : PciDev → PciEvent → Prop} {d' : PciDev}
    (h : d.Initial L) (hC : ∀ d e, C d e → BlockFits e)
    (hrun : Run (PciStep mapper L) C d d') : Anchored L d' :=
  hrun.invariant h.anchored (fun _ e _ ha hc hs => anchored_step ha (hC _ e hc) hs)

end

/-! ### Sequences of writes -/

section

variable (mapper : Int → MemRegion) (L : PciLayout)

/-- The device after a sequence of writes, none of which notifies. -/
def pciWrites (d : PciDev) (ws : List (Nat × List UInt8)) : PciDev :=
  ws.foldl (fun d w => (virtioPciIospaceWrite mapper L d w.1 w.2).1) d

/-- The writes are forwarded, notify nobody and meet `C`. -/
def WritesMeet (C : PciDev → PciEvent → Prop) (d : PciDev) : List (Nat × List UInt8) → Prop
  | [] => True
  | w :: ws =>
      ((Access.write w.1 w.2).Forwarded ∧ (virtioPciIospaceWrite mapper L d w.1 w.2).2 = none ∧
        C d (.access (.write w.1 w.2))) ∧
      WritesMeet C (virtioPciIospaceWrite mapper L d w.1 w.2).1 ws

instance decidableWritesMeet (C : PciDev → PciEvent → Prop) [∀ d e, Decidable (C d e)]
    (d : PciDev) (ws : List (Nat × List UInt8)) : Decidable (WritesMeet mapper L C d ws) :=
  match ws with
  | [] => inferInstanceAs (Decidable True)
  | w :: ws =>
      have := decidableWritesMeet C (virtioPciIospaceWrite mapper L d w.1 w.2).1 ws
      inferInstanceAs (Decidable ((_ ∧ _ ∧ _) ∧ WritesMeet mapper L C _ ws))

theorem WritesMeet.mono {mapper : Int → MemRegion} {L : PciLayout} {C C' : PciDev → PciEvent → Prop}
    {d : PciDev} {ws : List (Nat × List UInt8)} (h : WritesMeet mapper L C d ws)
    (hC : ∀ d offset data, (virtioPciIospaceWrite mapper L d offset data).2 = none →
      C d (.access (.write offset data)) → C' d (.access (.write offset data))) :
    WritesMeet mapper L C' d ws := by
  induction ws generalizing d with
  | nil => trivial
  | cons w ws ih =>
      rcases h with ⟨⟨hf, hn, hc⟩, hws⟩
      exact ⟨⟨hf, hn, hC d w.1 w.2 hn hc⟩, ih hws⟩

/-- A write that notifies nobody is no doorbell. -/
theorem doorbellInside_of_silent {mapper : Int → MemRegion} {L : PciLayout} {d : PciDev}
    {offset : Nat} {data : List UInt8}
    (hn : (virtioPciIospaceWrite mapper L d offset data).2 = none) :
    DoorbellInside mapper L d (.access (.write offset data)) := by
  intro ho
  subst ho
  rw [notifyWrite_eq] at hn
  exact absurd hn (Option.some_ne_none _)

theorem run_writes {C : PciDev → PciEvent → Prop} {d₀ d : PciDev}
    (hrun : Run (PciStep mapper L) C d₀ d) (ws : List (Nat × List UInt8))
    (h : WritesMeet mapper L C d ws) : Run (PciStep mapper L) C d₀ (pciWrites mapper L d ws) := by
  induction ws generalizing d with
  | nil => exact hrun
  | cons w ws ih =>
      rcases h with ⟨⟨hf, hn, hc⟩, hws⟩
      exact ih (hrun.tail _ hc (.access _ _ _ hf (.write d w.1 w.2 hn))) hws

/-- The same for the program, whose writes are contained. -/
theorem outcome_writes {C : PciDev → PciEvent → Prop} (d : PciDev) (ws : List (Nat × List UInt8))
    (h : WritesMeet mapper L (fun d e => C d e ∧ QueueInside L d e ∧ DevInside L d e) d ws) :
    Run (PciOutcome mapper L) (fun d e => C d e ∧ Contained mapper L d e) d
      (pciWrites mapper L d ws) :=
  (run_writes mapper L (.refl _) ws (h.mono fun _ _ _ hn hc =>
    ⟨hc.1, hc.2.1, hc.2.2, doorbellInside_of_silent hn⟩)).guarded _

end

/-! ### A device with one queue -/

/-- A block device with the sizes of the real one. -/
def sampleLayout : PciLayout :=
  { dev := 0xA00, config := 0x1000, devCfg := 0x1070, len := 60, vq := 0x10B0, n := 1,
    handler := 0x400000, irqfd := 9, diskimg := 0x9F0, devCfg_eq := by decide,
    len_ge := by decide, vq_ge := by decide, vq_lt := by decide, dev_lt := by decide,
    handler_lt := by decide, irqfd_lt := by decide, diskimg_lt := by decide,
    len_lt := by decide, n_pos := by decide, n_lt := by decide }

/-- The device of `sampleLayout`, set up for a disk of eight sectors. -/
def samplePci : PciDev :=
  { host := virtioBlkInitPci sampleLayout (fun _ => 0) 8, guest := fun _ => 0,
    img := ⟨⟨fun _ => 0, 4096⟩, 4096⟩, irqs := 0, events := [] }

theorem samplePci_initial : samplePci.Initial sampleLayout :=
  ⟨⟨_, _, rfl⟩, rfl⟩

end Microv
