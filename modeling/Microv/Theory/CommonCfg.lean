import Microv.Theory.QueueState

/-!
# The Common Configuration

The registers of `struct virtio_pci_common_cfg` that the device sets, and the
feature word the driver negotiates.

The structure is plain memory to the copies, so a register the device owns is
read-only only as long as no write covers it. `Owned` is that these registers
hold the device's values, the shown half of the features with its selector.

A driver negotiates by selecting a half and writing a word. The code acts on
the selection, not on the word: it adds whatever the word register holds to
the selected half. What ends up in `guest_feature` is therefore made of the
words that stood there when each half was selected, and `standing` is that
value.

## Main definitions

* `featureHalf`, `deviceFeature`: The offered features.
* `OwnedFits`, `Owned`: The condition on a write, and the registers.
* `FeatureWrite`, `negotiate`: A driver's negotiation.
* `lastWord`, `standing`: What was meant, and what was added.

## Theorems

* `owned_registers_read`: The owned registers read as set.
* `negotiate_guestFeature`: The feature word after a negotiation.
* `negotiated_iff`: When it is the one the driver meant.
-/

namespace Microv

/-! ### Registers the device owns -/

/-- The half of the feature word a selector chooses. -/
def featureHalf (feature select : Nat) : Nat :=
  if select = 0 then feature % 2 ^ 32 else if select = 1 then feature / 2 ^ 32 else 0

/-- The feature word `virtio_pci_init` offers. -/
def deviceFeature : Nat := 2 ^ 34 ||| 2 ^ 32

/-- A register write reaches neither `num_queues` nor `queue_notify_off`, and
    `device_feature` and its selector only from the selector on. -/
def OwnedKept : PciEvent → Prop
  | .access (.write offset data) =>
      offset < regDevCfg →
        Apart offset data.length regNumq 2 ∧ Apart offset data.length regQNoff 2 ∧
        (offset < regGfselect → offset = regDfselect)
  | _ => True

instance (e : PciEvent) : Decidable (OwnedKept e) :=
  match e with
  | .access (.write offset data) =>
      inferInstanceAs (Decidable (offset < regDevCfg →
        Apart offset data.length regNumq 2 ∧ Apart offset data.length regQNoff 2 ∧
        (offset < regGfselect → offset = regDfselect)))
  | .access (.read _ _) => inferInstanceAs (Decidable True)
  | .ioevent _ => inferInstanceAs (Decidable True)

/-- Writes stay where they belong and off the registers the device owns. -/
def OwnedFits (L : PciLayout) (d : PciDev) (e : PciEvent) : Prop :=
  BlockFits e ∧ DevFits L e ∧ OwnedKept e ∧
    OnWindow L d (fun offset data => offset + data.length ≤ regQSize + virtqInfoSize) e

instance (L : PciLayout) (d : PciDev) (e : PciEvent) : Decidable (OwnedFits L d e) :=
  inferInstanceAs (Decidable (_ ∧ _ ∧ _ ∧
    OnWindow L d (fun offset data => offset + data.length ≤ regQSize + virtqInfoSize) e))

/-- The registers the device owns hold its values. -/
structure Owned (L : PciLayout) (h : ByteMem) : Prop where
  numQueues : numQueues L h = L.n
  feature : h.le (L.config + devDeviceFeature) 8 = deviceFeature
  shown : h.le (L.config + regDf) 4 = featureHalf deviceFeature (h.le (L.config + regDfselect) 4)
  notifyOff : h.le (L.config + regQNoff) 2 = 0
  queues : ∀ i, i < L.n → (queueAt L h i).info.notifyOff = 0

section

variable {mapper : Int → MemRegion} {L : PciLayout} {d d' : PciDev} {e : PciEvent}

/-- The queues keep their notify offset. -/
theorem owned_queues_step (h : Anchored L d) (hc : OwnedFits L d e)
    (hs : PciStep mapper L e d d') (i : Nat) :
    (queueAt L d'.host i).info.notifyOff = (queueAt L d.host i).info.notifyOff := by
  refine h.queue_field hs hc.2.1 i virtqNotifyOff 2 (by decide) (fun _ => .of_le (by decide))
    (fun _ _ _ => ⟨by decide, .of_ge (by decide)⟩) (fun offset data he hw _ _ => ?_)
  subst he
  have hend := hw.2.1
  unfold regQUsedhi at hend
  exact (hc.2.2.1 (by unfold regDevCfg; omega)).2.1

/-- A field outside the copy of a register write and outside its command. -/
theorem Anchored.regWrite_field (h : Anchored L d) (offset : Nat) (data : List UInt8)
    (hs : PciStep mapper L (.access (.write offset data)) d d') (hoff : offset < regDevCfg)
    (a k : Nat) (hlt : L.config + a + k ≤ L.devCfg) (hcopy : Apart offset data.length a k)
    (hgf : offset = regGfselect → Apart a k devGuestFeature 8)
    (hdf : offset = regDfselect → Apart a k regDf 4)
    (hsel : offset = regQSelect → Apart a k regQSize virtqInfoSize)
    (hisr : offset = regNotifyCfg → Apart a k regIsrCfg 4) :
    d'.host.le (L.config + a) k = d.host.le (L.config + a) k := by
  refine ByteMem.le_congr _ _ _ _ ?_
  intro i hi
  rw [h.regWrite_byte offset data hs hoff _ (by omega) (fun ho => ?_) (fun ho => ?_)
    (fun ho => ?_) (fun ho => ?_)]
  · exact ByteMem.write_outside _ _ _ _ (hcopy.symm.off L.config hi)
  · exact (hgf ho).off L.config hi
  · exact (hdf ho).off L.config hi
  · exact (hsel ho).off L.config hi
  · exact (hisr ho).off L.config hi

theorem Anchored.quiet_field (h : Anchored L d) (hs : PciStep mapper L e d d') (hq : Quiet e)
    (a k : Nat) (hlt : L.config + a + k ≤ L.devCfg) (hisr : Apart a k regIsrCfg 4) :
    d'.host.le (L.config + a) k = d.host.le (L.config + a) k := by
  refine ByteMem.le_congr _ _ _ _ (fun i hi => h.quiet_byte hs hq _ (by omega) ?_)
  exact hisr.off L.config hi

/-- Writing the feature selector shows the half it chooses. -/
theorem selectFeature_shown (data : List UInt8) (hsize : data.length ≤ 8)
    (hf : d.host.le (L.config + devDeviceFeature) 8 = deviceFeature) :
    let h := (virtioPciIospaceWrite mapper L d regDfselect data).1.host
    h.le (L.config + regDf) 4 = featureHalf deviceFeature (h.le (L.config + regDfselect) 4) := by
  rw [virtioPciIospaceWrite, if_pos (by decide), virtioPciCommand, if_pos rfl]
  simp only [virtioPciCmdSelectDeviceFeature]
  -- The copy of the selector leaves the word the half is taken from.
  have hf' : (d.host.write (L.config + regDfselect) data).le (L.config + devDeviceFeature) 8
      = deviceFeature := by
    rw [ByteMem.le_write_apart _ _ _ _ _
      (.of_le (by unfold regDfselect devDeviceFeature; omega)), hf]
  rw [hf']
  generalize d.host.write (L.config + regDfselect) data = m
  have hkeep : ∀ v, (m.writeLE (L.config + regDf) 4 v).le (L.config + regDfselect) 4
      = m.le (L.config + regDfselect) 4 := fun v =>
    ByteMem.le_writeLE_apart _ _ _ _ _ _ (.of_ge (by unfold regDf regDfselect; omega))
  rw [hkeep, ByteMem.writeLE, ByteMem.le_write_leBytes]
  unfold featureHalf
  split_ifs
  · rfl
  · rfl
  · rfl

/-- Writing the queue selector shows the selected queue, or keeps the window
    past its size. -/
theorem selectVirtq_notifyOff (data : List UInt8) (hsize : data.length ≤ 8)
    (hvq : vqPtr L d.host = L.vq) (ho : Owned L d.host) :
    (virtioPciIospaceWrite mapper L d regQSelect data).1.host.le (L.config + regQNoff) 2 = 0 := by
  have hcopy : (d.host.write (L.config + regQSelect) data).le (L.config + regQNoff) 2 = 0 := by
    rw [ByteMem.le_write_apart _ _ _ _ _ (.of_le (by unfold regQSelect regQNoff; omega)),
      ho.notifyOff]
  rw [selectWrite_host data hsize hvq]
  simp only
  split_ifs with hlt
  · have hnum : numQueues L d.host = L.n := ho.numQueues
    rw [hnum] at hlt
    have hq := ho.queues _ hlt
    rw [← queueAt_copy regQSelect data (by decide) hsize] at hq
    exact (ByteMem.le_write_read _ _ _ _ virtqInfoSize 6 2 (by decide)).trans hq
  · rw [ByteMem.le_writeLE_apart _ _ _ _ _ _ (.of_le (by unfold regQSize regQNoff; omega)), hcopy]

/-- An event that is no register write leaves what the device owns. -/
theorem owned_quiet (h : Anchored L d) (ho : Owned L d.host) (hs : PciStep mapper L e d d')
    (hq : Quiet e) (hqueues : ∀ i, i < L.n → (queueAt L d'.host i).info.notifyOff = 0) :
    Owned L d'.host := by
  have hdev := L.devCfg_eq
  have hkeep := fun a k => h.quiet_field hs hq a k
  refine ⟨?_, ?_, ?_, ?_, hqueues⟩
  · exact (hkeep regNumq 2 (by unfold regNumq; omega) (.of_le (by decide))).trans ho.numQueues
  · exact (hkeep devDeviceFeature 8 (by unfold devDeviceFeature; omega)
      (.of_ge (by decide))).trans ho.feature
  · rw [hkeep regDf 4 (by unfold regDf; omega) (.of_le (by decide)),
      hkeep regDfselect 4 (by unfold regDfselect; omega) (.of_le (by decide))]
    exact ho.shown
  · exact (hkeep regQNoff 2 (by unfold regQNoff; omega) (.of_le (by decide))).trans ho.notifyOff

/-- The half of the features shown follows its selector under every write that
    reaches the two from the selector on. -/
theorem shown_regWrite (h : Anchored L d) (ho : Owned L d.host) (offset : Nat)
    (data : List UInt8) (hs : PciStep mapper L (.access (.write offset data)) d d')
    (hoff : offset < regDevCfg) (hdf : offset < 8 → offset = regDfselect) :
    d'.host.le (L.config + regDf) 4
      = featureHalf deviceFeature (d'.host.le (L.config + regDfselect) 4) := by
  have hdev := L.devCfg_eq
  by_cases h0 : offset = regDfselect
  · subst h0
    rcases step_write_eq regDfselect data (by decide) hs with ⟨hsize, rfl⟩
    exact selectFeature_shown data hsize ho.feature
  · -- The write starts behind the two registers.
    have hge : 8 ≤ offset := by
      by_contra hlt
      exact h0 (hdf (Nat.lt_of_not_le hlt))
    have hlow : ∀ a, a + 4 ≤ 8 → d'.host.le (L.config + a) 4 = d.host.le (L.config + a) 4 := by
      intro a ha
      refine h.regWrite_field offset data hs hoff a 4 (by omega) (.of_ge (by omega)) ?_
        (fun h0' => absurd h0' h0) ?_ ?_
      · exact fun _ => .of_le (by unfold devGuestFeature; omega)
      · exact fun _ => .of_le (by unfold regQSize; omega)
      · exact fun _ => .of_le (by unfold regIsrCfg; omega)
    rw [hlow regDf (by decide), hlow regDfselect (by decide)]
    exact ho.shown

theorem owned_step (h : Anchored L d) (ho : Owned L d.host) (hc : OwnedFits L d e)
    (hs : PciStep mapper L e d d') : Owned L d'.host := by
  have hdev := L.devCfg_eq
  have hqueues : ∀ i, i < L.n → (queueAt L d'.host i).info.notifyOff = 0 := fun i hi =>
    (owned_queues_step h hc hs i).trans (ho.queues i hi)
  by_cases hq : Quiet e
  · exact owned_quiet h ho hs hq hqueues
  · match e, hq with
    | .access (.read _ _), hq => exact absurd trivial hq
    | .ioevent _, hq => exact absurd trivial hq
    | .access (.write offset data), hq =>
      have hoff : offset < regDevCfg := Nat.not_le.mp hq
      have hend := hc.1 hoff
      rcases hc.2.2.1 hoff with ⟨hnum, hnot, hdf⟩
      have hkeep := fun a k => h.regWrite_field offset data hs hoff a k
      refine ⟨?_, ?_, shown_regWrite h ho offset data hs hoff hdf, ?_, hqueues⟩
      · refine (hkeep regNumq 2 (by unfold regNumq; omega) hnum ?_ ?_ ?_ ?_).trans ho.numQueues
        · exact fun _ => .of_le (by decide)
        · exact fun _ => .of_ge (by decide)
        · exact fun _ => .of_le (by decide)
        · exact fun _ => .of_le (by decide)
      · -- The device's own word lies behind the registers.
        refine (hkeep devDeviceFeature 8 (by unfold devDeviceFeature; omega)
          (.of_le (by unfold regDevCfg at hend; unfold devDeviceFeature; omega)) ?_ ?_ ?_
          ?_).trans ho.feature
        · exact fun _ => .of_le (by decide)
        · exact fun _ => .of_ge (by decide)
        · exact fun _ => .of_ge (by decide)
        · exact fun _ => .of_ge (by decide)
      · by_cases h22 : offset = regQSelect
        · subst h22
          rcases step_write_eq regQSelect data (by decide) hs with ⟨hsize, rfl⟩
          exact selectVirtq_notifyOff data hsize h.vq ho
        · refine (hkeep regQNoff 2 (by unfold regQNoff; omega) hnot ?_ ?_
            (fun h22' => absurd h22' h22) ?_).trans ho.notifyOff
          · exact fun _ => .of_le (by decide)
          · exact fun _ => .of_ge (by decide)
          · exact fun _ => .of_le (by decide)

theorem PciDev.Initial.owned {d : PciDev} (h : d.Initial L) : Owned L d.host := by
  refine ⟨h.numQueues, h.deviceFeature, ?_, ?_, fun i hi => ?_⟩
  · rw [h.le_zero regDf 4 (.inl (by decide)), h.le_zero regDfselect 4 (.inl (by decide))]
    rfl
  · exact h.le_zero regQNoff 2 (.inr (.inl (by decide)))
  · rw [queueAt, h.queue i hi]
    rfl

end

/-- In every run whose writes stay off the registers the device owns and whose
    events are contained, the guest reads the device's own values: the number of
    queues, the half of the feature word its selector chooses, and the notify
    offset every queue was set up with. -/
theorem owned_registers_read (mapper : Int → MemRegion) (L : PciLayout) (d₀ d : PciDev)
    (h₀ : d₀.Initial L)
    (hrun : Run (PciOutcome mapper L) (fun d e => OwnedFits L d e ∧ Contained mapper L d e) d₀ d) :
    (virtioPciIospaceRead L d regNumq 2).1 = ByteMem.leBytes 2 L.n ∧
    (virtioPciIospaceRead L d regDf 4).1 = ByteMem.leBytes 4
      (featureHalf deviceFeature (d.host.le (L.config + regDfselect) 4)) ∧
    (virtioPciIospaceRead L d regQNoff 2).1 = ByteMem.leBytes 2 (virtqFresh L).info.notifyOff := by
  have hinv : Anchored L d ∧ Owned L d.host := by
    refine hrun.invariant (P := fun s => Anchored L s ∧ Owned L s.host) ⟨h₀.anchored, h₀.owned⟩
      (fun t e u ht hc ho => ?_)
    have hs := ho hc.2
    exact ⟨anchored_step ht.1 hc.1.1 hs, owned_step ht.1 ht.2 hc.1 hs⟩
  -- A register read is a copy out of the block.
  have hread : ∀ offset size, offset < regDevCfg →
      (virtioPciIospaceRead L d offset size).1
        = ByteMem.leBytes size (d.host.le (L.config + offset) size) := by
    intro offset size hoff
    rw [virtioPciIospaceRead, if_pos hoff, ByteMem.leBytes_le]
  rw [hread _ _ (by decide), hread _ _ (by decide), hread _ _ (by decide)]
  refine ⟨?_, ?_, ?_⟩
  · exact congrArg _ hinv.2.numQueues
  · exact congrArg _ hinv.2.shown
  · exact congrArg _ hinv.2.notifyOff

/-- `owned_registers_read` with the high half of the features selected. -/
theorem owned_registers_read_high :
    let d := pciWrites sampleMapper sampleLayout samplePci [(0, [1, 0, 0, 0]), (22, [0, 0])]
    (virtioPciIospaceRead sampleLayout d regDf 4).1 = [5, 0, 0, 0] ∧
    (virtioPciIospaceRead sampleLayout d regNumq 2).1 = ByteMem.leBytes 2 sampleLayout.n :=
  ⟨by decide +kernel,
    (owned_registers_read sampleMapper sampleLayout samplePci _ samplePci_initial
      (outcome_writes sampleMapper sampleLayout _ _ (by decide +kernel))).1⟩

/-- Each of the three takes whatever the guest writes there. -/
theorem owned_registers_overwritten :
    ∃ d, Run (PciStep sampleMapper sampleLayout) (fun _ _ => True) samplePci d ∧
      (virtioPciIospaceRead sampleLayout d regNumq 2).1 = [7, 0] ∧ sampleLayout.n = 1 ∧
      (virtioPciIospaceRead sampleLayout d regDf 4).1 = [9, 0, 0, 0] ∧
      featureHalf deviceFeature (d.host.le (sampleLayout.config + regDfselect) 4) = 0 ∧
      (virtioPciIospaceRead sampleLayout d regQNoff 2).1 = [3, 0] ∧
      (queueAt sampleLayout d.host 0).info.notifyOff = 3 := by
  refine ⟨pciWrites sampleMapper sampleLayout samplePci
      [(18, [7, 0]), (4, [9, 0, 0, 0]), (30, [3, 0])],
    run_writes _ _ (.refl _) _ (by decide +kernel), by decide +kernel, rfl, by decide +kernel,
    by decide +kernel, by decide +kernel, by decide +kernel⟩

/-! ### Feature negotiation -/

/-- A half of the feature word, and the word the driver writes for it. -/
structure FeatureWrite where
  high : Bool
  word : UInt32

/-- The two register writes of one negotiation step: the selector, then the
    word. -/
def FeatureWrite.writes (w : FeatureWrite) : List (Nat × List UInt8) :=
  [(regGfselect, ByteMem.leBytes 4 (if w.high then 1 else 0)),
    (regGf, ByteMem.leBytes 4 w.word.toNat)]

/-- The device after a negotiation. -/
def negotiate (mapper : Int → MemRegion) (L : PciLayout) (d : PciDev) (ws : List FeatureWrite) :
    PciDev :=
  pciWrites mapper L d (ws.flatMap FeatureWrite.writes)

/-- `dev->guest_feature`. -/
def guestFeature (L : PciLayout) (d : PciDev) : Nat := d.host.le (L.config + devGuestFeature) 8

/-- The last word the driver wrote for a half, or zero. -/
def lastWord (high : Bool) (ws : List FeatureWrite) : Nat :=
  match ws.reverse.find? (fun w => w.high == high) with
  | some w => w.word.toNat
  | none => 0

/-- The words that stood in `guest_feature` when a half was selected, put
    together; `prev` stands there at the start. -/
def standing (high : Bool) (prev : Nat) : List FeatureWrite → Nat
  | [] => 0
  | w :: ws => (if w.high = high then prev else 0) ||| standing high w.word.toNat ws

/-- The driver writes only bits it was offered. -/
def Offered (ws : List FeatureWrite) : Prop :=
  ∀ w ∈ ws, ∀ b, w.word.toNat.testBit b →
    (featureHalf deviceFeature (if w.high then 1 else 0)).testBit b

/-- What the negotiation is to achieve. -/
def Negotiated (L : PciLayout) (d : PciDev) (ws : List FeatureWrite) : Prop :=
  guestFeature L d = lastWord false ws + 2 ^ 32 * lastWord true ws ∧
    (Offered ws → ∀ b, (guestFeature L d).testBit b → deviceFeature.testBit b)

section

variable {mapper : Int → MemRegion} {L : PciLayout} {d : PciDev}

theorem standing_lt (high : Bool) (prev : Nat) (hprev : prev < 2 ^ 32) (ws : List FeatureWrite) :
    standing high prev ws < 2 ^ 32 := by
  induction ws generalizing prev with
  | nil => exact Nat.two_pow_pos 32
  | cons w ws ih =>
      refine Nat.or_lt_two_pow ?_ (ih _ w.word.toNat_lt)
      split_ifs
      · exact hprev
      · exact Nat.two_pow_pos 32

theorem lastWord_lt (high : Bool) (ws : List FeatureWrite) : lastWord high ws < 2 ^ 32 := by
  unfold lastWord
  split
  · exact UInt32.toNat_lt _
  · exact Nat.two_pow_pos 32

theorem testBit_halves (a b : Nat) (ha : a < 2 ^ 32) (i : Nat) :
    (a + 2 ^ 32 * b).testBit i = if i < 32 then a.testBit i else b.testBit (i - 32) := by
  rw [Nat.add_comm, Nat.testBit_two_pow_mul_add b ha]

theorem halves_or (a b c e : Nat) (ha : a < 2 ^ 32) (hc : c < 2 ^ 32) :
    (a + 2 ^ 32 * b) ||| (c + 2 ^ 32 * e) = (a ||| c) + 2 ^ 32 * (b ||| e) := by
  refine Nat.eq_of_testBit_eq ?_
  intro i
  rw [Nat.testBit_or, testBit_halves a b ha, testBit_halves c e hc,
    testBit_halves _ _ (Nat.or_lt_two_pow ha hc)]
  split_ifs
  · rw [Nat.testBit_or]
  · rw [Nat.testBit_or]

/-- One negotiation step adds the word that stands in `guest_feature` to the
    selected half, and only then replaces it. -/
theorem negotiate_step (mapper : Int → MemRegion) (L : PciLayout) (d : PciDev) (w : FeatureWrite) :
    let d' := pciWrites mapper L d w.writes
    guestFeature L d' = guestFeature L d |||
        (if w.high then 2 ^ 32 * d.host.le (L.config + regGf) 4
          else d.host.le (L.config + regGf) 4) ∧
      d'.host.le (L.config + regGf) 4 = w.word.toNat := by
  have hword : w.word.toNat < 256 ^ 4 := w.word.toNat_lt
  have hP : d.host.le (L.config + regGf) 4 < 2 ^ 32 := d.host.le_lt _ 4
  have hG : d.host.le (L.config + devGuestFeature) 8 < 2 ^ 64 := d.host.le_lt _ 8
  -- The selector's write latches the old word.
  have h1 : (virtioPciIospaceWrite mapper L d regGfselect
        (ByteMem.leBytes 4 (if w.high then 1 else 0))).1.host
      = (d.host.writeLE (L.config + regGfselect) 4 (if w.high then 1 else 0)).writeLE
        (L.config + devGuestFeature) 8 (guestFeature L d |||
          (if w.high then 2 ^ 32 * d.host.le (L.config + regGf) 4
            else d.host.le (L.config + regGf) 4)) := by
    rw [virtioPciIospaceWrite, if_pos (by decide), virtioPciCommand, if_neg (by decide),
      if_pos rfl]
    simp only [virtioPciCmdWriteGuestFeature]
    rw [← ByteMem.writeLE, ByteMem.le_writeLE_self _ _ _ _ (by split_ifs <;> decide),
      ByteMem.le_writeLE_apart _ _ _ _ _ _ (.of_le (by unfold regGfselect devGuestFeature; omega)),
      ByteMem.le_writeLE_apart _ _ _ _ _ _ (.of_le (by unfold regGfselect regGf; omega))]
    cases w.high with
    | false => rfl
    | true => rw [if_neg (by decide), if_pos rfl, Nat.mul_comm]; rfl
  have hlt : (guestFeature L d ||| (if w.high then 2 ^ 32 * d.host.le (L.config + regGf) 4
      else d.host.le (L.config + regGf) 4)) < 256 ^ 8 := by
    refine Nat.or_lt_two_pow hG ?_
    split_ifs
    · omega
    · omega
  -- The word's own write has no command.
  have h2 : ∀ m : PciDev,
      (virtioPciIospaceWrite mapper L m regGf (ByteMem.leBytes 4 w.word.toNat)).1.host
        = m.host.writeLE (L.config + regGf) 4 w.word.toNat := by
    intro m
    rw [virtioPciIospaceWrite, if_pos (by decide), virtioPciCommand, if_neg (by decide),
      if_neg (by decide), if_neg (by decide), if_neg (by decide), if_neg (by decide),
      if_neg (by decide)]
    rfl
  simp only [FeatureWrite.writes, pciWrites, List.foldl_cons, List.foldl_nil]
  refine ⟨?_, ?_⟩
  · rw [guestFeature, h2,
      ByteMem.le_writeLE_apart _ _ _ _ _ _ (.of_le (by unfold regGf devGuestFeature; omega)), h1,
      ByteMem.le_writeLE_self _ _ _ _ hlt]
  · rw [h2, ByteMem.le_writeLE_self _ _ _ _ hword]

/-- After a negotiation each half holds, besides what it held, the words that
    stood in the register when it was selected. -/
theorem negotiate_guestFeature (mapper : Int → MemRegion) (L : PciLayout) (d : PciDev)
    (ws : List FeatureWrite) (a b : Nat) (ha : a < 2 ^ 32)
    (hg : guestFeature L d = a + 2 ^ 32 * b) :
    guestFeature L (negotiate mapper L d ws)
      = (a ||| standing false (d.host.le (L.config + regGf) 4) ws)
        + 2 ^ 32 * (b ||| standing true (d.host.le (L.config + regGf) 4) ws) := by
  induction ws generalizing d a b with
  | nil =>
      simp only [standing, Nat.or_zero]
      exact hg
  | cons w ws ih =>
      have hP : d.host.le (L.config + regGf) 4 < 2 ^ 32 := d.host.le_lt _ 4
      rcases negotiate_step mapper L d w with ⟨hstep, hword⟩
      -- One pair of writes, then the rest from the device it leaves.
      have hsplit : negotiate mapper L d (w :: ws)
          = negotiate mapper L (pciWrites mapper L d w.writes) ws := by
        simp only [negotiate, pciWrites, List.flatMap_cons, List.foldl_append]
      rw [hsplit]
      generalize pciWrites mapper L d w.writes = d' at hstep hword ⊢
      generalize d.host.le (L.config + regGf) 4 = p at hP hstep ⊢
      -- The word that stood there goes into the half the pair selects.
      cases hw : w.high with
      | false =>
          have hg' : guestFeature L d' = (a ||| p) + 2 ^ 32 * b := by
            rw [hstep, hg, hw, if_neg (by decide)]
            have h := halves_or a b p 0 ha hP
            rw [Nat.mul_zero, Nat.add_zero, Nat.or_zero] at h
            exact h
          rw [ih _ _ _ (Nat.or_lt_two_pow ha hP) hg', hword]
          simp only [standing, hw, if_true, Bool.false_eq_true, if_false, Nat.zero_or,
            Nat.or_assoc]
      | true =>
          have hg' : guestFeature L d' = a + 2 ^ 32 * (b ||| p) := by
            rw [hstep, hg, hw, if_pos rfl]
            have h := halves_or a b 0 p ha (Nat.two_pow_pos 32)
            rw [Nat.zero_add, Nat.or_zero] at h
            exact h
          rw [ih _ _ _ ha hg', hword]
          simp only [standing, hw, if_true, Bool.true_eq_false, if_false, Nat.zero_or,
            Nat.or_assoc]

/-- The last word for a half has only bits that were offered there. -/
theorem Offered.lastWord {ws : List FeatureWrite} (h : Offered ws) (high : Bool) (b : Nat)
    (hb : (lastWord high ws).testBit b) :
    (featureHalf deviceFeature (if high then 1 else 0)).testBit b := by
  unfold Microv.lastWord at hb
  split at hb
  · rename_i w hw
    have hmem : w ∈ ws := List.mem_reverse.mp (List.mem_of_find?_eq_some hw)
    have hhigh : w.high = high := by simpa using List.find?_some hw
    rw [← hhigh]
    exact h w hmem b hb
  · rw [Nat.zero_testBit] at hb
    exact absurd hb Bool.false_ne_true

end

/-- A negotiation on a fresh device ends with the last word for each half
    exactly when, for each half, the words that stood in `guest_feature` when
    it was selected make up the last word written for it. -/
theorem negotiated_iff (mapper : Int → MemRegion) (L : PciLayout) (d : PciDev) (h : d.Initial L)
    (ws : List FeatureWrite) :
    Negotiated L (negotiate mapper L d ws) ws ↔
      standing false 0 ws = lastWord false ws ∧ standing true 0 ws = lastWord true ws := by
  have hg := negotiate_guestFeature mapper L d ws 0 0 (by decide)
    (h.le_zero devGuestFeature 8 (.inr (.inr (by decide))))
  rw [h.le_zero regGf 4 (.inl (by decide)), Nat.zero_or, Nat.zero_or] at hg
  unfold Negotiated
  rw [hg]
  constructor
  · -- Both halves are below `2 ^ 32`, so the sum says what each of them is.
    rintro ⟨heq, -⟩
    have h1 := standing_lt false 0 (by decide) ws
    have h2 := lastWord_lt false ws
    omega
  · rintro ⟨hlo, hhi⟩
    rw [hlo, hhi]
    refine ⟨rfl, fun hoff b hb => ?_⟩
    -- A bit of the result is a bit of one of the two last words.
    have hdf : deviceFeature
        = featureHalf deviceFeature 0 + 2 ^ 32 * featureHalf deviceFeature 1 := by
      decide
    rw [testBit_halves _ _ (lastWord_lt false ws)] at hb
    rw [hdf, testBit_halves _ _ (by decide)]
    split_ifs at hb ⊢
    · exact hoff.lastWord false b hb
    · exact hoff.lastWord true (b - 32) hb

/-- `negotiated_iff` on a driver that accepts `VIRTIO_F_VERSION_1` once and
    selects again. -/
theorem negotiated_iff_reselected :
    Negotiated sampleLayout
      (negotiate sampleMapper sampleLayout samplePci [⟨true, 1⟩, ⟨true, 1⟩])
      [⟨true, 1⟩, ⟨true, 1⟩] :=
  (negotiated_iff sampleMapper sampleLayout samplePci samplePci_initial _).mpr (by decide)

/-- A driver that writes the low word and then the high word, as drivers do,
    and accepts `VIRTIO_F_VERSION_1` and `VIRTIO_F_RING_PACKED` as offered:
    neither bit arrives. -/
theorem negotiation_misses :
    guestFeature sampleLayout
      (negotiate sampleMapper sampleLayout samplePci [⟨false, 0⟩, ⟨true, 5⟩]) = 0 ∧
    lastWord true [⟨false, 0⟩, ⟨true, 5⟩] = 5 ∧
    ¬ Negotiated sampleLayout
      (negotiate sampleMapper sampleLayout samplePci [⟨false, 0⟩, ⟨true, 5⟩])
      [⟨false, 0⟩, ⟨true, 5⟩] := by
  have hg : guestFeature sampleLayout
      (negotiate sampleMapper sampleLayout samplePci [⟨false, 0⟩, ⟨true, 5⟩]) = 0 := by
    decide +kernel
  refine ⟨hg, by decide, fun h => ?_⟩
  have hlast := h.1
  rw [hg] at hlast
  exact absurd hlast (by decide)

end Microv
