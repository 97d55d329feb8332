import Microv.Theory.VirtioPci

/-!
# Confinement of the Register Window

What an access through BAR 0 can reach.

The bus keeps an access inside the BAR, and the BAR is longer than the
structure behind it. A copy that starts in the registers may run past their
end, one through the window past `info` of the selected queue, and one to the
device configuration past its length. None of the three is checked, so each is
confined exactly when the access ends in time. The index of the selected queue
is checked where the window copies, against a register the guest can write, and
not at all where a queue is enabled or notified.

A notification stores what its requests say, and a request whose buffer is not
in RAM can say anything of the structure. What is said of runs is therefore
said of those whose doorbells stay inside (`DoorbellInside`).

## Main definitions

* `windowCopy`, `selectCopy`: The further copies an access makes.
* `RegConfined`, `RegFits`: Register accesses that stay, and when.
* `RegsOnly`: The condition on the events of a run.
* `PointersIntact`: The pointers of the structure are as set up.
* `vqIndices`, `IndexFits`: The queues an access uses, and the condition.

## Theorems

* `copies_spec`: The further copies are those the code makes.
* `regs_confined_iff`: A register access is confined exactly when it fits.
* `devCfg_confined_iff`: The same for the device configuration.
* `vqIndices_spec`: An access stores into and notifies no other queues.
* `vq_index_in_range`: Every queue used is one of the array.
-/

namespace Microv

/-! ### The registers -/

/-- The bytes of the queue-window copy, where a write makes one. -/
def windowCopy (L : PciLayout) (d : PciDev) : Access → Option (Nat × Nat)
  | .read _ _ => none
  | .write offset data =>
      let h := d.host.write (L.config + offset) data
      if InWindow offset ∧ queueSelect L h < numQueues L h then
        some (vqAt L h (queueSelect L h) + virtqInfo + (offset - regQSize), data.length)
      else none

/-- The bytes `virtio_pci_cmd_select_virtq` copies into the window. -/
def selectCopy (L : PciLayout) (d : PciDev) : Access → Option (Nat × Nat)
  | .read _ _ => none
  | .write offset data =>
      let h := d.host.write (L.config + offset) data
      if offset = regQSelect ∧ queueSelect L h < numQueues L h then
        some (vqAt L h (queueSelect L h) + virtqInfo, virtqInfoSize)
      else none

/-- Every byte an access copies is a register's, or in `info` of the selected
    queue, which is one of the device's. -/
structure RegConfined (L : PciLayout) (d : PciDev) (acc : Access) : Prop where
  regs : Inside (L.config + acc.offset) acc.size L.config regDevCfg
  window : ∀ r ∈ windowCopy L d acc, queueSelect L d.host < L.n ∧
    Inside r.1 r.2 (vqAt L d.host (queueSelect L d.host) + virtqInfo) virtqInfoSize
  select : ∀ r ∈ selectCopy L d acc, ∃ q, q < L.n ∧
    Inside r.1 r.2 (vqAt L d.host q + virtqInfo) virtqInfoSize

/-- The write ends inside the registers, one that is copied to the selected
    queue inside the window of a queue that exists, and one that shows a queue
    selects one that exists. -/
def WriteFits (L : PciLayout) (d : PciDev) (offset : Nat) (data : List UInt8) : Prop :=
  offset + data.length ≤ regDevCfg ∧
    (InWindow offset → queueSelect L d.host < numQueues L d.host →
      queueSelect L d.host < L.n ∧ offset + data.length ≤ regQSize + virtqInfoSize) ∧
    (offset = regQSelect →
      queueSelect L (d.host.write (L.config + offset) data) < numQueues L d.host →
      queueSelect L (d.host.write (L.config + offset) data) < L.n)

instance (L : PciLayout) (d : PciDev) (offset : Nat) (data : List UInt8) :
    Decidable (WriteFits L d offset data) :=
  inferInstanceAs (Decidable (_ ∧ _ ∧ _))

/-- The access ends inside the registers, and a write fits. -/
def RegFits (L : PciLayout) (d : PciDev) : Access → Prop
  | .read offset size => offset + size ≤ regDevCfg
  | .write offset data => WriteFits L d offset data

instance (L : PciLayout) (d : PciDev) (acc : Access) : Decidable (RegFits L d acc) :=
  match acc with
  | .read offset size => inferInstanceAs (Decidable (offset + size ≤ regDevCfg))
  | .write offset data => inferInstanceAs (Decidable (WriteFits L d offset data))

/-- The accesses of the register part, all of which fit, and a queue that is
    enabled exists. -/
def RegsOnly (L : PciLayout) (d : PciDev) : PciEvent → Prop
  | .access (.read offset size) => offset < regDevCfg ∧ offset + size ≤ regDevCfg
  | .access (.write offset data) => offset < regDevCfg ∧ WriteFits L d offset data ∧
      (offset = regQEnable → queueEnable L (d.host.write (L.config + offset) data) ≠ 0 →
        queueSelect L d.host < L.n)
  | .ioevent _ => True

instance (L : PciLayout) (d : PciDev) (e : PciEvent) : Decidable (RegsOnly L d e) :=
  match e with
  | .access (.read offset size) =>
      inferInstanceAs (Decidable (offset < regDevCfg ∧ offset + size ≤ regDevCfg))
  | .access (.write offset data) =>
      inferInstanceAs (Decidable (offset < regDevCfg ∧ WriteFits L d offset data ∧
        (offset = regQEnable → queueEnable L (d.host.write (L.config + offset) data) ≠ 0 →
          queueSelect L d.host < L.n)))
  | .ioevent _ => inferInstanceAs (Decidable True)

/-- The bytes of the monitor's pointers: `config.dev_cfg` and, in each queue,
    the three ring pointers, `dev` and `handle_output`. -/
def PointerByte (L : PciLayout) (x : Nat) : Prop :=
  (L.config + regDevCfg ≤ x ∧ x < L.config + regDevCfg + 8) ∨
    ∃ i o, i < L.n ∧ x = L.vq + virtqSize * i + o ∧
      (o < virtqInfo ∨ (virtqDev ≤ o ∧ o < virtqDev + 8) ∨
        (virtqHandleOutput ≤ o ∧ o < virtqHandleOutput + 8))

/-- No copy of the access reads or writes the byte at `x`. -/
def Untouched (L : PciLayout) (d : PciDev) (acc : Access) (x : Nat) : Prop :=
  Off x (L.config + acc.offset) acc.size ∧ (∀ r ∈ windowCopy L d acc, Off x r.1 r.2) ∧
    ∀ r ∈ selectCopy L d acc, Off x r.1 r.2

section

variable {mapper : Int → MemRegion} {L : PciLayout} {d d' : PciDev} {e : PciEvent}

/-- The two are copies `virtio_pci_iospace_write` makes: one of the data, the
    other of `info` into the window. -/
theorem copies_spec (offset : Nat) (data : List UInt8) (hoff : offset < regDevCfg) :
    let h := d.host.write (L.config + offset) data
    let r := virtioPciIospaceWrite mapper L d offset data
    (∀ c ∈ windowCopy L d (.write offset data), r.1.host = h.write c.1 data ∧
      c.2 = data.length) ∧
    ∀ c ∈ selectCopy L d (.write offset data),
      r.1.host = h.write (L.config + regQSize) (h.read c.1 c.2) := by
  intro h r
  have hr : r = virtioPciCommand mapper L { d with host := h } offset data := if_pos hoff
  constructor
  · intro c hc
    simp only [windowCopy] at hc
    split_ifs at hc with hw
    · cases hc
      rcases hw with ⟨⟨h1, h2, h3⟩, hlt⟩
      -- The selectors stand before the window and take other branches.
      have hne : offset ≠ regDfselect ∧ offset ≠ regGfselect ∧ offset ≠ regQSelect := by
        unfold regDfselect regGfselect regQSelect regQSize at *
        omega
      rw [hr, virtioPciCommand, if_neg hne.1, if_neg hne.2.1, if_neg hne.2.2, if_neg h3,
        if_pos ⟨h1, h2⟩]
      exact ⟨by rw [if_pos hlt], rfl⟩
    · cases hc
  · intro c hc
    simp only [selectCopy] at hc
    split_ifs at hc with hs
    · cases hc
      rcases hs with ⟨rfl, hlt⟩
      have hcmd : r.1.host = virtioPciCmdSelectVirtq L h := by rw [hr]; rfl
      rw [hcmd, virtioPciCmdSelectVirtq, if_pos hlt]
    · cases hc

/-- The window copy in terms of the state before the access. -/
theorem windowCopy_eq (offset : Nat) (data : List UInt8) (hoff : offset < regDevCfg)
    (hsize : data.length ≤ 8) :
    windowCopy L d (.write offset data)
      = if InWindow offset ∧ queueSelect L d.host < numQueues L d.host then
          some (vqAt L d.host (queueSelect L d.host) + virtqInfo + (offset - regQSize), data.length)
        else none := by
  rcases copy_keeps (L := L) (d := d) offset data hoff hsize with ⟨hptr, hsel⟩
  by_cases hw : InWindow offset
  · simp only [windowCopy, vqAt]
    rw [(hsel hw.1).1, (hsel hw.1).2, hptr]
  · simp only [windowCopy, hw, false_and, if_false]

/-- The copy of a selection, in terms of the state before the access. -/
theorem selectCopy_eq (offset : Nat) (data : List UInt8) (hoff : offset < regDevCfg)
    (hsize : data.length ≤ 8) :
    selectCopy L d (.write offset data)
      = let h := d.host.write (L.config + offset) data
        if offset = regQSelect ∧ queueSelect L h < numQueues L d.host then
          some (vqAt L d.host (queueSelect L h) + virtqInfo, virtqInfoSize)
        else none := by
  have hptr := (copy_keeps (L := L) (d := d) offset data hoff hsize).1
  by_cases ho : offset = regQSelect
  · -- The selector lies behind the number of queues.
    have hnum : numQueues L (d.host.write (L.config + offset) data) = numQueues L d.host :=
      ByteMem.le_write_apart _ _ _ _ _ (.of_ge (by rw [ho]; unfold regNumq regQSelect; omega))
    simp only [selectCopy, vqAt]
    rw [hnum, hptr]
  · simp only [selectCopy, ho, false_and, if_false]

/-- The range of `info` of queue `i` lies in that of queue `q` only if they are
    the same. -/
theorem inside_info_iff (i n : Nat) :
    (∃ q, q < n ∧ Inside (vqAt L d.host i + virtqInfo) virtqInfoSize
      (vqAt L d.host q + virtqInfo) virtqInfoSize) ↔ i < n := by
  constructor
  · rintro ⟨q, hq, h1, h2⟩
    simp only [vqAt, virtqSize, virtqInfo, virtqInfoSize] at h1 h2
    omega
  · intro hi
    exact ⟨i, hi, Nat.le_refl _, Nat.le_refl _⟩

theorem regConfined_iff_regFits (acc : Access) (hacc : acc.Forwarded)
    (hoff : acc.offset < regDevCfg) : RegConfined L d acc ↔ RegFits L d acc := by
  have hsize := hacc.size_le
  cases acc with
  | read offset size =>
      constructor
      · rintro ⟨⟨-, h⟩, -, -⟩
        simp only [Access.offset, Access.size, RegFits] at h ⊢
        omega
      · intro h
        refine ⟨⟨Nat.le_add_right _ _, ?_⟩, fun r hr => absurd hr (Option.not_mem_none r),
          fun r hr => absurd hr (Option.not_mem_none r)⟩
        simp only [Access.offset, Access.size, RegFits] at h ⊢
        omega
  | write offset data =>
      simp only [Access.offset, Access.size] at hoff hsize
      -- Each of the three parts says of one copy that it stays.
      have hregs : Inside (L.config + offset) data.length L.config regDevCfg ↔
          offset + data.length ≤ regDevCfg := by
        unfold Inside
        omega
      have hwin : (∀ r ∈ windowCopy L d (.write offset data), queueSelect L d.host < L.n ∧
          Inside r.1 r.2 (vqAt L d.host (queueSelect L d.host) + virtqInfo) virtqInfoSize) ↔
          (InWindow offset → queueSelect L d.host < numQueues L d.host →
            queueSelect L d.host < L.n ∧ offset + data.length ≤ regQSize + virtqInfoSize) := by
        rw [windowCopy_eq offset data hoff hsize]
        by_cases hw : InWindow offset ∧ queueSelect L d.host < numQueues L d.host
        · rw [if_pos hw]
          have hge := hw.1.1
          simp only [Option.mem_def, Option.some.injEq, forall_eq', hw.1, hw.2, true_implies,
            Inside, regQSize, virtqInfo, virtqInfoSize] at hge ⊢
          omega
        · rw [if_neg hw]
          exact ⟨fun _ h1 h2 => absurd ⟨h1, h2⟩ hw, fun _ r hr => absurd hr (Option.not_mem_none r)⟩
      have hsel : (∀ r ∈ selectCopy L d (.write offset data), ∃ q, q < L.n ∧
          Inside r.1 r.2 (vqAt L d.host q + virtqInfo) virtqInfoSize) ↔
          (offset = regQSelect →
            queueSelect L (d.host.write (L.config + offset) data) < numQueues L d.host →
            queueSelect L (d.host.write (L.config + offset) data) < L.n) := by
        rw [selectCopy_eq offset data hoff hsize]
        dsimp only
        by_cases hs : offset = regQSelect ∧
            queueSelect L (d.host.write (L.config + offset) data) < numQueues L d.host
        · rw [if_pos hs]
          simp only [Option.mem_def, Option.some.injEq, forall_eq']
          rw [inside_info_iff]
          exact ⟨fun h _ _ => h, fun h => h hs.1 hs.2⟩
        · rw [if_neg hs]
          exact ⟨fun _ h1 h2 => absurd ⟨h1, h2⟩ hs, fun _ r hr => absurd hr (Option.not_mem_none r)⟩
      constructor
      · intro h
        exact ⟨hregs.mp h.regs, hwin.mp h.window, hsel.mp h.select⟩
      · rintro ⟨h1, h2, h3⟩
        exact ⟨hregs.mpr h1, hwin.mpr h2, hsel.mpr h3⟩

theorem RegsOnly.blockFits (h : RegsOnly L d e) : BlockFits e := by
  match e, h with
  | .access (.read _ _), _ => trivial
  | .access (.write _ _), h => exact fun _ => h.2.1.1
  | .ioevent _, _ => trivial

theorem RegsOnly.devFits (h : RegsOnly L d e) : DevFits L e := by
  match e, h with
  | .access (.read _ _), _ => trivial
  | .access (.write _ _), h => exact fun hge => absurd h.1 (Nat.not_lt.mpr hge)
  | .ioevent _, _ => trivial

/-- A register access that fits is contained, if what it notifies is. -/
theorem RegsOnly.contained (hc : RegsOnly L d e) (h : Anchored L d)
    (hbell : DoorbellInside mapper L d e) : Contained mapper L d e := by
  match e, hc, hbell with
  | .access (.read _ _), _, hbell => exact ⟨trivial, trivial, hbell⟩
  | .ioevent _, _, hbell => exact ⟨trivial, trivial, hbell⟩
  | .access (.write offset data), hc, hbell =>
      have hend : offset + data.length ≤ devVq := Nat.le_trans hc.2.1.1 (by decide)
      refine ⟨?_, fun hge => absurd hc.1 (Nat.not_lt.mpr hge), hbell⟩
      rw [h.queueInside_iff offset data hend]
      rintro (⟨ho, hon⟩ | ⟨hw, hlt⟩)
      · exact hc.2.2 ho hon
      · rcases copy_select (L := L) (d := d) offset data hw.1 with ⟨hsel, hnum⟩
        rw [hsel, hnum] at hlt
        exact (hc.2.1.2.1 hw hlt).1

/-- The pointers `virtq_init` and the set-up wrote are still there. -/
structure PointersIntact (L : PciLayout) (d : PciDev) : Prop where
  devCfg : devCfgPtr L d.host = L.devCfg
  dev : ∀ i, i < L.n → (loadVirtq d.host (L.vq + virtqSize * i)).dev = L.dev
  handleOutput : ∀ i, i < L.n →
    (loadVirtq d.host (L.vq + virtqSize * i)).handleOutput = L.handler

/-- Byte `o` of a queue outside `info`, the position and, while the queue is
    being enabled, the ring pointers. -/
theorem regsOnly_spares (h : Anchored L d) (hs : PciStep mapper L e d d') (hc : RegsOnly L d e)
    (i o : Nat) (ho : o < virtqSize) (hpos : Off o virtqNextAvailIdx 3)
    (hinfo : Off o virtqInfo virtqInfoSize)
    (hen : ∀ data, e = .access (.write regQEnable data) → queueSelect L d.host = i →
      virtqInfo ≤ o) :
    Spares L d (L.vq + virtqSize * i + o) e := by
  refine h.spares_queue hs hc.devFits i o ho (fun _ => hpos) (fun data he hi => ?_)
    (fun offset data he hw _ hlt => ?_)
  · have hge := hen data he hi
    simp only [Off, virtqInfo, virtqInfoSize, virtqEnabled] at hinfo hge ⊢
    omega
  · subst he
    have hfit := (hc.2.1.2.1 hw hlt).2
    have hge := hw.1
    simp only [Off, regQSize, virtqInfo, virtqInfoSize] at hfit hge hinfo ⊢
    omega

theorem pointersIntact_step (h : Anchored L d) (hp : PointersIntact L d) (hc : RegsOnly L d e)
    (hs : PciStep mapper L e d d') : PointersIntact L d' := by
  have hkeep : ∀ i o, o = virtqDev ∨ o = virtqHandleOutput → d'.host.le (L.vq + virtqSize * i + o) 8
      = d.host.le (L.vq + virtqSize * i + o) 8 := by
    intro i o ho
    refine step_field hs h.vq _ _ ?_
    intro x h1 h2
    rcases Nat.exists_eq_add_of_le (show L.vq + virtqSize * i ≤ x by omega) with ⟨k, rfl⟩
    unfold virtqDev virtqHandleOutput at ho
    refine regsOnly_spares h hs hc i k ?_ ?_ ?_ (fun _ _ _ => ?_)
    · unfold virtqSize at *; omega
    · unfold Off virtqNextAvailIdx; omega
    · unfold Off virtqInfo virtqInfoSize; omega
    · unfold virtqInfo; omega
  refine ⟨(anchored_step h hc.blockFits hs).devCfg, fun i hi => ?_, fun i hi => ?_⟩
  · exact (hkeep i virtqDev (.inl rfl)).trans (hp.dev i hi)
  · exact (hkeep i virtqHandleOutput (.inr rfl)).trans (hp.handleOutput i hi)

/-- The three ring pointers of queue `i`. -/
def ringPointers (L : PciLayout) (h : ByteMem) (i : Nat) : Nat × Nat × Nat :=
  let vq := loadVirtq h (L.vq + virtqSize * i)
  (vq.descRing, vq.guestEvent, vq.deviceEvent)

/-- The ring pointers change only by `virtq_enable` on the queue. -/
theorem ringPointers_step (h : Anchored L d) (hc : RegsOnly L d e)
    (hs : PciStep mapper L e d d') (i : Nat) :
    ringPointers L d'.host i = ringPointers L d.host i ∨
      ∃ data, e = .access (.write regQEnable data) ∧ queueSelect L d.host = i ∧
        loadVirtq d'.host (L.vq + virtqSize * i)
          = virtqEnable mapper (loadVirtq d.host (L.vq + virtqSize * i)) := by
  -- Enabling the queue is the one way to its pointers.
  by_cases hen : ∃ data, e = .access (.write regQEnable data) ∧ queueSelect L d.host = i
  · rcases hen with ⟨data, rfl, rfl⟩
    have hq := step_enable_queue data h.vq hs
    split_ifs at hq with hne
    · exact Or.inr ⟨data, rfl, rfl, hq⟩
    · left
      simp only [ringPointers]
      rw [hq]
  · left
    have hkeep : ∀ o, o + 8 ≤ virtqInfo → d'.host.le (L.vq + virtqSize * i + o) 8
        = d.host.le (L.vq + virtqSize * i + o) 8 := by
      intro o ho
      refine step_field hs h.vq _ _ ?_
      intro x h1 h2
      rcases Nat.exists_eq_add_of_le (show L.vq + virtqSize * i ≤ x by omega) with ⟨k, rfl⟩
      unfold virtqInfo at ho
      refine regsOnly_spares h hs hc i k ?_ ?_ ?_ (fun data he hi => absurd ⟨data, he, hi⟩ hen)
      · unfold virtqSize at *; omega
      · unfold Off virtqNextAvailIdx; omega
      · unfold Off virtqInfo; omega
    have h0 := hkeep 0 (by decide)
    rw [Nat.add_zero] at h0
    simp only [ringPointers, loadVirtq]
    rw [h0, hkeep virtqDeviceEvent (by decide), hkeep virtqGuestEvent (by decide)]

/-- An access that fits touches no pointer. -/
theorem untouched_of_regFits (hvq : vqPtr L d.host = L.vq) (acc : Access) (hacc : acc.Forwarded)
    (hoff : acc.offset < regDevCfg) (hfit : RegFits L d acc) (x : Nat) (hx : PointerByte L x) :
    Untouched L d acc x := by
  have hge := L.vq_ge
  have hcfg := L.devCfg_eq
  have hsize := hacc.size_le
  rcases (regConfined_iff_regFits acc hacc hoff).mpr hfit with ⟨hin, hwin, -⟩
  -- A pointer byte is off the registers and off `info` of every queue.
  have hreg : Off x L.config regDevCfg := by
    rcases hx with hx | ⟨i, o, hi, rfl, ho⟩
    · exact Or.inr hx.1
    · unfold Off regDevCfg
      omega
  have hinfo : ∀ j, Off x (L.vq + virtqSize * j + virtqInfo) virtqInfoSize := by
    intro j
    rcases hx with hx | ⟨i, o, hi, rfl, ho⟩
    · simp only [Off, regDevCfg] at hx ⊢
      omega
    · simp only [Off, virtqSize, virtqInfo, virtqInfoSize, virtqDev, virtqHandleOutput] at ho ⊢
      omega
  refine ⟨?_, fun r hr => ?_, fun r hr => ?_⟩
  · unfold Off Inside at *
    omega
  · have hj := hinfo (queueSelect L d.host)
    have hrin := (hwin r hr).2
    rw [vqAt, hvq] at hrin
    unfold Off Inside at *
    omega
  · cases acc with
    | read => cases hr
    | write offset data =>
        simp only [selectCopy] at hr
        split_ifs at hr with hs
        · cases hr
          rw [vqAt, (copy_keeps offset data hoff hsize).1, hvq]
          exact hinfo _
        · cases hr

theorem PciDev.Initial.pointersIntact {d : PciDev} (h : d.Initial L) : PointersIntact L d := by
  refine ⟨h.anchored.devCfg, fun i hi => ?_, fun i hi => ?_⟩
  · rw [h.queue i hi]
    rfl
  · rw [h.queue i hi]
    rfl

end

/-- An access to the registers copies nothing but registers and `info` of a
    queue that exists exactly when it fits. As long as all do and doorbells stay
    inside, the monitor's pointers are what the set-up made them, no access
    reads or writes them, and a ring pointer changes only by `virtq_enable` on
    its queue. -/
theorem regs_confined_iff (mapper : Int → MemRegion) (L : PciLayout) (d₀ d : PciDev)
    (h₀ : d₀.Initial L)
    (hrun : Run (PciOutcome mapper L)
      (fun d e => RegsOnly L d e ∧ DoorbellInside mapper L d e) d₀ d) :
    (∀ s acc, acc.Forwarded → acc.offset < regDevCfg → (RegConfined L s acc ↔ RegFits L s acc)) ∧
    PointersIntact L d ∧
    (∀ acc x, acc.Forwarded → acc.offset < regDevCfg → RegFits L d acc → PointerByte L x →
      Untouched L d acc x) ∧
    ∀ e d', RegsOnly L d e → DoorbellInside mapper L d e → PciOutcome mapper L e d d' → ∀ i,
      ringPointers L d'.host i = ringPointers L d.host i ∨
        ∃ data, e = .access (.write regQEnable data) ∧ queueSelect L d.host = i ∧
          loadVirtq d'.host (L.vq + virtqSize * i)
            = virtqEnable mapper (loadVirtq d.host (L.vq + virtqSize * i)) := by
  have hinv : Anchored L d ∧ PointersIntact L d := by
    refine hrun.invariant (P := fun s => Anchored L s ∧ PointersIntact L s)
      ⟨h₀.anchored, h₀.pointersIntact⟩ (fun t e u ht hc ho => ?_)
    -- Within the condition the program does what the step relation says.
    have hs := ho (hc.1.contained ht.1 hc.2)
    exact ⟨anchored_step ht.1 hc.1.blockFits hs, pointersIntact_step ht.1 ht.2 hc.1 hs⟩
  refine ⟨fun s acc hacc hoff => regConfined_iff_regFits acc hacc hoff, hinv.2,
    fun acc x hacc hoff hfit hx => untouched_of_regFits hinv.1.vq acc hacc hoff hfit x hx,
    fun e d' hc hbell ho i => ?_⟩
  exact ringPointers_step hinv.1 hc (ho (hc.contained hinv.1 hbell)) i

/-- `regs_confined_iff` after the guest has selected the queue and set its
    size. -/
theorem regs_confined_iff_sized :
    let d := pciWrites sampleMapper sampleLayout samplePci [(22, [0, 0]), (24, [64, 0])]
    (queueAt sampleLayout d.host 0).info.size = 64 ∧ PointersIntact sampleLayout d :=
  ⟨by decide +kernel,
    (regs_confined_iff sampleMapper sampleLayout samplePci _ samplePci_initial
      ((outcome_writes sampleMapper sampleLayout _ _ (by decide +kernel)).mono
        fun _ _ hc => ⟨hc.1, hc.2.doorbell⟩)).2.1⟩

/-- Eight bytes at the notify register replace the pointer behind it, eight
    bytes at `queue_used_hi` replace `dev` of the queue, and eight bytes read
    at the notify register end in the pointer. -/
theorem regs_escape :
    (∃ d, PciStep sampleMapper sampleLayout
        (.access (.write 60 [0, 0, 0, 0, 0xEF, 0xBE, 0xAD, 0xDE])) samplePci d ∧
      ¬ RegConfined sampleLayout samplePci (.write 60 [0, 0, 0, 0, 0xEF, 0xBE, 0xAD, 0xDE]) ∧
      devCfgPtr sampleLayout d.host = 0xDEADBEEF) ∧
    (∃ d, PciStep sampleMapper sampleLayout
        (.access (.write 52 [0, 0, 0, 0, 0xEF, 0xBE, 0xAD, 0xDE])) samplePci d ∧
      ¬ RegConfined sampleLayout samplePci (.write 52 [0, 0, 0, 0, 0xEF, 0xBE, 0xAD, 0xDE]) ∧
      (loadVirtq d.host sampleLayout.vq).dev = 0xDEADBEEF) ∧
    (virtioPciIospaceRead sampleLayout samplePci 60 8).1 = [0, 0, 0, 0, 0x70, 0x10, 0, 0] := by
  refine ⟨⟨_, .access _ _ _ (by decide) (.notify _ _ _ _ _ rfl (.disabled _ ?_)), fun h => ?_, ?_⟩,
    ⟨_, .access _ _ _ (by decide) (.write _ _ _ (by decide +kernel)), fun h => ?_, ?_⟩, ?_⟩
  · decide +kernel
  · exact absurd ((regConfined_iff_regFits _ (by decide) (by decide)).mp h) (by decide +kernel)
  · decide +kernel
  · exact absurd ((regConfined_iff_regFits _ (by decide) (by decide)).mp h) (by decide +kernel)
  · decide +kernel
  · decide +kernel

/-! ### The device configuration -/

/-- An access to the device configuration that ends before its length is
    contained. -/
theorem contained_of_devFits {mapper : Int → MemRegion} {L : PciLayout} {d : PciDev}
    (hptr : devCfgPtr L d.host = L.devCfg) (acc : Access) (hoff : regDevCfg ≤ acc.offset)
    (hfit : acc.offset - regDevCfg + acc.size ≤ L.len) : Contained mapper L d (.access acc) := by
  have hge := L.vq_ge
  have hcfg := L.devCfg_eq
  cases acc with
  | read => exact ⟨trivial, trivial, trivial⟩
  | write offset data =>
      simp only [Access.offset, Access.size] at hoff hfit
      refine ⟨fun hw => ?_, fun _ => ?_, fun ho => ?_⟩
      · -- Only register writes act on a queue.
        exact absurd hw.range.2 (Nat.not_lt.mpr hoff)
      · rw [hptr]
        unfold InDevice PciLayout.tail
        omega
      · rw [ho] at hoff
        exact absurd hoff (by decide)

/-- As long as register writes end inside the registers and events are
    contained, an access through `dev_cfg` stays inside the device configuration
    exactly when it ends before its length; then nothing else changes. -/
theorem devCfg_confined_iff (mapper : Int → MemRegion) (L : PciLayout) (d₀ d : PciDev)
    (h₀ : d₀.Initial L)
    (hrun : Run (PciOutcome mapper L) (fun d e => BlockFits e ∧ Contained mapper L d e) d₀ d)
    (acc : Access) (hacc : acc.Forwarded) (hoff : regDevCfg ≤ acc.offset) :
    (Inside (devCfgPtr L d.host + (acc.offset - regDevCfg)) acc.size L.devCfg L.len ↔
      acc.offset - regDevCfg + acc.size ≤ L.len) ∧
    (acc.offset - regDevCfg + acc.size ≤ L.len → ∀ d', PciOutcome mapper L (.access acc) d d' →
      ∀ x, Off x L.devCfg L.len → d'.host x = d.host x) := by
  -- The pointer is still the one that was set up.
  have hptr := (anchored_run h₀ (fun _ _ hc => hc.1) (hrun.within fun _ _ hc => hc.2)).devCfg
  have hnot : ¬ acc.offset < regDevCfg := Nat.not_lt.mpr hoff
  refine ⟨by rw [hptr]; unfold Inside; omega, fun hfit d' ho x hx => ?_⟩
  have hs := ho (contained_of_devFits hptr acc hoff hfit)
  unfold Off at hx
  cases hs with
  | access _ _ _ _ hio =>
      cases hio with
      | read _ offset size =>
          simp only [Access.offset] at hnot
          rw [virtioPciIospaceRead, if_neg hnot]
      | write _ offset data hnone =>
          simp only [Access.offset, Access.size] at hnot hfit
          exact devWrite_off offset data hnot x (by rw [hptr]; unfold Off; omega)
      | notify _ _ offset data a hsome hn =>
          simp only [Access.offset] at hnot
          rw [(regWrite_notified offset data a hsome).1] at hnot
          exact absurd (by decide) hnot

/-- `devCfg_confined_iff` for the capacity, after the guest has selected the
    queue. -/
theorem devCfg_confined_iff_capacity :
    Inside (devCfgPtr sampleLayout (pciWrites sampleMapper sampleLayout samplePci
        [(22, [0, 0])]).host + (64 - 64)) 8 sampleLayout.devCfg sampleLayout.len :=
  ((devCfg_confined_iff sampleMapper sampleLayout samplePci _ samplePci_initial
    (outcome_writes sampleMapper sampleLayout _ _ (by decide +kernel))
    (.read 64 8) (by decide) (by decide)).1).mpr (by decide)

/-- A forwarded write past the configuration lands in the queue behind it, and
    a read there returns the queue. -/
theorem devCfg_escapes :
    (∃ d, PciStep sampleMapper sampleLayout (.access (.write 128 [1, 2, 3, 4, 5, 6, 7, 8]))
        samplePci d ∧
      ¬ Inside (devCfgPtr sampleLayout samplePci.host + (128 - regDevCfg)) 8 sampleLayout.devCfg
        sampleLayout.len ∧
      (loadVirtq d.host sampleLayout.vq).descRing = 0x0807060504030201) ∧
    (Access.read 152 2).Forwarded ∧
    (virtioPciIospaceRead sampleLayout samplePci 152 2).1 = [128, 0] := by
  refine ⟨⟨_, .access _ _ _ (by decide) (.write _ _ _ rfl), ?_, ?_⟩, by decide, ?_⟩
  · decide +kernel
  · decide +kernel
  · decide +kernel

/-! ### The queue indices -/

/-- The indices an access uses on the queue array. -/
def vqIndices (L : PciLayout) (d : PciDev) : Access → List Nat
  | .read _ _ => []
  | .write offset data =>
      let h := d.host.write (L.config + offset) data
      if offset = regQSelect ∨ InWindow offset then
        if queueSelect L h < numQueues L h then [queueSelect L h] else []
      else if offset = regQEnable then
        if queueEnable L h ≠ 0 then [queueSelect L h] else []
      else if offset = regNotifyCfg then [notifyVqn L h]
      else []

/-- The write ends inside the registers; one that reaches `num_queues` leaves at
    most the real number there; a queue that is enabled or notified exists. -/
def IndexFits (L : PciLayout) (d : PciDev) : PciEvent → Prop
  | .access (.write offset data) =>
      let h := d.host.write (L.config + offset) data
      offset < regDevCfg →
        offset + data.length ≤ regDevCfg ∧
        (Apart offset data.length regNumq 2 ∨ numQueues L h ≤ L.n) ∧
        (offset = regQEnable → queueEnable L h ≠ 0 → queueSelect L d.host < L.n) ∧
        (offset = regNotifyCfg → notifyVqn L h < L.n)
  | _ => True

instance (L : PciLayout) (d : PciDev) (e : PciEvent) : Decidable (IndexFits L d e) :=
  match e with
  | .access (.write offset data) =>
      inferInstanceAs (Decidable (offset < regDevCfg →
        offset + data.length ≤ regDevCfg ∧
        (Apart offset data.length regNumq 2 ∨
          numQueues L (d.host.write (L.config + offset) data) ≤ L.n) ∧
        (offset = regQEnable → queueEnable L (d.host.write (L.config + offset) data) ≠ 0 →
          queueSelect L d.host < L.n) ∧
        (offset = regNotifyCfg → notifyVqn L (d.host.write (L.config + offset) data) < L.n)))
  | .access (.read _ _) => inferInstanceAs (Decidable True)
  | .ioevent _ => inferInstanceAs (Decidable True)

section

variable {mapper : Int → MemRegion} {L : PciLayout} {d d' : PciDev} {e : PciEvent}

/-- The indices are those the write uses: the queue it notifies is one of them,
    what it shows of a queue is `info` of one of them, and off the registers and
    the guest's features it stores into no other. -/
theorem vqIndices_spec (offset : Nat) (data : List UInt8) (hoff : offset < regDevCfg)
    (hsize : data.length ≤ 8) :
    let h := d.host.write (L.config + offset) data
    let r := virtioPciIospaceWrite mapper L d offset data
    (∀ a, r.2 = some a → ∃ j ∈ vqIndices L d (.write offset data), a = vqAt L h j) ∧
    (offset = regQSelect → r.1.host = h.writeLE (L.config + regQSize) 2 0 ∨
      ∃ j ∈ vqIndices L d (.write offset data), r.1.host
        = h.write (L.config + regQSize) (h.read (vqAt L h j + virtqInfo) virtqInfoSize)) ∧
    ∀ x, Off x L.config (devGuestFeature + 8) →
      (∀ j ∈ vqIndices L d (.write offset data), Off x (vqAt L h j) virtqSize) →
      r.1.host x = d.host x := by
  intro h r
  have hr : r = virtioPciCommand mapper L { d with host := h } offset data := if_pos hoff
  refine ⟨fun a ha => ?_, fun ho => ?_, fun x hx hq => ?_⟩
  · rcases regWrite_notified offset data a ha with ⟨ho, ha, -⟩
    subst ho
    exact ⟨notifyVqn L h, by simp [vqIndices, InWindow, regQSelect, regQUsedhi, regNotifyCfg,
      regQEnable, h], ha⟩
  · subst ho
    have hcmd : r.1.host = virtioPciCmdSelectVirtq L h := by rw [hr]; rfl
    rw [hcmd, virtioPciCmdSelectVirtq]
    by_cases hlt : queueSelect L h < numQueues L h
    · rw [if_pos hlt]
      exact Or.inr ⟨queueSelect L h, by simp [vqIndices, h, hlt], rfl⟩
    · rw [if_neg hlt]
      exact Or.inl rfl
  · -- Every register and feature word lies in the excluded block.
    have hblock : ∀ o k, o + k ≤ devGuestFeature + 8 → Off x (L.config + o) k := by
      intro o k hk
      unfold Off at hx ⊢
      omega
    have hcopy : h x = d.host x := by
      refine ByteMem.write_outside _ _ _ _ (hblock _ _ ?_)
      unfold regDevCfg devGuestFeature at *
      omega
    rw [hr, ← hcopy]
    by_cases hoffEnable : offset = regQEnable ∧ queueEnable L h = 0
    · -- Zero written to `queue_enable` is only copied.
      rcases hoffEnable with ⟨rfl, hzero⟩
      simp [virtioPciCommand, regDfselect, regGfselect, regQSelect, regQEnable, hzero]
    refine virtioPciCommand_off mapper L _ offset data x (fun _ => hblock _ _ (by decide))
      (fun _ => hblock _ _ (by decide)) (fun _ => hblock _ _ (by decide)) (fun ho => ?_)
      (fun h1 h2 h3 hlt => ?_)
    · have hmem : queueSelect L h ∈ vqIndices L d (.write offset data) := by
        have hwin : ¬ (offset = regQSelect ∨ InWindow offset) := by
          rw [ho]
          decide
        simp only [vqIndices]
        rw [if_neg hwin, if_pos ho, if_pos fun hzero => hoffEnable ⟨ho, hzero⟩]
        exact List.mem_singleton.mpr rfl
      have hfree := hq _ hmem
      simp only [Off, virtqSize, virtqEnabled] at hfree ⊢
      omega
    · have hmem : queueSelect L h ∈ vqIndices L d (.write offset data) := by
        simp only [vqIndices]
        rw [if_pos (Or.inr ⟨h1, h2, h3⟩), if_pos hlt]
        exact List.mem_singleton.mpr rfl
      have hfree := hq _ hmem
      simp only [Off, virtqSize, regQUsedhi] at hfree h2 ⊢
      omega

theorem IndexFits.blockFits (h : IndexFits L d e) : BlockFits e := by
  cases e with
  | access acc =>
      cases acc with
      | read => trivial
      | write offset data => exact fun hlt => (h hlt).1
  | ioevent => trivial

/-- The copy of a write that fits leaves at most the real number of queues. -/
theorem IndexFits.numQueues_le {offset : Nat} {data : List UInt8}
    (hc : IndexFits L d (.access (.write offset data))) (hn : numQueues L d.host ≤ L.n)
    (hoff : offset < regDevCfg) :
    numQueues L (d.host.write (L.config + offset) data) ≤ L.n := by
  rcases (hc hoff).2.1 with hap | hle
  · have hkeep : numQueues L (d.host.write (L.config + offset) data) = numQueues L d.host := by
      refine ByteMem.le_write_apart _ _ _ _ _ ?_
      unfold Apart at hap ⊢
      omega
    omega
  · exact hle

theorem numQueues_step (h : Anchored L d) (hn : numQueues L d.host ≤ L.n) (hc : IndexFits L d e)
    (hs : PciStep mapper L e d d') : numQueues L d'.host ≤ L.n := by
  have hdev := L.devCfg_eq
  by_cases hq : Quiet e
  · refine Nat.le_trans (Nat.le_of_eq (ByteMem.le_congr _ _ _ _ fun i hi => ?_)) hn
    refine h.quiet_byte hs hq _ ?_ ?_
    · unfold regNumq
      omega
    · exact Or.inl (by unfold regNumq regIsrCfg; omega)
  · match e, hq with
    | .access (.write offset data), hq =>
      have hoff : offset < regDevCfg := Nat.not_le.mp hq
      -- The value after the write is what the copy leaves there.
      refine Nat.le_trans (Nat.le_of_eq (ByteMem.le_congr _ _ _ _ fun i hi => ?_))
        (hc.numQueues_le hn hoff)
      refine h.regWrite_byte offset data hs hoff _ ?_ ?_ ?_ ?_ ?_
      · unfold regNumq
        omega
      · exact fun _ => Or.inl (by unfold regNumq devGuestFeature; omega)
      · exact fun _ => Or.inr (by unfold regNumq regDf; omega)
      · exact fun _ => Or.inl (by unfold regNumq regQSize; omega)
      · exact fun _ => Or.inl (by unfold regNumq regIsrCfg; omega)
    | .access (.read _ _), hq => exact absurd trivial hq
    | .ioevent _, hq => exact absurd trivial hq

theorem vqIndices_lt (hn : numQueues L d.host ≤ L.n) (acc : Access)
    (hc : IndexFits L d (.access acc)) : ∀ j ∈ vqIndices L d acc, j < L.n := by
  intro j hj
  cases acc with
  | read => exact absurd hj List.not_mem_nil
  | write offset data =>
      by_cases hoff : offset < regDevCfg
      · have hnum := hc.numQueues_le hn hoff
        rcases hc hoff with ⟨-, -, hen, hnot⟩
        simp only [vqIndices] at hj
        -- Selecting and the window test the index; the other two do not.
        split_ifs at hj with h1 h2 h3 h4 h5
        · rw [List.mem_singleton.mp hj]
          omega
        · exact absurd hj List.not_mem_nil
        · rw [List.mem_singleton.mp hj, (copy_select offset data (by rw [h3]; decide)).1]
          exact hen h3 h4
        · exact absurd hj List.not_mem_nil
        · rw [List.mem_singleton.mp hj]
          exact hnot h5
        · exact absurd hj List.not_mem_nil
      · -- A device-configuration write uses no index.
        have h1 : ¬ (offset = regQSelect ∨ InWindow offset) := by
          unfold InWindow regQSelect regQUsedhi regDevCfg at *
          omega
        have h2 : offset ≠ regQEnable := by unfold regQEnable regDevCfg at *; omega
        have h3 : offset ≠ regNotifyCfg := by unfold regNotifyCfg regDevCfg at *; omega
        rw [vqIndices, if_neg h1, if_neg h2, if_neg h3] at hj
        exact absurd hj List.not_mem_nil

/-- Where indices fit, the queue a write acts on is one of the device's. -/
theorem IndexFits.queueInside (hc : IndexFits L d e) (h : Anchored L d)
    (hn : numQueues L d.host ≤ L.n) : QueueInside L d e := by
  match e, hc with
  | .access (.read _ _), _ => trivial
  | .ioevent _, _ => trivial
  | .access (.write offset data), hc =>
      intro hw
      have hq := hw.range
      have hend : offset + data.length ≤ devVq := Nat.le_trans (hc hq.2).1 (by decide)
      refine (h.queueInside_iff offset data hend).mpr (fun hw => ?_) hw
      rcases copy_select (L := L) (d := d) offset data hq.1 with ⟨hsel, hnum⟩
      rcases hw with ⟨ho, hon⟩ | ⟨-, hlt⟩
      · exact (hc hq.2).2.2.1 ho hon
      · rw [hsel, hnum] at hlt
        omega

end

/-- In every run whose writes fit, and whose writes to the device configuration
    and doorbells stay inside, every access that fits uses indices of queues
    that exist. -/
theorem vq_index_in_range (mapper : Int → MemRegion) (L : PciLayout) (d₀ d : PciDev)
    (h₀ : d₀.Initial L)
    (hrun : Run (PciOutcome mapper L)
      (fun d e => IndexFits L d e ∧ DevInside L d e ∧ DoorbellInside mapper L d e) d₀ d) :
    numQueues L d.host ≤ L.n ∧
      ∀ acc, acc.Forwarded → IndexFits L d (.access acc) → ∀ j ∈ vqIndices L d acc, j < L.n := by
  have hinv : Anchored L d ∧ numQueues L d.host ≤ L.n := by
    refine hrun.invariant (P := fun s => Anchored L s ∧ numQueues L s.host ≤ L.n)
      ⟨h₀.anchored, Nat.le_of_eq h₀.numQueues⟩ (fun t e u ht hc ho => ?_)
    have hs := ho ⟨hc.1.queueInside ht.1 ht.2, hc.2.1, hc.2.2⟩
    exact ⟨anchored_step ht.1 hc.1.blockFits hs, numQueues_step ht.1 ht.2 hc.1 hs⟩
  exact ⟨hinv.2, fun acc _ hc => vqIndices_lt hinv.2 acc hc⟩

/-- `vq_index_in_range` once the queue is selected, for the write that enables
    it. -/
theorem vq_index_in_range_enabling :
    let d := pciWrites sampleMapper sampleLayout samplePci [(22, [0, 0])]
    vqIndices sampleLayout d (.write 28 [1, 0]) = [0] ∧
      ∀ j ∈ vqIndices sampleLayout d (.write 28 [1, 0]), j < sampleLayout.n :=
  ⟨by decide +kernel,
    (vq_index_in_range sampleMapper sampleLayout samplePci _ samplePci_initial
      ((outcome_writes sampleMapper sampleLayout _ _ (by decide +kernel)).mono
        fun _ _ hc => ⟨hc.1, hc.2.dev, hc.2.doorbell⟩)).2
      (.write 28 [1, 0]) (by decide) (by decide +kernel)⟩

/-- The first write of a fresh device may notify queue 5 of one, and a write to
    `num_queues` makes the bound of the other uses as large as it likes. -/
theorem vq_index_out_of_range :
    (Access.write 60 [5, 0]).Forwarded ∧
    vqIndices sampleLayout samplePci (.write 60 [5, 0]) = [5] ∧
    (∃ d, PciStep sampleMapper sampleLayout (.access (.write 18 [0xFF, 0xFF])) samplePci d ∧
      (Access.write 22 [7, 0]).Forwarded ∧ vqIndices sampleLayout d (.write 22 [7, 0]) = [7]) ∧
    sampleLayout.n = 1 := by
  refine ⟨by decide, by decide +kernel,
    ⟨_, .access _ _ _ (by decide) (.write _ _ _ rfl), by decide, ?_⟩, rfl⟩
  decide +kernel

end Microv
