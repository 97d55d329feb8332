import Microv.Theory.Pci

/-!
# BAR Decoding

When the region of a memory BAR is on the memory bus, and what an access to
its addresses reaches.

The register a guest reads back and the base the region lies at are set
together, and both are kept free of the bits below the BAR's size. Whether
the region is on the bus is decided once, when the command register is
written, from the base the region has then. A base that becomes or ceases to
be zero while the space is enabled is therefore not noticed, and neither is a
write to the upper bytes of the last BAR, which `pci_config_write` does not
take for a write to a BAR at all. `KeepsDecode` rules out both.

Under it the region is on the bus exactly when the space is enabled and the
base is not zero, and an access in its range reaches it unless another region
on the bus covers the address as well.

## Main definitions

* `BarView`, `Machine.barView`: What the machine holds about one BAR.
* `Decodes`: The BAR is on the bus when its registers say so.
* `KeepsDecode`: The condition on a write.

## Theorems

* `Written.decodes`: One write keeps the decoding.
* `bar_decoding`: The decoding in every run.
-/

namespace Microv

/-- What the machine holds about one BAR, the bus lists apart. -/
structure BarView where
  size : Nat
  isIoSpace : Bool
  active : Bool
  enable : Bool
  register : Nat
  base : Nat
  len : Nat

/-- BAR `i` of device `d`. -/
def Machine.barView (m : Machine) (d i : Nat) : BarView :=
  { size := (m.dev d).barSize i,
    isIoSpace := (m.dev d).barIsIoSpace i,
    active := (m.dev d).barActive i,
    enable := (m.dev d).enable i,
    register := (m.dev d).hdr.le (pciBarOffset i) 4,
    base := (m.iobus.region (.bar d i)).base,
    len := (m.iobus.region (.bar d i)).len }

/-- A memory BAR whose region is where its register says. -/
structure BarView.Sound (v : BarView) : Prop where
  memory : v.isIoSpace = false
  active : v.active = v.enable
  base : v.base = v.register
  masked : v.register &&& barMask v.size = v.register
  len : v.len = v.size
  size_lt : v.size < 2 ^ 32
  register_lt : v.register < 2 ^ 32

/-- The BAR's region is on the memory bus exactly when the space is enabled and
    the base is not zero. -/
structure Decodes (m : Machine) (lists : BusName → List RegionName) (d i : Nat) : Prop where
  listing : BarListing m lists
  sound : (m.barView d i).Sound
  mapped : .bar d i ∈ lists .mmio ↔
    (m.barView d i).enable = true ∧ (m.barView d i).register ≠ 0

variable {m m' : Machine} {lists lists' : BusName → List RegionName} {d i : Nat}

/-- What is left of a written register once its low bits are cleared. -/
def ConfigWrite.programmed (w : ConfigWrite) (m : Machine) (i : Nat) : Nat :=
  ((w.store m).barView w.d i).register &&& barMask (m.barView w.d i).size

/-- A write to the BAR does not change whether its base is zero while the space
    is enabled, and one that is not taken for a write to it changes nothing. -/
def KeepsDecode (d i : Nat) (m : Machine) (w : ConfigWrite) : Prop :=
  RelinksNothing m w ∧
    (w.d = d → pciBarOffset i ≤ w.offset → w.offset < pciBarOffset i + 4 →
      if w.offset ≤ 0x24 then
        (m.barView d i).enable = true →
          (w.programmed m i = 0 ↔ (m.barView d i).register = 0)
      else ((w.store m).barView d i).register = (m.barView d i).register)

section View

/-- The command bits are in the first byte of the register. -/
theorem enable_congr {f g : PciDevice} (hio : g.barIsIoSpace i = f.barIsIoSpace i)
    (hhdr : g.hdr pciCommand = f.hdr pciCommand) : g.enable i = f.enable i := by
  -- Bits 0 and 1 are all that is looked at.
  have hbyte : ∀ (hdr : ByteMem) (k : Nat), k < 8 →
      (hdr.le pciCommand 2).testBit k = (hdr pciCommand).toNat.testBit k := by
    intro hdr k hk
    have hmod : hdr.le pciCommand 2 % 2 ^ 8 = (hdr pciCommand).toNat := by
      have hb : (hdr pciCommand).toNat < 256 := (hdr pciCommand).toNat_lt
      simp only [ByteMem.le]
      omega
    rw [← hmod, Nat.testBit_mod_two_pow]
    simp only [hk, decide_true, Bool.true_and]
  unfold PciDevice.enable
  rw [hbyte _ _ (by split <;> decide), hbyte _ _ (by split <;> decide), hio, hhdr]

/-- A write to the header changes the command bit and the register at most. -/
theorem barView_store (w : ConfigWrite) (m : Machine) (d i : Nat) :
    (w.store m).barView d i =
      { m.barView d i with
        enable := ((w.store m).barView d i).enable,
        register := ((w.store m).barView d i).register } := by
  unfold Machine.barView
  simp only [BarView.mk.injEq, true_and]
  refine ⟨?_, ?_, ?_, rfl, rfl⟩
  all_goals rw [store_dev]

/-- Another device is not looked at. -/
theorem barView_store_other {w : ConfigWrite} (hd : w.d ≠ d) :
    (w.store m).barView d i = m.barView d i := by
  have hdev : (w.store m).dev d = m.dev d := by
    rw [store_dev, if_neg (Ne.symm hd)]
  unfold Machine.barView
  rw [hdev]
  rfl

theorem barView_config_other {e bar : Nat} (h : ¬(e = d ∧ bar = i)) :
    (pciBarConfig m e bar).barView d i = m.barView d i := by
  have hne : RegionName.bar d i ≠ .bar e bar := by
    intro hc
    rcases RegionName.bar.inj hc with ⟨h1, h2⟩
    exact h ⟨h1.symm, h2.symm⟩
  unfold Machine.barView pciBarConfig
  by_cases he : d = e
  · -- The register of another BAR of the same device.
    subst he
    have hi : bar ≠ i := fun hi => h ⟨rfl, hi⟩
    have hreg := barOffset_apart hi
    have hcommand : Apart (pciBarOffset bar) 4 pciCommand 2 := by
      unfold Apart pciBarOffset pciCommand
      omega
    simp only [PciDevice.enable, Function.update_self, Function.update_of_ne hne,
      ByteMem.le_writeLE_apart _ _ _ _ _ _ hreg, ByteMem.le_writeLE_apart _ _ _ _ _ _ hcommand]
  · simp only [Function.update_of_ne he, Function.update_of_ne hne]

/-- The BAR itself: register and base are both what is left of what was
    written. -/
theorem barView_config (hio : (m.dev d).barIsIoSpace i = false) :
    (pciBarConfig m d i).barView d i =
      { m.barView d i with
        register := (m.barView d i).register &&& barMask (m.barView d i).size,
        base := (m.barView d i).register &&& barMask (m.barView d i).size } := by
  have hcommand : Apart (pciBarOffset i) 4 pciCommand 2 := by
    unfold Apart pciBarOffset pciCommand
    omega
  have hlt : (m.dev d).hdr.le (pciBarOffset i) 4 &&& barMask ((m.dev d).barSize i) < 256 ^ 4 :=
    Nat.lt_of_le_of_lt Nat.and_le_left (ByteMem.le_lt _ _ 4)
  unfold Machine.barView pciBarConfig
  simp only [PciDevice.enable, Function.update_self, hio, Bool.toNat_false, Nat.or_zero,
    ByteMem.le_writeLE_self _ _ _ _ hlt, ByteMem.le_writeLE_apart _ _ _ _ _ _ hcommand]

/-- The loop over the BARs sets `bar_active` and nothing else of the view. -/
theorem Rounds.barView {e : Nat} (h : Rounds m lists e 0 6 m' lists') (hi : i < 6) :
    m'.barView d i = { m.barView d i with
      active := if d = e then (m.barView d i).enable else (m.barView d i).active } := by
  unfold Machine.barView
  rw [h.same.barSize, h.same.barIsIoSpace, h.same.enable, h.same.hdr, (h.places _).1,
    (h.places _).2, h.active]
  by_cases he : d = e
  · rw [if_pos ⟨he, Nat.zero_le i, by omega⟩, if_pos he, he]
  · rw [if_neg (fun hc => he hc.1), if_neg he]

end View

section Step

variable {w : ConfigWrite} {n : Nat}

/-- A write inside one word of the header that does not start at the command
    register misses its first byte. -/
theorem store_command (hf : w.Forwarded n) (hoff : w.offset ≠ pciCommand) :
    ((w.store m).dev d).hdr pciCommand = (m.dev d).hdr pciCommand := by
  rw [store_dev]
  by_cases hd : d = w.d
  · simp only [if_pos hd]
    refine ByteMem.write_outside _ _ _ _ ?_
    have hword := hf.2.2.2
    unfold pciCommand at hoff ⊢
    omega
  · simp only [if_neg hd]

/-- A write that starts outside a BAR's register misses it. -/
theorem store_register (hf : w.Forwarded n)
    (hoff : ¬(pciBarOffset i ≤ w.offset ∧ w.offset < pciBarOffset i + 4)) :
    ((w.store m).barView d i).register = (m.barView d i).register := by
  unfold Machine.barView
  rw [store_dev]
  by_cases hd : d = w.d
  · simp only [if_pos hd]
    refine ByteMem.le_write_apart _ _ _ _ _ ?_
    have hword := hf.2.2.2
    unfold pciBarOffset at hoff ⊢
    unfold Apart
    omega
  · simp only [if_neg hd]

theorem store_enable (hf : w.Forwarded n) (hoff : w.offset ≠ pciCommand) :
    ((w.store m).barView d i).enable = (m.barView d i).enable := by
  refine enable_congr ?_ (store_command hf hoff)
  rw [store_dev]

/-- Whether the loop finds a base is whether the register is zero. -/
theorem BarView.Sound.hasBase (h : (m.barView d i).Sound) :
    m.hasBase d i = true ↔ (m.barView d i).register ≠ 0 := by
  have hbase : (m.iobus.region (.bar d i)).base &&& barMask ((m.dev d).barSize i)
      = (m.barView d i).register := by
    have hb : (m.iobus.region (.bar d i)).base = (m.barView d i).register := h.base
    rw [hb]
    exact h.masked
  unfold Machine.hasBase
  rw [hbase, bne_iff_ne]

/-- What the register of a BAR holds after a write. -/
def ConfigWrite.registerAfter (w : ConfigWrite) (m : Machine) (d i : Nat) : Nat :=
  if w.d = d ∧ pciBarOffset i ≤ w.offset ∧ w.offset < pciBarOffset i + 4 then w.programmed m i
  else (m.barView d i).register

/-- A BAR with its command bit and its register set, and what follows them. -/
def BarView.set (v : BarView) (enable : Bool) (register : Nat) : BarView :=
  { v with active := enable, enable := enable, register := register, base := register }

theorem BarView.Sound.set_enable {v : BarView} (h : v.Sound) (enable : Bool) :
    v.set enable v.register = { v with active := enable, enable := enable } := by
  simp only [BarView.set, h.base]

theorem BarView.Sound.set_self {v : BarView} (h : v.Sound) : v.set v.enable v.register = v := by
  have hactive := h.active
  rw [h.set_enable]
  cases v with
  | mk size isIoSpace active enable register base len =>
      rw [BarView.mk.injEq]
      exact ⟨rfl, rfl, hactive.symm, rfl, rfl, rfl, rfl⟩

theorem BarView.Sound.set {v : BarView} (h : v.Sound) (enable : Bool) {register : Nat}
    (hmask : register &&& barMask v.size = register) (hlt : register < 2 ^ 32) :
    (v.set enable register).Sound :=
  ⟨h.memory, rfl, rfl, hmask, h.len, h.size_lt, hlt⟩

/-- What a write leaves of a BAR: the command bit, and register and base
    together. A write the code does not take for one to the BAR must leave its
    register. -/
theorem Written.barView (hs : (m.barView d i).Sound) (hi : i < 6) (hf : w.Forwarded n)
    (hlast : w.d = d → pciBarOffset i ≤ w.offset → w.offset < pciBarOffset i + 4 →
      ¬w.offset ≤ 0x24 → ((w.store m).barView d i).register = (m.barView d i).register)
    (hwritten : Written m lists w m' lists') :
    m'.barView d i =
      (m.barView d i).set ((w.store m).barView d i).enable (w.registerAfter m d i) := by
  cases hwritten with
  | command hoff hr =>
      have hout : ¬(pciBarOffset i ≤ w.offset ∧ w.offset < pciBarOffset i + 4) := by
        rw [hoff]
        unfold pciBarOffset pciCommand
        omega
      have hafter : w.registerAfter m d i = (m.barView d i).register :=
        if_neg (fun hc => hout hc.2)
      rw [hr.barView hi, hafter]
      by_cases hd : d = w.d
      · rw [if_pos hd, hs.set_enable, barView_store, store_register hf hout]
      · rw [if_neg hd, barView_store_other (Ne.symm hd), hs.set_self]
  | bar hlo hhi =>
      have hcommand : w.offset ≠ pciCommand := by
        unfold pciCommand
        omega
      rw [store_enable hf hcommand]
      unfold ConfigWrite.registerAfter
      by_cases hbar : w.d = d ∧ (w.offset - 0x10) / 4 = i
      · -- The write is taken for one to this BAR, and `pci_bar_config` masks it.
        rcases hbar with ⟨rfl, hbar⟩
        have hio : ((w.store m).dev w.d).barIsIoSpace i = false := by
          rw [store_dev]
          exact hs.memory
        rw [hbar, if_pos ⟨rfl, by unfold pciBarOffset; omega, by unfold pciBarOffset; omega⟩,
          barView_config hio, barView_store, store_enable hf hcommand, BarView.set, ← hs.active]
        rfl
      · have hout : ¬(w.d = d ∧ pciBarOffset i ≤ w.offset ∧ w.offset < pciBarOffset i + 4) := by
          unfold pciBarOffset
          omega
        rw [barView_config_other hbar, if_neg hout, hs.set_self]
        by_cases hd : w.d = d
        · rw [barView_store, store_register hf (fun hc => hout ⟨hd, hc⟩), store_enable hf hcommand]
        · exact barView_store_other hd
  | other hoff hbars =>
      rw [store_enable hf hoff]
      unfold ConfigWrite.registerAfter
      by_cases hin : w.d = d ∧ pciBarOffset i ≤ w.offset ∧ w.offset < pciBarOffset i + 4
      · -- Only the upper bytes of the last BAR are in no case of the code.
        rcases hin with ⟨rfl, hlo, hhi⟩
        have hreg := hlast rfl hlo hhi (by unfold pciBarOffset at hlo; omega)
        rw [if_pos ⟨rfl, hlo, hhi⟩, ConfigWrite.programmed, hreg, hs.masked, hs.set_self,
          barView_store, hreg, store_enable hf hoff]
      · rw [if_neg hin, hs.set_self]
        by_cases hd : w.d = d
        · rw [barView_store, store_register hf (fun hc => hin ⟨hd, hc⟩), store_enable hf hoff]
        · exact barView_store_other hd

/-- A register keeps the bits below its size clear. -/
theorem BarView.Sound.registerAfter (h : (m.barView d i).Sound) (w : ConfigWrite) :
    w.registerAfter m d i &&& barMask (m.barView d i).size = w.registerAfter m d i
      ∧ w.registerAfter m d i < 2 ^ 32 := by
  unfold ConfigWrite.registerAfter
  by_cases hin : w.d = d ∧ pciBarOffset i ≤ w.offset ∧ w.offset < pciBarOffset i + 4
  · rw [if_pos hin, ConfigWrite.programmed, ← hin.1, Nat.and_assoc, Nat.and_self]
    exact ⟨rfl, Nat.lt_of_le_of_lt Nat.and_le_left (ByteMem.le_lt _ _ 4)⟩
  · rw [if_neg hin]
    exact ⟨h.masked, h.register_lt⟩

/-- A BAR that was on the bus when enabled with a base is so again: whether it
    was enabled before the round does not matter. -/
theorem mapped_by_round (before after : Bool) (base : Prop) :
    (if after = true then (before = false ∧ base ∧ BusName.mmio = .mmio) ∨ (before = true ∧ base)
      else (before = true ∧ base) ∧ ¬(before = true ∧ base)) ↔ after = true ∧ base := by
  cases after <;> cases before <;> simp

/-- The round of a memory BAR, in terms of its view. -/
theorem mapsTo_store (hs : (m.barView d i).Sound) (w : ConfigWrite) (on : Prop) :
    MapsTo (w.store m) d i .mmio on ↔
      if ((w.store m).barView d i).enable = true then
        ((m.barView d i).enable = false ∧ (m.barView d i).register ≠ 0
          ∧ BusName.mmio = .mmio) ∨ on
      else on ∧ ¬((m.barView d i).enable = true ∧ (m.barView d i).register ≠ 0) := by
  -- The write is to the header alone: base, size and `bar_active` are as before.
  have hbase : (w.store m).hasBase d i = true ↔ (m.barView d i).register ≠ 0 := by
    rw [← hs.hasBase]
    unfold Machine.hasBase
    rw [store_dev]
    rfl
  have hactive : ((w.store m).dev d).barActive i = (m.barView d i).enable := by
    rw [store_dev]
    exact hs.active
  have hbus : ((w.store m).dev d).barBus i = .mmio := by
    have hio : (m.dev d).barIsIoSpace i = false := hs.memory
    unfold PciDevice.barBus
    rw [store_dev]
    simp only [hio, Bool.false_eq_true, if_false]
  unfold MapsTo
  rw [hactive, hbus, hbase]
  rfl

/-- A memory BAR is put on the bus or taken off it in its own round only. -/
theorem Written.mem_mmio (hs : (m.barView d i).Sound) (hi : i < 6)
    (hwritten : Written m lists w m' lists') : .bar d i ∈ lists' .mmio ↔
      if w.offset = pciCommand ∧ w.d = d then
        if ((w.store m).barView d i).enable = true then
          ((m.barView d i).enable = false ∧ (m.barView d i).register ≠ 0
            ∧ BusName.mmio = .mmio) ∨ .bar d i ∈ lists .mmio
        else .bar d i ∈ lists .mmio
          ∧ ¬((m.barView d i).enable = true ∧ (m.barView d i).register ≠ 0)
      else .bar d i ∈ lists .mmio := by
  cases hwritten with
  | command hoff hr =>
      by_cases hd : w.d = d
      · subst hd
        rw [if_pos ⟨hoff, rfl⟩, hr.mapped .mmio i (Nat.zero_le i) (by omega), mapsTo_store hs]
      · rw [if_neg (fun hc => hd hc.2)]
        exact hr.others _ _ (fun j _ _ hc => hd (RegionName.bar.inj hc).1.symm)
  | bar hlo hhi => rw [if_neg (by unfold pciCommand; omega)]
  | other hoff hbars => rw [if_neg (fun hc => hoff hc.1)]

/-- While the space is enabled, the register stays zero or stays non-zero. -/
theorem KeepsDecode.registerAfter (hw : KeepsDecode d i m w) (hs : (m.barView d i).Sound)
    (hen : (m.barView d i).enable = true) :
    w.registerAfter m d i = 0 ↔ (m.barView d i).register = 0 := by
  unfold ConfigWrite.registerAfter
  by_cases hin : w.d = d ∧ pciBarOffset i ≤ w.offset ∧ w.offset < pciBarOffset i + 4
  · rw [if_pos hin]
    rcases hin with ⟨rfl, hlo, hhi⟩
    have hkeeps := hw.2 rfl hlo hhi
    by_cases hbar : w.offset ≤ 0x24
    · rw [if_pos hbar] at hkeeps
      exact hkeeps hen
    · rw [if_neg hbar] at hkeeps
      rw [ConfigWrite.programmed, hkeeps, hs.masked]
  · rw [if_neg hin]

theorem Written.decodes (h : Decodes m lists d i) (hi : i < 6) (hf : w.Forwarded n)
    (hw : KeepsDecode d i m w) (hwritten : Written m lists w m' lists') :
    Decodes m' lists' d i := by
  have hs := h.sound
  -- The view after the write is the old one with bit and register set.
  have hview := hwritten.barView hs hi hf (fun hd hlo hhi hout => by
    have hkeeps := hw.2 hd hlo hhi
    rwa [if_neg hout] at hkeeps)
  have hreg := hs.registerAfter w
  refine ⟨hwritten.listing w h.listing, ?_, ?_⟩
  · rw [hview]
    exact hs.set _ hreg.1 hreg.2
  · rw [hview, hwritten.mem_mmio hs hi, h.mapped]
    -- Only a command write moves the region, and only a BAR write the register.
    by_cases hcommand : w.offset = pciCommand ∧ w.d = d
    · have hafter : w.registerAfter m d i = (m.barView d i).register := by
        refine if_neg ?_
        rw [hcommand.1]
        unfold pciBarOffset pciCommand
        omega
      rw [if_pos hcommand, mapped_by_round, hafter]
      rfl
    · have hen : ((w.store m).barView d i).enable = (m.barView d i).enable := by
        by_cases hd : w.d = d
        · exact store_enable hf (fun hoff => hcommand ⟨hoff, hd⟩)
        · rw [barView_store_other hd]
      rw [if_neg hcommand, hen]
      exact and_congr_right fun hon => not_congr (hw.registerAfter hs hon).symm

end Step

section Decoding

/-- The memory-enable bit of `PCI_COMMAND`. -/
def Machine.memoryEnabled (m : Machine) (d : Nat) : Prop :=
  ((m.dev d).hdr.le pciCommand 2).testBit 1 = true

/-- The base programmed in a memory BAR. -/
def Machine.barBase (m : Machine) (d i : Nat) : Nat :=
  (m.dev d).hdr.le (pciBarOffset i) 4

/-- The BAR is on the bus as its registers say, an access that no other region
    covers reaches it at its offset, and none does while it is disabled. -/
structure BarDecoded (m : Machine) (d i : Nat) : Prop where
  on_bus : OnBus m .mmio (.bar d i) ↔ m.memoryEnabled d ∧ m.barBase d i ≠ 0
  dispatched : OnBus m .mmio (.bar d i) → ∀ a size, 1 ≤ size → m.barBase d i ≤ a →
    a + size ≤ m.barBase d i + (m.dev d).barSize i →
    (∀ r, OnBus m .mmio r → (m.iobus.region r).covers a = true → r = .bar d i) →
    ∃ fuel, busHandleIo fuel m.iobus .mmio a size
      = some (some (.bar d i, a - m.barBase d i))
  unreached : ¬m.memoryEnabled d → ∀ fuel b a size o,
    busHandleIo fuel m.iobus b a size ≠ some (some (.bar d i, o))

theorem Settled.decodes {n : Nat} (h : Settled n m lists) (hi : i < 6)
    (hio : (m.dev d).barIsIoSpace i = false) : Decodes m lists d i := by
  have hf := h.device d
  -- The set-up leaves the register zero and the bit clear, so nothing is mapped.
  have hreg : (m.dev d).hdr.le (pciBarOffset i) 4 = 0 := by
    rw [hf.register i hi, hio]
    rfl
  have hen : (m.dev d).enable i = false := by
    unfold PciDevice.enable
    rw [hf.command, Nat.zero_testBit]
  refine ⟨h.barListing, ⟨hio, ?_, ?_, ?_, hf.len i, hf.size i, ?_⟩, ?_⟩
  all_goals simp only [Machine.barView, hreg]
  · rw [hen]
    exact hf.inactive i
  · exact hf.base i
  · exact Nat.zero_and _
  · exact Nat.two_pow_pos 32
  · exact ⟨fun hc => absurd hc (h.unmapped _ d i), fun hc => absurd rfl hc.2⟩

theorem Decodes.decoded (h : Decodes m lists d i) : BarDecoded m d i := by
  have hs := h.sound
  have hio : (m.dev d).barIsIoSpace i = false := hs.memory
  -- A memory BAR looks at bit 1.
  have hen : (m.barView d i).enable = true ↔ m.memoryEnabled d := by
    simp only [Machine.barView, PciDevice.enable, Machine.memoryEnabled, hio, Bool.false_eq_true,
      if_false]
  have hbase : (m.iobus.region (.bar d i)).base = m.barBase d i := hs.base
  have hlen : (m.iobus.region (.bar d i)).len = (m.dev d).barSize i := hs.len
  have hsize : (m.dev d).barSize i < 2 ^ 32 := hs.size_lt
  have hlt : m.barBase d i < 2 ^ 32 := hs.register_lt
  have hon : OnBus m .mmio (.bar d i) ↔ m.memoryEnabled d ∧ m.barBase d i ≠ 0 := by
    rw [h.listing.onBus_iff, h.mapped, hen]
    rfl
  refine ⟨hon, fun hb a size hsz hlo hhi honly => ?_, fun hoff fuel b a size o hr => ?_⟩
  · have hmem := (h.listing.onBus_iff _ _).mp hb
    rw [← hbase]
    rw [← hbase, ← hlen] at hhi
    refine h.listing.listing.handled hmem a size hsz (by rwa [hbase]) hhi (by omega)
      (fun q hq hc => ?_)
    exact honly q ((h.listing.onBus_iff _ _).mpr hq) hc
  · have hmem := (h.listing.listing.handled_inv hr).1
    -- Reached on whatever bus, the region is on the memory bus's list.
    have hbus : b = .mmio := by
      rw [h.listing.own b d i hmem]
      unfold PciDevice.barBus
      simp only [hio, Bool.false_eq_true, if_false]
    rw [hbus, ← h.listing.onBus_iff, hon] at hmem
    exact hoff hmem.1

/-- As long as no write changes whether the BAR has a base while it is enabled,
    it is decoded as its registers say. -/
theorem bar_decoding {n : Nat} (h0 : Machine.SetUp n m) (hi : i < 6)
    (hio : (m.dev d).barIsIoSpace i = false) (h : Run (ConfigStep n) (KeepsDecode d i) m m') :
    BarDecoded m' d i := by
  have hdecodes : ∃ lists, Decodes m' lists d i := by
    refine h.invariant (P := fun m => ∃ lists, Decodes m lists d i) ?_ ?_
    · rcases settled_of_setUp h0 with ⟨lists, hl⟩
      exact ⟨lists, hl.decodes hi hio⟩
    · rintro m w m' ⟨lists, hl⟩ hw hs
      rcases step_written w hl.listing hw.1 hs with ⟨lists', hwritten⟩
      exact ⟨lists', hwritten.decodes hl hi hs.1 hw⟩
  rcases hdecodes with ⟨lists, hl⟩
  exact hl.decoded

/-- The BAR is given a base and then enabled. -/
theorem bar_decoding_enabled : ∃ m, Machine.SetUp 1 sampleMachine
    ∧ Run (ConfigStep 1) (KeepsDecode 0 0) sampleMachine m ∧ m.memoryEnabled 0
    ∧ m.barBase 0 0 = 0xf0000000 ∧ BarDecoded m 0 0 := by
  rcases sampleEnable_step with ⟨m, hs, _, hcommand, hbase⟩
  have hfirst : KeepsDecode 0 0 sampleMachine sampleBase := by
    refine ⟨fun hc => absurd hc (by decide), fun _ _ _ => ?_⟩
    rw [if_pos (by decide)]
    exact fun hen => absurd hen (by decide +kernel)
  have hsecond : KeepsDecode 0 0 sampleProgrammed sampleEnable :=
    ⟨sampleEnable_relinks, fun _ hc => absurd hc (by decide)⟩
  have hrun : Run (ConfigStep 1) (KeepsDecode 0 0) sampleMachine m :=
    .tail sampleEnable (.single sampleBase hfirst sampleBase_step) hsecond hs
  refine ⟨m, sampleMachine_setUp, hrun, ?_, hbase,
    bar_decoding sampleMachine_setUp (by decide) (by decide +kernel) hrun⟩
  unfold Machine.memoryEnabled
  rw [hcommand]
  decide

/-- A BAR that is enabled first and given a base afterwards is never put on
    the bus. -/
theorem bar_not_decoded : ¬∀ (n : Nat) (m m' : Machine) (d i : Nat), Machine.SetUp n m → i < 6 →
    (m.dev d).barIsIoSpace i = false → (m.dev d).barSize i ≠ 0 →
    Run (ConfigStep n) (fun _ _ => True) m m' →
    (OnBus m' .mmio (.bar d i) ↔ m'.memoryEnabled d ∧ m'.barBase d i ≠ 0) := by
  intro h
  have hend : (configWrites 0 sampleMachine [sampleEnable, sampleBase]).map (fun m =>
      (m.iobus.head .mmio, (m.dev 0).hdr.le pciCommand 2, (m.dev 0).hdr.le (pciBarOffset 0) 4))
      = some (none, 2, 0xf0000000) := by decide +kernel
  rcases Option.map_eq_some_iff.mp hend with ⟨m, hm, hfacts⟩
  simp only [Prod.mk.injEq] at hfacts
  rcases hfacts with ⟨hhead, hcommand, hbase⟩
  have hrun := run_configWrites (n := 1) (.refl sampleMachine) (by decide) hm
  have henabled : m.memoryEnabled 0 := by
    unfold Machine.memoryEnabled
    rw [hcommand]
    decide
  have hiff := h 1 sampleMachine m 0 0 sampleMachine_setUp (by decide) (by decide +kernel)
    (by decide +kernel) hrun
  rcases hiff.mpr ⟨henabled, by unfold Machine.barBase; rw [hbase]; decide⟩ with ⟨l, hl, hmem⟩
  rw [hhead] at hl
  cases l with
  | nil => exact absurd hmem List.not_mem_nil
  | cons r l => exact absurd hl.1 (by simp only [reduceCtorEq, not_false_eq_true])

end Decoding

end Microv
