import Microv.Theory.ConfigPorts

/-!
# Identity and Capabilities

What a guest can change of the header `virtio_pci_init` filled.

`pci_config_write` copies whatever is written to wherever it is written. It
looks at the command register and at the BARs, whose fixed bits it restores, and
at nothing else: the identity of the device and the capabilities that say where
its registers are can be overwritten like any other byte, and
`virtio_pci_init_ioeventfd` computes an address from what stands there.

So they stay what they were in the runs in which no write puts anything else
there, however the ports are used otherwise, and whatever the BARs' regions are
made to do to the bus lists.

## Main definitions

* `Identity`: The bytes that say what the device is and where its registers
  are.
* `KeepsIdentity`: The condition on a write.

## Theorems

* `portStep_inv`: What an access to a port can do.
* `identity_step`: An access that meets the condition.
* `identity_immutable`: A run of them.
-/

namespace Microv

/-- Vendor and device, class and revision, header type, capability pointer,
    interrupt pin, and the five capabilities. -/
def Identity (x : Nat) : Prop :=
  x < 4 ∨ (8 ≤ x ∧ x < 12) ∨ x = 0x0e ∨ x = 0x34 ∨ x = 0x3d ∨ (0x40 ≤ x ∧ x < 0x98)

instance (x : Nat) : Decidable (Identity x) :=
  inferInstanceAs (Decidable (_ ∨ _ ∨ _ ∨ _ ∨ _ ∨ _))

/-- A write through the second port to the first device that reaches the
    identity puts there what is there already. -/
def KeepsIdentity (s : ConfigPorts) : Access → Prop
  | .read _ _ => True
  | .write port data => 0xcfc ≤ port → Selects s.pciAddr 0 →
      ∀ i, i < data.length → Identity (4 * regNum s.pciAddr + (port - 0xcfc) + i) →
        data[i]? = some ((s.machine.dev 0).hdr (4 * regNum s.pciAddr + (port - 0xcfc) + i))

section

variable {s s' : ConfigPorts} {acc : Access} {fuel : Nat} {data : List UInt8}

/-- An access sets the latch, or calls one configuration handler, or does
    nothing. -/
theorem portStep_inv (h : iobusHandlePio fuel s acc = some (s', data)) :
    (∃ o, s' = { s with pciAddr := (pcibusAddrIo s.pciAddr (acc.at o)).1 }) ∨
    (∃ o d off m', busHandleIo fuel s.machine.iobus .pio acc.offset acc.size
        = some (some (.pciData, o)) ∧
      busHandleIo fuel s.machine.iobus .pci (s.pciAddr ||| o) acc.size
        = some (some (.config d, off)) ∧
      pciConfigHandleIo fuel s.machine d (acc.at off) = some (m', data) ∧
      s' = { s with machine := m', calls := s.calls ++ [⟨d, off, acc.size⟩] }) ∨
    s' = s := by
  unfold iobusHandlePio at h
  rcases Option.bind_eq_some_iff.mp h with ⟨r, hr, hres⟩
  -- The region the port falls in decides: the latch, the data window or neither.
  split at hres
  · exact Or.inl ⟨_, (congrArg Prod.fst (Option.some.inj hres)).symm⟩
  · unfold pcibusDataIo at hres
    rcases Option.bind_eq_some_iff.mp hres with ⟨q, hq, hcall⟩
    rw [Access.at_offset, Access.at_size] at hq
    -- Behind the window, a device answers or nobody does.
    split at hcall
    · rcases Option.map_eq_some_iff.mp hcall with ⟨res, hio, hout⟩
      rcases Prod.mk.inj hout with ⟨rfl, rfl⟩
      refine Or.inr (Or.inl ⟨_, _, _, res.1, hr, hq, ?_, ?_⟩)
      · cases acc <;> exact hio
      · rw [Access.at_size]
    · exact Or.inr (Or.inr (congrArg Prod.fst (Option.some.inj hcall)).symm)
  · exact Or.inr (Or.inr (congrArg Prod.fst (Option.some.inj hres)).symm)

/-- The second port and the first device's configuration space are where the
    setup put them. -/
structure PortPlaces (m : Machine) : Prop where
  data : (m.iobus.region .pciData).base = 0xcfc ∧ (m.iobus.region .pciData).len = 4
  config : (m.iobus.region (.config 0)).base = 2 ^ 31 ∧ (m.iobus.region (.config 0)).len = 256

/-- Every configuration handler leaves them there. -/
theorem PortPlaces.io {m m' : Machine} {d : Nat} (h : PortPlaces m)
    (hio : pciConfigHandleIo fuel m d acc = some (m', data)) : PortPlaces m' := by
  cases acc with
  | read offset size =>
      rw [← (Prod.mk.inj (Option.some.inj hio)).1]
      exact h
  | write offset bytes =>
      rcases Option.map_eq_some_iff.mp hio with ⟨m₁, hw, hout⟩
      rw [← (Prod.mk.inj hout).1]
      have hplace := fun r hr => configWrite_places hw r hr
      have hdata := hplace .pciData (by simp only [ne_eq, reduceCtorEq, not_false_eq_true,
        implies_true])
      have hconfig := hplace (.config 0) (by simp only [ne_eq, reduceCtorEq, not_false_eq_true,
        implies_true])
      exact ⟨⟨hdata.1.trans h.data.1, hdata.2.trans h.data.2⟩,
        ⟨hconfig.1.trans h.config.1, hconfig.2.trans h.config.2⟩⟩

/-- An access that comes to the first device was to the second port, with an
    address that names the device, and is at the register's offset. -/
theorem PortPlaces.decode {o off size port : Nat} (h : PortPlaces s.machine)
    (hv : Latched s.pciAddr)
    (hpio : busHandleIo fuel s.machine.iobus .pio port size = some (some (.pciData, o)))
    (hpci : busHandleIo fuel s.machine.iobus .pci (s.pciAddr ||| o) size
      = some (some (.config 0, off))) :
    0xcfc ≤ port ∧ Selects s.pciAddr 0 ∧ off = 4 * regNum s.pciAddr + (port - 0xcfc) := by
  rcases h.data with ⟨hdata, hdataLen⟩
  rcases h.config with ⟨hconfig, hconfigLen⟩
  rcases handleIo_inv hpio with ⟨hcov, -, ho⟩
  rw [Region.covers_iff _ (by omega) (by omega), hdata, hdataLen] at hcov
  rw [hdata] at ho
  rcases handleIo_inv hpci with ⟨hcov', -, hoff⟩
  rw [or_offset _ _ hv.2 (by omega)] at hcov' hoff
  rw [Region.covers_iff _ (by omega) (by omega), hconfig, hconfigLen] at hcov'
  have hsel := (covers_iff_selects s.pciAddr o 0 hv.1 hv.2 (by omega) (by decide)).mp
    (by omega)
  have hreg := hsel.offset hv.1 hv.2 o
  refine ⟨hcov.1, hsel, ?_⟩
  rw [hoff, hconfig, ← ho]
  omega

/-- What holds of the ports as long as the identity is kept. -/
structure IdentityKept (hdr : ByteMem) (s : ConfigPorts) : Prop where
  latched : Latched s.pciAddr
  places : PortPlaces s.machine
  same : ∀ x, Identity x → (s.machine.dev 0).hdr x = hdr x

/-- A write to the first device that puts nothing new into the identity. -/
theorem identity_configWrite {hdr : ByteMem} {m m' : Machine} {off d : Nat}
    (hsame : ∀ x, Identity x → (m.dev 0).hdr x = hdr x)
    (hw : pciConfigWrite fuel m d off data = some m')
    (hkeep : d = 0 → ∀ i, i < data.length → Identity (off + i) →
      data[i]? = some ((m.dev 0).hdr (off + i))) (x : Nat) (hx : Identity x) :
    (m'.dev 0).hdr x = hdr x := by
  have hbars : x < 0x10 ∨ 0x28 ≤ x := by
    unfold Identity at hx
    omega
  rw [configWrite_hdr hw 0 x hbars]
  by_cases hd : 0 = d
  · rw [if_pos hd]
    by_cases hin : off ≤ x ∧ x < off + data.length
    · -- The byte written is the byte that was there.
      have hi : x - off < data.length := by omega
      have hbyte := hkeep hd.symm (x - off) hi (by rwa [Nat.add_sub_cancel' hin.1])
      have hwrite := ByteMem.write_inside (m.dev 0).hdr off data (x - off) hi
      rw [Nat.add_sub_cancel' hin.1] at hbyte hwrite
      rw [List.getElem?_eq_getElem hi] at hbyte
      rw [hwrite, Option.some.inj hbyte]
      exact hsame x hx
    · rw [ByteMem.write_outside _ _ _ _ (by omega)]
      exact hsame x hx
  · rw [if_neg hd]
    exact hsame x hx

/-- One access that keeps the identity. -/
theorem identity_step {hdr : ByteMem} (h : IdentityKept hdr s) (hc : KeepsIdentity s acc)
    (hs : PortStep acc s s') : IdentityKept hdr s' := by
  rcases hs with ⟨fuel, data, hfuel⟩
  rcases portStep_inv hfuel with ⟨o, rfl⟩ | ⟨o, d, off, m', hpio, hpci, hio, rfl⟩ | rfl
  · exact ⟨latched_addrIo h.latched _, h.places, h.same⟩
  · refine ⟨h.latched, h.places.io hio, ?_⟩
    cases acc with
    | read port size =>
        rw [← (Prod.mk.inj (Option.some.inj hio)).1]
        exact h.same
    | write port bytes =>
        rcases Option.map_eq_some_iff.mp hio with ⟨m₁, hw, hout⟩
        rw [← (Prod.mk.inj hout).1]
        refine identity_configWrite h.same hw ?_
        rintro rfl
        rcases h.places.decode h.latched hpio hpci with ⟨hport, hsel, hoff⟩
        simp only [KeepsIdentity] at hc
        rw [hoff]
        exact hc hport hsel
  · exact h

end

section Initial

variable (deviceId classCode irqLine devCfgLen : Nat)

/-- The ports once `virtio_pci_init` is done. -/
def identityStart : ConfigPorts :=
  .start (virtioPciInit Machine.boot deviceId classCode irqLine devCfgLen)

theorem identityKept_start :
    IdentityKept ((identityStart deviceId classCode irqLine devCfgLen).machine.dev 0).hdr
      (identityStart deviceId classCode irqLine devCfgLen) := by
  rcases portsListed_of_setUp (setUp_virtioPciInit deviceId classCode irqLine devCfgLen)
    (by decide) with ⟨lists, h⟩
  exact ⟨⟨Nat.two_pow_pos 32, rfl⟩, ⟨h.data, h.config 0 Nat.one_pos⟩, fun _ _ => rfl⟩

end Initial

/-- In every run of port accesses whose writes keep the identity, its bytes are
    those `virtio_pci_init` set, a read through the ports delivers them, and the
    fields of the notify capability that `virtio_pci_init_ioeventfd` uses are
    the ones it was given. -/
theorem identity_immutable (deviceId classCode irqLine devCfgLen : Nat) (s : ConfigPorts)
    (hrun : Run PortStep KeepsIdentity (identityStart deviceId classCode irqLine devCfgLen) s) :
    let f := (identityStart deviceId classCode irqLine devCfgLen).machine.dev 0
    (∀ x, Identity x → (s.machine.dev 0).hdr x = f.hdr x) ∧
    (∀ fuel port size s' data off,
      iobusHandlePio fuel s (.read port size) = some (s', data) →
      s'.calls = s.calls ++ [⟨0, off, size⟩] →
      ∀ i, i < size → Identity (off + i) → data[i]? = some (f.hdr (off + i))) ∧
    (s.machine.dev 0).notifyBar = f.notifyBar ∧
    (s.machine.dev 0).notifyOffset = f.notifyOffset ∧
    (s.machine.dev 0).notifyMultiplier = f.notifyMultiplier := by
  intro f
  have h : IdentityKept f.hdr s := hrun.invariant (P := IdentityKept f.hdr)
    (identityKept_start deviceId classCode irqLine devCfgLen)
    (fun _ _ _ ht hc hs => identity_step ht hc hs)
  -- A field of the notify capability is made of bytes of the identity.
  have hfield : ∀ a k, 0x40 ≤ a → a + k ≤ 0x98 → (s.machine.dev 0).hdr.le a k = f.hdr.le a k := by
    intro a k hlo hhi
    refine ByteMem.le_congr _ _ _ _ ?_
    intro i hi
    exact h.same _ (by unfold Identity; omega)
  refine ⟨h.same, ?_, hfield _ 1 (by decide) (by decide), hfield _ 4 (by decide) (by decide),
    hfield _ 4 (by decide) (by decide)⟩
  intro fuel port size s' data off hfuel hcall i hi hx
  rcases portStep_inv hfuel with ⟨o, rfl⟩ | ⟨o, d, off', m', hpio, hpci, hio, rfl⟩ | rfl
  · exact absurd hcall (by simp)
  · rcases ConfigCall.mk.inj (List.singleton_inj.mp (List.append_cancel_left hcall)) with
      ⟨rfl, rfl, -⟩
    rw [← (Prod.mk.inj (Option.some.inj hio)).2,
      List.getElem?_eq_getElem (by rwa [ByteMem.length_read]), ByteMem.getElem_read, h.same _ hx]
  · exact absurd hcall (by simp)

/-- The block device's ports with a register addressed. -/
def sampleRegister (value : Nat) : ConfigPorts :=
  { identityStart 0x1042 0x018000 15 60 with pciAddr := value }

/-- The same after a write of `bytes` at offset `off` of the device. -/
def sampleWritten (value off : Nat) (bytes : List UInt8) : ConfigPorts :=
  { sampleRegister value with
    machine := (sampleRegister value).machine.writeHdr 0 off bytes,
    calls := [⟨0, off, bytes.length⟩] }

/-- The interrupt line shares its word with the interrupt pin. -/
theorem identity_immutable_irqLine :
    let s := sampleWritten 0x8000003c 0x3c [11]
    Run PortStep KeepsIdentity (identityStart 0x1042 0x018000 15 60) s ∧
      ∀ x, Identity x → (s.machine.dev 0).hdr x
        = ((identityStart 0x1042 0x018000 15 60).machine.dev 0).hdr x := by
  intro s
  have hrun : Run PortStep KeepsIdentity (identityStart 0x1042 0x018000 15 60) s := by
    refine .tail (.write 0xcfc [11]) (.single (.write 0xcf8 [0x3c, 0, 0, 0x80]) ?_
      ⟨4, [], rfl⟩ : Run _ _ _ (sampleRegister 0x8000003c)) ?_ ⟨4, [], rfl⟩
    · simp only [KeepsIdentity]
      omega
    · simp only [KeepsIdentity]
      intro _ _ i hi hx
      rw [List.length_singleton, Nat.lt_one_iff] at hi
      subst hi
      exact absurd hx (by decide)
  exact ⟨hrun, (identity_immutable 0x1042 0x018000 15 60 s hrun).1⟩

/-- Two accesses to the ports give the device another vendor, or move the
    doorbell to another BAR. -/
theorem identity_overwritten :
    (PortStep (.write 0xcf8 [0, 0, 0, 0x80]) (identityStart 0x1042 0x018000 15 60)
        (sampleRegister 0x80000000) ∧
      PortStep (.write 0xcfc [0xff, 0xff]) (sampleRegister 0x80000000)
        (sampleWritten 0x80000000 0 [0xff, 0xff]) ∧
      ((sampleWritten 0x80000000 0 [0xff, 0xff]).machine.dev 0).hdr 0
        ≠ ((identityStart 0x1042 0x018000 15 60).machine.dev 0).hdr 0) ∧
    (PortStep (.write 0xcf8 [0x54, 0, 0, 0x80]) (identityStart 0x1042 0x018000 15 60)
        (sampleRegister 0x80000054) ∧
      PortStep (.write 0xcfc [1]) (sampleRegister 0x80000054)
        (sampleWritten 0x80000054 0x54 [1]) ∧
      ((sampleWritten 0x80000054 0x54 [1]).machine.dev 0).notifyBar
        ≠ ((identityStart 0x1042 0x018000 15 60).machine.dev 0).notifyBar) :=
  ⟨⟨⟨4, [], rfl⟩, ⟨4, [], rfl⟩, by decide +kernel⟩, ⟨4, [], rfl⟩, ⟨4, [], rfl⟩, by decide +kernel⟩

end Microv
