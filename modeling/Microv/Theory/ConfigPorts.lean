import Microv.Core.ConfigPorts
import Microv.Theory.FastPath

/-!
# Decoding Configuration Addresses

Where an access through the configuration ports ends up.

The code never takes a configuration address apart. It treats the latched value
as an address on a bus on which device `d` has the 256 bytes from
`2 ^ 31 + 2 ^ 11 * d`, and lets the search for a region do the rest. That is
configuration mechanism #1, exactly: the ranges are those of the values with the
enable bit set and every field but the device and the register zero
(`covers_iff_selects`).

## Main definitions

* `PortsListed`: The buses as the setup leaves them, for up to 32 devices.
* `Selects`: The fields of an address name a device.
* `ConfigDecoded`: The handlers called are the ones the address names.

## Theorems

* `portsListed_of_setUp`: What the setup leaves.
* `addr_ends`, `data_ends`: What an access to either port does.
* `config_mechanism_decodes`: The decoding is exact.
-/

namespace Microv

section Setup

variable {k : Nat} {m : Machine} {lists : BusName → List RegionName}

/-- The three port regions and the configuration spaces of `k` devices are on
    their buses, at their addresses. -/
structure PortsListed (k : Nat) (m : Machine) (lists : BusName → List RegionName) : Prop where
  settled : Settled k m lists
  pio : lists .pio = [.serial, .pciData, .pciAddr]
  pci : ∀ r, r ∈ lists .pci ↔ ∃ d, d < k ∧ r = .config d
  count : m.iobus.regionCount .pci = k
  serial : (m.iobus.region .serial).base = 0x3f8 ∧ (m.iobus.region .serial).len = 8
  data : (m.iobus.region .pciData).base = 0xcfc ∧ (m.iobus.region .pciData).len = 4
  addr : (m.iobus.region .pciAddr).base = 0xcf8 ∧ (m.iobus.region .pciAddr).len = 4
  config : ∀ d, d < k → (m.iobus.region (.config d)).base = 2 ^ 31 + d * 2 ^ 11 ∧
    (m.iobus.region (.config d)).len = 256

theorem portsListed_boot : PortsListed 0 Machine.boot bootLists :=
  ⟨settled_boot, rfl, fun _ => ⟨fun hr => absurd hr List.not_mem_nil,
    fun ⟨_, hd, _⟩ => absurd hd (Nat.not_lt_zero _)⟩, rfl, ⟨rfl, rfl⟩, ⟨rfl, rfl⟩, ⟨rfl, rfl⟩,
    fun _ hd => absurd hd (Nat.not_lt_zero _)⟩

theorem PortsListed.dev (h : PortsListed k m lists) (hk : k < 32) :
    PortsListed (k + 1) (pciDevInit m k)
      (Function.update lists .pci (.config k :: lists .pci)) := by
  -- The other regions outside the new device keep their places.
  have hregion : ∀ r, r ≠ .config k → (∀ e i, r ≠ .bar e i) →
      (pciDevInit m k).iobus.region r = m.iobus.region r := by
    intro r hr hbar
    cases r with
    | bar e i => exact absurd rfl (hbar e i)
    | pciAddr | pciData | serial | config e =>
        simp only [pciDevInit, pcibusRegisterDev, regionInit, iobusRegisterRegion,
          Function.update_of_ne hr]
  constructor
  case settled => exact h.settled.dev
  case pio =>
    rw [Function.update_of_ne (by decide)]
    exact h.pio
  case pci =>
    intro r
    rw [Function.update_self, List.mem_cons, h.pci]
    constructor
    · rintro (rfl | ⟨d, hd, rfl⟩)
      · exact ⟨k, Nat.lt_succ_self k, rfl⟩
      · exact ⟨d, by omega, rfl⟩
    · rintro ⟨d, hd, rfl⟩
      rcases Nat.lt_succ_iff_lt_or_eq.mp hd with hlt | rfl
      · exact Or.inr ⟨d, hlt, rfl⟩
      · exact Or.inl rfl
  case count =>
    simp only [pciDevInit, pcibusRegisterDev, regionInit, iobusRegisterRegion,
      Function.update_self, h.count]
    exact Nat.mod_eq_of_lt (by omega)
  case serial =>
    rw [hregion _ (by simp only [ne_eq, reduceCtorEq, not_false_eq_true])
      (by simp only [ne_eq, reduceCtorEq, not_false_eq_true, implies_true])]
    exact h.serial
  case data =>
    rw [hregion _ (by simp only [ne_eq, reduceCtorEq, not_false_eq_true])
      (by simp only [ne_eq, reduceCtorEq, not_false_eq_true, implies_true])]
    exact h.data
  case addr =>
    rw [hregion _ (by simp only [ne_eq, reduceCtorEq, not_false_eq_true])
      (by simp only [ne_eq, reduceCtorEq, not_false_eq_true, implies_true])]
    exact h.addr
  case config =>
    intro d hd
    by_cases hdk : d = k
    · subst hdk
      simp only [pciDevInit, pcibusRegisterDev, regionInit, iobusRegisterRegion,
        Function.update_self, h.count, Nat.mod_eq_of_lt hk, and_self]
    · rw [hregion _ (by simpa only [ne_eq, RegionName.config.injEq] using hdk)
        (by simp only [ne_eq, reduceCtorEq, not_false_eq_true, implies_true])]
      exact h.config d (by omega)

theorem PortsListed.bar (h : PortsListed k m lists) (d i size : Nat) (isIoSpace : Bool)
    (hsize : size < 2 ^ 32) : PortsListed k (pciInitBar m d i size isIoSpace) lists := by
  have hregion : ∀ r, (∀ e j, r ≠ .bar e j) →
      (pciInitBar m d i size isIoSpace).iobus.region r = m.iobus.region r := by
    intro r hbar
    simp only [pciInitBar, regionInit, Function.update_of_ne (hbar d i)]
  refine ⟨h.settled.bar d i size isIoSpace hsize, h.pio, h.pci, h.count, ?_, ?_, ?_, ?_⟩
  · rw [hregion _ (by simp only [ne_eq, reduceCtorEq, not_false_eq_true, implies_true])]
    exact h.serial
  · rw [hregion _ (by simp only [ne_eq, reduceCtorEq, not_false_eq_true, implies_true])]
    exact h.data
  · rw [hregion _ (by simp only [ne_eq, reduceCtorEq, not_false_eq_true, implies_true])]
    exact h.addr
  · intro e he
    rw [hregion _ (by simp only [ne_eq, reduceCtorEq, not_false_eq_true, implies_true])]
    exact h.config e he

/-- What the setup leaves, with no more devices than there are numbers. -/
theorem portsListed_of_setUp (h : Machine.SetUp k m) (hk : k ≤ 32) :
    ∃ lists, PortsListed k m lists := by
  induction h with
  | boot => exact ⟨_, portsListed_boot⟩
  | dev _ ih =>
      rcases ih (by omega) with ⟨lists, ih⟩
      exact ⟨_, ih.dev (by omega)⟩
  | bar d i size isIoSpace _ _ _ hsize ih =>
      rcases ih hk with ⟨lists, ih⟩
      exact ⟨lists, ih.bar d i size isIoSpace hsize⟩
  | header d offset data _ _ hcommand hbars ih =>
      rcases ih hk with ⟨lists, ih⟩
      exact ⟨lists, ih.settled.header d offset data hcommand hbars, ih.pio, ih.pci, ih.count,
        ih.serial, ih.data, ih.addr, ih.config⟩

end Setup

section Decode

variable {k : Nat} {m : Machine} {lists : BusName → List RegionName}

/-- The address names device `d` on mechanism #1. -/
def Selects (value d : Nat) : Prop :=
  enableBit value = 1 ∧ reserved value = 0 ∧ busNum value = 0 ∧ funcNum value = 0 ∧
    devNum value = d

/-- The ports' offset goes where the latch is clear. -/
theorem or_offset (value o : Nat) (hlow : value % 4 = 0) (ho : o < 4) :
    value ||| o = value + o := by
  have hor := Nat.two_pow_add_eq_or_of_lt (i := 2) ho (value / 4)
  rw [show 2 ^ 2 * (value / 4) = value by omega] at hor
  exact hor.symm

/-- The range of a device is the set of addresses that name it. -/
theorem covers_iff_selects (value o d : Nat) (hv : value < 2 ^ 32) (hlow : value % 4 = 0)
    (ho : o < 4) (hd : d < 32) :
    (2 ^ 31 + d * 2 ^ 11 ≤ value + o ∧ value + o < 2 ^ 31 + d * 2 ^ 11 + 256) ↔
      Selects value d := by
  unfold Selects enableBit reserved busNum funcNum devNum
  omega

/-- Inside the range of a device the offset is its register's. -/
theorem Selects.offset {value d : Nat} (h : Selects value d) (hv : value < 2 ^ 32)
    (hlow : value % 4 = 0) (o : Nat) :
    value + o - (2 ^ 31 + d * 2 ^ 11) = 4 * regNum value + o := by
  unfold Selects enableBit reserved busNum funcNum devNum at h
  unfold regNum
  omega

theorem regNum_lt (value : Nat) : regNum value < 64 :=
  Nat.mod_lt _ (by decide)

/-- Access to one of the four bytes of the first port, as wide as a port access
    can be. -/
def AddrAccess (acc : Access) : Prop :=
  0xcf8 ≤ acc.offset ∧ acc.offset < 0xcfc ∧ (acc.size = 1 ∨ acc.size = 2 ∨ acc.size = 4)

/-- Access to the second port that stays inside it. -/
def DataAccess (acc : Access) : Prop :=
  0xcfc ≤ acc.offset ∧ acc.offset + acc.size ≤ 0xd00 ∧
    (acc.size = 1 ∨ acc.size = 2 ∨ acc.size = 4)

theorem Access.at_offset (acc : Access) (o : Nat) : (acc.at o).offset = o := by
  cases acc <;> rfl

theorem Access.at_size (acc : Access) (o : Nat) : (acc.at o).size = acc.size := by
  cases acc <;> rfl

/-- A port access to the region it starts in, if it ends there too. -/
theorem PortsListed.pio_ends (h : PortsListed k m lists) (port size : Nat) (hlo : 0xcf8 ≤ port)
    (hhi : port < 0xd00) (hpos : 0 < size) (hsize : size ≤ 4) :
    EndsWith (fun fuel => busHandleIo fuel m.iobus .pio port size)
      (if port < 0xcfc then if port + size ≤ 0xcfc then some (.pciAddr, port - 0xcf8) else none
        else if port + size ≤ 0xd00 then some (.pciData, port - 0xcfc) else none) := by
  rcases h.serial with ⟨hserial, hserialLen⟩
  rcases h.data with ⟨hdata, hdataLen⟩
  rcases h.addr with ⟨haddr, haddrLen⟩
  have hends := h.settled.listing.handle .pio port size
  -- The walk passes over the serial port and stops at the first that covers.
  have hcserial : (m.iobus.region .serial).covers port = false := by
    rw [Bool.eq_false_iff, ne_eq, Region.covers_iff _ (by omega) (by omega)]
    omega
  by_cases hport : port < 0xcfc
  · have hcdata : (m.iobus.region .pciData).covers port = false := by
      rw [Bool.eq_false_iff, ne_eq, Region.covers_iff _ (by omega) (by omega)]
      omega
    have hcaddr : (m.iobus.region .pciAddr).covers port = true := by
      rw [Region.covers_iff _ (by omega) (by omega)]
      omega
    have hlast := (m.iobus.region .pciAddr).last_eq (by omega) (by omega)
    simp only [h.pio, List.find?_cons, hcserial, hcdata, hcaddr, reached, hlast, haddr,
      haddrLen] at hends
    rw [if_pos hport]
    -- An access that runs out of the region reaches nobody.
    by_cases hend : port + size ≤ 0xcfc
    · rw [if_pos (by omega)] at hends
      rw [if_pos hend]
      exact hends
    · rw [if_neg (by omega)] at hends
      rw [if_neg hend]
      exact hends
  · have hcdata : (m.iobus.region .pciData).covers port = true := by
      rw [Region.covers_iff _ (by omega) (by omega)]
      omega
    have hlast := (m.iobus.region .pciData).last_eq (by omega) (by omega)
    simp only [h.pio, List.find?_cons, hcserial, hcdata, reached, hlast, hdata,
      hdataLen] at hends
    rw [if_neg hport]
    by_cases hend : port + size ≤ 0xd00
    · rw [if_pos (by omega)] at hends
      rw [if_pos hend]
      exact hends
    · rw [if_neg (by omega)] at hends
      rw [if_neg hend]
      exact hends

/-- The address of a device that is there leads to it. -/
theorem PortsListed.pci_ends (h : PortsListed k m lists) (hk : k ≤ 32) {value d : Nat}
    (hv : value < 2 ^ 32) (hlow : value % 4 = 0) (o size : Nat) (hpos : 0 < size)
    (hfit : o + size ≤ 4) (hsel : Selects value d) (hd : d < k) :
    EndsWith (fun fuel => busHandleIo fuel m.iobus .pci (value ||| o) size)
      (some (.config d, 4 * regNum value + o)) := by
  have hor := or_offset value o hlow (by omega)
  rcases h.config d hd with ⟨hbase, hlen⟩
  have hin := (covers_iff_selects value o d hv hlow (by omega) (by omega)).mpr hsel
  have hlast := (covers_iff_selects value (o + size - 1) d hv hlow (by omega) (by omega)).mpr hsel
  -- No other device's range has this address.
  have honly : ∀ q ∈ lists .pci, (m.iobus.region q).covers (value ||| o) = true →
      q = .config d := by
    intro q hq hcov
    rcases (h.pci q).mp hq with ⟨e, he, rfl⟩
    rcases h.config e he with ⟨hbase', hlen'⟩
    rw [Region.covers_iff _ (by omega) (by omega), hor, hbase', hlen'] at hcov
    have hsel' := (covers_iff_selects value o e hv hlow (by omega) (by omega)).mp hcov
    rw [← hsel.2.2.2.2, ← hsel'.2.2.2.2]
  rcases h.settled.listing.handled ((h.pci _).mpr ⟨d, hd, rfl⟩) (value ||| o) size hpos
    (by rw [hbase, hor]; exact hin.1) (by rw [hbase, hlen, hor]; omega)
    (by rw [hbase, hlen]; omega) honly with ⟨fuel, hfuel⟩
  have hends := h.settled.listing.handle .pci (value ||| o) size
  rw [← hends.2 fuel _ hfuel, hbase, hor, hsel.offset hv hlow o] at hends
  rw [hor]
  exact hends

/-- Any other address leads nowhere. -/
theorem PortsListed.pci_ends_none (h : PortsListed k m lists) (hk : k ≤ 32) {value : Nat}
    (hv : value < 2 ^ 32) (hlow : value % 4 = 0) (o size : Nat) (ho : o < 4)
    (hsel : ∀ d, d < k → ¬ Selects value d) :
    EndsWith (fun fuel => busHandleIo fuel m.iobus .pci (value ||| o) size) none := by
  have hends := h.settled.listing.handle .pci (value ||| o) size
  have hnone : (lists .pci).find? (fun r => (m.iobus.region r).covers (value ||| o)) = none := by
    refine List.find?_eq_none.mpr ?_
    intro r hr hcov
    rcases (h.pci r).mp hr with ⟨d, hd, rfl⟩
    rcases h.config d hd with ⟨hbase, hlen⟩
    rw [Region.covers_iff _ (by omega) (by omega), or_offset value o hlow ho, hbase, hlen] at hcov
    exact hsel d hd ((covers_iff_selects value o d hv hlow ho (by omega)).mp hcov)
  rw [hnone] at hends
  exact hends

end Decode

section Ports

variable {k : Nat} {s : ConfigPorts} {lists : BusName → List RegionName}

/-- What the latch can hold: 32 bits, the two low ones clear. -/
def Latched (value : Nat) : Prop :=
  value < 2 ^ 32 ∧ value % 4 = 0

theorem latched_addrIo {value : Nat} (h : Latched value) (acc : Access) :
    Latched (pcibusAddrIo value acc).1 := by
  cases acc with
  | read offset size =>
      exact ⟨Nat.lt_of_le_of_lt (Nat.div_mul_le_self _ _) h.1, Nat.mul_mod_left _ _⟩
  | write offset data =>
      have hlt := ((addressBytes value).write offset data).le_lt 0 4
      exact ⟨Nat.lt_of_le_of_lt (Nat.div_mul_le_self _ _) hlt, Nat.mul_mod_left _ _⟩

/-- An access to the first port changes nothing but the latch. -/
theorem addr_ends (h : PortsListed k s.machine lists) (hv : Latched s.pciAddr) (acc : Access)
    (hacc : AddrAccess acc) :
    ∃ s' data, EndsWith (fun fuel => iobusHandlePio fuel s acc) (s', data) ∧
      s'.machine = s.machine ∧ s'.calls = s.calls ∧ Latched s'.pciAddr := by
  rcases hacc with ⟨hlo, hhi, hsize⟩
  have hpio := h.pio_ends acc.offset acc.size hlo (by omega) (by omega) (by omega)
  rw [if_pos hhi] at hpio
  unfold iobusHandlePio
  by_cases hend : acc.offset + acc.size ≤ 0xcfc
  · rw [if_pos hend] at hpio
    exact ⟨_, _, hpio.bind (.const _), rfl, rfl, latched_addrIo hv _⟩
  · -- An access that runs out of the port is dropped.
    rw [if_neg hend] at hpio
    exact ⟨_, _, hpio.bind (.const _), rfl, rfl, hv⟩

/-- The handler of a configuration space returns, whatever the access. -/
theorem configIo_ends (h : PortsListed k s.machine lists) (d : Nat) (acc : Access) :
    ∃ res, EndsWith (fun fuel => pciConfigHandleIo fuel s.machine d acc) res := by
  cases acc with
  | read offset size => exact ⟨_, .const _⟩
  | write offset data =>
      rcases write_ends ⟨d, offset, data⟩ h.settled.barListing
        (relinksNothing_of_unmapped h.settled.barListing h.settled.unmapped _) with ⟨m', -, hm, -⟩
      exact ⟨_, hm.map _⟩

/-- The second port's handler calls the handler of the device the latch
    names. -/
theorem dataIo_ends (h : PortsListed k s.machine lists) (hk : k ≤ 32) (hv : Latched s.pciAddr)
    (acc : Access) (hpos : 0 < acc.size) (hfit : acc.offset + acc.size ≤ 4) {d : Nat}
    (hsel : Selects s.pciAddr d) (hd : d < k) :
    ∃ s' data, EndsWith (fun fuel => pcibusDataIo fuel s acc) (s', data) ∧
      s'.calls = s.calls ++ [⟨d, 4 * regNum s.pciAddr + acc.offset, acc.size⟩] := by
  have hpci := h.pci_ends hk hv.1 hv.2 acc.offset acc.size hpos hfit hsel hd
  rcases configIo_ends h d (acc.at (4 * regNum s.pciAddr + acc.offset)) with ⟨res, hres⟩
  unfold pcibusDataIo
  exact ⟨_, _, hpci.bind (hres.map _), rfl⟩

/-- It calls nothing when the latch names no device. -/
theorem dataIo_ends_none (h : PortsListed k s.machine lists) (hk : k ≤ 32)
    (hv : Latched s.pciAddr) (acc : Access) (hoff : acc.offset < 4)
    (hsel : ∀ d, d < k → ¬ Selects s.pciAddr d) :
    EndsWith (fun fuel => pcibusDataIo fuel s acc) (s, []) := by
  have hpci := h.pci_ends_none hk hv.1 hv.2 acc.offset acc.size hoff hsel
  unfold pcibusDataIo
  exact hpci.bind (.const _)

/-- A port access that stays inside the second port is given to its handler. -/
theorem data_ends (h : PortsListed k s.machine lists) (acc : Access) (hacc : DataAccess acc)
    {x : ConfigPorts × List UInt8}
    (hx : EndsWith (fun fuel => pcibusDataIo fuel s (acc.at (acc.offset - 0xcfc))) x) :
    EndsWith (fun fuel => iobusHandlePio fuel s acc) x := by
  rcases hacc with ⟨hlo, hhi, hsize⟩
  have hpio := h.pio_ends acc.offset acc.size (by omega) (by omega) (by omega) (by omega)
  rw [if_neg (by omega), if_pos hhi] at hpio
  generalize acc.offset - 0xcfc = o at hpio hx
  unfold iobusHandlePio
  exact hpio.bind hx

/-- The handlers called are the one the address names, once, at the register's
    offset, and no others. -/
structure ConfigDecoded (k value o size : Nat) (calls : List ConfigCall) : Prop where
  called_iff : ∀ d, (∃ c ∈ calls, c.d = d) ↔ Selects value d ∧ d < k
  once : ∀ c ∈ calls, calls = [c] ∧ c.offset = 4 * regNum value + o ∧ c.size = size ∧
    c.offset + c.size ≤ 256

theorem configDecoded_one {k value o size d : Nat} (hsel : Selects value d) (hd : d < k)
    (hfit : o + size ≤ 4) :
    ConfigDecoded k value o size [⟨d, 4 * regNum value + o, size⟩] := by
  have hreg := regNum_lt value
  refine ⟨fun e => ⟨?_, ?_⟩, ?_⟩
  · rintro ⟨c, hc, rfl⟩
    rw [List.mem_singleton.mp hc]
    exact ⟨hsel, hd⟩
  · rintro ⟨hsel', -⟩
    exact ⟨_, List.mem_singleton.mpr rfl, hsel.2.2.2.2.symm.trans hsel'.2.2.2.2⟩
  · intro c hc
    rw [List.mem_singleton.mp hc]
    exact ⟨rfl, rfl, rfl, by dsimp only; omega⟩

theorem configDecoded_none {k value o size : Nat} (hsel : ∀ d, d < k → ¬ Selects value d) :
    ConfigDecoded k value o size [] := by
  refine ⟨fun d => ⟨?_, ?_⟩, fun c hc => absurd hc List.not_mem_nil⟩
  · rintro ⟨c, hc, -⟩
    exact absurd hc List.not_mem_nil
  · rintro ⟨hs, hd⟩
    exact absurd hs (hsel d hd)

/-- What a sequence of accesses to the first port leaves: the machine as it was,
    no handler called, and an address in the latch. -/
structure Addressed (m : Machine) (s : ConfigPorts) : Prop where
  machine : s.machine = m
  calls : s.calls = []
  latched : Latched s.pciAddr

theorem addressed_step {m : Machine} {s' : ConfigPorts} (h : PortsListed k m lists)
    (hs : Addressed m s) (acc : Access) (hacc : AddrAccess acc) (hstep : PortStep acc s s') :
    Addressed m s' := by
  rcases addr_ends (hs.machine ▸ h) hs.latched acc hacc with ⟨t, data, hends, hm, hcalls, hv⟩
  rcases hstep with ⟨fuel, data', hfuel⟩
  have heq := congrArg Prod.fst (hends.2 fuel _ hfuel)
  dsimp only at heq
  rw [heq]
  exact ⟨hm.trans hs.machine, hcalls.trans hs.calls, hv⟩

end Ports

/-- For up to 32 devices and after any accesses to the first port: the latch has
    its two low bits clear, either port answers, and an access to the second
    calls the configuration handler of the device the latch names, once, or no
    handler at all. -/
theorem config_mechanism_decodes (k : Nat) (hk : k ≤ 32) (m : Machine) (hm : Machine.SetUp k m)
    (s : ConfigPorts)
    (hrun : Run PortStep (fun _ acc => AddrAccess acc) (ConfigPorts.start m) s) :
    s.pciAddr % 4 = 0 ∧ (∀ acc, AddrAccess acc → ∃ s', PortStep acc s s') ∧
      ∀ acc, DataAccess acc → (∃ s', PortStep acc s s') ∧
        ∀ s', PortStep acc s s' →
          ConfigDecoded k s.pciAddr (acc.offset - 0xcfc) acc.size s'.calls := by
  rcases portsListed_of_setUp hm hk with ⟨lists, h⟩
  have hs : Addressed m s := hrun.invariant (P := Addressed m)
    ⟨rfl, rfl, Nat.two_pow_pos 32, rfl⟩
    (fun t acc t' ht hacc hstep => addressed_step h ht acc hacc hstep)
  have hports : PortsListed k s.machine lists := hs.machine ▸ h
  refine ⟨hs.latched.2, fun acc hacc => ?_, fun acc hacc => ?_⟩
  · rcases addr_ends hports hs.latched acc hacc with ⟨s', data, hends, -⟩
    rcases hends.exists_fuel with ⟨fuel, hfuel⟩
    exact ⟨s', fuel, data, hfuel⟩
  · -- In the port the access is at its distance from the port's start.
    have hend := hacc.2.1
    have hsize := hacc.2.2
    have hoff := acc.at_offset (acc.offset - 0xcfc)
    have hwidth := acc.at_size (acc.offset - 0xcfc)
    by_cases hsel : ∃ d, d < k ∧ Selects s.pciAddr d
    · rcases hsel with ⟨d, hd, hsel⟩
      rcases dataIo_ends hports hk hs.latched (acc.at (acc.offset - 0xcfc)) (by omega) (by omega)
        hsel hd with ⟨t, data, hio, hcalls⟩
      have hends := data_ends hports acc hacc hio
      rcases hends.exists_fuel with ⟨fuel, hfuel⟩
      refine ⟨⟨t, fuel, data, hfuel⟩, ?_⟩
      rintro s' ⟨fuel', data', hfuel'⟩
      have heq : s' = t := congrArg Prod.fst (hends.2 fuel' _ hfuel')
      rw [heq, hcalls, hs.calls, hoff, hwidth]
      exact configDecoded_one hsel hd (by omega)
    · have hno : ∀ d, d < k → ¬ Selects s.pciAddr d := fun d hd hsel' => hsel ⟨d, hd, hsel'⟩
      have hends := data_ends hports acc hacc
        (dataIo_ends_none hports hk hs.latched _ (by omega) hno)
      rcases hends.exists_fuel with ⟨fuel, hfuel⟩
      refine ⟨⟨s, fuel, [], hfuel⟩, ?_⟩
      rintro s' ⟨fuel', data', hfuel'⟩
      have heq : s' = s := congrArg Prod.fst (hends.2 fuel' _ hfuel')
      rw [heq, hs.calls]
      exact configDecoded_none hno

/-- The ports of a machine with one device, its first register addressed. -/
def sampleAddressed : ConfigPorts :=
  { ConfigPorts.start sampleMachine with pciAddr := 2 ^ 31 }

theorem sampleAddressed_step :
    PortStep (.write 0xcf8 [0, 0, 0, 0x80]) (ConfigPorts.start sampleMachine) sampleAddressed :=
  ⟨4, [], rfl⟩

theorem config_mechanism_decodes_vendor :
    Machine.SetUp 1 sampleMachine ∧ Selects sampleAddressed.pciAddr 0 ∧
    ∀ s', PortStep (.read 0xcfe 2) sampleAddressed s' →
      ConfigDecoded 1 sampleAddressed.pciAddr 2 2 s'.calls :=
  ⟨sampleMachine_setUp, by unfold Selects; decide,
    ((config_mechanism_decodes 1 (by decide) sampleMachine sampleMachine_setUp sampleAddressed
      (.single _ (by unfold AddrAccess; decide) sampleAddressed_step)).2.2 (.read 0xcfe 2)
        (by unfold DataAccess; decide)).2⟩

end Microv
