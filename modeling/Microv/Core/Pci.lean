import Mathlib.Data.Nat.Bitwise
import Microv.Core.Iobus
import Microv.Lib.Bytes

/-!
# PCI Configuration

`pci.c`: the configuration space of the devices, and the BARs whose regions a
guest maps and unmaps by writing to it.

A device's header is the bytes of its configuration space. Its BARs' regions
are linked into the bus lists of `iobus.c`, so the devices and the buses are
one state. A write to the command register maps and unmaps, a write to a BAR
moves its region, and every other write is stored and nothing else.

Unmapping walks a bus list, so the two functions that can reach it are bounded
as the walk is.

Everything before the guest runs is set up by the same functions the program
calls: the buses with the three fixed port regions, then any number of
devices, each with its BARs and the rest of its header.

## Main definitions

* `BusName`, `RegionName`: The buses and the regions of the program.
* `PciDevice`, `Machine`: A device, and all devices with the buses.
* `pciBarCommand`, `pciBarConfig`, `pciConfigWrite`: What a guest's write does.
* `pcibusRegisterDev`: Giving a device its number.
* `Machine.boot`, `pciDevInit`, `pciInitBar`: Setting up.
* `Machine.SetUp`: What the setup can leave.
-/

namespace Microv

/-- `pio_bus`, `mmio_bus` and `pci_bus`. -/
inductive BusName where
  | pio
  | mmio
  | pci
  deriving DecidableEq, Repr

/-- The regions: the two configuration ports, the serial port, and of each
    device its configuration space and its BARs. -/
inductive RegionName where
  | pciAddr
  | pciData
  | serial
  | config (d : Nat)
  | bar (d i : Nat)
  deriving DecidableEq, Repr

/-- `struct pci_dev`, its regions apart. -/
structure PciDevice where
  hdr : ByteMem
  barSize : Nat → Nat
  barActive : Nat → Bool
  barIsIoSpace : Nat → Bool

/-- The buses with their regions, and the devices. -/
structure Machine where
  iobus : Iobus BusName RegionName
  dev : Nat → PciDevice

/-- `PCI_COMMAND`. -/
def pciCommand : Nat := 4

/-- `PCI_BAR_OFFSET`. -/
def pciBarOffset (bar : Nat) : Nat := 0x10 + 4 * bar

/-- `~(bar_size - 1)` in 32 bits; zero for a BAR that is not implemented. -/
def barMask (size : Nat) : Nat := 2 ^ 32 - 1 - (size + (2 ^ 32 - 1)) % 2 ^ 32

/-- The bus a BAR's region belongs on. -/
def PciDevice.barBus (f : PciDevice) (i : Nat) : BusName :=
  if f.barIsIoSpace i then .pio else .mmio

/-- `PCI_COMMAND_IO` or `PCI_COMMAND_MEMORY`, whichever is for the BAR. -/
def PciDevice.enable (f : PciDevice) (i : Nat) : Bool :=
  (f.hdr.le pciCommand 2).testBit (if f.barIsIoSpace i then 0 else 1)

/-- Whether a BAR's region has a base, `bar_region[i].base & mask`. -/
def Machine.hasBase (m : Machine) (d i : Nat) : Bool :=
  (m.iobus.region (.bar d i)).base &&& barMask ((m.dev d).barSize i) != 0

/-- Setting `bar_active[i]`. -/
def Machine.setActive (m : Machine) (d i : Nat) (active : Bool) : Machine :=
  { m with
    dev := Function.update m.dev d
      { m.dev d with barActive := Function.update (m.dev d).barActive i active } }

/-- One round of the loop in `pci_bar_command`. -/
def pciBarCommandAt (fuel : Nat) (m : Machine) (d i : Nat) : Option Machine :=
  if (m.dev d).enable i then
    let iobus := if !(m.dev d).barActive i && m.hasBase d i then
        iobusRegisterRegion m.iobus ((m.dev d).barBus i) (.bar d i)
      else m.iobus
    some ({ m with iobus := iobus }.setActive d i true)
  else
    let iobus := if (m.dev d).barActive i && m.hasBase d i then
        iobusDeregisterRegion fuel m.iobus (.bar d i)
      else some m.iobus
    iobus.map fun iobus => { m with iobus := iobus }.setActive d i false

/-- The rounds of `pci_bar_command` from `i` on, `k` of them. -/
def pciBarCommandFrom (fuel : Nat) (d : Nat) : Nat → Nat → Machine → Option Machine
  | 0, _, m => some m
  | k + 1, i, m => (pciBarCommandAt fuel m d i).bind (pciBarCommandFrom fuel d k (i + 1))

/-- `pci_bar_command`. -/
def pciBarCommand (fuel : Nat) (m : Machine) (d : Nat) : Option Machine :=
  pciBarCommandFrom fuel d 6 0 m

/-- `pci_bar_config`. -/
def pciBarConfig (m : Machine) (d bar : Nat) : Machine :=
  let f := m.dev d
  let old := f.hdr.le (pciBarOffset bar) 4
  let new := (old &&& barMask (f.barSize bar)) ||| (f.barIsIoSpace bar).toNat
  { iobus :=
      { m.iobus with
        region := Function.update m.iobus.region (.bar d bar)
          { m.iobus.region (.bar d bar) with base := new } },
    dev := Function.update m.dev d { f with hdr := f.hdr.writeLE (pciBarOffset bar) 4 new } }

/-- A copy into a device's header. -/
def Machine.writeHdr (m : Machine) (d offset : Nat) (data : List UInt8) : Machine :=
  { m with
    dev := Function.update m.dev d
      { m.dev d with hdr := (m.dev d).hdr.write offset data } }

/-- `pci_config_write`. -/
def pciConfigWrite (fuel : Nat) (m : Machine) (d offset : Nat) (data : List UInt8) :
    Option Machine :=
  let m := m.writeHdr d offset data
  if offset = pciCommand then pciBarCommand fuel m d
  else if 0x10 ≤ offset ∧ offset ≤ 0x24 then some (pciBarConfig m d ((offset - 0x10) / 4))
  else some m

/-- The buses after `iobus_init`, `pcibus_init` and `create_serial_dev`. -/
def Machine.boot : Machine :=
  let init : Iobus BusName RegionName :=
    { head := fun _ => none, regionCount := fun _ => 0, region := fun _ => ⟨none, 0, 0, none⟩ }
  let addr := iobusRegisterRegion (regionInit init .pciAddr 0xcf8 4) .pio .pciAddr
  let data := iobusRegisterRegion (regionInit addr .pciData 0xcfc 4) .pio .pciData
  { iobus := iobusRegisterRegion (regionInit data .serial 0x3f8 8) .pio .serial,
    dev := fun _ => ⟨fun _ => 0, fun _ => 0, fun _ => false, fun _ => false⟩ }

/-- `pcibus_register_dev`, for the bus `b`. The device number is five bits of
    the address, and is taken from the count. -/
def pcibusRegisterDev {β ρ : Type} [DecidableEq β] [DecidableEq ρ] (s : Iobus β ρ) (b : β)
    (r : ρ) : Iobus β ρ :=
  iobusRegisterRegion (regionInit s r (2 ^ 31 + s.regionCount b % 32 * 2 ^ 11) 256) b r

/-- `pci_dev_init`. -/
def pciDevInit (m : Machine) (d : Nat) : Machine :=
  -- The `memset` clears the device's own regions with the rest of it.
  let clear : Iobus BusName RegionName :=
    { m.iobus with region := fun r =>
        match r with
        | .bar e i => if e = d then ⟨none, 0, 0, none⟩ else m.iobus.region (.bar e i)
        | r => m.iobus.region r }
  { iobus := pcibusRegisterDev clear .pci (.config d),
    dev := Function.update m.dev d ⟨fun _ => 0, fun _ => 0, fun _ => false, fun _ => false⟩ }

/-- `pci_init_bar`. -/
def pciInitBar (m : Machine) (d bar size : Nat) (isIoSpace : Bool) : Machine :=
  let f := m.dev d
  { iobus := regionInit m.iobus (.bar d bar) 0 size,
    dev := Function.update m.dev d
      { f with
        hdr := f.hdr.writeLE (pciBarOffset bar) 4 isIoSpace.toNat,
        barSize := Function.update f.barSize bar size,
        barIsIoSpace := Function.update f.barIsIoSpace bar isIoSpace } }

/-- What the setup leaves with `n` devices: the buses, devices added one after
    the other, and the BARs and the other header fields of any of them. -/
inductive Machine.SetUp : Nat → Machine → Prop where
  | boot : SetUp 0 Machine.boot
  | dev {n : Nat} {m : Machine} : SetUp n m → SetUp (n + 1) (pciDevInit m n)
  | bar {n : Nat} {m : Machine} (d i size : Nat) (isIoSpace : Bool) :
      SetUp n m → d < n → i < 6 → size < 2 ^ 32 → SetUp n (pciInitBar m d i size isIoSpace)
  | header {n : Nat} {m : Machine} (d offset : Nat) (data : List UInt8) :
      SetUp n m → d < n → Apart offset data.length pciCommand 2 →
      Apart offset data.length 0x10 0x18 → SetUp n (m.writeHdr d offset data)

/-- A guest's write to the configuration space of device `d`. -/
structure ConfigWrite where
  d : Nat
  offset : Nat
  data : List UInt8

/-- What the configuration ports forward: the write lies within one of the 64
    words of a device that is there. -/
def ConfigWrite.Forwarded (n : Nat) (w : ConfigWrite) : Prop :=
  w.d < n ∧ w.offset < 256 ∧ 0 < w.data.length ∧ w.offset % 4 + w.data.length ≤ 4

instance ConfigWrite.decidableForwarded (n : Nat) (w : ConfigWrite) : Decidable (w.Forwarded n) :=
  inferInstanceAs (Decidable (_ ∧ _ ∧ _ ∧ _))

/-- The write is carried out, the walks it makes having ended. -/
def ConfigStep (n : Nat) (w : ConfigWrite) (m m' : Machine) : Prop :=
  w.Forwarded n ∧ ∃ fuel, pciConfigWrite fuel m w.d w.offset w.data = some m'

end Microv
