import Microv.Core.VirtioBus

/-!
# Configuration Ports

The rest of `pci.c`: the two ports through which a guest reaches the
configuration space of a device.

A guest writes an address to the first port, where it is latched, and then
reads or writes a word of the device it names through the second. The latch is
a union of a 32-bit value and its bit-fields. It can be written a byte at a
time, and every access to it, a read as much as a write, clears the two bits of
`reg_offset`. The device is found by taking the latched value for an address on
the PCI bus, where each device has 256 bytes.

`calls` is not in the source. It records which configuration handlers were
called, so that what an access reaches can be compared with what the latch
says.

## Main definitions

* `ConfigPorts`: The machine with the latch.
* `pcibusAddrIo`, `pcibusDataIo`: The handlers of the two ports.
* `pciConfigHandleIo`: The handler of a device's configuration space.
* `iobusHandlePio`: A guest's access to a port.
* `regNum`, `funcNum`, `devNum`, `busNum`, `reserved`, `enableBit`: The
  bit-fields of an address.
-/

namespace Microv

/-- The same access at another offset. -/
def Access.at : Access → Nat → Access
  | .read _ size, offset => .read offset size
  | .write _ data, offset => .write offset data

section Address

-- The bit-fields of `union pci_config_address`, from the lowest up; the two
-- bits below `reg_num` are `reg_offset`.
def regNum (value : Nat) : Nat := value / 2 ^ 2 % 2 ^ 6

def funcNum (value : Nat) : Nat := value / 2 ^ 8 % 2 ^ 3

def devNum (value : Nat) : Nat := value / 2 ^ 11 % 2 ^ 5

def busNum (value : Nat) : Nat := value / 2 ^ 16 % 2 ^ 8

def reserved (value : Nat) : Nat := value / 2 ^ 24 % 2 ^ 7

def enableBit (value : Nat) : Nat := value / 2 ^ 31 % 2

/-- The bytes of the union. -/
def addressBytes (value : Nat) : ByteMem :=
  ByteMem.writeLE (fun _ => 0) 0 4 value

end Address

/-- A call of a configuration handler. -/
structure ConfigCall where
  d : Nat
  offset : Nat
  size : Nat
  deriving DecidableEq, Repr

/-- The machine, `pci_addr.value`, and the configuration handlers called. -/
structure ConfigPorts where
  machine : Machine
  pciAddr : Nat
  calls : List ConfigCall

/-- `pcibus_addr_io`: the value it leaves and the bytes it delivers. -/
def pcibusAddrIo (value : Nat) : Access → Nat × List UInt8
  | .read offset size => (value / 4 * 4, (addressBytes value).read offset size)
  | .write offset data => (((addressBytes value).write offset data).le 0 4 / 4 * 4, [])

/-- `pci_config_handle_io`. -/
def pciConfigHandleIo (fuel : Nat) (m : Machine) (d : Nat) : Access → Option (Machine × List UInt8)
  | .read offset size => some (m, (m.dev d).hdr.read offset size)
  | .write offset data => (pciConfigWrite fuel m d offset data).map fun m' => (m', [])

/-- `pcibus_data_io`. The address is looked up on the PCI bus as an access is
    on the other two. -/
def pcibusDataIo (fuel : Nat) (s : ConfigPorts) (acc : Access) :
    Option (ConfigPorts × List UInt8) :=
  (busHandleIo fuel s.machine.iobus .pci (s.pciAddr ||| acc.offset) acc.size).bind fun
    | some (.config d, offset) =>
        (pciConfigHandleIo fuel s.machine d (acc.at offset)).map fun res =>
          ({ s with machine := res.1, calls := s.calls ++ [⟨d, offset, acc.size⟩] }, res.2)
    | _ => some (s, [])

/-- `iobus_handle_pio`, for one access, whose offset is the port. What the
    other port regions do is not about the configuration space. -/
def iobusHandlePio (fuel : Nat) (s : ConfigPorts) (acc : Access) :
    Option (ConfigPorts × List UInt8) :=
  (busHandleIo fuel s.machine.iobus .pio acc.offset acc.size).bind fun
    | some (.pciAddr, offset) =>
        let res := pcibusAddrIo s.pciAddr (acc.at offset)
        some ({ s with pciAddr := res.1 }, res.2)
    | some (.pciData, offset) => pcibusDataIo fuel s (acc.at offset)
    | _ => some (s, [])

/-- A guest's access to a port is carried out, the walks it makes having
    ended. -/
def PortStep (acc : Access) (s s' : ConfigPorts) : Prop :=
  ∃ fuel data, iobusHandlePio fuel s acc = some (s', data)

/-- The ports before the guest runs. -/
def ConfigPorts.start (m : Machine) : ConfigPorts :=
  { machine := m, pciAddr := 0, calls := [] }

end Microv
