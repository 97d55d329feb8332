import Microv.Core.ConfigPorts
import Microv.Core.Serial

/-!
# The Monitor

The devices on their buses: what `iobus.c` does with an exit of the guest once
`main.c` has set everything up.

An exit for a port carries a number of elements in the page shared with the
kernel, which are handed to the bus one after the other, each at the same port;
an exit for memory is one access. The bus finds a region, and the region's
handler is one of the functions of the other files. The guest is not the only
one to act: a byte may arrive on the standard input, and the event thread may
call the function of an event that was registered.

Everything that can go on for ever is bounded as the walks over the buses are,
a notification among it. `virtq_notify` calls through a pointer of the queue,
and is followed where it is the device's own handler.

What a variable holds that nobody assigned is an argument: the byte
`read_serial_reg` returns where no branch sets it, and the request buffer of
`virtio_blk_handle_output`.

## Main definitions

* `Monitor`: The devices, and the events KVM holds.
* `serialHandleIo`, `virtioPciIospaceHandleIo`: Two of the regions' handlers.
* `Monitor.handleIo`: The handler of a region.
* `Monitor.busAccess`: `bus_handle_io`, with the call of the handler.
* `Monitor.handlePio`, `Monitor.handleMmio`: The two kinds of exits.
* `MonitorEvent`, `monitorStep`: Who acts, and what it does.
-/

namespace Microv

/-- The serial port, the configuration ports with the PCI machine, the block
    device, and the events KVM holds for it. -/
structure Monitor where
  serial : Serial
  ports : ConfigPorts
  dev : PciDev
  ioevents : List KvmIoeventfd

/-- What is on the stack where variables are not initialised. -/
structure StackBytes where
  ret : UInt8
  req : ByteMem

/-- `serial_handle_io`. It looks at one byte, whatever the width. -/
def serialHandleIo (s : Serial) (ret : UInt8) : Access → Serial × List UInt8
  | .read port _ => ((readSerialReg s port ret).2, [(readSerialReg s port ret).1])
  | .write port data => (writeSerialReg s port (data.headD 0), [])

section

variable (mapper : Int → MemRegion) (L : PciLayout) (fuel : Nat)

/-- `virtq_notify` on the queue at `a`, if the handler returns in time. -/
def virtqNotifyWithin (req : ByteMem) (a : Nat) (d : PciDev) : Option PciDev :=
  if d.host.le (a + virtqEnabled) 2 = 0 then some d
  else if d.host.le (a + virtqHandleOutput) 8 = L.handler ∧ d.host.le (a + virtqDev) 8 = L.dev then
    let s := (handlerStep mapper)^[fuel] (enterHandler L d a req)
    if s.pc = .done then some (leaveHandler L d a s) else none
  -- A call of anything else.
  else none

/-- `virtio_pci_iospace_handle_io`. -/
def virtioPciIospaceHandleIo (req : ByteMem) (s : Monitor) :
    Access → Option (Monitor × List UInt8)
  | .read offset size =>
      let res := virtioPciIospaceRead L s.dev offset size
      some ({ s with dev := res.2 }, res.1)
  | .write offset data =>
      let res := virtioPciIospaceWrite mapper L s.dev offset data
      let dev :=
        match res.2 with
        | none => some res.1
        | some a => virtqNotifyWithin mapper L fuel req a res.1
      dev.map fun dev =>
        ({ s with
          dev := dev,
          ioevents := ioeventsAfter L (s.ports.machine.dev 0) s.dev dev s.ioevents }, [])

/-- `region->handle_io`, for each region of the program. The BARs that are not
    implemented have none. -/
def Monitor.handleIo (s : Monitor) (stack : StackBytes) :
    RegionName → Access → Option (Monitor × List UInt8)
  | .serial, acc =>
      let res := serialHandleIo s.serial stack.ret acc
      some ({ s with serial := res.1 }, res.2)
  | .pciAddr, acc =>
      let res := pcibusAddrIo s.ports.pciAddr acc
      some ({ s with ports := { s.ports with pciAddr := res.1 } }, res.2)
  | .pciData, acc =>
      (pcibusDataIo fuel s.ports acc).map fun res => ({ s with ports := res.1 }, res.2)
  | .config d, acc =>
      (pciConfigHandleIo fuel s.ports.machine d acc).map fun res =>
        ({ s with ports := { s.ports with machine := res.1 } }, res.2)
  | .bar d i, acc =>
      if d = 0 ∧ i = 0 then virtioPciIospaceHandleIo mapper L fuel stack.req s acc else none

/-- `bus_handle_io`: the access is given to the handler, or dropped. -/
def Monitor.busAccess (bus : BusName) (s : Monitor) (stack : StackBytes) (acc : Access) :
    Option (Monitor × List UInt8) :=
  (busHandleIo fuel s.ports.machine.iobus bus acc.offset acc.size).bind fun
    | some (r, offset) => s.handleIo mapper L fuel stack r (acc.at offset)
    | none => some (s, [])

/-- `KVM_EXIT_IO_OUT`. -/
def kvmExitIoOut : Nat := 1

/-- `run->io`. -/
structure KvmRunIo where
  direction : Nat
  size : Nat
  port : Nat
  count : Nat
  dataOffset : Nat

/-- Where element `i` lies in the page. -/
def KvmRunIo.element (io : KvmRunIo) (i : Nat) : Nat := io.dataOffset + i * io.size

/-- The access element `i` stands for. -/
def KvmRunIo.access (io : KvmRunIo) (page : ByteMem) (i : Nat) : Access :=
  if io.direction = kvmExitIoOut then .write io.port (page.read (io.element i) io.size)
  else .read io.port io.size

/-- The rounds of `iobus_handle_pio` from element `i` on, `n` of them. -/
def Monitor.handlePioFrom (io : KvmRunIo) (stack : Nat → StackBytes) :
    Nat → Nat → Monitor → ByteMem → Option (Monitor × ByteMem)
  | 0, _, s, page => some (s, page)
  | n + 1, i, s, page =>
      (s.busAccess mapper L fuel .pio (stack i) (io.access page i)).bind fun res =>
        handlePioFrom io stack n (i + 1) res.1 (page.write (io.element i) res.2)

/-- `iobus_handle_pio`. -/
def Monitor.handlePio (io : KvmRunIo) (stack : Nat → StackBytes) (s : Monitor) (page : ByteMem) :
    Option (Monitor × ByteMem) :=
  Monitor.handlePioFrom mapper L fuel io stack io.count 0 s page

/-- `iobus_handle_mmio`, on `run->mmio` as the access it asks for. -/
def Monitor.handleMmio (acc : Access) (stack : StackBytes) (s : Monitor) :
    Option (Monitor × List UInt8) :=
  s.busAccess mapper L fuel .mmio stack acc

/-- Who acts: the guest through one of its exits, the user at the terminal, or
    the event thread, with an event registered for the queue at `a`. -/
inductive MonitorEvent where
  | pio (io : KvmRunIo) (page : ByteMem) (stack : Nat → StackBytes)
  | mmio (acc : Access) (stack : StackBytes)
  | stdin (data : UInt8)
  | ioevent (a : Nat) (req : ByteMem)

/-- One event. -/
def monitorStep (s : Monitor) : MonitorEvent → Option Monitor
  | .pio io page stack => (s.handlePio mapper L fuel io stack page).map Prod.fst
  | .mmio acc stack => (s.handleMmio mapper L fuel acc stack).map Prod.fst
  | .stdin data => some { s with serial := receiveSerialInput s.serial data }
  | .ioevent a req =>
      if a ∈ s.dev.events then
        (virtqNotifyWithin mapper L fuel req a s.dev).map fun dev => { s with dev := dev }
      else none

end

/-- One event that comes to an end. -/
def MonitorStep (mapper : Int → MemRegion) (L : PciLayout) (e : MonitorEvent) (s s' : Monitor) :
    Prop :=
  ∃ fuel, monitorStep mapper L fuel s e = some s'

end Microv
