import Microv.Core.Pci
import Microv.Core.VirtioPci

/-!
# A Device on the Bus

The rest of `virtio-pci.c`: the configuration header `virtio_pci_init` fills,
and the ioeventfd that `virtio_pci_init_ioeventfd` registers when a queue is
enabled, so that a doorbell need not go through the bus.

Both paths of a doorbell are here in one state. The bus finds the region of
BAR 0 and hands the register window an offset, as `VirtioPci` has it; KVM
compares the address, the length and the value with the events registered.
The event's address is computed once, from the BAR register, the notify
capability and the queue, all of which a guest may write.

KVM refuses an event that agrees with one it has in address, length and value,
and the list stays as it is. `dev->notify_cap` points into the header and is
set once; the model reads the capability where it points. The device is the
first one on the PCI bus.

## Main definitions

* `virtioPciInit`: The header of the device.
* `KvmIoeventfd`, `virtioPciInitIoeventfd`: The event of a queue.
* `VirtioBus`, `VirtioBusEvent`: The machine, the window and the events.
* `ReachesWindow`: The bus's way to the window.
-/

namespace Microv

/-- `virtio_pci_set_cap`, from `next` on: the capabilities follow one another,
    and the notify and access capabilities are four bytes longer. -/
def virtioPciSetCap (m : Machine) (next : Nat) : List (Nat × Nat × Nat) → Machine
  | [] => m
  | (cfgType, offset, length) :: caps =>
      let capLen := if cfgType = 2 ∨ cfgType = 5 then 20 else 16
      let after := (next + capLen) % 256
      -- `cap_vndr`, `cap_next`, `cap_len`, `cfg_type`, `bar` and padding.
      let cap := [9, UInt8.ofNat after, UInt8.ofNat capLen, UInt8.ofNat cfgType, 0, 0, 0, 0]
      virtioPciSetCap
        (m.writeHdr 0 next (cap ++ ByteMem.leBytes 4 offset ++ ByteMem.leBytes 4 length))
        after caps

/-- The capabilities: type, offset in the window and length. -/
def virtioPciCaps (devCfgLen : Nat) : List (Nat × Nat × Nat) :=
  [(1, 0, 56), (2, regNotifyCfg, 4), (3, regIsrCfg, 4), (4, regDevCfg, devCfgLen), (5, 0, 0)]

/-- `virtio_pci_init` on the first device, with the length `virtio_pci_set_dev_cfg`
    puts into the device's capability. -/
def virtioPciInit (m : Machine) (deviceId classCode irqLine devCfgLen : Nat) : Machine :=
  let m := pciDevInit m 0
  let m := m.writeHdr 0 0 (ByteMem.leBytes 2 0x1af4)
  let m := m.writeHdr 0 0x34 [0x40]
  let m := m.writeHdr 0 0x0e [0]
  let m := m.writeHdr 0 0x3d [1]
  let m := m.writeHdr 0 6 (ByteMem.leBytes 2 0x18)
  let m := m.writeHdr 0 2 (ByteMem.leBytes 2 deviceId)
  let m := m.writeHdr 0 8 (ByteMem.leBytes 4 (classCode * 256))
  let m := m.writeHdr 0 0x3c [UInt8.ofNat irqLine]
  let m := pciInitBar m 0 0 0x100 false
  virtioPciSetCap m 0x40 (virtioPciCaps devCfgLen)

/-- What `ioeventfd_add_event` registers with KVM, and the queue the callback
    is called on. -/
structure KvmIoeventfd where
  addr : Nat
  len : Nat
  datamatch : Nat
  fnPtr : Nat
  deriving DecidableEq, Repr

/-- Where the notify capability lies in the header. -/
def notifyCap : Nat := 0x50

/-- `cap.bar` of the notify capability. -/
def PciDevice.notifyBar (f : PciDevice) : Nat := f.hdr.le (notifyCap + 4) 1

/-- `cap.offset` of the notify capability. -/
def PciDevice.notifyOffset (f : PciDevice) : Nat := f.hdr.le (notifyCap + 8) 4

/-- `notify_off_multiplier` of the notify capability. -/
def PciDevice.notifyMultiplier (f : PciDevice) : Nat := f.hdr.le (notifyCap + 16) 4

/-- `virtio_pci_init_ioeventfd`: the event of queue `vqn`. The offset is
    computed in 32 bits. -/
def virtioPciInitIoeventfd (L : PciLayout) (f : PciDevice) (h : ByteMem) (vqn : Nat) :
    KvmIoeventfd :=
  let base := f.hdr.le (pciBarOffset f.notifyBar) 4
  let notifyOff := (loadVirtq h (vqAt L h vqn)).info.notifyOff
  let offset := (f.notifyOffset + f.notifyMultiplier * notifyOff) % 2 ^ 32
  { addr := base + offset, len := 2, datamatch := vqn, fnPtr := vqAt L h vqn }

/-- The `KVM_IOEVENTFD` call of `ioeventfd_add_event`. -/
def kvmIoeventfd (es : List KvmIoeventfd) (e : KvmIoeventfd) : List KvmIoeventfd :=
  if es.any fun e' => e'.addr = e.addr ∧ e'.len = e.len ∧ e'.datamatch = e.datamatch then es
  else es ++ [e]

/-- The machine, the device behind BAR 0 of its first PCI device, and the
    events KVM holds for it. -/
structure VirtioBus where
  machine : Machine
  dev : PciDev
  ioevents : List KvmIoeventfd

/-- What a guest does, and what the event thread does for it. -/
inductive VirtioBusEvent where
  -- A write to configuration space.
  | config (w : ConfigWrite)
  -- An access at a guest-physical address, which is `acc` in the window.
  | mmio (addr : Nat) (acc : Access)
  -- The callback of an event, for the queue at `a`.
  | ioevent (a : Nat)

/-- The events after the device went from `d` to `d'`: if a queue was enabled
    on the way, the one selected has its event registered. -/
def ioeventsAfter (L : PciLayout) (f : PciDevice) (d d' : PciDev) (es : List KvmIoeventfd) :
    List KvmIoeventfd :=
  if d'.events = d.events then es
  else kvmIoeventfd es (virtioPciInitIoeventfd L f d'.host (queueSelect L d'.host))

/-- The offset at which an access to `addr` reaches BAR 0, if it does. -/
def ReachesWindow (m : Machine) (addr size o : Nat) : Prop :=
  ∃ fuel, busHandleIo fuel m.iobus .mmio addr size = some (some (.bar 0 0, o))

end Microv
