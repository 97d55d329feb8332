import Microv.Core.Memory

/-!
# Packed Virtqueues

`virtqueue.c`: the device's side of one packed ring.

A queue keeps the host pointer to its descriptor ring, the position it will
look at next and a wrap counter. A descriptor is available when its AVAIL bit
equals the wrap counter and its USED bit differs from it; taking one advances
the position, and passing the end of the ring flips the counter.

Descriptors live in guest memory, so they are read at the moment the code
reads them, from a `ByteMem` of host memory.

## Main definitions

* `VirtqInfo`, `Virtq`: The two structures of `virtqueue.h`.
* `VringPackedDesc`: A descriptor, with its 16-byte image.
* `virtqInit`: Setting up a queue.
* `virtqEnable`: Translating the addresses the guest programmed.
* `virtqCheckNext`: Testing a descriptor's NEXT flag.
* `virtqGetAvail`: Taking the next available descriptor.
-/

namespace Microv

/-- `struct virtq_info`. -/
structure VirtqInfo where
  size : Nat
  msixVector : Nat
  enable : Nat
  notifyOff : Nat
  descAddr : Nat
  driverAddr : Nat
  deviceAddr : Nat
  deriving DecidableEq, Repr

/-- `struct virtq`. Pointers are host addresses. -/
structure Virtq where
  descRing : Nat
  deviceEvent : Nat
  guestEvent : Nat
  info : VirtqInfo
  dev : Nat
  nextAvailIdx : Nat
  usedWrapCount : Bool
  handleOutput : Nat
  deriving DecidableEq, Repr

/-- `struct vring_packed_desc`. -/
structure VringPackedDesc where
  addr : Nat
  len : Nat
  id : Nat
  flags : Nat
  deriving DecidableEq, Repr

-- The bit numbers of `VRING_DESC_F_NEXT`, `VRING_PACKED_DESC_F_AVAIL` and
-- `VRING_PACKED_DESC_F_USED`.
def descNextBit : Nat := 0

def descAvailBit : Nat := 7

def descUsedBit : Nat := 15

namespace VringPackedDesc

-- The fields of the descriptor at `a`.
def addrAt (m : ByteMem) (a : Nat) : Nat := m.le a 8

def lenAt (m : ByteMem) (a : Nat) : Nat := m.le (a + 8) 4

def flagsAt (m : ByteMem) (a : Nat) : Nat := m.le (a + 14) 2

/-- The descriptor at `a`. -/
def load (m : ByteMem) (a : Nat) : VringPackedDesc :=
  { addr := addrAt m a, len := lenAt m a, id := m.le (a + 12) 2, flags := flagsAt m a }

/-- The 16 bytes of a descriptor. -/
def bytes (d : VringPackedDesc) : List UInt8 :=
  ByteMem.leBytes 8 d.addr ++ ByteMem.leBytes 4 d.len ++ ByteMem.leBytes 2 d.id
    ++ ByteMem.leBytes 2 d.flags

end VringPackedDesc

/-- `virtq_init`. -/
def virtqInit (vq : Virtq) (dev queueSize handleOutput : Nat) : Virtq :=
  { vq with
    info := { vq.info with size := queueSize, notifyOff := 0, enable := 0 },
    nextAvailIdx := 0,
    usedWrapCount := true,
    dev := dev,
    handleOutput := handleOutput }

/-- `virtq_enable`. -/
def virtqEnable (mapper : Int → MemRegion) (vq : Virtq) : Virtq :=
  if vq.info.enable ≠ 0 then vq
  else
    { vq with
      info := { vq.info with enable := 1 },
      descRing := getUserspaceAddr mapper vq.info.descAddr,
      guestEvent := getUserspaceAddr mapper vq.info.driverAddr,
      deviceEvent := getUserspaceAddr mapper vq.info.deviceAddr }

/-- `virtq_check_next`. -/
def virtqCheckNext (m : ByteMem) (desc : Nat) : Bool :=
  (VringPackedDesc.flagsAt m desc).testBit descNextBit

/-- `virtq_get_avail`: the descriptor's address, or `none` for `NULL`. -/
def virtqGetAvail (m : ByteMem) (vq : Virtq) : Option Nat × Virtq :=
  let desc := vq.descRing + 16 * vq.nextAvailIdx
  let flags := VringPackedDesc.flagsAt m desc
  let avail := flags.testBit descAvailBit
  let used := flags.testBit descUsedBit
  if avail != vq.usedWrapCount || used == vq.usedWrapCount then (none, vq)
  else
    let idx := (vq.nextAvailIdx + 1) % 2 ^ 16
    if idx ≥ vq.info.size then
      (some desc,
        { vq with nextAvailIdx := idx - vq.info.size, usedWrapCount := !vq.usedWrapCount })
    else (some desc, { vq with nextAvailIdx := idx })

end Microv
