import Microv.Core.VirtioBlk
import Microv.Lib.Run

/-!
# PCI Transport

`virtio-pci.c`: the register window a guest programs the block device
through.

The accesses are copies of guest-chosen width into the device structure, so
the structure is kept as the bytes it is: `host` is the monitor's memory, a
`PciLayout` says where the parts of `struct virtio_blk_dev` lie in it, and a
field is what its bytes say. Pointers are read from memory where the code
reads them. What the guest's RAM is mapped to is a memory of its own.

The layout is that of the 64-bit System V ABI: `struct virtio_pci_config` is
72 bytes, 56 of common configuration, the interrupt status, the notify
register and the pointer to the device configuration; the feature words, two
capability pointers and the queue pointer follow, then the device
configuration and the queues, 80 bytes each, and last 32 bytes with the irqfd
and the pointer to the disk image.

`virtq_notify` calls through a pointer. The model follows it where it is the
block device's handler, called on a queue that belongs to the device.

The monitor has one address space. A copy through a pointer or an index the
guest has overwritten, and a store of the handler at a guest address outside
RAM, may land in the structure, in another of the monitor's, or nowhere. An
event is `Contained` when all its stores are where the model has them: the
copies inside the structure, the queue it acts on one of the array's, and the
handler, if it is called, the device's own and defined in each of its steps.
`PciOutcome` is the program: a contained event does what `PciStep` says, and
after any other the device may be in any state.

## Main definitions

* `PciLayout`: Where the parts of the device structure lie.
* `PciDev`: The device, as memory.
* `loadVirtq`: A queue as the bytes at its address.
* `virtqEnableAt`: `virtq_enable` on the queue at an address.
* `virtioPciIospaceWrite`, `virtioPciIospaceRead`: The two accesses.
* `VirtqNotifyAt`: `virtq_notify` on the queue at an address.
* `virtioBlkInitPci`: Setting the device up.
* `PciEvent`, `PciStep`: An access or a doorbell, and its effect.
* `Contained`, `PciOutcome`: Events the model follows, and the program.
-/

namespace Microv

/-- Where the parts of `struct virtio_blk_dev` lie: the structure itself, its
    `struct virtio_pci_config`, the device configuration of `len` bytes, and
    the array of `n` queues. The last three are values the set-up puts into
    it. -/
structure PciLayout where
  dev : Nat
  config : Nat
  devCfg : Nat
  len : Nat
  vq : Nat
  n : Nat
  -- The address of `virtio_blk_handle_output`.
  handler : Nat
  irqfd : Nat
  diskimg : Nat
  devCfg_eq : devCfg = config + 112
  len_ge : 8 ≤ len
  vq_ge : devCfg + len ≤ vq
  vq_lt : vq < 2 ^ 64
  dev_lt : dev < 2 ^ 64
  handler_lt : handler < 2 ^ 64
  irqfd_lt : irqfd < 2 ^ 32
  diskimg_lt : diskimg < 2 ^ 64
  len_lt : len < 0x100 - 64
  n_pos : 0 < n
  n_lt : n < 2 ^ 16

-- Offsets of the registers in the window, `VIRTIO_PCI_COMMON_*` first.
def regDfselect : Nat := 0

def regDf : Nat := 4

def regGfselect : Nat := 8

def regGf : Nat := 12

def regNumq : Nat := 18

def regQSelect : Nat := 22

def regQSize : Nat := 24

def regQEnable : Nat := 28

def regQNoff : Nat := 30

def regQDesclo : Nat := 32

def regQUsedhi : Nat := 52

def regIsrCfg : Nat := 56

def regNotifyCfg : Nat := 60

/-- `offsetof(struct virtio_pci_config, dev_cfg)`. -/
def regDevCfg : Nat := 64

-- The fields of `struct virtio_pci_dev` that follow, counted from `config`.
def devDeviceFeature : Nat := 72

def devGuestFeature : Nat := 80

def devVq : Nat := 104

/-- `sizeof(struct virtq)`. -/
def virtqSize : Nat := 80

-- Offsets of the fields of `struct virtq`, and of `info` among them.
def virtqDeviceEvent : Nat := 8

def virtqGuestEvent : Nat := 16

def virtqInfo : Nat := 24

def virtqMsixVector : Nat := 26

def virtqEnabled : Nat := 28

def virtqNotifyOff : Nat := 30

def virtqDescAddr : Nat := 32

def virtqDriverAddr : Nat := 40

def virtqDeviceAddr : Nat := 48

def virtqDev : Nat := 56

def virtqNextAvailIdx : Nat := 64

def virtqUsedWrapCount : Nat := 66

def virtqHandleOutput : Nat := 72

/-- `sizeof(struct virtq_info)`. -/
def virtqInfoSize : Nat := 32

/-- Where `struct virtio_blk_dev` goes on behind the queues: the first field is
    `irqfd`. -/
def PciLayout.tail (L : PciLayout) : Nat := L.vq + virtqSize * L.n

/-- The offset of `diskimg` there. -/
def tailDiskimg : Nat := 24

/-- The bytes from there to the end of the structure. -/
def tailSize : Nat := 32

/-- The device: the monitor's memory, the memory behind the guest's RAM, the
    image, the writes to `irqfd`, and the queues an ioevent was registered
    for. -/
structure PciDev where
  host : ByteMem
  guest : ByteMem
  img : Diskimg
  irqs : Nat
  events : List Nat

section

variable (L : PciLayout) (h : ByteMem)

-- Fields of the common configuration, the notify register, and the two
-- pointers the code follows.
def numQueues : Nat := h.le (L.config + regNumq) 2

def queueSelect : Nat := h.le (L.config + regQSelect) 2

def queueEnable : Nat := h.le (L.config + regQEnable) 2

def notifyVqn : Nat := h.le (L.config + regNotifyCfg) 2

def devCfgPtr : Nat := h.le (L.config + regDevCfg) 8

def vqPtr : Nat := h.le (L.config + devVq) 8

/-- `&dev->vq[i]`. -/
def vqAt (i : Nat) : Nat := vqPtr L h + virtqSize * i

end

/-- The queue at `a`. -/
def loadVirtq (h : ByteMem) (a : Nat) : Virtq :=
  { descRing := h.le a 8,
    deviceEvent := h.le (a + virtqDeviceEvent) 8,
    guestEvent := h.le (a + virtqGuestEvent) 8,
    info :=
      { size := h.le (a + virtqInfo) 2,
        msixVector := h.le (a + virtqMsixVector) 2,
        enable := h.le (a + virtqEnabled) 2,
        notifyOff := h.le (a + virtqNotifyOff) 2,
        descAddr := h.le (a + virtqDescAddr) 8,
        driverAddr := h.le (a + virtqDriverAddr) 8,
        deviceAddr := h.le (a + virtqDeviceAddr) 8 },
    dev := h.le (a + virtqDev) 8,
    nextAvailIdx := h.le (a + virtqNextAvailIdx) 2,
    usedWrapCount := h.le (a + virtqUsedWrapCount) 1 != 0,
    handleOutput := h.le (a + virtqHandleOutput) 8 }

/-- `virtq_enable` on the queue at `a`. -/
def virtqEnableAt (mapper : Int → MemRegion) (h : ByteMem) (a : Nat) : ByteMem :=
  if h.le (a + virtqEnabled) 2 ≠ 0 then h
  else
    let vq := virtqEnable mapper (loadVirtq h a)
    (((h.writeLE (a + virtqEnabled) 2 vq.info.enable).writeLE a 8 vq.descRing).writeLE
      (a + virtqGuestEvent) 8 vq.guestEvent).writeLE (a + virtqDeviceEvent) 8 vq.deviceEvent

/-- `virtio_pci_cmd_select_device_feature`. -/
def virtioPciCmdSelectDeviceFeature (L : PciLayout) (h : ByteMem) : ByteMem :=
  let select := h.le (L.config + regDfselect) 4
  let feature := h.le (L.config + devDeviceFeature) 8
  h.writeLE (L.config + regDf) 4
    (if select = 0 then feature else if select = 1 then feature / 2 ^ 32 else 0)

/-- `virtio_pci_cmd_write_guest_feature`. -/
def virtioPciCmdWriteGuestFeature (L : PciLayout) (h : ByteMem) : ByteMem :=
  let select := h.le (L.config + regGfselect) 4
  let feature := h.le (L.config + regGf) 4
  let old := h.le (L.config + devGuestFeature) 8
  if select = 0 then h.writeLE (L.config + devGuestFeature) 8 (old ||| feature)
  else if select = 1 then
    h.writeLE (L.config + devGuestFeature) 8 (old ||| feature * 2 ^ 32)
  else h

/-- `virtio_pci_cmd_select_virtq`. -/
def virtioPciCmdSelectVirtq (L : PciLayout) (h : ByteMem) : ByteMem :=
  let select := queueSelect L h
  if select < numQueues L h then
    h.write (L.config + regQSize) (h.read (vqAt L h select + virtqInfo) virtqInfoSize)
  else h.writeLE (L.config + regQSize) 2 0

/-- `virtio_pci_cmd_enable_virtq`, with the event `virtio_pci_init_ioeventfd`
    registers for the queue. -/
def virtioPciCmdEnableVirtq (mapper : Int → MemRegion) (L : PciLayout) (d : PciDev) : PciDev :=
  let a := vqAt L d.host (queueSelect L d.host)
  { d with host := virtqEnableAt mapper d.host a, events := d.events ++ [a] }

/-- The switch of `virtio_pci_iospace_write`, after the copy. The second
    component is the queue `virtq_notify` is called on, if it is. -/
def virtioPciCommand (mapper : Int → MemRegion) (L : PciLayout) (d : PciDev) (offset : Nat)
    (data : List UInt8) : PciDev × Option Nat :=
  if offset = regDfselect then
    ({ d with host := virtioPciCmdSelectDeviceFeature L d.host }, none)
  else if offset = regGfselect then
    ({ d with host := virtioPciCmdWriteGuestFeature L d.host }, none)
  else if offset = regQSelect then
    ({ d with host := virtioPciCmdSelectVirtq L d.host }, none)
  else if offset = regQEnable then
    (if queueEnable L d.host ≠ 0 then virtioPciCmdEnableVirtq mapper L d else d, none)
  else if regQSize ≤ offset ∧ offset ≤ regQUsedhi then
    let select := queueSelect L d.host
    if select < numQueues L d.host then
      let info := vqAt L d.host select + virtqInfo
      ({ d with host := d.host.write (info + (offset - regQSize)) data }, none)
    else (d, none)
  else if offset = regNotifyCfg then
    (d, some (vqAt L d.host (notifyVqn L d.host)))
  else (d, none)

/-- `virtio_pci_iospace_write`. -/
def virtioPciIospaceWrite (mapper : Int → MemRegion) (L : PciLayout) (d : PciDev) (offset : Nat)
    (data : List UInt8) : PciDev × Option Nat :=
  if offset < regDevCfg then
    virtioPciCommand mapper L { d with host := d.host.write (L.config + offset) data } offset data
  else
    ({ d with host := d.host.write (devCfgPtr L d.host + (offset - regDevCfg)) data }, none)

/-- `virtio_pci_iospace_read`: the bytes the guest gets, and the device. -/
def virtioPciIospaceRead (L : PciLayout) (d : PciDev) (offset size : Nat) :
    List UInt8 × PciDev :=
  if offset < regDevCfg then
    (d.host.read (L.config + offset) size,
      if offset = regIsrCfg then { d with host := d.host.writeLE (L.config + regIsrCfg) 4 0 }
      else d)
  else (d.host.read (devCfgPtr L d.host + (offset - regDevCfg)) size, d)

/-- The handler entered on the queue at `a`. What `req` holds is whatever was
    on the stack. -/
def enterHandler (L : PciLayout) (d : PciDev) (a : Nat) (req : ByteMem) : Handler :=
  { vq := loadVirtq d.host a, mem := d.guest, img := d.img,
    isrStatus := d.host.le (L.config + regIsrCfg) 4, irqs := d.irqs, req := req, pc := .getHead,
    taken := [], log := [] }

/-- The device once the handler returned from a defined run: the queue's
    position and the interrupt status are in the structure. -/
def leaveHandler (L : PciLayout) (d : PciDev) (a : Nat) (s : Handler) : PciDev :=
  { d with
    host := ((d.host.writeLE (a + virtqNextAvailIdx) 2 s.vq.nextAvailIdx).writeLE
      (a + virtqUsedWrapCount) 1 (if s.vq.usedWrapCount then 1 else 0)).writeLE
      (L.config + regIsrCfg) 4 s.isrStatus,
    guest := s.mem, img := s.img, irqs := s.irqs }

/-- `virtq_notify` on the queue at `a`. -/
inductive VirtqNotifyAt (mapper : Int → MemRegion) (L : PciLayout) (a : Nat) :
    PciDev → PciDev → Prop where
  | disabled (d : PciDev) : d.host.le (a + virtqEnabled) 2 = 0 → VirtqNotifyAt mapper L a d d
  | handled (d : PciDev) (req : ByteMem) (k : Nat) :
      d.host.le (a + virtqEnabled) 2 ≠ 0 → d.host.le (a + virtqHandleOutput) 8 = L.handler →
      d.host.le (a + virtqDev) 8 = L.dev →
      ((handlerStep mapper)^[k] (enterHandler L d a req)).pc = .done →
      VirtqNotifyAt mapper L a d
        (leaveHandler L d a ((handlerStep mapper)^[k] (enterHandler L d a req)))

/-- An access to the window. -/
inductive Access where
  | read (offset size : Nat)
  | write (offset : Nat) (data : List UInt8)

/-- The offset of an access. -/
def Access.offset : Access → Nat
  | .read offset _ => offset
  | .write offset _ => offset

/-- The width of an access. -/
def Access.size : Access → Nat
  | .read _ size => size
  | .write _ data => data.length

/-- What `bus_handle_io` forwards to BAR 0: the width is one a guest
    instruction has, and the access ends inside the BAR's `0x100` bytes. -/
def Access.Forwarded (acc : Access) : Prop :=
  (acc.size = 1 ∨ acc.size = 2 ∨ acc.size = 4 ∨ acc.size = 8) ∧ acc.offset + acc.size ≤ 0x100

instance (acc : Access) : Decidable acc.Forwarded :=
  inferInstanceAs (Decidable ((_ ∨ _ ∨ _ ∨ _) ∧ _))

/-- `virtio_pci_iospace_handle_io`. -/
inductive IospaceIo (mapper : Int → MemRegion) (L : PciLayout) : Access → PciDev → PciDev → Prop
    where
  | read (d : PciDev) (offset size : Nat) :
      IospaceIo mapper L (.read offset size) d (virtioPciIospaceRead L d offset size).2
  | write (d : PciDev) (offset : Nat) (data : List UInt8) :
      (virtioPciIospaceWrite mapper L d offset data).2 = none →
      IospaceIo mapper L (.write offset data) d (virtioPciIospaceWrite mapper L d offset data).1
  | notify (d d' : PciDev) (offset : Nat) (data : List UInt8) (a : Nat) :
      (virtioPciIospaceWrite mapper L d offset data).2 = some a →
      VirtqNotifyAt mapper L a (virtioPciIospaceWrite mapper L d offset data).1 d' →
      IospaceIo mapper L (.write offset data) d d'

/-- `virtq_init` on the queue at `a`. -/
def virtqInitAt (h : ByteMem) (a dev queueSize handleOutput : Nat) : ByteMem :=
  ((((((h.writeLE (a + virtqInfo) 2 queueSize).writeLE (a + virtqNotifyOff) 2 0).writeLE
    (a + virtqEnabled) 2 0).writeLE (a + virtqNextAvailIdx) 2 0).writeLE
    (a + virtqUsedWrapCount) 1 1).writeLE (a + virtqDev) 8 dev).writeLE
    (a + virtqHandleOutput) 8 handleOutput

/-- The loop of `virtio_blk_setup` over the first `k` queues. -/
def virtqInitAll (L : PciLayout) (h : ByteMem) : Nat → ByteMem
  | 0 => h
  | k + 1 => virtqInitAt (virtqInitAll L h k) (L.vq + virtqSize * k) L.dev 128 L.handler

/-- `virtio_blk_setup` up to its loop, on the structure cleared. -/
def virtioBlkFields (L : PciLayout) (h : ByteMem) (capacity : Nat) : ByteMem :=
  let zero := h.write L.config (List.replicate (L.tail - L.config) 0)
  ((zero.writeLE (L.tail + tailDiskimg) 8 L.diskimg).writeLE L.devCfg 8 capacity).writeLE L.tail 4
    L.irqfd

/-- `virtio_blk_init_pci`, as far as the window depends on it: behind
    `virtio_blk_setup` the features, the device configuration and the queue
    array are set. -/
def virtioBlkInitPci (L : PciLayout) (h : ByteMem) (capacity : Nat) : ByteMem :=
  let setup := virtqInitAll L (virtioBlkFields L h capacity) L.n
  (((setup.writeLE (L.config + devDeviceFeature) 8 (2 ^ 34 ||| 2 ^ 32)).writeLE
    (L.config + regDevCfg) 8 L.devCfg).writeLE (L.config + regNumq) 2 L.n).writeLE
    (L.config + devVq) 8 L.vq

/-! ### Events -/

/-- What happens to the device: an access the bus forwards, or a doorbell
    whose event was registered for the queue at `a`. -/
inductive PciEvent where
  | access (acc : Access)
  | ioevent (a : Nat)

/-- One event. -/
inductive PciStep (mapper : Int → MemRegion) (L : PciLayout) : PciEvent → PciDev → PciDev → Prop
    where
  | access (acc : Access) (d d' : PciDev) : acc.Forwarded → IospaceIo mapper L acc d d' →
      PciStep mapper L (.access acc) d d'
  | ioevent (a : Nat) (d d' : PciDev) : a ∈ d.events → VirtqNotifyAt mapper L a d d' →
      PciStep mapper L (.ioevent a) d d'

/-- An offset whose writes are copied into the selected queue. -/
def InWindow (offset : Nat) : Prop :=
  regQSize ≤ offset ∧ offset ≤ regQUsedhi ∧ offset ≠ regQEnable

instance (offset : Nat) : Decidable (InWindow offset) :=
  inferInstanceAs (Decidable (_ ∧ _ ∧ _))

section

variable (mapper : Int → MemRegion) (L : PciLayout)

/-- There is a queue at `a`. -/
def IsQueue (a : Nat) : Prop :=
  ∃ i, i < L.n ∧ a = L.vq + virtqSize * i

instance (a : Nat) : Decidable (IsQueue L a) :=
  inferInstanceAs (Decidable (∃ i, i < L.n ∧ a = L.vq + virtqSize * i))

/-- A write at `offset` enables the selected queue, or is copied to it. -/
def WritesQueue (h : ByteMem) (offset : Nat) : Prop :=
  (offset = regQEnable ∧ queueEnable L h ≠ 0) ∨
    (InWindow offset ∧ queueSelect L h < numQueues L h)

instance (h : ByteMem) (offset : Nat) : Decidable (WritesQueue L h offset) :=
  inferInstanceAs (Decidable (_ ∨ _))

/-- The queue a write enables, or is copied to, is one of the device's. -/
def QueueInside (d : PciDev) : PciEvent → Prop
  | .access (.write offset data) =>
      WritesQueue L (d.host.write (L.config + offset) data) offset →
        IsQueue L (vqAt L (d.host.write (L.config + offset) data)
          (queueSelect L (d.host.write (L.config + offset) data)))
  | _ => True

instance (d : PciDev) (e : PciEvent) : Decidable (QueueInside L d e) :=
  match e with
  | .access (.write offset data) =>
      inferInstanceAs (Decidable (WritesQueue L (d.host.write (L.config + offset) data) offset →
        IsQueue L (vqAt L (d.host.write (L.config + offset) data)
          (queueSelect L (d.host.write (L.config + offset) data)))))
  | .access (.read _ _) => inferInstanceAs (Decidable True)
  | .ioevent _ => inferInstanceAs (Decidable True)

/-- The range lies in the structure, from `config` on. -/
def InDevice (a len : Nat) : Prop :=
  L.config ≤ a ∧ a + len ≤ L.tail + tailSize

instance (a len : Nat) : Decidable (InDevice L a len) :=
  inferInstanceAs (Decidable (_ ∧ _))

/-- What is copied through `dev_cfg` stays inside the structure. -/
def DevInside (d : PciDev) : PciEvent → Prop
  | .access (.write offset data) =>
      regDevCfg ≤ offset →
        InDevice L (devCfgPtr L d.host + (offset - regDevCfg)) data.length
  | _ => True

instance (d : PciDev) (e : PciEvent) : Decidable (DevInside L d e) :=
  match e with
  | .access (.write offset data) =>
      inferInstanceAs (Decidable (regDevCfg ≤ offset →
        InDevice L (devCfgPtr L d.host + (offset - regDevCfg)) data.length))
  | .access (.read _ _) => inferInstanceAs (Decidable True)
  | .ioevent _ => inferInstanceAs (Decidable True)

/-- What the handler has to find when it is called on the queue at `a`: the
    queue and what is behind the queues are the device's own, and no step of
    the call leaves the guest's RAM, whatever is on its stack. -/
structure CallInside (d : PciDev) (a : Nat) : Prop where
  queue : IsQueue L a
  handler : d.host.le (a + virtqHandleOutput) 8 = L.handler
  dev : d.host.le (a + virtqDev) 8 = L.dev
  irqfd : d.host.le L.tail 4 = L.irqfd
  diskimg : d.host.le (L.tail + tailDiskimg) 8 = L.diskimg
  defined : ∀ req k, ((handlerStep mapper)^[k] (enterHandler L d a req)).Defined mapper

/-- A queue that is notified while it is enabled has its handler called. -/
def NotifyInside (d : PciDev) (a : Nat) : Prop :=
  d.host.le (a + virtqEnabled) 2 ≠ 0 → CallInside mapper L d a

/-- A doorbell, if the event is one, is answered inside RAM. -/
def DoorbellInside (d : PciDev) : PciEvent → Prop
  | .access (.write offset data) =>
      let h := d.host.write (L.config + offset) data
      offset = regNotifyCfg →
        NotifyInside mapper L { d with host := h } (vqAt L h (notifyVqn L h))
  | .access (.read _ _) => True
  | .ioevent a => NotifyInside mapper L d a

/-- All stores of the event are where the model has them. -/
structure Contained (d : PciDev) (e : PciEvent) : Prop where
  queue : QueueInside L d e
  dev : DevInside L d e
  doorbell : DoorbellInside mapper L d e

/-- What the program does with the device. -/
def PciOutcome : PciEvent → PciDev → PciDev → Prop :=
  Guarded (PciStep mapper L) (Contained mapper L)

end

end Microv
