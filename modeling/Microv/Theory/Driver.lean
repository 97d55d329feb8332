import Microv.Theory.GuestMemory
import Microv.Theory.Virtqueue
import Mathlib.Logic.Relation

/-!
# The Driver's Side of a Packed Ring

A guest driver that follows the packed-ring protocol, and its interleavings
with the block device.

The driver publishes request chains at consecutive ring positions. A chain is
staged first, every descriptor but the head, and published by writing the
head, so the rest is in memory before the head's flags are. A position is
reused only after the head of the chain that held it was seen used. Between
these steps the driver fills its own buffers, but not the ring and not the
header of a chain it has not got back.

The device is the handler machine, entered by a notification whenever it is
idle. Its steps interleave with the driver's one by one; only the two stores
that complete a request, the head's flags and its length, are taken together.

The steps are parametrised by a discipline on what may be published, so that
the same system can be run with and without a further condition on the
buffers.

## Main definitions

* `Ring`: An enabled queue whose ring lies in RAM.
* `Chain`, `Request`: A published chain, and the type its header held.
* `Linked`: The flags of consecutive descriptors.
* `Chain.Wf`: A chain fit to be published at a position.
* `RingSys`: The driver and the device.
* `DriverStep`, `Step`: One step of the driver, and of either.
* `HeaderKept`: The discipline that keeps headers out of written buffers.
* `layout`: The descriptors of a sequence of chains, with their slots.
-/

namespace Microv

/-- A queue as `virtq_enable` leaves it, with its whole ring in RAM. -/
structure Ring where
  ram : RamMap
  vq : Virtq
  size_pos : 0 < vq.info.size
  size_lt : vq.info.size < 2 ^ 16
  enabled : vq.info.enable ≠ 0
  inRam : InRam ram.mapper vq.info.descAddr (16 * vq.info.size)
  ring_host : vq.descRing = ram.host vq.info.descAddr

/-- The ring size. -/
def Ring.n (c : Ring) : Nat := c.vq.info.size

/-- A request chain: header, data and status descriptors. -/
structure Chain where
  hdr : VringPackedDesc
  data : List VringPackedDesc
  status : VringPackedDesc
  deriving DecidableEq

def Chain.descs (ch : Chain) : List VringPackedDesc :=
  ch.hdr :: (ch.data ++ [ch.status])

@[simp] theorem Chain.length_descs (ch : Chain) : ch.descs.length = ch.data.length + 2 := by
  simp only [descs, List.length_cons, List.length_append, List.length_nil]

/-- Descriptors from position `p` on carry that position's wrap counter in
    AVAIL, its negation in USED, and NEXT on all but the last. -/
def Linked (n : Nat) : Nat → List VringPackedDesc → Prop
  | _, [] => True
  | p, d :: ds =>
      d.flags.testBit descAvailBit = wrapAt n p ∧ d.flags.testBit descUsedBit = !wrapAt n p ∧
        d.flags.testBit descNextBit = !ds.isEmpty ∧ Linked n (p + 1) ds

instance decidableLinked (n : Nat) : ∀ (p : Nat) (ds : List VringPackedDesc),
    Decidable (Linked n p ds)
  | _, [] => inferInstanceAs (Decidable True)
  | p, _ :: ds =>
      have := decidableLinked n (p + 1) ds
      inferInstanceAs (Decidable (_ ∧ _ ∧ _ ∧ _))

/-- A chain fit to be published at position `p`: linked, with a 16-byte
    header, room for the status, and every buffer in RAM and off the ring. -/
structure Chain.Wf (c : Ring) (p : Nat) (ch : Chain) : Prop where
  linked : Linked c.n p ch.descs
  fits : ∀ d ∈ ch.descs, d.Fits
  header : ch.hdr.len = 16
  status : 1 ≤ ch.status.len
  inRam : ∀ d ∈ ch.descs, InRam c.ram.mapper d.addr d.len
  offRing : ∀ d ∈ ch.descs, Apart d.addr d.len c.vq.info.descAddr (16 * c.n)

/-- A published chain, with the type its header held when it was published. -/
structure Request extends Chain where
  type : Nat

/-- The shapes the handler reads: one data descriptor for a transfer, none
    for any other type. -/
def Request.Supported (r : Request) : Prop :=
  r.data.length = if isTransfer r.type then 1 else 0

instance (r : Request) : Decidable r.Supported :=
  inferInstanceAs (Decidable (_ = _))

/-- The type in the header of a chain. -/
def hdrTypeIn (c : Ring) (m : ByteMem) (ch : Chain) : Nat :=
  m.le (c.ram.host ch.hdr.addr) 4

/-- Write descriptors to the slots from position `p` on. -/
def putDescs (vq : Virtq) (m : ByteMem) : Nat → List VringPackedDesc → ByteMem
  | _, [] => m
  | p, d :: ds => putDescs vq (m.write (vq.slot p) d.bytes) (p + 1) ds

/-- The descriptors of a sequence of requests, in ring order. -/
def flatDescs (rs : List Request) : List VringPackedDesc :=
  rs.flatMap fun r => r.descs

/-- The driver and the device. `reaped` counts the chains whose head the
    driver has seen used. -/
structure RingSys where
  dev : Handler
  published : List Request
  staged : Option Chain
  reaped : Nat

namespace RingSys

/-- The position the next chain is published at. -/
def tail (s : RingSys) : Nat := (flatDescs s.published).length

/-- The position of the oldest chain the driver has not got back. -/
def head (s : RingSys) : Nat := (flatDescs (s.published.take s.reaped)).length

/-- The system with other memory. -/
def setMem (s : RingSys) (m : ByteMem) : RingSys :=
  { s with dev := { s.dev with mem := m } }

@[simp] theorem setMem_pc (s : RingSys) (m : ByteMem) : (s.setMem m).dev.pc = s.dev.pc := rfl

@[simp] theorem setMem_log (s : RingSys) (m : ByteMem) : (s.setMem m).dev.log = s.dev.log := rfl

@[simp] theorem setMem_published (s : RingSys) (m : ByteMem) :
    (s.setMem m).published = s.published := rfl

end RingSys

/-- One step of the device: a handler step, the two completing stores taken
    together. -/
def devStep (mapper : Int → MemRegion) (s : Handler) : Handler :=
  match s.pc with
  | .putFlags _ _ _ => handlerStep mapper (handlerStep mapper s)
  | _ => handlerStep mapper s

/-- One step of the driver, under the discipline `G` on what may be
    published. -/
inductive DriverStep (c : Ring) (G : RingSys → Request → Prop) :
    RingSys → RingSys → Prop where
  | stage (s : RingSys) (ch : Chain) :
      s.staged = none → ch.Wf c s.tail → s.tail + ch.descs.length ≤ s.head + c.n →
      DriverStep c G s { s.setMem (putDescs c.vq s.dev.mem (s.tail + 1) ch.descs.tail) with
        staged := some ch }
  | publish (s : RingSys) (r : Request) :
      s.staged = some r.toChain → r.type = hdrTypeIn c s.dev.mem r.toChain → r.Supported →
      G s r →
      DriverStep c G s { s.setMem (s.dev.mem.write (c.vq.slot s.tail) r.hdr.bytes) with
        published := s.published ++ [r], staged := none }
  | fill (s : RingSys) (g : Nat) (bs : List UInt8) :
      InRam c.ram.mapper g bs.length → Apart g bs.length c.vq.info.descAddr (16 * c.n) →
      (∀ r ∈ s.published.drop s.reaped, Apart g bs.length r.hdr.addr 16) →
      DriverStep c G s (s.setMem (s.dev.mem.write (c.ram.host g) bs))
  | reap (s : RingSys) :
      s.reaped < s.published.length →
      (VringPackedDesc.flagsAt s.dev.mem (c.vq.slot s.head)).testBit descAvailBit
        = wrapAt c.n s.head →
      (VringPackedDesc.flagsAt s.dev.mem (c.vq.slot s.head)).testBit descUsedBit
        = wrapAt c.n s.head →
      DriverStep c G s { s with reaped := s.reaped + 1 }

/-- One step of the driver or the device. -/
inductive Step (c : Ring) (G : RingSys → Request → Prop) : RingSys → RingSys → Prop where
  | driver {s s' : RingSys} : DriverStep c G s s' → Step c G s s'
  | notify (s : RingSys) :
      s.dev.pc = .done → Step c G s { s with dev := virtqNotify s.dev }
  | device (s : RingSys) :
      Step c G s { s with dev := devStep c.ram.mapper s.dev }

/-- The device writes none of `r`'s header while it executes `b`: neither a
    read's data nor the status overlaps it. -/
def KeepsHeader (b r : Request) : Prop :=
  (b.type = blkTIn → ∀ d ∈ b.data, Apart d.addr d.len r.hdr.addr 16) ∧
    Apart b.status.addr 1 r.hdr.addr 16

instance (b r : Request) : Decidable (KeepsHeader b r) :=
  inferInstanceAs (Decidable ((_ → _) ∧ _))

/-- A chain is published only if the device writes none of its header while
    executing the chains it has not completed. -/
def HeaderKept (s : RingSys) (r : Request) : Prop :=
  ∀ b ∈ s.published.drop s.dev.log.length, KeepsHeader b r

instance (s : RingSys) (r : Request) : Decidable (HeaderKept s r) :=
  inferInstanceAs (Decidable (∀ b ∈ _, _))

/-- Before anything is published: the queue is at position zero and idle, and
    no slot of the ring looks available. -/
structure RingSys.Initial (c : Ring) (s : RingSys) : Prop where
  published : s.published = []
  staged : s.staged = none
  reaped : s.reaped = 0
  vq : s.dev.vq = c.vq.atPos 0
  pc : s.dev.pc = .done
  taken : s.dev.taken = []
  log : s.dev.log = []
  fresh : ∀ q, q < c.n →
    looksAvail (wrapAt c.n q) (VringPackedDesc.flagsAt s.dev.mem (c.vq.slot q)) = false

/-- What the record holds once the descriptors `ds` were taken from position
    `p` on. -/
def takenFrom (n : Nat) : Nat → List VringPackedDesc → List Taken
  | _, [] => []
  | p, d :: ds => ⟨p % n, d⟩ :: takenFrom n (p + 1) ds

/-- The chains of a sequence, each as the descriptors it occupies. -/
def layout (n : Nat) : Nat → List Request → List (List Taken)
  | _, [] => []
  | p, r :: rs => takenFrom n p r.descs :: layout n (p + r.descs.length) rs

/-- The RAM of the monitor's 512 MiB guest. -/
def sampleRam : RamMap :=
  { mapper := sampleMapper,
    guest_lt := by rintro i (rfl | rfl) <;> decide,
    host_le := by rintro i (rfl | rfl) <;> decide,
    guest_apart := by decide,
    host_apart := by decide }

/-- The ring of that guest's queue. -/
def sampleRing : Ring :=
  { ram := sampleRam,
    vq := virtqEnable sampleMapper sampleQueue,
    size_pos := by decide,
    size_lt := by decide,
    enabled := by decide,
    inRam := by decide,
    ring_host := by decide }

end Microv
