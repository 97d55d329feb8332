import Microv.Core.Virtqueue

/-!
# Block Device

`virtio-blk.c`: the request handler of the block device, and the disk image
behind it.

The handler is modelled as a machine whose program counter names the next
call of the source that touches shared memory: each `virtq_get_avail`, the
copy of the header, the transfer, and each of the stores that complete a
request. A notification is the machine run from `getHead` to `done`, and an
interleaving with the guest is one that lets the guest act between machine
steps. The two descriptor pointers the source does not test are where the
machine can reach `fault`, the dereference of `NULL`.

The local `req` survives from one request to the next, as it does on the
handler's stack, and a header is copied over it with the length the guest put
in the descriptor.

`taken` and `log` are not in the source. They record which descriptors the
machine has taken, so that what it consumed can be compared with what a
driver published.

The disk image is a regular file: a read past its end is short, a write past
its end extends it. `handlerStep` has the kernel carry out every transfer in
full. It may also fail, or stop early: `handlerStepIo` is the step for any
answer of `read` or `write`.

The code tests no address before it uses it, and copies a header of any length
into a `req` of 24 bytes. A step says what happens as long as it keeps inside
the guest's RAM and inside `req`, and `Handler.Defined` is that it does. Beyond
it the program may be stopped, or have something else of its memory read or
overwritten, and `handlerStep` says nothing about it.

## Main definitions

* `File`, `Diskimg`: The image file and the device's record of it.
* `diskimgRead`, `diskimgWrite`: The bounded accesses to the image.
* `virtioBlkRead`, `virtioBlkWrite`: The same, by sector.
* `HandlerPc`: The points of `virtio_blk_handle_output`.
* `Handler`: The handler's state, with the memory it works on.
* `handlerStep`: One step of `virtio_blk_handle_output`.
* `blkTransferIo`, `handlerStepIo`: The same for any answer of the kernel.
* `virtqNotify`: Entering the handler.
* `Handler.entries`, `Handler.buffers`: The descriptors and the guest ranges a
  step uses.
* `Handler.Defined`: The next step keeps inside RAM and `req`.
-/

namespace Microv

/-- A regular file: its bytes, and how many of them there are. -/
structure File where
  bytes : ByteMem
  len : Nat

/-- `lseek` to `off`, then `read` of `size` bytes. -/
def File.pread (f : File) (off size : Nat) : List UInt8 :=
  f.bytes.read off (min size (f.len - off))

/-- `lseek` to `off`, then `write` of the string. -/
def File.pwrite (f : File) (off : Nat) (bs : List UInt8) : File :=
  { bytes := f.bytes.write off bs,
    len := if bs.length = 0 then f.len else max f.len (off + bs.length) }

/-- `struct diskimg`: the open file and the size it had when opened. -/
structure Diskimg where
  file : File
  size : Nat

/-- `diskimg_read`: the result of the call and the bytes it delivered. -/
def diskimgRead (img : Diskimg) (offset size : Nat) : Int × List UInt8 :=
  if offset < img.size then
    ((img.file.pread offset size).length, img.file.pread offset size)
  else (-1, [])

/-- `diskimg_write`. -/
def diskimgWrite (img : Diskimg) (data : List UInt8) (offset : Nat) : Int × Diskimg :=
  if offset < img.size then
    (data.length, { img with file := img.file.pwrite offset data })
  else (-1, img)

/-- `virtio_blk_read`. The byte offset is a 64-bit product. -/
def virtioBlkRead (img : Diskimg) (sector size : Nat) : Int × List UInt8 :=
  diskimgRead img (sector * 512 % 2 ^ 64) size

/-- `virtio_blk_write`. -/
def virtioBlkWrite (img : Diskimg) (data : List UInt8) (sector : Nat) : Int × Diskimg :=
  diskimgWrite img data (sector * 512 % 2 ^ 64)

-- Request types, status values and the event flag of the Linux headers.
def blkTIn : Nat := 0

def blkTOut : Nat := 1

def blkSOk : UInt8 := 0

def blkSIoerr : UInt8 := 1

def blkSUnsupp : UInt8 := 2

def eventFlagEnable : Nat := 0

/-- The points of `virtio_blk_handle_output` between accesses to shared
    memory, with the locals that are live there. `desc` and `usedDesc` are
    host addresses of descriptors. -/
inductive HandlerPc where
  -- The call in the loop condition.
  | getHead
  -- The copy of the header, and the tests up to the next call.
  | copyHeader (usedDesc : Nat)
  -- The call for the data descriptor.
  | getData (usedDesc : Nat)
  -- The disk access.
  | transfer (usedDesc desc : Nat)
  -- The call for the status descriptor.
  | getStatus (usedDesc : Nat) (status : UInt8) (r : Int)
  -- The store of the status byte.
  | putStatus (usedDesc desc : Nat) (status : UInt8) (r : Int)
  -- The store that marks the head used.
  | putFlags (usedDesc desc : Nat) (r : Int)
  -- The store of the head's length.
  | putLen (usedDesc desc : Nat) (r : Int)
  -- The test of the driver's event flags, after the loop.
  | signal
  -- Returned.
  | done
  -- A `NULL` descriptor was dereferenced.
  | fault
  deriving DecidableEq, Repr

/-- A descriptor as it was when the handler took it, with its ring slot. -/
structure Taken where
  slot : Nat
  desc : VringPackedDesc
  deriving DecidableEq, Repr

/-- A completed request: the descriptors taken for it, the descriptor whose
    buffer received the status, and the one marked used. -/
structure Completed where
  taken : List Taken
  statusDesc : Nat
  usedDesc : Nat
  deriving DecidableEq, Repr

/-- The handler's state. `mem` is host memory, `req` the local request
    buffer, `irqs` counts the writes to `irqfd`. -/
structure Handler where
  vq : Virtq
  mem : ByteMem
  img : Diskimg
  isrStatus : Nat
  irqs : Nat
  req : ByteMem
  pc : HandlerPc
  taken : List Taken
  log : List Completed

namespace Handler

/-- `req.hdr.type`. -/
def hdrType (s : Handler) : Nat := s.req.le 0 4

/-- `req.hdr.sector`. -/
def hdrSector (s : Handler) : Nat := s.req.le 8 8

/-- What the record gains when the descriptor at the queue's position is
    taken. -/
def takes (s : Handler) (desc : Nat) : Taken :=
  { slot := s.vq.nextAvailIdx, desc := VringPackedDesc.load s.mem desc }

end Handler

/-- The type test of the handler. -/
def isTransfer (type : Nat) : Bool :=
  type == blkTIn || type == blkTOut

/-- `status = r < 0 ? VIRTIO_BLK_S_IOERR : VIRTIO_BLK_S_OK`. -/
def statusOf (r : Int) : UInt8 :=
  if r < 0 then blkSIoerr else blkSOk

/-- The disk access of one request: its result, the memory and the image
    after it. -/
def blkTransfer (mem : ByteMem) (img : Diskimg) (type sector data len : Nat) :
    Int × ByteMem × Diskimg :=
  if type = blkTIn then
    let res := virtioBlkRead img sector len
    (res.1, mem.write data res.2, img)
  else
    let res := virtioBlkWrite img (mem.read data len) sector
    (res.1, mem, res.2)

/-- One step of `virtio_blk_handle_output`. -/
def handlerStep (mapper : Int → MemRegion) (s : Handler) : Handler :=
  match s.pc with
  | .getHead =>
      match virtqGetAvail s.mem s.vq with
      | (none, vq) => { s with vq := vq, pc := .signal }
      | (some desc, vq) =>
          { s with vq := vq, pc := .copyHeader desc, taken := [s.takes desc] }
  | .copyHeader usedDesc =>
      let hdr := getUserspaceAddr mapper (VringPackedDesc.addrAt s.mem usedDesc)
      let req := s.req.write 0 (s.mem.read hdr (VringPackedDesc.lenAt s.mem usedDesc))
      let pc :=
        if !virtqCheckNext s.mem usedDesc then HandlerPc.done
        else if isTransfer (req.le 0 4) then .getData usedDesc
        else .getStatus usedDesc blkSUnsupp 0
      { s with req := req, pc := pc }
  | .getData usedDesc =>
      match virtqGetAvail s.mem s.vq with
      | (none, vq) => { s with vq := vq, pc := .fault }
      | (some desc, vq) =>
          { s with vq := vq, pc := .transfer usedDesc desc, taken := s.taken ++ [s.takes desc] }
  | .transfer usedDesc desc =>
      let data := getUserspaceAddr mapper (VringPackedDesc.addrAt s.mem desc)
      let res := blkTransfer s.mem s.img s.hdrType s.hdrSector data
        (VringPackedDesc.lenAt s.mem desc)
      let pc :=
        if !virtqCheckNext res.2.1 desc then HandlerPc.done
        else .getStatus usedDesc (statusOf res.1) res.1
      { s with mem := res.2.1, img := res.2.2, pc := pc }
  | .getStatus usedDesc status r =>
      match virtqGetAvail s.mem s.vq with
      | (none, vq) => { s with vq := vq, pc := .fault }
      | (some desc, vq) =>
          { s with
            vq := vq, pc := .putStatus usedDesc desc status r,
            taken := s.taken ++ [s.takes desc] }
  | .putStatus usedDesc desc status r =>
      let addr := getUserspaceAddr mapper (VringPackedDesc.addrAt s.mem desc)
      { s with mem := s.mem.write addr [status], pc := .putFlags usedDesc desc r }
  | .putFlags usedDesc desc r =>
      let flags := VringPackedDesc.flagsAt s.mem usedDesc
      { s with
        mem := s.mem.writeLE (usedDesc + 14) 2 (flags ^^^ 2 ^ descUsedBit),
        pc := .putLen usedDesc desc r }
  | .putLen usedDesc desc r =>
      { s with
        mem := s.mem.writeLE (usedDesc + 8) 4 (r % 2 ^ 32).toNat,
        pc := .getHead,
        -- The record is closed where the request is: both stores are out.
        log := s.log ++ [⟨s.taken, desc, usedDesc⟩],
        taken := [] }
  | .signal =>
      if s.mem.le (s.vq.guestEvent + 2) 2 = eventFlagEnable then
        { s with isrStatus := s.isrStatus ||| 1, irqs := s.irqs + 1, pc := .done }
      else { s with pc := .done }
  | .done => s
  | .fault => s

/-- The disk access of one request, where `read` or `write` fails (`none`) or
    moves at most `n` bytes (`some n`). -/
def blkTransferIo (answer : Option Nat) (mem : ByteMem) (img : Diskimg)
    (type sector data len : Nat) : Int × ByteMem × Diskimg :=
  let offset := sector * 512 % 2 ^ 64
  if offset < img.size then
    match answer with
    | none => (-1, mem, img)
    | some n =>
        if type = blkTIn then
          let bs := (img.file.pread offset len).take n
          (bs.length, mem.write data bs, img)
        else
          let bs := (mem.read data len).take n
          (bs.length, mem, { img with file := img.file.pwrite offset bs })
  else (-1, mem, img)

/-- One step of `virtio_blk_handle_output`, with the kernel's answer to the
    transfer if it is one. -/
def handlerStepIo (mapper : Int → MemRegion) (answer : Option Nat) (s : Handler) : Handler :=
  match s.pc with
  | .transfer usedDesc desc =>
      let data := getUserspaceAddr mapper (VringPackedDesc.addrAt s.mem desc)
      let res := blkTransferIo answer s.mem s.img s.hdrType s.hdrSector data
        (VringPackedDesc.lenAt s.mem desc)
      let pc :=
        if !virtqCheckNext res.2.1 desc then HandlerPc.done
        else .getStatus usedDesc (statusOf res.1) res.1
      { s with mem := res.2.1, img := res.2.2, pc := pc }
  | _ => handlerStep mapper s

/-- `virtq_notify`, up to the handler's first step. -/
def virtqNotify (s : Handler) : Handler :=
  if s.vq.info.enable = 0 then s else { s with pc := .getHead }

/-! ### What a step uses -/

/-- `sizeof(struct virtio_blk_req)`. -/
def blkReqSize : Nat := 24

/-- The host range `[a, a + len)` lies in the mapping of the slot. -/
def MemRegion.Maps (r : MemRegion) (a len : Nat) : Prop :=
  r.userspaceAddr ≤ a ∧ a + len ≤ r.userspaceAddr + r.memorySize

instance (r : MemRegion) (a len : Nat) : Decidable (r.Maps a len) :=
  inferInstanceAs (Decidable (_ ∧ _))

/-- The host range lies in the mapping of one RAM slot. -/
def InMapping (mapper : Int → MemRegion) (a len : Nat) : Prop :=
  (mapper 0).Maps a len ∨ (mapper 1).Maps a len

instance (mapper : Int → MemRegion) (a len : Nat) : Decidable (InMapping mapper a len) :=
  inferInstanceAs (Decidable (_ ∨ _))

/-- A guest range the code turns into a host range: the address it
    translates, and how many bytes it then uses. -/
structure GuestUse where
  addr : Nat
  len : Nat
  deriving DecidableEq, Repr

/-- The address was found in slot `i`, and the host range lies inside that
    slot's mapping. -/
def ConfinedIn (mapper : Int → MemRegion) (i : Int) (u : GuestUse) : Prop :=
  findMapperIndex mapper u.addr = i ∧ (mapper i).Maps (getUserspaceAddr mapper u.addr) u.len

/-- The host range lies inside the mapping of one RAM slot. An address that
    was found in none is not confined, wherever the entry at `-1` sends it. -/
def Confined (mapper : Int → MemRegion) (u : GuestUse) : Prop :=
  ConfinedIn mapper 0 u ∨ ConfinedIn mapper 1 u

instance (mapper : Int → MemRegion) (u : GuestUse) : Decidable (Confined mapper u) :=
  inferInstanceAs (Decidable ((_ ∧ _) ∨ (_ ∧ _)))

namespace Handler

/-- The host addresses of the descriptors the next step reads or writes. -/
def entries (s : Handler) : List Nat :=
  match s.pc with
  | .getHead | .getData _ | .getStatus _ _ _ => [s.vq.descRing + 16 * s.vq.nextAvailIdx]
  | .copyHeader usedDesc => [usedDesc]
  | .transfer _ desc | .putStatus _ desc _ _ => [desc]
  | .putFlags usedDesc _ _ | .putLen usedDesc _ _ => [usedDesc]
  | .signal | .done | .fault => []

/-- The guest range the next step reads or writes: a header, a data buffer or
    a status byte. -/
def buffers (s : Handler) : List GuestUse :=
  match s.pc with
  | .copyHeader desc => [⟨VringPackedDesc.addrAt s.mem desc, VringPackedDesc.lenAt s.mem desc⟩]
  | .transfer _ desc => [⟨VringPackedDesc.addrAt s.mem desc, VringPackedDesc.lenAt s.mem desc⟩]
  | .putStatus _ desc _ _ => [⟨VringPackedDesc.addrAt s.mem desc, 1⟩]
  | _ => []

/-- How many bytes the next step copies into `req`. -/
def copied (s : Handler) : Nat :=
  match s.pc with
  | .copyHeader desc => VringPackedDesc.lenAt s.mem desc
  | _ => 0

/-- The next step keeps inside the guest's RAM and inside `req`. Of an empty
    buffer no byte is used. -/
structure Defined (mapper : Int → MemRegion) (s : Handler) : Prop where
  entries : ∀ a ∈ s.entries, InMapping mapper a 16
  buffers : ∀ u ∈ s.buffers, u.len = 0 ∨ Confined mapper u
  event : s.pc = .signal → InMapping mapper s.vq.guestEvent 4
  header : s.copied ≤ blkReqSize

instance (mapper : Int → MemRegion) (s : Handler) : Decidable (s.Defined mapper) :=
  decidable_of_iff ((∀ a ∈ s.entries, InMapping mapper a 16) ∧
      (∀ u ∈ s.buffers, u.len = 0 ∨ Confined mapper u) ∧
      (s.pc = .signal → InMapping mapper s.vq.guestEvent 4) ∧ s.copied ≤ blkReqSize)
    ⟨fun h => ⟨h.1, h.2.1, h.2.2.1, h.2.2.2⟩, fun h => ⟨h.1, h.2, h.3, h.4⟩⟩

end Handler

end Microv
