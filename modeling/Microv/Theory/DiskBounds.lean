import Microv.Theory.Request
import Microv.Lib.Run

/-!
# The End of the Disk

What the handler reports for a transfer near, across or past the end of the
image.

`diskimg_read` and `diskimg_write` compare the first byte's offset with the
size of the image and then leave the rest to the file: a read past the end is
short, a write past the end makes the file longer, and neither is an error. The
offset itself is a 64-bit product, so a sector and the same sector plus `2 ^ 55`
are one place.

A request is followed from the transfer to the store that completes it, in any
ring and with any header behind it (`Transferring`). The two results say exactly
which requests get the right answer: one that starts inside the image must end
inside it, and one that starts outside must stay outside when its sector is
reduced modulo `2 ^ 55`. In a run whose transfers all do, the file keeps its
length.

## Main definitions

* `Transferring`: A request about to access the disk, and to complete.
* `Handler.answered`: The handler once that request is complete.
* `lseekOffset`: What a disk access hands to `lseek`.
* `EndChecked`: A transfer is reported as it went, and a failed one left no
  trace.
* `Refused`: A request is answered with an error and the file left alone.
* `DiskStep`: Handler steps, notifications and guest stores, in any order.

## Theorems

* `Transferring.completes`: The five steps that finish a request.
* `blkTransfer_lseek`: A disk access, by the offset handed to `lseek`.
* `transfer_end_iff`: A transfer that starts inside the image.
* `sector_refused_iff`: A transfer that starts anywhere.
-/

namespace Microv

/-- `config.capacity`, as `virtio_blk_setup` computes it. -/
def Diskimg.capacity (img : Diskimg) : Nat :=
  img.size / 512

/-- The offset a disk access hands to `lseek`, where it gets as far as calling
    it: `diskimg_read` and `diskimg_write` share the test in front of it. -/
def lseekOffset (img : Diskimg) (sector : Nat) : Option Nat :=
  if sector * 512 % 2 ^ 64 < img.size then some (sector * 512 % 2 ^ 64) else none

section

variable (mapper : Int → MemRegion) (s : Handler)

/-- The handler is about to access the disk for the head at `u` with the data
    descriptor at `a`, which is chained to an available status descriptor at
    `b`. The buffers are off the descriptors that are still to be used. -/
structure Transferring (u a b : Nat) : Prop where
  pc : s.pc = .transfer u a
  type : isTransfer s.hdrType = true
  chained : virtqCheckNext s.mem a = true
  avail : (virtqGetAvail s.mem s.vq).1 = some b
  data_off : Apart (s.bufferAt mapper a) (VringPackedDesc.lenAt s.mem a) a 16
  data_offNext : Apart (s.bufferAt mapper a) (VringPackedDesc.lenAt s.mem a) b 16
  status_off : Apart (s.bufferAt mapper b) 1 u 16

instance (u a b : Nat) : Decidable (Transferring mapper s u a b) :=
  decidable_of_iff
    (s.pc = .transfer u a ∧ isTransfer s.hdrType = true ∧ virtqCheckNext s.mem a = true ∧
      (virtqGetAvail s.mem s.vq).1 = some b ∧
      Apart (s.bufferAt mapper a) (VringPackedDesc.lenAt s.mem a) a 16 ∧
      Apart (s.bufferAt mapper a) (VringPackedDesc.lenAt s.mem a) b 16 ∧
      Apart (s.bufferAt mapper b) 1 u 16)
    ⟨fun h => ⟨h.1, h.2.1, h.2.2.1, h.2.2.2.1, h.2.2.2.2.1, h.2.2.2.2.2.1, h.2.2.2.2.2.2⟩,
      fun h => ⟨h.pc, h.type, h.chained, h.avail, h.data_off, h.data_offNext, h.status_off⟩⟩

/-- The handler once the request is complete. -/
def Handler.answered : Handler :=
  (handlerStep mapper)^[5] s

/-- The transfer moved every byte of the data buffer. -/
def Handler.MovedAll (a : Nat) : Prop :=
  let len := VringPackedDesc.lenAt s.mem a
  if s.hdrType = blkTIn then
    (handlerStep mapper s).mem.read (s.bufferAt mapper a) len
      = s.img.file.bytes.read (s.hdrSector * 512) len
  else
    (handlerStep mapper s).img.file.bytes.read (s.hdrSector * 512) len
      = s.mem.read (s.bufferAt mapper a) len

/-- The extent of the transfer lies within the image. -/
def Handler.InImage (a : Nat) : Prop :=
  s.hdrSector * 512 + VringPackedDesc.lenAt s.mem a ≤ s.img.size

/-- The status is OK exactly when the extent lies within the image and was
    moved whole; otherwise it is an error and the image file is as it was. -/
structure EndChecked (a b : Nat) : Prop where
  ok_iff : (s.answered mapper).mem (s.bufferAt mapper b) = blkSOk ↔
    s.InImage a ∧ s.MovedAll mapper a
  ioerr : ¬ (s.InImage a ∧ s.MovedAll mapper a) →
    (s.answered mapper).mem (s.bufferAt mapper b) = blkSIoerr ∧
      (s.answered mapper).img = s.img

/-- The status is an error, and the image file was neither positioned nor
    changed. -/
structure Refused (b : Nat) : Prop where
  status : (s.answered mapper).mem (s.bufferAt mapper b) = blkSIoerr
  image : (s.answered mapper).img = s.img
  untouched : lseekOffset s.img s.hdrSector = none

end

section

variable {mapper : Int → MemRegion} {s : Handler} {u a b : Nat}

/-- The five steps from the transfer to the store of the head's length. -/
theorem Transferring.completes (h : Transferring mapper s u a b) :
    (s.answered mapper).img = (s.access mapper (VringPackedDesc.load s.mem a)).2.2 ∧
      (s.answered mapper).mem (s.bufferAt mapper b)
        = statusOf (s.access mapper (VringPackedDesc.load s.mem a)).1 := by
  set d := VringPackedDesc.load s.mem a with hd
  have hslot : b = s.vq.next := by
    have hav := h.avail
    rw [virtqGetAvail_fst] at hav
    split_ifs at hav
    exact (Option.some.inj hav).symm
  -- The transfer leaves both descriptors as they were.
  have hloada : VringPackedDesc.load (s.access mapper d).2.1 a = VringPackedDesc.load s.mem a :=
    s.access_load mapper d a h.data_off
  have hloadb : VringPackedDesc.load (s.access mapper d).2.1 b = VringPackedDesc.load s.mem b :=
    s.access_load mapper d b h.data_offNext
  have h1 := handlerStep_transfer mapper s u a d h.pc rfl
    ((congrArg (fun e => e.flags.testBit descNextBit) hloada).trans h.chained)
  generalize hs1 : handlerStep mapper s = s1 at h1
  have hav1 : virtqGetAvail s1.mem s1.vq = virtqGetAvail s.mem s.vq := by
    rw [h1]
    refine virtqGetAvail_congr _ _ _ ?_
    rw [← hslot]
    exact congrArg VringPackedDesc.flags hloadb
  have h2 := handlerStep_getStatus mapper s1 u b _ _ (virtqGetAvail s.mem s.vq).2
    (by rw [h1]) (by rw [hav1]; exact Prod.ext h.avail rfl)
  generalize hs2 : handlerStep mapper s1 = s2 at h2
  have hmem2 : s2.mem = (s.access mapper d).2.1 := by rw [h2, h1]
  have h3 := handlerStep_putStatus mapper s2 u b _ _ (VringPackedDesc.load s.mem b)
    (by rw [h2]) (by rw [hmem2]; exact hloadb)
  generalize hs3 : handlerStep mapper s2 = s3 at h3
  have h4 := handlerStep_complete mapper s3 u b _ (by rw [h3])
  have hrun : s.answered mapper = handlerStep mapper (handlerStep mapper s3) := by
    rw [← hs3, ← hs2, ← hs1]
    rfl
  have himg : s3.img = (s.access mapper d).2.2 := by rw [h3, h2, h1]
  have hmem3 : s3.mem = s2.mem.write (s.bufferAt mapper b) [statusOf (s.access mapper d).1] := by
    rw [h3]
    rfl
  have hoff := h.status_off
  unfold Apart at hoff
  -- The last two stores are in the head, away from the status byte.
  refine ⟨by rw [hrun, h4]; exact himg, ?_⟩
  rw [hrun, h4]
  refine (completeMem_outside _ _ _ _ (by omega)).trans ?_
  rw [hmem3, ByteMem.write_byte_self]

end

section

variable (mem : ByteMem) (img : Diskimg) (type sector data len : Nat)

/-- The file is read and written at the offset handed to `lseek`, and where
    none is, neither the file nor the buffer is touched. -/
theorem blkTransfer_lseek : blkTransfer mem img type sector data len =
    match lseekOffset img sector with
    | none => (-1, mem, img)
    | some off =>
        if type = blkTIn then
          ((img.file.pread off len).length, mem.write data (img.file.pread off len), img)
        else (len, mem, { img with file := img.file.pwrite off (mem.read data len) }) := by
  unfold blkTransfer virtioBlkRead virtioBlkWrite diskimgRead diskimgWrite lseekOffset
  by_cases hin : sector * 512 % 2 ^ 64 < img.size
  · simp only [if_pos hin, ByteMem.length_read]
  · simp only [if_neg hin, ByteMem.write_nil, ite_self]

/-- The status depends on the first byte alone. -/
theorem statusOf_blkTransfer :
    statusOf (blkTransfer mem img type sector data len).1
      = if sector * 512 % 2 ^ 64 < img.size then blkSOk else blkSIoerr := by
  rw [blkTransfer_lseek, lseekOffset]
  by_cases hin : sector * 512 % 2 ^ 64 < img.size
  · -- Inside, the result is a length.
    have hlen : ∀ n : Nat, statusOf (n : Int) = blkSOk := by
      intro n
      rw [statusOf, if_neg (by omega)]
    rw [if_pos hin, if_pos hin]
    dsimp only
    split_ifs
    · exact hlen _
    · exact hlen _
  · rw [if_neg hin, if_neg hin]
    rfl

/-- Outside, nothing happens. -/
theorem blkTransfer_refused (h : img.size ≤ sector * 512 % 2 ^ 64) :
    (blkTransfer mem img type sector data len).2 = (mem, img) := by
  rw [blkTransfer_lseek, lseekOffset, if_neg (Nat.not_lt.mpr h)]

/-- A read that fits delivers the whole extent. -/
theorem blkTransfer_read (hlen : img.file.len = img.size) (ht : type = blkTIn)
    (hin : sector * 512 % 2 ^ 64 < img.size)
    (hfit : sector * 512 % 2 ^ 64 + len ≤ img.size) :
    (blkTransfer mem img type sector data len).2.1.read data len
      = img.file.bytes.read (sector * 512 % 2 ^ 64) len := by
  have hmin : min len (img.file.len - sector * 512 % 2 ^ 64) = len := by omega
  rw [blkTransfer_lseek, lseekOffset, if_pos hin]
  simp only [if_pos ht, File.pread, hmin]
  have hback := ByteMem.read_write_self mem data (img.file.bytes.read (sector * 512 % 2 ^ 64) len)
  rwa [ByteMem.length_read] at hback

/-- A write inside the image puts the whole buffer there. -/
theorem blkTransfer_write (ht : type ≠ blkTIn) (hin : sector * 512 % 2 ^ 64 < img.size) :
    (blkTransfer mem img type sector data len).2.2.file.bytes.read (sector * 512 % 2 ^ 64) len
      = mem.read data len := by
  rw [blkTransfer_lseek, lseekOffset, if_pos hin]
  simp only [if_neg ht, File.pwrite]
  have hback := ByteMem.read_write_self img.file.bytes (sector * 512 % 2 ^ 64) (mem.read data len)
  rwa [ByteMem.length_read] at hback

/-- A transfer that ends inside the file keeps its length. -/
theorem blkTransfer_len
    (hfit : sector * 512 % 2 ^ 64 < img.size → sector * 512 % 2 ^ 64 + len ≤ img.file.len) :
    (blkTransfer mem img type sector data len).2.2.file.len = img.file.len ∧
      (blkTransfer mem img type sector data len).2.2.size = img.size := by
  by_cases hin : sector * 512 % 2 ^ 64 < img.size
  · rw [blkTransfer_lseek, lseekOffset, if_pos hin]
    by_cases ht : type = blkTIn
    · simp only [if_pos ht, and_self]
    · have hmax : max img.file.len (sector * 512 % 2 ^ 64 + len) = img.file.len :=
        Nat.max_eq_left (hfit hin)
      simp only [if_neg ht, File.pwrite, ByteMem.length_read, hmax, ite_self, and_self]
  · rw [blkTransfer_refused mem img type sector data len (Nat.not_lt.mp hin)]
    exact ⟨rfl, rfl⟩

end

/-- What can happen around the disk: the handler takes a step, it is entered
    with its queue in any state and anything in its `req`, or the guest stores
    anything anywhere. -/
inductive DiskEvent where
  | step
  | notify (vq : Virtq) (req : ByteMem)
  | guest (mem : ByteMem)

inductive DiskStep (mapper : Int → MemRegion) : DiskEvent → Handler → Handler → Prop where
  | step (s : Handler) : DiskStep mapper .step s (handlerStep mapper s)
  | notify (vq : Virtq) (req : ByteMem) (s : Handler) (hpc : s.pc = .done) :
      DiskStep mapper (.notify vq req) s { s with vq := vq, req := req, pc := .getHead }
  | guest (mem : ByteMem) (s : Handler) : DiskStep mapper (.guest mem) s { s with mem := mem }

/-- A transfer that starts inside the image ends inside it. -/
def TransferFits (s : Handler) : DiskEvent → Prop
  | .step => ∀ u a, s.pc = .transfer u a → s.hdrSector * 512 % 2 ^ 64 < s.img.size →
      s.hdrSector * 512 % 2 ^ 64 + VringPackedDesc.lenAt s.mem a ≤ s.img.size
  | _ => True

section

variable {mapper : Int → MemRegion} {s t : Handler} {e : DiskEvent} {u a b : Nat}

/-- Only the transfer touches the image. -/
theorem handlerStep_img (mapper : Int → MemRegion) (s : Handler)
    (h : ∀ u a, s.pc ≠ .transfer u a) : (handlerStep mapper s).img = s.img := by
  have hmove := handlerStep_move mapper s
  generalize handlerStep mapper s = s' at hmove
  cases hmove with
  | transferEnd u a _ hpc | transferNext u a _ hpc => exact absurd hpc (h u a)
  | _ => rfl

/-- One event of a run keeps the image as long as the record of its size. -/
theorem diskStep_len (hlen : s.img.file.len = s.img.size) (hc : TransferFits s e)
    (hs : DiskStep mapper e s t) :
    t.img.file.len = s.img.file.len ∧ t.img.size = s.img.size := by
  cases hs with
  | step =>
      by_cases hpc : ∃ u a, s.pc = .transfer u a
      · rcases hpc with ⟨u, a, hpc⟩
        rw [handlerStep_transfer_eq mapper s u a hpc]
        refine blkTransfer_len _ _ _ _ _ _ (fun hin => ?_)
        rw [hlen]
        exact hc u a hpc hin
      · rw [handlerStep_img mapper s (fun u a h => hpc ⟨u, a, h⟩)]
        exact ⟨rfl, rfl⟩
  | notify => exact ⟨rfl, rfl⟩
  | guest => exact ⟨rfl, rfl⟩

theorem Transferring.status (h : Transferring mapper s u a b) :
    (s.answered mapper).mem (s.bufferAt mapper b)
      = if s.hdrSector * 512 % 2 ^ 64 < s.img.size then blkSOk else blkSIoerr :=
  h.completes.2.trans (statusOf_blkTransfer _ _ _ _ _ _)

/-- Below the capacity the byte offset does not wrap, and is inside. -/
theorem offset_of_lt_capacity (img : Diskimg) (sector : Nat) (hsize : img.size < 2 ^ 64)
    (h : sector < img.capacity) :
    sector * 512 % 2 ^ 64 = sector * 512 ∧ sector * 512 < img.size := by
  unfold Diskimg.capacity at h
  have hlt : sector * 512 < img.size := by omega
  exact ⟨Nat.mod_eq_of_lt (by omega), hlt⟩

/-- A transfer that fits moves the whole extent. -/
theorem Handler.movedAll_of_inImage (mapper : Int → MemRegion) (hpc : s.pc = .transfer u a)
    (hlen : s.img.file.len = s.img.size) (hsize : s.img.size < 2 ^ 64)
    (hcap : s.hdrSector < s.img.capacity) (hfit : s.InImage a) : s.MovedAll mapper a := by
  rcases offset_of_lt_capacity s.img s.hdrSector hsize hcap with ⟨hoff, hin⟩
  unfold Handler.InImage at hfit
  unfold Handler.MovedAll
  rw [handlerStep_transfer_eq mapper s u a hpc]
  rw [← hoff] at hin hfit ⊢
  by_cases ht : s.hdrType = blkTIn
  · rw [if_pos ht]
    exact blkTransfer_read _ _ _ _ _ _ hlen ht hin hfit
  · rw [if_neg ht]
    exact blkTransfer_write _ _ _ _ _ _ ht hin

/-- Reducing the sector modulo `2 ^ 55` says where the code looks. -/
theorem offset_lt_iff (size sector : Nat) :
    sector * 512 % 2 ^ 64 < size ↔ sector % 2 ^ 55 < (size + 511) / 512 := by
  omega

end

/-- In every run whose transfers, once inside the image, end inside it, the file
    keeps its length; and in any state of such a run, the next transfer that
    starts below the capacity is reported as it went exactly when its extent
    lies within the image. -/
theorem transfer_end_iff (mapper : Int → MemRegion) (s₀ s : Handler)
    (hlen : s₀.img.file.len = s₀.img.size) (hsize : s₀.img.size < 2 ^ 64)
    (hrun : Run (DiskStep mapper) TransferFits s₀ s) :
    s.img.file.len = s₀.img.file.len ∧ s.img.size = s₀.img.size ∧
      ∀ u a b, Transferring mapper s u a b → s.hdrSector < s.img.capacity →
        (EndChecked mapper s a b ↔
          s.hdrSector * 512 + VringPackedDesc.lenAt s.mem a ≤ s.img.size) := by
  have hinv : s.img.file.len = s₀.img.file.len ∧ s.img.size = s₀.img.size := by
    refine hrun.invariant
      (P := fun t => t.img.file.len = s₀.img.file.len ∧ t.img.size = s₀.img.size)
      ⟨rfl, rfl⟩ ?_
    intro t e t' ht hc hs
    have hstep := diskStep_len (by rw [ht.1, ht.2, hlen]) hc hs
    exact ⟨hstep.1.trans ht.1, hstep.2.trans ht.2⟩
  refine ⟨hinv.1, hinv.2, fun u a b h hcap => ?_⟩
  have hsize' : s.img.size < 2 ^ 64 := by rw [hinv.2]; exact hsize
  have hlen' : s.img.file.len = s.img.size := by rw [hinv.1, hinv.2, hlen]
  rcases offset_of_lt_capacity s.img s.hdrSector hsize' hcap with ⟨hoff, hin⟩
  -- The first byte is inside, so the status is OK whatever the length.
  have hok : (s.answered mapper).mem (s.bufferAt mapper b) = blkSOk := by
    rw [h.status, hoff, if_pos hin]
  constructor
  · intro hend
    exact (hend.ok_iff.mp hok).1
  · intro hfit
    have hmoved := Handler.movedAll_of_inImage mapper h.pc hlen' hsize' hcap hfit
    exact ⟨⟨fun _ => ⟨hfit, hmoved⟩, fun _ => hok⟩, fun hno => absurd ⟨hfit, hmoved⟩ hno⟩

/-- The handler entered on a ring that holds one request of a type, for `len`
    bytes at a sector of an image of `size` bytes, and run up to the
    transfer. -/
def diskRequest (size type sector len : Nat) : Handler :=
  (handlerStep sampleMapper)^[3]
    { vq := sampleRing.vq.atPos 0, img := ⟨⟨fun _ => 0, size⟩, size⟩, isrStatus := 0, irqs := 0,
      mem := putDescs sampleRing.vq
        (ByteMem.write (fun _ => 0) (sampleRam.host 0x2000)
          (ByteMem.leBytes 4 type ++ ByteMem.leBytes 4 0 ++ ByteMem.leBytes 8 sector)) 0
        [⟨0x2000, 16, 0, 0x81⟩, ⟨0x3000, len, 0, 0x81⟩, ⟨0x4000, 1, 0, 0x80⟩],
      req := fun _ => 0, pc := .getHead, taken := [], log := [] }

theorem transfer_end_iff_lastSector :
    let s := diskRequest 4096 blkTOut 7 512
    let a := sampleRing.vq.slot 1
    let b := sampleRing.vq.slot 2
    Transferring sampleMapper s (sampleRing.vq.slot 0) a b ∧ s.hdrSector < s.img.capacity ∧
      (EndChecked sampleMapper s a b ↔
        s.hdrSector * 512 + VringPackedDesc.lenAt s.mem a ≤ s.img.size) :=
  ⟨by decide +kernel, by decide +kernel,
    (transfer_end_iff sampleMapper (diskRequest 4096 blkTOut 7 512) _ (by decide +kernel)
      (by decide +kernel) (.refl _)).2.2 (sampleRing.vq.slot 0) _ _ (by decide +kernel)
      (by decide +kernel)⟩

/-- A write of two sectors at the last one is reported OK and makes the file
    longer; a read of two sectors there is reported OK and delivers one. -/
theorem transfer_past_end :
    let w := diskRequest 4096 blkTOut 7 1024
    let r := diskRequest 4096 blkTIn 7 1024
    let a := sampleRing.vq.slot 1
    let b := sampleRing.vq.slot 2
    (Transferring sampleMapper w (sampleRing.vq.slot 0) a b ∧ w.hdrSector < w.img.capacity ∧
      w.img.file.len = w.img.size ∧ ¬ EndChecked sampleMapper w a b ∧
      (w.answered sampleMapper).img.file.len = 4608) ∧
    (Transferring sampleMapper r (sampleRing.vq.slot 0) a b ∧ r.hdrSector < r.img.capacity ∧
      r.img.file.len = r.img.size ∧ ¬ EndChecked sampleMapper r a b) := by
  refine ⟨⟨by decide +kernel, by decide +kernel, by decide +kernel, fun h => ?_,
    by decide +kernel⟩, by decide +kernel, by decide +kernel, by decide +kernel, fun h => ?_⟩
  · exact absurd (h.ok_iff.mp (by decide +kernel)).1 (by unfold Handler.InImage; decide +kernel)
  · exact absurd (h.ok_iff.mp (by decide +kernel)).1 (by unfold Handler.InImage; decide +kernel)

/-- A request for any sector at all, so in particular for one at or past the
    capacity, is refused exactly when the sector modulo `2 ^ 55` is past the
    last one the image reaches into. -/
theorem sector_refused_iff (mapper : Int → MemRegion) (s : Handler) (u a b : Nat)
    (h : Transferring mapper s u a b) :
    Refused mapper s b ↔ (s.img.size + 511) / 512 ≤ s.hdrSector % 2 ^ 55 := by
  rw [← Nat.not_lt, ← offset_lt_iff]
  constructor
  · intro href hin
    have hnone := href.untouched
    rw [lseekOffset, if_pos hin] at hnone
    exact absurd hnone (Option.some_ne_none _)
  · intro hout
    have hsame := blkTransfer_refused s.mem s.img s.hdrType s.hdrSector (s.bufferAt mapper a)
      (VringPackedDesc.lenAt s.mem a) (Nat.not_lt.mp hout)
    refine ⟨?_, h.completes.1.trans (congrArg Prod.snd hsame), ?_⟩
    · rw [h.status, if_neg hout]
    · rw [lseekOffset, if_neg hout]

theorem sector_refused_iff_capacity :
    let s := diskRequest 4096 blkTIn 8 512
    Transferring sampleMapper s (sampleRing.vq.slot 0) (sampleRing.vq.slot 1)
      (sampleRing.vq.slot 2) ∧ s.img.capacity ≤ s.hdrSector ∧
    Refused sampleMapper s (sampleRing.vq.slot 2) :=
  ⟨by decide +kernel, by decide +kernel,
    (sector_refused_iff sampleMapper _ (sampleRing.vq.slot 0) (sampleRing.vq.slot 1) _
      (by decide +kernel)).mpr (by decide +kernel)⟩

/-- A write to sector `2 ^ 55` is a write to the start of the disk, and the
    sector after the last whole one of an image of 600 bytes can be read. -/
theorem sector_aliases :
    let w := diskRequest 4096 blkTOut (2 ^ 55) 512
    let r := diskRequest 600 blkTIn 1 512
    let a := sampleRing.vq.slot 1
    let b := sampleRing.vq.slot 2
    (Transferring sampleMapper w (sampleRing.vq.slot 0) a b ∧ w.img.capacity ≤ w.hdrSector ∧
      lseekOffset w.img w.hdrSector = some 0 ∧ ¬ Refused sampleMapper w b) ∧
    (Transferring sampleMapper r (sampleRing.vq.slot 0) a b ∧ r.img.capacity ≤ r.hdrSector ∧
      ¬ Refused sampleMapper r b) := by
  refine ⟨⟨by decide +kernel, by decide +kernel, by decide +kernel, fun h => ?_⟩,
    by decide +kernel, by decide +kernel, fun h => ?_⟩
  · exact absurd h.status (by decide +kernel)
  · exact absurd h.status (by decide +kernel)

end Microv
