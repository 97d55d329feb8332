import Microv.Lib.History
import Microv.Theory.Sequential

/-!
# Disk Semantics

The disk as an array of bytes.

Against a byte array a write replaces its extent and a read returns what the
writes before it left. `SeqSpec` states that for a list of requests: the disk
is the latest write to each byte, every read's buffer holds the disk as the
requests before it left it, and every status byte is the one its extent
deserves. The buffers overlap nowhere, so a buffer read at the end holds what
was put there when its request was executed, and the headers and data of a
request are those of the memory at the start.

`Theory.Sequential` reduces any schedule to the requests one by one, and here
the requests one by one are reduced to the array.

## Main definitions

* `diskAfter`: The disk after a list of requests.
* `SeqSpec`: What they leave.
* `Separate`: Buffers overlap nowhere.
* `SchedInv`: The invariant of a schedule.

## Theorems

* `blkTransfer_in`, `blkTransfer_out`: One access inside the image.
* `seqSpec_seqRun`: Requests one by one meet the specification.
* `batching_independent`: Every schedule does.
-/

namespace Microv

/-! ### In-range accesses -/

section

variable (img : Diskimg) (m : ByteMem) (sector data len : Nat)

/-- The status of an access inside the image. An empty extent may start at the
    very end, where the code's test of the first byte still fails. -/
def statusAt (size off : Nat) : UInt8 :=
  if off < size then blkSOk else blkSIoerr

theorem blkTransfer_in (hlen : img.file.len = img.size) (hsize : img.size < 2 ^ 64)
    (hext : sector * 512 + len ≤ img.size) :
    statusOf (blkTransfer m img blkTIn sector data len).1 = statusAt img.size (sector * 512) ∧
      (blkTransfer m img blkTIn sector data len).2.1
        = m.write data (img.file.bytes.read (sector * 512) len) ∧
      (blkTransfer m img blkTIn sector data len).2.2 = img := by
  have hoff : sector * 512 % 2 ^ 64 = sector * 512 := Nat.mod_eq_of_lt (by omega)
  simp only [blkTransfer, if_true, virtioBlkRead, diskimgRead, hoff, statusAt]
  by_cases hlt : sector * 512 < img.size
  · have hmin : min len (img.file.len - sector * 512) = len := Nat.min_eq_left (by omega)
    simp only [if_pos hlt, File.pread, hmin, ByteMem.length_read, and_true]
    rw [statusOf, if_neg (by omega)]
  · have hz : len = 0 := by omega
    subst hz
    simp only [if_neg hlt, ByteMem.read, List.range_zero, List.map_nil, and_true]
    rfl

theorem blkTransfer_out (hlen : img.file.len = img.size) (hsize : img.size < 2 ^ 64)
    (hext : sector * 512 + len ≤ img.size) :
    statusOf (blkTransfer m img blkTOut sector data len).1 = statusAt img.size (sector * 512) ∧
      (blkTransfer m img blkTOut sector data len).2.1 = m ∧
      (blkTransfer m img blkTOut sector data len).2.2 = { img with
        file := { img.file with
          bytes := img.file.bytes.write (sector * 512) (m.read data len) } } := by
  -- Inside the image the offset does not wrap.
  have hoff : sector * 512 % 2 ^ 64 = sector * 512 := Nat.mod_eq_of_lt (by omega)
  have hne : ¬ blkTOut = blkTIn := by decide
  simp only [blkTransfer, if_neg hne, virtioBlkWrite, diskimgWrite, hoff, statusAt]
  by_cases hlt : sector * 512 < img.size
  · -- The image does not grow.
    have hmax : (if len = 0 then img.file.len else max img.file.len (sector * 512 + len))
        = img.file.len := by
      split_ifs
      · rfl
      · exact Nat.max_eq_left (by omega)
    simp only [if_pos hlt, File.pwrite, ByteMem.length_read, hmax, and_true]
    rw [statusOf, if_neg (by omega)]
  · -- An extent that ends at the image and starts at its end is empty.
    have hz : len = 0 := by omega
    subst hz
    simp only [if_neg hlt, ByteMem.read, List.range_zero, List.map_nil, ByteMem.write_nil,
      and_true]
    rfl

end

/-! ### The byte array -/

/-- The writes a request makes to the disk. -/
def outOf (c : Ring) (m : ByteMem) (r : Request) : List Put :=
  if r.type = blkTOut then
    [⟨hdrSectorIn c m r.toChain * 512, m.read (c.ram.host r.dataDesc.addr) r.dataDesc.len⟩]
  else []

/-- The disk after the requests: each byte is that of the latest write to
    it. -/
def diskAfter (c : Ring) (m : ByteMem) (disk : ByteMem) (rs : List Request) : ByteMem :=
  latest disk (rs.flatMap (outOf c m))

/-- What executing the requests one by one against a byte array leaves, by the
    memory and image there were at the start. -/
structure SeqSpec (c : Ring) (m₀ : ByteMem) (img₀ : Diskimg) (rs : List Request)
    (w : ByteMem × Diskimg) : Prop where
  disk : w.2.file.bytes = diskAfter c m₀ img₀.file.bytes rs
  len : w.2.file.len = img₀.file.len
  size : w.2.size = img₀.size
  -- A read delivers the disk as the requests before it left it.
  data : ∀ (i : Nat) (r : Request), rs[i]? = some r → r.type = blkTIn →
    w.1.read (c.ram.host r.dataDesc.addr) r.dataDesc.len
      = (diskAfter c m₀ img₀.file.bytes (rs.take i)).read
        (hdrSectorIn c m₀ r.toChain * 512) r.dataDesc.len
  status : ∀ r ∈ rs, w.1 (c.ram.host r.status.addr)
    = statusAt img₀.size (hdrSectorIn c m₀ r.toChain * 512)
  outside : ∀ x, x < c.vq.descRing ∨ c.vq.descRing + 16 * c.n ≤ x →
    (∀ r ∈ rs, x ≠ c.ram.host r.status.addr) →
    (∀ r ∈ rs, r.type = blkTIn → x < c.ram.host r.dataDesc.addr ∨
      c.ram.host r.dataDesc.addr + r.dataDesc.len ≤ x) → w.1 x = m₀ x

/-- A transfer as the memory at the start describes it. -/
structure SeqReq (c : Ring) (m₀ : ByteMem) (img₀ : Diskimg) (r : Request) : Prop where
  wf : ∃ p, r.toChain.Wf c p
  data : r.data = [r.dataDesc]
  transfer : isTransfer r.type = true
  type : hdrTypeIn c m₀ r.toChain = r.type
  extent : hdrSectorIn c m₀ r.toChain * 512 + r.dataDesc.len ≤ img₀.size

section

variable {c : Ring} {m₀ : ByteMem} {img₀ : Diskimg} {r : Request}

theorem SeqReq.descs (h : SeqReq c m₀ img₀ r) : r.descs = [r.hdr, r.dataDesc, r.status] := by
  rw [Chain.descs, h.data]
  rfl

theorem SeqReq.offRing (h : SeqReq c m₀ img₀ r) :
    Apart (c.ram.host r.hdr.addr) 16 c.vq.descRing (16 * c.n) ∧
      Apart (c.ram.host r.dataDesc.addr) r.dataDesc.len c.vq.descRing (16 * c.n) ∧
      Apart (c.ram.host r.status.addr) 1 c.vq.descRing (16 * c.n) := by
  rcases h.wf with ⟨p, hwf⟩
  have hdescs := h.descs
  refine ⟨hwf.hdr_offRing, hwf.host_offRing (by rw [hdescs]; simp), ?_⟩
  have hlen := hwf.status
  exact (hwf.host_offRing (show r.status ∈ r.descs by rw [hdescs]; simp)).mono (le_refl _)
    (by omega) (le_refl _) (le_refl _)

/-! ### One request -/

/-- One transfer, by the memory and image in front of it. -/
structure Transferred (c : Ring) (r : Request) (w w' : ByteMem × Diskimg) : Prop where
  disk : w'.2.file.bytes = if r.type = blkTOut then
      w.2.file.bytes.write (hdrSectorIn c w.1 r.toChain * 512)
        (w.1.read (c.ram.host r.dataDesc.addr) r.dataDesc.len)
    else w.2.file.bytes
  len : w'.2.file.len = w.2.file.len
  size : w'.2.size = w.2.size
  data : r.type = blkTIn → w'.1.read (c.ram.host r.dataDesc.addr) r.dataDesc.len
    = w.2.file.bytes.read (hdrSectorIn c w.1 r.toChain * 512) r.dataDesc.len
  status : w'.1 (c.ram.host r.status.addr)
    = statusAt w.2.size (hdrSectorIn c w.1 r.toChain * 512)
  outside : ∀ x, x < c.vq.descRing ∨ c.vq.descRing + 16 * c.n ≤ x →
    x ≠ c.ram.host r.status.addr →
    (r.type = blkTIn → x < c.ram.host r.dataDesc.addr ∨
      c.ram.host r.dataDesc.addr + r.dataDesc.len ≤ x) → w'.1 x = w.1 x

theorem isTransfer_cases {type : Nat} (h : isTransfer type = true) :
    type = blkTIn ∨ type = blkTOut := by
  simpa only [isTransfer, Bool.or_eq_true, beq_iff_eq] using h

theorem transferred_serve (p : Nat) (w : ByteMem × Diskimg) (h : SeqReq c m₀ img₀ r)
    (hlen : w.2.file.len = w.2.size) (hsize : w.2.size < 2 ^ 64)
    (htype : hdrTypeIn c w.1 r.toChain = r.type)
    (hext : hdrSectorIn c w.1 r.toChain * 512 + r.dataDesc.len ≤ w.2.size)
    (hsep : Apart (c.ram.host r.dataDesc.addr) r.dataDesc.len (c.ram.host r.status.addr) 1) :
    Transferred c r w (serve c p r.toChain w) := by
  rcases h.offRing with ⟨-, hdoff, hsoff⟩
  have hslot := c.slot_mem p
  have hserve := serve_transfer (p := p) (w := w) (by rw [htype]; exact h.transfer) h.data
  have hacc : reqAccess c w.1 w.2 r.hdr r.dataDesc = blkTransfer w.1 w.2 r.type
      (hdrSectorIn c w.1 r.toChain) (c.ram.host r.dataDesc.addr) r.dataDesc.len := by
    rw [← htype]
    rfl
  rw [hserve]
  generalize reqAccess c w.1 w.2 r.hdr r.dataDesc = res at hacc
  -- Off the ring the completing stores are not seen.
  have hoff : ∀ x, x < c.vq.descRing ∨ c.vq.descRing + 16 * c.n ≤ x →
      completeMem (res.2.1.write (c.ram.host r.status.addr) [statusOf res.1]) (c.vq.slot p) res.1 x
        = res.2.1.write (c.ram.host r.status.addr) [statusOf res.1] x :=
    fun x hx => completeMem_outside _ _ _ _ (by omega)
  have hkeep : ∀ x, x < c.vq.descRing ∨ c.vq.descRing + 16 * c.n ≤ x →
      x ≠ c.ram.host r.status.addr →
      completeMem (res.2.1.write (c.ram.host r.status.addr) [statusOf res.1]) (c.vq.slot p) res.1 x
        = res.2.1 x := by
    intro x hring hx
    rw [hoff x hring, ByteMem.write_byte_other _ _ _ _ hx]
  have hstatus : completeMem (res.2.1.write (c.ram.host r.status.addr) [statusOf res.1])
      (c.vq.slot p) res.1 (c.ram.host r.status.addr) = statusOf res.1 := by
    unfold Apart at hsoff
    rw [hoff _ (by omega), ByteMem.write_byte_self]
  generalize completeMem (res.2.1.write (c.ram.host r.status.addr) [statusOf res.1])
    (c.vq.slot p) res.1 = m' at hkeep hstatus
  -- From here on the completed memory is known by these two facts only.
  clear hserve hoff
  -- The data buffer is off the ring and off the status byte.
  have hdata : m'.read (c.ram.host r.dataDesc.addr) r.dataDesc.len
      = res.2.1.read (c.ram.host r.dataDesc.addr) r.dataDesc.len := by
    unfold Apart at hdoff hsep
    exact ByteMem.read_congr _ _ _ _ (fun i hi => hkeep _ (by omega) (by omega))
  -- Only a read stores in the buffer, and only a write in the image.
  rcases isTransfer_cases h.transfer with hin | hout
  · have hne : ¬ r.type = blkTOut := by rw [hin]; decide
    rcases blkTransfer_in w.2 w.1 (hdrSectorIn c w.1 r.toChain) (c.ram.host r.dataDesc.addr)
      r.dataDesc.len hlen hsize hext with ⟨hst, hmem, himg⟩
    rw [← hin, ← hacc] at hst hmem himg
    constructor
    case disk => rw [if_neg hne, himg]
    case len => rw [himg]
    case size => rw [himg]
    case data =>
      intro _
      rw [hdata, hmem]
      -- The buffer reads back what the image had there.
      have hself := w.1.read_write_self (c.ram.host r.dataDesc.addr)
        (w.2.file.bytes.read (hdrSectorIn c w.1 r.toChain * 512) r.dataDesc.len)
      rw [ByteMem.length_read] at hself
      exact hself
    case status => exact hstatus.trans hst
    case outside =>
      intro x hring hx hd
      refine (hkeep x hring hx).trans ?_
      rw [hmem]
      exact ByteMem.write_outside _ _ _ _ (by rw [ByteMem.length_read]; exact hd hin)
  · rcases blkTransfer_out w.2 w.1 (hdrSectorIn c w.1 r.toChain) (c.ram.host r.dataDesc.addr)
      r.dataDesc.len hlen hsize hext with ⟨hst, hmem, himg⟩
    rw [← hout, ← hacc] at hst hmem himg
    constructor
    case disk => rw [if_pos hout, himg]
    case len => rw [himg]
    case size => rw [himg]
    case data =>
      intro hin
      rw [hout] at hin
      exact absurd hin (by decide)
    case status => exact hstatus.trans hst
    case outside =>
      intro x hring hx _
      refine (hkeep x hring hx).trans ?_
      rw [hmem]

end

/-! ### Sequences of requests -/

/-- Buffers of different requests, or of one, overlap nowhere. -/
def Separate (rs : List Request) : Prop :=
  (flatDescs rs).Pairwise fun a b => Apart a.addr a.len b.addr b.len

section

variable {c : Ring} {m₀ : ByteMem} {img₀ : Diskimg} {rs : List Request} {r : Request}

/-- What the last request's buffers keep off: those of the requests before
    it. -/
theorem Separate.last_apart {p : Nat} (hsep : Separate (rs ++ [r])) (hwr : r.toChain.Wf c p)
    (hall : ∀ a ∈ rs, SeqReq c m₀ img₀ a) {a : Request} (ha : a ∈ rs)
    {d e : VringPackedDesc} (hd : d ∈ a.descs) (he : e ∈ r.descs) :
    Apart (c.ram.host d.addr) d.len (c.ram.host e.addr) e.len := by
  rcases (hall a ha).wf with ⟨q, hwa⟩
  unfold Separate at hsep
  rw [flatDescs_append, flatDescs_singleton, List.pairwise_append] at hsep
  exact c.ram.hostApart _ _ _ _ (hwa.inRam d hd) (hwr.inRam e he)
    (hsep.2.2 d (List.mem_flatMap.mpr ⟨a, ha, hd⟩) e he)

/-- A buffer of the last request is as it was at the start. -/
theorem SeqSpec.fresh_buffer {w : ByteMem × Diskimg} {p : Nat} (hw : SeqSpec c m₀ img₀ rs w)
    (hsep : Separate (rs ++ [r])) (hwr : r.toChain.Wf c p)
    (hall : ∀ a ∈ rs, SeqReq c m₀ img₀ a) {e : VringPackedDesc} (he : e ∈ r.descs) {i : Nat}
    (hi : i < e.len) : w.1 (c.ram.host e.addr + i) = m₀ (c.ram.host e.addr + i) := by
  have hring := hwr.host_offRing he
  unfold Apart at hring
  -- Requests write their status and, for an IN, their data; both are separate.
  refine hw.outside _ (by have := c.size_pos; rw [Ring.n] at *; omega) ?_ ?_
  · intro a ha
    have hadescs := (hall a ha).descs
    rcases (hall a ha).wf with ⟨q, hwa⟩
    have hap := hsep.last_apart hwr hall ha (show a.status ∈ a.descs by rw [hadescs]; simp) he
    have hlen := hwa.status
    unfold Apart at hap
    omega
  · intro a ha _
    have hadescs := (hall a ha).descs
    have hap := hsep.last_apart hwr hall ha (show a.dataDesc ∈ a.descs by rw [hadescs]; simp) he
    unfold Apart at hap
    omega

/-- In front of the last request its buffers still hold what they held at the
    start, whatever is published: the header says the same request, and the
    data to write is the same. -/
theorem SeqSpec.buffers {w : ByteMem × Diskimg} {p : Nat} (hw : SeqSpec c m₀ img₀ rs w)
    (hsep : Separate (rs ++ [r])) (hwr : r.toChain.Wf c p) (hdata : r.data = [r.dataDesc])
    (hall : ∀ a ∈ rs, SeqReq c m₀ img₀ a) (q : Nat) (ds : List VringPackedDesc) :
    hdrTypeIn c (putDescs c.vq w.1 q ds) r.toChain = hdrTypeIn c m₀ r.toChain ∧
      hdrSectorIn c (putDescs c.vq w.1 q ds) r.toChain = hdrSectorIn c m₀ r.toChain ∧
      (putDescs c.vq w.1 q ds).read (c.ram.host r.dataDesc.addr) r.dataDesc.len
        = m₀.read (c.ram.host r.dataDesc.addr) r.dataDesc.len := by
  -- A buffer is off the ring and off what the earlier requests wrote.
  have hbyte : ∀ e ∈ r.descs, ∀ i, i < e.len →
      putDescs c.vq w.1 q ds (c.ram.host e.addr + i) = m₀ (c.ram.host e.addr + i) := by
    intro e he i hi
    rw [putDescs_offRing w.1 _ _ (hwr.host_offRing he) i hi]
    exact hw.fresh_buffer hsep hwr hall he hi
  have hhdr : ∀ i, i < 16 → putDescs c.vq w.1 q ds (c.ram.host r.hdr.addr + i)
      = m₀ (c.ram.host r.hdr.addr + i) := by
    intro i hi
    exact hbyte r.hdr (List.mem_cons_self ..) i (by rw [hwr.header]; exact hi)
  have hmem : r.dataDesc ∈ r.descs := by
    refine List.mem_cons_of_mem _ (List.mem_append_left _ ?_)
    rw [hdata]
    exact List.mem_singleton_self _
  refine ⟨?_, ?_, ?_⟩
  · exact ByteMem.le_congr _ _ _ _ (fun i hi => hhdr i (by omega))
  · refine ByteMem.le_congr _ _ _ _ ?_
    intro i hi
    rw [Nat.add_assoc]
    exact hhdr (8 + i) (by omega)
  · exact ByteMem.read_congr _ _ _ _ (fun i hi => hbyte r.dataDesc hmem i hi)

/-- The data buffer and the status byte of one request are apart. -/
theorem Separate.data_status (hsep : Separate (rs ++ [r])) (hr : SeqReq c m₀ img₀ r) :
    Apart (c.ram.host r.dataDesc.addr) r.dataDesc.len (c.ram.host r.status.addr) 1 := by
  have hdescs := hr.descs
  rcases hr.wf with ⟨q, hwf⟩
  have hlen := hwf.status
  unfold Separate at hsep
  rw [flatDescs_append, flatDescs_singleton, List.pairwise_append, hdescs] at hsep
  have hap : Apart r.dataDesc.addr r.dataDesc.len r.status.addr r.status.len := by
    have hpair := hsep.2.1
    simp only [List.pairwise_cons, List.mem_cons, List.not_mem_nil, or_false, forall_eq] at hpair
    exact hpair.2.1
  exact (c.ram.hostApart _ _ _ _ (hwf.inRam _ (by rw [hdescs]; simp))
    (hwf.inRam _ (by rw [hdescs]; simp)) hap).mono (le_refl _) (le_refl _) (le_refl _) (by omega)

theorem diskAfter_append (disk : ByteMem) :
    diskAfter c m₀ disk (rs ++ [r]) = if r.type = blkTOut then
        (diskAfter c m₀ disk rs).write (hdrSectorIn c m₀ r.toChain * 512)
          (m₀.read (c.ram.host r.dataDesc.addr) r.dataDesc.len)
      else diskAfter c m₀ disk rs := by
  unfold diskAfter
  rw [List.flatMap_append, List.flatMap_singleton, outOf]
  split_ifs
  · rw [latest_append]
  · rw [List.append_nil]

/-- One more request in published order. -/
theorem seqSpec_append {w : ByteMem × Diskimg} (p : Nat) (hw : SeqSpec c m₀ img₀ rs w)
    (hlen : img₀.file.len = img₀.size) (hsize : img₀.size < 2 ^ 64)
    (hsep : Separate (rs ++ [r])) (hall : ∀ a ∈ rs ++ [r], SeqReq c m₀ img₀ a) :
    SeqSpec c m₀ img₀ (rs ++ [r])
      (serve c p r.toChain (putDescs c.vq w.1 p r.descs, w.2)) := by
  have hr := hall r (List.mem_append_right _ (List.mem_singleton_self r))
  have hdescs := hr.descs
  have hearlier : ∀ a ∈ rs, SeqReq c m₀ img₀ a := fun a ha => hall a (List.mem_append_left _ ha)
  rcases hr.wf with ⟨q', hwr⟩
  -- Header and data still stand in guest memory as they did at the start.
  rcases hw.buffers hsep hwr hr.data hearlier p r.descs with ⟨htype, hsector, hread⟩
  have hT := transferred_serve p (putDescs c.vq w.1 p r.descs, w.2) hr
    (by rw [hw.len, hw.size]; exact hlen) (by rw [hw.size]; exact hsize)
    (by rw [htype]; exact hr.type) (by rw [hsector, hw.size]; exact hr.extent)
    (hsep.data_status hr)
  generalize serve c p r.toChain (putDescs c.vq w.1 p r.descs, w.2) = w' at hT
  have hring : ∀ x, x < c.vq.descRing ∨ c.vq.descRing + 16 * c.n ≤ x →
      putDescs c.vq w.1 p r.descs x = w.1 x :=
    fun x hx => putDescs_outside c.vq c.size_pos w.1 p x r.descs hx
  -- The buffers of the requests before it are not touched.
  have hkeep : ∀ a ∈ rs, ∀ d ∈ a.descs, ∀ i, i < d.len →
      w'.1 (c.ram.host d.addr + i) = w.1 (c.ram.host d.addr + i) := by
    intro a ha d hd i hi
    rcases (hearlier a ha).wf with ⟨q, hwa⟩
    have hoff := hwa.host_offRing hd
    have hstatus := hsep.last_apart hwr hearlier ha hd
      (show r.status ∈ r.descs by rw [hdescs]; simp)
    have hdata := hsep.last_apart hwr hearlier ha hd
      (show r.dataDesc ∈ r.descs by rw [hdescs]; simp)
    have hl := hwr.status
    have hn := c.size_pos
    unfold Apart at hoff hstatus hdata
    rw [Ring.n] at *
    have hx : c.ram.host d.addr + i < c.vq.descRing ∨
        c.vq.descRing + 16 * c.vq.info.size ≤ c.ram.host d.addr + i := by omega
    rw [hT.outside _ hx (by omega) (fun _ => by omega)]
    exact hring _ hx
  constructor
  case disk => rw [hT.disk, diskAfter_append, hw.disk, hsector, hread]
  case len => rw [hT.len, hw.len]
  case size => rw [hT.size, hw.size]
  case data =>
    intro i a ha hin
    -- An earlier read keeps what it got; this one sees the disk they all left.
    rcases Nat.lt_trichotomy i rs.length with hi | hi | hi
    · rw [List.getElem?_append_left hi] at ha
      have hmem : a ∈ rs := List.mem_of_getElem? ha
      have hadescs := (hearlier a hmem).descs
      rw [List.take_append_of_le_length (Nat.le_of_lt hi), ← hw.data i a ha hin]
      exact ByteMem.read_congr _ _ _ _
        (fun j hj => hkeep a hmem _ (by rw [hadescs]; simp) j hj)
    · rw [hi, List.getElem?_concat_length, Option.some.injEq] at ha
      subst ha
      rw [hi, List.take_left, hT.data hin, hw.disk, hsector]
    · rw [List.getElem?_eq_none (by rw [List.length_append, List.length_singleton]; omega)] at ha
      simp only [reduceCtorEq] at ha
  case status =>
    intro a ha
    -- An earlier status byte is kept, this one is stored now.
    rcases List.mem_append.mp ha with hmem | hmem
    · have hadescs := (hall a ha).descs
      rcases (hall a ha).wf with ⟨q, hwa⟩
      have hone := hkeep a hmem a.status (by rw [hadescs]; simp) 0 hwa.status
      rw [Nat.add_zero] at hone
      rw [hone]
      exact hw.status a hmem
    · rw [List.mem_singleton.mp hmem, hT.status, hsector, hw.size]
  case outside =>
    intro x hx hst hdt
    have hlast : r ∈ rs ++ [r] := List.mem_append_right _ (List.mem_singleton_self r)
    rw [hT.outside x hx (hst r hlast) (hdt r hlast)]
    -- What is outside all the buffers is outside those of the earlier requests.
    refine (hring x hx).trans ?_
    exact hw.outside x hx (fun a ha => hst a (List.mem_append_left _ ha))
      (fun a ha => hdt a (List.mem_append_left _ ha))

theorem Separate.init (h : Separate (rs ++ [r])) : Separate rs := by
  unfold Separate at *
  rw [flatDescs_append, List.pairwise_append] at h
  exact h.1

/-- Executing the requests in published order meets the specification. -/
theorem seqSpec_seqRun (hlen : img₀.file.len = img₀.size) (hsize : img₀.size < 2 ^ 64)
    (hsep : Separate rs) (hall : ∀ a ∈ rs, SeqReq c m₀ img₀ a) :
    SeqSpec c m₀ img₀ rs (seqRun c 0 rs (m₀, img₀)) := by
  induction rs using List.reverseRecOn with
  | nil =>
      refine ⟨rfl, rfl, rfl, fun i r hr => ?_, fun r hr => ?_, fun _ _ _ _ => rfl⟩
      · simp only [List.getElem?_nil, reduceCtorEq] at hr
      · exact absurd hr List.not_mem_nil
  | append_singleton rs r ih =>
      rw [seqRun_append]
      exact seqSpec_append _ (ih hsep.init (fun a ha => hall a (List.mem_append_left _ ha))) hlen
        hsize hsep hall

end

/-! ### Schedules -/

/-- Every published request is described by the memory at the start, and none
    overlaps another. -/
structure SchedInv (c : Ring) (m₀ : ByteMem) (img₀ : Diskimg) (s : RingSys) : Prop where
  batch : BatchInv c (m₀, img₀) s
  reqs : ∀ r ∈ s.published, SeqReq c m₀ img₀ r
  separate : Separate s.published

theorem Chain.data_eq (ch : Chain) (h : ch.data.length = 1) : ch.data = [ch.dataDesc] := by
  rcases List.length_eq_one_iff.mp h with ⟨d, hd⟩
  rw [Chain.dataDesc, hd]
  rfl

/-- A request described by the memory when it is published is described by the
    memory at the start. -/
theorem SchedInv.seqReq {c : Ring} {m₀ : ByteMem} {img₀ : Diskimg} {s : RingSys} {r : Request}
    (h : SchedInv c m₀ img₀ s) (hlen : img₀.file.len = img₀.size) (hsize : img₀.size < 2 ^ 64)
    (hr : Transfer c s r) : SeqReq c m₀ img₀ r := by
  have hreqs : ∀ a ∈ s.published.take s.dev.log.length, SeqReq c m₀ img₀ a :=
    fun a ha => h.reqs a (List.mem_of_mem_take ha)
  -- The request's own buffers have not been written since the start.
  have hsub : Separate (s.published.take s.dev.log.length ++ [r]) := by
    have hsep := hr.separate
    unfold Separate
    rw [flatDescs_append] at hsep ⊢
    refine hsep.sublist (List.Sublist.append ?_ (List.Sublist.refl _))
    conv_rhs => rw [← List.take_append_drop s.dev.log.length s.published, flatDescs_append]
    exact List.sublist_append_left _ _
  have hspec := seqSpec_seqRun hlen hsize hsub.init hreqs
  have hdata := r.toChain.data_eq hr.data
  rcases hspec.buffers hsub hr.wf hdata hreqs (startOf s.published s.dev.log.length)
    (flatDescs (s.published.drop s.dev.log.length)) with ⟨htype, hsector, _⟩
  rw [← h.batch.served.1] at htype hsector
  have hsz : s.dev.img.size = img₀.size := by
    rw [h.batch.served.2]
    exact hspec.size
  refine ⟨⟨_, hr.wf⟩, hdata, hr.isTransfer, ?_, ?_⟩
  · rw [← htype]
    exact hr.type.symm
  · rw [← hsector, ← hsz]
    exact hr.extent

theorem schedInv_step {c : Ring} {m₀ : ByteMem} {img₀ : Diskimg} {s s' : RingSys}
    (hlen : img₀.file.len = img₀.size) (hsize : img₀.size < 2 ^ 64) (h : SchedInv c m₀ img₀ s)
    (hs : BatchStep c s s') : SchedInv c m₀ img₀ s' := by
  have hbatch := batchInv_step h.batch hs
  -- Only publishing changes what is published.
  cases hs with
  | publish r ht =>
      refine ⟨hbatch, fun a ha => ?_, ht.separate⟩
      rcases List.mem_append.mp ha with hold | hnew
      · exact h.reqs a hold
      · rw [List.mem_singleton.mp hnew]
        exact h.seqReq hlen hsize ht
  | reap hlt hused => exact ⟨hbatch, h.reqs, h.separate⟩
  | notify k hk => exact ⟨hbatch, h.reqs, h.separate⟩

theorem schedInv_run {c : Ring} {m₀ : ByteMem} {img₀ : Diskimg} {s s' : RingSys}
    (hlen : img₀.file.len = img₀.size) (hsize : img₀.size < 2 ^ 64) (h : SchedInv c m₀ img₀ s)
    (hr : Relation.ReflTransGen (BatchStep c) s s') : SchedInv c m₀ img₀ s' := by
  induction hr with
  | refl => exact h
  | tail _ hstep ih => exact schedInv_step hlen hsize ih hstep

/-- However publishing and notifications were interleaved, a notification
    returns, and it leaves memory, the ring included, and the disk as executing
    the published requests one by one does; and that is what a byte array
    would hold. -/
theorem batching_independent (c : Ring) (s₀ s : RingSys) (h0 : s₀.Initial c)
    (hlen : s₀.dev.img.file.len = s₀.dev.img.size) (hsize : s₀.dev.img.size < 2 ^ 64)
    (hrun : Relation.ReflTransGen (BatchStep c) s₀ s) :
    (∃ k, ((handlerStep c.ram.mapper)^[k] (virtqNotify s.dev)).pc = .done) ∧
    ∀ k, ((handlerStep c.ram.mapper)^[k] (virtqNotify s.dev)).pc = .done →
      (((handlerStep c.ram.mapper)^[k] (virtqNotify s.dev)).mem,
          ((handlerStep c.ram.mapper)^[k] (virtqNotify s.dev)).img)
        = seqRun c 0 s.published (s₀.dev.mem, s₀.dev.img) ∧
      SeqSpec c s₀.dev.mem s₀.dev.img s.published
        (seqRun c 0 s.published (s₀.dev.mem, s₀.dev.img)) := by
  -- Nothing is published yet.
  have hinit : SchedInv c s₀.dev.mem s₀.dev.img s₀ := by
    refine ⟨batchInv_initial c s₀ h0, fun r hr => ?_, ?_⟩
    · rw [h0.published] at hr
      exact absurd hr List.not_mem_nil
    · rw [h0.published]
      exact List.Pairwise.nil
  have h := schedInv_run hlen hsize hinit hrun
  constructor
  · rcases batchInv_drain h.batch with ⟨k, hk, _⟩
    exact ⟨k, hk⟩
  · intro k hk
    -- After the last notification every published request has been served.
    rcases batchInv_notify h.batch k hk with ⟨hinv, hlog⟩
    have hserved := hinv.served
    unfold Served at hserved
    simp only [hlog, List.take_length, List.drop_length] at hserved
    exact ⟨Prod.ext hserved.1 hserved.2, seqSpec_seqRun hlen hsize h.separate h.reqs⟩

/-- One read is published and executed, then a second is published. -/
def readsApart : RingSys :=
  RingSys.put sampleRing
    { sampleSys.put sampleRing (readChain 0x2000 0x3000 0x4000) with
      dev := (handlerStep sampleMapper)^[10]
        (virtqNotify (sampleSys.put sampleRing (readChain 0x2000 0x3000 0x4000)).dev) }
    (readChain 0x6000 0x5000 0x4001)

theorem reach_readsApart :
    Relation.ReflTransGen (BatchStep sampleRing) sampleSys readsApart := by
  refine ((Relation.ReflTransGen.single (BatchStep.publish _ _ ?_)).tail
    (BatchStep.notify _ 10 (by decide +kernel))).tail (BatchStep.publish _ _ ?_)
  · exact ⟨⟨by decide, by decide, rfl, by decide, by decide, by decide⟩, by decide,
      by decide +kernel, rfl, rfl, by decide +kernel, by decide +kernel⟩
  · have hwf : (readChain 0x6000 0x5000 0x4001).toChain.Wf sampleRing 3 :=
      ⟨by decide, by decide, rfl, by decide, by decide, by decide⟩
    exact ⟨hwf, show 3 + 3 ≤ 0 + 128 by decide, by decide +kernel, rfl, rfl, by decide +kernel,
      by decide +kernel⟩

/-- The second read's notification, which finds the first already executed. -/
theorem batching_independent_readsApart :
    ((handlerStep sampleMapper)^[10] (virtqNotify readsApart.dev)).pc = .done ∧
    (((handlerStep sampleMapper)^[10] (virtqNotify readsApart.dev)).mem,
        ((handlerStep sampleMapper)^[10] (virtqNotify readsApart.dev)).img)
      = seqRun sampleRing 0 readsApart.published (sampleSys.dev.mem, sampleSys.dev.img) := by
  have hdone : ((handlerStep sampleMapper)^[10] (virtqNotify readsApart.dev)).pc = .done := by
    decide +kernel
  exact ⟨hdone, ((batching_independent sampleRing sampleSys readsApart sampleSys_initial rfl
    (by decide) reach_readsApart).2 10 hdone).1⟩

end Microv
