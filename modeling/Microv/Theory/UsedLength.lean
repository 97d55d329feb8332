import Microv.Theory.Publication

/-!
# The Used Length

What the length in a used descriptor says, and what the device wrote.

A driver reads the length of a used head as the number of bytes the device put
into the chain, counted from the start of the buffers that are writable for it.
The handler stores the result of the disk access there, whatever the access was:
the bytes read for a read, the bytes written to the image for a write, and `-1`
in 32 bits for a request that was refused or whose access failed. The kernel may
answer each access as it likes, so a run comes with its answers.

What the device wrote is recorded while a request is in service, as the buffer
of the chain and the number of bytes from its start. The record is read against
the chain as it was taken. The length is truthful for a request of no known
type, and for a transfer that was neither refused nor failed and moved nothing,
or was a read into a writable buffer; what is left are transfers of a single
byte, where the status byte makes up for it.

## Main definitions

* `Taken.writable`: The buffer is writable for the device.
* `writableLen`: The bytes of a chain the device may write.
* `writtenPrefix`: How many of them, from the first on, were written.
* `Handler.writes`: What a step writes into the chain.
* `Tracked`: The handler, the kernel's last answer, and what was written for the
  request in service.
* `trackRun`: A run with the kernel's answers.
* `TruthfulLen`: The length stored is covered by what was written.
* `Handler.LenCovered`: When it is.
* `Handler.Standing`: What is taken and written at each point of a request.

## Theorems

* `handlerStepIo_full`: With full answers the step is `handlerStep`.
* `accessIo_result`: The result of a disk access.
* `Tracked.Sound.writes_mem`: The record is what the step stores.
* `Tracked.Sound.step`: The record of a request, step by step.
* `le_writtenPrefix_in`, `le_writtenPrefix_out`: How far a transfer gets.
* `used_length_iff`: When the length of a completed request is truthful.
-/

namespace Microv

/-- The bit number of `VRING_DESC_F_WRITE`. -/
def descWriteBit : Nat := 1

/-- The buffer is writable for the device. -/
def Taken.writable (e : Taken) : Bool :=
  e.desc.flags.testBit descWriteBit

/-- The total length of the writable buffers of a chain. -/
def writableLen : List Taken → Nat
  | [] => 0
  | e :: es => (if e.writable then e.desc.len else 0) + writableLen es

/-- How many bytes from the start of the writable part were written, where `w`
    gives the bytes written from the start of each buffer of the chain and `i`
    is the place of the first one. -/
def writtenPrefix (w : Nat → Nat) : Nat → List Taken → Nat
  | _, [] => 0
  | i, e :: es =>
      if e.writable then
        -- Past a buffer that was not filled nothing counts.
        if e.desc.len ≤ w i then e.desc.len + writtenPrefix w (i + 1) es else w i
      else writtenPrefix w (i + 1) es

namespace Handler

variable (s : Handler)

/-- The offset of the request in the image. -/
def offset : Nat :=
  s.hdrSector * 512 % 2 ^ 64

/-- The bytes a transfer moves of a buffer of `len` bytes, if it is not refused
    and the kernel moves at most `n`. -/
def movedBytes (n len : Nat) : Nat :=
  min n (if s.hdrType = blkTIn then min len (s.img.file.len - s.offset) else len)

/-- The bytes a transfer moves of a buffer of `len` bytes, unless it is refused
    or fails. -/
def transferred (answer : Option Nat) (len : Nat) : Option Nat :=
  if s.offset < s.img.size then answer.map (s.movedBytes · len) else none

/-- The result of a transfer of a buffer of `len` bytes. -/
def result (answer : Option Nat) (len : Nat) : Int :=
  match s.transferred answer len with
  | some m => m
  | none => -1

/-- The bytes it puts into that buffer. -/
def delivered (answer : Option Nat) (len : Nat) : Nat :=
  if s.hdrType = blkTIn then (s.transferred answer len).getD 0 else 0

/-- What the next step writes into the chain: the place of the buffer, which is
    the one taken last, and how many bytes from its start. -/
def writes (answer : Option Nat) : List (Nat × Nat) :=
  match s.pc with
  | .transfer _ d => [(s.taken.length - 1, s.delivered answer (VringPackedDesc.lenAt s.mem d))]
  | .putStatus _ _ _ _ => [(s.taken.length - 1, 1)]
  | _ => []

end Handler

/-- The handler, the kernel's answer to the transfer of the request in service,
    and what was written for it. -/
structure Tracked where
  handler : Handler
  answer : Option Nat
  record : List (Nat × Nat)

/-- The point of a disk access. -/
def HandlerPc.transfers : HandlerPc → Bool
  | transfer _ _ => true
  | _ => false

/-- One step of the handler; a head that is looked for opens a new record. -/
def trackStep (mapper : Int → MemRegion) (answer : Option Nat) (t : Tracked) : Tracked :=
  { handler := handlerStepIo mapper answer t.handler,
    answer := if t.handler.pc.transfers then answer else t.answer,
    record := if t.handler.pc = .getHead then [] else t.record ++ t.handler.writes answer }

/-- The run from `s`, where the kernel's answer at step `k` is `io k`. -/
def trackRun (mapper : Int → MemRegion) (io : Nat → Option Nat) (s : Handler) : Nat → Tracked
  | 0 => ⟨s, none, []⟩
  | k + 1 => trackStep mapper (io k) (trackRun mapper io s k)

/-- The bytes written from the start of the buffer at a place. -/
def writtenAt (record : List (Nat × Nat)) (i : Nat) : Nat :=
  ((record.filter fun e => e.1 == i).map Prod.snd).foldr max 0

/-- The length the next step stores in the head at `u` is within the writable
    part of the chain, and the device wrote that much of it from the start. -/
structure TruthfulLen (mapper : Int → MemRegion) (t : Tracked) (u : Nat) : Prop where
  bounded : VringPackedDesc.lenAt (handlerStep mapper t.handler).mem u
    ≤ writableLen t.handler.taken
  written : VringPackedDesc.lenAt (handlerStep mapper t.handler).mem u
    ≤ writtenPrefix (writtenAt t.record) 0 t.handler.taken

/-- The result is one the device wrote: the request is no transfer, or it is
    neither refused nor failed and moves no byte, or the header has no writable
    byte and it is a read into a writable buffer, or one byte is moved past an
    unwritable buffer and a status byte stands for it. -/
def Handler.LenCovered (s : Handler) (answer : Option Nat) : Prop :=
  match s.taken with
  | [h, dat, st] =>
      s.offset < s.img.size ∧ ∃ n, answer = some n ∧
        (s.movedBytes n dat.desc.len = 0 ∨
          (h.writable = false ∨ h.desc.len = 0) ∧
            ((s.hdrType = blkTIn ∧ dat.writable = true) ∨
              (dat.writable = false ∧ s.movedBytes n dat.desc.len = 1 ∧ st.writable = true ∧
                1 ≤ st.desc.len)))
  | _ => True

section

variable (mem : ByteMem) (img : Diskimg) (type sector data len : Nat)

/-- An answer that lets the whole buffer through changes nothing. -/
theorem blkTransferIo_full (n : Nat) (hn : len ≤ n) :
    blkTransferIo (some n) mem img type sector data len
      = blkTransfer mem img type sector data len := by
  have hread : ∀ m : ByteMem, (m.read data len).take n = m.read data len := fun m =>
    List.take_of_length_le (by rw [ByteMem.length_read]; exact hn)
  have hpread : ∀ o, (img.file.pread o len).take n = img.file.pread o len := fun o =>
    List.take_of_length_le (by
      rw [File.pread, ByteMem.length_read]
      exact Nat.le_trans (Nat.min_le_left _ _) hn)
  unfold blkTransferIo blkTransfer virtioBlkRead virtioBlkWrite diskimgRead diskimgWrite
  by_cases ht : type = blkTIn
  · simp only [if_pos ht, hpread]
    split_ifs
    · rfl
    · rw [ByteMem.write_nil]
  · simp only [if_neg ht, hread]
    split_ifs <;> rfl

/-- The step for an answer that lets the buffer through is `handlerStep`. -/
theorem handlerStepIo_full (mapper : Int → MemRegion) (n : Nat) (s : Handler)
    (hn : ∀ u d, s.pc = .transfer u d → VringPackedDesc.lenAt s.mem d ≤ n) :
    handlerStepIo mapper (some n) s = handlerStep mapper s := by
  cases hpc : s.pc with
  | transfer u d =>
      rw [handlerStepIo, handlerStep, hpc]
      simp only [blkTransferIo_full _ _ _ _ _ _ n (hn u d hpc)]
  | _ => rw [handlerStepIo, hpc]

end

section

variable (mapper : Int → MemRegion) (answer : Option Nat) (s : Handler)

theorem handlerStepIo_eq (h : s.pc.transfers = false) :
    handlerStepIo mapper answer s = handlerStep mapper s := by
  cases hpc : s.pc with
  | transfer u d =>
      rw [hpc] at h
      exact absurd h Bool.noConfusion
  | _ => rw [handlerStepIo, hpc]

/-- The disk access the handler makes for the descriptor `d`. -/
def Handler.accessIo (d : VringPackedDesc) : Int × ByteMem × Diskimg :=
  blkTransferIo answer s.mem s.img s.hdrType s.hdrSector (getUserspaceAddr mapper d.addr) d.len

/-- The result of a disk access. -/
theorem accessIo_result (d : VringPackedDesc) :
    (s.accessIo mapper answer d).1 = s.result answer d.len := by
  unfold Handler.accessIo blkTransferIo Handler.result Handler.transferred Handler.offset
    Handler.movedBytes
  by_cases hin : s.hdrSector * 512 % 2 ^ 64 < s.img.size
  · simp only [if_pos hin]
    cases answer with
    | none => rfl
    | some n =>
        by_cases ht : s.hdrType = blkTIn
        · simp only [if_pos ht, Option.map_some, List.length_take, File.pread,
            ByteMem.length_read]
          rfl
        · simp only [if_neg ht, Option.map_some, List.length_take, ByteMem.length_read]
  · simp only [if_neg hin]

/-- What it stores is in the buffer, as many bytes as are delivered. -/
theorem accessIo_mem (d : VringPackedDesc) :
    ∃ bs, bs.length = s.delivered answer d.len ∧
      (s.accessIo mapper answer d).2.1 = s.mem.write (getUserspaceAddr mapper d.addr) bs := by
  unfold Handler.accessIo blkTransferIo Handler.delivered Handler.transferred Handler.offset
    Handler.movedBytes
  by_cases hin : s.hdrSector * 512 % 2 ^ 64 < s.img.size
  · simp only [if_pos hin]
    cases answer with
    | none => exact ⟨[], by simp only [Option.map_none, Option.getD_none, ite_self,
        List.length_nil], by rw [ByteMem.write_nil]⟩
    | some n =>
        by_cases ht : s.hdrType = blkTIn
        · simp only [if_pos ht, Option.map_some, Option.getD_some]
          refine ⟨_, ?_, rfl⟩
          rw [List.length_take, File.pread, ByteMem.length_read]
          rfl
        · simp only [if_neg ht]
          exact ⟨[], rfl, by rw [ByteMem.write_nil]⟩
  · simp only [if_neg hin]
    exact ⟨[], by simp only [Option.getD_none, ite_self, List.length_nil],
      by rw [ByteMem.write_nil]⟩

theorem accessIo_img (d : VringPackedDesc) :
    (s.accessIo mapper answer d).2.2.size = s.img.size ∧
      (s.hdrType = blkTIn → (s.accessIo mapper answer d).2.2 = s.img) := by
  unfold Handler.accessIo blkTransferIo
  by_cases ht : s.hdrType = blkTIn
  · simp only [if_pos ht]
    split_ifs
    · cases answer <;> exact ⟨rfl, fun _ => rfl⟩
    · exact ⟨rfl, fun _ => rfl⟩
  · simp only [ht, false_implies, and_true, if_false]
    split_ifs
    · cases answer <;> rfl
    · rfl

/-- The NEXT flag is tested after the transfer, in the memory it left. -/
theorem handlerStepIo_transfer (u a : Nat) (hpc : s.pc = .transfer u a) :
    handlerStepIo mapper answer s = { s with
      mem := (s.accessIo mapper answer (VringPackedDesc.load s.mem a)).2.1,
      img := (s.accessIo mapper answer (VringPackedDesc.load s.mem a)).2.2,
      pc := if (!virtqCheckNext (s.accessIo mapper answer (VringPackedDesc.load s.mem a)).2.1 a)
          = true then HandlerPc.done
        else .getStatus u (statusOf (s.accessIo mapper answer (VringPackedDesc.load s.mem a)).1)
          (s.accessIo mapper answer (VringPackedDesc.load s.mem a)).1 } := by
  rw [handlerStepIo, hpc]
  rfl

end

/-- The request in service up to its status descriptor: the chain so far, what
    was written into it and the result. -/
def Handler.Body (s : Handler) (answer : Option Nat) (chain : List Taken)
    (record : List (Nat × Nat)) (r : Int) : Prop :=
  (∃ h, chain = [h] ∧ record = [] ∧ r = 0) ∨
  ∃ h dat, chain = [h, dat] ∧ dat.desc.len < 2 ^ 32 ∧
    record = [(1, s.delivered answer dat.desc.len)] ∧ r = s.result answer dat.desc.len

/-- Only the copied header counts, the size of the image, and for a read the
    image itself. -/
theorem Handler.Body.congr {s s' : Handler} {answer : Option Nat} {chain : List Taken}
    {record : List (Nat × Nat)} {r : Int} (h : s.Body answer chain record r)
    (hreq : s'.req = s.req) (hsize : s'.img.size = s.img.size)
    (himg : s.hdrType = blkTIn → s'.img = s.img) : s'.Body answer chain record r := by
  have htype : s'.hdrType = s.hdrType := by rw [Handler.hdrType, hreq, Handler.hdrType]
  have hoff : s'.offset = s.offset := by
    rw [Handler.offset, Handler.hdrSector, hreq, Handler.offset, Handler.hdrSector]
  have hmoved : ∀ len n, s'.movedBytes n len = s.movedBytes n len := by
    intro len n
    rw [Handler.movedBytes, Handler.movedBytes, htype, hoff]
    by_cases ht : s.hdrType = blkTIn
    · rw [himg ht]
    · rw [if_neg ht, if_neg ht]
  have htrans : ∀ len, s'.transferred answer len = s.transferred answer len := by
    intro len
    simp only [Handler.transferred, hoff, hsize, hmoved len]
  rcases h with h | ⟨hd, dat, hchain, hlen, hrec, hr⟩
  · exact Or.inl h
  · refine Or.inr ⟨hd, dat, hchain, hlen, ?_, ?_⟩
    · rw [hrec, Handler.delivered, Handler.delivered, htype, htrans]
    · rw [hr, Handler.result, Handler.result, htrans]

/-- What has been taken for the request in service at each point, and what was
    written. -/
inductive Handler.Standing (s : Handler) (answer : Option Nat) (record : List (Nat × Nat)) :
    HandlerPc → Prop where
  | copyHeader (u : Nat) (h : Taken) (htaken : s.taken = [h]) (hrec : record = []) :
      Standing s answer record (.copyHeader u)
  | getData (u : Nat) (h : Taken) (htaken : s.taken = [h]) (hrec : record = []) :
      Standing s answer record (.getData u)
  | transfer (u d : Nat) (h dat : Taken) (htaken : s.taken = [h, dat]) (hrec : record = [])
      (hdat : dat.desc = VringPackedDesc.load s.mem d) : Standing s answer record (.transfer u d)
  | getStatus (u : Nat) (st : UInt8) (r : Int) (hbody : s.Body answer s.taken record r) :
      Standing s answer record (.getStatus u st r)
  | putStatus (u d : Nat) (st : UInt8) (r : Int) (chain : List Taken) (e : Taken)
      (htaken : s.taken = chain ++ [e]) (hbody : s.Body answer chain record r)
      (he : e.desc = VringPackedDesc.load s.mem d) :
      Standing s answer record (.putStatus u d st r)
  | putFlags (u d : Nat) (r : Int) (chain : List Taken) (e : Taken) (before : List (Nat × Nat))
      (htaken : s.taken = chain ++ [e]) (hbody : s.Body answer chain before r)
      (hrec : record = before ++ [(chain.length, 1)]) : Standing s answer record (.putFlags u d r)
  | putLen (u d : Nat) (r : Int) (chain : List Taken) (e : Taken) (before : List (Nat × Nat))
      (htaken : s.taken = chain ++ [e]) (hbody : s.Body answer chain before r)
      (hrec : record = before ++ [(chain.length, 1)]) : Standing s answer record (.putLen u d r)
  | getHead : Standing s answer record .getHead
  | signal : Standing s answer record .signal
  | done : Standing s answer record .done
  | fault : Standing s answer record .fault

/-- The record is that of the request in service. -/
def Tracked.Sound (t : Tracked) : Prop :=
  t.handler.Standing t.answer t.record t.handler.pc

section

variable (mapper : Int → MemRegion) (answer : Option Nat) (t : Tracked)

/-- What a step records it stores, from the start of the buffer that the chain
    has at that place. -/
theorem Tracked.Sound.writes_mem (hsound : t.Sound) (i n : Nat)
    (h : (i, n) ∈ t.handler.writes answer) :
    ∃ e bs, t.handler.taken[i]? = some e ∧ bs.length = n ∧
      (handlerStepIo mapper answer t.handler).mem
        = t.handler.mem.write (getUserspaceAddr mapper e.desc.addr) bs := by
  unfold Handler.writes at h
  unfold Tracked.Sound at hsound
  -- Two points store in a buffer: the transfer and the status.
  cases hpc : t.handler.pc with
  | transfer u d =>
      rw [hpc] at h hsound
      cases hsound with
      | transfer _ _ hd dat htaken _ hdat =>
          obtain ⟨rfl, rfl⟩ := Prod.mk.inj (List.mem_singleton.mp h)
          rcases accessIo_mem mapper answer t.handler (VringPackedDesc.load t.handler.mem d) with
            ⟨bs, hlen, hmem⟩
          rw [handlerStepIo_transfer mapper answer _ u d hpc, htaken]
          exact ⟨dat, bs, rfl, hlen, by rw [hdat]; exact hmem⟩
  | putStatus u d st r =>
      rw [handlerStepIo_eq mapper answer _ (by rw [hpc]; rfl)]
      rw [hpc] at h hsound
      cases hsound with
      | putStatus _ _ _ _ chain e htaken _ he =>
          obtain ⟨rfl, rfl⟩ := Prod.mk.inj (List.mem_singleton.mp h)
          rw [handlerStep_putStatus mapper _ u d st r _ hpc rfl, htaken]
          refine ⟨e, [st], ?_, rfl, by rw [he]⟩
          rw [List.length_append, List.length_singleton, Nat.add_sub_cancel,
            List.getElem?_append_right (Nat.le_refl _), Nat.sub_self]
          rfl
  | _ =>
      rw [hpc] at h
      exact absurd h List.not_mem_nil

/-- The record behind a disk access. -/
theorem Tracked.Sound.transfer (h : t.Sound) (u d : Nat) (hpc : t.handler.pc = .transfer u d) :
    (trackStep mapper answer t).Sound := by
  unfold Tracked.Sound at h
  unfold Tracked.Sound trackStep Handler.writes
  rw [hpc] at h
  cases h with
  | transfer _ _ hd dat htaken hrec hdat =>
      rcases accessIo_img mapper answer t.handler (VringPackedDesc.load t.handler.mem d) with
        ⟨hsize, himg⟩
      have hres := accessIo_result mapper answer t.handler
        (VringPackedDesc.load t.handler.mem d)
      have hlen : dat.desc.len = VringPackedDesc.lenAt t.handler.mem d := by rw [hdat]; rfl
      rw [handlerStepIo_transfer mapper answer _ u d hpc]
      generalize t.handler.accessIo mapper answer (VringPackedDesc.load t.handler.mem d) = res
        at hsize himg hres ⊢
      simp only [hpc, HandlerPc.transfers, if_true, reduceCtorEq, if_false]
      split_ifs
      · exact .done
      · -- The chain has its data descriptor, and the record its one entry.
        refine .getStatus u _ _ ?_
        have hbody : t.handler.Body answer [hd, dat]
            [(1, t.handler.delivered answer (VringPackedDesc.lenAt t.handler.mem d))] res.1 :=
          Or.inr ⟨hd, dat, rfl, by rw [hlen]; exact t.handler.mem.le_lt _ 4, by rw [hlen],
            by rw [hres, hdat]⟩
        rw [htaken, hrec]
        exact hbody.congr rfl hsize himg

/-- The record of a request, step by step. -/
theorem Tracked.Sound.step (h : t.Sound) : (trackStep mapper answer t).Sound := by
  by_cases htr : t.handler.pc.transfers = true
  · cases hpc : t.handler.pc with
    | transfer u d => exact h.transfer mapper answer t u d hpc
    | _ =>
        rw [hpc] at htr
        exact absurd htr Bool.noConfusion
  have hio := handlerStepIo_eq mapper answer t.handler (Bool.eq_false_iff.mpr htr)
  unfold Tracked.Sound at h
  unfold Tracked.Sound trackStep Handler.writes
  rw [hio, if_neg htr]
  have hmove := handlerStep_move mapper t.handler
  generalize handlerStep mapper t.handler = s' at hmove
  cases hmove with
  | takeHead vq hpc _ _ =>
      rw [if_pos hpc]
      exact .copyHeader _ _ rfl rfl
  | headerData u hpc _ _ =>
      rw [hpc] at h ⊢
      cases h with
      | copyHeader _ hd htaken hrec => exact .getData u hd htaken (by rw [hrec]; rfl)
  | headerStatus u hpc _ _ =>
      rw [hpc] at h ⊢
      cases h with
      | copyHeader _ hd htaken hrec =>
          exact .getStatus u _ 0 (Or.inl ⟨hd, htaken, by rw [hrec]; rfl, rfl⟩)
  | takeData u vq hpc _ _ =>
      rw [hpc] at h ⊢
      cases h with
      | getData _ hd htaken hrec =>
          exact .transfer u _ hd (t.handler.takes t.handler.vq.next) (by rw [htaken]; rfl)
            (by rw [hrec]; rfl) rfl
  | transferEnd _ _ _ hpc | transferNext _ _ _ hpc =>
      rw [hpc] at htr
      exact absurd rfl htr
  | takeStatus u st r vq hpc _ _ =>
      rw [hpc] at h ⊢
      cases h with
      | getStatus _ _ _ hbody =>
          rw [if_neg HandlerPc.noConfusion, List.append_nil]
          exact .putStatus u _ st r t.handler.taken (t.handler.takes t.handler.vq.next) rfl
            (hbody.congr rfl rfl fun _ => rfl) rfl
  | putStatus u d st r mem hpc _ =>
      rw [hpc] at h ⊢
      cases h with
      | putStatus _ _ _ _ chain e htaken hbody _ =>
          rw [if_neg HandlerPc.noConfusion]
          refine .putFlags u d r chain e t.record htaken (hbody.congr rfl rfl fun _ => rfl) ?_
          rw [htaken, List.length_append, List.length_singleton, Nat.add_sub_cancel]
  | putFlags u d r mem hpc _ =>
      rw [hpc] at h ⊢
      cases h with
      | putFlags _ _ _ chain e before htaken hbody hrec =>
          rw [if_neg HandlerPc.noConfusion, List.append_nil]
          exact .putLen u d r chain e before htaken (hbody.congr rfl rfl fun _ => rfl) hrec
  | stay hpc =>
      rcases hpc with hpc | hpc
      · rw [hpc]
        exact .done
      · rw [hpc]
        exact .fault
  -- Behind the other steps no request is in service.
  | idle => exact .signal
  | putLen => exact .getHead
  | missingData | missingStatus => exact .fault
  | headerEnd | raise | silent => exact .done

theorem Tracked.run_sound (io : Nat → Option Nat) (s : Handler) (hpc : s.pc = .getHead)
    (k : Nat) : (trackRun mapper io s k).Sound := by
  induction k with
  | zero =>
      rw [trackRun, Tracked.Sound, hpc]
      exact .getHead
  | succ k ih => exact ih.step mapper (io k) _

end

section

variable (w : Nat → Nat)

/-- What is written of the writable part is within it. -/
theorem writtenPrefix_le (i : Nat) (es : List Taken) : writtenPrefix w i es ≤ writableLen es := by
  induction es generalizing i with
  | nil => exact Nat.le_refl 0
  | cons e es ih =>
      have hrest := ih (i + 1)
      rw [writtenPrefix, writableLen]
      split_ifs <;> omega

/-- The prefix behind a buffer the device wrote nothing into. -/
theorem writtenPrefix_skip (i : Nat) (e : Taken) (es : List Taken) (hw : w i = 0) :
    writtenPrefix w i (e :: es)
      = if e.writable = false ∨ e.desc.len = 0 then writtenPrefix w (i + 1) es else 0 := by
  rw [writtenPrefix, hw]
  cases he : e.writable with
  | false => simp only [Bool.false_eq_true, if_false, true_or, if_true]
  | true =>
      by_cases hz : e.desc.len = 0
      · simp only [hz, Nat.le_refl, if_true, or_true, Nat.zero_add]
      · simp only [hz, Nat.le_zero_eq, if_true, if_false, Bool.true_eq_false, or_self]

/-- The prefix in the last buffer, with one byte written. -/
theorem writtenPrefix_status (i : Nat) (e : Taken) (hw : w i = 1) :
    writtenPrefix w i [e] = if e.writable = true ∧ 1 ≤ e.desc.len then 1 else 0 := by
  simp only [writtenPrefix, hw]
  cases he : e.writable with
  | false => simp only [Bool.false_eq_true, if_false, false_and]
  | true =>
      simp only [if_true, true_and]
      split_ifs <;> omega

/-- One byte behind an unwritable buffer is the status byte. -/
theorem le_status_iff (st : Taken) (m : Nat) :
    m ≤ (if st.writable = true ∧ 1 ≤ st.desc.len then 1 else 0) ↔
      m = 0 ∨ m = 1 ∧ st.writable = true ∧ 1 ≤ st.desc.len := by
  split_ifs with hst
  · simp only [hst, and_self, and_true]
    omega
  · simp only [hst, and_false, or_false]
    omega

/-- A read of `m` bytes: the prefix has them if they went into a writable
    buffer. -/
theorem le_writtenPrefix_in (h dat st : Taken) (m : Nat) (h0 : w 0 = 0) (h1 : w 1 = m)
    (h2 : w 2 = 1) (hm : m ≤ dat.desc.len) :
    m ≤ writtenPrefix w 0 [h, dat, st] ↔
      m = 0 ∨ (h.writable = false ∨ h.desc.len = 0) ∧
        (dat.writable = true ∨
          (dat.writable = false ∧ m = 1 ∧ st.writable = true ∧ 1 ≤ st.desc.len)) := by
  rw [writtenPrefix_skip w 0 h _ h0]
  by_cases hskip : h.writable = false ∨ h.desc.len = 0
  · rw [if_pos hskip, writtenPrefix, h1, writtenPrefix_status w 2 st h2]
    cases hdat : dat.writable with
    | true =>
        simp only [if_true, hskip, true_and, true_or, or_true, iff_true]
        split_ifs <;> omega
    | false =>
        simp only [Bool.false_eq_true, if_false, hskip, true_and, false_or]
        exact le_status_iff st m
  · simp only [hskip, if_false, false_and, or_false, Nat.le_zero_eq]

/-- A write of `m` bytes: the prefix has as many only if there is at most
    one. -/
theorem le_writtenPrefix_out (h dat st : Taken) (m : Nat) (h0 : w 0 = 0) (h1 : w 1 = 0)
    (h2 : w 2 = 1) (hm : m ≤ dat.desc.len) :
    m ≤ writtenPrefix w 0 [h, dat, st] ↔
      m = 0 ∨ (h.writable = false ∨ h.desc.len = 0) ∧ dat.writable = false ∧ m = 1 ∧
        st.writable = true ∧ 1 ≤ st.desc.len := by
  rw [writtenPrefix_skip w 0 h _ h0]
  by_cases hskip : h.writable = false ∨ h.desc.len = 0
  · rw [if_pos hskip, writtenPrefix_skip w 1 dat _ h1, writtenPrefix_status w 2 st h2]
    by_cases hz : dat.desc.len = 0
    · have hm0 : m = 0 := by omega
      simp only [hm0, Nat.zero_le, true_or]
    · cases hdat : dat.writable with
      | true => simp only [hz, Bool.true_eq_false, or_self, if_false, Nat.le_zero_eq, false_and,
          and_false, or_false]
      | false =>
          simp only [true_or, if_true, hskip, true_and]
          exact le_status_iff st _
  · simp only [hskip, if_false, false_and, or_false, Nat.le_zero_eq]

/-- A refused transfer leaves at most the status byte. -/
theorem writtenPrefix_refused (h dat st : Taken) (h0 : w 0 = 0) (h1 : w 1 = 0) (h2 : w 2 = 1) :
    writtenPrefix w 0 [h, dat, st] ≤ 1 := by
  rw [writtenPrefix_skip w 0 h _ h0, writtenPrefix_skip w 1 dat _ h1,
    writtenPrefix_status w 2 st h2]
  split_ifs <;> omega

end

section

variable (mapper : Int → MemRegion) (t : Tracked)

/-- The length is truthful once the prefix has it. -/
theorem truthfulLen_iff (u d : Nat) (r : Int) (hpc : t.handler.pc = .putLen u d r) :
    TruthfulLen mapper t u ↔
      (r % 2 ^ 32).toNat ≤ writtenPrefix (writtenAt t.record) 0 t.handler.taken := by
  have hlen := lenAt_putLen mapper t.handler u d r hpc
  have hle := writtenPrefix_le (writtenAt t.record) 0 t.handler.taken
  constructor
  · intro h
    have hwritten := h.written
    rwa [hlen] at hwritten
  · intro h
    exact ⟨by omega, by omega⟩

/-- The length of a transfer that moved `m` bytes. -/
theorem truthfulLen_moved (u d m : Nat) (h dat st : Taken)
    (hpc : t.handler.pc = .putLen u d m) (htaken : t.handler.taken = [h, dat, st])
    (hm : m ≤ dat.desc.len) (hlen : dat.desc.len < 2 ^ 32)
    (hrec : t.record = [(1, if t.handler.hdrType = blkTIn then m else 0), (2, 1)]) :
    TruthfulLen mapper t u ↔ m = 0 ∨ (h.writable = false ∨ h.desc.len = 0) ∧
      ((t.handler.hdrType = blkTIn ∧ dat.writable = true) ∨
        (dat.writable = false ∧ m = 1 ∧ st.writable = true ∧ 1 ≤ st.desc.len)) := by
  have h0 : writtenAt t.record 0 = 0 := by rw [hrec]; rfl
  have h1 : writtenAt t.record 1 = if t.handler.hdrType = blkTIn then m else 0 := by
    rw [hrec]
    exact Nat.max_zero _
  have h2 : writtenAt t.record 2 = 1 := by rw [hrec]; rfl
  -- The result fits 32 bits.
  have hres : ((m : Int) % 2 ^ 32).toNat = m := by omega
  rw [truthfulLen_iff mapper t u d _ hpc, htaken, hres]
  by_cases ht : t.handler.hdrType = blkTIn
  · rw [if_pos ht] at h1
    rw [le_writtenPrefix_in _ h dat st _ h0 h1 h2 hm]
    simp only [ht, true_and]
  · rw [if_neg ht] at h1
    rw [le_writtenPrefix_out _ h dat st _ h0 h1 h2 hm]
    simp only [ht, false_and, false_or]

/-- The length of a transfer that was refused or failed. -/
theorem not_truthfulLen_refused (u d : Nat) (h dat st : Taken)
    (hpc : t.handler.pc = .putLen u d (-1)) (htaken : t.handler.taken = [h, dat, st])
    (hrec : t.record = [(1, 0), (2, 1)]) : ¬ TruthfulLen mapper t u := by
  have h0 : writtenAt t.record 0 = 0 := by rw [hrec]; rfl
  have h1 : writtenAt t.record 1 = 0 := by rw [hrec]; rfl
  have h2 : writtenAt t.record 2 = 1 := by rw [hrec]; rfl
  have hle := writtenPrefix_refused _ h dat st h0 h1 h2
  have hres : ((-1 : Int) % 2 ^ 32).toNat = 2 ^ 32 - 1 := rfl
  rw [truthfulLen_iff mapper t u d _ hpc, htaken, hres]
  omega

/-- The length of a transfer. -/
theorem truthfulLen_transfer (u d : Nat) (h dat st : Taken)
    (hpc : t.handler.pc = .putLen u d (t.handler.result t.answer dat.desc.len))
    (htaken : t.handler.taken = [h, dat, st]) (hlen : dat.desc.len < 2 ^ 32)
    (hrec : t.record = [(1, t.handler.delivered t.answer dat.desc.len), (2, 1)]) :
    TruthfulLen mapper t u ↔ t.handler.LenCovered t.answer := by
  rw [Handler.LenCovered, htaken]
  dsimp only
  unfold Handler.result at hpc
  unfold Handler.delivered at hrec
  -- Either so many bytes were moved, or the result is `-1`.
  by_cases hin : t.handler.offset < t.handler.img.size
  · cases hans : t.answer with
    | none =>
        have hnone : t.handler.transferred t.answer dat.desc.len = none := by
          rw [Handler.transferred, if_pos hin, hans]
          rfl
        rw [hnone] at hpc hrec
        rw [Option.getD_none, ite_self] at hrec
        simp only [reduceCtorEq, false_and, exists_false, and_false, iff_false]
        exact not_truthfulLen_refused mapper t u d h dat st hpc htaken hrec
    | some n =>
        have hsome : t.handler.transferred t.answer dat.desc.len
            = some (t.handler.movedBytes n dat.desc.len) := by
          rw [Handler.transferred, if_pos hin, hans]
          rfl
        rw [hsome] at hpc hrec
        rw [Option.getD_some] at hrec
        have hmoved : t.handler.movedBytes n dat.desc.len ≤ dat.desc.len := by
          rw [Handler.movedBytes]
          split_ifs <;> omega
        rw [truthfulLen_moved mapper t u d _ h dat st hpc htaken hmoved hlen hrec]
        simp only [hin, true_and, Option.some.injEq, exists_eq_left']
  · have hnone : t.handler.transferred t.answer dat.desc.len = none := if_neg hin
    rw [hnone] at hpc hrec
    rw [Option.getD_none, ite_self] at hrec
    simp only [hin, false_and, iff_false]
    exact not_truthfulLen_refused mapper t u d h dat st hpc htaken hrec

end

/-- Every request that a call of the handler completes, whatever the kernel
    answers: the length stored in its head is truthful exactly when the request
    is no transfer, or the transfer was neither refused nor failed and what it
    moved is what the device wrote. What is recorded as written is stored. -/
theorem used_length_iff (mapper : Int → MemRegion) (io : Nat → Option Nat) (s : Handler)
    (hpc : s.pc = .getHead) (k u d : Nat) (r : Int)
    (hput : (trackRun mapper io s k).handler.pc = .putLen u d r) :
    (TruthfulLen mapper (trackRun mapper io s k) u ↔
      (trackRun mapper io s k).handler.LenCovered (trackRun mapper io s k).answer) ∧
    ∀ j i n, (i, n) ∈ (trackRun mapper io s j).handler.writes (io j) →
      ∃ e bs, (trackRun mapper io s j).handler.taken[i]? = some e ∧ bs.length = n ∧
        (trackRun mapper io s (j + 1)).handler.mem
          = (trackRun mapper io s j).handler.mem.write
            (getUserspaceAddr mapper e.desc.addr) bs := by
  have hsound := Tracked.run_sound mapper io s hpc
  refine ⟨?_, fun j i n h => (hsound j).writes_mem mapper (io j) _ i n h⟩
  have hk := hsound k
  generalize trackRun mapper io s k = t at *
  rw [Tracked.Sound, hput] at hk
  cases hk with
  | putLen _ _ _ chain st before htaken hbody hrec =>
      rcases hbody with ⟨h, rfl, rfl, rfl⟩ | ⟨h, dat, rfl, hlen, rfl, rfl⟩
      · -- Without a transfer the length is zero.
        rw [truthfulLen_iff mapper t u d _ hput, Handler.LenCovered, htaken]
        exact ⟨fun _ => trivial, fun _ => Nat.zero_le _⟩
      · exact truthfulLen_transfer mapper t u d h dat st hput htaken hlen hrec

/-- A read of 512 bytes into a writable buffer, carried out in full. -/
theorem used_length_iff_read :
    let t := trackRun sampleMapper (fun _ => some 512) (readCall 512) 7
    t.handler.pc = .putLen (sampleRing.vq.slot 0) (sampleRing.vq.slot 2) 512 ∧
      TruthfulLen sampleMapper t (sampleRing.vq.slot 0) := by
  intro t
  have hput : t.handler.pc = .putLen (sampleRing.vq.slot 0) (sampleRing.vq.slot 2) 512 := by
    decide +kernel
  have htaken : t.handler.taken
      = [⟨0, 0x5000, 16, 0, 0x81⟩, ⟨1, 0x6000, 512, 0, 0x83⟩, ⟨2, 0x7000, 1, 0, 0x82⟩] := by
    decide +kernel
  have hanswer : t.answer = some 512 := by decide +kernel
  refine ⟨hput, (used_length_iff sampleMapper _ (readCall 512) rfl 7 _ _ _ hput).1.mpr ?_⟩
  rw [Handler.LenCovered, htaken]
  exact ⟨by decide +kernel, 512, hanswer,
    Or.inr ⟨Or.inl rfl, Or.inl ⟨by decide +kernel, rfl⟩⟩⟩

/-- A write of 512 bytes from an unwritable buffer: the length is 512, and the
    writable part of the chain is the status byte. -/
theorem used_length_untruthful :
    let s := ringCall blkTOut [⟨0x5000, 16, 0, 0x81⟩, ⟨0x6000, 512, 0, 0x81⟩, ⟨0x7000, 1, 0, 0x82⟩]
    let t := trackRun sampleMapper (fun _ => some 512) s
    s.pc = .getHead ∧
      (t 7).handler.pc = .putLen (sampleRing.vq.slot 0) (sampleRing.vq.slot 2) 512 ∧
      writableLen (t 7).handler.taken = 1 ∧
      VringPackedDesc.lenAt (t 8).handler.mem (sampleRing.vq.slot 0) = 512 ∧
      ¬ TruthfulLen sampleMapper (t 7) (sampleRing.vq.slot 0) := by
  refine ⟨rfl, by decide +kernel, by decide +kernel, by decide +kernel, fun h => ?_⟩
  exact absurd h.bounded (by decide +kernel)

end Microv
