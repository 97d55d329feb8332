import Microv.Core.Serial
import Microv.Lib.RingBuffer
import Microv.Lib.Run

/-!
# The Serial Port

The receive FIFO of the port under host input and guest accesses.

Every operation either puts a byte into the ring, takes one out, finds it
empty, or leaves it: `FifoEffect` lists the four with what they do to the
data-ready bit, and the proofs go by it instead of by the register switch.
`fifo_put` does not look at the count, so the ring is well formed only as long
as no byte arrives when it is full.

With that, the port is a queue: the bytes accepted are those delivered
followed by those pending.

## Main definitions

* `SerialOp`, `serialStep`: Input, and an access of the guest.
* `SerialSys`: The port, with the bytes it accepted and delivered.
* `FifoEffect`: What an operation does to the FIFO.
* `FifoWf`, `FifoInv`: The ring, and the data-ready bit.
* `NoOverflow`: No byte is put into a full ring.

## Theorems

* `serialInv_step`: One operation.
* `overflow_breaks`: A byte put into a full ring.
* `fifo_invariant`: The FIFO in every run.
* `fifo_refines_queue`: The port as a queue.
-/

namespace Microv

/-! ### The bits -/

theorem dr_set (l : UInt8) : (l ||| uartLsrDr) &&& uartLsrDr ≠ 0 := by
  have hbits : ∀ b : BitVec 8, (b ||| 1#8) &&& 1#8 ≠ 0#8 := by decide
  intro h
  exact hbits l.toBitVec (UInt8.toBitVec_inj.mpr h)

theorem dr_cleared (l : UInt8) : (l &&& ~~~uartLsrDr) &&& uartLsrDr = 0 := by
  have hbits : ∀ b : BitVec 8, (b &&& ~~~1#8) &&& 1#8 = 0#8 := by decide
  exact UInt8.toBitVec_inj.mp (hbits l.toBitVec)

/-- A mask that ignores the bits in which two bytes differ. -/
theorem and_eq_of_xor (i d m k : UInt8) (h : (i ^^^ d) &&& m = 0) (hk : m &&& k = k) :
    (d &&& m) &&& k = i &&& k := by
  have hm : i &&& m = d &&& m := by
    rw [← UInt8.xor_eq_zero_iff, ← h, ← UInt8.toBitVec_inj]
    simp only [UInt8.toBitVec_xor, UInt8.toBitVec_and]
    ext j hj
    simp only [BitVec.getElem_xor, BitVec.getElem_and, Bool.and_xor_distrib_right]
  rw [← hm, UInt8.and_assoc, hk]

/-! ### Runs -/

/-- What happens to the port: a byte of input, or an access of the guest.
    `ret` is what a read without a value returns. -/
inductive SerialOp where
  | receive (data : UInt8)
  | read (port : Nat) (ret : UInt8)
  | write (port : Nat) (data : UInt8)

/-- One operation. -/
def serialStep (s : Serial) : SerialOp → Serial
  | .receive data => receiveSerialInput s data
  | .read port ret => (readSerialReg s port ret).2
  | .write port data => writeSerialReg s port data

/-- LSR.DR. -/
def Serial.dataReady (s : Serial) : Prop := s.lsr &&& uartLsrDr ≠ 0

/-- MCR.LOOP. -/
def Serial.loop (s : Serial) : Prop := s.mcr &&& uartMcrLoop ≠ 0

/-- LCR.DLAB. -/
def Serial.dlab (s : Serial) : Prop := s.lcr &&& uartLcrDlab ≠ 0

instance (s : Serial) : Decidable s.dataReady := inferInstanceAs (Decidable (_ ≠ _))

instance (s : Serial) : Decidable s.loop := inferInstanceAs (Decidable (_ ≠ _))

instance (s : Serial) : Decidable s.dlab := inferInstanceAs (Decidable (_ ≠ _))

/-- The byte an operation is to add to the received ones: input outside
    loopback mode, a transmission inside it. -/
def accepts (s : Serial) : SerialOp → Option UInt8
  | .receive data => if s.loop then none else some data
  | .write 0 data => if ¬ s.dlab ∧ s.loop then some data else none
  | _ => none

/-- The byte an operation gives to the guest: what a read of the receiver
    buffer returns while DR is set. -/
def delivers (s : Serial) : SerialOp → Option UInt8
  | .read 0 ret => if ¬ s.dlab ∧ s.dataReady then some (readSerialReg s 0 ret).1 else none
  | _ => none

/-- The port with what was accepted and delivered so far. -/
structure SerialSys where
  dev : Serial
  accepted : List UInt8
  delivered : List UInt8

/-- One operation, recorded. -/
def SerialSys.next (s : SerialSys) (op : SerialOp) : SerialSys :=
  { dev := serialStep s.dev op,
    accepted := s.accepted ++ (accepts s.dev op).toList,
    delivered := s.delivered ++ (delivers s.dev op).toList }

def sysStep (op : SerialOp) (s s' : SerialSys) : Prop := s' = s.next op

/-- The port before the first operation. -/
def SerialSys.init : SerialSys :=
  { dev := serialInit, accepted := [], delivered := [] }

/-! ### What an operation changes -/

section

variable (s : Serial)

@[simp] theorem updateSerialIir_recvFifo : (updateSerialIir s).recvFifo = s.recvFifo := rfl

@[simp] theorem updateSerialIir_lsr : (updateSerialIir s).lsr = s.lsr := rfl

/-- What an operation does to the FIFO and to DR. -/
inductive FifoEffect (s : Serial) (op : SerialOp) (s' : Serial) : Prop where
  | put (data : UInt8) : accepts s op = some data → delivers s op = none →
      s'.recvFifo = fifoPut s.recvFifo data → s'.lsr = s.lsr ||| uartLsrDr → FifoEffect s op s'
  | take (ret : UInt8) : op = .read 0 ret → ¬ s.dlab → s.recvFifo.count ≠ 0 →
      s'.recvFifo = (fifoGet s.recvFifo).2 →
      s'.lsr = (if s'.recvFifo.count = 0 then s.lsr &&& ~~~uartLsrDr else s.lsr) →
      FifoEffect s op s'
  | empty (ret : UInt8) : op = .read 0 ret → ¬ s.dlab → s.recvFifo.count = 0 →
      s'.recvFifo = s.recvFifo → s'.lsr = s.lsr &&& ~~~uartLsrDr → FifoEffect s op s'
  | keep : accepts s op = none → delivers s op = none → s'.recvFifo = s.recvFifo →
      s'.lsr = s.lsr → FifoEffect s op s'

theorem fifoEffect_receive (data : UInt8) :
    FifoEffect s (.receive data) (serialStep s (.receive data)) := by
  simp only [serialStep, receiveSerialInput]
  split_ifs with hl
  · have hno : ¬ s.loop := fun h => h hl
    exact .put data (if_neg hno) rfl rfl rfl
  · exact .keep (if_pos hl) rfl rfl rfl

theorem fifoEffect_read (port : Nat) (ret : UInt8) :
    FifoEffect s (.read port ret) (serialStep s (.read port ret)) := by
  match port with
  | 0 =>
      -- With DLAB set port 0 is the divisor.
      by_cases hd : s.lcr &&& uartLcrDlab ≠ 0
      · refine .keep rfl (if_neg fun h => h.1 hd) ?_ ?_
        · simp only [serialStep, readSerialReg, if_pos hd]
        · simp only [serialStep, readSerialReg, if_pos hd]
      · by_cases hc : s.recvFifo.count ≠ 0
        · refine .take ret rfl hd hc ?_ ?_
          · simp only [serialStep, readSerialReg, if_neg hd, if_pos hc, updateSerialIir_recvFifo]
          · simp only [serialStep, readSerialReg, if_neg hd, if_pos hc, updateSerialIir_recvFifo,
              updateSerialIir_lsr]
        · -- An empty FIFO still clears DR.
          have hzero : s.recvFifo.count = 0 := not_not.mp hc
          refine .empty ret rfl hd hzero ?_ ?_
          · simp only [serialStep, readSerialReg, if_neg hd, if_neg hc, updateSerialIir_recvFifo]
          · simp only [serialStep, readSerialReg, if_neg hd, if_neg hc, updateSerialIir_lsr]
            exact if_pos hzero
  | 1 => exact .keep rfl rfl rfl rfl
  | 2 => exact .keep rfl rfl rfl rfl
  | 3 => exact .keep rfl rfl rfl rfl
  | 4 => exact .keep rfl rfl rfl rfl
  | 5 => exact .keep rfl rfl rfl rfl
  | 6 => exact .keep rfl rfl rfl rfl
  | 7 => exact .keep rfl rfl rfl rfl
  | _ + 8 => exact .keep rfl rfl rfl rfl

theorem fifoEffect_write (port : Nat) (data : UInt8) :
    FifoEffect s (.write port data) (serialStep s (.write port data)) := by
  match port with
  | 0 =>
      simp only [serialStep, writeSerialReg]
      -- The divisor, the loopback, or the output.
      split_ifs with hd hl
      · exact .keep (if_neg fun h => h.1 hd) rfl rfl rfl
      · exact .put data (if_pos ⟨hd, hl⟩) rfl rfl rfl
      · exact .keep (if_neg fun h => hl h.2) rfl rfl rfl
  | 1 =>
      simp only [serialStep, writeSerialReg]
      split_ifs
      · exact .keep rfl rfl rfl rfl
      · exact .keep rfl rfl rfl rfl
      · exact .keep rfl rfl rfl rfl
  | 2 => exact .keep rfl rfl rfl rfl
  | 3 => exact .keep rfl rfl rfl rfl
  | 4 => exact .keep rfl rfl rfl rfl
  | 5 => exact .keep rfl rfl rfl rfl
  | 6 => exact .keep rfl rfl rfl rfl
  | 7 => exact .keep rfl rfl rfl rfl
  | _ + 8 => exact .keep rfl rfl rfl rfl

theorem fifoEffect (op : SerialOp) : FifoEffect s op (serialStep s op) := by
  cases op with
  | receive data => exact fifoEffect_receive s data
  | read port ret => exact fifoEffect_read s port ret
  | write port data => exact fifoEffect_write s port data

end

/-! ### The FIFO -/

/-- The received bytes the guest has not read. -/
def pending (f : SerialFIFO) : List UInt8 :=
  ringContents 16 f.data f.tail.toNat f.count.toNat

/-- The ring is well formed. -/
structure FifoWf (f : SerialFIFO) : Prop where
  count : f.count ≤ uartFifoLength
  head_lt : f.head < uartFifoLength
  tail_lt : f.tail < uartFifoLength
  head : f.head.toNat = (f.tail.toNat + f.count.toNat) % 16

/-- The ring is well formed, and DR tells whether it is empty. -/
structure FifoInv (s : Serial) : Prop where
  wf : FifoWf s.recvFifo
  ready : s.dataReady ↔ 0 < s.recvFifo.count

/-- The next place of the ring. -/
theorem next_toNat (i : UInt8) (h : i < uartFifoLength) :
    (if i + 1 = uartFifoLength then 0 else i + 1 : UInt8).toNat = (i.toNat + 1) % 16 ∧
      (if i + 1 = uartFifoLength then 0 else i + 1 : UInt8) < uartFifoLength := by
  have hlt : i.toNat < 16 := UInt8.lt_iff_toNat_lt.mp h
  have hadd : (i + 1).toNat = i.toNat + 1 := by
    rw [UInt8.toNat_add, UInt8.toNat_one]
    omega
  -- The index wraps at sixteen, long before the byte does.
  split_ifs with hw
  · have h16 : i.toNat + 1 = 16 := by rw [← hadd, hw]; rfl
    rw [h16]
    exact ⟨rfl, by decide⟩
  · have hne : i.toNat + 1 ≠ 16 := fun h16 => hw (UInt8.toNat_inj.mp (hadd.trans h16))
    refine ⟨?_, UInt8.lt_iff_toNat_lt.mpr ?_⟩
    · rw [hadd]
      omega
    · rw [hadd]
      exact Nat.lt_of_le_of_ne hlt hne

/-- A put into a ring with room appends. -/
theorem fifoPut_wf (f : SerialFIFO) (b : UInt8) (h : FifoWf f) (hc : f.count < uartFifoLength) :
    FifoWf (fifoPut f b) ∧ pending (fifoPut f b) = pending f ++ [b] ∧ 0 < (fifoPut f b).count := by
  have hlt : f.count.toNat < 16 := UInt8.lt_iff_toNat_lt.mp hc
  -- Below the length the count does not wrap.
  have hcount : (f.count + 1).toNat = f.count.toNat + 1 := by
    rw [UInt8.toNat_add, UInt8.toNat_one]
    omega
  rcases next_toNat f.head h.head_lt with ⟨hnext, hnlt⟩
  refine ⟨⟨?_, hnlt, h.tail_lt, ?_⟩, ?_, ?_⟩
  · refine UInt8.le_iff_toNat_le.mpr ?_
    simp only [fifoPut, hcount]
    exact hlt
  · simp only [fifoPut, hnext, hcount, h.head]
    omega
  · -- The byte lands where the head stands, behind the last pending one.
    simp only [pending, fifoPut, hcount, h.head]
    exact ringContents_put 16 f.data f.tail.toNat f.count.toNat hlt b
  · refine UInt8.lt_iff_toNat_lt.mpr ?_
    simp only [fifoPut, hcount]
    exact Nat.succ_pos _

/-- A get from a ring that is not empty takes the first byte. -/
theorem fifoGet_wf (f : SerialFIFO) (h : FifoWf f) (hc : f.count ≠ 0) :
    FifoWf (fifoGet f).2 ∧ pending f = (fifoGet f).1 :: pending (fifoGet f).2 := by
  have hle : f.count.toNat ≤ 16 := UInt8.le_iff_toNat_le.mp h.count
  have hpos : f.count.toNat ≠ 0 := fun h0 => hc (UInt8.toNat_inj.mp h0)
  have htail : f.tail.toNat < 16 := UInt8.lt_iff_toNat_lt.mp h.tail_lt
  -- A count that is not zero does not wrap below it.
  have hcount : (f.count - 1).toNat = f.count.toNat - 1 := by
    have hone : (1 : UInt8) ≤ f.count :=
      UInt8.le_iff_toNat_le.mpr (Nat.one_le_iff_ne_zero.mpr hpos)
    rw [UInt8.toNat_sub_of_le _ _ hone, UInt8.toNat_one]
  rcases next_toNat f.tail h.tail_lt with ⟨hnext, hnlt⟩
  simp only [fifoGet, if_neg hc]
  refine ⟨⟨?_, h.head_lt, hnlt, ?_⟩, ?_⟩
  · refine UInt8.le_iff_toNat_le.mpr ?_
    simp only [hcount]
    exact Nat.le_trans (Nat.sub_le _ _) hle
  · simp only [hnext, hcount, h.head]
    omega
  · -- The byte at the tail is the oldest one.
    simp only [pending, hnext, hcount]
    rcases Nat.exists_eq_succ_of_ne_zero hpos with ⟨c, hc'⟩
    rw [hc', ringContents_get, Nat.mod_eq_of_lt htail]
    rfl

/-- The FIFO invariant, with every accepted byte either delivered or
    pending. -/
structure SerialInv (s : SerialSys) : Prop where
  fifo : FifoInv s.dev
  accounted : s.accepted = s.delivered ++ pending s.dev.recvFifo

/-- No byte is put into a full ring. -/
def NoOverflow (s : SerialSys) (op : SerialOp) : Prop :=
  (accepts s.dev op).isSome → s.dev.recvFifo.count < uartFifoLength

instance (s : SerialSys) (op : SerialOp) : Decidable (NoOverflow s op) :=
  inferInstanceAs (Decidable (_ → _))

theorem serialInv_init : SerialInv SerialSys.init := by
  refine ⟨⟨⟨by decide, by decide, by decide, rfl⟩, ?_⟩, rfl⟩
  decide

/-- What a read of the receiver buffer returns is what `fifo_get` returns. -/
theorem readSerialReg_take (s : Serial) (ret : UInt8) (hd : ¬ s.dlab)
    (hc : s.recvFifo.count ≠ 0) : (readSerialReg s 0 ret).1 = (fifoGet s.recvFifo).1 := by
  have hd' : ¬ s.lcr &&& uartLcrDlab ≠ 0 := hd
  simp only [readSerialReg, if_neg hd', if_pos hc]

theorem uint8_pos (c : UInt8) : 0 < c ↔ c ≠ 0 := by
  rw [UInt8.lt_iff_toNat_lt, Ne, ← UInt8.toNat_inj]
  exact Nat.pos_iff_ne_zero

theorem serialInv_step (s : SerialSys) (op : SerialOp) (h : SerialInv s) (hno : NoOverflow s op) :
    SerialInv (s.next op) := by
  have hready := h.fifo.ready
  rw [uint8_pos] at hready
  rcases fifoEffect s.dev op with ⟨data, hacc, hdel, hf, hl⟩ | ⟨ret, rfl, hd, hc, hf, hl⟩ |
    ⟨ret, rfl, hd, hc, hf, hl⟩ | ⟨hacc, hdel, hf, hl⟩
  · -- A byte arrives and there is room for it.
    obtain ⟨hwf, hpend, hpos⟩ := fifoPut_wf s.dev.recvFifo data h.fifo.wf (hno (by rw [hacc]; rfl))
    refine ⟨⟨?_, ?_⟩, ?_⟩
    · simp only [SerialSys.next, hf]
      exact hwf
    · simp only [SerialSys.next, Serial.dataReady, hl, hf]
      exact ⟨fun _ => hpos, fun _ => dr_set _⟩
    · simp only [SerialSys.next, hacc, hdel, hf, hpend, h.accounted, Option.toList,
        List.append_nil, List.append_assoc]
  · -- The first pending byte is read.
    rcases fifoGet_wf s.dev.recvFifo h.fifo.wf hc with ⟨hwf, hpend⟩
    have hdel : delivers s.dev (.read 0 ret) = some (fifoGet s.dev.recvFifo).1 := by
      rw [delivers, if_pos ⟨hd, hready.mpr hc⟩, readSerialReg_take s.dev ret hd hc]
    refine ⟨⟨?_, ?_⟩, ?_⟩
    · simp only [SerialSys.next, hf]
      exact hwf
    · rw [uint8_pos]
      simp only [SerialSys.next, Serial.dataReady, hl]
      split_ifs with hz
      · exact ⟨fun hdr => absurd (dr_cleared _) hdr, fun hnz => absurd hz hnz⟩
      · exact ⟨fun _ => hz, fun _ => hready.mpr hc⟩
    · simp only [SerialSys.next, hdel, hf, h.accounted, hpend, accepts, Option.toList,
        List.append_nil, List.append_assoc, List.singleton_append]
  · -- There is nothing to read, and DR was clear.
    have hndr : ¬ s.dev.dataReady := fun hdr => hready.mp hdr hc
    have hdel : delivers s.dev (.read 0 ret) = none := by
      rw [delivers, if_neg fun hy => hndr hy.2]
    refine ⟨⟨?_, ?_⟩, ?_⟩
    · simp only [SerialSys.next, hf]
      exact h.fifo.wf
    · rw [uint8_pos]
      simp only [SerialSys.next, Serial.dataReady, hl, hf]
      exact ⟨fun hdr => absurd (dr_cleared _) hdr, fun hnz => absurd hc hnz⟩
    · simp only [SerialSys.next, hdel, hf, h.accounted, accepts, Option.toList, List.append_nil]
  · refine ⟨⟨?_, ?_⟩, ?_⟩
    · simp only [SerialSys.next, hf]
      exact h.fifo.wf
    · simp only [SerialSys.next, Serial.dataReady, hl, hf]
      exact h.fifo.ready
    · simp only [SerialSys.next, hacc, hdel, hf, h.accounted, Option.toList, List.append_nil]

/-- A put into a full ring makes the count too large. -/
theorem overflow_breaks (s : SerialSys) (op : SerialOp) (h : FifoInv s.dev)
    (hinv : FifoInv (serialStep s.dev op)) : NoOverflow s op := by
  intro hsome
  rcases Option.isSome_iff_exists.mp hsome with ⟨data, hacc⟩
  have hle : s.dev.recvFifo.count.toNat ≤ 16 := UInt8.le_iff_toNat_le.mp h.wf.count
  rcases fifoEffect s.dev op with ⟨data', _, _, hf, _⟩ | ⟨ret, rfl, _⟩ | ⟨ret, rfl, _⟩ |
    ⟨hnone, _⟩
  · -- The count was sixteen at most and is one more, so it was less before.
    have hafter : (serialStep s.dev op).recvFifo.count.toNat ≤ 16 :=
      UInt8.le_iff_toNat_le.mp hinv.wf.count
    rw [hf] at hafter
    simp only [fifoPut, UInt8.toNat_add, UInt8.toNat_one] at hafter
    refine UInt8.lt_iff_toNat_lt.mpr ?_
    have h16 : uartFifoLength.toNat = 16 := rfl
    omega
  · cases hacc
  · cases hacc
  · rw [hnone] at hacc
    cases hacc

/-- In every run that puts no byte into a full FIFO the ring is well formed, DR
    tells whether it is empty, and the bytes delivered are the accepted ones in
    order, each once. An operation keeps this exactly when it does not
    overflow. -/
theorem fifo_invariant (s : SerialSys) (hrun : Run sysStep NoOverflow SerialSys.init s) :
    FifoInv s.dev ∧ s.accepted = s.delivered ++ pending s.dev.recvFifo ∧
      ∀ op, FifoInv (serialStep s.dev op) ↔ NoOverflow s op := by
  have hinv : SerialInv s := by
    refine hrun.invariant serialInv_init ?_
    intro t op u ht hc hs
    rw [hs]
    exact serialInv_step t op ht hc
  refine ⟨hinv.fifo, hinv.accounted, fun op => ⟨overflow_breaks s op hinv.fifo, fun hno => ?_⟩⟩
  exact (serialInv_step s op hinv hno).fifo

/-- The port after a sequence of operations. -/
def SerialSys.after (s : SerialSys) (ops : List SerialOp) : SerialSys :=
  ops.foldl SerialSys.next s

/-- Every operation meets `C` where it occurs. -/
def OpsMeet (C : SerialSys → SerialOp → Prop) (s : SerialSys) : List SerialOp → Prop
  | [] => True
  | op :: ops => C s op ∧ OpsMeet C (s.next op) ops

instance decidableOpsMeet (C : SerialSys → SerialOp → Prop) [∀ s op, Decidable (C s op)]
    (s : SerialSys) (ops : List SerialOp) : Decidable (OpsMeet C s ops) :=
  match ops with
  | [] => inferInstanceAs (Decidable True)
  | op :: ops =>
      have := decidableOpsMeet C (s.next op) ops
      inferInstanceAs (Decidable (_ ∧ OpsMeet C (s.next op) ops))

theorem run_ops {C : SerialSys → SerialOp → Prop} {s₀ s : SerialSys}
    (hrun : Run sysStep C s₀ s) (ops : List SerialOp) (h : OpsMeet C s ops) :
    Run sysStep C s₀ (s.after ops) := by
  induction ops generalizing s with
  | nil => exact hrun
  | cons op ops ih => exact ih (hrun.tail op h.1 rfl) h.2

/-- `fifo_invariant` after two bytes of input, one of which was read. -/
theorem fifo_invariant_twoBytes :
    let s := SerialSys.init.after [.receive 65, .receive 66, .read 0 0]
    s.accepted = [65, 66] ∧ s.delivered = [65] ∧
      s.accepted = s.delivered ++ pending s.dev.recvFifo :=
  ⟨by decide, by decide,
    (fifo_invariant _ (run_ops (.refl _) _ (by decide))).2.1⟩

/-- Seventeen bytes of input: the count is seventeen, the last byte lies where
    the first was, and reading them all delivers it twice. -/
theorem fifo_overflows :
    let s := SerialSys.init.after ((List.range 17).map fun i => .receive (UInt8.ofNat i))
    Run sysStep (fun _ _ => True) SerialSys.init s ∧ s.dev.recvFifo.count = 17 ∧
      ¬ FifoInv s.dev ∧
      (s.after (List.replicate 17 (.read 0 0))).delivered
        = [16, 1, 2, 3, 4, 5, 6, 7, 8, 9, 10, 11, 12, 13, 14, 15, 16] := by
  have hcount : (SerialSys.init.after
      ((List.range 17).map fun i => .receive (UInt8.ofNat i))).dev.recvFifo.count = 17 := by
    decide +kernel
  refine ⟨run_ops (.refl _) _ (by decide +kernel), hcount, fun h => ?_, by decide +kernel⟩
  have hle := h.wf.count
  rw [hcount] at hle
  exact absurd hle (by decide)

/-- As long as at most sixteen bytes are pending after every operation, what
    the guest reads is a prefix of what was accepted, and DR is set exactly
    while a byte is left. -/
theorem fifo_refines_queue (s : SerialSys)
    (hrun : Run sysStep
      (fun t op => (t.next op).accepted.length ≤ (t.next op).delivered.length + 16)
      SerialSys.init s) :
    s.delivered <+: s.accepted ∧
      (s.dev.dataReady ↔ s.delivered.length < s.accepted.length) := by
  have hlen : ∀ t, SerialInv t → t.accepted.length
      = t.delivered.length + t.dev.recvFifo.count.toNat := by
    intro t ht
    rw [ht.accounted, List.length_append]
    simp only [pending, length_ringContents]
  have hinv : SerialInv s := by
    refine hrun.invariant serialInv_init ?_
    intro t op u ht hc hs
    rw [hs]
    refine serialInv_step t op ht ?_
    intro hsome
    -- A byte was accepted, none delivered, and sixteen at most are pending.
    rcases Option.isSome_iff_exists.mp hsome with ⟨data, hacc⟩
    have hdel : delivers t.dev op = none := by
      rcases fifoEffect t.dev op with ⟨_, _, hdel, _⟩ | ⟨ret, rfl, _⟩ | ⟨ret, rfl, _⟩ | ⟨_, hdel, _⟩
      · exact hdel
      · cases hacc
      · cases hacc
      · exact hdel
    simp only [SerialSys.next, hacc, hdel, Option.toList, List.append_nil, List.length_append,
      List.length_singleton, hlen t ht] at hc
    have h16 : uartFifoLength.toNat = 16 := rfl
    refine UInt8.lt_iff_toNat_lt.mpr ?_
    omega
  refine ⟨⟨_, hinv.accounted.symm⟩, ?_⟩
  rw [hinv.fifo.ready, UInt8.lt_iff_toNat_lt, hlen s hinv]
  have h0 : (0 : UInt8).toNat = 0 := rfl
  omega

/-- `fifo_refines_queue` with input, a loopback byte and two reads. -/
theorem fifo_refines_queue_loopback :
    let s := SerialSys.init.after
      [.receive 65, .write 4 0x10, .receive 66, .write 0 67, .read 0 0, .read 0 0]
    s.accepted = [65, 67] ∧ s.delivered = [65, 67] ∧ s.delivered <+: s.accepted :=
  ⟨by decide, by decide, (fifo_refines_queue _ (run_ops (.refl _) _ (by decide))).1⟩

end Microv
