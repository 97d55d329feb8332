import Microv.Lib.BitFields
import Microv.Lib.History
import Microv.Theory.Serial

/-!
# The Serial Register File

What reading a register of the serial port returns, over every interleaving of
host input and guest accesses.

Ports 0 and 1 are two registers each, chosen by a bit of the line control
register, which the guest may flip at any time. What a port holds is therefore
a matter of history: the last byte written to it while the bit had the value in
question. `lastWrite` and `lastBanked` say that over the list of accesses,
without a port. `RegisterFile` is the invariant that ties them to the port,
and since every operation writes each register from the access alone
(`regEffect`), one lemma per register carries it through a run.

A read is meant to tell the guest about the port and about nothing else.
The receiver buffer of an empty FIFO breaks that: no branch assigns the
variable that is returned. What the port holds afterwards does not depend on
it, so two runs that differ only in such values stay together
(`serialRun_congr`), and they give the guest the same bytes as long as it does
not ask an empty FIFO.

## Main definitions

* `serialRun`: The port after a history.
* `lastWrite`, `lastBanked`: What was last written, by history.
* `RegisterFile`: The registers hold what was last written.
* `FindsEmpty`: A read of the receiver buffer that finds the FIFO empty.
* `ReadDetermined`: A read tells about the port only.
* `readout`: The bytes a run gives to the guest.

## Theorems

* `regEffect`: What an operation does to the registers.
* `registerFile_run`: The register file in every run.
* `serial_readback`: Reading back, and accesses to the divisor.
* `serialRun_congr`: The port does not depend on uninitialised values.
* `serial_read_determined_iff`: When a read tells about the port only.
-/

namespace Microv

/-- The port after a history, newest operation first. -/
def serialRun : List SerialOp → Serial
  | [] => serialInit
  | op :: past => serialStep (serialRun past) op

/-! ### History -/

/-- The byte an operation writes to a port. -/
def SerialOp.writes (port : Nat) : SerialOp → Option UInt8
  | .write p data => if p = port then some data else none
  | _ => none

/-- The last byte written to a port. -/
def lastWrite (port : Nat) (hist : List SerialOp) : Option UInt8 :=
  lastOf (fun _ op => op.writes port) hist

/-- DLAB after a history: the top bit of what was last written to the line
    control register, which starts as 0x03. -/
def dlabAfter (hist : List SerialOp) : Prop :=
  (lastWrite 3 hist).getD 0x03 &&& uartLcrDlab ≠ 0

instance (hist : List SerialOp) : Decidable (dlabAfter hist) := inferInstanceAs (Decidable (_ ≠ _))

/-- The last byte written to a port while DLAB was `bank`. -/
def lastBanked (bank : Bool) (port : Nat) (hist : List SerialOp) : Option UInt8 :=
  lastOf (fun past op => if decide (dlabAfter past) = bank then op.writes port else none) hist

/-! ### The halves of the divisor -/

/-- The divisor with its low half written, -/
theorem toNat_div_low (v : UInt16) (d : UInt8) :
    ((v &&& 0xff00) ||| d.toUInt16).toNat = bits v.toNat 8 8 * 2 ^ 8 + d.toNat := by
  have hmask : v.toNat &&& 0xff00 = bits v.toNat 8 8 * 2 ^ 8 := and_mask v.toNat 8 8
  rw [UInt16.toNat_or, UInt16.toNat_and, UInt8.toNat_toUInt16]
  exact (congrArg (· ||| d.toNat) hmask).trans (or_eq_add _ d.toNat_lt)

/-- and with its high half written. -/
theorem toNat_div_high (v : UInt16) (d : UInt8) :
    ((v &&& 0x00ff) ||| (d.toUInt16 <<< (8 : UInt16))).toNat
      = d.toNat * 2 ^ 8 + bits v.toNat 0 8 := by
  have hmask : v.toNat &&& 0x00ff = bits v.toNat 0 8 * 2 ^ 0 := and_mask v.toNat 0 8
  have hd := d.toNat_lt
  have hshift : (d.toUInt16 <<< (8 : UInt16)).toNat = d.toNat * 2 ^ 8 := by
    rw [UInt16.toNat_shiftLeft, UInt8.toNat_toUInt16, Nat.shiftLeft_eq]
    exact Nat.mod_eq_of_lt (show d.toNat * 2 ^ 8 < 2 ^ 16 by omega)
  rw [UInt16.toNat_or, UInt16.toNat_and, hshift, Nat.or_comm]
  refine Eq.trans (congrArg (d.toNat * 2 ^ 8 ||| ·) hmask) ?_
  rw [Nat.pow_zero, Nat.mul_one]
  exact or_eq_add _ (bits_lt _ _ _)

theorem toNat_low (v : UInt16) : v.toUInt8.toNat = bits v.toNat 0 8 := by
  rw [UInt16.toNat_toUInt8, bits, Nat.pow_zero, Nat.div_one]

theorem toNat_high (v : UInt16) : (v >>> 8).toUInt8.toNat = bits v.toNat 8 8 := by
  rw [UInt16.toNat_toUInt8, UInt16.toNat_shiftRight, Nat.shiftRight_eq_div_pow]
  rfl

-- Writing one half of the divisor sets it and leaves the other.
theorem div_low_low (v : UInt16) (d : UInt8) : ((v &&& 0xff00) ||| d.toUInt16).toUInt8 = d := by
  have hd := d.toNat_lt
  apply UInt8.toNat.inj
  rw [toNat_low, toNat_div_low, bits]
  omega

theorem div_low_high (v : UInt16) (d : UInt8) :
    (((v &&& 0xff00) ||| d.toUInt16) >>> 8).toUInt8 = (v >>> 8).toUInt8 := by
  have hd := d.toNat_lt
  apply UInt8.toNat.inj
  rw [toNat_high, toNat_high, toNat_div_low]
  unfold bits
  omega

theorem div_high_low (v : UInt16) (d : UInt8) :
    ((v &&& 0x00ff) ||| (d.toUInt16 <<< (8 : UInt16))).toUInt8 = v.toUInt8 := by
  apply UInt8.toNat.inj
  rw [toNat_low, toNat_low, toNat_div_high]
  unfold bits
  omega

theorem div_high_high (v : UInt16) (d : UInt8) :
    (((v &&& 0x00ff) ||| (d.toUInt16 <<< (8 : UInt16))) >>> 8).toUInt8 = d := by
  have hd := d.toNat_lt
  have hlow := bits_lt v.toNat 0 8
  apply UInt8.toNat.inj
  rw [toNat_high, toNat_div_high, bits]
  omega

/-! ### What an operation does to the registers -/

section

variable (s : Serial)

/-- Every register gets what the operation writes to its port, if DLAB selects
    it, and keeps its value otherwise. -/
structure RegEffect (s : Serial) (op : SerialOp) (s' : Serial) : Prop where
  lcr : s'.lcr = (op.writes 3).getD s.lcr
  mcr : s'.mcr = (op.writes 4).getD s.mcr
  scr : s'.scr = (op.writes 7).getD s.scr
  ier : s'.ier = if s.dlab then s.ier else ((op.writes 1).map (· &&& 0x0f)).getD s.ier
  low : s'.div.toUInt8 = if s.dlab then (op.writes 0).getD s.div.toUInt8 else s.div.toUInt8
  high : (s'.div >>> 8).toUInt8
    = if s.dlab then (op.writes 1).getD (s.div >>> 8).toUInt8 else (s.div >>> 8).toUInt8

/-- An operation that writes to neither of the ports DLAB switches. -/
theorem RegEffect.of_other {op : SerialOp} {s' : Serial}
    (hlcr : s'.lcr = (op.writes 3).getD s.lcr) (hmcr : s'.mcr = (op.writes 4).getD s.mcr)
    (hscr : s'.scr = (op.writes 7).getD s.scr) (hno : op.writes 0 = none ∧ op.writes 1 = none)
    (hkeep : s'.ier = s.ier ∧ s'.div = s.div) : RegEffect s op s' := by
  refine ⟨hlcr, hmcr, hscr, ?_, ?_, ?_⟩
  all_goals simp only [hno.1, hno.2, hkeep.1, hkeep.2, Option.getD_none, Option.map_none, ite_self]

/-- An operation with DLAB set, which leaves the enable bits alone. -/
theorem RegEffect.of_set {op : SerialOp} {s' : Serial} (hd : s.dlab)
    (hlcr : s'.lcr = (op.writes 3).getD s.lcr) (hmcr : s'.mcr = (op.writes 4).getD s.mcr)
    (hscr : s'.scr = (op.writes 7).getD s.scr) (hier : s'.ier = s.ier)
    (hlow : s'.div.toUInt8 = (op.writes 0).getD s.div.toUInt8)
    (hhigh : (s'.div >>> 8).toUInt8 = (op.writes 1).getD (s.div >>> 8).toUInt8) :
    RegEffect s op s' := by
  refine ⟨hlcr, hmcr, hscr, ?_, ?_, ?_⟩
  all_goals rw [if_pos hd]
  · exact hier
  · exact hlow
  · exact hhigh

/-- An operation with DLAB clear, which leaves the divisor alone. -/
theorem RegEffect.of_clear {op : SerialOp} {s' : Serial} (hd : ¬ s.dlab)
    (hlcr : s'.lcr = (op.writes 3).getD s.lcr) (hmcr : s'.mcr = (op.writes 4).getD s.mcr)
    (hscr : s'.scr = (op.writes 7).getD s.scr)
    (hier : s'.ier = ((op.writes 1).map (· &&& 0x0f)).getD s.ier) (hdiv : s'.div = s.div) :
    RegEffect s op s' := by
  refine ⟨hlcr, hmcr, hscr, ?_, ?_, ?_⟩
  all_goals rw [if_neg hd]
  · exact hier
  · rw [hdiv]
  · rw [hdiv]

theorem regEffect_receive (data : UInt8) :
    RegEffect s (.receive data) (serialStep s (.receive data)) := by
  simp only [serialStep, receiveSerialInput]
  split_ifs
  all_goals exact .of_other s rfl rfl rfl ⟨rfl, rfl⟩ ⟨rfl, rfl⟩

theorem regEffect_read (port : Nat) (ret : UInt8) :
    RegEffect s (.read port ret) (serialStep s (.read port ret)) := by
  simp only [serialStep, readSerialReg]
  repeat' split
  all_goals exact .of_other s rfl rfl rfl ⟨rfl, rfl⟩ ⟨rfl, rfl⟩

theorem regEffect_write (port : Nat) (data : UInt8) :
    RegEffect s (.write port data) (serialStep s (.write port data)) := by
  match port with
  | 0 =>
      simp only [serialStep, writeSerialReg]
      split_ifs with hd hl
      · exact .of_set s hd rfl rfl rfl rfl (div_low_low s.div data) (div_low_high s.div data)
      · exact .of_clear s hd rfl rfl rfl rfl rfl
      · exact .of_clear s hd rfl rfl rfl rfl rfl
  | 1 =>
      simp only [serialStep, writeSerialReg]
      split_ifs with hd hc
      · exact .of_set s hd rfl rfl rfl rfl (div_high_low s.div data) (div_high_high s.div data)
      · exact .of_clear s hd rfl rfl rfl rfl rfl
      · exact .of_clear s hd rfl rfl rfl rfl rfl
  | 2 => exact .of_other s rfl rfl rfl ⟨rfl, rfl⟩ ⟨rfl, rfl⟩
  | 3 => exact .of_other s rfl rfl rfl ⟨rfl, rfl⟩ ⟨rfl, rfl⟩
  | 4 => exact .of_other s rfl rfl rfl ⟨rfl, rfl⟩ ⟨rfl, rfl⟩
  | 5 => exact .of_other s rfl rfl rfl ⟨rfl, rfl⟩ ⟨rfl, rfl⟩
  | 6 => exact .of_other s rfl rfl rfl ⟨rfl, rfl⟩ ⟨rfl, rfl⟩
  | 7 => exact .of_other s rfl rfl rfl ⟨rfl, rfl⟩ ⟨rfl, rfl⟩
  | _ + 8 => exact .of_other s rfl rfl rfl ⟨rfl, rfl⟩ ⟨rfl, rfl⟩

theorem regEffect (op : SerialOp) : RegEffect s op (serialStep s op) := by
  cases op with
  | receive data => exact regEffect_receive s data
  | read port ret => exact regEffect_read s port ret
  | write port data => exact regEffect_write s port data

end

/-! ### Reading back -/

/-- The registers hold what was last written to them, and what they started
    with where nothing was. -/
structure RegisterFile (hist : List SerialOp) (s : Serial) : Prop where
  lcr : s.lcr = (lastWrite 3 hist).getD 0x03
  mcr : s.mcr = (lastWrite 4 hist).getD 0x08
  scr : s.scr = (lastWrite 7 hist).getD 0
  ier : s.ier = (lastBanked false 1 hist).getD 0 &&& 0x0f
  low : s.div.toUInt8 = (lastBanked true 0 hist).getD 0x0c
  high : (s.div >>> 8).toUInt8 = (lastBanked true 1 hist).getD 0

theorem RegisterFile.dlab_iff {hist : List SerialOp} {s : Serial} (h : RegisterFile hist s) :
    s.dlab ↔ dlabAfter hist := by
  unfold Serial.dlab dlabAfter
  rw [h.lcr]

theorem lastWrite_cons_getD (port : Nat) (op : SerialOp) (hist : List SerialOp) (b : UInt8) :
    (lastWrite port (op :: hist)).getD b = (op.writes port).getD ((lastWrite port hist).getD b) :=
  lastOf_cons_getD _ op hist b

/-- A write counts for the bank that DLAB selects when it happens. -/
theorem lastBanked_cons_getD (bank : Bool) (port : Nat) (op : SerialOp) (hist : List SerialOp)
    (b : UInt8) :
    (lastBanked bank port (op :: hist)).getD b
      = if decide (dlabAfter hist) = bank then
          (op.writes port).getD ((lastBanked bank port hist).getD b)
        else (lastBanked bank port hist).getD b := by
  rw [lastBanked, lastOf_cons_getD]
  split_ifs <;> rfl

theorem registerFile_step {hist : List SerialOp} {s : Serial} (h : RegisterFile hist s)
    (op : SerialOp) : RegisterFile (op :: hist) (serialStep s op) := by
  have he := regEffect s op
  constructor
  case lcr => rw [he.lcr, h.lcr, lastWrite_cons_getD]
  case mcr => rw [he.mcr, h.mcr, lastWrite_cons_getD]
  case scr => rw [he.scr, h.scr, lastWrite_cons_getD]
  -- The other three share their ports, and DLAB tells which one is written.
  case ier =>
    by_cases hd : dlabAfter hist
    · rw [he.ier, if_pos (h.dlab_iff.mpr hd), h.ier, lastBanked_cons_getD, decide_eq_true hd,
        if_neg (by decide)]
    · rw [he.ier, if_neg (mt h.dlab_iff.mp hd), h.ier, lastBanked_cons_getD, decide_eq_false hd,
        if_pos rfl]
      cases op.writes 1 <;> rfl
  case low =>
    by_cases hd : dlabAfter hist
    · rw [he.low, if_pos (h.dlab_iff.mpr hd), h.low, lastBanked_cons_getD, decide_eq_true hd,
        if_pos rfl]
    · rw [he.low, if_neg (mt h.dlab_iff.mp hd), h.low, lastBanked_cons_getD, decide_eq_false hd,
        if_neg (by decide)]
  case high =>
    by_cases hd : dlabAfter hist
    · rw [he.high, if_pos (h.dlab_iff.mpr hd), h.high, lastBanked_cons_getD, decide_eq_true hd,
        if_pos rfl]
    · rw [he.high, if_neg (mt h.dlab_iff.mp hd), h.high, lastBanked_cons_getD,
        decide_eq_false hd, if_neg (by decide)]

/-- The register file in every run. -/
theorem registerFile_run (hist : List SerialOp) : RegisterFile hist (serialRun hist) := by
  induction hist with
  | nil => exact ⟨rfl, rfl, rfl, rfl, rfl, rfl⟩
  | cons op past ih => exact registerFile_step ih op

/-- The operation is an access of the guest to one of the ports DLAB
    switches. -/
def SerialOp.Switched : SerialOp → Prop
  | .receive _ => False
  | .read port _ => port = 0 ∨ port = 1
  | .write port _ => port = 0 ∨ port = 1

/-- IER, IIR, LSR, the transmitter condition, the FIFO and the signals are the
    same. -/
structure SameInterruptSide (s s' : Serial) : Prop where
  ier : s'.ier = s.ier
  iir : s'.iir = s.iir
  lsr : s'.lsr = s.lsr
  thrPending : s'.thrPending = s.thrPending
  recvFifo : s'.recvFifo = s.recvFifo
  irqs : s'.irqs = s.irqs

/-- With DLAB set the two ports are the divisor and nothing else. -/
theorem divisor_frame (s : Serial) (op : SerialOp) (hd : s.dlab) (hop : op.Switched) :
    SameInterruptSide s (serialStep s op) := by
  have hd' : s.lcr &&& uartLcrDlab ≠ 0 := hd
  cases op with
  | receive data => exact hop.elim
  | read port ret =>
      rcases hop with rfl | rfl
      · simp only [serialStep, readSerialReg, if_pos hd']
        exact ⟨rfl, rfl, rfl, rfl, rfl, rfl⟩
      · exact ⟨rfl, rfl, rfl, rfl, rfl, rfl⟩
  | write port data =>
      rcases hop with rfl | rfl
      all_goals
        simp only [serialStep, writeSerialReg, if_pos hd']
        exact ⟨rfl, rfl, rfl, rfl, rfl, rfl⟩

/-- After every history the line control, modem control and scratch registers
    read back the last byte written to them, port 1 the enable bits last
    written with DLAB clear, and with DLAB set ports 0 and 1 the halves of the
    divisor; and accesses to the divisor leave the rest of the port alone. -/
theorem serial_readback (hist : List SerialOp) (ret : UInt8) :
    (readSerialReg (serialRun hist) 3 ret).1 = (lastWrite 3 hist).getD 0x03 ∧
    (readSerialReg (serialRun hist) 4 ret).1 = (lastWrite 4 hist).getD 0x08 ∧
    (readSerialReg (serialRun hist) 7 ret).1 = (lastWrite 7 hist).getD 0 ∧
    (¬ dlabAfter hist →
      (readSerialReg (serialRun hist) 1 ret).1 = (lastBanked false 1 hist).getD 0 &&& 0x0f) ∧
    (dlabAfter hist →
      (readSerialReg (serialRun hist) 0 ret).1 = (lastBanked true 0 hist).getD 0x0c ∧
      (readSerialReg (serialRun hist) 1 ret).1 = (lastBanked true 1 hist).getD 0 ∧
      ∀ op : SerialOp, op.Switched →
        SameInterruptSide (serialRun hist) (serialStep (serialRun hist) op)) := by
  have h := registerFile_run hist
  refine ⟨h.lcr, h.mcr, h.scr, ?_, ?_⟩
  · intro hd
    have hs : ¬ (serialRun hist).lcr &&& uartLcrDlab ≠ 0 := mt h.dlab_iff.mp hd
    exact (if_neg hs).trans h.ier
  · intro hd
    have hs : (serialRun hist).lcr &&& uartLcrDlab ≠ 0 := h.dlab_iff.mpr hd
    refine ⟨?_, (if_pos hs).trans h.high, fun op hop => divisor_frame _ op hs hop⟩
    rw [readSerialReg, if_pos hs]
    exact h.low

/-! ### What a read tells -/

/-- A read of the receiver buffer with nothing in the FIFO. -/
def FindsEmpty (s : Serial) (port : Nat) : Prop :=
  port = 0 ∧ ¬ s.dlab ∧ s.recvFifo.count = 0

/-- A read gives a byte that the port determines, and zero if the FIFO is
    empty. -/
structure ReadDetermined (s : Serial) (port : Nat) : Prop where
  determined : ∀ ret ret', (readSerialReg s port ret).1 = (readSerialReg s port ret').1
  empty : FindsEmpty s port → ∀ ret, (readSerialReg s port ret).1 = 0

/-- From an empty FIFO the guest is given the uninitialised variable. -/
theorem readSerialReg_empty {s : Serial} (hd : ¬ s.dlab) (hc : s.recvFifo.count = 0)
    (ret : UInt8) : (readSerialReg s 0 ret).1 = ret := by
  have hd' : ¬ s.lcr &&& uartLcrDlab ≠ 0 := hd
  simp only [readSerialReg, if_neg hd', if_neg (not_not.mpr hc)]

/-- Every other read of one of the eight ports assigns it. -/
theorem readSerialReg_determined {s : Serial} {port : Nat} (hport : port < 8)
    (hne : ¬ FindsEmpty s port) (ret ret' : UInt8) :
    (readSerialReg s port ret).1 = (readSerialReg s port ret').1 := by
  match port with
  | 0 =>
      by_cases hd : s.lcr &&& uartLcrDlab ≠ 0
      · simp only [readSerialReg, if_pos hd]
      · have hc : s.recvFifo.count ≠ 0 := fun hc => hne ⟨rfl, hd, hc⟩
        simp only [readSerialReg, if_neg hd, if_pos hc]
  | 1 => rfl
  | 2 => rfl
  | 3 => rfl
  | 4 => rfl
  | 5 => rfl
  | 6 => rfl
  | 7 => rfl
  | _ + 8 => omega

/-- What the port holds after a read does not depend on the variable. -/
theorem readSerialReg_state (s : Serial) (port : Nat) (ret ret' : UInt8) :
    (readSerialReg s port ret).2 = (readSerialReg s port ret').2 := by
  match port with
  | 0 =>
      by_cases hd : s.lcr &&& uartLcrDlab ≠ 0
      · simp only [readSerialReg, if_pos hd]
      · simp only [readSerialReg, if_neg hd]
        by_cases hc : s.recvFifo.count ≠ 0
        · simp only [if_pos hc]
        · simp only [if_neg hc]
  | 1 => rfl
  | 2 => rfl
  | 3 => rfl
  | 4 => rfl
  | 5 => rfl
  | 6 => rfl
  | 7 => rfl
  | _ + 8 => rfl

/-- The same operation in two executions: what the stack holds may differ. -/
def SerialOp.Same : SerialOp → SerialOp → Prop
  | .receive data, .receive data' => data = data'
  | .read port _, .read port' _ => port = port'
  | .write port data, .write port' data' => port = port' ∧ data = data'
  | _, _ => False

theorem serialStep_same (s : Serial) {op op' : SerialOp} (h : op.Same op') :
    serialStep s op = serialStep s op' := by
  cases op <;> cases op' <;> simp only [SerialOp.Same] at h
  case receive.receive => rw [h]
  case read.read port ret _ ret' =>
    rw [← h]
    exact readSerialReg_state s port ret ret'
  case write.write => rw [h.1, h.2]

/-- Two executions that differ in uninitialised values only keep the port the
    same. -/
theorem serialRun_congr {hist hist' : List SerialOp} (h : List.Forall₂ SerialOp.Same hist hist') :
    serialRun hist = serialRun hist' := by
  induction h with
  | nil => rfl
  | cons hop _ ih => rw [serialRun, serialRun, ih, serialStep_same _ hop]

/-- The bytes a run gives to the guest, newest first. -/
def readout : List SerialOp → List UInt8
  | [] => []
  | .read port ret :: past => (readSerialReg (serialRun past) port ret).1 :: readout past
  | _ :: past => readout past

/-- The guest reads the eight ports, and never finds the FIFO empty. -/
def ReadsFit : List SerialOp → Prop
  | [] => True
  | .read port _ :: past => port < 8 ∧ ¬ FindsEmpty (serialRun past) port ∧ ReadsFit past
  | _ :: past => ReadsFit past

theorem readout_congr {hist hist' : List SerialOp} (h : List.Forall₂ SerialOp.Same hist hist')
    (hfit : ReadsFit hist) : readout hist = readout hist' := by
  induction h with
  | nil => rfl
  | @cons op op' past past' hop hpast ih =>
      cases op <;> cases op' <;> simp only [SerialOp.Same] at hop
      case receive.receive => exact ih hfit
      case write.write => exact ih hfit
      case read.read port ret _ ret' =>
        rcases hfit with ⟨hport, hne, hrest⟩
        rw [readout, readout, ih hrest, ← hop, ← serialRun_congr hpast,
          readSerialReg_determined hport hne ret ret']

/-- After every history a read of one of the eight ports tells about the port
    only, exactly if it is no read of the receiver buffer that finds the FIFO
    empty. Two executions without such a read that differ in uninitialised
    values only give the guest the same bytes. -/
theorem serial_read_determined_iff (hist : List SerialOp) (port : Nat) (hport : port < 8) :
    (ReadDetermined (serialRun hist) port ↔ ¬ FindsEmpty (serialRun hist) port) ∧
    ∀ hist', List.Forall₂ SerialOp.Same hist hist' →
      serialRun hist = serialRun hist' ∧ (ReadsFit hist → readout hist = readout hist') := by
  constructor
  · constructor
    · rintro h ⟨rfl, hd, hc⟩
      have h01 := h.determined 0 1
      rw [readSerialReg_empty hd hc, readSerialReg_empty hd hc] at h01
      exact absurd h01 (by decide)
    · intro hne
      exact ⟨readSerialReg_determined hport hne, fun he => absurd he hne⟩
  · intro hist' h
    exact ⟨serialRun_congr h, readout_congr h⟩

/-- One byte of input is there to be read. -/
theorem serial_read_determined_iff_received :
    ReadDetermined (serialRun [.receive 65]) 0 :=
  (serial_read_determined_iff [.receive 65] 0 (by decide)).1.mpr
    (fun h => absurd h.2.2 (by decide))

/-- A port nobody used: the guest reads what the stack holds, where
    `fifo_get` would have given zero. -/
theorem serial_read_leaks :
    (fifoGet serialInit.recvFifo).1 = 0 ∧ (readSerialReg (serialRun []) 0 0x5a).1 = 0x5a ∧
    (readSerialReg (serialRun []) 0 0xa5).1 = 0xa5 ∧ ¬ ReadDetermined (serialRun []) 0 := by
  refine ⟨by decide, by decide, by decide, ?_⟩
  intro h
  exact absurd (h.determined 0x5a 0xa5) (by decide)

end Microv
