import Microv.Theory.Monitor

/-!
# The Console

What the guest prints and what it reads, through the port bus and the serial
port together.

The port transmits a byte when it is written to the transmitter with DLAB and
loopback clear, and which writes these are is a matter of history, as it is for
the other registers. It prints on standard error, where it also reports each
byte that it puts into a full FIFO. `printed` has both over the list of
operations, and the port's output is that list, in every run (`output_eq`).
Messages of other parts of the monitor on the same stream are not in it. A
string instruction is one exit with many elements: on the way out each element's
first byte is printed, in order, and on the way in each element gets the oldest
byte that is still pending.

## Main definitions

* `loopAfter`: Loopback after a history.
* `transmits`, `reports`: What an operation transmits, and what is reported.
* `printed`: What the port has printed in a history.

## Theorems

* `output_eq`: The port's output is what it has printed in its history.
* `console_output`: What the guest prints, in a run and with one instruction.
* `handlePioFrom_input`: A string of reads takes the pending bytes.
* `console_input`: What one instruction of the guest reads.
-/

namespace Microv

/-! ### Output -/

/-- MCR.LOOP after a history. -/
def loopAfter (hist : List SerialOp) : Prop :=
  (lastWrite 4 hist).getD 0x08 &&& uartMcrLoop ≠ 0

instance (hist : List SerialOp) : Decidable (loopAfter hist) := inferInstanceAs (Decidable (_ ≠ _))

/-- The byte an operation transmits after a history. -/
def transmits (past : List SerialOp) (op : SerialOp) : Option UInt8 :=
  if dlabAfter past ∨ loopAfter past then none else op.writes 0

/-- What is reported of an operation after a history: an overflow, if it puts
    a byte into the FIFO and that is full. -/
def reports (past : List SerialOp) (op : SerialOp) : List UInt8 :=
  if (accepts (serialRun past) op).isSome then overflowReport (serialRun past).recvFifo else []

/-- What the port has printed in a history, in order. -/
def printed : List SerialOp → List UInt8
  | [] => []
  | op :: past => printed past ++ reports past op ++ (transmits past op).toList

section Output

variable (s : Serial)

@[simp] theorem updateSerialIir_output : (updateSerialIir s).output = s.output := rfl

/-- An operation prints the byte it writes to the transmitter, or the report of
    an overflow, or nothing. -/
theorem serialStep_output (op : SerialOp) :
    (serialStep s op).output
      = s.output ++ (if (accepts s op).isSome then overflowReport s.recvFifo else [])
        ++ (if s.dlab ∨ s.loop then none else op.writes 0).toList := by
  have hkeep : ∀ a o : Option UInt8, a = none → o = none →
      s.output = s.output ++ (if a.isSome then overflowReport s.recvFifo else [])
        ++ (if s.dlab ∨ s.loop then none else o).toList := by
    rintro a o rfl rfl
    simp
  cases op with
  | receive data =>
      by_cases hl : s.mcr &&& uartMcrLoop = 0
      · have hno : ¬ s.loop := fun h => h hl
        simp only [serialStep, receiveSerialInput, if_pos hl, accepts, if_neg hno,
          updateSerialIir_output, Option.isSome_some, if_true, SerialOp.writes, ite_self,
          Option.toList_none, List.append_nil]
      · refine Eq.trans ?_ (hkeep _ _ (if_pos hl) rfl)
        simp only [serialStep, receiveSerialInput, if_neg hl]
  | read port ret =>
      refine Eq.trans ?_ (hkeep _ _ rfl rfl)
      simp only [serialStep, readSerialReg]
      repeat' split
      all_goals rfl
  | write port data =>
      by_cases hport : port = 0
      · subst hport
        -- The divisor, the loopback, or the output.
        by_cases hd : s.dlab
        · have hd' : s.lcr &&& uartLcrDlab ≠ 0 := hd
          have hnone : accepts s (.write 0 data) = none := if_neg fun h => h.1 hd
          rw [hnone, if_pos (Or.inl hd), serialStep, writeSerialReg, if_pos hd']
          simp
        · have hd' : ¬ s.lcr &&& uartLcrDlab ≠ 0 := hd
          by_cases hl : s.loop
          · have hl' : s.mcr &&& uartMcrLoop ≠ 0 := hl
            have hsome : accepts s (.write 0 data) = some data := if_pos ⟨hd, hl⟩
            rw [hsome, if_pos (Or.inr hl), serialStep, writeSerialReg, if_neg hd', if_pos hl']
            simp
          · have hl' : ¬ s.mcr &&& uartMcrLoop ≠ 0 := hl
            have hnone : accepts s (.write 0 data) = none := if_neg fun h => hl h.2
            rw [hnone, if_neg (not_or.mpr ⟨hd, hl⟩), serialStep, writeSerialReg, if_neg hd',
              if_neg hl']
            simp [SerialOp.writes]
      · have hnone : accepts s (.write port data) = none := by
          obtain ⟨n, rfl⟩ := Nat.exists_eq_succ_of_ne_zero hport
          rfl
        refine Eq.trans ?_ (hkeep _ _ hnone (if_neg hport))
        simp only [serialStep, writeSerialReg]
        repeat' split
        all_goals first | rfl | exact absurd rfl hport

end Output

theorem loop_iff (hist : List SerialOp) : (serialRun hist).loop ↔ loopAfter hist := by
  unfold Serial.loop loopAfter
  rw [(registerFile_run hist).mcr]

/-- The port's output is what it has printed in its history. -/
theorem output_eq (hist : List SerialOp) : (serialRun hist).output = printed hist := by
  induction hist with
  | nil => rfl
  | cons op past ih =>
      rw [serialRun, serialStep_output, ih, printed, transmits, reports]
      simp only [(registerFile_run past).dlab_iff, loop_iff past]

/-- A string of writes to the transmitter, after a history that left DLAB and
    loopback clear. -/
theorem printed_writes (past : List SerialOp) (hclear : ¬ dlabAfter past ∧ ¬ loopAfter past)
    (bytes : List UInt8) :
    printed ((bytes.map fun b => SerialOp.write 0 b).reverse ++ past)
      = printed past ++ bytes := by
  have hkeeps : ∀ (port : Nat), port ≠ 0 → ∀ bytes : List UInt8,
      lastWrite port ((bytes.map fun b => SerialOp.write 0 b).reverse ++ past)
        = lastWrite port past := by
    intro port hport bytes
    induction bytes using List.reverseRecOn with
    | nil => rfl
    | append_singleton bytes b ih =>
        rw [List.map_append, List.reverse_append]
        have hno : (SerialOp.write 0 b).writes port = none := if_neg (Ne.symm hport)
        simp only [List.map_cons, List.map_nil, List.reverse_singleton, List.nil_append,
          List.cons_append, lastWrite, lastOf, hno, Option.none_or]
        exact ih
  induction bytes using List.reverseRecOn with
  | nil => simp
  | append_singleton bytes b ih =>
      rw [List.map_append, List.reverse_append]
      simp only [List.map_cons, List.map_nil, List.reverse_singleton, List.nil_append,
        List.cons_append, printed]
      have hno : ¬(dlabAfter ((bytes.map fun b => SerialOp.write 0 b).reverse ++ past) ∨
          loopAfter ((bytes.map fun b => SerialOp.write 0 b).reverse ++ past)) := by
        unfold dlabAfter loopAfter
        rw [hkeeps 3 (by decide), hkeeps 4 (by decide)]
        exact not_or.mpr hclear
      -- Outside loopback mode a transmission puts nothing into the FIFO.
      have hquiet : reports ((bytes.map fun b => SerialOp.write 0 b).reverse ++ past)
          (.write 0 b) = [] := by
        have hnone : accepts (serialRun ((bytes.map fun b => SerialOp.write 0 b).reverse ++ past))
            (.write 0 b) = none :=
          if_neg fun h => hno (Or.inr ((loop_iff _).mp h.2))
        rw [reports, hnone]
        rfl
      rw [ih, hquiet, transmits, if_neg hno]
      simp [SerialOp.writes]

/-! ### Input -/

theorem after_dev (ops : List SerialOp) :
    (SerialSys.init.after ops.reverse).dev = serialRun ops := by
  induction ops with
  | nil => rfl
  | cons op past ih =>
      rw [List.reverse_cons, SerialSys.after, List.foldl_append]
      simp only [List.foldl_cons, List.foldl_nil, SerialSys.next, serialRun]
      exact congrArg (serialStep · op) ih

section Exits

variable {mapper : Int → MemRegion} {L : PciLayout} {s : Monitor} {io : KvmRunIo}

theorem element_ne (hio : io.Valid) {i j : Nat} (h : i < j) : io.element i ≠ io.element j := by
  have hmul : (i + 1) * io.size ≤ j * io.size := Nat.mul_le_mul_right _ h
  have hpos := hio.size_pos
  rw [Nat.add_mul, Nat.one_mul] at hmul
  simp only [KvmRunIo.element]
  omega

variable (mapper L) in
/-- A string of reads takes the pending bytes, one for each element, and leaves
    the rest of the page. -/
theorem handlePioFrom_input (hio : io.Valid) (hin : io.direction ≠ kvmExitIoOut)
    (hport : io.port = 0x3f8) (hsize : io.size ≤ 8) (stack : Nat → StackBytes) (n i : Nat)
    (page : ByteMem) (h : Wired s.ports.machine) (hwf : FifoWf s.serial.recvFifo)
    (hdlab : ¬ s.serial.dlab) (hn : n ≤ (pending s.serial.recvFifo).length) :
    ∃ res, EndsWith (fun fuel => Monitor.handlePioFrom mapper L fuel io stack n i s page) res ∧
      pending res.1.serial.recvFifo = (pending s.serial.recvFifo).drop n ∧
      (∀ j, j < n → (pending s.serial.recvFifo)[j]? = some (res.2 (io.element (i + j)))) ∧
      ∀ a, (∀ j, j < n → a ≠ io.element (i + j)) → res.2 a = page a := by
  induction n generalizing i s page with
  | zero =>
      exact ⟨(s, page), .const _, rfl, fun j hj => absurd hj (Nat.not_lt_zero j), fun _ _ => rfl⟩
  | succ n ih =>
      have hpos := hio.size_pos
      have hacc : io.access page i = .read 0x3f8 io.size := by
        rw [KvmRunIo.access, if_neg hin, hport]
      have hends := busAccess_serial mapper L h (stack i) (io.access page i)
        (by rw [access_size]; exact hpos) (by rw [access_size, access_offset]; omega)
      rw [hacc] at hends
      have hd' : ¬ s.serial.lcr &&& uartLcrDlab ≠ 0 := hdlab
      have hc : s.serial.recvFifo.count ≠ 0 := by
        intro hzero
        rw [pending, length_ringContents, hzero] at hn
        exact Nat.not_succ_le_zero n hn
      rcases fifoGet_wf s.serial.recvFifo hwf hc with ⟨hwf', hpend⟩
      have hbyte := readSerialReg_take s.serial (stack i).ret hdlab hc
      have hfifo : (readSerialReg s.serial 0 (stack i).ret).2.recvFifo
          = (fifoGet s.serial.recvFifo).2 := by
        simp only [readSerialReg, if_neg hd', if_pos hc, updateSerialIir]
      have hlcr : ¬ (readSerialReg s.serial 0 (stack i).ret).2.dlab := by
        simp only [readSerialReg, if_neg hd', updateSerialIir, Serial.dlab]
        exact hd'
      simp only [serialHandleIo, Access.at, Access.offset, Nat.sub_self, hbyte] at hends
      rcases ih (s := { s with serial := (readSerialReg s.serial 0 (stack i).ret).2 }) (i + 1)
        (page.write (io.element i) [(fifoGet s.serial.recvFifo).1]) h (by rw [hfifo]; exact hwf')
        hlcr (by rw [hfifo]; rw [hpend, List.length_cons] at hn; omega) with
        ⟨res, hrest, hleft, hread, hkeep⟩
      rw [hfifo] at hleft hread
      refine ⟨res, ?_, ?_, ?_, ?_⟩
      · unfold Monitor.handlePioFrom
        rw [hacc]
        exact hends.bind hrest
      · rw [hleft, hpend, List.drop_succ_cons]
      · rintro (_ | j) hj
        · -- The elements that follow lie elsewhere.
          rw [hpend, List.getElem?_cons_zero, Nat.add_zero, hkeep (io.element i) fun j _ =>
            element_ne hio (by omega), ByteMem.write_byte_self]
        · rw [hpend, List.getElem?_cons_succ, hread j (by omega), Nat.add_right_comm, Nat.add_assoc]
      · intro a ha
        rw [hkeep a fun j hj => by
          have hne := ha (j + 1) (by omega)
          rwa [Nat.add_right_comm, Nat.add_assoc]]
        exact ByteMem.write_byte_other _ _ _ _ (ha 0 (Nat.succ_pos n))

end Exits

/-! ### In every run -/

/-- What the port has printed after a run is what the guest transmitted in it
    and the overflows it reported, in order, and one string instruction to the
    transmitter prints the first byte of each of its elements, in order. -/
theorem console_output (mapper : Int → MemRegion) (L : PciLayout) (s₀ s s' : Monitor)
    (es : List MonitorEvent) (io : KvmRunIo) (page : ByteMem) (stack : Nat → StackBytes)
    (h0 : s₀.Initial L) (hvalid : ∀ e ∈ es, e.Valid)
    (htrace : Trace (MonitorWithin mapper L) s₀ es s)
    (hio : io.Valid) (hout : io.direction = kvmExitIoOut) (hport : io.port = 0x3f8)
    (hsize : io.size ≤ 8) (hdlab : ¬ dlabAfter (es.flatMap MonitorEvent.serialOps))
    (hloop : ¬ loopAfter (es.flatMap MonitorEvent.serialOps))
    (hs : MonitorOutcome mapper L (.pio io page stack) s s') :
    s.serial.output = printed (es.flatMap MonitorEvent.serialOps) ∧
      s'.serial.output
        = s.serial.output ++ (List.range io.count).map fun i => page (io.element i) := by
  have hrun := serial_run h0 hvalid htrace
  have hvalid' : ∀ e ∈ MonitorEvent.pio io page stack :: es, e.Valid :=
    List.forall_mem_cons.mpr ⟨hio, hvalid⟩
  have hnext := serial_run h0 hvalid' (.cons _ htrace ⟨trivial, hs⟩)
  rw [List.flatMap_cons] at hnext
  -- Element by element, the exit writes the THR.
  have hops : MonitorEvent.serialOps (.pio io page stack)
      = (((List.range io.count).map fun i => page (io.element i)).map fun b =>
          SerialOp.write 0 b).reverse := by
    rw [MonitorEvent.serialOps, KvmRunIo.serialOps, List.map_map, List.range_eq_range',
      ← List.filterMap_eq_map]
    refine congrArg List.reverse (List.filterMap_congr fun i _ => ?_)
    have hin : 0x3f8 ≤ (io.access page i).offset ∧
        (io.access page i).offset + (io.access page i).size ≤ 0x400 := by
      rw [access_size, access_offset]
      omega
    -- An element wider than a byte counts with its first byte only.
    have hhead : (page.read (io.element i) io.size).headD 0 = page (io.element i) := by
      rcases Nat.exists_eq_succ_of_ne_zero hio.size_pos.ne' with ⟨n, hn⟩
      rw [hn, ByteMem.read, List.range_succ_eq_map, List.map_cons, List.headD_cons, Nat.add_zero]
    unfold serialOp
    rw [if_pos hin, KvmRunIo.access, if_pos hout, hport]
    simp only [Function.comp_apply, Nat.sub_self, hhead]
  refine ⟨by rw [hrun, output_eq], ?_⟩
  rw [hnext, hrun, output_eq, output_eq, hops, printed_writes _ ⟨hdlab, hloop⟩]

/-- `console_output` for two characters. -/
theorem console_output_print : ∃ s,
    MonitorOutcome sampleMapper sampleLayout samplePrint sampleMonitor s ∧
      s.serial.output = sampleMonitor.serial.output ++ [72, 105] := by
  rcases samplePrint_step with ⟨s, hs⟩
  exact ⟨s, hs.2, (console_output sampleMapper sampleLayout sampleMonitor sampleMonitor s [] _ _ _
    sampleMonitor_initial (by simp) .nil samplePrint_valid rfl rfl (by decide) (by decide)
    (by decide) hs.2).2⟩

/-- One string instruction that reads the receiver with DLAB clear, in elements
    of at most 8 bytes, takes the bytes that were accepted next, one for each
    element, where as many are pending and no byte was put into a full FIFO
    before. -/
theorem console_input (mapper : Int → MemRegion) (L : PciLayout) (s₀ s : Monitor)
    (es : List MonitorEvent) (io : KvmRunIo) (page : ByteMem) (stack : Nat → StackBytes)
    (h0 : s₀.Initial L) (hvalid : ∀ e ∈ es, e.Valid)
    (htrace : Trace (MonitorWithin mapper L) s₀ es s)
    (hio : io.Valid) (hin : io.direction ≠ kvmExitIoOut) (hport : io.port = 0x3f8)
    (hsize : io.size ≤ 8) (hdlab : ¬ dlabAfter (es.flatMap MonitorEvent.serialOps))
    (sys : SerialSys)
    (hsys : sys = SerialSys.init.after (es.flatMap MonitorEvent.serialOps).reverse)
    (hroom : OpsMeet NoOverflow SerialSys.init (es.flatMap MonitorEvent.serialOps).reverse)
    (hcount : sys.delivered.length + io.count ≤ sys.accepted.length) :
    ∃ res, EndsWith (fun fuel => s.handlePio mapper L fuel io stack page) res ∧
      pending res.1.serial.recvFifo = sys.accepted.drop (sys.delivered.length + io.count) ∧
      (∀ j, j < io.count → sys.accepted[sys.delivered.length + j]? = some (res.2 (io.element j))) ∧
      ∀ a, (∀ j, j < io.count → a ≠ io.element j) → res.2 a = page a := by
  have hdev : sys.dev = s.serial := by
    rw [hsys, after_dev, serial_run h0 hvalid htrace]
  -- With no overflow the FIFO holds what was accepted and not yet delivered.
  have hinv : SerialInv sys := by
    rw [hsys]
    refine (run_ops (.refl _) _ hroom).invariant serialInv_init ?_
    intro t op u ht hc hs
    rw [hs]
    exact serialInv_step t op ht hc
  have hwf := hinv.fifo.wf
  have hall := hinv.accounted
  rw [hdev] at hwf hall
  have hclear : ¬ s.serial.dlab := by
    rw [serial_run h0 hvalid htrace, (registerFile_run _).dlab_iff]
    exact hdlab
  -- So there is a byte for every element of the exit.
  have hlen : io.count ≤ (pending s.serial.recvFifo).length := by
    have hsum := congrArg List.length hall
    rw [List.length_append] at hsum
    omega
  rcases handlePioFrom_input mapper L hio hin hport hsize stack io.count 0 page
    (monitor_run h0 hvalid htrace).1.wired hwf hclear hlen with ⟨res, hends, hleft, hread, hkeep⟩
  refine ⟨res, hends, ?_, ?_, ?_⟩
  · rw [hleft, hall, List.drop_length_add_append]
  · intro j hj
    rw [hall, List.getElem?_append_right (by omega), Nat.add_sub_cancel_left]
    simpa only [Nat.zero_add] using hread j hj
  · intro a ha
    exact hkeep a fun j hj => by simpa only [Nat.zero_add] using ha j hj

/-- `console_input` for a guest that reads two of three characters that were
    typed. -/
theorem console_input_typed : ∃ s,
    Trace (MonitorWithin sampleMapper sampleLayout) sampleMonitor
        [.stdin 67, .stdin 66, .stdin 65] s ∧
      ∃ res, EndsWith (fun fuel => s.handlePio sampleMapper sampleLayout fuel
          ⟨0, 1, 0x3f8, 2, 0⟩ (fun _ => ⟨0, fun _ => 0⟩) fun _ => 0) res ∧
        pending res.1.serial.recvFifo = [67] ∧ res.2 0 = 65 ∧ res.2 1 = 66 := by
  have htyped : ∀ (s : Monitor) (b : UInt8), MonitorWithin sampleMapper sampleLayout (.stdin b) s
      { s with serial := receiveSerialInput s.serial b } :=
    fun s b => ⟨trivial, fun _ => ⟨0, rfl⟩⟩
  have htrace : Trace (MonitorWithin sampleMapper sampleLayout) sampleMonitor
      [.stdin 67, .stdin 66, .stdin 65] _ :=
    .cons _ (.cons _ (.cons _ .nil (htyped _ _)) (htyped _ _)) (htyped _ _)
  refine ⟨_, htrace, ?_⟩
  rcases console_input sampleMapper sampleLayout sampleMonitor _ _ ⟨0, 1, 0x3f8, 2, 0⟩
    (fun _ => 0) (fun _ => ⟨0, fun _ => 0⟩) sampleMonitor_initial
    (by simp [MonitorEvent.Valid]) htrace ⟨by decide, by decide, by decide⟩ (by decide) rfl
    (by decide) (by decide) _ rfl (by decide) (by decide) with ⟨res, hends, hleft, hread, -⟩
  refine ⟨res, hends, ?_, ?_, ?_⟩
  · rw [hleft]
    decide
  · exact (Option.some.inj (hread 0 (by decide))).symm
  · exact (Option.some.inj (hread 1 (by decide))).symm

end Microv
