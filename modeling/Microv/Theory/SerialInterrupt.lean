import Microv.Theory.Serial

/-!
# Serial Interrupts

The interrupt side of the serial port: what the identification register
holds, and when the eventfd is written.

Two conditions can interrupt, received data and an empty transmitter, each
with an enable bit. `update_serial_iir` looks at both, caches the answer in
`iir` and signals. Every branch that changes an input of the conditions ends
in that function, so a condition never becomes true without a signal. Reading
the register does not: it forgets the cached answer and the transmitter
condition, whichever it reported.

## Main definitions

* `Serial.rdiPending`, `Serial.thriPending`: The two conditions.
* `identified`: The condition to report.
* `IirEffect`: What an operation does to the interrupt state.

## Theorems

* `iirEffect`: Every operation has one of the three effects.
* `iir_identifies`: The register is right while it is not read with received
  data pending.
* `interrupt_signalled`: Every rising condition is signalled, and no signal
  is spurious.
-/

namespace Microv

/-- Received data is enabled and there. -/
def Serial.rdiPending (s : Serial) : Prop :=
  s.ier &&& uartIerRdi ≠ 0 ∧ s.dataReady

/-- Transmitter empty is enabled and there. -/
def Serial.thriPending (s : Serial) : Prop :=
  s.ier &&& uartIerThri ≠ 0 ∧ 0 < s.thrPending

instance (s : Serial) : Decidable s.rdiPending := inferInstanceAs (Decidable (_ ∧ _))

instance (s : Serial) : Decidable s.thriPending := inferInstanceAs (Decidable (_ ∧ _))

/-- The identification of the pending condition of highest priority. -/
def identified (s : Serial) : UInt8 :=
  if s.rdiPending then uartIirRdi else if s.thriPending then uartIirThri else uartIirNoInt

section

variable (s : Serial)

theorem identified_ne_iff : identified s ≠ uartIirNoInt ↔ s.rdiPending ∨ s.thriPending := by
  unfold identified
  split_ifs with h1 h2
  · exact ⟨fun _ => .inl h1, fun _ => by decide⟩
  · exact ⟨fun _ => .inr h2, fun _ => by decide⟩
  · exact ⟨fun h => absurd rfl h, fun h => (h.elim h1 h2).elim⟩

theorem identified_eq_thri : identified s = uartIirThri ↔ ¬ s.rdiPending ∧ s.thriPending := by
  unfold identified
  split_ifs with h1 h2
  · exact ⟨fun h => absurd h (by decide), fun h => absurd h1 h.1⟩
  · exact ⟨fun _ => ⟨h1, h2⟩, fun _ => rfl⟩
  · exact ⟨fun h => absurd h (by decide), fun h => absurd h.2 h2⟩

/-- `update_serial_iir` identifies the condition, -/
theorem updateSerialIir_iir : (updateSerialIir s).iir = identified s := by
  simp only [updateSerialIir, identified]
  rfl

/-- and signals if there is one. -/
theorem updateSerialIir_irqs :
    (updateSerialIir s).irqs
      = if s.rdiPending ∨ s.thriPending then s.irqs + 1 else s.irqs := by
  have hirqs : (updateSerialIir s).irqs
      = if (updateSerialIir s).iir ≠ uartIirNoInt then s.irqs + 1 else s.irqs := rfl
  rw [hirqs, updateSerialIir_iir]
  exact if_congr (identified_ne_iff s) rfl rfl

/-- What an operation does to the interrupt state: it looks at the conditions
    again, it is a read of the register, or it changes nothing the conditions
    depend on. -/
inductive IirEffect (s : Serial) (op : SerialOp) (s' : Serial) : Prop where
  | update (t : Serial) : s' = updateSerialIir t → t.irqs = s.irqs → IirEffect s op s'
  | acknowledge (ret : UInt8) : op = .read 2 ret →
      s' = { s with thrPending := 0, iir := uartIirNoInt } → IirEffect s op s'
  | keep : s'.iir = s.iir → s'.irqs = s.irqs → (s'.rdiPending ↔ s.rdiPending) →
      (s'.thriPending ↔ s.thriPending) → IirEffect s op s'

theorem iirEffect_receive (data : UInt8) :
    IirEffect s (.receive data) (serialStep s (.receive data)) := by
  simp only [serialStep, receiveSerialInput]
  split_ifs
  · exact .update _ rfl rfl
  · exact .keep rfl rfl Iff.rfl Iff.rfl

theorem iirEffect_read (port : Nat) (ret : UInt8) :
    IirEffect s (.read port ret) (serialStep s (.read port ret)) := by
  match port with
  | 0 =>
      by_cases hd : s.lcr &&& uartLcrDlab ≠ 0
      · simp only [serialStep, readSerialReg, if_pos hd]
        exact .keep rfl rfl Iff.rfl Iff.rfl
      · simp only [serialStep, readSerialReg, if_neg hd]
        exact .update _ rfl rfl
  | 1 => exact .keep rfl rfl Iff.rfl Iff.rfl
  | 2 => exact .acknowledge ret rfl rfl
  | 3 => exact .keep rfl rfl Iff.rfl Iff.rfl
  | 4 => exact .keep rfl rfl Iff.rfl Iff.rfl
  | 5 => exact .keep rfl rfl Iff.rfl Iff.rfl
  | 6 => exact .keep rfl rfl Iff.rfl Iff.rfl
  | 7 => exact .keep rfl rfl Iff.rfl Iff.rfl
  | _ + 8 => exact .keep rfl rfl Iff.rfl Iff.rfl

/-- An enable register that looks unchanged leaves the conditions alone. -/
theorem iirEffect_sameIer (data : UInt8) (h : (s.ier ^^^ data) &&& 0x0f = 0) (op : SerialOp) :
    IirEffect s op { s with ier := data &&& 0x0f } := by
  have hrdi : (data &&& 0x0f) &&& uartIerRdi = s.ier &&& uartIerRdi :=
    and_eq_of_xor s.ier data 0x0f uartIerRdi h (by decide)
  have hthri : (data &&& 0x0f) &&& uartIerThri = s.ier &&& uartIerThri :=
    and_eq_of_xor s.ier data 0x0f uartIerThri h (by decide)
  refine .keep rfl rfl ?_ ?_
  · unfold Serial.rdiPending
    rw [hrdi]
    exact Iff.rfl
  · unfold Serial.thriPending
    rw [hthri]

theorem iirEffect_write (port : Nat) (data : UInt8) :
    IirEffect s (.write port data) (serialStep s (.write port data)) := by
  match port with
  | 0 =>
      simp only [serialStep, writeSerialReg]
      split_ifs
      · exact .keep rfl rfl Iff.rfl Iff.rfl
      · exact .update _ rfl rfl
      · exact .update _ rfl rfl
  | 1 =>
      simp only [serialStep, writeSerialReg]
      split_ifs with hd hch
      · exact .keep rfl rfl Iff.rfl Iff.rfl
      · exact .update _ rfl rfl
      · -- No change in IER, and `update_serial_iir` is not called.
        exact iirEffect_sameIer s data (not_not.mp hch) _
  | 2 => exact .keep rfl rfl Iff.rfl Iff.rfl
  | 3 => exact .keep rfl rfl Iff.rfl Iff.rfl
  | 4 => exact .keep rfl rfl Iff.rfl Iff.rfl
  | 5 => exact .keep rfl rfl Iff.rfl Iff.rfl
  | 6 => exact .keep rfl rfl Iff.rfl Iff.rfl
  | 7 => exact .keep rfl rfl Iff.rfl Iff.rfl
  | _ + 8 => exact .keep rfl rfl Iff.rfl Iff.rfl

theorem iirEffect (op : SerialOp) : IirEffect s op (serialStep s op) := by
  cases op with
  | receive data => exact iirEffect_receive s data
  | read port ret => exact iirEffect_read s port ret
  | write port data => exact iirEffect_write s port data

/-! ### Identification -/

/-- The cached identification is the current one. -/
def Coherent (s : Serial) : Prop := s.iir = identified s

/-- The register is not read while received data is pending. -/
def IirReadFits (s : Serial) (op : SerialOp) : Prop :=
  (∃ ret, op = .read 2 ret) → ¬ s.rdiPending

theorem coherent_step (op : SerialOp) (h : Coherent s) (hc : IirReadFits s op) :
    Coherent (serialStep s op) := by
  rcases iirEffect s op with ⟨t, hs, -⟩ | ⟨ret, rfl, hs⟩ | ⟨hiir, -, hrdi, hthri⟩
  · rw [hs]
    exact updateSerialIir_iir t
  · have hno : ¬ s.rdiPending := hc ⟨ret, rfl⟩
    rw [hs]
    exact ((if_neg hno).trans (if_neg fun hy => Nat.lt_irrefl 0 hy.2)).symm
  · unfold Coherent identified at *
    rw [hiir, h, if_congr hrdi rfl rfl, if_congr hthri rfl rfl]

end

/-- In every run that reads the register only while no received data is
    pending, a read returns the pending condition of highest priority. It
    acknowledges nothing else exactly when no transmission is outstanding, or
    the transmitter condition is the one it reports. -/
theorem iir_identifies (s : Serial)
    (hrun : Run (fun op s s' => s' = serialStep s op) IirReadFits serialInit s) (ret : UInt8) :
    (readSerialReg s 2 ret).1 = identified s ||| 0xc0 ∧
    ((s.thrPending ≠ 0 → (readSerialReg s 2 ret).2.thrPending = 0 →
        (readSerialReg s 2 ret).1 = uartIirThri ||| 0xc0) ↔
      (s.thrPending = 0 ∨ (¬ s.rdiPending ∧ s.ier &&& uartIerThri ≠ 0))) := by
  -- The cached value is kept current up to the read.
  have hco : Coherent s := by
    refine hrun.invariant (P := Coherent) (by unfold Coherent; decide) ?_
    intro t op u ht hc hs
    rw [hs]
    exact coherent_step t op ht hc
  have hval : (readSerialReg s 2 ret).1 = identified s ||| 0xc0 := congrArg (· ||| 0xc0) hco
  refine ⟨hval, ?_⟩
  rw [hval]
  -- The two FIFO bits do not mix with the identification.
  have hmask : identified s ||| 0xc0 = uartIirThri ||| 0xc0 ↔ identified s = uartIirThri := by
    unfold identified
    split_ifs <;> decide
  rw [hmask, identified_eq_thri]
  constructor
  · intro h
    by_cases hp : s.thrPending = 0
    · exact .inl hp
    · have hack := h hp rfl
      exact .inr ⟨hack.1, hack.2.1⟩
  · rintro (h0 | h1) hp _
    · exact absurd h0 hp
    · exact ⟨h1.1, h1.2, Nat.pos_of_ne_zero hp⟩

/-- `iir_identifies` after a transmission with both conditions enabled. -/
theorem iir_identifies_transmitted :
    let s := serialStep (serialStep serialInit (.write 1 3)) (.write 0 65)
    (readSerialReg s 2 0).1 = 0xc2 ∧ (readSerialReg s 2 0).1 = identified s ||| 0xc0 := by
  refine ⟨by decide, ?_⟩
  refine (iir_identifies _ (.tail (.write 0 65) (.tail (.write 1 3) (.refl _) ?_ rfl) ?_ rfl) 0).1
  · rintro ⟨ret, h⟩
    cases h
  · rintro ⟨ret, h⟩
    cases h

/-- With both conditions pending a read reports received data and forgets the
    transmission; and the read after it reports no interrupt while the data is
    still there. -/
theorem iir_forgets :
    ∃ s, Run (fun op s s' => s' = serialStep s op) (fun _ _ => True) serialInit s ∧
      (readSerialReg s 2 0).1 = uartIirRdi ||| 0xc0 ∧ s.thrPending = 1 ∧
      (readSerialReg s 2 0).2.thrPending = 0 ∧
      (readSerialReg s 2 0).2.rdiPending ∧
      (readSerialReg (readSerialReg s 2 0).2 2 0).1 = uartIirNoInt ||| 0xc0 := by
  refine ⟨serialStep (serialStep (serialStep serialInit (.write 1 3)) (.write 0 65)) (.receive 66),
    .tail (.receive 66) (.tail (.write 0 65) (.tail (.write 1 3) (.refl _) trivial rfl) trivial rfl)
      trivial rfl, ?_⟩
  decide

/-! ### Signalling -/

/-- An operation that makes one of the conditions true writes the eventfd, and
    after an operation that writes it one of them holds. -/
theorem interrupt_signalled (s : Serial) (op : SerialOp) :
    ((¬ s.rdiPending ∧ (serialStep s op).rdiPending) ∨
        (¬ s.thriPending ∧ (serialStep s op).thriPending) →
      (serialStep s op).irqs = s.irqs + 1) ∧
    ((serialStep s op).irqs ≠ s.irqs →
      (serialStep s op).rdiPending ∨ (serialStep s op).thriPending) := by
  rcases iirEffect s op with ⟨t, hs, ht⟩ | ⟨ret, rfl, hs⟩ | ⟨-, hirqs, hrdi, hthri⟩
  · rw [hs, updateSerialIir_irqs, ht]
    -- The conditions do not depend on what `update_serial_iir` writes.
    have hr : (updateSerialIir t).rdiPending ↔ t.rdiPending := Iff.rfl
    have hth : (updateSerialIir t).thriPending ↔ t.thriPending := Iff.rfl
    rw [hr, hth]
    constructor
    · intro h
      exact if_pos (h.imp And.right And.right)
    · intro h
      by_contra hno
      exact h (if_neg hno)
  · rw [hs]
    constructor
    · rintro (h | h)
      · exact absurd h.2 h.1
      · exact absurd h.2.2 (Nat.lt_irrefl 0)
    · exact fun h => absurd rfl h
  · rw [hrdi, hthri, hirqs]
    constructor
    · rintro (h | h)
      · exact absurd h.2 h.1
      · exact absurd h.2 h.1
    · exact fun h => absurd rfl h

end Microv
