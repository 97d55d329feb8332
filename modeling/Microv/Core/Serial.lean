import Mathlib.Logic.Function.Basic

/-!
# Serial Port

`serial.c`: a 16550-like port with a receive FIFO, fed by the monitor's
standard input and by the guest in loopback mode, and read by the guest.

Registers have the widths of the source. The FIFO is a ring of sixteen bytes
with a count of its own, and an operation that finds it full says so and writes
all the same. `read_serial_reg` returns an uninitialised variable for a port it does
not know and for an empty FIFO, so what such a read returns is a parameter.
The interrupt is a counter of writes to the eventfd. What the port writes to
standard error is a list: the bytes the guest transmits, and the message of an
overflow.

`rbr`, `thr`, `fcr` and the trigger level of the FIFO are never used by the
code, and `fifo_clear` has no caller; they are left out.

## Main definitions

* `SerialFIFO`, `Serial`: The two structures.
* `serialInit`: The statics before the first access.
* `fifoPut`, `fifoGet`: The ring.
* `updateSerialIir`: Identifying and signalling an interrupt.
* `overflowReport`: The message of an overflow.
* `receiveSerialInput`, `readSerialReg`, `writeSerialReg`: The three ways in.
-/

namespace Microv

-- The `UART_*` constants of the source.
def uartIerRdi : UInt8 := 0x01

def uartIerThri : UInt8 := 0x02

def uartIirNoInt : UInt8 := 0x01

def uartIirThri : UInt8 := 0x02

def uartIirRdi : UInt8 := 0x04

def uartLcrDlab : UInt8 := 0x80

def uartLsrDr : UInt8 := 0x01

def uartLsrThre : UInt8 := 0x20

def uartLsrTemt : UInt8 := 0x40

def uartMcrOut2 : UInt8 := 0x08

def uartMcrLoop : UInt8 := 0x10

def uartMsrCts : UInt8 := 0x10

def uartMsrDsr : UInt8 := 0x20

def uartMsrDcd : UInt8 := 0x80

def uartFifoLength : UInt8 := 16

/-- `struct SerialFIFO`; the array is indexed below `uartFifoLength` only. -/
structure SerialFIFO where
  data : Nat → UInt8
  count : UInt8
  tail : UInt8
  head : UInt8

/-- `struct Serial`, with the writes to `interrupt_evt` counted and what the
    port has written to standard error. -/
structure Serial where
  ier : UInt8
  iir : UInt8
  lcr : UInt8
  mcr : UInt8
  lsr : UInt8
  msr : UInt8
  scr : UInt8
  div : UInt16
  thrPending : Nat
  recvFifo : SerialFIFO
  irqs : Nat
  output : List UInt8

/-- The statics before the first access. -/
def serialInit : Serial :=
  { ier := 0, iir := uartIirNoInt, lcr := 0x03, mcr := uartMcrOut2,
    lsr := uartLsrTemt ||| uartLsrThre, msr := uartMsrDcd ||| uartMsrDsr ||| uartMsrCts, scr := 0,
    div := 0x0c, thrPending := 0,
    recvFifo := { data := fun _ => 0, count := 0, tail := 0, head := 0 }, irqs := 0, output := [] }

/-- `fifo_put`. -/
def fifoPut (f : SerialFIFO) (chr : UInt8) : SerialFIFO :=
  let head := f.head + 1
  { data := Function.update f.data f.head.toNat chr,
    head := if head = uartFifoLength then 0 else head,
    tail := f.tail,
    count := f.count + 1 }

/-- `fifo_get`. -/
def fifoGet (f : SerialFIFO) : UInt8 × SerialFIFO :=
  if f.count = 0 then (0, f)
  else
    let tail := f.tail + 1
    (f.data f.tail.toNat,
      { f with tail := if tail = uartFifoLength then 0 else tail, count := f.count - 1 })

/-- `update_serial_iir`. -/
def updateSerialIir (s : Serial) : Serial :=
  let iir :=
    if s.ier &&& uartIerRdi ≠ 0 ∧ s.lsr &&& uartLsrDr ≠ 0 then
      (uartIirNoInt &&& ~~~uartIirNoInt) ||| uartIirRdi
    else if s.ier &&& uartIerThri ≠ 0 ∧ 0 < s.thrPending then
      (uartIirNoInt &&& ~~~uartIirNoInt) ||| uartIirThri
    else uartIirNoInt
  { s with iir := iir, irqs := if iir ≠ uartIirNoInt then s.irqs + 1 else s.irqs }

/-- The message of an overflow. -/
def overflowMessage : List UInt8 :=
  "Overflow UART_FIFO_LENGTH\n".toList.map fun c => UInt8.ofNat c.toNat

/-- The test in front of `fifo_put`: an overflow is reported and nothing
    else. -/
def overflowReport (f : SerialFIFO) : List UInt8 :=
  if uartFifoLength ≤ f.count then overflowMessage else []

/-- `receive_serial_input`. -/
def receiveSerialInput (s : Serial) (data : UInt8) : Serial :=
  if s.mcr &&& uartMcrLoop = 0 then
    updateSerialIir
      { s with
        recvFifo := fifoPut s.recvFifo data, lsr := s.lsr ||| uartLsrDr,
        output := s.output ++ overflowReport s.recvFifo }
  else s

/-- `read_serial_reg`; `ret` is what the uninitialised variable holds. -/
def readSerialReg (s : Serial) (port : Nat) (ret : UInt8) : UInt8 × Serial :=
  match port with
  | 0 =>
      if s.lcr &&& uartLcrDlab ≠ 0 then (s.div.toUInt8, s)
      else
        let got := if s.recvFifo.count ≠ 0 then fifoGet s.recvFifo else (ret, s.recvFifo)
        (got.1,
          updateSerialIir { s with
            recvFifo := got.2,
            lsr := if got.2.count = 0 then s.lsr &&& ~~~uartLsrDr else s.lsr })
  | 1 => (if s.lcr &&& uartLcrDlab ≠ 0 then (s.div >>> 8).toUInt8 else s.ier, s)
  | 2 => (s.iir ||| 0xc0, { s with thrPending := 0, iir := uartIirNoInt })
  | 3 => (s.lcr, s)
  | 4 => (s.mcr, s)
  | 5 => (s.lsr, s)
  | 6 =>
      (if s.mcr &&& uartMcrLoop ≠ 0 then
          ((s.mcr &&& 0x0c) <<< 4) ||| ((s.mcr &&& 0x02) <<< 3) ||| ((s.mcr &&& 0x01) <<< 5)
        else s.msr, s)
  | 7 => (s.scr, s)
  | _ => (ret, s)

/-- `write_serial_reg`. -/
def writeSerialReg (s : Serial) (port : Nat) (data : UInt8) : Serial :=
  match port with
  | 0 =>
      if s.lcr &&& uartLcrDlab ≠ 0 then
        { s with div := (s.div &&& 0xff00) ||| data.toUInt16 }
      else
        updateSerialIir
          (if s.mcr &&& uartMcrLoop ≠ 0 then
            { s with
              thrPending := 1, recvFifo := fifoPut s.recvFifo data, lsr := s.lsr ||| uartLsrDr,
              output := s.output ++ overflowReport s.recvFifo }
          else { s with thrPending := 1, output := s.output ++ [data] })
  | 1 =>
      if s.lcr &&& uartLcrDlab ≠ 0 then
        { s with div := (s.div &&& 0x00ff) ||| (data.toUInt16 <<< (8 : UInt16)) }
      else
        let changed := (s.ier ^^^ data) &&& 0x0f
        if changed ≠ 0 then updateSerialIir { s with ier := data &&& 0x0f }
        else { s with ier := data &&& 0x0f }
  | 3 => { s with lcr := data }
  | 4 => { s with mcr := data }
  | 7 => { s with scr := data }
  | _ => s

end Microv
