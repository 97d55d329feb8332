import Microv.Core.Memory

/-!
# MP Table

`mptable.c`: the table in which the guest finds its processors and interrupt
lines, in the format of the Intel multiprocessor specification.

A floating pointer structure at a fixed place points at the table behind it: a
header, and then one entry after the other. Each structure is cleared and its
fields are assigned, which is the same as copying the bytes of the finished
structure, and `bytes` gives these in the order of `mpspec_def.h`. The
checksum of the entries is taken from memory as they are built, and the header
gets its length and its checksum last.

## Main definitions

* `MpfIntel`, `MpcTable`: The floating pointer and the header.
* `MpcCpu`, `MpcBus`, `MpcIoapic`, `MpcIntsrc`, `MpcLintsrc`: The entries.
* `mptableChecksum`: The sum of a range of bytes.
* `MpBuild`: The table under construction.
* `putEntry`: Adding an entry.
* `setupMptable`: The whole table.
-/

namespace Microv

/-- `struct mpf_intel`; the five feature bytes are never assigned. -/
structure MpfIntel where
  signature : List UInt8
  physptr : Nat
  length : UInt8
  specification : UInt8
  checksum : UInt8 := 0

def MpfIntel.bytes (m : MpfIntel) : List UInt8 :=
  m.signature ++ ByteMem.leBytes 4 m.physptr ++ [m.length, m.specification, m.checksum] ++
    List.replicate 5 0

/-- `struct mpc_table`; the OEM table and the reserved word are never
    assigned. -/
structure MpcTable where
  signature : List UInt8
  length : Nat := 0
  spec : UInt8
  checksum : UInt8 := 0
  oem : List UInt8
  productid : List UInt8
  lapic : Nat

def MpcTable.bytes (t : MpcTable) : List UInt8 :=
  t.signature ++ ByteMem.leBytes 2 t.length ++ [t.spec, t.checksum] ++ t.oem ++ t.productid ++
    List.replicate 8 0 ++ ByteMem.leBytes 4 t.lapic ++ List.replicate 4 0

/-- `struct mpc_cpu`. -/
structure MpcCpu where
  type : UInt8
  apicid : UInt8
  apicver : UInt8
  cpuflag : UInt8
  cpufeature : Nat
  featureflag : Nat
  reserved1 : Nat
  reserved2 : Nat

def MpcCpu.bytes (c : MpcCpu) : List UInt8 :=
  [c.type, c.apicid, c.apicver, c.cpuflag] ++ ByteMem.leBytes 4 c.cpufeature ++
    ByteMem.leBytes 4 c.featureflag ++ ByteMem.leBytes 4 c.reserved1 ++
    ByteMem.leBytes 4 c.reserved2

/-- `struct mpc_bus`. -/
structure MpcBus where
  type : UInt8
  busid : UInt8
  bustype : List UInt8

def MpcBus.bytes (b : MpcBus) : List UInt8 :=
  [b.type, b.busid] ++ b.bustype

/-- `struct mpc_ioapic`. -/
structure MpcIoapic where
  type : UInt8
  apicid : UInt8
  apicver : UInt8
  flags : UInt8
  apicaddr : Nat

def MpcIoapic.bytes (a : MpcIoapic) : List UInt8 :=
  [a.type, a.apicid, a.apicver, a.flags] ++ ByteMem.leBytes 4 a.apicaddr

/-- `struct mpc_intsrc`. -/
structure MpcIntsrc where
  type : UInt8
  irqtype : UInt8
  irqflag : Nat
  srcbus : UInt8
  srcbusirq : UInt8
  dstapic : UInt8
  dstirq : UInt8

def MpcIntsrc.bytes (i : MpcIntsrc) : List UInt8 :=
  [i.type, i.irqtype] ++ ByteMem.leBytes 2 i.irqflag ++
    [i.srcbus, i.srcbusirq, i.dstapic, i.dstirq]

/-- `struct mpc_lintsrc`. -/
structure MpcLintsrc where
  type : UInt8
  irqtype : UInt8
  irqflag : Nat
  srcbusid : UInt8
  srcbusirq : UInt8
  destapic : UInt8
  destapiclint : UInt8

def MpcLintsrc.bytes (l : MpcLintsrc) : List UInt8 :=
  [l.type, l.irqtype] ++ ByteMem.leBytes 2 l.irqflag ++
    [l.srcbusid, l.srcbusirq, l.destapic, l.destapiclint]

/-- `mptable_checksum`: the sum in an `unsigned char`. -/
def mptableChecksum (mem : ByteMem) (buf size : Nat) : UInt8 :=
  (mem.read buf size).foldl (fun sum b => sum + b) 0

section Entries

/-- The processor entries; the first is the boot processor. -/
def mpCpu (i : Nat) : MpcCpu :=
  { type := 0, apicid := UInt8.ofNat i, apicver := 0x14,
    cpuflag := if i = 0 then 1 ||| 2 else 1,
    cpufeature := 0x600, featureflag := 0x201, reserved1 := 0, reserved2 := 0 }

def mpBus : MpcBus :=
  { type := 1, busid := 0, bustype := ByteMem.ascii "ISAISA" }

def mpIoapic (numCpus : Nat) : MpcIoapic :=
  { type := 2, apicid := UInt8.ofNat (numCpus + 1), apicver := 0x14, flags := 1,
    apicaddr := ioApicDefaultPhysBase }

def mpIntsrc (numCpus i : Nat) : MpcIntsrc :=
  { type := 3, irqtype := 0, irqflag := 0, srcbus := 0, srcbusirq := UInt8.ofNat i,
    dstapic := UInt8.ofNat (numCpus + 1), dstirq := UInt8.ofNat i }

-- The line for external interrupts, and the one for non-maskable ones.
def mpExtInt (numCpus : Nat) : MpcLintsrc :=
  { type := 4, irqtype := 3, irqflag := 0, srcbusid := 0, srcbusirq := 0,
    destapic := UInt8.ofNat (numCpus + 1), destapiclint := 0 }

def mpNmi : MpcLintsrc :=
  { type := 4, irqtype := 1, irqflag := 0, srcbusid := 0, srcbusirq := 0,
    destapic := 0xFF, destapiclint := 1 }

end Entries

/-- The locals of `setup_mptable`: how far the table has come, and the sum of
    its entries. -/
structure MpBuild where
  mem : ByteMem
  offset : Nat
  checksum : UInt8

/-- Build one entry behind the last, and add it to the sum. -/
def putEntry (mapper : Int → MemRegion) (b : MpBuild) (entry : List UInt8) : MpBuild :=
  let p := getUserspaceAddr mapper (mptableStart + b.offset)
  let mem := b.mem.write p entry
  { mem := mem, offset := b.offset + entry.length,
    checksum := b.checksum + mptableChecksum mem p entry.length }

/-- The entries of the table, in order. -/
def mpEntries (numCpus : Nat) : List (List UInt8) :=
  (List.range numCpus).map (fun i => (mpCpu i).bytes) ++
    [mpBus.bytes, (mpIoapic numCpus).bytes] ++
    (List.range 16).map (fun i => (mpIntsrc numCpus i).bytes) ++
    [(mpExtInt numCpus).bytes, mpNmi.bytes]

/-- `setup_mptable`. -/
def setupMptable (mapper : Int → MemRegion) (numCpus : Nat) (mem : ByteMem) : ByteMem :=
  let mpf := getUserspaceAddr mapper mptableStart
  let mem := mem.write mpf (MpfIntel.bytes
    { signature := ByteMem.ascii "_MP_", length := 1, specification := 4,
      physptr := mptableStart + 16 })
  let mem := mem.write (mpf + 10) [mem (mpf + 10) - mptableChecksum mem mpf 16]
  let table := getUserspaceAddr mapper (mptableStart + 16)
  let mem := mem.write table (MpcTable.bytes
    { signature := ByteMem.ascii "PCMP", spec := 4, oem := ByteMem.ascii "STRATSTR",
      productid := ByteMem.ascii "1.1.1.1.1.1.", lapic := apicDefaultPhysBase })
  let b := (mpEntries numCpus).foldl (putEntry mapper) ⟨mem, 60, 0⟩
  -- The header's length and checksum are known only now.
  let mem := b.mem.writeLE (table + 4) 2 (b.offset - 16)
  let checksum := b.checksum + mptableChecksum mem table 44
  mem.write (table + 7) [mem (table + 7) - checksum]

end Microv
