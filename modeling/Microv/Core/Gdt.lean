import Microv.Core.Memory

/-!
# Boot Descriptor Tables

`gdt.c`: the segment descriptors and the interrupt descriptor a guest starts
with.

A descriptor is four 16-bit words, the last two of them cut into bit-fields.
`GDT_ENTRY_INIT` spreads a base, a limit and a word of flags over the fields,
and `bytes` packs them again in the order of the structure, the first field of
a word lowest. `entry_to_kvm_seg` cuts the same flags into the fields of a
segment register for KVM.

## Main definitions

* `DescStruct`: A segment descriptor.
* `gdtEntryInit`: A descriptor from flags, base and limit.
* `startupGdt`: The descriptors of the boot table.
* `setupGdt`, `setupIdt`: Writing the two tables.
* `KvmSegment`: A segment register, as KVM is given it.
* `entryToKvmSeg`: A segment register from flags, base and limit.
-/

namespace Microv

/-- `struct desc_struct`. -/
structure DescStruct where
  limit0 : Nat
  base0 : Nat
  base1 : Nat
  type : Nat
  s : Nat
  dpl : Nat
  p : Nat
  limit1 : Nat
  avl : Nat
  l : Nat
  d : Nat
  g : Nat
  base2 : Nat
  deriving DecidableEq, Repr

/-- `GDT_ENTRY_INIT`. -/
def gdtEntryInit (flags base limit : Nat) : DescStruct :=
  { limit0 := limit % 2 ^ 16,
    limit1 := limit / 2 ^ 16 % 2 ^ 4,
    base0 := base % 2 ^ 16,
    base1 := base / 2 ^ 16 % 2 ^ 8,
    base2 := base / 2 ^ 24 % 2 ^ 8,
    type := flags % 2 ^ 4,
    s := flags / 2 ^ 4 % 2,
    dpl := flags / 2 ^ 5 % 2 ^ 2,
    p := flags / 2 ^ 7 % 2,
    avl := flags / 2 ^ 12 % 2,
    l := flags / 2 ^ 13 % 2,
    d := flags / 2 ^ 14 % 2,
    g := flags / 2 ^ 15 % 2 }

/-- The packed bytes of a descriptor. -/
def DescStruct.bytes (e : DescStruct) : List UInt8 :=
  ByteMem.leBytes 2 e.limit0 ++ ByteMem.leBytes 2 e.base0 ++
    ByteMem.leBytes 2 (e.base1 + e.type * 2 ^ 8 + e.s * 2 ^ 12 + e.dpl * 2 ^ 13 + e.p * 2 ^ 15) ++
    ByteMem.leBytes 2 (e.limit1 + e.avl * 2 ^ 4 + e.l * 2 ^ 5 + e.d * 2 ^ 6 + e.g * 2 ^ 7 +
      e.base2 * 2 ^ 8)

/-- `STARTUP_GDT`: two empty descriptors, then code and data. -/
def startupGdt : List DescStruct :=
  [gdtEntryInit 0 0 0, gdtEntryInit 0 0 0, gdtEntryInit 0xa09b 0 0xfffff,
    gdtEntryInit 0xc093 0 0xfffff]

/-- One turn of the loop of `setup_gdt`: a descriptor and its index. -/
def putDesc (mapper : Int → MemRegion) (mem : ByteMem) (e : DescStruct × Nat) : ByteMem :=
  mem.write (getUserspaceAddr mapper (bootGdtStart + e.2 * 8)) e.1.bytes

/-- `setup_gdt`. -/
def setupGdt (mapper : Int → MemRegion) (mem : ByteMem) : ByteMem :=
  startupGdt.zipIdx.foldl (putDesc mapper) mem

/-- `setup_idt`. -/
def setupIdt (mapper : Int → MemRegion) (mem : ByteMem) : ByteMem :=
  mem.writeLE (getUserspaceAddr mapper bootIdtStart) 8 0

-- The sizes of the two tables, less one.
def getGdtLimit : UInt16 := 31

def getIdtLimit : UInt16 := 7

section Segments

/-- `struct kvm_segment`. -/
structure KvmSegment where
  base : UInt64
  limit : UInt32
  selector : UInt16
  type : UInt8
  present : UInt8
  dpl : UInt8
  db : UInt8
  s : UInt8
  l : UInt8
  g : UInt8
  avl : UInt8
  unusable : UInt8
  padding : UInt8
  deriving DecidableEq, Repr

/-- `entry_to_kvm_seg`. The result is a local without an initial value, and
    `seg` is what the stack holds in its place. -/
def entryToKvmSeg (seg : KvmSegment) (flags base limit : UInt64) : KvmSegment :=
  { seg with
    base := base,
    limit := limit.toUInt32,
    type := (flags &&& 0xf).toUInt8,
    present := ((flags >>> (15 - 8)) &&& 0x1).toUInt8,
    dpl := ((flags >>> (13 - 8)) &&& 0x3).toUInt8,
    db := ((flags >>> (22 - 8)) &&& 0x1).toUInt8,
    s := ((flags >>> (12 - 8)) &&& 0x1).toUInt8,
    l := ((flags >>> (21 - 8)) &&& 0x1).toUInt8,
    g := ((flags >>> (23 - 8)) &&& 0x1).toUInt8,
    avl := ((flags >>> (20 - 8)) &&& 0x1).toUInt8 }

/-- `get_code_kvm_seg`. -/
def getCodeKvmSeg (seg : KvmSegment) : KvmSegment :=
  entryToKvmSeg seg 0xa09b 0 0xfffff

/-- `get_data_kvm_seg`. -/
def getDataKvmSeg (seg : KvmSegment) : KvmSegment :=
  entryToKvmSeg seg 0xc093 0 0xfffff

end Segments

end Microv
