import Microv.Lib.Bytes

/-!
# Guest Memory Map

The RAM slots of `memory.c` and the translation of a guest-physical address
into a pointer of the monitor.

`MemMapper` is an array of two entries, but the code indexes it with the
result of `find_mapper_index`, which is `-1` for an address in no slot. The
model therefore makes the array a function on all of `Int`: entries `0` and
`1` are the slots, and every other index reads whatever the linker placed
around the array. Nothing is assumed about those entries.

Machine words are naturals, reduced modulo `2 ^ 64` where the code adds or
subtracts. `mmap` and the memory-region ioctl are parameters, since their
results come from the host kernel.

## Main definitions

* `MemRegion`: One entry of `MemMapper`.
* `memLayout`: The fixed layout of the guest-physical address space.
* `rams`: The slots a RAM size is split into.
* `initMemoryMap`: Registering the slots.
* `getRamEnd`: The end of RAM in the guest-physical address space.
* `findMapperIndex`: The slot an address lies in, or `-1`.
* `getUserspaceAddr`: The host pointer for a guest-physical address.
* `writeUserspaceMemory`: Copying bytes to a guest-physical address.
-/

namespace Microv

/-- One `struct kvm_userspace_memory_region`, less the slot number and flags
    that only the kernel reads. -/
structure MemRegion where
  guestPhysAddr : Nat
  memorySize : Nat
  userspaceAddr : Nat
  deriving DecidableEq, Repr

/-- `enum MemLayoutType`. -/
inductive MemLayoutType where
  | memBelow4g
  | mmio
  | ioApic
  | localApic
  | memAbove4g
  deriving DecidableEq, Repr

/-- The table `MemLayout`: start and length of each area. -/
def memLayout : MemLayoutType → Nat × Nat
  | .memBelow4g => (0, 0xC0000000)
  | .mmio => (0xF0100000, 0x200)
  | .ioApic => (0xfec00000, 0x100000)
  | .localApic => (0xfee00000, 0x100000)
  | .memAbove4g => (0x100000000, 0x8000000000)

/-- The statics of `memory.c`. -/
structure MemState where
  ramSize : Nat
  memMapper : Int → MemRegion

/-- The host calls `init_memory_map` depends on: the address `mmap` returns
    for a slot (`none` for `MAP_FAILED`), and whether the kernel accepts the
    region. -/
structure HostMap where
  mmap : Nat → Nat → Option Nat
  setRegion : Nat → Bool

section Layout

-- The places of `global.h`, from the highest down.
def apicDefaultPhysBase : Nat := 0xfee00000

def ioApicDefaultPhysBase : Nat := 0xfec00000

def initrdAddrMax : Nat := 0x37ffffff

def vmlinuxStart : Nat := 0x01000000

def vmlinuxRamStart : Nat := 0x00100000

def mbBiosStart : Nat := 0x000f0000

def vgaRamStart : Nat := 0x000a0000

def mptableStart : Nat := 0x0009fc00

def cmdlineStart : Nat := 0x00020000

def pdeStart : Nat := 0x0000b000

def pdpteStart : Nat := 0x0000a000

def pml4Start : Nat := 0x00009000

def zeroPageStart : Nat := 0x00007000

def bootIdtStart : Nat := 0x00000520

def bootGdtStart : Nat := 0x00000500

def realModeIvtStart : Nat := 0x00000000

end Layout

/-- `get_gap_start`. -/
def getGapStart : Nat :=
  (memLayout .memBelow4g).1 + (memLayout .memBelow4g).2

/-- `get_gap_end`. -/
def getGapEnd : Nat :=
  (memLayout .memAbove4g).1

/-- The local table `rams` of `init_memory_map`: start and size of each
    slot. -/
def rams (ramSize : Nat) (i : Nat) : Nat × Nat :=
  if ramSize ≤ getGapStart then
    if i = 0 then (0, ramSize) else (0, 0)
  else
    if i = 0 then (0, getGapStart) else (getGapEnd, ramSize - getGapStart)

/-- One turn of the registration loop; `false` is the error return. -/
def mapSlot (os : HostMap) (ram : Nat × Nat) (i : Nat) (st : MemState) : Bool × MemState :=
  if ram.2 = 0 then (true, st)
  else
    match os.mmap i ram.2 with
    | none => (false, st)
    | some addr =>
        (os.setRegion i,
          { st with memMapper := fun j => if j = i then ⟨ram.1, ram.2, addr⟩ else st.memMapper j })

/-- `init_memory_map`; the flag is `false` where the code returns `-1`. -/
def initMemoryMap (os : HostMap) (ramSize : Nat) (st : MemState) : Bool × MemState :=
  match mapSlot os (rams ramSize 0) 0 { st with ramSize := ramSize } with
  | (false, st') => (false, st')
  | (true, st') => mapSlot os (rams ramSize 1) 1 st'

/-- The statics before `main` runs: the array is zero, its surroundings are
    whatever they are. -/
def memStatics (around : Int → MemRegion) : MemState :=
  { ramSize := 0,
    memMapper := fun i => if i = 0 ∨ i = 1 then ⟨0, 0, 0⟩ else around i }

/-- The difference of two 64-bit words. -/
def sub64 (a b : Nat) : Nat :=
  (a + 2 ^ 64 - b) % 2 ^ 64

/-- `get_ram_end`. -/
def getRamEnd (st : MemState) : Nat :=
  if st.ramSize ≤ (memLayout .memBelow4g).2 then
    ((memLayout .memBelow4g).1 + st.ramSize) % 2 ^ 64
  else
    ((memLayout .memAbove4g).1 + sub64 st.ramSize (memLayout .memBelow4g).2) % 2 ^ 64

/-- The range test of `find_mapper_index` against one entry. -/
def MemRegion.hit (r : MemRegion) (guestAddr : Nat) : Bool :=
  decide (r.guestPhysAddr ≤ guestAddr) &&
    decide (guestAddr < (r.guestPhysAddr + r.memorySize) % 2 ^ 64)

/-- `find_mapper_index`. -/
def findMapperIndex (mapper : Int → MemRegion) (guestAddr : Nat) : Int :=
  if (mapper 0).hit guestAddr then 0
  else if (mapper 1).hit guestAddr then 1
  else -1

/-- `get_userspace_addr`. The index is not tested before it is used. -/
def getUserspaceAddr (mapper : Int → MemRegion) (guestAddr : Nat) : Nat :=
  let r := mapper (findMapperIndex mapper guestAddr)
  let offset := (guestAddr + 2 ^ 64 - r.guestPhysAddr) % 2 ^ 64
  (r.userspaceAddr + offset) % 2 ^ 64

/-- `write_userspace_memory`. -/
def writeUserspaceMemory (mapper : Int → MemRegion) (mem : ByteMem) (src : List UInt8)
    (guestAddr : Nat) : ByteMem :=
  let r := mapper (findMapperIndex mapper guestAddr)
  let offset := (guestAddr + 2 ^ 64 - r.guestPhysAddr) % 2 ^ 64
  mem.write ((r.userspaceAddr + offset) % 2 ^ 64) src

end Microv
