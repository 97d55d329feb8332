import Microv.Core.Gdt

/-!
# Setting Up a Processor

`vcpu.c`: what a processor starts with. Its CPUID table and the state of its
local APIC come from KVM and are changed in places, and its special registers
are made for a guest that starts in 64-bit mode.

The CPUID table is rewritten entry by entry. Some leaves are replaced by what
the host's own instruction answers, which is a parameter. The numbers of
processors are `int`s in the source and become 32-bit words where they are
stored. The registers of the local APIC are bytes of type `char`, which the
delivery mode passes through `int` on its way in and out.

## Main definitions

* `KvmCpuidEntry2`: An entry of the CPUID table.
* `cpuidEntry`, `setupCpuid`: Rewriting an entry, and the table.
* `setApicDeliveryMode`, `setupLapic`: The two local interrupt lines.
* `KvmSregs`, `setupSregs`: The special registers.
* `KvmRegs`, `setupRegs`: The general ones.
* `VcpuStatics`, `setupVcpu`: Everything a processor starts with.
-/

namespace Microv

section Cpuid

-- Bits of the feature words, by number.
def x86FeatureHypervisor : UInt32 := 31

def x86FeatureTscDeadlineTimer : UInt32 := 24

def ecxEpbShift : UInt32 := 3

/-- `struct kvm_cpuid_entry2`. -/
structure KvmCpuidEntry2 where
  function : UInt32
  index : UInt32
  flags : UInt32
  eax : UInt32
  ebx : UInt32
  ecx : UInt32
  edx : UInt32
  deriving DecidableEq, Repr

/-- The four registers of the `cpuid` instruction. -/
structure CpuidRegs where
  eax : UInt32
  ebx : UInt32
  ecx : UInt32
  edx : UInt32

variable (host : UInt32 → UInt32 → CpuidRegs)

/-- `host_cpuid`, its results stored in an entry. -/
def hostCpuid (function count : UInt32) (entry : KvmCpuidEntry2) : KvmCpuidEntry2 :=
  { entry with
    eax := (host function count).eax, ebx := (host function count).ebx,
    ecx := (host function count).ecx, edx := (host function count).edx }

/-- Leaf 4: the caches, and how many cores share them. -/
def cpuidLeaf4 (vcpuCount : Nat) (entry : KvmCpuidEntry2) : KvmCpuidEntry2 :=
  let entry := hostCpuid host 4 entry.index entry
  let eax := entry.eax &&& ~~~0xfc000000
  { entry with
    eax :=
      if eax &&& 0x0001ffff ≠ 0 ∧ 1 < vcpuCount then eax ||| (UInt32.ofNat (vcpuCount - 1) <<< 26)
      else eax }

/-- Leaf 10: performance counters, of one version only. -/
def cpuidLeaf10 (entry : KvmCpuidEntry2) : KvmCpuidEntry2 :=
  if entry.eax ≠ 0 ∧ (entry.eax &&& 0xff ≠ 2 ∨ entry.eax &&& 0xff00 = 0) then
    { entry with eax := 0 }
  else entry

/-- Leaf 11: the topology, and the processor's own number. -/
def cpuidLeafB (vcpuCount vcpuId : Nat) (entry : KvmCpuidEntry2) : KvmCpuidEntry2 :=
  let entry := { entry with edx := UInt32.ofNat vcpuId, ecx := entry.index &&& 0xff }
  let entry :=
    if entry.index = 0 then
      { entry with eax := 0, ebx := 1, ecx := entry.ecx ||| ((1 : UInt32) <<< 8) }
    else if entry.index = 1 then
      { entry with
        eax := 32 - UInt32.ofNat vcpuCount, ebx := UInt32.ofNat vcpuCount,
        ecx := entry.ecx ||| ((2 : UInt32) <<< 8) }
    else { entry with ebx := 0xff }
  { entry with ebx := entry.ebx &&& 0xffff }

/-- One turn of the loop of `setup_cpuid`. -/
def cpuidEntry (vcpuCount vcpuId : Nat) (entry : KvmCpuidEntry2) : KvmCpuidEntry2 :=
  if entry.function = 1 then
    if entry.index = 0 then
      { entry with
        ecx := entry.ecx ||| ((1 : UInt32) <<< x86FeatureHypervisor) |||
          ((1 : UInt32) <<< x86FeatureTscDeadlineTimer) }
    else entry
  else if entry.function = 2 then hostCpuid host 2 0 entry
  else if entry.function = 4 then cpuidLeaf4 host vcpuCount entry
  else if entry.function = 6 then
    { entry with ecx := entry.ecx &&& ~~~((1 : UInt32) <<< ecxEpbShift) }
  else if entry.function = 10 then cpuidLeaf10 entry
  else if entry.function = 0xb then cpuidLeafB vcpuCount vcpuId entry
  else if entry.function = 0x80000002 ∨ entry.function = 0x80000003 ∨ entry.function = 0x80000004
    then hostCpuid host entry.function entry.index entry
  else entry

/-- `setup_cpuid`: from the table `KVM_GET_SUPPORTED_CPUID` returns to the one
    `KVM_SET_CPUID2` is given. -/
def setupCpuid (vcpuCount vcpuId : Nat) (cpuid : List KvmCpuidEntry2) : List KvmCpuidEntry2 :=
  cpuid.map (cpuidEntry host vcpuCount vcpuId)

end Cpuid

section Lapic

-- `APIC_LVT0` and `APIC_LVT1`, and the two delivery modes.
def apicLvt0 : Nat := 0x350

def apicLvt1 : Nat := 0x360

def apicModeNmi : BitVec 32 := 0x4

def apicModeExtint : BitVec 32 := 0x7

/-- `SET_APIC_DELIVERY_MODE`, on two `int`s. -/
def setApicDeliveryMode (x y : BitVec 32) : BitVec 32 :=
  (x &&& ~~~(0x700 : BitVec 32)) ||| (y <<< 8)

/-- `r = SET_APIC_DELIVERY_MODE(kapic.regs[i], mode); kapic.regs[i] = r`: the
    byte is signed, and so is `r`. -/
def setLvt (regs : ByteMem) (i : Nat) (mode : BitVec 32) : ByteMem :=
  let r := (setApicDeliveryMode ((regs i).toBitVec.signExtend 32) mode).setWidth 8
  regs.write i [⟨r⟩]

/-- `setup_lapic`, on the bytes of `kapic`. `KVM_GET_LAPIC` fills them, or
    fails and leaves them. -/
def setupLapic (regs : ByteMem) (getLapic : Option ByteMem) : ByteMem :=
  let regs := getLapic.getD regs
  let regs := setLvt regs apicLvt0 apicModeExtint
  setLvt regs apicLvt1 apicModeNmi

end Lapic

section Sregs

-- The bits that switch the processor to 64-bit mode.
def x86Cr0Pe : UInt64 := 0x1

def x86Cr0Pg : UInt64 := 0x80000000

def msrEferLme : UInt64 := 0x100

def msrEferLma : UInt64 := 0x400

def x86Cr4Pae : UInt64 := 0x20

/-- `struct kvm_dtable`; the padding is left out. -/
structure KvmDtable where
  base : UInt64
  limit : UInt16
  deriving DecidableEq, Repr

/-- `struct kvm_sregs`. -/
structure KvmSregs where
  cs : KvmSegment
  ds : KvmSegment
  es : KvmSegment
  fs : KvmSegment
  gs : KvmSegment
  ss : KvmSegment
  tr : KvmSegment
  ldt : KvmSegment
  gdt : KvmDtable
  idt : KvmDtable
  cr0 : UInt64
  cr2 : UInt64
  cr3 : UInt64
  cr4 : UInt64
  cr8 : UInt64
  efer : UInt64
  apicBase : UInt64
  interruptBitmap : List UInt64
  deriving DecidableEq, Repr

/-- `setup_sregs`, on what `KVM_GET_SREGS` left in `sregs`. The stack holds
    `code` and `data` where the two segments are made. -/
def setupSregs (code data : KvmSegment) (sregs : KvmSregs) : KvmSregs :=
  let codeSegment := getCodeKvmSeg code
  let dataSegment := getDataKvmSeg data
  { sregs with
    cs := codeSegment, ds := dataSegment, es := dataSegment, fs := dataSegment,
    gs := dataSegment, ss := dataSegment,
    gdt := ⟨UInt64.ofNat bootGdtStart, getGdtLimit⟩,
    idt := ⟨UInt64.ofNat bootIdtStart, getIdtLimit⟩,
    cr0 := sregs.cr0 ||| x86Cr0Pe ||| x86Cr0Pg,
    efer := sregs.efer ||| (msrEferLme ||| msrEferLma),
    cr3 := UInt64.ofNat pml4Start,
    cr4 := sregs.cr4 ||| x86Cr4Pae }

end Sregs

section Regs

def bootLoaderSp : Nat := 0x00008ff0

/-- `struct kvm_regs`. -/
structure KvmRegs where
  rax : UInt64 := 0
  rbx : UInt64 := 0
  rcx : UInt64 := 0
  rdx : UInt64 := 0
  rsi : UInt64 := 0
  rdi : UInt64 := 0
  rsp : UInt64 := 0
  rbp : UInt64 := 0
  r8 : UInt64 := 0
  r9 : UInt64 := 0
  r10 : UInt64 := 0
  r11 : UInt64 := 0
  r12 : UInt64 := 0
  r13 : UInt64 := 0
  r14 : UInt64 := 0
  r15 : UInt64 := 0
  rip : UInt64 := 0
  rflags : UInt64 := 0
  deriving DecidableEq, Repr

/-- `setup_regs`. What it does not assign was cleared before. -/
def setupRegs : KvmRegs :=
  { rflags := 0x0002, rip := UInt64.ofNat vmlinuxStart, rsp := UInt64.ofNat bootLoaderSp,
    rbp := UInt64.ofNat bootLoaderSp, rsi := UInt64.ofNat zeroPageStart }

-- The two states of `KVM_SET_MP_STATE` the code uses.
def kvmMpStateRunnable : UInt32 := 0

def kvmMpStateUninitialized : UInt32 := 1

/-- `setup_mpstate`. -/
def setupMpstate (vcpuId : Nat) : UInt32 :=
  if vcpuId = 0 then kvmMpStateRunnable else kvmMpStateUninitialized

def mxcsrDefault : UInt32 := 0x1f80

/-- `struct kvm_fpu`. -/
structure KvmFpu where
  fpr : List UInt8 := List.replicate 128 0
  fcw : UInt16 := 0
  fsw : UInt16 := 0
  ftwx : UInt8 := 0
  lastOpcode : UInt16 := 0
  lastIp : UInt64 := 0
  lastDp : UInt64 := 0
  xmm : List UInt8 := List.replicate 256 0
  mxcsr : UInt32 := 0

/-- `setup_fpu`. -/
def setupFpu : KvmFpu :=
  { fcw := 0x37f, mxcsr := mxcsrDefault }

/-- `struct kvm_msr_entry`. -/
structure KvmMsrEntry where
  index : UInt32
  data : UInt64
  deriving DecidableEq, Repr

/-- The entries `setup_msr` makes, as many as it counts. -/
def setupMsr : List KvmMsrEntry :=
  -- Fast system calls, in the 32-bit and the 64-bit form.
  [⟨0x0174, 0⟩, ⟨0x0175, 0⟩, ⟨0x0176, 0⟩, ⟨0xc0000081, 0⟩, ⟨0xc0000082, 0⟩, ⟨0xc0000083, 0⟩,
    ⟨0xc0000084, 0⟩, ⟨0xc0000102, 0⟩,
    -- The time stamp counter, and the fast string operations.
    ⟨0x0010, 0⟩, ⟨0x01a0, 1⟩]

end Regs

/-- The statics of `vcpu.c`. -/
structure VcpuStatics where
  kapic : ByteMem
  mpState : UInt32
  sregs : KvmSregs
  regs : KvmRegs
  fpu : KvmFpu
  msrs : List KvmMsrEntry

/-- `setup_vcpu`. The answers to `KVM_GET_LAPIC` and `KVM_GET_SREGS` are `none`
    where the call fails, and `code` and `data` are what the stack holds. -/
def setupVcpu (code data : KvmSegment) (getLapic : Option ByteMem) (getSregs : Option KvmSregs)
    (vcpuId : Nat) (s : VcpuStatics) : VcpuStatics :=
  { kapic := setupLapic s.kapic getLapic, mpState := setupMpstate vcpuId,
    sregs := setupSregs code data (getSregs.getD s.sregs), regs := setupRegs, fpu := setupFpu,
    msrs := setupMsr }

end Microv
