import Microv.Core.Vcpu

/-!
# What a Processor Starts With

Three results about `vcpu.c`, each for every state KVM may hand out.

The local APIC is set up one byte at a time. The delivery mode of a local
interrupt register lies in its second byte, and the code works on the first:
the mode is put above the eight bits of a `char` and is gone when the result
is stored (`setLvt_eq`). The state is what it was.

The topology is told in three ways. The processor count and the caches' core
count are right for every count that fits, and the shift that turns an APIC
number into a package number is 32 less the count, where it should grow with
the count. It still is large enough up to 27 processors.

A segment register has two fields nobody assigns, the selector and the
unusable bit, so two executions agree on the special registers only if the
stack agrees on those.

## Main definitions

* `deliveryMode`: The delivery mode of a local interrupt register.
* `LapicSet`: The two local interrupt registers have their modes.
* `TopologyConsistent`: The CPUID leaves agree on the topology.
* `KvmSegment.SameArch`, `KvmSregs.SameArch`: Equal up to padding.

## Theorems

* `setLvt_eq`: Setting a delivery mode changes nothing.
* `lapic_iff`: When the local APIC is set up.
* `cpuid_topology_iff`: When the topology is consistent.
* `sregs_determined_iff`: When two executions agree.
-/

namespace Microv

section Lapic

/-- Bits 8 to 10 of a local interrupt register. -/
def deliveryMode (r : Nat) : Nat :=
  r / 2 ^ 8 % 2 ^ 3

/-- The register at `i` has the mode, and its other bits are as before. -/
structure LvtSet (regs regs' : ByteMem) (i mode : Nat) : Prop where
  mode : deliveryMode (regs'.le i 4) = mode
  others : ∀ k, k < 32 → ¬ (8 ≤ k ∧ k ≤ 10) →
    (regs'.le i 4).testBit k = (regs.le i 4).testBit k

/-- Both registers have their modes, and the rest of the 1024 bytes is as
    before. -/
structure LapicSet (regs regs' : ByteMem) : Prop where
  lvt0 : LvtSet regs regs' apicLvt0 7
  lvt1 : LvtSet regs regs' apicLvt1 4
  others : ∀ x, x < 1024 → ¬ (apicLvt0 ≤ x ∧ x < apicLvt0 + 4) →
    ¬ (apicLvt1 ≤ x ∧ x < apicLvt1 + 4) → regs' x = regs x

/-- The bits of the mode are above the byte, and the mask has every bit of
    it. -/
theorem setApicDeliveryMode_byte (b : BitVec 8) (mode : BitVec 32) :
    (setApicDeliveryMode (b.signExtend 32) mode).setWidth 8 = b := by
  have hmask : ∀ k, k < 8 → (0x700 : BitVec 32).getLsbD k = false := by decide
  unfold setApicDeliveryMode
  apply BitVec.eq_of_getLsbD_eq
  intro k hk
  have hwide : k < 32 := by omega
  simp only [BitVec.getLsbD_setWidth, BitVec.getLsbD_or, BitVec.getLsbD_and, BitVec.getLsbD_not,
    BitVec.getLsbD_signExtend, BitVec.getLsbD_shiftLeft, hk, hwide, hmask k hk, if_true,
    decide_true, Bool.not_false, Bool.not_true, Bool.and_true, Bool.and_false, Bool.false_and,
    Bool.true_and, Bool.or_false]

theorem setLvt_eq (regs : ByteMem) (i : Nat) (mode : BitVec 32) : setLvt regs i mode = regs := by
  unfold setLvt
  simp only [setApicDeliveryMode_byte]
  exact ByteMem.write_read_self regs i 1

/-- Whatever KVM hands out is left as it is. -/
theorem setupLapic_eq (regs got : ByteMem) : setupLapic regs (some got) = got := by
  unfold setupLapic
  rw [setLvt_eq, setLvt_eq]
  rfl

/-- The local APIC is set up exactly if it was when KVM handed it out. -/
theorem lapic_iff (regs got : ByteMem) :
    LapicSet got (setupLapic regs (some got)) ↔
      deliveryMode (got.le apicLvt0 4) = 7 ∧ deliveryMode (got.le apicLvt1 4) = 4 := by
  rw [setupLapic_eq]
  constructor
  · intro h
    exact ⟨h.lvt0.mode, h.lvt1.mode⟩
  · intro h
    exact ⟨⟨h.1, fun _ _ _ => rfl⟩, ⟨h.2, fun _ _ _ => rfl⟩, fun _ _ _ _ => rfl⟩

/-- Both registers at their reset value, which masks the line. -/
def resetLapic : ByteMem :=
  let zero : ByteMem := fun _ => 0
  (zero.writeLE apicLvt0 4 0x10000).writeLE apicLvt1 4 0x10000

/-- After the setup of a processor out of reset the second register still has
    mode zero. -/
theorem lapic_reset_unset :
    deliveryMode ((setupLapic (fun _ => 0) (some resetLapic)).le apicLvt1 4) = 0 ∧
    ¬ LapicSet resetLapic (setupLapic (fun _ => 0) (some resetLapic)) := by
  have hmode : deliveryMode ((setupLapic (fun _ => 0) (some resetLapic)).le apicLvt1 4) = 0 := by
    rw [setupLapic_eq, resetLapic, ByteMem.le_writeLE_self _ _ _ _ (by decide)]
    decide
  refine ⟨hmode, ?_⟩
  intro h
  exact absurd (hmode.symm.trans h.lvt1.mode) (by decide)

end Lapic

section Cpuid

/-- The leaf 11 entry for the cores of a package. -/
def KvmCpuidEntry2.IsCoreLevel (e : KvmCpuidEntry2) : Prop :=
  e.function = 0xb ∧ e.index = 1

/-- A leaf 4 entry with a cache type. -/
def KvmCpuidEntry2.IsCache (e : KvmCpuidEntry2) : Prop :=
  e.function = 4 ∧ e.eax &&& 0x1f ≠ 0

/-- The table describes one package of `n` processors. -/
structure TopologyConsistent (n : Nat) (cpuid : List KvmCpuidEntry2) : Prop where
  shift : ∀ e ∈ cpuid, e.IsCoreLevel → e.eax.toNat < 32
  package : ∀ e ∈ cpuid, e.IsCoreLevel → ∀ id id', id < n → id' < n →
    id >>> e.eax.toNat = id' >>> e.eax.toNat
  count : ∀ e ∈ cpuid, e.IsCoreLevel → e.ebx.toNat = n
  cores : ∀ e ∈ cpuid, e.IsCache → e.eax.toNat / 2 ^ 26 = n - 1

variable (host : UInt32 → UInt32 → CpuidRegs) (vcpuCount vcpuId : Nat)

theorem cpuidLeafB_key (e : KvmCpuidEntry2) :
    (cpuidLeafB vcpuCount vcpuId e).function = e.function ∧
    (cpuidLeafB vcpuCount vcpuId e).index = e.index := by
  unfold cpuidLeafB
  by_cases h0 : e.index = 0
  · simp [h0]
  · by_cases h1 : e.index = 1 <;> simp [h0, h1]

/-- Rewriting an entry keeps its leaf and its sub-leaf. -/
theorem cpuidEntry_key (e : KvmCpuidEntry2) :
    (cpuidEntry host vcpuCount vcpuId e).function = e.function ∧
    (cpuidEntry host vcpuCount vcpuId e).index = e.index := by
  have hb := cpuidLeafB_key vcpuCount vcpuId e
  unfold cpuidEntry cpuidLeaf10 cpuidLeaf4 hostCpuid
  repeat' split
  all_goals first | exact hb | exact ⟨rfl, rfl⟩

theorem cpuidEntry_isCoreLevel (e : KvmCpuidEntry2) :
    (cpuidEntry host vcpuCount vcpuId e).IsCoreLevel ↔ e.IsCoreLevel := by
  unfold KvmCpuidEntry2.IsCoreLevel
  rw [(cpuidEntry_key host vcpuCount vcpuId e).1, (cpuidEntry_key host vcpuCount vcpuId e).2]

theorem cpuidEntry_coreLevel {e : KvmCpuidEntry2} (h : e.IsCoreLevel) :
    (cpuidEntry host vcpuCount vcpuId e).eax = 32 - UInt32.ofNat vcpuCount ∧
    (cpuidEntry host vcpuCount vcpuId e).ebx = UInt32.ofNat vcpuCount &&& 0xffff := by
  unfold cpuidEntry cpuidLeafB
  simp [h.1, h.2]

theorem toNat_ofNat_count {n : Nat} (h : n ≤ 64) : (UInt32.ofNat n).toNat = n := by
  rw [UInt32.toNat_ofNat']
  omega

theorem toNat_shift {n : Nat} (h : n ≤ 64) :
    (32 - UInt32.ofNat n).toNat = (2 ^ 32 - n + 32) % 2 ^ 32 := by
  rw [UInt32.toNat_sub, toNat_ofNat_count h]
  rfl

/-- The shift is a shift, and maps all processors to one package, up to 27 of
    them: from 28 on it is at most four, or wraps around. -/
theorem shift_package_iff {n : Nat} (hpos : 1 ≤ n) (hle : n ≤ 64) :
    ((32 - UInt32.ofNat n).toNat < 32 ∧ ∀ id id', id < n → id' < n →
      id >>> (32 - UInt32.ofNat n).toNat = id' >>> (32 - UInt32.ofNat n).toNat) ↔ n ≤ 27 := by
  rw [toNat_shift hle]
  constructor
  · rintro ⟨hlt, hpkg⟩
    by_contra hmany
    have hn : 28 ≤ n ∧ n ≤ 32 := by omega
    have hs : (2 ^ 32 - n + 32) % 2 ^ 32 = 32 - n := by omega
    -- Processor 16 is there, and its bit survives the shift.
    have h16 := hpkg 0 16 (by omega) (by omega)
    rw [hs, Nat.zero_shiftRight, Nat.shiftRight_eq_div_pow] at h16
    have hpow : 2 ^ (32 - n) ≤ 2 ^ 4 := Nat.pow_le_pow_right (by decide) (by omega)
    have hdiv := Nat.div_pos (show 2 ^ (32 - n) ≤ 16 from hpow) (Nat.two_pow_pos _)
    omega
  · intro hfew
    have hs : (2 ^ 32 - n + 32) % 2 ^ 32 = 32 - n := by omega
    have hpow : 2 ^ 5 ≤ 2 ^ (32 - n) := Nat.pow_le_pow_right (by decide) (by omega)
    have hzero : ∀ id, id < n → id >>> (32 - n) = 0 := by
      intro id hid
      rw [Nat.shiftRight_eq_div_pow]
      exact Nat.div_eq_of_lt (by omega)
    rw [hs]
    refine ⟨by omega, ?_⟩
    intro id id' hid hid'
    rw [hzero id hid, hzero id' hid']

/-- Six bits put above the others. -/
theorem toNat_or_cores (x : UInt32) (k : Nat) (hx : x.toNat < 2 ^ 26) (hk : k < 64) :
    (x ||| (UInt32.ofNat k <<< 26)).toNat / 2 ^ 26 = k := by
  have hshift : (UInt32.ofNat k <<< 26).toNat = k <<< 26 := by
    rw [UInt32.toNat_shiftLeft, UInt32.toNat_ofNat', Nat.mod_eq_of_lt (show k < 2 ^ 32 by omega)]
    refine Nat.mod_eq_of_lt ?_
    rw [Nat.shiftLeft_eq]
    exact Nat.lt_of_lt_of_le ((Nat.mul_lt_mul_right (Nat.two_pow_pos 26)).mpr hk) (by decide)
  rw [UInt32.toNat_or, hshift, ← Nat.shiftRight_eq_div_pow, Nat.shiftRight_or_distrib,
    Nat.shiftLeft_shiftRight, Nat.shiftRight_eq_div_pow, Nat.div_eq_of_lt hx, Nat.zero_or]

/-- The core count of a cache is the processor count, less one. -/
theorem cpuidEntry_cache (hpos : 1 ≤ vcpuCount) (hle : vcpuCount ≤ 64) {e : KvmCpuidEntry2}
    (h : (cpuidEntry host vcpuCount vcpuId e).IsCache) :
    (cpuidEntry host vcpuCount vcpuId e).eax.toNat / 2 ^ 26 = vcpuCount - 1 := by
  have hleaf : cpuidEntry host vcpuCount vcpuId e = cpuidLeaf4 host vcpuCount e := by
    have hf := (cpuidEntry_key host vcpuCount vcpuId e).1.symm.trans h.1
    unfold cpuidEntry
    simp [hf]
  have htype := h.2
  rw [hleaf] at htype ⊢
  unfold cpuidLeaf4 hostCpuid at htype ⊢
  simp only at htype ⊢
  have hx : ((host 4 e.index).eax &&& ~~~0xfc000000).toNat < 2 ^ 26 := by
    rw [UInt32.toNat_and]
    exact Nat.lt_of_le_of_lt Nat.and_le_right (by decide)
  generalize (host 4 e.index).eax &&& ~~~0xfc000000 = x at htype hx ⊢
  by_cases hc : x &&& 0x0001ffff ≠ 0 ∧ 1 < vcpuCount
  · rw [if_pos hc]
    exact toNat_or_cores x _ hx (by omega)
  · rw [if_neg hc] at htype ⊢
    rw [Nat.div_eq_of_lt hx]
    -- A cache type is among the bits tested, so there is one processor.
    have hbits : x &&& 0x0001ffff ≠ 0 := by
      intro h0
      have hsub : x &&& 0x1f = (x &&& 0x0001ffff) &&& 0x1f := by
        rw [UInt32.and_assoc]
        rfl
      rw [hsub, h0] at htype
      exact htype (by decide)
    have hone : ¬ 1 < vcpuCount := fun hn => hc ⟨hbits, hn⟩
    omega

/-- For every table KVM returns and every count that fits, the table set
    describes one package of all processors exactly if there are at most 27,
    or the table has no entry for the cores of a package. -/
theorem cpuid_topology_iff (hpos : 1 ≤ vcpuCount) (hle : vcpuCount ≤ 64)
    (cpuid : List KvmCpuidEntry2) :
    TopologyConsistent vcpuCount (setupCpuid host vcpuCount vcpuId cpuid) ↔
      ((∃ e ∈ cpuid, e.IsCoreLevel) → vcpuCount ≤ 27) := by
  have hcount : (UInt32.ofNat vcpuCount &&& 0xffff).toNat = vcpuCount := by
    rw [UInt32.toNat_and, toNat_ofNat_count hle]
    exact (Nat.and_two_pow_sub_one_eq_mod vcpuCount 16).trans (Nat.mod_eq_of_lt (by omega))
  constructor
  · rintro h ⟨e, he, hcore⟩
    have hmem : cpuidEntry host vcpuCount vcpuId e ∈ setupCpuid host vcpuCount vcpuId cpuid :=
      List.mem_map_of_mem he
    have hcore' := (cpuidEntry_isCoreLevel host vcpuCount vcpuId e).mpr hcore
    have hshift := h.shift _ hmem hcore'
    have hpackage := h.package _ hmem hcore'
    rw [(cpuidEntry_coreLevel host vcpuCount vcpuId hcore).1] at hshift hpackage
    exact (shift_package_iff hpos hle).mp ⟨hshift, hpackage⟩
  · intro h
    -- An entry for the cores comes from one, with the shift and the count written into it.
    have hfrom : ∀ e ∈ setupCpuid host vcpuCount vcpuId cpuid, e.IsCoreLevel →
        vcpuCount ≤ 27 ∧ e.eax = 32 - UInt32.ofNat vcpuCount ∧
          e.ebx = UInt32.ofNat vcpuCount &&& 0xffff := by
      intro e he hcore
      rcases List.mem_map.mp he with ⟨e', he', rfl⟩
      have hcore' := (cpuidEntry_isCoreLevel host vcpuCount vcpuId e').mp hcore
      exact ⟨h ⟨e', he', hcore'⟩, cpuidEntry_coreLevel host vcpuCount vcpuId hcore'⟩
    refine ⟨?_, ?_, ?_, ?_⟩
    · intro e he hcore
      rcases hfrom e he hcore with ⟨hfew, heax, _⟩
      rw [heax]
      exact ((shift_package_iff hpos hle).mpr hfew).1
    · intro e he hcore
      rcases hfrom e he hcore with ⟨hfew, heax, _⟩
      rw [heax]
      exact ((shift_package_iff hpos hle).mpr hfew).2
    · intro e he hcore
      rw [(hfrom e he hcore).2.2, hcount]
    · intro e he hcache
      rcases List.mem_map.mp he with ⟨e', _, rfl⟩
      exact cpuidEntry_cache host vcpuCount vcpuId hpos hle hcache

/-- A table with one cache and the cores of a package. -/
def sampleCpuid : List KvmCpuidEntry2 :=
  [⟨4, 0, 1, 0, 0, 0, 0⟩, ⟨0xb, 1, 1, 0, 0, 0, 0⟩]

/-- A host with a first-level data cache of its own. -/
def sampleCpuidHost (function _count : UInt32) : CpuidRegs :=
  if function = 4 then ⟨0x1c004121, 0x01c0003f, 0x3f, 0⟩ else ⟨0, 0, 0, 0⟩

/-- Four processors: all in one package. -/
theorem cpuid_topology_iff_four :
    TopologyConsistent 4 (setupCpuid sampleCpuidHost 4 2 sampleCpuid) :=
  (cpuid_topology_iff sampleCpuidHost 4 2 (by decide) (by decide) sampleCpuid).mpr
    (fun _ => by decide)

/-- Twenty-eight processors: the shift is four, and processor 16 is in another
    package than processor 0. -/
theorem cpuid_topology_28 :
    (setupCpuid sampleCpuidHost 28 0 sampleCpuid).map (·.eax) = [0x6c004121, 4] ∧
    ¬ TopologyConsistent 28 (setupCpuid sampleCpuidHost 28 0 sampleCpuid) := by
  refine ⟨by decide, ?_⟩
  intro h
  have hpackage := h.package (cpuidEntry sampleCpuidHost 28 0 ⟨0xb, 1, 1, 0, 0, 0, 0⟩)
    (List.mem_map_of_mem (by decide)) ⟨by decide, by decide⟩ 0 16 (by decide) (by decide)
  exact absurd hpackage (by decide)

end Cpuid

section Sregs

/-- Equal but for the padding. -/
def KvmSegment.SameArch (a b : KvmSegment) : Prop :=
  { a with padding := 0 } = { b with padding := 0 }

/-- Equal but for the padding of the segments. -/
structure KvmSregs.SameArch (a b : KvmSregs) : Prop where
  cs : a.cs.SameArch b.cs
  ds : a.ds.SameArch b.ds
  es : a.es.SameArch b.es
  fs : a.fs.SameArch b.fs
  gs : a.gs.SameArch b.gs
  ss : a.ss.SameArch b.ss
  tr : a.tr.SameArch b.tr
  ldt : a.ldt.SameArch b.ldt
  gdt : a.gdt = b.gdt
  idt : a.idt = b.idt
  cr0 : a.cr0 = b.cr0
  cr2 : a.cr2 = b.cr2
  cr3 : a.cr3 = b.cr3
  cr4 : a.cr4 = b.cr4
  cr8 : a.cr8 = b.cr8
  efer : a.efer = b.efer
  apicBase : a.apicBase = b.apicBase
  interruptBitmap : a.interruptBitmap = b.interruptBitmap

/-- The stack agrees on the two fields nobody assigns. -/
def KvmSegment.SameUnset (a b : KvmSegment) : Prop :=
  a.selector = b.selector ∧ a.unusable = b.unusable

/-- Every field but the two is a function of the arguments. -/
theorem entryToKvmSeg_sameArch_iff (seg seg' : KvmSegment) (flags base limit : UInt64) :
    (entryToKvmSeg seg flags base limit).SameArch (entryToKvmSeg seg' flags base limit) ↔
      seg.SameUnset seg' := by
  simp [KvmSegment.SameArch, KvmSegment.SameUnset, entryToKvmSeg]

/-- Two executions agree on a segment, and on the special registers made from
    any state KVM returns, exactly if the stack agrees on the selector and the
    unusable bit of each segment made. -/
theorem sregs_determined_iff (seg seg' code code' data data' : KvmSegment)
    (flags base limit : UInt64) (sregs : KvmSregs) :
    ((entryToKvmSeg seg flags base limit).SameArch (entryToKvmSeg seg' flags base limit) ↔
      seg.SameUnset seg') ∧
    ((setupSregs code data sregs).SameArch (setupSregs code' data' sregs) ↔
      code.SameUnset code' ∧ data.SameUnset data') := by
  refine ⟨entryToKvmSeg_sameArch_iff seg seg' flags base limit, ?_⟩
  have hcode := entryToKvmSeg_sameArch_iff code code' 0xa09b 0 0xfffff
  have hdata := entryToKvmSeg_sameArch_iff data data' 0xc093 0 0xfffff
  constructor
  · intro h
    exact ⟨hcode.mp h.cs, hdata.mp h.ds⟩
  · rintro ⟨hc, hd⟩
    have hc' := hcode.mpr hc
    have hd' := hdata.mpr hd
    exact ⟨hc', hd', hd', hd', hd', hd', rfl, rfl, rfl, rfl, rfl, rfl, rfl, rfl, rfl, rfl, rfl, rfl⟩

/-- A segment of zeros. -/
def zeroSegment : KvmSegment :=
  ⟨0, 0, 0, 0, 0, 0, 0, 0, 0, 0, 0, 0, 0⟩

def zeroSregs : KvmSregs :=
  { cs := zeroSegment, ds := zeroSegment, es := zeroSegment, fs := zeroSegment,
    gs := zeroSegment, ss := zeroSegment, tr := zeroSegment, ldt := zeroSegment,
    gdt := ⟨0, 0⟩, idt := ⟨0, 0⟩, cr0 := 0, cr2 := 0, cr3 := 0, cr4 := 0, cr8 := 0, efer := 0,
    apicBase := 0, interruptBitmap := [0, 0, 0, 0] }

/-- Two executions from the same state of zeros: where the stack held a one in
    place of the unusable bit, the code segment cannot be used. -/
theorem sregs_undetermined :
    (setupSregs zeroSegment zeroSegment zeroSregs).cs.unusable = 0 ∧
    (setupSregs { zeroSegment with unusable := 1 } zeroSegment zeroSregs).cs.unusable = 1 ∧
    ¬ (entryToKvmSeg zeroSegment 0xa09b 0 0xfffff).SameArch
      (entryToKvmSeg { zeroSegment with unusable := 1 } 0xa09b 0 0xfffff) ∧
    ¬ (setupSregs zeroSegment zeroSegment zeroSregs).SameArch
      (setupSregs { zeroSegment with unusable := 1 } zeroSegment zeroSregs) := by
  have hseg : ¬ (entryToKvmSeg zeroSegment 0xa09b 0 0xfffff).SameArch
      (entryToKvmSeg { zeroSegment with unusable := 1 } 0xa09b 0 0xfffff) := by
    unfold KvmSegment.SameArch
    decide
  exact ⟨rfl, rfl, hseg, fun h => hseg h.cs⟩

end Sregs

end Microv
