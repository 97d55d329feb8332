import Mathlib.Data.List.Nodup
import Microv.Theory.Mptable

/-!
# References Inside the MP Table

The entries of the table name each other: an interrupt entry the bus it comes
from and the I/O APIC it goes to, a local interrupt entry the processor whose
local APIC it is wired to. `MpRefsResolve` says that every such name belongs to
an entry of the table, and that no two APICs share one.

Identifiers have eight bits. Processors count from zero and the I/O APIC gets
the number after next, so they stay apart up to 254 processors, and
`apicIds_nodup_iff` says that this is the end of it. Within that range the
interrupt entries resolve, and so does the entry for non-maskable interrupts,
which goes to every processor. The entry for external interrupts does not: it
carries the number of the I/O APIC, which no local APIC has. The one exception
is the last count of the range, where that number is the one for all
processors.

## Main definitions

* `apicIds`: The identifiers of the APICs of a table.
* `MpRefsResolve`: Every reference of a table names one of its entries.

## Theorems

* `apicIds_nodup_iff`: Up to 254 processors no two APICs share a number.
* `mpExtInt_resolves_iff`: When the entry for external interrupts resolves.
* `mpTable_refs_iff`: When the whole table does.
* `mptable_references_iff`: The same of the table the guest finds.
-/

namespace Microv

/-- `MP_APIC_ALL`. -/
def mpApicAll : UInt8 := 0xFF

/-- The number of a processor's local APIC or of an I/O APIC. -/
def MpEntry.apicId : MpEntry → Option UInt8
  | .cpu c => some c.apicid
  | .ioapic a => some a.apicid
  | _ => none

/-- The identifiers of the APICs of a table. -/
def apicIds (es : List MpEntry) : List UInt8 :=
  es.filterMap MpEntry.apicId

/-- A local interrupt goes to a processor of the table, or to all of them. -/
def LintResolves (es : List MpEntry) (l : MpcLintsrc) : Prop :=
  (∃ c, MpEntry.cpu c ∈ es ∧ c.apicid = l.destapic) ∨ l.destapic = mpApicAll

/-- Every reference of a table names one of its entries. -/
structure MpRefsResolve (es : List MpEntry) : Prop where
  apics : (apicIds es).Nodup
  srcbus : ∀ i, MpEntry.intsrc i ∈ es → ∃ b, MpEntry.bus b ∈ es ∧ b.busid = i.srcbus
  dstapic : ∀ i, MpEntry.intsrc i ∈ es → ∃ a, MpEntry.ioapic a ∈ es ∧ a.apicid = i.dstapic
  destapic : ∀ l, MpEntry.lintsrc l ∈ es → LintResolves es l

section Table

variable (numCpus : Nat)

-- The entries of each kind.
theorem cpu_mem_mpTable (c : MpcCpu) :
    MpEntry.cpu c ∈ mpTable numCpus ↔ ∃ i, i < numCpus ∧ c = mpCpu i := by
  simp [mpTable, eq_comm]

theorem intsrc_mem_mpTable (s : MpcIntsrc) :
    MpEntry.intsrc s ∈ mpTable numCpus ↔ ∃ i, i < 16 ∧ s = mpIntsrc numCpus i := by
  simp [mpTable, eq_comm]

theorem lintsrc_mem_mpTable (l : MpcLintsrc) :
    MpEntry.lintsrc l ∈ mpTable numCpus ↔ l = mpExtInt numCpus ∨ l = mpNmi := by
  simp [mpTable]

theorem bus_mem_mpTable : MpEntry.bus mpBus ∈ mpTable numCpus := by
  simp [mpTable]

theorem ioapic_mem_mpTable : MpEntry.ioapic (mpIoapic numCpus) ∈ mpTable numCpus := by
  simp [mpTable]

theorem apicIds_mpTable :
    apicIds (mpTable numCpus) = (List.range numCpus ++ [numCpus + 1]).map UInt8.ofNat := by
  have hcpus : ((List.range numCpus).map fun i => MpEntry.cpu (mpCpu i)).filterMap MpEntry.apicId
      = (List.range numCpus).map UInt8.ofNat := by
    rw [List.filterMap_map]
    exact congrFun (List.filterMap_eq_map (f := UInt8.ofNat)) _
  have hints : ((List.range 16).map fun i => MpEntry.intsrc (mpIntsrc numCpus i)).filterMap
      MpEntry.apicId = [] := by
    rw [List.filterMap_map]
    exact List.filterMap_eq_nil_iff.mpr fun _ _ => rfl
  rw [apicIds, mpTable, List.filterMap_append, List.filterMap_append, List.filterMap_append, hcpus,
    hints, List.map_append, List.append_nil, List.append_assoc]
  rfl

/-- Up to 254 processors no two APICs share a number, and from 255 on the I/O
    APIC has that of a processor. -/
theorem apicIds_nodup_iff : (apicIds (mpTable numCpus)).Nodup ↔ numCpus ≤ 254 := by
  have hrange : (List.range numCpus ++ [numCpus + 1]).Nodup := by
    rw [List.nodup_append]
    refine ⟨List.nodup_range, List.nodup_singleton _, ?_⟩
    intro a ha b hb
    rw [List.mem_range] at ha
    rw [List.mem_singleton] at hb
    omega
  rw [apicIds_mpTable, List.nodup_map_iff_inj_on hrange]
  simp only [List.mem_append, List.mem_range, List.mem_singleton]
  constructor
  · intro hinj
    by_contra hmany
    -- 256 less than the I/O APIC's number is a processor's.
    have hclash := hinj (numCpus + 1 - 256) (Or.inl (by omega)) (numCpus + 1) (Or.inr rfl)
      (UInt8.toNat.inj (by rw [UInt8.toNat_ofNat', UInt8.toNat_ofNat']; omega))
    omega
  · intro hfew a ha b hb hab
    have hmod := congrArg UInt8.toNat hab
    rw [UInt8.toNat_ofNat', UInt8.toNat_ofNat'] at hmod
    omega

/-- The entry for external interrupts carries the I/O APIC's number. That is a
    processor's only where numbers clash, and the one for all processors only
    where it is 255. -/
theorem mpExtInt_resolves_iff (hfew : numCpus ≤ 254) :
    LintResolves (mpTable numCpus) (mpExtInt numCpus) ↔ numCpus = 254 := by
  have hdest : (mpExtInt numCpus).destapic.toNat = numCpus + 1 := by
    rw [mpExtInt, UInt8.toNat_ofNat']
    omega
  constructor
  · rintro (⟨c, hc, hid⟩ | hall)
    · rcases (cpu_mem_mpTable numCpus c).mp hc with ⟨i, hi, rfl⟩
      have heq := congrArg UInt8.toNat hid
      rw [hdest, mpCpu, UInt8.toNat_ofNat'] at heq
      omega
    · have heq := congrArg UInt8.toNat hall
      exact Nat.succ.inj (hdest.symm.trans heq)
  · rintro rfl
    exact Or.inr rfl

/-- Interrupts come from the bus of the table and go to its I/O APIC. -/
theorem mpTable_intsrc (i : MpcIntsrc) (hi : MpEntry.intsrc i ∈ mpTable numCpus) :
    (∃ b, MpEntry.bus b ∈ mpTable numCpus ∧ b.busid = i.srcbus) ∧
    ∃ a, MpEntry.ioapic a ∈ mpTable numCpus ∧ a.apicid = i.dstapic := by
  rcases (intsrc_mem_mpTable numCpus i).mp hi with ⟨_, _, rfl⟩
  exact ⟨⟨mpBus, bus_mem_mpTable numCpus, rfl⟩,
    ⟨mpIoapic numCpus, ioapic_mem_mpTable numCpus, rfl⟩⟩

/-- The references resolve for 254 processors, and for no other count. -/
theorem mpTable_refs_iff : MpRefsResolve (mpTable numCpus) ↔ numCpus = 254 := by
  constructor
  · intro h
    have hfew := (apicIds_nodup_iff numCpus).mp h.apics
    exact (mpExtInt_resolves_iff numCpus hfew).mp
      (h.destapic _ ((lintsrc_mem_mpTable numCpus _).mpr (Or.inl rfl)))
  · intro hn
    have hfew : numCpus ≤ 254 := by omega
    refine ⟨(apicIds_nodup_iff numCpus).mpr hfew, fun i hi => (mpTable_intsrc numCpus i hi).1,
      fun i hi => (mpTable_intsrc numCpus i hi).2, ?_⟩
    intro l hl
    rcases (lintsrc_mem_mpTable numCpus l).mp hl with rfl | rfl
    · exact (mpExtInt_resolves_iff numCpus hfew).mpr hn
    · exact Or.inr rfl

end Table

/-- For every number of processors whose table has a length and fits in RAM,
    the table the guest finds has distinct APICs exactly up to 254 processors;
    there its interrupt entries resolve, and no local entry is left dangling
    but the one for external interrupts. That one resolves, and with it the
    whole table, for 254 processors alone. -/
theorem mptable_references_iff (os : HostMap) (hos : os.Lawful) (ramSize : Nat)
    (around : Int → MemRegion) (hok : (initMemoryMap os ramSize (memStatics around)).1 = true)
    (mapper : Int → MemRegion) (hmapper : mapper = (bootMemory os ramSize around).memMapper)
    (numCpus : Nat) (hlen : 44 + 20 * numCpus + 160 < 2 ^ 16)
    (hram : InRam mapper mptableStart (16 + (44 + 20 * numCpus + 160))) (mem m : ByteMem)
    (hm : m = setupMptable mapper numCpus mem) :
    ∃ es, mpWalk m (mpcPtr mapper m + 44) (mpcPtr mapper m + mpcLength mapper m) = some es ∧
      ((apicIds es).Nodup ↔ numCpus ≤ 254) ∧
      (∀ i, MpEntry.intsrc i ∈ es →
        (∃ b, MpEntry.bus b ∈ es ∧ b.busid = i.srcbus) ∧
        ∃ a, MpEntry.ioapic a ∈ es ∧ a.apicid = i.dstapic) ∧
      (∀ l, MpEntry.lintsrc l ∈ es → LintResolves es l ∨ l = mpExtInt numCpus) ∧
      (MpRefsResolve es ↔ numCpus = 254) := by
  have hbuilt := mpBuilt_boot os hos ramSize around hok mapper hmapper numCpus hlen hram mem
  rw [← hm] at hbuilt
  refine ⟨mpTable numCpus, hbuilt.walk, apicIds_nodup_iff numCpus, mpTable_intsrc numCpus, ?_,
    mpTable_refs_iff numCpus⟩
  intro l hl
  rcases (lintsrc_mem_mpTable numCpus l).mp hl with rfl | rfl
  · exact Or.inr rfl
  · exact Or.inl (Or.inr rfl)

/-- The largest count: the table resolves. -/
theorem mptable_references_iff_254 :
    ∃ es, mpWalk (setupMptable sampleMapper 254 fun _ => 0)
        (mpcPtr sampleMapper (setupMptable sampleMapper 254 fun _ => 0) + 44)
        (mpcPtr sampleMapper (setupMptable sampleMapper 254 fun _ => 0) +
          mpcLength sampleMapper (setupMptable sampleMapper 254 fun _ => 0)) = some es ∧
      MpRefsResolve es := by
  rcases mptable_references_iff sampleHost sampleHost_lawful 0x20000000 _ (by decide) sampleMapper
    rfl 254 (by decide) (by decide) (fun _ => 0) _ rfl with ⟨es, hwalk, -, -, -, hrefs⟩
  exact ⟨es, hwalk, hrefs.mpr rfl⟩

/-- One processor: the entry for external interrupts goes to the APIC with
    number 2, which is the I/O APIC. -/
theorem mptable_reference_dangles :
    ∃ es, mpWalk (setupMptable sampleMapper 1 fun _ => 0)
        (mpcPtr sampleMapper (setupMptable sampleMapper 1 fun _ => 0) + 44)
        (mpcPtr sampleMapper (setupMptable sampleMapper 1 fun _ => 0) +
          mpcLength sampleMapper (setupMptable sampleMapper 1 fun _ => 0)) = some es ∧
      (apicIds es).Nodup ∧
      MpEntry.lintsrc (mpExtInt 1) ∈ es ∧ (mpExtInt 1).destapic = 2 ∧
      ¬ LintResolves es (mpExtInt 1) ∧ ¬ MpRefsResolve es := by
  have hbuilt := mpBuilt_boot sampleHost sampleHost_lawful 0x20000000 _ (by decide) sampleMapper
    rfl 1 (by decide) (by decide) (fun _ => 0)
  refine ⟨mpTable 1, hbuilt.walk, (apicIds_nodup_iff 1).mpr (by decide),
    (lintsrc_mem_mpTable 1 _).mpr (Or.inl rfl), rfl, ?_, ?_⟩
  · rw [mpExtInt_resolves_iff 1 (by decide)]
    decide
  · rw [mpTable_refs_iff]
    decide

end Microv
