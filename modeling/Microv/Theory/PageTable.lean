import Microv.Lib.PageWalk
import Microv.Theory.BootImages

/-!
# The Boot Page Tables

The page tables a guest starts with, read from the memory the whole boot setup
leaves behind.

The tables are written first, and everything else is written after them into
the same low megabyte: the MP table, the command line, the zero page, the two
images, the descriptor tables. `initLinuxBoot_tables` is that none of it
reaches them. Below the end of the first slot a guest address is a fixed
distance from its pointer, so each write is at a known place above or below
the tables, and only the images need an argument about sizes.

With the tables known word for word, `pagetable_identity` follows them: two
entries lead to the page directory, and its 512 entries map the first
gigabyte to itself. Every other word of the two upper tables is the zero that
RAM started with.

## Main definitions

* `guestMemory`: Guest-physical memory, as a processor reads it.
* `FitsAbove`: An image lies in RAM above 1 MiB.

## Theorems

* `setupPde_entry`: The entries of the page directory.
* `setupMptable_below`: The MP table stays above its start.
* `initLinuxBoot_tables`: The tables survive the rest of the setup.
* `pagetable_identity`: The tables map the first gigabyte, and nothing else.
-/

namespace Microv

/-- Guest-physical memory, as a processor reads it. -/
def guestMemory (s : BootState) : ByteMem :=
  fun g => s.mem (s.ptr g)

/-- Every byte of the image is RAM above 1 MiB. -/
def FitsAbove (mapper : Int → MemRegion) (a n : Nat) : Prop :=
  RangeInRam mapper a n ∧ ∀ x, a ≤ x → x < a + n → vmlinuxRamStart ≤ x

/-- A table that was empty, with its first entry assigned. -/
theorem le_first_entry (m : ByteMem) (table v i : Nat) (hv : v < 256 ^ 8)
    (hz : i ≠ 0 → m.le (table + 8 * i) 8 = 0) :
    (m.writeLE table 8 v).le (table + 8 * i) 8 = if i = 0 then v else 0 := by
  by_cases h0 : i = 0
  · rw [if_pos h0, h0, Nat.mul_zero, Nat.add_zero, ByteMem.le_writeLE_self _ _ _ _ hv]
  · rw [if_neg h0, ByteMem.le_writeLE_apart _ _ _ _ _ _ (by unfold Apart; omega)]
    exact hz h0

section Low

-- The first megabyte of RAM is mapped at `base`.
variable (mapper : Int → MemRegion) (base : Nat)
  (hptr : ∀ g, g < vmlinuxRamStart → getUserspaceAddr mapper g = base + g)

include hptr

/-- The loop writes its entries one behind the other. -/
theorem setupPde_outside (mem : ByteMem) (n x : Nat) (hn : n ≤ 512)
    (hx : x < base + pdeStart ∨ base + pdeStart + 8 * n ≤ x) :
    setupPde mapper mem n x = mem x := by
  have hpde : pdeStart = 0xb000 := rfl
  have hlow : vmlinuxRamStart = 0x100000 := rfl
  induction n with
  | zero => rfl
  | succ n ih =>
      rw [setupPde, hptr _ (by omega), ByteMem.writeLE, ByteMem.write_outside _ _ _ _
        (by rw [ByteMem.length_leBytes]; omega)]
      exact ih (by omega) (by omega)

/-- After the loop the `i`-th entry maps the `i`-th two megabytes. -/
theorem setupPde_entry (mem : ByteMem) (n i : Nat) (hn : n ≤ 512) (hi : i < n) :
    (setupPde mapper mem n).le (base + pdeStart + 8 * i) 8 = i * 2 ^ 21 + 0x83 := by
  have hpde : pdeStart = 0xb000 := rfl
  have hlow : vmlinuxRamStart = 0x100000 := rfl
  induction n with
  | zero => omega
  | succ n ih =>
      rw [setupPde, hptr _ (by omega)]
      by_cases hlast : i = n
      · subst hlast
        rw [show base + pdeStart + 8 * i = base + (pdeStart + i * 8) by omega,
          ByteMem.le_writeLE_self _ _ _ _ (by rw [Nat.shiftLeft_eq]; omega), Nat.shiftLeft_eq]
      · rw [ByteMem.le_writeLE_apart _ _ _ _ _ _ (by unfold Apart; omega)]
        exact ih (by omega) (by omega)

/-- The tables on memory that was zero: the first two have one entry each. -/
theorem setupPagetable_entries (mem : ByteMem)
    (hzero : ∀ g, g < vmlinuxRamStart → mem (base + g) = 0) (i : Nat) (hi : i < 512) :
    (setupPagetable mapper mem).le (base + pml4Start + 8 * i) 8
        = (if i = 0 then pdpteStart + 3 else 0) ∧
      (setupPagetable mapper mem).le (base + pdpteStart + 8 * i) 8
        = (if i = 0 then pdeStart + 3 else 0) ∧
      (setupPagetable mapper mem).le (base + pdeStart + 8 * i) 8 = i * 2 ^ 21 + 0x83 := by
  have hpde : pdeStart = 0xb000 := rfl
  have hpdpte : pdpteStart = 0xa000 := rfl
  have hpml4 : pml4Start = 0x9000 := rfl
  have hlow : vmlinuxRamStart = 0x100000 := rfl
  -- The loop leaves the two upper tables alone.
  have habove : ∀ (m : ByteMem) (a k : Nat), a + k ≤ base + pdeStart →
      (setupPde mapper m 512).le a k = m.le a k := by
    intro m a k hak
    refine ByteMem.le_congr _ _ a k ?_
    intro j hj
    exact setupPde_outside mapper base hptr m 512 (a + j) le_rfl (Or.inl (by omega))
  have hz : ∀ g, g + 8 ≤ vmlinuxRamStart → mem.le (base + g) 8 = 0 := by
    intro g hg
    refine ByteMem.le_zero mem (base + g) 8 ?_
    intro j hj
    rw [Nat.add_assoc]
    exact hzero (g + j) (by omega)
  unfold setupPagetable
  rw [hptr pml4Start (by decide), hptr pdpteStart (by decide)]
  refine ⟨?_, ?_, setupPde_entry mapper base hptr _ 512 i le_rfl hi⟩
  · rw [habove _ _ _ (by omega), ByteMem.le_writeLE_apart _ _ _ _ _ _ (by unfold Apart; omega)]
    refine le_first_entry mem _ _ i (by decide) (fun _ => ?_)
    rw [Nat.add_assoc]
    exact hz _ (by omega)
  · rw [habove _ _ _ (by omega)]
    refine le_first_entry _ _ _ i (by decide) (fun _ => ?_)
    rw [ByteMem.le_writeLE_apart _ _ _ _ _ _ (by unfold Apart; omega), Nat.add_assoc]
    exact hz _ (by omega)

/-- An entry goes behind the last, so nothing below the table changes. -/
theorem foldl_putEntry_below (entries : List (List UInt8)) (b : MpBuild) (offset x : Nat)
    (hb : b.offset = offset)
    (hfit : mptableStart + offset + entries.flatten.length ≤ vmlinuxRamStart)
    (hx : x < base + mptableStart) :
    (entries.foldl (putEntry mapper) b).mem x = b.mem x := by
  subst hb
  induction entries generalizing b with
  | nil => rfl
  | cons e es ih =>
      rw [List.flatten_cons, List.length_append] at hfit
      rw [List.foldl_cons, ih _ (by simp only [putEntry]; omega)]
      by_cases he : e = []
      · simp only [putEntry, he, ByteMem.write_nil]
      · have hpos := List.length_pos_iff.mpr he
        simp only [putEntry]
        rw [hptr _ (by omega), ByteMem.write_outside _ _ _ _ (by omega)]

/-- The MP table stays above its start. -/
theorem setupMptable_below (mem : ByteMem) (x : Nat) (hx : x < base + mptableStart) :
    setupMptable mapper vcpuCount mem x = mem x := by
  have hfit : mptableStart + 60 + (mpEntries vcpuCount).flatten.length ≤ vmlinuxRamStart := by
    decide +kernel
  -- Every other write starts in the header or in the pointer to it.
  have hbelow : ∀ (m : ByteMem) (a : Nat) (bs : List UInt8), base + mptableStart ≤ a →
      m.write a bs x = m x :=
    fun m a bs ha => ByteMem.write_outside m a bs x (Or.inl (lt_of_lt_of_le hx ha))
  unfold setupMptable
  simp only [hptr mptableStart (by decide), hptr (mptableStart + 16) (by decide)]
  rw [hbelow _ _ _ (by omega), ByteMem.writeLE, hbelow _ _ _ (by omega),
    foldl_putEntry_below mapper base hptr _ _ 60 x (by rfl) hfit hx]
  simp only
  rw [hbelow _ _ _ (by omega), hbelow _ _ _ (by omega), hbelow _ _ _ (by omega)]

/-- So does the command line. -/
theorem setupCmdline_below (s : BootState) (hs : s.memMapper = mapper) (x : Nat)
    (hx : x < base + cmdlineStart) : (setupCmdline s).mem x = s.mem x := by
  have h := hptr cmdlineStart (by decide)
  unfold getUserspaceAddr at h
  simp only [setupCmdline, writeUserspaceMemory, hs]
  rw [h, ByteMem.write_outside _ _ _ _ (Or.inl hx)]

/-- The descriptor tables lie below everything else. -/
theorem foldl_putDesc_above (es : List (DescStruct × Nat)) (mem : ByteMem) (x : Nat)
    (hfit : ∀ e ∈ es, e.2 < 4) (hx : base + bootIdtStart ≤ x) :
    es.foldl (putDesc mapper) mem x = mem x := by
  have hgdt : bootGdtStart = 0x500 := rfl
  have hidt : bootIdtStart = 0x520 := rfl
  have hlow : vmlinuxRamStart = 0x100000 := rfl
  induction es generalizing mem with
  | nil => rfl
  | cons e es ih =>
      have he := hfit e List.mem_cons_self
      have hlen : e.1.bytes.length = 8 := by
        simp only [DescStruct.bytes, List.length_append, ByteMem.length_leBytes]
      rw [List.foldl_cons, ih _ (fun f hf => hfit f (List.mem_cons_of_mem e hf)), putDesc,
        hptr _ (by omega), ByteMem.write_outside _ _ _ _ (by omega)]

theorem setupGdt_above (mem : ByteMem) (x : Nat) (hx : base + bootIdtStart ≤ x) :
    setupGdt mapper mem x = mem x :=
  foldl_putDesc_above mapper base hptr _ mem x (by decide) hx

theorem setupIdt_above (mem : ByteMem) (x : Nat) (hx : base + bootIdtStart + 8 ≤ x) :
    setupIdt mapper mem x = mem x := by
  rw [setupIdt, hptr _ (by decide), ByteMem.writeLE, ByteMem.write_outside _ _ _ _
    (by rw [ByteMem.length_leBytes]; omega)]

end Low

section ZeroPage

variable (bootParams x : Nat) (hx : bootParams + 0x1000 ≤ x)

include hx

theorem putE820All_above (es : List BootE820Entry) (i : Nat) (mem : ByteMem)
    (hfit : i + es.length ≤ 128) : putE820All bootParams i es mem x = mem x := by
  induction es generalizing i mem with
  | nil => rfl
  | cons e es ih =>
      rw [List.length_cons] at hfit
      rw [putE820All, ih _ _ (by omega), putE820, ByteMem.write_outside _ _ _ _
        (by rw [BootE820Entry.length_bytes]; omega)]

/-- The memory map and the header stay inside the zero page. -/
theorem setupE820_above (s : BootState) : (setupE820 bootParams s).mem x = s.mem x := by
  have hlen := length_e820Entries_le (getRamEnd s.toMemState)
  rw [setupE820_mem, putE820Entries, ByteMem.writeLE, ByteMem.write_outside _ _ _ _
    (by rw [ByteMem.length_leBytes]; omega), putE820All_above bootParams x hx _ _ _ (by omega),
    putE820Entries, ByteMem.writeLE, ByteMem.write_outside _ _ _ _
    (by rw [ByteMem.length_leBytes]; omega)]

theorem setupHeaderRamdisk_above (s : BootState) :
    (setupHeaderRamdisk bootParams s).mem x = s.mem x := by
  have hfield : ∀ (m : ByteMem) (o k v : Nat), o + k ≤ 0x1000 →
      m.writeLE (bootParams + o) k v x = m x := by
    intro m o k v hok
    exact ByteMem.write_outside _ _ _ _ (by rw [ByteMem.length_leBytes]; omega)
  simp (disch := decide) only [setupHeaderRamdisk, hfield]

end ZeroPage

/-- An image above 1 MiB is loaded above it: its pointer's range is apart from
    the first megabyte's, whichever slot it lies in. -/
theorem fread_low (R : RamMap) (hlow : InRam R.mapper 0 vmlinuxRamStart) (mem : ByteMem)
    (a size : Nat) (fp : File)
    (hfit : fp.len = 0 ∨ InRam R.mapper a fp.len ∧ vmlinuxRamStart ≤ a) (x : Nat)
    (hlo : R.host 0 ≤ x) (hhi : x < R.host 0 + vmlinuxRamStart) :
    fread mem (R.host a) size fp x = mem x := by
  have hlen := length_freadItem_le fp size
  rcases hfit with hz | ⟨hram, habove⟩
  · have hnil : freadItem fp size = [] := List.length_eq_zero_iff.mp (by omega)
    rw [fread, hnil, ByteMem.write_nil]
  · have hap := R.hostApart 0 vmlinuxRamStart a fp.len hlow hram (.of_le (by omega))
    unfold Apart at hap
    exact ByteMem.write_outside _ _ _ _ (by omega)

section Images

variable (R : RamMap) (hlow : InRam R.mapper 0 vmlinuxRamStart)
  (hptr : ∀ g, g < vmlinuxRamStart → getUserspaceAddr R.mapper g = R.host 0 + g)
  (kernel initrd : File)
  (hkernel : kernel.len = 0 ∨ InRam R.mapper vmlinuxStart kernel.len)

include hlow hptr hkernel

/-- Between the zero page and 1 MiB the parameters and the images change
    nothing. -/
theorem setupBootParams_low (s s' : BootState)
    (h : setupBootParams (some kernel) (some initrd) s = some s') (hs : s.memMapper = R.mapper)
    (hinitrd : initrd.len = 0 ∨ InRam R.mapper s'.initrdAddr initrd.len ∧
      vmlinuxRamStart ≤ s'.initrdAddr) (x : Nat)
    (hlo : R.host 0 + zeroPageStart + 0x1000 ≤ x) (hhi : x < R.host 0 + vmlinuxRamStart) :
    s'.mem x = s.mem x := by
  have hhost : ∀ g, s.ptr g = R.host g := by
    intro g
    rw [BootState.ptr, hs, RamMap.host]
  have hzero : s.ptr zeroPageStart = R.host 0 + zeroPageStart := by
    rw [BootState.ptr, hs]
    exact hptr zeroPageStart (by decide)
  have hplaced := (setupBootParams_placed s kernel initrd s' h).addr
  rcases setupBootParams_inv s kernel initrd s' h with ⟨t, -, haddr, -, hmem, rfl⟩
  rw [← haddr] at hplaced
  rw [hplaced] at hinitrd
  have hzlen : (List.replicate 0x1000 (0 : UInt8)).length = 0x1000 := List.length_replicate
  rw [setupHeaderRamdisk_above _ x (by omega), setupE820_above _ x (by omega), hmem,
    hhost t.initrdAddr, hhost vmlinuxStart,
    fread_low R hlow _ _ _ initrd hinitrd x (by omega) hhi,
    fread_low R hlow _ _ _ kernel (hkernel.imp_right fun hk => ⟨hk, by decide⟩) x (by omega) hhi,
    ByteMem.write_outside _ _ _ _ (by omega)]

/-- The page tables survive the rest of the setup. -/
theorem initLinuxBoot_tables (s s' : BootState)
    (h : initLinuxBoot (some kernel) (some initrd) s = some s') (hs : s.memMapper = R.mapper)
    (hinitrd : initrd.len = 0 ∨ InRam R.mapper s'.initrdAddr initrd.len ∧
      vmlinuxRamStart ≤ s'.initrdAddr) :
    s'.memMapper = R.mapper ∧ ∀ g, pml4Start ≤ g → g < pdeStart + 0x1000 →
      s'.mem (R.host 0 + g) = setupPagetable R.mapper s.mem (R.host 0 + g) := by
  unfold initLinuxBoot at h
  rcases Option.bind_eq_some_iff.mp h with ⟨u, hu, hfin⟩
  have hs' := Option.some.inj hfin
  subst hs'
  have hmapper : u.memMapper = R.mapper :=
    (congrArg MemState.memMapper (setupBootParams_placed _ kernel initrd u hu).memory).trans hs
  refine ⟨hmapper, ?_⟩
  intro g hlo hhi
  have hpml4 : pml4Start = 0x9000 := rfl
  have hpde : pdeStart = 0xb000 := rfl
  have hidt : bootIdtStart = 0x520 := rfl
  have hpage : zeroPageStart = 0x7000 := rfl
  have hcmd : cmdlineStart = 0x20000 := rfl
  have hmp : mptableStart = 0x9fc00 := rfl
  have hmib : vmlinuxRamStart = 0x100000 := rfl
  -- Back through the setup, from the descriptor tables to the MP table.
  have hdesc : setupIdt R.mapper (setupGdt R.mapper u.mem) (R.host 0 + g)
      = u.mem (R.host 0 + g) := by
    rw [setupIdt_above R.mapper _ hptr _ _ (by omega),
      setupGdt_above R.mapper _ hptr _ _ (by omega)]
  have hparams := setupBootParams_low R hlow hptr kernel initrd hkernel _ u hu hs hinitrd
    (R.host 0 + g) (by omega) (by omega)
  simp only [hmapper]
  rw [hdesc, hparams, setupCmdline_below R.mapper _ hptr _ (by exact hs) _ (by omega)]
  simp only [hs]
  rw [setupMptable_below R.mapper _ hptr _ _ (by omega)]

end Images

section Boot

variable (os : HostMap) (ramSize : Nat) (around : Int → MemRegion)
  (hok : (initMemoryMap os ramSize (memStatics around)).1 = true)

include hok

/-- The slots do not touch, so a range that is RAM throughout lies in one. -/
theorem inRam_of_rangeInRam (a n : Nat) (hpos : 0 < n)
    (h : RangeInRam (bootMemory os ramSize around).memMapper a n) :
    InRam (bootMemory os ramSize around).memMapper a n := by
  rcases initMemoryMap_entries os ramSize around hok with ⟨c, d, e0, e1, -, -⟩
  have hgap : getGapStart = 0xC0000000 := rfl
  have hend : getGapEnd = 0x100000000 := rfl
  have hfirst := h a le_rfl (by omega)
  -- Just past its slot, the range would have to go on in the other.
  have hpast := h (min ramSize getGapStart)
  have hpast' := h (getGapEnd + (ramSize - getGapStart))
  simp only [bootMemory, e0, e1, rams, MemRegion.Covers] at hfirst hpast hpast'
  simp only [InRam, MemRegion.InSlot, bootMemory, e0, e1, rams]
  by_cases hle : ramSize ≤ getGapStart
  · simp only [if_pos hle, if_true, one_ne_zero, if_false] at hfirst hpast hpast' ⊢
    omega
  · simp only [if_neg hle, if_true, one_ne_zero, if_false] at hfirst hpast hpast' ⊢
    omega

/-- With 1 MiB of RAM or more, the first megabyte is mapped in one piece. -/
theorem lowMemory (hos : os.Lawful) (hsize : vmlinuxRamStart ≤ ramSize) :
    ∃ R : RamMap, R.mapper = (bootMemory os ramSize around).memMapper ∧
      InRam R.mapper 0 vmlinuxRamStart ∧
      ∀ g, g < vmlinuxRamStart → getUserspaceAddr R.mapper g = R.host 0 + g := by
  rcases initMemoryMap_ramMap os hos ramSize around hok with ⟨R, hR⟩
  rcases bootMemory_slot_zero os ramSize around hok with ⟨a, h0⟩
  have hgap : getGapStart = 0xC0000000 := rfl
  have hmib : vmlinuxRamStart = 0x100000 := rfl
  rw [bootMemory, ← hR] at h0
  -- The first MiB lies in the first slot, whatever else there is.
  have hslot : ∀ g len, g < vmlinuxRamStart → g + len ≤ vmlinuxRamStart →
      (R.mapper 0).InSlot g len := by
    intro g len hg hlen
    rw [h0]
    unfold MemRegion.InSlot
    simp only
    omega
  refine ⟨R, hR, Or.inl (hslot 0 _ (by decide) (by omega)), ?_⟩
  intro g hg
  have hhost := R.getUserspaceAddr_inSlot 0 (Or.inl rfl) g 1 (hslot g 1 hg (by omega))
  have hbase := R.getUserspaceAddr_inSlot 0 (Or.inl rfl) 0 1 (hslot 0 1 (by decide) (by decide))
  rw [h0] at hhost hbase
  simp only at hhost hbase
  rw [RamMap.host] at hhost
  omega

end Boot

/-- An entry of the page directory: present, writable and large, with no
    reserved bit set. -/
theorem pde_bits (i : Nat) :
    entryPresent (i * 2 ^ 21 + 0x83) = true ∧ entryWritable (i * 2 ^ 21 + 0x83) = true ∧
      entryLarge (i * 2 ^ 21 + 0x83) = true ∧ entryReserved 1 (i * 2 ^ 21 + 0x83) = false := by
  simp only [entryPresent, entryWritable, entryLarge, entryReserved,
    Nat.testBit_eq_decide_div_mod_eq, decide_eq_true_eq, decide_eq_false_iff_not]
  omega

/-- The walk through tables that hold these words. -/
theorem pageWalk_of_entries (m : ByteMem)
    (hpml4 : ∀ i, i < 512 → pageEntry m pml4Start i = if i = 0 then pdpteStart + 3 else 0)
    (hpdpte : ∀ i, i < 512 → pageEntry m pdpteStart i = if i = 0 then pdeStart + 3 else 0)
    (hpde : ∀ i, i < 512 → pageEntry m pdeStart i = i * 2 ^ 21 + 0x83) :
    (∀ va, va < 2 ^ 30 → pageWalk m pml4Start va = .page (2 ^ 21) va true) ∧
      ∀ va, Canonical va → 2 ^ 30 ≤ va → pageWalk m pml4Start va = .absent := by
  have htables : (entryTable (pdpteStart + 3) = pdpteStart ∧ entryTable (pdeStart + 3) = pdeStart) ∧
      entryWritable (pdpteStart + 3) = true ∧ entryWritable (pdeStart + 3) = true := by
    decide
  -- The first entry of the top table leads to the second, and its first to the third.
  have hdown : ∀ va, pageIndex va 3 = 0 →
      pageWalk m pml4Start va = walkFrom m va 2 pdpteStart true := by
    intro va h3
    have he : pageEntry m pml4Start (pageIndex va 3) = pdpteStart + 3 := by
      rw [h3]
      exact hpml4 0 (by decide)
    rw [pageWalk, walkFrom_table m va 2 pml4Start true _ he (by decide) (by decide), htables.1.1,
      htables.2.1, Bool.and_self]
  have hdown' : ∀ va, pageIndex va 2 = 0 →
      walkFrom m va 2 pdpteStart true = walkFrom m va 1 pdeStart true := by
    intro va h2
    have he : pageEntry m pdpteStart (pageIndex va 2) = pdeStart + 3 := by
      rw [h2]
      exact hpdpte 0 (by decide)
    rw [walkFrom_table m va 1 pdpteStart true _ he (by decide) (by decide), htables.1.2,
      htables.2.2, Bool.and_self]
  constructor
  · intro va hva
    rcases pageIndex_eq_zero_of_lt va hva with ⟨h3, h2⟩
    rcases pde_bits (pageIndex va 1) with ⟨hp, hw, hl, hr⟩
    rw [hdown va h3, hdown' va h2, walkFrom_large m va 0 pdeStart true _
      (hpde _ (pageIndex_lt va 1)) hp hl (by decide) hr, entryPage, hw]
    have hphys : (pageIndex va 1 * 2 ^ 21 + 0x83) / 2 ^ 21 % 2 ^ 31 * 2 ^ 21 + va % 2 ^ 21
        = va := by
      unfold pageIndex
      omega
    exact congrArg (fun phys => Walk.page (2 ^ 21) phys true) hphys
  · intro va hc hva
    by_cases h3 : pageIndex va 3 = 0
    · have h2 : pageIndex va 2 ≠ 0 := by
        intro h2
        have hlt := lt_of_pageIndex_eq_zero va hc h3 h2
        omega
      rw [hdown va h3]
      refine walkFrom_absent m va 1 pdpteStart true ?_
      rw [hpdpte _ (pageIndex_lt va 2), if_neg h2]
      rfl
    · refine walkFrom_absent m va 2 pml4Start true ?_
      rw [hpml4 _ (pageIndex_lt va 3), if_neg h3]
      rfl

/-- In the memory the boot setup leaves on zeroed RAM, the page tables map the
    first gigabyte to itself and nothing else, for every kernel and ramdisk
    that lie in RAM above 1 MiB. -/
theorem pagetable_identity (os : HostMap) (hos : os.Lawful) (ramSize : Nat)
    (around : Int → MemRegion)
    (hok : (initMemoryMap os ramSize (memStatics around)).1 = true)
    (hsize : 0x2000000 ≤ ramSize) (mem : ByteMem)
    (hzero : ∀ g, RangeInRam (bootMemory os ramSize around).memMapper g 1 →
      mem (getUserspaceAddr (bootMemory os ramSize around).memMapper g) = 0)
    (kernel initrd : File) (s : BootState)
    (h : initLinuxBoot (some kernel) (some initrd) (bootState os ramSize around mem) = some s)
    (hkernel : FitsAbove (bootMemory os ramSize around).memMapper vmlinuxStart kernel.len)
    (hinitrd : FitsAbove (bootMemory os ramSize around).memMapper s.initrdAddr initrd.len) :
    (∀ va, va < 2 ^ 30 → pageWalk (guestMemory s) pml4Start va = .page (2 ^ 21) va true) ∧
      ∀ va, Canonical va → 2 ^ 30 ≤ va → pageWalk (guestMemory s) pml4Start va = .absent := by
  have hmib : vmlinuxRamStart = 0x100000 := rfl
  rcases lowMemory os ramSize around hok hos (by omega) with ⟨R, hR, hlow, hptr⟩
  -- An image without bytes lies nowhere, the others in one slot.
  have himage : ∀ a n, FitsAbove (bootMemory os ramSize around).memMapper a n →
      n = 0 ∨ InRam R.mapper a n ∧ vmlinuxRamStart ≤ a := by
    intro a n hfit
    by_cases hn : n = 0
    · exact Or.inl hn
    · rw [hR]
      exact Or.inr ⟨inRam_of_rangeInRam os ramSize around hok a n (by omega) hfit.1,
        hfit.2 a le_rfl (by omega)⟩
  rcases initLinuxBoot_tables R hlow hptr kernel initrd
    ((himage _ _ hkernel).imp_right And.left) _ s h hR.symm (himage _ _ hinitrd) with
    ⟨hmapper, htab⟩
  have hz : ∀ g, g < vmlinuxRamStart → mem (R.host 0 + g) = 0 := by
    intro g hg
    have hram : RangeInRam (bootMemory os ramSize around).memMapper g 1 :=
      rangeInRam_low os ramSize around hok g 1 (by
        have hgap : getGapStart = 0xC0000000 := rfl
        omega)
    rw [← hptr g hg, hR]
    exact hzero g hram
  -- A word of the tables is the word that was written, seen through the first slot.
  have hword : ∀ g, pml4Start ≤ g → g + 8 ≤ pdeStart + 0x1000 →
      (guestMemory s).le g 8 = (setupPagetable R.mapper mem).le (R.host 0 + g) 8 := by
    intro g hlo hhi
    have hend : pdeStart + 0x1000 ≤ vmlinuxRamStart := by decide
    rw [← ByteMem.le_shift]
    refine ByteMem.le_congr _ _ g 8 ?_
    intro i hi
    rw [guestMemory, BootState.ptr, hmapper, hptr _ (by omega)]
    exact htab (g + i) (le_trans hlo (Nat.le_add_right g i)) (by omega)
  have hentries := setupPagetable_entries R.mapper (R.host 0) hptr mem hz
  have hpml4 : pml4Start = 0x9000 := rfl
  have hpdpte : pdpteStart = 0xa000 := rfl
  have hpde : pdeStart = 0xb000 := rfl
  refine pageWalk_of_entries (guestMemory s) ?_ ?_ ?_
  · intro i hi
    rw [pageEntry, hword _ (by omega) (by omega), ← Nat.add_assoc]
    exact (hentries i hi).1
  · intro i hi
    rw [pageEntry, hword _ (by omega) (by omega), ← Nat.add_assoc]
    exact (hentries i hi).2.1
  · intro i hi
    rw [pageEntry, hword _ (by omega) (by omega), ← Nat.add_assoc]
    exact (hentries i hi).2.2

/-- Files that can be opened are booted from, and the ramdisk's place is the
    loader's. -/
theorem initLinuxBoot_returns (kernel initrd : File) (s : BootState) :
    ∃ s', initLinuxBoot (some kernel) (some initrd) s = some s' ∧
      s'.initrdAddr = pageAligned (sub64 (min initrdAddrMax (getRamEnd s.toMemState))
        (toUint64 (fileLen initrd))) := by
  let t := setupCmdline
    { s with mem := setupMptable s.memMapper vcpuCount (setupPagetable s.memMapper s.mem) }
  rcases setupBootParams_returns t kernel initrd with ⟨u, hu⟩
  have haddr := (setupBootParams_placed t kernel initrd u hu).addr
  refine ⟨{ u with mem := setupIdt u.memMapper (setupGdt u.memMapper u.mem) }, ?_, haddr⟩
  unfold initLinuxBoot
  exact Option.bind_eq_some_iff.mpr ⟨u, hu, rfl⟩

/-- Four megabytes of kernel and eight of ramdisk in the monitor's guest. -/
theorem pagetable_identity_sample :
    ∃ s, initLinuxBoot (some (zeroFile 0x400000)) (some (zeroFile 0x800000)) sampleBoot = some s ∧
      pageWalk (guestMemory s) pml4Start 0x1234567 = .page (2 ^ 21) 0x1234567 true := by
  rcases initLinuxBoot_returns (zeroFile 0x400000) (zeroFile 0x800000) sampleBoot with
    ⟨s, hs, haddr⟩
  have hplace : s.initrdAddr = 0x1f800000 := haddr.trans (by decide)
  have hram : ∀ a n, vmlinuxRamStart ≤ a → a + n ≤ 0x20000000 →
      FitsAbove (bootMemory sampleHost 0x20000000 fun _ => ⟨0, 0, 0⟩).memMapper a n := by
    intro a n hlo hhi
    exact ⟨rangeInRam_low sampleHost 0x20000000 _ (by decide) a n (le_trans hhi (by decide)),
      fun x hx _ => le_trans hlo hx⟩
  refine ⟨s, hs, ?_⟩
  exact (pagetable_identity sampleHost sampleHost_lawful 0x20000000 (fun _ => ⟨0, 0, 0⟩) (by decide)
    (by decide) (fun _ => 0) (fun _ _ => rfl) (zeroFile 0x400000) (zeroFile 0x800000) s hs
    (hram _ _ (by decide) (by decide)) (hplace ▸ hram _ _ (by decide) (by decide))).1 _ (by decide)

end Microv
