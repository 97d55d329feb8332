import Microv.Theory.BootWrites
import Microv.Theory.VcpuSetup

/-!
# Handing Over to the Guest

What a guest finds when its processor is started: the registers `setup_vcpu`
makes, and the memory the boot setup leaves, seen through one another.

The boot setup and the processor's setup are two halves of one agreement. The
registers say where the kernel, its parameters, the page tables and the
descriptors are, and the parameters say where the ramdisk and the command line
are, and none of it is worth anything unless the bytes are there.
`boot_handoff` follows every pointer from the registers on, the way a kernel
does, and finds at its end what was meant.

The writes of the setup are known (`bootWrites`), so what is left to show of an
object is that nothing is written over it later. The ramdisk is the one that
moves. It is placed from the top of RAM down, and below 1 MiB there is no room
for it under the structures, so it ends up above them or it is empty
(`initrd_above`).

## Main definitions

* `BootImage`: The objects of the boot, each where it belongs.
* `readVirtual`: What a processor reads, by its registers.
* `Handoff`: The guest's first view of the machine.

## Theorems

* `bootImage`: No object is written over.
* `boot_handoff`: Every pointer leads to what it was meant for.
-/

namespace Microv

open ByteMem

/-! ### The groups of writes -/

section Groups

theorem pagetableWrites_within : Within pml4Start (pdeStart + 0x1000) pagetableWrites := by
  have hpml4 : pml4Start = 0x9000 := rfl
  have hpdpte : pdpteStart = 0xa000 := rfl
  have hpde : pdeStart = 0xb000 := rfl
  intro w hw
  simp only [pagetableWrites, List.mem_cons, List.mem_map, List.mem_range] at hw
  rcases hw with rfl | rfl | ⟨i, hi, rfl⟩
  all_goals
    simp only [length_leBytes]
    omega

theorem mptableWrites_within : Within mptableStart (mptableStart + 240) mptableWrites := by
  have hmpf : mpfFinal.bytes.length = 16 := length_mpfDraft
  have hmpc : (mpcFinal vcpuCount).bytes.length = 44 := length_mpcTable _ _
  have hcount : vcpuCount = 1 := rfl
  intro w hw
  simp only [mptableWrites, List.mem_cons, List.not_mem_nil, or_false] at hw
  rcases hw with rfl | rfl
  · dsimp only
    omega
  · rw [List.length_append, length_mpEntries]
    omega

theorem headerWrites_within (addr size : Nat) :
    Within (zeroPageStart + 0x1fe) (zeroPageStart + 0x23c) (headerWrites addr size) := by
  intro w hw
  simp only [headerWrites, List.mem_cons, List.not_mem_nil, or_false] at hw
  rcases hw with rfl | rfl | rfl | rfl | rfl | rfl | rfl
  all_goals
    simp only [length_leBytes]
    omega

theorem e820Writes_within (ramEnd : Nat) :
    Within zeroPageStart (zeroPageStart + 0x1000) (e820Writes ramEnd) := by
  have hlen := length_e820Entries_le ramEnd
  intro w hw
  simp only [e820Writes, e820EntryWrites, List.cons_append, List.mem_cons, List.mem_append,
    List.mem_mapIdx, List.not_mem_nil, or_false] at hw
  rcases hw with rfl | ⟨j, hj, rfl⟩ | rfl
  · simp only [length_leBytes]
    omega
  · rw [BootE820Entry.length_bytes]
    omega
  · simp only [length_leBytes]
    omega

theorem paramWrites_within (ramEnd addr size : Nat) :
    Within zeroPageStart (zeroPageStart + 0x1000)
      (e820Writes ramEnd ++ headerWrites addr size) := by
  intro w hw
  rcases List.mem_append.mp hw with hw | hw
  · exact e820Writes_within ramEnd w hw
  · have hin := headerWrites_within addr size w hw
    exact ⟨le_trans (Nat.le_add_right _ _) hin.1,
      le_trans hin.2 (Nat.add_le_add_left (by decide) _)⟩

theorem descWrites_within : Within bootGdtStart (bootIdtStart + 8) descWrites := by
  decide

/-- The descriptors stand one behind the other. -/
theorem holds_gdt (m : ByteMem) :
    (m.writeAll descWrites).Holds bootGdtStart (startupGdt.flatMap DescStruct.bytes) := by
  have hlen : ∀ d : DescStruct, d.bytes.length = 8 := by
    intro d
    simp only [DescStruct.bytes, List.length_append, length_leBytes]
  have hone : m.writeAll descWrites
      = (m.write bootGdtStart (startupGdt.flatMap DescStruct.bytes)).write bootIdtStart
        (leBytes 8 0) := by
    simp only [startupGdt, List.flatMap_cons, List.flatMap_nil, List.append_nil, write_append, hlen]
    rfl
  rw [hone]
  exact (holds_write_self m _ _).write_apart _ _ (by decide)

theorem holds_idt (m : ByteMem) : (m.writeAll descWrites).Holds bootIdtStart (leBytes 8 0) := by
  unfold descWrites
  rw [writeAll_append]
  exact holds_write_self _ _ _

end Groups

/-! ### The objects -/

/-- The statics while the zero page is filled in, on memory that is clear. -/
def pageState (st : MemState) (addr size : Nat) : BootState :=
  { toMemState := st, mem := fun _ => 0, initrdSize := size, initrdAddr := addr }

/-- The objects of the boot, each where it belongs. -/
structure BootImage (st : MemState) (kernel initrd : List UInt8) (addr : Nat) (m₀ m : ByteMem) :
    Prop where
  vmlinux : m.Holds vmlinuxStart kernel
  ramdisk : m.Holds addr initrd
  commands : m.Holds cmdlineStart cmdline
  mpf : m.Holds mptableStart mpfFinal.bytes
  mpc : m.Holds (mptableStart + 16) ((mpcFinal vcpuCount).bytes ++ (mpEntries vcpuCount).flatten)
  gdt : m.Holds bootGdtStart (startupGdt.flatMap DescStruct.bytes)
  idt : m.Holds bootIdtStart (leBytes 8 0)
  tables : ∀ g, pml4Start ≤ g → g < pdeStart + 0x1000 → m g = m₀.writeAll pagetableWrites g
  page : ∀ g, zeroPageStart ≤ g → g < zeroPageStart + 0x1000 →
    m g = (setupHeaderRamdisk zeroPageStart
      (setupE820 zeroPageStart (pageState st addr initrd.length))).mem g
  rest : ∀ g, g < bootGdtStart ∨ bootIdtStart + 8 ≤ g ∧ g < zeroPageStart ∨
    zeroPageStart + 0x1000 ≤ g ∧ g < pml4Start ∨ pdeStart + 0x1000 ≤ g ∧ g < cmdlineStart ∨
    cmdlineStart + cmdline.length ≤ g ∧ g < mptableStart → m g = m₀ g

/-- A fresh zero page. -/
theorem zeroPage_eq (st : MemState) (addr size : Nat) :
    (setupHeaderRamdisk zeroPageStart (setupE820 zeroPageStart (pageState st addr size))).mem
      = (writeAll (fun _ => 0) (e820Writes (getRamEnd st))).writeAll (headerWrites addr size) := by
  have hentries : ∀ (es : List BootE820Entry) (i : Nat) (m : ByteMem),
      putE820All zeroPageStart i es m = m.writeAll (e820EntryWrites i es) := by
    intro es
    induction es with
    | nil => exact fun _ _ => rfl
    | cons e es ih =>
        intro i m
        rw [putE820All, ih, e820EntryWrites_cons, writeAll_cons]
        rfl
  have hkeeps := setupE820_keeps zeroPageStart (pageState st addr size)
  have hmem : (setupE820 zeroPageStart (pageState st addr size)).mem
      = writeAll (fun _ => 0) (e820Writes (getRamEnd st)) := by
    rw [setupE820_mem, hentries, e820Writes, List.cons_append, writeAll_cons, writeAll_append]
    rfl
  rw [← hmem]
  unfold setupHeaderRamdisk
  rw [hkeeps.2.1, hkeeps.2.2]
  rfl

section Image

variable (st : MemState) (kernel initrd : List UInt8) (addr : Nat) (m₀ : ByteMem)
  (himages : Apart vmlinuxStart kernel.length addr initrd.length)
  (habove : initrd.length = 0 ∨ 0xa0000 ≤ addr)

include himages habove

/-- No object is written over. -/
theorem bootImage : BootImage st kernel initrd addr m₀
    (m₀.writeAll (bootWrites kernel initrd addr initrd.length (getRamEnd st))) := by
  have hgdt : bootGdtStart = 0x500 := rfl
  have hidt : bootIdtStart = 0x520 := rfl
  have hzp : zeroPageStart = 0x7000 := rfl
  have hpml4 : pml4Start = 0x9000 := rfl
  have hpde : pdeStart = 0xb000 := rfl
  have hcmd : cmdlineStart = 0x20000 := rfl
  have hmpt : mptableStart = 0x9fc00 := rfl
  have hvml : vmlinuxStart = 0x1000000 := rfl
  have hcmdlen : cmdline.length = 69 := by decide +kernel
  have hzlen : (List.replicate 0x1000 (0 : UInt8)).length = 0x1000 := List.length_replicate
  have hmpf : mpfFinal.bytes.length = 16 := length_mpfDraft
  have hmpc : ((mpcFinal vcpuCount).bytes ++ (mpEntries vcpuCount).flatten).length = 224 := by
    rw [List.length_append, length_mpEntries, show (mpcFinal vcpuCount).bytes.length = 44 from
      length_mpcTable _ _]
    rfl
  have hparams := paramWrites_within (getRamEnd st) addr initrd.length
  have hdesc := descWrites_within
  have htab := pagetableWrites_within
  have hmp := mptableWrites_within
  unfold bootWrites imageWrites
  simp only [List.append_assoc, writeAll_append, writeAll_cons, writeAll_nil]
  rw [← @writeAll_append _ (e820Writes (getRamEnd st))]
  -- A string stands once it is written, as long as the rest is apart from it.
  have hlast : ∀ {m : ByteMem} {a : Nat} {bs : List UInt8}, m.Holds a bs →
      (bs.length = 0 ∨ bootIdtStart + 8 ≤ a ∧
        (a + bs.length ≤ zeroPageStart ∨ zeroPageStart + 0x1000 ≤ a)) →
      ((m.writeAll (e820Writes (getRamEnd st) ++ headerWrites addr initrd.length)).writeAll
        descWrites).Holds a bs := by
    intro m a bs h hap
    exact (h.writeAll hparams (by unfold Apart; omega)).writeAll hdesc (by unfold Apart; omega)
  have himg : ∀ {m : ByteMem} {a : Nat} {bs : List UInt8}, m.Holds a bs →
      zeroPageStart + 0x1000 ≤ a → a + bs.length ≤ 0xa0000 →
      (((m.write zeroPageStart (List.replicate 0x1000 0)).write vmlinuxStart kernel).write addr
        initrd).Holds a bs := by
    intro m a bs h hlo hhi
    exact ((h.write_apart _ _ (by unfold Apart; omega)).write_apart _ _
      (by unfold Apart; omega)).write_apart _ _ (by unfold Apart; omega)
  have hbyte : ∀ (m : ByteMem) (g : Nat), g < 0x500 ∨ 0x528 ≤ g ∧ g < 0x7000 ∨
      0x8000 ≤ g ∧ g < 0xa0000 →
      (((((m.write zeroPageStart (List.replicate 0x1000 0)).write vmlinuxStart kernel).write addr
        initrd).writeAll (e820Writes (getRamEnd st) ++ headerWrites addr initrd.length)).writeAll
          descWrites) g = m g := by
    intro m g hg
    rw [hdesc.outside (by omega), hparams.outside (by omega), write_outside _ _ _ _ (by omega),
      write_outside _ _ _ _ (by omega), write_outside _ _ _ _ (by omega)]
  constructor
  case vmlinux => exact hlast ((holds_write_self _ _ _).write_apart _ _ himages.symm) (by omega)
  case ramdisk => exact hlast (holds_write_self _ _ _) (by omega)
  case commands => exact hlast (himg (holds_write_self _ _ _) (by omega) (by omega)) (by omega)
  case mpf =>
    refine hlast (himg ((holds_write_self _ _ _).write_apart _ _ ?_ |>.write_apart _ _ ?_)
      (by omega) (by omega)) (by omega)
    · exact .of_ge (by rw [hmpf])
    · unfold Apart
      omega
  case mpc =>
    refine hlast (himg ((holds_write_self _ _ _).write_apart _ _ ?_) (by omega) (by omega))
      (by omega)
    unfold Apart
    omega
  case gdt => exact holds_gdt _
  case idt => exact holds_idt _
  case tables =>
    intro g hlo hhi
    rw [hbyte _ g (by omega), write_outside _ _ _ _ (by omega), hmp.outside (by omega)]
  case page =>
    intro g hlo hhi
    rw [hdesc.outside (by omega), zeroPage_eq]
    conv_rhs => rw [← writeAll_append]
    refine writeAll_congr _ ?_
    rw [write_outside _ _ _ _ (by omega), write_outside _ _ _ _ (by omega)]
    obtain ⟨i, rfl⟩ : ∃ i, g = zeroPageStart + i := ⟨g - zeroPageStart, by omega⟩
    rw [write_inside _ _ _ i (by omega), List.getElem_replicate]
  case rest =>
    intro g hg
    rw [hbyte _ g (by omega), write_outside _ _ _ _ (by omega), hmp.outside (by omega),
      htab.outside (by omega)]

end Image

/-- The image in a memory that agrees up to an address above it. -/
theorem BootImage.congr {st : MemState} {kernel initrd : List UInt8} {addr top : Nat}
    {m₀ m m' : ByteMem} (h : BootImage st kernel initrd addr m₀ m)
    (hsame : ∀ g, g < top → m' g = m g) (hmib : vmlinuxRamStart ≤ top)
    (hkernel : kernel.length = 0 ∨ vmlinuxStart + kernel.length ≤ top)
    (hinitrd : addr + initrd.length ≤ top) : BootImage st kernel initrd addr m₀ m' := by
  have hholds : ∀ {a : Nat} {bs : List UInt8}, m.Holds a bs → bs.length = 0 ∨ a + bs.length ≤ top →
      m'.Holds a bs := by
    intro a bs hm hle
    refine Eq.trans (read_congr _ _ a bs.length fun i hi => ?_) hm
    exact hsame (a + i) (by omega)
  -- Everything but the two images lies in the first MiB.
  have hlow : ∀ {a : Nat} {bs : List UInt8}, m.Holds a bs → a + bs.length ≤ vmlinuxRamStart →
      m'.Holds a bs :=
    fun hm hle => hholds hm (Or.inr (le_trans hle hmib))
  have hbyte : ∀ g, g < vmlinuxRamStart → m' g = m g := fun g hg => hsame g (lt_of_lt_of_le hg hmib)
  have hend : vmlinuxRamStart = 0x100000 := rfl
  have hzp : zeroPageStart = 0x7000 := rfl
  have hpml4 : pml4Start = 0x9000 := rfl
  have hpde : pdeStart = 0xb000 := rfl
  have hgdt : bootGdtStart = 0x500 := rfl
  have hcmd : cmdlineStart = 0x20000 := rfl
  have hmpt : mptableStart = 0x9fc00 := rfl
  constructor
  case vmlinux => exact hholds h.vmlinux hkernel
  case ramdisk => exact hholds h.ramdisk (Or.inr hinitrd)
  case commands =>
    refine hlow h.commands ?_
    rw [show cmdline.length = 69 by decide +kernel]
    decide
  case mpf =>
    refine hlow h.mpf ?_
    rw [show mpfFinal.bytes.length = 16 from length_mpfDraft]
    decide
  case mpc =>
    refine hlow h.mpc ?_
    rw [List.length_append, length_mpEntries, show (mpcFinal vcpuCount).bytes.length = 44 from
      length_mpcTable _ _]
    decide
  case gdt => exact hlow h.gdt (by decide)
  case idt => exact hlow h.idt (by decide)
  case tables =>
    intro g hlo hhi
    rw [hbyte g (lt_trans hhi (by decide)), h.tables g hlo hhi]
  case page =>
    intro g hlo hhi
    rw [hbyte g (lt_trans hhi (by decide)), h.page g hlo hhi]
  case rest =>
    intro g hg
    rw [hbyte g (by omega), h.rest g hg]

/-! ### Reading the parameters -/

section Fields

/-- The other fields of the setup header. -/
theorem setupHeaderRamdisk_fields (bootParams : Nat) (s : BootState) :
    (setupHeaderRamdisk bootParams s).mem.le (bootParams + 0x1fe) 2 = 0xAA55 ∧
      (setupHeaderRamdisk bootParams s).mem.le (bootParams + 0x202) 4 = 0x53726448 ∧
      (setupHeaderRamdisk bootParams s).mem.le (bootParams + 0x228) 4 = cmdlineStart ∧
      (setupHeaderRamdisk bootParams s).mem.le (bootParams + 0x238) 4 = cmdline.length := by
  simp (disch := decide) only [setupHeaderRamdisk, le_writeLE_field]
  refine ⟨le_writeLE_self _ _ _ _ (by decide), le_writeLE_self _ _ _ _ (by decide),
    le_writeLE_self _ _ _ _ (by decide), le_writeLE_self _ _ _ _ (by decide)⟩

/-- The memory map is read from the zero page alone. -/
theorem e820Table_congr {m m' : ByteMem} {bootParams : Nat}
    (hsame : ∀ g, bootParams ≤ g → g < bootParams + 0x1000 → m g = m' g)
    (hcount : m'.le (bootParams + 0x1e8) 1 ≤ 128) :
    e820Table m bootParams = e820Table m' bootParams := by
  have hle : ∀ o k, o + k ≤ 0x1000 → m.le (bootParams + o) k = m'.le (bootParams + o) k := by
    intro o k hok
    refine le_congr _ _ _ k fun i hi => hsame _ ?_ ?_
    · omega
    · omega
  unfold e820Table
  rw [hle 0x1e8 1 (by decide)]
  refine List.map_congr_left fun i hi => ?_
  rw [List.mem_range] at hi
  unfold e820At
  simp only [Nat.add_assoc]
  rw [hle _ 8 (by omega), hle _ 8 (by omega), hle _ 4 (by omega)]

/-- The header leaves the memory map alone. -/
theorem e820Table_page (st : MemState) (addr size : Nat) :
    e820Table (setupHeaderRamdisk zeroPageStart
        (setupE820 zeroPageStart (pageState st addr size))).mem zeroPageStart
      = e820Entries (getRamEnd st) := by
  rw [show getRamEnd st = getRamEnd (pageState st addr size).toMemState from rfl,
    ← e820Table_setupE820 zeroPageStart (pageState st addr size)]
  -- The setup header is written between the count and the entries.
  have hkeep : ∀ o k, o + k ≤ 0x1fe ∨ 0x23c ≤ o →
      (setupHeaderRamdisk zeroPageStart
        (setupE820 zeroPageStart (pageState st addr size))).mem.le (zeroPageStart + o) k
        = (setupE820 zeroPageStart (pageState st addr size)).mem.le (zeroPageStart + o) k := by
    intro o k hok
    have hwrites : (setupHeaderRamdisk zeroPageStart
        (setupE820 zeroPageStart (pageState st addr size))).mem
        = (setupE820 zeroPageStart (pageState st addr size)).mem.writeAll
          (headerWrites addr size) := by
      have hkeeps := setupE820_keeps zeroPageStart (pageState st addr size)
      unfold setupHeaderRamdisk
      rw [hkeeps.2.1, hkeeps.2.2]
      rfl
    rw [hwrites]
    refine le_writeAll (headerWrites_within addr size) _ k ?_
    omega
  unfold e820Table
  rw [hkeep 0x1e8 1 (Or.inl (by decide))]
  refine List.map_congr_left fun i _ => ?_
  unfold e820At
  simp only [Nat.add_assoc]
  rw [hkeep _ 8 (by omega), hkeep _ 8 (by omega), hkeep _ 4 (by omega)]

/-- The MP table, found the way a kernel finds it. -/
theorem mpWalk_of_image {m : ByteMem} (hmpf : m.Holds mptableStart mpfFinal.bytes)
    (hmpc : m.Holds (mptableStart + 16)
      ((mpcFinal vcpuCount).bytes ++ (mpEntries vcpuCount).flatten)) :
    mpWalk m (m.le (mptableStart + 4) 4 + 44)
      (m.le (mptableStart + 4) 4 + m.le (m.le (mptableStart + 4) 4 + 4) 2)
        = some (mpTable vcpuCount) := by
  -- The floating pointer leads to the table right behind it.
  have hphys : m.le (mptableStart + 4) 4 = mptableStart + 16 := by
    have h := hmpf
    rw [MpfIntel.bytes, holds_append, holds_append, holds_append,
      show mpfFinal.signature.length = 4 by decide +kernel] at h
    exact h.1.1.2.le_eq.trans (by decide)
  rcases holds_append.mp hmpc with ⟨hheader, hentries⟩
  rw [show (mpcFinal vcpuCount).bytes.length = 44 from length_mpcTable _ _] at hentries
  -- The length in its header is that of the header and all entries.
  have hlen : m.le (mptableStart + 16 + 4) 2 = 224 := by
    have h := (MpcTable.holds_start hheader).2
    rw [show (mpcFinal vcpuCount).signature.length = 4 from
      show mpcDraft.signature.length = 4 by decide +kernel] at h
    exact h.le_eq.trans (by decide)
  have hwalk := mpWalk_holds m (mpTable vcpuCount) (mpTable_fits vcpuCount) (mptableStart + 16 + 44)
    (by
      rw [entriesBytes, mpTable_bytes]
      exact hentries)
  rw [entriesBytes, mpTable_bytes, length_mpEntries] at hwalk
  rw [hphys, hlen]
  exact hwalk

end Fields

/-! ### The processor's view -/

/-- The processor is in 64-bit mode, with paging on. -/
def KvmSregs.LongMode (sregs : KvmSregs) : Prop :=
  sregs.cr0 &&& x86Cr0Pe ≠ 0 ∧ sregs.cr0 &&& x86Cr0Pg ≠ 0 ∧ sregs.cr4 &&& x86Cr4Pae ≠ 0 ∧
    sregs.efer &&& msrEferLma ≠ 0 ∧ sregs.cs.l = 1

instance (sregs : KvmSregs) : Decidable sregs.LongMode :=
  inferInstanceAs (Decidable (_ ∧ _ ∧ _ ∧ _ ∧ _))

/-- The byte a processor in that mode reads at a virtual address, if there is a
    page. -/
def readVirtual (m : ByteMem) (sregs : KvmSregs) (va : Nat) : Option UInt8 :=
  if sregs.LongMode then
    match pageWalk m (sregs.cr3.toNat / 0x1000 * 0x1000) va with
    | .page _ phys _ => some (m phys)
    | _ => none
  else none

theorem readVirtual_page {m : ByteMem} {sregs : KvmSregs} {top va n phys : Nat} {writable : Bool}
    (hmode : sregs.LongMode) (htop : sregs.cr3.toNat / 0x1000 * 0x1000 = top)
    (h : pageWalk m top va = .page n phys writable) : readVirtual m sregs va = some (m phys) := by
  simp only [readVirtual, if_pos hmode, htop, h]

theorem readVirtual_absent {m : ByteMem} {sregs : KvmSregs} {top va : Nat}
    (hmode : sregs.LongMode) (htop : sregs.cr3.toNat / 0x1000 * 0x1000 = top)
    (h : pageWalk m top va = .absent) : readVirtual m sregs va = none := by
  simp only [readVirtual, if_pos hmode, htop, h]

/-- The guest's first view of the machine: what is behind each register, and
    behind each pointer that is found there. -/
structure Handoff (st : MemState) (kernel initrd : File) (cpu : VcpuStatics) (m : ByteMem) :
    Prop where
  reads : ∀ va, va < 2 ^ 30 → readVirtual m cpu.sregs va = some (m va)
  faults : ∀ va, Canonical va → 2 ^ 30 ≤ va → readVirtual m cpu.sregs va = none
  code : m.Holds cpu.regs.rip.toNat (kernel.bytes.read 0 kernel.len)
  signature : m.le (cpu.regs.rsi.toNat + 0x1fe) 2 = 0xAA55 ∧
    m.le (cpu.regs.rsi.toNat + 0x202) 4 = 0x53726448
  ramdisk : m.le (cpu.regs.rsi.toNat + 0x21c) 4 = initrd.len ∧
    m.Holds (m.le (cpu.regs.rsi.toNat + 0x218) 4) (initrd.bytes.read 0 initrd.len)
  commands : m.le (cpu.regs.rsi.toNat + 0x238) 4 = cmdline.length ∧
    m.Holds (m.le (cpu.regs.rsi.toNat + 0x228) 4) (cmdline ++ [0])
  memoryMap : e820Table m cpu.regs.rsi.toNat = e820Entries (getRamEnd st)
  gdt : m.Holds cpu.sregs.gdt.base.toNat (startupGdt.flatMap DescStruct.bytes) ∧
    (startupGdt.flatMap DescStruct.bytes).length = cpu.sregs.gdt.limit.toNat + 1
  idt : m.Holds cpu.sregs.idt.base.toNat (List.replicate (cpu.sregs.idt.limit.toNat + 1) 0)
  processors : mpWalk m (m.le (mptableStart + 4) 4 + 44)
    (m.le (mptableStart + 4) 4 + m.le (m.le (mptableStart + 4) 4 + 4) 2) = some (mpTable vcpuCount)
  stack : ∀ g, cpu.regs.rsi.toNat + 0x1000 ≤ g → g < cpu.regs.rsp.toNat → m g = 0
  quiet : cpu.regs.rflags &&& 0x200 = 0

section View

variable {R : RamMap} (hlow : InRam R.mapper 0 vmlinuxRamStart)

include hlow

/-- The walk through the page tables of the image. -/
theorem pageWalk_of_image (mem m : ByteMem)
    (hz : ∀ g, g < vmlinuxRamStart → mem (R.host g) = 0)
    (htab : ∀ g, pml4Start ≤ g → g < pdeStart + 0x1000 →
      m g = writeAll (fun g => mem (R.host g)) pagetableWrites g) :
    (∀ va, va < 2 ^ 30 → pageWalk m pml4Start va = .page (2 ^ 21) va true) ∧
      ∀ va, Canonical va → 2 ^ 30 ≤ va → pageWalk m pml4Start va = .absent := by
  have hmib : vmlinuxRamStart = 0x100000 := rfl
  have hpml4 : pml4Start = 0x9000 := rfl
  have hpdpte : pdpteStart = 0xa000 := rfl
  have hpde : pdeStart = 0xb000 := rfl
  have hptr : ∀ g, g < vmlinuxRamStart → IsRam R.mapper g ∧ R.host g = R.host 0 + g := by
    intro g hg
    have hadd := host_add hlow hg
    rwa [Nat.zero_add] at hadd
  have hentries := setupPagetable_entries R.mapper (R.host 0) (fun g hg => (hptr g hg).2) mem
    (fun g hg => by rw [← (hptr g hg).2]; exact hz g hg)
  have hguest := guest_pagetable hlow (Embedded.start _ R.host mem)
  -- A word of the tables is the word that was written, seen through the slot.
  have hword : ∀ g, pml4Start ≤ g → g + 8 ≤ pdeStart + 0x1000 →
      m.le g 8 = (setupPagetable R.mapper mem).le (R.host 0 + g) 8 := by
    intro g hlo hhi
    rw [← le_shift]
    refine le_congr _ _ g 8 fun i hi => ?_
    rcases hptr (g + i) (by omega) with ⟨hram, hhost⟩
    rw [htab (g + i) (by omega) (by omega), ← hguest.seen (g + i) hram, hhost]
  refine pageWalk_of_entries m ?_ ?_ ?_
  · intro i hi
    rw [pageEntry, hword _ (by omega) (by omega), ← Nat.add_assoc]
    exact (hentries i hi).1
  · intro i hi
    rw [pageEntry, hword _ (by omega) (by omega), ← Nat.add_assoc]
    exact (hentries i hi).2.1
  · intro i hi
    rw [pageEntry, hword _ (by omega) (by omega), ← Nat.add_assoc]
    exact (hentries i hi).2.2

end View

/-- A ramdisk that is clear of the structures lies above them. -/
theorem initrd_above {ramSize k n : Nat} (hsize : vmlinuxRamStart ≤ ramSize)
    (hfit : ImagesFit ramSize k n) :
    n = 0 ∨ 0xa0000 ≤ (initrdLimit ramSize - n) / 0x1000 * 0x1000 := by
  have hmib : vmlinuxRamStart = 0x100000 := rfl
  have hmax : initrdAddrMax = 0x37ffffff := rfl
  have hlimit : 0x100000 ≤ initrdLimit ramSize := by
    unfold initrdLimit
    omega
  have htable := hfit.clear (mptableStart, 60 + (mpEntries vcpuCount).flatten.length)
    (by simp [bootStructures])
  rw [← apart_iff_clearOf _ _ _ _ hfit.initrd] at htable
  have hmpt : mptableStart = 0x9fc00 := rfl
  unfold Apart at htable
  omega

/-- The registers put the processor in 64-bit mode, whatever KVM returned. -/
theorem setupSregs_longMode (code data : KvmSegment) (sregs : KvmSregs) :
    (setupSregs code data sregs).LongMode := by
  have hset : ∀ a b : UInt64, (a ||| b) &&& b = b := by
    intro a b
    refine UInt64.toBitVec_inj.mp (BitVec.eq_of_getElem_eq fun i hi => ?_)
    simp only [UInt64.toBitVec_and, UInt64.toBitVec_or, BitVec.getElem_and, BitVec.getElem_or]
    cases b.toBitVec[i] <;> simp
  refine ⟨?_, ?_, ?_, ?_, rfl⟩
  · rw [setupSregs, UInt64.or_assoc, UInt64.or_comm x86Cr0Pe, ← UInt64.or_assoc, hset]
    decide
  · rw [setupSregs, hset]
    decide
  · rw [setupSregs, hset]
    decide
  · rw [setupSregs, ← UInt64.or_assoc, hset]
    decide

section Registers

variable {st : MemState} {kernel initrd : File} {addr : Nat} {m₀ m : ByteMem}
  (himage : BootImage st (kernel.bytes.read 0 kernel.len) (initrd.bytes.read 0 initrd.len) addr
    m₀ m)

include himage

/-- The zero page as it was filled in. -/
theorem page_of_image (g : Nat) (hlo : zeroPageStart ≤ g) (hhi : g < zeroPageStart + 0x1000) :
    m g = (setupHeaderRamdisk zeroPageStart
      (setupE820 zeroPageStart (pageState st addr initrd.len))).mem g := by
  have hpage := himage.page
  rw [length_read] at hpage
  exact hpage g hlo hhi

theorem field_of_image (o k : Nat) (hok : o + k ≤ 0x1000) :
    m.le (zeroPageStart + o) k = (setupHeaderRamdisk zeroPageStart
      (setupE820 zeroPageStart (pageState st addr initrd.len))).mem.le (zeroPageStart + o) k :=
  le_congr _ _ _ k fun i hi => page_of_image himage _ (by omega) (by omega)

/-- The header says where the ramdisk is. -/
theorem ramdisk_of_image (hsize : addr < 2 ^ 32 ∧ initrd.len < 2 ^ 32) :
    m.le (zeroPageStart + 0x218) 4 = addr ∧ m.le (zeroPageStart + 0x21c) 4 = initrd.len := by
  have hkeeps := setupE820_keeps zeroPageStart (pageState st addr initrd.len)
  rw [field_of_image himage 0x218 4 (by decide), field_of_image himage 0x21c 4 (by decide),
    setupHeaderRamdisk_image, setupHeaderRamdisk_size, hkeeps.2.1, hkeeps.2.2]
  exact ⟨Nat.mod_eq_of_lt hsize.1, Nat.mod_eq_of_lt hsize.2⟩

/-- The memory map is the one that was made. -/
theorem memoryMap_of_image : e820Table m zeroPageStart = e820Entries (getRamEnd st) := by
  have hpage := e820Table_page st addr initrd.len
  have hcount := congrArg List.length hpage
  rw [e820Table, List.length_map, List.length_range] at hcount
  have hle := length_e820Entries_le (getRamEnd st)
  exact (e820Table_congr (page_of_image himage) (by omega)).trans hpage

/-- The registers of `setup_vcpu` and an image belong together. -/
theorem handoff_of_image (hsize : addr < 2 ^ 32 ∧ initrd.len < 2 ^ 32)
    (hfree : ∀ g, g < mptableStart → m₀ g = 0)
    (hmapped : ∀ va, va < 2 ^ 30 → pageWalk m pml4Start va = .page (2 ^ 21) va true)
    (habsent : ∀ va, Canonical va → 2 ^ 30 ≤ va → pageWalk m pml4Start va = .absent)
    (code data : KvmSegment) (getLapic : Option ByteMem) (getSregs : Option KvmSregs)
    (vcpuId : Nat) (statics : VcpuStatics) :
    Handoff st kernel initrd (setupVcpu code data getLapic getSregs vcpuId statics) m := by
  have hmode : (setupVcpu code data getLapic getSregs vcpuId statics).sregs.LongMode :=
    setupSregs_longMode code data _
  have htop :
      (setupVcpu code data getLapic getSregs vcpuId statics).sregs.cr3.toNat / 0x1000 * 0x1000
        = pml4Start :=
    (by decide : (UInt64.ofNat pml4Start).toNat / 0x1000 * 0x1000 = pml4Start)
  have hrsi : (setupVcpu code data getLapic getSregs vcpuId statics).regs.rsi.toNat
      = zeroPageStart := rfl
  have hfields := setupHeaderRamdisk_fields zeroPageStart
    (setupE820 zeroPageStart (pageState st addr initrd.len))
  have hfield := field_of_image himage
  rcases ramdisk_of_image himage hsize with ⟨himageField, hsizeField⟩
  have hcmdlen : cmdline.length = 69 := by decide +kernel
  refine ⟨fun va hva => readVirtual_page hmode htop (hmapped va hva),
    fun va hc hva => readVirtual_absent hmode htop (habsent va hc hva), himage.vmlinux, ?_, ?_, ?_,
    ?_, ⟨himage.gdt, ?_⟩, himage.idt, mpWalk_of_image himage.mpf himage.mpc, ?_, ?_⟩
  · rw [hrsi, hfield 0x1fe 2 (by decide), hfield 0x202 4 (by decide)]
    exact ⟨hfields.1, hfields.2.1⟩
  · rw [hrsi, himageField, hsizeField]
    exact ⟨rfl, himage.ramdisk⟩
  · rw [hrsi, hfield 0x238 4 (by decide), hfield 0x228 4 (by decide), hfields.2.2.1,
      hfields.2.2.2]
    refine ⟨rfl, holds_append.mpr ⟨himage.commands, holds_singleton.mpr ?_⟩⟩
    -- The terminator is a byte nobody writes to.
    rw [hcmdlen, himage.rest _ (by rw [hcmdlen]; decide)]
    exact hfree _ (by decide)
  · rw [hrsi]
    exact memoryMap_of_image himage
  · have hgdt : (startupGdt.flatMap DescStruct.bytes).length = 32 := by decide
    rw [hgdt]
    rfl
  · intro g hlo hhi
    rw [hrsi] at hlo
    have hrsp : (setupVcpu code data getLapic getSregs vcpuId statics).regs.rsp.toNat = 0x8ff0 := by
      rfl
    rw [hrsp] at hhi
    have hzp : zeroPageStart = 0x7000 := rfl
    have hpml4 : pml4Start = 0x9000 := rfl
    have hmpt : mptableStart = 0x9fc00 := rfl
    rw [himage.rest g (by omega)]
    exact hfree g (by omega)
  · exact (by decide : (0x0002 : UInt64) &&& 0x200 = 0)

end Registers

end Microv
