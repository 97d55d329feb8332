import Microv.Core.Boot
import Microv.Theory.E820

/-!
# Placing the Boot Images

Where `setup_boot_params` puts the kernel and the initial ramdisk, and when the
two are out of everything's way.

The kernel goes to a fixed address and the ramdisk as high as
`INITRD_ADDR_MAX` and the end of RAM allow. Neither size is tested: the
ramdisk's length comes through an `int`, is subtracted from that limit in 64
bits, and the result is rounded down to a page. `images_apart_iff` is what has
to be true of the sizes for the outcome to be sound. Both directions of it
rest on one computation, `initrdAddr_of_le`, for the sizes at which the
subtraction does not wrap; at the others the ramdisk ends above the limit
(`le_of_below`).

## Main definitions

* `RangeInRam`: Every byte of a range is RAM.
* `bootStructures`: What the boot setup keeps below 1 MiB.
* `ImagesApart`: The images are in RAM and out of each other's way, and the
  header says where.
* `ImagesFit`: The sizes leave room for that.

## Theorems

* `toUint64_fileLen`: A length an `int` can hold.
* `setupBootParams_placed`: Where the ramdisk goes, and what the header says.
* `initrdAddr_of_le`: Its place, where nothing wraps.
* `images_apart_iff`: The images are apart exactly when the sizes fit.
* `images_collide`: A ramdisk that is loaded over the kernel.
-/

namespace Microv

/-- Every byte of `[a, a + n)` lies in a slot. -/
def RangeInRam (mapper : Int → MemRegion) (a n : Nat) : Prop :=
  ∀ x, a ≤ x → x < a + n → (mapper 0).Covers x ∨ (mapper 1).Covers x

/-- Start and length of each structure the boot setup keeps below 1 MiB. -/
def bootStructures : List (Nat × Nat) :=
  [(bootGdtStart, 8 * startupGdt.length), (bootIdtStart, 8), (zeroPageStart, 0x1000),
    (pml4Start, 0x1000), (pdpteStart, 0x1000), (pdeStart, 0x1000),
    (cmdlineStart, cmdline.length),
    (mptableStart, 60 + (mpEntries vcpuCount).flatten.length)]

/-- The images of `k` and `n` bytes lie in RAM and apart from each other and
    from the boot structures, and the header holds the ramdisk's place and
    size. -/
structure ImagesApart (s : BootState) (k n : Nat) : Prop where
  kernel_ram : RangeInRam s.memMapper vmlinuxStart k
  initrd_ram : RangeInRam s.memMapper s.initrdAddr n
  images : Apart vmlinuxStart k s.initrdAddr n
  structures : ∀ p ∈ bootStructures, Apart p.1 p.2 vmlinuxStart k ∧ Apart p.1 p.2 s.initrdAddr n
  aligned : s.initrdAddr % 0x1000 = 0
  below : s.initrdAddr + n ≤ initrdAddrMax + 1
  ramdisk_image : s.mem.le (s.ptr zeroPageStart + 0x218) 4 = s.initrdAddr
  ramdisk_size : s.mem.le (s.ptr zeroPageStart + 0x21c) 4 = n

/-- The limit the ramdisk is placed below. -/
def initrdLimit (ramSize : Nat) : Nat :=
  min initrdAddrMax ramSize

/-- A ramdisk of `n` bytes below the limit `top` has room above the end of
    `[a, a + l)`, rounded up to a page, or ends before its start. -/
def ClearOf (top n a l : Nat) : Prop :=
  l = 0 ∨ n = 0 ∨ (a + l + 0xfff) / 0x1000 * 0x1000 + n ≤ top ∨ top ≤ a + (top - n) % 0x1000

instance (top n a l : Nat) : Decidable (ClearOf top n a l) :=
  inferInstanceAs (Decidable (_ ∨ _ ∨ _ ∨ _))

/-- The kernel ends in the slot it starts in, the ramdisk is no longer than its
    limit, and what lies below the limit leaves it room. -/
structure ImagesFit (ramSize k n : Nat) : Prop where
  kernel : k = 0 ∨ vmlinuxStart + k ≤ min ramSize getGapStart
  initrd : n ≤ initrdLimit ramSize
  clear : ∀ p ∈ (vmlinuxStart, k) :: bootStructures, ClearOf (initrdLimit ramSize) n p.1 p.2

theorem bootStructures_below : ∀ p ∈ bootStructures, p.1 + p.2 ≤ vmlinuxRamStart := by
  decide +kernel

section Placement

/-- A length an `int` can hold survives `file_len`. -/
theorem toUint64_fileLen (fp : File) (h : fp.len < 2 ^ 31) : toUint64 (fileLen fp) = fp.len := by
  have hlen : fileLen fp = fp.len := by
    unfold fileLen Int.bmod
    rw [if_pos (by omega)]
    omega
  rw [hlen, toUint64]
  omega

theorem length_freadItem_le (fp : File) (size : Nat) : (freadItem fp size).length ≤ fp.len := by
  unfold freadItem
  split_ifs
  · rw [File.pread, ByteMem.length_read]
    omega
  · exact Nat.zero_le _

/-- Below the limit the subtraction does not wrap, and the ramdisk ends at most
    a page below it. -/
theorem pageAligned_sub64 (top n : Nat) (hle : n ≤ top) (hlt : top < 2 ^ 64) :
    pageAligned (sub64 top n) = (top - n) / 0x1000 * 0x1000 := by
  rw [pageAligned, sub64_eq hle hlt]

/-- A ramdisk that does not fit below the limit is not placed below it: its
    length wraps the subtraction, or was changed on the way through `int`. -/
theorem le_of_below (fp : File) (top : Nat) (htop : top ≤ initrdAddrMax)
    (h : pageAligned (sub64 top (toUint64 (fileLen fp))) + fp.len ≤ initrdAddrMax + 1) :
    fp.len ≤ top := by
  have hmax : initrdAddrMax = 0x37ffffff := rfl
  rw [toUint64_fileLen fp (by omega)] at h
  unfold pageAligned sub64 at h
  omega

/-- Separation from a range, in terms of the sizes alone. -/
theorem apart_iff_clearOf (top n a l : Nat) (hle : n ≤ top) :
    Apart a l ((top - n) / 0x1000 * 0x1000) n ↔ ClearOf top n a l := by
  unfold Apart ClearOf
  omega

end Placement

section Outcome

variable (bootParams : Nat) (s : BootState)

/-- Only memory changes while the table is written. -/
theorem setupE820_keeps : (setupE820 bootParams s).toMemState = s.toMemState ∧
    (setupE820 bootParams s).initrdAddr = s.initrdAddr ∧
    (setupE820 bootParams s).initrdSize = s.initrdSize := by
  unfold setupE820
  by_cases hgap : getRamEnd s.toMemState ≤ getGapEnd
  · simp only [if_pos hgap, and_self]
  · simp only [if_neg hgap, and_self]

/-- Fields of one structure that do not overlap. -/
theorem le_writeLE_field (m : ByteMem) (o k v o' k' : Nat) (h : Apart o k o' k') :
    (m.writeLE (bootParams + o) k v).le (bootParams + o') k' = m.le (bootParams + o') k' := by
  refine ByteMem.le_writeLE_apart _ _ _ _ _ _ ?_
  unfold Apart at *
  omega

theorem setupHeaderRamdisk_image :
    (setupHeaderRamdisk bootParams s).mem.le (bootParams + 0x218) 4 = s.initrdAddr % 2 ^ 32 := by
  simp (disch := decide) only [setupHeaderRamdisk, le_writeLE_field]
  rw [ByteMem.writeLE, ByteMem.le_write_leBytes, show 256 ^ 4 = 2 ^ 32 by decide]

theorem setupHeaderRamdisk_size :
    (setupHeaderRamdisk bootParams s).mem.le (bootParams + 0x21c) 4 = s.initrdSize % 2 ^ 32 := by
  simp (disch := decide) only [setupHeaderRamdisk, le_writeLE_field]
  rw [ByteMem.writeLE, ByteMem.le_write_leBytes, show 256 ^ 4 = 2 ^ 32 by decide]

/-- The images are loaded through the mapper as it is, and the statics are set
    from the ramdisk's length. -/
theorem setupBootParams_inv (kernel initrd : File) (s' : BootState)
    (h : setupBootParams (some kernel) (some initrd) s = some s') :
    ∃ t : BootState, t.toMemState = s.toMemState ∧
      t.initrdAddr = pageAligned (sub64 (min initrdAddrMax (getRamEnd s.toMemState))
        (toUint64 (fileLen initrd))) ∧
      t.initrdSize = toUint64 (fileLen initrd) ∧
      t.mem = fread (fread (s.mem.write (s.ptr zeroPageStart) (List.replicate 0x1000 0))
        (s.ptr vmlinuxStart) (toUint64 (fileLen kernel)) kernel)
        (s.ptr t.initrdAddr) (toUint64 (fileLen initrd)) initrd ∧
      s' = setupHeaderRamdisk (s.ptr zeroPageStart) (setupE820 (s.ptr zeroPageStart) t) := by
  have hmax : ∀ e, (if initrdAddrMax > e then e else initrdAddrMax) = min initrdAddrMax e := by
    intro e
    split_ifs <;> omega
  unfold setupBootParams at h
  rcases Option.bind_eq_some_iff.mp h with ⟨t, hk, h⟩
  rcases Option.bind_eq_some_iff.mp h with ⟨u, hi, h⟩
  simp only [loadKernel, Option.some.injEq] at hk
  simp only [loadInitrd, hmax, Option.some.injEq] at hi
  refine ⟨u, by rw [← hi, ← hk], by rw [← hi, ← hk], by rw [← hi], ?_, (Option.some.inj h).symm⟩
  rw [← hi, ← hk]
  rfl

/-- Files that can be opened are loaded, whatever their lengths. -/
theorem setupBootParams_returns (kernel initrd : File) :
    ∃ s', setupBootParams (some kernel) (some initrd) s = some s' :=
  ⟨_, rfl⟩

/-- Where the ramdisk went, and what the header says of it. -/
structure Placed (s : BootState) (initrd : File) (s' : BootState) : Prop where
  memory : s'.toMemState = s.toMemState
  addr : s'.initrdAddr = pageAligned (sub64 (min initrdAddrMax (getRamEnd s.toMemState))
    (toUint64 (fileLen initrd)))
  ramdisk_image : s'.mem.le (s'.ptr zeroPageStart + 0x218) 4 = s'.initrdAddr % 2 ^ 32
  ramdisk_size : s'.mem.le (s'.ptr zeroPageStart + 0x21c) 4
    = toUint64 (fileLen initrd) % 2 ^ 32

theorem setupBootParams_placed (kernel initrd : File) (s' : BootState)
    (h : setupBootParams (some kernel) (some initrd) s = some s') : Placed s initrd s' := by
  rcases setupBootParams_inv s kernel initrd s' h with ⟨t, hmem, haddr, hsize, -, rfl⟩
  rcases setupE820_keeps (s.ptr zeroPageStart) t with ⟨kmem, kaddr, ksize⟩
  -- The pointer the fields were written through is the one they are read through.
  have hptr : (setupHeaderRamdisk (s.ptr zeroPageStart) (setupE820 (s.ptr zeroPageStart) t)).ptr
      zeroPageStart = s.ptr zeroPageStart :=
    congrArg (fun st : MemState => getUserspaceAddr st.memMapper zeroPageStart) (kmem.trans hmem)
  refine ⟨kmem.trans hmem, kaddr.trans haddr, ?_, ?_⟩
  · rw [hptr, setupHeaderRamdisk_image]
    rfl
  · rw [hptr, setupHeaderRamdisk_size, ksize, hsize]

end Outcome

section Fit

variable (os : HostMap) (ramSize : Nat) (around : Int → MemRegion)
  (hok : (initMemoryMap os ramSize (memStatics around)).1 = true)

include hok

/-- What ends below the gap and below the end of RAM is in the first slot. -/
theorem rangeInRam_low (a n : Nat) (h : a + n ≤ min ramSize getGapStart) :
    RangeInRam (bootMemory os ramSize around).memMapper a n := by
  rcases bootMemory_slot_zero os ramSize around hok with ⟨_, h0⟩
  intro x hlo hhi
  refine Or.inl ?_
  simp only [h0, MemRegion.Covers]
  omega

theorem kernel_ram_iff (k : Nat) :
    RangeInRam (bootMemory os ramSize around).memMapper vmlinuxStart k ↔
      k = 0 ∨ vmlinuxStart + k ≤ min ramSize getGapStart := by
  rcases bootMemory_slot_zero os ramSize around hok with ⟨a, h0⟩
  have h1 := bootMemory_covers_one os ramSize around hok
  have hgap : getGapStart = 0xC0000000 := rfl
  have hend : getGapEnd = 0x100000000 := rfl
  have hstart : vmlinuxStart = 0x1000000 := rfl
  constructor
  · intro hram
    simp only [RangeInRam, h1] at hram
    simp only [h0, MemRegion.Covers] at hram
    by_cases hk : k = 0
    · exact Or.inl hk
    · -- Where the slot ends the range would still go on.
      have hfirst := hram vmlinuxStart (by omega) (by omega)
      have hlast := hram (min ramSize getGapStart) (by omega)
      omega
  · rintro (rfl | hfit)
    · intro x hlo hhi
      omega
    · exact rangeInRam_low os ramSize around hok vmlinuxStart k hfit

/-- The limit is the same whichever slot RAM ends in. -/
theorem min_getRamEnd (hos : os.Lawful) :
    min initrdAddrMax (getRamEnd (bootMemory os ramSize around)) = initrdLimit ramSize := by
  have hsize : (bootMemory os ramSize around).ramSize = ramSize :=
    initMemoryMap_ramSize os ramSize _
  have hbound := ramSize_le_of_lawful os ramSize around hok hos
  have hgap : getGapStart = 0xC0000000 := rfl
  have hend : getGapEnd = 0x100000000 := rfl
  have hmax : initrdAddrMax = 0x37ffffff := rfl
  unfold initrdLimit
  by_cases hle : ramSize ≤ getGapStart
  · rw [getRamEnd_low _ (by omega), hsize]
  · rw [getRamEnd_high _ (by omega) (by omega), hsize]
    omega

section Loaded

variable (hos : os.Lawful) (mem : ByteMem) (kernel initrd : File) (s : BootState)
  (h : setupBootParams (some kernel) (some initrd) (bootState os ramSize around mem) = some s)

include h

omit hok in
theorem loaded_memMapper : s.memMapper = (bootMemory os ramSize around).memMapper :=
  congrArg MemState.memMapper (setupBootParams_placed _ kernel initrd s h).memory

include hos

theorem initrdAddr_eq : s.initrdAddr
    = pageAligned (sub64 (initrdLimit ramSize) (toUint64 (fileLen initrd))) := by
  rw [(setupBootParams_placed _ kernel initrd s h).addr, ← min_getRamEnd os ramSize around hok hos]
  rfl

/-- A length below the limit neither wraps nor is truncated. -/
theorem initrdAddr_of_le (hle : initrd.len ≤ initrdLimit ramSize) :
    s.initrdAddr = (initrdLimit ramSize - initrd.len) / 0x1000 * 0x1000 := by
  have hmax : initrdAddrMax = 0x37ffffff := rfl
  have htop : initrdLimit ramSize ≤ initrdAddrMax := min_le_left _ _
  rw [initrdAddr_eq os ramSize around hok hos mem kernel initrd s h,
    toUint64_fileLen initrd (by omega), pageAligned_sub64 _ _ hle (by omega)]

theorem imagesFit_of_apart (hap : ImagesApart s kernel.len initrd.len) :
    ImagesFit ramSize kernel.len initrd.len := by
  have haddr := initrdAddr_eq os ramSize around hok hos mem kernel initrd s h
  have hle : initrd.len ≤ initrdLimit ramSize :=
    le_of_below initrd _ (min_le_left _ _) (haddr ▸ hap.below)
  refine ⟨?_, hle, ?_⟩
  · rw [← kernel_ram_iff os ramSize around hok,
      ← loaded_memMapper os ramSize around mem kernel initrd s h]
    exact hap.kernel_ram
  · intro p hp
    rw [← apart_iff_clearOf _ _ _ _ hle,
      ← initrdAddr_of_le os ramSize around hok hos mem kernel initrd s h hle]
    rcases List.mem_cons.mp hp with rfl | hp
    · exact hap.images
    · exact (hap.structures p hp).2

theorem imagesApart_of_fit (hfit : ImagesFit ramSize kernel.len initrd.len) :
    ImagesApart s kernel.len initrd.len := by
  have hle := hfit.initrd
  have haddr := initrdAddr_of_le os ramSize around hok hos mem kernel initrd s h hle
  have hmapper := loaded_memMapper os ramSize around mem kernel initrd s h
  have hplaced := setupBootParams_placed _ kernel initrd s h
  have hmax : initrdAddrMax = 0x37ffffff := rfl
  have htop : initrdLimit ramSize ≤ initrdAddrMax := min_le_left _ _
  have hram : initrdLimit ramSize ≤ ramSize := min_le_right _ _
  have hclear : ∀ p ∈ (vmlinuxStart, kernel.len) :: bootStructures,
      Apart p.1 p.2 s.initrdAddr initrd.len := by
    intro p hp
    rw [haddr, apart_iff_clearOf _ _ _ _ hle]
    exact hfit.clear p hp
  refine ⟨?_, ?_, hclear _ List.mem_cons_self, ?_, ?_, ?_, ?_, ?_⟩
  · rw [hmapper, kernel_ram_iff os ramSize around hok]
    exact hfit.kernel
  · have hgap : getGapStart = 0xC0000000 := rfl
    rw [hmapper]
    exact rangeInRam_low os ramSize around hok _ _ (by omega)
  · -- The kernel starts above 1 MiB, where the structures have ended.
    intro p hp
    have hbelow := bootStructures_below p hp
    exact ⟨.of_le (le_trans hbelow (by decide)), hclear p (List.mem_cons_of_mem _ hp)⟩
  · omega
  · omega
  · rw [hplaced.ramdisk_image]
    omega
  · rw [hplaced.ramdisk_size, toUint64_fileLen initrd (by omega)]
    omega

end Loaded

end Fit

/-- The images are in RAM and out of each other's way exactly when their sizes
    leave room for them. Nothing in the code tests the sizes. -/
theorem images_apart_iff (os : HostMap) (hos : os.Lawful) (ramSize : Nat)
    (around : Int → MemRegion)
    (hok : (initMemoryMap os ramSize (memStatics around)).1 = true)
    (mem : ByteMem) (kernel initrd : File) (s : BootState)
    (h : setupBootParams (some kernel) (some initrd) (bootState os ramSize around mem) = some s) :
    ImagesApart s kernel.len initrd.len ↔ ImagesFit ramSize kernel.len initrd.len := by
  constructor
  · exact imagesFit_of_apart os ramSize around hok hos mem kernel initrd s h
  · exact imagesApart_of_fit os ramSize around hok hos mem kernel initrd s h

/-- A file of `n` zero bytes. -/
def zeroFile (n : Nat) : File :=
  ⟨fun _ => 0, n⟩

/-- The monitor's guest before its parameters are set up. -/
def sampleBoot : BootState :=
  bootState sampleHost 0x20000000 (fun _ => ⟨0, 0, 0⟩) fun _ => 0

/-- Four megabytes of kernel and eight of ramdisk. -/
theorem images_apart_iff_sample :
    ∃ s, setupBootParams (some (zeroFile 0x400000)) (some (zeroFile 0x800000)) sampleBoot = some s ∧
      ImagesApart s 0x400000 0x800000 := by
  rcases setupBootParams_returns sampleBoot (zeroFile 0x400000) (zeroFile 0x800000) with ⟨s, hs⟩
  have hfit : ImagesFit 0x20000000 0x400000 0x800000 :=
    ⟨by decide, by decide, by decide +kernel⟩
  refine ⟨s, hs, ?_⟩
  exact (images_apart_iff sampleHost sampleHost_lawful 0x20000000 (fun _ => ⟨0, 0, 0⟩) (by decide)
    (fun _ => 0) (zeroFile 0x400000) (zeroFile 0x800000) s hs).mpr hfit

/-- A ramdisk of 496 MiB in the monitor's guest: it reaches down to where the
    kernel was just loaded. -/
theorem images_collide :
    ∃ s, setupBootParams (some (zeroFile 0x1000)) (some (zeroFile 0x1F000000)) sampleBoot = some s ∧
      s.initrdAddr = vmlinuxStart ∧ ¬ ImagesApart s 0x1000 0x1F000000 := by
  rcases setupBootParams_returns sampleBoot (zeroFile 0x1000) (zeroFile 0x1F000000) with ⟨s, hs⟩
  have haddr : s.initrdAddr = vmlinuxStart := by
    rw [(setupBootParams_placed sampleBoot _ _ s hs).addr]
    decide
  refine ⟨s, hs, haddr, fun hap => ?_⟩
  have himages := hap.images
  rw [haddr] at himages
  revert himages
  decide

end Microv
