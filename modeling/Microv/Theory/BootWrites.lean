import Microv.Lib.Writes
import Microv.Theory.Mptable
import Microv.Theory.PageTable

/-!
# What the Boot Setup Writes

Guest memory at the moment the processor is started, as a list of strings.

Everything the boot setup does to memory it does through pointers into the two
mappings of RAM. `initLinuxBoot_embedded` takes the pointers away: what is
written is a list of strings at guest addresses (`bootWrites`), guest memory is
what it was with these written to it one after the other, and nothing outside
the two mappings changes. Each function of the setup has its own part of the
list, and its own lemma. The images may lie on top of each other and of the
rest, as long as they lie in RAM.

Since the list names no pointer, the guest cannot tell where the host put its
memory.

## Main definitions

* `bootWrites`: What the setup writes, at guest addresses.
* `Guest`: Guest memory inside the memory of the monitor.
* `RamAddr`: The guest addresses there is RAM for.

## Theorems

* `guest_pagetable`, `guest_mptable`, `guest_bootParams`, `guest_desc`: The
  parts of the setup.
* `initLinuxBoot_embedded`: The setup is its writes, seen through the slots.
* `boot_embedded`: The same from what `init_memory_map` leaves.
* `boot_host_independent`: The guest's memory does not depend on the host's.
-/

namespace Microv

/-! ### The writes -/

section Writes

open ByteMem

/-- What `setup_pagetable` writes. -/
def pagetableWrites : List (Nat × List UInt8) :=
  (pml4Start, leBytes 8 (pdpteStart ||| 0x03)) :: (pdpteStart, leBytes 8 (pdeStart ||| 0x03)) ::
    (List.range 512).map fun i => (pdeStart + i * 8, leBytes 8 ((i <<< 21) + 0x83))

/-- What `setup_mptable` leaves written. -/
def mptableWrites : List (Nat × List UInt8) :=
  [(mptableStart, mpfFinal.bytes),
    (mptableStart + 16, (mpcFinal vcpuCount).bytes ++ (mpEntries vcpuCount).flatten)]

/-- What the loaders write: a zero page, the kernel, and the ramdisk. -/
def imageWrites (kernel initrd : List UInt8) (addr : Nat) : List (Nat × List UInt8) :=
  [(zeroPageStart, List.replicate 0x1000 0), (vmlinuxStart, kernel), (addr, initrd)]

/-- The entries of the memory map from the `i`-th on. -/
def e820EntryWrites (i : Nat) (es : List BootE820Entry) : List (Nat × List UInt8) :=
  es.mapIdx fun j e => (zeroPageStart + 0x2d0 + 20 * (i + j), e.bytes)

theorem e820EntryWrites_cons (i : Nat) (e : BootE820Entry) (es : List BootE820Entry) :
    e820EntryWrites i (e :: es)
      = (zeroPageStart + 0x2d0 + 20 * i, e.bytes) :: e820EntryWrites (i + 1) es := by
  unfold e820EntryWrites
  rw [List.mapIdx_cons]
  simp only [Nat.add_zero, Nat.add_comm, Nat.add_left_comm]

/-- What `setup_e820` writes. -/
def e820Writes (ramEnd : Nat) : List (Nat × List UInt8) :=
  (zeroPageStart + 0x1e8, leBytes 1 0) :: e820EntryWrites 0 (e820Entries ramEnd) ++
    [(zeroPageStart + 0x1e8, leBytes 1 (e820Entries ramEnd).length)]

/-- What `setup_header_ramdisk` writes. -/
def headerWrites (addr size : Nat) : List (Nat × List UInt8) :=
  [(zeroPageStart + 0x218, leBytes 4 addr), (zeroPageStart + 0x21c, leBytes 4 size),
    (zeroPageStart + 0x1fe, leBytes 2 0xAA55), (zeroPageStart + 0x202, leBytes 4 0x53726448),
    (zeroPageStart + 0x210, leBytes 1 0xFF), (zeroPageStart + 0x228, leBytes 4 cmdlineStart),
    (zeroPageStart + 0x238, leBytes 4 cmdline.length)]

/-- What `setup_gdt` and `setup_idt` write. -/
def descWrites : List (Nat × List UInt8) :=
  startupGdt.zipIdx.map (fun e => (bootGdtStart + e.2 * 8, e.1.bytes)) ++
    [(bootIdtStart, leBytes 8 0)]

/-- What the setup writes, in order. -/
def bootWrites (kernel initrd : List UInt8) (addr size ramEnd : Nat) : List (Nat × List UInt8) :=
  pagetableWrites ++ mptableWrites ++ [(cmdlineStart, cmdline)] ++ imageWrites kernel initrd addr ++
    e820Writes ramEnd ++ headerWrites addr size ++ descWrites

end Writes

/-! ### Through the slots -/

section Embedding

open ByteMem

variable (R : RamMap)

/-- The guest address is RAM. -/
def IsRam (mapper : Int → MemRegion) (g : Nat) : Prop :=
  InRam mapper g 1

theorem host_injective (g g' : Nat) (h : IsRam R.mapper g) (h' : IsRam R.mapper g')
    (heq : R.host g = R.host g') : g = g' := by
  by_contra hne
  have hap := R.hostApart g 1 g' 1 h h' (by unfold Apart; omega)
  unfold Apart at hap
  omega

variable {R}

theorem host_add {a n i : Nat} (h : InRam R.mapper a n) (hi : i < n) :
    IsRam R.mapper (a + i) ∧ R.host (a + i) = R.host a + i := by
  have hslot : ∀ k, k = 0 ∨ k = 1 → (R.mapper k).InSlot a n →
      (R.mapper k).InSlot (a + i) 1 ∧ R.host (a + i) = R.host a + i := by
    intro k hk hs
    have hbyte : (R.mapper k).InSlot (a + i) 1 := by
      unfold MemRegion.InSlot at hs ⊢
      omega
    refine ⟨hbyte, ?_⟩
    rw [R.getUserspaceAddr_inSlot k hk a n hs, R.getUserspaceAddr_inSlot k hk (a + i) 1 hbyte]
    unfold MemRegion.InSlot at hs
    omega
  rcases h with h | h
  · exact ⟨Or.inl (hslot 0 (Or.inl rfl) h).1, (hslot 0 (Or.inl rfl) h).2⟩
  · exact ⟨Or.inr (hslot 1 (Or.inr rfl) h).1, (hslot 1 (Or.inr rfl) h).2⟩

variable {mem₀ mem m : ByteMem}

/-- The memory of the monitor, seen through the slots. -/
abbrev Guest (R : RamMap) (mem₀ mem m : ByteMem) : Prop :=
  Embedded (IsRam R.mapper) R.host mem₀ mem m

/-- A string written through a pointer, where it lies in RAM. -/
theorem Guest.write (h : Guest R mem₀ mem m) (a : Nat) (bs : List UInt8)
    (hin : bs.length = 0 ∨ InRam R.mapper a bs.length) :
    Guest R mem₀ (mem.write (R.host a) bs) (m.write a bs) := by
  refine Embedded.write h (host_injective R) a bs (fun i hi => ?_) (fun i hi => ?_)
  · exact (host_add (hin.resolve_left (by omega)) hi).1
  · exact (host_add (hin.resolve_left (by omega)) hi).2

variable (hlow : InRam R.mapper 0 vmlinuxRamStart)

include hlow

theorem low_inRam {a n : Nat} (hpos : 0 < n) (h : a + n ≤ vmlinuxRamStart) :
    InRam R.mapper a n := by
  refine hlow.imp (fun hs => ?_) fun hs => ?_
  all_goals
    unfold MemRegion.InSlot at hs ⊢
    omega

theorem Guest.write_low (h : Guest R mem₀ mem m) (a : Nat) (bs : List UInt8)
    (hend : a + bs.length ≤ vmlinuxRamStart) :
    Guest R mem₀ (mem.write (R.host a) bs) (m.write a bs) := by
  refine Guest.write h a bs ?_
  by_cases hz : bs.length = 0
  · exact Or.inl hz
  · exact Or.inr (low_inRam hlow (by omega) hend)

/-- A field of the zero page, written through the pointer to it. -/
theorem Guest.write_page (h : Guest R mem₀ mem m) (o : Nat) (bs : List UInt8)
    (hend : o + bs.length ≤ 0x1000) (ho : o < 0x1000) :
    Guest R mem₀ (mem.write (R.host zeroPageStart + o) bs) (m.write (zeroPageStart + o) bs) := by
  have hpage : InRam R.mapper zeroPageStart 0x1000 := low_inRam hlow (by decide) (by decide)
  rw [← (host_add hpage ho).2]
  refine Guest.write_low hlow h _ bs ?_
  have hzp : zeroPageStart = 0x7000 := rfl
  have hmib : vmlinuxRamStart = 0x100000 := rfl
  omega

theorem guest_pagetable (h : Guest R mem₀ mem m) :
    Guest R mem₀ (setupPagetable R.mapper mem) (m.writeAll pagetableWrites) := by
  have hpde : pdeStart = 0xb000 := rfl
  have hmib : vmlinuxRamStart = 0x100000 := rfl
  have hloop : ∀ {mem m : ByteMem} (n : Nat), n ≤ 512 → Guest R mem₀ mem m →
      Guest R mem₀ (setupPde R.mapper mem n) (m.writeAll
        ((List.range n).map fun i => (pdeStart + i * 8, leBytes 8 ((i <<< 21) + 0x83)))) := by
    intro mem m n
    induction n with
    | zero => exact fun _ h => h
    | succ n ih =>
        intro hn h
        rw [List.range_succ, List.map_append, writeAll_append]
        exact Guest.write_low hlow (ih (by omega) h) _ _ (by rw [length_leBytes]; omega)
  unfold setupPagetable pagetableWrites
  rw [writeAll_cons, writeAll_cons]
  refine hloop 512 le_rfl ?_
  exact Guest.write_low hlow (Guest.write_low hlow h _ _ (by rw [length_leBytes]; decide)) _ _
    (by rw [length_leBytes]; decide)

theorem guest_mptable (h : Guest R mem₀ mem m) :
    Guest R mem₀ (setupMptable R.mapper vcpuCount mem) (m.writeAll mptableWrites) := by
  have htable : InRam R.mapper mptableStart 240 := low_inRam hlow (by decide) (by decide)
  have hlen : ((mpcFinal vcpuCount).bytes ++ (mpEntries vcpuCount).flatten).length = 224 := by
    rw [List.length_append, length_mpEntries, show (mpcFinal vcpuCount).bytes.length = 44 from
      length_mpcTable _ _]
    rfl
  rw [setupMptable_eq R.mapper (R.host mptableStart) vcpuCount mem
    (fun o ho => (host_add htable ho).2), ← (host_add htable (by decide : 16 < 240)).2]
  refine Guest.write_low hlow (Guest.write_low hlow h _ _ ?_) _ _ ?_
  · rw [show mpfFinal.bytes.length = 16 from length_mpfDraft]
    decide
  · rw [hlen]
    decide

theorem guest_e820 {s : BootState} (h : Guest R mem₀ s.mem m) :
    Guest R mem₀ (setupE820 (R.host zeroPageStart) s).mem
      (m.writeAll (e820Writes (getRamEnd s.toMemState))) := by
  have hentries : ∀ (es : List BootE820Entry) {mem m : ByteMem} (i : Nat), i + es.length ≤ 8 →
      Guest R mem₀ mem m → Guest R mem₀ (putE820All (R.host zeroPageStart) i es mem)
        (m.writeAll (e820EntryWrites i es)) := by
    intro es
    induction es with
    | nil => exact fun _ _ h => h
    | cons e es ih =>
        intro mem m i hi h
        rw [List.length_cons] at hi
        have hone := Guest.write_page hlow h (0x2d0 + 20 * i) e.bytes
          (by rw [e.length_bytes]; omega) (by omega)
        rw [← Nat.add_assoc, ← Nat.add_assoc] at hone
        have hrest := ih (i + 1) (by omega) hone
        rw [e820EntryWrites_cons, writeAll_cons]
        exact hrest
  have hlen := length_e820Entries_le (getRamEnd s.toMemState)
  rw [setupE820_mem, e820Writes, List.cons_append, writeAll_cons, writeAll_append]
  refine Guest.write_page hlow (hentries _ 0 (by omega) ?_) 0x1e8 _
    (by rw [length_leBytes]; decide) (by decide)
  exact Guest.write_page hlow h 0x1e8 _ (by rw [length_leBytes]; decide) (by decide)

theorem guest_header {s : BootState} (h : Guest R mem₀ s.mem m) :
    Guest R mem₀ (setupHeaderRamdisk (R.host zeroPageStart) s).mem
      (m.writeAll (headerWrites s.initrdAddr s.initrdSize)) := by
  have hfield : ∀ {mem m : ByteMem} (o k v : Nat), o + k ≤ 0x1000 → o < 0x1000 →
      Guest R mem₀ mem m → Guest R mem₀ (mem.writeLE (R.host zeroPageStart + o) k v)
        (m.write (zeroPageStart + o) (leBytes k v)) := by
    intro mem m o k v hok ho h
    exact Guest.write_page hlow h o _ (by rw [length_leBytes]; exact hok) ho
  unfold setupHeaderRamdisk headerWrites
  simp only [writeAll_cons, writeAll_nil]
  repeat refine hfield _ _ _ (by decide) (by decide) ?_
  exact h

theorem guest_desc (h : Guest R mem₀ mem m) :
    Guest R mem₀ (setupIdt R.mapper (setupGdt R.mapper mem)) (m.writeAll descWrites) := by
  have hgdt : bootGdtStart = 0x500 := rfl
  have hmib : vmlinuxRamStart = 0x100000 := rfl
  have hdescs : ∀ (es : List (DescStruct × Nat)) {mem m : ByteMem}, (∀ e ∈ es, e.2 < 4) →
      Guest R mem₀ mem m → Guest R mem₀ (es.foldl (putDesc R.mapper) mem)
        (m.writeAll (es.map fun e => (bootGdtStart + e.2 * 8, e.1.bytes))) := by
    intro es
    induction es with
    | nil => exact fun _ h => h
    | cons e es ih =>
        intro mem m hfit h
        have he := hfit e List.mem_cons_self
        have hlen : e.1.bytes.length = 8 := by
          simp only [DescStruct.bytes, List.length_append, length_leBytes]
        rw [List.map_cons, writeAll_cons]
        exact ih (fun d hd => hfit d (List.mem_cons_of_mem e hd))
          (Guest.write_low hlow h _ _ (by rw [hlen]; omega))
  unfold descWrites
  rw [writeAll_append]
  exact Guest.write_low hlow (hdescs _ (by decide) h) _ _ (by rw [length_leBytes]; decide)

/-- What `fread` delivers of a file. -/
def loaded (fp : File) : List UInt8 :=
  freadItem fp (toUint64 (fileLen fp))

theorem guest_bootParams (kernel initrd : File) (v u : BootState) (hv : v.memMapper = R.mapper)
    (h : Guest R mem₀ v.mem m) (hu : setupBootParams (some kernel) (some initrd) v = some u)
    (hkernel : (loaded kernel).length = 0 ∨ InRam R.mapper vmlinuxStart (loaded kernel).length)
    (hinitrd : (loaded initrd).length = 0 ∨ InRam R.mapper u.initrdAddr (loaded initrd).length) :
    u.memMapper = R.mapper ∧ Guest R mem₀ u.mem
      (m.writeAll (imageWrites (loaded kernel) (loaded initrd) u.initrdAddr ++
        e820Writes (getRamEnd v.toMemState) ++
        headerWrites u.initrdAddr (toUint64 (fileLen initrd)))) := by
  rcases setupBootParams_inv v kernel initrd u hu with ⟨t, ht, -, hsize, hmem, rfl⟩
  have hptr : ∀ g, v.ptr g = R.host g := by
    intro g
    rw [RamMap.host, ← hv]
    rfl
  rcases setupE820_keeps (R.host zeroPageStart) t with ⟨kmem, kaddr, ksize⟩
  simp only [hptr] at hmem hinitrd ⊢
  have haddr : (setupHeaderRamdisk (R.host zeroPageStart)
      (setupE820 (R.host zeroPageStart) t)).initrdAddr = t.initrdAddr := kaddr
  rw [haddr] at hinitrd ⊢
  refine ⟨(congrArg MemState.memMapper (kmem.trans ht)).trans hv, ?_⟩
  -- First the zeroed page, then the two images, then the table and the header.
  have hpage := Guest.write_low hlow h zeroPageStart (List.replicate 0x1000 0)
    (by rw [List.length_replicate]; decide)
  have himages := Guest.write (Guest.write hpage vmlinuxStart (loaded kernel) hkernel)
    t.initrdAddr (loaded initrd) hinitrd
  have hloaded : t.mem = ((v.mem.write (R.host zeroPageStart) (List.replicate 0x1000 0)).write
      (R.host vmlinuxStart) (loaded kernel)).write (R.host t.initrdAddr) (loaded initrd) := hmem
  rw [← hloaded] at himages
  have hall := guest_header hlow (guest_e820 hlow himages)
  rw [ht, kaddr, ksize, hsize] at hall
  unfold imageWrites
  simp only [writeAll_append, writeAll_cons, writeAll_nil]
  exact hall

/-- The setup is those writes, seen through the slots, for files that lie in
    RAM. -/
theorem initLinuxBoot_embedded (kernel initrd : File) (s s' : BootState)
    (hs : s.memMapper = R.mapper)
    (h : initLinuxBoot (some kernel) (some initrd) s = some s')
    (hkernel : (loaded kernel).length = 0 ∨ InRam R.mapper vmlinuxStart (loaded kernel).length)
    (hinitrd : (loaded initrd).length = 0 ∨ InRam R.mapper s'.initrdAddr (loaded initrd).length) :
    s'.memMapper = R.mapper ∧ Guest R s.mem s'.mem
      (writeAll (fun g => s.mem (R.host g)) (bootWrites (loaded kernel) (loaded initrd)
        s'.initrdAddr (toUint64 (fileLen initrd)) (getRamEnd s.toMemState))) := by
  unfold initLinuxBoot at h
  rcases Option.bind_eq_some_iff.mp h with ⟨u, hu, hfin⟩
  generalize hv : setupCmdline _ = v at hu
  have hvmem : v.memMapper = R.mapper ∧ getRamEnd v.toMemState = getRamEnd s.toMemState ∧
      v.mem = (setupMptable R.mapper vcpuCount (setupPagetable R.mapper s.mem)).write
        (R.host cmdlineStart) cmdline := by
    rw [← hv]
    refine ⟨hs, rfl, ?_⟩
    simp only [setupCmdline, writeUserspaceMemory, RamMap.host, getUserspaceAddr, hs]
  rcases hvmem with ⟨hvmapper, hvend, hvmem⟩
  have hs' := Option.some.inj hfin
  have haddr : s'.initrdAddr = u.initrdAddr := by rw [← hs']
  rw [haddr] at hinitrd ⊢
  -- Forward through the setup, from the page tables to the descriptor tables.
  have hmp := guest_mptable hlow (guest_pagetable hlow (Embedded.start _ R.host s.mem))
  have hcmd := Guest.write_low hlow hmp cmdlineStart cmdline (by decide)
  rw [← hvmem] at hcmd
  rcases guest_bootParams hlow kernel initrd v u hvmapper hcmd hu hkernel hinitrd with
    ⟨hmapper, hparams⟩
  have hall := guest_desc hlow hparams
  rw [← hs']
  refine ⟨hmapper, ?_⟩
  simp only [hmapper]
  rw [hvend] at hall
  unfold bootWrites
  simp only [writeAll_append, writeAll_cons, writeAll_nil] at hall ⊢
  exact hall

end Embedding

/-! ### From the memory map -/

/-- A file whose length an `int` can hold is loaded whole. -/
theorem loaded_eq (fp : File) (h : fp.len < 2 ^ 31) : loaded fp = fp.bytes.read 0 fp.len := by
  rw [loaded, toUint64_fileLen fp h, freadItem, if_pos (by omega), File.pread, Nat.sub_zero,
    Nat.min_self]

section Boot

open ByteMem

variable (os : HostMap) (hos : os.Lawful) (ramSize : Nat) (around : Int → MemRegion)
  (hok : (initMemoryMap os ramSize (memStatics around)).1 = true)
  (hsize : vmlinuxRamStart ≤ ramSize) (mem : ByteMem) (kernel initrd : File) (s : BootState)
  (h : initLinuxBoot (some kernel) (some initrd) (bootState os ramSize around mem) = some s)
  (hkernel : kernel.len = 0 ∨ vmlinuxStart + kernel.len ≤ min ramSize getGapStart)
  (hinitrd : initrd.len ≤ initrdLimit ramSize)

include hos hok hsize h hkernel hinitrd

/-- The setup after a memory map of `ramSize` bytes. -/
theorem boot_embedded : ∃ R : RamMap,
    R.mapper = (bootMemory os ramSize around).memMapper ∧ s.memMapper = R.mapper ∧
      InRam R.mapper 0 vmlinuxRamStart ∧
      s.initrdAddr = (initrdLimit ramSize - initrd.len) / 0x1000 * 0x1000 ∧
      Guest R mem s.mem (writeAll (fun g => mem (R.host g))
        (bootWrites (loaded kernel) (initrd.bytes.read 0 initrd.len) s.initrdAddr initrd.len
          (getRamEnd (bootMemory os ramSize around)))) := by
  rcases lowMemory os ramSize around hok hos hsize with ⟨R, hR, hlow, -⟩
  have hmax : initrdAddrMax = 0x37ffffff := rfl
  have hgap : getGapStart = 0xC0000000 := rfl
  have htop : initrdLimit ramSize ≤ initrdAddrMax := min_le_left _ _
  have hend : initrdLimit ramSize ≤ ramSize := min_le_right _ _
  -- The address comes out of 64-bit subtraction, which does not wrap within the limit.
  have haddr : s.initrdAddr = (initrdLimit ramSize - initrd.len) / 0x1000 * 0x1000 := by
    rcases initLinuxBoot_returns kernel initrd (bootState os ramSize around mem) with
      ⟨t, ht, hplace⟩
    rw [← Option.some.inj (ht.symm.trans h), hplace,
      show (bootState os ramSize around mem).toMemState = bootMemory os ramSize around from rfl,
      min_getRamEnd os ramSize around hok hos, toUint64_fileLen initrd (by omega),
      pageAligned_sub64 _ _ hinitrd (by omega)]
  -- Everything below the gap and the end of RAM is mapped.
  have hin : ∀ a n, a + n ≤ min ramSize getGapStart → n = 0 ∨ InRam R.mapper a n := by
    intro a n han
    by_cases hz : n = 0
    · exact Or.inl hz
    · rw [hR]
      exact Or.inr (inRam_of_rangeInRam os ramSize around hok a n (by omega)
        (rangeInRam_low os ramSize around hok a n han))
  have hk : (loaded kernel).length ≤ kernel.len := length_freadItem_le kernel _
  have hi := loaded_eq initrd (by omega)
  rcases initLinuxBoot_embedded hlow kernel initrd (bootState os ramSize around mem) s hR.symm h
    (by
      by_cases hz : (loaded kernel).length = 0
      · exact Or.inl hz
      · exact hin _ _ (Nat.le_trans (Nat.add_le_add_left hk _) (hkernel.resolve_left (by omega))))
    (by
      rw [hi, length_read]
      exact hin _ _ (by omega)) with ⟨hmapper, hguest⟩
  rw [hi, toUint64_fileLen initrd (by omega)] at hguest
  exact ⟨R, hR, hmapper, hlow, haddr, hguest⟩

end Boot

/-- There is RAM for the guest address. -/
def RamAddr (ramSize g : Nat) : Prop :=
  g < min ramSize getGapStart ∨ getGapEnd ≤ g ∧ g < getGapEnd + (ramSize - getGapStart)

theorem isRam_iff (os : HostMap) (ramSize : Nat) (around : Int → MemRegion)
    (hok : (initMemoryMap os ramSize (memStatics around)).1 = true) (g : Nat) :
    IsRam (bootMemory os ramSize around).memMapper g ↔ RamAddr ramSize g := by
  rcases initMemoryMap_entries os ramSize around hok with ⟨a, b, e0, e1, -, -⟩
  have hgap : getGapStart = 0xC0000000 := rfl
  have hend : getGapEnd = 0x100000000 := rfl
  simp only [IsRam, InRam, MemRegion.InSlot, RamAddr, bootMemory, e0, e1, rams, if_true,
    one_ne_zero, if_false]
  by_cases hle : ramSize ≤ getGapStart
  · simp only [if_pos hle]
    omega
  · simp only [if_neg hle]
    omega

/-- Two boots of the same files with the same amount of RAM, 1 MiB at least, on
    hosts that map it anywhere: the guest finds the same memory, if the kernel
    ends in the slot it starts in and the ramdisk is no longer than its limit.
    And nothing is written outside of what was mapped for it. -/
theorem boot_host_independent (os os' : HostMap) (hos : os.Lawful) (hos' : os'.Lawful)
    (ramSize : Nat) (around around' : Int → MemRegion)
    (hok : (initMemoryMap os ramSize (memStatics around)).1 = true)
    (hok' : (initMemoryMap os' ramSize (memStatics around')).1 = true)
    (hsize : vmlinuxRamStart ≤ ramSize) (mem mem' : ByteMem)
    (hsame : ∀ g, RamAddr ramSize g →
      mem (getUserspaceAddr (bootMemory os ramSize around).memMapper g)
        = mem' (getUserspaceAddr (bootMemory os' ramSize around').memMapper g))
    (kernel initrd : File) (s s' : BootState)
    (h : initLinuxBoot (some kernel) (some initrd) (bootState os ramSize around mem) = some s)
    (h' : initLinuxBoot (some kernel) (some initrd) (bootState os' ramSize around' mem') = some s')
    (hkernel : kernel.len = 0 ∨ vmlinuxStart + kernel.len ≤ min ramSize getGapStart)
    (hinitrd : initrd.len ≤ initrdLimit ramSize) :
    (∀ g, RamAddr ramSize g → guestMemory s g = guestMemory s' g) ∧
      ∀ x, (∀ g, RamAddr ramSize g →
        getUserspaceAddr (bootMemory os ramSize around).memMapper g ≠ x) → s.mem x = mem x := by
  rcases boot_embedded os hos ramSize around hok hsize mem kernel initrd s h hkernel hinitrd with
    ⟨R, hR, hmapper, -, haddr, hguest⟩
  rcases boot_embedded os' hos' ramSize around' hok' hsize mem' kernel initrd s' h' hkernel hinitrd
    with ⟨R', hR', hmapper', -, haddr', hguest'⟩
  -- Both boots make the same writes, for they see the same end of RAM.
  have hend : getRamEnd (bootMemory os ramSize around)
      = getRamEnd (bootMemory os' ramSize around') := by
    unfold getRamEnd bootMemory
    rw [initMemoryMap_ramSize, initMemoryMap_ramSize]
  rw [haddr] at hguest
  rw [haddr', ← hend] at hguest'
  have hram : ∀ g, RamAddr ramSize g → IsRam R.mapper g ∧ IsRam R'.mapper g := by
    intro g hg
    rw [hR, hR', isRam_iff os ramSize around hok, isRam_iff os' ramSize around' hok']
    exact ⟨hg, hg⟩
  constructor
  · intro g hg
    rw [guestMemory, guestMemory, BootState.ptr, BootState.ptr, hmapper, hmapper',
      ← RamMap.host, ← RamMap.host, hguest.seen g (hram g hg).1, hguest'.seen g (hram g hg).2]
    refine ByteMem.writeAll_congr _ ?_
    rw [RamMap.host, RamMap.host, hR, hR']
    exact hsame g hg
  · -- Host memory that backs no guest address is not written.
    intro x hx
    refine hguest.kept x fun g hg => ?_
    rw [hR, isRam_iff os ramSize around hok] at hg
    rw [RamMap.host, hR]
    exact hx g hg

/-- A host that maps the two slots the other way around. -/
def swappedHost : HostMap := hostAt (2 ^ 46) (2 ^ 45)

theorem swappedHost_lawful : swappedHost.Lawful :=
  hostAt_lawful _ _ (by decide) (by decide) (by decide)

/-- `boot_host_independent` for four megabytes of kernel and eight of ramdisk
    on two hosts. -/
theorem boot_host_independent_swapped : ∃ s s',
    initLinuxBoot (some (zeroFile 0x400000)) (some (zeroFile 0x800000)) sampleBoot = some s ∧
      initLinuxBoot (some (zeroFile 0x400000)) (some (zeroFile 0x800000))
        (bootState swappedHost 0x20000000 (fun _ => ⟨0, 0, 0⟩) fun _ => 0) = some s' ∧
      guestMemory s 0x7210 = guestMemory s' 0x7210 := by
  rcases initLinuxBoot_returns (zeroFile 0x400000) (zeroFile 0x800000) sampleBoot with ⟨s, hs, -⟩
  rcases initLinuxBoot_returns (zeroFile 0x400000) (zeroFile 0x800000)
    (bootState swappedHost 0x20000000 (fun _ => ⟨0, 0, 0⟩) fun _ => 0) with ⟨s', hs', -⟩
  exact ⟨s, s', hs, hs', (boot_host_independent sampleHost swappedHost sampleHost_lawful
    swappedHost_lawful 0x20000000 (fun _ => ⟨0, 0, 0⟩) (fun _ => ⟨0, 0, 0⟩) (by decide) (by decide)
    (by decide) (fun _ => 0) (fun _ => 0) (fun _ _ => rfl) _ _ s s' hs hs' (by decide)
    (by decide)).1 0x7210 (Or.inl (by decide))⟩

end Microv
