import Microv.Theory.GuestMemory

/-!
# Guest-Physical Translation

The whole of the guest-physical address space as `init_memory_map` leaves it:
which slots there are, which addresses they hold, and where each address
goes.

Three functions of `memory.c` decide by a comparison of their own which side
of the gap the RAM ends on: the registration, `get_ram_end` and
`find_mapper_index`. `bootMemory_slot_one` gives the second slot on both
sides, unused and zero on one and the rest of the RAM on the other, and the
facts about the layout are then arithmetic on two slots.

The facts about the translation need only that the slots are separate, and
are stated for any `RamMap`. An address is in RAM when some slot covers it,
and there the translation is a shift into that slot's mapping. Two addresses
of one slot stay as far apart as they were; two addresses of different slots
land in different mappings.

## Main definitions

* `registered`: The slots the kernel was told about, in order.
* `GuestLayout`: What holds of the slots as ranges of guest addresses.

## Theorems

* `bootMemory_slot_one`: The second slot, used or not.
* `registered_bootMemory`: One slot below the gap, and one above it if needed.
* `guestLayout_bootMemory`: The slots at every RAM size.
* `findMapperIndex_covers_iff`: The lookup finds exactly the covering slot.
* `host_injective`: Different addresses of RAM have different host addresses.
* `host_add`: Inside a slot the translation keeps distances.
* `writeUserspaceMemory_byte`: Each byte copied in lands where its own guest
  address is translated to.
* `guestPhysical_translation`: The layout and the translation at every RAM
  size.
-/

namespace Microv

/-- The indices of `MemMapper` that were registered: an entry without size is
    skipped by the loop and stays zero. -/
def registered (st : MemState) : List Int :=
  [0, 1].filter (fun i => decide ((st.memMapper i).memorySize ≠ 0))

theorem mem_registered {st : MemState} {i : Int} :
    i ∈ registered st ↔ (i = 0 ∨ i = 1) ∧ (st.memMapper i).memorySize ≠ 0 := by
  simp [registered]

section Boot

variable (os : HostMap) (ramSize : Nat) (around : Int → MemRegion)
  (hok : (initMemoryMap os ramSize (memStatics around)).1 = true)

include hok

/-- The second slot is the rest of the RAM, and all zero when there is no
    rest. -/
theorem bootMemory_slot_one :
    ∃ b, (bootMemory os ramSize around).memMapper 1
      = ⟨if ramSize ≤ getGapStart then 0 else getGapEnd, ramSize - getGapStart, b⟩ := by
  rcases initMemoryMap_entries os ramSize around hok with ⟨_, b, _, e1, _⟩
  refine ⟨b, e1.trans ?_⟩
  unfold rams
  by_cases hle : ramSize ≤ getGapStart
  · rw [if_pos hle, if_neg one_ne_zero, if_pos hle, Nat.sub_eq_zero_of_le hle]
  · rw [if_neg hle, if_neg one_ne_zero, if_neg hle]

/-- RAM below the gap is one slot, and what does not fit there is another. -/
theorem registered_bootMemory (hpos : 0 < ramSize) :
    registered (bootMemory os ramSize around)
      = if ramSize ≤ getGapStart then [0] else [0, 1] := by
  rcases bootMemory_slot_zero os ramSize around hok with ⟨a, e0⟩
  rcases bootMemory_slot_one os ramSize around hok with ⟨b, e1⟩
  have hgap : getGapStart = 0xC0000000 := rfl
  have h0 : ((bootMemory os ramSize around).memMapper 0).memorySize ≠ 0 := by
    rw [e0]
    simp only
    omega
  unfold registered
  -- The second slot has a size exactly when RAM goes beyond the gap.
  by_cases hle : ramSize ≤ getGapStart
  · have h1 : ((bootMemory os ramSize around).memMapper 1).memorySize = 0 := by
      rw [e1]
      simp only
      omega
    rw [if_pos hle]
    simp [h0, h1]
  · have h1 : ((bootMemory os ramSize around).memMapper 1).memorySize ≠ 0 := by
      rw [e1]
      simp only
      omega
    rw [if_neg hle]
    simp [h0, h1]

end Boot

namespace RamMap

variable (R : RamMap)

/-- The lookup finds slot `i` for exactly the addresses slot `i` covers: the
    slots do not overlap, so being tried first gives slot 0 nothing of slot
    1's. -/
theorem findMapperIndex_covers_iff (i : Int) (hi : i = 0 ∨ i = 1) (x : Nat) :
    findMapperIndex R.mapper x = i ↔ (R.mapper i).Covers x := by
  constructor
  · intro h
    exact (R.hit_iff i hi x).mp (R.findMapperIndex_hit i hi x h)
  · intro h
    exact R.findMapperIndex_inSlot i hi x 0 ⟨h.1, h.2, Nat.le_of_lt h.2⟩

/-- Inside a slot the translation is a shift. -/
theorem host_of_covers {i : Int} (hi : i = 0 ∨ i = 1) {x : Nat} (h : (R.mapper i).Covers x) :
    R.host x = (R.mapper i).userspaceAddr + (x - (R.mapper i).guestPhysAddr) :=
  R.host_of_index i hi x ((R.findMapperIndex_covers_iff i hi x).mpr h)

/-- Inside a slot the translation keeps distances. -/
theorem host_add {i : Int} (hi : i = 0 ∨ i = 1) {x k : Nat} (h : (R.mapper i).Covers x)
    (hk : (R.mapper i).Covers (x + k)) : R.host (x + k) = R.host x + k := by
  rw [R.host_of_covers hi h, R.host_of_covers hi hk]
  have hlow := h.1
  omega

/-- Different addresses of RAM have different host addresses. -/
theorem host_injective {i j : Int} (hi : i = 0 ∨ i = 1) (hj : j = 0 ∨ j = 1) {x y : Nat}
    (hx : (R.mapper i).Covers x) (hy : (R.mapper j).Covers y) (heq : R.host x = R.host y) :
    x = y := by
  have ex := R.host_of_covers hi hx
  have ey := R.host_of_covers hj hy
  have hap := R.host_apart
  unfold Apart at hap
  unfold MemRegion.Covers at hx hy
  -- In one slot both were shifted alike, and in two the mappings would meet.
  rcases hi with rfl | rfl <;> rcases hj with rfl | rfl <;> omega

/-- `write_userspace_memory` translates only the first address, but as long as
    the range stays in the slot each byte lands where its own address is
    translated to. -/
theorem writeUserspaceMemory_byte {i : Int} (hi : i = 0 ∨ i = 1) (mem : ByteMem)
    (src : List UInt8) (x : Nat) (h : (R.mapper i).InSlot x src.length) (k : Fin src.length) :
    writeUserspaceMemory R.mapper mem src x (R.host (x + k)) = src.get k := by
  have hk := k.isLt
  have hx : (R.mapper i).Covers x := ⟨h.1, h.2.1⟩
  have hxk : (R.mapper i).Covers (x + k) := ⟨le_trans h.1 (Nat.le_add_right x k), by
    have hend := h.2.2
    omega⟩
  rw [R.host_add hi hx hxk]
  exact ByteMem.write_inside mem (R.host x) src k hk

end RamMap

/-- The slots do not overlap and keep out of the gap, they hold as many bytes
    as were asked for, and the last ends where `get_ram_end` says. -/
structure GuestLayout (st : MemState) (ramSize : Nat) : Prop where
  disjoint : (registered st).Pairwise fun i j =>
    Apart (st.memMapper i).guestPhysAddr (st.memMapper i).memorySize
      (st.memMapper j).guestPhysAddr (st.memMapper j).memorySize
  total : ((registered st).map fun i => (st.memMapper i).memorySize).sum = ramSize
  gap : ∀ i ∈ registered st, Apart (st.memMapper i).guestPhysAddr (st.memMapper i).memorySize
    getGapStart (getGapEnd - getGapStart)
  ramEnd : ∃ i, (registered st).getLast? = some i ∧
    getRamEnd st = (st.memMapper i).guestPhysAddr + (st.memMapper i).memorySize

/-- The layout is arithmetic on the two slots, on either side of the gap. -/
theorem guestLayout_bootMemory (os : HostMap) (ramSize : Nat) (around : Int → MemRegion)
    (hpos : 0 < ramSize) (hmax : ramSize < 2 ^ 63)
    (hok : (initMemoryMap os ramSize (memStatics around)).1 = true) :
    GuestLayout (bootMemory os ramSize around) ramSize := by
  have hslots := registered_bootMemory os ramSize around hok hpos
  have hsize : (bootMemory os ramSize around).ramSize = ramSize :=
    initMemoryMap_ramSize os ramSize (memStatics around)
  rcases bootMemory_slot_zero os ramSize around hok with ⟨a, e0⟩
  rcases bootMemory_slot_one os ramSize around hok with ⟨b, e1⟩
  generalize bootMemory os ramSize around = st at hslots hsize e0 e1 ⊢
  have hgap : getGapStart = 0xC0000000 := rfl
  have hend : getGapEnd = 0x100000000 := rfl
  -- Below the gap one slot has all of RAM.
  by_cases hle : ramSize ≤ getGapStart
  · rw [if_pos hle] at hslots
    have hram := getRamEnd_low st (hsize ▸ hle)
    refine ⟨?_, ?_, ?_, 0, ?_, ?_⟩
    · rw [hslots]
      exact List.pairwise_singleton _ _
    · rw [hslots, List.map_singleton, List.sum_singleton, e0]
      exact min_eq_left hle
    · intro i hi
      rw [hslots] at hi
      rw [List.mem_singleton.mp hi, e0]
      unfold Apart
      simp only
      omega
    · rw [hslots]
      rfl
    · rw [hram, hsize, e0]
      simp only
      omega
  · -- Beyond it the second slot takes up at the end of the gap.
    rw [if_neg hle] at hslots e1
    have hram := getRamEnd_high st (by omega) (by omega)
    refine ⟨?_, ?_, ?_, 1, ?_, ?_⟩
    · rw [hslots, List.pairwise_pair, e0, e1]
      unfold Apart
      simp only
      omega
    · rw [hslots, List.map_cons, List.map_singleton, List.sum_cons, List.sum_singleton, e0, e1]
      rw [min_eq_right (Nat.le_of_not_le hle)]
      exact Nat.add_sub_of_le (Nat.le_of_not_le hle)
    · intro i hi
      rw [hslots] at hi
      unfold Apart
      rcases List.mem_pair.mp hi with rfl | rfl
      · rw [e0]
        simp only
        omega
      · rw [e1]
        simp only
        omega
    · rw [hslots]
      rfl
    · rw [hram, hsize, e1]

/-- The slots of a booted guest, and the translation over them, at every RAM
    size the layout has room for. The last conjunct says that a copy into the
    guest goes where the translation sends its first address, and the one
    before it that this is also where it sends each of the others. -/
theorem guestPhysical_translation (os : HostMap) (hos : os.Lawful) (ramSize : Nat)
    (around : Int → MemRegion) (hpos : 0 < ramSize)
    (hmax : ramSize ≤ 0xC0000000 + 0x8000000000)
    (hok : (initMemoryMap os ramSize (memStatics around)).1 = true) (st : MemState)
    (hst : st = bootMemory os ramSize around) :
    (registered st).Pairwise (fun i j =>
      Apart (st.memMapper i).guestPhysAddr (st.memMapper i).memorySize
        (st.memMapper j).guestPhysAddr (st.memMapper j).memorySize) ∧
    ((registered st).map fun i => (st.memMapper i).memorySize).sum = ramSize ∧
    (∀ i ∈ registered st, Apart (st.memMapper i).guestPhysAddr (st.memMapper i).memorySize
      getGapStart (getGapEnd - getGapStart)) ∧
    (∃ i, (registered st).getLast? = some i ∧
      getRamEnd st = (st.memMapper i).guestPhysAddr + (st.memMapper i).memorySize) ∧
    (∀ x i, 0 ≤ i →
      (findMapperIndex st.memMapper x = i ↔ i ∈ registered st ∧ (st.memMapper i).Covers x)) ∧
    (∀ x y, (∃ i ∈ registered st, (st.memMapper i).Covers x) →
      (∃ i ∈ registered st, (st.memMapper i).Covers y) →
      getUserspaceAddr st.memMapper x = getUserspaceAddr st.memMapper y → x = y) ∧
    (∀ i ∈ registered st, ∀ x, (st.memMapper i).Covers x → (st.memMapper i).Covers (x + 1) →
      getUserspaceAddr st.memMapper (x + 1) = getUserspaceAddr st.memMapper x + 1) ∧
    (∀ i ∈ registered st, ∀ mem src x, (st.memMapper i).InSlot x src.length →
      ∀ k : Fin src.length, writeUserspaceMemory st.memMapper mem src x
        (getUserspaceAddr st.memMapper (x + k)) = src.get k) ∧
    ∀ mem src x, writeUserspaceMemory st.memMapper mem src x
      = mem.write (getUserspaceAddr st.memMapper x) src := by
  have hlayout := guestLayout_bootMemory os ramSize around hpos (by omega) hok
  rw [← hst] at hlayout
  rcases initMemoryMap_ramMap os hos ramSize around hok with ⟨R, hR⟩
  have hmapper : R.mapper = st.memMapper := by rw [hR, hst, bootMemory]
  have hhost : ∀ x, R.host x = getUserspaceAddr st.memMapper x := by
    intro x
    rw [← hmapper]
    rfl
  have hslot : ∀ i ∈ registered st, i = 0 ∨ i = 1 := fun i hi => (mem_registered.mp hi).1
  refine ⟨hlayout.disjoint, hlayout.total, hlayout.gap, hlayout.ramEnd, ?_, ?_, ?_, ?_, ?_⟩
  · intro x i hi0
    have hfind := fun hi => R.findMapperIndex_covers_iff i hi x
    rw [hmapper] at hfind
    constructor
    · intro h
      have hi : i = 0 ∨ i = 1 := by
        unfold findMapperIndex at h
        split_ifs at h <;> omega
      -- A slot that covers an address has a size, so it was registered.
      have hc := (hfind hi).mp h
      have hlow := hc.1
      have hhigh := hc.2
      exact ⟨mem_registered.mpr ⟨hi, by omega⟩, hc⟩
    · rintro ⟨hi, hc⟩
      exact (hfind (hslot i hi)).mpr hc
  · rintro x y ⟨i, hi, hx⟩ ⟨j, hj, hy⟩ heq
    rw [← hmapper] at hx hy
    rw [← hhost, ← hhost] at heq
    exact R.host_injective (hslot i hi) (hslot j hj) hx hy heq
  · intro i hi x hx hx1
    rw [← hmapper] at hx hx1
    rw [← hhost, ← hhost]
    exact R.host_add (hslot i hi) hx hx1
  · intro i hi mem src x hin k
    rw [← hmapper] at hin
    rw [← hhost, ← hmapper]
    exact R.writeUserspaceMemory_byte (hslot i hi) mem src x hin k
  · intro mem src x
    rfl

/-- A guest with 4 GiB has a slot on either side of the gap. -/
theorem guestPhysical_translation_4gib :
    (initMemoryMap sampleHost 0x100000000 (memStatics fun _ => ⟨0, 0, 0⟩)).1 = true ∧
    ((registered (bootMemory sampleHost 0x100000000 fun _ => ⟨0, 0, 0⟩)).map fun i =>
      ((bootMemory sampleHost 0x100000000 fun _ => ⟨0, 0, 0⟩).memMapper i).memorySize).sum
        = 0x100000000 :=
  ⟨by decide, (guestPhysical_translation sampleHost sampleHost_lawful 0x100000000 _ (by decide)
    (by decide) (by decide) _ rfl).2.1⟩

end Microv
