import Microv.Core.VirtioBlk

/-!
# Guest Memory Translation

What `get_userspace_addr` guarantees, and for which guest ranges.

A `RamMap` is a mapper array whose two slots are separate both as guest
ranges and as host mappings. `initMemoryMap_ramMap` builds one from a
successful `init_memory_map`, so everything proved about a `RamMap` holds of
the memory the monitor really sets up. On a range that lies in one slot the
translation is a shift (`getUserspaceAddr_inSlot`), and separate guest ranges
become separate host ranges (`hostApart`), which is the form every later
argument about buffers and rings uses.

The code looks at one address and not at a range, and it uses the index it
gets without testing it. `confined_iff_inRam` says what that costs: the host
range the code goes on to use lies inside a slot's mapping exactly when the
guest range lay inside the slot to begin with.

## Main definitions

* `RamMap`: A mapper whose slots are separate.
* `HostMap.Lawful`: What the host kernel promises about its mappings.
* `InRam`: A guest range lies inside one slot.
* `bootMemory`: The statics `init_memory_map` leaves.

## Theorems

* `initMemoryMap_ramMap`: A successful boot gives a `RamMap`.
* `getRamEnd_low`, `getRamEnd_high`: The end of RAM on either side of the gap.
* `bootMemory_slot_zero`, `bootMemory_covers_one`: The slots at a RAM size.
* `getUserspaceAddr_inSlot`: On a slot the translation is a shift.
* `hostApart`: Separate guest ranges have separate host ranges.
* `confined_iff_inRam`: Derived ranges are confined exactly on RAM.
* `blkTransfer_outside`: A disk access writes inside its buffer.
-/

namespace Microv

/-- The guest range `[g, g + len)` starts in the region and ends inside it. -/
def MemRegion.InSlot (r : MemRegion) (g len : Nat) : Prop :=
  r.guestPhysAddr ≤ g ∧ g < r.guestPhysAddr + r.memorySize ∧
    g + len ≤ r.guestPhysAddr + r.memorySize

instance (r : MemRegion) (g len : Nat) : Decidable (r.InSlot g len) :=
  inferInstanceAs (Decidable (_ ∧ _ ∧ _))

/-- A mapper array whose two slots neither wrap nor overlap, as guest ranges
    and as host mappings. -/
structure RamMap where
  mapper : Int → MemRegion
  guest_lt : ∀ i, i = 0 ∨ i = 1 →
    (mapper i).guestPhysAddr + (mapper i).memorySize < 2 ^ 64
  host_le : ∀ i, i = 0 ∨ i = 1 →
    (mapper i).userspaceAddr + (mapper i).memorySize ≤ 2 ^ 64
  guest_apart : Apart (mapper 0).guestPhysAddr (mapper 0).memorySize
    (mapper 1).guestPhysAddr (mapper 1).memorySize
  host_apart : Apart (mapper 0).userspaceAddr (mapper 0).memorySize
    (mapper 1).userspaceAddr (mapper 1).memorySize

/-- What `mmap` promises: a mapping lies in the user half of the address
    space, and two of them do not overlap. -/
structure HostMap.Lawful (os : HostMap) : Prop where
  user : ∀ i size addr, os.mmap i size = some addr → addr + size ≤ 2 ^ 47
  apart : ∀ k l a b, os.mmap 0 k = some a → os.mmap 1 l = some b → Apart a k b l

/-- The address lies in the slot. -/
def MemRegion.Covers (r : MemRegion) (x : Nat) : Prop :=
  r.guestPhysAddr ≤ x ∧ x < r.guestPhysAddr + r.memorySize

/-- The guest range lies wholly inside one RAM slot. -/
def InRam (mapper : Int → MemRegion) (g len : Nat) : Prop :=
  (mapper 0).InSlot g len ∨ (mapper 1).InSlot g len

instance (mapper : Int → MemRegion) (g len : Nat) : Decidable (InRam mapper g len) :=
  inferInstanceAs (Decidable (_ ∨ _))

namespace RamMap

/-- The host pointer for a guest address. -/
def host (R : RamMap) (g : Nat) : Nat :=
  getUserspaceAddr R.mapper g

theorem hit_iff (R : RamMap) (i : Int) (hi : i = 0 ∨ i = 1) (g : Nat) :
    (R.mapper i).hit g = true ↔ (R.mapper i).guestPhysAddr ≤ g ∧
      g < (R.mapper i).guestPhysAddr + (R.mapper i).memorySize := by
  have hlt := R.guest_lt i hi
  simp only [MemRegion.hit, Bool.and_eq_true, decide_eq_true_eq, Nat.mod_eq_of_lt hlt]

/-- The slots are separate, so an address inside one is found there. -/
theorem findMapperIndex_inSlot (R : RamMap) (i : Int) (hi : i = 0 ∨ i = 1) (g len : Nat)
    (h : (R.mapper i).InSlot g len) : findMapperIndex R.mapper g = i := by
  have hap := R.guest_apart
  unfold MemRegion.InSlot at h
  unfold Apart at hap
  have hhit : (R.mapper i).hit g = true := (R.hit_iff i hi g).mpr ⟨h.1, h.2.1⟩
  rcases hi with rfl | rfl
  · simp only [findMapperIndex, hhit, if_true]
  · have hmiss : ¬ (R.mapper 0).hit g = true := by
      rw [R.hit_iff 0 (Or.inl rfl)]
      omega
    simp only [findMapperIndex, hmiss, hhit, if_true, if_false, Bool.false_eq_true]

theorem findMapperIndex_hit (R : RamMap) (i : Int) (hi : i = 0 ∨ i = 1) (g : Nat)
    (h : findMapperIndex R.mapper g = i) : (R.mapper i).hit g = true := by
  unfold findMapperIndex at h
  by_cases h0 : (R.mapper 0).hit g = true
  · rw [if_pos h0] at h
    rw [← h]
    exact h0
  · rw [if_neg h0] at h
    by_cases h1 : (R.mapper 1).hit g = true
    · rw [if_pos h1] at h
      rw [← h]
      exact h1
    · rw [if_neg h1] at h
      omega

/-- Once the index is a slot's, the address is shifted into its mapping. -/
theorem host_of_index (R : RamMap) (i : Int) (hi : i = 0 ∨ i = 1) (g : Nat)
    (h : findMapperIndex R.mapper g = i) :
    R.host g = (R.mapper i).userspaceAddr + (g - (R.mapper i).guestPhysAddr) := by
  have hhit := (R.hit_iff i hi g).mp (R.findMapperIndex_hit i hi g h)
  have hg := R.guest_lt i hi
  have hh := R.host_le i hi
  simp only [host, getUserspaceAddr, h]
  omega

theorem getUserspaceAddr_inSlot (R : RamMap) (i : Int) (hi : i = 0 ∨ i = 1) (g len : Nat)
    (h : (R.mapper i).InSlot g len) :
    R.host g = (R.mapper i).userspaceAddr + (g - (R.mapper i).guestPhysAddr) :=
  R.host_of_index i hi g (R.findMapperIndex_inSlot i hi g len h)

/-- Separate guest ranges in RAM have separate host ranges: inside one slot
    the translation is a shift, and the slots' mappings do not overlap. -/
theorem hostApart (R : RamMap) (g k g' k' : Nat) (h : InRam R.mapper g k)
    (h' : InRam R.mapper g' k')
    (hap : Apart g k g' k') : Apart (R.host g) k (R.host g') k' := by
  have hslots := R.host_apart
  rcases h with h | h <;> rcases h' with h' | h' <;>
    rw [R.getUserspaceAddr_inSlot _ (by decide) g k h,
      R.getUserspaceAddr_inSlot _ (by decide) g' k' h'] <;>
    unfold MemRegion.InSlot at h h' <;> unfold Apart at * <;> omega

end RamMap

/-- What one turn of the registration loop leaves behind when it succeeds. A
    slot of no size is skipped, and its entry keeps what it held. -/
theorem mapSlot_entry (os : HostMap) (ram : Nat × Nat) (i : Nat) (st : MemState)
    (hok : (mapSlot os ram i st).1 = true) :
    (ram.2 = 0 ∧ (mapSlot os ram i st).2.memMapper = st.memMapper) ∨
      ∃ addr, os.mmap i ram.2 = some addr ∧
        (mapSlot os ram i st).2.memMapper
          = fun j : Int => if j = i then ⟨ram.1, ram.2, addr⟩ else st.memMapper j := by
  unfold mapSlot at *
  by_cases hz : ram.2 = 0
  · rw [if_pos hz]
    exact Or.inl ⟨hz, rfl⟩
  · rw [if_neg hz] at hok ⊢
    cases hm : os.mmap i ram.2 with
    | none =>
        rw [hm] at hok
        exact absurd hok Bool.false_ne_true
    | some addr => exact Or.inr ⟨addr, rfl, rfl⟩

/-- After a successful `init_memory_map` each entry describes the slot the RAM
    size calls for, at the address `mmap` returned. -/
theorem initMemoryMap_entries (os : HostMap) (ramSize : Nat) (around : Int → MemRegion)
    (hok : (initMemoryMap os ramSize (memStatics around)).1 = true) :
    ∃ a b, (initMemoryMap os ramSize (memStatics around)).2.memMapper 0
        = ⟨(rams ramSize 0).1, (rams ramSize 0).2, a⟩ ∧
      (initMemoryMap os ramSize (memStatics around)).2.memMapper 1
        = ⟨(rams ramSize 1).1, (rams ramSize 1).2, b⟩ ∧
      ((rams ramSize 0).2 = 0 ∧ a = 0 ∨ os.mmap 0 (rams ramSize 0).2 = some a) ∧
      ((rams ramSize 1).2 = 0 ∧ b = 0 ∨ os.mmap 1 (rams ramSize 1).2 = some b) := by
  -- A slot without size starts at zero, so the untouched entry describes it.
  have hstart : ∀ i, (rams ramSize i).2 = 0 → (rams ramSize i).1 = 0 := by
    intro i hz
    unfold rams at *
    split_ifs at * <;> omega
  unfold initMemoryMap at *
  cases h0 : mapSlot os (rams ramSize 0) 0 { memStatics around with ramSize := ramSize } with
  | mk ok0 st0 =>
      rw [h0] at hok
      cases ok0 with
      | false => exact absurd hok Bool.false_ne_true
      | true =>
          have e0 := mapSlot_entry os (rams ramSize 0) 0
            { memStatics around with ramSize := ramSize } (by rw [h0])
          have e1 := mapSlot_entry os (rams ramSize 1) 1 st0 hok
          rw [h0] at e0
          simp only at e0 e1 ⊢
          generalize (mapSlot os (rams ramSize 1) 1 st0).2.memMapper = final at e1 ⊢
          rcases e0 with ⟨z0, s0⟩ | ⟨a, m0, s0⟩ <;> rcases e1 with ⟨z1, s1⟩ | ⟨b, m1, s1⟩
          · exact ⟨0, 0, by simp [s1, s0, memStatics, z0, hstart 0 z0],
              by simp [s1, s0, memStatics, z1, hstart 1 z1], Or.inl ⟨z0, rfl⟩, Or.inl ⟨z1, rfl⟩⟩
          · exact ⟨0, b, by simp [s1, s0, memStatics, z0, hstart 0 z0],
              by simp [s1], Or.inl ⟨z0, rfl⟩, Or.inr m1⟩
          · exact ⟨a, 0, by simp [s1, s0], by simp [s1, s0, memStatics, z1, hstart 1 z1],
              Or.inr m0, Or.inl ⟨z1, rfl⟩⟩
          · exact ⟨a, b, by simp [s1, s0], by simp [s1], Or.inr m0, Or.inr m1⟩

/-- A successful `init_memory_map` leaves a mapper whose slots are separate.
    The entries around the array play no part. -/
theorem initMemoryMap_ramMap (os : HostMap) (hos : os.Lawful) (ramSize : Nat)
    (around : Int → MemRegion)
    (hok : (initMemoryMap os ramSize (memStatics around)).1 = true) :
    ∃ R : RamMap, R.mapper = (initMemoryMap os ramSize (memStatics around)).2.memMapper := by
  rcases initMemoryMap_entries os ramSize around hok with ⟨a, b, e0, e1, h0, h1⟩
  -- A mapping that was made ends below the user limit; none was made for a size of zero.
  have u0 : a + (rams ramSize 0).2 ≤ 2 ^ 47 := by
    rcases h0 with ⟨hz, ha⟩ | hm
    · omega
    · exact hos.user 0 _ a hm
  have u1 : b + (rams ramSize 1).2 ≤ 2 ^ 47 := by
    rcases h1 with ⟨hz, hb⟩ | hm
    · omega
    · exact hos.user 1 _ b hm
  have happ : Apart a (rams ramSize 0).2 b (rams ramSize 1).2 := by
    rcases h0 with ⟨hz, ha⟩ | hm0
    · exact Or.inl hz
    · rcases h1 with ⟨hz, hb⟩ | hm1
      · exact Or.inr (Or.inl hz)
      · exact hos.apart _ _ a b hm0 hm1
  -- The first slot starts at zero, the second at the end of the gap.
  have hlayout : (rams ramSize 0).1 = 0 ∧ (rams ramSize 1).1 ≤ getGapEnd ∧
      ((rams ramSize 1).2 = 0 ∧ (rams ramSize 1).1 = 0 ∨
        (rams ramSize 0).2 ≤ (rams ramSize 1).1) := by
    have hgap : getGapStart = 0xC0000000 := rfl
    have hend : getGapEnd = 0x100000000 := rfl
    by_cases hle : ramSize ≤ getGapStart
    · simp only [rams, if_pos hle, if_true, one_ne_zero, if_false]
      exact ⟨trivial, by omega, Or.inl ⟨trivial, trivial⟩⟩
    · simp only [rams, if_neg hle, if_true, one_ne_zero, if_false]
      exact ⟨trivial, by omega, Or.inr (by omega)⟩
  have hend : getGapEnd = 0x100000000 := rfl
  refine ⟨⟨(initMemoryMap os ramSize (memStatics around)).2.memMapper, ?_, ?_, ?_, ?_⟩, rfl⟩
  · rintro i (rfl | rfl)
    · rw [e0]
      simp only
      omega
    · rw [e1]
      simp only
      omega
  · rintro i (rfl | rfl)
    · rw [e0]
      simp only
      omega
    · rw [e1]
      simp only
      omega
  · rw [e0, e1]
    unfold Apart
    simp only
    omega
  · rw [e0, e1]
    exact happ

theorem sub64_eq {a b : Nat} (hle : b ≤ a) (hlt : a < 2 ^ 64) : sub64 a b = a - b := by
  unfold sub64
  omega

theorem mapSlot_ramSize (os : HostMap) (ram : Nat × Nat) (i : Nat) (st : MemState) :
    (mapSlot os ram i st).2.ramSize = st.ramSize := by
  unfold mapSlot
  by_cases hz : ram.2 = 0
  · rw [if_pos hz]
  · rw [if_neg hz]
    cases os.mmap i ram.2 with
    | none => rfl
    | some addr => rfl

theorem initMemoryMap_ramSize (os : HostMap) (ramSize : Nat) (st : MemState) :
    (initMemoryMap os ramSize st).2.ramSize = ramSize := by
  have h0 := mapSlot_ramSize os (rams ramSize 0) 0 { st with ramSize := ramSize }
  unfold initMemoryMap
  cases hm : mapSlot os (rams ramSize 0) 0 { st with ramSize := ramSize } with
  | mk ok st' =>
      rw [hm] at h0
      cases ok with
      | false => exact h0
      | true => exact (mapSlot_ramSize os (rams ramSize 1) 1 st').trans h0

theorem getRamEnd_low (st : MemState) (h : st.ramSize ≤ getGapStart) :
    getRamEnd st = st.ramSize := by
  have hgap : getGapStart = 0xC0000000 := rfl
  unfold getRamEnd
  rw [if_pos (show st.ramSize ≤ (memLayout .memBelow4g).2 from h)]
  simp only [memLayout]
  omega

theorem getRamEnd_high (st : MemState) (h : getGapStart < st.ramSize) (hlt : st.ramSize < 2 ^ 63) :
    getRamEnd st = getGapEnd + (st.ramSize - getGapStart) := by
  have hgap : getGapStart = 0xC0000000 := rfl
  have hend : getGapEnd = 0x100000000 := rfl
  unfold getRamEnd
  rw [if_neg (show ¬ st.ramSize ≤ (memLayout .memBelow4g).2 from Nat.not_le.mpr h)]
  simp only [memLayout]
  rw [sub64_eq (by omega) (by omega)]
  omega

/-- The statics `init_memory_map` leaves. -/
def bootMemory (os : HostMap) (ramSize : Nat) (around : Int → MemRegion) : MemState :=
  (initMemoryMap os ramSize (memStatics around)).2

section Boot

variable (os : HostMap) (ramSize : Nat) (around : Int → MemRegion)
  (hok : (initMemoryMap os ramSize (memStatics around)).1 = true)

include hok

/-- The first slot holds what lies below the gap. -/
theorem bootMemory_slot_zero :
    ∃ a, (bootMemory os ramSize around).memMapper 0 = ⟨0, min ramSize getGapStart, a⟩ := by
  rcases initMemoryMap_entries os ramSize around hok with ⟨a, _, e0, _⟩
  refine ⟨a, e0.trans ?_⟩
  unfold rams
  by_cases hle : ramSize ≤ getGapStart
  · rw [if_pos hle, if_pos rfl, min_eq_left hle]
  · rw [if_neg hle, if_pos rfl, min_eq_right (by omega)]

/-- The second holds the rest, and starts where the gap ends. -/
theorem bootMemory_covers_one (x : Nat) :
    ((bootMemory os ramSize around).memMapper 1).Covers x ↔
      getGapEnd ≤ x ∧ x < getGapEnd + (ramSize - getGapStart) := by
  rcases initMemoryMap_entries os ramSize around hok with ⟨_, b, _, e1, _⟩
  rw [bootMemory, e1]
  unfold rams MemRegion.Covers
  by_cases hle : ramSize ≤ getGapStart
  · simp only [if_pos hle, one_ne_zero, if_false]
    omega
  · simp only [if_neg hle, one_ne_zero, if_false]

/-- A host that keeps its promises maps no more than the user half. -/
theorem ramSize_le_of_lawful (hos : os.Lawful) : ramSize ≤ getGapStart + 2 ^ 47 := by
  rcases initMemoryMap_entries os ramSize around hok with ⟨_, b, _, _, _, h1⟩
  by_cases hle : ramSize ≤ getGapStart
  · exact le_trans hle (Nat.le_add_right _ _)
  · have hrest : (rams ramSize 1).2 = ramSize - getGapStart := by
      simp only [rams, if_neg hle, one_ne_zero, if_false]
    rcases h1 with ⟨hz, _⟩ | hm
    · omega
    · have hb := hos.user 1 _ b hm
      rw [hrest] at hb
      omega

end Boot

theorem RamMap.confined_iff_inRam (R : RamMap) (u : GuestUse) :
    Confined R.mapper u ↔ InRam R.mapper u.addr u.len := by
  -- One slot: confinement there is containment there, the address being found.
  have key : ∀ i, i = 0 ∨ i = 1 →
      (ConfinedIn R.mapper i u ↔ (R.mapper i).InSlot u.addr u.len) := by
    intro i hi
    constructor
    · rintro ⟨hidx, _, hend⟩
      have hhit := (R.hit_iff i hi u.addr).mp (R.findMapperIndex_hit i hi u.addr hidx)
      have hhost := R.host_of_index i hi u.addr hidx
      rw [RamMap.host] at hhost
      unfold MemRegion.InSlot
      omega
    · intro hs
      have hhost := R.getUserspaceAddr_inSlot i hi u.addr u.len hs
      rw [RamMap.host] at hhost
      unfold MemRegion.InSlot at hs
      exact ⟨R.findMapperIndex_inSlot i hi u.addr u.len hs, by omega, by omega⟩
  unfold Confined InRam
  rw [key 0 (Or.inl rfl), key 1 (Or.inr rfl)]

/-- A read delivers at most what was asked for. -/
theorem virtioBlkRead_length (img : Diskimg) (sector size : Nat) :
    (virtioBlkRead img sector size).2.length ≤ size := by
  unfold virtioBlkRead diskimgRead
  split_ifs
  · simp only [File.pread, ByteMem.length_read]
    omega
  · simp only [List.length_nil, Nat.zero_le]

/-- A disk access changes memory only inside the data buffer. -/
theorem blkTransfer_outside (mem : ByteMem) (img : Diskimg) (type sector data len x : Nat)
    (hx : x < data ∨ data + len ≤ x) :
    (blkTransfer mem img type sector data len).2.1 x = mem x := by
  unfold blkTransfer
  by_cases ht : type = blkTIn
  · rw [if_pos ht]
    have hlen := virtioBlkRead_length img sector len
    exact ByteMem.write_outside _ _ _ _ (by omega)
  · rw [if_neg ht]

/-- The mapper array the monitor runs with. -/
def bootMapper (os : HostMap) (ramSize : Nat) (around : Int → MemRegion) : Int → MemRegion :=
  (initMemoryMap os ramSize (memStatics around)).2.memMapper

/-- The handler entered on a queue that was just enabled. -/
def Handler.entered (mapper : Int → MemRegion) (vq : Virtq) (s : Handler) : Handler :=
  { s with vq := virtqEnable mapper vq, pc := .getHead }

/-- A host that maps the two slots at `a` and `b`. -/
def hostAt (a b : Nat) : HostMap :=
  { mmap := fun i size => if size ≤ 2 ^ 40 then some (if i = 0 then a else b) else none,
    setRegion := fun _ => true }

theorem hostAt_lawful (a b : Nat) (ha : a + 2 ^ 40 ≤ 2 ^ 47) (hb : b + 2 ^ 40 ≤ 2 ^ 47)
    (hapart : a + 2 ^ 40 ≤ b ∨ b + 2 ^ 40 ≤ a) : (hostAt a b).Lawful := by
  constructor
  · intro i size addr h
    simp only [hostAt] at h
    split_ifs at h <;> simp only [Option.some.injEq] at h <;> omega
  · intro k l x y hx hy
    simp only [hostAt, if_true, one_ne_zero, if_false] at hx hy
    split_ifs at hx hy
    simp only [Option.some.injEq] at hx hy
    unfold Apart
    omega

/-- A host that maps the two slots a fixed distance apart. -/
def sampleHost : HostMap := hostAt (2 ^ 45) (2 ^ 46)

theorem sampleHost_lawful : sampleHost.Lawful :=
  hostAt_lawful _ _ (by decide) (by decide) (by decide)

/-- The monitor's 512 MiB guest. -/
def sampleMapper : Int → MemRegion :=
  bootMapper sampleHost 0x20000000 (fun _ => ⟨0, 0, 0⟩)

/-- A queue the guest has programmed with addresses in RAM. -/
def sampleQueue : Virtq :=
  { descRing := 0, deviceEvent := 0, guestEvent := 0,
    info := ⟨128, 0, 0, 0, 0x1000, 0x2000, 0x3000⟩,
    dev := 0, nextAvailIdx := 0, usedWrapCount := true, handleOutput := 0 }

/-- Guest memory whose first descriptor is available and chained, and gives
    `len` bytes at `addr` as a request header. -/
def headerAt (addr len : Nat) : Handler :=
  { vq := sampleQueue, img := ⟨⟨fun _ => 0, 0⟩, 0⟩, isrStatus := 0, irqs := 0,
    mem := ByteMem.write (fun _ => 0) (2 ^ 45 + 0x1000)
      (VringPackedDesc.bytes ⟨addr, len, 0, 0x81⟩),
    req := fun _ => 0, pc := .done, taken := [], log := [] }

end Microv
