import Microv.Core.BootParams
import Microv.Theory.GuestMemory

/-!
# The Memory Map a Kernel Is Told

`setup_e820` and `init_memory_map` each work out the layout of RAM on their
own: one splits the RAM size over the slots it registers, the other asks for
the end of RAM and compares it with the gap. `e820_agrees` is that the two
never differ, at any RAM size the layout has room for.

The table is taken from memory, where a kernel finds it, and not from the
values that were assigned: `e820Table_setupE820` reads it back. What remains
is arithmetic on three boundaries, the two ends of the gap and the end of RAM.

## Main definitions

* `e820Table`: The memory map read back from the zero page.
* `E820Agrees`: The map agrees with the slots.
* `e820Entries`: The entries that are assigned, given the end of RAM.
* `bootState`: The state the boot setup starts from.
* `initMemoryMapSubs`, `getRamEndSubs`, `setupE820Subs`: The operands of the
  64-bit subtractions on the way.
* `SubsTaken`: These are the subtractions of the code.

## Theorems

* `e820At_putE820`: Reading back an entry.
* `e820Table_setupE820`: Reading back the map.
* `e820_agrees`: The map agrees with the slots at every RAM size.
-/

namespace Microv

/-- The entry at `e820_table[i]`. -/
def e820At (mem : ByteMem) (bootParams i : Nat) : BootE820Entry :=
  { addr := mem.le (bootParams + 0x2d0 + 20 * i) 8,
    size := mem.le (bootParams + 0x2d0 + 20 * i + 8) 8,
    type := mem.le (bootParams + 0x2d0 + 20 * i + 16) 4 }

/-- The first `e820_entries` entries of the table. -/
def e820Table (mem : ByteMem) (bootParams : Nat) : List BootE820Entry :=
  (List.range (mem.le (bootParams + 0x1e8) 1)).map (e820At mem bootParams)

/-- The address lies in the entry's range. -/
def BootE820Entry.Covers (e : BootE820Entry) (x : Nat) : Prop :=
  e.addr ≤ x ∧ x < e.addr + e.size

/-- The memory map agrees with the slots. A slot was registered when its size
    is not zero. -/
structure E820Agrees (mapper : Int → MemRegion) (table : List BootE820Entry) : Prop where
  sorted : table.Pairwise fun e f => e.addr < f.addr
  disjoint : table.Pairwise fun e f => Apart e.addr e.size f.addr f.size
  inside : ∀ e ∈ table, e.type = e820Ram → ∃ i, (i = 0 ∨ i = 1) ∧ (mapper i).memorySize ≠ 0 ∧
    (mapper i).guestPhysAddr ≤ e.addr ∧
    e.addr + e.size ≤ (mapper i).guestPhysAddr + (mapper i).memorySize
  gap : ∀ e ∈ table, e.addr + e.size ≤ getGapStart ∨ getGapEnd ≤ e.addr
  cover : ∀ x, (∃ e ∈ table, e.type = e820Ram ∧ e.Covers x) ∨
    (mptableStart ≤ x ∧ x < vmlinuxRamStart) ↔ ∃ i, (i = 0 ∨ i = 1) ∧ (mapper i).Covers x

section ReadBack

variable (mem : ByteMem) (bootParams : Nat)

theorem e820At_putE820 (i : Nat) (e : BootE820Entry) (ha : e.addr < 2 ^ 64) (hs : e.size < 2 ^ 64)
    (ht : e.type < 2 ^ 32) : e820At (putE820 bootParams i e mem) bootParams i = e := by
  unfold e820At putE820
  generalize bootParams + 0x2d0 + 20 * i = a
  -- The three fields are written one after the other.
  have hbytes : mem.write a e.bytes
      = ((mem.writeLE a 8 e.addr).writeLE (a + 8) 8 e.size).writeLE (a + 16) 4 e.type := by
    simp only [BootE820Entry.bytes, ByteMem.writeLE, ByteMem.write_append, List.length_append,
      ByteMem.length_leBytes]
  have haddr : (mem.write a e.bytes).le a 8 = e.addr := by
    rw [hbytes, ByteMem.le_writeLE_apart _ _ _ _ _ _ (by unfold Apart; omega),
      ByteMem.le_writeLE_apart _ _ _ _ _ _ (by unfold Apart; omega),
      ByteMem.le_writeLE_self _ _ _ _ (by omega)]
  have hsize : (mem.write a e.bytes).le (a + 8) 8 = e.size := by
    rw [hbytes, ByteMem.le_writeLE_apart _ _ _ _ _ _ (by unfold Apart; omega),
      ByteMem.le_writeLE_self _ _ _ _ (by omega)]
  have htype : (mem.write a e.bytes).le (a + 16) 4 = e.type := by
    rw [hbytes, ByteMem.le_writeLE_self _ _ _ _ (by omega)]
  rw [haddr, hsize, htype]

theorem BootE820Entry.length_bytes (e : BootE820Entry) : e.bytes.length = 20 := by
  simp only [BootE820Entry.bytes, List.length_append, ByteMem.length_leBytes]

theorem e820At_putE820_ne (i j : Nat) (e : BootE820Entry) (h : i ≠ j) :
    e820At (putE820 bootParams i e mem) bootParams j = e820At mem bootParams j := by
  have hsep : ∀ o k, o + k ≤ 20 →
      (putE820 bootParams i e mem).le (bootParams + 0x2d0 + 20 * j + o) k
        = mem.le (bootParams + 0x2d0 + 20 * j + o) k := by
    intro o k hok
    refine ByteMem.le_write_apart _ _ _ _ _ ?_
    rw [BootE820Entry.length_bytes]
    unfold Apart
    omega
  have h0 := hsep 0 8 (by omega)
  rw [Nat.add_zero] at h0
  simp only [e820At, h0, hsep 8 8 (by omega), hsep 16 4 (by omega)]

theorem e820At_putE820Entries (n i : Nat) :
    e820At (putE820Entries bootParams n mem) bootParams i = e820At mem bootParams i := by
  have hsep : ∀ o k, (putE820Entries bootParams n mem).le (bootParams + 0x2d0 + 20 * i + o) k
      = mem.le (bootParams + 0x2d0 + 20 * i + o) k := by
    intro o k
    exact ByteMem.le_writeLE_apart _ _ _ _ _ _ (by unfold Apart; omega)
  have h0 := hsep 0 8
  rw [Nat.add_zero] at h0
  simp only [e820At, h0, hsep]

theorem le_putE820Entries (n : Nat) (h : n < 256) :
    (putE820Entries bootParams n mem).le (bootParams + 0x1e8) 1 = n :=
  ByteMem.le_writeLE_self _ _ _ _ (by omega)

end ReadBack

/-- The entries assigned one behind the other, from the `i`-th on. -/
def putE820All (bootParams : Nat) : Nat → List BootE820Entry → ByteMem → ByteMem
  | _, [], mem => mem
  | i, e :: es, mem => putE820All bootParams (i + 1) es (putE820 bootParams i e mem)

/-- The entry's values are within the widths of its fields. -/
def BootE820Entry.Fits (e : BootE820Entry) : Prop :=
  e.addr < 2 ^ 64 ∧ e.size < 2 ^ 64 ∧ e.type < 2 ^ 32

theorem e820At_putE820All_lt (bootParams i j : Nat) (es : List BootE820Entry) (mem : ByteMem)
    (h : j < i) :
    e820At (putE820All bootParams i es mem) bootParams j = e820At mem bootParams j := by
  induction es generalizing i mem with
  | nil => rfl
  | cons e es ih =>
      rw [putE820All, ih (i + 1) _ (by omega), e820At_putE820_ne _ _ _ _ _ (by omega)]

theorem map_e820At_putE820All (bootParams i : Nat) (es : List BootE820Entry) (mem : ByteMem)
    (h : ∀ e ∈ es, e.Fits) :
    (List.range es.length).map (fun j => e820At (putE820All bootParams i es mem) bootParams (i + j))
      = es := by
  induction es generalizing i mem with
  | nil => rfl
  | cons e es ih =>
      rcases h e List.mem_cons_self with ⟨ha, hs, ht⟩
      have hhead : e820At (putE820All bootParams i (e :: es) mem) bootParams i = e := by
        rw [putE820All, e820At_putE820All_lt _ _ _ _ _ (Nat.lt_succ_self i)]
        exact e820At_putE820 mem bootParams i e ha hs ht
      have htail := ih (i + 1) (putE820 bootParams i e mem)
        (fun f hf => h f (List.mem_cons_of_mem e hf))
      rw [List.length_cons, List.range_succ_eq_map, List.map_cons, List.map_map, Nat.add_zero,
        hhead]
      refine congrArg (List.cons e) (Eq.trans (List.map_congr_left ?_) htail)
      intro j _
      rw [Function.comp_apply, show i + Nat.succ j = i + 1 + j by omega, putE820All]

instance BootE820Entry.decidableFits (e : BootE820Entry) : Decidable e.Fits :=
  inferInstanceAs (Decidable (_ ∧ _ ∧ _))

/-- The entries below `VMLINUX_RAM_START`, which do not depend on the size. -/
def e820Low : List BootE820Entry :=
  [⟨realModeIvtStart, mptableStart - realModeIvtStart, e820Ram⟩,
    ⟨mptableStart, vgaRamStart - mptableStart, e820Reserved⟩,
    ⟨mbBiosStart, 0, e820Reserved⟩]

/-- The entries `setup_e820` assigns, given the end of RAM. -/
def e820Entries (ramEnd : Nat) : List BootE820Entry :=
  e820Low ++
  if ramEnd ≤ getGapEnd then
    [⟨vmlinuxRamStart, sub64 ramEnd vmlinuxRamStart, e820Ram⟩]
  else
    [⟨vmlinuxRamStart, sub64 getGapStart vmlinuxRamStart, e820Ram⟩,
      ⟨getGapEnd, sub64 ramEnd getGapEnd, e820Ram⟩]

theorem e820Entries_fits (ramEnd : Nat) : ∀ e ∈ e820Entries ramEnd, e.Fits := by
  have hsub : ∀ a b, sub64 a b < 2 ^ 64 := fun a b => Nat.mod_lt _ (by decide)
  have hplace : vmlinuxRamStart < 2 ^ 64 ∧ getGapEnd < 2 ^ 64 ∧ e820Ram < 2 ^ 32 := by decide
  intro e he
  unfold e820Entries at he
  rcases List.mem_append.mp he with hlow | hhigh
  · have hfits : ∀ f ∈ e820Low, f.Fits := by decide
    exact hfits e hlow
  · split_ifs at hhigh
    · rw [List.mem_singleton.mp hhigh]
      exact ⟨hplace.1, hsub _ _, hplace.2.2⟩
    · rcases List.mem_cons.mp hhigh with rfl | hlast
      · exact ⟨hplace.1, hsub _ _, hplace.2.2⟩
      · rw [List.mem_singleton.mp hlast]
        exact ⟨hplace.2.1, hsub _ _, hplace.2.2⟩

theorem length_e820Entries_le (ramEnd : Nat) : (e820Entries ramEnd).length ≤ 5 := by
  unfold e820Entries e820Low
  split_ifs <;> simp only [List.length_append, List.length_cons, List.length_nil] <;> omega

theorem setupE820_mem (bootParams : Nat) (s : BootState) :
    (setupE820 bootParams s).mem
      = putE820Entries bootParams (e820Entries (getRamEnd s.toMemState)).length
          (putE820All bootParams 0 (e820Entries (getRamEnd s.toMemState))
            (putE820Entries bootParams 0 s.mem)) := by
  unfold setupE820 e820Entries
  by_cases hgap : getRamEnd s.toMemState ≤ getGapEnd
  · simp only [if_pos hgap]
    rfl
  · simp only [if_neg hgap]
    rfl

/-- The table a kernel finds is the one that was assigned. -/
theorem e820Table_setupE820 (bootParams : Nat) (s : BootState) :
    e820Table (setupE820 bootParams s).mem bootParams = e820Entries (getRamEnd s.toMemState) := by
  have hlen := length_e820Entries_le (getRamEnd s.toMemState)
  have hback := map_e820At_putE820All bootParams 0 (e820Entries (getRamEnd s.toMemState))
    (putE820Entries bootParams 0 s.mem) (e820Entries_fits _)
  rw [setupE820_mem, e820Table, le_putE820Entries _ _ _ (by omega)]
  refine Eq.trans (List.map_congr_left ?_) hback
  intro j _
  rw [e820At_putE820Entries, Nat.zero_add]

section Subtractions

-- The operands of each 64-bit subtraction on the path taken.
def initMemoryMapSubs (ramSize : Nat) : List (Nat × Nat) :=
  if ramSize ≤ getGapStart then [] else [(ramSize, getGapStart)]

def getRamEndSubs (st : MemState) : List (Nat × Nat) :=
  if st.ramSize ≤ (memLayout .memBelow4g).2 then [] else [(st.ramSize, (memLayout .memBelow4g).2)]

def setupE820Subs (st : MemState) : List (Nat × Nat) :=
  [(mptableStart, realModeIvtStart), (vgaRamStart, mptableStart)] ++
  if getRamEnd st ≤ getGapEnd then [(getRamEnd st, vmlinuxRamStart)]
  else [(getGapStart, vmlinuxRamStart), (getRamEnd st, getGapEnd)]

/-- What the subtractions of the operands give. -/
def differences (ps : List (Nat × Nat)) : List Nat :=
  ps.map fun p => sub64 p.1 p.2

/-- The operands are those of the differences that are taken: the size of a
    second slot, the end of RAM when there is one, and the sizes of all entries
    but the BIOS area's, which is a constant. -/
structure SubsTaken (ramSize : Nat) (st : MemState) (table : List BootE820Entry) : Prop where
  slot : [(rams ramSize 1).2].filter (0 < ·) = differences (initMemoryMapSubs ramSize)
  ramEnd : getRamEnd st = match differences (getRamEndSubs st) with
    | [] => ((memLayout .memBelow4g).1 + st.ramSize) % 2 ^ 64
    | above :: _ => ((memLayout .memAbove4g).1 + above) % 2 ^ 64
  entries : (table.filter fun e => e.addr ≠ mbBiosStart).map BootE820Entry.size
    = differences (setupE820Subs st)

theorem subsTaken (ramSize : Nat) (hlt : ramSize < 2 ^ 64) (st : MemState) :
    SubsTaken ramSize st (e820Entries (getRamEnd st)) := by
  refine ⟨?_, ?_, ?_⟩
  · unfold rams initMemoryMapSubs
    by_cases hle : ramSize ≤ getGapStart
    · simp only [if_pos hle]
      rfl
    · have hpos : 0 < ramSize - getGapStart := by omega
      simp only [if_neg hle, one_ne_zero, if_false, differences, List.map_cons, List.map_nil,
        sub64_eq (Nat.le_of_not_le hle) hlt, List.filter_cons, decide_eq_true hpos, if_true,
        List.filter_nil]
  · unfold getRamEnd getRamEndSubs
    by_cases hle : st.ramSize ≤ (memLayout .memBelow4g).2
    · simp only [if_pos hle]
      rfl
    · simp only [if_neg hle]
      rfl
  · unfold e820Entries setupE820Subs
    by_cases hle : getRamEnd st ≤ getGapEnd
    · simp only [if_pos hle]
      rfl
    · simp only [if_neg hle]
      rfl

end Subtractions

/-- Below the gap there is one slot, and one entry above the legacy hole. -/
theorem e820Entries_low (ramEnd : Nat) (hlo : vmlinuxRamStart ≤ ramEnd)
    (hhi : ramEnd ≤ getGapStart) :
    e820Entries ramEnd
      = [⟨0, 0x9fc00, 1⟩, ⟨0x9fc00, 0x400, 2⟩, ⟨0xf0000, 0, 2⟩,
          ⟨0x100000, ramEnd - 0x100000, 1⟩] := by
  have hstart : getGapStart = 0xC0000000 := rfl
  have hend : getGapEnd = 0x100000000 := rfl
  unfold e820Entries
  rw [if_pos (by omega), sub64_eq hlo (by omega)]
  rfl

/-- Above it there is a second slot, and a second entry. -/
theorem e820Entries_high (above : Nat) (hpos : 0 < above) (hlt : above < 2 ^ 62) :
    e820Entries (getGapEnd + above)
      = [⟨0, 0x9fc00, 1⟩, ⟨0x9fc00, 0x400, 2⟩, ⟨0xf0000, 0, 2⟩,
          ⟨0x100000, 0xC0000000 - 0x100000, 1⟩, ⟨0x100000000, above, 1⟩] := by
  have hend : getGapEnd = 0x100000000 := rfl
  unfold e820Entries
  rw [if_neg (by omega), sub64_eq (a := getGapEnd + above) (by omega) (by omega),
    Nat.add_sub_cancel_left]
  rfl

theorem agrees_low (mapper : Int → MemRegion) (ramEnd a b : Nat) (hlo : vmlinuxRamStart ≤ ramEnd)
    (hhi : ramEnd ≤ getGapStart) (h0 : mapper 0 = ⟨0, ramEnd, a⟩) (h1 : mapper 1 = ⟨0, 0, b⟩) :
    E820Agrees mapper (e820Entries ramEnd) := by
  rw [e820Entries_low ramEnd hlo hhi]
  simp only [vmlinuxRamStart, getGapStart, memLayout] at hlo hhi
  refine ⟨by simp, by simp [Apart], ?_, ?_, ?_⟩
  · intro e he _
    refine ⟨0, Or.inl rfl, ?_⟩
    simp only [List.mem_cons, List.not_mem_nil, or_false] at he
    rw [h0]
    rcases he with rfl | rfl | rfl | rfl <;> simp only <;> omega
  · intro e he
    simp only [List.mem_cons, List.not_mem_nil, or_false] at he
    simp only [getGapStart, getGapEnd, memLayout]
    rcases he with rfl | rfl | rfl | rfl <;> simp only <;> omega
  · intro x
    simp only [List.mem_cons, List.not_mem_nil, or_false, exists_eq_or_imp, exists_eq_left, h0, h1,
      BootE820Entry.Covers, MemRegion.Covers, e820Ram, mptableStart, vmlinuxRamStart, true_and]
    omega

theorem agrees_high (mapper : Int → MemRegion) (above a b : Nat) (hpos : 0 < above)
    (hlt : above < 2 ^ 62) (h0 : mapper 0 = ⟨0, getGapStart, a⟩)
    (h1 : mapper 1 = ⟨getGapEnd, above, b⟩) :
    E820Agrees mapper (e820Entries (getGapEnd + above)) := by
  rw [e820Entries_high above hpos hlt]
  simp only [getGapStart, getGapEnd, memLayout] at h0 h1
  refine ⟨by simp, by simp [Apart], ?_, ?_, ?_⟩
  · intro e he _
    simp only [List.mem_cons, List.not_mem_nil, or_false] at he
    -- The last entry is the second slot, the others lie in the first.
    by_cases hlast : e = ⟨0x100000000, above, 1⟩
    · refine ⟨1, Or.inr rfl, ?_⟩
      rw [h1, hlast]
      simp only
      omega
    · refine ⟨0, Or.inl rfl, ?_⟩
      rw [h0]
      rcases he with rfl | rfl | rfl | rfl | rfl
      on_goal 5 => exact absurd rfl hlast
      all_goals
      simp only
      omega
  · intro e he
    simp only [List.mem_cons, List.not_mem_nil, or_false] at he
    simp only [getGapStart, getGapEnd, memLayout]
    rcases he with rfl | rfl | rfl | rfl | rfl <;> simp only <;> omega
  · intro x
    simp only [List.mem_cons, List.not_mem_nil, or_false, exists_eq_or_imp, exists_eq_left, h0, h1,
      BootE820Entry.Covers, MemRegion.Covers, e820Ram, mptableStart, vmlinuxRamStart, true_and]
    omega

/-- Each difference is taken on the side of a test on which it does not wrap. -/
theorem subs_le (st : MemState) (hlo : vmlinuxRamStart ≤ st.ramSize) (hlt : st.ramSize < 2 ^ 63) :
    ∀ p ∈ initMemoryMapSubs st.ramSize ++ getRamEndSubs st ++ setupE820Subs st, p.2 ≤ p.1 := by
  have hstart : getGapStart = 0xC0000000 := rfl
  have hend : getGapEnd = 0x100000000 := rfl
  have hlow : vmlinuxRamStart = 0x100000 := rfl
  have hbelow : (memLayout .memBelow4g).2 = 0xC0000000 := rfl
  have hfixed : realModeIvtStart ≤ mptableStart ∧ mptableStart ≤ vgaRamStart := by decide
  intro p hp
  unfold initMemoryMapSubs getRamEndSubs setupE820Subs at hp
  -- Below the gap one range is taken apart, above it two.
  by_cases hle : st.ramSize ≤ getGapStart
  · have hram := getRamEnd_low st hle
    rw [if_pos hle, if_pos (by omega), if_pos (by omega)] at hp
    simp only [List.nil_append, List.cons_append, List.mem_cons, List.not_mem_nil, or_false] at hp
    rcases hp with rfl | rfl | rfl
    · exact hfixed.1
    · exact hfixed.2
    · simp only
      omega
  · have hram := getRamEnd_high st (by omega) hlt
    rw [if_neg hle, if_neg (by omega), if_neg (by omega)] at hp
    simp only [List.nil_append, List.cons_append, List.mem_cons, List.not_mem_nil, or_false] at hp
    rcases hp with rfl | rfl | rfl | rfl | rfl | rfl
    on_goal 3 => exact hfixed.1
    on_goal 3 => exact hfixed.2
    all_goals
      simp only
      omega

/-- The state the boot setup starts from: the slots are there, and memory holds
    what it holds. -/
def bootState (os : HostMap) (ramSize : Nat) (around : Int → MemRegion) (mem : ByteMem) :
    BootState :=
  { toMemState := bootMemory os ramSize around, mem := mem, initrdSize := 0, initrdAddr := 0 }

/-- At every RAM size the layout has room for, the memory map a kernel reads
    agrees with the slots, and no subtraction on the way wraps. -/
theorem e820_agrees (os : HostMap) (ramSize : Nat) (around : Int → MemRegion)
    (hok : (initMemoryMap os ramSize (memStatics around)).1 = true)
    (hlo : 0x100000 ≤ ramSize) (hhi : ramSize ≤ 0xC0000000 + 0x8000000000)
    (s : BootState) (hs : s.toMemState = bootMemory os ramSize around) (bootParams : Nat) :
    E820Agrees s.memMapper (e820Table (setupE820 bootParams s).mem bootParams) ∧
      (∀ p ∈ initMemoryMapSubs ramSize ++ getRamEndSubs s.toMemState ++
        setupE820Subs s.toMemState, p.2 ≤ p.1) ∧
      SubsTaken ramSize s.toMemState (e820Table (setupE820 bootParams s).mem bootParams) := by
  have hsize : s.toMemState.ramSize = ramSize := by
    rw [hs]
    exact initMemoryMap_ramSize os ramSize _
  rcases initMemoryMap_entries os ramSize around hok with ⟨a, b, e0, e1, -, -⟩
  have hmapper : (initMemoryMap os ramSize (memStatics around)).2.memMapper = s.memMapper := by
    rw [← bootMemory, ← hs]
  rw [hmapper] at e0 e1
  have hstart : getGapStart = 0xC0000000 := rfl
  have hend : getGapEnd = 0x100000000 := rfl
  have hsubs := subs_le s.toMemState (by rw [hsize]; exact hlo) (by omega)
  rw [hsize] at hsubs
  rw [e820Table_setupE820]
  refine ⟨?_, hsubs, subsTaken ramSize (by omega) _⟩
  -- The table has a second range of RAM exactly when there are two slots.
  by_cases hle : ramSize ≤ getGapStart
  · have hram : getRamEnd s.toMemState = ramSize := by
      rw [getRamEnd_low _ (by omega), hsize]
    simp only [rams, if_pos hle, if_true, one_ne_zero, if_false] at e0 e1
    rw [hram]
    exact agrees_low s.memMapper ramSize a b hlo hle e0 e1
  · have hram : getRamEnd s.toMemState = getGapEnd + (ramSize - getGapStart) := by
      rw [getRamEnd_high _ (by omega) (by omega), hsize]
    simp only [rams, if_neg hle, if_true, one_ne_zero, if_false] at e0 e1
    rw [hram]
    exact agrees_high s.memMapper (ramSize - getGapStart) a b (by omega) (by omega) e0 e1

/-- Four gigabytes, one of them above the gap. -/
theorem e820_agrees_four_gib :
    E820Agrees (bootMemory sampleHost 0x100000000 fun _ => ⟨0, 0, 0⟩).memMapper
        (e820Table (setupE820 0x7000
          (bootState sampleHost 0x100000000 (fun _ => ⟨0, 0, 0⟩) fun _ => 0)).mem 0x7000) ∧
      ∀ p ∈ initMemoryMapSubs 0x100000000 ++
          getRamEndSubs (bootMemory sampleHost 0x100000000 fun _ => ⟨0, 0, 0⟩) ++
          setupE820Subs (bootMemory sampleHost 0x100000000 fun _ => ⟨0, 0, 0⟩), p.2 ≤ p.1 := by
  have h := e820_agrees sampleHost 0x100000000 (fun _ => ⟨0, 0, 0⟩) (by decide) (by decide)
    (by decide) (bootState sampleHost 0x100000000 (fun _ => ⟨0, 0, 0⟩) fun _ => 0) rfl 0x7000
  exact ⟨h.1, h.2.1⟩

end Microv
