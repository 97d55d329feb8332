import Microv.Theory.BarDecoding

/-!
# The Law of the BAR Registers

How a guest finds out the size of a BAR: it writes ones to the register, reads
back the bits that stayed, and puts the old value back.

That works because a register never holds a bit below the BAR's size, and
because the region lies where the register says. `pci_bar_config` sees to both
after every write that starts inside one of the six registers, as the code
understands it: the test ends at the first byte of the last register, so a
write to one of its upper three bytes is stored as it is, neither masked nor
passed on to the region. And a register that says I/O space starts out as 1,
while its region starts out at 0. `SparesLastBar` leaves out the first, and
the law is stated for memory BARs to leave out the second.

Unlike the decoding, the law does not look at the bus lists, so nothing is
asked of the writes to the command register.

## Main definitions

* `BarLaw`: What holds of a BAR's register.
* `SparesLastBar`: The condition on a write.

## Theorems

* `BarMasked.step`: One write keeps a register masked and the base beside it.
* `mod_of_masked`: A masked register has no bit below the size.
* `bar_register_law`: The law in every run, and sizing a BAR.
-/

namespace Microv

variable {m m' : Machine} {d i n : Nat}

/-- The bits below the size are just the one for the space, a BAR that is not
    implemented reads zero, and the region lies where the register says. -/
structure BarLaw (m : Machine) (d i : Nat) : Prop where
  low : (m.dev d).barSize i ≠ 0 → (m.dev d).hdr.le (pciBarOffset i) 4 % (m.dev d).barSize i
    = ((m.dev d).barIsIoSpace i).toNat % (m.dev d).barSize i
  absent : (m.dev d).barSize i = 0 → (m.dev d).hdr.le (pciBarOffset i) 4 = 0
  base : (m.iobus.region (.bar d i)).base = (m.dev d).hdr.le (pciBarOffset i) 4

/-- A write that starts in the upper three bytes of the last register leaves
    it as it was. -/
def SparesLastBar (d : Nat) (m : Machine) (w : ConfigWrite) : Prop :=
  w.d = d → 0x24 < w.offset → w.offset < 0x28 →
    ((w.store m).barView d 5).register = (m.barView d 5).register

/-- A memory BAR of a given size whose register is masked and whose region
    lies there. -/
structure BarMasked (m : Machine) (d i size : Nat) : Prop where
  size_eq : (m.barView d i).size = size
  memory : (m.barView d i).isIoSpace = false
  masked : (m.barView d i).register &&& barMask size = (m.barView d i).register
  base : (m.barView d i).base = (m.barView d i).register

section Step

variable {size : Nat} {w : ConfigWrite}

/-- Only four components of the view matter. -/
theorem BarMasked.congr (h : BarMasked m d i size)
    (hsize : (m'.barView d i).size = (m.barView d i).size)
    (hio : (m'.barView d i).isIoSpace = (m.barView d i).isIoSpace)
    (hreg : (m'.barView d i).register = (m.barView d i).register)
    (hbase : (m'.barView d i).base = (m.barView d i).base) : BarMasked m' d i size := by
  refine ⟨hsize.trans h.size_eq, hio.trans h.memory, ?_, ?_⟩
  · rw [hreg]
    exact h.masked
  · rw [hbase, hreg]
    exact h.base

/-- A copy into the header that leaves the register. -/
theorem BarMasked.store (h : BarMasked m d i size)
    (hreg : ((w.store m).barView d i).register = (m.barView d i).register) :
    BarMasked (w.store m) d i size := by
  refine h.congr ?_ ?_ hreg rfl
  · rw [barView_store]
  · rw [barView_store]

/-- `pci_bar_config` masks whatever the register holds. -/
theorem BarMasked.config (hsize : (m.barView d i).size = size)
    (hio : (m.barView d i).isIoSpace = false) : BarMasked (pciBarConfig m d i) d i size := by
  have hview := barView_config (m := m) (d := d) (i := i) hio
  refine ⟨?_, ?_, ?_, ?_⟩
  · rw [hview]
    exact hsize
  · rw [hview]
    exact hio
  · rw [hview]
    simp only
    rw [hsize, Nat.and_assoc, Nat.and_self]
  · rw [hview]

/-- One write keeps the register masked and the base beside it. -/
theorem BarMasked.step (h : BarMasked m d i size) (hi : i < 6) (hf : w.Forwarded n)
    (hspare : SparesLastBar d m w) {fuel : Nat}
    (hw : pciConfigWrite fuel m w.d w.offset w.data = some m') : BarMasked m' d i size := by
  -- A write that is not taken for one to this BAR leaves its register.
  have hleft : ¬(w.d = d ∧ 0x10 ≤ w.offset ∧ w.offset ≤ 0x24 ∧ (w.offset - 0x10) / 4 = i) →
      ((w.store m).barView d i).register = (m.barView d i).register := by
    intro hnot
    by_cases hd : w.d = d
    · by_cases hin : pciBarOffset i ≤ w.offset ∧ w.offset < pciBarOffset i + 4
      · unfold pciBarOffset at hin
        have hlast : i = 5 := by omega
        subst hlast
        exact hspare hd (by omega) (by omega)
      · exact store_register hf hin
    · rw [barView_store_other hd]
  unfold pciConfigWrite at hw
  dsimp only at hw
  split_ifs at hw with hcommand hbars
  · -- The rounds of the command register move nothing.
    rcases command_keeps w.d 6 0 hw with ⟨hplaces, hsame⟩
    have hstored : BarMasked (w.store m) d i size :=
      h.store (hleft (by unfold pciCommand at hcommand; omega))
    refine hstored.congr ?_ ?_ ?_ (hplaces _).1
    · exact congrFun (hsame.barSize d) i
    · exact congrFun (hsame.barIsIoSpace d) i
    · unfold Machine.barView
      rw [hsame.hdr d]
      rfl
  · rw [← Option.some.inj hw]
    by_cases hbar : w.d = d ∧ (w.offset - 0x10) / 4 = i
    · rcases hbar with ⟨rfl, hbar⟩
      rw [hbar]
      refine BarMasked.config (m := w.store m) ?_ ?_
      · rw [barView_store]
        exact h.size_eq
      · rw [barView_store]
        exact h.memory
    · have hstored : BarMasked (w.store m) d i size :=
        h.store (hleft fun hc => hbar ⟨hc.1, hc.2.2.2⟩)
      have hview := barView_config_other (m := w.store m) hbar
      refine hstored.congr ?_ ?_ ?_ ?_
      · exact congrArg BarView.size hview
      · exact congrArg BarView.isIoSpace hview
      · exact congrArg BarView.register hview
      · exact congrArg BarView.base hview
  · rw [← Option.some.inj hw]
    exact h.store (hleft fun hc => hbars ⟨hc.2.1, hc.2.2.1⟩)

theorem BarMasked.run (h : BarMasked m d i size) (hi : i < 6)
    (hrun : Run (ConfigStep n) (SparesLastBar d) m m') : BarMasked m' d i size := by
  refine hrun.invariant (P := fun u => BarMasked u d i size) h ?_
  rintro u w v hu hspare ⟨hf, fuel, hw⟩
  exact hu.step hi hf hspare hw

end Step

section Mask

/-- `~(size - 1)` has exactly the bits from the size up. -/
theorem barMask_eq {size : Nat} (hpos : 0 < size) (hlt : size < 2 ^ 32) :
    barMask size = 2 ^ 32 - size := by
  unfold barMask
  omega

theorem barMask_zero : barMask 0 = 0 := by
  decide

/-- A masked register has no bit below the size. -/
theorem mod_of_masked {x k : Nat} (hlt : 2 ^ k < 2 ^ 32) (h : x &&& barMask (2 ^ k) = x) :
    x % 2 ^ k = 0 := by
  have hk : k ≤ 32 := le_of_lt ((Nat.pow_lt_pow_iff_right (by decide)).mp hlt)
  have hdvd : 2 ^ k ∣ 2 ^ 32 - 2 ^ k := Nat.dvd_sub (pow_dvd_pow 2 hk) (dvd_refl _)
  rw [← h, Nat.and_mod_two_pow, barMask_eq (Nat.two_pow_pos k) hlt, Nat.mod_eq_zero_of_dvd hdvd,
    Nat.and_zero]

end Mask

section Sizing

variable {size : Nat}

theorem BarMasked.law (h : BarMasked m d i size) (hlt : size < 2 ^ 32)
    (hpow : size = 0 ∨ ∃ k, size = 2 ^ k) : BarLaw m d i := by
  have hsize : (m.dev d).barSize i = size := h.size_eq
  have hio : (m.dev d).barIsIoSpace i = false := h.memory
  have hmasked : (m.dev d).hdr.le (pciBarOffset i) 4 &&& barMask size
      = (m.dev d).hdr.le (pciBarOffset i) 4 := h.masked
  refine ⟨?_, ?_, h.base⟩
  · rw [hsize, hio, Bool.toNat_false, Nat.zero_mod]
    intro hne
    rcases hpow with hz | ⟨k, rfl⟩
    · exact absurd hz hne
    · exact mod_of_masked hlt hmasked
  · rw [hsize]
    intro hz
    rw [← hmasked, hz, barMask_zero, Nat.and_zero]

/-- A write of the whole register leaves what the mask leaves of it, there and
    in the region. -/
theorem BarMasked.write (h : BarMasked m d i size) (hi : i < 6) (v fuel : Nat)
    (hv : v < 2 ^ 32) :
    ∃ m', pciConfigWrite fuel m d (pciBarOffset i) (ByteMem.leBytes 4 v) = some m' ∧
      BarMasked m' d i size ∧ (m'.barView d i).register = v &&& barMask size := by
  have hoff : pciBarOffset i ≠ pciCommand ∧ 0x10 ≤ pciBarOffset i ∧ pciBarOffset i ≤ 0x24 ∧
      (pciBarOffset i - 0x10) / 4 = i := by
    unfold pciBarOffset pciCommand
    omega
  have hstore : ((m.writeHdr d (pciBarOffset i) (ByteMem.leBytes 4 v)).barView d i).register
      = v := by
    simp only [Machine.barView, Machine.writeHdr, Function.update_self]
    exact ByteMem.le_writeLE_self _ _ _ _ (by omega)
  have hview := barView_store ⟨d, pciBarOffset i, ByteMem.leBytes 4 v⟩ m d i
  have hsize := (congrArg BarView.size hview).trans h.size_eq
  have hio := (congrArg BarView.isIoSpace hview).trans h.memory
  refine ⟨_, ?_, BarMasked.config hsize hio, ?_⟩
  · rw [pciConfigWrite]
    simp only [if_neg hoff.1, if_pos (And.intro hoff.2.1 hoff.2.2.1), hoff.2.2.2]
    rfl
  · rw [barView_config hio]
    simp only
    rw [hsize]
    exact congrArg (· &&& barMask size) hstore

end Sizing

/-- The law of the registers in every run. Writing ones reads back the mask of
    the size, and writing the saved value puts back both the register and the
    place of the region. -/
theorem bar_register_law (h0 : Machine.SetUp n m) (hi : i < 6)
    (hmem : (m.dev d).barIsIoSpace i = false)
    (hpow : (m.dev d).barSize i = 0 ∨ ∃ k, (m.dev d).barSize i = 2 ^ k)
    (hrun : Run (ConfigStep n) (SparesLastBar d) m m') :
    BarLaw m' d i ∧
    ∀ fuel, ∃ m₁ m₂,
      pciConfigWrite fuel m' d (pciBarOffset i) (ByteMem.leBytes 4 0xffffffff) = some m₁ ∧
      pciConfigWrite fuel m₁ d (pciBarOffset i)
        (ByteMem.leBytes 4 ((m'.dev d).hdr.le (pciBarOffset i) 4)) = some m₂ ∧
      (m₁.dev d).hdr.le (pciBarOffset i) 4
        = (if (m.dev d).barSize i = 0 then 0 else 2 ^ 32 - (m.dev d).barSize i) ∧
      (m₂.dev d).hdr.le (pciBarOffset i) 4 = (m'.dev d).hdr.le (pciBarOffset i) 4 ∧
      (m₂.iobus.region (.bar d i)).base = (m'.iobus.region (.bar d i)).base := by
  rcases settled_of_setUp h0 with ⟨lists, hsettled⟩
  have hfresh := hsettled.device d
  have hlt := hfresh.size i
  -- The setup leaves a memory BAR's register and base at zero.
  have hstart : BarMasked m d i ((m.dev d).barSize i) := by
    have hreg : (m.barView d i).register = 0 := by
      have h := hfresh.register i hi
      rwa [hmem] at h
    refine ⟨rfl, hmem, ?_, ?_⟩
    · rw [hreg, Nat.zero_and]
    · rw [hreg]
      exact hfresh.base i
  have hend := hstart.run hi hrun
  refine ⟨hend.law hlt hpow, ?_⟩
  intro fuel
  rcases hend.write hi 0xffffffff fuel (by decide) with ⟨m₁, hw₁, hm₁, hreg₁⟩
  have hsaved : (m'.barView d i).register < 2 ^ 32 := ByteMem.le_lt _ _ 4
  rcases hm₁.write hi (m'.barView d i).register fuel hsaved with ⟨m₂, hw₂, hm₂, hreg₂⟩
  rw [hend.masked] at hreg₂
  refine ⟨m₁, m₂, hw₁, hw₂, hreg₁.trans ?_, hreg₂, ?_⟩
  · -- All 32 bits are set, so the mask is all that is left.
    have hall : ∀ y, y < 2 ^ 32 → 0xffffffff &&& y = y := by
      intro y hy
      rw [Nat.and_comm, show 0xffffffff = 2 ^ 32 - 1 by decide, Nat.and_two_pow_sub_one_eq_mod,
        Nat.mod_eq_of_lt hy]
    by_cases hz : (m.dev d).barSize i = 0
    · rw [if_pos hz, hz, barMask_zero, Nat.and_zero]
    · rw [if_neg hz, barMask_eq (Nat.pos_of_ne_zero hz) hlt]
      exact hall _ (Nat.sub_lt (Nat.two_pow_pos 32) (Nat.pos_of_ne_zero hz))
  · exact hm₂.base.trans (hreg₂.trans hend.base.symm)

/-- The BAR of the block device, once it has a base. -/
theorem bar_register_law_programmed :
    Run (ConfigStep 1) (SparesLastBar 0) sampleMachine sampleProgrammed ∧
    BarLaw sampleProgrammed 0 0 := by
  have hrun : Run (ConfigStep 1) (SparesLastBar 0) sampleMachine sampleProgrammed :=
    .single sampleBase (fun _ h _ => absurd h (by decide)) sampleBase_step
  exact ⟨hrun, (bar_register_law sampleMachine_setUp (by decide) (by decide)
    (Or.inr ⟨8, by decide⟩) hrun).1⟩

/-- A page of memory behind the last BAR, and eight ports behind the first. -/
def lastBarMachine : Machine :=
  pciInitBar (pciInitBar (pciDevInit Machine.boot 0) 0 5 0x1000 false) 0 0 8 true

theorem lastBarMachine_setUp : Machine.SetUp 1 lastBarMachine :=
  .bar 0 0 8 true (.bar 0 5 0x1000 false (.dev .boot) (by decide) (by decide) (by decide))
    (by decide) (by decide) (by decide)

/-- One byte written to the second byte of the last register puts a bit below
    the size into it and leaves the region; and the register that says I/O
    space differs from its region's base before any write. -/
theorem bar_register_law_broken :
    Machine.SetUp 1 lastBarMachine ∧ ¬ BarLaw lastBarMachine 0 0 ∧
    ∃ m, Run (ConfigStep 1) (fun _ _ => True) lastBarMachine m ∧
      (m.dev 0).hdr.le (pciBarOffset 5) 4 = 0x100 ∧ (m.dev 0).barSize 5 = 0x1000 ∧
      (m.iobus.region (.bar 0 5)).base = 0 ∧ ¬ BarLaw m 0 5 := by
  have hend : (configWrites 0 lastBarMachine [⟨0, 0x25, [1]⟩]).map
      (fun m => ((m.dev 0).hdr.le (pciBarOffset 5) 4, (m.dev 0).barSize 5,
        (m.iobus.region (.bar 0 5)).base)) = some (0x100, 0x1000, 0) := by decide +kernel
  rcases Option.map_eq_some_iff.mp hend with ⟨m, hm, hfacts⟩
  simp only [Prod.mk.injEq] at hfacts
  rcases hfacts with ⟨hreg, hsize, hbase⟩
  refine ⟨lastBarMachine_setUp, fun h => absurd h.base (by decide +kernel), m,
    run_configWrites (.refl lastBarMachine) (by decide) hm, hreg, hsize, hbase, fun h => ?_⟩
  have hlaw := h.base
  rw [hreg, hbase] at hlaw
  exact absurd hlaw (by decide)

end Microv
