import Microv.Core.Pci
import Microv.Lib.Run
import Microv.Theory.Iobus

/-!
# BARs on the Buses

What a guest's writes to configuration space do to the bus lists.

A BAR's region is only ever put on the bus of the BAR's own space. A write to
the command register goes over the six BARs of a device, and each of them is
put on its bus, taken off it, or left: `MapsTo` says which, from what the
device held before the write. The rounds touch different regions, so the
whole loop acts on each BAR as its own round does.

Nothing here needs the guest to behave, except that a region must not be
linked into a list it is already on: the list would lead back to itself.
`RelinksNothing` is that condition on a write, and it is the only one.

## Main definitions

* `BarListing`: The lists, with every BAR on its own bus.
* `MapsTo`: Whether a BAR is on a bus after its round.
* `Rounds`: What a number of rounds leave.
* `OnBus`, `RelinksNothing`: The condition on a write.

## Theorems

* `settled_of_setUp`: What the setup leaves.
* `command_ends`: A write to the command register ends, and what it leaves.
* `write_ends`, `step_written`: The ways a write goes.
* `bus_lists_well_formed`: The lists stay well formed in every run.
-/

namespace Microv

variable {m m' : Machine} {lists lists' : BusName → List RegionName}

/-- Nothing of a device but `bar_active` differs. -/
structure SameDevices (m m' : Machine) : Prop where
  hdr : ∀ e, (m'.dev e).hdr = (m.dev e).hdr
  barSize : ∀ e, (m'.dev e).barSize = (m.dev e).barSize
  barIsIoSpace : ∀ e, (m'.dev e).barIsIoSpace = (m.dev e).barIsIoSpace

theorem SameDevices.barBus (h : SameDevices m m') (e i : Nat) :
    (m'.dev e).barBus i = (m.dev e).barBus i := by
  unfold PciDevice.barBus
  rw [h.barIsIoSpace e]

theorem SameDevices.enable (h : SameDevices m m') (e i : Nat) :
    (m'.dev e).enable i = (m.dev e).enable i := by
  unfold PciDevice.enable
  rw [h.barIsIoSpace e, h.hdr e]

theorem SameDevices.hasBase (h : SameDevices m m') (hp : SamePlaces m.iobus m'.iobus) (e i : Nat) :
    m'.hasBase e i = m.hasBase e i := by
  unfold Machine.hasBase
  rw [h.barSize e, (hp (.bar e i)).1]

/-- The lists of the buses, every BAR being on the bus of its own space. -/
structure BarListing (m : Machine) (lists : BusName → List RegionName) : Prop where
  listing : Listing m.iobus lists
  own : ∀ b d i, .bar d i ∈ lists b → b = (m.dev d).barBus i

/-- Whether BAR `i` is on `b` after its round, if `on` says so before. -/
def MapsTo (m : Machine) (d i : Nat) (b : BusName) (on : Prop) : Prop :=
  if (m.dev d).enable i then
    ((m.dev d).barActive i = false ∧ m.hasBase d i = true ∧ b = (m.dev d).barBus i) ∨ on
  else on ∧ ¬((m.dev d).barActive i = true ∧ m.hasBase d i = true)

/-- What `k` rounds of the loop leave, from round `i` on. -/
structure Rounds (m : Machine) (lists : BusName → List RegionName) (d i k : Nat) (m' : Machine)
    (lists' : BusName → List RegionName) : Prop where
  listing : BarListing m' lists'
  places : SamePlaces m.iobus m'.iobus
  same : SameDevices m m'
  active : ∀ e j, (m'.dev e).barActive j =
    if e = d ∧ i ≤ j ∧ j < i + k then (m.dev d).enable j else (m.dev e).barActive j
  mapped : ∀ b j, i ≤ j → j < i + k →
    (.bar d j ∈ lists' b ↔ MapsTo m d j b (.bar d j ∈ lists b))
  others : ∀ b r, (∀ j, i ≤ j → j < i + k → r ≠ .bar d j) → (r ∈ lists' b ↔ r ∈ lists b)

section Round

variable (d i : Nat)

theorem sameDevices_setActive (m : Machine) (iobus : Iobus BusName RegionName) (active : Bool) :
    SameDevices m (Machine.setActive { m with iobus := iobus } d i active) := by
  have hdev : ∀ e, ((Machine.setActive { m with iobus := iobus } d i active).dev e).hdr
        = (m.dev e).hdr
      ∧ ((Machine.setActive { m with iobus := iobus } d i active).dev e).barSize
        = (m.dev e).barSize
      ∧ ((Machine.setActive { m with iobus := iobus } d i active).dev e).barIsIoSpace
        = (m.dev e).barIsIoSpace := by
    intro e
    unfold Machine.setActive
    by_cases he : e = d
    · subst he
      simp only [Function.update_self, and_self]
    · simp only [Function.update_of_ne he, and_self]
  exact ⟨fun e => (hdev e).1, fun e => (hdev e).2.1, fun e => (hdev e).2.2⟩

theorem barActive_setActive (m : Machine) (iobus : Iobus BusName RegionName) (active : Bool)
    (e j : Nat) :
    ((Machine.setActive { m with iobus := iobus } d i active).dev e).barActive j
      = if e = d ∧ j = i then active else (m.dev e).barActive j := by
  unfold Machine.setActive
  by_cases he : e = d
  · subst he
    by_cases hj : j = i
    · subst hj
      simp only [Function.update_self, and_self, if_true]
    · simp only [Function.update_self, Function.update_of_ne hj, hj, and_false, if_false]
  · simp only [Function.update_of_ne he, he, false_and, if_false]

/-- A round that leaves the buses `iobus`, in terms of the lists it leaves. -/
theorem rounds_one (h : BarListing m lists) {iobus : Iobus BusName RegionName}
    (hl : Listing iobus lists') (hp : SamePlaces m.iobus iobus)
    (hmapped : ∀ b, .bar d i ∈ lists' b ↔ MapsTo m d i b (.bar d i ∈ lists b))
    (hothers : ∀ b r, r ≠ .bar d i → (r ∈ lists' b ↔ r ∈ lists b)) :
    Rounds m lists d i 1 (Machine.setActive { m with iobus := iobus } d i ((m.dev d).enable i))
      lists' := by
  have hsame := sameDevices_setActive d i m iobus ((m.dev d).enable i)
  refine ⟨⟨hl, fun b e j hj => ?_⟩, hp, hsame, fun e j => ?_, fun b j h1 h2 => ?_,
    fun b r hr => ?_⟩
  · rw [hsame.barBus e j]
    by_cases hij : (RegionName.bar e j) = .bar d i
    · -- The round puts the BAR on its own bus, or it was there.
      rw [hij] at hj
      have hmap := (hmapped b).mp hj
      obtain ⟨rfl, rfl⟩ : e = d ∧ j = i := by
        simpa only [RegionName.bar.injEq] using hij
      unfold MapsTo at hmap
      by_cases hen : (m.dev e).enable j = true
      · rw [if_pos hen] at hmap
        rcases hmap with ⟨_, _, hb⟩ | hon
        · exact hb
        · exact h.own b e j hon
      · rw [if_neg hen] at hmap
        exact h.own b e j hmap.1
    · exact h.own b e j ((hothers b _ hij).mp hj)
  · rw [barActive_setActive]
    by_cases hj : e = d ∧ j = i
    · rw [if_pos hj, if_pos ⟨hj.1, by omega, by omega⟩, hj.2]
    · rw [if_neg hj, if_neg (fun hc => hj ⟨hc.1, by omega⟩)]
  · have hj : j = i := by omega
    rw [hj]
    exact hmapped b
  · exact hothers b r (hr i (Nat.le_refl i) (Nat.lt_succ_self i))

/-- The region is put in front of its bus's list. -/
theorem rounds_register (h : BarListing m lists) (hen : (m.dev d).enable i = true)
    (hreg : (m.dev d).barActive i = false ∧ m.hasBase d i = true)
    (hno : ∀ b, .bar d i ∉ lists b) :
    Rounds m lists d i 1
      (Machine.setActive
        { m with iobus := iobusRegisterRegion m.iobus ((m.dev d).barBus i) (.bar d i) } d i
        ((m.dev d).enable i))
      (Function.update lists ((m.dev d).barBus i) (.bar d i :: lists ((m.dev d).barBus i))) := by
  refine rounds_one d i h (h.listing.register _ hno) (samePlaces_register _ _ _) ?_ ?_
  · intro b
    unfold MapsTo
    rw [if_pos hen]
    by_cases hb : b = (m.dev d).barBus i
    · rw [hb, Function.update_self]
      simp only [List.mem_cons, true_or, hreg.1, hreg.2, and_self]
    · rw [Function.update_of_ne hb]
      simp only [hb, and_false, false_or]
  · intro b r hr
    by_cases hb : b = (m.dev d).barBus i
    · rw [hb, Function.update_self, List.mem_cons]
      simp only [hr, false_or]
    · rw [Function.update_of_ne hb]

/-- The region is taken out of the lists. -/
theorem rounds_deregister (h : BarListing m lists) (hen : ¬(m.dev d).enable i = true)
    (hdereg : (m.dev d).barActive i = true ∧ m.hasBase d i = true)
    {iobus : Iobus BusName RegionName} (hl : Listing iobus fun b => (lists b).erase (.bar d i))
    (hp : SamePlaces m.iobus iobus) :
    Rounds m lists d i 1 (Machine.setActive { m with iobus := iobus } d i ((m.dev d).enable i))
      (fun b => (lists b).erase (.bar d i)) := by
  refine rounds_one d i h hl hp ?_ ?_
  · intro b
    unfold MapsTo
    rw [if_neg hen]
    -- A region occurs once at most, so erasing it leaves none.
    have hnodup : (lists b).Nodup := (h.listing.linked b).nodup
    simp only [hnodup.mem_erase_iff, ne_eq, not_true_eq_false, false_and, hdereg, and_self,
      and_false]
  · intro b r hr
    exact List.mem_erase_of_ne hr

/-- The lists stay, and `bar_active` follows the command bit. -/
theorem rounds_keep (h : BarListing m lists)
    (hkeep : ∀ b, .bar d i ∈ lists b ↔ MapsTo m d i b (.bar d i ∈ lists b)) :
    Rounds m lists d i 1 (Machine.setActive m d i ((m.dev d).enable i)) lists :=
  rounds_one d i h h.listing (fun _ => ⟨rfl, rfl⟩) hkeep (fun _ _ _ => Iff.rfl)

/-- A round ends, if it does not link a region that is on a list. -/
theorem round_ends (h : BarListing m lists)
    (hfresh : (m.dev d).enable i = true → (m.dev d).barActive i = false →
      m.hasBase d i = true → .bar d i ∉ lists ((m.dev d).barBus i)) :
    ∃ m' lists', EndsWith (fun fuel => pciBarCommandAt fuel m d i) m'
      ∧ Rounds m lists d i 1 m' lists' := by
  by_cases hen : (m.dev d).enable i = true
  · by_cases hreg : (m.dev d).barActive i = false ∧ m.hasBase d i = true
    · have hno : ∀ b, .bar d i ∉ lists b := by
        intro b hb
        rw [h.own b d i hb] at hb
        exact hfresh hen hreg.1 hreg.2 hb
      refine ⟨_, _, ?_, rounds_register d i h hen hreg hno⟩
      simp only [pciBarCommandAt, hen, hreg.1, hreg.2, Bool.not_false, Bool.and_self, if_true]
      exact .const _
    · -- The BAR is active already, or it has no base.
      have hcond : (!(m.dev d).barActive i && m.hasBase d i) = false := by
        rw [Bool.eq_false_iff]
        intro hc
        rw [Bool.and_eq_true, Bool.not_eq_true'] at hc
        exact hreg hc
      refine ⟨_, lists, ?_, rounds_keep d i h (fun b => ?_)⟩
      · simp only [pciBarCommandAt, hen, hcond, if_true, Bool.false_eq_true, if_false]
        exact .const _
      · unfold MapsTo
        rw [if_pos hen]
        refine ⟨Or.inr, fun hon => hon.resolve_left ?_⟩
        exact fun hc => hreg ⟨hc.1, hc.2.1⟩
  · have hoff : (m.dev d).enable i = false := by
      simpa only [Bool.not_eq_true] using hen
    by_cases hdereg : (m.dev d).barActive i = true ∧ m.hasBase d i = true
    · rcases h.listing.deregister (.bar d i) with ⟨iobus, hends, hl, hp⟩
      refine ⟨_, _, ?_, rounds_deregister d i h hen hdereg hl hp⟩
      simp only [pciBarCommandAt, hoff, hdereg.1, hdereg.2, Bool.and_self, if_true,
        Bool.false_eq_true, if_false]
      exact hends.map _
    · -- The BAR was not active, or has no base any more; then a region that is
      -- on the bus stays there.
      have hcond : ((m.dev d).barActive i && m.hasBase d i) = false := by
        rw [Bool.eq_false_iff]
        intro hc
        exact hdereg ((Bool.and_eq_true _ _).mp hc)
      refine ⟨_, lists, ?_, rounds_keep d i h (fun b => ?_)⟩
      · simp only [pciBarCommandAt, hoff, hcond, Bool.false_eq_true, if_false, Option.map_some]
        exact .const _
      · unfold MapsTo
        rw [if_neg hen]
        exact ⟨fun hon => ⟨hon, hdereg⟩, fun hon => hon.1⟩

end Round

section Command

/-- A round and the rounds after it. -/
theorem Rounds.cons {m₁ : Machine} {lists₁ : BusName → List RegionName} {d i k : Nat}
    (h : Rounds m lists d i 1 m₁ lists₁) (hrest : Rounds m₁ lists₁ d (i + 1) k m' lists') :
    Rounds m lists d i (k + 1) m' lists' := by
  have hplaces : SamePlaces m.iobus m'.iobus := fun r =>
    ⟨(hrest.places r).1.trans (h.places r).1, (hrest.places r).2.trans (h.places r).2⟩
  refine ⟨hrest.listing, hplaces, ?_, fun e j => ?_, fun b j h1 h2 => ?_, fun b r hr => ?_⟩
  · exact ⟨fun e => (hrest.same.hdr e).trans (h.same.hdr e),
      fun e => (hrest.same.barSize e).trans (h.same.barSize e),
      fun e => (hrest.same.barIsIoSpace e).trans (h.same.barIsIoSpace e)⟩
  · -- A later round overrides an earlier one, but no BAR has two.
    rw [hrest.active, h.active, h.same.enable]
    by_cases hlater : e = d ∧ i + 1 ≤ j ∧ j < i + 1 + k
    · rw [if_pos hlater, if_pos ⟨hlater.1, by omega, by omega⟩]
    · rw [if_neg hlater]
      by_cases hfirst : e = d ∧ i ≤ j ∧ j < i + 1
      · rw [if_pos hfirst, if_pos ⟨hfirst.1, by omega, by omega⟩]
      · rw [if_neg hfirst, if_neg]
        rintro ⟨he, hij, hjk⟩
        exact hfirst ⟨he, hij, by
          by_contra hc
          exact hlater ⟨he, by omega, by omega⟩⟩
  · by_cases hj : j = i
    · -- The first round decides about its own BAR, and no later one touches it.
      subst hj
      rw [hrest.others b _ (fun j' hj' _ hc => by
        simp only [RegionName.bar.injEq, true_and] at hc
        omega)]
      exact h.mapped b j (Nat.le_refl j) (Nat.lt_succ_self j)
    · have hsame : .bar d j ∈ lists₁ b ↔ .bar d j ∈ lists b := by
        refine h.others b _ ?_
        intro j' _ hj' hc
        simp only [RegionName.bar.injEq, true_and] at hc
        omega
      have hactive : (m₁.dev d).barActive j = (m.dev d).barActive j := by
        rw [h.active, if_neg (fun hc => hj (by omega))]
      rw [hrest.mapped b j (by omega) (by omega)]
      unfold MapsTo
      rw [h.same.enable, hactive, h.same.hasBase h.places, h.same.barBus, hsame]
  · rw [hrest.others b r (fun j h1 h2 => hr j (by omega) (by omega)),
      h.others b r (fun j h1 h2 => hr j (by omega) (by omega))]

/-- No round links a region that is on a list. -/
def Fresh (m : Machine) (lists : BusName → List RegionName) (d i : Nat) : Prop :=
  (m.dev d).enable i = true → (m.dev d).barActive i = false → m.hasBase d i = true →
    .bar d i ∉ lists ((m.dev d).barBus i)

theorem rounds_end (d k i : Nat) (h : BarListing m lists)
    (hfresh : ∀ j, i ≤ j → j < i + k → Fresh m lists d j) :
    ∃ m' lists', EndsWith (fun fuel => pciBarCommandFrom fuel d k i m) m'
      ∧ Rounds m lists d i k m' lists' := by
  induction k generalizing i m lists with
  | zero =>
      refine ⟨m, lists, .const m, ⟨h, fun _ => ⟨rfl, rfl⟩, ⟨fun _ => rfl, fun _ => rfl,
        fun _ => rfl⟩, fun e j => ?_, fun b j h1 h2 => ?_, fun _ _ _ => Iff.rfl⟩⟩
      · rw [if_neg (by omega)]
      · omega
  | succ k ih =>
      rcases round_ends d i h (hfresh i (Nat.le_refl i) (by omega)) with ⟨m₁, lists₁, hends, hone⟩
      -- A round is about its own BAR, so the later ones find theirs as before.
      have hfresh₁ : ∀ j, i + 1 ≤ j → j < i + 1 + k → Fresh m₁ lists₁ d j := by
        intro j h1 h2 hen hactive hbase
        rw [hone.same.enable] at hen
        rw [hone.active, if_neg (by omega)] at hactive
        rw [hone.same.hasBase hone.places] at hbase
        rw [hone.same.barBus, hone.others _ _ (fun j' _ hj' hc => by
          simp only [RegionName.bar.injEq, true_and] at hc
          omega)]
        exact hfresh j (by omega) (by omega) hen hactive hbase
      rcases ih (i + 1) hone.listing hfresh₁ with ⟨m', lists', hrest, hrounds⟩
      refine ⟨m', lists', ?_, hone.cons hrounds⟩
      exact EndsWith.bind (g := fun fuel => pciBarCommandFrom fuel d k (i + 1)) hends hrest

/-- A write to the command register ends, every BAR having had its round. -/
theorem command_ends (d : Nat) (h : BarListing m lists) (hfresh : ∀ i, i < 6 → Fresh m lists d i) :
    ∃ m' lists', EndsWith (fun fuel => pciBarCommand fuel m d) m'
      ∧ Rounds m lists d 0 6 m' lists' :=
  rounds_end d 6 0 h (fun j _ hj => hfresh j (by omega))

end Command

section Setup

/-- A device no guest has written to: no BAR is active, no command bit is set,
    and every base is zero. -/
structure DeviceFresh (f : PciDevice) (region : Nat → Region BusName RegionName) : Prop where
  inactive : ∀ i, f.barActive i = false
  command : f.hdr.le pciCommand 2 = 0
  register : ∀ i, i < 6 → f.hdr.le (pciBarOffset i) 4 = (f.barIsIoSpace i).toNat
  base : ∀ i, (region i).base = 0
  len : ∀ i, (region i).len = f.barSize i
  size : ∀ i, f.barSize i < 2 ^ 32

/-- What the setup leaves: no BAR is on a bus, and every device is untouched. -/
structure Settled (n : Nat) (m : Machine) (lists : BusName → List RegionName) : Prop where
  listing : Listing m.iobus lists
  unmapped : ∀ b d i, .bar d i ∉ lists b
  unregistered : ∀ b d, n ≤ d → .config d ∉ lists b
  mmio : lists .mmio = []
  device : ∀ d, DeviceFresh (m.dev d) fun i => m.iobus.region (.bar d i)

theorem deviceFresh_zero :
    DeviceFresh ⟨fun _ => 0, fun _ => 0, fun _ => false, fun _ => false⟩
      (fun _ => ⟨none, 0, 0, none⟩) :=
  ⟨fun _ => rfl, ByteMem.le_zero _ _ _ (fun _ _ => rfl),
    fun _ _ => ByteMem.le_zero _ _ _ (fun _ _ => rfl), fun _ => rfl, fun _ => rfl,
    fun _ => Nat.two_pow_pos 32⟩

/-- The buses before there is a device. -/
def bootLists : BusName → List RegionName
  | .pio => [.serial, .pciData, .pciAddr]
  | _ => []

theorem settled_boot : Settled 0 Machine.boot bootLists := by
  have hempty : Listing (β := BusName) (ρ := RegionName)
      { head := fun _ => none, regionCount := fun _ => 0, region := fun _ => ⟨none, 0, 0, none⟩ }
      (fun _ => []) :=
    ⟨fun _ => rfl, fun _ _ hr => absurd hr List.not_mem_nil⟩
  have haddr := hempty.initRegister .pio (r := .pciAddr) (fun _ => List.not_mem_nil) 0xcf8 4
  have hdata := haddr.initRegister .pio (r := .pciData) (by intro b; cases b <;> decide) 0xcfc 4
  have hserial := hdata.initRegister .pio (r := .serial) (by intro b; cases b <;> decide) 0x3f8 8
  have hlisting : Listing Machine.boot.iobus bootLists := by
    refine (congrArg (Listing _) (funext fun b => ?_)).mp hserial
    cases b <;> rfl
  refine ⟨hlisting, fun b d i => ?_, fun b d _ => ?_, rfl, fun d => deviceFresh_zero⟩
  · cases b <;> simp [bootLists]
  · cases b <;> simp [bootLists]

theorem Settled.dev {n : Nat} (h : Settled n m lists) :
    Settled (n + 1) (pciDevInit m n)
      (Function.update lists .pci (.config n :: lists .pci)) := by
  -- Clearing the regions of BARs leaves the lists, which hold none of them.
  have hclear : ∀ region : RegionName → Region BusName RegionName,
      (∀ r, (∀ e i, r ≠ .bar e i) → region r = m.iobus.region r) →
      Listing { m.iobus with region := region } lists := by
    intro region hsame
    refine h.listing.congr rfl ?_
    intro b r hr
    have hbar : ∀ e i, r ≠ .bar e i := by
      rintro e i rfl
      exact h.unmapped b e i hr
    simp only [hsame r hbar, and_self]
  have hbar : ∀ d i, (pciDevInit m n).iobus.region (.bar d i) =
      if d = n then ⟨none, 0, 0, none⟩ else m.iobus.region (.bar d i) := by
    intro d i
    simp only [pciDevInit, pcibusRegisterDev, regionInit, iobusRegisterRegion, ne_eq,
      reduceCtorEq, not_false_eq_true, Function.update_of_ne]
  have hreg : Listing (pciDevInit m n).iobus
      (Function.update lists .pci (.config n :: lists .pci)) := by
    refine (hclear _ ?_).initRegister .pci (fun b => h.unregistered b n (Nat.le_refl n))
      (2 ^ 31 + m.iobus.regionCount .pci % 32 * 2 ^ 11) 256
    intro r hr
    cases r with
    | bar e i => exact absurd rfl (hr e i)
    | pciAddr => rfl
    | pciData => rfl
    | serial => rfl
    | config e => rfl
  refine ⟨hreg, fun b d i => ?_, fun b d hd => ?_, ?_, fun d => ?_⟩
  · by_cases hb : b = .pci
    · rw [hb, Function.update_self, List.mem_cons]
      exact fun hc => hc.elim (by simp only [reduceCtorEq, false_imp_iff]) (h.unmapped _ d i)
    · rw [Function.update_of_ne hb]
      exact h.unmapped b d i
  · by_cases hb : b = .pci
    · rw [hb, Function.update_self, List.mem_cons, RegionName.config.injEq]
      exact fun hc => hc.elim (by omega) (h.unregistered _ d (by omega))
    · rw [Function.update_of_ne hb]
      exact h.unregistered b d (by omega)
  · rw [Function.update_of_ne (by decide)]
    exact h.mmio
  · -- The new device is all zero, and the others are as they were.
    simp only [hbar]
    by_cases hd : d = n
    · subst hd
      simp only [if_true, pciDevInit, Function.update_self]
      exact deviceFresh_zero
    · simp only [if_neg hd, pciDevInit, Function.update_of_ne hd]
      exact h.device d

/-- The six registers do not overlap one another. -/
theorem barOffset_apart {i j : Nat} (h : i ≠ j) :
    Apart (pciBarOffset i) 4 (pciBarOffset j) 4 := by
  unfold Apart pciBarOffset
  omega

theorem Settled.bar {n : Nat} (h : Settled n m lists) (d i size : Nat) (isIoSpace : Bool)
    (hsize : size < 2 ^ 32) : Settled n (pciInitBar m d i size isIoSpace) lists := by
  refine ⟨h.listing.init (fun b => h.unmapped b d i) 0 size, h.unmapped, h.unregistered, h.mmio,
    fun e => ?_⟩
  by_cases he : e = d
  · -- Of its own device the BAR has its register, its size and its region.
    subst he
    have hu := h.device e
    have hbar : ∀ j, j ≠ i → RegionName.bar e j ≠ .bar e i := by
      intro j hji hc
      exact hji (RegionName.bar.inj hc).2
    simp only [pciInitBar, regionInit, Function.update_self]
    refine ⟨hu.inactive, ?_, fun j hj => ?_, fun j => ?_, fun j => ?_, fun j => ?_⟩
    · rw [ByteMem.le_writeLE_apart _ _ _ _ _ _ (by unfold Apart pciBarOffset pciCommand; omega)]
      exact hu.command
    · dsimp only
      by_cases hji : j = i
      · rw [hji, ByteMem.le_writeLE_self _ _ _ _ (by cases isIoSpace <;> decide),
          Function.update_self]
      · rw [ByteMem.le_writeLE_apart _ _ _ _ _ _ (barOffset_apart (Ne.symm hji)),
          Function.update_of_ne hji]
        exact hu.register j hj
    · by_cases hji : j = i
      · rw [hji, Function.update_self]
      · rw [Function.update_of_ne (hbar j hji)]
        exact hu.base j
    · dsimp only
      by_cases hji : j = i
      · rw [hji, Function.update_self, Function.update_self]
      · rw [Function.update_of_ne (hbar j hji), Function.update_of_ne hji]
        exact hu.len j
    · dsimp only
      by_cases hji : j = i
      · rw [hji, Function.update_self]
        exact hsize
      · rw [Function.update_of_ne hji]
        exact hu.size j
  · have hne : ∀ j, RegionName.bar e j ≠ .bar d i := by
      intro j hc
      exact he (RegionName.bar.inj hc).1
    simp only [pciInitBar, regionInit, Function.update_of_ne he, Function.update_of_ne (hne _)]
    exact h.device e

theorem Settled.header {n : Nat} (h : Settled n m lists) (d offset : Nat) (data : List UInt8)
    (hcommand : Apart offset data.length pciCommand 2)
    (hbars : Apart offset data.length 0x10 0x18) : Settled n (m.writeHdr d offset data) lists := by
  refine ⟨h.listing, h.unmapped, h.unregistered, h.mmio, fun e => ?_⟩
  have hu := h.device e
  by_cases he : e = d
  · subst he
    simp only [Machine.writeHdr, Function.update_self]
    refine ⟨hu.inactive, ?_, fun j hj => ?_, hu.base, hu.len, hu.size⟩
    · rw [ByteMem.le_write_apart _ _ _ _ _ hcommand]
      exact hu.command
    · rw [ByteMem.le_write_apart _ _ _ _ _ (hbars.mono (Nat.le_refl _) (Nat.le_refl _)
        (by unfold pciBarOffset; omega) (by unfold pciBarOffset; omega))]
      exact hu.register j hj
  · simp only [Machine.writeHdr, Function.update_of_ne he]
    exact hu

theorem settled_of_setUp {n : Nat} (h : Machine.SetUp n m) : ∃ lists, Settled n m lists := by
  induction h with
  | boot => exact ⟨_, settled_boot⟩
  | dev _ ih =>
      rcases ih with ⟨lists, ih⟩
      exact ⟨_, ih.dev⟩
  | bar d i size isIoSpace _ _ _ hsize ih =>
      rcases ih with ⟨lists, ih⟩
      exact ⟨lists, ih.bar d i size isIoSpace hsize⟩
  | header d offset data _ _ hcommand hbars ih =>
      rcases ih with ⟨lists, ih⟩
      exact ⟨lists, ih.header d offset data hcommand hbars⟩

end Setup

section Write

/-- The region is on the bus: walking the bus's list meets it. -/
def OnBus (m : Machine) (b : BusName) (r : RegionName) : Prop :=
  ∃ l, LinkedList m.iobus.nextOf (m.iobus.head b) l ∧ r ∈ l

theorem BarListing.onBus_iff (h : BarListing m lists) (b : BusName) (r : RegionName) :
    OnBus m b r ↔ r ∈ lists b := by
  refine ⟨fun ⟨l, hl, hr⟩ => ?_, fun hr => ⟨lists b, h.listing.linked b, hr⟩⟩
  rwa [(h.listing.linked b).unique hl]

/-- The copy a configuration write starts with. -/
def ConfigWrite.store (w : ConfigWrite) (m : Machine) : Machine :=
  m.writeHdr w.d w.offset w.data

/-- A write to the command register never enables a BAR that is inactive and
    has a base, but whose region an earlier write left on the bus. -/
def RelinksNothing (m : Machine) (w : ConfigWrite) : Prop :=
  w.offset = pciCommand → ∀ i, i < 6 → ((w.store m).dev w.d).enable i = true →
    (m.dev w.d).barActive i = false → m.hasBase w.d i = true →
    ¬OnBus m ((m.dev w.d).barBus i) (.bar w.d i)

/-- While no BAR is on a bus there is nothing to relink. -/
theorem relinksNothing_of_unmapped (h : BarListing m lists) (hno : ∀ b d i, .bar d i ∉ lists b)
    (w : ConfigWrite) : RelinksNothing m w := by
  intro _ i _ _ _ _ hon
  exact hno _ _ _ ((h.onBus_iff _ _).mp hon)

/-- The ways a write goes, with the lists it leaves. -/
inductive Written (m : Machine) (lists : BusName → List RegionName) (w : ConfigWrite) :
    Machine → (BusName → List RegionName) → Prop where
  | command {m' : Machine} {lists' : BusName → List RegionName} : w.offset = pciCommand →
      Rounds (w.store m) lists w.d 0 6 m' lists' → Written m lists w m' lists'
  | bar : 0x10 ≤ w.offset → w.offset ≤ 0x24 →
      Written m lists w (pciBarConfig (w.store m) w.d ((w.offset - 0x10) / 4)) lists
  | other : w.offset ≠ pciCommand → ¬(0x10 ≤ w.offset ∧ w.offset ≤ 0x24) →
      Written m lists w (w.store m) lists

section

variable (w : ConfigWrite)

/-- The copy changes the header of one device. -/
theorem store_dev (e : Nat) : (w.store m).dev e =
    { m.dev e with
      hdr := if e = w.d then (m.dev e).hdr.write w.offset w.data else (m.dev e).hdr } := by
  unfold ConfigWrite.store Machine.writeHdr
  by_cases he : e = w.d
  · subst he
    simp only [Function.update_self, if_true]
  · simp only [Function.update_of_ne he, if_neg he]

theorem BarListing.store (h : BarListing m lists) : BarListing (w.store m) lists := by
  refine ⟨h.listing, fun b d i hi => ?_⟩
  rw [store_dev]
  exact h.own b d i hi

theorem BarListing.config (h : BarListing m lists) (d bar : Nat) :
    BarListing (pciBarConfig m d bar) lists := by
  refine ⟨h.listing.congr rfl (fun b r _ => ?_), fun b e i hi => ?_⟩
  · unfold pciBarConfig
    by_cases hr : r = .bar d bar
    · subst hr
      simp only [Function.update_self, and_self]
    · simp only [Function.update_of_ne hr, and_self]
  · rw [h.own b e i hi]
    unfold pciBarConfig PciDevice.barBus
    by_cases he : e = d
    · subst he
      simp only [Function.update_self]
    · simp only [Function.update_of_ne he]

theorem Written.listing (h : BarListing m lists) (hw : Written m lists w m' lists') :
    BarListing m' lists' := by
  cases hw with
  | command _ hrounds => exact hrounds.listing
  | bar _ _ => exact (h.store w).config _ _
  | other _ _ => exact h.store w

/-- A write that relinks nothing ends, in one of the ways there are. -/
theorem write_ends (h : BarListing m lists) (hw : RelinksNothing m w) :
    ∃ m' lists', EndsWith (fun fuel => pciConfigWrite fuel m w.d w.offset w.data) m'
      ∧ Written m lists w m' lists' := by
  by_cases hc : w.offset = pciCommand
  · -- The condition is about the bit as written and the rest as it was.
    have hfresh : ∀ i, i < 6 → Fresh (w.store m) lists w.d i := by
      intro i hi hen hactive hbase
      have hon := hw hc i hi hen
      rw [h.onBus_iff] at hon
      rw [store_dev] at hactive ⊢
      unfold Machine.hasBase at hbase
      rw [store_dev] at hbase
      exact hon hactive hbase
    rcases command_ends w.d (h.store w) hfresh with ⟨m', lists', hends, hrounds⟩
    refine ⟨m', lists', ?_, .command hc hrounds⟩
    simp only [pciConfigWrite, if_pos hc]
    exact hends
  · by_cases hb : 0x10 ≤ w.offset ∧ w.offset ≤ 0x24
    · refine ⟨_, lists, ?_, .bar hb.1 hb.2⟩
      simp only [pciConfigWrite, if_neg hc, if_pos hb]
      exact .const _
    · refine ⟨_, lists, ?_, .other hc hb⟩
      simp only [pciConfigWrite, if_neg hc, if_neg hb]
      exact .const _

/-- Whatever a write that relinks nothing leads to, it got there in one of the
    ways there are. -/
theorem step_written {n : Nat} (h : BarListing m lists) (hw : RelinksNothing m w)
    (hs : ConfigStep n w m m') : ∃ lists', Written m lists w m' lists' := by
  rcases write_ends w h hw with ⟨m₁, lists', hends, hwritten⟩
  rcases hs with ⟨_, fuel, hfuel⟩
  rw [hends.2 fuel m' hfuel]
  exact ⟨lists', hwritten⟩

end

theorem Settled.barListing {n : Nat} (h : Settled n m lists) : BarListing m lists :=
  ⟨h.listing, fun b d i hi => absurd hi (h.unmapped b d i)⟩

theorem run_listing {n : Nat} (h0 : Machine.SetUp n m)
    (h : Run (ConfigStep n) RelinksNothing m m') : ∃ lists, BarListing m' lists := by
  refine h.invariant (P := fun m => ∃ lists, BarListing m lists) ?_ ?_
  · rcases settled_of_setUp h0 with ⟨lists, hl⟩
    exact ⟨lists, hl.barListing⟩
  · rintro m w m' ⟨lists, hl⟩ hw hs
    rcases step_written w hl hw hs with ⟨lists', hwritten⟩
    exact ⟨lists', hwritten.listing w hl⟩

end Write

section Frame

/-- The rounds of the command register move no region and write no header, even
    where the links of a bus lead in a circle. -/
theorem command_keeps {fuel : Nat} (d k i : Nat) (h : pciBarCommandFrom fuel d k i m = some m') :
    SamePlaces m.iobus m'.iobus ∧ SameDevices m m' := by
  induction k generalizing i m with
  | zero =>
      rw [← Option.some.inj h]
      exact ⟨fun _ => ⟨rfl, rfl⟩, fun _ => rfl, fun _ => rfl, fun _ => rfl⟩
  | succ k ih =>
      rcases Option.bind_eq_some_iff.mp h with ⟨m₁, hround, hrest⟩
      -- Registering and unlinking change links; the base and the length stay.
      have hone : SamePlaces m.iobus m₁.iobus ∧ SameDevices m m₁ := by
        unfold pciBarCommandAt at hround
        dsimp only at hround
        split_ifs at hround
        · rw [← Option.some.inj hround]
          exact ⟨samePlaces_register _ _ _, sameDevices_setActive d i m _ true⟩
        · rw [← Option.some.inj hround]
          exact ⟨fun _ => ⟨rfl, rfl⟩, sameDevices_setActive d i m _ true⟩
        · rcases Option.map_eq_some_iff.mp hround with ⟨iobus, hd, rfl⟩
          exact ⟨samePlaces_deregister hd, sameDevices_setActive d i m iobus false⟩
        · rw [← Option.some.inj hround]
          exact ⟨fun _ => ⟨rfl, rfl⟩, sameDevices_setActive d i m _ false⟩
      rcases ih (i + 1) hrest with ⟨hp, hs⟩
      refine ⟨fun r => ⟨(hp r).1.trans (hone.1 r).1, (hp r).2.trans (hone.1 r).2⟩, ?_, ?_, ?_⟩
      · exact fun e => (hs.hdr e).trans (hone.2.hdr e)
      · exact fun e => (hs.barSize e).trans (hone.2.barSize e)
      · exact fun e => (hs.barIsIoSpace e).trans (hone.2.barIsIoSpace e)

/-- A write moves no region but a BAR's. -/
theorem configWrite_places {fuel d offset : Nat} {data : List UInt8}
    (h : pciConfigWrite fuel m d offset data = some m') (r : RegionName)
    (hr : ∀ e i, r ≠ .bar e i) : (m'.iobus.region r).base = (m.iobus.region r).base ∧
      (m'.iobus.region r).len = (m.iobus.region r).len := by
  unfold pciConfigWrite at h
  dsimp only at h
  split_ifs at h
  · exact (command_keeps d 6 0 h).1 r
  · rw [← Option.some.inj h]
    simp only [pciBarConfig, Function.update_of_ne (hr _ _)]
    exact ⟨rfl, rfl⟩
  · rw [← Option.some.inj h]
    exact ⟨rfl, rfl⟩

/-- Outside the BAR registers a write is the copy it starts with. -/
theorem configWrite_hdr {fuel d offset : Nat} {data : List UInt8}
    (h : pciConfigWrite fuel m d offset data = some m') (e x : Nat) (hx : x < 0x10 ∨ 0x28 ≤ x) :
    (m'.dev e).hdr x = if e = d then (m.dev e).hdr.write offset data x else (m.dev e).hdr x := by
  have hstore : ((m.writeHdr d offset data).dev e).hdr x
      = if e = d then (m.dev e).hdr.write offset data x else (m.dev e).hdr x := by
    have hdev := store_dev (m := m) ⟨d, offset, data⟩ e
    rw [ConfigWrite.store] at hdev
    rw [hdev]
    split_ifs <;> rfl
  unfold pciConfigWrite at h
  dsimp only at h
  split_ifs at h with hcommand hbars
  · rw [(command_keeps d 6 0 h).2.hdr e]
    exact hstore
  · -- The BAR's register is written back where it lies.
    rw [← Option.some.inj h, ← hstore]
    unfold pciBarConfig
    by_cases he : e = d
    · subst he
      simp only [Function.update_self]
      refine ByteMem.write_outside _ _ _ _ ?_
      rw [ByteMem.length_leBytes]
      unfold pciBarOffset
      omega
    · simp only [Function.update_of_ne he]
  · rw [← Option.some.inj h]
    exact hstore

end Frame

section WellFormed

/-- The lists end without meeting a region twice, and both walks over them
    return. -/
structure ListsWellFormed (m : Machine) : Prop where
  lists : ∀ b, ∃ l, LinkedList m.iobus.nextOf (m.iobus.head b) l ∧ l.Nodup
  find : ∀ b addr, ∃ fuel r, iobusFindRegion fuel m.iobus b addr = some r
  deregister : ∀ r, ∃ fuel t, iobusDeregisterRegion fuel m.iobus r = some t

/-- As long as no write relinks a region, the lists stay well formed. -/
theorem bus_lists_well_formed {n : Nat} (h0 : Machine.SetUp n m)
    (h : Run (ConfigStep n) RelinksNothing m m') : ListsWellFormed m' := by
  rcases run_listing h0 h with ⟨lists, hl⟩
  refine ⟨fun b => ?_, fun b addr => ?_, fun r => ?_⟩
  · exact ⟨lists b, hl.listing.linked b, (hl.listing.linked b).nodup⟩
  · rcases (hl.listing.find b addr).exists_fuel with ⟨fuel, hfuel⟩
    exact ⟨fuel, _, hfuel⟩
  · rcases hl.listing.deregister r with ⟨t, hends, _⟩
    rcases hends.exists_fuel with ⟨fuel, hfuel⟩
    exact ⟨fuel, t, hfuel⟩

/-- One device with a memory BAR of `0x100` bytes, as the block device has. -/
def sampleMachine : Machine := pciInitBar (pciDevInit Machine.boot 0) 0 0 0x100 false

theorem sampleMachine_setUp : Machine.SetUp 1 sampleMachine :=
  .bar 0 0 0x100 false (.dev .boot) (by decide) (by decide) (by decide)

/-- Writes carried out one after the other. -/
def configWrites (fuel : Nat) : Machine → List ConfigWrite → Option Machine
  | m, [] => some m
  | m, w :: ws => (pciConfigWrite fuel m w.d w.offset w.data).bind (configWrites fuel · ws)

theorem run_configWrites {n fuel : Nat} {m₀ : Machine} {ws : List ConfigWrite}
    (h : Run (ConfigStep n) (fun _ _ => True) m₀ m) (hws : ∀ w ∈ ws, w.Forwarded n)
    (heq : configWrites fuel m ws = some m') : Run (ConfigStep n) (fun _ _ => True) m₀ m' := by
  induction ws generalizing m with
  | nil =>
      rw [configWrites, Option.some.injEq] at heq
      rwa [← heq]
  | cons w ws ih =>
      rcases Option.bind_eq_some_iff.mp heq with ⟨m₁, hm₁, hrest⟩
      refine ih (.tail w h trivial ⟨hws w List.mem_cons_self, fuel, hm₁⟩)
        (fun w' hw' => hws w' (List.mem_cons_of_mem w hw')) hrest

/-- Giving the BAR a base. -/
def sampleBase : ConfigWrite := ⟨0, 0x10, [0, 0, 0, 0xf0]⟩

/-- Enabling memory space. -/
def sampleEnable : ConfigWrite := ⟨0, 4, [2, 0]⟩

/-- The machine once the BAR has a base. -/
def sampleProgrammed : Machine := pciBarConfig (sampleBase.store sampleMachine) 0 0

theorem sampleBase_step : ConfigStep 1 sampleBase sampleMachine sampleProgrammed := by
  refine ⟨by decide, 0, ?_⟩
  simp [pciConfigWrite, pciCommand, sampleBase, sampleProgrammed, ConfigWrite.store]

theorem sampleEnable_relinks : RelinksNothing sampleProgrammed sampleEnable := by
  rcases settled_of_setUp sampleMachine_setUp with ⟨lists, hs⟩
  exact relinksNothing_of_unmapped ((hs.barListing.store sampleBase).config 0 0) hs.unmapped _

theorem sampleEnable_step : ∃ m, ConfigStep 1 sampleEnable sampleProgrammed m
    ∧ m.iobus.head .mmio = some (.bar 0 0) ∧ (m.dev 0).hdr.le pciCommand 2 = 2
    ∧ (m.dev 0).hdr.le (pciBarOffset 0) 4 = 0xf0000000 := by
  have hend : (pciConfigWrite 0 sampleProgrammed 0 4 [2, 0]).map (fun m =>
      (m.iobus.head .mmio, (m.dev 0).hdr.le pciCommand 2, (m.dev 0).hdr.le (pciBarOffset 0) 4))
      = some (some (.bar 0 0), 2, 0xf0000000) := by decide +kernel
  rcases Option.map_eq_some_iff.mp hend with ⟨m, hm, hfacts⟩
  simp only [Prod.mk.injEq] at hfacts
  exact ⟨m, ⟨by decide, 0, hm⟩, hfacts⟩

/-- The BAR is given a base and enabled, and its region is on the bus. -/
theorem bus_lists_well_formed_mapped : ∃ m, Machine.SetUp 1 sampleMachine
    ∧ Run (ConfigStep 1) RelinksNothing sampleMachine m
    ∧ m.iobus.head .mmio = some (.bar 0 0) ∧ ListsWellFormed m := by
  rcases sampleEnable_step with ⟨m, hs, hhead, _⟩
  have hrun : Run (ConfigStep 1) RelinksNothing sampleMachine m :=
    .tail sampleEnable (.single sampleBase (fun hc => absurd hc (by decide)) sampleBase_step)
      sampleEnable_relinks hs
  exact ⟨m, sampleMachine_setUp, hrun, hhead, bus_lists_well_formed sampleMachine_setUp hrun⟩

/-- A region is left on the bus when its BAR is disabled while the base is
    zero, and a later write links it to itself. -/
theorem bus_lists_cyclic : ¬∀ (n : Nat) (m m' : Machine), Machine.SetUp n m →
    Run (ConfigStep n) (fun _ _ => True) m m' → ListsWellFormed m' := by
  intro h
  let ws : List ConfigWrite := [⟨0, 0x10, [0, 0x10, 0, 0]⟩, ⟨0, 4, [2, 0]⟩,
    ⟨0, 0x10, [0, 0, 0, 0]⟩, ⟨0, 4, [0, 0]⟩, ⟨0, 0x10, [0, 0x10, 0, 0]⟩, ⟨0, 4, [2, 0]⟩]
  -- The region is the head of the list and its own successor.
  have hend : (configWrites 2 sampleMachine ws).map
      (fun m => (m.iobus.head .mmio, m.iobus.nextOf (.bar 0 0)))
      = some (some (.bar 0 0), some (.bar 0 0)) := by decide +kernel
  rcases Option.map_eq_some_iff.mp hend with ⟨m, hm, hlinks⟩
  have hrun := run_configWrites (n := 1) (.refl sampleMachine) (by decide) hm
  rcases (h 1 sampleMachine m sampleMachine_setUp hrun).lists .mmio with ⟨l, hl, _⟩
  rcases Prod.mk.inj hlinks with ⟨hhead, hnext⟩
  rw [hhead] at hl
  cases l with
  | nil => exact absurd hl (by simp only [LinkedList, reduceCtorEq, not_false_eq_true])
  | cons r l =>
      have hr : .bar 0 0 = r := Option.some.inj hl.1
      exact hl.next_ne_self (hr ▸ List.mem_cons_self) hnext

end WellFormed

end Microv
