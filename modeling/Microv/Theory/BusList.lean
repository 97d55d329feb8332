import Mathlib.Data.List.Find
import Microv.Core.ConfigPorts
import Microv.Lib.Run
import Microv.Theory.Iobus

/-!
# Bus Lists as Abstract Lists

Any number of buses and regions, and any sequence of the three operations of
`iobus.c` on them.

The abstract state is a list of regions for each bus. Registering conses,
deregistering removes, and setting up a region changes no list. A caller owes
two things: a region that is set up, or registered, is on no list at that
moment. Nothing is asked of a region that is deregistered: its `bus` and
`next` are left as they were when it was unlinked, so it may be deregistered
again, and the walk then does not find it.

`BusOp.step_listing` is the simulation, one operation at a time, and it needs
nothing else. The lookup does: it compares with `base + len - 1` in 64 bits,
which is the end of the interval unless that is past the address space, or the
interval is empty and starts at zero. A region of either kind is found where
it is not, or not found where it is (`covers_iff_interval`).

The count goes up with each region and never down, so it is the length of the
list until the first region is taken off. `pcibus_register_dev` takes the
number of a device from it, and the numbers are the positions on the list as
long as that lasts.

## Main definitions

* `BusOp`: An operation on the buses.
* `BusOp.exec`, `BusOp.apply`: What it does to the machine and to the lists.
* `BusOp.Admitted`: What the caller owes.
* `Region.Proper`: A region whose last address can be computed.
* `ListRefines`: The machine is what the lists say.
* `devNums`: The numbers of the devices on a bus.

## Theorems

* `BusOp.step_listing`: One operation keeps the machine and the lists in step.
* `covers_iff_interval`: When the test is the interval.
* `busOps_invariant`: The rule for invariants of a run.
* `busList_refines`: Every run refines the lists.
* `regionCount_numbers`: The count, and the numbers taken from it.
-/

namespace Microv

/-- An operation on the buses. -/
inductive BusOp (β ρ : Type) where
  | init (r : ρ) (base len : Nat)
  | register (b : β) (r : ρ)
  | deregister (r : ρ)

/-- The addresses of a region. -/
def Region.Interval {β ρ : Type} (r : Region β ρ) (addr : Nat) : Prop :=
  r.base ≤ addr ∧ addr < r.base + r.len

instance Region.decidableInterval {β ρ : Type} (r : Region β ρ) (addr : Nat) :
    Decidable (r.Interval addr) :=
  inferInstanceAs (Decidable (_ ∧ _))

/-- The region ends inside the address space, and is not the empty one at
    zero. -/
def Region.Proper {β ρ : Type} (r : Region β ρ) : Prop :=
  0 < r.base + r.len ∧ r.base + r.len ≤ 2 ^ 64

section Regions

variable {β ρ : Type} {r r' : Region β ρ}

theorem Region.Proper.congr (h : r.Proper) (hplace : r'.base = r.base ∧ r'.len = r.len) :
    r'.Proper := by
  unfold Region.Proper at *
  rw [hplace.1, hplace.2]
  exact h

theorem Region.Proper.covers_iff (h : r.Proper) {addr : Nat} (haddr : addr < 2 ^ 64) :
    r.covers addr = true ↔ r.Interval addr := by
  unfold Region.Proper at h
  simp only [Region.covers, Bool.and_eq_true, decide_eq_true_eq, Region.Interval]
  unfold Region.last
  omega

/-- The test of the lookup is the interval, for exactly these regions. An
    empty region elsewhere has its last address before its first. -/
theorem covers_iff_interval (hbase : r.base < 2 ^ 64) (hlen : r.len < 2 ^ 64) :
    (∀ addr, addr < 2 ^ 64 → (r.covers addr = true ↔ r.Interval addr)) ↔ r.Proper := by
  constructor
  · intro h
    have hstart := h r.base hbase
    simp only [Region.covers, Bool.and_eq_true, decide_eq_true_eq, Region.Interval] at hstart
    unfold Region.last at hstart
    unfold Region.Proper
    omega
  · intro h addr haddr
    exact h.covers_iff haddr

variable {s : Iobus β ρ} {lists : β → List ρ}

/-- The machine is what the lists say: the links of each bus lead through its
    list and end, and a lookup ends with the first region whose interval has
    the address. -/
structure ListRefines (s : Iobus β ρ) (lists : β → List ρ) : Prop where
  linked : ∀ b, LinkedList s.nextOf (s.head b) (lists b)
  nodup : ∀ b, (lists b).Nodup
  find : ∀ b addr, addr < 2 ^ 64 → EndsWith (fun fuel => iobusFindRegion fuel s b addr)
    ((lists b).find? fun r => decide ((s.region r).Interval addr))

/-- With proper regions the lookup goes by the intervals. -/
theorem Listing.refines (h : Listing s lists) (hp : ∀ b, ∀ r ∈ lists b, (s.region r).Proper) :
    ListRefines s lists where
  linked := h.linked
  nodup := fun b => (h.linked b).nodup
  find := fun b addr haddr => by
    have hsame : (lists b).find? (fun r => (s.region r).covers addr)
        = (lists b).find? fun r => decide ((s.region r).Interval addr) := by
      refine List.find?_congr ?_
      intro r hr
      rw [Bool.eq_iff_iff, decide_eq_true_eq]
      exact (hp b r hr).covers_iff haddr
    rw [← hsame]
    exact h.find b addr

end Regions

section

variable {β ρ : Type} [DecidableEq β] [DecidableEq ρ] {s t : Iobus β ρ} {lists : β → List ρ}

namespace BusOp

/-- The operation on the machine; the walk may need many steps. -/
def exec (fuel : Nat) (s : Iobus β ρ) : BusOp β ρ → Option (Iobus β ρ)
  | .init r base len => some (regionInit s r base len)
  | .register b r => some (iobusRegisterRegion s b r)
  | .deregister r => iobusDeregisterRegion fuel s r

/-- The operation on the lists. -/
def apply (lists : β → List ρ) : BusOp β ρ → β → List ρ
  | .init _ _ _ => lists
  | .register b r => Function.update lists b (r :: lists b)
  | .deregister r => fun b => (lists b).erase r

/-- The operation on the counts. -/
def counts (count : β → Nat) : BusOp β ρ → β → Nat
  | .register b _ => Function.update count b ((count b + 1) % 2 ^ 64)
  | _ => count

/-- A region that is set up or registered is on no list. -/
def Admitted (lists : β → List ρ) : BusOp β ρ → Prop
  | .init r _ _ => ∀ b, r ∉ lists b
  | .register _ r => ∀ b, r ∉ lists b
  | .deregister _ => True

/-- The operation is carried out on both. -/
def Step (e : BusOp β ρ) (s t : Iobus β ρ × (β → List ρ)) : Prop :=
  (∃ fuel, e.exec fuel s.1 = some t.1) ∧ t.2 = e.apply s.2

/-- What is on a list afterwards was there before, or was just registered. -/
theorem mem_apply {e : BusOp β ρ} {b : β} {q : ρ} (hq : q ∈ e.apply lists b) :
    q ∈ lists b ∨ e = .register b q := by
  cases e with
  | init r base len => exact Or.inl hq
  | register b' r =>
      simp only [apply] at hq
      by_cases hb : b = b'
      · subst hb
        rw [Function.update_self] at hq
        rcases List.mem_cons.mp hq with rfl | hq
        · exact Or.inr rfl
        · exact Or.inl hq
      · rw [Function.update_of_ne hb] at hq
        exact Or.inl hq
  | deregister r => exact Or.inl (List.mem_of_mem_erase hq)

theorem regionCount_deregister {fuel : Nat} {r : ρ}
    (h : iobusDeregisterRegion fuel s r = some t) : t.regionCount = s.regionCount := by
  unfold iobusDeregisterRegion at h
  split at h
  · rw [← Option.some.inj h]
  · rcases Option.map_eq_some_iff.mp h with ⟨p, -, rfl⟩
    split
    · rfl
    · cases p <;> rfl

/-- One operation ends, keeps the machine and the lists in step, and moves no
    region that is on a list. -/
theorem step_listing (h : Listing s lists) (e : BusOp β ρ) (ha : e.Admitted lists) :
    ∃ t, EndsWith (fun fuel => e.exec fuel s) t ∧ Listing t (e.apply lists) ∧
      t.regionCount = e.counts s.regionCount ∧
      ∀ b, ∀ q ∈ e.apply lists b, (t.region q).base = (s.region q).base ∧
        (t.region q).len = (s.region q).len := by
  cases e with
  | init r base len =>
      refine ⟨regionInit s r base len, .const _, h.init ha base len, rfl, ?_⟩
      intro b q hq
      -- The region that is set up is on no list.
      have hqr : q ≠ r := by
        rintro rfl
        exact ha b hq
      simp only [regionInit, Function.update_of_ne hqr, and_self]
  | register b r =>
      exact ⟨iobusRegisterRegion s b r, .const _, h.register b ha, rfl,
        fun _ q _ => samePlaces_register s b r q⟩
  | deregister r =>
      rcases h.deregister r with ⟨t, hends, hlist, hplaces⟩
      rcases hends.exists_fuel with ⟨fuel, hf⟩
      exact ⟨t, hends, hlist, regionCount_deregister hf, fun _ q _ => hplaces q⟩

/-- The same for a step that was taken. -/
theorem Step.listing {e : BusOp β ρ} {s t : Iobus β ρ × (β → List ρ)} (hs : e.Step s t)
    (h : Listing s.1 s.2) (ha : e.Admitted s.2) :
    Listing t.1 t.2 ∧ t.1.regionCount = e.counts s.1.regionCount ∧
      ∀ b, ∀ q ∈ t.2 b, (t.1.region q).base = (s.1.region q).base ∧
        (t.1.region q).len = (s.1.region q).len := by
  rcases step_listing h e ha with ⟨u, hends, hlist⟩
  rcases hs with ⟨⟨fuel, hf⟩, hlists⟩
  rw [hlists, hends.2 fuel t.1 hf]
  exact hlist

end BusOp

/-- A region is registered only where its last address can be computed. -/
def BusOp.Places (s : Iobus β ρ) : BusOp β ρ → Prop
  | .register _ r => (s.region r).Proper
  | _ => True

/-- No region is taken off the bus `b`. -/
def BusOp.Keeps (b : β) (lists : β → List ρ) : BusOp β ρ → Prop
  | .deregister r => r ∉ lists b
  | _ => True

/-- A region registered on the bus `b` is where `pcibus_register_dev` puts it. -/
def BusOp.Numbers (b : β) (s : Iobus β ρ) : BusOp β ρ → Prop
  | .register b' r => b' = b → (s.region r).base = 2 ^ 31 + s.regionCount b % 32 * 2 ^ 11
  | _ => True

/-- The numbers of the devices on a bus, the last one first. -/
def devNums (s : Iobus β ρ) (l : List ρ) : List Nat :=
  l.map fun r => devNum (s.region r).base

namespace BusOp

/-- As long as nothing is taken off the bus `b`, an operation leaves its list
    and its count alone or adds a region to both. -/
theorem keeps_cases {b : β} {e : BusOp β ρ} (hk : e.Keeps b lists) (count : β → Nat) :
    (e.apply lists b = lists b ∧ e.counts count b = count b) ∨
      ∃ r, e = .register b r ∧ e.apply lists b = r :: lists b ∧
        e.counts count b = (count b + 1) % 2 ^ 64 := by
  cases e with
  | init r base len => exact Or.inl ⟨rfl, rfl⟩
  | register b' r =>
      by_cases hb : b = b'
      · subst hb
        exact Or.inr ⟨r, rfl, Function.update_self .., Function.update_self ..⟩
      · exact Or.inl ⟨Function.update_of_ne hb _ _, Function.update_of_ne hb _ _⟩
  | deregister r => exact Or.inl ⟨List.erase_of_not_mem hk, rfl⟩

variable {b : β} {e : BusOp β ρ} {u v : Iobus β ρ × (β → List ρ)}

theorem Step.count (hs : e.Step u v) (hu : Listing u.1 u.2) (ha : e.Admitted u.2)
    (hk : e.Keeps b u.2) (h : u.1.regionCount b = (u.2 b).length % 2 ^ 64) :
    v.1.regionCount b = (v.2 b).length % 2 ^ 64 := by
  rw [(hs.listing hu ha).2.1, hs.2]
  rcases keeps_cases hk u.1.regionCount with ⟨hlist, hcount⟩ | ⟨r, -, hlist, hcount⟩
  · rw [hlist, hcount, h]
  · rw [hlist, hcount, h, List.length_cons]
    omega

/-- The number a device is given is the length of the list, so the numbers on
    the list stay what they were and the new one goes in front. -/
theorem Step.numbers (hs : e.Step u v) (hu : Listing u.1 u.2) (ha : e.Admitted u.2)
    (hk : e.Keeps b u.2) (hn : e.Numbers b u.1)
    (hcount : u.1.regionCount b = (u.2 b).length % 2 ^ 64)
    (h : (u.2 b).length ≤ 32 → devNums u.1 (u.2 b) = (List.range (u.2 b).length).reverse)
    (hlen : (v.2 b).length ≤ 32) :
    devNums v.1 (v.2 b) = (List.range (v.2 b).length).reverse := by
  have hsame : devNums v.1 (v.2 b) = devNums u.1 (v.2 b) := by
    refine List.map_congr_left ?_
    intro q hq
    rw [((hs.listing hu ha).2.2 b q hq).1]
  rw [hsame]
  rw [hs.2] at hlen ⊢
  rcases keeps_cases hk u.1.regionCount with ⟨hlist, -⟩ | ⟨r, rfl, hlist, -⟩
  · rw [hlist] at hlen ⊢
    exact h hlen
  · rw [hlist, List.length_cons] at hlen ⊢
    have hnum : devNum (u.1.region r).base = (u.2 b).length := by
      rw [hn rfl, hcount, devNum]
      omega
    rw [devNums, List.map_cons, hnum, List.range_succ, List.reverse_append]
    exact congrArg _ (h (by omega))

end BusOp

section Runs

variable (s : Iobus β ρ) (hempty : ∀ b, s.head b = none)

include hempty

/-- What holds of the machine and the lists, along with the lists themselves,
    is kept by a run if every operation keeps it. -/
theorem busOps_invariant {C : Iobus β ρ × (β → List ρ) → BusOp β ρ → Prop}
    {P : Iobus β ρ × (β → List ρ) → Prop} {t : Iobus β ρ × (β → List ρ)}
    (hrun : Run BusOp.Step C (s, fun _ => []) t) (ha : ∀ u e, C u e → e.Admitted u.2)
    (h0 : P (s, fun _ => []))
    (hstep : ∀ u e v, Listing u.1 u.2 → P u → C u e → e.Step u v → P v) :
    Listing t.1 t.2 ∧ P t := by
  refine hrun.invariant (P := fun u => Listing u.1 u.2 ∧ P u) ⟨⟨hempty, ?_⟩, h0⟩ ?_
  · intro b r hr
    exact absurd hr List.not_mem_nil
  · rintro u e v ⟨hu, hp⟩ hc hs
    exact ⟨(hs.listing hu (ha u e hc)).1, hstep u e v hu hp hc hs⟩

/-- Every run keeps the lists, and every operation a caller may make next
    ends. A run that registers proper regions only also looks up by them. -/
theorem busList_refines :
    (∀ t, Run BusOp.Step (fun (u : Iobus β ρ × (β → List ρ)) e => e.Admitted u.2)
      (s, fun _ => []) t →
        (∀ b, LinkedList t.1.nextOf (t.1.head b) (t.2 b) ∧ (t.2 b).Nodup) ∧
        ∀ e : BusOp β ρ, e.Admitted t.2 → ∃ u, EndsWith (fun fuel => e.exec fuel t.1) u) ∧
    ∀ t, Run BusOp.Step
      (fun (u : Iobus β ρ × (β → List ρ)) e => e.Admitted u.2 ∧ e.Places u.1)
      (s, fun _ => []) t → ListRefines t.1 t.2 := by
  constructor
  · intro t hrun
    have hlist := (busOps_invariant s hempty (P := fun _ => True) hrun (fun _ _ hc => hc) trivial
      (fun _ _ _ _ _ _ _ => trivial)).1
    refine ⟨fun b => ⟨hlist.linked b, (hlist.linked b).nodup⟩, ?_⟩
    intro e ha
    rcases BusOp.step_listing hlist e ha with ⟨u, hends, -⟩
    exact ⟨u, hends⟩
  · intro t hrun
    have hproper := busOps_invariant s hempty
      (P := fun u => ∀ b, ∀ r ∈ u.2 b, (u.1.region r).Proper) hrun (fun _ _ hc => hc.1)
      (fun b r hr => absurd hr List.not_mem_nil) (by
        intro u e v hu hp hc hs b q hq
        refine Region.Proper.congr ?_ ((hs.listing hu hc.1).2.2 b q hq)
        -- On the list it was proper already, or it was just registered.
        rw [hs.2] at hq
        rcases BusOp.mem_apply hq with hold | rfl
        · exact hp b q hold
        · exact hc.2)
    exact hproper.1.refines hproper.2

/-- As long as nothing is taken off a bus its count is the length of its
    list. The devices on it, if all were put there by `pcibus_register_dev`,
    then have the numbers below that count, each once, and the next one gets
    the count itself. -/
theorem regionCount_numbers (b : β) (hzero : s.regionCount b = 0) :
    (∀ t, Run BusOp.Step
      (fun (u : Iobus β ρ × (β → List ρ)) e => e.Admitted u.2 ∧ e.Keeps b u.2)
      (s, fun _ => []) t →
        (t.2 b).length < 2 ^ 64 → t.1.regionCount b = (t.2 b).length) ∧
    ∀ t, Run BusOp.Step
      (fun (u : Iobus β ρ × (β → List ρ)) e => (e.Admitted u.2 ∧ e.Keeps b u.2) ∧ e.Numbers b u.1)
      (s, fun _ => []) t →
        ((t.2 b).length ≤ 32 → devNums t.1 (t.2 b) = (List.range (t.2 b).length).reverse) ∧
        ((t.2 b).length < 32 → t.1.regionCount b % 32 = (t.2 b).length) := by
  -- The counter follows the length of the list, as long as nothing leaves it.
  have hcount : ∀ t, Run BusOp.Step
      (fun (u : Iobus β ρ × (β → List ρ)) e => e.Admitted u.2 ∧ e.Keeps b u.2)
      (s, fun _ => []) t → t.1.regionCount b = (t.2 b).length % 2 ^ 64 := by
    intro t hrun
    exact (busOps_invariant s hempty
      (P := fun u => u.1.regionCount b = (u.2 b).length % 2 ^ 64) hrun (fun _ _ hc => hc.1) hzero
      (fun u e v hu hp hc hs => hs.count hu hc.1 hc.2 hp)).2
  constructor
  · intro t hrun hlen
    rw [hcount t hrun, Nat.mod_eq_of_lt hlen]
  · intro t hrun
    -- Each device then takes the number of those before it.
    have hnums := busOps_invariant s hempty
      (P := fun u => u.1.regionCount b = (u.2 b).length % 2 ^ 64 ∧
        ((u.2 b).length ≤ 32 → devNums u.1 (u.2 b) = (List.range (u.2 b).length).reverse))
      hrun (fun _ _ hc => hc.1.1) ⟨hzero, fun _ => rfl⟩ (by
        rintro u e v hu ⟨hcnt, hnum⟩ ⟨⟨ha, hk⟩, hn⟩ hs
        exact ⟨hs.count hu ha hk hcnt, hs.numbers hu ha hk hn hcnt hnum⟩)
    refine ⟨hnums.2.2, ?_⟩
    intro hlen
    rw [hnums.2.1]
    omega

end Runs

/-- A device is set up and registered, and gets its number in between. -/
theorem run_registerDev {s t : Iobus β ρ × (β → List ρ)} {b : β} {r : ρ}
    (hrun : Run BusOp.Step
      (fun (u : Iobus β ρ × (β → List ρ)) e => (e.Admitted u.2 ∧ e.Keeps b u.2) ∧ e.Numbers b u.1)
      s t) (hr : ∀ b', r ∉ t.2 b') :
    Run BusOp.Step
      (fun (u : Iobus β ρ × (β → List ρ)) e => (e.Admitted u.2 ∧ e.Keeps b u.2) ∧ e.Numbers b u.1)
      s (pcibusRegisterDev t.1 b r, Function.update t.2 b (r :: t.2 b)) := by
  refine .tail (t := (regionInit t.1 r (2 ^ 31 + t.1.regionCount b % 32 * 2 ^ 11) 256, t.2))
    (.register b r) (.tail (.init r (2 ^ 31 + t.1.regionCount b % 32 * 2 ^ 11) 256) hrun
      ⟨⟨hr, trivial⟩, trivial⟩ ⟨⟨0, rfl⟩, rfl⟩) ⟨⟨hr, trivial⟩, ?_⟩ ⟨⟨0, rfl⟩, rfl⟩
  intro _
  simp only [regionInit, Function.update_self]

end

section Samples

/-- The buses before anything is on them. -/
def emptyBuses : Iobus BusName RegionName :=
  { head := fun _ => none, regionCount := fun _ => 0, region := fun _ => ⟨none, 0, 0, none⟩ }

/-- A region set up and put on a bus. -/
def onBus (b : BusName) (r : RegionName) (base len : Nat) :
    Iobus BusName RegionName × (BusName → List RegionName) :=
  (iobusRegisterRegion (regionInit emptyBuses r base len) b r,
    Function.update (fun _ => []) b [r])

theorem onBus_run {C : Iobus BusName RegionName × (BusName → List RegionName) →
      BusOp BusName RegionName → Prop} (b : BusName) (r : RegionName) (base len : Nat)
    (hinit : C (emptyBuses, fun _ => []) (.init r base len))
    (hreg : C (regionInit emptyBuses r base len, fun _ => []) (.register b r)) :
    Run BusOp.Step C (emptyBuses, fun _ => []) (onBus b r base len) :=
  ((Run.refl _).tail (.init r base len) hinit (u := (regionInit emptyBuses r base len, fun _ => []))
    ⟨⟨0, rfl⟩, rfl⟩).tail (.register b r) hreg ⟨⟨0, rfl⟩, rfl⟩

/-- A BAR's region of 16 bytes is found where it is. -/
theorem busList_refines_bar :
    ListRefines (onBus .mmio (.bar 0 0) 0x1000 16).1 (onBus .mmio (.bar 0 0) 0x1000 16).2 :=
  (busList_refines emptyBuses fun _ => rfl).2 _
    (onBus_run .mmio (.bar 0 0) 0x1000 16 ⟨fun _ => List.not_mem_nil, trivial⟩
      ⟨fun _ => List.not_mem_nil, by unfold BusOp.Places Region.Proper; decide⟩)

/-- An empty region at zero is found at every address. -/
theorem busList_refines_empty :
    Run BusOp.Step (fun (u : Iobus BusName RegionName × (BusName → List RegionName)) e =>
        e.Admitted u.2) (emptyBuses, fun _ => []) (onBus .mmio (.bar 0 0) 0 0) ∧
    iobusFindRegion 1 (onBus .mmio (.bar 0 0) 0 0).1 .mmio 5 = some (some (.bar 0 0)) ∧
    (∀ addr, ¬ ((onBus .mmio (.bar 0 0) 0 0).1.region (.bar 0 0)).Interval addr) ∧
    ¬ ListRefines (onBus .mmio (.bar 0 0) 0 0).1 (onBus .mmio (.bar 0 0) 0 0).2 := by
  have hfound : iobusFindRegion 1 (onBus .mmio (.bar 0 0) 0 0).1 .mmio 5 = some (some (.bar 0 0)) :=
    by decide
  refine ⟨onBus_run .mmio (.bar 0 0) 0 0 (fun _ => List.not_mem_nil) (fun _ => List.not_mem_nil),
    hfound, fun addr h => absurd h.2 (Nat.not_lt_zero addr), fun h => ?_⟩
  have hfind := (h.find .mmio 5 (by decide)).2 1 _ hfound
  exact absurd hfind (by decide)

/-- Two devices on the bus of the configuration spaces. -/
def twoDevices : Iobus BusName RegionName × (BusName → List RegionName) :=
  (pcibusRegisterDev (pcibusRegisterDev emptyBuses .pci (.config 0)) .pci (.config 1),
    Function.update (Function.update (fun _ => []) .pci [.config 0]) .pci [.config 1, .config 0])

/-- They get the numbers 0 and 1. -/
theorem regionCount_numbers_two :
    (twoDevices.2 .pci).length = 2 ∧
    devNums twoDevices.1 (twoDevices.2 .pci) = (List.range (twoDevices.2 .pci).length).reverse :=
  ⟨rfl, ((regionCount_numbers emptyBuses (fun _ => rfl) .pci rfl).2 twoDevices
    (run_registerDev (run_registerDev (.refl _) (fun _ => List.not_mem_nil))
      (fun b => by cases b <;> decide))).1 (by decide)⟩

/-- A BAR that was mapped and unmapped is still counted. -/
theorem regionCount_numbers_unmapped :
    ∃ t, Run BusOp.Step (fun (u : Iobus BusName RegionName × (BusName → List RegionName)) e =>
        e.Admitted u.2) (emptyBuses, fun _ => []) t ∧
      t.2 .mmio = [] ∧ t.1.head .mmio = none ∧ t.1.regionCount .mmio = 1 := by
  refine ⟨((onBus .mmio (.bar 0 0) 0x1000 16).1.store none (.head .mmio),
    fun b => ((onBus .mmio (.bar 0 0) 0x1000 16).2 b).erase (.bar 0 0)), ?_, rfl, rfl, rfl⟩
  exact .tail (.deregister (.bar 0 0)) (onBus_run .mmio (.bar 0 0) 0x1000 16
    (fun _ => List.not_mem_nil) (fun _ => List.not_mem_nil)) trivial ⟨⟨1, rfl⟩, rfl⟩

end Samples

end Microv
