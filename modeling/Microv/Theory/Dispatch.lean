import Microv.Theory.BusList
import Microv.Theory.Pci

/-!
# Dispatching an Access

What `bus_handle_io` does with an access, on the lists the program can really
build.

The bounds are computed as `base + len - 1` in 64 bits, and an empty region at
zero would take every address. No such region is ever linked: the fixed
regions and the configuration spaces have a length, and the region of a BAR
is linked only when its base has a bit above its size, which no base has for
a BAR of size zero. What a link leads to is therefore a region that fits
(`LinksTo`), whatever the guest writes.

That says nothing about where the links lead, and it is meant not to. A guest
can make a list run in a circle, so an access is looked at on a list that is
known to end, and there the first region with the address decides: the access
goes to it if it ends inside, and nowhere otherwise.

## Main definitions

* `LinksTo`: Every link leads to a region with a property.
* `Region.Fits`: A region that is not empty and ends inside the address space.
* `BarsFit`: The regions of the BARs as the guest may place them.

## Theorems

* `setUp_links`: What the setup links.
* `command_links`: What a write to the command register links.
* `run_links`: What is linked in any run.
* `bus_dispatch`: Where an access goes.
-/

namespace Microv

section Links

variable {β ρ : Type}

/-- Every link, of a bus or of a region, leads to a region with `P`. -/
structure LinksTo (s : Iobus β ρ) (P : ρ → Prop) : Prop where
  head : ∀ b r, s.head b = some r → P r
  next : ∀ r q, (s.region r).next = some q → P q

variable {s t : Iobus β ρ} {P Q : ρ → Prop}

theorem LinksTo.mono (h : LinksTo s P) (hPQ : ∀ r, P r → Q r) : LinksTo s Q :=
  ⟨fun b r hr => hPQ r (h.head b r hr), fun r q hq => hPQ q (h.next r q hq)⟩

/-- A list of links leads through regions with the property only. -/
theorem LinksTo.mem (h : LinksTo s P) {b : β} {l : List ρ}
    (hl : LinkedList s.nextOf (s.head b) l) : ∀ r ∈ l, P r := by
  have hall : ∀ (l : List ρ) (p : Option ρ), (∀ r, p = some r → P r) →
      LinkedList s.nextOf p l → ∀ r ∈ l, P r := by
    intro l
    induction l with
    | nil => exact fun _ _ _ r hr => absurd hr List.not_mem_nil
    | cons q l ih =>
        rintro p hp ⟨hq, hrest⟩ r hr
        rcases List.mem_cons.mp hr with rfl | hr
        · exact hp r hq
        · exact ih _ (fun q' hq' => h.next q q' hq') hrest r hr
  exact hall l _ (h.head b) hl

/-- Clearing links adds none. -/
theorem LinksTo.clear (h : LinksTo s P) {region : ρ → Region β ρ}
    (hr : ∀ r q, (region r).next = some q → (s.region r).next = some q) :
    LinksTo { s with region := region } P :=
  ⟨h.head, fun r q hq => h.next r q (hr r q hq)⟩

variable [DecidableEq ρ]

theorem LinksTo.init (h : LinksTo s P) (r : ρ) (base len : Nat) :
    LinksTo (regionInit s r base len) P := by
  refine ⟨h.head, ?_⟩
  intro q q' hq'
  by_cases hq : q = r
  · simp only [regionInit, hq, Function.update_self, reduceCtorEq] at hq'
  · simp only [regionInit, Function.update_of_ne hq] at hq'
    exact h.next q q' hq'

variable [DecidableEq β]

theorem LinksTo.register (h : LinksTo s P) (b : β) {r : ρ} (hr : P r) :
    LinksTo (iobusRegisterRegion s b r) P := by
  refine ⟨?_, ?_⟩
  · intro b' q hq
    unfold iobusRegisterRegion at hq
    by_cases hb : b' = b
    · simp only [hb, Function.update_self, Option.some.injEq] at hq
      exact hq ▸ hr
    · simp only [Function.update_of_ne hb] at hq
      exact h.head b' q hq
  · intro q q' hq'
    by_cases hq : q = r
    · simp only [iobusRegisterRegion, hq, Function.update_self] at hq'
      exact h.head b q' hq'
    · rw [register_region_of_ne s b hq] at hq'
      exact h.next q q' hq'

theorem LinksTo.store (h : LinksTo s P) (q : Option ρ) (hq : ∀ r, q = some r → P r)
    (p : Link β ρ) : LinksTo (s.store q p) P := by
  cases p with
  | head b =>
      refine ⟨?_, h.next⟩
      intro b' r hr
      unfold Iobus.store at hr
      by_cases hb : b' = b
      · simp only [hb, Function.update_self] at hr
        exact hq r hr
      · simp only [Function.update_of_ne hb] at hr
        exact h.head b' r hr
  | next j =>
      refine ⟨h.head, ?_⟩
      intro r q' hq'
      unfold Iobus.store at hq'
      by_cases hr : r = j
      · simp only [hr, Function.update_self] at hq'
        exact hq q' hq'
      · simp only [Function.update_of_ne hr] at hq'
        exact h.next r q' hq'

/-- Unlinking only redirects a link to where another one leads. -/
theorem LinksTo.deregister (h : LinksTo s P) {fuel : Nat} {r : ρ}
    (hd : iobusDeregisterRegion fuel s r = some t) : LinksTo t P := by
  unfold iobusDeregisterRegion at hd
  split at hd
  · rw [← Option.some.inj hd]
    exact h
  · rcases Option.map_eq_some_iff.mp hd with ⟨p, -, rfl⟩
    split
    · exact h
    · exact h.store _ (fun q hq => h.next _ q hq) p

end Links

/-- The region is not empty, and ends inside the address space. -/
def Region.Fits {β ρ : Type} (r : Region β ρ) : Prop :=
  0 < r.len ∧ r.base + r.len ≤ 2 ^ 64

theorem Region.Fits.congr {β ρ : Type} {r r' : Region β ρ} (h : r.Fits)
    (hplace : r'.base = r.base ∧ r'.len = r.len) : r'.Fits := by
  unfold Region.Fits at *
  rw [hplace.1, hplace.2]
  exact h

section Setup

/-- The regions the setup of `n` devices links. -/
def RegionName.Fixed (n : Nat) : RegionName → Prop
  | .bar _ _ => False
  | .config d => d < n
  | _ => True

/-- The setup links regions that fit, and no BAR. -/
theorem setUp_links {n : Nat} {m : Machine} (h : Machine.SetUp n m) :
    LinksTo m.iobus (RegionName.Fixed n) ∧
      ∀ r, RegionName.Fixed n r → (m.iobus.region r).Fits := by
  induction h with
  | boot =>
      have hempty : LinksTo (β := BusName) (ρ := RegionName)
          { head := fun _ => none, regionCount := fun _ => 0,
            region := fun _ => ⟨none, 0, 0, none⟩ } (RegionName.Fixed 0) :=
        ⟨fun _ _ hr => absurd hr (by simp only [reduceCtorEq, not_false_eq_true]),
          fun _ _ hr => absurd hr (by simp only [reduceCtorEq, not_false_eq_true])⟩
      -- In the order of the boot: address port, data port, serial port.
      have haddr := (hempty.init .pciAddr 0xcf8 4).register .pio (r := .pciAddr) trivial
      have hdata := (haddr.init .pciData 0xcfc 4).register .pio (r := .pciData) trivial
      refine ⟨(hdata.init .serial 0x3f8 8).register .pio (r := .serial) trivial, ?_⟩
      intro r hr
      unfold Region.Fits
      cases r with
      | pciAddr => decide
      | pciData => decide
      | serial => decide
      | config d => exact absurd hr (Nat.not_lt_zero d)
      | bar d i => exact absurd hr id
  | @dev n m _ ih =>
      -- What was fixed with fewer devices stays fixed with one more.
      have hmono : ∀ r, RegionName.Fixed n r → RegionName.Fixed (n + 1) r := by
        intro r hr
        cases r with
        | config d => exact Nat.lt_succ_of_lt hr
        | bar d i => exact hr
        | _ => trivial
      refine ⟨(((ih.1.mono hmono).clear ?_).init (.config n) _ 256).register .pci
        (Nat.lt_succ_self n), ?_⟩
      · -- Clearing the new device only takes links away.
        intro r q hq
        cases r with
        | bar e i =>
            simp only at hq
            split_ifs at hq
            exact hq
        | _ => exact hq
      intro r hr
      by_cases hrn : r = .config n
      · rw [hrn]
        unfold Region.Fits
        simp only [pciDevInit, pcibusRegisterDev, iobusRegisterRegion, regionInit,
          Function.update_self]
        omega
      · refine Region.Fits.congr (ih.2 r ?_) ?_
        · cases r with
          | config d =>
              have hd : d ≠ n := fun hd => hrn (congrArg _ hd)
              unfold RegionName.Fixed at hr ⊢
              omega
          | bar d i => exact hr
          | _ => trivial
        · simp only [pciDevInit, pcibusRegisterDev, iobusRegisterRegion, regionInit,
            Function.update_of_ne hrn]
          cases r with
          | bar d i => exact absurd hr id
          | _ => exact ⟨rfl, rfl⟩
  | bar d i size isIoSpace _ _ _ _ ih =>
      refine ⟨ih.1.init _ _ _, ?_⟩
      intro r hr
      -- A BAR is no fixed region, so sizing one moves nothing that is listed.
      have hne : r ≠ .bar d i := by
        rintro rfl
        exact hr
      refine (ih.2 r hr).congr ?_
      simp only [pciInitBar, regionInit, Function.update_of_ne hne, and_self]
  | header d offset data _ _ _ _ ih => exact ih

end Setup

section Runs

variable {m m' : Machine}

/-- The regions of the BARs: their lengths are the BARs' sizes, and their
    bases are 32 bits the guest chose. -/
structure BarsFit (m : Machine) : Prop where
  len : ∀ d i, (m.iobus.region (.bar d i)).len = (m.dev d).barSize i
  size : ∀ d i, (m.dev d).barSize i < 2 ^ 32
  base : ∀ d i, (m.iobus.region (.bar d i)).base < 2 ^ 32

theorem BarsFit.congr (h : BarsFit m) (hp : SamePlaces m.iobus m'.iobus)
    (hs : ∀ d, (m'.dev d).barSize = (m.dev d).barSize) : BarsFit m' := by
  refine ⟨fun d i => ?_, fun d i => ?_, fun d i => ?_⟩
  · rw [(hp _).2, hs d]
    exact h.len d i
  · rw [hs d]
    exact h.size d i
  · rw [(hp _).1]
    exact h.base d i

/-- A base with a bit above the BAR's size: the size is not zero, for which
    the mask would have no bit at all. -/
theorem BarsFit.fits_of_hasBase (h : BarsFit m) {d i : Nat} (hb : m.hasBase d i = true) :
    (m.iobus.region (.bar d i)).Fits := by
  have hlen := h.len d i
  have hsize := h.size d i
  have hbase := h.base d i
  have hne : (m.dev d).barSize i ≠ 0 := by
    intro hz
    have hmask : barMask ((m.dev d).barSize i) = 0 := by rw [hz]; decide
    simp only [Machine.hasBase, hmask, Nat.and_zero, bne_self_eq_false, Bool.false_eq_true] at hb
  unfold Region.Fits
  omega

/-- The machine's links lead to regions that fit. -/
structure LinksFit (m : Machine) : Prop where
  links : LinksTo m.iobus fun r => (m.iobus.region r).Fits
  bars : BarsFit m

theorem linksFit_of_setUp {n : Nat} (h : Machine.SetUp n m) : LinksFit m := by
  rcases setUp_links h with ⟨hlinks, hfits⟩
  rcases settled_of_setUp h with ⟨lists, hsettled⟩
  refine ⟨hlinks.mono hfits, fun d i => (hsettled.device d).len i,
    fun d i => (hsettled.device d).size i, fun d i => ?_⟩
  rw [(hsettled.device d).base i]
  exact Nat.two_pow_pos 32

theorem LinksTo.places {s t : Iobus BusName RegionName}
    (h : LinksTo t fun r => (s.region r).Fits) (hp : SamePlaces s t) :
    LinksTo t fun r => (t.region r).Fits :=
  h.mono fun r hr => hr.congr (hp r)

/-- One round of the command register links a region only if it fits. -/
theorem round_links {fuel d i : Nat} (h : LinksFit m)
    (hr : pciBarCommandAt fuel m d i = some m') : LinksFit m' := by
  unfold pciBarCommandAt at hr
  dsimp only at hr
  split_ifs at hr with hen hreg hdereg
  · rw [← Option.some.inj hr]
    rw [Bool.and_eq_true] at hreg
    have hplaces := samePlaces_register m.iobus ((m.dev d).barBus i) (.bar d i)
    exact ⟨(h.links.register _ (h.bars.fits_of_hasBase hreg.2)).places hplaces,
      h.bars.congr hplaces (sameDevices_setActive d i m _ true).barSize⟩
  · rw [← Option.some.inj hr]
    exact ⟨h.links, h.bars.congr (fun _ => ⟨rfl, rfl⟩) (sameDevices_setActive d i m _ true).barSize⟩
  · rcases Option.map_eq_some_iff.mp hr with ⟨iobus, hd, rfl⟩
    have hplaces := samePlaces_deregister hd
    exact ⟨(h.links.deregister hd).places hplaces,
      h.bars.congr hplaces (sameDevices_setActive d i m iobus false).barSize⟩
  · rw [← Option.some.inj hr]
    exact ⟨h.links,
      h.bars.congr (fun _ => ⟨rfl, rfl⟩) (sameDevices_setActive d i m _ false).barSize⟩

theorem command_links {fuel : Nat} (d k i : Nat) (h : LinksFit m)
    (hc : pciBarCommandFrom fuel d k i m = some m') : LinksFit m' := by
  induction k generalizing i m with
  | zero =>
      rw [← Option.some.inj hc]
      exact h
  | succ k ih =>
      rcases Option.bind_eq_some_iff.mp hc with ⟨m₁, hround, hrest⟩
      exact ih (i + 1) (round_links h hround) hrest

theorem barConfig_base_lt (m : Machine) (d bar : Nat) :
    ((pciBarConfig m d bar).iobus.region (.bar d bar)).base < 2 ^ 32 := by
  have hmask : barMask ((m.dev d).barSize bar) < 2 ^ 32 := by
    unfold barMask
    omega
  have hio : ((m.dev d).barIsIoSpace bar).toNat < 2 ^ 32 := by
    cases (m.dev d).barIsIoSpace bar <;> decide
  simp only [pciBarConfig, Function.update_self]
  exact Nat.or_lt_two_pow (lt_of_le_of_lt Nat.and_le_right hmask) hio

/-- A BAR is moved to 32 bits the guest chose, where it still fits. -/
theorem config_links (h : LinksFit m) (d bar : Nat) : LinksFit (pciBarConfig m d bar) := by
  have hother : ∀ r, r ≠ .bar d bar →
      (pciBarConfig m d bar).iobus.region r = m.iobus.region r :=
    fun r hr => Function.update_of_ne hr _ _
  have hlen : ∀ r, ((pciBarConfig m d bar).iobus.region r).len = (m.iobus.region r).len := by
    intro r
    by_cases hr : r = .bar d bar
    · rw [hr]
      simp only [pciBarConfig, Function.update_self]
    · rw [hother r hr]
  have hsize : ∀ e, ((pciBarConfig m d bar).dev e).barSize = (m.dev e).barSize := by
    intro e
    unfold pciBarConfig
    by_cases he : e = d
    · rw [he]
      simp only [Function.update_self]
    · simp only [Function.update_of_ne he]
  have hbars : BarsFit (pciBarConfig m d bar) := by
    refine ⟨fun e i => ?_, fun e i => ?_, fun e i => ?_⟩
    · rw [hlen, hsize]
      exact h.bars.len e i
    · rw [hsize]
      exact h.bars.size e i
    · by_cases hr : (RegionName.bar e i) = .bar d bar
      · rw [hr]
        exact barConfig_base_lt m d bar
      · rw [hother _ hr]
        exact h.bars.base e i
  -- A BAR that is linked has a length, and the new base leaves room for it.
  have hfits : ∀ r, (m.iobus.region r).Fits → ((pciBarConfig m d bar).iobus.region r).Fits := by
    intro r hr
    by_cases hrb : r = .bar d bar
    · have hpos := hr.1
      have hbase := barConfig_base_lt m d bar
      have hsz := h.bars.size d bar
      have hln := h.bars.len d bar
      have hkeep := hlen (.bar d bar)
      rw [hrb] at hpos ⊢
      unfold Region.Fits
      omega
    · rw [hother r hrb]
      exact hr
  refine ⟨⟨fun b r hr => hfits r (h.links.head b r hr), fun r q hq => hfits q ?_⟩, hbars⟩
  refine h.links.next r q ?_
  by_cases hrb : r = .bar d bar
  · rw [hrb] at hq ⊢
    simpa only [pciBarConfig, Function.update_self] using hq
  · rwa [hother r hrb] at hq

/-- Whatever the guest writes, the links lead to regions that fit. -/
theorem run_links {n : Nat} (h0 : Machine.SetUp n m)
    (hrun : Run (ConfigStep n) (fun _ _ => True) m m') : LinksFit m' := by
  refine hrun.invariant (P := LinksFit) (linksFit_of_setUp h0) ?_
  rintro u w v hu - ⟨-, fuel, hw⟩
  have hstore : LinksFit (w.store u) :=
    ⟨hu.links, hu.bars.congr (fun _ => ⟨rfl, rfl⟩) fun d => by rw [store_dev]⟩
  unfold pciConfigWrite at hw
  dsimp only at hw
  split_ifs at hw
  · exact command_links w.d 6 0 hstore hw
  · rw [← Option.some.inj hw]
    exact config_links hstore w.d _
  · rw [← Option.some.inj hw]
    exact hstore

end Runs

/-- On a list that ends, the first region with the address decides: the access
    goes to it if it ends inside, with the distance from the region's start,
    and otherwise it goes nowhere. -/
theorem bus_dispatch {n : Nat} {m m' : Machine} (h0 : Machine.SetUp n m)
    (hrun : Run (ConfigStep n) (fun _ _ => True) m m') (b : BusName) (l : List RegionName)
    (hl : LinkedList m'.iobus.nextOf (m'.iobus.head b) l) :
    (∀ r ∈ l, 0 < (m'.iobus.region r).len) ∧
    ∀ addr size, 1 ≤ size → addr + size ≤ 2 ^ 64 →
      ∃ x, EndsWith (fun fuel => busHandleIo fuel m'.iobus b addr size) x ∧
        (∀ r o, x = some (r, o) ↔
          l.find? (fun r => decide ((m'.iobus.region r).Interval addr)) = some r ∧
          addr + size ≤ (m'.iobus.region r).base + (m'.iobus.region r).len ∧
          o = addr - (m'.iobus.region r).base) ∧
        ∀ r o, x = some (r, o) → o + size ≤ (m'.iobus.region r).len := by
  have hfits := (run_links h0 hrun).links.mem hl
  refine ⟨fun r hr => (hfits r hr).1, ?_⟩
  intro addr size hsize haddr
  have hfind : l.find? (fun r => (m'.iobus.region r).covers addr)
      = l.find? fun r => decide ((m'.iobus.region r).Interval addr) := by
    refine List.find?_congr ?_
    intro r hr
    rw [Bool.eq_iff_iff, decide_eq_true_eq]
    exact (m'.iobus.region r).covers_iff (hfits r hr).1 (hfits r hr).2 addr
  have hends := handle_ends hl addr size
  rw [hfind] at hends
  refine ⟨_, hends, ?_⟩
  cases hfirst : l.find? fun r => decide ((m'.iobus.region r).Interval addr) with
  | none => exact ⟨fun r o => by simp [reached], fun r o h => by simp [reached] at h⟩
  | some q =>
      have hq := hfits q (List.mem_of_find?_eq_some hfirst)
      have hin : (m'.iobus.region q).Interval addr := by
        simpa only [decide_eq_true_eq] using List.find?_some hfirst
      -- Neither end wraps, so the machine's comparison is that of the ends.
      have hlast : (addr + size + (2 ^ 64 - 1)) % 2 ^ 64 ≤ (m'.iobus.region q).last ↔
          addr + size ≤ (m'.iobus.region q).base + (m'.iobus.region q).len := by
        rw [(m'.iobus.region q).last_eq hq.1 hq.2]
        have hpos := hq.1
        omega
      unfold Region.Interval at hin
      unfold reached
      simp only [hlast]
      by_cases hend : addr + size ≤ (m'.iobus.region q).base + (m'.iobus.region q).len
      · rw [if_pos hend]
        refine ⟨fun r o => ⟨fun h => ?_, ?_⟩, fun r o h => ?_⟩
        · rcases Prod.mk.inj (Option.some.inj h) with ⟨rfl, rfl⟩
          exact ⟨rfl, hend, rfl⟩
        · rintro ⟨hqr, -, rfl⟩
          rw [Option.some.inj hqr]
        · rcases Prod.mk.inj (Option.some.inj h) with ⟨rfl, rfl⟩
          omega
      · rw [if_neg hend]
        refine ⟨fun r o => ⟨fun h => ?_, ?_⟩, fun r o h => ?_⟩
        · exact absurd h (by simp only [reduceCtorEq, not_false_eq_true])
        · rintro ⟨hqr, hle, -⟩
          rw [← Option.some.inj hqr] at hle
          exact absurd hle hend
        · exact absurd h (by simp only [reduceCtorEq, not_false_eq_true])

/-- A mapped BAR takes an access that ends inside it. -/
theorem bus_dispatch_mapped : ∃ m, Machine.SetUp 1 sampleMachine ∧
    Run (ConfigStep 1) (fun _ _ => True) sampleMachine m ∧
    LinkedList m.iobus.nextOf (m.iobus.head .mmio) [.bar 0 0] ∧
    EndsWith (fun fuel => busHandleIo fuel m.iobus .mmio 0xf0000004 4) (some (.bar 0 0, 4)) := by
  have hend : (configWrites 2 sampleMachine [sampleBase, sampleEnable]).map
      (fun m => (m.iobus.head .mmio, m.iobus.nextOf (.bar 0 0),
        (m.iobus.region (.bar 0 0)).base, (m.iobus.region (.bar 0 0)).len))
      = some (some (.bar 0 0), none, 0xf0000000, 0x100) := by decide +kernel
  rcases Option.map_eq_some_iff.mp hend with ⟨m, hm, hfacts⟩
  simp only [Prod.mk.injEq] at hfacts
  rcases hfacts with ⟨hhead, hnext, hbase, hlen⟩
  have hrun := run_configWrites (n := 1) (.refl sampleMachine) (by decide) hm
  have hl : LinkedList m.iobus.nextOf (m.iobus.head .mmio) [.bar 0 0] := ⟨hhead, hnext⟩
  rcases (bus_dispatch sampleMachine_setUp hrun .mmio [.bar 0 0] hl).2 0xf0000004 4 (by decide)
    (by decide) with ⟨x, hx, hiff, -⟩
  have hreached : x = some (.bar 0 0, 4) := by
    refine (hiff (.bar 0 0) 4).mpr ⟨?_, ?_, ?_⟩
    · simp [Region.Interval, hbase, hlen]
    · rw [hbase, hlen]
      decide
    · rw [hbase]
  exact ⟨m, sampleMachine_setUp, hrun, hl, hreached ▸ hx⟩

end Microv
