import Microv.Core.Monitor
import Microv.Theory.SerialRegisters
import Microv.Theory.ConfigIdentity
import Microv.Theory.Dispatch

/-!
# The Devices Behind the Buses

What the parts of the monitor can do to each other, in every run of the whole.

The guest drives the port bus and the memory bus, and by programming the BAR it
changes the lists both are looked up in, down to a list that leads back to
itself. `BusesWired` is what no such write changes: the two lists of ports and
of configuration spaces are the ones the setup left, and the list of memory
regions leads to nothing but the one BAR. So a port access is decoded by its
number and width alone (`portTarget`), and it always comes to an end.

Each device therefore sees its own accesses, in order, and nothing else. The
serial port is the one of a run of its own operations, the configuration ports
of a run of port accesses, and the block device with its events is in a run of
the register window.

All of them are variables of one program, and the block device can be made to
store anywhere: through the configuration pointer, into a queue there is not, or
for a request with a buffer outside RAM. So this holds of runs in which what
reaches the block device is contained; any other event may do anything.

## Main definitions

* `BusesWired`, `Wired`: What stays of the buses and of the device's BARs.
* `portTarget`: Where a port access goes.
* `MonitorEvent.serialOps`, `MonitorEvent.portAccesses`: What an event is to
  the serial port, and to the configuration ports.
* `MonitorEvent.Valid`: What the kernel reports as an exit.
* `MonitorContained`, `MonitorOutcome`: Contained events, and the program.

## Theorems

* `Wired.configWrite`: A configuration write ends, and keeps the wiring.
* `BusesWired.pio_ends`: A port access is decoded by its number and width.
* `handlePioFrom_ends`: A port exit comes to an end, one element at a time.
* `serial_run`: The serial port is the fold of its own operations.
* `devices_isolated`: Each device takes only its own accesses.
* `port_exits_end`: Port exits end; which memory exits do.
-/

namespace Microv

/-! ### The wiring -/

/-- The lists of ports and configuration spaces, and the regions on them, are
    those of the setup; on the memory bus there is at most the one BAR, which
    may be linked to itself. -/
structure BusesWired (s : Iobus BusName RegionName) : Prop where
  pio : LinkedList s.nextOf (s.head .pio) [.serial, .pciData, .pciAddr]
  pci : LinkedList s.nextOf (s.head .pci) [.config 0]
  mmio : ∀ r, s.head .mmio = some r → r = .bar 0 0
  bar : ∀ r, s.nextOf (.bar 0 0) = some r → r = .bar 0 0
  owner : ∀ b, (s.region (.bar 0 0)).bus = some b → b = .mmio
  serial : (s.region .serial).base = 0x3f8 ∧ (s.region .serial).len = 8
  data : (s.region .pciData).base = 0xcfc ∧ (s.region .pciData).len = 4
  addr : (s.region .pciAddr).base = 0xcf8 ∧ (s.region .pciAddr).len = 4
  config : (s.region (.config 0)).base = 2 ^ 31 ∧ (s.region (.config 0)).len = 256
  window : (s.region (.bar 0 0)).base < 2 ^ 32 ∧ (s.region (.bar 0 0)).len = 0x100

/-- The buses are wired, and the device has the one memory BAR. -/
structure Wired (m : Machine) : Prop where
  buses : BusesWired m.iobus
  memory : (m.dev 0).barIsIoSpace 0 = false
  sizes : ∀ i, i ≠ 0 → (m.dev 0).barSize i = 0

section Buses

variable {s t : Iobus BusName RegionName}

/-- Regions other than the BAR that keep their links and places. -/
theorem BusesWired.congr (h : BusesWired s) (hpio : t.head .pio = s.head .pio)
    (hpci : t.head .pci = s.head .pci)
    (hregion : ∀ r, (∀ d i, r ≠ .bar d i) → t.region r = s.region r)
    (hmmio : ∀ r, t.head .mmio = some r → r = .bar 0 0)
    (hbar : ∀ r, t.nextOf (.bar 0 0) = some r → r = .bar 0 0)
    (howner : ∀ b, (t.region (.bar 0 0)).bus = some b → b = .mmio)
    (hwindow : (t.region (.bar 0 0)).base < 2 ^ 32 ∧ (t.region (.bar 0 0)).len = 0x100) :
    BusesWired t := by
  -- Only the BARs may have moved, and neither list has one.
  have hnext : ∀ r, (∀ d i, r ≠ .bar d i) → t.nextOf r = s.nextOf r := by
    intro r hr
    unfold Iobus.nextOf
    rw [hregion r hr]
  have hserial := hregion .serial (by simp)
  have hdata := hregion .pciData (by simp)
  have haddr := hregion .pciAddr (by simp)
  have hconfig := hregion (.config 0) (by simp)
  constructor
  case pio =>
    rw [hpio]
    refine h.pio.congr ?_
    intro r hr
    simp only [List.mem_cons, List.not_mem_nil, or_false] at hr
    refine hnext r ?_
    rintro d i rfl
    simp at hr
  case pci =>
    rw [hpci]
    refine h.pci.congr ?_
    intro r hr
    simp only [List.mem_cons, List.not_mem_nil, or_false] at hr
    rw [hr]
    exact hnext _ (by simp)
  case mmio => exact hmmio
  case bar => exact hbar
  case owner => exact howner
  case serial =>
    rw [hserial]
    exact h.serial
  case data =>
    rw [hdata]
    exact h.data
  case addr =>
    rw [haddr]
    exact h.addr
  case config =>
    rw [hconfig]
    exact h.config
  case window => exact hwindow

theorem BusesWired.register (h : BusesWired s) :
    BusesWired (iobusRegisterRegion s .mmio (.bar 0 0)) := by
  have hplace := samePlaces_register s .mmio (.bar 0 0) (.bar 0 0)
  refine h.congr ?_ ?_ ?_ ?_ ?_ ?_ ?_
  · simp [iobusRegisterRegion]
  · simp [iobusRegisterRegion]
  · intro r hr
    exact register_region_of_ne s .mmio (hr 0 0)
  · intro r hr
    simp only [iobusRegisterRegion, Function.update_self, Option.some.injEq] at hr
    exact hr.symm
  · intro r hr
    rw [nextOf_register, Function.update_self] at hr
    exact h.mmio r hr
  · intro b hb
    rw [register_region_bus] at hb
    exact (Option.some.inj hb).symm
  · rw [hplace.1, hplace.2]
    exact h.window

/-- Unlinking the BAR ends at the head of its bus, whatever the BAR is linked
    to. -/
theorem BusesWired.deregister (h : BusesWired s) :
    ∃ t, EndsWith (fun fuel => iobusDeregisterRegion fuel s (.bar 0 0)) t ∧ BusesWired t := by
  cases hb : (s.region (.bar 0 0)).bus with
  | none =>
      refine ⟨s, ?_, h⟩
      simp only [iobusDeregisterRegion, hb]
      exact .const s
  | some b =>
      cases h.owner b hb
      cases hhead : s.head .mmio with
      | none =>
          refine ⟨s, .of_ite (n := 0) ?_, h⟩
          intro fuel
          cases fuel with
          | zero => simp [iobusDeregisterRegion, hb, iobusFindLink]
          | succ fuel => simp [iobusDeregisterRegion, hb, iobusFindLink, Iobus.deref, hhead]
      | some r =>
          cases h.mmio r hhead
          refine ⟨s.store (s.region (.bar 0 0)).next (.head .mmio), .of_ite (n := 0) ?_, ?_⟩
          · intro fuel
            cases fuel with
            | zero => simp [iobusDeregisterRegion, hb, iobusFindLink]
            | succ fuel => simp [iobusDeregisterRegion, hb, iobusFindLink, Iobus.deref, hhead]
          · -- The head takes over the BAR's link, which leads to the BAR or nowhere.
            refine h.congr ?_ ?_ (fun _ _ => rfl) ?_ h.bar h.owner h.window
            · simp [Iobus.store]
            · simp [Iobus.store]
            · intro r hr
              simp only [Iobus.store, Function.update_self] at hr
              exact h.bar r hr

end Buses

section Command

variable {m : Machine}

/-- A round that finds no base leaves the buses alone. -/
theorem Wired.hasBase_unused (h : Wired m) {i : Nat} (hi : i ≠ 0) : m.hasBase 0 i = false := by
  have hmask : barMask ((m.dev 0).barSize i) = 0 := by
    rw [h.sizes i hi]
    decide
  unfold Machine.hasBase
  rw [hmask, Nat.and_zero]
  rfl

theorem Wired.setActive (h : Wired m) {t : Iobus BusName RegionName} (ht : BusesWired t) (i : Nat)
    (active : Bool) : Wired ({ m with iobus := t }.setActive 0 i active) := by
  refine ⟨ht, ?_, ?_⟩
  · simp only [Machine.setActive, Function.update_self]
    exact h.memory
  · intro j hj
    simp only [Machine.setActive, Function.update_self]
    exact h.sizes j hj

/-- One round of the command register. -/
theorem Wired.round (h : Wired m) (i : Nat) :
    ∃ m', EndsWith (fun fuel => pciBarCommandAt fuel m 0 i) m' ∧ Wired m' := by
  have hbus : (m.dev 0).barBus 0 = .mmio := by
    unfold PciDevice.barBus
    rw [h.memory]
    rfl
  by_cases hi : i = 0
  · subst hi
    by_cases hen : (m.dev 0).enable 0 = true
    · by_cases hreg : (!(m.dev 0).barActive 0 && m.hasBase 0 0) = true
      · refine ⟨_, ?_, h.setActive h.buses.register 0 true⟩
        simp only [pciBarCommandAt, if_pos hen, if_pos hreg, hbus]
        exact .const _
      · refine ⟨_, ?_, h.setActive h.buses 0 true⟩
        simp only [pciBarCommandAt, if_pos hen, if_neg hreg]
        exact .const _
    · by_cases hdereg : ((m.dev 0).barActive 0 && m.hasBase 0 0) = true
      · rcases h.buses.deregister with ⟨t, hends, ht⟩
        refine ⟨_, ?_, h.setActive ht 0 false⟩
        simp only [pciBarCommandAt, if_neg hen, if_pos hdereg]
        exact hends.map _
      · refine ⟨_, ?_, h.setActive h.buses 0 false⟩
        simp only [pciBarCommandAt, if_neg hen, if_neg hdereg, Option.map_some]
        exact .const _
  · -- A BAR that is not implemented has no base to be found.
    have hbase := h.hasBase_unused hi
    refine ⟨_, ?_, h.setActive h.buses i ((m.dev 0).enable i)⟩
    by_cases hen : (m.dev 0).enable i = true
    · simp only [pciBarCommandAt, hen, hbase, Bool.and_false, if_true, Bool.false_eq_true, if_false]
      exact .const _
    · simp only [Bool.not_eq_true] at hen
      simp only [pciBarCommandAt, hen, hbase, Bool.and_false, Bool.false_eq_true, if_false,
        Option.map_some]
      exact .const _

theorem Wired.rounds (h : Wired m) (k i : Nat) :
    ∃ m', EndsWith (fun fuel => pciBarCommandFrom fuel 0 k i m) m' ∧ Wired m' := by
  induction k generalizing i m with
  | zero => exact ⟨m, .const m, h⟩
  | succ k ih =>
      rcases h.round i with ⟨m₁, hround, h₁⟩
      rcases ih h₁ (i + 1) with ⟨m', hrest, h'⟩
      exact ⟨m', hround.bind hrest, h'⟩

theorem Wired.writeHdr (h : Wired m) (offset : Nat) (data : List UInt8) :
    Wired (m.writeHdr 0 offset data) := by
  refine ⟨h.buses, ?_, ?_⟩
  · simp only [Machine.writeHdr, Function.update_self]
    exact h.memory
  · intro i hi
    simp only [Machine.writeHdr, Function.update_self]
    exact h.sizes i hi

/-- Moving a BAR moves nothing but its region. -/
theorem Wired.barConfig (h : Wired m) (bar : Nat) : Wired (pciBarConfig m 0 bar) := by
  -- Configuring a BAR moves its base and nothing else.
  have hlinks : ∀ r, ((pciBarConfig m 0 bar).iobus.region r).next = (m.iobus.region r).next
      ∧ ((pciBarConfig m 0 bar).iobus.region r).bus = (m.iobus.region r).bus := by
    intro r
    unfold pciBarConfig
    by_cases hr : r = .bar 0 bar
    · subst hr
      simp only [Function.update_self, and_self]
    · simp only [Function.update_of_ne hr, and_self]
  have hlen : ∀ r, ((pciBarConfig m 0 bar).iobus.region r).len = (m.iobus.region r).len := by
    intro r
    unfold pciBarConfig
    by_cases hr : r = .bar 0 bar
    · subst hr
      simp only [Function.update_self]
    · simp only [Function.update_of_ne hr]
  refine ⟨h.buses.congr rfl rfl ?_ h.buses.mmio ?_ ?_ ⟨?_, ?_⟩, ?_, ?_⟩
  · intro r hr
    exact Function.update_of_ne (hr 0 bar) _ _
  · intro r hr
    unfold Iobus.nextOf at hr
    rw [(hlinks _).1] at hr
    exact h.buses.bar r hr
  · intro b hb
    rw [(hlinks _).2] at hb
    exact h.buses.owner b hb
  · by_cases hbar : bar = 0
    · rw [hbar]
      exact barConfig_base_lt m 0 0
    · -- Any other BAR has no size and is not the window.
      have hne : RegionName.bar 0 0 ≠ .bar 0 bar := by
        simp only [ne_eq, RegionName.bar.injEq, true_and]
        exact fun h0 => hbar h0.symm
      simp only [pciBarConfig, Function.update_of_ne hne]
      exact h.buses.window.1
  · rw [hlen]
    exact h.buses.window.2
  · simp only [pciBarConfig, Function.update_self]
    exact h.memory
  · intro i hi
    simp only [pciBarConfig, Function.update_self]
    exact h.sizes i hi

/-- A configuration write ends, and keeps the wiring. -/
theorem Wired.configWrite (h : Wired m) (offset : Nat) (data : List UInt8) :
    ∃ m', EndsWith (fun fuel => pciConfigWrite fuel m 0 offset data) m' ∧ Wired m' := by
  have hstore := h.writeHdr offset data
  unfold pciConfigWrite
  dsimp only
  by_cases hcommand : offset = pciCommand
  · simp only [if_pos hcommand]
    exact hstore.rounds 6 0
  · simp only [if_neg hcommand]
    by_cases hbars : 0x10 ≤ offset ∧ offset ≤ 0x24
    · simp only [if_pos hbars]
      exact ⟨_, .const _, hstore.barConfig _⟩
    · simp only [if_neg hbars]
      exact ⟨_, .const _, hstore⟩

end Command

section Decode

variable {s : Iobus BusName RegionName}

/-- The region a port access of `size` bytes falls into, with its offset. -/
def portTarget (port size : Nat) : Option (RegionName × Nat) :=
  if 0x3f8 ≤ port ∧ port + size ≤ 0x400 then some (.serial, port - 0x3f8)
  else if 0xcf8 ≤ port ∧ port + size ≤ 0xcfc then some (.pciAddr, port - 0xcf8)
  else if 0xcfc ≤ port ∧ port + size ≤ 0xd00 then some (.pciData, port - 0xcfc)
  else none

/-- A port access is decoded by its number and width. -/
theorem BusesWired.pio_ends (h : BusesWired s) (port size : Nat) (hpos : 0 < size)
    (hfit : port + size ≤ 2 ^ 64) :
    EndsWith (fun fuel => busHandleIo fuel s .pio port size) (portTarget port size) := by
  have hends := handle_ends h.pio port size
  rcases h.serial with ⟨hserial, hserialLen⟩
  rcases h.data with ⟨hdata, hdataLen⟩
  rcases h.addr with ⟨haddr, haddrLen⟩
  have hcserial := (s.region .serial).covers_iff (by omega) (by omega) port
  have hcdata := (s.region .pciData).covers_iff (by omega) (by omega) port
  have hcaddr := (s.region .pciAddr).covers_iff (by omega) (by omega) port
  have hlserial := (s.region .serial).last_eq (by omega) (by omega)
  have hldata := (s.region .pciData).last_eq (by omega) (by omega)
  have hladdr := (s.region .pciAddr).last_eq (by omega) (by omega)
  rw [hserial, hserialLen] at hcserial hlserial
  rw [hdata, hdataLen] at hcdata hldata
  rw [haddr, haddrLen] at hcaddr hladdr
  -- No two of the three regions have a port in common.
  have heq : reached s port size
      ([.serial, .pciData, .pciAddr].find? fun r => (s.region r).covers port)
      = portTarget port size := by
    unfold portTarget
    by_cases h1 : (s.region .serial).covers port = true
    · have hin := hcserial.mp h1
      simp only [List.find?_cons, h1, reached, hlserial, hserial]
      split_ifs <;> first | rfl | omega
    · have hout := mt hcserial.mpr h1
      simp only [Bool.not_eq_true] at h1
      by_cases h2 : (s.region .pciData).covers port = true
      · have hin := hcdata.mp h2
        simp only [List.find?_cons, h1, h2, reached, hldata, hdata]
        split_ifs <;> first | rfl | omega
      · have hout' := mt hcdata.mpr h2
        simp only [Bool.not_eq_true] at h2
        by_cases h3 : (s.region .pciAddr).covers port = true
        · have hin := hcaddr.mp h3
          simp only [List.find?_cons, h1, h2, h3, reached, hladdr, haddr]
          split_ifs <;> first | rfl | omega
        · have hout'' := mt hcaddr.mpr h3
          simp only [Bool.not_eq_true] at h3
          simp only [List.find?_cons, h1, h2, h3, List.find?_nil, reached]
          split_ifs <;> first | rfl | omega
  rwa [heq] at hends

/-- An address on the PCI bus is the device's, or nobody's. -/
theorem BusesWired.pci_ends (h : BusesWired s) (addr size : Nat) :
    ∃ x, EndsWith (fun fuel => busHandleIo fuel s .pci addr size) x ∧
      ∀ r o, x = some (r, o) → r = .config 0 := by
  refine ⟨_, handle_ends h.pci addr size, ?_⟩
  intro r o hx
  exact List.mem_singleton.mp (List.mem_of_find?_eq_some (reached_inv hx).1)

end Decode

/-! ### Port accesses -/

/-- The serial port's operations as steps. -/
def SerialTrans (op : SerialOp) (s s' : Serial) : Prop := s' = serialStep s op

/-- What a port access is to the serial port, if it is anything to it. -/
def serialOp (ret : UInt8) (acc : Access) : Option SerialOp :=
  if 0x3f8 ≤ acc.offset ∧ acc.offset + acc.size ≤ 0x400 then
    match acc with
    | .read port _ => some (.read (port - 0x3f8) ret)
    | .write port data => some (.write (port - 0x3f8) (data.headD 0))
  else none

/-- The block device with its events, on the bus. -/
def Monitor.bus (s : Monitor) : VirtioBus :=
  { machine := s.ports.machine, dev := s.dev, ioevents := s.ioevents }

/-- A run of the block device on the bus, all of it contained. -/
abbrev BusRun (mapper : Int → MemRegion) (L : PciLayout) : VirtioBus → VirtioBus → Prop :=
  Run (VirtioBusStep mapper L) (BusContained mapper L)

/-- What holds of the monitor in every run. -/
structure MonitorInv (s : Monitor) : Prop where
  wired : Wired s.ports.machine
  latched : Latched s.ports.pciAddr

/-- What a port access leaves, having delivered `data`. -/
structure PortEffect (s : Monitor) (ret : UInt8) (acc : Access) (s' : Monitor)
    (data : List UInt8) : Prop where
  wired : Wired s'.ports.machine
  serial : Trace SerialTrans s.serial (serialOp ret acc).toList s'.serial
  ports : PortStep acc s.ports s'.ports
  dev : s'.dev = s.dev
  ioevents : s'.ioevents = s.ioevents
  silent : ∀ port bytes, acc = .write port bytes → data = []

section Access

variable {mapper : Int → MemRegion} {L : PciLayout} {s : Monitor}

/-- The second configuration port's handler ends, and keeps the wiring. -/
theorem Wired.dataIo {p : ConfigPorts} (h : Wired p.machine) (acc : Access) :
    ∃ res, EndsWith (fun fuel => pcibusDataIo fuel p acc) res ∧ Wired res.1.machine ∧
      ∀ port bytes, acc = .write port bytes → res.2 = [] := by
  rcases h.buses.pci_ends (p.pciAddr ||| acc.offset) acc.size with ⟨x, hx, honly⟩
  unfold pcibusDataIo
  match x, hx, honly with
  | none, hx, _ => exact ⟨(p, []), hx.bind (.const _), h, fun _ _ _ => rfl⟩
  | some (r, o), hx, honly =>
      cases honly r o rfl
      cases acc with
      | read offset size =>
          exact ⟨_, hx.bind (EndsWith.map (.const _) _), h, fun _ _ hw => by cases hw⟩
      | write offset bytes =>
          rcases h.configWrite o bytes with ⟨m', hends, hwired⟩
          exact ⟨_, hx.bind ((hends.map _).map _), hwired, fun _ _ _ => rfl⟩

/-- The configuration ports end, and keep the wiring. -/
theorem Wired.handlePio {p : ConfigPorts} (h : Wired p.machine) (acc : Access) (hpos : 0 < acc.size)
    (hfit : acc.offset + acc.size ≤ 2 ^ 64) :
    ∃ res, EndsWith (fun fuel => iobusHandlePio fuel p acc) res ∧ Wired res.1.machine := by
  have hends := h.buses.pio_ends acc.offset acc.size hpos hfit
  unfold iobusHandlePio
  match hx : portTarget acc.offset acc.size, hends with
  | none, hends => exact ⟨_, hends.bind (.const (p, [])), h⟩
  | some (.pciAddr, o), hends => exact ⟨_, hends.bind (.const _), h⟩
  | some (.pciData, o), hends =>
      rcases h.dataIo (acc.at o) with ⟨res, hres, hwired, -⟩
      exact ⟨res, hends.bind hres, hwired⟩
  | some (.serial, o), hends => exact ⟨_, hends.bind (.const (p, [])), h⟩
  | some (.config d, o), hends => exact ⟨_, hends.bind (.const (p, [])), h⟩
  | some (.bar d i, o), hends => exact ⟨_, hends.bind (.const (p, [])), h⟩

/-- A port access has one outcome. -/
theorem portStep_unique {p u v : ConfigPorts} {acc : Access} (h : Wired p.machine)
    (hpos : 0 < acc.size) (hfit : acc.offset + acc.size ≤ 2 ^ 64) (hu : PortStep acc p u)
    (hv : PortStep acc p v) : Wired u.machine ∧ u = v := by
  rcases h.handlePio acc hpos hfit with ⟨res, hends, hwired⟩
  rcases hu with ⟨fuel, data, hfuel⟩
  rcases hv with ⟨fuel', data', hfuel'⟩
  have hres := hends.2 fuel _ hfuel
  have hres' := hends.2 fuel' _ hfuel'
  rw [← hres] at hwired hres'
  exact ⟨hwired, (Prod.mk.inj hres').1.symm⟩

variable (mapper L) in
/-- An access to the serial port's ports is its handler's. -/
theorem busAccess_serial (h : Wired s.ports.machine) (stack : StackBytes) (acc : Access)
    (hpos : 0 < acc.size) (hin : 0x3f8 ≤ acc.offset ∧ acc.offset + acc.size ≤ 0x400) :
    EndsWith (fun fuel => s.busAccess mapper L fuel .pio stack acc)
      ({ s with serial := (serialHandleIo s.serial stack.ret (acc.at (acc.offset - 0x3f8))).1 },
        (serialHandleIo s.serial stack.ret (acc.at (acc.offset - 0x3f8))).2) := by
  have hends := h.buses.pio_ends acc.offset acc.size hpos (by omega)
  unfold portTarget at hends
  rw [if_pos hin] at hends
  exact hends.bind (.const _)

/-- An access to the port bus ends, and each device gets what is its. -/
theorem busAccess_pio (h : Wired s.ports.machine) (stack : StackBytes) (acc : Access)
    (hpos : 0 < acc.size) (hfit : acc.offset + acc.size ≤ 2 ^ 64) :
    ∃ res, EndsWith (fun fuel => s.busAccess mapper L fuel .pio stack acc) res ∧
      PortEffect s stack.ret acc res.1 res.2 := by
  have hends := h.buses.pio_ends acc.offset acc.size hpos hfit
  unfold portTarget at hends
  by_cases hserial : 0x3f8 ≤ acc.offset ∧ acc.offset + acc.size ≤ 0x400
  · rw [if_pos hserial] at hends
    -- The serial port is no configuration port, so these see nothing.
    have hports : PortStep acc s.ports s.ports := by
      rcases hends.exists_fuel with ⟨fuel, hfuel⟩
      refine ⟨fuel, [], ?_⟩
      simp only [iobusHandlePio, hfuel, Option.bind_some]
    refine ⟨_, busAccess_serial mapper L h stack acc hpos hserial, ⟨h, ?_, hports, rfl, rfl, ?_⟩⟩
    · unfold serialOp
      rw [if_pos hserial]
      cases acc with
      | read port size =>
          refine .single ?_
          simp only [SerialTrans, serialHandleIo, serialStep, Access.at, Access.offset]
      | write port bytes =>
          refine .single ?_
          simp only [SerialTrans, serialHandleIo, serialStep, Access.at, Access.offset]
    · rintro port bytes rfl
      rfl
  · have hop : serialOp stack.ret acc = none := by
      unfold serialOp
      exact if_neg hserial
    rw [if_neg hserial] at hends
    -- The other two devices, and then nobody; none of it is a serial operation.
    by_cases haddr : 0xcf8 ≤ acc.offset ∧ acc.offset + acc.size ≤ 0xcfc
    · rw [if_pos haddr] at hends
      refine ⟨_, hends.bind (.const _), ⟨h, ?_, ?_, rfl, rfl, ?_⟩⟩
      · rw [hop]
        exact .nil
      · rcases hends.exists_fuel with ⟨fuel, hfuel⟩
        refine ⟨fuel, (pcibusAddrIo s.ports.pciAddr (acc.at (acc.offset - 0xcf8))).2, ?_⟩
        simp only [iobusHandlePio, hfuel, Option.bind_some]
      · rintro port bytes rfl
        rfl
    · rw [if_neg haddr] at hends
      by_cases hdata : 0xcfc ≤ acc.offset ∧ acc.offset + acc.size ≤ 0xd00
      · rw [if_pos hdata] at hends
        rcases h.dataIo (acc.at (acc.offset - 0xcfc)) with ⟨res, hres, hwired, hsilent⟩
        refine ⟨_, hends.bind (hres.map _), ⟨hwired, ?_, ?_, rfl, rfl, ?_⟩⟩
        · rw [hop]
          exact .nil
        · -- The walk of the bus and the call behind it need one fuel for both.
          have hboth : EndsWith (fun fuel =>
              (busHandleIo fuel s.ports.machine.iobus .pio acc.offset acc.size).bind fun _ =>
                pcibusDataIo fuel s.ports (acc.at (acc.offset - 0xcfc))) res := hends.bind hres
          rcases hboth.exists_fuel with ⟨fuel, hfuel⟩
          rcases Option.bind_eq_some_iff.mp hfuel with ⟨x, hx, hthen⟩
          have hxs := hends.2 fuel x hx
          rw [hxs] at hx
          refine ⟨fuel, res.2, ?_⟩
          simp only [iobusHandlePio, hx, Option.bind_some]
          exact hthen
        · rintro port bytes rfl
          exact hsilent _ bytes rfl
      · rw [if_neg hdata] at hends
        refine ⟨(s, []), hends.bind (.const _), ⟨h, ?_, ?_, rfl, rfl, fun _ _ _ => rfl⟩⟩
        · rw [hop]
          exact .nil
        · rcases hends.exists_fuel with ⟨fuel, hfuel⟩
          refine ⟨fuel, [], ?_⟩
          simp only [iobusHandlePio, hfuel, Option.bind_some]

/-- A port access sets the latch, or writes to the device's configuration
    space, or changes neither. -/
theorem portStep_bus {p p' : ConfigPorts} {acc : Access} (h : Wired p.machine)
    (hv : Latched p.pciAddr) (hpos : 0 < acc.size) (hfit : acc.offset + acc.size ≤ 2 ^ 64)
    (hs : PortStep acc p p') :
    Latched p'.pciAddr ∧
      (p'.machine = p.machine ∨ ∃ w, ConfigStep 1 w p.machine p'.machine) := by
  rcases hs with ⟨fuel, data, hfuel⟩
  rcases portStep_inv hfuel with ⟨o, rfl⟩ | ⟨o, d, off, m', hpio, hpci, hio, rfl⟩ | rfl
  · exact ⟨latched_addrIo hv _, Or.inl rfl⟩
  · refine ⟨hv, ?_⟩
    -- There is one device, so the address can only have selected it.
    have hd : d = 0 := by
      rcases h.buses.pci_ends (p.pciAddr ||| o) acc.size with ⟨x, hx, honly⟩
      have hreg := honly _ _ (hx.2 fuel _ hpci).symm
      simpa only [RegionName.config.injEq] using hreg
    subst hd
    have hplaces : PortPlaces p.machine := ⟨h.buses.data, h.buses.config⟩
    rcases hplaces.decode hv hpio hpci with ⟨hport, -, hoff⟩
    rcases handleIo_inv hpio with ⟨-, hend, -⟩
    rw [(p.machine.iobus.region .pciData).last_eq (by rw [h.buses.data.2]; decide)
      (by rw [h.buses.data.1, h.buses.data.2]; decide), h.buses.data.1, h.buses.data.2] at hend
    have hreg := regNum_lt p.pciAddr
    -- A read changes nothing; a write stays within a register of the device.
    cases acc with
    | read port size => exact Or.inl (congrArg Prod.fst (Option.some.inj hio)).symm
    | write port bytes =>
        simp only [Access.offset, Access.size] at *
        rcases Option.map_eq_some_iff.mp hio with ⟨m₁, hw, hout⟩
        rw [← (Prod.mk.inj hout).1]
        refine Or.inr ⟨⟨0, off, bytes⟩, ⟨Nat.one_pos, ?_, hpos, ?_⟩, fuel, hw⟩
        · dsimp only
          omega
        · dsimp only
          omega
  · exact ⟨hv, Or.inl rfl⟩

theorem PortEffect.inv {ret : UInt8} {acc : Access} {s' : Monitor} {data : List UInt8}
    (heff : PortEffect s ret acc s' data) (h : MonitorInv s) (hpos : 0 < acc.size)
    (hfit : acc.offset + acc.size ≤ 2 ^ 64) : MonitorInv s' ∧ BusRun mapper L s.bus s'.bus := by
  rcases portStep_bus h.wired h.latched hpos hfit heff.ports with ⟨hlatched, hmachine⟩
  refine ⟨⟨heff.wired, hlatched⟩, ?_⟩
  have hbus : s'.bus = { s.bus with machine := s'.ports.machine } := by
    unfold Monitor.bus
    rw [heff.dev, heff.ioevents]
  rw [hbus]
  rcases hmachine with hsame | ⟨w, hw⟩
  · rw [hsame]
    exact .refl _
  · exact .single (.config w) trivial (.config w s.bus _ hw)

end Access

/-! ### Exits -/

/-- What the fields of an exit can hold, by their widths; an access has a byte
    at least. -/
structure KvmRunIo.Valid (io : KvmRunIo) : Prop where
  size_pos : 0 < io.size
  size_lt : io.size < 2 ^ 8
  port_lt : io.port < 2 ^ 16

/-- What `n` elements from the `i`th on are to the serial port, the last one
    first. -/
def KvmRunIo.serialOps (io : KvmRunIo) (page : ByteMem) (stack : Nat → StackBytes) (i n : Nat) :
    List SerialOp :=
  ((List.range' i n).filterMap fun j => serialOp (stack j).ret (io.access page j)).reverse

/-- The accesses they are, the last one first. -/
def KvmRunIo.accesses (io : KvmRunIo) (page : ByteMem) (i n : Nat) : List Access :=
  ((List.range' i n).map (io.access page)).reverse

/-- What `n` elements of a port exit leave. -/
structure ExitEffect (mapper : Int → MemRegion) (L : PciLayout) (io : KvmRunIo) (page : ByteMem)
    (stack : Nat → StackBytes) (i n : Nat) (s s' : Monitor) : Prop where
  inv : MonitorInv s'
  serial : Trace SerialTrans s.serial (io.serialOps page stack i n) s'.serial
  ports : Trace PortStep s.ports (io.accesses page i n) s'.ports
  bus : BusRun mapper L s.bus s'.bus

section Exits

variable {mapper : Int → MemRegion} {L : PciLayout} {s : Monitor} {io : KvmRunIo}

theorem access_size (page : ByteMem) (i : Nat) : (io.access page i).size = io.size := by
  unfold KvmRunIo.access
  split_ifs
  · exact ByteMem.length_read _ _ _
  · rfl

theorem access_offset (page : ByteMem) (i : Nat) : (io.access page i).offset = io.port := by
  unfold KvmRunIo.access
  split_ifs <;> rfl

/-- What an element delivers does not change what the later ones ask for: an
    exit that writes gets nothing, and one that reads asks by the port alone. -/
theorem access_write (page : ByteMem) (i : Nat) (data : List UInt8)
    (hsilent : ∀ port bytes, io.access page i = .write port bytes → data = []) :
    io.access (page.write (io.element i) data) = io.access page := by
  funext j
  unfold KvmRunIo.access at hsilent ⊢
  by_cases hout : io.direction = kvmExitIoOut
  · rw [if_pos hout] at hsilent
    rw [hsilent _ _ rfl, ByteMem.write_nil]
  · rw [if_neg hout, if_neg hout]

variable (mapper L) in
theorem handlePioFrom_ends (hio : io.Valid) (stack : Nat → StackBytes) (n i : Nat) (page : ByteMem)
    (h : MonitorInv s) :
    ∃ res, EndsWith (fun fuel => Monitor.handlePioFrom mapper L fuel io stack n i s page) res ∧
      ExitEffect mapper L io page stack i n s res.1 := by
  induction n generalizing i s page with
  | zero => exact ⟨(s, page), .const _, h, .nil, .nil, .refl _⟩
  | succ n ih =>
      have hpos := hio.size_pos
      have hsize := hio.size_lt
      have hport := hio.port_lt
      have hacc : 0 < (io.access page i).size := by rwa [access_size]
      have hfit : (io.access page i).offset + (io.access page i).size ≤ 2 ^ 64 := by
        rw [access_size, access_offset]
        omega
      rcases busAccess_pio h.wired (stack i) (io.access page i) hacc hfit with ⟨res, hends, heff⟩
      rcases heff.inv h hacc hfit with ⟨hinv, hbus⟩
      rcases ih (i + 1) (page.write (io.element i) res.2) hinv with ⟨res', hrest, heff'⟩
      -- What an element reads back does not change the elements behind it.
      have hsame := access_write page i res.2 heff.silent
      refine ⟨res', hends.bind hrest, heff'.inv, ?_, ?_, hbus.trans heff'.bus⟩
      · have hops : io.serialOps page stack i (n + 1)
            = io.serialOps page stack (i + 1) n
              ++ (serialOp (stack i).ret (io.access page i)).toList := by
          unfold KvmRunIo.serialOps
          rw [List.range'_succ, List.filterMap_cons]
          cases serialOp (stack i).ret (io.access page i) with
          | none => simp
          | some op => simp
        have hserial := heff'.serial
        unfold KvmRunIo.serialOps at hserial
        rw [hsame] at hserial
        rw [hops]
        exact heff.serial.trans hserial
      · have haccs : io.accesses page i (n + 1)
            = io.accesses page (i + 1) n ++ [io.access page i] := by
          unfold KvmRunIo.accesses
          rw [List.range'_succ, List.map_cons, List.reverse_cons]
        have hports := heff'.ports
        unfold KvmRunIo.accesses at hports
        rw [hsame] at hports
        rw [haccs]
        exact (Trace.single heff.ports).trans hports

end Exits

/-! ### Runs of the whole -/

/-- What the kernel reports: a port exit with the fields' widths, an access to
    memory as wide as an instruction's. -/
def MonitorEvent.Valid : MonitorEvent → Prop
  | .pio io _ _ => io.Valid
  | .mmio acc _ => acc.size = 1 ∨ acc.size = 2 ∨ acc.size = 4 ∨ acc.size = 8
  | _ => True

/-- What an event is to the serial port, the last operation first. -/
def MonitorEvent.serialOps : MonitorEvent → List SerialOp
  | .pio io page stack => io.serialOps page stack 0 io.count
  | .stdin data => [.receive data]
  | _ => []

/-- The port accesses of an event, the last one first. -/
def MonitorEvent.portAccesses : MonitorEvent → List Access
  | .pio io page _ => io.accesses page 0 io.count
  | _ => []

section

variable (mapper : Int → MemRegion) (L : PciLayout)

/-- What reaches the block device is contained. -/
def MonitorContained (s : Monitor) : MonitorEvent → Prop
  | .mmio acc _ => ∀ o, ReachesWindow s.ports.machine acc.offset acc.size o →
      Contained mapper L s.dev (.access (acc.at o))
  | .ioevent a _ => Contained mapper L s.dev (.ioevent a)
  | .pio _ _ _ | .stdin _ => True

/-- What the program does. -/
def MonitorOutcome : MonitorEvent → Monitor → Monitor → Prop :=
  Guarded (MonitorStep mapper L) (MonitorContained mapper L)

/-- The same, as long as it is contained. -/
def MonitorWithin : MonitorEvent → Monitor → Monitor → Prop :=
  Bounded (MonitorOutcome mapper L) (MonitorContained mapper L)

end

/-- The monitor when the guest starts: what `create_serial_dev`, `pcibus_init`
    and `virtio_blk_init_pci` leave. -/
structure Monitor.Initial (L : PciLayout) (s : Monitor) : Prop where
  serial : s.serial = serialInit
  latch : s.ports.pciAddr = 0
  bus : s.bus.Initial L

section Runs

variable {mapper : Int → MemRegion} {L : PciLayout} {s s' : Monitor} {e : MonitorEvent}

theorem setCap_iobus (caps : List (Nat × Nat × Nat)) (m : Machine) (next : Nat) :
    (virtioPciSetCap m next caps).iobus = m.iobus := by
  induction caps generalizing m next with
  | nil => rfl
  | cons cap caps ih =>
      rcases cap with ⟨cfgType, offset, length⟩
      rw [virtioPciSetCap, ih]
      rfl

theorem wired_start (deviceId classCode irqLine devCfgLen : Nat) :
    Wired (virtioPciInit Machine.boot deviceId classCode irqLine devCfgLen) := by
  have hbar : ((virtioPciInit Machine.boot deviceId classCode irqLine devCfgLen).iobus.region
      (.bar 0 0)).next = none ∧ ((virtioPciInit Machine.boot deviceId classCode irqLine
        devCfgLen).iobus.region (.bar 0 0)).bus = none := by
    unfold virtioPciInit
    rw [setCap_iobus]
    simp only [pciInitBar, regionInit, Function.update_self, and_self]
  have hsetUp := setUp_virtioPciInit deviceId classCode irqLine devCfgLen
  rcases virtioPciInit_bars deviceId classCode irqLine devCfgLen with ⟨hsize, hio⟩
  -- From here on only what the set-up says of the machine is used.
  generalize virtioPciInit Machine.boot deviceId classCode irqLine devCfgLen = m at *
  rcases portsListed_of_setUp hsetUp (by decide) with ⟨lists, h⟩
  have hfresh := h.settled.device 0
  have hmmio := h.settled.listing.linked .mmio
  rw [h.settled.mmio] at hmmio
  have hpci := h.settled.listing.linked .pci
  -- The one configuration space is all of the list.
  have hone : lists .pci = [.config 0] := by
    refine List.perm_singleton.mp ((List.perm_ext_iff_of_nodup hpci.nodup
      (List.nodup_singleton _)).mpr ?_)
    intro r
    rw [h.pci, List.mem_singleton]
    constructor
    · rintro ⟨d, hd, rfl⟩
      rw [show d = 0 by omega]
    · rintro rfl
      exact ⟨0, Nat.one_pos, rfl⟩
  refine ⟨⟨?_, ?_, ?_, ?_, ?_, h.serial, h.data, h.addr, h.config 0 Nat.one_pos, ?_⟩, hio 0, ?_⟩
  · rw [← h.pio]
    exact h.settled.listing.linked .pio
  · rwa [← hone]
  · intro r hr
    exact absurd (hr.symm.trans hmmio) (by simp)
  · intro r hr
    exact absurd (hbar.1.symm.trans hr) (by simp)
  · intro b hb
    exact absurd (hbar.2.symm.trans hb) (by simp)
  · refine ⟨?_, ?_⟩
    · rw [hfresh.base]
      exact Nat.two_pow_pos 32
    · rw [hfresh.len, hsize, if_pos rfl]
  · intro i hi
    rw [hsize, if_neg hi]

theorem monitorInv_start (h : s.Initial L) : MonitorInv s := by
  rcases h.bus.machine with ⟨deviceId, classCode, irqLine, devCfgLen, hm⟩
  refine ⟨?_, ?_⟩
  · rw [show s.ports.machine = _ from hm]
    exact wired_start deviceId classCode irqLine devCfgLen
  · rw [h.latch]
    exact ⟨Nat.two_pow_pos 32, rfl⟩

/-- The bounded notification is the unbounded one. -/
theorem virtqNotifyWithin_iff (a : Nat) (d d' : PciDev) :
    (∃ fuel req, virtqNotifyWithin mapper L fuel req a d = some d') ↔
      VirtqNotifyAt mapper L a d d' := by
  constructor
  · rintro ⟨fuel, req, h⟩
    unfold virtqNotifyWithin at h
    split_ifs at h with hoff hown
    · rw [← Option.some.inj h]
      exact .disabled d hoff
    · dsimp only at h
      split_ifs at h with hdone
      rw [← Option.some.inj h]
      exact .handled d req fuel hoff hown.1 hown.2 hdone
  · intro h
    cases h with
    | disabled hoff => exact ⟨0, fun _ => 0, if_pos hoff⟩
    | handled req k hon hhandler hdev hdone =>
        refine ⟨k, req, ?_⟩
        unfold virtqNotifyWithin
        rw [if_neg hon, if_pos ⟨hhandler, hdev⟩]
        exact if_pos hdone

/-- On the memory bus there is nothing to be found but the BAR. -/
theorem BusesWired.mmio_only {b : Iobus BusName RegionName} (h : BusesWired b)
    {fuel addr size o : Nat} {r : RegionName}
    (hr : busHandleIo fuel b .mmio addr size = some (some (r, o))) :
    r = .bar 0 0 := by
  rcases Option.map_eq_some_iff.mp hr with ⟨q, hq, hres⟩
  rw [(reached_inv hres).1] at hq
  refine (findFrom_found (P := (· = .bar 0 0)) h.mmio ?_ hq).2
  rintro q q' rfl hq'
  exact h.bar q' hq'

/-- The register window is one of the block device's own accesses. -/
theorem iospaceHandleIo_inv {fuel : Nat} {req : ByteMem} {acc : Access} {data : List UInt8}
    (h : virtioPciIospaceHandleIo mapper L fuel req s acc = some (s', data)) :
    IospaceIo mapper L acc s.dev s'.dev ∧ s' = { s with
      dev := s'.dev,
      ioevents := ioeventsAfter L (s.ports.machine.dev 0) s.dev s'.dev s.ioevents } := by
  cases acc with
  | read offset size =>
      rcases Prod.mk.inj (Option.some.inj h) with ⟨rfl, -⟩
      refine ⟨.read s.dev offset size, ?_⟩
      have hevents : (virtioPciIospaceRead L s.dev offset size).2.events = s.dev.events := by
        unfold virtioPciIospaceRead
        split_ifs <;> rfl
      unfold ioeventsAfter
      rw [if_pos hevents]
  | write offset bytes =>
      rcases Option.map_eq_some_iff.mp h with ⟨dev, hdev, hout⟩
      rcases Prod.mk.inj hout with ⟨rfl, -⟩
      refine ⟨?_, rfl⟩
      -- A doorbell runs the handler; every other write is over at once.
      split at hdev
      · rename_i hnone
        rw [← Option.some.inj hdev]
        exact .write s.dev offset bytes hnone
      · rename_i a ha
        exact .notify s.dev dev offset bytes a ha
          ((virtqNotifyWithin_iff a _ _).mp ⟨fuel, req, hdev⟩)

/-- An access to memory reaches the register window, or nothing. -/
theorem handleMmio_inv (h : MonitorInv s) {fuel : Nat} {acc : Access} {stack : StackBytes}
    {data : List UInt8} (hs : s.handleMmio mapper L fuel acc stack = some (s', data)) :
    s' = s ∨ ∃ o, ReachesWindow s.ports.machine acc.offset acc.size o ∧
      IospaceIo mapper L (acc.at o) s.dev s'.dev ∧ s' = { s with
        dev := s'.dev,
        ioevents := ioeventsAfter L (s.ports.machine.dev 0) s.dev s'.dev s.ioevents } := by
  unfold Monitor.handleMmio Monitor.busAccess at hs
  rcases Option.bind_eq_some_iff.mp hs with ⟨x, hx, hthen⟩
  match x, hx, hthen with
  | none, _, hthen => exact Or.inl (congrArg Prod.fst (Option.some.inj hthen)).symm
  | some (r, o), hx, hthen =>
      cases h.wired.buses.mmio_only hx
      simp only [Monitor.handleIo, and_self, if_true] at hthen
      exact Or.inr ⟨o, ⟨fuel, hx⟩, iospaceHandleIo_inv hthen⟩

/-- Whatever happens, each device takes the steps that are its own. -/
theorem monitorStep_inv (h : MonitorInv s) (he : e.Valid) (hw : MonitorWithin mapper L e s s') :
    MonitorInv s' ∧ Trace SerialTrans s.serial e.serialOps s'.serial ∧
      Trace PortStep s.ports e.portAccesses s'.ports ∧ BusRun mapper L s.bus s'.bus := by
  have hc : MonitorContained mapper L s e := hw.1
  rcases Bounded.of_guarded hw with ⟨fuel, hs⟩
  cases e with
  | pio io page stack =>
      rcases Option.map_eq_some_iff.mp hs with ⟨out, hout, rfl⟩
      rcases handlePioFrom_ends mapper L he stack io.count 0 page h with
        ⟨res, hends, heff⟩
      rw [hends.2 fuel out hout]
      exact ⟨heff.inv, heff.serial, heff.ports, heff.bus⟩
  | mmio acc stack =>
      rcases Option.map_eq_some_iff.mp hs with ⟨⟨out, data⟩, hout, rfl⟩
      rcases handleMmio_inv h hout with rfl | ⟨o, hreach, hio, hout'⟩
      · exact ⟨h, .nil, .nil, .refl _⟩
      · have hports : out.ports = s.ports := by rw [hout']
        have hserial : out.serial = s.serial := by rw [hout']
        have hioevents : out.ioevents
            = ioeventsAfter L (s.ports.machine.dev 0) s.dev out.dev s.ioevents := by
          conv => lhs; rw [hout']
        dsimp only
        refine ⟨⟨by rw [hports]; exact h.wired, by rw [hports]; exact h.latched⟩,
          by rw [hserial]; exact .nil, by rw [hports]; exact .nil, ?_⟩
        have hbus : out.bus = { s.bus with
            dev := out.dev,
            ioevents := ioeventsAfter L (s.ports.machine.dev 0) s.dev out.dev s.ioevents } := by
          unfold Monitor.bus
          rw [hports, hioevents]
        rw [hbus]
        refine .single (.mmio acc.offset (acc.at o)) (hc o hreach) (.mmio _ _ s.bus _ ?_ ?_)
        · rw [Access.at_size, Access.at_offset]
          exact hreach
        · -- The access lies in the BAR, which has 256 bytes.
          rcases hreach with ⟨fuel', hreach⟩
          rcases h.wired.buses.window with ⟨hbase, hlen⟩
          rcases handleIo_inv hreach with ⟨hcov, hend, ho⟩
          rw [Region.covers_iff _ (by omega) (by omega)] at hcov
          rw [Region.last_eq _ (by omega) (by omega)] at hend
          refine .access _ _ _ ⟨?_, ?_⟩ hio
          · rw [Access.at_size]
            exact he
          · simp only [MonitorEvent.Valid] at he
            rw [Access.at_size, Access.at_offset]
            omega
  | stdin data =>
      rw [← Option.some.inj hs]
      exact ⟨⟨h.wired, h.latched⟩, .single rfl, .nil, .refl _⟩
  | ioevent a req =>
      simp only [monitorStep] at hs
      split_ifs at hs with ha
      rcases Option.map_eq_some_iff.mp hs with ⟨dev, hdev, rfl⟩
      refine ⟨⟨h.wired, h.latched⟩, .nil, .nil, ?_⟩
      exact .single (.ioevent a) hc (.ioevent a s.bus dev
        (.ioevent a _ _ ha ((virtqNotifyWithin_iff a _ _).mp ⟨fuel, req, hdev⟩)))

theorem serialTrace_run {t t' : Serial} {ops past : List SerialOp} (h : Trace SerialTrans t ops t')
    (ht : t = serialRun past) : t' = serialRun (ops ++ past) := by
  induction h with
  | nil => exact ht
  | cons op _ hs ih => rw [hs, ih]; rfl

/-- The accesses of a valid event are no wider than the bus. -/
theorem portAccesses_valid (he : e.Valid) (acc : Access) (hacc : acc ∈ e.portAccesses) :
    0 < acc.size ∧ acc.offset + acc.size ≤ 2 ^ 64 := by
  cases e with
  | pio io page stack =>
      have hpos := he.size_pos
      have hsize := he.size_lt
      have hport := he.port_lt
      rw [MonitorEvent.portAccesses, KvmRunIo.accesses, List.mem_reverse] at hacc
      rcases List.mem_map.mp hacc with ⟨i, -, rfl⟩
      rw [access_size, access_offset]
      omega
  | mmio | stdin | ioevent => exact absurd hacc List.not_mem_nil

/-- The invariant in every run, with the run of the block device. -/
theorem monitor_run {s₀ : Monitor} {es : List MonitorEvent} (h0 : s₀.Initial L)
    (hvalid : ∀ e ∈ es, e.Valid) (htrace : Trace (MonitorWithin mapper L) s₀ es s) :
    MonitorInv s ∧ BusRun mapper L s₀.bus s.bus := by
  induction htrace with
  | nil => exact ⟨monitorInv_start h0, .refl _⟩
  | cons e _ hs ih =>
      rcases ih (fun e' he => hvalid e' (List.mem_cons_of_mem e he)) with ⟨ht, hrun⟩
      rcases monitorStep_inv ht (hvalid e List.mem_cons_self) hs with ⟨hu, -, -, hpart⟩
      exact ⟨hu, hrun.trans hpart⟩

/-- The serial port is what its own operations make it. -/
theorem serial_run {s₀ : Monitor} {es : List MonitorEvent} (h0 : s₀.Initial L)
    (hvalid : ∀ e ∈ es, e.Valid) (htrace : Trace (MonitorWithin mapper L) s₀ es s) :
    s.serial = serialRun (es.flatMap MonitorEvent.serialOps) := by
  have hserial := (htrace.project (P := MonitorInv) Monitor.serial MonitorEvent.serialOps
    (monitorInv_start h0) fun t e u ht he hs => by
      rcases monitorStep_inv ht (hvalid e he) hs with ⟨hu, hpart, -, -⟩
      exact ⟨hu, hpart⟩).2
  have hrun : s.serial = serialRun (es.flatMap MonitorEvent.serialOps ++ []) :=
    serialTrace_run hserial h0.serial
  rwa [List.append_nil] at hrun

/-- Every run of the monitor in which what reaches the block device is
    contained is made of a run of each of its devices: the serial port is what
    its own operations make it, the configuration ports are what the port
    accesses make them, and the block device with its events is in a run of its
    own. -/
theorem devices_isolated (mapper : Int → MemRegion) (L : PciLayout) (s₀ s : Monitor)
    (es : List MonitorEvent) (h0 : s₀.Initial L) (hvalid : ∀ e ∈ es, e.Valid)
    (htrace : Trace (MonitorWithin mapper L) s₀ es s) :
    s.serial = serialRun (es.flatMap MonitorEvent.serialOps) ∧
      (∀ p, Trace PortStep s₀.ports (es.flatMap MonitorEvent.portAccesses) p ↔ p = s.ports) ∧
      BusRun mapper L s₀.bus s.bus := by
  have hinv := monitorInv_start h0
  have hports := (htrace.project (P := MonitorInv) Monitor.ports MonitorEvent.portAccesses hinv
    fun t e u ht he hs => by
      rcases monitorStep_inv ht (hvalid e he) hs with ⟨hu, -, hpart, -⟩
      exact ⟨hu, hpart⟩).2
  refine ⟨serial_run h0 hvalid htrace, ?_, (monitor_run h0 hvalid htrace).2⟩
  intro p
  constructor
  · intro hp
    refine (hports.unique (P := fun p => Wired p.machine) hinv.wired ?_ hp).2.symm
    intro t acc u v ht hacc hu hv
    rcases List.mem_flatMap.mp hacc with ⟨e, he, hmem⟩
    rcases portAccesses_valid (hvalid e he) acc hmem with ⟨hpos, hfit⟩
    exact portStep_unique ht hpos hfit hu hv
  · rintro rfl
    exact hports

/-- The monitor as `main` leaves it, -/
def sampleMonitor : Monitor :=
  { serial := serialInit, ports := .start sampleBus.machine, dev := sampleBus.dev,
    ioevents := sampleBus.ioevents }

theorem sampleMonitor_initial : sampleMonitor.Initial sampleLayout :=
  ⟨rfl, rfl, sampleBus_initial⟩

/-- and a guest that prints two characters with one instruction. -/
def samplePrint : MonitorEvent :=
  .pio ⟨kvmExitIoOut, 1, 0x3f8, 2, 0⟩ (fun i => if i = 0 then 72 else 105) fun _ => ⟨0, fun _ => 0⟩

theorem samplePrint_valid : samplePrint.Valid := ⟨by decide, by decide, by decide⟩

theorem samplePrint_step :
    ∃ s, MonitorWithin sampleMapper sampleLayout samplePrint sampleMonitor s := by
  rcases handlePioFrom_ends sampleMapper sampleLayout samplePrint_valid
    (fun _ => ⟨0, fun _ => 0⟩) 2 0 (fun i => if i = 0 then 72 else 105)
    (monitorInv_start sampleMonitor_initial) with ⟨res, hends, -⟩
  rcases hends.exists_fuel with ⟨fuel, hfuel⟩
  exact ⟨res.1, trivial, fun _ => ⟨fuel, Option.map_eq_some_iff.mpr ⟨res, hfuel, rfl⟩⟩⟩

/-- `devices_isolated` for two characters. -/
theorem devices_isolated_print : ∃ s,
    Trace (MonitorWithin sampleMapper sampleLayout) sampleMonitor [samplePrint] s ∧
      s.serial.output = [72, 105] := by
  rcases samplePrint_step with ⟨s, hs⟩
  have h := (devices_isolated sampleMapper sampleLayout sampleMonitor s [samplePrint]
    sampleMonitor_initial (by simpa using samplePrint_valid) (.single hs)).1
  refine ⟨s, .single hs, ?_⟩
  rw [h]
  decide

/-- A walk along a region linked to itself finds it or never ends. -/
theorem findFrom_loop {b : Iobus BusName RegionName} {r : RegionName} {addr : Nat}
    (hloop : b.nextOf r = some r) (hout : ¬(b.region r).covers addr = true) (fuel : Nat) :
    iobusFindFrom b addr fuel (some r) = none := by
  induction fuel with
  | zero => rfl
  | succ fuel ih =>
      rw [iobusFindFrom, if_neg hout, show (b.region r).next = some r from hloop]
      exact ih

/-- A lookup on the memory bus ends unless it has to follow the BAR around. -/
theorem BusesWired.mmio_ends_iff {b : Iobus BusName RegionName} (h : BusesWired b)
    (addr size : Nat) :
    (∃ x, EndsWith (fun fuel => busHandleIo fuel b .mmio addr size) x) ↔
      (b.head .mmio = some (.bar 0 0) → b.nextOf (.bar 0 0) = some (.bar 0 0) →
        (b.region (.bar 0 0)).base ≤ addr ∧ addr < (b.region (.bar 0 0)).base + 0x100) := by
  have hcovers := (b.region (.bar 0 0)).covers_iff (by rw [h.window.2]; decide)
    (by have := h.window; omega) addr
  rw [h.window.2] at hcovers
  rw [← hcovers]
  constructor
  · rintro ⟨x, hx⟩ hhead hloop
    by_contra hout
    rcases hx.exists_fuel with ⟨fuel, hfuel⟩
    rw [busHandleIo, iobusFindRegion, hhead, findFrom_loop hloop hout] at hfuel
    exact absurd hfuel (by simp)
  · intro hin
    cases hhead : b.head .mmio with
    | none =>
        have hlist : LinkedList b.nextOf (b.head .mmio) [] := hhead
        exact ⟨_, handle_ends hlist addr size⟩
    | some r =>
        cases h.mmio r hhead
        cases hnext : b.nextOf (.bar 0 0) with
        | none =>
            have hlist : LinkedList b.nextOf (b.head .mmio) [.bar 0 0] := ⟨hhead, hnext⟩
            exact ⟨_, handle_ends hlist addr size⟩
        | some r =>
            cases h.bar r hnext
            -- The loop is never entered: the first region has the address.
            have hfound : ∀ fuel, iobusFindRegion fuel b .mmio addr
                = if 0 < fuel then some (some (.bar 0 0)) else none := by
              intro fuel
              cases fuel with
              | zero => rfl
              | succ fuel =>
                  rw [iobusFindRegion, hhead, iobusFindFrom, if_pos (hin hhead hnext),
                    if_pos (Nat.succ_pos fuel)]
            exact ⟨_, (EndsWith.of_ite hfound).map _⟩

/-- Whatever the guest has done, as long as the block device was made to store
    inside its own structure and RAM, a port exit comes to an end. An access to
    memory is looked up to the end unless the BAR was linked to itself and the
    address is not the BAR's. -/
theorem port_exits_end (mapper : Int → MemRegion) (L : PciLayout) (s₀ s : Monitor)
    (es : List MonitorEvent) (h0 : s₀.Initial L) (hvalid : ∀ e ∈ es, e.Valid)
    (htrace : Trace (MonitorWithin mapper L) s₀ es s) :
    (∀ io page stack, io.Valid →
      ∃ res, EndsWith (fun fuel => s.handlePio mapper L fuel io stack page) res) ∧
    ∀ addr size,
      (∃ x, EndsWith (fun fuel => busHandleIo fuel s.ports.machine.iobus .mmio addr size) x) ↔
        (s.ports.machine.iobus.head .mmio = some (.bar 0 0) →
          s.ports.machine.iobus.nextOf (.bar 0 0) = some (.bar 0 0) →
          (s.ports.machine.iobus.region (.bar 0 0)).base ≤ addr ∧
            addr < (s.ports.machine.iobus.region (.bar 0 0)).base + 0x100) := by
  have hinv := (monitor_run h0 hvalid htrace).1
  refine ⟨?_, fun addr size => hinv.wired.buses.mmio_ends_iff addr size⟩
  intro io page stack hio
  rcases handlePioFrom_ends mapper L hio stack io.count 0 page hinv with
    ⟨res, hends, -⟩
  exact ⟨res, hends⟩

/-- `port_exits_end` after two characters were printed. -/
theorem port_exits_end_print : ∃ s,
    Trace (MonitorWithin sampleMapper sampleLayout) sampleMonitor [samplePrint] s ∧
      ∃ res, EndsWith (fun fuel => s.handlePio sampleMapper sampleLayout fuel
        ⟨0, 1, 0xcfc, 4, 0⟩ (fun _ => ⟨0, fun _ => 0⟩) fun _ => 0) res := by
  rcases samplePrint_step with ⟨s, hs⟩
  exact ⟨s, .single hs, (port_exits_end sampleMapper sampleLayout sampleMonitor s [samplePrint]
    sampleMonitor_initial (by simpa using samplePrint_valid) (.single hs)).1 ⟨0, 1, 0xcfc, 4, 0⟩ _ _
    ⟨by decide, by decide, by decide⟩⟩

end Runs

end Microv
