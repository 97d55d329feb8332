import Microv.Core.VirtioBus
import Microv.Theory.BarDecoding
import Microv.Theory.VirtioPci

/-!
# The Two Paths of a Doorbell

A doorbell is a two-byte write to the notify register. KVM compares it with
the events the monitor registered; the bus would look its address up and hand
it to the register window, which notifies the queue the value names.

The event's address was computed when the queue was enabled, so the two paths
agree as long as what it was computed from still holds: the BAR is where it
was and still on the bus. While no event is registered the guest may program
the BAR as it likes, and it cannot enable a queue without reaching the window,
so the region is on the bus when the first event is registered.
`KeepsDoorbell` is the condition on the guest. The notify capability is
writable too, and has to be intact when a queue is enabled. The accesses and
doorbells of a run are contained, so that none of them stores over the queue
pointer or the header.

## Main definitions

* `VirtioBusStep`: One access of the guest, or one event.
* `BusContained`, `VirtioBusOutcome`: Contained events, and the program.
* `VirtioBus.Initial`: The device as the monitor sets it up.
* `Fires`, `Notified`: The two paths.
* `KeepsDoorbell`: The condition on an event.
* `Doorbells`: Every event is where the window's notify register is.

## Theorems

* `doorbells_step`: One event keeps that.
* `fast_path_agrees`: The two paths agree in every run.
-/

namespace Microv

/-- One access of the guest, or one event. -/
inductive VirtioBusStep (mapper : Int → MemRegion) (L : PciLayout) :
    VirtioBusEvent → VirtioBus → VirtioBus → Prop where
  | config (w : ConfigWrite) (s : VirtioBus) (m' : Machine) : ConfigStep 1 w s.machine m' →
      VirtioBusStep mapper L (.config w) s { s with machine := m' }
  | mmio (addr : Nat) (acc : Access) (s : VirtioBus) (d' : PciDev) :
      ReachesWindow s.machine addr acc.size acc.offset → PciStep mapper L (.access acc) s.dev d' →
      VirtioBusStep mapper L (.mmio addr acc) s
        { s with
          dev := d',
          ioevents := ioeventsAfter L (s.machine.dev 0) s.dev d' s.ioevents }
  | ioevent (a : Nat) (s : VirtioBus) (d' : PciDev) : PciStep mapper L (.ioevent a) s.dev d' →
      VirtioBusStep mapper L (.ioevent a) s { s with dev := d' }

/-- What the event does to the device is contained. -/
def BusContained (mapper : Int → MemRegion) (L : PciLayout) (s : VirtioBus) :
    VirtioBusEvent → Prop
  | .config _ => True
  | .mmio _ acc => Contained mapper L s.dev (.access acc)
  | .ioevent a => Contained mapper L s.dev (.ioevent a)

/-- What the program does. -/
def VirtioBusOutcome (mapper : Int → MemRegion) (L : PciLayout) :
    VirtioBusEvent → VirtioBus → VirtioBus → Prop :=
  Guarded (VirtioBusStep mapper L) (BusContained mapper L)

/-- The device as the monitor sets it up. -/
structure VirtioBus.Initial (L : PciLayout) (s : VirtioBus) : Prop where
  machine : ∃ deviceId classCode irqLine devCfgLen,
    s.machine = virtioPciInit Machine.boot deviceId classCode irqLine devCfgLen
  dev : s.dev.Initial L
  ioevents : s.ioevents = []

/-- KVM's path: a two-byte write of `v` at `a` fires an event whose callback is
    called on queue `q`. -/
def Fires (L : PciLayout) (s : VirtioBus) (q a v : Nat) : Prop :=
  ∃ e ∈ s.ioevents, e.addr = a ∧ e.len = 2 ∧ e.datamatch = v ∧ e.fnPtr = vqAt L s.dev.host q

/-- The bus's path: a two-byte write of `v` at `a` would reach the window and
    call `virtq_notify` on queue `q`. -/
def Notified (mapper : Int → MemRegion) (L : PciLayout) (s : VirtioBus) (q a v : Nat) : Prop :=
  ∃ o, ReachesWindow s.machine a 2 o ∧
    (virtioPciIospaceWrite mapper L s.dev o (ByteMem.leBytes 2 v)).2
      = some (vqAt L s.dev.host q)

/-- The notify capability is as `virtio_pci_set_cap` left it. -/
def NotifyCapIntact (f : PciDevice) : Prop :=
  f.notifyBar = 0 ∧ f.notifyOffset = regNotifyCfg ∧ f.notifyMultiplier = 0

/-- Once there is an event, writes to configuration space keep the memory bit
    and the base of BAR 0; a queue is enabled with the notify capability
    intact; and nothing is relinked or written past the registers. -/
def KeepsDoorbell (L : PciLayout) (s : VirtioBus) : VirtioBusEvent → Prop
  | .config w =>
      RelinksNothing s.machine w ∧
        (s.ioevents ≠ [] →
          ((w.store s.machine).barView 0 0).enable = (s.machine.barView 0 0).enable ∧
            w.registerAfter s.machine 0 0 = (s.machine.barView 0 0).register)
  | .mmio _ acc =>
      BlockFits (.access acc) ∧
        ∀ data, acc = .write regQEnable data →
          queueEnable L (s.dev.host.write (L.config + regQEnable) data) ≠ 0 →
          NotifyCapIntact (s.machine.dev 0)
  | .ioevent _ => True

/-- Every event is at the notify register of the window, for the queue it is
    compared with, and every queue that was enabled has one. -/
structure Doorbells (L : PciLayout) (s : VirtioBus) (lists : BusName → List RegionName) : Prop where
  listing : BarListing s.machine lists
  only : ∀ r ∈ lists .mmio, r = .bar 0 0
  sizes : ∀ j, j ≠ 0 → (s.machine.dev 0).barSize j = 0
  size : (s.machine.barView 0 0).size = 0x100
  sound : (s.machine.barView 0 0).Sound
  anchored : Anchored L s.dev
  events : ∀ e ∈ s.ioevents, e.addr = (s.machine.barView 0 0).register + regNotifyCfg ∧ e.len = 2
    ∧ e.fnPtr = L.vq + virtqSize * e.datamatch
  mapped : s.ioevents ≠ [] → .bar 0 0 ∈ lists .mmio
  enabled : ∀ q, L.vq + virtqSize * q ∈ s.dev.events → ∃ e ∈ s.ioevents, e.datamatch = q

section Setup

variable {m : Machine}

/-- The capabilities lie behind the BARs. -/
theorem setUp_setCap {n : Nat} (hn : 0 < n) (caps : List (Nat × Nat × Nat)) (next : Nat)
    (h : Machine.SetUp n m) (hlo : 0x28 ≤ next) (hhi : next + 20 * caps.length < 256) :
    Machine.SetUp n (virtioPciSetCap m next caps) := by
  induction caps generalizing m next with
  | nil => exact h
  | cons cap caps ih =>
      rcases cap with ⟨cfgType, offset, length⟩
      rw [List.length_cons] at hhi
      rw [virtioPciSetCap]
      -- A capability is sixteen or twenty bytes, and lies behind the last BAR.
      have hlen : (if cfgType = 2 ∨ cfgType = 5 then 20 else 16) ≤ 20 := by
        split <;> omega
      refine ih _ (.header 0 next _ h hn (.of_ge ?_) (.of_ge (by omega))) ?_ ?_
      · unfold pciCommand
        omega
      · rw [Nat.mod_eq_of_lt (by omega)]
        omega
      · rw [Nat.mod_eq_of_lt (by omega)]
        omega

theorem setUp_virtioPciInit (deviceId classCode irqLine devCfgLen : Nat) :
    Machine.SetUp 1 (virtioPciInit Machine.boot deviceId classCode irqLine devCfgLen) := by
  have hhdr : ∀ {m : Machine} (offset : Nat) (data : List UInt8), Machine.SetUp 1 m →
      Apart offset data.length pciCommand 2 → Apart offset data.length 0x10 0x18 →
      Machine.SetUp 1 (m.writeHdr 0 offset data) :=
    fun offset data h h1 h2 => .header 0 offset data h Nat.one_pos h1 h2
  unfold virtioPciInit
  refine setUp_setCap Nat.one_pos _ _ (.bar 0 0 0x100 false ?_ Nat.one_pos (by decide) (by decide))
    (by decide) (by simp only [virtioPciCaps, List.length_cons, List.length_nil]; decide)
  -- Eight fields of the header, none of them the command register or a BAR.
  iterate 8
    refine hhdr _ _ ?_
      (by simp only [ByteMem.length_leBytes, List.length_cons, List.length_nil]; decide)
      (by simp only [ByteMem.length_leBytes, List.length_cons, List.length_nil]; decide)
  exact .dev .boot

theorem writeHdr_barSize (m : Machine) (d offset : Nat) (data : List UInt8) (e : Nat) :
    ((m.writeHdr d offset data).dev e).barSize = (m.dev e).barSize
      ∧ ((m.writeHdr d offset data).dev e).barIsIoSpace = (m.dev e).barIsIoSpace := by
  unfold Machine.writeHdr
  by_cases he : e = d
  · subst he
    simp only [Function.update_self, and_self]
  · simp only [Function.update_of_ne he, and_self]

theorem setCap_barSize (caps : List (Nat × Nat × Nat)) (next : Nat) (m : Machine) (e : Nat) :
    ((virtioPciSetCap m next caps).dev e).barSize = (m.dev e).barSize
      ∧ ((virtioPciSetCap m next caps).dev e).barIsIoSpace = (m.dev e).barIsIoSpace := by
  induction caps generalizing m next with
  | nil => exact ⟨rfl, rfl⟩
  | cons cap caps ih =>
      rcases cap with ⟨cfgType, offset, length⟩
      rw [virtioPciSetCap]
      refine ⟨(ih _ _).1.trans ?_, (ih _ _).2.trans ?_⟩
      · exact (writeHdr_barSize m 0 next _ e).1
      · exact (writeHdr_barSize m 0 next _ e).2

/-- BAR 0 is the only one implemented, of `0x100` bytes of memory. -/
theorem virtioPciInit_bars (deviceId classCode irqLine devCfgLen : Nat) :
    let f := (virtioPciInit Machine.boot deviceId classCode irqLine devCfgLen).dev 0
    (∀ j, f.barSize j = if j = 0 then 0x100 else 0) ∧ ∀ j, f.barIsIoSpace j = false := by
  unfold virtioPciInit
  refine ⟨fun j => ?_, fun j => ?_⟩
  · rw [(setCap_barSize _ _ _ 0).1]
    simp only [pciInitBar, Function.update_self, Function.update_apply, writeHdr_barSize]
    rfl
  · rw [(setCap_barSize _ _ _ 0).2]
    simp only [pciInitBar, Function.update_self, Function.update_apply, writeHdr_barSize]
    split <;> rfl

theorem VirtioBus.Initial.doorbells {L : PciLayout} {s : VirtioBus} (h : s.Initial L) :
    ∃ lists, Doorbells L s lists := by
  rcases h.machine with ⟨deviceId, classCode, irqLine, devCfgLen, hm⟩
  have hsetUp := setUp_virtioPciInit deviceId classCode irqLine devCfgLen
  rcases virtioPciInit_bars deviceId classCode irqLine devCfgLen with ⟨hsize, hio⟩
  rw [← hm] at hsetUp hsize hio
  -- Nothing is mapped, enabled or registered yet.
  rcases settled_of_setUp hsetUp with ⟨lists, hs⟩
  refine ⟨lists, hs.barListing, fun r hr => ?_, fun j hj => ?_, ?_, ?_, h.dev.anchored,
    fun e he => ?_, fun hne => ?_, fun q hq => ?_⟩
  · rw [hs.mmio] at hr
    exact absurd hr List.not_mem_nil
  · rw [hsize, if_neg hj]
  · exact (hsize 0).trans (if_pos rfl)
  · exact (hs.decodes (by decide) (hio 0)).sound
  · rw [h.ioevents] at he
    exact absurd he List.not_mem_nil
  · exact absurd h.ioevents hne
  · rw [h.dev.events] at hq
    exact absurd hq List.not_mem_nil

end Setup

section Step

variable {mapper : Int → MemRegion} {L : PciLayout} {s s' : VirtioBus}
  {lists lists' : BusName → List RegionName} {m m' : Machine} {w : ConfigWrite}

/-- No write changes what BARs there are. -/
theorem Written.barSize (h : Written m lists w m' lists') (e : Nat) :
    (m'.dev e).barSize = (m.dev e).barSize := by
  have hstore : ((w.store m).dev e).barSize = (m.dev e).barSize := by
    rw [store_dev]
  cases h with
  | command _ hr => exact (hr.same.barSize e).trans hstore
  | bar _ _ =>
      refine Eq.trans ?_ hstore
      unfold pciBarConfig
      by_cases he : e = w.d
      · subst he
        simp only [Function.update_self]
      · simp only [Function.update_of_ne he]
  | other _ _ => exact hstore

/-- A BAR that is not implemented is never put on a bus. -/
theorem Written.only_bar (h : Written m lists w m' lists') (hd : w.d = 0)
    (hsizes : ∀ j, j ≠ 0 → (m.dev 0).barSize j = 0) (honly : ∀ r ∈ lists .mmio, r = .bar 0 0) :
    ∀ r ∈ lists' .mmio, r = .bar 0 0 := by
  cases h with
  | command _ hr =>
      intro r hmem
      by_cases hbar : ∃ j, j < 6 ∧ r = .bar 0 j
      · rcases hbar with ⟨j, hj, rfl⟩
        by_cases hj0 : j = 0
        · rw [hj0]
        · -- Its mask is zero, so its round finds no base.
          have hbase : (w.store m).hasBase 0 j = false := by
            have hmask : barMask (((w.store m).dev 0).barSize j) = 0 := by
              rw [store_dev]
              simp only [hsizes j hj0]
              decide
            unfold Machine.hasBase
            rw [hmask, Nat.and_zero]
            rfl
          rw [hd] at hr
          have hmapped := (hr.mapped .mmio j (Nat.zero_le j) (by omega)).mp hmem
          unfold MapsTo at hmapped
          simp only [hbase, Bool.false_eq_true, false_and, and_false, false_or, not_false_eq_true,
            and_true, ite_self] at hmapped
          exact honly _ hmapped
      · refine honly r ((hr.others .mmio r (fun j _ hj hc => hbar ⟨j, by omega, ?_⟩)).mp hmem)
        rw [hc, hd]
  | bar _ _ => exact honly
  | other _ _ => exact honly

/-- A write to configuration space. -/
theorem Doorbells.config (h : Doorbells L s lists) (hw : KeepsDoorbell L s (.config w))
    (hs : ConfigStep 1 w s.machine m') : ∃ lists', Doorbells L { s with machine := m' } lists' := by
  rcases step_written w h.listing hw.1 hs with ⟨lists', hwritten⟩
  have hf := hs.1
  -- There is one device.
  have hd : w.d = 0 := by
    have hlt := hf.1
    omega
  have hview := hwritten.barView h.sound (by decide) hf (fun _ hlo hhi hout => by
    unfold pciBarOffset at hhi
    omega)
  have hreg := h.sound.registerAfter w
  -- Once an event is registered the write keeps bit and register.
  have hkeeps : s.ioevents ≠ [] → m'.barView 0 0 = s.machine.barView 0 0 := by
    intro hne
    rw [hview, (hw.2 hne).1, (hw.2 hne).2, h.sound.set_self]
  refine ⟨lists', hwritten.listing w h.listing, hwritten.only_bar hd h.sizes h.only, ?_, ?_, ?_,
    h.anchored, fun e he => ?_, fun hne => ?_, h.enabled⟩
  · intro j hj
    rw [hwritten.barSize]
    exact h.sizes j hj
  · dsimp only
    rw [hview]
    exact h.size
  · dsimp only
    rw [hview]
    exact h.sound.set _ hreg.1 hreg.2
  · dsimp only
    rw [hkeeps (List.ne_nil_of_mem he)]
    exact h.events e he
  · -- The memory bit is what it was, so the round leaves the BAR on the bus.
    have hon := h.mapped hne
    rw [hwritten.mem_mmio h.sound (by decide), (hw.2 hne).1]
    by_cases hcommand : w.offset = pciCommand ∧ w.d = 0
    · rw [if_pos hcommand]
      by_cases hen : (s.machine.barView 0 0).enable = true
      · rw [if_pos hen]
        exact Or.inr hon
      · rw [if_neg hen]
        exact ⟨hon, fun hc => hen hc.1⟩
    · rw [if_neg hcommand]
      exact hon

/-- Registering an event adds at most that one, and one for its queue is there
    afterwards. -/
theorem kvmIoeventfd_spec (es : List KvmIoeventfd) (e : KvmIoeventfd) :
    (∀ e' ∈ kvmIoeventfd es e, e' ∈ es ∨ e' = e) ∧ (∀ e' ∈ es, e' ∈ kvmIoeventfd es e)
      ∧ ∃ e' ∈ kvmIoeventfd es e, e'.datamatch = e.datamatch := by
  unfold kvmIoeventfd
  by_cases hany : (es.any fun e' => e'.addr = e.addr ∧ e'.len = e.len
      ∧ e'.datamatch = e.datamatch) = true
  · rw [if_pos hany]
    refine ⟨fun _ he' => Or.inl he', fun _ he' => he', ?_⟩
    rcases List.any_eq_true.mp hany with ⟨e', he', hsame⟩
    exact ⟨e', he', (of_decide_eq_true hsame).2.2⟩
  · rw [if_neg hany]
    refine ⟨fun e' he' => ?_, fun _ he' => List.mem_append_left _ he',
      e, List.mem_append_right _ List.mem_cons_self, rfl⟩
    simpa only [List.mem_append, List.mem_singleton] using he'

/-- The event of a queue that is enabled through the window, with the notify
    capability intact. -/
theorem initIoeventfd_eq {d d' : PciDev} {data : List UInt8} (h : Anchored L d)
    (hs : PciStep mapper L (.access (.write regQEnable data)) d d') (h' : Anchored L d')
    {f : PciDevice} (hcap : NotifyCapIntact f) :
    virtioPciInitIoeventfd L f d'.host (queueSelect L d'.host) =
      { addr := f.hdr.le (pciBarOffset 0) 4 + regNotifyCfg, len := 2,
        datamatch := queueSelect L d.host,
        fnPtr := L.vq + virtqSize * queueSelect L d.host } := by
  have hge := L.vq_ge
  have hcfg := L.devCfg_eq
  -- The enable register and the queues are both off the selection.
  have hselect : queueSelect L d'.host = queueSelect L d.host := by
    refine step_field hs h.vq (L.config + regQSelect) 2 ?_
    intro x h1 h2
    simp only [regQSelect] at h1 h2
    simp only [Spares, Off, regDevCfg, regIsrCfg, regDfselect, regGfselect, regQSelect, regQEnable,
      regQSize, regQUsedhi, regNotifyCfg]
    refine ⟨?_, ?_, ?_, ?_, ?_, ?_, ?_, ?_⟩ <;> intros <;> omega
  rcases hcap with ⟨hbar, hoffset, hmult⟩
  simp only [virtioPciInitIoeventfd, hbar, hoffset, hmult, hselect, Nat.zero_mul, Nat.add_zero,
    vqAt, h'.vq]
  rfl

/-- An access the bus hands to the window. -/
theorem Doorbells.mmio {addr : Nat} {acc : Access} {d' : PciDev} (h : Doorbells L s lists)
    (hw : KeepsDoorbell L s (.mmio addr acc))
    (hreach : ReachesWindow s.machine addr acc.size acc.offset)
    (hs : PciStep mapper L (.access acc) s.dev d') :
    Doorbells L { s with
      dev := d', ioevents := ioeventsAfter L (s.machine.dev 0) s.dev d' s.ioevents } lists := by
  have hanchored := anchored_step h.anchored hw.1 hs
  -- The access came through the bus, so the BAR is on it.
  have hon : .bar 0 0 ∈ lists .mmio := by
    rcases hreach with ⟨fuel, hfuel⟩
    exact (h.listing.listing.handled_inv hfuel).1
  rcases step_events hs h.anchored.vq with hev | ⟨data, hacc, hen, hev⟩
  · -- No queue was enabled.
    have hsame : ioeventsAfter L (s.machine.dev 0) s.dev d' s.ioevents = s.ioevents := if_pos hev
    rw [hsame]
    refine ⟨h.listing, h.only, h.sizes, h.size, h.sound, hanchored, h.events, fun _ => hon, ?_⟩
    intro q hq
    exact h.enabled q (hev ▸ hq)
  · cases hacc
    -- The selected queue was enabled, and its event computed from the BAR.
    have hne : d'.events ≠ s.dev.events := by
      rw [hev]
      intro hc
      have hlen := congrArg List.length hc
      rw [List.length_append, List.length_singleton] at hlen
      omega
    have hafter : ioeventsAfter L (s.machine.dev 0) s.dev d' s.ioevents = kvmIoeventfd s.ioevents
        (virtioPciInitIoeventfd L (s.machine.dev 0) d'.host (queueSelect L d'.host)) := if_neg hne
    rw [initIoeventfd_eq h.anchored hs hanchored (hw.2 data rfl hen)] at hafter
    rcases kvmIoeventfd_spec s.ioevents _ with ⟨hmem, hkeep, hhas⟩
    rw [← hafter] at hmem hkeep hhas
    refine ⟨h.listing, h.only, h.sizes, h.size, h.sound, hanchored, fun e he => ?_, fun _ => hon,
      fun q hq => ?_⟩
    · rcases hmem e he with he | rfl
      · exact h.events e he
      · exact ⟨rfl, rfl, rfl⟩
    · dsimp only at hq
      rw [hev, List.mem_append, List.mem_singleton] at hq
      -- A queue enabled before has its event still; this one has one now.
      rcases hq with hq | hq
      · rcases h.enabled q hq with ⟨e, he, hdata⟩
        exact ⟨e, hkeep e he, hdata⟩
      · have hq' : q = queueSelect L s.dev.host := by
          unfold virtqSize at hq
          omega
        rcases hhas with ⟨e, he, hdata⟩
        exact ⟨e, he, hdata.trans hq'.symm⟩

theorem doorbells_step {e : VirtioBusEvent} (h : Doorbells L s lists) (hw : KeepsDoorbell L s e)
    (hs : VirtioBusStep mapper L e s s') : ∃ lists', Doorbells L s' lists' := by
  cases hs with
  | config w _ m' hs => exact h.config hw hs
  | mmio addr acc _ d' hreach hs => exact ⟨lists, h.mmio hw hreach hs⟩
  | ioevent a _ d' hs =>
      have hev : d'.events = s.dev.events := by
        cases hs with
        | ioevent _ _ _ _ hn => exact notifyAt_events hn
      refine ⟨lists, h.listing, h.only, h.sizes, h.size, h.sound,
        anchored_step (e := .ioevent a) h.anchored trivial hs, h.events, h.mapped, fun q hq => ?_⟩
      exact h.enabled q (hev ▸ hq)

end Step

section Agreement

variable {mapper : Int → MemRegion} {L : PciLayout} {s : VirtioBus}
  {lists : BusName → List RegionName}

/-- The bus reaches the window at an offset when the BAR is on it. -/
theorem Doorbells.reaches (h : Doorbells L s lists) (hon : .bar 0 0 ∈ lists .mmio) (a o : Nat)
    (ho : o + 2 ≤ 0x100) :
    ReachesWindow s.machine a 2 o ↔ a = (s.machine.barView 0 0).register + o := by
  -- The region covers the BAR, and no other region is on the bus.
  have hbase : (s.machine.iobus.region (.bar 0 0)).base = (s.machine.barView 0 0).register :=
    h.sound.base
  have hlen : (s.machine.iobus.region (.bar 0 0)).len = 0x100 := h.sound.len.trans h.size
  have hlt := h.sound.register_lt
  refine ⟨fun ⟨fuel, hfuel⟩ => ?_, fun ha => ?_⟩
  · rcases h.listing.listing.handled_inv hfuel with ⟨_, hle, ho⟩
    omega
  · rcases h.listing.listing.handled hon a 2 (by decide) (by omega) (by omega)
      (by omega) (fun q hq _ => h.only q hq) with ⟨fuel, hfuel⟩
    refine ⟨fuel, ?_⟩
    rw [hfuel, hbase, ha, Nat.add_sub_cancel_left]

/-- The window notifies the queue named by the value written to its notify
    register, and none otherwise. -/
theorem notified_iff (h : Anchored L s.dev) (q o v : Nat) (hv : v < 2 ^ 16) :
    (virtioPciIospaceWrite mapper L s.dev o (ByteMem.leBytes 2 v)).2 = some (vqAt L s.dev.host q)
      ↔ o = regNotifyCfg ∧ v = q := by
  have hlen := ByteMem.length_leBytes 2 v
  -- The register spells the value, and the queue pointer is not touched.
  have hqueue : vqAt L (s.dev.host.write (L.config + regNotifyCfg) (ByteMem.leBytes 2 v))
      (notifyVqn L (s.dev.host.write (L.config + regNotifyCfg) (ByteMem.leBytes 2 v)))
      = L.vq + virtqSize * v := by
    have hvqn : notifyVqn L
        (s.dev.host.write (L.config + regNotifyCfg) (ByteMem.leBytes 2 v)) = v :=
      (ByteMem.le_write_leBytes _ _ 2 v).trans (Nat.mod_eq_of_lt hv)
    have hptr := (copy_keeps (L := L) (d := s.dev) regNotifyCfg (ByteMem.leBytes 2 v) (by decide)
      (by omega)).1
    rw [vqAt, hvqn, hptr, h.vq]
  rw [vqAt, h.vq]
  constructor
  · intro hsome
    rcases regWrite_notified o _ _ hsome with ⟨rfl, ha, _⟩
    rw [hqueue] at ha
    refine ⟨rfl, ?_⟩
    unfold virtqSize at ha
    omega
  · rintro ⟨rfl, rfl⟩
    rw [← hqueue, notifyWrite_eq]

theorem Doorbells.agree (h : Doorbells L s lists) (q a v : Nat) (hv : v < 2 ^ 16)
    (hq : vqAt L s.dev.host q ∈ s.dev.events) :
    Fires L s q a v ↔ Notified mapper L s q a v := by
  have hat : vqAt L s.dev.host q = L.vq + virtqSize * q := by
    rw [vqAt, h.anchored.vq]
  rcases h.enabled q (hat ▸ hq) with ⟨e, he, hdata⟩
  have hon := h.mapped (List.ne_nil_of_mem he)
  rcases h.events e he with ⟨haddr, hlen, hfn⟩
  -- An event of the queue fires at the BAR as it was, which is the BAR as it is.
  have hfires : Fires L s q a v ↔
      a = (s.machine.barView 0 0).register + regNotifyCfg ∧ v = q := by
    constructor
    · rintro ⟨e', he', ha, _, hv', hq'⟩
      rcases h.events e' he' with ⟨haddr', _, hfn'⟩
      rw [hfn', hat] at hq'
      refine ⟨ha ▸ haddr', ?_⟩
      rw [← hv']
      unfold virtqSize at hq'
      omega
    · rintro ⟨ha, hvq⟩
      exact ⟨e, he, by rw [haddr, ha], hlen, by rw [hdata, hvq], by rw [hfn, hdata, hat]⟩
  rw [hfires]
  constructor
  · rintro ⟨ha, hvq⟩
    exact ⟨regNotifyCfg, (h.reaches hon a regNotifyCfg (by decide)).mpr ha,
      (notified_iff h.anchored q regNotifyCfg v hv).mpr ⟨rfl, hvq⟩⟩
  · rintro ⟨o, hreach, hnotify⟩
    rcases (notified_iff h.anchored q o v hv).mp hnotify with ⟨rfl, hvq⟩
    exact ⟨(h.reaches hon a regNotifyCfg (by decide)).mp hreach, hvq⟩

end Agreement

/-- As long as the guest keeps what the events were computed from, and what it
    does to the device is contained, a doorbell fires the event of a queue
    exactly when the bus would notify it. -/
theorem fast_path_agrees (mapper : Int → MemRegion) (L : PciLayout) (s₀ s : VirtioBus)
    (h₀ : s₀.Initial L)
    (hrun : Run (VirtioBusOutcome mapper L)
      (fun s e => KeepsDoorbell L s e ∧ BusContained mapper L s e) s₀ s)
    (q a v : Nat) (hv : v < 2 ^ 16) (hq : vqAt L s.dev.host q ∈ s.dev.events) :
    Fires L s q a v ↔ Notified mapper L s q a v := by
  have hinv : ∃ lists, Doorbells L s lists := by
    refine hrun.invariant (P := fun s => ∃ lists, Doorbells L s lists) h₀.doorbells ?_
    rintro s e s' ⟨lists, h⟩ ⟨hw, hcont⟩ ho
    exact doorbells_step h hw (ho hcont)
  rcases hinv with ⟨lists, h⟩
  exact h.agree q a v hv hq

/-- The block device, as the monitor sets it up. -/
def sampleBus : VirtioBus :=
  { machine := virtioPciInit Machine.boot 0x1042 0x018000 15 60, dev := samplePci, ioevents := [] }

theorem sampleBus_initial : sampleBus.Initial sampleLayout :=
  ⟨⟨_, _, _, _, rfl⟩, samplePci_initial, rfl⟩

/-- The machine once BAR 0 has a base. -/
def sampleBusProgrammed : Machine := pciBarConfig (sampleBase.store sampleBus.machine) 0 0

/-- The window once queue 0 is enabled. -/
def sampleEnabled : PciDev :=
  (virtioPciIospaceWrite sampleMapper sampleLayout samplePci regQEnable [1, 0]).1

theorem sampleEnabled_queue : vqAt sampleLayout sampleEnabled.host 0 ∈ sampleEnabled.events
    ∧ sampleLayout.vq = vqAt sampleLayout sampleEnabled.host 0 := by
  decide +kernel

/-- The guest programs BAR 0, enables memory space, and enables queue 0. -/
theorem sampleBus_run : ∃ m,
    Run (VirtioBusStep sampleMapper sampleLayout)
      (fun s e => KeepsDoorbell sampleLayout s e ∧ BusContained sampleMapper sampleLayout s e)
      sampleBus ⟨m, sampleEnabled, [⟨0xf000003c, 2, 0, sampleLayout.vq⟩]⟩
    ∧ pciConfigWrite 0 sampleBusProgrammed 0 4 [2, 0] = some m := by
  have hbase : ConfigStep 1 sampleBase sampleBus.machine sampleBusProgrammed := by
    refine ⟨by decide, 0, ?_⟩
    simp [pciConfigWrite, pciCommand, sampleBase, sampleBusProgrammed, ConfigWrite.store]
  -- What the two accesses that follow need of the machine, computed once.
  have hend : (pciConfigWrite 0 sampleBusProgrammed 0 4 [2, 0]).map (fun m =>
      (busHandleIo 2 m.iobus .mmio 0xf000001c 2, (m.dev 0).notifyBar, (m.dev 0).notifyOffset,
        (m.dev 0).notifyMultiplier,
        ioeventsAfter sampleLayout (m.dev 0) samplePci sampleEnabled []))
      = some (some (some (.bar 0 0, 28)), 0, 60, 0, [⟨0xf000003c, 2, 0, sampleLayout.vq⟩]) := by
    decide +kernel
  rcases Option.map_eq_some_iff.mp hend with ⟨m, hm, hfacts⟩
  simp only [Prod.mk.injEq] at hfacts
  rcases hfacts with ⟨hreach, hbar, hoffset, hmult, hevents⟩
  have henable : ConfigStep 1 sampleEnable sampleBusProgrammed m := ⟨by decide, 0, hm⟩
  -- Nothing is on a bus before the first command write.
  have hrelinks : RelinksNothing sampleBusProgrammed sampleEnable := by
    rcases settled_of_setUp (setUp_virtioPciInit 0x1042 0x018000 15 60) with ⟨lists, hs⟩
    exact relinksNothing_of_unmapped ((hs.barListing.store sampleBase).config 0 0) hs.unmapped _
  have haccess : PciStep sampleMapper sampleLayout (.access (.write regQEnable [1, 0])) samplePci
      sampleEnabled :=
    .access _ _ _ (by decide) (.write _ _ _ (by decide +kernel))
  have hcont : Contained sampleMapper sampleLayout samplePci
      (.access (.write regQEnable [1, 0])) :=
    ⟨by decide +kernel, by decide, fun ho => absurd ho (by decide)⟩
  refine ⟨m, ?_, hm⟩
  have hprogram : Run (VirtioBusStep sampleMapper sampleLayout)
      (fun s e => KeepsDoorbell sampleLayout s e ∧ BusContained sampleMapper sampleLayout s e)
      sampleBus ⟨m, samplePci, []⟩ := by
    refine .tail (.config sampleEnable) (.single (.config sampleBase)
      ⟨⟨?_, fun hne => ?_⟩, trivial⟩ (.config _ _ _ hbase))
      ⟨⟨hrelinks, fun hne => absurd rfl hne⟩, trivial⟩ (.config _ _ _ henable)
    · exact fun hc => absurd hc (by decide)
    · exact absurd rfl hne
  refine .tail (.mmio 0xf000001c (.write regQEnable [1, 0])) hprogram
    ⟨⟨by decide, fun _ _ _ => ⟨hbar, hoffset, hmult⟩⟩, hcont⟩ ?_
  rw [← hevents]
  exact .mmio _ _ ⟨m, samplePci, []⟩ _ ⟨2, hreach⟩ haccess

/-- `fast_path_agrees` after queue 0 is enabled, at its doorbell. -/
theorem fast_path_agrees_enabled : ∃ s,
    Run (VirtioBusOutcome sampleMapper sampleLayout)
      (fun s e => KeepsDoorbell sampleLayout s e ∧ BusContained sampleMapper sampleLayout s e)
      sampleBus s
    ∧ vqAt sampleLayout s.dev.host 0 ∈ s.dev.events ∧ Fires sampleLayout s 0 0xf000003c 0
    ∧ (Fires sampleLayout s 0 0xf000003c 0 ↔
      Notified sampleMapper sampleLayout s 0 0xf000003c 0) := by
  rcases sampleBus_run with ⟨m, hrun, _⟩
  rcases sampleEnabled_queue with ⟨hqueue, hfn⟩
  refine ⟨_, hrun.guarded _, hqueue, ⟨_, List.mem_cons_self, rfl, rfl, rfl, hfn⟩, ?_⟩
  exact fast_path_agrees sampleMapper sampleLayout sampleBus _ sampleBus_initial
    (hrun.guarded _) 0 0xf000003c 0 (by decide) hqueue

/-- A guest that moves BAR 0 after enabling the queue rings a doorbell at the
    old address that the bus gives to nobody. -/
theorem fast_path_stale : ¬∀ (mapper : Int → MemRegion) (L : PciLayout) (s₀ s : VirtioBus)
    (q a v : Nat), s₀.Initial L → Run (VirtioBusStep mapper L) (fun _ _ => True) s₀ s →
    v < 2 ^ 16 → vqAt L s.dev.host q ∈ s.dev.events →
    (Fires L s q a v ↔ Notified mapper L s q a v) := by
  intro h
  rcases sampleBus_run with ⟨m, hrun, hm⟩
  let move : ConfigWrite := ⟨0, 0x10, [0, 0, 0x10, 0xf0]⟩
  -- With the BAR moved, nothing is found at the old doorbell.
  have hend : ((pciConfigWrite 0 sampleBusProgrammed 0 4 [2, 0]).bind
      (pciConfigWrite 0 · 0 0x10 [0, 0, 0x10, 0xf0])).map
      (fun m => busHandleIo 2 m.iobus .mmio 0xf000003c 2) = some (some none) := by
    decide +kernel
  rw [hm, Option.bind_some] at hend
  rcases Option.map_eq_some_iff.mp hend with ⟨m', hm', hnone⟩
  have hrun' := (hrun.mono (fun _ _ _ => trivial)).tail (C := fun _ _ => True) (.config move)
    trivial (.config _ _ _ ⟨by decide, 0, hm'⟩)
  rcases sampleEnabled_queue with ⟨hqueue, hfn⟩
  have hiff := h sampleMapper sampleLayout sampleBus _ 0 0xf000003c 0 sampleBus_initial hrun'
    (by decide) hqueue
  rcases hiff.mp ⟨_, List.mem_cons_self, rfl, rfl, rfl, hfn⟩ with ⟨o, ⟨fuel, ho⟩, _⟩
  exact absurd (handleIo_unique ho hnone) (by simp only [reduceCtorEq, not_false_eq_true])

end Microv
