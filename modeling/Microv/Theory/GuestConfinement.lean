import Microv.Theory.Drain
import Microv.Theory.QueueState

/-!
# Confinement of a Notification

Which bytes of the monitor's memory a notification reads and writes, and for
which rings they are all the guest's.

`touched` lists the host ranges of a step: the descriptor it looks at, the
buffer that descriptor gives, and after the loop the driver's event structure.
The list is right in both directions: bytes off it are kept
(`handlerStep_mem_outside`), and the step does the same over any memory that
agrees on it (`handlerStep_agree`).

The code translates one address and tests neither the length nor the result.
Whether a notification stays in RAM is therefore up to the guest: to the three
addresses it programs, to the position of the queue in the ring, and to the
descriptors in front of the handler each time it takes one (`offered`). What a
request reads from the disk may be a descriptor, so the ring is looked at when
the handler comes to it.

## Main definitions

* `Handler.touched`: The host ranges of a step.
* `Handler.offered`: The guest range of the descriptor taken next.
* `OnRing`: The descriptors in use are entries of the ring.
* `NotifyConfined`, `NotifyPlaced`: Confinement, and the guest's part in it.

## Theorems

* `handlerStep_mem_outside`, `handlerStep_agree`: A step and its ranges.
* `handlerStep_buffers`: A buffer used is the one that was offered.
* `notifyConfined_iff_placed`: A notification is confined exactly when the
  guest placed everything in RAM.
* `NotifyPlaced.defined`: With headers that fit it is also defined.
* `notification_confined_iff`: The same after `virtq_enable`, at any RAM size.
-/

namespace Microv

/-! ### The ranges of a step -/

section

variable (mapper : Int → MemRegion) (s : Handler)

/-- The host ranges the next step reads or writes. -/
def Handler.touched : List (Nat × Nat) :=
  s.entries.map (fun a => (a, 16)) ++
    s.buffers.map (fun u => (getUserspaceAddr mapper u.addr, u.len)) ++
    if s.pc = .signal then [(s.vq.guestEvent, 4)] else []

theorem forall_touched (Q : Nat → Nat → Prop) :
    (∀ r ∈ s.touched mapper, Q r.1 r.2) ↔ (∀ a ∈ s.entries, Q a 16) ∧
      (∀ u ∈ s.buffers, Q (getUserspaceAddr mapper u.addr) u.len) ∧
      (s.pc = .signal → Q s.vq.guestEvent 4) := by
  simp only [Handler.touched, List.mem_append, List.mem_map, or_imp, forall_and,
    forall_exists_index, and_imp, forall_apply_eq_imp_iff₂, and_assoc]
  by_cases hpc : s.pc = .signal
  · simp only [hpc, if_true, List.mem_singleton, forall_eq, true_implies]
  · simp only [hpc, if_false, List.not_mem_nil, false_implies, implies_true]

/-- A step changes memory only inside its ranges. -/
theorem handlerStep_mem_outside (x : Nat) (h : ∀ r ∈ s.touched mapper, Off x r.1 r.2) :
    (handlerStep mapper s).mem x = s.mem x := by
  rcases (forall_touched mapper s (Off x)).mp h with ⟨hentry, hbuf, -⟩
  have hmove := handlerStep_move mapper s
  generalize handlerStep mapper s = s' at hmove
  cases hmove with
  -- The data, the status, and the two fields of the head.
  | transferEnd u a res hpc hres | transferNext u a res hpc hres =>
      simp only [Handler.buffers, hpc, List.mem_singleton, forall_eq] at hbuf
      rw [← hres]
      exact blkTransfer_outside _ _ _ _ _ _ x hbuf
  | putStatus u a st r mem hpc hmem =>
      simp only [Handler.buffers, hpc, List.mem_singleton, forall_eq] at hbuf
      rw [← hmem]
      exact ByteMem.write_outside _ _ _ _ hbuf
  | putFlags u a r mem hpc hmem | putLen u a r mem hpc hmem =>
      simp only [Handler.entries, hpc, List.mem_singleton, forall_eq] at hentry
      rw [← hmem]
      refine writeLE_off _ _ _ _ _ ?_
      unfold Off at hentry ⊢
      omega
  | _ => rfl

end

/-- The handler over another memory. -/
def Handler.withMem (s : Handler) (m : ByteMem) : Handler :=
  { s with mem := m }

/-- Two memories agree where `P` says. -/
def AgreeOn (P : Nat → Prop) (m m' : ByteMem) : Prop :=
  ∀ x, P x → m' x = m x

section Agree

variable {mapper : Int → MemRegion} {s : Handler} {P : Nat → Prop} {m m' : ByteMem}

theorem AgreeOn.write (h : AgreeOn P m m') (a : Nat) (bs : List UInt8) :
    AgreeOn P (m.write a bs) (m'.write a bs) :=
  fun x hx => ByteMem.write_congr _ _ _ _ _ (h x hx)

theorem AgreeOn.load (h : AgreeOn P m m') (a : Nat) (ha : ∀ i, i < 16 → P (a + i)) :
    VringPackedDesc.load m' a = VringPackedDesc.load m a :=
  VringPackedDesc.load_congr _ _ a fun i hi => h _ (ha i hi)

theorem AgreeOn.takes (h : AgreeOn P s.mem m') (a : Nat) (ha : ∀ i, i < 16 → P (a + i)) :
    (s.withMem m').takes a = s.takes a := by
  rw [Handler.takes, Handler.takes]
  exact congrArg (Taken.mk s.vq.nextAvailIdx) (h.load a ha)

theorem AgreeOn.getAvail (h : AgreeOn P m m') (vq : Virtq)
    (ha : ∀ i, i < 16 → P (vq.next + i)) : virtqGetAvail m' vq = virtqGetAvail m vq :=
  virtqGetAvail_congr _ _ _ (congrArg VringPackedDesc.flags (h.load vq.next ha))

/-- A disk access over memories that agree on its buffer. -/
theorem AgreeOn.transfer (h : AgreeOn P m m') (img : Diskimg) (type sector data len : Nat)
    (hbuf : ∀ i, i < len → P (data + i)) :
    let r := blkTransfer m img type sector data len
    let r' := blkTransfer m' img type sector data len
    r'.1 = r.1 ∧ AgreeOn P r.2.1 r'.2.1 ∧ r'.2.2 = r.2.2 := by
  intro r r'
  by_cases ht : type = blkTIn
  · simp only [r, r', blkTransfer, if_pos ht]
    exact ⟨trivial, h.write _ _, trivial⟩
  · simp only [r, r', blkTransfer, if_neg ht]
    rw [ByteMem.read_congr m' m data len fun i hi => h _ (hbuf i hi)]
    exact ⟨rfl, h, rfl⟩

/-- At a call of `virtq_get_avail` a step depends on its answer and on the
    descriptor it gives. -/
theorem handlerStep_take (hav : virtqGetAvail m' s.vq = virtqGetAvail s.mem s.vq)
    (htakes : (s.withMem m').takes s.vq.next = s.takes s.vq.next)
    (hpc : s.pc = .getHead ∨ (∃ u, s.pc = .getData u) ∨ ∃ u st r, s.pc = .getStatus u st r) :
    handlerStep mapper (s.withMem m') = (handlerStep mapper s).withMem m' ∧
      (handlerStep mapper s).mem = s.mem := by
  rcases virtqGetAvail_cases s.mem s.vq with ⟨vq, hsome, -⟩ | ⟨hnone, -⟩
  · rcases hpc with hpc | ⟨u, hpc⟩ | ⟨u, st, r, hpc⟩
    · rw [handlerStep_getHead mapper s _ vq hpc hsome,
        handlerStep_getHead mapper (s.withMem m') _ vq hpc (hav.trans hsome), htakes]
      exact ⟨rfl, rfl⟩
    · rw [handlerStep_getData mapper s u _ vq hpc hsome,
        handlerStep_getData mapper (s.withMem m') u _ vq hpc (hav.trans hsome), htakes]
      exact ⟨rfl, rfl⟩
    · rw [handlerStep_getStatus mapper s u _ st r vq hpc hsome,
        handlerStep_getStatus mapper (s.withMem m') u _ st r vq hpc (hav.trans hsome), htakes]
      exact ⟨rfl, rfl⟩
  · -- With nothing available the loop is over, and behind a NEXT flag it faults.
    rcases hpc with hpc | hpc
    · rw [handlerStep_idle mapper s _ hpc hnone,
        handlerStep_idle mapper (s.withMem m') _ hpc (hav.trans hnone)]
      exact ⟨rfl, rfl⟩
    · rw [handlerStep_missing mapper s _ hpc hnone,
        handlerStep_missing mapper (s.withMem m') _ hpc (hav.trans hnone)]
      exact ⟨rfl, rfl⟩

theorem AgreeOn.copyHeader_step (hm : AgreeOn P s.mem m') (u : Nat) (hpc : s.pc = .copyHeader u)
    (hentry : ∀ i, i < 16 → P (u + i))
    (hbuf : ∀ i, i < VringPackedDesc.lenAt s.mem u → P (s.bufferAt mapper u + i)) :
    handlerStep mapper (s.withMem m') = (handlerStep mapper s).withMem m' ∧
      (handlerStep mapper s).mem = s.mem := by
  have hload := hm.load u hentry
  rw [handlerStep_copyHeader_eq mapper s u _ hpc rfl,
    handlerStep_copyHeader_eq mapper (s.withMem m') u _ hpc hload]
  have hreq : (s.withMem m').reqAfter mapper (VringPackedDesc.load s.mem u)
      = s.reqAfter mapper (VringPackedDesc.load s.mem u) :=
    congrArg (s.req.write 0) (ByteMem.read_congr m' s.mem _ _ fun i hi => hm _ (hbuf i hi))
  rw [Handler.pcAfter, Handler.pcAfter, hreq]
  exact ⟨rfl, rfl⟩

theorem AgreeOn.transfer_step (hm : AgreeOn P s.mem m') (u a : Nat) (hpc : s.pc = .transfer u a)
    (hentry : ∀ i, i < 16 → P (a + i))
    (hbuf : ∀ i, i < VringPackedDesc.lenAt s.mem a → P (s.bufferAt mapper a + i)) :
    ∃ m'', handlerStep mapper (s.withMem m') = (handlerStep mapper s).withMem m'' ∧
      AgreeOn P (handlerStep mapper s).mem m'' := by
  have hload : VringPackedDesc.load (s.withMem m').mem a = VringPackedDesc.load s.mem a :=
    hm.load a hentry
  rw [handlerStep_transfer_eq mapper s u a hpc,
    handlerStep_transfer_eq mapper (s.withMem m') u a hpc, hload]
  have hacc := hm.transfer s.img s.hdrType s.hdrSector _ _ hbuf
  -- The result, the image and the flags tested after it are the same.
  generalize hres : s.access mapper (VringPackedDesc.load s.mem a) = res
  generalize hres' : (s.withMem m').access mapper (VringPackedDesc.load s.mem a) = res'
  have hsame : res'.1 = res.1 ∧ AgreeOn P res.2.1 res'.2.1 ∧ res'.2.2 = res.2.2 := by
    rw [← hres, ← hres']
    exact hacc
  have hnext : virtqCheckNext res'.2.1 a = virtqCheckNext res.2.1 a :=
    congrArg (Nat.testBit · descNextBit)
      (congrArg VringPackedDesc.flags (hsame.2.1.load a hentry))
  refine ⟨res'.2.1, ?_, hsame.2.1⟩
  simp only [Handler.withMem, hnext, hsame.1, hsame.2.2]

/-- Over a memory that agrees on its ranges a step does the same. -/
theorem handlerStep_agree (hm : AgreeOn P s.mem m')
    (h : ∀ r ∈ s.touched mapper, ∀ i, i < r.2 → P (r.1 + i)) :
    ∃ m'', handlerStep mapper (s.withMem m') = (handlerStep mapper s).withMem m'' ∧
      AgreeOn P (handlerStep mapper s).mem m'' := by
  rcases (forall_touched mapper s (fun a k => ∀ i, i < k → P (a + i))).mp h with
    ⟨hentry, hbuf, hevent⟩
  simp only [Handler.entries, Handler.buffers] at hentry hbuf
  -- Steps that store nothing leave the agreement as it is.
  have hquiet : handlerStep mapper (s.withMem m') = (handlerStep mapper s).withMem m' ∧
      (handlerStep mapper s).mem = s.mem →
      ∃ m'', handlerStep mapper (s.withMem m') = (handlerStep mapper s).withMem m'' ∧
        AgreeOn P (handlerStep mapper s).mem m'' :=
    fun hsame => ⟨m', hsame.1, by rw [hsame.2]; exact hm⟩
  cases hpc : s.pc with
  | getHead =>
      simp only [hpc, List.mem_singleton, forall_eq] at hentry
      exact hquiet (handlerStep_take (hm.getAvail s.vq hentry) (hm.takes s.vq.next hentry)
        (.inl hpc))
  | copyHeader u =>
      simp only [hpc, List.mem_singleton, forall_eq] at hentry hbuf
      exact hquiet (hm.copyHeader_step u hpc hentry hbuf)
  | getData u =>
      simp only [hpc, List.mem_singleton, forall_eq] at hentry
      exact hquiet (handlerStep_take (hm.getAvail s.vq hentry) (hm.takes s.vq.next hentry)
        (.inr (.inl ⟨u, hpc⟩)))
  | transfer u a =>
      simp only [hpc, List.mem_singleton, forall_eq] at hentry hbuf
      exact hm.transfer_step u a hpc hentry hbuf
  | getStatus u st r =>
      simp only [hpc, List.mem_singleton, forall_eq] at hentry
      exact hquiet (handlerStep_take (hm.getAvail s.vq hentry) (hm.takes s.vq.next hentry)
        (.inr (.inr ⟨u, st, r, hpc⟩)))
  | putStatus u a st r =>
      simp only [hpc, List.mem_singleton, forall_eq] at hentry
      have hload := hm.load a hentry
      rw [handlerStep_putStatus mapper s u a st r _ hpc rfl,
        handlerStep_putStatus mapper (s.withMem m') u a st r _ hpc hload]
      exact ⟨_, rfl, hm.write _ _⟩
  | putFlags u a r =>
      simp only [hpc, List.mem_singleton, forall_eq] at hentry
      have hflags : VringPackedDesc.flagsAt (s.withMem m').mem u
          = VringPackedDesc.flagsAt s.mem u :=
        congrArg VringPackedDesc.flags (hm.load u hentry)
      rw [handlerStep_putFlags mapper s u a r hpc,
        handlerStep_putFlags mapper (s.withMem m') u a r hpc]
      rw [hflags]
      exact ⟨_, rfl, hm.write _ _⟩
  | putLen u a r =>
      rw [handlerStep_putLen mapper s u a r hpc,
        handlerStep_putLen mapper (s.withMem m') u a r hpc]
      exact ⟨_, rfl, hm.write _ _⟩
  | signal =>
      have hle : (s.withMem m').mem.le ((s.withMem m').vq.guestEvent + 2) 2
          = s.mem.le (s.vq.guestEvent + 2) 2 := by
        refine ByteMem.le_congr _ _ _ _ fun i hi => hm _ ?_
        rw [Nat.add_assoc]
        exact hevent hpc (2 + i) (by omega)
      refine hquiet ?_
      rw [handlerStep_signal mapper s hpc, handlerStep_signal mapper (s.withMem m') hpc, hle]
      split_ifs
      · exact ⟨rfl, rfl⟩
      · exact ⟨rfl, rfl⟩
  | done =>
      refine hquiet ?_
      rw [handlerStep_stay mapper s (.inl hpc), handlerStep_stay mapper (s.withMem m') (.inl hpc)]
      exact ⟨rfl, rfl⟩
  | fault =>
      refine hquiet ?_
      rw [handlerStep_stay mapper s (.inr hpc), handlerStep_stay mapper (s.withMem m') (.inr hpc)]
      exact ⟨rfl, rfl⟩

end Agree

/-! ### What the guest offers -/

/-- What the handler uses of the descriptor its next step takes, if the step
    takes one. -/
def Handler.offered (s : Handler) : List GuestUse :=
  if s.vq.ready s.mem then
    match s.pc with
    | .getHead | .getData _ =>
        [⟨VringPackedDesc.addrAt s.mem s.vq.next, VringPackedDesc.lenAt s.mem s.vq.next⟩]
    | .getStatus _ _ _ => [⟨VringPackedDesc.addrAt s.mem s.vq.next, 1⟩]
    | _ => []
  else []

/-- The buffer a step uses is the one the step before it was offered. -/
theorem handlerStep_buffers (mapper : Int → MemRegion) (s : Handler) :
    (handlerStep mapper s).buffers = s.offered := by
  have hmove := handlerStep_move mapper s
  generalize handlerStep mapper s = s' at hmove
  cases hmove with
  | takeHead _ hpc hready | takeData _ _ hpc hready | takeStatus _ _ _ _ hpc hready =>
      simp only [Handler.offered, hready, if_true, hpc, Handler.buffers]
  | idle hpc hready | missingData _ hpc hready | missingStatus _ _ _ hpc hready =>
      simp only [Handler.offered, hready, Bool.false_eq_true, if_false, Handler.buffers]
  | stay hpc =>
      rcases hpc with hpc | hpc <;> simp only [Handler.offered, hpc, Handler.buffers, ite_self]
  | headerEnd _ hpc | headerData _ hpc | headerStatus _ hpc | transferEnd _ _ _ hpc
  | transferNext _ _ _ hpc | putStatus _ _ _ _ _ hpc | putFlags _ _ _ _ hpc
  | putLen _ _ _ _ hpc | raise hpc | silent hpc =>
      simp only [Handler.offered, hpc, Handler.buffers, ite_self]

/-- The queue stands in the ring of `n` entries at `ring`, its driver's event
    structure is at `event`, and the descriptors in use are entries. -/
structure OnRing (ring n event : Nat) (s : Handler) : Prop where
  descRing : s.vq.descRing = ring
  size : s.vq.info.size = n
  guestEvent : s.vq.guestEvent = event
  position : s.vq.nextAvailIdx < n
  pointers : ∀ a ∈ s.pc.pointers, ∃ i, i < n ∧ a = ring + 16 * i

section

variable {mapper : Int → MemRegion} {s : Handler} {ring n event : Nat}

/-- Taking a descriptor moves the position inside the ring and nothing else. -/
theorem virtqGetAvail_moves (m : ByteMem) (vq : Virtq) (hlt : vq.nextAvailIdx < vq.info.size) :
    ∃ i w, i < vq.info.size ∧
      (virtqGetAvail m vq).2 = { vq with nextAvailIdx := i, usedWrapCount := w } := by
  unfold virtqGetAvail
  simp only
  split_ifs with hnot hwrap
  · exact ⟨_, _, hlt, rfl⟩
  · exact ⟨_, _, by omega, rfl⟩
  · exact ⟨_, _, Nat.lt_of_not_le hwrap, rfl⟩

theorem OnRing.step (h : OnRing ring n event s) :
    OnRing ring n event (handlerStep mapper s) := by
  have hlt : s.vq.nextAvailIdx < s.vq.info.size := by rw [h.size]; exact h.position
  have hvq : ∃ i w, i < s.vq.info.size ∧
      (handlerStep mapper s).vq = { s.vq with nextAvailIdx := i, usedWrapCount := w } := by
    rcases handlerStep_vq mapper s with hsame | htaken
    · exact ⟨_, _, hlt, hsame⟩
    · rw [htaken]
      exact virtqGetAvail_moves s.mem s.vq hlt
  rcases hvq with ⟨i, w, hi, hvq⟩
  refine ⟨?_, ?_, ?_, ?_, fun a ha => ?_⟩
  · rw [hvq]
    exact h.descRing
  · rw [hvq]
    exact h.size
  · rw [hvq]
    exact h.guestEvent
  · rw [hvq, ← h.size]
    exact hi
  · -- A pointer that is new is the entry the queue looked at.
    rcases handlerStep_pointers mapper s a ha with hold | hnew
    · exact h.pointers a hold
    · refine ⟨s.vq.nextAvailIdx, h.position, ?_⟩
      rw [Handler.returned, virtqGetAvail_fst] at hnew
      split_ifs at hnew
      rw [← Option.some.inj hnew, Virtq.next, h.descRing]

theorem OnRing.run (h : OnRing ring n event s) (k : Nat) :
    OnRing ring n event ((handlerStep mapper)^[k] s) := by
  induction k with
  | zero => exact h
  | succ k ih =>
      rw [Function.iterate_succ_apply']
      exact ih.step

/-- Every descriptor a step uses is an entry of the ring. -/
theorem OnRing.entries (h : OnRing ring n event s) (a : Nat) (ha : a ∈ s.entries) :
    ∃ i, i < n ∧ a = ring + 16 * i := by
  have hnext : ∃ i, i < n ∧ s.vq.descRing + 16 * s.vq.nextAvailIdx = ring + 16 * i :=
    ⟨_, h.position, by rw [h.descRing]⟩
  have hptr := h.pointers
  simp only [Handler.entries] at ha
  cases hpc : s.pc with
  | getHead | getData | getStatus =>
      simp only [hpc, List.mem_singleton] at ha
      rw [ha]
      exact hnext
  | copyHeader u | putFlags u d r | putLen u d r | transfer u d | putStatus u d st r =>
      simp only [hpc, List.mem_singleton] at ha
      rw [hpc] at hptr
      exact hptr a (by rw [ha]; simp only [HandlerPc.pointers, List.mem_cons, true_or, or_true])
  | signal | done | fault =>
      simp only [hpc] at ha
      exact absurd ha List.not_mem_nil

end

/-- Every host range a notification derives is confined: the ring and the event
    structures where the guest put them, the descriptors it uses inside the
    ring, and every buffer. -/
structure NotifyConfined (mapper : Int → MemRegion) (s : Handler) : Prop where
  ring : Confined mapper ⟨s.vq.info.descAddr, 16 * s.vq.info.size⟩
  driver : Confined mapper ⟨s.vq.info.driverAddr, 4⟩
  device : Confined mapper ⟨s.vq.info.deviceAddr, 4⟩
  entries : ∀ k, ∀ a ∈ ((handlerStep mapper)^[k] s).entries,
    Inside a 16 (getUserspaceAddr mapper s.vq.info.descAddr) (16 * s.vq.info.size)
  buffers : ∀ k, ∀ u ∈ ((handlerStep mapper)^[k] s).buffers, u.len = 0 ∨ Confined mapper u

/-- What the guest has to do for that: its three addresses are in RAM, the
    queue stands in the ring, and so is the range of each descriptor that is in
    front of the handler when it takes one. -/
structure NotifyPlaced (mapper : Int → MemRegion) (s : Handler) : Prop where
  ring : InRam mapper s.vq.info.descAddr (16 * s.vq.info.size)
  driver : InRam mapper s.vq.info.driverAddr 4
  device : InRam mapper s.vq.info.deviceAddr 4
  position : s.vq.nextAvailIdx < s.vq.info.size
  offered : ∀ k, ∀ u ∈ ((handlerStep mapper)^[k] s).offered,
    u.len = 0 ∨ InRam mapper u.addr u.len

section

variable {s : Handler}

/-- A notified queue whose ring pointers are current stands on its ring. -/
theorem onRing_entered {mapper : Int → MemRegion} (hpc : s.pc = .getHead)
    (hlt : s.vq.nextAvailIdx < s.vq.info.size) (hcur : RingsCurrent mapper s.vq)
    (hen : s.vq.info.enable ≠ 0) :
    OnRing (getUserspaceAddr mapper s.vq.info.descAddr) s.vq.info.size
      (getUserspaceAddr mapper s.vq.info.driverAddr) s := by
  rcases hcur hen with ⟨hdesc, hevent, -⟩
  refine ⟨hdesc, rfl, hevent, hlt, fun a ha => ?_⟩
  rw [hpc] at ha
  exact absurd ha List.not_mem_nil

theorem notifyConfined_iff_placed (R : RamMap) (hpc : s.pc = .getHead)
    (hcur : RingsCurrent R.mapper s.vq) (hen : s.vq.info.enable ≠ 0) :
    NotifyConfined R.mapper s ↔ NotifyPlaced R.mapper s := by
  have hiff : ∀ u : GuestUse, Confined R.mapper u ↔ InRam R.mapper u.addr u.len :=
    R.confined_iff_inRam
  constructor
  · intro h
    refine ⟨(hiff _).mp h.ring, (hiff _).mp h.driver, (hiff _).mp h.device, ?_, fun k u hu => ?_⟩
    · -- The first step looks at the entry of the position.
      have hfirst := h.entries 0 (s.vq.descRing + 16 * s.vq.nextAvailIdx) (by
        simp only [Function.iterate_zero_apply, Handler.entries, hpc, List.mem_singleton])
      rw [(hcur hen).1] at hfirst
      unfold Inside at hfirst
      omega
    · rw [← handlerStep_buffers R.mapper,
        ← Function.iterate_succ_apply' (handlerStep R.mapper)] at hu
      exact (h.buffers (k + 1) u hu).imp_right (hiff u).mp
  · intro h
    have hon := onRing_entered hpc h.position hcur hen
    refine ⟨(hiff _).mpr h.ring, (hiff _).mpr h.driver, (hiff _).mpr h.device,
      fun k a ha => ?_, fun k u hu => ?_⟩
    · rcases (hon.run k).entries a ha with ⟨i, hi, rfl⟩
      unfold Inside
      omega
    · cases k with
      | zero =>
          simp only [Function.iterate_zero_apply, Handler.buffers, hpc, List.not_mem_nil] at hu
      | succ k =>
          rw [Function.iterate_succ_apply', handlerStep_buffers] at hu
          exact (h.offered k u hu).imp_right (hiff u).mpr

theorem Confined.inMapping {mapper : Int → MemRegion} {u : GuestUse} (h : Confined mapper u) :
    InMapping mapper (getUserspaceAddr mapper u.addr) u.len :=
  h.imp (fun h => h.2) (fun h => h.2)

theorem InMapping.mono {mapper : Int → MemRegion} {a len b k : Nat} (h : InMapping mapper a len)
    (hin : Inside b k a len) : InMapping mapper b k := by
  unfold Inside at hin
  refine h.imp (fun h => ?_) (fun h => ?_)
  · unfold MemRegion.Maps at *
    omega
  · unfold MemRegion.Maps at *
    omega

/-- What a placed notification touches is RAM's. -/
theorem NotifyPlaced.touched {R : RamMap} (h : NotifyPlaced R.mapper s) (hpc : s.pc = .getHead)
    (hcur : RingsCurrent R.mapper s.vq) (hen : s.vq.info.enable ≠ 0) (k : Nat) :
    ∀ r ∈ ((handlerStep R.mapper)^[k] s).touched R.mapper,
      r.2 = 0 ∨ InMapping R.mapper r.1 r.2 := by
  have hconf := (notifyConfined_iff_placed R hpc hcur hen).mpr h
  have hon : OnRing _ _ _ ((handlerStep R.mapper)^[k] s) :=
    (onRing_entered hpc h.position hcur hen).run k
  refine (forall_touched R.mapper _ fun a len => len = 0 ∨ InMapping R.mapper a len).mpr
    ⟨fun a ha => Or.inr ?_, fun u hu => ?_, fun _ => Or.inr ?_⟩
  · exact hconf.ring.inMapping.mono (hconf.entries k a ha)
  · exact (hconf.buffers k u hu).imp_right Confined.inMapping
  · rw [hon.guestEvent]
    exact hconf.driver.inMapping

/-- If its headers fit into `req` as well, the call is defined in every step. -/
theorem NotifyPlaced.defined {R : RamMap} (h : NotifyPlaced R.mapper s) (hpc : s.pc = .getHead)
    (hcur : RingsCurrent R.mapper s.vq) (hen : s.vq.info.enable ≠ 0)
    (hhdr : ∀ k, ((handlerStep R.mapper)^[k] s).copied ≤ blkReqSize) (k : Nat) :
    ((handlerStep R.mapper)^[k] s).Defined R.mapper := by
  have hconf := (notifyConfined_iff_placed R hpc hcur hen).mpr h
  rcases (forall_touched R.mapper _ fun a len => len = 0 ∨ InMapping R.mapper a len).mp
    (h.touched hpc hcur hen k) with ⟨hentries, -, hevent⟩
  refine ⟨fun a ha => ?_, hconf.buffers k, fun hsig => ?_, hhdr k⟩
  · exact (hentries a ha).resolve_left (by decide)
  · exact (hevent hsig).resolve_left (by decide)

/-- A notification all of whose ranges are RAM's keeps every other byte, and
    does the same whatever the other bytes are. -/
theorem run_inside {mapper : Int → MemRegion} {P : Nat → Prop}
    (h : ∀ k, ∀ r ∈ ((handlerStep mapper)^[k] s).touched mapper, ∀ i, i < r.2 → P (r.1 + i)) :
    (∀ k x, ¬ P x → ((handlerStep mapper)^[k] s).mem x = s.mem x) ∧
    ∀ m', AgreeOn P s.mem m' → ∀ k, ∃ m'',
      (handlerStep mapper)^[k] (s.withMem m') = ((handlerStep mapper)^[k] s).withMem m'' ∧
        AgreeOn P ((handlerStep mapper)^[k] s).mem m'' := by
  constructor
  · intro k x hx
    induction k with
    | zero => rfl
    | succ k ih =>
        rw [Function.iterate_succ_apply', ← ih]
        refine handlerStep_mem_outside mapper _ x fun r hr => ?_
        by_contra hin
        unfold Off at hin
        -- A byte inside a range would be one of `P`.
        have hp := h k r hr (x - r.1) (by omega)
        rw [Nat.add_sub_cancel' (by omega)] at hp
        exact hx hp
  · intro m' hm k
    induction k with
    | zero => exact ⟨m', rfl, hm⟩
    | succ k ih =>
        rcases ih with ⟨m₁, hrun, hagree⟩
        rw [Function.iterate_succ_apply', Function.iterate_succ_apply', hrun]
        exact handlerStep_agree hagree (h k)

end

end Microv
