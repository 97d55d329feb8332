import Microv.Theory.Driver

/-!
# The Ring Invariant

What the driver and the device agree on, in every state of their
interleavings.

The published chains, laid out one behind the other, give every ring position
a descriptor. `startOf` is the position a chain begins at, and the number of
requests the device has completed says which chain it stands at. `RingInv`
relates that to memory: chains not yet executed are in the ring as published,
slots that are not published look unavailable to the lap that will reach them,
and the headers still to be read say what they said when they were published.
`Phase` is the rest of the argument: at each program point it says how many
descriptors of the current chain the device has taken.

This module has the invariant, its initial state and the driver's steps. The
device's are in `Theory.RingDevice`.

## Main definitions

* `startOf`: The position a chain starts at.
* `Mid`, `Phase`: Where the device stands.
* `hdrFloor`: The first chain whose header may still be read.
* `RingInv`: The invariant.

## Theorems

* `RingInv.transport`: Steps off the ring keep the invariant.
* `ringInv_initial`: It holds at the start.
* `ringInv_stage`, `ringInv_publish`, `ringInv_fill`, `ringInv_reap`: The
  driver's steps keep it.
-/

namespace Microv

/-! ### Positions of a sequence of chains -/

/-- The last descriptor of a chain is its status. -/
theorem Chain.descs_last (ch : Chain) : ch.descs[ch.data.length + 1]? = some ch.status := by
  rw [Chain.descs, List.getElem?_cons_succ, List.getElem?_append_right (le_refl _),
    Nat.sub_self, List.getElem?_cons_zero]

theorem flatDescs_append (rs rs' : List Request) :
    flatDescs (rs ++ rs') = flatDescs rs ++ flatDescs rs' := by
  simp only [flatDescs, List.flatMap_append]

theorem flatDescs_cons (r : Request) (rs : List Request) :
    flatDescs (r :: rs) = r.descs ++ flatDescs rs := by
  simp only [flatDescs, List.flatMap_cons]

theorem flatDescs_singleton (r : Request) : flatDescs [r] = r.descs := by
  simp only [flatDescs, List.flatMap_cons, List.flatMap_nil, List.append_nil]

/-- The position the chain of index `k` starts at. -/
def startOf (rs : List Request) (k : Nat) : Nat :=
  (flatDescs (rs.take k)).length

theorem startOf_succ (rs : List Request) (k : Nat) (r : Request) (h : rs[k]? = some r) :
    startOf rs (k + 1) = startOf rs k + r.descs.length := by
  unfold startOf
  rw [List.take_add_one, h, Option.toList_some, flatDescs_append, flatDescs_singleton,
    List.length_append]

theorem startOf_mono (rs : List Request) (k l : Nat) (h : k ≤ l) : startOf rs k ≤ startOf rs l := by
  unfold startOf
  have hsplit : rs.take l = rs.take k ++ (rs.take l).drop k := by
    conv_lhs => rw [← List.take_append_drop k (rs.take l), List.take_take, Nat.min_eq_left h]
  rw [hsplit, flatDescs_append, List.length_append]
  omega

theorem startOf_length (rs : List Request) : startOf rs rs.length = (flatDescs rs).length := by
  unfold startOf
  rw [List.take_length]

theorem startOf_append (rs rs' : List Request) (k : Nat) (h : k ≤ rs.length) :
    startOf (rs ++ rs') k = startOf rs k := by
  unfold startOf
  rw [List.take_append_of_le_length h]

/-- The descriptors of chain `k` sit from its start on. -/
theorem flatDescs_getElem (rs : List Request) (k j : Nat) (r : Request) (h : rs[k]? = some r)
    (hj : j < r.descs.length) : (flatDescs rs)[startOf rs k + j]? = r.descs[j]? := by
  have hk : k < rs.length := (List.getElem?_eq_some_iff.mp h).1
  have hr : rs[k] = r := (List.getElem?_eq_some_iff.mp h).2
  have hsplit : rs = rs.take k ++ r :: rs.drop (k + 1) := by
    rw [← hr, List.getElem_cons_drop, List.take_append_drop]
  have hflat : flatDescs rs
      = flatDescs (rs.take k) ++ (r.descs ++ flatDescs (rs.drop (k + 1))) := by
    conv_lhs => rw [hsplit, flatDescs_append, flatDescs_cons]
  rw [hflat, startOf, List.getElem?_append_right (by omega), Nat.add_sub_cancel_left,
    List.getElem?_append_left hj]

theorem startOf_add_le (rs : List Request) (k : Nat) (r : Request) (h : rs[k]? = some r) :
    startOf rs k + r.descs.length ≤ (flatDescs rs).length := by
  rw [← startOf_succ rs k r h, ← startOf_length]
  have hk : k < rs.length := (List.getElem?_eq_some_iff.mp h).1
  exact startOf_mono rs (k + 1) rs.length hk

theorem takenFrom_append (n p : Nat) (ds ds' : List VringPackedDesc) :
    takenFrom n p (ds ++ ds') = takenFrom n p ds ++ takenFrom n (p + ds.length) ds' := by
  induction ds generalizing p with
  | nil => simp only [List.nil_append, takenFrom, List.length_nil, Nat.add_zero]
  | cons d ds ih =>
      simp only [List.cons_append, takenFrom, ih, List.length_cons]
      rw [show p + 1 + ds.length = p + (ds.length + 1) by omega]

/-- Taking one descriptor more. -/
theorem takenFrom_take_succ (n p j : Nat) (ds : List VringPackedDesc) (d : VringPackedDesc)
    (h : ds[j]? = some d) :
    takenFrom n p (ds.take (j + 1)) = takenFrom n p (ds.take j) ++ [⟨(p + j) % n, d⟩] := by
  have hj : j < ds.length := (List.getElem?_eq_some_iff.mp h).1
  rw [List.take_add_one, h, Option.toList_some, takenFrom_append, List.length_take,
    Nat.min_eq_left (Nat.le_of_lt hj)]
  simp only [takenFrom]

theorem layout_append (n p : Nat) (rs : List Request) (r : Request) :
    layout n p (rs ++ [r])
      = layout n p rs ++ [takenFrom n (p + (flatDescs rs).length) r.descs] := by
  induction rs generalizing p with
  | nil => simp only [List.nil_append, layout, flatDescs, List.flatMap_nil, List.length_nil,
      Nat.add_zero]
  | cons a rs ih =>
      simp only [List.cons_append, layout, ih, flatDescs, List.flatMap_cons, List.length_append]
      rw [Nat.add_assoc]

theorem layout_take (n p k : Nat) (rs : List Request) :
    layout n p (rs.take k) = (layout n p rs).take k := by
  induction rs generalizing p k with
  | nil => simp only [List.take_nil, layout]
  | cons a rs ih =>
      cases k with
      | zero => simp only [List.take_zero, layout]
      | succ k => simp only [List.take_succ_cons, layout, ih]

/-! ### Descriptors in the ring -/

namespace Ring

theorem slot_mem (c : Ring) (p : Nat) :
    c.vq.descRing ≤ c.vq.slot p ∧ c.vq.slot p + 16 ≤ c.vq.descRing + 16 * c.n :=
  c.vq.slot_mem p c.size_pos

/-- A guest range in RAM and off the ring is off the ring as a host range. -/
theorem host_offRing (c : Ring) (g k : Nat) (h : InRam c.ram.mapper g k)
    (hap : Apart g k c.vq.info.descAddr (16 * c.n)) :
    Apart (c.ram.host g) k c.vq.descRing (16 * c.n) := by
  rw [c.ring_host]
  exact c.ram.hostApart g k _ _ h c.inRam hap

/-- Writes off the ring leave every descriptor as it was. -/
theorem load_offRing (c : Ring) (m : ByteMem) (a : Nat) (bs : List UInt8) (p : Nat)
    (h : Apart a bs.length c.vq.descRing (16 * c.n)) :
    VringPackedDesc.load (m.write a bs) (c.vq.slot p) = VringPackedDesc.load m (c.vq.slot p) := by
  have hs := c.slot_mem p
  refine VringPackedDesc.load_write_apart m a bs _ ?_
  unfold Apart at *
  omega

end Ring

/-- Writing a run of descriptors leaves the slot at `q` alone if `q` is within
    a lap of the run and not in it. -/
theorem load_putDescs_other (vq : Virtq) (m : ByteMem) (p q : Nat) (ds : List VringPackedDesc)
    (hlt : q < p + vq.info.size) (hgt : p + ds.length ≤ q + vq.info.size)
    (hne : q < p ∨ p + ds.length ≤ q) :
    VringPackedDesc.load (putDescs vq m p ds) (vq.slot q) = VringPackedDesc.load m (vq.slot q) := by
  induction ds generalizing m p with
  | nil => rfl
  | cons d ds ih =>
      simp only [List.length_cons] at hgt hne
      rw [putDescs, ih _ (p + 1) (by omega) (by omega) (by omega)]
      refine VringPackedDesc.load_write_apart m _ _ _ ?_
      rw [VringPackedDesc.length_bytes]
      rcases Nat.lt_or_ge q p with h | h
      · exact (vq.slot_apart q p h (by omega)).symm
      · exact vq.slot_apart p q (by omega) (by omega)

/-- A run no longer than the ring is read back as written. -/
theorem load_putDescs_self (vq : Virtq) (m : ByteMem) (p j : Nat) (ds : List VringPackedDesc)
    (d : VringPackedDesc) (hfit : ∀ d ∈ ds, d.Fits) (hlen : ds.length ≤ vq.info.size)
    (hd : ds[j]? = some d) :
    VringPackedDesc.load (putDescs vq m p ds) (vq.slot (p + j)) = d := by
  induction ds generalizing m p j with
  | nil => simp only [List.getElem?_nil, reduceCtorEq] at hd
  | cons a ds ih =>
      simp only [List.length_cons] at hlen
      -- The first is written here, and the later ones do not reach back to it.
      cases j with
      | zero =>
          simp only [List.getElem?_cons_zero, Option.some.injEq] at hd
          rw [putDescs, show p + 0 = p from rfl,
            load_putDescs_other vq _ (p + 1) p ds (by omega) (by omega) (by omega), ← hd]
          exact VringPackedDesc.load_write_bytes m _ a (hfit a (List.mem_cons_self ..))
      | succ j =>
          rw [List.getElem?_cons_succ] at hd
          rw [putDescs, show p + (j + 1) = p + 1 + j by omega]
          exact ih _ (p + 1) j (fun d hd => hfit d (List.mem_cons_of_mem _ hd)) (by omega) hd

/-- Writing descriptors leaves everything off the ring as it was. -/
theorem putDescs_outside (vq : Virtq) (hn : 0 < vq.info.size) (m : ByteMem) (p x : Nat)
    (ds : List VringPackedDesc)
    (hx : x < vq.descRing ∨ vq.descRing + 16 * vq.info.size ≤ x) :
    putDescs vq m p ds x = m x := by
  induction ds generalizing m p with
  | nil => rfl
  | cons d ds ih =>
      have hs := vq.slot_mem p hn
      rw [putDescs, ih]
      exact ByteMem.write_outside _ _ _ _ (by rw [VringPackedDesc.length_bytes]; omega)

theorem putDescs_append (vq : Virtq) (m : ByteMem) (p : Nat) (ds ds' : List VringPackedDesc) :
    putDescs vq m p (ds ++ ds') = putDescs vq (putDescs vq m p ds) (p + ds.length) ds' := by
  induction ds generalizing m p with
  | nil => rfl
  | cons d ds ih =>
      rw [List.cons_append, putDescs, putDescs, ih, List.length_cons,
        show p + 1 + ds.length = p + (ds.length + 1) by omega]

/-- A write off the slots of a run commutes with writing the run. -/
theorem putDescs_write (vq : Virtq) (m : ByteMem) (p a : Nat) (ds : List VringPackedDesc)
    (bs : List UInt8) (h : ∀ j, j < ds.length → Apart a bs.length (vq.slot (p + j)) 16) :
    putDescs vq (m.write a bs) p ds = (putDescs vq m p ds).write a bs := by
  induction ds generalizing m p with
  | nil => rfl
  | cons d ds ih =>
      have h0 := h 0 (Nat.succ_pos _)
      rw [Nat.add_zero] at h0
      rw [putDescs, putDescs, ByteMem.write_comm m a (vq.slot p) bs d.bytes
        (by rw [VringPackedDesc.length_bytes]; exact h0), ih]
      intro j hj
      rw [show p + 1 + j = p + (j + 1) by omega]
      exact h (j + 1) (Nat.succ_lt_succ hj)

/-! ### The invariant -/

/-- The first chain whose header the device may still read. -/
def hdrFloor (s : RingSys) : Nat :=
  match s.dev.pc with
  | .getHead | .copyHeader _ | .signal | .done => s.dev.log.length
  | _ => s.dev.log.length + 1

/-- The device is executing `r`, has taken `j` of its descriptors, and holds
    its head at `u`. -/
def Mid (c : Ring) (s : RingSys) (r : Request) (j u : Nat) : Prop :=
  s.published[s.dev.log.length]? = some r ∧
    u = c.vq.slot (startOf s.published s.dev.log.length) ∧
    s.dev.vq = c.vq.atPos (startOf s.published s.dev.log.length + j) ∧
    s.dev.taken = takenFrom c.n (startOf s.published s.dev.log.length) (r.descs.take j)

/-- Where the device stands, by program point: between requests it stands at a
    chain's start, and inside one it has taken exactly the descriptors the
    shape of that chain calls for. -/
def Phase (c : Ring) (s : RingSys) : Prop :=
  match s.dev.pc with
  | .getHead | .signal | .done =>
      s.dev.vq = c.vq.atPos (startOf s.published s.dev.log.length) ∧ s.dev.taken = []
  | .copyHeader u => ∃ r, Mid c s r 1 u
  | .getData u => ∃ r, Mid c s r 1 u ∧ r.data.length = 1 ∧ s.dev.hdrType = r.type
  | .transfer u d => ∃ r, Mid c s r 2 u ∧ r.data.length = 1 ∧ s.dev.hdrType = r.type ∧
      d = c.vq.slot (startOf s.published s.dev.log.length + 1)
  | .getStatus u _ _ => ∃ r, Mid c s r (r.data.length + 1) u
  | .putStatus u d _ _ => ∃ r, Mid c s r (r.data.length + 2) u ∧
      d = c.vq.slot (startOf s.published s.dev.log.length + (r.data.length + 1))
  | .putFlags u d _ => ∃ r, Mid c s r (r.data.length + 2) u ∧
      d = c.vq.slot (startOf s.published s.dev.log.length + (r.data.length + 1))
  | .putLen _ _ _ => False
  | .fault => False

/-- How many positions the staged chain will take. -/
def RingSys.stagedLen (s : RingSys) : Nat :=
  match s.staged with
  | none => 0
  | some ch => ch.descs.length

/-- The invariant of the interleavings. -/
structure RingInv (c : Ring) (s : RingSys) : Prop where
  reaped_le : s.reaped ≤ s.dev.log.length
  log_le : s.dev.log.length ≤ s.published.length
  log_eq : s.dev.log.map Completed.taken
    = layout c.n 0 (s.published.take s.dev.log.length)
  wf : ∀ (k : Nat) (r : Request), s.published[k]? = some r →
    r.toChain.Wf c (startOf s.published k) ∧ r.Supported
  bits : ∀ (p : Nat) (d : VringPackedDesc), (flatDescs s.published)[p]? = some d →
    d.flags.testBit descAvailBit = wrapAt c.n p ∧ d.flags.testBit descUsedBit = !wrapAt c.n p
  room : s.tail + s.stagedLen ≤ s.head + c.n
  -- What is published and not yet executed is in the ring as published.
  ring : ∀ (p : Nat) (d : VringPackedDesc), startOf s.published s.dev.log.length ≤ p →
    (flatDescs s.published)[p]? = some d → VringPackedDesc.load s.dev.mem (c.vq.slot p) = d
  -- No slot the device could come to next looks available before its time.
  fresh : ∀ q, s.tail ≤ q → q < s.tail + c.n → (q = s.tail ∨ s.tail + s.stagedLen ≤ q) →
    looksAvail (wrapAt c.n q) (VringPackedDesc.flagsAt s.dev.mem (c.vq.slot q)) = false
  staged : ∀ ch, s.staged = some ch → ch.Wf c s.tail ∧
    ∀ (j : Nat) (d : VringPackedDesc), 0 < j → ch.descs[j]? = some d →
      VringPackedDesc.load s.dev.mem (c.vq.slot (s.tail + j)) = d
  types : ∀ (k : Nat) (r : Request), hdrFloor s ≤ k → s.published[k]? = some r →
    hdrTypeIn c s.dev.mem r.toChain = r.type
  kept : ∀ (i k : Nat) (b r : Request), s.dev.log.length ≤ i → i < k → s.published[i]? = some b →
    s.published[k]? = some r → KeepsHeader b r
  phase : Phase c s

theorem flagsAt_eq_load (m : ByteMem) (a : Nat) :
    VringPackedDesc.flagsAt m a = (VringPackedDesc.load m a).flags := rfl

/-- Steps that leave the published chains and the record alone, and change
    memory off the ring only, keep the invariant if they keep the headers that
    are still to be read and arrive at a point that fits. -/
theorem RingInv.transport {c : Ring} {s s' : RingSys} (h : RingInv c s)
    (hpub : s'.published = s.published) (hst : s'.staged = s.staged)
    (hre : s'.reaped = s.reaped) (hlog : s'.dev.log = s.dev.log)
    (hload : ∀ p, VringPackedDesc.load s'.dev.mem (c.vq.slot p)
      = VringPackedDesc.load s.dev.mem (c.vq.slot p))
    (htype : ∀ (k : Nat) (r : Request), hdrFloor s' ≤ k → s.published[k]? = some r →
      hdrTypeIn c s'.dev.mem r.toChain = r.type)
    (hphase : Phase c s') : RingInv c s' := by
  have htail : s'.tail = s.tail := by rw [RingSys.tail, hpub, RingSys.tail]
  have hhead : s'.head = s.head := by rw [RingSys.head, hpub, hre, RingSys.head]
  have hlen : s'.stagedLen = s.stagedLen := by rw [RingSys.stagedLen, hst, RingSys.stagedLen]
  -- Ring clauses look at memory through the slots, the rest not at all.
  constructor
  case reaped_le => rw [hre, hlog]; exact h.reaped_le
  case log_le => rw [hlog, hpub]; exact h.log_le
  case log_eq => rw [hlog, hpub]; exact h.log_eq
  case wf => rw [hpub]; exact h.wf
  case bits => rw [hpub]; exact h.bits
  case room => rw [htail, hhead, hlen]; exact h.room
  case ring =>
    rw [hpub, hlog]
    intro p d hp hd
    rw [hload]
    exact h.ring p d hp hd
  case fresh =>
    rw [htail, hlen]
    intro q h1 h2 h3
    rw [flagsAt_eq_load, hload, ← flagsAt_eq_load]
    exact h.fresh q h1 h2 h3
  case staged =>
    rw [hst, htail]
    intro ch hch
    refine ⟨(h.staged ch hch).1, fun j d hj hd => ?_⟩
    rw [hload]
    exact (h.staged ch hch).2 j d hj hd
  case types => rw [hpub]; exact htype
  case kept => rw [hlog, hpub]; exact h.kept
  case phase => exact hphase

/-- Memory may change off the ring and off the headers still to be read. -/
theorem RingInv.setMem {c : Ring} {s : RingSys} (h : RingInv c s) (m : ByteMem)
    (hload : ∀ p, VringPackedDesc.load m (c.vq.slot p)
      = VringPackedDesc.load s.dev.mem (c.vq.slot p))
    (htype : ∀ (k : Nat) (r : Request), hdrFloor s ≤ k → s.published[k]? = some r →
      hdrTypeIn c m r.toChain = r.type) : RingInv c (s.setMem m) :=
  h.transport rfl rfl rfl rfl hload htype h.phase

/-! ### Steps of the driver -/

/-- A linked descriptor's flags, by its index in the chain. -/
theorem linked_getElem (n p j : Nat) (ds : List VringPackedDesc) (d : VringPackedDesc)
    (h : Linked n p ds) (hd : ds[j]? = some d) :
    d.flags.testBit descAvailBit = wrapAt n (p + j) ∧
      d.flags.testBit descUsedBit = (!wrapAt n (p + j)) ∧
      d.flags.testBit descNextBit = decide (j + 1 < ds.length) := by
  induction ds generalizing p j with
  | nil => simp only [List.getElem?_nil, reduceCtorEq] at hd
  | cons a ds ih =>
      rcases h with ⟨ha, hu, hn, hrest⟩
      cases j with
      | zero =>
          simp only [List.getElem?_cons_zero, Option.some.injEq] at hd
          refine ⟨by rw [← hd]; exact ha, by rw [← hd]; exact hu, ?_⟩
          rw [← hd, hn]
          -- NEXT is set on all but the last.
          cases ds with
          | nil => rfl
          | cons b ds => simp
      | succ j =>
          rw [List.getElem?_cons_succ] at hd
          have hrec := ih (p + 1) j hrest hd
          rw [show p + 1 + j = p + (j + 1) by omega] at hrec
          refine ⟨hrec.1, hrec.2.1, ?_⟩
          rw [hrec.2.2, List.length_cons]
          simp only [Nat.add_lt_add_iff_right]

/-- A published header lies off the ring as a host range. -/
theorem Chain.Wf.hdr_offRing {c : Ring} {p : Nat} {ch : Chain} (h : ch.Wf c p) :
    Apart (c.ram.host ch.hdr.addr) 16 c.vq.descRing (16 * c.n) := by
  have hmem : ch.hdr ∈ ch.descs := List.mem_cons_self ..
  have hr := h.inRam ch.hdr hmem
  have hap := h.offRing ch.hdr hmem
  rw [h.header] at hr hap
  exact c.host_offRing _ _ hr hap

/-- A header's type survives changes that stay on the ring. -/
theorem hdrTypeIn_offRing {c : Ring} {p : Nat} {ch : Chain} (h : ch.Wf c p) (m m' : ByteMem)
    (hsame : ∀ x, x < c.vq.descRing ∨ c.vq.descRing + 16 * c.n ≤ x → m' x = m x) :
    hdrTypeIn c m' ch = hdrTypeIn c m ch := by
  have hap := h.hdr_offRing
  unfold Apart at hap
  exact ByteMem.le_congr _ _ _ _ (fun i hi => hsame _ (by omega))

/-- A header's type survives a write elsewhere in RAM. -/
theorem hdrTypeIn_write {c : Ring} {p : Nat} {ch : Chain} (h : ch.Wf c p) (m : ByteMem)
    (g : Nat) (bs : List UInt8) (hin : InRam c.ram.mapper g bs.length)
    (hap : Apart g bs.length ch.hdr.addr 16) :
    hdrTypeIn c (m.write (c.ram.host g) bs) ch = hdrTypeIn c m ch := by
  have hr := h.inRam ch.hdr (List.mem_cons_self ..)
  rw [h.header] at hr
  have happ := c.ram.hostApart g bs.length ch.hdr.addr 16 hin hr hap
  refine ByteMem.le_write_apart m _ _ _ _ ?_
  unfold Apart at *
  omega

theorem RingInv.head_le {c : Ring} {s : RingSys} (h : RingInv c s) :
    s.head ≤ startOf s.published s.dev.log.length :=
  startOf_mono s.published s.reaped s.dev.log.length h.reaped_le

theorem RingInv.start_le {c : Ring} {s : RingSys} (h : RingInv c s) :
    startOf s.published s.dev.log.length ≤ s.tail := by
  rw [RingSys.tail, ← startOf_length]
  exact startOf_mono _ _ _ h.log_le

theorem ringInv_initial (c : Ring) (s : RingSys) (h : s.Initial c) : RingInv c s := by
  have htail : s.tail = 0 := by rw [RingSys.tail, h.published]; rfl
  -- With nothing published most clauses are about no chain.
  have hnone : ∀ k : Nat, s.published[k]? = none := by
    intro k
    rw [h.published, List.getElem?_nil]
  constructor
  case reaped_le => rw [h.reaped]; exact Nat.zero_le _
  case log_le => rw [h.log]; exact Nat.zero_le _
  case log_eq => rw [h.log, h.published]; rfl
  case wf =>
    intro k r hk
    rw [hnone] at hk
    simp only [reduceCtorEq] at hk
  case bits =>
    intro p d hd
    rw [h.published] at hd
    simp only [flatDescs, List.flatMap_nil, List.getElem?_nil, reduceCtorEq] at hd
  case room =>
    rw [htail, RingSys.stagedLen, h.staged]
    simp only
    omega
  case ring =>
    intro p d _ hd
    rw [h.published] at hd
    simp only [flatDescs, List.flatMap_nil, List.getElem?_nil, reduceCtorEq] at hd
  case fresh =>
    intro q _ hq _
    exact h.fresh q (by omega)
  case staged =>
    intro ch hch
    rw [h.staged] at hch
    simp only [reduceCtorEq] at hch
  case types =>
    intro k r _ hk
    rw [hnone] at hk
    simp only [reduceCtorEq] at hk
  case kept =>
    intro i k b r _ _ hi
    rw [hnone] at hi
    simp only [reduceCtorEq] at hi
  case phase =>
    unfold Phase
    rw [h.pc, h.published, h.log]
    exact ⟨h.vq, h.taken⟩

theorem ringInv_stage {c : Ring} {s : RingSys} (ch : Chain) (h : RingInv c s)
    (hst : s.staged = none) (hwf : ch.Wf c s.tail)
    (hroom : s.tail + ch.descs.length ≤ s.head + c.n) :
    RingInv c { s.setMem (putDescs c.vq s.dev.mem (s.tail + 1) ch.descs.tail) with
      staged := some ch } := by
  have hlen : ch.descs.tail.length + 1 = ch.descs.length := by
    rw [List.length_tail, Chain.length_descs]
    omega
  have hhead := h.head_le
  have hstart := h.start_le
  have hzero : s.stagedLen = 0 := by rw [RingSys.stagedLen, hst]
  -- The staged slots lie past everything published, less than a lap away.
  have hother : ∀ q, s.head ≤ q → q < s.tail + 1 + c.n → (q ≤ s.tail ∨
      s.tail + ch.descs.length ≤ q) →
      VringPackedDesc.load (putDescs c.vq s.dev.mem (s.tail + 1) ch.descs.tail) (c.vq.slot q)
        = VringPackedDesc.load s.dev.mem (c.vq.slot q) := by
    intro q h1 h2 h3
    exact load_putDescs_other c.vq s.dev.mem (s.tail + 1) q _ h2
      (by rw [Ring.n] at hroom; omega) (by omega)
  constructor
  case reaped_le => exact h.reaped_le
  case log_le => exact h.log_le
  case log_eq => exact h.log_eq
  case wf => exact h.wf
  case bits => exact h.bits
  case room => exact hroom
  case ring =>
    intro p d hp hd
    have hlt : p < s.tail := (List.getElem?_eq_some_iff.mp hd).1
    change startOf s.published s.dev.log.length ≤ p at hp
    exact (hother p (by omega) (by omega) (by omega)).trans (h.ring p d hp hd)
  case fresh =>
    intro q h1 h2 h3
    change s.tail ≤ q at h1
    change q < s.tail + c.n at h2
    change q = s.tail ∨ s.tail + ch.descs.length ≤ q at h3
    have hf := h.fresh q h1 h2 (by omega)
    rw [flagsAt_eq_load] at hf ⊢
    rw [← hother q (by omega) (by omega) (by omega)] at hf
    exact hf
  case staged =>
    intro ch' hch
    simp only [Option.some.injEq] at hch
    subst hch
    refine ⟨hwf, fun j d hj hd => ?_⟩
    have hd' : ch.descs.tail[j - 1]? = some d := by
      rw [List.getElem?_tail, show j - 1 + 1 = j by omega]
      exact hd
    have hself := load_putDescs_self c.vq s.dev.mem (s.tail + 1) (j - 1) ch.descs.tail d
      (fun d hd => hwf.fits d (List.mem_of_mem_tail hd))
      (by rw [Ring.n] at hroom; omega) hd'
    rw [show s.tail + 1 + (j - 1) = s.tail + j by omega] at hself
    exact hself
  case types =>
    intro k r hk hr
    rw [← h.types k r hk hr]
    exact hdrTypeIn_offRing (h.wf k r hr).1 _ _
      (fun x hx => putDescs_outside c.vq c.size_pos _ _ x _ hx)
  case kept => exact h.kept
  case phase => exact h.phase

/-- Publishing another chain does not move the ones before it. -/
theorem phase_append {c : Ring} {s s' : RingSys} (h : RingInv c s) (r : Request)
    (hdev : s'.dev.vq = s.dev.vq ∧ s'.dev.pc = s.dev.pc ∧ s'.dev.taken = s.dev.taken ∧
      s'.dev.log = s.dev.log ∧ s'.dev.req = s.dev.req)
    (hpub : s'.published = s.published ++ [r]) : Phase c s' := by
  rcases hdev with ⟨hvq, hpc, htaken, hlog, hreq⟩
  have hstart : startOf s'.published s'.dev.log.length
      = startOf s.published s.dev.log.length := by
    rw [hpub, hlog, startOf_append _ _ _ h.log_le]
  -- A chain the device is in was published before and keeps its place.
  have hmid : ∀ b j u, Mid c s b j u → Mid c s' b j u := by
    rintro b j u ⟨h1, h2, h3, h4⟩
    refine ⟨?_, ?_, ?_, ?_⟩
    · have hlt : s.dev.log.length < s.published.length := (List.getElem?_eq_some_iff.mp h1).1
      rw [hpub, hlog, List.getElem?_append_left hlt]
      exact h1
    · rw [hstart]; exact h2
    · rw [hstart, hvq]; exact h3
    · rw [hstart, htaken]; exact h4
  have htype : s'.dev.hdrType = s.dev.hdrType := by
    rw [Handler.hdrType, hreq, Handler.hdrType]
  have hphase := h.phase
  unfold Phase at *
  rw [hpc, hstart, hvq, htaken, htype]
  cases hcase : s.dev.pc <;> rw [hcase] at hphase <;> simp only at hphase ⊢
  case getHead | signal | done => exact hphase
  case copyHeader u =>
    rcases hphase with ⟨b, hb⟩
    exact ⟨b, hmid b _ _ hb⟩
  case getData u =>
    rcases hphase with ⟨b, hb, hrest⟩
    exact ⟨b, hmid b _ _ hb, hrest⟩
  case transfer u d =>
    rcases hphase with ⟨b, hb, hrest⟩
    exact ⟨b, hmid b _ _ hb, hrest⟩
  case getStatus u st x =>
    rcases hphase with ⟨b, hb⟩
    exact ⟨b, hmid b _ _ hb⟩
  case putStatus u d st x =>
    rcases hphase with ⟨b, hb, hrest⟩
    exact ⟨b, hmid b _ _ hb, hrest⟩
  case putFlags u d x =>
    rcases hphase with ⟨b, hb, hrest⟩
    exact ⟨b, hmid b _ _ hb, hrest⟩

theorem looksAvail_other_lap (n p flags : Nat) (hn : 0 < n)
    (h : flags.testBit descAvailBit = wrapAt n p) :
    looksAvail (wrapAt n (p + n)) flags = false := by
  rw [looksAvail, h, wrapAt_add_size n p hn]
  cases wrapAt n p <;> rfl

theorem slot_add_size (vq : Virtq) (p : Nat) : vq.slot (p + vq.info.size) = vq.slot p := by
  rw [Virtq.slot, Nat.add_mod_right, Virtq.slot]

/-- Storing the head at `t` leaves the descriptors less than a lap away. -/
theorem load_writeHead_other (c : Ring) (m : ByteMem) (d : VringPackedDesc) (t q : Nat)
    (h1 : t < q + c.n) (h2 : q < t + c.n) (h3 : q ≠ t) :
    VringPackedDesc.load (m.write (c.vq.slot t) d.bytes) (c.vq.slot q)
      = VringPackedDesc.load m (c.vq.slot q) := by
  refine VringPackedDesc.load_write_apart _ _ _ _ ?_
  rw [VringPackedDesc.length_bytes]
  rcases Nat.lt_or_gt_of_ne h3 with hlt | hgt
  · exact (c.vq.slot_apart q t hlt h1).symm
  · exact c.vq.slot_apart t q hgt h2

theorem writeHead_offRing (c : Ring) (m : ByteMem) (d : VringPackedDesc) (t x : Nat)
    (hx : x < c.vq.descRing ∨ c.vq.descRing + 16 * c.n ≤ x) :
    m.write (c.vq.slot t) d.bytes x = m x := by
  have hs := c.slot_mem t
  exact ByteMem.write_outside _ _ _ _ (by rw [VringPackedDesc.length_bytes]; omega)

/-- With its head stored, the whole of a staged chain is in the ring. -/
theorem RingInv.load_writeHead {c : Ring} {s : RingSys} (h : RingInv c s) {r : Request}
    (hst : s.staged = some r.toChain) (j : Nat) (d : VringPackedDesc)
    (hd : r.descs[j]? = some d) :
    VringPackedDesc.load (s.dev.mem.write (c.vq.slot s.tail) r.hdr.bytes)
      (c.vq.slot (s.tail + j)) = d := by
  rcases h.staged _ hst with ⟨hwf, hrest⟩
  have hj : j < r.descs.length := (List.getElem?_eq_some_iff.mp hd).1
  have hroom := h.room
  rw [show s.stagedLen = r.descs.length by rw [RingSys.stagedLen, hst]] at hroom
  have hhead := h.head_le
  have hstart := h.start_le
  rcases Nat.eq_zero_or_pos j with rfl | hj0
  · have hdh : r.hdr = d := by
      simpa only [Chain.descs, List.getElem?_cons_zero, Option.some.injEq] using hd
    rw [Nat.add_zero, ← hdh]
    exact VringPackedDesc.load_write_bytes _ _ _ (hwf.fits _ (List.mem_cons_self ..))
  · -- Only the head was missing, and it is less than a lap away.
    rw [load_writeHead_other c _ _ _ _ (by omega) (by omega) (by omega)]
    exact hrest j d hj0 hd

theorem getElem_snoc {rs : List Request} {r b : Request} {k : Nat}
    (hb : (rs ++ [r])[k]? = some b) :
    (rs[k]? = some b ∧ k < rs.length) ∨ (b = r ∧ k = rs.length) := by
  rcases Nat.lt_trichotomy k rs.length with hk | hk | hk
  · rw [List.getElem?_append_left hk] at hb
    exact Or.inl ⟨hb, hk⟩
  · rw [hk, List.getElem?_concat_length, Option.some.injEq] at hb
    exact Or.inr ⟨hb.symm, hk⟩
  · rw [List.getElem?_eq_none (by rw [List.length_append, List.length_singleton]; omega)] at hb
    simp only [reduceCtorEq] at hb

/-- A descriptor of the chains with one more is one of theirs or one of its. -/
theorem flatDescs_snoc {rs : List Request} {r : Request} {p : Nat} {d : VringPackedDesc}
    (hd : (flatDescs (rs ++ [r]))[p]? = some d) :
    (p < (flatDescs rs).length ∧ (flatDescs rs)[p]? = some d) ∨
      ∃ j, p = (flatDescs rs).length + j ∧ r.descs[j]? = some d := by
  rw [flatDescs_append, flatDescs_singleton] at hd
  rcases Nat.lt_or_ge p (flatDescs rs).length with hp | hp
  · rw [List.getElem?_append_left hp] at hd
    exact Or.inl ⟨hp, hd⟩
  · rw [List.getElem?_append_right hp] at hd
    exact Or.inr ⟨_, by omega, hd⟩

/-- The slots past a chain just published are not available before their time. -/
theorem RingInv.fresh_writeHead {c : Ring} {s : RingSys} (h : RingInv c s) {r : Request}
    (hst : s.staged = some r.toChain) (q : Nat) (h1 : s.tail + r.descs.length ≤ q)
    (h2 : q < s.tail + r.descs.length + c.n) :
    looksAvail (wrapAt c.n q) (VringPackedDesc.flagsAt
      (s.dev.mem.write (c.vq.slot s.tail) r.hdr.bytes) (c.vq.slot q)) = false := by
  have hwf := (h.staged _ hst).1
  have hlen : s.stagedLen = r.descs.length := by rw [RingSys.stagedLen, hst]
  have hpos : 2 ≤ r.descs.length := by rw [Chain.length_descs]; omega
  rw [flagsAt_eq_load]
  rcases Nat.lt_or_ge q (s.tail + c.n) with hlt | hge
  · rw [load_writeHead_other c _ _ _ _ (by omega) hlt (by omega)]
    exact h.fresh q (by omega) hlt (by omega)
  · -- One lap past the chain just published: its AVAIL bits are this lap's.
    obtain ⟨j, rfl⟩ : ∃ j, q = s.tail + j + c.n := ⟨q - c.n - s.tail, by omega⟩
    have hj : j < r.descs.length := by omega
    have hd : r.descs[j]? = some r.descs[j] := List.getElem?_eq_getElem hj
    rw [show c.vq.slot (s.tail + j + c.n) = c.vq.slot (s.tail + j) from
      slot_add_size c.vq _, h.load_writeHead hst j _ hd]
    exact looksAvail_other_lap c.n _ _ c.size_pos
      (linked_getElem c.n s.tail j r.descs _ hwf.linked hd).1

theorem ringInv_publish {c : Ring} {s : RingSys} (r : Request) (h : RingInv c s)
    (hst : s.staged = some r.toChain) (htype : r.type = hdrTypeIn c s.dev.mem r.toChain)
    (hsup : r.Supported) (hkept : HeaderKept s r) :
    RingInv c { s.setMem (s.dev.mem.write (c.vq.slot s.tail) r.hdr.bytes) with
      published := s.published ++ [r], staged := none } := by
  have hwf := (h.staged _ hst).1
  have hhead := h.head_le
  have hstart := h.start_le
  have hpos : 2 ≤ r.descs.length := by rw [Chain.length_descs]; omega
  have hroom := h.room
  rw [show s.stagedLen = r.descs.length by rw [RingSys.stagedLen, hst]] at hroom
  have hoff := writeHead_offRing c s.dev.mem r.hdr s.tail
  -- The chain starts where the ones before it end; those stay where they are.
  have hlast : startOf (s.published ++ [r]) s.published.length = s.tail := by
    rw [startOf_append _ _ _ (le_refl _), startOf_length, RingSys.tail]
  have htail : (flatDescs (s.published ++ [r])).length = s.tail + r.descs.length := by
    rw [flatDescs_append, flatDescs_singleton, List.length_append, RingSys.tail]
  have hhd : startOf (s.published ++ [r]) s.reaped = s.head :=
    startOf_append _ _ _ (Nat.le_trans h.reaped_le h.log_le)
  have hst' : startOf (s.published ++ [r]) s.dev.log.length
      = startOf s.published s.dev.log.length := startOf_append _ _ _ h.log_le
  constructor
  case reaped_le => exact h.reaped_le
  case log_le =>
    change s.dev.log.length ≤ (s.published ++ [r]).length
    rw [List.length_append, List.length_singleton]
    have := h.log_le
    omega
  case log_eq =>
    change s.dev.log.map Completed.taken
      = layout c.n 0 ((s.published ++ [r]).take s.dev.log.length)
    rw [List.take_append_of_le_length h.log_le]
    exact h.log_eq
  case wf =>
    intro k b hb
    change b.toChain.Wf c (startOf (s.published ++ [r]) k) ∧ b.Supported
    rcases getElem_snoc hb with ⟨hb', hk⟩ | ⟨rfl, rfl⟩
    · rw [startOf_append _ _ _ (Nat.le_of_lt hk)]
      exact h.wf k b hb'
    · rw [hlast]
      exact ⟨hwf, hsup⟩
  case bits =>
    intro p d hd
    rcases flatDescs_snoc hd with ⟨_, hd'⟩ | ⟨j, rfl, hj⟩
    · exact h.bits p d hd'
    · have hl := linked_getElem c.n s.tail j r.descs d hwf.linked hj
      exact ⟨hl.1, hl.2.1⟩
  case room =>
    change (flatDescs (s.published ++ [r])).length + 0
      ≤ startOf (s.published ++ [r]) s.reaped + c.n
    rw [htail, hhd]
    exact hroom
  case ring =>
    intro p d hp hd
    change startOf (s.published ++ [r]) s.dev.log.length ≤ p at hp
    rw [hst'] at hp
    rcases flatDescs_snoc hd with ⟨hlt, hd'⟩ | ⟨j, rfl, hj⟩
    · change p < s.tail at hlt
      exact (load_writeHead_other c _ _ _ p (by omega) (by omega) (by omega)).trans
        (h.ring p d hp hd')
    · exact h.load_writeHead hst j d hj
  case fresh =>
    intro q h1 h2 _
    change (flatDescs (s.published ++ [r])).length ≤ q at h1
    change q < (flatDescs (s.published ++ [r])).length + c.n at h2
    rw [htail] at h1 h2
    exact h.fresh_writeHead hst q h1 h2
  case staged =>
    intro ch hch
    simp only [reduceCtorEq] at hch
  case types =>
    intro k b hk hb
    change hdrFloor s ≤ k at hk
    change hdrTypeIn c (s.dev.mem.write (c.vq.slot s.tail) r.hdr.bytes) b.toChain = b.type
    rcases getElem_snoc hb with ⟨hb', _⟩ | ⟨rfl, _⟩
    · rw [hdrTypeIn_offRing (h.wf k b hb').1 _ _ hoff]
      exact h.types k b hk hb'
    · rw [hdrTypeIn_offRing hwf _ _ hoff]
      exact htype.symm
  case kept =>
    intro i k b b' hi hik hb hb'
    change s.dev.log.length ≤ i at hi
    rcases getElem_snoc hb with ⟨hi', _⟩ | ⟨_, heq⟩
    · rcases getElem_snoc hb' with ⟨hk, _⟩ | ⟨rfl, _⟩
      · exact h.kept i k b b' hi hik hi' hk
      · -- The new chain's header is one that every chain still to run keeps.
        refine hkept b (List.mem_of_getElem? (i := i - s.dev.log.length) ?_)
        rw [List.getElem?_drop, show s.dev.log.length + (i - s.dev.log.length) = i by omega]
        exact hi'
    · rcases getElem_snoc hb' with ⟨_, hlt⟩ | ⟨_, hk⟩ <;> omega
  case phase => exact phase_append h r ⟨rfl, rfl, rfl, rfl, rfl⟩ rfl

theorem ringInv_fill {c : Ring} {s : RingSys} (g : Nat) (bs : List UInt8) (h : RingInv c s)
    (hin : InRam c.ram.mapper g bs.length)
    (hoff : Apart g bs.length c.vq.info.descAddr (16 * c.n))
    (hhdr : ∀ r ∈ s.published.drop s.reaped, Apart g bs.length r.hdr.addr 16) :
    RingInv c (s.setMem (s.dev.mem.write (c.ram.host g) bs)) := by
  -- A buffer is off the ring, and off the headers still to be read.
  have hload : ∀ p, VringPackedDesc.load (s.dev.mem.write (c.ram.host g) bs) (c.vq.slot p)
      = VringPackedDesc.load s.dev.mem (c.vq.slot p) :=
    fun p => c.load_offRing s.dev.mem (c.ram.host g) bs p (c.host_offRing g _ hin hoff)
  have htype : ∀ (k : Nat) (r : Request), hdrFloor s ≤ k → s.published[k]? = some r →
      hdrTypeIn c (s.dev.mem.write (c.ram.host g) bs) r.toChain = r.type := by
    intro k r hk hr
    have hfloor : s.dev.log.length ≤ hdrFloor s := by
      unfold hdrFloor
      split <;> omega
    have hmem : r ∈ s.published.drop s.reaped := by
      refine List.mem_of_getElem? (i := k - s.reaped) ?_
      rw [List.getElem?_drop, show s.reaped + (k - s.reaped) = k by
        have := h.reaped_le; omega]
      exact hr
    rw [← h.types k r hk hr]
    exact hdrTypeIn_write (h.wf k r hr).1 s.dev.mem g bs hin (hhdr r hmem)
  exact h.setMem _ hload htype

/-- The first descriptor of a chain is its header. -/
theorem flatDescs_start (rs : List Request) (k : Nat) (r : Request) (h : rs[k]? = some r) :
    (flatDescs rs)[startOf rs k]? = some r.hdr := by
  have hj : 0 < r.descs.length := by rw [Chain.length_descs]; omega
  have hget := flatDescs_getElem rs k 0 r h hj
  rw [Nat.add_zero] at hget
  rw [hget, Chain.descs, List.getElem?_cons_zero]

/-- A head is seen used only after the device executed its chain. -/
theorem RingInv.reaped_lt {c : Ring} {s : RingSys} (h : RingInv c s)
    (hlt : s.reaped < s.published.length)
    (hused : (VringPackedDesc.flagsAt s.dev.mem (c.vq.slot s.head)).testBit descUsedBit
      = wrapAt c.n s.head) : s.reaped < s.dev.log.length := by
  rcases Nat.lt_or_ge s.reaped s.dev.log.length with hr | hr
  · exact hr
  · -- Otherwise the head is as published, with USED the negation.
    exfalso
    have heq : s.reaped = s.dev.log.length := Nat.le_antisymm h.reaped_le hr
    have hget : s.published[s.reaped]? = some s.published[s.reaped] :=
      List.getElem?_eq_getElem hlt
    have hd := flatDescs_start s.published s.reaped _ hget
    have hload := h.ring _ _ (by rw [heq]) hd
    have hbits := (h.bits _ _ hd).2
    rw [flagsAt_eq_load] at hused
    change (VringPackedDesc.load s.dev.mem
      (c.vq.slot (startOf s.published s.reaped))).flags.testBit descUsedBit
      = wrapAt c.n (startOf s.published s.reaped) at hused
    rw [hload, hbits] at hused
    exact absurd hused (by cases wrapAt c.n (startOf s.published s.reaped) <;> decide)

theorem ringInv_reap {c : Ring} {s : RingSys} (h : RingInv c s)
    (hlt : s.reaped < s.published.length)
    (hused : (VringPackedDesc.flagsAt s.dev.mem (c.vq.slot s.head)).testBit descUsedBit
      = wrapAt c.n s.head) : RingInv c { s with reaped := s.reaped + 1 } := by
  have hexec := h.reaped_lt hlt hused
  refine ⟨hexec, h.log_le, h.log_eq, h.wf, h.bits, ?_, h.ring, h.fresh, h.staged, h.types,
    h.kept, h.phase⟩
  have hroom := h.room
  have hmono : s.head ≤ startOf s.published (s.reaped + 1) :=
    startOf_mono _ _ _ (Nat.le_succ _)
  change s.tail + s.stagedLen ≤ startOf s.published (s.reaped + 1) + c.n
  omega

end Microv
