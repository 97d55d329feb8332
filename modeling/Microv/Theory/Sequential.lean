import Microv.Theory.Consumption
import Microv.Theory.Framing

/-!
# Sequential Semantics

Executing requests in batches leaves what executing them one by one leaves.

A driver may publish several chains before the device runs. Publishing writes
to slots behind the ones being served, and serving writes to a chain's own
buffers and its head, so the two commute (`serve_putDescs`). Memory after any
schedule is therefore that of the executed requests in published order, with
the others written into the ring on top. `Served` is that statement, and it is
kept by each request of a notification.

## Main definitions

* `seqRun`: Publishing and executing one request after the other.
* `Served`: Memory and the image are those of the executed requests.
* `Transfer`, `BatchStep`: The schedules of a driver.
* `BatchInv`: The invariant between the steps of a schedule.

## Theorems

* `serve_putDescs`: Serving and publishing commute.
* `served_request`: One request of a notification.
* `batchInv_step`: A step of a schedule keeps the invariant.
-/

namespace Microv

/-! ### Serving and publishing commute -/

section

variable {c : Ring} {p q : Nat} {ch : Chain} {ds : List VringPackedDesc}

/-- Publishing leaves a range off the ring as it was. -/
theorem putDescs_offRing (m : ByteMem) (a k : Nat) (h : Apart a k c.vq.descRing (16 * c.n))
    (i : Nat) (hi : i < k) : putDescs c.vq m q ds (a + i) = m (a + i) := by
  have hn := c.size_pos
  unfold Apart at h
  refine putDescs_outside c.vq c.size_pos m q _ ds ?_
  rw [Ring.n] at h
  omega

theorem putDescs_write_offRing (m : ByteMem) (a : Nat) (bs : List UInt8)
    (h : Apart a bs.length c.vq.descRing (16 * c.n)) :
    putDescs c.vq (m.write a bs) q ds = (putDescs c.vq m q ds).write a bs := by
  refine putDescs_write c.vq m q a ds bs ?_
  intro j _
  have hs := c.slot_mem (q + j)
  exact h.mono (le_refl _) (le_refl _) hs.1 hs.2

/-- The disk access of a queued chain does not see what is published behind
    it. -/
theorem reqAccess_putDescs (m : ByteMem) (img : Diskimg) (h d : VringPackedDesc)
    (hh : Apart (c.ram.host h.addr) 16 c.vq.descRing (16 * c.n))
    (hd : Apart (c.ram.host d.addr) d.len c.vq.descRing (16 * c.n)) :
    reqAccess c (putDescs c.vq m q ds) img h d = ((reqAccess c m img h d).1,
      putDescs c.vq (reqAccess c m img h d).2.1 q ds, (reqAccess c m img h d).2.2) := by
  -- Header and data are read from where no descriptor is put.
  have htype : (putDescs c.vq m q ds).le (c.ram.host h.addr) 4 = m.le (c.ram.host h.addr) 4 :=
    ByteMem.le_congr _ _ _ _ (fun i hi => putDescs_offRing m _ _ hh i (by omega))
  have hsector : (putDescs c.vq m q ds).le (c.ram.host h.addr + 8) 8
      = m.le (c.ram.host h.addr + 8) 8 := by
    refine ByteMem.le_congr _ _ _ _ ?_
    intro i hi
    rw [Nat.add_assoc]
    exact putDescs_offRing m _ _ hh (8 + i) (by omega)
  have hread : (putDescs c.vq m q ds).read (c.ram.host d.addr) d.len
      = m.read (c.ram.host d.addr) d.len :=
    ByteMem.read_congr _ _ _ _ (fun i hi => putDescs_offRing m _ _ hd i hi)
  rw [reqAccess, htype, hsector, reqAccess]
  unfold blkTransfer
  by_cases hin : m.le (c.ram.host h.addr) 4 = blkTIn
  · simp only [if_pos hin]
    rw [putDescs_write_offRing]
    refine hd.mono (le_refl _) ?_ (le_refl _) (le_refl _)
    have hlen := virtioBlkRead_length img (m.le (c.ram.host h.addr + 8) 8) d.len
    omega
  · simp only [if_neg hin, hread]

theorem completeMem_putDescs (m : ByteMem) (r : Int) (hlt : p < q)
    (hlap : q + ds.length ≤ p + c.n) :
    completeMem (putDescs c.vq m q ds) (c.vq.slot p) r
      = putDescs c.vq (completeMem m (c.vq.slot p) r) q ds := by
  have hflags : VringPackedDesc.flagsAt (putDescs c.vq m q ds) (c.vq.slot p)
      = VringPackedDesc.flagsAt m (c.vq.slot p) := by
    rw [flagsAt_eq_load, load_putDescs_other c.vq m q p ds (by omega)
      (by rw [Ring.n] at hlap; omega) (Or.inl hlt), ← flagsAt_eq_load]
  -- Both stores stay inside the head's slot.
  have hslot : ∀ o k, o + k ≤ 16 → ∀ j, j < ds.length →
      Apart (c.vq.slot p + o) k (c.vq.slot (q + j)) 16 := by
    intro o k hok j hj
    exact (c.vq.slot_apart p (q + j) (by omega) (by rw [Ring.n] at hlap; omega)).mono (by omega)
      (by omega) (le_refl _) (le_refl _)
  rw [completeMem, completeMem, hflags, ByteMem.writeLE, ByteMem.writeLE, ByteMem.writeLE,
    ByteMem.writeLE, putDescs_write, putDescs_write]
  · intro j hj
    rw [ByteMem.length_leBytes]
    exact hslot 14 2 (by omega) j hj
  · intro j hj
    rw [ByteMem.length_leBytes]
    exact hslot 8 4 (by omega) j hj

/-- Serving a chain and publishing others behind it commute. -/
theorem serve_putDescs (m : ByteMem) (img : Diskimg) (hwf : ch.Wf c p) (hlt : p < q)
    (hlap : q + ds.length ≤ p + c.n) :
    serve c p ch (putDescs c.vq m q ds, img)
      = (putDescs c.vq (serve c p ch (m, img)).1 q ds, (serve c p ch (m, img)).2) := by
  have htype : hdrTypeIn c (putDescs c.vq m q ds) ch = hdrTypeIn c m ch :=
    hdrTypeIn_offRing hwf _ _ (fun x hx => putDescs_outside c.vq c.size_pos _ _ x _ hx)
  have hstatus : Apart (c.ram.host ch.status.addr) 1 c.vq.descRing (16 * c.n) := by
    have hlen := hwf.status
    exact (hwf.host_offRing (List.mem_of_getElem? ch.descs_last)).mono (le_refl _) (by omega)
      (le_refl _) (le_refl _)
  -- Status and completion commute with descriptors further on.
  have hother : ∀ (m : ByteMem) (st : UInt8) (r : Int),
      completeMem ((putDescs c.vq m q ds).write (c.ram.host ch.status.addr) [st]) (c.vq.slot p) r
        = putDescs c.vq (completeMem (m.write (c.ram.host ch.status.addr) [st]) (c.vq.slot p) r)
          q ds := by
    intro m st r
    rw [← putDescs_write_offRing m _ [st] hstatus, completeMem_putDescs _ r hlt hlap]
  cases htr : isTransfer (hdrTypeIn c m ch) with
  | false =>
      rw [serve_other (w := (m, img)) htr,
        serve_other (w := (putDescs c.vq m q ds, img)) (by rw [htype]; exact htr)]
      exact Prod.ext (hother m _ _) rfl
  | true =>
      cases hdata : ch.data with
      | nil =>
          have hs : ∀ w : ByteMem × Diskimg, serve c p ch w
              = (completeMem (w.1.write (c.ram.host ch.status.addr) [blkSUnsupp]) (c.vq.slot p) 0,
                w.2) := by
            intro w
            unfold serve
            rw [hdata]
            cases isTransfer (hdrTypeIn c w.1 ch) <;> rfl
          rw [hs, hs]
          exact Prod.ext (hother m _ _) rfl
      | cons d rest =>
          have hd : d ∈ ch.descs :=
            List.mem_cons_of_mem _
              (List.mem_append_left _ (by rw [hdata]; exact List.mem_cons_self ..))
          rw [serve_transfer (w := (m, img)) htr hdata,
            serve_transfer (w := (putDescs c.vq m q ds, img)) (by rw [htype]; exact htr) hdata]
          simp only
          rw [reqAccess_putDescs m img ch.hdr d hwf.hdr_offRing (hwf.host_offRing hd)]
          exact Prod.ext (hother _ _ _) rfl

end

/-! ### Executing in published order -/

/-- Publish and execute the requests one by one, from position `p` on. -/
def seqRun (c : Ring) : Nat → List Request → ByteMem × Diskimg → ByteMem × Diskimg
  | _, [], w => w
  | p, r :: rs, w =>
      seqRun c (p + r.descs.length) rs (serve c p r.toChain (putDescs c.vq w.1 p r.descs, w.2))

theorem seqRun_append (c : Ring) (p : Nat) (rs : List Request) (r : Request)
    (w : ByteMem × Diskimg) :
    seqRun c p (rs ++ [r]) w = serve c (p + (flatDescs rs).length) r.toChain
      (putDescs c.vq (seqRun c p rs w).1 (p + (flatDescs rs).length) r.descs,
        (seqRun c p rs w).2) := by
  induction rs generalizing p w with
  | nil => rfl
  | cons a rs ih =>
      rw [List.cons_append, seqRun, seqRun, ih, flatDescs_cons, List.length_append, Nat.add_assoc]

/-- Memory and the image are those of the executed requests in order, with the
    others published on top. -/
def Served (c : Ring) (w : ByteMem × Diskimg) (s : RingSys) : Prop :=
  s.dev.mem = putDescs c.vq (seqRun c 0 (s.published.take s.dev.log.length) w).1
      (startOf s.published s.dev.log.length) (flatDescs (s.published.drop s.dev.log.length)) ∧
    s.dev.img = (seqRun c 0 (s.published.take s.dev.log.length) w).2

/-- One request of a notification. -/
theorem served_request {c : Ring} {w : ByteMem × Diskimg} {s : RingSys} (h : RingInv c s)
    (hpc : s.dev.pc = .getHead) (hlt : s.dev.log.length < s.published.length)
    (hserved : Served c w s) :
    ∃ k, ((handlerStep c.ram.mapper)^[k] s.dev).pc = .getHead ∧
      ((handlerStep c.ram.mapper)^[k] s.dev).log.length = s.dev.log.length + 1 ∧
      Served c w { s with dev := (handlerStep c.ram.mapper)^[k] s.dev } := by
  have hr : s.published[s.dev.log.length]? = some s.published[s.dev.log.length] :=
    List.getElem?_eq_getElem hlt
  generalize s.published[s.dev.log.length] = r at hr
  rcases h.wf _ r hr with ⟨hwf, hsup⟩
  have hphase := h.phase
  unfold Phase at hphase
  rw [hpc] at hphase
  have hfloor : hdrFloor s = s.dev.log.length := by unfold hdrFloor; rw [hpc]
  have hin : InSlots c s.dev.mem (startOf s.published s.dev.log.length) r.toChain := by
    intro j d hd
    have hj : j < r.descs.length := (List.getElem?_eq_some_iff.mp hd).1
    exact h.ring _ d (by omega) (by rw [flatDescs_getElem _ _ j r hr hj, hd])
  have hfit : r.toChain.Fits c s.dev.mem := by
    rw [Chain.Fits, h.types _ r (by rw [hfloor]) hr]
    exact hsup
  rcases handler_request hpc hphase.1 hwf hin hfit with ⟨k, req, hrun⟩
  have htake : s.published.take (s.dev.log.length + 1)
      = s.published.take s.dev.log.length ++ [r] := by
    rw [List.take_add_one, hr, Option.toList_some]
  have hdrop : s.published.drop s.dev.log.length
      = r :: s.published.drop (s.dev.log.length + 1) := by
    rw [← List.getElem_cons_drop hlt, (List.getElem?_eq_some_iff.mp hr).2]
  have hnext := startOf_succ s.published _ r hr
  have hroom := h.room
  have hhead := h.head_le
  have htail : (flatDescs (s.published.drop (s.dev.log.length + 1))).length
      + startOf s.published (s.dev.log.length + 1) = s.tail := by
    rw [startOf, RingSys.tail, Nat.add_comm, ← List.length_append, ← flatDescs_append,
      List.take_append_drop]
  have hlenr : r.descs.length = r.data.length + 2 := r.toChain.length_descs
  -- What is published behind the request commutes with executing it.
  have hserve : serve c (startOf s.published s.dev.log.length) r.toChain (s.dev.mem, s.dev.img)
      = (putDescs c.vq (seqRun c 0 (s.published.take (s.dev.log.length + 1)) w).1
          (startOf s.published (s.dev.log.length + 1))
          (flatDescs (s.published.drop (s.dev.log.length + 1))),
        (seqRun c 0 (s.published.take (s.dev.log.length + 1)) w).2) := by
    rw [hserved.1, hserved.2, hdrop, flatDescs_cons, putDescs_append,
      serve_putDescs _ _ hwf (by omega) (by omega), ← hnext, htake, seqRun_append, Nat.zero_add]
    rfl
  refine ⟨k, ?_, ?_, ?_⟩
  · rw [hrun]
  · rw [hrun]
    simp only [List.length_append, List.length_singleton]
  · rw [hrun, hserve]
    unfold Served
    simp only [List.length_append, List.length_singleton]
    exact ⟨trivial, trivial⟩

/-- A notification executes everything published, and returns. -/
theorem served_drain {c : Ring} {w : ByteMem × Diskimg} (n : Nat) {s : RingSys} (h : RingInv c s)
    (hpc : s.dev.pc = .getHead) (hn : s.published.length = s.dev.log.length + n)
    (hserved : Served c w s) :
    ∃ k, ((handlerStep c.ram.mapper)^[k] s.dev).pc = .done ∧
      ((handlerStep c.ram.mapper)^[k] s.dev).log.length = s.published.length ∧
      Served c w { s with dev := (handlerStep c.ram.mapper)^[k] s.dev } := by
  induction n generalizing s with
  | zero =>
      -- Nothing is left: the loop condition, then the event flags.
      have hphase := h.phase
      unfold Phase at hphase
      rw [hpc] at hphase
      have heq : s.dev.log.length = s.published.length := hn.symm
      have hav := h.getAvail_none (by rw [hphase.1, heq, startOf_length, RingSys.tail])
      have hidle := handlerStep_idle c.ram.mapper s.dev _ hpc hav
      have hsig := handlerStep_signal c.ram.mapper (handlerStep c.ram.mapper s.dev) (by rw [hidle])
      have hrun : (handlerStep c.ram.mapper)^[2] s.dev
          = handlerStep c.ram.mapper (handlerStep c.ram.mapper s.dev) := rfl
      have hkeep : (handlerStep c.ram.mapper (handlerStep c.ram.mapper s.dev)).pc = .done ∧
          (handlerStep c.ram.mapper (handlerStep c.ram.mapper s.dev)).log = s.dev.log ∧
          (handlerStep c.ram.mapper (handlerStep c.ram.mapper s.dev)).mem = s.dev.mem ∧
          (handlerStep c.ram.mapper (handlerStep c.ram.mapper s.dev)).img = s.dev.img := by
        rw [hsig, hidle]
        split_ifs <;> exact ⟨rfl, rfl, rfl, rfl⟩
      refine ⟨2, ?_, ?_, ?_⟩
      · rw [hrun]
        exact hkeep.1
      · rw [hrun, hkeep.2.1]
        exact heq
      · rw [hrun]
        unfold Served at hserved ⊢
        simp only [hkeep.2.1, hkeep.2.2.1, hkeep.2.2.2]
        exact hserved
  | succ n ih =>
      rcases served_request h hpc (by omega) hserved with ⟨k, hpck, hlogk, hservedk⟩
      have hinv := ringInv_handler h k (by rw [hpck]; simp only [ne_eq, reduceCtorEq,
        not_false_eq_true, implies_true])
      rcases ih hinv hpck (by simp only [hlogk]; omega) hservedk with ⟨j, hpcj, hlogj, hservedj⟩
      simp only [← Function.iterate_add_apply] at hpcj hlogj hservedj
      exact ⟨j + k, hpcj, hlogj, hservedj⟩

/-! ### Batches -/

/-- The sector in the header of a chain. -/
def hdrSectorIn (c : Ring) (m : ByteMem) (ch : Chain) : Nat :=
  m.le (c.ram.host ch.hdr.addr + 8) 8

/-- The data descriptor of a transfer. -/
def Chain.dataDesc (ch : Chain) : VringPackedDesc :=
  ch.data.headD ⟨0, 0, 0, 0⟩

/-- A transfer that may be published: one data descriptor, an extent inside
    the image, and buffers that overlap no other, its own included. -/
structure Transfer (c : Ring) (s : RingSys) (r : Request) : Prop where
  wf : r.toChain.Wf c s.tail
  room : s.tail + r.descs.length ≤ s.head + c.n
  type : r.type = hdrTypeIn c s.dev.mem r.toChain
  isTransfer : isTransfer r.type = true
  data : r.data.length = 1
  extent : hdrSectorIn c s.dev.mem r.toChain * 512 + r.dataDesc.len ≤ s.dev.img.size
  separate : (flatDescs (s.published ++ [r])).Pairwise
    fun a b => Apart a.addr a.len b.addr b.len

/-- One step of a schedule: a transfer is published, a used head is seen, or a
    notification runs until the handler returns. -/
inductive BatchStep (c : Ring) : RingSys → RingSys → Prop where
  | publish (s : RingSys) (r : Request) : Transfer c s r → BatchStep c s (s.put c r)
  | reap (s : RingSys) :
      s.reaped < s.published.length →
      (VringPackedDesc.flagsAt s.dev.mem (c.vq.slot s.head)).testBit descUsedBit
        = wrapAt c.n s.head →
      BatchStep c s { s with reaped := s.reaped + 1 }
  | notify (s : RingSys) (k : Nat) :
      ((handlerStep c.ram.mapper)^[k] (virtqNotify s.dev)).pc = .done →
      BatchStep c s { s with dev := (handlerStep c.ram.mapper)^[k] (virtqNotify s.dev) }

/-- Between the steps of a schedule the device is idle, and memory and the
    image are those of the executed requests in order. -/
structure BatchInv (c : Ring) (w : ByteMem × Diskimg) (s : RingSys) : Prop where
  ring : RingInv c s
  idle : s.dev.pc = .done
  unstaged : s.staged = none
  served : Served c w s

/-- Publishing a chain head last leaves what writing it in order leaves. -/
theorem put_mem (c : Ring) (s : RingSys) (r : Request) (hlen : r.descs.length ≤ c.n) :
    (s.put c r).dev.mem = putDescs c.vq s.dev.mem s.tail r.descs := by
  have hl : r.descs.length = r.data.length + 2 := r.toChain.length_descs
  have htl : r.descs.tail.length = r.data.length + 1 := by
    rw [List.length_tail]
    omega
  have hcons : r.descs = r.hdr :: r.descs.tail := rfl
  rw [hcons, putDescs, putDescs_write]
  · rfl
  · intro j hj
    rw [VringPackedDesc.length_bytes]
    exact c.vq.slot_apart _ _ (by omega) (by rw [Ring.n] at hlen; omega)

theorem headerKept_of_separate {c : Ring} {s : RingSys} {r : Request} (h : RingInv c s)
    (hr : Transfer c s r) : HeaderKept s r := by
  intro b hb
  have hmem : b ∈ s.published := List.mem_of_mem_drop hb
  have hsep := hr.separate
  rw [flatDescs_append, flatDescs_singleton, List.pairwise_append] at hsep
  -- No buffer of an earlier chain overlaps the new header.
  have hap : ∀ d ∈ b.descs, Apart d.addr d.len r.hdr.addr 16 := by
    intro d hd
    have := hsep.2.2 d (List.mem_flatMap.mpr ⟨b, hmem, hd⟩) r.hdr (List.mem_cons_self ..)
    rw [hr.wf.header] at this
    exact this
  refine ⟨fun _ d hd => hap d (List.mem_cons_of_mem _ (List.mem_append_left _ hd)), ?_⟩
  rcases List.getElem?_of_mem hmem with ⟨k, hk⟩
  have hst := (h.wf k b hk).1.status
  exact (hap b.status (List.mem_of_getElem? b.toChain.descs_last)).mono (le_refl _) (by omega)
    (le_refl _) (le_refl _)

theorem batchInv_publish {c : Ring} {w : ByteMem × Diskimg} {s : RingSys} {r : Request}
    (h : BatchInv c w s) (hr : Transfer c s r) : BatchInv c w (s.put c r) := by
  have hsup : r.Supported := by
    rw [Request.Supported, hr.isTransfer, if_pos rfl]
    exact hr.data
  have htype : r.type = hdrTypeIn c (putDescs c.vq s.dev.mem (s.tail + 1) r.descs.tail)
      r.toChain := by
    rw [hdrTypeIn_offRing hr.wf _ _ (fun x hx => putDescs_outside c.vq c.size_pos _ _ x _ hx)]
    exact hr.type
  have hkept := headerKept_of_separate h.ring hr
  -- Publishing at once is publishing in the steps of the driver.
  have hreach : Relation.ReflTransGen (DriverStep c HeaderKept) s (s.put c r) :=
    reach_put r h.unstaged hr.wf hr.room htype hsup hkept
  have hinv : RingInv c (s.put c r) :=
    ringInv_run h.ring (hreach.lift id (fun _ _ hd => Step.driver hd))
  have hpub : (s.put c r).published = s.published ++ [r] := rfl
  have hlog : (s.put c r).dev.log = s.dev.log := rfl
  have himg : (s.put c r).dev.img = s.dev.img := rfl
  have hle := h.ring.log_le
  have hlen : r.descs.length ≤ c.n := by
    have hhead := h.ring.head_le
    have hstart := h.ring.start_le
    have := hr.room
    omega
  refine ⟨hinv, h.idle, rfl, ?_⟩
  unfold Served
  rw [put_mem c s r hlen, hpub, hlog, himg, List.take_append_of_le_length hle,
    List.drop_append_of_le_length hle, startOf_append _ _ _ hle, flatDescs_append,
    putDescs_append, flatDescs_singleton]
  -- The new descriptors go behind the ones not yet served.
  have htail : startOf s.published s.dev.log.length
      + (flatDescs (s.published.drop s.dev.log.length)).length = s.tail := by
    rw [startOf, RingSys.tail, ← List.length_append, ← flatDescs_append, List.take_append_drop]
  rw [htail, ← h.served.1]
  exact ⟨rfl, h.served.2⟩

/-- A notification of an idle device executes everything published. -/
theorem batchInv_drain {c : Ring} {w : ByteMem × Diskimg} {s : RingSys} (h : BatchInv c w s) :
    ∃ k, ((handlerStep c.ram.mapper)^[k] (virtqNotify s.dev)).pc = .done ∧
      ((handlerStep c.ram.mapper)^[k] (virtqNotify s.dev)).log.length = s.published.length ∧
      Served c w { s with dev := (handlerStep c.ram.mapper)^[k] (virtqNotify s.dev) } := by
  have hinv := ringInv_notify h.ring h.idle
  have hle := h.ring.log_le
  have hnot := h.ring.notify_eq h.idle
  have hpc : (virtqNotify s.dev).pc = .getHead := by rw [hnot]
  have hserved : Served c w { s with dev := virtqNotify s.dev } := by
    rw [hnot]
    exact h.served
  exact served_drain (s.published.length - s.dev.log.length) hinv hpc
    (by simp only [hnot]; omega) hserved

/-- However long the notification is watched, it returns in the same state. -/
theorem batchInv_notify {c : Ring} {w : ByteMem × Diskimg} {s : RingSys} (h : BatchInv c w s)
    (k : Nat) (hk : ((handlerStep c.ram.mapper)^[k] (virtqNotify s.dev)).pc = .done) :
    BatchInv c w { s with dev := (handlerStep c.ram.mapper)^[k] (virtqNotify s.dev) } ∧
      ((handlerStep c.ram.mapper)^[k] (virtqNotify s.dev)).log.length = s.published.length := by
  rcases batchInv_drain h with ⟨j, hj, hlog, hserved⟩
  have heq : (handlerStep c.ram.mapper)^[k] (virtqNotify s.dev)
      = (handlerStep c.ram.mapper)^[j] (virtqNotify s.dev) := by
    rcases Nat.le_total j k with hle | hle
    · exact handlerRun_done _ _ j k hle hj
    · exact (handlerRun_done _ _ k j hle hk).symm
  have hring := ringInv_handler (ringInv_notify h.ring h.idle) j
    (by simp only [hj, ne_eq, reduceCtorEq, not_false_eq_true, implies_true])
  rw [heq]
  exact ⟨⟨hring, hj, h.unstaged, hserved⟩, hlog⟩

theorem batchInv_step {c : Ring} {w : ByteMem × Diskimg} {s s' : RingSys} (h : BatchInv c w s)
    (hs : BatchStep c s s') : BatchInv c w s' := by
  cases hs with
  | publish r ht => exact batchInv_publish h ht
  | reap hlt hused => exact ⟨ringInv_reap h.ring hlt hused, h.idle, h.unstaged, h.served⟩
  | notify k hk => exact (batchInv_notify h k hk).1

theorem batchInv_initial (c : Ring) (s : RingSys) (h : s.Initial c) :
    BatchInv c (s.dev.mem, s.dev.img) s := by
  refine ⟨ringInv_initial c s h, h.pc, h.staged, ?_⟩
  unfold Served
  rw [h.published, h.log]
  exact ⟨rfl, rfl⟩

end Microv
