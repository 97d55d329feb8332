import Microv.Theory.Request
import Mathlib.Logic.Function.Iterate

/-!
# The Device on the Ring

The device's steps keep the ring invariant, and with the driver's they give
the invariant along every interleaving.

At each program point `Phase` names the chain being executed and the number of
its descriptors taken, so what `virtq_get_avail` returns there is the next
descriptor of that chain, and between chains the first of the next one. The
completing stores flip the head's used bit, after which its slot looks
unavailable to the lap that will come to it.

The interleavings take the two completing stores together. A notification that
runs by itself goes through the handler's own steps, and `handlerRun_devStep`
translates between the two.

## Theorems

* `RingInv.getAvail_some`, `RingInv.getAvail_none`: What the device finds.
* `ringInv_complete`: The completing stores.
* `ringInv_device`: A device step keeps the invariant.
* `ringInv_step`, `ringInv_run`: Steps and runs of the system.
* `ringInv_handler`: A notification run to its end.
* `RingInv.log_prefix`: The completed chains are a prefix of the published.
-/

namespace Microv

section

variable {c : Ring} {s : RingSys}

/-- The queue is enabled, so a notification enters the loop. -/
theorem RingInv.notify_eq (h : RingInv c s) (hpc : s.dev.pc = .done) :
    virtqNotify s.dev = { s.dev with pc := .getHead } := by
  have hphase := h.phase
  unfold Phase at hphase
  rw [hpc] at hphase
  have hen : s.dev.vq.info.enable ≠ 0 := by
    rw [hphase.1, Virtq.atPos_info]
    exact c.enabled
  rw [virtqNotify, if_neg hen]

/-- A notification finds the device idle at the start of a chain. -/
theorem ringInv_notify (h : RingInv c s) (hpc : s.dev.pc = .done) :
    RingInv c { s with dev := virtqNotify s.dev } := by
  have hphase := h.phase
  unfold Phase at hphase
  rw [hpc] at hphase
  rw [h.notify_eq hpc]
  refine h.transport rfl rfl rfl rfl (fun _ => rfl) (fun k r hk hr => h.types k r ?_ hr) hphase
  change s.dev.log.length ≤ k at hk
  unfold hdrFloor
  rw [hpc]
  exact hk

/-! ### What the device finds -/

/-- What is published and not yet executed is ready. -/
theorem RingInv.ready (h : RingInv c s) (p : Nat) (d : VringPackedDesc)
    (hp : startOf s.published s.dev.log.length ≤ p)
    (hd : (flatDescs s.published)[p]? = some d) : Ready c s.dev.mem p d :=
  ⟨h.ring p d hp hd, (h.bits p d hd).1, (h.bits p d hd).2⟩

/-- The device finds what is published at its position. -/
theorem RingInv.getAvail_some (h : RingInv c s) (p : Nat) (d : VringPackedDesc)
    (hp : startOf s.published s.dev.log.length ≤ p)
    (hd : (flatDescs s.published)[p]? = some d) (hvq : s.dev.vq = c.vq.atPos p) :
    virtqGetAvail s.dev.mem s.dev.vq = (some (c.vq.slot p), c.vq.atPos (p + 1)) ∧
      s.dev.takes (c.vq.slot p) = ⟨p % c.n, d⟩ := by
  have hready := h.ready p d hp hd
  rw [hvq]
  exact ⟨hready.getAvail, hready.takes hvq⟩

/-- Past the last published chain the device finds nothing. -/
theorem RingInv.getAvail_none (h : RingInv c s) (hvq : s.dev.vq = c.vq.atPos s.tail) :
    virtqGetAvail s.dev.mem s.dev.vq = (none, s.dev.vq) := by
  have hn := c.size_pos
  have hf := h.fresh s.tail (le_refl _) (by rw [Ring.n]; omega) (Or.inl rfl)
  rw [hvq, virtqGetAvail_atPos _ _ _ c.size_pos c.size_lt]
  rw [Ring.n] at hf
  rw [hf]
  rfl

/-- Inside a chain the device finds that chain's next descriptor. -/
theorem RingInv.mid_getAvail {r : Request} {j u : Nat} {d : VringPackedDesc} (h : RingInv c s)
    (hm : Mid c s r j u) (hd : r.descs[j]? = some d) :
    virtqGetAvail s.dev.mem s.dev.vq
        = (some (c.vq.slot (startOf s.published s.dev.log.length + j)),
          c.vq.atPos (startOf s.published s.dev.log.length + (j + 1))) ∧
      s.dev.takes (c.vq.slot (startOf s.published s.dev.log.length + j))
        = ⟨(startOf s.published s.dev.log.length + j) % c.n, d⟩ := by
  have hj : j < r.descs.length := (List.getElem?_eq_some_iff.mp hd).1
  have hflat := flatDescs_getElem s.published _ j r hm.1 hj
  exact h.getAvail_some _ d (by omega) (by rw [hflat, hd]) hm.2.2.1

/-- The descriptors of the chain being executed are still in the ring. -/
theorem RingInv.mid_load {r : Request} {j u i : Nat} {d : VringPackedDesc} (h : RingInv c s)
    (hm : Mid c s r j u) (hd : r.descs[i]? = some d) :
    VringPackedDesc.load s.dev.mem (c.vq.slot (startOf s.published s.dev.log.length + i)) = d := by
  have hi : i < r.descs.length := (List.getElem?_eq_some_iff.mp hd).1
  have hflat := flatDescs_getElem s.published _ i r hm.1 hi
  exact h.ring _ d (by omega) (by rw [hflat, hd])

/-- NEXT is set on every descriptor of a published chain but the last. -/
theorem RingInv.mid_next {r : Request} {j u i : Nat} {d : VringPackedDesc} (h : RingInv c s)
    (hm : Mid c s r j u) (hd : r.descs[i]? = some d) (hi : i + 1 < r.descs.length) :
    d.flags.testBit descNextBit = true := by
  have hl := linked_getElem c.n _ i r.descs d (h.wf _ r hm.1).1.linked hd
  rw [hl.2.2]
  exact decide_eq_true hi

/-- The record and the position after one more descriptor. -/
theorem Mid.take {r : Request} {j u : Nat} {d : VringPackedDesc} {D : Handler}
    (hm : Mid c s r j u) (hd : r.descs[j]? = some d) (hlog : D.log = s.dev.log)
    (hvq : D.vq = c.vq.atPos (startOf s.published s.dev.log.length + (j + 1)))
    (htaken : D.taken
      = s.dev.taken ++ [⟨(startOf s.published s.dev.log.length + j) % c.n, d⟩]) :
    Mid c { s with dev := D } r (j + 1) u := by
  rcases hm with ⟨h1, h2, h3, h4⟩
  refine ⟨?_, ?_, ?_, ?_⟩
  · rw [hlog]; exact h1
  · rw [hlog]; exact h2
  · rw [hlog]; exact hvq
  · rw [htaken, hlog, h4, takenFrom_take_succ _ _ _ _ _ hd]

/-- The record and the position where nothing was taken. -/
theorem Mid.stay {r : Request} {j u : Nat} {D : Handler} (hm : Mid c s r j u)
    (hlog : D.log = s.dev.log) (hvq : D.vq = s.dev.vq) (htaken : D.taken = s.dev.taken) :
    Mid c { s with dev := D } r j u := by
  rcases hm with ⟨h1, h2, h3, h4⟩
  refine ⟨?_, ?_, ?_, ?_⟩
  · rw [hlog]; exact h1
  · rw [hlog]; exact h2
  · rw [hlog, hvq]; exact h3
  · rw [hlog, htaken]; exact h4

/-! ### Steps of the device -/

/-- A device step that writes no memory and starts no earlier header. -/
theorem RingInv.advance (h : RingInv c s) (D : Handler) (hlog : D.log = s.dev.log)
    (hmem : D.mem = s.dev.mem) (hfloor : hdrFloor s ≤ hdrFloor { s with dev := D })
    (hphase : Phase c { s with dev := D }) : RingInv c { s with dev := D } := by
  refine h.transport rfl rfl rfl hlog (fun p => ?_) (fun k r hk hr => ?_) hphase
  · rw [hmem]
  · rw [hmem]
    exact h.types k r (Nat.le_trans hfloor hk) hr

/-- A device step that writes off the ring, and none of the headers of the
    chains after the one it executes. -/
theorem RingInv.advance_mem (h : RingInv c s) (D : Handler) (hlog : D.log = s.dev.log)
    (hload : ∀ p, VringPackedDesc.load D.mem (c.vq.slot p)
      = VringPackedDesc.load s.dev.mem (c.vq.slot p))
    (hfloor : hdrFloor s = s.dev.log.length + 1)
    (hfloor' : hdrFloor { s with dev := D } = s.dev.log.length + 1)
    (hsame : ∀ (k : Nat) (r : Request), s.dev.log.length < k → s.published[k]? = some r →
      hdrTypeIn c D.mem r.toChain = hdrTypeIn c s.dev.mem r.toChain)
    (hphase : Phase c { s with dev := D }) : RingInv c { s with dev := D } := by
  refine h.transport rfl rfl rfl hlog hload (fun k r hk hr => ?_) hphase
  rw [hfloor'] at hk
  rw [hsame k r (by omega) hr]
  exact h.types k r (by omega) hr

theorem ringInv_getHead (h : RingInv c s) (hpc : s.dev.pc = .getHead) :
    RingInv c { s with dev := handlerStep c.ram.mapper s.dev } := by
  have hphase := h.phase
  unfold Phase at hphase
  rw [hpc] at hphase
  rcases hphase with ⟨hvq, htaken⟩
  have hfloor : hdrFloor s = s.dev.log.length := by unfold hdrFloor; rw [hpc]
  rcases Nat.lt_or_ge s.dev.log.length s.published.length with hlt | hge
  · -- A chain is out: its head is at the device's position.
    have hr : s.published[s.dev.log.length]? = some s.published[s.dev.log.length] :=
      List.getElem?_eq_getElem hlt
    have hav := h.getAvail_some _ _ (le_refl _) (flatDescs_start _ _ _ hr) hvq
    rw [handlerStep_getHead _ _ _ _ hpc hav.1, hav.2]
    refine h.advance _ rfl rfl (by rw [hfloor]; exact Nat.le_refl _) ⟨_, hr, rfl, rfl, ?_⟩
    change _ = takenFrom c.n _ [_]
    simp only [takenFrom]
  · -- Nothing is out: the position is the driver's tail.
    have heq : s.dev.log.length = s.published.length := Nat.le_antisymm h.log_le hge
    have hav := h.getAvail_none (by rw [hvq, heq, startOf_length, RingSys.tail])
    rw [handlerStep_idle _ _ _ hpc hav]
    exact h.advance _ rfl rfl (by rw [hfloor]; exact Nat.le_refl _) ⟨hvq, htaken⟩

theorem ringInv_copyHeader (h : RingInv c s) (u : Nat) (hpc : s.dev.pc = .copyHeader u) :
    RingInv c { s with dev := handlerStep c.ram.mapper s.dev } := by
  have hphase := h.phase
  unfold Phase at hphase
  rw [hpc] at hphase
  rcases hphase with ⟨r, hm⟩
  have hwf := (h.wf _ r hm.1).1
  have hfloor : hdrFloor s = s.dev.log.length := by unfold hdrFloor; rw [hpc]
  have hlen : 1 < r.descs.length := by rw [Chain.length_descs]; omega
  have hd : r.descs[0]? = some r.hdr := rfl
  have hload := h.mid_load hm hd
  rw [Nat.add_zero, ← hm.2.1] at hload
  -- The header is 16 bytes, so the type the device goes on with is its own.
  have htype : (s.dev.reqAfter c.ram.mapper r.hdr).le 0 4 = r.type := by
    rw [reqAfter_type hwf.header, ← h.types _ r (by rw [hfloor]) hm.1]
    rfl
  rw [handlerStep_copyHeader _ _ u r.hdr hpc hload (h.mid_next hm hd hlen), htype]
  have hsup := (h.wf _ r hm.1).2
  unfold Request.Supported at hsup
  by_cases htr : isTransfer r.type = true
  · rw [if_pos htr] at hsup ⊢
    refine h.advance _ rfl rfl (by rw [hfloor]; exact Nat.le_succ _) ⟨r, ?_, hsup, htype⟩
    exact hm.stay rfl rfl rfl
  · rw [if_neg htr] at hsup ⊢
    refine h.advance _ rfl rfl (by rw [hfloor]; exact Nat.le_succ _) ⟨r, ?_⟩
    rw [hsup]
    exact hm.stay rfl rfl rfl

theorem ringInv_getData (h : RingInv c s) (u : Nat) (hpc : s.dev.pc = .getData u) :
    RingInv c { s with dev := handlerStep c.ram.mapper s.dev } := by
  have hphase := h.phase
  unfold Phase at hphase
  rw [hpc] at hphase
  rcases hphase with ⟨r, hm, hdata, htype⟩
  have hfloor : hdrFloor s = s.dev.log.length + 1 := by unfold hdrFloor; rw [hpc]
  have hd : r.descs[1]? = some r.descs[1] :=
    List.getElem?_eq_getElem (by rw [Chain.length_descs]; omega)
  have hav := h.mid_getAvail hm hd
  rw [handlerStep_getData _ _ u _ _ hpc hav.1, hav.2]
  refine h.advance _ rfl rfl (by rw [hfloor]; exact Nat.le_refl _) ⟨r, ?_, hdata, htype, rfl⟩
  exact hm.take hd rfl rfl rfl

/-- A buffer of a published chain is off the ring as a host range. -/
theorem RingInv.buffer_offRing {k : Nat} {r : Request} {d : VringPackedDesc} (h : RingInv c s)
    (hr : s.published[k]? = some r) (hd : d ∈ r.descs) :
    Apart (c.ram.host d.addr) d.len c.vq.descRing (16 * c.n) :=
  c.host_offRing _ _ ((h.wf k r hr).1.inRam d hd) ((h.wf k r hr).1.offRing d hd)

/-- A header's type survives changes that stay inside a buffer it is apart
    from. -/
theorem RingInv.hdrTypeIn_outside {k i : Nat} {r b : Request} {d : VringPackedDesc} {len : Nat}
    {m m' : ByteMem} (h : RingInv c s) (hr : s.published[k]? = some r)
    (hb : s.published[i]? = some b) (hd : d ∈ b.descs) (hlen : len ≤ d.len)
    (hap : Apart d.addr len r.hdr.addr 16)
    (hsame : ∀ x, x < c.ram.host d.addr ∨ c.ram.host d.addr + len ≤ x → m' x = m x) :
    hdrTypeIn c m' r.toChain = hdrTypeIn c m r.toChain := by
  have hin := (h.wf i b hb).1.inRam d hd
  have hin' : InRam c.ram.mapper d.addr len := by
    unfold InRam MemRegion.InSlot at *
    omega
  have hhdr := (h.wf k r hr).1.inRam r.hdr (List.mem_cons_self ..)
  rw [(h.wf k r hr).1.header] at hhdr
  have happ := c.ram.hostApart _ _ _ _ hin' hhdr hap
  unfold Apart at happ
  exact ByteMem.le_congr _ _ _ _ (fun x hx => hsame _ (by omega))

theorem ringInv_transfer (h : RingInv c s) (u a : Nat) (hpc : s.dev.pc = .transfer u a) :
    RingInv c { s with dev := handlerStep c.ram.mapper s.dev } := by
  have hphase := h.phase
  unfold Phase at hphase
  rw [hpc] at hphase
  rcases hphase with ⟨r, hm, hdata, htype, ha⟩
  have hfloor : hdrFloor s = s.dev.log.length + 1 := by unfold hdrFloor; rw [hpc]
  have hlen : r.descs.length = 3 := by rw [Chain.length_descs]; omega
  obtain ⟨d, hd⟩ : ∃ d, r.descs[1]? = some d := ⟨_, List.getElem?_eq_getElem (by omega)⟩
  have hmem : d ∈ r.data := by
    rw [List.length_eq_one_iff] at hdata
    rcases hdata with ⟨e, he⟩
    rw [Chain.descs, he] at hd
    simp only [List.cons_append, List.nil_append, List.getElem?_cons_succ,
      List.getElem?_cons_zero, Option.some.injEq] at hd
    rw [he, hd]
    exact List.mem_singleton_self d
  have hmem' : d ∈ r.descs := List.mem_of_getElem? hd
  have hload := h.mid_load hm hd
  rw [← ha] at hload
  have hoff := h.buffer_offRing hm.1 hmem'
  have hloads : ∀ p, VringPackedDesc.load (s.dev.access c.ram.mapper d).2.1 (c.vq.slot p)
      = VringPackedDesc.load s.dev.mem (c.vq.slot p) := by
    intro p
    have hs := c.slot_mem p
    refine s.dev.access_load c.ram.mapper d _ (hoff.mono (le_refl _) (le_refl _) hs.1 hs.2)
  have hnext : (VringPackedDesc.load (s.dev.access c.ram.mapper d).2.1 a).flags.testBit descNextBit
      = true := by
    rw [ha, hloads, ← ha, hload]
    exact h.mid_next hm hd (by omega)
  rw [handlerStep_transfer _ _ u a d hpc hload hnext]
  refine h.advance_mem _ rfl hloads hfloor rfl (fun k b hk hb => ?_) ⟨r, ?_⟩
  · -- A read writes its data buffer, which keeps off later headers.
    change hdrTypeIn c (s.dev.access c.ram.mapper d).2.1 b.toChain
      = hdrTypeIn c s.dev.mem b.toChain
    have hkeep := (h.kept _ k r b (le_refl _) hk hm.1 hb).1
    by_cases hin : s.dev.hdrType = blkTIn
    · refine h.hdrTypeIn_outside hb hm.1 hmem' (le_refl _)
        (hkeep (by rw [← htype]; exact hin) d hmem) (fun x hx => ?_)
      exact blkTransfer_outside _ _ _ _ _ _ x hx
    · rw [s.dev.access_mem_out c.ram.mapper d hin]
  · rw [hdata]
    exact hm.stay rfl rfl rfl

theorem ringInv_getStatus (h : RingInv c s) (u : Nat) (st : UInt8) (x : Int)
    (hpc : s.dev.pc = .getStatus u st x) :
    RingInv c { s with dev := handlerStep c.ram.mapper s.dev } := by
  have hphase := h.phase
  unfold Phase at hphase
  rw [hpc] at hphase
  rcases hphase with ⟨r, hm⟩
  have hfloor : hdrFloor s = s.dev.log.length + 1 := by unfold hdrFloor; rw [hpc]
  have hd : r.descs[r.data.length + 1]? = some r.descs[r.data.length + 1] :=
    List.getElem?_eq_getElem (by rw [Chain.length_descs]; omega)
  have hav := h.mid_getAvail hm hd
  rw [handlerStep_getStatus _ _ u _ st x _ hpc hav.1, hav.2]
  refine h.advance _ rfl rfl (by rw [hfloor]; exact Nat.le_refl _) ⟨r, ?_, rfl⟩
  exact hm.take hd rfl rfl rfl

/-- The store of the status byte, for any memory it may leave behind that
    keeps the ring and the later headers. -/
theorem RingInv.statusStored {r : Request} {u a : Nat} (h : RingInv c s)
    (hm : Mid c s r (r.data.length + 2) u)
    (ha : a = c.vq.slot (startOf s.published s.dev.log.length + (r.data.length + 1)))
    (hfloor : hdrFloor s = s.dev.log.length + 1) (m : ByteMem) (x : Int)
    (hloads : ∀ p, VringPackedDesc.load m (c.vq.slot p)
      = VringPackedDesc.load s.dev.mem (c.vq.slot p))
    (hsame : ∀ (k : Nat) (b : Request), s.dev.log.length < k → s.published[k]? = some b →
      hdrTypeIn c m b.toChain = hdrTypeIn c s.dev.mem b.toChain) :
    RingInv c { s with dev := { s.dev with mem := m, pc := .putFlags u a x } } := by
  refine h.advance_mem _ rfl hloads hfloor rfl hsame ⟨r, ?_, ha⟩
  exact hm.stay rfl rfl rfl

theorem ringInv_putStatus (h : RingInv c s) (u a : Nat) (st : UInt8) (x : Int)
    (hpc : s.dev.pc = .putStatus u a st x) :
    RingInv c { s with dev := handlerStep c.ram.mapper s.dev } := by
  have hphase := h.phase
  unfold Phase at hphase
  rw [hpc] at hphase
  rcases hphase with ⟨r, hm, ha⟩
  have hfloor : hdrFloor s = s.dev.log.length + 1 := by unfold hdrFloor; rw [hpc]
  have hd : r.descs[r.data.length + 1]? = some r.status := r.toChain.descs_last
  have hmem : r.status ∈ r.descs := List.mem_of_getElem? hd
  have hload := h.mid_load hm hd
  rw [← ha] at hload
  have hst := (h.wf _ r hm.1).1.status
  have hoff := h.buffer_offRing hm.1 hmem
  -- The status byte is off the ring.
  have hloads : ∀ p, VringPackedDesc.load (s.dev.mem.write (c.ram.host r.status.addr) [st])
      (c.vq.slot p) = VringPackedDesc.load s.dev.mem (c.vq.slot p) :=
    fun p => c.load_offRing _ _ _ p (hoff.mono (le_refl _)
      (by rw [List.length_singleton]; exact Nat.add_le_add_left hst _) (le_refl _) (le_refl _))
  -- Nor is it part of a later chain's header: those were kept.
  have hsame : ∀ (k : Nat) (b : Request), s.dev.log.length < k → s.published[k]? = some b →
      hdrTypeIn c (s.dev.mem.write (c.ram.host r.status.addr) [st]) b.toChain
        = hdrTypeIn c s.dev.mem b.toChain := by
    intro k b hk hb
    refine h.hdrTypeIn_outside hb hm.1 hmem hst
      (h.kept _ k r b (le_refl _) hk hm.1 hb).2 (fun y hy => ?_)
    exact ByteMem.write_outside _ _ _ _ (by rw [List.length_singleton]; exact hy)
  have hhost : getUserspaceAddr c.ram.mapper r.status.addr = c.ram.host r.status.addr := rfl
  rw [handlerStep_putStatus _ _ u a st x r.status hpc hload, hhost]
  exact h.statusStored hm ha hfloor _ x hloads hsame

/-- Completing the chain at `p` leaves the slots within a lap past it alone. -/
theorem load_completeMem_other (c : Ring) (m : ByteMem) (p q : Nat) (x : Int) (hlt : p < q)
    (hgt : q < p + c.n) :
    VringPackedDesc.load (completeMem m (c.vq.slot p) x) (c.vq.slot q)
      = VringPackedDesc.load m (c.vq.slot q) := by
  have hap := c.vq.slot_apart p q hlt hgt
  unfold Apart at hap
  exact VringPackedDesc.load_congr _ _ _ (fun i hi => completeMem_outside _ _ _ _ (by omega))

/-- Within a lap past the chain at `p` no slot becomes available by its
    completion: the head's own slot carries the AVAIL bit of the old lap. -/
theorem looksAvail_completeMem (c : Ring) (m : ByteMem) (p q : Nat) (x : Int) (hlt : p < q)
    (hgt : q < p + 2 * c.n)
    (hbit : (VringPackedDesc.flagsAt m (c.vq.slot p)).testBit descAvailBit = wrapAt c.n p)
    (hold : looksAvail (wrapAt c.n q) (VringPackedDesc.flagsAt m (c.vq.slot q)) = false) :
    looksAvail (wrapAt c.n q)
      (VringPackedDesc.flagsAt (completeMem m (c.vq.slot p) x) (c.vq.slot q)) = false := by
  rcases Nat.lt_trichotomy q (p + c.n) with hq | rfl | hq
  · rw [flagsAt_eq_load, load_completeMem_other c m p q x hlt hq]
    exact hold
  · rw [show c.vq.slot (p + c.n) = c.vq.slot p from slot_add_size c.vq p, flagsAt_completeMem]
    refine looksAvail_other_lap c.n p _ c.size_pos ?_
    rw [Nat.testBit_xor, hbit]
    have hother : (2 ^ descUsedBit).testBit descAvailBit = false := by decide
    rw [hother, Bool.xor_false]
  · obtain ⟨q', rfl⟩ : ∃ q', q = q' + c.n := ⟨q - c.n, by omega⟩
    have hslot : c.vq.slot (q' + c.n) = c.vq.slot q' := slot_add_size c.vq q'
    rw [hslot] at hold ⊢
    rw [flagsAt_eq_load, load_completeMem_other c m p q' x (by omega) (by omega)]
    exact hold

theorem ringInv_complete (h : RingInv c s) (u a : Nat) (x : Int)
    (hpc : s.dev.pc = .putFlags u a x) :
    RingInv c { s with
      dev := handlerStep c.ram.mapper (handlerStep c.ram.mapper s.dev) } := by
  have hphase := h.phase
  unfold Phase at hphase
  rw [hpc] at hphase
  rcases hphase with ⟨r, hm, -⟩
  have hfloor : hdrFloor s = s.dev.log.length + 1 := by unfold hdrFloor; rw [hpc]
  have hlt : s.dev.log.length < s.published.length := (List.getElem?_eq_some_iff.mp hm.1).1
  have hlen : r.descs.length = r.data.length + 2 := r.toChain.length_descs
  have hnext := startOf_succ s.published _ r hm.1
  have hend := startOf_add_le s.published _ r hm.1
  have hhead := h.head_le
  have hroom := h.room
  have htail : s.tail = (flatDescs s.published).length := rfl
  have hbit := (h.bits _ _ (flatDescs_start _ _ _ hm.1)).1
  have hload := h.mid_load hm (show r.descs[0]? = some r.hdr from rfl)
  rw [Nat.add_zero] at hload
  rw [← hload, ← flagsAt_eq_load] at hbit
  have hloglen : ∀ e : Completed, (s.dev.log ++ [e]).length = s.dev.log.length + 1 := by
    intro e
    rw [List.length_append, List.length_singleton]
  rw [handlerStep_complete _ _ u a x hpc, hm.2.1]
  constructor
  case reaped_le =>
    have := h.reaped_le
    simp only [hloglen]
    omega
  case log_le =>
    simp only [hloglen]
    omega
  case log_eq =>
    -- The record gains exactly the descriptors of the chain.
    simp only [hloglen]
    rw [List.map_append, h.log_eq, List.take_add_one, hm.1, Option.toList_some, layout_append,
      Nat.zero_add, List.map_singleton, hm.2.2.2, ← hlen, List.take_length]
    rfl
  case wf => exact h.wf
  case bits => exact h.bits
  case room => exact h.room
  case ring =>
    intro p d hp hd
    simp only [hloglen] at hp
    have hpt : p < s.tail := (List.getElem?_eq_some_iff.mp hd).1
    simp only
    rw [load_completeMem_other c _ _ p x (by omega) (by omega)]
    exact h.ring p d (by omega) hd
  case fresh =>
    intro q h1 h2 h3
    change s.tail ≤ q at h1
    change q < s.tail + c.n at h2
    exact looksAvail_completeMem c _ _ q x (by omega) (by omega) hbit (h.fresh q h1 h2 h3)
  case staged =>
    intro ch hch
    refine ⟨(h.staged ch hch).1, fun j d hj hd => ?_⟩
    have hjlt : j < ch.descs.length := (List.getElem?_eq_some_iff.mp hd).1
    have hsl : s.stagedLen = ch.descs.length := by
      rw [RingSys.stagedLen, show s.staged = some ch from hch]
    change VringPackedDesc.load _ (c.vq.slot (s.tail + j)) = d
    simp only
    rw [load_completeMem_other c _ _ (s.tail + j) x (by omega) (by omega)]
    exact (h.staged ch hch).2 j d hj hd
  case types =>
    intro k b hk hb
    change (s.dev.log ++ [(⟨s.dev.taken, a, _⟩ : Completed)]).length ≤ k at hk
    rw [List.length_append, List.length_singleton] at hk
    rw [← h.types k b (by rw [hfloor]; exact hk) hb]
    have hs := c.slot_mem (startOf s.published s.dev.log.length)
    exact hdrTypeIn_offRing (h.wf k b hb).1 _ _
      (fun y hy => completeMem_outside _ _ _ _ (by omega))
  case kept =>
    intro i k b b' hi
    simp only [hloglen] at hi
    exact h.kept i k b b' (by omega)
  case phase =>
    refine ⟨?_, rfl⟩
    simp only [hloglen]
    rw [hnext, hlen]
    exact hm.2.2.1

theorem ringInv_signal (h : RingInv c s) (hpc : s.dev.pc = .signal) :
    RingInv c { s with dev := handlerStep c.ram.mapper s.dev } := by
  have hphase := h.phase
  unfold Phase at hphase
  rw [hpc] at hphase
  have hfloor : hdrFloor s = s.dev.log.length := by unfold hdrFloor; rw [hpc]
  rw [handlerStep_signal _ _ hpc]
  by_cases hev : s.dev.mem.le (s.dev.vq.guestEvent + 2) 2 = eventFlagEnable
  · rw [if_pos hev]
    exact h.advance _ rfl rfl (by rw [hfloor]; exact Nat.le_refl _) hphase
  · rw [if_neg hev]
    exact h.advance _ rfl rfl (by rw [hfloor]; exact Nat.le_refl _) hphase

/-- Every device step keeps the invariant. -/
theorem ringInv_device (h : RingInv c s) :
    RingInv c { s with dev := devStep c.ram.mapper s.dev } := by
  unfold devStep
  cases hpc : s.dev.pc with
  | getHead => exact ringInv_getHead h hpc
  | copyHeader u => exact ringInv_copyHeader h u hpc
  | getData u => exact ringInv_getData h u hpc
  | transfer u a => exact ringInv_transfer h u a hpc
  | getStatus u st x => exact ringInv_getStatus h u st x hpc
  | putStatus u a st x => exact ringInv_putStatus h u a st x hpc
  | putFlags u a x => exact ringInv_complete h u a x hpc
  -- The second of the two completing stores is no state of its own here.
  | putLen u a x =>
      have hphase := h.phase
      unfold Phase at hphase
      rw [hpc] at hphase
      exact hphase.elim
  | signal => exact ringInv_signal h hpc
  | done =>
      simp only [handlerStep_stay c.ram.mapper s.dev (Or.inl hpc)]
      exact h
  | fault =>
      have hphase := h.phase
      unfold Phase at hphase
      rw [hpc] at hphase
      exact hphase.elim

end

/-! ### Runs -/

theorem ringInv_driver {c : Ring} {s s' : RingSys} (h : RingInv c s)
    (hs : DriverStep c HeaderKept s s') : RingInv c s' := by
  cases hs with
  | stage ch hst hwf hroom => exact ringInv_stage ch h hst hwf hroom
  | publish r hst htype hsup hkept => exact ringInv_publish r h hst htype hsup hkept
  | fill g bs hin hoff hhdr => exact ringInv_fill g bs h hin hoff hhdr
  | reap hlt _ hused => exact ringInv_reap h hlt hused

theorem ringInv_step {c : Ring} {s s' : RingSys} (h : RingInv c s) (hs : Step c HeaderKept s s') :
    RingInv c s' := by
  cases hs with
  | driver hd => exact ringInv_driver h hd
  | notify hpc => exact ringInv_notify h hpc
  | device => exact ringInv_device h

theorem ringInv_run {c : Ring} {s s' : RingSys} (h : RingInv c s)
    (hr : Relation.ReflTransGen (Step c HeaderKept) s s') : RingInv c s' := by
  induction hr with
  | refl => exact h
  | tail _ hstep ih => exact ringInv_step ih hstep

/-! ### Single handler steps -/

theorem devStep_eq (mapper : Int → MemRegion) (s : Handler)
    (h : ∀ u d r, s.pc ≠ .putFlags u d r) : devStep mapper s = handlerStep mapper s := by
  unfold devStep
  split
  · rename_i hpc
    exact absurd hpc (h _ _ _)
  · rfl

theorem devStep_putFlags (mapper : Int → MemRegion) (s : Handler) (u d : Nat) (r : Int)
    (h : s.pc = .putFlags u d r) :
    devStep mapper s = handlerStep mapper (handlerStep mapper s) := by
  unfold devStep
  rw [h]

/-- A run of single steps is a run of device steps, except between the two
    completing stores. -/
theorem handlerRun_devStep (mapper : Int → MemRegion) (s : Handler)
    (hs : ∀ u d r, s.pc ≠ .putLen u d r) (k : Nat) :
    (∃ j, (devStep mapper)^[j] s = (handlerStep mapper)^[k] s ∧
      ∀ u d r, ((handlerStep mapper)^[k] s).pc ≠ .putLen u d r) ∨
    (∃ j u d r, ((devStep mapper)^[j] s).pc = .putFlags u d r ∧
      handlerStep mapper ((devStep mapper)^[j] s) = (handlerStep mapper)^[k] s) := by
  induction k with
  | zero => exact Or.inl ⟨0, rfl, hs⟩
  | succ k ih =>
      rw [Function.iterate_succ_apply']
      -- Either the runs agree, or the handler stands between the two stores.
      rcases ih with ⟨j, hj, hlen⟩ | ⟨j, u, d, r, hpc, hj⟩
      · by_cases hflags : ∃ u d r, ((handlerStep mapper)^[k] s).pc = .putFlags u d r
        · rcases hflags with ⟨u, d, r, hpc⟩
          exact Or.inr ⟨j, u, d, r, by rw [hj]; exact hpc, by rw [hj]⟩
        · have hnot : ∀ u d r, ((handlerStep mapper)^[k] s).pc ≠ .putFlags u d r :=
            fun u d r h => hflags ⟨u, d, r, h⟩
          refine Or.inl ⟨j + 1, ?_, fun u d r h => hnot u d r (handlerStep_toLen _ _ _ _ _ h)⟩
          rw [Function.iterate_succ_apply', hj, devStep_eq _ _ hnot]
      · refine Or.inl ⟨j + 1, ?_, fun u' d' r' h => ?_⟩
        · rw [Function.iterate_succ_apply', devStep_putFlags _ _ u d r hpc, hj]
        · rw [← hj, handlerStep_complete _ _ u d r hpc] at h
          simp only [reduceCtorEq] at h

theorem ringInv_devices {c : Ring} {s : RingSys} (h : RingInv c s) (k : Nat) :
    RingInv c { s with dev := (devStep c.ram.mapper)^[k] s.dev } := by
  induction k with
  | zero => exact h
  | succ k ih =>
      rw [Function.iterate_succ_apply']
      exact ringInv_device ih

/-- The invariant along single steps, wherever the device is not between the
    two completing stores. -/
theorem ringInv_handler {c : Ring} {s : RingSys} (h : RingInv c s) (k : Nat)
    (hk : ∀ u d r, ((handlerStep c.ram.mapper)^[k] s.dev).pc ≠ .putLen u d r) :
    RingInv c { s with dev := (handlerStep c.ram.mapper)^[k] s.dev } := by
  have hs : ∀ u d r, s.dev.pc ≠ .putLen u d r := by
    intro u d r hpc
    have hphase := h.phase
    unfold Phase at hphase
    rw [hpc] at hphase
    exact hphase
  rcases handlerRun_devStep c.ram.mapper s.dev hs k with ⟨j, hj, _⟩ | ⟨j, u, d, r, hpc, hj⟩
  · rw [← hj]
    exact ringInv_devices h j
  · exfalso
    refine hk u d r ?_
    rw [← hj, handlerStep, hpc]

/-- The invariant leaves no program point for the fault. -/
theorem RingInv.not_fault {c : Ring} {s : RingSys} (h : RingInv c s) : s.dev.pc ≠ .fault := by
  intro hpc
  have hphase := h.phase
  unfold Phase at hphase
  rw [hpc] at hphase
  exact hphase

theorem RingInv.log_prefix {c : Ring} {s : RingSys} (h : RingInv c s) :
    s.dev.log.map Completed.taken <+: layout c.n 0 s.published := by
  rw [h.log_eq, layout_take]
  exact List.take_prefix _ _

end Microv
