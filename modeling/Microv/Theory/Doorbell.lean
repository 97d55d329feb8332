import Microv.Core.Ioeventfd
import Microv.Theory.Consumption

/-!
# No Lost Doorbell

The ring, its driver and the I/O thread together.

Several doorbells collapse into one `read`, and a chain may be published at
any point of the callback, so nothing counts doorbells against requests. What
carries the argument is the order of two actions: the thread zeroes the
counter first and looks at the ring afterwards. A chain whose doorbell was
rung before the `read` is in the ring when the callback starts, and the
callback stops only at an empty ring; a doorbell rung after the `read` leaves
the counter above zero. So once the callback has seen an empty ring, either
every chain rung for is executed or the counter says otherwise
(`BellInv.drained`).

## Main definitions

* `Bell`: The event, with the number of chains rung for.
* `blkThread`: The I/O thread, with the block device as its callback.
* `BellStep`: One step of the driver, a doorbell, or a thread step.
* `BellInv`: The invariant of the interleavings.

## Theorems

* `devStep_idle`: The callback comes to its end only at an empty ring.
* `bellInv_run`: The invariant holds along every run.
* `no_lost_doorbell`: At rest, every chain rung for is executed.
* `doorbell_lost_by_overlap`: Without the discipline on headers one may be
  left behind.
-/

namespace Microv

/-- The queue's event over the ring system. `rung` is how many chains were
    published when the doorbell last rang. -/
structure Bell extends Ioevent RingSys where
  rung : Nat

/-- The I/O thread, with `virtio_pci_ioevent_callback` as the function. -/
def blkThread (c : Ring) : Ioevent RingSys → Option (Ioevent RingSys) :=
  ioeventfdThread (fun s => { s with dev := virtqNotify s.dev })
    (fun s => { s with dev := devStep c.ram.mapper s.dev }) (fun s => s.dev.pc == .done)

/-- One step of the driver, a doorbell, or a step of the I/O thread. -/
inductive BellStep (c : Ring) (G : RingSys → Request → Prop) : Bell → Bell → Prop where
  | driver (b : Bell) (s : RingSys) :
      DriverStep c G b.state s → BellStep c G b { b with state := s }
  | doorbell (b : Bell) :
      BellStep c G b ⟨b.toIoevent.ring, b.state.published.length⟩
  | thread (b : Bell) (e : Ioevent RingSys) :
      blkThread c b.toIoevent = some e → BellStep c G b { b with toIoevent := e }

/-- Before anything is published: the thread waits, nothing was rung. -/
structure Bell.Initial (c : Ring) (b : Bell) : Prop where
  state : b.state.Initial c
  counter : b.counter = 0
  thread : b.thread = .wait
  rung : b.rung = 0

/-- The callback is past its last look at the ring, or the thread is back in
    `epoll_wait`. -/
def Bell.AtRest (b : Bell) : Prop :=
  b.thread = .wait ∨ (b.thread = .callback ∧ (b.state.dev.pc = .signal ∨ b.state.dev.pc = .done))

/-- The invariant of the interleavings. -/
structure BellInv (c : Ring) (b : Bell) : Prop where
  ring : RingInv c b.state
  rung_le : b.rung ≤ b.state.published.length
  -- The device is entered by the thread only.
  outside : b.thread ≠ .callback → b.state.dev.pc = .done
  drained : b.counter = 0 → b.AtRest → b.rung ≤ b.state.dev.log.length

/-- A driver step moves neither the device nor its record. -/
theorem driverStep_dev {c : Ring} {G : RingSys → Request → Prop} {s s' : RingSys}
    (h : DriverStep c G s s') :
    s'.dev.pc = s.dev.pc ∧ s'.dev.log = s.dev.log ∧
      s.published.length ≤ s'.published.length := by
  cases h with
  | stage ch =>
      exact ⟨RingSys.setMem_pc s _, RingSys.setMem_log s _, le_refl _⟩
  | publish r =>
      refine ⟨RingSys.setMem_pc s _, RingSys.setMem_log s _, ?_⟩
      simp only [List.length_append, List.length_singleton]
      omega
  | fill g bs =>
      refine ⟨RingSys.setMem_pc s _, RingSys.setMem_log s _, ?_⟩
      rw [RingSys.setMem_published]
  | reap => exact ⟨rfl, rfl, le_refl _⟩

/-- Inside a request no step drops what was taken for it. -/
theorem handlerStep_taken (mapper : Int → MemRegion) (s : Handler) (h : s.taken ≠ [])
    (hhead : s.pc ≠ .getHead) (hlen : ∀ u d r, s.pc ≠ .putLen u d r) :
    (handlerStep mapper s).taken ≠ [] := by
  -- What was taken stays, and more may come.
  have happ : ∀ d, s.taken ++ [s.takes d] ≠ [] :=
    fun d => List.append_ne_nil_of_left_ne_nil h _
  have hmove := handlerStep_move mapper s
  generalize handlerStep mapper s = s' at hmove
  cases hmove with
  | takeHead _ hpc => exact absurd hpc hhead
  | putLen u d r _ hpc => exact absurd hpc (hlen u d r)
  | takeData | takeStatus => exact happ _
  | _ => exact h

theorem Mid.taken_ne_nil {c : Ring} {s : RingSys} {r : Request} {j u : Nat}
    (hm : Mid c s r (j + 1) u) : s.dev.taken ≠ [] := by
  rw [hm.2.2.2, Chain.descs, List.take_succ_cons, takenFrom]
  exact List.cons_ne_nil _ _

/-- At rest nothing is taken. -/
theorem RingInv.taken_nil {c : Ring} {s : RingSys} (h : RingInv c s)
    (hrest : s.dev.pc = .signal ∨ s.dev.pc = .done) : s.dev.taken = [] := by
  have hphase := h.phase
  unfold Phase at hphase
  rcases hrest with hr | hr
  · rw [hr] at hphase
    exact hphase.2
  · rw [hr] at hphase
    exact hphase.2

/-- Inside a request something is taken, except where it is completed. -/
theorem RingInv.taken_ne_nil {c : Ring} {s : RingSys} (h : RingInv c s)
    (h1 : s.dev.pc ≠ .getHead) (h2 : s.dev.pc ≠ .signal) (h3 : s.dev.pc ≠ .done) :
    s.dev.taken ≠ [] := by
  have hphase := h.phase
  unfold Phase at hphase
  cases hpc : s.dev.pc <;> rw [hpc] at hphase <;> simp only at hphase
  case getHead => exact absurd hpc h1
  case signal => exact absurd hpc h2
  case done => exact absurd hpc h3
  case copyHeader | getStatus =>
    rcases hphase with ⟨r, hm⟩
    exact hm.taken_ne_nil
  case getData | transfer | putStatus | putFlags =>
    rcases hphase with ⟨r, hm, -⟩
    exact hm.taken_ne_nil

/-- The device comes to rest only from rest, or from the loop condition at an
    empty ring. -/
theorem devStep_idle {c : Ring} {s : RingSys} (h : RingInv c s)
    (hrest : (devStep c.ram.mapper s.dev).pc = .signal ∨ (devStep c.ram.mapper s.dev).pc = .done) :
    (devStep c.ram.mapper s.dev).log = s.dev.log ∧
      (s.dev.pc = .signal ∨ s.dev.pc = .done ∨ s.dev.log.length = s.published.length) := by
  have hafter : (devStep c.ram.mapper s.dev).taken = [] := (ringInv_device h).taken_nil hrest
  by_cases hflags : ∃ u d x, s.dev.pc = .putFlags u d x
  · -- Completing a request leads back to the loop condition.
    rcases hflags with ⟨u, d, x, hpc⟩
    rw [devStep_putFlags _ _ u d x hpc, handlerStep_complete _ _ u d x hpc] at hrest
    simp only [reduceCtorEq, or_self] at hrest
  · have hstep := devStep_eq c.ram.mapper s.dev (fun u d x hpc => hflags ⟨u, d, x, hpc⟩)
    rw [hstep] at hrest hafter ⊢
    by_cases hhead : s.dev.pc = .getHead
    · have hphase := h.phase
      unfold Phase at hphase
      rw [hhead] at hphase
      rcases Nat.lt_or_ge s.dev.log.length s.published.length with hlt | hge
      · have hr : s.published[s.dev.log.length]? = some s.published[s.dev.log.length] :=
          List.getElem?_eq_getElem hlt
        have hav := h.getAvail_some _ _ (le_refl _) (flatDescs_start _ _ _ hr) hphase.1
        rw [handlerStep_getHead _ _ _ _ hhead hav.1] at hrest
        simp only [reduceCtorEq, or_self] at hrest
      · have heq : s.dev.log.length = s.published.length := Nat.le_antisymm h.log_le hge
        have hav := h.getAvail_none (by rw [hphase.1, heq, startOf_length, RingSys.tail])
        rw [handlerStep_idle _ _ _ hhead hav]
        exact ⟨rfl, Or.inr (Or.inr heq)⟩
    · by_cases hsig : s.dev.pc = .signal
      · refine ⟨?_, Or.inl hsig⟩
        rw [handlerStep_signal _ _ hsig]
        split <;> rfl
      · by_cases hdone : s.dev.pc = .done
        · rw [handlerStep_stay c.ram.mapper s.dev (Or.inl hdone)]
          exact ⟨rfl, Or.inr (Or.inl hdone)⟩
        · -- Inside a request the record of what was taken would be lost.
          have hne := h.taken_ne_nil hhead hsig hdone
          have hlen : ∀ u d r, s.dev.pc ≠ .putLen u d r := by
            intro u d r hpc
            have hphase := h.phase
            unfold Phase at hphase
            rw [hpc] at hphase
            exact hphase
          exact absurd hafter (handlerStep_taken c.ram.mapper s.dev hne hhead hlen)

theorem bellInv_initial (c : Ring) (b : Bell) (h : b.Initial c) : BellInv c b := by
  refine ⟨ringInv_initial c b.state h.state, ?_, fun _ => h.state.pc, fun _ _ => ?_⟩
  · rw [h.rung]
    exact Nat.zero_le _
  · rw [h.rung]
    exact Nat.zero_le _

/-- What one thread step can be. -/
theorem blkThread_cases {c : Ring} {e e' : Ioevent RingSys} (h : blkThread c e = some e') :
    (e.thread = .wait ∧ e.counter ≠ 0 ∧ e' = { e with thread := .read }) ∨
    (e.thread = .read ∧ e' = { e with counter := 0, thread := .call }) ∨
    (e.thread = .call ∧ e' = { e with
      state := { e.state with dev := virtqNotify e.state.dev }, thread := .callback }) ∨
    (e.thread = .callback ∧ e.state.dev.pc = .done ∧ e' = { e with thread := .wait }) ∨
    (e.thread = .callback ∧ e' = { e with
      state := { e.state with dev := devStep c.ram.mapper e.state.dev } }) := by
  unfold blkThread ioeventfdThread at h
  -- The thread is at one of its four places.
  cases ht : e.thread with
  | wait =>
      simp only [ht] at h
      split_ifs at h with hz
      exact Or.inl ⟨rfl, hz, (Option.some.inj h).symm⟩
  | read =>
      simp only [ht] at h
      split_ifs at h with hz
      exact Or.inr (Or.inl ⟨rfl, (Option.some.inj h).symm⟩)
  | call =>
      simp only [ht] at h
      exact Or.inr (Or.inr (Or.inl ⟨rfl, (Option.some.inj h).symm⟩))
  | callback =>
      simp only [ht] at h
      split_ifs at h with hret
      · exact Or.inr (Or.inr (Or.inr (Or.inl ⟨rfl, by simpa using hret,
          (Option.some.inj h).symm⟩)))
      · exact Or.inr (Or.inr (Or.inr (Or.inr ⟨rfl, (Option.some.inj h).symm⟩)))

theorem bellInv_thread {c : Ring} {b : Bell} {e : Ioevent RingSys} (h : BellInv c b)
    (hs : blkThread c b.toIoevent = some e) : BellInv c { b with toIoevent := e } := by
  rcases blkThread_cases hs with ⟨ht, _, rfl⟩ | ⟨ht, rfl⟩ | ⟨ht, rfl⟩ | ⟨ht, hpc, rfl⟩ | ⟨ht, rfl⟩
  · refine ⟨h.ring, h.rung_le, fun _ => h.outside (by rw [ht]; decide), ?_⟩
    rintro _ (hw | ⟨hw, _⟩)
    · simp only [reduceCtorEq] at hw
    · simp only [reduceCtorEq] at hw
  · -- The counter is zeroed before the ring is looked at.
    refine ⟨h.ring, h.rung_le, fun _ => h.outside (by rw [ht]; decide), ?_⟩
    rintro _ (hw | ⟨hw, _⟩)
    · simp only [reduceCtorEq] at hw
    · simp only [reduceCtorEq] at hw
  · have hdone := h.outside (by rw [ht]; decide)
    refine ⟨ringInv_notify h.ring hdone, h.rung_le, fun hne => absurd rfl hne, ?_⟩
    have hpc : (virtqNotify b.state.dev).pc = .getHead := by
      rw [h.ring.notify_eq hdone]
    rintro _ (hw | ⟨_, hw | hw⟩)
    · simp only [reduceCtorEq] at hw
    · exact absurd (hpc.symm.trans hw) (by decide)
    · exact absurd (hpc.symm.trans hw) (by decide)
  · exact ⟨h.ring, h.rung_le, fun _ => hpc, fun hz _ =>
      h.drained hz (Or.inr ⟨ht, Or.inr hpc⟩)⟩
  · refine ⟨ringInv_device h.ring, h.rung_le, fun hne => absurd ht hne, fun hz hrest => ?_⟩
    have hpc : (devStep c.ram.mapper b.state.dev).pc = .signal ∨
        (devStep c.ram.mapper b.state.dev).pc = .done := by
      rcases hrest with hw | ⟨_, hw⟩
      · exact absurd (ht.symm.trans hw) (by decide)
      · exact hw
    rcases devStep_idle h.ring hpc with ⟨hlog, hfrom⟩
    have hsame : b.rung ≤ b.state.dev.log.length := by
      rcases hfrom with hsig | hdone | hempty
      · exact h.drained hz (Or.inr ⟨ht, Or.inl hsig⟩)
      · exact h.drained hz (Or.inr ⟨ht, Or.inr hdone⟩)
      · rw [hempty]
        exact h.rung_le
    change b.rung ≤ (devStep c.ram.mapper b.state.dev).log.length
    rw [hlog]
    exact hsame

theorem bellInv_step {c : Ring} {b b' : Bell} (h : BellInv c b)
    (hs : BellStep c HeaderKept b b') : BellInv c b' := by
  cases hs with
  | driver s hd =>
      rcases driverStep_dev hd with ⟨hpc, hlog, hpub⟩
      refine ⟨ringInv_driver h.ring hd, Nat.le_trans h.rung_le hpub, fun hne => ?_,
        fun hz hrest => ?_⟩
      · exact hpc.trans (h.outside hne)
      · change b.rung ≤ s.dev.log.length
        rw [hlog]
        refine h.drained hz ?_
        unfold Bell.AtRest at *
        rw [← hpc]
        exact hrest
  | doorbell =>
      -- The counter is above zero until the thread reads it.
      exact ⟨h.ring, le_refl _, h.outside, fun hz => absurd hz (Nat.succ_ne_zero _)⟩
  | thread e he => exact bellInv_thread h he

theorem bellInv_run {c : Ring} {b b' : Bell} (h : BellInv c b)
    (hr : Relation.ReflTransGen (BellStep c HeaderKept) b b') : BellInv c b' := by
  induction hr with
  | refl => exact h
  | tail _ hstep ih => exact bellInv_step ih hstep

/-- In every state where the counter is zero and the thread is back in
    `epoll_wait`, the device has executed every chain whose doorbell was
    rung. -/
theorem no_lost_doorbell (c : Ring) (b₀ b : Bell) (h0 : b₀.Initial c)
    (hrun : Relation.ReflTransGen (BellStep c HeaderKept) b₀ b) (hcounter : b.counter = 0)
    (hthread : b.thread = .wait) :
    (layout c.n 0 b.state.published).take b.rung <+: b.state.dev.log.map Completed.taken := by
  have h := bellInv_run (bellInv_initial c b₀ h0) hrun
  have hle := h.drained hcounter (Or.inl hthread)
  rw [h.ring.log_eq, layout_take]
  exact List.take_prefix_take_left hle

/-! ### Runs of a small guest -/

theorem reach_driver {c : Ring} {G : RingSys → Request → Prop} (b : Bell) (s : RingSys)
    (h : Relation.ReflTransGen (DriverStep c G) b.state s) :
    Relation.ReflTransGen (BellStep c G) b { b with state := s } := by
  induction h with
  | refl => exact Relation.ReflTransGen.refl
  | tail _ hstep ih => exact ih.tail (BellStep.driver _ _ hstep)

/-- The system after `k` thread steps; a blocked thread stays where it is. -/
def Bell.after (c : Ring) (b : Bell) (k : Nat) : Bell :=
  { b with toIoevent := (fun e => (blkThread c e).getD e)^[k] b.toIoevent }

theorem reach_thread {c : Ring} {G : RingSys → Request → Prop} (b : Bell) (k : Nat) :
    Relation.ReflTransGen (BellStep c G) b (b.after c k) := by
  unfold Bell.after
  induction k with
  | zero => exact Relation.ReflTransGen.refl
  | succ k ih =>
      rw [Function.iterate_succ_apply']
      generalize (fun e => (blkThread c e).getD e)^[k] b.toIoevent = e at ih ⊢
      cases hs : blkThread c e with
      | none => exact ih
      | some e' => exact ih.tail (BellStep.thread _ e' hs)

/-- The small guest with its thread waiting. -/
def sampleBell : Bell :=
  { counter := 0, thread := .wait, state := sampleSys, rung := 0 }

/-- Three reads are published, the second with its header at `g`, and then the
    doorbell is rung once. -/
def threeReads (g : Nat) : Bell :=
  { counter := 1, thread := .wait, rung := 3,
    state := (twoReads g).put sampleRing (readChain 0x6000 0x7000 0x4002) }

theorem reach_threeReads {G : RingSys → Request → Prop} (g : Nat)
    (htwo : Relation.ReflTransGen (DriverStep sampleRing G) sampleSys (twoReads g))
    (htype : hdrTypeIn sampleRing (putDescs sampleRing.vq (twoReads g).dev.mem 7
      (readChain 0x6000 0x7000 0x4002).descs.tail) (readChain 0x6000 0x7000 0x4002).toChain
        = blkTIn)
    (hthird : ∀ s, s.published = [readChain 0x2000 0x3000 0x4000, readChain g 0x5000 0x4001] →
      s.dev.log = [] → G s (readChain 0x6000 0x7000 0x4002)) :
    Relation.ReflTransGen (BellStep sampleRing G) sampleBell (threeReads g) := by
  have hwf : (readChain 0x6000 0x7000 0x4002).toChain.Wf sampleRing 6 :=
    ⟨by decide, by decide, rfl, by decide, by decide, by decide⟩
  have hput := htwo.trans (reach_put (readChain 0x6000 0x7000 0x4002) rfl hwf
    (show 6 + 3 ≤ 0 + 128 by decide) htype.symm rfl (hthird _ rfl rfl))
  exact (reach_driver sampleBell _ hput).tail (BellStep.doorbell _)

/-- Three reads with separate buffers and one doorbell, until the thread is
    back at rest. -/
theorem no_lost_doorbell_threeReads :
    ((threeReads 0x8000).after sampleRing 40).counter = 0 ∧
    ((threeReads 0x8000).after sampleRing 40).thread = .wait ∧
    (layout sampleRing.n 0 ((threeReads 0x8000).after sampleRing 40).state.published).take
        ((threeReads 0x8000).after sampleRing 40).rung
      <+: ((threeReads 0x8000).after sampleRing 40).state.dev.log.map Completed.taken := by
  have htwo : Relation.ReflTransGen (DriverStep sampleRing HeaderKept) sampleSys
      (twoReads 0x8000) :=
    reach_twoReads HeaderKept 0x8000
      (fun s hs => by rw [HeaderKept, hs]; simp only [List.drop_nil, List.not_mem_nil,
        false_implies, implies_true])
      ⟨by decide, by decide, rfl, by decide, by decide, by decide⟩ (by decide +kernel)
      (fun s hs hl => by rw [HeaderKept, hs, hl]; decide)
  have hthree := reach_threeReads 0x8000 htwo (by decide +kernel)
    (fun s hs hl => by rw [HeaderKept, hs, hl]; decide)
  -- Forty steps of the thread are enough to return to `epoll_wait`.
  have hrest : ((threeReads 0x8000).after sampleRing 40).counter = 0 ∧
      ((threeReads 0x8000).after sampleRing 40).thread = .wait := by
    decide +kernel
  exact ⟨hrest.1, hrest.2, no_lost_doorbell sampleRing sampleBell _
    ⟨sampleSys_initial, rfl, rfl, rfl⟩ (hthree.trans (reach_thread _ 40)) hrest.1 hrest.2⟩

/-- The first read's data buffer lies on the second chain's header. The device
    cuts that chain short, takes its last descriptor for a request it cannot
    follow, and returns: the thread waits on a counter of zero with the third
    chain, whose doorbell was rung, still in the ring. -/
theorem doorbell_lost_by_overlap :
    sampleBell.Initial sampleRing ∧
    ∃ b, Relation.ReflTransGen (BellStep sampleRing fun _ _ => True) sampleBell b ∧
      b.counter = 0 ∧ b.thread = .wait ∧ b.state.dev.log.length < b.rung ∧
      ¬ (layout sampleRing.n 0 b.state.published).take b.rung
        <+: b.state.dev.log.map Completed.taken := by
  have htwo : Relation.ReflTransGen (DriverStep sampleRing fun _ _ => True) sampleSys
      (twoReads 0x3000) :=
    reach_twoReads _ 0x3000 (fun _ _ => trivial)
      ⟨by decide, by decide, rfl, by decide, by decide, by decide⟩ (by decide +kernel)
      (fun _ _ _ => trivial)
  have hthree := reach_threeReads 0x3000 htwo (by decide +kernel) (fun _ _ _ => trivial)
  exact ⟨⟨sampleSys_initial, rfl, rfl, rfl⟩, (threeReads 0x3000).after sampleRing 40,
    hthree.trans (reach_thread _ 40), by decide +kernel⟩

end Microv
