import Microv.Theory.RingDevice
import Mathlib.Logic.Function.Iterate

/-!
# Exactly-Once Consumption

Over any interleaving of a packed-ring driver with notifications, the device
consumes a prefix of what was published, chain by chain.

The record of completed requests is compared with `layout`, the published
chains as lists of descriptors with their slots. A prefix of that list of
lists says at once that no chain is executed twice or out of order, that no
stale descriptor is taken, and that no chain is cut at the wrong place, the
ones across the end of the ring included. The descriptors taken for the
request in progress extend the prefix the same way.

What the driver has to keep besides the ring protocol is the headers: the
device reads a header when it takes the chain, not when the chain is
published, and a read executed before that may have been given a data buffer
on top of it. `split_by_overlap` is such a run. The overwritten header says a
type without a data descriptor, the device takes two descriptors of the three
and goes on from the third as if a chain began there.

## Main definitions

* `Handler.consumed`: Every descriptor taken, in the order they were taken.

## Theorems

* `layout_flatten`: The layout of a sequence of chains, flattened.
* `consumed_prefix`: The device's record is a prefix of what was published.
* `split_by_overlap`: Without the discipline on headers it need not be.
-/

namespace Microv

/-- Every descriptor taken, in the order they were taken. -/
def Handler.consumed (s : Handler) : List Taken :=
  (s.log.map Completed.taken).flatten ++ s.taken

theorem layout_flatten (n p : Nat) (rs : List Request) :
    (layout n p rs).flatten = takenFrom n p (flatDescs rs) := by
  induction rs generalizing p with
  | nil => rfl
  | cons r rs ih =>
      rw [layout, List.flatten_cons, ih, flatDescs_cons, takenFrom_append]

theorem takenFrom_prefix (n p : Nat) (ds ds' : List VringPackedDesc) (h : ds <+: ds') :
    takenFrom n p ds <+: takenFrom n p ds' := by
  rcases h with ⟨t, rfl⟩
  rw [takenFrom_append]
  exact List.prefix_append _ _

/-- The request in progress has taken the first descriptors of the next
    chain. -/
theorem RingInv.taken_eq {c : Ring} {s : RingSys} (h : RingInv c s) :
    s.dev.taken = [] ∨ ∃ r j, s.published[s.dev.log.length]? = some r ∧
      s.dev.taken = takenFrom c.n (startOf s.published s.dev.log.length) (r.descs.take j) := by
  have hphase := h.phase
  unfold Phase at hphase
  cases hpc : s.dev.pc <;> rw [hpc] at hphase <;> simp only at hphase
  case getHead | signal | done => exact Or.inl hphase.2
  case copyHeader | getStatus =>
    rcases hphase with ⟨r, hm⟩
    exact Or.inr ⟨r, _, hm.1, hm.2.2.2⟩
  case getData | transfer | putStatus | putFlags =>
    rcases hphase with ⟨r, hm, -⟩
    exact Or.inr ⟨r, _, hm.1, hm.2.2.2⟩

theorem RingInv.consumed_prefix {c : Ring} {s : RingSys} (h : RingInv c s) :
    s.dev.consumed <+: takenFrom c.n 0 (flatDescs s.published) := by
  have hlog : (s.dev.log.map Completed.taken).flatten
      = takenFrom c.n 0 (flatDescs (s.published.take s.dev.log.length)) := by
    rw [h.log_eq, layout_flatten]
  rw [Handler.consumed, hlog]
  -- Between chains nothing is taken; inside one, its first descriptors are.
  rcases h.taken_eq with hnil | ⟨r, j, hr, htaken⟩
  · rw [hnil, List.append_nil]
    refine takenFrom_prefix _ _ _ _ ?_
    conv_rhs => rw [← List.take_append_drop s.dev.log.length s.published, flatDescs_append]
    exact List.prefix_append _ _
  · rw [htaken, startOf, ← Nat.zero_add (flatDescs _).length, ← takenFrom_append]
    refine takenFrom_prefix _ _ _ _ ?_
    have hlt : s.dev.log.length < s.published.length := (List.getElem?_eq_some_iff.mp hr).1
    have hget : s.published[s.dev.log.length] = r := (List.getElem?_eq_some_iff.mp hr).2
    conv_rhs => rw [← List.take_append_drop s.dev.log.length s.published, flatDescs_append,
      ← List.getElem_cons_drop hlt, hget, flatDescs_cons]
    exact List.prefix_append_right_inj _ |>.mpr
      ((List.take_prefix _ _).trans (List.prefix_append _ _))

/-- Over every interleaving, what the device has executed is a prefix of what
    the driver published, descriptor by descriptor and chain by chain, and it
    never runs off a chain. -/
theorem consumed_prefix_of_published (c : Ring) (s₀ s : RingSys) (h0 : s₀.Initial c)
    (hrun : Relation.ReflTransGen (Step c HeaderKept) s₀ s) :
    s.dev.log.map Completed.taken <+: layout c.n 0 s.published ∧
      s.dev.consumed <+: takenFrom c.n 0 (flatDescs s.published) ∧ s.dev.pc ≠ .fault := by
  have h := ringInv_run (ringInv_initial c s₀ h0) hrun
  exact ⟨h.log_prefix, h.consumed_prefix, h.not_fault⟩

/-! ### Runs of a small guest -/

/-- The driver's two steps for one chain. -/
def RingSys.put (c : Ring) (s : RingSys) (r : Request) : RingSys :=
  { s.setMem ((putDescs c.vq s.dev.mem (s.tail + 1) r.descs.tail).write (c.vq.slot s.tail)
      r.hdr.bytes) with
    published := s.published ++ [r], staged := none }

theorem reach_put {c : Ring} {G : RingSys → Request → Prop} {s : RingSys} (r : Request)
    (hst : s.staged = none) (hwf : r.toChain.Wf c s.tail)
    (hroom : s.tail + r.descs.length ≤ s.head + c.n)
    (htype : r.type
      = hdrTypeIn c (putDescs c.vq s.dev.mem (s.tail + 1) r.descs.tail) r.toChain)
    (hsup : r.Supported)
    (hG : G { s.setMem (putDescs c.vq s.dev.mem (s.tail + 1) r.descs.tail) with
      staged := some r.toChain } r) :
    Relation.ReflTransGen (DriverStep c G) s (s.put c r) :=
  (Relation.ReflTransGen.single (DriverStep.stage s r.toChain hst hwf hroom)).tail
    (DriverStep.publish _ r rfl htype hsup hG)

theorem reach_devices {c : Ring} {G : RingSys → Request → Prop} (s : RingSys) (k : Nat) :
    Relation.ReflTransGen (Step c G) s
      { s with dev := (devStep c.ram.mapper)^[k] s.dev } := by
  induction k with
  | zero => exact Relation.ReflTransGen.refl
  | succ k ih =>
      rw [Function.iterate_succ_apply']
      exact ih.tail (Step.device _)

/-- A read of sixteen bytes, published on the first lap. -/
def readChain (hdr data status : Nat) : Request :=
  { hdr := ⟨hdr, 16, 0, 0x81⟩, data := [⟨data, 16, 0, 0x83⟩], status := ⟨status, 1, 0, 0x82⟩,
    type := blkTIn }

/-- A disk whose first bytes read as a request type without data. -/
def sampleDisk : Diskimg :=
  ⟨⟨fun x => if x = 0 then 8 else 0, 512⟩, 512⟩

/-- The guest before it publishes, its memory zero. -/
def sampleSys : RingSys :=
  { dev :=
      { vq := sampleRing.vq.atPos 0, mem := fun _ => 0, img := sampleDisk, isrStatus := 0,
        irqs := 0, req := fun _ => 0, pc := .done, taken := [], log := [] },
    published := [], staged := none, reaped := 0 }

theorem sampleSys_initial : sampleSys.Initial sampleRing := by
  refine ⟨rfl, rfl, rfl, rfl, rfl, rfl, rfl, fun q _ => ?_⟩
  change looksAvail _ 0 = false
  cases wrapAt sampleRing.n q <;> rfl

/-- Two reads are published; the second has its header at `g`. -/
def twoReads (g : Nat) : RingSys :=
  (sampleSys.put sampleRing (readChain 0x2000 0x3000 0x4000)).put sampleRing
    (readChain g 0x5000 0x4001)

/-- The two reads after a notification and `k` device steps. -/
def twoReadsAfter (g k : Nat) : RingSys :=
  { twoReads g with dev := (devStep sampleMapper)^[k] (virtqNotify (twoReads g).dev) }

theorem reach_twoReads (G : RingSys → Request → Prop) (g : Nat)
    (hfirst : ∀ s, s.published = [] → G s (readChain 0x2000 0x3000 0x4000))
    (hwf : (readChain g 0x5000 0x4001).toChain.Wf sampleRing 3)
    (htype : hdrTypeIn sampleRing (putDescs sampleRing.vq
      (sampleSys.put sampleRing (readChain 0x2000 0x3000 0x4000)).dev.mem 4
      (readChain g 0x5000 0x4001).descs.tail) (readChain g 0x5000 0x4001).toChain = blkTIn)
    (hsecond : ∀ s, s.published = [readChain 0x2000 0x3000 0x4000] → s.dev.log = [] →
      G s (readChain g 0x5000 0x4001)) :
    Relation.ReflTransGen (DriverStep sampleRing G) sampleSys (twoReads g) := by
  refine (reach_put _ rfl ⟨by decide, by decide, rfl, by decide, by decide, by decide⟩ (by decide)
    (by decide +kernel) (by decide) (hfirst _ rfl)).trans ?_
  exact reach_put _ rfl hwf (show 3 + 3 ≤ 0 + 128 by decide) htype.symm rfl (hsecond _ rfl rfl)

theorem twoReads_reaches {G : RingSys → Request → Prop} (g k : Nat)
    (hput : Relation.ReflTransGen (DriverStep sampleRing G) sampleSys (twoReads g)) :
    Relation.ReflTransGen (Step sampleRing G) sampleSys (twoReadsAfter g k) := by
  have hdriver : Relation.ReflTransGen (Step sampleRing G) sampleSys (twoReads g) :=
    hput.lift id (fun _ _ h => Step.driver h)
  exact (hdriver.tail (Step.notify _ rfl)).trans (reach_devices _ k)

/-- Two reads with separate buffers, run until the handler returns. -/
theorem consumed_prefix_of_published_twoReads :
    ((twoReadsAfter 0x6000 20).dev.log.map Completed.taken
        <+: layout sampleRing.n 0 (twoReadsAfter 0x6000 20).published ∧
      (twoReadsAfter 0x6000 20).dev.consumed
        <+: takenFrom sampleRing.n 0 (flatDescs (twoReadsAfter 0x6000 20).published) ∧
      (twoReadsAfter 0x6000 20).dev.pc ≠ .fault) ∧
    (twoReadsAfter 0x6000 20).dev.log.length = 2 :=
  ⟨consumed_prefix_of_published sampleRing sampleSys _ sampleSys_initial
    (twoReads_reaches 0x6000 20 (reach_twoReads HeaderKept 0x6000
      (fun s hs => by rw [HeaderKept, hs]; simp only [List.drop_nil, List.not_mem_nil,
        false_implies, implies_true])
      ⟨by decide, by decide, rfl, by decide, by decide, by decide⟩ (by decide +kernel)
      (fun s hs hr => by rw [HeaderKept, hs, hr]; decide))),
    by decide +kernel⟩

/-- The first read's data buffer lies on the second chain's header. The device
    then executes two descriptors of that chain, which is no prefix of what
    was published. -/
theorem split_by_overlap :
    sampleSys.Initial sampleRing ∧
    ∃ s, Relation.ReflTransGen (Step sampleRing fun _ _ => True) sampleSys s ∧
      ¬ s.dev.log.map Completed.taken <+: layout sampleRing.n 0 s.published :=
  ⟨sampleSys_initial, twoReadsAfter 0x3000 12,
    twoReads_reaches 0x3000 12 (reach_twoReads _ 0x3000 (fun _ _ => trivial)
      ⟨by decide, by decide, rfl, by decide, by decide, by decide⟩ (by decide +kernel)
      (fun _ _ _ => trivial)),
    by decide +kernel⟩

end Microv
