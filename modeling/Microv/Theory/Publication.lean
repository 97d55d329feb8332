import Microv.Theory.Drain

/-!
# Publishing a Request

What a driver may rely on when it sees a descriptor used.

The handler stores the data, the status byte, the head's flags and the head's
length, in that order, and each store is a step of its own. A driver's reads
change nothing, so what it can observe, in any interleaving, is the memory
between two steps. The flags are what it waits for, and they are not the last
store: in between there is a state in which the head reads as used and its
length is still the one the driver put there.

The value a location will have in the end is said with the machine itself: it is
final when the steps left of its request do not change it, so a request that is
over is final anyway and the one in service is what counts. As long as no store
of a request lands on the flags of its own head, every head that reads as used
is final exactly when the length the driver put there is the one the handler is
going to store.

## Main definitions

* `HandlerPc.head`: The head of the request in service.
* `seesUsed`: A driver takes the head for used.
* `Handler.answer`: The data buffer and the status byte of the request.
* `Handler.Final`: The rest of the request leaves a range as it is.
* `PublishedLast`: A head seen used has its answer and its length.
* `Handler.LenReady`: The length is there before the flags are.

## Theorems

* `handlerStep_head`: How a request comes to its next point.
* `Handler.Served.step`: What a driver sees of a request, step by step.
* `Handler.final_putLen`: Final, between the two stores in the head.
* `published_last_iff`: When a request is published last.
-/

namespace Microv

/-- The head of the request in service. -/
def HandlerPc.head : HandlerPc → Option Nat
  | copyHeader u | getData u | getStatus u _ _ | transfer u _ | putStatus u _ _ _
  | putFlags u _ _ | putLen u _ _ => some u
  | getHead | signal | done | fault => none

/-- The head the next step marks used, and the length to be stored in it. -/
def HandlerPc.marking : HandlerPc → Option (Nat × Int)
  | putFlags u _ r => some (u, r)
  | _ => none

theorem HandlerPc.marking_eq (pc : HandlerPc) (u : Nat) (r : Int) :
    pc.marking = some (u, r) ↔ ∃ d, pc = .putFlags u d r := by
  constructor
  · intro h
    cases pc with
    | putFlags v d q =>
        obtain ⟨rfl, rfl⟩ := Prod.mk.inj (Option.some.inj h)
        exact ⟨d, rfl⟩
    | _ => exact absurd h.symm (Option.some_ne_none _)
  · rintro ⟨d, rfl⟩
    rfl

/-- A driver that reads the flags of the head at `u` takes it for used. -/
def seesUsed (m : ByteMem) (u : Nat) : Bool :=
  (VringPackedDesc.flagsAt m u).testBit descUsedBit
    == (VringPackedDesc.flagsAt m u).testBit descAvailBit

namespace Handler

variable (mapper : Int → MemRegion) (s : Handler)

/-- The data buffer and the status byte of the request in service, as far as
    their descriptors are taken. A request that is no transfer has no data. -/
def answer : List (Nat × Nat) :=
  match s.taken with
  | [_, dat, st] =>
      [(getUserspaceAddr mapper dat.desc.addr, dat.desc.len),
        (getUserspaceAddr mapper st.desc.addr, 1)]
  | [_, e] =>
      [(getUserspaceAddr mapper e.desc.addr, if isTransfer s.hdrType then e.desc.len else 1)]
  | _ => []

/-- The steps left of the request in service leave the `k` bytes at `a`. -/
def Final (a k : Nat) : Prop :=
  ∀ j, (∀ i, i < j → ((handlerStep mapper)^[i] s).pc.head.isSome = true) →
    ((handlerStep mapper)^[j] s).mem.read a k = s.mem.read a k

/-- The length the handler is about to store is in the head when it is marked
    used. -/
def LenReady : Prop :=
  ∀ e ∈ s.pc.marking, VringPackedDesc.lenAt s.mem e.1 = (e.2 % 2 ^ 32).toNat

/-- No data or status byte is stored on the flags of the head in service. -/
def SparesFlags : Prop :=
  ∀ u ∈ s.pc.head, Apart (s.stored mapper).1 (s.stored mapper).2 (u + 14) 2

instance : Decidable s.LenReady :=
  inferInstanceAs (Decidable (∀ e ∈ s.pc.marking, _ = _))

instance : Decidable (s.SparesFlags mapper) :=
  inferInstanceAs (Decidable (∀ u ∈ s.pc.head, Apart _ _ _ _))

end Handler

/-- If a driver sees the head in service used, the data buffer, the status byte
    and the head's length have their final values. -/
def PublishedLast (mapper : Int → MemRegion) (s : Handler) : Prop :=
  ∀ u, s.pc.head = some u → seesUsed s.mem u = true →
    s.Final mapper (u + 8) 4 ∧ ∀ e ∈ s.answer mapper, s.Final mapper e.1 e.2

section

variable (mapper : Int → MemRegion) (s : Handler)

/-- A request comes to its next point by being taken, by the flag store, or from
    a point before both of them. -/
theorem handlerStep_head (u : Nat) (h : (handlerStep mapper s).pc.head = some u) :
    (s.vq.ready s.mem = true ∧ u = s.vq.next ∧ (handlerStep mapper s).pc = .copyHeader u ∧
      (handlerStep mapper s).mem = s.mem) ∨
    (∃ d r, s.pc = .putFlags u d r) ∨
    (s.pc.head = some u ∧ (∀ u d r, s.pc ≠ .putFlags u d r) ∧ (∀ u d r, s.pc ≠ .putLen u d r) ∧
      ∀ u d r, (handlerStep mapper s).pc ≠ .putLen u d r) := by
  have hmove := handlerStep_move mapper s
  generalize handlerStep mapper s = s' at hmove h
  cases hmove with
  | takeHead vq hpc hready hav =>
      obtain rfl := Option.some.inj h
      exact Or.inl ⟨hready, rfl, rfl, rfl⟩
  | putFlags v d r _ hpc =>
      obtain rfl := Option.some.inj h
      exact Or.inr (Or.inl ⟨d, r, hpc⟩)
  -- A step inside a request, up to the status byte.
  | headerData _ hpc | headerStatus _ hpc | takeData _ _ hpc | transferNext _ _ _ hpc
  | takeStatus _ _ _ _ hpc | putStatus _ _ _ _ _ hpc =>
      rw [hpc]
      exact Or.inr (Or.inr ⟨h, fun _ _ _ => HandlerPc.noConfusion,
        fun _ _ _ => HandlerPc.noConfusion, fun _ _ _ => HandlerPc.noConfusion⟩)
  | stay hpc =>
      rcases hpc with hpc | hpc
      · rw [hpc] at h
        exact absurd h.symm (Option.some_ne_none u)
      · rw [hpc] at h
        exact absurd h.symm (Option.some_ne_none u)
  | idle | headerEnd | missingData | transferEnd | missingStatus | putLen | raise | silent =>
      exact absurd h.symm (Option.some_ne_none u)

/-- What a driver sees of the head in service: it is not used yet, or the flag
    store was the last step. -/
def Handler.Served (s : Handler) : Prop :=
  ∀ u, s.pc.head = some u →
    (seesUsed s.mem u = false ∧ ∀ u d r, s.pc ≠ .putLen u d r) ∨
    (seesUsed s.mem u = true ∧ ∃ d r, s.pc = .putLen u d r)

/-- The flag store turns the head into a used one. -/
theorem seesUsed_putFlags (m : ByteMem) (u : Nat) :
    seesUsed (m.writeLE (u + 14) 2 (VringPackedDesc.flagsAt m u ^^^ 2 ^ descUsedBit)) u
      = !seesUsed m u := by
  rw [seesUsed, flagsAt_putFlags, Nat.testBit_xor, Nat.testBit_xor, Nat.testBit_two_pow_self,
    Nat.testBit_two_pow_of_ne (by decide), Bool.xor_true, Bool.xor_false, seesUsed]
  cases (VringPackedDesc.flagsAt m u).testBit descUsedBit <;>
    cases (VringPackedDesc.flagsAt m u).testBit descAvailBit <;> rfl

/-- An available head is not a used one. -/
theorem seesUsed_of_looksAvail (m : ByteMem) (u : Nat) (w : Bool)
    (h : looksAvail w (VringPackedDesc.flagsAt m u) = true) : seesUsed m u = false := by
  rw [looksAvail, Bool.and_eq_true, beq_iff_eq, bne_iff_ne] at h
  rw [seesUsed, h.1, beq_eq_false_iff_ne]
  exact h.2

theorem Handler.Served.step (h : s.Served) (hspare : s.SparesFlags mapper) :
    (handlerStep mapper s).Served := by
  intro u hu
  rcases handlerStep_head mapper s u hu with ⟨hready, rfl, hpc, hmem⟩ | ⟨d, r, hpc⟩ |
    ⟨hhead, hflags, hlen, hnext⟩
  · rw [hmem, hpc]
    exact Or.inl ⟨seesUsed_of_looksAvail s.mem _ _ hready, fun _ _ _ => HandlerPc.noConfusion⟩
  · rw [handlerStep_putFlags mapper s u d r hpc]
    refine Or.inr ⟨?_, d, r, rfl⟩
    rcases h u (by rw [hpc]; rfl) with ⟨hnot, -⟩ | ⟨-, d', r', hput⟩
    · rw [seesUsed_putFlags, hnot, Bool.not_false]
    · rw [hpc] at hput
      exact HandlerPc.noConfusion hput
  · have hsame : VringPackedDesc.flagsAt (handlerStep mapper s).mem u
        = VringPackedDesc.flagsAt s.mem u :=
      ByteMem.le_congr _ _ _ _ (handlerStep_stored mapper s hflags hlen _ _ (hspare u hhead))
    refine Or.inl ⟨?_, hnext⟩
    rw [seesUsed, hsame]
    rcases h u hhead with ⟨hnot, -⟩ | ⟨-, d, r, hput⟩
    · exact hnot
    · exact absurd hput (hlen u d r)

/-- The length store is the last step of its request. -/
theorem Handler.final_putLen (u d : Nat) (r : Int) (hpc : s.pc = .putLen u d r) (a k : Nat) :
    s.Final mapper a k ↔ (handlerStep mapper s).mem.read a k = s.mem.read a k := by
  have hnext : (handlerStep mapper s).pc.head = none := by
    rw [handlerStep_putLen mapper s u d r hpc]
    rfl
  constructor
  · intro h
    refine h 1 (fun i hi => ?_)
    obtain rfl : i = 0 := by omega
    rw [Function.iterate_zero_apply, hpc]
    rfl
  · intro h j hserved
    -- A second step would be one of the loop.
    obtain rfl | rfl : j = 0 ∨ j = 1 := by
      by_contra hj
      have hone := hserved 1 (by omega)
      rw [Function.iterate_one, hnext] at hone
      exact Bool.noConfusion hone
    · rfl
    · exact h

theorem Handler.run_served (hpc : s.pc = .getHead)
    (hspare : ∀ k, ((handlerStep mapper)^[k] s).SparesFlags mapper) (k : Nat) :
    ((handlerStep mapper)^[k] s).Served := by
  induction k with
  | zero =>
      intro u hu
      rw [Function.iterate_zero_apply, hpc] at hu
      exact absurd hu.symm (Option.some_ne_none u)
  | succ k ih =>
      rw [Function.iterate_succ_apply']
      exact ih.step mapper _ (hspare k)

/-- The state between the two stores in the head: the length is still the
    driver's. -/
theorem lenAt_putFlags (u d : Nat) (r : Int) (hpc : s.pc = .putFlags u d r) :
    VringPackedDesc.lenAt (handlerStep mapper s).mem u = VringPackedDesc.lenAt s.mem u := by
  rw [handlerStep_putFlags mapper s u d r hpc]
  exact ByteMem.le_writeLE_apart _ _ _ _ _ _ (.of_ge (by omega))

/-- Where the length is there already, the last store changes nothing. -/
theorem handlerStep_putLen_same (u d : Nat) (r : Int) (hpc : s.pc = .putLen u d r)
    (hlen : VringPackedDesc.lenAt s.mem u = (r % 2 ^ 32).toNat) :
    (handlerStep mapper s).mem = s.mem := by
  rw [handlerStep_putLen mapper s u d r hpc, ← hlen]
  exact ByteMem.writeLE_le_self s.mem (u + 8) 4

/-- The last store leaves the length the handler computed. -/
theorem lenAt_putLen (u d : Nat) (r : Int) (hpc : s.pc = .putLen u d r) :
    VringPackedDesc.lenAt (handlerStep mapper s).mem u = (r % 2 ^ 32).toNat := by
  rw [handlerStep_putLen mapper s u d r hpc]
  exact ByteMem.le_writeLE_self _ _ _ _ (by omega)

end

/-- In every call of the handler whose stores spare the flags of the head in
    service, every head a driver can see used has its final data, status and
    length exactly when, at each flag store, the length the handler is about to
    store is in the head already. -/
theorem published_last_iff (mapper : Int → MemRegion) (s : Handler) (hpc : s.pc = .getHead)
    (hspare : ∀ k, ((handlerStep mapper)^[k] s).SparesFlags mapper) :
    (∀ k, PublishedLast mapper ((handlerStep mapper)^[k] s)) ↔
      ∀ k, ((handlerStep mapper)^[k] s).LenReady := by
  have hserved := Handler.run_served mapper s hpc hspare
  constructor
  · rintro h k ⟨u, r⟩ hmark
    rcases (HandlerPc.marking_eq _ u r).mp hmark with ⟨d, hput⟩
    set t := (handlerStep mapper)^[k] s with ht
    have hnext : (handlerStep mapper)^[k + 1] s = handlerStep mapper t :=
      Function.iterate_succ_apply' _ _ _
    have hstore : (handlerStep mapper t).pc = .putLen u d r := by
      rw [handlerStep_putFlags mapper t u d r hput]
    have hhead : (handlerStep mapper t).pc.head = some u := by
      rw [hstore]
      rfl
    -- Between the two stores the driver sees the head used.
    have hseen : seesUsed (handlerStep mapper t).mem u = true := by
      have hsv := hserved (k + 1)
      rw [hnext] at hsv
      rcases hsv u hhead with ⟨-, hnot⟩ | ⟨hseen, -⟩
      · exact absurd hstore (hnot u d r)
      · exact hseen
    have hpub := h (k + 1)
    rw [hnext] at hpub
    have hfinal := (Handler.final_putLen mapper _ u d r hstore _ _).mp (hpub u hhead hseen).1
    have hlen : VringPackedDesc.lenAt (handlerStep mapper (handlerStep mapper t)).mem u
        = VringPackedDesc.lenAt (handlerStep mapper t).mem u := by
      rw [VringPackedDesc.lenAt, VringPackedDesc.lenAt, ByteMem.le_eq_leValue, hfinal,
        ← ByteMem.le_eq_leValue]
    rw [lenAt_putLen mapper _ u d r hstore, lenAt_putFlags mapper t u d r hput] at hlen
    exact hlen.symm
  · intro h k u hu hseen
    rcases hserved k u hu with ⟨hnot, -⟩ | ⟨-, d, r, hput⟩
    · rw [hnot] at hseen
      exact Bool.noConfusion hseen
    · -- The step before was the flag store, with the length in place.
      have hlen : VringPackedDesc.lenAt ((handlerStep mapper)^[k] s).mem u
          = (r % 2 ^ 32).toNat := by
        cases k with
        | zero =>
            rw [Function.iterate_zero_apply, hpc] at hput
            exact HandlerPc.noConfusion hput
        | succ j =>
            rw [Function.iterate_succ_apply'] at hput ⊢
            have hflags := handlerStep_toLen mapper _ u d r hput
            rw [lenAt_putFlags mapper _ u d r hflags]
            exact h j (u, r) ((HandlerPc.marking_eq _ u r).mpr ⟨d, hflags⟩)
      have hsame := handlerStep_putLen_same mapper _ u d r hput hlen
      refine ⟨(Handler.final_putLen mapper _ u d r hput _ _).mpr (by rw [hsame]), fun e _ => ?_⟩
      exact (Handler.final_putLen mapper _ u d r hput _ _).mpr (by rw [hsame])

/-- The handler entered on a ring with one read of `len` bytes, in the ordinary
    layout. -/
def readCall (len : Nat) : Handler :=
  ringCall blkTIn [⟨0x5000, 16, 0, 0x81⟩, ⟨0x6000, len, 0, 0x83⟩, ⟨0x7000, 1, 0, 0x82⟩]

/-- Sixteen bytes are also the length of the header, so here the length store
    changes nothing. -/
theorem published_last_iff_sixteen :
    (readCall 16).pc = .getHead ∧
      (∀ k, ((handlerStep sampleMapper)^[k] (readCall 16)).SparesFlags sampleMapper) ∧
      ∀ k, PublishedLast sampleMapper ((handlerStep sampleMapper)^[k] (readCall 16)) := by
  have hdone : ((handlerStep sampleMapper)^[10] (readCall 16)).pc = .done := by decide +kernel
  have hfirst : ∀ k < 11, ((handlerStep sampleMapper)^[k] (readCall 16)).SparesFlags sampleMapper ∧
      ((handlerStep sampleMapper)^[k] (readCall 16)).LenReady := by
    decide +kernel
  have hall : ∀ k, ((handlerStep sampleMapper)^[k] (readCall 16)).SparesFlags sampleMapper ∧
      ((handlerStep sampleMapper)^[k] (readCall 16)).LenReady := by
    intro k
    by_cases hk : k < 11
    · exact hfirst k hk
    · rw [iterate_ended sampleMapper (readCall 16) 10 k (Or.inl hdone) (by omega)]
      exact hfirst 10 (by decide)
  exact ⟨rfl, fun k => (hall k).1, (published_last_iff sampleMapper (readCall 16) rfl
    fun k => (hall k).1).mpr fun k => (hall k).2⟩

/-- A read of 512 bytes, between the flag store and the length store: the head
    reads as used, and its length is that of the header. -/
theorem published_before_len :
    let t := (handlerStep sampleMapper)^[7] (readCall 512)
    let u := sampleRing.vq.slot 0
    (readCall 512).pc = .getHead ∧ t.pc.head = some u ∧ seesUsed t.mem u = true ∧
      VringPackedDesc.lenAt t.mem u = 16 ∧
      VringPackedDesc.lenAt (handlerStep sampleMapper t).mem u = 512 ∧
      ¬ PublishedLast sampleMapper t := by
  have hhead : ((handlerStep sampleMapper)^[7] (readCall 512)).pc.head
      = some (sampleRing.vq.slot 0) := by
    decide +kernel
  have hseen : seesUsed ((handlerStep sampleMapper)^[7] (readCall 512)).mem
      (sampleRing.vq.slot 0) = true := by
    decide +kernel
  refine ⟨rfl, hhead, hseen, by decide +kernel, by decide +kernel, fun h => ?_⟩
  have hfinal := (h _ hhead hseen).1 1 (by decide +kernel)
  exact absurd hfinal (by decide +kernel)

end Microv
