import Mathlib.Data.Nat.Count
import Microv.Theory.ChainSafety

/-!
# Draining the Ring

Why a notification ends, whatever the guest left in the ring.

The loop of `virtio_blk_handle_output` has no counter and does not look at
what it did before. What stops it is the wrap counter. A descriptor is taken
while its AVAIL bit agrees with the counter, a lap later the counter has
flipped, and nothing the handler does touches an AVAIL bit: it toggles USED on
heads and stores lengths, and that is all as long as the buffers keep clear of
the ring. So no slot is taken twice, and there are as many slots as the ring
has.

Between two calls that take a descriptor there are at most five steps, which
makes the number of descriptors left to take, and the steps to the next call,
a measure that goes down.

## Main definitions

* `HandlerPc.rank`: The steps to the next call, or to the end.
* `Handler.stored`: Where the next step stores data or a status byte.
* `Handler.SparesRing`: What it stores there keeps clear of the ring.
* `availAt`: The AVAIL bit of a descriptor.
* `Draining`: Where the queue stands after so many descriptors.

## Theorems

* `handlerStep_calls`: A step takes a descriptor or comes closer to a call.
* `handlerStep_stored`: Where a step stores, apart from the head.
* `handlerStep_avail`: A step leaves the AVAIL bits of the ring.
* `Draining.step`: One step of a notification.
* `Draining.le_size`: No more descriptors are taken than there are slots.
* `notification_drains`: A notification ends, having taken each slot at most
  once.
-/

namespace Microv

namespace HandlerPc

/-- The handler returned, or dereferenced `NULL`. -/
def Ended (pc : HandlerPc) : Prop :=
  pc = .done ∨ pc = .fault

/-- The steps to the next call of `virtq_get_avail`, or to the end. -/
def rank : HandlerPc → Nat
  | done | fault => 0
  | signal | getData _ | getStatus _ _ _ => 1
  | getHead | copyHeader _ | transfer _ _ => 2
  | putLen _ _ _ => 3
  | putFlags _ _ _ => 4
  | putStatus _ _ _ _ => 5

theorem rank_le (pc : HandlerPc) : pc.rank ≤ 5 := by
  cases pc <;> simp only [rank] <;> omega

theorem ended_of_rank (pc : HandlerPc) (h : pc.rank = 0) : pc.Ended := by
  cases pc with
  | done => exact Or.inl rfl
  | fault => exact Or.inr rfl
  | _ => simp only [rank, OfNat.ofNat_ne_zero, one_ne_zero] at h

end HandlerPc

section Calls

variable (mapper : Int → MemRegion) (s : Handler)

/-- What the call in a step returns, by what it finds. -/
theorem Handler.returned_eq (hpc : s.pc = .getHead ∨ s.pc.follows = true) :
    s.returned = if s.vq.ready s.mem then some s.vq.next else none := by
  rw [Handler.returned, if_pos hpc, virtqGetAvail_fst]

/-- The steps other than the three calls return no descriptor. -/
theorem Handler.returned_quiet (pc : HandlerPc) (hpc : s.pc = pc) (hhead : pc ≠ .getHead)
    (hfol : pc.follows = false) : s.returned = none := by
  rw [Handler.returned, hpc, if_neg]
  rintro (h | h)
  · exact hhead h
  · exact Bool.false_ne_true (hfol.symm.trans h)

/-- A handler that came to its end stays there. -/
theorem handlerStep_ended (h : s.pc.Ended) : handlerStep mapper s = s ∧ s.returned = none := by
  refine ⟨handlerStep_stay mapper s h, ?_⟩
  rcases h with hpc | hpc
  · exact s.returned_quiet _ hpc HandlerPc.noConfusion rfl
  · exact s.returned_quiet _ hpc HandlerPc.noConfusion rfl

theorem iterate_ended (k m : Nat) (h : ((handlerStep mapper)^[k] s).pc.Ended) (hkm : k ≤ m) :
    (handlerStep mapper)^[m] s = (handlerStep mapper)^[k] s := by
  rw [← Nat.sub_add_cancel hkm, Function.iterate_add_apply]
  exact Function.iterate_fixed (handlerStep_ended mapper _ h).1 (m - k)

/-- A step takes the descriptor the queue stands at, or leaves the queue and
    comes closer to the next call. -/
theorem handlerStep_calls :
    (s.returned = some s.vq.next ∧ s.vq.ready s.mem = true ∧
      (handlerStep mapper s).vq = (virtqGetAvail s.mem s.vq).2) ∨
    (s.returned = none ∧ (handlerStep mapper s).vq = s.vq ∧
      (s.pc.Ended ∨ (handlerStep mapper s).pc.rank < s.pc.rank)) := by
  have hcall := s.returned_eq
  have hquiet := s.returned_quiet
  have hmove := handlerStep_move mapper s
  generalize handlerStep mapper s = s' at hmove
  cases hmove with
  | takeHead vq hpc hready hav =>
      exact Or.inl ⟨by rw [hcall (Or.inl hpc), hready, if_pos rfl], hready, by rw [hav]⟩
  | takeData u vq hpc hready hav | takeStatus u st r vq hpc hready hav =>
      have hfol : s.pc.follows = true := by rw [hpc]; rfl
      exact Or.inl ⟨by rw [hcall (Or.inr hfol), hready, if_pos rfl], hready, by rw [hav]⟩
  | idle hpc hready =>
      refine Or.inr ⟨by rw [hcall (Or.inl hpc), hready, if_neg Bool.false_ne_true], rfl, Or.inr ?_⟩
      rw [hpc]
      exact Nat.one_lt_two
  | missingData u hpc hready | missingStatus u st r hpc hready =>
      have hfol : s.pc.follows = true := by rw [hpc]; rfl
      refine Or.inr ⟨by rw [hcall (Or.inr hfol), hready, if_neg Bool.false_ne_true], rfl, Or.inr ?_⟩
      rw [hpc]
      exact Nat.one_pos
  | stay hpc =>
      refine Or.inr ⟨?_, rfl, Or.inl hpc⟩
      rcases hpc with hpc | hpc <;> exact hquiet _ hpc HandlerPc.noConfusion rfl
  -- The other steps make no call, and the point behind them is nearer to one.
  | headerEnd _ hpc | headerData _ hpc | headerStatus _ hpc | transferEnd _ _ _ hpc
  | transferNext _ _ _ hpc | putStatus _ _ _ _ _ hpc | putFlags _ _ _ _ hpc | putLen _ _ _ _ hpc
  | raise hpc | silent hpc =>
      refine Or.inr ⟨hquiet _ hpc HandlerPc.noConfusion rfl, rfl, Or.inr ?_⟩
      rw [hpc]
      simp only [HandlerPc.rank]
      omega

end Calls

/-- Where the next step stores data or a status byte, and how much at most. -/
def Handler.stored (mapper : Int → MemRegion) (s : Handler) : Nat × Nat :=
  match s.pc with
  | .transfer _ d =>
      if s.hdrType = blkTIn then (s.bufferAt mapper d, VringPackedDesc.lenAt s.mem d) else (0, 0)
  | .putStatus _ d _ _ => (s.bufferAt mapper d, 1)
  | _ => (0, 0)

/-- The data or the status byte the next step stores keeps clear of the
    ring. -/
def Handler.SparesRing (mapper : Int → MemRegion) (s : Handler) : Prop :=
  Apart (s.stored mapper).1 (s.stored mapper).2 s.vq.descRing (16 * s.vq.info.size)

instance (mapper : Int → MemRegion) (s : Handler) : Decidable (s.SparesRing mapper) :=
  inferInstanceAs (Decidable (Apart _ _ _ _))

/-- The AVAIL bit of the descriptor at `a`. -/
def availAt (m : ByteMem) (a : Nat) : Bool :=
  (VringPackedDesc.flagsAt m a).testBit descAvailBit

theorem availAt_congr (m m' : ByteMem) (a : Nat) (h : ∀ i, i < 16 → m' (a + i) = m (a + i)) :
    availAt m' a = availAt m a :=
  congrArg (fun d => d.flags.testBit descAvailBit) (VringPackedDesc.load_congr m' m a h)

section Avail

variable (mapper : Int → MemRegion) (s : Handler)

theorem Virtq.slot_eq_or_apart (vq : Virtq) (p q : Nat) :
    vq.slot p = vq.slot q ∨ Apart (vq.slot p) 16 (vq.slot q) 16 := by
  unfold slot Apart
  omega

/-- The flag store toggles USED, in one slot. -/
theorem availAt_putFlags (m : ByteMem) (vq : Virtq) (p q : Nat) :
    availAt (m.writeLE (vq.slot p + 14) 2
      (VringPackedDesc.flagsAt m (vq.slot p) ^^^ 2 ^ descUsedBit)) (vq.slot q)
      = availAt m (vq.slot q) := by
  rcases vq.slot_eq_or_apart p q with heq | hap
  · rw [← heq, availAt, flagsAt_putFlags, Nat.testBit_xor, Nat.testBit_two_pow_of_ne (by decide),
      Bool.xor_false]
    rfl
  · refine congrArg (Nat.testBit · descAvailBit) (ByteMem.le_writeLE_apart _ _ _ _ _ _ ?_)
    exact hap.mono (by omega) (by omega) (by omega) (by omega)

/-- The length store is in the middle of a slot, before the flags. -/
theorem availAt_putLen (m : ByteMem) (vq : Virtq) (v p q : Nat) :
    availAt (m.writeLE (vq.slot p + 8) 4 v) (vq.slot q) = availAt m (vq.slot q) := by
  refine congrArg (Nat.testBit · descAvailBit) (ByteMem.le_writeLE_apart _ _ _ _ _ _ ?_)
  unfold Virtq.slot Apart
  omega

/-- Apart from the two stores in the head, a step leaves what it stores no data
    or status on. -/
theorem handlerStep_stored (hflags : ∀ u d r, s.pc ≠ .putFlags u d r)
    (hlen : ∀ u d r, s.pc ≠ .putLen u d r) (a k : Nat)
    (h : Apart (s.stored mapper).1 (s.stored mapper).2 a k) (i : Nat) (hi : i < k) :
    (handlerStep mapper s).mem (a + i) = s.mem (a + i) := by
  have hmove := handlerStep_move mapper s
  generalize handlerStep mapper s = s' at hmove
  cases hmove with
  | transferEnd u d res hpc hres _ | transferNext u d res hpc hres _ =>
      rw [Handler.stored, hpc] at h
      rw [← hres]
      by_cases ht : s.hdrType = blkTIn
      · simp only [if_pos ht] at h
        have hap : Apart (getUserspaceAddr mapper (VringPackedDesc.load s.mem d).addr)
            (VringPackedDesc.load s.mem d).len a k := h
        unfold Apart at hap
        exact blkTransfer_outside _ _ _ _ _ _ _ (by omega)
      · rw [s.access_mem_out mapper _ ht]
  | putStatus u d st r mem hpc hmem =>
      rw [Handler.stored, hpc] at h
      have hap : Apart (s.bufferAt mapper d) 1 a k := h
      unfold Apart at hap
      rw [← hmem]
      exact ByteMem.write_outside _ _ _ _ (by rw [List.length_singleton]; omega)
  | putFlags u d r _ hpc => exact absurd hpc (hflags u d r)
  | putLen u d r _ hpc => exact absurd hpc (hlen u d r)
  -- The other steps store nothing.
  | _ => rfl

/-- A step whose stores keep clear of the ring leaves every AVAIL bit there. -/
theorem handlerStep_avail (hn : 0 < s.vq.info.size) (hspare : s.SparesRing mapper)
    (hptr : ∀ a ∈ s.pc.pointers, ∃ p, a = s.vq.slot p) (q : Nat) :
    availAt (handlerStep mapper s).mem (s.vq.slot q) = availAt s.mem (s.vq.slot q) := by
  have hslot := s.vq.slot_mem q hn
  by_cases hflags : ∃ u d r, s.pc = .putFlags u d r
  · rcases hflags with ⟨u, d, r, hpc⟩
    rcases hptr u (by rw [hpc]; exact List.mem_cons_self) with ⟨p, rfl⟩
    rw [handlerStep_putFlags mapper s _ d r hpc]
    exact availAt_putFlags s.mem s.vq p q
  · by_cases hlen : ∃ u d r, s.pc = .putLen u d r
    · rcases hlen with ⟨u, d, r, hpc⟩
      rcases hptr u (by rw [hpc]; exact List.mem_cons_self) with ⟨p, rfl⟩
      rw [handlerStep_putLen mapper s _ d r hpc]
      exact availAt_putLen s.mem s.vq _ p q
    · have hap : Apart (s.stored mapper).1 (s.stored mapper).2 (s.vq.slot q) 16 :=
        hspare.mono (Nat.le_refl _) (Nat.le_refl _) hslot.1 hslot.2
      refine availAt_congr _ _ _ (handlerStep_stored mapper s ?_ ?_ _ _ hap)
      · exact fun u d r hpc => hflags ⟨u, d, r, hpc⟩
      · exact fun u d r hpc => hlen ⟨u, d, r, hpc⟩

end Avail

/-- A queue whose index is inside the ring stands at a position. -/
theorem Virtq.exists_atPos (vq : Virtq) (h : vq.nextAvailIdx < vq.info.size) :
    ∃ p, vq = vq.atPos p := by
  have hmod : vq.nextAvailIdx % vq.info.size = vq.nextAvailIdx := Nat.mod_eq_of_lt h
  have hfirst : wrapAt vq.info.size vq.nextAvailIdx = true := by
    rw [wrapAt, Nat.div_eq_of_lt h]
    rfl
  -- The counter says which of two laps the index is on.
  cases hw : vq.usedWrapCount with
  | true =>
      refine ⟨vq.nextAvailIdx, ?_⟩
      rw [atPos, hmod, hfirst, ← hw]
  | false =>
      refine ⟨vq.nextAvailIdx + vq.info.size, ?_⟩
      rw [atPos, Nat.add_mod_right, hmod, wrapAt_add_size _ _ (by omega), hfirst, Bool.not_true,
        ← hw]

/-- Where a notification stands that was entered at position `p` in `s₀` and has
    taken `k` descriptors. -/
structure Draining (s₀ : Handler) (p k : Nat) (s : Handler) : Prop where
  vq : s.vq = s₀.vq.atPos (p + k)
  avail : ∀ q, availAt s.mem (s₀.vq.slot q) = availAt s₀.mem (s₀.vq.slot q)
  -- A descriptor taken had the AVAIL bit of its lap from the start.
  taken : ∀ j, j < k → availAt s₀.mem (s₀.vq.slot (p + j)) = wrapAt s₀.vq.info.size (p + j)
  pointers : ∀ a ∈ s.pc.pointers, ∃ q, a = s₀.vq.slot q

section Draining

variable {mapper : Int → MemRegion} {s₀ s : Handler} {p k : Nat}

/-- A slot taken twice would have been on two laps. -/
theorem Draining.le_size (h : Draining s₀ p k s) (hn : 0 < s₀.vq.info.size) :
    k ≤ s₀.vq.info.size := by
  by_contra hlt
  have hfirst := h.taken 0 (by omega)
  have hagain := h.taken s₀.vq.info.size (by omega)
  have hslot : s₀.vq.slot (p + s₀.vq.info.size) = s₀.vq.slot (p + 0) := by
    rw [Virtq.slot, Virtq.slot, Nat.add_mod_right, Nat.add_zero]
  rw [hslot, hfirst, wrapAt_add_size _ _ hn] at hagain
  exact Bool.not_ne_self _ hagain.symm

/-- One step of a notification takes a descriptor, or comes closer to a call. -/
theorem Draining.step (h : Draining s₀ p k s) (hn : 0 < s₀.vq.info.size)
    (hlt : s₀.vq.info.size < 2 ^ 16) (hspare : s.SparesRing mapper) :
    (s.returned.isSome = true ∧ Draining s₀ p (k + 1) (handlerStep mapper s)) ∨
    (s.returned.isSome = false ∧ Draining s₀ p k (handlerStep mapper s) ∧
      (s.pc.Ended ∨ (handlerStep mapper s).pc.rank < s.pc.rank)) := by
  have hslots : ∀ q, s.vq.slot q = s₀.vq.slot q := by
    intro q
    rw [h.vq]
    rfl
  have hnext : s.vq.next = s₀.vq.slot (p + k) := by
    rw [h.vq]
    rfl
  -- The driver's bits stand: a step stores the used bit at most.
  have havail : ∀ q, availAt (handlerStep mapper s).mem (s₀.vq.slot q)
      = availAt s₀.mem (s₀.vq.slot q) := by
    intro q
    have hkept := handlerStep_avail mapper s (by rw [h.vq]; exact hn) hspare
      (fun a ha => by simpa only [hslots] using h.pointers a ha) q
    rw [hslots] at hkept
    exact hkept.trans (h.avail q)
  -- A pointer in hand was there before, or is the slot just taken.
  have hpointers : ∀ a ∈ (handlerStep mapper s).pc.pointers, ∃ q, a = s₀.vq.slot q := by
    intro a ha
    rcases handlerStep_pointers mapper s a ha with hold | hnew
    · exact h.pointers a hold
    · rcases handlerStep_calls mapper s with ⟨hret, -⟩ | ⟨hret, -⟩
      · exact ⟨p + k, (Option.some.inj (hnew.symm.trans hret)).trans hnext⟩
      · exact absurd (hnew.symm.trans hret) (Option.some_ne_none a)
  rcases handlerStep_calls mapper s with ⟨hret, hready, hvq⟩ | ⟨hret, hvq, hrank⟩
  · -- A call that returns a descriptor moves the position by one.
    have hlooks : looksAvail (wrapAt s₀.vq.info.size (p + k))
        (VringPackedDesc.flagsAt s.mem (s₀.vq.slot (p + k))) = true := by
      rw [Virtq.ready, hnext, h.vq] at hready
      exact hready
    refine Or.inl ⟨by rw [hret]; rfl, ?_, havail, ?_, hpointers⟩
    · rw [hvq, h.vq, virtqGetAvail_atPos s.mem s₀.vq _ hn hlt, if_pos hlooks]
      rfl
    · intro j hj
      by_cases hjk : j < k
      · exact h.taken j hjk
      · obtain rfl : j = k := by omega
        rw [looksAvail, Bool.and_eq_true, beq_iff_eq] at hlooks
        exact (h.avail _).symm.trans hlooks.1
  · -- Any other step leaves it, and comes nearer to the next call.
    exact Or.inr ⟨by rw [hret]; rfl, ⟨hvq.trans h.vq, havail, h.taken, hpointers⟩, hrank⟩

/-- After `m` steps the descriptors taken are as many as the calls that
    returned one, and the steps left are bounded, unless the handler is done. -/
theorem Draining.run (hpc : s₀.pc = .getHead) (hn : 0 < s₀.vq.info.size)
    (hlt : s₀.vq.info.size < 2 ^ 16) (hpos : s₀.vq = s₀.vq.atPos p)
    (hspare : ∀ m, ((handlerStep mapper)^[m] s₀).SparesRing mapper) (m : Nat) :
    ∃ k, Draining s₀ p k ((handlerStep mapper)^[m] s₀) ∧
      Nat.count (fun j => ((handlerStep mapper)^[j] s₀).returned.isSome) m = k ∧
      (((handlerStep mapper)^[m] s₀).pc.Ended ∨
        m + 6 * (s₀.vq.info.size - k) + ((handlerStep mapper)^[m] s₀).pc.rank
          ≤ 6 * s₀.vq.info.size + 2) := by
  induction m with
  | zero =>
      refine ⟨0, ⟨hpos, fun _ => rfl, fun j hj => absurd hj (Nat.not_lt_zero j), ?_⟩,
        Nat.count_zero _, Or.inr ?_⟩
      · rw [Function.iterate_zero_apply, hpc]
        exact fun a ha => absurd ha List.not_mem_nil
      · rw [Function.iterate_zero_apply, hpc, HandlerPc.rank]
        omega
  | succ m ih =>
      rcases ih with ⟨k, hd, hcount, hleft⟩
      rw [Function.iterate_succ_apply', Nat.count_succ, hcount]
      set t := (handlerStep mapper)^[m] s₀
      rcases hd.step hn hlt (hspare m) with ⟨hret, hd'⟩ | ⟨hret, hd', hrank⟩
      · -- A returned descriptor pays for the six steps up to the next one.
        refine ⟨k + 1, hd', by rw [hret, if_pos rfl], Or.inr ?_⟩
        have hsize := hd'.le_size hn
        have hrank := (handlerStep mapper t).pc.rank_le
        rcases hleft with hend | hleft
        · rw [(handlerStep_ended mapper t hend).2] at hret
          exact absurd hret Bool.false_ne_true
        · omega
      · -- Between two of them the rank goes down.
        refine ⟨k, hd', by rw [hret, if_neg Bool.false_ne_true, Nat.add_zero], ?_⟩
        rcases hrank with hend | hrank
        · rw [(handlerStep_ended mapper t hend).1]
          exact Or.inl hend
        · rcases hleft with hend | hleft
          · rw [(handlerStep_ended mapper t hend).1]
            exact Or.inl hend
          · exact Or.inr (by omega)

end Draining

/-- A notification of a ring of any size, entered at any position with either
    wrap counter and over any memory, is over after a number of steps that the
    size bounds, and takes no more descriptors than the ring has, as long as no
    data or status it stores overlaps the ring. -/
theorem notification_drains (mapper : Int → MemRegion) (s : Handler) (hpc : s.pc = .getHead)
    (hn : 1 ≤ s.vq.info.size) (hlt : s.vq.info.size < 2 ^ 16)
    (hidx : s.vq.nextAvailIdx < s.vq.info.size)
    (hspare : ∀ m, ((handlerStep mapper)^[m] s).SparesRing mapper) :
    ((handlerStep mapper)^[6 * s.vq.info.size + 2] s).pc.Ended ∧
      ∀ m, Nat.count (fun j => ((handlerStep mapper)^[j] s).returned.isSome) m
        ≤ s.vq.info.size := by
  rcases s.vq.exists_atPos hidx with ⟨p, hp⟩
  constructor
  · rcases Draining.run hpc hn hlt hp hspare (6 * s.vq.info.size + 2) with ⟨k, -, -, hend | hleft⟩
    · exact hend
    · exact HandlerPc.ended_of_rank _ (by omega)
  · intro m
    rcases Draining.run hpc hn hlt hp hspare m with ⟨k, hd, hcount, -⟩
    rw [hcount]
    exact hd.le_size hn

/-- The handler entered on a ring that starts with the descriptors `descs`, over
    a memory with a request header of a type at `0x5000`. -/
def ringCall (type : Nat) (descs : List VringPackedDesc) : Handler :=
  { vq := sampleRing.vq.atPos 0, img := ⟨⟨fun _ => 0, 4096⟩, 4096⟩, isrStatus := 0, irqs := 0,
    mem := putDescs sampleRing.vq
      (ByteMem.write (fun _ => 0) (sampleRam.host 0x5000) (ByteMem.leBytes 4 type)) 0 descs,
    req := fun _ => 0, pc := .getHead, taken := [], log := [] }

theorem notification_drains_read :
    let s := ringCall blkTIn [⟨0x5000, 16, 0, 0x81⟩, ⟨0x6000, 4, 0, 0x83⟩, ⟨0x7000, 1, 0, 0x82⟩]
    ((handlerStep sampleMapper)^[10] s).pc = .done ∧
      ((handlerStep sampleMapper)^[6 * 128 + 2] s).pc.Ended ∧
      ∀ m, Nat.count (fun j => ((handlerStep sampleMapper)^[j] s).returned.isSome) m ≤ 128 := by
  intro s
  have hdone : ((handlerStep sampleMapper)^[10] s).pc = .done := by decide +kernel
  have hspare : ∀ m, ((handlerStep sampleMapper)^[m] s).SparesRing sampleMapper := by
    intro m
    by_cases hm : m < 11
    · have hfirst : ∀ m < 11, ((handlerStep sampleMapper)^[m] s).SparesRing sampleMapper := by
        decide +kernel
      exact hfirst m hm
    · rw [iterate_ended sampleMapper s 10 m (Or.inl hdone) (by omega)]
      decide +kernel
  exact ⟨hdone, notification_drains sampleMapper s rfl (by decide) (by decide) (by decide) hspare⟩

end Microv
