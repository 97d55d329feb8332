import Microv.Core.Virtqueue
import Microv.Lib.Wrap

/-!
# Taking Descriptors

`virtq_get_avail` in terms of an absolute ring position.

The queue stores an index below the ring size and one bit. `Virtq.atPos` is
the queue standing at an absolute position, whose index and wrap counter are
the remainder and the lap parity of that position. With that reading the code
is one equation (`virtqGetAvail_atPos`): if the descriptor at the position
looks available to this lap, it is returned and the queue stands one position
further; otherwise nothing changes. The branch that subtracts the size and
flips the counter is the step past the end of the ring.

The rest of the file says how descriptors sit in memory: sixteen bytes each,
read back as written, untouched by writes elsewhere.

## Main definitions

* `Virtq.atPos`: The queue at an absolute position.
* `Virtq.slot`: The host address of the descriptor at a position.
* `looksAvail`: A descriptor's flags read as available to a wrap counter.
* `VringPackedDesc.Fits`: A descriptor's fields fit their widths.

## Theorems

* `virtqGetAvail_cases`: The two answers of a call.
* `virtqGetAvail_atPos`: What one call does.
* `load_write_bytes`: A descriptor is read back as written.
* `load_congr`: A descriptor depends on its sixteen bytes.
* `slot_apart`: Positions less than a lap apart have separate slots.
-/

namespace Microv

/-- Flags read as available to wrap counter `w`. -/
def looksAvail (w : Bool) (flags : Nat) : Bool :=
  flags.testBit descAvailBit == w && flags.testBit descUsedBit != w

namespace Virtq

/-- The queue standing at absolute position `p`. -/
def atPos (vq : Virtq) (p : Nat) : Virtq :=
  { vq with nextAvailIdx := p % vq.info.size, usedWrapCount := wrapAt vq.info.size p }

@[simp] theorem atPos_info (vq : Virtq) (p : Nat) : (vq.atPos p).info = vq.info := rfl

/-- The host address of the descriptor at position `p`. -/
def slot (vq : Virtq) (p : Nat) : Nat :=
  vq.descRing + 16 * (p % vq.info.size)

/-- Positions less than a lap apart have separate slots. -/
theorem slot_apart (vq : Virtq) (p q : Nat) (hpq : p < q) (hlt : q < p + vq.info.size) :
    Apart (vq.slot p) 16 (vq.slot q) 16 := by
  have hne := mod_ne_of_lt vq.info.size p q hpq hlt
  unfold Apart slot
  omega

/-- A slot lies inside the ring. -/
theorem slot_mem (vq : Virtq) (p : Nat) (hn : 0 < vq.info.size) :
    vq.descRing ≤ vq.slot p ∧ vq.slot p + 16 ≤ vq.descRing + 16 * vq.info.size := by
  have hlt := Nat.mod_lt p hn
  unfold slot
  omega

/-- The host address of the descriptor the queue looks at next. -/
def next (vq : Virtq) : Nat :=
  vq.descRing + 16 * vq.nextAvailIdx

/-- The descriptor the queue looks at next is available. -/
def ready (m : ByteMem) (vq : Virtq) : Bool :=
  looksAvail vq.usedWrapCount (VringPackedDesc.flagsAt m vq.next)

end Virtq

/-- The code's test is the negation of `looksAvail`. -/
theorem not_looksAvail (a u w : Bool) : (a != w || u == w) = !(a == w && u != w) := by
  revert a u w
  decide

theorem virtqGetAvail_fst (m : ByteMem) (vq : Virtq) :
    (virtqGetAvail m vq).1 = if vq.ready m then some vq.next else none := by
  cases hav : vq.ready m with
  | true =>
      simp only [Virtq.ready, Virtq.next, looksAvail] at hav
      simp only [virtqGetAvail, not_looksAvail, hav, Bool.not_true, Bool.false_eq_true, if_false,
        if_true]
      split <;> rfl
  | false =>
      simp only [Virtq.ready, Virtq.next, looksAvail] at hav
      simp only [virtqGetAvail, not_looksAvail, hav, Bool.not_false, Bool.false_eq_true, if_false,
        if_true]

/-- A call returns the entry it looks at, or nothing and leaves the queue. -/
theorem virtqGetAvail_cases (m : ByteMem) (vq : Virtq) :
    (∃ vq', virtqGetAvail m vq = (some vq.next, vq') ∧ vq.ready m = true) ∨
      (virtqGetAvail m vq = (none, vq) ∧ vq.ready m = false) := by
  have hfst := virtqGetAvail_fst m vq
  cases hav : vq.ready m with
  | true =>
      rw [hav, if_pos rfl] at hfst
      exact Or.inl ⟨_, Prod.ext hfst rfl, rfl⟩
  | false =>
      simp only [Virtq.ready, Virtq.next, looksAvail] at hav
      refine Or.inr ⟨?_, rfl⟩
      simp only [virtqGetAvail, not_looksAvail, hav, Bool.not_false, if_true]

/-- A call reads the flags of one descriptor. -/
theorem virtqGetAvail_congr (m m' : ByteMem) (vq : Virtq)
    (h : VringPackedDesc.flagsAt m vq.next = VringPackedDesc.flagsAt m' vq.next) :
    virtqGetAvail m vq = virtqGetAvail m' vq := by
  unfold Virtq.next at h
  simp only [virtqGetAvail, h]

theorem virtqGetAvail_atPos (m : ByteMem) (vq : Virtq) (p : Nat) (hpos : 0 < vq.info.size)
    (hlt : vq.info.size < 2 ^ 16) :
    virtqGetAvail m (vq.atPos p)
      = if looksAvail (wrapAt vq.info.size p) (VringPackedDesc.flagsAt m (vq.slot p)) then
          (some (vq.slot p), vq.atPos (p + 1))
        else (none, vq.atPos p) := by
  have hmod := Nat.mod_lt p hpos
  have hidx : (p % vq.info.size + 1) % 2 ^ 16 = p % vq.info.size + 1 :=
    Nat.mod_eq_of_lt (by omega)
  simp only [virtqGetAvail, Virtq.atPos, looksAvail, not_looksAvail]
  by_cases hav : ((VringPackedDesc.flagsAt m (vq.slot p)).testBit descAvailBit
      == wrapAt vq.info.size p && (VringPackedDesc.flagsAt m (vq.slot p)).testBit descUsedBit
      != wrapAt vq.info.size p) = true
  · simp only [← Virtq.slot.eq_1, hav, Bool.not_true, Bool.false_eq_true, if_false, if_true, hidx]
    by_cases hend : p % vq.info.size + 1 = vq.info.size
    · -- Past the end: the index returns to zero and the counter flips.
      rw [if_pos (by omega), mod_succ_of_eq _ _ hend, wrapAt_succ_of_eq _ _ hend, hend,
        Nat.sub_self]
    · rw [if_neg (by omega), mod_succ_of_lt _ _ (by omega), wrapAt_succ_of_lt _ _ (by omega)]
  · rw [Bool.not_eq_true] at hav
    simp only [← Virtq.slot.eq_1, hav, Bool.not_false, Bool.false_eq_true, if_false, if_true]

namespace VringPackedDesc

/-- The fields fit the widths they are stored in. -/
def Fits (d : VringPackedDesc) : Prop :=
  d.addr < 2 ^ 64 ∧ d.len < 2 ^ 32 ∧ d.id < 2 ^ 16 ∧ d.flags < 2 ^ 16

instance (d : VringPackedDesc) : Decidable d.Fits :=
  inferInstanceAs (Decidable (_ ∧ _ ∧ _ ∧ _))

@[simp] theorem length_bytes (d : VringPackedDesc) : d.bytes.length = 16 := by
  simp only [bytes, List.length_append, ByteMem.length_leBytes]

theorem load_write_bytes (m : ByteMem) (a : Nat) (d : VringPackedDesc) (h : d.Fits) :
    load (m.write a d.bytes) a = d := by
  rcases h with ⟨haddr, hlen, hid, hflags⟩
  -- The string is four fields, each written past the one before.
  have hsplit : m.write a d.bytes = (((m.writeLE a 8 d.addr).writeLE (a + 8) 4 d.len).writeLE
      (a + 12) 2 d.id).writeLE (a + 14) 2 d.flags := by
    simp only [bytes, ByteMem.write_append, List.length_append, ByteMem.length_leBytes,
      ByteMem.writeLE]
  have eaddr : addrAt (m.write a d.bytes) a = d.addr := by
    rw [hsplit, addrAt, ByteMem.le_writeLE_apart _ _ _ _ _ _ (.of_ge (by omega)),
      ByteMem.le_writeLE_apart _ _ _ _ _ _ (.of_ge (by omega)),
      ByteMem.le_writeLE_apart _ _ _ _ _ _ (.of_ge (by omega)),
      ByteMem.le_writeLE_self _ _ _ _ (by omega)]
  have elen : lenAt (m.write a d.bytes) a = d.len := by
    rw [hsplit, lenAt, ByteMem.le_writeLE_apart _ _ _ _ _ _ (.of_ge (by omega)),
      ByteMem.le_writeLE_apart _ _ _ _ _ _ (.of_ge (by omega)),
      ByteMem.le_writeLE_self _ _ _ _ (by omega)]
  have eid : (m.write a d.bytes).le (a + 12) 2 = d.id := by
    rw [hsplit, ByteMem.le_writeLE_apart _ _ _ _ _ _ (.of_ge (by omega)),
      ByteMem.le_writeLE_self _ _ _ _ (by omega)]
  have eflags : flagsAt (m.write a d.bytes) a = d.flags := by
    rw [hsplit, flagsAt, ByteMem.le_writeLE_self _ _ _ _ (by omega)]
  rw [load, eaddr, elen, eid, eflags]

/-- A descriptor depends on its sixteen bytes only. -/
theorem load_congr (m m' : ByteMem) (a : Nat) (h : ∀ i, i < 16 → m (a + i) = m' (a + i)) :
    load m a = load m' a := by
  have hf : ∀ o k, o + k ≤ 16 → m.le (a + o) k = m'.le (a + o) k := by
    intro o k hok
    refine ByteMem.le_congr _ _ _ _ ?_
    intro i hi
    rw [show a + o + i = a + (o + i) by omega]
    exact h (o + i) (by omega)
  unfold load addrAt lenAt flagsAt
  rw [hf 8 4 (by omega), hf 12 2 (by omega), hf 14 2 (by omega)]
  have h0 := hf 0 8 (by omega)
  rw [Nat.add_zero] at h0
  rw [h0]

theorem load_write_apart (m : ByteMem) (a : Nat) (bs : List UInt8) (b : Nat)
    (h : Apart a bs.length b 16) : load (m.write a bs) b = load m b := by
  unfold Apart at h
  exact load_congr _ _ b (fun i hi => ByteMem.write_outside m a bs (b + i) (by omega))

end VringPackedDesc

end Microv
