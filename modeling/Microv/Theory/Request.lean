import Microv.Theory.Handler
import Microv.Theory.RingInvariant
import Mathlib.Logic.Function.Iterate

/-!
# Running One Request

What the handler does to one request, from taking its head to standing behind
it, as a number of handler steps with an explicit final state.

The handler never looks at where a chain ends. It takes the head, reads a type
from the header, and then takes the number of descriptors that type calls for,
whatever they belong to. So the lemmas are about descriptors that are ready at
consecutive positions: a transfer takes three of them, any other type two, and
a chain cut short makes the handler give up.

## Main definitions

* `Ready`: A descriptor stands at a position and looks available there.
* `reqAccess`: The disk access a header and a data descriptor ask for.

## Theorems

* `handler_three`: A transfer.
* `handler_two`: A request of any other type.
* `handler_givesUp`: A missing descriptor.
-/

namespace Microv

/-- The descriptor at position `p` is `d`, and looks available there. -/
structure Ready (c : Ring) (m : ByteMem) (p : Nat) (d : VringPackedDesc) : Prop where
  load : VringPackedDesc.load m (c.vq.slot p) = d
  avail : d.flags.testBit descAvailBit = wrapAt c.n p
  used : d.flags.testBit descUsedBit = !wrapAt c.n p

theorem Ready.getAvail {c : Ring} {m : ByteMem} {p : Nat} {d : VringPackedDesc}
    (h : Ready c m p d) :
    virtqGetAvail m (c.vq.atPos p) = (some (c.vq.slot p), c.vq.atPos (p + 1)) := by
  have hav : looksAvail (wrapAt c.vq.info.size p)
      (VringPackedDesc.flagsAt m (c.vq.slot p)) = true := by
    rw [flagsAt_eq_load, h.load, looksAvail, h.avail, h.used]
    change (wrapAt c.n p == wrapAt c.n p && (!wrapAt c.n p) != wrapAt c.n p) = true
    cases wrapAt c.n p <;> rfl
  rw [virtqGetAvail_atPos _ _ _ c.size_pos c.size_lt, if_pos hav]

theorem Ready.takes {c : Ring} {s : Handler} {p : Nat} {d : VringPackedDesc}
    (h : Ready c s.mem p d) (hvq : s.vq = c.vq.atPos p) :
    s.takes (c.vq.slot p) = ⟨p % c.n, d⟩ := by
  rw [Handler.takes, h.load, hvq]
  rfl

/-- A descriptor stays ready under changes off the ring. -/
theorem Ready.congr {c : Ring} {m m' : ByteMem} {p : Nat} {d : VringPackedDesc}
    (h : Ready c m p d)
    (hload : VringPackedDesc.load m' (c.vq.slot p) = VringPackedDesc.load m (c.vq.slot p)) :
    Ready c m' p d :=
  ⟨hload.trans h.load, h.avail, h.used⟩

section

variable {c : Ring} {s : Handler} {d : VringPackedDesc} {p u : Nat}

/-- The head is taken, its header copied, and the shape chosen. -/
theorem handler_front (hpc : s.pc = .getHead) (hvq : s.vq = c.vq.atPos p)
    (hd : Ready c s.mem p d) (hnext : d.flags.testBit descNextBit = true) :
    (handlerStep c.ram.mapper)^[2] s = { s with
      vq := c.vq.atPos (p + 1), taken := [⟨p % c.n, d⟩],
      req := s.reqAfter c.ram.mapper d,
      pc := if isTransfer ((s.reqAfter c.ram.mapper d).le 0 4) then .getData (c.vq.slot p)
        else .getStatus (c.vq.slot p) blkSUnsupp 0 } := by
  have hav := hd.getAvail
  rw [← hvq] at hav
  rw [Function.iterate_succ_apply, handlerStep_getHead _ _ _ _ hpc hav, hd.takes hvq,
    Function.iterate_one]
  exact handlerStep_copyHeader _ _ _ d rfl hd.load hnext

/-- The data descriptor is taken and the disk accessed. -/
theorem handler_data (hpc : s.pc = .getData u) (hvq : s.vq = c.vq.atPos p)
    (hd : Ready c s.mem p d) (hnext : d.flags.testBit descNextBit = true)
    (hoff : Apart (c.ram.host d.addr) d.len c.vq.descRing (16 * c.n)) :
    (handlerStep c.ram.mapper)^[2] s = { s with
      vq := c.vq.atPos (p + 1), taken := s.taken ++ [⟨p % c.n, d⟩],
      mem := (s.access c.ram.mapper d).2.1, img := (s.access c.ram.mapper d).2.2,
      pc := .getStatus u (statusOf (s.access c.ram.mapper d).1) (s.access c.ram.mapper d).1 } := by
  have hav := hd.getAvail
  rw [← hvq] at hav
  have hslot := c.slot_mem p
  have hload := s.access_load c.ram.mapper d (c.vq.slot p)
    (hoff.mono (le_refl _) (le_refl _) hslot.1 hslot.2)
  rw [Function.iterate_succ_apply, handlerStep_getData _ _ _ _ _ hpc hav, hd.takes hvq,
    Function.iterate_one]
  refine handlerStep_transfer _ _ u _ d rfl hd.load ?_
  exact (congrArg (fun e => e.flags.testBit descNextBit) (hload.trans hd.load)).trans hnext

/-- The status descriptor is taken, the status stored, and the head marked
    used. -/
theorem handler_back {st : UInt8} {r : Int} (hpc : s.pc = .getStatus u st r)
    (hvq : s.vq = c.vq.atPos p) (hd : Ready c s.mem p d) :
    (handlerStep c.ram.mapper)^[4] s = { s with
      vq := c.vq.atPos (p + 1), taken := [],
      mem := completeMem (s.mem.write (c.ram.host d.addr) [st]) u r,
      log := s.log ++ [⟨s.taken ++ [⟨p % c.n, d⟩], c.vq.slot p, u⟩],
      pc := .getHead } := by
  have hav := hd.getAvail
  rw [← hvq] at hav
  have hhost : getUserspaceAddr c.ram.mapper d.addr = c.ram.host d.addr := rfl
  rw [Function.iterate_succ_apply, handlerStep_getStatus _ _ _ _ _ _ _ hpc hav, hd.takes hvq,
    Function.iterate_succ_apply,
    handlerStep_putStatus _ { s with
      vq := c.vq.atPos (p + 1), pc := .putStatus u (c.vq.slot p) st r,
      taken := s.taken ++ [⟨p % c.n, d⟩] } u _ st r d rfl hd.load, hhost,
    Function.iterate_succ_apply, Function.iterate_one]
  exact handlerStep_complete _ _ u (c.vq.slot p) r rfl

/-- A copied header has the type it was copied with. -/
theorem reqAfter_type (hlen : d.len = 16) :
    (s.reqAfter c.ram.mapper d).le 0 4 = s.mem.le (c.ram.host d.addr) 4 := by
  have hcopy := ByteMem.le_write_read s.req s.mem 0 (c.ram.host d.addr) 16 0 4 (by omega)
  rw [Nat.zero_add, Nat.add_zero] at hcopy
  rw [Handler.reqAfter, hlen]
  exact hcopy

theorem reqAfter_sector (hlen : d.len = 16) :
    (s.reqAfter c.ram.mapper d).le 8 8 = s.mem.le (c.ram.host d.addr + 8) 8 := by
  have hcopy := ByteMem.le_write_read s.req s.mem 0 (c.ram.host d.addr) 16 8 8 (by omega)
  rw [Nat.zero_add] at hcopy
  rw [Handler.reqAfter, hlen]
  exact hcopy

end

/-- The disk access of the header `h` with the data descriptor `d`. -/
def reqAccess (c : Ring) (m : ByteMem) (img : Diskimg) (h d : VringPackedDesc) :
    Int × ByteMem × Diskimg :=
  blkTransfer m img (m.le (c.ram.host h.addr) 4) (m.le (c.ram.host h.addr + 8) 8)
    (c.ram.host d.addr) d.len

section

variable {c : Ring} {s : Handler} {h d e : VringPackedDesc} {p : Nat}

/-- A transfer takes three descriptors, whatever chains they belong to. -/
theorem handler_three (hpc : s.pc = .getHead) (hvq : s.vq = c.vq.atPos p)
    (hh : Ready c s.mem p h) (hd : Ready c s.mem (p + 1) d) (he : Ready c s.mem (p + 2) e)
    (hnext : h.flags.testBit descNextBit = true) (dnext : d.flags.testBit descNextBit = true)
    (hlen : h.len = 16) (htype : isTransfer (s.mem.le (c.ram.host h.addr) 4) = true)
    (hoff : Apart (c.ram.host d.addr) d.len c.vq.descRing (16 * c.n)) :
    (handlerStep c.ram.mapper)^[8] s = { s with
      vq := c.vq.atPos (p + 3), taken := [], req := s.reqAfter c.ram.mapper h,
      mem := completeMem ((reqAccess c s.mem s.img h d).2.1.write (c.ram.host e.addr)
        [statusOf (reqAccess c s.mem s.img h d).1]) (c.vq.slot p)
        (reqAccess c s.mem s.img h d).1,
      img := (reqAccess c s.mem s.img h d).2.2,
      log := s.log ++ [⟨[⟨p % c.n, h⟩, ⟨(p + 1) % c.n, d⟩, ⟨(p + 2) % c.n, e⟩],
        c.vq.slot (p + 2), c.vq.slot p⟩],
      pc := .getHead } := by
  -- The two steps that copy the header, the two of the data, the four that finish.
  have hfront := handler_front hpc hvq hh hnext
  rw [reqAfter_type hlen, if_pos htype] at hfront
  generalize hs1 : (handlerStep c.ram.mapper)^[2] s = s1 at hfront
  have hmem1 : s1.mem = s.mem := by rw [hfront]
  have hacc : s1.access c.ram.mapper d = reqAccess c s.mem s.img h d := by
    rw [hfront, Handler.access, reqAccess, Handler.hdrType, Handler.hdrSector,
      reqAfter_type hlen, reqAfter_sector hlen]
    rfl
  have hdata := handler_data (c := c) (s := s1) (d := d) (p := p + 1) (u := c.vq.slot p)
    (by rw [hfront]) (by rw [hfront]) (by rw [hmem1]; exact hd) dnext hoff
  rw [hacc] at hdata
  generalize hs2 : (handlerStep c.ram.mapper)^[2] s1 = s2 at hdata
  have hready : Ready c s2.mem (p + 2) e := by
    have hslot := c.slot_mem (p + 2)
    refine he.congr ?_
    rw [hdata, ← hacc, ← hmem1]
    exact s1.access_load c.ram.mapper d _ (hoff.mono (le_refl _) (le_refl _) hslot.1 hslot.2)
  have hback := handler_back (c := c) (s := s2) (d := e) (p := p + 2) (u := c.vq.slot p)
    (by rw [hdata]) (by rw [hdata]) hready
  rw [show (8 : Nat) = 4 + 2 + 2 from rfl, Function.iterate_add_apply,
    Function.iterate_add_apply, hs1, hs2, hback, hdata, hfront]
  rfl

/-- Any other type takes two. -/
theorem handler_two (hpc : s.pc = .getHead) (hvq : s.vq = c.vq.atPos p)
    (hh : Ready c s.mem p h) (he : Ready c s.mem (p + 1) e)
    (hnext : h.flags.testBit descNextBit = true) (hlen : h.len = 16)
    (htype : isTransfer (s.mem.le (c.ram.host h.addr) 4) = false) :
    (handlerStep c.ram.mapper)^[6] s = { s with
      vq := c.vq.atPos (p + 2), taken := [], req := s.reqAfter c.ram.mapper h,
      mem := completeMem (s.mem.write (c.ram.host e.addr) [blkSUnsupp]) (c.vq.slot p) 0,
      log := s.log ++ [⟨[⟨p % c.n, h⟩, ⟨(p + 1) % c.n, e⟩], c.vq.slot (p + 1), c.vq.slot p⟩],
      pc := .getHead } := by
  have hfront := handler_front hpc hvq hh hnext
  rw [reqAfter_type hlen, htype, if_neg Bool.false_ne_true] at hfront
  generalize hs1 : (handlerStep c.ram.mapper)^[2] s = s1 at hfront
  have hmem1 : s1.mem = s.mem := by rw [hfront]
  have hback := handler_back (c := c) (s := s1) (d := e) (p := p + 1) (u := c.vq.slot p)
    (by rw [hfront]) (by rw [hfront]) (by rw [hmem1]; exact he)
  rw [show (6 : Nat) = 4 + 2 from rfl, Function.iterate_add_apply, hs1, hback, hfront]
  rfl

/-- A transfer whose second descriptor ends the chain is given up: the handler
    returns with the request neither answered nor marked used. -/
theorem handler_givesUp (hpc : s.pc = .getHead) (hvq : s.vq = c.vq.atPos p)
    (hh : Ready c s.mem p h) (hd : Ready c s.mem (p + 1) d)
    (hnext : h.flags.testBit descNextBit = true) (dnext : d.flags.testBit descNextBit = false)
    (hlen : h.len = 16) (htype : isTransfer (s.mem.le (c.ram.host h.addr) 4) = true)
    (hoff : Apart (c.ram.host d.addr) d.len c.vq.descRing (16 * c.n)) :
    ((handlerStep c.ram.mapper)^[4] s).pc = .done ∧
      ((handlerStep c.ram.mapper)^[4] s).log = s.log := by
  -- The header is taken, then the data descriptor.
  have hfront := handler_front hpc hvq hh hnext
  rw [reqAfter_type hlen, if_pos htype] at hfront
  generalize hs1 : (handlerStep c.ram.mapper)^[2] s = s1 at hfront
  have hmem1 : s1.mem = s.mem := by rw [hfront]
  have hlog1 : s1.log = s.log := by rw [hfront]
  have hready : Ready c s1.mem (p + 1) d := by rw [hmem1]; exact hd
  have hav := hready.getAvail
  have hvq1 : s1.vq = c.vq.atPos (p + 1) := by rw [hfront]
  rw [← hvq1] at hav
  have hget := handlerStep_getData c.ram.mapper s1 (c.vq.slot p) _ _ (by rw [hfront]) hav
  generalize hs2 : handlerStep c.ram.mapper s1 = s2 at hget
  have hmem2 : s2.mem = s1.mem := by rw [hget]
  have hlog2 : s2.log = s1.log := by rw [hget]
  have hslot := c.slot_mem (p + 1)
  have hload := s2.access_load c.ram.mapper d (c.vq.slot (p + 1))
    (hoff.mono (le_refl _) (le_refl _) hslot.1 hslot.2)
  -- It has no NEXT, so the handler returns after the transfer.
  have hend := handlerStep_transfer_end c.ram.mapper s2 (c.vq.slot p) (c.vq.slot (p + 1)) d
    (by rw [hget]) (by rw [hmem2]; exact hready.load)
    (by rw [hload, hmem2, hready.load]; exact dnext)
  rw [show (4 : Nat) = 1 + 1 + 2 from rfl, Function.iterate_add_apply,
    Function.iterate_add_apply, hs1, Function.iterate_one, hs2]
  exact ⟨hend.1, by rw [hend.2, hlog2, hlog1]⟩

end

end Microv
