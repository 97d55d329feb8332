import Microv.Theory.GuestMemory
import Microv.Theory.Virtqueue

/-!
# Steps of the Handler

One equation for each thing `virtio_blk_handle_output` can do next.

`handlerStep` is a single match over the program point, and inside it over
what `virtq_get_avail` finds. Each equation here names the point and the
answer it depends on, so a proof about a run picks the equation of the step
it is at and never opens the match again. A proof that holds for every step goes
over the list of them in `HandlerMove`.

## Main definitions

* `HandlerMove`: One branch of the handler, with its guards.

## Theorems

* `handlerStep_getHead`, `handlerStep_idle`: The loop condition.
* `handlerStep_copyHeader`: The header is copied and the shape chosen.
* `handlerStep_getData`, `handlerStep_transfer`: The data descriptor.
* `handlerStep_getStatus`, `handlerStep_putStatus`: The status descriptor.
* `handlerStep_complete`: The two stores that complete a request.
* `handlerStep_stay`: A handler at its end.
* `handlerStep_move`: Everything a step can do.
* `handlerStep_vq`: A step takes a descriptor or leaves the queue alone.
* `handlerStep_toLen`: The two stores in the head come one after the other.
-/

namespace Microv

section

variable (mapper : Int → MemRegion) (s : Handler)

theorem handlerStep_getHead (d : Nat) (vq : Virtq) (hpc : s.pc = .getHead)
    (hav : virtqGetAvail s.mem s.vq = (some d, vq)) :
    handlerStep mapper s = { s with vq := vq, pc := .copyHeader d, taken := [s.takes d] } := by
  rw [handlerStep, hpc]
  simp only [hav]

theorem handlerStep_idle (vq : Virtq) (hpc : s.pc = .getHead)
    (hav : virtqGetAvail s.mem s.vq = (none, vq)) :
    handlerStep mapper s = { s with vq := vq, pc := .signal } := by
  rw [handlerStep, hpc]
  simp only [hav]

/-- Where the descriptor at `a` points, in host memory. -/
def Handler.bufferAt (a : Nat) : Nat :=
  getUserspaceAddr mapper (VringPackedDesc.addrAt s.mem a)

/-- The request the header is copied into. -/
def Handler.reqAfter (d : VringPackedDesc) : ByteMem :=
  s.req.write 0 (s.mem.read (getUserspaceAddr mapper d.addr) d.len)

/-- Where the handler goes once a header is copied: without NEXT it returns,
    and with it the type of the copied header decides what is taken next. -/
def Handler.pcAfter (u : Nat) (d : VringPackedDesc) : HandlerPc :=
  if d.flags.testBit descNextBit then
    if isTransfer ((s.reqAfter mapper d).le 0 4) then .getData u else .getStatus u blkSUnsupp 0
  else .done

theorem handlerStep_copyHeader_eq (u : Nat) (d : VringPackedDesc) (hpc : s.pc = .copyHeader u)
    (hd : VringPackedDesc.load s.mem u = d) :
    handlerStep mapper s
      = { s with req := s.reqAfter mapper d, pc := s.pcAfter mapper u d } := by
  subst hd
  rw [Handler.pcAfter]
  -- The code returns where the flag is clear.
  cases hnext : (VringPackedDesc.load s.mem u).flags.testBit descNextBit with
  | true =>
      have hcheck : virtqCheckNext s.mem u = true := hnext
      rw [handlerStep, hpc]
      simp only [hcheck, Bool.not_true, Bool.false_eq_true, if_false, if_true]
      rfl
  | false =>
      have hcheck : virtqCheckNext s.mem u = false := hnext
      rw [handlerStep, hpc]
      simp only [hcheck, Bool.not_false, Bool.false_eq_true, if_false, if_true]
      rfl

/-- With NEXT set, the type of the copied header decides what is taken next. -/
theorem handlerStep_copyHeader (u : Nat) (d : VringPackedDesc) (hpc : s.pc = .copyHeader u)
    (hd : VringPackedDesc.load s.mem u = d) (hnext : d.flags.testBit descNextBit = true) :
    handlerStep mapper s = { s with
      req := s.reqAfter mapper d,
      pc := if isTransfer ((s.reqAfter mapper d).le 0 4) then .getData u
        else .getStatus u blkSUnsupp 0 } := by
  rw [handlerStep_copyHeader_eq mapper s u d hpc hd, Handler.pcAfter, if_pos hnext]

/-- A missing data or status descriptor is dereferenced all the same. -/
theorem handlerStep_missing (vq : Virtq)
    (hpc : (∃ u, s.pc = .getData u) ∨ ∃ u st r, s.pc = .getStatus u st r)
    (hav : virtqGetAvail s.mem s.vq = (none, vq)) :
    handlerStep mapper s = { s with vq := vq, pc := .fault } := by
  rcases hpc with ⟨u, hpc⟩ | ⟨u, st, r, hpc⟩
  · rw [handlerStep, hpc]
    simp only [hav]
  · rw [handlerStep, hpc]
    simp only [hav]

theorem handlerStep_getData (u d : Nat) (vq : Virtq) (hpc : s.pc = .getData u)
    (hav : virtqGetAvail s.mem s.vq = (some d, vq)) :
    handlerStep mapper s
      = { s with vq := vq, pc := .transfer u d, taken := s.taken ++ [s.takes d] } := by
  rw [handlerStep, hpc]
  simp only [hav]

/-- The disk access the handler makes for the descriptor `d`. -/
def Handler.access (d : VringPackedDesc) : Int × ByteMem × Diskimg :=
  blkTransfer s.mem s.img s.hdrType s.hdrSector (getUserspaceAddr mapper d.addr) d.len

/-- The NEXT flag is tested after the transfer, in the memory it left. -/
theorem handlerStep_transfer_eq (u a : Nat) (hpc : s.pc = .transfer u a) :
    handlerStep mapper s = { s with
      mem := (s.access mapper (VringPackedDesc.load s.mem a)).2.1,
      img := (s.access mapper (VringPackedDesc.load s.mem a)).2.2,
      pc := if (!virtqCheckNext (s.access mapper (VringPackedDesc.load s.mem a)).2.1 a) = true
        then HandlerPc.done
        else .getStatus u (statusOf (s.access mapper (VringPackedDesc.load s.mem a)).1)
          (s.access mapper (VringPackedDesc.load s.mem a)).1 } := by
  rw [handlerStep, hpc]
  rfl

theorem handlerStep_transfer (u a : Nat) (d : VringPackedDesc) (hpc : s.pc = .transfer u a)
    (hd : VringPackedDesc.load s.mem a = d)
    (hnext : (VringPackedDesc.load (s.access mapper d).2.1 a).flags.testBit descNextBit = true) :
    handlerStep mapper s = { s with
      mem := (s.access mapper d).2.1,
      img := (s.access mapper d).2.2,
      pc := .getStatus u (statusOf (s.access mapper d).1) (s.access mapper d).1 } := by
  subst hd
  have hcheck : virtqCheckNext (s.access mapper (VringPackedDesc.load s.mem a)).2.1 a = true :=
    hnext
  rw [handlerStep_transfer_eq _ _ u a hpc]
  simp only [hcheck, Bool.not_true, Bool.false_eq_true, if_false]

/-- Without NEXT on the data descriptor the handler returns. -/
theorem handlerStep_transfer_end (u a : Nat) (d : VringPackedDesc) (hpc : s.pc = .transfer u a)
    (hd : VringPackedDesc.load s.mem a = d)
    (hnext : (VringPackedDesc.load (s.access mapper d).2.1 a).flags.testBit descNextBit = false) :
    (handlerStep mapper s).pc = .done ∧ (handlerStep mapper s).log = s.log := by
  subst hd
  have hcheck : virtqCheckNext (s.access mapper (VringPackedDesc.load s.mem a)).2.1 a = false :=
    hnext
  rw [handlerStep_transfer_eq _ _ u a hpc, hcheck]
  exact ⟨rfl, rfl⟩

theorem handlerStep_getStatus (u d : Nat) (st : UInt8) (r : Int) (vq : Virtq)
    (hpc : s.pc = .getStatus u st r) (hav : virtqGetAvail s.mem s.vq = (some d, vq)) :
    handlerStep mapper s
      = { s with vq := vq, pc := .putStatus u d st r, taken := s.taken ++ [s.takes d] } := by
  rw [handlerStep, hpc]
  simp only [hav]

theorem handlerStep_putStatus (u a : Nat) (st : UInt8) (r : Int) (d : VringPackedDesc)
    (hpc : s.pc = .putStatus u a st r) (hd : VringPackedDesc.load s.mem a = d) :
    handlerStep mapper s = { s with
      mem := s.mem.write (getUserspaceAddr mapper d.addr) [st], pc := .putFlags u a r } := by
  subst hd
  rw [handlerStep, hpc]
  rfl

/-- Memory once the head at `u` is marked used and given the length `r`. -/
def completeMem (m : ByteMem) (u : Nat) (r : Int) : ByteMem :=
  (m.writeLE (u + 14) 2 (VringPackedDesc.flagsAt m u ^^^ 2 ^ descUsedBit)).writeLE (u + 8) 4
    (r % 2 ^ 32).toNat

theorem handlerStep_putFlags (u d : Nat) (r : Int) (hpc : s.pc = .putFlags u d r) :
    handlerStep mapper s = { s with
      mem := s.mem.writeLE (u + 14) 2 (VringPackedDesc.flagsAt s.mem u ^^^ 2 ^ descUsedBit),
      pc := .putLen u d r } := by
  rw [handlerStep, hpc]

theorem handlerStep_putLen (u d : Nat) (r : Int) (hpc : s.pc = .putLen u d r) :
    handlerStep mapper s = { s with
      mem := s.mem.writeLE (u + 8) 4 (r % 2 ^ 32).toNat, pc := .getHead,
      log := s.log ++ [⟨s.taken, d, u⟩], taken := [] } := by
  rw [handlerStep, hpc]

theorem handlerStep_complete (u d : Nat) (r : Int) (hpc : s.pc = .putFlags u d r) :
    handlerStep mapper (handlerStep mapper s) = { s with
      mem := completeMem s.mem u r, pc := .getHead,
      log := s.log ++ [⟨s.taken, d, u⟩], taken := [] } := by
  rw [handlerStep_putFlags mapper s u d r hpc, handlerStep_putLen mapper _ u d r rfl]
  rfl

theorem handlerStep_signal (hpc : s.pc = .signal) :
    handlerStep mapper s = if s.mem.le (s.vq.guestEvent + 2) 2 = eventFlagEnable then
        { s with isrStatus := s.isrStatus ||| 1, irqs := s.irqs + 1, pc := .done }
      else { s with pc := .done } := by
  rw [handlerStep, hpc]

/-- A handler that has returned, or run into a null pointer, stays as it is. -/
theorem handlerStep_stay (hpc : s.pc = .done ∨ s.pc = .fault) : handlerStep mapper s = s := by
  rcases hpc with h | h
  · rw [handlerStep, h]
  · rw [handlerStep, h]

end

/-- One branch of the handler: where it is taken, on what test, and the state
    behind it. The memory a store leaves is named, so that a proof that does not
    look at it does not see the store. -/
inductive HandlerMove (mapper : Int → MemRegion) (s : Handler) : Handler → Prop where
  | takeHead (vq : Virtq) (hpc : s.pc = .getHead) (hready : s.vq.ready s.mem = true)
      (hav : virtqGetAvail s.mem s.vq = (some s.vq.next, vq)) :
      HandlerMove mapper s
        { s with vq := vq, pc := .copyHeader s.vq.next, taken := [s.takes s.vq.next] }
  | idle (hpc : s.pc = .getHead) (hready : s.vq.ready s.mem = false) :
      HandlerMove mapper s { s with pc := .signal }
  | headerEnd (u : Nat) (hpc : s.pc = .copyHeader u) (hnext : virtqCheckNext s.mem u = false) :
      HandlerMove mapper s
        { s with req := s.reqAfter mapper (VringPackedDesc.load s.mem u), pc := .done }
  | headerData (u : Nat) (hpc : s.pc = .copyHeader u) (hnext : virtqCheckNext s.mem u = true)
      (ht : isTransfer ((s.reqAfter mapper (VringPackedDesc.load s.mem u)).le 0 4) = true) :
      HandlerMove mapper s
        { s with req := s.reqAfter mapper (VringPackedDesc.load s.mem u), pc := .getData u }
  | headerStatus (u : Nat) (hpc : s.pc = .copyHeader u) (hnext : virtqCheckNext s.mem u = true)
      (ht : isTransfer ((s.reqAfter mapper (VringPackedDesc.load s.mem u)).le 0 4) = false) :
      HandlerMove mapper s
        { s with
          req := s.reqAfter mapper (VringPackedDesc.load s.mem u),
          pc := .getStatus u blkSUnsupp 0 }
  | takeData (u : Nat) (vq : Virtq) (hpc : s.pc = .getData u) (hready : s.vq.ready s.mem = true)
      (hav : virtqGetAvail s.mem s.vq = (some s.vq.next, vq)) :
      HandlerMove mapper s
        { s with
          vq := vq, pc := .transfer u s.vq.next, taken := s.taken ++ [s.takes s.vq.next] }
  | missingData (u : Nat) (hpc : s.pc = .getData u) (hready : s.vq.ready s.mem = false) :
      HandlerMove mapper s { s with pc := .fault }
  | transferEnd (u a : Nat) (res : Int × ByteMem × Diskimg) (hpc : s.pc = .transfer u a)
      (hres : s.access mapper (VringPackedDesc.load s.mem a) = res)
      (hnext : virtqCheckNext res.2.1 a = false) :
      HandlerMove mapper s { s with mem := res.2.1, img := res.2.2, pc := .done }
  | transferNext (u a : Nat) (res : Int × ByteMem × Diskimg) (hpc : s.pc = .transfer u a)
      (hres : s.access mapper (VringPackedDesc.load s.mem a) = res)
      (hnext : virtqCheckNext res.2.1 a = true) :
      HandlerMove mapper s
        { s with
          mem := res.2.1, img := res.2.2, pc := .getStatus u (statusOf res.1) res.1 }
  | takeStatus (u : Nat) (st : UInt8) (r : Int) (vq : Virtq) (hpc : s.pc = .getStatus u st r)
      (hready : s.vq.ready s.mem = true)
      (hav : virtqGetAvail s.mem s.vq = (some s.vq.next, vq)) :
      HandlerMove mapper s
        { s with
          vq := vq, pc := .putStatus u s.vq.next st r,
          taken := s.taken ++ [s.takes s.vq.next] }
  | missingStatus (u : Nat) (st : UInt8) (r : Int) (hpc : s.pc = .getStatus u st r)
      (hready : s.vq.ready s.mem = false) :
      HandlerMove mapper s { s with pc := .fault }
  | putStatus (u a : Nat) (st : UInt8) (r : Int) (mem : ByteMem) (hpc : s.pc = .putStatus u a st r)
      (hmem : s.mem.write (s.bufferAt mapper a) [st] = mem) :
      HandlerMove mapper s { s with mem := mem, pc := .putFlags u a r }
  | putFlags (u a : Nat) (r : Int) (mem : ByteMem) (hpc : s.pc = .putFlags u a r)
      (hmem : s.mem.writeLE (u + 14) 2
        (VringPackedDesc.flagsAt s.mem u ^^^ 2 ^ descUsedBit) = mem) :
      HandlerMove mapper s { s with mem := mem, pc := .putLen u a r }
  | putLen (u a : Nat) (r : Int) (mem : ByteMem) (hpc : s.pc = .putLen u a r)
      (hmem : s.mem.writeLE (u + 8) 4 (r % 2 ^ 32).toNat = mem) :
      HandlerMove mapper s
        { s with mem := mem, pc := .getHead, log := s.log ++ [⟨s.taken, a, u⟩], taken := [] }
  | raise (hpc : s.pc = .signal)
      (hevent : s.mem.le (s.vq.guestEvent + 2) 2 = eventFlagEnable) :
      HandlerMove mapper s
        { s with isrStatus := s.isrStatus ||| 1, irqs := s.irqs + 1, pc := .done }
  | silent (hpc : s.pc = .signal)
      (hevent : s.mem.le (s.vq.guestEvent + 2) 2 ≠ eventFlagEnable) :
      HandlerMove mapper s { s with pc := .done }
  | stay (hpc : s.pc = .done ∨ s.pc = .fault) : HandlerMove mapper s s

/-- Every step is one of the branches. -/
theorem handlerStep_move (mapper : Int → MemRegion) (s : Handler) :
    HandlerMove mapper s (handlerStep mapper s) := by
  -- One move for each branch; the guard of the branch comes along.
  cases hpc : s.pc with
  | getHead =>
      rcases virtqGetAvail_cases s.mem s.vq with ⟨vq, hav, hready⟩ | ⟨hav, hready⟩
      · rw [handlerStep_getHead mapper s _ _ hpc hav]
        exact .takeHead vq hpc hready hav
      · rw [handlerStep_idle mapper s _ hpc hav]
        exact .idle hpc hready
  | copyHeader u =>
      rw [handlerStep_copyHeader_eq mapper s u _ hpc rfl, Handler.pcAfter]
      cases hnext : virtqCheckNext s.mem u with
      | false =>
          -- A header alone ends the call.
          have hbit : (VringPackedDesc.load s.mem u).flags.testBit descNextBit = false := hnext
          rw [hbit, if_neg Bool.false_ne_true]
          exact .headerEnd u hpc hnext
      | true =>
          have hbit : (VringPackedDesc.load s.mem u).flags.testBit descNextBit = true := hnext
          rw [if_pos hbit]
          split_ifs with ht
          · exact .headerData u hpc hnext ht
          · exact .headerStatus u hpc hnext (Bool.eq_false_iff.mpr ht)
  | getData u =>
      rcases virtqGetAvail_cases s.mem s.vq with ⟨vq, hav, hready⟩ | ⟨hav, hready⟩
      · rw [handlerStep_getData mapper s u _ _ hpc hav]
        exact .takeData u vq hpc hready hav
      · rw [handlerStep_missing mapper s _ (Or.inl ⟨u, hpc⟩) hav]
        exact .missingData u hpc hready
  | transfer u a =>
      rw [handlerStep_transfer_eq mapper s u a hpc]
      cases hnext : virtqCheckNext (s.access mapper (VringPackedDesc.load s.mem a)).2.1 a with
      | false => exact .transferEnd u a _ hpc rfl hnext
      | true => exact .transferNext u a _ hpc rfl hnext
  | getStatus u st r =>
      rcases virtqGetAvail_cases s.mem s.vq with ⟨vq, hav, hready⟩ | ⟨hav, hready⟩
      · rw [handlerStep_getStatus mapper s u _ st r _ hpc hav]
        exact .takeStatus u st r vq hpc hready hav
      · rw [handlerStep_missing mapper s _ (Or.inr ⟨u, st, r, hpc⟩) hav]
        exact .missingStatus u st r hpc hready
  | putStatus u a st r =>
      rw [handlerStep_putStatus mapper s u a st r _ hpc rfl]
      exact .putStatus u a st r _ hpc rfl
  | putFlags u a r =>
      rw [handlerStep_putFlags mapper s u a r hpc]
      exact .putFlags u a r _ hpc rfl
  | putLen u a r =>
      rw [handlerStep_putLen mapper s u a r hpc]
      exact .putLen u a r _ hpc rfl
  | signal =>
      rw [handlerStep_signal mapper s hpc]
      split_ifs with hevent
      · exact .raise hpc hevent
      · exact .silent hpc hevent
  | done =>
      rw [handlerStep_stay mapper s (Or.inl hpc)]
      exact .stay (Or.inl hpc)
  | fault =>
      rw [handlerStep_stay mapper s (Or.inr hpc)]
      exact .stay (Or.inr hpc)

/-- A step of the handler takes a descriptor or leaves the queue alone. -/
theorem handlerStep_vq (mapper : Int → MemRegion) (s : Handler) :
    (handlerStep mapper s).vq = s.vq ∨
      (handlerStep mapper s).vq = (virtqGetAvail s.mem s.vq).2 := by
  have hmove := handlerStep_move mapper s
  generalize handlerStep mapper s = s' at hmove
  cases hmove with
  | takeHead vq _ _ hav | takeData _ vq _ _ hav | takeStatus _ _ _ vq _ _ hav =>
      exact Or.inr (by rw [hav])
  -- The other steps do not take a descriptor.
  | _ => exact Or.inl rfl

theorem virtqGetAvail_info (m : ByteMem) (vq : Virtq) : (virtqGetAvail m vq).2.info = vq.info := by
  unfold virtqGetAvail
  simp only
  split_ifs <;> rfl

/-- Only the first of the two completing stores leads to the second. -/
theorem handlerStep_toLen (mapper : Int → MemRegion) (s : Handler) (u d : Nat) (r : Int)
    (h : (handlerStep mapper s).pc = .putLen u d r) : s.pc = .putFlags u d r := by
  have hmove := handlerStep_move mapper s
  generalize handlerStep mapper s = s' at hmove h
  cases hmove with
  | putFlags u' d' r' _ hpc =>
      simp only [HandlerPc.putLen.injEq] at h
      rw [hpc, h.1, h.2.1, h.2.2]
  | stay hpc => rcases hpc with hpc | hpc <;> exact HandlerPc.noConfusion (hpc.symm.trans h)
  | _ => exact HandlerPc.noConfusion h

/-- Completing a request leaves memory outside the head's length and flags as
    it was. -/
theorem completeMem_outside (m : ByteMem) (u : Nat) (r : Int) (x : Nat)
    (hx : x < u + 8 ∨ u + 16 ≤ x) : completeMem m u r x = m x := by
  rw [completeMem, ByteMem.writeLE, ByteMem.write_outside _ _ _ _
    (by rw [ByteMem.length_leBytes]; omega), ByteMem.writeLE,
    ByteMem.write_outside _ _ _ _ (by rw [ByteMem.length_leBytes]; omega)]

/-- The flag store toggles USED and keeps the other flags. -/
theorem flagsAt_putFlags (m : ByteMem) (u : Nat) :
    VringPackedDesc.flagsAt
      (m.writeLE (u + 14) 2 (VringPackedDesc.flagsAt m u ^^^ 2 ^ descUsedBit)) u
      = VringPackedDesc.flagsAt m u ^^^ 2 ^ descUsedBit := by
  have hlt : VringPackedDesc.flagsAt m u ^^^ 2 ^ descUsedBit < 2 ^ 16 :=
    Nat.xor_lt_two_pow (by rw [VringPackedDesc.flagsAt]; exact m.le_lt _ 2) (by decide)
  rw [VringPackedDesc.flagsAt, ByteMem.le_writeLE_self _ _ _ _ (by omega)]

/-- The completed head's flags differ from the old ones in USED only. -/
theorem flagsAt_completeMem (m : ByteMem) (u : Nat) (r : Int) :
    VringPackedDesc.flagsAt (completeMem m u r) u
      = VringPackedDesc.flagsAt m u ^^^ 2 ^ descUsedBit := by
  rw [VringPackedDesc.flagsAt, completeMem,
    ByteMem.le_writeLE_apart _ _ _ _ _ _ (.of_le (by omega))]
  exact flagsAt_putFlags m u

/-- A disk access changes memory only inside the data buffer. -/
theorem Handler.access_load (mapper : Int → MemRegion) (s : Handler) (d : VringPackedDesc)
    (a : Nat) (h : Apart (getUserspaceAddr mapper d.addr) d.len a 16) :
    VringPackedDesc.load (s.access mapper d).2.1 a = VringPackedDesc.load s.mem a := by
  unfold Apart at h
  exact VringPackedDesc.load_congr _ _ a
    (fun i hi => blkTransfer_outside _ _ _ _ _ _ _ (by omega))

/-- Only a read writes memory. -/
theorem Handler.access_mem_out (mapper : Int → MemRegion) (s : Handler) (d : VringPackedDesc)
    (h : s.hdrType ≠ blkTIn) : (s.access mapper d).2.1 = s.mem := by
  rw [Handler.access, blkTransfer, if_neg h]

end Microv
