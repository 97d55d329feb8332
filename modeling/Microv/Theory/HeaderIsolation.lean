import Microv.Theory.Request

/-!
# Request Headers

How much of one request's header reaches another.

The handler keeps one `req` on its stack for all the requests of a call, and
copies each header over it with the length the guest put in the descriptor. A
longer header overruns the sixteen bytes of `req.hdr`; a shorter one leaves the
end of the type or the sector as an earlier request, or the stack, had it.

`HeaderIsolated` is the property of one copy, for every content `req` may have
had. It holds exactly when the header is sixteen bytes long, or is shorter and
yet already refused by what it does hold (`HeaderFits`). The run lemma is about
two handlers that differ in `req` and in what they did before: as long as the
headers they copy fit, they do the same.

## Main definitions

* `Rejects`: The handler goes on without acting on a header.
* `HeaderIsolated`: A copy stays in its place and inherits nothing.
* `HeaderFits`: The condition on the descriptor and the bytes of a header.
* `Agree`: Two handlers that will act alike.

## Theorems

* `headerIsolated_iff`: The condition is exact, for one header.
* `agree_step`, `agree_iterate`: Two handlers do the same.
* `header_isolation`: Both, for a whole run.
-/

namespace Microv

/-- The points at which the type and sector in `req` are still to be used. -/
def HandlerPc.acts : HandlerPc → Bool
  | .getData _ | .transfer _ _ => true
  | _ => false

/-- The handler returns, or goes on to answer with an error, without using the
    header. -/
def Rejects (pc : HandlerPc) : Prop :=
  pc = .done ∨ ∃ u st r, pc = .getStatus u st r ∧ st ≠ blkSOk

section

variable (mapper : Int → MemRegion) (s : Handler) (u : Nat)

/-- The step that copies a header, with `req` holding anything before it. -/
def Handler.copyOver (req : ByteMem) : Handler :=
  handlerStep mapper { s with req := req }

/-- Whatever `req` held before: the copy changes `req.hdr` only, where the
    handler goes and the type and sector it will act on are the header's own,
    and a short header is rejected. -/
structure HeaderIsolated : Prop where
  frame : ∀ req x, 16 ≤ x → (s.copyOver mapper req).req x = req x
  own : ∀ req req', (s.copyOver mapper req).pc = (s.copyOver mapper req').pc ∧
    ((s.copyOver mapper req).pc.acts = true →
      (s.copyOver mapper req).hdrType = (s.copyOver mapper req').hdrType ∧
      (s.copyOver mapper req).hdrSector = (s.copyOver mapper req').hdrSector)
  short : VringPackedDesc.lenAt s.mem u < 16 → ∀ req, Rejects (s.copyOver mapper req).pc

/-- The header is sixteen bytes long; or it is shorter, and its descriptor ends
    the chain or the bytes of the type it has are neither IN nor OUT. -/
def HeaderFits : Prop :=
  let len := VringPackedDesc.lenAt s.mem u
  len = 16 ∨ len < 16 ∧ (virtqCheckNext s.mem u = false ∨
    2 ≤ s.mem.le (s.bufferAt mapper u) (min len 4))

end

theorem isTransfer_iff (type : Nat) : isTransfer type = true ↔ type < 2 := by
  simp only [isTransfer, blkTIn, blkTOut, Bool.or_eq_true, beq_iff_eq]
  omega

section

variable {mapper : Int → MemRegion} {s : Handler} {u : Nat}

theorem copied_req (hpc : s.pc = .copyHeader u) :
    (handlerStep mapper s).req
      = s.req.write 0 (s.mem.read (s.bufferAt mapper u) (VringPackedDesc.lenAt s.mem u)) := by
  rw [handlerStep_copyHeader_eq mapper s u _ hpc rfl]
  simp only [Handler.reqAfter, Handler.bufferAt, VringPackedDesc.load]

theorem copied_pc (hpc : s.pc = .copyHeader u) :
    (handlerStep mapper s).pc = if virtqCheckNext s.mem u then
        if isTransfer (handlerStep mapper s).hdrType then .getData u
        else .getStatus u blkSUnsupp 0
      else .done := by
  have hflag : (VringPackedDesc.load s.mem u).flags.testBit descNextBit
      = virtqCheckNext s.mem u := rfl
  rw [handlerStep_copyHeader_eq mapper s u _ hpc rfl, Handler.pcAfter, hflag, Handler.hdrType]

theorem copyOver_req (hpc : s.pc = .copyHeader u) (req : ByteMem) :
    (s.copyOver mapper req).req
      = req.write 0 (s.mem.read (s.bufferAt mapper u) (VringPackedDesc.lenAt s.mem u)) :=
  copied_req (s := { s with req := req }) hpc

theorem copyOver_pc (hpc : s.pc = .copyHeader u) (req : ByteMem) :
    (s.copyOver mapper req).pc = if virtqCheckNext s.mem u then
        if isTransfer (s.copyOver mapper req).hdrType then .getData u
        else .getStatus u blkSUnsupp 0
      else .done :=
  copied_pc (s := { s with req := req }) hpc

/-- The type after a copy: the bytes the header has, then what was there. -/
theorem copyOver_type (hpc : s.pc = .copyHeader u) (req : ByteMem) (k : Nat)
    (hk : k = min (VringPackedDesc.lenAt s.mem u) 4) :
    (s.copyOver mapper req).hdrType
      = s.mem.le (s.bufferAt mapper u) k + 256 ^ k * req.le k (4 - k) := by
  have hsplit := (s.copyOver mapper req).req.le_add 0 k (4 - k)
  rw [show k + (4 - k) = 4 by omega, Nat.zero_add, copyOver_req hpc] at hsplit
  have hown := ByteMem.le_write_read req s.mem 0 (s.bufferAt mapper u)
    (VringPackedDesc.lenAt s.mem u) 0 k (by omega)
  have hold := ByteMem.le_write_apart req 0
    (s.mem.read (s.bufferAt mapper u) (VringPackedDesc.lenAt s.mem u)) k (4 - k)
    (by unfold Apart; rw [ByteMem.length_read]; omega)
  rw [Nat.add_zero, Nat.add_zero] at hown
  rw [Handler.hdrType, copyOver_req hpc, hsplit, hown, hold]

theorem copyOver_frame (hpc : s.pc = .copyHeader u) (hlen : VringPackedDesc.lenAt s.mem u ≤ 16)
    (req : ByteMem) (x : Nat) (hx : 16 ≤ x) : (s.copyOver mapper req).req x = req x := by
  rw [copyOver_req hpc]
  exact ByteMem.write_outside _ _ _ _ (by rw [ByteMem.length_read]; omega)

/-- A whole header brings its own type and sector. -/
theorem headerIsolated_of_full (hpc : s.pc = .copyHeader u)
    (h16 : VringPackedDesc.lenAt s.mem u = 16) : HeaderIsolated mapper s u := by
  have htype : ∀ req, (s.copyOver mapper req).hdrType = s.mem.le (s.bufferAt mapper u) 4 := by
    intro req
    rw [copyOver_type hpc req 4 (by rw [h16]; rfl)]
    exact Nat.add_zero _
  have hsector : ∀ req,
      (s.copyOver mapper req).hdrSector = s.mem.le (s.bufferAt mapper u + 8) 8 := by
    intro req
    have hcopy := ByteMem.le_write_read req s.mem 0 (s.bufferAt mapper u) 16 8 8 (by omega)
    rw [Nat.zero_add] at hcopy
    rw [Handler.hdrSector, copyOver_req hpc, h16]
    exact hcopy
  refine ⟨copyOver_frame hpc (by omega), ?_, fun hlt => absurd hlt (by omega)⟩
  intro req req'
  rw [copyOver_pc hpc req, copyOver_pc hpc req', htype req, htype req', hsector req, hsector req']
  exact ⟨rfl, fun _ => ⟨rfl, rfl⟩⟩

/-- A short header that ends its chain, or whose type is not a transfer
    whatever follows, sends the handler the same way over any buffer. -/
theorem headerIsolated_of_short (hpc : s.pc = .copyHeader u)
    (hlt : VringPackedDesc.lenAt s.mem u < 16)
    (hrej : virtqCheckNext s.mem u = false ∨
      2 ≤ s.mem.le (s.bufferAt mapper u) (min (VringPackedDesc.lenAt s.mem u) 4)) :
    HeaderIsolated mapper s u := by
  -- Whatever stood in the record, the request is turned down.
  have hpcs : ∀ req, (s.copyOver mapper req).pc
      = if virtqCheckNext s.mem u then .getStatus u blkSUnsupp 0 else .done := by
    intro req
    rw [copyOver_pc hpc req]
    rcases hrej with hno | hbig
    · rw [hno]
      rfl
    · have hnot : ¬ isTransfer (s.copyOver mapper req).hdrType = true := by
        rw [isTransfer_iff, copyOver_type hpc req _ rfl]
        omega
      rw [if_neg hnot]
  refine ⟨copyOver_frame hpc (by omega), ?_, ?_⟩
  · intro req req'
    rw [hpcs req, hpcs req']
    refine ⟨rfl, fun hacts => ?_⟩
    split_ifs at hacts <;> exact absurd hacts Bool.false_ne_true
  · intro _ req
    rw [hpcs req]
    split_ifs
    · exact Or.inr ⟨u, blkSUnsupp, 0, rfl, by decide⟩
    · exact Or.inl rfl

/-- A copy that changes nothing but `req.hdr` is no longer than it. -/
theorem HeaderIsolated.len_le (h : HeaderIsolated mapper s u) (hpc : s.pc = .copyHeader u) :
    VringPackedDesc.lenAt s.mem u ≤ 16 := by
  by_contra hgt
  -- A seventeenth byte would be what it was in any buffer.
  have hbyte : ∀ b : UInt8, s.mem (s.bufferAt mapper u + 16) = b := by
    intro b
    have hframe := h.frame (fun _ => b) 16 (le_refl _)
    rw [copyOver_req hpc] at hframe
    have hin := ByteMem.write_inside (fun _ => b) 0
      (s.mem.read (s.bufferAt mapper u) (VringPackedDesc.lenAt s.mem u)) 16
      (by rw [ByteMem.length_read]; omega)
    rw [ByteMem.getElem_read] at hin
    exact hin.symm.trans hframe
  exact absurd ((hbyte 0).symm.trans (hbyte 1)) (by decide)

/-- Over a cleared buffer, a short header that names a transfer gets one. -/
theorem HeaderIsolated.rejected (h : HeaderIsolated mapper s u) (hpc : s.pc = .copyHeader u)
    (hlt : VringPackedDesc.lenAt s.mem u < 16) :
    virtqCheckNext s.mem u = false ∨
      2 ≤ s.mem.le (s.bufferAt mapper u) (min (VringPackedDesc.lenAt s.mem u) 4) := by
  by_contra hno
  rw [not_or, Bool.not_eq_false, Nat.not_le] at hno
  have htype : isTransfer (s.copyOver mapper fun _ => 0).hdrType = true := by
    rw [isTransfer_iff, copyOver_type hpc _ _ rfl]
    have hzero := ByteMem.le_zero (fun _ => 0) (min (VringPackedDesc.lenAt s.mem u) 4)
      (4 - min (VringPackedDesc.lenAt s.mem u) 4) (fun _ _ => rfl)
    rw [hzero, Nat.mul_zero, Nat.add_zero]
    exact hno.2
  have hgo : (s.copyOver mapper fun _ => 0).pc = .getData u := by
    rw [copyOver_pc hpc, hno.1, if_pos rfl, if_pos htype]
  rcases h.short hlt (fun _ => 0) with hdone | ⟨u', st, r, hst, -⟩
  · exact HandlerPc.noConfusion (hgo.symm.trans hdone)
  · exact HandlerPc.noConfusion (hgo.symm.trans hst)

/-- A copy is isolated exactly when its header fits. -/
theorem headerIsolated_iff (hpc : s.pc = .copyHeader u) :
    HeaderIsolated mapper s u ↔ HeaderFits mapper s u := by
  constructor
  · intro h
    rcases Nat.lt_or_eq_of_le (h.len_le hpc) with hlt | h16
    · exact Or.inr ⟨hlt, h.rejected hpc hlt⟩
    · exact Or.inl h16
  · rintro (h16 | ⟨hlt, hrej⟩)
    · exact headerIsolated_of_full hpc h16
    · exact headerIsolated_of_short hpc hlt hrej

end

/-- Two handlers at the same point of the same work, whatever they did before:
    what is left in `req` counts only where it is still to be used. -/
structure Agree (s t : Handler) : Prop where
  vq : t.vq = s.vq
  mem : t.mem = s.mem
  img : t.img = s.img
  isrStatus : t.isrStatus = s.isrStatus
  irqs : t.irqs = s.irqs
  pc : t.pc = s.pc
  acts : s.pc.acts = true → t.hdrType = s.hdrType ∧ t.hdrSector = s.hdrSector

/-- The header the handler is about to copy, if it is, fits. -/
def CopyFits (mapper : Int → MemRegion) (s : Handler) : Prop :=
  ∀ u, s.pc = .copyHeader u → HeaderFits mapper s u

section

variable {mapper : Int → MemRegion} {s t : Handler}

/-- A step that does not look at `req` does the same in both. -/
theorem Agree.of_eq {s' t' : Handler} (hvq : t'.vq = s'.vq) (hmem : t'.mem = s'.mem)
    (himg : t'.img = s'.img) (hisr : t'.isrStatus = s'.isrStatus) (hirqs : t'.irqs = s'.irqs)
    (hpc : t'.pc = s'.pc) (hacts : s'.pc.acts = false) : Agree s' t' :=
  ⟨hvq, hmem, himg, hisr, hirqs, hpc, fun h => absurd (hacts.symm.trans h) Bool.false_ne_true⟩

/-- Taking a head. -/
theorem agree_getHead (h : Agree s t) (hpc : s.pc = .getHead) :
    Agree (handlerStep mapper s) (handlerStep mapper t) := by
  have hpc' := h.pc.trans hpc
  have hsame : virtqGetAvail t.mem t.vq = virtqGetAvail s.mem s.vq := by rw [h.mem, h.vq]
  rcases hav : virtqGetAvail s.mem s.vq with ⟨_ | d, vq⟩
  · rw [handlerStep_idle mapper s vq hpc hav, handlerStep_idle mapper t vq hpc' (hsame.trans hav)]
    exact .of_eq rfl h.mem h.img h.isrStatus h.irqs rfl rfl
  · rw [handlerStep_getHead mapper s d vq hpc hav,
      handlerStep_getHead mapper t d vq hpc' (hsame.trans hav)]
    exact .of_eq rfl h.mem h.img h.isrStatus h.irqs rfl rfl

/-- The copy of a header that fits. -/
theorem agree_copyHeader {u : Nat} (h : Agree s t) (hpc : s.pc = .copyHeader u)
    (hfit : HeaderFits mapper s u) : Agree (handlerStep mapper s) (handlerStep mapper t) := by
  have hown := ((headerIsolated_iff hpc).mpr hfit).own s.req t.req
  have heqs := handlerStep_copyHeader_eq mapper s u _ hpc rfl
  have heqt := handlerStep_copyHeader_eq mapper t u _ (h.pc.trans hpc) rfl
  -- The other handler copies the same header over its own buffer.
  have hreq : (handlerStep mapper t).req = (s.copyOver mapper t.req).req := by
    rw [copied_req (h.pc.trans hpc), copyOver_req hpc, Handler.bufferAt, Handler.bufferAt, h.mem]
  have hpcs : (handlerStep mapper t).pc = (s.copyOver mapper t.req).pc := by
    rw [copied_pc (h.pc.trans hpc), copyOver_pc hpc, Handler.hdrType, Handler.hdrType, hreq, h.mem]
  refine ⟨?_, ?_, ?_, ?_, ?_, hpcs.trans hown.1.symm, ?_⟩
  · rw [heqs, heqt]
    exact h.vq
  · rw [heqs, heqt]
    exact h.mem
  · rw [heqs, heqt]
    exact h.img
  · rw [heqs, heqt]
    exact h.isrStatus
  · rw [heqs, heqt]
    exact h.irqs
  · intro hacts
    have heq := hown.2 hacts
    rw [Handler.hdrType, Handler.hdrSector, hreq]
    exact ⟨heq.1.symm, heq.2.symm⟩

/-- The transfer, for the type and sector both have. -/
theorem agree_transfer {u a : Nat} (h : Agree s t) (hpc : s.pc = .transfer u a) :
    Agree (handlerStep mapper s) (handlerStep mapper t) := by
  have hlive := h.acts (by rw [hpc]; rfl)
  have hacc : ∀ d, t.access mapper d = s.access mapper d := by
    intro d
    rw [Handler.access, Handler.access, h.mem, h.img, hlive.1, hlive.2]
  rw [handlerStep_transfer_eq mapper s u a hpc, handlerStep_transfer_eq mapper t u a
    (h.pc.trans hpc), h.mem, hacc]
  refine .of_eq h.vq rfl rfl h.isrStatus h.irqs rfl ?_
  dsimp only
  split_ifs <;> rfl

/-- Taking the data or the status descriptor. -/
theorem agree_follow (h : Agree s t)
    (hpc : (∃ u, s.pc = .getData u) ∨ ∃ u st r, s.pc = .getStatus u st r) :
    Agree (handlerStep mapper s) (handlerStep mapper t) := by
  have hsame : virtqGetAvail t.mem t.vq = virtqGetAvail s.mem s.vq := by rw [h.mem, h.vq]
  rcases hav : virtqGetAvail s.mem s.vq with ⟨_ | d, vq⟩
  · rw [handlerStep_missing mapper s vq hpc hav,
      handlerStep_missing mapper t vq (by rw [h.pc]; exact hpc) (hsame.trans hav)]
    exact .of_eq rfl h.mem h.img h.isrStatus h.irqs rfl rfl
  · rcases hpc with ⟨u, hpc⟩ | ⟨u, st, r, hpc⟩
    · rw [handlerStep_getData mapper s u d vq hpc hav,
        handlerStep_getData mapper t u d vq (h.pc.trans hpc) (hsame.trans hav)]
      exact ⟨rfl, h.mem, h.img, h.isrStatus, h.irqs, rfl, fun _ => h.acts (by rw [hpc]; rfl)⟩
    · rw [handlerStep_getStatus mapper s u d st r vq hpc hav,
        handlerStep_getStatus mapper t u d st r vq (h.pc.trans hpc) (hsame.trans hav)]
      exact .of_eq rfl h.mem h.img h.isrStatus h.irqs rfl rfl

/-- Two handlers at the same point do the same, as long as the header they
    copy fits. -/
theorem agree_step (h : Agree s t) (hfit : CopyFits mapper s) :
    Agree (handlerStep mapper s) (handlerStep mapper t) := by
  cases hpc : s.pc with
  | getHead => exact agree_getHead h hpc
  | copyHeader u => exact agree_copyHeader h hpc (hfit u hpc)
  | getData u => exact agree_follow h (Or.inl ⟨u, hpc⟩)
  | transfer u a => exact agree_transfer h hpc
  | getStatus u st r => exact agree_follow h (Or.inr ⟨u, st, r, hpc⟩)
  -- From here on nobody looks at the record of the header.
  | putStatus u a st r =>
      rw [handlerStep_putStatus mapper s u a st r _ hpc rfl,
        handlerStep_putStatus mapper t u a st r _ (h.pc.trans hpc) rfl, h.mem]
      exact .of_eq h.vq rfl h.img h.isrStatus h.irqs rfl rfl
  | putFlags u a r =>
      rw [handlerStep_putFlags mapper s u a r hpc,
        handlerStep_putFlags mapper t u a r (h.pc.trans hpc), h.mem]
      exact .of_eq h.vq rfl h.img h.isrStatus h.irqs rfl rfl
  | putLen u a r =>
      rw [handlerStep_putLen mapper s u a r hpc,
        handlerStep_putLen mapper t u a r (h.pc.trans hpc), h.mem]
      exact .of_eq h.vq rfl h.img h.isrStatus h.irqs rfl rfl
  | signal =>
      rw [handlerStep_signal mapper s hpc, handlerStep_signal mapper t (h.pc.trans hpc), h.mem,
        h.vq, h.isrStatus, h.irqs]
      split_ifs
      · exact .of_eq rfl rfl h.img rfl rfl rfl rfl
      · exact .of_eq rfl rfl h.img rfl rfl rfl rfl
  | done =>
      rw [handlerStep_stay mapper s (Or.inl hpc),
        handlerStep_stay mapper t (Or.inl (h.pc.trans hpc))]
      exact h
  | fault =>
      rw [handlerStep_stay mapper s (Or.inr hpc),
        handlerStep_stay mapper t (Or.inr (h.pc.trans hpc))]
      exact h

theorem agree_iterate (k : Nat) (h : Agree s t)
    (hfit : ∀ j, j < k → CopyFits mapper ((handlerStep mapper)^[j] s)) :
    Agree ((handlerStep mapper)^[k] s) ((handlerStep mapper)^[k] t) := by
  induction k with
  | zero => exact h
  | succ k ih =>
      rw [Function.iterate_succ_apply', Function.iterate_succ_apply']
      exact agree_step (ih fun j hj => hfit j (by omega)) (hfit k (by omega))

end

/-- Every copy of a header is isolated exactly when the header fits; and two
    handlers about to take the same request, whatever they did before and
    whatever is left in `req`, treat it and all that follow alike as long as the
    headers they come to fit. -/
theorem header_isolation (mapper : Int → MemRegion) :
    (∀ (s : Handler) (u : Nat), s.pc = .copyHeader u →
      (HeaderIsolated mapper s u ↔ HeaderFits mapper s u)) ∧
    ∀ (s t : Handler) (k : Nat), Agree s t →
      (∀ j, j < k → CopyFits mapper ((handlerStep mapper)^[j] s)) →
      Agree ((handlerStep mapper)^[k] s) ((handlerStep mapper)^[k] t) :=
  ⟨fun _ _ hpc => headerIsolated_iff hpc, fun _ _ k h hfit => agree_iterate k h hfit⟩

/-- The handler about to copy a header of `len` bytes, all of them zero. -/
def copyingHeader (len : Nat) : Handler :=
  handlerStep sampleMapper ((headerAt 0x4000 len).entered sampleMapper sampleQueue)

theorem header_isolation_full :
    (copyingHeader 16).pc = .copyHeader (2 ^ 45 + 0x1000) ∧
      HeaderIsolated sampleMapper (copyingHeader 16) (2 ^ 45 + 0x1000) :=
  ⟨by decide +kernel, ((header_isolation sampleMapper).1 (copyingHeader 16) (2 ^ 45 + 0x1000)
    (by decide +kernel)).mpr (Or.inl (by decide +kernel))⟩

/-- A header of seventeen bytes overwrites the byte after `req.hdr`, and one of
    four bytes asks for the sector that was in `req` before. -/
theorem header_not_isolated :
    ¬ HeaderIsolated sampleMapper (copyingHeader 17) (2 ^ 45 + 0x1000) ∧
    ¬ HeaderIsolated sampleMapper (copyingHeader 4) (2 ^ 45 + 0x1000) ∧
    ((copyingHeader 4).copyOver sampleMapper fun _ => 0).pc = .getData (2 ^ 45 + 0x1000) ∧
    ((copyingHeader 4).copyOver sampleMapper fun _ => 0).hdrSector = 0 ∧
    ((copyingHeader 4).copyOver sampleMapper fun _ => 1).hdrSector = 0x0101010101010101 := by
  refine ⟨fun h => ?_, fun h => ?_, by decide +kernel, by decide +kernel, by decide +kernel⟩
  · exact absurd (h.frame (fun _ => 1) 16 (by decide)) (by decide +kernel)
  · have hown := (h.own (fun _ => 0) (fun _ => 1)).2 (by decide +kernel)
    exact absurd hown.2 (by decide +kernel)

end Microv
