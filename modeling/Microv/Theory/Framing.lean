import Microv.Theory.Request

/-!
# Request Framing

When the handler consumes exactly the chains that were queued.

`Framed` says that it did for one chain: it took the chain's descriptors, the
status byte went into the last, only the head was marked used, and nothing
else changed but the data buffers. It does so exactly when the chain has the
shape its header's type calls for, because the type is all the handler goes
by. Over a sequence the header is the one in memory when its turn comes, after
the chains before it were served, so the condition is on the memory at the
start only if no chain writes into a later one's header.

## Main definitions

* `Chain.Fits`: The shape the header calls for.
* `serve`: What executing a chain does to memory and the image.
* `Framed`, `FramedAll`: One chain, or a sequence, is consumed as queued.
* `Queued`, `FitsAll`: The chains in the ring, and their shapes in turn.

## Theorems

* `framed_of_fits`: A chain that fits is framed.
* `Framed.fits`: A chain that is framed fits.
* `framing_iff_fits`: A sequence is framed exactly when every chain fits.
* `getId_misframed`: A chain with a data descriptor and no transfer type.
-/

namespace Microv

/-! ### One request by itself -/

/-- The number of data descriptors is the one the header's type calls for. -/
def Chain.Fits (c : Ring) (m : ByteMem) (ch : Chain) : Prop :=
  ch.data.length = if isTransfer (hdrTypeIn c m ch) then 1 else 0

instance (c : Ring) (m : ByteMem) (ch : Chain) : Decidable (ch.Fits c m) :=
  inferInstanceAs (Decidable (_ = _))

/-- What executing the chain at position `p` does to memory and the image: the
    transfer, the status byte in the last descriptor, and the head marked
    used. -/
def serve (c : Ring) (p : Nat) (ch : Chain) (w : ByteMem × Diskimg) : ByteMem × Diskimg :=
  match isTransfer (hdrTypeIn c w.1 ch), ch.data with
  | true, d :: _ =>
      let res := reqAccess c w.1 w.2 ch.hdr d
      (completeMem (res.2.1.write (c.ram.host ch.status.addr) [statusOf res.1]) (c.vq.slot p) res.1,
        res.2.2)
  | _, _ => (completeMem (w.1.write (c.ram.host ch.status.addr) [blkSUnsupp]) (c.vq.slot p) 0, w.2)

theorem serve_transfer {c : Ring} {p : Nat} {ch : Chain} {w : ByteMem × Diskimg}
    {d : VringPackedDesc} {ds : List VringPackedDesc}
    (htype : isTransfer (hdrTypeIn c w.1 ch) = true) (hdata : ch.data = d :: ds) :
    serve c p ch w = (completeMem ((reqAccess c w.1 w.2 ch.hdr d).2.1.write
        (c.ram.host ch.status.addr) [statusOf (reqAccess c w.1 w.2 ch.hdr d).1]) (c.vq.slot p)
        (reqAccess c w.1 w.2 ch.hdr d).1, (reqAccess c w.1 w.2 ch.hdr d).2.2) := by
  unfold serve
  rw [htype, hdata]

theorem serve_other {c : Ring} {p : Nat} {ch : Chain} {w : ByteMem × Diskimg}
    (htype : isTransfer (hdrTypeIn c w.1 ch) = false) :
    serve c p ch w
      = (completeMem (w.1.write (c.ram.host ch.status.addr) [blkSUnsupp]) (c.vq.slot p) 0,
        w.2) := by
  unfold serve
  rw [htype]

/-- The chain's descriptors stand in the ring from position `p` on. -/
def InSlots (c : Ring) (m : ByteMem) (p : Nat) (ch : Chain) : Prop :=
  ∀ (j : Nat) (d : VringPackedDesc), ch.descs[j]? = some d →
    VringPackedDesc.load m (c.vq.slot (p + j)) = d

section

variable {c : Ring} {s : Handler} {ch : Chain} {p : Nat}

theorem Chain.Wf.ready {m : ByteMem} {j : Nat} {d : VringPackedDesc} (hwf : ch.Wf c p)
    (hin : InSlots c m p ch) (hd : ch.descs[j]? = some d) : Ready c m (p + j) d := by
  have hl := linked_getElem c.n p j ch.descs d hwf.linked hd
  exact ⟨hin j d hd, hl.1, hl.2.1⟩

theorem Chain.Wf.next {j : Nat} {d : VringPackedDesc} (hwf : ch.Wf c p)
    (hd : ch.descs[j]? = some d) : d.flags.testBit descNextBit = decide (j + 1 < ch.descs.length) :=
  (linked_getElem c.n p j ch.descs d hwf.linked hd).2.2

theorem Chain.Wf.host_offRing {d : VringPackedDesc} (hwf : ch.Wf c p) (hd : d ∈ ch.descs) :
    Apart (c.ram.host d.addr) d.len c.vq.descRing (16 * c.n) :=
  c.host_offRing _ _ (hwf.inRam d hd) (hwf.offRing d hd)

/-- A chain of the right shape is executed as one request. -/
theorem handler_request (hpc : s.pc = .getHead) (hvq : s.vq = c.vq.atPos p) (hwf : ch.Wf c p)
    (hin : InSlots c s.mem p ch) (hfit : ch.Fits c s.mem) :
    ∃ k req, (handlerStep c.ram.mapper)^[k] s = { s with
      vq := c.vq.atPos (p + ch.descs.length), taken := [], req := req,
      mem := (serve c p ch (s.mem, s.img)).1, img := (serve c p ch (s.mem, s.img)).2,
      log := s.log ++ [⟨takenFrom c.n p ch.descs, c.vq.slot (p + (ch.data.length + 1)),
        c.vq.slot p⟩],
      pc := .getHead } := by
  have hh : ch.descs[0]? = some ch.hdr := rfl
  unfold Chain.Fits at hfit
  cases htype : isTransfer (hdrTypeIn c s.mem ch) with
  | true =>
      -- One data descriptor: eight steps bring the handler back to the loop.
      rw [htype, if_pos rfl, List.length_eq_one_iff] at hfit
      rcases hfit with ⟨d, hdata⟩
      have hdescs : ch.descs = [ch.hdr, d, ch.status] := by rw [Chain.descs, hdata]; rfl
      have hd : ch.descs[1]? = some d := by rw [hdescs]; rfl
      have he : ch.descs[2]? = some ch.status := by rw [hdescs]; rfl
      have hlen : ch.descs.length = 3 := by rw [hdescs]; rfl
      refine ⟨8, s.reqAfter c.ram.mapper ch.hdr, ?_⟩
      have hrun := handler_three hpc hvq (hwf.ready hin hh) (hwf.ready hin hd) (hwf.ready hin he)
        (by rw [hwf.next hh, hlen]; decide) (by rw [hwf.next hd, hlen]; decide) hwf.header htype
        (hwf.host_offRing (List.mem_of_getElem? hd))
      have hserve : serve c p ch (s.mem, s.img) = _ :=
        serve_transfer (w := (s.mem, s.img)) htype hdata
      rw [hrun, hserve, hlen, hdescs, hdata]
      rfl
  | false =>
      -- None: six steps.
      rw [htype, if_neg Bool.false_ne_true, List.length_eq_zero_iff] at hfit
      have hdescs : ch.descs = [ch.hdr, ch.status] := by rw [Chain.descs, hfit]; rfl
      have he : ch.descs[1]? = some ch.status := by rw [hdescs]; rfl
      have hlen : ch.descs.length = 2 := by rw [hdescs]; rfl
      refine ⟨6, s.reqAfter c.ram.mapper ch.hdr, ?_⟩
      have hrun := handler_two hpc hvq (hwf.ready hin hh) (hwf.ready hin he)
        (by rw [hwf.next hh, hlen]; decide) hwf.header htype
      have hserve : serve c p ch (s.mem, s.img) = _ := serve_other (w := (s.mem, s.img)) htype
      rw [hrun, hserve, hlen, hdescs, hfit]
      rfl

/-! ### Where the record can go -/

theorem handlerStep_log_grows (mapper : Int → MemRegion) (s : Handler) :
    s.log <+: (handlerStep mapper s).log := by
  have hmove := handlerStep_move mapper s
  generalize handlerStep mapper s = s' at hmove
  cases hmove with
  | putLen => exact List.prefix_append _ _
  | _ => exact List.prefix_refl _

theorem handlerRun_log_grows (mapper : Int → MemRegion) (s : Handler) (j k : Nat) (h : j ≤ k) :
    ((handlerStep mapper)^[j] s).log <+: ((handlerStep mapper)^[k] s).log := by
  obtain ⟨i, rfl⟩ : ∃ i, k = i + j := ⟨k - j, by omega⟩
  rw [Function.iterate_add_apply]
  generalize (handlerStep mapper)^[j] s = t
  clear h
  induction i with
  | zero => exact List.prefix_refl _
  | succ i ih =>
      rw [Function.iterate_succ_apply']
      exact ih.trans (handlerStep_log_grows mapper _)

/-- The loop condition is reached again only by completing a request. -/
theorem handlerStep_toHead (mapper : Int → MemRegion) (s : Handler)
    (h : (handlerStep mapper s).pc = .getHead) :
    s.log.length < (handlerStep mapper s).log.length := by
  have hmove := handlerStep_move mapper s
  generalize handlerStep mapper s = s' at hmove h
  cases hmove with
  -- Completing a chain is the only way back to the loop.
  | putLen =>
      simp only [List.length_append, List.length_singleton]
      omega
  | stay hpc => rcases hpc with hpc | hpc <;> exact HandlerPc.noConfusion (hpc.symm.trans h)
  | _ => exact HandlerPc.noConfusion h

theorem handlerRun_toHead (mapper : Int → MemRegion) (s : Handler) (k : Nat) (hk : 0 < k)
    (h : ((handlerStep mapper)^[k] s).pc = .getHead) :
    s.log.length < ((handlerStep mapper)^[k] s).log.length := by
  obtain ⟨j, rfl⟩ : ∃ j, k = j + 1 := ⟨k - 1, by omega⟩
  rw [Function.iterate_succ_apply'] at h ⊢
  have hlt := handlerStep_toHead mapper _ h
  have hle := (handlerRun_log_grows mapper s 0 j (Nat.zero_le _)).length_le
  exact Nat.lt_of_le_of_lt hle hlt

/-- The state in which the next request has just been completed is unique. -/
theorem handlerRun_unique (mapper : Int → MemRegion) (s : Handler) (j k : Nat)
    (hj : ((handlerStep mapper)^[j] s).pc = .getHead)
    (hk : ((handlerStep mapper)^[k] s).pc = .getHead)
    (hlen : ((handlerStep mapper)^[j] s).log.length = ((handlerStep mapper)^[k] s).log.length) :
    j = k := by
  have key : ∀ j k : Nat, ((handlerStep mapper)^[k] s).pc = .getHead →
      ((handlerStep mapper)^[j] s).log.length = ((handlerStep mapper)^[k] s).log.length →
      ¬ j < k := by
    intro j k hk hlen hlt
    obtain ⟨i, rfl⟩ : ∃ i, k = i + j := ⟨k - j, by omega⟩
    rw [Function.iterate_add_apply] at hk hlen
    have := handlerRun_toHead mapper _ i (by omega) hk
    omega
  have h1 := key j k hk hlen
  have h2 := key k j hj hlen.symm
  omega

end

/-! ### Framing -/

/-- The status bytes a request of this type can be answered with. -/
def IsStatus (type : Nat) (b : UInt8) : Prop :=
  if isTransfer type then b = blkSOk ∨ b = blkSIoerr else b = blkSUnsupp

/-- From `s` to `t` the handler consumed exactly the chain at position `p`: it
    took its descriptors and stands behind them, the status went to the last
    one, the head alone was marked used, and memory changed nowhere else but
    in the data buffers. -/
structure Framed (c : Ring) (p : Nat) (ch : Chain) (s t : Handler) : Prop where
  pc : t.pc = .getHead
  vq : t.vq = c.vq.atPos (p + ch.descs.length)
  log : t.log = s.log ++ [⟨takenFrom c.n p ch.descs, c.vq.slot (p + (ch.data.length + 1)),
    c.vq.slot p⟩]
  head : VringPackedDesc.flagsAt t.mem (c.vq.slot p)
    = VringPackedDesc.flagsAt s.mem (c.vq.slot p) ^^^ 2 ^ descUsedBit
  others : ∀ q, q % c.n ≠ p % c.n →
    VringPackedDesc.load t.mem (c.vq.slot q) = VringPackedDesc.load s.mem (c.vq.slot q)
  status : IsStatus (hdrTypeIn c s.mem ch) (t.mem (c.ram.host ch.status.addr))
  outside : ∀ x, x < c.vq.descRing ∨ c.vq.descRing + 16 * c.n ≤ x →
    x ≠ c.ram.host ch.status.addr →
    (∀ d ∈ ch.data, x < c.ram.host d.addr ∨ c.ram.host d.addr + d.len ≤ x) → t.mem x = s.mem x

/-- Serving a chain is a change to its own buffers, then the two stores to the
    head. -/
theorem serve_eq_completeMem {c : Ring} {p : Nat} {ch : Chain} {w : ByteMem × Diskimg}
    (hfit : ch.Fits c w.1) :
    ∃ m r, (serve c p ch w).1 = completeMem m (c.vq.slot p) r ∧
      IsStatus (hdrTypeIn c w.1 ch) (m (c.ram.host ch.status.addr)) ∧
      ∀ x, x ≠ c.ram.host ch.status.addr →
        (∀ d ∈ ch.data, x < c.ram.host d.addr ∨ c.ram.host d.addr + d.len ≤ x) →
        m x = w.1 x := by
  unfold Chain.Fits at hfit
  -- Memory before the head is marked: the data if there is any, and the status.
  cases htype : isTransfer (hdrTypeIn c w.1 ch) with
  | true =>
      rw [htype, if_pos rfl, List.length_eq_one_iff] at hfit
      rcases hfit with ⟨d, hdata⟩
      refine ⟨_, _, congrArg Prod.fst (serve_transfer htype hdata), ?_, fun x hx hout => ?_⟩
      · rw [ByteMem.write_byte_self, IsStatus, if_pos htype, statusOf]
        split_ifs
        · exact Or.inr rfl
        · exact Or.inl rfl
      · rw [ByteMem.write_byte_other _ _ _ _ hx]
        exact blkTransfer_outside _ _ _ _ _ _ x
          (hout d (by rw [hdata]; exact List.mem_cons_self ..))
  | false =>
      refine ⟨_, _, congrArg Prod.fst (serve_other htype), ?_, fun x hx _ => ?_⟩
      · rw [ByteMem.write_byte_self, IsStatus, if_neg (by rw [htype]; exact Bool.false_ne_true)]
      · exact ByteMem.write_byte_other _ _ _ _ hx

/-- Positions with different indices have separate slots. -/
theorem Virtq.slot_apart_of_ne (vq : Virtq) (p q : Nat) (h : q % vq.info.size ≠ p % vq.info.size) :
    Apart (vq.slot p) 16 (vq.slot q) 16 := by
  unfold Apart slot
  omega

section

variable {c : Ring} {ch : Chain} {p : Nat}

/-- The buffers of a chain are off the ring: no slot is in one. -/
theorem Chain.Wf.slot_outside (hwf : ch.Wf c p) (q i : Nat) (hi : i < 16) :
    c.vq.slot q + i ≠ c.ram.host ch.status.addr ∧ ∀ d ∈ ch.data,
      c.vq.slot q + i < c.ram.host d.addr ∨ c.ram.host d.addr + d.len ≤ c.vq.slot q + i := by
  have hs := c.slot_mem q
  constructor
  · have hoff := hwf.host_offRing (List.mem_of_getElem? ch.descs_last)
    have hlen := hwf.status
    unfold Apart at hoff
    omega
  · intro d hd
    have hoff := hwf.host_offRing (show d ∈ ch.descs from
      List.mem_cons_of_mem _ (List.mem_append_left _ hd))
    unfold Apart at hoff
    omega

/-- What serving a chain leaves in the ring and outside it. -/
theorem serve_frame (w : ByteMem × Diskimg) (hwf : ch.Wf c p) (hfit : ch.Fits c w.1) :
    VringPackedDesc.flagsAt (serve c p ch w).1 (c.vq.slot p)
      = VringPackedDesc.flagsAt w.1 (c.vq.slot p) ^^^ 2 ^ descUsedBit ∧
    (∀ q, q % c.n ≠ p % c.n → VringPackedDesc.load (serve c p ch w).1 (c.vq.slot q)
      = VringPackedDesc.load w.1 (c.vq.slot q)) ∧
    IsStatus (hdrTypeIn c w.1 ch) ((serve c p ch w).1 (c.ram.host ch.status.addr)) ∧
    (∀ x, x < c.vq.descRing ∨ c.vq.descRing + 16 * c.n ≤ x → x ≠ c.ram.host ch.status.addr →
      (∀ d ∈ ch.data, x < c.ram.host d.addr ∨ c.ram.host d.addr + d.len ≤ x) →
      (serve c p ch w).1 x = w.1 x) := by
  rcases serve_eq_completeMem (p := p) hfit with ⟨m, r, hserve, hstatus, hsame⟩
  -- Buffers are off the ring, so until completion every slot is as it was.
  have hload : ∀ q, VringPackedDesc.load m (c.vq.slot q)
      = VringPackedDesc.load w.1 (c.vq.slot q) := by
    intro q
    refine VringPackedDesc.load_congr _ _ _ ?_
    intro i hi
    have hout := hwf.slot_outside q i hi
    exact hsame _ hout.1 hout.2
  have hslot := c.slot_mem p
  rw [hserve]
  refine ⟨?_, fun q hq => ?_, ?_, fun x hring hx hdata => ?_⟩
  · rw [flagsAt_completeMem, flagsAt_eq_load, hload, ← flagsAt_eq_load]
  · have hap := c.vq.slot_apart_of_ne p q hq
    unfold Apart at hap
    rw [← hload q]
    exact VringPackedDesc.load_congr _ _ _ (fun i hi => completeMem_outside _ _ _ _ (by omega))
  · have hoff := hwf.host_offRing (List.mem_of_getElem? ch.descs_last)
    have hlen := hwf.status
    unfold Apart at hoff
    rw [completeMem_outside _ _ _ _ (by omega)]
    exact hstatus
  · rw [completeMem_outside _ _ _ _ (by omega)]
    exact hsame x hx hdata

theorem length_takenFrom (n q : Nat) (ds : List VringPackedDesc) :
    (takenFrom n q ds).length = ds.length := by
  induction ds generalizing q with
  | nil => rfl
  | cons d ds ih => simp only [takenFrom, List.length_cons, ih]

/-- Once returned, the handler stays returned. -/
theorem handlerRun_done (mapper : Int → MemRegion) (s : Handler) (j k : Nat) (hjk : j ≤ k)
    (h : ((handlerStep mapper)^[j] s).pc = .done) :
    (handlerStep mapper)^[k] s = (handlerStep mapper)^[j] s := by
  obtain ⟨i, rfl⟩ : ∃ i, k = i + j := ⟨k - j, by omega⟩
  rw [Function.iterate_add_apply]
  generalize (handlerStep mapper)^[j] s = t at h
  clear hjk
  induction i with
  | zero => rfl
  | succ i ih => rw [Function.iterate_succ_apply', ih, handlerStep, h]

/-- The first entry the record gains is the same wherever it is looked at. -/
theorem handlerRun_entry (mapper : Int → MemRegion) (s : Handler) (j k : Nat) (e e' : Completed)
    (hj : ((handlerStep mapper)^[j] s).log = s.log ++ [e])
    (hk : ((handlerStep mapper)^[k] s).log = s.log ++ [e']) : e = e' := by
  have hle : ((handlerStep mapper)^[j] s).log <+: ((handlerStep mapper)^[k] s).log ∨
      ((handlerStep mapper)^[k] s).log <+: ((handlerStep mapper)^[j] s).log := by
    rcases Nat.le_total j k with h | h
    · exact Or.inl (handlerRun_log_grows mapper s j k h)
    · exact Or.inr (handlerRun_log_grows mapper s k j h)
  rw [hj, hk] at hle
  have heq : s.log ++ [e] = s.log ++ [e'] := by
    rcases hle with h | h
    · exact h.eq_of_length (by simp only [List.length_append, List.length_singleton])
    · exact (h.eq_of_length (by simp only [List.length_append, List.length_singleton])).symm
  exact List.singleton_inj.mp (List.append_cancel_left heq)

/-- A chain the handler consumed whole had the shape its type calls for. With
    any other number of data descriptors the handler takes its first two or
    three for the whole request, or gives up at the second. -/
theorem Framed.fits {s : Handler} {k : Nat} (hpc : s.pc = .getHead) (hvq : s.vq = c.vq.atPos p)
    (hwf : ch.Wf c p) (hin : InSlots c s.mem p ch)
    (h : Framed c p ch s ((handlerStep c.ram.mapper)^[k] s)) : ch.Fits c s.mem := by
  have hlen : ch.descs.length = ch.data.length + 2 := ch.length_descs
  have hh : ch.descs[0]? = some ch.hdr := rfl
  have hnext : ch.hdr.flags.testBit descNextBit = true := by
    rw [hwf.next hh, hlen]
    exact decide_eq_true (by omega)
  have hdone : ∀ j (e : Completed), ((handlerStep c.ram.mapper)^[j] s).log = s.log ++ [e] →
      e.taken.length = ch.data.length + 2 := by
    intro j e hj
    rw [handlerRun_entry c.ram.mapper s j k e _ hj h.log, length_takenFrom, hlen]
  obtain ⟨d, hd⟩ : ∃ d, ch.descs[1]? = some d := ⟨_, List.getElem?_eq_getElem (by omega)⟩
  have hready := hwf.ready hin hd
  unfold Chain.Fits
  cases htype : isTransfer (hdrTypeIn c s.mem ch) with
  | false =>
      have hrun := handler_two hpc hvq (hwf.ready hin hh) hready hnext hwf.header htype
      have htaken := hdone 6 _ (by rw [hrun])
      simp only [List.length_cons, List.length_nil] at htaken
      rw [if_neg Bool.false_ne_true]
      omega
  | true =>
      rw [if_pos rfl]
      have hoff := hwf.host_offRing (List.mem_of_getElem? hd)
      rcases Nat.eq_zero_or_pos ch.data.length with hz | hpos
      · -- Nothing but the status: it is taken for the data, and ends the chain.
        exfalso
        have hgive := handler_givesUp hpc hvq (hwf.ready hin hh) hready hnext
          (by rw [hwf.next hd, hlen]; exact decide_eq_false (by omega)) hwf.header htype hoff
        rcases Nat.le_total 4 k with hk | hk
        · have hlog := h.log
          rw [handlerRun_done c.ram.mapper s 4 k hk hgive.1, hgive.2] at hlog
          have := congrArg List.length hlog
          simp only [List.length_append, List.length_singleton] at this
          omega
        · have hle := (handlerRun_log_grows c.ram.mapper s k 4 hk).length_le
          rw [hgive.2, h.log] at hle
          simp only [List.length_append, List.length_singleton] at hle
          omega
      · obtain ⟨e, he⟩ : ∃ e, ch.descs[2]? = some e := ⟨_, List.getElem?_eq_getElem (by omega)⟩
        have hrun := handler_three hpc hvq (hwf.ready hin hh) hready (hwf.ready hin he) hnext
          (by rw [hwf.next hd, hlen]; exact decide_eq_true (by omega)) hwf.header htype hoff
        have htaken := hdone 8 _ (by rw [hrun])
        simp only [List.length_cons, List.length_nil] at htaken
        omega

/-- A chain of the right shape is framed, and leaves what serving it leaves. -/
theorem framed_of_fits {s : Handler} (hpc : s.pc = .getHead) (hvq : s.vq = c.vq.atPos p)
    (hwf : ch.Wf c p) (hin : InSlots c s.mem p ch) (hfit : ch.Fits c s.mem) :
    ∃ k, Framed c p ch s ((handlerStep c.ram.mapper)^[k] s) ∧
      ((handlerStep c.ram.mapper)^[k] s).mem = (serve c p ch (s.mem, s.img)).1 ∧
      ((handlerStep c.ram.mapper)^[k] s).img = (serve c p ch (s.mem, s.img)).2 := by
  rcases handler_request hpc hvq hwf hin hfit with ⟨k, req, hrun⟩
  rcases serve_frame (s.mem, s.img) hwf hfit with ⟨hhead, hothers, hstatus, houtside⟩
  refine ⟨k, ?_, ?_, ?_⟩
  · rw [hrun]
    exact ⟨rfl, rfl, rfl, hhead, hothers, hstatus, houtside⟩
  · rw [hrun]
  · rw [hrun]

end

/-! ### Sequences of chains -/

/-- Every chain of the sequence is framed, one after the other. -/
def FramedAll (c : Ring) : Nat → List Chain → Handler → Prop
  | _, [], _ => True
  | p, ch :: chs, s => ∃ k, Framed c p ch s ((handlerStep c.ram.mapper)^[k] s) ∧
      FramedAll c (p + ch.descs.length) chs ((handlerStep c.ram.mapper)^[k] s)

/-- The chains stand in the ring from position `p` on, each fit to be
    published where it stands. -/
def Queued (c : Ring) (m : ByteMem) : Nat → List Chain → Prop
  | _, [] => True
  | p, ch :: chs => ch.Wf c p ∧ InSlots c m p ch ∧ Queued c m (p + ch.descs.length) chs

/-- How many positions the chains take. -/
def chainsLen (chs : List Chain) : Nat :=
  (chs.map fun ch => ch.descs.length).sum

/-- Every chain has the shape the header calls for that stands in memory when
    the chains before it were served. -/
def FitsAll (c : Ring) : Nat → List Chain → ByteMem × Diskimg → Prop
  | _, [], _ => True
  | p, ch :: chs, w => ch.Fits c w.1 ∧ FitsAll c (p + ch.descs.length) chs (serve c p ch w)

/-- Every queued chain is well formed where it lies. -/
theorem Queued.wf {c : Ring} {m : ByteMem} {p : Nat} {chs : List Chain} (h : Queued c m p chs) :
    ∀ r ∈ chs, ∃ q, r.Wf c q := by
  induction chs generalizing p with
  | nil =>
      intro r hr
      exact absurd hr List.not_mem_nil
  | cons ch chs ih =>
      intro r hr
      rcases List.mem_cons.mp hr with rfl | hr
      · exact ⟨_, h.1⟩
      · exact ih h.2.2 r hr

/-- Changes to slots outside the run of positions keep the chains queued. -/
theorem Queued.congr {c : Ring} {m m' : ByteMem} {p : Nat} {chs : List Chain}
    (h : Queued c m p chs)
    (hload : ∀ j, j < chainsLen chs →
      VringPackedDesc.load m' (c.vq.slot (p + j)) = VringPackedDesc.load m (c.vq.slot (p + j))) :
    Queued c m' p chs := by
  induction chs generalizing p with
  | nil => trivial
  | cons ch chs ih =>
      rcases h with ⟨hwf, hin, hrest⟩
      have hsum : chainsLen (ch :: chs) = ch.descs.length + chainsLen chs := by
        simp only [chainsLen, List.map_cons, List.sum_cons]
      refine ⟨hwf, fun j d hd => ?_, ih hrest (fun j hj => ?_)⟩
      · have hj : j < ch.descs.length := (List.getElem?_eq_some_iff.mp hd).1
        rw [hload j (by omega)]
        exact hin j d hd
      · rw [Nat.add_assoc]
        exact hload _ (by omega)

/-- The device writes none of `r`'s header while it executes `b`. -/
def HeaderApart (b r : Chain) : Prop :=
  (∀ d ∈ b.data, Apart d.addr d.len r.hdr.addr 16) ∧ Apart b.status.addr 1 r.hdr.addr 16

/-- Serving a chain leaves a header alone that is apart from its buffers. -/
theorem hdrTypeIn_serve {c : Ring} {p q : Nat} {b r : Chain} {w : ByteMem × Diskimg}
    (hb : b.Wf c p) (hr : r.Wf c q) (hfit : b.Fits c w.1) (hap : HeaderApart b r) :
    hdrTypeIn c (serve c p b w).1 r = hdrTypeIn c w.1 r := by
  have hhdr := hr.inRam r.hdr (List.mem_cons_self ..)
  rw [hr.header] at hhdr
  have hring := hr.hdr_offRing
  have hst : InRam c.ram.mapper b.status.addr 1 := by
    have hin := hb.inRam _ (List.mem_of_getElem? b.descs_last)
    have hlen := hb.status
    unfold InRam MemRegion.InSlot at *
    omega
  have hsta := c.ram.hostApart _ _ _ _ hst hhdr hap.2
  unfold Apart at hring hsta
  -- The header is off the ring, off the status and off the data.
  refine ByteMem.le_congr _ _ _ _ (fun i hi => (serve_frame w hb hfit).2.2.2 _ (by omega)
    (by omega) (fun d hd => ?_))
  have hin := hb.inRam d (List.mem_cons_of_mem _ (List.mem_append_left _ hd))
  have hda := c.ram.hostApart _ _ _ _ hin hhdr (hap.1 d hd)
  unfold Apart at hda
  omega

/-- Where no chain writes the header of a later one, the headers in memory at
    the start decide. -/
theorem fitsAll_iff {c : Ring} {p : Nat} {chs : List Chain} {w : ByteMem × Diskimg} {m : ByteMem}
    (hq : Queued c m p chs) (hap : chs.Pairwise HeaderApart) :
    FitsAll c p chs w ↔ ∀ ch ∈ chs, ch.Fits c w.1 := by
  induction chs generalizing p w with
  | nil => simp only [FitsAll, List.not_mem_nil, false_implies, implies_true]
  | cons ch chs ih =>
      rcases hq with ⟨hwf, _, hrest⟩
      rcases List.pairwise_cons.mp hap with ⟨hfirst, hlater⟩
      -- Serving the first chain writes no header behind it.
      have hsame : ch.Fits c w.1 → ∀ r ∈ chs, (r.Fits c (serve c p ch w).1 ↔ r.Fits c w.1) := by
        intro hfit r hr
        rcases hrest.wf r hr with ⟨q', hwf'⟩
        rw [Chain.Fits, Chain.Fits, hdrTypeIn_serve hwf hwf' hfit (hfirst r hr)]
      rw [FitsAll, List.forall_mem_cons, ih hrest hlater]
      constructor
      · rintro ⟨hfit, hall⟩
        exact ⟨hfit, fun r hr => (hsame hfit r hr).mp (hall r hr)⟩
      · rintro ⟨hfit, hall⟩
        exact ⟨hfit, fun r hr => (hsame hfit r hr).mpr (hall r hr)⟩

/-- The run of the handler over a queued sequence: it frames every chain
    exactly when every chain fits. -/
theorem framedAll_iff_fitsAll (c : Ring) (p : Nat) (chs : List Chain) (s : Handler)
    (hpc : s.pc = .getHead) (hvq : s.vq = c.vq.atPos p) (hq : Queued c s.mem p chs)
    (hlen : chainsLen chs ≤ c.n) :
    FramedAll c p chs s ↔ FitsAll c p chs (s.mem, s.img) := by
  induction chs generalizing p s with
  | nil => exact Iff.rfl
  | cons ch chs ih =>
      rcases hq with ⟨hwf, hin, hrest⟩
      have hsum : chainsLen (ch :: chs) = ch.descs.length + chainsLen chs := by
        simp only [chainsLen, List.map_cons, List.sum_cons]
      have hpos : ch.descs.length = ch.data.length + 2 := ch.length_descs
      -- After a framed chain the rest is still queued: only the head's slot changed.
      have hnext : ∀ t, Framed c p ch s t → Queued c t.mem (p + ch.descs.length) chs := by
        intro t ht
        refine hrest.congr (fun j hj => ht.others _ ?_)
        exact (mod_ne_of_lt c.n p _ (by omega) (by omega)).symm
      constructor
      · rintro ⟨k, hk, hall⟩
        have hfit := hk.fits hpc hvq hwf hin
        rcases framed_of_fits hpc hvq hwf hin hfit with ⟨j, hj, hmem, himg⟩
        have hjk : j = k := by
          refine handlerRun_unique c.ram.mapper s j k hj.pc hk.pc ?_
          rw [hj.log, hk.log]
        subst hjk
        refine ⟨hfit, ?_⟩
        rw [ih _ _ hk.pc hk.vq (hnext _ hk) (by omega), hmem, himg] at hall
        exact hall
      · rintro ⟨hfit, hall⟩
        rcases framed_of_fits hpc hvq hwf hin hfit with ⟨k, hk, hmem, himg⟩
        refine ⟨k, hk, ?_⟩
        rw [ih _ _ hk.pc hk.vq (hnext _ hk) (by omega), hmem, himg]
        exact hall

/-- The handler, entered on a ring that holds any sequence of well-formed
    chains, frames every one of them exactly when each has one data descriptor
    if its header says a transfer when its turn comes, and none if it says
    anything else. Where no chain writes a later one's header, the headers in
    memory at the start decide. -/
theorem framing_iff_fits (c : Ring) (p : Nat) (chs : List Chain) (s : Handler)
    (hpc : s.pc = .getHead) (hvq : s.vq = c.vq.atPos p) (hq : Queued c s.mem p chs)
    (hlen : chainsLen chs ≤ c.n) :
    (FramedAll c p chs s ↔ FitsAll c p chs (s.mem, s.img)) ∧
      (chs.Pairwise HeaderApart → (FramedAll c p chs s ↔ ∀ ch ∈ chs, ch.Fits c s.mem)) := by
  have hiff := framedAll_iff_fitsAll c p chs s hpc hvq hq hlen
  exact ⟨hiff, fun hap => hiff.trans (fitsAll_iff hq hap)⟩

/-- Writing a chain to its slots puts it there. -/
theorem inSlots_putDescs {c : Ring} {p : Nat} {ch : Chain} (m : ByteMem) (hwf : ch.Wf c p)
    (hlen : ch.descs.length ≤ c.n) : InSlots c (putDescs c.vq m p ch.descs) p ch :=
  fun _ d hd => load_putDescs_self c.vq m p _ ch.descs d hwf.fits hlen hd

/-- A request for the device's identification, with the buffer it is to be
    written to. -/
def getIdChain : Chain :=
  { hdr := ⟨0x2000, 16, 0, 0x81⟩, data := [⟨0x3000, 20, 0, 0x83⟩], status := ⟨0x4000, 1, 0, 0x82⟩ }

theorem getIdChain_wf : getIdChain.Wf sampleRing 0 :=
  ⟨by decide, by decide, rfl, by decide, by decide, by decide⟩

/-- The handler entered with that request in the ring. -/
def getIdHandler : Handler :=
  { vq := sampleRing.vq.atPos 0, img := ⟨⟨fun _ => 0, 512⟩, 512⟩, isrStatus := 0, irqs := 0,
    mem := putDescs sampleRing.vq (ByteMem.write (fun _ => 0) (sampleRam.host 0x2000) [8]) 0
      getIdChain.descs,
    req := fun _ => 0, pc := .getHead, taken := [], log := [] }

theorem framing_iff_fits_getId :
    Queued sampleRing getIdHandler.mem 0 [getIdChain] ∧
    (FramedAll sampleRing 0 [getIdChain] getIdHandler ↔
      FitsAll sampleRing 0 [getIdChain] (getIdHandler.mem, getIdHandler.img)) := by
  have hq : Queued sampleRing getIdHandler.mem 0 [getIdChain] :=
    ⟨getIdChain_wf, inSlots_putDescs _ getIdChain_wf (by decide), trivial⟩
  exact ⟨hq, (framing_iff_fits sampleRing 0 [getIdChain] getIdHandler rfl rfl hq (by decide)).1⟩

/-- The identification request is not framed: its data descriptor is taken for
    the status, and its status descriptor for the next chain's header. -/
theorem getId_misframed :
    Queued sampleRing getIdHandler.mem 0 [getIdChain] ∧
    ¬ FramedAll sampleRing 0 [getIdChain] getIdHandler := by
  have hin : InSlots sampleRing getIdHandler.mem 0 getIdChain :=
    inSlots_putDescs _ getIdChain_wf (by decide)
  refine ⟨⟨getIdChain_wf, hin, trivial⟩, ?_⟩
  rintro ⟨k, hk, _⟩
  have hfit := hk.fits rfl rfl getIdChain_wf hin
  exact absurd hfit (by decide +kernel)

end Microv
