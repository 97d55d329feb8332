import Microv.Theory.CommonCfg

/-!
# The Queue Window as an Array

The queue registers refine an array of queue records with a selection.

To a driver that accesses one register at a time, the window is an array: the
selector chooses an element, reads and writes of the window go to it, and the
other elements are untouched. Enabling a queue also sets its ring pointers,
which the window does not show. The device keeps two copies of the selected
record, in the window and in the queue, and `virtq_enable` changes one of
them. `Refines` relates the queues to the array, and `Shows` the window to
its selected element; the window shows it after a selection and keeps showing
it through the driver's writes.

## Main definitions

* `QueueArray`, `QueueArray.step`: The array, and an access to it.
* `Conforming`: One register at a time.
* `Refines`, `Shows`: The queues and the window, as the array says.

## Theorems

* `select_refines`, `window_refines`, `enable_refines`: The writes.
* `conforming_refines`: A conforming event.
* `unselected_frame`: Other queues are untouched.
* `window_refines_array`: The refinement along every run.
-/

namespace Microv

/-- What the window stands for: the selection, and `info` of every queue. -/
structure QueueArray where
  select : Nat
  info : Nat → ByteMem

/-- An access to the array: the selector replaces the selection, a register of
    the window is overwritten in the selected queue if there is one. -/
def QueueArray.step (n : Nat) (A : QueueArray) : PciEvent → QueueArray
  | .access (.write offset data) =>
      if offset = regQSelect then { A with select := ByteMem.leValue data }
      else if regQSize ≤ offset ∧ offset ≤ regQUsedhi ∧ A.select < n then
        { A with
          info := Function.update A.info A.select
            ((A.info A.select).write (offset - regQSize) data) }
      else A
  | _ => A

-- The registers of `struct virtio_pci_common_cfg`: offset and width.
def writableRegs : List (Nat × Nat) :=
  [(0, 4), (8, 4), (12, 4), (16, 2), (20, 1), (22, 2), (24, 2), (26, 2), (28, 2), (32, 4), (36, 4),
    (40, 4), (44, 4), (48, 4), (52, 4)]

def readOnlyRegs : List (Nat × Nat) :=
  [(4, 4), (18, 2), (21, 1), (30, 2)]

/-- The driver reads and writes one register at a time, writes none that is
    read-only, and `queue_enable` only as one with a queue selected. The
    device may answer doorbells in between. -/
def Conforming (L : PciLayout) (d : PciDev) : PciEvent → Prop
  | .access (.read offset size) => (offset, size) ∈ writableRegs ++ readOnlyRegs
  | .access (.write offset data) =>
      (offset, data.length) ∈ writableRegs ∧
        (offset = regQEnable → data = [1, 0] ∧ queueSelect L d.host < L.n)
  | .ioevent _ => True

instance (L : PciLayout) (d : PciDev) (e : PciEvent) : Decidable (Conforming L d e) :=
  match e with
  | .access (.read offset size) =>
      inferInstanceAs (Decidable ((offset, size) ∈ writableRegs ++ readOnlyRegs))
  | .access (.write offset data) =>
      inferInstanceAs (Decidable ((offset, data.length) ∈ writableRegs ∧
        (offset = regQEnable → data = [1, 0] ∧ queueSelect L d.host < L.n)))
  | .ioevent _ => inferInstanceAs (Decidable True)

/-- The device represents the array. -/
structure Refines (L : PciLayout) (h : ByteMem) (A : QueueArray) : Prop where
  numQueues : numQueues L h = L.n
  select : queueSelect L h = A.select
  info : ∀ q, q < L.n → ∀ o, o < virtqInfoSize →
    h (L.vq + virtqSize * q + virtqInfo + o) = A.info q o
  enable : ∀ q, q < L.n → (queueAt L h q).info.enable ≤ 1

/-- The window shows the selected queue, if there is one. -/
def Shows (L : PciLayout) (h : ByteMem) (A : QueueArray) : Prop :=
  A.select < L.n → ∀ o, o < virtqInfoSize → h (L.config + regQSize + o) = A.info A.select o

section

variable {mapper : Int → MemRegion} {L : PciLayout} {d d' : PciDev} {e : PciEvent} {A : QueueArray}

theorem writableRegs_cases : ∀ r ∈ writableRegs,
    (r.1 = regQSelect ∧ r.2 = 2) ∨ r.1 = regQEnable ∨
    (InWindow r.1 ∧ r.1 + r.2 ≤ regQSize + virtqInfoSize ∧ Apart r.1 r.2 regQEnable 2) ∨
    (r.1 + r.2 ≤ regNumq ∨ (r.1 = regNumq + 2 ∧ r.2 = 1)) := by
  decide

theorem writableRegs_end : ∀ r ∈ writableRegs, r.1 + r.2 ≤ regIsrCfg := by
  decide

/-- The kinds of conforming writes. -/
theorem Conforming.write_cases {offset : Nat} {data : List UInt8}
    (h : Conforming L d (.access (.write offset data))) :
    (offset = regQSelect ∧ data.length = 2) ∨
    (offset = regQEnable ∧ data = [1, 0] ∧ queueSelect L d.host < L.n) ∨
    (InWindow offset ∧ offset + data.length ≤ regQSize + virtqInfoSize ∧
      Apart offset data.length regQEnable 2) ∨
    (offset + data.length ≤ regNumq ∨ (offset = regNumq + 2 ∧ data.length = 1)) := by
  rcases h with ⟨hmem, hen⟩
  rcases writableRegs_cases _ hmem with hsel | h28 | hwin | helse
  · exact .inl hsel
  · exact .inr (.inl ⟨h28, hen h28⟩)
  · exact .inr (.inr (.inl hwin))
  · exact .inr (.inr (.inr helse))

/-- A conforming access is contained. -/
theorem Conforming.contained {acc : Access} (hc : Conforming L d (.access acc))
    (h : Anchored L d) (hn : numQueues L d.host = L.n) : Contained mapper L d (.access acc) := by
  match acc, hc with
  | .read _ _, _ => exact ⟨trivial, trivial, trivial⟩
  | .write offset data, hc =>
      -- Every register a driver writes lies before the interrupt status.
      have hregs : offset + data.length ≤ regIsrCfg := writableRegs_end _ hc.1
      refine ⟨?_, fun hge => ?_, fun ho => ?_⟩
      · rw [h.queueInside_iff offset data (Nat.le_trans hregs (by decide))]
        rintro (⟨ho, -⟩ | ⟨hw, hlt⟩)
        · exact (hc.2 ho).2
        · rcases copy_select (L := L) (d := d) offset data hw.1 with ⟨hsel, hnum⟩
          rw [hsel, hnum, hn] at hlt
          exact hlt
      · unfold regIsrCfg at hregs
        unfold regDevCfg at hge
        omega
      · rw [ho] at hregs
        unfold regIsrCfg regNotifyCfg at hregs
        omega

/-- So is a doorbell, if what it notifies is. -/
theorem Conforming.event_contained (hc : Conforming L d e) (h : Anchored L d)
    (hn : numQueues L d.host = L.n) (hbell : DoorbellInside mapper L d e) :
    Contained mapper L d e := by
  match e, hc, hbell with
  | .access _, hc, _ => exact hc.contained h hn
  | .ioevent _, _, hbell => exact ⟨trivial, trivial, hbell⟩

/-- A conforming event that is no write of a queue register. -/
def Elsewhere : PciEvent → Prop
  | .access (.write offset data) =>
      offset + data.length ≤ regNumq ∨ (offset = regNumq + 2 ∧ data.length = 1)
  | _ => True

theorem Conforming.blockFits (h : Conforming L d e) : BlockFits e := by
  match e, h with
  | .access (.read _ _), _ => trivial
  | .ioevent _, _ => trivial
  | .access (.write offset data), h =>
    intro _
    rcases h.write_cases with ⟨h1, h2⟩ | ⟨h1, h2, -⟩ | ⟨-, h1, -⟩ | h1
    · rw [h1, h2]
      decide
    · rw [h1, h2]
      decide
    · unfold regQSize virtqInfoSize regDevCfg at *
      omega
    · unfold regNumq regDevCfg at *
      omega

theorem Conforming.devFits (h : Conforming L d e) : DevFits L e := by
  match e, h with
  | .access (.read _ _), _ => trivial
  | .ioevent _, _ => trivial
  | .access (.write offset data), h =>
    intro hge
    have hmem := h.1
    simp only [writableRegs, List.mem_cons, Prod.mk.injEq, List.not_mem_nil, or_false] at hmem
    unfold regDevCfg at hge
    omega

/-- The bytes the representation consists of. -/
theorem Refines.congr {m m' : ByteMem} (h : Refines L m A)
    (hreg : ∀ a, (regNumq ≤ a ∧ a < regNumq + 2) ∨ (regQSelect ≤ a ∧ a < regQSelect + 2) →
      m' (L.config + a) = m (L.config + a))
    (hinfo : ∀ q, q < L.n → ∀ o, o < virtqInfoSize →
      m' (L.vq + virtqSize * q + virtqInfo + o) = m (L.vq + virtqSize * q + virtqInfo + o)) :
    Refines L m' A := by
  refine ⟨?_, ?_, fun q hq o ho => ?_, fun q hq => ?_⟩
  · rw [← h.numQueues]
    refine ByteMem.le_congr _ _ _ _ ?_
    intro i hi
    rw [Nat.add_assoc]
    exact hreg _ (by omega)
  · rw [← h.select]
    refine ByteMem.le_congr _ _ _ _ ?_
    intro i hi
    rw [Nat.add_assoc]
    exact hreg _ (by omega)
  · rw [hinfo q hq o ho]
    exact h.info q hq o ho
  · -- `enable` is four bytes into `info`.
    refine Nat.le_trans (Nat.le_of_eq (ByteMem.le_congr _ _ _ _ fun i hi => ?_)) (h.enable q hq)
    have hb := hinfo q hq (4 + i) (by unfold virtqInfoSize; omega)
    unfold virtqInfo at hb
    rw [← Nat.add_assoc] at hb
    exact hb

/-! ### Events elsewhere -/

theorem elsewhere_reg (h : Anchored L d) (he : Elsewhere e) (hs : PciStep mapper L e d d') (a : Nat)
    (ha : (regNumq ≤ a ∧ a < regNumq + 2) ∨ (regQSelect ≤ a ∧ a < regQSize + virtqInfoSize)) :
    d'.host (L.config + a) = d.host (L.config + a) := by
  have hdev := L.devCfg_eq
  unfold regNumq regQSelect regQSize virtqInfoSize at ha
  by_cases hq : Quiet e
  · exact h.quiet_byte hs hq _ (by omega) (Or.inl (by unfold regIsrCfg; omega))
  · match e, hq with
    | .access (.read _ _), hq => exact absurd trivial hq
    | .ioevent _, hq => exact absurd trivial hq
    | .access (.write offset data), hq =>
      -- The copy ends before `num_queues`, or is the one byte behind it.
      simp only [Elsewhere, regNumq] at he
      rw [h.regWrite_byte offset data hs (Nat.not_le.mp hq) _ (by omega) ?_ ?_ ?_ ?_]
      · exact ByteMem.write_outside _ _ _ _ (by omega)
      · exact fun _ => Or.inl (by unfold devGuestFeature; omega)
      · exact fun _ => Or.inr (by unfold regDf; omega)
      · intro h22
        unfold regQSelect at h22
        omega
      · exact fun _ => Or.inl (by unfold regIsrCfg; omega)

theorem elsewhere_info (h : Anchored L d) (hdev : DevFits L e) (he : Elsewhere e)
    (hs : PciStep mapper L e d d') (q o : Nat) (ho : o < virtqInfoSize) :
    d'.host (L.vq + virtqSize * q + virtqInfo + o)
      = d.host (L.vq + virtqSize * q + virtqInfo + o) := by
  unfold virtqInfoSize at ho
  rw [Nat.add_assoc _ virtqInfo o]
  refine step_spares hs h.vq _ (h.spares_queue hs hdev q _ ?_ ?_ ?_ ?_)
  · unfold virtqInfo virtqSize
    omega
  · exact fun _ => Or.inl (by unfold virtqInfo virtqNextAvailIdx; omega)
  · intro data heq
    subst heq
    simp only [Elsewhere, regNumq, regQEnable] at he
    omega
  · -- It lies below the window.
    intro offset data heq hw
    subst heq
    have hge := hw.1
    simp only [Elsewhere, regNumq] at he
    unfold regQSize at hge
    omega

theorem Elsewhere.step (he : Elsewhere e) (n : Nat) : A.step n e = A := by
  match e, he with
  | .access (.read _ _), _ => rfl
  | .ioevent _, _ => rfl
  | .access (.write offset data), he =>
    simp only [Elsewhere, regNumq] at he
    rw [QueueArray.step, if_neg (by unfold regQSelect; omega), if_neg (by unfold regQSize; omega)]

theorem elsewhere_refines (h : Anchored L d) (hdev : DevFits L e) (he : Elsewhere e)
    (hs : PciStep mapper L e d d') (hr : Refines L d.host A) (hw : Shows L d.host A) :
    Refines L d'.host (A.step L.n e) ∧ Shows L d'.host (A.step L.n e) := by
  rw [he.step]
  refine ⟨hr.congr (fun a ha => elsewhere_reg h he hs a ?_)
    (fun q _ o ho => elsewhere_info h hdev he hs q o ho), fun hlt o ho => ?_⟩
  · unfold regNumq regQSelect regQSize virtqInfoSize at *
    omega
  · rw [Nat.add_assoc, elsewhere_reg h he hs _ (by
      unfold regNumq regQSelect regQSize virtqInfoSize at *; omega), ← Nat.add_assoc]
    exact hw hlt o ho

/-! ### Selecting -/

/-- The device after a write of the selector. -/
theorem select_host (h : Anchored L d) (data : List UInt8) (hlen : data.length = 2)
    (hn : numQueues L d.host = L.n)
    (hs : PciStep mapper L (.access (.write regQSelect data)) d d') :
    let c := d.host.write (L.config + regQSelect) data
    d'.host = if ByteMem.leValue data < L.n then
        c.write (L.config + regQSize)
          (c.read (L.vq + virtqSize * ByteMem.leValue data + virtqInfo) virtqInfoSize)
      else c.writeLE (L.config + regQSize) 2 0 := by
  rcases step_write_eq regQSelect data (by decide) hs with ⟨hsize, rfl⟩
  have hsel : queueSelect L (d.host.write (L.config + regQSelect) data)
      = ByteMem.leValue data := by
    rw [queueSelect, ← hlen]
    exact ByteMem.le_write_self _ _ _
  rw [selectWrite_host data hsize h.vq]
  simp only [hsel, hn]

/-- Bytes outside the selector and the window are not the selector's. -/
theorem select_byte (h : Anchored L d) (data : List UInt8) (hlen : data.length = 2)
    (hn : numQueues L d.host = L.n)
    (hs : PciStep mapper L (.access (.write regQSelect data)) d d') (x : Nat)
    (hx : x < L.config + regQSelect ∨ L.config + regQSize + virtqInfoSize ≤ x) :
    d'.host x = d.host x := by
  unfold regQSelect regQSize virtqInfoSize at hx
  rw [select_host h data hlen hn hs]
  split_ifs
  · rw [ByteMem.write_outside _ _ _ _
        (by rw [ByteMem.length_read]; unfold regQSize virtqInfoSize; omega),
      ByteMem.write_outside _ _ _ _ (by unfold regQSelect; omega)]
  · rw [writeLE_off _ _ _ _ _ (by unfold Off regQSize; omega),
      ByteMem.write_outside _ _ _ _ (by unfold regQSelect; omega)]

theorem select_refines (h : Anchored L d) (data : List UInt8) (hlen : data.length = 2)
    (hs : PciStep mapper L (.access (.write regQSelect data)) d d') (hr : Refines L d.host A) :
    Refines L d'.host (A.step L.n (.access (.write regQSelect data))) ∧
      Shows L d'.host (A.step L.n (.access (.write regQSelect data))) := by
  have hge := L.vq_ge
  have hcfg := L.devCfg_eq
  have hhost := select_host h data hlen hr.numQueues hs
  have hbyte := select_byte h data hlen hr.numQueues hs
  have hA : A.step L.n (.access (.write regQSelect data))
      = { A with select := ByteMem.leValue data } := by
    rw [QueueArray.step, if_pos rfl]
  have hqueue : ∀ q o, d'.host (L.vq + virtqSize * q + virtqInfo + o)
      = d.host (L.vq + virtqSize * q + virtqInfo + o) := fun q o =>
    hbyte _ (.inr (by unfold regQSize virtqInfoSize; omega))
  rw [hA]
  refine ⟨⟨?_, ?_, fun q hq o ho => ?_, fun q hq => ?_⟩, fun hlt o ho => ?_⟩
  · rw [← hr.numQueues]
    refine ByteMem.le_congr _ _ _ _ (fun i hi => hbyte _ (.inl ?_))
    unfold regNumq regQSelect
    omega
  · -- The window begins right behind the selector.
    rw [queueSelect, hhost]
    have hself := ByteMem.le_write_self d.host (L.config + regQSelect) data
    rw [hlen] at hself
    split_ifs
    · rw [ByteMem.le_write_apart _ _ _ _ _ (.of_ge (by unfold regQSelect regQSize; omega)), hself]
    · rw [ByteMem.le_writeLE_apart _ _ _ _ _ _ (.of_ge (by unfold regQSelect regQSize; omega)),
        hself]
  · rw [hqueue q o]
    exact hr.info q hq o ho
  · refine Nat.le_trans (Nat.le_of_eq ?_) (hr.enable q hq)
    refine ByteMem.le_congr _ _ _ _ (fun i hi => hbyte _ (.inr ?_))
    unfold regQSize virtqInfoSize
    omega
  · simp only at hlt
    have hlen' : o < (ByteMem.read (d.host.write (L.config + regQSelect) data)
        (L.vq + virtqSize * ByteMem.leValue data + virtqInfo) virtqInfoSize).length := by
      rw [ByteMem.length_read]
      exact ho
    rw [hhost, if_pos hlt, ByteMem.write_inside _ _ _ _ hlen', ByteMem.getElem_read,
      ByteMem.write_outside _ _ _ _ (by unfold regQSelect; omega)]
    exact hr.info _ hlt o ho

/-! ### Window registers -/

theorem QueueArray.step_window (n : Nat) (offset : Nat) (data : List UInt8)
    (h1 : regQSize ≤ offset) (h2 : offset ≤ regQUsedhi) (hlt : A.select < n) :
    A.step n (.access (.write offset data)) = { A with
      info := Function.update A.info A.select
        ((A.info A.select).write (offset - regQSize) data) } := by
  rw [QueueArray.step, if_neg (by unfold regQSelect; unfold regQSize at h1; omega),
    if_pos ⟨h1, h2, hlt⟩]

/-- A copy into the window, seen from the window. -/
theorem shows_copy (offset : Nat) (data : List UInt8) (h1 : regQSize ≤ offset)
    (hw : Shows L d.host A) (hlt : A.select < L.n) (o : Nat) (ho : o < virtqInfoSize) :
    d.host.write (L.config + offset) data (L.config + regQSize + o)
      = (A.info A.select).write (offset - regQSize) data o := by
  have hoff : L.config + offset = L.config + regQSize + (offset - regQSize) := by omega
  rw [hoff, ByteMem.write_shift]
  exact ByteMem.write_congr _ _ _ _ _ (hw hlt o ho)

theorem window_refines (h : Anchored L d) (offset : Nat) (data : List UInt8) (hin : InWindow offset)
    (hend : offset + data.length ≤ regQSize + virtqInfoSize)
    (hen : Apart offset data.length regQEnable 2)
    (hs : PciStep mapper L (.access (.write offset data)) d d') (hr : Refines L d.host A)
    (hw : Shows L d.host A) :
    Refines L d'.host (A.step L.n (.access (.write offset data))) ∧
      Shows L d'.host (A.step L.n (.access (.write offset data))) := by
  have hge := L.vq_ge
  have hcfg := L.devCfg_eq
  rcases hin with ⟨h1, h2, h3⟩
  have h1' : 24 ≤ offset := h1
  have hend' : offset + data.length ≤ 56 := hend
  -- What the step leaves: the bytes in the window, then those in the queue.
  have hhost := step_window h.vq offset data ⟨h1, h2, h3⟩ hs
  rw [hr.numQueues, hr.select] at hhost
  by_cases hlt : A.select < L.n
  · rw [if_pos hlt] at hhost
    rw [QueueArray.step_window L.n offset data h1 h2 hlt]
    -- Below the queues only the copy shows, in the queues only the second one.
    have hlow : ∀ x, x < L.vq → d'.host x = d.host.write (L.config + offset) data x := by
      intro x hx
      rw [hhost]
      exact ByteMem.write_outside _ _ _ _ (by omega)
    have hhigh : ∀ x, L.vq ≤ x → d'.host x
        = d.host.write (L.vq + virtqSize * A.select + offset) data x := by
      intro x hx
      rw [hhost]
      exact ByteMem.write_congr _ _ _ _ _ (ByteMem.write_outside _ _ _ _ (by omega))
    refine ⟨⟨?_, ?_, fun q hq o ho => ?_, fun q hq => ?_⟩, fun _ o ho => ?_⟩
    · rw [← hr.numQueues]
      refine ByteMem.le_congr _ _ _ _ ?_
      intro i hi
      rw [hlow _ (by unfold regNumq; omega)]
      exact ByteMem.write_outside _ _ _ _ (by unfold regNumq; omega)
    · rw [← hr.select]
      refine ByteMem.le_congr _ _ _ _ ?_
      intro i hi
      rw [hlow _ (by unfold regQSelect; omega)]
      exact ByteMem.write_outside _ _ _ _ (by unfold regQSelect; omega)
    · dsimp only
      rw [hhigh _ (by omega)]
      -- The selected queue takes the bytes where the window shows them.
      by_cases hqs : q = A.select
      · subst hqs
        have hoff : L.vq + virtqSize * A.select + offset
            = L.vq + virtqSize * A.select + virtqInfo + (offset - regQSize) := by
          unfold virtqInfo regQSize
          omega
        rw [Function.update_self, hoff, ByteMem.write_shift]
        exact ByteMem.write_congr _ _ _ _ _ (hr.info _ hq o ho)
      · -- Another queue is a whole `virtq` away.
        rw [Function.update_of_ne hqs, ← hr.info q hq o ho]
        refine ByteMem.write_outside _ _ _ _ ?_
        unfold virtqSize virtqInfo virtqInfoSize at *
        omega
    · -- The write is apart from the enable word, in the window and so in the queue.
      refine Nat.le_trans (Nat.le_of_eq ?_) (hr.enable q hq)
      refine ByteMem.le_congr _ _ _ _ ?_
      intro i hi
      rw [hhigh _ (by omega)]
      refine ByteMem.write_outside _ _ _ _ ?_
      simp only [Apart, regQEnable, virtqSize, virtqEnabled] at hen ⊢
      omega
    · -- In the window it shows what the selected queue now holds.
      rw [hlow _ (by unfold regQSize; unfold virtqInfoSize at ho; omega),
        shows_copy offset data h1 hw hlt o ho]
      simp only [Function.update_self]
  · rw [if_neg hlt] at hhost
    -- With no queue selected the array stays, and so do the queues.
    have hA : A.step L.n (.access (.write offset data)) = A := by
      rw [QueueArray.step, if_neg (by unfold regQSelect; omega), if_neg (fun hc => hlt hc.2.2)]
    rw [hA]
    refine ⟨hr.congr (fun a ha => ?_) (fun q _ o ho => ?_), fun hlt' => absurd hlt' hlt⟩
    · rw [hhost]
      unfold regNumq regQSelect at ha
      exact ByteMem.write_outside _ _ _ _ (by omega)
    · rw [hhost]
      exact ByteMem.write_outside _ _ _ _ (by omega)

/-! ### Enabling -/

/-- Enabling changes `enable` and the ring pointers of the selected queue. -/
theorem enable_high (h : Anchored L d)
    (hs : PciStep mapper L (.access (.write regQEnable [1, 0])) d d') (x : Nat) (hx : L.vq ≤ x)
    (h1 : Off x (L.vq + virtqSize * queueSelect L d.host) 24)
    (h2 : Off x (L.vq + virtqSize * queueSelect L d.host + virtqEnabled) 2) :
    d'.host x = d.host x := by
  have hge := L.vq_ge
  have hcfg := L.devCfg_eq
  rcases step_write_eq regQEnable [1, 0] (by decide) hs with ⟨hsize, rfl⟩
  have hcopy : d.host.write (L.config + regQEnable) [1, 0] x = d.host x :=
    ByteMem.write_outside _ _ _ _
      (by simp only [List.length_cons, List.length_nil, regQEnable]; omega)
  rw [enableWrite_host [1, 0] hsize h.vq]
  split_ifs
  · rw [virtqEnableAt_off mapper _ _ _ h1 h2, hcopy]
  · exact hcopy

/-- After enabling, `enable` of the selected queue is one. -/
theorem enable_bytes (h : Anchored L d)
    (hs : PciStep mapper L (.access (.write regQEnable [1, 0])) d d')
    (hle : (queueAt L d.host (queueSelect L d.host)).info.enable ≤ 1) :
    (queueAt L d'.host (queueSelect L d.host)).info.enable = 1 := by
  have hq := step_enable_queue [1, 0] h.vq hs
  have hne : queueEnable L (d.host.write (L.config + regQEnable) [1, 0]) ≠ 0 := by
    have hself := ByteMem.le_write_self d.host (L.config + regQEnable) [1, 0]
    simp only [List.length_cons, List.length_nil] at hself
    rw [queueEnable, hself]
    decide
  rw [if_pos hne] at hq
  rw [queueAt, hq]
  unfold virtqEnable
  split_ifs with hen
  · unfold queueAt at hle
    omega
  · rfl

/-- Below the queues a write of `queue_enable` is its copy. -/
theorem enable_low (h : Anchored L d)
    (hs : PciStep mapper L (.access (.write regQEnable [1, 0])) d d') (x : Nat)
    (hx : x < L.devCfg) :
    d'.host x = d.host.write (L.config + regQEnable) [1, 0] x := by
  refine h.regWrite_byte regQEnable [1, 0] hs (by decide) x hx ?_ ?_ ?_ ?_
  · exact fun hc => absurd hc (by decide)
  · exact fun hc => absurd hc (by decide)
  · exact fun hc => absurd hc (by decide)
  · exact fun hc => absurd hc (by decide)

/-- In the queues it sets `enable` of the selected one. -/
theorem enable_info (h : Anchored L d)
    (hs : PciStep mapper L (.access (.write regQEnable [1, 0])) d d') (hr : Refines L d.host A)
    (hlt : A.select < L.n) (q : Nat) (hq : q < L.n) (o : Nat) (ho : o < virtqInfoSize) :
    d'.host (L.vq + virtqSize * q + virtqInfo + o)
      = Function.update A.info A.select
        ((A.info A.select).write (regQEnable - regQSize) [1, 0]) q o := by
  have hone := enable_bytes h hs (by rw [hr.select]; exact hr.enable _ hlt)
  have hhigh := enable_high h hs
  rw [hr.select] at hone hhigh
  unfold virtqInfoSize at ho
  by_cases hqs : q = A.select
  · subst hqs
    rw [Function.update_self]
    by_cases ho4 : 4 ≤ o ∧ o < 6
    · -- The two bytes of `enable` spell one.
      have hbytes : d'.host.read (L.vq + virtqSize * A.select + virtqEnabled) 2 = [1, 0] := by
        rw [← ByteMem.leBytes_le]
        exact congrArg (ByteMem.leBytes 2) hone
      obtain ⟨j, rfl⟩ : ∃ j, o = 4 + j := ⟨o - 4, by omega⟩
      have hj : j < [1, 0].length := by simp only [List.length_cons, List.length_nil]; omega
      have hj' : j < (d'.host.read (L.vq + virtqSize * A.select + virtqEnabled) 2).length := by
        rw [ByteMem.length_read]
        omega
      have hget := ByteMem.getElem_read d'.host (L.vq + virtqSize * A.select + virtqEnabled) 2 j hj'
      simp only [hbytes] at hget
      rw [show regQEnable - regQSize = 4 from rfl, ByteMem.write_inside _ _ _ _ hj, hget]
      unfold virtqInfo virtqEnabled
      congr 1
      omega
    · rw [ByteMem.write_outside _ _ _ _ (by
          simp only [regQEnable, regQSize, List.length_cons, List.length_nil]; omega),
        ← hr.info _ hq o ho]
      refine hhigh _ (by omega) ?_ ?_
      · exact Or.inr (by unfold virtqInfo; omega)
      · unfold Off virtqInfo virtqEnabled
        omega
  · -- The other queues are not touched.
    rw [Function.update_of_ne hqs, ← hr.info q hq o ho]
    refine hhigh _ (by omega) ?_ ?_
    · unfold Off virtqSize virtqInfo
      omega
    · unfold Off virtqSize virtqInfo virtqEnabled
      omega

theorem enable_refines (h : Anchored L d)
    (hs : PciStep mapper L (.access (.write regQEnable [1, 0])) d d') (hr : Refines L d.host A)
    (hw : Shows L d.host A) (hlt : A.select < L.n) :
    Refines L d'.host (A.step L.n (.access (.write regQEnable [1, 0]))) ∧
      Shows L d'.host (A.step L.n (.access (.write regQEnable [1, 0]))) := by
  have hcfg := L.devCfg_eq
  have hlow := enable_low h hs
  rw [QueueArray.step_window L.n regQEnable [1, 0] (by decide) (by decide) hlt]
  refine ⟨⟨?_, ?_, fun q hq o ho => enable_info h hs hr hlt q hq o ho, fun q hq => ?_⟩,
    fun _ o ho => ?_⟩
  · rw [← hr.numQueues]
    refine ByteMem.le_congr _ _ _ _ ?_
    intro i hi
    rw [hlow _ (by unfold regNumq; omega)]
    exact ByteMem.write_outside _ _ _ _ (.inl (by unfold regNumq regQEnable; omega))
  · rw [← hr.select]
    refine ByteMem.le_congr _ _ _ _ ?_
    intro i hi
    rw [hlow _ (by unfold regQSelect; omega)]
    exact ByteMem.write_outside _ _ _ _ (.inl (by unfold regQSelect regQEnable; omega))
  · by_cases hqs : q = A.select
    · subst hqs
      -- The selected queue is enabled with 1, also when it was enabled before.
      have hone := enable_bytes h hs (by rw [hr.select]; exact hr.enable _ hlt)
      rw [hr.select] at hone
      exact Nat.le_of_eq hone
    · -- The stores are all in the selected queue.
      have hhigh := enable_high h hs
      rw [hr.select] at hhigh
      refine Nat.le_trans (Nat.le_of_eq ?_) (hr.enable q hq)
      refine ByteMem.le_congr _ _ _ _ (fun i hi => hhigh _ (by omega) ?_ ?_)
      · unfold Off virtqSize virtqEnabled
        omega
      · unfold Off virtqSize virtqEnabled
        omega
  · rw [hlow _ (by unfold regQSize; unfold virtqInfoSize at ho; omega),
      shows_copy regQEnable [1, 0] (by decide) hw hlt o ho]
    simp only [Function.update_self]

/-- A conforming event keeps the representation. -/
theorem conforming_refines (h : Anchored L d) (hc : Conforming L d e)
    (hs : PciStep mapper L e d d') (hr : Refines L d.host A) (hw : Shows L d.host A) :
    Refines L d'.host (A.step L.n e) ∧ Shows L d'.host (A.step L.n e) := by
  by_cases he : Elsewhere e
  · exact elsewhere_refines h hc.devFits he hs hr hw
  · match e, he with
    | .access (.read _ _), he => exact absurd trivial he
    | .ioevent _, he => exact absurd trivial he
    | .access (.write offset data), he =>
      rcases hc.write_cases with ⟨rfl, hlen⟩ | ⟨rfl, rfl, hlt⟩ | ⟨hin, hend, hen⟩ | hel
      · exact select_refines h data hlen hs hr
      · exact enable_refines h hs hr hw (by rw [← hr.select]; exact hlt)
      · exact window_refines h offset data hin hend hen hs hr hw
      · exact absurd hel he

/-! ### What an access changes -/

/-- A window write changes the window and `info` of the selected queue. -/
theorem window_frame (hvq : vqPtr L d.host = L.vq) (offset : Nat) (data : List UInt8)
    (hin : InWindow offset) (hend : offset + data.length ≤ regQSize + virtqInfoSize)
    (hs : PciStep mapper L (.access (.write offset data)) d d') (x : Nat)
    (h1 : Off x (L.config + regQSize) virtqInfoSize)
    (h2 : Off x (L.vq + virtqSize * queueSelect L d.host + virtqInfo) virtqInfoSize) :
    d'.host x = d.host x := by
  have hge := hin.1
  unfold Off regQSize virtqInfo virtqInfoSize at *
  rw [step_window hvq offset data hin hs]
  split_ifs
  · rw [ByteMem.write_outside _ _ _ _ (by omega), ByteMem.write_outside _ _ _ _ (by omega)]
  · exact ByteMem.write_outside _ _ _ _ (by omega)

/-- With no queue selected, no access changes a queue. -/
theorem unselected_frame (h : Anchored L d) (acc : Access) (hc : Conforming L d (.access acc))
    (hn : numQueues L d.host = L.n) (hsel : L.n ≤ queueSelect L d.host)
    (hs : PciStep mapper L (.access acc) d d') (x : Nat) (hx : L.vq ≤ x) :
    d'.host x = d.host x := by
  have hge := L.vq_ge
  have hcfg := L.devCfg_eq
  refine step_spares hs h.vq x ?_
  cases acc with
  | read offset size => exact fun _ => Or.inr (by unfold regIsrCfg; omega)
  | write offset data =>
      have hmem := hc.1
      have hen := fun h28 => (hc.2 h28).2
      simp only [writableRegs, List.mem_cons, Prod.mk.injEq, List.not_mem_nil, or_false] at hmem
      simp only [regQEnable] at hen
      rw [spares_write]
      unfold Off
      refine ⟨?_, ?_, ?_, ?_, ?_, ?_, ?_, ?_⟩ <;> intros <;> omega

end

/-- The array a device represents. -/
def QueueArray.of (L : PciLayout) (h : ByteMem) : QueueArray :=
  { select := queueSelect L h, info := fun q o => h (L.vq + virtqSize * q + virtqInfo + o) }

/-- The device and the array side by side. -/
def arrayStep (mapper : Int → MemRegion) (L : PciLayout) (e : PciEvent)
    (s s' : PciDev × QueueArray) : Prop :=
  PciOutcome mapper L e s.1 s'.1 ∧ s'.2 = s.2.step L.n e

theorem PciDev.Initial.refines {L : PciLayout} {d : PciDev} (h : d.Initial L) :
    Refines L d.host (QueueArray.of L d.host) := by
  refine ⟨h.numQueues, rfl, fun _ _ _ _ => rfl, fun q hq => ?_⟩
  rw [queueAt, h.queue q hq]
  exact Nat.zero_le 1

/-- Two ranges that agree byte by byte read the same. -/
theorem read_eq_read (m m' : ByteMem) (a b k : Nat) (h : ∀ o, o < k → m (a + o) = m' (b + o)) :
    m.read a k = m'.read b k := by
  refine List.map_congr_left ?_
  intro o ho
  exact h o (List.mem_range.mp ho)

/-- A write of the selector conforms. -/
theorem conforming_select (L : PciLayout) (d : PciDev) (data : List UInt8)
    (hlen : data.length = 2) : Conforming L d (.access (.write regQSelect data)) := by
  refine ⟨?_, fun hc => absurd hc (by decide)⟩
  rw [hlen]
  decide

/-- Along every conforming run that begins with a selection, and whose doorbells
    stay inside, the device and an array of queues go hand in hand. The window
    shows `info` of the selected queue; a window write changes nothing else,
    `queue_enable` also the ring pointers; with no queue selected no queue
    changes; and selecting shows what was last written for the queue, or a size
    of zero. -/
theorem window_refines_array (mapper : Int → MemRegion) (L : PciLayout) (d₀ d₁ d : PciDev)
    (A : QueueArray) (h₀ : d₀.Initial L) (first : List UInt8) (hlen : first.length = 2)
    (hfirst : PciOutcome mapper L (.access (.write regQSelect first)) d₀ d₁)
    (hrun : Run (arrayStep mapper L)
      (fun s e => Conforming L s.1 e ∧ DoorbellInside mapper L s.1 e)
      (d₁, (QueueArray.of L d₀.host).step L.n (.access (.write regQSelect first))) (d, A)) :
    queueSelect L d.host = A.select ∧
    (∀ q, q < L.n → d.host.read (L.vq + virtqSize * q + virtqInfo) virtqInfoSize
      = (A.info q).read 0 virtqInfoSize) ∧
    (queueSelect L d.host < L.n → d.host.read (L.config + regQSize) virtqInfoSize
      = d.host.read (L.vq + virtqSize * queueSelect L d.host + virtqInfo) virtqInfoSize) ∧
    (∀ offset data d', InWindow offset → Conforming L d (.access (.write offset data)) →
      PciOutcome mapper L (.access (.write offset data)) d d' →
      ∀ x, Off x (L.config + regQSize) virtqInfoSize →
        Off x (L.vq + virtqSize * queueSelect L d.host + virtqInfo) virtqInfoSize →
        d'.host x = d.host x) ∧
    (∀ d', Conforming L d (.access (.write regQEnable [1, 0])) →
      PciOutcome mapper L (.access (.write regQEnable [1, 0])) d d' →
      ∀ x, L.vq ≤ x → Off x (L.vq + virtqSize * queueSelect L d.host) 24 →
        Off x (L.vq + virtqSize * queueSelect L d.host + virtqInfo) virtqInfoSize →
        d'.host x = d.host x) ∧
    (L.n ≤ queueSelect L d.host → ∀ acc d', Conforming L d (.access acc) →
      PciOutcome mapper L (.access acc) d d' → ∀ x, L.vq ≤ x → d'.host x = d.host x) ∧
    (∀ data d', data.length = 2 → PciOutcome mapper L (.access (.write regQSelect data)) d d' →
      (ByteMem.leValue data < L.n → d'.host.read (L.config + regQSize) virtqInfoSize
        = (A.info (ByteMem.leValue data)).read 0 virtqInfoSize) ∧
      (L.n ≤ ByteMem.leValue data → d'.host.le (L.config + regQSize) 2 = 0)) := by
  have hinv : Anchored L d ∧ Refines L d.host A ∧ Shows L d.host A := by
    -- The first write is a selection, from then on the window shows a queue.
    refine hrun.invariant
      (P := fun s => Anchored L s.1 ∧ Refines L s.1.host s.2 ∧ Shows L s.1.host s.2) ?_
      (fun t e u ht hc ho => ?_)
    · have hc := conforming_select L d₀ first hlen
      have hs := hfirst (hc.contained h₀.anchored h₀.numQueues)
      exact ⟨anchored_step h₀.anchored hc.blockFits hs,
        select_refines h₀.anchored first hlen hs h₀.refines⟩
    · have hs := ho.1 (hc.1.event_contained ht.1 ht.2.1.numQueues hc.2)
      rw [ho.2]
      exact ⟨anchored_step ht.1 hc.1.blockFits hs,
        conforming_refines ht.1 hc.1 hs ht.2.1 ht.2.2⟩
  rcases hinv with ⟨ha, hr, hw⟩
  -- A conforming access of the driver is what the step relation says.
  have hstep : ∀ acc d', Conforming L d (.access acc) → PciOutcome mapper L (.access acc) d d' →
      PciStep mapper L (.access acc) d d' := fun acc d' hc ho => ho (hc.contained ha hr.numQueues)
  have hinfo : ∀ q, q < L.n → d.host.read (L.vq + virtqSize * q + virtqInfo) virtqInfoSize
      = (A.info q).read 0 virtqInfoSize := fun q hq =>
    read_eq_read _ _ _ _ _ (fun o ho => by rw [Nat.zero_add]; exact hr.info q hq o ho)
  refine ⟨hr.select, hinfo, fun hlt => ?_, fun offset data d' hin hc ho x h1 h2 => ?_,
    fun d' hc ho x hx h1 h2 => ?_, fun hsel acc d' hc ho x hx => ?_, fun data d' hl ho => ?_⟩
  · rw [hr.select] at hlt ⊢
    rw [hinfo _ hlt]
    exact read_eq_read _ _ _ _ _ (fun o ho => by rw [Nat.zero_add]; exact hw hlt o ho)
  · refine window_frame ha.vq offset data hin ?_ (hstep _ _ hc ho) x h1 h2
    rcases hc.write_cases with ⟨rfl, -⟩ | ⟨rfl, -, -⟩ | ⟨-, hend, -⟩ | hel
    · exact absurd hin (by decide)
    · exact absurd hin (by decide)
    · exact hend
    · unfold regNumq regQSize virtqInfoSize at *
      omega
  · refine enable_high ha (hstep _ _ hc ho) x hx h1 ?_
    simp only [Off, virtqInfo, virtqInfoSize, virtqEnabled] at h2 ⊢
    omega
  · exact unselected_frame ha acc hc hr.numQueues hsel (hstep _ _ hc ho) x hx
  · have hs := hstep _ _ (conforming_select L d data hl) ho
    constructor
    · intro hlt
      have hshow := (select_refines ha data hl hs hr).2
      rw [QueueArray.step, if_pos rfl] at hshow
      exact read_eq_read _ _ _ _ _ (fun o ho => by rw [Nat.zero_add]; exact hshow hlt o ho)
    · intro hge
      rw [select_host ha data hl hr.numQueues hs, if_neg (Nat.not_lt.mpr hge),
        ByteMem.le_writeLE_self _ _ _ _ (by decide)]

/-- `window_refines_array` after the guest has selected the queue and set its
    size. -/
theorem window_refines_array_sized :
    let d := pciWrites sampleMapper sampleLayout samplePci [(22, [0, 0]), (24, [64, 0])]
    (queueAt sampleLayout d.host 0).info.size = 64 ∧
    d.host.read (sampleLayout.config + regQSize) virtqInfoSize
      = d.host.read (sampleLayout.vq + virtqSize * queueSelect sampleLayout d.host + virtqInfo)
        virtqInfoSize := by
  have h1 : PciStep sampleMapper sampleLayout (.access (.write regQSelect [0, 0])) samplePci
      (pciWrites sampleMapper sampleLayout samplePci [(22, [0, 0])]) :=
    .access _ _ _ (by decide) (.write _ _ _ rfl)
  have h2 : PciStep sampleMapper sampleLayout (.access (.write 24 [64, 0]))
      (pciWrites sampleMapper sampleLayout samplePci [(22, [0, 0])])
      (pciWrites sampleMapper sampleLayout samplePci [(22, [0, 0]), (24, [64, 0])]) :=
    .access _ _ _ (by decide) (.write _ _ _ (by decide +kernel))
  refine ⟨by decide +kernel, ?_⟩
  exact (window_refines_array sampleMapper sampleLayout samplePci _ _ _ samplePci_initial [0, 0] rfl
    (fun _ => h1) (.tail (.access (.write 24 [64, 0])) (.refl _)
      ⟨by decide +kernel, fun ho => absurd ho (by decide)⟩ ⟨fun _ => h2, rfl⟩)).2.2.1
    (by decide +kernel)

/-- A conforming write in the window that changes more than `info`: enabling a
    selected queue sets its ring pointers. -/
theorem enabling_sets_rings :
    ∃ d d' x, PciStep sampleMapper sampleLayout (.access (.write regQSelect [0, 0])) samplePci d ∧
      Conforming sampleLayout d (.access (.write regQEnable [1, 0])) ∧
      PciStep sampleMapper sampleLayout (.access (.write regQEnable [1, 0])) d d' ∧
      queueSelect sampleLayout d.host = 0 ∧
      (queueAt sampleLayout d.host 0).descRing = 0 ∧
      (queueAt sampleLayout d'.host 0).descRing = 2 ^ 45 ∧
      Off x (sampleLayout.config + regQSize) virtqInfoSize ∧
      Off x (sampleLayout.vq + virtqInfo) virtqInfoSize ∧ d'.host x ≠ d.host x := by
  refine ⟨pciWrites sampleMapper sampleLayout samplePci [(22, [0, 0])],
    pciWrites sampleMapper sampleLayout samplePci [(22, [0, 0]), (28, [1, 0])],
    sampleLayout.vq + 5, .access _ _ _ (by decide) (.write _ _ _ rfl), by decide +kernel,
    .access _ _ _ (by decide) (.write _ _ _ (by decide +kernel)), by decide +kernel,
    by decide +kernel, by decide +kernel, Or.inr (by decide), Or.inl (by decide),
    by decide +kernel⟩

end Microv
