import Microv.Theory.Serial
import Mathlib.Data.List.Infix

/-!
# Two Threads at the Serial Port

`serial.c` as it runs: `serial_thread_fn` gives the bytes of the standard input
to `receive_serial_input`, while the thread of the virtual processor is in
`read_serial_reg` or `write_serial_reg`. There is no lock, and both threads
write `count` and `lsr`.

Here each load and each store of the two is a step of its own, and the steps of
the threads come in any order; memory is sequentially consistent. The index
`head` is the input thread's alone, and `tail` the other's, as long as nothing
is transmitted in loopback mode, so a byte is stored or taken together with its
index. `update_serial_iir` writes nothing the ring depends on and is one step,
and so is an access to any other register.

What the count says is off by the bytes that are stored and not yet counted,
and by those that are taken and still counted (`debt`); DR may be behind the
count while one of the threads is about to write it. `ThreadsInv` says so, and
`NotOvertaken` is exactly what keeps it: a count is stored only if nobody stored one
since it was loaded, and DR is written only while the count agrees. The code
does nothing to make it so, and `data_ready_lost` is a run of two bytes where
it fails.

## Main definitions

* `HostPc`, `VcpuPc`: Where the two threads are.
* `SerialThreads`, `threadStep`: The port with the two threads, and one step.
* `Slots`: Where the bytes are, whatever the threads do.
* `NotOvertaken`: A store is not overtaken.
* `ThreadsInv`: The ring, with what the threads owe it.

## Theorems

* `slots_step`, `threads_slots`: No byte is made up.
* `threadsInv_step`: One step, and what it needs.
* `threads_queue`: The port as a queue between two threads.
* `input_alone`, `read_alone`: The threads one after the other.
* `data_ready_lost`: A byte that is never announced.
-/

namespace Microv

/-- The points of `receive_serial_input`, with the values it has loaded. -/
inductive HostPc where
  | idle
  -- The test that reports, `f->data[f->head++] = chr`, and the wrap of the index.
  | put (data : UInt8)
  -- `f->count++`.
  | loadCount
  | storeCount (count : UInt8)
  -- `Serial.lsr |= UART_LSR_DR`.
  | loadLsr
  | storeLsr (lsr : UInt8)
  | update
  deriving DecidableEq

/-- The points of `read_serial_reg` on the receiver buffer. -/
inductive VcpuPc where
  | idle
  -- `Serial.recv_fifo.count != 0`.
  | test
  -- `f->count == 0`, in `fifo_get`.
  | get
  -- `c = f->data[f->tail++]`, and the wrap of the index.
  | take
  -- `f->count--`.
  | loadCount
  | storeCount (count : UInt8)
  -- `Serial.recv_fifo.count == 0`.
  | retest
  -- `Serial.lsr &= ~UART_LSR_DR`.
  | loadLsr
  | storeLsr (lsr : UInt8)
  | update
  deriving DecidableEq

/-- The port and the two threads, with the bytes stored in the ring and the
    bytes taken from it so far. -/
structure SerialThreads where
  dev : Serial
  host : HostPc
  vcpu : VcpuPc
  accepted : List UInt8
  delivered : List UInt8

/-- The port before the first step. -/
def SerialThreads.start : SerialThreads :=
  { dev := serialInit, host := .idle, vcpu := .idle, accepted := [], delivered := [] }

/-- An index of the ring after its increment. -/
def fifoNext (i : UInt8) : UInt8 :=
  if i + 1 = uartFifoLength then 0 else i + 1

/-- One step of `receive_serial_input`. -/
def hostStep (s : SerialThreads) : Option SerialThreads :=
  match s.host with
  | .idle => none
  | .put data =>
      some { s with
        dev := { s.dev with
          output := s.dev.output ++ overflowReport s.dev.recvFifo,
          recvFifo := { s.dev.recvFifo with
            data := Function.update s.dev.recvFifo.data s.dev.recvFifo.head.toNat data,
            head := fifoNext s.dev.recvFifo.head } },
        accepted := s.accepted ++ [data], host := .loadCount }
  | .loadCount => some { s with host := .storeCount s.dev.recvFifo.count }
  | .storeCount count =>
      some { s with
        dev := { s.dev with recvFifo := { s.dev.recvFifo with count := count + 1 } },
        host := .loadLsr }
  | .loadLsr => some { s with host := .storeLsr s.dev.lsr }
  | .storeLsr lsr =>
      some { s with dev := { s.dev with lsr := lsr ||| uartLsrDr }, host := .update }
  | .update => some { s with dev := updateSerialIir s.dev, host := .idle }

/-- One step of `read_serial_reg` on the receiver buffer. -/
def vcpuStep (s : SerialThreads) : Option SerialThreads :=
  match s.vcpu with
  | .idle => none
  | .test => some { s with vcpu := if s.dev.recvFifo.count ≠ 0 then .get else .retest }
  | .get => some { s with vcpu := if s.dev.recvFifo.count = 0 then .retest else .take }
  | .take =>
      some { s with
        dev := { s.dev with recvFifo := { s.dev.recvFifo with
          tail := fifoNext s.dev.recvFifo.tail } },
        delivered := s.delivered ++ [s.dev.recvFifo.data s.dev.recvFifo.tail.toNat],
        vcpu := .loadCount }
  | .loadCount => some { s with vcpu := .storeCount s.dev.recvFifo.count }
  | .storeCount count =>
      some { s with
        dev := { s.dev with recvFifo := { s.dev.recvFifo with count := count - 1 } },
        vcpu := .retest }
  | .retest => some { s with vcpu := if s.dev.recvFifo.count = 0 then .loadLsr else .update }
  | .loadLsr => some { s with vcpu := .storeLsr s.dev.lsr }
  | .storeLsr lsr =>
      some { s with dev := { s.dev with lsr := lsr &&& ~~~uartLsrDr }, vcpu := .update }
  | .update => some { s with dev := updateSerialIir s.dev, vcpu := .idle }

/-- A byte arrives, the input thread goes on, the guest makes an access, or the
    processor's thread goes on with one. -/
inductive ThreadEvent where
  | input (data : UInt8)
  | host
  | access (op : SerialOp)
  | vcpu

/-- The access reads the receiver buffer. -/
def SerialOp.ReadsBuffer (s : Serial) : SerialOp → Prop
  | .read 0 _ => ¬ s.dlab
  | _ => False

/-- The access is the input thread's, or puts a byte into the ring by itself. -/
def SerialOp.Puts (s : Serial) : SerialOp → Prop
  | .receive _ => True
  | .write 0 _ => ¬ s.dlab ∧ s.loop
  | _ => False

instance (s : Serial) (op : SerialOp) : Decidable (op.ReadsBuffer s) :=
  match op with
  | .read 0 _ => inferInstanceAs (Decidable (¬ s.dlab))
  | .read (_ + 1) _ | .receive _ | .write _ _ => inferInstanceAs (Decidable False)

instance (s : Serial) (op : SerialOp) : Decidable (op.Puts s) :=
  match op with
  | .receive _ => inferInstanceAs (Decidable True)
  | .write 0 _ => inferInstanceAs (Decidable (¬ s.dlab ∧ s.loop))
  | .write (_ + 1) _ | .read _ _ => inferInstanceAs (Decidable False)

/-- One step of the whole, if the event can happen. A read of the receiver
    buffer is taken step by step; a transmission in loopback mode is not
    modelled here. -/
def threadStep (s : SerialThreads) : ThreadEvent → Option SerialThreads
  | .input data =>
      if s.host = .idle then some (if s.dev.loop then s else { s with host := .put data }) else none
  | .host => hostStep s
  | .access op =>
      if s.vcpu ≠ .idle ∨ op.Puts s.dev then none
      else if op.ReadsBuffer s.dev then some { s with vcpu := .test }
      else some { s with dev := serialStep s.dev op }
  | .vcpu => vcpuStep s

/-- A step as a relation. -/
def ThreadStep (e : ThreadEvent) (s s' : SerialThreads) : Prop :=
  threadStep s e = some s'

/-- An access that neither reads the buffer nor puts a byte leaves the FIFO and
    the line status alone. -/
theorem serialStep_other (s : Serial) (op : SerialOp) (hr : ¬ op.ReadsBuffer s)
    (hp : ¬ op.Puts s) :
    (serialStep s op).recvFifo = s.recvFifo ∧ (serialStep s op).lsr = s.lsr := by
  cases fifoEffect s op with
  | put data hacc =>
      match op, hacc with
      | .receive _, _ => exact absurd trivial hp
      | .write 0 _, hacc =>
          refine absurd ?_ hp
          by_contra hno
          exact absurd ((if_neg hno).symm.trans hacc)
            (by simp only [reduceCtorEq, not_false_eq_true])
  | take ret hop hd =>
      subst hop
      exact absurd hd hr
  | empty ret hop hd =>
      subst hop
      exact absurd hd hr
  | keep _ _ hfifo hlsr => exact ⟨hfifo, hlsr⟩

/-! ### Where the bytes are -/

/-- The indices count the bytes stored and taken, and a byte in the ring or
    taken from it is one that was stored a number of laps away, or none was
    yet. -/
structure Slots (s : SerialThreads) : Prop where
  head : s.dev.recvFifo.head.toNat = s.accepted.length % 16
  tail : s.dev.recvFifo.tail.toNat = s.delivered.length % 16
  stored : ∀ x, s.dev.recvFifo.data x = 0 ∨
    ∃ i, i % 16 = x ∧ s.accepted[i]? = some (s.dev.recvFifo.data x)
  taken : ∀ (j : Nat) (b : UInt8), s.delivered[j]? = some b →
    b = 0 ∨ ∃ i, i % 16 = j % 16 ∧ s.accepted[i]? = some b

section

variable {s s' : SerialThreads} {e : ThreadEvent}

/-- The index behind the `n`-th byte. -/
theorem fifoNext_toNat {i : UInt8} {n : Nat} (h : i.toNat = n % 16) :
    (fifoNext i).toNat = (n + 1) % 16 := by
  have hlt : i < uartFifoLength := by
    refine UInt8.lt_iff_toNat_lt.mpr ?_
    rw [h]
    exact Nat.mod_lt _ (by decide)
  rw [fifoNext, (next_toNat i hlt).1, h, Nat.mod_add_mod]

/-- Steps that touch neither the ring nor the record. -/
theorem Slots.congr (h : Slots s) (hdata : s'.dev.recvFifo.data = s.dev.recvFifo.data)
    (hhead : s'.dev.recvFifo.head = s.dev.recvFifo.head)
    (htail : s'.dev.recvFifo.tail = s.dev.recvFifo.tail) (hacc : s'.accepted = s.accepted)
    (hdel : s'.delivered = s.delivered) : Slots s' := by
  refine ⟨?_, ?_, ?_, ?_⟩
  · rw [hhead, hacc]
    exact h.head
  · rw [htail, hdel]
    exact h.tail
  · rw [hdata, hacc]
    exact h.stored
  · rw [hacc, hdel]
    exact h.taken

theorem slots_host (h : Slots s) (hs : hostStep s = some s') : Slots s' := by
  unfold hostStep at hs
  split at hs
  · exact absurd hs (by simp only [reduceCtorEq, not_false_eq_true])
  · next data _ =>
    rw [← Option.some.inj hs]
    have hold : ∀ {i : Nat} {b : UInt8}, s.accepted[i]? = some b →
        (s.accepted ++ [data])[i]? = some b := by
      intro i b hi
      rw [List.getElem?_append_left (List.getElem?_eq_some_iff.mp hi).1]
      exact hi
    refine ⟨?_, h.tail, ?_, ?_⟩
    · rw [List.length_append]
      exact fifoNext_toNat h.head
    · intro x
      by_cases hx : x = s.dev.recvFifo.head.toNat
      · -- The new byte.
        refine Or.inr ⟨s.accepted.length, by rw [hx, h.head], ?_⟩
        simp only [hx, Function.update_self, List.getElem?_concat_length]
      · simp only [Function.update_of_ne hx]
        rcases h.stored x with hz | ⟨i, hi, hb⟩
        · exact Or.inl hz
        · exact Or.inr ⟨i, hi, hold hb⟩
    · intro j b hj
      rcases h.taken j b hj with hz | ⟨i, hi, hb⟩
      · exact Or.inl hz
      · exact Or.inr ⟨i, hi, hold hb⟩
  all_goals
    rw [← Option.some.inj hs]
    exact h.congr rfl rfl rfl rfl rfl

theorem slots_vcpu (h : Slots s) (hs : vcpuStep s = some s') : Slots s' := by
  unfold vcpuStep at hs
  split at hs
  · exact absurd hs (by simp only [reduceCtorEq, not_false_eq_true])
  · rw [← Option.some.inj hs]
    exact h.congr rfl rfl rfl rfl rfl
  · rw [← Option.some.inj hs]
    exact h.congr rfl rfl rfl rfl rfl
  · rw [← Option.some.inj hs]
    refine ⟨h.head, ?_, h.stored, ?_⟩
    · rw [List.length_append]
      exact fifoNext_toNat h.tail
    · intro j b hj
      rcases Nat.lt_or_ge j s.delivered.length with hlt | hge
      · rw [List.getElem?_append_left hlt] at hj
        exact h.taken j b hj
      · -- The byte taken now is what its slot holds.
        have hj' : j = s.delivered.length ∧ s.dev.recvFifo.data s.dev.recvFifo.tail.toNat = b := by
          rcases List.getElem?_eq_some_iff.mp hj with ⟨hlt, hb⟩
          rw [List.length_append, List.length_singleton] at hlt
          have heq : j = s.delivered.length := by omega
          subst heq
          rw [List.getElem_concat_length] at hb
          · exact ⟨rfl, hb⟩
          · rfl
        rcases hj' with ⟨rfl, rfl⟩
        rw [← h.tail]
        exact h.stored _
  all_goals
    rw [← Option.some.inj hs]
    exact h.congr rfl rfl rfl rfl rfl

theorem slots_step (h : Slots s) (hs : ThreadStep e s s') : Slots s' := by
  cases e with
  | input data =>
      simp only [ThreadStep, threadStep] at hs
      split_ifs at hs
      · rwa [← Option.some.inj hs]
      · rw [← Option.some.inj hs]
        exact h.congr rfl rfl rfl rfl rfl
  | host => exact slots_host h hs
  | access op =>
      simp only [ThreadStep, threadStep] at hs
      split_ifs at hs with hoff hread
      · rw [← Option.some.inj hs]
        exact h.congr rfl rfl rfl rfl rfl
      · rw [← Option.some.inj hs]
        have hkeep := (serialStep_other s.dev op hread fun hp => hoff (Or.inr hp)).1
        exact h.congr (by rw [hkeep]) (by rw [hkeep]) (by rw [hkeep]) rfl rfl
  | vcpu => exact slots_vcpu h hs

theorem slots_start : Slots .start := by
  refine ⟨rfl, rfl, fun _ => Or.inl rfl, fun j b hj => ?_⟩
  exact absurd hj (by simp [SerialThreads.start])

/-- However the steps of the two threads fall, the guest is given no byte that
    did not arrive: the `j`-th byte is one that arrived a number of laps of the
    ring before or after the `j`-th, or the zero the ring began with. -/
theorem threads_slots (s : SerialThreads) (hrun : Run ThreadStep (fun _ _ => True) .start s)
    (j : Nat) (b : UInt8) (hj : s.delivered[j]? = some b) :
    b = 0 ∨ ∃ i, i % 16 = j % 16 ∧ s.accepted[i]? = some b := by
  have h : Slots s := hrun.invariant slots_start fun t e u ht _ hs => slots_step ht hs
  exact h.taken j b hj

end

/-! ### What the threads owe -/

/-- Bytes stored and not yet counted. -/
def HostPc.debt : HostPc → Nat
  | .loadCount | .storeCount _ => 1
  | _ => 0

/-- Bytes taken and still counted. -/
def VcpuPc.debt : VcpuPc → Nat
  | .loadCount | .storeCount _ => 1
  | _ => 0

/-- The input thread is about to set DR. -/
def HostPc.sets : HostPc → Bool
  | .loadLsr | .storeLsr _ => true
  | _ => false

/-- The processor's thread is about to clear DR if the ring is empty. -/
def VcpuPc.clears : VcpuPc → Bool
  | .retest | .loadLsr | .storeLsr _ => true
  | _ => false

/-- The processor's thread has seen a byte and not taken it yet. -/
def VcpuPc.sees : VcpuPc → Bool
  | .get | .take => true
  | _ => false

/-- The ring between two threads: the bytes that are not taken lie where the
    indices say, the count is theirs up to what the threads owe, and DR is the
    count's up to what they are about to write. -/
structure ThreadsInv (s : SerialThreads) : Prop where
  slots : Slots s
  cells : ∀ i, s.delivered.length ≤ i → i < s.accepted.length →
    s.accepted[i]? = some (s.dev.recvFifo.data (i % 16))
  fifo : s.delivered <+: s.accepted
  room : s.accepted.length ≤ s.delivered.length + 16
  count : s.dev.recvFifo.count.toNat + s.delivered.length + s.host.debt
    = s.accepted.length + s.vcpu.debt
  behind : s.delivered.length + s.host.debt ≤ s.accepted.length
  seen : s.vcpu.sees = true → s.delivered.length + s.host.debt < s.accepted.length
  shown : s.dev.recvFifo.count ≠ 0 → s.dev.dataReady ∨ s.host.sets = true
  hidden : s.dev.recvFifo.count = 0 → ¬ s.dev.dataReady ∨ s.vcpu.clears = true

/-- The step is not overtaken: there is room for the byte, the count is the one
    loaded, and DR is written as the count has it, or the other thread is about
    to put it right. -/
def NotOvertaken (s : SerialThreads) : ThreadEvent → Prop
  | .host =>
      match s.host with
      | .put _ => s.accepted.length < s.delivered.length + 16
      | .storeCount count => count = s.dev.recvFifo.count
      | .storeLsr _ => s.dev.recvFifo.count = 0 → s.vcpu.clears = true
      | _ => True
  | .vcpu =>
      match s.vcpu with
      | .storeCount count => count = s.dev.recvFifo.count
      | .storeLsr _ => s.dev.recvFifo.count ≠ 0 → s.host.sets = true
      | _ => True
  | _ => True

section

variable {s s' : SerialThreads} {e : ThreadEvent}

theorem ThreadsInv.count_le (h : ThreadsInv s) : s.dev.recvFifo.count.toNat ≤ 17 := by
  have hcount := h.count
  have hroom := h.room
  have hdebt : s.vcpu.debt ≤ 1 := by
    unfold VcpuPc.debt
    split <;> decide
  omega

theorem ThreadsInv.toNat_succ (h : ThreadsInv s) :
    (s.dev.recvFifo.count + 1).toNat = s.dev.recvFifo.count.toNat + 1 := by
  have hle := h.count_le
  rw [UInt8.toNat_add, UInt8.toNat_one]
  omega

theorem count_ne_zero {c : UInt8} (h : 0 < c.toNat) : c ≠ 0 := by
  rintro rfl
  exact absurd h (by decide)

theorem count_pos {c : UInt8} (h : c ≠ 0) : 0 < c.toNat :=
  Nat.pos_of_ne_zero fun h0 => h (UInt8.toNat_inj.mp h0)

/-- Steps that leave the bytes where they are: what is left to see is what the
    threads owe then. -/
theorem ThreadsInv.sameRing (h : ThreadsInv s)
    (hdata : s'.dev.recvFifo.data = s.dev.recvFifo.data)
    (hhead : s'.dev.recvFifo.head = s.dev.recvFifo.head)
    (htail : s'.dev.recvFifo.tail = s.dev.recvFifo.tail) (hacc : s'.accepted = s.accepted)
    (hdel : s'.delivered = s.delivered)
    (hcount : s'.dev.recvFifo.count.toNat + s.delivered.length + s'.host.debt
      = s.accepted.length + s'.vcpu.debt)
    (hbehind : s.delivered.length + s'.host.debt ≤ s.accepted.length)
    (hseen : s'.vcpu.sees = true → s.delivered.length + s'.host.debt < s.accepted.length)
    (hshown : s'.dev.recvFifo.count ≠ 0 → s'.dev.dataReady ∨ s'.host.sets = true)
    (hhidden : s'.dev.recvFifo.count = 0 → ¬ s'.dev.dataReady ∨ s'.vcpu.clears = true) :
    ThreadsInv s' := by
  constructor
  case slots => exact h.slots.congr hdata hhead htail hacc hdel
  -- The clauses about the bytes do not look at the threads.
  case cells =>
    rw [hdata, hacc, hdel]
    exact h.cells
  case fifo =>
    rw [hacc, hdel]
    exact h.fifo
  case room =>
    rw [hacc, hdel]
    exact h.room
  case count =>
    rw [hacc, hdel]
    exact hcount
  case behind =>
    rw [hacc, hdel]
    exact hbehind
  case seen =>
    rw [hacc, hdel]
    exact hseen
  case shown => exact hshown
  case hidden => exact hhidden

/-- Steps of a thread that touch neither the FIFO nor DR, and after which it
    owes what it did. -/
theorem ThreadsInv.move (h : ThreadsInv s) (hfifo : s'.dev.recvFifo = s.dev.recvFifo)
    (hready : s'.dev.dataReady ↔ s.dev.dataReady) (hacc : s'.accepted = s.accepted)
    (hdel : s'.delivered = s.delivered) (hhost : s'.host.debt = s.host.debt)
    (hvcpu : s'.vcpu.debt = s.vcpu.debt)
    (hseen : s'.vcpu.sees = true → s.vcpu.sees = true ∨ s.dev.recvFifo.count ≠ 0 ∧ s.vcpu.debt = 0)
    (hsets : s.host.sets = true → s'.host.sets = true ∨ s.dev.dataReady)
    (hclears : s.vcpu.clears = true → s'.vcpu.clears = true ∨ ¬ s.dev.dataReady ∨
      s.dev.recvFifo.count ≠ 0) : ThreadsInv s' := by
  refine h.sameRing (by rw [hfifo]) (by rw [hfifo]) (by rw [hfifo]) hacc hdel ?_ ?_ ?_ ?_ ?_
  · rw [hfifo, hhost, hvcpu]
    exact h.count
  · rw [hhost]
    exact h.behind
  · intro hsee
    rw [hhost]
    rcases hseen hsee with hold | ⟨hne, hdebt⟩
    · exact h.seen hold
    · -- What it saw was counted, and nothing of its own was pending.
      have hpos := count_pos hne
      have hcount := h.count
      omega
  · intro hne
    rw [hfifo] at hne
    rw [hready]
    rcases h.shown hne with hdr | hset
    · exact Or.inl hdr
    · exact (hsets hset).symm
  · intro hzero
    rw [hfifo] at hzero
    rw [hready]
    rcases h.hidden hzero with hdr | hclear
    · exact Or.inl hdr
    · rcases hclears hclear with hc | hdr | hne
      · exact Or.inr hc
      · exact Or.inl hdr
      · exact absurd hzero hne

/-- Storing a byte needs room for it, and nothing else. -/
theorem threadsInv_put (h : ThreadsInv s) (data : UInt8) (hpc : s.host = .put data)
    (hs : hostStep s = some s') :
    ThreadsInv s' ↔ s.accepted.length < s.delivered.length + 16 := by
  have hslots := slots_host h.slots hs
  have hcount := h.count
  have hbehind := h.behind
  have hseen := h.seen
  have hshown := h.shown
  simp only [hpc, HostPc.debt, HostPc.sets, Bool.false_eq_true, or_false]
    at hcount hbehind hseen hshown
  unfold hostStep at hs
  rw [hpc] at hs
  have heq := Option.some.inj hs
  have hacc : s'.accepted = s.accepted ++ [data] := by rw [← heq]
  have hlen : s'.accepted.length = s.accepted.length + 1 := by
    rw [hacc, List.length_append, List.length_singleton]
  have hdel : s'.delivered = s.delivered := by rw [← heq]
  have hhost : s'.host.debt = 1 := by
    rw [← heq]
    rfl
  have hvcpu : s'.vcpu = s.vcpu := by rw [← heq]
  have hcnt : s'.dev.recvFifo.count = s.dev.recvFifo.count := by rw [← heq]
  have hready : s'.dev.dataReady ↔ s.dev.dataReady := by
    rw [← heq]
    exact Iff.rfl
  have hdata : s'.dev.recvFifo.data
      = Function.update s.dev.recvFifo.data s.dev.recvFifo.head.toNat data := by rw [← heq]
  constructor
  · intro h'
    have hroom := h'.room
    rw [hlen, hdel] at hroom
    omega
  · intro hroom
    constructor
    case slots => exact hslots
    case cells =>
      rw [hlen, hdel, hdata, hacc]
      intro i hge hlt
      rcases Nat.lt_or_ge i s.accepted.length with hold | hnew
      · -- Less than a lap behind the new byte.
        have hne : i % 16 ≠ s.dev.recvFifo.head.toNat := by
          rw [h.slots.head]
          omega
        rw [List.getElem?_append_left hold, Function.update_of_ne hne]
        exact h.cells i hge hold
      · have hi : i = s.accepted.length := by omega
        subst hi
        rw [← h.slots.head, Function.update_self, List.getElem?_concat_length]
    case fifo =>
      rw [hacc, hdel]
      exact h.fifo.trans (List.prefix_append _ _)
    case room =>
      rw [hlen, hdel]
      omega
    case count =>
      rw [hcnt, hlen, hdel, hhost, hvcpu]
      omega
    case behind =>
      rw [hlen, hdel, hhost]
      omega
    case seen =>
      rw [hlen, hdel, hhost, hvcpu]
      intro hsee
      have hlt := hseen hsee
      omega
    case shown =>
      rw [hcnt, hready]
      exact fun hne => Or.inl (hshown hne)
    case hidden =>
      rw [hcnt, hready, hvcpu]
      exact h.hidden

/-- Counting a byte needs the count that was loaded. -/
theorem threadsInv_counted (h : ThreadsInv s) (count : UInt8) (hpc : s.host = .storeCount count)
    (hs : hostStep s = some s') : ThreadsInv s' ↔ count = s.dev.recvFifo.count := by
  have hcount := h.count
  have hbehind := h.behind
  have hseen := h.seen
  have hsucc := h.toNat_succ
  simp only [hpc, HostPc.debt] at hcount hbehind hseen
  unfold hostStep at hs
  rw [hpc] at hs
  have heq := Option.some.inj hs
  have hcnt : s'.dev.recvFifo.count = count + 1 := by rw [← heq]
  have hacc : s'.accepted = s.accepted := by rw [← heq]
  have hdel : s'.delivered = s.delivered := by rw [← heq]
  have hvcpu : s'.vcpu = s.vcpu := by rw [← heq]
  have hdebt : s'.host.debt = 0 := by
    rw [← heq]
    rfl
  constructor
  · intro h'
    have hcount' := h'.count
    rw [hcnt, hacc, hdel, hvcpu, hdebt] at hcount'
    -- The invariant fixes the count, so the one that was loaded is fixed too.
    have hsame : count + 1 = s.dev.recvFifo.count + 1 := by
      refine UInt8.toNat_inj.mp ?_
      omega
    exact (UInt8.add_left_inj 1).mp hsame
  · rintro rfl
    refine h.sameRing (by rw [← heq]) (by rw [← heq]) (by rw [← heq]) hacc hdel ?_ ?_ ?_ ?_ ?_
    · rw [hcnt, hvcpu, hdebt, hsucc]
      omega
    · rw [hdebt]
      omega
    · rw [hvcpu, hdebt]
      intro hsee
      have hlt := hseen hsee
      omega
    · rw [← heq]
      exact fun _ => Or.inr rfl
    · rw [hcnt]
      intro hzero
      exact absurd hzero (count_ne_zero (by omega))

/-- Setting DR needs a byte to be counted, or the other thread to look again. -/
theorem threadsInv_set (h : ThreadsInv s) (lsr : UInt8) (hpc : s.host = .storeLsr lsr)
    (hs : hostStep s = some s') :
    ThreadsInv s' ↔ (s.dev.recvFifo.count = 0 → s.vcpu.clears = true) := by
  have hdebt : s.host.debt = 0 := by
    rw [hpc]
    rfl
  have hcount := h.count
  have hbehind := h.behind
  have hseen := h.seen
  rw [hdebt] at hcount hbehind hseen
  unfold hostStep at hs
  rw [hpc] at hs
  have heq := Option.some.inj hs
  have hready : s'.dev.dataReady := by
    rw [← heq]
    exact dr_set lsr
  have hfifo : s'.dev.recvFifo = s.dev.recvFifo := by rw [← heq]
  have hvcpu : s'.vcpu = s.vcpu := by rw [← heq]
  constructor
  · intro h' hzero
    rw [← hfifo] at hzero
    rcases h'.hidden hzero with hdr | hclear
    · exact absurd hready hdr
    · rwa [hvcpu] at hclear
  · intro hagain
    -- DR is set; if nothing is counted the other thread is on its way to clear it.
    refine h.sameRing (by rw [hfifo]) (by rw [hfifo]) (by rw [hfifo]) (by rw [← heq])
      (by rw [← heq]) ?_ ?_ ?_ (fun _ => Or.inl hready) ?_
    · rw [← heq]
      exact hcount
    · rw [← heq]
      exact hbehind
    · rw [← heq]
      exact hseen
    · intro hzero
      rw [hfifo] at hzero
      rw [hvcpu]
      exact Or.inr (hagain hzero)

theorem threadsInv_host (h : ThreadsInv s) (hs : hostStep s = some s') :
    ThreadsInv s' ↔ NotOvertaken s .host := by
  unfold NotOvertaken
  cases hpc : s.host with
  | put data => exact threadsInv_put h data hpc hs
  | storeCount count => exact threadsInv_counted h count hpc hs
  | storeLsr lsr => exact threadsInv_set h lsr hpc hs
  | idle =>
      rw [hostStep, hpc] at hs
      exact absurd hs (by simp only [reduceCtorEq, not_false_eq_true])
  | loadCount | loadLsr | update =>
      refine iff_of_true ?_ trivial
      rw [hostStep, hpc] at hs
      rw [← Option.some.inj hs]
      refine h.move rfl Iff.rfl rfl rfl ?_ rfl Or.inl ?_ Or.inl
      · rw [hpc]
        rfl
      · rw [hpc]
        simp only [HostPc.sets, Bool.false_eq_true, false_implies, true_or, implies_true]

/-- Taking the byte that was seen. -/
theorem threadsInv_take (h : ThreadsInv s) (hpc : s.vcpu = .take) (hs : vcpuStep s = some s') :
    ThreadsInv s' := by
  have hslots := slots_vcpu h.slots hs
  have hcount := h.count
  have hroom := h.room
  have hhidden := h.hidden
  have hseen := h.seen (by rw [hpc]; rfl)
  simp only [hpc, VcpuPc.debt, VcpuPc.clears, Bool.false_eq_true, or_false] at hcount hhidden
  unfold vcpuStep at hs
  rw [hpc] at hs
  have heq := Option.some.inj hs
  have hdel : s'.delivered
      = s.delivered ++ [s.dev.recvFifo.data s.dev.recvFifo.tail.toNat] := by rw [← heq]
  have hlen : s'.delivered.length = s.delivered.length + 1 := by
    rw [hdel, List.length_append, List.length_singleton]
  have hacc : s'.accepted = s.accepted := by rw [← heq]
  have hhost : s'.host = s.host := by rw [← heq]
  have hvcpu : s'.vcpu = .loadCount := by rw [← heq]
  have hcnt : s'.dev.recvFifo.count = s.dev.recvFifo.count := by rw [← heq]
  have hdata : s'.dev.recvFifo.data = s.dev.recvFifo.data := by rw [← heq]
  have hready : s'.dev.dataReady ↔ s.dev.dataReady := by
    rw [← heq]
    exact Iff.rfl
  constructor
  case slots => exact hslots
  case cells =>
    rw [hlen, hacc, hdata]
    exact fun i hge hlt => h.cells i (by omega) hlt
  case fifo =>
    -- The byte at the tail is the next one that was stored.
    have hcell := h.cells s.delivered.length le_rfl (by omega)
    rw [← h.slots.tail] at hcell
    rw [hdel, hacc]
    rcases h.fifo with ⟨rest, hrest⟩
    rw [← hrest, List.getElem?_append_right le_rfl, Nat.sub_self] at hcell
    rcases rest with _ | ⟨b, rest⟩
    · exact absurd hcell (by simp only [List.getElem?_nil, reduceCtorEq, not_false_eq_true])
    · rw [List.getElem?_cons_zero, Option.some.injEq] at hcell
      exact ⟨rest, by rw [← hcell, List.append_assoc, List.singleton_append, hrest]⟩
  case room =>
    rw [hlen, hacc]
    omega
  case count =>
    rw [hcnt, hlen, hacc, hhost, hvcpu, VcpuPc.debt]
    omega
  case behind =>
    rw [hlen, hacc, hhost]
    omega
  case seen =>
    rw [hvcpu]
    exact fun hsee => absurd hsee Bool.false_ne_true
  case shown =>
    rw [hcnt, hready, hhost]
    exact h.shown
  case hidden =>
    rw [hcnt, hready]
    exact fun hzero => Or.inl (hhidden hzero)

/-- Counting a byte out needs the count that was loaded. -/
theorem threadsInv_uncounted (h : ThreadsInv s) (count : UInt8) (hpc : s.vcpu = .storeCount count)
    (hs : vcpuStep s = some s') : ThreadsInv s' ↔ count = s.dev.recvFifo.count := by
  have hcount := h.count
  have hbehind := h.behind
  simp only [hpc, VcpuPc.debt] at hcount
  -- A byte was seen and is still counted, so the count does not wrap.
  have hpred : (s.dev.recvFifo.count - 1).toNat = s.dev.recvFifo.count.toNat - 1 := by
    have hone : (1 : UInt8) ≤ s.dev.recvFifo.count := by
      refine UInt8.le_iff_toNat_le.mpr ?_
      rw [UInt8.toNat_one]
      omega
    rw [UInt8.toNat_sub_of_le _ _ hone, UInt8.toNat_one]
  unfold vcpuStep at hs
  rw [hpc] at hs
  have heq := Option.some.inj hs
  have hcnt : s'.dev.recvFifo.count = count - 1 := by rw [← heq]
  have hacc : s'.accepted = s.accepted := by rw [← heq]
  have hdel : s'.delivered = s.delivered := by rw [← heq]
  have hhost : s'.host = s.host := by rw [← heq]
  have hvcpu : s'.vcpu = .retest := by rw [← heq]
  have hdebt : s'.vcpu.debt = 0 := by
    rw [hvcpu]
    rfl
  have hready : s'.dev.dataReady ↔ s.dev.dataReady := by
    rw [← heq]
    exact Iff.rfl
  constructor
  · intro h'
    have hcount' := h'.count
    rw [hcnt, hacc, hdel, hdebt, hhost] at hcount'
    -- The other direction: one less than a wrong count is wrong as well.
    have hsame : count - 1 = s.dev.recvFifo.count - 1 := by
      refine UInt8.toNat_inj.mp ?_
      omega
    exact (UInt8.sub_left_inj 1).mp hsame
  · rintro rfl
    refine h.sameRing (by rw [← heq]) (by rw [← heq]) (by rw [← heq]) hacc hdel ?_ ?_ ?_ ?_ ?_
    · rw [hcnt, hhost, hdebt, hpred]
      omega
    · rw [hhost]
      exact hbehind
    · rw [hvcpu]
      exact fun hsee => absurd hsee Bool.false_ne_true
    · rw [hready, hhost]
      exact fun _ => h.shown (count_ne_zero (by omega))
    · rw [hvcpu]
      exact fun _ => Or.inr rfl

/-- Clearing DR needs an empty ring, or the other thread to be setting it. -/
theorem threadsInv_clear (h : ThreadsInv s) (lsr : UInt8) (hpc : s.vcpu = .storeLsr lsr)
    (hs : vcpuStep s = some s') :
    ThreadsInv s' ↔ (s.dev.recvFifo.count ≠ 0 → s.host.sets = true) := by
  have hcount := h.count
  simp only [hpc, VcpuPc.debt] at hcount
  unfold vcpuStep at hs
  rw [hpc] at hs
  have heq := Option.some.inj hs
  have hready : ¬ s'.dev.dataReady := by
    rw [← heq]
    exact not_not.mpr (dr_cleared lsr)
  have hfifo : s'.dev.recvFifo = s.dev.recvFifo := by rw [← heq]
  have hacc : s'.accepted = s.accepted := by rw [← heq]
  have hdel : s'.delivered = s.delivered := by rw [← heq]
  have hhost : s'.host = s.host := by rw [← heq]
  have hvcpu : s'.vcpu = .update := by rw [← heq]
  have hdebt : s'.vcpu.debt = 0 := by
    rw [hvcpu]
    rfl
  constructor
  · intro h' hne
    rw [← hfifo] at hne
    rcases h'.shown hne with hdr | hset
    · exact absurd hdr hready
    · rwa [hhost] at hset
  · intro hagain
    -- DR is clear; if something is counted the other thread is about to set it.
    refine h.sameRing (by rw [hfifo]) (by rw [hfifo]) (by rw [hfifo]) hacc hdel ?_ ?_ ?_ ?_
      fun _ => Or.inl hready
    · rw [hfifo, hhost, hdebt]
      exact hcount
    · rw [hhost]
      exact h.behind
    · rw [hvcpu]
      exact fun hsee => absurd hsee Bool.false_ne_true
    · rw [hfifo, hhost]
      exact fun hne => Or.inr (hagain hne)

theorem threadsInv_vcpu (h : ThreadsInv s) (hs : vcpuStep s = some s') :
    ThreadsInv s' ↔ NotOvertaken s .vcpu := by
  unfold NotOvertaken
  cases hpc : s.vcpu with
  | storeCount count => exact threadsInv_uncounted h count hpc hs
  | storeLsr lsr => exact threadsInv_clear h lsr hpc hs
  | take => exact iff_of_true (threadsInv_take h hpc hs) trivial
  | idle =>
      rw [vcpuStep, hpc] at hs
      exact absurd hs (by simp only [reduceCtorEq, not_false_eq_true])
  | test | get | loadCount | retest | loadLsr | update =>
      refine iff_of_true ?_ trivial
      rw [vcpuStep, hpc] at hs
      rw [← Option.some.inj hs]
      by_cases hzero : s.dev.recvFifo.count = 0
      all_goals
        refine h.move rfl Iff.rfl rfl rfl rfl ?_ ?_ Or.inl ?_
        · simp [hpc, hzero, VcpuPc.debt]
        · simp [hpc, hzero, VcpuPc.sees, VcpuPc.debt]
        · simp [hpc, hzero, VcpuPc.clears]

/-- A step keeps the invariant if and only if it is not overtaken. -/
theorem threadsInv_step (h : ThreadsInv s) (hs : ThreadStep e s s') :
    ThreadsInv s' ↔ NotOvertaken s e := by
  cases e with
  | host => exact threadsInv_host h hs
  | vcpu => exact threadsInv_vcpu h hs
  | input data =>
      refine iff_of_true ?_ trivial
      simp only [ThreadStep, threadStep] at hs
      -- In loopback the input is dropped, else the host thread starts on it.
      split_ifs at hs with hidle hloop
      · rwa [← Option.some.inj hs]
      · rw [← Option.some.inj hs]
        refine h.move rfl Iff.rfl rfl rfl ?_ rfl Or.inl ?_ Or.inl
        · rw [hidle]
          rfl
        · rw [hidle]
          exact fun hset => absurd hset Bool.false_ne_true
  | access op =>
      refine iff_of_true ?_ trivial
      simp only [ThreadStep, threadStep] at hs
      split_ifs at hs with hoff hread
      · have hidle : s.vcpu = .idle := not_not.mp fun hne => hoff (Or.inl hne)
        rw [← Option.some.inj hs]
        refine h.move rfl Iff.rfl rfl rfl rfl ?_ ?_ Or.inl ?_
        · rw [hidle]
          rfl
        · exact fun hsee => absurd hsee Bool.false_ne_true
        · rw [hidle]
          exact fun hclear => absurd hclear Bool.false_ne_true
      · -- Every other access leaves the FIFO and LSR alone.
        rcases serialStep_other s.dev op hread fun hp => hoff (Or.inr hp) with ⟨hfifo, hlsr⟩
        rw [← Option.some.inj hs]
        refine h.move hfifo ?_ rfl rfl rfl rfl Or.inl Or.inl Or.inl
        unfold Serial.dataReady
        rw [hlsr]

theorem threadsInv_start : ThreadsInv .start := by
  refine ⟨slots_start, fun i _ hlt => absurd hlt (Nat.not_lt_zero i), List.prefix_rfl, by decide,
    rfl, le_rfl, fun hsee => absurd hsee Bool.false_ne_true, fun hne => absurd rfl hne,
    fun _ => Or.inl ?_⟩
  decide

/-- With both threads at rest nothing is owed. -/
theorem ThreadsInv.rest (h : ThreadsInv s) (hhost : s.host = .idle) (hvcpu : s.vcpu = .idle) :
    s.accepted = s.delivered ++ pending s.dev.recvFifo ∧ FifoInv s.dev := by
  have hcount := h.count
  have hroom := h.room
  have hhead := h.slots.head
  have htail := h.slots.tail
  have hshown := h.shown
  have hhidden := h.hidden
  simp only [hhost, hvcpu, HostPc.debt, VcpuPc.debt, HostPc.sets, VcpuPc.clears,
    Bool.false_eq_true, or_false] at hcount hshown hhidden
  refine ⟨?_, ⟨?_, ?_, ?_, ?_⟩, ?_⟩
  · rcases h.fifo with ⟨rest, hrest⟩
    have hlen : rest.length = s.dev.recvFifo.count.toNat := by
      have := congrArg List.length hrest
      rw [List.length_append] at this
      omega
    rw [← hrest]
    congr 1
    refine List.ext_getElem? fun i => ?_
    rcases Nat.lt_or_ge i rest.length with hlt | hge
    · -- The `i`-th byte that is left is in the ring where the indices say.
      have hcell := h.cells (s.delivered.length + i) (by omega) (by omega)
      rw [← hrest, List.getElem?_append_right (by omega), Nat.add_sub_cancel_left] at hcell
      rw [hcell, pending, ringContents, List.getElem?_map, List.getElem?_range (by omega), htail,
        Option.map_some, Nat.mod_add_mod]
    · rw [List.getElem?_eq_none hge, List.getElem?_eq_none]
      rw [pending, length_ringContents]
      omega
  · exact UInt8.le_iff_toNat_le.mpr (show s.dev.recvFifo.count.toNat ≤ 16 by omega)
  · exact UInt8.lt_iff_toNat_lt.mpr (show s.dev.recvFifo.head.toNat < 16 by omega)
  · exact UInt8.lt_iff_toNat_lt.mpr (show s.dev.recvFifo.tail.toNat < 16 by omega)
  · omega
  · constructor
    · intro hready
      exact UInt8.lt_iff_toNat_lt.mpr (count_pos fun hzero => hhidden hzero hready)
    · intro hpos
      exact hshown (count_ne_zero (UInt8.lt_iff_toNat_lt.mp hpos))

/-- As long as no step is overtaken, the two threads share a queue: what was
    taken is a prefix of what was stored, and with both at rest the rest of it
    is what is pending, and DR tells whether there is any. In each of these
    states a step keeps it so exactly if it is not overtaken. -/
theorem threads_queue (s : SerialThreads) (hrun : Run ThreadStep NotOvertaken .start s) :
    s.delivered <+: s.accepted ∧
    (s.host = .idle → s.vcpu = .idle →
      s.accepted = s.delivered ++ pending s.dev.recvFifo ∧ FifoInv s.dev) ∧
    ∀ e s', ThreadStep e s s' → (ThreadsInv s' ↔ NotOvertaken s e) := by
  have h : ThreadsInv s :=
    hrun.invariant threadsInv_start fun t e u ht hc hs => (threadsInv_step ht hs).mpr hc
  exact ⟨h.fifo, h.rest, fun e s' hs => threadsInv_step h hs⟩

end

/-! ### Schedules -/

/-- The steps of a schedule, if each can happen. -/
def threadSteps (s : SerialThreads) : List ThreadEvent → Option SerialThreads
  | [] => some s
  | e :: es => (threadStep s e).bind fun t => threadSteps t es

/-- The steps of a schedule meet `C`. -/
def StepsMeet (C : SerialThreads → ThreadEvent → Prop) (s : SerialThreads) :
    List ThreadEvent → Prop
  | [] => True
  | e :: es => C s e ∧ ∀ t ∈ threadStep s e, StepsMeet C t es

instance decidableNotOvertaken (s : SerialThreads) (e : ThreadEvent) :
    Decidable (NotOvertaken s e) :=
  match e with
  | .host =>
      match hpc : s.host with
      | .put _ => decidable_of_iff (s.accepted.length < s.delivered.length + 16) (by
          simp only [NotOvertaken, hpc])
      | .storeCount count => decidable_of_iff (count = s.dev.recvFifo.count) (by
          simp only [NotOvertaken, hpc])
      | .storeLsr _ => decidable_of_iff (s.dev.recvFifo.count = 0 → s.vcpu.clears = true) (by
          simp only [NotOvertaken, hpc])
      | .idle | .loadCount | .loadLsr | .update => isTrue (by simp only [NotOvertaken, hpc])
  | .vcpu =>
      match hpc : s.vcpu with
      | .storeCount count => decidable_of_iff (count = s.dev.recvFifo.count) (by
          simp only [NotOvertaken, hpc])
      | .storeLsr _ => decidable_of_iff (s.dev.recvFifo.count ≠ 0 → s.host.sets = true) (by
          simp only [NotOvertaken, hpc])
      | .idle | .test | .get | .take | .loadCount | .retest | .loadLsr | .update =>
          isTrue (by simp only [NotOvertaken, hpc])
  | .input _ | .access _ => isTrue trivial

instance decidableStepsMeet (C : SerialThreads → ThreadEvent → Prop) [∀ s e, Decidable (C s e)]
    (s : SerialThreads) (es : List ThreadEvent) : Decidable (StepsMeet C s es) :=
  match es with
  | [] => inferInstanceAs (Decidable True)
  | e :: es =>
      have := fun t => decidableStepsMeet C t es
      inferInstanceAs (Decidable (C s e ∧ ∀ t ∈ threadStep s e, StepsMeet C t es))

theorem run_steps {C : SerialThreads → ThreadEvent → Prop} {s₀ s s' : SerialThreads}
    (hrun : Run ThreadStep C s₀ s) (es : List ThreadEvent) (hs : threadSteps s es = some s')
    (hC : StepsMeet C s es) : Run ThreadStep C s₀ s' := by
  induction es generalizing s with
  | nil =>
      rw [← Option.some.inj hs]
      exact hrun
  | cons e es ih =>
      rcases Option.bind_eq_some_iff.mp hs with ⟨t, ht, hrest⟩
      exact ih (hrun.tail e hC.1 ht) hrest (hC.2 t ht)

/-- An input thread that is not interrupted does what `receive_serial_input`
    does. -/
theorem input_alone (s : SerialThreads) (data : UInt8) (hidle : s.host = .idle)
    (hloop : ¬ s.dev.loop) :
    threadSteps s (.input data :: List.replicate 6 .host)
      = some { s with
          dev := receiveSerialInput s.dev data, accepted := s.accepted ++ [data] } := by
  rcases s with ⟨dev, host, vcpu, accepted, delivered⟩
  dsimp only at hidle hloop
  subst hidle
  have hnot : dev.mcr &&& uartMcrLoop = 0 := not_not.mp hloop
  rw [threadSteps, threadStep, if_pos rfl, if_neg hloop, receiveSerialInput, if_pos hnot]
  rfl

theorem threadSteps_vcpu {s t : SerialThreads} (h : vcpuStep s = some t) (n : Nat) :
    threadSteps s (List.replicate (n + 1) .vcpu) = threadSteps t (List.replicate n .vcpu) := by
  rw [List.replicate_succ, threadSteps, threadStep, h, Option.bind_some]

/-- The last test of a read clears DR if nothing is left. -/
theorem retest_alone (s : SerialThreads) (hpc : s.vcpu = .retest) :
    ∃ n, threadSteps s (List.replicate n .vcpu)
      = some { s with
          dev := updateSerialIir { s.dev with
            lsr := if s.dev.recvFifo.count = 0 then s.dev.lsr &&& ~~~uartLsrDr else s.dev.lsr },
          vcpu := .idle } := by
  rcases s with ⟨dev, host, vcpu, accepted, delivered⟩
  dsimp only at hpc
  subst hpc
  by_cases hzero : dev.recvFifo.count = 0
  · have htest : vcpuStep ⟨dev, host, .retest, accepted, delivered⟩
        = some ⟨dev, host, .loadLsr, accepted, delivered⟩ := by
      simp only [vcpuStep, if_pos hzero]
    refine ⟨4, ?_⟩
    rw [threadSteps_vcpu htest, if_pos hzero]
    rfl
  · have htest : vcpuStep ⟨dev, host, .retest, accepted, delivered⟩
        = some ⟨dev, host, .update, accepted, delivered⟩ := by
      simp only [vcpuStep, if_neg hzero]
    refine ⟨2, ?_⟩
    rw [threadSteps_vcpu htest, if_neg hzero]
    rfl

/-- A read that is not interrupted does what `read_serial_reg` does, and takes
    the byte that it returns. -/
theorem read_alone (s : SerialThreads) (ret : UInt8) (hidle : s.vcpu = .idle)
    (hdlab : ¬ s.dev.dlab) :
    ∃ n, threadSteps s (.access (.read 0 ret) :: List.replicate n .vcpu)
      = some { s with
          dev := (readSerialReg s.dev 0 ret).2,
          delivered := s.delivered ++
            if s.dev.recvFifo.count = 0 then [] else [(readSerialReg s.dev 0 ret).1] } := by
  have hd : ¬ s.dev.lcr &&& uartLcrDlab ≠ 0 := hdlab
  have hstart : threadStep s (.access (.read 0 ret)) = some { s with vcpu := .test } := by
    have hon : ¬(s.vcpu ≠ .idle ∨ SerialOp.Puts s.dev (.read 0 ret)) :=
      not_or.mpr ⟨not_not.mpr hidle, id⟩
    rw [threadStep, if_neg hon]
    exact if_pos hdlab
  rcases s with ⟨dev, host, vcpu, accepted, delivered⟩
  dsimp only at hidle hd hstart
  subst hidle
  by_cases hzero : dev.recvFifo.count = 0
  · have htest : vcpuStep ⟨dev, host, .test, accepted, delivered⟩
        = some ⟨dev, host, .retest, accepted, delivered⟩ := by
      simp only [vcpuStep, if_neg (not_not.mpr hzero)]
    rcases retest_alone ⟨dev, host, .retest, accepted, delivered⟩ rfl with ⟨n, hrest⟩
    refine ⟨n + 1, ?_⟩
    rw [threadSteps, hstart, Option.bind_some, threadSteps_vcpu htest, hrest]
    simp only [readSerialReg, if_neg hd, hzero, ne_eq, not_true_eq_false, if_false, if_true,
      List.append_nil]
  · have htest : vcpuStep ⟨dev, host, .test, accepted, delivered⟩
        = some ⟨dev, host, .get, accepted, delivered⟩ := by
      simp only [vcpuStep, if_pos hzero]
    have hget : vcpuStep ⟨dev, host, .get, accepted, delivered⟩
        = some ⟨dev, host, .take, accepted, delivered⟩ := by
      simp only [vcpuStep, if_neg hzero]
    -- The three steps that take the byte and count it out are `fifo_get`.
    have htaken : fifoGet dev.recvFifo = (dev.recvFifo.data dev.recvFifo.tail.toNat,
        { dev.recvFifo with
          tail := fifoNext dev.recvFifo.tail, count := dev.recvFifo.count - 1 }) := by
      rw [fifoGet, if_neg hzero]
      rfl
    rcases retest_alone ⟨{ dev with recvFifo := (fifoGet dev.recvFifo).2 }, host, .retest, accepted,
      delivered ++ [(fifoGet dev.recvFifo).1]⟩ rfl with ⟨n, hrest⟩
    refine ⟨n + 5, ?_⟩
    rw [threadSteps, hstart, Option.bind_some, threadSteps_vcpu htest, threadSteps_vcpu hget]
    refine Eq.trans ?_ (hrest.trans ?_)
    · rw [htaken]
      rfl
    · simp only [readSerialReg, if_neg hd, if_pos hzero, if_neg hzero]

/-- The bytes 65 and 66 arrive, the second one while the first is read, and
    nothing is overtaken. -/
def crossing : List ThreadEvent :=
  [.input 65] ++ List.replicate 6 .host ++ [.access (.read 0 0), .vcpu, .vcpu, .input 66, .host,
    .vcpu, .host, .host, .vcpu, .vcpu, .vcpu, .host, .vcpu, .host, .host]

theorem crossing_steps : (threadSteps .start crossing).isSome = true := by decide +kernel

/-- The port after it. -/
def crossed : SerialThreads := (threadSteps .start crossing).get crossing_steps

theorem crossed_run : Run ThreadStep NotOvertaken .start crossed :=
  run_steps (.refl _) crossing (Option.some_get crossing_steps).symm (by decide +kernel)

/-- `threads_queue` for the two bytes. -/
theorem threads_queue_crossed :
    crossed.accepted = [65, 66] ∧ crossed.delivered = [65] ∧
      crossed.accepted = crossed.delivered ++ pending crossed.dev.recvFifo ∧
      crossed.dev.dataReady := by
  have hrest := (threads_queue crossed crossed_run).2.1 (by decide +kernel) (by decide +kernel)
  exact ⟨by decide +kernel, by decide +kernel, hrest.1, hrest.2.ready.mpr (by decide +kernel)⟩

/-- `threads_slots` for the byte that was read. -/
theorem threads_slots_crossed : ∃ i, i % 16 = 0 ∧ crossed.accepted[i]? = some 65 := by
  rcases threads_slots crossed (crossed_run.mono fun _ _ _ => trivial) 0 65 (by decide +kernel)
    with hzero | hi
  · exact absurd hzero (by decide)
  · exact hi

/-- The same two bytes, the second one stored and announced after the read has
    found the ring empty, and before it clears DR. -/
def losing : List ThreadEvent :=
  [.input 65] ++ List.replicate 6 .host ++ [.access (.read 0 0)] ++ List.replicate 7 .vcpu
    ++ [.input 66] ++ List.replicate 6 .host ++ [.vcpu, .vcpu]

theorem losing_steps : (threadSteps .start losing).isSome = true := by decide +kernel

/-- Nothing keeps the second byte from staying in the ring with DR clear: a
    guest that waits for DR does not see it until another one arrives. -/
theorem data_ready_lost : ∃ s, Run ThreadStep (fun _ _ => True) .start s ∧ s.host = .idle ∧
    s.vcpu = .idle ∧ pending s.dev.recvFifo = [66] ∧ ¬ s.dev.dataReady ∧ ¬ ThreadsInv s := by
  have hrun : Run ThreadStep (fun _ _ => True) .start
      ((threadSteps .start losing).get losing_steps) :=
    run_steps (.refl _) losing (Option.some_get losing_steps).symm (by decide +kernel)
  have hhost : ((threadSteps .start losing).get losing_steps).host = .idle := by decide +kernel
  have hvcpu : ((threadSteps .start losing).get losing_steps).vcpu = .idle := by decide +kernel
  have hready : ¬ ((threadSteps .start losing).get losing_steps).dev.dataReady := by decide +kernel
  refine ⟨_, hrun, hhost, hvcpu, by decide +kernel, hready, fun h => hready ?_⟩
  exact (h.rest hhost hvcpu).2.ready.mpr (by decide +kernel)

end Microv
