import Microv.Lib.Image
import Microv.Core.Mptable
import Microv.Theory.Translation

/-!
# The MP Table in Memory

What `setup_mptable` leaves for the guest to find, for any number of
processors.

The builder writes structure by structure, sums each entry as it goes, and
comes back to the header for its length and its checksum. `setupMptable_eq`
undoes that order: as long as the table stays in RAM, the memory afterwards is
the memory before with one string for the floating pointer and one for the
table behind it. The two checksums are then sums of those strings.

The guest has no use for the builder's order either. It follows `physptr`,
takes the length from the header and walks the entries, where the first byte
of each says of which kind it is and how far the next one is away. `mpWalk` is
that reader, and it decodes what it finds, so that `mpWalk_holds` is a round
trip: the entries read are the entries written, and the walk ends where the
length says.

## Main definitions

* `MpEntry`: An entry of any kind.
* `MpEntry.readAt`: Decoding the entry at an address.
* `mpWalk`: Reading entries until an address.
* `mpTable`: The entries the builder writes.
* `mpfFinal`, `mpcFinal`: The finished floating pointer and header.

## Theorems

* `readAt_of_holds`: An entry is decoded to what was encoded.
* `mpWalk_holds`: Walking a string of entries reads those entries.
* `foldl_putEntry`: The entries are one string, summed.
* `setupMptable_eq`: The whole table as two strings.
* `MpBuilt.walk`: The guest's walk reads the entries written.
* `setupMptable_wellFormed`: The table the guest finds.
-/

namespace Microv

/-- An entry of the configuration table. -/
inductive MpEntry where
  | cpu (c : MpcCpu)
  | bus (b : MpcBus)
  | ioapic (a : MpcIoapic)
  | intsrc (i : MpcIntsrc)
  | lintsrc (l : MpcLintsrc)

namespace MpEntry

def bytes : MpEntry → List UInt8
  | cpu c => c.bytes
  | bus b => b.bytes
  | ioapic a => a.bytes
  | intsrc i => i.bytes
  | lintsrc l => l.bytes

/-- How far the next entry is away. -/
def size : MpEntry → Nat
  | cpu _ => 20
  | _ => 8

theorem size_pos (e : MpEntry) : 0 < e.size := by
  cases e <;> exact Nat.succ_pos _

/-- Decode the entry at an address; the first byte gives its kind. -/
def readAt (m : ByteMem) (p : Nat) : Option MpEntry :=
  if m p = 0 then
    some (cpu ⟨m p, m (p + 1), m (p + 2), m (p + 3), m.le (p + 4) 4, m.le (p + 8) 4,
      m.le (p + 12) 4, m.le (p + 16) 4⟩)
  else if m p = 1 then some (bus ⟨m p, m (p + 1), m.read (p + 2) 6⟩)
  else if m p = 2 then
    some (ioapic ⟨m p, m (p + 1), m (p + 2), m (p + 3), m.le (p + 4) 4⟩)
  else if m p = 3 then
    some (intsrc ⟨m p, m (p + 1), m.le (p + 2) 2, m (p + 4), m (p + 5), m (p + 6), m (p + 7)⟩)
  else if m p = 4 then
    some (lintsrc ⟨m p, m (p + 1), m.le (p + 2) 2, m (p + 4), m (p + 5), m (p + 6), m (p + 7)⟩)
  else none

/-- The entry carries its kind in its first byte, and its fields fit the
    structure. -/
def Fits : MpEntry → Prop
  | cpu c => c.type = 0 ∧ c.cpufeature < 2 ^ 32 ∧ c.featureflag < 2 ^ 32 ∧
      c.reserved1 < 2 ^ 32 ∧ c.reserved2 < 2 ^ 32
  | bus b => b.type = 1 ∧ b.bustype.length = 6
  | ioapic a => a.type = 2 ∧ a.apicaddr < 2 ^ 32
  | intsrc i => i.type = 3 ∧ i.irqflag < 2 ^ 16
  | lintsrc l => l.type = 4 ∧ l.irqflag < 2 ^ 16

theorem length_bytes (e : MpEntry) (h : e.Fits) : e.bytes.length = e.size := by
  cases e with
  | bus b => simp [bytes, MpcBus.bytes, size, h.2]
  | cpu c => simp [bytes, MpcCpu.bytes, size]
  | ioapic a => simp [bytes, MpcIoapic.bytes, size]
  | intsrc i => simp [bytes, MpcIntsrc.bytes, size]
  | lintsrc l => simp [bytes, MpcLintsrc.bytes, size]

open ByteMem in
/-- An entry is decoded to what was encoded. -/
theorem readAt_of_holds {m : ByteMem} {p : Nat} (e : MpEntry) (hfit : e.Fits)
    (h : Holds m p e.bytes) : readAt m p = some e := by
  -- The first byte selects the branch, and the string gives every field.
  cases e with
  | cpu c =>
      obtain ⟨htype, h1, h2, h3, h4⟩ := hfit
      simp only [bytes, MpcCpu.bytes, holds_append, holds_cons, List.length_append,
        List.length_cons, List.length_nil, length_leBytes, Nat.add_assoc, Nat.reduceAdd] at h
      obtain ⟨⟨⟨⟨⟨ht, ha, hv, hf, -⟩, e1⟩, e2⟩, e3⟩, e4⟩ := h
      have f1 := e1.le_eq
      have f2 := e2.le_eq
      have f3 := e3.le_eq
      have f4 := e4.le_eq
      rw [Nat.mod_eq_of_lt (by omega)] at f1 f2 f3 f4
      rw [readAt, if_pos (ht.trans htype), ht, ha, hv, hf, f1, f2, f3, f4]
  | bus b =>
      obtain ⟨htype, hlen⟩ := hfit
      simp only [bytes, MpcBus.bytes, holds_append, holds_cons, List.length_cons,
        List.length_nil, Nat.add_assoc, Nat.reduceAdd] at h
      obtain ⟨⟨ht, hid, -⟩, hname⟩ := h
      have hp := ht.trans htype
      rw [readAt, if_neg (by simp [hp]), if_pos hp, ht, hid, hname.read_eq hlen]
  | ioapic a =>
      obtain ⟨htype, h1⟩ := hfit
      simp only [bytes, MpcIoapic.bytes, holds_append, holds_cons, List.length_cons,
        List.length_nil, Nat.add_assoc, Nat.reduceAdd] at h
      obtain ⟨⟨ht, ha, hv, hf, -⟩, e1⟩ := h
      have f1 := e1.le_eq
      rw [Nat.mod_eq_of_lt (by omega)] at f1
      have hp := ht.trans htype
      rw [readAt, if_neg (by simp [hp]), if_neg (by simp [hp]), if_pos hp, ht, ha, hv, hf, f1]
  | intsrc i =>
      obtain ⟨htype, h1⟩ := hfit
      simp only [bytes, MpcIntsrc.bytes, holds_append, holds_cons, List.length_append,
        List.length_cons, List.length_nil, length_leBytes, Nat.add_assoc, Nat.reduceAdd] at h
      obtain ⟨⟨⟨ht, hk, -⟩, e1⟩, hs, hq, hd, hl, -⟩ := h
      have f1 := e1.le_eq
      rw [Nat.mod_eq_of_lt (by omega)] at f1
      have hp := ht.trans htype
      rw [readAt, if_neg (by simp [hp]), if_neg (by simp [hp]), if_neg (by simp [hp]), if_pos hp,
        ht, hk, f1, hs, hq, hd, hl]
  | lintsrc l =>
      obtain ⟨htype, h1⟩ := hfit
      simp only [bytes, MpcLintsrc.bytes, holds_append, holds_cons, List.length_append,
        List.length_cons, List.length_nil, length_leBytes, Nat.add_assoc, Nat.reduceAdd] at h
      obtain ⟨⟨⟨ht, hk, -⟩, e1⟩, hs, hq, hd, hl, -⟩ := h
      have f1 := e1.le_eq
      rw [Nat.mod_eq_of_lt (by omega)] at f1
      have hp := ht.trans htype
      rw [readAt, if_neg (by simp [hp]), if_neg (by simp [hp]), if_neg (by simp [hp]),
        if_neg (by simp [hp]), if_pos hp, ht, hk, f1, hs, hq, hd, hl]

end MpEntry

/-- Read entries from `p` until `stop`. An unknown kind ends the walk, and so
    does an entry that reaches past the end. -/
def mpWalk (m : ByteMem) (p stop : Nat) : Option (List MpEntry) :=
  if p = stop then some []
  else if p < stop then
    match MpEntry.readAt m p with
    | none => none
    | some e => (mpWalk m (p + e.size) stop).map (e :: ·)
  else none
termination_by stop - p
decreasing_by
  have hpos := e.size_pos
  omega

/-- The strings of the entries, one after the other. -/
def entriesBytes (es : List MpEntry) : List UInt8 :=
  (es.map MpEntry.bytes).flatten

/-- Walking a string of entries reads those entries, and ends at its end. -/
theorem mpWalk_holds (m : ByteMem) (es : List MpEntry) (hfit : ∀ e ∈ es, e.Fits) (p : Nat)
    (h : m.Holds p (entriesBytes es)) :
    mpWalk m p (p + (entriesBytes es).length) = some es := by
  induction es generalizing p with
  | nil =>
      rw [mpWalk]
      exact if_pos rfl
  | cons e es ih =>
      have hcons : entriesBytes (e :: es) = e.bytes ++ entriesBytes es := by
        rw [entriesBytes, List.map_cons, List.flatten_cons, entriesBytes]
      rw [hcons, ByteMem.holds_append] at h
      have he := hfit e (List.mem_cons_self ..)
      have hlen := e.length_bytes he
      have hpos := e.size_pos
      have hread := e.readAt_of_holds he h.1
      have hrest := ih (fun e' h' => hfit e' (List.mem_cons_of_mem _ h')) (p + e.bytes.length) h.2
      rw [hcons, List.length_append, ← Nat.add_assoc, mpWalk, if_neg (by omega),
        if_pos (by omega)]
      simp only [hread, ← hlen, hrest, Option.map_some]

section Table

variable (numCpus : Nat)

/-- The entries `setup_mptable` writes. -/
def mpTable : List MpEntry :=
  (List.range numCpus).map (fun i => .cpu (mpCpu i)) ++ [.bus mpBus, .ioapic (mpIoapic numCpus)] ++
    (List.range 16).map (fun i => .intsrc (mpIntsrc numCpus i)) ++
    [.lintsrc (mpExtInt numCpus), .lintsrc mpNmi]

theorem mpTable_bytes : (mpTable numCpus).map MpEntry.bytes = mpEntries numCpus := by
  simp only [mpTable, mpEntries, List.map_append, List.map_map, List.map_cons, List.map_nil,
    Function.comp_def, MpEntry.bytes]

theorem mpTable_fits : ∀ e ∈ mpTable numCpus, e.Fits := by
  have hbus : mpBus.bustype.length = 6 := by decide
  have haddr : ioApicDefaultPhysBase < 2 ^ 32 := by decide
  intro e he
  simp only [mpTable, List.mem_append, List.mem_map, List.mem_cons, List.not_mem_nil, or_false]
    at he
  rcases he with ((⟨i, _, rfl⟩ | rfl | rfl) | ⟨i, _, rfl⟩) | rfl | rfl
  · simp [MpEntry.Fits, mpCpu]
  · exact ⟨rfl, hbus⟩
  · exact ⟨rfl, haddr⟩
  · simp [MpEntry.Fits, mpIntsrc]
  · simp [MpEntry.Fits, mpExtInt]
  · simp [MpEntry.Fits, mpNmi]

/-- Twenty bytes for each processor, and eight for each of the twenty others. -/
theorem length_mpEntries : (mpEntries numCpus).flatten.length = 20 * numCpus + 160 := by
  have hall : (mpTable numCpus).map (List.length ∘ MpEntry.bytes)
      = (mpTable numCpus).map MpEntry.size :=
    List.map_congr_left fun e he => e.length_bytes (mpTable_fits numCpus e he)
  rw [← mpTable_bytes, List.length_flatten, List.map_map, hall]
  simp [mpTable, MpEntry.size, Function.comp_def, Nat.mul_comm]

/-- The floating pointer before its checksum is known. -/
def mpfDraft : MpfIntel :=
  { signature := ByteMem.ascii "_MP_", length := 1, specification := 4,
    physptr := mptableStart + 16 }

/-- The floating pointer; the checksum completes the sum to zero. -/
def mpfFinal : MpfIntel :=
  { mpfDraft with checksum := 0 - mpfDraft.bytes.foldl (fun sum b => sum + b) 0 }

/-- The header before anything of the entries is known. -/
def mpcDraft : MpcTable :=
  { signature := ByteMem.ascii "PCMP", spec := 4, oem := ByteMem.ascii "STRATSTR",
    productid := ByteMem.ascii "1.1.1.1.1.1.", lapic := apicDefaultPhysBase }

/-- The header with the table's length. -/
def mpcSized : MpcTable :=
  { mpcDraft with length := 20 * numCpus + 204 }

/-- The header; the checksum completes the sum of it and the entries. -/
def mpcFinal : MpcTable :=
  { mpcSized numCpus with
    checksum := 0 - ((mpEntries numCpus).flatten.foldl (fun sum b => sum + b) 0 +
      (mpcSized numCpus).bytes.foldl (fun sum b => sum + b) 0) }

end Table

section Build

variable (mapper : Int → MemRegion) (base : Nat)

/-- Entries that go behind each other are one string, and the running sum is
    its sum. -/
theorem foldl_putEntry (entries : List (List UInt8)) (b : MpBuild)
    (hpos : ∀ e ∈ entries, 0 < e.length)
    (hptr : ∀ o, o < b.offset + entries.flatten.length →
      getUserspaceAddr mapper (mptableStart + o) = base + o) :
    entries.foldl (putEntry mapper) b
      = ⟨b.mem.write (base + b.offset) entries.flatten, b.offset + entries.flatten.length,
          entries.flatten.foldl (fun sum x => sum + x) b.checksum⟩ := by
  induction entries generalizing b with
  | nil => simp only [List.foldl_nil, List.flatten_nil, ByteMem.write_nil, List.length_nil,
      Nat.add_zero]
  | cons e es ih =>
      have he := hpos e (List.mem_cons_self ..)
      rw [List.flatten_cons, List.length_append] at hptr
      -- The entry is summed where it was just written.
      have hput : putEntry mapper b e
          = ⟨b.mem.write (base + b.offset) e, b.offset + e.length,
              e.foldl (fun sum x => sum + x) b.checksum⟩ := by
        rw [putEntry, hptr b.offset (by omega), mptableChecksum, ByteMem.read_write_self,
          foldl_add_eq e b.checksum]
      rw [List.foldl_cons, hput, ih _ (fun e' h' => hpos e' (List.mem_cons_of_mem _ h'))
        (fun o ho => hptr o (by simp only at ho; omega)), List.flatten_cons, List.foldl_append,
        ByteMem.write_append, List.length_append]
      simp only [Nat.add_assoc]

-- Where the checksum and the length stand in the structures.
theorem MpfIntel.bytes_checksum (m : MpfIntel) (c : UInt8) :
    MpfIntel.bytes { m with checksum := c }
      = (m.signature ++ ByteMem.leBytes 4 m.physptr ++ [m.length, m.specification]) ++ [c] ++
        List.replicate 5 0 := by
  simp only [MpfIntel.bytes, List.append_assoc, List.cons_append, List.nil_append]

theorem MpcTable.bytes_length (t : MpcTable) (n : Nat) :
    MpcTable.bytes { t with length := n }
      = t.signature ++ ByteMem.leBytes 2 n ++ ([t.spec, t.checksum] ++ t.oem ++ t.productid ++
        List.replicate 8 0 ++ ByteMem.leBytes 4 t.lapic ++ List.replicate 4 0) := by
  simp only [MpcTable.bytes, List.append_assoc]

theorem MpcTable.bytes_checksum (t : MpcTable) (c : UInt8) :
    MpcTable.bytes { t with checksum := c }
      = (t.signature ++ ByteMem.leBytes 2 t.length ++ [t.spec]) ++ [c] ++ (t.oem ++ t.productid ++
        List.replicate 8 0 ++ ByteMem.leBytes 4 t.lapic ++ List.replicate 4 0) := by
  simp only [MpcTable.bytes, List.append_assoc, List.cons_append, List.nil_append]

/-- The start of a header that stands in memory. -/
theorem MpcTable.holds_start {m : ByteMem} {a : Nat} {t : MpcTable} (h : m.Holds a t.bytes) :
    m.Holds a t.signature ∧ m.Holds (a + t.signature.length) (ByteMem.leBytes 2 t.length) := by
  rw [show t = { t with length := t.length } from rfl, MpcTable.bytes_length, ByteMem.holds_append,
    ByteMem.holds_append] at h
  exact h.1

/-- Completing the checksum byte of a string that was just written. -/
theorem write_checksum (m : ByteMem) (a k : Nat) {s s' : List UInt8} (pre post : List UInt8)
    (c : UInt8) (hs : s = pre ++ [0] ++ post) (hs' : s' = pre ++ [0 - c] ++ post)
    (hk : pre.length = k) :
    (m.write a s).write (a + k) [m.write a s (a + k) - c] = m.write a s' := by
  have hzero : m.write a s (a + k) = 0 := by
    have h := ByteMem.holds_write_self m a s
    rw [hs, ByteMem.holds_append, ByteMem.holds_append, ByteMem.holds_singleton, hk, ← hs] at h
    exact h.1.2
  rw [hzero]
  exact ByteMem.write_patch m a k pre [0] [0 - c] post hs hs' hk rfl

theorem length_mpfDraft : mpfDraft.bytes.length = 16 := by
  decide +kernel

theorem length_mpcTable (n : Nat) (c : UInt8) :
    (MpcTable.bytes { mpcDraft with length := n, checksum := c }).length = 44 := by
  have hsig : mpcDraft.signature.length = 4 := by decide +kernel
  have hoem : mpcDraft.oem.length = 8 := by decide +kernel
  have hprod : mpcDraft.productid.length = 12 := by decide +kernel
  simp [MpcTable.bytes, hsig, hoem, hprod]

/-- The floating pointer is written, summed and completed. -/
theorem write_mpf (mem : ByteMem) :
    (mem.write base mpfDraft.bytes).write (base + 10)
        [mem.write base mpfDraft.bytes (base + 10) -
          mptableChecksum (mem.write base mpfDraft.bytes) base 16]
      = mem.write base mpfFinal.bytes := by
  have hsum : mptableChecksum (mem.write base mpfDraft.bytes) base 16
      = mpfDraft.bytes.foldl (fun sum b => sum + b) 0 := by
    rw [mptableChecksum, (ByteMem.holds_write_self mem base mpfDraft.bytes).read_eq length_mpfDraft]
  rw [hsum]
  exact write_checksum mem base 10 _ _ _ (MpfIntel.bytes_checksum mpfDraft 0)
    (MpfIntel.bytes_checksum mpfDraft _) (by decide +kernel)

/-- The header gets its length, and then the checksum that completes its sum
    and the entries'. -/
theorem write_mpc (numCpus : Nat) (mem : ByteMem) (sum : UInt8) (flat : List UInt8) :
    (fun m : ByteMem => m.write (base + 7) [m (base + 7) - (sum + mptableChecksum m base 44)])
        ((mem.write base (mpcDraft.bytes ++ flat)).writeLE (base + 4) 2 (20 * numCpus + 204))
      = mem.write base (MpcTable.bytes { mpcSized numCpus with
          checksum := 0 - (sum + (mpcSized numCpus).bytes.foldl (fun sum b => sum + b) 0) } ++
          flat) := by
  have hsig : mpcDraft.signature.length = 4 := by decide +kernel
  -- The length goes behind the signature.
  have hsized : (mem.write base (mpcDraft.bytes ++ flat)).writeLE (base + 4) 2
      (20 * numCpus + 204) = mem.write base ((mpcSized numCpus).bytes ++ flat) := by
    have hbytes : ∀ n, MpcTable.bytes { mpcDraft with length := n } ++ flat = _ :=
      fun n => (congrArg (· ++ flat) (MpcTable.bytes_length mpcDraft n)).trans
        (List.append_assoc _ _ flat)
    exact ByteMem.write_patch mem base 4 _ _ _ _ (hbytes 0) (hbytes (20 * numCpus + 204)) hsig
      (by rw [ByteMem.length_leBytes, ByteMem.length_leBytes])
  have hsum : mptableChecksum (mem.write base ((mpcSized numCpus).bytes ++ flat)) base 44
      = (mpcSized numCpus).bytes.foldl (fun sum b => sum + b) 0 := by
    have hall := ByteMem.holds_write_self mem base ((mpcSized numCpus).bytes ++ flat)
    rw [ByteMem.holds_append] at hall
    rw [mptableChecksum, hall.1.read_eq (length_mpcTable _ 0)]
  simp only [hsized, hsum]
  have hbytes : ∀ c, MpcTable.bytes { mpcSized numCpus with checksum := c } ++ flat = _ :=
    fun c => (congrArg (· ++ flat) (MpcTable.bytes_checksum (mpcSized numCpus) c)).trans
      (List.append_assoc _ _ flat)
  refine write_checksum mem base 7 _ _ _ (hbytes 0) (hbytes _) ?_
  rw [List.length_append, List.length_append, ByteMem.length_leBytes]
  exact congrArg (· + 2 + 1) hsig

/-- The whole table is one string for the floating pointer and one for what it
    points at. -/
theorem setupMptable_eq (numCpus : Nat) (mem : ByteMem)
    (hptr : ∀ o, o < 20 * numCpus + 220 →
      getUserspaceAddr mapper (mptableStart + o) = base + o) :
    setupMptable mapper numCpus mem
      = (mem.write base mpfFinal.bytes).write (base + 16)
          ((mpcFinal numCpus).bytes ++ (mpEntries numCpus).flatten) := by
  have hmpf : getUserspaceAddr mapper mptableStart = base := hptr 0 (by omega)
  have htable : getUserspaceAddr mapper (mptableStart + 16) = base + 16 := hptr 16 (by omega)
  have hlen := length_mpEntries numCpus
  have hpos : ∀ e ∈ mpEntries numCpus, 0 < e.length := by
    rw [← mpTable_bytes]
    intro e he
    rcases List.mem_map.mp he with ⟨e', he', rfl⟩
    rw [e'.length_bytes (mpTable_fits numCpus e' he')]
    exact e'.size_pos
  -- The entries follow the header as one string.
  have hbuild : ∀ m : ByteMem, (mpEntries numCpus).foldl (putEntry mapper)
      ⟨m.write (base + 16) mpcDraft.bytes, 60, 0⟩
      = ⟨m.write (base + 16) (mpcDraft.bytes ++ (mpEntries numCpus).flatten),
          60 + (20 * numCpus + 160),
          (mpEntries numCpus).flatten.foldl (fun sum x => sum + x) 0⟩ := by
    intro m
    rw [foldl_putEntry mapper base _ _ hpos (fun o ho => hptr o (by simp only [hlen] at ho; omega)),
      ByteMem.write_append, show mpcDraft.bytes.length = 44 from length_mpcTable 0 0, hlen]
    simp only [Nat.add_assoc, Nat.reduceAdd]
  have hdone := write_mpc (base + 16) numCpus (mem.write base mpfFinal.bytes)
    ((mpEntries numCpus).flatten.foldl (fun sum x => sum + x) 0) (mpEntries numCpus).flatten
  unfold setupMptable
  simp only [hmpf, htable]
  rw [← mpfDraft, write_mpf, ← mpcDraft, hbuild]
  simp only [show 60 + (20 * numCpus + 160) - 16 = 20 * numCpus + 204 by omega]
  exact hdone

end Build

section Sums

theorem byteSum_mpf : byteSum mpfFinal.bytes % 256 = 0 := by
  have hdraft : ({ mpfDraft with checksum := 0 } : MpfIntel) = mpfDraft := rfl
  have hsum := foldl_add_toNat mpfDraft.bytes 0
  rw [UInt8.toNat_zero, Nat.zero_add] at hsum
  have h := byteSum_complete 0 (MpfIntel.bytes_checksum mpfDraft 0)
    (MpfIntel.bytes_checksum mpfDraft (0 - mpfDraft.bytes.foldl (fun sum b => sum + b) 0))
    (by rw [hdraft, Nat.add_zero, hsum])
  rwa [Nat.add_zero] at h

theorem byteSum_mpc (numCpus : Nat) :
    byteSum ((mpcFinal numCpus).bytes ++ (mpEntries numCpus).flatten) % 256 = 0 := by
  rw [byteSum_append]
  refine byteSum_complete _ (MpcTable.bytes_checksum (mpcSized numCpus) 0)
    (MpcTable.bytes_checksum (mpcSized numCpus) _) ?_
  rw [UInt8.toNat_add, foldl_add_toNat, foldl_add_toNat, UInt8.toNat_zero,
    show ({ mpcSized numCpus with checksum := 0 } : MpcTable) = mpcSized numCpus from rfl]
  omega

end Sums

section Guest

variable (mapper : Int → MemRegion) (m : ByteMem)

-- The way the guest finds the table: the floating pointer, what it points at, and the length there.
def mpfPtr : Nat :=
  getUserspaceAddr mapper mptableStart

def mpcPtr : Nat :=
  getUserspaceAddr mapper (m.le (mpfPtr mapper + 4) 4)

def mpcLength : Nat :=
  m.le (mpcPtr mapper m + 4) 2

end Guest

/-- What the builder leaves, read the way the guest reads it. -/
structure MpBuilt (mapper : Int → MemRegion) (numCpus : Nat) (m : ByteMem) : Prop where
  pointer : m.Holds (mpfPtr mapper) mpfFinal.bytes
  table : m.Holds (mpcPtr mapper m) ((mpcFinal numCpus).bytes ++ (mpEntries numCpus).flatten)
  physptr : m.le (mpfPtr mapper + 4) 4 = mptableStart + 16
  length : mpcLength mapper m = 20 * numCpus + 204

theorem setupMptable_built (R : RamMap) (numCpus : Nat) (hlen : 44 + 20 * numCpus + 160 < 2 ^ 16)
    (hram : InRam R.mapper mptableStart (16 + (44 + 20 * numCpus + 160))) (mem : ByteMem) :
    MpBuilt R.mapper numCpus (setupMptable R.mapper numCpus mem) := by
  -- The range lies in one slot, where the translation keeps distances.
  have hslot : ∀ i, i = 0 ∨ i = 1 →
      (R.mapper i).InSlot mptableStart (16 + (44 + 20 * numCpus + 160)) →
      ∀ o, o < 20 * numCpus + 220 → R.host (mptableStart + o) = R.host mptableStart + o := by
    intro i hi hin o ho
    have hlow := hin.1
    have hend := hin.2.2
    exact R.host_add hi ⟨hlow, hin.2.1⟩ ⟨by omega, by omega⟩
  have hptr : ∀ o, o < 20 * numCpus + 220 →
      getUserspaceAddr R.mapper (mptableStart + o) = mpfPtr R.mapper + o := by
    rcases hram with h | h
    · exact hslot 0 (Or.inl rfl) h
    · exact hslot 1 (Or.inr rfl) h
  rw [setupMptable_eq R.mapper (mpfPtr R.mapper) numCpus mem hptr]
  have hmpf : mpfFinal.bytes.length = 16 := by
    rw [mpfFinal, MpfIntel.bytes_checksum]
    decide +kernel
  generalize hm : (mem.write (mpfPtr R.mapper) mpfFinal.bytes).write (mpfPtr R.mapper + 16)
    ((mpcFinal numCpus).bytes ++ (mpEntries numCpus).flatten) = m
  have hpointer : m.Holds (mpfPtr R.mapper) mpfFinal.bytes := by
    rw [← hm]
    exact (ByteMem.holds_write_self mem _ _).write_apart _ _ (Apart.of_ge (by omega))
  have htable : m.Holds (mpfPtr R.mapper + 16)
      ((mpcFinal numCpus).bytes ++ (mpEntries numCpus).flatten) := by
    rw [← hm]
    exact ByteMem.holds_write_self _ _ _
  have hphys : m.le (mpfPtr R.mapper + 4) 4 = mptableStart + 16 := by
    have h := hpointer
    rw [MpfIntel.bytes, ByteMem.holds_append, ByteMem.holds_append, ByteMem.holds_append,
      show mpfFinal.signature.length = 4 by decide +kernel] at h
    exact h.1.1.2.le_eq.trans (by decide)
  have hmpc : mpcPtr R.mapper m = mpfPtr R.mapper + 16 := by
    rw [mpcPtr, hphys]
    exact hptr 16 (by omega)
  refine ⟨hpointer, ?_, hphys, ?_⟩
  · rw [hmpc]
    exact htable
  · have hsig : (mpcFinal numCpus).signature.length = 4 :=
      show mpcDraft.signature.length = 4 by decide +kernel
    have hl := (MpcTable.holds_start (ByteMem.holds_append.mp htable).1).2
    rw [hsig] at hl
    rw [mpcLength, hmpc, hl.le_eq]
    exact Nat.mod_eq_of_lt (by simp only [mpcFinal, mpcSized]; omega)

/-- Walking the table the guest finds reads the entries that were written. -/
theorem MpBuilt.walk {mapper : Int → MemRegion} {numCpus : Nat} {m : ByteMem}
    (h : MpBuilt mapper numCpus m) :
    mpWalk m (mpcPtr mapper m + 44) (mpcPtr mapper m + mpcLength mapper m)
      = some (mpTable numCpus) := by
  have hmpc : (mpcFinal numCpus).bytes.length = 44 := length_mpcTable _ _
  have hparts := ByteMem.holds_append.mp h.table
  rw [hmpc] at hparts
  have hwalk := mpWalk_holds m (mpTable numCpus) (mpTable_fits numCpus) (mpcPtr mapper m + 44)
    (by rw [entriesBytes, mpTable_bytes]; exact hparts.2)
  rw [entriesBytes, mpTable_bytes, length_mpEntries] at hwalk
  rwa [h.length, show mpcPtr mapper m + (20 * numCpus + 204)
    = mpcPtr mapper m + 44 + (20 * numCpus + 160) by omega]

/-- The table of a guest that has booted, as long as it stays in RAM. -/
theorem mpBuilt_boot (os : HostMap) (hos : os.Lawful) (ramSize : Nat) (around : Int → MemRegion)
    (hok : (initMemoryMap os ramSize (memStatics around)).1 = true) (mapper : Int → MemRegion)
    (hmapper : mapper = (bootMemory os ramSize around).memMapper) (numCpus : Nat)
    (hlen : 44 + 20 * numCpus + 160 < 2 ^ 16)
    (hram : InRam mapper mptableStart (16 + (44 + 20 * numCpus + 160))) (mem : ByteMem) :
    MpBuilt mapper numCpus (setupMptable mapper numCpus mem) := by
  rcases initMemoryMap_ramMap os hos ramSize around hok with ⟨R, hR⟩
  have hmap : R.mapper = mapper := by rw [hR, hmapper, bootMemory]
  rw [← hmap] at hram ⊢
  exact setupMptable_built R numCpus hlen hram mem

/-- Both checksums come out, the floating pointer points at the table, and
    walking the table finds the processors in order, the bus, the I/O APIC,
    the sixteen interrupt lines and the two local ones, and nothing after
    them. -/
theorem setupMptable_wellFormed (os : HostMap) (hos : os.Lawful) (ramSize : Nat)
    (around : Int → MemRegion) (hok : (initMemoryMap os ramSize (memStatics around)).1 = true)
    (mapper : Int → MemRegion) (hmapper : mapper = (bootMemory os ramSize around).memMapper)
    (numCpus : Nat) (hlen : 44 + 20 * numCpus + 160 < 2 ^ 16)
    (hram : InRam mapper mptableStart (16 + (44 + 20 * numCpus + 160))) (mem m : ByteMem)
    (hm : m = setupMptable mapper numCpus mem) :
    byteSum (m.read (mpfPtr mapper) 16) % 256 = 0 ∧
    m.le (mpfPtr mapper + 4) 4 = mptableStart + 16 ∧
    m.read (mpcPtr mapper m) 4 = ByteMem.ascii "PCMP" ∧
    byteSum (m.read (mpcPtr mapper m) (mpcLength mapper m)) % 256 = 0 ∧
    ∃ (cpus : List MpcCpu) (bus : MpcBus) (ioapic : MpcIoapic) (ints : List MpcIntsrc)
        (ext nmi : MpcLintsrc),
      mpWalk m (mpcPtr mapper m + 44) (mpcPtr mapper m + mpcLength mapper m)
        = some (cpus.map .cpu ++ [.bus bus, .ioapic ioapic] ++ ints.map .intsrc ++
            [.lintsrc ext, .lintsrc nmi]) ∧
      cpus.length = numCpus ∧
      (∀ (i : Nat) (c : MpcCpu), cpus[i]? = some c →
        c.apicid.toNat = i % 256 ∧ (c.cpuflag &&& 2 ≠ 0 ↔ i = 0)) ∧
      ints.length = 16 ∧
      ∀ (i : Nat) (s : MpcIntsrc), ints[i]? = some s →
        s.srcbusirq.toNat = i ∧ s.dstirq.toNat = i := by
  have hbuilt := mpBuilt_boot os hos ramSize around hok mapper hmapper numCpus hlen hram mem
  rw [← hm] at hbuilt
  have hmpf : mpfFinal.bytes.length = 16 := length_mpfDraft
  have hmpc : (mpcFinal numCpus).bytes.length = 44 := length_mpcTable _ _
  -- The bytes of header and entries together are as long as the header says.
  have hall : ((mpcFinal numCpus).bytes ++ (mpEntries numCpus).flatten).length
      = mpcLength mapper m := by
    rw [List.length_append, hmpc, length_mpEntries, hbuilt.length]
    omega
  have hparts := ByteMem.holds_append.mp hbuilt.table
  rw [hmpc] at hparts
  refine ⟨?_, hbuilt.physptr, ?_, ?_, ?_⟩
  · rw [hbuilt.pointer.read_eq hmpf]
    exact byteSum_mpf
  · exact (MpcTable.holds_start hparts.1).1.read_eq
      (show mpcDraft.signature.length = 4 by decide +kernel)
  · rw [hbuilt.table.read_eq hall]
    exact byteSum_mpc numCpus
  · refine ⟨(List.range numCpus).map mpCpu, mpBus, mpIoapic numCpus,
      (List.range 16).map (mpIntsrc numCpus), mpExtInt numCpus, mpNmi, ?_, ?_, ?_, ?_, ?_⟩
    · rw [hbuilt.walk, mpTable, List.map_map, List.map_map]
      rfl
    · rw [List.length_map, List.length_range]
    · intro i c hc
      obtain ⟨hi, rfl⟩ := List.getElem?_eq_some_iff.mp hc
      rw [List.getElem_map, List.getElem_range]
      refine ⟨UInt8.toNat_ofNat', ?_⟩
      -- The boot processor is the first, and it alone has the flag.
      by_cases h0 : i = 0
      · have hflag : (mpCpu i).cpuflag &&& 2 ≠ 0 := by
          rw [h0]
          decide
        exact iff_of_true hflag h0
      · have hflag : (mpCpu i).cpuflag &&& 2 = 0 := by
          rw [mpCpu, if_neg h0]
          exact (by decide : (1 : UInt8) &&& 2 = 0)
        exact iff_of_false (not_not.mpr hflag) h0
    · rw [List.length_map, List.length_range]
    · intro i s hs
      obtain ⟨hi, rfl⟩ := List.getElem?_eq_some_iff.mp hs
      rw [List.length_map, List.length_range] at hi
      rw [List.getElem_map, List.getElem_range]
      simp only [mpIntsrc, UInt8.toNat_ofNat']
      omega

/-- Three processors in a guest with 512 MiB. -/
theorem setupMptable_wellFormed_three :
    InRam sampleMapper mptableStart (16 + (44 + 20 * 3 + 160)) ∧
    byteSum ((setupMptable sampleMapper 3 fun _ => 0).read (mpfPtr sampleMapper) 16) % 256 = 0 :=
  ⟨by decide, (setupMptable_wellFormed sampleHost sampleHost_lawful 0x20000000 _ (by decide)
    sampleMapper rfl 3 (by decide) (by decide) (fun _ => 0) _ rfl).1⟩

end Microv
