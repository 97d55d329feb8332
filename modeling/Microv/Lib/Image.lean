import Microv.Lib.Bytes

/-!
# Byte Images in Memory

A structure in memory is a byte string at an address, and a table of
structures is the strings one after the other. `Holds` says that a string
stands at an address. It splits along concatenation, so a structure's fields
and a table's entries come apart by rewriting, and a little-endian field of
the string is the value that was spelled there.

A table is often finished late: some field of its header is known only once
the rest is there. `write_patch` says that assigning inside a string that was
written is the same as having written the other string to begin with, so an
image built in several passes is still one string.

A checksum is a sum of bytes in a byte. `foldl_add_toNat` takes it to a sum of
naturals, where the completing byte is arithmetic modulo 256.

## Main definitions

* `Holds`: A string stands at an address.
* `byteSum`: The sum of a string's bytes.

## Theorems

* `holds_append`, `holds_cons`: A string stands where its parts do.
* `Holds.le_eq`: The field a little-endian string spells.
* `holds_write_self`: A string stands where it was written.
* `write_patch`: Overwriting the middle of a string.
* `foldl_add_eq`: A sum is continued by adding.
* `foldl_add_toNat`: A sum in a byte is the sum modulo 256.
* `byteSum_complete`: The completing byte brings the sum to zero.
-/

namespace Microv

namespace ByteMem

/-- The string `bs` stands at `a`. -/
def Holds (m : ByteMem) (a : Nat) (bs : List UInt8) : Prop :=
  m.read a bs.length = bs

theorem read_add (m : ByteMem) (a j k : Nat) :
    m.read a (j + k) = m.read a j ++ m.read (a + j) k := by
  simp only [read, List.range_add, List.map_append, List.map_map, Function.comp_def, Nat.add_assoc]

theorem holds_append {m : ByteMem} {a : Nat} {bs cs : List UInt8} :
    Holds m a (bs ++ cs) ↔ Holds m a bs ∧ Holds m (a + bs.length) cs := by
  unfold Holds
  rw [List.length_append, read_add]
  constructor
  · exact fun h => List.append_inj h (length_read m a bs.length)
  · rintro ⟨hb, hc⟩
    rw [hb, hc]

theorem holds_singleton {m : ByteMem} {a : Nat} {b : UInt8} : Holds m a [b] ↔ m a = b := by
  simp only [Holds, read, List.length_singleton, List.range_one, List.map_singleton, Nat.add_zero,
    List.cons.injEq, and_true]

theorem holds_cons {m : ByteMem} {a : Nat} {b : UInt8} {bs : List UInt8} :
    Holds m a (b :: bs) ↔ m a = b ∧ Holds m (a + 1) bs := by
  rw [← List.singleton_append, holds_append, holds_singleton, List.length_singleton]

theorem holds_write_self (m : ByteMem) (a : Nat) (bs : List UInt8) : Holds (m.write a bs) a bs :=
  read_write_self m a bs

theorem Holds.read_eq {m : ByteMem} {a k : Nat} {bs : List UInt8} (h : Holds m a bs)
    (hk : bs.length = k) : m.read a k = bs := by
  rw [← hk]
  exact h

/-- A string keeps standing under a write to another place. -/
theorem Holds.write_apart {m : ByteMem} {a : Nat} {bs : List UInt8} (h : Holds m a bs) (b : Nat)
    (cs : List UInt8) (hap : Apart b cs.length a bs.length) : Holds (m.write b cs) a bs := by
  unfold Apart at hap
  refine Eq.trans (read_congr _ _ a bs.length ?_) h
  intro i hi
  exact write_outside m b cs (a + i) (by omega)

/-- The field a little-endian string spells. -/
theorem Holds.le_eq {m : ByteMem} {a k v : Nat} (h : Holds m a (leBytes k v)) :
    m.le a k = v % 256 ^ k := by
  have hread : m.read a k = leBytes k v := h.read_eq (length_leBytes k v)
  -- Both memories hold the string, so they give the field the same value.
  rw [← le_write_leBytes m a k v]
  refine le_congr _ _ a k ?_
  intro i hi
  have hlen : i < (m.read a k).length := by rwa [length_read]
  rw [write_inside m a _ i (by rwa [length_leBytes]), ← getElem_read m a k i hlen]
  simp only [hread]

theorem write_overwrite (m : ByteMem) (a : Nat) (bs cs : List UInt8)
    (h : bs.length = cs.length) : (m.write a bs).write a cs = m.write a cs := by
  funext x
  by_cases hx : x < a ∨ a + cs.length ≤ x
  · rw [write_outside _ a cs x hx, write_outside _ a bs x (by omega), write_outside _ a cs x hx]
  · obtain ⟨i, rfl⟩ : ∃ i, x = a + i := ⟨x - a, by omega⟩
    rw [write_inside _ a cs i (by omega), write_inside _ a cs i (by omega)]

/-- Overwriting the middle of a string that was just written. -/
theorem write_patch (m : ByteMem) (a k : Nat) {s s' : List UInt8} (pre old new post : List UInt8)
    (hs : s = pre ++ old ++ post) (hs' : s' = pre ++ new ++ post) (hk : pre.length = k)
    (h : old.length = new.length) : (m.write a s).write (a + k) new = m.write a s' := by
  subst hs hs' hk
  rw [write_append, write_append, write_append _ _ (pre ++ new), write_append]
  simp only [List.length_append, ← Nat.add_assoc]
  rw [write_comm _ _ _ post new (Apart.of_ge (by omega)), write_overwrite _ _ old new h, h]

end ByteMem

/-- The sum of a string's bytes. -/
def byteSum (bs : List UInt8) : Nat :=
  (bs.map UInt8.toNat).sum

theorem byteSum_append (bs cs : List UInt8) : byteSum (bs ++ cs) = byteSum bs + byteSum cs := by
  rw [byteSum, List.map_append, List.sum_append]
  rfl

theorem byteSum_singleton (b : UInt8) : byteSum [b] = b.toNat := by
  rw [byteSum, List.map_singleton, List.sum_singleton]

/-- A sum may be continued from where another ended. -/
theorem foldl_add_eq (bs : List UInt8) (c : UInt8) :
    bs.foldl (fun sum b => sum + b) c = c + bs.foldl (fun sum b => sum + b) 0 := by
  induction bs generalizing c with
  | nil => rw [List.foldl_nil, List.foldl_nil, UInt8.add_zero]
  | cons b bs ih => rw [List.foldl_cons, ih, List.foldl_cons, ih (0 + b), UInt8.zero_add,
      UInt8.add_assoc]

/-- A sum that wraps in a byte is the sum modulo 256. -/
theorem foldl_add_toNat (bs : List UInt8) (c : UInt8) :
    (bs.foldl (fun sum b => sum + b) c).toNat = (c.toNat + byteSum bs) % 256 := by
  induction bs generalizing c with
  | nil =>
      have hc := c.toNat_lt
      simp only [List.foldl_nil, byteSum, List.map_nil, List.sum_nil]
      omega
  | cons b bs ih =>
      rw [List.foldl_cons, ih, UInt8.toNat_add, byteSum, byteSum, List.map_cons, List.sum_cons]
      omega

/-- A byte that was zero and takes the negated sum brings the sum to zero, the
    string's own and that of whatever else was counted in. -/
theorem byteSum_complete {s s' pre post : List UInt8} {c : UInt8} (n : Nat)
    (hs : s = pre ++ [0] ++ post) (hs' : s' = pre ++ [0 - c] ++ post)
    (hc : c.toNat = (byteSum s + n) % 256) : (byteSum s' + n) % 256 = 0 := by
  have hzero : byteSum s = byteSum pre + 0 + byteSum post := by
    rw [hs, byteSum_append, byteSum_append, byteSum_singleton, UInt8.toNat_zero]
  have hneg : (0 - c).toNat = (256 - c.toNat) % 256 := by
    rw [UInt8.toNat_sub, UInt8.toNat_zero, Nat.add_zero]
  rw [hs', byteSum_append, byteSum_append, byteSum_singleton, hneg, hc, hzero]
  omega

end Microv
