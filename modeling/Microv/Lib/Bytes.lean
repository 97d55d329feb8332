import Mathlib.Data.List.GetD
import Mathlib.Data.List.Range
import Mathlib.Tactic.Ring

/-!
# Byte Memories

A memory is a total map from addresses to bytes. C structures are read out of
it as little-endian fields and written back by copying byte strings, which is
all `memcpy` and a field assignment ever do.

Every update is a `write` of a list of bytes, so there is one update lemma for
the inside of the range and one for the outside, and a frame fact about a
field or a string is the outside lemma applied at each of its bytes. Addresses
are unbounded here; a caller that computes them in a machine word reduces them
first.

`write_comm` is what lets two independent sequences of updates be reordered:
updates to separate ranges commute as functions, not only up to what a reader
can observe.

## Main definitions

* `ByteMem`: A byte-addressed memory.
* `read`: The byte string at an address.
* `write`: Copying a byte string to an address.
* `le`: The little-endian value of a field.
* `leBytes`: The little-endian byte string of a value.
* `ascii`: The byte string of a string literal.
* `writeLE`: Assigning a little-endian field.
* `Apart`: Two address ranges share no byte.

## Theorems

* `write_outside`: Bytes outside the range are untouched.
* `write_inside`: Bytes inside the range are the string's.
* `write_byte_self`, `write_byte_other`: A single byte.
* `write_comm`: Updates to separate ranges commute.
* `write_append`: A string is written part by part.
* `read_write_self`: Reading back what was written.
* `le_write_apart`: A field outside the range is untouched.
* `le_writeLE_self`: Reading back an assigned field.
* `le_write_read`: A field of a copied string.
* `le_lt`: A field is below the bound of its width.
-/

namespace Microv

/-- A byte-addressed memory. -/
abbrev ByteMem := Nat → UInt8

/-- The ranges `[a, a + k)` and `[b, b + l)` share no byte. An empty range
    shares none wherever it stands. -/
def Apart (a k b l : Nat) : Prop :=
  k = 0 ∨ l = 0 ∨ a + k ≤ b ∨ b + l ≤ a

instance (a k b l : Nat) : Decidable (Apart a k b l) :=
  inferInstanceAs (Decidable (_ ∨ _ ∨ _ ∨ _))

theorem Apart.symm {a k b l : Nat} (h : Apart a k b l) : Apart b l a k := by
  unfold Apart at *
  omega

theorem Apart.of_le {a k b l : Nat} (h : a + k ≤ b) : Apart a k b l :=
  Or.inr (Or.inr (Or.inl h))

theorem Apart.of_ge {a k b l : Nat} (h : b + l ≤ a) : Apart a k b l :=
  Or.inr (Or.inr (Or.inr h))

/-- Narrowing either range keeps them apart. -/
theorem Apart.mono {a k b l a' k' b' l' : Nat} (h : Apart a k b l)
    (ha : a ≤ a') (hk : a' + k' ≤ a + k) (hb : b ≤ b') (hl : b' + l' ≤ b + l) :
    Apart a' k' b' l' := by
  unfold Apart at *
  omega

namespace ByteMem

/-- The `k` bytes at `a`, in address order. -/
def read (m : ByteMem) (a k : Nat) : List UInt8 :=
  (List.range k).map fun i => m (a + i)

/-- Copy the string `bs` to `a`. -/
def write (m : ByteMem) (a : Nat) (bs : List UInt8) : ByteMem :=
  fun x => if a ≤ x then bs.getD (x - a) (m x) else m x

/-- The little-endian value of the `k` bytes at `a`. -/
def le (m : ByteMem) (a : Nat) : Nat → Nat
  | 0 => 0
  | k + 1 => (m a).toNat + 256 * le m (a + 1) k

/-- The `k` little-endian bytes of `v`; higher bits are dropped. -/
def leBytes : Nat → Nat → List UInt8
  | 0, _ => []
  | k + 1, v => UInt8.ofNat v :: leBytes k (v / 256)

/-- The characters of a string literal, without the terminator. -/
def ascii (s : String) : List UInt8 :=
  s.toList.map fun c => UInt8.ofNat c.toNat

/-- Assign the `k`-byte little-endian field at `a`. -/
def writeLE (m : ByteMem) (a k v : Nat) : ByteMem :=
  m.write a (leBytes k v)

@[simp] theorem length_read (m : ByteMem) (a k : Nat) : (m.read a k).length = k := by
  simp only [read, List.length_map, List.length_range]

@[simp] theorem length_leBytes (k v : Nat) : (leBytes k v).length = k := by
  induction k generalizing v with
  | zero => rfl
  | succ k ih => simp only [leBytes, List.length_cons, ih]

theorem write_outside (m : ByteMem) (a : Nat) (bs : List UInt8) (x : Nat)
    (h : x < a ∨ a + bs.length ≤ x) : m.write a bs x = m x := by
  unfold write
  by_cases hax : a ≤ x
  · rw [if_pos hax, List.getD_eq_default _ _ (by omega)]
  · rw [if_neg hax]

theorem write_inside (m : ByteMem) (a : Nat) (bs : List UInt8) (i : Nat) (h : i < bs.length) :
    m.write a bs (a + i) = bs[i] := by
  unfold write
  rw [if_pos (Nat.le_add_right a i), Nat.add_sub_cancel_left, List.getD_eq_getElem _ _ h]

/-- One write to two memories that agree on a byte. -/
theorem write_congr (m m' : ByteMem) (a : Nat) (bs : List UInt8) (x : Nat) (h : m x = m' x) :
    m.write a bs x = m'.write a bs x := by
  unfold write
  rw [h]

/-- A write at an offset from a base, seen from the base. -/
theorem write_shift (m : ByteMem) (a s : Nat) (bs : List UInt8) (o : Nat) :
    m.write (a + s) bs (a + o) = write (fun y => m (a + y)) s bs o := by
  unfold write
  by_cases h : s ≤ o
  · rw [if_pos h, if_pos (by omega), show a + o - (a + s) = o - s by omega]
  · rw [if_neg h, if_neg (by omega)]

@[simp] theorem write_nil (m : ByteMem) (a : Nat) : m.write a [] = m := by
  funext x
  exact write_outside m a [] x (by simp only [List.length_nil]; omega)

@[simp] theorem write_byte_self (m : ByteMem) (a : Nat) (b : UInt8) : m.write a [b] a = b :=
  write_inside m a [b] 0 Nat.one_pos

theorem write_byte_other (m : ByteMem) (a : Nat) (b : UInt8) (x : Nat) (h : x ≠ a) :
    m.write a [b] x = m x :=
  write_outside m a [b] x (by rw [List.length_singleton]; omega)

/-- Updates to separate ranges commute. -/
theorem write_comm (m : ByteMem) (a b : Nat) (bs cs : List UInt8)
    (h : Apart a bs.length b cs.length) :
    (m.write a bs).write b cs = (m.write b cs).write a bs := by
  unfold Apart at h
  funext x
  by_cases hb : x < b ∨ b + cs.length ≤ x
  · rw [write_outside _ b cs x hb]
    by_cases ha : x < a ∨ a + bs.length ≤ x
    · rw [write_outside _ a bs x ha, write_outside _ a bs x ha, write_outside _ b cs x hb]
    · -- Inside the first range both orders leave the first string's byte.
      have hx : x = a + (x - a) := by omega
      rw [hx, write_inside _ a bs _ (by omega), write_inside _ a bs _ (by omega)]
  · have hx : x = b + (x - b) := by omega
    rw [write_outside _ a bs x (by omega), hx, write_inside _ b cs _ (by omega),
      write_inside _ b cs _ (by omega)]

/-- A string written at once is its parts written one after the other. -/
theorem write_append (m : ByteMem) (a : Nat) (bs cs : List UInt8) :
    m.write a (bs ++ cs) = (m.write a bs).write (a + bs.length) cs := by
  funext x
  by_cases hc : x < a + bs.length ∨ a + bs.length + cs.length ≤ x
  · rw [write_outside _ (a + bs.length) cs x hc]
    by_cases hb : x < a ∨ a + bs.length ≤ x
    · rw [write_outside _ a bs x hb, write_outside _ a (bs ++ cs) x
        (by rw [List.length_append]; omega)]
    · have hx : x = a + (x - a) := by omega
      rw [hx, write_inside _ a bs _ (by omega), write_inside _ a (bs ++ cs) _
        (by rw [List.length_append]; omega), List.getElem_append_left (by omega)]
  · obtain ⟨i, rfl⟩ : ∃ i, x = a + bs.length + i := ⟨x - (a + bs.length), by omega⟩
    rw [write_inside _ (a + bs.length) cs i (by omega), Nat.add_assoc, write_inside _ a (bs ++ cs) _
      (by rw [List.length_append]; omega), List.getElem_append_right (by omega)]
    simp only [Nat.add_sub_cancel_left]

theorem getElem_read (m : ByteMem) (a k i : Nat) (h : i < (m.read a k).length) :
    (m.read a k)[i] = m (a + i) := by
  simp only [read, List.getElem_map, List.getElem_range]

/-- Two memories that agree on a range hold the same string there. -/
theorem read_congr (m m' : ByteMem) (a k : Nat) (h : ∀ i, i < k → m (a + i) = m' (a + i)) :
    m.read a k = m'.read a k := by
  refine List.ext_getElem (by simp only [length_read]) ?_
  intro i h1 _
  rw [getElem_read, getElem_read]
  exact h i (by simpa only [length_read] using h1)

theorem read_write_self (m : ByteMem) (a : Nat) (bs : List UInt8) :
    (m.write a bs).read a bs.length = bs := by
  refine List.ext_getElem (by simp only [length_read]) ?_
  intro i _ h2
  rw [getElem_read, write_inside m a bs i h2]

/-- Two memories that agree on a field's bytes give it the same value. -/
theorem le_congr (m m' : ByteMem) (a k : Nat) (h : ∀ i, i < k → m (a + i) = m' (a + i)) :
    m.le a k = m'.le a k := by
  induction k generalizing a with
  | zero => rfl
  | succ k ih =>
      have hhead : m a = m' a := h 0 (by omega)
      have htail : m.le (a + 1) k = m'.le (a + 1) k := by
        refine ih (a + 1) ?_
        intro i hi
        rw [show a + 1 + i = a + (i + 1) by omega]
        exact h (i + 1) (by omega)
      simp only [le, hhead, htail]

/-- A field seen through a memory that starts at `a`. -/
theorem le_shift (m : ByteMem) (a g k : Nat) : le (fun x => m (a + x)) g k = m.le (a + g) k := by
  induction k generalizing g with
  | zero => rfl
  | succ k ih => rw [le, le, ih, Nat.add_assoc]

theorem le_write_apart (m : ByteMem) (a : Nat) (bs : List UInt8) (b k : Nat)
    (h : Apart a bs.length b k) : (m.write a bs).le b k = m.le b k := by
  unfold Apart at h
  refine le_congr _ _ b k ?_
  intro i hi
  exact write_outside m a bs (b + i) (by omega)

theorem le_writeLE_apart (m : ByteMem) (a w v b k : Nat) (h : Apart a w b k) :
    (m.writeLE a w v).le b k = m.le b k :=
  le_write_apart m a _ b k (by rwa [length_leBytes])

/-- A field of a copied string is the field it was copied from. -/
theorem le_write_read (m m' : ByteMem) (b a k o w : Nat) (h : o + w ≤ k) :
    (m.write b (m'.read a k)).le (b + o) w = m'.le (a + o) w := by
  induction w generalizing o with
  | zero => rfl
  | succ w ih =>
      have hhead : m.write b (m'.read a k) (b + o) = m' (a + o) := by
        rw [write_inside _ _ _ _ (by rw [length_read]; omega), getElem_read]
      have htail := ih (o + 1) (by omega)
      rw [le, le, hhead, Nat.add_assoc, htail, Nat.add_assoc]

theorem le_lt (m : ByteMem) (a k : Nat) : m.le a k < 256 ^ k := by
  induction k generalizing a with
  | zero => exact Nat.one_pos
  | succ k ih =>
      have hb : (m a).toNat < 256 := (m a).toNat_lt
      have hrec := ih (a + 1)
      rw [le, pow_succ]
      omega

/-- A field in two parts, the low one first. -/
theorem le_add (m : ByteMem) (a j k : Nat) :
    m.le a (j + k) = m.le a j + 256 ^ j * m.le (a + j) k := by
  induction j generalizing a with
  | zero => simp only [Nat.zero_add, le, pow_zero, Nat.one_mul, Nat.add_zero]
  | succ j ih =>
      have hrest := ih (a + 1)
      rw [show a + 1 + j = a + (j + 1) by omega] at hrest
      rw [show j + 1 + k = j + k + 1 by omega, le, le, hrest, pow_succ']
      ring

theorem le_zero (m : ByteMem) (a k : Nat) (hz : ∀ i, i < k → m (a + i) = 0) : m.le a k = 0 := by
  induction k generalizing a with
  | zero => rfl
  | succ k ih =>
      have hhead : m a = 0 := hz 0 (by omega)
      have htail : m.le (a + 1) k = 0 := by
        refine ih (a + 1) ?_
        intro i hi
        rw [show a + 1 + i = a + (i + 1) by omega]
        exact hz (i + 1) (by omega)
      rw [le, hhead, htail]
      rfl

/-- A field spelled by the string that was just written there. -/
theorem le_write_leBytes (m : ByteMem) (a k v : Nat) :
    (m.write a (leBytes k v)).le a k = v % 256 ^ k := by
  induction k generalizing m a v with
  | zero => simp only [le, pow_zero, Nat.mod_one]
  | succ k ih =>
      have hhead : m.write a (leBytes (k + 1) v) a = UInt8.ofNat v := by
        have h := write_inside m a (leBytes (k + 1) v) 0 (by rw [length_leBytes]; omega)
        simpa only [Nat.add_zero, leBytes, List.getElem_cons_zero] using h
      -- Past its first byte the string is the one of the shifted value.
      have htail : (m.write a (leBytes (k + 1) v)).le (a + 1) k
          = (m.write (a + 1) (leBytes k (v / 256))).le (a + 1) k := by
        refine le_congr _ _ (a + 1) k ?_
        intro i hi
        have h1 := write_inside m a (leBytes (k + 1) v) (i + 1) (by rw [length_leBytes]; omega)
        have h2 := write_inside m (a + 1) (leBytes k (v / 256)) i (by rw [length_leBytes]; omega)
        rw [show a + 1 + i = a + (i + 1) by omega, h1, ← show a + 1 + i = a + (i + 1) by omega, h2]
        simp only [leBytes, List.getElem_cons_succ]
      rw [pow_succ', Nat.mod_mul, le, hhead, htail, ih, UInt8.toNat_ofNat']

/-- The value a string of bytes spells, least significant byte first. -/
def leValue : List UInt8 → Nat
  | [] => 0
  | b :: bs => b.toNat + 256 * leValue bs

/-- A string that starts with a field. -/
theorem leValue_leBytes_append (k v : Nat) (bs : List UInt8) :
    leValue (leBytes k v ++ bs)
      = v % 256 ^ k + 256 ^ k * leValue bs := by
  induction k generalizing v with
  | zero => rw [Nat.pow_zero, Nat.mod_one, Nat.zero_add, Nat.one_mul]; rfl
  | succ k ih =>
      have hmod : v % (256 * 256 ^ k) = v % 256 + 256 * (v / 256 % 256 ^ k) := Nat.mod_mul
      rw [leBytes, List.cons_append, leValue, ih, UInt8.toNat_ofNat', pow_succ' 256 k,
        hmod, Nat.mul_add, Nat.mul_assoc, Nat.add_assoc]

/-- A field is the value its string spells. -/
theorem le_eq_leValue (m : ByteMem) (a k : Nat) : m.le a k = leValue (m.read a k) := by
  induction k generalizing a with
  | zero => rfl
  | succ k ih =>
      rw [le, ih, read, read, List.range_succ_eq_map, List.map_cons, leValue, Nat.add_zero,
        List.map_map]
      congr 4
      funext i
      simp only [Function.comp, Nat.succ_eq_add_one]
      rw [Nat.add_assoc, Nat.add_comm 1 i]

theorem le_write_self (m : ByteMem) (a : Nat) (bs : List UInt8) :
    (m.write a bs).le a bs.length = leValue bs := by
  rw [le_eq_leValue, read_write_self]

theorem le_writeLE_self (m : ByteMem) (a k v : Nat) (h : v < 256 ^ k) :
    (m.writeLE a k v).le a k = v := by
  rw [writeLE, le_write_leBytes, Nat.mod_eq_of_lt h]

/-- The bytes of a field are its little-endian string. -/
theorem leBytes_le (m : ByteMem) (a k : Nat) : leBytes k (m.le a k) = m.read a k := by
  induction k generalizing a with
  | zero => rfl
  | succ k ih =>
      have hb : (m a).toNat < 256 := (m a).toNat_lt
      -- The first byte is the remainder, and what is left the quotient.
      have hhead : UInt8.ofNat ((m a).toNat + 256 * m.le (a + 1) k) = m a := by
        apply UInt8.toNat_inj.mp
        rw [UInt8.toNat_ofNat']
        omega
      have hdiv : ((m a).toNat + 256 * m.le (a + 1) k) / 256 = m.le (a + 1) k := by
        omega
      rw [le, leBytes, hhead, hdiv, ih]
      refine List.ext_getElem (by simp only [List.length_cons, length_read]) ?_
      intro i h1 h2
      rw [getElem_read]
      cases i with
      | zero => rfl
      | succ i =>
          rw [List.getElem_cons_succ, getElem_read]
          congr 1
          omega

/-- Copying a range onto itself changes nothing. -/
theorem write_read_self (m : ByteMem) (a k : Nat) : m.write a (m.read a k) = m := by
  funext x
  by_cases hx : x < a ∨ a + k ≤ x
  · exact write_outside m a _ x (by rwa [length_read])
  · obtain ⟨i, rfl⟩ : ∃ i, x = a + i := ⟨x - a, by omega⟩
    rw [write_inside m a _ i (by rw [length_read]; omega), getElem_read]

/-- Assigning a field the value it has changes nothing. -/
theorem writeLE_le_self (m : ByteMem) (a k : Nat) : m.writeLE a k (m.le a k) = m := by
  rw [writeLE, leBytes_le, write_read_self]

end ByteMem

end Microv
