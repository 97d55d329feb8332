import Microv.Lib.Bytes

/-!
# Page Table Walks

The four-level walk a 64-bit x86 processor makes through memory to find the
physical address behind a virtual one.

A table is 512 words of eight bytes. At level `l` the walk takes nine bits of
the virtual address, from bit `12 + 9 * l` up, as an index into the table, and
an entry that is not a leaf gives the table of the next level down. An entry is
a leaf at level zero, and above that where its size bit says so, which makes a
page of `2 ^ (12 + 9 * l)` bytes. The size bit of a top entry and the low
address bits of a large page are reserved, and a walk that finds one of them
set ends in a fault of its own.

A mapping is writable when every entry on the way is. The access and privilege
bits, and the bits a processor may keep for itself, take no part.

## Main definitions

* `Walk`: The outcome of a walk.
* `pageIndex`: The index into the table of a level.
* `pageEntry`: An entry of a table.
* `walkFrom`: The walk from a level down.
* `pageWalk`: The walk from the top table.
* `Canonical`: The virtual addresses a processor accepts.

## Theorems

* `walkFrom_absent`: An entry that is not present ends the walk.
* `walkFrom_table`: A table entry hands the walk to the next level.
* `walkFrom_large`: A large page.
* `lt_of_pageIndex_eq_zero`: The addresses with both top indices zero.
-/

namespace Microv

/-- The outcome of a walk: an entry that is not present, one with a reserved
    bit set, or a page. -/
inductive Walk where
  | absent
  | reserved
  | page (size phys : Nat) (writable : Bool)
  deriving DecidableEq, Repr

/-- The bits of the virtual address that index the table at a level. -/
def pageIndex (va level : Nat) : Nat :=
  va / 2 ^ (12 + 9 * level) % 512

/-- One entry of the table at `table`. -/
def pageEntry (m : ByteMem) (table index : Nat) : Nat :=
  m.le (table + 8 * index) 8

section Fields

-- The present, writable and size bits, and the address of the next table.
def entryPresent (e : Nat) : Bool := e.testBit 0

def entryWritable (e : Nat) : Bool := e.testBit 1

def entryLarge (e : Nat) : Bool := e.testBit 7

def entryTable (e : Nat) : Nat := e / 2 ^ 12 % 2 ^ 40 * 2 ^ 12

/-- The page a leaf at a level gives: the address bits of the entry, and the
    offset of the virtual address. -/
def entryPage (va level e : Nat) (writable : Bool) : Walk :=
  .page (2 ^ (12 + 9 * level))
    (e / 2 ^ (12 + 9 * level) % 2 ^ (40 - 9 * level) * 2 ^ (12 + 9 * level) +
      va % 2 ^ (12 + 9 * level)) (writable && entryWritable e)

/-- The address bits a large page leaves unused, between the attribute bit and
    the frame. -/
def entryReserved (level e : Nat) : Bool :=
  decide (e / 2 ^ 13 % 2 ^ (9 * level - 1) ≠ 0)

end Fields

/-- The walk from the table of a level down; `writable` is what the entries
    above allow. -/
def walkFrom (m : ByteMem) (va : Nat) : Nat → Nat → Bool → Walk
  | 0, table, writable =>
      let e := pageEntry m table (pageIndex va 0)
      if entryPresent e then entryPage va 0 e writable else .absent
  | level + 1, table, writable =>
      let e := pageEntry m table (pageIndex va (level + 1))
      if entryPresent e then
        if entryLarge e then
          if level + 1 = 3 ∨ entryReserved (level + 1) e then .reserved
          else entryPage va (level + 1) e writable
        else walkFrom m va level (entryTable e) (writable && entryWritable e)
      else .absent

/-- The walk from the top table. -/
def pageWalk (m : ByteMem) (top va : Nat) : Walk :=
  walkFrom m va 3 top true

/-- Bit 47 is repeated in every bit above it. -/
def Canonical (va : Nat) : Prop :=
  va < 2 ^ 47 ∨ 2 ^ 64 - 2 ^ 47 ≤ va ∧ va < 2 ^ 64

section Steps

variable (m : ByteMem) (va level table : Nat) (writable : Bool)

theorem walkFrom_absent
    (h : entryPresent (pageEntry m table (pageIndex va (level + 1))) = false) :
    walkFrom m va (level + 1) table writable = .absent := by
  simp only [walkFrom, h, Bool.false_eq_true, if_false]

theorem walkFrom_table (e : Nat) (he : pageEntry m table (pageIndex va (level + 1)) = e)
    (hp : entryPresent e = true) (hl : entryLarge e = false) :
    walkFrom m va (level + 1) table writable
      = walkFrom m va level (entryTable e) (writable && entryWritable e) := by
  simp only [walkFrom, he, hp, hl, Bool.false_eq_true, if_false, if_true]

theorem walkFrom_large (e : Nat) (he : pageEntry m table (pageIndex va (level + 1)) = e)
    (hp : entryPresent e = true) (hl : entryLarge e = true) (htop : level + 1 ≠ 3)
    (hr : entryReserved (level + 1) e = false) :
    walkFrom m va (level + 1) table writable = entryPage va (level + 1) e writable := by
  simp only [walkFrom, he, hp, hl, hr, htop, Bool.false_eq_true, or_self, if_false, if_true]

end Steps

theorem pageIndex_lt (va level : Nat) : pageIndex va level < 512 :=
  Nat.mod_lt _ (by decide)

/-- The first entry of the first two tables serves the lowest `2 ^ 30`
    addresses. -/
theorem pageIndex_eq_zero_of_lt (va : Nat) (h : va < 2 ^ 30) :
    pageIndex va 3 = 0 ∧ pageIndex va 2 = 0 := by
  unfold pageIndex
  omega

/-- It serves no other canonical address. -/
theorem lt_of_pageIndex_eq_zero (va : Nat) (hc : Canonical va) (h3 : pageIndex va 3 = 0)
    (h2 : pageIndex va 2 = 0) : va < 2 ^ 30 := by
  unfold pageIndex at h3 h2
  unfold Canonical at hc
  omega

end Microv
