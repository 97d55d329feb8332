import Mathlib.Algebra.Group.Nat.Defs
import Mathlib.Logic.Function.Basic

/-!
# I/O Buses

`iobus.c`: the lists of regions that a guest access is looked up in.

A region is linked into its bus's list by a pointer of its own, so the model
keeps the regions in a store indexed by their names and a link is a name or
`none` for the null pointer. Which buses and regions there are is a
parameter. A region's owner and handler never change once it is set up, and
its name stands for both.

A list that leads back to itself is walked for ever. Both walks therefore take
a bound on their steps and answer `none` when it runs out; that a walk ends is
that some bound is enough.

Addresses are computed in 64 bits, and the last address of a region wraps
around when its length is zero.

## Main definitions

* `Region`, `Iobus`: A region, and the buses with their regions.
* `iobusFindRegion`: The first region of a list that covers an address.
* `iobusRegisterRegion`, `iobusDeregisterRegion`: Linking and unlinking.
* `busHandleIo`: The handler an access is given to, with its offset.
-/

namespace Microv

/-- `struct region`, over the names `β` of the buses and `ρ` of the regions. -/
structure Region (β ρ : Type) where
  bus : Option β
  base : Nat
  len : Nat
  next : Option ρ

/-- The buses, `struct bus` by `struct bus`, and the regions in memory. -/
structure Iobus (β ρ : Type) where
  head : β → Option ρ
  regionCount : β → Nat
  region : ρ → Region β ρ

/-- A place that holds a link: the head of a bus or the link of a region. -/
inductive Link (β ρ : Type) where
  | head (b : β)
  | next (r : ρ)

/-- `base + len - 1`, as the machine computes it. -/
def Region.last {β ρ : Type} (r : Region β ρ) : Nat :=
  (r.base + r.len + (2 ^ 64 - 1)) % 2 ^ 64

/-- The test of `iobus_find_region`. -/
def Region.covers {β ρ : Type} (r : Region β ρ) (addr : Nat) : Bool :=
  r.base ≤ addr && addr ≤ r.last

section

variable {β ρ : Type} [DecidableEq β] [DecidableEq ρ]

/-- `*p` for a place `p`. -/
def Iobus.deref (s : Iobus β ρ) : Link β ρ → Option ρ
  | .head b => s.head b
  | .next r => (s.region r).next

/-- `*p = q` for a place `p`. -/
def Iobus.store (s : Iobus β ρ) (q : Option ρ) : Link β ρ → Iobus β ρ
  | .head b => { s with head := Function.update s.head b q }
  | .next r =>
      { s with region := Function.update s.region r { s.region r with next := q } }

/-- The loop of `iobus_find_region`, `*p` being `q`. -/
def iobusFindFrom (s : Iobus β ρ) (addr : Nat) : Nat → Option ρ → Option (Option ρ)
  | 0, _ => none
  | _ + 1, none => some none
  | fuel + 1, some r =>
      if (s.region r).covers addr then some (some r)
      else iobusFindFrom s addr fuel (s.region r).next

/-- `iobus_find_region`. -/
def iobusFindRegion (fuel : Nat) (s : Iobus β ρ) (b : β) (addr : Nat) : Option (Option ρ) :=
  iobusFindFrom s addr fuel (s.head b)

/-- `iobus_register_region`. -/
def iobusRegisterRegion (s : Iobus β ρ) (b : β) (r : ρ) : Iobus β ρ :=
  { head := Function.update s.head b (some r),
    regionCount := Function.update s.regionCount b ((s.regionCount b + 1) % 2 ^ 64),
    region := Function.update s.region r
      { s.region r with next := s.head b, bus := some b } }

/-- The loop of `iobus_deregister_region`: the place that links to `r`, or the
    one that ends the list. -/
def iobusFindLink (s : Iobus β ρ) (r : ρ) : Nat → Link β ρ → Option (Link β ρ)
  | 0, _ => none
  | fuel + 1, p =>
      match s.deref p with
      | none => some p
      | some q => if q = r then some p else iobusFindLink s r fuel (.next q)

/-- `iobus_deregister_region`. The region's own `bus` and `next` stay. -/
def iobusDeregisterRegion (fuel : Nat) (s : Iobus β ρ) (r : ρ) : Option (Iobus β ρ) :=
  match (s.region r).bus with
  | none => some s
  | some b =>
      (iobusFindLink s r fuel (.head b)).map fun p =>
        match s.deref p with
        | none => s
        | some q => s.store (s.region q).next p

/-- `region_init`. -/
def regionInit (s : Iobus β ρ) (r : ρ) (base len : Nat) : Iobus β ρ :=
  { s with region := Function.update s.region r ⟨none, base, len, none⟩ }

/-- What an access to `addr` reaches, given the region a lookup returns. -/
def reached (s : Iobus β ρ) (addr size : Nat) : Option ρ → Option (ρ × Nat)
  | none => none
  | some r =>
      if (addr + size + (2 ^ 64 - 1)) % 2 ^ 64 ≤ (s.region r).last then
        some (r, addr - (s.region r).base)
      else none

/-- `bus_handle_io`: the region whose handler is called and the offset it is
    called with. -/
def busHandleIo (fuel : Nat) (s : Iobus β ρ) (b : β) (addr size : Nat) :
    Option (Option (ρ × Nat)) :=
  (iobusFindRegion fuel s b addr).map (reached s addr size)

end

end Microv
