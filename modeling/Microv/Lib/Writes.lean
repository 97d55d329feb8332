import Microv.Lib.Image

/-!
# Successive Writes

Memory as it is after strings were written to it one after the other, and the
same memory seen through a map of addresses.

A program that fills in a memory often does so through pointers into another
one. `Embedded` is the relation between the two: on the addresses that are
mapped the outer memory holds what the inner one does, and everywhere else what
it held before. One rule carries a write from the outer memory to the inner
one (`Embedded.write`), and it asks the address map to keep distances inside
the string and to keep addresses apart.

## Main definitions

* `writeAll`: Strings written one after the other.
* `Within`: Every string lies in a range.
* `Embedded`: A memory inside another one.

## Theorems

* `Within.outside`: What lies outside the range stays.
* `Holds.writeAll`: A string stands as long as later ones are apart.
* `Embedded.write`: A write through the map is a write to the inner memory.
-/

namespace Microv

namespace ByteMem

/-- Strings written one after the other, each at its address. -/
def writeAll (m : ByteMem) (ws : List (Nat × List UInt8)) : ByteMem :=
  ws.foldl (fun m w => m.write w.1 w.2) m

/-- Every string lies in `[lo, hi)`. -/
def Within (lo hi : Nat) (ws : List (Nat × List UInt8)) : Prop :=
  ∀ w ∈ ws, lo ≤ w.1 ∧ w.1 + w.2.length ≤ hi

instance (lo hi : Nat) (ws : List (Nat × List UInt8)) : Decidable (Within lo hi ws) :=
  inferInstanceAs (Decidable (∀ w ∈ ws, _))

section Writes

variable {m : ByteMem} {ws ws' : List (Nat × List UInt8)} {lo hi : Nat}

@[simp] theorem writeAll_nil : m.writeAll [] = m := rfl

@[simp] theorem writeAll_cons (w : Nat × List UInt8) :
    m.writeAll (w :: ws) = (m.write w.1 w.2).writeAll ws := rfl

@[simp] theorem writeAll_append : m.writeAll (ws ++ ws') = (m.writeAll ws).writeAll ws' := by
  unfold writeAll
  exact List.foldl_append

/-- The same writes to two memories that agree on a byte. -/
theorem writeAll_congr {m' : ByteMem} (ws : List (Nat × List UInt8)) {x : Nat} (h : m x = m' x) :
    m.writeAll ws x = m'.writeAll ws x := by
  induction ws generalizing m m' with
  | nil => exact h
  | cons w ws ih => exact ih (write_congr m m' w.1 w.2 x h)

/-- What lies outside the range stays. -/
theorem Within.outside (h : Within lo hi ws) {x : Nat} (hx : x < lo ∨ hi ≤ x) :
    m.writeAll ws x = m x := by
  induction ws generalizing m with
  | nil => rfl
  | cons w ws ih =>
      have hw := h w List.mem_cons_self
      rw [writeAll_cons, ih (fun v hv => h v (List.mem_cons_of_mem w hv)),
        write_outside _ _ _ _ (by omega)]

/-- A string stands as long as what is written later is apart from it. -/
theorem Holds.writeAll {a : Nat} {bs : List UInt8} (h : m.Holds a bs) (hw : Within lo hi ws)
    (hap : Apart lo (hi - lo) a bs.length) : (m.writeAll ws).Holds a bs := by
  unfold Apart at hap
  refine Eq.trans (read_congr _ _ a bs.length ?_) h
  intro i hi'
  by_cases hle : hi ≤ lo
  · -- Strings in an empty range are empty.
    refine hw.outside ?_
    by_cases hx : a + i < lo
    · exact Or.inl hx
    · exact Or.inr (by omega)
  · exact hw.outside (by omega)

/-- A field keeps its value likewise. -/
theorem le_writeAll (hw : Within lo hi ws) (a k : Nat) (hap : a + k ≤ lo ∨ hi ≤ a) :
    (m.writeAll ws).le a k = m.le a k := by
  refine le_congr _ _ a k ?_
  intro i hi'
  exact hw.outside (by omega)

end Writes

/-- On the addresses in `P`, mapped by `f`, the memory `mem` holds what `m` does,
    and elsewhere what `mem₀` did. -/
structure Embedded (P : Nat → Prop) (f : Nat → Nat) (mem₀ mem m : ByteMem) : Prop where
  seen : ∀ g, P g → mem (f g) = m g
  kept : ∀ x, (∀ g, P g → f g ≠ x) → mem x = mem₀ x

section Embedded

variable {P : Nat → Prop} {f : Nat → Nat} {mem₀ mem m : ByteMem}

theorem Embedded.start (P : Nat → Prop) (f : Nat → Nat) (mem : ByteMem) :
    Embedded P f mem mem fun g => mem (f g) :=
  ⟨fun _ _ => rfl, fun _ _ => rfl⟩

/-- A write through the map is a write to the inner memory. -/
theorem Embedded.write (h : Embedded P f mem₀ mem m)
    (hinj : ∀ g g', P g → P g' → f g = f g' → g = g') (a : Nat) (bs : List UInt8)
    (hin : ∀ i, i < bs.length → P (a + i)) (hshift : ∀ i, i < bs.length → f (a + i) = f a + i) :
    Embedded P f mem₀ (mem.write (f a) bs) (m.write a bs) := by
  constructor
  · intro g hg
    by_cases hx : g < a ∨ a + bs.length ≤ g
    · rw [write_outside m a bs g hx, ← h.seen g hg]
      refine write_outside mem (f a) bs (f g) ?_
      -- An address that met the string would be one of its own.
      by_contra hmeet
      obtain ⟨i, hi⟩ : ∃ i, f g = f a + i := ⟨f g - f a, by omega⟩
      have hlen : i < bs.length := by omega
      have hsame := hinj g (a + i) hg (hin i hlen) (hi.trans (hshift i hlen).symm)
      omega
    · obtain ⟨i, rfl⟩ : ∃ i, g = a + i := ⟨g - a, by omega⟩
      have hlen : i < bs.length := by omega
      rw [hshift i hlen, write_inside mem (f a) bs i hlen, write_inside m a bs i hlen]
  · intro x hx
    rw [← h.kept x hx]
    refine write_outside mem (f a) bs x ?_
    by_contra hmeet
    obtain ⟨i, rfl⟩ : ∃ i, x = f a + i := ⟨x - f a, by omega⟩
    have hlen : i < bs.length := by omega
    exact hx (a + i) (hin i hlen) (hshift i hlen)

end Embedded

end ByteMem

end Microv
