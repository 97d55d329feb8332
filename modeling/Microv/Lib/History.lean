import Microv.Lib.Bytes

/-!
# Write Histories

What is held after a sequence of writes, said without running them.

In a byte array each byte is the latest write's that covers it, or the initial
one.

`latest` looks for that write from the end of the history. `latest_append`
says that carrying out one more write is the same as adding it to the
history, so a program that keeps an array by writing to it refines the
history by one application of the lemma for each write.

A register whose writes count only under some condition is the other case.
Whether a write counted can depend on everything before it, so `lastOf` goes
through a history with the newest event first and hands each event its past.

## Main definitions

* `Put`: A string and where it is written.
* `latest`: The array after a history.
* `lastOf`: The newest event of a history that counts.

## Theorems

* `latest_append`: One more write.
* `lastOf_cons_getD`: One more event.
-/

namespace Microv

/-- A string and the address it is written to. -/
structure Put where
  addr : Nat
  bytes : List UInt8

/-- The write changes the byte at `x`. -/
def Put.covers (w : Put) (x : Nat) : Bool :=
  decide (w.addr ≤ x) && decide (x < w.addr + w.bytes.length)

/-- Each byte is that of the latest write covering it, or the initial one. -/
def latest (init : ByteMem) (ws : List Put) : ByteMem := fun x =>
  match ws.reverse.find? (fun w => w.covers x) with
  | some w => w.bytes.getD (x - w.addr) 0
  | none => init x

theorem latest_append (init : ByteMem) (ws : List Put) (w : Put) :
    latest init (ws ++ [w]) = (latest init ws).write w.addr w.bytes := by
  funext x
  unfold latest
  rw [List.reverse_concat, List.find?_cons]
  cases hc : w.covers x with
  | true =>
      simp only [Put.covers, Bool.and_eq_true, decide_eq_true_eq] at hc
      obtain ⟨i, rfl⟩ : ∃ i, x = w.addr + i := ⟨x - w.addr, by omega⟩
      have hi : i < w.bytes.length := by omega
      rw [ByteMem.write_inside _ _ _ i hi]
      simp only [Nat.add_sub_cancel_left, List.getD_eq_getElem _ _ hi]
  | false =>
      simp only [Put.covers, Bool.and_eq_false_iff, decide_eq_false_iff_not] at hc
      rw [ByteMem.write_outside _ _ _ x (by omega)]

section Events

variable {ε α : Type*} (f : List ε → ε → Option α)

/-- What the newest event says that says something; `f` is given an event and
    its past, newest first. -/
def lastOf : List ε → Option α
  | [] => none
  | e :: past => (f past e).or (lastOf past)

theorem lastOf_cons_getD (e : ε) (past : List ε) (a : α) :
    (lastOf f (e :: past)).getD a = (f past e).getD ((lastOf f past).getD a) := by
  rw [lastOf]
  cases f past e <;> rfl

end Events

end Microv
