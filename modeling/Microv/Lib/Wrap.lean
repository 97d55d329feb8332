import Mathlib.Data.Nat.ModEq
import Mathlib.Tactic.Ring

/-!
# Wrap Counters

Positions on a ring, counted without ever coming back to zero. An absolute
position `p` sits at index `p % n`, on lap `p / n`, and a wrap counter is the
parity of the lap. Two parties that agree on the absolute position agree on
both, and the question whether an entry is this lap's or the last one's is a
comparison of one bit.

## Main definitions

* `wrapAt`: The wrap counter at a position.

## Theorems

* `wrapAt_add_size`: One lap later the counter has flipped.
* `mod_succ_of_lt`, `wrapAt_succ_of_lt`: A step inside a lap.
* `mod_succ_of_eq`, `wrapAt_succ_of_eq`: The step past the end.
* `mod_ne_of_lt`: Positions less than a lap apart have different indices.
-/

namespace Microv

/-- The wrap counter at position `p` of a ring of `n`: set on the first lap,
    and flipped on each one after. -/
def wrapAt (n p : Nat) : Bool :=
  p / n % 2 == 0

theorem wrapAt_add_size (n p : Nat) (hn : 0 < n) : wrapAt n (p + n) = !wrapAt n p := by
  unfold wrapAt
  rw [Nat.add_div_right p hn]
  rcases Nat.mod_two_eq_zero_or_one (p / n) with h | h
  · rw [h, Nat.succ_mod_two_eq_one_iff.mpr h]
    decide
  · rw [h, Nat.succ_mod_two_eq_zero_iff.mpr h]
    decide

theorem mod_succ_of_lt (n p : Nat) (h : p % n + 1 < n) : (p + 1) % n = p % n + 1 := by
  rw [Nat.add_mod, Nat.mod_eq_of_lt (show 1 < n by omega), Nat.mod_eq_of_lt h]

theorem div_succ_of_lt (n p : Nat) (h : p % n + 1 < n) : (p + 1) / n = p / n := by
  have hp := Nat.div_add_mod p n
  have hs := Nat.div_add_mod (p + 1) n
  rw [mod_succ_of_lt n p h] at hs
  exact Nat.eq_of_mul_eq_mul_left (show 0 < n by omega) (by omega)

theorem wrapAt_succ_of_lt (n p : Nat) (h : p % n + 1 < n) : wrapAt n (p + 1) = wrapAt n p := by
  unfold wrapAt
  rw [div_succ_of_lt n p h]

theorem mod_succ_of_eq (n p : Nat) (h : p % n + 1 = n) : (p + 1) % n = 0 := by
  have hp := Nat.div_add_mod p n
  rw [show p + 1 = n * (p / n) + n by omega]
  simp only [Nat.add_mod_right, Nat.mul_mod_right]

theorem wrapAt_succ_of_eq (n p : Nat) (h : p % n + 1 = n) : wrapAt n (p + 1) = !wrapAt n p := by
  have hn : 0 < n := by omega
  have hp := Nat.div_add_mod p n
  -- The next position opens a lap, so it is one lap past this lap's start.
  have hstart : p + 1 = n * (p / n) + n := by omega
  have hlap : wrapAt n (n * (p / n)) = wrapAt n p := by
    unfold wrapAt
    rw [Nat.mul_div_cancel_left _ hn]
  rw [hstart, wrapAt_add_size n _ hn, hlap]

/-- Positions less than a lap apart have different indices. -/
theorem mod_ne_of_lt (n p q : Nat) (hpq : p < q) (hlt : q < p + n) : p % n ≠ q % n := by
  intro h
  have hmod : p ≡ q [MOD n] := h
  have hdvd : n ∣ q - p := (Nat.modEq_iff_dvd' (by omega)).mp hmod
  have hle := Nat.le_of_dvd (by omega) hdvd
  omega

end Microv
