import Mathlib.Algebra.Group.Nat.Defs

/-!
# Bit-Fields

A word cut into fields, and put together from them.

Source code says it with masks, shifts and disjunctions, and arithmetic says
it with quotients, remainders and sums. The lemmas here turn the first into
the second, where a linear arithmetic procedure can take over: a mask is a
remainder, and a disjunction of parts that do not overlap is a sum.

## Main definitions

* `bits`: A field of a word.

## Theorems

* `bits_bits`: A field of a field.
* `bits_add`: Two fields side by side.
* `and_mask`: Masking a field in place.
* `or_eq_add`: Joining two parts that do not overlap.
-/

namespace Microv

/-- The `n` bits of `x` from bit `i` on. -/
def bits (x i n : Nat) : Nat :=
  x / 2 ^ i % 2 ^ n

theorem bits_lt (x i n : Nat) : bits x i n < 2 ^ n :=
  Nat.mod_lt _ (Nat.two_pow_pos n)

theorem bits_eq_self {x n : Nat} (h : x < 2 ^ n) : bits x 0 n = x := by
  rw [bits, Nat.pow_zero, Nat.div_one, Nat.mod_eq_of_lt h]

/-- A field of a field. -/
theorem bits_bits (x i : Nat) {n j m : Nat} (h : j + m ≤ n) :
    bits (bits x i n) j m = bits x (i + j) m := by
  have hn : 2 ^ n = 2 ^ j * 2 ^ (n - j) := by
    rw [← Nat.pow_add]
    congr 1
    omega
  unfold bits
  rw [hn, Nat.mod_mul_right_div_self, Nat.div_div_eq_div_mul, ← Nat.pow_add,
    Nat.mod_mod_of_dvd _ (Nat.pow_dvd_pow 2 (by omega))]

/-- A field after a shift. -/
theorem bits_shiftRight (x k i n : Nat) : bits (x >>> k) i n = bits x (k + i) n := by
  rw [bits, bits, Nat.shiftRight_eq_div_pow, Nat.div_div_eq_div_mul, ← Nat.pow_add]

/-- Two fields side by side are one. -/
theorem bits_add (x i n m : Nat) : bits x i n + bits x (i + n) m * 2 ^ n = bits x i (n + m) := by
  unfold bits
  rw [Nat.pow_add 2 i, ← Nat.div_div_eq_div_mul, Nat.pow_add 2 n, Nat.mod_mul, Nat.mul_comm (2 ^ n)]

/-- A mask of `n` ones from bit `i` on leaves the field in its place. -/
theorem and_mask (x i n : Nat) : x &&& (2 ^ n - 1) * 2 ^ i = bits x i n * 2 ^ i := by
  apply Nat.eq_of_testBit_eq
  intro k
  rw [Nat.testBit_and, Nat.testBit_mul_two_pow, Nat.testBit_mul_two_pow, bits,
    Nat.testBit_two_pow_sub_one, Nat.testBit_mod_two_pow, Nat.testBit_div_two_pow]
  by_cases hk : i ≤ k
  · rw [Nat.sub_add_cancel hk]
    simp only [hk, decide_true, Bool.true_and]
    exact Bool.and_comm _ _
  · simp only [hk, decide_false, Bool.false_and, Bool.and_false]

/-- Parts that do not overlap are joined by adding them. -/
theorem or_eq_add (a : Nat) {b i : Nat} (hb : b < 2 ^ i) : a * 2 ^ i ||| b = a * 2 ^ i + b := by
  rw [Nat.mul_comm a, Nat.two_pow_add_eq_or_of_lt hb]

end Microv
