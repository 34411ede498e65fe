import Mathlib.Algebra.Ring.Nat

/-!
# Bump arithmetic (`arena.rs`, `region.rs`)

The address arithmetic that `Arena::alloc` and `Region::try_alloc` share, on a 64-bit
`usize`.
-/

namespace Samsara

def ALIGN : Nat := 8

/-- One more than `usize::MAX`. -/
def usizeSize : Nat := 2 ^ 64

/-- `(offset + (ALIGN - 1)) & !(ALIGN - 1)` -/
def aligned (offset : Nat) : Nat :=
  (offset + (ALIGN - 1)) % usizeSize &&& (usizeSize - 1 - (ALIGN - 1))

def checked_add (a b : Nat) : Option Nat := if a + b < usizeSize then some (a + b) else none

theorem and_not_seven {x : Nat} (h : x < 2 ^ 64) : x &&& (2 ^ 64 - 1 - 7) = x / 8 * 8 := by
  refine Nat.eq_of_testBit_eq fun i => ?_
  have hmask : (2 ^ 64 - 1 - 7 : Nat).testBit i = (decide (i < 64) && !decide (i < 3)) := by
    rw [show (2 ^ 64 - 1 - 7 : Nat) = 2 ^ 64 - (7 + 1) by rfl,
      Nat.testBit_two_pow_sub_succ (by decide), show (7 : Nat) = 2 ^ 3 - 1 by rfl,
      Nat.testBit_two_pow_sub_one]
  have hdiv : (x / 8 * 8).testBit i = (decide (3 ≤ i) && x.testBit i) := by
    rw [show x / 8 * 8 = (x >>> 3) <<< 3 by rw [Nat.shiftRight_eq_div_pow, Nat.shiftLeft_eq],
      Nat.testBit_shiftLeft, Nat.testBit_shiftRight]
    by_cases hi : 3 ≤ i
    · simp [hi, Nat.add_sub_cancel' hi]
    · simp [hi]
  rw [Nat.testBit_and, hmask, hdiv]
  by_cases hi : i < 64
  · by_cases h3 : 3 ≤ i <;> simp [hi, h3]
    omega
  · rw [Nat.testBit_lt_two_pow (Nat.lt_of_lt_of_le h (Nat.pow_le_pow_right (by decide) (by omega)))]
    simp

/-- `aligned` rounds up to a multiple of 8, unless the addition wraps. -/
theorem aligned_eq_mod (offset : Nat) : aligned offset = (offset + 7) % usizeSize / 8 * 8 :=
  and_not_seven (Nat.mod_lt _ (by decide))

theorem aligned_eq {offset : Nat} (h : offset + 7 < usizeSize) :
    aligned offset = (offset + 7) / 8 * 8 := by
  rw [aligned_eq_mod, Nat.mod_eq_of_lt h]

theorem le_aligned {offset : Nat} (h : offset + 7 < usizeSize) : offset ≤ aligned offset := by
  rw [aligned_eq h]
  omega

theorem dvd_aligned (offset : Nat) : 8 ∣ aligned offset := by
  rw [aligned_eq_mod]
  exact Nat.dvd_mul_left _ _

theorem checked_add_eq_some {a b c : Nat} :
    checked_add a b = some c ↔ a + b < usizeSize ∧ c = a + b := by
  unfold checked_add
  split <;> simp [*, eq_comm]

end Samsara
