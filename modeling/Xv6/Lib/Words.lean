/-
Machine words: the values that 32-bit integers keep of a number.

`int32_eq` and `uint32_eq` say that a number in range is kept, `uint32_lt` that a word is one; `int32_inj`: numbers from 0 to
2^32 stand for different words; `int32_add`: a counter can be cut to a word after each step or at the end.
-/
import Mathlib.Tactic

namespace Xv6

/-- the value of x in a 32-bit two's-complement word -/
@[irreducible] def int32 (x : Int) : Int := Int.bmod x (2 ^ 32)

/-- the value of n in a 32-bit unsigned word -/
@[irreducible] def uint32 (n : ℕ) : ℕ := n % 2 ^ 32

theorem int32_eq {x : Int} (h : -2 ^ 31 ≤ x) (h' : x < 2 ^ 31) : int32 x = x := by
  unfold int32
  exact Int.bmod_eq_of_le (by omega) (by omega)

theorem int32_zero : int32 0 = 0 := int32_eq (by norm_num) (by norm_num)

/-- the upper half of the words are the negative numbers -/
theorem int32_high {x : Int} (h : 2 ^ 31 ≤ x) (h' : x < 2 ^ 32) : int32 x = x - 2 ^ 32 := by
  unfold int32
  have e : Int.bmod x (2 ^ 32) = Int.bmod (x - 2 ^ 32) (2 ^ 32) := (Int.sub_bmod_right x (2 ^ 32)).symm
  exact e.trans (Int.bmod_eq_of_le (by omega) (by omega))

theorem int32_cases {x : Int} (h : 0 ≤ x) (h' : x < 2 ^ 32) : int32 x = x ∨ 2 ^ 31 ≤ x ∧ int32 x = x - 2 ^ 32 := by
  by_cases hx : x < 2 ^ 31
  · exact .inl (int32_eq (by omega) hx)
  · exact .inr ⟨by omega, int32_high (by omega) h'⟩

theorem int32_add (x y : Int) : int32 (int32 x + y) = int32 (x + y) := by
  unfold int32
  exact Int.bmod_add_bmod

/-- the counter values below 2^32 stand for different nonzero words -/
theorem int32_inj {x y : Int} (hx : 0 ≤ x) (hx' : x < 2 ^ 32) (hy : 0 ≤ y) (hy' : y < 2 ^ 32) (h : int32 x = int32 y) :
    x = y := by
  rcases int32_cases hx hx' with ex | ⟨-, ex⟩ <;> rcases int32_cases hy hy' with ey | ⟨-, ey⟩ <;> omega

theorem uint32_lt (n : ℕ) : uint32 n < 2 ^ 32 := by
  unfold uint32
  exact Nat.mod_lt n (by decide)

theorem uint32_eq {n : ℕ} (h : n < 2 ^ 32) : uint32 n = n := by
  unfold uint32
  exact Nat.mod_eq_of_lt h

/-- a sum that is not below its first part has not wrapped around -/
theorem uint32_add {m n : ℕ} (hm : m < 2 ^ 32) (hn : n < 2 ^ 32) (h : m ≤ uint32 (m + n)) : uint32 (m + n) = m + n := by
  unfold uint32 at h ⊢
  omega

end Xv6
