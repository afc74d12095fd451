/-
Buffers of bytes, and little-endian words in them. The size of a buffer is a parameter.

- `byteAt`, `slice`: reading a byte, or m bytes from an offset. Outside the buffer a byte reads as 0.
- `patch`: copying bytes into a buffer from an offset. Bytes that fall outside are dropped.
- `le`, `leBytes`: the number that bytes stand for, and the k bytes of a number.
- `word k`, `putWord k`: a k-byte word in a buffer.
- `bit`, `setBit`, `clearBit`: bit i of a buffer is bit i % 8 of byte i / 8.

Results:
- `slice_patch_self`, `slice_patch_disjoint`: a slice after a copy to the same place or to another;
- `word_putWord`, `word_putWord_disjoint`: the same for words;
- `bit_setBit`, `bit_clearBit`: the same for bits.
-/
import Mathlib.Data.Nat.Bitwise
import Mathlib.Tactic

namespace Xv6.Bytes

open List

/-- a buffer of n bytes -/
abbrev Buf (n : ℕ) := Fin n → UInt8

variable {n : ℕ} {b : Buf n} {bs : List UInt8} {off at' i j k m v : ℕ}

/-! ## Bytes -/

def byteAt (b : Buf n) (i : ℕ) : UInt8 := if h : i < n then b ⟨i, h⟩ else 0

def slice (b : Buf n) (off m : ℕ) : List UInt8 := (List.range m).map fun k => byteAt b (off + k)

def patch (b : Buf n) (off : ℕ) (bs : List UInt8) : Buf n :=
  fun i => if off ≤ i.val ∧ i.val < off + bs.length then bs.getD (i.val - off) 0 else b i

@[simp] theorem slice_length : (slice b off m).length = m := by simp [slice]

@[simp] theorem getElem_slice (h : i < (slice b off m).length) : (slice b off m)[i] = byteAt b (off + i) := by simp [slice]

theorem byteAt_patch (h : i < n) :
    byteAt (patch b off bs) i = if off ≤ i ∧ i < off + bs.length then bs.getD (i - off) 0 else byteAt b i := by
  simp [byteAt, patch, h]

theorem byteAt_patch_outside (h : i < off ∨ off + bs.length ≤ i) : byteAt (patch b off bs) i = byteAt b i := by
  by_cases hi : i < n
  · rw [byteAt_patch hi, if_neg (by omega)]
  · simp [byteAt, hi]

/-- a copy read back -/
theorem slice_patch_self (h : off + bs.length ≤ n) : slice (patch b off bs) off bs.length = bs := by
  refine ext_getElem (by simp) fun i h1 h2 => ?_
  rw [getElem_slice, byteAt_patch (by omega), if_pos (by omega)]
  simp [h2]

/-- a copy to another place -/
theorem slice_patch_disjoint (h : at' + m ≤ off ∨ off + bs.length ≤ at') :
    slice (patch b off bs) at' m = slice b at' m := by
  refine ext_getElem (by simp) fun i h1 h2 => ?_
  rw [getElem_slice, getElem_slice]
  rw [slice_length] at h1
  exact byteAt_patch_outside (by omega)

/-- a part of what was copied -/
theorem slice_patch_within {o : ℕ} (h : off + bs.length ≤ n) (ho : o + m ≤ bs.length) :
    slice (patch b off bs) (off + o) m = (bs.drop o).take m := by
  refine ext_getElem (by simp; omega) fun i h1 h2 => ?_
  rw [slice_length] at h1
  rw [getElem_slice, byteAt_patch (by omega), if_pos (by omega)]
  simp only [getElem_take, getElem_drop]
  rw [show off + o + i - off = o + i by omega, getD_eq_getElem]

/-! ## Words -/

/-- the number that the bytes stand for -/
def le : List UInt8 → ℕ
  | [] => 0
  | x :: xs => x.toNat + 256 * le xs

/-- the k low bytes of v -/
def leBytes : ℕ → ℕ → List UInt8
  | 0, _ => []
  | k + 1, v => UInt8.ofNat v :: leBytes k (v / 256)

@[simp] theorem leBytes_length (k v : ℕ) : (leBytes k v).length = k := by
  induction k generalizing v with
  | zero => rfl
  | succ k ih => simp [leBytes, ih]

theorem le_lt (bs : List UInt8) : le bs < 256 ^ bs.length := by
  induction bs with
  | nil => simp [le]
  | cons x xs ih =>
    have hx : x.toNat < 256 := x.toNat_lt
    simp only [le, length_cons, pow_succ]
    omega

theorem le_leBytes (k v : ℕ) : le (leBytes k v) = v % 256 ^ k := by
  induction k generalizing v with
  | zero => simp [leBytes, le, Nat.mod_one]
  | succ k ih =>
    have e : v % 256 ^ (k + 1) = v % 256 + 256 * (v / 256 % 256 ^ k) := by
      rw [pow_succ, mul_comm (256 ^ k) 256, Nat.mod_mul]
    rw [leBytes, le, ih, e]
    simp

/-- the k-byte word at an offset -/
def word (k : ℕ) (b : Buf n) (off : ℕ) : ℕ := le (slice b off k)

def putWord (k : ℕ) (b : Buf n) (off v : ℕ) : Buf n := patch b off (leBytes k v)

theorem word_lt (k : ℕ) (b : Buf n) (off : ℕ) : word k b off < 256 ^ k := by
  simpa [word] using le_lt (slice b off k)

theorem word_putWord (h : off + k ≤ n) (hv : v < 256 ^ k) : word k (putWord k b off v) off = v := by
  have e : slice (patch b off (leBytes k v)) off (leBytes k v).length = leBytes k v := slice_patch_self (by simpa using h)
  rw [leBytes_length] at e
  rw [word, putWord, e, le_leBytes, Nat.mod_eq_of_lt hv]

theorem word_putWord_disjoint (h : at' + m ≤ off ∨ off + k ≤ at') : word m (putWord k b off v) at' = word m b at' := by
  rw [word, putWord, slice_patch_disjoint (by simpa using h), word]

/-! ## Bits -/

/-- `1 << k` as a byte -/
def mask (k : ℕ) : UInt8 := 1 <<< UInt8.ofNat k

/-- bit i of the buffer -/
def bit (b : Buf n) (i : ℕ) : Bool := byteAt b (i / 8) &&& mask (i % 8) ≠ 0

def setBit (b : Buf n) (i : ℕ) : Buf n := patch b (i / 8) [byteAt b (i / 8) ||| mask (i % 8)]

def clearBit (b : Buf n) (i : ℕ) : Buf n := patch b (i / 8) [byteAt b (i / 8) &&& ~~~ mask (i % 8)]

theorem mask_toNat (h : k < 8) : (mask k).toNat = 2 ^ k := by
  have : (2 : ℕ) ^ k < 2 ^ 8 := Nat.pow_lt_pow_right (by norm_num) h
  have h8 : k % 256 = k := Nat.mod_eq_of_lt (by omega)
  simp [mask, Nat.shiftLeft_eq, h8, Nat.mod_eq_of_lt h]
  omega

theorem and_mask (x : UInt8) (h : k < 8) : x &&& mask k ≠ 0 ↔ x.toNat.testBit k = true := by
  rw [ne_eq, ← UInt8.toNat_inj, UInt8.toNat_and, mask_toNat h, Nat.and_two_pow]
  cases x.toNat.testBit k <;> simp

theorem or_mask (x : UInt8) (hj : j < 8) (hk : k < 8) : (x ||| mask k) &&& mask j ≠ 0 ↔ x &&& mask j ≠ 0 ∨ j = k := by
  rw [and_mask _ hj, and_mask _ hj, UInt8.toNat_or, Nat.testBit_or, mask_toNat hk, Nat.testBit_two_pow,
    Bool.or_eq_true, decide_eq_true_eq, eq_comm (a := k)]

theorem andNot_mask (x : UInt8) (hj : j < 8) (hk : k < 8) :
    (x &&& ~~~ mask k) &&& mask j ≠ 0 ↔ x &&& mask j ≠ 0 ∧ j ≠ k := by
  have hlt : (2 : ℕ) ^ k < 2 ^ 8 := Nat.pow_lt_pow_right (by norm_num) hk
  have hnot : (~~~ mask k).toNat = 2 ^ 8 - (2 ^ k + 1) := by
    rw [UInt8.toNat_not, mask_toNat hk, UInt8.size]
    omega
  rw [and_mask _ hj, and_mask _ hj, UInt8.toNat_and, Nat.testBit_and, hnot, Nat.testBit_two_pow_sub_succ hlt,
    Nat.testBit_two_pow, Bool.and_eq_true, decide_eq_true hj, Bool.true_and, Bool.not_eq_true', decide_eq_false_iff_not,
    eq_comm (a := k)]

theorem bit_patch (h : i / 8 < n) (x : UInt8) : bit (patch b (i / 8) [x]) j =
    if j / 8 = i / 8 then decide (x &&& mask (j % 8) ≠ 0) else bit b j := by
  split_ifs with hj
  · rw [bit, byteAt_patch (by omega), if_pos (by simp; omega), hj]
    simp
  · rw [bit, byteAt_patch_outside (by simp; omega), bit]

theorem bit_setBit (h : i / 8 < n) : bit (setBit b i) j = (bit b j || decide (j = i)) := by
  rw [setBit, bit_patch h]
  split_ifs with hj
  · have e : j % 8 = i % 8 ↔ j = i := by omega
    rw [← hj, Bool.eq_iff_iff, decide_eq_true_eq, or_mask _ (by omega) (by omega), e, bit]
    simp
  · have hne : j ≠ i := fun e => hj (by rw [e])
    simp [hne]

theorem bit_clearBit (h : i / 8 < n) : bit (clearBit b i) j = (bit b j && decide (j ≠ i)) := by
  rw [clearBit, bit_patch h]
  split_ifs with hj
  · have e : j % 8 = i % 8 ↔ j = i := by omega
    rw [← hj, Bool.eq_iff_iff, decide_eq_true_eq, andNot_mask _ (by omega) (by omega), ne_eq (j % 8), e, bit]
    simp
  · have hne : j ≠ i := fun e => hj (by rw [e])
    simp [hne]

end Xv6.Bytes
