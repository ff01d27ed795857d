import Mathlib.Tactic.Ring
import Mathlib.Tactic.NormNum

/-!
# Fixed-width unsigned arithmetic on naturals

Machine integers are naturals; a value is reduced to its width where the program stores it
or computes with it. The rules below remove a reduction whose operand already fits.
-/

namespace OfsConvert

/-- The value of `n` in a 16-bit unsigned integer. -/
def u16 (n : ℕ) : ℕ := n % 2 ^ 16

/-- The value of `n` in a 32-bit unsigned integer. -/
def u32 (n : ℕ) : ℕ := n % 2 ^ 32

/-- The value of `n` in a 64-bit unsigned integer. -/
def u64 (n : ℕ) : ℕ := n % 2 ^ 64

/-- Subtraction of 32-bit unsigned integers, which wraps below zero. -/
def sub32 (a b : ℕ) : ℕ := (2 ^ 32 + a - b) % 2 ^ 32

/-- Subtraction of 64-bit unsigned integers, which wraps below zero. -/
def sub64 (a b : ℕ) : ℕ := (2 ^ 64 + a - b) % 2 ^ 64

/-- A number of 16 bits is not cut. -/
theorem u16_of_lt {n : ℕ} (h : n < 2 ^ 16) : u16 n = n := Nat.mod_eq_of_lt h

/-- A number of 32 bits is not cut. -/
theorem u32_of_lt {n : ℕ} (h : n < 2 ^ 32) : u32 n = n := Nat.mod_eq_of_lt h

/-- A number of 64 bits is not cut. -/
theorem u64_of_lt {n : ℕ} (h : n < 2 ^ 64) : u64 n = n := Nat.mod_eq_of_lt h

/-- A cut number has 16 bits. -/
@[simp] theorem u16_lt (n : ℕ) : u16 n < 2 ^ 16 := Nat.mod_lt _ (by norm_num)

/-- A cut number has 32 bits. -/
@[simp] theorem u32_lt (n : ℕ) : u32 n < 2 ^ 32 := Nat.mod_lt _ (by norm_num)

/-- A cut number has 64 bits. -/
@[simp] theorem u64_lt (n : ℕ) : u64 n < 2 ^ 64 := Nat.mod_lt _ (by norm_num)

/-- A 32-bit difference that does not wrap is the difference of naturals. -/
theorem sub32_of_le {a b : ℕ} (hba : b ≤ a) (ha : a < 2 ^ 32) : sub32 a b = a - b := by
  unfold sub32
  omega

/-- A 64-bit difference that does not wrap is the difference of naturals. -/
theorem sub64_of_le {a b : ℕ} (hba : b ≤ a) (ha : a < 2 ^ 64) : sub64 a b = a - b := by
  unfold sub64
  omega

/-- A 32-bit difference has 32 bits. -/
@[simp] theorem sub32_lt (a b : ℕ) : sub32 a b < 2 ^ 32 := Nat.mod_lt _ (by norm_num)

/-- A 64-bit difference has 64 bits. -/
@[simp] theorem sub64_lt (a b : ℕ) : sub64 a b < 2 ^ 64 := Nat.mod_lt _ (by norm_num)

/-- Division rounding up, `⌈a / b⌉`. -/
def ceilDiv (a b : ℕ) : ℕ := (a + b - 1) / b

/-- Rounding up is one more than rounding the predecessor down. -/
theorem ceilDiv_eq_pred_div {a b : ℕ} (ha : 0 < a) (hb : 0 < b) :
    ceilDiv a b = (a - 1) / b + 1 := by
  unfold ceilDiv
  rw [show a + b - 1 = (a - 1) + b by omega, Nat.add_div_right _ hb]

/-- The rounded-up quotient covers the dividend. -/
theorem le_ceilDiv_mul {a b : ℕ} (hb : 0 < b) : a ≤ ceilDiv a b * b := by
  rcases Nat.eq_zero_or_pos a with rfl | ha
  · exact Nat.zero_le _
  · rw [ceilDiv_eq_pred_div ha hb]
    have hmod := Nat.mod_lt (a - 1) hb
    have hdiv := Nat.div_add_mod' (a - 1) b
    rw [Nat.add_mul, Nat.one_mul]
    omega

/-- One unit less no longer covers the dividend. -/
theorem ceilDiv_pred_mul_lt {a b : ℕ} (ha : 0 < a) (hb : 0 < b) : (ceilDiv a b - 1) * b < a := by
  rw [ceilDiv_eq_pred_div ha hb, Nat.add_sub_cancel]
  have hdiv := Nat.div_mul_le_self (a - 1) b
  omega

end OfsConvert
