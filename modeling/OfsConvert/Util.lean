import OfsConvert.Lib.Word
import Mathlib.Data.Nat.Bitwise

/-!
# Counters split over a low and a high field

`util.cpp` overloads its helpers on the widths of the two halves. The 16-bit `from_lo_hi` is
defined in `util.cpp` but not declared in `util.h`: inside `util.cpp` a pair of 16-bit halves
selects it, in every other file the call resolves to the 32-bit overload.
-/

namespace OfsConvert

/-- `from_lo_hi(uint32_t, uint32_t)`, the only overload declared in `util.h`. -/
def fromLoHi (lo hi : ℕ) : ℕ := hi <<< 32 ||| lo

/-- `from_lo_hi(uint16_t, uint16_t)`, visible inside `util.cpp` only. -/
def fromLoHi16 (lo hi : ℕ) : ℕ := hi <<< 16 ||| lo

/-- `set_lo_hi(uint32_t&, uint16_t&, uint64_t)`; the pair is `(lo, hi)`. -/
def setLoHi48 (value : ℕ) : ℕ × ℕ := (value &&& 0xFFFFFFFF, u16 (value >>> 32))

/-- `set_lo_hi(uint32_t&, uint32_t&, uint64_t)`. -/
def setLoHi64 (value : ℕ) : ℕ × ℕ := (value &&& 0xFFFFFFFF, u32 (value >>> 32))

/-- `set_lo_hi(uint16_t&, uint16_t&, uint32_t)`. -/
def setLoHi32 (value : ℕ) : ℕ × ℕ := (value &&& 0xFFFF, u16 (value >>> 16))

/-- `incr_lo_hi(uint16_t&, uint16_t&, uint32_t)`. -/
def incrLoHi32 (lo hi diff : ℕ) : ℕ × ℕ := setLoHi32 (u32 (fromLoHi16 lo hi + diff))

/-- `incr_lo_hi(uint32_t&, uint16_t&, uint64_t)`. -/
def incrLoHi48 (lo hi diff : ℕ) : ℕ × ℕ := setLoHi48 (u64 (fromLoHi lo hi + diff))

/-- `incr_lo_hi(uint32_t&, uint32_t&, uint64_t)`. -/
def incrLoHi64 (lo hi diff : ℕ) : ℕ × ℕ := setLoHi64 (u64 (fromLoHi lo hi + diff))

/-- `decr_lo_hi(uint16_t&, uint16_t&, uint32_t)`. -/
def decrLoHi32 (lo hi diff : ℕ) : ℕ × ℕ := setLoHi32 (sub32 (fromLoHi16 lo hi) diff)

/-- `ceildiv<uint32_t>`, whose sum is computed in 32 bits. -/
def ceildiv32 (a b : ℕ) : ℕ := u32 (a + b - 1) / b

/-- `ceildiv<uint64_t>`, which narrows its result to 32 bits. -/
def ceildiv64 (a b : ℕ) : ℕ := u32 (u64 (a + b - 1) / b)

/-- Joining 32-bit halves is positional notation. -/
theorem fromLoHi_eq {lo : ℕ} (hlo : lo < 2 ^ 32) (hi : ℕ) : fromLoHi lo hi = hi * 2 ^ 32 + lo := by
  rw [fromLoHi, ← Nat.shiftLeft_add_eq_or_of_lt hlo, Nat.shiftLeft_eq]

/-- Joining 16-bit halves is positional notation. -/
theorem fromLoHi16_eq {lo : ℕ} (hlo : lo < 2 ^ 16) (hi : ℕ) :
    fromLoHi16 lo hi = hi * 2 ^ 16 + lo := by
  rw [fromLoHi16, ← Nat.shiftLeft_add_eq_or_of_lt hlo, Nat.shiftLeft_eq]

/-- The low part of a 48-bit number. -/
theorem setLoHi48_fst (value : ℕ) : (setLoHi48 value).1 = value % 2 ^ 32 :=
  Nat.and_two_pow_sub_one_eq_mod value 32

/-- The low half of a 64-bit number. -/
theorem setLoHi64_fst (value : ℕ) : (setLoHi64 value).1 = value % 2 ^ 32 :=
  Nat.and_two_pow_sub_one_eq_mod value 32

/-- The low half of a 32-bit number. -/
theorem setLoHi32_fst (value : ℕ) : (setLoHi32 value).1 = value % 2 ^ 16 :=
  Nat.and_two_pow_sub_one_eq_mod value 16

/-- The high part of a 48-bit number. -/
theorem setLoHi48_snd (value : ℕ) : (setLoHi48 value).2 = value / 2 ^ 32 % 2 ^ 16 := by
  rw [setLoHi48, u16, Nat.shiftRight_eq_div_pow]

/-- The high half of a 64-bit number. -/
theorem setLoHi64_snd (value : ℕ) : (setLoHi64 value).2 = value / 2 ^ 32 % 2 ^ 32 := by
  rw [setLoHi64, u32, Nat.shiftRight_eq_div_pow]

/-- The high half of a 32-bit number. -/
theorem setLoHi32_snd (value : ℕ) : (setLoHi32 value).2 = value / 2 ^ 16 % 2 ^ 16 := by
  rw [setLoHi32, u16, Nat.shiftRight_eq_div_pow]

/-- A split 64-bit value is put together again. -/
theorem fromLoHi_setLoHi64 {value : ℕ} (h : value < 2 ^ 64) :
    fromLoHi (setLoHi64 value).1 (setLoHi64 value).2 = value := by
  rw [setLoHi64_fst, setLoHi64_snd, fromLoHi_eq (Nat.mod_lt _ (by norm_num))]
  omega

/-- A split 48-bit value is put together again. -/
theorem fromLoHi_setLoHi48 {value : ℕ} (h : value < 2 ^ 48) :
    fromLoHi (setLoHi48 value).1 (setLoHi48 value).2 = value := by
  rw [setLoHi48_fst, setLoHi48_snd, fromLoHi_eq (Nat.mod_lt _ (by norm_num))]
  omega

/-- A split 32-bit value is put together again. -/
theorem fromLoHi16_setLoHi32 {value : ℕ} (h : value < 2 ^ 32) :
    fromLoHi16 (setLoHi32 value).1 (setLoHi32 value).2 = value := by
  rw [setLoHi32_fst, setLoHi32_snd, fromLoHi16_eq (Nat.mod_lt _ (by norm_num))]
  omega

/-- The 32-bit rounded-up quotient, when its sum fits. -/
theorem ceildiv32_eq {a b : ℕ} (h : a + b ≤ 2 ^ 32) (hb : 0 < a + b) : ceildiv32 a b = ceilDiv a b := by
  rw [ceildiv32, u32_of_lt (by omega), ceilDiv]

/-- The 64-bit rounded-up quotient, when its sum and the narrowed result fit. -/
theorem ceildiv64_eq {a b : ℕ} (h : a + b ≤ 2 ^ 64) (hb : 0 < a + b)
    (hfits : ceilDiv a b < 2 ^ 32) : ceildiv64 a b = ceilDiv a b := by
  rw [ceildiv64, u64_of_lt (by omega)]
  exact u32_of_lt hfits

end OfsConvert
