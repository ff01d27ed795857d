import OfsConvert.Lib.Memory
import Mathlib.Data.Nat.Bitwise
import Mathlib.Order.Interval.Finset.Nat

/-!
# Bitmaps in memory

Bit `i` of a bitmap is bit `i % 8` of its byte `i / 8`. Bits are set by joining words of any
width with a mask and by filling bytes with ones; `BitsSet` states the outcome bit by bit, which
also says that every byte without such a bit is unchanged.
-/

namespace OfsConvert

/-- Bit `i` of the bitmap at address `a`. -/
def bitAt (m : Mem) (a i : ℕ) : Bool := (m (a + i / 8)).toNat.testBit (i % 8)

/-- The zero bits among the first `n` of a bitmap. -/
def zeroBits (m : Mem) (a n : ℕ) : ℕ := {i ∈ Finset.range n | bitAt m a i = false}.card

/-- The bits from `b` up to `e` are set and nothing else has changed. -/
structure BitsSet (a b e : ℕ) (m m' : Mem) : Prop where
  bits : ∀ i, bitAt m' a i = (bitAt m a i || decide (b ≤ i ∧ i < e))
  before : ∀ x < a, m' x = m x

/-- The bits of a little-endian number are those of its bytes. -/
theorem testBit_leNat (bs : List UInt8) (i : ℕ) :
    (leNat bs).testBit i = (bs.getD (i / 8) 0).toNat.testBit (i % 8) := by
  induction bs generalizing i with
  | nil => simp [leNat]
  | cons b bs ih =>
    have hb : b.toNat < 2 ^ 8 := b.toNat_lt
    rw [leNat, Nat.add_comm, show 256 = 2 ^ 8 from rfl, Nat.testBit_two_pow_mul_add _ hb]
    by_cases hi : i < 8
    · rw [if_pos hi, Nat.div_eq_of_lt hi, Nat.mod_eq_of_lt hi, List.getD_cons_zero]
    · have hdiv : i / 8 = (i - 8) / 8 + 1 := by omega
      have hmod : i % 8 = (i - 8) % 8 := by omega
      rw [if_neg hi, ih, hdiv, hmod, List.getD_cons_succ]

/-- The bits of a number in memory. -/
theorem testBit_readLE (m : Mem) {a w i : ℕ} (hi : i < 8 * w) :
    (m.readLE a w).testBit i = bitAt m a i := by
  have hbyte : (m.read a w).getD (i / 8) 0 = m (a + i / 8) := by
    rw [List.getD_eq_getElem _ _ (by rw [Mem.length_read]; omega), Mem.getElem_read]
  rw [Mem.readLE, testBit_leNat, hbyte, bitAt]

/-- A byte is given by its bits. -/
theorem byte_eq_of_testBit {x y : UInt8} (h : ∀ j < 8, x.toNat.testBit j = y.toNat.testBit j) :
    x = y := by
  apply UInt8.toNat_inj.mp
  apply Nat.eq_of_testBit_eq
  intro j
  by_cases hj : j < 8
  · exact h j hj
  · have hpow : 2 ^ 8 ≤ 2 ^ j := Nat.pow_le_pow_right (by decide) (by omega)
    rw [Nat.testBit_lt_two_pow (x.toNat_lt.trans_le hpow),
      Nat.testBit_lt_two_pow (y.toNat_lt.trans_le hpow)]

/-- Bitmaps of equal bytes have equal bits. -/
theorem bitAt_congr {m m' : Mem} {a i : ℕ} (h : m' (a + i / 8) = m (a + i / 8)) :
    bitAt m' a i = bitAt m a i := by
  rw [bitAt, bitAt, h]

/-- Bitmaps of equal bytes have equally many zero bits. -/
theorem zeroBits_congr {m m' : Mem} {a n : ℕ} (h : ∀ i < n, m' (a + i / 8) = m (a + i / 8)) :
    zeroBits m' a n = zeroBits m a n := by
  unfold zeroBits
  congr 1
  apply Finset.filter_congr
  intro i hi
  rw [bitAt_congr (h i (Finset.mem_range.mp hi))]

/-- Join the word at `a` with a mask. -/
def Mem.orLE (m : Mem) (a w mask : ℕ) : Mem := m.write a (leBytes w (m.readLE a w ||| mask))

/-- A word changes only itself. -/
theorem Mem.sameOutside_orLE (m : Mem) (a w mask : ℕ) : SameOutside a w m (m.orLE a w mask) := by
  simpa [orLE] using sameOutside_write m a (leBytes w (m.readLE a w ||| mask))

/-- The bits after a word at byte `k` of the bitmap is joined with a mask. -/
theorem bitAt_orLE (m : Mem) (a k w mask i : ℕ) :
    bitAt (m.orLE (a + k) w mask) a i =
      (bitAt m a i || decide (8 * k ≤ i ∧ i < 8 * (k + w)) && mask.testBit (i - 8 * k)) := by
  by_cases hin : 8 * k ≤ i ∧ i < 8 * (k + w)
  · have hshift : ∀ m' : Mem, bitAt m' a i = bitAt m' (a + k) (i - 8 * k) := by
      intro m'
      have hdiv : i / 8 = k + (i - 8 * k) / 8 := by omega
      have hmod : i % 8 = (i - 8 * k) % 8 := by omega
      rw [bitAt, bitAt, hdiv, hmod, Nat.add_assoc]
    have hread : (m.orLE (a + k) w mask).readLE (a + k) w = (m.readLE (a + k) w ||| mask) % 256 ^ w := by
      rw [Mem.orLE, Mem.readLE, Mem.read_write_of_length (length_leBytes w _), leNat_leBytes]
    have hlt : i - 8 * k < 8 * w := by omega
    rw [hshift, hshift, ← testBit_readLE _ hlt, ← testBit_readLE _ hlt, hread,
      show 256 ^ w = 2 ^ (8 * w) by rw [Nat.pow_mul], Nat.testBit_mod_two_pow, Nat.testBit_or]
    simp [hin, hlt]
  · have hsame : m.orLE (a + k) w mask (a + i / 8) = m (a + i / 8) := by
      apply m.sameOutside_orLE
      omega
    rw [bitAt_congr hsame]
    simp [hin]

/-- The bits after bytes of the bitmap are filled with ones. -/
theorem bitAt_fill_ones (m : Mem) (a k n i : ℕ) :
    bitAt (m.fill (a + k) n 0xFF) a i =
      (bitAt m a i || decide (8 * k ≤ i ∧ i < 8 * (k + n))) := by
  by_cases hin : 8 * k ≤ i ∧ i < 8 * (k + n)
  · have hones : ∀ j < 8, (255 : ℕ).testBit j = true := by decide
    have hbyte : m.fill (a + k) n 0xFF (a + i / 8) = 0xFF := by
      have hfill := Mem.fill_apply (m := m) (a := a + k) (i := i / 8 - k) (n := n) (v := 0xFF)
        (by omega)
      rwa [show a + k + (i / 8 - k) = a + i / 8 by omega] at hfill
    rw [bitAt, hbyte]
    simp [hin, hones (i % 8) (by omega)]
  · have hsame : m.fill (a + k) n 0xFF (a + i / 8) = m (a + i / 8) := by
      apply m.sameOutside_fill
      omega
    rw [bitAt_congr hsame]
    simp [hin]

namespace BitsSet

variable {a b c e : ℕ} {m m' m'' : Mem}

/-- Setting no bit changes nothing. -/
theorem refl (a b : ℕ) (m : Mem) : BitsSet a b b m m :=
  ⟨fun i => by simp, fun _ _ => rfl⟩

/-- Adjacent ranges of bits. -/
theorem trans (h : BitsSet a b c m m') (h' : BitsSet a c e m' m'') (hbc : b ≤ c) (hce : c ≤ e) :
    BitsSet a b e m m'' := by
  refine ⟨fun i => ?_, fun x hx => (h'.before x hx).trans (h.before x hx)⟩
  rw [h'.bits, h.bits, Bool.or_assoc, ← Bool.decide_or]
  congr 2
  rw [eq_iff_iff]
  omega

/-- A byte without a set bit is unchanged. -/
theorem byte_eq (h : BitsSet a b e m m') {x : ℕ} (hx : x < a + b / 8 ∨ a + (e + 7) / 8 ≤ x) :
    m' x = m x := by
  by_cases hbefore : x < a
  · exact h.before x hbefore
  · obtain ⟨k, rfl⟩ := Nat.exists_eq_add_of_le (Nat.le_of_not_lt hbefore)
    apply byte_eq_of_testBit
    intro j hj
    have hbit := h.bits (8 * k + j)
    rw [bitAt, bitAt, show (8 * k + j) / 8 = k by omega, show (8 * k + j) % 8 = j by omega] at hbit
    rw [hbit, decide_eq_false (by omega), Bool.or_false]

/-- Setting clear bits takes them from the zero bits. -/
theorem zeroBits_add (h : BitsSet a b e m m') {n : ℕ} (hn : e ≤ n)
    (hclear : ∀ i, b ≤ i → i < e → bitAt m a i = false) :
    zeroBits m' a n + (e - b) = zeroBits m a n := by
  have hsplit : {i ∈ Finset.range n | bitAt m a i = false} =
      {i ∈ Finset.range n | bitAt m' a i = false} ∪ Finset.Ico b e := by
    ext i
    rw [Finset.mem_union, Finset.mem_filter, Finset.mem_filter, Finset.mem_range, Finset.mem_Ico,
      h.bits, Bool.or_eq_false_iff, decide_eq_false_iff_not]
    constructor
    · intro hi
      by_cases hin : b ≤ i ∧ i < e
      · exact Or.inr hin
      · exact Or.inl ⟨hi.1, hi.2, hin⟩
    · intro hi
      cases hi with
      | inl hi => exact ⟨hi.1, hi.2.1⟩
      | inr hi => exact ⟨by omega, hclear i hi.1 hi.2⟩
  have hdisjoint : Disjoint {i ∈ Finset.range n | bitAt m' a i = false} (Finset.Ico b e) := by
    rw [Finset.disjoint_left]
    intro i hi hin
    rw [Finset.mem_filter, h.bits, Bool.or_eq_false_iff, decide_eq_false_iff_not] at hi
    exact hi.2.2 (Finset.mem_Ico.mp hin)
  rw [zeroBits, zeroBits, hsplit, Finset.card_union_of_disjoint hdisjoint, Nat.card_Ico]

end BitsSet

end OfsConvert
