import OfsConvert.GroupUpdates

/-!
# Setting the bits of a range

`bitmap_set_bits` works on words of 32 bits and has the loop it replaces as a comment. Both set the
bits of the range and nothing else, so they leave the same memory behind.
-/

namespace OfsConvert

/-- The loop in the comment of `bitmap_set_bits`, from bit `first` on. -/
def setBitsLoop (bitmap : ℕ) : ℕ → ℕ → Prog Unit
  | 0, _ => pure ()
  | count + 1, first => do
    bitmapSetBit bitmap first
    setBitsLoop bitmap count (first + 1)

/-- The loop `for (i = first; i < last; ++i) bitmap_set_bit(bitmap, i)`. -/
def bitmapSetBitsReference (bitmap first last : ℕ) : Prog Unit :=
  setBitsLoop bitmap (last - first) first

section

variable {a b e : ℕ} {m m' m'' : Mem} {s : State} {E : Halt → State → Prop}

/-- What a range of set bits leaves behind is determined. -/
theorem BitsSet.unique (h : BitsSet a b e m m') (h' : BitsSet a b e m m'') : m' = m'' := by
  funext x
  by_cases hbefore : x < a
  · rw [h.before x hbefore, h'.before x hbefore]
  · obtain ⟨k, rfl⟩ := Nat.exists_eq_add_of_le (Nat.le_of_not_lt hbefore)
    apply byte_eq_of_testBit
    intro j hj
    have hbit : ∀ m₁ : Mem, bitAt m₁ a (8 * k + j) = (m₁ (a + k)).toNat.testBit j := by
      intro m₁
      rw [bitAt, show (8 * k + j) / 8 = k by omega, show (8 * k + j) % 8 = j by omega]
    rw [← hbit, ← hbit, h.bits, h'.bits]

/-- Setting the bits of an empty range. -/
theorem BitsSet.empty (m : Mem) (hbe : e ≤ b) : BitsSet a b e m m := by
  refine ⟨fun i => ?_, fun _ _ => rfl⟩
  rw [decide_eq_false (by omega), Bool.or_false]

/-- The reference loop sets the bits of its range. -/
theorem setBitsLoop_spec (a count b : ℕ) :
    wp (setBitsLoop a count b) (fun _ t => BitsSet a b (b + count) s.mem t.mem) E s := by
  induction count generalizing b s with
  | zero => exact BitsSet.refl a b s.mem
  | succ count ih =>
    rw [setBitsLoop, wp_bind]
    refine wp_mono_ok (bitmapSetBit_spec a b) ?_
    intro _ t ht
    obtain ⟨-, -, hfirst⟩ := ht
    refine wp_mono_ok (ih (b + 1)) ?_
    intro _ u hrest
    have hall := hfirst.trans hrest (by omega) (by omega)
    rwa [show b + 1 + count = b + (count + 1) by omega] at hall

/-- `bitmap_set_bits` on a range whose end is before its start changes no byte. -/
theorem bitmapSetBits_empty (hbe : e ≤ b) :
    wp (bitmapSetBits a b e) (fun _ t => t.mem = s.mem) E s := by
  have hdiv : e / 32 ≤ b / 32 := Nat.div_le_div_right hbe
  rw [bitmapSetBits, if_neg (by omega)]
  refine wp_ite (fun heq => ?_) (fun _ => rfl)
  rw [wp_orWord, State.stored_mem]
  -- both ends are in one word, and no bit passes both masks
  have hword : BitsSet a b e s.mem (s.mem.orLE (a + 4 * (b / 32)) 4
      ((0xFFFFFFFF - fillLSBs (b % 32)) &&& fillLSBs (e % 32))) := by
    apply bitsSet_orLE _ (by omega) (by omega)
    intro i hi
    rw [Nat.testBit_and, testBit_fillLSBs_not (Nat.mod_lt _ (by norm_num)) hi, testBit_fillLSBs,
      ← Bool.decide_and, decide_eq_decide]
    omega
  exact hword.unique (BitsSet.empty s.mem hbe)

/-- `bitmap_set_bits` sets the bits of its range, whatever the order of its ends. -/
theorem bitmapSetBits_bits (a b e : ℕ) :
    wp (bitmapSetBits a b e) (fun _ t => BitsSet a b e s.mem t.mem) E s := by
  by_cases hbe : b ≤ e
  · refine wp_mono_ok (bitmapSetBits_spec hbe) ?_
    intro _ t ht
    exact ht.2.2
  · refine wp_mono_ok (bitmapSetBits_empty (by omega)) ?_
    intro _ t ht
    rw [ht]
    exact BitsSet.empty s.mem (by omega)

/-- The reference sets the bits of its range. -/
theorem bitmapSetBitsReference_bits (a b e : ℕ) :
    wp (bitmapSetBitsReference a b e) (fun _ t => BitsSet a b e s.mem t.mem) E s := by
  refine wp_mono_ok (setBitsLoop_spec a (e - b) b) ?_
  intro _ t ht
  by_cases hbe : b ≤ e
  · rwa [Nat.add_sub_cancel' hbe] at ht
  · rw [show b + (e - b) = b by omega] at ht
    have hsame : t.mem = s.mem := ht.unique (BitsSet.refl a b s.mem)
    rw [hsame]
    exact BitsSet.empty s.mem (by omega)

end

/-- `bitmap_set_bits` and the loop in its comment both return with the same memory, in which
exactly the bits of the range have been set. -/
theorem bitmapSetBits_eq_reference (bitmap first last : ℕ) (s : State) :
    ∃ t u, bitmapSetBits bitmap first last s = .ok () t ∧
      bitmapSetBitsReference bitmap first last s = .ok () u ∧ t.mem = u.mem ∧
      (∀ i, bitAt t.mem bitmap i =
        (bitAt s.mem bitmap i || decide (first ≤ i ∧ i < last))) ∧
      ∀ a < bitmap, t.mem a = s.mem a := by
  obtain ⟨_, t, ht, hbits⟩ := exists_ok_of_wp (bitmapSetBits_bits (s := s) bitmap first last)
  obtain ⟨_, u, hu, hbits'⟩ :=
    exists_ok_of_wp (bitmapSetBitsReference_bits (s := s) bitmap first last)
  exact ⟨t, u, ht, hu, hbits.unique hbits', hbits.bits, hbits.before⟩

end OfsConvert
