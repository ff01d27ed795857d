import Mathlib.Data.List.Basic
import Mathlib.Data.List.Infix
import Mathlib.Algebra.BigOperators.Group.List.Basic
import Mathlib.Algebra.Ring.Nat

/-!
# Cutting a text to a number of bytes

Characters have widths; `fitting` keeps characters from the left as long as they fit. The result
is the longest prefix that fits, since no width is 0. The UTF-8 encoding of 16-bit units takes
one to three bytes for each and can be decoded.
-/

namespace OfsConvert

section Fitting

variable {α : Type} (width : α → ℕ)

/-- The width of a text. -/
def textWidth (xs : List α) : ℕ := (xs.map width).sum

/-- Keep characters from the left as long as they fit. -/
def fitting : ℕ → List α → List α
  | _, [] => []
  | limit, x :: xs => if width x ≤ limit then x :: fitting (limit - width x) xs else []

/-- The longest prefix that fits. -/
structure LongestFit (limit : ℕ) (xs kept : List α) : Prop where
  pre : kept <+: xs
  fits : textWidth width kept ≤ limit
  longest : ∀ ys, ys <+: xs → textWidth width ys ≤ limit → ys.length ≤ kept.length

/-- The empty text has no width. -/
@[simp] theorem textWidth_nil : textWidth width [] = 0 := rfl

/-- The width of a text is that of its first letter and its rest. -/
@[simp] theorem textWidth_cons (x : α) (xs : List α) :
    textWidth width (x :: xs) = width x + textWidth width xs := by
  simp [textWidth]

/-- The widths of two texts add up. -/
@[simp] theorem textWidth_append (xs ys : List α) :
    textWidth width (xs ++ ys) = textWidth width xs + textWidth width ys := by
  simp [textWidth]

variable {width} {limit : ℕ} {xs ys kept : List α}

/-- What fits is in front of the rest. -/
theorem fitting_isPrefix (limit : ℕ) (xs : List α) : fitting width limit xs <+: xs := by
  induction xs generalizing limit with
  | nil => exact List.prefix_refl []
  | cons x xs ih =>
    rw [fitting]
    split
    · exact List.cons_prefix_cons.mpr ⟨rfl, ih _⟩
    · exact List.nil_prefix

/-- What fits has room. -/
theorem textWidth_fitting_le (limit : ℕ) (xs : List α) :
    textWidth width (fitting width limit xs) ≤ limit := by
  induction xs generalizing limit with
  | nil => exact Nat.zero_le limit
  | cons x xs ih =>
    rw [fitting]
    split
    · have hrest := ih (limit - width x)
      rw [textWidth_cons]
      omega
    · exact Nat.zero_le limit

/-- A prefix that fits is no longer. -/
theorem length_le_fitting (hpre : ys <+: xs) (hfits : textWidth width ys ≤ limit) :
    ys.length ≤ (fitting width limit xs).length := by
  induction xs generalizing limit ys with
  | nil => rw [List.prefix_nil.mp hpre]; exact le_rfl
  | cons x xs ih =>
    cases ys with
    | nil => exact Nat.zero_le _
    | cons y ys =>
      obtain ⟨rfl, hrest⟩ := List.cons_prefix_cons.mp hpre
      rw [textWidth_cons] at hfits
      rw [fitting, if_pos (by omega), List.length_cons, List.length_cons]
      exact Nat.succ_le_succ (ih hrest (by omega))

/-- Nothing longer fits. -/
theorem fitting_longestFit (limit : ℕ) (xs : List α) :
    LongestFit width limit xs (fitting width limit xs) :=
  ⟨fitting_isPrefix limit xs, textWidth_fitting_le limit xs, fun _ => length_le_fitting⟩

/-- There is only one longest prefix that fits. -/
theorem LongestFit.eq_fitting (h : LongestFit width limit xs kept) :
    kept = fitting width limit xs := by
  have hpre : fitting width limit xs <+: xs := fitting_isPrefix limit xs
  have hle := h.longest _ hpre (textWidth_fitting_le limit xs)
  have hge := length_le_fitting h.pre h.fits
  exact (List.prefix_of_prefix_length_le h.pre hpre hge).eq_of_length (by omega)

/-- A text that fits is kept whole. -/
theorem fitting_eq_self (h : textWidth width xs ≤ limit) : fitting width limit xs = xs := by
  have hlength := length_le_fitting (List.prefix_refl xs) h
  exact (fitting_isPrefix limit xs).eq_of_length
    (le_antisymm (fitting_isPrefix limit xs).length_le hlength)

/-- What fits behind a text that fits. -/
theorem fitting_append (h : textWidth width xs ≤ limit) :
    fitting width limit (xs ++ ys) = xs ++ fitting width (limit - textWidth width xs) ys := by
  induction xs generalizing limit with
  | nil => rfl
  | cons x xs ih =>
    rw [textWidth_cons] at h
    rw [List.cons_append, fitting, if_pos (by omega), ih (by omega), textWidth_cons, Nat.sub_sub]
    rfl

/-- A text that does not fit hides what is behind it. -/
theorem fitting_append_of_lt (h : limit < textWidth width xs) :
    fitting width limit (xs ++ ys) = fitting width limit xs := by
  induction xs generalizing limit with
  | nil => exact absurd h (Nat.not_lt_zero limit)
  | cons x xs ih =>
    rw [textWidth_cons] at h
    rw [List.cons_append, fitting, fitting]
    split
    · rw [ih (by omega)]
    · rfl

/-- One unit more of room makes no difference unless a prefix takes it. -/
theorem fitting_succ_of_ne (h : textWidth width (fitting width (limit + 1) xs) ≠ limit + 1) :
    fitting width (limit + 1) xs = fitting width limit xs := by
  have hle : textWidth width (fitting width (limit + 1) xs) ≤ limit + 1 :=
    textWidth_fitting_le (limit + 1) xs
  refine LongestFit.eq_fitting ⟨fitting_isPrefix _ _, by omega, fun ys hpre hfits => ?_⟩
  exact length_le_fitting hpre (by omega)

/-- A prefix of a text has no larger width. -/
theorem textWidth_le_of_isPrefix (h : ys <+: xs) : textWidth width ys ≤ textWidth width xs := by
  obtain ⟨rest, rfl⟩ := h
  rw [textWidth_append]
  exact Nat.le_add_right _ _

/-- The limit is reached by the longest prefix that fits, if by any. -/
theorem textWidth_fitting_of_isPrefix (hpre : ys <+: xs) (h : textWidth width ys = limit) :
    textWidth width (fitting width limit xs) = limit := by
  have hshort := List.prefix_of_prefix_length_le hpre (fitting_isPrefix limit xs)
    (length_le_fitting hpre h.le)
  apply le_antisymm (textWidth_fitting_le limit xs)
  calc limit = textWidth width ys := h.symm
    _ ≤ textWidth width (fitting width limit xs) := textWidth_le_of_isPrefix hshort

end Fitting

/-- The UTF-8 encoding of a 16-bit unit. -/
def utf8Unit (u : ℕ) : List UInt8 :=
  if u < 0x80 then [UInt8.ofNat u]
  else if u < 0x800 then [UInt8.ofNat (0xC0 + u / 64), UInt8.ofNat (0x80 + u % 64)]
  else [UInt8.ofNat (0xE0 + u / 4096), UInt8.ofNat (0x80 + u / 64 % 64),
    UInt8.ofNat (0x80 + u % 64)]

/-- The UTF-8 encoding of a list of 16-bit units. -/
def utf8 (us : List ℕ) : List UInt8 := us.flatMap utf8Unit

/-- The number of bytes of an encoded unit. -/
def utf8Width (u : ℕ) : ℕ := (utf8Unit u).length

/-- Decode bytes; the first argument bounds their number. -/
def utf8DecodeFrom : ℕ → List UInt8 → List ℕ
  | 0, _ => []
  | _ + 1, [] => []
  | n + 1, a :: rest =>
    if a.toNat < 0x80 then a.toNat :: utf8DecodeFrom n rest
    else if a.toNat < 0xE0 then
      (a.toNat % 32 * 64 + (rest.getD 0 0).toNat % 64) :: utf8DecodeFrom n (rest.drop 1)
    else
      (a.toNat % 16 * 4096 + (rest.getD 0 0).toNat % 64 * 64 + (rest.getD 1 0).toNat % 64) ::
        utf8DecodeFrom n (rest.drop 2)

/-- The units that bytes encode. -/
def utf8Decode (bytes : List UInt8) : List ℕ := utf8DecodeFrom bytes.length bytes

/-- The empty text has no bytes. -/
@[simp] theorem utf8_nil : utf8 [] = [] := rfl

/-- The bytes of a text are those of its first letter and its rest. -/
@[simp] theorem utf8_cons (u : ℕ) (us : List ℕ) : utf8 (u :: us) = utf8Unit u ++ utf8 us := rfl

/-- The bytes of two texts follow one another. -/
@[simp] theorem utf8_append (us vs : List ℕ) : utf8 (us ++ vs) = utf8 us ++ utf8 vs :=
  List.flatMap_append

/-- A text has as many bytes as it is wide. -/
theorem length_utf8 (us : List ℕ) : (utf8 us).length = textWidth utf8Width us := by
  induction us with
  | nil => rfl
  | cons u us ih => rw [utf8_cons, List.length_append, ih, textWidth_cons, utf8Width]

/-- One, two or three bytes by the size of the code unit. -/
theorem utf8Width_eq (u : ℕ) : utf8Width u = if u < 0x80 then 1 else if u < 0x800 then 2 else 3 := by
  unfold utf8Width utf8Unit
  split
  · rfl
  · split <;> rfl

/-- Each code unit takes a byte at least. -/
theorem utf8Width_pos (u : ℕ) : 0 < utf8Width u := by
  rw [utf8Width_eq]
  split
  · exact Nat.one_pos
  · split
    · exact Nat.two_pos
    · exact Nat.succ_pos 2

/-- A number below 256 is its byte. -/
private theorem toNat_ofNat_of_lt {n : ℕ} (h : n < 256) : (UInt8.ofNat n).toNat = n := by
  rw [UInt8.toNat_ofNat', Nat.mod_eq_of_lt h]

/-- Decoding one unit and the rest. -/
theorem utf8DecodeFrom_unit {u n : ℕ} (hu : u < 2 ^ 16) (rest : List UInt8) :
    utf8DecodeFrom (n + 1) (utf8Unit u ++ rest) = u :: utf8DecodeFrom n rest := by
  unfold utf8Unit
  split
  · rename_i hone
    rw [List.singleton_append, utf8DecodeFrom, toNat_ofNat_of_lt (by omega), if_pos hone]
  · split
    · rename_i hone htwo
      have hfirst : ¬ 0xC0 + u / 64 < 0x80 := by omega
      have hsecond : 0xC0 + u / 64 < 0xE0 := by omega
      have hunit : (0xC0 + u / 64) % 32 * 64 + (0x80 + u % 64) % 64 = u := by omega
      simp only [List.cons_append, List.nil_append, utf8DecodeFrom, List.getD_cons_zero,
        List.drop_succ_cons, List.drop_zero]
      rw [toNat_ofNat_of_lt (by omega), toNat_ofNat_of_lt (by omega), if_neg hfirst, if_pos hsecond,
        hunit]
    · rename_i hone htwo
      have hfirst : ¬ 0xE0 + u / 4096 < 0x80 := by omega
      have hsecond : ¬ 0xE0 + u / 4096 < 0xE0 := by omega
      have hunit : (0xE0 + u / 4096) % 16 * 4096 + (0x80 + u / 64 % 64) % 64 * 64 +
          (0x80 + u % 64) % 64 = u := by omega
      simp only [List.cons_append, List.nil_append, utf8DecodeFrom, List.getD_cons_zero,
        List.getD_cons_succ, List.drop_succ_cons, List.drop_zero]
      rw [toNat_ofNat_of_lt (by omega), toNat_ofNat_of_lt (by omega), toNat_ofNat_of_lt (by omega),
        if_neg hfirst, if_neg hsecond, hunit]

/-- Decoding inverts encoding for code units of 16 bits. -/
theorem utf8DecodeFrom_utf8 {us : List ℕ} (hus : ∀ u ∈ us, u < 2 ^ 16) {n : ℕ}
    (hn : us.length ≤ n) : utf8DecodeFrom n (utf8 us) = us := by
  induction us generalizing n with
  | nil => cases n <;> rfl
  | cons u us ih =>
    cases n with
    | zero => exact absurd hn (by simp)
    | succ n =>
      rw [utf8_cons, utf8DecodeFrom_unit (hus u (by simp)),
        ih (fun v hv => hus v (by simp [hv])) (by simpa using hn)]

/-- A text is not longer than its bytes. -/
theorem length_le_length_utf8 (us : List ℕ) : us.length ≤ (utf8 us).length := by
  induction us with
  | nil => exact le_rfl
  | cons u us ih =>
    have hpos := utf8Width_pos u
    unfold utf8Width at hpos
    rw [utf8_cons, List.length_append, List.length_cons]
    omega

/-- An encoded text decodes. -/
theorem utf8Decode_utf8 {us : List ℕ} (hus : ∀ u ∈ us, u < 2 ^ 16) : utf8Decode (utf8 us) = us :=
  utf8DecodeFrom_utf8 hus (length_le_length_utf8 us)

/-- Different texts have different encodings. -/
theorem utf8_injective {us vs : List ℕ} (hus : ∀ u ∈ us, u < 2 ^ 16) (hvs : ∀ v ∈ vs, v < 2 ^ 16)
    (h : utf8 us = utf8 vs) : us = vs := by
  rw [← utf8Decode_utf8 hus, h, utf8Decode_utf8 hvs]

end OfsConvert
