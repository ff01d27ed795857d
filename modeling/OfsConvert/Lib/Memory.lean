import Mathlib.Data.List.Basic
import Mathlib.Data.List.GetD
import Mathlib.Tactic.Ring
import Mathlib.Tactic.NormNum

/-!
# Byte-addressed memory

A memory maps every address to a byte. Blocks of bytes are read, written, copied and filled;
fixed-width integers are little-endian. `SameOutside a n m m'` says that two memories differ
at most on the `n` bytes from `a`: every store is of this form, and every frame fact about a
later read follows from it.
-/

namespace OfsConvert

/-- The `w` little-endian bytes of `n`. -/
def leBytes : ℕ → ℕ → List UInt8
  | 0, _ => []
  | w + 1, n => UInt8.ofNat (n % 256) :: leBytes w (n / 256)

/-- The number with the given little-endian bytes. -/
def leNat : List UInt8 → ℕ
  | [] => 0
  | b :: bs => b.toNat + 256 * leNat bs

/-- A number has as many bytes as are asked for. -/
@[simp] theorem length_leBytes (w n : ℕ) : (leBytes w n).length = w := by
  induction w generalizing n with
  | zero => rfl
  | succ w ih => simp [leBytes, ih]

/-- Decoding an encoded number keeps its low bytes. -/
theorem leNat_leBytes (w n : ℕ) : leNat (leBytes w n) = n % 256 ^ w := by
  induction w generalizing n with
  | zero => simp [leBytes, leNat, Nat.mod_one]
  | succ w ih =>
    have hbyte : (UInt8.ofNat (n % 256)).toNat = n % 256 := by
      simp [UInt8.toNat_ofNat']
    rw [leBytes, leNat, ih, hbyte, pow_succ', Nat.mod_mul]

/-- A number that fits in `w` bytes survives encoding and decoding. -/
theorem leNat_leBytes_of_lt {w n : ℕ} (h : n < 256 ^ w) : leNat (leBytes w n) = n := by
  rw [leNat_leBytes, Nat.mod_eq_of_lt h]

/-- Encoding a decoded number gives back its bytes. -/
theorem leBytes_leNat (bs : List UInt8) : leBytes bs.length (leNat bs) = bs := by
  induction bs with
  | nil => rfl
  | cons b bs ih =>
    have hb : b.toNat < 256 := b.toNat_lt
    have hlow : (b.toNat + 256 * leNat bs) % 256 = b.toNat := by omega
    have hhigh : (b.toNat + 256 * leNat bs) / 256 = leNat bs := by omega
    rw [List.length_cons, leNat, leBytes, hlow, hhigh, ih, UInt8.ofNat_toNat]

/-- `w` bytes hold a number below `256 ^ w`. -/
theorem leNat_lt (bs : List UInt8) : leNat bs < 256 ^ bs.length := by
  induction bs with
  | nil => simp [leNat]
  | cons b bs ih =>
    have hb : b.toNat < 256 := b.toNat_lt
    rw [leNat, List.length_cons, pow_succ]
    omega

/-- The number of a concatenation. -/
theorem leNat_append (bs cs : List UInt8) :
    leNat (bs ++ cs) = leNat bs + 256 ^ bs.length * leNat cs := by
  induction bs with
  | nil => simp [leNat]
  | cons b bs ih =>
    rw [List.cons_append, leNat, leNat, ih, List.length_cons, pow_succ]
    ring

/-- A byte-addressed memory. -/
abbrev Mem := ℕ → UInt8

namespace Mem

/-- The `n` bytes from address `a`. -/
def read (m : Mem) (a n : ℕ) : List UInt8 := (List.range n).map fun i => m (a + i)

/-- Replace the bytes from address `a` by `bs`. -/
def write (m : Mem) (a : ℕ) (bs : List UInt8) : Mem := fun x =>
  if a ≤ x ∧ x < a + bs.length then bs.getD (x - a) 0 else m x

/-- Copy `n` bytes from `src` to `dst`. -/
def copy (m : Mem) (dst src n : ℕ) : Mem := fun x =>
  if dst ≤ x ∧ x < dst + n then m (src + (x - dst)) else m x

/-- Set `n` bytes from address `a` to `v`. -/
def fill (m : Mem) (a n : ℕ) (v : UInt8) : Mem := fun x =>
  if a ≤ x ∧ x < a + n then v else m x

/-- The `w`-byte little-endian number at address `a`. -/
def readLE (m : Mem) (a w : ℕ) : ℕ := leNat (m.read a w)

/-- As many bytes are read as are asked for. -/
@[simp] theorem length_read (m : Mem) (a n : ℕ) : (m.read a n).length = n := by
  simp [read]

/-- The byte at a place that was read. -/
@[simp] theorem getElem_read (m : Mem) (a n i : ℕ) (h : i < (m.read a n).length) :
    (m.read a n)[i] = m (a + i) := by
  simp [read]

/-- A block of no bytes. -/
@[simp] theorem read_zero (m : Mem) (a : ℕ) : m.read a 0 = [] := rfl

/-- Two memories that agree on a block give the same bytes. -/
theorem read_congr {m m' : Mem} {a n : ℕ} (h : ∀ i < n, m' (a + i) = m (a + i)) :
    m'.read a n = m.read a n := by
  apply List.ext_getElem (by simp)
  intro i hi _
  simpa using h i (by simpa using hi)

/-- Blocks at two addresses that agree byte by byte. -/
theorem read_shift {m m' : Mem} {a b n : ℕ} (h : ∀ i < n, m' (a + i) = m (b + i)) :
    m'.read a n = m.read b n := by
  apply List.ext_getElem (by simp)
  intro i hi _
  simpa using h i (by simpa using hi)

/-- A block splits into consecutive blocks. -/
theorem read_add (m : Mem) (a n k : ℕ) : m.read a (n + k) = m.read a n ++ m.read (a + n) k := by
  simp [read, List.range_add, Nat.add_assoc]

/-- A block starts with each shorter block at its address. -/
theorem read_initial (m : Mem) (a : ℕ) {k n : ℕ} (h : k ≤ n) : m.read a k <+: m.read a n := by
  obtain ⟨j, rfl⟩ := Nat.exists_eq_add_of_le h
  rw [read_add]
  exact List.prefix_append _ _

/-- A block inside a block. -/
theorem read_drop_take (m : Mem) (a n i k : ℕ) (h : i + k ≤ n) :
    ((m.read a n).drop i).take k = m.read (a + i) k := by
  apply List.ext_getElem
  · simp; omega
  · intro j hj _
    simp [Nat.add_assoc]

/-- A `w`-byte number is below `256 ^ w`. -/
theorem readLE_lt (m : Mem) (a w : ℕ) : m.readLE a w < 256 ^ w := by
  simpa [readLE] using leNat_lt (m.read a w)

/-- The number of some bytes and of those behind them. -/
theorem readLE_add (m : Mem) (a n k : ℕ) :
    m.readLE a (n + k) = m.readLE a n + 256 ^ n * m.readLE (a + n) k := by
  rw [readLE, read_add, leNat_append, length_read]
  rfl

/-- The bytes of a number at an address. -/
theorem read_eq_leBytes {m : Mem} {a w n : ℕ} (h : m.readLE a w = n) : m.read a w = leBytes w n := by
  have hbytes := leBytes_leNat (m.read a w)
  rw [length_read] at hbytes
  rw [← h, readLE, hbytes]

/-- Two memories that agree on a block give the same number. -/
theorem readLE_congr {m m' : Mem} {a w : ℕ} (h : ∀ i < w, m' (a + i) = m (a + i)) :
    m'.readLE a w = m.readLE a w := by
  rw [readLE, readLE, read_congr h]

/-- The two memories differ at most on the `n` bytes from `a`. -/
def SameOutside (a n : ℕ) (m m' : Mem) : Prop := ∀ x, x < a ∨ a + n ≤ x → m' x = m x

/-- A memory agrees with itself. -/
theorem SameOutside.refl (a n : ℕ) (m : Mem) : SameOutside a n m m := fun _ _ => rfl

/-- Agreement outside a range is transitive. -/
theorem SameOutside.trans {a n : ℕ} {m m' m'' : Mem} (h : SameOutside a n m m')
    (h' : SameOutside a n m' m'') : SameOutside a n m m'' :=
  fun x hx => (h' x hx).trans (h x hx)

/-- Widening the block keeps the statement. -/
theorem SameOutside.mono {a n b k : ℕ} {m m' : Mem} (h : SameOutside a n m m')
    (hb : b ≤ a) (hk : a + n ≤ b + k) : SameOutside b k m m' := by
  intro x hx
  apply h
  omega

/-- A block disjoint from the changed one reads the same. -/
theorem SameOutside.read_eq {a n b k : ℕ} {m m' : Mem} (h : SameOutside a n m m')
    (hd : b + k ≤ a ∨ a + n ≤ b) : m'.read b k = m.read b k := by
  apply read_congr
  intro i hi
  apply h
  omega

/-- A number disjoint from the changed block reads the same. -/
theorem SameOutside.readLE_eq {a n b k : ℕ} {m m' : Mem} (h : SameOutside a n m m')
    (hd : b + k ≤ a ∨ a + n ≤ b) : m'.readLE b k = m.readLE b k := by
  rw [readLE, readLE, h.read_eq hd]

/-- Writing changes only the range written. -/
theorem sameOutside_write (m : Mem) (a : ℕ) (bs : List UInt8) :
    SameOutside a bs.length m (m.write a bs) := by
  intro x hx
  simp only [write]
  rw [if_neg (by omega)]

/-- Copying changes only the target. -/
theorem sameOutside_copy (m : Mem) (dst src n : ℕ) : SameOutside dst n m (m.copy dst src n) := by
  intro x hx
  simp only [copy]
  rw [if_neg (by omega)]

/-- Filling changes only the range filled. -/
theorem sameOutside_fill (m : Mem) (a n : ℕ) (v : UInt8) : SameOutside a n m (m.fill a n v) := by
  intro x hx
  simp only [fill]
  rw [if_neg (by omega)]

/-- Writing nothing. -/
@[simp] theorem write_nil (m : Mem) (a : ℕ) : m.write a [] = m := by
  funext x
  simp only [write]
  rw [if_neg (by simp)]

/-- Writing a block and then the block behind it. -/
theorem write_append (m : Mem) (a : ℕ) (bs cs : List UInt8) :
    (m.write a bs).write (a + bs.length) cs = m.write a (bs ++ cs) := by
  funext x
  simp only [write, List.length_append]
  by_cases hsecond : a + bs.length ≤ x ∧ x < a + bs.length + cs.length
  · rw [if_pos hsecond, if_pos (by omega), List.getD_append_right _ _ _ _ (by omega), Nat.sub_sub]
  · rw [if_neg hsecond]
    by_cases hfirst : a ≤ x ∧ x < a + bs.length
    · rw [if_pos hfirst, if_pos (by omega), List.getD_append _ _ _ _ (by omega)]
    · rw [if_neg hfirst, if_neg (by omega)]

/-- A written block reads back. -/
@[simp] theorem read_write (m : Mem) (a : ℕ) (bs : List UInt8) :
    (m.write a bs).read a bs.length = bs := by
  apply List.ext_getElem (by simp)
  intro i hi hi'
  have hin : a ≤ a + i ∧ a + i < a + bs.length := by omega
  simp [write, hin, List.getElem?_eq_getElem hi', -getElem?_pos]

/-- A written block reads back at its length. -/
theorem read_write_of_length {m : Mem} {a n : ℕ} {bs : List UInt8} (h : bs.length = n) :
    (m.write a bs).read a n = bs := by
  subst h
  exact read_write m a bs

/-- A written number reads back when it fits. -/
theorem readLE_write_leBytes {m : Mem} {a w n : ℕ} (h : n < 256 ^ w) :
    (m.write a (leBytes w n)).readLE a w = n := by
  rw [readLE, read_write_of_length (length_leBytes w n), leNat_leBytes_of_lt h]

/-- A copied block reads as its source did. -/
theorem copy_apply {m : Mem} {dst src n i : ℕ} (hi : i < n) :
    m.copy dst src n (dst + i) = m (src + i) := by
  simp only [copy]
  rw [if_pos (by omega), Nat.add_sub_cancel_left]

/-- A copied block reads as its source did. -/
theorem read_copy (m : Mem) (dst src n : ℕ) : (m.copy dst src n).read dst n = m.read src n := by
  apply List.ext_getElem (by simp)
  intro i hi _
  simpa using copy_apply (by simpa using hi)

/-- The byte at a place that was filled. -/
theorem fill_apply {m : Mem} {a n i : ℕ} {v : UInt8} (hi : i < n) : m.fill a n v (a + i) = v := by
  simp only [fill]
  rw [if_pos (by omega)]

end Mem

end OfsConvert
