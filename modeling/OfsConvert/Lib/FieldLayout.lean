import OfsConvert.Lib.Memory

/-!
# Records of fixed-width fields

A packed record is a list of little-endian fields, each with its width and its value. Every field
is found behind the widths of those before it.
-/

namespace OfsConvert

/-- The bytes of a packed record. -/
def encodeFields (fields : List (ℕ × ℕ)) : List UInt8 := fields.flatMap fun f => leBytes f.1 f.2

/-- The offset of a field: what the fields before it take up. -/
def fieldOffset (fields : List (ℕ × ℕ)) (i : ℕ) : ℕ := ((fields.take i).map Prod.fst).sum

section

variable {fields : List (ℕ × ℕ)} {f : ℕ × ℕ} {m : Mem} {p i : ℕ}

/-- The encoding is as long as its fields together. -/
theorem length_encodeFields (fields : List (ℕ × ℕ)) :
    (encodeFields fields).length = (fields.map Prod.fst).sum := by
  induction fields with
  | nil => rfl
  | cons f fields ih =>
    rw [encodeFields, List.flatMap_cons, List.length_append, length_leBytes, List.map_cons,
      List.sum_cons, ← ih, encodeFields]

/-- A field starts behind the first and those between. -/
theorem fieldOffset_succ (f : ℕ × ℕ) (fields : List (ℕ × ℕ)) (i : ℕ) :
    fieldOffset (f :: fields) (i + 1) = f.1 + fieldOffset fields i := by
  simp [fieldOffset]

/-- The bytes at the offset of a field are those of its value. -/
theorem take_drop_encodeFields (h : fields[i]? = some f) :
    ((encodeFields fields).drop (fieldOffset fields i)).take f.1 = leBytes f.1 f.2 := by
  induction fields generalizing i with
  | nil => cases h
  | cons f' fields ih =>
    have hcons : encodeFields (f' :: fields) = leBytes f'.1 f'.2 ++ encodeFields fields :=
      List.flatMap_cons
    rw [hcons]
    cases i with
    | zero =>
      obtain rfl := Option.some.inj h
      exact List.take_left' (length_leBytes _ _)
    | succ i =>
      rw [fieldOffset_succ, ← List.drop_drop, List.drop_left' (length_leBytes _ _)]
      exact ih h

/-- A field ends inside the record. -/
theorem fieldOffset_add_le (h : fields[i]? = some f) :
    fieldOffset fields i + f.1 ≤ (fields.map Prod.fst).sum := by
  induction fields generalizing i with
  | nil => cases h
  | cons f' fields ih =>
    rw [List.map_cons, List.sum_cons]
    cases i with
    | zero =>
      obtain rfl := Option.some.inj h
      simp [fieldOffset]
    | succ i =>
      have hle := ih h
      rw [fieldOffset_succ]
      omega

/-- Reading a field of a stored record gives its value. -/
theorem readLE_field {w v o : ℕ}
    (hread : m.read p (encodeFields fields).length = encodeFields fields) (i : ℕ)
    (h : fields[i]? = some (w, v)) (ho : fieldOffset fields i = o) (hv : v < 256 ^ w) :
    m.readLE (p + o) w = v := by
  have hle := fieldOffset_add_le h
  rw [← length_encodeFields] at hle
  have hpiece := take_drop_encodeFields h
  rw [← hread, Mem.read_drop_take _ _ _ _ _ hle, ho] at hpiece
  rw [Mem.readLE, hpiece, leNat_leBytes_of_lt hv]

end

end OfsConvert
