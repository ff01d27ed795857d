import OfsConvert.Ext4
import OfsConvert.Lib.Utf8
import OfsConvert.ReadStream

/-!
# Directory entries of ext4

`ext4_dentry.cpp`: an entry is built from the name segments in the stream. Pointers into the name
are indices into its bytes; the entry is allocated uninitialised, so the bytes that it starts with
are a parameter.
-/

namespace OfsConvert

/-- The longest name of a directory entry. -/
def ext4NameLen : ℕ := 255

/-- The width of the entries `.` and `..`. -/
def ext4DotDentrySize : ℕ := 12

/-- `struct ext4_dentry`; the memory of the name array starts at address 0. -/
structure Ext4Dentry where
  inode : ℕ
  recLen : ℕ
  nameLen : ℕ
  name : Mem
  deriving Inhabited

/-- `sizeof(ext4_dentry)`: the array is followed by a byte of padding. -/
def sizeofExt4Dentry : ℕ := 264

/-- The first bytes of an entry. -/
def Ext4Dentry.bytes (d : Ext4Dentry) (n : ℕ) : List UInt8 :=
  (leBytes 4 d.inode ++ leBytes 2 d.recLen ++ leBytes 2 d.nameLen ++ d.name.read 0 256).take n

/-- `next_multiple_of_four`. -/
def nextMultipleOfFour (n : ℕ) : ℕ := u32 (ceildiv32 n 4 * 4)

/-- The loop of `ucs2toutf8`; the result is the position behind the last byte. -/
def ucs2toutf8Loop (destEnd : ℕ) : List ℕ → ℕ → Mem → ℕ × Mem
  | [], pos, m => (pos, m)
  | ch :: src, pos, m =>
    if ch = 0 then (pos, m)
    else if ch < 0x80 then
      if destEnd ≤ pos then (pos, m)
      else ucs2toutf8Loop destEnd src (pos + 1) (m.write pos [UInt8.ofNat ch])
    else if ch < 0x800 then
      if destEnd - 1 ≤ pos then (pos, m)
      else ucs2toutf8Loop destEnd src (pos + 2)
        (m.write pos [UInt8.ofNat ((ch >>> 6) ||| 0xC0), UInt8.ofNat ((ch &&& 0x3F) ||| 0x80)])
    else
      if destEnd - 2 ≤ pos then (pos, m)
      else ucs2toutf8Loop destEnd src (pos + 3)
        (m.write pos [UInt8.ofNat ((ch >>> 12) ||| 0xE0),
          UInt8.ofNat (((ch >>> 6) &&& 0x3F) ||| 0x80), UInt8.ofNat ((ch &&& 0x3F) ||| 0x80)])

/-- `ucs2toutf8`: the number of bytes written and the memory after it. -/
def ucs2toutf8 (dest destEnd : ℕ) (src : List ℕ) (m : Mem) : ℕ × Mem :=
  let (pos, m) := ucs2toutf8Loop destEnd src dest m
  (pos - dest, m)

/-- The 13 units of a name segment. -/
def unitsAt (m : Mem) (p : ℕ) : List ℕ :=
  (List.range lfnEntryLength).map fun i => m.readLE (p + 2 * i) 2

/-- The loop of `build_dentry`, with the call in front of it and the one at its end. -/
def appendSegments (g : Globals) (dirInodeNo : ℕ) :
    ℕ → Ext4Dentry → StreamArchiver → Prog (Ext4Dentry × StreamArchiver)
  | 0, _, _ => throw .fuel
  | fuel + 1, dentry, readStream => do
    let (segment, readStream) ← readNext g dirInodeNo (lfnEntryLength * 2) readStream
    if segment ≠ 0 then
      let m ← getMem
      let (bytesWritten, name) :=
        ucs2toutf8 dentry.nameLen (ext4NameLen - 1) (unitsAt m segment) dentry.name
      appendSegments g dirInodeNo fuel
        { dentry with nameLen := u16 (dentry.nameLen + bytesWritten), name := name } readStream
    else
      pure (dentry, readStream)

/-- `build_dentry`; `fresh` is the entry as it was allocated. -/
def buildDentry (g : Globals) (dirInodeNo fuel : ℕ) (fresh : Ext4Dentry) (inodeNumber : ℕ)
    (readStream : StreamArchiver) : Prog (Ext4Dentry × StreamArchiver) := do
  let (dentry, readStream) ←
    appendSegments g dirInodeNo fuel { fresh with inode := inodeNumber, nameLen := 0 } readStream
  pure ({ dentry with
    name := dentry.name.write dentry.nameLen [0]
    recLen := u16 (nextMultipleOfFour (dentry.nameLen + 8)) }, readStream)

/-- `build_special_dentry` for a name of characters other than 0. -/
def buildSpecialDentry (fresh : Ext4Dentry) (inodeNo : ℕ) (name : List UInt8) : Ext4Dentry where
  inode := inodeNo
  nameLen := u16 name.length
  name := fresh.name.write 0 (name ++ [0])
  recLen := u16 (nextMultipleOfFour (u16 name.length + 8))

/-- `build_dot_dir_dentry`. -/
def buildDotDirDentry (fresh : Ext4Dentry) (dirInodeNo : ℕ) : Ext4Dentry :=
  buildSpecialDentry fresh dirInodeNo [0x2E]

/-- `build_dot_dot_dir_dentry`. -/
def buildDotDotDirDentry (fresh : Ext4Dentry) (parentInodeNo : ℕ) : Ext4Dentry :=
  buildSpecialDentry fresh parentInodeNo [0x2E, 0x2E]

/-- `build_lost_found_dentry`. -/
def buildLostFoundDentry (fresh : Ext4Dentry) : Ext4Dentry :=
  buildSpecialDentry fresh ext4LostFoundInode
    [0x6C, 0x6F, 0x73, 0x74, 0x2B, 0x66, 0x6F, 0x75, 0x6E, 0x64]

section Names

variable {m : Mem} {pos destEnd ch : ℕ}

/-- The leading bits of UTF-8 add to the low ones. -/
private theorem or_leading : (∀ n < 64, n ||| 0x80 = 0x80 + n) ∧ (∀ n < 32, n ||| 0xC0 = 0xC0 + n) ∧
    ∀ n < 16, n ||| 0xE0 = 0xE0 + n := by
  decide

/-- The low six bits are a remainder. -/
private theorem and_low (n : ℕ) : n &&& 0x3F = n % 64 := Nat.and_two_pow_sub_one_eq_mod n 6

/-- The two bytes that are written for a character below 0x800. -/
theorem utf8Unit_two (hlow : ¬ ch < 0x80) (hhigh : ch < 0x800) :
    [UInt8.ofNat ((ch >>> 6) ||| 0xC0), UInt8.ofNat ((ch &&& 0x3F) ||| 0x80)] = utf8Unit ch := by
  obtain ⟨hlast, hfirst, -⟩ := or_leading
  rw [utf8Unit, if_neg hlow, if_pos hhigh, and_low, hlast _ (Nat.mod_lt _ (by norm_num)),
    Nat.shiftRight_eq_div_pow, hfirst _ (by omega)]

/-- The three bytes that are written for any other character. -/
theorem utf8Unit_three (hlow : ¬ ch < 0x80) (hmiddle : ¬ ch < 0x800) (hhigh : ch < 2 ^ 16) :
    [UInt8.ofNat ((ch >>> 12) ||| 0xE0), UInt8.ofNat (((ch >>> 6) &&& 0x3F) ||| 0x80),
      UInt8.ofNat ((ch &&& 0x3F) ||| 0x80)] = utf8Unit ch := by
  obtain ⟨hlast, -, hfirst⟩ := or_leading
  rw [utf8Unit, if_neg hlow, if_neg hmiddle, and_low, and_low,
    hlast _ (Nat.mod_lt _ (by norm_num)), hlast _ (Nat.mod_lt _ (by norm_num)),
    Nat.shiftRight_eq_div_pow, Nat.shiftRight_eq_div_pow, hfirst _ (by omega)]

/-- A segment is kept up to its first 0 and as far as it fits. -/
def keptUnits (room : ℕ) (segment : List ℕ) : List ℕ :=
  fitting utf8Width room (segment.takeWhile (· ≠ 0))

/-- A segment ends at its terminator. -/
theorem keptUnits_zero (room : ℕ) (src : List ℕ) : keptUnits room (0 :: src) = [] := by
  simp [keptUnits, fitting]

/-- A code unit is kept where there is room for it, and with it those behind. -/
theorem keptUnits_cons (room : ℕ) (src : List ℕ) (hch : ch ≠ 0) :
    keptUnits room (ch :: src) =
      if utf8Width ch ≤ room then ch :: keptUnits (room - utf8Width ch) src else [] := by
  simp [keptUnits, fitting, hch]

/-- Where the loop stops, it has written nothing more. -/
private theorem stopped (pos : ℕ) (m : Mem) :
    (pos, m) = (pos + (utf8 []).length, m.write pos (utf8 [])) := by
  rw [utf8_nil, List.length_nil, Nat.add_zero, Mem.write_nil]

/-- The loop writes the encoding of the characters that it keeps. -/
theorem ucs2toutf8Loop_eq (destEnd : ℕ) {src : List ℕ} (hsrc : ∀ u ∈ src, u < 2 ^ 16) (pos : ℕ)
    (m : Mem) : ucs2toutf8Loop destEnd src pos m =
      (pos + (utf8 (keptUnits (destEnd - pos) src)).length,
        m.write pos (utf8 (keptUnits (destEnd - pos) src))) := by
  induction src generalizing pos m with
  | nil => exact stopped pos m
  | cons ch src ih =>
    have hch := hsrc ch (by simp)
    -- one character that fits, then the rest
    have hstep : ∀ bytes : List UInt8, bytes = utf8Unit ch → ch ≠ 0 →
        utf8Width ch ≤ destEnd - pos →
        ucs2toutf8Loop destEnd src (pos + bytes.length) (m.write pos bytes) =
          (pos + (utf8 (keptUnits (destEnd - pos) (ch :: src))).length,
            m.write pos (utf8 (keptUnits (destEnd - pos) (ch :: src)))) := by
      intro bytes hbytes hne hfits
      have hwidth : utf8Width ch = bytes.length := by rw [hbytes, utf8Width]
      rw [ih (fun u hu => hsrc u (by simp [hu])), keptUnits_cons _ _ hne, if_pos hfits, utf8_cons,
        ← hbytes, List.length_append, Mem.write_append, Nat.add_assoc, hwidth, Nat.sub_sub]
    have hwidth := utf8Width_eq ch
    rw [ucs2toutf8Loop]
    by_cases hzero : ch = 0
    · rw [if_pos hzero, hzero, keptUnits_zero]
      exact stopped pos m
    · rw [if_neg hzero]
      by_cases hone : ch < 0x80
      · rw [if_pos hone]
        rw [if_pos hone] at hwidth
        split
        · rw [keptUnits_cons _ _ hzero, if_neg (by omega)]
          exact stopped pos m
        · exact hstep [UInt8.ofNat ch] (by rw [utf8Unit, if_pos hone]) hzero (by omega)
      · rw [if_neg hone]
        rw [if_neg hone] at hwidth
        by_cases htwo : ch < 0x800
        · rw [if_pos htwo]
          rw [if_pos htwo] at hwidth
          split
          · rw [keptUnits_cons _ _ hzero, if_neg (by omega)]
            exact stopped pos m
          · exact hstep _ (utf8Unit_two hone htwo) hzero (by omega)
        · rw [if_neg htwo]
          rw [if_neg htwo] at hwidth
          split
          · rw [keptUnits_cons _ _ hzero, if_neg (by omega)]
            exact stopped pos m
          · exact hstep _ (utf8Unit_three hone htwo hch) hzero (by omega)

/-- `ucs2toutf8` writes the encoding of the characters that it keeps. -/
theorem ucs2toutf8_eq (dest destEnd : ℕ) {src : List ℕ} (hsrc : ∀ u ∈ src, u < 2 ^ 16) (m : Mem) :
    ucs2toutf8 dest destEnd src m =
      ((utf8 (keptUnits (destEnd - dest) src)).length,
        m.write dest (utf8 (keptUnits (destEnd - dest) src))) := by
  rw [ucs2toutf8, ucs2toutf8Loop_eq destEnd hsrc]
  simp only [Nat.add_sub_cancel_left]

/-- What is kept of the segments of a name: each segment is cut on its own. -/
def keptName (room : ℕ) : List (List ℕ) → List ℕ
  | [] => []
  | segment :: segments =>
    keptUnits room segment ++
      keptName (room - textWidth utf8Width (keptUnits room segment)) segments

/-- The bytes of the kept name fit. -/
theorem textWidth_keptName_le (room : ℕ) (segments : List (List ℕ)) :
    textWidth utf8Width (keptName room segments) ≤ room := by
  induction segments generalizing room with
  | nil => exact Nat.zero_le room
  | cons segment segments ih =>
    have hfirst : textWidth utf8Width (keptUnits room segment) ≤ room := textWidth_fitting_le _ _
    have hrest := ih (room - textWidth utf8Width (keptUnits room segment))
    rw [keptName, textWidth_append]
    omega

/-- The units that the bytes of a segment spell. -/
def unitsOf (bytes : List UInt8) : List ℕ :=
  (List.range lfnEntryLength).map fun i => leNat ((bytes.drop (2 * i)).take 2)

/-- The code units in memory are those of the bytes read. -/
theorem unitsAt_eq (m : Mem) (p : ℕ) : unitsAt m p = unitsOf (m.read p (lfnEntryLength * 2)) := by
  refine List.map_congr_left fun i hi => ?_
  have hlt := List.mem_range.mp hi
  rw [Mem.read_drop_take _ _ _ _ _ (by omega), Mem.readLE]

/-- The code units in memory have 16 bits. -/
theorem unitsAt_lt (m : Mem) (p : ℕ) : ∀ u ∈ unitsAt m p, u < 2 ^ 16 := by
  intro u hu
  obtain ⟨i, -, rfl⟩ := List.mem_map.mp hu
  exact Mem.readLE_lt m (p + 2 * i) 2

/-- The entry with a given name. -/
def namedDentry (fresh : Ext4Dentry) (inodeNo : ℕ) (name : List UInt8) : Ext4Dentry where
  inode := inodeNo
  nameLen := name.length
  name := fresh.name.write 0 (name ++ [0])
  recLen := nextMultipleOfFour (name.length + 8)

/-- Rounding up to four, without overflow. -/
theorem nextMultipleOfFour_eq {n : ℕ} (h : n < 2 ^ 31) : nextMultipleOfFour n = (n + 3) / 4 * 4 := by
  unfold nextMultipleOfFour ceildiv32 u32
  omega

/-- A special entry is the entry with its name. -/
theorem buildSpecialDentry_eq (fresh : Ext4Dentry) (inodeNo : ℕ) {name : List UInt8}
    (h : name.length ≤ ext4NameLen) :
    buildSpecialDentry fresh inodeNo name = namedDentry fresh inodeNo name := by
  unfold ext4NameLen at h
  have hlength : u16 name.length = name.length := u16_of_lt (by omega)
  have hrec : u16 (nextMultipleOfFour (name.length + 8)) = nextMultipleOfFour (name.length + 8) := by
    rw [nextMultipleOfFour_eq (by omega)]
    exact u16_of_lt (by omega)
  rw [buildSpecialDentry, namedDentry, hlength, hrec]

end Names

section Building

variable {g : Globals} {dirInodeNo : ℕ} {r r' : StreamArchiver} {s : State} {es : Segment}
  {E : Halt → State → Prop}

/-- The loop reads the segment to its end and appends what is kept of each element. -/
theorem appendSegments_spec {fuel : ℕ}
    (hfuel : es.length < fuel ∨ ∀ t, LogOnly s t → E .fuel t) {d : Ext4Dentry}
    (hroom : d.nameLen ≤ ext4NameLen - 1)
    (h : Yields g (lfnEntryLength * 2) s.mem es r r') :
    wp (appendSegments g dirInodeNo fuel d r)
      (fun x t => t = s.logSegment dirInodeNo es ∧
        x = ({ d with
          nameLen := d.nameLen +
            (utf8 (keptName (ext4NameLen - 1 - d.nameLen) (es.map unitsOf))).length
          name := d.name.write d.nameLen
            (utf8 (keptName (ext4NameLen - 1 - d.nameLen) (es.map unitsOf))) }, r'))
      E s := by
  induction fuel generalizing es d r s with
  | zero => exact hfuel.elim (fun h => absurd h (Nat.not_lt_zero _)) fun h => h s (LogOnly.refl s)
  | succ fuel ih =>
    rw [appendSegments, wp_bind]
    cases es with
    | nil =>
      refine wp_mono_ok (readNext_nil h) fun x t hx => ?_
      obtain ⟨rfl, rfl⟩ := hx
      refine ⟨rfl, ?_⟩
      rw [List.map_nil, keptName, utf8_nil, Mem.write_nil]
      rfl
    | cons e es =>
      refine wp_mono_ok (readNext_cons h) fun x t hx => ?_
      obtain ⟨rfl, hne, hread, hrest⟩ := hx
      have hunits : unitsAt s.mem x.1 = unitsOf e := by rw [unitsAt_eq, hread]
      have hlt := unitsAt_lt s.mem x.1
      rw [hunits] at hlt
      have hkept : textWidth utf8Width (keptUnits (ext4NameLen - 1 - d.nameLen) (unitsOf e)) ≤
          ext4NameLen - 1 - d.nameLen := textWidth_fitting_le _ _
      have hlength := length_utf8 (keptUnits (ext4NameLen - 1 - d.nameLen) (unitsOf e))
      have hnarrow : u16 (d.nameLen +
          (utf8 (keptUnits (ext4NameLen - 1 - d.nameLen) (unitsOf e))).length) =
          d.nameLen + (utf8 (keptUnits (ext4NameLen - 1 - d.nameLen) (unitsOf e))).length := by
        unfold ext4NameLen at *
        exact u16_of_lt (by omega)
      dsimp only
      rw [if_pos hne]
      simp only [wp_bind, wp_getMem, State.logRead_mem, hunits, ucs2toutf8_eq _ _ hlt, hnarrow]
      have hfuel' : es.length < fuel ∨
          ∀ t, LogOnly (s.logRead dirInodeNo (some e)) t → E .fuel t := by
        refine hfuel.imp (fun hmuch => by simpa using hmuch) fun hstop t ht => ?_
        exact hstop t ((LogOnly.logRead s dirInodeNo (some e)).trans ht)
      refine wp_mono_ok (ih (s := s.logRead dirInodeNo (some e)) hfuel'
        (by dsimp only; omega) hrest) fun y u hy => ?_
      obtain ⟨rfl, rfl⟩ := hy
      refine ⟨rfl, ?_⟩
      dsimp only
      rw [List.map_cons, keptName, utf8_append, List.length_append, Mem.write_append, hlength,
        ← Nat.sub_sub, Nat.add_assoc]

/-- `build_dentry` builds the entry named by what is kept of the segments. -/
theorem buildDentry_spec (dirInodeNo : ℕ) {fuel : ℕ}
    (hfuel : es.length < fuel ∨ ∀ t, LogOnly s t → E .fuel t) (fresh : Ext4Dentry) (inodeNo : ℕ)
    (h : Yields g (lfnEntryLength * 2) s.mem es r r') :
    wp (buildDentry g dirInodeNo fuel fresh inodeNo r)
      (fun x t => t = s.logSegment dirInodeNo es ∧
        x = (namedDentry fresh inodeNo
          (utf8 (keptName (ext4NameLen - 1) (es.map unitsOf))), r'))
      E s := by
  rw [buildDentry, wp_bind]
  refine wp_mono_ok (appendSegments_spec hfuel (Nat.zero_le _) h) fun x t hx => ?_
  obtain ⟨rfl, rfl⟩ := hx
  refine ⟨rfl, ?_⟩
  have hkept := textWidth_keptName_le (ext4NameLen - 1) (es.map unitsOf)
  have hlength := length_utf8 (keptName (ext4NameLen - 1) (es.map unitsOf))
  have hrec : u16 (nextMultipleOfFour
      ((utf8 (keptName (ext4NameLen - 1) (es.map unitsOf))).length + 8)) =
      nextMultipleOfFour ((utf8 (keptName (ext4NameLen - 1) (es.map unitsOf))).length + 8) := by
    unfold ext4NameLen at *
    rw [nextMultipleOfFour_eq (by omega)]
    exact u16_of_lt (by omega)
  dsimp only
  rw [Nat.sub_zero, Nat.zero_add, hrec, namedDentry, ← Mem.write_append, Nat.zero_add]

end Building

end OfsConvert
