import OfsConvert.TreeBuilder

/-!
# Blocks of a directory

The entries of a block follow one another by their widths. `packFrom` says how the entries of a
directory come to lie in its blocks: an entry that does not fit into the rest of a block goes to
the next one, and the entry before it is stretched to the end.
-/

namespace OfsConvert

/-- A directory entry: its inode, its name and the distance to the entry behind it. -/
structure DirEntry where
  inode : ℕ
  name : List UInt8
  width : ℕ
  deriving DecidableEq

/-- The entry as `build_dentry` and `build_special_dentry` make it. -/
def newEntry (inode : ℕ) (name : List UInt8) : DirEntry :=
  ⟨inode, name, nextMultipleOfFour (name.length + 8)⟩

/-- The two entries at the start of a directory. -/
def dotEntry (inode : ℕ) : DirEntry := newEntry inode [0x2E]

/-- The entry `..` of a directory. -/
def dotDotEntry (parent : ℕ) : DirEntry := newEntry parent [0x2E, 0x2E]

/-- The inode and the name of an entry, which do not change when it is stretched. -/
def DirEntry.key (e : DirEntry) : ℕ × List UInt8 := (e.inode, e.name)

/-- The entry with `rest` more bytes behind it. -/
def DirEntry.stretch (e : DirEntry) (rest : ℕ) : DirEntry := { e with width := e.width + rest }

/-- The bytes of a block that some entries take up. -/
def entriesWidth (es : List DirEntry) : ℕ := (es.map DirEntry.width).sum

/-- The entry is well formed: its name fits, and the next entry is aligned. -/
structure DirEntry.Sound (e : DirEntry) : Prop where
  fits : 8 + e.name.length ≤ e.width
  aligned : e.width % 4 = 0
  inode : e.inode < 2 ^ 32
  short : e.name.length < 256

/-- An address holds an entry. -/
structure HasEntry (m : Mem) (a : ℕ) (e : DirEntry) : Prop where
  inode : m.readLE a 4 = e.inode
  recLen : m.readLE (a + recLenOffset) 2 = u16 e.width
  nameLen : m.readLE (a + 6) 2 = e.name.length
  name : m.read (a + 8) e.name.length = e.name

/-- The entries from an address on. -/
def HasEntries (m : Mem) : ℕ → List DirEntry → Prop
  | _, [] => True
  | a, e :: es => HasEntry m a e ∧ HasEntries m (a + e.width) es

/-- A full block: the entries with the last one stretched to the end of the block. -/
def fullBlock (size : ℕ) (before : List DirEntry) (last : DirEntry) : List DirEntry :=
  before ++ [last.stretch (size - (entriesWidth before + last.width))]

/-- How entries are packed into blocks of a size, given the entries of the open block: those
before its last one, and that one. -/
def packFrom (size : ℕ) : List DirEntry → DirEntry → List DirEntry → List (List DirEntry)
  | before, last, [] => [fullBlock size before last]
  | before, last, e :: es =>
    if size < entriesWidth before + last.width + e.width then
      fullBlock size before last :: packFrom size [] e es
    else packFrom size (before ++ [last]) e es

/-- The blocks of a directory with the given entries behind the dot entries. -/
def packDirectory (size inode parent : ℕ) (es : List DirEntry) : List (List DirEntry) :=
  packFrom size [dotEntry inode] (dotDotEntry parent) es

/-- The blocks of a directory that is being built: those that are closed, each by its cluster and
its entries, and the open one with its last entry and those in front of it. -/
structure Layout where
  closed : List (ℕ × List DirEntry)
  cluster : ℕ
  before : List DirEntry
  last : DirEntry

/-- The blocks when the open one is closed. -/
def Layout.finish (size : ℕ) (l : Layout) : List (ℕ × List DirEntry) :=
  l.closed ++ [(l.cluster, fullBlock size l.before l.last)]

/-- One more entry, which goes to the cluster `next` if the open block is full. -/
def Layout.add (size next : ℕ) (l : Layout) (e : DirEntry) : Layout :=
  if size < entriesWidth l.before + l.last.width + e.width then ⟨l.finish size, next, [], e⟩
  else { l with before := l.before ++ [l.last], last := e }

/-- The entries of all blocks when some more entries have been packed. -/
def Layout.packed (size : ℕ) (l : Layout) (es : List DirEntry) : List (List DirEntry) :=
  l.closed.map Prod.snd ++ packFrom size l.before l.last es

/-- No entries, no width. -/
@[simp] theorem entriesWidth_nil : entriesWidth [] = 0 := rfl

/-- A single entry is as wide as itself. -/
@[simp] theorem entriesWidth_singleton (e : DirEntry) : entriesWidth [e] = e.width :=
  Nat.add_zero _

/-- The width of a list of entries is that of its first and its rest. -/
theorem entriesWidth_cons (e : DirEntry) (es : List DirEntry) :
    entriesWidth (e :: es) = e.width + entriesWidth es := rfl

/-- The widths of two lists of entries add up. -/
theorem entriesWidth_append (es es' : List DirEntry) :
    entriesWidth (es ++ es') = entriesWidth es + entriesWidth es' := by
  rw [entriesWidth, List.map_append, List.sum_append]
  rfl

/-- A stretched entry is wider by the rest of the block. -/
@[simp] theorem DirEntry.stretch_width (e : DirEntry) (rest : ℕ) :
    (e.stretch rest).width = e.width + rest := rfl

/-- Stretching an entry changes neither its inode nor its name. -/
@[simp] theorem DirEntry.stretch_key (e : DirEntry) (rest : ℕ) : (e.stretch rest).key = e.key := rfl

section Packing

variable {size : ℕ} {before es : List DirEntry} {last e : DirEntry}

/-- The width of an entry with a short name. -/
theorem newEntry_width {name : List UInt8} (inode : ℕ) (h : name.length < 256) :
    (newEntry inode name).width = (name.length + 11) / 4 * 4 :=
  nextMultipleOfFour_eq (by omega)

/-- Entries are built well formed. -/
theorem newEntry_sound {inode : ℕ} {name : List UInt8} (hi : inode < 2 ^ 32)
    (h : name.length < 256) : (newEntry inode name).Sound := by
  have hwidth := newEntry_width inode h
  refine ⟨?_, ?_, hi, h⟩
  · rw [hwidth]
    change 8 + name.length ≤ _
    omega
  · rw [hwidth]
    exact Nat.mul_mod_left _ _

/-- The entry `.` is twelve bytes wide. -/
theorem dotEntry_width (inode : ℕ) : (dotEntry inode).width = ext4DotDentrySize := rfl

/-- The entry `..` is twelve bytes wide. -/
theorem dotDotEntry_width (parent : ℕ) : (dotDotEntry parent).width = ext4DotDentrySize := rfl

/-- An entry may be stretched by whole words. -/
theorem DirEntry.Sound.stretch (h : e.Sound) {rest : ℕ} (hrest : rest % 4 = 0) :
    (e.stretch rest).Sound := by
  have haligned := h.aligned
  refine ⟨h.fits.trans (Nat.le_add_right _ _), ?_, h.inode, h.short⟩
  rw [DirEntry.stretch_width]
  omega

/-- Sound entries fill a multiple of four bytes. -/
theorem entriesWidth_aligned (h : ∀ e ∈ es, DirEntry.Sound e) : entriesWidth es % 4 = 0 := by
  induction es with
  | nil => rfl
  | cons e es ih =>
    have hfirst := (h e List.mem_cons_self).aligned
    have hrest := ih fun d hd => h d (List.mem_cons_of_mem e hd)
    rw [entriesWidth_cons]
    omega

/-- A full block is tiled. -/
theorem fullBlock_width (h : entriesWidth before + last.width ≤ size) :
    entriesWidth (fullBlock size before last) = size := by
  rw [fullBlock, entriesWidth_append, entriesWidth_singleton, DirEntry.stretch_width]
  omega

/-- Filling up a block changes neither inodes nor names. -/
theorem fullBlock_key : (fullBlock size before last).map DirEntry.key =
    (before ++ [last]).map DirEntry.key := by
  rw [fullBlock, List.map_append, List.map_append]
  rfl

/-- A filled up block has sound entries. -/
theorem fullBlock_sound (hsize : size % 4 = 0) (hbefore : ∀ e ∈ before, DirEntry.Sound e)
    (hlast : last.Sound) : ∀ e ∈ fullBlock size before last, DirEntry.Sound e := by
  have hbefore' := entriesWidth_aligned hbefore
  have hlast' := hlast.aligned
  intro e he
  rcases List.mem_append.mp he with hin | hin
  · exact hbefore e hin
  · rw [List.mem_singleton] at hin
    subst hin
    exact hlast.stretch (by omega)

/-- The blocks of a directory hold its entries in order. -/
theorem packFrom_key (size : ℕ) (before : List DirEntry) (last : DirEntry) (es : List DirEntry) :
    (packFrom size before last es).flatten.map DirEntry.key =
      (before ++ last :: es).map DirEntry.key := by
  induction es generalizing before last with
  | nil =>
    rw [packFrom, List.flatten_cons, List.flatten_nil, List.append_nil, fullBlock_key]
  | cons e es ih =>
    rw [packFrom]
    split
    · rw [List.flatten_cons, List.map_append, fullBlock_key, ih, List.nil_append, ← List.map_append,
        List.append_assoc]
      rfl
    · rw [ih, List.append_assoc]
      rfl

/-- Every block is tiled by its entries. -/
theorem packFrom_width (hopen : entriesWidth before + last.width ≤ size)
    (hes : ∀ e ∈ es, e.width ≤ size) :
    ∀ block ∈ packFrom size before last es, entriesWidth block = size := by
  induction es generalizing before last with
  | nil =>
    intro block hblock
    rw [packFrom, List.mem_singleton] at hblock
    rw [hblock]
    exact fullBlock_width hopen
  | cons e es ih =>
    have hrest := fun d hd => hes d (List.mem_cons_of_mem e hd)
    rw [packFrom]
    split
    · intro block hblock
      rcases List.mem_cons.mp hblock with rfl | hmem
      · exact fullBlock_width hopen
      · refine ih ?_ hrest block hmem
        rw [entriesWidth_nil, Nat.zero_add]
        exact hes e List.mem_cons_self
    · refine ih ?_ hrest
      rw [entriesWidth_append, entriesWidth_singleton]
      omega

/-- At least one block is packed. -/
theorem packFrom_ne_nil (size : ℕ) (before : List DirEntry) (last : DirEntry) (es : List DirEntry) :
    packFrom size before last es ≠ [] := by
  induction es generalizing before last with
  | nil => exact List.cons_ne_nil _ _
  | cons e es ih =>
    rw [packFrom]
    split
    · exact List.cons_ne_nil _ _
    · exact ih _ _

/-- Packing no further entries finishes the layout. -/
theorem Layout.packed_nil (size : ℕ) (l : Layout) :
    l.packed size [] = (l.finish size).map Prod.snd := by
  rw [Layout.packed, Layout.finish, List.map_append]
  rfl

/-- Entries are packed one by one. -/
theorem Layout.packed_add (size next : ℕ) (l : Layout) (e : DirEntry) (es : List DirEntry) :
    (l.add size next e).packed size es = l.packed size (e :: es) := by
  rw [Layout.add, Layout.packed, Layout.packed, packFrom]
  split
  · rw [Layout.finish, List.map_append, List.append_assoc]
    rfl
  · rfl

end Packing

section Holding

variable {m m' : Mem} {a : ℕ} {e : DirEntry} {es es' : List DirEntry}

/-- An entry depends on its own bytes only. -/
theorem HasEntry.congr (h : HasEntry m a e) (hs : e.Sound)
    (hm : ∀ x, a ≤ x → x < a + e.width → m' x = m x) : HasEntry m' a e := by
  have hfits := hs.fits
  refine ⟨?_, ?_, ?_, ?_⟩
  · rw [← h.inode]
    exact Mem.readLE_congr fun i hi => hm _ (by omega) (by omega)
  · rw [← h.recLen]
    exact Mem.readLE_congr fun i hi => hm _ (by unfold recLenOffset; omega)
      (by unfold recLenOffset; omega)
  · rw [← h.nameLen]
    exact Mem.readLE_congr fun i hi => hm _ (by omega) (by omega)
  · rw [Mem.read_congr fun i hi => hm _ (by omega) (by omega)]
    exact h.name

/-- Entries stay as long as their bytes do. -/
theorem HasEntries.congr (h : HasEntries m a es) (hs : ∀ e ∈ es, DirEntry.Sound e)
    (hm : ∀ x, a ≤ x → x < a + entriesWidth es → m' x = m x) : HasEntries m' a es := by
  induction es generalizing a with
  | nil => trivial
  | cons e es ih =>
    rw [entriesWidth_cons] at hm
    refine ⟨h.1.congr (hs e List.mem_cons_self) fun x hlow hhigh => hm x hlow (by omega), ?_⟩
    exact ih h.2 (fun d hd => hs d (List.mem_cons_of_mem e hd))
      fun x hlow hhigh => hm x (by omega) (by omega)

/-- Two lists of entries follow one another. -/
theorem HasEntries_append : HasEntries m a (es ++ es') ↔
    HasEntries m a es ∧ HasEntries m (a + entriesWidth es) es' := by
  induction es generalizing a with
  | nil => simp [HasEntries]
  | cons e es ih =>
    rw [List.cons_append, HasEntries, ih, HasEntries, entriesWidth_cons, and_assoc, Nat.add_assoc]

/-- A single entry in memory. -/
theorem HasEntries_singleton : HasEntries m a [e] ↔ HasEntry m a e := and_iff_left trivial

/-- A part of a written block. -/
theorem read_write_part (m : Mem) (a : ℕ) {bs : List UInt8} {i k : ℕ}
    (h : i + k ≤ bs.length) :
    (m.write a bs).read (a + i) k = (bs.drop i).take k := by
  rw [← Mem.read_drop_take _ _ _ _ _ h, Mem.read_write]

/-- As many bytes of an entry as are asked for. -/
theorem Ext4Dentry.length_bytes (d : Ext4Dentry) {n : ℕ} (hn : n ≤ sizeofExt4Dentry) :
    (d.bytes n).length = n := by
  unfold sizeofExt4Dentry at hn
  rw [Ext4Dentry.bytes, List.length_take]
  simp only [List.length_append, length_leBytes, Mem.length_read]
  omega

/-- Storing the first bytes of an entry. -/
theorem hasEntry_write (m : Mem) (a : ℕ) {d : Ext4Dentry} {fresh : Mem} {name : List UInt8} {w n : ℕ}
    (hname : d.name = fresh.write 0 (name ++ [0])) (hlength : d.nameLen = name.length)
    (hrec : d.recLen = u16 w) (hinode : d.inode < 2 ^ 32) (hshort : name.length < 256)
    (hn : 8 + name.length ≤ n) (hn' : n ≤ sizeofExt4Dentry) :
    HasEntry (m.write a (d.bytes n)) a ⟨d.inode, name, w⟩ := by
  have hlist : ∀ i k, i + k ≤ n → (m.write a (d.bytes n)).read (a + i) k =
      ((leBytes 4 d.inode ++ leBytes 2 d.recLen ++ leBytes 2 d.nameLen ++
        d.name.read 0 256).drop i).take k := by
    intro i k hik
    have hbytes := d.length_bytes hn'
    rw [read_write_part _ _ (by omega), Ext4Dentry.bytes, List.drop_take, List.take_take,
      Nat.min_eq_left (by omega)]
  refine ⟨?_, ?_, ?_, ?_⟩
  · have hpart := hlist 0 4 (by omega)
    rw [Nat.add_zero, List.drop_zero, List.append_assoc, List.append_assoc,
      List.take_left' (length_leBytes _ _)] at hpart
    rw [Mem.readLE, hpart, leNat_leBytes_of_lt (by omega)]
  · have hpart := hlist recLenOffset 2 (by unfold recLenOffset; omega)
    rw [List.append_assoc, List.append_assoc,
      List.drop_left' (by rw [length_leBytes]; rfl), List.take_left' (length_leBytes _ _)] at hpart
    have hlt := u16_lt w
    rw [Mem.readLE, hpart, hrec, leNat_leBytes_of_lt (by omega)]
  · have hpart := hlist 6 2 (by omega)
    rw [List.append_assoc, List.drop_left' (by simp),
      List.take_left' (length_leBytes _ _)] at hpart
    rw [Mem.readLE, hpart, hlength, leNat_leBytes_of_lt (by omega)]
  · have hpart := hlist 8 name.length (by omega)
    rw [List.drop_left' (by simp)] at hpart
    have hread : (d.name.read 0 256).take name.length = name := by
      have hinitial := Mem.read_drop_take d.name 0 256 0 name.length (by omega)
      rw [List.drop_zero, Nat.zero_add] at hinitial
      have hwrite := read_write_part fresh 0
        (show 0 + name.length ≤ (name ++ [0]).length by simp)
      rw [Nat.add_zero, List.drop_zero, List.take_left' rfl] at hwrite
      rw [hinitial, hname, hwrite]
    rw [hpart, hread]

/-- `build_dentry` and `build_special_dentry` make new entries. -/
theorem hasEntry_write_new (m : Mem) (a : ℕ) (fresh : Ext4Dentry) {inode : ℕ} {name : List UInt8}
    (hinode : inode < 2 ^ 32) (hshort : name.length < 256) :
    HasEntry (m.write a ((namedDentry fresh inode name).bytes (namedDentry fresh inode name).recLen))
      a (newEntry inode name) := by
  have hwidth := newEntry_width inode hshort
  have hrec : (namedDentry fresh inode name).recLen = (newEntry inode name).width := rfl
  rw [hrec]
  have hlt : (newEntry inode name).width < 2 ^ 16 := by omega
  exact hasEntry_write m a rfl rfl (u16_of_lt hlt).symm hinode hshort (by omega)
    (by unfold sizeofExt4Dentry; omega)

/-- Stretching an entry. -/
theorem hasEntry_stretch {m : Mem} {a : ℕ} {e : DirEntry} (h : HasEntry m a e) (rest : ℕ) :
    HasEntry (m.write (a + recLenOffset)
      (leBytes 2 (u16 (m.readLE (a + recLenOffset) 2 + rest)))) a (e.stretch rest) := by
  have hwrite := Mem.sameOutside_write m (a + recLenOffset)
    (leBytes 2 (u16 (m.readLE (a + recLenOffset) 2 + rest)))
  rw [length_leBytes] at hwrite
  unfold recLenOffset at *
  refine ⟨?_, ?_, ?_, ?_⟩
  · rw [hwrite.readLE_eq (Or.inl le_rfl)]
    exact h.inode
  · have hlt := u16_lt (m.readLE (a + 4) 2 + rest)
    have hmod : u16 (m.readLE (a + 4) 2 + rest) = u16 (e.width + rest) := by
      have hrec := h.recLen
      unfold recLenOffset at hrec
      rw [hrec]
      unfold u16
      exact Nat.mod_add_mod _ _ _
    unfold recLenOffset
    rw [Mem.readLE_write_leBytes (by omega), hmod]
    rfl
  · rw [hwrite.readLE_eq (Or.inr (by omega))]
    exact h.nameLen
  · have hname := h.name
    rw [hwrite.read_eq (Or.inr (by omega))]
    exact hname

end Holding

end OfsConvert
