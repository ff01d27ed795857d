import OfsConvert.DirectoryBlocks
import OfsConvert.FatTree
import OfsConvert.TreeDeepening

/-!
# Reading an ext4 volume

What a file system driver makes of the bytes of an ext4 volume: the block behind a logical block of
an inode, the entries of a directory block, and the tree below a directory. None of this is part of
the conversion; it says what the volume that the conversion leaves means.
-/

namespace OfsConvert

/-- The entries of a leaf. -/
def leafExtents (m : Mem) (header : ℕ) : List Ext4Extent :=
  (List.range (ehEntries m header)).map fun i => ext4ExtentAt m (entryAddr header i)

/-- The entries of an index node: the first logical block and the block of each child. -/
def indexEntries (m : Mem) (header : ℕ) : List (ℕ × ℕ) :=
  (List.range (ehEntries m header)).map fun i =>
    let p := entryAddr header i
    (m.readLE p 4, fromLoHi (m.readLE (p + 4) 4) (m.readLE (p + 8) 2))

/-- The block behind a logical block, if an extent covers it. -/
def coveringBlock (es : List Ext4Extent) (k : ℕ) : Option ℕ :=
  (es.find? fun e => decide (e.eeBlock ≤ k ∧ k < e.eeBlock + e.eeLen)).map fun e =>
    e.start + (k - e.eeBlock)

/-- The block behind a logical block, in the tree below a header: the way down leads through the
last index entry that is not behind the logical block. -/
def mapBlock (g : Globals) (m : Mem) (k : ℕ) : ℕ → ℕ → Option ℕ
  | 0, _ => none
  | levels + 1, header =>
    if m.readLE header 2 = ehMagic then
      if ehDepth m header = 0 then coveringBlock (leafExtents m header) k
      else match ((indexEntries m header).filter fun x => decide (x.1 ≤ k)).getLast? with
        | none => none
        | some x => mapBlock g m k levels (blockStart g.metaInfo g.sb x.2)
    else none

/-- An extent tree has at most five levels below its root. -/
def extentLevels : ℕ := 6

/-- The block behind a logical block of an inode. -/
def inodeBlock (g : Globals) (m : Mem) (n k : ℕ) : Option ℕ :=
  mapBlock g m k extentLevels (rootHeader g n)

/-- The byte at a place in an inode. -/
def inodeByte (g : Globals) (m : Mem) (n i : ℕ) : Option UInt8 :=
  (inodeBlock g m n (i / blockSize g.sb)).map fun b =>
    m (blockStart g.metaInfo g.sb b + i % blockSize g.sb)

/-- The entry at an address in a block of a size; 0 stands for the distance 2^16. -/
def readEntry (m : Mem) (size p : ℕ) : DirEntry where
  inode := m.readLE p 4
  name := m.read (p + 8) (m.readLE (p + 6) 2)
  width := if m.readLE (p + recLenOffset) 2 = 0 then size else m.readLE (p + recLenOffset) 2

/-- The entries of a block from an address on, with the bytes that are left of the block; none if
an entry ends behind the block. -/
def readEntries (m : Mem) (size : ℕ) : ℕ → ℕ → ℕ → Option (List DirEntry)
  | _, _, 0 => some []
  | 0, _, _ + 1 => none
  | fuel + 1, p, rest + 1 =>
    let e := readEntry m size p
    if 8 + e.name.length ≤ e.width ∧ e.width ≤ rest + 1 then
      (readEntries m size fuel (p + e.width) (rest + 1 - e.width)).map (e :: ·)
    else none

/-- The inodes and names in the blocks of a directory, up to its size. -/
def readDirectory (g : Globals) (m : Mem) (n : ℕ) : Option (List (ℕ × List UInt8)) := do
  let blocks ← (List.range (sizeOf g m n / blockSize g.sb)).mapM (inodeBlock g m n)
  let entries ← blocks.mapM fun b =>
    readEntries m (blockSize g.sb) (blockSize g.sb) (blockStart g.metaInfo g.sb b) (blockSize g.sb)
  pure (entries.flatten.map DirEntry.key)

/-- A file or directory as it is seen; what a directory holds are its children. -/
structure FileView where
  name : List UInt8
  mode : ℕ
  uid : ℕ
  gid : ℕ
  accessed : ℕ
  modified : ℕ
  size : ℕ
  bytes : ℕ → Option UInt8

/-- An inode under a name. -/
def inodeView (g : Globals) (m : Mem) (name : List UInt8) (n : ℕ) : FileView where
  name := name
  mode := modeOf g m n
  uid := fromLoHi16 (inodeField g m n 2 2) (inodeField g m n 120 2)
  gid := fromLoHi16 (inodeField g m n 24 2) (inodeField g m n 122 2)
  accessed := inodeField g m n 8 4
  modified := inodeField g m n 16 4
  size := if isDirectoryMode (modeOf g m n) then 0 else sizeOf g m n
  bytes := if isDirectoryMode (modeOf g m n) then fun _ => none else inodeByte g m n

/-- One more child in front of those that have been read: a file, or a directory with what `below`
reads of it. -/
def readChild (g : Globals) (m : Mem) (below : ℕ → Option (Forest FileView))
    (entry : ℕ × List UInt8) (rest : Option (Forest FileView)) : Option (Forest FileView) := do
  let rest ← rest
  if isDirectoryMode (modeOf g m entry.1) then
    let children ← below entry.1
    pure (.dir (inodeView g m entry.2 entry.1) children rest)
  else pure (.file (inodeView g m entry.2 entry.1) rest)

/-- The tree below a directory, whose table starts with the entries for itself and for its
parent. -/
def readForest (g : Globals) (m : Mem) : ℕ → ℕ → ℕ → Option (Forest FileView)
  | 0, _, _ => none
  | levels + 1, parent, n => do
    let entries ← readDirectory g m n
    if entries.take 2 = [(n, [0x2E]), (parent, [0x2E, 0x2E])] then
      (entries.drop 2).foldr (readChild g m (readForest g m levels n)) (some .nil)
    else none

section Extents

variable {g : Globals} {m : Mem} {header max n k : ℕ} {es : List Ext4Extent}

/-- An entry of a list of entries of one size. -/
theorem take_drop_flatMap {α : Type} {f : α → List UInt8} {w : ℕ} {xs : List α}
    (hf : ∀ x ∈ xs, (f x).length = w) {i : ℕ} (hi : i < xs.length) :
    ((xs.flatMap f).drop (w * i)).take w = f xs[i] := by
  induction xs generalizing i with
  | nil => exact absurd hi (Nat.not_lt_zero i)
  | cons x xs ih =>
    have hx := hf x List.mem_cons_self
    rw [List.flatMap_cons]
    cases i with
    | zero =>
      rw [Nat.mul_zero, List.drop_zero, List.take_left' hx]
      rfl
    | succ i =>
      have hplace : w * (i + 1) = (f x).length + w * i := by
        rw [hx, Nat.mul_succ, Nat.add_comm]
      rw [hplace, ← List.drop_drop, List.drop_left]
      exact ih (fun y hy => hf y (List.mem_cons_of_mem x hy)) (Nat.lt_of_succ_lt_succ hi)

/-- The entries of a leaf are the extents that it holds. -/
theorem leafExtents_eq (h : NodeAt m header max es) (htyped : ∀ e ∈ es, e.Typed) :
    leafExtents m header = es := by
  apply List.ext_getElem
  · simp [leafExtents, h.count]
  · intro i hi hi'
    have hread : m.read (entryAddr header i) sizeofExtent = es[i].bytes := by
      rw [← take_drop_flatMap (fun e _ => length_extent_bytes e) hi', ← h.holds,
        Mem.read_drop_take _ _ _ _ _ (by rw [← Nat.mul_succ]; exact Nat.mul_le_mul_left _ hi')]
      congr 1
      unfold entryAddr sizeofExtentHeader sizeofExtent
      omega
    simp only [leafExtents, List.getElem_map, List.getElem_range]
    exact ext4ExtentAt_eq (htyped _ (List.getElem_mem hi')) hread

/-- In a leaf the block is looked up among its extents. -/
theorem NodeAt.mapBlock_eq (h : NodeAt m header max es) (htyped : ∀ e ∈ es, e.Typed)
    (levels : ℕ) : mapBlock g m k (levels + 1) header = coveringBlock es k := by
  rw [mapBlock, if_pos h.magic, if_pos h.depth, leafExtents_eq h htyped]

/-- An index node is not a leaf. -/
theorem IndexAt.depth_ne_zero {b : ℕ} (h : IndexAt m header b) : ehDepth m header ≠ 0 := by
  rw [h.depth]
  exact one_ne_zero

/-- The one entry of an index node. -/
theorem IndexAt.indexEntries_eq {b : ℕ} (h : IndexAt m header b) :
    indexEntries m header = [(0, b)] := by
  have hplace : entryAddr header 0 = header + sizeofExtentHeader := rfl
  have hblock : fromLoHi b 0 = b := by simp [fromLoHi]
  rw [indexEntries, h.count, List.range_one, List.map_singleton]
  simp only [hplace]
  rw [h.eiBlock, h.leafLo, h.leafHi, hblock]

/-- The tree of an inode leads to the blocks of its extents. -/
theorem TreeAt.inodeBlock_eq {leaf : Option ℕ} (h : TreeAt g m n es leaf)
    (htyped : ∀ e ∈ es, e.Typed) : inodeBlock g m n k = coveringBlock es k := by
  cases leaf with
  | none => exact NodeAt.mapBlock_eq h htyped 5
  | some b =>
    obtain ⟨hindex, -, hleaf⟩ := h
    rw [inodeBlock, extentLevels, mapBlock, if_pos hindex.magic, if_neg hindex.depth_ne_zero,
      hindex.indexEntries_eq]
    exact hleaf.mapBlock_eq htyped 4

/-- The blocks of converted extents are those of the clusters. -/
theorem coveringBlock_ext4Extents (hg : Accepted g) {fexts : List FatExtent} {first : ℕ}
    (hlogical : LogicalFrom first fexts) (hpos : ∀ e ∈ fexts, 0 < e.length)
    (hdata : ∀ c ∈ physical fexts, DataCluster g c) (hk : first ≤ k) :
    coveringBlock (ext4Extents g fexts) k =
      ((physical fexts)[k - first]?).map (fatClToE4blk g.bootSector g.metaInfo) := by
  induction fexts generalizing first with
  | nil => rfl
  | cons e fexts ih =>
    obtain ⟨hfirst, hrest⟩ := hlogical
    have hcs : ∀ c ∈ e.clusters, DataCluster g c := fun c hc =>
      hdata c (List.mem_append_left _ hc)
    have hlength : e.clusters.length = e.length := List.length_range'
    have hin : ∀ j < e.length, DataCluster g (e.physicalStart + j) := fun j hj => hcs _ (by
      rw [FatExtent.mem_clusters, FatExtent.stop]
      omega)
    have hzero : DataCluster g e.physicalStart := hin 0 (hpos e List.mem_cons_self)
    have hstart := hg.toExt4Extent_start hzero
    have hblock : (toExt4Extent g e).eeBlock = first := hfirst
    have hlen : (toExt4Extent g e).eeLen = e.length := rfl
    rw [ext4Extents, List.map_cons, coveringBlock, List.find?_cons, physical, List.flatMap_cons]
    by_cases hbefore : k < first + e.length
    · have hcovers : decide ((toExt4Extent g e).eeBlock ≤ k ∧
          k < (toExt4Extent g e).eeBlock + (toExt4Extent g e).eeLen) = true := by
        rw [decide_eq_true_eq, hblock, hlen]
        exact ⟨hk, hbefore⟩
      rw [hcovers, List.getElem?_append_left (by omega), FatExtent.clusters,
        List.getElem?_range' (by omega), Nat.one_mul]
      rw [Option.map_some, Option.map_some, hblock,
        hg.fatClToE4blk_add hzero (hin _ (by omega)), hstart]
    · have hcovers : decide ((toExt4Extent g e).eeBlock ≤ k ∧
          k < (toExt4Extent g e).eeBlock + (toExt4Extent g e).eeLen) = false := by
        rw [decide_eq_false_iff_not, hblock, hlen]
        exact fun hcover => hbefore hcover.2
      have hrest' := ih hrest (fun f hf => hpos f (List.mem_cons_of_mem e hf))
        (fun c hc => hdata c (List.mem_append_right _ hc)) (by omega)
      rw [hcovers, List.getElem?_append_right (by omega), hlength, ← Nat.sub_add_eq]
      exact hrest'

end Extents

section Entries

variable {m : Mem} {size a : ℕ} {e : DirEntry} {es : List DirEntry}

/-- Reading an entry gives the entry that is there. -/
theorem HasEntry.readEntry_eq (h : HasEntry m a e) (hpos : 0 < e.width) (hwidth : e.width ≤ size)
    (hsize : size ≤ 2 ^ 16) : readEntry m size a = e := by
  have hrec : (if m.readLE (a + recLenOffset) 2 = 0 then size
      else m.readLE (a + recLenOffset) 2) = e.width := by
    rw [h.recLen]
    unfold u16
    split
    · omega
    · omega
  rw [readEntry, h.inode, h.nameLen, h.name, hrec]

/-- The walk over a block finds its entries and ends at the end of the block. -/
theorem HasEntries.readEntries_eq (h : HasEntries m a es) (hsound : ∀ e ∈ es, DirEntry.Sound e)
    (hwidth : entriesWidth es ≤ size) (hsize : size ≤ 2 ^ 16) {fuel : ℕ}
    (hfuel : entriesWidth es ≤ fuel) : readEntries m size fuel a (entriesWidth es) = some es := by
  induction es generalizing a fuel with
  | nil => cases fuel <;> rfl
  | cons e es ih =>
    obtain ⟨hentry, hentries⟩ := h
    have hfits := (hsound e List.mem_cons_self).fits
    rw [entriesWidth_cons] at *
    obtain ⟨fuel, rfl⟩ := Nat.exists_eq_succ_of_ne_zero (show fuel ≠ 0 by omega)
    obtain ⟨rest, hrest⟩ := Nat.exists_eq_succ_of_ne_zero (show e.width + entriesWidth es ≠ 0 by omega)
    have hread := hentry.readEntry_eq (by omega) (show e.width ≤ size by omega) hsize
    have hleft : rest + 1 - e.width = entriesWidth es := by omega
    rw [hrest, readEntries]
    simp only [hread]
    rw [if_pos ⟨hfits, by omega⟩, hleft,
      ih hentries (fun d hd => hsound d (List.mem_cons_of_mem e hd)) (by omega) (by omega),
      Option.map_some]

end Entries

end OfsConvert
