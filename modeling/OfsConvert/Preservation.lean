import OfsConvert.Ext4Reading
import OfsConvert.ShortNames
import OfsConvert.WholeConversion

/-!
# What the conversion preserves

The tree that a driver reads from the finished ext4 volume is the tree of the FAT volume: the same
files and directories in the same order under their converted names, with the same bytes, sizes and
times, and `lost+found` behind the children of the root.
-/

namespace OfsConvert

namespace Forest

variable {α β : Type}

/-- The same tree with other nodes. -/
def map (f : α → β) : Forest α → Forest β
  | nil => nil
  | file a rest => file (f a) (rest.map f)
  | dir a children rest => dir (f a) (children.map f) (rest.map f)

end Forest

/-- The name of an entry for a child: the units of its name as they are recorded, in UTF-8. -/
def ChildName.bytes : ChildName → List UInt8
  | .long parts => utf8 (keptName (ext4NameLen - 1) (parts.map unitsOf))
  | .short units => utf8 (keptUnits (ext4NameLen - 1) units)

/-- The byte at a place in the clusters of a chain. -/
def chainByte (g : Globals) (m : Mem) (chain : List ℕ) (i : ℕ) : Option UInt8 :=
  (chain[i / g.metaInfo.clusterSize]?).map fun c =>
    m (clusterStart g.metaInfo c + i % g.metaInfo.clusterSize)

/-- A file or directory of the FAT volume as it is to be seen. -/
def FatNode.view (g : Globals) (env : Env) (m : Mem) (node : FatNode) : FileView where
  name := node.entry.name.bytes
  mode := 0o755 ||| if isDir node.entry.dentry then sIfdir else sIfreg
  uid := u32 env.euid
  gid := u32 env.egid
  accessed := fatTimeToUnix env node.entry.dentry.accessDate 0
  modified := fatTimeToUnix env node.entry.dentry.modDate node.entry.dentry.modTime
  size := if isDir node.entry.dentry then 0 else node.entry.dentry.fileSize
  bytes := if isDir node.entry.dentry then fun _ => none else chainByte g m node.chain

/-- The directory that the conversion adds. -/
def lostFoundView (env : Env) : FileView where
  name := lostFoundEntry.name
  mode := 0o755 ||| sIfdir
  uid := rootUid
  gid := rootGid
  accessed := u32 env.lostFoundTimes.atime
  modified := u32 env.lostFoundTimes.mtime
  size := 0
  bytes := fun _ => none

section Inodes

variable {g : Globals} {m : Mem} {n : ℕ} {inode : Ext4Inode}

/-- A field that is not updated is as it was stored. -/
theorem HasInode.field (h : HasInode g m n inode) {i w : ℕ} (hiw : i + w ≤ sizeofExt4Inode)
    (hout : ∀ j < w, inodeAddr g n + (i + j) ∉ updatedBytes g n) :
    inodeField g m n i w = leNat ((inode.bytes.drop i).take w) := by
  have hlength := length_inode_bytes inode
  rw [inodeField, Mem.readLE]
  have hread : m.read (inodeAddr g n + i) w = (inode.bytes.drop i).take w := by
    apply List.ext_getElem
    · rw [Mem.length_read, List.length_take, List.length_drop, hlength]
      omega
    intro j hj _
    rw [Mem.length_read] at hj
    have hbyte := h (i + j) (by omega) (hout j hj)
    rw [Mem.getElem_read, List.getElem_take, List.getElem_drop, Nat.add_assoc, hbyte,
      List.getD_eq_getElem _ _ (by omega)]
  rw [hread]

/-- The owner and the times in the bytes of an inode. -/
theorem Ext4Inode.owner_pieces (inode : Ext4Inode) :
    (inode.bytes.drop 2).take 2 = leBytes 2 inode.iUid ∧
      (inode.bytes.drop 8).take 4 = leBytes 4 inode.iAtime ∧
      (inode.bytes.drop 16).take 4 = leBytes 4 inode.iMtime ∧
      (inode.bytes.drop 24).take 2 = leBytes 2 inode.iGid ∧
      (inode.bytes.drop 120).take 2 = leBytes 2 inode.lIUidHigh ∧
      (inode.bytes.drop 122).take 2 = leBytes 2 inode.lIGidHigh := by
  have hheader := length_extentHeader_bytes inode.extHeader
  unfold sizeofExtentHeader at hheader
  unfold Ext4Inode.bytes
  refine ⟨?_, ?_, ?_, ?_, ?_, ?_⟩
  all_goals
    repeat rw [take_drop_append (by
      simp only [List.length_append, length_leBytes, hheader]
      omega)]
    exact take_drop_last (by simp only [List.length_append, length_leBytes, hheader])
      (length_leBytes _ _)

/-- The fields that a driver sees have the widths of `ext4_inode`. -/
structure Ext4Inode.Typed (inode : Ext4Inode) : Prop where
  mode : inode.iMode < 2 ^ 16
  uid : inode.iUid < 2 ^ 16 ∧ inode.lIUidHigh < 2 ^ 16
  gid : inode.iGid < 2 ^ 16 ∧ inode.lIGidHigh < 2 ^ 16
  times : inode.iAtime < 2 ^ 32 ∧ inode.iMtime < 2 ^ 32

/-- The view of a stored inode. -/
theorem HasInode.inodeView_eq (h : HasInode g m n inode) (htyped : inode.Typed)
    (name : List UInt8) :
    inodeView g m name n =
      { name := name
        mode := inode.iMode
        uid := fromLoHi16 inode.iUid inode.lIUidHigh
        gid := fromLoHi16 inode.iGid inode.lIGidHigh
        accessed := inode.iAtime
        modified := inode.iMtime
        size := if inode.isDirectory then 0 else sizeOf g m n
        bytes := if inode.isDirectory then fun _ => none else inodeByte g m n } := by
  have hfield : ∀ i w v, i + w ≤ sizeofExt4Inode → (∀ j < w, inodeAddr g n + (i + j) ∉
      updatedBytes g n) → (inode.bytes.drop i).take w = leBytes w v → v < 256 ^ w →
      inodeField g m n i w = v := by
    intro i w v hiw hout hpiece hv
    rw [h.field hiw hout, hpiece, leNat_leBytes_of_lt hv]
  have hout : ∀ i w, (i + w ≤ 4 ∨ 8 ≤ i ∧ i + w ≤ 26 ∨ 118 ≤ i) →
      ∀ j < w, inodeAddr g n + (i + j) ∉ updatedBytes g n := by
    intro i w hplace j hj hin
    rw [mem_updatedBytes, mem_sizeFields, mem_linksField, mem_rootBytes, mem_blocksFields] at hin
    omega
  obtain ⟨huid, hatime, hmtime, hgid, huidHigh, hgidHigh⟩ := inode.owner_pieces
  have hmode : modeOf g m n = inode.iMode := by
    have hpiece := inode.pieces.1
    rw [← List.drop_zero (l := inode.bytes)] at hpiece
    exact hfield 0 2 _ (by decide) (hout 0 2 (by omega)) hpiece (by have := htyped.mode; omega)
  rw [inodeView, hmode, isDirectoryMode_iMode,
    hfield 2 2 _ (by decide) (hout 2 2 (by omega)) huid (by have := htyped.uid; omega),
    hfield 8 4 _ (by decide) (hout 8 4 (by omega)) hatime (by have := htyped.times; omega),
    hfield 16 4 _ (by decide) (hout 16 4 (by omega)) hmtime (by have := htyped.times; omega),
    hfield 24 2 _ (by decide) (hout 24 2 (by omega)) hgid (by have := htyped.gid; omega),
    hfield 120 2 _ (by decide) (hout 120 2 (by omega)) huidHigh (by have := htyped.uid; omega),
    hfield 122 2 _ (by decide) (hout 122 2 (by omega)) hgidHigh (by have := htyped.gid; omega)]

/-- A user or group id is split over two fields. -/
theorem fromLoHi16_split (v : ℕ) : fromLoHi16 (v &&& 0xFFFF) (u16 (v >>> 16)) = u32 v := by
  have hlow : v &&& 0xFFFF = v % 2 ^ 16 := Nat.and_two_pow_sub_one_eq_mod v 16
  have hsplit : setLoHi32 (u32 v) = (v &&& 0xFFFF, u16 (v >>> 16)) := by
    have hlow' : u32 v &&& 0xFFFF = u32 v % 2 ^ 16 := Nat.and_two_pow_sub_one_eq_mod _ 16
    rw [setLoHi32, hlow, hlow', Nat.shiftRight_eq_div_pow, Nat.shiftRight_eq_div_pow]
    unfold u32 u16
    congr 1 <;> omega
  have hjoin := fromLoHi16_setLoHi32 (u32_lt v)
  rwa [hsplit] at hjoin

/-- A time has 32 bits. -/
theorem fatTimeToUnix_lt (env : Env) (date time : ℕ) : fatTimeToUnix env date time < 2 ^ 32 := by
  unfold fatTimeToUnix
  omega

/-- The fields of a built inode fit. -/
theorem inodeOf_typed (env : Env) (d : FatDentry) : (inodeOf env d).Typed := by
  refine ⟨?_, ⟨Nat.and_lt_two_pow _ (by norm_num), u16_lt _⟩,
    ⟨Nat.and_lt_two_pow _ (by norm_num), u16_lt _⟩, fatTimeToUnix_lt _ _ _,
    fatTimeToUnix_lt _ _ _⟩
  rw [inodeOf]
  dsimp only
  split <;> decide

/-- The fields of the inode of `lost+found` fit. -/
theorem lostFoundInode_typed (env : Env) : (lostFoundInode env).Typed :=
  ⟨show 0o755 ||| sIfdir < 2 ^ 16 by decide, by simp [lostFoundInode, rootUid],
    by simp [lostFoundInode, rootGid], u32_lt _, u32_lt _⟩

/-- The inodes of directories and files. -/
theorem isDirectory_inodeOf (env : Env) (d : FatDentry) :
    (inodeOf env d).isDirectory = isDir d := by
  rw [Ext4Inode.isDirectory, inodeOf]
  dsimp only
  cases isDir d <;> decide

/-- `lost+found` is a directory. -/
theorem isDirectory_lostFoundInode (env : Env) : (lostFoundInode env).isDirectory = true :=
  show ((0o755 ||| sIfdir) &&& sIfdir != 0) = true by decide

end Inodes

section Names

/-- Units that end with a 0 are read alone. -/
theorem keptUnits_append (room : ℕ) {units rest : List ℕ} (h : 0 ∈ units) :
    keptUnits room (units ++ rest) = keptUnits room units := by
  have htake : (units ++ rest).takeWhile (fun u => decide (u ≠ 0)) =
      units.takeWhile fun u => decide (u ≠ 0) := by
    induction units with
    | nil => exact absurd h (List.not_mem_nil)
    | cons u units ih =>
      rw [List.cons_append, List.takeWhile_cons, List.takeWhile_cons]
      by_cases hu : u = 0
      · simp [hu]
      · have hmem : 0 ∈ units := by simpa [Ne.symm hu] using h
        rw [ih hmem]
  rw [keptUnits, keptUnits, htake]

/-- The units at the start of an element are those that were recorded. -/
theorem unitsOf_initial {units : List ℕ} {element : List UInt8}
    (hunits : ∀ u ∈ units, u < 2 ^ 16) (hlength : units.length ≤ lfnEntryLength)
    (h : units.flatMap (leBytes 2) <+: element) : units <+: unitsOf element := by
  obtain ⟨behind, rfl⟩ := h
  rw [List.prefix_iff_eq_take]
  apply List.ext_getElem
  · simp [unitsOf]
    omega
  · intro i hi hi'
    have hpiece := take_drop_flatMap (fun u _ => length_leBytes 2 u) hi
    have hbytes : (units.flatMap (leBytes 2)).length = 2 * units.length := by
      rw [length_flatMap_leBytes, Nat.mul_comm]
    have hstart : ((units.flatMap (leBytes 2) ++ behind).drop (2 * i)).take 2 =
        leBytes 2 units[i] := by
      rw [take_drop_append (by omega), hpiece]
    simp only [unitsOf, List.getElem_take, List.getElem_map, List.getElem_range]
    rw [hstart, leNat_leBytes_of_lt (hunits _ (List.getElem_mem hi))]

/-- A new entry has the inode and the name that it was made with. -/
theorem newEntry_key (inode : ℕ) (name : List UInt8) : (newEntry inode name).key = (inode, name) :=
  rfl

/-- The name that is built from a record is that of the FAT entry. -/
theorem ChildName.RecordedAs.entryName_eq {name : ChildName} {rec : Record} {d : FatDentry}
    (h : name.RecordedAs rec.name)
    (hshort : ∀ units, name = .short units → units = shortNameUnits d) :
    entryName rec = name.bytes := by
  cases name with
  | long parts =>
    rw [entryName, ChildName.bytes, show rec.name = parts from h]
  | short units =>
    obtain rfl := hshort units rfl
    obtain ⟨element, hname, -, hinitial⟩ := h
    have hzero : 0 ∈ shortNameUnits d := by simp [shortNameUnits]
    obtain ⟨rest, hrest⟩ := unitsOf_initial (shortNameUnits_lt d) (length_shortNameUnits_le d)
      hinitial
    rw [entryName, hname, List.map_singleton, keptName, keptName, List.append_nil, ← hrest,
      keptUnits_append _ hzero, ChildName.bytes]

end Names

section Contents

variable {g : Globals} (hg : Accepted g) {m₀ m : Mem} {base t : State} {F O R : List ℕ}
  {X : Set ℕ} {n : ℕ} {fexts es : List FatExtent} {chain clusters : List ℕ}

/-- The extents of a directory are one block long and follow one another. -/
theorem dirExtents_logical (clusters : List ℕ) :
    LogicalFrom 0 (dirExtents clusters) ∧ physical (dirExtents clusters) = clusters := by
  induction clusters using List.reverseRecOn with
  | nil => exact ⟨trivial, rfl⟩
  | append_singleton clusters c ih =>
    obtain ⟨hlogical, hphysical⟩ := ih
    rw [dirExtents_append, physical_append, hphysical]
    refine ⟨hlogical.append ?_, rfl⟩
    rw [hphysical]
    exact ⟨(Nat.zero_add _).symm, trivial⟩

/-- Relocated clusters hold the bytes of the chain. -/
theorem Relocated.chainByte_eq {blocked : List FatExtent} {k : ℕ}
    (h : Relocated g m₀ blocked m k chain es) (hpos : 0 < g.metaInfo.clusterSize) (i : ℕ) :
    chainByte g m (physical es) i = chainByte g m₀ chain i := by
  obtain ⟨hlength, hserves⟩ := List.forall₂_iff_get.mp h.serves
  have hplace := Nat.mod_lt i hpos
  rw [chainByte, chainByte]
  by_cases hin : i / g.metaInfo.clusterSize < chain.length
  · have hin' : i / g.metaInfo.clusterSize < (physical es).length := by omega
    have hcontent := (hserves _ hin hin').content _ hplace
    rw [List.getElem?_eq_getElem hin, List.getElem?_eq_getElem hin', Option.map_some,
      Option.map_some]
    simp only [List.get_eq_getElem] at hcontent
    rw [hcontent]
  · rw [List.getElem?_eq_none (by omega), List.getElem?_eq_none (by omega)]
    rfl

/-- A list of results that are all there. -/
theorem mapM_eq_some {α β : Type} {f : α → Option β} {xs : List α} {ys : List β}
    (h : List.Forall₂ (fun x y => f x = some y) xs ys) : xs.mapM f = some ys := by
  induction h with
  | nil => rfl
  | cons hxy _ ih => simp [hxy, ih]

include hg

/-- Clusters of kept blocks keep their bytes. -/
theorem chainByte_kept (hF : AgreesOn g F base.mem m)
    (hclusters : ∀ c ∈ clusters, DataCluster g c ∧ fatClToE4blk g.bootSector g.metaInfo c ∈ F)
    (i : ℕ) : chainByte g m clusters i = chainByte g base.mem clusters i := by
  rw [chainByte, chainByte]
  by_cases hin : i / g.metaInfo.clusterSize < clusters.length
  · obtain ⟨hdata, hkept⟩ := hclusters _ (List.getElem_mem hin)
    have hpos := hg.clusterSize_ge
    have hplace := Nat.mod_lt i (show 0 < g.metaInfo.clusterSize by omega)
    rw [List.getElem?_eq_getElem hin, Option.map_some, Option.map_some,
      hF _ hkept _ ((hg.inBlock_iff_inCluster hdata).mpr ⟨Nat.le_add_right _ _, by omega⟩)]
  · rw [List.getElem?_eq_none (by omega)]
    rfl

/-- The tree of an inode holds the extents that were registered for it. -/
theorem Building.treeAt_extents (h : Building g X m₀ base F O R t) (hroomy : Roomy g t)
    (hn : InodePlace g.sb n) (hpresent : Present X t n)
    (htree : inTreeOf t.ext4.registered n = extentRanges g n fexts)
    (htyped : ∀ e ∈ fexts, e.Typed) (hdata : ∀ c ∈ physical fexts, DataCluster g c) :
    (∀ e ∈ ext4Extents g fexts, e.Typed) ∧ treeExtents t n = ext4Extents g fexts ∧
      ∃ leaf, TreeAt g t.mem n (ext4Extents g fexts) leaf ∧
        ∀ b, leaf = some b → 4 < (ext4Extents g fexts).length ∧ NodeBlock t n b := by
  have hfirst : ∀ e ∈ fexts, DataCluster g e.physicalStart := fun e he =>
    hdata _ (List.mem_flatMap.mpr ⟨e, he, (FatExtent.mem_clusters e _).mpr
      ⟨le_rfl, by have := (htyped e he).positive; rw [FatExtent.stop]; omega⟩⟩)
  have hlength : (treeExtents t n).length ≤ maxEntries g := by
    rw [treeExtents, List.length_map]
    exact hroomy n
  have hleaf := h.trees n hn hpresent hlength
  have hextents := treeExtents_eq hg htree hfirst
  rw [hextents] at hleaf
  refine ⟨fun e he => ?_, hextents, hleaf⟩
  obtain ⟨f, hf, rfl⟩ := List.mem_map.mp he
  exact ⟨(htyped f hf).logicalStart, (htyped f hf).length, u16_lt _,
    Nat.and_lt_two_pow _ (by norm_num)⟩

/-- The extents of a directory have the widths of `fat_extent`. -/
theorem dirExtents_typed (hdata : ∀ c ∈ clusters, DataCluster g c)
    (hlength : clusters.length < 2 ^ 32) : ∀ e ∈ dirExtents clusters, e.Typed := by
  intro e he
  obtain ⟨i, hi, rfl⟩ := List.mem_mapIdx.mp he
  have hcount := hg.dataClusterCount_le
  have hc := (hdata _ (List.getElem_mem hi)).2
  exact ⟨hi.trans hlength, Nat.one_lt_two_pow (by norm_num), by rw [FatExtent.stop]; dsimp only; omega,
    le_rfl⟩

/-- A driver finds the clusters that were registered for an inode. -/
theorem Building.inodeBlock_eq (h : Building g X m₀ base F O R t) (hroomy : Roomy g t)
    (hn : InodePlace g.sb n) (hpresent : Present X t n)
    (htree : inTreeOf t.ext4.registered n = extentRanges g n fexts)
    (hlogical : LogicalFrom 0 fexts) (htyped : ∀ e ∈ fexts, e.Typed)
    (hdata : ∀ c ∈ physical fexts, DataCluster g c) (k : ℕ) :
    inodeBlock g t.mem n k =
      ((physical fexts)[k]?).map (fatClToE4blk g.bootSector g.metaInfo) := by
  obtain ⟨htyped', -, leaf, hat, -⟩ := h.treeAt_extents hg hroomy hn hpresent htree htyped hdata
  rw [hat.inodeBlock_eq htyped', coveringBlock_ext4Extents hg hlogical
    (fun e he => (htyped e he).positive) hdata (Nat.zero_le k), Nat.sub_zero]

omit hg in
/-- The bytes of an inode are those of its clusters. -/
theorem inodeByte_eq (hg : Accepted g) (hclusters : ∀ c ∈ clusters, DataCluster g c)
    (hblocks : ∀ k, inodeBlock g m n k =
      (clusters[k]?).map (fatClToE4blk g.bootSector g.metaInfo)) (i : ℕ) :
    inodeByte g m n i = chainByte g m clusters i := by
  rw [inodeByte, hblocks, chainByte, hg.blockSize_eq]
  by_cases hin : i / g.metaInfo.clusterSize < clusters.length
  · have hdata := hclusters _ (List.getElem_mem hin)
    rw [List.getElem?_eq_getElem hin, Option.map_some, Option.map_some, Option.map_some,
      hg.blockStart_fatClToE4blk hdata]
  · rw [List.getElem?_eq_none (by omega)]
    rfl

/-- The blocks of a directory as a driver finds them: one behind the other from the logical number 0
on up to the size, each filled by its entries. -/
structure DirTable (g : Globals) (m : Mem) (n : ℕ) (blocks : List (ℕ × List DirEntry)) : Prop where
  mapped : ∀ k, inodeBlock g m n k =
    ((blocks.map Prod.fst)[k]?).map (fatClToE4blk g.bootSector g.metaInfo)
  size : sizeOf g m n = blocks.length * blockSize g.sb
  holds : ∀ x ∈ blocks, HoldsEntries g m x.1 x.2
  tiled : ∀ x ∈ blocks, entriesWidth x.2 = blockSize g.sb

/-- The entries that are read in a block of a directory. -/
theorem DirTable.readEntries_eq {blocks : List (ℕ × List DirEntry)} (h : DirTable g m n blocks)
    (hsize : blockSize g.sb ≤ 2 ^ 16) {x : ℕ × List DirEntry} (hx : x ∈ blocks) :
    readEntries m (blockSize g.sb) (blockSize g.sb)
      (blockStart g.metaInfo g.sb (fatClToE4blk g.bootSector g.metaInfo x.1)) (blockSize g.sb) =
        some x.2 := by
  have hread := (h.holds x hx).entries.readEntries_eq (h.holds x hx).sound
    (h.tiled x hx).le hsize (h.tiled x hx).le
  rwa [h.tiled x hx, ← hg.blockStart_fatClToE4blk (h.holds x hx).data] at hread

/-- The table of a directory whose blocks are tiled. -/
theorem DirTable.readDirectory_eq {blocks : List (ℕ × List DirEntry)} (h : DirTable g m n blocks)
    (hsize : blockSize g.sb ≤ 2 ^ 16) :
    readDirectory g m n = some ((blocks.map Prod.snd).flatten.map DirEntry.key) := by
  have hpos := hg.blockSize_ge
  have hblocks : (List.range (sizeOf g m n / blockSize g.sb)).mapM (inodeBlock g m n) =
      some (blocks.map fun x => fatClToE4blk g.bootSector g.metaInfo x.1) := by
    rw [h.size, Nat.mul_div_cancel _ (by omega)]
    apply mapM_eq_some
    apply List.forall₂_iff_get.mpr
    refine ⟨by simp, fun i hi hi' => ?_⟩
    have hlt : i < blocks.length := by simpa using hi
    simp [h.mapped, hlt]
  have hentries : (blocks.map fun x => fatClToE4blk g.bootSector g.metaInfo x.1).mapM
      (fun b => readEntries m (blockSize g.sb) (blockSize g.sb) (blockStart g.metaInfo g.sb b)
        (blockSize g.sb)) = some (blocks.map Prod.snd) := by
    apply mapM_eq_some
    rw [List.forall₂_map_left_iff, List.forall₂_map_right_iff, List.forall₂_same]
    exact fun x hx => h.readEntries_eq hg hsize hx
  rw [readDirectory, hblocks]
  simp only [Option.bind_eq_bind, Option.bind_some, hentries]
  rfl

end Contents

section Tables

variable {g : Globals} (hg : Accepted g) {m₀ : Mem} {base t : State} {F O R own : List ℕ}
  {X : Set ℕ} {n parent k : ℕ} {inode : Ext4Inode} {children : Forest Record}

/-- The entries of children are well formed and fit into a block. -/
theorem childEntries_sound (children : Forest Record) (hk : k + children.size ≤ 2 ^ 32) :
    ∀ e ∈ children.childEntries k, DirEntry.Sound e ∧ e.width ≤ 264 := by
  have hnew : ∀ (j : ℕ) (rec : Record), j < 2 ^ 32 →
      (newEntry j (entryName rec)).Sound ∧ (newEntry j (entryName rec)).width ≤ 264 := by
    intro j rec hj
    have hlength := entryName_length rec
    have hwidth := newEntry_width j hlength
    exact ⟨newEntry_sound hj hlength, by omega⟩
  induction children generalizing k with
  | nil => simp [Forest.childEntries]
  | file rec rest ih =>
    rw [Forest.size] at hk
    intro e he
    rcases List.mem_cons.mp he with rfl | hin
    · exact hnew k rec (by omega)
    · exact ih (by omega) e hin
  | dir rec children rest _ ih =>
    rw [Forest.size] at hk
    intro e he
    rcases List.mem_cons.mp he with rfl | hin
    · exact hnew k rec (by omega)
    · exact ih (by omega) e hin

include hg

/-- A driver finds the blocks of a directory that is built. -/
theorem Building.dirTable (h : Building g X m₀ base F O R t) (hroomy : Roomy g t)
    (hsize : blockSize g.sb ≤ 2 ^ 16) (hn : InodePlace g.sb n) (hpresent : Present X t n)
    (blocks : List (ℕ × List DirEntry))
    (htree : inTreeOf t.ext4.registered n = extentRanges g n (dirExtents (blocks.map Prod.fst)))
    (hholds : ∀ x ∈ blocks, HoldsEntries g t.mem x.1 x.2)
    (htiled : ∀ x ∈ blocks, entriesWidth x.2 = blockSize g.sb)
    (hcount : blocks.length * blockSize g.sb < 2 ^ 32 →
      sizeOf g t.mem n = blocks.length * blockSize g.sb) : DirTable g t.mem n blocks := by
  obtain ⟨hmax, -, hmax', -⟩ := hg.maxEntries_eq
  have hfew : blocks.length ≤ maxEntries g := by
    have hle := hroomy n
    rwa [htree, extentRanges, List.length_map, dirExtents, List.length_mapIdx,
      List.length_map] at hle
  have hsmall : blocks.length * blockSize g.sb ≤ 5461 * 2 ^ 16 :=
    Nat.mul_le_mul (by omega) hsize
  have hdata : ∀ c ∈ blocks.map Prod.fst, DataCluster g c := by
    intro c hc
    obtain ⟨x, hx, rfl⟩ := List.mem_map.mp hc
    exact (hholds x hx).data
  obtain ⟨hlogical, hphysical⟩ := dirExtents_logical (blocks.map Prod.fst)
  refine ⟨fun k => ?_, hcount (by omega), hholds, htiled⟩
  have htyped := dirExtents_typed hg hdata (by rw [List.length_map]; omega)
  rw [h.inodeBlock_eq hg hroomy hn hpresent htree hlogical htyped (by rw [hphysical]; exact hdata),
    hphysical]

/-- The tiles of a packed directory. -/
theorem packDirectory_width (children : Forest Record) (hk : k + children.size ≤ 2 ^ 32) :
    ∀ block ∈ packDirectory (blockSize g.sb) n parent (children.childEntries k),
      entriesWidth block = blockSize g.sb := by
  have hpos := hg.blockSize_ge
  refine packFrom_width ?_ fun e he => ?_
  · rw [entriesWidth_singleton, dotEntry_width, dotDotEntry_width]
    unfold ext4DotDentrySize
    omega
  · have hwidth := (childEntries_sound children hk e he).2
    omega

omit hg in
/-- The keys of a packed directory. -/
theorem packDirectory_key (size : ℕ) (es : List DirEntry) :
    (packDirectory size n parent es).flatten.map DirEntry.key =
      (n, [0x2E]) :: (parent, [0x2E, 0x2E]) :: es.map DirEntry.key := by
  rw [packDirectory, packFrom_key]
  rfl

/-- The blocks of a directory that is built are packed with its entries. -/
theorem DirBuilt.dirTable (hbuilt : DirBuilt g t n parent inode own k children)
    (h : Building g X m₀ base F O R t) (hroomy : Roomy g t) (hsize : blockSize g.sb ≤ 2 ^ 16)
    (hk : k + children.size ≤ 2 ^ 32) :
    ∃ blocks, blocks.map Prod.snd =
      packDirectory (blockSize g.sb) n parent (children.childEntries k) ∧
        DirTable g t.mem n blocks := by
  obtain ⟨blocks, hpacked, htree, hholds, -, hcount⟩ := hbuilt.blocks
  have htiled : ∀ x ∈ blocks, entriesWidth x.2 = blockSize g.sb := fun x hx =>
    packDirectory_width hg children hk _ (hpacked ▸ List.mem_map_of_mem hx)
  exact ⟨blocks, hpacked, h.dirTable hg hroomy hsize hbuilt.node.place (Or.inl hbuilt.node.made)
    blocks htree hholds htiled fun hlt => hcount.trans (u32_of_lt hlt)⟩

/-- The table of a directory that is built. -/
theorem DirBuilt.readDirectory_eq (hbuilt : DirBuilt g t n parent inode own k children)
    (h : Building g X m₀ base F O R t) (hroomy : Roomy g t) (hsize : blockSize g.sb ≤ 2 ^ 16)
    (hk : k + children.size ≤ 2 ^ 32) :
    readDirectory g t.mem n = some ((n, [0x2E]) :: (parent, [0x2E, 0x2E]) ::
      (children.childEntries k).map DirEntry.key) := by
  obtain ⟨blocks, hpacked, htable⟩ := hbuilt.dirTable hg h hroomy hsize hk
  rw [htable.readDirectory_eq hg hsize, hpacked, packDirectory_key]

end Tables

namespace Forest

variable {α β : Type} {t : Forest α}

/-- Appending nothing. -/
theorem append_nil (t : Forest α) : t.append nil = t := by
  induction t with
  | nil => rfl
  | file a rest ih => rw [append, ih]
  | dir a children rest _ ih => rw [append, ih]

end Forest

section Tree

variable {g : Globals} (hg : Accepted g) {env : Env} {m₀ : Mem} {base t : State} {F : List ℕ}
  {X : Set ℕ} {n k levels : ℕ} {node : FatNode} {rec : Record} {own : List ℕ}
  {entries : List FatDentry} {forest : Forest FatNode} {records : Forest Record}

/-- A short name belongs to the entry itself. -/
theorem nextChild_short {child : ChildEntry} {rest : List FatDentry}
    (h : nextChild entries = some (child, rest)) :
    ∀ units, child.name = .short units → units = shortNameUnits child.dentry := by
  intro units hunits
  cases entries with
  | nil => exact absurd h (by simp [nextChild])
  | cons d behind =>
    rw [nextChild] at h
    split at h
    · split at h
      · exact absurd h (by simp)
      · obtain ⟨rfl, -⟩ := Prod.mk.inj (Option.some.inj h)
        cases hunits
    · obtain ⟨rfl, -⟩ := Prod.mk.inj (Option.some.inj h)
      exact (ChildName.short.inj hunits).symm

/-- The view of an inode that was made for an entry. -/
theorem HasInode.view_eq {m : Mem} {d : FatDentry} (h : HasInode g m n (inodeOf env d))
    (name : List UInt8) :
    inodeView g m name n =
      { name := name
        mode := 0o755 ||| if isDir d then sIfdir else sIfreg
        uid := u32 env.euid
        gid := u32 env.egid
        accessed := fatTimeToUnix env d.accessDate 0
        modified := fatTimeToUnix env d.modDate d.modTime
        size := if isDir d then 0 else sizeOf g m n
        bytes := if isDir d then fun _ => none else inodeByte g m n } := by
  rw [h.inodeView_eq (inodeOf_typed env d), isDirectory_inodeOf, inodeOf]
  simp only [fromLoHi16_split]

/-- The mode of an inode says what its FAT entry said. -/
theorem HasInode.isDirectory_eq {m : Mem} {d : FatDentry} (h : HasInode g m n (inodeOf env d)) :
    isDirectoryMode (modeOf g m n) = isDir d := by
  have hmode := congrArg FileView.mode (h.inodeView_eq (inodeOf_typed env d) [])
  rw [← isDirectory_inodeOf env d, ← isDirectoryMode_iMode]
  exact congrArg isDirectoryMode hmode

include hg

/-- A file that is built is seen as the FAT volume has it. -/
theorem FileBuilt.view_eq (hbuilt : FileBuilt g env t n rec)
    (h : Building g X m₀ base F [] [] t) (hroomy : Roomy g t) (hpresent : Present X t n)
    (hrec : Records g m₀ (metaExtents g) base.mem node rec)
    (hfile : isDir node.entry.dentry = false) (hfits : RecordFits g F rec)
    (hkept : ∀ c ∈ physical rec.extents, fatClToE4blk g.bootSector g.metaInfo c ∈ F) :
    inodeView g t.mem node.entry.name.bytes n = node.view g env m₀ := by
  have hpos := hg.clusterSize_ge
  have hblocks := h.inodeBlock_eq hg hroomy hbuilt.place hpresent hbuilt.extents
    hrec.extents.logical hfits.sound.typed hfits.clusters
  have hbytes : inodeByte g t.mem n = chainByte g m₀ node.chain := by
    funext i
    rw [inodeByte_eq hg hfits.clusters hblocks, chainByte_kept hg h.inv.log.foreign
      fun c hc => ⟨hfits.clusters c hc, hkept c hc⟩]
    exact hrec.extents.chainByte_eq (by omega) i
  rw [hbuilt.inode.view_eq, hbuilt.size, hbytes, hrec.dentry, FatNode.view, hfile]

/-- What a driver reads below a directory is the tree that the records describe. -/
theorem ForestBuilt.read_eq (hsize : blockSize g.sb ≤ 2 ^ 16)
    (h : Building g X m₀ base F [] [] t) (hroomy : Roomy g t)
    (hrel : Forest.Rel (Records g m₀ (metaExtents g) base.mem) forest records)
    (hdescribes : Describes g m₀ entries forest) (hfits : ForestFits g F records)
    (hkept : ∀ rec ∈ records.toList, isDir rec.dentry = false → ∀ c ∈ physical rec.extents,
      fatClToE4blk g.bootSector g.metaInfo c ∈ F)
    (hbuilt : ForestBuilt g env t n k records) (hlow : 12 ≤ k)
    (hhigh : k + records.size ≤ t.ext4.firstFreeInodeNo) (hlevels : forest.depth ≤ levels)
    (behind : Forest FileView) :
    ((records.childEntries k).map DirEntry.key).foldr
        (readChild g t.mem (readForest g t.mem levels n)) (some behind) =
      some ((forest.map (FatNode.view g env m₀)).append behind) := by
  have hfirst := h.inv.firstFree
  induction hrel generalizing entries n k levels behind with
  | nil => rfl
  | @file node rec rest rest' hrec hrest ih =>
    obtain ⟨-, hfile, -, entries', hnext, hdescribes'⟩ := hdescribes
    obtain ⟨hrecfits, -, hfits'⟩ := hfits.file
    obtain ⟨hnode, hbuilt'⟩ := hbuilt
    rw [Forest.size] at hhigh
    have hfile' : isDir rec.dentry = false := hrec.dentry ▸ hfile
    have hpresent : Present X t k := Or.inl (Or.inr ⟨hlow, by omega⟩)
    have hview := hnode.view_eq hg h hroomy hpresent hrec hfile hrecfits
      (hkept rec List.mem_cons_self hfile')
    have hname := hrec.name.entryName_eq (nextChild_short hnext)
    have hbehind := ih hdescribes' hfits' (fun r hr => hkept r (List.mem_cons_of_mem rec hr))
      hbuilt' (by omega) (by omega) hlevels behind
    have hmode : isDirectoryMode (modeOf g t.mem k) = false :=
      hnode.inode.isDirectory_eq.trans hfile'
    rw [Forest.childEntries, List.map_cons, List.foldr_cons, hbehind, newEntry_key, hname,
      readChild]
    simp only [Option.bind_eq_bind, Option.bind_some, hmode, hview]
    rfl
  | @dir node rec children rest children' rest' hrec hchildren hrest ihc ihr =>
    obtain ⟨-, hdir, -, hinner, entries', hnext, hdescribes'⟩ := hdescribes
    obtain ⟨hrecfits, -, -, hfitsc, hfitsr⟩ := hfits.dir
    obtain ⟨hnode, hbuiltc, hbuiltr⟩ := hbuilt
    rw [Forest.size] at hhigh
    rw [Forest.depth] at hlevels
    have hdir' : isDir rec.dentry = true := hrec.dentry ▸ hdir
    have hview : inodeView g t.mem node.entry.name.bytes k = node.view g env m₀ := by
      rw [hnode.node.inode.view_eq, hrec.dentry, FatNode.view, hdir]
      rfl
    have hname := hrec.name.entryName_eq (nextChild_short hnext)
    have hbehind := ihr hdescribes' hfitsr
      (fun r hr => hkept r (List.mem_cons_of_mem rec (List.mem_append_right _ hr)))
      hbuiltr (by omega) (by omega) (show rest.depth ≤ levels by omega) behind
    obtain ⟨levels, rfl⟩ := Nat.exists_eq_succ_of_ne_zero (show levels ≠ 0 by omega)
    have hbelow := ihc hinner hfitsc
      (fun r hr => hkept r (List.mem_cons_of_mem rec (List.mem_append_left _ hr)))
      hbuiltc (by omega) (by omega) (show children.depth ≤ levels by omega) .nil
    have hread : readForest g t.mem (levels + 1) n k =
        some (children.map (FatNode.view g env m₀)) := by
      rw [readForest, hnode.readDirectory_eq hg h hroomy hsize (by omega)]
      simp only [Option.bind_eq_bind, Option.bind_some, List.take_succ_cons, List.take_zero,
        List.drop_succ_cons, List.drop_zero, if_true]
      rw [hbelow, Forest.append_nil]
    have hmode : isDirectoryMode (modeOf g t.mem k) = true :=
      hnode.node.inode.isDirectory_eq.trans hdir'
    rw [Forest.childEntries, List.map_cons, List.foldr_cons, hbehind, newEntry_key, hname,
      readChild]
    simp only [Option.bind_eq_bind, Option.bind_some, hmode, hview, if_true, hread]
    rfl

end Tree

section Volume

variable {g : Globals} (hg : Accepted g) {env : Env} {m₀ : Mem} {rootChain : List ℕ}
  {forest : Forest FatNode} {r w : StreamArchiver} {pages F : List ℕ}
  {rootExtents : List FatExtent} {records : Forest Record} {base t : State} {X : Set ℕ} {levels : ℕ}

/-- The blocks of the files are kept. -/
theorem mem_keptBlocks (pages : List ℕ) {rec : Record} (hrec : rec ∈ records.toList)
    (hfile : isDir rec.dentry = false) :
    ∀ c ∈ physical rec.extents,
      fatClToE4blk g.bootSector g.metaInfo c ∈ keptBlocks g pages records := fun _ hc =>
  List.mem_map_of_mem (List.mem_append_right pages
    (Forest.mem_physical_fileExtents.mpr ⟨rec, hrec, hfile, hc⟩))

/-- The inode of `lost+found` as it is seen. -/
theorem LostFoundBuilt.view_eq (hlost : LostFoundBuilt g env t) :
    inodeView g t.mem lostFoundEntry.name ext4LostFoundInode = lostFoundView env := by
  have howner : fromLoHi16 rootUid 0 = rootUid ∧ fromLoHi16 rootGid 0 = rootGid := by decide
  rw [hlost.inode.inodeView_eq (lostFoundInode_typed env), isDirectory_lostFoundInode]
  simp only [if_true, lostFoundInode, lostFoundView, howner]

/-- The stored mode of `lost+found` is that of a directory. -/
theorem LostFoundBuilt.isDirectory (hlost : LostFoundBuilt g env t) :
    isDirectoryMode (modeOf g t.mem ext4LostFoundInode) = true := by
  have hmode : modeOf g t.mem ext4LostFoundInode = 0o755 ||| sIfdir :=
    congrArg FileView.mode hlost.view_eq
  rw [hmode]
  decide

include hg

/-- The one block of `lost+found`. -/
theorem LostFoundBuilt.dirTable (hlost : LostFoundBuilt g env t)
    (h : Building g {ext4LostFoundInode} m₀ base F [] [] t) (hroomy : Roomy g t)
    (hsize : blockSize g.sb ≤ 2 ^ 16) :
    ∃ c, DirTable g t.mem ext4LostFoundInode
      [(c, fullBlock (blockSize g.sb) [dotEntry ext4LostFoundInode] (dotDotEntry ext4RootInode))] := by
  obtain ⟨c, htree, hholds⟩ := hlost.block
  have hplace := hg.reservedPlace (n := ext4LostFoundInode) (by decide) (by decide)
  have hblock := hg.blockSize_ge
  have htiled : entriesWidth (fullBlock (blockSize g.sb) [dotEntry ext4LostFoundInode]
      (dotDotEntry ext4RootInode)) = blockSize g.sb := by
    apply fullBlock_width
    rw [entriesWidth_singleton, dotEntry_width, dotDotEntry_width]
    unfold ext4DotDentrySize
    omega
  exact ⟨c, h.dirTable hg hroomy hsize hplace (Or.inr rfl) _ htree (by simpa using hholds)
    (by simpa using htiled) fun _ => by rw [hlost.size, List.length_singleton, Nat.one_mul]⟩

/-- The table of `lost+found` has nothing behind the entries for itself and for the root. -/
theorem LostFoundBuilt.readTable (hlost : LostFoundBuilt g env t)
    (h : Building g {ext4LostFoundInode} m₀ base F [] [] t) (hroomy : Roomy g t)
    (hsize : blockSize g.sb ≤ 2 ^ 16) :
    readDirectory g t.mem ext4LostFoundInode =
      some [(ext4LostFoundInode, [0x2E]), (ext4RootInode, [0x2E, 0x2E])] := by
  obtain ⟨c, htable⟩ := hlost.dirTable hg h hroomy hsize
  exact htable.readDirectory_eq hg hsize

/-- The directory `lost+found` is seen empty. -/
theorem LostFoundBuilt.read_eq (hlost : LostFoundBuilt g env t)
    (h : Building g {ext4LostFoundInode} m₀ base F [] [] t) (hroomy : Roomy g t)
    (hsize : blockSize g.sb ≤ 2 ^ 16) (levels : ℕ) (below : Option (Forest FileView)) :
    readChild g t.mem (readForest g t.mem (levels + 1) ext4RootInode) lostFoundEntry.key below =
      below.map (.dir (lostFoundView env) .nil) := by
  have hread : readForest g t.mem (levels + 1) ext4RootInode ext4LostFoundInode = some .nil := by
    rw [readForest, hlost.readTable hg h hroomy hsize]
    rfl
  have hkey : lostFoundEntry.key = (ext4LostFoundInode, lostFoundEntry.name) := rfl
  rw [readChild, hkey]
  cases below with
  | none => rfl
  | some behind =>
    simp only [Option.bind_eq_bind, Option.bind_some, hlost.isDirectory, hread, hlost.view_eq,
      if_true]
    rfl

/-- The blocks of the root: the entry for `lost+found` has the last one to itself. -/
theorem Converted.rootTable (h : Converted g env m₀ base F rootExtents records t)
    (hroomy : Roomy g t) (hsize : blockSize g.sb ≤ 2 ^ 16) :
    ∃ blocks, blocks.map Prod.snd =
      packDirectory (blockSize g.sb) ext4RootInode ext4RootInode (records.childEntries 12) ++
        [fullBlock (blockSize g.sb) [] lostFoundEntry] ∧
      DirTable g t.mem ext4RootInode blocks := by
  obtain ⟨blocks, hpacked, htree, hholds, -, hcount⟩ := h.root.blocks
  have hfirst := h.building.inv.firstFree
  have hff := h.firstFree
  have hblock := hg.blockSize_ge
  have hnonempty : 1 ≤ blocks.length := by
    have hlength := congrArg List.length hpacked
    rw [List.length_map, List.length_append, List.length_singleton] at hlength
    omega
  have htiled : ∀ x ∈ blocks, entriesWidth x.2 = blockSize g.sb := by
    intro x hx
    have hin := hpacked ▸ List.mem_map_of_mem (f := Prod.snd) hx
    rcases List.mem_append.mp hin with hin | hin
    · exact packDirectory_width hg records (by omega) _ hin
    · rw [List.mem_singleton.mp hin]
      apply fullBlock_width
      have hwidth : lostFoundEntry.width = 20 := rfl
      rw [entriesWidth_nil, hwidth]
      omega
  refine ⟨blocks, hpacked, h.building.dirTable hg hroomy hsize h.root.node.place
    (Or.inl h.root.node.made) blocks htree hholds htiled fun hlt => ?_⟩
  obtain ⟨j, hj⟩ := Nat.exists_eq_add_of_le' hnonempty
  rw [hj, Nat.add_mul, Nat.one_mul] at hlt
  rw [hcount, hj, Nat.add_sub_cancel, u32_of_lt (by omega), u64_of_lt (by omega), Nat.add_mul,
    Nat.one_mul]

/-- The table of the root: `lost+found` follows the children. -/
theorem Converted.readRoot_eq (h : Converted g env m₀ base F rootExtents records t)
    (hroomy : Roomy g t) (hsize : blockSize g.sb ≤ 2 ^ 16) :
    readDirectory g t.mem ext4RootInode = some ((ext4RootInode, [0x2E]) ::
      (ext4RootInode, [0x2E, 0x2E]) ::
        ((records.childEntries 12).map DirEntry.key ++ [lostFoundEntry.key])) := by
  obtain ⟨blocks, hpacked, htable⟩ := h.rootTable hg hroomy hsize
  rw [htable.readDirectory_eq hg hsize, hpacked, List.flatten_append, List.map_append,
    packDirectory_key, List.flatten_singleton, fullBlock_key]
  rfl

/-- A driver finds the FAT volume in the finished ext4 volume, with `lost+found` added. -/
theorem Converted.readForest_eq
    (hread : VolumeRead g m₀ rootChain forest r w pages rootExtents records base)
    (hv : IsVolume g m₀ rootChain forest) (hcounted : forest.Counted)
    (h : Converted g env m₀ base (keptBlocks g pages records) rootExtents records t)
    (hroomy : Roomy g t) (hsize : blockSize g.sb ≤ 2 ^ 16) (hlevels : forest.depth ≤ levels) :
    readForest g t.mem (levels + 2) ext4RootInode ext4RootInode =
      some ((forest.map (FatNode.view g env m₀)).append (.dir (lostFoundView env) .nil .nil)) := by
  have hff := h.firstFree
  have hbelow := ForestBuilt.read_eq hg hsize h.building hroomy hread.children hv.children
    (hread.fits hg hv hcounted) (fun rec hrec hfile => mem_keptBlocks pages hrec hfile) h.built
    le_rfl hff.ge (show forest.depth ≤ levels + 1 by omega) (.dir (lostFoundView env) .nil .nil)
  have hlost := h.lostFound.read_eq hg h.building hroomy hsize levels (some .nil)
  rw [readForest, h.readRoot_eq hg hroomy hsize]
  simp only [Option.bind_eq_bind, Option.bind_some, List.take_succ_cons,
    List.take_zero, List.drop_succ_cons, List.drop_zero, if_true]
  rw [List.foldr_append, List.foldr_cons, List.foldr_nil, hlost, Option.map_some]
  exact hbelow

end Volume

end OfsConvert
