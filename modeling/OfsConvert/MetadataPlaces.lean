import OfsConvert.BlockGroups
import OfsConvert.DataArea
import OfsConvert.GroupLayout
import OfsConvert.MetaExtents

/-!
# The places of the metadata

Every block group starts with a prefix that holds, in this order, the super block copy and the
descriptors if there are any, the two bitmaps and the inode table. The addresses that the second
phase computes are those of these places; prefixes of different groups share no block, and no
unblocked cluster lies in one.
-/

namespace OfsConvert

/-- The addresses of a block. -/
def InBlock (g : Globals) (b a : ℕ) : Prop :=
  blockStart g.metaInfo g.sb b ≤ a ∧ a < blockStart g.metaInfo g.sb b + blockSize g.sb

/-- A block of the metadata prefix of a group. -/
def InPrefix (g : Globals) (i b : ℕ) : Prop :=
  blockGroupStart g.sb i ≤ b ∧ b < blockGroupStart g.sb i + blockGroupOverhead g.sb i

/-- A block of the metadata prefix of some group. -/
def MetaBlock (g : Globals) (b : ℕ) : Prop := ∃ i < blockGroupCount g.sb, InPrefix g i b

/-- The group of a block. -/
def groupOfBlock (sb : Ext4SuperBlock) (b : ℕ) : ℕ := (b - sb.sFirstDataBlock) / sb.sBlocksPerGroup

/-- A block that may be registered: it is the block of a data cluster and in no prefix. -/
structure DataBlock (g : Globals) (b : ℕ) : Prop where
  lower : dataBlock g.bootSector ≤ b
  upper : b < blockCount g.sb
  outside : ¬ MetaBlock g b

/-- The addresses of the bitmaps and of the inode table of a group. -/
def blockBitmapAddr (g : Globals) (i : ℕ) : ℕ :=
  blockStart g.metaInfo g.sb (blockBitmapBlock g.sb i)

/-- The address of the inode bitmap of a group. -/
def inodeBitmapAddr (g : Globals) (i : ℕ) : ℕ :=
  blockStart g.metaInfo g.sb (blockBitmapBlock g.sb i + 1)

/-- The address of the inode table of a group. -/
def inodeTableAddr (g : Globals) (i : ℕ) : ℕ :=
  blockStart g.metaInfo g.sb (blockBitmapBlock g.sb i + 2)

/-- The number of an inode that has a place in the table of a group. -/
structure InodePlace (sb : Ext4SuperBlock) (inodeNo : ℕ) : Prop where
  lower : 1 ≤ inodeNo
  upper : inodeNo < 2 ^ 32
  group : inodeGroup sb inodeNo < blockGroupCount sb

/-- The address of an inode. -/
def inodeAddr (g : Globals) (inodeNo : ℕ) : ℕ :=
  inodeTableAddr g (inodeGroup g.sb inodeNo) + inodeIndex g.sb inodeNo * ext4InodeSize

section

variable {g : Globals}

/-- Blocks follow one another. -/
theorem blockStart_add (b n : ℕ) :
    blockStart g.metaInfo g.sb (b + n) = blockStart g.metaInfo g.sb b + n * blockSize g.sb := by
  rw [blockStart, blockStart, Nat.add_mul, Nat.add_assoc]

/-- Later blocks have higher addresses. -/
theorem blockStart_mono {b b' : ℕ} (h : b ≤ b') :
    blockStart g.metaInfo g.sb b ≤ blockStart g.metaInfo g.sb b' :=
  Nat.add_le_add_left (Nat.mul_le_mul_right _ h) _

/-- A block ends before each block behind it. -/
theorem blockStart_lt {b b' : ℕ} (h : b < b') :
    blockStart g.metaInfo g.sb b + blockSize g.sb ≤ blockStart g.metaInfo g.sb b' := by
  have hmono := blockStart_mono (g := g) (Nat.succ_le_of_lt h)
  rwa [Nat.succ_eq_add_one, blockStart_add, Nat.one_mul] at hmono

/-- Distinct blocks share no byte. -/
theorem inBlock_unique {b b' a : ℕ} (h : InBlock g b a) (h' : InBlock g b' a) : b = b' := by
  obtain ⟨hlow, hhigh⟩ := h
  obtain ⟨hlow', hhigh'⟩ := h'
  rcases Nat.lt_trichotomy b b' with hlt | heq | hgt
  · have hstart := blockStart_lt (g := g) hlt
    omega
  · exact heq
  · have hstart := blockStart_lt (g := g) hgt
    omega

end

namespace Accepted

variable {g : Globals} (hg : Accepted g)
include hg

/-- A block has at least 1 KiB. -/
theorem blockSize_ge : 1024 ≤ blockSize g.sb := by
  rw [hg.blockSize_eq]
  exact hg.clusterSize_ge

/-- A block has at most 512 KiB. -/
theorem blockSize_le : blockSize g.sb ≤ 2 ^ 19 := by
  rw [hg.blockSize_eq]
  exact hg.clusterSize_le

/-- Every block of a range of bytes. -/
theorem inBlock_of_range {b n a : ℕ} (hlow : blockStart g.metaInfo g.sb b ≤ a)
    (hhigh : a < blockStart g.metaInfo g.sb b + n * blockSize g.sb) :
    ∃ b', b ≤ b' ∧ b' < b + n ∧ InBlock g b' a := by
  have hsize := hg.blockSize_ge
  obtain ⟨k, rfl⟩ := Nat.exists_eq_add_of_le hlow
  have hk : k < n * blockSize g.sb := by omega
  have hquot : k / blockSize g.sb < n := (Nat.div_lt_iff_lt_mul (by omega)).mpr hk
  have hmod := Nat.mod_lt k (show 0 < blockSize g.sb by omega)
  have hdiv := Nat.div_add_mod' k (blockSize g.sb)
  refine ⟨b + k / blockSize g.sb, Nat.le_add_right _ _, by omega, ?_⟩
  rw [InBlock, blockStart_add]
  omega

/-- The addresses of a data cluster are those of its block. -/
theorem blockStart_fatClToE4blk {c : ℕ} (hc : DataCluster g c) :
    blockStart g.metaInfo g.sb (fatClToE4blk g.bootSector g.metaInfo c) =
      clusterStart g.metaInfo c := by
  rw [hg.fatClToE4blk_eq hc.1 hc.2.le, hg.start_eq hc, blockStart, hg.blockSize_eq]

/-- The bytes of a cluster are those of its block. -/
theorem inBlock_iff_inCluster {c a : ℕ} (hc : DataCluster g c) :
    InBlock g (fatClToE4blk g.bootSector g.metaInfo c) a ↔ InCluster g c a := by
  rw [InBlock, InCluster, hg.blockStart_fatClToE4blk hc, hg.blockSize_eq]

/-- The block of a cluster determines the cluster. -/
theorem e4blkToFatCl_fatClToE4blk {c : ℕ} (hc : DataCluster g c) :
    e4blkToFatCl g.bootSector g.metaInfo (fatClToE4blk g.bootSector g.metaInfo c) = c := by
  have hcount := hg.dataClusterCount_eq
  have hpartition := hg.partitionBlocks_lt
  have hlow := hc.1
  have hhigh := hc.2
  unfold fatStartIndex at hlow
  rw [hg.fatClToE4blk_eq hc.1 hc.2.le, hg.e4blkToFatCl_eq (by omega), if_neg (by omega)]
  omega

/-- The block of a cluster is below 2^29. -/
theorem fatClToE4blk_lt {c : ℕ} (hc : DataCluster g c) :
    fatClToE4blk g.bootSector g.metaInfo c < 2 ^ 29 := by
  have hcount := hg.dataClusterCount_eq
  have hpartition := hg.partitionBlocks_lt
  have hlow := hc.1
  have hhigh := hc.2
  unfold fatStartIndex at hlow
  rw [hg.fatClToE4blk_eq hc.1 hc.2.le]
  omega

/-- The blocks of consecutive clusters are consecutive. -/
theorem fatClToE4blk_add {c j : ℕ} (hc : DataCluster g c) (hcj : DataCluster g (c + j)) :
    fatClToE4blk g.bootSector g.metaInfo (c + j) =
      fatClToE4blk g.bootSector g.metaInfo c + j := by
  have hlow := hc.1
  unfold fatStartIndex at hlow
  rw [hg.fatClToE4blk_eq hc.1 hc.2.le, hg.fatClToE4blk_eq hcj.1 hcj.2.le]
  omega

/-- Different clusters have different blocks. -/
theorem fatClToE4blk_inj {c d : ℕ} (hc : DataCluster g c) (hd : DataCluster g d)
    (h : fatClToE4blk g.bootSector g.metaInfo c = fatClToE4blk g.bootSector g.metaInfo d) :
    c = d := by
  rw [← hg.e4blkToFatCl_fatClToE4blk hc, h, hg.e4blkToFatCl_fatClToE4blk hd]

/-- A data cluster outside the blocked extents has a block outside the prefixes. -/
theorem dataBlock_of_cluster {c : ℕ} (hc : DataCluster g c)
    (hunblocked : ∀ e ∈ metaExtents g, c ∉ e.clusters) :
    DataBlock g (fatClToE4blk g.bootSector g.metaInfo c) := by
  have hlow := hc.1
  have hhigh := hc.2
  have hcount := hg.dataClusterCount_eq
  unfold fatStartIndex at hlow
  refine ⟨?_, ?_, ?_⟩
  · rw [hg.fatClToE4blk_eq hc.1 hc.2.le]
    exact Nat.le_add_right _ _
  · have hdata := hg.dataBlock_lt_partitionBlocks
    rw [hg.fatClToE4blk_eq hc.1 hc.2.le, hg.blockCount_eq]
    omega
  · rintro ⟨i, hi, hinitial⟩
    exact hunblocked (metaExtent g i) (List.mem_map.mpr ⟨i, List.mem_range.mpr hi, rfl⟩)
      ((hg.mem_metaExtent hi hc.1 hc.2).mpr hinitial)

/-- A prefix ends before the next group starts. -/
theorem prefix_lt {i j b b' : ℕ} (hij : i < j) (hj : j < blockGroupCount g.sb)
    (hb : InPrefix g i b) (hb' : InPrefix g j b') : b < b' := by
  have hover := hg.blockGroupOverhead_le i
  obtain ⟨hgroup, -⟩ := hg.numbers
  obtain ⟨-, hhigh⟩ := hb
  obtain ⟨hlow, -⟩ := hb'
  have hmul := Nat.mul_le_mul_left g.sb.sBlocksPerGroup (Nat.succ_le_of_lt hij)
  rw [Nat.mul_succ] at hmul
  rw [hg.blockGroupStart_eq (by omega)] at hhigh
  rw [hg.blockGroupStart_eq hj.le] at hlow
  omega

/-- Prefixes of different groups share no block. -/
theorem prefix_unique {i j b : ℕ} (hi : i < blockGroupCount g.sb) (hj : j < blockGroupCount g.sb)
    (hb : InPrefix g i b) (hb' : InPrefix g j b) : i = j := by
  rcases Nat.lt_trichotomy i j with hlt | heq | hgt
  · exact absurd (hg.prefix_lt hlt hj hb hb') (Nat.lt_irrefl b)
  · exact heq
  · exact absurd (hg.prefix_lt hgt hi hb' hb) (Nat.lt_irrefl b)

/-- A group starts at a block of at most 2^29. -/
theorem blockGroupStart_lt {i : ℕ} (hi : i < blockGroupCount g.sb) :
    blockGroupStart g.sb i ≤ 2 ^ 29 := by
  have hstart := hg.groupStart_le hi
  have hlt := hg.partitionBlocks_lt
  rw [hg.blockGroupStart_eq hi.le]
  omega

/-- The bitmaps and the inode table are the end of the prefix. -/
theorem blockBitmapBlock_eq {i : ℕ} (hi : i < blockGroupCount g.sb) :
    blockGroupStart g.sb i ≤ blockBitmapBlock g.sb i ∧
      blockBitmapBlock g.sb i + 2 + tableBlocks g.metaInfo.clusterSize =
        blockGroupStart g.sb i + blockGroupOverhead g.sb i ∧
      (blockGroupHasSbCopy g.sb i = true → blockBitmapBlock g.sb i =
        blockGroupStart g.sb i + 1 + gdtBlockCount g.sb) := by
  have hstart := hg.blockGroupStart_lt hi
  have hgdt := hg.gdtBlockCount_le
  have hreserved := hg.superBlockOf.reservedGdt
  rw [blockGroupOverhead, hg.overheadOf_eq, blockBitmapBlock, hreserved, Nat.add_zero]
  split
  · rw [u64_of_lt (by omega)]
    exact ⟨by omega, by omega, fun _ => rfl⟩
  · rename_i hcopy
    exact ⟨le_rfl, by omega, fun h => absurd h hcopy⟩

/-- The bitmaps and the blocks of the inode table are in the prefix. -/
theorem inPrefix_of_le {i k : ℕ} (hi : i < blockGroupCount g.sb)
    (hk : k < 2 + tableBlocks g.metaInfo.clusterSize) :
    InPrefix g i (blockBitmapBlock g.sb i + k) := by
  obtain ⟨hlow, hstop, -⟩ := hg.blockBitmapBlock_eq hi
  exact ⟨by omega, by omega⟩

/-- The bitmaps of a group are below block 2^30. -/
theorem blockBitmapBlock_lt {i : ℕ} (hi : i < blockGroupCount g.sb) :
    blockBitmapBlock g.sb i < 2 ^ 30 := by
  obtain ⟨-, hstop, -⟩ := hg.blockBitmapBlock_eq hi
  have hstart := hg.blockGroupStart_lt hi
  have hover := hg.blockGroupOverhead_le i
  omega

/-- The group of a data block, and that the block is behind the prefix of that group. -/
theorem groupOfBlock_spec {b : ℕ} (hb : DataBlock g b) :
    groupOfBlock g.sb b < blockGroupCount g.sb ∧
      blockGroupStart g.sb (groupOfBlock g.sb b) +
        blockGroupOverhead g.sb (groupOfBlock g.sb b) ≤ b ∧
      b < blockGroupStart g.sb (groupOfBlock g.sb b) +
        blockGroupBlockCount g.sb (groupOfBlock g.sb b) ∧
      b < blockGroupStart g.sb (groupOfBlock g.sb b) + g.sb.sBlocksPerGroup := by
  obtain ⟨hgroup, -⟩ := hg.numbers
  have hfirst := hg.sFirstDataBlock_le
  have hpos := hg.dataBlock_pos
  have hlower := hb.lower
  have hupper := hb.upper
  have hcover := hg.le_group_mul
  have hpartition := hg.partitionBlocks_lt
  rw [hg.blockCount_eq] at hupper
  have hi : groupOfBlock g.sb b < blockGroupCount g.sb := by
    rw [groupOfBlock, Nat.div_lt_iff_lt_mul (by omega), Nat.mul_comm]
    omega
  have hdiv := Nat.div_add_mod (b - g.sb.sFirstDataBlock) g.sb.sBlocksPerGroup
  have hmod := Nat.mod_lt (b - g.sb.sFirstDataBlock) (show 0 < g.sb.sBlocksPerGroup by omega)
  rw [← groupOfBlock] at hdiv
  have hstart := hg.blockGroupStart_eq hi.le
  have hlow : blockGroupStart g.sb (groupOfBlock g.sb b) ≤ b := by omega
  refine ⟨hi, ?_, ?_, by omega⟩
  · by_contra hin
    exact hb.outside ⟨_, hi, hlow, by omega⟩
  · rw [blockGroupBlockCount, hg.blockCount_eq, sub64_of_le (by omega) (by omega),
      u32_of_lt (by omega)]
    omega

/-- The group of a block by its place in it. -/
theorem groupOfBlock_add {i k : ℕ} (hi : i < blockGroupCount g.sb)
    (hk : k < blockGroupBlockCount g.sb i) : groupOfBlock g.sb (blockGroupStart g.sb i + k) = i := by
  have hcount : blockGroupBlockCount g.sb i ≤ g.sb.sBlocksPerGroup := Nat.min_le_left _ _
  have hplace : blockGroupStart g.sb i + k - g.sb.sFirstDataBlock =
      k + g.sb.sBlocksPerGroup * i := by
    rw [hg.blockGroupStart_eq hi.le]
    omega
  rw [groupOfBlock, hplace, Nat.add_mul_div_left _ _ (by omega), Nat.div_eq_of_lt (by omega),
    Nat.zero_add]

/-- Consecutive data blocks are in one group: the prefix of the next one lies between. -/
theorem groupOfBlock_eq {b n : ℕ} (h : ∀ k < n, DataBlock g (b + k)) {k : ℕ} (hk : k < n) :
    groupOfBlock g.sb (b + k) = groupOfBlock g.sb b := by
  induction k with
  | zero => rfl
  | succ k ih =>
    have hk' : k < n := by omega
    rw [← ih hk']
    obtain ⟨hi, hlow, -, hhigh⟩ := hg.groupOfBlock_spec (h k hk')
    obtain ⟨hj, hlow', -, hhigh'⟩ := hg.groupOfBlock_spec (h (k + 1) hk)
    have hover := hg.blockGroupOverhead_ge (groupOfBlock g.sb (b + (k + 1)))
    rw [hg.blockGroupStart_eq hi.le] at hlow hhigh
    rw [hg.blockGroupStart_eq hj.le] at hlow' hhigh'
    rcases Nat.lt_trichotomy (groupOfBlock g.sb (b + (k + 1))) (groupOfBlock g.sb (b + k)) with
      hlt | heq | hgt
    · have hmul := Nat.mul_le_mul_left g.sb.sBlocksPerGroup (Nat.succ_le_of_lt hlt)
      rw [Nat.mul_succ] at hmul
      omega
    · exact heq
    · have hmul := Nat.mul_le_mul_left g.sb.sBlocksPerGroup (Nat.succ_le_of_lt hgt)
      rw [Nat.mul_succ] at hmul
      omega

/-- An inode number is its group and its index. -/
theorem inodeNo_eq {inodeNo : ℕ} (h : InodePlace g.sb inodeNo) :
    inodeNo = inodeGroup g.sb inodeNo * g.sb.sInodesPerGroup + inodeIndex g.sb inodeNo + 1 ∧
      inodeIndex g.sb inodeNo < g.sb.sInodesPerGroup := by
  obtain ⟨-, -, -, hinodes, -⟩ := hg.numbers
  have hlow := h.lower
  have hupper := h.upper
  have hdiv := Nat.div_add_mod' (inodeNo - 1) g.sb.sInodesPerGroup
  rw [inodeGroup, inodeIndex, sub32_of_le hlow hupper]
  exact ⟨by omega, Nat.mod_lt _ (by omega)⟩

/-- An inode is inside the inode table of its group. -/
theorem inodeAddr_table {inodeNo : ℕ} (h : InodePlace g.sb inodeNo) :
    inodeTableAddr g (inodeGroup g.sb inodeNo) ≤ inodeAddr g inodeNo ∧
      inodeAddr g inodeNo + ext4InodeSize ≤ inodeTableAddr g (inodeGroup g.sb inodeNo) +
        tableBlocks g.metaInfo.clusterSize * blockSize g.sb := by
  obtain ⟨-, hindex⟩ := hg.inodeNo_eq h
  obtain ⟨-, -, -, -, -, -, -, -, htable⟩ := hg.numbers
  have hmul := Nat.mul_le_mul_right 256 (Nat.succ_le_of_lt hindex)
  rw [hg.blockSize_eq, inodeAddr, ext4InodeSize]
  omega

/-- The blocks of an inode are in the prefix of its group, behind the bitmaps. -/
theorem inodeAddr_inPrefix {inodeNo a : ℕ} (h : InodePlace g.sb inodeNo)
    (hlow : inodeAddr g inodeNo ≤ a) (hhigh : a < inodeAddr g inodeNo + ext4InodeSize) :
    ∃ b, InPrefix g (inodeGroup g.sb inodeNo) b ∧
      blockBitmapBlock g.sb (inodeGroup g.sb inodeNo) + 2 ≤ b ∧ InBlock g b a := by
  obtain ⟨hstart, hstop⟩ := hg.inodeAddr_table h
  obtain ⟨b, hb, hb', hin⟩ := hg.inBlock_of_range (hstart.trans hlow) (hhigh.trans_le hstop)
  obtain ⟨k, rfl⟩ := Nat.exists_eq_add_of_le hb
  refine ⟨_, ?_, Nat.le_add_right _ _, hin⟩
  rw [Nat.add_assoc]
  exact hg.inPrefix_of_le h.group (by omega)

/-- Two inode numbers share no byte. -/
theorem inodeAddr_unique {i j a : ℕ} (hi : InodePlace g.sb i) (hj : InodePlace g.sb j)
    (hia : inodeAddr g i ≤ a ∧ a < inodeAddr g i + ext4InodeSize)
    (hja : inodeAddr g j ≤ a ∧ a < inodeAddr g j + ext4InodeSize) : i = j := by
  obtain ⟨b, hb, -, hba⟩ := hg.inodeAddr_inPrefix hi hia.1 hia.2
  obtain ⟨b', hb', -, hba'⟩ := hg.inodeAddr_inPrefix hj hja.1 hja.2
  obtain rfl := inBlock_unique hba hba'
  have hgroup := hg.prefix_unique hi.group hj.group hb hb'
  have hindex : inodeIndex g.sb i = inodeIndex g.sb j := by
    unfold inodeAddr ext4InodeSize at hia hja
    rw [hgroup] at hia
    omega
  rw [(hg.inodeNo_eq hi).1, (hg.inodeNo_eq hj).1, hgroup, hindex]

end Accepted

end OfsConvert
