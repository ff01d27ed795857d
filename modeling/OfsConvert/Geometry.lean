import OfsConvert.State
import Mathlib.Tactic.IntervalCases

/-!
# Accepted geometries

A geometry is accepted when `set_meta_info` and `init_ext4_sb` return and the boot sector is
that of a FAT32 volume. This file replaces the fixed-width computations of the layout by
their exact values: the first data block, the block count, the group size and the overhead.
-/

namespace OfsConvert

/-- Sectors before the first data cluster: the reserved ones and all FATs. -/
def reservedSectors (b : BootSector) : ℕ :=
  b.sectorsBeforeFat.toNat + b.sectorsPerFat.toNat * b.fatCount.toNat

/-- Sectors of 512 to 4096 bytes and clusters of 1 to 128 sectors, in powers of two. -/
structure SectorSizes (b : BootSector) : Prop where
  sectorBytes : ∃ i ≤ 3, b.bytesPerSector.toNat = 2 ^ (9 + i)
  clusterSectors : ∃ j ≤ 7, b.sectorsPerCluster.toNat = 2 ^ j

/-- The blocks of the partition, before any are dropped. -/
def partitionBlocks (b : BootSector) : ℕ := sectorCount b / b.sectorsPerCluster.toNat

/-- What the FAT32 format promises of a boot sector, and where the partition is mapped: the
sector sizes; fewer than 2²⁹ clusters in all and at least one in the data area; a FAT with an
entry for each data cluster; a data area that starts below 4 GiB. -/
structure FatVolume (b : BootSector) (fs : ℕ) : Prop extends SectorSizes b where
  dataOffset : reservedSectors b * b.bytesPerSector.toNat < 2 ^ 32
  nonempty : reservedSectors b + b.sectorsPerCluster.toNat ≤ sectorCount b
  clusters : partitionBlocks b < 2 ^ 29
  fats : 1 ≤ b.fatCount.toNat
  fatCovers : 4 * ((sectorCount b - reservedSectors b) / b.sectorsPerCluster.toNat + 2) ≤
    b.sectorsPerFat.toNat * b.bytesPerSector.toNat
  mapped : 0 < fs
  addressable : fs + sectorCount b * b.bytesPerSector.toNat ≤ 2 ^ 64

/-- The globals after `set_meta_info` and `init_ext4_sb` accepted the boot sector of a FAT32
volume. -/
structure Accepted (g : Globals) : Prop where
  volume : FatVolume g.bootSector g.metaInfo.fsStart
  metaInfo : setMetaInfo g.bootSector g.metaInfo.fsStart = .ok g.metaInfo
  superBlock : initExt4Sb g.bootSector = .ok g.sb

/-- The block of the first data cluster. -/
def dataBlock (b : BootSector) : ℕ := reservedSectors b / b.sectorsPerCluster.toNat

/-- The exact group size for blocks of `bytes` bytes. -/
def groupBlocks (bytes : ℕ) : ℕ := min (8 * bytes) ext4MaxBlocksPerGroup

/-- The number of inodes of a group for blocks of `bytes` bytes; the product of group size and
block size is a 32-bit one. -/
def groupInodes (bytes : ℕ) : ℕ :=
  min (u32 (groupBlocks bytes * bytes) / ext4InodeRatio) (8 * bytes)

/-- The blocks of an inode table for blocks of `bytes` bytes. -/
def tableBlocks (bytes : ℕ) : ℕ := ceilDiv (groupInodes bytes * ext4InodeSize) bytes

/-- The sector count has 32 bits. -/
theorem sectorCount_lt (b : BootSector) : sectorCount b < 2 ^ 32 := by
  unfold sectorCount
  have h1 := b.totalSectors2.toNat_lt
  have h2 := b.sectorCount.toNat_lt
  split <;> omega

/-- What `init_ext4_sb` stores, in terms of the block size `bytes` and the block count. -/
structure SuperBlockOf (bytes count : ℕ) (sb : Ext4SuperBlock) : Prop where
  blocksPerGroup : sb.sBlocksPerGroup = min (u32 (bytes * 8)) ext4MaxBlocksPerGroup
  countLo : sb.sBlocksCountLo = (setLoHi64 count).1
  countHi : sb.sBlocksCountHi = (setLoHi64 count).2
  firstDataBlock : sb.sFirstDataBlock = if bytes = 1024 then 1 else 0
  logBlockSize : sb.sLogBlockSize = Nat.log2 bytes - ext4BlockSizeMinLog2
  descSize : sb.sDescSize = ext464BitDescSize
  inodeSize : sb.sInodeSize = ext4InodeSize
  reservedGdt : sb.sReservedGdtBlocks = 0
  inodesPerGroup : sb.sInodesPerGroup =
    min (u32 (sb.sBlocksPerGroup * bytes) / ext4InodeRatio) (u32 (bytes * 8))
  inodesCount : sb.sInodesCount = u32 (sb.sInodesPerGroup * blockGroupCount sb)
  backup0 : sb.sBackupBgs0 = if 1 < blockGroupCount sb then 1 else 0
  backup1 : sb.sBackupBgs1 = if 2 < blockGroupCount sb then sub32 (blockGroupCount sb) 1 else 0
  freeInodes : sb.sFreeInodesCount = 0
  freeBlocksLo : sb.sFreeBlocksCountLo = 0
  freeBlocksHi : sb.sFreeBlocksCountHi = 0

/-- The second backup group is stored inside the branch for the first one. -/
private theorem ite_two_lt_of_ite_one_lt (n x : ℕ) :
    (if 1 < n then if 2 < n then x else 0 else 0) = if 2 < n then x else 0 := by
  split_ifs <;> omega

/-- Both arms of the branch for a short last group store the same block count. -/
theorem initExt4Sb_fields {b : BootSector} {sb : Ext4SuperBlock} (h : initExt4Sb b = .ok sb) :
    1024 ≤ b.bytesPerSector.toNat * b.sectorsPerCluster.toNat ∧
      SuperBlockOf (b.bytesPerSector.toNat * b.sectorsPerCluster.toNat)
        (b.bytesPerSector.toNat * sectorCount b /
          (b.bytesPerSector.toNat * b.sectorsPerCluster.toNat)) sb := by
  unfold initExt4Sb at h
  simp only [ite_self] at h
  split at h
  · cases h
  · rename_i hbytes
    refine ⟨Nat.le_of_not_lt hbytes, ?_⟩
    rw [Except.ok.injEq] at h
    subst h
    constructor <;> try rfl
    exact ite_two_lt_of_ite_one_lt _ _

/-- The group size and the inode tables of the ten possible block sizes. -/
theorem groupNumbers {k : ℕ} (hk : k ≤ 9) :
    8192 ≤ groupBlocks (2 ^ (10 + k)) ∧ groupBlocks (2 ^ (10 + k)) ≤ 8 * 2 ^ (10 + k) ∧
    groupBlocks (2 ^ (10 + k)) ≤ 65528 ∧
    512 ≤ groupInodes (2 ^ (10 + k)) ∧ groupInodes (2 ^ (10 + k)) ≤ 262112 ∧
    groupInodes (2 ^ (10 + k)) ≤ 8 * 2 ^ (10 + k) ∧
    128 ≤ tableBlocks (2 ^ (10 + k)) ∧ tableBlocks (2 ^ (10 + k)) ≤ 1024 ∧
    groupInodes (2 ^ (10 + k)) * 256 ≤ tableBlocks (2 ^ (10 + k)) * 2 ^ (10 + k) := by
  interval_cases k <;> decide

namespace Accepted

variable {g : Globals} (hg : Accepted g)
include hg

/-- There are less than 2^23 sectors in front of the data area. -/
theorem reservedSectors_lt : reservedSectors g.bootSector < 2 ^ 23 := by
  obtain ⟨i, -, hi⟩ := hg.volume.sectorBytes
  have h := hg.volume.dataOffset
  have hpow : 2 ^ 9 ≤ 2 ^ (9 + i) := Nat.pow_le_pow_right (by norm_num) (by omega)
  have hmul := Nat.mul_le_mul_left (reservedSectors g.bootSector) (hi ▸ hpow)
  omega

/-- The fields of `meta_info` without their reductions, and the alignment it was checked for. -/
theorem metaInfo_eq :
    reservedSectors g.bootSector % g.bootSector.sectorsPerCluster.toNat = 0 ∧
    g.metaInfo.fatStart = g.metaInfo.fsStart +
      g.bootSector.sectorsBeforeFat.toNat * g.bootSector.bytesPerSector.toNat ∧
    g.metaInfo.clusterSize =
      g.bootSector.sectorsPerCluster.toNat * g.bootSector.bytesPerSector.toNat ∧
    g.metaInfo.dentriesPerCluster = g.metaInfo.clusterSize / sizeofFatDentry ∧
    g.metaInfo.sectorsBeforeData = reservedSectors g.bootSector ∧
    g.metaInfo.dataStart = g.metaInfo.fsStart +
      reservedSectors g.bootSector * g.bootSector.bytesPerSector.toNat := by
  have hlt := hg.reservedSectors_lt
  have hsum : u32 (g.bootSector.sectorsBeforeFat.toNat +
      u32 (g.bootSector.sectorsPerFat.toNat * g.bootSector.fatCount.toNat)) =
      reservedSectors g.bootSector := by
    unfold reservedSectors at hlt ⊢
    rw [u32_of_lt (n := _ * _) (by omega), u32_of_lt (by omega)]
  have h := hg.metaInfo
  simp only [setMetaInfo, hsum, u32_of_lt hg.volume.dataOffset] at h
  split at h
  · cases h
  · rename_i haligned
    rw [Except.ok.injEq] at h
    rw [← h]
    exact ⟨not_not.mp haligned, rfl, rfl, rfl, rfl, rfl⟩

/-- A cluster has at least one sector. -/
theorem sectorsPerCluster_pos : 0 < g.bootSector.sectorsPerCluster.toNat := by
  obtain ⟨j, -, hj⟩ := hg.volume.clusterSectors
  rw [hj]
  positivity

/-- Clusters have 1 KiB to 512 KiB. -/
theorem clusterSize_pow : ∃ k ≤ 9, g.metaInfo.clusterSize = 2 ^ (10 + k) := by
  obtain ⟨i, hi, hsector⟩ := hg.volume.sectorBytes
  obtain ⟨j, hj, hcluster⟩ := hg.volume.clusterSectors
  have hbytes := (initExt4Sb_fields hg.superBlock).1
  have hsize := hg.metaInfo_eq.2.2.1
  rw [hsector, hcluster, ← Nat.pow_add] at hbytes
  rw [hsector, hcluster, ← Nat.pow_add] at hsize
  have hexp : 10 ≤ 9 + i + j := by
    by_contra hlt
    have : 2 ^ (9 + i + j) < 2 ^ 10 := Nat.pow_lt_pow_right (by norm_num) (by omega)
    omega
  exact ⟨i + j - 1, by omega, by rw [hsize]; congr 1; omega⟩

/-- A cluster has at least 1 KiB. -/
theorem clusterSize_ge : 1024 ≤ g.metaInfo.clusterSize := by
  obtain ⟨k, -, hk⟩ := hg.clusterSize_pow
  rw [hk]
  exact Nat.pow_le_pow_right (n := 2) (by norm_num) (by omega : 10 ≤ 10 + k)

/-- A cluster has at most 512 KiB. -/
theorem clusterSize_le : g.metaInfo.clusterSize ≤ 2 ^ 19 := by
  obtain ⟨k, hk, hsize⟩ := hg.clusterSize_pow
  rw [hsize]
  exact Nat.pow_le_pow_right (by norm_num) (by omega)

/-- The super block fields in terms of the cluster size and the exact block count. -/
theorem superBlockOf :
    SuperBlockOf g.metaInfo.clusterSize (partitionBlocks g.bootSector) g.sb := by
  have h := (initExt4Sb_fields hg.superBlock).2
  obtain ⟨i, -, hi⟩ := hg.volume.sectorBytes
  have hpos : 0 < g.bootSector.bytesPerSector.toNat := by rw [hi]; positivity
  rwa [Nat.mul_div_mul_left _ _ hpos, Nat.mul_comm, ← hg.metaInfo_eq.2.2.1] at h

/-- The sectors in front of the data area are whole blocks. -/
theorem dataBlock_mul :
    dataBlock g.bootSector * g.bootSector.sectorsPerCluster.toNat =
      reservedSectors g.bootSector :=
  Nat.div_mul_cancel (Nat.dvd_of_mod_eq_zero hg.metaInfo_eq.1)

/-- The data area starts at a block boundary. -/
theorem dataStart_eq :
    g.metaInfo.dataStart =
      g.metaInfo.fsStart + dataBlock g.bootSector * g.metaInfo.clusterSize := by
  rw [hg.metaInfo_eq.2.2.2.2.2, hg.metaInfo_eq.2.2.1, ← hg.dataBlock_mul, Nat.mul_assoc]

/-- The data area starts below block 2^22. -/
theorem dataBlock_lt : dataBlock g.bootSector < 2 ^ 22 := by
  have h := hg.volume.dataOffset
  rw [← hg.dataBlock_mul, Nat.mul_assoc, ← hg.metaInfo_eq.2.2.1] at h
  have hsize := Nat.mul_le_mul_left (dataBlock g.bootSector) hg.clusterSize_ge
  omega

/-- The data clusters are the blocks of the partition behind the reserved ones. -/
theorem dataClusters_eq :
    (sectorCount g.bootSector - reservedSectors g.bootSector) /
        g.bootSector.sectorsPerCluster.toNat =
      partitionBlocks g.bootSector - dataBlock g.bootSector := by
  rw [← hg.dataBlock_mul, partitionBlocks, Nat.mul_comm, Nat.sub_mul_div]

/-- The data area starts inside the partition. -/
theorem dataBlock_lt_partitionBlocks :
    dataBlock g.bootSector < partitionBlocks g.bootSector := by
  have h := hg.volume.nonempty
  rw [← hg.dataBlock_mul] at h
  rw [partitionBlocks, Nat.lt_iff_add_one_le, Nat.le_div_iff_mul_le hg.sectorsPerCluster_pos,
    Nat.add_mul, Nat.one_mul]
  exact h

/-- A partition has less than 2^29 blocks. -/
theorem partitionBlocks_lt : partitionBlocks g.bootSector < 2 ^ 29 := hg.volume.clusters

/-- The reserved sectors hold a FAT, so the data area does not start with the partition. -/
theorem dataBlock_pos : 0 < dataBlock g.bootSector := by
  have hcovers := hg.volume.fatCovers
  have hfats := hg.volume.fats
  rw [Nat.pos_iff_ne_zero]
  intro hzero
  have hreserved := hg.dataBlock_mul
  rw [hzero, Nat.zero_mul, reservedSectors] at hreserved
  have hfat : g.bootSector.sectorsPerFat.toNat * g.bootSector.fatCount.toNat = 0 :=
    (Nat.add_eq_zero_iff.mp hreserved.symm).2
  cases Nat.mul_eq_zero.mp hfat with
  | inl hnone =>
    rw [hnone, Nat.zero_mul] at hcovers
    exact absurd hcovers (Nat.not_le.mpr (by positivity))
  | inr hnone => omega

/-- One past the last cluster number. -/
theorem dataClusterCount_eq :
    dataClusterCount g.bootSector g.metaInfo =
      partitionBlocks g.bootSector - dataBlock g.bootSector + 2 := by
  have hlt := hg.partitionBlocks_lt
  have hnonempty := hg.volume.nonempty
  rw [dataClusterCount, hg.metaInfo_eq.2.2.2.2.1,
    sub32_of_le (by omega) (sectorCount_lt _), fatStartIndex, hg.dataClusters_eq, u32_of_lt]
  omega

/-- A volume has at most 2^29 clusters. -/
theorem dataClusterCount_le : dataClusterCount g.bootSector g.metaInfo ≤ 2 ^ 29 := by
  have hlt := hg.partitionBlocks_lt
  have hpos := hg.dataBlock_pos
  rw [hg.dataClusterCount_eq]
  omega

/-- The address of a cluster, without reductions. -/
theorem clusterStart_eq {c : ℕ} (hlow : 2 ≤ c) (hhigh : c < 2 ^ 32) :
    clusterStart g.metaInfo c =
      g.metaInfo.fsStart + (dataBlock g.bootSector + (c - 2)) * g.metaInfo.clusterSize := by
  rw [clusterStart, fatStartIndex, sub32_of_le hlow hhigh, hg.dataStart_eq, Nat.add_mul,
    Nat.add_assoc]

/-- The block of a data cluster. -/
theorem fatClToE4blk_eq {c : ℕ} (hlow : 2 ≤ c)
    (hhigh : c ≤ dataClusterCount g.bootSector g.metaInfo) :
    fatClToE4blk g.bootSector g.metaInfo c = dataBlock g.bootSector + (c - 2) := by
  have hdata := hg.dataBlock_lt
  have hcount := hg.dataClusterCount_le
  rw [fatClToE4blk, fatStartIndex, sub32_of_le hlow (by omega), hg.metaInfo_eq.2.2.2.2.1,
    ← dataBlock, u32_of_lt (by omega), Nat.add_comm]

/-- The cluster of a block, 0 before the data area. -/
theorem e4blkToFatCl_eq {n : ℕ} (hn : n < 2 ^ 30) :
    e4blkToFatCl g.bootSector g.metaInfo n =
      if n < dataBlock g.bootSector then 0 else n - dataBlock g.bootSector + 2 := by
  have hdata := hg.dataBlock_lt
  have hreserved : g.metaInfo.sectorsBeforeData / g.bootSector.sectorsPerCluster.toNat =
      dataBlock g.bootSector := by rw [hg.metaInfo_eq.2.2.2.2.1, dataBlock]
  simp only [e4blkToFatCl, hreserved, fatStartIndex]
  split
  · rw [if_pos (by omega)]
  · rw [if_neg (by omega), u32_of_lt (by omega)]
    omega

/-- A block is a cluster. -/
theorem blockSize_eq : blockSize g.sb = g.metaInfo.clusterSize := by
  obtain ⟨k, hk, hsize⟩ := hg.clusterSize_pow
  have hlog := hg.superBlockOf.logBlockSize
  rw [hsize, Nat.log2_two_pow, ext4BlockSizeMinLog2, Nat.add_sub_cancel_left] at hlog
  have hlt : 2 ^ (10 + k) < 2 ^ 32 := Nat.pow_lt_pow_right (by norm_num) (by omega)
  rw [blockSize, hlog, ext4BlockSizeMinLog2, Nat.shiftLeft_eq, Nat.one_mul, Nat.add_comm,
    u32_of_lt hlt, hsize]

/-- The file system has the blocks of the partition. -/
theorem blockCount_eq : blockCount g.sb = partitionBlocks g.bootSector := by
  have hlt := hg.partitionBlocks_lt
  have hdata := hg.dataBlock_lt
  rw [blockCount, hg.superBlockOf.countLo, hg.superBlockOf.countHi,
    fromLoHi_setLoHi64 (by omega)]

/-- The blocks of a group by the cluster size. -/
theorem blocksPerGroup_eq : g.sb.sBlocksPerGroup = groupBlocks g.metaInfo.clusterSize := by
  have hle := hg.clusterSize_le
  rw [hg.superBlockOf.blocksPerGroup, u32_of_lt (by omega), groupBlocks, Nat.mul_comm]

/-- The inodes of a group by the cluster size. -/
theorem inodesPerGroup_eq : g.sb.sInodesPerGroup = groupInodes g.metaInfo.clusterSize := by
  have hle := hg.clusterSize_le
  rw [hg.superBlockOf.inodesPerGroup, hg.blocksPerGroup_eq, groupInodes,
    u32_of_lt (n := _ * 8) (by omega), Nat.mul_comm 8]

/-- The numbers of the group layout. -/
theorem numbers :
    8192 ≤ g.sb.sBlocksPerGroup ∧ g.sb.sBlocksPerGroup ≤ 8 * g.metaInfo.clusterSize ∧
    g.sb.sBlocksPerGroup ≤ 65528 ∧
    512 ≤ g.sb.sInodesPerGroup ∧ g.sb.sInodesPerGroup ≤ 262112 ∧
    g.sb.sInodesPerGroup ≤ 8 * g.metaInfo.clusterSize ∧
    128 ≤ tableBlocks g.metaInfo.clusterSize ∧ tableBlocks g.metaInfo.clusterSize ≤ 1024 ∧
    g.sb.sInodesPerGroup * 256 ≤ tableBlocks g.metaInfo.clusterSize * g.metaInfo.clusterSize := by
  obtain ⟨k, hk, hsize⟩ := hg.clusterSize_pow
  rw [hg.blocksPerGroup_eq, hg.inodesPerGroup_eq, hsize]
  exact groupNumbers hk

/-- As many groups as the blocks need. -/
theorem blockGroupCount_eq :
    blockGroupCount g.sb = ceilDiv (partitionBlocks g.bootSector) g.sb.sBlocksPerGroup := by
  have hlt := hg.partitionBlocks_lt
  have hdata := hg.dataBlock_lt
  obtain ⟨hlow, -, hhigh, -⟩ := hg.numbers
  have hquot : ceilDiv (partitionBlocks g.bootSector) g.sb.sBlocksPerGroup ≤
      partitionBlocks g.bootSector + g.sb.sBlocksPerGroup := by
    unfold ceilDiv
    exact (Nat.div_le_self _ _).trans (Nat.sub_le _ _)
  rw [blockGroupCount, hg.blockCount_eq, ceildiv64_eq (by omega) (by omega) (by omega)]

/-- There is at least one group. -/
theorem blockGroupCount_pos : 0 < blockGroupCount g.sb := by
  have hcount := hg.dataBlock_lt_partitionBlocks
  obtain ⟨hlow, -⟩ := hg.numbers
  rw [hg.blockGroupCount_eq, ceilDiv_eq_pred_div (by omega) (by omega)]
  exact Nat.succ_pos _

/-- There are at most 2^16 groups. -/
theorem blockGroupCount_le : blockGroupCount g.sb ≤ 65536 := by
  have hcount := hg.dataBlock_lt_partitionBlocks
  have hlt := hg.partitionBlocks_lt
  have hdata := hg.dataBlock_lt
  obtain ⟨hlow, -⟩ := hg.numbers
  rw [hg.blockGroupCount_eq, ceilDiv_eq_pred_div (by omega) (by omega)]
  have hdiv : (partitionBlocks g.bootSector - 1) / g.sb.sBlocksPerGroup ≤
      (partitionBlocks g.bootSector - 1) / 8192 := Nat.div_le_div_left hlow (by norm_num)
  omega

/-- Every group but the last one is full: the groups before it do not reach the end. -/
theorem group_mul_lt {i : ℕ} (hi : i < blockGroupCount g.sb) :
    g.sb.sBlocksPerGroup * i < partitionBlocks g.bootSector := by
  have hcount := hg.dataBlock_lt_partitionBlocks
  obtain ⟨hlow, -⟩ := hg.numbers
  rw [hg.blockGroupCount_eq] at hi
  have h := ceilDiv_pred_mul_lt (a := partitionBlocks g.bootSector) (b := g.sb.sBlocksPerGroup)
    (by omega) (by omega)
  have hmul := Nat.mul_le_mul_right g.sb.sBlocksPerGroup (Nat.le_sub_one_of_lt hi)
  rw [Nat.mul_comm]
  omega

/-- The groups together reach the end. -/
theorem le_group_mul :
    partitionBlocks g.bootSector ≤ g.sb.sBlocksPerGroup * blockGroupCount g.sb := by
  obtain ⟨hlow, -⟩ := hg.numbers
  rw [hg.blockGroupCount_eq, Nat.mul_comm]
  exact le_ceilDiv_mul (by omega)

/-- The first data block is 0 or 1. -/
theorem sFirstDataBlock_le : g.sb.sFirstDataBlock ≤ 1 := by
  rw [hg.superBlockOf.firstDataBlock]
  split <;> omega

/-- The first block of a group, without reductions. -/
theorem blockGroupStart_eq {i : ℕ} (hi : i ≤ blockGroupCount g.sb) :
    blockGroupStart g.sb i = g.sb.sBlocksPerGroup * i + g.sb.sFirstDataBlock := by
  have hlt := hg.partitionBlocks_lt
  have hdata := hg.dataBlock_lt
  have hfirst := hg.sFirstDataBlock_le
  obtain ⟨-, -, hhigh, -⟩ := hg.numbers
  have hmul : g.sb.sBlocksPerGroup * i ≤ partitionBlocks g.bootSector + 65528 := by
    rcases Nat.eq_zero_or_pos i with rfl | hpos
    · omega
    · have h := hg.group_mul_lt (i := i - 1) (by omega)
      rw [Nat.mul_sub, Nat.mul_one] at h
      omega
  rw [blockGroupStart, u32_of_lt (by omega)]

/-- The blocks of an inode table by the cluster size. -/
theorem inodeTableBlocks_eq : inodeTableBlocks g.sb = tableBlocks g.metaInfo.clusterSize := by
  have hle := hg.clusterSize_le
  have hge := hg.clusterSize_ge
  obtain ⟨-, -, -, -, hinodes, -⟩ := hg.numbers
  rw [inodeTableBlocks, hg.superBlockOf.inodeSize, hg.blockSize_eq, ext4InodeSize,
    u32_of_lt (by omega), ceildiv32_eq (by omega) (by omega), tableBlocks, ext4InodeSize,
    hg.inodesPerGroup_eq]

/-- As many blocks as the descriptors need. -/
theorem gdtBlockCount_eq :
    gdtBlockCount g.sb = ceilDiv (blockGroupCount g.sb) (g.metaInfo.clusterSize / 64) := by
  have hge := hg.clusterSize_ge
  have hle := hg.clusterSize_le
  have hgroups := hg.blockGroupCount_le
  rw [gdtBlockCount, hg.superBlockOf.descSize, hg.blockSize_eq, ext464BitDescSize,
    ceildiv32_eq (by omega) (by omega)]

/-- The descriptors fit into their blocks. -/
theorem descriptors_le_gdt :
    blockGroupCount g.sb * 64 ≤ gdtBlockCount g.sb * g.metaInfo.clusterSize := by
  obtain ⟨k, hk, hsize⟩ := hg.clusterSize_pow
  have hge := hg.clusterSize_ge
  have hcover := le_ceilDiv_mul (a := blockGroupCount g.sb) (b := g.metaInfo.clusterSize / 64)
    (by omega)
  have hdvd : 64 ∣ g.metaInfo.clusterSize := by
    rw [hsize]
    exact pow_dvd_pow 2 (by omega : 6 ≤ 10 + k)
  calc blockGroupCount g.sb * 64
      ≤ ceilDiv (blockGroupCount g.sb) (g.metaInfo.clusterSize / 64) *
          (g.metaInfo.clusterSize / 64) * 64 := Nat.mul_le_mul_right 64 hcover
    _ = gdtBlockCount g.sb * g.metaInfo.clusterSize := by
        rw [Nat.mul_assoc, Nat.div_mul_cancel hdvd, hg.gdtBlockCount_eq]

/-- The group descriptors take at most 4097 blocks. -/
theorem gdtBlockCount_le : gdtBlockCount g.sb ≤ 4097 := by
  have hge := hg.clusterSize_ge
  have hgroups := hg.blockGroupCount_le
  rw [hg.gdtBlockCount_eq, ceilDiv_eq_pred_div hg.blockGroupCount_pos (by omega)]
  have hdiv : (blockGroupCount g.sb - 1) / (g.metaInfo.clusterSize / 64) ≤
      (blockGroupCount g.sb - 1) / 16 := Nat.div_le_div_left (by omega) (by norm_num)
  omega

/-- The overhead of a group with or without copies, without reductions. -/
theorem overheadOf_eq (hasSbCopy : Bool) :
    overheadOf g.sb hasSbCopy =
      (if hasSbCopy then 3 + gdtBlockCount g.sb else 2) + tableBlocks g.metaInfo.clusterSize := by
  obtain ⟨-, -, -, -, -, -, -, htable, -⟩ := hg.numbers
  have hgdt := hg.gdtBlockCount_le
  unfold overheadOf
  rw [hg.inodeTableBlocks_eq, hg.superBlockOf.reservedGdt]
  cases hasSbCopy
  · simp only [Bool.false_eq_true, if_false]
    exact u32_of_lt (by omega)
  · simp only [if_true, Nat.add_zero]
    exact u32_of_lt (by omega)

/-- The metadata of a group takes at most 5124 blocks. -/
theorem blockGroupOverhead_le (i : ℕ) : blockGroupOverhead g.sb i ≤ 5124 := by
  obtain ⟨-, -, -, -, -, -, -, htable, -⟩ := hg.numbers
  have hgdt := hg.gdtBlockCount_le
  rw [blockGroupOverhead, hg.overheadOf_eq]
  split <;> omega

/-- The metadata of a group takes at least 130 blocks. -/
theorem blockGroupOverhead_ge (i : ℕ) : 130 ≤ blockGroupOverhead g.sb i := by
  obtain ⟨-, -, -, -, -, -, htable, -, -⟩ := hg.numbers
  rw [blockGroupOverhead, hg.overheadOf_eq]
  split <;> omega

end Accepted

/-- The boot sector of a volume with clusters of 1 KiB: 32 reserved sectors and two FATs of 66
sectors each. -/
def sampleBootSector (sectors : UInt16) : BootSector where
  bytesPerSector := 512
  sectorsPerCluster := 2
  sectorsBeforeFat := 32
  fatCount := 2
  sectorCount := sectors
  totalSectors2 := 0
  sectorsPerFat := 66
  rootClusterNo := 2

/-- The globals computed from that boot sector, mapped at address 65536. -/
def sampleGlobals (sectors : UInt16) : Globals where
  bootSector := sampleBootSector sectors
  metaInfo := (setMetaInfo (sampleBootSector sectors) 65536).toOption.getD default
  sb := (initExt4Sb (sampleBootSector sectors)).toOption.getD {}

/-- A volume of 200 blocks, the last group of which has room. -/
theorem accepted_sample_400 : Accepted (sampleGlobals 400) where
  volume := {
    sectorBytes := ⟨0, by decide⟩
    clusterSectors := ⟨1, by decide⟩
    dataOffset := by decide
    nonempty := by decide
    clusters := by decide
    fats := by decide
    fatCovers := by decide
    mapped := by decide
    addressable := by decide }
  metaInfo := rfl
  superBlock := rfl

/-- A volume of 8213 blocks: 20 blocks behind the first group. -/
theorem accepted_sample_16426 : Accepted (sampleGlobals 16426) where
  volume := {
    sectorBytes := ⟨0, by decide⟩
    clusterSectors := ⟨1, by decide⟩
    dataOffset := by decide
    nonempty := by decide
    clusters := by decide
    fats := by decide
    fatCovers := by decide
    mapped := by decide
    addressable := by decide }
  metaInfo := rfl
  superBlock := rfl

/-- The boot sector of a volume of 45000 blocks in six groups, the first two of which end before the
data area. -/
def manyGroupsBootSector : BootSector where
  bytesPerSector := 512
  sectorsPerCluster := 2
  sectorsBeforeFat := 16000
  fatCount := 2
  sectorCount := 0
  totalSectors2 := 90000
  sectorsPerFat := 350
  rootClusterNo := 2

/-- The globals computed from that boot sector. -/
def manyGroupsGlobals : Globals where
  bootSector := manyGroupsBootSector
  metaInfo := (setMetaInfo manyGroupsBootSector 65536).toOption.getD default
  sb := (initExt4Sb manyGroupsBootSector).toOption.getD {}

/-- The volume with several groups is accepted. -/
theorem accepted_manyGroups : Accepted manyGroupsGlobals where
  volume := {
    sectorBytes := ⟨0, by decide⟩
    clusterSectors := ⟨1, by decide⟩
    dataOffset := by decide
    nonempty := by decide
    clusters := by decide
    fats := by decide
    fatCovers := by decide
    mapped := by decide
    addressable := by decide }
  metaInfo := rfl
  superBlock := rfl

end OfsConvert
