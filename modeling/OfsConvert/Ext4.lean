import OfsConvert.Fat
import OfsConvert.Util

/-!
# The ext4 super block and the block group layout

`init_ext4_sb` fills the super block from the boot sector; the layout functions of
`ext4_bg.cpp` read it. Each function is computed in the widths of its C++ types. The uuid,
the time stamp and the volume label of the super block enter no computation of the layout.
-/

namespace OfsConvert

/-- The inode of the root directory. -/
def ext4RootInode : ℕ := 2

/-- The inode of `lost+found`. -/
def ext4LostFoundInode : ℕ := 11

/-- The first inode that is not reserved. -/
def ext4FirstNonRsvInode : ℕ := 11

/-- The logarithm of the smallest block size. -/
def ext4BlockSizeMinLog2 : ℕ := 10

/-- The most blocks that a group may have. -/
def ext4MaxBlocksPerGroup : ℕ := 2 ^ 16 - 8

/-- One inode for that many bytes. -/
def ext4InodeRatio : ℕ := 16384

/-- The size of an inode. -/
def ext4InodeSize : ℕ := 256

/-- The size of a group descriptor with 64-bit fields. -/
def ext464BitDescSize : ℕ := 64

/-- The fields of the super block that the conversion computes with. -/
structure Ext4SuperBlock where
  sInodesCount : ℕ := 0
  sBlocksCountLo : ℕ := 0
  sBlocksCountHi : ℕ := 0
  sFreeBlocksCountLo : ℕ := 0
  sFreeBlocksCountHi : ℕ := 0
  sFreeInodesCount : ℕ := 0
  sFirstDataBlock : ℕ := 0
  sLogBlockSize : ℕ := 0
  sBlocksPerGroup : ℕ := 0
  sInodesPerGroup : ℕ := 0
  sInodeSize : ℕ := 0
  sDescSize : ℕ := 0
  sReservedGdtBlocks : ℕ := 0
  sBackupBgs0 : ℕ := 0
  sBackupBgs1 : ℕ := 0
  deriving DecidableEq, Repr

/-- `block_size()`. -/
def blockSize (sb : Ext4SuperBlock) : ℕ := u32 (1 <<< (sb.sLogBlockSize + ext4BlockSizeMinLog2))

/-- `block_count()`. -/
def blockCount (sb : Ext4SuperBlock) : ℕ := fromLoHi sb.sBlocksCountLo sb.sBlocksCountHi

/-- `block_start()`. -/
def blockStart (mi : MetaInfo) (sb : Ext4SuperBlock) (blockNo : ℕ) : ℕ :=
  mi.fsStart + blockNo * blockSize sb

/-- `block_group_count()`. -/
def blockGroupCount (sb : Ext4SuperBlock) : ℕ := ceildiv64 (blockCount sb) sb.sBlocksPerGroup

/-- `gdt_block_count()`. -/
def gdtBlockCount (sb : Ext4SuperBlock) : ℕ :=
  ceildiv32 (blockGroupCount sb) (blockSize sb / sb.sDescSize)

/-- `block_group_start()`; computed in 32 bits before it is widened. -/
def blockGroupStart (sb : Ext4SuperBlock) (num : ℕ) : ℕ :=
  u32 (sb.sBlocksPerGroup * num + sb.sFirstDataBlock)

/-- `block_group_block_count()`. -/
def blockGroupBlockCount (sb : Ext4SuperBlock) (num : ℕ) : ℕ :=
  min sb.sBlocksPerGroup (u32 (sub64 (blockCount sb) (blockGroupStart sb num)))

/-- `inode_table_blocks()`. -/
def inodeTableBlocks (sb : Ext4SuperBlock) : ℕ :=
  ceildiv32 (u32 (sb.sInodesPerGroup * sb.sInodeSize)) (blockSize sb)

/-- `block_group_has_sb_copy()`. -/
def blockGroupHasSbCopy (sb : Ext4SuperBlock) (bgNum : ℕ) : Bool :=
  bgNum == 0 || bgNum == sb.sBackupBgs0 || bgNum == sb.sBackupBgs1

/-- `block_group_overhead(bool)`. -/
def overheadOf (sb : Ext4SuperBlock) (hasSbCopy : Bool) : ℕ :=
  if hasSbCopy then
    u32 (3 + gdtBlockCount sb + sb.sReservedGdtBlocks + inodeTableBlocks sb)
  else
    u32 (2 + inodeTableBlocks sb)

/-- `block_group_overhead(uint32_t)`. -/
def blockGroupOverhead (sb : Ext4SuperBlock) (bgNum : ℕ) : ℕ :=
  overheadOf sb (blockGroupHasSbCopy sb bgNum)

/-- `init_ext4_sb`. The block count is stored twice: the branch that is to drop a short last
group stores the unreduced count again, and its overhead is computed while the inode count of
the group is still 0. -/
def initExt4Sb (b : BootSector) : Except Halt Ext4SuperBlock :=
  let bytesPerBlock := b.bytesPerSector.toNat * b.sectorsPerCluster.toNat
  let partitionBytes := b.bytesPerSector.toNat * sectorCount b
  if bytesPerBlock < 1024 then
    .error (.exit "This tool only works for FAT partitions with cluster size >= 1kB\n")
  else
    let sb : Ext4SuperBlock := { sDescSize := ext464BitDescSize, sInodeSize := ext4InodeSize }
    let sb := { sb with
      sLogBlockSize := Nat.log2 bytesPerBlock - ext4BlockSizeMinLog2
      sFirstDataBlock := if bytesPerBlock = 1024 then 1 else 0
      sBlocksPerGroup := min (u32 (bytesPerBlock * 8)) ext4MaxBlocksPerGroup }
    let count := partitionBytes / bytesPerBlock
    let sb := { sb with
      sBlocksCountLo := (setLoHi64 count).1
      sBlocksCountHi := (setLoHi64 count).2 }
    let sb :=
      if count % sb.sBlocksPerGroup < overheadOf sb true + 50 then
        { sb with
          sBlocksCountLo := (setLoHi64 count).1
          sBlocksCountHi := (setLoHi64 count).2 }
      else sb
    let bgCount := blockGroupCount sb
    let sb := { sb with
      sBackupBgs0 := if 1 < bgCount then 1 else 0
      sBackupBgs1 :=
        if 1 < bgCount then if 2 < bgCount then sub32 (blockGroupCount sb) 1 else 0 else 0 }
    let inodesPerGroup :=
      min (u32 (sb.sBlocksPerGroup * bytesPerBlock) / ext4InodeRatio) (u32 (bytesPerBlock * 8))
    .ok { sb with
      sInodesPerGroup := inodesPerGroup
      sInodesCount := u32 (inodesPerGroup * blockGroupCount sb) }

/-- One round of the loop in `create_block_group_meta_extents`. -/
def blockGroupMetaExtent (b : BootSector) (mi : MetaInfo) (sb : Ext4SuperBlock) (i : ℕ) :
    Except Halt FatExtent :=
  let bgOverhead := blockGroupOverhead sb i
  if bgOverhead > 0xFFFF then
    .error (.exit "Block group overhead too large\n")
  else
    let bgStart := blockGroupStart sb i
    let startCluster := e4blkToFatCl b mi bgStart
    if startCluster ≠ 0 then
      .ok ⟨0, u16 bgOverhead, startCluster⟩
    else
      -- the extent would begin before the first data cluster
      let endCluster := e4blkToFatCl b mi (bgStart + bgOverhead)
      if endCluster ≠ 0 then
        .ok ⟨0, u16 (sub32 endCluster fatStartIndex), fatStartIndex⟩
      else
        .ok ⟨0, 0, 0⟩

/-- `create_block_group_meta_extents`: one extent for each group, then the end of the file
system. -/
def createBlockGroupMetaExtents (b : BootSector) (mi : MetaInfo) (sb : Ext4SuperBlock)
    (bgCount : ℕ) : Except Halt (List FatExtent) := do
  let extents ← (List.range bgCount).mapM (blockGroupMetaExtent b mi sb)
  pure (extents ++ [⟨0, 1, dataClusterCount b mi⟩])

end OfsConvert
