import OfsConvert.MetadataReader
import OfsConvert.TreeBuilder

/-!
# The conversion

The second half of `main`: the block groups and the directory tree are built from the stream, then
the super block and the descriptors are written with their copies.
-/

namespace OfsConvert

/-- `sizeof(ext4_super_block)`. -/
def sizeofSuperBlock : ℕ := 1024

/-- The 64 bytes of an `ext4_group_desc`. -/
def Ext4GroupDesc.bytes (bg : Ext4GroupDesc) : List UInt8 :=
  leBytes 4 bg.bgBlockBitmapLo ++ leBytes 4 bg.bgInodeBitmapLo ++ leBytes 4 bg.bgInodeTableLo ++
    leBytes 2 bg.bgFreeBlocksCountLo ++ leBytes 2 bg.bgFreeInodesCountLo ++
    leBytes 2 bg.bgUsedDirsCountLo ++ leBytes 14 0 ++ leBytes 4 bg.bgBlockBitmapHi ++
    leBytes 4 bg.bgInodeBitmapHi ++ leBytes 4 bg.bgInodeTableHi ++
    leBytes 2 bg.bgFreeBlocksCountHi ++ leBytes 2 bg.bgFreeInodesCountHi ++
    leBytes 2 bg.bgUsedDirsCountHi ++ leBytes 14 0

/-- `write_sb_copy`. -/
def writeSbCopy (g : Globals) (env : Env) (sb : Ext4SuperBlock) (bgNum : ℕ) : Prog Unit := do
  let bgBlockStart := blockGroupStart sb bgNum
  let sbOffset := if bgNum = 0 ∧ blockSize sb ≠ 1024 then 1024 else 0
  storeBytes (blockStart g.metaInfo sb bgBlockStart + sbOffset)
    ((List.range sizeofSuperBlock).map (env.sbByte sb bgNum))
  let s ← get
  storeBytes (blockStart g.metaInfo sb (bgBlockStart + 1))
    ((s.ext4.groupDescs.take (blockGroupCount sb)).flatMap Ext4GroupDesc.bytes)

/-- `finalize_block_groups_on_disk`; `sb` is the super block with the free counts added. -/
def finalizeBlockGroupsOnDisk (g : Globals) (env : Env) (fuel : ℕ) : Prog Unit := do
  let s ← get
  match finalizeFreeCounts s.ext4.groupDescs fuel g.sb with
  | none => throw .fuel
  | some (sb, _) =>
    writeSbCopy g env sb 0
    writeSbCopy g env sb sb.sBackupBgs0
    writeSbCopy g env sb sb.sBackupBgs1

/-- What `main` does from `init_ext4_group_descs` on, up to `build_ext4_metadata_tree`. -/
def buildingPhase (g : Globals) (env : Env) (fuel : ℕ) (readStream : StreamArchiver) :
    Prog StreamArchiver := do
  initExt4GroupDescs g
  buildRootInode g env
  buildExt4MetadataTree g env fuel ext4RootInode ext4RootInode readStream

/-- What `main` does between `init_ext4_sb` and `closePartition`. -/
def conversion (g : Globals) (env : Env) (fuel : ℕ) : Prog StreamArchiver := do
  let (readStream, _) ← readingPhase g fuel
  let readStream ← buildingPhase g env fuel readStream
  buildLostFound g env fuel
  finalizeBlockGroupsOnDisk g env fuel
  pure readStream

/-- What `main` does before that: the globals are computed from the bytes of the partition. -/
def initGlobals (m : Mem) (fsStart : ℕ) : Except Halt Globals := do
  let bootSector := BootSector.ofMem m fsStart
  let metaInfo ← setMetaInfo bootSector fsStart
  let sb ← initExt4Sb bootSector
  pure ⟨bootSector, metaInfo, sb⟩

end OfsConvert
