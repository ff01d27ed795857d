import OfsConvert.FreeTotals
import OfsConvert.Lib.Bitmap
import OfsConvert.State

/-!
# Writing the block groups

The part of `ext4_bg.cpp` that fills the bitmaps, the inode tables and the group descriptors, with
the bitmap functions of `util.cpp`. The descriptors are not in the mapped partition until
`write_sb_copy`; an access behind their end is a fault.
-/

namespace OfsConvert

/-- Join the `w`-byte word at an address with a mask. -/
def orWord (address w mask : ℕ) : Prog Unit :=
  modify fun s => s.stored address w (s.mem.orLE address w mask)

/-- An update of a word is one store. -/
@[simp] theorem wp_orWord (address w mask : ℕ) (Q : Unit → State → Prop)
    (E : Halt → State → Prop) (s : State) :
    wp (orWord address w mask) Q E s ↔ Q () (s.stored address w (s.mem.orLE address w mask)) :=
  Iff.rfl

/-- `bitmap_set_bit`. -/
def bitmapSetBit (bitmap bitNum : ℕ) : Prog Unit :=
  orWord (bitmap + bitNum / 8) 1 (1 <<< (bitNum % 8))

/-- `fillLSBs`. -/
def fillLSBs (len : ℕ) : ℕ := (1 <<< len) - 1

/-- The inner loop of `bitmap_set_bits`, over the words that are set as a whole. -/
def fillSegments : ℕ → ℕ → Prog Unit
  | 0, _ => pure ()
  | count + 1, ptr => do
    storeLE ptr 4 0xFFFFFFFF
    fillSegments count (ptr + 4)

/-- `bitmap_set_bits`; a complement is taken in 32 bits. -/
def bitmapSetBits (bitmap first last : ℕ) : Prog Unit := do
  let beginPtr := bitmap + 4 * (first / 32)
  let endPtr := bitmap + 4 * (last / 32)
  if beginPtr < endPtr then
    orWord beginPtr 4 (0xFFFFFFFF - fillLSBs (first % 32))
    fillSegments (last / 32 - first / 32 - 1) (beginPtr + 4)
    orWord endPtr 4 (fillLSBs (last % 32))
  else if beginPtr = endPtr then
    orWord beginPtr 4 ((0xFFFFFFFF - fillLSBs (first % 32)) &&& fillLSBs (last % 32))

/-- `group_descs[bg_num]`. -/
def getGroupDesc (bgNum : ℕ) : Prog Ext4GroupDesc := do
  let s ← get
  match s.ext4.groupDescs[bgNum]? with
  | some bg => pure bg
  | none => throw .fault

/-- Store to `group_descs[bg_num]`. -/
def setGroupDesc (bgNum : ℕ) (bg : Ext4GroupDesc) : Prog Unit :=
  modify fun s => { s with ext4 := { s.ext4 with groupDescs := s.ext4.groupDescs.set bgNum bg } }

/-- The block of the block bitmap of a group, as `init_ext4_group_descs` places it. -/
def blockBitmapBlock (sb : Ext4SuperBlock) (i : ℕ) : ℕ :=
  if blockGroupHasSbCopy sb i then
    u64 (blockGroupStart sb i + 1 + gdtBlockCount sb + sb.sReservedGdtBlocks)
  else blockGroupStart sb i

/-- The descriptor that `init_ext4_group_descs` writes for a group. -/
def initialGroupDesc (sb : Ext4SuperBlock) (i : ℕ) : Ext4GroupDesc :=
  let usedInodes := if i = 0 then ext4FirstNonRsvInode else 0
  let blockBitmap := setLoHi64 (blockBitmapBlock sb i)
  let inodeBitmap := setLoHi64 (u64 (blockBitmapBlock sb i + 1))
  let inodeTable := setLoHi64 (u64 (blockBitmapBlock sb i + 2))
  let freeInodes := setLoHi32 (sub32 sb.sInodesPerGroup usedInodes)
  let freeBlocks :=
    setLoHi32 (sub32 (blockGroupBlockCount sb i) (overheadOf sb (blockGroupHasSbCopy sb i)))
  { bgBlockBitmapLo := blockBitmap.1, bgBlockBitmapHi := blockBitmap.2
    bgInodeBitmapLo := inodeBitmap.1, bgInodeBitmapHi := inodeBitmap.2
    bgInodeTableLo := inodeTable.1, bgInodeTableHi := inodeTable.2
    bgFreeInodesCountLo := freeInodes.1, bgFreeInodesCountHi := freeInodes.2
    bgFreeBlocksCountLo := freeBlocks.1, bgFreeBlocksCountHi := freeBlocks.2 }

/-- The body of the loop of `init_ext4_group_descs`. -/
def initGroup (g : Globals) (i : ℕ) : Prog Unit := do
  let blkSize := blockSize g.sb
  let usedInodes := if i = 0 then ext4FirstNonRsvInode else 0
  let blockBitmap := blockStart g.metaInfo g.sb (blockBitmapBlock g.sb i)
  let inodeBitmap := blockStart g.metaInfo g.sb (u64 (blockBitmapBlock g.sb i + 1))
  let inodeTable := blockStart g.metaInfo g.sb (u64 (blockBitmapBlock g.sb i + 2))
  setGroupDesc i (initialGroupDesc g.sb i)
  memset blockBitmap 0 blkSize
  bitmapSetBits blockBitmap 0 (overheadOf g.sb (blockGroupHasSbCopy g.sb i))
  bitmapSetBits blockBitmap (blockGroupBlockCount g.sb i) (u32 (blkSize * 8))
  memset inodeBitmap 0 blkSize
  bitmapSetBits inodeBitmap 0 usedInodes
  bitmapSetBits inodeBitmap g.sb.sInodesPerGroup (u32 (blkSize * 8))
  memset inodeTable 0 (u32 (blkSize * inodeTableBlocks g.sb))

/-- The loop of `init_ext4_group_descs` from group `i` on. -/
def initGroups (g : Globals) : ℕ → ℕ → Prog Unit
  | 0, _ => pure ()
  | count + 1, i => do
    initGroup g i
    initGroups g count (i + 1)

/-- `init_ext4_group_descs`. -/
def initExt4GroupDescs (g : Globals) : Prog Unit := do
  let bgCount := blockGroupCount g.sb
  modify fun s => { s with ext4 := { s.ext4 with groupDescs := List.replicate bgCount {} } }
  initGroups g bgCount 0

/-- The group of an inode number and its index in the group. -/
def inodeGroup (sb : Ext4SuperBlock) (inodeNum : ℕ) : ℕ := sub32 inodeNum 1 / sb.sInodesPerGroup

/-- The place of an inode in the table of its group. -/
def inodeIndex (sb : Ext4SuperBlock) (inodeNum : ℕ) : ℕ := sub32 inodeNum 1 % sb.sInodesPerGroup

/-- The start of the inode table, and of the bitmaps, that a descriptor points to. -/
def Ext4GroupDesc.inodeTable (g : Globals) (bg : Ext4GroupDesc) : ℕ :=
  blockStart g.metaInfo g.sb (fromLoHi bg.bgInodeTableLo bg.bgInodeTableHi)

/-- Where the inode bitmap of a group starts in memory. -/
def Ext4GroupDesc.inodeBitmap (g : Globals) (bg : Ext4GroupDesc) : ℕ :=
  blockStart g.metaInfo g.sb (fromLoHi bg.bgInodeBitmapLo bg.bgInodeBitmapHi)

/-- Where the block bitmap of a group starts in memory. -/
def Ext4GroupDesc.blockBitmap (g : Globals) (bg : Ext4GroupDesc) : ℕ :=
  blockStart g.metaInfo g.sb (fromLoHi bg.bgBlockBitmapLo bg.bgBlockBitmapHi)

/-- The message for a volume with more files than inodes. -/
def notEnoughInodesMessage : String :=
  "Not enough inodes in your file system. All your data is trashed now, sorry!"

/-- `bg.bg_used_dirs_count`, increased for a directory. -/
def Ext4GroupDesc.countDir (bg : Ext4GroupDesc) (isDirectory : Bool) : Ext4GroupDesc :=
  if isDirectory then
    let usedDirs := incrLoHi32 bg.bgUsedDirsCountLo bg.bgUsedDirsCountHi 1
    { bg with bgUsedDirsCountLo := usedDirs.1, bgUsedDirsCountHi := usedDirs.2 }
  else bg

/-- `add_inode`; the inode is given by its bytes and whether its mode has `S_IFDIR`. -/
def addInode (g : Globals) (inode : List UInt8) (isDirectory : Bool) (inodeNum : ℕ) :
    Prog Unit := do
  let bgNum := inodeGroup g.sb inodeNum
  if blockGroupCount g.sb ≤ bgNum then
    throw (.exit notEnoughInodesMessage)
  else
    let numInBg := inodeIndex g.sb inodeNum
    let bg ← getGroupDesc bgNum
    bitmapSetBit (bg.inodeBitmap g) numInBg
    storeBytes (bg.inodeTable g + u32 (numInBg * g.sb.sInodeSize)) inode
    let freeInodes := decrLoHi32 bg.bgFreeInodesCountLo bg.bgFreeInodesCountHi 1
    setGroupDesc bgNum
      ({ bg with bgFreeInodesCountLo := freeInodes.1,
                 bgFreeInodesCountHi := freeInodes.2 }.countDir isDirectory)

/-- `add_reserved_inode`. -/
def addReservedInode (g : Globals) (inode : List UInt8) (isDirectory : Bool) (inodeNum : ℕ) :
    Prog Unit := do
  let bgNum := inodeGroup g.sb inodeNum
  let numInBg := inodeIndex g.sb inodeNum
  let bg ← getGroupDesc bgNum
  storeBytes (bg.inodeTable g + u32 (numInBg * g.sb.sInodeSize)) inode
  setGroupDesc bgNum (bg.countDir isDirectory)

/-- `add_extent_to_block_bitmap`. -/
def addExtentToBlockBitmap (g : Globals) (blocksBegin blocksEnd : ℕ) : Prog Unit := do
  let bgNum := u32 (sub64 blocksBegin g.sb.sFirstDataBlock / g.sb.sBlocksPerGroup)
  let bg ← getGroupDesc bgNum
  let bgBlockStart := blockGroupStart g.sb bgNum
  bitmapSetBits (bg.blockBitmap g) (u32 (sub64 blocksBegin bgBlockStart))
    (u32 (sub64 blocksEnd bgBlockStart))
  let freeBlocks := decrLoHi32 bg.bgFreeBlocksCountLo bg.bgFreeBlocksCountHi
    (u32 (sub64 blocksEnd blocksBegin))
  setGroupDesc bgNum
    { bg with bgFreeBlocksCountLo := freeBlocks.1, bgFreeBlocksCountHi := freeBlocks.2 }

/-- `get_existing_inode`; the address of the inode. -/
def getExistingInode (g : Globals) (inodeNum : ℕ) : Prog ℕ := do
  let bg ← getGroupDesc (inodeGroup g.sb inodeNum)
  pure (bg.inodeTable g + u32 (inodeIndex g.sb inodeNum * g.sb.sInodeSize))

end OfsConvert
