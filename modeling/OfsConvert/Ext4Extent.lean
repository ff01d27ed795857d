import OfsConvert.Ext4Inode

/-!
# Extent trees

`ext4_extent.cpp`: an inode has room for four extents; further ones go to a block of their own. A
node is a header with entries of 12 bytes behind it, and pointers to nodes are addresses.
-/

namespace OfsConvert

/-- `ext4_extent`. -/
structure Ext4Extent where
  eeBlock : ℕ
  eeLen : ℕ
  eeStartHi : ℕ
  eeStartLo : ℕ
  deriving DecidableEq, Repr

/-- The packed extent. -/
def Ext4Extent.bytes (e : Ext4Extent) : List UInt8 :=
  leBytes 4 e.eeBlock ++ leBytes 2 e.eeLen ++ leBytes 2 e.eeStartHi ++ leBytes 4 e.eeStartLo

/-- The extent at an address. -/
def ext4ExtentAt (m : Mem) (p : ℕ) : Ext4Extent where
  eeBlock := m.readLE p 4
  eeLen := m.readLE (p + 4) 2
  eeStartHi := m.readLE (p + 6) 2
  eeStartLo := m.readLE (p + 8) 4

/-- The fields of the header at an address. -/
def ehEntries (m : Mem) (header : ℕ) : ℕ := m.readLE (header + 2) 2

/-- The capacity in an extent header. -/
def ehMax (m : Mem) (header : ℕ) : ℕ := m.readLE (header + 4) 2

/-- The depth in an extent header. -/
def ehDepth (m : Mem) (header : ℕ) : ℕ := m.readLE (header + 6) 2

/-- The address of the entry with a number, or behind the header for number 0: `header + n + 1`,
where header and entries have one size. -/
def entryAddr (header n : ℕ) : ℕ := header + sizeofExtent * (n + 1)

/-- `to_ext4_extent`. -/
def toExt4Extent (g : Globals) (fext : FatExtent) : Ext4Extent :=
  let start := setLoHi48 (fatClToE4blk g.bootSector g.metaInfo fext.physicalStart)
  { eeBlock := fext.logicalStart, eeLen := fext.length, eeStartHi := start.2, eeStartLo := start.1 }

/-- The physical start of an extent. -/
def Ext4Extent.start (e : Ext4Extent) : ℕ := fromLoHi e.eeStartLo e.eeStartHi

/-- `max_entries`. -/
def maxEntries (g : Globals) : ℕ :=
  u16 (sub64 (blockSize g.sb) sizeofExtentHeader / sizeofExtent)

/-- The part of `register_extent` behind the extent tree. -/
def accountExtent (g : Globals) (eext : Ext4Extent) (inodeNo inode : ℕ) (inTree : Bool) :
    Prog Unit := do
  let blockCount := u32 (eext.eeLen * blockSize g.sb) / 512
  let m ← getMem
  let blocks := incrLoHi48 (m.readLE (inode + iBlocksLoOffset) 4)
    (m.readLE (inode + iBlocksHighOffset) 2) blockCount
  storeLE (inode + iBlocksLoOffset) 4 blocks.1
  storeLE (inode + iBlocksHighOffset) 2 blocks.2
  modify fun s => { s with ext4 := { s.ext4 with
    registered := s.ext4.registered ++
      [⟨inodeNo, eext.eeBlock, eext.start, eext.start + eext.eeLen, inTree⟩] } }
  addExtentToBlockBitmap g eext.start (u64 (eext.start + eext.eeLen))

/-- `register_extent` for a node of the extent tree. -/
def registerIdxExtent (g : Globals) (fext : FatExtent) (inodeNo : ℕ) : Prog Unit := do
  let inode ← getExistingInode g inodeNo
  accountExtent g (toExt4Extent g fext) inodeNo inode false

/-- The loop of `append_to_new_idx_path`; the result is the pointer behind the last header. -/
def newIdxPath (g : Globals) (depth : ℕ) (ext : Ext4Extent) (inodeNo : ℕ) :
    ℕ → ℕ → ℕ → Prog ℕ
  | 0, _, _ => throw .fuel
  | fuel + 1, i, idx =>
    if depth < i then do
      let idxExt ← allocateExtent fuel 1
      registerIdxExtent g idxExt inodeNo
      let blockNo := fatClToE4blk g.bootSector g.metaInfo idxExt.physicalStart
      storeBytes idx (leBytes 4 ext.eeBlock ++ leBytes 4 blockNo ++ leBytes 2 0 ++ leBytes 2 0)
      let header := blockStart g.metaInfo g.sb blockNo
      storeLE (header + 2) 2 1
      storeLE (header + 4) 2 (maxEntries g)
      storeLE (header + 6) 2 i
      newIdxPath g depth ext inodeNo fuel (i - 1) (header + sizeofExtentHeader)
    else pure idx

/-- `append_to_new_idx_path`; the counter of the loop starts at the depth that ends it. -/
def appendToNewIdxPath (g : Globals) (fuel depth : ℕ) (extToAppend : Ext4Extent)
    (idx inodeNo : ℕ) : Prog Unit := do
  let actualExtent ← newIdxPath g depth extToAppend inodeNo (fuel + 1) depth idx
  storeBytes actualExtent extToAppend.bytes

/-- `append_in_block`. -/
def appendInBlock (header : ℕ) (ext : Ext4Extent) : Prog Bool := do
  let m ← getMem
  if ehMax m header ≤ ehEntries m header then
    pure false
  else
    storeBytes (entryAddr header (ehEntries m header)) ext.bytes
    let m ← getMem
    storeLE (header + 2) 2 (u16 (ehEntries m header + 1))
    pure true

/-- `append_to_extent_tree`. -/
def appendToExtentTree (g : Globals) (ext : Ext4Extent) (inodeNo : ℕ) : ℕ → ℕ → Prog Bool
  | 0, _ => throw .fuel
  | fuel + 1, rootHeader => do
    let m ← getMem
    if ehDepth m rootHeader = 0 then
      appendInBlock rootHeader ext
    else
      let entryCount := ehEntries m rootHeader
      let lastChildEntry := rootHeader + sizeofExtent * entryCount
      let childBlock := u32 (fromLoHi (m.readLE (lastChildEntry + 4) 4)
        (m.readLE (lastChildEntry + 8) 2))
      let appended ←
        appendToExtentTree g ext inodeNo fuel (blockStart g.metaInfo g.sb childBlock)
      if appended then
        pure true
      else
        let m ← getMem
        if entryCount < ehMax m rootHeader then
          appendToNewIdxPath g fuel (u16 (sub32 (ehDepth m rootHeader) 1)) ext
            (rootHeader + sizeofExtent * entryCount) inodeNo
          pure true
        else pure false

/-- `make_tree_deeper`. -/
def makeTreeDeeper (g : Globals) (fuel rootHeader inodeNo : ℕ) : Prog Unit := do
  let idxExt ← allocateExtent fuel 1
  registerIdxExtent g idxExt inodeNo
  let blockNo := fatClToE4blk g.bootSector g.metaInfo idxExt.physicalStart
  let childBlock := blockStart g.metaInfo g.sb blockNo
  memcpy childBlock rootHeader (5 * sizeofExtentHeader)
  storeLE (childBlock + 4) 2 (maxEntries g)
  let m ← getMem
  storeLE (rootHeader + 6) 2 (u16 (ehDepth m rootHeader + 1))
  storeLE (rootHeader + 2) 2 1
  let idx := rootHeader + sizeofExtentHeader
  storeLE idx 4 0
  storeLE (idx + 4) 4 (setLoHi48 blockNo).1
  storeLE (idx + 8) 2 (setLoHi48 blockNo).2

/-- `add_extent`. -/
def addExtent (g : Globals) (fuel : ℕ) (eext : Ext4Extent) (inodeNo inode : ℕ) : Prog Unit := do
  let header := inode + extHeaderOffset
  let success ← appendToExtentTree g eext inodeNo fuel header
  if success then pure ()
  else
    makeTreeDeeper g fuel header inodeNo
    let _ ← appendToExtentTree g eext inodeNo fuel header
    pure ()

/-- `register_extent` for an extent of a file or directory. -/
def registerExtent (g : Globals) (fuel : ℕ) (fext : FatExtent) (inodeNo : ℕ) : Prog Unit := do
  let inode ← getExistingInode g inodeNo
  let eext := toExt4Extent g fext
  addExtent g fuel eext inodeNo inode
  accountExtent g eext inodeNo inode true

/-- The loop of `last_extent`; the result is the address of the leaf's header. -/
def lastLeaf (g : Globals) : ℕ → ℕ → Prog ℕ
  | 0, _ => throw .fuel
  | fuel + 1, header => do
    let m ← getMem
    if ehDepth m header ≠ 0 then
      let lastIdx := header + sizeofExtent * ehEntries m header
      lastLeaf g fuel (blockStart g.metaInfo g.sb
        (fromLoHi (m.readLE (lastIdx + 4) 4) (m.readLE (lastIdx + 8) 2)))
    else pure header

/-- `last_extent`. -/
def lastExtent (g : Globals) (fuel inodeNumber : ℕ) : Prog Ext4Extent := do
  let inode ← getExistingInode g inodeNumber
  let header ← lastLeaf g fuel (inode + extHeaderOffset)
  let m ← getMem
  pure (ext4ExtentAt m (header + sizeofExtent * ehEntries m header))

end OfsConvert
