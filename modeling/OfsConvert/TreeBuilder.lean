import OfsConvert.Ext4Extent

/-!
# Building the directory tree

`tree_builder.cpp` with `set_extents`, which reads the extents of a file from the stream. A
directory's entries go to the clusters that its FAT table had, as long as there are any, then to
free ones; the last entry of a block is stretched to its end.
-/

namespace OfsConvert

/-- The loop of `set_extents`, with the call in front of it and the one at its end. -/
def registerExtents (g : Globals) (dirInodeNo inodeNumber : ℕ) :
    ℕ → StreamArchiver → Prog StreamArchiver
  | 0, _ => throw .fuel
  | fuel + 1, readStream => do
    let (currentExtent, readStream) ← readNext g dirInodeNo sizeofFatExtent readStream
    if currentExtent ≠ 0 then
      let m ← getMem
      registerExtent g fuel (fatExtentAt m currentExtent) inodeNumber
      registerExtents g dirInodeNo inodeNumber fuel readStream
    else pure readStream

/-- `set_extents`. -/
def setExtents (g : Globals) (dirInodeNo fuel inodeNumber dentry : ℕ)
    (readStream : StreamArchiver) : Prog StreamArchiver := do
  let m ← getMem
  setSize g inodeNumber (dentryAt m dentry).fileSize
  registerExtents g dirInodeNo inodeNumber fuel readStream

/-- `skip_child_count` and `skip_dir_extents`: read a segment of elements of `size` bytes to its
end. -/
def skipSegment (g : Globals) (dirInodeNo size : ℕ) :
    ℕ → StreamArchiver → Prog StreamArchiver
  | 0, _ => throw .fuel
  | fuel + 1, readStream => do
    let (p, readStream) ← readNext g dirInodeNo size readStream
    if p ≠ 0 then skipSegment g dirInodeNo size fuel readStream else pure readStream

/-- `skip_child_count`. -/
def skipChildCount (g : Globals) (dirInodeNo : ℕ) : ℕ → StreamArchiver → Prog StreamArchiver :=
  skipSegment g dirInodeNo 4

/-- `skip_dir_extents`. -/
def skipDirExtents (g : Globals) (dirInodeNo : ℕ) : ℕ → StreamArchiver → Prog StreamArchiver :=
  skipSegment g dirInodeNo sizeofFatExtent

/-- `build_dot_dirs`; the result is the address of the second entry. -/
def buildDotDirs (env : Env) (dirInodeNo parentInodeNo dotDentryP : ℕ) : Prog ℕ := do
  let dotDentry := buildDotDirDentry (env.fresh dirInodeNo 0) dirInodeNo
  storeBytes dotDentryP (dotDentry.bytes dotDentry.recLen)
  let dotDotDentryP := dotDentryP + dotDentry.recLen
  let dotDotDentry := buildDotDotDirDentry (env.fresh dirInodeNo 1) parentInodeNo
  storeBytes dotDotDentryP (dotDotDentry.bytes dotDotDentry.recLen)
  pure dotDotDentryP

/-- The offset of `rec_len` in an entry. -/
def recLenOffset : ℕ := 4

/-- `build_lost_found`. -/
def buildLostFound (g : Globals) (env : Env) (fuel : ℕ) : Prog Unit := do
  let rootDentryExtent ← allocateExtent fuel 1
  let lastRootExtent ← lastExtent g fuel ext4RootInode
  let rootDentryExtent := { rootDentryExtent with
    logicalStart := u32 (lastRootExtent.eeBlock + lastRootExtent.eeLen) }
  registerExtent g fuel rootDentryExtent ext4RootInode
  buildLostFoundInode g env
  let dentryAddress := clusterStart g.metaInfo rootDentryExtent.physicalStart
  let lostFoundDentry :=
    { buildLostFoundDentry (env.fresh ext4LostFoundInode 2) with recLen := u16 (blockSize g.sb) }
  storeBytes dentryAddress (lostFoundDentry.bytes sizeofExt4Dentry)
  let size ← getSize g ext4RootInode
  setSize g ext4RootInode (u64 (size + blockSize g.sb))
  let lostFoundDentryExtent ← allocateExtent fuel 1
  let lostFoundDentryExtent := { lostFoundDentryExtent with logicalStart := 0 }
  let lostFoundDentryP := clusterStart g.metaInfo lostFoundDentryExtent.physicalStart
  let dotDotDentry ← buildDotDirs env ext4LostFoundInode ext4RootInode lostFoundDentryP
  storeLE (dotDotDentry + recLenOffset) 2 (u16 (sub32 (blockSize g.sb) ext4DotDentrySize))
  registerExtent g fuel lostFoundDentryExtent ext4LostFoundInode
  setSize g ext4LostFoundInode (blockSize g.sb)

/-- `next_dir_block`. -/
def nextDirBlock (g : Globals) (fuel : ℕ) (iterator : ExtentIterator) :
    Prog (ℕ × ExtentIterator) := do
  let (clusterNo, iterator) ← nextClusterNo g fuel iterator
  let clusterNo ← (
    if clusterNo = 0 then do
      let extent ← allocateExtent fuel 1
      pure extent.physicalStart
    else pure clusterNo)
  pure (fatClToE4blk g.bootSector g.metaInfo clusterNo, iterator)

/-- `register_dir_extent`. -/
def registerDirExtent (g : Globals) (fuel blockNo logicalNo inodeNo : ℕ) : Prog Unit :=
  registerExtent g fuel ⟨logicalNo, 1, e4blkToFatCl g.bootSector g.metaInfo blockNo⟩ inodeNo

/-- The variables of the loop in `build_ext4_metadata_tree`. -/
structure DirState where
  readStream : StreamArchiver
  iterator : ExtentIterator
  dentryBlockNo : ℕ
  blockCount : ℕ
  previousDentry : ℕ
  positionInBlock : ℕ

/-- `previous_dentry->rec_len += block_size() - position_in_block`. -/
def stretchDentry (g : Globals) (previousDentry positionInBlock : ℕ) : Prog Unit := do
  let m ← getMem
  storeLE (previousDentry + recLenOffset) 2
    (u16 (m.readLE (previousDentry + recLenOffset) 2 +
      sub32 (blockSize g.sb) positionInBlock))

/-- The step to the next block of a directory, behind a full one. -/
def nextBlockIfFull (g : Globals) (dirInodeNo fuel recLen : ℕ) (d : DirState) :
    Prog DirState := do
  if sub32 (blockSize g.sb) d.positionInBlock < recLen then
    stretchDentry g d.previousDentry d.positionInBlock
    registerDirExtent g fuel d.dentryBlockNo (sub32 d.blockCount 1) dirInodeNo
    let (dentryBlockNo, iterator) ← nextDirBlock g fuel d.iterator
    pure { d with
      iterator := iterator
      dentryBlockNo := dentryBlockNo
      blockCount := u32 (d.blockCount + 1)
      positionInBlock := 0 }
  else pure d

/-- The body of the loop in `build_ext4_metadata_tree` for child `i`; `descend` is the recursive
call. -/
def buildChild (g : Globals) (env : Env)
    (descend : ℕ → ℕ → StreamArchiver → Prog StreamArchiver) (dirInodeNo fuel i : ℕ)
    (d : DirState) : Prog DirState := do
  let (fDentry, readStream) ← readNext g dirInodeNo sizeofFatDentry d.readStream
  let (_, readStream) ← readNext g dirInodeNo sizeofFatDentry readStream
  let inodeNumber ← buildInode g env fDentry
  let (eDentry, readStream) ←
    buildDentry g dirInodeNo fuel (env.fresh dirInodeNo (i + 2)) inodeNumber readStream
  let d ← nextBlockIfFull g dirInodeNo fuel eDentry.recLen { d with readStream := readStream }
  let previousDentry := blockStart g.metaInfo g.sb d.dentryBlockNo + d.positionInBlock
  storeBytes previousDentry (eDentry.bytes eDentry.recLen)
  let m ← getMem
  let readStream ← (
    if isDir (dentryAt m fDentry) then do
      incrLinksCount g dirInodeNo
      descend inodeNumber dirInodeNo d.readStream
    else do
      let readStream ← setExtents g dirInodeNo fuel inodeNumber fDentry d.readStream
      skipChildCount g dirInodeNo fuel readStream)
  pure { d with
    readStream := readStream
    previousDentry := previousDentry
    positionInBlock := d.positionInBlock + eDentry.recLen }

/-- The loop of `build_ext4_metadata_tree` from child `i` on. -/
def buildChildren (g : Globals) (env : Env)
    (descend : ℕ → ℕ → StreamArchiver → Prog StreamArchiver) (dirInodeNo fuel : ℕ) :
    ℕ → ℕ → DirState → Prog DirState
  | 0, _, d => pure d
  | count + 1, i, d => do
    let d ← buildChild g env descend dirInodeNo fuel i d
    buildChildren g env descend dirInodeNo fuel count (i + 1) d

/-- `build_ext4_metadata_tree`. -/
def buildExt4MetadataTree (g : Globals) (env : Env) :
    ℕ → ℕ → ℕ → StreamArchiver → Prog StreamArchiver
  | 0, _, _, _ => throw .fuel
  | fuel + 1, dirInodeNo, parentInodeNo, readStream => do
    let iterator ← ExtentIterator.init g readStream
    let (dentryBlockNo, iterator) ← nextDirBlock g fuel iterator
    let dentryBlockStart := blockStart g.metaInfo g.sb dentryBlockNo
    let readStream ← skipDirExtents g dirInodeNo fuel readStream
    let (count, readStream) ← readNext g dirInodeNo 4 readStream
    notNull count
    let m ← getMem
    let childCount := m.readLE count 4
    let (_, readStream) ← readNext g dirInodeNo 4 readStream
    let previousDentry ← buildDotDirs env dirInodeNo parentInodeNo dentryBlockStart
    let d ← buildChildren g env (buildExt4MetadataTree g env fuel) dirInodeNo fuel childCount 0
      { readStream := readStream, iterator := iterator, dentryBlockNo := dentryBlockNo,
        blockCount := 1, previousDentry := previousDentry,
        positionInBlock := 2 * ext4DotDentrySize }
    if d.previousDentry ≠ 0 then stretchDentry g d.previousDentry d.positionInBlock
    registerDirExtent g fuel d.dentryBlockNo (sub32 d.blockCount 1) dirInodeNo
    setSize g dirInodeNo (u32 (d.blockCount * blockSize g.sb))
    pure d.readStream

end OfsConvert
