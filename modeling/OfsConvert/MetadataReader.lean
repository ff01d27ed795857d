import OfsConvert.StreamArchiver

/-!
# The reading phase

`metadata_reader.cpp` and the part of `main` before `init_ext4_group_descs`. The walk over the
FAT directories records every file and directory in the stream; clusters inside blocked extents
are copied to free ones. Loops and recursions take fuel. The parameters and calls that only
feed the visualizer are left out.
-/

namespace OfsConvert

/-- The longest extent that ext4 takes as initialized. -/
def ext4MaxInitExtentLen : ℕ := 1 <<< 15

/-- `struct cluster_read_state`. -/
structure ClusterReadState where
  iterator : ExtentIterator
  clusterDentry : ℕ
  currentCluster : ℕ
  deriving DecidableEq, Repr, Inhabited

/-- `init_read_state`. -/
def initReadState (g : Globals) (fuel : ℕ) (iterator : ExtentIterator) :
    Prog ClusterReadState := do
  let (clusterNo, iterator) ← nextClusterNo g fuel iterator
  pure {
    iterator := iterator
    clusterDentry := 0
    currentCluster := if clusterNo ≠ 0 then clusterStart g.metaInfo clusterNo else 0 }

/-- `next_dentry`; the result is the entry's address, or 0 behind the last cluster. -/
def nextDentry (g : Globals) : ℕ → ClusterReadState → Prog (ℕ × ClusterReadState)
  | 0, _ => throw .fuel
  | fuel + 1, state => do
    let state ← (
      if g.metaInfo.dentriesPerCluster ≤ state.clusterDentry then
        initReadState g fuel state.iterator
      else pure state)
    if state.currentCluster = 0 then
      pure (0, state)
    else
      let ret := state.currentCluster + sizeofFatDentry * state.clusterDentry
      let state := { state with clusterDentry := state.clusterDentry + 1 }
      let m ← getMem
      if isInvalid (dentryAt m ret) || isDotDir (dentryAt m ret) then
        nextDentry g fuel state
      else
        pure (ret, state)

/-- The loop of `reserve_name`: `count` elements of 13 units. -/
def reserveNames (g : Globals) (fuel : ℕ) : ℕ → StreamArchiver → Prog (List ℕ × StreamArchiver)
  | 0, writeStream => pure ([], writeStream)
  | count + 1, writeStream => do
    let (p, writeStream) ← iterateStreamArchiver g fuel true (lfnEntryLength * 2) 1 writeStream
    let (ps, writeStream) ← reserveNames g fuel count writeStream
    pure (p :: ps, writeStream)

/-- `reserve_name`. -/
def reserveName (g : Globals) (fuel count : ℕ) (writeStream : StreamArchiver) :
    Prog (List ℕ × StreamArchiver) := do
  let (pointers, writeStream) ← reserveNames g fuel count writeStream
  let writeStream ← cutStreamArchiver g fuel writeStream
  pure (pointers, writeStream)

/-- A segment with one element, as `reserve_dentry` and `reserve_children_count` make it. -/
def reserveSingle (g : Globals) (fuel size : ℕ) (writeStream : StreamArchiver) :
    Prog (ℕ × StreamArchiver) := do
  let (ptr, writeStream) ← iterateStreamArchiver g fuel true size 1 writeStream
  let writeStream ← cutStreamArchiver g fuel writeStream
  pure (ptr, writeStream)

/-- `reserve_dentry`. -/
def reserveDentry (g : Globals) (fuel : ℕ) (writeStream : StreamArchiver) :
    Prog (ℕ × StreamArchiver) :=
  reserveSingle g fuel sizeofFatDentry writeStream

/-- `reserve_extent`. -/
def reserveExtent (g : Globals) (fuel : ℕ) (writeStream : StreamArchiver) :
    Prog (ℕ × StreamArchiver) :=
  iterateStreamArchiver g fuel true sizeofFatExtent 1 writeStream

/-- `reserve_children_count`. -/
def reserveChildrenCount (g : Globals) (fuel : ℕ) (writeStream : StreamArchiver) :
    Prog (ℕ × StreamArchiver) :=
  reserveSingle g fuel 4 writeStream

/-- `*reserve_extent(write_stream) = fragment`. -/
def appendExtent (g : Globals) (fuel : ℕ) (fragment : FatExtent) (writeStream : StreamArchiver) :
    Prog StreamArchiver := do
  let (p, writeStream) ← reserveExtent g fuel writeStream
  storeBytes p (fatExtentBytes fragment)
  pure writeStream

/-- The loop of `resettle_extent`; the byte count of the copy is a 32-bit product. -/
def resettleFrom (g : Globals) (inputExtent : FatExtent) :
    ℕ → ℕ → StreamArchiver → Prog StreamArchiver
  | 0, _, _ => throw .fuel
  | fuel + 1, i, writeStream => do
    if i < inputExtent.length then
      let allocated ← allocateExtent fuel (inputExtent.length - i)
      let fragment := { allocated with logicalStart := u32 (inputExtent.logicalStart + i) }
      let writeStream ← appendExtent g fuel fragment writeStream
      memcpy (clusterStart g.metaInfo fragment.physicalStart)
        (clusterStart g.metaInfo (u32 (inputExtent.physicalStart + i)))
        (u32 (fragment.length * g.metaInfo.clusterSize))
      resettleFrom g inputExtent fuel (u16 (i + fragment.length)) writeStream
    else
      pure writeStream

/-- `resettle_extent`. -/
def resettleExtent (g : Globals) (fuel : ℕ) (writeStream : StreamArchiver)
    (inputExtent : FatExtent) : Prog StreamArchiver :=
  resettleFrom g inputExtent fuel 0 writeStream

/-- The loop of `find_blocked_extent_fragments`. -/
def fragmentsFrom (g : Globals) (inputExtent : FatExtent) (inputPhysicalEnd : ℕ) :
    ℕ → ℕ → ℕ → Option FatExtent → StreamArchiver → Prog StreamArchiver
  | 0, _, _, _, _ => throw .fuel
  | fuel + 1, fragmentPhysicalStart, i, blockedExtent, writeStream => do
    if fragmentPhysicalStart < inputPhysicalEnd then
      let s ← get
      let fragment := fun fragmentPhysicalEnd : ℕ => {
        physicalStart := fragmentPhysicalStart
        length := u16 (sub32 fragmentPhysicalEnd fragmentPhysicalStart)
        logicalStart := u32 (inputExtent.logicalStart +
          sub32 fragmentPhysicalStart inputExtent.physicalStart) : FatExtent }
      match blockedExtent with
      | some blocked =>
        if blocked.physicalStart ≤ fragmentPhysicalStart then
          let blockedPhysicalEnd := u32 (blocked.physicalStart + blocked.length)
          let fragmentPhysicalEnd :=
            if blockedPhysicalEnd < inputPhysicalEnd then blockedPhysicalEnd else inputPhysicalEnd
          let next := findNextBlockedExtent s.allocator i inputPhysicalEnd
          let writeStream ← resettleExtent g fuel writeStream (fragment fragmentPhysicalEnd)
          fragmentsFrom g inputExtent inputPhysicalEnd fuel fragmentPhysicalEnd next.2 next.1
            writeStream
        else
          let writeStream ← appendExtent g fuel (fragment blocked.physicalStart) writeStream
          fragmentsFrom g inputExtent inputPhysicalEnd fuel blocked.physicalStart i blockedExtent
            writeStream
      | none =>
        let writeStream ← appendExtent g fuel (fragment inputPhysicalEnd) writeStream
        fragmentsFrom g inputExtent inputPhysicalEnd fuel inputPhysicalEnd i none writeStream
    else
      pure writeStream

/-- `find_blocked_extent_fragments`. -/
def findBlockedExtentFragments (g : Globals) (fuel : ℕ) (writeStream : StreamArchiver)
    (inputExtent : FatExtent) : Prog StreamArchiver := do
  let inputPhysicalEnd := u32 (inputExtent.physicalStart + inputExtent.length)
  let s ← get
  let i := findFirstBlockedExtent s.allocator inputExtent.physicalStart
  let next := findNextBlockedExtent s.allocator i inputPhysicalEnd
  fragmentsFrom g inputExtent inputPhysicalEnd fuel inputExtent.physicalStart next.2 next.1
    writeStream

/-- The loop of `aggregate_extents` for a nonempty file. -/
def aggregateFrom (g : Globals) :
    ℕ → FatExtent → ℕ → StreamArchiver → Prog StreamArchiver
  | 0, _, _, _ => throw .fuel
  | fuel + 1, currentExtent, nextClusterNo, writeStream => do
    let isEnd := fatEndOfChain ≤ nextClusterNo
    let isConsecutive := nextClusterNo = u32 (currentExtent.physicalStart + currentExtent.length)
    let hasMaxLength := currentExtent.length = ext4MaxInitExtentLen
    if isEnd ∨ ¬ isConsecutive ∨ hasMaxLength then
      let writeStream ← findBlockedExtentFragments g fuel writeStream currentExtent
      if isEnd then
        pure writeStream
      else
        let m ← getMem
        aggregateFrom g fuel
          ⟨u32 (currentExtent.logicalStart + currentExtent.length), 1, nextClusterNo⟩
          (fatEntry g.metaInfo m nextClusterNo) writeStream
    else
      let m ← getMem
      aggregateFrom g fuel { currentExtent with length := u16 (currentExtent.length + 1) }
        (fatEntry g.metaInfo m nextClusterNo) writeStream

/-- `aggregate_extents`; cluster number 0 stands for an empty file. -/
def aggregateExtents (g : Globals) (fuel clusterNo : ℕ) (writeStream : StreamArchiver) :
    Prog StreamArchiver := do
  let m ← getMem
  let writeStream ← (
    if clusterNo ≠ 0 then
      aggregateFrom g fuel ⟨0, 1, clusterNo⟩ (fatEntry g.metaInfo m clusterNo) writeStream
    else pure writeStream)
  cutStreamArchiver g fuel writeStream

/-- `lfn_cpy`: the characters of a long-name entry stand in three fields. -/
def lfnCpy (dest src : ℕ) : Prog Unit := do
  notNull src
  memcpy dest (src + 1) 10
  memcpy (dest + 10) (src + 14) 12
  memcpy (dest + 22) (src + 28) 4

/-- `read_lfn`; the loop counts down, so `name` holds the pointers from the last to the first. -/
def readLfn (g : Globals) (fuel : ℕ) :
    List ℕ → ℕ → ClusterReadState → Prog (ℕ × ClusterReadState)
  | [], entry, state => pure (entry, state)
  | p :: name, entry, state => do
    lfnCpy p entry
    let (entry, state) ← nextDentry g fuel state
    readLfn g fuel name entry state

/-- `read_short_name`. -/
def readShortName (dentry name : ℕ) : Prog Unit := do
  let m ← getMem
  storeBytes name ((shortNameUnits (dentryAt m dentry)).flatMap (leBytes 2))

/-- The name of a directory entry: the long one with its entries, or the short one. The result
is the address of the short entry. -/
def readName (g : Globals) (fuel currentDentry : ℕ) (state : ClusterReadState)
    (writeStream : StreamArchiver) : Prog (ℕ × ClusterReadState × StreamArchiver) := do
  let m ← getMem
  if isLfn (dentryAt m currentDentry) then
    let lfnEntryCount := lfnEntrySequenceNo (dentryAt m currentDentry)
    let (name, writeStream) ← reserveName g fuel lfnEntryCount writeStream
    let (currentDentry, state) ← readLfn g fuel name.reverse currentDentry state
    pure (currentDentry, state, writeStream)
  else
    let (name, writeStream) ← reserveName g fuel 1 writeStream
    readShortName currentDentry (name.headD 0)
    pure (currentDentry, state, writeStream)

/-- What the loop of `traverse` does with one child; `descend` is the recursive call. -/
def traverseChild (g : Globals)
    (descend : StreamArchiver → StreamArchiver → Prog StreamArchiver) (fuel currentDentry : ℕ)
    (state : ClusterReadState) (writeStream : StreamArchiver) :
    Prog (ClusterReadState × StreamArchiver) := do
  let (dentry, writeStream) ← reserveDentry g fuel writeStream
  let (currentDentry, state, writeStream) ← readName g fuel currentDentry state writeStream
  notNull currentDentry
  memcpy dentry currentDentry sizeofFatDentry
  let m ← getMem
  let clusterNo := fileClusterNo (dentryAt m currentDentry)
  let readExtentStream := writeStream
  let isDirFlag := isDir (dentryAt m currentDentry)
  let writeStream ← aggregateExtents g fuel clusterNo writeStream
  let writeStream ← (
    if isDirFlag then descend readExtentStream writeStream
    else do
      let (p, writeStream) ← reserveChildrenCount g fuel writeStream
      storeLE p 4 0xFFFFFFFF
      pure writeStream)
  pure (state, writeStream)

/-- The loop of `traverse`. -/
def traverseLoop (g : Globals)
    (descend : StreamArchiver → StreamArchiver → Prog StreamArchiver) (childrenCount : ℕ) :
    ℕ → ℕ → ClusterReadState → StreamArchiver → Prog StreamArchiver
  | 0, _, _, _ => throw .fuel
  | fuel + 1, currentDentry, state, writeStream => do
    let m ← getMem
    if currentDentry = 0 ∨ isDirTableEnd (dentryAt m currentDentry) = true then
      pure writeStream
    else
      let (state, writeStream) ← traverseChild g descend fuel currentDentry state writeStream
      let m ← getMem
      storeLE childrenCount 4 (u32 (m.readLE childrenCount 4 + 1))
      let (currentDentry, state) ← nextDentry g fuel state
      traverseLoop g descend childrenCount fuel currentDentry state writeStream

/-- `traverse`. -/
def traverse (g : Globals) : ℕ → StreamArchiver → StreamArchiver → Prog StreamArchiver
  | 0, _, _ => throw .fuel
  | fuel + 1, dirExtentStream, writeStream => do
    let (childrenCount, writeStream) ← reserveChildrenCount g fuel writeStream
    storeLE childrenCount 4 0
    let iterator ← ExtentIterator.init g dirExtentStream
    let state ← initReadState g fuel iterator
    let (currentDentry, state) ← nextDentry g fuel state
    traverseLoop g (traverse g fuel) childrenCount fuel currentDentry state writeStream

/-- What `main` does between `init_ext4_sb` and `init_ext4_group_descs`; the result is
`read_stream` and `write_stream`. -/
def readingPhase (g : Globals) (fuel : ℕ) : Prog (StreamArchiver × StreamArchiver) := do
  let bgCount := blockGroupCount g.sb
  let metaExtents ← liftExcept (createBlockGroupMetaExtents g.bootSector g.metaInfo g.sb bgCount)
  initExtentAllocator g metaExtents bgCount
  let writeStream ← initStreamArchiver g fuel
  let extentStream := writeStream
  let readStream := writeStream
  let writeStream ← aggregateExtents g fuel g.bootSector.rootClusterNo.toNat writeStream
  let writeStream ← traverse g fuel extentStream writeStream
  pure (readStream, writeStream)

end OfsConvert
