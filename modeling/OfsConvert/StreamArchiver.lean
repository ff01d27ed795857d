import OfsConvert.ExtentAllocator

/-!
# The stream archiver and the extent iterator

`stream-archiver.cpp` and `extent_iterator.cpp`: a stream of segments on linked pages. Every
page is one free cluster and starts with the pointer to the next page; a segment is a header
with its element count, then its elements, none of which crosses a page end. Functions that
take a stream by pointer return the changed stream.
-/

namespace OfsConvert

/-- `sizeof(Page)`. -/
def sizeofPage : ℕ := 8

/-- `sizeof(StreamArchiver::Header)`. -/
def sizeofHeader : ℕ := 8

/-- `struct StreamArchiver`. -/
structure StreamArchiver where
  page : ℕ := 0
  offsetInPage : ℕ := 0
  elementIndex : ℕ := 0
  header : ℕ := 0
  deriving DecidableEq, Repr, Inhabited

/-- The global `pageSize`, which `init_stream_archiver` sets to the cluster size. -/
def pageSize (g : Globals) : ℕ := g.metaInfo.clusterSize

/-- `allocatePage`. -/
def allocatePage (g : Globals) (fuel : ℕ) : Prog ℕ := do
  let extent ← allocateExtent fuel 1
  pure (clusterStart g.metaInfo extent.physicalStart)

/-- The part of `iterateStreamArchiver` behind the test for the end of the segment. -/
def advanceInPage (g : Globals) (fuel : ℕ) (insert : Bool) (elementLength : ℕ)
    (stream : StreamArchiver) : Prog (ℕ × StreamArchiver) := do
  if pageSize g < stream.offsetInPage + elementLength then
    if insert then
      let page ← allocatePage g fuel
      notNull stream.page
      storeLE stream.page 8 page
      storeLE page 8 0
      pure (page + sizeofPage,
        { stream with page := page, offsetInPage := sizeofPage + elementLength })
    else
      notNull stream.page
      let m ← getMem
      let page := m.readLE stream.page 8
      pure (page + sizeofPage,
        { stream with page := page, offsetInPage := sizeofPage + elementLength })
  else
    pure (stream.page + stream.offsetInPage,
      { stream with offsetInPage := stream.offsetInPage + elementLength })

/-- The test of `iterateStreamArchiver` for the end of the segment. -/
def segmentEnds (insert : Bool) (elementCount : ℕ) (stream : StreamArchiver) : Prog Bool := do
  if insert = false ∧ 0 < elementCount then
    notNull stream.header
    let m ← getMem
    pure (decide (m.readLE stream.header 8 < stream.elementIndex))
  else
    pure false

/-- `iterateStreamArchiver`. The recursive call has an element count of 0, so it goes straight
to the second part. -/
def iterateStreamArchiver (g : Globals) (fuel : ℕ) (insert : Bool) (elementLength : ℕ)
    (elementCount : ℕ) (stream : StreamArchiver) : Prog (ℕ × StreamArchiver) := do
  let stream := { stream with elementIndex := u64 (stream.elementIndex + elementCount) }
  let ends ← segmentEnds insert elementCount stream
  if ends then
    let (header, stream) ← advanceInPage g fuel insert sizeofHeader { stream with elementIndex := 0 }
    pure (0, { stream with header := header })
  else
    advanceInPage g fuel insert elementLength stream

/-- `cutStreamArchiver`. -/
def cutStreamArchiver (g : Globals) (fuel : ℕ) (stream : StreamArchiver) :
    Prog StreamArchiver := do
  if stream.header ≠ 0 ∧ stream.page ≠ 0 then
    storeLE stream.header 8 stream.elementIndex
    let (header, stream) ←
      iterateStreamArchiver g fuel true sizeofHeader 0 { stream with elementIndex := 0 }
    pure { stream with header := header }
  else
    let page ← allocatePage g fuel
    storeLE page 8 0
    let (header, stream) ← iterateStreamArchiver g fuel true sizeofHeader 0
      { stream with page := page, offsetInPage := sizeofPage, elementIndex := 0 }
    pure { stream with header := header }

/-- `getNext<T>` for a type of `size` bytes. -/
def getNext (g : Globals) (size : ℕ) (stream : StreamArchiver) : Prog (ℕ × StreamArchiver) :=
  iterateStreamArchiver g 0 false size 1 stream

/-- `init_stream_archiver`, from an uninitialised stream. -/
def initStreamArchiver (g : Globals) (fuel : ℕ) : Prog StreamArchiver :=
  cutStreamArchiver g fuel {}

/-- The bytes of a `struct fat_extent`; the padding behind the length is 0. -/
def fatExtentBytes (e : FatExtent) : List UInt8 :=
  leBytes 4 e.logicalStart ++ leBytes 2 e.length ++ [0, 0] ++ leBytes 4 e.physicalStart

/-- The `struct fat_extent` at an address. -/
def fatExtentAt (m : Mem) (p : ℕ) : FatExtent where
  logicalStart := m.readLE p 4
  length := m.readLE (p + 4) 2
  physicalStart := m.readLE (p + 8) 4

/-- `struct extent_iterator`; the stream it points to has no other user while it is read. -/
structure ExtentIterator where
  currentExtent : ℕ
  currentCluster : ℕ
  extentStream : StreamArchiver
  deriving DecidableEq, Repr, Inhabited

/-- `init(StreamArchiver*)`. -/
def ExtentIterator.init (g : Globals) (extentStream : StreamArchiver) : Prog ExtentIterator := do
  let (extent, extentStream) ← getNext g sizeofFatExtent extentStream
  pure { currentExtent := extent, currentCluster := 0, extentStream := extentStream }

/-- `next_cluster_no`. -/
def nextClusterNo (g : Globals) : ℕ → ExtentIterator → Prog (ℕ × ExtentIterator)
  | 0, _ => throw .fuel
  | fuel + 1, iterator => do
    if iterator.currentExtent = 0 then
      pure (0, iterator)
    else
      let m ← getMem
      let extent := fatExtentAt m iterator.currentExtent
      if extent.length ≤ iterator.currentCluster then
        let iterator ← ExtentIterator.init g iterator.extentStream
        nextClusterNo g fuel iterator
      else
        pure (u32 (extent.physicalStart + iterator.currentCluster),
          { iterator with currentCluster := iterator.currentCluster + 1 })

end OfsConvert
