import OfsConvert.State
import Mathlib.Data.List.Sort
import Mathlib.Data.Nat.Bitwise

/-!
# The extent allocator

`extent-allocator.cpp`: a cursor that moves over the FAT, jumps over blocked extents and hands
out runs of free clusters. The loops that the program does not bound itself take fuel.
-/

namespace OfsConvert

/-- `extent_sort_compare(a, b) <= 0`: the 32-bit difference, read as a signed number. -/
def extentSortLe (a b : FatExtent) : Bool :=
  let diff := sub32 a.physicalStart b.physicalStart
  diff == 0 || decide (2 ^ 31 ≤ diff)

/-- `set_used` on the bitmap. -/
def setUsed (bitmap clusterNo : ℕ) : ℕ := bitmap ||| 1 <<< clusterNo

/-- `is_free` on the bitmap. -/
def isFree (bitmap clusterNo : ℕ) : Bool := !bitmap.testBit clusterNo

/-- `create_allocation_bitmap`. -/
def createAllocationBitmap (g : Globals) (m : Mem) : ℕ :=
  let reserved := (List.range fatStartIndex).foldl setUsed 0
  let clusters := List.range' fatStartIndex
    (dataClusterCount g.bootSector g.metaInfo - fatStartIndex)
  clusters.foldl (fun bitmap clusterNo =>
    if isFreeCluster (fatEntry g.metaInfo m clusterNo) then bitmap
    else setUsed bitmap clusterNo) reserved

/-- `init_extent_allocator`. The sort moves the first `blocked_extent_count` entries only. -/
def initExtentAllocator (g : Globals) (blockedExtents : List FatExtent)
    (blockedExtentCount : ℕ) : Prog Unit := do
  let m ← getMem
  modify fun s => { s with
    allocationBitmap := createAllocationBitmap g m
    allocator := {
      indexInFat := 0
      blockedExtents :=
        (blockedExtents.take blockedExtentCount).mergeSort extentSortLe ++
          blockedExtents.drop blockedExtentCount
      blockedExtentCount := blockedExtentCount
      blockedExtentCurrent := 0 } }

/-- `fs_is_full`. -/
def fsIsFull (a : ExtentAllocator) : Bool := a.blockedExtentCount < a.blockedExtentCurrent

/-- The message for a full volume. -/
def fsIsFullMessage : String :=
  "File system is too small. All your data is trashed now, sorry!"

/-- `can_be_used`. -/
def canBeUsed : Prog Bool := do
  let s ← get
  let a := s.allocator
  match a.blockedExtents[a.blockedExtentCurrent]? with
  | none => throw .fault
  | some blocked =>
    let index := u32 (a.indexInFat + 1)
    if index < blocked.physicalStart then
      set { s with allocator := { a with indexInFat := index } }
      pure (isFree s.allocationBitmap index)
    else
      let a := { a with
        indexInFat := u32 (blocked.physicalStart + blocked.length)
        blockedExtentCurrent := a.blockedExtentCurrent + 1 }
      set { s with allocator := a }
      if fsIsFull a then
        throw (.exit fsIsFullMessage)
      else
        pure false

/-- `set_used(allocator.index_in_fat)`, returning the index. -/
def takeCurrent : Prog ℕ := do
  let s ← get
  let index := s.allocator.indexInFat
  set { s with allocationBitmap := setUsed s.allocationBitmap index }
  pure index

/-- `while(!can_be_used());` -/
def findUsable : ℕ → Prog Unit
  | 0 => throw .fuel
  | fuel + 1 => do
    if ← canBeUsed then pure () else findUsable fuel

/-- The second loop of `allocate_extent`. -/
def growExtent (maxLength : ℕ) : ℕ → FatExtent → Prog FatExtent
  | 0, _ => throw .fuel
  | fuel + 1, result => do
    if result.length < maxLength then
      if ← canBeUsed then
        let index ← takeCurrent
        growExtent maxLength fuel
          { result with length := u16 (sub32 index result.physicalStart + 1) }
      else pure result
    else pure result

/-- `allocate_extent`. -/
def allocateExtent (fuel maxLength : ℕ) : Prog FatExtent := do
  findUsable fuel
  let index ← takeCurrent
  growExtent maxLength fuel ⟨0, 1, index⟩

/-- The binary search of `find_first_blocked_extent`; the interval shrinks in every round, so
its length bounds the number of rounds. -/
def searchBlocked (blocked : List FatExtent) (physicalAddress : ℕ) : ℕ → ℕ → ℕ → ℕ
  | 0, low, _ => low
  | fuel + 1, low, high =>
    if low < high then
      let mid := (low + high) / 2
      let extent := blocked.getD mid default
      if u32 (extent.physicalStart + extent.length) < physicalAddress then
        searchBlocked blocked physicalAddress fuel (mid + 1) high
      else
        searchBlocked blocked physicalAddress fuel low mid
    else low

/-- `find_first_blocked_extent`. -/
def findFirstBlockedExtent (a : ExtentAllocator) (physicalAddress : ℕ) : ℕ :=
  searchBlocked a.blockedExtents physicalAddress a.blockedExtentCount 0 a.blockedExtentCount

/-- `find_next_blocked_extent`; the pair is the result and the advanced index. -/
def findNextBlockedExtent (a : ExtentAllocator) (i physicalEnd : ℕ) : Option FatExtent × ℕ :=
  if a.blockedExtentCount ≤ i then (none, i)
  else
    let extent := a.blockedExtents.getD i default
    if physicalEnd < extent.physicalStart then (none, i + 1) else (some extent, i + 1)

end OfsConvert
