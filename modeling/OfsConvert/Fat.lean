import OfsConvert.Lib.Memory
import OfsConvert.Lib.Word

/-!
# The FAT side: boot sector, derived geometry and directory entries

Fields of the boot sector keep their widths. Pointers are addresses in the memory into which
the partition is mapped; `NULL` is address 0. A `struct fat_dentry *` argument of a predicate
is passed as the 32 bytes it points to.
-/

namespace OfsConvert

/-- Why a run stops before it returns: `exit(1)` after printing a message, an access through a
null pointer, or the end of the model's fuel. -/
inductive Halt where
  | exit (message : String)
  | fault
  | fuel
  deriving DecidableEq, Repr

/-- Index in the FAT of the first data cluster. -/
def fatStartIndex : ℕ := 2

/-- The bits of a FAT entry that number a cluster. -/
def clusterEntryMask : ℕ := 0x0FFFFFFF

/-- The FAT entry of a free cluster. -/
def freeCluster : ℕ := 0

/-- The smallest FAT entry that ends a chain. -/
def fatEndOfChain : ℕ := 0x0FFFFFF8

/-- The code units of one long-name entry. -/
def lfnEntryLength : ℕ := 13

/-- The fields of the packed boot sector that the conversion reads. -/
structure BootSector where
  bytesPerSector : UInt16
  sectorsPerCluster : UInt8
  sectorsBeforeFat : UInt16
  fatCount : UInt8
  sectorCount : UInt16
  totalSectors2 : UInt32
  sectorsPerFat : UInt32
  rootClusterNo : UInt32
  deriving DecidableEq, Repr

/-- Geometry derived from the boot sector by `set_meta_info`. -/
structure MetaInfo where
  fsStart : ℕ
  fatStart : ℕ
  clusterSize : ℕ
  dentriesPerCluster : ℕ
  sectorsBeforeData : ℕ
  dataStart : ℕ
  deriving DecidableEq, Repr, Inhabited

/-- A run of clusters of a file. The structure is not defined by FAT. -/
structure FatExtent where
  logicalStart : ℕ
  length : ℕ
  physicalStart : ℕ
  deriving DecidableEq, Repr, Inhabited

/-- The 32 bytes of a directory entry. -/
abbrev FatDentry := List UInt8

/-- The size of a directory entry. -/
def sizeofFatDentry : ℕ := 32

/-- `struct fat_extent`: 4 + 2 bytes, 2 bytes of padding, 4 bytes. -/
def sizeofFatExtent : ℕ := 12

namespace BootSector

/-- Read the packed structure at the start of the partition. -/
def ofMem (m : Mem) (fs : ℕ) : BootSector where
  bytesPerSector := UInt16.ofNat (m.readLE (fs + 11) 2)
  sectorsPerCluster := m (fs + 13)
  sectorsBeforeFat := UInt16.ofNat (m.readLE (fs + 14) 2)
  fatCount := m (fs + 16)
  sectorCount := UInt16.ofNat (m.readLE (fs + 19) 2)
  totalSectors2 := UInt32.ofNat (m.readLE (fs + 32) 4)
  sectorsPerFat := UInt32.ofNat (m.readLE (fs + 36) 4)
  rootClusterNo := UInt32.ofNat (m.readLE (fs + 44) 4)

end BootSector

/-- `set_meta_info`; the products of the two 16-bit and smaller fields are computed as `int`,
the others in 32 bits. -/
def setMetaInfo (b : BootSector) (fs : ℕ) : Except Halt MetaInfo :=
  let sectorsBeforeData :=
    u32 (b.sectorsBeforeFat.toNat + u32 (b.sectorsPerFat.toNat * b.fatCount.toNat))
  let clusterSize := b.sectorsPerCluster.toNat * b.bytesPerSector.toNat
  if sectorsBeforeData % b.sectorsPerCluster.toNat ≠ 0 then
    .error (.exit "FAT clusters are not aligned. Cannot convert in-place")
  else
    .ok {
      fsStart := fs
      fatStart := fs + b.sectorsBeforeFat.toNat * b.bytesPerSector.toNat
      clusterSize := clusterSize
      dentriesPerCluster := clusterSize / sizeofFatDentry
      sectorsBeforeData := sectorsBeforeData
      dataStart := fs + u32 (sectorsBeforeData * b.bytesPerSector.toNat) }

/-- `sector_count()`. -/
def sectorCount (b : BootSector) : ℕ :=
  if b.sectorCount.toNat = 0 then b.totalSectors2.toNat else b.sectorCount.toNat

/-- `data_cluster_count()`: one past the last cluster number. -/
def dataClusterCount (b : BootSector) (mi : MetaInfo) : ℕ :=
  u32 (sub32 (sectorCount b) mi.sectorsBeforeData / b.sectorsPerCluster.toNat + fatStartIndex)

/-- The ext4 block of a cluster; the sum is computed in 32 bits. -/
def fatClToE4blk (b : BootSector) (mi : MetaInfo) (clusterNo : ℕ) : ℕ :=
  u32 (sub32 clusterNo fatStartIndex + mi.sectorsBeforeData / b.sectorsPerCluster.toNat)

/-- The cluster of an ext4 block, or 0 if the block is before the first data cluster. -/
def e4blkToFatCl (b : BootSector) (mi : MetaInfo) (blockNo : ℕ) : ℕ :=
  let clusterNo : ℤ :=
    blockNo + fatStartIndex - (mi.sectorsBeforeData / b.sectorsPerCluster.toNat : ℕ)
  if clusterNo < fatStartIndex then 0 else u32 clusterNo.toNat

/-- The entry of the first FAT for a cluster. -/
def fatEntry (mi : MetaInfo) (m : Mem) (clusterNo : ℕ) : ℕ :=
  m.readLE (mi.fatStart + 4 * clusterNo) 4

/-- The address of a cluster; the index is a 32-bit difference, the product has 64 bits. -/
def clusterStart (mi : MetaInfo) (clusterNo : ℕ) : ℕ :=
  mi.dataStart + sub32 clusterNo fatStartIndex * mi.clusterSize

/-- A cluster is free if its number bits are zero. -/
def isFreeCluster (clusterEntry : ℕ) : Bool := clusterEntry &&& clusterEntryMask == freeCluster

namespace FatDentry

/-- The byte at an offset of the entry. -/
def byte (d : FatDentry) (i : ℕ) : UInt8 := d.getD i 0

/-- The attribute byte of an entry. -/
def attrs (d : FatDentry) : UInt8 := d.byte 11

/-- The byte that says which parts of a short name are lower case. -/
def shortNameCase (d : FatDentry) : UInt8 := d.byte 12

/-- The little-endian number of `w` bytes at an offset of the entry. -/
def field (d : FatDentry) (i w : ℕ) : ℕ := leNat ((d.drop i).take w)

/-- The time of creation. -/
def createTime (d : FatDentry) : ℕ := d.field 14 2

/-- The date of creation. -/
def createDate (d : FatDentry) : ℕ := d.field 16 2

/-- The date of the last access. -/
def accessDate (d : FatDentry) : ℕ := d.field 18 2

/-- The time of the last change. -/
def modTime (d : FatDentry) : ℕ := d.field 22 2

/-- The date of the last change. -/
def modDate (d : FatDentry) : ℕ := d.field 24 2

/-- The size of the file. -/
def fileSize (d : FatDentry) : ℕ := d.field 28 4

end FatDentry

/-- The entry a pointer points to. -/
def dentryAt (m : Mem) (p : ℕ) : FatDentry := m.read p sizeofFatDentry

/-- `first_cluster_high` at offset 20 and `first_cluster_low` at offset 26. -/
def fileClusterNo (d : FatDentry) : ℕ :=
  leNat ((d.drop 20).take 2) <<< 16 ||| leNat ((d.drop 26).take 2)

/-- The entry of a directory. -/
def isDir (d : FatDentry) : Bool := d.attrs &&& 0x10 != 0

/-- Any of the four low attributes, not only all of them. -/
def isLfn (d : FatDentry) : Bool := d.attrs &&& 0x0F != 0

/-- The entry of a deleted file. -/
def isInvalid (d : FatDentry) : Bool := d.byte 0 == 0xE5

/-- The test of the first byte in `is_dir_table_end`; callers test the null pointer. -/
def isDirTableEnd (d : FatDentry) : Bool := d.byte 0 == 0

/-- The entries `.` and `..` and any other that starts with a dot. -/
def isDotDir (d : FatDentry) : Bool := d.byte 0 == 0x2E

/-- The base of the short name is shown in lower case. -/
def hasLowerName (d : FatDentry) : Bool := d.shortNameCase &&& 0x8 != 0

/-- The extension of the short name is shown in lower case. -/
def hasLowerExtension (d : FatDentry) : Bool := d.shortNameCase &&& 0x10 != 0

/-- The first byte of the extension decides whether there is one. -/
def hasExtension (d : FatDentry) : Bool := d.byte 8 != 0x20

/-- The number of a long-name entry in its run. -/
def lfnEntrySequenceNo (d : FatDentry) : ℕ := (d.byte 0 &&& 0x1F).toNat

/-- `tolower` of the C locale. -/
def tolower (b : UInt8) : UInt8 := if 0x41 ≤ b ∧ b ≤ 0x5A then b + 0x20 else b

/-- The characters of a space-padded field up to the first space, in lower case on demand. -/
def shortNamePart (lower : Bool) (field : List UInt8) : List UInt8 :=
  (field.takeWhile (· != 0x20)).map fun c => if lower then tolower c else c

/-- The 16-bit units that `read_short_name` writes, the terminating 0 included. -/
def shortNameUnits (d : FatDentry) : List ℕ :=
  let base := shortNamePart (hasLowerName d) (d.take 8)
  let extension :=
    if hasExtension d then 0x2E :: shortNamePart (hasLowerExtension d) ((d.drop 8).take 3) else []
  (base ++ extension).map UInt8.toNat ++ [0]

/-- A cluster is free in the FAT. -/
def FatFree (mi : MetaInfo) (m : Mem) (clusterNo : ℕ) : Prop :=
  isFreeCluster (fatEntry mi m clusterNo) = true

/-- Whether a cluster is free can be computed. -/
instance (mi : MetaInfo) (m : Mem) (clusterNo : ℕ) : Decidable (FatFree mi m clusterNo) :=
  inferInstanceAs (Decidable (_ = _))

end OfsConvert
