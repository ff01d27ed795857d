import OfsConvert.BlockGroups
import OfsConvert.Ext4Dentry

/-!
# Inodes

`ext4_inode.cpp`: the inodes of files and directories, of the root and of lost+found. What the
conversion asks the system for, and what it finds in uninitialised memory, is an `Env`.
-/

namespace OfsConvert

/-- The mode bits of a directory. -/
def sIfdir : ℕ := 0x4000

/-- The mode bits of a regular file. -/
def sIfreg : ℕ := 0x8000

/-- The owner of the directories that the conversion makes. -/
def rootUid : ℕ := 0

/-- The group of the directories that the conversion makes. -/
def rootGid : ℕ := 0

/-- The magic number of an extent header. -/
def ehMagic : ℕ := 0xF30A

/-- The inode flag of a file with extents. -/
def extentsFlag : ℕ := 0x80000

/-- `sizeof(ext4_inode)`. -/
def sizeofExt4Inode : ℕ := 160

/-- `sizeof(ext4_extent_header)`. -/
def sizeofExtentHeader : ℕ := 12

/-- `sizeof(ext4_extent)` and `sizeof(ext4_extent_idx)`. -/
def sizeofExtent : ℕ := 12

/-- The offsets in an inode of the fields that are updated in place. -/
def iSizeLoOffset : ℕ := 4

/-- Where an inode counts its links. -/
def iLinksCountOffset : ℕ := 26

/-- Where an inode counts its blocks, the low half. -/
def iBlocksLoOffset : ℕ := 28

/-- Where an inode has the header of its extent tree. -/
def extHeaderOffset : ℕ := 40

/-- Where an inode has the high half of its size. -/
def iSizeHighOffset : ℕ := 108

/-- Where an inode counts its blocks, the high half. -/
def iBlocksHighOffset : ℕ := 116

/-- `ext4_extent_header`. -/
structure Ext4ExtentHeader where
  ehEntries : ℕ
  ehMax : ℕ
  ehDepth : ℕ
  ehGeneration : ℕ := 0

/-- The packed header. -/
def Ext4ExtentHeader.bytes (h : Ext4ExtentHeader) : List UInt8 :=
  leBytes 2 ehMagic ++ leBytes 2 h.ehEntries ++ leBytes 2 h.ehMax ++ leBytes 2 h.ehDepth ++
    leBytes 4 h.ehGeneration

/-- `init_extent_header`. -/
def initExtentHeader : Ext4ExtentHeader where
  ehEntries := 0
  ehMax := 4
  ehDepth := 0
  ehGeneration := 0

/-- The fields of an `ext4_inode` that are not 0 when it is stored. -/
structure Ext4Inode where
  iMode : ℕ
  iUid : ℕ
  iAtime : ℕ
  iCtime : ℕ
  iMtime : ℕ
  iGid : ℕ
  iLinksCount : ℕ
  iFlags : ℕ
  extHeader : Ext4ExtentHeader
  lIUidHigh : ℕ
  lIGidHigh : ℕ
  iCrtime : ℕ

/-- The 160 bytes of an inode: 48 bytes of extents behind the header are 0. -/
def Ext4Inode.bytes (inode : Ext4Inode) : List UInt8 :=
  leBytes 2 inode.iMode ++ leBytes 2 inode.iUid ++ leBytes 4 0 ++ leBytes 4 inode.iAtime ++
    leBytes 4 inode.iCtime ++ leBytes 4 inode.iMtime ++ leBytes 4 0 ++ leBytes 2 inode.iGid ++
    leBytes 2 inode.iLinksCount ++ leBytes 4 0 ++ leBytes 4 inode.iFlags ++ leBytes 4 0 ++
    inode.extHeader.bytes ++ leBytes 48 0 ++ leBytes 20 0 ++ leBytes 2 inode.lIUidHigh ++
    leBytes 2 inode.lIGidHigh ++ leBytes 20 0 ++ leBytes 4 inode.iCrtime ++ leBytes 12 0

/-- `inode.i_mode & S_IFDIR`. -/
def Ext4Inode.isDirectory (inode : Ext4Inode) : Bool := inode.iMode &&& sIfdir != 0

/-- What `time` returned for the three time stamps of an inode. -/
structure InodeTimes where
  atime : ℕ
  ctime : ℕ
  mtime : ℕ
  deriving Inhabited

/-- The fields of a `tm` that `fat_time_to_unix` sets. -/
structure Tm where
  year : ℕ
  mon : ℤ
  mday : ℕ
  hour : ℕ
  min : ℕ
  sec : ℕ

/-- The answers of the system and the contents of uninitialised memory: an entry before it is
filled in, given its directory and its index there, and the bytes of a super block copy, whose
other fields the conversion does not compute with. -/
structure Env where
  euid : ℕ := 0
  egid : ℕ := 0
  mktime : Tm → ℤ := fun _ => 0
  rootTimes : InodeTimes := default
  lostFoundTimes : InodeTimes := default
  fresh : ℕ → ℕ → Ext4Dentry := fun _ _ => default
  sbByte : Ext4SuperBlock → ℕ → ℕ → UInt8 := fun _ _ _ => 0

/-- `fat_time_to_unix`. -/
def fatTimeToUnix (env : Env) (date time : ℕ) : ℕ :=
  (env.mktime {
    year := ((date &&& 0xFE00) >>> 9) + 80
    mon := (((date &&& 0x1E0) >>> 5 : ℕ) : ℤ) - 1
    mday := date &&& 0x1F
    hour := (time &&& 0xF800) >>> 11
    min := (time &&& 0x7E0) >>> 5
    sec := (time &&& 0x1F) * 2 } % 2 ^ 32).toNat

/-- `save_inode`; the new inode's number. -/
def saveInode (g : Globals) (inode : Ext4Inode) : Prog ℕ := do
  let s ← get
  let inodeNo := s.ext4.firstFreeInodeNo
  addInode g inode.bytes inode.isDirectory inodeNo
  modify fun s => { s with ext4 := { s.ext4 with firstFreeInodeNo := u32 (inodeNo + 1) } }
  pure inodeNo

/-- The inode that `build_inode` makes from a directory entry. -/
def inodeOf (env : Env) (dentry : FatDentry) : Ext4Inode where
  iMode := 0o755 ||| if isDir dentry then sIfdir else sIfreg
  iUid := env.euid &&& 0xFFFF
  lIUidHigh := u16 (env.euid >>> 16)
  iGid := env.egid &&& 0xFFFF
  lIGidHigh := u16 (env.egid >>> 16)
  iAtime := fatTimeToUnix env dentry.accessDate 0
  iCrtime := fatTimeToUnix env dentry.createDate dentry.createTime
  iMtime := fatTimeToUnix env dentry.modDate dentry.modTime
  iCtime := u32 (fatTimeToUnix env dentry.modDate dentry.modTime + 1)
  iLinksCount := if isDir dentry then 2 else 1
  iFlags := extentsFlag
  extHeader := initExtentHeader

/-- `build_inode`. -/
def buildInode (g : Globals) (env : Env) (dentry : ℕ) : Prog ℕ := do
  notNull dentry
  let m ← getMem
  saveInode g (inodeOf env (dentryAt m dentry))

/-- `build_root_inode`. -/
def buildRootInode (g : Globals) (env : Env) : Prog Unit :=
  let inode : Ext4Inode := {
    iMode := 0o755 ||| sIfdir
    iUid := env.euid &&& 0xFFFF
    lIUidHigh := u16 (env.euid >>> 16)
    iGid := env.egid &&& 0xFFFF
    lIGidHigh := u16 (env.egid >>> 16)
    iAtime := u32 env.rootTimes.atime
    iCtime := u32 env.rootTimes.ctime
    iMtime := u32 env.rootTimes.mtime
    iCrtime := 0
    iLinksCount := 3
    iFlags := extentsFlag
    extHeader := initExtentHeader }
  addReservedInode g inode.bytes inode.isDirectory ext4RootInode

/-- `build_lost_found_inode`. -/
def buildLostFoundInode (g : Globals) (env : Env) : Prog Unit :=
  let inode : Ext4Inode := {
    iMode := 0o755 ||| sIfdir
    iUid := rootUid
    lIUidHigh := 0
    iGid := rootGid
    lIGidHigh := 0
    iAtime := u32 env.lostFoundTimes.atime
    iCtime := u32 env.lostFoundTimes.ctime
    iMtime := u32 env.lostFoundTimes.mtime
    iCrtime := 0
    iLinksCount := 2
    iFlags := extentsFlag
    extHeader := initExtentHeader }
  addReservedInode g inode.bytes inode.isDirectory ext4LostFoundInode

/-- `set_size`. -/
def setSize (g : Globals) (inodeNo size : ℕ) : Prog Unit := do
  let inode ← getExistingInode g inodeNo
  storeLE (inode + iSizeLoOffset) 4 (setLoHi64 size).1
  storeLE (inode + iSizeHighOffset) 4 (setLoHi64 size).2

/-- `get_size`. -/
def getSize (g : Globals) (inodeNo : ℕ) : Prog ℕ := do
  let inode ← getExistingInode g inodeNo
  let m ← getMem
  pure (fromLoHi (m.readLE (inode + iSizeLoOffset) 4) (m.readLE (inode + iSizeHighOffset) 4))

/-- `incr_links_count`. -/
def incrLinksCount (g : Globals) (inodeNo : ℕ) : Prog Unit := do
  let inode ← getExistingInode g inodeNo
  let m ← getMem
  storeLE (inode + iLinksCountOffset) 2 (u16 (m.readLE (inode + iLinksCountOffset) 2 + 1))

end OfsConvert
