import OfsConvert.DescriptorCheck

/-!
# The super block on the volume

The 1024 bytes of an `ext4_super_block` as `init_ext4_sb` fills them in and `write_sb_copy` copies
them, and what a driver decodes from them. The driver finds the layout that the conversion has used
at its fixed place behind the start of the volume.
-/

namespace OfsConvert

/-- The magic number of a super block. -/
def ext4Magic : ℕ := 0xEF53

/-- What `init_ext4_sb` gets from outside: the time, the uuid and the volume label. -/
structure SuperBlockStamp where
  mkfsTime : ℕ := 0
  uuid : List UInt8 := List.replicate 16 0
  volumeName : List UInt8 := List.replicate 16 0

/-- The fields of the copy of a super block for a group, with their widths; runs of fields that stay
0 are joined. -/
def Ext4SuperBlock.fields (stamp : SuperBlockStamp) (sb : Ext4SuperBlock) (bgNum : ℕ) :
    List (ℕ × ℕ) :=
  [(4, sb.sInodesCount), (4, sb.sBlocksCountLo), (4, 0), (4, sb.sFreeBlocksCountLo),
    (4, sb.sFreeInodesCount), (4, sb.sFirstDataBlock), (4, sb.sLogBlockSize),
    (4, sb.sLogBlockSize), (4, sb.sBlocksPerGroup), (4, sb.sBlocksPerGroup),
    (4, sb.sInodesPerGroup), (8, 0), (2, 0), (2, 0xFFFF), (2, ext4Magic),
    -- s_state, s_errors, s_minor_rev_level
    (2, 1), (2, 1), (2, 0), (12, 0),
    -- s_rev_level, s_def_resuid and s_def_resgid, s_first_ino
    (4, 1), (4, 0), (4, ext4FirstNonRsvInode), (2, sb.sInodeSize), (2, u16 bgNum),
    -- the feature sets
    (4, 0x0200), (4, 0x0080 ||| 0x0040), (4, 0),
    (16, leNat stamp.uuid), (16, leNat stamp.volumeName), (64, 0), (4, 0), (2, 0),
    (2, sb.sReservedGdtBlocks), (46, 0), (2, sb.sDescSize), (8, 0), (4, stamp.mkfsTime), (68, 0),
    (4, sb.sBlocksCountHi), (4, 0), (4, sb.sFreeBlocksCountHi), (240, 0), (4, sb.sBackupBgs0),
    (4, sb.sBackupBgs1), (428, 0)]

/-- The environment in which the copies of the super block have the bytes of its fields. -/
def Env.withSuperBlock (env : Env) (stamp : SuperBlockStamp) : Env :=
  { env with sbByte := fun sb bgNum i => (encodeFields (sb.fields stamp bgNum)).getD i 0 }

/-- Decode the super block at an address. -/
def superBlockAt (m : Mem) (p : ℕ) : Ext4SuperBlock where
  sInodesCount := m.readLE (p + 0) 4
  sBlocksCountLo := m.readLE (p + 4) 4
  sFreeBlocksCountLo := m.readLE (p + 12) 4
  sFreeInodesCount := m.readLE (p + 16) 4
  sFirstDataBlock := m.readLE (p + 20) 4
  sLogBlockSize := m.readLE (p + 24) 4
  sBlocksPerGroup := m.readLE (p + 32) 4
  sInodesPerGroup := m.readLE (p + 40) 4
  sInodeSize := m.readLE (p + 88) 2
  sReservedGdtBlocks := m.readLE (p + 206) 2
  sDescSize := m.readLE (p + 254) 2
  sBlocksCountHi := m.readLE (p + 336) 4
  sFreeBlocksCountHi := m.readLE (p + 344) 4
  sBackupBgs0 := m.readLE (p + 588) 4
  sBackupBgs1 := m.readLE (p + 592) 4

/-- The fields have the widths of `ext4_super_block`. -/
structure Ext4SuperBlock.Typed (sb : Ext4SuperBlock) : Prop where
  inodesCount : sb.sInodesCount < 2 ^ 32
  blocksCount : sb.sBlocksCountLo < 2 ^ 32 ∧ sb.sBlocksCountHi < 2 ^ 32
  freeBlocks : sb.sFreeBlocksCountLo < 2 ^ 32 ∧ sb.sFreeBlocksCountHi < 2 ^ 32
  freeInodes : sb.sFreeInodesCount < 2 ^ 32
  firstDataBlock : sb.sFirstDataBlock < 2 ^ 32
  logBlockSize : sb.sLogBlockSize < 2 ^ 32
  perGroup : sb.sBlocksPerGroup < 2 ^ 32 ∧ sb.sInodesPerGroup < 2 ^ 32
  sizes : sb.sInodeSize < 2 ^ 16 ∧ sb.sDescSize < 2 ^ 16 ∧ sb.sReservedGdtBlocks < 2 ^ 16
  backups : sb.sBackupBgs0 < 2 ^ 32 ∧ sb.sBackupBgs1 < 2 ^ 32

section Decode

variable {m : Mem} {p bgNum : ℕ} {sb : Ext4SuperBlock} {stamp : SuperBlockStamp}

/-- A packed super block has 1024 bytes. -/
theorem length_superBlock_bytes (stamp : SuperBlockStamp) (sb : Ext4SuperBlock) (bgNum : ℕ) :
    (encodeFields (sb.fields stamp bgNum)).length = sizeofSuperBlock := by
  rw [length_encodeFields]
  simp [Ext4SuperBlock.fields, sizeofSuperBlock]

/-- The bytes that the environment has for a copy. -/
theorem sbByte_withSuperBlock (env : Env) (stamp : SuperBlockStamp) (sb : Ext4SuperBlock)
    (bgNum : ℕ) : (List.range sizeofSuperBlock).map ((env.withSuperBlock stamp).sbByte sb bgNum) =
      encodeFields (sb.fields stamp bgNum) := by
  have hlength := length_superBlock_bytes stamp sb bgNum
  apply List.ext_getElem
  · rw [List.length_map, List.length_range, hlength]
  · intro i hi hi'
    rw [List.getElem_map, List.getElem_range]
    exact List.getD_eq_getElem _ _ hi'

/-- Decoding the bytes of a super block gives it back, with its magic number and the number of the
group that holds it. -/
theorem superBlockAt_eq (h : sb.Typed)
    (hread : m.read p sizeofSuperBlock = encodeFields (sb.fields stamp bgNum)) :
    superBlockAt m p = sb ∧ m.readLE (p + 56) 2 = ext4Magic ∧ m.readLE (p + 90) 2 = u16 bgNum := by
  rw [← length_superBlock_bytes stamp sb bgNum] at hread
  have hinodes : m.readLE (p + 0) 4 = sb.sInodesCount :=
    readLE_field hread 0 rfl (by simp [fieldOffset, Ext4SuperBlock.fields]) h.inodesCount
  have hblocksLo : m.readLE (p + 4) 4 = sb.sBlocksCountLo :=
    readLE_field hread 1 rfl (by simp [fieldOffset, Ext4SuperBlock.fields]) h.blocksCount.1
  have hfreeLo : m.readLE (p + 12) 4 = sb.sFreeBlocksCountLo :=
    readLE_field hread 3 rfl (by simp [fieldOffset, Ext4SuperBlock.fields]) h.freeBlocks.1
  have hfree : m.readLE (p + 16) 4 = sb.sFreeInodesCount :=
    readLE_field hread 4 rfl (by simp [fieldOffset, Ext4SuperBlock.fields]) h.freeInodes
  have hfirst : m.readLE (p + 20) 4 = sb.sFirstDataBlock :=
    readLE_field hread 5 rfl (by simp [fieldOffset, Ext4SuperBlock.fields]) h.firstDataBlock
  have hlog : m.readLE (p + 24) 4 = sb.sLogBlockSize :=
    readLE_field hread 6 rfl (by simp [fieldOffset, Ext4SuperBlock.fields]) h.logBlockSize
  have hblocks : m.readLE (p + 32) 4 = sb.sBlocksPerGroup :=
    readLE_field hread 8 rfl (by simp [fieldOffset, Ext4SuperBlock.fields]) h.perGroup.1
  have hper : m.readLE (p + 40) 4 = sb.sInodesPerGroup :=
    readLE_field hread 10 rfl (by simp [fieldOffset, Ext4SuperBlock.fields]) h.perGroup.2
  have hmagic : m.readLE (p + 56) 2 = ext4Magic :=
    readLE_field hread 14 rfl (by simp [fieldOffset, Ext4SuperBlock.fields])
      (show ext4Magic < 256 ^ 2 by decide)
  have hsize : m.readLE (p + 88) 2 = sb.sInodeSize :=
    readLE_field hread 22 rfl (by simp [fieldOffset, Ext4SuperBlock.fields]) h.sizes.1
  have hgroup : m.readLE (p + 90) 2 = u16 bgNum :=
    readLE_field hread 23 rfl (by simp [fieldOffset, Ext4SuperBlock.fields]) (u16_lt bgNum)
  have hgdt : m.readLE (p + 206) 2 = sb.sReservedGdtBlocks :=
    readLE_field hread 32 rfl (by simp [fieldOffset, Ext4SuperBlock.fields]) h.sizes.2.2
  have hdesc : m.readLE (p + 254) 2 = sb.sDescSize :=
    readLE_field hread 34 rfl (by simp [fieldOffset, Ext4SuperBlock.fields]) h.sizes.2.1
  have hblocksHi : m.readLE (p + 336) 4 = sb.sBlocksCountHi :=
    readLE_field hread 38 rfl (by simp [fieldOffset, Ext4SuperBlock.fields]) h.blocksCount.2
  have hfreeHi : m.readLE (p + 344) 4 = sb.sFreeBlocksCountHi :=
    readLE_field hread 40 rfl (by simp [fieldOffset, Ext4SuperBlock.fields]) h.freeBlocks.2
  have hbackup0 : m.readLE (p + 588) 4 = sb.sBackupBgs0 :=
    readLE_field hread 42 rfl (by simp [fieldOffset, Ext4SuperBlock.fields]) h.backups.1
  have hbackup1 : m.readLE (p + 592) 4 = sb.sBackupBgs1 :=
    readLE_field hread 43 rfl (by simp [fieldOffset, Ext4SuperBlock.fields]) h.backups.2
  refine ⟨?_, hmagic, hgroup⟩
  rw [superBlockAt, hinodes, hblocksLo, hfreeLo, hfree, hfirst, hlog, hblocks, hper, hsize, hgdt,
    hdesc, hblocksHi, hfreeHi, hbackup0, hbackup1]

end Decode

/-- A driver finds the super block of the conversion: at its fixed place, with the magic number and
the layout, and again in each group with a copy. -/
def SuperBlockReadable (g : Globals) (m : Mem) : Prop :=
  ∃ sb, SameLayout g.sb sb ∧
    superBlockAt m (g.metaInfo.fsStart + 1024) = sb ∧
    m.readLE (g.metaInfo.fsStart + 1024 + 56) 2 = ext4Magic ∧
    (∀ copy ∈ copyGroups g.sb,
      let p := blockStart g.metaInfo g.sb (blockGroupStart g.sb copy) + sbOffset g.sb copy
      superBlockAt m p = sb ∧ m.readLE (p + 90) 2 = u16 copy) ∧
    (blockGroupCount g.sb < 2 ^ 16 → g.sb.sInodesPerGroup < 2 ^ 16 →
      sb.sFreeInodesCount = freeInodesTotal g m ∧
        fromLoHi sb.sFreeBlocksCountLo sb.sFreeBlocksCountHi = freeBlocksTotal g m)

section Volume

variable {g : Globals} (hg : Accepted g) {env : Env} {m₀ : Mem} {base t : State} {F : List ℕ}
  {rootExtents : List FatExtent} {records : Forest Record}

/-- Adding the counts of a group keeps the widths of the fields. -/
theorem Ext4SuperBlock.Typed.addFreeCounts {sb : Ext4SuperBlock} (h : sb.Typed)
    (bg : Ext4GroupDesc) : (OfsConvert.addFreeCounts sb bg).Typed :=
  { h with
    freeBlocks := setLoHi64_halves _
    freeInodes := u32_lt _ }

/-- Counting the free blocks keeps the fields in their widths. -/
theorem freeCountsLoop_typed {descs : List Ext4GroupDesc} {bgCount fuel i : ℕ}
    {sb sb' : Ext4SuperBlock} {visited visited' : List ℕ} (h : sb.Typed)
    (hloop : freeCountsLoop descs bgCount fuel i sb visited = some (sb', visited')) :
    sb'.Typed := by
  induction fuel generalizing i sb visited with
  | zero => cases hloop
  | succ fuel ih =>
    rw [freeCountsLoop] at hloop
    split at hloop
    · exact ih (h.addFreeCounts _) hloop
    · obtain ⟨rfl, -⟩ := Prod.mk.inj (Option.some.inj hloop)
      exact h

include hg

/-- `init_ext4_sb` fills in numbers that fit their fields. -/
theorem Accepted.superBlock_typed : g.sb.Typed := by
  have h := hg.superBlockOf
  obtain ⟨-, -, hblocks, -, hinodes, -⟩ := hg.numbers
  have hcount := setLoHi64_halves (partitionBlocks g.bootSector)
  have hlog : Nat.log2 g.metaInfo.clusterSize < 20 :=
    (Nat.log2_lt (by have := hg.clusterSize_ge; omega)).mpr (by have := hg.clusterSize_le; omega)
  refine ⟨?_, ⟨?_, ?_⟩, ⟨?_, ?_⟩, ?_, ?_, ?_, ⟨by omega, by omega⟩, ⟨?_, ?_, ?_⟩, ?_, ?_⟩
  · rw [h.inodesCount]
    exact u32_lt _
  · rw [h.countLo]
    exact hcount.1
  · rw [h.countHi]
    exact hcount.2
  · rw [h.freeBlocksLo]
    norm_num
  · rw [h.freeBlocksHi]
    norm_num
  · rw [h.freeInodes]
    norm_num
  · rw [h.firstDataBlock]
    split <;> norm_num
  · rw [h.logBlockSize]
    omega
  · rw [h.inodeSize]
    decide
  · rw [h.descSize]
    decide
  · rw [h.reservedGdt]
    norm_num
  · rw [h.backup0]
    split <;> norm_num
  · rw [h.backup1]
    split
    · exact sub32_lt _ _
    · norm_num

/-- The first copy is at the fixed place of the super block. -/
theorem Accepted.superBlock_place :
    blockStart g.metaInfo g.sb (blockGroupStart g.sb 0) + sbOffset g.sb 0 =
      g.metaInfo.fsStart + 1024 := by
  have hfirst := hg.superBlockOf.firstDataBlock
  have hone : u32 g.sb.sFirstDataBlock = g.sb.sFirstDataBlock :=
    u32_of_lt hg.superBlock_typed.firstDataBlock
  rw [blockStart, blockGroupStart, Nat.mul_zero, Nat.zero_add, hone, hfirst, sbOffset,
    hg.blockSize_eq]
  by_cases hsize : g.metaInfo.clusterSize = 1024
  · simp [hsize]
  · simp [hsize]

/-- A driver can read the super block. -/
theorem Converted.superBlockReadable {stamp : SuperBlockStamp}
    (h : Converted g (env.withSuperBlock stamp) m₀ base F rootExtents records t)
    (hfit : GroupsFit g) : SuperBlockReadable g t.mem := by
  obtain ⟨sb, fuel, visited, hcounts, hcopies⟩ := h.copies
  have htyped := freeCountsLoop_typed hg.superBlock_typed hcounts
  have hdecode : ∀ copy ∈ copyGroups g.sb,
      let p := blockStart g.metaInfo g.sb (blockGroupStart g.sb copy) + sbOffset g.sb copy
      superBlockAt t.mem p = sb ∧ t.mem.readLE (p + 56) 2 = ext4Magic ∧
        t.mem.readLE (p + 90) 2 = u16 copy := fun copy hcopy =>
    superBlockAt_eq htyped
      ((hcopies copy hcopy).superBlock.trans (sbByte_withSuperBlock env stamp sb copy))
  have hfirst := hdecode 0 List.mem_cons_self
  simp only [hg.superBlock_place] at hfirst
  exact ⟨sb, freeCountsLoop_sameLayout hcounts, hfirst.1, hfirst.2.1,
    fun copy hcopy => ⟨(hdecode copy hcopy).1, (hdecode copy hcopy).2.2⟩,
    fun hgroups hinodes => freeCounts_eq hg h.building.inv.placed.length (h.ledger hfit).groups
      hgroups hinodes hcounts⟩

end Volume

end OfsConvert
