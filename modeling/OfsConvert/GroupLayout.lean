import OfsConvert.Geometry

/-!
# The block groups of the new file system

`init_ext4_sb` leaves the block count of the partition unreduced, so whether the groups tile
the file system with a usable last group depends on the partition alone. `GroupLayout` is what
the rest of the conversion takes for granted; it holds exactly when the last group, as the
sectors happen to leave it, is as long as the comment in `init_ext4_sb` asks for.
-/

namespace OfsConvert

/-- A block lies in a group. -/
def InGroup (sb : Ext4SuperBlock) (i n : ℕ) : Prop :=
  blockGroupStart sb i ≤ n ∧ n < blockGroupStart sb i + blockGroupBlockCount sb i

/-- The block after the bitmaps and the inode table of a group: where `init_ext4_group_descs`
puts them behind the super block copy and the descriptors, if there are any. -/
def groupMetadataStop (sb : Ext4SuperBlock) (i : ℕ) : ℕ :=
  blockGroupStart sb i +
    (if blockGroupHasSbCopy sb i then 1 + gdtBlockCount sb + sb.sReservedGdtBlocks else 0) +
    2 + inodeTableBlocks sb

/-- The layout that `init_ext4_sb` is to establish: the groups partition the blocks of the file
system, none is empty, the last one has 50 blocks beyond its overhead, no group is shorter than
its overhead, and no metadata lies behind the end. -/
structure GroupLayout (sb : Ext4SuperBlock) : Prop where
  covers : ∀ n, sb.sFirstDataBlock ≤ n ∧ n < blockCount sb ↔
    ∃ i < blockGroupCount sb, InGroup sb i n
  separate : ∀ i j, i < j → j < blockGroupCount sb →
    blockGroupStart sb i + blockGroupBlockCount sb i ≤ blockGroupStart sb j
  nonempty : ∀ i < blockGroupCount sb, 0 < blockGroupBlockCount sb i
  lastRoom : blockGroupOverhead sb (blockGroupCount sb - 1) + 50 ≤
    blockGroupBlockCount sb (blockGroupCount sb - 1)
  noWrap : ∀ i < blockGroupCount sb, blockGroupOverhead sb i ≤ blockGroupBlockCount sb i
  metadata : ∀ i < blockGroupCount sb, groupMetadataStop sb i ≤ blockCount sb

/-- The length of the last group: what the full groups before it leave of the partition. -/
def lastGroupBlocks (b : BootSector) (bytes : ℕ) : ℕ :=
  partitionBlocks b - (if bytes = 1024 then 1 else 0) -
    groupBlocks bytes * ((partitionBlocks b - 1) / groupBlocks bytes)

/-- What the last group must hold: super block, descriptors, bitmaps, inode table and 50 more
blocks. -/
def lastGroupNeeds (b : BootSector) (bytes : ℕ) : ℕ :=
  3 + ceilDiv (ceilDiv (partitionBlocks b) (groupBlocks bytes)) (bytes / 64) +
    tableBlocks bytes + 50

namespace Accepted

variable {g : Globals} (hg : Accepted g)
include hg

/-- The last group always has a copy of the super block. -/
theorem last_hasSbCopy : blockGroupHasSbCopy g.sb (blockGroupCount g.sb - 1) = true := by
  have hpos := hg.blockGroupCount_pos
  have hle := hg.blockGroupCount_le
  have h0 := hg.superBlockOf.backup0
  have h1 := hg.superBlockOf.backup1
  rw [sub32_of_le (by omega) (by omega)] at h1
  simp only [blockGroupHasSbCopy, Bool.or_eq_true, beq_iff_eq]
  split at h0 <;> split at h1 <;> omega

/-- The metadata of a group ends with its overhead. -/
theorem groupMetadataStop_eq (i : ℕ) :
    groupMetadataStop g.sb i = blockGroupStart g.sb i + blockGroupOverhead g.sb i := by
  rw [groupMetadataStop, blockGroupOverhead, hg.overheadOf_eq, hg.inodeTableBlocks_eq,
    hg.superBlockOf.reservedGdt]
  split <;> omega

/-- Every group but the last has the full size. -/
theorem blockGroupBlockCount_full {i : ℕ} (hi : i + 1 < blockGroupCount g.sb) :
    blockGroupBlockCount g.sb i = g.sb.sBlocksPerGroup := by
  have hnext := hg.group_mul_lt hi
  have hlt := hg.partitionBlocks_lt
  have hdata := hg.dataBlock_lt
  have hfirst := hg.sFirstDataBlock_le
  rw [Nat.mul_add, Nat.mul_one] at hnext
  rw [blockGroupBlockCount, hg.blockCount_eq, hg.blockGroupStart_eq (by omega),
    sub64_of_le (by omega) (by omega), u32_of_lt (by omega)]
  omega

/-- The last group has what is left, at most the full size. -/
theorem blockGroupBlockCount_last :
    blockGroupBlockCount g.sb (blockGroupCount g.sb - 1) =
      lastGroupBlocks g.bootSector g.metaInfo.clusterSize := by
  have hpos := hg.blockGroupCount_pos
  have hlt := hg.partitionBlocks_lt
  have hdata := hg.dataBlock_lt
  have hcount := hg.dataBlock_lt_partitionBlocks
  have hfirst := hg.superBlockOf.firstDataBlock
  have hbefore := hg.group_mul_lt (i := blockGroupCount g.sb - 1) (by omega)
  have hcover := hg.le_group_mul
  obtain ⟨hlow, -, hhigh, -⟩ := hg.numbers
  have hlast : blockGroupCount g.sb - 1 =
      (partitionBlocks g.bootSector - 1) / g.sb.sBlocksPerGroup := by
    rw [hg.blockGroupCount_eq, ceilDiv_eq_pred_div (by omega) (by omega), Nat.add_sub_cancel]
  have hstep : g.sb.sBlocksPerGroup * blockGroupCount g.sb =
      g.sb.sBlocksPerGroup * (blockGroupCount g.sb - 1) + g.sb.sBlocksPerGroup := by
    rw [Nat.mul_sub, Nat.mul_one, Nat.sub_add_cancel (Nat.le_mul_of_pos_right _ hpos)]
  rw [lastGroupBlocks, ← hg.blocksPerGroup_eq, ← hlast, ← hfirst, blockGroupBlockCount,
    hg.blockCount_eq, hg.blockGroupStart_eq (by omega)]
  have hone := hg.sFirstDataBlock_le
  rw [sub64_of_le (by omega) (by omega), u32_of_lt (by omega)]
  omega

/-- The overhead that the last group has to hold. -/
theorem lastGroupNeeds_eq :
    blockGroupOverhead g.sb (blockGroupCount g.sb - 1) + 50 =
      lastGroupNeeds g.bootSector g.metaInfo.clusterSize := by
  rw [blockGroupOverhead, hg.last_hasSbCopy, hg.overheadOf_eq, if_pos rfl, hg.gdtBlockCount_eq,
    hg.blockGroupCount_eq, lastGroupNeeds, hg.blocksPerGroup_eq]

/-- A block belongs to the group its distance from the first data block falls into. -/
theorem inGroup_of_lt (hlast : 0 < blockGroupBlockCount g.sb (blockGroupCount g.sb - 1)) {n : ℕ}
    (hlow : g.sb.sFirstDataBlock ≤ n) (hhigh : n < partitionBlocks g.bootSector) :
    ∃ i < blockGroupCount g.sb, InGroup g.sb i n := by
  obtain ⟨hgroup, -⟩ := hg.numbers
  have hpos := hg.blockGroupCount_pos
  have hcover := hg.le_group_mul
  have hlt : (n - g.sb.sFirstDataBlock) / g.sb.sBlocksPerGroup < blockGroupCount g.sb := by
    rw [Nat.div_lt_iff_lt_mul (by omega), Nat.mul_comm]
    omega
  refine ⟨(n - g.sb.sFirstDataBlock) / g.sb.sBlocksPerGroup, hlt, ?_⟩
  have hmod := Nat.mod_lt (n - g.sb.sFirstDataBlock) (y := g.sb.sBlocksPerGroup) (by omega)
  have hdiv := Nat.div_add_mod (n - g.sb.sFirstDataBlock) g.sb.sBlocksPerGroup
  rw [InGroup, hg.blockGroupStart_eq hlt.le]
  refine ⟨by omega, ?_⟩
  rcases Nat.lt_or_ge ((n - g.sb.sFirstDataBlock) / g.sb.sBlocksPerGroup + 1)
    (blockGroupCount g.sb) with hfull | hend
  · rw [hg.blockGroupBlockCount_full hfull]
    omega
  · have heq : (n - g.sb.sFirstDataBlock) / g.sb.sBlocksPerGroup = blockGroupCount g.sb - 1 := by
      omega
    rw [heq] at hdiv ⊢
    have hcount := hg.blockGroupBlockCount_last
    have hfirst := hg.superBlockOf.firstDataBlock
    have hindex : blockGroupCount g.sb - 1 =
        (partitionBlocks g.bootSector - 1) / g.sb.sBlocksPerGroup := by
      rw [hg.blockGroupCount_eq, ceilDiv_eq_pred_div (by omega) (by omega), Nat.add_sub_cancel]
    rw [lastGroupBlocks, ← hg.blocksPerGroup_eq, ← hindex, ← hfirst] at hcount
    omega

/-- The groups do not overlap. -/
theorem group_separate {i j : ℕ} (hij : i < j) (hj : j < blockGroupCount g.sb) :
    blockGroupStart g.sb i + blockGroupBlockCount g.sb i ≤ blockGroupStart g.sb j := by
  rw [hg.blockGroupStart_eq (by omega), hg.blockGroupStart_eq hj.le]
  have hmul := Nat.mul_le_mul_left g.sb.sBlocksPerGroup (Nat.succ_le_of_lt hij)
  rw [Nat.mul_succ] at hmul
  have hsize : blockGroupBlockCount g.sb i ≤ g.sb.sBlocksPerGroup := Nat.min_le_left _ _
  omega

/-- No group reaches behind the end of the partition, if the last one does not start there. -/
theorem group_stop_le {i : ℕ} (hi : i < blockGroupCount g.sb)
    (hlast : 0 < blockGroupBlockCount g.sb (blockGroupCount g.sb - 1)) :
    blockGroupStart g.sb i + blockGroupBlockCount g.sb i ≤ partitionBlocks g.bootSector := by
  have hcount := hg.blockGroupBlockCount_last
  have hfirst := hg.superBlockOf.firstDataBlock
  obtain ⟨hgroup, -⟩ := hg.numbers
  have hblocks := hg.dataBlock_lt_partitionBlocks
  have hindex : blockGroupCount g.sb - 1 =
      (partitionBlocks g.bootSector - 1) / g.sb.sBlocksPerGroup := by
    rw [hg.blockGroupCount_eq, ceilDiv_eq_pred_div (by omega) (by omega), Nat.add_sub_cancel]
  rw [lastGroupBlocks, ← hg.blocksPerGroup_eq, ← hindex, ← hfirst] at hcount
  have hend : blockGroupStart g.sb (blockGroupCount g.sb - 1) +
      blockGroupBlockCount g.sb (blockGroupCount g.sb - 1) = partitionBlocks g.bootSector := by
    rw [hg.blockGroupStart_eq (by omega)]
    omega
  rcases Nat.lt_or_ge i (blockGroupCount g.sb - 1) with hlt | hge
  · have := hg.group_separate hlt (by omega)
    omega
  · obtain rfl : i = blockGroupCount g.sb - 1 := by omega
    exact hend.le

end Accepted

/-- The layout that `init_ext4_sb` leaves is as intended exactly when the blocks behind the full
groups happen to hold the overhead of one more group and 50 blocks. -/
theorem groupLayout_iff (g : Globals) (hg : Accepted g) :
    GroupLayout g.sb ↔
      lastGroupNeeds g.bootSector g.metaInfo.clusterSize ≤
        lastGroupBlocks g.bootSector g.metaInfo.clusterSize := by
  constructor
  · intro h
    rw [← hg.lastGroupNeeds_eq, ← hg.blockGroupBlockCount_last]
    exact h.lastRoom
  · intro h
    rw [← hg.lastGroupNeeds_eq, ← hg.blockGroupBlockCount_last] at h
    have hlast : 0 < blockGroupBlockCount g.sb (blockGroupCount g.sb - 1) := by omega
    have hsizes : ∀ i < blockGroupCount g.sb,
        blockGroupOverhead g.sb i + 50 ≤ blockGroupBlockCount g.sb i := by
      intro i hi
      rcases Nat.lt_or_ge (i + 1) (blockGroupCount g.sb) with hlt | hge
      · obtain ⟨hlow, -⟩ := hg.numbers
        have hover := hg.blockGroupOverhead_le i
        rw [hg.blockGroupBlockCount_full hlt]
        omega
      · obtain rfl : i = blockGroupCount g.sb - 1 := by omega
        exact h
    refine ⟨?_, fun i j => hg.group_separate, ?_, h, ?_, ?_⟩
    · intro n
      rw [hg.blockCount_eq]
      constructor
      · rintro ⟨hlow, hhigh⟩
        exact hg.inGroup_of_lt hlast hlow hhigh
      · rintro ⟨i, hi, hstart, hstop⟩
        have hle := hg.group_stop_le hi hlast
        rw [hg.blockGroupStart_eq hi.le] at hstart
        exact ⟨by omega, by omega⟩
    · intro i hi
      have := hsizes i hi
      omega
    · intro i hi
      have := hsizes i hi
      omega
    · intro i hi
      have := hsizes i hi
      have hle := hg.group_stop_le hi hlast
      rw [hg.groupMetadataStop_eq, hg.blockCount_eq]
      omega

/-- Six groups, the last of which has room. -/
theorem groupLayout_sample :
    GroupLayout manyGroupsGlobals.sb ∧ blockGroupCount manyGroupsGlobals.sb = 6 :=
  ⟨(groupLayout_iff manyGroupsGlobals accepted_manyGroups).mpr (by decide), by decide⟩

/-- A remainder of 20 blocks is not dropped: it stays a group shorter than its own overhead. -/
theorem not_groupLayout_sample_16426 :
    Accepted (sampleGlobals 16426) ∧ ¬ GroupLayout (sampleGlobals 16426).sb := by
  refine ⟨accepted_sample_16426, fun h => ?_⟩
  have hroom := h.lastRoom
  revert hroom
  decide

end OfsConvert
