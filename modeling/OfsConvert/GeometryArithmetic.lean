import OfsConvert.AddressMaps

/-!
# The widths of the geometry

The layout is computed in 16 and 32 bits. `GeometryExact` says that nothing wraps on the way; it
holds for the volumes with blocks of at most 32 KiB and a data area that starts below 4 GiB.
-/

namespace OfsConvert

/-- A boot sector that `set_meta_info` and `init_ext4_sb` accept, with the sizes that the FAT32
format allows and fewer than 2²⁸ data clusters. -/
structure FormattedBootSector (g : Globals) : Prop where
  sizes : SectorSizes g.bootSector
  metaInfo : setMetaInfo g.bootSector g.metaInfo.fsStart = .ok g.metaInfo
  superBlock : initExt4Sb g.bootSector = .ok g.sb
  fats : g.bootSector.fatCount.toNat ≤ 2
  clusters : (sectorCount g.bootSector - reservedSectors g.bootSector) /
    g.bootSector.sectorsPerCluster.toNat < 2 ^ 28

/-- The bytes of a cluster, as an integer. -/
def bytesPerBlock (b : BootSector) : ℕ := b.bytesPerSector.toNat * b.sectorsPerCluster.toNat

/-- The products, sums and narrowings that lead to the layout have their exact values. -/
structure GeometryExact (g : Globals) : Prop where
  bitsPerBlock : u32 (bytesPerBlock g.bootSector * 8) = bytesPerBlock g.bootSector * 8
  groupBytes : u32 (g.sb.sBlocksPerGroup * bytesPerBlock g.bootSector) =
    g.sb.sBlocksPerGroup * bytesPerBlock g.bootSector
  tableBytes : u32 (g.sb.sInodesPerGroup * g.sb.sInodeSize) =
    g.sb.sInodesPerGroup * g.sb.sInodeSize
  inodesCount : g.sb.sInodesCount = g.sb.sInodesPerGroup * blockGroupCount g.sb
  groupStart : ∀ i < blockGroupCount g.sb,
    blockGroupStart g.sb i = g.sb.sBlocksPerGroup * i + g.sb.sFirstDataBlock
  dataOffset : g.metaInfo.dataStart = g.metaInfo.fsStart +
    reservedSectors g.bootSector * g.bootSector.bytesPerSector.toNat
  metaLength : ∀ i < blockGroupCount g.sb, ∀ e,
    blockGroupMetaExtent g.bootSector g.metaInfo g.sb i = .ok e →
      e.length = if e4blkToFatCl g.bootSector g.metaInfo (blockGroupStart g.sb i) ≠ 0 then
          blockGroupOverhead g.sb i
        else blockGroupStart g.sb i + blockGroupOverhead g.sb i - dataBlock g.bootSector
  recLen : u16 (blockSize g.sb) = blockSize g.sb

/-- The number of inodes of a volume, for the six block sizes up to 32 KiB. -/
theorem groupInodes_mul_lt {k n : ℕ} (hk : k ≤ 5) (hn : n < 2 ^ 29) :
    groupInodes (2 ^ (10 + k)) * ceilDiv n (groupBlocks (2 ^ (10 + k))) < 2 ^ 32 := by
  have hsizes : ∀ j ≤ 5, groupInodes (2 ^ (10 + j)) * 16384 ≤
      groupBlocks (2 ^ (10 + j)) * 2 ^ 15 ∧ 8192 ≤ groupBlocks (2 ^ (10 + j)) ∧
      groupBlocks (2 ^ (10 + j)) ≤ 65528 := by decide
  obtain ⟨hinodes, hlow, hhigh⟩ := hsizes k hk
  have hquot := Nat.div_mul_le_self (n + groupBlocks (2 ^ (10 + k)) - 1)
    (groupBlocks (2 ^ (10 + k)))
  have hcover : ceilDiv n (groupBlocks (2 ^ (10 + k))) * groupBlocks (2 ^ (10 + k)) <
      2 ^ 30 := by
    rw [ceilDiv]
    omega
  generalize groupInodes (2 ^ (10 + k)) = inodes at *
  generalize groupBlocks (2 ^ (10 + k)) = blocks at *
  have hscaled : inodes * ceilDiv n blocks * 16384 ≤ ceilDiv n blocks * blocks * 2 ^ 15 := by
    calc inodes * ceilDiv n blocks * 16384 = inodes * 16384 * ceilDiv n blocks := by ring
      _ ≤ blocks * 2 ^ 15 * ceilDiv n blocks := Nat.mul_le_mul_right _ hinodes
      _ = ceilDiv n blocks * blocks * 2 ^ 15 := by ring
  omega

namespace FormattedBootSector

variable {g : Globals} (h : FormattedBootSector g)
include h

/-- A block has a power of two of bytes, between 1 KiB and 512 KiB. -/
theorem bytes_eq : ∃ k ≤ 9, bytesPerBlock g.bootSector = 2 ^ (10 + k) := by
  obtain ⟨i, hi, hsector⟩ := h.sizes.sectorBytes
  obtain ⟨j, hj, hcluster⟩ := h.sizes.clusterSectors
  have hbytes := (initExt4Sb_fields h.superBlock).1
  rw [bytesPerBlock]
  rw [hsector, hcluster, ← Nat.pow_add] at hbytes ⊢
  have hexp : 10 ≤ 9 + i + j := by
    by_contra hlt
    have hpow : 2 ^ (9 + i + j) < 2 ^ 10 := Nat.pow_lt_pow_right (by norm_num) (by omega)
    omega
  exact ⟨i + j - 1, by omega, by congr 1; omega⟩

/-- The block size of the super block is the one of the boot sector. -/
theorem blockSize_eq : blockSize g.sb = bytesPerBlock g.bootSector := by
  obtain ⟨k, hk, hbytes⟩ := h.bytes_eq
  have hlog := (initExt4Sb_fields h.superBlock).2.logBlockSize
  rw [← bytesPerBlock, hbytes, Nat.log2_two_pow, ext4BlockSizeMinLog2, Nat.add_sub_cancel_left]
    at hlog
  have hlt : 2 ^ (10 + k) < 2 ^ 32 := Nat.pow_lt_pow_right (by norm_num) (by omega)
  rw [blockSize, hlog, ext4BlockSizeMinLog2, Nat.shiftLeft_eq, Nat.one_mul, Nat.add_comm,
    u32_of_lt hlt, hbytes]

/-- A data area below 4 GiB makes the boot sector one with exact addresses. -/
theorem accepted (hoffset : reservedSectors g.bootSector * g.bootSector.bytesPerSector.toNat <
    2 ^ 32) : AcceptedBootSector g := by
  obtain ⟨k, -, hbytes⟩ := h.bytes_eq
  exact ⟨h.metaInfo, h.superBlock, ⟨10 + k, hbytes⟩, hoffset⟩

/-- The partition has fewer than 2²⁹ blocks. -/
theorem partitionBlocks_lt (hoffset : reservedSectors g.bootSector *
    g.bootSector.bytesPerSector.toNat < 2 ^ 32) : partitionBlocks g.bootSector < 2 ^ 29 := by
  obtain ⟨i, -, hsector⟩ := h.sizes.sectorBytes
  have hpow : 2 ^ 9 ≤ 2 ^ (9 + i) := Nat.pow_le_pow_right (by norm_num) (by omega)
  have hmul := Nat.mul_le_mul_left (reservedSectors g.bootSector) (hsector ▸ hpow)
  have hdata : dataBlock g.bootSector ≤ reservedSectors g.bootSector := Nat.div_le_self _ _
  have hclusters := h.clusters
  have hsplit : (sectorCount g.bootSector - reservedSectors g.bootSector) /
      g.bootSector.sectorsPerCluster.toNat =
      partitionBlocks g.bootSector - dataBlock g.bootSector := by
    rw [← (h.accepted hoffset).dataBlock_mul, partitionBlocks, Nat.mul_comm, Nat.sub_mul_div]
  omega

/-- The fields of the super block, for blocks of at most 32 KiB. -/
theorem superBlock_eq (hsmall : bytesPerBlock g.bootSector ≤ 2 ^ 15) :
    g.sb.sBlocksPerGroup = groupBlocks (bytesPerBlock g.bootSector) ∧
      g.sb.sInodesPerGroup = groupInodes (bytesPerBlock g.bootSector) ∧
      g.sb.sInodeSize = ext4InodeSize ∧
      blockCount g.sb = partitionBlocks g.bootSector ∧
      blockGroupCount g.sb = ceilDiv (partitionBlocks g.bootSector) g.sb.sBlocksPerGroup := by
  have hfields := (initExt4Sb_fields h.superBlock).2
  obtain ⟨i, hi, hsector⟩ := h.sizes.sectorBytes
  have hpos : 0 < g.bootSector.bytesPerSector.toNat := by rw [hsector]; positivity
  have hlt := sectorCount_lt g.bootSector
  have hle : partitionBlocks g.bootSector ≤ sectorCount g.bootSector := Nat.div_le_self _ _
  rw [← bytesPerBlock] at hfields
  have hcount : g.bootSector.bytesPerSector.toNat * sectorCount g.bootSector /
      bytesPerBlock g.bootSector = partitionBlocks g.bootSector :=
    Nat.mul_div_mul_left _ _ hpos
  rw [hcount] at hfields
  have hgroup : g.sb.sBlocksPerGroup = groupBlocks (bytesPerBlock g.bootSector) := by
    rw [hfields.blocksPerGroup, u32_of_lt (by omega), groupBlocks, Nat.mul_comm]
  have hblocks : blockCount g.sb = partitionBlocks g.bootSector := by
    rw [blockCount, hfields.countLo, hfields.countHi, fromLoHi_setLoHi64 (by omega)]
  obtain ⟨k, hk, hbytes⟩ := h.bytes_eq
  obtain ⟨hlow, -, hhigh, -⟩ := groupNumbers hk
  rw [← hbytes, ← hgroup] at hlow hhigh
  have hquot : ceilDiv (partitionBlocks g.bootSector) g.sb.sBlocksPerGroup < 2 ^ 32 := by
    have hdiv : ceilDiv (partitionBlocks g.bootSector) g.sb.sBlocksPerGroup ≤
        (partitionBlocks g.bootSector + g.sb.sBlocksPerGroup - 1) / 8192 :=
      Nat.div_le_div_left hlow (by norm_num)
    omega
  refine ⟨hgroup, ?_, hfields.inodeSize, hblocks, ?_⟩
  · rw [hfields.inodesPerGroup, hgroup, groupInodes, u32_of_lt (n := _ * 8) (by omega),
      Nat.mul_comm 8]
  · rw [blockGroupCount, hblocks, ceildiv64_eq (by omega) (by omega) hquot]

/-- The overhead of a group fits into 16 bits wherever an extent is made of it. -/
theorem metaLength_eq (hoffset : reservedSectors g.bootSector *
    g.bootSector.bytesPerSector.toNat < 2 ^ 32) {i : ℕ} {e : FatExtent}
    (hstart : blockGroupStart g.sb i < 2 ^ 30)
    (he : blockGroupMetaExtent g.bootSector g.metaInfo g.sb i = .ok e) :
    e.length = if e4blkToFatCl g.bootSector g.metaInfo (blockGroupStart g.sb i) ≠ 0 then
        blockGroupOverhead g.sb i
      else blockGroupStart g.sb i + blockGroupOverhead g.sb i - dataBlock g.bootSector := by
  have haccepted := h.accepted hoffset
  rw [blockGroupMetaExtent] at he
  split at he
  · cases he
  · rename_i hoverhead
    have hfirst := haccepted.e4blkToFatCl_eq (b := blockGroupStart g.sb i) (by omega)
    have hlast := haccepted.e4blkToFatCl_eq
      (b := blockGroupStart g.sb i + blockGroupOverhead g.sb i) (by omega)
    dsimp only at he
    by_cases hin : e4blkToFatCl g.bootSector g.metaInfo (blockGroupStart g.sb i) ≠ 0
    · rw [if_pos hin, Except.ok.injEq] at he
      rw [if_pos hin, ← he]
      exact u16_of_lt (by omega)
    · rw [if_neg hin] at he
      rw [if_neg hin]
      have hbefore : blockGroupStart g.sb i < dataBlock g.bootSector := by
        by_contra hge
        rw [hfirst, if_neg hge] at hin
        omega
      split at he
      · rename_i hend
        rw [Except.ok.injEq] at he
        have hbehind : ¬ blockGroupStart g.sb i + blockGroupOverhead g.sb i <
            dataBlock g.bootSector := by
          intro hlt
          rw [hlast, if_pos hlt] at hend
          exact hend rfl
        rw [← he]
        dsimp only
        rw [hlast, if_neg hbehind, fatStartIndex, sub32_of_le (by omega) (by omega),
          u16_of_lt (by omega)]
        omega
      · rename_i hend
        rw [Except.ok.injEq] at he
        rw [← he]
        have hlt : blockGroupStart g.sb i + blockGroupOverhead g.sb i <
            dataBlock g.bootSector := by
          by_contra hge
          rw [hlast, if_neg hge] at hend
          omega
        dsimp only
        omega

end FormattedBootSector

/-- The layout of an accepted boot sector is computed without wrapping if and only if its blocks
have at most 32 KiB and its data area starts below 4 GiB. -/
theorem geometry_exact_iff (g : Globals) (h : FormattedBootSector g) :
    GeometryExact g ↔ bytesPerBlock g.bootSector ≤ 2 ^ 15 ∧
      reservedSectors g.bootSector * g.bootSector.bytesPerSector.toNat < 2 ^ 32 := by
  obtain ⟨k, hk, hbytes⟩ := h.bytes_eq
  constructor
  · intro hexact
    constructor
    · have hrec := hexact.recLen
      have hlt : blockSize g.sb < 2 ^ 16 := by
        rw [← hrec]
        exact u16_lt _
      rw [h.blockSize_eq, hbytes] at hlt
      rw [hbytes]
      exact Nat.pow_le_pow_right (by norm_num)
        (Nat.le_of_lt_succ ((Nat.pow_lt_pow_iff_right (by norm_num)).mp hlt))
    · have hmeta := h.metaInfo
      have hdata := hexact.dataOffset
      simp only [setMetaInfo] at hmeta
      split at hmeta
      · cases hmeta
      · rw [Except.ok.injEq] at hmeta
        rw [← hmeta] at hdata
        rw [← Nat.add_left_cancel hdata]
        exact u32_lt _
  · rintro ⟨hsmall, hoffset⟩
    have haccepted := h.accepted hoffset
    have hpartition := h.partitionBlocks_lt hoffset
    obtain ⟨hgroup, hinodes, hsize, hblocks, hcount⟩ := h.superBlock_eq hsmall
    obtain ⟨hlow, hhigh, hgroups, -, hinodesLe, -⟩ := groupNumbers hk
    rw [← hbytes, ← hgroup] at hlow hhigh hgroups
    rw [← hbytes, ← hinodes] at hinodesLe
    have hfields := (initExt4Sb_fields h.superBlock).2
    have hfirst : g.sb.sFirstDataBlock ≤ 1 := by
      rw [hfields.firstDataBlock]
      split <;> omega
    have hmul : ∀ i < blockGroupCount g.sb,
        g.sb.sBlocksPerGroup * i < partitionBlocks g.bootSector := by
      intro i hi
      rw [hcount] at hi
      have hpos : 0 < partitionBlocks g.bootSector := by
        by_contra hzero
        have hnone : ceilDiv (partitionBlocks g.bootSector) g.sb.sBlocksPerGroup = 0 := by
          rw [Nat.eq_zero_of_not_pos hzero, ceilDiv]
          exact Nat.div_eq_of_lt (by omega)
        omega
      have hpred := ceilDiv_pred_mul_lt (b := g.sb.sBlocksPerGroup) hpos (by omega)
      have hle := Nat.mul_le_mul_right g.sb.sBlocksPerGroup (Nat.le_sub_one_of_lt hi)
      rw [Nat.mul_comm]
      omega
    have hstart : ∀ i < blockGroupCount g.sb,
        blockGroupStart g.sb i = g.sb.sBlocksPerGroup * i + g.sb.sFirstDataBlock := by
      intro i hi
      have hlt := hmul i hi
      rw [blockGroupStart, u32_of_lt (by omega)]
    refine ⟨u32_of_lt (by omega), ?_, ?_, ?_, hstart, haccepted.metaInfo_eq.2.2.2,
      fun i hi e he => ?_, ?_⟩
    · have hle : g.sb.sBlocksPerGroup * bytesPerBlock g.bootSector ≤ 65528 * 2 ^ 15 :=
        Nat.mul_le_mul hgroups hsmall
      exact u32_of_lt (by omega)
    · rw [hsize, ext4InodeSize]
      exact u32_of_lt (by omega)
    · have hinodes' : g.sb.sInodesPerGroup * blockGroupCount g.sb < 2 ^ 32 := by
        have hk' : k ≤ 5 := by
          rw [hbytes] at hsmall
          have hexp := (Nat.pow_le_pow_iff_right (by norm_num)).mp hsmall
          omega
        rw [hcount, hinodes, hgroup, hbytes]
        exact groupInodes_mul_lt hk' hpartition
      rw [hfields.inodesCount, u32_of_lt hinodes']
    · refine h.metaLength_eq hoffset ?_ he
      have hlt := hmul i hi
      rw [hstart i hi]
      omega
    · rw [h.blockSize_eq]
      exact u16_of_lt (by omega)

/-- The boot sector of a volume with clusters of 512 KiB. -/
def hugeClusterBootSector : BootSector where
  bytesPerSector := 4096
  sectorsPerCluster := 128
  sectorsBeforeFat := 126
  fatCount := 2
  sectorCount := 25600
  totalSectors2 := 0
  sectorsPerFat := 1
  rootClusterNo := 2

/-- The globals computed from that boot sector. -/
def hugeClusterGlobals : Globals where
  bootSector := hugeClusterBootSector
  metaInfo := (setMetaInfo hugeClusterBootSector 65536).toOption.getD default
  sb := (initExt4Sb hugeClusterBootSector).toOption.getD {}

/-- With clusters of 512 KiB a directory entry that fills a block has a `rec_len` of 0, and the
product behind the inode count wraps. -/
theorem geometry_wraps : Accepted hugeClusterGlobals ∧ FormattedBootSector hugeClusterGlobals ∧
    ¬ GeometryExact hugeClusterGlobals ∧ u16 (blockSize hugeClusterGlobals.sb) = 0 ∧
    u32 (hugeClusterGlobals.sb.sBlocksPerGroup * bytesPerBlock hugeClusterBootSector) ≠
      hugeClusterGlobals.sb.sBlocksPerGroup * bytesPerBlock hugeClusterBootSector := by
  refine ⟨⟨⟨⟨⟨3, by decide⟩, ⟨7, by decide⟩⟩, by decide, by decide, by decide, by decide, by decide,
    by decide, by decide⟩, rfl, rfl⟩, ⟨⟨⟨3, by decide⟩, ⟨7, by decide⟩⟩, rfl, rfl, by decide,
    by decide⟩, fun hexact => ?_, by decide, by decide⟩
  exact absurd hexact.recLen (by decide)

/-- The exact condition for a small volume. -/
theorem geometry_exact_iff_sample :
    GeometryExact (sampleGlobals 400) ↔ bytesPerBlock (sampleGlobals 400).bootSector ≤ 2 ^ 15 ∧
      reservedSectors (sampleGlobals 400).bootSector *
        (sampleGlobals 400).bootSector.bytesPerSector.toNat < 2 ^ 32 :=
  geometry_exact_iff (sampleGlobals 400)
    ⟨⟨⟨0, by decide⟩, ⟨1, by decide⟩⟩, rfl, rfl, by decide, by decide⟩

end OfsConvert
