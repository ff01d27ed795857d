import OfsConvert.Geometry

/-!
# Clusters and blocks

A cluster has an address by its number and one by its ext4 block. The two are computed from
different fields of the boot sector; this file compares them for every boot sector that the
conversion accepts, whether or not it is that of a FAT32 volume.
-/

namespace OfsConvert

/-- The globals after `set_meta_info` and `init_ext4_sb` accepted a boot sector with clusters of a
power of two bytes and a data area that starts below 4 GiB. -/
structure AcceptedBootSector (g : Globals) : Prop where
  metaInfo : setMetaInfo g.bootSector g.metaInfo.fsStart = .ok g.metaInfo
  superBlock : initExt4Sb g.bootSector = .ok g.sb
  clusterSize : ∃ k, g.bootSector.bytesPerSector.toNat * g.bootSector.sectorsPerCluster.toNat = 2 ^ k
  dataOffset : reservedSectors g.bootSector * g.bootSector.bytesPerSector.toNat < 2 ^ 32

/-- The two maps from clusters to addresses agree, `e4blk_to_fat_cl` is the inverse of
`fat_cl_to_e4blk` and 0 for the blocks before the data area, and the clusters are the blocks behind
them. -/
structure MapsAgree (g : Globals) : Prop where
  address : ∀ c, 2 ≤ c → c < dataClusterCount g.bootSector g.metaInfo →
    blockStart g.metaInfo g.sb (fatClToE4blk g.bootSector g.metaInfo c) =
      clusterStart g.metaInfo c
  inverse : ∀ c, 2 ≤ c → c < dataClusterCount g.bootSector g.metaInfo →
    e4blkToFatCl g.bootSector g.metaInfo (fatClToE4blk g.bootSector g.metaInfo c) = c
  beforeData : ∀ b < blockCount g.sb,
    (e4blkToFatCl g.bootSector g.metaInfo b = 0 ↔ b < dataBlock g.bootSector)
  range : ∀ b, dataBlock g.bootSector ≤ b ∧ b < blockCount g.sb ↔
    ∃ c, 2 ≤ c ∧ c < dataClusterCount g.bootSector g.metaInfo ∧
      fatClToE4blk g.bootSector g.metaInfo c = b

/-- The data area does not start behind the end of the partition, and the clusters have 32-bit
numbers. -/
structure ClustersFit (b : BootSector) : Prop where
  nonempty : reservedSectors b ≤ sectorCount b
  numbers : (sectorCount b - reservedSectors b) / b.sectorsPerCluster.toNat + 2 < 2 ^ 32

namespace AcceptedBootSector

variable {g : Globals} (h : AcceptedBootSector g)
include h

/-- The block size, as a power of two. -/
theorem bytes_eq : ∃ k, 10 ≤ k ∧ k < 24 ∧
    g.bootSector.bytesPerSector.toNat * g.bootSector.sectorsPerCluster.toNat = 2 ^ k := by
  obtain ⟨k, hk⟩ := h.clusterSize
  have hlow := (initExt4Sb_fields h.superBlock).1
  have hsector := g.bootSector.bytesPerSector.toNat_lt
  have hcluster := g.bootSector.sectorsPerCluster.toNat_lt
  have hhigh : g.bootSector.bytesPerSector.toNat * g.bootSector.sectorsPerCluster.toNat < 2 ^ 24 := by
    calc g.bootSector.bytesPerSector.toNat * g.bootSector.sectorsPerCluster.toNat
        < 2 ^ 16 * 2 ^ 8 := Nat.mul_lt_mul'' hsector hcluster
      _ = 2 ^ 24 := by norm_num
  rw [hk] at hlow hhigh
  refine ⟨k, ?_, (Nat.pow_lt_pow_iff_right (by norm_num)).mp hhigh, hk⟩
  by_contra hsmall
  have hpow : 2 ^ k ≤ 2 ^ 9 := Nat.pow_le_pow_right (by norm_num) (by omega)
  omega

/-- Sectors and clusters have bytes. -/
theorem sectors_pos :
    0 < g.bootSector.bytesPerSector.toNat ∧ 0 < g.bootSector.sectorsPerCluster.toNat := by
  obtain ⟨k, -, -, hk⟩ := h.bytes_eq
  have hpos : 0 < 2 ^ k := by positivity
  rw [← hk] at hpos
  exact ⟨Nat.pos_of_mul_pos_right hpos, Nat.pos_of_mul_pos_left hpos⟩

/-- The sectors in front of the data area are counted in 32 bits. -/
theorem reserved_lt : reservedSectors g.bootSector < 2 ^ 32 :=
  (Nat.le_mul_of_pos_right _ h.sectors_pos.1).trans_lt h.dataOffset

/-- The fields of `meta_info` without their reductions. -/
theorem metaInfo_eq :
    reservedSectors g.bootSector % g.bootSector.sectorsPerCluster.toNat = 0 ∧
    g.metaInfo.clusterSize =
      g.bootSector.sectorsPerCluster.toNat * g.bootSector.bytesPerSector.toNat ∧
    g.metaInfo.sectorsBeforeData = reservedSectors g.bootSector ∧
    g.metaInfo.dataStart = g.metaInfo.fsStart +
      reservedSectors g.bootSector * g.bootSector.bytesPerSector.toNat := by
  have hlt := h.reserved_lt
  have hsum : u32 (g.bootSector.sectorsBeforeFat.toNat +
      u32 (g.bootSector.sectorsPerFat.toNat * g.bootSector.fatCount.toNat)) =
      reservedSectors g.bootSector := by
    unfold reservedSectors at hlt ⊢
    rw [u32_of_lt (n := _ * _) (by omega), u32_of_lt (by omega)]
  have hmeta := h.metaInfo
  simp only [setMetaInfo, hsum, u32_of_lt h.dataOffset] at hmeta
  split at hmeta
  · cases hmeta
  · rename_i haligned
    rw [Except.ok.injEq] at hmeta
    rw [← hmeta]
    exact ⟨not_not.mp haligned, rfl, rfl, rfl⟩

/-- The sectors in front of the data area are whole blocks. -/
theorem dataBlock_mul : dataBlock g.bootSector * g.bootSector.sectorsPerCluster.toNat =
    reservedSectors g.bootSector :=
  Nat.div_mul_cancel (Nat.dvd_of_mod_eq_zero h.metaInfo_eq.1)

/-- A block is a cluster. -/
theorem blockSize_eq : blockSize g.sb = g.metaInfo.clusterSize := by
  obtain ⟨k, hlow, hhigh, hk⟩ := h.bytes_eq
  have hlog := (initExt4Sb_fields h.superBlock).2.logBlockSize
  rw [hk, Nat.log2_two_pow, ext4BlockSizeMinLog2] at hlog
  have hlt : 2 ^ k < 2 ^ 32 := Nat.pow_lt_pow_right (by norm_num) (by omega)
  rw [blockSize, hlog, ext4BlockSizeMinLog2, Nat.sub_add_cancel hlow, Nat.shiftLeft_eq,
    Nat.one_mul, u32_of_lt hlt, h.metaInfo_eq.2.1, Nat.mul_comm, hk]

/-- The file system has the blocks of the partition. -/
theorem blockCount_eq : blockCount g.sb = partitionBlocks g.bootSector := by
  have hfields := (initExt4Sb_fields h.superBlock).2
  have hlt := sectorCount_lt g.bootSector
  have hle : partitionBlocks g.bootSector ≤ sectorCount g.bootSector := Nat.div_le_self _ _
  rw [Nat.mul_div_mul_left _ _ h.sectors_pos.1] at hfields
  rw [blockCount, hfields.countLo, hfields.countHi, ← partitionBlocks,
    fromLoHi_setLoHi64 (by omega)]

/-- One past the last cluster number. -/
theorem dataClusterCount_eq (hfit : ClustersFit g.bootSector) :
    dataBlock g.bootSector ≤ partitionBlocks g.bootSector ∧
      dataClusterCount g.bootSector g.metaInfo =
        partitionBlocks g.bootSector - dataBlock g.bootSector + 2 ∧
      dataClusterCount g.bootSector g.metaInfo < 2 ^ 32 := by
  have hclusters : (sectorCount g.bootSector - reservedSectors g.bootSector) /
      g.bootSector.sectorsPerCluster.toNat =
      partitionBlocks g.bootSector - dataBlock g.bootSector := by
    rw [← h.dataBlock_mul, partitionBlocks, Nat.mul_comm, Nat.sub_mul_div]
  have hnumbers := hfit.numbers
  have hcount : dataClusterCount g.bootSector g.metaInfo =
      partitionBlocks g.bootSector - dataBlock g.bootSector + 2 := by
    rw [dataClusterCount, h.metaInfo_eq.2.2.1, sub32_of_le hfit.nonempty (sectorCount_lt _),
      fatStartIndex, u32_of_lt hnumbers, hclusters]
  refine ⟨Nat.div_le_div_right hfit.nonempty, hcount, ?_⟩
  rw [hcount, ← hclusters]
  exact hnumbers

/-- The block of a cluster, without reductions. -/
theorem fatClToE4blk_eq (hfit : ClustersFit g.bootSector) {c : ℕ} (hlow : 2 ≤ c)
    (hhigh : c < dataClusterCount g.bootSector g.metaInfo) :
    fatClToE4blk g.bootSector g.metaInfo c = dataBlock g.bootSector + (c - 2) := by
  obtain ⟨hle, hcount, hlt⟩ := h.dataClusterCount_eq hfit
  have hblocks : partitionBlocks g.bootSector < 2 ^ 32 :=
    (Nat.div_le_self _ _).trans_lt (sectorCount_lt _)
  rw [fatClToE4blk, fatStartIndex, sub32_of_le hlow (by omega), h.metaInfo_eq.2.2.1, ← dataBlock,
    u32_of_lt (by omega), Nat.add_comm]

/-- The cluster of a block, without reductions. -/
theorem e4blkToFatCl_eq {b : ℕ} (hb : b - dataBlock g.bootSector + 2 < 2 ^ 32) :
    e4blkToFatCl g.bootSector g.metaInfo b =
      if b < dataBlock g.bootSector then 0 else b - dataBlock g.bootSector + 2 := by
  have hreserved : g.metaInfo.sectorsBeforeData / g.bootSector.sectorsPerCluster.toNat =
      dataBlock g.bootSector := by rw [h.metaInfo_eq.2.2.1, dataBlock]
  simp only [e4blkToFatCl, hreserved, fatStartIndex]
  split
  · rw [if_pos (by omega)]
  · rw [if_neg (by omega), u32_of_lt (by omega)]
    omega

end AcceptedBootSector

/-- For every accepted boot sector whose data area does not start behind the end of the partition
and whose clusters have 32-bit numbers, the two address maps agree. -/
theorem addressMaps_agree (g : Globals) (h : AcceptedBootSector g)
    (hfit : ClustersFit g.bootSector) : MapsAgree g := by
  obtain ⟨hle, hcount, hlt⟩ := h.dataClusterCount_eq hfit
  refine ⟨fun c hlow hhigh => ?_, fun c hlow hhigh => ?_, fun b hb => ?_, fun b => ?_⟩
  · rw [h.fatClToE4blk_eq hfit hlow hhigh, blockStart, clusterStart, fatStartIndex,
      sub32_of_le hlow (by omega), h.blockSize_eq, h.metaInfo_eq.2.2.2, Nat.add_mul, Nat.add_assoc]
    congr 2
    rw [h.metaInfo_eq.2.1, ← Nat.mul_assoc, h.dataBlock_mul]
  · rw [h.fatClToE4blk_eq hfit hlow hhigh, h.e4blkToFatCl_eq (by omega), if_neg (by omega)]
    omega
  · rw [h.blockCount_eq] at hb
    rw [h.e4blkToFatCl_eq (by omega)]
    split
    · exact iff_of_true rfl ‹_›
    · exact iff_of_false (by omega) ‹_›
  · rw [h.blockCount_eq]
    constructor
    · rintro ⟨hlow, hhigh⟩
      refine ⟨b - dataBlock g.bootSector + 2, by omega, by omega, ?_⟩
      rw [h.fatClToE4blk_eq hfit (by omega) (by omega)]
      omega
    · rintro ⟨c, hlow, hhigh, rfl⟩
      rw [h.fatClToE4blk_eq hfit hlow hhigh]
      omega

/-- A boot sector that counts fewer sectors than are in front of its data area: the clusters go on
behind the blocks. -/
theorem addressMaps_disagree : AcceptedBootSector (sampleGlobals 20) ∧ ¬ MapsAgree (sampleGlobals 20) := by
  refine ⟨⟨rfl, rfl, ⟨10, by decide⟩, by decide⟩, fun h => ?_⟩
  have hblock := (h.range _).mpr ⟨2, le_rfl, by decide, rfl⟩
  exact absurd hblock (by decide)

/-- The two address maps agree on a small volume. -/
theorem addressMaps_agree_sample : MapsAgree (sampleGlobals 400) :=
  addressMaps_agree (sampleGlobals 400) ⟨rfl, rfl, ⟨10, by decide⟩, by decide⟩
    ⟨by decide, by decide⟩

end OfsConvert
