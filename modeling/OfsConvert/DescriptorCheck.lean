import OfsConvert.Lib.FieldLayout
import OfsConvert.VolumeCheck

/-!
# Checking the descriptors and the super block

The descriptors that are on the volume, in every group that has copies of them, name the bitmaps
and the inode table of each group and count what these hold. The free counts of the super block are
the sums over the groups as long as they have room for them.
-/

namespace OfsConvert

/-- The fields of a descriptor with their widths; the conversion leaves the others 0. -/
def Ext4GroupDesc.fields (bg : Ext4GroupDesc) : List (ℕ × ℕ) :=
  [(4, bg.bgBlockBitmapLo), (4, bg.bgInodeBitmapLo), (4, bg.bgInodeTableLo),
    (2, bg.bgFreeBlocksCountLo), (2, bg.bgFreeInodesCountLo), (2, bg.bgUsedDirsCountLo), (14, 0),
    (4, bg.bgBlockBitmapHi), (4, bg.bgInodeBitmapHi), (4, bg.bgInodeTableHi),
    (2, bg.bgFreeBlocksCountHi), (2, bg.bgFreeInodesCountHi), (2, bg.bgUsedDirsCountHi), (14, 0)]

/-- Decode the descriptor at an address. -/
def groupDescAt (m : Mem) (p : ℕ) : Ext4GroupDesc where
  bgBlockBitmapLo := m.readLE p 4
  bgInodeBitmapLo := m.readLE (p + 4) 4
  bgInodeTableLo := m.readLE (p + 8) 4
  bgFreeBlocksCountLo := m.readLE (p + 12) 2
  bgFreeInodesCountLo := m.readLE (p + 14) 2
  bgUsedDirsCountLo := m.readLE (p + 16) 2
  bgBlockBitmapHi := m.readLE (p + 32) 4
  bgInodeBitmapHi := m.readLE (p + 36) 4
  bgInodeTableHi := m.readLE (p + 40) 4
  bgFreeBlocksCountHi := m.readLE (p + 44) 2
  bgFreeInodesCountHi := m.readLE (p + 46) 2
  bgUsedDirsCountHi := m.readLE (p + 48) 2

/-- The address of a descriptor in the copy that a group holds. -/
def descAddr (g : Globals) (copy i : ℕ) : ℕ :=
  blockStart g.metaInfo g.sb (blockGroupStart g.sb copy + 1) + 64 * i

/-- The descriptors are right in every copy. -/
def DescriptorsClean (g : Globals) (m : Mem) : Prop :=
  ∀ copy ∈ copyGroups g.sb, ∀ i < blockGroupCount g.sb,
    PlacedDesc g i (groupDescAt m (descAddr g copy i)) ∧
      GroupAccount g i (groupDescAt m (descAddr g copy i)) m

/-- The zero bits of all block bitmaps and of all inode bitmaps. -/
def freeBlocksTotal (g : Globals) (m : Mem) : ℕ :=
  ((List.range (blockGroupCount g.sb)).map fun i =>
    zeroBits m (blockBitmapAddr g i) (8 * blockSize g.sb)).sum

/-- The free inodes of all descriptors together. -/
def freeInodesTotal (g : Globals) (m : Mem) : ℕ :=
  ((List.range (blockGroupCount g.sb)).map fun i =>
    zeroBits m (inodeBitmapAddr g i) g.sb.sInodesPerGroup).sum

/-- The copies hold a super block that differs in its free counts only, and these are the totals if
the groups are few and small enough. -/
def SuperBlockClean (g : Globals) (env : Env) (m : Mem) : Prop :=
  ∃ sb, SameLayout g.sb sb ∧
    (∀ copy ∈ copyGroups g.sb,
      m.read (blockStart g.metaInfo g.sb (blockGroupStart g.sb copy) + sbOffset g.sb copy)
        sizeofSuperBlock = (List.range sizeofSuperBlock).map (env.sbByte sb copy)) ∧
    (blockGroupCount g.sb < 2 ^ 16 → g.sb.sInodesPerGroup < 2 ^ 16 →
      sb.sFreeInodesCount = freeInodesTotal g m ∧
        fromLoHi sb.sFreeBlocksCountLo sb.sFreeBlocksCountHi = freeBlocksTotal g m)

section Decode

variable {m : Mem} {p : ℕ} {bg : Ext4GroupDesc}

/-- A descriptor is a packed record. -/
theorem Ext4GroupDesc.bytes_eq (bg : Ext4GroupDesc) : bg.bytes = encodeFields bg.fields := by
  simp [bytes, encodeFields, fields]

/-- Decoding the bytes of a descriptor gives it back. -/
theorem groupDescAt_eq (h : bg.Halves) (hread : m.read p 64 = bg.bytes) :
    groupDescAt m p = bg := by
  have hlength := bg.length_bytes
  rw [bg.bytes_eq] at hread hlength
  rw [← hlength] at hread
  have hblockLo : m.readLE (p + 0) 4 = bg.bgBlockBitmapLo :=
    readLE_field hread 0 rfl (by simp [fieldOffset, Ext4GroupDesc.fields]) h.blockBitmap.1
  have hinodeLo : m.readLE (p + 4) 4 = bg.bgInodeBitmapLo :=
    readLE_field hread 1 rfl (by simp [fieldOffset, Ext4GroupDesc.fields]) h.inodeBitmap.1
  have htableLo : m.readLE (p + 8) 4 = bg.bgInodeTableLo :=
    readLE_field hread 2 rfl (by simp [fieldOffset, Ext4GroupDesc.fields]) h.inodeTable.1
  have hfreeLo : m.readLE (p + 12) 2 = bg.bgFreeBlocksCountLo :=
    readLE_field hread 3 rfl (by simp [fieldOffset, Ext4GroupDesc.fields]) h.freeBlocks.1
  have hinodesLo : m.readLE (p + 14) 2 = bg.bgFreeInodesCountLo :=
    readLE_field hread 4 rfl (by simp [fieldOffset, Ext4GroupDesc.fields]) h.freeInodes.1
  have hdirsLo : m.readLE (p + 16) 2 = bg.bgUsedDirsCountLo :=
    readLE_field hread 5 rfl (by simp [fieldOffset, Ext4GroupDesc.fields]) h.usedDirs.1
  have hblockHi : m.readLE (p + 32) 4 = bg.bgBlockBitmapHi :=
    readLE_field hread 7 rfl (by simp [fieldOffset, Ext4GroupDesc.fields]) h.blockBitmap.2
  have hinodeHi : m.readLE (p + 36) 4 = bg.bgInodeBitmapHi :=
    readLE_field hread 8 rfl (by simp [fieldOffset, Ext4GroupDesc.fields]) h.inodeBitmap.2
  have htableHi : m.readLE (p + 40) 4 = bg.bgInodeTableHi :=
    readLE_field hread 9 rfl (by simp [fieldOffset, Ext4GroupDesc.fields]) h.inodeTable.2
  have hfreeHi : m.readLE (p + 44) 2 = bg.bgFreeBlocksCountHi :=
    readLE_field hread 10 rfl (by simp [fieldOffset, Ext4GroupDesc.fields]) h.freeBlocks.2
  have hinodesHi : m.readLE (p + 46) 2 = bg.bgFreeInodesCountHi :=
    readLE_field hread 11 rfl (by simp [fieldOffset, Ext4GroupDesc.fields]) h.freeInodes.2
  have hdirsHi : m.readLE (p + 48) 2 = bg.bgUsedDirsCountHi :=
    readLE_field hread 12 rfl (by simp [fieldOffset, Ext4GroupDesc.fields]) h.usedDirs.2
  rw [Nat.add_zero] at hblockLo
  rw [groupDescAt, hblockLo, hinodeLo, htableLo, hfreeLo, hinodesLo, hdirsLo, hblockHi, hinodeHi,
    htableHi, hfreeHi, hinodesHi, hdirsHi]

/-- A copy of the descriptors holds each of them. -/
theorem HoldsCopy.groupDescAt_eq {g : Globals} {env : Env} {sb : Ext4SuperBlock}
    {descs : List Ext4GroupDesc} {copy i : ℕ} (h : HoldsCopy g env sb descs copy m)
    (hi : i < descs.length) (hhalves : descs[i].Halves) :
    groupDescAt m (descAddr g copy i) = descs[i] := by
  apply OfsConvert.groupDescAt_eq hhalves
  have hpiece := take_drop_flatMap (fun bg _ => Ext4GroupDesc.length_bytes bg) hi
  rw [← h.descs, Mem.read_drop_take _ _ _ _ _ (by omega)] at hpiece
  exact hpiece

end Decode

section Volume

variable {g : Globals} (hg : Accepted g) {env : Env} {m₀ : Mem} {base t : State} {F : List ℕ}
  {rootExtents : List FatExtent} {records : Forest Record}

/-- A bitmap whose bits are set from one on has no zero bits behind it. -/
theorem zeroBits_le_of_set {m : Mem} {a k n : ℕ}
    (hset : ∀ i, k ≤ i → i < n → bitAt m a i = true) : zeroBits m a n ≤ k := by
  have hsub : {i ∈ Finset.range n | bitAt m a i = false} ⊆ Finset.range k := by
    intro i hi
    obtain ⟨hin, hbit⟩ := Finset.mem_filter.mp hi
    rw [Finset.mem_range] at hin ⊢
    by_contra hbehind
    rw [hset i (by omega) hin] at hbit
    cases hbit
  exact (Finset.card_le_card hsub).trans (Finset.card_range k).le

/-- The sum over the groups of a count that each descriptor keeps. -/
theorem sum_groups {descs : List Ext4GroupDesc} {count : ℕ} (hlength : descs.length = count)
    {f : Ext4GroupDesc → ℕ} {f' : ℕ → ℕ} (h : ∀ i bg, descs[i]? = some bg → f bg = f' i) :
    (descs.map f).sum = ((List.range count).map f').sum := by
  congr 1
  apply List.ext_getElem
  · simp [hlength]
  · intro i hi hi'
    rw [List.length_map] at hi
    rw [List.getElem_map, List.getElem_map, List.getElem_range]
    exact h i _ (List.getElem?_eq_getElem hi)

/-- Counts that are halves fit their fields. -/
theorem Ext4GroupDesc.Halves.typed {bg : Ext4GroupDesc} (h : bg.Halves) : bg.Typed :=
  ⟨h.freeInodes.1, h.freeInodes.2, h.freeBlocks.1, h.freeBlocks.2⟩

/-- A pair of halves whose value has 16 bits is its low half, whatever joins them. -/
theorem fromLoHi_of_lt {lo hi : ℕ} (hlo : lo < 2 ^ 16) (h : fromLoHi16 lo hi < 2 ^ 16) :
    fromLoHi lo hi = fromLoHi16 lo hi ∧ lo = fromLoHi16 lo hi := by
  rw [fromLoHi16_eq hlo] at h ⊢
  rw [fromLoHi_eq (by omega)]
  omega

include hg in
/-- The super block counts what the bitmaps have left, when the groups are few and small enough for
the loop and for the way it joins the halves. -/
theorem freeCounts_eq {descs : List Ext4GroupDesc} {fuel : ℕ} {sb : Ext4SuperBlock}
    {visited : List ℕ} {m : Mem} (hlength : descs.length = blockGroupCount g.sb)
    (haccounts : ∀ i bg, descs[i]? = some bg → GroupAccount g i bg m)
    (hgroups : blockGroupCount g.sb < 2 ^ 16) (hinodes : g.sb.sInodesPerGroup < 2 ^ 16)
    (h : finalizeFreeCounts descs fuel g.sb = some (sb, visited)) :
    sb.sFreeInodesCount = freeInodesTotal g m ∧
      fromLoHi sb.sFreeBlocksCountLo sb.sFreeBlocksCountHi = freeBlocksTotal g m := by
  have haccount : ∀ bg ∈ descs, ∃ i, GroupAccount g i bg m := by
    intro bg hbg
    obtain ⟨i, hi, rfl⟩ := List.getElem_of_mem hbg
    exact ⟨i, haccounts i _ (List.getElem?_eq_getElem hi)⟩
  have hfew : ∀ bg ∈ descs, fromLoHi16 bg.bgFreeInodesCountLo bg.bgFreeInodesCountHi < 2 ^ 16 ∧
      fromLoHi16 bg.bgFreeBlocksCountLo bg.bgFreeBlocksCountHi < 2 ^ 16 := by
    intro bg hbg
    obtain ⟨i, hi⟩ := haccount bg hbg
    obtain ⟨-, -, hblocks, -⟩ := hg.numbers
    have hcount : blockGroupBlockCount g.sb i ≤ g.sb.sBlocksPerGroup := min_le_left _ _
    rw [hi.freeInodes, hi.freeBlocks]
    have hzero := zeroBits_le m (inodeBitmapAddr g i) g.sb.sInodesPerGroup
    have hzero' := zeroBits_le_of_set hi.behindBlocks
    omega
  have htyped : ∀ bg ∈ descs, bg.Typed := fun bg hbg =>
    (haccount bg hbg).choose_spec.halves.typed
  have hrun := freeCountsLoop_eq [] descs (by simpa [hlength] using hgroups) fuel g.sb []
  rw [List.nil_append, hlength] at hrun
  rw [finalizeFreeCounts, ← List.length_nil (α := Ext4GroupDesc), hrun] at h
  have hsum : (descs.map fun bg => bg.bgFreeInodesCountLo).sum = freeInodesTotal g m := by
    refine sum_groups hlength fun i bg hbg => ?_
    have hacc := haccounts i bg hbg
    have hmem := List.mem_of_getElem? hbg
    rw [← hacc.freeInodes]
    exact (fromLoHi_of_lt hacc.halves.freeInodes.1 (hfew bg hmem).1).2
  have hsum' : (descs.map fun bg =>
      fromLoHi bg.bgFreeBlocksCountLo bg.bgFreeBlocksCountHi).sum = freeBlocksTotal g m := by
    refine sum_groups hlength fun i bg hbg => ?_
    have hacc := haccounts i bg hbg
    have hmem := List.mem_of_getElem? hbg
    rw [← hacc.freeBlocks]
    exact (fromLoHi_of_lt hacc.halves.freeBlocks.1 (hfew bg hmem).2).1
  have hbound : freeInodesTotal g m ≤ blockGroupCount g.sb * g.sb.sInodesPerGroup := by
    have hle := List.sum_le_card_nsmul
      ((List.range (blockGroupCount g.sb)).map fun i =>
        zeroBits m (inodeBitmapAddr g i) g.sb.sInodesPerGroup) g.sb.sInodesPerGroup (by
      simp only [List.mem_map]
      rintro _ ⟨i, -, rfl⟩
      exact zeroBits_le _ _ _)
    simpa [freeInodesTotal] using hle
  have hbound' : freeBlocksTotal g m ≤ blockGroupCount g.sb * 2 ^ 16 := by
    rw [← hsum', ← hlength]
    have hle := List.sum_le_card_nsmul (descs.map fun bg =>
        fromLoHi bg.bgFreeBlocksCountLo bg.bgFreeBlocksCountHi) (2 ^ 16) (by
      simp only [List.mem_map]
      rintro _ ⟨bg, hbg, rfl⟩
      rw [(fromLoHi_of_lt (htyped bg hbg).freeBlocksLo (hfew bg hbg).2).1]
      exact (hfew bg hbg).2.le)
    simpa using hle
  have hfields := hg.superBlockOf
  have htotal := hg.inodes_le
  have hinodesRun := foldl_addFreeCounts_inodes descs g.sb htyped (by
    rw [hfields.freeInodes]
    norm_num)
  have hblocksRun := foldl_addFreeCounts_blocks descs g.sb
    (by rw [hfields.freeBlocksLo]; norm_num) (by rw [hfields.freeBlocksHi]; norm_num)
  split at h
  · obtain ⟨rfl, -⟩ := Prod.mk.inj (Option.some.inj h)
    rw [hinodesRun, hblocksRun, hsum, hsum', hfields.freeInodes, hfields.freeBlocksLo,
      hfields.freeBlocksHi, Nat.zero_add, u32_of_lt (by omega), show fromLoHi 0 0 = 0 from rfl,
      Nat.zero_add, u64_of_lt (by omega)]
    exact ⟨rfl, rfl⟩
  · cases h

/-- A checker finds the descriptors right. -/
theorem Converted.descriptorsClean (h : Converted g env m₀ base F rootExtents records t)
    (hfit : GroupsFit g) : DescriptorsClean g t.mem := by
  intro copy hcopy i hi
  obtain ⟨sb, fuel, visited, -, hcopies⟩ := h.copies
  have hplaced := h.building.inv.placed
  have hlt : i < t.ext4.groupDescs.length := hplaced.length ▸ hi
  have haccount := (h.ledger hfit).groups i _ (List.getElem?_eq_getElem hlt)
  rw [(hcopies copy hcopy).groupDescAt_eq hlt haccount.halves]
  exact ⟨hplaced.desc i _ (List.getElem?_eq_getElem hlt), haccount⟩

include hg in
/-- A checker finds the super block right. -/
theorem Converted.superBlockClean (h : Converted g env m₀ base F rootExtents records t)
    (hfit : GroupsFit g) : SuperBlockClean g env t.mem := by
  obtain ⟨sb, fuel, visited, hcounts, hcopies⟩ := h.copies
  exact ⟨sb, freeCountsLoop_sameLayout hcounts, fun copy hcopy => (hcopies copy hcopy).superBlock,
    fun hgroups hinodes => freeCounts_eq hg h.building.inv.placed.length (h.ledger hfit).groups
      hgroups hinodes hcounts⟩

end Volume

end OfsConvert
