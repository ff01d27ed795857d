import OfsConvert.BlockedSearch
import OfsConvert.DataArea

/-!
# The blocked extents of a layout

`create_block_group_meta_extents` turns the metadata prefix of every group into an extent of
clusters. For an accepted geometry the extents are in order and disjoint, as the allocator and
the search for blocked fragments assume.
-/

namespace OfsConvert

/-- The extent of one group, without reductions. -/
def metaExtent (g : Globals) (i : ℕ) : FatExtent :=
  let start := g.sb.sBlocksPerGroup * i + g.sb.sFirstDataBlock
  let stop := start + blockGroupOverhead g.sb i
  if dataBlock g.bootSector ≤ start then
    ⟨0, blockGroupOverhead g.sb i, start - dataBlock g.bootSector + 2⟩
  else if dataBlock g.bootSector ≤ stop then
    ⟨0, stop - dataBlock g.bootSector, 2⟩
  else
    ⟨0, 0, 0⟩

/-- The extents of all groups in order. -/
def metaExtents (g : Globals) : List FatExtent :=
  (List.range (blockGroupCount g.sb)).map (metaExtent g)

/-- There is one extent for each group. -/
@[simp] theorem length_metaExtents (g : Globals) :
    (metaExtents g).length = blockGroupCount g.sb := by simp [metaExtents]

/-- A fallible map whose calls all return is a map. -/
theorem mapM_ok {α β ε : Type} {f : α → Except ε β} {h : α → β} {l : List α}
    (hf : ∀ a ∈ l, f a = .ok (h a)) : l.mapM f = .ok (l.map h) := by
  induction l with
  | nil => rfl
  | cons a l ih =>
    rw [List.mapM_cons, hf a (by simp), ih fun b hb => hf b (by simp [hb])]
    rfl

section

variable {g : Globals} (hg : Accepted g)
include hg

/-- The first block of a group is at most the block count. -/
theorem Accepted.groupStart_le {i : ℕ} (hi : i < blockGroupCount g.sb) :
    g.sb.sBlocksPerGroup * i + g.sb.sFirstDataBlock ≤ partitionBlocks g.bootSector := by
  have hmul := hg.group_mul_lt hi
  have hfirst := hg.sFirstDataBlock_le
  omega

/-- The extent of an existing group, without overflow. -/
theorem Accepted.blockGroupMetaExtent_eq {i : ℕ} (hi : i < blockGroupCount g.sb) :
    blockGroupMetaExtent g.bootSector g.metaInfo g.sb i = .ok (metaExtent g i) := by
  have hover := hg.blockGroupOverhead_le i
  have hstart := hg.groupStart_le hi
  have hcount := hg.partitionBlocks_lt
  have hdata := hg.dataBlock_lt
  have hbound : ¬ blockGroupOverhead g.sb i > 0xFFFF := by omega
  simp only [blockGroupMetaExtent, hbound, if_false, hg.blockGroupStart_eq (Nat.le_of_lt hi),
    hg.e4blkToFatCl_eq (n := g.sb.sBlocksPerGroup * i + g.sb.sFirstDataBlock) (by omega),
    hg.e4blkToFatCl_eq (n := g.sb.sBlocksPerGroup * i + g.sb.sFirstDataBlock +
      blockGroupOverhead g.sb i) (by omega), metaExtent, fatStartIndex]
  by_cases hbehind : dataBlock g.bootSector ≤ g.sb.sBlocksPerGroup * i + g.sb.sFirstDataBlock
  · rw [if_neg (Nat.not_lt.mpr hbehind), if_pos hbehind, if_pos (by omega),
      u16_of_lt (by omega)]
  · rw [if_pos (Nat.lt_of_not_le hbehind), if_neg hbehind]
    simp only [ne_eq, not_true_eq_false, if_false]
    by_cases hreach : dataBlock g.bootSector ≤
        g.sb.sBlocksPerGroup * i + g.sb.sFirstDataBlock + blockGroupOverhead g.sb i
    · rw [if_neg (Nat.not_lt.mpr hreach), if_pos hreach, if_pos (by omega),
        sub32_of_le (by omega) (by omega), Nat.add_sub_cancel, u16_of_lt (by omega)]
    · rw [if_pos (Nat.lt_of_not_le hreach), if_neg hreach]
      simp

/-- `create_block_group_meta_extents` returns the extents of the groups and the sentinel. -/
theorem Accepted.createBlockGroupMetaExtents_eq :
    createBlockGroupMetaExtents g.bootSector g.metaInfo g.sb (blockGroupCount g.sb) =
      .ok (metaExtents g ++ [endSentinel (dataClusterCount g.bootSector g.metaInfo)]) := by
  rw [createBlockGroupMetaExtents,
    mapM_ok fun i hi => hg.blockGroupMetaExtent_eq (List.mem_range.mp hi)]
  rfl

/-- The extent of a group ends where the next group starts at the latest. -/
theorem Accepted.metaExtent_stop_le {i j : ℕ} (hij : i < j) :
    (metaExtent g i).stop ≤ (metaExtent g j).physicalStart := by
  have hover := hg.blockGroupOverhead_le i
  obtain ⟨hlow, -⟩ := hg.numbers
  have hmul : g.sb.sBlocksPerGroup * i + g.sb.sBlocksPerGroup ≤ g.sb.sBlocksPerGroup * j := by
    have h := Nat.mul_le_mul_left g.sb.sBlocksPerGroup hij
    rwa [Nat.succ_eq_add_one, Nat.mul_add, Nat.mul_one] at h
  unfold metaExtent FatExtent.stop
  dsimp only
  split_ifs <;> dsimp only <;> omega

/-- The blocked extents of an accepted geometry are as the allocator expects them. -/
theorem Accepted.blockedExtents :
    BlockedExtents (dataClusterCount g.bootSector g.metaInfo) (metaExtents g) := by
  have hcount := hg.dataClusterCount_le
  refine ⟨?_, ?_, ?_, by omega⟩
  · rw [metaExtents, List.pairwise_map]
    exact List.pairwise_lt_range.imp fun hij => hg.metaExtent_stop_le hij
  · intro e he
    rw [metaExtents, List.mem_map] at he
    obtain ⟨i, hi, rfl⟩ := he
    have hstart := hg.groupStart_le (List.mem_range.mp hi)
    have hdata := hg.dataBlock_lt_partitionBlocks
    rw [hg.dataClusterCount_eq]
    unfold metaExtent
    dsimp only
    split_ifs <;> dsimp only <;> omega
  · intro e he
    rw [metaExtents, List.mem_map] at he
    obtain ⟨i, -, rfl⟩ := he
    have hover := hg.blockGroupOverhead_le i
    unfold metaExtent
    dsimp only
    split_ifs <;> dsimp only <;> omega

/-- The first data block is the block of the first cluster. -/
theorem Accepted.firstDataBlock_eq :
    fatClToE4blk g.bootSector g.metaInfo fatStartIndex = dataBlock g.bootSector := by
  have hcount := hg.dataClusterCount_eq
  have hdata := hg.dataBlock_lt_partitionBlocks
  rw [fatStartIndex, hg.fatClToE4blk_eq le_rfl (by rw [hcount]; exact Nat.le_add_left _ _),
    Nat.sub_self, Nat.add_zero]

/-- The length of the extent of a group is what the metadata prefix has behind the first data
block. -/
theorem Accepted.metaExtent_length {i : ℕ} (hi : i < blockGroupCount g.sb) :
    (metaExtent g i).length = blockGroupStart g.sb i + blockGroupOverhead g.sb i -
      max (blockGroupStart g.sb i) (dataBlock g.bootSector) := by
  rw [hg.blockGroupStart_eq (Nat.le_of_lt hi)]
  unfold metaExtent
  dsimp only
  split_ifs <;> dsimp only <;> omega

/-- The extent of a group is a dummy when the metadata prefix ends before the data area. -/
theorem Accepted.metaExtent_dummy {i : ℕ} (hi : i < blockGroupCount g.sb) :
    (metaExtent g i).physicalStart = 0 ↔
      blockGroupStart g.sb i + blockGroupOverhead g.sb i < dataBlock g.bootSector := by
  rw [hg.blockGroupStart_eq (Nat.le_of_lt hi)]
  unfold metaExtent
  dsimp only
  split_ifs with hbehind hreach
  · rw [false_iff]
    omega
  · rw [false_iff]
    omega
  · rw [eq_self_iff_true, true_iff]
    omega

/-- The extent of a group has the clusters whose blocks are in the metadata prefix. -/
theorem Accepted.mem_metaExtent {i c : ℕ} (hi : i < blockGroupCount g.sb) (hlow : 2 ≤ c)
    (hhigh : c < dataClusterCount g.bootSector g.metaInfo) :
    c ∈ (metaExtent g i).clusters ↔
      blockGroupStart g.sb i ≤ fatClToE4blk g.bootSector g.metaInfo c ∧
      fatClToE4blk g.bootSector g.metaInfo c <
        blockGroupStart g.sb i + blockGroupOverhead g.sb i := by
  rw [FatExtent.mem_clusters, hg.fatClToE4blk_eq hlow (Nat.le_of_lt hhigh),
    hg.blockGroupStart_eq (Nat.le_of_lt hi)]
  unfold metaExtent FatExtent.stop
  dsimp only
  split_ifs <;> dsimp only <;> omega

end

/-- The extents that `create_block_group_meta_extents` returns are in order and disjoint, each is
as long as its metadata prefix reaches behind the first data block, and together they have the
clusters whose blocks are in the prefix of some group. The sort in `init_extent_allocator` leaves
them and the sentinel behind them in place. -/
theorem createBlockGroupMetaExtents_agree (g : Globals) (hg : Accepted g) (s : State) :
    ∃ extents : List FatExtent,
      createBlockGroupMetaExtents g.bootSector g.metaInfo g.sb (blockGroupCount g.sb) =
        .ok (extents ++ [endSentinel (dataClusterCount g.bootSector g.metaInfo)]) ∧
      extents.length = blockGroupCount g.sb ∧
      extents.Pairwise (fun a b => a.physicalStart ≤ b.physicalStart) ∧
      extents.Pairwise (fun a b => ∀ c ∈ a.clusters, c ∉ b.clusters) ∧
      (∀ i (hi : i < extents.length),
        extents[i].length = blockGroupStart g.sb i + blockGroupOverhead g.sb i -
          max (blockGroupStart g.sb i) (fatClToE4blk g.bootSector g.metaInfo fatStartIndex) ∧
        (extents[i].physicalStart = 0 ↔ blockGroupStart g.sb i + blockGroupOverhead g.sb i <
          fatClToE4blk g.bootSector g.metaInfo fatStartIndex) ∧
        ∀ c, fatStartIndex ≤ c → c < dataClusterCount g.bootSector g.metaInfo →
          (c ∈ extents[i].clusters ↔
            blockGroupStart g.sb i ≤ fatClToE4blk g.bootSector g.metaInfo c ∧
            fatClToE4blk g.bootSector g.metaInfo c <
              blockGroupStart g.sb i + blockGroupOverhead g.sb i)) ∧
      (∀ c, fatStartIndex ≤ c → c < dataClusterCount g.bootSector g.metaInfo →
        ((∃ e ∈ extents, c ∈ e.clusters) ↔ ∃ i < blockGroupCount g.sb,
          blockGroupStart g.sb i ≤ fatClToE4blk g.bootSector g.metaInfo c ∧
          fatClToE4blk g.bootSector g.metaInfo c <
            blockGroupStart g.sb i + blockGroupOverhead g.sb i)) ∧
      wp (initExtentAllocator g
          (extents ++ [endSentinel (dataClusterCount g.bootSector g.metaInfo)]) extents.length)
        (fun _ t => t.allocator.blockedExtents =
          extents ++ [endSentinel (dataClusterCount g.bootSector g.metaInfo)])
        (fun _ _ => False) s := by
  have hget : ∀ i (hi : i < (metaExtents g).length), (metaExtents g)[i] = metaExtent g i := by
    intro i hi
    simp [metaExtents]
  have hordered : ∀ i j (hj : j < (metaExtents g).length) (hij : i < j),
      (metaExtents g)[i].stop ≤ (metaExtents g)[j].physicalStart :=
    fun _ _ hj hij => hg.blockedExtents.orderedExtents.getElem_stop_le hj hij
  refine ⟨metaExtents g, hg.createBlockGroupMetaExtents_eq, length_metaExtents g, ?_, ?_, ?_, ?_,
    ?_⟩
  · exact hg.blockedExtents.ordered.imp fun h => (Nat.le_add_right _ _).trans h
  · refine hg.blockedExtents.ordered.imp fun {a b} h c ha hb => ?_
    rw [FatExtent.mem_clusters] at ha hb
    omega
  · intro i hi
    have hgroup : i < blockGroupCount g.sb := by rwa [length_metaExtents] at hi
    rw [hget i hi, hg.firstDataBlock_eq]
    exact ⟨hg.metaExtent_length hgroup, hg.metaExtent_dummy hgroup,
      fun c hlow hhigh => hg.mem_metaExtent hgroup hlow hhigh⟩
  · intro c hlow hhigh
    constructor
    · intro h
      obtain ⟨e, he, hc⟩ := h
      rw [metaExtents, List.mem_map] at he
      obtain ⟨i, hi, rfl⟩ := he
      have hgroup := List.mem_range.mp hi
      exact ⟨i, hgroup, (hg.mem_metaExtent hgroup hlow hhigh).mp hc⟩
    · intro h
      obtain ⟨i, hi, hc⟩ := h
      exact ⟨metaExtent g i, List.mem_map_of_mem (List.mem_range.mpr hi),
        (hg.mem_metaExtent hi hlow hhigh).mpr hc⟩
  · refine wp_mono_ok (initExtentAllocator_spec s hg.blockedExtents) fun _ t ht => ?_
    exact ht.1.extents

/-- Six groups: two dummies for the groups before the data area, and the metadata of four groups. -/
theorem createBlockGroupMetaExtents_agree_sample : ∃ extents : List FatExtent,
    createBlockGroupMetaExtents manyGroupsBootSector manyGroupsGlobals.metaInfo
      manyGroupsGlobals.sb (blockGroupCount manyGroupsGlobals.sb) =
        .ok (extents ++ [endSentinel (dataClusterCount manyGroupsBootSector
          manyGroupsGlobals.metaInfo)]) ∧ extents.length = 6 ∧
      ∀ i (hi : i < extents.length), extents[i].physicalStart = 0 ↔ i < 2 := by
  obtain ⟨extents, hrun, hlength, -, -, hextents, -⟩ :=
    createBlockGroupMetaExtents_agree manyGroupsGlobals accepted_manyGroups { mem := fun _ => 0 }
  have hsix : extents.length = 6 := hlength.trans (by decide)
  have hdummies : ∀ i < 6, (blockGroupStart manyGroupsGlobals.sb i +
      blockGroupOverhead manyGroupsGlobals.sb i <
        fatClToE4blk manyGroupsBootSector manyGroupsGlobals.metaInfo fatStartIndex ↔ i < 2) := by
    decide
  exact ⟨extents, hrun, hsix, fun i hi => (hextents i hi).2.1.trans (hdummies i (hsix ▸ hi))⟩

end OfsConvert
