import OfsConvert.Conversion
import OfsConvert.Handover

/-!
# The second phase as a whole

`init_ext4_group_descs`, `build_root_inode` and `build_ext4_metadata_tree`, run on what the reading
phase has left: the whole tree is built, or the run stops with nothing damaged.
-/

namespace OfsConvert

/-- What the second phase has built up to `build_ext4_metadata_tree`, from the records of the
stream. -/
structure VolumeBuilt (g : Globals) (env : Env) (m₀ : Mem) (base : State) (F : List ℕ)
    (rootExtents : List FatExtent) (records : Forest Record) (t : State) : Prop where
  building : Building g ∅ m₀ base F [] [] t
  root : DirBuilt g t ext4RootInode ext4RootInode (rootInode env) (physical rootExtents) 12 records
  built : ForestBuilt g env t ext4RootInode 12 records
  firstFree : t.ext4.firstFreeInodeNo = 12 + records.size
  reads : t.ext4.reads = dirReads ext4RootInode 12 rootExtents records
  ledger : GroupsFit g → Ledger g t
  reserved : ∀ n, 1 ≤ n → n ≤ ext4FirstNonRsvInode → inodeBit g t.mem n = true

section

variable {g : Globals} (hg : Accepted g) {m₀ : Mem} {rootChain : List ℕ} {forest : Forest FatNode}
  {records : Forest Record} {r w : StreamArchiver} {pages : List ℕ} {rootExtents : List FatExtent}
  {s : State}
include hg

/-- The second phase builds the tree that the reading phase has recorded. -/
theorem buildingPhase_builds
    (h : VolumeRead g m₀ rootChain forest r w pages rootExtents records s)
    (hfresh : s.ext4 = {}) (hv : IsVolume g m₀ rootChain forest) (hcount : forest.count < 2 ^ 32)
    (hcounted : forest.Counted) (env : Env) {short : Prop} {fuel : ℕ}
    (hfuel : short ∨ loopFuel g + forest.depth < fuel) :
    wp (buildingPhase g env fuel r)
      (Within g fun _ t =>
        VolumeBuilt g env m₀ s (keptBlocks g pages records) rootExtents records t)
      (Within g (SafeStop g s (keptBlocks g pages records) short)) s := by
  have hhanded := h.handed hg hfresh
  have hfits := h.fits hg hv hcounted
  obtain ⟨r', hreads⟩ := h.reads hg hv hcounted
  have hown : ∀ c ∈ physical rootExtents, DataCluster g c ∧
      fatClToE4blk g.bootSector g.metaInfo c ∉ keptBlocks g pages records := by
    intro c hc
    refine ⟨(h.cluster (List.mem_append_right _ ?_)).1, h.directory_not_kept hg (Or.inl hc)⟩
    rw [physical_append]
    exact List.mem_append_left _ hc
  have hphase : buildingPhase g env fuel r = (do
      (do
        initExt4GroupDescs g
        buildRootInode g env)
      buildExt4MetadataTree g env fuel ext4RootInode ext4RootInode r) := by
    simp only [buildingPhase, bind_assoc]
  rw [hphase, wp_bind]
  have hlength := h.root.extents_le
  have hchain := (hv.length_lt hg).1
  refine wp_mono_ok (startBuilding hg hhanded env) ?_
  rintro _ u ⟨hbuilding, hroot, hledger, hregistered, hff, hlog, hreserved⟩
  refine within_mono (buildExt4MetadataTree_builds hg m₀ s (keptBlocks g pages records) short fuel
    hbuilding hroot (show 3 < 2 ^ 16 by decide) (by decide) hreads hown
    (h.children.count_eq ▸ hcount) hfits (by omega) (hfuel.imp_right fun hmuch => ?_)) ?_
  · rw [← h.children.depth_eq]
    omega
  rintro _ t ⟨-, hdone, hwork, hff', hlog', hdir, hbuilt⟩
  rw [hff] at hff' hlog' hdir hbuilt
  rw [hlog] at hlog'
  exact ⟨hdone, hdir, hbuilt, hff', hlog', fun hfit => hwork.ledger (hledger hfit),
    fun n hlow hhigh => hwork.step.bits n (hg.reservedPlace hlow hhigh) (hreserved n hlow hhigh)⟩

end

end OfsConvert
