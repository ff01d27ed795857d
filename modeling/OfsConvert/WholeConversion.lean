import OfsConvert.Finalizing

/-!
# The whole conversion

Behind the reading phase the conversion builds the file system that the volume describes: the two
phases, `build_lost_found` and `finalize_block_groups_on_disk` in a row.
-/

namespace OfsConvert

/-- What `main` does behind the reading phase. -/
def secondPhase (g : Globals) (env : Env) (fuel : ℕ) (readStream : StreamArchiver) :
    Prog StreamArchiver := do
  let readStream ← buildingPhase g env fuel readStream
  buildLostFound g env fuel
  finalizeBlockGroupsOnDisk g env fuel
  pure readStream

/-- The conversion is the reading phase and then the second phase. -/
theorem conversion_eq (g : Globals) (env : Env) (fuel : ℕ) : conversion g env fuel = (do
    let (readStream, _) ← readingPhase g fuel
    secondPhase g env fuel readStream) := rfl

/-- The root directory: the entries of its children, and behind them a block for `lost+found`. -/
structure RootBuilt (g : Globals) (env : Env) (t : State) (own : List ℕ)
    (children : Forest Record) : Prop where
  node : DirNode g t ext4RootInode (rootInode env) (u16 (3 + children.dirCount))
  blocks : ∃ blocks : List (ℕ × List DirEntry),
    blocks.map Prod.snd = packDirectory (blockSize g.sb) ext4RootInode ext4RootInode
      (children.childEntries 12) ++ [fullBlock (blockSize g.sb) [] lostFoundEntry] ∧
    inTreeOf t.ext4.registered ext4RootInode =
      extentRanges g ext4RootInode (dirExtents (blocks.map Prod.fst)) ∧
    (∀ x ∈ blocks, HoldsEntries g t.mem x.1 x.2) ∧
    own.take (blocks.length - 1) <+: blocks.map Prod.fst ∧
    sizeOf g t.mem ext4RootInode =
      u64 (u32 ((blocks.length - 1) * blockSize g.sb) + blockSize g.sb)

/-- What the conversion has built from the records of the stream. -/
structure Converted (g : Globals) (env : Env) (m₀ : Mem) (base : State) (F : List ℕ)
    (rootExtents : List FatExtent) (records : Forest Record) (t : State) : Prop where
  building : Building g {ext4LostFoundInode} m₀ base F [] [] t
  root : RootBuilt g env t (physical rootExtents) records
  lostFound : LostFoundBuilt g env t
  built : ForestBuilt g env t ext4RootInode 12 records
  firstFree : t.ext4.firstFreeInodeNo = 12 + records.size
  reads : t.ext4.reads = dirReads ext4RootInode 12 rootExtents records
  ledger : GroupsFit g → Ledger g t
  reserved : ∀ n, 1 ≤ n → n ≤ ext4FirstNonRsvInode → inodeBit g t.mem n = true
  copies : ∃ sb fuel visited,
    finalizeFreeCounts t.ext4.groupDescs fuel g.sb = some (sb, visited) ∧
    ∀ i ∈ copyGroups g.sb, HoldsCopy g env sb t.ext4.groupDescs i t.mem

section

variable {g : Globals} (hg : Accepted g) {env : Env} {m₀ : Mem} {base : State} {F P : List ℕ}
  {X D : Set ℕ} {s t u : State} {clusters own : List ℕ} {c : ℕ} {sb : Ext4SuperBlock}
  {rootExtents : List FatExtent} {records : Forest Record}
include hg

/-- Work on other inodes keeps `lost+found`. -/
theorem LostFoundBuilt.work (h : LostFoundBuilt g env s) (hwork : Work g D P s t)
    (hn : ext4LostFoundInode ∉ D) : LostFoundBuilt g env t := by
  have hplace := hg.reservedPlace (n := ext4LostFoundInode) (by decide) (by decide)
  have hmem := hwork.step.inodes _ hplace hn
  obtain ⟨c, htree, hentries⟩ := h.block
  obtain ⟨r, hr, hin, hmemb⟩ := exists_range hg hentries.data htree (List.mem_singleton_self c)
  refine ⟨h.inode.congr fun a ha _ => hmem a ha, ?_, ?_, c, (hwork.inTreeOf_eq hn).trans htree,
    hentries.congr hg (hwork.step.blocks r hr (Or.inl hin) _ hmemb)⟩
  · rw [← h.links]
    exact linksOf_congr fun a ha => hmem a (fields_outside (Or.inr ha)).1
  · rw [← h.size]
    exact sizeOf_eq_of_fields fun a ha => hmem a (fields_outside (Or.inl ha)).1

/-- The copies of the super block are stored apart from everything that has been built. -/
theorem Building.finalized (h : Building g X m₀ base F [] [] s) (hfinal : Finalized g env sb s t) :
    Building g X m₀ base F [] [] t ∧ Work g ∅ [] s t := by
  have hmeta : ∀ a, (∃ i ∈ copyGroups g.sb, a ∈ sbCopyBytes g i) →
      ∃ b, InBlock g b a ∧ MetaBlock g b := by
    rintro a ⟨i, hi, ha⟩
    obtain ⟨hcount, -⟩ := hg.copyGroup hi
    obtain ⟨b, hb, -, hba⟩ := hg.sbCopy_inPrefix hcount ha
    exact ⟨b, hba, i, hcount, hb⟩
  have hdata : ∀ b ∈ registeredBlocks s.ext4.registered, ∀ a, InBlock g b a →
      a ∉ {a | ∃ i ∈ copyGroups g.sb, a ∈ sbCopyBytes g i} := by
    intro b hb a hba hin
    obtain ⟨c, hca, hc⟩ := hmeta a hin
    exact (h.inv.log.data b hb).not_inBlock hba hc hca
  refine ⟨h.apart hg hg.sbCopy_apart hfinal.touches hfinal.ext4 (fun a ha => ?_)
    fun r hr _ b hb => hdata b (mem_registeredBlocks.mpr ⟨r, hr, hb⟩),
    (Work.refl g ∅ [] s).apart hg h.inv.placed hg.sbCopy_apart hfinal.touches hfinal.ext4 hdata⟩
  obtain ⟨b, hba, hb⟩ := hmeta a ha
  exact ⟨b, hba, Or.inl hb⟩

omit hg in
/-- Finalizing registers nothing. -/
theorem SameTrees.finalizeBlockGroupsOnDisk (g : Globals) (env : Env) (fuel : ℕ) :
    Keeps SameTrees (finalizeBlockGroupsOnDisk g env fuel) := by
  have hcopy : ∀ sb i, Keeps SameTrees (writeSbCopy g env sb i) := fun sb i =>
    SameTrees.bind (SameTrees.storeBytes _ _) fun _ =>
      SameTrees.bind (Keeps.get SameTrees.refl) fun _ => SameTrees.storeBytes _ _
  refine SameTrees.bind (Keeps.get SameTrees.refl) fun s => ?_
  split
  · exact Keeps.throw SameTrees.refl _
  · exact SameTrees.bind (hcopy _ _) fun _ => SameTrees.bind (hcopy _ _) fun _ => hcopy _ _

/-- `build_lost_found` and `finalize_block_groups_on_disk` complete what has been built. -/
theorem VolumeBuilt.complete (h : VolumeBuilt g env m₀ base F rootExtents records s) {short : Prop}
    {fuel : ℕ} (hfuel : short ∨ loopFuel g ≤ fuel ∧ blockGroupCount g.sb < 2 ^ 16) :
    wp (do
        buildLostFound g env fuel
        finalizeBlockGroupsOnDisk g env fuel)
      (Within g fun _ t => Converted g env m₀ base F rootExtents records t)
      (Within g (SafeStop g base F short)) s := by
  obtain ⟨blocks, hpacked, htree, hholds, hown, hsize⟩ := h.root.blocks
  have hne : blocks.map Prod.fst ≠ [] := by
    rw [ne_eq, List.map_eq_nil_iff]
    rintro rfl
    exact packFrom_ne_nil _ _ _ _ hpacked.symm
  have hdata : ∀ c ∈ blocks.map Prod.fst, DataCluster g c := by
    intro c hc
    obtain ⟨x, hx, rfl⟩ := List.mem_map.mp hc
    exact (hholds x hx).data
  refine wp_bind_within (fun _ => TreesGrow.of_keeps
    (SameTrees.finalizeBlockGroupsOnDisk g env fuel)) ?_
  refine within_mono (buildLostFound_building hg h.building h.root.node htree hdata hne
    (allocationFuel_le (hfuel.imp_right And.left))) ?_
  rintro _ u ⟨hbuilding, hlost, c, hgrown⟩
  refine wp_mono (finalizeBlockGroupsOnDisk_spec hg hbuilding.inv.placed.length fuel
    fun hnone => hbuilding.runsDry (hfuel.resolve_right ?_)) ?_ (fun _ _ hend _ => hend)
  · rintro ⟨hmuch, hgroups⟩
    have heq := freeCountsLoop_eq [] u.ext4.groupDescs (by
      rw [List.nil_append, hbuilding.inv.placed.length]
      exact hgroups) fuel g.sb []
    rw [List.nil_append, hbuilding.inv.placed.length] at heq
    rw [finalizeFreeCounts, ← List.length_nil (α := Ext4GroupDesc), heq, if_pos] at hnone
    · cases hnone
    · unfold loopFuel at hmuch
      omega
  rintro _ t ⟨sb, visited, hcounts, hfinal⟩ _
  obtain ⟨hdone, hwork⟩ := hbuilding.finalized hg hfinal
  have hroot := hgrown.later hg (hwork.mono (Set.empty_subset _) (List.Subset.refl _))
    (by rw [hfinal.ext4]) (by rw [hfinal.ext4])
  have hother : ∀ j, 12 ≤ j → j ∉ ({ext4RootInode, ext4LostFoundInode} : Set ℕ) := by
    rintro j hj (rfl | rfl) <;> exact absurd hj (by decide)
  refine ⟨hdone, ⟨hroot.node, blocks ++ [(c, fullBlock (blockSize g.sb) [] lostFoundEntry)],
    ?_, ?_, fun x hx => ?_, ?_, ?_⟩, hlost.work hg hwork (Set.notMem_empty _),
    h.built.work hg hroot.work fun j hlow _ => hother j hlow, hroot.firstFree.trans h.firstFree,
    hroot.reads.trans h.reads, fun hfit => hroot.work.ledger (h.ledger hfit),
    fun n hlow hhigh => hroot.work.step.bits n (hg.reservedPlace hlow hhigh)
      (h.reserved n hlow hhigh), sb, fuel, visited, ?_, ?_⟩
  · rw [List.map_append, hpacked]
    rfl
  · rw [hroot.tree, List.map_append]
    rfl
  · rcases List.mem_append.mp hx with hin | hin
    · exact holdsEntries_kept hg hholds htree hroot.work x hin
    · rw [List.mem_singleton.mp hin]
      exact hroot.entries
  · rw [List.length_append, List.length_singleton, Nat.add_sub_cancel, List.map_append]
    exact hown.trans (List.prefix_append _ _)
  · rw [hroot.size, hsize, List.length_append, List.length_singleton, Nat.add_sub_cancel]
  · rw [hfinal.ext4]
    exact hcounts
  · rw [hfinal.ext4]
    exact hfinal.copies

/-- The second phase completes the conversion of a volume that has been read. -/
theorem secondPhase_converts {rootChain : List ℕ} {forest : Forest FatNode}
    {r w : StreamArchiver} {pages : List ℕ}
    (h : VolumeRead g m₀ rootChain forest r w pages rootExtents records s) (hfresh : s.ext4 = {})
    (hv : IsVolume g m₀ rootChain forest) (hcount : forest.count < 2 ^ 32)
    (hcounted : forest.Counted) (env : Env) {short : Prop} {fuel : ℕ}
    (hfuel : short ∨ loopFuel g + forest.depth < fuel ∧ blockGroupCount g.sb < 2 ^ 16) :
    wp (secondPhase g env fuel r)
      (Within g fun _ t => Converted g env m₀ s (keptBlocks g pages records) rootExtents records t)
      (Within g (SafeStop g s (keptBlocks g pages records) short)) s := by
  have hphase : secondPhase g env fuel r = (do
      let readStream ← buildingPhase g env fuel r
      (do
        buildLostFound g env fuel
        finalizeBlockGroupsOnDisk g env fuel)
      pure readStream) := by
    simp only [secondPhase, bind_assoc]
  have hlost : Keeps TreesGrow (buildLostFound g env fuel) := by
    rw [buildLostFound_eq]
    exact TreesGrow.bind (TreesGrow.growRoot g fuel) fun c =>
      TreesGrow.bind (TreesGrow.enterLostFound g env c) fun _ => TreesGrow.fillLostFound g env fuel
  have hrest : Keeps TreesGrow (do
      buildLostFound g env fuel
      finalizeBlockGroupsOnDisk g env fuel) :=
    TreesGrow.bind hlost fun _ => TreesGrow.of_keeps (SameTrees.finalizeBlockGroupsOnDisk g env fuel)
  rw [hphase]
  refine wp_bind_within (fun _ => TreesGrow.bind hrest fun _ => TreesGrow.pure _) ?_
  refine within_mono (buildingPhase_builds hg h hfresh hv hcount hcounted env
    (hfuel.imp_right And.left)) ?_
  rintro r' u hbuilt
  refine wp_bind_within (fun _ => TreesGrow.pure _) ?_
  refine within_mono (hbuilt.complete hg (hfuel.imp_right fun hmuch => ⟨?_, hmuch.2⟩))
    fun _ t hdone _ => hdone
  exact (Nat.le_add_right _ _).trans hmuch.1.le

end

end OfsConvert
