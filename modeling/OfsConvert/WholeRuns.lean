import OfsConvert.DirectoryCheck
import OfsConvert.ExtentCheck
import OfsConvert.FatGrammar
import OfsConvert.NameCheck
import OfsConvert.SuperBlockFormat

/-!
# Whole runs of the conversion

`conversion` is run on the bytes of a FAT volume. What it leaves, if it returns, is an ext4 volume
that means the same and that a checker accepts; a run that stops follows no null pointer.
-/

namespace OfsConvert

/-- A FAT volume with a geometry that leaves room for the metadata of every block group, in blocks
that the entries of directories can measure. -/
structure Convertible (g : Globals) (m : Mem) (rootChain : List ℕ) (forest : Forest FatNode) :
    Prop where
  accepted : Accepted g
  volume : IsVolume g m rootChain forest
  count : forest.count < 2 ^ 32
  counted : forest.Counted
  groups : GroupsFit g
  blocks : blockSize g.sb ≤ 2 ^ 16

/-- Each file is kept: the pages of the stream and the clusters that were recorded, for files and for
directories, are distinct data clusters, and those of a file hold the bytes that its chain held in
`m`. -/
structure FilesKept (g : Globals) (m : Mem) (forest : Forest FatNode) (pages : List ℕ)
    (rootExtents : List FatExtent) (records : Forest Record) (t : State) : Prop where
  owned : (pages ++ physical (rootExtents ++ records.extents)).Nodup
  data : ∀ c ∈ pages ++ physical (rootExtents ++ records.extents), DataCluster g c
  bytes : Forest.Rel (fun node rec => rec.dentry = node.entry.dentry ∧
    (isDir rec.dentry = false →
      ∀ i, chainByte g t.mem (physical rec.extents) i = chainByte g m node.chain i)) forest records

/-- The reading phase has left the volume in the stream, and `P` holds of what it has recorded. -/
def AfterReading (g : Globals) (m : Mem) (rootChain : List ℕ) (forest : Forest FatNode)
    (readStream : StreamArchiver) (s : State)
    (P : List ℕ → List FatExtent → Forest Record → Prop) : Prop :=
  ∃ writeStream pages rootExtents records,
    VolumeRead g m rootChain forest readStream writeStream pages rootExtents records s ∧
      P pages rootExtents records

/-- Related forests are related in a weaker way. -/
theorem Forest.Rel.imp {α β : Type} {R R' : α → β → Prop} {t : Forest α} {t' : Forest β}
    (h : Forest.Rel R t t') (himp : ∀ a, ∀ b ∈ t'.toList, R a b → R' a b) :
    Forest.Rel R' t t' := by
  induction h with
  | nil => exact .nil
  | file hab _ ih =>
    exact .file (himp _ _ List.mem_cons_self hab)
      (ih fun a b hb => himp a b (List.mem_cons_of_mem _ hb))
  | dir hab _ _ ihc ihr =>
    exact .dir (himp _ _ List.mem_cons_self hab)
      (ihc fun a b hb => himp a b (List.mem_cons_of_mem _ (List.mem_append_left _ hb)))
      (ihr fun a b hb => himp a b (List.mem_cons_of_mem _ (List.mem_append_right _ hb)))

section

variable {g : Globals} {env : Env} {m : Mem} {rootChain : List ℕ} {forest : Forest FatNode}
  {fuel : ℕ} {Q : StreamArchiver → State → Prop} {E : Halt → State → Prop}

/-- A whole run: the reading phase has read the volume, the second phase has converted it. -/
theorem Convertible.conversion_rule (h : Convertible g m rootChain forest)
    (hreading : ∀ cause t, cause ≠ .fault → E cause t)
    (hstop : ∀ {r w pages rootExtents records s}, VolumeRead g m rootChain forest r w pages
      rootExtents records s → ∀ cause t, (Roomy g t →
        SafeStop g s (keptBlocks g pages records) True cause t) → E cause t)
    (hreturn : ∀ {r w pages rootExtents records s}, VolumeRead g m rootChain forest r w pages
      rootExtents records s → ∀ r' t, (Roomy g t →
        Converted g env m s (keptBlocks g pages records) rootExtents records t) → Q r' t) :
    wp (conversion g env fuel) Q E { mem := m } := by
  rw [conversion_eq, wp_bind]
  refine wp_mono (readingPhase_spec h.accepted rfl h.volume fuel) ?_ hreading
  rintro ⟨r, w⟩ s ⟨hext, pages, rootExtents, records, hread⟩
  exact wp_mono (secondPhase_converts h.accepted hread hext h.volume h.count h.counted env
    (Or.inl trivial)) (hreturn hread) (hstop hread)

/-- The second phase, run on what a reading phase has left. -/
theorem Convertible.secondPhase_rule (h : Convertible g m rootChain forest) (short : Prop)
    {buildFuel : ℕ} (hfuel : short ∨
      loopFuel g + forest.depth < buildFuel ∧ blockGroupCount g.sb < 2 ^ 16)
    {Q : StreamArchiver × StreamArchiver → State → State → Prop}
    {E : StreamArchiver × StreamArchiver → State → Halt → State → Prop}
    (hstop : ∀ {r w pages rootExtents records s}, VolumeRead g m rootChain forest r w pages
      rootExtents records s → ∀ cause t, (Roomy g t →
        SafeStop g s (keptBlocks g pages records) short cause t) → E (r, w) s cause t)
    (hreturn : ∀ {r w pages rootExtents records s}, VolumeRead g m rootChain forest r w pages
      rootExtents records s → ∀ t, (Roomy g t →
        Converted g env m s (keptBlocks g pages records) rootExtents records t) → Q (r, w) s t) :
    wp (readingPhase g fuel)
      (fun streams s => wp (secondPhase g env buildFuel streams.1) (fun _ t => Q streams s t)
        (E streams s) s)
      NoFault { mem := m } := by
  refine wp_mono (readingPhase_spec h.accepted rfl h.volume fuel) ?_ fun _ _ hcause => hcause
  rintro ⟨r, w⟩ s ⟨hext, pages, rootExtents, records, hread⟩
  exact wp_mono (secondPhase_converts h.accepted hread hext h.volume h.count h.counted env hfuel)
    (fun _ => hreturn hread) (hstop hread)

/-- The history of the second phase shows that it keeps the files. -/
theorem BuildLog.filesKept (h : Convertible g m rootChain forest) {r w : StreamArchiver}
    {pages O : List ℕ} {rootExtents : List FatExtent} {records : Forest Record} {s t : State}
    (hread : VolumeRead g m rootChain forest r w pages rootExtents records s)
    (hlog : BuildLog g s (keptBlocks g pages records) O t) :
    FilesKept g m forest pages rootExtents records t where
  owned := hread.owned
  data c hc := (hread.cluster hc).1
  bytes := by
    have hpos := h.accepted.clusterSize_ge
    have hfits := hread.fits h.accepted h.volume h.counted
    refine hread.children.imp fun node rec hrec hrel => ⟨hrel.dentry, fun hfile i => ?_⟩
    rw [chainByte_kept h.accepted hlog.foreign fun c hc =>
      ⟨(hfits.records rec hrec).clusters c hc, mem_keptBlocks pages hrec hfile c hc⟩]
    exact hrel.extents.chainByte_eq (by omega) i

/-- The rule for what holds of the finished volume. -/
theorem Convertible.conversion_leaves (h : Convertible g m rootChain forest) {P : State → Prop}
    (hP : ∀ {r w pages rootExtents records s t}, VolumeRead g m rootChain forest r w pages
      rootExtents records s → Roomy g t →
        Converted g env m s (keptBlocks g pages records) rootExtents records t → P t) :
    wp (conversion g env fuel) (fun _ t => Roomy g t → P t)
      (fun cause t => Roomy g t → cause ≠ .fault) { mem := m } :=
  h.conversion_rule (fun _ _ hcause _ => hcause) (fun _ _ _ hend hroomy => (hend hroomy).2.1)
    fun hread _ _ hdone hroomy => hP hread hroomy (hdone hroomy)

end

/-- `set_meta_info` keeps the address of the partition. -/
theorem setMetaInfo_fsStart {b : BootSector} {fsStart : ℕ} {metaInfo : MetaInfo}
    (h : setMetaInfo b fsStart = .ok metaInfo) : metaInfo.fsStart = fsStart := by
  unfold setMetaInfo at h
  dsimp only at h
  split at h
  · cases h
  · cases h
    rfl

/-- The globals that `main` computes from the boot sector of a FAT32 volume are accepted. -/
theorem accepted_of_initGlobals {g : Globals} {m : Mem} {fsStart : ℕ}
    (hvolume : FatVolume (BootSector.ofMem m fsStart) fsStart)
    (hinit : initGlobals m fsStart = .ok g) : Accepted g := by
  unfold initGlobals at hinit
  dsimp only at hinit
  cases hmeta : setMetaInfo (BootSector.ofMem m fsStart) fsStart with
  | error =>
    rw [hmeta] at hinit
    cases hinit
  | ok metaInfo =>
    cases hsb : initExt4Sb (BootSector.ofMem m fsStart) with
    | error =>
      rw [hmeta, hsb] at hinit
      cases hinit
    | ok sb =>
      rw [hmeta, hsb] at hinit
      cases hinit
      have hstart := setMetaInfo_fsStart hmeta
      refine ⟨?_, ?_, hsb⟩
      · rw [hstart]
        exact hvolume
      · rw [hstart]
        exact hmeta

/-- From the bytes of a partition on: a volume whose directories are readable has the same meaning
for a driver after the conversion. -/
theorem partition_preserved {g : Globals} {m : Mem} {fsStart : ℕ} {rootChain : List ℕ}
    {forest : Forest FatNode} (env : Env) (fuel : ℕ)
    (hvolume : FatVolume (BootSector.ofMem m fsStart) fsStart)
    (hinit : initGlobals m fsStart = .ok g) (hreadable : ReadableVolume g m rootChain forest)
    (hcount : forest.count < 2 ^ 32) (hcounted : forest.Counted) (hgroups : GroupsFit g)
    (hblocks : blockSize g.sb ≤ 2 ^ 16) {levels : ℕ} (hlevels : forest.depth ≤ levels) :
    wp (conversion g env fuel)
      (fun _ t => Roomy g t → readForest g t.mem (levels + 2) ext4RootInode ext4RootInode =
        some ((forest.map (FatNode.view g env m)).append (.dir (lostFoundView env) .nil .nil)))
      (fun cause t => Roomy g t → cause ≠ .fault) { mem := m } := by
  have h : Convertible g m rootChain forest := ⟨accepted_of_initGlobals hvolume hinit,
    hreadable.isVolume, hcount, hcounted, hgroups, hblocks⟩
  exact h.conversion_leaves fun hread hroomy hdone =>
    hdone.readForest_eq h.accepted hread h.volume hcounted hroomy hblocks hlevels

/-- The nested volume is one directory deep. -/
theorem depth_sampleForest : sampleForest.depth = 1 := rfl

/-- A small volume with a directory and two files. -/
theorem convertible_sample : Convertible (sampleGlobals 400) sampleVolume [2] sampleForest where
  accepted := accepted_sample_400
  volume := isVolume_sample
  count := by decide
  counted := ⟨by decide, trivial, trivial⟩
  groups := show ∀ i < blockGroupCount (sampleGlobals 400).sb, _ ≤ _ by decide
  blocks := by decide

/-- What a driver reads from the finished volume is the FAT volume: the same tree of files and
directories in the same order, with the same bytes, sizes and times, and `lost+found` behind it. -/
theorem conversion_preserves (g : Globals) (env : Env) (fuel : ℕ) (m : Mem) (rootChain : List ℕ)
    (forest : Forest FatNode) (h : Convertible g m rootChain forest) (levels : ℕ)
    (hlevels : forest.depth ≤ levels) :
    wp (conversion g env fuel)
      (fun _ t => Roomy g t → readForest g t.mem (levels + 2) ext4RootInode ext4RootInode =
        some ((forest.map (FatNode.view g env m)).append (.dir (lostFoundView env) .nil .nil)))
      (fun cause t => Roomy g t → cause ≠ .fault) { mem := m } :=
  h.conversion_leaves fun hread hroomy hdone =>
    hdone.readForest_eq h.accepted hread h.volume h.counted hroomy h.blocks hlevels

/-- The nested volume behind its conversion: its tree and `lost+found`. -/
theorem conversion_preserves_sample :
    wp (conversion (sampleGlobals 400) {} 1000)
      (fun _ t => Roomy (sampleGlobals 400) t →
        readForest (sampleGlobals 400) t.mem 3 ext4RootInode ext4RootInode =
          some ((sampleForest.map (FatNode.view (sampleGlobals 400) {} sampleVolume)).append
            (.dir (lostFoundView {}) .nil .nil)))
      (fun cause t => Roomy (sampleGlobals 400) t → cause ≠ .fault) { mem := sampleVolume } :=
  conversion_preserves (sampleGlobals 400) {} 1000 sampleVolume [2] _ convertible_sample 1
    depth_sampleForest.le

/-- Names that fit stay distinct: in every directory of the finished volume the names, those of the
directory itself and of its parent included, are pairwise distinct exactly when this holds of the
FAT volume with these and with `lost+found` in its root. -/
theorem conversion_namesApart_iff (g : Globals) (env : Env) (fuel : ℕ) (m : Mem)
    (rootChain : List ℕ) (forest : Forest FatNode) (h : Convertible g m rootChain forest)
    (hfits : ∀ node ∈ forest.toList, node.entry.name.Fits) (levels : ℕ)
    (hlevels : forest.depth ≤ levels) :
    wp (conversion g env fuel)
      (fun _ t => Roomy g t → ∃ tree,
        readForest g t.mem (levels + 2) ext4RootInode ext4RootInode = some tree ∧
        (tree.NamesApart FileView.name (dotUnits.map utf8) [] ↔
          forest.NamesApart (fun node => node.entry.name.units) dotUnits [lostFoundUnits]))
      (fun cause t => Roomy g t → cause ≠ .fault) { mem := m } :=
  h.conversion_leaves fun hread hroomy hdone =>
    ⟨_, hdone.readForest_eq h.accepted hread h.volume h.counted hroomy h.blocks hlevels,
      h.volume.children.namesApart_iff hfits⟩

/-- The names of the nested volume stay apart exactly if they were. -/
theorem conversion_namesApart_sample :
    wp (conversion (sampleGlobals 400) {} 1000)
      (fun _ t => Roomy (sampleGlobals 400) t → ∃ tree,
        readForest (sampleGlobals 400) t.mem 3 ext4RootInode ext4RootInode = some tree ∧
        (tree.NamesApart FileView.name (dotUnits.map utf8) [] ↔
          Forest.NamesApart (fun node : FatNode => node.entry.name.units) dotUnits
            [lostFoundUnits]
            sampleForest))
      (fun cause t => Roomy (sampleGlobals 400) t → cause ≠ .fault) { mem := sampleVolume } := by
  refine conversion_namesApart_iff (sampleGlobals 400) {} 1000 sampleVolume [2] _ convertible_sample
    ?_ 1 depth_sampleForest.le
  intro node hnode
  rcases List.mem_cons.mp hnode with rfl | hnode
  · exact ⟨by decide, by decide⟩
  · rcases List.mem_pair.mp hnode with rfl | rfl
    · exact ⟨by decide, by decide⟩
    · exact ⟨by decide, by decide⟩

/-- The blocks of the finished volume pass a check: every block of an inode is a data block of this
inode alone, the bitmaps mark these blocks and the metadata, and `i_blocks` counts them. -/
theorem conversion_blocksClean (g : Globals) (env : Env) (fuel : ℕ) (m : Mem)
    (rootChain : List ℕ) (forest : Forest FatNode) (h : Convertible g m rootChain forest) :
    wp (conversion g env fuel) (fun _ t => Roomy g t → BlocksClean g t.mem)
      (fun cause t => Roomy g t → cause ≠ .fault) { mem := m } :=
  h.conversion_leaves fun hread hroomy hdone =>
    hdone.blocksClean h.accepted hroomy (hread.fits h.accepted h.volume h.counted) h.groups h.blocks

/-- The blocks of the nested volume behind its conversion. -/
theorem conversion_blocksClean_sample :
    wp (conversion (sampleGlobals 400) {} 1000)
      (fun _ t => Roomy (sampleGlobals 400) t → BlocksClean (sampleGlobals 400) t.mem)
      (fun cause t => Roomy (sampleGlobals 400) t → cause ≠ .fault) { mem := sampleVolume } :=
  conversion_blocksClean (sampleGlobals 400) {} 1000 sampleVolume [2] _ convertible_sample

/-- The extent trees of the finished volume pass a check: nodes of the right depth with no more
entries than room, and extents that follow one another from logical block 0 on, all of them
initialized. -/
theorem conversion_extentsClean (g : Globals) (env : Env) (fuel : ℕ) (m : Mem)
    (rootChain : List ℕ) (forest : Forest FatNode) (h : Convertible g m rootChain forest)
    (levels : ℕ) (hlevels : forest.depth ≤ levels) :
    wp (conversion g env fuel)
      (fun _ t => Roomy g t → ∀ n ∈ references g t.mem (levels + 2) ext4RootInode,
        ExtentsClean g t.mem n)
      (fun cause t => Roomy g t → cause ≠ .fault) { mem := m } :=
  h.conversion_leaves fun hread hroomy hdone _ hn =>
    hdone.extentsClean h.accepted hread hroomy (hread.fits h.accepted h.volume h.counted) h.blocks
      (hread.children.depth_eq ▸ hlevels) hn

/-- The extent trees of the nested volume behind its conversion. -/
theorem conversion_extentsClean_sample :
    wp (conversion (sampleGlobals 400) {} 1000)
      (fun _ t => Roomy (sampleGlobals 400) t →
        ∀ n ∈ references (sampleGlobals 400) t.mem 3 ext4RootInode,
          ExtentsClean (sampleGlobals 400) t.mem n)
      (fun cause t => Roomy (sampleGlobals 400) t → cause ≠ .fault) { mem := sampleVolume } :=
  conversion_extentsClean (sampleGlobals 400) {} 1000 sampleVolume [2] _ convertible_sample 1
    depth_sampleForest.le

/-- The inodes of the finished volume pass a check: those that the entries lead to from the root are
those that the bitmaps mark, with as many links as there are entries for them. -/
theorem conversion_inodesClean (g : Globals) (env : Env) (fuel : ℕ) (m : Mem)
    (rootChain : List ℕ) (forest : Forest FatNode) (h : Convertible g m rootChain forest)
    (levels : ℕ) (hlevels : forest.depth ≤ levels) :
    wp (conversion g env fuel) (fun _ t => Roomy g t → InodesClean g t.mem (levels + 2))
      (fun cause t => Roomy g t → cause ≠ .fault) { mem := m } :=
  h.conversion_leaves fun hread hroomy hdone =>
    hdone.inodesClean h.accepted hroomy (hread.fits h.accepted h.volume h.counted) h.blocks
      (hread.children.depth_eq ▸ hlevels)

/-- The inodes of the nested volume behind its conversion. -/
theorem conversion_inodesClean_sample :
    wp (conversion (sampleGlobals 400) {} 1000)
      (fun _ t => Roomy (sampleGlobals 400) t → InodesClean (sampleGlobals 400) t.mem 3)
      (fun cause t => Roomy (sampleGlobals 400) t → cause ≠ .fault) { mem := sampleVolume } :=
  conversion_inodesClean (sampleGlobals 400) {} 1000 sampleVolume [2] _ convertible_sample 1
    depth_sampleForest.le

/-- The directories of the finished volume pass a check: their blocks have the logical numbers up to
the size and are filled by entries that keep to their bounds, and the files and directories of the
FAT volume are met in preorder under consecutive inode numbers, `lost+found` behind them. -/
theorem conversion_directoriesClean (g : Globals) (env : Env) (fuel : ℕ) (m : Mem)
    (rootChain : List ℕ) (forest : Forest FatNode) (h : Convertible g m rootChain forest)
    (levels : ℕ) (hlevels : forest.depth ≤ levels) :
    wp (conversion g env fuel)
      (fun _ t => Roomy g t → DirectoriesClean g t.mem (levels + 2) forest.size)
      (fun cause t => Roomy g t → cause ≠ .fault) { mem := m } :=
  h.conversion_leaves fun hread hroomy hdone => by
    rw [hread.children.size_eq]
    exact hdone.directoriesClean h.accepted hroomy (hread.fits h.accepted h.volume h.counted)
      h.blocks (hread.children.depth_eq ▸ hlevels)

/-- The directories of the nested volume behind its conversion. -/
theorem conversion_directoriesClean_sample :
    wp (conversion (sampleGlobals 400) {} 1000)
      (fun _ t => Roomy (sampleGlobals 400) t →
        DirectoriesClean (sampleGlobals 400) t.mem 3 3)
      (fun cause t => Roomy (sampleGlobals 400) t → cause ≠ .fault) { mem := sampleVolume } :=
  conversion_directoriesClean (sampleGlobals 400) {} 1000 sampleVolume [2] _ convertible_sample 1
    depth_sampleForest.le

/-- The descriptors of the finished volume, in each of their copies, agree with the bitmaps and the
inode tables, and the super block with the descriptors. -/
theorem conversion_descriptorsClean (g : Globals) (env : Env) (fuel : ℕ) (m : Mem)
    (rootChain : List ℕ) (forest : Forest FatNode) (h : Convertible g m rootChain forest) :
    wp (conversion g env fuel)
      (fun _ t => Roomy g t → DescriptorsClean g t.mem ∧ SuperBlockClean g env t.mem)
      (fun cause t => Roomy g t → cause ≠ .fault) { mem := m } :=
  h.conversion_leaves fun _ _ hdone =>
    ⟨hdone.descriptorsClean h.groups, hdone.superBlockClean h.accepted h.groups⟩

/-- The descriptors and the super block of the nested volume behind its conversion. -/
theorem conversion_descriptorsClean_sample :
    wp (conversion (sampleGlobals 400) {} 1000)
      (fun _ t => Roomy (sampleGlobals 400) t → DescriptorsClean (sampleGlobals 400) t.mem ∧
        SuperBlockClean (sampleGlobals 400) {} t.mem)
      (fun cause t => Roomy (sampleGlobals 400) t → cause ≠ .fault) { mem := sampleVolume } :=
  conversion_descriptorsClean (sampleGlobals 400) {} 1000 sampleVolume [2] _ convertible_sample

/-- A driver that knows only where the volume starts reads from it the layout that the conversion
has used, with the magic number and the free counts, and finds the same in every copy. -/
theorem conversion_superBlockReadable (g : Globals) (env : Env) (stamp : SuperBlockStamp)
    (fuel : ℕ) (m : Mem) (rootChain : List ℕ) (forest : Forest FatNode)
    (h : Convertible g m rootChain forest) :
    wp (conversion g (env.withSuperBlock stamp) fuel)
      (fun _ t => Roomy g t → SuperBlockReadable g t.mem)
      (fun cause t => Roomy g t → cause ≠ .fault) { mem := m } :=
  h.conversion_leaves fun _ _ hdone => hdone.superBlockReadable h.accepted h.groups

/-- The super block of the nested volume can be read behind its conversion. -/
theorem conversion_superBlockReadable_sample :
    wp (conversion (sampleGlobals 400) (({} : Env).withSuperBlock {}) 1000)
      (fun _ t => Roomy (sampleGlobals 400) t → SuperBlockReadable (sampleGlobals 400) t.mem)
      (fun cause t => Roomy (sampleGlobals 400) t → cause ≠ .fault) { mem := sampleVolume } :=
  conversion_superBlockReadable (sampleGlobals 400) {} {} 1000 sampleVolume [2] _ convertible_sample

/-- The second phase loses no file: wherever it returns or stops, the bytes of every file are in the
clusters that the reading phase has recorded for it in the stream, and among the pages of the stream
and the clusters of all files and directories none occurs twice. -/
theorem secondPhase_keepsFiles (g : Globals) (env : Env) (fuel buildFuel : ℕ) (m : Mem)
    (rootChain : List ℕ) (forest : Forest FatNode) (h : Convertible g m rootChain forest) :
    wp (readingPhase g fuel)
      (fun streams s => wp (secondPhase g env buildFuel streams.1)
        (fun _ t => Roomy g t → AfterReading g m rootChain forest streams.1 s
          fun pages rootExtents records => FilesKept g m forest pages rootExtents records t)
        (fun _ t => Roomy g t → AfterReading g m rootChain forest streams.1 s
          fun pages rootExtents records => FilesKept g m forest pages rootExtents records t) s)
      NoFault { mem := m } := by
  apply h.secondPhase_rule True (Or.inl trivial)
  · intro r w pages rootExtents records s hread cause t hend hroomy
    obtain ⟨⟨O, hlog, -⟩, -⟩ := hend hroomy
    exact ⟨w, pages, rootExtents, records, hread, hlog.filesKept h hread⟩
  · intro r w pages rootExtents records s hread t hdone hroomy
    exact ⟨w, pages, rootExtents, records, hread,
      (hdone hroomy).building.inv.log.filesKept h hread⟩

/-- The files of the nested volume stay where the reading phase recorded them. -/
theorem secondPhase_keepsFiles_sample :
    wp (readingPhase (sampleGlobals 400) 1000)
      (fun streams s => wp (secondPhase (sampleGlobals 400) {} 1000 streams.1)
        (fun _ t => Roomy (sampleGlobals 400) t →
          AfterReading (sampleGlobals 400) sampleVolume [2]
            sampleForest streams.1 s
            fun pages rootExtents records => FilesKept (sampleGlobals 400) sampleVolume
              sampleForest pages
              rootExtents records t)
        (fun _ t => Roomy (sampleGlobals 400) t →
          AfterReading (sampleGlobals 400) sampleVolume [2]
            sampleForest streams.1 s
            fun pages rootExtents records => FilesKept (sampleGlobals 400) sampleVolume
              sampleForest pages
              rootExtents records t) s)
      NoFault { mem := sampleVolume } :=
  secondPhase_keepsFiles (sampleGlobals 400) {} 1000 1000 sampleVolume [2] _ convertible_sample

/-- The second phase stores to its own places: wherever it returns or stops, what it has registered
are distinct data blocks, and each store since the reading phase went to the metadata prefix of a
group or to a block that is registered or, where it stops, being filled, and neither belongs to a
file nor to the stream. What is being filled are distinct data blocks, taken and not registered. -/
theorem secondPhase_storesOwn (g : Globals) (env : Env) (fuel buildFuel : ℕ) (m : Mem)
    (rootChain : List ℕ) (forest : Forest FatNode) (h : Convertible g m rootChain forest) :
    wp (readingPhase g fuel)
      (fun streams s => wp (secondPhase g env buildFuel streams.1)
        (fun _ t => Roomy g t → AfterReading g m rootChain forest streams.1 s
          fun pages _ records => BuildLog g s (keptBlocks g pages records) [] t)
        (fun _ t => Roomy g t → AfterReading g m rootChain forest streams.1 s
          fun pages _ records => ∃ O, BuildLog g s (keptBlocks g pages records) O t ∧
            OpenBlocks g (keptBlocks g pages records) O t) s)
      NoFault { mem := m } := by
  apply h.secondPhase_rule True (Or.inl trivial)
  · exact fun hread _ _ hend hroomy => ⟨_, _, _, _, hread, (hend hroomy).1⟩
  · exact fun hread _ hdone hroomy => ⟨_, _, _, _, hread, (hdone hroomy).building.inv.log⟩

/-- The second phase on the nested volume writes to its own blocks only. -/
theorem secondPhase_storesOwn_sample :
    wp (readingPhase (sampleGlobals 400) 1000)
      (fun streams s => wp (secondPhase (sampleGlobals 400) {} 1000 streams.1)
        (fun _ t => Roomy (sampleGlobals 400) t →
          AfterReading (sampleGlobals 400) sampleVolume [2]
            sampleForest streams.1 s
            fun pages _ records =>
              BuildLog (sampleGlobals 400) s (keptBlocks (sampleGlobals 400) pages records) [] t)
        (fun _ t => Roomy (sampleGlobals 400) t →
          AfterReading (sampleGlobals 400) sampleVolume [2]
            sampleForest streams.1 s
            fun pages _ records => ∃ O,
              BuildLog (sampleGlobals 400) s (keptBlocks (sampleGlobals 400) pages records) O t ∧
                OpenBlocks (sampleGlobals 400) (keptBlocks (sampleGlobals 400) pages records) O t) s)
      NoFault { mem := sampleVolume } :=
  secondPhase_storesOwn (sampleGlobals 400) {} 1000 1000 sampleVolume [2] _ convertible_sample

/-- The second phase reads back what the reading phase has written: the extents, the number of
children and the children of every directory, in order and each segment up to its end. -/
theorem secondPhase_readsStream (g : Globals) (env : Env) (fuel buildFuel : ℕ) (m : Mem)
    (rootChain : List ℕ) (forest : Forest FatNode) (h : Convertible g m rootChain forest) :
    wp (readingPhase g fuel)
      (fun streams s => wp (secondPhase g env buildFuel streams.1)
        (fun _ t => Roomy g t → AfterReading g m rootChain forest streams.1 s
          fun _ rootExtents records =>
            t.ext4.reads = dirReads ext4RootInode 12 rootExtents records)
        (fun cause t => Roomy g t → cause ≠ .fault) s)
      NoFault { mem := m } := by
  apply h.secondPhase_rule True (Or.inl trivial)
  · exact fun _ _ _ hend hroomy => (hend hroomy).2.1
  · exact fun hread _ hdone hroomy => ⟨_, _, _, _, hread, (hdone hroomy).reads⟩

/-- The second phase on the nested volume reads back what was recorded. -/
theorem secondPhase_readsStream_sample :
    wp (readingPhase (sampleGlobals 400) 1000)
      (fun streams s => wp (secondPhase (sampleGlobals 400) {} 1000 streams.1)
        (fun _ t => Roomy (sampleGlobals 400) t →
          AfterReading (sampleGlobals 400) sampleVolume [2]
            sampleForest streams.1 s
            fun _ rootExtents records =>
              t.ext4.reads = dirReads ext4RootInode 12 rootExtents records)
        (fun cause t => Roomy (sampleGlobals 400) t → cause ≠ .fault) s)
      NoFault { mem := sampleVolume } :=
  secondPhase_readsStream (sampleGlobals 400) {} 1000 1000 sampleVolume [2] _ convertible_sample

/-- The second phase ends: with fuel for the allocator's search, the deepest directory and the
groups it returns, or it finds too few clusters or inodes. -/
theorem secondPhase_ends (g : Globals) (env : Env) (fuel buildFuel : ℕ) (m : Mem)
    (rootChain : List ℕ) (forest : Forest FatNode) (h : Convertible g m rootChain forest)
    (hfuel : loopFuel g + forest.depth < buildFuel) (hgroups : blockGroupCount g.sb < 2 ^ 16) :
    wp (readingPhase g fuel)
      (fun streams s => wp (secondPhase g env buildFuel streams.1) (fun _ _ => True)
        (fun cause t => Roomy g t →
          cause = .exit fsIsFullMessage ∨ cause = .exit notEnoughInodesMessage) s)
      NoFault { mem := m } := by
  apply h.secondPhase_rule False (Or.inr ⟨hfuel, hgroups⟩)
  · exact fun _ _ _ hend hroomy => (hend hroomy).2.2.resolve_left id
  · exact fun _ _ _ => trivial

/-- The second phase on the nested volume ends. -/
theorem secondPhase_ends_sample :
    wp (readingPhase (sampleGlobals 400) 1000)
      (fun streams s => wp (secondPhase (sampleGlobals 400) {}
          (loopFuel (sampleGlobals 400) + 2) streams.1) (fun _ _ => True)
        (fun cause t => Roomy (sampleGlobals 400) t →
          cause = .exit fsIsFullMessage ∨ cause = .exit notEnoughInodesMessage) s)
      NoFault { mem := sampleVolume } :=
  secondPhase_ends (sampleGlobals 400) {} 1000 (loopFuel (sampleGlobals 400) + 2) sampleVolume [2] _
    convertible_sample (Nat.lt_succ_self _) (by decide)

end OfsConvert
