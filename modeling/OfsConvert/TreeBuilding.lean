import OfsConvert.DirectoryBuilding

/-!
# Building the directory tree

The children of a directory are built while its blocks are filled, and a child directory is built
in between. `DirBuilt` and `ForestBuilt` say what stands in the file system then; work on later
inodes keeps it.
-/

namespace OfsConvert

/-- The name of the entry for a record. -/
def entryName (rec : Record) : List UInt8 :=
  utf8 (keptName (ext4NameLen - 1) (rec.name.map unitsOf))

namespace Forest

/-- The number of files and directories. -/
def size {α : Type} : Forest α → ℕ
  | nil => 0
  | file _ rest => rest.size + 1
  | dir _ children rest => children.size + rest.size + 1

/-- The directories that are nested in the forest. -/
def depth {α : Type} : Forest α → ℕ
  | nil => 0
  | file _ rest => rest.depth
  | dir _ children rest => max (children.depth + 1) rest.depth

/-- Related forests have the same depth. -/
theorem Rel.depth_eq {α β : Type} {R : α → β → Prop} {t : Forest α} {t' : Forest β}
    (h : Rel R t t') : t.depth = t'.depth := by
  induction h with
  | nil => rfl
  | file _ _ ih => rw [depth, depth, ih]
  | dir _ _ _ ihc ihr => rw [depth, depth, ihc, ihr]

/-- The number of directories among the children of the directory that holds the forest. -/
def dirCount {α : Type} : Forest α → ℕ
  | nil => 0
  | file _ rest => rest.dirCount
  | dir _ _ rest => rest.dirCount + 1

/-- The entries of the children, whose inodes are numbered in preorder from `k` on. -/
def childEntries : ℕ → Forest Record → List DirEntry
  | _, nil => []
  | k, file rec rest => newEntry k (entryName rec) :: childEntries (k + 1) rest
  | k, dir rec children rest =>
    newEntry k (entryName rec) :: childEntries (k + 1 + children.size) rest

/-- The counts that the stream holds are not cut. -/
def Counted {α : Type} : Forest α → Prop
  | nil => True
  | file _ rest => rest.Counted
  | dir _ children rest => children.count < 2 ^ 32 ∧ children.Counted ∧ rest.Counted

end Forest

/-- What is read from the stream for the children of directory `n`. -/
def childReads : ℕ → ℕ → Forest Record → List StreamRead
  | _, _, .nil => []
  | n, k, .file rec rest =>
    segmentReads n [rec.dentry] ++ segmentReads n rec.name ++
      (segmentReads n (rec.extents.map fatExtentBytes) ++ segmentReads n [dummyChildrenCount]) ++
      childReads n (k + 1) rest
  | n, k, .dir rec children rest =>
    segmentReads n [rec.dentry] ++ segmentReads n rec.name ++
      (segmentReads k (rec.extents.map fatExtentBytes) ++
        segmentReads k [leBytes 4 (u32 children.count)] ++ childReads k (k + 1) children) ++
      childReads n (k + 1 + children.size) rest

/-- What is read from the stream for directory `n`. -/
def dirReads (n k : ℕ) (es : List FatExtent) (children : Forest Record) : List StreamRead :=
  segmentReads n (es.map fatExtentBytes) ++ segmentReads n [leBytes 4 (u32 children.count)] ++
    childReads n k children

/-- A directory is built: its inode has a link for itself, for its entry and for each child
directory, and its blocks hold its entries. -/
structure DirBuilt (g : Globals) (t : State) (n parent : ℕ) (inode : Ext4Inode)
    (own : List ℕ) (k : ℕ) (children : Forest Record) : Prop where
  node : DirNode g t n inode (u16 (inode.iLinksCount + children.dirCount))
  blocks : ∃ blocks : List (ℕ × List DirEntry),
    blocks.map Prod.snd = packDirectory (blockSize g.sb) n parent (children.childEntries k) ∧
    inTreeOf t.ext4.registered n = extentRanges g n (dirExtents (blocks.map Prod.fst)) ∧
    (∀ x ∈ blocks, HoldsEntries g t.mem x.1 x.2) ∧
    own.take blocks.length <+: blocks.map Prod.fst ∧
    sizeOf g t.mem n = u32 (blocks.length * blockSize g.sb)

/-- The files and directories of a forest are built, with the numbers from `k` on. -/
def ForestBuilt (g : Globals) (env : Env) (t : State) : ℕ → ℕ → Forest Record → Prop
  | _, _, .nil => True
  | parent, k, .file rec rest => FileBuilt g env t k rec ∧ ForestBuilt g env t parent (k + 1) rest
  | parent, k, .dir rec children rest =>
    DirBuilt g t k parent (inodeOf env rec.dentry) (physical rec.extents) (k + 1) children ∧
      ForestBuilt g env t k (k + 1) children ∧
      ForestBuilt g env t parent (k + 1 + children.size) rest

/-- What the records of a tree must be like: sound, with extents in the data area, and the blocks
of directories may be overwritten. -/
structure RecordFits (g : Globals) (F : List ℕ) (rec : Record) : Prop where
  sound : rec.Sound
  clusters : ∀ c ∈ physical rec.extents, DataCluster g c
  own : isDir rec.dentry = true → ∀ c ∈ physical rec.extents,
    fatClToE4blk g.bootSector g.metaInfo c ∉ F

/-- What the records of a forest must be like, with the counts of its directories. -/
structure ForestFits (g : Globals) (F : List ℕ) (forest : Forest Record) : Prop where
  records : ∀ rec ∈ forest.toList, RecordFits g F rec
  kinds : forest.Kinds
  counted : forest.Counted

section Forest

variable {g : Globals} {F : List ℕ} {rec : Record} {children rest forest : Forest Record}

/-- A forest that starts with a file. -/
theorem ForestFits.file (h : ForestFits g F (.file rec rest)) :
    RecordFits g F rec ∧ isDir rec.dentry = false ∧ ForestFits g F rest :=
  ⟨h.records rec List.mem_cons_self, h.kinds.1,
    fun d hd => h.records d (List.mem_cons_of_mem rec hd), h.kinds.2, h.counted⟩

/-- A forest that starts with a directory. -/
theorem ForestFits.dir (h : ForestFits g F (.dir rec children rest)) :
    RecordFits g F rec ∧ isDir rec.dentry = true ∧ children.count < 2 ^ 32 ∧
      ForestFits g F children ∧ ForestFits g F rest :=
  ⟨h.records rec List.mem_cons_self, h.kinds.1, h.counted.1,
    ⟨fun d hd => h.records d (List.mem_cons_of_mem rec (List.mem_append_left _ hd)), h.kinds.2.1,
      h.counted.2.1⟩,
    ⟨fun d hd => h.records d (List.mem_cons_of_mem rec (List.mem_append_right _ hd)), h.kinds.2.2,
      h.counted.2.2⟩⟩

/-- The blocks of a file and of what is behind it. -/
theorem recordedBlocks_file : recordedBlocks g (Forest.file rec rest).extents =
    recordedBlocks g rec.extents ++ recordedBlocks g rest.extents := recordedBlocks_append _ _

/-- The blocks of a directory, of what is in it and of what is behind it. -/
theorem recordedBlocks_dir : recordedBlocks g (Forest.dir rec children rest).extents =
    recordedBlocks g rec.extents ++
      (recordedBlocks g children.extents ++ recordedBlocks g rest.extents) := by
  rw [Forest.extents, Forest.toList, List.flatMap_cons, List.flatMap_append, recordedBlocks_append,
    recordedBlocks_append]
  rfl

/-- The name of an entry fits into its length field. -/
theorem entryName_length (rec : Record) : (entryName rec).length < 256 := by
  have hkept := textWidth_keptName_le (ext4NameLen - 1) (rec.name.map unitsOf)
  have hlength := length_utf8 (keptName (ext4NameLen - 1) (rec.name.map unitsOf))
  unfold ext4NameLen at *
  rw [entryName]
  unfold ext4NameLen
  omega

end Forest

section Keeping

variable {g : Globals} (hg : Accepted g) {env : Env} {P own : List ℕ} {n parent k : ℕ}
  {s t : State} {D : Set ℕ} {inode : Ext4Inode} {children forest : Forest Record}
include hg

/-- Work on other inodes keeps a directory. -/
theorem DirBuilt.work (h : DirBuilt g s n parent inode own k children) (hwork : Work g D P s t)
    (hn : n ∉ D) : DirBuilt g t n parent inode own k children := by
  obtain ⟨blocks, hpacked, htree, hholds, hown, hsize⟩ := h.blocks
  refine ⟨h.node.work hwork hn, blocks, hpacked, (hwork.inTreeOf_eq hn).trans htree,
    holdsEntries_kept hg hholds htree hwork, hown, ?_⟩
  rw [← hsize]
  exact sizeOf_eq_of_fields fun a ha =>
    hwork.step.inodes n h.node.place hn a (fields_outside (Or.inl ha)).1

/-- Work on other inodes keeps a forest. -/
theorem ForestBuilt.work (h : ForestBuilt g env s parent k forest) (hwork : Work g D P s t)
    (hn : ∀ j, k ≤ j → j < k + forest.size → j ∉ D) : ForestBuilt g env t parent k forest := by
  induction forest generalizing parent k with
  | nil => trivial
  | file rec rest ih =>
    rw [Forest.size] at hn
    exact ⟨h.1.work hwork (hn k le_rfl (by omega)),
      ih h.2 fun j hlow hhigh => hn j (by omega) (by omega)⟩
  | dir rec children rest ihc ihr =>
    rw [Forest.size] at hn
    exact ⟨h.1.work hg hwork (hn k le_rfl (by omega)),
      ihc h.2.1 fun j hlow hhigh => hn j (by omega) (by omega),
      ihr h.2.2 fun j hlow hhigh => hn j (by omega) (by omega)⟩

end Keeping

/-- The first part of the loop body in `build_ext4_metadata_tree`: the child gets an inode and an
entry. The results are the child's FAT entry and its number. -/
def placeChild (g : Globals) (env : Env) (dirInodeNo fuel i : ℕ) (d : DirState) :
    Prog (ℕ × ℕ × DirState) := do
  let (fDentry, readStream) ← readNext g dirInodeNo sizeofFatDentry d.readStream
  let (_, readStream) ← readNext g dirInodeNo sizeofFatDentry readStream
  let inodeNumber ← buildInode g env fDentry
  let (eDentry, readStream) ←
    buildDentry g dirInodeNo fuel (env.fresh dirInodeNo (i + 2)) inodeNumber readStream
  let d ← nextBlockIfFull g dirInodeNo fuel eDentry.recLen { d with readStream := readStream }
  let previousDentry := blockStart g.metaInfo g.sb d.dentryBlockNo + d.positionInBlock
  storeBytes previousDentry (eDentry.bytes eDentry.recLen)
  pure (fDentry, inodeNumber, { d with
    previousDentry := previousDentry
    positionInBlock := d.positionInBlock + eDentry.recLen })

/-- The second part: the child's extents or its own children. -/
def fillChild (g : Globals) (descend : ℕ → ℕ → StreamArchiver → Prog StreamArchiver)
    (dirInodeNo fuel fDentry inodeNumber : ℕ) (readStream : StreamArchiver) :
    Prog StreamArchiver := do
  let m ← getMem
  if isDir (dentryAt m fDentry) then do
    incrLinksCount g dirInodeNo
    descend inodeNumber dirInodeNo readStream
  else do
    let readStream ← setExtents g dirInodeNo fuel inodeNumber fDentry readStream
    skipChildCount g dirInodeNo fuel readStream

/-- A child is placed and then filled. -/
theorem buildChild_eq (g : Globals) (env : Env)
    (descend : ℕ → ℕ → StreamArchiver → Prog StreamArchiver) (dirInodeNo fuel i : ℕ)
    (d : DirState) :
    buildChild g env descend dirInodeNo fuel i d = (do
      let (fDentry, inodeNumber, d) ← placeChild g env dirInodeNo fuel i d
      let readStream ← fillChild g descend dirInodeNo fuel fDentry inodeNumber d.readStream
      pure { d with readStream := readStream }) := by
  simp only [buildChild, placeChild, fillChild, bind_assoc, pure_bind]

/-- The part of `build_ext4_metadata_tree` in front of the loop, with the number of children. -/
def enterDirectory (g : Globals) (env : Env) (fuel dirInodeNo parentInodeNo : ℕ)
    (readStream : StreamArchiver) : Prog (ℕ × DirState) := do
  let iterator ← ExtentIterator.init g readStream
  let (dentryBlockNo, iterator) ← nextDirBlock g fuel iterator
  let dentryBlockStart := blockStart g.metaInfo g.sb dentryBlockNo
  let readStream ← skipDirExtents g dirInodeNo fuel readStream
  let (count, readStream) ← readNext g dirInodeNo 4 readStream
  notNull count
  let m ← getMem
  let childCount := m.readLE count 4
  let (_, readStream) ← readNext g dirInodeNo 4 readStream
  let previousDentry ← buildDotDirs env dirInodeNo parentInodeNo dentryBlockStart
  pure (childCount, {
    readStream := readStream
    iterator := iterator
    dentryBlockNo := dentryBlockNo
    blockCount := 1
    previousDentry := previousDentry
    positionInBlock := 2 * ext4DotDentrySize })

/-- The part behind the loop. -/
def leaveDirectory (g : Globals) (fuel dirInodeNo : ℕ) (d : DirState) : Prog StreamArchiver := do
  if d.previousDentry ≠ 0 then stretchDentry g d.previousDentry d.positionInBlock
  registerDirExtent g fuel d.dentryBlockNo (sub32 d.blockCount 1) dirInodeNo
  setSize g dirInodeNo (u32 (d.blockCount * blockSize g.sb))
  pure d.readStream

/-- A directory is entered, its children are built, and it is left. -/
theorem buildExt4MetadataTree_succ (g : Globals) (env : Env) (fuel n parent : ℕ)
    (r : StreamArchiver) :
    buildExt4MetadataTree g env (fuel + 1) n parent r = (do
      let (childCount, d) ← enterDirectory g env fuel n parent r
      let d ← buildChildren g env (buildExt4MetadataTree g env fuel) n fuel childCount 0 d
      leaveDirectory g fuel n d) := by
  simp only [buildExt4MetadataTree, enterDirectory, leaveDirectory, bind_assoc, pure_bind]

/-- A directory of which the blocks are being filled. -/
structure OpenDir (g : Globals) (F : List ℕ) (base : Mem) (own : List ℕ) (n : ℕ)
    (inode : Ext4Inode) (links : ℕ) (l : Layout) (d : DirState) (s : State) : Prop where
  blocks : DirBlocks g F base own n l.closed l.cluster (l.before ++ [l.last]) d s
  previous : d.previousDentry = clusterStart g.metaInfo l.cluster + entriesWidth l.before
  node : DirNode g s n inode links

/-- What `placeChild` does for a record, with the layout behind it. -/
structure ChildPlaced (g : Globals) (env : Env) (F : List ℕ) (base : Mem) (own : List ℕ) (n : ℕ)
    (inode : Ext4Inode) (links : ℕ) (rec : Record) (D : Set ℕ) (P : List ℕ) (r : StreamArchiver)
    (l l' : Layout) (x : ℕ × ℕ × DirState) (s t : State) : Prop where
  number : x.2.1 = s.ext4.firstFreeInodeNo
  dentry : ∀ m, AgreesOn g F base m → m.read x.1 sizeofFatDentry = rec.dentry
  packed : ∀ es, l'.packed (blockSize g.sb) es =
    l.packed (blockSize g.sb) (newEntry s.ext4.firstFreeInodeNo (entryName rec) :: es)
  dir : OpenDir g F base own n inode links l' x.2.2 t
  stream : x.2.2.readStream = r
  child : InodeBuilt g t s.ext4.firstFreeInodeNo (inodeOf env rec.dentry)
  work : Work g D P s t
  firstFree : t.ext4.firstFreeInodeNo = s.ext4.firstFreeInodeNo + 1
  reads : t.ext4.reads =
    s.ext4.reads ++ (segmentReads n [rec.dentry] ++ segmentReads n rec.name)

/-- What building some children of a directory does, with the layout behind it. -/
structure ChildrenBuilt (g : Globals) (env : Env) (F : List ℕ) (base : Mem) (own : List ℕ) (n : ℕ)
    (inode : Ext4Inode) (links : ℕ) (D : Set ℕ) (P : List ℕ) (forest : Forest Record)
    (r : StreamArchiver) (l l' : Layout) (d : DirState) (s t : State) : Prop where
  packed : ∀ es, l'.packed (blockSize g.sb) es =
    l.packed (blockSize g.sb) (forest.childEntries s.ext4.firstFreeInodeNo ++ es)
  dir : OpenDir g F base own n inode (u16 (links + forest.dirCount)) l' d t
  stream : d.readStream = r
  built : ForestBuilt g env t n s.ext4.firstFreeInodeNo forest
  work : Work g D P s t
  firstFree : t.ext4.firstFreeInodeNo = s.ext4.firstFreeInodeNo + forest.size
  reads : t.ext4.reads = s.ext4.reads ++ childReads n s.ext4.firstFreeInodeNo forest

/-- What building a directory does. -/
structure TreeBuilt (g : Globals) (env : Env) (D : Set ℕ) (P : List ℕ) (n parent : ℕ)
    (inode : Ext4Inode) (es : List FatExtent) (children : Forest Record) (s t : State) : Prop where
  work : Work g D P s t
  firstFree : t.ext4.firstFreeInodeNo = s.ext4.firstFreeInodeNo + children.size
  reads : t.ext4.reads = s.ext4.reads ++ dirReads n s.ext4.firstFreeInodeNo es children
  dir : DirBuilt g t n parent inode (physical es) s.ext4.firstFreeInodeNo children
  built : ForestBuilt g env t n s.ext4.firstFreeInodeNo children

/-- The call builds the directory that the stream describes, unless it stops; it descends as deep
as `levels`. -/
def BuildsTree (g : Globals) (env : Env) (m₀ : Mem) (base : State) (F : List ℕ) (short : Prop)
    (levels : ℕ) (descend : ℕ → ℕ → StreamArchiver → Prog StreamArchiver) : Prop :=
  ∀ {n parent : ℕ} {r r' : StreamArchiver} {es : List FatExtent} {children : Forest Record}
    {inode : Ext4Inode} {O R : List ℕ} {s : State},
    Building g ∅ m₀ base F O (recordedBlocks g es ++ (recordedBlocks g children.extents ++ R)) s →
    InodeBuilt g s n inode → inode.iLinksCount < 2 ^ 16 → parent < 2 ^ 32 →
    ReadsDirectory g F base.mem es children r r' →
    (∀ c ∈ physical es, DataCluster g c ∧ fatClToE4blk g.bootSector g.metaInfo c ∉ F) →
    children.count < 2 ^ 32 → ForestFits g F children → es.length < 2 ^ 64 →
    (short ∨ children.depth < levels) →
    wp (descend n parent r)
      (Within g fun x t => x = r' ∧ Building g ∅ m₀ base F O R t ∧
        TreeBuilt g env (ownInodes n s) (O ++ R) n parent inode es children s t)
      (Within g (SafeStop g base F short)) s

section Appending

variable {g : Globals} {env : Env} {t : State} {n k : ℕ}

/-- The nodes of two forests add up. -/
theorem Forest.size_append {α : Type} (f f' : Forest α) : (f.append f').size = f.size + f'.size := by
  induction f with
  | nil => rw [append, size, Nat.zero_add]
  | file a rest ih =>
    rw [append, size, ih, size]
    omega
  | dir a children rest _ ih =>
    rw [append, size, ih, size]
    omega

/-- The directories of two forests add up. -/
theorem Forest.dirCount_append {α : Type} (f f' : Forest α) :
    (f.append f').dirCount = f.dirCount + f'.dirCount := by
  induction f with
  | nil => rw [append, dirCount, Nat.zero_add]
  | file a rest ih => rw [append, dirCount, ih, dirCount]
  | dir a children rest _ ih =>
    rw [append, dirCount, ih, dirCount]
    omega

/-- The entries of two forests follow one another, and the inode numbers go on. -/
theorem Forest.childEntries_append (k : ℕ) (f f' : Forest Record) :
    (f.append f').childEntries k = f.childEntries k ++ f'.childEntries (k + f.size) := by
  induction f generalizing k with
  | nil => rfl
  | file rec rest ih =>
    rw [append, childEntries, ih, childEntries, size, List.cons_append]
    congr 3
    omega
  | dir rec children rest _ ih =>
    rw [append, childEntries, ih, childEntries, size, List.cons_append]
    congr 3
    omega

/-- The reads for two forests follow one another. -/
theorem childReads_append (n k : ℕ) (f f' : Forest Record) :
    childReads n k (f.append f') = childReads n k f ++ childReads n (k + f.size) f' := by
  induction f generalizing k with
  | nil => rfl
  | file rec rest ih =>
    rw [Forest.append, childReads, ih, childReads, Forest.size, List.append_assoc _ (childReads _ _ _)]
    congr 3
    omega
  | dir rec children rest _ ih =>
    rw [Forest.append, childReads, ih, childReads, Forest.size,
      List.append_assoc _ (childReads _ _ rest)]
    congr 3
    omega

/-- Two forests are built one behind the other. -/
theorem ForestBuilt_append (f f' : Forest Record) : ForestBuilt g env t n k (f.append f') ↔
    ForestBuilt g env t n k f ∧ ForestBuilt g env t n (k + f.size) f' := by
  induction f generalizing k with
  | nil => exact (and_iff_right trivial).symm
  | file rec rest ih =>
    rw [Forest.append, ForestBuilt, ih, ForestBuilt, Forest.size, and_assoc, Nat.add_assoc k,
      Nat.add_comm 1]
  | dir rec children rest _ ih =>
    rw [Forest.append, ForestBuilt, ih, ForestBuilt, Forest.size, and_assoc, and_assoc,
      show k + 1 + children.size + rest.size = k + (children.size + rest.size + 1) by omega]

end Appending

/-- The fuel for all loops is enough for an allocation. -/
theorem allocationFuel_le {g : Globals} {short : Prop} {fuel : ℕ}
    (hfuel : short ∨ loopFuel g ≤ fuel) : short ∨ allocationFuel g ≤ fuel :=
  hfuel.imp_right (Nat.le_add_right _ _).trans

section Children

variable {g : Globals} (hg : Accepted g) {env : Env} {m₀ : Mem} {base : State}
  {F O R P own : List ℕ} {n parent k links : ℕ} {s t : State} {D : Set ℕ} {inode : Ext4Inode}
  {children forest : Forest Record} {rec : Record} {l : Layout} {d : DirState}
  {r r' r₁ r₂ : StreamArchiver} {es : List FatExtent} {short : Prop} {levels fuel : ℕ}
include hg

omit hg in
/-- A number that has been handed out is not the next one. -/
theorem Building.made_lt (h : Building g ∅ m₀ base F O R s) (hmade : Made s n) :
    n < s.ext4.firstFreeInodeNo := by
  have hlow := h.inv.firstFree.1
  rcases hmade with rfl | hmade
  · unfold ext4RootInode
    omega
  · exact hmade.2

/-- A child gets the next inode and the next entry. -/
theorem placeChild_building
    (h : Building g ∅ m₀ base F (fatClToE4blk g.bootSector g.metaInfo l.cluster :: O)
      (clusterBlocks g (own.drop (l.closed.length + 1)) ++ R) s)
    (hown : ∀ c ∈ own, DataCluster g c ∧ fatClToE4blk g.bootSector g.metaInfo c ∉ F)
    (hdir : OpenDir g F base.mem own n inode links l d s)
    (hdentry : Reads g F base.mem sizeofFatDentry [rec.dentry] d.readStream r₁)
    (hname : Reads g F base.mem (lfnEntryLength * 2) rec.name r₁ r₂) (hd : n ∈ D)
    (hff : s.ext4.firstFreeInodeNo ∈ D) (hP : P ⊆ O ++ R)
    (hsound : rec.Sound) (hfuel : short ∨ loopFuel g ≤ fuel) (i : ℕ) :
    wp (placeChild g env n fuel i d)
      (Within g fun x t => ∃ l',
        Building g ∅ m₀ base F (fatClToE4blk g.bootSector g.metaInfo l'.cluster :: O)
          (clusterBlocks g (own.drop (l'.closed.length + 1)) ++ R) t ∧
        ChildPlaced g env F base.mem own n inode links rec D P r₂ l l' x s t)
      (Within g (SafeStop g base F short)) s := by
  obtain ⟨hblocks, hprevious, hnode⟩ := hdir
  have hlt := h.made_lt hnode.made
  have hfull := h.inv.firstFree.2
  have hshort : short ∨ rec.name.length < fuel := hfuel.imp_right fun hmuch => by
    have hle := hsound.short.1
    unfold loopFuel at hmuch
    omega
  rw [placeChild, wp_bind]
  refine wp_mono (hdentry.next h.agrees) ?_ (fun _ _ hend => hend)
  rintro ⟨p, r₀⟩ s₁ ⟨rfl, hp, hread, hrest⟩
  dsimp only at hp hread hrest ⊢
  rw [wp_bind]
  refine wp_mono (hrest.done h.agrees) ?_ (fun _ _ hend => hend)
  rintro _ s₂ ⟨rfl, rfl⟩
  dsimp only
  have hlog : LogOnly s (s.logSegment n [rec.dentry]) := LogOnly.logSegment s n [rec.dentry]
  have hreads := s.logSegment_reads n [rec.dentry]
  change wp _ _ _ (s.logSegment n [rec.dentry])
  obtain ⟨hregistered, hff'⟩ := hlog.kept
  generalize s.logSegment n [rec.dentry] = s₂ at hlog hreads hff' hregistered ⊢
  have h₂ := h.logOnly hlog
  -- the open block and everything that is kept stay as they are while the inode is made
  rw [wp_bind]
  refine wp_mono (buildInode_building (D := {s.ext4.firstFreeInodeNo}) hg env h₂ hp
    (hread _ h₂.agrees) hff' (List.Subset.refl _)) ?_ (fun _ _ hend _ => hend)
  rintro k s₃ ⟨h₃, hsaves, hchild⟩
  have hk : k = s.ext4.firstFreeInodeNo := hsaves.number.trans hff'
  subst hk
  have hwork₃ := (Work.logOnly {s.ext4.firstFreeInodeNo} _ hlog).trans hsaves.work
  have hregistered₃ : s₃.ext4.registered = s.ext4.registered := hsaves.registered.trans hregistered
  have hblocks₃ := hblocks.work hg hwork₃ (by simp) (by rw [hregistered₃])
  have hnode₃ := hnode.work hwork₃ (by simpa using hlt.ne)
  rw [wp_bind]
  refine wp_mono (buildDentry_spec n
    (hshort.symm.imp_right fun hdry t ht => (h₃.logOnly ht).runsDry hdry) (env.fresh n (i + 2))
    s.ext4.firstFreeInodeNo (hname.yields h₃.agrees)) ?_
    (fun _ _ hend _ => hend)
  rintro _ s₄ ⟨rfl, rfl⟩
  dsimp only
  have hlog₄ := LogOnly.logSegment s₃ n rec.name
  have hreads₄ := s₃.logSegment_reads n rec.name
  obtain ⟨hregistered₄, hff₄⟩ := hlog₄.kept
  generalize s₃.logSegment n rec.name = s₄ at hlog₄ hreads₄ hregistered₄ hff₄ ⊢
  have hnew : namedDentry (env.fresh n (i + 2)) s.ext4.firstFreeInodeNo (entryName rec) =
      namedDentry (env.fresh n (i + 2)) s.ext4.firstFreeInodeNo
        (utf8 (keptName (ext4NameLen - 1) (rec.name.map unitsOf))) := rfl
  rw [← hnew]
  have hwidth := newEntry_width s.ext4.firstFreeInodeNo (entryName_length rec)
  have hlength := entryName_length rec
  have hsize := hg.blockSize_ge
  have hbounded := hblocks.bounded
  have hwork₄ := hwork₃.trans (Work.logOnly _ _ hlog₄)
  have hblocks₄ := hblocks.work hg hwork₄ (by simp) (by rw [hregistered₄, hregistered₃])
  have hnode₄ := hnode.work hwork₄ (by simpa using hlt.ne)
  have hchild₄ := hchild.work (Work.logOnly ∅ [] hlog₄) (Set.notMem_empty _)
  refine wp_bind_within (fun _ => TreesGrow.of_keeps
    (SameTrees.bind (SameTrees.storeBytes _ _) fun _ => SameTrees.pure _)) ?_
  refine within_mono (nextBlockIfFull_building (D := {n}) (P := P) (l := l)
    (e := newEntry s.ext4.firstFreeInodeNo (entryName rec)) hg (h₃.logOnly hlog₄) hown
    (hblocks₄.readFrom r₂) hprevious hnode₄ rfl hP (by rw [hff₄, hsaves.firstFree]; omega)
    (by omega) (allocationFuel_le hfuel)) ?_
  rintro d' s₅ ⟨next, l', hl', h₅, hblocks₅, hfits, hstream, hlast, hnode₅, hwork₅, hreads₅, hff₅⟩
  rw [wp_bind, hblocks₅.block, hblocks₅.position,
    hg.blockStart_fatClToE4blk hblocks₅.entries.data]
  refine wp_mono (storeEntry_building (D := {n}) (P := P) (E := fun _ _ => False) hg
    (env.fresh n (i + 2)) _ h₅ hblocks₅.entries (fun b hb => ?_) hchild.place.upper hlength hfits)
    ?_ (fun _ _ hend => hend.elim)
  · rcases List.mem_append.mp (hP hb) with hin | hin
    · exact List.mem_append_left _ hin
    · exact List.mem_append_right _ (List.mem_append_right _ hin)
  rintro _ t ⟨h₆, hregisters, hentry⟩ _
  have hregisters := hregisters n hnode.place
  have hwork₆ := hwork₅.trans hregisters.work
  have hkept : P ⊆ fatClToE4blk g.bootSector g.metaInfo l.cluster :: O ++
      (clusterBlocks g (own.drop (l.closed.length + 1)) ++ R) := fun b hb =>
    (List.mem_append.mp (hP hb)).elim
      (fun hin => List.mem_append_left _ (List.mem_cons_of_mem _ hin))
      fun hin => List.mem_append_right _ (List.mem_append_right _ hin)
  refine ⟨l', h₆, rfl, hread, fun es => by rw [hl', Layout.packed_add], ⟨?_, ?_,
    hnode₅.registers hregisters⟩, hstream, hchild₄.work hwork₆ (by simpa using hlt.ne'),
    (hwork₄.mono (Set.singleton_subset_iff.mpr hff) hkept).trans
      (hwork₆.mono (Set.singleton_subset_iff.mpr hd) (List.Subset.refl P)), ?_, ?_⟩
  · rw [hlast]
    refine hblocks₅.fill hg hregisters hentry rfl hblocks₅.block.symm rfl ?_
    rw [entriesWidth_append, entriesWidth_singleton]
    rfl
  · rfl
  · rw [hregisters.firstFree, hff₅, hff₄, hsaves.firstFree]
  · rw [hregisters.reads, List.append_nil, hreads₅, hreads₄, hsaves.reads, hreads,
      List.append_assoc]

/-- One part of the children, then the others. -/
theorem ChildrenBuilt.trans {f f' : Forest Record} {l l' l'' : Layout} {d d' : DirState}
    {u : State} (h : ChildrenBuilt g env F base.mem own n inode links (ownInodes n s) P f r l l' d s t)
    (h' : ChildrenBuilt g env F base.mem own n inode (links + f.dirCount) (ownInodes n t) P f' r' l'
      l'' d' t u) (hlt : n < s.ext4.firstFreeInodeNo) :
    ChildrenBuilt g env F base.mem own n inode links (ownInodes n s) P (f.append f') r' l l'' d' s
      u := by
  have hff := h.firstFree
  refine ⟨fun es => ?_, ?_, h'.stream, ?_,
    h.work.trans (h'.work.mono (Step.ownInodes_subset h.work.step.firstFree (Or.inl rfl))
      (List.Subset.refl P)), ?_, ?_⟩
  · rw [h'.packed, h.packed, Forest.childEntries_append, List.append_assoc, hff]
  · rw [Forest.dirCount_append, ← Nat.add_assoc]
    exact h'.dir
  · refine (ForestBuilt_append f f').mpr ⟨h.built.work hg h'.work fun j hlow hhigh hj => ?_, ?_⟩
    · rcases hj with rfl | hj
      · exact absurd hlt (Nat.not_lt.mpr hlow)
      · omega
    · rw [← hff]
      exact h'.built
  · rw [h'.firstFree, hff, Forest.size_append, Nat.add_assoc]
  · rw [h'.reads, h.reads, childReads_append, List.append_assoc, hff]

/-- Work on a child keeps its open directory. -/
theorem OpenDir.work (h : OpenDir g F base.mem own n inode links l d s)
    (hwork : Work g D P s t) (hn : n ∉ D)
    (hkept : fatClToE4blk g.bootSector g.metaInfo l.cluster ∈ P) (r : StreamArchiver) :
    OpenDir g F base.mem own n inode links l { d with readStream := r } t :=
  ⟨(h.blocks.work hg hwork hkept (hwork.inTreeOf_eq hn)).readFrom r, h.previous,
    h.node.work hwork hn⟩

omit hg in
/-- Filling a child only adds to the trees if the descent does. -/
theorem TreesGrow.fillChild {descend : ℕ → ℕ → StreamArchiver → Prog StreamArchiver}
    (hdescend : ∀ n d r, Keeps TreesGrow (descend n d r)) (n fuel p k : ℕ) (r : StreamArchiver) :
    Keeps TreesGrow (fillChild g descend n fuel p k r) := by
  refine TreesGrow.bind (TreesGrow.of_keeps SameTrees.getMem) fun _ => Keeps.ite ?_ ?_
  · exact TreesGrow.bind (TreesGrow.of_keeps (SameTrees.incrLinksCount _ _)) fun _ =>
      hdescend _ _ _
  · exact TreesGrow.bind (TreesGrow.setExtents _ _ _ _ _ _) fun _ =>
      TreesGrow.of_keeps (SameTrees.skipSegment _ _ _ _ _)

/-- A child that is a file. -/
theorem buildChild_file {descend : ℕ → ℕ → StreamArchiver → Prog StreamArchiver}
    (hkeeps : ∀ n d r, Keeps TreesGrow (descend n d r))
    (h : Building g ∅ m₀ base F (fatClToE4blk g.bootSector g.metaInfo l.cluster :: O)
      (clusterBlocks g (own.drop (l.closed.length + 1)) ++ (recordedBlocks g rec.extents ++ R)) s)
    (hown : ∀ c ∈ own, DataCluster g c ∧ fatClToE4blk g.bootSector g.metaInfo c ∉ F)
    (hdir : OpenDir g F base.mem own n inode (u16 links) l d s) (hrec : RecordFits g F rec)
    (hfile : isDir rec.dentry = false)
    (hreads : ReadsChildren g F base.mem (.file rec .nil) d.readStream r)
    (hfuel : short ∨ loopFuel g ≤ fuel) (i : ℕ) :
    wp (buildChild g env descend n fuel i d)
      (Within g fun d' t => ∃ l',
        Building g ∅ m₀ base F (fatClToE4blk g.bootSector g.metaInfo l'.cluster :: O)
          (clusterBlocks g (own.drop (l'.closed.length + 1)) ++ R) t ∧
        ChildrenBuilt g env F base.mem own n inode links (ownInodes n s) (O ++ R) (.file rec .nil) r
          l l' d' s t)
      (Within g (SafeStop g base F short)) s := by
  obtain ⟨r₁, r₂, r₃, r₄, hdentry, hname, hextents, hcount, rfl⟩ := hreads
  have hlt := h.made_lt hdir.node.made
  rw [buildChild_eq]
  refine wp_bind_within (fun x => TreesGrow.bind (TreesGrow.fillChild hkeeps _ _ _ _ _) fun _ =>
    TreesGrow.pure _) ?_
  refine within_mono (placeChild_building (D := ownInodes n s) (P := O ++ R) hg h hown hdir hdentry
    hname (Or.inl rfl) (Or.inr le_rfl) (fun b hb => ?_) hrec.sound hfuel i) ?_
  · rcases List.mem_append.mp hb with hin | hin
    · exact List.mem_append_left _ hin
    · exact List.mem_append_right _ (List.mem_append_right _ hin)
  rintro ⟨p, k, d'⟩ u ⟨l', h', hplaced⟩
  obtain ⟨hk, hread, hpacked, hdir', hstream, hchild, hwork, hff, hlog⟩ := hplaced
  dsimp only at hk hread hdir' hstream ⊢
  subst hk hstream
  have hread' := hread u.mem h'.agrees
  have hnot : isDir (dentryAt u.mem p) = false := by
    rw [show dentryAt u.mem p = rec.dentry from hread']
    exact hfile
  refine wp_bind_within (fun _ => TreesGrow.pure _) ?_
  rw [fillChild, wp_bind, wp_getMem, hnot, if_neg Bool.false_ne_true]
  refine within_mono (setExtents_building (D := {s.ext4.firstFreeInodeNo}) hg
    (h'.perm (List.perm_append_comm_assoc _ _ _)) hchild hfile hread' hextents hcount
    hrec.sound.typed hrec.clusters rfl (List.Subset.refl _) (hfuel.imp_right fun hmuch => ?_)) ?_
  · have hle := hrec.sound.short.2
    unfold loopFuel at hmuch
    omega
  rintro _ t ⟨rfl, h'', hwork', hbuilt, hff', hlog'⟩ _
  have hkept : O ++ R ⊆ fatClToE4blk g.bootSector g.metaInfo l'.cluster :: O ++
      (clusterBlocks g (own.drop (l'.closed.length + 1)) ++ R) := fun b hb =>
    (List.mem_append.mp hb).elim
      (fun hin => List.mem_append_left _ (List.mem_cons_of_mem _ hin))
      fun hin => List.mem_append_right _ (List.mem_append_right _ hin)
  refine ⟨l', h'', hpacked, ?_, rfl, ⟨hbuilt, trivial⟩,
    hwork.trans (hwork'.mono (Set.singleton_subset_iff.mpr (Or.inr le_rfl)) hkept), ?_, ?_⟩
  · exact hdir'.work hg hwork' (by simpa using hlt.ne) (by simp) _
  · rw [hff', hff]
    rfl
  · rw [hlog', hlog, childReads, childReads, List.append_nil]
    simp only [List.append_assoc]

omit hg in
/-- A 16-bit counter counts one on. -/
theorem u16_add_one (x : ℕ) : u16 (u16 x + 1) = u16 (x + 1) := Nat.mod_add_mod x (2 ^ 16) 1

/-- `incr_links_count` counts a child directory. -/
theorem incrLinksCount_openDir
    (h : Building g ∅ m₀ base F (fatClToE4blk g.bootSector g.metaInfo l.cluster :: O) R s)
    (hdir : OpenDir g F base.mem own n inode (u16 links) l d s) {E : Halt → State → Prop} :
    wp (incrLinksCount g n)
      (fun _ t => Building g ∅ m₀ base F (fatClToE4blk g.bootSector g.metaInfo l.cluster :: O) R t ∧
        OpenDir g F base.mem own n inode (u16 (links + 1)) l d t ∧
        Work g {n} (fatClToE4blk g.bootSector g.metaInfo l.cluster :: O ++ R) s t ∧
        t.ext4 = s.ext4) E s := by
  obtain ⟨hblocks, hprevious, hnode⟩ := hdir
  refine wp_mono_ok (incrLinksCount_building (D := {n}) hg h hnode.place hnode.made rfl
    (List.Subset.refl _)) ?_
  rintro _ t ⟨h', hwork, hext4, hlinks, hmem⟩
  refine ⟨h', ⟨hblocks.work hg hwork (by simp) (by rw [hext4]), hprevious, hnode.place,
    hnode.made.mono hwork.step.firstFree, hnode.inode.congr fun a _ hout => hmem a fun hin =>
      hout (mem_updatedBytes.mpr (Or.inr (Or.inl hin))),
    hwork.step.bits n hnode.place hnode.bit, ?_⟩, hwork, hext4⟩
  rw [hlinks, hnode.links, u16_add_one]

/-- A child that is a directory. -/
theorem buildChild_dir {descend : ℕ → ℕ → StreamArchiver → Prog StreamArchiver}
    (hkeeps : ∀ n d r, Keeps TreesGrow (descend n d r))
    (hdescend : BuildsTree g env m₀ base F short levels descend)
    (h : Building g ∅ m₀ base F (fatClToE4blk g.bootSector g.metaInfo l.cluster :: O)
      (clusterBlocks g (own.drop (l.closed.length + 1)) ++
        (recordedBlocks g rec.extents ++ (recordedBlocks g children.extents ++ R))) s)
    (hown : ∀ c ∈ own, DataCluster g c ∧ fatClToE4blk g.bootSector g.metaInfo c ∉ F)
    (hdir : OpenDir g F base.mem own n inode (u16 links) l d s) (hrec : RecordFits g F rec)
    (hdirectory : isDir rec.dentry = true) (hcount : children.count < 2 ^ 32)
    (hchildren : ForestFits g F children)
    (hreads : ReadsChildren g F base.mem (.dir rec children .nil) d.readStream r)
    (hfuel : short ∨ loopFuel g ≤ fuel) (hlevels : short ∨ children.depth < levels) (i : ℕ) :
    wp (buildChild g env descend n fuel i d)
      (Within g fun d' t => ∃ l',
        Building g ∅ m₀ base F (fatClToE4blk g.bootSector g.metaInfo l'.cluster :: O)
          (clusterBlocks g (own.drop (l'.closed.length + 1)) ++ R) t ∧
        ChildrenBuilt g env F base.mem own n inode links (ownInodes n s) (O ++ R)
          (.dir rec children .nil) r l l' d' s t)
      (Within g (SafeStop g base F short)) s := by
  obtain ⟨r₁, r₂, r₃, r₄, r₅, hdentry, hname, hextents, hnumber, hinner, rfl⟩ := hreads
  have hlt := h.made_lt hdir.node.made
  rw [buildChild_eq]
  refine wp_bind_within (fun x => TreesGrow.bind (TreesGrow.fillChild hkeeps _ _ _ _ _) fun _ =>
    TreesGrow.pure _) ?_
  refine within_mono (placeChild_building (D := ownInodes n s) (P := O ++ R) hg h hown hdir hdentry
    hname (Or.inl rfl) (Or.inr le_rfl) (fun b hb => ?_) hrec.sound hfuel i) ?_
  · rcases List.mem_append.mp hb with hin | hin
    · exact List.mem_append_left _ hin
    · exact List.mem_append_right _ (List.mem_append_right _ (List.mem_append_right _ hin))
  rintro ⟨p, k, d'⟩ u ⟨l', h', hplaced⟩
  obtain ⟨hk, hread, hpacked, hdir', hstream, hchild, hwork, hff, hlog⟩ := hplaced
  dsimp only at hk hread hdir' hstream ⊢
  subst hk hstream
  have hread' := hread u.mem h'.agrees
  have his : isDir (dentryAt u.mem p) = true := by
    rw [show dentryAt u.mem p = rec.dentry from hread']
    exact hdirectory
  refine wp_bind_within (fun _ => TreesGrow.pure _) ?_
  rw [fillChild, wp_bind, wp_getMem, his, if_pos rfl, wp_bind]
  refine wp_mono (incrLinksCount_openDir (E := fun _ _ => False) hg h' hdir') ?_
    (fun _ _ hend => hend.elim)
  rintro _ v ⟨h₂, hdir₂, hwork₂, hext4⟩
  have hk : s.ext4.firstFreeInodeNo ∉ ({n} : Set ℕ) := by simpa using hlt.ne'
  have hlinks : (inodeOf env rec.dentry).iLinksCount < 2 ^ 16 := by
    unfold inodeOf
    dsimp only
    split <;> decide
  have hperm : (recordedBlocks g rec.extents ++ (recordedBlocks g children.extents ++
      (clusterBlocks g (own.drop (l'.closed.length + 1)) ++ R))).Perm
      (clusterBlocks g (own.drop (l'.closed.length + 1)) ++
        (recordedBlocks g rec.extents ++ (recordedBlocks g children.extents ++ R))) :=
    ((List.perm_append_comm_assoc _ _ _).append_left _).trans (List.perm_append_comm_assoc _ _ _)
  refine within_mono (hdescend (h₂.perm hperm) (hchild.work hwork₂ hk) hlinks hdir.node.place.upper
    ⟨r₃, r₄, hextents, hnumber, hinner⟩
    (fun c hc => ⟨hrec.clusters c hc, hrec.own hdirectory c hc⟩) hcount hchildren
    (Nat.lt_of_succ_lt hrec.sound.short.2) hlevels) ?_
  rintro _ t ⟨rfl, h₃, htree⟩ _
  have hff₂ : v.ext4.firstFreeInodeNo = s.ext4.firstFreeInodeNo + 1 := by rw [hext4, hff]
  have hn : n ∉ ownInodes s.ext4.firstFreeInodeNo v := by
    rintro (heq | hge)
    · exact hlt.ne heq
    · omega
  have hkept : ∀ R', R ⊆ R' →
      O ++ R ⊆ fatClToE4blk g.bootSector g.metaInfo l'.cluster :: O ++ R' := fun R' hR b hb =>
    (List.mem_append.mp hb).elim
      (fun hin => List.mem_append_left _ (List.mem_cons_of_mem _ hin))
      fun hin => List.mem_append_right _ (hR hin)
  have hown' : ownInodes s.ext4.firstFreeInodeNo v ⊆ ownInodes n s := by
    rintro j (rfl | hj)
    · exact Or.inr le_rfl
    · exact Or.inr (by omega)
  obtain ⟨hwork₃, hff₃, hlog₃, hbuilt, hforest⟩ := htree
  rw [hff₂] at hff₃ hlog₃ hbuilt hforest
  refine ⟨l', h₃, hpacked, hdir₂.work hg hwork₃ hn (by simp) _, rfl, ⟨hbuilt, hforest, trivial⟩,
    (hwork.trans (hwork₂.mono (Set.singleton_subset_iff.mpr (Or.inl rfl)) (hkept _ ?_))).trans
      (hwork₃.mono hown' (hkept _ (List.subset_append_right _ R))), ?_, ?_⟩
  · exact fun b hb => List.mem_append_right _ (List.mem_append_right _ (List.mem_append_right _ hb))
  · rw [hff₃, Forest.size, Forest.size]
    omega
  · rw [hlog₃, hext4, hlog, childReads, childReads, List.append_nil, dirReads]
    simp only [List.append_assoc]

omit hg in
/-- What was built stays so for fewer kept blocks. -/
theorem ChildrenBuilt.keep {P' : List ℕ} {l' : Layout} {d' : DirState}
    (h : ChildrenBuilt g env F base.mem own n inode links D P forest r l l' d' s t) (hP : P' ⊆ P) :
    ChildrenBuilt g env F base.mem own n inode links D P' forest r l l' d' s t :=
  { h with work := h.work.mono (fun _ hx => hx) hP }

/-- The children of a directory are built in order. -/
theorem buildChildren_building {descend : ℕ → ℕ → StreamArchiver → Prog StreamArchiver}
    (hkeeps : ∀ n d r, Keeps TreesGrow (descend n d r))
    (hdescend : BuildsTree g env m₀ base F short levels descend)
    (h : Building g ∅ m₀ base F (fatClToE4blk g.bootSector g.metaInfo l.cluster :: O)
      (clusterBlocks g (own.drop (l.closed.length + 1)) ++
        (recordedBlocks g forest.extents ++ R)) s)
    (hown : ∀ c ∈ own, DataCluster g c ∧ fatClToE4blk g.bootSector g.metaInfo c ∉ F)
    (hdir : OpenDir g F base.mem own n inode (u16 links) l d s) (hfits : ForestFits g F forest)
    (hreads : ReadsChildren g F base.mem forest d.readStream r)
    (hfuel : short ∨ loopFuel g ≤ fuel) (hlevels : short ∨ forest.depth ≤ levels) (i : ℕ) :
    wp (buildChildren g env descend n fuel forest.count i d)
      (Within g fun d' t => ∃ l',
        Building g ∅ m₀ base F (fatClToE4blk g.bootSector g.metaInfo l'.cluster :: O)
          (clusterBlocks g (own.drop (l'.closed.length + 1)) ++ R) t ∧
        ChildrenBuilt g env F base.mem own n inode links (ownInodes n s) (O ++ R) forest r l l' d' s
          t)
      (Within g (SafeStop g base F short)) s := by
  have hlt := h.made_lt hdir.node.made
  have hkept : ∀ blocks, O ++ R ⊆ O ++ (blocks ++ R) := fun blocks b hb =>
    (List.mem_append.mp hb).elim (List.mem_append_left _) fun hin =>
      List.mem_append_right _ (List.mem_append_right _ hin)
  induction forest generalizing i l d links s with
  | nil =>
    refine fun _ => ⟨l, h, fun _ => rfl, hdir, hreads.symm, trivial, Work.refl g _ _ s, rfl, ?_⟩
    exact (List.append_nil _).symm
  | file rec rest ih =>
    obtain ⟨hrec, hfile, hrest⟩ := hfits.file
    obtain ⟨r₁, r₂, r₃, r₄, hdentry, hname, hextents, hcount, hbehind⟩ := hreads
    rw [recordedBlocks_file, List.append_assoc] at h
    rw [Forest.count, buildChildren]
    refine wp_bind_within (fun _ => TreesGrow.buildChildren g env hkeeps _ _ _ _ _) ?_
    refine within_mono (buildChild_file hg hkeeps h hown hdir hrec hfile
      ⟨r₁, r₂, r₃, r₄, hdentry, hname, hextents, hcount, rfl⟩ hfuel i) ?_
    rintro d' t ⟨l', h', hbuilt⟩
    refine within_mono (ih h' hbuilt.dir hrest (hbuilt.stream ▸ hbehind) hlevels (i + 1)
      (hlt.trans_le hbuilt.work.step.firstFree)) ?_
    rintro d'' u ⟨l'', h'', hbuilt'⟩
    exact ⟨l'', h'', (hbuilt.keep (hkept _)).trans hg hbuilt' hlt⟩
  | dir rec children rest _ ih =>
    obtain ⟨hrec, hdirectory, hcount, hchildren, hrest⟩ := hfits.dir
    obtain ⟨r₁, r₂, r₃, r₄, r₅, hdentry, hname, hextents, hnumber, hinner, hbehind⟩ := hreads
    rw [recordedBlocks_dir, List.append_assoc, List.append_assoc] at h
    rw [Forest.count, buildChildren]
    refine wp_bind_within (fun _ => TreesGrow.buildChildren g env hkeeps _ _ _ _ _) ?_
    refine within_mono (buildChild_dir hg hkeeps hdescend h hown hdir hrec hdirectory hcount
      hchildren ⟨r₁, r₂, r₃, r₄, r₅, hdentry, hname, hextents, hnumber, hinner, rfl⟩ hfuel
      (hlevels.imp_right fun hle => (le_max_left _ _).trans hle) i) ?_
    rintro d' t ⟨l', h', hbuilt⟩
    refine within_mono (ih h' hbuilt.dir hrest (hbuilt.stream ▸ hbehind)
      (hlevels.imp_right fun hle => (le_max_right _ _).trans hle) (i + 1)
      (hlt.trans_le hbuilt.work.step.firstFree)) ?_
    rintro d'' u ⟨l'', h'', hbuilt'⟩
    exact ⟨l'', h'', (hbuilt.keep (hkept _)).trans hg hbuilt' hlt⟩

omit hg in
/-- The inode of a directory before anything is built. -/
theorem InodeBuilt.node (h : InodeBuilt g s n inode) (hlinks : inode.iLinksCount < 2 ^ 16) :
    DirNode g s n inode (u16 inode.iLinksCount) := by
  refine ⟨h.place, h.made, HasInode.of_read h.stored, h.bit, ?_⟩
  rw [linksOf_of_read h.stored hlinks, u16_of_lt hlinks]

omit hg in
/-- The blocks of a directory before any entry is stored. -/
theorem InodeBuilt.dirBlocks {c : ℕ} (h : InodeBuilt g s n inode)
    (hff : 12 ≤ s.ext4.firstFreeInodeNo) (hc : DataCluster g c)
    (htake : own.take 1 <+: [c]) {it : ExtentIterator} (hit : Clusters g F base.mem it own.tail)
    (r : StreamArchiver) :
    DirBlocks g F base.mem own n [] c []
      ⟨r, it, fatClToE4blk g.bootSector g.metaInfo c, 1, 0, 0⟩ s := by
  refine ⟨h.extents, hff, List.forall_mem_nil _, ⟨hc, trivial, List.forall_mem_nil _, Nat.zero_le _⟩,
    rfl, rfl, rfl, ?_, htake⟩
  rw [List.length_nil, Nat.zero_add, List.drop_one]
  exact hit

/-- In front of the loop the dot entries are stored. -/
theorem enterDirectory_building
    (h : Building g ∅ m₀ base F O (recordedBlocks g es ++ R) s) (hnew : InodeBuilt g s n inode)
    (hlinks : inode.iLinksCount < 2 ^ 16) (hparent : parent < 2 ^ 32)
    (hextents : ReadsExtents g F base.mem es r r₁)
    (hnumber : Reads g F base.mem 4 [leBytes 4 (u32 children.count)] r₁ r₂)
    (hown : ∀ c ∈ physical es, DataCluster g c ∧ fatClToE4blk g.bootSector g.metaInfo c ∉ F)
    (hcount : children.count < 2 ^ 32) (hlength : es.length < 2 ^ 64)
    (hfuel : short ∨ loopFuel g ≤ fuel) :
    wp (enterDirectory g env fuel n parent r)
      (fun x t => x.1 = children.count ∧ x.2.readStream = r₂ ∧ ∃ c,
        Building g ∅ m₀ base F (fatClToE4blk g.bootSector g.metaInfo c :: O)
          (clusterBlocks g ((physical es).drop 1) ++ R) t ∧
        OpenDir g F base.mem (physical es) n inode (u16 inode.iLinksCount)
          ⟨[], c, [dotEntry n], dotDotEntry parent⟩ x.2 t ∧
        Work g {n} (O ++ R) s t ∧ t.ext4.firstFreeInodeNo = s.ext4.firstFreeInodeNo ∧
        t.ext4.reads = s.ext4.reads ++ (segmentReads n (es.map fatExtentBytes) ++
          segmentReads n [leBytes 4 (u32 children.count)]))
      (SafeStop g base F short) s := by
  rw [enterDirectory, wp_bind]
  refine wp_mono (hextents.iterator s (fun _ _ => False) h.agrees) ?_ (fun _ _ hend => hend.elim)
  rintro it _ ⟨hsame, hit⟩
  rw [hsame, wp_bind]
  refine wp_mono_ok (nextDirBlock_building hg h hit hown (allocationFuel_le hfuel)) ?_
  rintro ⟨b, it'⟩ s₁ ⟨c, hb, hc, htake, hclusters, h₁, honly⟩
  dsimp only at hb hclusters ⊢
  subst hb
  rw [wp_bind]
  have hskip : (es.map fatExtentBytes).length < fuel ∨
      ∀ t, LogOnly s₁ t → SafeStop g base F short .fuel t := by
    rcases hfuel with hshort | hmuch
    · exact Or.inr fun t ht => (h₁.logOnly ht).runsDry hshort
    · rw [List.length_map]
      unfold loopFuel at hmuch
      exact Or.inl (by omega)
  refine wp_mono_ok (skipSegment_spec hextents.segment h₁.agrees hskip) ?_
  rintro _ s₂ ⟨rfl, rfl⟩
  have hlog₂ := LogOnly.logSegment s₁ n (es.map fatExtentBytes)
  have h₂ := h₁.logOnly hlog₂
  rw [wp_bind]
  refine wp_mono_ok (hnumber.next h₂.agrees) ?_
  rintro ⟨p, r₃⟩ s₃ ⟨rfl, hp, hread, hrest⟩
  dsimp only at hp hread hrest ⊢
  rw [wp_bind, wp_notNull]
  refine ⟨fun hzero => absurd hzero hp, fun _ => ?_⟩
  rw [wp_bind, wp_getMem, wp_bind]
  refine wp_mono_ok (hrest.done h₂.agrees) ?_
  rintro _ s₄ ⟨rfl, rfl⟩
  have hchildren : Mem.readLE (s₁.logSegment n (es.map fatExtentBytes)).mem p 4 =
      children.count := by
    rw [Mem.readLE, hread _ h₂.agrees, leNat_leBytes_of_lt (by rw [u32_of_lt hcount]; omega),
      u32_of_lt hcount]
  dsimp only
  rw [State.logRead_mem, hchildren]
  change wp _ _ _ ((s₁.logSegment n (es.map fatExtentBytes)).logSegment n
    [leBytes 4 (u32 children.count)])
  have hlog := hlog₂.trans (LogOnly.logSegment _ n [leBytes 4 (u32 children.count)])
  have hreads := (s₁.logSegment n (es.map fatExtentBytes)).logSegment_reads n
    [leBytes 4 (u32 children.count)]
  rw [s₁.logSegment_reads n (es.map fatExtentBytes), honly.ext4, List.append_assoc] at hreads
  obtain ⟨-, hff⟩ := hlog.kept
  rw [honly.ext4] at hff
  generalize (s₁.logSegment n (es.map fatExtentBytes)).logSegment n _ = s₅ at hlog hreads hff ⊢
  have hwork : Work g ∅ (O ++ R) s s₅ := (Work.allocOnly ∅ _ honly).trans (Work.logOnly ∅ _ hlog)
  have hnew' := hnew.work hwork (Set.notMem_empty n)
  have hblocks := hnew'.dirBlocks (h₁.logOnly hlog).inv.firstFree.1 hc htake hclusters r₂
  rw [wp_bind, hg.blockStart_fatClToE4blk hc]
  refine wp_mono_ok (buildDotDirs_building (D := {n}) (P := O ++ R) hg env (h₁.logOnly hlog) hc
    hnew.place.upper (fun b hb => ?_) hparent) ?_
  · rcases List.mem_append.mp hb with hin | hin
    · exact List.mem_append_left _ hin
    · exact List.mem_append_right _ (List.mem_append_right _ hin)
  rintro p' t ⟨h', hregisters, hp', hdots⟩
  have hregisters := hregisters n hnew.place
  refine ⟨rfl, rfl, c, ?_, ⟨hblocks.fill hg hregisters hdots rfl rfl rfl rfl, hp',
    (hnew'.node hlinks).registers hregisters⟩,
    (hwork.mono (Set.empty_subset _) (List.Subset.refl _)).trans hregisters.work, ?_, ?_⟩
  · rw [List.drop_one]
    exact h'
  · rw [hregisters.firstFree, hff]
  · rw [hregisters.reads, List.append_nil, hreads]

/-- Behind the loop the last block is closed and the size is stored. -/
theorem leaveDirectory_building
    (h : Building g ∅ m₀ base F (fatClToE4blk g.bootSector g.metaInfo l.cluster :: O)
      (clusterBlocks g (own.drop (l.closed.length + 1)) ++ R) s)
    (hdir : OpenDir g F base.mem own n inode links l d s)
    (hfuel : short ∨ allocationFuel g ≤ fuel) :
    wp (leaveDirectory g fuel n d)
      (Within g fun x t => x = d.readStream ∧ Building g ∅ m₀ base F O R t ∧
        Work g {n} (O ++ R) s t ∧ t.ext4.firstFreeInodeNo = s.ext4.firstFreeInodeNo ∧
        t.ext4.reads = s.ext4.reads ∧ DirNode g t n inode links ∧
        inTreeOf t.ext4.registered n =
          extentRanges g n (dirExtents ((l.finish (blockSize g.sb)).map Prod.fst)) ∧
        (∀ x ∈ l.finish (blockSize g.sb), HoldsEntries g t.mem x.1 x.2) ∧
        own.take (l.finish (blockSize g.sb)).length <+: (l.finish (blockSize g.sb)).map Prod.fst ∧
        sizeOf g t.mem n = u32 ((l.finish (blockSize g.sb)).length * blockSize g.sb))
      (Within g (SafeStop g base F short)) s := by
  obtain ⟨hblocks, hprevious, hnode⟩ := hdir
  have hlength : (l.finish (blockSize g.sb)).length = l.closed.length + 1 := by
    rw [Layout.finish, List.length_append, List.length_singleton]
  have hfst : (l.finish (blockSize g.sb)).map Prod.fst = l.closed.map Prod.fst ++ [l.cluster] := by
    rw [Layout.finish, List.map_append]
    rfl
  have hne : d.previousDentry ≠ 0 := by
    have hpos := hg.area.clusterStart_pos hblocks.entries.data
    omega
  rw [leaveDirectory, if_pos hne, ← bind_assoc]
  refine wp_bind_within (fun _ => TreesGrow.of_keeps (SameTrees.bind (SameTrees.setSize _ _ _)
    fun _ => SameTrees.pure _)) ?_
  refine within_mono (closeBlock_building (D := {n}) (P := O ++ R) hg h hblocks hprevious hnode rfl
    (fun b hb => ?_) hfuel) ?_
  · rcases List.mem_append.mp hb with hin | hin
    · exact List.mem_append_left _ hin
    · exact List.mem_append_right _ (List.mem_append_right _ hin)
  rintro _ u ⟨h₁, hregisters, hnode₁, htree, hheld⟩
  have h₂ := h₁.weaken (List.sublist_append_right _ R)
  rw [wp_bind]
  refine wp_mono (setSize_building (D := {n}) (E := fun _ _ => False) hg h₂ hnode₁.place
    (Or.inl hnode₁.made) rfl (List.Subset.refl _) ((u32_lt _).trans (by norm_num))) ?_
    (fun _ _ hend => hend.elim)
  rintro _ t ⟨h₃, hwork, hext4, hsize, hmem⟩ _
  refine ⟨rfl, h₃, hregisters.work.trans hwork, ?_, ?_, hnode₁.congr hwork.step.firstFree
    (hwork.step.bits n hnode₁.place hnode₁.bit) fun a _ hout _ _ => hmem a hout, ?_, ?_, ?_, ?_⟩
  · rw [hext4, hregisters.firstFree]
  · rw [hext4, hregisters.reads, List.append_nil]
  · rw [hext4, hfst, htree]
  · exact holdsEntries_kept hg hheld (by rw [hfst, htree])
      hwork
  · rw [hlength, hfst]
    exact hblocks.reused
  · rw [hsize, hlength, hblocks.count]

/-- `build_ext4_metadata_tree` builds the tree that the stream describes. -/
theorem buildExt4MetadataTree_builds (m₀ : Mem) (base : State) (F : List ℕ) (short : Prop)
    (fuel : ℕ) : BuildsTree g env m₀ base F short (fuel - loopFuel g)
      (buildExt4MetadataTree g env fuel) := by
  induction fuel with
  | zero =>
    intro n parent r r' es children inode O R s h hnew hlinks hparent hreads hown hcount hfits
      hlength hlevels
    exact fun _ => h.runsDry (hlevels.resolve_right (by omega))
  | succ fuel ih =>
    intro n parent r r' es children inode O R s h hnew hlinks hparent hreads hown hcount hfits
      hlength hlevels
    have hfuel : short ∨ loopFuel g ≤ fuel := hlevels.imp_right fun hdeep => by omega
    obtain ⟨r₁, r₂, hextents, hnumber, hchildren⟩ := hreads
    have hlt := h.made_lt hnew.made
    have hkeeps := TreesGrow.buildExt4MetadataTree g env fuel
    have hleave : ∀ d, Keeps TreesGrow (leaveDirectory g fuel n d) := fun d => by
      have hlast := TreesGrow.bind (TreesGrow.registerDirExtent g fuel d.dentryBlockNo
        (sub32 d.blockCount 1) n) fun _ => TreesGrow.of_keeps (SameTrees.bind
          (SameTrees.setSize g n (u32 (d.blockCount * blockSize g.sb)))
          fun _ => SameTrees.pure d.readStream)
      exact Keeps.ite (TreesGrow.bind (TreesGrow.of_keeps (SameTrees.stretchDentry _ _ _))
        fun _ => hlast) hlast
    rw [buildExt4MetadataTree_succ, wp_bind]
    refine wp_mono (enterDirectory_building hg h hnew hlinks hparent hextents hnumber hown hcount
      hlength hfuel) ?_ (fun _ _ hend _ => hend)
    rintro ⟨count, d⟩ u ⟨hcount', hstream, c, h₁, hdir, hwork, hff, hlog⟩
    dsimp only at hcount' hstream hdir ⊢
    subst hcount' hstream
    refine wp_bind_within hleave ?_
    refine within_mono (buildChildren_building (l := ⟨[], c, [dotEntry n], dotDotEntry parent⟩) hg
      hkeeps ih h₁ hown hdir hfits hchildren hfuel (hlevels.imp_right fun hdeep => by omega) 0) ?_
    rintro d' v ⟨l, h₂, hbuilt⟩
    refine within_mono (leaveDirectory_building hg h₂ hbuilt.dir (allocationFuel_le hfuel)) ?_
    rintro _ t ⟨rfl, h₃, hwork₃, hff₃, hlog₃, hnode, htree, hheld, hreused, hsize⟩
    have hpacked := hbuilt.packed []
    have hforest := hbuilt.built.work hg hwork₃ fun j hlow _ hj => by
      rw [Set.mem_singleton_iff] at hj
      omega
    rw [Layout.packed_nil, List.append_nil, hff] at hpacked
    rw [hff] at hforest
    have hown' : ({n} : Set ℕ) ⊆ ownInodes n s := Set.singleton_subset_iff.mpr (Or.inl rfl)
    refine ⟨hbuilt.stream, h₃, ⟨((hwork.mono hown' fun b hb => ?_).trans (hbuilt.work.mono
      (Step.ownInodes_subset hwork.step.firstFree (Or.inl rfl)) (List.Subset.refl _))).trans
      (hwork₃.mono hown' (List.Subset.refl _)), ?_, ?_,
      ⟨hnode, _, hpacked, htree, hheld, hreused, hsize⟩, hforest⟩⟩
    · rcases List.mem_append.mp hb with hin | hin
      · exact List.mem_append_left _ hin
      · exact List.mem_append_right _ (List.mem_append_right _ hin)
    · rw [hff₃, hbuilt.firstFree, hff]
    · rw [hlog₃, hbuilt.reads, hlog, hff, dirReads, List.append_assoc]

end Children

end OfsConvert
