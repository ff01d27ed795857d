import OfsConvert.DirectoryBlocks
import OfsConvert.FileBuilding

/-!
# Building the blocks of a directory

A directory takes the clusters of its FAT table one after the other and then free ones. `DirBlocks`
is what holds while entries are stored to its blocks: the closed blocks are its extents, one for
each block, and the iterator is still to return the clusters that are left.
-/

namespace OfsConvert

/-- The blocks of clusters. -/
def clusterBlocks (g : Globals) (clusters : List ℕ) : List ℕ :=
  clusters.map (fatClToE4blk g.bootSector g.metaInfo)

/-- The extents of a directory. -/
def dirExtents (clusters : List ℕ) : List FatExtent := clusters.mapIdx fun k c => ⟨k, 1, c⟩

/-- The inode of a directory that is being built. -/
structure DirNode (g : Globals) (t : State) (n : ℕ) (inode : Ext4Inode) (links : ℕ) : Prop where
  place : InodePlace g.sb n
  made : Made t n
  inode : HasInode g t.mem n inode
  bit : inodeBit g t.mem n = true
  links : linksOf g t.mem n = links

/-- The block of a cluster starts with the given entries. -/
structure HoldsEntries (g : Globals) (m : Mem) (c : ℕ) (es : List DirEntry) : Prop where
  data : DataCluster g c
  entries : HasEntries m (clusterStart g.metaInfo c) es
  sound : ∀ e ∈ es, DirEntry.Sound e
  fits : entriesWidth es ≤ blockSize g.sb

/-- What holds while the entries `es` are in the open block of cluster `c`, behind the blocks that
are closed; `own` are the clusters of the directory's FAT table. -/
structure DirBlocks (g : Globals) (F : List ℕ) (base : Mem) (own : List ℕ) (n : ℕ)
    (closed : List (ℕ × List DirEntry)) (c : ℕ) (es : List DirEntry) (d : DirState) (s : State) :
    Prop where
  extents : inTreeOf s.ext4.registered n = extentRanges g n (dirExtents (closed.map Prod.fst))
  bounded : closed.length + 12 ≤ s.ext4.firstFreeInodeNo
  full : ∀ x ∈ closed, HoldsEntries g s.mem x.1 x.2
  entries : HoldsEntries g s.mem c es
  block : d.dentryBlockNo = fatClToE4blk g.bootSector g.metaInfo c
  count : d.blockCount = closed.length + 1
  position : d.positionInBlock = entriesWidth es
  clusters : Clusters g F base d.iterator (own.drop (closed.length + 1))
  reused : own.take (closed.length + 1) <+: closed.map Prod.fst ++ [c]

section Lists

variable {g : Globals} {clusters : List ℕ} {c n k : ℕ}

/-- The extents of a longer list of directory blocks. -/
theorem dirExtents_append (clusters : List ℕ) (c : ℕ) :
    dirExtents (clusters ++ [c]) = dirExtents clusters ++ [⟨clusters.length, 1, c⟩] := by
  rw [dirExtents, List.mapIdx_concat]
  rfl

/-- Each cluster of a directory has its extent. -/
theorem mem_dirExtents (h : c ∈ clusters) : ∃ k, (⟨k, 1, c⟩ : FatExtent) ∈ dirExtents clusters := by
  obtain ⟨k, hk, rfl⟩ := List.getElem_of_mem h
  exact ⟨k, List.mem_mapIdx.mpr ⟨k, hk, rfl⟩⟩

/-- Each cluster that is registered for a directory has its block in a range of its tree. -/
theorem exists_range (hg : Accepted g) {log : List Registration} (hc : DataCluster g c)
    (hlog : inTreeOf log n = extentRanges g n (dirExtents clusters)) (h : c ∈ clusters) :
    ∃ r ∈ log, r.inTree = true ∧ fatClToE4blk g.bootSector g.metaInfo c ∈ r.blocks := by
  obtain ⟨k, hk⟩ := mem_dirExtents h
  have hin : registrationOf (toExt4Extent g ⟨k, 1, c⟩) n true ∈ inTreeOf log n := by
    rw [hlog]
    exact List.mem_map.mpr ⟨_, hk, rfl⟩
  refine ⟨_, (List.mem_filter.mp hin).1, rfl, ?_⟩
  have hstart : (toExt4Extent g ⟨k, 1, c⟩).start = fatClToE4blk g.bootSector g.metaInfo c :=
    hg.toExt4Extent_start hc
  rw [Registration.blocks, registrationOf, Nat.add_sub_cancel_left, hstart]
  exact List.mem_range'_1.mpr ⟨le_rfl, Nat.lt_succ_self _⟩

end Lists

section Keeping

variable {g : Globals} (hg : Accepted g) {F : List ℕ} {base m m' : Mem} {own P : List ℕ}
  {n c : ℕ} {closed : List (ℕ × List DirEntry)} {es : List DirEntry} {d : DirState}
  {s t : State} {D : Set ℕ} {inode : Ext4Inode} {links : ℕ}
include hg

/-- The entries of a block stay as long as the block does. -/
theorem HoldsEntries.congr (h : HoldsEntries g m c es)
    (hm : ∀ a, InBlock g (fatClToE4blk g.bootSector g.metaInfo c) a → m' a = m a) :
    HoldsEntries g m' c es := by
  have hfits := h.fits
  refine ⟨h.data, h.entries.congr h.sound fun a hlow hhigh => hm a ?_, h.sound, hfits⟩
  rw [InBlock, hg.blockStart_fatClToE4blk h.data]
  omega

/-- Work keeps the blocks that are registered for a directory. -/
theorem holdsEntries_kept {blocks : List (ℕ × List DirEntry)}
    (h : ∀ x ∈ blocks, HoldsEntries g s.mem x.1 x.2)
    (htree : inTreeOf s.ext4.registered n = extentRanges g n (dirExtents (blocks.map Prod.fst)))
    (hwork : Work g D P s t) : ∀ x ∈ blocks, HoldsEntries g t.mem x.1 x.2 := by
  intro x hx
  obtain ⟨r, hr, htrue, hmem⟩ := exists_range hg (h x hx).data htree (List.mem_map_of_mem hx)
  exact (h x hx).congr hg (hwork.step.blocks r hr (Or.inl htrue) _ hmem)

/-- Work that keeps the open block and registers nothing for the directory. -/
theorem DirBlocks.work (h : DirBlocks g F base own n closed c es d s) (hwork : Work g D P s t)
    (hkept : fatClToE4blk g.bootSector g.metaInfo c ∈ P)
    (htree : inTreeOf t.ext4.registered n = inTreeOf s.ext4.registered n) :
    DirBlocks g F base own n closed c es d t := by
  exact ⟨htree.trans h.extents, h.bounded.trans hwork.step.firstFree,
    holdsEntries_kept hg h.full h.extents hwork, h.entries.congr hg (hwork.step.kept _ hkept),
    h.block, h.count, h.position, h.clusters, h.reused⟩

omit hg in
/-- Work on other inodes keeps a directory's inode. -/
theorem DirNode.work (h : DirNode g s n inode links) (hwork : Work g D P s t) (hn : n ∉ D) :
    DirNode g t n inode links := by
  have hmem := hwork.step.inodes n h.place hn
  refine ⟨h.place, h.made.mono hwork.step.firstFree, h.inode.congr fun a ha _ => hmem a ha,
    hwork.step.bits n h.place h.bit, ?_⟩
  rw [← h.links]
  exact linksOf_congr fun a ha => hmem a (fields_outside (Or.inr ha)).1

omit hg in
/-- What is stored to a directory's inode besides its links is about its size and its blocks. -/
theorem DirNode.congr (h : DirNode g s n inode links)
    (hff : s.ext4.firstFreeInodeNo ≤ t.ext4.firstFreeInodeNo) (hbit : inodeBit g t.mem n = true)
    (hmem : ∀ a ∈ inodeBytes g n, a ∉ sizeFields g n → a ∉ rootBytes g n → a ∉ blocksFields g n →
      t.mem a = s.mem a) : DirNode g t n inode links := by
  refine ⟨h.place, h.made.mono hff, h.inode.congr fun a ha hout => ?_, hbit, ?_⟩
  · rw [mem_updatedBytes, not_or, not_or, not_or] at hout
    exact hmem a ha hout.1 hout.2.2.1 hout.2.2.2
  · rw [← h.links]
    refine linksOf_congr fun a ha => ?_
    obtain ⟨hin, -, hroot, hblocks⟩ := fields_outside (Or.inr ha)
    refine hmem a hin (fun hsize => ?_) hroot hblocks
    rw [mem_linksField] at ha
    rw [mem_sizeFields] at hsize
    omega

omit hg in
/-- Registering extents for a directory changes neither its mode nor its links. -/
theorem DirNode.registers (h : DirNode g s n inode links) {es : List FatExtent}
    {log : List StreamRead} (hs : Registers g D P n es log s t) : DirNode g t n inode links :=
  h.congr hs.firstFree.ge (hs.work.step.bits n h.place h.bit)
    fun a ha _ hroot hblocks => hs.fields a ha hroot hblocks

end Keeping

section Steps

variable {g : Globals} (hg : Accepted g) {m₀ : Mem} {base : State} {F O R P own : List ℕ}
  {X D : Set ℕ} {s t : State} {n c b : ℕ} {closed : List (ℕ × List DirEntry)} {es : List DirEntry}
  {d : DirState} {inode : Ext4Inode} {links : ℕ} {short : Prop}

/-- An open block is no other open or kept block. -/
theorem Building.open_fresh (h : Building g X m₀ base F (b :: O) R s) : b ∉ O ++ R := by
  have hnodup := (List.nodup_append.mp h.inv.nodup).2.1
  rw [List.cons_append, List.nodup_cons] at hnodup
  exact hnodup.1

include hg

omit hg in
/-- The read stream of the loop does not matter to the blocks. -/
theorem DirBlocks.readFrom {base : Mem} (h : DirBlocks g F base own n closed c es d s)
    (r : StreamArchiver) : DirBlocks g F base own n closed c es { d with readStream := r } s :=
  ⟨h.extents, h.bounded, h.full, h.entries, h.block, h.count, h.position, h.clusters, h.reused⟩

/-- `next_dir_block` opens the next block of the directory's FAT table, or a free one. -/
theorem nextDirBlock_building {it : ExtentIterator} {clusters : List ℕ}
    (h : Building g X m₀ base F O (clusterBlocks g clusters ++ R) s)
    (hit : Clusters g F base.mem it clusters)
    (hdata : ∀ c ∈ clusters, DataCluster g c ∧ fatClToE4blk g.bootSector g.metaInfo c ∉ F)
    {fuel : ℕ} (hfuel : short ∨ allocationFuel g ≤ fuel) :
    wp (nextDirBlock g fuel it)
      (fun x t => ∃ c, x.1 = fatClToE4blk g.bootSector g.metaInfo c ∧ DataCluster g c ∧
        clusters.take 1 <+: [c] ∧ Clusters g F base.mem x.2 clusters.tail ∧
        Building g X m₀ base F (fatClToE4blk g.bootSector g.metaInfo c :: O)
          (clusterBlocks g clusters.tail ++ R) t ∧ AllocOnly s t)
      (SafeStop g base F short) s := by
  have hread : SafeStop g base F short .fuel s ∨ 1 < fuel := by
    refine hfuel.imp h.runsDry fun hmuch => ?_
    unfold allocationFuel at hmuch
    omega
  rw [nextDirBlock, wp_bind]
  refine wp_mono_ok (hit.next hg.area h.agrees fuel hread) ?_
  rintro x t ⟨rfl, hcluster, hrest⟩
  rw [wp_bind]
  cases clusters with
  | nil =>
    rw [if_pos (show x.1 = 0 from hcluster), wp_bind]
    refine wp_mono_ok (allocateBlock_building hg h hfuel) ?_
    rintro e u ⟨hbuilding, honly, -, hc⟩
    exact ⟨e.physicalStart, rfl, hc, List.nil_prefix, hrest, hbuilding, honly⟩
  | cons c clusters =>
    obtain ⟨hc, hf⟩ := hdata c List.mem_cons_self
    have hlow := hc.1
    unfold fatStartIndex at hlow
    have hne : x.1 ≠ 0 := by
      rw [hcluster, List.headD_cons]
      omega
    rw [if_neg hne, hcluster]
    exact ⟨c, rfl, hc, List.prefix_rfl, hrest, h.openBlock hf, AllocOnly.refl t⟩

/-- Storing to an open block keeps everything else. -/
theorem Building.fill (h : Building g X m₀ base F (b :: O) R s) (hP : P ⊆ O ++ R) {a : ℕ}
    (bs : List UInt8) (hlow : blockStart g.metaInfo g.sb b ≤ a)
    (hhigh : a + bs.length ≤ blockStart g.metaInfo g.sb b + blockSize g.sb) :
    Building g X m₀ base F (b :: O) R (s.stored a bs.length (s.mem.write a bs)) ∧
      ∀ n, InodePlace g.sb n →
        Registers g D P n [] [] s (s.stored a bs.length (s.mem.write a bs)) := by
  have hin : ∀ x, a ≤ x → x < a + bs.length → InBlock g b x := fun x hx hx' =>
    ⟨hlow.trans hx, hx'.trans_le hhigh⟩
  have htouch := Touches.stored s hin (Mem.sameOutside_write s.mem a bs)
  have hkept : b ∉ P := fun hb => h.open_fresh (hP hb)
  obtain ⟨hbuilding, hwork⟩ := h.quiet hg (P := P) (D := D)
    (fun x hx => List.mem_cons_of_mem b (hP hx)) htouch
    (fun x hx => QuietByte.opened b List.mem_cons_self hkept hx) rfl
  refine ⟨hbuilding, fun n hn => ⟨hwork, (List.append_nil _).symm, (List.append_nil _).symm, rfl,
    fun x hx _ _ => htouch.mem x fun hopen => ?_⟩⟩
  obtain ⟨k, hk, -, hkx⟩ := hg.inodeAddr_inPrefix hn hx.1 hx.2
  exact (h.inv.open_data List.mem_cons_self).not_inBlock hopen ⟨_, hn.group, hk⟩ hkx

/-- The last entry of a block is stretched to its end. -/
theorem stretchDentry_building {before : List DirEntry} {last : DirEntry}
    (h : Building g X m₀ base F (fatClToE4blk g.bootSector g.metaInfo c :: O) R s)
    (hentries : HoldsEntries g s.mem c (before ++ [last])) (hP : P ⊆ O ++ R)
    {E : Halt → State → Prop} :
    wp (stretchDentry g (clusterStart g.metaInfo c + entriesWidth before)
        (entriesWidth (before ++ [last])))
      (fun _ t => Building g X m₀ base F (fatClToE4blk g.bootSector g.metaInfo c :: O) R t ∧
        (∀ n, InodePlace g.sb n → Registers g D P n [] [] s t) ∧
        HoldsEntries g t.mem c (fullBlock (blockSize g.sb) before last)) E s := by
  obtain ⟨hdata, hholds, hsound, hfits⟩ := hentries
  have hlast := hsound last (List.mem_append_right before (List.mem_singleton_self last))
  have hbefore : ∀ e ∈ before, e.Sound := fun e he => hsound e (List.mem_append_left _ he)
  have hstart := hg.blockStart_fatClToE4blk hdata
  have hsize := hg.blockSize_le
  have hwidth := hlast.fits
  have hrest : sub32 (blockSize g.sb) (entriesWidth (before ++ [last])) =
      blockSize g.sb - entriesWidth (before ++ [last]) := sub32_of_le hfits (by omega)
  rw [entriesWidth_append, entriesWidth_singleton] at *
  rw [stretchDentry, wp_bind, wp_getMem, wp_storeLE, hrest]
  generalize hvalue : u16 (s.mem.readLE (clusterStart g.metaInfo c + entriesWidth before +
    recLenOffset) 2 + (blockSize g.sb - (entriesWidth before + last.width))) = v
  have hfill := h.fill hg (D := D)
    (a := clusterStart g.metaInfo c + entriesWidth before + recLenOffset) hP (leBytes 2 v) (by omega)
    (by rw [length_leBytes]; unfold recLenOffset; omega)
  rw [length_leBytes] at hfill
  refine ⟨hfill.1, hfill.2, hdata, ?_, ?_, ?_⟩
  · obtain ⟨hfirst, hend⟩ := HasEntries_append.mp hholds
    have houtside := Mem.sameOutside_write s.mem
      (clusterStart g.metaInfo c + entriesWidth before + recLenOffset) (leBytes 2 v)
    refine HasEntries_append.mpr ⟨hfirst.congr hbefore fun x hlow hhigh =>
      houtside x (Or.inl (by omega)), HasEntries_singleton.mpr ?_⟩
    have hstretch := hasEntry_stretch (HasEntries_singleton.mp hend)
      (blockSize g.sb - (entriesWidth before + last.width))
    rwa [hvalue] at hstretch
  · obtain ⟨k, hk, hpow⟩ := hg.clusterSize_pow
    refine fullBlock_sound ?_ hbefore hlast
    rw [hg.blockSize_eq, hpow, pow_add]
    omega
  · rw [fullBlock_width hfits]

/-- `register_extent` makes the open block an extent of the directory. -/
theorem registerBlock_building
    (h : Building g X m₀ base F (fatClToE4blk g.bootSector g.metaInfo c :: O) R s)
    (hentries : HoldsEntries g s.mem c es) (hn : InodePlace g.sb n) (hmade : Present X s n)
    (hd : n ∈ D) (hP : P ⊆ O ++ R) {fuel : ℕ} (hfuel : short ∨ allocationFuel g ≤ fuel) (k : ℕ) :
    wp (registerExtent g fuel ⟨k, 1, c⟩ n)
      (Within g fun _ t => Building g X m₀ base F O R t ∧ Registers g D P n [⟨k, 1, c⟩] [] s t ∧
        HoldsEntries g t.mem c es)
      (Within g (SafeStop g base F short)) s := by
  have hrange : List.range' (toExt4Extent g ⟨k, 1, c⟩).start (toExt4Extent g ⟨k, 1, c⟩).eeLen =
      [fatClToE4blk g.bootSector g.metaInfo c] := by
    have hstart : (toExt4Extent g ⟨k, 1, c⟩).start = fatClToE4blk g.bootSector g.metaInfo c :=
      hg.toExt4Extent_start hentries.data
    rw [hstart]
    rfl
  refine within_mono (registerExtent_building O R hg h hn hmade hd
    (P := fatClToE4blk g.bootSector g.metaInfo c :: P) ?_ Nat.one_pos
    hentries.data ?_ ?_ (List.subset_cons_self _ O) hfuel) ?_
  · intro b hb
    rcases List.mem_cons.mp hb with rfl | hin
    · exact List.mem_cons_self
    · exact List.mem_cons_of_mem _ (hP hin)
  · rw [hrange]
    exact List.Perm.refl _
  · rw [hrange]
    exact List.Subset.refl _
  · rintro _ t ⟨hbuilding, hregisters⟩
    have hkept := hregisters.work.step.kept _ List.mem_cons_self
    refine ⟨hbuilding, ⟨hregisters.work.mono (fun _ hx => hx) (List.subset_cons_self _ P),
      hregisters.tree, hregisters.reads, hregisters.firstFree, hregisters.fields⟩,
      hentries.congr hg hkept⟩

/-- `register_dir_extent` registers the cluster of a block. -/
theorem registerDirExtent_eq (hc : DataCluster g c) (fuel k n : ℕ) :
    registerDirExtent g fuel (fatClToE4blk g.bootSector g.metaInfo c) k n =
      registerExtent g fuel ⟨k, 1, c⟩ n := by
  rw [registerDirExtent, hg.e4blkToFatCl_fatClToE4blk hc]

/-- A full block is closed. -/
theorem closeBlock_building {before : List DirEntry} {last : DirEntry}
    (h : Building g X m₀ base F (fatClToE4blk g.bootSector g.metaInfo c :: O) R s)
    (hblocks : DirBlocks g F base.mem own n closed c (before ++ [last]) d s)
    (hprevious : d.previousDentry = clusterStart g.metaInfo c + entriesWidth before)
    (hnode : DirNode g s n inode links) (hd : n ∈ D) (hP : P ⊆ O ++ R)
    {fuel : ℕ} (hfuel : short ∨ allocationFuel g ≤ fuel) :
    wp (do
        stretchDentry g d.previousDentry d.positionInBlock
        registerDirExtent g fuel d.dentryBlockNo (sub32 d.blockCount 1) n)
      (Within g fun _ t => Building g X m₀ base F O R t ∧
        Registers g D P n [⟨closed.length, 1, c⟩] [] s t ∧ DirNode g t n inode links ∧
        inTreeOf t.ext4.registered n =
          extentRanges g n (dirExtents (closed.map Prod.fst ++ [c])) ∧
        ∀ x ∈ closed ++ [(c, fullBlock (blockSize g.sb) before last)], HoldsEntries g t.mem x.1 x.2)
      (Within g (SafeStop g base F short)) s := by
  have hff := h.inv.firstFree.2
  have hbounded := hblocks.bounded
  have hcount : sub32 d.blockCount 1 = closed.length := by
    rw [hblocks.count, sub32_of_le (Nat.le_add_left 1 _) (by omega), Nat.add_sub_cancel]
  rw [wp_bind, hprevious, hblocks.position, hblocks.block, hcount]
  refine wp_mono (stretchDentry_building (D := D) (E := fun _ _ => False) hg h hblocks.entries hP) ?_
    (fun _ _ hend => hend.elim)
  rintro _ u ⟨hbuilding₁, hregisters₁, hfull⟩
  have hregisters₁ := hregisters₁ n hnode.place
  have hnode₁ := hnode.registers hregisters₁
  rw [registerDirExtent_eq hg hfull.data]
  refine within_mono (registerBlock_building hg hbuilding₁ hfull hnode.place
    (Or.inl hnode₁.made) hd hP hfuel closed.length) ?_
  rintro _ t ⟨hbuilding, hregisters₂, hfull'⟩
  have hregisters : Registers g D P n [⟨closed.length, 1, c⟩] [] s t :=
    hregisters₁.trans hregisters₂
  refine ⟨hbuilding, hregisters, hnode₁.registers hregisters₂, ?_, fun x hx => ?_⟩
  · rw [hregisters.tree, hblocks.extents, dirExtents_append, extentRanges_append, List.length_map]
  · rcases List.mem_append.mp hx with hin | hin
    · exact holdsEntries_kept hg hblocks.full hblocks.extents hregisters.work x hin
    · rw [List.mem_singleton.mp hin]
      exact hfull'

omit hg in
/-- The clusters of the directory's table are taken one after the other. -/
theorem reuse_next {used : List ℕ} (h : own.take used.length <+: used)
    (hnext : (own.drop used.length).take 1 <+: [c]) :
    own.take (used.length + 1) <+: used ++ [c] := by
  rw [List.take_add]
  rcases Nat.lt_or_ge own.length used.length with hshort | hlong
  · rw [List.drop_eq_nil_of_le hshort.le, List.take_nil, List.append_nil]
    exact h.trans (List.prefix_append _ _)
  · have hall : own.take used.length = used :=
      h.eq_of_length (List.length_take_of_le hlong)
    rw [hall]
    exact (List.prefix_append_right_inj used).mpr hnext

/-- Behind `nextBlockIfFull` the open block has room for the entry. -/
theorem nextBlockIfFull_building {l : Layout} {e : DirEntry}
    (h : Building g X m₀ base F (fatClToE4blk g.bootSector g.metaInfo l.cluster :: O)
      (clusterBlocks g (own.drop (l.closed.length + 1)) ++ R) s)
    (hown : ∀ c ∈ own, DataCluster g c ∧ fatClToE4blk g.bootSector g.metaInfo c ∉ F)
    (hblocks : DirBlocks g F base.mem own n l.closed l.cluster (l.before ++ [l.last]) d s)
    (hprevious : d.previousDentry = clusterStart g.metaInfo l.cluster + entriesWidth l.before)
    (hnode : DirNode g s n inode links) (hd : n ∈ D) (hP : P ⊆ O ++ R)
    (hroom : l.closed.length + 13 ≤ s.ext4.firstFreeInodeNo) (he : e.width ≤ blockSize g.sb)
    {fuel : ℕ} (hfuel : short ∨ allocationFuel g ≤ fuel) :
    wp (nextBlockIfFull g n fuel e.width d)
      (Within g fun d' t => ∃ next l', l' = l.add (blockSize g.sb) next e ∧
        Building g X m₀ base F (fatClToE4blk g.bootSector g.metaInfo l'.cluster :: O)
          (clusterBlocks g (own.drop (l'.closed.length + 1)) ++ R) t ∧
        DirBlocks g F base.mem own n l'.closed l'.cluster l'.before d' t ∧
        entriesWidth l'.before + e.width ≤ blockSize g.sb ∧ d'.readStream = d.readStream ∧
        l'.last = e ∧ DirNode g t n inode links ∧ Work g D P s t ∧
        t.ext4.reads = s.ext4.reads ∧ t.ext4.firstFreeInodeNo = s.ext4.firstFreeInodeNo)
      (Within g (SafeStop g base F short)) s := by
  have hsize := hg.blockSize_le
  have hfits := hblocks.entries.fits
  have hposition := hblocks.position
  have hwidth : entriesWidth (l.before ++ [l.last]) = entriesWidth l.before + l.last.width := by
    rw [entriesWidth_append, entriesWidth_singleton]
  have hsub : sub32 (blockSize g.sb) d.positionInBlock = blockSize g.sb - d.positionInBlock :=
    sub32_of_le (by omega) (by omega)
  rw [nextBlockIfFull, hsub]
  by_cases hfull : blockSize g.sb < entriesWidth l.before + l.last.width + e.width
  · rw [if_pos (by omega), ← bind_assoc]
    refine wp_bind_within (fun _ => TreesGrow.bind (TreesGrow.of_keeps (SameTrees.nextDirBlock g _ _))
      fun _ => TreesGrow.pure _) ?_
    refine within_mono (closeBlock_building (P := P) hg h hblocks hprevious hnode hd
      (fun b hb => ?_) hfuel) ?_
    · rcases List.mem_append.mp (hP hb) with hin | hin
      · exact List.mem_append_left _ hin
      · exact List.mem_append_right _ (List.mem_append_right _ hin)
    rintro _ u ⟨hbuilding, hregisters, hnode', htree, hheld⟩
    rw [wp_bind]
    refine wp_mono (nextDirBlock_building hg hbuilding hblocks.clusters
      (fun c hc => hown c (List.mem_of_mem_drop hc)) hfuel) ?_ (fun _ _ hend _ => hend)
    rintro x t ⟨c, hblock, hdata, htake, hclusters, hbuilding', honly⟩
    have hff : t.ext4.firstFreeInodeNo = s.ext4.firstFreeInodeNo := by
      rw [honly.ext4, hregisters.firstFree]
    have hbound := h.inv.firstFree.2
    have hlength : (l.finish (blockSize g.sb)).length = l.closed.length + 1 := by
      rw [Layout.finish, List.length_append, List.length_singleton]
    have hfst : (l.finish (blockSize g.sb)).map Prod.fst = l.closed.map Prod.fst ++ [l.cluster] := by
      rw [Layout.finish, List.map_append]
      rfl
    refine fun _ => ⟨c, _, rfl, ?_⟩
    rw [Layout.add, if_pos hfull]
    rw [List.tail_drop] at hclusters hbuilding'
    dsimp only
    rw [hlength]
    refine ⟨hbuilding', ⟨?_, ?_, ?_, ⟨hdata, trivial, List.forall_mem_nil _, Nat.zero_le _⟩, hblock,
      ?_, rfl, ?_, ?_⟩, ?_, rfl, rfl, ?_, hregisters.work.trans (Work.allocOnly D P honly), ?_, hff⟩
    · rw [hfst, honly.ext4, htree]
    · rw [hlength, hff]
      exact hroom
    · rw [honly.mem]
      exact hheld
    · rw [hlength, hblocks.count]
      exact u32_of_lt (by omega)
    · rw [hlength]
      exact hclusters
    · have hused : (l.closed.map Prod.fst ++ [l.cluster]).length = l.closed.length + 1 := by
        rw [List.length_append, List.length_map, List.length_singleton]
      have hnext := reuse_next (c := c) (by rw [hused]; exact hblocks.reused)
        (by rw [hused]; exact htake)
      rw [hused] at hnext
      rw [hlength, hfst]
      exact hnext
    · rw [entriesWidth_nil, Nat.zero_add]
      exact he
    · exact hnode'.work (Work.allocOnly ∅ [] honly) (Set.notMem_empty n)
    · rw [honly.ext4, hregisters.reads, List.append_nil]
  · rw [if_neg (by omega)]
    refine fun _ => ⟨0, _, rfl, ?_⟩
    rw [Layout.add, if_neg hfull]
    exact ⟨h, hblocks, by dsimp only; omega, rfl, rfl, hnode, Work.refl g D P s, rfl, rfl⟩

omit hg in
/-- A new entry stored behind those of a block stands there. -/
theorem HoldsEntries.store {m : Mem} (h : HoldsEntries g m c es) (fresh : Ext4Dentry) {k : ℕ}
    {name : List UInt8} (hk : k < 2 ^ 32) (hname : name.length < 256)
    (hfits : entriesWidth es + (newEntry k name).width ≤ blockSize g.sb) :
    HoldsEntries g (m.write (clusterStart g.metaInfo c + entriesWidth es)
      ((namedDentry fresh k name).bytes (namedDentry fresh k name).recLen)) c
      (es ++ [newEntry k name]) := by
  have houtside := Mem.sameOutside_write m (clusterStart g.metaInfo c + entriesWidth es)
    ((namedDentry fresh k name).bytes (namedDentry fresh k name).recLen)
  refine ⟨h.data, HasEntries_append.mpr ⟨?_, HasEntries_singleton.mpr
    (hasEntry_write_new m _ fresh hk hname)⟩, fun e he => ?_, ?_⟩
  · exact h.entries.congr h.sound fun x _ hhigh => houtside x (Or.inl hhigh)
  · rcases List.mem_append.mp he with hin | hin
    · exact h.sound e hin
    · rw [List.mem_singleton.mp hin]
      exact newEntry_sound hk hname
  · rw [entriesWidth_append, entriesWidth_singleton]
    exact hfits

/-- An entry is stored behind those in the open block. -/
theorem storeEntry_building (fresh : Ext4Dentry) {k : ℕ} (name : List UInt8)
    (h : Building g X m₀ base F (fatClToE4blk g.bootSector g.metaInfo c :: O) R s)
    (hentries : HoldsEntries g s.mem c es) (hP : P ⊆ O ++ R) (hk : k < 2 ^ 32)
    (hname : name.length < 256)
    (hfits : entriesWidth es + (newEntry k name).width ≤ blockSize g.sb)
    {E : Halt → State → Prop} :
    wp (storeBytes (clusterStart g.metaInfo c + entriesWidth es)
        ((namedDentry fresh k name).bytes (namedDentry fresh k name).recLen))
      (fun _ t => Building g X m₀ base F (fatClToE4blk g.bootSector g.metaInfo c :: O) R t ∧
        (∀ n, InodePlace g.sb n → Registers g D P n [] [] s t) ∧
        HoldsEntries g t.mem c (es ++ [newEntry k name])) E s := by
  have hstart := hg.blockStart_fatClToE4blk hentries.data
  have hwidth := newEntry_width k hname
  have hrec : (namedDentry fresh k name).recLen = (newEntry k name).width := rfl
  have hlength := (namedDentry fresh k name).length_bytes (n := (newEntry k name).width)
    (by unfold sizeofExt4Dentry; omega)
  have hfill := h.fill hg (D := D) (P := P) hP
    (a := clusterStart g.metaInfo c + entriesWidth es)
    ((namedDentry fresh k name).bytes (namedDentry fresh k name).recLen)
    (by rw [hstart]; exact Nat.le_add_right _ _) (by rw [hstart, hrec, hlength]; omega)
  rw [wp_storeBytes]
  exact ⟨hfill.1, hfill.2, hentries.store fresh hk hname hfits⟩

/-- The open block holds other entries, and nothing is registered. -/
theorem DirBlocks.fill {es' : List DirEntry} {d' : DirState}
    (h : DirBlocks g F base.mem own n closed c es d s) (hregisters : Registers g D P n [] [] s t)
    (hentries : HoldsEntries g t.mem c es') (hiterator : d'.iterator = d.iterator)
    (hblock : d'.dentryBlockNo = d.dentryBlockNo) (hcount : d'.blockCount = d.blockCount)
    (hposition : d'.positionInBlock = entriesWidth es') :
    DirBlocks g F base.mem own n closed c es' d' t := by
  refine ⟨?_, h.bounded.trans hregisters.firstFree.ge,
    holdsEntries_kept hg h.full h.extents hregisters.work, hentries, hblock.trans h.block,
    hcount.trans h.count, hposition, ?_, h.reused⟩
  · rw [hregisters.tree, h.extents]
    exact List.append_nil _
  · rw [hiterator]
    exact h.clusters

/-- `build_dot_dirs` stores the first two entries of a block. -/
theorem buildDotDirs_building (env : Env) {parent : ℕ}
    (h : Building g X m₀ base F (fatClToE4blk g.bootSector g.metaInfo c :: O) R s)
    (hc : DataCluster g c) (hn : n < 2 ^ 32) (hP : P ⊆ O ++ R) (hparent : parent < 2 ^ 32)
    {E : Halt → State → Prop} :
    wp (buildDotDirs env n parent (clusterStart g.metaInfo c))
      (fun p t => Building g X m₀ base F (fatClToE4blk g.bootSector g.metaInfo c :: O) R t ∧
        (∀ k, InodePlace g.sb k → Registers g D P k [] [] s t) ∧
        p = clusterStart g.metaInfo c + entriesWidth [dotEntry n] ∧
        HoldsEntries g t.mem c ([dotEntry n] ++ [dotDotEntry parent])) E s := by
  have hsize := hg.blockSize_ge
  have hempty : HoldsEntries g s.mem c [] :=
    ⟨hc, trivial, List.forall_mem_nil _, Nat.zero_le _⟩
  rw [buildDotDirs, buildDotDirDentry, buildDotDotDirDentry,
    buildSpecialDentry_eq _ _ (by decide), buildSpecialDentry_eq _ _ (by decide)]
  dsimp only
  rw [wp_bind]
  have hfirst := storeEntry_building (D := D) (E := E) hg (env.fresh n 0) [0x2E] h hempty hP hn
    (by decide)
    (by rw [← dotEntry, dotEntry_width]; unfold ext4DotDentrySize; rw [entriesWidth_nil]; omega)
  rw [entriesWidth_nil, Nat.add_zero] at hfirst
  refine wp_mono_ok hfirst ?_
  rintro _ u ⟨hbuilding, hregisters, hdot⟩
  rw [wp_bind]
  refine wp_mono_ok (storeEntry_building (D := D) hg (env.fresh n 1) [0x2E, 0x2E] hbuilding hdot
    hP hparent (by decide) ?_) ?_
  · rw [List.nil_append, entriesWidth_singleton, ← dotEntry, ← dotDotEntry, dotEntry_width,
      dotDotEntry_width]
    unfold ext4DotDentrySize
    omega
  rintro _ t ⟨hbuilding', hregisters', hdots⟩
  exact ⟨hbuilding', fun k hk => (hregisters k hk).trans (hregisters' k hk), rfl, hdots⟩

end Steps

end OfsConvert
