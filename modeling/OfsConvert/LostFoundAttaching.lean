import OfsConvert.LostFoundBuilding
import OfsConvert.TreeAppending

/-!
# Deepening the tree of the root directory and attaching `lost+found`

A tree that starts at logical block 0 stays well formed under `make_tree_deeper`, one level deeper.
`build_lost_found` takes the block behind the last extent of the root directory; whether the tree
then has that block behind all others depends on the room in its last leaf.
-/

namespace OfsConvert

/-- What `make_tree_deeper` makes of a tree: one level more above the same extents, with one root
entry, and one block more for the inode. -/
structure Deepened (g : Globals) (s t : State) (inodeNo depth : ℕ) (es : List Ext4Extent) :
    Prop where
  stored : StoredTree g t inodeNo (depth + 1) es
  single : ehEntries t.mem (rootHeader g inodeNo) = 1
  registered : ∃ b, DataBlock g b ∧
    t.ext4.registered = s.ext4.registered ++ [⟨inodeNo, 0, b, b + 1, false⟩]

/-- The root directory has one more extent: the block of a cluster, behind the last extent. -/
def RootExtended (g : Globals) (t : State) (es : List Ext4Extent) (last : Ext4Extent) (c : ℕ) :
    Prop :=
  ∃ e depth, e.eeBlock = last.eeBlock + last.eeLen ∧ e.eeLen = 1 ∧
    e.start = fatClToE4blk g.bootSector g.metaInfo c ∧
    StoredTree g t ext4RootInode depth (es ++ [e])

section Attaching

variable {g : Globals} {s t : State} {m₀ : Mem} {base : State} {F O R : List ℕ} {n depth fuel : ℕ}
  {es : List Ext4Extent} {e last : Ext4Extent}

/-- The tree of an inode is the same where the memory and the registrations are. -/
theorem StoredTree.allocOnly (h : StoredTree g s n depth es) (honly : AllocOnly s t) :
    StoredTree g t n depth es := by
  have hblocks : NodeBlock t n = NodeBlock s n := by
    unfold NodeBlock
    rw [honly.ext4]
  refine ⟨?_, h.typed, h.positive, h.ascending⟩
  rw [hblocks, honly.mem]
  exact h.tree

/-- A tree with one more extent behind its last one. -/
theorem StoredTree.snoc (h : StoredTree g s n depth es) (hlast : es.getLast? = some last)
    (he : e.Typed) (hpos : 0 < e.eeLen) (hplace : e.eeBlock = last.eeBlock + last.eeLen) {d : ℕ}
    (htree : ExtentSubtree g t.mem (NodeBlock t n) (rootHeader g n) 4 d (es ++ [e])) :
    StoredTree g t n d (es ++ [e]) := by
  refine ⟨htree, ?_, ?_, List.pairwise_append.mpr ⟨h.ascending, List.pairwise_singleton _ e, ?_⟩⟩
  · exact List.forall_mem_append.mpr ⟨h.typed, List.forall_mem_singleton.mpr he⟩
  · exact List.forall_mem_append.mpr ⟨h.positive, List.forall_mem_singleton.mpr hpos⟩
  · obtain ⟨front, rfl⟩ := List.getLast?_eq_some_iff.mp hlast
    have hpairs := (List.pairwise_append.mp h.ascending).2.2
    intro e₁ he₁ e₂ he₂
    rw [List.mem_singleton.mp he₂, hplace]
    rcases List.mem_append.mp he₁ with hfront | hend
    · have hle := hpairs e₁ hfront last (List.mem_singleton_self last)
      omega
    · rw [List.mem_singleton.mp hend]

/-- `make_tree_deeper` keeps the tree as long as `eh_depth` can hold the new depth. -/
theorem makeTreeDeeper_deepens (hg : Accepted g) (h : BuildInv g m₀ base F O R s)
    (hn : InodePlace g.sb n) (htree : StoredTree g s n depth es)
    (hfirst : ∀ e ∈ es.head?, e.eeBlock = 0) (hfuel : cursorRoom s < fuel) :
    wp (makeTreeDeeper g fuel (rootHeader g n) n)
      (fun _ t => Deepened g s t n depth es ↔ depth + 1 < 2 ^ 16)
      (fun cause _ => cause = .exit fsIsFullMessage) s := by
  have hstop := wp_mono_ok (allocateOne_ends hg h hfuel) fun _ _ _ => trivial
  refine wp_mono_ok (makeTreeDeeper_moved hg h hn htree.tree hstop) ?_
  intro _ t ht
  obtain ⟨b, -, hmoved⟩ := ht
  refine ⟨fun hdeeper => depth_lt_of_subtree hdeeper.stored.tree, fun hdepth => ?_⟩
  exact ⟨⟨hmoved.subtree hfirst hdepth, htree.typed, htree.positive, htree.ascending⟩,
    hmoved.single, b, hmoved.data, hmoved.registered⟩

/-- The root directory gets its block behind the last extent exactly where the tree has room for one
more extent there. -/
theorem growRoot_extends (hg : Accepted g) (h : BuildInv g m₀ base F O R s)
    (hn : InodePlace g.sb ext4RootInode) (htree : StoredTree g s ext4RootInode depth es)
    (hlast : es.getLast? = some last) (hdepth : depth + 1 < 2 ^ 16) (hfuel : cursorRoom s < fuel)
    (hdeep : depth + 1 < fuel) :
    wp (growRoot g fuel)
      (fun c t => RootExtended g t es last c ↔
        Appendable g s.mem ext4RootInode depth es ∧ last.eeBlock + last.eeLen < 2 ^ 32)
      (fun cause _ => cause = .exit fsIsFullMessage) s := by
  rw [growRoot, wp_bind]
  refine wp_mono (wp_and (allocateBlock_spec hg h fuel) (allocateOne_ends hg h hfuel)) ?_
    (fun _ _ hend => hend.2)
  intro d u hu
  obtain ⟨⟨hinv, honly, hd, hc⟩, hroom⟩ := hu
  have htree' := htree.allocOnly honly
  rw [wp_bind]
  refine wp_mono_ok (lastExtent_spec hg hinv.placed hn htree'.tree htree.typed (by omega)) ?_
  intro found v hv
  obtain ⟨rfl, hfound⟩ := hv
  obtain rfl : found = last := Option.some.inj (hfound.symm.trans hlast)
  rw [hd, wp_bind]
  generalize d.physicalStart = c at hinv hc ⊢
  have hstop := wp_mono_ok (allocateOne_ends hg hinv (hroom.trans hfuel)) fun _ _ _ => trivial
  refine wp_mono_ok (registerExtent_appends hg hinv hc hn htree' hdepth (u32_lt _) hdeep hstop) ?_
  intro _ t ht
  obtain ⟨hinv', houtcome⟩ := ht
  have hstart : (toExt4Extent g ⟨u32 (found.eeBlock + found.eeLen), 1, c⟩).start =
      fatClToE4blk g.bootSector g.metaInfo c := hg.toExt4Extent_start hc
  rw [wp_pure, ← honly.mem]
  constructor
  · rintro ⟨e, d', hplace, -, -, hstored⟩
    have htyped := hstored.typed e (List.mem_append_right es (List.mem_singleton_self e))
    refine ⟨?_, hplace ▸ htyped.eeBlock⟩
    by_contra hfull
    exact houtcome.lost hfull d' e (hstored.tree.transfer hg
      (fun _ hb => hinv'.nodeBlock_data hb) (fun _ hb => hinv'.nodeBlock_data hb) fun _ _ => rfl)
  · rintro ⟨hroomy, hlt⟩
    obtain ⟨d', hkept⟩ := houtcome.kept hroomy
    have hplace : (toExt4Extent g ⟨u32 (found.eeBlock + found.eeLen), 1, c⟩).eeBlock =
        found.eeBlock + found.eeLen := u32_of_lt hlt
    exact ⟨_, d', hplace, rfl, hstart, htree'.snoc hlast (toExt4Extent_typed (u32_lt _)) Nat.one_pos
      hplace hkept⟩

end Attaching

/-- `make_tree_deeper` on a well-formed tree that starts at logical block 0 gives a well-formed tree
with the same extents exactly where `eh_depth` can hold the new depth, and `last_extent` returns the
last of the extents. The block that `build_lost_found` takes for the root directory is in the tree
behind all these extents exactly where the last leaf has room, or the tree is in the inode itself and
starts at logical block 0, and the logical block behind the last extent has 32 bits. -/
theorem extentTree_deepens (g : Globals) (hg : Accepted g) (m₀ : Mem) (base s : State)
    (F O R : List ℕ) (h : BuildInv g m₀ base F O R s) (n : ℕ) (hn : InodePlace g.sb n) (depth : ℕ)
    (es : List Ext4Extent) (htree : StoredTree g s n depth es) :
    ((∀ e ∈ es.head?, e.eeBlock = 0) → ∀ fuel, cursorRoom s < fuel →
      wp (makeTreeDeeper g fuel (rootHeader g n) n)
        (fun _ t => Deepened g s t n depth es ↔ depth + 1 < 2 ^ 16)
        (fun cause _ => cause = .exit fsIsFullMessage) s) ∧
    ∃ last, es.getLast? = some last ∧
      (∀ fuel, depth < fuel → lastExtent g fuel n s = .ok last s) ∧
      (n = ext4RootInode → depth + 1 < 2 ^ 16 → ∀ fuel, cursorRoom s < fuel → depth + 1 < fuel →
        (∀ env, buildLostFound g env fuel = (do
          let cluster ← growRoot g fuel
          enterLostFound g env cluster
          fillLostFound g env fuel)) ∧
        wp (growRoot g fuel)
          (fun c t => RootExtended g t es last c ↔
            Appendable g s.mem n depth es ∧ last.eeBlock + last.eeLen < 2 ^ 32)
          (fun cause _ => cause = .exit fsIsFullMessage) s) := by
  obtain ⟨last, hlast⟩ : ∃ last, es.getLast? = some last :=
    Option.isSome_iff_exists.mp (List.getLast?_isSome.mpr htree.tree.ne_nil)
  refine ⟨fun hfirst fuel hfuel => makeTreeDeeper_deepens hg h hn htree hfirst hfuel, last, hlast,
    fun fuel hfuel => ?_, ?_⟩
  · apply eq_ok_of_wp
    refine wp_mono_ok (lastExtent_spec hg h.placed hn htree.tree htree.typed hfuel) ?_
    intro e t ht
    exact ⟨ht.1, Option.some.inj (ht.2.symm.trans hlast)⟩
  · rintro rfl hdepth fuel hfuel hdeep
    exact ⟨fun env => buildLostFound_eq g env fuel,
      growRoot_extends hg h hn htree hlast hdepth hfuel hdeep⟩

/-- Four extents, and a root directory that holds them in its inode. -/
def fourExtents : List Ext4Extent := ext4Extents (sampleGlobals 800) (scatteredExtents 4)

/-- The root directory with a full leaf in its inode. -/
@[irreducible] def rootBuild : State := emptyBuild (rootMem ext4RootInode fourExtents)

/-- The inode of the root directory has its place. -/
theorem rootPlace_sample_800 : InodePlace (sampleGlobals 800).sb ext4RootInode :=
  ⟨by decide, by decide, by decide⟩

/-- A tree with these extents is a stored tree. -/
theorem storedTree_scattered {s : State} {depth count : ℕ} (hcount : count ≤ 84)
    (htree : ExtentSubtree (sampleGlobals 800) s.mem (NodeBlock s ext4RootInode)
      (rootHeader (sampleGlobals 800) ext4RootInode) 4 depth
      (ext4Extents (sampleGlobals 800) (scatteredExtents count))) :
    StoredTree (sampleGlobals 800) s ext4RootInode depth
      (ext4Extents (sampleGlobals 800) (scatteredExtents count)) := by
  have hextent : ∀ e ∈ ext4Extents (sampleGlobals 800) (scatteredExtents count), ∃ i < count,
      e = toExt4Extent (sampleGlobals 800) ⟨i, 1, 60 + 2 * i⟩ := by
    intro e he
    obtain ⟨f, hf, rfl⟩ := List.mem_map.mp he
    obtain ⟨i, hi, rfl⟩ := List.mem_map.mp hf
    exact ⟨i, List.mem_range.mp hi, rfl⟩
  refine ⟨htree, fun e he => ?_, fun e he => ?_, ?_⟩
  · obtain ⟨i, hi, rfl⟩ := hextent e he
    exact toExt4Extent_typed (by omega)
  · obtain ⟨i, -, rfl⟩ := hextent e he
    exact Nat.one_pos
  · unfold ext4Extents scatteredExtents
    rw [List.map_map, List.pairwise_map]
    exact List.pairwise_lt_range.imp fun hij => hij

/-- The stored tree of that root directory: the inode itself is the leaf. -/
theorem storedTree_rootBuild : StoredTree (sampleGlobals 800) rootBuild ext4RootInode 0
    fourExtents := by
  have hread : rootBuild.mem.read (rootHeader (sampleGlobals 800) ext4RootInode)
      sizeofExtentHeader = ({ initExtentHeader with ehEntries := 4 } : Ext4ExtentHeader).bytes := by
    decide +kernel
  have hholds : rootBuild.mem.read
      (rootHeader (sampleGlobals 800) ext4RootInode + sizeofExtentHeader)
      (sizeofExtent * fourExtents.length) = fourExtents.flatMap Ext4Extent.bytes := by
    decide +kernel
  have hnode : NodeHeader rootBuild.mem (rootHeader (sampleGlobals 800) ext4RootInode) 4 0
      fourExtents.length :=
    NodeHeader.of_read hread (show 1 ≤ 4 by norm_num) (le_refl 4) (show 4 < 2 ^ 16 by norm_num)
      (show 0 < 2 ^ 16 by norm_num)
  exact storedTree_scattered (by norm_num) (ExtentSubtree.leaf hnode hholds)

/-- A full root of depth 0 is deepened, and the root directory gets a fifth block. -/
theorem extentTree_deepens_sample :
    (∃ t, makeTreeDeeper (sampleGlobals 800) 17179869184
        (rootHeader (sampleGlobals 800) ext4RootInode) ext4RootInode rootBuild = .ok () t ∧
      Deepened (sampleGlobals 800) rootBuild t ext4RootInode 0 fourExtents) ∧
    ∃ last, fourExtents.getLast? = some last ∧
      lastExtent (sampleGlobals 800) 17179869184 ext4RootInode rootBuild = .ok last rootBuild ∧
      ∃ c t, growRoot (sampleGlobals 800) 17179869184 rootBuild = .ok c t ∧
        RootExtended (sampleGlobals 800) t fourExtents last c := by
  have hinv : BuildInv (sampleGlobals 800) (fun _ => 0) rootBuild [] [] [] rootBuild := by
    unfold rootBuild
    exact buildInv_emptyBuild _ List.nodup_nil (List.forall_mem_nil _)
  obtain ⟨hdeepens, last, hlast, hfound, hattaches⟩ := extentTree_deepens (sampleGlobals 800)
    accepted_sample_800 (fun _ => 0) rootBuild rootBuild [] [] [] hinv ext4RootInode
    rootPlace_sample_800 0 fourExtents storedTree_rootBuild
  have hfirst : ∀ e ∈ fourExtents.head?, e.eeBlock = 0 := by decide +kernel
  have hroom : cursorRoom rootBuild < 17179869184 := by decide +kernel
  have hdeeper : returns (makeTreeDeeper (sampleGlobals 800) 17179869184
      (rootHeader (sampleGlobals 800) ext4RootInode) ext4RootInode) rootBuild = true := by
    decide +kernel
  have hgrows : returns (growRoot (sampleGlobals 800) 17179869184) rootBuild = true := by
    decide +kernel
  obtain ⟨_, t, ht⟩ := exists_ok_of_returns hdeeper
  obtain ⟨c, u, hu⟩ := exists_ok_of_returns hgrows
  have hlt : last.eeBlock + last.eeLen < 2 ^ 32 := by
    have hend : ∀ e ∈ fourExtents, e.eeBlock + e.eeLen < 2 ^ 32 := by decide +kernel
    exact hend last (List.mem_of_getLast? hlast)
  refine ⟨⟨t, ht, (wp_ok (hdeepens hfirst 17179869184 hroom) ht).mpr (by norm_num)⟩, last, hlast,
    hfound 17179869184 (by norm_num), c, u, hu, ?_⟩
  exact (wp_ok (hattaches rfl (by norm_num) 17179869184 hroom (by norm_num)).2 hu).mpr
    ⟨Or.inr ⟨rfl, hfirst⟩, hlt⟩

/-- A root directory of 84 blocks that are apart from each other, with a full leaf in block 141. -/
def manyExtents : List Ext4Extent := ext4Extents (sampleGlobals 800) (scatteredExtents 84)

/-- The memory with the tree of depth 1 whose leaf is full. -/
def fullMem : Mem :=
  Mem.write (Mem.write (fun _ => 0) (rootHeader (sampleGlobals 800) ext4RootInode)
      (({ initExtentHeader with ehEntries := 1, ehDepth := 1 } : Ext4ExtentHeader).bytes ++
        leBytes 4 0 ++ leBytes 4 141 ++ leBytes 4 0))
    (blockStart (sampleGlobals 800).metaInfo (sampleGlobals 800).sb 141)
    (({ initExtentHeader with ehEntries := 84, ehMax := 84 } : Ext4ExtentHeader).bytes ++
      manyExtents.flatMap Ext4Extent.bytes)

/-- What was registered for the root directory with the full leaf. -/
def fullRegistered : List Registration :=
  ⟨ext4RootInode, 0, 141, 142, false⟩ ::
    extentRanges (sampleGlobals 800) ext4RootInode (scatteredExtents 84)

/-- The root directory with a full leaf below its inode. -/
@[irreducible] def fullBuild : State :=
  { emptyBuild fullMem with
    ext4 := { (emptyBuild fullMem).ext4 with registered := fullRegistered } }

/-- This state keeps the invariant of the second phase. -/
theorem buildInv_fullBuild :
    BuildInv (sampleGlobals 800) (fun _ => 0) fullBuild [] [] [] fullBuild := by
  have hblocks : (registeredBlocks fullRegistered).Nodup ∧
      ∀ b ∈ registeredBlocks fullRegistered, 133 ≤ b ∧ b < 320 := by decide +kernel
  have h := buildInv_emptyBuild fullMem hblocks.1 hblocks.2
  unfold fullBuild
  refine ⟨⟨h.alloc.1, h.alloc.2, h.alloc.3, h.alloc.4, h.alloc.5, h.alloc.6⟩, h.placed, ?_, ?_, ?_,
    List.forall_mem_nil _, h.firstFree, ⟨hblocks.1, ?_, ⟨[], rfl, List.forall_mem_nil _⟩,
      List.forall_mem_nil _⟩⟩
  · rw [List.append_nil, List.append_nil]
    exact hblocks.1
  · rw [List.append_nil, List.append_nil]
    exact h.data
  · rw [List.append_nil, List.append_nil]
    exact h.taken
  · exact h.data

/-- The header and the extents of the leaf. -/
theorem read_fullLeaf :
    fullBuild.mem.read (blockStart (sampleGlobals 800).metaInfo (sampleGlobals 800).sb 141)
        sizeofExtentHeader =
      ({ initExtentHeader with ehEntries := 84, ehMax := 84 } : Ext4ExtentHeader).bytes ∧
    fullBuild.mem.read (blockStart (sampleGlobals 800).metaInfo (sampleGlobals 800).sb 141 +
        sizeofExtentHeader) (sizeofExtent * manyExtents.length) =
      manyExtents.flatMap Ext4Extent.bytes := by
  have hheader := length_header_bytes { initExtentHeader with ehEntries := 84, ehMax := 84 }
  have hall : fullBuild.mem.read
      (blockStart (sampleGlobals 800).metaInfo (sampleGlobals 800).sb 141)
      (sizeofExtentHeader + sizeofExtent * manyExtents.length) =
        ({ initExtentHeader with ehEntries := 84, ehMax := 84 } : Ext4ExtentHeader).bytes ++
          manyExtents.flatMap Ext4Extent.bytes := by
    unfold fullBuild
    refine Mem.read_write_of_length ?_
    rw [List.length_append, hheader, length_extents_bytes]
  rw [Mem.read_add] at hall
  exact List.append_inj hall (by rw [Mem.length_read, hheader])

/-- The stored tree of that root directory has depth 1. -/
theorem storedTree_fullBuild : StoredTree (sampleGlobals 800) fullBuild ext4RootInode 1
    manyExtents := by
  have hread : fullBuild.mem.read (rootHeader (sampleGlobals 800) ext4RootInode)
      sizeofExtentHeader =
        ({ initExtentHeader with ehEntries := 1, ehDepth := 1 } : Ext4ExtentHeader).bytes := by
    decide +kernel
  have hroot : NodeHeader fullBuild.mem (rootHeader (sampleGlobals 800) ext4RootInode) 4 1 1 :=
    NodeHeader.of_read hread (le_refl 1) (show 1 ≤ 4 by norm_num) (show 4 < 2 ^ 16 by norm_num)
      (show 1 < 2 ^ 16 by norm_num)
  have hleaf : NodeHeader fullBuild.mem
      (blockStart (sampleGlobals 800).metaInfo (sampleGlobals 800).sb 141)
      (maxEntries (sampleGlobals 800)) 0 manyExtents.length :=
    NodeHeader.of_read read_fullLeaf.1 (show 1 ≤ 84 by norm_num) (le_refl 84)
      (show 84 < 2 ^ 16 by norm_num) (show 0 < 2 ^ 16 by norm_num)
  have hentry : fullBuild.mem.readLE
        (rootHeader (sampleGlobals 800) ext4RootInode + sizeofExtentHeader) 4 = 0 ∧
      fromLoHi (fullBuild.mem.readLE
          (rootHeader (sampleGlobals 800) ext4RootInode + sizeofExtentHeader + 4) 4)
        (fullBuild.mem.readLE
          (rootHeader (sampleGlobals 800) ext4RootInode + sizeofExtentHeader + 8) 2) = 141 := by
    decide +kernel
  have howned : NodeBlock fullBuild ext4RootInode 141 :=
    ⟨⟨ext4RootInode, 0, 141, 142, false⟩, by unfold fullBuild; exact List.mem_cons_self, rfl, rfl,
      rfl⟩
  have hfirst : ∀ e ∈ manyExtents.head?, e.eeBlock = 0 := by decide +kernel
  have hchild : ExtentSubtree (sampleGlobals 800) fullBuild.mem (NodeBlock fullBuild ext4RootInode)
      (blockStart (sampleGlobals 800).metaInfo (sampleGlobals 800).sb 141)
      (maxEntries (sampleGlobals 800)) 0 manyExtents :=
    ExtentSubtree.leaf hleaf read_fullLeaf.2
  refine storedTree_scattered le_rfl (ExtentSubtree.index hroot ?_)
  change ExtentChildren _ _ _ _ _ _ manyExtents
  obtain ⟨e, rest, hcons⟩ := List.exists_cons_of_ne_nil hchild.ne_nil
  rw [hcons] at hchild hfirst
  rw [hcons, ← List.append_nil (e :: rest), List.cons_append]
  exact ExtentChildren.cons howned (hentry.1.trans (hfirst e rfl).symm) hentry.2 hchild
    ExtentChildren.nil

/-- A root directory of 84 blocks: its tree does not take the block for `lost+found`. -/
theorem growRoot_overwrites :
    BuildInv (sampleGlobals 800) (fun _ => 0) fullBuild [] [] [] fullBuild ∧
      StoredTree (sampleGlobals 800) fullBuild ext4RootInode 1 manyExtents ∧
      ∃ last c t, manyExtents.getLast? = some last ∧
        growRoot (sampleGlobals 800) 17179869184 fullBuild = .ok c t ∧
        ¬ RootExtended (sampleGlobals 800) t manyExtents last c := by
  have hreturns : returns (growRoot (sampleGlobals 800) 17179869184) fullBuild = true := by
    decide +kernel
  obtain ⟨c, t, hrun⟩ := exists_ok_of_returns hreturns
  obtain ⟨last, hlast⟩ : ∃ last, manyExtents.getLast? = some last :=
    Option.isSome_iff_exists.mp (List.getLast?_isSome.mpr storedTree_fullBuild.tree.ne_nil)
  have hroom : cursorRoom fullBuild < 17179869184 := by decide +kernel
  refine ⟨buildInv_fullBuild, storedTree_fullBuild, last, c, t, hlast, hrun, fun hextended => ?_⟩
  have hgrows := (wp_ok (growRoot_extends accepted_sample_800 buildInv_fullBuild
    rootPlace_sample_800 storedTree_fullBuild hlast (by norm_num) hroom (by norm_num)) hrun).mp
      hextended
  have hfull : ¬ ehEntries fullBuild.mem (lastLeafOf (sampleGlobals 800) fullBuild.mem 1
      (rootHeader (sampleGlobals 800) ext4RootInode)) <
    ehMax fullBuild.mem (lastLeafOf (sampleGlobals 800) fullBuild.mem 1
      (rootHeader (sampleGlobals 800) ext4RootInode)) := by decide +kernel
  rcases hgrows.1 with hless | ⟨hzero, -⟩
  · exact hfull hless
  · exact one_ne_zero hzero

end OfsConvert
