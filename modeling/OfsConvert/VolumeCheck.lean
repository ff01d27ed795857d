import OfsConvert.Preservation

/-!
# Checking an ext4 volume

What a file system checker verifies of the bytes of an ext4 volume: no block is used twice, the
bitmaps mark what is used, the counts in the inodes and in the descriptors are right, every inode in
use is reached from the root, and its links are counted. The volume that the conversion leaves
passes.
-/

namespace OfsConvert

/-- The blocks of the tree below a header: those of its nodes and those of its extents. -/
def treeBlocks (g : Globals) (m : Mem) : ℕ → ℕ → List ℕ
  | 0, _ => []
  | levels + 1, header =>
    if m.readLE header 2 = ehMagic then
      if ehDepth m header = 0 then extentBlocks (leafExtents m header)
      else (indexEntries m header).flatMap fun x =>
        x.2 :: treeBlocks g m levels (blockStart g.metaInfo g.sb x.2)
    else []

/-- The blocks of an inode. -/
def inodeBlocks (g : Globals) (m : Mem) (n : ℕ) : List ℕ :=
  treeBlocks g m extentLevels (rootHeader g n)

/-- What a checker verifies of the blocks: they belong to one inode each and are outside of the
metadata, the bitmaps mark exactly them, and `i_blocks` counts them. -/
structure BlocksClean (g : Globals) (m : Mem) : Prop where
  data : ∀ n, InodePlace g.sb n → ∀ b ∈ inodeBlocks g m n, DataBlock g b
  once : ∀ n, InodePlace g.sb n → (inodeBlocks g m n).Nodup
  apart : ∀ n k, InodePlace g.sb n → InodePlace g.sb k → n ≠ k →
    List.Disjoint (inodeBlocks g m n) (inodeBlocks g m k)
  bits : ∀ i < blockGroupCount g.sb, ∀ k < 8 * blockSize g.sb,
    bitAt m (blockBitmapAddr g i) k = true ↔ k < blockGroupOverhead g.sb i ∨
      blockGroupBlockCount g.sb i ≤ k ∨
        ∃ n, InodePlace g.sb n ∧ blockGroupStart g.sb i + k ∈ inodeBlocks g m n
  counts : ∀ n, InodePlace g.sb n →
    blocksOf g m n = (inodeBlocks g m n).length * (blockSize g.sb / 512)

section Blocks

variable {g : Globals} {m : Mem} {header max n b : ℕ} {es : List Ext4Extent} {leaf : Option ℕ}

/-- The blocks of a leaf are those of its extents. -/
theorem NodeAt.treeBlocks_eq (h : NodeAt m header max es) (htyped : ∀ e ∈ es, e.Typed)
    (levels : ℕ) : treeBlocks g m (levels + 1) header = extentBlocks es := by
  rw [treeBlocks, if_pos h.magic, if_pos h.depth, leafExtents_eq h htyped]

/-- The blocks of a tree are its leaf, if it has one, and those of its extents. -/
theorem TreeAt.inodeBlocks_eq (h : TreeAt g m n es leaf) (htyped : ∀ e ∈ es, e.Typed) :
    inodeBlocks g m n = leaf.toList ++ extentBlocks es := by
  cases leaf with
  | none => exact NodeAt.treeBlocks_eq h htyped 5
  | some b =>
    obtain ⟨hindex, -, hleaf⟩ := h
    rw [inodeBlocks, extentLevels, treeBlocks, if_pos hindex.magic, if_neg hindex.depth_ne_zero,
      hindex.indexEntries_eq, List.flatMap_singleton, hleaf.treeBlocks_eq htyped 4]
    rfl

/-- An inode that is not in use has no blocks. -/
theorem Blank.inodeBlocks_eq (h : Blank g m n) : inodeBlocks g m n = [] := by
  have hmagic : m.readLE (rootHeader g n) 2 = 0 := readLE_eq_zero fun i hi => h _ ⟨by
    rw [rootHeader]
    omega, by
    rw [rootHeader]
    unfold extHeaderOffset ext4InodeSize
    omega⟩
  rw [inodeBlocks, extentLevels, treeBlocks, if_neg]
  rw [hmagic]
  decide

/-- The blocks of extents that are registered. -/
theorem registeredBlocks_extentRanges (n : ℕ) (fexts : List FatExtent) :
    registeredBlocks (extentRanges g n fexts) = extentBlocks (ext4Extents g fexts) := by
  rw [registeredBlocks, extentRanges, extentBlocks, ext4Extents, List.flatMap_map, List.flatMap_map]
  simp only [registrationOf_blocks]

/-- The ranges of an inode are those in its tree and its nodes. -/
theorem rangesOf_perm (log : List Registration) (n : ℕ) :
    (nodesOf log n ++ inTreeOf log n).Perm (rangesOf log n) := by
  rw [inTreeOf_eq_filter, nodesOf]
  exact List.perm_append_comm.trans (List.filter_append_perm _ _)

end Blocks

section Building

variable {g : Globals} (hg : Accepted g) {m₀ : Mem} {base t : State} {F O R : List ℕ} {X : Set ℕ}
  {n : ℕ} {fexts : List FatExtent}
include hg

/-- The blocks of an inode are those that were registered for it, in ranges of 16-bit lengths. -/
theorem Building.inodeBlocks_perm (h : Building g X m₀ base F O R t) (hroomy : Roomy g t)
    (hn : InodePlace g.sb n) (hpresent : Present X t n)
    (htree : inTreeOf t.ext4.registered n = extentRanges g n fexts)
    (htyped : ∀ e ∈ fexts, e.Typed) (hdata : ∀ c ∈ physical fexts, DataCluster g c) :
    (inodeBlocks g t.mem n).Perm (registeredBlocks (rangesOf t.ext4.registered n)) ∧
      ∀ r ∈ rangesOf t.ext4.registered n, r.blocks.length < 2 ^ 16 := by
  obtain ⟨htyped', -, leaf, hat, hleaf⟩ :=
    h.treeAt_extents hg hroomy hn hpresent htree htyped hdata
  have hlength : (inTreeOf t.ext4.registered n).length = (ext4Extents g fexts).length := by
    rw [htree, extentRanges, ext4Extents, List.length_map, List.length_map]
  have hcount := h.nodes n (hroomy n)
  have hnodes : registeredBlocks (nodesOf t.ext4.registered n) = leaf.toList := by
    cases leaf with
    | none =>
      have hfits := NodeAt.fits hat
      rw [if_pos (by omega), List.length_eq_zero_iff] at hcount
      rw [hcount]
      rfl
    | some b =>
      obtain ⟨hmany, r, hr, hnode, hown, hblocks⟩ := hleaf b rfl
      have hin := mem_nodesOf.mpr ⟨hr, hnode, hown⟩
      rw [if_neg (by omega)] at hcount
      obtain ⟨r', hr'⟩ := List.length_eq_one_iff.mp hcount
      rw [hr', List.mem_singleton] at hin
      rw [hr', ← hin, registeredBlocks, List.flatMap_singleton, hblocks]
      rfl
  have hsplit := rangesOf_perm t.ext4.registered n
  refine ⟨?_, fun r hr => ?_⟩
  · rw [hat.inodeBlocks_eq htyped', ← hnodes, ← registeredBlocks_extentRanges n, ← htree,
      ← registeredBlocks_append]
    exact hsplit.flatMap_right Registration.blocks
  · rcases List.mem_append.mp (hsplit.symm.subset hr) with hin | hin
    · have hblocks : r.blocks ⊆ leaf.toList := fun b hb => by
        rw [← hnodes]
        exact mem_registeredBlocks.mpr ⟨r, hin, hb⟩
      have hnodup : r.blocks.Nodup := List.nodup_range'
      have hle := (List.subperm_of_subset hnodup hblocks).length_le
      have hone : leaf.toList.length ≤ 1 := by cases leaf <;> simp
      exact (hle.trans hone).trans_lt (by norm_num)
    · rw [htree] at hin
      obtain ⟨e, he, rfl⟩ := List.mem_map.mp hin
      rw [registrationOf_blocks, List.length_range']
      exact (htyped e he).length

/-- What `i_blocks` counts: each block in units of 512 bytes. -/
theorem sum_countedBlocks_eq (hsize : blockSize g.sb ≤ 2 ^ 16) {log : List Registration}
    (hshort : ∀ r ∈ log, r.blocks.length < 2 ^ 16) :
    (log.map (countedBlocks g)).sum = (registeredBlocks log).length * (blockSize g.sb / 512) := by
  obtain ⟨k, -, hpow⟩ := hg.clusterSize_pow
  have hunits : blockSize g.sb = 512 * (blockSize g.sb / 512) := by
    rw [hg.blockSize_eq, hpow, pow_add]
    omega
  induction log with
  | nil => simp [registeredBlocks]
  | cons r log ih =>
    have hr := hshort r List.mem_cons_self
    have hrest := ih fun r' hr' => hshort r' (List.mem_cons_of_mem r hr')
    have hproduct := Nat.mul_le_mul (Nat.le_of_lt_succ hr) hsize
    have hlength : r.blocks.length = r.blocksEnd - r.blocksBegin := List.length_range'
    have hblocks : registeredBlocks (r :: log) = r.blocks ++ registeredBlocks log :=
      List.flatMap_cons
    rw [List.map_cons, List.sum_cons, hrest, hblocks, List.length_append, Nat.add_mul,
      countedBlocks, ← hlength, u32_of_lt (by omega), Nat.mul_div_assoc _ ⟨_, hunits⟩]

/-- The extents of a directory that is built. -/
theorem extents_of_blocks (hroomy : Roomy g t) (blocks : List (ℕ × List DirEntry))
    (htree : inTreeOf t.ext4.registered n = extentRanges g n (dirExtents (blocks.map Prod.fst)))
    (hholds : ∀ x ∈ blocks, HoldsEntries g t.mem x.1 x.2) :
    ∃ fexts, inTreeOf t.ext4.registered n = extentRanges g n fexts ∧ (∀ e ∈ fexts, e.Typed) ∧
      (∀ c ∈ physical fexts, DataCluster g c) ∧ ∃ clusters, fexts = dirExtents clusters := by
  obtain ⟨-, -, hmax, -⟩ := hg.maxEntries_eq
  have hfew := hroomy n
  rw [htree, extentRanges, List.length_map, dirExtents, List.length_mapIdx] at hfew
  have hdata : ∀ c ∈ blocks.map Prod.fst, DataCluster g c := by
    intro c hc
    obtain ⟨x, hx, rfl⟩ := List.mem_map.mp hc
    exact (hholds x hx).data
  refine ⟨_, htree, dirExtents_typed hg hdata (by omega), ?_, _, rfl⟩
  rw [(dirExtents_logical _).2]
  exact hdata

omit hg in
/-- Every inode of a forest is that of a file or of a directory. -/
theorem ForestBuilt.cases {env : Env} {parent k : ℕ} {records : Forest Record}
    (hbuilt : ForestBuilt g env t parent k records) (hkinds : records.Kinds) (hlow : k ≤ n)
    (hhigh : n < k + records.size) :
    (∃ rec ∈ records.toList, isDir rec.dentry = false ∧ FileBuilt g env t n rec) ∨
      ∃ parent inode own j children, DirBuilt g t n parent inode own j children ∧
        j + children.size ≤ k + records.size := by
  induction records generalizing parent k with
  | nil =>
    rw [Forest.size] at hhigh
    omega
  | file rec rest ih =>
    rw [Forest.size] at hhigh
    by_cases hn : n = k
    · subst hn
      exact Or.inl ⟨rec, List.mem_cons_self, hkinds.1, hbuilt.1⟩
    · rcases ih hbuilt.2 hkinds.2 (by omega) (by omega) with
        ⟨r, hr, hfile⟩ | ⟨p, inode, own, j, children, hdir, hbound⟩
      · exact Or.inl ⟨r, List.mem_cons_of_mem rec hr, hfile⟩
      · rw [Forest.size]
        exact Or.inr ⟨p, inode, own, j, children, hdir, by omega⟩
  | dir rec children rest ihc ihr =>
    rw [Forest.size] at hhigh
    rw [Forest.size]
    by_cases hn : n = k
    · subst hn
      exact Or.inr ⟨_, _, _, _, _, hbuilt.1, by omega⟩
    · by_cases hinner : n < k + 1 + children.size
      · rcases ihc hbuilt.2.1 hkinds.2.1 (by omega) hinner with
          ⟨r, hr, hfile⟩ | ⟨p, inode, own, j, below, hdir, hbound⟩
        · exact Or.inl ⟨r, List.mem_cons_of_mem rec (List.mem_append_left _ hr), hfile⟩
        · exact Or.inr ⟨p, inode, own, j, below, hdir, by omega⟩
      · rcases ihr hbuilt.2.2 hkinds.2.2 (by omega) (by omega) with
          ⟨r, hr, hfile⟩ | ⟨p, inode, own, j, below, hdir, hbound⟩
        · exact Or.inl ⟨r, List.mem_cons_of_mem rec (List.mem_append_right _ hr), hfile⟩
        · exact Or.inr ⟨p, inode, own, j, below, hdir, by omega⟩

/-- Every inode of a forest that is built has the extents of a record or, for a directory, one for
each block. -/
theorem ForestBuilt.extents {env : Env} {parent k : ℕ} {records : Forest Record}
    (hbuilt : ForestBuilt g env t parent k records) (hroomy : Roomy g t)
    (hfits : ForestFits g F records) (hlow : k ≤ n) (hhigh : n < k + records.size) :
    InodePlace g.sb n ∧ ∃ fexts, inTreeOf t.ext4.registered n = extentRanges g n fexts ∧
      (∀ e ∈ fexts, e.Typed) ∧ (∀ c ∈ physical fexts, DataCluster g c) ∧
        ((∃ clusters, fexts = dirExtents clusters) ∨
          ∃ rec ∈ records.toList, fexts = rec.extents) := by
  rcases hbuilt.cases hfits.kinds hlow hhigh with ⟨rec, hrec, -, hfile⟩ | ⟨_, _, _, _, _, hdir, -⟩
  · have hsound := hfits.records rec hrec
    exact ⟨hfile.place, _, hfile.extents, hsound.sound.typed, hsound.clusters,
      Or.inr ⟨rec, hrec, rfl⟩⟩
  · obtain ⟨blocks, -, htree, hholds, -⟩ := hdir.blocks
    obtain ⟨fexts, htree', htyped, hdata, hown⟩ := extents_of_blocks hg hroomy blocks htree hholds
    exact ⟨hdir.node.place, fexts, htree', htyped, hdata, Or.inl hown⟩

end Building

section Volume

variable {g : Globals} (hg : Accepted g) {env : Env} {m₀ : Mem} {base t : State} {F : List ℕ}
  {n : ℕ} {rootExtents : List FatExtent} {records : Forest Record}
include hg

omit hg in
/-- The inodes that there are: the root, `lost+found` and those of the tree. -/
theorem Converted.present_iff (h : Converted g env m₀ base F rootExtents records t) :
    Present {ext4LostFoundInode} t n ↔
      n = ext4RootInode ∨ n = ext4LostFoundInode ∨ 12 ≤ n ∧ n < 12 + records.size := by
  rw [Present, Made, h.firstFree, Set.mem_singleton_iff, or_assoc]
  exact or_congr_right or_comm

/-- Every inode that there is has a place, and the extents of a record or one for each block. -/
theorem Converted.extents (h : Converted g env m₀ base F rootExtents records t)
    (hroomy : Roomy g t) (hfits : ForestFits g F records)
    (hpresent : Present {ext4LostFoundInode} t n) :
    InodePlace g.sb n ∧ ∃ fexts, inTreeOf t.ext4.registered n = extentRanges g n fexts ∧
      (∀ e ∈ fexts, e.Typed) ∧ (∀ c ∈ physical fexts, DataCluster g c) ∧
        ((∃ clusters, fexts = dirExtents clusters) ∨
          ∃ rec ∈ records.toList, fexts = rec.extents) := by
  rcases (h.present_iff).mp hpresent with rfl | rfl | ⟨hlow, hhigh⟩
  · obtain ⟨blocks, -, htree, hholds, -⟩ := h.root.blocks
    obtain ⟨fexts, htree', htyped, hdata, hown⟩ := extents_of_blocks hg hroomy blocks htree hholds
    exact ⟨h.root.node.place, fexts, htree', htyped, hdata, Or.inl hown⟩
  · obtain ⟨c, htree, hholds⟩ := h.lostFound.block
    obtain ⟨fexts, htree', htyped, hdata, hown⟩ :=
      extents_of_blocks hg hroomy [(c, _)] htree (by simpa using hholds)
    exact ⟨hg.reservedPlace (by decide) (by decide), fexts, htree', htyped, hdata, Or.inl hown⟩
  · exact h.built.extents hg hroomy hfits hlow hhigh

/-- The blocks of every inode are those that were registered for it, in ranges of 16-bit
lengths. -/
theorem Converted.inodeBlocks_perm (h : Converted g env m₀ base F rootExtents records t)
    (hroomy : Roomy g t) (hfits : ForestFits g F records) (hn : InodePlace g.sb n) :
    (inodeBlocks g t.mem n).Perm (registeredBlocks (rangesOf t.ext4.registered n)) ∧
      ∀ r ∈ rangesOf t.ext4.registered n, r.blocks.length < 2 ^ 16 := by
  by_cases hpresent : Present {ext4LostFoundInode} t n
  · obtain ⟨-, fexts, htree, htyped, hdata, -⟩ := h.extents hg hroomy hfits hpresent
    exact h.building.inodeBlocks_perm hg hroomy hn hpresent htree htyped hdata
  · have hnone : rangesOf t.ext4.registered n = [] := by
      rw [rangesOf, List.filter_eq_nil_iff]
      intro r hr hown
      rw [decide_eq_true_eq] at hown
      exact hpresent (hown ▸ h.building.owners r hr)
    rw [(h.building.blank n hn hpresent).inodeBlocks_eq, hnone]
    exact ⟨List.Perm.refl _, List.forall_mem_nil _⟩

/-- The blocks that are registered are those of the inodes. -/
theorem Converted.mem_registered (h : Converted g env m₀ base F rootExtents records t)
    (hroomy : Roomy g t) (hfits : ForestFits g F records) (b : ℕ) :
    b ∈ registeredBlocks t.ext4.registered ↔
      ∃ n, InodePlace g.sb n ∧ b ∈ inodeBlocks g t.mem n := by
  rw [mem_registeredBlocks]
  constructor
  · rintro ⟨r, hr, hb⟩
    have hplace := (h.extents hg hroomy hfits (h.building.owners r hr)).1
    refine ⟨r.inodeNo, hplace, (h.inodeBlocks_perm hg hroomy hfits hplace).1.symm.subset ?_⟩
    exact mem_registeredBlocks.mpr ⟨r, List.mem_filter.mpr ⟨hr, decide_eq_true rfl⟩, hb⟩
  · rintro ⟨n, hn, hb⟩
    have hin := (h.inodeBlocks_perm hg hroomy hfits hn).1.subset hb
    obtain ⟨r, hr, hb'⟩ := mem_registeredBlocks.mp hin
    exact ⟨r, List.mem_of_mem_filter hr, hb'⟩

/-- A checker finds nothing wrong with the blocks. -/
theorem Converted.blocksClean (h : Converted g env m₀ base F rootExtents records t)
    (hroomy : Roomy g t) (hfits : ForestFits g F records) (hfit : GroupsFit g)
    (hsize : blockSize g.sb ≤ 2 ^ 16) : BlocksClean g t.mem := by
  have hledger := h.ledger hfit
  have hinv := h.building.inv
  have hperm := fun n hn => h.inodeBlocks_perm (n := n) hg hroomy hfits hn
  have howned : ∀ n, InodePlace g.sb n → ∀ b ∈ inodeBlocks g t.mem n,
      ∃ r ∈ t.ext4.registered, r.inodeNo = n ∧ b ∈ r.blocks := by
    intro n hn b hb
    obtain ⟨r, hr, hb'⟩ := mem_registeredBlocks.mp ((hperm n hn).1.subset hb)
    obtain ⟨hr', hown⟩ := List.mem_filter.mp hr
    exact ⟨r, hr', of_decide_eq_true hown, hb'⟩
  refine ⟨fun n hn b hb => ?_, fun n hn => ?_, fun n k hn hk hne b hb hb' => ?_,
    fun i hi k hk => ?_, fun n hn => ?_⟩
  · obtain ⟨r, hr, -, hin⟩ := howned n hn b hb
    exact hinv.registered_data hr hin
  · rw [(hperm n hn).1.nodup_iff]
    exact hinv.log.nodup.sublist (List.filter_sublist.flatMap _)
  · obtain ⟨r, hr, hown, hin⟩ := howned n hn b hb
    obtain ⟨r', hr', hown', hin'⟩ := howned k hk b hb'
    obtain rfl := registered_unique hinv.log.nodup hr hr' hin hin'
    exact hne (hown.symm.trans hown')
  · rw [hledger.bits i hi k hk, h.mem_registered hg hroomy hfits]
  · rw [hledger.blocks n hn, (hperm n hn).1.length_eq]
    exact sum_countedBlocks_eq hg hsize (hperm n hn).2

end Volume

end OfsConvert
