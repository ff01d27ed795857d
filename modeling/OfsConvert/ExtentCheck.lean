import OfsConvert.LinkCheck

/-!
# Checking extent trees

A checker walks down the extent tree of every inode. Each node has its magic number, its depth and
no more entries than there is room for, and the extents in the leaves follow one another without a
gap. A length above `EXT4_MAX_INIT_EXTENT_LEN` would stand for blocks that were never written; there
is none.
-/

namespace OfsConvert

/-- The extents in the leaves below a header, in order. -/
def extentsBelow (g : Globals) (m : Mem) : ℕ → ℕ → List Ext4Extent
  | 0, _ => []
  | levels + 1, header =>
    if ehDepth m header = 0 then leafExtents m header
    else (indexEntries m header).flatMap fun x =>
      extentsBelow g m levels (blockStart g.metaInfo g.sb x.2)

/-- The header of a node of a depth, which has some bytes for itself. -/
structure NodeClean (m : Mem) (depth room header : ℕ) : Prop where
  magic : m.readLE header 2 = ehMagic
  depth : ehDepth m header = depth
  entries : ehEntries m header ≤ ehMax m header
  room : sizeofExtentHeader + sizeofExtent * ehMax m header ≤ room

/-- The tree below a header: an index entry leads to a node that is one level closer to the leaves
and has the first logical block that is mapped there. -/
def TreeClean (g : Globals) (m : Mem) : ℕ → ℕ → ℕ → Prop
  | 0, room, header => NodeClean m 0 room header
  | depth + 1, room, header => NodeClean m (depth + 1) room header ∧
      ∀ x ∈ indexEntries m header,
        TreeClean g m depth (blockSize g.sb) (blockStart g.metaInfo g.sb x.2) ∧
          ((extentsBelow g m (depth + 1) (blockStart g.metaInfo g.sb x.2)).head?).map
            Ext4Extent.eeBlock = some x.1

/-- Extents that follow one another from a logical block on. -/
def FollowOn : ℕ → List Ext4Extent → Prop
  | _, [] => True
  | k, e :: es => e.eeBlock = k ∧ FollowOn (k + e.eeLen) es

/-- The bytes of an inode that its root node has. -/
def rootNodeSize : ℕ := 60

/-- What a checker verifies of the extents of an inode. -/
structure ExtentsClean (g : Globals) (m : Mem) (n : ℕ) : Prop where
  tree : ∃ depth < extentLevels, TreeClean g m depth rootNodeSize (rootHeader g n)
  initialized : ∀ e ∈ extentsBelow g m extentLevels (rootHeader g n),
    1 ≤ e.eeLen ∧ e.eeLen ≤ ext4MaxInitExtentLen
  logical : FollowOn 0 (extentsBelow g m extentLevels (rootHeader g n))

section Trees

variable {g : Globals} {m : Mem} {header max room n k : ℕ} {es : List Ext4Extent}
  {leaf : Option ℕ}

/-- Below a leaf are its extents. -/
theorem NodeAt.extentsBelow_eq (h : NodeAt m header max es) (htyped : ∀ e ∈ es, e.Typed)
    (levels : ℕ) : extentsBelow g m (levels + 1) header = es := by
  rw [extentsBelow, if_pos h.depth, leafExtents_eq h htyped]

/-- The extents of a tree are those that it holds. -/
theorem TreeAt.extentsBelow_eq (h : TreeAt g m n es leaf) (htyped : ∀ e ∈ es, e.Typed) :
    extentsBelow g m extentLevels (rootHeader g n) = es := by
  cases leaf with
  | none => exact NodeAt.extentsBelow_eq h htyped 5
  | some b =>
    obtain ⟨hindex, -, hleaf⟩ := h
    rw [extentLevels, extentsBelow, if_neg hindex.depth_ne_zero, hindex.indexEntries_eq,
      List.flatMap_singleton]
    exact hleaf.extentsBelow_eq htyped 4

/-- A leaf is clean where its capacity fits the room. -/
theorem NodeAt.clean (h : NodeAt m header max es)
    (hroom : sizeofExtentHeader + sizeofExtent * max ≤ room) : NodeClean m 0 room header :=
  ⟨h.magic, h.depth, by rw [h.count, h.capacity]; exact h.fits, by rw [h.capacity]; exact hroom⟩

/-- A tree that holds extents from the first logical block on is clean. -/
theorem TreeAt.clean (h : TreeAt g m n es leaf) (hg : Accepted g) (htyped : ∀ e ∈ es, e.Typed)
    (hlogical : FollowOn 0 es) :
    ∃ depth < extentLevels, TreeClean g m depth rootNodeSize (rootHeader g n) := by
  cases leaf with
  | none => exact ⟨0, by decide, NodeAt.clean h (by decide)⟩
  | some b =>
    obtain ⟨hindex, hmany, hleaf⟩ := h
    obtain ⟨-, -, -, hroom⟩ := hg.maxEntries_eq
    have hnode : NodeClean m 1 rootNodeSize (rootHeader g n) :=
      ⟨hindex.magic, hindex.depth, by rw [hindex.count, hindex.capacity]; decide,
        by rw [hindex.capacity]; decide⟩
    refine ⟨1, by decide, hnode, fun x hx => ?_⟩
    rw [hindex.indexEntries_eq, List.mem_singleton] at hx
    subst hx
    refine ⟨hleaf.clean ?_, ?_⟩
    · rw [Nat.mul_succ, Nat.add_comm] at hroom
      exact hroom
    · rw [hleaf.extentsBelow_eq htyped 0]
      cases es with
      | nil => exact absurd hmany (by decide)
      | cons e es => exact congrArg some hlogical.1

/-- Converted extents follow one another as the extents do. -/
theorem followOn_ext4Extents {fexts : List FatExtent} (h : LogicalFrom k fexts) :
    FollowOn k (ext4Extents g fexts) := by
  induction fexts generalizing k with
  | nil => trivial
  | cons e fexts ih => exact ⟨h.1, ih h.2⟩

end Trees

section Volume

variable {g : Globals} (hg : Accepted g) {env : Env} {m₀ : Mem} {rootChain : List ℕ}
  {forest : Forest FatNode} {r w : StreamArchiver} {pages F : List ℕ}
  {rootExtents : List FatExtent} {records : Forest Record} {base t : State} {n levels : ℕ}

/-- The extents of a record follow one another, and none is too long. -/
theorem VolumeRead.runs
    (hread : VolumeRead g m₀ rootChain forest r w pages rootExtents records base) {rec : Record}
    (hrec : rec ∈ records.toList) : LogicalFrom 0 rec.extents ∧
      ∀ e ∈ rec.extents, 1 ≤ e.length ∧ e.length ≤ ext4MaxInitExtentLen := by
  obtain ⟨i, hi, rfl⟩ := List.getElem_of_mem hrec
  obtain ⟨hlength, hrecords⟩ := List.forall₂_iff_get.mp hread.children.toList
  have hrelocated := (hrecords i (by omega) hi).extents
  exact ⟨hrelocated.logical, hrelocated.lengths⟩

/-- The extents of a directory follow one another, and each is one block long. -/
theorem dirExtents_runs (clusters : List ℕ) : LogicalFrom 0 (dirExtents clusters) ∧
    ∀ e ∈ dirExtents clusters, 1 ≤ e.length ∧ e.length ≤ ext4MaxInitExtentLen := by
  refine ⟨(dirExtents_logical clusters).1, fun e he => ?_⟩
  obtain ⟨i, hi, rfl⟩ := List.mem_mapIdx.mp he
  exact show 1 ≤ 1 ∧ 1 ≤ ext4MaxInitExtentLen by decide

include hg

/-- A checker finds nothing wrong with the extent trees. -/
theorem Converted.extentsClean
    (h : Converted g env m₀ base F rootExtents records t)
    (hread : VolumeRead g m₀ rootChain forest r w pages rootExtents records base)
    (hroomy : Roomy g t) (hfits : ForestFits g F records) (hsize : blockSize g.sb ≤ 2 ^ 16)
    (hlevels : records.depth ≤ levels) (hn : n ∈ references g t.mem (levels + 2) ext4RootInode) :
    ExtentsClean g t.mem n := by
  have hpresent := h.present_of_mem hg hroomy hsize hfits.kinds hlevels hn
  obtain ⟨hplace, fexts, htree, htyped, hdata, hown⟩ := h.extents hg hroomy hfits hpresent
  obtain ⟨hlogical, hlengths⟩ : LogicalFrom 0 fexts ∧
      ∀ e ∈ fexts, 1 ≤ e.length ∧ e.length ≤ ext4MaxInitExtentLen := by
    rcases hown with ⟨clusters, rfl⟩ | ⟨rec, hrec, rfl⟩
    · exact dirExtents_runs clusters
    · exact hread.runs hrec
  obtain ⟨htyped', -, leaf, hat, -⟩ :=
    h.building.treeAt_extents hg hroomy hplace hpresent htree htyped hdata
  have hfollow := followOn_ext4Extents (g := g) hlogical
  have hbelow := hat.extentsBelow_eq htyped'
  refine ⟨hat.clean hg htyped' hfollow, ?_, ?_⟩
  · rw [hbelow]
    intro e he
    obtain ⟨f, hf, rfl⟩ := List.mem_map.mp he
    exact hlengths f hf
  · rw [hbelow]
    exact hfollow

end Volume

end OfsConvert
