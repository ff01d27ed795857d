import OfsConvert.DescriptorCheck

/-!
# Checking inodes and links

A checker follows the entries of all directories from the root on. The inodes that it meets are
those that the bitmaps mark behind the reserved ones, each has as many links as entries name it, and
the places of all others are still 0.
-/

namespace OfsConvert

/-- What an entry leads to: nothing, or what there is `below` a directory. -/
def entryReferences (g : Globals) (m : Mem) (below : ℕ → List ℕ) (entry : ℕ × List UInt8) :
    List ℕ :=
  if isDirectoryMode (modeOf g m entry.1) then below entry.1 else []

/-- The inodes that the entries of a directory name, and those in the directories below it; the
first two entries are for the directory itself and for its parent. -/
def references (g : Globals) (m : Mem) : ℕ → ℕ → List ℕ
  | 0, _ => []
  | levels + 1, n =>
    let entries := (readDirectory g m n).getD []
    entries.map Prod.fst ++ (entries.drop 2).flatMap (entryReferences g m (references g m levels))

/-- What a checker verifies of the inodes, given the levels of directories that it follows. -/
structure InodesClean (g : Globals) (m : Mem) (levels : ℕ) : Prop where
  places : ∀ n ∈ references g m levels ext4RootInode, InodePlace g.sb n
  links : ∀ n ∈ references g m levels ext4RootInode,
    linksOf g m n = u16 ((references g m levels ext4RootInode).count n)
  bits : ∀ n, InodePlace g.sb n → (inodeBit g m n = true ↔
    n < ext4FirstNonRsvInode ∨ n ∈ references g m levels ext4RootInode)
  unused : ∀ n, InodePlace g.sb n → n ∉ references g m levels ext4RootInode →
    ∀ a ∈ inodeBytes g n, m a = 0

namespace Forest

variable {α : Type} {t : Forest α} {n k x : ℕ}

/-- The references below directory `n`, whose children are numbered in preorder from `k` on, but
for the entries for `n` itself and for its parent. -/
def references : ℕ → ℕ → Forest α → List ℕ
  | _, _, nil => []
  | n, k, file _ rest => k :: references n (k + 1) rest
  | n, k, dir _ children rest =>
    k :: k :: n :: (references k (k + 1) children ++ references n (k + 1 + children.size) rest)

/-- Only the parent and the numbers of the forest are referenced. -/
theorem count_references_outside (hx : x < k ∨ k + t.size ≤ x) (hn : x ≠ n) :
    (t.references n k).count x = 0 := by
  induction t generalizing n k with
  | nil => rfl
  | file a rest ih =>
    rw [size] at hx
    rw [references, List.count_cons_of_ne (by omega), ih (by omega) hn]
  | dir a children rest ihc ihr =>
    rw [size] at hx
    rw [references, List.count_cons_of_ne (by omega), List.count_cons_of_ne (by omega),
      List.count_cons_of_ne hn.symm, List.count_append, ihc (by omega) (by omega),
      ihr (by omega) hn]

/-- The parent is referenced by each child directory. -/
theorem count_references_parent (hn : n < k) : (t.references n k).count n = t.dirCount := by
  induction t generalizing k with
  | nil => rfl
  | file a rest ih =>
    rw [references, List.count_cons_of_ne (by omega), ih (by omega), dirCount]
  | dir a children rest _ ihr =>
    rw [references, List.count_cons_of_ne (by omega), List.count_cons_of_ne (by omega),
      List.count_cons_self, List.count_append, count_references_outside (by omega) (by omega),
      ihr (by omega), dirCount, Nat.zero_add]

end Forest

section Tree

variable {g : Globals} (hg : Accepted g) {env : Env} {m₀ : Mem} {base t : State} {F : List ℕ}
  {X : Set ℕ} {n k x levels : ℕ} {records : Forest Record}

/-- Every inode of a forest that is built has as many links as there are references to it. -/
theorem ForestBuilt.links_eq (hbuilt : ForestBuilt g env t n k records)
    (hkinds : records.Kinds) (hn : n < k) (hlow : k ≤ x) (hhigh : x < k + records.size) :
    linksOf g t.mem x = u16 ((records.references n k).count x) ∧
      0 < (records.references n k).count x := by
  induction records generalizing n k with
  | nil =>
    rw [Forest.size] at hhigh
    omega
  | file rec rest ih =>
    obtain ⟨hfile, hrest⟩ := hbuilt
    rw [Forest.size] at hhigh
    rw [Forest.references]
    by_cases hx : x = k
    · subst hx
      rw [List.count_cons_self, Forest.count_references_outside (by omega) (by omega), hfile.links]
      exact ⟨rfl, Nat.one_pos⟩
    · rw [List.count_cons_of_ne (by omega)]
      exact ih hrest hkinds.2 (by omega) (by omega) (by omega)
  | dir rec children rest ihc ihr =>
    obtain ⟨hdir, hchildren, hrest⟩ := hbuilt
    obtain ⟨hkind, hkindsc, hkindsr⟩ := hkinds
    rw [Forest.size] at hhigh
    rw [Forest.references]
    by_cases hx : x = k
    · subst hx
      have hlinks : (inodeOf env rec.dentry).iLinksCount = 2 := by
        rw [inodeOf]
        exact if_pos hkind
      rw [List.count_cons_self, List.count_cons_self, List.count_cons_of_ne (by omega),
        List.count_append, Forest.count_references_parent (by omega),
        Forest.count_references_outside (t := rest) (by omega) (by omega), hdir.node.links, hlinks]
      exact ⟨by congr 1; omega, by omega⟩
    · rw [List.count_cons_of_ne (by omega), List.count_cons_of_ne (by omega),
        List.count_cons_of_ne (by omega), List.count_append]
      by_cases hinner : x < k + 1 + children.size
      · rw [Forest.count_references_outside (t := rest) (by omega) (by omega), Nat.add_zero]
        exact ihc hchildren hkindsc (by omega) (by omega) hinner
      · rw [Forest.count_references_outside (t := children) (by omega) (by omega), Nat.zero_add]
        exact ihr hrest hkindsr (by omega) (by omega) (by omega)

/-- There is nothing below a file. -/
theorem entryReferences_of_file {m : Mem} (hmode : isDirectoryMode (modeOf g m n) = false)
    (below : ℕ → List ℕ) (name : List UInt8) : entryReferences g m below (n, name) = [] := by
  rw [entryReferences, hmode]
  rfl

/-- The entry of a directory leads to what is below it. -/
theorem entryReferences_of_dir {m : Mem} (hmode : isDirectoryMode (modeOf g m n) = true)
    (below : ℕ → List ℕ) (name : List UInt8) : entryReferences g m below (n, name) = below n := by
  rw [entryReferences, hmode]
  rfl

/-- The references of a directory, from its table. -/
theorem references_eq {m : Mem} {n parent : ℕ} {keys : List (ℕ × List UInt8)} (levels : ℕ)
    (h : readDirectory g m n = some ((n, [0x2E]) :: (parent, [0x2E, 0x2E]) :: keys)) :
    references g m (levels + 1) n = n :: parent ::
      (keys.map Prod.fst ++ keys.flatMap (entryReferences g m (references g m levels))) := by
  rw [references, h]
  rfl

include hg

/-- A checker meets the references of a forest that is built. -/
theorem ForestBuilt.references_perm (hbuilt : ForestBuilt g env t n k records)
    (h : Building g X m₀ base F [] [] t) (hroomy : Roomy g t) (hsize : blockSize g.sb ≤ 2 ^ 16)
    (hkinds : records.Kinds) (hk : k + records.size ≤ 2 ^ 32) (hlevels : records.depth ≤ levels) :
    (((records.childEntries k).map DirEntry.key).map Prod.fst ++
      ((records.childEntries k).map DirEntry.key).flatMap
        (entryReferences g t.mem (references g t.mem levels))).Perm (records.references n k) := by
  induction records generalizing n k levels with
  | nil => exact List.Perm.refl _
  | file rec rest ih =>
    obtain ⟨hfile, hrest⟩ := hbuilt
    rw [Forest.size] at hk
    have hleaf := entryReferences_of_file (hfile.inode.isDirectory_eq.trans hkinds.1)
      (references g t.mem levels) (entryName rec)
    have hbehind := ih hrest hkinds.2 (by omega) hlevels
    rw [Forest.childEntries, List.map_cons, List.map_cons, List.flatMap_cons, newEntry_key,
      hleaf, Forest.references]
    exact hbehind.cons k
  | dir rec children rest ihc ihr =>
    obtain ⟨hdir, hchildren, hrest⟩ := hbuilt
    obtain ⟨hkind, hkindsc, hkindsr⟩ := hkinds
    rw [Forest.size] at hk
    rw [Forest.depth] at hlevels
    obtain ⟨levels, rfl⟩ := Nat.exists_eq_add_one_of_ne_zero (show levels ≠ 0 by omega)
    have hbelow := ihc hchildren hkindsc (by omega) (show children.depth ≤ levels by omega)
    have hbehind := ihr hrest hkindsr (by omega) (show rest.depth ≤ levels + 1 by omega)
    have htable := references_eq levels
      (hdir.readDirectory_eq hg h hroomy hsize (by omega))
    have hinner := entryReferences_of_dir (hdir.node.inode.isDirectory_eq.trans hkind)
      (references g t.mem (levels + 1)) (entryName rec)
    rw [Forest.childEntries, List.map_cons, List.map_cons, List.flatMap_cons, newEntry_key,
      hinner, htable, Forest.references]
    -- the entries behind the directory change places with what is in it
    refine List.perm_iff_count.mpr fun y => ?_
    have hcount := hbelow.count_eq y
    have hcount' := hbehind.count_eq y
    simp only [List.cons_append, List.count_cons, List.count_append] at hcount hcount' ⊢
    omega

end Tree

section Volume

variable {g : Globals} (hg : Accepted g) {env : Env} {m₀ : Mem} {base t : State} {F : List ℕ}
  {n levels : ℕ} {rootExtents : List FatExtent} {records : Forest Record}
include hg

/-- A checker meets `lost+found`, the root and the references of the tree. -/
theorem Converted.references_perm (h : Converted g env m₀ base F rootExtents records t)
    (hroomy : Roomy g t) (hsize : blockSize g.sb ≤ 2 ^ 16) (hkinds : records.Kinds)
    (hlevels : records.depth ≤ levels) :
    (references g t.mem (levels + 2) ext4RootInode).Perm
      (ext4RootInode :: ext4RootInode :: ext4RootInode :: ext4LostFoundInode ::
        ext4LostFoundInode :: records.references ext4RootInode 12) := by
  have hfirst := h.building.inv.firstFree
  have hff := h.firstFree
  have htree := h.built.references_perm hg h.building hroomy hsize hkinds (by omega)
    (show records.depth ≤ levels + 1 by omega)
  have hlost : references g t.mem (levels + 1) ext4LostFoundInode =
      [ext4LostFoundInode, ext4RootInode] :=
    references_eq levels (h.lostFound.readTable hg h.building hroomy hsize)
  have hinner : entryReferences g t.mem (references g t.mem (levels + 1)) lostFoundEntry.key =
      [ext4LostFoundInode, ext4RootInode] :=
    (entryReferences_of_dir h.lostFound.isDirectory _ _).trans hlost
  rw [references_eq (levels + 1) (h.readRoot_eq hg hroomy hsize), List.map_append,
    List.flatMap_append, List.map_singleton, List.flatMap_singleton, hinner]
  refine List.perm_iff_count.mpr fun y => ?_
  have hcount := htree.count_eq y
  have hkey : lostFoundEntry.key.1 = ext4LostFoundInode := rfl
  simp only [List.count_cons, List.count_append, List.count_nil, hkey] at hcount ⊢
  omega

/-- Every inode that there is has as many links as there are references to it. -/
theorem Converted.links_eq (h : Converted g env m₀ base F rootExtents records t)
    (hroomy : Roomy g t) (hsize : blockSize g.sb ≤ 2 ^ 16) (hkinds : records.Kinds)
    (hlevels : records.depth ≤ levels) (hpresent : Present {ext4LostFoundInode} t n) :
    linksOf g t.mem n = u16 ((references g t.mem (levels + 2) ext4RootInode).count n) ∧
      n ∈ references g t.mem (levels + 2) ext4RootInode := by
  rw [← List.count_pos_iff,
    (h.references_perm hg hroomy hsize hkinds hlevels).count_eq n]
  rcases (h.present_iff).mp hpresent with rfl | rfl | ⟨hlow, hhigh⟩
  · have hcount := Forest.count_references_parent (t := records)
      (show ext4RootInode < 12 by decide)
    have hne : ext4LostFoundInode ≠ ext4RootInode := by decide
    rw [List.count_cons_self, List.count_cons_self, List.count_cons_self,
      List.count_cons_of_ne hne, List.count_cons_of_ne hne, hcount, h.root.node.links]
    exact ⟨by congr 1; omega, by omega⟩
  · have hcount := Forest.count_references_outside (t := records) (n := ext4RootInode) (k := 12)
      (x := ext4LostFoundInode) (Or.inl (by decide)) (by decide)
    have hne : ext4RootInode ≠ ext4LostFoundInode := by decide
    rw [List.count_cons_of_ne hne, List.count_cons_of_ne hne, List.count_cons_of_ne hne,
      List.count_cons_self, List.count_cons_self, hcount, h.lostFound.links]
    exact ⟨rfl, Nat.two_pos⟩
  · have hroot : ext4RootInode ≠ n := by
      unfold ext4RootInode
      omega
    have hlost : ext4LostFoundInode ≠ n := by
      unfold ext4LostFoundInode
      omega
    rw [List.count_cons_of_ne hroot, List.count_cons_of_ne hroot, List.count_cons_of_ne hroot,
      List.count_cons_of_ne hlost, List.count_cons_of_ne hlost]
    exact h.built.links_eq hkinds (by decide) hlow hhigh

/-- Nothing else is referenced. -/
theorem Converted.present_of_mem (h : Converted g env m₀ base F rootExtents records t)
    (hroomy : Roomy g t) (hsize : blockSize g.sb ≤ 2 ^ 16) (hkinds : records.Kinds)
    (hlevels : records.depth ≤ levels)
    (hn : n ∈ references g t.mem (levels + 2) ext4RootInode) :
    Present {ext4LostFoundInode} t n := by
  rw [h.present_iff]
  by_contra hnone
  obtain ⟨hroot, hrest⟩ := not_or.mp hnone
  obtain ⟨hlost, hnone⟩ := not_or.mp hrest
  have hzero := Forest.count_references_outside (t := records) (n := ext4RootInode) (k := 12)
    (x := n) (by omega) hroot
  have hin := (h.references_perm hg hroomy hsize hkinds hlevels).subset hn
  rw [List.count_eq_zero] at hzero
  simp only [List.mem_cons, hroot, hlost, hzero, or_self] at hin

/-- A checker finds nothing wrong with the inodes. -/
theorem Converted.inodesClean (h : Converted g env m₀ base F rootExtents records t)
    (hroomy : Roomy g t) (hfits : ForestFits g F records) (hsize : blockSize g.sb ≤ 2 ^ 16)
    (hlevels : records.depth ≤ levels) : InodesClean g t.mem (levels + 2) := by
  have hlinks := fun n hn => h.links_eq (n := n) hg hroomy hsize hfits.kinds hlevels hn
  have hpresent := fun n hn => h.present_of_mem (n := n) hg hroomy hsize hfits.kinds hlevels hn
  refine ⟨fun n hn => (h.extents hg hroomy hfits (hpresent n hn)).1,
    fun n hn => (hlinks n (hpresent n hn)).1, fun n hn => ⟨fun hbit => ?_, fun hin => ?_⟩,
    fun n hn hnone => h.building.blank n hn fun hin => hnone (hlinks n hin).2⟩
  · by_contra hnone
    obtain ⟨hreserved, hnone⟩ := not_or.mp hnone
    have habsent : ¬ Present {ext4LostFoundInode} t n := fun hin => hnone (hlinks n hin).2
    rw [h.present_iff] at habsent
    have hfree : t.ext4.firstFreeInodeNo ≤ n := by
      rw [h.firstFree]
      unfold ext4FirstNonRsvInode at hreserved
      unfold ext4LostFoundInode at habsent
      omega
    rw [h.building.clear n hn hfree] at hbit
    cases hbit
  · by_cases hreserved : n ≤ ext4FirstNonRsvInode
    · exact h.reserved n hn.lower hreserved
    have hmade := hpresent n (hin.resolve_left (by omega))
    rcases (h.present_iff).mp hmade with rfl | rfl | ⟨hlow, hhigh⟩
    · exact h.reserved _ (by decide) (by decide)
    · exact h.reserved _ (by decide) (by decide)
    · rcases h.built.cases hfits.kinds hlow hhigh with
        ⟨_, -, -, hfile⟩ | ⟨_, _, _, _, _, hdir, -⟩
      · exact hfile.bit
      · exact hdir.node.bit

end Volume

end OfsConvert
