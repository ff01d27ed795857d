import OfsConvert.LinkCheck

/-!
# Checking directories

A checker walks over the blocks of every directory. They are there for the logical numbers up to the
size of the directory and no further, each is filled by entries that keep to their bounds, and the
inodes below a directory are met in the order of their numbers.
-/

namespace OfsConvert

/-- What a checker verifies of a directory: whole blocks up to its size, and in each block entries
that follow one another to its end. -/
structure DirectoryClean (g : Globals) (m : Mem) (n : ℕ) : Prop where
  size : 0 < sizeOf g m n ∧ blockSize g.sb ∣ sizeOf g m n
  mapped : ∀ k, (inodeBlock g m n k).isSome = true ↔ k * blockSize g.sb < sizeOf g m n
  tiled : ∀ k b, inodeBlock g m n k = some b → ∃ es,
    readEntries m (blockSize g.sb) (blockSize g.sb) (blockStart g.metaInfo g.sb b)
      (blockSize g.sb) = some es ∧
    entriesWidth es = blockSize g.sb ∧ ∀ e ∈ es, DirEntry.Sound e

/-- The inodes that are met below a directory: each child, and behind it what there is in it. -/
def preorder (g : Globals) (m : Mem) : ℕ → ℕ → List ℕ
  | 0, _ => []
  | levels + 1, n => (((readDirectory g m n).getD []).drop 2).flatMap fun entry =>
      entry.1 :: entryReferences g m (preorder g m levels) entry

/-- What a checker verifies of the directories, given the levels that it follows and the number of
files and directories; `lost+found` comes last. -/
structure DirectoriesClean (g : Globals) (m : Mem) (levels count : ℕ) : Prop where
  each : ∀ n ∈ references g m levels ext4RootInode, isDirectoryMode (modeOf g m n) = true →
    DirectoryClean g m n
  numbered : preorder g m levels ext4RootInode =
    List.range' (ext4FirstNonRsvInode + 1) count ++ [ext4LostFoundInode]

/-- Forests of the same shape have as many nodes. -/
theorem Forest.Rel.size_eq {α β : Type} {R : α → β → Prop} {t : Forest α} {t' : Forest β}
    (h : Forest.Rel R t t') : t.size = t'.size := by
  induction h with
  | nil => rfl
  | file _ _ ih => rw [size, size, ih]
  | dir _ _ _ ihc ihr => rw [size, size, ihc, ihr]

section Tables

variable {g : Globals} {m : Mem} {n parent levels : ℕ} {blocks : List (ℕ × List DirEntry)}

/-- A directory whose blocks are tiled is clean. -/
theorem DirTable.clean (h : DirTable g m n blocks) (hg : Accepted g)
    (hsize : blockSize g.sb ≤ 2 ^ 16) (hnonempty : blocks ≠ []) : DirectoryClean g m n := by
  have hpos := hg.blockSize_ge
  have hlength := List.length_pos_iff.mpr hnonempty
  refine ⟨⟨?_, ?_⟩, fun k => ?_, fun k b hb => ?_⟩
  · rw [h.size]
    exact Nat.mul_pos hlength (by omega)
  · rw [h.size]
    exact Nat.dvd_mul_left _ _
  · rw [h.mapped, h.size, Nat.mul_lt_mul_right (by omega), Option.isSome_map]
    simp
  · rw [h.mapped, List.getElem?_map, Option.map_map] at hb
    obtain ⟨x, hx, rfl⟩ := Option.map_eq_some_iff.mp hb
    have hin := List.mem_of_getElem? hx
    exact ⟨x.2, h.readEntries_eq hg hsize hin, h.tiled x hin, (h.holds x hin).sound⟩

/-- What is met below a directory, from its table. -/
theorem preorder_eq {keys : List (ℕ × List UInt8)} (levels : ℕ)
    (h : readDirectory g m n = some ((n, [0x2E]) :: (parent, [0x2E, 0x2E]) :: keys)) :
    preorder g m (levels + 1) n = keys.flatMap fun entry =>
      entry.1 :: entryReferences g m (preorder g m levels) entry := by
  rw [preorder, h]
  rfl

end Tables

section Tree

variable {g : Globals} (hg : Accepted g) {env : Env} {m₀ : Mem} {base t : State} {F own : List ℕ}
  {X : Set ℕ} {n parent k levels : ℕ} {inode : Ext4Inode} {records children : Forest Record}
include hg

/-- A directory that is built is clean. -/
theorem DirBuilt.clean (hbuilt : DirBuilt g t n parent inode own k children)
    (h : Building g X m₀ base F [] [] t) (hroomy : Roomy g t) (hsize : blockSize g.sb ≤ 2 ^ 16)
    (hk : k + children.size ≤ 2 ^ 32) : DirectoryClean g t.mem n := by
  obtain ⟨blocks, hpacked, htable⟩ := hbuilt.dirTable hg h hroomy hsize hk
  refine htable.clean hg hsize ?_
  rintro rfl
  have hkeys : ([] : List (ℕ × List UInt8)) = (n, [0x2E]) :: (parent, [0x2E, 0x2E]) ::
      (children.childEntries k).map DirEntry.key := by
    rw [← packDirectory_key (blockSize g.sb) (children.childEntries k), ← hpacked]
    rfl
  exact List.cons_ne_nil _ _ hkeys.symm

/-- The inodes of a forest that is built are met in the order of their numbers. -/
theorem ForestBuilt.preorder_eq (hbuilt : ForestBuilt g env t n k records)
    (h : Building g X m₀ base F [] [] t) (hroomy : Roomy g t) (hsize : blockSize g.sb ≤ 2 ^ 16)
    (hkinds : records.Kinds) (hk : k + records.size ≤ 2 ^ 32) (hlevels : records.depth ≤ levels) :
    ((records.childEntries k).map DirEntry.key).flatMap
      (fun entry => entry.1 :: entryReferences g t.mem (preorder g t.mem levels) entry) =
        List.range' k records.size := by
  induction records generalizing n k levels with
  | nil => rfl
  | file rec rest ih =>
    obtain ⟨hfile, hrest⟩ := hbuilt
    rw [Forest.size] at hk
    have hleaf := entryReferences_of_file (hfile.inode.isDirectory_eq.trans hkinds.1)
      (preorder g t.mem levels) (entryName rec)
    rw [Forest.childEntries, List.map_cons, List.flatMap_cons, newEntry_key, hleaf,
      Forest.size, List.range'_succ, ih hrest hkinds.2 (by omega) hlevels]
    rfl
  | dir rec children rest ihc ihr =>
    obtain ⟨hdir, hchildren, hrest⟩ := hbuilt
    obtain ⟨hkind, hkindsc, hkindsr⟩ := hkinds
    rw [Forest.size] at hk
    rw [Forest.depth] at hlevels
    obtain ⟨levels, rfl⟩ := Nat.exists_eq_add_one_of_ne_zero (show levels ≠ 0 by omega)
    have hbelow := ihc hchildren hkindsc (by omega) (show children.depth ≤ levels by omega)
    have hbehind := ihr hrest hkindsr (by omega) (show rest.depth ≤ levels + 1 by omega)
    have htable := OfsConvert.preorder_eq levels
      (hdir.readDirectory_eq hg h hroomy hsize (by omega))
    have hinner : entryReferences g t.mem (preorder g t.mem (levels + 1)) (k, entryName rec) =
        List.range' (k + 1) children.size :=
      (entryReferences_of_dir (hdir.node.inode.isDirectory_eq.trans hkind) _ _).trans
        (htable.trans hbelow)
    have hjoin : List.range' (k + 1) children.size ++
        List.range' (k + 1 + children.size) rest.size =
          List.range' (k + 1) (children.size + rest.size) := by
      rw [← List.range'_append_1]
    rw [Forest.childEntries, List.map_cons, List.flatMap_cons, newEntry_key, hinner,
      hbehind, Forest.size, List.range'_succ, ← hjoin]
    rfl

end Tree

section Volume

variable {g : Globals} (hg : Accepted g) {env : Env} {m₀ : Mem} {base t : State} {F : List ℕ}
  {levels : ℕ} {rootExtents : List FatExtent} {records : Forest Record}
include hg

/-- The root is clean. -/
theorem Converted.root_clean (h : Converted g env m₀ base F rootExtents records t)
    (hroomy : Roomy g t) (hsize : blockSize g.sb ≤ 2 ^ 16) :
    DirectoryClean g t.mem ext4RootInode := by
  obtain ⟨blocks, hpacked, htable⟩ := h.rootTable hg hroomy hsize
  refine htable.clean hg hsize ?_
  rintro rfl
  exact List.append_ne_nil_of_right_ne_nil _ (List.cons_ne_nil _ _) hpacked.symm

/-- A checker finds nothing wrong with the directories. -/
theorem Converted.directoriesClean (h : Converted g env m₀ base F rootExtents records t)
    (hroomy : Roomy g t) (hfits : ForestFits g F records) (hsize : blockSize g.sb ≤ 2 ^ 16)
    (hlevels : records.depth ≤ levels) :
    DirectoriesClean g t.mem (levels + 2) records.size := by
  have hfirst := h.building.inv.firstFree
  have hff := h.firstFree
  refine ⟨fun n hn hdirectory => ?_, ?_⟩
  · have hpresent := h.present_of_mem hg hroomy hsize hfits.kinds hlevels hn
    rcases (h.present_iff).mp hpresent with rfl | rfl | ⟨hlow, hhigh⟩
    · exact h.root_clean hg hroomy hsize
    · obtain ⟨c, htable⟩ := h.lostFound.dirTable hg h.building hroomy hsize
      exact htable.clean hg hsize (List.cons_ne_nil _ _)
    · rcases h.built.cases hfits.kinds hlow hhigh with
        ⟨rec, -, hfile, hbuilt⟩ | ⟨_, _, _, _, _, hbuilt, hbound⟩
      · rw [hbuilt.inode.isDirectory_eq, hfile] at hdirectory
        cases hdirectory
      · exact hbuilt.clean hg h.building hroomy hsize (by omega)
  · have htree := h.built.preorder_eq hg h.building hroomy hsize hfits.kinds (by omega)
      (show records.depth ≤ levels + 1 by omega)
    have hlost : preorder g t.mem (levels + 1) ext4LostFoundInode = [] :=
      preorder_eq levels (h.lostFound.readTable hg h.building hroomy hsize)
    have hinner : entryReferences g t.mem (preorder g t.mem (levels + 1)) lostFoundEntry.key = [] :=
      (entryReferences_of_dir h.lostFound.isDirectory _ _).trans hlost
    rw [preorder_eq (levels + 1) (h.readRoot_eq hg hroomy hsize), List.flatMap_append, htree,
      List.flatMap_singleton, hinner]
    rfl

end Volume

end OfsConvert
