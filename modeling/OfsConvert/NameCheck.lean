import OfsConvert.LongNames
import OfsConvert.Preservation

/-!
# Checking names

The conversion adds three names: two in every directory, for itself and for its parent, and
`lost+found` in the root. As long as the names of the FAT volume fit into an entry, those in a
directory of the finished volume are pairwise distinct exactly when the names that they are made of
are.
-/

namespace OfsConvert

/-- The units of a name, up to the first 0. -/
def ChildName.units : ChildName → List ℕ
  | .long parts => spelled (parts.map unitsOf)
  | .short units => units.takeWhile (· ≠ 0)

/-- The number of elements that a name has in the stream. -/
def ChildName.elements : ChildName → ℕ
  | .long parts => parts.length
  | .short _ => 1

/-- A name that ends in its last element and is short enough for the limit of `build_dentry`. -/
structure ChildName.Fits (name : ChildName) : Prop where
  short : textWidth utf8Width name.units ≤ ext4NameLen - 1
  ends : name.elements ≤ name.units.length / lfnEntryLength + 1

/-- The names of a directory itself and of its parent. -/
def dotUnits : List (List ℕ) := [[0x2E], [0x2E, 0x2E]]

/-- The name `lost+found`. -/
def lostFoundUnits : List ℕ := [0x6C, 0x6F, 0x73, 0x74, 0x2B, 0x66, 0x6F, 0x75, 0x6E, 0x64]

namespace Forest

variable {α β : Type}

/-- In no directory do two names agree; every directory has the names `dots` too, and the one that
holds the forest has `others`. -/
def NamesApart (name : α → β) (dots others : List β) (t : Forest α) : Prop :=
  (dots ++ (t.top.map name ++ others)).Nodup ∧
    ∀ d ∈ t.directories, (dots ++ d.2.top.map name).Nodup

/-- The nodes at the top of two forests follow one another. -/
theorem top_append (t t' : Forest α) : (t.append t').top = t.top ++ t'.top := by
  induction t with
  | nil => rfl
  | file a rest ih => rw [append, top, ih, top, List.cons_append]
  | dir a children rest _ ih => rw [append, top, ih, top, List.cons_append]

/-- The directories at the top of two forests follow one another. -/
theorem directories_append (t t' : Forest α) :
    (t.append t').directories = t.directories ++ t'.directories := by
  induction t with
  | nil => rfl
  | file a rest ih => rw [append, directories, ih, directories]
  | dir a children rest _ ih =>
    rw [append, directories, ih, directories, List.cons_append, List.append_assoc]

/-- Mapping a forest maps its nodes at the top. -/
theorem top_map (f : α → β) (t : Forest α) : (t.map f).top = t.top.map f := by
  induction t with
  | nil => rfl
  | file a rest ih => rw [map, top, ih, top, List.map_cons]
  | dir a children rest _ ih => rw [map, top, ih, top, List.map_cons]

/-- Mapping a forest maps its directories and what is in them. -/
theorem directories_map (f : α → β) (t : Forest α) :
    (t.map f).directories = t.directories.map fun d => (f d.1, d.2.map f) := by
  induction t with
  | nil => rfl
  | file a rest ih => exact ih
  | dir a children rest ihc ihr =>
    rw [map, directories, ihc, ihr, directories, List.map_cons, List.map_append]

/-- A node at the top is a node. -/
theorem mem_of_mem_top {t : Forest α} {a : α} (h : a ∈ t.top) : a ∈ t.toList := by
  induction t with
  | nil => exact h
  | file b rest ih =>
    rcases List.mem_cons.mp h with rfl | hin
    · exact List.mem_cons_self
    · exact List.mem_cons_of_mem b (ih hin)
  | dir b children rest _ ih =>
    rcases List.mem_cons.mp h with rfl | hin
    · exact List.mem_cons_self
    · exact List.mem_cons_of_mem b (List.mem_append_right _ (ih hin))

/-- A node in a directory is a node. -/
theorem mem_of_mem_directories {t : Forest α} {a : α} {d : α × Forest α}
    (hd : d ∈ t.directories) (h : a ∈ d.2.top) : a ∈ t.toList := by
  induction t with
  | nil => exact absurd hd (List.not_mem_nil)
  | file b rest ih => exact List.mem_cons_of_mem b (ih hd)
  | dir b children rest ihc ihr =>
    apply List.mem_cons_of_mem b
    rcases List.mem_cons.mp hd with rfl | hin
    · exact List.mem_append_left _ (mem_of_mem_top h)
    · rcases List.mem_append.mp hin with hin | hin
      · exact List.mem_append_left _ (ihc hin)
      · exact List.mem_append_right _ (ihr hin)

end Forest

section Names

variable {name : ChildName} {d : FatDentry}

/-- The name of an entry is that of the child, if it fits. -/
theorem ChildName.Fits.bytes_eq (h : name.Fits) : name.bytes = utf8 name.units := by
  have hshort := h.short
  cases name with
  | short units =>
    have hkept : keptUnits (ext4NameLen - 1) units = units.takeWhile (· ≠ 0) :=
      fitting_eq_self hshort
    rw [ChildName.bytes, hkept, ChildName.units]
  | long parts =>
    have hends := h.ends
    have hsegments : ∀ x ∈ parts.map unitsOf, x.length = lfnEntryLength := by
      intro x hx
      obtain ⟨part, -, rfl⟩ := List.mem_map.mp hx
      simp [unitsOf]
    have hwhole : fitting utf8Width (ext4NameLen - 1) (spelled (parts.map unitsOf)) =
        spelled (parts.map unitsOf) := fitting_eq_self hshort
    have hkept : keptName (ext4NameLen - 1) (parts.map unitsOf) =
        fitting utf8Width (ext4NameLen - 1) (spelled (parts.map unitsOf)) := by
      apply (keptName_eq_fitting_iff hsegments).mpr
      -- there is no element behind the one in which the name ends
      rw [hwhole, List.drop_eq_nil_of_le (by rw [List.length_map]; exact hends)]
      exact fun x hx => absurd hx (List.not_mem_nil)
    rw [ChildName.bytes, hkept, hwhole, ChildName.units]

/-- The units of a name have 16 bits. -/
theorem ChildName.units_lt (hshort : ∀ units, name = .short units → units = shortNameUnits d) :
    ∀ u ∈ name.units, u < 2 ^ 16 := by
  intro u hu
  cases name with
  | short units =>
    obtain rfl := hshort units rfl
    exact shortNameUnits_lt d u ((List.takeWhile_sublist _).subset hu)
  | long parts =>
    obtain ⟨x, hx, hin⟩ := List.mem_flatten.mp ((List.takeWhile_sublist _).subset hu)
    obtain ⟨part, -, rfl⟩ := List.mem_map.mp hx
    obtain ⟨i, -, rfl⟩ := List.mem_map.mp hin
    have hlt := leNat_lt ((part.drop (2 * i)).take 2)
    have hle : ((part.drop (2 * i)).take 2).length ≤ 2 := List.length_take_le _ _
    exact hlt.trans_le (Nat.pow_le_pow_right (by decide) hle)

/-- The names of a volume consist of 16-bit units. -/
theorem Describes.units_lt {g : Globals} {m : Mem} {entries : List FatDentry}
    {forest : Forest FatNode} (h : Describes g m entries forest) :
    ∀ node ∈ forest.toList, ∀ u ∈ node.entry.name.units, u < 2 ^ 16 := by
  induction forest generalizing entries with
  | nil => exact fun _ hin => absurd hin (List.not_mem_nil)
  | file node rest ih =>
    obtain ⟨-, -, -, entries', hnext, hrest⟩ := h
    intro x hx
    rcases List.mem_cons.mp hx with rfl | hin
    · exact ChildName.units_lt (nextChild_short hnext)
    · exact ih hrest x hin
  | dir node children rest ihc ihr =>
    obtain ⟨-, -, -, hinner, entries', hnext, hrest⟩ := h
    intro x hx
    rcases List.mem_cons.mp hx with rfl | hin
    · exact ChildName.units_lt (nextChild_short hnext)
    · rcases List.mem_append.mp hin with hin | hin
      · exact ihc hinner x hin
      · exact ihr hrest x hin

/-- Encoded names are as distinct as the names. -/
theorem nodup_map_utf8_iff {names : List (List ℕ)}
    (h : ∀ us ∈ names, ∀ u ∈ us, u < 2 ^ 16) : (names.map utf8).Nodup ↔ names.Nodup :=
  ⟨List.Nodup.of_map utf8, fun hnodup => hnodup.map_on fun us hus vs hvs heq =>
    utf8_injective (h us hus) (h vs hvs) heq⟩

end Names

section Tree

variable {g : Globals} {env : Env} {m : Mem} {entries : List FatDentry} {forest : Forest FatNode}

/-- In the tree that a driver reads, names are distinct exactly when those of the FAT volume are
distinct among each other and from those that are added. -/
theorem Describes.namesApart_iff (h : Describes g m entries forest)
    (hfits : ∀ node ∈ forest.toList, node.entry.name.Fits) :
    ((forest.map (FatNode.view g env m)).append (.dir (lostFoundView env) .nil .nil)).NamesApart
        FileView.name (dotUnits.map utf8) [] ↔
      forest.NamesApart (fun node => node.entry.name.units) dotUnits [lostFoundUnits] := by
  have hnames : ∀ nodes : List FatNode, (∀ node ∈ nodes, node ∈ forest.toList) →
      (nodes.map (FatNode.view g env m)).map FileView.name =
        (nodes.map fun node => node.entry.name.units).map utf8 := by
    intro nodes hnodes
    rw [List.map_map, List.map_map]
    exact List.map_congr_left fun node hnode => (hfits node (hnodes node hnode)).bytes_eq
  have hunits : ∀ nodes : List FatNode, (∀ node ∈ nodes, node ∈ forest.toList) →
      ∀ us ∈ nodes.map fun node => node.entry.name.units, ∀ u ∈ us, u < 2 ^ 16 := by
    intro nodes hnodes us hus
    obtain ⟨node, hnode, rfl⟩ := List.mem_map.mp hus
    exact h.units_lt node (hnodes node hnode)
  have hdots : ∀ us ∈ dotUnits, ∀ u ∈ us, u < 2 ^ 16 := by decide
  have hlostUnits : ∀ u ∈ lostFoundUnits, u < 2 ^ 16 := by decide
  rw [Forest.NamesApart, Forest.NamesApart, Forest.top_append, Forest.directories_append,
    Forest.top_map, Forest.directories_map, List.append_nil]
  apply and_congr
  · have htop := fun node => Forest.mem_of_mem_top (t := forest) (a := node)
    rw [List.map_append, hnames forest.top htop, ← nodup_map_utf8_iff, List.map_append,
      List.map_append]
    · rfl
    · intro us hus
      rcases List.mem_append.mp hus with hin | hin
      · exact hdots us hin
      · rcases List.mem_append.mp hin with hin | hin
        · exact hunits forest.top htop us hin
        · rw [List.mem_singleton.mp hin]
          exact hlostUnits
  · have hdirectory : ∀ d ∈ forest.directories,
        ((dotUnits.map utf8 ++ (d.2.map (FatNode.view g env m)).top.map FileView.name).Nodup ↔
          (dotUnits ++ d.2.top.map fun node => node.entry.name.units).Nodup) := by
      intro d hd
      have htop := fun node => Forest.mem_of_mem_directories (a := node) hd
      rw [Forest.top_map, hnames d.2.top htop, ← nodup_map_utf8_iff, List.map_append]
      intro us hus
      rcases List.mem_append.mp hus with hin | hin
      · exact hdots us hin
      · exact hunits d.2.top htop us hin
    constructor
    · intro hall d hd
      exact (hdirectory d hd).mp
        (hall _ (List.mem_append_left _ (List.mem_map_of_mem hd)))
    · intro hall d hd
      rcases List.mem_append.mp hd with hin | hin
      · obtain ⟨e, he, rfl⟩ := List.mem_map.mp hin
        exact (hdirectory e he).mpr (hall e he)
      · rw [List.mem_singleton.mp hin]
        exact show (dotUnits.map utf8 ++ []).Nodup by decide

end Tree

end OfsConvert
