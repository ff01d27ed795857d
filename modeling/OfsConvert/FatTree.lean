import OfsConvert.Relocation

/-!
# The directory tree of a FAT volume

A directory table is the list of the 32-byte entries in the clusters of its chain. `nextChild` takes
one child from the entries that are neither deleted nor dot entries, as the walk in `traverse`
does; `Describes` says that a forest of files and directories is what the walk finds below a
table, every file and directory with its cluster chain.
-/

namespace OfsConvert

/-- A tree of named files and directories, in the order of the directory entries. -/
inductive Forest (α : Type) where
  | nil
  | file (a : α) (rest : Forest α)
  | dir (a : α) (children rest : Forest α)

namespace Forest

variable {α β : Type}

/-- The number of children of the directory that holds the forest. -/
def count : Forest α → ℕ
  | nil => 0
  | file _ rest => rest.count + 1
  | dir _ _ rest => rest.count + 1

/-- All files and directories, in the order of the walk. -/
def toList : Forest α → List α
  | nil => []
  | file a rest => a :: rest.toList
  | dir a children rest => a :: (children.toList ++ rest.toList)

/-- The children of the directory that holds the forest. -/
def top : Forest α → List α
  | nil => []
  | file a rest => a :: rest.top
  | dir a _ rest => a :: rest.top

/-- Every directory with its children, in the order of the walk. -/
def directories : Forest α → List (α × Forest α)
  | nil => []
  | file _ rest => rest.directories
  | dir a children rest => (a, children) :: (children.directories ++ rest.directories)

/-- As many nodes at the top as are counted. -/
theorem length_top (t : Forest α) : t.top.length = t.count := by
  induction t with
  | nil => rfl
  | file a rest ih => rw [top, count, List.length_cons, ih]
  | dir a children rest _ ih => rw [top, count, List.length_cons, ih]

/-- The children of one forest in front of those of another. -/
def append : Forest α → Forest α → Forest α
  | nil, other => other
  | file a rest, other => file a (rest.append other)
  | dir a children rest, other => dir a children (rest.append other)

/-- The nodes of two forests follow one another. -/
theorem toList_append (t t' : Forest α) : (t.append t').toList = t.toList ++ t'.toList := by
  induction t with
  | nil => rfl
  | file a rest ih => rw [append, toList, ih, toList, List.cons_append]
  | dir a children rest _ ih =>
    rw [append, toList, ih, toList, List.cons_append, List.append_assoc]

/-- The counts of two forests add up. -/
theorem count_append (t t' : Forest α) : (t.append t').count = t.count + t'.count := by
  induction t with
  | nil => rw [append, count, Nat.zero_add]
  | file a rest ih =>
    rw [append, count, ih, count]
    omega
  | dir a children rest _ ih =>
    rw [append, count, ih, count]
    omega

/-- Two forests of the same shape with related nodes. -/
inductive Rel (R : α → β → Prop) : Forest α → Forest β → Prop where
  | nil : Rel R nil nil
  | file {a : α} {b : β} {rest : Forest α} {rest' : Forest β} (hab : R a b)
      (hrest : Rel R rest rest') : Rel R (file a rest) (file b rest')
  | dir {a : α} {b : β} {children rest : Forest α} {children' rest' : Forest β} (hab : R a b)
      (hchildren : Rel R children children') (hrest : Rel R rest rest') :
      Rel R (dir a children rest) (dir b children' rest')

/-- Related forests count the same. -/
theorem Rel.count_eq {R : α → β → Prop} {t : Forest α} {t' : Forest β} (h : Rel R t t') :
    t.count = t'.count := by
  induction h with
  | nil => rfl
  | file _ _ ih => rw [count, count, ih]
  | dir _ _ _ _ ih => rw [count, count, ih]

/-- Related forests stay related when they are appended. -/
theorem Rel.append {R : α → β → Prop} {t u : Forest α} {t' u' : Forest β} (h : Rel R t t')
    (h' : Rel R u u') : Rel R (t.append u) (t'.append u') := by
  induction h with
  | nil => exact h'
  | file hab _ ih => exact Rel.file hab ih
  | dir hab hchildren _ _ ih => exact Rel.dir hab hchildren ih

/-- The nodes at the top of related forests are related. -/
theorem Rel.top {R : α → β → Prop} {t : Forest α} {t' : Forest β} (h : Rel R t t') :
    List.Forall₂ R t.top t'.top := by
  induction h with
  | nil => exact List.Forall₂.nil
  | file hab _ ih => exact List.Forall₂.cons hab ih
  | dir hab _ _ _ ih => exact List.Forall₂.cons hab ih

/-- The directories at the top of related forests are related, and what is in them. -/
theorem Rel.directories {R : α → β → Prop} {t : Forest α} {t' : Forest β} (h : Rel R t t') :
    List.Forall₂ (fun d e => R d.1 e.1 ∧ Rel R d.2 e.2) t.directories t'.directories := by
  induction h with
  | nil => exact List.Forall₂.nil
  | file _ _ ih => exact ih
  | dir hab hchildren _ ihc ihr =>
    exact List.Forall₂.cons ⟨hab, hchildren⟩ (List.rel_append ihc ihr)

/-- The nodes of related forests are related. -/
theorem Rel.toList {R : α → β → Prop} {t : Forest α} {t' : Forest β} (h : Rel R t t') :
    List.Forall₂ R t.toList t'.toList := by
  induction h with
  | nil => exact List.Forall₂.nil
  | file hab _ ih => exact List.Forall₂.cons hab ih
  | dir hab _ _ ihc ihr => exact List.Forall₂.cons hab (List.rel_append ihc ihr)

end Forest

/-- The addresses of the entries in a cluster of a directory. -/
def entryAddresses (g : Globals) (c : ℕ) : List ℕ :=
  (List.range g.metaInfo.dentriesPerCluster).map fun i =>
    clusterStart g.metaInfo c + sizeofFatDentry * i

/-- The entries in the clusters of a directory. -/
def tableOf (g : Globals) (m : Mem) (chain : List ℕ) : List FatDentry :=
  (chain.flatMap (entryAddresses g)).map (dentryAt m)

/-- An entry that `next_dentry` does not skip. -/
def isLive (d : FatDentry) : Bool := !(isInvalid d || isDotDir d)

/-- The entries that `next_dentry` returns. -/
def liveEntries (table : List FatDentry) : List FatDentry := table.filter isLive

/-- The 26 bytes that `lfn_cpy` takes from an entry. -/
def lfnUnits (d : FatDentry) : List UInt8 :=
  (d.drop 1).take 10 ++ (d.drop 14).take 12 ++ (d.drop 28).take 4

/-- A name as the walk finds it: the parts of a long name from the first to the last, or the
units of a short name. -/
inductive ChildName where
  | long (parts : List (List UInt8))
  | short (units : List ℕ)
  deriving DecidableEq, Repr

/-- A child of a directory: its own entry and its name. -/
structure ChildEntry where
  dentry : FatDentry
  name : ChildName
  deriving DecidableEq, Repr

/-- The walk over a directory stops here. -/
def tableEnds : List FatDentry → Bool
  | [] => true
  | d :: _ => isDirTableEnd d

/-- The next child of a directory, given the live entries that are left; none if the table ends
inside a long name. -/
def nextChild : List FatDentry → Option (ChildEntry × List FatDentry)
  | [] => none
  | d :: rest =>
    if isLfn d then
      match (d :: rest).drop (lfnEntrySequenceNo d) with
      | [] => none
      | dentry :: rest' =>
        some (⟨dentry, .long (((d :: rest).take (lfnEntrySequenceNo d)).reverse.map lfnUnits)⟩,
          rest')
    else some (⟨d, .short (shortNameUnits d)⟩, rest)

/-- A file or directory with its cluster chain. -/
structure FatNode where
  entry : ChildEntry
  chain : List ℕ

/-- The files and directories that the walk finds, given the live entries of a table. -/
def Describes (g : Globals) (m : Mem) : List FatDentry → Forest FatNode → Prop
  | entries, .nil => tableEnds entries = true
  | entries, .file node rest =>
    tableEnds entries = false ∧ isDir node.entry.dentry = false ∧
      IsChain g m (fileClusterNo node.entry.dentry) node.chain ∧
      ∃ entries', nextChild entries = some (node.entry, entries') ∧ Describes g m entries' rest
  | entries, .dir node children rest =>
    tableEnds entries = false ∧ isDir node.entry.dentry = true ∧
      IsChain g m (fileClusterNo node.entry.dentry) node.chain ∧
      Describes g m (liveEntries (tableOf g m node.chain)) children ∧
      ∃ entries', nextChild entries = some (node.entry, entries') ∧ Describes g m entries' rest

/-- A volume: the chain of the root directory and the forest below it, with pairwise disjoint
chains. -/
structure IsVolume (g : Globals) (m : Mem) (rootChain : List ℕ) (forest : Forest FatNode) :
    Prop where
  root : IsChain g m g.bootSector.rootClusterNo.toNat rootChain
  children : Describes g m (liveEntries (tableOf g m rootChain)) forest
  disjoint : (rootChain ++ forest.toList.flatMap FatNode.chain).Nodup

/-- What the stream records of a file or directory. -/
structure Record where
  dentry : List UInt8
  name : Segment
  extents : List FatExtent

/-- A recorded name: the parts of a long name, or one element that starts with the units of a
short name. -/
def ChildName.RecordedAs : ChildName → Segment → Prop
  | .long parts, segment => segment = parts
  | .short units, segment =>
    ∃ element, segment = [element] ∧ element.length = lfnEntryLength * 2 ∧
      units.flatMap (leBytes 2) <+: element

/-- The count that the stream holds for a file. -/
def dummyChildrenCount : List UInt8 := leBytes 4 0xFFFFFFFF

/-- The segments of the children of a directory. -/
def childSegments : Forest Record → List Segment
  | .nil => []
  | .file r rest =>
    [[r.dentry], r.name, r.extents.map fatExtentBytes, [dummyChildrenCount]] ++ childSegments rest
  | .dir r children rest =>
    [[r.dentry], r.name, r.extents.map fatExtentBytes] ++
      ([leBytes 4 (u32 children.count)] :: childSegments children) ++ childSegments rest

/-- The segments of two forests follow one another. -/
theorem childSegments_append (t t' : Forest Record) :
    childSegments (t.append t') = childSegments t ++ childSegments t' := by
  induction t with
  | nil => rfl
  | file r rest ih => rw [Forest.append, childSegments, ih, childSegments, List.append_assoc]
  | dir r children rest _ ih =>
    rw [Forest.append, childSegments, ih, childSegments]
    simp only [List.append_assoc]

/-- The segments of a directory: the number of its children, then the children. -/
def dirSegments (forest : Forest Record) : List Segment :=
  [leBytes 4 (u32 forest.count)] :: childSegments forest

end OfsConvert
