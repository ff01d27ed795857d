import OfsConvert.BuildStart
import OfsConvert.TreeBuilding

/-!
# From the reading phase to the building phase

What the reading phase leaves is what the second phase starts with: the stream can be read, the
records are sound, and every block of the stream and of the files is one that is not stored to.
-/

namespace OfsConvert

namespace Forest

/-- The extents of the files. -/
def fileExtents (records : Forest Record) : List FatExtent :=
  (records.toList.filter fun rec => !isDir rec.dentry).flatMap Record.extents

end Forest

/-- The blocks that the second phase keeps: those of the stream and of the files. -/
def keptBlocks (g : Globals) (pages : List ℕ) (records : Forest Record) : List ℕ :=
  clusterBlocks g (pages ++ physical records.fileExtents)

/-- The blocks of the extents that the second phase registers, those of the directories as far as
they are used. -/
def recordBlocks (g : Globals) (rootExtents : List FatExtent) (records : Forest Record) : List ℕ :=
  recordedBlocks g rootExtents ++ (recordedBlocks g records.extents ++ [])

/-- An entry of a directory as it is found in the table. -/
def ChildEntry.Sound (child : ChildEntry) : Prop :=
  child.dentry.length = sizeofFatDentry ∧ ∀ parts, child.name = .long parts →
    parts.length < 256 ∧ ∀ part ∈ parts, part.length = lfnEntryLength * 2

section Entries

variable {g : Globals} {m : Mem} {d : FatDentry} {entries rest : List FatDentry}
  {child : ChildEntry} {forest : Forest FatNode}

/-- A whole entry has 26 bytes of name. -/
theorem length_lfnUnits_of_entry (h : d.length = sizeofFatDentry) :
    (lfnUnits d).length = lfnEntryLength * 2 := by
  unfold sizeofFatDentry at h
  simp [lfnUnits, lfnEntryLength, h]

/-- Live entries are whole entries. -/
theorem liveEntries_length (chain : List ℕ) :
    ∀ d ∈ liveEntries (tableOf g m chain), d.length = sizeofFatDentry := by
  intro d hd
  obtain ⟨a, -, rfl⟩ := List.mem_map.mp (List.mem_of_mem_filter hd)
  exact Mem.length_read m a sizeofFatDentry

/-- The walk finds sound entries. -/
theorem nextChild_sound (h : nextChild entries = some (child, rest))
    (hentries : ∀ d ∈ entries, d.length = sizeofFatDentry) :
    child.Sound ∧ ∀ d ∈ rest, d.length = sizeofFatDentry := by
  cases entries with
  | nil => exact absurd h (by simp [nextChild])
  | cons d behind =>
    rw [nextChild] at h
    split at h
    · split at h
      · exact absurd h (by simp)
      · rename_i dentry rest' hdrop
        obtain ⟨rfl, rfl⟩ := Prod.mk.inj (Option.some.inj h)
        have hin : ∀ e ∈ dentry :: rest', e.length = sizeofFatDentry := fun e he =>
          hentries e (List.mem_of_mem_drop (hdrop ▸ he))
        refine ⟨⟨hin dentry List.mem_cons_self, fun parts hparts => ?_⟩,
          fun e he => hin e (List.mem_cons_of_mem dentry he)⟩
        obtain rfl := ChildName.long.inj hparts
        refine ⟨?_, fun part hpart => ?_⟩
        · have hbyte := (FatDentry.byte d 0 &&& 0x1F).toNat_lt
          rw [List.length_map, List.length_reverse]
          exact (List.length_take_le _ _).trans_lt hbyte
        · obtain ⟨e, he, rfl⟩ := List.mem_map.mp hpart
          exact length_lfnUnits_of_entry
            (hentries e (List.mem_of_mem_take (List.mem_reverse.mp he)))
    · obtain ⟨rfl, rfl⟩ := Prod.mk.inj (Option.some.inj h)
      exact ⟨⟨hentries d List.mem_cons_self, fun parts hparts => by cases hparts⟩,
        fun e he => hentries e (List.mem_cons_of_mem d he)⟩

/-- A recorded name is made of elements of the right size. -/
theorem ChildEntry.Sound.recorded (h : child.Sound) {name : Segment}
    (hname : child.name.RecordedAs name) :
    name.length < 256 ∧ ∀ e ∈ name, e.length = lfnEntryLength * 2 := by
  cases hchild : child.name with
  | long parts =>
    rw [hchild] at hname
    obtain rfl := hname
    exact h.2 _ hchild
  | short units =>
    rw [hchild] at hname
    obtain ⟨element, rfl, hlength, -⟩ := hname
    exact ⟨by simp, fun e he => by rw [List.mem_singleton.mp he, hlength]⟩

end Entries

section Records

variable {g : Globals} (hg : Accepted g) {m₀ m : Mem} {entries : List FatDentry}
  {forest : Forest FatNode} {records : Forest Record} {rec : Record} {node : FatNode}
  {es : List FatExtent} {chain pages : List ℕ} {k : ℕ}
include hg

omit hg in
/-- The clusters of extents that serve for a chain may be used. -/
theorem Relocated.clusters (h : Relocated g m₀ (metaExtents g) m k chain es) :
    ∀ c ∈ physical es, DataCluster g c ∧ ∀ b ∈ metaExtents g, c ∉ b.clusters := by
  intro c hc
  obtain ⟨_, -, hserves⟩ := forall₂_exists_left h.serves c hc
  exact ⟨hserves.dataCluster, hserves.unblocked⟩

/-- What is recorded for a sound entry is sound. -/
theorem Records.sound (h : Records g m₀ (metaExtents g) m node rec) (hsound : node.entry.Sound)
    (hlength : node.chain.length < 2 ^ 32) : rec.Sound := by
  obtain ⟨hcount, hname⟩ := hsound.recorded h.name
  have hle := h.extents.extents_le
  exact ⟨h.dentry ▸ hsound.1, hname, h.extents.typed hg hlength, by omega, by omega⟩

/-- The records of a described forest are sound. -/
theorem Describes.records_sound (h : Describes g m₀ entries forest)
    (hentries : ∀ d ∈ entries, d.length = sizeofFatDentry)
    (hrel : Forest.Rel (Records g m₀ (metaExtents g) m) forest records)
    (hlengths : ∀ node ∈ forest.toList, node.chain.length < 2 ^ 32) (hcounted : forest.Counted) :
    (∀ rec ∈ records.toList, rec.Sound) ∧ records.Kinds ∧ records.Counted := by
  induction hrel generalizing entries with
  | nil => exact ⟨List.forall_mem_nil _, trivial, trivial⟩
  | @file node rec rest rest' hrec hrest ih =>
    obtain ⟨-, hfile, -, behind, hnext, hdescribes⟩ := h
    obtain ⟨hsound, hbehind⟩ := nextChild_sound hnext hentries
    obtain ⟨hrecords, hkinds, hcounts⟩ := ih hdescribes hbehind
      (fun n hn => hlengths n (List.mem_cons_of_mem node hn)) hcounted
    refine ⟨fun r hr => ?_, ⟨hrec.dentry ▸ hfile, hkinds⟩, hcounts⟩
    rcases List.mem_cons.mp hr with rfl | hin
    · exact hrec.sound hg hsound (hlengths node List.mem_cons_self)
    · exact hrecords r hin
  | @dir node rec children rest children' rest' hrec hchildren hrest ihc ihr =>
    obtain ⟨-, hdir, -, hinner, behind, hnext, hdescribes⟩ := h
    obtain ⟨hsound, hbehind⟩ := nextChild_sound hnext hentries
    obtain ⟨hcount, hcounted', hcounted''⟩ := hcounted
    obtain ⟨hrecords, hkinds, hcounts⟩ := ihc hinner (liveEntries_length _)
      (fun n hn => hlengths n (List.mem_cons_of_mem node (List.mem_append_left _ hn))) hcounted'
    obtain ⟨hrecords', hkinds', hcounts'⟩ := ihr hdescribes hbehind
      (fun n hn => hlengths n (List.mem_cons_of_mem node (List.mem_append_right _ hn))) hcounted''
    refine ⟨fun r hr => ?_, ⟨hrec.dentry ▸ hdir, hkinds, hkinds'⟩,
      hchildren.count_eq ▸ hcount, hcounts, hcounts'⟩
    rcases List.mem_cons.mp hr with rfl | hin
    · exact hrec.sound hg hsound (hlengths node List.mem_cons_self)
    · rcases List.mem_append.mp hin with hin | hin
      · exact hrecords r hin
      · exact hrecords' r hin

end Records

section Volume

variable {g : Globals} (hg : Accepted g) {m₀ : Mem} {rootChain : List ℕ} {forest : Forest FatNode}
  {records : Forest Record} {r w : StreamArchiver} {pages : List ℕ} {rootExtents : List FatExtent}
  {t : State} {c : ℕ} {rec : Record}

/-- The extents of the files are those of the records that are no directories. -/
theorem Forest.mem_fileExtents {e : FatExtent} : e ∈ records.fileExtents ↔
    ∃ rec ∈ records.toList, isDir rec.dentry = false ∧ e ∈ rec.extents := by
  simp [Forest.fileExtents, and_assoc]

/-- A cluster of a file is a cluster of a record. -/
theorem Forest.mem_physical_fileExtents : c ∈ physical records.fileExtents ↔
    ∃ rec ∈ records.toList, isDir rec.dentry = false ∧ c ∈ physical rec.extents := by
  simp only [physical, List.mem_flatMap, Forest.mem_fileExtents]
  constructor
  · rintro ⟨e, ⟨rec, hrec, hfile, he⟩, hc⟩
    exact ⟨rec, hrec, hfile, e, he, hc⟩
  · rintro ⟨rec, hrec, hfile, e, he, hc⟩
    exact ⟨e, ⟨rec, hrec, hfile, he⟩, hc⟩

/-- The clusters of a forest are those of its records. -/
theorem Forest.mem_physical_extents : c ∈ physical records.extents ↔
    ∃ rec ∈ records.toList, c ∈ physical rec.extents := by
  simp only [physical, Forest.extents, List.mem_flatMap]
  constructor
  · rintro ⟨e, ⟨rec, hrec, he⟩, hc⟩
    exact ⟨rec, hrec, e, he, hc⟩
  · rintro ⟨rec, hrec, e, he, hc⟩
    exact ⟨e, ⟨rec, hrec, he⟩, hc⟩

/-- Every cluster of the stream and of the records is a usable one that is not free any more. -/
theorem VolumeRead.cluster
    (h : VolumeRead g m₀ rootChain forest r w pages rootExtents records t)
    (hc : c ∈ pages ++ physical (rootExtents ++ records.extents)) :
    DataCluster g c ∧ (∀ b ∈ metaExtents g, c ∉ b.clusters) ∧
      isFree t.allocationBitmap c = false := by
  rcases List.mem_append.mp hc with hpage | hrecord
  · have husable := h.writer.usable c hpage
    exact ⟨husable.dataCluster, husable.unblocked, h.writer.taken c hpage⟩
  · have hserved : DataCluster g c ∧ ∀ b ∈ metaExtents g, c ∉ b.clusters := by
      rw [physical_append] at hrecord
      rcases List.mem_append.mp hrecord with hroot | hchild
      · exact h.root.clusters c hroot
      · obtain ⟨rec, hrec, hin⟩ := Forest.mem_physical_extents.mp hchild
        obtain ⟨node, -, hrelated⟩ := forall₂_exists_left h.children.toList rec hrec
        exact hrelated.extents.clusters c hin
    refine ⟨hserved.1, hserved.2, ?_⟩
    by_cases hmoved : isFreeCluster (fatEntry g.metaInfo m₀ c) = true
    · exact h.moved c (List.mem_filter.mpr ⟨hrecord, hmoved⟩)
    · by_contra hfree
      exact hmoved (h.writer.alloc.free c hserved.1.2 (by simpa using hfree)).2

/-- The kept blocks are among those that the reading phase hands over. -/
theorem keptBlocks_subset : keptBlocks g pages records ⊆
    clusterBlocks g (pages ++ physical (rootExtents ++ records.extents)) := by
  intro b hb
  obtain ⟨c, hc, rfl⟩ := List.mem_map.mp hb
  refine List.mem_map_of_mem ?_
  rcases List.mem_append.mp hc with hpage | hfile
  · exact List.mem_append_left _ hpage
  · obtain ⟨rec, hrec, -, hin⟩ := Forest.mem_physical_fileExtents.mp hfile
    rw [physical_append]
    exact List.mem_append_right _ (List.mem_append_right _
      (Forest.mem_physical_extents.mpr ⟨rec, hrec, hin⟩))

/-- The recorded blocks are the blocks of the recorded clusters. -/
theorem recordBlocks_eq : recordBlocks g rootExtents records =
    clusterBlocks g (physical (rootExtents ++ records.extents)) := by
  rw [recordBlocks, List.append_nil, ← recordedBlocks_append]
  rfl

/-- Different data clusters have different blocks. -/
theorem nodup_clusterBlocks (hg : Accepted g) {clusters : List ℕ} (hnodup : clusters.Nodup)
    (hdata : ∀ c ∈ clusters, DataCluster g c) : (clusterBlocks g clusters).Nodup :=
  List.Nodup.map_on (fun c hc d hd h => hg.fatClToE4blk_inj (hdata c hc) (hdata d hd) h) hnodup

include hg

/-- The reading phase hands over the blocks of the stream and of the records. -/
theorem VolumeRead.handed
    (h : VolumeRead g m₀ rootChain forest r w pages rootExtents records t) (hfresh : t.ext4 = {}) :
    Handed g m₀ (keptBlocks g pages records) (recordBlocks g rootExtents records) t := by
  have hin : ∀ b ∈ keptBlocks g pages records ++ recordBlocks g rootExtents records,
      ∃ c ∈ pages ++ physical (rootExtents ++ records.extents),
        fatClToE4blk g.bootSector g.metaInfo c = b := by
    intro b hb
    rw [recordBlocks_eq] at hb
    rcases List.mem_append.mp hb with hkept | hrecord
    · exact List.mem_map.mp (keptBlocks_subset hkept)
    · obtain ⟨c, hc, hcb⟩ := List.mem_map.mp hrecord
      exact ⟨c, List.mem_append_right pages hc, hcb⟩
  refine ⟨h.writer.alloc, ?_, fun b hb => ?_, fun b hb => ?_, hfresh⟩
  · rw [recordBlocks_eq]
    exact nodup_clusterBlocks hg (List.nodup_append.mp h.owned).2.1 fun c hc =>
      (h.cluster (List.mem_append_right pages hc)).1
  · obtain ⟨c, hc, rfl⟩ := hin b hb
    obtain ⟨hdata, hunblocked, -⟩ := h.cluster hc
    exact hg.dataBlock_of_cluster hdata hunblocked
  · obtain ⟨c, hc, rfl⟩ := hin b hb
    obtain ⟨hdata, -, htaken⟩ := h.cluster hc
    rwa [BlockTaken, hg.e4blkToFatCl_fatClToE4blk hdata]

/-- The clusters of a directory are neither pages nor clusters of files. -/
theorem VolumeRead.directory_not_kept
    (h : VolumeRead g m₀ rootChain forest r w pages rootExtents records t)
    (hc : c ∈ physical rootExtents ∨
      ∃ rec ∈ records.toList, isDir rec.dentry = true ∧ c ∈ physical rec.extents) :
    fatClToE4blk g.bootSector g.metaInfo c ∉ keptBlocks g pages records := by
  have howned := h.owned
  rw [physical_append] at howned
  obtain ⟨-, hrecords, hpages⟩ := List.nodup_append'.mp howned
  obtain ⟨-, hchildren, hroot⟩ := List.nodup_append'.mp hrecords
  have hpairs : records.toList.Pairwise fun rec rec' =>
      List.Disjoint (physical rec.extents) (physical rec'.extents) := by
    rw [Forest.extents, physical, List.flatMap_assoc] at hchildren
    exact (List.nodup_flatMap.mp hchildren).2
  have hin : c ∈ physical rootExtents ++ physical records.extents := by
    rcases hc with hc | ⟨rec, hrec, -, hc⟩
    · exact List.mem_append_left _ hc
    · exact List.mem_append_right _ (Forest.mem_physical_extents.mpr ⟨rec, hrec, hc⟩)
  intro hkept
  obtain ⟨d, hd, hdc⟩ := List.mem_map.mp hkept
  have hdata : ∀ x ∈ pages ++ physical (rootExtents ++ records.extents), DataCluster g x :=
    fun x hx => (h.cluster hx).1
  rw [physical_append] at hdata
  rcases List.mem_append.mp hd with hpage | hfile
  · obtain rfl := hg.fatClToE4blk_inj (hdata d (List.mem_append_left _ hpage))
      (hdata c (List.mem_append_right _ hin)) hdc
    exact hpages hpage hin
  · obtain ⟨file, hfile, hkind, hd⟩ := Forest.mem_physical_fileExtents.mp hfile
    have hd' := Forest.mem_physical_extents.mpr ⟨file, hfile, hd⟩
    obtain rfl := hg.fatClToE4blk_inj
      (hdata d (List.mem_append_right _ (List.mem_append_right _ hd')))
      (hdata c (List.mem_append_right _ hin)) hdc
    rcases hc with hc | ⟨rec, hrec, hkind', hc⟩
    · exact hroot hc hd'
    · have hne : file ≠ rec := fun heq => by
        rw [heq, hkind'] at hkind
        cases hkind
      have hsymm : Std.Symm fun rec rec' : Record =>
          List.Disjoint (physical rec.extents) (physical rec'.extents) :=
        ⟨fun _ _ h => h.symm⟩
      exact hpairs.forall hfile hrec hne hd hc

/-- The records fit the second phase. -/
theorem VolumeRead.fits
    (h : VolumeRead g m₀ rootChain forest r w pages rootExtents records t)
    (hv : IsVolume g m₀ rootChain forest) (hcounted : forest.Counted) :
    ForestFits g (keptBlocks g pages records) records := by
  obtain ⟨hsound, hkinds, hcounts⟩ := hv.children.records_sound hg (liveEntries_length rootChain)
    h.children (hv.length_lt hg).2 hcounted
  refine ⟨fun rec hrec => ⟨hsound rec hrec, fun c hc => ?_, fun hdir c hc => ?_⟩, hkinds, hcounts⟩
  · have hin := Forest.mem_physical_extents.mpr ⟨rec, hrec, hc⟩
    refine (h.cluster (List.mem_append_right _ ?_)).1
    rw [physical_append]
    exact List.mem_append_right _ hin
  · exact h.directory_not_kept hg (Or.inr ⟨rec, hrec, hdir, hc⟩)

/-- As long as the kept blocks are, the stream can be read. -/
theorem VolumeRead.samePages
    (h : VolumeRead g m₀ rootChain forest r w pages rootExtents records t) {m : Mem}
    (hm : AgreesOn g (keptBlocks g pages records) t.mem m) : SamePages g pages t.mem m := by
  intro c hc a ha
  have hdata := (h.cluster (List.mem_append_left _ hc)).1
  exact hm _ (List.mem_map_of_mem (List.mem_append_left _ hc)) a
    ((hg.inBlock_iff_inCluster hdata).mpr ha)

/-- The reader stands in front of the record of the root directory. -/
theorem VolumeRead.reads
    (h : VolumeRead g m₀ rootChain forest r w pages rootExtents records t)
    (hv : IsVolume g m₀ rootChain forest) (hcounted : forest.Counted) :
    ∃ r', ReadsDirectory g (keptBlocks g pages records) t.mem rootExtents records r r' := by
  have hF := fun m => h.samePages hg (m := m)
  have hlength := (hv.length_lt hg).1
  have hle := h.root.extents_le
  have hstands : Stands g pages t.mem ⟨0, sizeofPage⟩
      (rootExtents.map fatExtentBytes :: (dirSegments records ++ [])) r := by
    rw [List.append_nil]
    exact ⟨h.holds, ⟨le_rfl, hg.area.room⟩, h.writer.head_index_lt, h.reader⟩
  obtain ⟨_, r', hreads, -⟩ := Stands.readDirectory hg h.stream hF hstands
    (h.root.typed hg hlength) (by omega) fun hchildren =>
      Stands.readChildren hg h.stream hF (fun rec hrec =>
        ((h.fits hg hv hcounted).records rec hrec).sound) hchildren
  exact ⟨r', hreads⟩

end Volume

end OfsConvert
