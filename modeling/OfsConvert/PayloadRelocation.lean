import OfsConvert.Traversal
import OfsConvert.MetaExtents

/-!
# The outcome of the reading phase

When the reading phase returns, the stream holds the whole volume: the extents recorded for every
file and directory serve for its chain, and neither they nor the pages of the stream share a
cluster.
-/

namespace OfsConvert

/-- What the reading phase leaves behind when it returns. -/
structure VolumeRead (g : Globals) (m₀ : Mem) (rootChain : List ℕ) (forest : Forest FatNode)
    (readStream writeStream : StreamArchiver) (pages : List ℕ) (rootExtents : List FatExtent)
    (records : Forest Record) (t : State) : Prop where
  writer : Writer g m₀ (metaExtents g) pages (headAfter (pageSize g) ⟨0, sizeofPage⟩
    (rootExtents.map fatExtentBytes :: dirSegments records)) writeStream t
  fresh : Fresh pages (headAfter (pageSize g) ⟨0, sizeofPage⟩
    (rootExtents.map fatExtentBytes :: dirSegments records)) writeStream
  reader : Reader g pages ⟨0, sizeofPage⟩ ⟨0, sizeofPage + sizeofHeader⟩ 0 readStream
  stream : StreamAt g pages t.mem
  holds : HoldsSegments g pages t.mem ⟨0, sizeofPage⟩
    (rootExtents.map fatExtentBytes :: dirSegments records)
  root : Relocated g m₀ (metaExtents g) t.mem 0 rootChain rootExtents
  children : Forest.Rel (Records g m₀ (metaExtents g) t.mem) forest records
  owned : (pages ++ physical (rootExtents ++ records.extents)).Nodup
  moved : ∀ c ∈ movedTo g m₀ (rootExtents ++ records.extents), isFree t.allocationBitmap c = false

section

variable {g : Globals} {m₀ m : Mem} {blocked : List FatExtent}

/-- Distinct clusters are at most as many as the data area has. -/
theorem Accepted.length_lt (hg : Accepted g) {clusters : List ℕ} (hnodup : clusters.Nodup)
    (hdata : ∀ c ∈ clusters, DataCluster g c) : clusters.length < 2 ^ 32 := by
  have hcount := hg.dataClusterCount_le
  have hsubset : clusters ⊆ List.range (dataClusterCount g.bootSector g.metaInfo) :=
    fun c hc => List.mem_range.mpr (hdata c hc).2
  have hle := (List.subperm_of_subset hnodup hsubset).length_le
  rw [List.length_range] at hle
  omega

/-- Every file and directory that the walk finds has the chain that its entry names. -/
theorem Describes.isChain {entries : List FatDentry} {forest : Forest FatNode}
    (h : Describes g m entries forest) :
    ∀ node ∈ forest.toList, IsChain g m (fileClusterNo node.entry.dentry) node.chain := by
  induction forest generalizing entries with
  | nil => exact fun node hnode => absurd hnode List.not_mem_nil
  | file node rest ih =>
    obtain ⟨-, -, hchain, behind, -, hrest⟩ := h
    intro n hn
    rcases List.mem_cons.mp hn with rfl | hmem
    · exact hchain
    · exact ih hrest n hmem
  | dir node children rest ihc ihr =>
    obtain ⟨-, -, hchain, hchildren, behind, -, hrest⟩ := h
    intro n hn
    rcases List.mem_cons.mp hn with rfl | hmem
    · exact hchain
    · rcases List.mem_append.mp hmem with hin | hin
      · exact ihc hchildren n hin
      · exact ihr hrest n hin

/-- Every directory is described by its own table. -/
theorem Describes.directories {entries : List FatDentry} {forest : Forest FatNode}
    (h : Describes g m entries forest) :
    ∀ d ∈ forest.directories, Describes g m (liveEntries (tableOf g m d.1.chain)) d.2 := by
  induction forest generalizing entries with
  | nil => exact fun d hd => absurd hd List.not_mem_nil
  | file node rest ih =>
    obtain ⟨-, -, -, behind, -, hrest⟩ := h
    exact ih hrest
  | dir node children rest ihc ihr =>
    obtain ⟨-, -, -, hchildren, behind, -, hrest⟩ := h
    intro d hd
    rcases List.mem_cons.mp hd with rfl | hmem
    · exact hchildren
    · rcases List.mem_append.mp hmem with hin | hin
      · exact ihc hchildren d hin
      · exact ihr hrest d hin

/-- No chain has 2^32 clusters. -/
theorem IsVolume.length_lt (hg : Accepted g) {rootChain : List ℕ} {forest : Forest FatNode}
    (hv : IsVolume g m rootChain forest) :
    rootChain.length < 2 ^ 32 ∧ ∀ node ∈ forest.toList, node.chain.length < 2 ^ 32 := by
  obtain ⟨hroot, hchains, -⟩ := List.nodup_append.mp hv.disjoint
  refine ⟨hg.length_lt hroot hv.root.dataCluster, fun node hnode => ?_⟩
  exact hg.length_lt ((List.nodup_flatMap.mp hchains).1 node hnode)
    (hv.children.isChain node hnode).dataCluster

/-- Pages, relocated clusters and clusters in place are distinct. -/
theorem Writer.owned {pages : List ℕ} {head : Pos} {w : StreamArchiver} {s t : State}
    (hw : Writer g m₀ blocked pages head w t) {first : ℕ} {es : List FatExtent} {chain : List ℕ}
    (hpre : [first] <+: pages) (hfirst : isFree s.allocationBitmap first = false)
    (howns : Owns s t (newPages [first] pages ++ movedTo g m₀ es))
    (hinPlace : (inPlace g m₀ es).Sublist chain) (hchain : chain.Nodup) :
    (pages ++ physical es).Nodup := by
  have hsplit : (physical es).Perm (movedTo g m₀ es ++ inPlace g m₀ es) :=
    (List.filter_append_perm _ _).symm
  have hpages : pages = first :: newPages [first] pages := by
    obtain ⟨rest, rfl⟩ := hpre
    simp [newPages]
  have hnew : (pages ++ movedTo g m₀ es).Nodup := by
    rw [hpages, List.cons_append, List.nodup_cons]
    refine ⟨fun hmem => ?_, howns.nodup⟩
    have hfree := howns.fresh first hmem
    rw [hfirst] at hfree
    exact absurd hfree (by decide)
  rw [(hsplit.append_left pages).nodup_iff, ← List.append_assoc, List.nodup_append]
  refine ⟨hnew, hinPlace.nodup hchain, ?_⟩
  -- pages and relocated clusters are free in the FAT, clusters in place are not
  intro c hc d hd hcd
  subst hcd
  have hused := (List.mem_filter.mp hd).2
  have hfree : isFreeCluster (fatEntry g.metaInfo m₀ c) = true := by
    rcases List.mem_append.mp hc with hpage | hmoved
    · exact (hw.usable c hpage).free
    · exact (List.mem_filter.mp hmoved).2
  rw [hfree] at hused
  exact absurd hused (by decide)

/-- A reading phase that returns has read the volume into the stream. -/
theorem readingPhase_spec (hg : Accepted g) {s : State} (hs : s.stores = []) {rootChain : List ℕ}
    {forest : Forest FatNode} (hv : IsVolume g s.mem rootChain forest) (fuel : ℕ) :
    wp (readingPhase g fuel)
      (fun x t => t.ext4 = s.ext4 ∧ ∃ pages rootExtents records,
        VolumeRead g s.mem rootChain forest x.1 x.2 pages rootExtents records t)
      NoFault s := by
  have hb := hg.blockedExtents
  have hshort := hg.shortBlocked
  obtain ⟨hrootLength, hlengths⟩ := hv.length_lt hg
  simp only [readingPhase, hg.createBlockGroupMetaExtents_eq, wp_bind, wp_liftExcept_ok, wp_pure]
  rw [← length_metaExtents]
  refine wp_mono (initExtentAllocator_spec s hb) ?_ (fun _ _ h => h.elim)
  intro _ s₀ hs₀
  obtain ⟨hinv, honly, -⟩ := hs₀
  refine wp_mono (initStreamArchiver_spec hg hb fuel hinv
    ((Intact.initial hs).of_allocOnly honly)) ?_ (fun _ _ h => h.1)
  intro w s₁ hs₁
  obtain ⟨first, hw, hpos, hindex, hext4⟩ := hs₁
  have hf : Fresh [first] ⟨0, sizeofPage⟩ w := ⟨hpos, hindex⟩
  refine wp_mono_ok (aggregateExtents_spec hg hb hshort hw hf openCells_empty fuel hv.root.usedChain
    hrootLength) ?_
  intro w₂ s₂ hs₂
  obtain ⟨pages₂, rootExtents, hwrote, hgained⟩ := hs₂
  have hreader := (hf.reader hw).extend hwrote.pre hw.head_index_lt hw.head_index_lt
  refine wp_mono_ok (traverse_spec hg hb hshort fuel hwrote.writer hwrote.fresh openCells_empty
    (hwrote.dirAt hg openCells_empty hgained.relocated hrootLength) hreader hv.children hlengths) ?_
  intro w₃ t ht
  obtain ⟨pages, records, hwrote', hrecorded⟩ := ht
  have hall := hwrote.append hwrote'
  have howns := Owns.append_moved hgained.ext hrecorded.ext hgained.pre hrecorded.pre hgained.owns
    hrecorded.owns
  refine ⟨?_, pages, rootExtents, records, hall.writer, hall.fresh, ?_,
    (hall.writer.links_stable hg openCells_empty).now, hall.holds.now,
    (hgained.relocated.later hrecorded.ext).now, hrecorded.related.now, ?_,
    fun c hc => howns.taken c (List.mem_append_right _ hc)⟩
  · rw [hall.ext.ext4, hext4, honly.ext4]
  · exact (hf.reader hw).extend hall.pre hw.head_index_lt hw.head_index_lt
  · refine hall.writer.owned hall.pre (hw.taken first (by simp)) howns ?_ hv.disjoint
    rw [inPlace_append]
    exact hgained.inPlace.append hrecorded.inPlace

end

/-- The files and directories of the small volume. -/
def sampleForest : Forest FatNode :=
  .dir ⟨⟨subEntry, .short (shortNameUnits subEntry)⟩, [3]⟩
    (.file ⟨⟨innerEntry, .short (shortNameUnits innerEntry)⟩, [62]⟩ .nil)
    (.file ⟨⟨sampleEntry, .short (shortNameUnits sampleEntry)⟩, [4, 60, 61]⟩ .nil)

/-- The nested volume has the nested forest. -/
theorem isVolume_sample : IsVolume (sampleGlobals 400) sampleVolume [2] sampleForest := by
  have hroot : liveEntries (tableOf (sampleGlobals 400) sampleVolume [2]) =
      subEntry :: sampleEntry :: List.replicate 29 (List.replicate 32 0) := by decide +kernel
  have hsub : liveEntries (tableOf (sampleGlobals 400) sampleVolume [3]) =
      innerEntry :: List.replicate 29 (List.replicate 32 0) := by decide +kernel
  have hend : Describes (sampleGlobals 400) sampleVolume
      (List.replicate 29 (List.replicate 32 0)) .nil := show tableEnds _ = true by decide
  -- the last cluster of a chain
  have hlast : ∀ {value c : ℕ}, value = c → DataCluster (sampleGlobals 400) c →
      fatEntry (sampleGlobals 400).metaInfo sampleVolume c = 0x0FFFFFFF →
      ChainFrom (sampleGlobals 400) sampleVolume value [c] := by
    intro value c hvalue hc hentry
    have hlt := hc.2
    change c < 120 at hlt
    refine ⟨hvalue, hc, ?_, ?_, ?_⟩
    · unfold fatEndOfChain
      omega
    · rw [hentry]
      decide
    · rw [hentry]
      exact (show fatEndOfChain ≤ 0x0FFFFFFF by decide)
  refine ⟨Or.inr ⟨by simp, hlast rfl (by decide) (by decide +kernel)⟩, ?_, by decide⟩
  rw [hroot]
  refine ⟨by decide, by decide, Or.inr ⟨by simp, hlast (by decide) (by decide) (by decide +kernel)⟩,
    ?_, _, rfl, by decide, by decide, Or.inr ⟨by simp, by decide, by decide, by decide,
      by decide +kernel, by decide +kernel, by decide, by decide, by decide +kernel,
      hlast (by decide +kernel) (by decide) (by decide +kernel)⟩, _, rfl, hend⟩
  change Describes _ _ (liveEntries (tableOf (sampleGlobals 400) sampleVolume [3])) _
  rw [hsub]
  exact ⟨by decide, by decide, Or.inr ⟨by simp, hlast (by decide) (by decide) (by decide +kernel)⟩,
    _, rfl, hend⟩

end OfsConvert
