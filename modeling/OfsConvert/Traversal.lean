import OfsConvert.NameReading

/-!
# The walk over the directories

`traverse` writes the segments of a directory and those of everything below it. The bytes of the
child count are reserved first and counted up after every child; the recursive calls do not
touch them, since a call fills in only what it reserved itself.
-/

namespace OfsConvert

/-- A recorded child: its own entry, its name, and extents that serve for its chain. -/
structure Records (g : Globals) (m₀ : Mem) (blocked : List FatExtent) (m : Mem) (node : FatNode)
    (r : Record) : Prop where
  dentry : r.dentry = node.entry.dentry
  name : node.entry.name.RecordedAs r.name
  extents : Relocated g m₀ blocked m 0 node.chain r.extents

namespace Forest

/-- The clusters of all files and directories. -/
def chains (forest : Forest FatNode) : List ℕ := forest.toList.flatMap FatNode.chain

/-- The extents recorded for all files and directories. -/
def extents (forest : Forest Record) : List FatExtent := forest.toList.flatMap Record.extents

/-- The chains of two forests follow one another. -/
theorem chains_append (t t' : Forest FatNode) : (t.append t').chains = t.chains ++ t'.chains := by
  rw [chains, toList_append, List.flatMap_append]
  rfl

/-- The extents of two forests follow one another. -/
theorem extents_append (t t' : Forest Record) : (t.append t').extents = t.extents ++ t'.extents := by
  rw [extents, toList_append, List.flatMap_append]
  rfl

end Forest

/-- What a part of the run did for some children. -/
structure Recorded (g : Globals) (m₀ : Mem) (blocked : List FatExtent) (X : Set ℕ)
    (pages : List ℕ) (w : StreamArchiver) (s : State) (forest : Forest FatNode)
    (records : Forest Record) (pages' : List ℕ) (w' : StreamArchiver) (t : State) : Prop where
  pre : pages <+: pages'
  ext : Extends g X w s w' t
  related : Stable g X w' t fun m => Forest.Rel (Records g m₀ blocked m) forest records
  inPlace : (inPlace g m₀ records.extents).Sublist forest.chains
  owns : Owns s t (newPages pages pages' ++ movedTo g m₀ records.extents)

/-- A forest with one child. -/
inductive Child (g : Globals) (m : Mem) (node : FatNode) : Forest FatNode → Prop where
  | file (hfile : isDir node.entry.dentry = false) : Child g m node (.file node .nil)
  | dir {children : Forest FatNode} (hdir : isDir node.entry.dentry = true)
      (hchildren : Describes g m (liveEntries (tableOf g m node.chain)) children) :
      Child g m node (.dir node children .nil)

/-- A call that records the children of the directory whose extents it is given. -/
def RecordsDirectory (g : Globals) (m₀ : Mem) (blocked : List FatExtent)
    (descend : StreamArchiver → StreamArchiver → Prog StreamArchiver) : Prop :=
  ∀ {X : Set ℕ} {pages dirPages : List ℕ} {head dirHead : Pos} {w r : StreamArchiver} {s : State}
    {es : List FatExtent} {chain : List ℕ} {forest : Forest FatNode},
    Writer g m₀ blocked pages head w s → Fresh pages head w → OpenCells g pages X w s →
    Stable g X w s (DirAt g dirPages dirHead es (tableOf g m₀ chain)) →
    Reader g dirPages dirHead (dirHead.after sizeofHeader) 0 r →
    Describes g m₀ (liveEntries (tableOf g m₀ chain)) forest →
    (∀ node ∈ forest.toList, node.chain.length < 2 ^ 32) →
    wp (descend r w)
      (fun w' t => ∃ pages' records,
        Wrote g m₀ blocked X pages head w s (dirSegments records) pages' w' t ∧
        Recorded g m₀ blocked X pages w s forest records pages' w' t)
      NoFault s

section

variable {g : Globals} {m₀ : Mem} {blocked : List FatExtent} {X D : Set ℕ}
  {pages pages' pages'' : List ℕ} {head : Pos} {w w' w'' : StreamArchiver} {s t u : State}
  {forest forest' : Forest FatNode} {records records' : Forest Record}

/-- Nothing is recorded for no children. -/
theorem Recorded.nil (g : Globals) (m₀ : Mem) (blocked : List FatExtent) (X : Set ℕ)
    (pages : List ℕ) (w : StreamArchiver) (s : State) :
    Recorded g m₀ blocked X pages w s .nil .nil pages w s := by
  refine ⟨List.prefix_refl _, Extends.refl g X w s, fun _ _ _ => Forest.Rel.nil,
    List.Sublist.refl _, ?_⟩
  rw [newPages_self]
  exact Owns.nil s s

/-- Children recorded one after the other. -/
theorem Recorded.append (h : Recorded g m₀ blocked X pages w s forest records pages' w' t)
    (h' : Recorded g m₀ blocked X pages' w' t forest' records' pages'' w'' u) :
    Recorded g m₀ blocked X pages w s (forest.append forest') (records.append records') pages'' w''
      u := by
  refine ⟨h.pre.trans h'.pre, h.ext.trans h'.ext, ?_, ?_, ?_⟩
  · exact ((h.related.later h'.ext).and h'.related).imp fun m hm => hm.1.append hm.2
  · rw [Forest.extents_append, Forest.chains_append, inPlace_append]
    exact h.inPlace.append h'.inPlace
  · rw [Forest.extents_append]
    exact Owns.append_moved h.ext h'.ext h.pre h'.pre h.owns h'.owns

/-- Segments that record no extents. -/
theorem Wrote.recorded {xs : List Segment}
    (h : Wrote g m₀ blocked X pages head w s xs pages' w' t) :
    Recorded g m₀ blocked X pages w s .nil .nil pages' w' t := by
  refine ⟨h.pre, h.ext, fun _ _ _ => Forest.Rel.nil, List.Sublist.refl _, ?_⟩
  have howns := h.owns
  rwa [← List.append_nil (newPages pages pages')] at howns

/-- A store records nothing. -/
theorem Recorded.of_extends (hext : Extends g X w s w' t) :
    Recorded g m₀ blocked X pages w s .nil .nil pages w' t := by
  refine ⟨List.prefix_refl _, hext, fun _ _ _ => Forest.Rel.nil, List.Sublist.refl _, ?_⟩
  rw [newPages_self]
  exact Owns.nil s t

/-- A file whose extents are recorded. -/
theorem Gained.recorded_file {node : FatNode} {r : Record}
    (h : Gained g m₀ blocked X pages w s 0 node.chain r.extents pages' w' t)
    (hdentry : r.dentry = node.entry.dentry) (hname : node.entry.name.RecordedAs r.name) :
    Recorded g m₀ blocked X pages w s (.file node .nil) (.file r .nil) pages' w' t := by
  have hextents : (Forest.file r .nil).extents = r.extents := List.append_nil _
  have hchains : (Forest.file node .nil).chains = node.chain := List.append_nil _
  refine ⟨h.pre, h.ext, ?_, ?_, ?_⟩
  · exact h.relocated.imp fun m hm => Forest.Rel.file ⟨hdentry, hname, hm⟩ Forest.Rel.nil
  · rw [hextents, hchains]
    exact h.inPlace
  · rw [hextents]
    exact h.owns

/-- A directory whose extents and children are recorded. -/
theorem Gained.recorded_dir {node : FatNode} {r : Record}
    (h : Gained g m₀ blocked X pages w s 0 node.chain r.extents pages' w' t)
    (hdentry : r.dentry = node.entry.dentry) (hname : node.entry.name.RecordedAs r.name)
    (h' : Recorded g m₀ blocked X pages' w' t forest records pages'' w'' u) :
    Recorded g m₀ blocked X pages w s (.dir node forest .nil) (.dir r records .nil) pages'' w''
      u := by
  have hextents : (Forest.dir r records .nil).extents = r.extents ++ records.extents := by
    simp [Forest.extents, Forest.toList]
  have hchains : (Forest.dir node forest .nil).chains = node.chain ++ forest.chains := by
    simp [Forest.chains, Forest.toList]
  refine ⟨h.pre.trans h'.pre, h.ext.trans h'.ext, ?_, ?_, ?_⟩
  · exact ((h.relocated.later h'.ext).and h'.related).imp fun m hm =>
      Forest.Rel.dir ⟨hdentry, hname, hm.1⟩ hm.2 Forest.Rel.nil
  · rw [hextents, hchains, inPlace_append]
    exact h.inPlace.append h'.inPlace
  · rw [hextents]
    exact Owns.append_moved h.ext h'.ext h.pre h'.pre h.owns h'.owns

/-- Bytes that were not settled at the start need not be named. -/
theorem Recorded.shrink (h : Recorded g m₀ blocked (X ∪ D) pages w s forest records pages' w' t)
    (hd : ∀ a ∈ D, ¬ Settled g w s a) :
    Recorded g m₀ blocked X pages w s forest records pages' w' t :=
  ⟨h.pre, h.ext.shrink hd, h.related.mono Set.subset_union_left, h.inPlace, h.owns⟩

/-- The links of the pages stay. -/
theorem Writer.links_stable (hg : Accepted g) (hw : Writer g m₀ blocked pages head w s)
    (hx : OpenCells g pages X w s) : Stable g X w s (StreamAt g pages) := by
  have hlower := hw.lower
  have hupper := hw.upper
  have hlink : ∀ {i a : ℕ}, i + 1 < pages.length →
      clusterStart g.metaInfo (pages.getD i 0) ≤ a →
      a < clusterStart g.metaInfo (pages.getD i 0) + sizeofPage → Settled g w s a ∧ a ∉ X := by
    intro i a hi hlow hhigh
    have hmem := hw.getD_mem (i := i) (by omega)
    have hcluster := (hw.usable _ hmem).dataCluster
    have hin : InCluster g (pages.getD i 0) a := by
      unfold pageSize at hupper
      exact ⟨hlow, by omega⟩
    refine ⟨⟨Or.inr ⟨_, hcluster, hw.taken _ hmem, hin⟩, ?_⟩, fun hax => ?_⟩
    · have hlast : ¬ (w.page ≤ a ∧ a < w.page + pageSize g) := by
        intro hpage
        rw [hw.page] at hpage
        have hmem' := hw.getD_mem (i := pages.length - 1) (Nat.sub_lt hw.length_pos Nat.one_pos)
        have heq := hw.getD_inj (by omega) (Nat.sub_lt hw.length_pos Nat.one_pos)
          (hg.area.inCluster_unique hcluster (hw.usable _ hmem').dataCluster hin hpage)
        omega
      rintro (hpage | htail | hheader)
      · exact hlast (by omega)
      · exact hlast (by omega)
      · rw [hw.header] at hheader
        exact hw.slot_links hg (hw.slot hw.head_index_lt hw.headFits) hmem hheader.1 hheader.2
          ⟨hlow, hhigh⟩
    · exact hw.slot_links hg (hx a hax).2 hmem le_rfl (Nat.lt_succ_self a) ⟨hlow, hhigh⟩
  refine Stable.intro (B := {a | ∃ i, i + 1 < pages.length ∧
    clusterStart g.metaInfo (pages.getD i 0) ≤ a ∧
    a < clusterStart g.metaInfo (pages.getD i 0) + sizeofPage}) ?_ ?_
  · intro a ha
    obtain ⟨i, hi, hlow, hhigh⟩ := ha
    exact hlink hi hlow hhigh
  · intro m hm
    refine ⟨fun c hc => (hw.usable c hc).dataCluster, fun i hi => ?_⟩
    rw [← hw.links i hi]
    exact Mem.readLE_congr fun j hj =>
      hm _ ⟨i, hi, Nat.le_add_right _ _, Nat.add_lt_add_left hj _⟩

/-- Clusters that serve for a chain hold its table. -/
theorem tableOf_eq (hg : Accepted g) {m : Mem} {chain clusters : List ℕ}
    (h : List.Forall₂ (Serves g m₀ blocked m) chain clusters) :
    tableOf g m clusters = tableOf g m₀ chain := by
  induction h with
  | nil => rfl
  | @cons c p chain clusters hserves _ ih =>
    have hentries : (entryAddresses g p).map (dentryAt m) =
        (entryAddresses g c).map (dentryAt m₀) := by
      rw [entryAddresses, entryAddresses, List.map_map, List.map_map]
      refine List.map_congr_left fun i hi => ?_
      have hinside := hg.entry_inside (List.mem_range.mp hi)
      simp only [Function.comp_apply, dentryAt, Mem.read]
      refine List.map_congr_left fun j hj => ?_
      have hbyte : j < sizeofFatDentry := List.mem_range.mp hj
      rw [Nat.add_assoc, Nat.add_assoc]
      exact hserves.content _ (by omega)
    rw [tableOf, tableOf, List.flatMap_cons, List.flatMap_cons, List.map_append, List.map_append,
      hentries]
    exact congrArg _ ih

/-- Extents that serve for a chain fit into the structure. -/
theorem Relocated.typed (hg : Accepted g) {m : Mem} {chain : List ℕ} {es : List FatExtent}
    (h : Relocated g m₀ blocked m 0 chain es) (hlength : chain.length < 2 ^ 32) :
    ∀ e ∈ es, e.Typed := by
  intro e he
  have hlengths := h.lengths e he
  have hle := h.logical.le e he
  rw [h.length_eq] at hle
  have hbound : ext4MaxInitExtentLen = 32768 := rfl
  have hcount := hg.dataClusterCount_le
  have hmem : e.stop - 1 ∈ physical es := by
    refine List.mem_flatMap.mpr ⟨e, he, ?_⟩
    rw [FatExtent.mem_clusters]
    unfold FatExtent.stop
    omega
  obtain ⟨_, -, hserves⟩ := forall₂_exists_left h.serves _ hmem
  have hlast := hserves.dataCluster.2
  exact ⟨by omega, by omega, by omega, hlengths.1⟩

/-- The segment of a directory's extents, with the entries they lead to. -/
theorem Wrote.dirAt (hg : Accepted g) {es : List FatExtent} {chain : List ℕ}
    (h : Wrote g m₀ blocked X pages head w s [es.map fatExtentBytes] pages' w' t)
    (hx : OpenCells g pages' X w' t)
    (hrelocated : Stable g X w' t fun m => Relocated g m₀ blocked m 0 chain es)
    (hlength : chain.length < 2 ^ 32) :
    Stable g X w' t (DirAt g pages' head es (tableOf g m₀ chain)) := by
  have hcount := hrelocated.now.extents_le
  have htyped := hrelocated.now.typed hg hlength
  have hindex := h.writer.head_index_lt
  refine ((h.writer.links_stable hg hx).and (h.holds.and hrelocated)).imp ?_
  intro m hm
  obtain ⟨hstream, hholds, hserves⟩ := hm
  refine ⟨⟨hstream, hholds.1, ?_, htyped, by omega⟩, ?_, tableOf_eq hg hserves.serves⟩
  · rw [headAfter, headAfter, sizes_fatExtentBytes] at hindex
    exact hindex
  · intro c hc
    obtain ⟨_, -, hserve⟩ := forall₂_exists_left hserves.serves c hc
    exact hserve.dataCluster

/-- The dummy child count of a file. -/
theorem reserveDummyCount_spec (hg : Accepted g)
    (hb : BlockedExtents (dataClusterCount g.bootSector g.metaInfo) blocked) (fuel : ℕ)
    (hw : Writer g m₀ blocked pages head w s) (hf : Fresh pages head w)
    (hx : OpenCells g pages X w s) :
    wp (do
        let (p, w') ← reserveChildrenCount g fuel w
        storeLE p 4 0xFFFFFFFF
        pure w')
      (fun w' t => ∃ pages', Wrote g m₀ blocked X pages head w s [[dummyChildrenCount]] pages' w' t)
      NoFault s := by
  have hsizes : sizes [dummyChildrenCount] = [4] := by simp [sizes, dummyChildrenCount]
  have hsize : sizeofPage + 4 ≤ pageSize g := hg.element_fits (by decide)
  simp only [reserveChildrenCount, storeLE, wp_bind, wp_pure]
  refine wp_mono_ok (reserveSingle_spec (X := X) hg hb fuel hsize hw hf) ?_
  intro x t hx'
  obtain ⟨pages', hreserved, haddr⟩ := hx'
  obtain ⟨hslot, hcell⟩ := hreserved.cell hw rfl hsize
  have hlength : (leBytes 4 0xFFFFFFFF).length = 4 := length_leBytes _ _
  rw [haddr]
  refine wp_mono_ok (storeBytes_filled
    (Y := X ∪ CellBytes g pages' (head.after sizeofHeader) [4]) hg hreserved.writer
    (by rwa [hlength]) (fun a hlow hhigh => Or.inr (hcell a hlow (by rwa [hlength] at hhigh))) _) ?_
  intro _ u hu
  rw [← hsizes] at hreserved
  refine ⟨pages', hreserved.filled hg hw hf hx ?_ ?_ ?_ ?_ ⟨?_, trivial⟩⟩
  · simpa [hsizes] using hsize
  · rw [List.length_singleton]
    exact Nat.one_lt_two_pow (by decide)
  · rw [hsizes]
    exact hu.writer
  · rw [hsizes]
    exact hu.ext
  · have hcontent := hu.content
    rw [hlength] at hcontent
    rw [dummyChildrenCount, hlength]
    exact hcontent

/-- The entry and the name of one child. -/
theorem reserveDentry_spec (hg : Accepted g)
    (hb : BlockedExtents (dataClusterCount g.bootSector g.metaInfo) blocked) (fuel : ℕ)
    (hw : Writer g m₀ blocked pages head w s) (hf : Fresh pages head w)
    (hx : OpenCells g pages X w s) {es : List FatExtent} {table : List FatDentry}
    {dirPages : List ℕ} {dirHead : Pos} (hdir : Stable g X w s (DirAt g dirPages dirHead es table))
    {current : ℕ} {st : ClusterReadState} {entries rest : List FatDentry} {child : ChildEntry}
    (hcurrent : Returns g es table current entries)
    (hst : RestAt g dirPages dirHead es table st entries.tail)
    (hnext : nextChild entries = some (child, rest)) {α : Type}
    (finish : ℕ × ClusterReadState × StreamArchiver → Prog α) {Q : α → State → Prop}
    (hfinish : ∀ {x : ℕ × ClusterReadState × StreamArchiver} {t : State} {pages' : List ℕ}
      {name : Segment}, Wrote g m₀ blocked X pages head w s [[child.dentry], name] pages' x.2.2 t →
      child.name.RecordedAs name → dentryAt t.mem x.1 = child.dentry →
      RestAt g dirPages dirHead es table x.2.1 rest → wp (finish x) Q NoFault t) :
    wp (do
        let (dentry, w') ← reserveDentry g fuel w
        let x ← readName g fuel current st w'
        notNull x.1
        memcpy dentry x.1 sizeofFatDentry
        finish x) Q NoFault s := by
  have hsize : sizeofPage + sizeofFatDentry ≤ pageSize g := hg.element_fits (by decide)
  simp only [reserveDentry, wp_bind]
  refine wp_mono_ok (reserveSingle_spec (X := X) hg hb fuel hsize hw hf) ?_
  intro x₁ s₁ hx₁
  obtain ⟨pages₁, hreserved, haddr⟩ := hx₁
  have hfits : ∀ n ∈ [sizeofFatDentry], sizeofPage + n ≤ pageSize g := by
    simpa using hsize
  obtain ⟨hslot, hcell⟩ := hreserved.cell hw rfl hsize
  have hdir₁ := hdir.reserve hreserved.ext fun a ha =>
    (hreserved.segment_settled hg hw hf hfits (Or.inr ha)).2
  refine wp_mono_ok (readName_spec hg hb hreserved.writer hreserved.fresh
    (hreserved.openCells hg hw hf hfits hx) hdir₁ fuel hcurrent hst hnext) ?_
  intro x₂ s₂ hx₂
  obtain ⟨pages₂, name, hwrote₂, hname, hne, hentry, hrest⟩ := hx₂
  rw [wp_notNull]
  refine ⟨fun hnull => absurd hnull hne, fun _ => ?_⟩
  have hdentry := (hdir₁.later hwrote₂.ext).now.dentryAt_eq hentry
  have hlength : child.dentry.length = sizeofFatDentry := by
    rw [← hdentry, dentryAt, Mem.length_read]
  have hsizes : sizes [child.dentry] = [sizeofFatDentry] := by simp [sizes, hlength]
  rw [haddr]
  refine wp_mono_ok (memcpy_filled (Y := X ∪ CellBytes g pages₁ (head.after sizeofHeader)
    [sizeofFatDentry]) hg hwrote₂.writer hdentry ?_ ?_ _) ?_
  · rw [hlength]
    exact hslot.extend hwrote₂.pre
  · rw [hlength]
    exact fun a hlow hhigh => Or.inr (hcell a hlow hhigh)
  intro _ s₃ hs₃
  have hwrote₃ := hwrote₂.filled hs₃
  rw [← hsizes] at hreserved hwrote₃
  have hwrote : Wrote g m₀ blocked X pages head w s [[child.dentry], name] pages₂ x₂.2.2 s₃ := by
    refine hreserved.finish hg hw hf hx ?_ ?_ hwrote₃ ⟨?_, trivial⟩
    · simpa [hlength] using hsize
    · rw [List.length_singleton]
      exact Nat.one_lt_two_pow (by decide)
    · have hcontent := hs₃.content
      rw [hlength] at hcontent ⊢
      exact hcontent
  exact hfinish hwrote hname ((hdir.later hwrote.ext).now.dentryAt_eq hentry) hrest

/-- Recording one child. -/
theorem traverseChild_spec (hg : Accepted g)
    (hb : BlockedExtents (dataClusterCount g.bootSector g.metaInfo) blocked)
    (hshort : ShortBlocked g blocked)
    {descend : StreamArchiver → StreamArchiver → Prog StreamArchiver}
    (hdescend : RecordsDirectory g m₀ blocked descend) (fuel : ℕ)
    (hw : Writer g m₀ blocked pages head w s) (hf : Fresh pages head w)
    (hx : OpenCells g pages X w s) {es : List FatExtent} {table : List FatDentry}
    {dirPages : List ℕ} {dirHead : Pos} (hdir : Stable g X w s (DirAt g dirPages dirHead es table))
    {current : ℕ} {st : ClusterReadState} {entries rest : List FatDentry} {node : FatNode}
    (hcurrent : Returns g es table current entries)
    (hst : RestAt g dirPages dirHead es table st entries.tail)
    (hnext : nextChild entries = some (node.entry, rest))
    (hchain : IsChain g m₀ (fileClusterNo node.entry.dentry) node.chain)
    (hchild : Child g m₀ node forest)
    (hlength : ∀ node ∈ forest.toList, node.chain.length < 2 ^ 32) :
    wp (traverseChild g descend fuel current st w)
      (fun x t => RestAt g dirPages dirHead es table x.1 rest ∧ ∃ pages' records,
        Wrote g m₀ blocked X pages head w s (childSegments records) pages' x.2 t ∧
        Recorded g m₀ blocked X pages w s forest records pages' x.2 t)
      NoFault s := by
  have hnode : node.chain.length < 2 ^ 32 := by
    cases hchild with
    | file _ => exact hlength node (by simp [Forest.toList])
    | dir _ _ => exact hlength node (by simp [Forest.toList])
  refine reserveDentry_spec hg hb fuel hw hf hx hdir hcurrent hst hnext _ ?_
  intro x s₃ pages₂ name hwrote hname hdentry hrest
  have hx₃ := hx.later hwrote.ext hwrote.pre
  simp only [wp_bind, wp_getMem, wp_pure, hdentry]
  refine wp_mono_ok (aggregateExtents_spec hg hb hshort hwrote.writer hwrote.fresh hx₃ fuel
    hchain.usedChain hnode) ?_
  intro w₄ s₄ hw₄
  obtain ⟨pages₄, extents, hwrote₄, hgained⟩ := hw₄
  have hx₄ := hx₃.later hwrote₄.ext hwrote₄.pre
  cases hchild with
  | file hfile =>
    rw [hfile, if_neg (by decide)]
    refine wp_mono_ok (reserveDummyCount_spec hg hb fuel hwrote₄.writer hwrote₄.fresh hx₄) ?_
    intro w₅ s₅ hw₅
    obtain ⟨pages₅, hwrote₅⟩ := hw₅
    refine ⟨hrest, pages₅, .file ⟨node.entry.dentry, name, extents⟩ .nil,
      hwrote.append (hwrote₄.append hwrote₅), ?_⟩
    exact hwrote.recorded.append ((hgained.recorded_file (r := ⟨_, name, extents⟩) rfl hname).append
      hwrote₅.recorded)
  | @dir children hisDir hchildren =>
    rw [hisDir, if_pos rfl]
    have hindex := hwrote.writer.head_index_lt
    have hreader := (hwrote.fresh.reader hwrote.writer).extend hwrote₄.pre hindex hindex
    refine wp_mono_ok (hdescend hwrote₄.writer hwrote₄.fresh hx₄
      (hwrote₄.dirAt hg hx₄ hgained.relocated hnode) hreader hchildren ?_) ?_
    · exact fun n hn => hlength n (by simp [Forest.toList, hn])
    · intro w₅ s₅ hw₅
      obtain ⟨pages₅, records, hwrote₅, hrecorded⟩ := hw₅
      refine ⟨hrest, pages₅, .dir ⟨node.entry.dentry, name, extents⟩ records .nil, ?_, ?_⟩
      · have hall := hwrote.append (hwrote₄.append hwrote₅)
        rw [childSegments, childSegments, List.append_nil]
        exact hall
      · exact hwrote.recorded.append
          (hgained.recorded_dir (r := ⟨_, name, extents⟩) rfl hname hrecorded)

/-- Recording one child leaves settled bytes alone, also those that are still to be filled in. -/
theorem traverseChild_keeps (hg : Accepted g)
    (hb : BlockedExtents (dataClusterCount g.bootSector g.metaInfo) blocked)
    (hshort : ShortBlocked g blocked)
    {descend : StreamArchiver → StreamArchiver → Prog StreamArchiver}
    (hdescend : RecordsDirectory g m₀ blocked descend) (fuel : ℕ)
    (hw : Writer g m₀ blocked pages head w s) (hf : Fresh pages head w)
    (hx : OpenCells g pages X w s) {es : List FatExtent} {table : List FatDentry}
    {dirPages : List ℕ} {dirHead : Pos} (hdir : Stable g X w s (DirAt g dirPages dirHead es table))
    {current : ℕ} {st : ClusterReadState} {entries rest : List FatDentry} {node : FatNode}
    (hcurrent : Returns g es table current entries)
    (hst : RestAt g dirPages dirHead es table st entries.tail)
    (hnext : nextChild entries = some (node.entry, rest))
    (hchain : IsChain g m₀ (fileClusterNo node.entry.dentry) node.chain)
    (hchild : Child g m₀ node forest)
    (hlength : ∀ node ∈ forest.toList, node.chain.length < 2 ^ 32) :
    wp (traverseChild g descend fuel current st w)
      (fun x t => RestAt g dirPages dirHead es table x.1 rest ∧
        (∀ a ∈ X, t.mem a = s.mem a) ∧ ∃ pages' records,
          Wrote g m₀ blocked X pages head w s (childSegments records) pages' x.2 t ∧
          Recorded g m₀ blocked X pages w s forest records pages' x.2 t)
      NoFault s := by
  have hchildX := traverseChild_spec hg hb hshort hdescend fuel hw hf hx hdir hcurrent hst hnext
    hchain hchild hlength
  have hchildEmpty := traverseChild_spec hg hb hshort hdescend fuel hw hf openCells_empty
    (hdir.mono (Set.empty_subset X)) hcurrent hst hnext hchain hchild hlength
  refine wp_mono (wp_and hchildX hchildEmpty) ?_ (fun _ _ h => h.1)
  intro x t hx'
  obtain ⟨⟨hrest, hwritten⟩, -, _, _, hwrote, -⟩ := hx'
  exact ⟨hrest, fun a ha => hwrote.ext.mem a (hx a ha).1 (Set.notMem_empty a), hwritten⟩

/-- The loop over the children of a directory; `count` is the place of the child count. -/
theorem traverseLoop_spec (hg : Accepted g)
    (hb : BlockedExtents (dataClusterCount g.bootSector g.metaInfo) blocked)
    (hshort : ShortBlocked g blocked)
    {descend : StreamArchiver → StreamArchiver → Prog StreamArchiver}
    (hdescend : RecordsDirectory g m₀ blocked descend) (fuel : ℕ)
    (hw : Writer g m₀ blocked pages head w s) (hf : Fresh pages head w)
    (hx : OpenCells g pages X w s) {es : List FatExtent} {table : List FatDentry}
    {dirPages : List ℕ} {dirHead : Pos} (hdir : Stable g X w s (DirAt g dirPages dirHead es table))
    {current : ℕ} {st : ClusterReadState} {entries : List FatDentry}
    (hcurrent : Returns g es table current entries)
    (hst : RestAt g dirPages dirHead es table st entries.tail)
    (hforest : Describes g m₀ entries forest)
    (hlength : ∀ node ∈ forest.toList, node.chain.length < 2 ^ 32) {count : ℕ}
    (hslot : Slot g pages count 4) (hcell : ∀ a, count ≤ a → a < count + 4 → a ∈ X) {k : ℕ}
    (hk : s.mem.readLE count 4 = u32 k) :
    wp (traverseLoop g descend count fuel current st w)
      (fun w' t => t.mem.readLE count 4 = u32 (k + forest.count) ∧ ∃ pages' records,
        Wrote g m₀ blocked X pages head w s (childSegments records) pages' w' t ∧
        Recorded g m₀ blocked X pages w s forest records pages' w' t)
      NoFault s := by
  induction fuel generalizing pages head w s current st entries forest k with
  | zero => exact nofun
  | succ fuel ih =>
    have hend : (current = 0 ∨ isDirTableEnd (dentryAt s.mem current) = true) ↔
        tableEnds entries = true := by
      cases entries with
      | nil => simp [tableEnds, show current = 0 from hcurrent]
      | cons d rest => simp [tableEnds, hcurrent.1, hdir.now.dentryAt_eq hcurrent.2]
    simp only [traverseLoop, wp_bind, wp_getMem, hend]
    -- one child, and the rest of the directory
    have hgo : ∀ {node : FatNode} (first : Forest FatNode) {others : Forest FatNode}
        {behind : List FatDentry},
        forest = first.append others → first.count = 1 →
        tableEnds entries = false → nextChild entries = some (node.entry, behind) →
        IsChain g m₀ (fileClusterNo node.entry.dentry) node.chain → Child g m₀ node first →
        Describes g m₀ behind others →
        wp (if tableEnds entries = true then pure w
          else do
            let x ← traverseChild g descend fuel current st w
            let m ← getMem
            storeLE count 4 (u32 (m.readLE count 4 + 1))
            let y ← nextDentry g fuel x.1
            traverseLoop g descend count fuel y.1 y.2 x.2)
          (fun w' t => t.mem.readLE count 4 = u32 (k + forest.count) ∧ ∃ pages' records,
            Wrote g m₀ blocked X pages head w s (childSegments records) pages' w' t ∧
            Recorded g m₀ blocked X pages w s forest records pages' w' t)
          NoFault s := by
      intro node first others behind hsplit hone hmore hnext hchain hchild hothers
      rw [hsplit, Forest.toList_append] at hlength
      rw [hmore, if_neg (by decide)]
      simp only [wp_bind, wp_getMem, wp_storeLE]
      refine wp_mono_ok (traverseChild_keeps hg hb hshort hdescend fuel hw hf hx hdir hcurrent hst
        hnext hchain hchild fun n hn => hlength n (List.mem_append_left _ hn)) ?_
      intro x t hx'
      obtain ⟨hrest, hkept, pages', records, hwrote, hrecorded⟩ := hx'
      have hcount : t.mem.readLE count 4 = u32 k := by
        rw [← hk]
        exact Mem.readLE_congr fun i hi =>
          hkept _ (hcell _ (Nat.le_add_right _ _) (Nat.add_lt_add_left hi _))
      have hsum : u32 (u32 k + 1) = u32 (k + 1) := Nat.mod_add_mod _ _ _
      rw [hcount, hsum]
      have hsame : Mem.SameOutside count 4 t.mem (t.mem.write count (leBytes 4 (u32 (k + 1)))) := by
        simpa using Mem.sameOutside_write t.mem count (leBytes 4 (u32 (k + 1)))
      have hstore : Extends g X x.2 t x.2
          (t.stored count 4 (t.mem.write count (leBytes 4 (u32 (k + 1))))) :=
        (Extends.refl g X x.2 t).stored (fun a hlow hhigh _ => hcell a hlow hhigh) hsame
      have hslot' := hslot.extend hwrote.pre
      have hstored := hwrote.stored hg hslot' hcell hsame
      have hdir' := hdir.later hstored.ext
      refine wp_mono_ok (nextDentry_spec hg hdir'.now fuel (Or.inl nofun) hrest) ?_
      intro y u hy
      obtain ⟨rfl, hrest', hreturns⟩ := hy
      refine wp_mono_ok (ih hstored.writer hstored.fresh (hx.later hstored.ext hstored.pre) hdir'
        hreturns hrest' hothers (fun n hn => hlength n (List.mem_append_right _ hn)) hslot'
        (k := k + 1) ?_) ?_
      · rw [State.stored_mem, Mem.readLE_write_leBytes]
        exact Nat.mod_lt _ (by decide)
      · intro w' v hv
        obtain ⟨hcount', pages₃, records', hwrote₃, hrecorded₃⟩ := hv
        refine ⟨?_, pages₃, records.append records', ?_, ?_⟩
        · rw [hcount', hsplit, Forest.count_append, hone, Nat.add_assoc]
        · rw [childSegments_append]
          exact hstored.append hwrote₃
        · rw [hsplit]
          exact hrecorded.append ((Recorded.of_extends hstore).append hrecorded₃)
    cases forest with
    | nil =>
      rw [show tableEnds entries = true from hforest, if_pos rfl]
      exact ⟨hk, pages, .nil, Wrote.refl hw hf, Recorded.nil g m₀ blocked X pages w s⟩
    | file node others =>
      obtain ⟨hmore, hfile, hchain, behind, hnext, hothers⟩ := hforest
      exact hgo (.file node .nil) rfl rfl hmore hnext hchain (Child.file hfile) hothers
    | dir node children others =>
      obtain ⟨hmore, hisDir, hchain, hchildren, behind, hnext, hothers⟩ := hforest
      exact hgo (.dir node children .nil) rfl rfl hmore hnext hchain
        (Child.dir hisDir hchildren) hothers

/-- `traverse` records the children of a directory. -/
theorem traverse_spec (hg : Accepted g)
    (hb : BlockedExtents (dataClusterCount g.bootSector g.metaInfo) blocked)
    (hshort : ShortBlocked g blocked) (fuel : ℕ) :
    RecordsDirectory g m₀ blocked (traverse g fuel) := by
  induction fuel with
  | zero => exact fun _ _ _ _ _ _ _ => nofun
  | succ fuel ih =>
    intro X pages dirPages head dirHead w r s es chain forest hw hf hx hdir hr hforest hlength
    have hsize : sizeofPage + 4 ≤ pageSize g := hg.element_fits (by decide)
    have hfits : ∀ n ∈ [4], sizeofPage + n ≤ pageSize g := by simpa using hsize
    simp only [traverse, reserveChildrenCount, wp_bind, wp_storeLE]
    refine wp_mono_ok (reserveSingle_spec (X := X) hg hb fuel hsize hw hf) ?_
    intro x s₁ hx'
    obtain ⟨pages₁, hreserved, haddr⟩ := hx'
    obtain ⟨hslot, hcell⟩ := hreserved.cell hw rfl hsize
    rw [← haddr] at hslot hcell
    have hnew : ∀ a ∈ CellBytes g pages₁ (head.after sizeofHeader) [4], ¬ Settled g w s a :=
      fun a ha => (hreserved.segment_settled hg hw hf hfits (Or.inr ha)).2
    have hopen := hreserved.openCells hg hw hf hfits hx
    have hsame : Mem.SameOutside x.1 4 s₁.mem (s₁.mem.write x.1 (leBytes 4 0)) := by
      simpa using Mem.sameOutside_write s₁.mem x.1 (leBytes 4 0)
    -- the count starts at 0
    have hstored := (Wrote.refl (X := X ∪ CellBytes g pages₁ (head.after sizeofHeader) [4])
      hreserved.writer hreserved.fresh).stored hg hslot
      (fun a hlow hhigh => Or.inr (hcell a hlow hhigh)) hsame
    have hdir' := (hdir.reserve hreserved.ext hnew).later hstored.ext
    refine wp_mono_ok (ExtentIterator.init_spec hg hdir'.now.extents [] es
      rfl hr) ?_
    intro it s₂ hs₂
    obtain ⟨rfl, -, hit⟩ := hs₂
    refine wp_mono_ok (initReadState_spec hg hdir'.now fuel (Or.inl nofun) hit fun d hd => hd) ?_
    intro st s₃ hs₃
    obtain ⟨rfl, -, htable⟩ := hs₃
    refine wp_mono_ok (nextDentry_spec hg hdir'.now fuel (Or.inl nofun)
      ⟨_, 0, htable, rfl, rfl⟩) ?_
    intro y s₄ hs₄
    obtain ⟨rfl, hrest, hreturns⟩ := hs₄
    refine wp_mono_ok (traverseLoop_spec hg hb hshort ih fuel hstored.writer hstored.fresh
      (hopen.later hstored.ext hstored.pre) hdir' hreturns hrest hforest hlength hslot
      (fun a hlow hhigh => Or.inr (hcell a hlow hhigh)) (k := 0) ?_) ?_
    · exact Mem.readLE_write_leBytes (by decide)
    · intro w' t ht
      obtain ⟨hcount, pages', records, hwrote, hrecorded⟩ := ht
      have hsizes : sizes [leBytes 4 (u32 records.count)] = [4] := by simp [sizes]
      rw [Nat.zero_add, hrecorded.related.now.count_eq] at hcount
      have hreservedRecorded : Recorded g m₀ blocked
          (X ∪ CellBytes g pages₁ (head.after sizeofHeader) [4]) pages w s .nil .nil pages₁ x.2
          s₁ := by
        refine ⟨hreserved.pre, hreserved.ext.mono Set.subset_union_left,
          fun _ _ _ => Forest.Rel.nil, List.Sublist.refl _, ?_⟩
        have howns := owns_newPages hreserved.pre hreserved.writer hreserved.added
        rwa [← List.append_nil (newPages pages pages₁)] at howns
      refine ⟨pages', records, ?_, ?_⟩
      · have hall := hstored.append hwrote
        rw [← hsizes] at hreserved hall
        refine hreserved.finish hg hw hf hx ?_ ?_ hall ⟨?_, trivial⟩
        · simpa using hsize
        · rw [List.length_singleton]
          exact Nat.one_lt_two_pow (by decide)
        · rw [length_leBytes, ← haddr]
          exact Mem.read_eq_leBytes hcount
      · exact (hreservedRecorded.append
          ((Recorded.of_extends hstored.ext).append hrecorded)).shrink hnew

end

end OfsConvert
