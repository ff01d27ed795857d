import OfsConvert.MetaExtents
import OfsConvert.MetadataReader
import OfsConvert.StreamWriter

/-!
# The reading phase spares the FAT volume

Whatever the directories contain and however the phase ends, its stores fall into clusters that
the FAT marks free. Every store goes either to a slot of a stream page or to clusters that the
allocator has just handed out; both are kept by the writer's invariant.
-/

namespace OfsConvert

section

variable {g : Globals} {m₀ : Mem} {blocked : List FatExtent} {pages : List ℕ} {head : Pos}
  {w : StreamArchiver} {s : State}

/-- The write stream is intact and its pages are those from before and perhaps more. -/
def Grown (g : Globals) (m₀ : Mem) (blocked : List FatExtent) (pages : List ℕ)
    (w : StreamArchiver) (s : State) : Prop :=
  ∃ pages' head, pages <+: pages' ∧ Writer g m₀ blocked pages' head w s

/-- The same with a list of reserved slots of `len` bytes. -/
def GrownWith (g : Globals) (m₀ : Mem) (blocked : List FatExtent) (pages : List ℕ) (len : ℕ)
    (ps : List ℕ) (w : StreamArchiver) (s : State) : Prop :=
  ∃ pages' head, pages <+: pages' ∧ Writer g m₀ blocked pages' head w s ∧
    ∀ p ∈ ps, Slot g pages' p len

/-- A write stream has grown from its own pages. -/
theorem Writer.grown (h : Writer g m₀ blocked pages head w s) : Grown g m₀ blocked pages w s :=
  ⟨pages, head, List.prefix_refl _, h⟩

/-- A stream that has grown from more pages has grown from fewer. -/
theorem Grown.mono {pages' : List ℕ} (h : Grown g m₀ blocked pages' w s)
    (hp : pages <+: pages') : Grown g m₀ blocked pages w s := by
  obtain ⟨pages'', head, hp', hw⟩ := h
  exact ⟨pages'', head, hp.trans hp', hw⟩

/-- Growing the stream leaves the files intact. -/
theorem Grown.intact (h : Grown g m₀ blocked pages w s) : Intact g m₀ s := by
  obtain ⟨_, _, _, hw⟩ := h
  exact hw.intact

/-- A store that is part of a slot. -/
theorem Writer.grown_stored (hg : Accepted g) (h : Writer g m₀ blocked pages head w s) {p n : ℕ}
    {m : Mem} (hslot : Slot g pages p n) (hm : Mem.SameOutside p n s.mem m) :
    Grown g m₀ blocked pages w (s.stored p n m) :=
  (h.stored_slot hg hslot hm).grown

/-- Elements of up to 64 bytes fit on a page. -/
theorem Accepted.element_fits (hg : Accepted g) {len : ℕ} (hlen : len ≤ 64) :
    sizeofPage + len ≤ pageSize g := by
  have hge := hg.clusterSize_ge
  unfold sizeofPage pageSize
  omega

/-- Reading the stream changes nothing. -/
theorem getNext_frame (g : Globals) (size : ℕ) (r : StreamArchiver) (s : State) :
    wp (getNext g size r) (fun _ t => t = s) (fun _ t => t = s) s := by
  have hadvance : ∀ len r', wp (advanceInPage g 0 false len r') (fun _ t => t = s)
      (fun _ t => t = s) s := by
    intro len r'
    rw [advanceInPage]
    refine wp_ite (fun _ => ?_) (fun _ => rfl)
    simp only [Bool.false_eq_true, if_false, wp_bind, wp_notNull, wp_getMem, wp_pure]
    exact ⟨fun _ => trivial, fun _ => trivial⟩
  have hends : ∀ r', wp (segmentEnds false 1 r') (fun _ t => t = s) (fun _ t => t = s) s := by
    intro r'
    rw [segmentEnds, if_pos ⟨rfl, Nat.one_pos⟩]
    simp only [wp_bind, wp_notNull, wp_getMem, wp_pure]
    exact ⟨fun _ => trivial, fun _ => trivial⟩
  rw [getNext, iterateStreamArchiver, wp_bind]
  refine wp_mono_ok (hends _) ?_
  intro ends t ht
  subst ht
  refine wp_ite (fun _ => ?_) (fun _ => hadvance _ _)
  rw [wp_bind]
  exact wp_mono_ok (hadvance _ _) fun _ _ h => h

/-- The iterator changes nothing. -/
theorem nextClusterNo_frame (g : Globals) (fuel : ℕ) (it : ExtentIterator) (s : State) :
    wp (nextClusterNo g fuel it) (fun _ t => t = s) (fun _ t => t = s) s := by
  induction fuel generalizing it with
  | zero => exact rfl
  | succ fuel ih =>
    rw [nextClusterNo]
    refine wp_ite (fun _ => rfl) (fun _ => ?_)
    rw [wp_bind, wp_getMem]
    refine wp_ite (fun _ => ?_) (fun _ => rfl)
    simp only [ExtentIterator.init, wp_bind, wp_pure]
    refine wp_mono_ok (getNext_frame g _ _ s) ?_
    intro r t ht
    subst ht
    exact ih _

/-- Starting to read a cluster changes nothing. -/
theorem initReadState_frame (g : Globals) (fuel : ℕ) (it : ExtentIterator) (s : State) :
    wp (initReadState g fuel it) (fun _ t => t = s) (fun _ t => t = s) s := by
  rw [initReadState, wp_bind]
  exact wp_mono_ok (nextClusterNo_frame g fuel it s) fun _ _ h => h

/-- Reading a directory table changes nothing. -/
theorem nextDentry_frame (g : Globals) (fuel : ℕ) (state : ClusterReadState) (s : State) :
    wp (nextDentry g fuel state) (fun _ t => t = s) (fun _ t => t = s) s := by
  induction fuel generalizing state with
  | zero => exact rfl
  | succ fuel ih =>
    rw [nextDentry, wp_bind]
    have hstate : wp (if g.metaInfo.dentriesPerCluster ≤ state.clusterDentry then
        initReadState g fuel state.iterator else pure state)
        (fun _ t => t = s) (fun _ t => t = s) s :=
      wp_ite (fun _ => initReadState_frame g fuel _ s) (fun _ => rfl)
    refine wp_mono_ok hstate ?_
    intro state' t ht
    subst ht
    refine wp_ite (fun _ => rfl) (fun _ => ?_)
    rw [wp_bind, wp_getMem]
    exact wp_ite (fun _ => ih _) (fun _ => rfl)

/-- Reserving elements of at most 64 bytes. -/
theorem iterate_insert_grown (hg : Accepted g)
    (hb : BlockedExtents (dataClusterCount g.bootSector g.metaInfo) blocked) (fuel : ℕ) {len : ℕ}
    (hlen : len ≤ 64) (hw : Writer g m₀ blocked pages head w s) :
    wp (iterateStreamArchiver g fuel true len 1 w)
      (fun r t => GrownWith g m₀ blocked pages len [r.1] r.2 t) (fun e t => NoFault e t ∧ Intact g m₀ t) s := by
  refine wp_mono (iterate_insert_spec hg hb fuel 1 (hg.element_fits hlen) hw) ?_
    (fun _ _ h => h)
  intro r t hr
  obtain ⟨pages', hadv, -⟩ := hr
  refine ⟨pages', head, hadv.pre, hadv.writer, ?_⟩
  intro p hp
  rw [List.mem_singleton.mp hp]
  exact hadv.slot hw (hg.element_fits hlen)

/-- `cut` grows the stream. -/
theorem cutStreamArchiver_grown (hg : Accepted g)
    (hb : BlockedExtents (dataClusterCount g.bootSector g.metaInfo) blocked) (fuel : ℕ)
    (hw : Writer g m₀ blocked pages head w s) :
    wp (cutStreamArchiver g fuel w) (fun w' t => Grown g m₀ blocked pages w' t)
      (fun e t => NoFault e t ∧ Intact g m₀ t) s := by
  refine wp_mono (cutStreamArchiver_spec hg hb fuel hw) ?_ (fun _ _ h => h)
  intro w' t hclosed
  obtain ⟨pages', hclosed⟩ := hclosed
  exact ⟨pages', _, hclosed.pre, hclosed.writer⟩

/-- The elements of a long name grow the stream. -/
theorem reserveNames_grown (hg : Accepted g)
    (hb : BlockedExtents (dataClusterCount g.bootSector g.metaInfo) blocked) (fuel count : ℕ)
    (hw : Writer g m₀ blocked pages head w s) :
    wp (reserveNames g fuel count w)
      (fun r t => GrownWith g m₀ blocked pages (lfnEntryLength * 2) r.1 r.2 t ∧
        r.1.length = count)
      (fun _ t => Intact g m₀ t) s := by
  induction count generalizing pages head w s with
  | zero => exact ⟨⟨pages, head, List.prefix_refl _, hw, by simp⟩, rfl⟩
  | succ count ih =>
    simp only [reserveNames, wp_bind, wp_pure]
    refine wp_mono (iterate_insert_grown hg hb fuel (by decide) hw) ?_ (fun _ _ h => h.2)
    intro r t hr
    obtain ⟨pages', head', hp, hw', hslot⟩ := hr
    refine wp_mono_ok (ih hw') ?_
    intro r' t' hr'
    obtain ⟨⟨pages'', head'', hp', hw'', hslots⟩, hlength⟩ := hr'
    refine ⟨⟨pages'', head'', hp.trans hp', hw'', ?_⟩, by simp [hlength]⟩
    intro p hmem
    rcases List.mem_cons.mp hmem with rfl | hmem
    · exact (hslot _ (List.mem_singleton.mpr rfl)).extend hp'
    · exact hslots p hmem

/-- A name grows the stream. -/
theorem reserveName_grown (hg : Accepted g)
    (hb : BlockedExtents (dataClusterCount g.bootSector g.metaInfo) blocked) (fuel count : ℕ)
    (hw : Writer g m₀ blocked pages head w s) :
    wp (reserveName g fuel count w)
      (fun r t => GrownWith g m₀ blocked pages (lfnEntryLength * 2) r.1 r.2 t ∧
        r.1.length = count)
      (fun _ t => Intact g m₀ t) s := by
  simp only [reserveName, wp_bind, wp_pure]
  refine wp_mono_ok (reserveNames_grown hg hb fuel count hw) ?_
  intro r t hr
  obtain ⟨⟨pages', head', hp, hw', hslots⟩, hlength⟩ := hr
  refine wp_mono (cutStreamArchiver_grown hg hb fuel hw') ?_ (fun _ _ h => h.2)
  intro w'' u hgrown
  obtain ⟨pages'', head'', hp', hw''⟩ := hgrown
  exact ⟨⟨pages'', head'', hp.trans hp', hw'', fun p hmem => (hslots p hmem).extend hp'⟩, hlength⟩

/-- One element grows the stream. -/
theorem reserveSingle_grown (hg : Accepted g)
    (hb : BlockedExtents (dataClusterCount g.bootSector g.metaInfo) blocked) (fuel : ℕ) {size : ℕ}
    (hsize : size ≤ 64) (hw : Writer g m₀ blocked pages head w s) :
    wp (reserveSingle g fuel size w)
      (fun r t => GrownWith g m₀ blocked pages size [r.1] r.2 t) (fun _ t => Intact g m₀ t) s := by
  simp only [reserveSingle, wp_bind, wp_pure]
  refine wp_mono (iterate_insert_grown hg hb fuel hsize hw) ?_ (fun _ _ h => h.2)
  intro r t hr
  obtain ⟨pages', head', hp, hw', hslots⟩ := hr
  refine wp_mono (cutStreamArchiver_grown hg hb fuel hw') ?_ (fun _ _ h => h.2)
  intro w'' u hgrown
  obtain ⟨pages'', head'', hp', hw''⟩ := hgrown
  exact ⟨pages'', head'', hp.trans hp', hw'', fun p hmem => (hslots p hmem).extend hp'⟩

/-- An extent has a fixed size in the stream. -/
@[simp] theorem length_fatExtentBytes (e : FatExtent) :
    (fatExtentBytes e).length = sizeofFatExtent := by simp [fatExtentBytes, sizeofFatExtent]

/-- Recording an extent grows the stream. -/
theorem appendExtent_grown (hg : Accepted g)
    (hb : BlockedExtents (dataClusterCount g.bootSector g.metaInfo) blocked) (fuel : ℕ)
    (e : FatExtent) (hw : Writer g m₀ blocked pages head w s) :
    wp (appendExtent g fuel e w) (fun w' t => Grown g m₀ blocked pages w' t)
      (fun e t => NoFault e t ∧ Intact g m₀ t) s := by
  simp only [appendExtent, reserveExtent, wp_bind, wp_pure, wp_storeBytes]
  refine wp_mono_ok (iterate_insert_grown hg hb fuel (by decide) hw) ?_
  intro r t hr
  obtain ⟨pages', head', hp, hw', hslots⟩ := hr
  refine (hw'.grown_stored hg ?_ (Mem.sameOutside_write _ _ _)).mono hp
  rw [length_fatExtentBytes]
  exact hslots _ (List.mem_singleton.mpr rfl)

/-- The bytes of an allocated extent belong to its clusters. -/
theorem Allocated.byte_cluster (hg : Accepted g) {s t : State} {e : FatExtent}
    (h : Allocated g m₀ blocked s t e) {a : ℕ}
    (hlow : clusterStart g.metaInfo e.physicalStart ≤ a)
    (hhigh : a < clusterStart g.metaInfo e.physicalStart + e.length * g.metaInfo.clusterSize) :
    ∃ c ∈ e.clusters, InCluster g c a := by
  have hsize := hg.clusterSize_ge
  have hfirst : e.physicalStart ∈ e.clusters := by
    have hpos := h.positive
    rw [FatExtent.mem_clusters, FatExtent.stop]
    omega
  have hstart := hg.start_eq (h.usable _ hfirst).dataCluster
  have hlow2 : 2 ≤ e.physicalStart := (h.usable _ hfirst).lower
  -- the offset in the extent decides the cluster
  obtain ⟨k, hk⟩ : ∃ k, k = (a - clusterStart g.metaInfo e.physicalStart) /
      g.metaInfo.clusterSize := ⟨_, rfl⟩
  have hdiv := Nat.div_add_mod (a - clusterStart g.metaInfo e.physicalStart)
    g.metaInfo.clusterSize
  have hmod := Nat.mod_lt (a - clusterStart g.metaInfo e.physicalStart)
    (show 0 < g.metaInfo.clusterSize by omega)
  have hklt : k < e.length := by
    rw [hk, Nat.div_lt_iff_lt_mul (by omega)]
    omega
  have hmem : e.physicalStart + k ∈ e.clusters := by
    rw [FatExtent.mem_clusters, FatExtent.stop]
    omega
  refine ⟨e.physicalStart + k, hmem, ?_⟩
  have hstart' := hg.start_eq (h.usable _ hmem).dataCluster
  rw [show dataBlock g.bootSector + (e.physicalStart + k - 2) =
    dataBlock g.bootSector + (e.physicalStart - 2) + k by omega, Nat.add_mul, ← Nat.add_assoc,
    ← hstart, Nat.mul_comm] at hstart'
  rw [← hk] at hdiv
  unfold InCluster
  rw [hstart']
  omega

/-- Allocating keeps the writer. -/
theorem Writer.of_allocated (hw : Writer g m₀ blocked pages head w s) {t : State} {e : FatExtent}
    (honly : AllocOnly s t) (hinv : AllocatorInv g m₀ blocked t)
    (he : Allocated g m₀ blocked s t e) : Writer g m₀ blocked pages head w t := by
  refine ⟨hinv, hw.intact.of_allocOnly honly, hw.usable, ?_, hw.nodup, hw.nonempty, hw.page,
    hw.lower, hw.upper, hw.header, hw.headFits, hw.headBefore, ?_⟩
  · intro c hc
    rw [he.marked c, hw.taken c hc, Bool.false_and]
  · rw [honly.mem]
    exact hw.links

/-- A copy into an allocated extent keeps the writer. -/
theorem Writer.stored_allocated (hg : Accepted g) {u : State} {e : FatExtent}
    (hw : Writer g m₀ blocked pages head w u) (he : ∀ c ∈ e.clusters, Usable g m₀ blocked c)
    (hnew : ∀ c ∈ e.clusters, c ∉ pages)
    (hbytes : ∀ a, clusterStart g.metaInfo e.physicalStart ≤ a →
      a < clusterStart g.metaInfo e.physicalStart + e.length * g.metaInfo.clusterSize →
      ∃ c ∈ e.clusters, InCluster g c a) {n : ℕ} {m : Mem}
    (hn : n ≤ e.length * g.metaInfo.clusterSize)
    (hm : Mem.SameOutside (clusterStart g.metaInfo e.physicalStart) n u.mem m) :
    Writer g m₀ blocked pages head w
      (u.stored (clusterStart g.metaInfo e.physicalStart) n m) := by
  have hsize := hg.clusterSize_ge
  refine hw.stored hg ?_ ?_ hm
  · intro a hlow hhigh
    obtain ⟨c, hc, hin⟩ := hbytes a hlow (by omega)
    exact ⟨c, (he c hc).dataCluster, (he c hc).free, hin⟩
  · intro d hd a hlow hhigh hlink
    obtain ⟨c, hc, hin⟩ := hbytes a hlow (by omega)
    unfold sizeofPage at hlink
    have heq := hg.area.inCluster_unique (he c hc).dataCluster (hw.usable d hd).dataCluster hin
      ⟨hlink.1, by omega⟩
    exact hnew c hc (heq ▸ hd)

/-- Copying an extent to allocated clusters and recording it. -/
theorem resettleFrom_grown (hg : Accepted g)
    (hb : BlockedExtents (dataClusterCount g.bootSector g.metaInfo) blocked)
    {input : FatExtent} (hinput : input.length < 2 ^ 16) (fuel i : ℕ)
    (hw : Writer g m₀ blocked pages head w s) :
    wp (resettleFrom g input fuel i w) (fun w' t => Grown g m₀ blocked pages w' t)
      (fun e t => NoFault e t ∧ Intact g m₀ t) s := by
  induction fuel generalizing i pages head w s with
  | zero => exact ⟨nofun, hw.intact⟩
  | succ fuel ih =>
    rw [resettleFrom]
    refine wp_ite (fun hi => ?_) (fun _ => hw.grown)
    simp only [wp_bind, wp_memcpy]
    refine wp_mono (allocateExtent_spec hb (by omega) (by omega) fuel hw.alloc) ?_
      (fun _ _ h => ⟨h.1, hw.intact.of_allocOnly h.2⟩)
    intro e t he
    obtain ⟨hinv, honly, -, halloc⟩ := he
    have hwt := hw.of_allocated honly hinv halloc
    have hnew : ∀ c ∈ e.clusters, c ∉ pages := by
      intro c hc hmem
      have htaken := hw.taken c hmem
      rw [halloc.fresh c hc] at htaken
      exact absurd htaken (by decide)
    simp only [appendExtent, reserveExtent, wp_bind, wp_storeBytes, wp_pure]
    -- the new page, if any, is none of the allocated clusters
    refine wp_mono (iterate_insert_spec hg hb fuel 1 (hg.element_fits (by decide)) hwt) ?_
      (fun _ _ h => h)
    intro r u hr
    obtain ⟨pages', hadv, -⟩ := hr
    have hnew' : ∀ c ∈ e.clusters, c ∉ pages' := by
      intro c hc hmem
      rcases hadv.added c hmem with hold | hfree
      · exact hnew c hc hold
      · rw [halloc.marked c, Bool.and_eq_true, Bool.not_eq_true', List.contains_eq_mem,
          decide_eq_false_iff_not] at hfree
        exact hfree.2 hc
    have hslot := hadv.slot hwt (hg.element_fits (by decide))
    have hwu := hadv.writer.stored_slot hg hslot (m := u.mem.write r.1 (fatExtentBytes
      { e with logicalStart := u32 (input.logicalStart + i) })) (by
        simpa using Mem.sameOutside_write u.mem r.1 (fatExtentBytes _))
    rw [length_fatExtentBytes]
    refine wp_mono_ok (ih _ (hwu.stored_allocated hg halloc.usable hnew'
      (fun a hlow hhigh => halloc.byte_cluster hg hlow hhigh) (Nat.mod_le _ _)
      (Mem.sameOutside_copy _ _ _ _))) ?_
    intro w' v hv
    exact hv.mono hadv.pre

/-- The rounds over the fragments grow the stream. -/
theorem fragmentsFrom_grown (hg : Accepted g)
    (hb : BlockedExtents (dataClusterCount g.bootSector g.metaInfo) blocked)
    (input : FatExtent) (stop fuel start i : ℕ) (blockedExtent : Option FatExtent)
    (hw : Writer g m₀ blocked pages head w s) :
    wp (fragmentsFrom g input stop fuel start i blockedExtent w)
      (fun w' t => Grown g m₀ blocked pages w' t) (fun e t => NoFault e t ∧ Intact g m₀ t) s := by
  induction fuel generalizing start i blockedExtent pages head w s with
  | zero => exact ⟨nofun, hw.intact⟩
  | succ fuel ih =>
    rw [fragmentsFrom]
    refine wp_ite (fun _ => ?_) (fun _ => hw.grown)
    simp only [wp_bind, wp_get]
    -- a fragment is recorded or copied, then the loop goes on
    have hgo : ∀ {w' : StreamArchiver} {t : State} (start' i' : ℕ) (next : Option FatExtent),
        Grown g m₀ blocked pages w' t →
        wp (fragmentsFrom g input stop fuel start' i' next w')
          (fun w' t => Grown g m₀ blocked pages w' t) (fun e t => NoFault e t ∧ Intact g m₀ t) t := by
      intro w' t start' i' next hgrown
      obtain ⟨pages', head', hp, hw'⟩ := hgrown
      exact wp_mono_ok (ih start' i' next hw') fun w'' u hu => hu.mono hp
    cases blockedExtent with
    | none =>
      rw [wp_bind]
      exact wp_mono_ok (appendExtent_grown hg hb fuel _ hw) fun _ _ h => hgo _ _ _ h
    | some b =>
      refine wp_ite (fun _ => ?_) (fun _ => ?_)
      · rw [wp_bind]
        exact wp_mono_ok (resettleFrom_grown hg hb (u16_lt _) fuel 0 hw) fun _ _ h => hgo _ _ _ h
      · rw [wp_bind]
        exact wp_mono_ok (appendExtent_grown hg hb fuel _ hw) fun _ _ h => hgo _ _ _ h

/-- Cutting an extent at the blocked ones grows the stream. -/
theorem findBlockedExtentFragments_grown (hg : Accepted g)
    (hb : BlockedExtents (dataClusterCount g.bootSector g.metaInfo) blocked) (fuel : ℕ)
    (input : FatExtent) (hw : Writer g m₀ blocked pages head w s) :
    wp (findBlockedExtentFragments g fuel w input) (fun w' t => Grown g m₀ blocked pages w' t)
      (fun e t => NoFault e t ∧ Intact g m₀ t) s := by
  simp only [findBlockedExtentFragments, wp_bind, wp_get]
  exact fragmentsFrom_grown hg hb _ _ _ _ _ _ hw

/-- Recording what is left of a chain grows the stream. -/
theorem aggregateFrom_grown (hg : Accepted g)
    (hb : BlockedExtents (dataClusterCount g.bootSector g.metaInfo) blocked) (fuel : ℕ)
    (current : FatExtent) (next : ℕ) (hw : Writer g m₀ blocked pages head w s) :
    wp (aggregateFrom g fuel current next w) (fun w' t => Grown g m₀ blocked pages w' t)
      (fun e t => NoFault e t ∧ Intact g m₀ t) s := by
  induction fuel generalizing current next pages head w s with
  | zero => exact ⟨nofun, hw.intact⟩
  | succ fuel ih =>
    rw [aggregateFrom]
    refine wp_ite (fun _ => ?_) (fun _ => ?_)
    · rw [wp_bind]
      refine wp_mono_ok (findBlockedExtentFragments_grown hg hb fuel current hw) ?_
      intro w' t hgrown
      refine wp_ite (fun _ => hgrown) (fun _ => ?_)
      rw [wp_bind, wp_getMem]
      obtain ⟨pages', head', hp, hw'⟩ := hgrown
      exact wp_mono_ok (ih _ _ hw') fun _ _ h => h.mono hp
    · rw [wp_bind, wp_getMem]
      exact ih _ _ hw

/-- Recording a chain grows the stream. -/
theorem aggregateExtents_grown (hg : Accepted g)
    (hb : BlockedExtents (dataClusterCount g.bootSector g.metaInfo) blocked) (fuel clusterNo : ℕ)
    (hw : Writer g m₀ blocked pages head w s) :
    wp (aggregateExtents g fuel clusterNo w) (fun w' t => Grown g m₀ blocked pages w' t)
      (fun e t => NoFault e t ∧ Intact g m₀ t) s := by
  simp only [aggregateExtents, wp_bind, wp_getMem]
  have hread : wp (if clusterNo ≠ 0 then
      aggregateFrom g fuel ⟨0, 1, clusterNo⟩ (fatEntry g.metaInfo s.mem clusterNo) w else pure w)
      (fun w' t => Grown g m₀ blocked pages w' t) (fun e t => NoFault e t ∧ Intact g m₀ t) s :=
    wp_ite (fun _ => aggregateFrom_grown hg hb fuel _ _ hw) (fun _ => hw.grown)
  refine wp_mono_ok hread ?_
  intro w' t hgrown
  obtain ⟨pages', head', hp, hw'⟩ := hgrown
  exact wp_mono_ok (cutStreamArchiver_grown hg hb fuel hw') fun _ _ h => h.mono hp

/-- `lfn_cpy` fills one reserved name element. -/
theorem lfnCpy_grown (hg : Accepted g) (p entry : ℕ) (hw : Writer g m₀ blocked pages head w s)
    (hslot : Slot g pages p (lfnEntryLength * 2)) :
    wp (lfnCpy p entry) (fun _ t => Writer g m₀ blocked pages head w t)
      (fun _ t => Intact g m₀ t) s := by
  have hpart : ∀ {k n : ℕ} {t : State} (src : ℕ), k + n ≤ 26 →
      Writer g m₀ blocked pages head w t →
      Writer g m₀ blocked pages head w (t.stored (p + k) n (t.mem.copy (p + k) src n)) :=
    fun src hkn hwt => hwt.stored_slot hg (hslot.sub (Nat.le_add_right _ _) (by
      unfold lfnEntryLength
      omega)) (Mem.sameOutside_copy _ _ _ _)
  simp only [lfnCpy, wp_bind, wp_notNull, wp_memcpy]
  refine ⟨fun _ => hw.intact, fun _ => ?_⟩
  have hfirst := hpart (k := 0) (n := 10) (entry + 1) (by omega) hw
  exact hpart _ (by omega) (hpart _ (by omega) hfirst)

/-- Reading a long name fills in elements of the stream. -/
theorem readLfn_grown (hg : Accepted g) (fuel : ℕ) (name : List ℕ) (entry : ℕ)
    (state : ClusterReadState) (hw : Writer g m₀ blocked pages head w s)
    (hslots : ∀ p ∈ name, Slot g pages p (lfnEntryLength * 2)) :
    wp (readLfn g fuel name entry state) (fun _ t => Writer g m₀ blocked pages head w t)
      (fun _ t => Intact g m₀ t) s := by
  induction name generalizing entry state s with
  | nil => exact hw
  | cons p name ih =>
    simp only [readLfn, wp_bind]
    refine wp_mono_ok (lfnCpy_grown hg p entry hw (hslots p (by simp))) ?_
    intro _ t hwt
    refine wp_mono (nextDentry_frame g fuel state t) ?_ (fun _ _ h => h ▸ hwt.intact)
    intro r u hu
    subst hu
    exact ih _ _ hwt fun q hq => hslots q (by simp [hq])

/-- A short name takes at most 13 units. -/
theorem length_shortNameUnits_le (d : FatDentry) : (shortNameUnits d).length ≤ lfnEntryLength := by
  have hpart : ∀ lower field, (shortNamePart lower field).length ≤ field.length := by
    intro lower field
    rw [shortNamePart, List.length_map]
    exact (List.takeWhile_sublist _).length_le
  have hbase := hpart (hasLowerName d) (d.take 8)
  have hextension := hpart (hasLowerExtension d) ((d.drop 8).take 3)
  have h8 := List.length_take_le 8 d
  have h3 := List.length_take_le 3 (d.drop 8)
  unfold shortNameUnits lfnEntryLength
  simp only [List.length_append, List.length_map, List.length_singleton]
  split
  · rw [List.length_cons]
    omega
  · rw [List.length_nil]
    omega

/-- Numbers of `w` bytes each. -/
theorem length_flatMap_leBytes (w : ℕ) (l : List ℕ) :
    (l.flatMap (leBytes w)).length = l.length * w := by
  induction l with
  | nil => simp
  | cons a l ih => rw [List.flatMap_cons, List.length_append, ih, length_leBytes, List.length_cons,
      Nat.add_mul, Nat.one_mul, Nat.add_comm]

/-- Reading a short name fills in an element of the stream. -/
theorem readShortName_grown (hg : Accepted g) (d p : ℕ) (hw : Writer g m₀ blocked pages head w s)
    (hslot : Slot g pages p (lfnEntryLength * 2)) :
    wp (readShortName d p) (fun _ t => Writer g m₀ blocked pages head w t)
      (fun _ t => Intact g m₀ t) s := by
  simp only [readShortName, wp_bind, wp_getMem, wp_storeBytes]
  refine hw.stored_slot hg (hslot.sub le_rfl ?_) (Mem.sameOutside_write _ _ _)
  rw [length_flatMap_leBytes]
  exact Nat.add_le_add_left (Nat.mul_le_mul_right 2 (length_shortNameUnits_le _)) p

/-- Reading a name grows the stream. -/
theorem readName_grown (hg : Accepted g)
    (hb : BlockedExtents (dataClusterCount g.bootSector g.metaInfo) blocked) (fuel d : ℕ)
    (state : ClusterReadState) (hw : Writer g m₀ blocked pages head w s) :
    wp (readName g fuel d state w) (fun r t => Grown g m₀ blocked pages r.2.2 t)
      (fun _ t => Intact g m₀ t) s := by
  simp only [readName, wp_bind, wp_getMem]
  refine wp_ite (fun _ => ?_) (fun _ => ?_)
  · simp only [wp_bind, wp_pure]
    refine wp_mono_ok (reserveName_grown hg hb fuel _ hw) ?_
    intro r t hr
    obtain ⟨⟨pages', head', hp, hw', hslots⟩, -⟩ := hr
    refine wp_mono_ok (readLfn_grown hg fuel _ d state hw' fun p hmem =>
      hslots p (List.mem_reverse.mp hmem)) ?_
    intro _ u hu
    exact hu.grown.mono hp
  · simp only [wp_bind, wp_pure]
    refine wp_mono_ok (reserveName_grown hg hb fuel 1 hw) ?_
    intro r t hr
    obtain ⟨⟨pages', head', hp, hw', hslots⟩, hlength⟩ := hr
    have hslot : Slot g pages' (r.1.headD 0) (lfnEntryLength * 2) := by
      cases hname : r.1 with
      | nil => simp [hname] at hlength
      | cons p rest => exact hslots p (by simp [hname])
    refine wp_mono_ok (readShortName_grown hg d _ hw' hslot) ?_
    intro _ u hu
    exact hu.grown.mono hp

/-- The loop over a directory keeps the writer when the recursive call does. -/
theorem traverseChild_grown (hg : Accepted g)
    (hb : BlockedExtents (dataClusterCount g.bootSector g.metaInfo) blocked)
    {descend : StreamArchiver → StreamArchiver → Prog StreamArchiver}
    (hdescend : ∀ {pages : List ℕ} {head : Pos} {w : StreamArchiver} {s : State}
      (r : StreamArchiver), Writer g m₀ blocked pages head w s →
      wp (descend r w) (fun w' t => Grown g m₀ blocked pages w' t) (fun _ t => Intact g m₀ t) s)
    (fuel d : ℕ) (state : ClusterReadState) (hw : Writer g m₀ blocked pages head w s) :
    wp (traverseChild g descend fuel d state w) (fun x t => Grown g m₀ blocked pages x.2 t)
      (fun _ t => Intact g m₀ t) s := by
  simp only [traverseChild, wp_bind]
  refine wp_mono_ok (reserveSingle_grown hg hb fuel (by decide) hw) ?_
  intro r₁ s₁ hr₁
  obtain ⟨pages₁, head₁, hp₁, hw₁, hslot₁⟩ := hr₁
  refine wp_mono_ok (readName_grown hg hb fuel d state hw₁) ?_
  intro r₂ s₂ hr₂
  obtain ⟨pages₂, head₂, hp₂, hw₂⟩ := hr₂
  simp only [wp_notNull, wp_memcpy, wp_getMem]
  refine ⟨fun _ => hw₂.intact, fun _ => ?_⟩
  have hw₃ := hw₂.stored_slot hg ((hslot₁ _ (List.mem_singleton.mpr rfl)).extend hp₂)
    (Mem.sameOutside_copy s₂.mem r₁.1 r₂.1 sizeofFatDentry)
  refine wp_mono (aggregateExtents_grown hg hb fuel _ hw₃) ?_ (fun _ _ h => h.2)
  intro w₄ s₄ hr₄
  obtain ⟨pages₄, head₄, hp₄, hw₄⟩ := hr₄
  refine wp_mono_ok (Q := fun w₅ s₅ => Grown g m₀ blocked pages₄ w₅ s₅) ?_
    (fun w₅ s₅ hgrown => hgrown.mono ((hp₁.trans hp₂).trans hp₄))
  refine wp_ite (fun _ => hdescend _ hw₄) (fun _ => ?_)
  simp only [wp_bind, wp_storeLE, wp_pure]
  refine wp_mono_ok (reserveSingle_grown hg hb fuel (by decide) hw₄) ?_
  intro r₅ s₅ hr₅
  obtain ⟨pages₅, head₅, hp₅, hw₅, hslot₅⟩ := hr₅
  refine (hw₅.grown_stored hg (hslot₅ _ (List.mem_singleton.mpr rfl)) ?_).mono hp₅
  simpa using Mem.sameOutside_write s₅.mem r₅.1 (leBytes 4 0xFFFFFFFF)

/-- The children of a directory grow the stream if the descent does. -/
theorem traverseLoop_grown (hg : Accepted g)
    (hb : BlockedExtents (dataClusterCount g.bootSector g.metaInfo) blocked)
    {descend : StreamArchiver → StreamArchiver → Prog StreamArchiver}
    (hdescend : ∀ {pages : List ℕ} {head : Pos} {w : StreamArchiver} {s : State}
      (r : StreamArchiver), Writer g m₀ blocked pages head w s →
      wp (descend r w) (fun w' t => Grown g m₀ blocked pages w' t) (fun _ t => Intact g m₀ t) s)
    {count : ℕ} (fuel d : ℕ) (state : ClusterReadState)
    (hw : Writer g m₀ blocked pages head w s) (hcount : Slot g pages count 4) :
    wp (traverseLoop g descend count fuel d state w) (fun w' t => Grown g m₀ blocked pages w' t)
      (fun _ t => Intact g m₀ t) s := by
  induction fuel generalizing d state pages head w s with
  | zero => exact hw.intact
  | succ fuel ih =>
    simp only [traverseLoop, wp_bind, wp_getMem]
    refine wp_ite (fun _ => hw.grown) (fun _ => ?_)
    rw [wp_bind]
    refine wp_mono_ok (traverseChild_grown hg hb hdescend fuel d state hw) ?_
    intro x s₁ hgrown
    obtain ⟨pages₁, head₁, hp₁, hw₁⟩ := hgrown
    have hw₂ := hw₁.stored_slot hg (hcount.extend hp₁)
      (m := s₁.mem.write count (leBytes 4 (u32 (s₁.mem.readLE count 4 + 1)))) (by
        simpa using Mem.sameOutside_write s₁.mem count (leBytes 4 _))
    simp only [wp_bind, wp_getMem, wp_storeLE]
    refine wp_mono (nextDentry_frame g fuel _ _) ?_ (fun _ _ h => h ▸ hw₂.intact)
    intro r₆ s₆ hs₆
    subst hs₆
    exact wp_mono_ok (ih _ _ hw₂ (hcount.extend hp₁)) fun _ _ h => h.mono hp₁

/-- The traversal grows the stream. -/
theorem traverse_grown (hg : Accepted g)
    (hb : BlockedExtents (dataClusterCount g.bootSector g.metaInfo) blocked) (fuel : ℕ)
    (r : StreamArchiver) (hw : Writer g m₀ blocked pages head w s) :
    wp (traverse g fuel r w) (fun w' t => Grown g m₀ blocked pages w' t)
      (fun _ t => Intact g m₀ t) s := by
  induction fuel generalizing r pages head w s with
  | zero => exact hw.intact
  | succ fuel ih =>
    simp only [traverse, wp_bind, wp_storeLE, ExtentIterator.init, wp_pure]
    refine wp_mono_ok (reserveSingle_grown hg hb fuel (by decide) hw) ?_
    intro r₁ s₁ hr₁
    obtain ⟨pages₁, head₁, hp₁, hw₁, hslot₁⟩ := hr₁
    have hslot : Slot g pages₁ r₁.1 4 := hslot₁ _ (List.mem_singleton.mpr rfl)
    have hw₂ := hw₁.stored_slot hg hslot (m := s₁.mem.write r₁.1 (leBytes 4 0)) (by
      simpa using Mem.sameOutside_write s₁.mem r₁.1 (leBytes 4 0))
    refine wp_mono (getNext_frame g _ r _) ?_ (fun _ _ h => h ▸ hw₂.intact)
    intro r₂ s₂ hs₂
    subst hs₂
    refine wp_mono (initReadState_frame g fuel _ _) ?_ (fun _ _ h => h ▸ hw₂.intact)
    intro state s₃ hs₃
    subst hs₃
    refine wp_mono (nextDentry_frame g fuel _ _) ?_ (fun _ _ h => h ▸ hw₂.intact)
    intro r₄ s₄ hs₄
    subst hs₄
    exact wp_mono_ok (traverseLoop_grown hg hb (fun r hw => ih r hw) fuel _ _ hw₂ hslot)
      fun _ _ h => h.mono hp₁

end

/-- However the reading phase ends, every store it made fell into clusters that the FAT marks
free, and after every store the boot sector, the FATs and the clusters in use hold what they
held at the start. -/
theorem readingPhase_intact (g : Globals) (hg : Accepted g) (fuel : ℕ) (s : State)
    (hs : s.stores = []) :
    (∀ store ∈ (finalState (readingPhase g fuel) s).stores,
      (∀ a, store.address ≤ a → a < store.address + store.length →
        ∃ c, DataCluster g c ∧ FatFree g.metaInfo s.mem c ∧ InCluster g c a) ∧
      ∀ a, Protected g s.mem a → store.after a = s.mem a) ∧
    ∀ a, Protected g s.mem a → (finalState (readingPhase g fuel) s).mem a = s.mem a := by
  suffices h : wp (readingPhase g fuel) (fun _ t => Intact g s.mem t)
      (fun _ t => Intact g s.mem t) s from ⟨(wp_finalState h).stores, (wp_finalState h).mem⟩
  have hinitial : Intact g s.mem s := Intact.initial hs
  have hb := hg.blockedExtents
  simp only [readingPhase, hg.createBlockGroupMetaExtents_eq, wp_bind, wp_liftExcept_ok, wp_pure]
  rw [← length_metaExtents]
  refine wp_mono (initExtentAllocator_spec s hb) ?_ (fun _ _ h => h.elim)
  intro _ t ht
  obtain ⟨hinv, honly, -⟩ := ht
  refine wp_mono (initStreamArchiver_spec hg hb fuel hinv (hinitial.of_allocOnly honly)) ?_
    (fun _ _ h => h.2)
  intro w u hu
  obtain ⟨c, hw, -, -, -⟩ := hu
  refine wp_mono (aggregateExtents_grown hg hb fuel _ hw) ?_ (fun _ _ h => h.2)
  intro w' v hv
  obtain ⟨pages', head', -, hw'⟩ := hv
  exact wp_mono_ok (traverse_grown hg hb fuel _ hw') fun _ _ h => h.intact

/-- The entry of a file of three clusters. -/
def sampleEntry : FatDentry :=
  [0x46, 0x49, 0x4C, 0x45, 0x20, 0x20, 0x20, 0x20, 0x54, 0x58, 0x54, 0x20, 0, 0, 0, 0,
    0, 0, 0, 0, 0, 0, 0, 0, 0, 0, 4, 0, 0x34, 8, 0, 0]

/-- The entry of a directory. -/
def subEntry : FatDentry :=
  [0x53, 0x55, 0x42, 0x20, 0x20, 0x20, 0x20, 0x20, 0x20, 0x20, 0x20, 0x10, 0, 0, 0, 0,
    0, 0, 0, 0, 0, 0, 0, 0, 0, 0, 3, 0, 0, 0, 0, 0]

/-- The entry of a file in that directory. -/
def innerEntry : FatDentry :=
  [0x49, 0x4E, 0x4E, 0x45, 0x52, 0x20, 0x20, 0x20, 0x42, 0x49, 0x4E, 0x20, 0, 0, 0, 0,
    0, 0, 0, 0, 0, 0, 0, 0, 0, 0, 62, 0, 5, 0, 0, 0]

/-- A deleted entry. -/
def deletedEntry : FatDentry := 0xE5 :: List.replicate 31 0x20

/-- The two entries in front of a directory. -/
def dotEntries : List UInt8 :=
  0x2E :: List.replicate 10 0x20 ++ 0x10 :: List.replicate 20 0 ++
    (0x2E :: 0x2E :: List.replicate 9 0x20 ++ 0x10 :: List.replicate 20 0)

/-- A volume of 200 blocks. In the root directory are a deleted entry, a directory with one file and
a file of the clusters 4, 60 and 61, the first of which lies in the metadata of the group. -/
def sampleVolume : Mem :=
  (((Mem.write (fun _ => 0) 81928
    [0xFF, 0xFF, 0xFF, 0x0F, 0xFF, 0xFF, 0xFF, 0x0F, 60, 0, 0, 0]).write 82160
    [61, 0, 0, 0, 0xFF, 0xFF, 0xFF, 0x0F, 0xFF, 0xFF, 0xFF, 0x0F]).write 149504
    (deletedEntry ++ subEntry ++ sampleEntry)).write 150528 (dotEntries ++ innerEntry)

/-- The phase on that volume: the chain 4, 60, 61 among others is in use. -/
theorem readingPhase_intact_sample :
    (∀ store ∈ (finalState (readingPhase (sampleGlobals 400) 1000) { mem := sampleVolume }).stores,
      (∀ a, store.address ≤ a → a < store.address + store.length →
        ∃ c, DataCluster (sampleGlobals 400) c ∧
          FatFree (sampleGlobals 400).metaInfo sampleVolume c ∧ InCluster (sampleGlobals 400) c a) ∧
      ∀ a, Protected (sampleGlobals 400) sampleVolume a → store.after a = sampleVolume a) ∧
    ∀ a, Protected (sampleGlobals 400) sampleVolume a →
      (finalState (readingPhase (sampleGlobals 400) 1000) { mem := sampleVolume }).mem a =
        sampleVolume a :=
  readingPhase_intact (sampleGlobals 400) accepted_sample_400 1000 { mem := sampleVolume } rfl

end OfsConvert
