import OfsConvert.Fragments
import OfsConvert.Relocation

/-!
# Recording a cluster chain

`find_blocked_extent_fragments` cuts a run of clusters at the blocked extents,
`aggregate_extents` cuts the chain of a file into runs. Both record every cluster of their piece
of the chain once and in order.
-/

namespace OfsConvert

/-- The copies of whole blocked extents fit into 32 bits. -/
def ShortBlocked (g : Globals) (blocked : List FatExtent) : Prop :=
  ∀ b ∈ blocked, b.length * g.metaInfo.clusterSize < 2 ^ 32

/-- Copies of whole metadata extents fit into 32 bits. -/
theorem Accepted.shortBlocked {g : Globals} (hg : Accepted g) :
    ShortBlocked g (metaExtents g) := by
  intro b hb
  rw [metaExtents, List.mem_map] at hb
  obtain ⟨i, -, rfl⟩ := hb
  have hover := hg.blockGroupOverhead_le i
  have hsize := hg.clusterSize_le
  have hlength : (metaExtent g i).length ≤ 5124 := by
    unfold metaExtent
    dsimp only
    split_ifs <;> dsimp only <;> omega
  have hmul := Nat.mul_le_mul hlength hsize
  omega

section

variable {g : Globals} {m₀ : Mem} {blocked : List FatExtent} {X : Set ℕ}
  {pages pages' : List ℕ} {head : Pos} {w w' : StreamArchiver} {s t : State}
  {es : List FatExtent}

/-- The extents `es` are followed by extents for a piece of the chain. -/
def Gains (g : Globals) (m₀ : Mem) (blocked : List FatExtent) (X : Set ℕ) (pages : List ℕ)
    (head : Pos) (w : StreamArchiver) (s : State) (es : List FatExtent) (pages' : List ℕ)
    (w' : StreamArchiver) (t : State) (k : ℕ) (chain : List ℕ) (w'' : StreamArchiver)
    (u : State) : Prop :=
  ∃ pages'' fs, Listed g m₀ blocked X pages head w s (es ++ fs) pages'' w'' u ∧
    Gained g m₀ blocked X pages' w' t k chain fs pages'' w'' u

/-- Nothing is gained for the end of a chain. -/
theorem Gains.nil (h : Listed g m₀ blocked X pages head w s es pages' w' t) (k : ℕ) :
    Gains g m₀ blocked X pages head w s es pages' w' t k [] w' t := by
  refine ⟨pages', [], ?_, Gained.nil g m₀ blocked X pages' w' t k⟩
  rw [List.append_nil]
  exact h

/-- Going on with the rest of the chain. -/
theorem Gains.bind {x : Prog StreamArchiver} {k : ℕ} {xs ys : List ℕ} {w'' : StreamArchiver}
    {u : State} (h : Gains g m₀ blocked X pages head w s es pages' w' t k xs w'' u)
    (hx : ∀ pages'' fs, Listed g m₀ blocked X pages head w s fs pages'' w'' u →
      wp x (Gains g m₀ blocked X pages head w s fs pages'' w'' u (k + xs.length) ys)
        NoFault u) :
    wp x (Gains g m₀ blocked X pages head w s es pages' w' t k (xs ++ ys))
      NoFault u := by
  obtain ⟨pages'', fs, hlisted, hgained⟩ := h
  refine wp_mono_ok (hx pages'' (es ++ fs) hlisted) ?_
  intro w₃ v hv
  obtain ⟨pages₃, fs', hlisted', hgained'⟩ := hv
  refine ⟨pages₃, fs ++ fs', ?_, hgained.append hgained'⟩
  rw [← List.append_assoc]
  exact hlisted'

/-- Recording one fragment gains its clusters. -/
theorem recordFragment_spec (hg : Accepted g)
    (hb : BlockedExtents (dataClusterCount g.bootSector g.metaInfo) blocked)
    (hshort : ShortBlocked g blocked)
    (hw : Writer g m₀ blocked pages head w s) (hf : Fresh pages head w)
    (hx : OpenCells g pages X w s) {fragment : Fragment} (hjudged : Judged blocked fragment)
    (hlength : fragment.extent.length ≤ ext4MaxInitExtentLen)
    (hchain : ∀ c ∈ fragment.extent.clusters, DataCluster g c ∧ ¬ FatFree g.metaInfo m₀ c)
    (hlogical : fragment.extent.logicalStart + fragment.extent.length < 2 ^ 32) (fuel : ℕ)
    (h : Listed g m₀ blocked X pages head w s es pages' w' t) :
    wp (recordFragment g fuel fragment w')
      (Gains g m₀ blocked X pages head w s es pages' w' t fragment.extent.logicalStart
        fragment.extent.clusters)
      NoFault t := by
  refine wp_ite (fun hblocked => ?_) (fun hclear => ?_)
  · -- the copies of one blocked extent fit into 32 bits
    obtain ⟨b, hmem, hin⟩ := hjudged.inside hblocked
    have hle : fragment.extent.length ≤ b.length := by
      have hsubset : fragment.extent.clusters ⊆ b.clusters := hin
      have hsub := (List.subperm_of_subset fragment.extent.nodup_clusters hsubset).length_le
      simpa using hsub
    have hmul := Nat.mul_le_mul_right g.metaInfo.clusterSize hle
    have hsize := hshort b hmem
    refine wp_mono_ok (resettleFrom_spec hg hb hw hf hx hlength (by omega) hchain hlogical fuel 0
      (Nat.zero_le _) h) fun w'' u hu => ?_
    exact hu
  · have hkept : fragment.isBlocked = false := Bool.eq_false_iff.mpr hclear
    refine wp_mono_ok (appendInPlace_spec hg hb fuel hw hf hx h fragment.extent
      ⟨hjudged.nonempty hkept, hlength⟩ hchain (hjudged.clear hkept)) fun w'' u hu => ?_
    obtain ⟨pages'', hlisted, hgained⟩ := hu
    exact ⟨pages'', _, hlisted, hgained⟩

/-- Recording fragments gains the clusters that they cover. -/
theorem recordFragments_spec (hg : Accepted g)
    (hb : BlockedExtents (dataClusterCount g.bootSector g.metaInfo) blocked)
    (hshort : ShortBlocked g blocked)
    (hw : Writer g m₀ blocked pages head w s) (hf : Fresh pages head w)
    (hx : OpenCells g pages X w s) {input : FatExtent}
    (hlength : input.length ≤ ext4MaxInitExtentLen)
    (hchain : ∀ c ∈ input.clusters, DataCluster g c ∧ ¬ FatFree g.metaInfo m₀ c)
    (hlogical : input.logicalStart + input.length < 2 ^ 32) (fragments : List Fragment)
    (hjudged : ∀ f ∈ fragments, Judged blocked f) (start : ℕ)
    (hlow : input.physicalStart ≤ start) (hcover : CoverFrom input start fragments) (fuel : ℕ)
    (h : Listed g m₀ blocked X pages head w s es pages' w' t) :
    wp (recordFragments g fuel fragments w')
      (Gains g m₀ blocked X pages head w s es pages' w' t
        (input.logicalStart + (start - input.physicalStart))
        (List.range' start (input.stop - start)))
      NoFault t := by
  induction fragments generalizing start fuel es pages' w' t with
  | nil =>
    cases fuel with
    | zero => exact nofun
    | succ fuel =>
      rw [show start = input.stop from hcover, Nat.sub_self, recordFragments, wp_pure]
      exact Gains.nil h _
  | cons fragment rest ih =>
    cases fuel with
    | zero => exact nofun
    | succ fuel =>
      have hends := hcover.length_le (show fragment ∈ fragment :: rest by simp)
      have hclusters := hcover.clusters.1
      obtain ⟨hstart, hlog, hrest⟩ := hcover
      have hstop : fragment.extent.stop = start + fragment.extent.length := by
        rw [FatExtent.stop, hstart]
      have hend : input.stop = input.physicalStart + input.length := rfl
      rw [List.flatMap_cons, hrest.clusters.1] at hclusters
      rw [recordFragments, wp_bind, ← hclusters, ← hlog]
      refine wp_mono_ok (recordFragment_spec hg hb hshort hw hf hx (hjudged fragment (by simp))
        (by omega) ?_ (by omega) fuel h) fun w'' u hu => ?_
      · intro c hc
        rw [FatExtent.mem_clusters] at hc
        exact hchain c ((input.mem_clusters c).mpr ⟨by omega, by omega⟩)
      · refine hu.bind fun pages'' fs hlisted => ?_
        rw [FatExtent.length_clusters, show fragment.extent.logicalStart + fragment.extent.length =
          input.logicalStart + (fragment.extent.stop - input.physicalStart) by omega]
        exact ih (fun f hf => hjudged f (by simp [hf])) fragment.extent.stop (by omega) hrest fuel
          hlisted

/-- All fragments of a run of clusters. -/
theorem findBlockedExtentFragments_spec (hg : Accepted g)
    (hb : BlockedExtents (dataClusterCount g.bootSector g.metaInfo) blocked)
    (hshort : ShortBlocked g blocked)
    (hw : Writer g m₀ blocked pages head w s) (hf : Fresh pages head w)
    (hx : OpenCells g pages X w s) {input : FatExtent} (hpos : 1 ≤ input.length)
    (hlength : input.length ≤ ext4MaxInitExtentLen)
    (hchain : ∀ c ∈ input.clusters, DataCluster g c ∧ ¬ FatFree g.metaInfo m₀ c)
    (hlogical : input.logicalStart + input.length < 2 ^ 32) (fuel : ℕ)
    (h : Listed g m₀ blocked X pages head w s es pages' w' t) :
    wp (findBlockedExtentFragments g fuel w' input)
      (Gains g m₀ blocked X pages head w s es pages' w' t input.logicalStart input.clusters)
      NoFault t := by
  have hcount := hg.dataClusterCount_le
  have hlast := (hchain (input.stop - 1) (by
    rw [FatExtent.mem_clusters]
    unfold FatExtent.stop
    omega)).1.2
  obtain ⟨fragments, hcover, hjudged, hrun⟩ := findBlockedExtentFragments_records
    (endSentinel (dataClusterCount g.bootSector g.metaInfo)) hb.orderedExtents hlength
    (by omega) hlogical.le
  have halloc := h.opened.writer.alloc
  have hspec := recordFragments_spec hg hb hshort hw hf hx hlength hchain hlogical fragments
    hjudged input.physicalStart le_rfl hcover fuel h
  rw [Nat.sub_self, Nat.add_zero, FatExtent.stop, Nat.add_sub_cancel_left] at hspec
  unfold wp at hspec ⊢
  rw [hrun g t ⟨halloc.extents, halloc.count⟩ fuel w']
  exact hspec

/-- The runs of a chain, from one that is being collected on. -/
theorem aggregateFrom_spec (hg : Accepted g)
    (hb : BlockedExtents (dataClusterCount g.bootSector g.metaInfo) blocked)
    (hshort : ShortBlocked g blocked)
    (hw : Writer g m₀ blocked pages head w s) (hf : Fresh pages head w)
    (hx : OpenCells g pages X w s) (fuel : ℕ) (current : FatExtent) {next : ℕ} {rest : List ℕ}
    (hpos : 1 ≤ current.length) (hlength : current.length ≤ ext4MaxInitExtentLen)
    (hrun : ∀ c ∈ current.clusters, DataCluster g c ∧ ¬ FatFree g.metaInfo m₀ c)
    (hnext : UsedFrom g m₀ next rest)
    (hlogical : current.logicalStart + current.length + rest.length < 2 ^ 32)
    (h : Listed g m₀ blocked X pages head w s es pages' w' t) :
    wp (aggregateFrom g fuel current next w')
      (Gains g m₀ blocked X pages head w s es pages' w' t current.logicalStart
        (current.clusters ++ rest))
      NoFault t := by
  induction fuel generalizing current next rest es pages' w' t with
  | zero => exact nofun
  | succ fuel ih =>
    rw [aggregateFrom]
    have hbits : ext4MaxInitExtentLen = 32768 := rfl
    have hcount := hg.dataClusterCount_le
    have hflush := findBlockedExtentFragments_spec hg hb hshort hw hf hx hpos hlength hrun
      (by omega) fuel h
    cases rest with
    | nil =>
      -- the last run
      have hend : fatEndOfChain ≤ next := hnext
      rw [List.append_nil]
      simp only [hend, true_or, if_true, wp_bind]
      exact wp_mono_ok hflush fun _ _ hu => hu
    | cons c cs =>
      obtain ⟨rfl, hc, hin, hused, htail⟩ := hnext
      have hnotEnd : ¬ fatEndOfChain ≤ next := Nat.not_le.mpr hin
      rw [List.length_cons] at hlogical
      refine wp_ite (fun _ => ?_) (fun hgo => ?_)
      · -- a run ends, the next one starts with the next cluster
        simp only [wp_bind]
        refine wp_mono_ok hflush ?_
        intro w'' u hu
        simp only [hnotEnd, if_false, wp_bind, wp_getMem]
        rw [u32_of_lt (by omega)]
        refine hu.bind fun pages'' fs hlisted => ?_
        rw [hlisted.opened.writer.intact.fatEntry_eq hg hc.2, FatExtent.length_clusters]
        refine ih ⟨current.logicalStart + current.length, 1, next⟩ le_rfl
          (by dsimp only; omega) ?_ htail (by dsimp only; omega) hlisted
        intro d hd
        rw [FatExtent.clusters_mk, List.mem_range'_1] at hd
        rw [show d = next by omega]
        exact ⟨hc, hused⟩
      · -- the run grows by the next cluster
        rw [not_or, not_or, not_not] at hgo
        obtain ⟨-, hconsecutive, hmax⟩ := hgo
        have hlast := (hrun (current.stop - 1) (by
          rw [FatExtent.mem_clusters]
          unfold FatExtent.stop
          omega)).1.2
        unfold FatExtent.stop at hlast
        rw [u32_of_lt (by omega)] at hconsecutive
        have hgrow : ({ current with length := current.length + 1 } : FatExtent).clusters =
            current.clusters ++ [next] := by
          rw [FatExtent.clusters, FatExtent.clusters, List.range'_concat, Nat.one_mul,
            hconsecutive]
        simp only [wp_bind, wp_getMem]
        rw [h.opened.writer.intact.fatEntry_eq hg hc.2, u16_of_lt (by omega)]
        have hsplit : current.clusters ++ next :: cs =
            ({ current with length := current.length + 1 } : FatExtent).clusters ++ cs := by
          rw [hgrow, List.append_assoc, List.singleton_append]
        rw [hsplit]
        refine ih { current with length := current.length + 1 }
          (by dsimp only; omega) (by dsimp only; omega) ?_ htail (by dsimp only; omega) h
        intro d hd
        rw [hgrow, List.mem_append, List.mem_singleton] at hd
        rcases hd with hold | rfl
        · exact hrun d hold
        · exact ⟨hc, hused⟩

/-- A closed segment of extents is written. -/
theorem Listed.cut (hg : Accepted g)
    (hb : BlockedExtents (dataClusterCount g.bootSector g.metaInfo) blocked) (fuel : ℕ)
    (hw : Writer g m₀ blocked pages head w s) (hf : Fresh pages head w)
    (hx : OpenCells g pages X w s) (hshort : es.length < 2 ^ 64)
    (h : Listed g m₀ blocked X pages head w s es pages' w' t) :
    wp (cutStreamArchiver g fuel w')
      (fun w'' u => ∃ pages'', pages' <+: pages'' ∧ Extends g ∅ w' t w'' u ∧
        Owns t u (newPages pages' pages'') ∧
        Wrote g m₀ blocked X pages head w s [es.map fatExtentBytes] pages'' w'' u)
      NoFault t := by
  refine wp_mono_ok (h.appended.cut hg hb fuel hw hf hx (hg.extents_fit es)
    (by rwa [List.length_map])) ?_
  intro w'' u hu
  obtain ⟨pages'', hpre, hext, hadded, hwrote⟩ := hu
  exact ⟨pages'', hpre, hext, owns_newPages hpre hwrote.writer hadded, hwrote⟩

/-- Extents with clusters are at most as many as their clusters. -/
theorem Relocated.extents_le {m : Mem} {k : ℕ} {chain : List ℕ}
    (h : Relocated g m₀ blocked m k chain es) : es.length ≤ chain.length := by
  rw [← h.length_eq]
  have hlengths := h.lengths
  clear h
  induction es with
  | nil => exact Nat.zero_le _
  | cons e es ih =>
    have hpos := (hlengths e (by simp)).1
    have hrest := ih fun d hd => hlengths d (by simp [hd])
    rw [physical, List.flatMap_cons, List.length_append, FatExtent.length_clusters,
      List.length_cons]
    unfold physical at hrest
    omega

/-- `aggregate_extents` writes one segment with extents that serve for the chain. -/
theorem aggregateExtents_spec (hg : Accepted g)
    (hb : BlockedExtents (dataClusterCount g.bootSector g.metaInfo) blocked)
    (hshort : ShortBlocked g blocked)
    (hw : Writer g m₀ blocked pages head w s) (hf : Fresh pages head w)
    (hx : OpenCells g pages X w s) (fuel : ℕ) {clusterNo : ℕ} {chain : List ℕ}
    (hchain : IsUsedChain g m₀ clusterNo chain) (hlength : chain.length < 2 ^ 32) :
    wp (aggregateExtents g fuel clusterNo w)
      (fun w' t => ∃ pages' es,
        Wrote g m₀ blocked X pages head w s [es.map fatExtentBytes] pages' w' t ∧
        Gained g m₀ blocked X pages w s 0 chain es pages' w' t)
      NoFault s := by
  have hstart : Listed g m₀ blocked X pages head w s [] pages w s := ⟨Opened.refl hw hf, trivial⟩
  simp only [aggregateExtents, wp_bind, wp_getMem]
  have hread : wp (if clusterNo ≠ 0 then
      aggregateFrom g fuel ⟨0, 1, clusterNo⟩ (fatEntry g.metaInfo s.mem clusterNo) w else pure w)
      (Gains g m₀ blocked X pages head w s [] pages w s 0 chain) NoFault s := by
    cases chain with
    | nil =>
      rw [if_neg (not_not.mpr (show clusterNo = 0 from hchain)), wp_pure]
      exact Gains.nil hstart 0
    | cons c cs =>
      obtain ⟨rfl, hc, hused, htail⟩ := hchain
      have hlow : 2 ≤ clusterNo := hc.1
      rw [if_pos (by omega), hw.intact.fatEntry_eq hg hc.2]
      rw [List.length_cons] at hlength
      refine aggregateFrom_spec hg hb hshort hw hf hx fuel ⟨0, 1, clusterNo⟩ le_rfl
        (show 1 ≤ ext4MaxInitExtentLen by decide) ?_ htail (by dsimp only; omega) hstart
      intro d hd
      rw [FatExtent.clusters_mk, List.mem_range'_1] at hd
      rw [show d = clusterNo by omega]
      exact ⟨hc, hused⟩
  refine wp_mono_ok hread ?_
  intro w' t ht
  obtain ⟨pages', es, hlisted, hgained⟩ := ht
  have hcount := hgained.relocated.now.extents_le
  refine wp_mono_ok (hlisted.cut hg hb fuel hw hf hx (by rw [List.nil_append]; omega)) ?_
  intro w'' u hu
  obtain ⟨pages'', hpre, hext, howns, hwrote⟩ := hu
  refine ⟨pages'', es, hwrote, hgained.pre.trans hpre, hgained.ext.trans hext.ofEmpty,
    hgained.relocated.later hext.ofEmpty, hgained.inPlace, ?_⟩
  have hnone : Owns t u (newPages pages' pages'' ++ movedTo g m₀ []) := by
    simpa [movedTo, physical] using howns
  have hall := Owns.append_moved hgained.ext (hext.ofEmpty (X := X)) hgained.pre hpre hgained.owns
    hnone
  rwa [List.append_nil] at hall

end

end OfsConvert
