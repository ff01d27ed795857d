import OfsConvert.BlockedSearch
import OfsConvert.StreamSegments

/-!
# Relocating the clusters of a file

`aggregate_extents` records the extents of one cluster chain. `Relocated` states what the recorded
extents are worth: they number the clusters of the chain without a gap, avoid the blocked extents
and hold what the chain held. Clusters taken from the allocator on the way are counted by `Owns`.
-/

namespace OfsConvert

/-- The FAT entry `value` of the cluster before leads to the clusters of the list, the last of
which ends the chain; the reserved bits are 0. -/
def ChainFrom (g : Globals) (m : Mem) : ℕ → List ℕ → Prop
  | value, [] => fatEndOfChain ≤ value
  | value, c :: cs =>
    value = c ∧ DataCluster g c ∧ c < fatEndOfChain ∧ fatEntry g.metaInfo m c ≤ clusterEntryMask ∧
      ChainFrom g m (fatEntry g.metaInfo m c) cs

/-- The chain that starts with a given cluster; 0 starts the empty chain. -/
def IsChain (g : Globals) (m : Mem) (start : ℕ) (chain : List ℕ) : Prop :=
  (start = 0 ∧ chain = []) ∨ (chain ≠ [] ∧ ChainFrom g m start chain)

/-- The logical starts continue at `k` without a gap. -/
def LogicalFrom : ℕ → List FatExtent → Prop
  | _, [] => True
  | k, e :: es => e.logicalStart = k ∧ LogicalFrom (k + e.length) es

/-- The clusters of a list of extents in order. -/
def physical (es : List FatExtent) : List ℕ := es.flatMap FatExtent.clusters

/-- The cluster `p` may serve in place of `c`: it is outside the blocked extents and holds what
`c` held at the start. -/
structure Serves (g : Globals) (m₀ : Mem) (blocked : List FatExtent) (m : Mem) (c p : ℕ) :
    Prop where
  dataCluster : DataCluster g p
  unblocked : ∀ b ∈ blocked, p ∉ b.clusters
  content : ∀ i < g.metaInfo.clusterSize,
    m (clusterStart g.metaInfo p + i) = m₀ (clusterStart g.metaInfo c + i)

/-- The extents serve for the clusters of the chain, from logical cluster `k` on. -/
structure Relocated (g : Globals) (m₀ : Mem) (blocked : List FatExtent) (m : Mem) (k : ℕ)
    (chain : List ℕ) (es : List FatExtent) : Prop where
  logical : LogicalFrom k es
  lengths : ∀ e ∈ es, 1 ≤ e.length ∧ e.length ≤ ext4MaxInitExtentLen
  serves : List.Forall₂ (Serves g m₀ blocked m) chain (physical es)

/-- The clusters of the extents that are free in the FAT. -/
def movedTo (g : Globals) (m₀ : Mem) (es : List FatExtent) : List ℕ :=
  (physical es).filter fun c => isFreeCluster (fatEntry g.metaInfo m₀ c)

/-- The clusters of the extents that are in use in the FAT. -/
def inPlace (g : Globals) (m₀ : Mem) (es : List FatExtent) : List ℕ :=
  (physical es).filter fun c => !isFreeCluster (fatEntry g.metaInfo m₀ c)

/-- The clusters that the allocator handed out between `s` and `t`. -/
structure Owns (s t : State) (new : List ℕ) : Prop where
  nodup : new.Nodup
  fresh : ∀ c ∈ new, isFree s.allocationBitmap c = true
  taken : ∀ c ∈ new, isFree t.allocationBitmap c = false

/-- The pages added to a list of pages. -/
def newPages (pages pages' : List ℕ) : List ℕ := pages'.drop pages.length

/-- A relation between two lists may be weakened at their elements. -/
theorem forall₂_imp_of_mem {α β : Type} {R S : α → β → Prop} {xs : List α} {ys : List β}
    (h : List.Forall₂ R xs ys) (himp : ∀ a b, a ∈ xs → b ∈ ys → R a b → S a b) :
    List.Forall₂ S xs ys := by
  induction h with
  | nil => exact List.Forall₂.nil
  | @cons a b xs ys hab _ ih =>
    refine List.Forall₂.cons (himp a b (by simp) (by simp) hab) (ih fun x y hx hy => ?_)
    exact himp x y (by simp [hx]) (by simp [hy])

/-- Every element on the right has a partner on the left. -/
theorem forall₂_exists_left {α β : Type} {R : α → β → Prop} {xs : List α} {ys : List β}
    (h : List.Forall₂ R xs ys) : ∀ b ∈ ys, ∃ a ∈ xs, R a b := by
  induction h with
  | nil => simp
  | @cons a b xs ys hab _ ih =>
    intro c hc
    rcases List.mem_cons.mp hc with rfl | hmem
    · exact ⟨a, by simp, hab⟩
    · obtain ⟨d, hd, hdc⟩ := ih c hmem
      exact ⟨d, by simp [hd], hdc⟩

section Lists

variable {g : Globals} {m₀ m : Mem} {blocked : List FatExtent}

/-- No extent goes behind the clusters of all of them. -/
theorem LogicalFrom.le {k : ℕ} {es : List FatExtent} (h : LogicalFrom k es) :
    ∀ e ∈ es, e.logicalStart + e.length ≤ k + (physical es).length := by
  induction es generalizing k with
  | nil => simp
  | cons d es ih =>
    intro e he
    rw [physical, List.flatMap_cons, List.length_append, FatExtent.length_clusters]
    rcases List.mem_cons.mp he with rfl | hmem
    · rw [h.1]
      omega
    · have hle := ih h.2 e hmem
      rw [physical] at hle
      omega

/-- The logical starts go on over two lists. -/
theorem LogicalFrom.append {k : ℕ} {es fs : List FatExtent} (h : LogicalFrom k es)
    (h' : LogicalFrom (k + (physical es).length) fs) : LogicalFrom k (es ++ fs) := by
  induction es generalizing k with
  | nil => simpa [physical] using h'
  | cons e es ih =>
    refine ⟨h.1, ih h.2 ?_⟩
    rw [physical, List.flatMap_cons, List.length_append, FatExtent.length_clusters,
      ← Nat.add_assoc] at h'
    exact h'

/-- The clusters of two lists of extents follow one another. -/
theorem physical_append (es fs : List FatExtent) :
    physical (es ++ fs) = physical es ++ physical fs := List.flatMap_append

/-- There is one recorded cluster for each of the chain. -/
theorem Relocated.length_eq {k : ℕ} {chain : List ℕ} {es : List FatExtent}
    (h : Relocated g m₀ blocked m k chain es) : (physical es).length = chain.length :=
  h.serves.length_eq.symm

/-- Nothing is recorded for the empty chain. -/
theorem Relocated.nil (k : ℕ) : Relocated g m₀ blocked m k [] [] :=
  ⟨trivial, by simp, List.Forall₂.nil⟩

/-- Relocating a chain piece by piece. -/
theorem Relocated.append {k : ℕ} {xs ys : List ℕ} {es fs : List FatExtent}
    (h : Relocated g m₀ blocked m k xs es)
    (h' : Relocated g m₀ blocked m (k + xs.length) ys fs) :
    Relocated g m₀ blocked m k (xs ++ ys) (es ++ fs) := by
  refine ⟨h.logical.append ?_, ?_, ?_⟩
  · rw [h.length_eq]
    exact h'.logical
  · intro e he
    rw [List.mem_append] at he
    exact he.elim (h.lengths e) (h'.lengths e)
  · rw [physical_append]
    exact List.rel_append h.serves h'.serves

/-- The clusters that two lists moved to follow one another. -/
theorem movedTo_append (es fs : List FatExtent) :
    movedTo g m₀ (es ++ fs) = movedTo g m₀ es ++ movedTo g m₀ fs := by
  rw [movedTo, physical_append, List.filter_append]
  rfl

/-- The clusters that two lists left in place follow one another. -/
theorem inPlace_append (es fs : List FatExtent) :
    inPlace g m₀ (es ++ fs) = inPlace g m₀ es ++ inPlace g m₀ fs := by
  rw [inPlace, physical_append, List.filter_append]
  rfl

/-- No page is new. -/
theorem newPages_self (pages : List ℕ) : newPages pages pages = [] := by simp [newPages]

/-- The new pages of two steps follow one another. -/
theorem newPages_trans {pages pages' pages'' : List ℕ} (h : pages <+: pages')
    (h' : pages' <+: pages'') :
    newPages pages pages'' = newPages pages pages' ++ newPages pages' pages'' := by
  obtain ⟨xs, rfl⟩ := h
  obtain ⟨ys, rfl⟩ := h'
  simp [newPages]

/-- Nothing is owned without an allocation. -/
theorem Owns.nil (s t : State) : Owns s t [] := ⟨List.nodup_nil, by simp, by simp⟩

/-- What is owned does not depend on the order. -/
theorem Owns.perm {s t : State} {xs ys : List ℕ} (h : Owns s t xs) (hp : xs.Perm ys) :
    Owns s t ys :=
  ⟨hp.nodup_iff.mp h.nodup, fun c hc => h.fresh c (hp.mem_iff.mpr hc),
    fun c hc => h.taken c (hp.mem_iff.mpr hc)⟩

/-- What is handed out later is something else. -/
theorem Owns.append {X Y : Set ℕ} {w w' w'' : StreamArchiver} {s t u : State} {xs ys : List ℕ}
    (hst : Extends g X w s w' t) (htu : Extends g Y w' t w'' u) (h : Owns s t xs)
    (h' : Owns t u ys) : Owns s u (xs ++ ys) := by
  refine ⟨List.nodup_append.mpr ⟨h.nodup, h'.nodup, ?_⟩, ?_, ?_⟩
  · intro a ha b hb hab
    subst hab
    have htaken := h.taken a ha
    rw [h'.fresh a hb] at htaken
    exact absurd htaken (by decide)
  · intro c hc
    rw [List.mem_append] at hc
    exact hc.elim (h.fresh c) fun hc => hst.isFree (h'.fresh c hc)
  · intro c hc
    rw [List.mem_append] at hc
    exact hc.elim (fun hc => htu.taken c (h.taken c hc)) (h'.taken c)

/-- Pages and relocated clusters of two consecutive parts of a run. -/
theorem Owns.append_moved {X Y : Set ℕ} {w w' w'' : StreamArchiver} {s t u : State}
    {pages pages' pages'' : List ℕ} {es fs : List FatExtent}
    (hst : Extends g X w s w' t) (htu : Extends g Y w' t w'' u) (hpre : pages <+: pages')
    (hpre' : pages' <+: pages'') (h : Owns s t (newPages pages pages' ++ movedTo g m₀ es))
    (h' : Owns t u (newPages pages' pages'' ++ movedTo g m₀ fs)) :
    Owns s u (newPages pages pages'' ++ movedTo g m₀ (es ++ fs)) := by
  refine (Owns.append hst htu h h').perm ?_
  rw [newPages_trans hpre hpre', movedTo_append]
  simp only [List.append_assoc]
  refine List.Perm.append_left _ ?_
  simp only [← List.append_assoc]
  exact List.Perm.append_right _ List.perm_append_comm

/-- New pages are handed out by the allocator. -/
theorem owns_newPages {pages pages' : List ℕ} {head : Pos} {w' : StreamArchiver}
    {s t : State} (hpre : pages <+: pages') (hw : Writer g m₀ blocked pages' head w' t)
    (hadded : ∀ c ∈ pages', c ∈ pages ∨ isFree s.allocationBitmap c = true) :
    Owns s t (newPages pages pages') := by
  obtain ⟨xs, rfl⟩ := hpre
  have hnodup := hw.nodup
  rw [List.nodup_append] at hnodup
  rw [newPages, List.drop_left]
  refine ⟨hnodup.2.1, ?_, fun c hc => hw.taken c (List.mem_append_right _ hc)⟩
  intro c hc
  refine (hadded c (List.mem_append_right _ hc)).resolve_left fun hold => ?_
  exact hnodup.2.2 c hold c hc rfl

end Lists

section Chains

variable {g : Globals} {m : Mem}

/-- The clusters of a chain are in the data area. -/
theorem ChainFrom.dataCluster {value : ℕ} {chain : List ℕ} (h : ChainFrom g m value chain) :
    ∀ c ∈ chain, DataCluster g c := by
  induction chain generalizing value with
  | nil => simp
  | cons d chain ih =>
    intro c hc
    rcases List.mem_cons.mp hc with rfl | hmem
    · exact h.2.1
    · exact ih h.2.2.2.2 c hmem

/-- The clusters of a chain are in use. -/
theorem ChainFrom.used {value : ℕ} {chain : List ℕ} (h : ChainFrom g m value chain) :
    ∀ c ∈ chain, ¬ FatFree g.metaInfo m c := by
  induction chain generalizing value with
  | nil => simp
  | cons d chain ih =>
    intro c hc
    rcases List.mem_cons.mp hc with rfl | hmem
    · obtain ⟨-, -, -, hmask, hnext⟩ := h
      have hpos : fatEntry g.metaInfo m c ≠ 0 := by
        cases chain with
        | nil =>
          unfold ChainFrom fatEndOfChain at hnext
          omega
        | cons e chain =>
          have hlow := hnext.2.1.1
          rw [hnext.1]
          unfold fatStartIndex at hlow
          omega
      intro hfree
      unfold FatFree isFreeCluster freeCluster at hfree
      rw [beq_iff_eq, clusterEntryMask, show 0x0FFFFFFF = 2 ^ 28 - 1 by norm_num,
        Nat.and_two_pow_sub_one_eq_mod, Nat.mod_eq_of_lt] at hfree
      · exact hpos hfree
      · unfold clusterEntryMask at hmask
        omega
    · exact ih h.2.2.2.2 c hmem

/-- The clusters that the FAT entry `value` leads to are in use, and the last entry ends the chain.
Reserved bits do not matter. -/
def UsedFrom (g : Globals) (m : Mem) : ℕ → List ℕ → Prop
  | value, [] => fatEndOfChain ≤ value
  | value, c :: cs =>
    value = c ∧ DataCluster g c ∧ c < fatEndOfChain ∧ ¬ FatFree g.metaInfo m c ∧
      UsedFrom g m (fatEntry g.metaInfo m c) cs

/-- The clusters in use that are reached from a given cluster; 0 leads to none. -/
def IsUsedChain (g : Globals) (m : Mem) : ℕ → List ℕ → Prop
  | start, [] => start = 0
  | start, c :: cs =>
    start = c ∧ DataCluster g c ∧ ¬ FatFree g.metaInfo m c ∧
      UsedFrom g m (fatEntry g.metaInfo m c) cs

/-- A chain is one of clusters in use. -/
theorem ChainFrom.usedFrom {value : ℕ} {chain : List ℕ} (h : ChainFrom g m value chain) :
    UsedFrom g m value chain := by
  induction chain generalizing value with
  | nil => exact h
  | cons c cs ih =>
    have hused := h.used c (by simp)
    obtain ⟨hvalue, hc, hin, -, hnext⟩ := h
    exact ⟨hvalue, hc, hin, hused, ih hnext⟩

/-- A chain from its start is one of clusters in use. -/
theorem IsChain.usedChain {start : ℕ} {chain : List ℕ} (h : IsChain g m start chain) :
    IsUsedChain g m start chain := by
  rcases h with ⟨hzero, rfl⟩ | ⟨hne, hfrom⟩
  · exact hzero
  · cases chain with
    | nil => exact absurd rfl hne
    | cons c cs =>
      have hused := hfrom.usedFrom
      exact ⟨hused.1, hused.2.1, hused.2.2.2⟩

/-- The clusters of a whole chain are in the data area. -/
theorem IsChain.dataCluster {start : ℕ} {chain : List ℕ} (h : IsChain g m start chain) :
    ∀ c ∈ chain, DataCluster g c := by
  rcases h with ⟨-, rfl⟩ | ⟨-, h⟩
  · simp
  · exact h.dataCluster

/-- No cluster of a chain is free. -/
theorem IsChain.used {start : ℕ} {chain : List ℕ} (h : IsChain g m start chain) :
    ∀ c ∈ chain, ¬ FatFree g.metaInfo m c := by
  rcases h with ⟨-, rfl⟩ | ⟨-, h⟩
  · simp
  · exact h.used

end Chains

/-- The extents in the open segment. -/
structure Listed (g : Globals) (m₀ : Mem) (blocked : List FatExtent) (X : Set ℕ)
    (pages : List ℕ) (head : Pos) (w : StreamArchiver) (s : State) (es : List FatExtent)
    (pages' : List ℕ) (w' : StreamArchiver) (t : State) : Prop where
  opened : Opened g m₀ blocked X pages head w s (es.map fun _ => sizeofFatExtent) pages' w' t
  holds : HoldsCells g pages' t.mem (head.after sizeofHeader) (es.map fatExtentBytes)

/-- What a part of the run did for a piece of the chain. -/
structure Gained (g : Globals) (m₀ : Mem) (blocked : List FatExtent) (X : Set ℕ)
    (pages : List ℕ) (w : StreamArchiver) (s : State) (k : ℕ) (chain : List ℕ)
    (es : List FatExtent) (pages' : List ℕ) (w' : StreamArchiver) (t : State) : Prop where
  pre : pages <+: pages'
  ext : Extends g X w s w' t
  relocated : Stable g X w' t fun m => Relocated g m₀ blocked m k chain es
  inPlace : (inPlace g m₀ es).Sublist chain
  owns : Owns s t (newPages pages pages' ++ movedTo g m₀ es)

section

variable {g : Globals} {m₀ : Mem} {blocked : List FatExtent} {X : Set ℕ}
  {pages pages' pages'' : List ℕ} {head : Pos} {w w' w'' : StreamArchiver} {s t u : State}
  {es : List FatExtent} {k : ℕ}

/-- Nothing is gained for no chain. -/
theorem Gained.nil (g : Globals) (m₀ : Mem) (blocked : List FatExtent) (X : Set ℕ)
    (pages : List ℕ) (w : StreamArchiver) (s : State) (k : ℕ) :
    Gained g m₀ blocked X pages w s k [] [] pages w s := by
  refine ⟨List.prefix_refl _, Extends.refl g X w s, fun _ _ _ => Relocated.nil k,
    List.Sublist.refl _, ?_⟩
  rw [newPages_self]
  exact Owns.nil s s

/-- The pieces of a chain one after the other. -/
theorem Gained.append {xs ys : List ℕ} {fs : List FatExtent}
    (h : Gained g m₀ blocked X pages w s k xs es pages' w' t)
    (h' : Gained g m₀ blocked X pages' w' t (k + xs.length) ys fs pages'' w'' u) :
    Gained g m₀ blocked X pages w s k (xs ++ ys) (es ++ fs) pages'' w'' u := by
  refine ⟨h.pre.trans h'.pre, h.ext.trans h'.ext, ?_, ?_,
    Owns.append_moved h.ext h'.ext h.pre h'.pre h.owns h'.owns⟩
  · exact ((h.relocated.later h'.ext).and h'.relocated).imp fun m hm => hm.1.append hm.2
  · rw [inPlace_append]
    exact h.inPlace.append h'.inPlace

/-- Bytes to be filled in are not in clusters other than pages. -/
theorem OpenCells.not_mem (hg : Accepted g) (hx : OpenCells g pages X w s)
    (hw : Writer g m₀ blocked pages head w s) {c a : ℕ} (hc : DataCluster g c) (hnot : c ∉ pages)
    (hin : InCluster g c a) : a ∉ X := by
  intro ha
  obtain ⟨d, hd, hstart, hstop⟩ := (hx a ha).2
  unfold pageSize at hstop
  have heq := hg.area.inCluster_unique hc (hw.usable d hd).dataCluster hin ⟨by omega, by omega⟩
  exact hnot (heq ▸ hd)

/-- Relocated clusters keep what they hold. -/
theorem Relocated.stable (hg : Accepted g) {chain : List ℕ}
    (hw : Writer g m₀ blocked pages head w s) (hx : OpenCells g pages X w s)
    (h : Relocated g m₀ blocked s.mem k chain es)
    (htaken : ∀ p ∈ physical es, isFree s.allocationBitmap p = false ∧ p ∉ pages) :
    Stable g X w s fun m => Relocated g m₀ blocked m k chain es := by
  refine Stable.intro (B := {a | ∃ p ∈ physical es, InCluster g p a}) ?_ ?_
  · intro a ha
    obtain ⟨p, hp, hin⟩ := ha
    obtain ⟨c, -, hserves⟩ := forall₂_exists_left h.serves p hp
    exact ⟨hw.cluster_settled hg hserves.dataCluster (htaken p hp).1 (htaken p hp).2 hin,
      hx.not_mem hg hw hserves.dataCluster (htaken p hp).2 hin⟩
  · intro m hm
    refine ⟨h.logical, h.lengths, forall₂_imp_of_mem h.serves ?_⟩
    intro c p _ hp hserves
    refine ⟨hserves.dataCluster, hserves.unblocked, ?_⟩
    intro i hi
    rw [hm _ ⟨p, hp, Nat.le_add_right _ _, Nat.add_lt_add_left hi _⟩]
    exact hserves.content i hi

/-- The extents of the open segment fit on a page. -/
theorem Accepted.extent_fits (hg : Accepted g) (es : List FatExtent) :
    ∀ n ∈ es.map (fun _ => sizeofFatExtent), sizeofPage + n ≤ pageSize g := by
  intro n hn
  obtain ⟨_, _, rfl⟩ := List.mem_map.mp hn
  exact hg.element_fits (by decide)

/-- Recorded extents have the same size. -/
@[simp] theorem sizes_fatExtentBytes (es : List FatExtent) :
    sizes (es.map fatExtentBytes) = es.map fun _ => sizeofFatExtent := by
  rw [sizes, List.map_map]
  exact List.map_congr_left fun e _ => length_fatExtentBytes e

/-- The extents in the open segment are appended elements. -/
theorem Listed.appended (h : Listed g m₀ blocked X pages head w s es pages' w' t) :
    Appended g m₀ blocked X pages head w s (es.map fatExtentBytes) pages' w' t :=
  ⟨by rw [sizes_fatExtentBytes]; exact h.opened, h.holds⟩

/-- Appended extents are listed. -/
theorem Appended.listed
    (h : Appended g m₀ blocked X pages head w s (es.map fatExtentBytes) pages' w' t) :
    Listed g m₀ blocked X pages head w s es pages' w' t :=
  ⟨by rw [← sizes_fatExtentBytes]; exact h.opened, h.holds⟩

/-- Extents are elements that fit on a page. -/
theorem Accepted.extents_fit (hg : Accepted g) (es : List FatExtent) :
    ∀ e ∈ es.map fatExtentBytes, sizeofPage + e.length ≤ pageSize g := by
  intro e he
  obtain ⟨d, -, rfl⟩ := List.mem_map.mp he
  rw [length_fatExtentBytes]
  exact hg.element_fits (by decide)

/-- `*reserve_extent(write_stream) = e`. -/
theorem appendExtent_spec (hg : Accepted g)
    (hb : BlockedExtents (dataClusterCount g.bootSector g.metaInfo) blocked) (fuel : ℕ)
    (hw : Writer g m₀ blocked pages head w s) (hf : Fresh pages head w)
    (h : Listed g m₀ blocked X pages head w s es pages' w' t) (e : FatExtent) :
    wp (appendExtent g fuel e w')
      (fun w'' u => ∃ pages'', pages' <+: pages'' ∧
        Listed g m₀ blocked X pages head w s (es ++ [e]) pages'' w'' u ∧
        Extends g X w' t w'' u ∧
        ∀ c ∈ pages'', c ∈ pages' ∨ isFree t.allocationBitmap c = true)
      NoFault t := by
  have hrun : appendExtent g fuel e w' =
      (appendElement g fuel (fatExtentBytes e) w' >>= fun x => pure x.2) := by
    simp only [appendExtent, reserveExtent, appendElement, length_fatExtentBytes, bind_assoc,
      pure_bind]
  rw [hrun, wp_bind]
  refine wp_mono_ok (h.appended.append hg hb fuel hw hf (hg.extents_fit es)
    (hg.extents_fit [e] _ (by simp))) fun x u hx => ?_
  obtain ⟨pages'', hpre, happended, -, hext, hadded⟩ := hx
  rw [wp_pure]
  refine ⟨pages'', hpre, Appended.listed ?_, hext, hadded⟩
  rw [List.map_append]
  exact happended

/-- A cluster in use is marked in the bitmap and is no page. -/
theorem Writer.used (hw : Writer g m₀ blocked pages head w s) {c : ℕ} (hc : DataCluster g c)
    (hused : ¬ FatFree g.metaInfo m₀ c) : isFree s.allocationBitmap c = false ∧ c ∉ pages := by
  refine ⟨?_, fun hmem => hused (hw.usable c hmem).free⟩
  by_contra hfree
  exact hused (hw.alloc.free c hc.2 (by simpa using hfree)).2

/-- A cluster in use serves for itself. -/
theorem Writer.serves_self (hw : Writer g m₀ blocked pages head w s) {c : ℕ}
    (hc : DataCluster g c) (hused : ¬ FatFree g.metaInfo m₀ c)
    (hclear : ∀ b ∈ blocked, c ∉ b.clusters) : Serves g m₀ blocked s.mem c c := by
  refine ⟨hc, hclear, fun i hi => ?_⟩
  exact hw.intact.mem _ (Or.inr ⟨c, hc, hused, Nat.le_add_right _ _, Nat.add_lt_add_left hi _⟩)

/-- The clusters of one extent. -/
theorem physical_singleton (e : FatExtent) : physical [e] = e.clusters := by simp [physical]

/-- A fragment outside the blocked extents is recorded where it is. -/
theorem appendInPlace_spec (hg : Accepted g)
    (hb : BlockedExtents (dataClusterCount g.bootSector g.metaInfo) blocked) (fuel : ℕ)
    (hw : Writer g m₀ blocked pages head w s) (hf : Fresh pages head w)
    (hx : OpenCells g pages X w s)
    (h : Listed g m₀ blocked X pages head w s es pages' w' t) (e : FatExtent)
    (hlength : 1 ≤ e.length ∧ e.length ≤ ext4MaxInitExtentLen)
    (hchain : ∀ c ∈ e.clusters, DataCluster g c ∧ ¬ FatFree g.metaInfo m₀ c)
    (hclear : ∀ c ∈ e.clusters, ∀ b ∈ blocked, c ∉ b.clusters) :
    wp (appendExtent g fuel e w')
      (fun w'' u => ∃ pages'',
        Listed g m₀ blocked X pages head w s (es ++ [e]) pages'' w'' u ∧
        Gained g m₀ blocked X pages' w' t e.logicalStart e.clusters [e] pages'' w'' u)
      NoFault t := by
  refine wp_mono_ok (appendExtent_spec hg hb fuel hw hf h e) ?_
  intro w'' u hu
  obtain ⟨pages'', hpre, hlisted, hext, hadded⟩ := hu
  have hwu := hlisted.opened.writer
  refine ⟨pages'', hlisted, hpre, hext, ?_, ?_, ?_⟩
  · refine Relocated.stable hg hwu (hx.later hlisted.opened.ext hlisted.opened.pre) ?_ ?_
    · refine ⟨⟨rfl, trivial⟩, by simpa using hlength, ?_⟩
      rw [physical_singleton, List.forall₂_same]
      exact fun c hc => hwu.serves_self (hchain c hc).1 (hchain c hc).2 (hclear c hc)
    · rw [physical_singleton]
      exact fun c hc => hwu.used (hchain c hc).1 (hchain c hc).2
  · rw [inPlace, physical_singleton]
    exact List.filter_sublist
  · have hnone : movedTo g m₀ [e] = [] := by
      rw [movedTo, physical_singleton, List.filter_eq_nil_iff]
      exact fun c hc => (hchain c hc).2
    rw [hnone, List.append_nil]
    exact owns_newPages hpre hwu hadded

/-- Allocating settles more and changes no byte. -/
theorem extends_of_allocOnly (honly : AllocOnly s t)
    (hmono : ∀ c, isFree s.allocationBitmap c = false → isFree t.allocationBitmap c = false) :
    Extends g X w s w t := by
  refine ⟨?_, fun a _ _ => by rw [honly.mem], hmono, honly.ext4⟩
  intro a ha
  refine ⟨?_, ha.2⟩
  cases ha.1 with
  | inl hlow => exact Or.inl hlow
  | inr hused =>
    obtain ⟨c, hc, htaken, hin⟩ := hused
    exact Or.inr ⟨c, hc, hmono c htaken, hin⟩

/-- Allocating frees no cluster. -/
theorem Allocated.mono {e : FatExtent} (h : Allocated g m₀ blocked s t e) (c : ℕ)
    (hc : isFree s.allocationBitmap c = false) : isFree t.allocationBitmap c = false := by
  rw [h.marked c, hc, Bool.false_and]

/-- What was allocated is taken. -/
theorem Allocated.taken {e : FatExtent} (h : Allocated g m₀ blocked s t e) {c : ℕ}
    (hc : c ∈ e.clusters) : isFree t.allocationBitmap c = false := by
  rw [h.marked c, List.contains_iff_mem.mpr hc]
  simp

/-- After the copy the allocated clusters hold what the source held at the start. -/
theorem serves_of_copy (hg : Accepted g) (hw : Writer g m₀ blocked pages head w s) {e : FatExtent}
    (he : ∀ c ∈ e.clusters, Usable g m₀ blocked c) {a : ℕ}
    (ha : ∀ c ∈ List.range' a e.length, DataCluster g c ∧ ¬ FatFree g.metaInfo m₀ c) :
    List.Forall₂ (Serves g m₀ blocked
        (s.mem.copy (clusterStart g.metaInfo e.physicalStart) (clusterStart g.metaInfo a)
          (e.length * g.metaInfo.clusterSize)))
      (List.range' a e.length) e.clusters := by
  rw [List.forall₂_iff_get]
  refine ⟨by simp, fun j hj hj' => ?_⟩
  rw [List.length_range'] at hj
  have hsrc := ha (a + j) (by rw [List.mem_range'_1]; omega)
  have hsrc₀ := ha a (by rw [List.mem_range'_1]; omega)
  have hdst := he (e.physicalStart + j) (by rw [FatExtent.mem_clusters, FatExtent.stop]; omega)
  have hdst₀ := he e.physicalStart (by rw [FatExtent.mem_clusters, FatExtent.stop]; omega)
  have hget : (List.range' a e.length).get ⟨j, by simpa using hj⟩ = a + j := by simp
  have hget' : e.clusters.get ⟨j, hj'⟩ = e.physicalStart + j := by simp [FatExtent.clusters]
  rw [hget, hget']
  refine ⟨hdst.dataCluster, hdst.unblocked, fun i hi => ?_⟩
  have hin : j * g.metaInfo.clusterSize + i < e.length * g.metaInfo.clusterSize := by
    have hmul := Nat.mul_le_mul_right g.metaInfo.clusterSize (Nat.succ_le_of_lt hj)
    rw [Nat.succ_eq_add_one, Nat.add_mul, Nat.one_mul] at hmul
    omega
  rw [hg.start_add hdst₀.dataCluster hdst.dataCluster, Nat.add_assoc, Mem.copy_apply hin,
    ← Nat.add_assoc, ← hg.start_add hsrc₀.1 hsrc.1]
  exact hw.intact.mem _ (Or.inr ⟨a + j, hsrc.1, hsrc.2, Nat.le_add_right _ _,
    Nat.add_lt_add_left hi _⟩)

/-- A store to clusters that are no pages keeps the extents in the open segment. -/
theorem Listed.stored_clusters (hg : Accepted g) (hw : Writer g m₀ blocked pages head w s)
    (h : Listed g m₀ blocked X pages head w s es pages' w' t) {p n : ℕ} {m : Mem}
    (hwriter : Writer g m₀ blocked pages' head w' (t.stored p n m))
    (hbytes : ∀ a, p ≤ a → a < p + n → ∃ c, DataCluster g c ∧ c ∉ pages' ∧ InCluster g c a ∧
      isFree s.allocationBitmap c = true)
    (hm : Mem.SameOutside p n t.mem m) :
    Listed g m₀ blocked X pages head w s es pages' w' (t.stored p n m) := by
  have hfits := hg.extent_fits es
  refine ⟨h.opened.stored hwriter ?_ hm, h.holds.congr ?_⟩
  · intro a hlow hhigh ha
    obtain ⟨c, hc, -, hin, hfree⟩ := hbytes a hlow hhigh
    exact absurd ha.1 (not_taken_of_isFree hg hc hfree hin)
  · intro a ha
    rw [sizes_fatExtentBytes] at ha
    obtain ⟨d, hd, hstart, hstop⟩ := h.opened.cell_slot hw hfits ha
    refine hm a ?_
    by_contra hin
    obtain ⟨c, hc, hnot, hca, -⟩ := hbytes a (by omega) (by omega)
    unfold pageSize at hstop
    have heq := hg.area.inCluster_unique hc (h.opened.writer.usable d hd).dataCluster hca
      ⟨by omega, by omega⟩
    exact hnot (heq ▸ hd)

/-- Allocating keeps the extents in the open segment. -/
theorem Listed.of_allocated (h : Listed g m₀ blocked X pages head w s es pages' w' t) {e : FatExtent}
    (honly : AllocOnly t u) (hinv : AllocatorInv g m₀ blocked u)
    (he : Allocated g m₀ blocked t u e) :
    Listed g m₀ blocked X pages head w s es pages' w' u := by
  refine ⟨⟨h.opened.pre, h.opened.writer.of_allocated honly hinv he, h.opened.pos, h.opened.index,
    h.opened.ext.trans (extends_of_allocOnly honly he.mono), h.opened.added⟩, ?_⟩
  rw [honly.mem]
  exact h.holds

/-- An allocated extent that was recorded and filled by a copy of clusters in use. -/
theorem Listed.moved (hg : Accepted g) (hw : Writer g m₀ blocked pages head w s)
    (hx : OpenCells g pages X w s)
    (h : Listed g m₀ blocked X pages head w s es pages' w' t) {t₁ : State} {e : FatExtent}
    (honly : AllocOnly t t₁) (he : Allocated g m₀ blocked t t₁ e)
    (hlength : e.length ≤ ext4MaxInitExtentLen) (hpre : pages' <+: pages'')
    (hu : Listed g m₀ blocked X pages head w s (es ++ [{ e with logicalStart := k }]) pages'' w'' u)
    (hext : Extends g X w' t₁ w'' u)
    (hadded : ∀ c ∈ pages'', c ∈ pages' ∨ isFree t₁.allocationBitmap c = true) {a : ℕ}
    (ha : ∀ c ∈ List.range' a e.length, DataCluster g c ∧ ¬ FatFree g.metaInfo m₀ c) :
    Listed g m₀ blocked X pages head w s (es ++ [{ e with logicalStart := k }]) pages'' w''
      (u.stored (clusterStart g.metaInfo e.physicalStart) (e.length * g.metaInfo.clusterSize)
        (u.mem.copy (clusterStart g.metaInfo e.physicalStart) (clusterStart g.metaInfo a)
          (e.length * g.metaInfo.clusterSize))) ∧
    Gained g m₀ blocked X pages' w' t k (List.range' a e.length)
      [{ e with logicalStart := k }] pages'' w''
      (u.stored (clusterStart g.metaInfo e.physicalStart) (e.length * g.metaInfo.clusterSize)
        (u.mem.copy (clusterStart g.metaInfo e.physicalStart) (clusterStart g.metaInfo a)
          (e.length * g.metaInfo.clusterSize))) := by
  have hsame := Mem.sameOutside_copy u.mem (clusterStart g.metaInfo e.physicalStart)
    (clusterStart g.metaInfo a) (e.length * g.metaInfo.clusterSize)
  have hnew : ∀ c ∈ e.clusters, c ∉ pages'' := by
    intro c hc hmem
    rcases hadded c hmem with hold | hfree
    · have htaken := h.opened.writer.taken c hold
      rw [he.fresh c hc] at htaken
      exact absurd htaken (by decide)
    · rw [he.taken hc] at hfree
      exact absurd hfree (by decide)
  have hbytes : ∀ x, clusterStart g.metaInfo e.physicalStart ≤ x →
      x < clusterStart g.metaInfo e.physicalStart + e.length * g.metaInfo.clusterSize →
      ∃ c ∈ e.clusters, InCluster g c x := fun x hlow hhigh => he.byte_cluster hg hlow hhigh
  have hwriter := hu.opened.writer.stored_allocated hg he.usable hnew hbytes le_rfl hsame
  have hlisted := hu.stored_clusters hg hw hwriter (by
    intro x hlow hhigh
    obtain ⟨c, hc, hin⟩ := hbytes x hlow hhigh
    exact ⟨c, (he.usable c hc).dataCluster, hnew c hc, hin, h.opened.ext.isFree (he.fresh c hc)⟩)
    hsame
  have hphysical : physical [{ e with logicalStart := k }] = e.clusters := physical_singleton _
  have hfree : ∀ c ∈ e.clusters, FatFree g.metaInfo m₀ c := fun c hc => (he.usable c hc).free
  have hmovedTo : movedTo g m₀ [{ e with logicalStart := k }] = e.clusters := by
    rw [movedTo, hphysical, List.filter_eq_self]
    exact hfree
  have hinPlace : inPlace g m₀ [{ e with logicalStart := k }] = [] := by
    rw [inPlace, hphysical, List.filter_eq_nil_iff]
    intro c hc
    rw [show isFreeCluster (fatEntry g.metaInfo m₀ c) = true from hfree c hc]
    decide
  have hallocate : Extends g X w' t w' t₁ := extends_of_allocOnly honly he.mono
  refine ⟨hlisted, hpre, ?_, ?_, ?_, ?_⟩
  · refine (hallocate.trans hext).stored ?_ hsame
    intro x hlow hhigh hsettled
    obtain ⟨c, hc, hin⟩ := hbytes x hlow hhigh
    exact absurd hsettled.1
      (not_taken_of_isFree hg (he.usable c hc).dataCluster (he.fresh c hc) hin)
  · refine Relocated.stable hg hwriter (hx.later hlisted.opened.ext hlisted.opened.pre) ?_ ?_
    · refine ⟨⟨rfl, trivial⟩, by simpa using ⟨he.positive, hlength⟩, ?_⟩
      rw [hphysical]
      exact serves_of_copy hg hu.opened.writer he.usable ha
    · rw [hphysical]
      exact fun p hp => ⟨hext.taken p (he.taken hp), hnew p hp⟩
  · rw [hinPlace]
    exact List.nil_sublist _
  · -- first the clusters, then perhaps a page for the record
    have hcopy : Extends g Set.univ w' t₁ w'' (u.stored (clusterStart g.metaInfo e.physicalStart)
        (e.length * g.metaInfo.clusterSize)
        (u.mem.copy (clusterStart g.metaInfo e.physicalStart) (clusterStart g.metaInfo a)
          (e.length * g.metaInfo.clusterSize))) :=
      (hext.mono (Set.subset_univ X)).stored (fun _ _ _ _ => Set.mem_univ _) hsame
    have hclusters : Owns t t₁ e.clusters :=
      ⟨e.nodup_clusters, he.fresh, fun c hc => he.taken hc⟩
    rw [hmovedTo]
    exact (Owns.append hallocate hcopy hclusters (owns_newPages hpre hwriter hadded)).perm
      List.perm_append_comm

/-- Copying an extent away: every round moves a prefix of what is left. -/
theorem resettleFrom_spec (hg : Accepted g)
    (hb : BlockedExtents (dataClusterCount g.bootSector g.metaInfo) blocked)
    (hw : Writer g m₀ blocked pages head w s) (hf : Fresh pages head w)
    (hx : OpenCells g pages X w s) {input : FatExtent}
    (hlength : input.length ≤ ext4MaxInitExtentLen)
    (hsize : input.length * g.metaInfo.clusterSize < 2 ^ 32)
    (hchain : ∀ c ∈ input.clusters, DataCluster g c ∧ ¬ FatFree g.metaInfo m₀ c)
    (hlogical : input.logicalStart + input.length < 2 ^ 32) (fuel i : ℕ) (hi : i ≤ input.length)
    (h : Listed g m₀ blocked X pages head w s es pages' w' t) :
    wp (resettleFrom g input fuel i w')
      (fun w'' u => ∃ pages'' fs,
        Listed g m₀ blocked X pages head w s (es ++ fs) pages'' w'' u ∧
        Gained g m₀ blocked X pages' w' t (input.logicalStart + i)
          (List.range' (input.physicalStart + i) (input.length - i)) fs pages'' w'' u)
      NoFault t := by
  induction fuel generalizing i es pages' w' t with
  | zero => exact nofun
  | succ fuel ih =>
    rw [resettleFrom]
    refine wp_ite (fun hlt => ?_) (fun hge => ?_)
    · have hbits : ext4MaxInitExtentLen = 32768 := rfl
      have hcount := hg.dataClusterCount_le
      have hpiece : ∀ c ∈ List.range' (input.physicalStart + i) (input.length - i),
          DataCluster g c ∧ ¬ FatFree g.metaInfo m₀ c := by
        intro c hc
        rw [List.mem_range'_1] at hc
        refine hchain c ?_
        rw [FatExtent.mem_clusters, FatExtent.stop]
        omega
      have hsource : u32 (input.physicalStart + i) = input.physicalStart + i := by
        have hlast := (hpiece (input.physicalStart + i) (by rw [List.mem_range'_1]; omega)).1.2
        exact u32_of_lt (by omega)
      simp only [wp_bind, wp_memcpy, hsource,
        u32_of_lt (show input.logicalStart + i < 2 ^ 32 by omega)]
      refine wp_mono (allocateExtent_spec hb (by omega) (by omega) fuel h.opened.writer.alloc) ?_
        (fun _ _ h => h.1)
      intro e t₁ he
      obtain ⟨hinv, honly, hshort, halloc⟩ := he
      have hcopied : u32 (e.length * g.metaInfo.clusterSize) =
          e.length * g.metaInfo.clusterSize := by
        have hmul := Nat.mul_le_mul_right g.metaInfo.clusterSize
          (show e.length ≤ input.length by omega)
        exact u32_of_lt (by omega)
      rw [hcopied, u16_of_lt (by omega)]
      refine wp_mono_ok (appendExtent_spec hg hb fuel hw hf (h.of_allocated honly hinv halloc)
        { e with logicalStart := input.logicalStart + i }) ?_
      intro w'' u hu
      obtain ⟨pages'', hpre, hlisted, hext, hadded⟩ := hu
      obtain ⟨hlisted', hgained⟩ := h.moved hg hw hx honly halloc (by omega) hpre hlisted hext
        hadded (a := input.physicalStart + i) (by
          intro c hc
          rw [List.mem_range'_1] at hc
          exact hpiece c (by rw [List.mem_range'_1]; omega))
      refine wp_mono_ok (ih (i + e.length) (by omega) hlisted') ?_
      intro w₃ v hv
      obtain ⟨pages₃, fs, hlisted₃, hgained₃⟩ := hv
      refine ⟨pages₃, { e with logicalStart := input.logicalStart + i } :: fs, ?_, ?_⟩
      · rw [List.append_assoc] at hlisted₃
        exact hlisted₃
      · have hsplit : List.range' (input.physicalStart + i) e.length ++
            List.range' (input.physicalStart + (i + e.length)) (input.length - (i + e.length)) =
            List.range' (input.physicalStart + i) (input.length - i) := by
          rw [← Nat.add_assoc, List.range'_append_1]
          congr 1
          omega
        rw [← hsplit]
        refine hgained.append ?_
        rw [List.length_range', Nat.add_assoc]
        exact hgained₃
    · have hdone : input.length - i = 0 := by omega
      rw [hdone]
      refine ⟨pages', [], ?_, ?_⟩
      · rw [List.append_nil]
        exact h
      · exact Gained.nil g m₀ blocked X pages' w' t _

end

end OfsConvert
