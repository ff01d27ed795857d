import OfsConvert.Aggregation
import OfsConvert.MetadataReader

/-!
# Reading the stream and the directory tables

A reader walks over the same positions as the writer did. What it meets is stated without the
memory: a position in the stream, the clusters an iterator is still to return, the entries a
table is still to return. `StreamAt` and `DirAt` are the facts about the memory that make the
next step true.
-/

namespace OfsConvert

/-- The memory links the pages, which are data clusters. -/
structure StreamAt (g : Globals) (pages : List ℕ) (m : Mem) : Prop where
  data : ∀ c ∈ pages, DataCluster g c
  links : ∀ i, i + 1 < pages.length →
    m.readLE (clusterStart g.metaInfo (pages.getD i 0)) 8 =
      clusterStart g.metaInfo (pages.getD (i + 1) 0)

/-- A read stream at a position, behind `i` elements of the segment at `head`. -/
structure Reader (g : Globals) (pages : List ℕ) (head p : Pos) (i : ℕ) (r : StreamArchiver) :
    Prop where
  page : r.page = clusterStart g.metaInfo (pages.getD p.index 0)
  offset : r.offsetInPage = p.offset
  index : r.elementIndex = i
  header : r.header = head.addr g pages

/-- The write stream of a fresh segment is a read stream of that segment. -/
theorem Fresh.reader {g : Globals} {m₀ : Mem} {blocked : List FatExtent} {pages : List ℕ}
    {head : Pos} {w : StreamArchiver} {s : State} (hw : Writer g m₀ blocked pages head w s)
    (hf : Fresh pages head w) : Reader g pages head (head.after sizeofHeader) 0 w := by
  have hpos := hf.pos
  refine ⟨?_, ?_, hf.index, hw.header⟩
  · rw [hw.page, ← hpos]
    rfl
  · rw [← hpos]
    rfl

section

variable {g : Globals} {pages pages' : List ℕ} {head p : Pos} {i : ℕ} {r : StreamArchiver}
  {s : State} {E : Halt → State → Prop}

/-- A position determines its reader. -/
theorem Reader.eq {r' : StreamArchiver} (h : Reader g pages head p i r)
    (h' : Reader g pages head p i r') : r = r' := by
  cases r
  cases r'
  simp only [StreamArchiver.mk.injEq]
  exact ⟨h.page.trans h'.page.symm, h.offset.trans h'.offset.symm, h.index.trans h'.index.symm,
    h.header.trans h'.header.symm⟩

/-- A reader is the same when pages are added. -/
theorem Reader.extend (h : Reader g pages head p i r) (hpre : pages <+: pages')
    (hp : p.index < pages.length) (hhead : head.index < pages.length) :
    Reader g pages' head p i r := by
  obtain ⟨rest, rfl⟩ := hpre
  refine ⟨?_, h.offset, h.index, ?_⟩
  · rw [h.page, List.getD_append _ _ _ _ hp]
  · rw [h.header, Pos.addr_extend (List.prefix_append _ _) hhead]

/-- Going to the next element of the stream. -/
theorem advanceInPage_read (hg : ClusterArea g) (hs : StreamAt g pages s.mem)
    (hr : Reader g pages head p i r) {len : ℕ}
    (hindex : (p.cell (pageSize g) len).index < pages.length) :
    wp (advanceInPage g 0 false len r)
      (fun x t => t = s ∧ x.1 = (p.cell (pageSize g) len).addr g pages ∧
        Reader g pages head ((p.cell (pageSize g) len).after len) i x.2)
      E s := by
  have hp : p.index < pages.length := (Pos.before_refl p).cell.index_le.trans_lt hindex
  have hmem : pages.getD p.index 0 ∈ pages := by
    rw [List.getD_eq_getElem _ _ hp]
    exact List.getElem_mem hp
  have hpage := hg.clusterStart_pos (hs.data _ hmem)
  rw [advanceInPage, hr.offset]
  refine wp_ite (fun hnew => ?_) (fun hroom => ?_)
  · have hcell : p.cell (pageSize g) len = ⟨p.index + 1, sizeofPage⟩ := if_pos hnew
    rw [hcell] at hindex ⊢
    simp only [Bool.false_eq_true, if_false, wp_bind, wp_notNull, wp_getMem, wp_pure]
    refine ⟨fun hnull => absurd hnull (by rw [hr.page]; omega), fun _ => ?_⟩
    rw [hr.page, hs.links _ hindex]
    exact ⟨trivial, rfl, rfl, rfl, hr.index, hr.header⟩
  · have hcell : p.cell (pageSize g) len = p := if_neg hroom
    rw [hcell, wp_pure]
    refine ⟨rfl, ?_, hr.page, rfl, hr.index, hr.header⟩
    rw [hr.page]
    rfl

/-- The header of a read stream is no null pointer. -/
theorem Reader.header_ne (hg : ClusterArea g) (hs : StreamAt g pages s.mem)
    (hr : Reader g pages head p i r) (hhead : head.index < pages.length) : r.header ≠ 0 := by
  have hmem : pages.getD head.index 0 ∈ pages := by
    rw [List.getD_eq_getElem _ _ hhead]
    exact List.getElem_mem hhead
  have hpos := hg.clusterStart_pos (hs.data _ hmem)
  rw [hr.header, Pos.addr]
  omega

/-- `getNext` in front of an element. -/
theorem getNext_cons (hg : ClusterArea g) (hs : StreamAt g pages s.mem)
    (hr : Reader g pages head p i r) (hhead : head.index < pages.length) {count : ℕ} (size : ℕ)
    (hcount : s.mem.readLE (head.addr g pages) sizeofHeader = count) (hi : i < count)
    (hsmall : count < 2 ^ 64) (hindex : (p.cell (pageSize g) size).index < pages.length) :
    wp (getNext g size r)
      (fun x t => t = s ∧ x.1 = (p.cell (pageSize g) size).addr g pages ∧
        Reader g pages head ((p.cell (pageSize g) size).after size) (i + 1) x.2)
      E s := by
  have hnext : u64 (r.elementIndex + 1) = i + 1 := by
    rw [hr.index]
    exact u64_of_lt (by omega)
  have hmore : ¬ s.mem.readLE r.header 8 < i + 1 := by
    unfold sizeofHeader at hcount
    rw [hr.header]
    omega
  have hr' : Reader g pages head p (i + 1) { r with elementIndex := i + 1 } :=
    ⟨hr.page, hr.offset, rfl, hr.header⟩
  simp only [getNext, iterateStreamArchiver, segmentEnds, hnext, wp_bind, true_and, Nat.one_pos,
    if_true, wp_notNull, wp_getMem, wp_pure, hmore, decide_false, Bool.false_eq_true,
    if_false]
  refine ⟨fun hnull => absurd hnull (hr.header_ne hg hs hhead), fun _ => ?_⟩
  exact advanceInPage_read hg hs hr' hindex

/-- `getNext` behind the last element goes to the next segment. -/
theorem getNext_nil (hg : ClusterArea g) (hs : StreamAt g pages s.mem)
    (hr : Reader g pages head p i r) (hhead : head.index < pages.length) {count : ℕ}
    (hcount : s.mem.readLE (head.addr g pages) sizeofHeader = count) (hi : i = count)
    (hsmall : count + 1 < 2 ^ 64) (size : ℕ)
    (hindex : (p.cell (pageSize g) sizeofHeader).index < pages.length) :
    wp (getNext g size r)
      (fun x t => t = s ∧ x.1 = 0 ∧
        Reader g pages (p.cell (pageSize g) sizeofHeader)
          ((p.cell (pageSize g) sizeofHeader).after sizeofHeader) 0 x.2)
      E s := by
  have hnext : u64 (r.elementIndex + 1) = count + 1 := by
    rw [hr.index, hi]
    exact u64_of_lt hsmall
  have hmore : s.mem.readLE r.header 8 < count + 1 := by
    unfold sizeofHeader at hcount
    rw [hr.header]
    omega
  have hr' : Reader g pages head p 0 { r with elementIndex := 0 } :=
    ⟨hr.page, hr.offset, rfl, hr.header⟩
  simp only [getNext, iterateStreamArchiver, segmentEnds, hnext, wp_bind, true_and, Nat.one_pos,
    if_true, wp_notNull, wp_getMem, wp_pure, hmore, decide_true]
  refine ⟨fun hnull => absurd hnull (hr.header_ne hg hs hhead), fun _ => ?_⟩
  refine wp_mono_ok (advanceInPage_read hg hs hr' hindex) ?_
  intro x t hx
  obtain ⟨ht, haddr, hreader⟩ := hx
  exact ⟨ht, hreader.page, hreader.offset, hreader.index, haddr⟩

end

/-- Extents whose fields fit into the structure. -/
structure FatExtent.Typed (e : FatExtent) : Prop where
  logicalStart : e.logicalStart < 2 ^ 32
  length : e.length < 2 ^ 16
  stop : e.stop ≤ 2 ^ 32
  positive : 1 ≤ e.length

/-- The start of an extent has 32 bits. -/
theorem FatExtent.Typed.physicalStart {e : FatExtent} (h : e.Typed) :
    e.physicalStart < 2 ^ 32 := by
  have hstop := h.stop
  have hpos := h.positive
  unfold FatExtent.stop at hstop
  omega

/-- A stored extent reads back. -/
theorem fatExtentAt_eq {m : Mem} {p : ℕ} {e : FatExtent} (he : e.Typed)
    (h : m.read p sizeofFatExtent = fatExtentBytes e) : fatExtentAt m p = e := by
  have hphysical := he.physicalStart
  have hpart : ∀ i k, i + k ≤ sizeofFatExtent →
      m.read (p + i) k = ((fatExtentBytes e).drop i).take k := by
    intro i k hik
    rw [← h, Mem.read_drop_take _ _ _ _ _ hik]
  have hlogical : m.readLE p 4 = e.logicalStart := by
    have h0 := hpart 0 4 (by decide)
    rw [Nat.add_zero] at h0
    have hbytes : ((fatExtentBytes e).drop 0).take 4 = leBytes 4 e.logicalStart := by
      rw [List.drop_zero, fatExtentBytes, List.append_assoc, List.append_assoc]
      exact List.take_left' (length_leBytes _ _)
    rw [Mem.readLE, h0, hbytes, leNat_leBytes_of_lt (by have := he.logicalStart; omega)]
  have hlength : m.readLE (p + 4) 2 = e.length := by
    have hbytes : ((fatExtentBytes e).drop 4).take 2 = leBytes 2 e.length := by
      rw [fatExtentBytes, List.append_assoc, List.append_assoc,
        List.drop_left' (length_leBytes _ _)]
      exact List.take_left' (length_leBytes _ _)
    rw [Mem.readLE, hpart 4 2 (by decide), hbytes,
      leNat_leBytes_of_lt (by have := he.length; omega)]
  have hstart : m.readLE (p + 8) 4 = e.physicalStart := by
    have hbytes : ((fatExtentBytes e).drop 8).take 4 = leBytes 4 e.physicalStart := by
      rw [fatExtentBytes, List.drop_left' (by simp), List.take_of_length_le (by simp)]
    rw [Mem.readLE, hpart 8 4 (by decide), hbytes, leNat_leBytes_of_lt (by omega)]
  rw [fatExtentAt, hlogical, hlength, hstart]

/-- A segment of extents in the memory, with its pages. -/
structure ExtentsAt (g : Globals) (pages : List ℕ) (m : Mem) (head : Pos) (es : List FatExtent) :
    Prop where
  stream : StreamAt g pages m
  holds : HoldsSegment g pages m head (es.map fatExtentBytes)
  inside : (nextHead (pageSize g) head (es.map fun _ => sizeofFatExtent)).index < pages.length
  typed : ∀ e ∈ es, e.Typed
  short : es.length + 1 < 2 ^ 64

/-- The position behind the first extents of a segment. -/
def extentsEnd (g : Globals) (head : Pos) (es : List FatExtent) : Pos :=
  cellsEnd (pageSize g) (head.after sizeofHeader) (es.map fun _ => sizeofFatExtent)

/-- A read stream that has not read anything of the segment behind a segment of extents. -/
def BehindExtents (g : Globals) (pages : List ℕ) (head : Pos) (es : List FatExtent)
    (r : StreamArchiver) : Prop :=
  let next := nextHead (pageSize g) head (es.map fun _ => sizeofFatExtent)
  Reader g pages next (next.after sizeofHeader) 0 r

/-- The clusters that an iterator over the extents `es` at `head` is still to return. Once it has
run out, its stream stands in front of the next segment. -/
inductive IterAt (g : Globals) (pages : List ℕ) (head : Pos) (es : List FatExtent) :
    ExtentIterator → List ℕ → Prop where
  | done {it : ExtentIterator} (hnull : it.currentExtent = 0)
      (hbehind : BehindExtents g pages head es it.extentStream) :
      IterAt g pages head es it []
  | inExtent {it : ExtentIterator} (before : List FatExtent) (e : FatExtent)
      (behind : List FatExtent) (hes : es = before ++ e :: behind)
      (hcurrent : it.currentExtent =
        ((extentsEnd g head before).cell (pageSize g) sizeofFatExtent).addr g pages)
      (hcluster : it.currentCluster ≤ e.length)
      (hreader : Reader g pages head (extentsEnd g head (before ++ [e])) (before.length + 1)
        it.extentStream) :
      IterAt g pages head es it (e.clusters.drop it.currentCluster ++ physical behind)

section

variable {g : Globals} {pages : List ℕ} {head : Pos} {es : List FatExtent} {s : State}

/-- The position behind one more extent. -/
theorem extentsEnd_append (before : List FatExtent) (e : FatExtent) :
    extentsEnd g head (before ++ [e]) =
      ((extentsEnd g head before).cell (pageSize g) sizeofFatExtent).after sizeofFatExtent := by
  rw [extentsEnd, List.map_append, cellsEnd_append]
  rfl

/-- The header of the extents is on one of the pages. -/
theorem ExtentsAt.head_index {m : Mem} (h : ExtentsAt g pages m head es) :
    head.index < pages.length := (head_before_nextHead head _).index_le.trans_lt h.inside

/-- Every extent of the segment has its place. -/
theorem ExtentsAt.cell_index {m : Mem} {before behind : List FatExtent} {e : FatExtent}
    (h : ExtentsAt g pages m head es) (hes : es = before ++ e :: behind) :
    ((extentsEnd g head before).cell (pageSize g) sizeofFatExtent).index < pages.length := by
  refine Nat.lt_of_le_of_lt ?_ h.inside
  have hafter := Pos.before_after ((extentsEnd g head before).cell (pageSize g) sizeofFatExtent)
    sizeofFatExtent
  have hend := (hafter.cellsEnd (P := pageSize g) (behind.map fun _ => sizeofFatExtent)).cell
    (P := pageSize g) (n := sizeofHeader)
  rw [hes, nextHead, List.map_append, cellsEnd_append, List.map_cons, cellsEnd]
  exact hend.index_le

/-- The extent under the iterator. -/
theorem ExtentsAt.extentAt {m : Mem} {before behind : List FatExtent} {e : FatExtent}
    (h : ExtentsAt g pages m head es) (hes : es = before ++ e :: behind) :
    fatExtentAt m (((extentsEnd g head before).cell (pageSize g) sizeofFatExtent).addr g pages) =
      e := by
  have hcells := h.holds.cells
  rw [hes, List.map_append, HoldsCells_append, sizes_fatExtentBytes, List.map_cons] at hcells
  have hread := hcells.2.1
  rw [length_fatExtentBytes] at hread
  exact fatExtentAt_eq (h.typed e (by simp [hes])) hread

/-- `init` returns an iterator over the extents behind those already read. -/
theorem ExtentIterator.init_spec {E : Halt → State → Prop} (hg : ClusterArea g)
    (h : ExtentsAt g pages s.mem head es) (before behind : List FatExtent)
    (hes : es = before ++ behind) {r : StreamArchiver}
    (hr : Reader g pages head (extentsEnd g head before) before.length r) :
    wp (ExtentIterator.init g r)
      (fun it t => t = s ∧ it.currentCluster = 0 ∧ IterAt g pages head es it (physical behind))
      E s := by
  have hcount := h.holds.count
  have hshort := h.short
  rw [List.length_map] at hcount
  simp only [ExtentIterator.init, wp_bind, wp_pure]
  cases behind with
  | nil =>
    rw [List.append_nil] at hes
    subst hes
    refine wp_mono_ok (getNext_nil hg h.stream hr h.head_index hcount rfl (by omega) _ h.inside) ?_
    intro x t hx
    exact ⟨hx.1, trivial, IterAt.done hx.2.1 hx.2.2⟩
  | cons e behind =>
    have hlt : before.length < es.length := by simp [hes]
    refine wp_mono_ok (getNext_cons hg h.stream hr h.head_index _ hcount hlt (by omega)
      (h.cell_index hes)) ?_
    intro x t hx
    obtain ⟨ht, haddr, hreader⟩ := hx
    refine ⟨ht, trivial, ?_⟩
    rw [← extentsEnd_append] at hreader
    exact @IterAt.inExtent g pages head es ⟨x.1, 0, x.2⟩ before e behind hes haddr
      (Nat.zero_le _) hreader

/-- `next_cluster_no` returns the clusters of the extents in order, then 0. Extents are not empty,
so it goes to the next one at most once. -/
theorem nextClusterNo_spec {E : Halt → State → Prop} (hg : ClusterArea g)
    (h : ExtentsAt g pages s.mem head es) (fuel : ℕ) {it : ExtentIterator} {cs : List ℕ}
    (hfuel : E .fuel s ∨ 1 < fuel ∨ 0 < fuel ∧ it.currentCluster = 0)
    (hit : IterAt g pages head es it cs) :
    wp (nextClusterNo g fuel it)
      (fun x t => t = s ∧ x.1 = cs.headD 0 ∧ IterAt g pages head es x.2 cs.tail ∧
        (cs = [] → BehindExtents g pages head es x.2.extentStream))
      E s := by
  induction fuel generalizing it cs with
  | zero => exact hfuel.resolve_right (by omega)
  | succ fuel ih =>
    rw [nextClusterNo]
    cases hit with
    | done hnull hbehind =>
      rw [if_pos hnull, wp_pure]
      exact ⟨rfl, rfl, IterAt.done hnull hbehind, fun _ => hbehind⟩
    | inExtent before e behind hes hcurrent hcluster hreader =>
      have hextent := h.extentAt hes
      have htyped := h.typed e (by simp [hes])
      have hnotNull : it.currentExtent ≠ 0 := by
        have hindex := h.cell_index hes
        have hpos := hg.clusterStart_pos (h.stream.data _ (List.getElem_mem hindex))
        rw [hcurrent, Pos.addr, List.getD_eq_getElem _ _ hindex]
        omega
      rw [if_neg hnotNull]
      simp only [wp_bind, wp_getMem, hcurrent, hextent]
      refine wp_ite (fun hend => ?_) (fun hmore => ?_)
      · -- the extent is used up
        have hpositive := htyped.positive
        rw [wp_bind]
        refine wp_mono_ok (ExtentIterator.init_spec hg h (before ++ [e]) behind
          (by simp [hes]) (by simpa using hreader)) ?_
        intro it' t ht
        obtain ⟨rfl, hzero, hit'⟩ := ht
        have hnone : e.clusters.drop it.currentCluster = [] :=
          List.drop_eq_nil_of_le (by rw [FatExtent.length_clusters]; exact hend)
        rw [hnone, List.nil_append]
        refine ih (hfuel.imp_right fun hmuch => Or.inr ⟨?_, hzero⟩) hit'
        omega
      · have hlt : it.currentCluster < e.clusters.length := by
          rw [FatExtent.length_clusters]
          omega
        have hstop := htyped.stop
        have hget : e.clusters[it.currentCluster] = e.physicalStart + it.currentCluster := by
          simp [FatExtent.clusters]
        unfold FatExtent.stop at hstop
        rw [wp_pure, List.drop_eq_getElem_cons hlt, hget, u32_of_lt (by omega)]
        exact ⟨rfl, rfl, @IterAt.inExtent g pages head es
          ⟨_, it.currentCluster + 1, it.extentStream⟩ before e behind hes rfl
          (by dsimp only; omega) hreader, fun hnone => absurd hnone (by simp)⟩

end

end OfsConvert
