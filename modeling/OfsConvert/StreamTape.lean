import OfsConvert.PayloadRelocation
import OfsConvert.TreeBuilder
import OfsConvert.MetadataPlaces

/-!
# The stream as the second phase reads it

The second phase stores to none of the pages of the stream, so what it reads is settled when it
starts: `Reads` gives what any memory with these pages yields. `ReadsDirectory` follows the reader
over the records of a directory tree.
-/

namespace OfsConvert

/-- The memory has what `base` has in the blocks of `F`. -/
def AgreesOn (g : Globals) (F : List ℕ) (base m : Mem) : Prop :=
  ∀ b ∈ F, ∀ a, InBlock g b a → m a = base a

/-- A segment is read from `r` to `r'`, whatever the rest of the memory is. -/
def Reads (g : Globals) (F : List ℕ) (base : Mem) (size : ℕ) :
    Segment → StreamArchiver → StreamArchiver → Prop
  | [], r, r' => ∀ s : State, AgreesOn g F base s.mem → getNext g size r s = .ok (0, r') s
  | e :: es, r, r' => ∃ p r₁, p ≠ 0 ∧ (∀ m, AgreesOn g F base m → m.read p size = e) ∧
      (∀ s : State, AgreesOn g F base s.mem → getNext g size r s = .ok (p, r₁) s) ∧
      Reads g F base size es r₁ r'

/-- An iterator is still to return the given clusters. -/
def Clusters (g : Globals) (F : List ℕ) (base : Mem) (it : ExtentIterator) (clusters : List ℕ) :
    Prop :=
  ∃ pages head es, (∀ m, AgreesOn g F base m → ExtentsAt g pages m head es) ∧
    IterAt g pages head es it clusters

/-- A segment of extents is read from `r` to `r'`, and an iterator started at `r` returns their
clusters. -/
structure ReadsExtents (g : Globals) (F : List ℕ) (base : Mem) (es : List FatExtent)
    (r r' : StreamArchiver) : Prop where
  segment : Reads g F base sizeofFatExtent (es.map fatExtentBytes) r r'
  iterator : ∀ (s : State) (E : Halt → State → Prop), AgreesOn g F base s.mem →
    wp (ExtentIterator.init g r)
      (fun it t => t = s ∧ Clusters g F base it (physical es)) E s

/-- The records of the children of a directory are read from `r` to `r'`. -/
def ReadsChildren (g : Globals) (F : List ℕ) (base : Mem) :
    Forest Record → StreamArchiver → StreamArchiver → Prop
  | .nil, r, r' => r' = r
  | .file rec rest, r, r' => ∃ r₁ r₂ r₃ r₄,
    Reads g F base sizeofFatDentry [rec.dentry] r r₁ ∧
    Reads g F base (lfnEntryLength * 2) rec.name r₁ r₂ ∧
    Reads g F base sizeofFatExtent (rec.extents.map fatExtentBytes) r₂ r₃ ∧
    Reads g F base 4 [dummyChildrenCount] r₃ r₄ ∧
    ReadsChildren g F base rest r₄ r'
  | .dir rec children rest, r, r' => ∃ r₁ r₂ r₃ r₄ r₅,
    Reads g F base sizeofFatDentry [rec.dentry] r r₁ ∧
    Reads g F base (lfnEntryLength * 2) rec.name r₁ r₂ ∧
    ReadsExtents g F base rec.extents r₂ r₃ ∧
    Reads g F base 4 [leBytes 4 (u32 children.count)] r₃ r₄ ∧
    ReadsChildren g F base children r₄ r₅ ∧
    ReadsChildren g F base rest r₅ r'

/-- The record of a directory, from its extents on, is read from `r` to `r'`. -/
def ReadsDirectory (g : Globals) (F : List ℕ) (base : Mem) (es : List FatExtent)
    (children : Forest Record) (r r' : StreamArchiver) : Prop :=
  ∃ r₁ r₂, ReadsExtents g F base es r r₁ ∧
    Reads g F base 4 [leBytes 4 (u32 children.count)] r₁ r₂ ∧
    ReadsChildren g F base children r₂ r'

/-- A record of which the fields have their sizes. -/
structure Record.Sound (rec : Record) : Prop where
  dentry : rec.dentry.length = sizeofFatDentry
  name : ∀ e ∈ rec.name, e.length = lfnEntryLength * 2
  typed : ∀ e ∈ rec.extents, e.Typed
  short : rec.name.length + 1 < 2 ^ 64 ∧ rec.extents.length + 1 < 2 ^ 64

/-- Files and directories are told apart by their entries. -/
def Forest.Kinds : Forest Record → Prop
  | .nil => True
  | .file rec rest => isDir rec.dentry = false ∧ rest.Kinds
  | .dir rec children rest => isDir rec.dentry = true ∧ children.Kinds ∧ rest.Kinds

section Pages

variable {g : Globals} {pages : List ℕ} {m m' : Mem} {p head : Pos}

/-- The pages have the same contents. -/
def SamePages (g : Globals) (pages : List ℕ) (m m' : Mem) : Prop :=
  ∀ c ∈ pages, ∀ a, InCluster g c a → m' a = m a

/-- Equal pages have equal bytes at a position. -/
theorem SamePages.at_pos (h : SamePages g pages m m') {len a : ℕ} (hp : p.Fits (pageSize g) len)
    (hindex : p.index < pages.length) (hlow : p.addr g pages ≤ a)
    (hhigh : a < p.addr g pages + len) : m' a = m a := by
  have hupper := hp.upper
  have hmem : pages.getD p.index 0 ∈ pages := by
    rw [List.getD_eq_getElem _ _ hindex]
    exact List.getElem_mem hindex
  unfold Pos.addr at hlow hhigh
  unfold pageSize at hupper
  exact h _ hmem a ⟨by omega, by omega⟩

/-- The links between the pages depend on the pages only. -/
theorem StreamAt.samePages (hg : ClusterArea g) (hs : StreamAt g pages m)
    (h : SamePages g pages m m') : StreamAt g pages m' := by
  have hroom := hg.room
  refine ⟨hs.data, fun i hi => ?_⟩
  rw [← hs.links i hi]
  have hlt : i < pages.length := by omega
  have hmem : pages.getD i 0 ∈ pages := by
    rw [List.getD_eq_getElem _ _ hlt]
    exact List.getElem_mem hlt
  exact Mem.readLE_congr fun j hj => h _ hmem _ ⟨Nat.le_add_right _ _, by omega⟩

/-- Elements depend on the pages only. -/
theorem HoldsCells.samePages {es : Segment} (hcells : HoldsCells g pages m p es)
    (h : SamePages g pages m m') (hp : sizeofPage ≤ p.offset)
    (hsizes : ∀ e ∈ es, sizeofPage + e.length ≤ pageSize g)
    (hindex : (cellsEnd (pageSize g) p (sizes es)).index < pages.length) :
    HoldsCells g pages m' p es := by
  refine hcells.congr fun a ha => ?_
  obtain ⟨q, n, hfits, -, hbefore, hlow, hhigh⟩ := exists_cell_of_mem hp (fun n hn => by
    obtain ⟨e, he, rfl⟩ := List.mem_map.mp hn
    exact hsizes e he) ha
  exact h.at_pos hfits (hbefore.index_le.trans_lt hindex) hlow hhigh

/-- A segment depends on the pages only. -/
theorem HoldsSegment.samePages {es : Segment} (hholds : HoldsSegment g pages m head es)
    (h : SamePages g pages m m') (hhead : head.Fits (pageSize g) sizeofHeader)
    (hsizes : ∀ e ∈ es, sizeofPage + e.length ≤ pageSize g)
    (hindex : (nextHead (pageSize g) head (sizes es)).index < pages.length) :
    HoldsSegment g pages m' head es := by
  have hend : (cellsEnd (pageSize g) (head.after sizeofHeader) (sizes es)).index < pages.length :=
    (Pos.before_refl _).cell.index_le.trans_lt hindex
  have hfirst : head.index < pages.length :=
    (head_before_nextHead head (sizes es)).index_le.trans_lt hindex
  refine ⟨?_, hholds.cells.samePages h (Nat.le_add_right_of_le hhead.lower) hsizes hend⟩
  rw [← hholds.count]
  exact Mem.readLE_congr fun i hi =>
    h.at_pos hhead hfirst (Nat.le_add_right _ _) (Nat.add_lt_add_left hi _)

/-- The header behind a segment is inside a page. -/
theorem nextHead_fits (hg : ClusterArea g) (hhead : head.Fits (pageSize g) sizeofHeader)
    (ns : List ℕ) : (nextHead (pageSize g) head ns).Fits (pageSize g) sizeofHeader := by
  have hroom := hg.room
  refine Pos.cell_fits (cellsEnd_lower ?_ ns) hroom
  rw [Pos.after_offset]
  exact Nat.le_add_right_of_le hhead.lower

end Pages

section Reading

variable {g : Globals} {pages F : List ℕ} {base : Mem} {head : Pos} {r r' : StreamArchiver}
  {segments : List Segment} {size d : ℕ} {e : List UInt8} {es : Segment} {s : State}
  {E : Halt → State → Prop}

/-- Every memory with the pages yields the segment. -/
theorem Reads.yields {m : Mem} (h : Reads g F base size es r r') (hm : AgreesOn g F base m) :
    Yields g size m es r r' := by
  induction es generalizing r with
  | nil =>
    rintro s rfl
    exact h s hm
  | cons e es ih =>
    obtain ⟨p, r₁, hp, hread, hrun, hrest⟩ := h
    refine ⟨p, r₁, hp, hread m hm, ?_, ih hrest⟩
    rintro s rfl
    exact hrun s hm

/-- A call in front of an element. -/
theorem Reads.next (h : Reads g F base size (e :: es) r r') (hs : AgreesOn g F base s.mem) :
    wp (readNext g d size r)
      (fun x t => t = s.logRead d (some e) ∧ x.1 ≠ 0 ∧
        (∀ m, AgreesOn g F base m → m.read x.1 size = e) ∧ Reads g F base size es x.2 r') E s := by
  obtain ⟨p, r₁, hp, hread, hrun, hrest⟩ := h
  rw [readNext, wp_bind]
  unfold wp
  rw [hrun s hs]
  refine ⟨?_, hp, hread, hrest⟩
  change s.logRead d (if p = 0 then none else some (s.mem.read p size)) = _
  rw [if_neg hp, hread _ hs]

/-- A call behind the last element. -/
theorem Reads.done (h : Reads g F base size [] r r') (hs : AgreesOn g F base s.mem) :
    wp (readNext g d size r) (fun x t => t = s.logRead d none ∧ x = (0, r')) E s :=
  readNext_nil (h.yields hs)

/-- The next cluster of an iterator, 0 behind the last one. -/
theorem Clusters.next {it : ExtentIterator} {clusters : List ℕ} (hg : ClusterArea g)
    (h : Clusters g F base it clusters) (hs : AgreesOn g F base s.mem) (fuel : ℕ)
    (hfuel : E .fuel s ∨ 1 < fuel) :
    wp (nextClusterNo g fuel it)
      (fun x t => t = s ∧ x.1 = clusters.headD 0 ∧ Clusters g F base x.2 clusters.tail) E s := by
  obtain ⟨pages, head, es, hextents, hit⟩ := h
  refine wp_mono_ok (nextClusterNo_spec hg (hextents s.mem hs) fuel (hfuel.imp_right Or.inl) hit) ?_
  rintro x t ⟨rfl, hcluster, hit', -⟩
  exact ⟨rfl, hcluster, pages, head, es, hextents, hit'⟩

/-- What the calls on a segment return. -/
def segmentReads (d : ℕ) (es : Segment) : List StreamRead :=
  es.map (fun e => ⟨d, some e⟩) ++ [⟨d, none⟩]

/-- The history behind a segment that was read. -/
theorem State.logSegment_reads (s : State) (d : ℕ) (es : Segment) :
    (s.logSegment d es).ext4.reads = s.ext4.reads ++ segmentReads d es := by
  induction es generalizing s with
  | nil => rfl
  | cons e es ih =>
    rw [State.logSegment, ih, State.logRead, segmentReads, segmentReads, List.map_cons,
      List.cons_append, List.append_assoc]
    rfl

/-- Reading a segment to its end. -/
theorem skipSegment_spec (h : Reads g F base size es r r') (hs : AgreesOn g F base s.mem)
    {fuel : ℕ} (hfuel : es.length < fuel ∨ ∀ t, LogOnly s t → E .fuel t) :
    wp (skipSegment g d size fuel r) (fun x t => x = r' ∧ t = s.logSegment d es) E s := by
  induction fuel generalizing es r s with
  | zero => exact hfuel.resolve_left (Nat.not_lt_zero _) s (LogOnly.refl s)
  | succ fuel ih =>
    rw [skipSegment, wp_bind]
    cases es with
    | nil =>
      refine wp_mono_ok (h.done hs) ?_
      rintro x t ⟨rfl, rfl⟩
      exact ⟨rfl, rfl⟩
    | cons e es =>
      refine wp_mono_ok (h.next hs) ?_
      rintro x t ⟨rfl, hne, -, hrest⟩
      dsimp only
      rw [if_pos hne]
      exact ih hrest hs (hfuel.imp Nat.lt_of_succ_lt_succ fun hend t ht =>
        hend t ((LogOnly.logRead s d (some e)).trans ht))

/-- A segment that every memory with the pages holds is read from a reader behind its first
elements on. -/
theorem Reads.of_cells (hg : ClusterArea g)
    (hs : ∀ m, AgreesOn g F base m → StreamAt g pages m) {p : Pos} {i : ℕ}
    (hr : Reader g pages head p i r) (hhead : head.index < pages.length)
    (hcount : ∀ m, AgreesOn g F base m →
      m.readLE (head.addr g pages) sizeofHeader = i + es.length)
    (hsmall : i + es.length + 1 < 2 ^ 64) (hsizes : ∀ e ∈ es, e.length = size)
    (hindex : ((cellsEnd (pageSize g) p (sizes es)).cell (pageSize g) sizeofHeader).index <
      pages.length)
    (h : ∀ m, AgreesOn g F base m → HoldsCells g pages m p es) :
    ∃ r', Reads g F base size es r r' ∧
      Reader g pages ((cellsEnd (pageSize g) p (sizes es)).cell (pageSize g) sizeofHeader)
        (((cellsEnd (pageSize g) p (sizes es)).cell (pageSize g) sizeofHeader).after sizeofHeader)
        0 r' := by
  have hbase : AgreesOn g F base base := fun _ _ _ _ => rfl
  induction es generalizing p i r with
  | nil =>
    have hnext := fun (t : State) (ht : AgreesOn g F base t.mem) =>
      getNext_nil (E := fun _ _ => False) (s := t) hg (hs _ ht) hr hhead (hcount _ ht) rfl
        (by simpa using hsmall) size hindex
    obtain ⟨x, t, hrun, -, -, hreader⟩ := exists_ok_of_wp (hnext { mem := base } hbase)
    refine ⟨x.2, fun u hu => ?_, hreader⟩
    obtain ⟨y, v, hrun', rfl, hnull, hreader'⟩ := exists_ok_of_wp (hnext u hu)
    rw [hrun', ← hreader'.eq hreader, ← hnull]
  | cons e es ih =>
    have he := hsizes e List.mem_cons_self
    have hcell : (p.cell (pageSize g) e.length).index < pages.length :=
      ((Pos.before_after _ _).cellsEnd (sizes es)).cell.index_le.trans_lt hindex
    rw [List.length_cons] at hsmall
    have hnext := fun (t : State) (ht : AgreesOn g F base t.mem) =>
      getNext_cons (E := fun _ _ => False) (s := t) hg (hs _ ht) hr hhead e.length (hcount _ ht)
        (Nat.lt_add_of_pos_right (Nat.succ_pos _)) (by rw [List.length_cons]; omega) hcell
    obtain ⟨x, t, hrun, -, haddr, hreader⟩ := exists_ok_of_wp (hnext { mem := base } hbase)
    have hcount' : ∀ m, AgreesOn g F base m →
        m.readLE (head.addr g pages) sizeofHeader = i + 1 + es.length := by
      intro m hm
      rw [hcount m hm, List.length_cons]
      omega
    obtain ⟨r', hreads, hreader'⟩ := ih hreader hcount' (by omega)
      (fun d hd => hsizes d (List.mem_cons_of_mem e hd)) hindex fun m hm => (h m hm).2
    refine ⟨r', ⟨x.1, x.2, ?_, fun m hm => ?_, fun u hu => ?_, hreads⟩, hreader'⟩
    · have hpos := hg.clusterStart_pos ((hs base hbase).data _ (List.getElem_mem hcell))
      rw [haddr, Pos.addr, List.getD_eq_getElem _ _ hcell]
      omega
    · rw [haddr, ← he]
      exact (h m hm).1
    · obtain ⟨y, v, hrun', rfl, haddr', hreader'⟩ := exists_ok_of_wp (hnext u hu)
      rw [← he, hrun', haddr, ← haddr', ← hreader'.eq hreader]

/-- The reader stands in front of the given segments. -/
structure Stands (g : Globals) (pages : List ℕ) (m : Mem) (head : Pos) (segments : List Segment)
    (r : StreamArchiver) : Prop where
  holds : HoldsSegments g pages m head segments
  fits : head.Fits (pageSize g) sizeofHeader
  inside : (headAfter (pageSize g) head segments).index < pages.length
  reader : Reader g pages head (head.after sizeofHeader) 0 r

variable (hg : Accepted g) (hs : StreamAt g pages base)
  (hF : ∀ m, AgreesOn g F base m → SamePages g pages base m)
include hg hs hF

/-- The next segment is read. -/
theorem Stands.read {es : Segment} (h : Stands g pages base head (es :: segments) r) (size : ℕ)
    (hsize : size ≤ 64) (hsizes : ∀ e ∈ es, e.length = size) (hcount : es.length + 1 < 2 ^ 64) :
    ∃ head' r', Reads g F base size es r r' ∧ Stands g pages base head' segments r' := by
  obtain ⟨⟨hholds, hrest⟩, hfits, hinside, hr⟩ := h
  have hindex : (nextHead (pageSize g) head (sizes es)).index < pages.length :=
    (head_before_headAfter _ segments).trans_lt hinside
  have hcells : ∀ e ∈ es, sizeofPage + e.length ≤ pageSize g := by
    intro e he
    rw [hsizes e he]
    exact hg.element_fits hsize
  have hfirst := (head_before_nextHead (P := pageSize g) head (sizes es)).index_le.trans_lt hindex
  have hholds' : ∀ m, AgreesOn g F base m → HoldsSegment g pages m head es := fun m hm =>
    hholds.samePages (hF m hm) hfits hcells hindex
  obtain ⟨r', hreads, hreader⟩ := Reads.of_cells hg.area
    (fun m hm => hs.samePages hg.area (hF m hm)) hr hfirst
    (fun m hm => by rw [(hholds' m hm).count, Nat.zero_add]) (by omega) hsizes hindex
    fun m hm => (hholds' m hm).cells
  exact ⟨_, r', hreads, hrest, nextHead_fits hg.area hfits _, hinside, hreader⟩

/-- The next segment is read, and an iterator finds the clusters of its extents. -/
theorem Stands.readExtents {es : List FatExtent}
    (h : Stands g pages base head (es.map fatExtentBytes :: segments) r)
    (htyped : ∀ e ∈ es, e.Typed) (hcount : es.length + 1 < 2 ^ 64) :
    ∃ head' r', ReadsExtents g F base es r r' ∧ Stands g pages base head' segments r' := by
  have hlength : ∀ e ∈ es.map fatExtentBytes, e.length = sizeofFatExtent := by
    intro e he
    obtain ⟨d, -, rfl⟩ := List.mem_map.mp he
    exact length_fatExtentBytes d
  have hinside := h.inside
  obtain ⟨head', r', hreads, hstands⟩ := h.read hg hs hF sizeofFatExtent (by decide) hlength
    (by rwa [List.length_map])
  have hindex : (nextHead (pageSize g) head (es.map fun _ => sizeofFatExtent)).index <
      pages.length := by
    rw [← sizes_fatExtentBytes]
    exact (head_before_headAfter _ segments).trans_lt hinside
  refine ⟨head', r', ⟨hreads, fun s E hm => ?_⟩, hstands⟩
  have hextents : ∀ m, AgreesOn g F base m → ExtentsAt g pages m head es := by
    intro m hm
    refine ⟨hs.samePages hg.area (hF m hm), ?_, hindex, htyped, hcount⟩
    refine h.holds.1.samePages (hF m hm) h.fits (fun e he => ?_)
      ((head_before_headAfter _ segments).trans_lt hinside)
    rw [hlength e he]
    exact hg.element_fits (by decide)
  refine wp_mono_ok (ExtentIterator.init_spec hg.area (hextents s.mem hm) [] es rfl h.reader) ?_
  intro it t ht
  exact ⟨ht.1, pages, head, es, hextents, ht.2.2⟩

/-- A directory is read, if its children are. -/
theorem Stands.readDirectory {es : List FatExtent} {children : Forest Record}
    (h : Stands g pages base head (es.map fatExtentBytes :: (dirSegments children ++ segments)) r)
    (htyped : ∀ e ∈ es, e.Typed) (hcount : es.length + 1 < 2 ^ 64)
    (hchildren : ∀ {head : Pos} {r : StreamArchiver} {segments : List Segment},
      Stands g pages base head (childSegments children ++ segments) r →
      ∃ head' r', ReadsChildren g F base children r r' ∧ Stands g pages base head' segments r') :
    ∃ head' r', ReadsDirectory g F base es children r r' ∧ Stands g pages base head' segments r' := by
  obtain ⟨head₁, r₁, hextents, hstands₁⟩ := h.readExtents hg hs hF htyped hcount
  obtain ⟨head₂, r₂, hnumber, hstands₂⟩ := hstands₁.read hg hs hF 4 (by decide)
    (fun e he => by rw [List.mem_singleton.mp he, length_leBytes]) (by simp)
  obtain ⟨head', r', hreads, hstands⟩ := hchildren hstands₂
  exact ⟨head', r', ⟨r₁, r₂, hextents, hnumber, hreads⟩, hstands⟩

/-- The children of a directory are read. -/
theorem Stands.readChildren {forest : Forest Record} (hsound : ∀ rec ∈ forest.toList, rec.Sound)
    (h : Stands g pages base head (childSegments forest ++ segments) r) :
    ∃ head' r', ReadsChildren g F base forest r r' ∧ Stands g pages base head' segments r' := by
  have hdummy : ∀ e ∈ [dummyChildrenCount], e.length = 4 := by
    intro e he
    rw [List.mem_singleton.mp he]
    exact length_leBytes 4 _
  have hextents : ∀ (es : List FatExtent), ∀ e ∈ es.map fatExtentBytes,
      e.length = sizeofFatExtent := by
    intro es e he
    obtain ⟨d, -, rfl⟩ := List.mem_map.mp he
    exact length_fatExtentBytes d
  induction forest generalizing head r segments with
  | nil => exact ⟨head, r, rfl, h⟩
  | file rec rest ih =>
    have hrec := hsound rec List.mem_cons_self
    obtain ⟨hdentry, hname, -, hshort, hshort'⟩ := hrec
    obtain ⟨_, r₁, hread₁, hstands₁⟩ := Stands.read hg hs hF h sizeofFatDentry (by decide)
      (fun e he => by rw [List.mem_singleton.mp he, hdentry]) (by simp)
    obtain ⟨_, r₂, hread₂, hstands₂⟩ := hstands₁.read hg hs hF (lfnEntryLength * 2) (by decide) hname
      hshort
    obtain ⟨_, r₃, hread₃, hstands₃⟩ := hstands₂.read hg hs hF sizeofFatExtent (by decide)
      (hextents rec.extents) (by rwa [List.length_map])
    obtain ⟨_, r₄, hread₄, hstands₄⟩ := hstands₃.read hg hs hF 4 (by decide) hdummy (by simp)
    obtain ⟨head', r', hrest, hstands⟩ := ih (fun d hd => hsound d (List.mem_cons_of_mem rec hd))
      hstands₄
    exact ⟨head', r', ⟨r₁, r₂, r₃, r₄, hread₁, hread₂, hread₃, hread₄, hrest⟩, hstands⟩
  | dir rec children rest ihc ihr =>
    have hrec := hsound rec List.mem_cons_self
    obtain ⟨hdentry, hname, htyped, hshort, hshort'⟩ := hrec
    have hinner : ∀ d ∈ children.toList, d.Sound :=
      fun d hd => hsound d (List.mem_cons_of_mem rec (List.mem_append_left _ hd))
    have houter : ∀ d ∈ rest.toList, d.Sound :=
      fun d hd => hsound d (List.mem_cons_of_mem rec (List.mem_append_right _ hd))
    obtain ⟨_, r₁, hread₁, hstands₁⟩ := Stands.read hg hs hF h sizeofFatDentry (by decide)
      (fun e he => by rw [List.mem_singleton.mp he, hdentry]) (by simp)
    obtain ⟨head₂, r₂, hread₂, hstands₂⟩ := hstands₁.read hg hs hF (lfnEntryLength * 2) (by decide)
      hname hshort
    have hstands₂' : Stands g pages base head₂ (rec.extents.map fatExtentBytes ::
        (dirSegments children ++ (childSegments rest ++ segments))) r₂ := by
      have hsplit : dirSegments children ++ (childSegments rest ++ segments) =
          ([leBytes 4 (u32 children.count)] :: childSegments children) ++ childSegments rest ++
            segments := by
        rw [List.append_assoc]
        rfl
      rw [hsplit]
      exact hstands₂
    obtain ⟨_, r₃, ⟨r₄, r₅, hread₄, hread₅, hread₃⟩, hstands₃⟩ :=
      Stands.readDirectory hg hs hF hstands₂' htyped hshort' fun h => ihc hinner h
    obtain ⟨head', r', hrest, hstands⟩ := ihr houter hstands₃
    exact ⟨head', r', ⟨r₁, r₂, r₄, r₅, r₃, hread₁, hread₂, hread₄, hread₅, hread₃, hrest⟩, hstands⟩

end Reading

end OfsConvert
