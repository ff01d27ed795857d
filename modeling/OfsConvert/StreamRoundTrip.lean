import OfsConvert.Fragments
import OfsConvert.StreamReader
import OfsConvert.StreamSegments

/-!
# Reading a stream back

Segments are written element by element and closed; the stream may be copied before each segment.
A reader that starts from a copy gets the pointers that the writer got, as long as only elements
are stored to in between: headers, links and elements are apart. Nothing here depends on the page
size but that it has room for the link and a header.
-/

namespace OfsConvert

/-- Append the elements of a segment; the pointers to them in order. -/
def writeElements (g : Globals) (fuel : ℕ) : Segment → StreamArchiver →
    Prog (List ℕ × StreamArchiver)
  | [], w => pure ([], w)
  | e :: es, w => do
    let (p, w) ← appendElement g fuel e w
    let (ps, w) ← writeElements g fuel es w
    pure (p :: ps, w)

/-- Write segments, each closed by a cut; for each the copy of the stream in front of it and the
pointers to its elements. -/
def writeSegments (g : Globals) (fuel : ℕ) : List Segment → StreamArchiver →
    Prog (List (StreamArchiver × List ℕ) × StreamArchiver)
  | [], w => pure ([], w)
  | x :: xs, w => do
    let (ps, w') ← writeElements g fuel x w
    let w' ← cutStreamArchiver g fuel w'
    let (rest, last) ← writeSegments g fuel xs w'
    pure ((w, ps) :: rest, last)

/-- Ask for elements of the given sizes. -/
def readElements (g : Globals) : List ℕ → StreamArchiver → Prog (List ℕ × StreamArchiver)
  | [], r => pure ([], r)
  | n :: ns, r => do
    let (p, r) ← getNext g n r
    let (ps, r) ← readElements g ns r
    pure (p :: ps, r)

/-- Ask for the elements of segments and, behind the last element of each, for one more of `size`
bytes; for each segment the pointers and what the last call returns. -/
def readSegments (g : Globals) (size : ℕ) : List (List ℕ) → StreamArchiver →
    Prog (List (List ℕ × ℕ) × StreamArchiver)
  | [], r => pure ([], r)
  | ns :: rest, r => do
    let (ps, r) ← readElements g ns r
    let (p, r) ← getNext g size r
    let (others, r) ← readSegments g size rest r
    pure ((ps, p) :: others, r)

/-- The copy of the stream in front of the first of the segments, or behind the last. -/
def firstCopy (written : List (StreamArchiver × List ℕ)) (last : StreamArchiver) :
    StreamArchiver := (written.head?.map Prod.fst).getD last

/-- What the stream uses its pages for. -/
inductive RegionKind where
  | link
  | header
  | element
  deriving DecidableEq, Repr

/-- A range of bytes of the stream. -/
structure Region where
  kind : RegionKind
  address : ℕ
  length : ℕ
  deriving DecidableEq, Repr

/-- The byte at `a` belongs to the range. -/
def Region.Has (x : Region) (a : ℕ) : Prop := x.address ≤ a ∧ a < x.address + x.length

/-- Two ranges have no byte in common. -/
def Region.Apart (x y : Region) : Prop := ∀ a, x.Has a → ¬ y.Has a

/-- The elements at the given pointers. -/
def elementRegions (ps ns : List ℕ) : List Region :=
  (ps.zip ns).map fun x => ⟨.element, x.1, x.2⟩

/-- The headers and elements of written segments in the order of the stream; the last header is
that of the open segment. -/
def segmentRegions : List Segment → List (StreamArchiver × List ℕ) → StreamArchiver → List Region
  | x :: xs, (w, ps) :: rest, last =>
    ⟨.header, w.header, sizeofHeader⟩ :: (elementRegions ps (sizes x) ++ segmentRegions xs rest last)
  | _, _, last => [⟨.header, last.header, sizeofHeader⟩]

/-- The links at the starts of the pages. -/
def linkRegions (g : Globals) (pages : List ℕ) : List Region :=
  pages.map fun c => ⟨.link, clusterStart g.metaInfo c, sizeofPage⟩

/-- The element is stored at a pointer. -/
def StoredAt (m : Mem) (element : List UInt8) (p : ℕ) : Prop :=
  p ≠ 0 ∧ m.read p element.length = element

/-- A range lies in the pages at or behind a position. -/
def Region.From (g : Globals) (pages : List ℕ) (p : Pos) (x : Region) : Prop :=
  ∃ q : Pos, p.Before 0 q ∧ q.index < pages.length ∧ q.Fits (pageSize g) x.length ∧
    x.address = q.addr g pages

/-- Ranges at or behind a position, no two of which overlap. -/
structure Laid (g : Globals) (pages : List ℕ) (p : Pos) (xs : List Region) : Prop where
  apart : xs.Pairwise Region.Apart
  from_pos : ∀ x ∈ xs, x.From g pages p

/-- Written segments from a header on: the copy in front of each stands at its header, and the
pointers are the positions of its elements. -/
def Traced (g : Globals) (pages : List ℕ) : Pos → List Segment →
    List (StreamArchiver × List ℕ) → StreamArchiver → Prop
  | head, [], [], last => Reader g pages head (head.after sizeofHeader) 0 last
  | head, x :: xs, (w, ps) :: rest, last =>
    Reader g pages head (head.after sizeofHeader) 0 w ∧
    ps = cellAddrs g pages (head.after sizeofHeader) (sizes x) ∧
    Traced g pages (nextHead (pageSize g) head (sizes x)) xs rest last
  | _, _, _, _ => False

section Writing

variable {g : Globals} {m₀ : Mem} {blocked : List FatExtent} {X : Set ℕ} {pages pages' : List ℕ}
  {head : Pos} {w w' : StreamArchiver} {s t : State}

/-- Appending elements behind those of the open segment. -/
theorem writeElements_spec (hg : ClusterArea g)
    (hb : BlockedExtents (dataClusterCount g.bootSector g.metaInfo) blocked) (fuel : ℕ)
    (hw : Writer g m₀ blocked pages head w s) (hf : Fresh pages head w) {es fs : Segment}
    (hes : ∀ e ∈ es, sizeofPage + e.length ≤ pageSize g)
    (hfs : ∀ e ∈ fs, sizeofPage + e.length ≤ pageSize g)
    (h : Appended g m₀ blocked X pages head w s es pages' w' t) :
    wp (writeElements g fuel fs w')
      (fun x u => ∃ pages'', pages' <+: pages'' ∧
        Appended g m₀ blocked X pages head w s (es ++ fs) pages'' x.2 u ∧
        x.1 = cellAddrs g pages''
          (cellsEnd (pageSize g) (head.after sizeofHeader) (sizes es)) (sizes fs))
      NoFault t := by
  induction fs generalizing es pages' w' t with
  | nil =>
    refine ⟨pages', List.prefix_refl _, ?_, rfl⟩
    rw [List.append_nil]
    exact h
  | cons e fs ih =>
    rw [writeElements, wp_bind]
    refine wp_mono_ok (h.append hg hb fuel hw hf hes (hfs e (by simp))) fun x u hx => ?_
    obtain ⟨pages₁, hpre, happended, haddr, -, -⟩ := hx
    simp only [wp_bind, wp_pure]
    have hes' : ∀ d ∈ es ++ [e], sizeofPage + d.length ≤ pageSize g := by
      intro d hd
      rcases List.mem_append.mp hd with hd | hd
      · exact hes d hd
      · rw [List.mem_singleton.mp hd]
        exact hfs e (by simp)
    refine wp_mono_ok (ih hes' (fun d hd => hfs d (by simp [hd])) happended) fun y v hy => ?_
    obtain ⟨pages₂, hpre', happended', haddrs⟩ := hy
    refine ⟨pages₂, hpre.trans hpre', ?_, ?_⟩
    · rw [List.append_assoc] at happended'
      exact happended'
    · have hend : cellsEnd (pageSize g) (head.after sizeofHeader) (sizes (es ++ [e])) =
          ((cellsEnd (pageSize g) (head.after sizeofHeader) (sizes es)).cell (pageSize g)
            e.length).after e.length := by
        rw [sizes, List.map_append, cellsEnd_append]
        rfl
      have hindex := happended.opened.writer.pos_index_lt
      rw [happended.opened.pos, hend, Pos.after_index] at hindex
      rw [haddrs, haddr, hend, ← Pos.addr_extend hpre' hindex]
      rfl

/-- Writing segments from a fresh one on. -/
theorem writeSegments_spec (hg : ClusterArea g)
    (hb : BlockedExtents (dataClusterCount g.bootSector g.metaInfo) blocked) (fuel : ℕ)
    {xs : List Segment} (hsizes : ∀ x ∈ xs, ∀ e ∈ x, sizeofPage + e.length ≤ pageSize g)
    (hcounts : ∀ x ∈ xs, x.length + 1 < 2 ^ 64)
    (hw : Writer g m₀ blocked pages head w s) (hf : Fresh pages head w) :
    wp (writeSegments g fuel xs w)
      (fun x t => ∃ pages', Wrote g m₀ blocked ∅ pages head w s xs pages' x.2 t ∧
        Traced g pages' head xs x.1 x.2 ∧ firstCopy x.1 x.2 = w)
      NoFault s := by
  induction xs generalizing pages head w s with
  | nil => exact ⟨pages, Wrote.refl hw hf, hf.reader hw, rfl⟩
  | cons x xs ih =>
    have hx := hsizes x (by simp)
    rw [writeSegments, wp_bind]
    refine wp_mono_ok (writeElements_spec (X := ∅) hg hb fuel hw hf (List.forall_mem_nil _) hx
      ⟨Opened.refl hw hf, trivial⟩) fun y t hy => ?_
    obtain ⟨pages₁, hpre₁, happended, haddrs⟩ := hy
    rw [List.nil_append] at happended
    simp only [wp_bind, wp_pure]
    have hcount := hcounts x (by simp)
    refine wp_mono_ok (happended.cut hg hb fuel hw hf openCells_empty hx (by omega))
      fun w₂ u hu => ?_
    obtain ⟨pages₂, hpre₂, -, -, hwrote⟩ := hu
    refine wp_mono_ok (ih (fun y hy => hsizes y (by simp [hy])) (fun y hy => hcounts y (by simp [hy]))
      hwrote.writer hwrote.fresh) fun z v hz => ?_
    obtain ⟨pages₃, hwrote', htraced, -⟩ := hz
    refine ⟨pages₃, hwrote.append hwrote', ⟨?_, ?_, htraced⟩, rfl⟩
    · exact (hf.reader hw).extend (hwrote.pre.trans hwrote'.pre) hw.head_index_lt hw.head_index_lt
    · have hindex : (cellsEnd (pageSize g) (head.after sizeofHeader) (sizes x)).index <
          pages₁.length := by
        rw [← happended.opened.pos]
        exact happended.opened.writer.pos_index_lt
      rw [haddrs]
      exact (cellAddrs_extend (hpre₂.trans hwrote'.pre) hindex).symm

end Writing

section Regions

variable {g : Globals} {m₀ : Mem} {blocked : List FatExtent} {pages : List ℕ}
  {head p q : Pos} {w last : StreamArchiver} {s : State} {xs : List Segment}
  {written : List (StreamArchiver × List ℕ)}

/-- Being apart is symmetric. -/
theorem Region.Apart.symm {x y : Region} (h : x.Apart y) : y.Apart x :=
  fun a hy hx => h a hx hy

/-- One more range in front of ranges behind it. -/
theorem Laid.cons (hg : ClusterArea g) (hw : Writer g m₀ blocked pages head w s) {n : ℕ}
    {rest : List Region} (kind : RegionKind) (hp : p.Before 0 q) (hindex : q.index < pages.length)
    (hfits : q.Fits (pageSize g) n) (h : Laid g pages (q.after n) rest) :
    Laid g pages p (⟨kind, q.addr g pages, n⟩ :: rest) := by
  have hafter := Pos.before_after q n
  refine ⟨List.pairwise_cons.mpr ⟨?_, h.apart⟩, ?_⟩
  · intro x hx a ha hxa
    obtain ⟨r, hbefore, hr, hrfits, haddr⟩ := h.from_pos x hx
    unfold Region.Has at ha hxa
    rw [haddr] at hxa
    exact hw.cells_disjoint hg hr hfits hrfits (hafter.trans hbefore) ha.1 ha.2 hxa.1 hxa.2
  · intro x hx
    cases List.mem_cons.mp hx with
    | inl heq =>
      rw [heq]
      exact ⟨q, hp, hindex, hfits, rfl⟩
    | inr hrest =>
      obtain ⟨r, hbefore, hr⟩ := h.from_pos x hrest
      exact ⟨r, (hp.after (n := n)).trans hbefore, hr⟩

/-- Elements in front of ranges behind them. -/
theorem Laid.elements (hg : ClusterArea g) (hw : Writer g m₀ blocked pages head w s)
    {rest : List Region} {ns : List ℕ} (hlower : sizeofPage ≤ p.offset)
    (hns : ∀ n ∈ ns, sizeofPage + n ≤ pageSize g)
    (hindex : (cellsEnd (pageSize g) p ns).index < pages.length)
    (h : Laid g pages (cellsEnd (pageSize g) p ns) rest) :
    Laid g pages p (elementRegions (cellAddrs g pages p ns) ns ++ rest) := by
  induction ns generalizing p with
  | nil => exact h
  | cons n ns ih =>
    have hfits : (p.cell (pageSize g) n).Fits (pageSize g) n := Pos.cell_fits hlower (hns n (by simp))
    have hcell : (p.cell (pageSize g) n).index < pages.length :=
      ((Pos.before_after _ n).cellsEnd ns).index_le.trans_lt hindex
    have hrest := ih (Nat.le_add_right_of_le hfits.lower) (fun k hk => hns k (by simp [hk])) hindex h
    exact hrest.cons hg hw .element (Pos.before_refl p).cell hcell hfits

/-- The headers and elements of written segments do not overlap. -/
theorem Traced.laid (hg : ClusterArea g) (hw : Writer g m₀ blocked pages head w s)
    (hsizes : ∀ x ∈ xs, ∀ e ∈ x, sizeofPage + e.length ≤ pageSize g)
    (hfits : p.Fits (pageSize g) sizeofHeader)
    (hindex : (headAfter (pageSize g) p xs).index < pages.length)
    (h : Traced g pages p xs written last) : Laid g pages p (segmentRegions xs written last) := by
  induction xs generalizing p written with
  | nil =>
    cases written with
    | nil =>
      have hregions : segmentRegions [] [] last = [⟨.header, last.header, sizeofHeader⟩] := rfl
      rw [hregions, h.header]
      exact Laid.cons hg hw .header (Pos.before_refl p) hindex hfits ⟨List.Pairwise.nil, nofun⟩
    | cons y rest => exact h.elim
  | cons x xs ih =>
    cases written with
    | nil => exact h.elim
    | cons y rest =>
      obtain ⟨hreader, haddrs, htraced⟩ := h
      have hx : ∀ n ∈ sizes x, sizeofPage + n ≤ pageSize g := by
        intro n hn
        obtain ⟨e, he, rfl⟩ := List.mem_map.mp hn
        exact hsizes x (by simp) e he
      have hroom : sizeofPage + sizeofHeader ≤ pageSize g :=
        (Nat.add_le_add_right hfits.lower _).trans hfits.upper
      have hnext : (nextHead (pageSize g) p (sizes x)).Fits (pageSize g) sizeofHeader :=
        Pos.cell_fits (cellsEnd_lower (Nat.le_add_right_of_le hfits.lower) _) hroom
      have hlaid := ih (fun y hy => hsizes y (by simp [hy])) hnext hindex htraced
      have hcells : (nextHead (pageSize g) p (sizes x)).index < pages.length :=
        (head_before_headAfter _ xs).trans_lt hindex
      have hend : (cellsEnd (pageSize g) (p.after sizeofHeader) (sizes x)).index < pages.length :=
        (Pos.before_refl _).cell.index_le.trans_lt hcells
      have hbehind : Laid g pages (cellsEnd (pageSize g) (p.after sizeofHeader) (sizes x))
          (segmentRegions xs rest last) := by
        refine ⟨hlaid.apart, fun z hz => ?_⟩
        obtain ⟨r, hbefore, hr⟩ := hlaid.from_pos z hz
        exact ⟨r, (Pos.before_refl _).cell.trans hbefore, hr⟩
      rw [segmentRegions, hreader.header, haddrs]
      refine Laid.cons hg hw .header (Pos.before_refl p) ?_ hfits
        (hbehind.elements hg hw (Nat.le_add_right_of_le hfits.lower) hx hend)
      exact (head_before_nextHead p (sizes x)).index_le.trans_lt hcells

/-- The links, the headers and the elements do not overlap. -/
theorem Laid.links (hg : ClusterArea g) (hw : Writer g m₀ blocked pages head w s)
    {rest : List Region} (h : Laid g pages p rest) :
    (linkRegions g pages ++ rest).Pairwise Region.Apart := by
  have hroom := hg.room
  refine List.pairwise_append.mpr ⟨?_, h.apart, ?_⟩
  · refine List.pairwise_map.mpr (hw.nodup.imp_of_mem fun {c d} hc hd hne a ha hda => hne ?_)
    obtain ⟨hlow, hhigh⟩ := ha
    obtain ⟨hlow', hhigh'⟩ := hda
    unfold sizeofPage at hhigh hhigh'
    dsimp only at hlow hhigh hlow' hhigh'
    exact hg.inCluster_unique (hw.usable c hc).dataCluster (hw.usable d hd).dataCluster
      ⟨hlow, by omega⟩ ⟨hlow', by omega⟩
  · intro x hx y hy a ha hya
    obtain ⟨c, hc, rfl⟩ := List.mem_map.mp hx
    obtain ⟨q, -, hindex, hfits, haddr⟩ := h.from_pos y hy
    unfold Region.Has at hya
    rw [haddr] at hya
    exact hw.slot_links hg (hw.slot hindex hfits) hc hya.1 hya.2 ha

end Regions

section Reading

variable {g : Globals} {pages : List ℕ} {head p : Pos} {i : ℕ} {r last : StreamArchiver}
  {s : State} {E : Halt → State → Prop} {m : Mem} {xs : List Segment}
  {written : List (StreamArchiver × List ℕ)}

/-- The first copy of the stream is a reader. -/
theorem Traced.reader (h : Traced g pages head xs written last) :
    Reader g pages head (head.after sizeofHeader) 0 (firstCopy written last) := by
  cases xs with
  | nil =>
    cases written with
    | nil => exact h
    | cons y rest => exact h.elim
  | cons x xs =>
    cases written with
    | nil => exact h.elim
    | cons y rest => exact h.1

/-- Reading elements of the open segment in order. -/
theorem readElements_spec (hg : ClusterArea g) (hs : StreamAt g pages s.mem)
    (hhead : head.index < pages.length) {count : ℕ}
    (hcount : s.mem.readLE (head.addr g pages) sizeofHeader = count) (hsmall : count < 2 ^ 64)
    {ns : List ℕ} (hr : Reader g pages head p i r) (hi : i + ns.length ≤ count)
    (hindex : (cellsEnd (pageSize g) p ns).index < pages.length) :
    wp (readElements g ns r)
      (fun x t => t = s ∧ x.1 = cellAddrs g pages p ns ∧
        Reader g pages head (cellsEnd (pageSize g) p ns) (i + ns.length) x.2)
      E s := by
  induction ns generalizing p i r with
  | nil => exact ⟨rfl, rfl, hr⟩
  | cons n ns ih =>
    rw [List.length_cons] at hi
    have hcell : (p.cell (pageSize g) n).index < pages.length :=
      ((Pos.before_after _ n).cellsEnd ns).index_le.trans_lt hindex
    rw [readElements, wp_bind]
    refine wp_mono_ok (getNext_cons hg hs hr hhead _ hcount (by omega) hsmall hcell) fun x t hx => ?_
    obtain ⟨rfl, haddr, hreader⟩ := hx
    simp only [wp_bind, wp_pure]
    refine wp_mono_ok (ih hreader (by omega) hindex) fun y u hy => ?_
    obtain ⟨rfl, haddrs, hreader'⟩ := hy
    refine ⟨rfl, ?_, ?_⟩
    · rw [haddr, haddrs, cellAddrs]
    · rw [List.length_cons, show i + (ns.length + 1) = i + 1 + ns.length by omega]
      exact hreader'

/-- Reading segments from a copy on, with the headers as they were written. -/
theorem readSegments_spec (hg : ClusterArea g) (hs : StreamAt g pages s.mem) (size : ℕ)
    (hcounts : ∀ x ∈ xs, x.length + 1 < 2 ^ 64)
    (hindex : (headAfter (pageSize g) head xs).index < pages.length)
    (htraced : Traced g pages head xs written last) (hholds : HoldsSegments g pages m head xs)
    (hkept : ∀ x ∈ segmentRegions xs written last, x.kind = .header →
      ∀ a, x.Has a → s.mem a = m a) (n : ℕ) :
    wp (readSegments g size ((xs.take n).map sizes) (firstCopy written last))
      (fun x t => t = s ∧ x = ((written.take n).map fun y => (y.2, 0),
        firstCopy (written.drop n) last))
      E s := by
  induction n generalizing head xs written with
  | zero => exact ⟨rfl, rfl⟩
  | succ n ih =>
    cases xs with
    | nil =>
      cases written with
      | nil => exact ⟨rfl, rfl⟩
      | cons y rest => exact htraced.elim
    | cons x xs =>
      cases written with
      | nil => exact htraced.elim
      | cons y rest =>
        have hreader := htraced.reader
        obtain ⟨hfirst, haddrs, htraced⟩ := htraced
        have hnext : (nextHead (pageSize g) head (sizes x)).index < pages.length :=
          (head_before_headAfter _ xs).trans_lt hindex
        have hend : (cellsEnd (pageSize g) (head.after sizeofHeader) (sizes x)).index <
            pages.length := (Pos.before_refl _).cell.index_le.trans_lt hnext
        have hhead : head.index < pages.length :=
          (head_before_nextHead head (sizes x)).index_le.trans_lt hnext
        have hcount : s.mem.readLE (head.addr g pages) sizeofHeader = (sizes x).length := by
          rw [sizes, List.length_map, ← hholds.1.count, ← hfirst.header]
          refine Mem.readLE_congr fun i hi => ?_
          exact hkept ⟨.header, y.1.header, sizeofHeader⟩ List.mem_cons_self rfl _
            ⟨Nat.le_add_right _ _, Nat.add_lt_add_left hi _⟩
        have hsmall := hcounts x (by simp)
        rw [List.take_succ_cons, List.map_cons, readSegments, wp_bind]
        refine wp_mono_ok (readElements_spec hg hs hhead hcount
          (by rw [sizes, List.length_map]; omega) hreader (by omega) hend) fun z t hz => ?_
        obtain ⟨rfl, hptrs, hreader'⟩ := hz
        rw [wp_bind]
        refine wp_mono_ok (getNext_nil hg hs hreader' hhead hcount (by omega)
          (by rw [sizes, List.length_map]; omega) size hnext) fun z' t ht => ?_
        obtain ⟨rfl, hnull, hreader''⟩ := ht
        have hcopy := hreader''.eq htraced.reader
        simp only [wp_bind, wp_pure, hcopy]
        refine wp_mono_ok (ih (fun x hx => hcounts x (by simp [hx])) hindex htraced hholds.2
          fun z hz => hkept z (by simp [segmentRegions, hz])) fun v u hv => ?_
        obtain ⟨rfl, rfl⟩ := hv
        refine ⟨rfl, ?_⟩
        rw [hptrs, hnull, ← haddrs]
        rfl

/-- Behind its first segments, the rest of what was written is written. -/
theorem Traced.drop (htraced : Traced g pages head xs written last) (k : ℕ) :
    Traced g pages (headAfter (pageSize g) head (xs.take k)) (xs.drop k) (written.drop k) last ∧
      ∀ x ∈ segmentRegions (xs.drop k) (written.drop k) last,
        x ∈ segmentRegions xs written last := by
  induction k generalizing head xs written with
  | zero => exact ⟨htraced, fun _ hx => hx⟩
  | succ k ih =>
    cases xs with
    | nil =>
      cases written with
      | nil => exact ⟨htraced, fun _ hx => hx⟩
      | cons y rest => exact htraced.elim
    | cons x xs =>
      cases written with
      | nil => exact htraced.elim
      | cons y rest =>
        obtain ⟨hrest, hregions⟩ := ih htraced.2.2
        exact ⟨hrest, fun z hz => by simp [segmentRegions, hregions z hz]⟩

/-- The pointers to elements that the memory holds. -/
theorem HoldsCells.storedAt (hg : ClusterArea g) (hdata : ∀ c ∈ pages, DataCluster g c)
    {es : Segment} (hindex : (cellsEnd (pageSize g) p (sizes es)).index < pages.length)
    (h : HoldsCells g pages m p es) :
    List.Forall₂ (StoredAt m) es (cellAddrs g pages p (sizes es)) := by
  induction es generalizing p with
  | nil => exact List.Forall₂.nil
  | cons e es ih =>
    have hcell : (p.cell (pageSize g) e.length).index < pages.length :=
      ((Pos.before_after _ e.length).cellsEnd (sizes es)).index_le.trans_lt hindex
    refine List.Forall₂.cons ⟨?_, h.1⟩ (ih hindex h.2)
    have hpos := hg.clusterStart_pos (hdata _ (List.getElem_mem hcell))
    rw [Pos.addr, List.getD_eq_getElem _ _ hcell]
    omega

/-- The elements are stored at the addresses that were returned. -/
theorem Traced.storedAt (hg : ClusterArea g) (hdata : ∀ c ∈ pages, DataCluster g c)
    (hindex : (headAfter (pageSize g) head xs).index < pages.length)
    (htraced : Traced g pages head xs written last) (hholds : HoldsSegments g pages m head xs) :
    List.Forall₂ (fun x y => List.Forall₂ (StoredAt m) x y.2) xs written := by
  induction xs generalizing head written with
  | nil =>
    cases written with
    | nil => exact List.Forall₂.nil
    | cons y rest => exact htraced.elim
  | cons x xs ih =>
    cases written with
    | nil => exact htraced.elim
    | cons y rest =>
      obtain ⟨-, haddrs, htraced⟩ := htraced
      have hend : (cellsEnd (pageSize g) (head.after sizeofHeader) (sizes x)).index <
          pages.length :=
        ((Pos.before_refl _).cell.index_le.trans (head_before_headAfter _ xs)).trans_lt hindex
      refine List.Forall₂.cons ?_ (ih hindex htraced hholds.2)
      rw [haddrs]
      exact hholds.1.cells.storedAt hg hdata hend

end Reading

section Room

variable {s : State} (h : StartsBounded s)
include h

/-- Closing a segment ends. -/
theorem cutStreamArchiver_room (g : Globals) (fuel : ℕ) (w : StreamArchiver)
    (hfuel : cursorRoom s < fuel) :
    wp (cutStreamArchiver g fuel w) (fun _ t => Shrinks s t) WithinFuel s := by
  rw [cutStreamArchiver]
  refine wp_ite (fun _ => ?_) (fun _ => ?_)
  · simp only [wp_bind, wp_storeLE, wp_pure]
    exact wp_mono_ok (iterate_insert_room (s := s.stored _ _ _) h g fuel _ _ _ hfuel)
      fun _ t ht => ⟨ht.starts, ht.room⟩
  · simp only [allocatePage, wp_bind, wp_storeLE, wp_pure]
    refine wp_mono_ok (allocateExtent_room h fuel 1 hfuel (by norm_num)) fun e t ht => ?_
    have hroom := ht.1.room
    exact wp_mono_ok (iterate_insert_room (s := t.stored _ _ _) ht.1.starts g fuel _ _ _
      (by change cursorRoom t < fuel; omega)) fun _ u hu => ⟨hu.starts, hu.room.trans hroom⟩

/-- Writing the elements of a segment ends. -/
theorem writeElements_room (g : Globals) (fuel : ℕ) (es : Segment) (w : StreamArchiver)
    (hfuel : cursorRoom s < fuel) :
    wp (writeElements g fuel es w) (fun _ t => Shrinks s t) WithinFuel s := by
  induction es generalizing s w with
  | nil => exact ⟨h, le_rfl⟩
  | cons e es ih =>
    simp only [writeElements, appendElement, wp_bind, wp_pure, wp_storeBytes]
    refine wp_mono_ok (iterate_insert_room h g fuel _ _ _ hfuel) fun x t ht => ?_
    have hroom := ht.room
    exact wp_mono_ok (ih (s := t.stored _ _ _) ht.starts _ (by change cursorRoom t < fuel; omega))
      fun _ u hu => ⟨hu.starts, hu.room.trans hroom⟩

/-- Writing segments ends. -/
theorem writeSegments_room (g : Globals) (fuel : ℕ) (segments : List Segment)
    (w : StreamArchiver) (hfuel : cursorRoom s < fuel) :
    wp (writeSegments g fuel segments w) (fun _ t => Shrinks s t) WithinFuel s := by
  induction segments generalizing s w with
  | nil => exact ⟨h, le_rfl⟩
  | cons x xs ih =>
    simp only [writeSegments, wp_bind, wp_pure]
    refine wp_mono_ok (writeElements_room h g fuel x w hfuel) fun y t ht => ?_
    have hroom := ht.room
    refine wp_mono_ok (cutStreamArchiver_room ht.starts g fuel _ (by omega)) fun w' u hu => ?_
    have hroom' := hu.room
    exact wp_mono_ok (ih hu.starts w' (by omega)) fun _ v hv => ht.trans (hu.trans hv)

end Room

/-- The allocator and the stream set up, and segments written. -/
def streamRun (g : Globals) (blocked : List FatExtent) (fuel : ℕ) (segments : List Segment) :
    Prog (List (StreamArchiver × List ℕ) × StreamArchiver) := do
  initExtentAllocator g
    (blocked ++ [endSentinel (dataClusterCount g.bootSector g.metaInfo)]) blocked.length
  let w ← initStreamArchiver g fuel
  writeSegments g fuel segments w

/-- The run ends: with fuel for all steps of the allocator's cursor it does not run out. -/
theorem streamRun_room (g : Globals) {blocked : List FatExtent}
    (hb : BlockedExtents (dataClusterCount g.bootSector g.metaInfo) blocked) {fuel : ℕ}
    (hfuel : (blocked.length + 2) * 2 ^ 32 < fuel) (segments : List Segment) (s : State) :
    wp (streamRun g blocked fuel segments) (fun _ _ => True) WithinFuel s := by
  rw [streamRun, wp_bind]
  refine wp_mono (initExtentAllocator_spec s hb) ?_ (fun _ _ h => h.elim)
  intro _ t ht
  obtain ⟨hinv, -, -⟩ := ht
  have hroom := cursorRoom_le t
  rw [hinv.count] at hroom
  have hstarts := hinv.startsBounded hb
  rw [wp_bind]
  refine wp_mono_ok (cutStreamArchiver_room hstarts g fuel _ (by omega)) fun w u hu => ?_
  have hless := hu.room
  exact wp_mono_ok (writeSegments_room hu.starts g fuel segments w (by omega)) fun _ _ _ => trivial

/-- Segments of elements that fit on a page are written so that links, headers and elements do not
overlap. Reading any of them in a row from the copy of the stream in front of the first returns
the pointers to the elements in order and a null pointer once behind each segment, and ends at the
copy in front of the next; it takes only that the links and headers stay. The run writes no
null pointer, and with enough fuel it stops only for a full file system. -/
theorem streamRun_roundTrip (g : Globals) (hg : ClusterArea g) (blocked : List FatExtent)
    (hb : BlockedExtents (dataClusterCount g.bootSector g.metaInfo) blocked) (fuel : ℕ)
    (segments : List Segment)
    (hsizes : ∀ x ∈ segments, ∀ e ∈ x, e.length ≤ pageSize g - sizeofPage)
    (hcounts : ∀ x ∈ segments, x.length + 1 < 2 ^ 64) (s : State) (hs : s.stores = []) :
    wp (streamRun g blocked fuel segments)
      (fun written t => ∃ pages : List ℕ,
        (∀ i, i + 1 < pages.length →
          t.mem.readLE (clusterStart g.metaInfo (pages.getD i 0)) sizeofPage =
            clusterStart g.metaInfo (pages.getD (i + 1) 0)) ∧
        (linkRegions g pages ++ segmentRegions segments written.1 written.2).Pairwise
          Region.Apart ∧
        List.Forall₂ (fun x y => List.Forall₂ (StoredAt t.mem) x y.2) segments written.1 ∧
        ∀ u : State,
          (∀ x ∈ linkRegions g pages ++ segmentRegions segments written.1 written.2,
            x.kind ≠ .element → ∀ a, x.Has a → u.mem a = t.mem a) →
          ∀ size k n,
            readSegments g size (((segments.drop k).take n).map sizes)
                (firstCopy (written.1.drop k) written.2) u =
              .ok (((written.1.drop k).take n).map (fun y => (y.2, 0)),
                firstCopy (written.1.drop (k + n)) written.2) u)
      (fun cause _ => cause ≠ .fault ∧
        ((blocked.length + 2) * 2 ^ 32 < fuel → cause ≠ .fuel)) s := by
  have hroom := hg.room
  have hsizes' : ∀ x ∈ segments, ∀ e ∈ x, sizeofPage + e.length ≤ pageSize g := by
    intro x hx e he
    have hle := hsizes x hx e he
    unfold pageSize sizeofPage at *
    omega
  have hspec : wp (streamRun g blocked fuel segments)
      (fun written t => ∃ pages head w₀ pages' w u,
        Wrote g s.mem blocked ∅ pages head w₀ u segments pages' written.2 t ∧
        Writer g s.mem blocked pages head w u ∧
        Traced g pages' head segments written.1 written.2) NoFault s := by
    rw [streamRun, wp_bind]
    refine wp_mono (initExtentAllocator_spec s hb) ?_ (fun _ _ h => h.elim)
    intro _ t ht
    obtain ⟨hinv, honly, -⟩ := ht
    rw [wp_bind]
    refine wp_mono (initStreamArchiver_spec hg hb fuel hinv
      ((Intact.initial hs).of_allocOnly honly)) ?_ (fun _ _ h => h.1)
    intro w u hu
    obtain ⟨c, hw, hpos, hindex, -⟩ := hu
    refine wp_mono_ok (writeSegments_spec hg hb fuel hsizes' hcounts hw ⟨hpos, hindex⟩) ?_
    intro written v hv
    obtain ⟨pages', hwrote, htraced, -⟩ := hv
    exact ⟨[c], _, w, pages', w, u, hwrote, hw, htraced⟩
  have hends : wp (streamRun g blocked fuel segments) (fun _ _ => True)
      (fun cause _ => (blocked.length + 2) * 2 ^ 32 < fuel → cause ≠ .fuel) s := by
    by_cases hfuel : (blocked.length + 2) * 2 ^ 32 < fuel
    · exact wp_mono (streamRun_room g hb hfuel segments s) (fun _ _ h => h)
        (fun _ _ h _ => h.ne_fuel)
    · exact wp_mono hspec (fun _ _ _ => trivial) (fun _ _ _ h => absurd h hfuel)
  refine wp_mono (wp_and hspec hends) ?_ (fun _ _ h => h)
  intro written t ht
  obtain ⟨⟨pages, head, w₀, pages', w, v, hwrote, hw, htraced⟩, -⟩ := ht
  have hwriter := hwrote.writer
  have hdata : ∀ c ∈ pages', DataCluster g c := fun c hc => (hwriter.usable c hc).dataCluster
  have hholds := hwrote.holds.now
  have hinside := hwriter.head_index_lt
  refine ⟨pages', hwriter.links, ?_, ?_, ?_⟩
  · exact (htraced.laid hg hwriter hsizes' hw.headFits hinside).links hg hwriter
  · exact htraced.storedAt hg hdata hinside hholds
  · intro u hkept size k n
    have hstream : StreamAt g pages' u.mem := by
      refine ⟨hdata, fun i hi => ?_⟩
      rw [← hwriter.links i hi]
      refine Mem.readLE_congr fun j hj => ?_
      refine hkept ⟨.link, _, sizeofPage⟩ (List.mem_append_left _ ?_) nofun _
        ⟨Nat.le_add_right _ _, Nat.add_lt_add_left hj _⟩
      exact List.mem_map.mpr ⟨_, hwriter.getD_mem (i := i) (by omega), rfl⟩
    obtain ⟨hrest, hregions⟩ := htraced.drop k
    have hsplit : headAfter (pageSize g) (headAfter (pageSize g) head (segments.take k))
        (segments.drop k) = headAfter (pageSize g) head segments := by
      rw [← headAfter_append, List.take_append_drop]
    have hrun := readSegments_spec (E := fun _ _ => False) hg hstream size
      (fun x hx => hcounts x (List.mem_of_mem_drop hx)) (by rw [hsplit]; exact hinside) hrest
      (m := t.mem) ?_ (fun x hx hkind => hkept x (List.mem_append_right _ (hregions x hx))
        (by rw [hkind]; exact nofun)) n
    · rw [List.drop_drop] at hrun
      exact eq_ok_of_wp hrun
    · rw [← List.take_append_drop k segments, HoldsSegments_append] at hholds
      exact hholds.2

/-- Two segments, the first of which does not fit on one page of 1024 bytes. -/
def sampleSegments : List Segment := [[List.replicate 600 1, List.replicate 600 2, [3]], []]

/-- The sizes of the sample segments. -/
theorem sizes_sampleSegments : sampleSegments.map sizes = [[600, 600, 1], []] := by
  decide +kernel

/-- The segments on a volume of 200 blocks. -/
theorem streamRun_roundTrip_sample :
    ∃ (written : List (StreamArchiver × List ℕ) × StreamArchiver) (t : State),
      streamRun (sampleGlobals 400) (metaExtents (sampleGlobals 400)) 8 sampleSegments
        { mem := fun _ => 0 } = .ok written t ∧
      readSegments (sampleGlobals 400) 4 [[600, 600, 1], []] (firstCopy written.1 written.2) t =
        .ok (written.1.map (fun y => (y.2, 0)), written.2) t := by
  have hreturns : returns (streamRun (sampleGlobals 400) (metaExtents (sampleGlobals 400)) 8
      sampleSegments) { mem := fun _ => 0 } = true := by decide +kernel
  obtain ⟨written, t, hrun, pages, -, -, hstored, hread⟩ := exists_of_returns
    (streamRun_roundTrip (sampleGlobals 400) accepted_sample_400 (metaExtents (sampleGlobals 400))
      accepted_sample_400.blockedExtents 8 sampleSegments (by decide +kernel) (by decide +kernel)
      { mem := fun _ => 0 } rfl) hreturns
  have hlength : sampleSegments.length = written.1.length := hstored.length_eq
  have hread' := hread t (fun _ _ _ _ _ => rfl) 4 0 sampleSegments.length
  rw [List.drop_zero, List.drop_zero, Nat.zero_add, List.take_length, sizes_sampleSegments, hlength,
    List.take_length, List.drop_length] at hread'
  exact ⟨written, t, hrun, hread'⟩

end OfsConvert
