import OfsConvert.ReadingSafety
import OfsConvert.StreamFormat

/-!
# Writing segments

`Opened` describes the run from a fresh segment to one with elements of given sizes, `Reserved`
the run until that segment is closed, `Wrote` the run until given segments are found in the
memory and stay there. The bytes in `X` are those of reserved elements that are still to be
filled in.
-/

namespace OfsConvert

/-- The open segment at `head` has no elements yet. -/
structure Fresh (pages : List ℕ) (head : Pos) (w : StreamArchiver) : Prop where
  pos : w.pos pages = head.after sizeofHeader
  index : w.elementIndex = 0

/-- The bytes to be filled in are settled and belong to elements. -/
def OpenCells (g : Globals) (pages : List ℕ) (X : Set ℕ) (w : StreamArchiver) (s : State) : Prop :=
  ∀ a ∈ X, Settled g w s a ∧ Slot g pages a 1

/-- From a fresh segment at `s` elements of the given sizes were appended. -/
structure Opened (g : Globals) (m₀ : Mem) (blocked : List FatExtent) (X : Set ℕ)
    (pages : List ℕ) (head : Pos) (w : StreamArchiver) (s : State) (ns : List ℕ)
    (pages' : List ℕ) (w' : StreamArchiver) (t : State) : Prop where
  pre : pages <+: pages'
  writer : Writer g m₀ blocked pages' head w' t
  pos : w'.pos pages' = cellsEnd (pageSize g) (head.after sizeofHeader) ns
  index : w'.elementIndex = u64 ns.length
  ext : Extends g X w s w' t
  added : ∀ c ∈ pages', c ∈ pages ∨ isFree s.allocationBitmap c = true

/-- The segment with elements of the given sizes was closed, and the next one is open. -/
structure Reserved (g : Globals) (m₀ : Mem) (blocked : List FatExtent) (X : Set ℕ)
    (pages : List ℕ) (head : Pos) (w : StreamArchiver) (s : State) (ns : List ℕ)
    (pages' : List ℕ) (w' : StreamArchiver) (t : State) : Prop where
  pre : pages <+: pages'
  writer : Writer g m₀ blocked pages' (nextHead (pageSize g) head ns) w' t
  fresh : Fresh pages' (nextHead (pageSize g) head ns) w'
  ext : Extends g X w s w' t
  count : t.mem.readLE (head.addr g pages') sizeofHeader = u64 ns.length
  added : ∀ c ∈ pages', c ∈ pages ∨ isFree s.allocationBitmap c = true

/-- Segments were written and keep their contents. -/
structure Wrote (g : Globals) (m₀ : Mem) (blocked : List FatExtent) (X : Set ℕ)
    (pages : List ℕ) (head : Pos) (w : StreamArchiver) (s : State) (segments : List Segment)
    (pages' : List ℕ) (w' : StreamArchiver) (t : State) : Prop where
  pre : pages <+: pages'
  writer : Writer g m₀ blocked pages' (headAfter (pageSize g) head segments) w' t
  fresh : Fresh pages' (headAfter (pageSize g) head segments) w'
  ext : Extends g X w s w' t
  holds : Stable g X w' t fun m => HoldsSegments g pages' m head segments
  added : ∀ c ∈ pages', c ∈ pages ∨ isFree s.allocationBitmap c = true

section

variable {g : Globals} {m₀ : Mem} {blocked : List FatExtent} {X : Set ℕ} {pages pages' : List ℕ}
  {head : Pos} {w w' : StreamArchiver} {s t : State} {ns : List ℕ}

/-- Open elements stay open. -/
theorem OpenCells.later (h : OpenCells g pages X w s) (hext : Extends g X w s w' t)
    (hpre : pages <+: pages') : OpenCells g pages' X w' t :=
  fun a ha => ⟨hext.settled a (h a ha).1, (h a ha).2.extend hpre⟩

/-- No bytes are open. -/
theorem openCells_empty : OpenCells g pages ∅ w s := fun a ha => absurd ha (Set.notMem_empty a)

/-- A free cluster stays free when read backwards. -/
theorem Extends.isFree (h : Extends g X w s w' t) {c : ℕ}
    (hc : OfsConvert.isFree t.allocationBitmap c = true) :
    OfsConvert.isFree s.allocationBitmap c = true := by
  by_contra hnot
  rw [h.taken c (by simpa using hnot)] at hc
  exact absurd hc (by decide)

/-- Pages added one after the other. -/
theorem added_trans {pages'' : List ℕ} (hext : Extends g X w s w' t)
    (h : ∀ c ∈ pages', c ∈ pages ∨ isFree s.allocationBitmap c = true)
    (h' : ∀ c ∈ pages'', c ∈ pages' ∨ isFree t.allocationBitmap c = true) :
    ∀ c ∈ pages'', c ∈ pages ∨ isFree s.allocationBitmap c = true := by
  intro c hc
  cases h' c hc with
  | inl hold => exact h c hold
  | inr hfree => exact Or.inr (hext.isFree hfree)

/-- Elements behind the current position are not settled yet. -/
theorem Writer.not_settled (hg : ClusterArea g) (hw : Writer g m₀ blocked pages head w s)
    {head' : Pos} (hw' : Writer g m₀ blocked pages' head' w' t) (hpre : pages <+: pages')
    (hadded : ∀ c ∈ pages', c ∈ pages ∨ isFree s.allocationBitmap c = true) {q : Pos} {len a : ℕ}
    (hindex : q.index < pages'.length) (hfits : q.Fits (pageSize g) len)
    (hafter : (w.pos pages).Before 0 q) (hlow : q.addr g pages' ≤ a)
    (hhigh : a < q.addr g pages' + len) : ¬ Settled g w s a := by
  intro hsettled
  have hupper := hfits.upper
  by_cases hold : q.index < pages.length
  · -- on the current page, behind the current offset
    have hpos := hw.pos_addr
    unfold Pos.Before StreamArchiver.pos at hafter
    dsimp only at hafter
    have hq : q.index = pages.length - 1 := by omega
    have haddr : q.addr g pages' = w.page + q.offset := by
      rw [Pos.addr_extend hpre hold, Pos.addr, hq, ← hw.page]
    exact hsettled.2 (Or.inr (Or.inl ⟨by omega, by omega⟩))
  · -- on a page that was free
    have hmem := hw'.getD_mem hindex
    have hnot : pages'.getD q.index 0 ∉ pages := by
      intro hin
      obtain ⟨i, hi, hget⟩ := List.getElem_of_mem hin
      have hi' : i < pages'.length := hi.trans_le hpre.length_le
      have heq := hw'.getD_inj hindex hi' (by
        rw [List.getD_eq_getElem _ _ hi', ← hget]
        obtain ⟨rest, rfl⟩ := hpre
        rw [List.getElem_append_left hi])
      omega
    have hfree := (hadded _ hmem).resolve_left hnot
    exact not_taken_of_isFree hg (hw'.usable _ hmem).dataCluster hfree
      (hw'.inCluster hfits hlow hhigh) hsettled.1

/-- The open header is not settled. -/
theorem Writer.header_not_settled (hw : Writer g m₀ blocked pages head w s)
    (hpre : pages <+: pages') {a : ℕ} (hlow : head.addr g pages' ≤ a)
    (hhigh : a < head.addr g pages' + sizeofHeader) : ¬ Settled g w s a := by
  intro hsettled
  rw [Pos.addr_extend hpre hw.head_index_lt, ← hw.header] at hlow hhigh
  exact hsettled.2 (Or.inr (Or.inr ⟨hlow, hhigh⟩))

/-- A fresh segment has no elements. -/
theorem Opened.refl (hw : Writer g m₀ blocked pages head w s) (hf : Fresh pages head w) :
    Opened g m₀ blocked X pages head w s [] pages w s :=
  ⟨List.prefix_refl _, hw, hf.pos, hf.index, Extends.refl g X w s, fun _ hc => Or.inl hc⟩

/-- The elements appended so far are settled and new. -/
theorem Opened.cells_settled (hg : ClusterArea g) (hw : Writer g m₀ blocked pages head w s)
    (hf : Fresh pages head w) (h : Opened g m₀ blocked X pages head w s ns pages' w' t)
    (hns : ∀ n ∈ ns, sizeofPage + n ≤ pageSize g) {a : ℕ}
    (ha : a ∈ CellBytes g pages' (head.after sizeofHeader) ns) :
    Settled g w' t a ∧ ¬ Settled g w s a := by
  have hlower := hw.headFits.lower
  obtain ⟨q, n, hfits, hafter, hbefore, hlow, hhigh⟩ := exists_cell_of_mem
    (by rw [Pos.after_offset]; exact Nat.le_add_right_of_le hlower) hns ha
  rw [← h.pos] at hbefore
  refine ⟨h.writer.settled hg hfits hbefore (Or.inr ?_) hlow hhigh, ?_⟩
  · exact (Pos.before_after head _).trans hafter
  · refine hw.not_settled hg h.writer h.pre h.added ?_ hfits ?_ hlow hhigh
    · exact hbefore.index_le.trans_lt h.writer.pos_index_lt
    · rw [hf.pos]
      exact hafter

/-- One more element. -/
theorem Opened.append (h : Opened g m₀ blocked X pages head w s ns pages' w' t) {len p : ℕ}
    {pages'' : List ℕ} {w'' : StreamArchiver} {u : State}
    (hadv : Advanced g m₀ blocked pages' head w' t len pages'' p w'' u)
    (hindex : w''.elementIndex = u64 (w'.elementIndex + 1)) :
    Opened g m₀ blocked X pages head w s (ns ++ [len]) pages'' w'' u := by
  refine ⟨h.pre.trans hadv.pre, hadv.writer, ?_, ?_, h.ext.trans hadv.ext.ofEmpty,
    added_trans h.ext h.added hadv.added⟩
  · rw [hadv.pos, h.pos, cellsEnd_append]
    rfl
  · rw [hindex, h.index, List.length_append, List.length_singleton, u64, u64, u64,
      Nat.mod_add_mod]

/-- A store outside what was settled keeps an open segment. -/
theorem Opened.stored (h : Opened g m₀ blocked X pages head w s ns pages' w' t) {p n : ℕ} {m : Mem}
    (hw : Writer g m₀ blocked pages' head w' (t.stored p n m))
    (hnew : ∀ a, p ≤ a → a < p + n → Settled g w s a → a ∈ X)
    (hm : Mem.SameOutside p n t.mem m) :
    Opened g m₀ blocked X pages head w s ns pages' w' (t.stored p n m) :=
  ⟨h.pre, hw, h.pos, h.index, h.ext.stored hnew hm, h.added⟩

/-- Closing a segment. -/
theorem Opened.cut (hg : ClusterArea g)
    (hb : BlockedExtents (dataClusterCount g.bootSector g.metaInfo) blocked) (fuel : ℕ)
    (h : Opened g m₀ blocked X pages head w s ns pages' w' t) :
    wp (cutStreamArchiver g fuel w')
      (fun w'' u => ∃ pages'', pages' <+: pages'' ∧ Extends g ∅ w' t w'' u ∧
        (∀ c ∈ pages'', c ∈ pages' ∨ isFree t.allocationBitmap c = true) ∧
        Reserved g m₀ blocked X pages head w s ns pages'' w'' u)
      NoFault t := by
  refine wp_mono (cutStreamArchiver_spec hg hb fuel h.writer) ?_ (fun _ _ h => h.1)
  intro w'' u hclosed
  obtain ⟨pages'', hclosed⟩ := hclosed
  have hhead : (w'.pos pages').cell (pageSize g) sizeofHeader = nextHead (pageSize g) head ns := by
    rw [h.pos]
    rfl
  have hwriter := hclosed.writer
  have hpos := hclosed.pos
  rw [hhead] at hwriter hpos
  refine ⟨pages'', hclosed.pre, hclosed.ext, hclosed.added, h.pre.trans hclosed.pre, hwriter,
    ⟨hpos, hclosed.index⟩, h.ext.trans hclosed.ext.ofEmpty, ?_,
    added_trans h.ext h.added hclosed.added⟩
  have hcount := hclosed.count
  rw [h.index, u64, u64, Nat.mod_mod] at hcount
  exact hcount

/-- A closed segment is settled and was not before. -/
theorem Reserved.segment_settled (hg : ClusterArea g) (hw : Writer g m₀ blocked pages head w s)
    (hf : Fresh pages head w) (h : Reserved g m₀ blocked X pages head w s ns pages' w' t)
    (hns : ∀ n ∈ ns, sizeofPage + n ≤ pageSize g) {a : ℕ}
    (ha : a ∈ SegmentBytes g pages' head ns) : Settled g w' t a ∧ ¬ Settled g w s a := by
  have hnext : (nextHead (pageSize g) head ns).Before 0 (w'.pos pages') := by
    rw [h.fresh.pos]
    exact (Pos.before_refl _).after
  cases ha with
  | inl hin =>
    have hbefore := head_before_nextHead (P := pageSize g) head ns
    exact ⟨h.writer.settled hg hw.headFits (hbefore.trans hnext) (Or.inl hbefore) hin.1 hin.2,
      hw.header_not_settled h.pre hin.1 hin.2⟩
  | inr hin =>
    have hlower := hw.headFits.lower
    obtain ⟨q, n, hfits, hafter, hbefore, hlow, hhigh⟩ := exists_cell_of_mem
      (by rw [Pos.after_offset]; exact Nat.le_add_right_of_le hlower) hns hin
    have hq : q.Before n (nextHead (pageSize g) head ns) := hbefore.cell
    refine ⟨h.writer.settled hg hfits (hq.trans hnext) (Or.inl hq) hlow hhigh, ?_⟩
    refine hw.not_settled hg h.writer h.pre h.added ?_ hfits ?_ hlow hhigh
    · exact hq.index_le.trans_lt h.writer.head_index_lt
    · rw [hf.pos]
      exact hafter

/-- The header of a closed segment is none of its elements. -/
theorem Reserved.header_not_mem_cells (hg : ClusterArea g)
    (hw : Writer g m₀ blocked pages head w s)
    (h : Reserved g m₀ blocked X pages head w s ns pages' w' t)
    (hns : ∀ n ∈ ns, sizeofPage + n ≤ pageSize g) {a : ℕ}
    (hin : head.addr g pages' ≤ a ∧ a < head.addr g pages' + sizeofHeader) :
    a ∉ CellBytes g pages' (head.after sizeofHeader) ns := by
  intro ha
  have hlower := hw.headFits.lower
  obtain ⟨q, n, hfits, hafter, hbefore, hlow, hhigh⟩ := exists_cell_of_mem
    (by rw [Pos.after_offset]; exact Nat.le_add_right_of_le hlower) hns ha
  have hq : q.Before n (nextHead (pageSize g) head ns) := hbefore.cell
  exact h.writer.cells_disjoint hg (hq.index_le.trans_lt h.writer.head_index_lt) hw.headFits hfits
    ((Pos.before_after head _).trans hafter) hin.1 hin.2 hlow hhigh

/-- The elements of a closed segment are slots. -/
theorem Reserved.cell_slot (hw : Writer g m₀ blocked pages head w s)
    (h : Reserved g m₀ blocked X pages head w s ns pages' w' t)
    (hns : ∀ n ∈ ns, sizeofPage + n ≤ pageSize g) {a : ℕ}
    (ha : a ∈ CellBytes g pages' (head.after sizeofHeader) ns) : Slot g pages' a 1 := by
  have hlower := hw.headFits.lower
  obtain ⟨q, n, hfits, -, hbefore, hlow, hhigh⟩ := exists_cell_of_mem
    (by rw [Pos.after_offset]; exact Nat.le_add_right_of_le hlower) hns ha
  have hq : q.Before n (nextHead (pageSize g) head ns) := hbefore.cell
  exact (h.writer.slot (hq.index_le.trans_lt h.writer.head_index_lt) hfits).sub hlow (by omega)

/-- The reserved elements may be filled in from now on. -/
theorem Reserved.openCells (hg : ClusterArea g) (hw : Writer g m₀ blocked pages head w s)
    (hf : Fresh pages head w) (h : Reserved g m₀ blocked X pages head w s ns pages' w' t)
    (hns : ∀ n ∈ ns, sizeofPage + n ≤ pageSize g) (hx : OpenCells g pages X w s) :
    OpenCells g pages' (X ∪ CellBytes g pages' (head.after sizeofHeader) ns) w' t := by
  intro a ha
  cases ha with
  | inl hin => exact hx.later h.ext h.pre a hin
  | inr hin =>
    exact ⟨(h.segment_settled hg hw hf hns (Or.inr hin)).1, h.cell_slot hw hns hin⟩

/-- No segments are written by no step. -/
theorem Wrote.refl (hw : Writer g m₀ blocked pages head w s) (hf : Fresh pages head w) :
    Wrote g m₀ blocked X pages head w s [] pages w s :=
  ⟨List.prefix_refl _, hw, hf, Extends.refl g X w s, fun _ _ _ => trivial, fun _ hc => Or.inl hc⟩

/-- Writing goes on behind what was written. -/
theorem Wrote.append {xs ys : List Segment} {pages'' : List ℕ} {w'' : StreamArchiver} {u : State}
    (h : Wrote g m₀ blocked X pages head w s xs pages' w' t)
    (h' : Wrote g m₀ blocked X pages' (headAfter (pageSize g) head xs) w' t ys pages'' w'' u) :
    Wrote g m₀ blocked X pages head w s (xs ++ ys) pages'' w'' u := by
  refine ⟨h.pre.trans h'.pre, ?_, ?_, h.ext.trans h'.ext, ?_,
    added_trans h.ext h.added h'.added⟩
  · rw [headAfter_append]
    exact h'.writer
  · rw [headAfter_append]
    exact h'.fresh
  · intro w₃ v hv
    rw [HoldsSegments_append]
    exact ⟨((h.holds.later h'.ext) w₃ v hv).extend h'.pre h.writer.head_index_lt,
      h'.holds w₃ v hv⟩

/-- Filling in a reserved element keeps what was written. -/
theorem Wrote.stored (hg : ClusterArea g) {xs : List Segment}
    (h : Wrote g m₀ blocked X pages head w s xs pages' w' t) {p n : ℕ} {m : Mem}
    (hslot : Slot g pages' p n) (hx : ∀ a, p ≤ a → a < p + n → a ∈ X)
    (hm : Mem.SameOutside p n t.mem m) :
    Wrote g m₀ blocked X pages head w s xs pages' w' (t.stored p n m) := by
  have hstep : Extends g X w' t w' (t.stored p n m) :=
    (Extends.refl g X w' t).stored (fun a hlow hhigh _ => hx a hlow hhigh) hm
  exact ⟨h.pre, h.writer.stored_slot hg hslot hm, h.fresh, h.ext.trans hstep,
    h.holds.later hstep, h.added⟩

/-- Once its elements are filled in, the reserved segment is written. -/
theorem Reserved.finish (hg : ClusterArea g) (hw : Writer g m₀ blocked pages head w s)
    (hf : Fresh pages head w) (hx : OpenCells g pages X w s) {es : Segment}
    (h : Reserved g m₀ blocked X pages head w s (sizes es) pages' w' t)
    (hes : ∀ e ∈ es, sizeofPage + e.length ≤ pageSize g) (hlength : es.length < 2 ^ 64)
    {xs : List Segment} {pages'' : List ℕ} {w'' : StreamArchiver} {u : State}
    (h' : Wrote g m₀ blocked
      (X ∪ CellBytes g pages' (head.after sizeofHeader) (sizes es)) pages'
      (nextHead (pageSize g) head (sizes es)) w' t xs pages'' w'' u)
    (hcells : HoldsCells g pages' u.mem (head.after sizeofHeader) es) :
    Wrote g m₀ blocked X pages head w s (es :: xs) pages'' w'' u := by
  have hns : ∀ n ∈ sizes es, sizeofPage + n ≤ pageSize g := by
    intro n hn
    obtain ⟨e, he, rfl⟩ := List.mem_map.mp hn
    exact hes e he
  have hbytes := fun a ha => h.segment_settled hg hw hf hns (a := a) ha
  have hnotX : ∀ a ∈ SegmentBytes g pages' head (sizes es), a ∉ X :=
    fun a ha hax => (hbytes a ha).2 (hx a hax).1
  have hext : Extends g X w s w'' u :=
    ((h.ext.mono Set.subset_union_left).trans h'.ext).shrink
      fun a ha => (hbytes a (Or.inr ha)).2
  have hindex : (nextHead (pageSize g) head (sizes es)).index < pages'.length :=
    h.writer.head_index_lt
  refine ⟨h.pre.trans h'.pre, h'.writer, h'.fresh, hext, ?_,
    added_trans h.ext h.added h'.added⟩
  have hsegment : Stable g X w'' u fun m => HoldsSegment g pages' m head es := by
    have hcount : u.mem.readLE (head.addr g pages') sizeofHeader = es.length := by
      rw [show es.length = u64 (sizes es).length by
        rw [sizes, List.length_map, u64_of_lt hlength], ← h.count]
      refine Mem.readLE_congr fun i hi => h'.ext.mem _ ?_ ?_
      · exact (hbytes _ (Or.inl ⟨Nat.le_add_right _ _, Nat.add_lt_add_left hi _⟩)).1
      · have hin' : head.addr g pages' ≤ head.addr g pages' + i ∧
            head.addr g pages' + i < head.addr g pages' + sizeofHeader :=
          ⟨Nat.le_add_right _ _, Nat.add_lt_add_left hi _⟩
        rintro (hax | had)
        · exact hnotX _ (Or.inl hin') hax
        · exact h.header_not_mem_cells hg hw hns hin' had
    refine Stable.intro (B := SegmentBytes g pages' head (sizes es)) ?_ ?_
    · intro a ha
      exact ⟨h'.ext.settled a (hbytes a ha).1, hnotX a ha⟩
    · intro m hm
      exact HoldsSegment.congr ⟨hcount, hcells⟩ hm
  intro w₃ v hv
  exact ⟨(hsegment w₃ v hv).extend h'.pre hindex, (h'.holds.mono Set.subset_union_left) w₃ v hv⟩

/-- The elements of an open segment are slots. -/
theorem Opened.cell_slot (hw : Writer g m₀ blocked pages head w s)
    (h : Opened g m₀ blocked X pages head w s ns pages' w' t)
    (hns : ∀ n ∈ ns, sizeofPage + n ≤ pageSize g) {a : ℕ}
    (ha : a ∈ CellBytes g pages' (head.after sizeofHeader) ns) : Slot g pages' a 1 := by
  have hlower := hw.headFits.lower
  obtain ⟨q, n, hfits, -, hbefore, hlow, hhigh⟩ := exists_cell_of_mem
    (by rw [Pos.after_offset]; exact Nat.le_add_right_of_le hlower) hns ha
  rw [← h.pos] at hbefore
  exact (h.writer.slot (hbefore.index_le.trans_lt h.writer.pos_index_lt) hfits).sub hlow (by omega)

end

/-- Append an element and store its bytes. -/
def appendElement (g : Globals) (fuel : ℕ) (element : List UInt8) (w : StreamArchiver) :
    Prog (ℕ × StreamArchiver) := do
  let (p, w) ← iterateStreamArchiver g fuel true element.length 1 w
  storeBytes p element
  pure (p, w)

/-- The elements of the open segment, stored as they were appended. -/
structure Appended (g : Globals) (m₀ : Mem) (blocked : List FatExtent) (X : Set ℕ)
    (pages : List ℕ) (head : Pos) (w : StreamArchiver) (s : State) (es : Segment)
    (pages' : List ℕ) (w' : StreamArchiver) (t : State) : Prop where
  opened : Opened g m₀ blocked X pages head w s (sizes es) pages' w' t
  holds : HoldsCells g pages' t.mem (head.after sizeofHeader) es

section

variable {g : Globals} {m₀ : Mem} {blocked : List FatExtent} {X : Set ℕ} {pages pages' : List ℕ}
  {head : Pos} {w w' : StreamArchiver} {s t : State} {es : Segment}

/-- One more element. -/
theorem Appended.append (hg : ClusterArea g)
    (hb : BlockedExtents (dataClusterCount g.bootSector g.metaInfo) blocked) (fuel : ℕ)
    (hw : Writer g m₀ blocked pages head w s) (hf : Fresh pages head w)
    (hes : ∀ e ∈ es, sizeofPage + e.length ≤ pageSize g)
    (h : Appended g m₀ blocked X pages head w s es pages' w' t) {e : List UInt8}
    (he : sizeofPage + e.length ≤ pageSize g) :
    wp (appendElement g fuel e w')
      (fun x u => ∃ pages'', pages' <+: pages'' ∧
        Appended g m₀ blocked X pages head w s (es ++ [e]) pages'' x.2 u ∧
        x.1 = ((cellsEnd (pageSize g) (head.after sizeofHeader) (sizes es)).cell (pageSize g)
          e.length).addr g pages'' ∧
        Extends g X w' t x.2 u ∧ ∀ c ∈ pages'', c ∈ pages' ∨ isFree t.allocationBitmap c = true)
      NoFault t := by
  have hopen := h.opened
  have hns : ∀ n ∈ sizes es, sizeofPage + n ≤ pageSize g := by
    intro n hn
    obtain ⟨d, hd, rfl⟩ := List.mem_map.mp hn
    exact hes d hd
  simp only [appendElement, wp_bind, wp_pure, wp_storeBytes]
  refine wp_mono (iterate_insert_spec hg hb fuel 1 he hopen.writer) ?_ (fun _ _ h => h.1)
  intro r u hr
  obtain ⟨pages'', hadv, hindex⟩ := hr
  have hslot := hadv.slot hopen.writer he
  have hsame := Mem.sameOutside_write u.mem r.1 e
  have hnew : ∀ a, r.1 ≤ a → a < r.1 + e.length → ¬ Settled g w s a :=
    fun a hlow hhigh ha => hadv.fresh a hlow hhigh (hopen.ext.settled a ha)
  have haddr : r.1 = ((cellsEnd (pageSize g) (head.after sizeofHeader) (sizes es)).cell
      (pageSize g) e.length).addr g pages'' := by
    rw [← hopen.pos]
    exact hadv.addr
  refine ⟨pages'', hadv.pre, ⟨?_, ?_⟩, haddr, ?_, hadv.added⟩
  · rw [sizes, List.map_append]
    exact (hopen.append hadv hindex).stored (hadv.writer.stored_slot hg hslot hsame)
      (fun a hlow hhigh ha => absurd ha (hnew a hlow hhigh)) hsame
  · -- the elements before are settled, and the new one was just stored
    have hend : (cellsEnd (pageSize g) (head.after sizeofHeader) (sizes es)).index <
        pages'.length := by
      rw [← hopen.pos]
      exact hopen.writer.pos_index_lt
    rw [HoldsCells_append]
    refine ⟨(h.holds.extend hadv.pre hend).congr ?_, ?_, trivial⟩
    · intro a ha
      rw [CellBytes_extend hadv.pre hend] at ha
      have hsettled := (hopen.cells_settled hg hw hf hns ha).1
      have hout : a < r.1 ∨ r.1 + e.length ≤ a := by
        by_contra hin
        exact hadv.fresh a (by omega) (by omega) hsettled
      rw [State.stored_mem, hsame a hout, hadv.ext.mem a hsettled (Set.notMem_empty a)]
    · rw [← haddr]
      exact Mem.read_write u.mem r.1 e
  · exact hadv.ext.ofEmpty.stored (fun a hlow hhigh ha => absurd ha (hadv.fresh a hlow hhigh)) hsame

/-- A closed segment of appended elements is written. -/
theorem Appended.cut (hg : ClusterArea g)
    (hb : BlockedExtents (dataClusterCount g.bootSector g.metaInfo) blocked) (fuel : ℕ)
    (hw : Writer g m₀ blocked pages head w s) (hf : Fresh pages head w)
    (hx : OpenCells g pages X w s) (hes : ∀ e ∈ es, sizeofPage + e.length ≤ pageSize g)
    (hshort : es.length < 2 ^ 64)
    (h : Appended g m₀ blocked X pages head w s es pages' w' t) :
    wp (cutStreamArchiver g fuel w')
      (fun w'' u => ∃ pages'', pages' <+: pages'' ∧ Extends g ∅ w' t w'' u ∧
        (∀ c ∈ pages'', c ∈ pages' ∨ isFree t.allocationBitmap c = true) ∧
        Wrote g m₀ blocked X pages head w s [es] pages'' w'' u)
      NoFault t := by
  have hns : ∀ n ∈ sizes es, sizeofPage + n ≤ pageSize g := by
    intro n hn
    obtain ⟨d, hd, rfl⟩ := List.mem_map.mp hn
    exact hes d hd
  refine wp_mono_ok (h.opened.cut hg hb fuel) ?_
  intro w'' u hu
  obtain ⟨pages'', hpre, hext, hadded, hreserved⟩ := hu
  have hend : (cellsEnd (pageSize g) (head.after sizeofHeader) (sizes es)).index <
      pages'.length := by
    rw [← h.opened.pos]
    exact h.opened.writer.pos_index_lt
  refine ⟨pages'', hpre, hext, hadded, hreserved.finish hg hw hf hx hes hshort
    (Wrote.refl hreserved.writer hreserved.fresh) ?_⟩
  refine (h.holds.extend hpre hend).congr fun a ha => ?_
  rw [CellBytes_extend hpre hend] at ha
  exact hext.mem a (h.opened.cells_settled hg hw hf hns ha).1 (Set.notMem_empty a)

end

end OfsConvert
