import OfsConvert.StreamWriter

/-!
# The format of the stream

A segment is given by the bytes of its elements; their sizes decide where everything stands.
`HoldsSegments` says that a memory holds given segments from a header on. The writer's side
is built from two steps: reserve the elements of a segment and close it, and find the segment in
the memory once its elements are filled in.
-/

namespace OfsConvert

/-- The elements of a segment. -/
abbrev Segment := List (List UInt8)

/-- The sizes of the elements of a segment. -/
def sizes (segment : Segment) : List ℕ := segment.map List.length

/-- The position behind elements of the given sizes. -/
def cellsEnd (P : ℕ) : Pos → List ℕ → Pos
  | p, [] => p
  | p, n :: ns => cellsEnd P ((p.cell P n).after n) ns

/-- The header behind a segment with elements of the given sizes. -/
def nextHead (P : ℕ) (head : Pos) (ns : List ℕ) : Pos :=
  (cellsEnd P (head.after sizeofHeader) ns).cell P sizeofHeader

/-- The header behind a list of segments. -/
def headAfter (P : ℕ) : Pos → List Segment → Pos
  | head, [] => head
  | head, segment :: segments => headAfter P (nextHead P head (sizes segment)) segments

/-- The addresses of elements of the given sizes from a position on. -/
def cellAddrs (g : Globals) (pages : List ℕ) : Pos → List ℕ → List ℕ
  | _, [] => []
  | p, n :: ns =>
    (p.cell (pageSize g) n).addr g pages :: cellAddrs g pages ((p.cell (pageSize g) n).after n) ns

/-- The bytes of elements of the given sizes from a position on. -/
def CellBytes (g : Globals) (pages : List ℕ) : Pos → List ℕ → Set ℕ
  | _, [] => ∅
  | p, n :: ns =>
    {a | (p.cell (pageSize g) n).addr g pages ≤ a ∧ a < (p.cell (pageSize g) n).addr g pages + n} ∪
      CellBytes g pages ((p.cell (pageSize g) n).after n) ns

/-- The elements are in the memory from a position on. -/
def HoldsCells (g : Globals) (pages : List ℕ) (m : Mem) : Pos → Segment → Prop
  | _, [] => True
  | p, e :: es =>
    m.read ((p.cell (pageSize g) e.length).addr g pages) e.length = e ∧
      HoldsCells g pages m ((p.cell (pageSize g) e.length).after e.length) es

/-- Whether the elements are in the memory can be computed. -/
instance decidableHoldsCells (g : Globals) (pages : List ℕ) (m : Mem) :
    (p : Pos) → (es : Segment) → Decidable (HoldsCells g pages m p es)
  | _, [] => .isTrue trivial
  | p, e :: es =>
    have := decidableHoldsCells g pages m ((p.cell (pageSize g) e.length).after e.length) es
    inferInstanceAs (Decidable (_ ∧ _))

/-- The segment is in the memory at a header. -/
structure HoldsSegment (g : Globals) (pages : List ℕ) (m : Mem) (head : Pos) (segment : Segment) :
    Prop where
  count : m.readLE (head.addr g pages) sizeofHeader = segment.length
  cells : HoldsCells g pages m (head.after sizeofHeader) segment

/-- The segments are in the memory from a header on. -/
def HoldsSegments (g : Globals) (pages : List ℕ) (m : Mem) : Pos → List Segment → Prop
  | _, [] => True
  | head, segment :: segments =>
    HoldsSegment g pages m head segment ∧
      HoldsSegments g pages m (nextHead (pageSize g) head (sizes segment)) segments

/-- The bytes of a segment with elements of the given sizes. -/
def SegmentBytes (g : Globals) (pages : List ℕ) (head : Pos) (ns : List ℕ) : Set ℕ :=
  {a | head.addr g pages ≤ a ∧ a < head.addr g pages + sizeofHeader} ∪
    CellBytes g pages (head.after sizeofHeader) ns

section Layout

variable {g : Globals} {pages : List ℕ} {m m' : Mem} {P : ℕ}

/-- The position behind two lists of elements. -/
theorem cellsEnd_append (p : Pos) (ns ks : List ℕ) :
    cellsEnd P p (ns ++ ks) = cellsEnd P (cellsEnd P p ns) ks := by
  induction ns generalizing p with
  | nil => rfl
  | cons n ns ih => exact ih _

/-- The header behind two lists of segments. -/
theorem headAfter_append (head : Pos) (xs ys : List Segment) :
    headAfter P head (xs ++ ys) = headAfter P (headAfter P head xs) ys := by
  induction xs generalizing head with
  | nil => rfl
  | cons x xs ih => exact ih _

/-- The bytes of two lists of elements. -/
theorem CellBytes_append (p : Pos) (ns ks : List ℕ) :
    CellBytes g pages p (ns ++ ks) =
      CellBytes g pages p ns ∪ CellBytes g pages (cellsEnd (pageSize g) p ns) ks := by
  induction ns generalizing p with
  | nil => simp [CellBytes, cellsEnd]
  | cons n ns ih => rw [List.cons_append, CellBytes, ih, CellBytes, cellsEnd, Set.union_assoc]

/-- Two lists of elements are in the memory one behind the other. -/
theorem HoldsCells_append (p : Pos) (es fs : Segment) :
    HoldsCells g pages m p (es ++ fs) ↔
      HoldsCells g pages m p es ∧ HoldsCells g pages m (cellsEnd (pageSize g) p (sizes es)) fs := by
  induction es generalizing p with
  | nil => simp [HoldsCells, cellsEnd, sizes]
  | cons e es ih =>
    rw [List.cons_append, HoldsCells, ih, HoldsCells, and_assoc]
    rfl

/-- Two lists of segments are in the memory one behind the other. -/
theorem HoldsSegments_append (head : Pos) (xs ys : List Segment) :
    HoldsSegments g pages m head (xs ++ ys) ↔
      HoldsSegments g pages m head xs ∧
        HoldsSegments g pages m (headAfter (pageSize g) head xs) ys := by
  induction xs generalizing head with
  | nil => simp [HoldsSegments, headAfter]
  | cons x xs ih => rw [List.cons_append, HoldsSegments, ih, HoldsSegments, headAfter, and_assoc]

/-- No bytes end where they start. -/
theorem Pos.before_refl (p : Pos) : p.Before 0 p := Or.inr ⟨rfl, le_rfl⟩

/-- Whatever is not behind the start of some elements is not behind their end. -/
theorem Pos.Before.cellsEnd {p q : Pos} {len : ℕ} (h : q.Before len p) (ns : List ℕ) :
    q.Before len (cellsEnd P p ns) := by
  induction ns generalizing p with
  | nil => exact h
  | cons n ns ih => exact ih h.cell.after

/-- What ends behind the header ends in front of the next one. -/
theorem Pos.Before.nextHead {head q : Pos} {len : ℕ} (h : q.Before len (head.after sizeofHeader))
    (ns : List ℕ) : q.Before len (nextHead P head ns) := (h.cellsEnd ns).cell

/-- A header ends in front of the next one. -/
theorem head_before_nextHead (head : Pos) (ns : List ℕ) :
    head.Before sizeofHeader (nextHead P head ns) := (Pos.before_after head _).nextHead ns

/-- What is in front is on no later page. -/
theorem Pos.Before.index_le {p q : Pos} {len : ℕ} (h : p.Before len q) : p.index ≤ q.index := by
  unfold Pos.Before at h
  omega

/-- The position behind elements stays behind a page's link. -/
theorem cellsEnd_lower {p : Pos} (hp : sizeofPage ≤ p.offset) (ns : List ℕ) :
    sizeofPage ≤ (cellsEnd P p ns).offset := by
  induction ns generalizing p with
  | nil => exact hp
  | cons n ns ih =>
    apply ih
    unfold Pos.cell
    split
    · exact Nat.le_add_right _ _
    · exact Nat.le_add_right_of_le hp

/-- Every byte of some elements belongs to an element between their start and their end. -/
theorem exists_cell_of_mem {p : Pos} {ns : List ℕ} (hp : sizeofPage ≤ p.offset)
    (hns : ∀ n ∈ ns, sizeofPage + n ≤ pageSize g) {a : ℕ} (ha : a ∈ CellBytes g pages p ns) :
    ∃ q n, q.Fits (pageSize g) n ∧ p.Before 0 q ∧ q.Before n (cellsEnd (pageSize g) p ns) ∧
      q.addr g pages ≤ a ∧ a < q.addr g pages + n := by
  induction ns generalizing p with
  | nil => exact absurd ha (Set.notMem_empty a)
  | cons n ns ih =>
    have hfits : (p.cell (pageSize g) n).Fits (pageSize g) n := Pos.cell_fits hp (hns n (by simp))
    cases ha with
    | inl hin =>
      exact ⟨_, n, hfits, (Pos.before_refl p).cell, (Pos.before_after _ n).cellsEnd ns, hin⟩
    | inr hin =>
      obtain ⟨q, k, hq, hafter, hbefore, hrange⟩ :=
        ih (Nat.le_add_right_of_le hfits.lower) (fun k hk => hns k (by simp [hk])) hin
      refine ⟨q, k, hq, ?_, hbefore, hrange⟩
      exact ((Pos.before_refl p).cell.after (n := n)).trans hafter

/-- Elements depend on their own bytes. -/
theorem HoldsCells.congr {p : Pos} {es : Segment} (h : HoldsCells g pages m p es)
    (hm : ∀ a ∈ CellBytes g pages p (sizes es), m' a = m a) : HoldsCells g pages m' p es := by
  induction es generalizing p with
  | nil => trivial
  | cons e es ih =>
    refine ⟨?_, ih h.2 fun a ha => hm a (Or.inr ha)⟩
    rw [← h.1, h.1]
    refine Eq.trans (Mem.read_congr fun i hi => ?_) h.1
    exact hm _ (Or.inl ⟨Nat.le_add_right _ _, Nat.add_lt_add_left hi _⟩)

/-- A segment depends on its own bytes. -/
theorem HoldsSegment.congr {head : Pos} {es : Segment} (h : HoldsSegment g pages m head es)
    (hm : ∀ a ∈ SegmentBytes g pages head (sizes es), m' a = m a) :
    HoldsSegment g pages m' head es := by
  refine ⟨?_, h.cells.congr fun a ha => hm a (Or.inr ha)⟩
  rw [← h.count]
  exact Mem.readLE_congr fun i hi => hm _ (Or.inl ⟨Nat.le_add_right _ _, Nat.add_lt_add_left hi _⟩)

/-- More pages do not move elements. -/
theorem CellBytes_extend {pages' : List ℕ} (hpre : pages <+: pages') {p : Pos} {ns : List ℕ}
    (hindex : (cellsEnd (pageSize g) p ns).index < pages.length) :
    CellBytes g pages' p ns = CellBytes g pages p ns := by
  induction ns generalizing p with
  | nil => rfl
  | cons n ns ih =>
    have hcell : (p.cell (pageSize g) n).index < pages.length :=
      ((Pos.before_after (p.cell (pageSize g) n) n).cellsEnd ns).index_le.trans_lt hindex
    rw [CellBytes, CellBytes, ih hindex, Pos.addr_extend hpre hcell]

/-- The addresses of two lists of elements. -/
theorem cellAddrs_append (p : Pos) (ns ks : List ℕ) :
    cellAddrs g pages p (ns ++ ks) =
      cellAddrs g pages p ns ++ cellAddrs g pages (cellsEnd (pageSize g) p ns) ks := by
  induction ns generalizing p with
  | nil => rfl
  | cons n ns ih => rw [List.cons_append, cellAddrs, ih, cellAddrs, cellsEnd, List.cons_append]

/-- More pages do not move elements. -/
theorem cellAddrs_extend {pages' : List ℕ} (hpre : pages <+: pages') {p : Pos} {ns : List ℕ}
    (hindex : (cellsEnd (pageSize g) p ns).index < pages.length) :
    cellAddrs g pages' p ns = cellAddrs g pages p ns := by
  induction ns generalizing p with
  | nil => rfl
  | cons n ns ih =>
    have hcell : (p.cell (pageSize g) n).index < pages.length :=
      ((Pos.before_after (p.cell (pageSize g) n) n).cellsEnd ns).index_le.trans_lt hindex
    rw [cellAddrs, cellAddrs, ih hindex, Pos.addr_extend hpre hcell]

/-- Elements stay where they are when pages are added. -/
theorem HoldsCells.extend {pages' : List ℕ} (hpre : pages <+: pages') {p : Pos} {es : Segment}
    (hindex : (cellsEnd (pageSize g) p (sizes es)).index < pages.length)
    (h : HoldsCells g pages m p es) : HoldsCells g pages' m p es := by
  induction es generalizing p with
  | nil => trivial
  | cons e es ih =>
    have hcell : (p.cell (pageSize g) e.length).index < pages.length :=
      ((Pos.before_after _ e.length).cellsEnd (sizes es)).index_le.trans_lt hindex
    refine ⟨?_, ih hindex h.2⟩
    rw [Pos.addr_extend hpre hcell]
    exact h.1

/-- A segment stays where it is when pages are added. -/
theorem HoldsSegment.extend {pages' : List ℕ} (hpre : pages <+: pages') {head : Pos}
    {es : Segment} (hindex : (nextHead (pageSize g) head (sizes es)).index < pages.length)
    (h : HoldsSegment g pages m head es) : HoldsSegment g pages' m head es := by
  have hcells : (cellsEnd (pageSize g) (head.after sizeofHeader) (sizes es)).index <
      pages.length := (Pos.before_refl _).cell.index_le.trans_lt hindex
  have hhead : head.index < pages.length :=
    (head_before_nextHead head (sizes es)).index_le.trans_lt hindex
  refine ⟨?_, h.cells.extend hpre hcells⟩
  rw [Pos.addr_extend hpre hhead]
  exact h.count

/-- Later headers are on no earlier page. -/
theorem head_before_headAfter (head : Pos) (segments : List Segment) :
    head.index ≤ (headAfter P head segments).index := by
  induction segments generalizing head with
  | nil => exact le_rfl
  | cons segment segments ih =>
    exact (head_before_nextHead head (sizes segment)).index_le.trans (ih _)

/-- Segments stay where they are when pages are added. -/
theorem HoldsSegments.extend {pages' : List ℕ} (hpre : pages <+: pages') {head : Pos}
    {segments : List Segment}
    (hindex : (headAfter (pageSize g) head segments).index < pages.length)
    (h : HoldsSegments g pages m head segments) : HoldsSegments g pages' m head segments := by
  induction segments generalizing head with
  | nil => trivial
  | cons segment segments ih =>
    exact ⟨h.1.extend hpre ((head_before_headAfter _ segments).trans_lt hindex), ih hindex h.2⟩

end Layout

/-- A fact about the memory that holds from here on, however the run goes on. -/
def Stable (g : Globals) (X : Set ℕ) (w : StreamArchiver) (s : State) (φ : Mem → Prop) : Prop :=
  ∀ w' t, Extends g X w s w' t → φ t.mem

namespace Stable

variable {g : Globals} {X D : Set ℕ} {w w' : StreamArchiver} {s t : State} {φ ψ : Mem → Prop}

/-- A stable fact holds now. -/
theorem now (h : Stable g X w s φ) : φ s.mem := h w s (Extends.refl g X w s)

/-- A stable fact is stable later. -/
theorem later (h : Stable g X w s φ) (hext : Extends g X w s w' t) : Stable g X w' t φ :=
  fun w'' u hu => h w'' u (hext.trans hu)

/-- What follows from a stable fact is stable. -/
theorem imp (h : Stable g X w s φ) (himp : ∀ m, φ m → ψ m) : Stable g X w s ψ :=
  fun w' t ht => himp _ (h w' t ht)

/-- Two stable facts together are stable. -/
theorem and (h : Stable g X w s φ) (h' : Stable g X w s ψ) :
    Stable g X w s fun m => φ m ∧ ψ m := fun w' t ht => ⟨h w' t ht, h' w' t ht⟩

/-- A fact that is stable with more bytes open is so with fewer. -/
theorem mono (h : Stable g D w s φ) (hxd : X ⊆ D) : Stable g X w s φ :=
  fun w' t ht => h w' t (ht.mono hxd)

/-- Elements reserved later may be filled in. -/
theorem reserve (h : Stable g X w s φ) (hext : Extends g X w s w' t)
    (hd : ∀ a ∈ D, ¬ Settled g w s a) : Stable g (X ∪ D) w' t φ := by
  intro w'' u hu
  exact h w'' u (((hext.mono Set.subset_union_left).trans hu).shrink hd)

/-- A fact about settled bytes that are not to be filled in. -/
theorem intro {B : Set ℕ} (hb : ∀ a ∈ B, Settled g w s a ∧ a ∉ X)
    (h : ∀ m : Mem, (∀ a ∈ B, m a = s.mem a) → φ m) : Stable g X w s φ :=
  fun _ t ht => h t.mem fun a ha => ht.mem a (hb a ha).1 (hb a ha).2

end Stable

end OfsConvert
