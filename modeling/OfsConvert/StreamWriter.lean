import OfsConvert.DataArea
import OfsConvert.StreamArchiver
import Mathlib.Data.Set.Basic

/-!
# Writing to the stream

A position in the stream is a page index and an offset; the size of an element decides whether
it goes to the next page. `Writer` relates a write stream to its pages and to the header of its
open segment. Bytes of taken clusters are settled unless the writer is still to fill them: the
link and the unused end of the current page and the open header. `Extends` says that a part of
a run keeps what is settled, apart from elements that were reserved to be filled in later.
-/

namespace OfsConvert

/-- A position in the stream. -/
structure Pos where
  index : ℕ
  offset : ℕ
  deriving DecidableEq, Repr, Inhabited

namespace Pos

/-- Where an element of `len` bytes goes that is appended at a position. -/
def cell (P : ℕ) (p : Pos) (len : ℕ) : Pos :=
  if P < p.offset + len then ⟨p.index + 1, sizeofPage⟩ else p

/-- The position behind an element of `len` bytes. -/
def after (p : Pos) (len : ℕ) : Pos := ⟨p.index, p.offset + len⟩

/-- An element of `len` bytes at `p` ends before `q`. -/
def Before (p : Pos) (len : ℕ) (q : Pos) : Prop :=
  p.index < q.index ∨ p.index = q.index ∧ p.offset + len ≤ q.offset

/-- The address of a position. -/
def addr (g : Globals) (pages : List ℕ) (p : Pos) : ℕ :=
  clusterStart g.metaInfo (pages.getD p.index 0) + p.offset

/-- The positions of an element inside a page. -/
structure Fits (P len : ℕ) (p : Pos) : Prop where
  lower : sizeofPage ≤ p.offset
  upper : p.offset + len ≤ P

/-- Moving on stays on the page. -/
@[simp] theorem after_index (p : Pos) (len : ℕ) : (p.after len).index = p.index := rfl

/-- Moving on adds to the offset. -/
@[simp] theorem after_offset (p : Pos) (len : ℕ) : (p.after len).offset = p.offset + len := rfl

/-- An element fits behind the link of its page. -/
theorem cell_fits {P len : ℕ} {p : Pos} (hp : sizeofPage ≤ p.offset) (hlen : 8 + len ≤ P) :
    (p.cell P len).Fits P len := by
  unfold cell
  split
  · exact ⟨le_rfl, hlen⟩
  · exact ⟨hp, by omega⟩

/-- An element goes behind everything that ended before its position. -/
theorem Before.cell {P len n : ℕ} {p q : Pos} (h : p.Before len q) : p.Before len (q.cell P n) := by
  unfold Before Pos.cell at *
  split
  · dsimp only
    omega
  · exact h

/-- What is in front stays in front when the position moves on. -/
theorem Before.after {len n : ℕ} {p q : Pos} (h : p.Before len q) : p.Before len (q.after n) := by
  unfold Before at *
  simp only [after_index, after_offset]
  omega

/-- Bytes end where they end. -/
theorem before_after (p : Pos) (len : ℕ) : p.Before len (p.after len) := Or.inr ⟨rfl, le_rfl⟩

/-- Being in front is transitive. -/
theorem Before.trans {len n : ℕ} {p q r : Pos} (h : p.Before len q) (h' : q.Before n r) :
    p.Before len r := by
  unfold Before at *
  omega

/-- More pages do not move a position. -/
theorem addr_extend {g : Globals} {pages pages' : List ℕ} {p : Pos} (h : pages <+: pages')
    (hp : p.index < pages.length) : p.addr g pages' = p.addr g pages := by
  obtain ⟨rest, rfl⟩ := h
  rw [addr, addr, List.getD_append _ _ _ _ hp]

end Pos

/-- The position at which a write stream stands. -/
def StreamArchiver.pos (pages : List ℕ) (w : StreamArchiver) : Pos :=
  ⟨pages.length - 1, w.offsetInPage⟩

/-- A byte in front of the data area or of a cluster that is not free any more. -/
def Taken (g : Globals) (s : State) (a : ℕ) : Prop :=
  a < g.metaInfo.dataStart ∨
    ∃ c, DataCluster g c ∧ isFree s.allocationBitmap c = false ∧ InCluster g c a

/-- A byte that the write stream is still to fill. -/
def Pending (g : Globals) (w : StreamArchiver) (a : ℕ) : Prop :=
  (w.page ≤ a ∧ a < w.page + sizeofPage) ∨
  (w.page + w.offsetInPage ≤ a ∧ a < w.page + pageSize g) ∨
  (w.header ≤ a ∧ a < w.header + sizeofHeader)

/-- A byte that keeps its value. -/
def Settled (g : Globals) (w : StreamArchiver) (s : State) (a : ℕ) : Prop :=
  Taken g s a ∧ ¬ Pending g w a

/-- A part of a run from `s` to `t`, over which the write stream goes from `w` to `w'`; the
bytes of `X` may still be filled in. -/
structure Extends (g : Globals) (X : Set ℕ) (w : StreamArchiver) (s : State)
    (w' : StreamArchiver) (t : State) : Prop where
  settled : ∀ a, Settled g w s a → Settled g w' t a
  mem : ∀ a, Settled g w s a → a ∉ X → t.mem a = s.mem a
  taken : ∀ c, isFree s.allocationBitmap c = false → isFree t.allocationBitmap c = false
  ext4 : t.ext4 = s.ext4

/-- The write stream `w` stands on the last of its pages, which are taken and linked; the header
of the open segment is at `head`. -/
structure Writer (g : Globals) (m₀ : Mem) (blocked : List FatExtent) (pages : List ℕ) (head : Pos)
    (w : StreamArchiver) (s : State) : Prop where
  alloc : AllocatorInv g m₀ blocked s
  intact : Intact g m₀ s
  usable : ∀ c ∈ pages, Usable g m₀ blocked c
  taken : ∀ c ∈ pages, isFree s.allocationBitmap c = false
  nodup : pages.Nodup
  nonempty : pages ≠ []
  page : w.page = clusterStart g.metaInfo (pages.getD (pages.length - 1) 0)
  lower : sizeofPage ≤ w.offsetInPage
  upper : w.offsetInPage ≤ pageSize g
  header : w.header = head.addr g pages
  headFits : head.Fits (pageSize g) sizeofHeader
  headBefore : head.Before sizeofHeader (w.pos pages)
  links : ∀ i, i + 1 < pages.length →
    s.mem.readLE (clusterStart g.metaInfo (pages.getD i 0)) 8 =
      clusterStart g.metaInfo (pages.getD (i + 1) 0)

/-- Bytes of the pages behind their links. -/
def Slot (g : Globals) (pages : List ℕ) (p n : ℕ) : Prop :=
  ∃ c ∈ pages, clusterStart g.metaInfo c + sizeofPage ≤ p ∧
    p + n ≤ clusterStart g.metaInfo c + pageSize g

/-- Bytes of the pages are bytes of more pages. -/
theorem Slot.extend {g : Globals} {pages pages' : List ℕ} {p n : ℕ} (h : Slot g pages p n)
    (hp : pages <+: pages') : Slot g pages' p n := by
  obtain ⟨c, hc, hrange⟩ := h
  exact ⟨c, hp.subset hc, hrange⟩

/-- A part of such bytes is one. -/
theorem Slot.sub {g : Globals} {pages : List ℕ} {p n q k : ℕ} (h : Slot g pages p n)
    (hlow : p ≤ q) (hhigh : q + k ≤ p + n) : Slot g pages q k := by
  obtain ⟨c, hc, hstart, hstop⟩ := h
  exact ⟨c, hc, by omega, by omega⟩

namespace Extends

variable {g : Globals} {X Y : Set ℕ} {w w' w'' : StreamArchiver} {s t u : State}

/-- A step that does nothing extends the stream by nothing. -/
theorem refl (g : Globals) (X : Set ℕ) (w : StreamArchiver) (s : State) : Extends g X w s w s :=
  ⟨fun _ h => h, fun _ _ _ => rfl, fun _ h => h, rfl⟩

/-- Extensions compose. -/
theorem trans (h : Extends g X w s w' t) (h' : Extends g X w' t w'' u) : Extends g X w s w'' u :=
  ⟨fun a ha => h'.settled a (h.settled a ha),
    fun a ha hx => (h'.mem a (h.settled a ha) hx).trans (h.mem a ha hx),
    fun c hc => h'.taken c (h.taken c hc), h'.ext4.trans h.ext4⟩

/-- An extension may fill in more bytes. -/
theorem mono (h : Extends g X w s w' t) (hxy : X ⊆ Y) : Extends g Y w s w' t :=
  ⟨h.settled, fun a ha hy => h.mem a ha fun hx => hy (hxy hx), h.taken, h.ext4⟩

/-- An extension that fills in nothing. -/
theorem ofEmpty (h : Extends g ∅ w s w' t) : Extends g X w s w' t := h.mono (Set.empty_subset X)

/-- Bytes that were not settled at the start need not be named. -/
theorem shrink (h : Extends g (X ∪ Y) w s w' t) (hy : ∀ a ∈ Y, ¬ Settled g w s a) :
    Extends g X w s w' t := by
  refine ⟨h.settled, ?_, h.taken, h.ext4⟩
  intro a ha hx
  refine h.mem a ha ?_
  rintro (hin | hin)
  · exact hx hin
  · exact hy a hin ha

/-- A store to bytes that were not settled at the start or may be filled in. -/
theorem stored (h : Extends g X w s w' t) {p n : ℕ} {m : Mem}
    (hnew : ∀ a, p ≤ a → a < p + n → Settled g w s a → a ∈ X)
    (hm : Mem.SameOutside p n t.mem m) : Extends g X w s w' (t.stored p n m) := by
  refine ⟨h.settled, ?_, h.taken, h.ext4⟩
  intro a ha hx
  have hout : a < p ∨ p + n ≤ a := by
    by_contra hin
    exact hx (hnew a (by omega) (by omega) ha)
  rw [State.stored_mem, hm a hout]
  exact h.mem a ha hx

end Extends

namespace Writer

variable {g : Globals} {m₀ : Mem} {blocked : List FatExtent} {pages : List ℕ} {head : Pos}
  {w : StreamArchiver} {s : State}

/-- A write stream has a page. -/
theorem length_pos (h : Writer g m₀ blocked pages head w s) : 0 < pages.length :=
  List.length_pos_iff.mpr h.nonempty

/-- A page by its number. -/
theorem getD_mem (_h : Writer g m₀ blocked pages head w s) {i : ℕ} (hi : i < pages.length) :
    pages.getD i 0 ∈ pages := by
  rw [List.getD_eq_getElem _ _ hi]
  exact List.getElem_mem hi

/-- No page occurs twice. -/
theorem getD_inj (h : Writer g m₀ blocked pages head w s) {i j : ℕ} (hi : i < pages.length)
    (hj : j < pages.length) (heq : pages.getD i 0 = pages.getD j 0) : i = j := by
  rw [List.getD_eq_getElem _ _ hi, List.getD_eq_getElem _ _ hj] at heq
  exact (h.nodup.getElem_inj_iff).mp heq

/-- The write stream stands on one of its pages. -/
theorem pos_index_lt (h : Writer g m₀ blocked pages head w s) :
    (w.pos pages).index < pages.length := Nat.sub_lt h.length_pos Nat.one_pos

/-- The header of the open segment is on one of the pages. -/
theorem head_index_lt (h : Writer g m₀ blocked pages head w s) : head.index < pages.length := by
  have hlt := h.pos_index_lt
  have hbefore := h.headBefore
  unfold Pos.Before at hbefore
  omega

/-- An element inside the pages lies in the page's cluster. -/
theorem inCluster (_h : Writer g m₀ blocked pages head w s) {q : Pos} {len a : ℕ}
    (hfits : q.Fits (pageSize g) len)
    (hlow : q.addr g pages ≤ a) (hhigh : a < q.addr g pages + len) :
    InCluster g (pages.getD q.index 0) a := by
  have hupper := hfits.upper
  unfold Pos.addr at hlow hhigh
  unfold pageSize at hupper
  exact ⟨by omega, by omega⟩

/-- The current position is at the page of the stream. -/
theorem pos_addr (h : Writer g m₀ blocked pages head w s) :
    (w.pos pages).addr g pages = w.page + w.offsetInPage := by
  rw [h.page, Pos.addr]
  rfl

/-- A position inside the pages is a slot. -/
theorem slot (h : Writer g m₀ blocked pages head w s) {q : Pos} {len : ℕ}
    (hindex : q.index < pages.length) (hfits : q.Fits (pageSize g) len) :
    Slot g pages (q.addr g pages) len := by
  have hlower := hfits.lower
  have hupper := hfits.upper
  refine ⟨pages.getD q.index 0, h.getD_mem hindex, ?_, ?_⟩
  · unfold Pos.addr
    omega
  · unfold Pos.addr
    omega

/-- An element and one behind it share no byte. -/
theorem cells_disjoint (hg : ClusterArea g) (h : Writer g m₀ blocked pages head w s) {p q : Pos}
    {n k a : ℕ} (hq : q.index < pages.length) (hpfits : p.Fits (pageSize g) n)
    (hqfits : q.Fits (pageSize g) k) (hbefore : p.Before n q)
    (hp₁ : p.addr g pages ≤ a) (hp₂ : a < p.addr g pages + n)
    (hq₁ : q.addr g pages ≤ a) (hq₂ : a < q.addr g pages + k) : False := by
  unfold Pos.Before at hbefore
  have hp : p.index < pages.length := by omega
  have heq := h.getD_inj hp hq
    (hg.inCluster_unique (h.usable _ (h.getD_mem hp)).dataCluster
      (h.usable _ (h.getD_mem hq)).dataCluster (h.inCluster hpfits hp₁ hp₂)
      (h.inCluster hqfits hq₁ hq₂))
  unfold Pos.addr at *
  rw [heq] at hp₂
  omega

/-- Whatever ends before the current position, apart from the open header, is settled. -/
theorem settled (hg : ClusterArea g) (h : Writer g m₀ blocked pages head w s) {q : Pos} {len : ℕ}
    (hfits : q.Fits (pageSize g) len) (hcur : q.Before len (w.pos pages))
    (hhead : q.Before len head ∨ head.Before sizeofHeader q) {a : ℕ}
    (hlow : q.addr g pages ≤ a) (hhigh : a < q.addr g pages + len) : Settled g w s a := by
  have hindex : q.index < pages.length := by
    have hlt := h.pos_index_lt
    unfold Pos.Before at hcur
    omega
  have hmem := h.getD_mem hindex
  have hin := h.inCluster hfits hlow hhigh
  have hcluster := (h.usable _ hmem).dataCluster
  refine ⟨Or.inr ⟨_, hcluster, h.taken _ hmem, hin⟩, ?_⟩
  -- a byte of another page is in another cluster
  have hsame : ∀ i < pages.length, InCluster g (pages.getD i 0) a → i = q.index := fun i hi hia =>
    h.getD_inj hi hindex
      (hg.inCluster_unique (h.usable _ (h.getD_mem hi)).dataCluster hcluster hia hin)
  have hlast : pages.length - 1 < pages.length := h.pos_index_lt
  have hfl := hfits.lower
  have hP := h.headFits.upper
  have hlow' := hlow
  have hhigh' := hhigh
  unfold Pos.addr at hlow' hhigh'
  have hoff := h.upper
  intro hpending
  unfold Pending at hpending
  rw [h.page, h.header] at hpending
  unfold pageSize sizeofPage sizeofHeader at *
  rcases hpending with ⟨h1, h2⟩ | ⟨h1, h2⟩ | ⟨h1, h2⟩
  · have hidx := hsame _ hlast ⟨h1, by omega⟩
    rw [hidx] at h1 h2
    omega
  · have hidx := hsame _ hlast ⟨by omega, h2⟩
    rw [hidx] at h1 h2
    unfold Pos.Before StreamArchiver.pos at hcur
    dsimp only at hcur
    omega
  · have hinhead := h.inCluster h.headFits h1 h2
    have hidx := hsame _ h.head_index_lt hinhead
    unfold Pos.addr at h1 h2
    rw [hidx] at h1 h2
    unfold Pos.Before at hhead
    omega

/-- Taken clusters that are no pages are settled. -/
theorem cluster_settled (hg : ClusterArea g) (h : Writer g m₀ blocked pages head w s) {c a : ℕ}
    (hc : DataCluster g c) (htaken : isFree s.allocationBitmap c = false) (hnot : c ∉ pages)
    (hin : InCluster g c a) : Settled g w s a := by
  refine ⟨Or.inr ⟨c, hc, htaken, hin⟩, fun hpending => ?_⟩
  have hsize := hg.room
  have hlast := h.getD_mem h.pos_index_lt
  have hpage : ∀ i < pages.length, ¬ InCluster g (pages.getD i 0) a := fun i hi hia =>
    hnot (hg.inCluster_unique hc (h.usable _ (h.getD_mem hi)).dataCluster hin hia ▸ h.getD_mem hi)
  have hcurrent := hpage _ h.pos_index_lt
  rw [StreamArchiver.pos, InCluster, ← h.page] at hcurrent
  have hoffset := h.upper
  rcases hpending with ⟨h1, h2⟩ | ⟨h1, h2⟩ | ⟨h1, h2⟩
  · unfold sizeofPage at h2
    omega
  · unfold pageSize at h2
    omega
  · rw [h.header] at h1 h2
    exact hpage _ h.head_index_lt (h.inCluster h.headFits h1 h2)

/-- A store to free clusters that spares the links keeps the writer. -/
theorem stored (hg : ClusterArea g) (h : Writer g m₀ blocked pages head w s) {p n : ℕ} {m : Mem}
    (hfree : ∀ a, p ≤ a → a < p + n → FreeByte g m₀ a)
    (hlinks : ∀ c ∈ pages, ∀ a, p ≤ a → a < p + n →
      ¬ (clusterStart g.metaInfo c ≤ a ∧ a < clusterStart g.metaInfo c + sizeofPage))
    (hm : Mem.SameOutside p n s.mem m) : Writer g m₀ blocked pages head w (s.stored p n m) := by
  refine ⟨⟨h.alloc.extents, h.alloc.count, h.alloc.current, h.alloc.passed, h.alloc.cursor,
    h.alloc.free⟩, h.intact.stored hg hfree hm, h.usable, h.taken, h.nodup, h.nonempty, h.page,
    h.lower, h.upper, h.header, h.headFits, h.headBefore, ?_⟩
  intro i hi
  rw [← h.links i hi, State.stored_mem]
  apply Mem.readLE_congr
  intro j hj
  apply hm
  by_contra hin
  exact hlinks _ (h.getD_mem (i := i) (by omega)) _ (by omega) (by omega)
    ⟨Nat.le_add_right _ _, Nat.add_lt_add_left hj _⟩

/-- The bytes of a slot are free in the FAT. -/
theorem slot_free (h : Writer g m₀ blocked pages head w s) {p n : ℕ} (hslot : Slot g pages p n)
    {a : ℕ} (hlow : p ≤ a) (hhigh : a < p + n) : FreeByte g m₀ a := by
  obtain ⟨c, hc, hstart, hstop⟩ := hslot
  have hus := h.usable c hc
  unfold pageSize at hstop
  exact ⟨c, hus.dataCluster, hus.free, by omega, by omega⟩

/-- A slot spares the links. -/
theorem slot_links (hg : ClusterArea g) (h : Writer g m₀ blocked pages head w s) {p n : ℕ}
    (hslot : Slot g pages p n) {c a : ℕ} (hc : c ∈ pages) (hlow : p ≤ a) (hhigh : a < p + n) :
    ¬ (clusterStart g.metaInfo c ≤ a ∧ a < clusterStart g.metaInfo c + sizeofPage) := by
  obtain ⟨d, hd, hstart, hstop⟩ := hslot
  have hfits := h.headFits.upper
  have hlower := h.headFits.lower
  intro hlink
  unfold pageSize sizeofPage sizeofHeader at *
  have heq := hg.inCluster_unique (h.usable c hc).dataCluster (h.usable d hd).dataCluster
    ⟨hlink.1, by omega⟩ ⟨by omega, by omega⟩
  subst heq
  omega

/-- A store to a slot keeps the writer. -/
theorem stored_slot (hg : ClusterArea g) (h : Writer g m₀ blocked pages head w s) {p n : ℕ} {m : Mem}
    (hslot : Slot g pages p n) (hm : Mem.SameOutside p n s.mem m) :
    Writer g m₀ blocked pages head w (s.stored p n m) :=
  h.stored hg (fun _ hlow hhigh => h.slot_free hslot hlow hhigh)
    (fun _ hc _ hlow hhigh => h.slot_links hg hslot hc hlow hhigh) hm

end Writer

/-- From `s` to `t` the allocator has handed out the cluster `c`. -/
structure TakesCluster (g : Globals) (m₀ : Mem) (blocked : List FatExtent) (s t : State)
    (c : ℕ) : Prop where
  usable : Usable g m₀ blocked c
  fresh : isFree s.allocationBitmap c = true
  alloc : AllocatorInv g m₀ blocked t
  only : AllocOnly s t
  marked : ∀ d, isFree t.allocationBitmap d = (isFree s.allocationBitmap d && d != c)

/-- The state after a new page was linked behind the current one. -/
def State.linkPage (s : State) (page new : ℕ) : State :=
  let linked := s.stored page 8 (s.mem.write page (leBytes 8 new))
  linked.stored new 8 (linked.mem.write new (leBytes 8 0))

section

variable {g : Globals} {m₀ : Mem} {blocked : List FatExtent} {pages : List ℕ} {head : Pos}
  {w : StreamArchiver} {s t : State} {c : ℕ}

/-- The bytes of a free cluster are not taken. -/
theorem not_taken_of_isFree (hg : ClusterArea g) {a : ℕ} (hc : DataCluster g c)
    (hfree : isFree s.allocationBitmap c = true) (hin : InCluster g c a) : ¬ Taken g s a := by
  intro htaken
  cases htaken with
  | inl hlow =>
    have hstart := ClusterArea.dataStart_le hc
    have hle := hin.1
    omega
  | inr hother =>
    obtain ⟨d, hd, hused, hin'⟩ := hother
    rw [hg.inCluster_unique hd hc hin' hin, hfree] at hused
    exact absurd hused (by decide)

/-- `allocatePage` takes one usable cluster. -/
theorem allocatePage_spec
    (hb : BlockedExtents (dataClusterCount g.bootSector g.metaInfo) blocked) (fuel : ℕ)
    (h : AllocatorInv g m₀ blocked s) :
    wp (allocatePage g fuel)
      (fun p t => ∃ c, p = clusterStart g.metaInfo c ∧ TakesCluster g m₀ blocked s t c)
      (fun e t => NoFault e t ∧ AllocOnly s t) s := by
  rw [allocatePage, wp_bind]
  refine wp_mono_ok (allocateExtent_spec hb le_rfl (by norm_num) fuel h) ?_
  intro e t he
  obtain ⟨hinv, honly, hlen, halloc⟩ := he
  have hone : e.clusters = [e.physicalStart] := by
    have hpos := halloc.positive
    rw [FatExtent.clusters, show e.length = 1 by omega]
    rfl
  have hmem : e.physicalStart ∈ e.clusters := by simp [hone]
  refine ⟨e.physicalStart, rfl, halloc.usable _ hmem, halloc.fresh _ hmem, hinv, honly, ?_⟩
  intro d
  rw [halloc.marked d, hone, List.contains_cons, List.contains_nil, Bool.or_false]
  rfl

/-- A taken cluster stays taken. -/
theorem TakesCluster.taken (h : TakesCluster g m₀ blocked s t c) {d : ℕ}
    (hd : isFree s.allocationBitmap d = false) : isFree t.allocationBitmap d = false := by
  rw [h.marked d, hd, Bool.false_and]

/-- The cluster handed out is taken. -/
theorem TakesCluster.taken_self (h : TakesCluster g m₀ blocked s t c) :
    isFree t.allocationBitmap c = false := by
  simp [h.marked c]

/-- The cluster handed out is no page yet. -/
theorem TakesCluster.not_mem (h : TakesCluster g m₀ blocked s t c)
    (hw : Writer g m₀ blocked pages head w s) : c ∉ pages := by
  intro hmem
  have htaken := hw.taken c hmem
  rw [h.fresh] at htaken
  exact absurd htaken (by decide)

/-- Filling up the current page settles more. -/
theorem extends_inPage (g : Globals) (w : StreamArchiver) (s : State) (len : ℕ) :
    Extends g ∅ w s { w with offsetInPage := w.offsetInPage + len } s := by
  refine ⟨?_, fun _ _ _ => rfl, fun _ hc => hc, rfl⟩
  intro a ha
  refine ⟨ha.1, fun hpending => ha.2 ?_⟩
  unfold Pending at hpending ⊢
  dsimp only at hpending
  omega

/-- Linking a new page behind the current one changes nothing that was settled. -/
theorem TakesCluster.extends_linkPage (hg : ClusterArea g) (h : TakesCluster g m₀ blocked s t c)
    (len : ℕ) :
    Extends g ∅ w s
      { w with page := clusterStart g.metaInfo c, offsetInPage := sizeofPage + len }
      (t.linkPage w.page (clusterStart g.metaInfo c)) := by
  have hsize := hg.room
  have hcluster : ∀ a, Settled g w s a → ¬ InCluster g c a := fun a ha hin =>
    not_taken_of_isFree hg h.usable.dataCluster h.fresh hin ha.1
  refine ⟨?_, ?_, fun d hd => h.taken hd, h.only.ext4⟩
  · intro a ha
    refine ⟨?_, ?_⟩
    · cases ha.1 with
      | inl hlow => exact Or.inl hlow
      | inr hused =>
        obtain ⟨d, hd, htaken, hin⟩ := hused
        exact Or.inr ⟨d, hd, h.taken htaken, hin⟩
    · intro hpending
      have hout := hcluster a ha
      have hold := ha.2
      unfold Pending pageSize sizeofPage at hpending hold
      unfold InCluster at hout
      dsimp only at hpending
      omega
  · intro a ha _
    have hout := hcluster a ha
    have hold := ha.2
    unfold Pending sizeofPage at hold
    unfold InCluster at hout
    simp only [State.linkPage, State.stored_mem]
    rw [Mem.sameOutside_write _ _ _ a (by rw [length_leBytes]; omega),
      Mem.sameOutside_write _ _ _ a (by rw [length_leBytes]; omega), h.only.mem]

/-- A linked new page is the current page of the writer. -/
theorem Writer.linkPage (hg : ClusterArea g) (hw : Writer g m₀ blocked pages head w s)
    (h : TakesCluster g m₀ blocked s t c) {len : ℕ} (hlen : sizeofPage + len ≤ pageSize g) :
    Writer g m₀ blocked (pages ++ [c]) head
      { w with page := clusterStart g.metaInfo c, offsetInPage := sizeofPage + len }
      (t.linkPage w.page (clusterStart g.metaInfo c)) := by
  have hsize := hg.room
  have hnot := h.not_mem hw
  have hlast : pages.length - 1 < pages.length := hw.pos_index_lt
  have hhead := hw.head_index_lt
  have hpageMem := hw.getD_mem hlast
  have hpage := hw.page
  have hcd := h.usable.dataCluster
  have hget : ∀ i < pages.length, (pages ++ [c]).getD i 0 = pages.getD i 0 := fun i hi =>
    List.getD_append _ _ _ _ hi
  have hnew : (pages ++ [c]).getD pages.length 0 = c := by
    rw [List.getD_append_right _ _ _ _ le_rfl, Nat.sub_self]
    rfl
  have hdisjoint : ∀ d ∈ pages, ∀ a, InCluster g d a → ¬ InCluster g c a := fun d hd a hda hca =>
    hnot (hg.inCluster_unique (hw.usable d hd).dataCluster hcd hda hca ▸ hd)
  refine ⟨?_, ?_, ?_, ?_, ?_, by simp, ?_, Nat.le_add_right _ _, hlen, ?_, hw.headFits, ?_, ?_⟩
  · exact ⟨h.alloc.extents, h.alloc.count, h.alloc.current, h.alloc.passed, h.alloc.cursor,
      h.alloc.free⟩
  · refine ((hw.intact.of_allocOnly h.only).stored hg ?_ ?_).stored hg ?_ ?_
    · intro a hlow hhigh
      have hus := hw.usable _ hpageMem
      exact ⟨_, hus.dataCluster, hus.free, by omega, by omega⟩
    · simpa using Mem.sameOutside_write t.mem w.page (leBytes 8 (clusterStart g.metaInfo c))
    · intro a hlow hhigh
      exact ⟨c, hcd, h.usable.free, hlow, by omega⟩
    · simpa using Mem.sameOutside_write _ (clusterStart g.metaInfo c) (leBytes 8 0)
  · intro d hd
    rw [List.mem_append, List.mem_singleton] at hd
    rcases hd with hold | rfl
    · exact hw.usable d hold
    · exact h.usable
  · intro d hd
    rw [List.mem_append, List.mem_singleton] at hd
    rcases hd with hold | rfl
    · exact h.taken (hw.taken d hold)
    · exact h.taken_self
  · exact List.nodup_append.mpr ⟨hw.nodup, List.nodup_singleton c, fun a ha b hb hab => by
      rw [List.mem_singleton] at hb
      subst hb
      exact hnot (hab ▸ ha)⟩
  · rw [List.length_append, List.length_singleton, Nat.add_sub_cancel, hnew]
  · rw [Pos.addr_extend (List.prefix_append _ _) hhead]
    exact hw.header
  · refine Or.inl ?_
    rw [StreamArchiver.pos, List.length_append, List.length_singleton, Nat.add_sub_cancel]
    exact hhead
  · intro i hi
    rw [List.length_append, List.length_singleton] at hi
    have hi' : i < pages.length := by omega
    rw [hget i hi']
    have hiMem := hw.getD_mem hi'
    have hlink : ∀ j < 8, ¬ InCluster g c (clusterStart g.metaInfo (pages.getD i 0) + j) :=
      fun j hj => hdisjoint _ hiMem _ ⟨Nat.le_add_right _ _, by omega⟩
    -- the link of the new page does not overlap another one
    have hsecond : (t.linkPage w.page (clusterStart g.metaInfo c)).mem.readLE
          (clusterStart g.metaInfo (pages.getD i 0)) 8 =
        (t.mem.write w.page (leBytes 8 (clusterStart g.metaInfo c))).readLE
          (clusterStart g.metaInfo (pages.getD i 0)) 8 := by
      apply Mem.readLE_congr
      intro j hj
      have hout := hlink j hj
      unfold InCluster at hout
      exact Mem.sameOutside_write _ _ _ _ (by rw [length_leBytes]; omega)
    rw [hsecond]
    by_cases heq : i = pages.length - 1
    · have hstop := hg.cluster_addressable hcd
      rw [show i + 1 = pages.length by omega, hnew, heq, ← hpage,
        Mem.readLE_write_leBytes (by norm_num; omega)]
    · rw [hget (i + 1) (by omega), ← hw.links i (by omega), ← h.only.mem]
      apply Mem.readLE_congr
      intro j hj
      apply Mem.sameOutside_write
      rw [length_leBytes]
      by_contra hin
      have hsame := hg.inCluster_unique (hw.usable _ hiMem).dataCluster
        (hw.usable _ hpageMem).dataCluster
        (a := clusterStart g.metaInfo (pages.getD i 0) + j) ⟨Nat.le_add_right _ _, by omega⟩
        ⟨by omega, by omega⟩
      exact heq (hw.getD_inj hi' hlast hsame)

/-- The writer and what is settled do not depend on the element index. -/
theorem Writer.withIndex (h : Writer g m₀ blocked pages head w s) (k : ℕ) :
    Writer g m₀ blocked pages head { w with elementIndex := k } s :=
  ⟨h.alloc, h.intact, h.usable, h.taken, h.nodup, h.nonempty, h.page, h.lower, h.upper, h.header,
    h.headFits, h.headBefore, h.links⟩

/-- The number of elements does not matter for an extension. -/
theorem Extends.ofIndex {w' : StreamArchiver} {k : ℕ}
    {X : Set ℕ} (h : Extends g X { w with elementIndex := k } s w' t) : Extends g X w s w' t :=
  ⟨h.settled, h.mem, h.taken, h.ext4⟩

/-- Linking a new page leaves the open header. -/
theorem TakesCluster.linkPage_header (hg : ClusterArea g)
    (hw : Writer g m₀ blocked pages head w s) (h : TakesCluster g m₀ blocked s t c) {a : ℕ}
    (hlow : w.header ≤ a) (hhigh : a < w.header + sizeofHeader) :
    (t.linkPage w.page (clusterStart g.metaInfo c)).mem a = s.mem a := by
  have hsize := hg.room
  have hslot : Slot g pages w.header sizeofHeader :=
    hw.header ▸ hw.slot hw.head_index_lt hw.headFits
  have hpage := hw.slot_links hg hslot (hw.getD_mem hw.pos_index_lt) hlow hhigh
  rw [StreamArchiver.pos, ← hw.page] at hpage
  unfold sizeofPage at hpage
  have hcluster : ¬ InCluster g c a := by
    intro hin
    obtain ⟨d, hd, hstart, hstop⟩ := hslot
    unfold pageSize at hstop
    have heq := hg.inCluster_unique (hw.usable d hd).dataCluster h.usable.dataCluster
      ⟨by omega, by omega⟩ hin
    exact h.not_mem hw (heq ▸ hd)
  unfold InCluster at hcluster
  simp only [State.linkPage, State.stored_mem]
  rw [Mem.sameOutside_write _ _ _ a (by rw [length_leBytes]; omega),
    Mem.sameOutside_write _ _ _ a (by rw [length_leBytes]; omega), h.only.mem]

/-- Room for `len` bytes at `p` has been made at the current position of the writer. -/
structure Advanced (g : Globals) (m₀ : Mem) (blocked : List FatExtent) (pages : List ℕ)
    (head : Pos) (w : StreamArchiver) (s : State) (len : ℕ) (pages' : List ℕ) (p : ℕ)
    (w' : StreamArchiver) (t : State) : Prop where
  pre : pages <+: pages'
  writer : Writer g m₀ blocked pages' head w' t
  addr : p = ((w.pos pages).cell (pageSize g) len).addr g pages'
  pos : w'.pos pages' = ((w.pos pages).cell (pageSize g) len).after len
  ext : Extends g ∅ w s w' t
  fresh : ∀ a, p ≤ a → a < p + len → ¬ Settled g w s a
  openHeader : ∀ a, w.header ≤ a → a < w.header + sizeofHeader → t.mem a = s.mem a
  added : ∀ c ∈ pages', c ∈ pages ∨ isFree s.allocationBitmap c = true

/-- An element has been made room for, and it is counted. -/
theorem Advanced.slot (hw : Writer g m₀ blocked pages head w s) {len : ℕ}
    (hlen : sizeofPage + len ≤ pageSize g) {pages' : List ℕ} {p : ℕ} {w' : StreamArchiver}
    (h : Advanced g m₀ blocked pages head w s len pages' p w' t) : Slot g pages' p len := by
  have hfits : ((w.pos pages).cell (pageSize g) len).Fits (pageSize g) len :=
    Pos.cell_fits hw.lower hlen
  have hindex : ((w.pos pages).cell (pageSize g) len).index < pages'.length := by
    have hlt := h.writer.pos_index_lt
    rw [h.pos] at hlt
    exact hlt
  rw [h.addr]
  exact h.writer.slot hindex hfits

/-- Making room in the stream keeps the writer. -/
theorem advanceInPage_spec (hg : ClusterArea g)
    (hb : BlockedExtents (dataClusterCount g.bootSector g.metaInfo) blocked) (fuel : ℕ) {len : ℕ}
    (hlen : sizeofPage + len ≤ pageSize g) (hw : Writer g m₀ blocked pages head w s) :
    wp (advanceInPage g fuel true len w)
      (fun r t => ∃ pages', Advanced g m₀ blocked pages head w s len pages' r.1 r.2 t ∧
        r.2.elementIndex = w.elementIndex)
      (fun e t => NoFault e t ∧ Intact g m₀ t) s := by
  rw [advanceInPage]
  refine wp_ite (fun hnew => ?_) (fun hroom => ?_)
  · have hcell : (w.pos pages).cell (pageSize g) len = ⟨pages.length, sizeofPage⟩ := by
      have hpos := hw.length_pos
      rw [Pos.cell, StreamArchiver.pos, if_pos hnew]
      dsimp only
      rw [Nat.sub_add_cancel hpos]
    simp only [if_true, wp_bind]
    refine wp_mono (allocatePage_spec hb fuel hw.alloc) ?_
      (fun _ _ h => ⟨h.1, hw.intact.of_allocOnly h.2⟩)
    intro p t hp
    obtain ⟨c, rfl, htakes⟩ := hp
    have hlast := hw.getD_mem hw.pos_index_lt
    have hpagePos := hg.clusterStart_pos (hw.usable _ hlast).dataCluster
    rw [StreamArchiver.pos, ← hw.page] at hpagePos
    have hnewAddr : (pages ++ [c]).getD pages.length 0 = c := by
      rw [List.getD_append_right _ _ _ _ le_rfl, Nat.sub_self]
      rfl
    simp only [wp_notNull, wp_storeLE, wp_pure]
    refine ⟨fun hnull => by omega, fun _ => ⟨pages ++ [c], ?_, trivial⟩⟩
    refine ⟨List.prefix_append _ _, hw.linkPage hg htakes hlen, ?_, ?_,
      htakes.extends_linkPage hg len, ?_, fun _ => htakes.linkPage_header hg hw, ?_⟩
    · rw [hcell, Pos.addr, hnewAddr]
    · rw [hcell, StreamArchiver.pos, List.length_append, List.length_singleton,
        Nat.add_sub_cancel]
      rfl
    · intro a hlow hhigh hsettled
      unfold pageSize at hlen
      exact not_taken_of_isFree hg htakes.usable.dataCluster htakes.fresh
        ⟨by omega, by omega⟩ hsettled.1
    · intro d hd
      rw [List.mem_append, List.mem_singleton] at hd
      rcases hd with hold | rfl
      · exact Or.inl hold
      · exact Or.inr htakes.fresh
  · have hcell : (w.pos pages).cell (pageSize g) len = w.pos pages := if_neg hroom
    rw [wp_pure]
    refine ⟨pages, ⟨List.prefix_refl _, ?_, ?_, ?_, extends_inPage g w s len, ?_,
      fun _ _ _ => rfl, fun _ hc => Or.inl hc⟩, rfl⟩
    · exact ⟨hw.alloc, hw.intact, hw.usable, hw.taken, hw.nodup, hw.nonempty, hw.page,
        Nat.le_add_right_of_le hw.lower, Nat.le_of_not_lt hroom, hw.header, hw.headFits,
        hw.headBefore.after, hw.links⟩
    · rw [hcell, hw.pos_addr]
    · rw [hcell]
      rfl
    · intro a hlow hhigh hsettled
      exact hsettled.2 (Or.inr (Or.inl ⟨hlow, by dsimp only at hhigh; omega⟩))

/-- Appending an element. -/
theorem iterate_insert_spec (hg : ClusterArea g)
    (hb : BlockedExtents (dataClusterCount g.bootSector g.metaInfo) blocked) (fuel : ℕ)
    {len : ℕ} (count : ℕ) (hlen : sizeofPage + len ≤ pageSize g)
    (hw : Writer g m₀ blocked pages head w s) :
    wp (iterateStreamArchiver g fuel true len count w)
      (fun r t => ∃ pages', Advanced g m₀ blocked pages head w s len pages' r.1 r.2 t ∧
        r.2.elementIndex = u64 (w.elementIndex + count))
      (fun e t => NoFault e t ∧ Intact g m₀ t) s := by
  simp only [iterateStreamArchiver, segmentEnds, Bool.true_eq_false, false_and, if_false,
    wp_bind, wp_pure, Bool.false_eq_true]
  refine wp_mono_ok (advanceInPage_spec hg hb fuel hlen (hw.withIndex _)) ?_
  intro r t hr
  obtain ⟨pages', hadv, hindex⟩ := hr
  exact ⟨pages', ⟨hadv.pre, hadv.writer, hadv.addr, hadv.pos, hadv.ext.ofIndex, hadv.fresh,
      hadv.openHeader, hadv.added⟩, hindex⟩

/-- The open segment has been closed with its element count, and the next one is open. -/
structure Closed (g : Globals) (m₀ : Mem) (blocked : List FatExtent) (pages : List ℕ)
    (head : Pos) (w : StreamArchiver) (s : State) (pages' : List ℕ) (w' : StreamArchiver)
    (t : State) : Prop where
  pre : pages <+: pages'
  writer : Writer g m₀ blocked pages' ((w.pos pages).cell (pageSize g) sizeofHeader) w' t
  pos : w'.pos pages' = ((w.pos pages).cell (pageSize g) sizeofHeader).after sizeofHeader
  index : w'.elementIndex = 0
  ext : Extends g ∅ w s w' t
  count : t.mem.readLE (head.addr g pages') 8 = u64 w.elementIndex
  added : ∀ c ∈ pages', c ∈ pages ∨ isFree s.allocationBitmap c = true

/-- Making a new header the open one leaves the closed one settled. -/
theorem Advanced.withHeader (hw : Writer g m₀ blocked pages head w s) {pages' : List ℕ}
    {p : ℕ} {w' : StreamArchiver} (hsize : 16 ≤ pageSize g)
    (h : Advanced g m₀ blocked pages head w s sizeofHeader pages' p w' t) :
    Writer g m₀ blocked pages' ((w.pos pages).cell (pageSize g) sizeofHeader)
      { w' with header := p } t ∧
    Extends g ∅ w s { w' with header := p } t := by
  have hfits : ((w.pos pages).cell (pageSize g) sizeofHeader).Fits (pageSize g) sizeofHeader :=
    Pos.cell_fits hw.lower (by simpa [sizeofHeader] using hsize)
  refine ⟨?_, ?_, h.ext.mem, h.ext.taken, h.ext.ext4⟩
  · refine ⟨h.writer.alloc, h.writer.intact, h.writer.usable, h.writer.taken, h.writer.nodup,
      h.writer.nonempty, h.writer.page, h.writer.lower, h.writer.upper, h.addr, hfits, ?_,
      h.writer.links⟩
    have hpos := h.pos
    unfold StreamArchiver.pos at hpos ⊢
    dsimp only
    rw [hpos]
    exact Pos.before_after _ _
  · intro a ha
    have hnext := h.ext.settled a ha
    refine ⟨hnext.1, fun hpending => ?_⟩
    rcases hpending with hlink | htail | hheader
    · exact hnext.2 (Or.inl hlink)
    · exact hnext.2 (Or.inr (Or.inl htail))
    · exact h.fresh a hheader.1 hheader.2 ha

/-- `cutStreamArchiver` on an open stream. -/
theorem cutStreamArchiver_spec (hg : ClusterArea g)
    (hb : BlockedExtents (dataClusterCount g.bootSector g.metaInfo) blocked) (fuel : ℕ)
    (hw : Writer g m₀ blocked pages head w s) :
    wp (cutStreamArchiver g fuel w)
      (fun w' t => ∃ pages', Closed g m₀ blocked pages head w s pages' w' t)
      (fun e t => NoFault e t ∧ Intact g m₀ t) s := by
  have hsize : 16 ≤ pageSize g := by
    have hge := hg.room
    unfold pageSize
    omega
  have hheader : w.header ≠ 0 := by
    have hpos := hg.clusterStart_pos (hw.usable _ (hw.getD_mem hw.head_index_lt)).dataCluster
    rw [hw.header, Pos.addr]
    omega
  have hpage : w.page ≠ 0 := by
    have hpos := hg.clusterStart_pos (hw.usable _ (hw.getD_mem hw.pos_index_lt)).dataCluster
    rw [StreamArchiver.pos, ← hw.page] at hpos
    omega
  rw [cutStreamArchiver, if_pos ⟨hheader, hpage⟩]
  simp only [wp_bind, wp_storeLE, wp_pure]
  have hsame : Mem.SameOutside w.header 8 s.mem
      (s.mem.write w.header (leBytes 8 w.elementIndex)) := by
    simpa using Mem.sameOutside_write s.mem w.header (leBytes 8 w.elementIndex)
  have hslot : Slot g pages w.header 8 := hw.header ▸ hw.slot hw.head_index_lt hw.headFits
  -- the count goes to the open header, which is not settled
  have hstore : Extends g ∅ w s w (s.stored w.header 8
      (s.mem.write w.header (leBytes 8 w.elementIndex))) :=
    (Extends.refl g ∅ w s).stored
      (fun a hlow hhigh ha => absurd (Or.inr (Or.inr ⟨hlow, hhigh⟩)) ha.2) hsame
  have hw1 := hw.stored_slot hg hslot hsame
  refine wp_mono_ok (iterate_insert_spec hg hb fuel 0 hsize (hw1.withIndex 0)) ?_
  intro r t hr
  obtain ⟨pages', hadv, hindex⟩ := hr
  have hadv : Advanced g m₀ blocked pages head w (s.stored w.header 8
      (s.mem.write w.header (leBytes 8 w.elementIndex))) sizeofHeader pages' r.1 r.2 t :=
    ⟨hadv.pre, hadv.writer, hadv.addr, hadv.pos, hadv.ext.ofIndex, hadv.fresh,
      hadv.openHeader, hadv.added⟩
  obtain ⟨hwriter, hext⟩ := hadv.withHeader hw1 hsize
  refine ⟨pages', hadv.pre, hwriter, hadv.pos, hindex, hstore.trans hext, ?_, hadv.added⟩
  -- the new header and page leave the count
  have hread : t.mem.readLE w.header 8 =
      (s.mem.write w.header (leBytes 8 w.elementIndex)).readLE w.header 8 :=
    Mem.readLE_congr fun i hi => hadv.openHeader _ (Nat.le_add_right _ _) (by
      unfold sizeofHeader
      omega)
  rw [Pos.addr_extend hadv.pre hw.head_index_lt, ← hw.header, hread, Mem.readLE,
    Mem.read_write_of_length (length_leBytes _ _), leNat_leBytes]
  rfl

/-- `init_stream_archiver` takes the first page and opens the first segment on it. -/
theorem initStreamArchiver_spec (hg : ClusterArea g)
    (hb : BlockedExtents (dataClusterCount g.bootSector g.metaInfo) blocked) (fuel : ℕ)
    (hinv : AllocatorInv g m₀ blocked s) (hs : Intact g m₀ s) :
    wp (initStreamArchiver g fuel)
      (fun w t => ∃ c, Writer g m₀ blocked [c] ⟨0, sizeofPage⟩ w t ∧
        w.pos [c] = ⟨0, sizeofPage + sizeofHeader⟩ ∧ w.elementIndex = 0 ∧
        t.ext4 = s.ext4)
      (fun e t => NoFault e t ∧ Intact g m₀ t) s := by
  have hsize := hg.room
  have hroom : ¬ pageSize g < sizeofPage + sizeofHeader := by
    unfold pageSize sizeofPage sizeofHeader
    omega
  have hcond : ¬ (({} : StreamArchiver).header ≠ 0 ∧ ({} : StreamArchiver).page ≠ 0) := by simp
  rw [initStreamArchiver, cutStreamArchiver, if_neg hcond, wp_bind]
  refine wp_mono (allocatePage_spec hb fuel hinv) ?_ (fun _ _ h => ⟨h.1, hs.of_allocOnly h.2⟩)
  intro p t hp
  obtain ⟨c, rfl, htakes⟩ := hp
  simp only [iterateStreamArchiver, segmentEnds, advanceInPage, Bool.true_eq_false, false_and,
    if_false, wp_bind, wp_pure, wp_storeLE, Bool.false_eq_true, hroom]
  have hcd := htakes.usable.dataCluster
  refine ⟨c, ?_, rfl, rfl, htakes.only.ext4⟩
  refine ⟨⟨htakes.alloc.extents, htakes.alloc.count, htakes.alloc.current, htakes.alloc.passed,
    htakes.alloc.cursor, htakes.alloc.free⟩, ?_, ?_, ?_, List.nodup_singleton c, by simp, rfl,
    Nat.le_add_right _ _, Nat.le_of_not_lt hroom, rfl, ⟨le_rfl, Nat.le_of_not_lt hroom⟩,
    Or.inr ⟨rfl, le_rfl⟩, ?_⟩
  · refine (hs.of_allocOnly htakes.only).stored hg ?_ ?_
    · intro a hlow hhigh
      exact ⟨c, hcd, htakes.usable.free, hlow, by omega⟩
    · simpa using Mem.sameOutside_write t.mem (clusterStart g.metaInfo c) (leBytes 8 0)
  · intro d hd
    rw [List.mem_singleton.mp hd]
    exact htakes.usable
  · intro d hd
    rw [List.mem_singleton.mp hd]
    exact htakes.taken_self
  · intro i hi
    simp at hi

end

end OfsConvert
