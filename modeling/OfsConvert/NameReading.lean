import OfsConvert.DirectoryTable

/-!
# Recording names

The elements of a name are reserved before the entries of the name are read. `Filled` is the step
that fills in one reserved element; a long name fills its elements from the last to the first
while the directory entries run from the last part of the name to the first.
-/

namespace OfsConvert

/-- The bytes at `p`, all in reserved elements, were filled in. -/
structure Filled (g : Globals) (m₀ : Mem) (blocked : List FatExtent) (Y : Set ℕ)
    (pages : List ℕ) (head : Pos) (w : StreamArchiver) (s : State) (p : ℕ) (bytes : List UInt8)
    (t : State) : Prop where
  writer : Writer g m₀ blocked pages head w t
  ext : Extends g Y w s w t
  outside : Mem.SameOutside p bytes.length s.mem t.mem
  content : t.mem.read p bytes.length = bytes

section

variable {g : Globals} {m₀ : Mem} {blocked : List FatExtent} {X Y : Set ℕ}
  {pages pages' : List ℕ} {head : Pos} {w w' : StreamArchiver} {s t u : State} {ns : List ℕ}
  {p : ℕ} {bs cs : List UInt8} {E : Halt → State → Prop}

/-- Filling in a piece and then the piece behind it. -/
theorem Filled.append (h : Filled g m₀ blocked Y pages head w s p bs t)
    (h' : Filled g m₀ blocked Y pages head w t (p + bs.length) cs u) :
    Filled g m₀ blocked Y pages head w s p (bs ++ cs) u := by
  have hlength : (bs ++ cs).length = bs.length + cs.length := List.length_append
  refine ⟨h'.writer, h.ext.trans h'.ext, ?_, ?_⟩
  · intro a ha
    rw [h'.outside a (by omega), h.outside a (by omega)]
  · rw [hlength, Mem.read_add, h'.content]
    have hold : u.mem.read p bs.length = t.mem.read p bs.length :=
      h'.outside.read_eq (Or.inl le_rfl)
    rw [hold, h.content]

/-- A store to a slot whose bytes may be filled in. -/
theorem Writer.filled (hg : Accepted g) (hw : Writer g m₀ blocked pages head w s) {m : Mem}
    (hslot : Slot g pages p bs.length) (hy : ∀ a, p ≤ a → a < p + bs.length → a ∈ Y)
    (hm : Mem.SameOutside p bs.length s.mem m) (hread : m.read p bs.length = bs) :
    Filled g m₀ blocked Y pages head w s p bs (s.stored p bs.length m) :=
  ⟨hw.stored_slot hg hslot hm,
    (Extends.refl g Y w s).stored (fun a hlow hhigh _ => hy a hlow hhigh) hm, hm, hread⟩

/-- A store into a reserved element fills it in. -/
theorem storeBytes_filled (hg : Accepted g) (hw : Writer g m₀ blocked pages head w s)
    (hslot : Slot g pages p bs.length) (hy : ∀ a, p ≤ a → a < p + bs.length → a ∈ Y)
    (E : Halt → State → Prop) :
    wp (storeBytes p bs) (fun _ t => Filled g m₀ blocked Y pages head w s p bs t) E s :=
  hw.filled hg hslot hy (Mem.sameOutside_write s.mem p bs) (Mem.read_write s.mem p bs)

/-- A copy into a reserved element fills it in. -/
theorem memcpy_filled (hg : Accepted g) (hw : Writer g m₀ blocked pages head w s) {src n : ℕ}
    (hbs : s.mem.read src n = bs) (hslot : Slot g pages p bs.length)
    (hy : ∀ a, p ≤ a → a < p + bs.length → a ∈ Y) (E : Halt → State → Prop) :
    wp (memcpy p src n) (fun _ t => Filled g m₀ blocked Y pages head w s p bs t) E s := by
  have hn : bs.length = n := by rw [← hbs, Mem.length_read]
  rw [wp_memcpy, ← hn]
  rw [← hn] at hbs
  exact hw.filled hg hslot hy (Mem.sameOutside_copy s.mem p src bs.length)
    ((Mem.read_copy s.mem p src bs.length).trans hbs)

/-- Filling in reserved elements keeps what was written behind them. -/
theorem Wrote.filled {xs : List Segment}
    (h : Wrote g m₀ blocked Y pages head w s xs pages' w' t)
    (h' : Filled g m₀ blocked Y pages' (headAfter (pageSize g) head xs) w' t p bs u) :
    Wrote g m₀ blocked Y pages head w s xs pages' w' u :=
  ⟨h.pre, h'.writer, h.fresh, h.ext.trans h'.ext, h.holds.later h'.ext, h.added⟩

/-- The pages that were added while writing are owned. -/
theorem Wrote.owns {xs : List Segment}
    (h : Wrote g m₀ blocked X pages head w s xs pages' w' t) :
    Owns s t (newPages pages pages') := owns_newPages h.pre h.writer h.added

/-- A part of an entry that keeps its value. -/
theorem dentry_part {m : Mem} {src i k : ℕ} {d : FatDentry} (hd : dentryAt m src = d)
    (hik : i + k ≤ sizeofFatDentry) : m.read (src + i) k = (d.drop i).take k := by
  rw [← hd, dentryAt, Mem.read_drop_take _ _ _ _ _ hik]

/-- A whole entry has 26 bytes of name. -/
theorem length_lfnUnits {m : Mem} {src : ℕ} {d : FatDentry} (hd : dentryAt m src = d) :
    (lfnUnits d).length = lfnEntryLength * 2 := by
  rw [lfnUnits, ← dentry_part (i := 1) (k := 10) hd (by decide),
    ← dentry_part (i := 14) (k := 12) hd (by decide),
    ← dentry_part (i := 28) (k := 4) hd (by decide)]
  simp [lfnEntryLength]

/-- One of the three fields of a long-name entry. -/
theorem copyUnits_spec (hg : Accepted g) (hw : Writer g m₀ blocked pages head w s)
    {q src i k : ℕ} {d : FatDentry} (hd : dentryAt s.mem src = d) (hik : i + k ≤ sizeofFatDentry)
    (hslot : Slot g pages q k) (hy : ∀ a, q ≤ a → a < q + k → a ∈ Y) :
    wp (memcpy q (src + i) k)
      (fun _ t => Filled g m₀ blocked Y pages head w s q ((d.drop i).take k) t ∧
        ((d.drop i).take k).length = k) E s := by
  have hpart := dentry_part hd hik
  have hlength : ((d.drop i).take k).length = k := by rw [← hpart, Mem.length_read]
  refine wp_mono_ok (memcpy_filled (Y := Y) hg hw hpart ?_ ?_ _) (fun _ t ht => ⟨ht, hlength⟩)
  · rwa [hlength]
  · rwa [hlength]

/-- `lfn_cpy` fills in an element with the characters of an entry. -/
theorem lfnCpy_spec (hg : Accepted g) (hw : Writer g m₀ blocked pages head w s) {src : ℕ}
    (hsrc : src ≠ 0) {d : FatDentry} (hd : Stable g Y w s fun m => dentryAt m src = d)
    (hslot : Slot g pages p (lfnEntryLength * 2))
    (hy : ∀ a, p ≤ a → a < p + lfnEntryLength * 2 → a ∈ Y) :
    wp (lfnCpy p src)
      (fun _ t => Filled g m₀ blocked Y pages head w s p (lfnUnits d) t)
      E s := by
  have hbytes : lfnEntryLength * 2 = 26 := rfl
  rw [hbytes] at hslot hy
  simp only [lfnCpy, wp_bind, wp_notNull]
  refine ⟨fun hnull => absurd hnull hsrc, fun _ => ?_⟩
  refine wp_mono_ok (copyUnits_spec (Y := Y) hg hw hd.now (by decide)
    (hslot.sub le_rfl (by omega)) fun a hlow hhigh => hy a hlow (by omega)) ?_
  intro _ t₁ h₁
  obtain ⟨h₁, hlength₁⟩ := h₁
  refine wp_mono_ok (copyUnits_spec (Y := Y) hg h₁.writer (hd.later h₁.ext).now (by decide)
    (hslot.sub (by omega) (by omega)) fun a hlow hhigh => hy a (by omega) (by omega)) ?_
  intro _ t₂ h₂
  obtain ⟨h₂, hlength₂⟩ := h₂
  have h₁₂ := h₁.append (by rw [hlength₁]; exact h₂)
  refine wp_mono_ok (copyUnits_spec (Y := Y) hg h₂.writer (hd.later h₁₂.ext).now (by decide)
    (hslot.sub (by omega) (by omega)) fun a hlow hhigh => hy a (by omega) (by omega)) ?_
  intro _ t₃ h₃
  obtain ⟨h₃, -⟩ := h₃
  exact h₁₂.append (by rw [List.length_append, hlength₁, hlength₂]; exact h₃)

/-- Filling in the element in front of those that are done. -/
theorem HoldsCells.filled (hg : Accepted g) {q : Pos} {done : Segment}
    (hw : Writer g m₀ blocked pages head w s) (hlower : sizeofPage ≤ q.offset)
    (hdone : HoldsCells g pages s.mem ((q.cell (pageSize g) bs.length).after bs.length) done)
    (hfits : ∀ n ∈ sizes (bs :: done), sizeofPage + n ≤ pageSize g)
    (hindex : (cellsEnd (pageSize g) q (sizes (bs :: done))).index < pages.length)
    (h : Filled g m₀ blocked Y pages head w s ((q.cell (pageSize g) bs.length).addr g pages) bs t) :
    HoldsCells g pages t.mem q (bs :: done) := by
  have hcell : (q.cell (pageSize g) bs.length).Fits (pageSize g) bs.length :=
    Pos.cell_fits hlower (hfits _ (by simp [sizes]))
  refine ⟨h.content, hdone.congr fun a ha => h.outside a ?_⟩
  obtain ⟨q', n, hq', hafter, hbefore, hlow, hhigh⟩ := exists_cell_of_mem
    (Nat.le_add_right_of_le hcell.lower) (fun n hn => hfits n (by
      rw [sizes, List.map_cons]
      exact List.mem_cons_of_mem _ hn)) ha
  by_contra hin
  exact hw.cells_disjoint hg (hbefore.index_le.trans_lt hindex) hcell hq'
    ((Pos.before_after _ _).trans hafter) (p := q.cell (pageSize g) bs.length) (a := a) (by omega)
    (by omega) hlow hhigh

/-- `read_lfn` fills in the elements of a name from the last to the first. -/
theorem readLfn_spec (hg : Accepted g) {es : List FatExtent} {table : List FatDentry}
    {dirPages : List ℕ} {dirHead q : Pos} (hlower : sizeofPage ≤ q.offset) (fuel : ℕ)
    (hfuel : (∀ t, E .fuel t) ∨ table.length + 2 < fuel) {n : ℕ} {current : ℕ}
    {st : ClusterReadState} {entries : List FatDentry} (done : Segment)
    (hw : Writer g m₀ blocked pages head w s)
    (hdir : Stable g Y w s (DirAt g dirPages dirHead es table))
    (hcurrent : Returns g es table current entries)
    (hst : RestAt g dirPages dirHead es table st entries.tail) (hcount : n ≤ entries.length)
    (hy : CellBytes g pages q (List.replicate n (lfnEntryLength * 2)) ⊆ Y)
    (hdone : HoldsCells g pages s.mem
      (cellsEnd (pageSize g) q (List.replicate n (lfnEntryLength * 2))) done)
    (hsizes : ∀ n ∈ sizes done, n = lfnEntryLength * 2)
    (hindex : (cellsEnd (pageSize g) (cellsEnd (pageSize g) q
      (List.replicate n (lfnEntryLength * 2))) (sizes done)).index < pages.length) :
    wp (readLfn g fuel (cellAddrs g pages q (List.replicate n (lfnEntryLength * 2))).reverse current
        st)
      (fun x t => Writer g m₀ blocked pages head w t ∧ Extends g Y w s w t ∧
        HoldsCells g pages t.mem q ((entries.take n).reverse.map lfnUnits ++ done) ∧
        sizes ((entries.take n).reverse.map lfnUnits) =
          List.replicate n (lfnEntryLength * 2) ∧
        Returns g es table x.1 (entries.drop n) ∧
        RestAt g dirPages dirHead es table x.2 (entries.drop n).tail)
      E s := by
  induction n generalizing current st entries done s with
  | zero => exact ⟨hw, Extends.refl g Y w s, hdone, rfl, hcurrent, hst⟩
  | succ n ih =>
    have hsize : sizeofPage + lfnEntryLength * 2 ≤ pageSize g := hg.element_fits (by decide)
    have hsplit : List.replicate (n + 1) (lfnEntryLength * 2) =
        List.replicate n (lfnEntryLength * 2) ++ [lfnEntryLength * 2] := List.replicate_succ'
    rw [hsplit, CellBytes_append] at hy
    rw [hsplit, cellsEnd_append] at hdone hindex
    rw [hsplit, cellAddrs_append, List.reverse_append]
    have hlast := cellsEnd_lower (P := pageSize g) hlower (List.replicate n (lfnEntryLength * 2))
    have hcell : ((cellsEnd (pageSize g) q (List.replicate n (lfnEntryLength * 2))).cell
        (pageSize g) (lfnEntryLength * 2)).Fits (pageSize g) (lfnEntryLength * 2) :=
      Pos.cell_fits hlast hsize
    have hcellIndex := ((Pos.before_after _ _).cellsEnd (sizes done)).index_le.trans_lt hindex
    simp only [cellAddrs, List.reverse_singleton, List.singleton_append, readLfn, wp_bind]
    cases entries with
    | nil =>
      exact absurd hcount (by simp)
    | cons d rest =>
      obtain ⟨hne, hentry⟩ := hcurrent
      refine wp_mono_ok (lfnCpy_spec (Y := Y) hg hw hne (hdir.imp fun m hm => hm.dentryAt_eq hentry)
        (hw.slot hcellIndex hcell) fun a hlow hhigh => hy (Or.inr (Or.inl ⟨hlow, hhigh⟩))) ?_
      intro _ t ht
      have hunits : (lfnUnits d).length = lfnEntryLength * 2 :=
        length_lfnUnits (hdir.now.dentryAt_eq hentry)
      have hdone' : HoldsCells g pages t.mem
          (cellsEnd (pageSize g) q (List.replicate n (lfnEntryLength * 2))) (lfnUnits d :: done) := by
        apply HoldsCells.filled hg hw hlast
        · rw [hunits]
          exact hdone
        · intro k hk
          rw [sizes, List.map_cons, List.mem_cons] at hk
          rcases hk with rfl | hk
          · rwa [hunits]
          · rwa [hsizes k hk]
        · rw [sizes, List.map_cons, hunits]
          exact hindex
        · rw [hunits]
          exact ht
      have hdir' := hdir.later ht.ext
      refine wp_mono_ok (nextDentry_spec hg hdir'.now fuel (hfuel.imp_left fun h => h t) hst) ?_
      intro x u hx
      obtain ⟨rfl, hrest, hreturns⟩ := hx
      refine wp_mono_ok (ih _ ht.writer hdir' hreturns hrest (by simpa using hcount)
        (fun a ha => hy (Or.inl ha)) hdone' ?_ ?_) ?_
      · intro k hk
        rw [sizes, List.map_cons, List.mem_cons] at hk
        rcases hk with rfl | hk
        · exact hunits
        · exact hsizes k hk
      · rw [sizes, List.map_cons, hunits]
        exact hindex
      · intro y v hy'
        obtain ⟨hwriter, hext, hcells, hlengths, hreturns', hrest'⟩ := hy'
        refine ⟨hwriter, ht.ext.trans hext, ?_, ?_, hreturns', hrest'⟩
        · rw [List.tail_cons] at hcells
          rw [List.take_succ_cons, List.reverse_cons, List.map_append, List.append_assoc]
          exact hcells
        · rw [List.tail_cons] at hlengths
          rw [List.take_succ_cons, List.reverse_cons, List.map_append, sizes, List.map_append,
            ← sizes, hlengths, List.map_singleton, List.map_singleton, hunits]

/-- The elements of a name are appended to the open segment. -/
theorem reserveNames_spec (hg : Accepted g)
    (hb : BlockedExtents (dataClusterCount g.bootSector g.metaInfo) blocked) (fuel : ℕ)
    (count : ℕ) (h : Opened g m₀ blocked X pages head w s ns pages' w' t) :
    wp (reserveNames g fuel count w')
      (fun x u => ∃ pages'', pages' <+: pages'' ∧
        Opened g m₀ blocked X pages head w s
          (ns ++ List.replicate count (lfnEntryLength * 2)) pages'' x.2 u ∧
        x.1 = cellAddrs g pages'' (cellsEnd (pageSize g) (head.after sizeofHeader) ns)
          (List.replicate count (lfnEntryLength * 2)))
      NoFault t := by
  induction count generalizing ns pages' w' t with
  | zero =>
    refine ⟨pages', List.prefix_refl _, ?_, rfl⟩
    rw [List.replicate_zero, List.append_nil]
    exact h
  | succ count ih =>
    simp only [reserveNames, wp_bind, wp_pure]
    refine wp_mono (iterate_insert_spec hg hb fuel 1 (hg.element_fits (by decide)) h.writer) ?_
      (fun _ _ h => h.1)
    intro r u hr
    obtain ⟨pages₁, hadv, hindex⟩ := hr
    have hopen := h.append hadv hindex
    refine wp_mono_ok (ih hopen) ?_
    intro x v hx
    obtain ⟨pages₂, hpre, hopen₂, haddrs⟩ := hx
    rw [List.append_assoc, List.singleton_append, ← List.replicate_succ] at hopen₂
    rw [cellsEnd_append] at haddrs
    refine ⟨pages₂, hadv.pre.trans hpre, hopen₂, ?_⟩
    have hcell : ((w'.pos pages').cell (pageSize g) (lfnEntryLength * 2)).index < pages₁.length := by
      have hlt := hadv.writer.pos_index_lt
      rw [hadv.pos] at hlt
      exact hlt
    rw [haddrs, hadv.addr, List.replicate_succ, cellAddrs, ← h.pos, Pos.addr_extend hpre hcell]
    rfl

/-- `reserve_name`. -/
theorem reserveName_spec (hg : Accepted g)
    (hb : BlockedExtents (dataClusterCount g.bootSector g.metaInfo) blocked) (fuel count : ℕ)
    (hw : Writer g m₀ blocked pages head w s) (hf : Fresh pages head w) :
    wp (reserveName g fuel count w)
      (fun x t => ∃ pages', Reserved g m₀ blocked X pages head w s
          (List.replicate count (lfnEntryLength * 2)) pages' x.2 t ∧
        x.1 = cellAddrs g pages' (head.after sizeofHeader)
          (List.replicate count (lfnEntryLength * 2)))
      NoFault s := by
  simp only [reserveName, wp_bind, wp_pure]
  refine wp_mono_ok (reserveNames_spec hg hb fuel count (Opened.refl (X := X) hw hf)) ?_
  intro x t hx
  obtain ⟨pages₁, -, hopen, haddrs⟩ := hx
  refine wp_mono_ok (hopen.cut hg hb fuel) ?_
  intro w' u hu
  obtain ⟨pages₂, hpre, -, -, hreserved⟩ := hu
  refine ⟨pages₂, hreserved, ?_⟩
  rw [haddrs, cellAddrs_extend hpre]
  · rfl
  · have hlt := hopen.writer.pos_index_lt
    rw [hopen.pos] at hlt
    exact hlt

/-- A segment with one reserved element. -/
theorem reserveSingle_spec (hg : Accepted g)
    (hb : BlockedExtents (dataClusterCount g.bootSector g.metaInfo) blocked) (fuel : ℕ) {size : ℕ}
    (hsize : sizeofPage + size ≤ pageSize g) (hw : Writer g m₀ blocked pages head w s)
    (hf : Fresh pages head w) :
    wp (reserveSingle g fuel size w)
      (fun x t => ∃ pages', Reserved g m₀ blocked X pages head w s [size] pages' x.2 t ∧
        x.1 = ((head.after sizeofHeader).cell (pageSize g) size).addr g pages')
      NoFault s := by
  simp only [reserveSingle, wp_bind, wp_pure]
  refine wp_mono (iterate_insert_spec hg hb fuel 1 hsize hw) ?_ (fun _ _ h => h.1)
  intro r t hr
  obtain ⟨pages₁, hadv, hindex⟩ := hr
  refine wp_mono_ok (((Opened.refl (X := X) hw hf).append hadv hindex).cut hg hb fuel) ?_
  intro w' u hu
  obtain ⟨pages₂, hpre, -, -, hreserved⟩ := hu
  have hcell := hadv.writer.pos_index_lt
  rw [hadv.pos, hf.pos, Pos.after_index] at hcell
  exact ⟨pages₂, hreserved, by rw [hadv.addr, hf.pos, Pos.addr_extend hpre hcell]⟩

/-- An element of a reserved segment. -/
theorem Reserved.cell (hw : Writer g m₀ blocked pages head w s)
    (h : Reserved g m₀ blocked X pages head w s ns pages' w' t) {size : ℕ} {rest : List ℕ}
    (hns : ns = size :: rest) (hsize : sizeofPage + size ≤ pageSize g) :
    Slot g pages' (((head.after sizeofHeader).cell (pageSize g) size).addr g pages') size ∧
      ∀ a, ((head.after sizeofHeader).cell (pageSize g) size).addr g pages' ≤ a →
        a < ((head.after sizeofHeader).cell (pageSize g) size).addr g pages' + size →
        a ∈ CellBytes g pages' (head.after sizeofHeader) ns := by
  have hlower := hw.headFits.lower
  have hcell : ((head.after sizeofHeader).cell (pageSize g) size).Fits (pageSize g) size :=
    Pos.cell_fits (Nat.le_add_right_of_le hlower) hsize
  have hbefore : ((head.after sizeofHeader).cell (pageSize g) size).Before size
      (nextHead (pageSize g) head ns) := by
    rw [hns]
    exact ((Pos.before_after _ size).cellsEnd rest).cell
  refine ⟨h.writer.slot (hbefore.index_le.trans_lt h.writer.head_index_lt) hcell, ?_⟩
  intro a hlow hhigh
  rw [hns]
  exact Or.inl ⟨hlow, hhigh⟩

/-- A reserved segment is complete when all its elements are filled in. -/
theorem Reserved.filled (hg : Accepted g) (hw : Writer g m₀ blocked pages head w s)
    (hf : Fresh pages head w) (hx : OpenCells g pages X w s) {segment : Segment}
    (h : Reserved g m₀ blocked X pages head w s (sizes segment) pages' w' t)
    (hfits : ∀ n ∈ sizes segment, sizeofPage + n ≤ pageSize g) (hshort : segment.length < 2 ^ 64)
    (hw' : Writer g m₀ blocked pages' (nextHead (pageSize g) head (sizes segment)) w' u)
    (hext : Extends g (X ∪ CellBytes g pages' (head.after sizeofHeader) (sizes segment)) w' t w' u)
    (hcells : HoldsCells g pages' u.mem (head.after sizeofHeader) segment) :
    Wrote g m₀ blocked X pages head w s [segment] pages' w' u := by
  refine h.finish hg hw hf hx (fun e he => hfits _ (List.mem_map_of_mem he)) hshort ?_ hcells
  exact ⟨List.prefix_refl _, hw', h.fresh, hext, fun _ _ _ => trivial, fun c hc => Or.inl hc⟩

/-- `read_lfn` fills in a reserved name. -/
theorem Reserved.readLfn (hg : Accepted g) (hw : Writer g m₀ blocked pages head w s)
    (hf : Fresh pages head w) {n : ℕ}
    (h : Reserved g m₀ blocked X pages head w s (List.replicate n (lfnEntryLength * 2)) pages' w' t)
    {es : List FatExtent} {table : List FatDentry} {dirPages : List ℕ} {dirHead : Pos}
    (hdir : Stable g X w s (DirAt g dirPages dirHead es table)) (fuel : ℕ)
    (hfuel : (∀ t, E .fuel t) ∨ table.length + 2 < fuel) {current : ℕ} {st : ClusterReadState}
    {entries : List FatDentry} (hcurrent : Returns g es table current entries)
    (hst : RestAt g dirPages dirHead es table st entries.tail) (hcount : n ≤ entries.length) :
    wp (OfsConvert.readLfn g fuel (cellAddrs g pages' (head.after sizeofHeader)
        (List.replicate n (lfnEntryLength * 2))).reverse current st)
      (fun x u => Writer g m₀ blocked pages'
          (nextHead (pageSize g) head (List.replicate n (lfnEntryLength * 2))) w' u ∧
        Extends g (X ∪ CellBytes g pages' (head.after sizeofHeader)
          (List.replicate n (lfnEntryLength * 2))) w' t w' u ∧
        HoldsCells g pages' u.mem (head.after sizeofHeader)
          ((entries.take n).reverse.map lfnUnits) ∧
        sizes ((entries.take n).reverse.map lfnUnits) = List.replicate n (lfnEntryLength * 2) ∧
        Returns g es table x.1 (entries.drop n) ∧
        RestAt g dirPages dirHead es table x.2 (entries.drop n).tail)
      E t := by
  have hstart : sizeofPage ≤ (head.after sizeofHeader).offset :=
    Nat.le_add_right_of_le hw.headFits.lower
  have hsize : sizeofPage + lfnEntryLength * 2 ≤ pageSize g := hg.element_fits (by decide)
  have hdir' := hdir.reserve h.ext
    (D := CellBytes g pages' (head.after sizeofHeader) (List.replicate n (lfnEntryLength * 2)))
    (fun a ha => (h.segment_settled hg hw hf (by
      intro k hk
      rwa [List.eq_of_mem_replicate hk]) (Or.inr ha)).2)
  have hend := (Pos.before_refl (cellsEnd (pageSize g) (head.after sizeofHeader)
    (List.replicate n (lfnEntryLength * 2)))).cell (P := pageSize g) (n := sizeofHeader)
  refine wp_mono_ok (readLfn_spec hg hstart fuel hfuel [] h.writer hdir' hcurrent hst
    hcount Set.subset_union_right trivial (by simp [sizes])
    (hend.index_le.trans_lt h.writer.head_index_lt)) ?_
  intro x u hx
  rw [List.append_nil] at hx
  exact hx

/-- The name of a child is recorded, and its own entry is found. -/
theorem readName_spec (hg : Accepted g)
    (hb : BlockedExtents (dataClusterCount g.bootSector g.metaInfo) blocked)
    (hw : Writer g m₀ blocked pages head w s) (hf : Fresh pages head w)
    (hx : OpenCells g pages X w s) {es : List FatExtent} {table : List FatDentry}
    {dirPages : List ℕ} {dirHead : Pos} (hdir : Stable g X w s (DirAt g dirPages dirHead es table))
    (fuel : ℕ) {current : ℕ} {st : ClusterReadState} {entries rest : List FatDentry}
    {child : ChildEntry} (hcurrent : Returns g es table current entries)
    (hst : RestAt g dirPages dirHead es table st entries.tail)
    (hchild : nextChild entries = some (child, rest)) :
    wp (readName g fuel current st w)
      (fun x t => ∃ pages' name, Wrote g m₀ blocked X pages head w s [name] pages' x.2.2 t ∧
        child.name.RecordedAs name ∧ x.1 ≠ 0 ∧ EntryAt g es table x.1 child.dentry ∧
        RestAt g dirPages dirHead es table x.2.1 rest)
      NoFault s := by
  have hsize : sizeofPage + lfnEntryLength * 2 ≤ pageSize g := hg.element_fits (by decide)
  cases entries with
  | nil => exact absurd hchild (by simp [nextChild])
  | cons d behind =>
    have hread := hdir.now.dentryAt_eq hcurrent.2
    simp only [readName, wp_bind, wp_getMem, hread]
    rw [nextChild] at hchild
    refine wp_ite (fun hlfn => ?_) (fun hshort => ?_)
    · -- a long name
      rw [if_pos hlfn] at hchild
      simp only [wp_bind, wp_pure]
      refine wp_mono_ok (reserveName_spec (X := X) hg hb fuel _ hw hf) ?_
      intro x t hx'
      obtain ⟨pages', hreserved, haddrs⟩ := hx'
      rw [haddrs]
      have hlength : lfnEntrySequenceNo d ≤ (d :: behind).length := by
        by_contra hlong
        rw [List.drop_eq_nil_of_le (by omega)] at hchild
        exact absurd hchild (by simp)
      refine wp_mono_ok (hreserved.readLfn hg hw hf hdir fuel
        (Or.inl fun _ h => Halt.noConfusion h) hcurrent hst hlength) ?_
      intro y u hy
      obtain ⟨hwriter, hext, hcells, hlengths, hreturns, hrest⟩ := hy
      rw [← hlengths] at hreserved hext hwriter
      have hcount := congrArg List.length hlengths
      have hno : lfnEntrySequenceNo d < 2 ^ 64 := by
        have hbyte := (FatDentry.byte d 0 &&& 0x1F).toNat_lt
        unfold lfnEntrySequenceNo
        omega
      rw [sizes, List.length_map, List.length_replicate] at hcount
      refine ⟨pages', _, hreserved.filled hg hw hf hx ?_ (by omega) hwriter hext hcells, ?_⟩
      · rw [hlengths]
        intro n hn
        rwa [List.eq_of_mem_replicate hn]
      · cases hdrop : (d :: behind).drop (lfnEntrySequenceNo d) with
        | nil =>
          rw [hdrop] at hchild
          exact absurd hchild (by simp)
        | cons dentry rest' =>
          rw [hdrop] at hchild hreturns hrest
          simp only [Option.some.injEq, Prod.mk.injEq] at hchild
          obtain ⟨rfl, rfl⟩ := hchild
          exact ⟨rfl, hreturns.1, hreturns.2, hrest⟩
    · -- a short name
      rw [if_neg hshort, Option.some.injEq, Prod.mk.injEq] at hchild
      obtain ⟨rfl, rfl⟩ := hchild
      simp only [wp_bind, wp_pure]
      refine wp_mono_ok (reserveName_spec (X := X) hg hb fuel 1 hw hf) ?_
      intro x t hx'
      obtain ⟨pages', hreserved, haddrs⟩ := hx'
      rw [List.replicate_one] at hreserved haddrs
      have hhead : x.1.headD 0 =
          ((head.after sizeofHeader).cell (pageSize g) (lfnEntryLength * 2)).addr g pages' := by
        rw [haddrs]
        rfl
      obtain ⟨hslot, hcell⟩ := hreserved.cell hw rfl hsize
      have hunits : ((shortNameUnits d).flatMap (leBytes 2)).length ≤ lfnEntryLength * 2 := by
        rw [length_flatMap_leBytes]
        exact Nat.mul_le_mul_right 2 (length_shortNameUnits_le _)
      have hd : dentryAt t.mem current = d :=
        ((hdir.later hreserved.ext).now).dentryAt_eq hcurrent.2
      simp only [readShortName, wp_bind, wp_getMem, hd, hhead]
      refine wp_mono_ok (storeBytes_filled
        (Y := X ∪ CellBytes g pages' (head.after sizeofHeader) [lfnEntryLength * 2]) hg
        hreserved.writer (hslot.sub le_rfl (by omega))
        (fun a hlow hhigh => Or.inr (hcell a hlow (by omega))) _) ?_
      intro _ u hu
      have hlength : (u.mem.read (((head.after sizeofHeader).cell (pageSize g)
          (lfnEntryLength * 2)).addr g pages') (lfnEntryLength * 2)).length =
          lfnEntryLength * 2 := Mem.length_read _ _ _
      refine ⟨pages', [u.mem.read (((head.after sizeofHeader).cell (pageSize g)
        (lfnEntryLength * 2)).addr g pages') (lfnEntryLength * 2)], ?_, ?_, hcurrent.1, hcurrent.2,
        hst⟩
      · apply Reserved.filled hg hw hf hx (t := t)
        · rw [sizes, List.map_singleton, hlength]
          exact hreserved
        · simpa [sizes] using hsize
        · rw [List.length_singleton]
          exact Nat.one_lt_two_pow (by decide)
        · rw [sizes, List.map_singleton, hlength]
          exact hu.writer
        · rw [sizes, List.map_singleton, hlength]
          exact hu.ext
        · rw [HoldsCells, hlength]
          exact ⟨rfl, trivial⟩
      · refine ⟨_, rfl, hlength, ?_⟩
        have hinitial := Mem.read_initial u.mem (((head.after sizeofHeader).cell (pageSize g)
          (lfnEntryLength * 2)).addr g pages') hunits
        rwa [hu.content] at hinitial

end

end OfsConvert
