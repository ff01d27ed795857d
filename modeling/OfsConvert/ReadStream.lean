import OfsConvert.StreamReader

/-!
# The read stream of the second phase

The second phase reads the stream through `readNext`, which adds what a call returned to the
history. What the calls return depends on the memory only: `Yields` says that a memory yields the
elements of a segment, then the end, and where the stream stands behind it.
-/

namespace OfsConvert

/-- Add what a call on the read stream returned to the history. -/
def State.logRead (s : State) (dirInodeNo : ℕ) (element : Option (List UInt8)) : State :=
  { s with ext4 := { s.ext4 with reads := s.ext4.reads ++ [⟨dirInodeNo, element⟩] } }

/-- A call on the read stream while directory `dirInodeNo` is built. -/
def readNext (g : Globals) (dirInodeNo size : ℕ) (readStream : StreamArchiver) :
    Prog (ℕ × StreamArchiver) := do
  let (p, readStream) ← getNext g size readStream
  modify fun s => s.logRead dirInodeNo (if p = 0 then none else some (s.mem.read p size))
  pure (p, readStream)

/-- From `r` on the memory yields the elements of a segment and then the end, behind which the
stream stands at `r'`. -/
def Yields (g : Globals) (size : ℕ) (m : Mem) : Segment → StreamArchiver → StreamArchiver → Prop
  | [], r, r' => ∀ s : State, s.mem = m → getNext g size r s = .ok (0, r') s
  | e :: es, r, r' => ∃ p r₁, p ≠ 0 ∧ m.read p size = e ∧
      (∀ s : State, s.mem = m → getNext g size r s = .ok (p, r₁) s) ∧ Yields g size m es r₁ r'

/-- The history behind a segment that was read to its end. -/
def State.logSegment (s : State) (dirInodeNo : ℕ) : Segment → State
  | [] => s.logRead dirInodeNo none
  | e :: es => (s.logRead dirInodeNo (some e)).logSegment dirInodeNo es

/-- Only what was read is added to the history. -/
def LogOnly (s t : State) : Prop := ∃ log, t = { s with ext4 := { s.ext4 with reads := log } }

/-- A step that does nothing adds nothing to the history. -/
theorem LogOnly.refl (s : State) : LogOnly s s := ⟨s.ext4.reads, rfl⟩

/-- Additions to the history compose. -/
theorem LogOnly.trans {s t u : State} (h : LogOnly s t) (h' : LogOnly t u) : LogOnly s u := by
  obtain ⟨log, rfl⟩ := h
  obtain ⟨log', rfl⟩ := h'
  exact ⟨log', rfl⟩

/-- Logging one read only adds to the history. -/
theorem LogOnly.logRead (s : State) (dirInodeNo : ℕ) (x : Option (List UInt8)) :
    LogOnly s (s.logRead dirInodeNo x) := ⟨_, rfl⟩

/-- Logging a segment only adds to the history. -/
theorem LogOnly.logSegment (s : State) (dirInodeNo : ℕ) (es : Segment) :
    LogOnly s (s.logSegment dirInodeNo es) := by
  induction es generalizing s with
  | nil => exact LogOnly.logRead s dirInodeNo none
  | cons e es ih => exact (LogOnly.logRead s dirInodeNo (some e)).trans (ih _)

section

variable {g : Globals} {dirInodeNo size : ℕ} {r r' : StreamArchiver} {s : State} {e : List UInt8}
  {es : Segment} {E : Halt → State → Prop}

/-- Logging one read leaves the memory. -/
@[simp] theorem State.logRead_mem (s : State) (dirInodeNo : ℕ) (x : Option (List UInt8)) :
    (s.logRead dirInodeNo x).mem = s.mem := rfl

/-- Logging a segment leaves the memory. -/
@[simp] theorem State.logSegment_mem (s : State) (dirInodeNo : ℕ) (es : Segment) :
    (s.logSegment dirInodeNo es).mem = s.mem := by
  induction es generalizing s with
  | nil => rfl
  | cons e es ih => exact ih _

/-- A call in front of an element. -/
theorem readNext_cons (h : Yields g size s.mem (e :: es) r r') :
    wp (readNext g dirInodeNo size r)
      (fun x t => t = s.logRead dirInodeNo (some e) ∧ x.1 ≠ 0 ∧ s.mem.read x.1 size = e ∧
        Yields g size s.mem es x.2 r') E s := by
  obtain ⟨p, r₁, hp, hread, hrun, hrest⟩ := h
  rw [readNext, wp_bind]
  unfold wp
  rw [hrun s rfl]
  refine ⟨?_, hp, hread, hrest⟩
  change s.logRead dirInodeNo (if p = 0 then none else some (s.mem.read p size)) = _
  rw [if_neg hp, hread]

/-- A call behind the last element. -/
theorem readNext_nil (h : Yields g size s.mem [] r r') :
    wp (readNext g dirInodeNo size r)
      (fun x t => t = s.logRead dirInodeNo none ∧ x = (0, r')) E s := by
  rw [readNext, wp_bind]
  unfold wp
  rw [h s rfl]
  exact ⟨rfl, rfl⟩

end

/-- A segment that a memory holds is yielded from a reader behind its first elements on. -/
theorem HoldsCells.yields {g : Globals} (hg : ClusterArea g) {pages : List ℕ} {m : Mem}
    (hs : StreamAt g pages m) {head p : Pos} {i size : ℕ} {r : StreamArchiver} {es : Segment}
    (hr : Reader g pages head p i r) (hhead : head.index < pages.length)
    (hcount : m.readLE (head.addr g pages) sizeofHeader = i + es.length)
    (hsmall : i + es.length + 1 < 2 ^ 64) (hsizes : ∀ e ∈ es, e.length = size)
    (hindex : ((cellsEnd (pageSize g) p (sizes es)).cell (pageSize g) sizeofHeader).index <
      pages.length)
    (h : HoldsCells g pages m p es) :
    ∃ r', Yields g size m es r r' ∧
      Reader g pages ((cellsEnd (pageSize g) p (sizes es)).cell (pageSize g) sizeofHeader)
        (((cellsEnd (pageSize g) p (sizes es)).cell (pageSize g) sizeofHeader).after sizeofHeader)
        0 r' := by
  induction es generalizing p i r with
  | nil =>
    have hnext := fun (t : State) (ht : t.mem = m) => getNext_nil (E := fun _ _ => False) (s := t)
      hg (by rw [ht]; exact hs) hr hhead (by rw [ht]; exact hcount) rfl (by simpa using hsmall)
      size hindex
    obtain ⟨x, t, hrun, -, -, hreader⟩ := exists_ok_of_wp (hnext { mem := m } rfl)
    refine ⟨x.2, fun u hu => ?_, hreader⟩
    obtain ⟨y, v, hrun', rfl, hnull, hreader'⟩ := exists_ok_of_wp (hnext u hu)
    rw [hrun', ← hreader'.eq hreader, ← hnull]
  | cons e es ih =>
    have he := hsizes e (by simp)
    have hcell : (p.cell (pageSize g) e.length).index < pages.length :=
      ((Pos.before_after _ _).cellsEnd (sizes es)).cell.index_le.trans_lt hindex
    rw [List.length_cons] at hcount hsmall
    have hnext := fun (t : State) (ht : t.mem = m) => getNext_cons (E := fun _ _ => False) (s := t)
      hg (by rw [ht]; exact hs) hr hhead e.length (ht ▸ hcount) (by omega) (by omega) hcell
    obtain ⟨x, t, hrun, -, haddr, hreader⟩ := exists_ok_of_wp (hnext { mem := m } rfl)
    obtain ⟨r', hyields, hreader'⟩ := ih hreader (by omega) (by omega)
      (fun d hd => hsizes d (by simp [hd])) hindex h.2
    refine ⟨r', ⟨x.1, x.2, ?_, ?_, fun u hu => ?_, hyields⟩, hreader'⟩
    · have hpos := hg.clusterStart_pos (hs.data _ (List.getElem_mem hcell))
      rw [haddr, Pos.addr, List.getD_eq_getElem _ _ hcell]
      omega
    · rw [haddr, ← he]
      exact h.1
    · obtain ⟨y, v, hrun', rfl, haddr', hreader'⟩ := exists_ok_of_wp (hnext u hu)
      rw [← he, hrun', haddr, ← haddr', ← hreader'.eq hreader]

end OfsConvert
