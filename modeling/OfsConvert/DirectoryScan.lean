import OfsConvert.PayloadRelocation

/-!
# Scanning a directory

A directory is scanned by calling `next_dentry` again and again on the state that
`init_read_state` makes from its extents. The scan visits the live entries of all clusters in
order and then stays at the end; the extent stream leaves the segment of its extents once and
goes no further.
-/

namespace OfsConvert

/-- `count` successive calls of `next_dentry`. -/
def nextDentries (g : Globals) (fuel : ℕ) :
    ℕ → ClusterReadState → Prog (List ℕ × ClusterReadState)
  | 0, state => pure ([], state)
  | count + 1, state => do
    let (entry, state) ← nextDentry g fuel state
    let (entries, state) ← nextDentries g fuel count state
    pure (entry :: entries, state)

/-- `count` calls of `next_dentry` on `init_read_state(init(extent_stream))`. -/
def scanDirectory (g : Globals) (fuel count : ℕ) (extentStream : StreamArchiver) :
    Prog (List ℕ × ClusterReadState) := do
  let iterator ← ExtentIterator.init g extentStream
  let state ← initReadState g fuel iterator
  nextDentries g fuel count state

/-- The addresses of all entries in the clusters of the extents. -/
def entriesOf (g : Globals) (es : List FatExtent) : List ℕ :=
  (physical es).flatMap (entryAddresses g)

/-- A read stream that has read some of the extents of a segment and nothing behind them. -/
def AmongExtents (g : Globals) (pages : List ℕ) (head : Pos) (es : List FatExtent)
    (r : StreamArchiver) : Prop :=
  ∃ before, before <+: es ∧ Reader g pages head (extentsEnd g head before) before.length r

section

variable {g : Globals} {pages : List ℕ} {head : Pos} {es : List FatExtent}
  {table : List FatDentry} {s : State} {E : Halt → State → Prop}

/-- The stream of an iterator is in the segment of its extents or right behind it. -/
theorem IterAt.stream_at {it : ExtentIterator} {cs : List ℕ} (h : IterAt g pages head es it cs) :
    AmongExtents g pages head es it.extentStream ∨
      BehindExtents g pages head es it.extentStream := by
  cases h with
  | done hnull hbehind => exact Or.inr hbehind
  | inExtent before e behind hes hcurrent hcluster hreader =>
    have hinitial : before ++ [e] <+: es := ⟨behind, by rw [hes]; simp⟩
    exact Or.inl ⟨before ++ [e], hinitial, by simpa using hreader⟩

/-- The stream of a table state is in the segment of the extents or right behind it. -/
theorem TableAt.stream_at {st : ClusterReadState} {addresses : List ℕ}
    (h : TableAt g pages head es st addresses) :
    AmongExtents g pages head es st.iterator.extentStream ∨
      BehindExtents g pages head es st.iterator.extentStream := by
  cases h with
  | done hnull hzero hbehind => exact Or.inr hbehind
  | inCluster c cs hc hcs hcurrent hdentry hiter => exact hiter.stream_at

/-- When the table has run out, so has the segment. -/
theorem TableAt.behind (hg : Accepted g) (hdata : ∀ c ∈ physical es, DataCluster g c)
    {st : ClusterReadState} {addresses : List ℕ} (h : TableAt g pages head es st addresses)
    (hnull : st.currentCluster = 0) : BehindExtents g pages head es st.iterator.extentStream := by
  cases h with
  | done hnull hzero hbehind => exact hbehind
  | inCluster c cs hc hcs hcurrent hdentry hiter =>
    have hpos := hg.area.clusterStart_pos (hdata c hc)
    omega

/-- Successive calls return the live entries in order, then 0 for ever. -/
theorem nextDentries_spec (hg : Accepted g) (h : DirAt g pages head es table s.mem) {fuel : ℕ}
    (hfuel : (entriesOf g es).length + 2 < fuel) (count k : ℕ) {st : ClusterReadState}
    {live : List ℕ} (hlive : liveAddresses s.mem ((entriesOf g es).drop k) = live)
    (hst : TableAt g pages head es st ((entriesOf g es).drop k)) :
    wp (nextDentries g fuel count st)
      (fun x t => t = s ∧ x.1 = live.take count ++ List.replicate (count - live.length) 0 ∧
        (∃ addresses, TableAt g pages head es x.2 addresses) ∧
        (live = [] ∧ st.currentCluster = 0 ∨ live.length < count → x.2.currentCluster = 0))
      E s := by
  induction count generalizing st live k with
  | zero =>
    refine ⟨rfl, by simp, ⟨_, hst⟩, fun hend => ?_⟩
    exact (hend.resolve_right (Nat.not_lt_zero _)).2
  | succ count ih =>
    have hleft : ((entriesOf g es).drop k).length + 2 < fuel := by
      rw [List.length_drop]
      omega
    rw [nextDentries, wp_bind]
    refine wp_mono_ok (nextDentry_visits hg h fuel k ((entriesOf g es).drop k) rfl
      (Or.inr hleft) hst) ?_
    intro x t hx
    obtain ⟨rfl, hvalue, hend, k', hst', htail⟩ := hx
    rw [hlive] at hvalue hend htail
    rw [wp_bind]
    refine wp_mono_ok (ih k' htail hst') ?_
    intro y t' hy
    obtain ⟨ht', hrest, hst'', hend'⟩ := hy
    subst ht'
    simp only [wp_pure, hrest, hvalue]
    cases live with
    | nil =>
      -- the first call has returned 0, and so do the others
      refine ⟨trivial, by simp [List.replicate_succ], hst'', fun _ => ?_⟩
      exact hend' (Or.inl ⟨rfl, hend rfl⟩)
    | cons p ps =>
      refine ⟨trivial, by simp, hst'', fun hover => hend' (Or.inr ?_)⟩
      have hlt := hover.resolve_left fun hnone => List.cons_ne_nil _ _ hnone.1
      simpa using hlt

/-- **Directory scan.** The calls return the live entries of all clusters of all extents, in
order and each once, and then null pointers. The extent stream never reads an extent behind its
own segment, and it has left the segment once a call has returned a null pointer. -/
theorem scanDirectory_complete (hg : Accepted g) (h : ExtentsAt g pages s.mem head es)
    (hdata : ∀ c ∈ physical es, DataCluster g c) {r : StreamArchiver}
    (hr : Reader g pages head (head.after sizeofHeader) 0 r) {fuel : ℕ}
    (hfuel : (entriesOf g es).length + 2 < fuel) (count : ℕ) :
    let live := liveAddresses s.mem (entriesOf g es)
    ∃ st, scanDirectory g fuel count r s =
        .ok (live.take count ++ List.replicate (count - live.length) 0, st) s ∧
      (AmongExtents g pages head es st.iterator.extentStream ∨
        BehindExtents g pages head es st.iterator.extentStream) ∧
      (live.length < count → BehindExtents g pages head es st.iterator.extentStream) := by
  intro live
  have hdir : DirAt g pages head es (tableOf g s.mem (physical es)) s.mem := ⟨h, hdata, rfl⟩
  have hscan : wp (scanDirectory g fuel count r)
      (fun x t => t = s ∧ x.1 = live.take count ++ List.replicate (count - live.length) 0 ∧
        (∃ addresses, TableAt g pages head es x.2 addresses) ∧
        (live.length < count → x.2.currentCluster = 0))
      (fun _ _ => False) s := by
    simp only [scanDirectory, wp_bind]
    refine wp_mono_ok (ExtentIterator.init_spec hg.area h [] es rfl hr) ?_
    intro it s₁ hs₁
    obtain ⟨rfl, -, hit⟩ := hs₁
    refine wp_mono_ok (initReadState_spec hg hdir fuel (Or.inr (by omega)) hit fun d hd => hd) ?_
    intro st s₂ hs₂
    obtain ⟨rfl, -, htable⟩ := hs₂
    refine wp_mono_ok (nextDentries_spec hg hdir hfuel count 0 rfl htable) ?_
    intro x t hx
    obtain ⟨rfl, hvalue, hst, hend⟩ := hx
    exact ⟨rfl, hvalue, hst, fun hlt => hend (Or.inr hlt)⟩
  obtain ⟨x, t, hrun, ht, hvalue, ⟨addresses, hst⟩, hend⟩ := exists_ok_of_wp hscan
  subst ht
  refine ⟨x.2, ?_, hst.stream_at, fun hlt => hst.behind hg hdata (hend hlt)⟩
  rw [hrun, ← hvalue]

end

/-- A directory of the clusters 2 and 3, recorded in two extents on the page in cluster 9: the first
entry of cluster 2, the last entries of both clusters and the two dot entries are skipped. -/
def scannedVolume : Mem :=
  ((sampleVolume.write 150496 deletedEntry).write 151520 deletedEntry).write 156680
    (leBytes 8 2 ++ fatExtentBytes ⟨0, 1, 2⟩ ++ fatExtentBytes ⟨1, 1, 3⟩)

/-- A read stream in front of that directory. -/
def scannedStream : StreamArchiver := ⟨156672, 16, 0, 156680⟩

/-- The stream of the scanned volume holds its two extents. -/
theorem extentsAt_scannedVolume :
    ExtentsAt (sampleGlobals 400) [9] scannedVolume ⟨0, sizeofPage⟩ [⟨0, 1, 2⟩, ⟨1, 1, 3⟩] where
  stream := ⟨by decide, fun i hi => absurd hi (by simp)⟩
  holds := ⟨by decide +kernel, by decide +kernel⟩
  inside := by decide
  typed := by
    intro e he
    rcases List.mem_pair.mp he with rfl | rfl
    · exact ⟨by decide, by decide, by decide, by decide⟩
    · exact ⟨by decide, by decide, by decide, by decide⟩
  short := by decide

/-- The 30 live entries of the first cluster and the 29 of the second, and then the end. -/
theorem scanDirectory_complete_sample :
    ∃ st, scanDirectory (sampleGlobals 400) 100 64 scannedStream { mem := scannedVolume } =
        .ok ((List.range' 1 30).map (149504 + 32 * ·) ++ (List.range' 2 29).map (150528 + 32 * ·) ++
          List.replicate 5 0, st) { mem := scannedVolume } ∧
      BehindExtents (sampleGlobals 400) [9] ⟨0, sizeofPage⟩ [⟨0, 1, 2⟩, ⟨1, 1, 3⟩]
        st.iterator.extentStream := by
  have hlive : liveAddresses scannedVolume
      (entriesOf (sampleGlobals 400) [⟨0, 1, 2⟩, ⟨1, 1, 3⟩]) =
        (List.range' 1 30).map (149504 + 32 * ·) ++
          (List.range' 2 29).map (150528 + 32 * ·) := by decide +kernel
  have hfuel : (entriesOf (sampleGlobals 400) [⟨0, 1, 2⟩, ⟨1, 1, 3⟩]).length + 2 < 100 := by
    decide +kernel
  obtain ⟨st, hrun, -, hbehind⟩ := scanDirectory_complete (s := { mem := scannedVolume })
    accepted_sample_400 extentsAt_scannedVolume (by decide +kernel) (r := scannedStream)
    ⟨by decide, by decide, rfl, by decide⟩ hfuel 64
  dsimp only at hrun hbehind
  rw [hlive] at hrun hbehind
  exact ⟨st, hrun, hbehind (by decide)⟩

end OfsConvert
