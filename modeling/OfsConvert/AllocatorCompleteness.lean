import OfsConvert.MetaExtents

/-!
# What the allocator passes over

The cursor tests every cluster in front of a blocked extent. Behind one it is set to the first
cluster and then incremented before the next test, so that cluster is never tested. A full volume
is reported when everything else has been handed out.
-/

namespace OfsConvert

/-- The steps that the cursor can still make. -/
def cursorSteps (g : Globals) (blocked : List FatExtent) (s : State) : ℕ :=
  (dataClusterCount g.bootSector g.metaInfo - s.allocator.indexInFat) +
    (blocked.length + 1 - s.allocator.blockedExtentCurrent)

/-- No usable cluster up to the cursor is left, except the first one behind a blocked extent, which
is never handed out. -/
structure CursorInv (g : Globals) (m₀ : Mem) (blocked : List FatExtent) (s : State) : Prop where
  ahead : ∀ e, blocked[s.allocator.blockedExtentCurrent]? = some e →
    s.allocator.indexInFat ≤ e.physicalStart
  visited : ∀ c, Usable g m₀ blocked c → c ≤ s.allocator.indexInFat →
    isFree s.allocationBitmap c = false ∨ ∃ e ∈ blocked, c = e.stop
  stops : ∀ e ∈ blocked, Usable g m₀ blocked e.stop → isFree s.allocationBitmap e.stop = true

/-- Every usable cluster has been handed out, except the first ones behind blocked extents. -/
structure Exhausted (g : Globals) (m₀ : Mem) (blocked : List FatExtent) (s : State) : Prop where
  visited : ∀ c, Usable g m₀ blocked c →
    isFree s.allocationBitmap c = false ∨ ∃ e ∈ blocked, c = e.stop
  stops : ∀ e ∈ blocked, Usable g m₀ blocked e.stop → isFree s.allocationBitmap e.stop = true

section

variable {g : Globals} {m₀ : Mem} {blocked : List FatExtent} {s t : State}

/-- The cursor starts in front of all clusters. -/
theorem CursorInv.initial (hindex : s.allocator.indexInFat = 0)
    (hbitmap : s.allocationBitmap = createAllocationBitmap g m₀) : CursorInv g m₀ blocked s := by
  refine ⟨fun e _ => by omega, fun c hc hle => ?_, fun e _ husable => ?_⟩
  · have hlow := hc.lower
    unfold fatStartIndex at hlow
    omega
  · rw [hbitmap]
    exact (isFree_createAllocationBitmap g m₀ e.stop husable.upper).mpr
      ⟨husable.lower, husable.free⟩

/-- The blocked extents before the current one end at or in front of the cursor, those from the
current one on end behind a cluster that is tested. -/
theorem AllocatorInv.tested_ne_stop (h : AllocatorInv g m₀ blocked s)
    (hb : BlockedExtents (dataClusterCount g.bootSector g.metaInfo) blocked) {e : FatExtent}
    (hget : s.allocator.blockedExtents[s.allocator.blockedExtentCurrent]? = some e)
    (hlt : s.allocator.indexInFat + 1 < e.physicalStart) :
    ∀ d ∈ blocked, s.allocator.indexInFat + 1 ≠ d.stop := by
  intro d hd heq
  obtain ⟨i, hi, rfl⟩ := List.getElem_of_mem hd
  have hsome := List.getElem?_eq_getElem hi
  obtain ⟨e', hget', -, -, hahead, -⟩ := h.current_extent hb
  rw [hget, Option.some_inj] at hget'
  subst hget'
  rcases Nat.lt_or_ge i s.allocator.blockedExtentCurrent with hpassed | hnext
  · have hstop := h.passed i hpassed _ hsome
    omega
  · have hstart := hahead i hnext _ hsome
    unfold FatExtent.stop at heq
    omega

/-- One step of the cursor: a cluster that is not approved has been handed out, is not usable or
is the first one behind a blocked extent. -/
theorem canBeUsed_cursor (h : AllocatorInv g m₀ blocked s)
    (hb : BlockedExtents (dataClusterCount g.bootSector g.metaInfo) blocked)
    (hc : CursorInv g m₀ blocked s) :
    wp canBeUsed
      (fun usable t => cursorSteps g blocked t < cursorSteps g blocked s ∧
        (usable = false → CursorInv g m₀ blocked t) ∧
        (usable = true → CursorInv g m₀ blocked
          { t with allocationBitmap := setUsed t.allocationBitmap t.allocator.indexInFat }))
      (fun e t => e = .exit fsIsFullMessage ∧ Exhausted g m₀ blocked t) s := by
  obtain ⟨e, hget, hstart, hshort, hahead, -, hcur⟩ := h.current_extent hb
  have hnum := hb.numbers
  have hcursor := h.cursor
  have hcurrent := h.current
  have hindex : u32 (s.allocator.indexInFat + 1) = s.allocator.indexInFat + 1 :=
    u32_of_lt (by omega)
  have hstop : u32 (e.physicalStart + e.length) = e.stop := u32_of_lt (by omega)
  simp only [canBeUsed, wp_bind, wp_get, hget, hindex, hstop]
  refine wp_ite (fun hlt => ?_) (fun hge => ?_)
  · -- the cursor stays in front of the current blocked extent
    simp only [wp_bind, wp_set, wp_pure]
    have hne := h.tested_ne_stop hb hget hlt
    have hnext : ∀ d, blocked[s.allocator.blockedExtentCurrent]? = some d →
        s.allocator.indexInFat + 1 ≤ d.physicalStart := by
      intro d hd
      have hlater := hahead _ le_rfl d hd
      omega
    refine ⟨by unfold cursorSteps; dsimp only; omega, fun hfalse => ⟨hnext, ?_, hc.stops⟩,
      fun htrue => ⟨hnext, ?_, ?_⟩⟩
    · intro c hus hle
      rcases Nat.lt_or_ge s.allocator.indexInFat c with hnew | hold
      · obtain rfl : c = s.allocator.indexInFat + 1 := by dsimp only at hle; omega
        exact Or.inl hfalse
      · exact hc.visited c hus hold
    · intro c hus hle
      rw [isFree_setUsed]
      rcases Nat.lt_or_ge s.allocator.indexInFat c with hnew | hold
      · obtain rfl : c = s.allocator.indexInFat + 1 := by dsimp only at hle; omega
        exact Or.inl (by simp)
      · refine (hc.visited c hus hold).imp_left fun htaken => ?_
        rw [htaken, Bool.false_and]
    · intro d hd hus
      rw [isFree_setUsed, hc.stops d hd hus, Bool.true_and, bne_iff_ne]
      exact (hne d hd).symm
  · -- the cursor jumps to the end of the current blocked extent
    simp only [wp_bind, wp_set]
    refine wp_ite (fun hfull => ?_) (fun hfull => ?_)
    · -- behind the sentinel there is nothing to pass over
      have hend : s.allocator.blockedExtentCurrent = blocked.length := by
        have hbound : s.allocator.blockedExtentCount < s.allocator.blockedExtentCurrent + 1 := by
          simpa [fsIsFull] using hfull
        rw [h.count] at hbound
        omega
      have hsentinel : e = endSentinel (dataClusterCount g.bootSector g.metaInfo) := by
        rw [h.extents, hend] at hget
        simpa using hget.symm
      rw [wp_throw]
      refine ⟨rfl, fun c hus => ?_, hc.stops⟩
      have hupper := hus.upper
      rw [hsentinel] at hge
      change ¬ _ < dataClusterCount g.bootSector g.metaInfo at hge
      exact hc.visited c hus (by omega)
    · have hroom : s.allocator.blockedExtentCurrent + 1 ≤ blocked.length := by
        simpa [fsIsFull, h.count] using hfull
      have hmem : blocked[s.allocator.blockedExtentCurrent]? = some e := hcur (by omega)
      have hnear := hc.ahead e hmem
      rw [wp_pure]
      refine ⟨by unfold cursorSteps FatExtent.stop; dsimp only; omega, fun _ => ⟨?_, ?_, hc.stops⟩,
        fun hfalse => absurd hfalse (by decide)⟩
      · intro d hd
        obtain ⟨hnext, rfl⟩ := List.getElem?_eq_some_iff.mp hd
        obtain ⟨hlast, rfl⟩ := List.getElem?_eq_some_iff.mp hmem
        exact List.pairwise_iff_getElem.mp hb.ordered _ _ hlast hnext (Nat.lt_succ_self _)
      · intro c hus hle
        rcases Nat.lt_or_ge s.allocator.indexInFat c with hnew | hold
        · rcases Nat.eq_or_lt_of_le hle with heq | hin
          · exact Or.inr ⟨e, List.mem_of_getElem? hmem, heq⟩
          · refine absurd ((e.mem_clusters c).mpr ⟨by omega, hin⟩)
              (hus.unblocked e (List.mem_of_getElem? hmem))
        · exact hc.visited c hus hold

/-- How an allocation with this fuel ends when it does not return: the volume is full, or the fuel
is no more than the cursor's steps. -/
def Ends (g : Globals) (m₀ : Mem) (blocked : List FatExtent) (fuel steps : ℕ) (cause : Halt)
    (t : State) : Prop :=
  (cause = .exit fsIsFullMessage ∧ Exhausted g m₀ blocked t) ∨ (cause = .fuel ∧ fuel ≤ steps)

/-- How an allocation ends, for another fuel and another bound on the steps. -/
theorem Ends.mono {fuel fuel' steps steps' : ℕ} {cause : Halt}
    (h : Ends g m₀ blocked fuel steps cause t) (hle : fuel ≤ steps → fuel' ≤ steps') :
    Ends g m₀ blocked fuel' steps' cause t :=
  h.imp_right fun hfuel => ⟨hfuel.1, hle hfuel.2⟩

/-- The cursor has at most one step for each cluster and each blocked extent. -/
theorem cursorSteps_le : cursorSteps g blocked s ≤
    dataClusterCount g.bootSector g.metaInfo + (blocked.length + 1) :=
  Nat.add_le_add (Nat.sub_le _ _) (Nat.sub_le _ _)

/-- Searching ends at the next cluster that is approved. -/
theorem findUsable_cursor (hb : BlockedExtents (dataClusterCount g.bootSector g.metaInfo) blocked)
    (fuel : ℕ) (h : AllocatorInv g m₀ blocked s) (hc : CursorInv g m₀ blocked s) :
    wp (findUsable fuel)
      (fun _ t => cursorSteps g blocked t < cursorSteps g blocked s ∧ CursorInv g m₀ blocked
        { t with allocationBitmap := setUsed t.allocationBitmap t.allocator.indexInFat })
      (Ends g m₀ blocked fuel (cursorSteps g blocked s)) s := by
  induction fuel generalizing s with
  | zero => exact Or.inr ⟨rfl, Nat.zero_le _⟩
  | succ fuel ih =>
    rw [findUsable, wp_bind]
    refine wp_mono (wp_and (canBeUsed_spec h hb) (canBeUsed_cursor h hb hc)) ?_
      (fun _ _ he => Or.inl he.2)
    intro usable t ht
    obtain ⟨⟨hinv, -, -, -⟩, hsteps, hrejected, happroved⟩ := ht
    refine wp_ite (fun htrue => ⟨hsteps, happroved htrue⟩) (fun hfalse => ?_)
    refine wp_mono (ih hinv (hrejected (Bool.eq_false_iff.mpr hfalse))) ?_ ?_
    · intro _ u hu
      exact ⟨hu.1.trans hsteps, hu.2⟩
    · intro cause u hu
      exact hu.mono fun hle => by omega

/-- Growing ends at the first cluster that is not approved. -/
theorem growExtent_cursor (hb : BlockedExtents (dataClusterCount g.bootSector g.metaInfo) blocked)
    (maxLength fuel : ℕ) {e : FatExtent} (h : AllocatorInv g m₀ blocked s)
    (hc : CursorInv g m₀ blocked s) :
    wp (growExtent maxLength fuel e) (fun _ t => CursorInv g m₀ blocked t)
      (Ends g m₀ blocked fuel (cursorSteps g blocked s)) s := by
  induction fuel generalizing s e with
  | zero => exact Or.inr ⟨rfl, Nat.zero_le _⟩
  | succ fuel ih =>
    rw [growExtent]
    refine wp_ite (fun _ => ?_) (fun _ => hc)
    rw [wp_bind]
    refine wp_mono (wp_and (canBeUsed_spec h hb) (canBeUsed_cursor h hb hc)) ?_
      (fun _ _ he => Or.inl he.2)
    intro usable t ht
    obtain ⟨⟨hinv, -, -, -⟩, hsteps, hrejected, happroved⟩ := ht
    refine wp_ite (fun htrue => ?_) (fun hfalse => hrejected (Bool.eq_false_iff.mpr hfalse))
    simp only [takeCurrent, wp_bind, wp_get, wp_set, wp_pure]
    refine wp_mono (ih (hinv.setUsed _) (happroved htrue)) (fun _ _ hu => hu) ?_
    intro cause u hu
    refine hu.mono fun hle => ?_
    change fuel ≤ cursorSteps g blocked t at hle
    omega

/-- One call of `allocate_extent`. -/
theorem allocateExtent_cursor
    (hb : BlockedExtents (dataClusterCount g.bootSector g.metaInfo) blocked) (maxLength fuel : ℕ)
    (h : AllocatorInv g m₀ blocked s) (hc : CursorInv g m₀ blocked s) :
    wp (allocateExtent fuel maxLength) (fun _ t => CursorInv g m₀ blocked t)
      (Ends g m₀ blocked fuel (cursorSteps g blocked s)) s := by
  rw [allocateExtent, wp_bind]
  refine wp_mono (wp_and (findUsable_spec hb fuel h) (findUsable_cursor hb fuel h hc)) ?_
    (fun _ _ he => he.2)
  intro _ t ht
  obtain ⟨⟨hinv, -, -, -, -⟩, hsteps, hcursor⟩ := ht
  simp only [takeCurrent, wp_bind, wp_get, wp_set, wp_pure]
  refine wp_mono (growExtent_cursor hb maxLength fuel (hinv.setUsed _) hcursor)
    (fun _ _ hu => hu) ?_
  intro cause u hu
  refine hu.mono fun hle => ?_
  change fuel ≤ cursorSteps g blocked t at hle
  omega

/-- Any number of calls. -/
theorem allocateExtents_cursor
    (hb : BlockedExtents (dataClusterCount g.bootSector g.metaInfo) blocked) (fuel : ℕ)
    (lengths : List ℕ) (hlengths : ∀ n ∈ lengths, 1 ≤ n ∧ n < 2 ^ 16)
    (h : AllocatorInv g m₀ blocked s) (hc : CursorInv g m₀ blocked s) :
    wp (allocateExtents fuel lengths) (fun _ t => CursorInv g m₀ blocked t)
      (Ends g m₀ blocked fuel
        (dataClusterCount g.bootSector g.metaInfo + (blocked.length + 1))) s := by
  induction lengths generalizing s with
  | nil => exact hc
  | cons n rest ih =>
    obtain ⟨hpos, hmax⟩ := hlengths n (by simp)
    simp only [allocateExtents, wp_bind, wp_pure]
    refine wp_mono (wp_and (allocateExtent_spec hb hpos hmax fuel h)
      (allocateExtent_cursor hb n fuel h hc)) ?_
      (fun _ _ he => he.2.mono fun hle => hle.trans cursorSteps_le)
    intro _ t ht
    exact ih (fun k hk => hlengths k (by simp [hk])) ht.1.1 ht.2

/-- There are no more calls that return than clusters. -/
theorem AllocatedAll.length_le {lengths : List ℕ} {extents : List FatExtent}
    (h : AllocatedAll g m₀ blocked s lengths extents) :
    lengths.length ≤ dataClusterCount g.bootSector g.metaInfo := by
  have hsubset : extents.flatMap FatExtent.clusters ⊆
      List.range (dataClusterCount g.bootSector g.metaInfo) :=
    fun c hc => List.mem_range.mpr (h.usable c hc).upper
  have hle := (List.subperm_of_subset h.distinct hsubset).length_le
  have hmany : ∀ {es : List FatExtent} {ns : List ℕ},
      List.Forall₂ (fun e n => 1 ≤ e.length ∧ e.length ≤ n) es ns →
      ns.length ≤ (es.flatMap FatExtent.clusters).length := by
    intro es ns hall
    induction hall with
    | nil => exact Nat.zero_le _
    | @cons e n es ns hhead _ ih =>
      rw [List.flatMap_cons, List.length_append, FatExtent.length_clusters, List.length_cons]
      omega
  rw [List.length_range] at hle
  exact (hmany h.lengths).trans hle

end

/-- The initial allocator and a sequence of calls of `allocate_extent`. -/
def allocationRun (g : Globals) (blocked : List FatExtent) (fuel : ℕ) (lengths : List ℕ) :
    Prog (List FatExtent) := do
  initExtentAllocator g
    (blocked ++ [endSentinel (dataClusterCount g.bootSector g.metaInfo)]) blocked.length
  allocateExtents fuel lengths

/-- A run hands out usable clusters and leaves none behind, except the first ones behind blocked
extents. -/
theorem allocationRun_spec (g : Globals) (blocked : List FatExtent)
    (hb : BlockedExtents (dataClusterCount g.bootSector g.metaInfo) blocked) (fuel : ℕ)
    (lengths : List ℕ) (hlengths : ∀ n ∈ lengths, 1 ≤ n ∧ n < 2 ^ 16) (s : State) :
    wp (allocationRun g blocked fuel lengths)
      (fun _ t => lengths.length ≤ dataClusterCount g.bootSector g.metaInfo ∧
        CursorInv g s.mem blocked t)
      (Ends g s.mem blocked fuel
        (dataClusterCount g.bootSector g.metaInfo + (blocked.length + 1))) s := by
  rw [allocationRun, wp_bind]
  have hinit : wp (initExtentAllocator g
      (blocked ++ [endSentinel (dataClusterCount g.bootSector g.metaInfo)]) blocked.length)
      (fun _ t => CursorInv g s.mem blocked t) (fun _ _ => False) s := by
    simp only [initExtentAllocator, wp_bind, wp_getMem, wp_modify]
    exact CursorInv.initial rfl rfl
  refine wp_mono (wp_and (initExtentAllocator_spec s hb) hinit) ?_ (fun _ _ h => h.1.elim)
  intro _ t ht
  obtain ⟨⟨hinv, -, -⟩, hcursor⟩ := ht
  refine wp_mono (wp_and (allocateExtents_spec hb fuel lengths hlengths hinv)
    (allocateExtents_cursor hb fuel lengths hlengths hinv hcursor)) ?_ (fun _ _ h => h.2)
  intro extents u hu
  exact ⟨hu.1.length_le, hu.2⟩

/-- Every run takes the exit for a full file system only when all usable clusters have been handed
out, and skips none before, exactly when no blocked extent has a usable cluster directly behind
it. -/
theorem allocationRun_complete_iff (g : Globals) (blocked : List FatExtent)
    (hb : BlockedExtents (dataClusterCount g.bootSector g.metaInfo) blocked) (s : State) :
    (∀ fuel lengths, (∀ n ∈ lengths, 1 ≤ n ∧ n < 2 ^ 16) →
      wp (allocationRun g blocked fuel lengths)
        (fun _ t => ∀ c, Usable g s.mem blocked c → c ≤ t.allocator.indexInFat →
          isFree t.allocationBitmap c = false)
        (fun cause t => cause = .exit fsIsFullMessage →
          ∀ c, Usable g s.mem blocked c → isFree t.allocationBitmap c = false) s) ↔
    ∀ e ∈ blocked, ¬ Usable g s.mem blocked e.stop := by
  constructor
  · intro h e he husable
    -- more calls than clusters, with fuel for all steps of the cursor: the run takes the exit
    obtain ⟨count, hcount⟩ : ∃ n, n = dataClusterCount g.bootSector g.metaInfo := ⟨_, rfl⟩
    have hlengths : ∀ n ∈ List.replicate (count + 1) 1, 1 ≤ n ∧ n < 2 ^ 16 := by
      intro n hn
      rw [List.eq_of_mem_replicate hn]
      norm_num
    have hspec := allocationRun_spec g blocked hb (count + (blocked.length + 1) + 1)
      (List.replicate (count + 1) 1) hlengths s
    have hclaim := h (count + (blocked.length + 1) + 1) (List.replicate (count + 1) 1) hlengths
    cases hrun : allocationRun g blocked (count + (blocked.length + 1) + 1)
      (List.replicate (count + 1) 1) s with
    | ok extents t =>
      have hlength := (wp_ok hspec hrun).1
      rw [List.length_replicate, ← hcount] at hlength
      omega
    | error cause t =>
      rcases wp_error hspec hrun with ⟨hexit, hexhausted⟩ | ⟨-, hfuel⟩
      · have htaken := wp_error hclaim hrun hexit e.stop husable
        rw [hexhausted.stops e he husable] at htaken
        exact absurd htaken (by decide)
      · omega
  · intro h fuel lengths hlengths
    refine wp_mono (allocationRun_spec g blocked hb fuel lengths hlengths s) ?_ ?_
    · intro _ t ht c hc hle
      refine (ht.2.visited c hc hle).resolve_right fun hstop => ?_
      obtain ⟨e, he, rfl⟩ := hstop
      exact h e he hc
    · intro cause t ht hexit c hc
      rcases ht with ⟨-, hexhausted⟩ | ⟨hfuel, -⟩
      · refine (hexhausted.visited c hc).resolve_right fun hstop => ?_
        obtain ⟨e, he, rfl⟩ := hstop
        exact h e he hc
      · rw [hexit] at hfuel
        cases hfuel

/-- The blocked extent of a volume of 200 blocks, the metadata prefix of its only group. -/
theorem metaExtents_sample_400 : metaExtents (sampleGlobals 400) = [⟨0, 51, 2⟩] := by decide

/-- A FAT in which the cluster directly behind that extent is in use, and all others are free. -/
def usedBehind : Mem := Mem.write (fun _ => 0) 82132 [0xFF, 0xFF, 0xFF, 0x0F]

/-- With that extent and that FAT the runs are complete. -/
theorem allocationRun_complete_sample :
    BlockedExtents (dataClusterCount (sampleGlobals 400).bootSector (sampleGlobals 400).metaInfo)
      (metaExtents (sampleGlobals 400)) ∧
    ∀ fuel lengths, (∀ n ∈ lengths, 1 ≤ n ∧ n < 2 ^ 16) →
      wp (allocationRun (sampleGlobals 400) (metaExtents (sampleGlobals 400)) fuel lengths)
        (fun _ t => ∀ c, Usable (sampleGlobals 400) usedBehind (metaExtents (sampleGlobals 400)) c →
          c ≤ t.allocator.indexInFat → isFree t.allocationBitmap c = false)
        (fun cause t => cause = .exit fsIsFullMessage →
          ∀ c, Usable (sampleGlobals 400) usedBehind (metaExtents (sampleGlobals 400)) c →
            isFree t.allocationBitmap c = false) { mem := usedBehind } := by
  have hblocked := accepted_sample_400.blockedExtents
  refine ⟨hblocked, (allocationRun_complete_iff (sampleGlobals 400)
    (metaExtents (sampleGlobals 400)) hblocked { mem := usedBehind }).mpr ?_⟩
  rw [metaExtents_sample_400]
  intro e he husable
  rw [List.mem_singleton.mp he] at husable
  have hfree : isFreeCluster (fatEntry (sampleGlobals 400).metaInfo usedBehind 53) = false := by
    decide +kernel
  exact Bool.false_ne_true (hfree.symm.trans husable.free)

/-- 67 calls on that volume take the exit while the cluster behind the extent is left. -/
theorem not_allocationRun_complete_sample :
    ¬ wp (allocationRun (sampleGlobals 400) (metaExtents (sampleGlobals 400)) 3
        (List.replicate 67 1))
      (fun _ _ => True)
      (fun cause t => cause = .exit fsIsFullMessage →
        ∀ c, Usable (sampleGlobals 400) (fun _ => 0) (metaExtents (sampleGlobals 400)) c →
          isFree t.allocationBitmap c = false) { mem := fun _ => 0 } := by
  rw [metaExtents_sample_400]
  intro h
  have hstops : stopsWith
      (fun cause t => decide (cause = .exit fsIsFullMessage) && isFree t.allocationBitmap 53)
      (allocationRun (sampleGlobals 400) [⟨0, 51, 2⟩] 3 (List.replicate 67 1))
      { mem := fun _ => 0 } = true := by decide +kernel
  obtain ⟨cause, t, hrun, htest⟩ := exists_of_stopsWith hstops
  rw [Bool.and_eq_true, decide_eq_true_iff] at htest
  have htaken := wp_error h hrun htest.1 53 ⟨by decide, by decide, by decide, by decide⟩
  rw [htaken] at htest
  exact absurd htest.2 (by decide)

end OfsConvert
