import OfsConvert.Aggregation

/-!
# The runs of a cluster chain

`aggregate_extents` collects the clusters of a chain into runs of consecutive clusters and passes
each run on. The loop is stated here with its callee as a parameter. A FAT entry has four reserved
bits; the loop compares entries without masking them, so it follows a chain up to the first entry
with a reserved bit set.
-/

namespace OfsConvert

section Loop

variable {W : Type}

/-- The loop of `aggregate_extents` with its callee `pass` as a parameter. -/
def aggregateVia (g : Globals) (pass : ℕ → FatExtent → W → Prog W) :
    ℕ → FatExtent → ℕ → W → Prog W
  | 0, _, _, _ => throw .fuel
  | fuel + 1, currentExtent, nextClusterNo, w => do
    let isEnd := fatEndOfChain ≤ nextClusterNo
    let isConsecutive := nextClusterNo = u32 (currentExtent.physicalStart + currentExtent.length)
    let hasMaxLength := currentExtent.length = ext4MaxInitExtentLen
    if isEnd ∨ ¬ isConsecutive ∨ hasMaxLength then
      let w ← pass fuel currentExtent w
      if isEnd then
        pure w
      else
        let m ← getMem
        aggregateVia g pass fuel
          ⟨u32 (currentExtent.logicalStart + currentExtent.length), 1, nextClusterNo⟩
          (fatEntry g.metaInfo m nextClusterNo) w
    else
      let m ← getMem
      aggregateVia g pass fuel { currentExtent with length := u16 (currentExtent.length + 1) }
        (fatEntry g.metaInfo m nextClusterNo) w

/-- `aggregate_extents` up to the cut, with its callee as a parameter. -/
def aggregateExtentsVia (g : Globals) (pass : ℕ → FatExtent → W → Prog W) (fuel clusterNo : ℕ)
    (w : W) : Prog W := do
  let m ← getMem
  if clusterNo ≠ 0 then
    aggregateVia g pass fuel ⟨0, 1, clusterNo⟩ (fatEntry g.metaInfo m clusterNo) w
  else pure w

/-- Passing on a list of extents; the loop has used one unit of fuel for each cluster before. -/
def passExtents (pass : ℕ → FatExtent → W → Prog W) (fuel : ℕ) : List FatExtent → W → Prog W
  | [], w => pure w
  | e :: es, w => do
    let w ← pass (fuel - (e.logicalStart + e.length)) e w
    passExtents pass fuel es w

end Loop

/-- The loop of `aggregate_extents` passes its runs to `find_blocked_extent_fragments`. -/
theorem aggregateFrom_eq_via (g : Globals) (fuel : ℕ) (current : FatExtent) (next : ℕ)
    (w : StreamArchiver) :
    aggregateFrom g fuel current next w =
      aggregateVia g (fun fuel e w => findBlockedExtentFragments g fuel w e) fuel current next
        w := by
  induction fuel generalizing current next w with
  | zero => rfl
  | succ fuel ih => simp only [aggregateFrom, aggregateVia, ih]

/-- `aggregate_extents` is the loop with that callee and a cut. -/
theorem aggregateExtents_eq_via (g : Globals) (fuel clusterNo : ℕ) (w : StreamArchiver) :
    aggregateExtents g fuel clusterNo w =
      (aggregateExtentsVia g (fun fuel e w => findBlockedExtentFragments g fuel w e) fuel clusterNo
        w >>= cutStreamArchiver g fuel) := by
  simp only [aggregateExtents, aggregateExtentsVia, aggregateFrom_eq_via, bind_assoc]

/-- The clusters behind an entry that has the masked value `value`; the reserved bits of the
entries may hold anything. -/
def MaskedFrom (g : Globals) (m : Mem) : ℕ → List ℕ → Prop
  | value, [] => fatEndOfChain ≤ value &&& clusterEntryMask
  | value, c :: cs =>
    value &&& clusterEntryMask = c ∧ DataCluster g c ∧ c < fatEndOfChain ∧
      MaskedFrom g m (fatEntry g.metaInfo m c) cs

/-- The chain of a start cluster, every entry read under the mask; 0 starts the empty chain. -/
def MaskedChain (g : Globals) (m : Mem) (start : ℕ) : List ℕ → Prop
  | [] => start = 0
  | c :: cs => c = start ∧ DataCluster g c ∧ MaskedFrom g m (fatEntry g.metaInfo m c) cs

/-- The clusters behind an entry as the loop follows it, the entries compared unmasked. -/
def ReadFrom (g : Globals) (m : Mem) : ℕ → List ℕ → Prop
  | value, [] => fatEndOfChain ≤ value
  | value, c :: cs =>
    value = c ∧ DataCluster g c ∧ c < fatEndOfChain ∧ ReadFrom g m (fatEntry g.metaInfo m c) cs

/-- The runs of a list of clusters, from the one that is being collected on. -/
def runsFrom : FatExtent → List ℕ → List FatExtent
  | current, [] => [current]
  | current, c :: cs =>
    if c = current.stop ∧ current.length ≠ ext4MaxInitExtentLen then
      runsFrom { current with length := current.length + 1 } cs
    else
      current :: runsFrom ⟨current.logicalStart + current.length, 1, c⟩ cs

section Runs

variable {current : FatExtent} {rest : List ℕ}

/-- An extent that grows gains the cluster behind its end. -/
theorem FatExtent.clusters_grow (e : FatExtent) :
    ({ e with length := e.length + 1 } : FatExtent).clusters = e.clusters ++ [e.stop] := by
  rw [FatExtent.clusters, FatExtent.clusters, List.range'_concat, Nat.one_mul, FatExtent.stop]

/-- The runs have the clusters of the list in order. -/
theorem physical_runsFrom (current : FatExtent) (rest : List ℕ) :
    physical (runsFrom current rest) = current.clusters ++ rest := by
  induction rest generalizing current with
  | nil => rw [runsFrom, physical_singleton, List.append_nil]
  | cons c cs ih =>
    rw [runsFrom]
    by_cases hgrow : c = current.stop ∧ current.length ≠ ext4MaxInitExtentLen
    · rw [if_pos hgrow, ih, FatExtent.clusters_grow, ← hgrow.1, List.append_assoc]
      rfl
    · rw [if_neg hgrow]
      change current.clusters ++ physical _ = _
      rw [ih]
      rfl

/-- The runs number the clusters without a gap. -/
theorem logicalFrom_runsFrom (current : FatExtent) (rest : List ℕ) :
    LogicalFrom current.logicalStart (runsFrom current rest) := by
  induction rest generalizing current with
  | nil => exact ⟨rfl, trivial⟩
  | cons c cs ih =>
    rw [runsFrom]
    by_cases hgrow : c = current.stop ∧ current.length ≠ ext4MaxInitExtentLen
    · rw [if_pos hgrow]
      exact ih { current with length := current.length + 1 }
    · rw [if_neg hgrow]
      exact ⟨rfl, ih ⟨current.logicalStart + current.length, 1, c⟩⟩

/-- The runs are not empty and not too long. -/
theorem length_runsFrom (current : FatExtent) (hpos : 1 ≤ current.length)
    (hmax : current.length ≤ ext4MaxInitExtentLen) :
    ∀ e ∈ runsFrom current rest, 1 ≤ e.length ∧ e.length ≤ ext4MaxInitExtentLen := by
  induction rest generalizing current with
  | nil =>
    intro e he
    rw [runsFrom, List.mem_singleton] at he
    rw [he]
    exact ⟨hpos, hmax⟩
  | cons c cs ih =>
    rw [runsFrom]
    by_cases hgrow : c = current.stop ∧ current.length ≠ ext4MaxInitExtentLen
    · rw [if_pos hgrow]
      exact ih _ (Nat.le_add_left _ _) (Nat.lt_of_le_of_ne hmax hgrow.2)
    · rw [if_neg hgrow]
      intro e he
      rcases List.mem_cons.mp he with rfl | he
      · exact ⟨hpos, hmax⟩
      · exact ih ⟨_, 1, c⟩ le_rfl (show 1 ≤ 32768 by decide) e he

end Runs

section Passes

variable {g : Globals} {m : Mem} {W : Type} {pass : ℕ → FatExtent → W → Prog W}
  {I : W → State → Prop}

/-- The loop passes on the runs of the clusters that it reads, when its callee leaves the FAT as
it was. -/
theorem aggregateVia_passes (total fuel : ℕ) (current : FatExtent) {next : ℕ} {rest : List ℕ}
    {w : W} {s : State} (htotal : total + 1 = fuel + (current.logicalStart + current.length))
    (hfuel : rest.length < fuel) (hpos : 1 ≤ current.length)
    (hmax : current.length ≤ ext4MaxInitExtentLen) (hstop : current.stop < 2 ^ 32)
    (hlogical : current.logicalStart + current.length + rest.length < 2 ^ 32)
    (hread : ReadFrom g m next rest)
    (hfat : ∀ w t, I w t → ∀ c ∈ rest, fatEntry g.metaInfo t.mem c = fatEntry g.metaInfo m c)
    (hpass : ∀ fuel, ∀ e ∈ runsFrom current rest, ∀ w t, I w t →
      wp (pass fuel e w) I (fun _ _ => True) t)
    (hw : I w s) :
    aggregateVia g pass fuel current next w s =
      passExtents pass total (runsFrom current rest) w s := by
  have hbits : ext4MaxInitExtentLen = 32768 := rfl
  induction fuel generalizing current next rest w s with
  | zero => exact absurd hfuel (Nat.not_lt_zero _)
  | succ fuel ih =>
    have hpassFuel : total - (current.logicalStart + current.length) = fuel := by omega
    rw [aggregateVia]
    cases rest with
    | nil =>
      -- the last run
      have hend : fatEndOfChain ≤ next := hread
      simp only [runsFrom, passExtents, hend, true_or, if_true, hpassFuel]
    | cons c cs =>
      obtain ⟨rfl, hc, hin, htail⟩ := hread
      have hnotEnd : ¬ fatEndOfChain ≤ next := Nat.not_le.mpr hin
      have hcount : dataClusterCount g.bootSector g.metaInfo < 2 ^ 32 := u32_lt _
      have hupper := hc.2
      have hnext : u32 (current.physicalStart + current.length) = current.stop := u32_of_lt hstop
      rw [List.length_cons] at hlogical hfuel
      simp only [hnotEnd, false_or, if_false, hnext]
      by_cases hgrow : next = current.stop ∧ current.length ≠ ext4MaxInitExtentLen
      · -- the run grows by the next cluster
        obtain ⟨hconsecutive, hshort⟩ := hgrow
        rw [if_neg (not_or.mpr ⟨not_not.mpr hconsecutive, hshort⟩), runsFrom,
          if_pos ⟨hconsecutive, hshort⟩, u16_of_lt (by omega)]
        rw [runsFrom, if_pos ⟨hconsecutive, hshort⟩] at hpass
        change aggregateVia g pass fuel _ (fatEntry g.metaInfo s.mem next) w s = _
        rw [hfat w s hw next (by simp)]
        refine ih { current with length := current.length + 1 } (by dsimp only; omega)
          (by omega) (Nat.le_add_left _ _) (by dsimp only; omega) ?_ (by dsimp only; omega) htail
          (fun w t ht d hd => hfat w t ht d (by simp [hd])) hpass hw
        unfold FatExtent.stop at hconsecutive ⊢
        dsimp only
        omega
      · -- the run is passed on, the next one starts with the next cluster
        have hflush : ¬ next = current.stop ∨ current.length = ext4MaxInitExtentLen := by
          by_cases h : next = current.stop
          · exact Or.inr (not_not.mp fun hne => hgrow ⟨h, hne⟩)
          · exact Or.inl h
        rw [if_pos hflush, runsFrom, if_neg hgrow, u32_of_lt (by omega)]
        rw [runsFrom, if_neg hgrow] at hpass
        rw [passExtents, hpassFuel]
        refine bind_congr_run fun w' t hrun => ?_
        have hkept := wp_ok (hpass fuel current (by simp) w s hw) hrun
        change aggregateVia g pass fuel _ (fatEntry g.metaInfo t.mem next) w' t = _
        rw [hfat w' t hkept next (by simp)]
        refine ih ⟨current.logicalStart + current.length, 1, next⟩
          (by dsimp only; omega) (by omega) le_rfl (show 1 ≤ 32768 by decide) ?_
          (by dsimp only; omega) htail (fun w t ht d hd => hfat w t ht d (by simp [hd]))
          (fun fuel e he => hpass fuel e (by simp [he])) hkept
        unfold FatExtent.stop
        dsimp only
        omega

end Passes

section Chains

variable {g : Globals} {m : Mem}

/-- An entry determines the clusters behind it. -/
theorem MaskedFrom.unique {value : ℕ} {xs ys : List ℕ} (h : MaskedFrom g m value xs)
    (h' : MaskedFrom g m value ys) : xs = ys := by
  induction xs generalizing value ys with
  | nil =>
    cases ys with
    | nil => rfl
    | cons d ds =>
      obtain ⟨rfl, -, hin, -⟩ := h'
      exact absurd h (Nat.not_le.mpr hin)
  | cons c cs ih =>
    obtain ⟨rfl, -, hin, htail⟩ := h
    cases ys with
    | nil => exact absurd h' (Nat.not_le.mpr hin)
    | cons d ds =>
      obtain ⟨rfl, -, -, htail'⟩ := h'
      rw [ih htail htail']

/-- Behind a cluster of the list the rest of the list follows. -/
theorem MaskedFrom.tail {value c : ℕ} {xs ys : List ℕ} (h : MaskedFrom g m value (xs ++ c :: ys)) :
    DataCluster g c ∧ MaskedFrom g m (fatEntry g.metaInfo m c) ys := by
  induction xs generalizing value with
  | nil => exact ⟨h.2.1, h.2.2.2⟩
  | cons d ds ih => exact ih h.2.2.2

/-- The clusters behind a cluster do not come back to it. -/
theorem MaskedFrom.notMem {c : ℕ} {cs : List ℕ}
    (h : MaskedFrom g m (fatEntry g.metaInfo m c) cs) : c ∉ cs := by
  intro hmem
  obtain ⟨xs, ys, rfl⟩ := List.append_of_mem hmem
  have hlength := congrArg List.length (h.unique h.tail.2)
  rw [List.length_append, List.length_cons] at hlength
  omega

/-- A chain read without the upper four bits visits no cluster twice. -/
theorem MaskedFrom.nodup {value : ℕ} {chain : List ℕ} (h : MaskedFrom g m value chain) :
    chain.Nodup := by
  induction chain generalizing value with
  | nil => exact List.nodup_nil
  | cons c cs ih => exact List.nodup_cons.mpr ⟨h.2.2.2.notMem, ih h.2.2.2⟩

/-- A chain read without the upper four bits stays in the data area. -/
theorem MaskedFrom.dataCluster {value : ℕ} {chain : List ℕ} (h : MaskedFrom g m value chain) :
    ∀ c ∈ chain, DataCluster g c := by
  intro c hc
  obtain ⟨xs, ys, rfl⟩ := List.append_of_mem hc
  exact h.tail.1

/-- A finite chain in range has fewer clusters than there are. -/
theorem MaskedChain.length_lt {start : ℕ} {chain : List ℕ} (h : MaskedChain g m start chain) :
    chain.length < 2 ^ 32 := by
  cases chain with
  | nil => exact Nat.two_pow_pos 32
  | cons c cs =>
    obtain ⟨-, hc, hrest⟩ := h
    have hcount : dataClusterCount g.bootSector g.metaInfo < 2 ^ 32 := u32_lt _
    have hnodup : (c :: cs).Nodup := List.nodup_cons.mpr ⟨hrest.notMem, hrest.nodup⟩
    have hsubset : c :: cs ⊆ List.range (dataClusterCount g.bootSector g.metaInfo) := by
      intro d hd
      rcases List.mem_cons.mp hd with rfl | hd
      · exact List.mem_range.mpr hc.2
      · exact List.mem_range.mpr (hrest.dataCluster d hd).2
    have hle := (List.subperm_of_subset hnodup hsubset).length_le
    rw [List.length_range] at hle
    omega

/-- A chain read with all bits stays in the data area. -/
theorem ReadFrom.dataCluster {value : ℕ} {chain : List ℕ} (h : ReadFrom g m value chain) :
    ∀ c ∈ chain, DataCluster g c := by
  induction chain generalizing value with
  | nil => simp
  | cons d ds ih =>
    intro c hc
    rcases List.mem_cons.mp hc with rfl | hc
    · exact h.2.1
    · exact ih h.2.2.2 c hc

/-- The loop reads a prefix of the clusters behind `c`, and all of them exactly when no entry but
the last has a reserved bit set. -/
theorem exists_readFrom {c : ℕ} {cs : List ℕ}
    (h : MaskedFrom g m (fatEntry g.metaInfo m c) cs) :
    ∃ read, ReadFrom g m (fatEntry g.metaInfo m c) read ∧ read <+: cs ∧
      (read = cs ↔ ∀ d ∈ (c :: cs).dropLast, fatEntry g.metaInfo m d ≤ clusterEntryMask) := by
  induction cs generalizing c with
  | nil => exact ⟨[], le_trans h Nat.and_le_left, List.prefix_refl _, by simp⟩
  | cons d ds ih =>
    obtain ⟨hmasked, hd, hin, htail⟩ := h
    by_cases hplain : fatEntry g.metaInfo m c ≤ clusterEntryMask
    · have hvalue : fatEntry g.metaInfo m c = d := by
        rw [← hmasked, clusterEntryMask, show 0x0FFFFFFF = 2 ^ 28 - 1 by norm_num,
          Nat.and_two_pow_sub_one_of_lt_two_pow (by unfold clusterEntryMask at hplain; omega)]
      obtain ⟨read, hread, hinitial, hiff⟩ := ih htail
      refine ⟨d :: read, ⟨hvalue, hd, hin, hread⟩, List.cons_prefix_cons.mpr ⟨rfl, hinitial⟩, ?_⟩
      rw [List.cons.injEq, hiff, List.dropLast_cons_cons, List.forall_mem_cons]
      simp [hplain]
    · refine ⟨[], ?_, List.nil_prefix, ?_⟩
      · change fatEndOfChain ≤ _
        unfold fatEndOfChain
        unfold clusterEntryMask at hplain
        omega
      · rw [List.dropLast_cons_cons, List.forall_mem_cons]
        simp [hplain]

end Chains

/-- `aggregate_extents` passes on extents that enumerate the chain: whatever its callee does with
them, as long as the callee leaves the entries of the chain as they are. The loop has its callee as
a parameter here; `aggregateExtents_eq_via` says that `aggregate_extents` is this loop with
`find_blocked_extent_fragments`, and `aggregateExtents_passes` that this callee leaves the FAT as it
is in every run of the first phase. -/
def PassesChain (g : Globals) (s : State) (start : ℕ) (chain : List ℕ) : Prop :=
  ∃ extents : List FatExtent, physical extents = chain ∧ LogicalFrom 0 extents ∧
    (∀ e ∈ extents, 1 ≤ e.length ∧ e.length ≤ ext4MaxInitExtentLen) ∧
    ∀ (W : Type) (pass : ℕ → FatExtent → W → Prog W) (I : W → State → Prop),
      (∀ w t, I w t → ∀ c ∈ chain, fatEntry g.metaInfo t.mem c = fatEntry g.metaInfo s.mem c) →
      (∀ fuel, ∀ e ∈ extents, ∀ w t, I w t → wp (pass fuel e w) I (fun _ _ => True) t) →
      ∀ fuel w, chain.length < fuel → I w s →
        aggregateExtentsVia g pass fuel start w s = passExtents pass fuel extents w s

section Claims

variable {g : Globals} {s : State} {start : ℕ} {chain : List ℕ}

/-- The loop passes on the runs of what it reads of a chain. -/
theorem aggregateExtentsVia_passes {m : Mem} {read : List ℕ} (hstart : DataCluster g start)
    (hfirst : fatEntry g.metaInfo s.mem start = fatEntry g.metaInfo m start)
    (hread : ReadFrom g m (fatEntry g.metaInfo m start) read)
    (hlength : read.length + 1 < 2 ^ 32) {W : Type} {pass : ℕ → FatExtent → W → Prog W}
    {I : W → State → Prop}
    (hfat : ∀ w t, I w t → ∀ c ∈ read, fatEntry g.metaInfo t.mem c = fatEntry g.metaInfo m c)
    (hpass : ∀ fuel, ∀ e ∈ runsFrom ⟨0, 1, start⟩ read, ∀ w t, I w t →
      wp (pass fuel e w) I (fun _ _ => True) t)
    {fuel : ℕ} (hfuel : read.length < fuel) {w : W} (hw : I w s) :
    aggregateExtentsVia g pass fuel start w s =
      passExtents pass fuel (runsFrom ⟨0, 1, start⟩ read) w s := by
  have hcount : dataClusterCount g.bootSector g.metaInfo < 2 ^ 32 := u32_lt _
  have hlow : 2 ≤ start := hstart.1
  have hupper := hstart.2
  rw [← aggregateVia_passes fuel fuel ⟨0, 1, start⟩ rfl hfuel le_rfl
    (show 1 ≤ 32768 by decide) (by unfold FatExtent.stop; dsimp only; omega)
    (by dsimp only; omega) hread hfat hpass hw]
  change (if start ≠ 0 then aggregateVia g pass fuel _ (fatEntry g.metaInfo s.mem start) w
    else _ : Prog W) s = _
  rw [if_pos (by omega), hfirst]

/-- Passing on extents to a list collects them. -/
theorem passExtents_collect (fuel : ℕ) (es w : List FatExtent) (s : State) :
    passExtents (fun _ e w => pure (w ++ [e])) fuel es w s = .ok (w ++ es) s := by
  induction es generalizing w with
  | nil => rw [List.append_nil]; rfl
  | cons e es ih =>
    change passExtents _ fuel es (w ++ [e]) s = _
    rw [ih, List.append_assoc, List.singleton_append]

/-- Passed on to a list, the extents of a chain are what the loop collects. -/
theorem PassesChain.collected (h : PassesChain g s start chain) (fuel : ℕ)
    (hfuel : chain.length < fuel) :
    ∃ extents, physical extents = chain ∧
      aggregateExtentsVia g (fun _ e w => pure (w ++ [e])) fuel start [] s = .ok extents s := by
  obtain ⟨extents, hphysical, -, -, hruns⟩ := h
  refine ⟨extents, hphysical, ?_⟩
  rw [hruns (List FatExtent) (fun _ e w => pure (w ++ [e])) (fun _ t => t = s)
    (fun _ t ht _ _ => by rw [ht]) (fun _ _ _ _ _ ht => ht) fuel [] hfuel rfl, passExtents_collect,
    List.nil_append]

/-- A chain whose clusters the loop all reads is passed on. -/
theorem passesChain_of_readFrom {cs : List ℕ} (hstart : DataCluster g start)
    (hread : ReadFrom g s.mem (fatEntry g.metaInfo s.mem start) cs)
    (hlength : cs.length + 1 < 2 ^ 32) : PassesChain g s start (start :: cs) := by
  refine ⟨runsFrom ⟨0, 1, start⟩ cs, physical_runsFrom _ _, logicalFrom_runsFrom ⟨0, 1, start⟩ cs,
    length_runsFrom _ le_rfl (show 1 ≤ 32768 by decide), ?_⟩
  intro W pass I hfat hpass fuel w hfuel hw
  rw [List.length_cons] at hfuel
  exact aggregateExtentsVia_passes hstart rfl hread hlength
    (fun w t ht d hd => hfat w t ht d (by simp [hd])) hpass (by omega) hw

end Claims

/-- For a start cluster with a chain that is finite and in range, every entry read under the mask,
`aggregate_extents` passes on extents that enumerate the chain exactly when no entry of it but the
last has a reserved bit set. -/
theorem aggregateExtents_chain_iff (g : Globals) (s : State) (start : ℕ) (chain : List ℕ)
    (hchain : MaskedChain g s.mem start chain) :
    PassesChain g s start chain ↔
      ∀ c ∈ chain.dropLast, fatEntry g.metaInfo s.mem c ≤ clusterEntryMask := by
  have hlength := hchain.length_lt
  cases chain with
  | nil =>
    -- the empty file
    have hzero : start = 0 := hchain
    refine ⟨by simp, fun _ => ⟨[], rfl, trivial, by simp, ?_⟩⟩
    intro W pass I _ _ fuel w _ _
    rw [hzero]
    rfl
  | cons c cs =>
    obtain ⟨rfl, hc, hrest⟩ := hchain
    obtain ⟨read, hread, hinitial, hiff⟩ := exists_readFrom hrest
    have hshort := hinitial.length_le
    rw [List.length_cons] at hlength
    rw [← hiff]
    constructor
    · intro h
      obtain ⟨extents, hphysical, hcollect⟩ :=
        h.collected (cs.length + 2) (by rw [List.length_cons]; omega)
      obtain ⟨extents', hphysical', hcollect'⟩ := (passesChain_of_readFrom hc hread
        (by omega)).collected (cs.length + 2) (by rw [List.length_cons]; omega)
      rw [hcollect, EStateM.Result.ok.injEq] at hcollect'
      rw [hcollect'.1, hphysical'] at hphysical
      exact (List.cons.inj hphysical).2
    · intro h
      subst h
      exact passesChain_of_readFrom hc hread (by omega)

/-- A file of the clusters 3, 4 and 6. -/
def gapVolume : Mem :=
  Mem.write (fun _ => 0) 81932 [0x04, 0, 0, 0, 0x06, 0, 0, 0, 0, 0, 0, 0, 0xFF, 0xFF, 0xFF, 0x0F]

/-- The chain of the file, a run of two clusters and one behind a gap, is passed on. -/
theorem aggregateExtents_chain_sample :
    PassesChain (sampleGlobals 400) { mem := gapVolume } 3 [3, 4, 6] :=
  (aggregateExtents_chain_iff (sampleGlobals 400) { mem := gapVolume } 3 [3, 4, 6]
    ⟨rfl, ⟨by decide, by decide⟩, by decide +kernel, ⟨by decide, by decide⟩, by decide,
      by decide +kernel, ⟨by decide, by decide⟩, by decide,
      show fatEndOfChain ≤ _ &&& clusterEntryMask by decide +kernel⟩).mpr (by decide +kernel)

/-- A file of the clusters 3 and 4; the entry of the first has a reserved bit set. -/
def reservedBitVolume : Mem :=
  Mem.write (fun _ => 0) 81932 [0x04, 0x00, 0x00, 0x10, 0xFF, 0xFF, 0xFF, 0x0F]

/-- The file is cut off behind its first cluster. -/
theorem not_passesChain_reservedBitVolume :
    MaskedChain (sampleGlobals 400) reservedBitVolume 3 [3, 4] ∧
      ¬ PassesChain (sampleGlobals 400) { mem := reservedBitVolume } 3 [3, 4] := by
  refine ⟨⟨rfl, ⟨by decide, by decide⟩, by decide +kernel, ⟨by decide, by decide⟩, by decide,
    show fatEndOfChain ≤ _ &&& clusterEntryMask by decide +kernel⟩, fun h => ?_⟩
  obtain ⟨extents, hphysical, hrun⟩ := h.collected 3 (by decide)
  have hone : returnsWith (fun extents _ => decide (extents = [⟨0, 1, 3⟩]))
      (aggregateExtentsVia (sampleGlobals 400) (fun _ e w => pure (w ++ [e])) 3 3 [])
      { mem := reservedBitVolume } = true := by decide +kernel
  have hextents : extents = [⟨0, 1, 3⟩] := by simpa using of_returnsWith hone hrun
  rw [hextents] at hphysical
  exact absurd hphysical (by decide)

section Run

variable {g : Globals} {m₀ : Mem} {blocked : List FatExtent} {X : Set ℕ} {pages : List ℕ}
  {head : Pos} {w : StreamArchiver} {s : State}

/-- An entry that leads to clusters or to the end of a chain is not free. -/
theorem MaskedFrom.used {c : ℕ} {m : Mem} {chain : List ℕ}
    (h : MaskedFrom g m (fatEntry g.metaInfo m c) chain) : ¬ FatFree g.metaInfo m c := by
  intro hfree
  have hzero : fatEntry g.metaInfo m c &&& clusterEntryMask = 0 := beq_iff_eq.mp hfree
  cases chain with
  | nil =>
    have hend : fatEndOfChain ≤ fatEntry g.metaInfo m c &&& clusterEntryMask := h
    unfold fatEndOfChain at hend
    omega
  | cons d ds =>
    obtain ⟨hd, hdata, -⟩ := h
    have hlow : 2 ≤ d := hdata.1
    omega

/-- In a run of the first phase the callee leaves the FAT as it was, so `aggregate_extents` passes
on a chain without reserved bits and closes the segment. -/
theorem aggregateExtents_passes (hg : Accepted g)
    (hb : BlockedExtents (dataClusterCount g.bootSector g.metaInfo) blocked)
    (hshort : ShortBlocked g blocked) (hw : Writer g m₀ blocked pages head w s)
    (hf : Fresh pages head w) (hx : OpenCells g pages X w s) {start : ℕ} {chain : List ℕ}
    (hchain : MaskedChain g m₀ start chain)
    (hplain : ∀ c ∈ chain.dropLast, fatEntry g.metaInfo m₀ c ≤ clusterEntryMask) :
    ∃ extents, physical extents = chain ∧ LogicalFrom 0 extents ∧
      (∀ e ∈ extents, 1 ≤ e.length ∧ e.length ≤ ext4MaxInitExtentLen) ∧
      ∀ fuel, chain.length < fuel → aggregateExtents g fuel start w s =
        (passExtents (fun fuel e w => findBlockedExtentFragments g fuel w e) fuel extents w >>=
          cutStreamArchiver g fuel) s := by
  have hlength := hchain.length_lt
  cases chain with
  | nil =>
    have hzero : start = 0 := hchain
    refine ⟨[], rfl, trivial, by simp, fun fuel _ => ?_⟩
    rw [hzero]
    rfl
  | cons c cs =>
    obtain ⟨rfl, hc, hrest⟩ := hchain
    obtain ⟨read, hread, -, hiff⟩ := exists_readFrom hrest
    obtain rfl := hiff.mpr hplain
    rw [List.length_cons] at hlength
    have hphysical := physical_runsFrom ⟨0, 1, c⟩ read
    have hlogical := logicalFrom_runsFrom ⟨0, 1, c⟩ read
    have hlengths : ∀ e ∈ runsFrom ⟨0, 1, c⟩ read, 1 ≤ e.length ∧ e.length ≤ ext4MaxInitExtentLen :=
      length_runsFrom ⟨0, 1, c⟩ le_rfl (show 1 ≤ 32768 by decide)
    refine ⟨runsFrom ⟨0, 1, c⟩ read, hphysical, hlogical, hlengths, fun fuel hfuel => ?_⟩
    rw [List.length_cons] at hfuel
    rw [aggregateExtents_eq_via]
    have hused : ∀ d ∈ c :: read, DataCluster g d ∧ ¬ FatFree g.metaInfo m₀ d := by
      intro d hd
      rcases List.mem_cons.mp hd with rfl | hd
      · exact ⟨hc, hrest.used⟩
      · obtain ⟨xs, ys, rfl⟩ := List.append_of_mem hd
        exact ⟨hrest.tail.1, hrest.tail.2.used⟩
    have hentry : ∀ (v : StreamArchiver) (t : State),
        (∃ es pages', Listed g m₀ blocked X pages head w s es pages' v t) → ∀ d ∈ read,
          fatEntry g.metaInfo t.mem d = fatEntry g.metaInfo m₀ d := by
      intro v t ht d hd
      obtain ⟨es, pages', hlisted⟩ := ht
      exact hlisted.opened.writer.intact.fatEntry_eq hg (hused d (by simp [hd])).1.2
    refine bind_congr_left (aggregateExtentsVia_passes hc (hw.intact.fatEntry_eq hg hc.2) hread
      (by omega) hentry ?_ (by omega) ⟨[], pages, Opened.refl hw hf, trivial⟩)
    intro fuel e he v t ht
    obtain ⟨es, pages', hlisted⟩ := ht
    have hin : ∀ d ∈ e.clusters, d ∈ c :: read := by
      intro d hd
      have hmem : d ∈ physical (runsFrom ⟨0, 1, c⟩ read) := List.mem_flatMap.mpr ⟨e, he, hd⟩
      rw [hphysical] at hmem
      exact hmem
    have hle := hlogical.le e he
    rw [hphysical] at hle
    refine wp_mono (findBlockedExtentFragments_spec hg hb hshort hw hf hx (hlengths e he).1
      (hlengths e he).2 (fun d hd => hused d (hin d hd)) (hle.trans_lt ?_) fuel hlisted) ?_
      (fun _ _ _ => trivial)
    · change 0 + (c :: read).length < 2 ^ 32
      rw [List.length_cons]
      omega
    · intro w' u hu
      obtain ⟨pages'', fs, hlisted', -⟩ := hu
      exact ⟨_, _, hlisted'⟩

end Run

end OfsConvert
