import OfsConvert.AllocatorSafety

/-!
# Searching the blocked extents

`find_first_blocked_extent` is a binary search for the first blocked extent that ends at or
behind an address, `find_next_blocked_extent` goes on from there. `Scan` is what the pair of
the current blocked extent and the index says about the blocked extents while the fragments of an
extent are cut.
-/

namespace OfsConvert

/-- Blocked extents as the search needs them: in order and pairwise disjoint, each ending within 32
bits. Extents of length 0 may stand where another one starts or ends. -/
structure OrderedExtents (blocked : List FatExtent) : Prop where
  ordered : blocked.Pairwise fun a b => a.stop ≤ b.physicalStart
  stops : ∀ e ∈ blocked, e.stop < 2 ^ 32

/-- The blocked extents of a layout are such a list. -/
theorem BlockedExtents.orderedExtents {count : ℕ} {blocked : List FatExtent}
    (hb : BlockedExtents count blocked) : OrderedExtents blocked where
  ordered := hb.ordered
  stops e he := by
    have hinside := hb.inside e he
    have hshort := hb.short e he
    have hnumbers := hb.numbers
    unfold FatExtent.stop
    omega

/-- What the search reads of the allocator: the blocked extents and the end behind them. -/
structure Searches (blocked : List FatExtent) (last : FatExtent) (a : ExtentAllocator) :
    Prop where
  extents : a.blockedExtents = blocked ++ [last]
  count : a.blockedExtentCount = blocked.length

section

variable {blocked : List FatExtent} {last : FatExtent} {a : ExtentAllocator}

/-- An earlier blocked extent ends in front of a later one. -/
theorem OrderedExtents.getElem_stop_le (hb : OrderedExtents blocked) {i j : ℕ}
    (hj : j < blocked.length) (hij : i < j) :
    blocked[i].stop ≤ blocked[j].physicalStart :=
  List.pairwise_iff_getElem.mp hb.ordered _ _ _ hj hij

/-- The ends of the blocked extents are in order. -/
theorem OrderedExtents.stop_mono (hb : OrderedExtents blocked) {i j : ℕ}
    (hj : j < blocked.length) (hij : i ≤ j) :
    blocked[i].stop ≤ blocked[j].stop := by
  rcases Nat.eq_or_lt_of_le hij with rfl | hlt
  · exact le_rfl
  · exact (hb.getElem_stop_le hj hlt).trans (Nat.le_add_right _ _)

/-- The binary search splits the blocked extents at the first that ends at or behind the
address. -/
theorem searchBlocked_spec (hb : OrderedExtents blocked) (rest : List FatExtent)
    (address : ℕ) (fuel low high : ℕ) (hfuel : high - low ≤ fuel) (hlow : low ≤ high)
    (hhigh : high ≤ blocked.length)
    (hbefore : ∀ i (hi : i < blocked.length), i < low → blocked[i].stop < address)
    (hbehind : ∀ i (hi : i < blocked.length), high ≤ i → address ≤ blocked[i].stop) :
    (∀ i (hi : i < blocked.length),
      i < searchBlocked (blocked ++ rest) address fuel low high → blocked[i].stop < address) ∧
    (∀ i (hi : i < blocked.length),
      searchBlocked (blocked ++ rest) address fuel low high ≤ i → address ≤ blocked[i].stop) := by
  induction fuel generalizing low high with
  | zero =>
    have heq : low = high := by omega
    subst heq
    exact ⟨hbefore, hbehind⟩
  | succ fuel ih =>
    by_cases hlt : low < high
    · have hmid : (low + high) / 2 < blocked.length := by omega
      have hget : (blocked ++ rest).getD ((low + high) / 2) default = blocked[(low + high) / 2] := by
        rw [List.getD_append _ _ _ _ hmid, List.getD_eq_getElem _ _ hmid]
      have hstop : u32 (blocked[(low + high) / 2].physicalStart +
          blocked[(low + high) / 2].length) = blocked[(low + high) / 2].stop :=
        u32_of_lt (hb.stops _ (List.getElem_mem hmid))
      have hround : searchBlocked (blocked ++ rest) address (fuel + 1) low high =
          if blocked[(low + high) / 2].stop < address then
            searchBlocked (blocked ++ rest) address fuel ((low + high) / 2 + 1) high
          else searchBlocked (blocked ++ rest) address fuel low ((low + high) / 2) := by
        simp only [searchBlocked, if_pos hlt, hget, hstop]
      rw [hround]
      by_cases hless : blocked[(low + high) / 2].stop < address
      · rw [if_pos hless]
        refine ih _ _ (by omega) (by omega) hhigh ?_ hbehind
        intro i hi hile
        exact (hb.stop_mono hmid (by omega)).trans_lt hless
      · rw [if_neg hless]
        refine ih _ _ (by omega) (by omega) (by omega) hbefore ?_
        intro i hi hile
        exact (Nat.le_of_not_lt hless).trans (hb.stop_mono hi hile)
    · have heq : low = high := by omega
      subst heq
      rw [searchBlocked, if_neg hlt]
      exact ⟨hbefore, hbehind⟩

/-- Before the cut at `start` all blocked extents in front of the index have ended; the current
one, if any, is the one before the index. -/
inductive Scan (blocked : List FatExtent) (start stop i : ℕ) : Option FatExtent → Prop where
  | none (hclear : ∀ b ∈ blocked, ∀ c, start ≤ c → c < stop → c ∉ b.clusters) :
      Scan blocked start stop i none
  | some (k : ℕ) (hk : k < blocked.length) (hi : i = k + 1)
      (hpassed : ∀ j (hj : j < k), blocked[j].stop ≤ start)
      (hahead : start ≤ blocked[k].stop) (hreach : blocked[k].physicalStart ≤ stop) :
      Scan blocked start stop i (some blocked[k])

/-- The next blocked extent, when those before the index have ended and those from it on end at
or behind the start. -/
theorem findNextBlockedExtent_scan (hb : OrderedExtents blocked)
    (ha : Searches blocked last a) {start stop i : ℕ}
    (hpassed : ∀ j (hj : j < blocked.length), j < i → blocked[j].stop ≤ start)
    (hahead : ∀ j (hj : j < blocked.length), i ≤ j → start ≤ blocked[j].stop) :
    Scan blocked start stop (findNextBlockedExtent a i stop).2
      (findNextBlockedExtent a i stop).1 := by
  unfold findNextBlockedExtent
  rw [ha.extents, ha.count]
  by_cases hend : blocked.length ≤ i
  · rw [if_pos hend]
    refine Scan.none fun b hmem c hlow hhigh hin => ?_
    obtain ⟨j, hj, rfl⟩ := List.getElem_of_mem hmem
    have hstop := hpassed j hj (by omega)
    rw [FatExtent.mem_clusters] at hin
    omega
  · have hi : i < blocked.length := Nat.lt_of_not_le hend
    have hget : (blocked ++ [last]).getD i default = blocked[i] := by
      rw [List.getD_append _ _ _ _ hi, List.getD_eq_getElem _ _ hi]
    simp only [if_neg hend, hget]
    by_cases hfar : stop < blocked[i].physicalStart
    · rw [if_pos hfar]
      refine Scan.none fun b hmem c hlow hhigh hin => ?_
      obtain ⟨j, hj, rfl⟩ := List.getElem_of_mem hmem
      rw [FatExtent.mem_clusters] at hin
      rcases Nat.lt_trichotomy j i with hlt | rfl | hgt
      · have hstop := hpassed j hj hlt
        omega
      · omega
      · have hbehind := hb.getElem_stop_le hj hgt
        unfold FatExtent.stop at hbehind
        omega
    · rw [if_neg hfar]
      exact Scan.some i hi rfl (fun j hj => hpassed j (hj.trans hi) hj) (hahead i hi le_rfl)
        (Nat.le_of_not_lt hfar)

/-- The scan at the start of an extent. -/
theorem findFirstBlockedExtent_scan (hb : OrderedExtents blocked)
    (ha : Searches blocked last a) (start stop : ℕ) :
    Scan blocked start stop
      (findNextBlockedExtent a (findFirstBlockedExtent a start) stop).2
      (findNextBlockedExtent a (findFirstBlockedExtent a start) stop).1 := by
  have hsearch := searchBlocked_spec hb [last] start blocked.length 0 blocked.length
    (by omega) (by omega) le_rfl (fun _ _ h => absurd h (Nat.not_lt_zero _))
    (fun i hi h => absurd hi (by omega))
  rw [← ha.extents] at hsearch
  unfold findFirstBlockedExtent
  rw [ha.count]
  exact findNextBlockedExtent_scan hb ha
    (fun j hj hlt => (hsearch.1 j hj hlt).le) hsearch.2

end

end OfsConvert
