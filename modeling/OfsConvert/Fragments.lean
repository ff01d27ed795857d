import OfsConvert.BlockedSearch
import OfsConvert.MetadataReader

/-!
# The fragments of an extent

`find_blocked_extent_fragments` cuts an extent at the blocked extents and records the pieces one
by one: what is blocked is resettled, what is not stays in place. The pieces depend on the blocked
extents only, so the loop is the same as recording a list of fragments that can be named in
advance.
-/

namespace OfsConvert

/-- A piece of an extent and whether it is resettled. -/
structure Fragment where
  isBlocked : Bool
  extent : FatExtent
  deriving DecidableEq, Repr

/-- The end of the loop body of `find_blocked_extent_fragments`. -/
def recordFragment (g : Globals) (fuel : ℕ) (fragment : Fragment) (writeStream : StreamArchiver) :
    Prog StreamArchiver :=
  if fragment.isBlocked then resettleExtent g fuel writeStream fragment.extent
  else appendExtent g fuel fragment.extent writeStream

/-- One round of the loop for each fragment. -/
def recordFragments (g : Globals) : ℕ → List Fragment → StreamArchiver → Prog StreamArchiver
  | 0, _, _ => throw .fuel
  | _ + 1, [], writeStream => pure writeStream
  | fuel + 1, fragment :: rest, writeStream => do
    let writeStream ← recordFragment g fuel fragment writeStream
    recordFragments g fuel rest writeStream

/-- The fragments follow one another from the cluster `start` to the end of the input, and each
has the logical start that belongs to its first cluster. -/
def CoverFrom (input : FatExtent) : ℕ → List Fragment → Prop
  | start, [] => start = input.stop
  | start, fragment :: rest =>
    fragment.extent.physicalStart = start ∧
    fragment.extent.logicalStart = input.logicalStart + (start - input.physicalStart) ∧
    CoverFrom input fragment.extent.stop rest

/-- The fragments follow one another from the cluster `start` to the cluster `stop`. -/
def FollowFrom (stop : ℕ) : ℕ → List Fragment → Prop
  | start, [] => start = stop
  | start, fragment :: rest =>
    fragment.extent.physicalStart = start ∧ FollowFrom stop fragment.extent.stop rest

/-- A fragment starts in the input, with the logical start that belongs to its first cluster as a
32-bit number. -/
structure Fragment.StartsIn (fragment : Fragment) (input : FatExtent) : Prop where
  inside : fragment.extent.physicalStart < input.stop
  logical : fragment.extent.logicalStart =
    u32 (input.logicalStart + (fragment.extent.physicalStart - input.physicalStart))

/-- A fragment is judged correctly: kept in place when it has clusters and none of them is blocked,
resettled when all of them lie in one blocked extent. -/
structure Judged (blocked : List FatExtent) (fragment : Fragment) : Prop where
  nonempty : fragment.isBlocked = false → 1 ≤ fragment.extent.length
  clear : fragment.isBlocked = false →
    ∀ c ∈ fragment.extent.clusters, ∀ b ∈ blocked, c ∉ b.clusters
  inside : fragment.isBlocked = true →
    ∃ b ∈ blocked, ∀ c ∈ fragment.extent.clusters, c ∈ b.clusters

/-- Fragments that cover the input have its clusters in order. -/
theorem CoverFrom.clusters {input : FatExtent} {start : ℕ} {fragments : List Fragment}
    (h : CoverFrom input start fragments) :
    fragments.flatMap (fun fragment => fragment.extent.clusters) =
      List.range' start (input.stop - start) ∧ start ≤ input.stop := by
  induction fragments generalizing start with
  | nil =>
    rw [show start = input.stop from h, Nat.sub_self]
    exact ⟨rfl, le_rfl⟩
  | cons fragment rest ih =>
    obtain ⟨hstart, -, hrest⟩ := h
    obtain ⟨hclusters, hle⟩ := ih hrest
    have hstop : fragment.extent.stop = start + fragment.extent.length := by
      rw [FatExtent.stop, hstart]
    rw [List.flatMap_cons, hclusters, FatExtent.clusters, hstart, hstop, List.range'_append_1]
    refine ⟨?_, by omega⟩
    congr 1
    omega

/-- No fragment that covers a part of the input goes beyond its end. -/
theorem CoverFrom.length_le {input : FatExtent} {start : ℕ} {fragments : List Fragment}
    (h : CoverFrom input start fragments) {fragment : Fragment} (hmem : fragment ∈ fragments) :
    start + fragment.extent.length ≤ input.stop := by
  induction fragments generalizing start with
  | nil => cases hmem
  | cons first rest ih =>
    obtain ⟨hstart, -, hrest⟩ := h
    have hstop : first.extent.stop = start + first.extent.length := by
      rw [FatExtent.stop, hstart]
    cases hmem with
    | head =>
      have hle := hrest.clusters.2
      rwa [hstop] at hle
    | tail _ hmem =>
      have hle := ih hrest hmem
      omega

/-- The fragments do not go back. -/
theorem FollowFrom.start_le {stop start : ℕ} {fragments : List Fragment}
    (h : FollowFrom stop start fragments) : start ≤ stop := by
  induction fragments generalizing start with
  | nil => exact h.le
  | cons fragment rest ih =>
    obtain ⟨hstart, hrest⟩ := h
    have hle := ih hrest
    unfold FatExtent.stop at hle
    omega

/-- No fragment goes beyond the end. -/
theorem FollowFrom.length_le {stop start : ℕ} {fragments : List Fragment}
    (h : FollowFrom stop start fragments) {fragment : Fragment} (hmem : fragment ∈ fragments) :
    start + fragment.extent.length ≤ stop := by
  induction fragments generalizing start with
  | nil => cases hmem
  | cons first rest ih =>
    obtain ⟨hstart, hrest⟩ := h
    have hstop : first.extent.stop = start + first.extent.length := by
      rw [FatExtent.stop, hstart]
    cases hmem with
    | head =>
      have hle := hrest.start_le
      rwa [hstop] at hle
    | tail _ hmem =>
      have hle := ih hrest hmem
      omega

/-- Where no logical start overflows, fragments that follow one another cover the input. -/
theorem FollowFrom.cover {input : FatExtent} {start : ℕ} {fragments : List Fragment}
    (h : FollowFrom input.stop start fragments) (hlow : input.physicalStart ≤ start)
    (hshort : input.logicalStart + input.length ≤ 2 ^ 32)
    (hstarts : ∀ f ∈ fragments, f.StartsIn input) : CoverFrom input start fragments := by
  induction fragments generalizing start with
  | nil => exact h
  | cons fragment rest ih =>
    obtain ⟨hstart, hrest⟩ := h
    obtain ⟨hinside, hlogical⟩ := hstarts fragment (by simp)
    refine ⟨hstart, ?_, ih hrest ?_ fun f hf => hstarts f (List.mem_cons_of_mem _ hf)⟩
    · unfold FatExtent.stop at hinside
      rw [hlogical, hstart, u32_of_lt (by omega)]
    · unfold FatExtent.stop
      omega

/-- The search depends on the blocked extents only. -/
theorem findNextBlockedExtent_congr {a b : ExtentAllocator}
    (hextents : a.blockedExtents = b.blockedExtents)
    (hcount : a.blockedExtentCount = b.blockedExtentCount) (i stop : ℕ) :
    findNextBlockedExtent a i stop = findNextBlockedExtent b i stop := by
  unfold findNextBlockedExtent
  rw [hextents, hcount]

/-- The blocked extents of the allocator stay the same. -/
structure SameBlocked (s t : State) : Prop where
  extents : t.allocator.blockedExtents = s.allocator.blockedExtents
  count : t.allocator.blockedExtentCount = s.allocator.blockedExtentCount

namespace SameBlocked

/-- A step that does nothing leaves the blocked extents. -/
theorem refl (s : State) : SameBlocked s s := ⟨rfl, rfl⟩

/-- The blocked extents stay over two steps. -/
theorem trans {s t u : State} (h : SameBlocked s t) (h' : SameBlocked t u) : SameBlocked s u :=
  ⟨h'.extents.trans h.extents, h'.count.trans h.count⟩

/-- A search goes on behind a step that leaves the blocked extents. -/
theorem searches {blocked : List FatExtent} {last : FatExtent} {s t : State}
    (h : SameBlocked s t) (hs : Searches blocked last s.allocator) :
    Searches blocked last t.allocator :=
  ⟨h.extents.trans hs.extents, h.count.trans hs.count⟩

/-- A sequence leaves the blocked extents where its parts do. -/
theorem bind {α β : Type} {x : Prog α} {f : α → Prog β} (hx : Keeps SameBlocked x)
    (hf : ∀ a, Keeps SameBlocked (f a)) : Keeps SameBlocked (x >>= f) :=
  Keeps.bind (fun h h' => h.trans h') hx hf

/-- The cursor moves, the blocked extents stay. -/
theorem canBeUsed : Keeps SameBlocked OfsConvert.canBeUsed := by
  intro s
  simp only [OfsConvert.canBeUsed, wp_bind, wp_get]
  cases s.allocator.blockedExtents[s.allocator.blockedExtentCurrent]? with
  | none => exact refl s
  | some blocked =>
    refine wp_ite (fun _ => ?_) (fun _ => ?_)
    · exact ⟨rfl, rfl⟩
    · simp only [wp_bind, wp_set]
      exact wp_ite (fun _ => ⟨rfl, rfl⟩) (fun _ => ⟨rfl, rfl⟩)

/-- Taking a cluster leaves the blocked extents. -/
theorem takeCurrent : Keeps SameBlocked takeCurrent := fun _ => ⟨rfl, rfl⟩

/-- The search for a cluster leaves the blocked extents. -/
theorem findUsable (fuel : ℕ) : Keeps SameBlocked (findUsable fuel) := by
  induction fuel with
  | zero => exact Keeps.throw refl _
  | succ fuel ih => exact bind canBeUsed fun _ => Keeps.ite (Keeps.pure refl _) ih

/-- Growing an extent leaves the blocked extents. -/
theorem growExtent (maxLength fuel : ℕ) (e : FatExtent) :
    Keeps SameBlocked (growExtent maxLength fuel e) := by
  induction fuel generalizing e with
  | zero => exact Keeps.throw refl _
  | succ fuel ih =>
    refine Keeps.ite (bind canBeUsed fun _ => Keeps.ite ?_ (Keeps.pure refl _)) (Keeps.pure refl _)
    exact bind takeCurrent fun _ => ih _

/-- The allocator leaves the blocked extents. -/
theorem allocateExtent (fuel maxLength : ℕ) :
    Keeps SameBlocked (allocateExtent fuel maxLength) :=
  bind (findUsable fuel) fun _ => bind takeCurrent fun _ => growExtent _ _ _

/-- A store leaves the blocked extents. -/
theorem storeBytes (address : ℕ) (bytes : List UInt8) :
    Keeps SameBlocked (storeBytes address bytes) := fun _ => ⟨rfl, rfl⟩

/-- A copy leaves the blocked extents. -/
theorem memcpy (dst src n : ℕ) : Keeps SameBlocked (memcpy dst src n) := fun _ => ⟨rfl, rfl⟩

/-- A null check leaves the blocked extents. -/
theorem notNull (p : ℕ) : Keeps SameBlocked (notNull p) :=
  Keeps.ite (Keeps.throw refl _) (Keeps.pure refl _)

/-- Reserving an extent leaves the blocked extents. -/
theorem reserveExtent (g : Globals) (fuel : ℕ) (w : StreamArchiver) :
    Keeps SameBlocked (reserveExtent g fuel w) := by
  have hpage : Keeps SameBlocked (allocatePage g fuel) :=
    bind (allocateExtent fuel 1) fun _ => Keeps.pure refl _
  have hadvance : ∀ size w', Keeps SameBlocked (advanceInPage g fuel true size w') := by
    intro size w'
    refine Keeps.ite (bind hpage fun _ => bind (notNull _) fun _ => ?_) (Keeps.pure refl _)
    exact bind (storeBytes _ _) fun _ => bind (storeBytes _ _) fun _ => Keeps.pure refl _
  refine bind (Keeps.pure refl false) fun ends => Keeps.ite ?_ (hadvance _ _)
  exact bind (hadvance _ _) fun _ => Keeps.pure refl _

/-- Appending an extent leaves the blocked extents. -/
theorem appendExtent (g : Globals) (fuel : ℕ) (e : FatExtent) (w : StreamArchiver) :
    Keeps SameBlocked (appendExtent g fuel e w) :=
  bind (reserveExtent g fuel w) fun _ => bind (storeBytes _ _) fun _ => Keeps.pure refl _

/-- Resettling leaves the blocked extents. -/
theorem resettleFrom (g : Globals) (input : FatExtent) (fuel i : ℕ) (w : StreamArchiver) :
    Keeps SameBlocked (resettleFrom g input fuel i w) := by
  induction fuel generalizing i w with
  | zero => exact Keeps.throw refl _
  | succ fuel ih =>
    refine Keeps.ite (bind (allocateExtent _ _) fun _ => bind (appendExtent _ _ _ _) fun _ => ?_)
      (Keeps.pure refl _)
    exact bind (memcpy _ _ _) fun _ => ih _ _

/-- Recording a fragment leaves the blocked extents. -/
theorem recordFragment (g : Globals) (fuel : ℕ) (fragment : Fragment) (w : StreamArchiver) :
    Keeps SameBlocked (recordFragment g fuel fragment w) :=
  Keeps.ite (resettleFrom _ _ _ _ _) (appendExtent _ _ _ _)

end SameBlocked

section

variable {blocked : List FatExtent} {last : FatExtent} {a : ExtentAllocator} {input : FatExtent}

/-- The loop from `start` on records these fragments, whatever the stream and the rest of the
state are. -/
def LoopRecords (blocked : List FatExtent) (last input : FatExtent) (start i : ℕ)
    (blockedExtent : Option FatExtent) (fragments : List Fragment) : Prop :=
  ∀ (g : Globals) (s : State), Searches blocked last s.allocator →
    ∀ (fuel : ℕ) (writeStream : StreamArchiver),
      fragmentsFrom g input input.stop fuel start i blockedExtent writeStream s =
        recordFragments g fuel fragments writeStream s

/-- One round with its fragment, then the rest. -/
theorem LoopRecords.cons {start i : ℕ} {blockedExtent : Option FatExtent} (mid i' : ℕ)
    (next : Option FatExtent) {fragment : Fragment} {rest : List Fragment}
    (hround : ∀ (g : Globals) (s : State), Searches blocked last s.allocator →
      ∀ (fuel : ℕ) (writeStream : StreamArchiver),
        fragmentsFrom g input input.stop (fuel + 1) start i blockedExtent writeStream s =
          (recordFragment g fuel fragment writeStream >>=
            fragmentsFrom g input input.stop fuel mid i' next) s)
    (hrest : LoopRecords blocked last input mid i' next rest) :
    LoopRecords blocked last input start i blockedExtent (fragment :: rest) := by
  intro g s hs fuel writeStream
  cases fuel with
  | zero => rfl
  | succ fuel =>
    rw [hround g s hs fuel writeStream, recordFragments]
    -- the rest runs from a state with the same blocked extents
    have hkept := SameBlocked.recordFragment g fuel fragment writeStream s
    exact bind_congr_run fun w t hrun => hrest g t ((wp_ok hkept hrun).searches hs) fuel w

/-- No fragments are left at the end of the input. -/
theorem LoopRecords.nil {i : ℕ} {blockedExtent : Option FatExtent} :
    LoopRecords blocked last input input.stop i blockedExtent [] := by
  intro g s _ fuel writeStream
  cases fuel with
  | zero => rfl
  | succ fuel => rw [fragmentsFrom, if_neg (Nat.lt_irrefl _)]; rfl

/-- The rounds that are left at most. -/
def roundsLeft (blocked : List FatExtent) (start i : ℕ) : Option FatExtent → ℕ
  | none => 1
  | some b => 2 * (blocked.length + 1 - i) + if b.physicalStart ≤ start then 2 else 3

/-- At most two rounds for each blocked extent are left, and a few. -/
theorem roundsLeft_le (blocked : List FatExtent) (start i : ℕ) (blockedExtent : Option FatExtent) :
    roundsLeft blocked start i blockedExtent ≤ 2 * blocked.length + 5 := by
  cases blockedExtent with
  | none =>
    rw [roundsLeft]
    omega
  | some b =>
    rw [roundsLeft]
    split_ifs <;> omega

/-- Going on to the next blocked extent leaves fewer rounds. -/
theorem roundsLeft_next (ha : Searches blocked last a) (start i stop : ℕ) :
    roundsLeft blocked start (findNextBlockedExtent a i stop).2
      (findNextBlockedExtent a i stop).1 < 2 * (blocked.length + 1 - i) + 2 := by
  have hnone : ∀ j, roundsLeft blocked start j none = 1 := fun _ => rfl
  unfold findNextBlockedExtent
  rw [ha.count]
  by_cases hend : blocked.length ≤ i
  · rw [if_pos hend, hnone]
    omega
  · simp only [if_neg hend]
    by_cases hfar : stop < (a.blockedExtents.getD i default).physicalStart
    · rw [if_pos hfar, hnone]
      omega
    · rw [if_neg hfar]
      dsimp only [roundsLeft]
      split_ifs <;> omega

/-- The fragment of the input between two clusters. -/
def fragmentAt (input : FatExtent) (isBlocked : Bool) (start mid : ℕ) : Fragment :=
  ⟨isBlocked, ⟨u32 (input.logicalStart + (start - input.physicalStart)), mid - start, start⟩⟩

section Rounds

variable {start mid i : ℕ} {b : FatExtent} {rest : List Fragment} {isBlocked : Bool}

/-- A fragment that ends at `mid` in front of what covers the rest. -/
theorem fragmentAt_cover (hlt : start < input.stop) (hle : start ≤ mid)
    (hrest : FollowFrom input.stop mid rest) (hstarts : ∀ f ∈ rest, f.StartsIn input) :
    FollowFrom input.stop start (fragmentAt input isBlocked start mid :: rest) ∧
      ∀ f ∈ fragmentAt input isBlocked start mid :: rest, f.StartsIn input := by
  have hmid : start + (mid - start) = mid := Nat.add_sub_cancel' hle
  refine ⟨⟨rfl, ?_⟩, fun f hf => ?_⟩
  · dsimp only [fragmentAt, FatExtent.stop]
    rw [hmid]
    exact hrest
  · rcases List.mem_cons.mp hf with rfl | hf
    · exact ⟨hlt, rfl⟩
    · exact hstarts f hf

/-- A fragment that meets no blocked extent is judged correctly. -/
theorem judged_clear (hlt : start < mid)
    (hclear : ∀ b ∈ blocked, ∀ c, start ≤ c → c < mid → c ∉ b.clusters) :
    Judged blocked (fragmentAt input false start mid) := by
  refine ⟨fun _ => by dsimp only [fragmentAt]; omega, fun _ c hc b hmem => ?_,
    fun h => absurd h Bool.false_ne_true⟩
  rw [fragmentAt, FatExtent.clusters_mk, List.mem_range'_1] at hc
  exact hclear b hmem c hc.1 (by omega)

/-- A fragment inside a blocked extent is judged correctly. -/
theorem judged_inside (hmem : b ∈ blocked) (hlow : b.physicalStart ≤ start) (hle : start ≤ mid)
    (hhigh : mid ≤ b.stop) : Judged blocked (fragmentAt input true start mid) := by
  refine ⟨fun h => absurd h.symm Bool.false_ne_true, fun h => absurd h.symm Bool.false_ne_true,
    fun _ => ⟨b, hmem, fun c hc => ?_⟩⟩
  rw [fragmentAt, FatExtent.clusters_mk, List.mem_range'_1] at hc
  exact (FatExtent.mem_clusters _ c).mpr ⟨hlow.trans hc.1, by omega⟩

/-- In front of the first blocked extent that ends behind `start` nothing is blocked. -/
theorem clear_before (hb : OrderedExtents blocked) {k : ℕ} (hk : k < blocked.length)
    (hpassed : ∀ j (hj : j < k), (blocked.get ⟨j, hj.trans hk⟩).stop ≤ start) :
    ∀ b ∈ blocked, ∀ c, start ≤ c → c < blocked[k].physicalStart → c ∉ b.clusters := by
  intro b hmem c hlow hhigh hin
  obtain ⟨j, hj, rfl⟩ := List.getElem_of_mem hmem
  rw [FatExtent.mem_clusters] at hin
  rcases Nat.lt_trichotomy j k with hjk | rfl | hjk
  · have hended : blocked[j].stop ≤ start := hpassed j hjk
    omega
  · omega
  · have hlater := hb.getElem_stop_le hj hjk
    unfold FatExtent.stop at hlater
    omega

variable {g : Globals} {s : State} {fuel : ℕ} {w : StreamArchiver}

/-- The length of a fragment fits into 16 bits. -/
theorem fragment_length (hlength : input.length ≤ ext4MaxInitExtentLen) (hstop : input.stop < 2 ^ 32)
    (hlow : input.physicalStart ≤ start) (hle : start ≤ mid) (hmid : mid ≤ input.stop) :
    u16 (sub32 mid start) = mid - start := by
  have hbits : ext4MaxInitExtentLen = 32768 := rfl
  have hend : input.stop = input.physicalStart + input.length := rfl
  rw [sub32_of_le hle (by omega), u16_of_lt (by omega)]

/-- The round without a blocked extent ahead. -/
theorem fragmentsFrom_clear (hlength : input.length ≤ ext4MaxInitExtentLen)
    (hstop : input.stop < 2 ^ 32) (hlow : input.physicalStart ≤ start) (hlt : start < input.stop) :
    fragmentsFrom g input input.stop (fuel + 1) start i none w s =
      (recordFragment g fuel (fragmentAt input false start input.stop) w >>=
        fragmentsFrom g input input.stop fuel input.stop i none) s := by
  rw [fragmentsFrom, if_pos hlt, sub32_of_le hlow (hlt.trans hstop)]
  simp only [fragment_length hlength hstop hlow hlt.le le_rfl]
  rfl

/-- The round inside a blocked extent. -/
theorem fragmentsFrom_inside (ha : Searches blocked last a) (hs : Searches blocked last s.allocator)
    (hlength : input.length ≤ ext4MaxInitExtentLen) (hstop : input.stop < 2 ^ 32)
    (hlow : input.physicalStart ≤ start) (hlt : start < input.stop)
    (hblocked : b.physicalStart ≤ start) (hbstop : b.stop < 2 ^ 32)
    (hmid : mid = if b.stop < input.stop then b.stop else input.stop) (hmid₁ : start ≤ mid)
    (hmid₂ : mid ≤ input.stop) :
    fragmentsFrom g input input.stop (fuel + 1) start i (some b) w s =
      (recordFragment g fuel (fragmentAt input true start mid) w >>=
        fragmentsFrom g input input.stop fuel mid (findNextBlockedExtent a i input.stop).2
          (findNextBlockedExtent a i input.stop).1) s := by
  have hend : u32 (b.physicalStart + b.length) = b.stop := u32_of_lt hbstop
  rw [fragmentsFrom, if_pos hlt, sub32_of_le hlow (hlt.trans hstop), run_get_bind]
  simp only [if_pos hblocked, hend, ← hmid, fragment_length hlength hstop hlow hmid₁ hmid₂]
  rw [findNextBlockedExtent_congr (b := a) (hs.extents.trans ha.extents.symm)
    (hs.count.trans ha.count.symm)]
  rfl

/-- The round in front of a blocked extent. -/
theorem fragmentsFrom_before (hlength : input.length ≤ ext4MaxInitExtentLen)
    (hstop : input.stop < 2 ^ 32) (hlow : input.physicalStart ≤ start) (hlt : start < input.stop)
    (hbefore : start < b.physicalStart) (hreach : b.physicalStart ≤ input.stop) :
    fragmentsFrom g input input.stop (fuel + 1) start i (some b) w s =
      (recordFragment g fuel (fragmentAt input false start b.physicalStart) w >>=
        fragmentsFrom g input input.stop fuel b.physicalStart i (some b)) s := by
  rw [fragmentsFrom, if_pos hlt, sub32_of_le hlow (hlt.trans hstop), run_get_bind]
  simp only [if_neg (Nat.not_le_of_lt hbefore),
    fragment_length hlength hstop hlow hbefore.le hreach]
  rfl

end Rounds

/-- The fragments from `start` on follow one another to the end of the input and are judged
correctly. -/
theorem fragmentsFrom_records (hb : OrderedExtents blocked)
    (hlength : input.length ≤ ext4MaxInitExtentLen) (hstop : input.stop < 2 ^ 32)
    (ha : Searches blocked last a) (rounds start i : ℕ) (blockedExtent : Option FatExtent)
    (hrounds : roundsLeft blocked start i blockedExtent ≤ rounds)
    (hlow : input.physicalStart ≤ start) (hhigh : start ≤ input.stop)
    (hscan : start < input.stop → Scan blocked start input.stop i blockedExtent) :
    ∃ fragments, FollowFrom input.stop start fragments ∧ (∀ f ∈ fragments, f.StartsIn input) ∧
      fragments.length ≤ rounds ∧ (∀ f ∈ fragments, Judged blocked f) ∧
      LoopRecords blocked last input start i blockedExtent fragments := by
  induction rounds generalizing start i blockedExtent with
  | zero =>
    cases blockedExtent with
    | none => exact absurd hrounds (Nat.not_succ_le_zero 0)
    | some b =>
      rw [roundsLeft] at hrounds
      split_ifs at hrounds <;> omega
  | succ rounds ih =>
    rcases Nat.eq_or_lt_of_le hhigh with rfl | hlt
    · exact ⟨[], rfl, by simp, Nat.zero_le _, by simp, LoopRecords.nil⟩
    cases hscan hlt with
    | none hclear =>
      have hnil : FollowFrom input.stop input.stop [] := rfl
      obtain ⟨hfollow, hstarts⟩ := fragmentAt_cover hlt hhigh hnil (List.forall_mem_nil _)
      refine ⟨_, hfollow, hstarts, Nat.succ_le_succ (Nat.zero_le _),
        List.forall_mem_singleton.mpr (judged_clear hlt hclear), ?_⟩
      exact LoopRecords.cons input.stop i none
        (fun _ _ _ _ _ => fragmentsFrom_clear hlength hstop hlow hlt) LoopRecords.nil
    | some k hk hik hpassed hahead hreach =>
      by_cases hblocked : blocked[k].physicalStart ≤ start
      · -- the fragment lies in the blocked extent
        obtain ⟨mid, hmid⟩ : ∃ mid, mid =
            if blocked[k].stop < input.stop then blocked[k].stop else input.stop := ⟨_, rfl⟩
        have hmid₁ : start ≤ mid := by
          rw [hmid]
          split <;> omega
        have hmid₂ : mid ≤ input.stop := by
          rw [hmid]
          split <;> omega
        have hmid₃ : mid ≤ blocked[k].stop := by
          rw [hmid]
          split <;> omega
        have hscan' : mid < input.stop → Scan blocked mid input.stop
            (findNextBlockedExtent a i input.stop).2 (findNextBlockedExtent a i input.stop).1 := by
          intro hshorter
          have hmidEnd : mid = blocked[k].stop := by
            by_cases hless : blocked[k].stop < input.stop
            · rw [hmid, if_pos hless]
            · rw [if_neg hless] at hmid
              omega
          rw [hik]
          refine findNextBlockedExtent_scan hb ha ?_ ?_
          · intro j hj hjk
            rw [hmidEnd]
            exact hb.stop_mono hk (by omega)
          · intro j hj hjk
            rw [hmidEnd]
            exact (hb.getElem_stop_le hj (by omega)).trans (Nat.le_add_right _ _)
        have hrounds' : roundsLeft blocked mid (findNextBlockedExtent a i input.stop).2
            (findNextBlockedExtent a i input.stop).1 ≤ rounds := by
          simp only [roundsLeft, if_pos hblocked] at hrounds
          have hless := roundsLeft_next ha mid i input.stop
          omega
        obtain ⟨rest, hrest, hstarts, hcount, hjudged, hrecords⟩ := ih mid _ _ hrounds' (by omega)
          hmid₂ hscan'
        obtain ⟨hfollow, hstarts'⟩ := fragmentAt_cover hlt hmid₁ hrest hstarts
        refine ⟨_, hfollow, hstarts', Nat.succ_le_succ hcount, List.forall_mem_cons.mpr
          ⟨judged_inside (List.getElem_mem hk) hblocked hmid₁ hmid₃, hjudged⟩, ?_⟩
        exact LoopRecords.cons mid _ _ (fun _ _ hs _ _ => fragmentsFrom_inside ha hs hlength hstop
          hlow hlt hblocked (hb.stops _ (List.getElem_mem hk)) hmid hmid₁ hmid₂) hrecords
      · -- the fragment ends where the blocked extent starts
        have hbefore : start < blocked[k].physicalStart := Nat.lt_of_not_le hblocked
        have hrounds' : roundsLeft blocked blocked[k].physicalStart i (some blocked[k]) ≤
            rounds := by
          simp only [roundsLeft, if_neg hblocked, if_pos le_rfl] at hrounds ⊢
          omega
        obtain ⟨rest, hrest, hstarts, hcount, hjudged, hrecords⟩ := ih blocked[k].physicalStart i
          (some blocked[k]) hrounds' (by omega) hreach (fun _ => Scan.some k hk hik
            (fun j hj => (hpassed j hj).trans hbefore.le) (Nat.le_add_right _ _) hreach)
        obtain ⟨hfollow, hstarts'⟩ := fragmentAt_cover hlt hbefore.le hrest hstarts
        refine ⟨_, hfollow, hstarts', Nat.succ_le_succ hcount, List.forall_mem_cons.mpr
          ⟨judged_clear hbefore (clear_before hb hk hpassed), hjudged⟩, ?_⟩
        exact LoopRecords.cons blocked[k].physicalStart i (some blocked[k])
          (fun _ _ _ _ _ => fragmentsFrom_before hlength hstop hlow hlt hbefore hreach) hrecords

end

/-- The run stopped for another reason than missing fuel: at a null pointer or because the volume
is full. -/
def WithinFuel (cause : Halt) (_ : State) : Prop := cause = .fault ∨ cause = .exit fsIsFullMessage

/-- A run within its fuel does not run out of it. -/
theorem WithinFuel.ne_fuel {cause : Halt} {s : State} (h : WithinFuel cause s) : cause ≠ .fuel := by
  rcases h with rfl | rfl
  · exact nofun
  · exact nofun

/-- The starts of the blocked extents are 32-bit numbers. -/
def StartsBounded (s : State) : Prop := ∀ e ∈ s.allocator.blockedExtents, e.physicalStart < 2 ^ 32

/-- The blocked extents and the sentinel have 32-bit starts. -/
theorem AllocatorInv.startsBounded {g : Globals} {m₀ : Mem} {blocked : List FatExtent} {s : State}
    (h : AllocatorInv g m₀ blocked s)
    (hb : BlockedExtents (dataClusterCount g.bootSector g.metaInfo) blocked) : StartsBounded s := by
  intro e he
  rw [h.extents, List.mem_append, List.mem_singleton] at he
  have hnumbers := hb.numbers
  rcases he with he | rfl
  · have hinside := hb.inside e he
    omega
  · change dataClusterCount g.bootSector g.metaInfo < 2 ^ 32
    omega

/-- The steps of the cursor that are left: up to 2³² in front of each blocked extent ahead. -/
def cursorRoom (s : State) : ℕ :=
  (s.allocator.blockedExtentCount + 1 - s.allocator.blockedExtentCurrent) * 2 ^ 32 +
    (2 ^ 32 - u32 (s.allocator.indexInFat + 1))

/-- There is room for one step for each cluster number and blocked extent. -/
theorem cursorRoom_le (s : State) :
    cursorRoom s ≤ (s.allocator.blockedExtentCount + 2) * 2 ^ 32 := by
  unfold cursorRoom
  omega

/-- The allocation state that matters for how long a part of a run takes: the room does not
grow. -/
structure Shrinks (s t : State) : Prop where
  starts : StartsBounded t
  room : cursorRoom t ≤ cursorRoom s

/-- The room shrinks over two steps. -/
theorem Shrinks.trans {s t u : State} (h : Shrinks s t) (h' : Shrinks t u) : Shrinks s u :=
  ⟨h'.starts, h'.room.trans h.room⟩

section

variable {s : State} (h : StartsBounded s)
include h

/-- Every step of the cursor uses up room; an approved step goes to the next cluster. -/
theorem canBeUsed_room :
    wp canBeUsed
      (fun usable t => StartsBounded t ∧ cursorRoom t < cursorRoom s ∧
        (usable = true → t.allocator.indexInFat = u32 (s.allocator.indexInFat + 1)))
      WithinFuel s := by
  simp only [canBeUsed, wp_bind, wp_get]
  cases hget : s.allocator.blockedExtents[s.allocator.blockedExtentCurrent]? with
  | none => exact Or.inl rfl
  | some e =>
    have hstart := h e (List.mem_of_getElem? hget)
    refine wp_ite (fun hlt => ?_) (fun hge => ?_)
    · refine ⟨h, ?_, fun _ => rfl⟩
      have hnext : u32 (u32 (s.allocator.indexInFat + 1) + 1) =
          u32 (s.allocator.indexInFat + 1) + 1 := u32_of_lt (by omega)
      unfold cursorRoom
      dsimp only
      rw [hnext]
      omega
    · simp only [wp_bind, wp_set]
      refine wp_ite (fun _ => Or.inr rfl) (fun hroom => ?_)
      refine ⟨h, ?_, fun h => absurd h (by decide)⟩
      have hcurrent : s.allocator.blockedExtentCurrent + 1 ≤ s.allocator.blockedExtentCount := by
        simpa [fsIsFull] using hroom
      have hindex := u32_lt (s.allocator.indexInFat + 1)
      unfold cursorRoom
      dsimp only
      rw [show s.allocator.blockedExtentCount + 1 - s.allocator.blockedExtentCurrent =
        s.allocator.blockedExtentCount + 1 - (s.allocator.blockedExtentCurrent + 1) + 1 by omega]
      omega

/-- With more fuel than room the search ends. -/
theorem findUsable_room (fuel : ℕ) (hfuel : cursorRoom s < fuel) :
    wp (findUsable fuel)
      (fun _ t => Shrinks s t ∧ cursorRoom t < cursorRoom s ∧ t.allocator.indexInFat < 2 ^ 32)
      WithinFuel s := by
  induction fuel generalizing s with
  | zero => omega
  | succ fuel ih =>
    rw [findUsable, wp_bind]
    refine wp_mono_ok (canBeUsed_room h) fun usable t ht => ?_
    obtain ⟨hstarts, hroom, hindex⟩ := ht
    refine wp_ite (fun htrue => ?_) (fun _ => ?_)
    · refine ⟨⟨hstarts, hroom.le⟩, hroom, ?_⟩
      rw [hindex htrue]
      exact u32_lt _
    · refine wp_mono_ok (ih hstarts (by omega)) fun _ u hu => ?_
      exact ⟨⟨hu.1.starts, by omega⟩, by omega, hu.2.2⟩

/-- With more fuel than room the extent stops growing, and it does not grow beyond its limit. -/
theorem growExtent_room (fuel maxLength : ℕ) (e : FatExtent) (hfuel : cursorRoom s < fuel)
    (hmax : maxLength < 2 ^ 16) (hstart : e.physicalStart < 2 ^ 32) (hpos : 1 ≤ e.length)
    (hindex : s.allocator.indexInFat = u32 (e.physicalStart + (e.length - 1))) :
    wp (growExtent maxLength fuel e)
      (fun e' t => Shrinks s t ∧ e.length ≤ e'.length ∧ e'.length ≤ max e.length maxLength)
      WithinFuel s := by
  induction fuel generalizing s e with
  | zero => omega
  | succ fuel ih =>
    rw [growExtent]
    have hdone : Shrinks s s := ⟨h, le_rfl⟩
    refine wp_ite (fun hless => ?_) (fun _ => ⟨hdone, le_rfl, le_max_left _ _⟩)
    rw [wp_bind]
    refine wp_mono_ok (canBeUsed_room h) fun usable t ht => ?_
    obtain ⟨hstarts, hroom, hnext⟩ := ht
    refine wp_ite (fun htrue => ?_) (fun _ => ⟨⟨hstarts, hroom.le⟩, le_rfl, le_max_left _ _⟩)
    have hlast : t.allocator.indexInFat = u32 (e.physicalStart + e.length) := by
      rw [hnext htrue, hindex]
      unfold u32
      omega
    have hgrown : u16 (sub32 t.allocator.indexInFat e.physicalStart + 1) = e.length + 1 := by
      rw [hlast]
      unfold sub32 u32
      rw [u16_of_lt (by omega)]
      omega
    simp only [takeCurrent, wp_bind, wp_get, wp_set, wp_pure, hgrown]
    refine wp_mono_ok (ih (s := { t with
      allocationBitmap := setUsed t.allocationBitmap t.allocator.indexInFat }) hstarts
      { e with length := e.length + 1 } (by change cursorRoom t < fuel; omega) hstart
      (Nat.le_add_left _ _) hlast) fun e' u hu => ?_
    obtain ⟨hshrinks, hlower, hupper⟩ := hu
    dsimp only at hlower hupper
    exact ⟨⟨hshrinks.starts, hshrinks.room.trans hroom.le⟩, by omega, by omega⟩

/-- With more fuel than room an allocation ends with an extent within the limit. -/
theorem allocateExtent_room (fuel maxLength : ℕ) (hfuel : cursorRoom s < fuel)
    (hmax : maxLength < 2 ^ 16) :
    wp (allocateExtent fuel maxLength)
      (fun e t => Shrinks s t ∧ cursorRoom t < cursorRoom s ∧ 1 ≤ e.length ∧
        e.length ≤ max 1 maxLength)
      WithinFuel s := by
  rw [allocateExtent, wp_bind]
  refine wp_mono_ok (findUsable_room h fuel hfuel) fun _ t ht => ?_
  obtain ⟨hshrinks, hroom, hindex⟩ := ht
  simp only [takeCurrent, wp_bind, wp_get, wp_set, wp_pure]
  refine wp_mono_ok (growExtent_room (s := { t with
    allocationBitmap := setUsed t.allocationBitmap t.allocator.indexInFat }) hshrinks.starts fuel
    maxLength ⟨0, 1, t.allocator.indexInFat⟩ (by change cursorRoom t < fuel; omega) hmax hindex
    le_rfl (u32_of_lt hindex).symm) fun e u hu => ?_
  exact ⟨⟨hu.1.starts, hu.1.room.trans hshrinks.room⟩, hu.1.room.trans_lt hroom, hu.2⟩

/-- Writing an element ends. -/
theorem iterate_insert_room (g : Globals) (fuel elementLength elementCount : ℕ)
    (w : StreamArchiver) (hfuel : cursorRoom s < fuel) :
    wp (iterateStreamArchiver g fuel true elementLength elementCount w)
      (fun _ t => Shrinks s t) WithinFuel s := by
  simp only [iterateStreamArchiver, segmentEnds, advanceInPage, allocatePage, wp_bind, wp_pure,
    if_true, Bool.true_eq_false, false_and, if_false, Bool.false_eq_true]
  refine wp_ite (fun _ => ?_) (fun _ => ⟨h, le_rfl⟩)
  simp only [wp_bind, wp_pure, wp_notNull, wp_storeLE]
  refine wp_mono_ok (allocateExtent_room h fuel 1 hfuel (by norm_num)) fun _ t ht => ?_
  exact ⟨fun _ => Or.inl rfl, fun _ => ⟨ht.1.starts, ht.1.room⟩⟩

/-- Appending an extent ends. -/
theorem appendExtent_room (g : Globals) (fuel : ℕ) (e : FatExtent) (w : StreamArchiver)
    (hfuel : cursorRoom s < fuel) :
    wp (appendExtent g fuel e w) (fun _ t => Shrinks s t) WithinFuel s := by
  simp only [appendExtent, reserveExtent, wp_bind, wp_pure, wp_storeBytes]
  refine wp_mono_ok (iterate_insert_room h g fuel sizeofFatExtent 1 w hfuel) fun _ t ht => ?_
  exact ⟨ht.starts, ht.room⟩

/-- Resettling ends: every round moves at least one cluster. -/
theorem resettleFrom_room (g : Globals) (input : FatExtent)
    (hlength : input.length ≤ ext4MaxInitExtentLen) (fuel i : ℕ) (w : StreamArchiver)
    (hfuel : input.length - i + cursorRoom s + 1 < fuel) :
    wp (resettleFrom g input fuel i w) (fun _ t => Shrinks s t) WithinFuel s := by
  induction fuel generalizing s i w with
  | zero => omega
  | succ fuel ih =>
    have hbits : ext4MaxInitExtentLen = 32768 := rfl
    rw [resettleFrom]
    refine wp_ite (fun hlt => ?_) (fun _ => ⟨h, le_rfl⟩)
    simp only [wp_bind, wp_memcpy]
    refine wp_mono_ok (allocateExtent_room h fuel (input.length - i) (by omega) (by omega))
      fun e t ht => ?_
    obtain ⟨hshrinks, -, hpos, hmax⟩ := ht
    have hroom := hshrinks.room
    refine wp_mono_ok (appendExtent_room hshrinks.starts g fuel _ w (by omega)) fun w' u hu => ?_
    have hroom' := hu.room
    rw [u16_of_lt (by omega)]
    refine wp_mono_ok (ih (s := u.stored _ _ _) hu.starts _ _
      (by change input.length - (i + e.length) + cursorRoom u + 1 < fuel; omega)) fun _ v hv => ?_
    exact ⟨hv.starts, hv.room.trans (hroom'.trans hroom)⟩

/-- Recording a list of fragments ends. -/
theorem recordFragments_room (g : Globals) (fragments : List Fragment)
    (hlengths : ∀ f ∈ fragments, f.extent.length ≤ ext4MaxInitExtentLen) (fuel : ℕ)
    (w : StreamArchiver)
    (hfuel : fragments.length + ext4MaxInitExtentLen + cursorRoom s + 2 < fuel) :
    wp (recordFragments g fuel fragments w) (fun _ _ => True) WithinFuel s := by
  induction fragments generalizing s fuel w with
  | nil =>
    cases fuel with
    | zero => omega
    | succ fuel => exact trivial
  | cons f rest ih =>
    cases fuel with
    | zero => omega
    | succ fuel =>
      rw [List.length_cons] at hfuel
      have hlength := hlengths f (by simp)
      rw [recordFragments, wp_bind]
      have hrecord : wp (recordFragment g fuel f w) (fun _ t => Shrinks s t) WithinFuel s :=
        wp_ite (fun _ => resettleFrom_room h g f.extent hlength fuel 0 w (by omega))
          (fun _ => appendExtent_room h g fuel f.extent w (by omega))
      refine wp_mono_ok hrecord fun w' t ht => ?_
      have hroom := ht.room
      exact ih ht.starts (fun f' hf' => hlengths f' (by simp [hf'])) fuel w' (by omega)

end

/-- The fragments of a whole extent. -/
theorem findBlockedExtentFragments_follow {blocked : List FatExtent} (last : FatExtent)
    {input : FatExtent}
    (hb : OrderedExtents blocked) (hlength : input.length ≤ ext4MaxInitExtentLen)
    (hstop : input.stop < 2 ^ 32) :
    ∃ fragments, FollowFrom input.stop input.physicalStart fragments ∧
      (∀ f ∈ fragments, f.StartsIn input) ∧ fragments.length ≤ 2 * blocked.length + 5 ∧
      (∀ f ∈ fragments, Judged blocked f) ∧
      ∀ (g : Globals) (s : State), Searches blocked last s.allocator →
        ∀ (fuel : ℕ) (writeStream : StreamArchiver),
          findBlockedExtentFragments g fuel writeStream input s =
            recordFragments g fuel fragments writeStream s := by
  have hend : u32 (input.physicalStart + input.length) = input.stop := u32_of_lt hstop
  -- the search reads an allocator with these blocked extents
  have ha : Searches blocked last
      { blockedExtents := blocked ++ [last], blockedExtentCount := blocked.length } := ⟨rfl, rfl⟩
  have hrounds := roundsLeft_le blocked input.physicalStart
  obtain ⟨fragments, hfollow, hstarts, hcount, hjudged, hrecords⟩ := fragmentsFrom_records hb
    hlength hstop ha _ input.physicalStart _ _ (hrounds _ _) le_rfl (Nat.le_add_right _ _)
    (fun _ => findFirstBlockedExtent_scan hb ha input.physicalStart input.stop)
  refine ⟨fragments, hfollow, hstarts, hcount, hjudged, fun g s hs fuel w => ?_⟩
  rw [← hrecords g s hs fuel w, findBlockedExtentFragments]
  rw [run_get_bind]
  simp only [hend]
  unfold findFirstBlockedExtent
  rw [hs.extents, hs.count, findNextBlockedExtent_congr
    (b := { blockedExtents := blocked ++ [last], blockedExtentCount := blocked.length })
    hs.extents hs.count]

/-- They cover the extent where no logical start overflows. -/
theorem findBlockedExtentFragments_records {blocked : List FatExtent} (last : FatExtent)
    {input : FatExtent}
    (hb : OrderedExtents blocked) (hlength : input.length ≤ ext4MaxInitExtentLen)
    (hstop : input.stop < 2 ^ 32) (hlogical : input.logicalStart + input.length ≤ 2 ^ 32) :
    ∃ fragments, CoverFrom input input.physicalStart fragments ∧
      (∀ f ∈ fragments, Judged blocked f) ∧
      ∀ (g : Globals) (s : State), Searches blocked last s.allocator →
        ∀ (fuel : ℕ) (writeStream : StreamArchiver),
          findBlockedExtentFragments g fuel writeStream input s =
            recordFragments g fuel fragments writeStream s := by
  obtain ⟨fragments, hfollow, hstarts, -, hjudged, hrun⟩ :=
    findBlockedExtentFragments_follow last hb hlength hstop
  exact ⟨fragments, hfollow.cover le_rfl hlogical hstarts, hjudged, hrun⟩

/-- `find_blocked_extent_fragments` cuts an extent of at most 32768 clusters into fragments that
cover it once and in order and are judged correctly. The fragments depend on the blocked extents
and the input only, the run records one after the other, and it ends. -/
theorem findBlockedExtentFragments_cuts (blocked : List FatExtent) (last input : FatExtent)
    (hordered : blocked.Pairwise fun a b => a.stop ≤ b.physicalStart)
    (hstops : ∀ b ∈ blocked, b.stop < 2 ^ 32) (hlast : last.physicalStart < 2 ^ 32)
    (hlength : 1 ≤ input.length ∧ input.length ≤ ext4MaxInitExtentLen)
    (hstop : input.stop < 2 ^ 32) (hlogical : input.logicalStart + input.length ≤ 2 ^ 32) :
    ∃ fragments : List Fragment,
      fragments.flatMap (fun fragment => fragment.extent.clusters) = input.clusters ∧
      CoverFrom input input.physicalStart fragments ∧
      (∀ fragment ∈ fragments,
        (fragment.isBlocked = false →
          ∀ c ∈ fragment.extent.clusters, ∀ b ∈ blocked, c ∉ b.clusters) ∧
        (fragment.isBlocked = true →
          ∀ c ∈ fragment.extent.clusters, ∃ b ∈ blocked, c ∈ b.clusters)) ∧
      ∃ bound, ∀ (g : Globals) (s : State),
        s.allocator.blockedExtents = blocked ++ [last] →
        s.allocator.blockedExtentCount = blocked.length →
        ∀ (fuel : ℕ) (writeStream : StreamArchiver),
          findBlockedExtentFragments g fuel writeStream input s =
            recordFragments g fuel fragments writeStream s ∧
          (bound < fuel →
            wp (findBlockedExtentFragments g fuel writeStream input) (fun _ _ => True)
              (fun cause _ => cause ≠ .fuel) s) := by
  have hb : OrderedExtents blocked := ⟨hordered, hstops⟩
  obtain ⟨fragments, hcover, hjudged, hrun⟩ :=
    findBlockedExtentFragments_records last hb hlength.2 hstop hlogical
  have hclusters : fragments.flatMap (fun fragment => fragment.extent.clusters) =
      input.clusters := by
    rw [hcover.clusters.1, FatExtent.stop, Nat.add_sub_cancel_left]
    rfl
  refine ⟨fragments, hclusters, hcover, fun f hf => ⟨(hjudged f hf).clear, fun h c hc => ?_⟩,
    fragments.length + ext4MaxInitExtentLen + (blocked.length + 2) * 2 ^ 32 + 2, ?_⟩
  · obtain ⟨b, hmem, hin⟩ := (hjudged f hf).inside h
    exact ⟨b, hmem, hin c hc⟩
  · intro g s hextents hcount fuel w
    have hsame := hrun g s ⟨hextents, hcount⟩ fuel w
    refine ⟨hsame, fun hfuel => ?_⟩
    have hstarts : StartsBounded s := by
      intro e he
      rw [hextents, List.mem_append, List.mem_singleton] at he
      rcases he with he | rfl
      · exact (Nat.le_add_right _ _).trans_lt (hstops e he)
      · exact hlast
    have hlengths : ∀ f ∈ fragments, f.extent.length ≤ ext4MaxInitExtentLen := by
      intro f hf
      have hle := hcover.length_le hf
      unfold FatExtent.stop at hle
      omega
    have hroom := cursorRoom_le s
    rw [hcount] at hroom
    have hends := wp_mono (recordFragments_room hstarts g fragments hlengths fuel w (by omega))
      (fun _ _ h => h) (fun _ _ h => h.ne_fuel)
    unfold wp at hends ⊢
    rw [hsame]
    exact hends

/-- An extent over the end of a blocked one, behind an empty one. -/
theorem findBlockedExtentFragments_cuts_sample : ∃ fragments : List Fragment,
    fragments.flatMap (fun fragment => fragment.extent.clusters) = List.range' 48 10 := by
  obtain ⟨fragments, hclusters, -⟩ := findBlockedExtentFragments_cuts [⟨0, 0, 0⟩, ⟨0, 51, 2⟩]
    ⟨0, 1, 120⟩ ⟨0, 10, 48⟩ (by decide) (by decide) (by decide) (by decide) (by decide) (by decide)
  exact ⟨fragments, hclusters⟩

end OfsConvert
