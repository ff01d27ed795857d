import OfsConvert.ExtentAllocator
import OfsConvert.Geometry

/-!
# What the allocator hands out

The cursor has passed every blocked extent before the current one, and every extent from the
current one on starts behind it. This is the invariant that keeps a cluster found in the bitmap
out of all blocked extents; the bitmap itself records what was handed out before.
-/

namespace OfsConvert

/-- One past the last cluster of an extent. -/
def FatExtent.stop (e : FatExtent) : ℕ := e.physicalStart + e.length

/-- The clusters of an extent in order. -/
def FatExtent.clusters (e : FatExtent) : List ℕ := List.range' e.physicalStart e.length

/-- An extent covers the clusters from its start up to its end. -/
@[simp] theorem FatExtent.mem_clusters (e : FatExtent) (c : ℕ) :
    c ∈ e.clusters ↔ e.physicalStart ≤ c ∧ c < e.stop := List.mem_range'_1

/-- The clusters of an extent depend on its start and its length. -/
theorem FatExtent.clusters_mk (k n a : ℕ) :
    (⟨k, n, a⟩ : FatExtent).clusters = List.range' a n := rfl

/-- An extent covers no cluster twice. -/
theorem FatExtent.nodup_clusters (e : FatExtent) : e.clusters.Nodup := List.nodup_range'

/-- An extent covers as many clusters as its length says. -/
@[simp] theorem FatExtent.length_clusters (e : FatExtent) : e.clusters.length = e.length :=
  List.length_range'

/-- A list of blocked extents in the order of their starts, pairwise disjoint (extents of length
0 included), none starting behind the end of the clusters. -/
structure BlockedExtents (count : ℕ) (blocked : List FatExtent) : Prop where
  ordered : blocked.Pairwise fun a b => a.stop ≤ b.physicalStart
  inside : ∀ e ∈ blocked, e.physicalStart ≤ count
  short : ∀ e ∈ blocked, e.length < 2 ^ 16
  numbers : count ≤ 2 ^ 29

/-- The sentinel behind the blocked extents. -/
def endSentinel (count : ℕ) : FatExtent := ⟨0, 1, count⟩

/-- A cluster that may be handed out: a data cluster, free in the FAT and not blocked. -/
structure Usable (g : Globals) (m₀ : Mem) (blocked : List FatExtent) (c : ℕ) : Prop where
  lower : fatStartIndex ≤ c
  upper : c < dataClusterCount g.bootSector g.metaInfo
  free : FatFree g.metaInfo m₀ c
  unblocked : ∀ e ∈ blocked, c ∉ e.clusters

/-- The invariant of the allocator over the FAT as it was in `m₀`. -/
structure AllocatorInv (g : Globals) (m₀ : Mem) (blocked : List FatExtent) (s : State) : Prop where
  extents : s.allocator.blockedExtents =
    blocked ++ [endSentinel (dataClusterCount g.bootSector g.metaInfo)]
  count : s.allocator.blockedExtentCount = blocked.length
  current : s.allocator.blockedExtentCurrent ≤ blocked.length
  passed : ∀ i < s.allocator.blockedExtentCurrent, ∀ e, blocked[i]? = some e →
    e.stop ≤ s.allocator.indexInFat
  cursor : s.allocator.indexInFat ≤ dataClusterCount g.bootSector g.metaInfo + 2 ^ 16
  free : ∀ c < dataClusterCount g.bootSector g.metaInfo, isFree s.allocationBitmap c = true →
    fatStartIndex ≤ c ∧ FatFree g.metaInfo m₀ c

/-- Only the allocator and its bitmap differ. -/
structure AllocOnly (s t : State) : Prop where
  mem : t.mem = s.mem
  stores : t.stores = s.stores
  ext4 : t.ext4 = s.ext4

/-- A step that does nothing is an allocator step. -/
theorem AllocOnly.refl (s : State) : AllocOnly s s := ⟨rfl, rfl, rfl⟩

/-- Allocator steps compose. -/
theorem AllocOnly.trans {s t u : State} (h : AllocOnly s t) (h' : AllocOnly t u) :
    AllocOnly s u :=
  ⟨h'.mem.trans h.mem, h'.stores.trans h.stores, h'.ext4.trans h.ext4⟩

/-- Behind `setUsed` a cluster is free if it was and is another one. -/
theorem isFree_setUsed (bitmap c d : ℕ) :
    isFree (setUsed bitmap d) c = (isFree bitmap c && c != d) := by
  have hbit : (1 <<< d).testBit c = (c == d) := by
    rw [Nat.shiftLeft_eq, Nat.one_mul, Nat.testBit_two_pow]
    rcases Nat.decEq c d with h | h
    · simp [h, Ne.symm h]
    · simp [h]
  simp only [isFree, setUsed, Nat.testBit_or, hbit, Bool.not_or]
  rfl

/-- Marking the clusters of a list one by one leaves free what is not in the list. -/
theorem isFree_foldl_setUsed (p : ℕ → Bool) (clusters : List ℕ) (bitmap c : ℕ) :
    isFree (clusters.foldl (fun b d => if p d then b else setUsed b d) bitmap) c =
      (isFree bitmap c && !(clusters.contains c && !p c)) := by
  induction clusters generalizing bitmap with
  | nil => simp
  | cons d rest ih =>
    rw [List.foldl_cons, ih, List.contains_cons]
    by_cases hcd : c = d
    · subst hcd
      by_cases hp : p c = true <;> simp [hp, isFree_setUsed]
    · have hne : (c == d) = false := by simpa using hcd
      by_cases hp : p d = true <;> simp [hp, isFree_setUsed, hne, bne]

/-- The initial bitmap marks the two reserved numbers and every cluster in use. -/
theorem isFree_createAllocationBitmap (g : Globals) (m : Mem) (c : ℕ)
    (hc : c < dataClusterCount g.bootSector g.metaInfo) :
    isFree (createAllocationBitmap g m) c = true ↔ fatStartIndex ≤ c ∧ FatFree g.metaInfo m c := by
  have hreserved : isFree ((List.range fatStartIndex).foldl setUsed 0) c = decide (2 ≤ c) := by
    have h := isFree_foldl_setUsed (fun _ => false) (List.range fatStartIndex) 0 c
    simp only [Bool.false_eq_true, if_false] at h
    rw [h, Bool.eq_iff_iff]
    simp only [isFree, fatStartIndex, List.contains_eq_mem, List.mem_range, Nat.zero_testBit,
      Bool.not_false, Bool.true_and, Bool.and_true, Bool.not_eq_true', decide_eq_false_iff_not,
      decide_eq_true_eq]
    omega
  rw [createAllocationBitmap,
    isFree_foldl_setUsed (fun d => isFreeCluster (fatEntry g.metaInfo m d)), hreserved]
  simp only [fatStartIndex, FatFree, Bool.and_eq_true, decide_eq_true_eq, Bool.not_eq_true',
    Bool.and_eq_false_iff, List.contains_eq_mem, decide_eq_false_iff_not, List.mem_range'_1,
    Bool.not_eq_false']
  constructor
  · rintro ⟨hlow, h | h⟩
    · omega
    · exact ⟨hlow, h⟩
  · rintro ⟨hlow, h⟩
    exact ⟨hlow, Or.inr h⟩

/-- Starts below 2³¹ compare as signed 32-bit differences. -/
theorem extentSortLe_iff {a b : FatExtent} (ha : a.physicalStart < 2 ^ 31)
    (hb : b.physicalStart < 2 ^ 31) :
    extentSortLe a b = true ↔ a.physicalStart ≤ b.physicalStart := by
  unfold extentSortLe sub32
  rw [Bool.or_eq_true, beq_iff_eq, decide_eq_true_iff]
  omega

section

variable {g : Globals} {m₀ : Mem} {blocked : List FatExtent}

/-- Sorting leaves a list in order as it is. -/
theorem BlockedExtents.mergeSort_eq {count : ℕ} (h : BlockedExtents count blocked) :
    blocked.mergeSort extentSortLe = blocked := by
  apply List.mergeSort_of_pairwise
  refine h.ordered.imp_of_mem fun {a b} ha hb hab => ?_
  have hbound := h.numbers
  have hna := h.inside a ha
  have hnb := h.inside b hb
  unfold FatExtent.stop at hab
  exact (extentSortLe_iff (by omega) (by omega)).mpr (by omega)

/-- `init_extent_allocator` establishes the invariant. -/
theorem initExtentAllocator_spec (s : State)
    (hb : BlockedExtents (dataClusterCount g.bootSector g.metaInfo) blocked) :
    wp (initExtentAllocator g
        (blocked ++ [endSentinel (dataClusterCount g.bootSector g.metaInfo)]) blocked.length)
      (fun _ t => AllocatorInv g s.mem blocked t ∧ AllocOnly s t ∧
        t.allocationBitmap = createAllocationBitmap g s.mem)
      (fun _ _ => False) s := by
  simp only [initExtentAllocator, wp_bind, wp_getMem, wp_modify, List.take_left, List.drop_left,
    hb.mergeSort_eq]
  refine ⟨⟨rfl, rfl, Nat.zero_le _, fun i hi => absurd hi (Nat.not_lt_zero i), Nat.zero_le _, ?_⟩,
    ⟨rfl, rfl, rfl⟩, trivial⟩
  intro c hc hfree
  exact (isFree_createAllocationBitmap g s.mem c hc).mp hfree

/-- The extent under the cursor starts no later than any blocked extent still ahead. -/
theorem AllocatorInv.current_extent {s : State} (h : AllocatorInv g m₀ blocked s)
    (hb : BlockedExtents (dataClusterCount g.bootSector g.metaInfo) blocked) :
    ∃ e, s.allocator.blockedExtents[s.allocator.blockedExtentCurrent]? = some e ∧
      e.physicalStart ≤ dataClusterCount g.bootSector g.metaInfo ∧ e.length < 2 ^ 16 ∧
      (∀ i, s.allocator.blockedExtentCurrent ≤ i → ∀ d, blocked[i]? = some d →
        e.physicalStart ≤ d.physicalStart) ∧
      (∀ i < s.allocator.blockedExtentCurrent, ∀ d, blocked[i]? = some d →
        d.stop ≤ e.physicalStart ∨ s.allocator.blockedExtentCurrent = blocked.length) ∧
      (s.allocator.blockedExtentCurrent < blocked.length →
        blocked[s.allocator.blockedExtentCurrent]? = some e) := by
  rw [h.extents]
  rcases Nat.lt_or_ge s.allocator.blockedExtentCurrent blocked.length with hlt | hge
  · have hget := List.getElem?_eq_getElem hlt
    have hmem := List.getElem_mem hlt
    refine ⟨blocked[s.allocator.blockedExtentCurrent], ?_, hb.inside _ hmem, hb.short _ hmem,
      ?_, ?_, fun _ => hget⟩
    · rw [List.getElem?_append_left hlt, hget]
    · intro i hi d hd
      obtain ⟨hlen, rfl⟩ := List.getElem?_eq_some_iff.mp hd
      rcases Nat.eq_or_lt_of_le hi with heq | hlt'
      · simp [heq]
      · have := List.pairwise_iff_getElem.mp hb.ordered _ _ hlt hlen hlt'
        unfold FatExtent.stop at this
        omega
    · intro i hi d hd
      obtain ⟨hlen, rfl⟩ := List.getElem?_eq_some_iff.mp hd
      exact Or.inl (List.pairwise_iff_getElem.mp hb.ordered _ _ hlen hlt hi)
  · have heq : s.allocator.blockedExtentCurrent = blocked.length := le_antisymm h.current hge
    refine ⟨endSentinel (dataClusterCount g.bootSector g.metaInfo), ?_, le_rfl,
      by norm_num [endSentinel], ?_, fun _ _ _ _ => Or.inr heq, fun hlt => by omega⟩
    · rw [heq]
      simp
    · intro i hi d hd
      obtain ⟨hlen, -⟩ := List.getElem?_eq_some_iff.mp hd
      omega

/-- One step of the cursor: it keeps the invariant, and the cluster it approves is the next
one and usable. -/
theorem canBeUsed_spec {s : State} (h : AllocatorInv g m₀ blocked s)
    (hb : BlockedExtents (dataClusterCount g.bootSector g.metaInfo) blocked) :
    wp canBeUsed
      (fun usable t => AllocatorInv g m₀ blocked t ∧ AllocOnly s t ∧
        t.allocationBitmap = s.allocationBitmap ∧
        (usable = true → t.allocator.indexInFat = s.allocator.indexInFat + 1 ∧
          Usable g m₀ blocked t.allocator.indexInFat ∧
          isFree s.allocationBitmap t.allocator.indexInFat = true))
      (fun e t => e = .exit fsIsFullMessage ∧ AllocOnly s t) s := by
  obtain ⟨e, hget, hstart, hshort, hahead, hbehind, hcur⟩ := h.current_extent hb
  have hnum := hb.numbers
  have hcursor := h.cursor
  have hindex : u32 (s.allocator.indexInFat + 1) = s.allocator.indexInFat + 1 :=
    u32_of_lt (by omega)
  have hstop : u32 (e.physicalStart + e.length) = e.stop := u32_of_lt (by omega)
  simp only [canBeUsed, wp_bind, wp_get, hget, hindex, hstop]
  refine wp_ite (fun hlt => ?_) (fun hge => ?_)
  · -- the cursor stays before the current blocked extent
    simp only [wp_bind, wp_set, wp_pure]
    refine ⟨⟨h.extents, h.count, h.current, ?_, by dsimp only; omega, h.free⟩,
      ⟨rfl, rfl, rfl⟩, trivial, ?_⟩
    · intro i hi d hd
      exact (h.passed i hi d hd).trans (Nat.le_succ _)
    · intro hfree
      have hin := h.free _ (by omega) hfree
      refine ⟨trivial, ⟨hin.1, by omega, hin.2, ?_⟩, hfree⟩
      intro d hd hmem
      obtain ⟨i, hi, rfl⟩ := List.getElem_of_mem hd
      have hsome := List.getElem?_eq_getElem hi
      rw [FatExtent.mem_clusters] at hmem
      rcases Nat.lt_or_ge i s.allocator.blockedExtentCurrent with hlti | hgei
      · have := h.passed i hlti _ hsome
        omega
      · have := hahead i hgei _ hsome
        omega
  · -- the cursor jumps behind the current blocked extent
    simp only [wp_bind, wp_set]
    refine wp_ite (fun hfull => ?_) (fun hfull => ?_)
    · rw [wp_throw]
      exact ⟨rfl, rfl, rfl, rfl⟩
    · have hroom : s.allocator.blockedExtentCurrent + 1 ≤ blocked.length := by
        simpa [fsIsFull, h.count] using hfull
      rw [wp_pure]
      refine ⟨⟨h.extents, h.count, hroom, ?_, ?_, h.free⟩, ⟨rfl, rfl, rfl⟩, rfl,
        fun hfalse => absurd hfalse (by decide)⟩
      · intro i hi d hd
        dsimp only at hi ⊢
        rcases Nat.lt_succ_iff_lt_or_eq.mp hi with hlt | rfl
        · have hbefore := hbehind i hlt d hd
          unfold FatExtent.stop at *
          omega
        · rw [hcur (by omega), Option.some_inj] at hd
          rw [hd]
      · dsimp only
        unfold FatExtent.stop
        omega

/-- Searching for a usable cluster changes nothing but the cursor. -/
theorem findUsable_spec (hb : BlockedExtents (dataClusterCount g.bootSector g.metaInfo) blocked)
    (fuel : ℕ) {s : State} (h : AllocatorInv g m₀ blocked s) :
    wp (findUsable fuel)
      (fun _ t => AllocatorInv g m₀ blocked t ∧ AllocOnly s t ∧
        t.allocationBitmap = s.allocationBitmap ∧
        Usable g m₀ blocked t.allocator.indexInFat ∧
        isFree s.allocationBitmap t.allocator.indexInFat = true)
      (fun e t => NoFault e t ∧ AllocOnly s t) s := by
  induction fuel generalizing s with
  | zero => exact ⟨nofun, AllocOnly.refl s⟩
  | succ fuel ih =>
    rw [findUsable, wp_bind]
    refine wp_mono (canBeUsed_spec h hb) ?_ (fun _ _ ht => ⟨by simp [NoFault, ht.1], ht.2⟩)
    rintro usable t ⟨hinv, honly, hbitmap, husable⟩
    refine wp_ite (fun htrue => ?_) (fun _ => ?_)
    · rw [wp_pure]
      exact ⟨hinv, honly, hbitmap, (husable htrue).2⟩
    · refine wp_mono (ih hinv) ?_ (fun _ _ hu => ⟨hu.1, honly.trans hu.2⟩)
      rintro _ u ⟨hinv', honly', hbitmap', hrest⟩
      exact ⟨hinv', honly.trans honly', hbitmap'.trans hbitmap, hbitmap ▸ hrest⟩

/-- Marking the cluster under the cursor keeps the invariant. -/
theorem AllocatorInv.setUsed {s : State} (h : AllocatorInv g m₀ blocked s) (d : ℕ) :
    AllocatorInv g m₀ blocked { s with allocationBitmap := setUsed s.allocationBitmap d } := by
  refine ⟨h.extents, h.count, h.current, h.passed, h.cursor, ?_⟩
  intro c hc hfree
  rw [isFree_setUsed, Bool.and_eq_true] at hfree
  exact h.free c hc hfree.1

/-- What `allocate_extent` returns: clusters that were usable and not handed out before, and
exactly these are marked. -/
structure Allocated (g : Globals) (m₀ : Mem) (blocked : List FatExtent) (s t : State)
    (e : FatExtent) : Prop where
  logicalStart : e.logicalStart = 0
  positive : 1 ≤ e.length
  usable : ∀ c ∈ e.clusters, Usable g m₀ blocked c
  fresh : ∀ c ∈ e.clusters, isFree s.allocationBitmap c = true
  marked : ∀ c, isFree t.allocationBitmap c = (isFree s.allocationBitmap c && !e.clusters.contains c)

/-- Growing keeps the extent a run of approved clusters that ends under the cursor. -/
theorem growExtent_spec (hb : BlockedExtents (dataClusterCount g.bootSector g.metaInfo) blocked)
    {maxLength : ℕ} (hmax : maxLength < 2 ^ 16) (fuel : ℕ) {s₀ s : State} {e : FatExtent}
    (h : AllocatorInv g m₀ blocked s) (hfrom : AllocOnly s₀ s) (hlen : e.length ≤ maxLength)
    (hend : e.stop = s.allocator.indexInFat + 1) (halloc : Allocated g m₀ blocked s₀ s e) :
    wp (growExtent maxLength fuel e)
      (fun e' t => AllocatorInv g m₀ blocked t ∧ AllocOnly s₀ t ∧ e'.length ≤ maxLength ∧
        Allocated g m₀ blocked s₀ t e')
      (fun e t => NoFault e t ∧ AllocOnly s₀ t) s := by
  induction fuel generalizing s e with
  | zero => exact ⟨nofun, hfrom⟩
  | succ fuel ih =>
    rw [growExtent]
    refine wp_ite (fun hshort => ?_) (fun _ => ⟨h, hfrom, hlen, halloc⟩)
    rw [wp_bind]
    refine wp_mono (canBeUsed_spec h hb) ?_ (fun _ _ ht => ⟨by simp [NoFault, ht.1], hfrom.trans ht.2⟩)
    rintro usable t ⟨hinv, honly, hbitmap, husable⟩
    refine wp_ite (fun htrue => ?_) (fun _ => ?_)
    · obtain ⟨hnext, hus, hfree⟩ := husable htrue
      simp only [takeCurrent, wp_bind, wp_get, wp_set, wp_pure]
      have hcur : t.allocator.indexInFat = e.stop := by omega
      have hbound := hus.upper
      have hnum := hb.numbers
      have hlength : u16 (sub32 t.allocator.indexInFat e.physicalStart + 1) = e.length + 1 := by
        rw [hcur, FatExtent.stop, sub32_of_le (by omega) (by unfold FatExtent.stop at hcur; omega),
          Nat.add_sub_cancel_left, u16_of_lt (by omega)]
      rw [hlength]
      have hmem : ∀ c, c ∈ ({ e with length := e.length + 1 } : FatExtent).clusters ↔
          c ∈ e.clusters ∨ c = t.allocator.indexInFat := by
        intro c
        simp only [FatExtent.mem_clusters, FatExtent.stop] at hcur ⊢
        have := halloc.positive
        omega
      have hnew : t.allocator.indexInFat ∉ e.clusters := by
        rw [FatExtent.mem_clusters]
        omega
      have hbefore := halloc.marked t.allocator.indexInFat
      rw [hfree, eq_comm, Bool.and_eq_true] at hbefore
      refine ih (hinv.setUsed _) (hfrom.trans ⟨honly.mem, honly.stores, honly.ext4⟩)
        (by dsimp only; omega) ?_ ?_
      · unfold FatExtent.stop at hcur ⊢
        dsimp only
        omega
      · refine ⟨halloc.logicalStart, by simp, ?_, ?_, ?_⟩
        · intro c hc
          rcases (hmem c).mp hc with hold | rfl
          · exact halloc.usable c hold
          · exact hus
        · intro c hc
          rcases (hmem c).mp hc with hold | rfl
          · exact halloc.fresh c hold
          · exact hbefore.1
        · intro c
          have hcontains : ({ e with length := e.length + 1 } : FatExtent).clusters.contains c =
              (e.clusters.contains c || c == t.allocator.indexInFat) := by
            rw [Bool.eq_iff_iff]
            simpa using hmem c
          rw [hcontains, isFree_setUsed, hbitmap, halloc.marked c, Bool.not_or, bne, Bool.and_assoc]
    · rw [wp_pure]
      refine ⟨hinv, hfrom.trans honly, hlen, halloc.logicalStart, halloc.positive, halloc.usable,
        halloc.fresh, ?_⟩
      rw [hbitmap]
      exact halloc.marked

/-- One call of `allocate_extent`. -/
theorem allocateExtent_spec
    (hb : BlockedExtents (dataClusterCount g.bootSector g.metaInfo) blocked)
    {maxLength : ℕ} (hpos : 1 ≤ maxLength) (hmax : maxLength < 2 ^ 16) (fuel : ℕ) {s : State}
    (h : AllocatorInv g m₀ blocked s) :
    wp (allocateExtent fuel maxLength)
      (fun e t => AllocatorInv g m₀ blocked t ∧ AllocOnly s t ∧ e.length ≤ maxLength ∧
        Allocated g m₀ blocked s t e)
      (fun e t => NoFault e t ∧ AllocOnly s t) s := by
  rw [allocateExtent, wp_bind]
  refine wp_mono_ok (findUsable_spec hb fuel h) ?_
  rintro _ t ⟨hinv, honly, hbitmap, hus, hfree⟩
  simp only [takeCurrent, wp_bind, wp_get, wp_set, wp_pure]
  have hmem : ∀ c, c ∈ (⟨0, 1, t.allocator.indexInFat⟩ : FatExtent).clusters ↔
      c = t.allocator.indexInFat := by
    intro c
    simp [FatExtent.clusters]
  refine growExtent_spec hb hmax fuel (hinv.setUsed _) ⟨honly.mem, honly.stores, honly.ext4⟩ hpos
    rfl ?_
  refine ⟨rfl, le_rfl, ?_, ?_, ?_⟩
  · intro c hc
    rw [(hmem c).mp hc]
    exact hus
  · intro c hc
    rw [(hmem c).mp hc]
    exact hfree
  · intro c
    have hcontains : (⟨0, 1, t.allocator.indexInFat⟩ : FatExtent).clusters.contains c =
        (c == t.allocator.indexInFat) := by
      rw [Bool.eq_iff_iff]
      simpa using hmem c
    rw [hcontains, isFree_setUsed, hbitmap]
    rfl

/-- A sequence of calls of `allocate_extent` with the given maximum lengths. -/
def allocateExtents (fuel : ℕ) : List ℕ → Prog (List FatExtent)
  | [] => pure []
  | maxLength :: rest => do
    let extent ← allocateExtent fuel maxLength
    let extents ← allocateExtents fuel rest
    pure (extent :: extents)

/-- What a sequence of calls returns, and that it marks exactly that. -/
structure AllocatedAll (g : Globals) (m₀ : Mem) (blocked : List FatExtent) (s : State)
    (lengths : List ℕ) (extents : List FatExtent) : Prop where
  lengths : List.Forall₂ (fun e n => 1 ≤ e.length ∧ e.length ≤ n) extents lengths
  usable : ∀ c ∈ extents.flatMap FatExtent.clusters, Usable g m₀ blocked c
  fresh : ∀ c ∈ extents.flatMap FatExtent.clusters, isFree s.allocationBitmap c = true
  distinct : (extents.flatMap FatExtent.clusters).Nodup

/-- Any number of calls hands out usable clusters, each of them once. -/
theorem allocateExtents_spec
    (hb : BlockedExtents (dataClusterCount g.bootSector g.metaInfo) blocked) (fuel : ℕ)
    (lengths : List ℕ) (hlengths : ∀ n ∈ lengths, 1 ≤ n ∧ n < 2 ^ 16) {s : State}
    (h : AllocatorInv g m₀ blocked s) :
    wp (allocateExtents fuel lengths)
      (fun extents _ => AllocatedAll g m₀ blocked s lengths extents) (fun _ _ => True) s := by
  induction lengths generalizing s with
  | nil => exact ⟨List.Forall₂.nil, by simp, by simp, by simp⟩
  | cons n rest ih =>
    obtain ⟨hpos, hmax⟩ := hlengths n (by simp)
    simp only [allocateExtents, wp_bind, wp_pure]
    refine wp_mono (allocateExtent_spec hb hpos hmax fuel h) ?_ (fun _ _ _ => trivial)
    rintro e t ⟨hinv, -, hlen, halloc⟩
    refine wp_mono_ok (ih (fun k hk => hlengths k (by simp [hk])) hinv) ?_
    intro extents _ hrest
    -- a later cluster is free after the first call, so the first call did not return it
    have hfree : ∀ c ∈ extents.flatMap FatExtent.clusters,
        isFree s.allocationBitmap c = true ∧ c ∉ e.clusters := by
      intro c hc
      have := hrest.fresh c hc
      rw [halloc.marked c, Bool.and_eq_true, Bool.not_eq_true', List.contains_eq_mem,
        decide_eq_false_iff_not] at this
      exact this
    refine ⟨List.Forall₂.cons ⟨halloc.positive, hlen⟩ hrest.lengths, ?_, ?_, ?_⟩
    · intro c hc
      rw [List.flatMap_cons, List.mem_append] at hc
      exact hc.elim (halloc.usable c) (hrest.usable c)
    · intro c hc
      rw [List.flatMap_cons, List.mem_append] at hc
      exact hc.elim (halloc.fresh c) (fun hc => (hfree c hc).1)
    · rw [List.flatMap_cons, List.nodup_append]
      refine ⟨e.nodup_clusters, hrest.distinct, ?_⟩
      rintro c hc d hd rfl
      exact (hfree c hd).2 hc

end

/-- Every extent that a sequence of `allocate_extent` calls returns is a run of data clusters of
at most the requested length, free in the FAT, outside every blocked extent and disjoint from
every extent returned before. -/
theorem allocateExtents_safe (g : Globals) (blocked : List FatExtent)
    (hb : BlockedExtents (dataClusterCount g.bootSector g.metaInfo) blocked) (fuel : ℕ)
    (lengths : List ℕ) (hlengths : ∀ n ∈ lengths, 1 ≤ n ∧ n < 2 ^ 16) (s : State) :
    wp (do
        initExtentAllocator g
          (blocked ++ [endSentinel (dataClusterCount g.bootSector g.metaInfo)]) blocked.length
        allocateExtents fuel lengths)
      (fun extents _ =>
        List.Forall₂ (fun e n => 1 ≤ e.length ∧ e.length ≤ n) extents lengths ∧
        (∀ e ∈ extents, ∀ c ∈ e.clusters,
          fatStartIndex ≤ c ∧ c < dataClusterCount g.bootSector g.metaInfo ∧
          FatFree g.metaInfo s.mem c ∧ ∀ b ∈ blocked, c ∉ b.clusters) ∧
        (extents.flatMap FatExtent.clusters).Nodup)
      (fun _ _ => True) s := by
  rw [wp_bind]
  refine wp_mono (initExtentAllocator_spec s hb) ?_ (fun _ _ h => h.elim)
  rintro _ t ⟨hinv, -, -⟩
  refine wp_mono_ok (allocateExtents_spec hb fuel lengths hlengths hinv) ?_
  intro extents _ hall
  refine ⟨hall.lengths, ?_, hall.distinct⟩
  intro e he c hc
  have hus := hall.usable c (List.mem_flatMap.mpr ⟨e, he, hc⟩)
  exact ⟨hus.lower, hus.upper, hus.free, hus.unblocked⟩

/-- A dummy, the metadata in front of the data area and a later group. -/
def sampleBlocked : List FatExtent := [⟨0, 0, 0⟩, ⟨0, 2, 2⟩, ⟨0, 10, 50⟩]

/-- Three calls on an empty FAT of 118 data clusters. -/
theorem allocateExtents_safe_sample :
    wp (do
        initExtentAllocator (sampleGlobals 400)
          (sampleBlocked ++ [endSentinel (dataClusterCount (sampleGlobals 400).bootSector
            (sampleGlobals 400).metaInfo)]) sampleBlocked.length
        allocateExtents 1000 [1, 60, 5])
      (fun extents _ =>
        List.Forall₂ (fun e n => 1 ≤ e.length ∧ e.length ≤ n) extents [1, 60, 5] ∧
        (∀ e ∈ extents, ∀ c ∈ e.clusters,
          fatStartIndex ≤ c ∧
          c < dataClusterCount (sampleGlobals 400).bootSector (sampleGlobals 400).metaInfo ∧
          FatFree (sampleGlobals 400).metaInfo (fun _ => 0) c ∧
          ∀ b ∈ sampleBlocked, c ∉ b.clusters) ∧
        (extents.flatMap FatExtent.clusters).Nodup)
      (fun _ _ => True) { mem := fun _ => 0 } := by
  have hcount : dataClusterCount (sampleGlobals 400).bootSector (sampleGlobals 400).metaInfo = 120 :=
    by decide
  have hb : BlockedExtents (dataClusterCount (sampleGlobals 400).bootSector
      (sampleGlobals 400).metaInfo) sampleBlocked := by
    rw [hcount]
    exact ⟨by decide, by decide, by decide, by norm_num⟩
  exact allocateExtents_safe (sampleGlobals 400) sampleBlocked hb 1000 [1, 60, 5] (by decide)
    { mem := fun _ => 0 }

end OfsConvert
