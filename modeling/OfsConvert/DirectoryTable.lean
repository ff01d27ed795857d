import OfsConvert.FatTree
import OfsConvert.StreamReader

/-!
# Reading a directory table

The table of a directory is read through the extents that the stream holds for it.
`nextDentry` returns its live entries one by one, whichever cluster they stand in.
-/

namespace OfsConvert

/-- The entries of a directory that is read through recorded extents. -/
structure DirAt (g : Globals) (pages : List ℕ) (head : Pos) (es : List FatExtent)
    (table : List FatDentry) (m : Mem) : Prop where
  extents : ExtentsAt g pages m head es
  data : ∀ c ∈ physical es, DataCluster g c
  table : tableOf g m (physical es) = table

/-- The addresses of the entries that a table state is still to visit. -/
inductive TableAt (g : Globals) (pages : List ℕ) (head : Pos) (es : List FatExtent) :
    ClusterReadState → List ℕ → Prop where
  | done {st : ClusterReadState} (hnull : st.currentCluster = 0) (hzero : st.clusterDentry = 0)
      (hbehind : BehindExtents g pages head es st.iterator.extentStream) :
      TableAt g pages head es st []
  | inCluster {st : ClusterReadState} (c : ℕ) (cs : List ℕ) (hc : c ∈ physical es)
      (hcs : ∀ d ∈ cs, d ∈ physical es)
      (hcurrent : st.currentCluster = clusterStart g.metaInfo c)
      (hdentry : st.clusterDentry ≤ g.metaInfo.dentriesPerCluster)
      (hiter : IterAt g pages head es st.iterator cs) :
      TableAt g pages head es st
        ((entryAddresses g c).drop st.clusterDentry ++ cs.flatMap (entryAddresses g))

/-- A table state is still to return the given live entries. -/
def RestAt (g : Globals) (pages : List ℕ) (head : Pos) (es : List FatExtent)
    (table : List FatDentry) (st : ClusterReadState) (entries : List FatDentry) : Prop :=
  ∃ addresses k, TableAt g pages head es st addresses ∧
    addresses = ((physical es).flatMap (entryAddresses g)).drop k ∧
    entries = liveEntries (table.drop k)

/-- The entry at an address of the table. -/
def EntryAt (g : Globals) (es : List FatExtent) (table : List FatDentry) (p : ℕ)
    (d : FatDentry) : Prop :=
  ∃ k : ℕ, ((physical es).flatMap (entryAddresses g))[k]? = some p ∧ table[k]? = some d

/-- Those of the addresses where a live entry stands. -/
def liveAddresses (m : Mem) (addresses : List ℕ) : List ℕ :=
  addresses.filter fun p => isLive (dentryAt m p)

/-- What `next_dentry` returns: the address of the next live entry, or 0. -/
def Returns (g : Globals) (es : List FatExtent) (table : List FatDentry) (p : ℕ) :
    List FatDentry → Prop
  | [] => p = 0
  | d :: _ => p ≠ 0 ∧ EntryAt g es table p d

section

variable {g : Globals} {pages : List ℕ} {head : Pos} {es : List FatExtent}
  {table : List FatDentry} {s : State} {E : Halt → State → Prop}

/-- A cluster has a fixed number of entries. -/
@[simp] theorem length_entryAddresses (g : Globals) (c : ℕ) :
    (entryAddresses g c).length = g.metaInfo.dentriesPerCluster := by simp [entryAddresses]

/-- A cluster holds at least one entry. -/
theorem Accepted.dentriesPerCluster_pos (hg : Accepted g) :
    0 < g.metaInfo.dentriesPerCluster := by
  have hsize := hg.clusterSize_ge
  rw [hg.metaInfo_eq.2.2.2.1]
  exact Nat.div_pos (by unfold sizeofFatDentry; omega) (by decide)

/-- The entries of a cluster lie inside it. -/
theorem Accepted.entry_inside (hg : Accepted g) {i : ℕ}
    (hi : i < g.metaInfo.dentriesPerCluster) :
    sizeofFatDentry * i + sizeofFatDentry ≤ g.metaInfo.clusterSize := by
  rw [hg.metaInfo_eq.2.2.2.1] at hi
  have hmul := Nat.mul_le_mul_left sizeofFatDentry (Nat.succ_le_of_lt hi)
  have hdiv := Nat.mul_div_le g.metaInfo.clusterSize sizeofFatDentry
  rw [Nat.succ_eq_add_one, Nat.mul_add, Nat.mul_one] at hmul
  omega

/-- The entry at an address reads as the table says. -/
theorem DirAt.dentryAt_eq {m : Mem} (h : DirAt g pages head es table m) {p : ℕ} {d : FatDentry}
    (hentry : EntryAt g es table p d) : dentryAt m p = d := by
  obtain ⟨k, hp, hd⟩ := hentry
  rw [← h.table, tableOf, List.getElem?_map, hp, Option.map_some, Option.some_inj] at hd
  exact hd

/-- `init_read_state` opens the next cluster. -/
theorem initReadState_spec (hg : Accepted g) (h : DirAt g pages head es table s.mem) (fuel : ℕ)
    (hfuel : E .fuel s ∨ 1 < fuel) {it : ExtentIterator} {cs : List ℕ}
    (hit : IterAt g pages head es it cs) (hcs : ∀ d ∈ cs, d ∈ physical es) :
    wp (initReadState g fuel it)
      (fun st t => t = s ∧ st.clusterDentry = 0 ∧
        TableAt g pages head es st (cs.flatMap (entryAddresses g)))
      E s := by
  rw [initReadState, wp_bind]
  refine wp_mono_ok (nextClusterNo_spec hg h.extents fuel (hfuel.imp_right Or.inl) hit) ?_
  intro x t hx
  obtain ⟨ht, hcluster, hit', hbehind⟩ := hx
  simp only [wp_pure, hcluster]
  cases cs with
  | nil =>
    refine ⟨ht, trivial, ?_⟩
    simp only [List.headD_nil, ne_eq, not_true_eq_false, if_false, List.flatMap_nil]
    exact TableAt.done rfl rfl (hbehind rfl)
  | cons c cs =>
    have hc := hcs c (by simp)
    have hlow : 2 ≤ c := (h.data c hc).1
    refine ⟨ht, trivial, ?_⟩
    simp only [List.headD_cons, ne_eq, show ¬ c = 0 by omega, not_false_eq_true, if_true,
      List.flatMap_cons]
    exact @TableAt.inCluster g pages head es ⟨x.2, 0, clusterStart g.metaInfo c⟩ c cs hc
      (fun d hd => hcs d (by simp [hd])) rfl (Nat.zero_le _) hit'

/-- One round of `next_dentry` visits the next entry. -/
theorem nextDentry_round (hg : Accepted g) (h : DirAt g pages head es table s.mem) (fuel : ℕ)
    (hfuel : E .fuel s ∨ 1 < fuel) {st : ClusterReadState} {addresses : List ℕ}
    (hst : TableAt g pages head es st addresses) :
    wp (if g.metaInfo.dentriesPerCluster ≤ st.clusterDentry then initReadState g fuel st.iterator
        else pure st)
      (fun st' t => t = s ∧ TableAt g pages head es st' addresses ∧
        (st'.currentCluster ≠ 0 → st'.clusterDentry < g.metaInfo.dentriesPerCluster))
      E s := by
  have hpos := hg.dentriesPerCluster_pos
  cases hst with
  | done hnull hzero hbehind =>
    rw [if_neg (by omega), wp_pure]
    exact ⟨rfl, TableAt.done hnull hzero hbehind, fun hne => absurd hnull hne⟩
  | inCluster c cs hc hcs hcurrent hdentry hiter =>
    refine wp_ite (fun hend => ?_) (fun hmore => ?_)
    · have hnone : (entryAddresses g c).drop st.clusterDentry = [] :=
        List.drop_eq_nil_of_le (by rw [length_entryAddresses]; exact hend)
      rw [hnone, List.nil_append]
      refine wp_mono_ok (initReadState_spec hg h fuel hfuel hiter hcs) ?_
      intro st' t hst'
      exact ⟨hst'.1, hst'.2.2, fun _ => by rw [hst'.2.1]; exact hpos⟩
    · rw [wp_pure]
      exact ⟨rfl, TableAt.inCluster c cs hc hcs hcurrent hdentry hiter,
        fun _ => Nat.lt_of_not_le hmore⟩

/-- A live entry is listed. -/
theorem liveAddresses_cons_of_pos {m : Mem} {p : ℕ} (ps : List ℕ)
    (h : isLive (dentryAt m p) = true) : liveAddresses m (p :: ps) = p :: liveAddresses m ps :=
  List.filter_cons_of_pos h

/-- An entry that is not live is left out. -/
theorem liveAddresses_cons_of_neg {m : Mem} {p : ℕ} (ps : List ℕ)
    (h : isLive (dentryAt m p) = false) : liveAddresses m (p :: ps) = liveAddresses m ps :=
  List.filter_cons_of_neg (by rw [h]; decide)

/-- An entry of the table has an address. -/
theorem DirAt.address_pos (hg : Accepted g) (h : DirAt g pages head es table s.mem) {p : ℕ}
    (hp : p ∈ (physical es).flatMap (entryAddresses g)) : 0 < p := by
  obtain ⟨c, hc, hp⟩ := List.mem_flatMap.mp hp
  obtain ⟨i, -, rfl⟩ := List.mem_map.mp hp
  have hpos := hg.area.clusterStart_pos (h.data c hc)
  omega

/-- `next_dentry` returns the address of the next live entry, or 0 when the table has run out. A
round for each entry left and two for the end are enough. -/
theorem nextDentry_visits (hg : Accepted g) (h : DirAt g pages head es table s.mem) (fuel k : ℕ)
    {st : ClusterReadState} (addresses : List ℕ)
    (hall : addresses = ((physical es).flatMap (entryAddresses g)).drop k)
    (hfuel : E .fuel s ∨ addresses.length + 2 < fuel) (hst : TableAt g pages head es st addresses) :
    wp (nextDentry g fuel st)
      (fun x t => t = s ∧ x.1 = (liveAddresses s.mem addresses).headD 0 ∧
        (liveAddresses s.mem addresses = [] → x.2.currentCluster = 0) ∧
        ∃ k', TableAt g pages head es x.2 (((physical es).flatMap (entryAddresses g)).drop k') ∧
          liveAddresses s.mem (((physical es).flatMap (entryAddresses g)).drop k') =
            (liveAddresses s.mem addresses).tail)
      E s := by
  induction fuel generalizing st addresses k with
  | zero => exact hfuel.resolve_right (by omega)
  | succ fuel ih =>
    rw [nextDentry, wp_bind]
    refine wp_mono_ok (nextDentry_round hg h fuel (hfuel.imp_right (by omega)) hst) ?_
    intro st' t hround
    obtain ⟨ht, hst', hmore⟩ := hround
    subst ht
    cases hst' with
    | done hnull hzero hbehind =>
      rw [if_pos hnull, wp_pure]
      exact ⟨rfl, rfl, fun _ => hnull, k, hall ▸ TableAt.done hnull hzero hbehind, hall ▸ rfl⟩
    | inCluster c cs hc hcs hcurrent hdentry hiter =>
      have hnotNull : st'.currentCluster ≠ 0 := by
        have hpos := hg.area.clusterStart_pos (h.data c hc)
        omega
      have hlt := hmore hnotNull
      have hinside : st'.clusterDentry < (entryAddresses g c).length := by simpa using hlt
      have hget : (entryAddresses g c)[st'.clusterDentry] =
          st'.currentCluster + sizeofFatDentry * st'.clusterDentry := by
        simp [entryAddresses, hcurrent]
      rw [List.drop_eq_getElem_cons hinside, hget, List.cons_append] at hall hfuel ⊢
      have htail := congrArg List.tail hall
      rw [List.tail_cons, List.tail_drop] at htail
      have hnext : TableAt g pages head es { st' with clusterDentry := st'.clusterDentry + 1 }
          ((entryAddresses g c).drop (st'.clusterDentry + 1) ++ cs.flatMap (entryAddresses g)) :=
        @TableAt.inCluster g pages head es { st' with clusterDentry := st'.clusterDentry + 1 } c cs
          hc hcs hcurrent hlt hiter
      rw [if_neg hnotNull]
      simp only [wp_bind, wp_getMem]
      refine wp_ite (fun hskip => ?_) (fun hlive => ?_)
      · have hdead : isLive (dentryAt t.mem (st'.currentCluster +
            sizeofFatDentry * st'.clusterDentry)) = false := by rw [isLive, hskip]; rfl
        rw [liveAddresses_cons_of_neg _ hdead]
        rw [List.length_cons] at hfuel
        exact ih (k + 1) _ htail (hfuel.imp_right (by omega)) hnext
      · have halive : isLive (dentryAt t.mem (st'.currentCluster +
            sizeofFatDentry * st'.clusterDentry)) = true := by
          rw [isLive, Bool.not_eq_true']
          simpa using hlive
        rw [liveAddresses_cons_of_pos _ halive, wp_pure]
        exact ⟨rfl, rfl, fun hnone => absurd hnone (List.cons_ne_nil _ _), k + 1, htail ▸ hnext,
          htail ▸ rfl⟩

/-- `next_dentry` returns the next live entry and its address, or 0. -/
theorem nextDentry_spec (hg : Accepted g) (h : DirAt g pages head es table s.mem) (fuel : ℕ)
    {st : ClusterReadState} {entries : List FatDentry}
    (hfuel : E .fuel s ∨ table.length + 2 < fuel)
    (hst : RestAt g pages head es table st entries) :
    wp (nextDentry g fuel st)
      (fun x t => t = s ∧ RestAt g pages head es table x.2 entries.tail ∧
        Returns g es table x.1 entries)
      E s := by
  obtain ⟨addresses, k, htable, hall, hentries⟩ := hst
  have hlive : ∀ l, liveEntries (l.map (dentryAt s.mem)) =
      (liveAddresses s.mem l).map (dentryAt s.mem) := fun l => List.filter_map
  rw [← h.table, tableOf, ← List.map_drop, ← hall, hlive] at hentries
  have hlength : addresses.length ≤ table.length := by
    rw [hall, ← h.table, tableOf, List.length_map, List.length_drop]
    exact Nat.sub_le _ _
  refine wp_mono_ok (nextDentry_visits hg h fuel k _ hall (hfuel.imp_right (by omega)) htable) ?_
  intro x t hx
  obtain ⟨rfl, hvalue, -, k', htable', htail⟩ := hx
  refine ⟨rfl, ⟨_, k', htable', rfl, ?_⟩, ?_⟩
  · rw [hentries, ← h.table, tableOf, ← List.map_drop, hlive, htail, List.map_tail]
  · cases hcase : liveAddresses t.mem addresses with
    | nil =>
      rw [hcase] at hentries hvalue
      rw [hentries]
      exact hvalue
    | cons p ps =>
      rw [hcase] at hentries hvalue
      have hmem : p ∈ (physical es).flatMap (entryAddresses g) := by
        have hp : p ∈ addresses := List.mem_of_mem_filter (hcase ▸ List.mem_cons_self)
        rw [hall] at hp
        exact List.mem_of_mem_drop hp
      obtain ⟨i, hi⟩ := List.mem_iff_getElem?.mp hmem
      rw [hentries]
      have hpos := h.address_pos hg hmem
      refine ⟨by rw [hvalue]; exact hpos.ne', i, hvalue ▸ hi, ?_⟩
      rw [← h.table, tableOf, List.getElem?_map, hi]
      rfl

end

end OfsConvert
