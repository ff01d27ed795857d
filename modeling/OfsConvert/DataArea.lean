import OfsConvert.AllocatorSafety

/-!
# The data area and its protected bytes

Clusters occupy disjoint ranges behind the reserved sectors. Until the ext4 metadata is written
the bytes in front of the data area and those of every cluster in use are protected: stores go
to clusters that the FAT marks free.
-/

namespace OfsConvert

/-- The numbers of data clusters. -/
def DataCluster (g : Globals) (c : ℕ) : Prop :=
  fatStartIndex ≤ c ∧ c < dataClusterCount g.bootSector g.metaInfo

/-- Whether a cluster is in the data area can be computed. -/
instance (g : Globals) (c : ℕ) : Decidable (DataCluster g c) :=
  inferInstanceAs (Decidable (_ ∧ _))

/-- The addresses of a cluster. -/
def InCluster (g : Globals) (c a : ℕ) : Prop :=
  clusterStart g.metaInfo c ≤ a ∧ a < clusterStart g.metaInfo c + g.metaInfo.clusterSize

/-- A byte of a cluster that is free in the FAT. -/
def FreeByte (g : Globals) (m₀ : Mem) (a : ℕ) : Prop :=
  ∃ c, DataCluster g c ∧ FatFree g.metaInfo m₀ c ∧ InCluster g c a

/-- A byte in front of the data area or of a cluster in use. -/
def Protected (g : Globals) (m₀ : Mem) (a : ℕ) : Prop :=
  a < g.metaInfo.dataStart ∨
    ∃ c, DataCluster g c ∧ ¬ FatFree g.metaInfo m₀ c ∧ InCluster g c a

/-- Clusters that the allocator may use are in the data area. -/
theorem Usable.dataCluster {g : Globals} {m₀ : Mem} {blocked : List FatExtent} {c : ℕ}
    (h : Usable g m₀ blocked c) : DataCluster g c := ⟨h.lower, h.upper⟩

/-- Clusters with room for the link and a header of a stream page, all of them at 64-bit
addresses. -/
structure ClusterArea (g : Globals) : Prop where
  room : 16 ≤ g.metaInfo.clusterSize
  mapped : 0 < g.metaInfo.dataStart
  addressable : g.metaInfo.dataStart +
    (dataClusterCount g.bootSector g.metaInfo - fatStartIndex) * g.metaInfo.clusterSize ≤ 2 ^ 64

namespace ClusterArea

variable {g : Globals}

/-- The address of a data cluster, counted from the first one. -/
theorem start_eq {c : ℕ} (hc : DataCluster g c) :
    clusterStart g.metaInfo c = g.metaInfo.dataStart + (c - 2) * g.metaInfo.clusterSize := by
  have hcount : dataClusterCount g.bootSector g.metaInfo < 2 ^ 32 := u32_lt _
  have hlow : 2 ≤ c := hc.1
  rw [clusterStart, fatStartIndex, sub32_of_le hlow (hc.2.trans hcount)]

/-- The data clusters are behind the reserved sectors. -/
theorem dataStart_le {c : ℕ} (hc : DataCluster g c) :
    g.metaInfo.dataStart ≤ clusterStart g.metaInfo c := by
  rw [start_eq hc]
  exact Nat.le_add_right _ _

variable (hg : ClusterArea g)
include hg

/-- No cluster of the data area is at address zero. -/
theorem clusterStart_pos {c : ℕ} (hc : DataCluster g c) : 0 < clusterStart g.metaInfo c :=
  hg.mapped.trans_le (dataStart_le hc)

/-- The clusters end inside the addressable range. -/
theorem cluster_addressable {c : ℕ} (hc : DataCluster g c) :
    clusterStart g.metaInfo c + g.metaInfo.clusterSize ≤ 2 ^ 64 := by
  have haddr := hg.addressable
  have hlow : 2 ≤ c := hc.1
  have hupper := hc.2
  have hmul := Nat.mul_le_mul_right g.metaInfo.clusterSize
    (show c - 2 + 1 ≤ dataClusterCount g.bootSector g.metaInfo - 2 by omega)
  rw [Nat.add_mul, Nat.one_mul] at hmul
  rw [fatStartIndex] at haddr
  rw [start_eq hc]
  omega

/-- Distinct clusters are disjoint. -/
theorem inCluster_unique {c d a : ℕ} (hc : DataCluster g c) (hd : DataCluster g d)
    (hca : InCluster g c a) (hda : InCluster g d a) : c = d := by
  have hroom := hg.room
  unfold InCluster at hca hda
  rw [start_eq hc] at hca
  rw [start_eq hd] at hda
  have hquot : ∀ e, g.metaInfo.dataStart + e * g.metaInfo.clusterSize ≤ a →
      a < g.metaInfo.dataStart + e * g.metaInfo.clusterSize + g.metaInfo.clusterSize →
      (a - g.metaInfo.dataStart) / g.metaInfo.clusterSize = e := by
    intro e hlow hhigh
    apply Nat.div_eq_of_lt_le
    · omega
    · rw [Nat.add_mul _ 1, Nat.one_mul]
      omega
  have hcq := hquot _ hca.1 hca.2
  have hdq := hquot _ hda.1 hda.2
  have hclow := hc.1
  have hdlow := hd.1
  unfold fatStartIndex at hclow hdlow
  omega

end ClusterArea

section

variable {g : Globals} (hg : Accepted g)
include hg

/-- The address of a data cluster. -/
theorem Accepted.start_eq {c : ℕ} (hc : DataCluster g c) :
    clusterStart g.metaInfo c =
      g.metaInfo.fsStart + (dataBlock g.bootSector + (c - 2)) * g.metaInfo.clusterSize := by
  have hcount := hg.dataClusterCount_le
  have hupper := hc.2
  exact hg.clusterStart_eq hc.1 (by omega)

/-- Consecutive clusters are adjacent. -/
theorem Accepted.start_add {c j : ℕ} (hc : DataCluster g c) (hcj : DataCluster g (c + j)) :
    clusterStart g.metaInfo (c + j) = clusterStart g.metaInfo c + j * g.metaInfo.clusterSize := by
  have hlow : 2 ≤ c := hc.1
  rw [hg.start_eq hc, hg.start_eq hcj, Nat.add_assoc, ← Nat.add_mul]
  congr 2
  omega

/-- The data area of an accepted geometry. -/
theorem Accepted.area : ClusterArea g := by
  have hmapped := hg.volume.mapped
  have haddr := hg.volume.addressable
  have hge := hg.clusterSize_ge
  have hdata := hg.dataBlock_lt_partitionBlocks
  have hsectors : partitionBlocks g.bootSector * g.bootSector.sectorsPerCluster.toNat ≤
      sectorCount g.bootSector := Nat.div_mul_le_self _ _
  have hbytes : partitionBlocks g.bootSector * g.metaInfo.clusterSize ≤
      sectorCount g.bootSector * g.bootSector.bytesPerSector.toNat := by
    rw [hg.metaInfo_eq.2.2.1, ← Nat.mul_assoc]
    exact Nat.mul_le_mul_right _ hsectors
  refine ⟨by omega, ?_, ?_⟩
  · rw [hg.dataStart_eq]
    omega
  · rw [hg.dataStart_eq, hg.dataClusterCount_eq, fatStartIndex, Nat.add_sub_cancel, Nat.add_assoc,
      ← Nat.add_mul, Nat.add_sub_cancel' hdata.le]
    omega

end

/-- An accepted geometry has such a data area. -/
instance {g : Globals} : Coe (Accepted g) (ClusterArea g) := ⟨Accepted.area⟩

section

variable {g : Globals}

/-- A byte of a free cluster is not protected. -/
theorem FreeByte.not_protected (hg : ClusterArea g) {m₀ : Mem} {a : ℕ} (h : FreeByte g m₀ a) :
    ¬ Protected g m₀ a := by
  obtain ⟨c, hc, hfree, hin⟩ := h
  intro hp
  cases hp with
  | inl hlow =>
    have hstart := ClusterArea.dataStart_le hc
    have hle := hin.1
    omega
  | inr hused =>
    obtain ⟨d, hd, hused, hin'⟩ := hused
    rw [hg.inCluster_unique hd hc hin' hin] at hused
    exact hused hfree

/-- The entries of the FAT for the data clusters are in front of the data area. -/
theorem Accepted.fatEntry_protected (hg : Accepted g) {c i : ℕ} (hc : c < dataClusterCount g.bootSector g.metaInfo)
    (hi : i < 4) : g.metaInfo.fatStart + 4 * c + i < g.metaInfo.dataStart := by
  have hcovers := hg.volume.fatCovers
  have hfats := hg.volume.fats
  rw [hg.dataClusters_eq] at hcovers
  rw [hg.dataClusterCount_eq] at hc
  have hone := Nat.mul_le_mul_right g.bootSector.bytesPerSector.toNat
    (Nat.mul_le_mul_left g.bootSector.sectorsPerFat.toNat hfats)
  rw [Nat.mul_one] at hone
  rw [hg.metaInfo_eq.2.1, hg.metaInfo_eq.2.2.2.2.2, reservedSectors, Nat.add_mul]
  omega

end

/-- No store so far has touched a protected byte, and every store fell into free clusters. -/
structure Intact (g : Globals) (m₀ : Mem) (s : State) : Prop where
  mem : ∀ a, Protected g m₀ a → s.mem a = m₀ a
  stores : ∀ store ∈ s.stores,
    (∀ a, store.address ≤ a → a < store.address + store.length → FreeByte g m₀ a) ∧
    ∀ a, Protected g m₀ a → store.after a = m₀ a

section

variable {g : Globals} {m₀ : Mem} {s t : State}

/-- A start from the memory itself. -/
theorem Intact.initial {s : State} (hs : s.stores = []) : Intact g s.mem s :=
  ⟨fun _ _ => rfl, by simp [hs]⟩

/-- The allocator's own steps leave the files intact. -/
theorem Intact.of_allocOnly (h : Intact g m₀ s) (hst : AllocOnly s t) : Intact g m₀ t := by
  refine ⟨?_, ?_⟩
  · rw [hst.mem]
    exact h.mem
  · rw [hst.stores]
    exact h.stores

/-- A store to free clusters leaves the protected bytes. -/
theorem Intact.stored (hg : ClusterArea g) (h : Intact g m₀ s) {p n : ℕ} {m : Mem}
    (hfree : ∀ a, p ≤ a → a < p + n → FreeByte g m₀ a) (hm : Mem.SameOutside p n s.mem m) :
    Intact g m₀ (s.stored p n m) := by
  have hsame : ∀ a, Protected g m₀ a → m a = m₀ a := by
    intro a ha
    by_cases hin : p ≤ a ∧ a < p + n
    · exact absurd ha ((hfree a hin.1 hin.2).not_protected hg)
    · rw [hm a (by omega)]
      exact h.mem a ha
  refine ⟨hsame, ?_⟩
  intro store hstore
  rw [State.stored_stores, List.mem_cons] at hstore
  cases hstore with
  | inl heq =>
    subst heq
    exact ⟨hfree, hsame⟩
  | inr hold => exact h.stores store hold

/-- The FAT reads as it did at the start. -/
theorem Intact.fatEntry_eq (hg : Accepted g) (h : Intact g m₀ s) {c : ℕ}
    (hc : c < dataClusterCount g.bootSector g.metaInfo) :
    fatEntry g.metaInfo s.mem c = fatEntry g.metaInfo m₀ c := by
  apply Mem.readLE_congr
  intro i hi
  exact h.mem _ (Or.inl (hg.fatEntry_protected hc hi))

end

end OfsConvert
