import OfsConvert.FatGrammar
import OfsConvert.ReadingSafety
import OfsConvert.StreamRoom

/-!
# Corrupt volumes

Chains may run into themselves or into each other, and a directory may contain itself or one of
its ancestors. The reading phase ends all the same: every directory and every run of clusters
takes room in the stream, which takes free clusters. With cluster numbers in range it returns or
finds the volume too small, unless a table ends inside what `is_lfn` takes for a long name:
`read_lfn` then comes to the null pointer behind the last entry, and the walk follows it.
-/

namespace OfsConvert

/-- A child that the walk finds, given the live entries of a table. -/
inductive Found : List FatDentry → ChildEntry → Prop where
  | here {entries rest : List FatDentry} {c : ChildEntry} (hmore : tableEnds entries = false)
      (hnext : nextChild entries = some (c, rest)) : Found entries c
  | later {entries rest : List FatDentry} {c d : ChildEntry} (hmore : tableEnds entries = false)
      (hnext : nextChild entries = some (d, rest)) (hrest : Found rest c) : Found entries c

/-- The walk has been over these entries and over the tables of all directories below. -/
inductive WalkedBelow (g : Globals) (m : Mem) : List FatDentry → Prop where
  | ends {entries : List FatDentry} (h : tableEnds entries = true) : WalkedBelow g m entries
  | child {entries rest : List FatDentry} {c : ChildEntry} (hmore : tableEnds entries = false)
      (hnext : nextChild entries = some (c, rest))
      (hbelow : isDir c.dentry = true → ∀ below, IsUsedChain g m (fileClusterNo c.dentry) below →
        WalkedBelow g m (liveEntries (tableOf g m below)))
      (hrest : WalkedBelow g m rest) : WalkedBelow g m entries

/-- The run stopped because the volume is full. -/
def FullVolume (cause : Halt) (_ : State) : Prop := cause = .exit fsIsFullMessage

/-- A run that neither follows a null pointer nor runs out of fuel stopped at a full volume. -/
theorem FullVolume.intro {cause : Halt} {s : State} (h : NoFault cause s) (h' : WithinFuel cause s) :
    FullVolume cause s := h'.resolve_left h

section Chains

variable {g : Globals} {m : Mem}

/-- The clusters that a FAT entry leads to are determined. -/
theorem UsedFrom.unique {value : ℕ} {xs ys : List ℕ} (h : UsedFrom g m value xs)
    (h' : UsedFrom g m value ys) : xs = ys := by
  induction xs generalizing value ys with
  | nil =>
    cases ys with
    | nil => rfl
    | cons c cs =>
      have hend : fatEndOfChain ≤ value := h
      have hin := h'.2.2.1
      have hvalue := h'.1
      omega
  | cons c cs ih =>
    obtain ⟨hvalue, -, hin, -, hnext⟩ := h
    cases ys with
    | nil =>
      have hend : fatEndOfChain ≤ value := h'
      omega
    | cons d ds =>
      obtain ⟨hvalue', -, -, -, hnext'⟩ := h'
      obtain rfl : c = d := hvalue.symm.trans hvalue'
      rw [ih hnext hnext']

/-- From a cluster of the chain on. -/
theorem UsedFrom.suffix {value c : ℕ} {xs ys : List ℕ} (h : UsedFrom g m value (xs ++ c :: ys)) :
    UsedFrom g m (fatEntry g.metaInfo m c) ys := by
  induction xs generalizing value with
  | nil => exact h.2.2.2.2
  | cons d ds ih => exact ih h.2.2.2.2

/-- The cluster in front of the rest of a chain is not met again. -/
theorem UsedFrom.not_mem {c : ℕ} {cs : List ℕ} (h : UsedFrom g m (fatEntry g.metaInfo m c) cs) :
    c ∉ cs := by
  intro hmem
  obtain ⟨before, behind, rfl⟩ := List.append_of_mem hmem
  have hlength := congrArg List.length (h.unique h.suffix)
  rw [List.length_append, List.length_cons] at hlength
  omega

/-- A chain of clusters in use visits none twice. -/
theorem UsedFrom.nodup {value : ℕ} {chain : List ℕ} (h : UsedFrom g m value chain) :
    chain.Nodup := by
  induction chain generalizing value with
  | nil => exact List.nodup_nil
  | cons c cs ih => exact List.nodup_cons.mpr ⟨h.2.2.2.2.not_mem, ih h.2.2.2.2⟩

/-- A chain of clusters in use stays in the data area. -/
theorem UsedFrom.dataCluster {value : ℕ} {chain : List ℕ} (h : UsedFrom g m value chain) :
    ∀ c ∈ chain, DataCluster g c := by
  induction chain generalizing value with
  | nil => simp
  | cons d ds ih =>
    intro c hc
    rcases List.mem_cons.mp hc with rfl | hmem
    · exact h.2.1
    · exact ih h.2.2.2.2 c hmem

/-- A chain that ends has at most as many clusters as the volume. -/
theorem IsUsedChain.length_le {start : ℕ} {chain : List ℕ} (h : IsUsedChain g m start chain) :
    chain.length ≤ dataClusterCount g.bootSector g.metaInfo := by
  cases chain with
  | nil => exact Nat.zero_le _
  | cons c cs =>
    obtain ⟨-, hc, -, hnext⟩ := h
    have hnodup : (c :: cs).Nodup := List.nodup_cons.mpr ⟨hnext.not_mem, hnext.nodup⟩
    have hsubset : c :: cs ⊆ List.range (dataClusterCount g.bootSector g.metaInfo) := by
      intro d hd
      rw [List.mem_range]
      rcases List.mem_cons.mp hd with rfl | hmem
      · exact hc.2
      · exact (hnext.dataCluster d hmem).2
    have hle := (List.subperm_of_subset hnodup hsubset).length_le
    rwa [List.length_range] at hle

/-- A first cluster has one chain. -/
theorem IsUsedChain.unique {start : ℕ} {chain chain' : List ℕ} (h : IsUsedChain g m start chain)
    (h' : IsUsedChain g m start chain') : chain = chain' := by
  have hnull : ∀ {c cs}, IsUsedChain g m 0 (c :: cs) → False := by
    rintro c cs ⟨rfl, hc, -⟩
    exact absurd hc.1 (by decide)
  cases chain with
  | nil =>
    obtain rfl : start = 0 := h
    cases chain' with
    | nil => rfl
    | cons => exact (hnull h').elim
  | cons c cs =>
    cases chain' with
    | nil =>
      obtain rfl : start = 0 := h'
      exact (hnull h).elim
    | cons d ds =>
      obtain ⟨rfl, -, -, hnext⟩ := h
      obtain ⟨rfl, -, -, hnext'⟩ := h'
      rw [hnext.unique hnext']

/-- Behind a child the walk over its table goes on. -/
theorem Walks.rest {entries rest : List FatDentry} {c : ChildEntry} {cs : List ChildEntry}
    (h : Walks entries cs) (hmore : tableEnds entries = false)
    (hnext : nextChild entries = some (c, rest)) : ∃ children, Walks rest children := by
  cases h with
  | done hend => rw [hend] at hmore; cases hmore
  | step _ hnext' hrest =>
    rw [hnext, Option.some_inj, Prod.mk.injEq] at hnext'
    exact ⟨_, hnext'.2 ▸ hrest⟩

/-- A child that is found is one of the children. -/
theorem Walks.found {entries : List FatDentry} {c : ChildEntry} {cs : List ChildEntry}
    (h : Walks entries cs) (hc : Found entries c) : c ∈ cs := by
  induction hc generalizing cs with
  | here hmore hnext =>
    cases h with
    | done hend => rw [hend] at hmore; cases hmore
    | step _ hnext' _ =>
      rw [hnext, Option.some_inj, Prod.mk.injEq] at hnext'
      exact hnext'.1 ▸ List.mem_cons_self
  | later hmore hnext _ ih =>
    cases h with
    | done hend => rw [hend] at hmore; cases hmore
    | step _ hnext' hrest =>
      rw [hnext, Option.some_inj, Prod.mk.injEq] at hnext'
      exact List.mem_cons_of_mem _ (ih (hnext'.2 ▸ hrest))

/-- A table whose directories can be walked can be walked itself. -/
theorem WalkedBelow.walks {entries : List FatDentry} (h : WalkedBelow g m entries) :
    ∃ children, Walks entries children := by
  induction h with
  | ends hend => exact ⟨_, Walks.done hend⟩
  | child hmore hnext _ _ _ ih =>
    obtain ⟨children, hrest⟩ := ih
    exact ⟨_, Walks.step hmore hnext hrest⟩

/-- A directory that was found has been walked over. -/
theorem WalkedBelow.found {entries : List FatDentry} {c : ChildEntry} {below : List ℕ}
    (h : WalkedBelow g m entries) (hc : Found entries c) (hisDir : isDir c.dentry = true)
    (hchain : IsUsedChain g m (fileClusterNo c.dentry) below) :
    WalkedBelow g m (liveEntries (tableOf g m below)) := by
  induction hc with
  | here hmore hnext =>
    cases h with
    | ends hend => rw [hend] at hmore; cases hmore
    | child _ hnext' hbelow _ =>
      rw [hnext, Option.some_inj, Prod.mk.injEq] at hnext'
      exact hbelow (hnext'.1 ▸ hisDir) below (hnext'.1 ▸ hchain)
  | later hmore hnext _ ih =>
    cases h with
    | ends hend => rw [hend] at hmore; cases hmore
    | child _ hnext' _ hrest =>
      rw [hnext, Option.some_inj, Prod.mk.injEq] at hnext'
      exact ih (hnext'.2 ▸ hrest) hisDir hchain

end Chains

section

variable {g : Globals} {m₀ : Mem} {blocked : List FatExtent} {X : Set ℕ}
  {pages pages' : List ℕ} {head : Pos} {w w' : StreamArchiver} {s t : State}

end

/-- The short entry of an empty, read-only file AUTOEXEC.BAT. -/
def lastEntry : FatDentry :=
  [0x41, 0x55, 0x54, 0x4F, 0x45, 0x58, 0x45, 0x43, 0x42, 0x41, 0x54, 0x21] ++ List.replicate 20 0

end OfsConvert
