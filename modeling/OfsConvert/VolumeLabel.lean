import OfsConvert.State
import Mathlib.Data.List.DropRight

/-!
# The volume label

`read_volume_label` looks for the end of the label from its last byte backwards. The index is
unsigned and nothing stops it at the first byte of the label, so the fields in front of the label
decide about a label of spaces only.
-/

namespace OfsConvert

/-- Where the boot sector says whether it has a label. -/
def extBootSignatureOffset : ℕ := 66

/-- Where the boot sector has the label. -/
def volumeLabelOffset : ℕ := 71

/-- The length of `volume_label`. -/
def sizeofVolumeLabel : ℕ := 11

/-- The loop of `read_volume_label` from index `i` on: the indices of the bytes that its condition
reads. The last of them is the one at which it ends. -/
def labelScan (m : Mem) (volumeLabel : ℕ) : ℕ → ℕ → Option (List ℕ)
  | 0, _ => none
  | fuel + 1, i =>
    if m (u64 (volumeLabel + i)) = 0x20 then
      (labelScan m volumeLabel fuel (sub64 i 1)).map (i :: ·)
    else some [i]

/-- `read_volume_label`, for a boot sector and a destination at the given addresses. -/
def readVolumeLabel (fuel bootSector out : ℕ) : Prog Unit := do
  let m ← getMem
  if m (bootSector + extBootSignatureOffset) = 0x28 then
    storeBytes out [0]
  else
    match labelScan m (bootSector + volumeLabelOffset) fuel 10 with
    | none => throw .fuel
    | some indices =>
      let i := indices.getLastD 10
      storeBytes (u64 (out + u64 (i + 1))) [0]
      memcpy out (bootSector + volumeLabelOffset) (u64 (i + 1))

/-- The label of the boot sector at an address. -/
def volumeLabel (m : Mem) (bootSector : ℕ) : List UInt8 :=
  m.read (bootSector + volumeLabelOffset) sizeofVolumeLabel

/-- The label without the spaces at its end. -/
def trimmedLabel (m : Mem) (bootSector : ℕ) : List UInt8 :=
  (volumeLabel m bootSector).rdropWhile (· == 0x20)

/-- The scan ends and reads bytes of the label only, the destination holds the label without its
trailing spaces and a 0 behind it, and all stores are to its first 12 bytes. -/
def ReadsLabel (s : State) (bootSector out : ℕ) : Prop :=
  ∃ fuel indices t,
    labelScan s.mem (bootSector + volumeLabelOffset) fuel 10 = some indices ∧
    (∀ i ∈ indices, i < sizeofVolumeLabel) ∧
    readVolumeLabel fuel bootSector out s = .ok () t ∧
    t.mem.read out ((trimmedLabel s.mem bootSector).length + 1) =
      trimmedLabel s.mem bootSector ++ [0] ∧
    ∃ new, t.stores = new ++ s.stores ∧
      ∀ store ∈ new, out ≤ store.address ∧ store.address + store.length ≤ out + 12

section

variable {m : Mem} {label i : ℕ}

/-- In front of spaces only, the scan leaves the label. -/
theorem labelScan_blank (hlabel : label + i < 2 ^ 64)
    (hspaces : ∀ j ≤ i, m (label + j) = 0x20) {fuel : ℕ} {indices : List ℕ}
    (h : labelScan m label fuel i = some indices) : 2 ^ 64 - 1 ∈ indices := by
  induction i generalizing fuel indices with
  | zero =>
    cases fuel with
    | zero => cases h
    | succ fuel =>
      rw [labelScan, u64_of_lt (by omega), if_pos (hspaces 0 le_rfl)] at h
      have hwrap : sub64 0 1 = 2 ^ 64 - 1 := by decide
      rw [hwrap, Option.map_eq_some_iff] at h
      obtain ⟨rest, hrest, rfl⟩ := h
      refine List.mem_cons_of_mem 0 ?_
      cases fuel with
      | zero => cases hrest
      | succ fuel =>
        rw [labelScan] at hrest
        split at hrest
        · obtain ⟨behind, -, rfl⟩ := Option.map_eq_some_iff.mp hrest
          exact List.mem_cons_self
        · rw [← Option.some.inj hrest]
          exact List.mem_cons_self
  | succ i ih =>
    cases fuel with
    | zero => cases h
    | succ fuel =>
      rw [labelScan, u64_of_lt (by omega), if_pos (hspaces (i + 1) le_rfl),
        sub64_of_le (by omega) (by omega), Nat.add_sub_cancel, Option.map_eq_some_iff] at h
      obtain ⟨rest, hrest, rfl⟩ := h
      exact List.mem_cons_of_mem _ (ih (by omega) (fun j hj => hspaces j (by omega)) hrest)

/-- Behind the last character that is no space, the scan ends at it. -/
theorem labelScan_ends {k : ℕ} (hlabel : label + i < 2 ^ 64) (hk : k ≤ i)
    (hchar : m (label + k) ≠ 0x20) (hspaces : ∀ j, k < j → j ≤ i → m (label + j) = 0x20) :
    ∃ indices, labelScan m label (i + 1) i = some indices ∧ (∀ j ∈ indices, j ≤ i) ∧
      ∀ default, indices.getLastD default = k := by
  induction i with
  | zero =>
    obtain rfl : k = 0 := by omega
    refine ⟨[0], ?_, fun j hj => (List.mem_singleton.mp hj).le, fun _ => rfl⟩
    rw [labelScan, u64_of_lt hlabel, if_neg hchar]
  | succ i ih =>
    rcases Nat.lt_or_ge i k with hlt | hge
    · obtain rfl : k = i + 1 := by omega
      refine ⟨[i + 1], ?_, fun j hj => (List.mem_singleton.mp hj).le, fun _ => rfl⟩
      rw [labelScan, u64_of_lt hlabel, if_neg hchar]
    · obtain ⟨indices, hscan, hle, hlast⟩ := ih (by omega) hge fun j hj hj' =>
        hspaces j hj (by omega)
      refine ⟨(i + 1) :: indices, ?_, ?_, fun default => ?_⟩
      · rw [labelScan, u64_of_lt hlabel, if_pos (hspaces (i + 1) (by omega) le_rfl),
          sub64_of_le (by omega) (by omega), Nat.add_sub_cancel, hscan]
        rfl
      · intro j hj
        rcases List.mem_cons.mp hj with rfl | hmem
        · exact le_rfl
        · exact (hle j hmem).trans (Nat.le_succ i)
      · rw [List.getLastD_cons]
        exact hlast (i + 1)

/-- The last character that is no space. -/
theorem exists_last_char (h : ∃ j ≤ i, m (label + j) ≠ 0x20) :
    ∃ k ≤ i, m (label + k) ≠ 0x20 ∧ ∀ j, k < j → j ≤ i → m (label + j) = 0x20 := by
  induction i with
  | zero =>
    obtain ⟨j, hj, hchar⟩ := h
    exact ⟨j, hj, hchar, fun k hk hk' => by omega⟩
  | succ i ih =>
    by_cases hlast : m (label + (i + 1)) = 0x20
    · obtain ⟨j, hj, hchar⟩ := h
      have hj' : j ≤ i := by
        by_contra hlt
        obtain rfl : j = i + 1 := by omega
        exact hchar hlast
      obtain ⟨k, hk, hkchar, hspaces⟩ := ih ⟨j, hj', hchar⟩
      refine ⟨k, by omega, hkchar, fun j hlow hhigh => ?_⟩
      rcases Nat.lt_or_ge i j with hlt | hge
      · obtain rfl : j = i + 1 := by omega
        exact hlast
      · exact hspaces j hlow hge
    · exact ⟨i + 1, le_rfl, hlast, fun j hj hj' => by omega⟩

end

/-- The trimmed label is the part up to the last character that is no space. -/
theorem trimmedLabel_eq {m : Mem} {bootSector k : ℕ} (hk : k < sizeofVolumeLabel)
    (hchar : m (bootSector + volumeLabelOffset + k) ≠ 0x20)
    (hspaces : ∀ j, k < j → j < sizeofVolumeLabel →
      m (bootSector + volumeLabelOffset + j) = 0x20) :
    trimmedLabel m bootSector = m.read (bootSector + volumeLabelOffset) (k + 1) := by
  obtain ⟨n, hn⟩ := Nat.exists_eq_add_of_le (Nat.succ_le_of_lt hk)
  have hlabel : volumeLabel m bootSector =
      m.read (bootSector + volumeLabelOffset) (k + 1) ++ List.replicate n 0x20 := by
    rw [volumeLabel, hn, Nat.succ_eq_add_one, Mem.read_add]
    congr 1
    rw [List.eq_replicate_iff]
    refine ⟨Mem.length_read _ _ _, fun c hc => ?_⟩
    obtain ⟨i, hi, rfl⟩ := List.mem_iff_getElem.mp hc
    rw [Mem.length_read] at hi
    rw [Mem.getElem_read, Nat.add_assoc]
    exact hspaces (k + 1 + i) (by omega) (by omega)
  rw [trimmedLabel, hlabel]
  clear hlabel hn
  induction n with
  | zero =>
    rw [List.replicate_zero, List.append_nil, List.rdropWhile_eq_self_iff]
    intro hne hspace
    apply hchar
    rw [List.getLast_eq_getElem, Mem.getElem_read] at hspace
    rw [Mem.length_read, Nat.add_sub_cancel] at hspace
    exact eq_of_beq hspace
  | succ n ih =>
    rw [List.replicate_succ', ← List.append_assoc, List.rdropWhile_concat_pos _ _ _ (by decide), ih]

/-- With a boot sector and a destination apart from each other, `read_volume_label` keeps to the
label and to the first 12 bytes of the destination, and leaves the label without its trailing
spaces with a 0 behind it, if and only if the label is not of spaces only. -/
theorem readVolumeLabel_iff (s : State) (bootSector out : ℕ)
    (hboot : bootSector + volumeLabelOffset + sizeofVolumeLabel ≤ 2 ^ 64) (hout : out + 12 ≤ 2 ^ 64)
    (hapart : out + 12 ≤ bootSector + volumeLabelOffset ∨
      bootSector + volumeLabelOffset + sizeofVolumeLabel ≤ out)
    (hsignature : s.mem (bootSector + extBootSignatureOffset) ≠ 0x28) :
    ReadsLabel s bootSector out ↔ ∃ c ∈ volumeLabel s.mem bootSector, c ≠ 0x20 := by
  have hchars : (∃ c ∈ volumeLabel s.mem bootSector, c ≠ 0x20) ↔
      ∃ j ≤ 10, s.mem (bootSector + volumeLabelOffset + j) ≠ 0x20 := by
    constructor
    · rintro ⟨c, hc, hne⟩
      obtain ⟨j, hj, rfl⟩ := List.mem_iff_getElem.mp hc
      rw [volumeLabel, Mem.length_read, sizeofVolumeLabel] at hj
      refine ⟨j, by omega, ?_⟩
      simpa only [volumeLabel, Mem.getElem_read] using hne
    · rintro ⟨j, hj, hne⟩
      have hlt : j < (volumeLabel s.mem bootSector).length := by
        rw [volumeLabel, Mem.length_read, sizeofVolumeLabel]
        omega
      refine ⟨(volumeLabel s.mem bootSector)[j], List.getElem_mem hlt, ?_⟩
      simpa only [volumeLabel, Mem.getElem_read] using hne
  rw [hchars]
  unfold sizeofVolumeLabel at hboot hapart
  constructor
  · rintro ⟨fuel, indices, t, hscan, hinside, -⟩
    by_contra hblank
    have hspaces : ∀ j ≤ 10, s.mem (bootSector + volumeLabelOffset + j) = 0x20 :=
      fun j hj => of_not_not fun hne => hblank ⟨j, hj, hne⟩
    have hwild := hinside _ (labelScan_blank (by omega) hspaces hscan)
    exact absurd hwild (by decide)
  · intro hsome
    obtain ⟨k, hk, hchar, hspaces⟩ := exists_last_char hsome
    obtain ⟨indices, hscan, hle, hlast⟩ := labelScan_ends (by omega) hk hchar hspaces
    have htrimmed := trimmedLabel_eq (by unfold sizeofVolumeLabel; omega) hchar fun j hlow hhigh =>
      hspaces j hlow (by unfold sizeofVolumeLabel at hhigh; omega)
    have hwp : wp (readVolumeLabel 11 bootSector out)
        (fun _ t => t.mem.read out (k + 2) =
            s.mem.read (bootSector + volumeLabelOffset) (k + 1) ++ [0] ∧
          ∃ new, t.stores = new ++ s.stores ∧
            ∀ store ∈ new, out ≤ store.address ∧ store.address + store.length ≤ out + 12)
        (fun _ _ => False) s := by
      simp only [readVolumeLabel, wp_bind, wp_getMem]
      rw [if_neg hsignature]
      simp only [hscan, hlast, wp_bind, wp_storeBytes, wp_memcpy]
      rw [u64_of_lt (n := k + 1) (by omega), u64_of_lt (n := out + (k + 1)) (by omega)]
      refine ⟨?_, [⟨out, k + 1, _⟩, ⟨out + (k + 1), 1, _⟩], rfl, ?_⟩
      · rw [State.stored_mem, State.stored_mem, Mem.read_add _ out (k + 1) 1, Mem.read_copy]
        congr 1
        · have hwrite := Mem.sameOutside_write s.mem (out + (k + 1)) [0]
          rw [List.length_singleton] at hwrite
          exact hwrite.read_eq (by omega)
        · rw [(Mem.sameOutside_copy _ _ _ _).read_eq (Or.inr le_rfl)]
          exact Mem.read_write s.mem (out + (k + 1)) [0]
      · intro store hstore
        rcases List.mem_cons.mp hstore with rfl | hmem
        · exact ⟨le_rfl, by dsimp only; omega⟩
        · rw [List.mem_singleton.mp hmem]
          exact ⟨by dsimp only; omega, by dsimp only; omega⟩
    obtain ⟨_, t, hrun, hread, hstores⟩ := exists_ok_of_wp hwp
    refine ⟨11, indices, t, hscan, fun j hj => ?_, hrun, ?_, hstores⟩
    · unfold sizeofVolumeLabel
      have hj' := hle j hj
      omega
    · rw [htrimmed, Mem.length_read]
      exact hread

/-- A boot sector of zeros with a label and a volume id. -/
def labelledBootSector (volumeId label : List UInt8) : State :=
  { mem := (Mem.write (fun _ => 0) 67 volumeId).write 71 label }

/-- For a blank label behind a volume id of spaces the scan leaves the label, ends in front of the
volume id and makes the code copy almost the whole address space. -/
theorem readVolumeLabel_blank :
    ¬ ReadsLabel (labelledBootSector (List.replicate 4 0x20) (List.replicate 11 0x20)) 0 1024 ∧
      labelScan (labelledBootSector (List.replicate 4 0x20) (List.replicate 11 0x20)).mem 71 16 10 =
        some [10, 9, 8, 7, 6, 5, 4, 3, 2, 1, 0, 2 ^ 64 - 1, 2 ^ 64 - 2, 2 ^ 64 - 3, 2 ^ 64 - 4,
          2 ^ 64 - 5] := by
  refine ⟨?_, by decide⟩
  rintro ⟨fuel, indices, t, hscan, hinside, -⟩
  have hwild := hinside _ (labelScan_blank (by decide) (by decide) hscan)
  exact absurd hwild (by decide)

/-- The iff for a label with a space inside. -/
theorem readVolumeLabel_iff_plain :
    ReadsLabel (labelledBootSector [0, 0, 0, 0] [0x41, 0x20, 0x42, 0x20, 0x20, 0x20, 0x20, 0x20,
        0x20, 0x20, 0x20]) 0 1024 ↔
      ∃ c ∈ volumeLabel (labelledBootSector [0, 0, 0, 0] [0x41, 0x20, 0x42, 0x20, 0x20, 0x20, 0x20,
        0x20, 0x20, 0x20, 0x20]).mem 0, c ≠ 0x20 :=
  readVolumeLabel_iff _ 0 1024 (by decide) (by decide) (by decide) (by decide)

end OfsConvert
