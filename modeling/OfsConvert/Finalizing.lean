import OfsConvert.LostFoundBuilding

/-!
# The copies of the super block

`finalize_block_groups_on_disk` writes the super block and the descriptors to the groups that have
room for them, and to nothing else.
-/

namespace OfsConvert

/-- The bytes that a group reserves for its copies of the super block and of the descriptors. -/
def sbCopyBytes (g : Globals) (i : ℕ) : Set ℕ :=
  bytesFrom (blockStart g.metaInfo g.sb (blockGroupStart g.sb i)) (blockBitmapAddr g i)

/-- The groups with copies. -/
def copyGroups (sb : Ext4SuperBlock) : List ℕ := [0, sb.sBackupBgs0, sb.sBackupBgs1]

/-- The super blocks differ in the free counts only. -/
def SameLayout (sb sb' : Ext4SuperBlock) : Prop :=
  ∃ inodes lo hi, sb' = { sb with
    sFreeInodesCount := inodes, sFreeBlocksCountLo := lo, sFreeBlocksCountHi := hi }

/-- The offset of a super block copy in the first block of its group. -/
def sbOffset (sb : Ext4SuperBlock) (i : ℕ) : ℕ := if i = 0 ∧ blockSize sb ≠ 1024 then 1024 else 0

/-- A group holds copies of the super block and of the descriptors. -/
structure HoldsCopy (g : Globals) (env : Env) (sb : Ext4SuperBlock) (descs : List Ext4GroupDesc)
    (i : ℕ) (m : Mem) : Prop where
  superBlock : m.read (blockStart g.metaInfo g.sb (blockGroupStart g.sb i) + sbOffset g.sb i)
    sizeofSuperBlock = (List.range sizeofSuperBlock).map (env.sbByte sb i)
  descs : m.read (blockStart g.metaInfo g.sb (blockGroupStart g.sb i + 1)) (64 * descs.length) =
    descs.flatMap Ext4GroupDesc.bytes

/-- What `finalize_block_groups_on_disk` does, with the super block that it computes. -/
structure Finalized (g : Globals) (env : Env) (sb : Ext4SuperBlock) (s t : State) : Prop where
  touches : Touches {a | ∃ i ∈ copyGroups g.sb, a ∈ sbCopyBytes g i} s t
  ext4 : t.ext4 = s.ext4
  copies : ∀ i ∈ copyGroups g.sb, HoldsCopy g env sb s.ext4.groupDescs i t.mem

/-- A packed descriptor has 64 bytes. -/
theorem Ext4GroupDesc.length_bytes (bg : Ext4GroupDesc) : bg.bytes.length = 64 := by
  rw [Ext4GroupDesc.bytes]
  simp only [List.length_append, length_leBytes]

/-- Packed descriptors have 64 bytes each. -/
theorem length_descs_bytes (descs : List Ext4GroupDesc) :
    (descs.flatMap Ext4GroupDesc.bytes).length = 64 * descs.length := by
  induction descs with
  | nil => rfl
  | cons bg descs ih =>
    rw [List.flatMap_cons, List.length_append, bg.length_bytes, ih, List.length_cons, Nat.mul_succ,
      Nat.add_comm]

section Layout

variable {g : Globals} (hg : Accepted g) {i : ℕ} {A : Set ℕ}

/-- Counting the free blocks leaves the layout as it is. -/
theorem freeCountsLoop_sameLayout {descs : List Ext4GroupDesc} {bgCount fuel i : ℕ}
    {sb sb' : Ext4SuperBlock} {visited visited' : List ℕ}
    (h : freeCountsLoop descs bgCount fuel i sb visited = some (sb', visited')) :
    SameLayout sb sb' := by
  induction fuel generalizing i sb visited with
  | zero => cases h
  | succ fuel ih =>
    rw [freeCountsLoop] at h
    split at h
    · obtain ⟨inodes, lo, hi, heq⟩ := ih h
      exact ⟨inodes, lo, hi, heq⟩
    · obtain ⟨rfl, -⟩ := Prod.mk.inj (Option.some.inj h)
      exact ⟨_, _, _, rfl⟩

include hg

/-- The groups with copies are groups of the file system that reserve room for them. -/
theorem Accepted.copyGroup (hi : i ∈ copyGroups g.sb) :
    i < blockGroupCount g.sb ∧ blockGroupHasSbCopy g.sb i = true := by
  have hpos := hg.blockGroupCount_pos
  have hinodes := hg.inodes_le
  obtain ⟨-, -, -, hpositive, -⟩ := hg.numbers
  have hcount : blockGroupCount g.sb < 2 ^ 32 := by
    have hle := Nat.le_mul_of_pos_right (blockGroupCount g.sb) (show 0 < g.sb.sInodesPerGroup by omega)
    omega
  have hcopy : blockGroupHasSbCopy g.sb i = true := by
    rw [blockGroupHasSbCopy, Bool.or_eq_true, Bool.or_eq_true, beq_iff_eq, beq_iff_eq, beq_iff_eq]
    simpa [copyGroups, or_assoc] using hi
  refine ⟨?_, hcopy⟩
  have h0 := hg.superBlockOf.backup0
  have h1 := hg.superBlockOf.backup1
  simp only [copyGroups, List.mem_cons, List.not_mem_nil, or_false] at hi
  rcases hi with rfl | rfl | rfl
  · exact hpos
  · rw [h0]
    split <;> omega
  · rw [h1]
    split
    · rw [sub32_of_le (by omega) (by omega)]
      omega
    · exact hpos

/-- The room for the copies is a part of the metadata prefix. -/
theorem Accepted.sbCopy_inPrefix (hi : i < blockGroupCount g.sb) {a : ℕ} (ha : a ∈ sbCopyBytes g i) :
    ∃ b, InPrefix g i b ∧ b < blockBitmapBlock g.sb i ∧ InBlock g b a := by
  obtain ⟨hlow, hstop, -⟩ := hg.blockBitmapBlock_eq hi
  obtain ⟨n, hn⟩ := Nat.exists_eq_add_of_le hlow
  have hhigh := ha.2
  rw [blockBitmapAddr, hn, blockStart_add] at hhigh
  obtain ⟨b, hb, hb', hin⟩ := hg.inBlock_of_range ha.1 hhigh
  exact ⟨b, ⟨hb, by omega⟩, by omega, hin⟩

/-- The room for the copies is apart from everything else. -/
theorem Accepted.sbCopy_apart : Apart g {a | ∃ i ∈ copyGroups g.sb, a ∈ sbCopyBytes g i} := by
  refine ⟨fun n hn a ha => ?_, fun j hj a hlow hhigh => ?_⟩
  · rintro ⟨i, hi, hin⟩
    obtain ⟨hcount, -⟩ := hg.copyGroup hi
    obtain ⟨b, hb, hlt, hba⟩ := hg.sbCopy_inPrefix hcount hin
    obtain ⟨c, hc, hle, hca⟩ := hg.inodeAddr_inPrefix hn ha.1 ha.2
    obtain rfl := inBlock_unique hba hca
    obtain rfl := hg.prefix_unique hcount hn.group hb hc
    omega
  · rintro ⟨i, hi, hin⟩
    obtain ⟨hcount, -⟩ := hg.copyGroup hi
    obtain ⟨b, hb, hlt, hba⟩ := hg.sbCopy_inPrefix hcount hin
    obtain ⟨c, hc, -, hca⟩ := hg.bitmap_inPrefix hj hlow hhigh
    obtain rfl := inBlock_unique hba hca
    obtain rfl := hg.prefix_unique hcount hj hb hc
    exact absurd hlow (Nat.not_le.mpr hin.2)

/-- The copies of two groups share no byte. -/
theorem Accepted.sbCopyBytes_unique {j a : ℕ} (hi : i ∈ copyGroups g.sb) (hj : j ∈ copyGroups g.sb)
    (ha : a ∈ sbCopyBytes g i) (ha' : a ∈ sbCopyBytes g j) : i = j := by
  obtain ⟨b, hb, -, hba⟩ := hg.sbCopy_inPrefix (hg.copyGroup hi).1 ha
  obtain ⟨c, hc, -, hca⟩ := hg.sbCopy_inPrefix (hg.copyGroup hj).1 ha'
  obtain rfl := inBlock_unique hba hca
  exact hg.prefix_unique (hg.copyGroup hi).1 (hg.copyGroup hj).1 hb hc

/-- Where the two copies of a group are. -/
theorem Accepted.sbCopy_places (hi : i ∈ copyGroups g.sb) {a : ℕ} :
    (blockStart g.metaInfo g.sb (blockGroupStart g.sb i) + sbOffset g.sb i ≤ a →
      a < blockStart g.metaInfo g.sb (blockGroupStart g.sb i) + sbOffset g.sb i + sizeofSuperBlock →
      a ∈ sbCopyBytes g i ∧ a < blockStart g.metaInfo g.sb (blockGroupStart g.sb i + 1)) ∧
    (blockStart g.metaInfo g.sb (blockGroupStart g.sb i + 1) ≤ a →
      a < blockStart g.metaInfo g.sb (blockGroupStart g.sb i + 1) + 64 * blockGroupCount g.sb →
      a ∈ sbCopyBytes g i) := by
  obtain ⟨hcount, hcopy⟩ := hg.copyGroup hi
  obtain ⟨-, -, hbitmap⟩ := hg.blockBitmapBlock_eq hcount
  have hroom := hg.descriptors_le_gdt
  obtain ⟨k, hk, hpow⟩ := hg.clusterSize_pow
  rw [← hg.blockSize_eq] at hroom hpow
  have hoffset : sbOffset g.sb i + sizeofSuperBlock ≤ blockSize g.sb := by
    rw [sbOffset, sizeofSuperBlock]
    split
    · rename_i hfirst
      have hne := hfirst.2
      rw [hpow] at hne ⊢
      have hk0 : k ≠ 0 := fun h => hne (by rw [h]; rfl)
      exact Nat.pow_le_pow_right (show 0 < 2 by decide) (show 11 ≤ 10 + k by omega)
    · exact hg.blockSize_ge
  have hend : blockBitmapAddr g i = blockStart g.metaInfo g.sb (blockGroupStart g.sb i + 1) +
      gdtBlockCount g.sb * blockSize g.sb := by
    rw [blockBitmapAddr, hbitmap hcopy, blockStart_add]
  have hfirst := blockStart_lt (g := g) (Nat.lt_succ_self (blockGroupStart g.sb i))
  rw [Nat.succ_eq_add_one] at hfirst
  refine ⟨fun hlow hhigh => ⟨⟨?_, ?_⟩, ?_⟩, fun hlow hhigh => ⟨?_, ?_⟩⟩ <;> omega

omit hg in
/-- The copies of a group stay as long as their bytes do. -/
theorem HoldsCopy.congr {env : Env} {sb : Ext4SuperBlock} {descs : List Ext4GroupDesc} {m m' : Mem}
    (h : HoldsCopy g env sb descs i m) (hg : Accepted g) (hi : i ∈ copyGroups g.sb)
    (hlength : descs.length = blockGroupCount g.sb)
    (hm : ∀ a ∈ sbCopyBytes g i, m' a = m a) : HoldsCopy g env sb descs i m' := by
  refine ⟨?_, ?_⟩
  · rw [← h.superBlock]
    exact Mem.read_congr fun k hk =>
      hm _ ((hg.sbCopy_places hi).1 (Nat.le_add_right _ _) (Nat.add_lt_add_left hk _)).1
  · rw [← h.descs]
    refine Mem.read_congr fun k hk => hm _ ((hg.sbCopy_places hi).2 (Nat.le_add_right _ _) ?_)
    rw [← hlength]
    exact Nat.add_lt_add_left hk _

/-- `write_sb_copy` writes the copies of a group. -/
theorem writeSbCopy_spec {env : Env} {sb : Ext4SuperBlock} {s : State} (hi : i ∈ copyGroups g.sb)
    (hsame : SameLayout g.sb sb) (hlength : s.ext4.groupDescs.length = blockGroupCount g.sb)
    {E : Halt → State → Prop} :
    wp (writeSbCopy g env sb i)
      (fun _ t => Touches (sbCopyBytes g i) s t ∧ t.ext4 = s.ext4 ∧
        HoldsCopy g env sb s.ext4.groupDescs i t.mem) E s := by
  obtain ⟨inodes, lo, hi', rfl⟩ := hsame
  generalize hsb : (List.range sizeofSuperBlock).map (env.sbByte { g.sb with
    sFreeInodesCount := inodes, sFreeBlocksCountLo := lo, sFreeBlocksCountHi := hi' } i) = bytes
  have hbytes : bytes.length = sizeofSuperBlock := by
    rw [← hsb, List.length_map, List.length_range]
  have hdescs := length_descs_bytes s.ext4.groupDescs
  have hprog : writeSbCopy g env { g.sb with
      sFreeInodesCount := inodes, sFreeBlocksCountLo := lo, sFreeBlocksCountHi := hi' } i = (do
        storeBytes (blockStart g.metaInfo g.sb (blockGroupStart g.sb i) + sbOffset g.sb i) bytes
        let s ← get
        storeBytes (blockStart g.metaInfo g.sb (blockGroupStart g.sb i + 1))
          ((s.ext4.groupDescs.take (blockGroupCount g.sb)).flatMap Ext4GroupDesc.bytes)) := by
    rw [← hsb]
    rfl
  rw [hprog, wp_bind, wp_storeBytes, wp_bind, wp_get, wp_storeBytes, State.stored_ext4,
    List.take_of_length_le hlength.le]
  have hfirst := Mem.sameOutside_write s.mem
    (blockStart g.metaInfo g.sb (blockGroupStart g.sb i) + sbOffset g.sb i) bytes
  have hsecond := Mem.sameOutside_write (s.mem.write
    (blockStart g.metaInfo g.sb (blockGroupStart g.sb i) + sbOffset g.sb i) bytes)
    (blockStart g.metaInfo g.sb (blockGroupStart g.sb i + 1))
    (s.ext4.groupDescs.flatMap Ext4GroupDesc.bytes)
  refine ⟨(Touches.stored s (fun a hlow hhigh => ?_) hfirst).trans
    (Touches.stored _ (fun a hlow hhigh => ?_) hsecond), rfl, ⟨?_, ?_⟩⟩
  · rw [hbytes] at hhigh
    exact ((hg.sbCopy_places hi).1 hlow hhigh).1
  · rw [hdescs, hlength] at hhigh
    exact (hg.sbCopy_places hi).2 hlow hhigh
  · rw [hsb]
    refine (hsecond.read_eq (Or.inl ?_)).trans (Mem.read_write_of_length hbytes)
    have hlast := ((hg.sbCopy_places hi (a := blockStart g.metaInfo g.sb (blockGroupStart g.sb i) +
      sbOffset g.sb i + (sizeofSuperBlock - 1))).1 (Nat.le_add_right _ _)
      (Nat.add_lt_add_left (by decide) _)).2
    unfold sizeofSuperBlock at hlast ⊢
    omega
  · exact Mem.read_write_of_length hdescs

/-- `finalize_block_groups_on_disk` writes the copies of three groups, unless it never ends. -/
theorem finalizeBlockGroupsOnDisk_spec {env : Env} {s : State}
    (hlength : s.ext4.groupDescs.length = blockGroupCount g.sb) (fuel : ℕ)
    {E : Halt → State → Prop}
    (hE : finalizeFreeCounts s.ext4.groupDescs fuel g.sb = none → E .fuel s) :
    wp (finalizeBlockGroupsOnDisk g env fuel) (fun _ t => ∃ sb visited,
        finalizeFreeCounts s.ext4.groupDescs fuel g.sb = some (sb, visited) ∧
        Finalized g env sb s t) E s := by
  rw [finalizeBlockGroupsOnDisk, wp_bind, wp_get]
  cases hcounts : finalizeFreeCounts s.ext4.groupDescs fuel g.sb with
  | none => exact hE hcounts
  | some result =>
    obtain ⟨sb, visited⟩ := result
    have hsame := freeCountsLoop_sameLayout hcounts
    obtain ⟨inodes, lo, hi', hsb⟩ := id hsame
    have hbackup0 : sb.sBackupBgs0 = g.sb.sBackupBgs0 := by rw [hsb]
    have hbackup1 : sb.sBackupBgs1 = g.sb.sBackupBgs1 := by rw [hsb]
    have hin : ∀ i, i ∈ copyGroups g.sb ↔ i = 0 ∨ i = g.sb.sBackupBgs0 ∨ i = g.sb.sBackupBgs1 := by
      simp [copyGroups]
    have hi0 := (hin 0).mpr (Or.inl rfl)
    have hi1 := (hin _).mpr (Or.inr (Or.inl rfl))
    have hi2 := (hin _).mpr (Or.inr (Or.inr rfl))
    dsimp only
    rw [hbackup0, hbackup1, wp_bind]
    refine wp_mono_ok (writeSbCopy_spec hg hi0 hsame hlength) ?_
    rintro _ s₁ ⟨htouch₁, hext₁, hcopy₁⟩
    rw [wp_bind]
    refine wp_mono_ok (writeSbCopy_spec hg hi1 hsame (by rw [hext₁]; exact hlength)) ?_
    rintro _ s₂ ⟨htouch₂, hext₂, hcopy₂⟩
    refine wp_mono_ok (writeSbCopy_spec hg hi2 hsame (by rw [hext₂, hext₁]; exact hlength)) ?_
    rintro _ t ⟨htouch₃, hext₃, hcopy₃⟩
    rw [hext₁] at hcopy₂
    rw [hext₂, hext₁] at hcopy₃
    have hkeep : ∀ {i j : ℕ} {u v : State}, i ∈ copyGroups g.sb → j ∈ copyGroups g.sb →
        Touches (sbCopyBytes g j) u v → HoldsCopy g env sb s.ext4.groupDescs j v.mem →
        HoldsCopy g env sb s.ext4.groupDescs i u.mem →
        HoldsCopy g env sb s.ext4.groupDescs i v.mem := by
      intro i j u v hi hj htouch hnew hold
      by_cases hij : i = j
      · rw [hij]
        exact hnew
      · exact hold.congr hg hi hlength fun a ha =>
          htouch.mem a fun hin => hij (hg.sbCopyBytes_unique hi hj ha hin)
    have hall : ∀ i ∈ copyGroups g.sb,
        sbCopyBytes g i ⊆ {a | ∃ i ∈ copyGroups g.sb, a ∈ sbCopyBytes g i} :=
      fun i hi a ha => ⟨i, hi, ha⟩
    refine ⟨sb, visited, rfl, ⟨(htouch₁.mono (hall _ hi0)).trans
      ((htouch₂.mono (hall _ hi1)).trans (htouch₃.mono (hall _ hi2))),
      hext₃.trans (hext₂.trans hext₁), fun i hi => ?_⟩⟩
    rcases (hin i).mp hi with rfl | rfl | rfl
    · exact hkeep hi0 hi2 htouch₃ hcopy₃ (hkeep hi0 hi1 htouch₂ hcopy₂ hcopy₁)
    · exact hkeep hi1 hi2 htouch₃ hcopy₃ hcopy₂
    · exact hcopy₃

end Layout

end OfsConvert
