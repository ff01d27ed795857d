import OfsConvert.GroupUpdates

/-!
# Initial block groups

`init_ext4_group_descs` writes the prefix of every group. The bits set in the bitmaps are those of
the prefix, of the reserved inodes and of what lies behind the group; the inode tables are 0.
-/

namespace OfsConvert

/-- The bytes of the metadata prefix of a group. -/
def prefixBytes (g : Globals) (i : ℕ) : Set ℕ :=
  bytesFrom (blockStart g.metaInfo g.sb (blockGroupStart g.sb i))
    (blockStart g.metaInfo g.sb (blockGroupStart g.sb i + blockGroupOverhead g.sb i))

/-- The inodes of a group that are in use from the start. -/
def usedInodes (i : ℕ) : ℕ := if i = 0 then ext4FirstNonRsvInode else 0

/-- The bitmaps and the inode table of a group as `init_ext4_group_descs` leaves them. -/
structure InitialGroup (g : Globals) (i : ℕ) (m : Mem) : Prop where
  blockBits : ∀ n < 8 * blockSize g.sb, bitAt m (blockBitmapAddr g i) n =
    decide (n < blockGroupOverhead g.sb i ∨ blockGroupBlockCount g.sb i ≤ n)
  inodeBits : ∀ n < 8 * blockSize g.sb, bitAt m (inodeBitmapAddr g i) n =
    decide (n < usedInodes i ∨ g.sb.sInodesPerGroup ≤ n)
  table : ∀ k < tableBlocks g.metaInfo.clusterSize * blockSize g.sb,
    m (inodeTableAddr g i + k) = 0

section

variable {g : Globals}

/-- The inode bitmap is the block behind the block bitmap. -/
theorem inodeBitmapAddr_eq (g : Globals) (i : ℕ) :
    inodeBitmapAddr g i = blockBitmapAddr g i + blockSize g.sb := by
  rw [inodeBitmapAddr, blockStart_add, Nat.one_mul, blockBitmapAddr]

/-- The inode table starts behind the inode bitmap. -/
theorem inodeTableAddr_eq (g : Globals) (i : ℕ) :
    inodeTableAddr g i = inodeBitmapAddr g i + blockSize g.sb := by
  rw [inodeTableAddr, blockStart_add, inodeBitmapAddr, blockStart_add]
  omega

/-- The bitmaps and the table come in that order. -/
theorem inodeBitmapAddr_le (g : Globals) (i : ℕ) :
    blockBitmapAddr g i ≤ inodeBitmapAddr g i ∧ inodeBitmapAddr g i ≤ inodeTableAddr g i := by
  rw [inodeTableAddr_eq, inodeBitmapAddr_eq]
  omega

/-- A cleared bitmap with two ranges of bits set. -/
theorem bitAt_twoRanges {m m₁ m₂ : Mem} {a n b c e i : ℕ}
    (h₁ : BitsSet a 0 b (m.fill a n 0) m₁) (h₂ : BitsSet a c e m₁ m₂) (hi : i < 8 * n)
    (he : e = 8 * n) : bitAt m₂ a i = decide (i < b ∨ c ≤ i) := by
  have hzero : bitAt (m.fill a n 0) a i = false := by
    rw [bitAt, Mem.fill_apply (by omega)]
    exact Nat.zero_testBit _
  rw [h₂.bits, h₁.bits, hzero, Bool.false_or, ← Bool.decide_or, decide_eq_decide]
  omega

variable (hg : Accepted g)
include hg

/-- The metadata of a group runs from its start to the end of its inode table. -/
theorem Accepted.prefixBytes_eq {i : ℕ} (hi : i < blockGroupCount g.sb) :
    prefixBytes g i = bytesFrom (blockStart g.metaInfo g.sb (blockGroupStart g.sb i))
      (inodeTableAddr g i + tableBlocks g.metaInfo.clusterSize * blockSize g.sb) := by
  rw [prefixBytes, ← (hg.blockBitmapBlock_eq hi).2.1, blockStart_add, inodeTableAddr]

/-- The bytes from the block bitmap to the end of the inode table are in the prefix. -/
theorem Accepted.subset_prefixBytes {i a b : ℕ} (hi : i < blockGroupCount g.sb)
    (ha : blockBitmapAddr g i ≤ a)
    (hb : b ≤ inodeTableAddr g i + tableBlocks g.metaInfo.clusterSize * blockSize g.sb) :
    bytesFrom a b ⊆ prefixBytes g i := by
  rw [hg.prefixBytes_eq hi]
  intro x hx
  have hstart := blockStart_mono (g := g) (hg.blockBitmapBlock_eq hi).1
  rw [blockBitmapAddr] at ha
  exact ⟨hstart.trans (ha.trans hx.1), hx.2.trans_le hb⟩

/-- The bytes of a prefix lie in its blocks. -/
theorem Accepted.inPrefix_of_mem {i a : ℕ} (ha : a ∈ prefixBytes g i) :
    ∃ b, InPrefix g i b ∧ InBlock g b a := by
  obtain ⟨hlow, hhigh⟩ := ha
  rw [blockStart_add] at hhigh
  obtain ⟨b, hb, hb', hin⟩ := hg.inBlock_of_range hlow hhigh
  exact ⟨b, ⟨hb, hb'⟩, hin⟩

/-- The prefixes of two groups share no byte. -/
theorem Accepted.prefixBytes_disjoint {i j a : ℕ} (hi : i < blockGroupCount g.sb)
    (hj : j < blockGroupCount g.sb) (ha : a ∈ prefixBytes g i) (ha' : a ∈ prefixBytes g j) :
    i = j := by
  obtain ⟨b, hb, hin⟩ := hg.inPrefix_of_mem ha
  obtain ⟨b', hb', hin'⟩ := hg.inPrefix_of_mem ha'
  obtain rfl := inBlock_unique hin hin'
  exact hg.prefix_unique hi hj hb hb'

/-- The descriptor of a group names its places. -/
theorem Accepted.placedDesc_initial {i : ℕ} (hi : i < blockGroupCount g.sb) :
    PlacedDesc g i (initialGroupDesc g.sb i) := by
  have hlt := hg.blockBitmapBlock_lt hi
  refine ⟨?_, ?_, ?_⟩
  · rw [Ext4GroupDesc.blockBitmap, initialGroupDesc, fromLoHi_setLoHi64 (by omega), blockBitmapAddr]
  · rw [Ext4GroupDesc.inodeBitmap, initialGroupDesc, u64_of_lt (by omega),
      fromLoHi_setLoHi64 (by omega), inodeBitmapAddr]
  · rw [Ext4GroupDesc.inodeTable, initialGroupDesc, u64_of_lt (n := _ + 2) (by omega),
      fromLoHi_setLoHi64 (by omega), inodeTableAddr]

/-- One round of `init_ext4_group_descs`. -/
theorem initGroup_spec {i : ℕ} (hi : i < blockGroupCount g.sb) {s : State}
    {E : Halt → State → Prop} :
    wp (initGroup g i)
      (fun _ t => Touches (prefixBytes g i) s t ∧
        t.ext4 = s.ext4.setDesc i (initialGroupDesc g.sb i) ∧ InitialGroup g i t.mem) E s := by
  have hlt := hg.blockBitmapBlock_lt hi
  have hsize := hg.blockSize_ge
  have hsize' := hg.blockSize_le
  obtain ⟨-, hgroup, -, -, -, hinodes, hlow, hhigh, -⟩ := hg.numbers
  rw [← hg.blockSize_eq] at hgroup hinodes
  have hcount : blockGroupBlockCount g.sb i ≤ 8 * blockSize g.sb :=
    (Nat.min_le_left _ _).trans hgroup
  have hused : usedInodes i ≤ 11 := by
    unfold usedInodes ext4FirstNonRsvInode
    split <;> omega
  have htable : blockSize g.sb * tableBlocks g.metaInfo.clusterSize < 2 ^ 32 := by
    have hmul := Nat.mul_le_mul hsize' hhigh
    omega
  have hmulPos : 128 * blockSize g.sb ≤
      tableBlocks g.metaInfo.clusterSize * blockSize g.sb := Nat.mul_le_mul_right _ hlow
  have hover := hg.blockGroupOverhead_le i
  have hbits : u32 (blockSize g.sb * 8) = 8 * blockSize g.sb := by
    rw [u32_of_lt (by omega), Nat.mul_comm]
  have hinodeAddr := inodeBitmapAddr_eq g i
  have htableAddr := inodeTableAddr_eq g i
  have hin : ∀ a b, blockBitmapAddr g i ≤ a →
      b ≤ inodeTableAddr g i + tableBlocks g.metaInfo.clusterSize * blockSize g.sb →
      bytesFrom a b ⊆ prefixBytes g i := fun a b => hg.subset_prefixBytes hi
  have hdiv : 8 * blockSize g.sb / 32 = blockSize g.sb / 4 := by omega
  rw [initGroup, u64_of_lt (n := _ + 1) (by omega), u64_of_lt (n := _ + 2) (by omega), hbits,
    hg.inodeTableBlocks_eq, u32_of_lt htable, ← blockBitmapAddr, ← inodeBitmapAddr,
    ← inodeTableAddr, ← usedInodes]
  simp only [wp_bind, wp_setGroupDesc, wp_memset]
  -- the block bitmap
  refine wp_mono_ok (bitmapSetBits_spec (Nat.zero_le _)) ?_
  intro _ s₁ h₁
  obtain ⟨htouch₁, hext₁, hbits₁⟩ := h₁
  refine wp_mono_ok (bitmapSetBits_spec hcount) ?_
  intro _ s₂ h₂
  obtain ⟨htouch₂, hext₂, hbits₂⟩ := h₂
  -- the inode bitmap
  refine wp_mono_ok (bitmapSetBits_spec (Nat.zero_le _)) ?_
  intro _ s₃ h₃
  obtain ⟨htouch₃, hext₃, hbits₃⟩ := h₃
  refine wp_mono_ok (bitmapSetBits_spec hinodes) ?_
  intro _ s₄ h₄
  obtain ⟨htouch₄, hext₄, hbits₄⟩ := h₄
  have hdiv₁ : overheadOf g.sb (blockGroupHasSbCopy g.sb i) / 32 ≤ 161 := by
    rw [← blockGroupOverhead]
    omega
  have hsize4 : 4 * (blockSize g.sb / 4) ≤ blockSize g.sb := by omega
  refine ⟨?_, ?_, ?_, ?_, ?_⟩
  · have hfill₁ : Touches (prefixBytes g i) s _ :=
      (Touches.refl (prefixBytes g i) s).ofExt4 (e := s.ext4.setDesc i (initialGroupDesc g.sb i))
    refine ((((hfill₁.trans (Touches.stored _ ?_ (Mem.sameOutside_fill _ _ _ _))).trans
      (htouch₁.mono (hin _ _ (by omega) (by omega)))).trans
      (htouch₂.mono (hin _ _ (by omega) (by omega)))).trans ?_).trans
      (Touches.stored _ ?_ (Mem.sameOutside_fill _ _ _ _))
    · intro a hlow hhigh
      exact hin _ _ (by omega) (by omega) ⟨hlow, hhigh⟩
    · refine ((Touches.stored _ ?_ (Mem.sameOutside_fill _ _ _ _)).trans
        (htouch₃.mono (hin _ _ (by omega) (by omega)))).trans
        (htouch₄.mono (hin _ _ (by omega) (by omega)))
      intro a hlow hhigh
      exact hin _ _ (by omega) (by omega) ⟨hlow, hhigh⟩
    · intro a hlow hhigh
      refine hin (inodeTableAddr g i) _ (by omega) le_rfl ⟨hlow, ?_⟩
      rwa [Nat.mul_comm]
  · rw [State.stored_ext4, hext₄, hext₃, State.stored_ext4, hext₂, hext₁]
    rfl
  · intro n hn
    have hbyte : ∀ k, k < blockSize g.sb →
        (s₄.stored (inodeTableAddr g i) (blockSize g.sb * tableBlocks g.metaInfo.clusterSize)
          (s₄.mem.fill (inodeTableAddr g i)
            (blockSize g.sb * tableBlocks g.metaInfo.clusterSize) 0)).mem
          (blockBitmapAddr g i + k) = s₂.mem (blockBitmapAddr g i + k) := by
      intro k hk
      rw [State.stored_mem, Mem.sameOutside_fill _ _ _ _ _ (by omega),
        htouch₄.mem _ (fun h => by have := h.1; omega),
        htouch₃.mem _ (fun h => by have := h.1; omega), State.stored_mem,
        Mem.sameOutside_fill _ _ _ _ _ (by omega)]
    rw [bitAt_congr (hbyte _ (by omega)), bitAt_twoRanges hbits₁ hbits₂ hn rfl, blockGroupOverhead]
  · intro n hn
    have hbyte : s₄.mem.fill (inodeTableAddr g i)
        (blockSize g.sb * tableBlocks g.metaInfo.clusterSize) 0 (inodeBitmapAddr g i + n / 8) =
          s₄.mem (inodeBitmapAddr g i + n / 8) :=
      Mem.sameOutside_fill _ _ _ _ _ (by omega)
    rw [State.stored_mem, bitAt_congr hbyte, bitAt_twoRanges hbits₃ hbits₄ hn rfl]
  · intro k hk
    rw [State.stored_mem, Mem.fill_apply (by rwa [Nat.mul_comm])]

/-- A group reads the same in a memory that agrees on its prefix. -/
theorem InitialGroup.congr {i : ℕ} (hi : i < blockGroupCount g.sb) {m m' : Mem}
    (h : InitialGroup g i m) (hm : ∀ a ∈ prefixBytes g i, m' a = m a) : InitialGroup g i m' := by
  have hsize := hg.blockSize_ge
  have hinodeAddr := inodeBitmapAddr_eq g i
  have htableAddr := inodeTableAddr_eq g i
  have hin : ∀ a, blockBitmapAddr g i ≤ a →
      a < inodeTableAddr g i + tableBlocks g.metaInfo.clusterSize * blockSize g.sb →
      m' a = m a := fun a hlow hhigh =>
    hm a (hg.subset_prefixBytes hi hlow (Nat.succ_le_of_lt hhigh) ⟨le_rfl, Nat.lt_succ_self a⟩)
  refine ⟨fun n hn => ?_, fun n hn => ?_, fun k hk => ?_⟩
  · rw [bitAt_congr (hin _ (by omega) (by omega)), h.blockBits n hn]
  · rw [bitAt_congr (hin _ (by omega) (by omega)), h.inodeBits n hn]
  · rw [hin _ (by omega) (by omega), h.table k hk]

/-- The rounds for the groups from `i` on. -/
theorem initGroups_spec (count : ℕ) {i : ℕ} (hi : i + count = blockGroupCount g.sb) {s : State}
    (hlength : s.ext4.groupDescs.length = blockGroupCount g.sb) {E : Halt → State → Prop} :
    wp (initGroups g count i)
      (fun _ t => Touches {a | ∃ j, i ≤ j ∧ j < blockGroupCount g.sb ∧ a ∈ prefixBytes g j} s t ∧
        (∃ descs, t.ext4 = { s.ext4 with groupDescs := descs } ∧
          descs = s.ext4.groupDescs.take i ++
            (List.range' i count).map (initialGroupDesc g.sb)) ∧
        ∀ j, i ≤ j → j < blockGroupCount g.sb → InitialGroup g j t.mem) E s := by
  induction count generalizing i s with
  | zero =>
    refine ⟨Touches.refl _ s, ⟨_, rfl, ?_⟩, fun j hlow hhigh => by omega⟩
    rw [List.take_of_length_le (by omega), List.range'_zero, List.map_nil, List.append_nil]
  | succ count ih =>
    rw [initGroups, wp_bind]
    refine wp_mono_ok (initGroup_spec hg (i := i) (by omega)) ?_
    intro _ u hu
    obtain ⟨htouch, hext4, hgroup⟩ := hu
    have hdescs : u.ext4.groupDescs = s.ext4.groupDescs.set i (initialGroupDesc g.sb i) := by
      rw [hext4]
      rfl
    refine wp_mono_ok (ih (i := i + 1) (by omega) (by rw [hdescs, List.length_set, hlength])) ?_
    intro _ t ht
    obtain ⟨htouch', ⟨descs, hext4', hdescs'⟩, hgroups⟩ := ht
    refine ⟨(htouch.mono ?_).trans (htouch'.mono ?_), ⟨descs, ?_, ?_⟩, ?_⟩
    · intro a ha
      exact ⟨i, le_rfl, by omega, ha⟩
    · rintro a ⟨j, hlow, hhigh, ha⟩
      exact ⟨j, by omega, hhigh, ha⟩
    · rw [hext4', hext4]
      rfl
    · have hlt : i < (s.ext4.groupDescs.set i (initialGroupDesc g.sb i)).length := by
        rw [List.length_set]
        omega
      rw [hdescs', hdescs, List.range'_succ, List.map_cons, List.take_succ_eq_append_getElem hlt,
        List.getElem_set_self, List.take_set_of_le le_rfl, List.append_assoc, List.singleton_append]
    · intro j hlow hhigh
      rcases Nat.eq_or_lt_of_le hlow with rfl | hlt
      · refine hgroup.congr hg hhigh fun a ha => htouch'.mem a ?_
        rintro ⟨j, hlow', hhigh', ha'⟩
        have heq := hg.prefixBytes_disjoint hhigh hhigh' ha ha'
        omega
      · exact hgroups j hlt hhigh

/-- `init_ext4_group_descs` writes the prefixes and the descriptors of all groups. -/
theorem initExt4GroupDescs_spec (s : State) {E : Halt → State → Prop} :
    wp (initExt4GroupDescs g)
      (fun _ t => Touches {a | ∃ i < blockGroupCount g.sb, a ∈ prefixBytes g i} s t ∧
        t.ext4 = { s.ext4 with
          groupDescs := (List.range (blockGroupCount g.sb)).map (initialGroupDesc g.sb) } ∧
        ∀ i < blockGroupCount g.sb, InitialGroup g i t.mem) E s := by
  rw [initExt4GroupDescs, wp_bind, wp_modify]
  refine wp_mono_ok (initGroups_spec hg (blockGroupCount g.sb) (Nat.zero_add _)
    List.length_replicate) ?_
  intro _ t ht
  obtain ⟨htouch, ⟨descs, hext4, hdescs⟩, hgroups⟩ := ht
  refine ⟨(Touches.refl _ s).ofExt4.trans (htouch.mono ?_), ?_, fun i hi => hgroups i (Nat.zero_le i) hi⟩
  · rintro a ⟨i, -, hi, ha⟩
    exact ⟨i, hi, ha⟩
  · rw [hext4, hdescs, List.take_zero, List.nil_append, ← List.range_eq_range']

/-- The initial descriptors name the places of their groups. -/
theorem Accepted.placed_initial :
    Placed g ((List.range (blockGroupCount g.sb)).map (initialGroupDesc g.sb)) := by
  refine ⟨by rw [List.length_map, List.length_range], fun i bg hbg => ?_⟩
  rw [List.getElem?_map, Option.map_eq_some_iff] at hbg
  obtain ⟨j, hj, rfl⟩ := hbg
  obtain ⟨hlt, rfl⟩ := List.getElem?_eq_some_iff.mp hj
  rw [List.getElem_range] at *
  exact hg.placedDesc_initial (by rwa [List.length_range] at hlt)

/-- The block of a byte of the bitmaps of a group. -/
theorem Accepted.bitmap_inPrefix {i a : ℕ} (hi : i < blockGroupCount g.sb)
    (hlow : blockBitmapAddr g i ≤ a) (hhigh : a < inodeTableAddr g i) :
    ∃ b, InPrefix g i b ∧ b < blockBitmapBlock g.sb i + 2 ∧ InBlock g b a := by
  rw [inodeTableAddr, blockStart_add] at hhigh
  obtain ⟨b, hb, hb', hin⟩ := hg.inBlock_of_range hlow hhigh
  obtain ⟨k, rfl⟩ := Nat.exists_eq_add_of_le hb
  exact ⟨_, hg.inPrefix_of_le hi (by omega), hb', hin⟩

/-- A byte of an inode is behind the bitmaps of every group whose bitmaps start before it. -/
theorem Accepted.inode_behind_bitmaps {n a i : ℕ} (hn : InodePlace g.sb n)
    (hin : a ∈ inodeBytes g n) (hi : i < blockGroupCount g.sb) (hlow : blockBitmapAddr g i ≤ a) :
    inodeTableAddr g i ≤ a := by
  by_contra hhigh
  obtain ⟨b, hb, hbehind, hba⟩ := hg.inodeAddr_inPrefix hn hin.1 hin.2
  obtain ⟨c, hc, hbefore, hca⟩ := hg.bitmap_inPrefix hi hlow (Nat.not_le.mp hhigh)
  obtain rfl := inBlock_unique hba hca
  obtain rfl := hg.prefix_unique hn.group hi hb hc
  omega

/-- A byte of an inode bitmap is in no block bitmap. -/
theorem Accepted.bitmaps_disjoint {i j a : ℕ} (hi : i < blockGroupCount g.sb)
    (hj : j < blockGroupCount g.sb) (hlow : blockBitmapAddr g i ≤ a)
    (hhigh : a < inodeBitmapAddr g i) (hlow' : inodeBitmapAddr g j ≤ a)
    (hhigh' : a < inodeTableAddr g j) : False := by
  have hpos := hg.inPrefix_of_le hi (k := 0) (by omega)
  have hnext := hg.inPrefix_of_le hj (k := 1) (by omega)
  have hblock : InBlock g (blockBitmapBlock g.sb i) a := by
    rw [inodeBitmapAddr_eq] at hhigh
    exact ⟨hlow, hhigh⟩
  have hblock' : InBlock g (blockBitmapBlock g.sb j + 1) a := by
    rw [inodeTableAddr_eq] at hhigh'
    exact ⟨hlow', hhigh'⟩
  have heq := inBlock_unique hblock hblock'
  rw [Nat.add_zero, heq] at hpos
  obtain rfl := hg.prefix_unique hi hj hpos hnext
  omega

/-- The byte of the inode bitmap that has the bit of an inode. -/
theorem Accepted.inodeBit_place {n : ℕ} (hn : InodePlace g.sb n) :
    inodeBitmapAddr g (inodeGroup g.sb n) + inodeIndex g.sb n / 8 <
      inodeTableAddr g (inodeGroup g.sb n) := by
  obtain ⟨-, hindex⟩ := hg.inodeNo_eq hn
  obtain ⟨-, -, -, -, -, hinodes, -⟩ := hg.numbers
  rw [← hg.blockSize_eq] at hinodes
  rw [inodeTableAddr_eq]
  omega

end

end OfsConvert
