import OfsConvert.GroupAccounts

/-!
# The accounts of new inodes

`init_ext4_group_descs` opens the accounts of the groups. `add_inode` takes one number from the free
ones of its group, `add_reserved_inode` takes none; both count a directory.
-/

namespace OfsConvert

/-- The place of an inode is still 0. -/
def Blank (g : Globals) (m : Mem) (n : ℕ) : Prop := ∀ a ∈ inodeBytes g n, m a = 0

/-- Every group has room for its metadata prefix. -/
def GroupsFit (g : Globals) : Prop :=
  ∀ i < blockGroupCount g.sb, blockGroupOverhead g.sb i ≤ blockGroupBlockCount g.sb i

section Fields

/-- A part of a concatenation that ends before the last piece. -/
theorem take_drop_append {a b : List UInt8} {i w : ℕ} (h : i + w ≤ a.length) :
    ((a ++ b).drop i).take w = (a.drop i).take w := by
  rw [List.drop_append_of_le_length (by omega),
    List.take_append_of_le_length (by rw [List.length_drop]; omega)]

/-- The last piece of a concatenation. -/
theorem take_drop_last {a b : List UInt8} {i w : ℕ} (h : a.length = i) (hw : b.length = w) :
    ((a ++ b).drop i).take w = b := by
  rw [List.drop_left' h, List.take_of_length_le (by omega)]

variable {g : Globals} {m : Mem} {n : ℕ} {inode : Ext4Inode}

/-- The pieces of an inode that the conversion updates or computes with. -/
theorem Ext4Inode.pieces (inode : Ext4Inode) :
    inode.bytes.take 2 = leBytes 2 inode.iMode ∧
      (inode.bytes.drop iLinksCountOffset).take 2 = leBytes 2 inode.iLinksCount ∧
      (inode.bytes.drop iBlocksLoOffset).take 4 = leBytes 4 0 ∧
      (inode.bytes.drop extHeaderOffset).take sizeofExtentHeader = inode.extHeader.bytes ∧
      (inode.bytes.drop iBlocksHighOffset).take 2 = leBytes 2 0 := by
  have hheader := length_extentHeader_bytes inode.extHeader
  unfold sizeofExtentHeader at hheader
  unfold Ext4Inode.bytes iLinksCountOffset iBlocksLoOffset extHeaderOffset iBlocksHighOffset
    sizeofExtentHeader
  refine ⟨?_, ?_, ?_, ?_, ?_⟩
  · repeat rw [List.take_append_of_le_length (by
      simp only [List.length_append, length_leBytes, hheader]
      omega)]
    exact List.take_of_length_le (length_leBytes _ _).le
  · repeat rw [take_drop_append (by
      simp only [List.length_append, length_leBytes, hheader]
      omega)]
    exact take_drop_last (by simp only [List.length_append, length_leBytes]) (length_leBytes _ _)
  · repeat rw [take_drop_append (by
      simp only [List.length_append, length_leBytes, hheader]
      omega)]
    exact take_drop_last (by simp only [List.length_append, length_leBytes]) (length_leBytes _ _)
  · repeat rw [take_drop_append (by
      simp only [List.length_append, length_leBytes, hheader]
      omega)]
    exact take_drop_last (by simp only [List.length_append, length_leBytes]) hheader
  · repeat rw [take_drop_append (by
      simp only [List.length_append, length_leBytes, hheader]
      omega)]
    -- the high half of the count is among the 20 zero bytes behind the extents
    have hlength : ∀ a b : List UInt8, a.length = 100 → (a ++ b).drop 116 = b.drop 16 := by
      intro a b ha
      rw [List.drop_append, List.drop_of_length_le (by omega), ha, List.nil_append]
    rw [hlength _ _ (by simp only [List.length_append, length_leBytes, hheader])]
    decide

/-- A field of a stored inode. -/
theorem inodeField_of_read (h : m.read (inodeAddr g n) sizeofExt4Inode = inode.bytes) {i w : ℕ}
    (hiw : i + w ≤ sizeofExt4Inode) :
    inodeField g m n i w = leNat ((inode.bytes.drop i).take w) := by
  rw [inodeField, Mem.readLE, ← h, Mem.read_drop_take _ _ _ _ _ hiw]

/-- The mode of an inode that was stored whole. -/
theorem modeOf_of_read (h : m.read (inodeAddr g n) sizeofExt4Inode = inode.bytes)
    (hmode : inode.iMode < 2 ^ 16) : modeOf g m n = inode.iMode := by
  rw [modeOf, inodeField_of_read h (by decide), List.drop_zero, inode.pieces.1,
    leNat_leBytes_of_lt (by omega)]

/-- An inode that was stored whole has no blocks yet. -/
theorem blocksOf_of_read (h : m.read (inodeAddr g n) sizeofExt4Inode = inode.bytes) :
    blocksOf g m n = 0 := by
  obtain ⟨-, -, hlo, -, hhi⟩ := inode.pieces
  rw [blocksOf, inodeField_of_read h (by decide), inodeField_of_read h (by decide), hlo, hhi]
  rfl

/-- A block of zero bytes is the number 0. -/
theorem readLE_eq_zero {a w : ℕ} (h : ∀ i < w, m (a + i) = 0) : m.readLE a w = 0 := by
  have hread : m.read a w = Mem.read (fun _ => 0) a w := Mem.read_congr h
  have hzero : ∀ w, leNat (List.replicate w (0 : UInt8)) = 0 := by
    intro w
    induction w with
    | zero => rfl
    | succ w ih =>
      rw [List.replicate_succ, leNat, ih]
      rfl
  rw [Mem.readLE, hread, Mem.read, List.map_const', List.length_range, hzero]

/-- Each field of a blank inode is zero. -/
theorem Blank.field (h : Blank g m n) {i w : ℕ} (hiw : i + w ≤ ext4InodeSize) :
    inodeField g m n i w = 0 :=
  readLE_eq_zero fun j hj => h _ ⟨by omega, by omega⟩

/-- A blank inode has no mode. -/
theorem Blank.mode (h : Blank g m n) : modeOf g m n = 0 := h.field (by decide)

/-- A blank inode has no blocks. -/
theorem Blank.blocks (h : Blank g m n) : blocksOf g m n = 0 := by
  rw [blocksOf, h.field (by decide), h.field (by decide)]
  rfl

end Fields

section Adding

variable {g : Globals} {s t : State} {E : Halt → State → Prop} {n : ℕ} {bg bg' : Ext4GroupDesc}

/-- One more directory in the table of its group. -/
theorem usedDirs_put (hg : Accepted g) (hn : InodePlace g.sb n) {m m' : Mem}
    (hold : isDirectoryMode (modeOf g m n) = false)
    (hother : ∀ k, InodePlace g.sb k → k ≠ n → modeOf g m' k = modeOf g m k) :
    usedDirs g m' (inodeGroup g.sb n) =
      usedDirs g m (inodeGroup g.sb n) + (isDirectoryMode (modeOf g m' n)).toNat := by
  have hmem : n ∈ inodesOf g (inodeGroup g.sb n) := (hg.mem_inodesOf hn.group).mpr ⟨hn, rfl⟩
  have hrest : ∀ k ∈ inodesOf g (inodeGroup g.sb n), k ≠ n →
      modeOf g m' k = modeOf g m k := fun k hk hne =>
    hother k ((hg.mem_inodesOf hn.group).mp hk).1 hne
  rw [usedDirs, usedDirs]
  cases hnew : isDirectoryMode (modeOf g m' n) with
  | false =>
    rw [Bool.toNat_false, Nat.add_zero]
    congr 1
    apply Finset.filter_congr
    intro k hk
    by_cases hkn : k = n
    · rw [hkn, hnew, hold]
    · rw [hrest k hk hkn]
  | true =>
    have hinsert : {k ∈ inodesOf g (inodeGroup g.sb n) | isDirectoryMode (modeOf g m' k)} =
        insert n {k ∈ inodesOf g (inodeGroup g.sb n) | isDirectoryMode (modeOf g m k)} := by
      ext k
      rw [Finset.mem_insert, Finset.mem_filter, Finset.mem_filter]
      by_cases hkn : k = n
      · subst hkn
        simp [hnew, hmem]
      · constructor
        · rintro ⟨hk, hdir⟩
          rw [hrest k hk hkn] at hdir
          exact Or.inr ⟨hk, hdir⟩
        · rintro (heq | ⟨hk, hdir⟩)
          · exact absurd heq hkn
          · rw [← hrest k hk hkn] at hdir
            exact ⟨hk, hdir⟩
    rw [hinsert, Finset.card_insert_of_notMem, Bool.toNat_true]
    rw [Finset.mem_filter, hold]
    exact fun hin => Bool.false_ne_true hin.2

/-- An inode is put into a blank place, and the descriptor of its group follows. -/
theorem Ledger.putInode (h : Ledger g s) (hg : Accepted g) (hplaced : Placed g s.ext4.groupDescs)
    (hn : InodePlace g.sb n) (hbg : s.ext4.groupDescs[inodeGroup g.sb n]? = some bg)
    (hblank : Blank g s.mem n)
    (hmem : ∀ a, a ∉ inodeBitByte g n → a ∉ inodeBytes g n → t.mem a = s.mem a)
    (hblocks : blocksOf g t.mem n = 0)
    (hdescs : t.ext4.groupDescs = s.ext4.groupDescs.set (inodeGroup g.sb n) bg')
    (hregistered : t.ext4.registered = s.ext4.registered)
    (hfreeBlocks : fromLoHi16 bg'.bgFreeBlocksCountLo bg'.bgFreeBlocksCountHi =
      fromLoHi16 bg.bgFreeBlocksCountLo bg.bgFreeBlocksCountHi)
    (hfreeInodes : fromLoHi16 bg'.bgFreeInodesCountLo bg'.bgFreeInodesCountHi =
      zeroBits t.mem (inodeBitmapAddr g (inodeGroup g.sb n)) g.sb.sInodesPerGroup)
    (hdirs : fromLoHi16 bg'.bgUsedDirsCountLo bg'.bgUsedDirsCountHi =
      fromLoHi16 bg.bgUsedDirsCountLo bg.bgUsedDirsCountHi +
        (isDirectoryMode (modeOf g t.mem n)).toNat)
    (hbehind : ∀ k, g.sb.sInodesPerGroup ≤ k → k < 8 * blockSize g.sb →
      bitAt t.mem (inodeBitmapAddr g (inodeGroup g.sb n)) k =
        bitAt s.mem (inodeBitmapAddr g (inodeGroup g.sb n)) k)
    (hhalves : bg.Halves → bg'.Halves) : Ledger g t := by
  have hplace := hg.inodeBit_place hn
  have hbit : ∀ a ∈ inodeBitByte g n, inodeBitmapAddr g (inodeGroup g.sb n) ≤ a ∧
      a < inodeTableAddr g (inodeGroup g.sb n) := by
    rintro a ⟨hlow, hhigh⟩
    omega
  have hlow := (inodeBitmapAddr_le g (inodeGroup g.sb n)).1
  -- bitmaps of other groups, and the block bitmap of this one
  have hbitmaps : ∀ j < blockGroupCount g.sb, ∀ a, blockBitmapAddr g j ≤ a →
      a < inodeTableAddr g j → (inodeGroup g.sb n = j → a < inodeBitmapAddr g j) →
      t.mem a = s.mem a := by
    intro j hj a ha ha' hout
    refine hmem a (fun hin => ?_) fun hin => ?_
    · obtain ⟨hin₁, hin₂⟩ := hbit a hin
      obtain rfl := hg.bitmaps_unique hn.group hj (by omega) hin₂ ha ha'
      have := hout rfl
      omega
    · have := hg.inode_behind_bitmaps hn hin hj ha
      omega
  have hinodes : ∀ k, InodePlace g.sb k → k ≠ n → ∀ a ∈ inodeBytes g k, t.mem a = s.mem a := by
    intro k hk hkn a ha
    refine hmem a (fun hin => ?_) fun hin => hkn (hg.inodeBytes_apart hk hn ha hin)
    obtain ⟨hin₁, hin₂⟩ := hbit a hin
    have := hg.inode_behind_bitmaps hk ha hn.group (by omega)
    omega
  have hmodes : ∀ k, InodePlace g.sb k → k ≠ n → modeOf g t.mem k = modeOf g s.mem k :=
    fun k hk hkn => modeOf_congr fun a hlow hhigh =>
      hinodes k hk hkn a (modeBytes_subset hlow hhigh)
  obtain ⟨-, -, -, -, -, hinodeCount, -⟩ := hg.numbers
  rw [← hg.blockSize_eq] at hinodeCount
  refine ⟨fun j d hd => ?_, fun j hj => ?_, fun k hk => ?_⟩
  · have hj : j < blockGroupCount g.sb := by
      have hlt := (List.getElem?_eq_some_iff.mp hd).1
      rw [hdescs, List.length_set] at hlt
      rwa [← hplaced.length]
    by_cases hij : inodeGroup g.sb n = j
    · subst hij
      have hlt : inodeGroup g.sb n < s.ext4.groupDescs.length :=
        (List.getElem?_eq_some_iff.mp hbg).1
      rw [hdescs, List.getElem?_set_self hlt] at hd
      obtain rfl := Option.some.inj hd
      have hold := h.groups _ bg hbg
      have hinode := inodeBitmapAddr_eq g (inodeGroup g.sb n)
      have hsame : ∀ k < 8 * blockSize g.sb,
          t.mem (blockBitmapAddr g (inodeGroup g.sb n) + k / 8) =
            s.mem (blockBitmapAddr g (inodeGroup g.sb n) + k / 8) := by
        intro k hk
        have := (inodeBitmapAddr_le g (inodeGroup g.sb n)).2
        exact hbitmaps _ hn.group _ (by omega) (by omega) fun _ => by omega
      refine ⟨?_, hfreeInodes, ?_, fun k hk hk' => ?_, fun k hk hk' => ?_, hhalves hold.halves⟩
      · rw [hfreeBlocks, hold.freeBlocks, zeroBits_congr hsame]
      · rw [hdirs, hold.directories,
          usedDirs_put hg hn (by rw [hblank.mode]; rfl) hmodes]
      · rw [bitAt_congr (hsame k hk')]
        exact hold.behindBlocks k hk hk'
      · rw [hbehind k hk hk']
        exact hold.behindInodes k hk hk'
    · rw [hdescs, List.getElem?_set_ne hij] at hd
      refine (h.groups j d hd).congr hg (fun a ha ha' =>
        hbitmaps j hj a ha ha' fun heq => absurd heq hij) fun k hk => ?_
      obtain ⟨hplace', hgroup⟩ := (hg.mem_inodesOf hj).mp hk
      refine hmodes k hplace' fun hkn => hij ?_
      rw [← hkn, hgroup]
  · rw [hregistered]
    exact (h.bits j hj).congr fun a ha ha' =>
      hbitmaps j hj a ha (ha'.trans_le (inodeBitmapAddr_le g j).2) fun _ => ha'
  · rw [hregistered, ← h.blocks k hk]
    by_cases hkn : k = n
    · rw [hkn, hblocks, hblank.blocks]
    · exact blocksOf_congr fun a ha => hinodes k hk hkn a (blocksFields_subset ha)

/-- There are at most as many directories as inodes. -/
theorem usedDirs_le (m : Mem) (i : ℕ) : usedDirs g m i ≤ g.sb.sInodesPerGroup := by
  have hle : usedDirs g m i ≤ (inodesOf g i).card := Finset.card_filter_le _ _
  rw [inodesOf, Nat.card_Ioc, Nat.add_mul, Nat.one_mul, Nat.add_sub_cancel_left] at hle
  exact hle

/-- The mode says whether the inode is a directory. -/
theorem isDirectoryMode_iMode (inode : Ext4Inode) :
    isDirectoryMode inode.iMode = inode.isDirectory := rfl

/-- Counting a directory. -/
theorem countDir_counts (hg : Accepted g) (isDirectory : Bool) {i : ℕ} {m : Mem}
    (hdirs : fromLoHi16 bg.bgUsedDirsCountLo bg.bgUsedDirsCountHi = usedDirs g m i) :
    fromLoHi16 (bg.countDir isDirectory).bgUsedDirsCountLo
        (bg.countDir isDirectory).bgUsedDirsCountHi =
      fromLoHi16 bg.bgUsedDirsCountLo bg.bgUsedDirsCountHi + isDirectory.toNat := by
  obtain ⟨-, -, -, -, hinodes, -⟩ := hg.numbers
  have hle := usedDirs_le (g := g) m i
  cases isDirectory with
  | false => rfl
  | true =>
    rw [Ext4GroupDesc.countDir, if_pos rfl]
    dsimp only
    rw [fromLoHi16_incr rfl (by omega), Bool.toNat_true]

/-- Counting a directory leaves the free blocks. -/
theorem countDir_freeBlocks (isDirectory : Bool) :
    fromLoHi16 (bg.countDir isDirectory).bgFreeBlocksCountLo
        (bg.countDir isDirectory).bgFreeBlocksCountHi =
      fromLoHi16 bg.bgFreeBlocksCountLo bg.bgFreeBlocksCountHi := by
  cases isDirectory <;> rfl

/-- Counting a directory leaves the free inodes. -/
theorem countDir_freeInodes (isDirectory : Bool) :
    fromLoHi16 (bg.countDir isDirectory).bgFreeInodesCountLo
        (bg.countDir isDirectory).bgFreeInodesCountHi =
      fromLoHi16 bg.bgFreeInodesCountLo bg.bgFreeInodesCountHi := by
  cases isDirectory <;> rfl

/-- A stored inode touches no bit of an inode bitmap. -/
theorem bitAt_write_inode (hg : Accepted g) (hn : InodePlace g.sb n) (m : Mem) {bytes : List UInt8}
    (hlength : bytes.length ≤ ext4InodeSize) {i k : ℕ} (hi : i < blockGroupCount g.sb)
    (hk : k < 8 * blockSize g.sb) :
    bitAt (m.write (inodeAddr g n) bytes) (inodeBitmapAddr g i) k =
      bitAt m (inodeBitmapAddr g i) k := by
  have hlow := (inodeBitmapAddr_le g i).1
  have htable := inodeTableAddr_eq g i
  refine bitAt_congr (Mem.sameOutside_write m (inodeAddr g n) bytes _ ?_)
  by_contra hin
  have hbehind := hg.inode_behind_bitmaps (a := inodeBitmapAddr g i + k / 8) hn
    ⟨by omega, by omega⟩ hi (by omega)
  omega

/-- `save_inode` keeps the accounts. -/
theorem saveInode_ledger (hg : Accepted g) (hplaced : Placed g s.ext4.groupDescs)
    (inode : Ext4Inode) (hmode : inode.iMode < 2 ^ 16)
    (hn : InodePlace g.sb s.ext4.firstFreeInodeNo) (hblank : Blank g s.mem s.ext4.firstFreeInodeNo)
    (hclear : inodeBit g s.mem s.ext4.firstFreeInodeNo = false) :
    wp (saveInode g inode) (fun _ t => Ledger g s → Ledger g t) E s := by
  obtain ⟨bg, hbg, -⟩ := hplaced.get hn.group
  obtain ⟨-, hindex⟩ := hg.inodeNo_eq hn
  obtain ⟨-, -, -, -, hinodes, hfits, -⟩ := hg.numbers
  rw [← hg.blockSize_eq] at hfits
  refine wp_mono_ok (saveInode_spec hg hplaced inode hn hbg) ?_
  rintro n t ⟨rfl, htouch, hread, ⟨m, hbits, hmem⟩, hext4⟩ h
  generalize s.ext4.firstFreeInodeNo = n at *
  have hlength : inode.bytes.length ≤ ext4InodeSize := by
    rw [length_inode_bytes]
    decide
  have hbitmap : ∀ k < 8 * blockSize g.sb,
      bitAt t.mem (inodeBitmapAddr g (inodeGroup g.sb n)) k =
        bitAt m (inodeBitmapAddr g (inodeGroup g.sb n)) k := by
    intro k hk
    rw [hmem]
    exact bitAt_write_inode hg hn m hlength hn.group hk
  have hmodeOf := modeOf_of_read hread hmode
  have hold := h.groups _ bg hbg
  have hdescs : t.ext4.groupDescs = s.ext4.groupDescs.set (inodeGroup g.sb n)
      (bg.useInode.countDir inode.isDirectory) := by
    rw [hext4]
    rfl
  have hregistered : t.ext4.registered = s.ext4.registered := by
    rw [hext4]
    rfl
  refine h.putInode hg hplaced hn hbg hblank (fun a hbit hin => htouch.mem a ?_)
    (blocksOf_of_read hread) hdescs hregistered (countDir_freeBlocks inode.isDirectory) ?_ ?_
    (fun k hk hk' => ?_) fun hhalves => hhalves.useInode.countDir _
  · rintro (ha | ha)
    · exact hbit ha
    · exact hin ha
  · have hzeros : zeroBits t.mem (inodeBitmapAddr g (inodeGroup g.sb n)) g.sb.sInodesPerGroup =
        zeroBits m (inodeBitmapAddr g (inodeGroup g.sb n)) g.sb.sInodesPerGroup := by
      unfold zeroBits
      congr 1
      apply Finset.filter_congr
      intro k hk
      rw [hbitmap k (by have := Finset.mem_range.mp hk; omega)]
    have hadd := hbits.zeroBits_add (n := g.sb.sInodesPerGroup) (by omega) fun k hlow hhigh => by
      rw [show k = inodeIndex g.sb n by omega]
      exact hclear
    have hle := zeroBits_le s.mem (inodeBitmapAddr g (inodeGroup g.sb n)) g.sb.sInodesPerGroup
    have hdecr := fromLoHi16_decr hold.freeInodes (by omega)
      (show 1 ≤ zeroBits s.mem (inodeBitmapAddr g (inodeGroup g.sb n)) g.sb.sInodesPerGroup by omega)
    rw [countDir_freeInodes, hzeros]
    exact hdecr.trans (by omega)
  · rw [hmodeOf, isDirectoryMode_iMode]
    exact countDir_counts hg inode.isDirectory hold.directories
  · rw [hbitmap k hk', hbits.bits, decide_eq_false (by omega), Bool.or_false]

/-- `add_reserved_inode` keeps the accounts. -/
theorem addReservedInode_ledger (hg : Accepted g) (hplaced : Placed g s.ext4.groupDescs)
    (inode : Ext4Inode) (hmode : inode.iMode < 2 ^ 16) (hn : InodePlace g.sb n)
    (hblank : Blank g s.mem n) :
    wp (addReservedInode g inode.bytes inode.isDirectory n)
      (fun _ t => Ledger g s → Ledger g t) E s := by
  obtain ⟨bg, hbg, -⟩ := hplaced.get hn.group
  obtain ⟨-, -, -, -, hinodes, hfits, -⟩ := hg.numbers
  rw [← hg.blockSize_eq] at hfits
  have hlength : inode.bytes.length ≤ ext4InodeSize := by
    rw [length_inode_bytes]
    decide
  refine wp_mono_ok (addReservedInode_spec hg hplaced hn hlength inode.isDirectory hbg) ?_
  rintro - t ⟨htouch, hmem, hext4⟩ h
  have hread : t.mem.read (inodeAddr g n) sizeofExt4Inode = inode.bytes := by
    rw [hmem]
    exact Mem.read_write_of_length (length_inode_bytes inode)
  have hmodeOf := modeOf_of_read hread hmode
  have hold := h.groups _ bg hbg
  have hbitmap : ∀ k < 8 * blockSize g.sb,
      bitAt t.mem (inodeBitmapAddr g (inodeGroup g.sb n)) k =
        bitAt s.mem (inodeBitmapAddr g (inodeGroup g.sb n)) k := by
    intro k hk
    rw [hmem]
    exact bitAt_write_inode hg hn s.mem hlength hn.group hk
  have hdescs : t.ext4.groupDescs = s.ext4.groupDescs.set (inodeGroup g.sb n)
      (bg.countDir inode.isDirectory) := by
    rw [hext4]
    rfl
  have hregistered : t.ext4.registered = s.ext4.registered := by
    rw [hext4]
    rfl
  refine h.putInode hg hplaced hn hbg hblank (fun a _ hin => htouch.mem a hin)
    (blocksOf_of_read hread) hdescs hregistered (countDir_freeBlocks inode.isDirectory) ?_ ?_
    (fun k _ hk' => hbitmap k hk') fun hhalves => hhalves.countDir _
  · rw [countDir_freeInodes, hold.freeInodes]
    unfold zeroBits
    congr 1
    apply Finset.filter_congr
    intro k hk
    rw [hbitmap k (by have := Finset.mem_range.mp hk; omega)]
  · rw [hmodeOf, isDirectoryMode_iMode]
    exact countDir_counts hg inode.isDirectory hold.directories

/-- The zero bits of a bitmap with the first and the last bits set. -/
theorem zeroBits_between {m : Mem} {a low high k : ℕ} (hhigh : high ≤ k)
    (hbits : ∀ i < k, bitAt m a i = decide (i < low ∨ high ≤ i)) : zeroBits m a k = high - low := by
  have hset : {i ∈ Finset.range k | bitAt m a i = false} = Finset.Ico low high := by
    ext i
    rw [Finset.mem_filter, Finset.mem_range, Finset.mem_Ico]
    constructor
    · rintro ⟨hi, hbit⟩
      rw [hbits i hi, decide_eq_false_iff_not] at hbit
      omega
    · rintro ⟨hi, hi'⟩
      refine ⟨by omega, ?_⟩
      rw [hbits i (by omega), decide_eq_false_iff_not]
      omega
  rw [zeroBits, hset, Nat.card_Ico]

/-- The inode tables are blank at first. -/
theorem InitialGroup.blank (hg : Accepted g) {m : Mem} (hn : InodePlace g.sb n)
    (h : InitialGroup g (inodeGroup g.sb n) m) : Blank g m n := by
  obtain ⟨-, hindex⟩ := hg.inodeNo_eq hn
  obtain ⟨-, -, -, -, -, -, -, -, htable⟩ := hg.numbers
  rw [← hg.blockSize_eq] at htable
  rintro a ⟨hlow, hhigh⟩
  unfold ext4InodeSize at hhigh
  rw [inodeAddr] at hlow hhigh
  unfold ext4InodeSize at hlow hhigh
  obtain ⟨k, rfl⟩ := Nat.exists_eq_add_of_le (show inodeTableAddr g (inodeGroup g.sb n) ≤ a by omega)
  apply h.table
  rw [← hg.blockSize_eq]
  omega

/-- `init_ext4_group_descs` opens the accounts. -/
theorem initExt4GroupDescs_ledger (hg : Accepted g) (hfit : GroupsFit g)
    (hregistered : s.ext4.registered = []) :
    wp (initExt4GroupDescs g) (fun _ t => Ledger g t) E s := by
  refine wp_mono_ok (initExt4GroupDescs_spec hg s) ?_
  rintro - t ⟨-, hext4, hgroups⟩
  obtain ⟨-, hblocks, hblocks', hmany, hinodes, hfits, -⟩ := hg.numbers
  rw [← hg.blockSize_eq] at hfits hblocks
  have hblank : ∀ k, InodePlace g.sb k → Blank g t.mem k := fun k hk =>
    (hgroups _ hk.group).blank hg hk
  refine ⟨fun i bg hbg => ?_, fun i hi k hk => ?_, fun k hk => ?_⟩
  · rw [hext4, List.getElem?_map, Option.map_eq_some_iff] at hbg
    obtain ⟨j, hj, rfl⟩ := hbg
    obtain ⟨hlt, rfl⟩ := List.getElem?_eq_some_iff.mp hj
    rw [List.getElem_range] at *
    rw [List.length_range] at hlt
    have hcount : blockGroupBlockCount g.sb i ≤ g.sb.sBlocksPerGroup := Nat.min_le_left _ _
    have hgroup := hgroups i hlt
    have hover := hfit i hlt
    have hused : usedInodes i ≤ 11 := by
      unfold usedInodes ext4FirstNonRsvInode
      split <;> omega
    refine ⟨?_, ?_, ?_, fun k hlow hhigh => ?_, fun k hlow hhigh => ?_,
      Ext4GroupDesc.Halves.initial g.sb i⟩
    · rw [zeroBits_between (by omega) hgroup.blockBits]
      have hfree : fromLoHi16 (initialGroupDesc g.sb i).bgFreeBlocksCountLo
          (initialGroupDesc g.sb i).bgFreeBlocksCountHi =
          sub32 (blockGroupBlockCount g.sb i) (blockGroupOverhead g.sb i) :=
        fromLoHi16_setLoHi32 (Nat.mod_lt _ (by norm_num))
      rw [hfree, sub32_of_le hover (by omega)]
    · rw [zeroBits_between le_rfl fun k hk => hgroup.inodeBits k (by omega)]
      have hfree : fromLoHi16 (initialGroupDesc g.sb i).bgFreeInodesCountLo
          (initialGroupDesc g.sb i).bgFreeInodesCountHi =
          sub32 g.sb.sInodesPerGroup (usedInodes i) :=
        fromLoHi16_setLoHi32 (Nat.mod_lt _ (by norm_num))
      rw [hfree, sub32_of_le (by omega) (by omega)]
    · have hnone : usedDirs g t.mem i = 0 := by
        rw [usedDirs, Finset.card_eq_zero, Finset.filter_eq_empty_iff]
        intro k hk
        rw [(hblank k ((hg.mem_inodesOf hlt).mp hk).1).mode]
        decide
      rw [hnone]
      exact show fromLoHi16 0 0 = 0 by decide
    · rw [hgroup.blockBits k hhigh, decide_eq_true (Or.inr hlow)]
    · rw [hgroup.inodeBits k hhigh, decide_eq_true (Or.inr hlow)]
  · rw [(hgroups i hi).blockBits k hk, decide_eq_true_eq, hext4]
    dsimp only
    rw [hregistered]
    simp [registeredBlocks]
  · rw [hext4, (hblank k hk).blocks]
    dsimp only
    rw [hregistered]
    rfl

end Adding

end OfsConvert
