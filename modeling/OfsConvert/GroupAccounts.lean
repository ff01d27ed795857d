import OfsConvert.ExtentTree

/-!
# The accounts of the block groups

The free counts of a descriptor belong to the zero bits of the bitmaps of its group, the directory
count to its inode table, and `i_blocks` to the ranges registered for an inode. `Ledger` says so of
a state; every operation of the second phase keeps it.
-/

namespace OfsConvert

/-- The numbers of the inodes of a group. -/
def inodesOf (g : Globals) (i : ℕ) : Finset ℕ :=
  Finset.Ioc (i * g.sb.sInodesPerGroup) ((i + 1) * g.sb.sInodesPerGroup)

/-- The directories in the inode table of a group. -/
def usedDirs (g : Globals) (m : Mem) (i : ℕ) : ℕ :=
  {n ∈ inodesOf g i | isDirectoryMode (modeOf g m n)}.card

/-- The fields of a descriptor are kept in halves of 16 and of 32 bits. -/
structure Ext4GroupDesc.Halves (bg : Ext4GroupDesc) : Prop where
  freeBlocks : bg.bgFreeBlocksCountLo < 2 ^ 16 ∧ bg.bgFreeBlocksCountHi < 2 ^ 16
  freeInodes : bg.bgFreeInodesCountLo < 2 ^ 16 ∧ bg.bgFreeInodesCountHi < 2 ^ 16
  usedDirs : bg.bgUsedDirsCountLo < 2 ^ 16 ∧ bg.bgUsedDirsCountHi < 2 ^ 16
  blockBitmap : bg.bgBlockBitmapLo < 2 ^ 32 ∧ bg.bgBlockBitmapHi < 2 ^ 32
  inodeBitmap : bg.bgInodeBitmapLo < 2 ^ 32 ∧ bg.bgInodeBitmapHi < 2 ^ 32
  inodeTable : bg.bgInodeTableLo < 2 ^ 32 ∧ bg.bgInodeTableHi < 2 ^ 32

/-- The counts of a descriptor and the bitmaps and inode table of its group agree, and the bits
behind the blocks and the inodes of the group are set. -/
structure GroupAccount (g : Globals) (i : ℕ) (bg : Ext4GroupDesc) (m : Mem) : Prop where
  freeBlocks : fromLoHi16 bg.bgFreeBlocksCountLo bg.bgFreeBlocksCountHi =
    zeroBits m (blockBitmapAddr g i) (8 * blockSize g.sb)
  freeInodes : fromLoHi16 bg.bgFreeInodesCountLo bg.bgFreeInodesCountHi =
    zeroBits m (inodeBitmapAddr g i) g.sb.sInodesPerGroup
  directories : fromLoHi16 bg.bgUsedDirsCountLo bg.bgUsedDirsCountHi = usedDirs g m i
  behindBlocks : ∀ k, blockGroupBlockCount g.sb i ≤ k → k < 8 * blockSize g.sb →
    bitAt m (blockBitmapAddr g i) k = true
  behindInodes : ∀ k, g.sb.sInodesPerGroup ≤ k → k < 8 * blockSize g.sb →
    bitAt m (inodeBitmapAddr g i) k = true
  halves : bg.Halves

/-- Both halves of a 32-bit count have 16 bits. -/
theorem setLoHi32_halves (value : ℕ) :
    (setLoHi32 value).1 < 2 ^ 16 ∧ (setLoHi32 value).2 < 2 ^ 16 := by
  rw [setLoHi32_fst, setLoHi32_snd]
  exact ⟨Nat.mod_lt _ (by norm_num), Nat.mod_lt _ (by norm_num)⟩

/-- Both halves of a 64-bit count have 32 bits. -/
theorem setLoHi64_halves (value : ℕ) :
    (setLoHi64 value).1 < 2 ^ 32 ∧ (setLoHi64 value).2 < 2 ^ 32 := by
  rw [setLoHi64_fst, setLoHi64_snd]
  exact ⟨Nat.mod_lt _ (by norm_num), Nat.mod_lt _ (by norm_num)⟩

namespace Ext4GroupDesc.Halves

variable {bg : Ext4GroupDesc}

/-- Counting a directory keeps the halves. -/
theorem countDir (h : bg.Halves) (isDirectory : Bool) : (bg.countDir isDirectory).Halves := by
  cases isDirectory with
  | false => exact h
  | true => exact { h with usedDirs := setLoHi32_halves _ }

/-- Taking an inode keeps the halves. -/
theorem useInode (h : bg.Halves) : bg.useInode.Halves :=
  { h with freeInodes := setLoHi32_halves _ }

/-- Taking blocks keeps the halves. -/
theorem useBlocks (h : bg.Halves) (count : ℕ) : (bg.useBlocks count).Halves :=
  { h with freeBlocks := setLoHi32_halves _ }

/-- The first descriptor of a group has proper halves. -/
theorem initial (sb : Ext4SuperBlock) (i : ℕ) : (initialGroupDesc sb i).Halves :=
  ⟨setLoHi32_halves _, setLoHi32_halves _, ⟨Nat.two_pow_pos 16, Nat.two_pow_pos 16⟩,
    setLoHi64_halves _, setLoHi64_halves _, setLoHi64_halves _⟩

end Ext4GroupDesc.Halves

/-- What `register_extent` adds to `i_blocks` for a range. -/
def countedBlocks (g : Globals) (r : Registration) : ℕ :=
  u32 ((r.blocksEnd - r.blocksBegin) * blockSize g.sb) / 512

/-- The ranges that are registered for an inode. -/
def rangesOf (log : List Registration) (n : ℕ) : List Registration :=
  log.filter fun r => r.inodeNo = n

/-- The bits that are set in the block bitmap of a group: those of its metadata prefix, of the
registered blocks and behind its blocks. -/
def BlockBits (g : Globals) (log : List Registration) (i : ℕ) (m : Mem) : Prop :=
  ∀ k < 8 * blockSize g.sb, bitAt m (blockBitmapAddr g i) k = true ↔
    k < blockGroupOverhead g.sb i ∨ blockGroupBlockCount g.sb i ≤ k ∨
      blockGroupStart g.sb i + k ∈ registeredBlocks log

/-- The accounts of all groups and inodes: the registered blocks are the used ones, and `i_blocks`
is the sum of what was added. -/
structure Ledger (g : Globals) (s : State) : Prop where
  groups : ∀ i bg, s.ext4.groupDescs[i]? = some bg → GroupAccount g i bg s.mem
  bits : ∀ i < blockGroupCount g.sb, BlockBits g s.ext4.registered i s.mem
  blocks : ∀ n, InodePlace g.sb n →
    blocksOf g s.mem n = ((rangesOf s.ext4.registered n).map (countedBlocks g)).sum

section Places

variable {g : Globals} (hg : Accepted g)
include hg

/-- Inode numbers have 32 bits, and a few more follow the last one. -/
theorem Accepted.inodes_le : blockGroupCount g.sb * g.sb.sInodesPerGroup + 4 ≤ 2 ^ 32 := by
  obtain ⟨k, hk, hsize⟩ := hg.clusterSize_pow
  have hsizes : ∀ j ≤ 9, groupInodes (2 ^ (10 + j)) ≤ groupBlocks (2 ^ (10 + j)) * 4 ∧
      8192 ≤ groupBlocks (2 ^ (10 + j)) ∧ groupBlocks (2 ^ (10 + j)) ≤ 65528 := by decide
  obtain ⟨hinodes, hlow, hhigh⟩ := hsizes k hk
  have hpartition := hg.partitionBlocks_lt
  have hquot := Nat.div_mul_le_self
    (partitionBlocks g.bootSector + groupBlocks (2 ^ (10 + k)) - 1) (groupBlocks (2 ^ (10 + k)))
  rw [hg.blockGroupCount_eq, hg.inodesPerGroup_eq, hg.blocksPerGroup_eq, hsize]
  have hcover : ceilDiv (partitionBlocks g.bootSector) (groupBlocks (2 ^ (10 + k))) *
      groupBlocks (2 ^ (10 + k)) < 2 ^ 30 := by
    rw [ceilDiv]
    omega
  calc ceilDiv (partitionBlocks g.bootSector) (groupBlocks (2 ^ (10 + k))) *
        groupInodes (2 ^ (10 + k)) + 4
      ≤ ceilDiv (partitionBlocks g.bootSector) (groupBlocks (2 ^ (10 + k))) *
          (groupBlocks (2 ^ (10 + k)) * 4) + 4 :=
        Nat.add_le_add_right (Nat.mul_le_mul_left _ hinodes) 4
    _ = ceilDiv (partitionBlocks g.bootSector) (groupBlocks (2 ^ (10 + k))) *
          groupBlocks (2 ^ (10 + k)) * 4 + 4 := by rw [Nat.mul_assoc]
    _ ≤ 2 ^ 32 := by omega

/-- The inodes of a group have places in its table. -/
theorem Accepted.mem_inodesOf {i n : ℕ} (hi : i < blockGroupCount g.sb) :
    n ∈ inodesOf g i ↔ InodePlace g.sb n ∧ inodeGroup g.sb n = i := by
  obtain ⟨-, -, -, hinodes, -⟩ := hg.numbers
  have hlt := hg.inodes_le
  have hle := Nat.mul_le_mul_right g.sb.sInodesPerGroup (Nat.succ_le_of_lt hi)
  rw [Nat.succ_eq_add_one] at hle
  rw [inodesOf, Finset.mem_Ioc]
  constructor
  · rintro ⟨hlow, hhigh⟩
    have hgroup : inodeGroup g.sb n = i := by
      rw [inodeGroup, sub32_of_le (by omega) (by omega)]
      rw [Nat.div_eq_iff (by omega)]
      rw [Nat.add_mul] at hhigh
      omega
    exact ⟨⟨by omega, by omega, by omega⟩, hgroup⟩
  · rintro ⟨hn, rfl⟩
    obtain ⟨heq, hindex⟩ := hg.inodeNo_eq hn
    rw [Nat.add_mul]
    omega

/-- A byte of the bitmaps of a group is in no other group's bitmaps. -/
theorem Accepted.bitmaps_unique {i j a : ℕ} (hi : i < blockGroupCount g.sb)
    (hj : j < blockGroupCount g.sb) (hlow : blockBitmapAddr g i ≤ a) (hhigh : a < inodeTableAddr g i)
    (hlow' : blockBitmapAddr g j ≤ a) (hhigh' : a < inodeTableAddr g j) : i = j := by
  obtain ⟨b, hb, -, hba⟩ := hg.bitmap_inPrefix hi hlow hhigh
  obtain ⟨b', hb', -, hba'⟩ := hg.bitmap_inPrefix hj hlow' hhigh'
  obtain rfl := inBlock_unique hba hba'
  exact hg.prefix_unique hi hj hb hb'

end Places

section Frames

variable {g : Globals} {s t : State} {m m' : Mem} {i n : ℕ} {bg : Ext4GroupDesc}

/-- The mode of an inode stands at its start. -/
theorem modeOf_congr (h : ∀ a, inodeAddr g n ≤ a → a < inodeAddr g n + 2 → m' a = m a) :
    modeOf g m' n = modeOf g m n :=
  Mem.readLE_congr fun i hi => h _ (Nat.le_add_right _ _) (by omega)

/-- `i_blocks` has its own bytes. -/
theorem blocksOf_congr (h : ∀ a ∈ blocksFields g n, m' a = m a) :
    blocksOf g m' n = blocksOf g m n := by
  have hlo : inodeField g m' n iBlocksLoOffset 4 = inodeField g m n iBlocksLoOffset 4 :=
    Mem.readLE_congr fun i hi => h _ (Or.inl ⟨Nat.le_add_right _ _, by omega⟩)
  have hhi : inodeField g m' n iBlocksHighOffset 2 = inodeField g m n iBlocksHighOffset 2 :=
    Mem.readLE_congr fun i hi => h _ (Or.inr ⟨Nat.le_add_right _ _, by omega⟩)
  rw [blocksOf, blocksOf, hlo, hhi]

/-- A group with the same bitmaps and modes has the same accounts. -/
theorem GroupAccount.congr (h : GroupAccount g i bg m) (hg : Accepted g)
    (hbits : ∀ a, blockBitmapAddr g i ≤ a → a < inodeTableAddr g i → m' a = m a)
    (hmodes : ∀ n ∈ inodesOf g i, modeOf g m' n = modeOf g m n) : GroupAccount g i bg m' := by
  obtain ⟨-, -, -, -, -, hinodes, -⟩ := hg.numbers
  rw [← hg.blockSize_eq] at hinodes
  have hinode := inodeBitmapAddr_eq g i
  have htable := inodeTableAddr_eq g i
  have hblockBits : ∀ k < 8 * blockSize g.sb,
      m' (blockBitmapAddr g i + k / 8) = m (blockBitmapAddr g i + k / 8) :=
    fun k hk => hbits _ (by omega) (by omega)
  have hinodeBits : ∀ k < 8 * blockSize g.sb,
      m' (inodeBitmapAddr g i + k / 8) = m (inodeBitmapAddr g i + k / 8) :=
    fun k hk => hbits _ (by omega) (by omega)
  refine ⟨?_, ?_, ?_, fun k hlow hhigh => ?_, fun k hlow hhigh => ?_, h.halves⟩
  · rw [h.freeBlocks, zeroBits_congr hblockBits]
  · rw [h.freeInodes, zeroBits_congr fun k hk => hinodeBits k (by omega)]
  · rw [h.directories, usedDirs, usedDirs]
    congr 1
    apply Finset.filter_congr
    intro n hn
    rw [hmodes n hn]
  · rw [bitAt_congr (hblockBits k hhigh)]
    exact h.behindBlocks k hlow hhigh
  · rw [bitAt_congr (hinodeBits k hhigh)]
    exact h.behindInodes k hlow hhigh

/-- The bits of a group are in its bitmap. -/
theorem BlockBits.congr {log : List Registration} (h : BlockBits g log i m)
    (hm : ∀ a, blockBitmapAddr g i ≤ a → a < inodeBitmapAddr g i → m' a = m a) :
    BlockBits g log i m' := by
  have hinode := inodeBitmapAddr_eq g i
  intro k hk
  rw [bitAt_congr (hm _ (Nat.le_add_right _ _) (by omega))]
  exact h k hk

/-- The data blocks that are not registered are free. -/
theorem Ledger.unused (h : Ledger g s) (hg : Accepted g) {b : ℕ} (hb : DataBlock g b)
    (hfree : b ∉ registeredBlocks s.ext4.registered) :
    bitAt s.mem (blockBitmapAddr g (groupOfBlock g.sb b))
      (b - blockGroupStart g.sb (groupOfBlock g.sb b)) = false := by
  obtain ⟨-, hgroup, -⟩ := hg.numbers
  rw [← hg.blockSize_eq] at hgroup
  obtain ⟨hi, hlow, hhigh, hhigh'⟩ := hg.groupOfBlock_spec hb
  rw [← Bool.not_eq_true, h.bits _ hi _ (by omega)]
  rintro (hin | hin | hin)
  · omega
  · omega
  · rw [Nat.add_sub_cancel' (by omega)] at hin
    exact hfree hin

/-- A state with the same bitmaps, modes and block counts has the same accounts. -/
theorem Ledger.congr (h : Ledger g s) (hg : Accepted g) (hplaced : Placed g s.ext4.groupDescs)
    (hdescs : t.ext4.groupDescs = s.ext4.groupDescs)
    (hregistered : t.ext4.registered = s.ext4.registered)
    (hbits : ∀ i < blockGroupCount g.sb, ∀ a, blockBitmapAddr g i ≤ a → a < inodeTableAddr g i →
      t.mem a = s.mem a)
    (hinodes : ∀ n, InodePlace g.sb n →
      modeOf g t.mem n = modeOf g s.mem n ∧ blocksOf g t.mem n = blocksOf g s.mem n) :
    Ledger g t := by
  refine ⟨fun i bg hbg => ?_, fun i hi => ?_, fun n hn => ?_⟩
  · rw [hdescs] at hbg
    have hi : i < blockGroupCount g.sb := by
      rw [← hplaced.length]
      exact (List.getElem?_eq_some_iff.mp hbg).1
    refine (h.groups i bg hbg).congr hg (hbits i hi) fun n hn => ?_
    exact (hinodes n ((hg.mem_inodesOf hi).mp hn).1).1
  · rw [hregistered]
    exact (h.bits i hi).congr fun a hlow hhigh => hbits i hi a hlow
      (hhigh.trans_le (inodeBitmapAddr_le g i).2)
  · rw [hregistered, (hinodes n hn).2]
    exact h.blocks n hn

/-- The accounts are about the memory, the descriptors and the registered ranges. -/
theorem Ledger.of_eq (h : Ledger g s) (hmem : t.mem = s.mem) (hext4 : t.ext4 = s.ext4) :
    Ledger g t := by
  refine ⟨?_, ?_, ?_⟩
  · rw [hmem, hext4]
    exact h.groups
  · rw [hmem, hext4]
    exact h.bits
  · rw [hmem, hext4]
    exact h.blocks

/-- The bytes of an inode that are its own. -/
theorem Accepted.inodeBytes_apart (hg : Accepted g) {k a : ℕ} (hn : InodePlace g.sb n)
    (hk : InodePlace g.sb k) (ha : a ∈ inodeBytes g n) (ha' : a ∈ inodeBytes g k) : n = k :=
  hg.inodeAddr_unique hn hk ha ha'

/-- The mode is part of the inode. -/
theorem modeBytes_subset {a : ℕ} (hlow : inodeAddr g n ≤ a) (hhigh : a < inodeAddr g n + 2) :
    a ∈ inodeBytes g n :=
  ⟨hlow, by unfold ext4InodeSize; omega⟩

/-- Operations on the tree of an inode keep the accounts. -/
theorem Ledger.treeTouches (h : Ledger g s) (hg : Accepted g)
    (hplaced : Placed g s.ext4.groupDescs) (hn : InodePlace g.sb n)
    (hmem : ∀ a, a ∉ rootBytes g n → (∀ b, DataBlock g b → ¬ InBlock g b a) → t.mem a = s.mem a)
    (hext4 : t.ext4 = s.ext4) : Ledger g t := by
  have hroot : ∀ a ∈ rootBytes g n, a ∈ inodeBytes g n ∧ inodeAddr g n + 40 ≤ a ∧
      a < inodeAddr g n + 100 := by
    rintro a ⟨hlow, hhigh⟩
    unfold rootHeader extHeaderOffset sizeofExtentHeader at *
    exact ⟨⟨by omega, by unfold ext4InodeSize; omega⟩, by omega, by omega⟩
  have hmeta : ∀ a i c, i < blockGroupCount g.sb → InPrefix g i c → InBlock g c a →
      ∀ b, DataBlock g b → ¬ InBlock g b a := by
    intro a i c hi hc hca b hb hba
    obtain rfl := inBlock_unique hba hca
    exact hb.outside ⟨i, hi, hc⟩
  have hinode : ∀ k, InodePlace g.sb k → ∀ a ∈ inodeBytes g k,
      (k = n → a < inodeAddr g n + 40 ∨ inodeAddr g n + 100 ≤ a) → t.mem a = s.mem a := by
    intro k hk a ha hout
    obtain ⟨c, hc, -, hca⟩ := hg.inodeAddr_inPrefix hk ha.1 ha.2
    refine hmem a (fun hin => ?_) (hmeta a _ c hk.group hc hca)
    obtain ⟨hin', hlow, hhigh⟩ := hroot a hin
    have hsame := hout (hg.inodeBytes_apart hk hn ha hin')
    omega
  refine h.congr hg hplaced (by rw [hext4]) (by rw [hext4]) (fun i hi a hlow hhigh => ?_)
    fun k hk => ⟨modeOf_congr fun a hlow hhigh => ?_, blocksOf_congr fun a ha => ?_⟩
  · obtain ⟨c, hc, -, hca⟩ := hg.bitmap_inPrefix hi hlow hhigh
    refine hmem a (fun hin => ?_) (hmeta a i c hi hc hca)
    have hbehind := hg.inode_behind_bitmaps hn (hroot a hin).1 hi hlow
    omega
  · refine hinode k hk a (modeBytes_subset hlow hhigh) fun hkn => ?_
    subst hkn
    omega
  · have hbounds := blocksFields_bounds ha
    refine hinode k hk a (blocksFields_subset ha) fun hkn => ?_
    subst hkn
    rcases ha with ha | ha
    · have hhigh := ha.2
      unfold iBlocksLoOffset at hhigh
      omega
    · have hlow := ha.1
      unfold iBlocksHighOffset at hlow
      omega

end Frames

section Accounting

variable {g : Globals} {s t : State} {E : Halt → State → Prop} {m₀ : Mem} {base : State}
  {F O R : List ℕ} {n : ℕ} {log : List Registration}

/-- The ranges of two logs are those of each. -/
theorem rangesOf_append (log log' : List Registration) (n : ℕ) :
    rangesOf (log ++ log') n = rangesOf log n ++ rangesOf log' n := List.filter_append log log'

/-- What was added to `i_blocks` for some ranges is bounded by their blocks. -/
theorem sum_countedBlocks_le (hg : Accepted g) (log : List Registration) (n : ℕ) :
    ((rangesOf log n).map (countedBlocks g)).sum ≤ (registeredBlocks log).length * 1024 := by
  have hsize := hg.blockSize_le
  have hrange : ∀ r : Registration, countedBlocks g r ≤ r.blocks.length * 1024 := by
    intro r
    have hlength : r.blocks.length = r.blocksEnd - r.blocksBegin := List.length_range'
    have hmod : u32 ((r.blocksEnd - r.blocksBegin) * blockSize g.sb) ≤
        (r.blocksEnd - r.blocksBegin) * 2 ^ 19 :=
      (Nat.mod_le _ _).trans (Nat.mul_le_mul_left _ hsize)
    rw [hlength, countedBlocks]
    omega
  induction log with
  | nil => exact Nat.zero_le _
  | cons r log ih =>
    have hr := hrange r
    have hblocks : (registeredBlocks (r :: log)).length =
        r.blocks.length + (registeredBlocks log).length := List.length_append
    rw [hblocks, Nat.add_mul]
    by_cases hown : r.inodeNo = n
    · have hcons : rangesOf (r :: log) n = r :: rangesOf log n :=
        List.filter_cons_of_pos (by simpa using hown)
      rw [hcons, List.map_cons, List.sum_cons]
      omega
    · have hcons : rangesOf (r :: log) n = rangesOf log n :=
        List.filter_cons_of_neg (by simpa using hown)
      rw [hcons]
      exact ih.trans (Nat.le_add_left _ _)

/-- There are fewer blocks than a 32-bit number counts. -/
theorem BuildInv.length_lt (hg : Accepted g) (h : BuildInv g m₀ base F O R s) :
    (registeredBlocks s.ext4.registered ++ (O ++ R)).length ≤ 2 ^ 29 := by
  have hpartition := hg.partitionBlocks_lt
  have hsub : registeredBlocks s.ext4.registered ++ (O ++ R) ⊆
      List.range (partitionBlocks g.bootSector) := by
    intro b hb
    rw [List.mem_range, ← hg.blockCount_eq]
    exact (h.data b hb).upper
  have hle := (List.subperm_of_subset h.nodup hsub).length_le
  rw [List.length_range] at hle
  omega

/-- The descriptor's count goes down as the number does. -/
theorem fromLoHi16_decr {lo hi x diff : ℕ} (hx : fromLoHi16 lo hi = x) (hlt : x < 2 ^ 32)
    (hdiff : diff ≤ x) :
    fromLoHi16 (decrLoHi32 lo hi diff).1 (decrLoHi32 lo hi diff).2 = x - diff := by
  rw [decrLoHi32, hx, sub32_of_le hdiff hlt, fromLoHi16_setLoHi32 (by omega)]

/-- The descriptor's count goes up as the number does. -/
theorem fromLoHi16_incr {lo hi x diff : ℕ} (hx : fromLoHi16 lo hi = x) (hlt : x + diff < 2 ^ 32) :
    fromLoHi16 (incrLoHi32 lo hi diff).1 (incrLoHi32 lo hi diff).2 = x + diff := by
  rw [incrLoHi32, hx, u32_of_lt hlt, fromLoHi16_setLoHi32 hlt]

/-- No more bits are clear than there are. -/
theorem zeroBits_le (m : Mem) (a k : ℕ) : zeroBits m a k ≤ k :=
  (Finset.card_filter_le _ _).trans (Finset.card_range k).le

/-- The block count of an inode is in no bitmap. -/
theorem Accepted.blocksFields_outside (hg : Accepted g) (hn : InodePlace g.sb n) {i a : ℕ}
    (hi : i < blockGroupCount g.sb) (hlow : blockBitmapAddr g i ≤ a)
    (hhigh : a < inodeTableAddr g i) : a ∉ blocksFields g n := by
  intro hin
  have hbehind := hg.inode_behind_bitmaps hn (blocksFields_subset hin) hi hlow
  omega

/-- The block count of an inode is no mode. -/
theorem Accepted.modeOf_keep (hg : Accepted g) (hn : InodePlace g.sb n) {k : ℕ}
    (hk : InodePlace g.sb k) {m m' : Mem} (hm : ∀ a, a ∉ blocksFields g n → m' a = m a) :
    modeOf g m' k = modeOf g m k := by
  refine modeOf_congr fun a hlow hhigh => hm a fun hin => ?_
  have hbounds := blocksFields_bounds hin
  obtain rfl := hg.inodeBytes_apart hn hk (blocksFields_subset hin) (modeBytes_subset hlow hhigh)
  omega

/-- Setting bits of a block bitmap keeps what is outside this bitmap. -/
theorem BitsSet.outside_bitmap {i lo hi : ℕ} {m m' : Mem}
    (h : BitsSet (blockBitmapAddr g i) lo hi m m') (hstop : hi ≤ 8 * blockSize g.sb) {a : ℕ}
    (ha : a < blockBitmapAddr g i ∨ inodeBitmapAddr g i ≤ a) : m' a = m a := by
  have hinode := inodeBitmapAddr_eq g i
  apply h.byte_eq
  omega

/-- The inodes are outside the block bitmaps. -/
theorem BitsSet.inode_eq (hg : Accepted g) {i lo hi : ℕ} {m m' : Mem}
    (h : BitsSet (blockBitmapAddr g i) lo hi m m') (hstop : hi ≤ 8 * blockSize g.sb)
    (hi' : i < blockGroupCount g.sb) {k : ℕ} (hk : InodePlace g.sb k) :
    ∀ a ∈ inodeBytes g k, m' a = m a := by
  intro a ha
  apply h.outside_bitmap hstop
  by_contra hin
  have hbehind := hg.inode_behind_bitmaps hk ha hi' (by omega)
  have hinode := inodeBitmapAddr_eq g i
  have htable := inodeTableAddr_eq g i
  omega

/-- A group of which clear block bits are set has fewer free blocks. -/
theorem GroupAccount.useBlocks (hg : Accepted g) {i lo hi : ℕ} {bg : Ext4GroupDesc} {m m' : Mem}
    (h : GroupAccount g i bg m) (hi' : i < blockGroupCount g.sb)
    (hbits : BitsSet (blockBitmapAddr g i) lo hi m m') (hstop : hi ≤ 8 * blockSize g.sb)
    (hclear : ∀ k, lo ≤ k → k < hi → bitAt m (blockBitmapAddr g i) k = false) :
    GroupAccount g i (bg.useBlocks (hi - lo)) m' := by
  have hsize := hg.blockSize_le
  have hinode := inodeBitmapAddr_eq g i
  have hother : ∀ k, m' (inodeBitmapAddr g i + k / 8) = m (inodeBitmapAddr g i + k / 8) :=
    fun k => hbits.outside_bitmap hstop (Or.inr (Nat.le_add_right _ _))
  have hzeros := hbits.zeroBits_add (n := 8 * blockSize g.sb) hstop hclear
  have hle := zeroBits_le m (blockBitmapAddr g i) (8 * blockSize g.sb)
  refine ⟨?_, ?_, ?_, fun k hlow hhigh => ?_, fun k hlow hhigh => ?_, h.halves.useBlocks _⟩
  · rw [Ext4GroupDesc.useBlocks]
    dsimp only
    rw [fromLoHi16_decr h.freeBlocks (by omega) (by omega)]
    omega
  · rw [zeroBits_congr (m := m) fun k _ => hother k]
    exact h.freeInodes
  · have hsameDirs : usedDirs g m' i = usedDirs g m i := by
      rw [usedDirs, usedDirs]
      congr 1
      apply Finset.filter_congr
      intro k hk
      have hplace := ((hg.mem_inodesOf hi').mp hk).1
      rw [modeOf_congr fun a hlow hhigh =>
        hbits.inode_eq hg hstop hi' hplace a (modeBytes_subset hlow hhigh)]
    rw [hsameDirs]
    exact h.directories
  · rw [hbits.bits, h.behindBlocks k hlow hhigh, Bool.true_or]
  · rw [bitAt_congr (hother k)]
    exact h.behindInodes k hlow hhigh

/-- The bits of a range are set when it is registered. -/
theorem BlockBits.take {i b len : ℕ} {m m' : Mem} {log' : List Registration}
    (h : BlockBits g log i m)
    (hbits : BitsSet (blockBitmapAddr g i) (b - blockGroupStart g.sb i)
      (b + len - blockGroupStart g.sb i) m m') (hstart : blockGroupStart g.sb i ≤ b)
    (hlog : ∀ c, c ∈ registeredBlocks log' ↔ c ∈ registeredBlocks log ∨ b ≤ c ∧ c < b + len) :
    BlockBits g log' i m' := by
  intro k hk
  have hplace : (b - blockGroupStart g.sb i ≤ k ∧ k < b + len - blockGroupStart g.sb i) ↔
      b ≤ blockGroupStart g.sb i + k ∧ blockGroupStart g.sb i + k < b + len := by omega
  rw [hlog, hbits.bits, Bool.or_eq_true, h k hk, decide_eq_true_eq, or_assoc, or_assoc, hplace]

/-- A range in another group changes nothing. -/
theorem BlockBits.other (hg : Accepted g) {i b len : ℕ} {m m' : Mem} {log' : List Registration}
    (h : BlockBits g log i m) (hi : i < blockGroupCount g.sb)
    (hm : ∀ a, blockBitmapAddr g i ≤ a → a < inodeBitmapAddr g i → m' a = m a)
    (hgroup : ∀ k < len, groupOfBlock g.sb (b + k) ≠ i)
    (hlog : ∀ c, c ∈ registeredBlocks log' ↔ c ∈ registeredBlocks log ∨ b ≤ c ∧ c < b + len) :
    BlockBits g log' i m' := by
  intro k hk
  rw [h.congr hm k hk, hlog]
  refine or_congr_right (or_congr_right' fun hcount => ?_)
  rw [or_iff_left]
  rintro ⟨hlow, hhigh⟩
  obtain ⟨x, hx⟩ := Nat.exists_eq_add_of_le hlow
  refine hgroup x (by omega) ?_
  rw [← hx]
  exact hg.groupOfBlock_add hi (by omega)

/-- What `register_extent` adds to `i_blocks` is what a range is counted for. -/
theorem blocksOf_registered (hg : Accepted g) {e : Ext4Extent} {inTree : Bool} {m : Mem} {k : ℕ}
    (hk : blocksOf g s.mem k = ((rangesOf log k).map (countedBlocks g)).sum)
    (hcount : (registeredBlocks log).length ≤ 2 ^ 29)
    (hadded : blocksOf g m k =
      u64 (blocksOf g s.mem k + u32 (e.eeLen * blockSize g.sb) / 512) % 2 ^ 48) :
    blocksOf g m k =
      ((rangesOf (log ++ [registrationOf e k inTree]) k).map (countedBlocks g)).sum := by
  have hown : rangesOf [registrationOf e k inTree] k = [registrationOf e k inTree] :=
    List.filter_cons_of_pos (by simp [registrationOf])
  have hcounted : countedBlocks g (registrationOf e k inTree) =
      u32 (e.eeLen * blockSize g.sb) / 512 := by
    rw [countedBlocks, registrationOf, Nat.add_sub_cancel_left]
  have hbound := sum_countedBlocks_le hg log k
  have hlt := u32_lt (e.eeLen * blockSize g.sb)
  rw [hadded, rangesOf_append, List.map_append, List.sum_append, hown, List.map_singleton,
    List.sum_singleton, hcounted, hk, u64_of_lt (by omega), Nat.mod_eq_of_lt (by omega)]

/-- Taking a range of free blocks keeps the accounts. -/
theorem accountExtent_ledger (hg : Accepted g) (hplaced : Placed g s.ext4.groupDescs)
    (hn : InodePlace g.sb n) {e : Ext4Extent} (hpos : 0 < e.eeLen)
    (hdata : ∀ k < e.eeLen, DataBlock g (e.start + k))
    (hfree : ∀ k < e.eeLen, e.start + k ∉ registeredBlocks s.ext4.registered)
    (hcount : (registeredBlocks s.ext4.registered).length + e.eeLen ≤ 2 ^ 29) (inTree : Bool) :
    wp (accountExtent g e n (inodeAddr g n) inTree) (fun _ t => Ledger g s → Ledger g t) E s := by
  obtain ⟨hi, hstart, hstop⟩ := hg.rangeBits hpos hdata
  obtain ⟨bg, hbg, -⟩ := hplaced.get hi
  refine wp_mono_ok (accountExtent_effect hg hplaced hpos hdata inTree hbg) ?_
  intro _ t ht h
  obtain ⟨-, ⟨m, hfields, hblocks, hbits⟩, hext4⟩ := ht
  have hsame : ∀ k < e.eeLen, groupOfBlock g.sb (e.start + k) = groupOfBlock g.sb e.start :=
    fun k hk => hg.groupOfBlock_eq hdata hk
  generalize hgroup : groupOfBlock g.sb e.start = i at *
  have hinode := inodeBitmapAddr_eq g i
  have htable := inodeTableAddr_eq g i
  -- the bitmaps before the bits are set
  have hbitmaps : ∀ j < blockGroupCount g.sb, ∀ a, blockBitmapAddr g j ≤ a →
      a < inodeTableAddr g j → m a = s.mem a :=
    fun j hj a hlow hhigh => hfields a (hg.blocksFields_outside hn hj hlow hhigh)
  have hbitmaps' : ∀ j < blockGroupCount g.sb, i ≠ j → ∀ a, blockBitmapAddr g j ≤ a →
      a < inodeTableAddr g j → t.mem a = s.mem a := by
    intro j hj hij a hlow hhigh
    rw [hbits.outside_bitmap hstop ?_, hbitmaps j hj a hlow hhigh]
    by_contra hin
    exact hij (hg.bitmaps_unique hi hj (by omega) (by omega) hlow hhigh)
  have hmodes : ∀ k, InodePlace g.sb k → modeOf g m k = modeOf g s.mem k :=
    fun k hk => hg.modeOf_keep hn hk hfields
  have hdescs : t.ext4.groupDescs = s.ext4.groupDescs.set i (bg.useBlocks e.eeLen) := by
    rw [hext4]
    rfl
  have hregistered : t.ext4.registered = s.ext4.registered ++ [registrationOf e n inTree] := by
    rw [hext4]
  have hlog : ∀ c, c ∈ registeredBlocks t.ext4.registered ↔
      c ∈ registeredBlocks s.ext4.registered ∨ e.start ≤ c ∧ c < e.start + e.eeLen := by
    intro c
    rw [hregistered, registeredBlocks_append, registeredBlocks_singleton, registrationOf_blocks,
      List.mem_append, List.mem_range'_1]
  -- the range was free
  have hclear : ∀ k, e.start - blockGroupStart g.sb i ≤ k →
      k < e.start + e.eeLen - blockGroupStart g.sb i → bitAt m (blockBitmapAddr g i) k = false := by
    intro k hlow hhigh
    obtain ⟨x, hx⟩ := Nat.exists_eq_add_of_le hlow
    have hxlt : x < e.eeLen := by omega
    have hunused := h.unused hg (hdata x hxlt) (hfree x hxlt)
    have hplace : e.start + x - blockGroupStart g.sb i = k := by omega
    rw [hsame x hxlt, hplace] at hunused
    rw [bitAt_congr (m := s.mem) (hbitmaps i hi _ (by omega) (by omega))]
    exact hunused
  refine ⟨fun j bg' hbg' => ?_, fun j hj => ?_, fun k hk => ?_⟩
  · have hj : j < blockGroupCount g.sb := by
      rw [hdescs] at hbg'
      have hlt := (List.getElem?_eq_some_iff.mp hbg').1
      rwa [List.length_set, hplaced.length] at hlt
    by_cases hij : i = j
    · subst hij
      rw [hdescs, List.getElem?_set_self (by rwa [hplaced.length])] at hbg'
      obtain rfl := Option.some.inj hbg'
      have hold := (h.groups i bg hbg).congr hg (hbitmaps i hi) fun k hk =>
        hmodes k ((hg.mem_inodesOf hi).mp hk).1
      have hlength : e.start + e.eeLen - blockGroupStart g.sb i -
          (e.start - blockGroupStart g.sb i) = e.eeLen := by omega
      have hused := hold.useBlocks hg hi hbits hstop hclear
      rwa [hlength] at hused
    · rw [hdescs, List.getElem?_set_ne hij] at hbg'
      refine (h.groups j bg' hbg').congr hg (hbitmaps' j hj hij) fun k hk => ?_
      have hplace := ((hg.mem_inodesOf hj).mp hk).1
      rw [← hmodes k hplace]
      exact modeOf_congr fun a hlow hhigh =>
        hbits.inode_eq hg hstop hi hplace a (modeBytes_subset hlow hhigh)
  · by_cases hij : i = j
    · subst hij
      exact ((h.bits i hi).congr fun a hlow hhigh => hbitmaps i hi a hlow (by omega)).take hbits
        hstart hlog
    · have hle := (inodeBitmapAddr_le g j).2
      refine (h.bits j hj).other hg hj (fun a hlow hhigh => hbitmaps' j hj hij a hlow (by omega))
        (fun k hk heq => hij ?_) hlog
      rw [← heq, hsame k hk]
  · have hkept : blocksOf g t.mem k = blocksOf g m k :=
      blocksOf_congr fun a ha => hbits.inode_eq hg hstop hi hk a (blocksFields_subset ha)
    rw [hkept, hregistered]
    by_cases hkn : k = n
    · subst hkn
      exact blocksOf_registered hg (h.blocks k hk) (by omega) hblocks
    · have hnone : rangesOf [registrationOf e n inTree] k = [] :=
        List.filter_cons_of_neg (by simp [registrationOf, Ne.symm hkn])
      rw [rangesOf_append, hnone, List.append_nil, ← h.blocks k hk]
      refine blocksOf_congr fun a ha => hfields a fun hin => hkn ?_
      exact hg.inodeBytes_apart hk hn (blocksFields_subset ha) (blocksFields_subset hin)

end Accounting

end OfsConvert
