import OfsConvert.BuildState

/-!
# Updates of inodes

What the operations of `ext4_inode.cpp` do to the inode they are called for. Every field has its
own bytes, so an operation on one field keeps the others.
-/

namespace OfsConvert

/-- The bytes of a field of an inode. -/
def fieldBytes (g : Globals) (n offset w : ℕ) : Set ℕ :=
  bytesFrom (inodeAddr g n + offset) (inodeAddr g n + offset + w)

/-- The field of `w` bytes at an offset of an inode. -/
def inodeField (g : Globals) (m : Mem) (n offset w : ℕ) : ℕ := m.readLE (inodeAddr g n + offset) w

/-- `i_mode`, `i_size`, `i_blocks` and `i_links_count` of an inode. -/
def modeOf (g : Globals) (m : Mem) (n : ℕ) : ℕ := inodeField g m n 0 2

/-- The size stored in an inode. -/
def sizeOf (g : Globals) (m : Mem) (n : ℕ) : ℕ :=
  fromLoHi (inodeField g m n iSizeLoOffset 4) (inodeField g m n iSizeHighOffset 4)

/-- The blocks counted in an inode, in sectors. -/
def blocksOf (g : Globals) (m : Mem) (n : ℕ) : ℕ :=
  fromLoHi (inodeField g m n iBlocksLoOffset 4) (inodeField g m n iBlocksHighOffset 2)

/-- The links counted in an inode. -/
def linksOf (g : Globals) (m : Mem) (n : ℕ) : ℕ := inodeField g m n iLinksCountOffset 2

/-- The mode says that the inode is a directory. -/
def isDirectoryMode (mode : ℕ) : Bool := mode &&& sIfdir != 0

/-- A packed header has twelve bytes. -/
theorem length_extentHeader_bytes (h : Ext4ExtentHeader) :
    h.bytes.length = sizeofExtentHeader := by
  unfold Ext4ExtentHeader.bytes sizeofExtentHeader
  simp only [List.length_append, length_leBytes]

/-- A packed inode has a fixed size. -/
theorem length_inode_bytes (inode : Ext4Inode) : inode.bytes.length = sizeofExt4Inode := by
  unfold Ext4Inode.bytes sizeofExt4Inode
  simp only [List.length_append, length_leBytes, length_extentHeader_bytes, sizeofExtentHeader]

section

variable {g : Globals} {s t : State} {E : Halt → State → Prop} {A : Set ℕ} {n : ℕ}

/-- A field that is not touched keeps its value. -/
theorem Touches.inodeField_eq (h : Touches A s t) {offset w : ℕ}
    (hout : ∀ a ∈ fieldBytes g n offset w, a ∉ A) :
    inodeField g t.mem n offset w = inodeField g s.mem n offset w :=
  h.readLE_eq fun i hi => hout _ ⟨Nat.le_add_right _ _, by omega⟩

/-- Bytes outside the inode bitmaps do not change their bits. -/
theorem Touches.inodeBit_eq (h : Touches A s t)
    (hout : inodeBitmapAddr g (inodeGroup g.sb n) + inodeIndex g.sb n / 8 ∉ A) :
    inodeBit g t.mem n = inodeBit g s.mem n := bitAt_congr (h.mem _ hout)

/-- A store to a field. -/
theorem Touches.field (s : State) (n offset w : ℕ) (v : ℕ) :
    Touches (fieldBytes g n offset w) s (s.stored (inodeAddr g n + offset) w
      (s.mem.write (inodeAddr g n + offset) (leBytes w v))) := by
  refine Touches.stored s (fun a hlow hhigh => ⟨hlow, hhigh⟩) ?_
  have hwrite := Mem.sameOutside_write s.mem (inodeAddr g n + offset) (leBytes w v)
  rwa [length_leBytes] at hwrite

/-- A stored field reads back. -/
theorem inodeField_write {m : Mem} {offset w v : ℕ} (hv : v < 256 ^ w) :
    inodeField g (m.write (inodeAddr g n + offset) (leBytes w v)) n offset w = v :=
  Mem.readLE_write_leBytes hv

/-- `set_size` writes the two halves of the size. -/
theorem setSize_spec (hg : Accepted g) (h : Placed g s.ext4.groupDescs)
    (hn : InodePlace g.sb n) {size : ℕ} (hsize : size < 2 ^ 64) :
    wp (setSize g n size)
      (fun _ t => Touches (fieldBytes g n iSizeLoOffset 4 ∪ fieldBytes g n iSizeHighOffset 4) s t ∧
        t.ext4 = s.ext4 ∧ sizeOf g t.mem n = size) E s := by
  rw [setSize, wp_bind]
  refine getExistingInode_spec hg h hn ?_
  simp only [wp_bind, wp_storeLE]
  refine ⟨((Touches.field s n _ 4 _).mono Set.subset_union_left).trans
    ((Touches.field _ n _ 4 _).mono Set.subset_union_right), rfl, ?_⟩
  have hlo : (setLoHi64 size).1 < 256 ^ 4 := by
    rw [setLoHi64_fst]
    exact Nat.mod_lt _ (by norm_num)
  have hhi : (setLoHi64 size).2 < 256 ^ 4 := u32_lt _
  rw [sizeOf, (Touches.field _ n iSizeHighOffset 4 _).inodeField_eq, State.stored_mem,
    inodeField_write hlo, State.stored_mem, inodeField_write hhi, fromLoHi_setLoHi64 hsize]
  intro a ha ha'
  have h₁ := ha.2
  have h₂ := ha'.1
  unfold iSizeLoOffset at h₁
  unfold iSizeHighOffset at h₂
  omega

/-- `get_size` returns the size that is stored. -/
theorem getSize_spec (hg : Accepted g) (h : Placed g s.ext4.groupDescs) (hn : InodePlace g.sb n)
    {Q : ℕ → State → Prop} (hQ : Q (sizeOf g s.mem n) s) : wp (getSize g n) Q E s := by
  rw [getSize, wp_bind]
  refine getExistingInode_spec hg h hn ?_
  exact hQ

/-- `incr_links_count` writes the link count only. -/
theorem incrLinksCount_spec (hg : Accepted g) (h : Placed g s.ext4.groupDescs)
    (hn : InodePlace g.sb n) :
    wp (incrLinksCount g n)
      (fun _ t => Touches (fieldBytes g n iLinksCountOffset 2) s t ∧ t.ext4 = s.ext4) E s := by
  rw [incrLinksCount, wp_bind]
  refine getExistingInode_spec hg h hn ?_
  simp only [wp_bind, wp_getMem, wp_storeLE]
  exact ⟨Touches.field s n _ 2 _, rfl⟩

/-- The count has 16 bits. -/
theorem incrLinksCount_counts (hg : Accepted g) (h : Placed g s.ext4.groupDescs)
    (hn : InodePlace g.sb n) :
    wp (incrLinksCount g n) (fun _ t => linksOf g t.mem n = u16 (linksOf g s.mem n + 1)) E s := by
  rw [incrLinksCount, wp_bind]
  refine getExistingInode_spec hg h hn ?_
  simp only [wp_bind, wp_getMem, wp_storeLE]
  exact inodeField_write (u16_lt _)

/-- `save_inode` for a number with a place. -/
theorem saveInode_spec (hg : Accepted g) (h : Placed g s.ext4.groupDescs) (inode : Ext4Inode)
    (hn : InodePlace g.sb s.ext4.firstFreeInodeNo) {bg : Ext4GroupDesc}
    (hbg : s.ext4.groupDescs[inodeGroup g.sb s.ext4.firstFreeInodeNo]? = some bg) :
    wp (saveInode g inode)
      (fun n t => n = s.ext4.firstFreeInodeNo ∧
        Touches (inodeBitByte g n ∪ inodeBytes g n) s t ∧
        t.mem.read (inodeAddr g n) sizeofExt4Inode = inode.bytes ∧
        (∃ m, BitsSet (inodeBitmapAddr g (inodeGroup g.sb n)) (inodeIndex g.sb n)
            (inodeIndex g.sb n + 1) s.mem m ∧ t.mem = m.write (inodeAddr g n) inode.bytes) ∧
        t.ext4 = { s.ext4.setDesc (inodeGroup g.sb n) (bg.useInode.countDir inode.isDirectory) with
          firstFreeInodeNo := u32 (n + 1) }) E s := by
  rw [saveInode]
  simp only [wp_bind, wp_get]
  refine wp_mono_ok (addInode_spec hg h hn (by rw [length_inode_bytes]; decide) _ hbg) ?_
  intro _ u hu
  obtain ⟨htouch, hread, hmem, hext4⟩ := hu
  simp only [wp_modify, wp_pure]
  refine ⟨trivial, htouch.ofExt4, ?_, hmem, ?_⟩
  · rw [length_inode_bytes] at hread
    exact hread
  · rw [hext4]

/-- `save_inode` when the inode tables are full. -/
theorem saveInode_full (inode : Ext4Inode)
    (hgroup : blockGroupCount g.sb ≤ inodeGroup g.sb s.ext4.firstFreeInodeNo)
    {Q : ℕ → State → Prop} (hE : E (.exit notEnoughInodesMessage) s) :
    wp (saveInode g inode) Q E s := by
  rw [saveInode]
  simp only [wp_bind, wp_get]
  exact addInode_full hgroup hE

end

end OfsConvert
