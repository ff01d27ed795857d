import OfsConvert.FileBuilding

/-!
# The start of the second phase

`init_ext4_group_descs` and `build_root_inode` store to the metadata of the groups only. Behind them
nothing is registered, and the root directory is the only inode.
-/

namespace OfsConvert

/-- What the second phase starts with: blocks that keep what they hold, some of which will be
registered. -/
structure Handed (g : Globals) (m₀ : Mem) (F R : List ℕ) (s : State) : Prop where
  alloc : AllocatorInv g m₀ (metaExtents g) s
  nodup : R.Nodup
  data : ∀ b ∈ F ++ R, DataBlock g b
  taken : ∀ b ∈ F ++ R, BlockTaken g s b
  fresh : s.ext4 = {}

/-- The inode that `build_root_inode` stores. -/
def rootInode (env : Env) : Ext4Inode where
  iMode := 0o755 ||| sIfdir
  iUid := env.euid &&& 0xFFFF
  lIUidHigh := u16 (env.euid >>> 16)
  iGid := env.egid &&& 0xFFFF
  lIGidHigh := u16 (env.egid >>> 16)
  iAtime := u32 env.rootTimes.atime
  iCtime := u32 env.rootTimes.ctime
  iMtime := u32 env.rootTimes.mtime
  iCrtime := 0
  iLinksCount := 3
  iFlags := extentsFlag
  extHeader := initExtentHeader

/-- The root inode is built as a reserved inode. -/
theorem buildRootInode_eq (g : Globals) (env : Env) : buildRootInode g env =
    addReservedInode g (rootInode env).bytes (rootInode env).isDirectory ext4RootInode := rfl

section

variable {g : Globals} (hg : Accepted g) {m₀ : Mem} {F R : List ℕ} {s t : State} {n : ℕ}
include hg

/-- The reserved inodes are in the first group. -/
theorem Accepted.reservedPlace (hlow : 1 ≤ n) (hhigh : n ≤ ext4FirstNonRsvInode) :
    InodePlace g.sb n := by
  obtain ⟨-, -, -, hinodes, -⟩ := hg.numbers
  unfold ext4FirstNonRsvInode at hhigh
  refine ⟨hlow, by omega, ?_⟩
  rw [inodeGroup, sub32_of_le hlow (by omega), Nat.div_eq_of_lt (by omega)]
  exact hg.blockGroupCount_pos

/-- At first only the reserved inodes are marked as used. -/
theorem InitialGroup.clear {m : Mem} (hn : InodePlace g.sb n) (hlow : 12 ≤ n)
    (h : InitialGroup g (inodeGroup g.sb n) m) : inodeBit g m n = false := by
  obtain ⟨hno, hindex⟩ := hg.inodeNo_eq hn
  obtain ⟨-, -, -, -, -, hfits, -⟩ := hg.numbers
  rw [← hg.blockSize_eq] at hfits
  rw [inodeBit, h.inodeBits _ (by omega), decide_eq_false_iff_not]
  rintro (hused | hmany)
  · unfold usedInodes ext4FirstNonRsvInode at hused
    split at hused
    · rename_i hfirst
      rw [hfirst] at hno
      omega
    · omega
  · omega

/-- `init_ext4_group_descs` keeps every block that is handed over. -/
theorem initExt4GroupDescs_inv (h : Handed g m₀ F R s) {E : Halt → State → Prop} :
    wp (initExt4GroupDescs g)
      (fun _ t => BuildInv g m₀ s F [] R t ∧ t.ext4 = { s.ext4 with
          groupDescs := (List.range (blockGroupCount g.sb)).map (initialGroupDesc g.sb) } ∧
        ∀ i < blockGroupCount g.sb, InitialGroup g i t.mem) E s := by
  refine wp_mono_ok (initExt4GroupDescs_spec hg s) ?_
  rintro _ t ⟨htouch, hext4, hgroups⟩
  have hmeta : ∀ a, (∃ i < blockGroupCount g.sb, a ∈ prefixBytes g i) →
      ∃ b, InBlock g b a ∧ MetaBlock g b := by
    rintro a ⟨i, hi, ha⟩
    obtain ⟨b, hb, hba⟩ := hg.inPrefix_of_mem ha
    exact ⟨b, hba, i, hi, hb⟩
  obtain ⟨new, hnew, hin⟩ := htouch.stores
  have hregistered : t.ext4.registered = [] := by rw [hext4, h.fresh]
  have hff : t.ext4.firstFreeInodeNo = 12 := by
    rw [hext4, h.fresh]
    rfl
  refine ⟨⟨h.alloc.congr htouch.allocator htouch.allocationBitmap, ?_, ?_, fun b hb => ?_,
    fun b hb => ?_, fun b hb => ⟨h.data b (List.mem_append_left R hb), List.not_mem_nil, ?_⟩, ?_,
    ?_, fun b hb => ?_, ⟨new, hnew, fun store hstore a hlow hhigh => ?_⟩, fun b hb a ha => ?_⟩,
    hext4, hgroups⟩
  · rw [hext4]
    exact hg.placed_initial
  · rw [hregistered]
    exact h.nodup
  · rw [hregistered] at hb
    exact h.data b (List.mem_append_right F hb)
  · rw [hregistered] at hb
    rw [BlockTaken, htouch.allocationBitmap]
    exact h.taken b hb
  · rw [hregistered]
    exact List.forall_mem_nil _
  · rw [hff]
    decide
  · rw [hregistered]
    exact List.nodup_nil
  · rw [hregistered] at hb
    exact absurd hb List.not_mem_nil
  · obtain ⟨b, hba, hb⟩ := hmeta a (hin store hstore a hlow hhigh)
    exact ⟨b, hba, Or.inl hb⟩
  · refine htouch.mem a fun hmem => ?_
    obtain ⟨c, hca, hc⟩ := hmeta a hmem
    exact (h.data b (List.mem_append_left R hb)).not_inBlock ha hc hca

/-- Marked as used, at first, is every reserved inode. -/
theorem InitialGroup.reserved {m : Mem} (hlow : 1 ≤ n) (hhigh : n ≤ ext4FirstNonRsvInode)
    (h : InitialGroup g (inodeGroup g.sb n) m) : inodeBit g m n = true := by
  have hn := hg.reservedPlace hlow hhigh
  obtain ⟨hno, hindex⟩ := hg.inodeNo_eq hn
  obtain ⟨-, -, -, hinodes, -, hfits, -⟩ := hg.numbers
  rw [← hg.blockSize_eq] at hfits
  unfold ext4FirstNonRsvInode at hhigh
  have hgroup : inodeGroup g.sb n = 0 := by
    rw [inodeGroup, sub32_of_le hlow (by omega)]
    exact Nat.div_eq_of_lt (by omega)
  rw [inodeBit, h.inodeBits _ (by omega), decide_eq_true_eq, hgroup]
  rw [hgroup] at hno
  left
  rw [usedInodes, if_pos rfl]
  unfold ext4FirstNonRsvInode
  omega

/-- Behind the first two steps the root directory is the only inode. -/
theorem startBuilding (h : Handed g m₀ F R s) (env : Env) {E : Halt → State → Prop} :
    wp (do
        initExt4GroupDescs g
        buildRootInode g env)
      (fun _ t => Building g ∅ m₀ s F [] R t ∧ InodeBuilt g t ext4RootInode (rootInode env) ∧
        (GroupsFit g → Ledger g t) ∧ t.ext4.registered = [] ∧ t.ext4.firstFreeInodeNo = 12 ∧
        t.ext4.reads = [] ∧ ∀ n, 1 ≤ n → n ≤ ext4FirstNonRsvInode → inodeBit g t.mem n = true)
      E s := by
  have hroot := hg.reservedPlace (n := ext4RootInode) (by decide) (by decide)
  have hledger : wp (initExt4GroupDescs g) (fun _ t => GroupsFit g → Ledger g t)
      (fun _ _ => False) s := by
    by_cases hfit : GroupsFit g
    · exact wp_mono_ok (initExt4GroupDescs_ledger hg hfit (by rw [h.fresh])) fun _ t ht _ => ht
    · exact wp_mono_ok (initExt4GroupDescs_spec hg s) fun _ t _ hin => absurd hin hfit
  rw [wp_bind]
  refine wp_mono (wp_and (initExt4GroupDescs_inv (E := fun _ _ => False) hg h) hledger) ?_
    (fun _ _ hend => hend.1.elim)
  rintro _ u ⟨⟨hinv, hext4, hgroups⟩, hledger⟩
  have hregistered : u.ext4.registered = [] := by rw [hext4, h.fresh]
  have hreads : u.ext4.reads = [] := by rw [hext4, h.fresh]
  have hff : u.ext4.firstFreeInodeNo = 12 := by
    rw [hext4, h.fresh]
    rfl
  obtain ⟨bg, hbg, hdesc⟩ := hinv.placed.get hroot.group
  have hblank := (hgroups _ hroot.group).blank hg hroot
  rw [buildRootInode_eq]
  refine wp_mono (wp_and (addReservedInode_spec (E := fun _ _ => False) hg hinv.placed hroot
    (show (rootInode env).bytes.length ≤ ext4InodeSize by rw [length_inode_bytes]; decide)
    (rootInode env).isDirectory hbg)
    (addReservedInode_ledger (E := fun _ _ => False) hg hinv.placed (rootInode env)
      (show 0o755 ||| sIfdir < 2 ^ 16 by decide) hroot
      hblank)) ?_ (fun _ _ hend => hend.1.elim)
  rintro _ t ⟨⟨htouch, hmem, hext4'⟩, hledger'⟩
  have hregistered' : t.ext4.registered = [] := by
    rw [hext4']
    exact hregistered
  have hff' : t.ext4.firstFreeInodeNo = 12 := by
    rw [hext4']
    exact hff
  have hmade : ∀ k, Present ∅ t k → k = ext4RootInode := by
    rintro k ((hk | ⟨hlow, hhigh⟩) | hreserved)
    · exact hk
    · omega
    · exact absurd hreserved (Set.notMem_empty k)
  have hread : t.mem.read (inodeAddr g ext4RootInode) sizeofExt4Inode = (rootInode env).bytes := by
    rw [hmem]
    exact Mem.read_write_of_length (length_inode_bytes _)
  have hother : ∀ k, InodePlace g.sb k → k ≠ ext4RootInode → ∀ a ∈ inodeBytes g k,
      t.mem a = u.mem a := fun k hk hne a ha =>
    htouch.mem a fun hin => hne (hg.inodeAddr_unique hk hroot ha hin)
  have hbits : ∀ k, InodePlace g.sb k → inodeBit g t.mem k = inodeBit g u.mem k := fun k hk => by
    refine bitAt_congr (htouch.mem _ fun hin => ?_)
    have hlow := (inodeBitmapAddr_le g (inodeGroup g.sb k)).1
    exact absurd (hg.inodeBit_place hk)
      (Nat.not_lt.mpr (hg.inode_behind_bitmaps hroot hin hk.group (by omega)))
  have htrees : inTreeOf t.ext4.registered ext4RootInode = [] := by
    rw [hregistered']
    rfl
  refine ⟨⟨?_, fun k hk => absurd hk (Set.notMem_empty k), fun k hk hm => ?_, ?_,
    fun k hk hm a ha => ?_, fun k hk hle => ?_, fun k _ => by rw [hregistered']; rfl⟩,
    ⟨hroot, Or.inl rfl, hread, ?_, htrees⟩, fun hfit => hledger' (hledger hfit), hregistered',
    hff', ?_, fun k hlow hhigh => ?_⟩
  · refine hinv.touches htouch (fun a ha => ?_) ?_ (hregistered'.trans hregistered.symm) ?_
    · obtain ⟨b, hb, -, hba⟩ := hg.inodeAddr_inPrefix hroot ha.1 ha.2
      exact ⟨b, hba, Or.inl ⟨_, hroot.group, hb⟩⟩
    · rw [hext4']
      exact hinv.placed.set (hdesc.countDir _)
    · rw [hff']
      decide
  · obtain rfl := hmade k hm
    rw [treeExtents, htrees, List.map_nil]
    exact fun _ => ⟨none, treeAt_new hread rfl, fun b hb => absurd hb (by simp)⟩
  · rw [hregistered']
    exact List.forall_mem_nil _
  · have hne : k ≠ ext4RootInode := fun heq => hm (heq ▸ Or.inl (Or.inl rfl))
    rw [hother k hk hne a ha]
    exact (hgroups _ hk.group).blank hg hk a ha
  · rw [hff'] at hle
    rw [hbits k hk]
    exact (hgroups _ hk.group).clear hg hk hle
  · rw [hbits _ hroot]
    exact (hgroups _ hroot.group).reserved hg (by decide) (by decide)
  · rw [hext4']
    exact hreads
  · have hk := hg.reservedPlace hlow hhigh
    rw [hbits k hk]
    exact (hgroups _ hk.group).reserved hg hlow hhigh

end

end OfsConvert
