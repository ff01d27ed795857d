import OfsConvert.SecondPhase
import OfsConvert.TreeDeepening

/-!
# Building `lost+found`

`build_lost_found` adds a block to the root directory and makes a directory of one block with the
reserved inode 11. It stores to the new block of the root after that has been registered.
-/

namespace OfsConvert

/-- The inode that `build_lost_found_inode` stores. -/
def lostFoundInode (env : Env) : Ext4Inode where
  iMode := 0o755 ||| sIfdir
  iUid := rootUid
  lIUidHigh := 0
  iGid := rootGid
  lIGidHigh := 0
  iAtime := u32 env.lostFoundTimes.atime
  iCtime := u32 env.lostFoundTimes.ctime
  iMtime := u32 env.lostFoundTimes.mtime
  iCrtime := 0
  iLinksCount := 2
  iFlags := extentsFlag
  extHeader := initExtentHeader

/-- `lost+found` gets its inode as a reserved inode. -/
theorem buildLostFoundInode_eq (g : Globals) (env : Env) : buildLostFoundInode g env =
    addReservedInode g (lostFoundInode env).bytes (lostFoundInode env).isDirectory
      ext4LostFoundInode := rfl

/-- Bytes that are neither of an inode nor of a bitmap. -/
structure Apart (g : Globals) (A : Set ℕ) : Prop where
  inodes : ∀ n, InodePlace g.sb n → ∀ a ∈ inodeBytes g n, a ∉ A
  bitmaps : ∀ i < blockGroupCount g.sb, ∀ a, blockBitmapAddr g i ≤ a → a < inodeTableAddr g i →
    a ∉ A

section Apart

variable {g : Globals} (hg : Accepted g) {m₀ : Mem} {base : State} {F O R P : List ℕ}
  {X D A : Set ℕ} {s t u : State} {b n : ℕ}
include hg

/-- The bytes of a data block are apart. -/
theorem DataBlock.apart (hb : DataBlock g b) : Apart g {a | InBlock g b a} := by
  refine ⟨fun n hn a ha hba => ?_, fun i hi a hlow hhigh hba => ?_⟩
  · obtain ⟨c, hc, -, hca⟩ := hg.inodeAddr_inPrefix hn ha.1 ha.2
    exact hb.not_inBlock hba ⟨_, hn.group, hc⟩ hca
  · obtain ⟨c, hc, -, hca⟩ := hg.bitmap_inPrefix hi hlow hhigh
    exact hb.not_inBlock hba ⟨i, hi, hc⟩ hca

/-- Stores that are apart keep the bits of the inodes. -/
theorem Apart.inodeBit_eq (hA : Apart g A) (ht : Touches A s t) (hn : InodePlace g.sb n) :
    inodeBit g t.mem n = inodeBit g s.mem n := by
  have hlow := (inodeBitmapAddr_le g (inodeGroup g.sb n)).1
  exact bitAt_congr (ht.mem _ (hA.bitmaps _ hn.group _ (by omega) (hg.inodeBit_place hn)))

/-- Stores apart from the extent trees keep everything that has been built. -/
theorem Building.apart (h : Building g X m₀ base F O R s) (hA : Apart g A) (ht : Touches A s t)
    (hext4 : t.ext4 = s.ext4) (hwritten : ∀ a ∈ A, Written g F O s.ext4.registered a)
    (hnodes : ∀ r ∈ s.ext4.registered, r.inTree = false → ∀ b ∈ r.blocks, ∀ a, InBlock g b a →
      a ∉ A) : Building g X m₀ base F O R t := by
  have hpresent : ∀ k, Present X t k ↔ Present X s k := fun k => by
    rw [Present, Present, Made, Made, hext4]
  have hinode : ∀ k, InodePlace g.sb k → ∀ a ∈ inodeBytes g k, t.mem a = s.mem a :=
    fun k hk a ha => ht.mem a (hA.inodes k hk a ha)
  have hinv : BuildInv g m₀ base F O R t := by
    obtain ⟨new, hnew, hin⟩ := ht.stores
    obtain ⟨old, hold, hlog⟩ := h.inv.log.stores
    refine ⟨h.inv.alloc.congr ht.allocator ht.allocationBitmap, ?_, ?_, ?_, fun c hc => ?_, ?_, ?_,
      ?_, ?_, ⟨new ++ old, by rw [hnew, hold, List.append_assoc], fun store hstore a hlow hhigh => ?_⟩,
      fun c hc a ha => ?_⟩
    · rw [hext4]
      exact h.inv.placed
    · rw [hext4]
      exact h.inv.nodup
    · rw [hext4]
      exact h.inv.data
    · rw [hext4] at hc
      rw [BlockTaken, ht.allocationBitmap]
      exact h.inv.taken c hc
    · rw [hext4]
      exact h.inv.foreign
    · rw [hext4]
      exact h.inv.firstFree
    · rw [hext4]
      exact h.inv.log.nodup
    · rw [hext4]
      exact h.inv.log.data
    · rw [hext4]
      rcases List.mem_append.mp hstore with hmem | hmem
      · exact hwritten a (hin store hmem a hlow hhigh)
      · exact hlog store hmem a hlow hhigh
    · rw [← h.inv.log.foreign c hc a ha]
      refine ht.mem a fun hin => ?_
      obtain ⟨b, hba, hb⟩ := hwritten a hin
      obtain rfl := inBlock_unique hba ha
      rcases hb with hmeta | ⟨hf, -⟩
      · exact (h.inv.foreign b hc).1.outside hmeta
      · exact hf hc
  refine ⟨hinv, h.reserved, fun k hk hm => ?_, fun r hr => ?_, fun k hk hm a ha => ?_,
    fun k hk hle => ?_, hext4 ▸ h.nodes⟩
  · have heq : treeExtents t k = treeExtents s k := by rw [treeExtents, treeExtents, hext4]
    rw [heq]
    intro hlength
    obtain ⟨leaf, hat, hleaf⟩ := h.trees k hk ((hpresent k).mp hm) hlength
    refine ⟨leaf, hat.congr hg (fun a ha => hinode k hk a (rootBytes_subset ha)) fun c hc a ha => ?_,
      fun c hc => ?_⟩
    · obtain ⟨-, r, hr, hnode, -, hblocks⟩ := hleaf c hc
      refine ht.mem a (hnodes r hr hnode c ?_ a ha)
      rw [hblocks]
      exact List.mem_singleton_self c
    · obtain ⟨hmany, r, hr, hrest⟩ := hleaf c hc
      exact ⟨hmany, r, by rw [hext4]; exact hr, hrest⟩
  · rw [hext4] at hr
    exact (hpresent _).mpr (h.owners r hr)
  · rw [hinode k hk a ha]
    exact h.blank k hk (fun hold => hm ((hpresent k).mpr hold)) a ha
  · rw [hA.inodeBit_eq hg ht hk]
    exact h.clear k hk (by rwa [hext4] at hle)

/-- Stores apart from the blocks that were registered or kept when the work started are a part of
it. -/
theorem Work.apart (h : Work g D P s t) (hplaced : Placed g t.ext4.groupDescs) (hA : Apart g A)
    (ht : Touches A t u) (hext4 : u.ext4 = t.ext4)
    (hblocks : ∀ b ∈ P ++ registeredBlocks s.ext4.registered, ∀ a, InBlock g b a → a ∉ A) :
    Work g D P s u := by
  have hinode : ∀ k, InodePlace g.sb k → ∀ a ∈ inodeBytes g k, u.mem a = t.mem a :=
    fun k hk a ha => ht.mem a (hA.inodes k hk a ha)
  refine ⟨⟨?_, ?_, fun c hc a ha => ?_, fun r hr hkeep c hc a ha => ?_, fun k hk hkd a ha => ?_,
    fun k hk hmade => ?_, fun k hk hbit => ?_⟩, fun k hk => ?_, fun hledger => ?_⟩
  · rw [hext4]
    exact h.step.registered
  · rw [hext4]
    exact h.step.firstFree
  · rw [ht.mem a (hblocks c (List.mem_append_left _ hc) a ha)]
    exact h.step.kept c hc a ha
  · rw [ht.mem a (hblocks c (List.mem_append_right P (mem_registeredBlocks.mpr ⟨r, hr, hc⟩)) a ha)]
    exact h.step.blocks r hr hkeep c hc a ha
  · rw [hinode k hk a ha]
    exact h.step.inodes k hk hkd a ha
  · rw [← h.step.modes k hk hmade]
    refine Mem.readLE_congr fun i hi => hinode k hk _ ⟨Nat.le_add_right _ _, ?_⟩
    unfold ext4InodeSize
    omega
  · rw [hA.inodeBit_eq hg ht hk]
    exact h.step.bits k hk hbit
  · rw [hext4]
    exact h.ranges k hk
  · exact (h.ledger hledger).congr hg hplaced (by rw [hext4]) (by rw [hext4])
      (fun i hi a hlow hhigh => ht.mem a (hA.bitmaps i hi a hlow hhigh)) fun k hk =>
        ⟨modeOf_congr fun a hlow hhigh => hinode k hk a (modeBytes_subset hlow hhigh),
          blocksOf_congr fun a ha => hinode k hk a (blocksFields_subset ha)⟩

/-- `add_reserved_inode` adds one of the reserved inodes. -/
theorem addReservedInode_building (h : Building g X m₀ base F O R s) (inode : Ext4Inode)
    (hmode : inode.iMode < 2 ^ 16) (hheader : inode.extHeader = initExtentHeader)
    (hn : InodePlace g.sb n) (hnew : ¬ Present X s n) (hlow : n < 12) (hP : P ⊆ O ++ R)
    {E : Halt → State → Prop} :
    wp (addReservedInode g inode.bytes inode.isDirectory n)
      (fun _ t => Building g (insert n X) m₀ base F O R t ∧ Work g {n} P s t ∧
        t.ext4.registered = s.ext4.registered ∧
        t.ext4.firstFreeInodeNo = s.ext4.firstFreeInodeNo ∧ t.ext4.reads = s.ext4.reads ∧
        t.mem.read (inodeAddr g n) sizeofExt4Inode = inode.bytes ∧
        ∀ a, a ∉ inodeBytes g n → t.mem a = s.mem a) E s := by
  obtain ⟨bg, hbg, hdesc⟩ := h.inv.placed.get hn.group
  refine wp_mono (wp_and (addReservedInode_spec (E := fun _ _ => False) hg h.inv.placed hn
    (show inode.bytes.length ≤ ext4InodeSize by rw [length_inode_bytes]; decide)
    inode.isDirectory hbg)
    (addReservedInode_ledger (E := fun _ _ => False) hg h.inv.placed inode hmode hn
      (h.blank n hn hnew))) ?_ (fun _ _ hend => hend.1.elim)
  rintro _ t ⟨⟨htouch, hmem, hext4⟩, hledger⟩
  have hread : t.mem.read (inodeAddr g n) sizeofExt4Inode = inode.bytes := by
    rw [hmem]
    exact Mem.read_write_of_length (length_inode_bytes inode)
  have hregistered : t.ext4.registered = s.ext4.registered := by
    rw [hext4]
    rfl
  have hff : t.ext4.firstFreeInodeNo = s.ext4.firstFreeInodeNo := by
    rw [hext4]
    rfl
  have hreads : t.ext4.reads = s.ext4.reads := by
    rw [hext4]
    rfl
  have hmade : ∀ k, Present (insert n X) t k ↔ Present X s k ∨ k = n := fun k => by
    have hsame : Made t k ↔ Made s k := by rw [Made, Made, hff]
    rw [Present, Present, hsame, Set.mem_insert_iff, or_comm (a := k = n), or_assoc]
  have hbits : ∀ k, InodePlace g.sb k → inodeBit g t.mem k = inodeBit g s.mem k := by
    intro k hk
    have hle := (inodeBitmapAddr_le g (inodeGroup g.sb k)).1
    refine bitAt_congr (htouch.mem _ fun hin => ?_)
    exact absurd (hg.inodeBit_place hk)
      (Nat.not_lt.mpr (hg.inode_behind_bitmaps hn hin hk.group (by omega)))
  have hown : ∀ a ∈ inodeBytes g n, OwnByte g {n} P O s a := fun a ha =>
    OwnByte.inode n hn rfl ha fun hold => absurd (Or.inl hold) hnew
  obtain ⟨hinv, hstep⟩ := h.inv.own (D := {n}) (P := P) hg hP htouch hown
    (by rw [hext4]; exact h.inv.placed.set (hdesc.countDir _)) hregistered
    (by rw [hff]; exact ⟨le_rfl, h.inv.firstFree.2⟩) fun k hk hbit => by rwa [hbits k hk]
  have hnone : treeExtents t n = [] := by
    rw [treeExtents, List.map_eq_nil_iff, hregistered]
    exact h.noRanges hnew
  refine ⟨⟨hinv, fun k hk => ?_, fun k hk hm => ?_, fun r hr => ?_, fun k hk hm a ha => ?_,
    fun k hk hle => ?_, hregistered ▸ h.nodes⟩, ⟨hstep, fun k _ => by rw [hregistered], hledger⟩,
    hregistered, hff, hreads, hread, htouch.mem⟩
  · rcases Set.mem_insert_iff.mp hk with rfl | hin
    · exact hlow
    · exact h.reserved k hin
  · by_cases hkn : k = n
    · subst hkn
      rw [hnone]
      exact fun _ => ⟨none, treeAt_new hread hheader, by simp⟩
    · have heq : treeExtents t k = treeExtents s k := by rw [treeExtents, treeExtents, hregistered]
      rw [heq]
      refine (h.trees k hk (((hmade k).mp hm).resolve_right hkn)).step hg hk hstep ?_
      simpa using hkn
  · rw [hregistered] at hr
    exact (hmade _).mpr (Or.inl (h.owners r hr))
  · have hkn : k ≠ n := fun heq => hm ((hmade k).mpr (Or.inr heq))
    rw [hstep.inodes k hk (by simpa using hkn) a ha]
    exact h.blank k hk (fun hold => hm ((hmade k).mpr (Or.inl hold))) a ha
  · rw [hff] at hle
    rw [hbits k hk]
    exact h.clear k hk hle

end Apart

section Last

variable {g : Globals} {m₀ : Mem} {base : State} {F O R : List ℕ} {X : Set ℕ} {s : State}
  {n header max depth : ℕ} {owned : ℕ → Prop} {es : List Ext4Extent} {clusters : List ℕ}
  {short : Prop}

/-- With too little fuel the loop of `last_extent` stops. -/
theorem lastLeaf_short (h : ExtentSubtree g s.mem owned header max depth es) {fuel : ℕ}
    (hfuel : fuel ≤ depth) : wp (lastLeaf g fuel header) (fun _ _ => False)
      (fun cause t => cause = .fuel ∧ t = s) s := by
  induction fuel generalizing header max depth es with
  | zero => exact ⟨rfl, rfl⟩
  | succ fuel ih =>
    cases h with
    | leaf => exact absurd hfuel (Nat.not_succ_le_zero fuel)
    | @index _ _ depth count _ hnode hchildren =>
      rw [lastLeaf]
      simp only [wp_bind, wp_getMem]
      rw [if_pos (by rw [hnode.depth]; exact Nat.succ_ne_zero _)]
      obtain ⟨count, rfl⟩ := hnode.exists_succ
      obtain ⟨_, _, _, -, -, -, -, hlast⟩ := hchildren.last
      rw [hnode.lastPlace]
      exact ih hlast (Nat.le_of_succ_le_succ hfuel)

/-- The depth of a tree stands in a field of 16 bits. -/
theorem depth_lt_of_subtree {m : Mem} (h : ExtentSubtree g m owned header max depth es) :
    depth < 2 ^ 16 := by
  have hlt : ehDepth m header < 256 ^ 2 := m.readLE_lt (header + 6) 2
  cases h with
  | leaf => norm_num
  | index hheader _ =>
    rw [hheader.depth] at hlt
    exact hlt.trans_eq (by norm_num)

/-- The extents of an inode are in its tree. -/
theorem Building.treeHolds (hg : Accepted g) (h : Building g X m₀ base F O R s)
    (hn : InodePlace g.sb n) (hpresent : Present X s n) (hroomy : Roomy g s)
    (hne : treeExtents s n ≠ [])
    (hfirst : ∀ e, (treeExtents s n).head? = some e → e.eeBlock = 0) :
    TreeHolds g s n (treeExtents s n) := by
  have hlength : (treeExtents s n).length ≤ maxEntries g := by
    rw [treeExtents, List.length_map]
    exact hroomy n
  obtain ⟨leaf, hat, hleaf⟩ := h.trees n hn hpresent hlength
  refine hat.holds hne (fun b hb => ⟨?_, (hleaf b hb).2⟩) fun _ _ => hfirst
  obtain ⟨-, r, hr, -, -, hblocks⟩ := hleaf b hb
  have hupper := (h.inv.registered_data hr (b := b) (by
    rw [hblocks]
    exact List.mem_singleton_self b)).upper
  have hlt := hg.partitionBlocks_lt
  rw [hg.blockCount_eq] at hupper
  omega

/-- The extents that are registered are in the tree as they are converted. -/
theorem treeExtents_eq (hg : Accepted g) {fexts : List FatExtent}
    (htree : inTreeOf s.ext4.registered n = extentRanges g n fexts)
    (hdata : ∀ e ∈ fexts, DataCluster g e.physicalStart) :
    treeExtents s n = ext4Extents g fexts := by
  rw [treeExtents, htree, extentRanges, List.map_map]
  exact List.map_congr_left fun e he => registrationOf_extent hg (hdata e he) n

/-- The last extent of a directory ends behind its last block. -/
theorem lastExtent_directory (hg : Accepted g) (h : Building g X m₀ base F O R s)
    (hn : InodePlace g.sb n) (hpresent : Present X s n) (hroomy : Roomy g s)
    (htree : inTreeOf s.ext4.registered n = extentRanges g n (dirExtents clusters))
    (hdata : ∀ c ∈ clusters, DataCluster g c) (hne : clusters ≠ []) {fuel : ℕ}
    (hshort : short ∨ 2 ^ 16 ≤ fuel) :
    wp (lastExtent g fuel n) (fun e t => t = s ∧ e.eeBlock + e.eeLen = clusters.length)
      (SafeStop g base F short) s := by
  obtain ⟨-, -, hmax, -⟩ := hg.maxEntries_eq
  have hcount : clusters.length < 2 ^ 16 := by
    have hle := hroomy n
    rw [htree, extentRanges, List.length_map, dirExtents, List.length_mapIdx] at hle
    omega
  have hextents : treeExtents s n = ext4Extents g (dirExtents clusters) := by
    refine treeExtents_eq hg htree fun e he => ?_
    obtain ⟨k, hk, rfl⟩ := List.mem_mapIdx.mp he
    exact hdata _ (List.getElem_mem hk)
  have hfirst : ∀ e, (treeExtents s n).head? = some e → e.eeBlock = 0 := by
    intro e he
    rw [hextents] at he
    cases clusters with
    | nil => exact absurd rfl hne
    | cons c cs =>
      rw [dirExtents, List.mapIdx_cons, ext4Extents, List.map_cons, List.head?_cons] at he
      obtain rfl := Option.some.inj he
      rfl
  have hne' : treeExtents s n ≠ [] := by
    rw [hextents, ext4Extents, ne_eq, List.map_eq_nil_iff, dirExtents, List.mapIdx_eq_nil_iff]
    exact hne
  obtain ⟨depth, hsubtree⟩ := h.treeHolds hg hn hpresent hroomy hne' hfirst
  by_cases hfuel : depth < fuel
  · have htyped : ∀ e ∈ treeExtents s n, e.Typed := by
      intro e he
      rw [hextents] at he
      obtain ⟨f, hf, rfl⟩ := List.mem_map.mp he
      obtain ⟨k, hk, rfl⟩ := List.mem_mapIdx.mp hf
      exact toExt4Extent_typed (hk.trans (hcount.trans (by norm_num)))
    refine wp_mono_ok (lastExtent_spec hg h.inv.placed hn hsubtree htyped hfuel) ?_
    rintro e t ⟨rfl, hlast⟩
    refine ⟨rfl, ?_⟩
    rw [hextents] at hlast
    rcases List.eq_nil_or_concat clusters with rfl | ⟨front, c, rfl⟩
    · exact absurd rfl hne
    · rw [List.concat_eq_append] at hlast ⊢
      rw [dirExtents_append, ext4Extents, List.map_append, List.getLast?_append] at hlast
      obtain rfl := Option.some.inj hlast
      rw [List.length_append, List.length_singleton]
      rfl
  · rw [lastExtent, wp_bind]
    refine getExistingInode_spec hg h.inv.placed hn ?_
    rw [wp_bind]
    have hdepth := depth_lt_of_subtree hsubtree
    refine wp_mono (lastLeaf_short hsubtree (Nat.not_lt.mp hfuel)) (fun _ _ hend => hend.elim) ?_
    rintro _ _ ⟨rfl, rfl⟩
    exact h.runsDry (hshort.resolve_right (by omega))

end Last

/-- The first part of `build_lost_found`: the root directory gets a block. -/
def growRoot (g : Globals) (fuel : ℕ) : Prog ℕ := do
  let rootDentryExtent ← allocateExtent fuel 1
  let lastRootExtent ← lastExtent g fuel ext4RootInode
  registerExtent g fuel { rootDentryExtent with
    logicalStart := u32 (lastRootExtent.eeBlock + lastRootExtent.eeLen) } ext4RootInode
  pure rootDentryExtent.physicalStart

/-- The second part: the inode and its entry in the block of the root directory. -/
def enterLostFound (g : Globals) (env : Env) (cluster : ℕ) : Prog Unit := do
  buildLostFoundInode g env
  storeBytes (clusterStart g.metaInfo cluster)
    ({ buildLostFoundDentry (env.fresh ext4LostFoundInode 2) with
      recLen := u16 (blockSize g.sb) }.bytes sizeofExt4Dentry)
  let size ← getSize g ext4RootInode
  setSize g ext4RootInode (u64 (size + blockSize g.sb))

/-- The third part: the block of `lost+found` itself. -/
def fillLostFound (g : Globals) (env : Env) (fuel : ℕ) : Prog Unit := do
  let lostFoundDentryExtent ← allocateExtent fuel 1
  let dotDotDentry ← buildDotDirs env ext4LostFoundInode ext4RootInode
    (clusterStart g.metaInfo lostFoundDentryExtent.physicalStart)
  storeLE (dotDotDentry + recLenOffset) 2 (u16 (sub32 (blockSize g.sb) ext4DotDentrySize))
  registerExtent g fuel { lostFoundDentryExtent with logicalStart := 0 } ext4LostFoundInode
  setSize g ext4LostFoundInode (blockSize g.sb)

/-- `build_lost_found` grows the root directory, enters itself there and fills its block. -/
theorem buildLostFound_eq (g : Globals) (env : Env) (fuel : ℕ) :
    buildLostFound g env fuel = (do
      let cluster ← growRoot g fuel
      enterLostFound g env cluster
      fillLostFound g env fuel) := by
  simp only [buildLostFound, growRoot, enterLostFound, fillLostFound, bind_assoc, pure_bind]

/-- The entry of `lost+found` in the root directory. -/
def lostFoundEntry : DirEntry :=
  newEntry ext4LostFoundInode [0x6C, 0x6F, 0x73, 0x74, 0x2B, 0x66, 0x6F, 0x75, 0x6E, 0x64]

/-- The root directory with one more block, seen from where `build_lost_found` started. -/
structure RootGrown (g : Globals) (inode : Ext4Inode) (links : ℕ) (clusters : List ℕ) (c : ℕ)
    (s t : State) : Prop where
  work : Work g {ext4RootInode, ext4LostFoundInode} [] s t
  node : DirNode g t ext4RootInode inode links
  tree : inTreeOf t.ext4.registered ext4RootInode =
    extentRanges g ext4RootInode (dirExtents (clusters ++ [c]))
  size : sizeOf g t.mem ext4RootInode = u64 (sizeOf g s.mem ext4RootInode + blockSize g.sb)
  entries : HoldsEntries g t.mem c (fullBlock (blockSize g.sb) [] lostFoundEntry)
  firstFree : t.ext4.firstFreeInodeNo = s.ext4.firstFreeInodeNo
  reads : t.ext4.reads = s.ext4.reads

/-- The directory `lost+found`. -/
structure LostFoundBuilt (g : Globals) (env : Env) (t : State) : Prop where
  inode : HasInode g t.mem ext4LostFoundInode (lostFoundInode env)
  links : linksOf g t.mem ext4LostFoundInode = 2
  size : sizeOf g t.mem ext4LostFoundInode = blockSize g.sb
  block : ∃ c, inTreeOf t.ext4.registered ext4LostFoundInode =
      extentRanges g ext4LostFoundInode (dirExtents [c]) ∧
    HoldsEntries g t.mem c
      (fullBlock (blockSize g.sb) [dotEntry ext4LostFoundInode] (dotDotEntry ext4RootInode))

section Parts

variable {g : Globals} (hg : Accepted g) {env : Env} {m₀ : Mem} {base : State} {F : List ℕ}
  {s t u : State} {clusters : List ℕ} {inode : Ext4Inode} {links c fuel : ℕ} {short : Prop}

/-- `last_extent` registers nothing. -/
theorem SameTrees.lastExtent (g : Globals) (fuel n : ℕ) : Keeps SameTrees (lastExtent g fuel n) := by
  have hleaf : ∀ fuel header, Keeps SameTrees (lastLeaf g fuel header) := by
    intro fuel
    induction fuel with
    | zero => exact fun _ => Keeps.throw refl _
    | succ fuel ih =>
      exact fun header => SameTrees.bind SameTrees.getMem fun _ =>
        Keeps.ite (ih _) (SameTrees.pure header)
  exact SameTrees.bind (SameTrees.getExistingInode g n) fun _ => SameTrees.bind (hleaf fuel _)
    fun _ => SameTrees.bind SameTrees.getMem fun _ => SameTrees.pure _

/-- Growing the root directory only adds to the trees. -/
theorem TreesGrow.growRoot (g : Globals) (fuel : ℕ) : Keeps TreesGrow (growRoot g fuel) :=
  TreesGrow.bind (TreesGrow.of_keeps (SameTrees.allocateExtent fuel 1)) fun _ =>
    TreesGrow.bind (TreesGrow.of_keeps (SameTrees.lastExtent g fuel ext4RootInode)) fun _ =>
      TreesGrow.bind (TreesGrow.registerExtent g fuel _ ext4RootInode) fun _ => TreesGrow.pure _

/-- Entering `lost+found` only adds to the trees. -/
theorem TreesGrow.enterLostFound (g : Globals) (env : Env) (c : ℕ) :
    Keeps TreesGrow (enterLostFound g env c) :=
  TreesGrow.of_keeps (SameTrees.bind (SameTrees.buildLostFoundInode g env) fun _ =>
    SameTrees.bind (SameTrees.storeBytes _ _) fun _ =>
      SameTrees.bind (SameTrees.getSize g _) fun _ => SameTrees.setSize g _ _)

/-- Filling `lost+found` only adds to the trees. -/
theorem TreesGrow.fillLostFound (g : Globals) (env : Env) (fuel : ℕ) :
    Keeps TreesGrow (fillLostFound g env fuel) :=
  TreesGrow.bind (TreesGrow.of_keeps (SameTrees.allocateExtent fuel 1)) fun _ =>
    TreesGrow.bind (TreesGrow.of_keeps (SameTrees.buildDotDirs env _ _ _)) fun _ =>
      TreesGrow.bind (TreesGrow.of_keeps (SameTrees.storeLE _ _ _)) fun _ =>
        TreesGrow.bind (TreesGrow.registerExtent g fuel _ _) fun _ =>
          TreesGrow.of_keeps (SameTrees.setSize g _ _)

include hg

/-- The root directory gets a block behind its last one. -/
theorem growRoot_building (h : Building g ∅ m₀ base F [] [] s)
    (hnode : DirNode g s ext4RootInode inode links)
    (htree : inTreeOf s.ext4.registered ext4RootInode =
      extentRanges g ext4RootInode (dirExtents clusters))
    (hdata : ∀ c ∈ clusters, DataCluster g c) (hne : clusters ≠ [])
    (hfuel : short ∨ allocationFuel g ≤ fuel) :
    wp (growRoot g fuel)
      (Within g fun c t => DataCluster g c ∧ fatClToE4blk g.bootSector g.metaInfo c ∉ F ∧
        fatClToE4blk g.bootSector g.metaInfo c ∉ registeredBlocks s.ext4.registered ∧
        Building g ∅ m₀ base F [] [] t ∧
        Registers g {ext4RootInode} [] ext4RootInode [⟨clusters.length, 1, c⟩] [] s t)
      (Within g (SafeStop g base F short)) s := by
  refine wp_within (TreesGrow.growRoot g fuel) fun hroomy => ?_
  obtain ⟨-, -, hmax, -⟩ := hg.maxEntries_eq
  have hcount : clusters.length < 2 ^ 16 := by
    have hle := hroomy ext4RootInode
    rw [htree, extentRanges, List.length_map, dirExtents, List.length_mapIdx] at hle
    omega
  rw [growRoot, wp_bind]
  refine wp_mono (allocateBlock_building hg h hfuel) ?_ (fun _ _ hend _ => hend)
  rintro e s₁ ⟨h₁, honly, he, hc⟩
  have hroomy₁ : Roomy g s₁ := fun n => by
    rw [honly.ext4]
    exact hroomy n
  have hmade₁ : Present ∅ s₁ ext4RootInode := Or.inl (Or.inl rfl)
  rw [wp_bind]
  refine wp_mono (lastExtent_directory hg h₁ hnode.place hmade₁ hroomy₁
    (by rw [honly.ext4]; exact htree) hdata hne (hfuel.imp_right fun hmuch => ?_)) ?_
    (fun _ _ hend _ => hend)
  · unfold allocationFuel at hmuch
    omega
  rintro last _ ⟨hsame, hlast⟩
  rw [hsame]
  have hfext : ({ e with logicalStart := u32 (last.eeBlock + last.eeLen) } : FatExtent) =
      ⟨clusters.length, 1, e.physicalStart⟩ := by
    rw [hlast, u32_of_lt (hcount.trans (by norm_num)), he]
  rw [hfext]
  have hempty : HoldsEntries g s₁.mem e.physicalStart [] :=
    ⟨hc, trivial, List.forall_mem_nil _, Nat.zero_le _⟩
  refine wp_bind_within (fun _ => TreesGrow.pure _) ?_
  refine within_mono (registerBlock_building (D := {ext4RootInode}) (P := []) hg h₁ hempty
    hnode.place hmade₁ rfl (List.nil_subset _) hfuel clusters.length) ?_
  rintro _ t ⟨h₂, hregisters, -⟩ _
  refine ⟨hc, fun hf => (h₁.inv.foreign _ hf).2.1 List.mem_cons_self, fun hreg => ?_, h₂, ?_⟩
  · refine (List.nodup_append.mp h₁.inv.nodup).2.2 _ ?_ _ (List.mem_append_left _
      List.mem_cons_self) rfl
    rw [honly.ext4]
    exact hreg
  · refine ⟨(Work.allocOnly _ _ honly).trans hregisters.work, ?_, ?_, ?_, ?_⟩
    · rw [hregisters.tree, honly.ext4]
    · rw [hregisters.reads, honly.ext4]
    · rw [hregisters.firstFree, honly.ext4]
    · intro a ha hroot hblocks
      rw [hregisters.fields a ha hroot hblocks, honly.mem]

omit hg in
/-- The entry of `lost+found` fills its block. -/
theorem hasEntry_lostFound (m : Mem) (a : ℕ) (fresh : Ext4Dentry) {size : ℕ} (hsize : 1024 ≤ size) :
    HasEntries (m.write a ({ buildLostFoundDentry fresh with recLen := u16 size }.bytes
      sizeofExt4Dentry)) a (fullBlock size [] lostFoundEntry) := by
  have hwidth : lostFoundEntry.width = 20 := rfl
  have hstretch : lostFoundEntry.stretch (size - (entriesWidth [] + lostFoundEntry.width)) =
      ⟨ext4LostFoundInode, lostFoundEntry.name, size⟩ := by
    rw [DirEntry.stretch, hwidth, entriesWidth_nil]
    have hrest : 20 + (size - (0 + 20)) = size := by omega
    rw [hrest]
    rfl
  have hnamed : buildLostFoundDentry fresh =
      namedDentry fresh ext4LostFoundInode lostFoundEntry.name :=
    buildSpecialDentry_eq _ _ (by decide)
  rw [fullBlock, List.nil_append, HasEntries_singleton, hstretch, hnamed]
  exact hasEntry_write
    (d := { namedDentry fresh ext4LostFoundInode lostFoundEntry.name with recLen := u16 size })
    m a rfl rfl rfl (show ext4LostFoundInode < 2 ^ 32 by decide) (by decide) (by decide) le_rfl

/-- The entry of `lost+found` is sound, with its block filled. -/
theorem lostFoundEntry_sound : ∀ e ∈ fullBlock (blockSize g.sb) [] lostFoundEntry, e.Sound := by
  obtain ⟨k, hk, hpow⟩ := hg.clusterSize_pow
  refine fullBlock_sound ?_ (List.forall_mem_nil _) (newEntry_sound (by decide) (by decide))
  rw [hg.blockSize_eq, hpow, pow_add]
  omega

/-- The entry of `lost+found` is stored into a block that is registered for the root directory and
was not before. -/
theorem storeLostFoundEntry_building {X : Set ℕ} (h : Building g X m₀ base F [] [] t)
    (hwork : Work g {ext4RootInode, ext4LostFoundInode} [] s t) (hc : DataCluster g c)
    (hf : fatClToE4blk g.bootSector g.metaInfo c ∉ F)
    (hnew : fatClToE4blk g.bootSector g.metaInfo c ∉ registeredBlocks s.ext4.registered)
    {r : Registration} (hr : r ∈ t.ext4.registered) (hin : r.inTree = true)
    (hmem : fatClToE4blk g.bootSector g.metaInfo c ∈ r.blocks) {E : Halt → State → Prop} :
    wp (storeBytes (clusterStart g.metaInfo c)
        ({ buildLostFoundDentry (env.fresh ext4LostFoundInode 2) with
          recLen := u16 (blockSize g.sb) }.bytes sizeofExt4Dentry))
      (fun _ u => Building g X m₀ base F [] [] u ∧
        Work g {ext4RootInode, ext4LostFoundInode} [] s u ∧ u.ext4 = t.ext4 ∧
        (∀ n, InodePlace g.sb n → ∀ a ∈ inodeBytes g n, u.mem a = t.mem a) ∧
        HasEntries u.mem (clusterStart g.metaInfo c)
          (fullBlock (blockSize g.sb) [] lostFoundEntry)) E t := by
  have hsize := hg.blockSize_ge
  have hstart := hg.blockStart_fatClToE4blk hc
  have hdata : DataBlock g (fatClToE4blk g.bootSector g.metaInfo c) :=
    h.inv.registered_data hr hmem
  have hlength : ({ buildLostFoundDentry (env.fresh ext4LostFoundInode 2) with
      recLen := u16 (blockSize g.sb) }.bytes sizeofExt4Dentry).length = sizeofExt4Dentry :=
    Ext4Dentry.length_bytes _ le_rfl
  have hentry := hasEntry_lostFound t.mem (clusterStart g.metaInfo c)
    (env.fresh ext4LostFoundInode 2) hsize
  rw [wp_storeBytes]
  generalize ({ buildLostFoundDentry (env.fresh ext4LostFoundInode 2) with
    recLen := u16 (blockSize g.sb) }.bytes sizeofExt4Dentry) = bytes at hlength hentry ⊢
  have htouch : Touches {a | InBlock g (fatClToE4blk g.bootSector g.metaInfo c) a} t
      (t.stored (clusterStart g.metaInfo c) bytes.length
        (t.mem.write (clusterStart g.metaInfo c) bytes)) := by
    refine Touches.stored t (fun a hlow hhigh => ?_) (Mem.sameOutside_write t.mem _ bytes)
    rw [hlength] at hhigh
    unfold sizeofExt4Dentry at hhigh
    exact ⟨hstart.le.trans hlow, by omega⟩
  refine ⟨h.apart hg (hdata.apart hg) htouch rfl (fun a ha => ?_)
      fun r' hr' hnode b hb a ha hin' => ?_,
    hwork.apart hg h.inv.placed (hdata.apart hg) htouch rfl fun b hb a ha hin' => hnew ?_, rfl,
    fun n hn a ha => htouch.mem a ((hdata.apart hg).inodes n hn a ha), hentry⟩
  · exact ⟨_, ha, Or.inr ⟨hf, mem_registeredBlocks.mpr ⟨r, hr, hmem⟩⟩⟩
  · -- a node of a tree is another block
    obtain rfl := inBlock_unique hin' ha
    obtain rfl := registered_unique h.inv.log.nodup hr hr' hmem hb
    rw [hin] at hnode
    cases hnode
  · obtain rfl := inBlock_unique hin' ha
    exact hb

/-- The reserved inode is stored, and its entry in the new block of the root directory. -/
theorem enterLostFound_building (hnode : DirNode g s ext4RootInode inode links)
    (htree : inTreeOf s.ext4.registered ext4RootInode =
      extentRanges g ext4RootInode (dirExtents clusters))
    (hc : DataCluster g c) (hf : fatClToE4blk g.bootSector g.metaInfo c ∉ F)
    (hnew : fatClToE4blk g.bootSector g.metaInfo c ∉ registeredBlocks s.ext4.registered)
    (h : Building g ∅ m₀ base F [] [] t)
    (hregisters : Registers g {ext4RootInode} [] ext4RootInode [⟨clusters.length, 1, c⟩] [] s t)
    {E : Halt → State → Prop} :
    wp (enterLostFound g env c)
      (fun _ u => RootGrown g inode links clusters c s u ∧
        Building g {ext4LostFoundInode} m₀ base F [] [] u ∧
        u.mem.read (inodeAddr g ext4LostFoundInode) sizeofExt4Inode = (lostFoundInode env).bytes ∧
        inTreeOf u.ext4.registered ext4LostFoundInode = []) E t := by
  have hplace := hg.reservedPlace (n := ext4LostFoundInode) (by decide) (by decide)
  have hother : ext4RootInode ∉ ({ext4LostFoundInode} : Set ℕ) := by decide
  have habsent : ¬ Present ∅ t ext4LostFoundInode := by
    rintro ((hroot | hmade) | hreserved)
    · exact absurd hroot (by decide)
    · exact absurd hmade.1 (by decide)
    · exact hreserved
  have hsize := hg.blockSize_ge
  have hstart := hg.blockStart_fatClToE4blk hc
  have hwidth : entriesWidth (fullBlock (blockSize g.sb) [] lostFoundEntry) = blockSize g.sb := by
    rw [fullBlock_width]
    rw [entriesWidth_nil]
    exact (show 20 ≤ 1024 by decide).trans hsize
  rw [enterLostFound, buildLostFoundInode_eq, wp_bind]
  refine wp_mono_ok (addReservedInode_building (P := []) hg h (lostFoundInode env)
    (show 0o755 ||| sIfdir < 2 ^ 16 by decide) rfl hplace habsent (by decide) (List.nil_subset _)) ?_
  rintro _ t₁ ⟨h₁, hwork₁, hreg₁, hff₁, hreads₁, hstored, -⟩
  rw [insert_empty_eq] at h₁
  -- the block is registered for the root directory
  have htree₁ : inTreeOf t₁.ext4.registered ext4RootInode =
      extentRanges g ext4RootInode (dirExtents (clusters ++ [c])) := by
    rw [hreg₁, hregisters.tree, htree, dirExtents_append, extentRanges_append]
  obtain ⟨r, hr, hin, hmem⟩ := exists_range hg hc htree₁
    (List.mem_append_right clusters (List.mem_singleton_self c))
  have hroot : Work g {ext4RootInode, ext4LostFoundInode} [] s t :=
    hregisters.work.mono (by simp) (List.Subset.refl _)
  rw [wp_bind]
  refine wp_mono_ok (storeLostFoundEntry_building hg h₁
    (hroot.trans (hwork₁.mono (by simp) (List.Subset.refl _))) hc hf hnew hr hin hmem) ?_
  rintro _ t₂ ⟨h₂, hwork₂, hext₂, hinode₂, hentry⟩
  have hnode₂ : DirNode g t₂ ext4RootInode inode links := by
    refine ((hnode.registers hregisters).work hwork₁ hother).congr (by rw [hext₂]) ?_
      fun a ha _ _ _ => hinode₂ _ hnode.place a ha
    exact hwork₂.step.bits _ hnode.place hnode.bit
  have hstored₂ : t₂.mem.read (inodeAddr g ext4LostFoundInode) sizeofExt4Inode =
      (lostFoundInode env).bytes := by
    rw [← hstored]
    refine Mem.read_congr fun i hi => hinode₂ _ hplace _ ⟨Nat.le_add_right _ _, ?_⟩
    unfold ext4InodeSize
    unfold sizeofExt4Inode at hi
    omega
  have hsize₂ : sizeOf g t₂.mem ext4RootInode = sizeOf g s.mem ext4RootInode := by
    refine sizeOf_eq_of_fields fun a ha => ?_
    obtain ⟨hin, -, hroot, hblocks⟩ := fields_outside (Or.inl ha)
    rw [hinode₂ _ hnode.place a hin, hwork₁.step.inodes _ hnode.place hother a hin,
      hregisters.fields a hin hroot hblocks]
  rw [wp_bind]
  refine getSize_spec hg h₂.inv.placed hnode.place ?_
  refine wp_mono_ok (setSize_building (D := {ext4RootInode}) (P := []) hg h₂ hnode.place
    (Or.inl hnode₂.made) rfl (List.nil_subset _) (u64_lt _)) ?_
  rintro _ u ⟨h₃, hwork₃, hext₃, hvalue, hmem₃⟩
  have hreg₃ : u.ext4.registered = t₁.ext4.registered := by rw [hext₃, hext₂]
  refine ⟨⟨hwork₂.trans (hwork₃.mono (by simp) (List.Subset.refl _)), ?_, ?_, ?_, ⟨hc, ?_,
    lostFoundEntry_sound hg, hwidth.le⟩, ?_, ?_⟩, h₃, ?_, ?_⟩
  · exact hnode₂.congr (by rw [hext₃]) (hwork₃.step.bits _ hnode.place hnode₂.bit)
      fun a _ hout _ _ => hmem₃ a hout
  · rw [hreg₃, htree₁]
  · rw [hvalue, hsize₂]
  · refine hentry.congr (lostFoundEntry_sound hg) fun a hlow hhigh => ?_
    refine hwork₃.step.blocks r (by rw [hext₂]; exact hr) (Or.inl hin) _ hmem a
      ⟨hstart.le.trans hlow, ?_⟩
    rwa [hwidth, ← hstart] at hhigh
  · rw [hext₃, hext₂, hff₁, hregisters.firstFree]
  · rw [hext₃, hext₂, hreads₁, hregisters.reads, List.append_nil]
  · rw [← hstored₂]
    refine Mem.read_congr fun i hi => hwork₃.step.inodes _ hplace (by decide) _
      ⟨Nat.le_add_right _ _, ?_⟩
    unfold ext4InodeSize
    unfold sizeofExt4Inode at hi
    omega
  · rw [hreg₃, hreg₁]
    exact h.noRanges habsent

/-- `lost+found` gets its block, with the two entries that fill it. -/
theorem fillLostFound_building (h : Building g {ext4LostFoundInode} m₀ base F [] [] s)
    (hstored : s.mem.read (inodeAddr g ext4LostFoundInode) sizeofExt4Inode =
      (lostFoundInode env).bytes)
    (hempty : inTreeOf s.ext4.registered ext4LostFoundInode = [])
    (hfuel : short ∨ allocationFuel g ≤ fuel) :
    wp (fillLostFound g env fuel)
      (Within g fun _ t => Building g {ext4LostFoundInode} m₀ base F [] [] t ∧
        Work g {ext4LostFoundInode} [] s t ∧ LostFoundBuilt g env t ∧
        t.ext4.firstFreeInodeNo = s.ext4.firstFreeInodeNo ∧ t.ext4.reads = s.ext4.reads)
      (Within g (SafeStop g base F short)) s := by
  have hplace := hg.reservedPlace (n := ext4LostFoundInode) (by decide) (by decide)
  have hlow := hg.blockSize_ge
  have hhigh := hg.blockSize_le
  have hpresent : ∀ t, Present {ext4LostFoundInode} t ext4LostFoundInode := fun _ => Or.inr rfl
  rw [fillLostFound, wp_bind]
  refine wp_mono (allocateBlock_building hg h hfuel) ?_ (fun _ _ hend _ => hend)
  rintro e s₁ ⟨h₁, honly, he, hc⟩
  have hfext : ({ e with logicalStart := 0 } : FatExtent) = ⟨0, 1, e.physicalStart⟩ := by rw [he]
  rw [hfext]
  generalize e.physicalStart = c at h₁ hc ⊢
  rw [wp_bind]
  refine wp_mono (buildDotDirs_building (D := {ext4LostFoundInode}) (P := [])
    (E := fun _ _ => False) hg env h₁ hc hplace.upper (List.nil_subset _)
    (show ext4RootInode < 2 ^ 32 by decide)) ?_ (fun _ _ hend => hend.elim)
  rintro p s₂ ⟨h₂, hregisters₂, rfl, hdots⟩
  -- the second entry is stretched to the end of the block
  have hentry := HasEntries_singleton.mp (HasEntries_append.mp hdots.entries).2
  have hdotsWidth : entriesWidth ([dotEntry ext4LostFoundInode] ++ [dotDotEntry ext4RootInode]) =
      24 := rfl
  have hrest : sub32 (blockSize g.sb) 24 = blockSize g.sb - 24 := sub32_of_le (by omega) (by omega)
  have hvalue : u16 (s₂.mem.readLE (clusterStart g.metaInfo c +
      entriesWidth [dotEntry ext4LostFoundInode] + recLenOffset) 2 + sub32 (blockSize g.sb) 24) =
      u16 (sub32 (blockSize g.sb) ext4DotDentrySize) := by
    have hrec : u16 (dotDotEntry ext4RootInode).width = 12 := rfl
    rw [hentry.recLen, hrec, hrest, ext4DotDentrySize, sub32_of_le (by omega) (by omega)]
    congr 1
    omega
  have hstretch := stretchDentry_building (D := {ext4LostFoundInode}) (P := [])
    (E := fun _ _ => False) hg h₂ hdots (List.nil_subset _)
  rw [hdotsWidth, stretchDentry, wp_bind, wp_getMem, hvalue] at hstretch
  rw [wp_bind]
  refine wp_mono hstretch ?_ (fun _ _ hend => hend.elim)
  rintro _ s₃ ⟨h₃, hregisters₃, hfull⟩
  refine wp_bind_within (fun _ => TreesGrow.of_keeps (SameTrees.setSize _ _ _)) ?_
  refine within_mono (registerBlock_building (D := {ext4LostFoundInode}) (P := []) hg h₃ hfull
    hplace (hpresent s₃) rfl (List.nil_subset _) hfuel 0) ?_
  rintro _ s₄ ⟨h₄, hregisters₄, hfull₄⟩
  have hregisters := ((hregisters₂ _ hplace).trans (hregisters₃ _ hplace)).trans hregisters₄
  refine wp_mono (setSize_building (D := {ext4LostFoundInode}) (P := []) (E := fun _ _ => False)
    hg h₄ hplace (hpresent s₄) rfl (List.nil_subset _) (show blockSize g.sb < 2 ^ 64 by omega)) ?_
    (fun _ _ hend => hend.elim)
  rintro _ t ⟨h₅, hwork₅, hext₅, hsize, hmem₅⟩ _
  have htree : inTreeOf t.ext4.registered ext4LostFoundInode =
      extentRanges g ext4LostFoundInode (dirExtents [c]) := by
    rw [hext₅, hregisters.tree, honly.ext4, hempty]
    rfl
  -- besides the fields that are updated the inode is as it was stored
  have hfields : ∀ a ∈ inodeBytes g ext4LostFoundInode, a ∉ sizeFields g ext4LostFoundInode →
      a ∉ rootBytes g ext4LostFoundInode → a ∉ blocksFields g ext4LostFoundInode →
      t.mem a = s.mem a := fun a ha hout hroot hblocks => by
    rw [hmem₅ a hout, hregisters.fields a ha hroot hblocks, honly.mem]
  refine ⟨h₅, ((Work.allocOnly _ _ honly).trans hregisters.work).trans hwork₅,
    ⟨(HasInode.of_read hstored).congr fun a ha hout => ?_, ?_, hsize, c, htree, ?_⟩, ?_, ?_⟩
  · rw [mem_updatedBytes, not_or, not_or, not_or] at hout
    exact hfields a ha hout.1 hout.2.2.1 hout.2.2.2
  · have hcount : (lostFoundInode env).iLinksCount = 2 := rfl
    rw [← hcount, ← linksOf_of_read hstored (by rw [hcount]; decide)]
    refine linksOf_congr fun a ha => ?_
    obtain ⟨hin, -, hroot, hblocks⟩ := fields_outside (Or.inr ha)
    refine hfields a hin (fun hout => ?_) hroot hblocks
    rw [mem_linksField] at ha
    rw [mem_sizeFields] at hout
    omega
  · rw [hext₅] at htree
    obtain ⟨r, hr, hin, hmem⟩ := exists_range hg hc htree (List.mem_singleton_self c)
    exact hfull₄.congr hg (hwork₅.step.blocks r hr (Or.inl hin) _ hmem)
  · rw [hext₅, hregisters.firstFree, honly.ext4]
  · rw [hext₅, hregisters.reads, honly.ext4]
    exact List.append_nil _

/-- Work on `lost+found` keeps the root directory. -/
theorem RootGrown.later (h : RootGrown g inode links clusters c s t)
    (hwork : Work g {ext4LostFoundInode} [] t u)
    (hff : u.ext4.firstFreeInodeNo = t.ext4.firstFreeInodeNo)
    (hreads : u.ext4.reads = t.ext4.reads) : RootGrown g inode links clusters c s u := by
  have hother : ext4RootInode ∉ ({ext4LostFoundInode} : Set ℕ) := by decide
  have htree := (hwork.inTreeOf_eq hother).trans h.tree
  obtain ⟨r, hr, hin, hmem⟩ := exists_range hg h.entries.data h.tree
    (List.mem_append_right clusters (List.mem_singleton_self c))
  refine ⟨h.work.trans (hwork.mono (by simp) (List.Subset.refl _)), h.node.work hwork hother,
    htree, ?_, h.entries.congr hg (hwork.step.blocks r hr (Or.inl hin) _ hmem),
    hff.trans h.firstFree, hreads.trans h.reads⟩
  rw [← h.size]
  exact sizeOf_eq_of_fields fun a ha =>
    hwork.step.inodes _ h.node.place hother a (fields_outside (Or.inl ha)).1

/-- `build_lost_found` attaches the directory `lost+found` to the root. -/
theorem buildLostFound_building (h : Building g ∅ m₀ base F [] [] s)
    (hnode : DirNode g s ext4RootInode inode links)
    (htree : inTreeOf s.ext4.registered ext4RootInode =
      extentRanges g ext4RootInode (dirExtents clusters))
    (hdata : ∀ c ∈ clusters, DataCluster g c) (hne : clusters ≠ [])
    (hfuel : short ∨ allocationFuel g ≤ fuel) :
    wp (buildLostFound g env fuel)
      (Within g fun _ t => Building g {ext4LostFoundInode} m₀ base F [] [] t ∧
        LostFoundBuilt g env t ∧ ∃ c, RootGrown g inode links clusters c s t)
      (Within g (SafeStop g base F short)) s := by
  rw [buildLostFound_eq]
  refine wp_bind_within (fun c => TreesGrow.bind (TreesGrow.enterLostFound g env c)
    fun _ => TreesGrow.fillLostFound g env fuel) ?_
  refine within_mono (growRoot_building hg h hnode htree hdata hne hfuel) ?_
  rintro c s₁ ⟨hc, hf, hnew, h₁, hregisters⟩
  rw [wp_bind]
  refine wp_mono (enterLostFound_building (E := fun _ _ => False) hg hnode htree hc hf hnew h₁
    hregisters) ?_ (fun _ _ hend => hend.elim)
  rintro _ s₂ ⟨hgrown, h₂, hstored, hempty⟩
  refine within_mono (fillLostFound_building hg h₂ hstored hempty hfuel) ?_
  rintro _ t ⟨h₃, hwork, hbuilt, hff, hreads⟩
  exact ⟨h₃, hbuilt, c, hgrown.later hg hwork hff hreads⟩

end Parts

end OfsConvert
