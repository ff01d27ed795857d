import OfsConvert.GroupAccounts

/-!
# Registering extents of an inode

`register_extent` puts the extent into the tree of its inode and its blocks under the inode's
ownership. The invariant of the second phase and the description of the tree go through as long as
the inode has at most `max_entries()` extents before the call.
-/

namespace OfsConvert

/-- A block that was allocated for the extent tree of an inode. -/
def NodeBlock (s : State) (inodeNo b : ℕ) : Prop :=
  ∃ r ∈ s.ext4.registered, r.inTree = false ∧ r.inodeNo = inodeNo ∧ r.blocks = [b]

/-- What is known of the extent tree of an inode: it is as described until it spills, and its
leaf is registered. -/
def Tree (g : Globals) (s : State) (n : ℕ) (es : List Ext4Extent) : Prop :=
  es.length ≤ maxEntries g → ∃ leaf : Option ℕ, TreeAt g s.mem n es leaf ∧
    ∀ b, leaf = some b → 4 < es.length ∧ NodeBlock s n b

section

variable {g : Globals} {m : Mem} {h c b max : ℕ} {es : List Ext4Extent}

/-- The memory after `make_tree_deeper` has moved the root to the child at `c`. -/
def deepened (m : Mem) (h c b max : ℕ) : Mem :=
  let moved := (m.copy c h (5 * sizeofExtentHeader)).write (c + 4) (leBytes 2 max)
  let root := (moved.write (h + 6) (leBytes 2 (u16 (ehDepth moved h + 1)))).write (h + 2)
    (leBytes 2 1)
  ((root.write (h + sizeofExtentHeader) (leBytes 4 0)).write (h + sizeofExtentHeader + 4)
    (leBytes 4 (setLoHi48 b).1)).write (h + sizeofExtentHeader + 8) (leBytes 2 (setLoHi48 b).2)

/-- The child has what the root had, with another capacity. -/
theorem deepened_child (hd : c + 60 ≤ h ∨ h + 60 ≤ c) (hmax : max < 2 ^ 16) :
    (∀ i, i < 60 → i < 4 ∨ 6 ≤ i → deepened m h c b max (c + i) = m (h + i)) ∧
      ehMax (deepened m h c b max) c = max := by
  have hchild : ∀ a, c ≤ a → a < c + 60 → deepened m h c b max a =
      ((m.copy c h (5 * sizeofExtentHeader)).write (c + 4) (leBytes 2 max)) a := by
    intro a hlow hhigh
    have hout : ∀ (m' : Mem) p w v, h ≤ p → p + w ≤ h + 60 → (m'.write p (leBytes w v)) a = m' a := by
      intro m' p w v hp hw
      apply Mem.sameOutside_write
      rw [length_leBytes]
      omega
    unfold deepened sizeofExtentHeader
    rw [hout _ _ _ _ (by omega) (by omega), hout _ _ _ _ (by omega) (by omega),
      hout _ _ _ _ (by omega) (by omega), hout _ _ _ _ (by omega) (by omega),
      hout _ _ _ _ (by omega) (by omega)]
  constructor
  · intro i hi hout
    rw [hchild _ (by omega) (by omega),
      Mem.sameOutside_write _ _ _ _ (by rw [length_leBytes]; omega)]
    exact Mem.copy_apply hi
  · have hcap : ehMax (deepened m h c b max) c = ehMax
        ((m.copy c h (5 * sizeofExtentHeader)).write (c + 4) (leBytes 2 max)) c :=
      Mem.readLE_congr fun i hi => hchild _ (by omega) (by omega)
    rw [hcap]
    exact Mem.readLE_write_leBytes (by omega)

/-- All other bytes are kept. -/
theorem deepened_outside {a : ℕ} (hchild : a < c ∨ c + 60 ≤ a) (hroot : a < h ∨ h + 60 ≤ a) :
    deepened m h c b max a = m a := by
  have hcopy := Mem.sameOutside_copy m c h (5 * sizeofExtentHeader)
  unfold sizeofExtentHeader at hcopy
  have hwrite : ∀ (m' : Mem) p w v, a < p ∨ p + w ≤ a → (m'.write p (leBytes w v)) a = m' a := by
    intro m' p w v hout
    apply Mem.sameOutside_write
    rw [length_leBytes]
    exact hout
  unfold deepened sizeofExtentHeader
  rw [hwrite _ _ _ _ (by omega), hwrite _ _ _ _ (by omega), hwrite _ _ _ _ (by omega),
    hwrite _ _ _ _ (by omega), hwrite _ _ _ _ (by omega), hwrite _ _ _ _ (by omega)]
  exact hcopy a (by omega)

/-- A field of the child is that of the root. -/
theorem deepened_childField (hd : c + 60 ≤ h ∨ h + 60 ≤ c) (hmax : max < 2 ^ 16) {i w : ℕ}
    (hiw : i + w ≤ 60) (hout : i + w ≤ 4 ∨ 6 ≤ i) :
    (deepened m h c b max).readLE (c + i) w = m.readLE (h + i) w := by
  have hmoved := (deepened_child (m := m) (b := b) hd hmax).1
  unfold Mem.readLE
  rw [Mem.read_shift (b := h + i) fun j hj => ?_]
  rw [Nat.add_assoc, Nat.add_assoc]
  exact hmoved _ (by omega) (by omega)

/-- The root has one index entry, for the child, and one level more. -/
theorem deepened_root (max : ℕ) (hd : c + 60 ≤ h ∨ h + 60 ≤ c) (hb : b < 2 ^ 32) :
    (deepened m h c b max).readLE h 2 = m.readLE h 2 ∧
      ehEntries (deepened m h c b max) h = 1 ∧
      ehMax (deepened m h c b max) h = ehMax m h ∧
      ehDepth (deepened m h c b max) h = u16 (ehDepth m h + 1) ∧
      (deepened m h c b max).readLE (h + sizeofExtentHeader) 4 = 0 ∧
      (deepened m h c b max).readLE (h + sizeofExtentHeader + 4) 4 = b ∧
      (deepened m h c b max).readLE (h + sizeofExtentHeader + 8) 2 = 0 := by
  have hlo : (setLoHi48 b).1 = b := by rw [setLoHi48_fst, Nat.mod_eq_of_lt hb]
  have hhi : (setLoHi48 b).2 = 0 := by rw [setLoHi48_snd, Nat.div_eq_of_lt hb, Nat.zero_mod]
  have hcopy := Mem.sameOutside_copy m c h (5 * sizeofExtentHeader)
  unfold sizeofExtentHeader at hcopy
  have hroot : ∀ i w, i + w ≤ 60 →
      ((m.copy c h (5 * sizeofExtentHeader)).write (c + 4) (leBytes 2 max)).readLE (h + i) w =
        m.readLE (h + i) w := by
    intro i w hiw
    rw [readLE_write_other (by omega)]
    unfold sizeofExtentHeader
    exact hcopy.readLE_eq (by omega)
  refine ⟨?_, ?_, ?_, ?_, ?_, ?_, ?_⟩
  · unfold deepened sizeofExtentHeader
    dsimp only
    rw [readLE_write_other (by omega), readLE_write_other (by omega), readLE_write_other (by omega),
      readLE_write_other (by omega), readLE_write_other (by omega)]
    exact hroot 0 2 (by omega)
  · unfold deepened sizeofExtentHeader ehEntries
    dsimp only
    rw [readLE_write_other (by omega), readLE_write_other (by omega), readLE_write_other (by omega)]
    exact Mem.readLE_write_leBytes (by norm_num)
  · unfold deepened sizeofExtentHeader ehMax
    dsimp only
    rw [readLE_write_other (by omega), readLE_write_other (by omega), readLE_write_other (by omega),
      readLE_write_other (by omega), readLE_write_other (by omega)]
    exact hroot 4 2 (by omega)
  · have hdepth := hroot 6 2 (by omega)
    unfold deepened ehDepth
    dsimp only
    rw [hdepth]
    unfold sizeofExtentHeader
    rw [readLE_write_other (by omega), readLE_write_other (by omega), readLE_write_other (by omega),
      readLE_write_other (by omega)]
    exact Mem.readLE_write_leBytes (u16_lt _)
  · unfold deepened sizeofExtentHeader
    dsimp only
    rw [readLE_write_other (by omega), readLE_write_other (by omega)]
    exact Mem.readLE_write_leBytes (by norm_num)
  · unfold deepened sizeofExtentHeader
    dsimp only
    rw [readLE_write_other (by omega), hlo]
    exact Mem.readLE_write_leBytes (by omega)
  · unfold deepened sizeofExtentHeader
    dsimp only
    rw [hhi]
    exact Mem.readLE_write_leBytes (by norm_num)

/-- The child takes over the extents of the root, and the root names the child. -/
theorem deepened_spec (hroot : NodeAt m h 4 es) (hfull : es.length = 4)
    (hd : c + 60 ≤ h ∨ h + 60 ≤ c) (hmax : 4 ≤ max) (hmax' : max < 2 ^ 16) (hb : b < 2 ^ 32) :
    NodeAt (deepened m h c b max) c max es ∧ IndexAt (deepened m h c b max) h b := by
  obtain ⟨hmagic, hcount, hcapacity, hdepth, heiBlock, hlo, hhi⟩ :=
    deepened_root (m := m) max hd hb
  obtain ⟨hmoved, hmaxEntries⟩ := deepened_child (m := m) (b := b) hd hmax'
  refine ⟨⟨?_, ?_, hmaxEntries, ?_, by omega, ?_⟩,
    ⟨hmagic.trans hroot.magic, hcount, hcapacity.trans hroot.capacity, ?_, heiBlock, hlo, hhi⟩⟩
  · rw [← hroot.magic]
    exact deepened_childField (i := 0) hd hmax' (by omega) (by omega)
  · rw [← hroot.count]
    exact deepened_childField (i := 2) hd hmax' (by omega) (by omega)
  · rw [← hroot.depth]
    exact deepened_childField (i := 6) hd hmax' (by omega) (by omega)
  · rw [← hroot.holds, hfull]
    unfold sizeofExtentHeader sizeofExtent
    refine Mem.read_shift fun j hj => ?_
    rw [Nat.add_assoc, Nat.add_assoc]
    exact hmoved _ (by omega) (by omega)
  · rw [hdepth, hroot.depth]
    rfl

end

section

variable {g : Globals} {s t : State} {m m' : Mem} {m₀ : Mem} {base : State}
  {F O R O' R' P : List ℕ} {D : Set ℕ} {n b : ℕ} {es : List Ext4Extent} {e : Ext4Extent}
  {leaf : Option ℕ}

/-- The root of the tree lies in the middle of the inode. -/
theorem rootBytes_bounds {a : ℕ} (ha : a ∈ rootBytes g n) :
    inodeAddr g n + 40 ≤ a ∧ a < inodeAddr g n + 100 := by
  obtain ⟨hlow, hhigh⟩ := ha
  unfold rootHeader extHeaderOffset sizeofExtentHeader at *
  omega

/-- The root of the tree is part of the inode. -/
theorem rootBytes_subset {a : ℕ} (ha : a ∈ rootBytes g n) : a ∈ inodeBytes g n := by
  have hbounds := rootBytes_bounds ha
  refine ⟨by omega, ?_⟩
  unfold ext4InodeSize
  omega

/-- The tree is in the root and the leaf. -/
theorem TreeAt.congr (hg : Accepted g) (h : TreeAt g m n es leaf)
    (hroot : ∀ a ∈ rootBytes g n, m' a = m a)
    (hleaf : ∀ b, leaf = some b → ∀ a, InBlock g b a → m' a = m a) : TreeAt g m' n es leaf := by
  obtain ⟨-, -, -, hsize⟩ := hg.maxEntries_eq
  cases leaf with
  | none =>
    refine NodeAt.congr h fun a hlow hhigh => hroot a ⟨hlow, ?_⟩
    exact hhigh
  | some b =>
    obtain ⟨hindex, hlength, hnode⟩ := h
    refine ⟨hindex.congr fun a hlow hhigh => hroot a ⟨hlow, hhigh⟩, hlength,
      hnode.congr fun a hlow hhigh => hleaf b rfl a ⟨hlow, ?_⟩⟩
    exact hhigh.trans_le (Nat.add_le_add_left hsize _)

/-- A tree of an inode that a step keeps. -/
theorem Tree.step (hg : Accepted g) (h : Tree g s n es) (hn : InodePlace g.sb n)
    (hst : Step g D P s t) (hnot : n ∉ D) : Tree g t n es := by
  intro hlength
  obtain ⟨leaf, htree, hleaf⟩ := h hlength
  refine ⟨leaf, htree.congr hg
    (fun a ha => hst.inodes n hn hnot a (rootBytes_subset ha)) ?_, ?_⟩
  · intro b hb a ha
    obtain ⟨-, r, hr, -, hown, hblocks⟩ := hleaf b hb
    refine hst.blocks r hr (Or.inr ?_) b (by rw [hblocks]; exact List.mem_singleton_self b) a ha
    rwa [hown]
  · intro b hb
    obtain ⟨hmany, r, hr, hrest⟩ := hleaf b hb
    exact ⟨hmany, r, hst.registered.subset hr, hrest⟩

/-- The bytes of the accounting are metadata. -/
theorem Accepted.accountBytes_meta (hg : Accepted g) (hn : InodePlace g.sb n) {i a : ℕ}
    (hi : i < blockGroupCount g.sb) (ha : a ∈ accountBytes g n i) :
    ∃ b, InBlock g b a ∧ MetaBlock g b := by
  rcases ha with ha | ha
  · have hinode := blocksFields_subset ha
    obtain ⟨b, hb, -, hba⟩ := hg.inodeAddr_inPrefix hn hinode.1 hinode.2
    exact ⟨b, hba, _, hn.group, hb⟩
  · have hle := (inodeBitmapAddr_le g i).2
    obtain ⟨b, hb, -, hba⟩ := hg.bitmap_inPrefix hi ha.1 (ha.2.trans_le hle)
    exact ⟨b, hba, i, hi, hb⟩

/-- The accounting touches no field of an inode but the block count. -/
theorem Accepted.accountBytes_inode (hg : Accepted g) (hn : InodePlace g.sb n) {i a : ℕ}
    (hi : i < blockGroupCount g.sb) (hin : a ∈ inodeBytes g n) (hout : a ∉ blocksFields g n) :
    a ∉ accountBytes g n i := by
  rintro (ha | ha)
  · exact hout ha
  · have hbehind := hg.inode_behind_bitmaps hn hin hi ha.1
    have hle := (inodeBitmapAddr_le g i).2
    have hhigh := ha.2
    omega

/-- The accounting touches no inode bitmap. -/
theorem Accepted.accountBytes_inodeBit (hg : Accepted g) (hn : InodePlace g.sb n) {i k : ℕ}
    (hi : i < blockGroupCount g.sb) (hk : InodePlace g.sb k) :
    inodeBitmapAddr g (inodeGroup g.sb k) + inodeIndex g.sb k / 8 ∉ accountBytes g n i := by
  have hplace := hg.inodeBit_place hk
  have hlow := (inodeBitmapAddr_le g (inodeGroup g.sb k)).1
  rintro (hin | hin)
  · have hbehind := hg.inode_behind_bitmaps hn (blocksFields_subset hin) hk.group (by omega)
    omega
  · exact hg.bitmaps_disjoint hi hk.group hin.1 hin.2 (Nat.le_add_right _ _) hplace

/-- The accounting touches neither the root of a tree nor a data block. -/
theorem Accepted.accountBytes_tree (hg : Accepted g) (hn : InodePlace g.sb n) {i a : ℕ}
    (hi : i < blockGroupCount g.sb)
    (ha : a ∈ rootBytes g n ∨ ∃ b, DataBlock g b ∧ InBlock g b a) : a ∉ accountBytes g n i := by
  rcases ha with ha | ⟨b, hb, hba⟩
  · refine hg.accountBytes_inode hn hi (rootBytes_subset ha) fun hin => ?_
    have hbounds := rootBytes_bounds ha
    rcases hin with hin | hin
    · have hhigh := hin.2
      unfold iBlocksLoOffset at hhigh
      omega
    · have hlow := hin.1
      unfold iBlocksHighOffset at hlow
      omega
  · intro hin
    obtain ⟨c, hca, hmeta⟩ := hg.accountBytes_meta hn hi hin
    obtain rfl := inBlock_unique hba hca
    exact hb.outside hmeta

/-- What only touches the root or the blocks keeps the size. -/
theorem sizeOf_congr (hm : ∀ a ∈ inodeBytes g n, a ∉ rootBytes g n → a ∉ blocksFields g n →
    m' a = m a) : sizeOf g m' n = sizeOf g m n := by
  have hfield : ∀ offset, offset = 4 ∨ offset = 108 →
      inodeField g m' n offset 4 = inodeField g m n offset 4 := by
    intro offset hoffset
    refine Mem.readLE_congr fun i hi => hm _ ⟨by omega, ?_⟩ ?_ ?_
    · unfold ext4InodeSize
      omega
    · intro ha
      have hbounds := rootBytes_bounds ha
      omega
    · rintro (ha | ha)
      · have hlow := ha.1
        have hhigh := ha.2
        unfold iBlocksLoOffset at hlow hhigh
        omega
      · have hlow := ha.1
        have hhigh := ha.2
        unfold iBlocksHighOffset at hlow hhigh
        omega
  rw [sizeOf, sizeOf, iSizeLoOffset, iSizeHighOffset, hfield 4 (Or.inl rfl), hfield 108 (Or.inr rfl)]

/-- The ext4 extent of clusters. -/
theorem Accepted.toExt4Extent_start (hg : Accepted g) {fext : FatExtent}
    (hc : DataCluster g fext.physicalStart) :
    (toExt4Extent g fext).start = fatClToE4blk g.bootSector g.metaInfo fext.physicalStart := by
  have hlt := hg.fatClToE4blk_lt hc
  rw [Ext4Extent.start, toExt4Extent]
  exact fromLoHi_setLoHi48 (by omega)

/-- What is known behind an operation on the tree of an inode: the other fields of the inode and
the accounts of the groups stay right. -/
structure TreeStep (g : Globals) (m₀ : Mem) (base : State) (F O R : List ℕ) (D : Set ℕ)
    (P : List ℕ) (n : ℕ) (nodes : List Registration) (s t : State) : Prop where
  inv : BuildInv g m₀ base F O R t
  step : Step g D P s t
  registered : t.ext4.registered = s.ext4.registered ++ nodes
  reads : t.ext4.reads = s.ext4.reads
  firstFree : t.ext4.firstFreeInodeNo = s.ext4.firstFreeInodeNo
  fields : ∀ a ∈ inodeBytes g n, a ∉ rootBytes g n → a ∉ blocksFields g n → t.mem a = s.mem a
  inodeBits : ∀ k, InodePlace g.sb k → inodeBit g t.mem k = inodeBit g s.mem k
  ledger : Ledger g s → Ledger g t

/-- The size is none of the fields that change. -/
theorem TreeStep.size {nodes : List Registration} (h : TreeStep g m₀ base F O R D P n nodes s t) :
    sizeOf g t.mem n = sizeOf g s.mem n := sizeOf_congr h.fields

/-- Stores to the root and to a registered leaf. -/
theorem BuildInv.treeTouches (hg : Accepted g) (h : BuildInv g m₀ base F O R s)
    (hn : InodePlace g.sb n) (hd : n ∈ D) (hP : P ⊆ O ++ R) {A : Set ℕ} (ht : Touches A s t)
    (hA : ∀ a ∈ A, a ∈ rootBytes g n ∨ ∃ r ∈ s.ext4.registered, r.inTree = false ∧
      r.inodeNo = n ∧ ∃ b ∈ r.blocks, InBlock g b a) (hext4 : t.ext4 = s.ext4) :
    TreeStep g m₀ base F O R D P n [] s t := by
  have hown : ∀ a ∈ A, OwnByte g D P O s a := by
    intro a ha
    rcases hA a ha with hroot | ⟨r, hr, hnode, hrn, b, hb, hba⟩
    · have hbounds := rootBytes_bounds hroot
      exact OwnByte.inode n hn hd (rootBytes_subset hroot) fun _ => by omega
    · exact OwnByte.node r hr hnode (by rwa [hrn]) b hb hba
  have hout : ∀ a c, InBlock g c a → MetaBlock g c → a ∉ rootBytes g n → t.mem a = s.mem a := by
    intro a c hca hmeta hnot
    refine ht.mem a fun hin => ?_
    rcases hA a hin with hroot | ⟨r, hr, -, -, b, hb, hba⟩
    · exact hnot hroot
    · obtain rfl := inBlock_unique hca hba
      exact (h.registered_data hr hb).outside hmeta
  have hbits : ∀ k, InodePlace g.sb k → inodeBit g t.mem k = inodeBit g s.mem k := by
    intro k hk
    have hplace := hg.inodeBit_place hk
    have hlow := (inodeBitmapAddr_le g (inodeGroup g.sb k)).1
    obtain ⟨c, hc, -, hca⟩ := hg.bitmap_inPrefix hk.group (by omega) hplace
    refine bitAt_congr (hout _ c hca ⟨_, hk.group, hc⟩ fun hroot => ?_)
    have hbehind := hg.inode_behind_bitmaps hn (rootBytes_subset hroot) hk.group (by omega)
    omega
  obtain ⟨hinv, hstep⟩ := h.own hg hP ht hown (by rw [hext4]; exact h.placed) (by rw [hext4])
    (by rw [hext4]; exact ⟨le_rfl, h.firstFree.2⟩) (fun k hk hbit => by rwa [hbits k hk])
  refine ⟨hinv, hstep, by rw [hext4, List.append_nil], by rw [hext4], by rw [hext4], ?_, hbits, ?_⟩
  · intro a ha hroot _
    obtain ⟨c, hc, -, hca⟩ := hg.inodeAddr_inPrefix hn ha.1 ha.2
    exact hout a c hca ⟨_, hn.group, hc⟩ hroot
  · intro hledger
    refine hledger.treeTouches hg h.placed hn (fun a hroot hdata => ht.mem a fun hin => ?_) hext4
    rcases hA a hin with hin | ⟨r, hr, -, -, b, hb, hba⟩
    · exact hroot hin
    · exact hdata b (h.registered_data hr hb) hba

/-- Steps on one tree compose. -/
theorem TreeStep.trans {nodes nodes' : List Registration} {u : State}
    (h : TreeStep g m₀ base F O R D P n nodes s t)
    (h' : TreeStep g m₀ base F O' R' D P n nodes' t u) :
    TreeStep g m₀ base F O' R' D P n (nodes ++ nodes') s u := by
  refine ⟨h'.inv, h.step.trans h'.step, by rw [h'.registered, h.registered, List.append_assoc],
    h'.reads.trans h.reads, h'.firstFree.trans h.firstFree,
    fun a ha hroot hout => (h'.fields a ha hroot hout).trans (h.fields a ha hroot hout),
    fun k hk => (h'.inodeBits k hk).trans (h.inodeBits k hk),
    fun hledger => h'.ledger (h.ledger hledger)⟩

/-- The accounting as an operation on the inode. -/
theorem accountExtent_treeStep (hg : Accepted g) (h : BuildInv g m₀ base F O R s)
    (hn : InodePlace g.sb n) (hd : n ∈ D) (hP : P ⊆ O ++ R) (hpos : 0 < e.eeLen) (inTree : Bool)
    (hperm : (List.range' e.start e.eeLen ++ (O' ++ R')).Perm (O ++ R))
    (hopen : O ⊆ List.range' e.start e.eeLen ++ O') (hsub : O' ⊆ O)
    (hnode : inTree = false → ∀ b ∈ List.range' e.start e.eeLen, b ∉ F)
    {E : Halt → State → Prop} :
    wp (accountExtent g e n (inodeAddr g n) inTree)
      (fun _ t => TreeStep g m₀ base F O' R' D P n [registrationOf e n inTree] s t ∧
        ∀ a, a ∈ rootBytes g n ∨ (∃ b, DataBlock g b ∧ InBlock g b a) → t.mem a = s.mem a) E s := by
  have hrange : ∀ k < e.eeLen, e.start + k ∈ O ++ R := fun k hk =>
    hperm.subset (List.mem_append_left _ (List.mem_range'_1.mpr ⟨by omega, by omega⟩))
  have hlength := h.length_lt hg
  have hlen := hperm.length_eq
  rw [List.length_append, List.length_range'] at hlen
  rw [List.length_append] at hlength
  have hledger := accountExtent_ledger (E := E) hg h.placed hn hpos
    (fun k hk => h.data _ (List.mem_append_right _ (hrange k hk)))
    (fun k hk hin => (List.nodup_append.mp h.nodup).2.2 _ hin _ (hrange k hk) rfl) (by omega) inTree
  have hspec := accountExtent_spec (E := E) hg h hn hd hP hpos inTree hperm hopen hsub hnode
  refine wp_mono (wp_and hspec hledger) ?_ (fun _ _ hend => hend.2)
  intro _ t ht
  obtain ⟨⟨hinv, hstep, ⟨i, hi, hmem⟩, hregistered, hreads, hff⟩, hledger⟩ := ht
  exact ⟨⟨hinv, hstep, hregistered, hreads, hff,
    fun a hin _ hout => hmem a (hg.accountBytes_inode hn hi hin hout),
    fun k hk => bitAt_congr (hmem _ (hg.accountBytes_inodeBit hn hi hk)), hledger⟩, fun a ha =>
    hmem a (hg.accountBytes_tree hn hi ha)⟩

/-- Block numbers have 32 bits. -/
theorem DataBlock.lt_word (hg : Accepted g) (hdata : DataBlock g b) : b < 2 ^ 32 := by
  have hupper := hdata.upper
  rw [hg.blockCount_eq] at hupper
  have hlt := hg.partitionBlocks_lt
  omega

/-- The root of a tree and a data block share no byte. -/
theorem Accepted.root_apart (hg : Accepted g) (hn : InodePlace g.sb n) (hdata : DataBlock g b) :
    blockStart g.metaInfo g.sb b + 60 ≤ rootHeader g n ∨
      rootHeader g n + 60 ≤ blockStart g.metaInfo g.sb b := by
  by_contra hoverlap
  have hsize := hg.blockSize_ge
  have hroot : max (blockStart g.metaInfo g.sb b) (rootHeader g n) ∈ rootBytes g n :=
    ⟨le_max_right _ _, by unfold sizeofExtentHeader; omega⟩
  have hblock : InBlock g b (max (blockStart g.metaInfo g.sb b) (rootHeader g n)) :=
    ⟨le_max_left _ _, by omega⟩
  have hinode := rootBytes_subset hroot
  obtain ⟨c, hc, -, hca⟩ := hg.inodeAddr_inPrefix hn hinode.1 hinode.2
  obtain rfl := inBlock_unique hblock hca
  exact hdata.outside ⟨_, hn.group, hc⟩

/-- `make_tree_deeper` registers a block that nobody owned, and moves the root there. It stops only
where the allocation does. -/
theorem makeTreeDeeper_moves (hg : Accepted g) (h : BuildInv g m₀ base F O R s)
    (hn : InodePlace g.sb n) (hd : n ∈ D) (hP : P ⊆ O ++ R) (fuel : ℕ) {E : Halt → State → Prop}
    (hstop : wp (allocateExtent fuel 1) (fun _ _ => True) E s) :
    wp (makeTreeDeeper g fuel (rootHeader g n) n)
      (fun _ t => ∃ b m, TreeStep g m₀ base F O R D P n [⟨n, 0, b, b + 1, false⟩] s t ∧
        DataBlock g b ∧ b ∉ registeredBlocks s.ext4.registered ∧
        (∀ a, a ∈ rootBytes g n ∨ (∃ c, DataBlock g c ∧ InBlock g c a) → m a = s.mem a) ∧
        t.mem = deepened m (rootHeader g n) (blockStart g.metaInfo g.sb b) b (maxEntries g))
      E s := by
  obtain ⟨-, hentries, hentries', hsize⟩ := hg.maxEntries_eq
  rw [makeTreeDeeper, wp_bind]
  refine wp_mono (wp_and (allocateBlock_spec hg h fuel) hstop) ?_ (fun _ _ hend => hend.2)
  intro idxExt u hu
  obtain ⟨⟨hinv, honly, hext, hc⟩, -⟩ := hu
  have hstart := hg.toExt4Extent_start hc
  have hlt := hg.fatClToE4blk_lt hc
  generalize hb : fatClToE4blk g.bootSector g.metaInfo idxExt.physicalStart = b at *
  have hlen : (toExt4Extent g idxExt).eeLen = 1 := by
    rw [hext]
    rfl
  have hdata := hinv.open_data (List.mem_cons_self (a := b))
  have hfresh : b ∉ registeredBlocks s.ext4.registered := by
    intro hmem
    rw [← honly.ext4] at hmem
    have hdisjoint := (List.nodup_append.mp hinv.nodup).2.2
    exact hdisjoint b hmem b (List.mem_append_left R List.mem_cons_self) rfl
  simp only [registerIdxExtent, wp_bind]
  refine getExistingInode_spec hg hinv.placed hn ?_
  have hperm : (List.range' (toExt4Extent g idxExt).start (toExt4Extent g idxExt).eeLen ++
      (O ++ R)).Perm (b :: O ++ R) := by
    rw [hlen, hstart]
    exact List.Perm.refl _
  refine wp_mono_ok (accountExtent_treeStep hg hinv hn hd (fun c hc => List.mem_cons_of_mem b (hP hc))
    (by rw [hlen]; exact Nat.one_pos) false hperm ?_ (List.subset_cons_self b O) ?_) ?_
  · rw [hlen, hstart]
    exact List.Subset.refl _
  · intro _ c hc hf
    rw [hlen, hstart, List.range'_one, List.mem_singleton] at hc
    subst hc
    exact (hinv.foreign c hf).2.1 List.mem_cons_self
  intro _ v hv
  obtain ⟨hstep, hkeeps⟩ := hv
  have hreg : registrationOf (toExt4Extent g idxExt) n false = ⟨n, 0, b, b + 1, false⟩ := by
    rw [registrationOf, hstart, hlen, toExt4Extent, hext]
  rw [hreg] at hstep
  have hfirst : TreeStep g m₀ base F O R D P n [⟨n, 0, b, b + 1, false⟩] s v := by
    refine ⟨hstep.inv, hstep.step.of_eq honly.mem.symm (by rw [honly.ext4]) (by rw [honly.ext4]) rfl
      rfl rfl, ?_, ?_, ?_, ?_, ?_, fun hledger =>
        hstep.ledger (hledger.of_eq honly.mem honly.ext4)⟩
    · rw [hstep.registered, honly.ext4]
    · rw [hstep.reads, honly.ext4]
    · rw [hstep.firstFree, honly.ext4]
    · rw [← honly.mem]
      exact hstep.fields
    · rw [← honly.mem]
      exact hstep.inodeBits
  have hnode : (⟨n, 0, b, b + 1, false⟩ : Registration) ∈ v.ext4.registered := by
    rw [hfirst.registered]
    simp
  have hmemBlock : b ∈ (⟨n, 0, b, b + 1, false⟩ : Registration).blocks := by
    rw [Registration.blocks, Nat.add_sub_cancel_left, List.range'_one]
    exact List.mem_singleton_self b
  have htouch : wp (do
      memcpy (blockStart g.metaInfo g.sb b) (rootHeader g n) (5 * sizeofExtentHeader)
      storeLE (blockStart g.metaInfo g.sb b + 4) 2 (maxEntries g)
      let m ← getMem
      storeLE (rootHeader g n + 6) 2 (u16 (ehDepth m (rootHeader g n) + 1))
      storeLE (rootHeader g n + 2) 2 1
      storeLE (rootHeader g n + sizeofExtentHeader) 4 0
      storeLE (rootHeader g n + sizeofExtentHeader + 4) 4 (setLoHi48 b).1
      storeLE (rootHeader g n + sizeofExtentHeader + 8) 2 (setLoHi48 b).2)
      (fun _ t => Touches (bytesFrom (blockStart g.metaInfo g.sb b)
        (blockStart g.metaInfo g.sb b + 60) ∪ rootBytes g n) v t ∧ t.ext4 = v.ext4 ∧
        t.mem = deepened v.mem (rootHeader g n) (blockStart g.metaInfo g.sb b) b (maxEntries g))
      E v := by
    simp only [wp_bind, wp_memcpy, wp_storeLE, wp_getMem]
    refine ⟨?_, rfl, rfl⟩
    have hchild : ∀ a, blockStart g.metaInfo g.sb b ≤ a → a < blockStart g.metaInfo g.sb b + 60 →
        a ∈ bytesFrom (blockStart g.metaInfo g.sb b) (blockStart g.metaInfo g.sb b + 60) ∪
          rootBytes g n := fun a hlow hhigh => Or.inl ⟨hlow, hhigh⟩
    have hroot : ∀ a, rootHeader g n ≤ a → a < rootHeader g n + 60 →
        a ∈ bytesFrom (blockStart g.metaInfo g.sb b) (blockStart g.metaInfo g.sb b + 60) ∪
          rootBytes g n := fun a hlow hhigh => Or.inr ⟨hlow, hhigh⟩
    unfold sizeofExtentHeader
    apply Touches.trans ?_ (Touches.storedLE _ fun a _ _ => hroot a (by omega) (by omega))
    apply Touches.trans ?_ (Touches.storedLE _ fun a _ _ => hroot a (by omega) (by omega))
    apply Touches.trans ?_ (Touches.storedLE _ fun a _ _ => hroot a (by omega) (by omega))
    apply Touches.trans ?_ (Touches.storedLE _ fun a _ _ => hroot a (by omega) (by omega))
    apply Touches.trans ?_ (Touches.storedLE _ fun a _ _ => hroot a (by omega) (by omega))
    apply Touches.trans ?_ (Touches.storedLE _ fun a _ _ => hchild a (by omega) (by omega))
    exact Touches.stored v hchild (Mem.sameOutside_copy _ _ _ _)
  simp only [wp_bind] at htouch
  refine wp_mono_ok htouch ?_
  intro _ t ht
  obtain ⟨ht, hext4, hmem⟩ := ht
  have hafter := hstep.inv.treeTouches hg hn hd hP ht (fun a ha => ?_) hext4
  · refine ⟨b, v.mem, hfirst.trans hafter, hdata, hfresh, fun a ha => ?_, hmem⟩
    rw [hkeeps a ha, honly.mem]
  · rcases ha with hin | hin
    · refine Or.inr ⟨_, hnode, rfl, rfl, b, hmemBlock, hin.1, ?_⟩
      have hsize' := hg.blockSize_ge
      have hhigh := hin.2
      omega
    · exact Or.inl hin

/-- `make_tree_deeper` moves the four extents of the inode to a new leaf. -/
theorem makeTreeDeeper_spec (hg : Accepted g) (h : BuildInv g m₀ base F O R s)
    (hn : InodePlace g.sb n) (hd : n ∈ D) (hP : P ⊆ O ++ R) (htree : TreeAt g s.mem n es none)
    (hfull : es.length = 4) (fuel : ℕ) {E : Halt → State → Prop}
    (hstop : wp (allocateExtent fuel 1) (fun _ _ => True) E s) :
    wp (makeTreeDeeper g fuel (rootHeader g n) n)
      (fun _ t => ∃ b, TreeStep g m₀ base F O R D P n [⟨n, 0, b, b + 1, false⟩] s t ∧
        DataBlock g b ∧ IndexAt t.mem (rootHeader g n) b ∧
        NodeAt t.mem (blockStart g.metaInfo g.sb b) (maxEntries g) es) E s := by
  obtain ⟨-, hentries, hentries', -⟩ := hg.maxEntries_eq
  refine wp_mono_ok (makeTreeDeeper_moves hg h hn hd hP fuel hstop) ?_
  intro _ t ht
  obtain ⟨b, m, hstep, hdata, -, hkeeps, hmem⟩ := ht
  have htree' : NodeAt m (rootHeader g n) 4 es :=
    htree.congr hg (fun a ha => hkeeps a (Or.inl ha)) (by simp)
  obtain ⟨hleaf, hindex⟩ := deepened_spec (b := b) htree' hfull (hg.root_apart hn hdata)
    (show 4 ≤ maxEntries g by omega) hentries' (hdata.lt_word hg)
  rw [← hmem] at hleaf hindex
  exact ⟨b, hstep, hdata, hindex, hleaf⟩

/-- What is known of the tree of an inode after one more extent. -/
structure TreeGrown (g : Globals) (s : State) (n : ℕ) (es : List Ext4Extent) (e : Ext4Extent) :
    Prop where
  grown : Tree g s n (es ++ [e])
  spilled : es.length = maxEntries g → ∃ b, DataBlock g b ∧ SpilledAt g s.mem n es e b

/-- A tree with one more extent and room for it has grown. -/
theorem TreeGrown.of_treeAt (h : TreeAt g s.mem n (es ++ [e]) leaf)
    (hroom : es.length < maxEntries g)
    (hleaf : ∀ b, leaf = some b → 4 < (es ++ [e]).length ∧ NodeBlock s n b) :
    TreeGrown g s n es e :=
  ⟨fun _ => ⟨leaf, h, hleaf⟩, fun hfull => absurd hfull hroom.ne⟩

/-- A spilled tree depends on the root of the inode and the new leaf. -/
theorem SpilledAt.congr (hg : Accepted g) (h : SpilledAt g m n es e b)
    (hroot : ∀ a ∈ rootBytes g n, m' a = m a) (hleaf : ∀ a, InBlock g b a → m' a = m a) :
    SpilledAt g m' n es e b := by
  obtain ⟨-, -, -, hsize⟩ := hg.maxEntries_eq
  have hfield : ∀ i w, i + w ≤ 60 →
      m'.readLE (rootHeader g n + i) w = m.readLE (rootHeader g n + i) w := by
    intro i w hiw
    refine Mem.readLE_congr fun j hj => hroot _ ⟨by omega, ?_⟩
    unfold sizeofExtentHeader
    omega
  refine ⟨?_, ?_, ?_, ?_, ?_, ?_, h.full⟩
  · rw [← h.magic]
    exact hfield 0 2 (by omega)
  · rw [← h.count]
    exact hfield 2 2 (by omega)
  · rw [← h.capacity]
    exact hfield 4 2 (by omega)
  · rw [← h.depth]
    exact hfield 6 2 (by omega)
  · rw [← h.overwritten]
    unfold sizeofExtentHeader sizeofExtent
    refine Mem.read_congr fun i hi => hroot _ ⟨by omega, ?_⟩
    unfold sizeofExtentHeader
    omega
  · refine h.leaf.congr fun a hlow hhigh => hleaf a ⟨hlow, ?_⟩
    exact hhigh.trans_le (Nat.add_le_add_left hsize _)

/-- A longer history with the same root and the same data blocks. -/
theorem TreeGrown.congr (hg : Accepted g) (hinv : BuildInv g m₀ base F O R s)
    (h : TreeGrown g s n es e) (hregistered : s.ext4.registered <+: t.ext4.registered)
    (hmem : ∀ a, a ∈ rootBytes g n ∨ (∃ b, DataBlock g b ∧ InBlock g b a) →
      t.mem a = s.mem a) : TreeGrown g t n es e := by
  refine ⟨fun hlength => ?_, fun hfull => ?_⟩
  · obtain ⟨leaf, htree, hleaf⟩ := h.grown hlength
    refine ⟨leaf, htree.congr hg (fun a ha => hmem a (Or.inl ha)) ?_, ?_⟩
    · intro b hb a ha
      obtain ⟨-, r, hr, -, -, hblocks⟩ := hleaf b hb
      refine hmem a (Or.inr ⟨b, hinv.registered_data hr ?_, ha⟩)
      rw [hblocks]
      exact List.mem_singleton_self b
    · intro b hb
      obtain ⟨hmany, r, hr, hrest⟩ := hleaf b hb
      exact ⟨hmany, r, hregistered.subset hr, hrest⟩
  · obtain ⟨b, hb, hspilled⟩ := h.spilled hfull
    exact ⟨b, hb, hspilled.congr hg (fun a ha => hmem a (Or.inl ha)) fun a ha =>
      hmem a (Or.inr ⟨b, hb, ha⟩)⟩

/-- `append_to_extent_tree` appends, unless the four places in the inode are taken. -/
theorem appendToExtentTree_spec (hg : Accepted g) (h : BuildInv g m₀ base F O R s)
    (hn : InodePlace g.sb n) (hd : n ∈ D) (hP : P ⊆ O ++ R) (htree : TreeAt g s.mem n es leaf)
    (hleaf : ∀ b, leaf = some b → NodeBlock s n b) (hlength : es.length ≤ maxEntries g)
    (fuel : ℕ) {E : Halt → State → Prop} (hfuel : fuel < 2 → E .fuel s) :
    wp (appendToExtentTree g e n fuel (rootHeader g n))
      (fun ok t => (ok = true ∧ TreeStep g m₀ base F O R D P n [] s t ∧ TreeGrown g t n es e) ∨
        (ok = false ∧ t = s ∧ es.length = 4 ∧ TreeAt g s.mem n es none)) E s := by
  obtain ⟨-, hentries, -, hsize⟩ := hg.maxEntries_eq
  cases fuel with
  | zero => exact hfuel (by norm_num)
  | succ fuel =>
    cases leaf with
    | none =>
      have hfits := NodeAt.fits htree
      by_cases hroom : es.length < 4
      · refine wp_mono_ok (appendToExtentTree_root htree hroom fuel) ?_
        intro ok t ht
        obtain ⟨hok, htouch, hext4, htree'⟩ := ht
        exact Or.inl ⟨hok, h.treeTouches hg hn hd hP htouch (fun a ha => Or.inl ha) hext4,
          TreeGrown.of_treeAt htree' (by omega) (by simp)⟩
      · refine appendToExtentTree_rootFull htree (by omega) fuel ?_
        exact Or.inr ⟨rfl, rfl, by omega, htree⟩
    | some b =>
      obtain ⟨r, hr, hnode, hrn, hblocks⟩ := hleaf b rfl
      have hmem : b ∈ r.blocks := by
        rw [hblocks]
        exact List.mem_singleton_self b
      have hdata := h.registered_data hr hmem
      have hb := hdata.lt_word hg
      cases fuel with
      | zero =>
        obtain ⟨hindex, -, -⟩ := htree
        rw [appendToExtentTree]
        simp only [wp_bind, wp_getMem]
        rw [if_neg (by rw [hindex.depth]; decide), wp_bind]
        exact hfuel (by norm_num)
      | succ fuel =>
        by_cases hroom : es.length < maxEntries g
        · refine wp_mono_ok (appendToExtentTree_leaf hg htree hb hroom fuel) ?_
          intro ok t ht
          obtain ⟨hok, htouch, hext4, hnode'⟩ := ht
          obtain ⟨hindex, hmany, -⟩ := htree
          have hstep := h.treeTouches hg hn hd hP htouch
            (fun a ha => Or.inr ⟨r, hr, hnode, hrn, b, hmem, ha⟩) hext4
          have hindex' : IndexAt t.mem (rootHeader g n) b := by
            refine hindex.congr fun a hlow hhigh => htouch.mem a fun hin => ?_
            obtain ⟨c, hc, -, hca⟩ := hg.inodeAddr_inPrefix hn
              (rootBytes_subset ⟨hlow, hhigh⟩).1 (rootBytes_subset ⟨hlow, hhigh⟩).2
            obtain rfl := inBlock_unique hca hin
            exact hdata.outside ⟨_, hn.group, hc⟩
          have hat : TreeAt g t.mem n (es ++ [e]) (some b) := by
            refine ⟨hindex', ?_, hnode'⟩
            rw [List.length_append]
            omega
          refine Or.inl ⟨hok, hstep, TreeGrown.of_treeAt hat hroom ?_⟩
          · intro c hc
            obtain rfl := Option.some.inj hc
            refine ⟨?_, r, by rw [hext4]; exact hr, hnode, hrn, hblocks⟩
            rw [List.length_append, List.length_singleton]
            omega
        · have hfull : es.length = maxEntries g := by omega
          refine wp_mono_ok (appendToExtentTree_spill htree hb hfull fuel) ?_
          intro ok t ht
          obtain ⟨hok, rfl⟩ := ht
          have hlen := length_extent_bytes e
          have hwrite := Mem.sameOutside_write s.mem (rootHeader g n + sizeofExtentHeader) e.bytes
          rw [hlen] at hwrite
          have hin : ∀ a, rootHeader g n + sizeofExtentHeader ≤ a →
              a < rootHeader g n + sizeofExtentHeader + sizeofExtent → a ∈ rootBytes g n := by
            intro a hlow hhigh
            unfold sizeofExtentHeader sizeofExtent at *
            exact ⟨by omega, by unfold sizeofExtentHeader; omega⟩
          obtain ⟨hindex, hmany, hnode'⟩ := htree
          refine Or.inl ⟨hok, h.treeTouches hg hn hd hP (Touches.stored s hin hwrite)
            (fun a ha => Or.inl ha) rfl, ⟨fun hmore => ?_, fun _ => ⟨b, hdata, ?_⟩⟩⟩
          · rw [List.length_append, List.length_singleton] at hmore
            omega
          have hfield : ∀ i w, i + w ≤ 12 →
              (s.mem.write (rootHeader g n + sizeofExtentHeader) e.bytes).readLE
                (rootHeader g n + i) w = s.mem.readLE (rootHeader g n + i) w := by
            intro i w hiw
            exact hwrite.readLE_eq (Or.inl (by unfold sizeofExtentHeader; omega))
          refine ⟨?_, ?_, ?_, ?_, Mem.read_write_of_length hlen, ?_, hfull⟩
          · rw [← hindex.magic]
            exact hfield 0 2 (by omega)
          · rw [← hindex.count]
            exact hfield 2 2 (by omega)
          · rw [← hindex.capacity]
            exact hfield 4 2 (by omega)
          · rw [← hindex.depth]
            exact hfield 6 2 (by omega)
          · refine hnode'.congr fun a hlow hhigh => hwrite a ?_
            by_contra hover
            have ha : InBlock g b a := ⟨hlow, hhigh.trans_le (Nat.add_le_add_left hsize _)⟩
            have hroot := rootBytes_subset (hin a (by omega) (by omega))
            obtain ⟨c, hc, -, hca⟩ := hg.inodeAddr_inPrefix hn hroot.1 hroot.2
            obtain rfl := inBlock_unique ha hca
            exact hdata.outside ⟨_, hn.group, hc⟩

/-- `add_extent`. It stops only for lack of fuel, or where the block for a leaf is allocated. -/
theorem addExtent_spec (hg : Accepted g) (h : BuildInv g m₀ base F O R s)
    (hn : InodePlace g.sb n) (hd : n ∈ D) (hP : P ⊆ O ++ R) (htree : Tree g s n es)
    (hlength : es.length ≤ maxEntries g) (fuel : ℕ) {E : Halt → State → Prop}
    (hfuel : fuel < 2 → ∀ t, BuildInv g m₀ base F O R t → E .fuel t)
    (hstop : es.length = 4 → wp (allocateExtent fuel 1) (fun _ _ => True) E s) :
    wp (addExtent g fuel e n (inodeAddr g n))
      (fun _ t => ∃ nodes, (∀ r ∈ nodes, r.inTree = false ∧ r.inodeNo = n) ∧
        TreeStep g m₀ base F O R D P n nodes s t ∧ TreeGrown g t n es e) E s := by
  simp only [addExtent, wp_bind]
  obtain ⟨leaf, htree, hleaf⟩ := htree hlength
  refine wp_mono_ok (appendToExtentTree_spec hg h hn hd hP htree (fun b hb => (hleaf b hb).2)
    hlength fuel fun hfew => hfuel hfew s h) ?_
  intro ok t ht
  rcases ht with ⟨rfl, hstep, hgrown⟩ | ⟨rfl, rfl, hfour, hroot⟩
  · rw [if_pos rfl, wp_pure]
    exact ⟨[], List.forall_mem_nil _, hstep, hgrown⟩
  · rw [if_neg (by decide), wp_bind]
    refine wp_mono_ok (makeTreeDeeper_spec hg h hn hd hP hroot hfour fuel (hstop hfour)) ?_
    intro _ u hu
    obtain ⟨b, hstep, hdata, hindex, hnode⟩ := hu
    have hnodes : ∀ r ∈ [(⟨n, 0, b, b + 1, false⟩ : Registration)],
        r.inTree = false ∧ r.inodeNo = n := by
      intro r hr
      rw [List.mem_singleton] at hr
      rw [hr]
      exact ⟨rfl, rfl⟩
    have hblock : ∀ c, some b = some c → NodeBlock u n c := by
      intro c hc
      obtain rfl := Option.some.inj hc
      refine ⟨⟨n, 0, b, b + 1, false⟩, ?_, rfl, rfl, ?_⟩
      · rw [hstep.registered]
        exact List.mem_append_right _ (List.mem_singleton_self _)
      · rw [Registration.blocks, Nat.add_sub_cancel_left, List.range'_one]
    rw [wp_bind]
    have htree' : TreeAt g u.mem n es (some b) := ⟨hindex, by omega, hnode⟩
    refine wp_mono_ok (appendToExtentTree_spec hg hstep.inv hn hd hP htree' hblock hlength fuel
      fun hfew => hfuel hfew u hstep.inv) ?_
    intro ok v hv
    rw [wp_pure]
    rcases hv with ⟨-, hstep', hgrown⟩ | ⟨-, -, -, hnone⟩
    · exact ⟨_, hnodes, hstep.trans hstep', hgrown⟩
    · have hdepth := NodeAt.depth hnone
      rw [hindex.depth] at hdepth
      exact absurd hdepth Nat.one_ne_zero

/-- `register_extent` for an extent of a file or directory, with the ways in which it may stop. -/
theorem registerExtent_outcome (hg : Accepted g) (h : BuildInv g m₀ base F O R s)
    (hn : InodePlace g.sb n) (hd : n ∈ D) (hP : P ⊆ O ++ R) (htree : Tree g s n es)
    (hlength : es.length ≤ maxEntries g) {fext : FatExtent}
    (hpos : 0 < (toExt4Extent g fext).eeLen)
    (hperm : (List.range' (toExt4Extent g fext).start (toExt4Extent g fext).eeLen ++
      (O' ++ R')).Perm (O ++ R))
    (hopen : O ⊆ List.range' (toExt4Extent g fext).start (toExt4Extent g fext).eeLen ++ O')
    (hsub : O' ⊆ O) (fuel : ℕ) {E : Halt → State → Prop}
    (hfuel : fuel < 2 → ∀ t, BuildInv g m₀ base F O R t → E .fuel t)
    (hstop : es.length = 4 → wp (allocateExtent fuel 1) (fun _ _ => True) E s) :
    wp (registerExtent g fuel fext n)
      (fun _ t => ∃ nodes, (∀ r ∈ nodes, r.inTree = false ∧ r.inodeNo = n) ∧
        TreeStep g m₀ base F O' R' D P n
          (nodes ++ [registrationOf (toExt4Extent g fext) n true]) s t ∧
        TreeGrown g t n es (toExt4Extent g fext)) E s := by
  simp only [registerExtent, wp_bind]
  refine getExistingInode_spec hg h.placed hn ?_
  refine wp_mono_ok (addExtent_spec hg h hn hd hP htree hlength fuel hfuel hstop) ?_
  intro _ t ht
  obtain ⟨nodes, hnodes, hstep, hgrown⟩ := ht
  refine wp_mono_ok (accountExtent_treeStep hg hstep.inv hn hd hP hpos true hperm hopen hsub
    (fun h => Bool.noConfusion h)) ?_
  intro _ u hu
  obtain ⟨hstep', hmem⟩ := hu
  exact ⟨nodes, hnodes, hstep.trans hstep',
    hgrown.congr hg hstep.inv (by rw [hstep'.registered]; exact List.prefix_append _ _) hmem⟩

end

end OfsConvert
