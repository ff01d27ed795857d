import OfsConvert.InodeUpdates

/-!
# Registering ranges

Blocks come from the allocator and go to `add_extent_to_block_bitmap`: `allocateBlock_spec` and
`accountExtent_spec` say how they change hands.
-/

namespace OfsConvert

/-- What is being filled when a run stops: distinct data blocks that the allocator or the reading
phase has taken, none of them registered and none of `F`. -/
structure OpenBlocks (g : Globals) (F O : List ℕ) (t : State) : Prop where
  nodup : (registeredBlocks t.ext4.registered ++ O).Nodup
  data : ∀ b ∈ O, DataBlock g b
  taken : ∀ b ∈ O, BlockTaken g t b
  foreign : ∀ b ∈ O, b ∉ F

/-- How a run of the second phase may stop: the history shows nothing wrong. -/
def BuildStop (g : Globals) (base : State) (F : List ℕ) (_ : Halt) (t : State) : Prop :=
  ∃ O, BuildLog g base F O t ∧ OpenBlocks g F O t

/-- No cluster becomes free. -/
def TakenKept (s t : State) : Prop :=
  ∀ c, isFree s.allocationBitmap c = false → isFree t.allocationBitmap c = false

section

variable {s t u : State}

/-- An unchanged bitmap keeps the clusters taken. -/
theorem TakenKept.of_eq (h : t.allocationBitmap = s.allocationBitmap) : TakenKept s t :=
  fun c hc => by rw [h, hc]

/-- Clusters stay taken over two steps. -/
theorem TakenKept.trans (h : TakenKept s t) (h' : TakenKept t u) : TakenKept s u :=
  fun c hc => h' c (h c hc)

/-- Moving the cursor leaves the bitmap alone. -/
theorem canBeUsed_takenKept (s : State) :
    wp canBeUsed (fun _ t => TakenKept s t) (fun _ t => TakenKept s t) s := by
  cases hget : s.allocator.blockedExtents[s.allocator.blockedExtentCurrent]? with
  | none =>
    simp only [canBeUsed, wp_bind, wp_get, hget]
    exact TakenKept.of_eq rfl
  | some blocked =>
    simp only [canBeUsed, wp_bind, wp_get, hget]
    refine wp_ite (fun _ => ?_) (fun _ => ?_)
    · simp only [wp_bind, wp_set, wp_pure]
      exact TakenKept.of_eq rfl
    · simp only [wp_bind, wp_set]
      exact wp_ite (fun _ => TakenKept.of_eq rfl) fun _ => TakenKept.of_eq rfl

/-- The search for a cluster frees none. -/
theorem findUsable_takenKept (fuel : ℕ) (s : State) :
    wp (findUsable fuel) (fun _ t => TakenKept s t) (fun _ t => TakenKept s t) s := by
  induction fuel generalizing s with
  | zero => exact TakenKept.of_eq rfl
  | succ fuel ih =>
    rw [findUsable, wp_bind]
    refine wp_mono_ok (canBeUsed_takenKept s) fun usable t ht => ?_
    exact wp_ite (fun _ => ht) fun _ =>
      wp_mono (ih t) (fun _ _ hu => ht.trans hu) fun _ _ hu => ht.trans hu

/-- Taking a cluster frees none. -/
theorem takeCurrent_takenKept (s : State) (E : Halt → State → Prop) :
    wp takeCurrent (fun _ t => TakenKept s t) E s := by
  simp only [takeCurrent, wp_bind, wp_get, wp_set, wp_pure]
  intro c hc
  rw [isFree_setUsed, hc, Bool.false_and]

/-- Growing an extent frees no cluster. -/
theorem growExtent_takenKept (maxLength fuel : ℕ) (e : FatExtent) (s : State) :
    wp (growExtent maxLength fuel e) (fun _ t => TakenKept s t) (fun _ t => TakenKept s t) s := by
  induction fuel generalizing s e with
  | zero => exact TakenKept.of_eq rfl
  | succ fuel ih =>
    rw [growExtent]
    refine wp_ite (fun _ => ?_) (fun _ => TakenKept.of_eq rfl)
    rw [wp_bind]
    refine wp_mono_ok (canBeUsed_takenKept s) fun usable t ht => ?_
    refine wp_ite (fun _ => ?_) (fun _ => ht)
    rw [wp_bind]
    refine wp_mono_ok (takeCurrent_takenKept t _) fun index u hu => ?_
    exact wp_mono (ih _ u) (fun _ _ hv => ht.trans (hu.trans hv)) fun _ _ hv =>
      ht.trans (hu.trans hv)

/-- The allocator marks clusters, also where it stops. -/
theorem allocateExtent_takenKept (fuel maxLength : ℕ) (s : State) :
    wp (allocateExtent fuel maxLength) (fun _ t => TakenKept s t) (fun _ t => TakenKept s t) s := by
  rw [allocateExtent, wp_bind]
  refine wp_mono_ok (findUsable_takenKept fuel s) fun _ t ht => ?_
  rw [wp_bind]
  refine wp_mono_ok (takeCurrent_takenKept t _) fun index u hu => ?_
  exact wp_mono (growExtent_takenKept _ _ _ u) (fun _ _ hv => ht.trans (hu.trans hv)) fun _ _ hv =>
    ht.trans (hu.trans hv)

end

/-- The fields that `register_extent` changes behind the extent tree. -/
def blocksFields (g : Globals) (n : ℕ) : Set ℕ :=
  fieldBytes g n iBlocksLoOffset 4 ∪ fieldBytes g n iBlocksHighOffset 2

/-- The bytes whose values `register_extent` changes behind the extent tree. -/
def accountBytes (g : Globals) (n i : ℕ) : Set ℕ :=
  blocksFields g n ∪ bytesFrom (blockBitmapAddr g i) (inodeBitmapAddr g i)

/-- The registration that `register_extent` adds to the history. -/
def registrationOf (e : Ext4Extent) (n : ℕ) (inTree : Bool) : Registration :=
  ⟨n, e.eeBlock, e.start, e.start + e.eeLen, inTree⟩

/-- The history has the blocks of the extent. -/
@[simp] theorem registrationOf_blocks (e : Ext4Extent) (n : ℕ) (inTree : Bool) :
    (registrationOf e n inTree).blocks = List.range' e.start e.eeLen := by
  rw [registrationOf, Registration.blocks, Nat.add_sub_cancel_left]

section

variable {g : Globals} {s t : State} {E : Halt → State → Prop} {m₀ : Mem} {base : State}
  {F O R O' R' P : List ℕ} {D : Set ℕ} {n : ℕ}

/-- The invariant says where the open blocks are. -/
theorem BuildInv.openBlocks (h : BuildInv g m₀ base F O R s) : OpenBlocks g F O s where
  nodup := h.nodup.sublist ((List.sublist_append_left O R).append_left _)
  data b hb := h.data b (by simp [hb])
  taken b hb := h.taken b (by simp [hb])
  foreign b hb hf := (h.foreign b hf).2.1 hb

/-- A run that stops within the invariant. -/
theorem BuildInv.stop (h : BuildInv g m₀ base F O R s) (cause : Halt) :
    BuildStop g base F cause s := ⟨O, h.log, h.openBlocks⟩

/-- `allocate_extent` hands out a block that nobody owns. -/
theorem allocateBlock_spec (hg : Accepted g) (h : BuildInv g m₀ base F O R s) (fuel : ℕ) :
    wp (allocateExtent fuel 1)
      (fun e t => BuildInv g m₀ base F
          (fatClToE4blk g.bootSector g.metaInfo e.physicalStart :: O) R t ∧
        AllocOnly s t ∧ e = ⟨0, 1, e.physicalStart⟩ ∧ DataCluster g e.physicalStart)
      (BuildStop g base F) s := by
  refine wp_mono (wp_and (allocateExtent_spec hg.blockedExtents le_rfl (by norm_num) fuel h.alloc)
    (allocateExtent_takenKept fuel 1 s)) ?_ ?_
  · intro e t ht
    obtain ⟨⟨halloc, honly, hlength, hallocated⟩, -⟩ := ht
    have hpositive := hallocated.positive
    have hone : e.length = 1 := by omega
    have hmem : e.physicalStart ∈ e.clusters := by
      rw [FatExtent.mem_clusters, FatExtent.stop]
      omega
    have husable := hallocated.usable _ hmem
    have hc := husable.dataCluster
    have hfree := hallocated.fresh _ hmem
    have hdata := hg.dataBlock_of_cluster hc husable.unblocked
    generalize hb : fatClToE4blk g.bootSector g.metaInfo e.physicalStart = b at hdata ⊢
    have hback : e4blkToFatCl g.bootSector g.metaInfo b = e.physicalStart := by
      rw [← hb, hg.e4blkToFatCl_fatClToE4blk hc]
    have hnew : ∀ c ∈ F ++ (registeredBlocks s.ext4.registered ++ (O ++ R)), c ≠ b := by
      rintro c hc rfl
      have htaken := h.taken c hc
      rw [BlockTaken, hback, hfree] at htaken
      cases htaken
    have hmove : (registeredBlocks s.ext4.registered ++ (b :: O ++ R)).Perm
        (b :: (registeredBlocks s.ext4.registered ++ (O ++ R))) := List.perm_middle
    have hmarked : ∀ c, BlockTaken g s c ∨ c = b → BlockTaken g t c := by
      intro c hc
      rw [BlockTaken, hallocated.marked]
      rcases hc with hold | rfl
      · rw [hold, Bool.false_and]
      · rw [hback, List.contains_iff_mem.mpr hmem, Bool.not_true, Bool.and_false]
    refine ⟨⟨halloc, by rw [honly.ext4]; exact h.placed, ?_, ?_, ?_, ?_,
      by rw [honly.ext4]; exact h.firstFree, ?_⟩, honly, ?_, hc⟩
    · rw [honly.ext4, hmove.nodup_iff, List.nodup_cons]
      exact ⟨fun hin => hnew b (List.mem_append_right F hin) rfl, h.nodup⟩
    · rw [honly.ext4]
      intro c hc
      rcases List.mem_cons.mp (hmove.subset hc) with rfl | hin
      · exact hdata
      · exact h.data c hin
    · rw [honly.ext4]
      intro c hc
      apply hmarked
      rcases List.mem_append.mp hc with hf | hin
      · exact Or.inl (h.taken c (List.mem_append_left _ hf))
      · rcases List.mem_cons.mp (hmove.subset hin) with rfl | hin
        · exact Or.inr rfl
        · exact Or.inl (h.taken c (List.mem_append_right _ hin))
    · rw [honly.ext4]
      intro c hc
      obtain ⟨hcdata, hopen, hnodes⟩ := h.foreign c hc
      refine ⟨hcdata, ?_, hnodes⟩
      rw [List.mem_cons]
      rintro (rfl | hin)
      · exact hnew c (List.mem_append_left _ hc) rfl
      · exact hopen hin
    · obtain ⟨new, hstores, hwritten⟩ := h.log.stores
      refine ⟨by rw [honly.ext4]; exact h.log.nodup, by rw [honly.ext4]; exact h.log.data,
        ⟨new, by rw [honly.stores]; exact hstores, fun store hstore a hlow hhigh => ?_⟩,
        by rw [honly.mem]; exact h.log.foreign⟩
      rw [honly.ext4]
      exact (hwritten store hstore a hlow hhigh).mono fun c hc => List.mem_cons_of_mem b hc
    · rw [← hallocated.logicalStart, ← hone]
  · intro cause t ht
    obtain ⟨⟨-, honly⟩, hkept⟩ := ht
    have hopen := h.openBlocks
    refine ⟨O, ⟨by rw [honly.ext4]; exact h.log.nodup, by rw [honly.ext4]; exact h.log.data, ?_,
      by rw [honly.mem]; exact h.log.foreign⟩, ⟨by rw [honly.ext4]; exact hopen.nodup, hopen.data,
        fun b hb => hkept _ (hopen.taken b hb), hopen.foreign⟩⟩
    rw [honly.ext4, honly.stores]
    exact h.log.stores

/-- What a range is taken from is not owned any more. -/
theorem BuildInv.register (h : BuildInv g m₀ base F O R s) {r : Registration}
    (hperm : (r.blocks ++ (O' ++ R')).Perm (O ++ R)) (hopen : O ⊆ r.blocks ++ O') (hsub : O' ⊆ O)
    (hnode : r.inTree = false → ∀ b ∈ r.blocks, b ∉ F) :
    BuildInv g m₀ base F O' R'
      { s with ext4 := { s.ext4 with registered := s.ext4.registered ++ [r] } } := by
  have hblocks : registeredBlocks (s.ext4.registered ++ [r]) =
      registeredBlocks s.ext4.registered ++ r.blocks := by
    rw [registeredBlocks_append, registeredBlocks_singleton]
  have hall : (registeredBlocks (s.ext4.registered ++ [r]) ++ (O' ++ R')).Perm
      (registeredBlocks s.ext4.registered ++ (O ++ R)) := by
    rw [hblocks, List.append_assoc]
    exact hperm.append_left _
  refine ⟨h.alloc.congr rfl rfl, h.placed, hall.nodup_iff.mpr h.nodup,
    fun b hb => h.data b (hall.subset hb), fun b hb => h.taken b ((hall.append_left F).subset hb),
    ?_, h.firstFree, ?_⟩
  · intro b hb
    obtain ⟨hdata, hnot, hnodes⟩ := h.foreign b hb
    refine ⟨hdata, fun hin => hnot (hsub hin), fun r' hr' hnode' => ?_⟩
    rcases List.mem_append.mp hr' with hold | hnew
    · exact hnodes r' hold hnode'
    · rw [List.mem_singleton] at hnew
      subst hnew
      exact fun hin => hnode hnode' b hin hb
  · obtain ⟨new, hstores, hwritten⟩ := h.log.stores
    refine ⟨(List.nodup_append.mp (hall.nodup_iff.mpr h.nodup)).1,
      fun b hb => h.data b (hall.subset (List.mem_append_left _ hb)),
      ⟨new, hstores, fun store hstore a hlow hhigh => ?_⟩, h.log.foreign⟩
    refine (hwritten store hstore a hlow hhigh).mono fun b hb => ?_
    dsimp only
    rw [hblocks]
    rcases List.mem_append.mp hb with ho | hreg
    · rcases List.mem_append.mp (hopen ho) with hr | ho'
      · simp [hr]
      · simp [ho']
    · simp [hreg]

/-- The block count lies inside the inode, behind its mode. -/
theorem blocksFields_bounds {a : ℕ} (ha : a ∈ blocksFields g n) :
    inodeAddr g n + 2 ≤ a ∧ a < inodeAddr g n + ext4InodeSize := by
  unfold ext4InodeSize
  rcases ha with ha | ha
  · have hlow := ha.1
    have hhigh := ha.2
    unfold iBlocksLoOffset at hlow hhigh
    omega
  · have hlow := ha.1
    have hhigh := ha.2
    unfold iBlocksHighOffset at hlow hhigh
    omega

/-- The block count is part of the inode. -/
theorem blocksFields_subset {a : ℕ} (ha : a ∈ blocksFields g n) : a ∈ inodeBytes g n :=
  ⟨by have := (blocksFields_bounds ha).1; omega, (blocksFields_bounds ha).2⟩

/-- A 48-bit number in its two parts. -/
theorem fromLoHi_setLoHi48_mod (value : ℕ) :
    fromLoHi (setLoHi48 value).1 (setLoHi48 value).2 = value % 2 ^ 48 := by
  rw [setLoHi48_fst, setLoHi48_snd, fromLoHi_eq (Nat.mod_lt _ (by norm_num))]
  omega

/-- What the part of `register_extent` behind the extent tree does. -/
theorem accountExtent_effect (hg : Accepted g) (h : Placed g s.ext4.groupDescs) {e : Ext4Extent}
    (hpos : 0 < e.eeLen) (hdata : ∀ k < e.eeLen, DataBlock g (e.start + k)) (inTree : Bool)
    {bg : Ext4GroupDesc} (hbg : s.ext4.groupDescs[groupOfBlock g.sb e.start]? = some bg) :
    wp (accountExtent g e n (inodeAddr g n) inTree)
      (fun _ t => Touches (blocksFields g n ∪ blockBitBytes g (groupOfBlock g.sb e.start) e.start
          (e.start + e.eeLen)) s t ∧
        (∃ m, (∀ a, a ∉ blocksFields g n → m a = s.mem a) ∧
          blocksOf g m n =
            u64 (blocksOf g s.mem n + u32 (e.eeLen * blockSize g.sb) / 512) % 2 ^ 48 ∧
          BitsSet (blockBitmapAddr g (groupOfBlock g.sb e.start))
            (e.start - blockGroupStart g.sb (groupOfBlock g.sb e.start))
            (e.start + e.eeLen - blockGroupStart g.sb (groupOfBlock g.sb e.start)) m t.mem) ∧
        t.ext4 = { s.ext4.setDesc (groupOfBlock g.sb e.start) (bg.useBlocks e.eeLen) with
          registered := s.ext4.registered ++ [registrationOf e n inTree] }) E s := by
  have hlast := (hdata (e.eeLen - 1) (by omega)).upper
  have hpartition := hg.partitionBlocks_lt
  rw [hg.blockCount_eq] at hlast
  rw [accountExtent]
  simp only [wp_bind, wp_getMem, wp_storeLE, wp_modify]
  rw [u64_of_lt (by omega)]
  refine wp_mono_ok (addExtentToBlockBitmap_spec hg ?_ hpos hdata bg ?_) ?_
  · exact h
  · exact hbg
  · intro _ t ht
    obtain ⟨htouch, hbits, hext4⟩ := ht
    have hlo : ∀ v, (setLoHi48 v).1 < 256 ^ 4 := by
      intro v
      rw [setLoHi48_fst]
      exact Nat.mod_lt _ (by norm_num)
    have hhi : ∀ v, (setLoHi48 v).2 < 256 ^ 2 := fun v => u16_lt _
    have hstores : Touches (blocksFields g n) s _ :=
      ((Touches.field s n iBlocksLoOffset 4 (incrLoHi48 (inodeField g s.mem n iBlocksLoOffset 4)
        (inodeField g s.mem n iBlocksHighOffset 2)
        (u32 (e.eeLen * blockSize g.sb) / 512)).1).mono Set.subset_union_left).trans
      ((Touches.field _ n iBlocksHighOffset 2 (incrLoHi48 (inodeField g s.mem n iBlocksLoOffset 4)
        (inodeField g s.mem n iBlocksHighOffset 2)
        (u32 (e.eeLen * blockSize g.sb) / 512)).2).mono Set.subset_union_right)
    refine ⟨((hstores.mono Set.subset_union_left).ofExt4 (e := { s.ext4 with
      registered := s.ext4.registered ++ [registrationOf e n inTree] })).trans
      (htouch.mono Set.subset_union_right), ⟨_, hstores.mem, ?_, hbits⟩, hext4⟩
    rw [blocksOf, (Touches.field _ n iBlocksHighOffset 2 _).inodeField_eq, State.stored_mem,
      incrLoHi48, inodeField_write (hlo _), State.stored_mem, inodeField_write (hhi _),
      fromLoHi_setLoHi48_mod, blocksOf]
    intro a ha ha'
    have h₁ := ha.2
    have h₂ := ha'.1
    unfold iBlocksLoOffset at h₁
    unfold iBlocksHighOffset at h₂
    omega

/-- The bits of a range of data blocks are inside the block bitmap of their group. -/
theorem Accepted.rangeBits (hg : Accepted g) {b len : ℕ} (hpos : 0 < len)
    (hdata : ∀ k < len, DataBlock g (b + k)) :
    groupOfBlock g.sb b < blockGroupCount g.sb ∧ blockGroupStart g.sb (groupOfBlock g.sb b) ≤ b ∧
      b + len - blockGroupStart g.sb (groupOfBlock g.sb b) ≤ 8 * blockSize g.sb := by
  obtain ⟨-, hgroup, -⟩ := hg.numbers
  rw [← hg.blockSize_eq] at hgroup
  have hlast := hg.groupOfBlock_spec (hdata (len - 1) (by omega))
  rw [hg.groupOfBlock_eq hdata (by omega)] at hlast
  have hfirst := hg.groupOfBlock_spec (hdata 0 hpos)
  rw [Nat.add_zero] at hfirst
  exact ⟨hfirst.1, by omega, by omega⟩

/-- The part of `register_extent` behind the extent tree takes the range from its owner. -/
theorem accountExtent_spec (hg : Accepted g) (h : BuildInv g m₀ base F O R s)
    (hn : InodePlace g.sb n) (hd : n ∈ D) (hP : P ⊆ O ++ R) {e : Ext4Extent} (hpos : 0 < e.eeLen)
    (inTree : Bool)
    (hperm : (List.range' e.start e.eeLen ++ (O' ++ R')).Perm (O ++ R))
    (hopen : O ⊆ List.range' e.start e.eeLen ++ O') (hsub : O' ⊆ O)
    (hnode : inTree = false → ∀ b ∈ List.range' e.start e.eeLen, b ∉ F) :
    wp (accountExtent g e n (inodeAddr g n) inTree)
      (fun _ t => BuildInv g m₀ base F O' R' t ∧ Step g D P s t ∧
        (∃ i < blockGroupCount g.sb, ∀ a, a ∉ accountBytes g n i → t.mem a = s.mem a) ∧
        t.ext4.registered = s.ext4.registered ++ [registrationOf e n inTree] ∧
        t.ext4.reads = s.ext4.reads ∧
        t.ext4.firstFreeInodeNo = s.ext4.firstFreeInodeNo) E s := by
  have hdata : ∀ k < e.eeLen, DataBlock g (e.start + k) := by
    intro k hk
    apply h.data
    apply List.mem_append_right
    apply hperm.subset
    apply List.mem_append_left
    rw [List.mem_range'_1]
    omega
  obtain ⟨hi, hstart, hstop⟩ := hg.rangeBits hpos hdata
  obtain ⟨bg, hbg, hdesc⟩ := h.placed.get hi
  refine wp_mono_ok (accountExtent_effect hg h.placed hpos hdata inTree hbg) ?_
  intro _ t ht
  obtain ⟨htouch, ⟨m, hfields, -, hbits⟩, hext4⟩ := ht
  generalize groupOfBlock g.sb e.start = i at *
  have hsize := hg.blockSize_ge
  have hnext := inodeBitmapAddr_eq g i
  have htable := inodeTableAddr_eq g i
  have hmem : ∀ a, a ∉ accountBytes g n i → t.mem a = s.mem a := by
    intro a ha
    rw [← hfields a fun hin => ha (Or.inl hin)]
    apply hbits.byte_eq
    by_contra hin
    exact ha (Or.inr ⟨by omega, by omega⟩)
  have hown : ∀ a ∈ accountBytes g n i, OwnByte g D P O s a := by
    rintro a (ha | ha)
    · exact OwnByte.inode n hn hd (blocksFields_subset ha) fun _ => (blocksFields_bounds ha).1
    · exact OwnByte.blockBitmap i hi ha.1 ha.2
  have hstored : ∀ a ∈ blocksFields g n ∪ blockBitBytes g i e.start (e.start + e.eeLen),
      a ∈ accountBytes g n i ∨ inodeBitmapAddr g i ≤ a ∧ a < inodeTableAddr g i := by
    rintro a (ha | ha)
    · exact Or.inl (Or.inl ha)
    · by_cases hin : a < inodeBitmapAddr g i
      · exact Or.inl (Or.inr ⟨(Nat.le_add_right _ _).trans ha.1, hin⟩)
      · have hhigh := ha.2
        exact Or.inr ⟨by omega, by omega⟩
  have hregistered := h.register (r := registrationOf e n inTree)
    (by rwa [registrationOf_blocks]) (by rwa [registrationOf_blocks]) hsub
    (by rwa [registrationOf_blocks])
  refine ⟨hregistered.touches htouch.ofExt4_left ?_ ?_ ?_ ?_,
    h.step hg hP (fun a ha => hmem a fun hin => ha (hown a hin)) ?_ ?_ ?_,
    ⟨i, hi, hmem⟩, ?_, ?_, ?_⟩
  · intro a ha
    have hmeta : ∃ b, InBlock g b a ∧ MetaBlock g b := by
      rcases hstored a ha with (hin | hin) | ⟨hlow, hhigh⟩
      · have hinode := blocksFields_subset hin
        obtain ⟨b, hb, -, hba⟩ := hg.inodeAddr_inPrefix hn hinode.1 hinode.2
        exact ⟨b, hba, _, hn.group, hb⟩
      · obtain ⟨b, hb, -, hba⟩ := hg.bitmap_inPrefix hi hin.1 (by have := hin.2; omega)
        exact ⟨b, hba, i, hi, hb⟩
      · obtain ⟨b, hb, -, hba⟩ := hg.bitmap_inPrefix hi (by omega) hhigh
        exact ⟨b, hba, i, hi, hb⟩
    obtain ⟨b, hba, hb⟩ := hmeta
    exact ⟨b, hba, Or.inl hb⟩
  · rw [hext4]
    exact h.placed.set (hdesc.useBlocks _)
  · rw [hext4]
  · rw [hext4]
    exact h.firstFree
  · rw [hext4]
    exact List.prefix_append _ _
  · rw [hext4]
    exact le_rfl
  · intro k hk hbit
    rw [inodeBit, bitAt_congr (m := s.mem)]
    · exact hbit
    · apply hmem
      have hplace := hg.inodeBit_place hk
      have hlow := (inodeBitmapAddr_le g (inodeGroup g.sb k)).1
      rintro (hin | hin)
      · have hbehind := hg.inode_behind_bitmaps hn (blocksFields_subset hin) hk.group (by omega)
        omega
      · exact hg.bitmaps_disjoint hi hk.group hin.1 hin.2 (Nat.le_add_right _ _) hplace
  · rw [hext4]
  · rw [hext4]
    rfl
  · rw [hext4]
    rfl

end

end OfsConvert
