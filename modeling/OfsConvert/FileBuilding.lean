import OfsConvert.BuildRules
import OfsConvert.StreamTape

/-!
# Building files

`build_inode` makes an inode of a directory entry, `set_extents` gives it the extents that the
stream records. Each field of an inode has its own bytes, so what one operation stores stays when
another one follows.
-/

namespace OfsConvert

/-- The bytes of `i_size` and of `i_links_count`. -/
def sizeFields (g : Globals) (n : ℕ) : Set ℕ :=
  fieldBytes g n iSizeLoOffset 4 ∪ fieldBytes g n iSizeHighOffset 4

/-- The bytes of the link count. -/
def linksField (g : Globals) (n : ℕ) : Set ℕ := fieldBytes g n iLinksCountOffset 2

/-- The bytes of an inode that the conversion updates after it has stored the inode. -/
def updatedBytes (g : Globals) (n : ℕ) : Set ℕ :=
  sizeFields g n ∪ linksField g n ∪ (rootBytes g n ∪ blocksFields g n)

/-- All other bytes of the inode are as they were stored. -/
def HasInode (g : Globals) (m : Mem) (n : ℕ) (inode : Ext4Inode) : Prop :=
  ∀ i < sizeofExt4Inode, inodeAddr g n + i ∉ updatedBytes g n →
    m (inodeAddr g n + i) = inode.bytes.getD i 0

/-- An inode is new: it is stored and marked as used, and its extent tree is empty. -/
structure InodeBuilt (g : Globals) (t : State) (n : ℕ) (inode : Ext4Inode) : Prop where
  place : InodePlace g.sb n
  made : Made t n
  stored : t.mem.read (inodeAddr g n) sizeofExt4Inode = inode.bytes
  bit : inodeBit g t.mem n = true
  extents : inTreeOf t.ext4.registered n = []

/-- A file is built: its inode is stored and marked as used, it has one link and its size, and its
extents are those of the record. -/
structure FileBuilt (g : Globals) (env : Env) (t : State) (n : ℕ) (rec : Record) : Prop where
  place : InodePlace g.sb n
  inode : HasInode g t.mem n (inodeOf env rec.dentry)
  bit : inodeBit g t.mem n = true
  links : linksOf g t.mem n = 1
  size : sizeOf g t.mem n = FatDentry.fileSize rec.dentry
  extents : inTreeOf t.ext4.registered n = extentRanges g n rec.extents

section Fields

variable {g : Globals} {m m' : Mem} {n a : ℕ} {inode : Ext4Inode}

/-- The root of the extent tree is 60 bytes at offset 40. -/
theorem mem_rootBytes : a ∈ rootBytes g n ↔ inodeAddr g n + 40 ≤ a ∧ a < inodeAddr g n + 100 :=
  ⟨rootBytes_bounds, fun h => ⟨h.1, h.2⟩⟩

/-- The block count is stored in two halves. -/
theorem mem_blocksFields : a ∈ blocksFields g n ↔
    inodeAddr g n + 28 ≤ a ∧ a < inodeAddr g n + 32 ∨
      inodeAddr g n + 116 ≤ a ∧ a < inodeAddr g n + 118 := Iff.rfl

/-- The size is stored in two halves. -/
theorem mem_sizeFields : a ∈ sizeFields g n ↔
    inodeAddr g n + 4 ≤ a ∧ a < inodeAddr g n + 8 ∨
      inodeAddr g n + 108 ≤ a ∧ a < inodeAddr g n + 112 := Iff.rfl

/-- The link count is two bytes at offset 26. -/
theorem mem_linksField : a ∈ linksField g n ↔
    inodeAddr g n + 26 ≤ a ∧ a < inodeAddr g n + 28 := Iff.rfl

/-- The bytes of an inode that change behind its creation. -/
theorem mem_updatedBytes : a ∈ updatedBytes g n ↔
    a ∈ sizeFields g n ∨ a ∈ linksField g n ∨ a ∈ rootBytes g n ∨ a ∈ blocksFields g n := by
  rw [updatedBytes, Set.mem_union, Set.mem_union, Set.mem_union, or_assoc]

/-- The fields that are updated are behind the mode, and inside the inode. -/
theorem updatedBytes_bounds (ha : a ∈ updatedBytes g n) :
    inodeAddr g n + 2 ≤ a ∧ a < inodeAddr g n + ext4InodeSize := by
  rw [mem_updatedBytes, mem_sizeFields, mem_linksField, mem_rootBytes, mem_blocksFields] at ha
  unfold ext4InodeSize
  omega

/-- The size and the link count are neither in the tree nor in `i_blocks`. -/
theorem fields_outside (ha : a ∈ sizeFields g n ∨ a ∈ linksField g n) :
    a ∈ inodeBytes g n ∧ inodeAddr g n + 2 ≤ a ∧ a ∉ rootBytes g n ∧ a ∉ blocksFields g n := by
  rw [mem_sizeFields, mem_linksField] at ha
  rw [mem_rootBytes, mem_blocksFields]
  refine ⟨⟨by omega, ?_⟩, by omega, by omega, by omega⟩
  unfold ext4InodeSize
  omega

/-- The link count depends on its own bytes. -/
theorem linksOf_congr (h : ∀ a ∈ linksField g n, m' a = m a) : linksOf g m' n = linksOf g m n :=
  Mem.readLE_congr fun _ hi => h _ ⟨Nat.le_add_right _ _, Nat.add_lt_add_left hi _⟩

/-- The size depends on its own bytes. -/
theorem sizeOf_eq_of_fields (h : ∀ a ∈ sizeFields g n, m' a = m a) :
    sizeOf g m' n = sizeOf g m n := by
  have hlo : inodeField g m' n iSizeLoOffset 4 = inodeField g m n iSizeLoOffset 4 :=
    Mem.readLE_congr fun i hi =>
      h _ (Or.inl ⟨Nat.le_add_right _ _, Nat.add_lt_add_left hi _⟩)
  have hhi : inodeField g m' n iSizeHighOffset 4 = inodeField g m n iSizeHighOffset 4 :=
    Mem.readLE_congr fun i hi =>
      h _ (Or.inr ⟨Nat.le_add_right _ _, Nat.add_lt_add_left hi _⟩)
  rw [sizeOf, sizeOf, hlo, hhi]

/-- What an inode was made with does not depend on the bytes that change later. -/
theorem HasInode.congr (h : HasInode g m n inode)
    (hm : ∀ a ∈ inodeBytes g n, a ∉ updatedBytes g n → m' a = m a) : HasInode g m' n inode := by
  intro i hi hout
  have hin : inodeAddr g n + i ∈ inodeBytes g n := by
    unfold sizeofExt4Inode at hi
    exact ⟨Nat.le_add_right _ _, by unfold ext4InodeSize; omega⟩
  rw [hm _ hin hout]
  exact h i hi hout

/-- An inode that has just been stored. -/
theorem HasInode.of_read (h : m.read (inodeAddr g n) sizeofExt4Inode = inode.bytes) :
    HasInode g m n inode := by
  intro i hi _
  have hlength := length_inode_bytes inode
  rw [← h, List.getD_eq_getElem _ _ (by rw [Mem.length_read]; exact hi), Mem.getElem_read]

/-- The links of an inode that has just been stored. -/
theorem linksOf_of_read (h : m.read (inodeAddr g n) sizeofExt4Inode = inode.bytes)
    (hlinks : inode.iLinksCount < 2 ^ 16) : linksOf g m n = inode.iLinksCount := by
  obtain ⟨-, hpiece, -⟩ := inode.pieces
  rw [linksOf, inodeField_of_read h (by decide), hpiece, leNat_leBytes_of_lt (by omega)]

end Fields

section Building

variable {g : Globals} (hg : Accepted g) {m₀ : Mem} {base : State} {F O R P : List ℕ}
  {X D : Set ℕ} {s t : State} {n d : ℕ} {es : List FatExtent} {r r' : StreamArchiver}
  {E : Halt → State → Prop} {short : Prop}
include hg

omit hg in
/-- The bytes of a field that is updated are quiet. -/
theorem quiet_of_field (hn : InodePlace g.sb n) (hmade : Present X s n) (hd : n ∈ D) {a : ℕ}
    (ha : a ∈ sizeFields g n ∨ a ∈ linksField g n) : QuietByte g X D P O s a := by
  obtain ⟨hin, hmode, hroot, hblocks⟩ := fields_outside ha
  exact QuietByte.field n hn hmade hd hin hmode hroot hblocks

/-- `set_size` stores the size and keeps everything else. -/
theorem setSize_building (h : Building g X m₀ base F O R s) (hn : InodePlace g.sb n)
    (hmade : Present X s n) (hd : n ∈ D) (hP : P ⊆ O ++ R) {size : ℕ} (hsize : size < 2 ^ 64) :
    wp (setSize g n size)
      (fun _ t => Building g X m₀ base F O R t ∧ Work g D P s t ∧ t.ext4 = s.ext4 ∧
        sizeOf g t.mem n = size ∧ ∀ a, a ∉ sizeFields g n → t.mem a = s.mem a) E s := by
  refine wp_mono_ok (setSize_spec hg h.inv.placed hn hsize) ?_
  rintro _ t ⟨htouch, hext4, hvalue⟩
  obtain ⟨hbuilding, hwork⟩ := h.quiet hg hP htouch
    (fun a ha => quiet_of_field hn hmade hd (Or.inl ha)) hext4
  exact ⟨hbuilding, hwork, hext4, hvalue, htouch.mem⟩

/-- `incr_links_count` counts one link more and keeps everything else. -/
theorem incrLinksCount_building (h : Building g X m₀ base F O R s) (hn : InodePlace g.sb n)
    (hmade : Made s n) (hd : n ∈ D) (hP : P ⊆ O ++ R) :
    wp (incrLinksCount g n)
      (fun _ t => Building g X m₀ base F O R t ∧ Work g D P s t ∧ t.ext4 = s.ext4 ∧
        linksOf g t.mem n = u16 (linksOf g s.mem n + 1) ∧
        ∀ a, a ∉ linksField g n → t.mem a = s.mem a) E s := by
  refine wp_mono (wp_and (incrLinksCount_spec (E := E) hg h.inv.placed hn)
    (incrLinksCount_counts (E := E) hg h.inv.placed hn)) ?_ (fun _ _ hend => hend.1)
  rintro _ t ⟨⟨htouch, hext4⟩, hvalue⟩
  obtain ⟨hbuilding, hwork⟩ := h.quiet hg hP htouch
    (fun a ha => quiet_of_field hn (Or.inl hmade) hd (Or.inr ha)) hext4
  exact ⟨hbuilding, hwork, hext4, hvalue, htouch.mem⟩

/-- `set_extents` registers the extents of the stream, in order. -/
theorem registerExtents_building (h : Building g X m₀ base F O (recordedBlocks g es ++ R) s)
    (hreads : Reads g F base.mem sizeofFatExtent (es.map fatExtentBytes) r r')
    (htyped : ∀ e ∈ es, e.Typed) (hclusters : ∀ c ∈ physical es, DataCluster g c)
    (hn : InodePlace g.sb n) (hmade : Made s n) (hd : n ∈ D) (hP : P ⊆ O ++ R) {fuel : ℕ}
    (hfuel : short ∨ allocationFuel g + es.length < fuel) :
    wp (registerExtents g d n fuel r)
      (Within g fun x t => x = r' ∧ Building g X m₀ base F O R t ∧
        Registers g D P n es (segmentReads d (es.map fatExtentBytes)) s t)
      (Within g (SafeStop g base F short)) s := by
  induction fuel generalizing es r s with
  | zero => exact fun _ => h.runsDry (hfuel.resolve_right (Nat.not_lt_zero _))
  | succ fuel ih =>
    rw [registerExtents, wp_bind]
    cases es with
    | nil =>
      refine wp_mono (hreads.done h.agrees) ?_ (fun _ _ hend => hend)
      rintro x t ⟨rfl, rfl⟩ hroomy
      exact ⟨rfl, h.logOnly (LogOnly.logRead s d none), Registers.logRead g D P n s d none⟩
    | cons e es =>
      refine wp_mono (hreads.next h.agrees) ?_ (fun _ _ hend => hend)
      rintro x t ⟨rfl, hne, hread, hrest⟩
      have hlog := LogOnly.logRead s d (some (fatExtentBytes e))
      have hbuilding := h.logOnly hlog
      have hextent : fatExtentAt (s.logRead d (some (fatExtentBytes e))).mem x.1 = e :=
        fatExtentAt_eq (htyped e List.mem_cons_self) (hread _ hbuilding.agrees)
      have hpos : 0 < e.length := (htyped e List.mem_cons_self).positive
      have hcs : ∀ c ∈ e.clusters, DataCluster g c := fun c hc =>
        hclusters c (List.mem_append_left _ hc)
      have hfirst : DataCluster g e.physicalStart := hcs _ (by
        rw [FatExtent.mem_clusters, FatExtent.stop]
        omega)
      rw [recordedBlocks_cons hg es hpos hcs, List.append_assoc] at hbuilding
      rw [List.length_cons] at hfuel
      dsimp only
      rw [if_pos hne, wp_bind, wp_getMem, hextent]
      refine wp_bind_within (fun _ => TreesGrow.registerExtents g d n fuel _) ?_
      refine within_mono (registerExtent_building (D := D) (P := P) O
        (recordedBlocks g es ++ R) hg hbuilding hn (Or.inl hmade) hd ?_ hpos hfirst
        (List.perm_append_comm_assoc _ _ _)
        (List.subset_append_right _ _) (List.Subset.refl O)
        (hfuel.imp_right fun hmuch => by omega)) ?_
      · intro b hb
        rcases List.mem_append.mp (hP hb) with hin | hin
        · exact List.mem_append_left _ hin
        · exact List.mem_append_right _ (List.mem_append_right _ (List.mem_append_right _ hin))
      rintro _ u ⟨hbuilt, hregisters⟩
      have hmade' : Made u n := hmade.mono (hregisters.firstFree.ge)
      refine within_mono (ih hbuilt hrest (fun f hf => htyped f (List.mem_cons_of_mem e hf))
        (fun c hc => hclusters c (List.mem_append_right _ hc)) hmade'
        (hfuel.imp_right fun hmuch => by omega)) ?_
      rintro y v ⟨rfl, hbuilt', hregisters'⟩
      refine ⟨rfl, hbuilt', ?_⟩
      exact ((Registers.logRead g D P n s d (some (fatExtentBytes e))).trans hregisters).trans
        hregisters'

omit hg in
/-- `skip_child_count` reads the number that stands for no children. -/
theorem skipChildCount_building (h : Building g X m₀ base F O R s)
    (hreads : Reads g F base.mem 4 [dummyChildrenCount] r r') {fuel : ℕ}
    (hfuel : short ∨ allocationFuel g ≤ fuel) :
    wp (skipChildCount g d fuel r)
      (fun x t => x = r' ∧ t = s.logSegment d [dummyChildrenCount])
      (SafeStop g base F short) s := by
  refine skipSegment_spec hreads h.agrees ?_
  rcases hfuel with hshort | hfuel
  · exact Or.inr fun _ ht => (h.logOnly ht).runsDry hshort
  · unfold allocationFuel at hfuel
    exact Or.inl (by rw [List.length_singleton]; omega)

end Building

section Files

variable {g : Globals} {m₀ : Mem} {base : State} {F O R P : List ℕ} {X D : Set ℕ}
  {s t : State} {n d : ℕ} {r r' r'' : StreamArchiver} {env : Env} {rec : Record}
  {inode : Ext4Inode} {short : Prop}

/-- Nothing is registered for a number before it is handed out. -/
theorem Building.noRanges (h : Building g X m₀ base F O R s) (hn : ¬ Present X s n) :
    inTreeOf s.ext4.registered n = [] := by
  rw [inTreeOf, List.filter_eq_nil_iff]
  intro r hr
  have hne : r.inodeNo ≠ n := fun heq => hn (heq ▸ h.owners r hr)
  simp [hne]

/-- Work on other inodes keeps a new one. -/
theorem InodeBuilt.work (h : InodeBuilt g s n inode) (hwork : Work g D P s t) (hn : n ∉ D) :
    InodeBuilt g t n inode := by
  have hin : ∀ i < sizeofExt4Inode, inodeAddr g n + i ∈ inodeBytes g n := fun i hi =>
    ⟨Nat.le_add_right _ _, Nat.add_lt_add_left (hi.trans_le (by decide)) _⟩
  refine ⟨h.place, h.made.mono hwork.step.firstFree, ?_, hwork.step.bits n h.place h.bit, ?_⟩
  · rw [← h.stored]
    exact Mem.read_congr fun i hi => hwork.step.inodes n h.place hn _ (hin i hi)
  · rw [hwork.inTreeOf_eq hn]
    exact h.extents

/-- Work on other inodes keeps a file. -/
theorem FileBuilt.work (h : FileBuilt g env s n rec) (hwork : Work g D P s t) (hn : n ∉ D) :
    FileBuilt g env t n rec := by
  have hmem := hwork.step.inodes n h.place hn
  have hin : ∀ a ∈ updatedBytes g n, a ∈ inodeBytes g n := fun a ha => by
    have hbounds := updatedBytes_bounds ha
    exact ⟨(Nat.le_add_right _ _).trans hbounds.1, hbounds.2⟩
  refine ⟨h.place, h.inode.congr fun a ha _ => hmem a ha, hwork.step.bits n h.place h.bit, ?_, ?_, ?_⟩
  · rw [← h.links]
    exact linksOf_congr fun a ha => hmem a (hin a (mem_updatedBytes.mpr (Or.inr (Or.inl ha))))
  · rw [← h.size]
    exact sizeOf_eq_of_fields fun a ha => hmem a (hin a (mem_updatedBytes.mpr (Or.inl ha)))
  · rw [hwork.inTreeOf_eq hn]
    exact h.extents

/-- `build_inode` makes the next inode for a directory entry. -/
theorem buildInode_building (hg : Accepted g) (env : Env) (h : Building g X m₀ base F O R s)
    {p : ℕ} (hp : p ≠ 0) {dentry : FatDentry} (hread : s.mem.read p sizeofFatDentry = dentry)
    (hd : s.ext4.firstFreeInodeNo ∈ D) (hP : P ⊆ O ++ R) :
    wp (buildInode g env p)
      (fun n t => Building g X m₀ base F O R t ∧ Saves g D P (inodeOf env dentry) n s t ∧
        InodeBuilt g t n (inodeOf env dentry))
      (SafeStop g base F short) s := by
  have hdentry : dentryAt s.mem p = dentry := hread
  rw [buildInode, wp_bind, wp_notNull]
  refine ⟨fun heq => absurd heq hp, fun _ => ?_⟩
  rw [wp_bind, wp_getMem, hdentry]
  refine wp_mono_ok (saveInode_building hg h (inodeOf env dentry) (inodeOf_iMode_lt env dentry) rfl
    hd hP) ?_
  rintro n t ⟨hbuilding, hsaves⟩
  have hnot : ¬ Present X s n := by
    obtain ⟨hlow, -⟩ := h.inv.firstFree
    have hnumber := hsaves.number
    rintro (hmade | hreserved)
    · unfold Made ext4RootInode at hmade
      omega
    · have hlt := h.reserved n hreserved
      omega
  have hmade : Made t n := by
    obtain ⟨hlow, -⟩ := h.inv.firstFree
    have hnumber := hsaves.number
    have hff := hsaves.firstFree
    exact Or.inr ⟨by omega, by omega⟩
  refine ⟨hbuilding, hsaves, hsaves.place, hmade, hsaves.stored, hsaves.bit, ?_⟩
  rw [hsaves.registered]
  exact h.noRanges hnot

/-- `set_extents` and `skip_child_count` build a file from its new inode. -/
theorem setExtents_building (hg : Accepted g)
    (h : Building g X m₀ base F O (recordedBlocks g rec.extents ++ R) s)
    (hnew : InodeBuilt g s n (inodeOf env rec.dentry)) (hfile : isDir rec.dentry = false) {p : ℕ}
    (hread : s.mem.read p sizeofFatDentry = rec.dentry)
    (hextents : Reads g F base.mem sizeofFatExtent (rec.extents.map fatExtentBytes) r r')
    (hcount : Reads g F base.mem 4 [dummyChildrenCount] r' r'')
    (htyped : ∀ e ∈ rec.extents, e.Typed) (hclusters : ∀ c ∈ physical rec.extents, DataCluster g c)
    (hd : n ∈ D) (hP : P ⊆ O ++ R) {fuel : ℕ}
    (hfuel : short ∨ allocationFuel g + rec.extents.length < fuel) :
    wp (do
        let r ← setExtents g d fuel n p r
        skipChildCount g d fuel r)
      (Within g fun x t => x = r'' ∧ Building g X m₀ base F O R t ∧ Work g D P s t ∧
        FileBuilt g env t n rec ∧ t.ext4.firstFreeInodeNo = s.ext4.firstFreeInodeNo ∧
        t.ext4.reads = s.ext4.reads ++ segmentReads d (rec.extents.map fatExtentBytes) ++
          segmentReads d [dummyChildrenCount])
      (Within g (SafeStop g base F short)) s := by
  have hdentry : dentryAt s.mem p = rec.dentry := hread
  have hsize : FatDentry.fileSize rec.dentry < 2 ^ 64 := by
    have hlt := leNat_lt ((rec.dentry.drop 28).take 4)
    have hpow := Nat.pow_le_pow_right (n := 256) (by norm_num)
      (List.length_take_le 4 (rec.dentry.drop 28))
    exact hlt.trans_le (hpow.trans (by norm_num))
  have hP' : P ⊆ O ++ (recordedBlocks g rec.extents ++ R) := fun b hb =>
    (List.mem_append.mp (hP hb)).elim (List.mem_append_left _) fun hin =>
      List.mem_append_right _ (List.mem_append_right _ hin)
  refine wp_bind_within (fun _ => TreesGrow.of_keeps (SameTrees.skipSegment _ _ _ _ _)) ?_
  rw [setExtents, wp_bind, wp_getMem, wp_bind, hdentry]
  refine wp_mono (setSize_building (E := fun _ _ => False) hg h hnew.place (Or.inl hnew.made) hd
    hP' hsize)
    ?_ (fun _ _ hend => hend.elim)
  rintro _ t₁ ⟨hbuilding₁, hwork₁, hext4, hvalue, hmem₁⟩
  have hmade : Made t₁ n := by
    rw [Made, hext4]
    exact hnew.made
  refine within_mono (registerExtents_building hg hbuilding₁ hextents htyped hclusters hnew.place
    hmade hd hP hfuel) ?_
  rintro x t₂ ⟨rfl, hbuilding₂, hregisters⟩
  have hwork := hwork₁.trans hregisters.work
  have hbuilt : FileBuilt g env t₂ n rec := by
    refine ⟨hnew.place, (HasInode.of_read hnew.stored).congr fun a ha hout => ?_,
      hwork.step.bits n hnew.place hnew.bit, ?_, ?_, ?_⟩
    · rw [mem_updatedBytes, not_or, not_or, not_or] at hout
      rw [hregisters.fields a ha hout.2.2.1 hout.2.2.2, hmem₁ a hout.1]
    · have hlinks : linksOf g s.mem n = 1 := by
        rw [linksOf_of_read hnew.stored (by unfold inodeOf; dsimp only; split <;> decide)]
        unfold inodeOf
        dsimp only
        rw [hfile, if_neg Bool.false_ne_true]
      rw [← hlinks]
      refine linksOf_congr fun a ha => ?_
      obtain ⟨hin, -, hroot, hblocks⟩ := fields_outside (Or.inr ha)
      rw [hregisters.fields a hin hroot hblocks, hmem₁ a fun hsize => ?_]
      rw [mem_sizeFields] at hsize
      rw [mem_linksField] at ha
      omega
    · rw [← hvalue]
      refine sizeOf_eq_of_fields fun a ha => ?_
      obtain ⟨hin, -, hroot, hblocks⟩ := fields_outside (Or.inl ha)
      exact hregisters.fields a hin hroot hblocks
    · rw [hregisters.tree, hext4, hnew.extents, List.nil_append]
  refine wp_mono (skipChildCount_building hbuilding₂ hcount
    (hfuel.imp_right fun hmuch => by omega)) ?_ (fun _ _ hend _ => hend)
  rintro y t ⟨rfl, rfl⟩ hroomy
  have hlog := LogOnly.logSegment t₂ d [dummyChildrenCount]
  refine ⟨rfl, hbuilding₂.logOnly hlog, hwork.trans (Work.logOnly D P hlog),
    hbuilt.work (Work.logOnly ∅ [] hlog) (Set.notMem_empty n), ?_, ?_⟩
  · rw [hlog.kept.2, hregisters.firstFree, hext4]
  · rw [State.logSegment_reads, hregisters.reads, hext4]

end Files

end OfsConvert
