import OfsConvert.InodeAccounts
import OfsConvert.ExtentRegistration
import OfsConvert.TreeHistory

/-!
# Rules for the second phase

`Building` is what holds between any two calls while the directory tree is built, `Work` bounds what
a part of the run changes. An inode may get more extents than its tree has room for; `Within` speaks
of the runs in which none does.
-/

namespace OfsConvert

/-- No inode has more extents than one leaf of its tree holds. -/
def Roomy (g : Globals) (s : State) : Prop :=
  ∀ n, (inTreeOf s.ext4.registered n).length ≤ maxEntries g

/-- What holds behind the runs in which no inode gets too many extents. -/
def Within {α : Type} (g : Globals) (Q : α → State → Prop) : α → State → Prop :=
  fun a t => Roomy g t → Q a t

/-- The extent that a registration stands for. -/
def Registration.extent (r : Registration) : Ext4Extent where
  eeBlock := r.logicalBlock
  eeLen := r.blocksEnd - r.blocksBegin
  eeStartHi := (setLoHi48 r.blocksBegin).2
  eeStartLo := (setLoHi48 r.blocksBegin).1

/-- The extents that the history shows in the tree of an inode. -/
def treeExtents (s : State) (n : ℕ) : List Ext4Extent :=
  (inTreeOf s.ext4.registered n).map Registration.extent

/-- The inodes that there are: those with numbers that have been handed out, and the reserved ones
of `X`. -/
def Present (X : Set ℕ) (s : State) (n : ℕ) : Prop := Made s n ∨ n ∈ X

/-- The nodes that the history shows below the root in the tree of an inode. -/
def nodesOf (log : List Registration) (n : ℕ) : List Registration :=
  (rangesOf log n).filter fun r => !r.inTree

/-- The history shows a node below the root of a tree exactly if the root is too small. -/
def NodeLaw (g : Globals) (log : List Registration) : Prop :=
  ∀ n, (inTreeOf log n).length ≤ maxEntries g →
    (nodesOf log n).length = if (inTreeOf log n).length ≤ 4 then 0 else 1

/-- What holds between any two calls while the directory tree is built: besides the invariant, the
extent trees are as the history says, only known inodes own ranges, and the places of the other
inodes are untouched. -/
structure Building (g : Globals) (X : Set ℕ) (m₀ : Mem) (base : State) (F O R : List ℕ)
    (s : State) : Prop where
  inv : BuildInv g m₀ base F O R s
  reserved : ∀ n ∈ X, n < 12
  trees : ∀ n, InodePlace g.sb n → Present X s n → Tree g s n (treeExtents s n)
  owners : ∀ r ∈ s.ext4.registered, Present X s r.inodeNo
  blank : ∀ n, InodePlace g.sb n → ¬ Present X s n → Blank g s.mem n
  clear : ∀ n, InodePlace g.sb n → s.ext4.firstFreeInodeNo ≤ n → inodeBit g s.mem n = false
  nodes : NodeLaw g s.ext4.registered

/-- A part of a run that works on the inodes of `D` and keeps the blocks of `P`. -/
structure Work (g : Globals) (D : Set ℕ) (P : List ℕ) (s t : State) : Prop where
  step : Step g D P s t
  ranges : ∀ n, n ∉ D → rangesOf t.ext4.registered n = rangesOf s.ext4.registered n
  ledger : Ledger g s → Ledger g t

section Within

variable {g : Globals} {s t : State} {α β : Type} {x : Prog α} {f : α → Prog β}
  {Q : α → State → Prop} {Q' : β → State → Prop} {E : Halt → State → Prop}

/-- A state that grows into one with room has room itself. -/
theorem TreesGrow.roomy (h : TreesGrow s t) (ht : Roomy g t) : Roomy g s :=
  fun n => (h n).length_le.trans (ht n)

/-- Only runs that start with room matter. -/
theorem wp_within (hx : Keeps TreesGrow x) (h : Roomy g s → wp x (Within g Q) (Within g E) s) :
    wp x (Within g Q) (Within g E) s := by
  by_cases hs : Roomy g s
  · exact h hs
  · exact wp_mono (hx s) (fun _ t ht hroomy => absurd (ht.roomy hroomy) hs)
      fun _ t ht hroomy => absurd (ht.roomy hroomy) hs

/-- A sequence of two parts of which the first one may leave too little room. -/
theorem wp_bind_within (hf : ∀ a, Keeps TreesGrow (f a))
    (h : wp x (Within g fun a t => wp (f a) (Within g Q') (Within g E) t) (Within g E) s) :
    wp (x >>= f) (Within g Q') (Within g E) s := by
  rw [wp_bind]
  refine wp_mono_ok h fun a t ht => ?_
  exact wp_within (hf a) ht

/-- A part that is sure of its outcome. -/
theorem within_of_wp (h : wp x Q E s) : wp x (Within g Q) (Within g E) s :=
  wp_mono h (fun _ _ h _ => h) fun _ _ h _ => h

/-- What follows from the result of a run may replace it. -/
theorem within_mono {P : α → State → Prop} (h : wp x (Within g Q) (Within g E) s)
    (hQ : ∀ a t, Q a t → P a t) : wp x (Within g P) (Within g E) s :=
  wp_mono_ok h fun a t ht hroomy => hQ a t (ht hroomy)

end Within

/-- The ranges in a tree are those of the inode that are in it. -/
theorem inTreeOf_eq_filter (log : List Registration) (n : ℕ) :
    inTreeOf log n = (rangesOf log n).filter fun r => r.inTree := by
  rw [inTreeOf, rangesOf, List.filter_filter]
  congr 1

namespace Work

variable {g : Globals} {D D' : Set ℕ} {P P' : List ℕ} {s t u : State}

/-- A step that does nothing is work. -/
theorem refl (g : Globals) (D : Set ℕ) (P : List ℕ) (s : State) : Work g D P s s :=
  ⟨Step.refl g D P s, fun _ _ => rfl, fun h => h⟩

/-- Pieces of work compose. -/
theorem trans (h : Work g D P s t) (h' : Work g D P t u) : Work g D P s u :=
  ⟨h.step.trans h'.step, fun n hn => (h'.ranges n hn).trans (h.ranges n hn),
    fun hledger => h'.ledger (h.ledger hledger)⟩

/-- Work on fewer inodes and blocks is work on more of them. -/
theorem mono (h : Work g D P s t) (hd : D ⊆ D') (hp : P' ⊆ P) : Work g D' P' s t :=
  ⟨h.step.mono hd hp, fun n hn => h.ranges n fun hin => hn (hd hin), h.ledger⟩

/-- Nothing that matters has changed. -/
theorem of_eq (D : Set ℕ) (P : List ℕ) (hmem : t.mem = s.mem)
    (hregistered : t.ext4.registered = s.ext4.registered)
    (hff : t.ext4.firstFreeInodeNo = s.ext4.firstFreeInodeNo)
    (hdescs : t.ext4.groupDescs = s.ext4.groupDescs) : Work g D P s t := by
  refine ⟨(Step.refl g D P s).of_eq rfl rfl rfl hmem hregistered hff,
    fun n _ => by rw [hregistered], fun h => ⟨?_, ?_, ?_⟩⟩
  · rw [hmem, hdescs]
    exact h.groups
  · rw [hmem, hregistered]
    exact h.bits
  · rw [hmem, hregistered]
    exact h.blocks

/-- The ranges in the tree of an inode that the work is not about. -/
theorem inTreeOf_eq (h : Work g D P s t) {n : ℕ} (hn : n ∉ D) :
    inTreeOf t.ext4.registered n = inTreeOf s.ext4.registered n := by
  rw [inTreeOf_eq_filter, inTreeOf_eq_filter, h.ranges n hn]

end Work

section Quiet

/-- A byte that a store may change without anything following from it: of an open block, or of a
field of an inode that is neither its mode nor `i_blocks` nor its tree. -/
inductive QuietByte (g : Globals) (X D : Set ℕ) (P O : List ℕ) (s : State) (a : ℕ) : Prop where
  | opened (b : ℕ) (hb : b ∈ O) (hkept : b ∉ P) (hin : InBlock g b a)
  | field (n : ℕ) (hn : InodePlace g.sb n) (hmade : Present X s n) (hd : n ∈ D)
      (hin : a ∈ inodeBytes g n) (hmode : inodeAddr g n + 2 ≤ a) (hroot : a ∉ rootBytes g n)
      (hblocks : a ∉ blocksFields g n)

variable {g : Globals} (hg : Accepted g) {m₀ : Mem} {base : State} {F O R O' R' P : List ℕ}
  {X D : Set ℕ} {s t : State} {n a : ℕ}

/-- A data block shares no byte with a metadata block. -/
theorem DataBlock.not_inBlock {b c : ℕ} (hb : DataBlock g b) (hba : InBlock g b a)
    (hc : MetaBlock g c) : ¬ InBlock g c a := by
  intro hca
  obtain rfl := inBlock_unique hba hca
  exact hb.outside hc

include hg

/-- A quiet byte of an inode is in one of its free fields. -/
theorem QuietByte.of_inode (h : QuietByte g X D P O s a) (hopen : ∀ b ∈ O, DataBlock g b)
    (hn : InodePlace g.sb n) (hin : a ∈ inodeBytes g n) :
    Present X s n ∧ n ∈ D ∧ inodeAddr g n + 2 ≤ a ∧ a ∉ rootBytes g n ∧ a ∉ blocksFields g n := by
  cases h with
  | opened b hb hkept hba =>
    obtain ⟨c, hc, -, hca⟩ := hg.inodeAddr_inPrefix hn hin.1 hin.2
    exact absurd hca ((hopen b hb).not_inBlock hba ⟨_, hn.group, hc⟩)
  | field k hk hmade hd hka hmode hroot hblocks =>
    obtain rfl := hg.inodeAddr_unique hn hk hin hka
    exact ⟨hmade, hd, hmode, hroot, hblocks⟩

/-- No byte of a bitmap is quiet. -/
theorem QuietByte.not_bitmap (h : QuietByte g X D P O s a) (hopen : ∀ b ∈ O, DataBlock g b) {i : ℕ}
    (hi : i < blockGroupCount g.sb) (hlow : blockBitmapAddr g i ≤ a) : inodeTableAddr g i ≤ a := by
  cases h with
  | opened b hb hkept hba =>
    by_contra hhigh
    obtain ⟨c, hc, -, hca⟩ := hg.bitmap_inPrefix hi hlow (Nat.not_le.mp hhigh)
    exact (hopen b hb).not_inBlock hba ⟨i, hi, hc⟩ hca
  | field k hk hmade hd hka hmode hroot hblocks => exact hg.inode_behind_bitmaps hk hka hi hlow

/-- A quiet byte of a data block is in an open block. -/
theorem QuietByte.of_data (h : QuietByte g X D P O s a) {b : ℕ} (hb : DataBlock g b)
    (hba : InBlock g b a) : b ∈ O ∧ b ∉ P := by
  cases h with
  | opened c hc hkept hca =>
    obtain rfl := inBlock_unique hba hca
    exact ⟨hc, hkept⟩
  | field k hk hmade hd hka hmode hroot hblocks =>
    obtain ⟨c, hc, -, hca⟩ := hg.inodeAddr_inPrefix hk hka.1 hka.2
    exact absurd hca (hb.not_inBlock hba ⟨_, hk.group, hc⟩)

omit hg in
/-- A quiet byte may be written. -/
theorem QuietByte.own (h : QuietByte g X D P O s a) : OwnByte g D P O s a := by
  cases h with
  | opened b hb hkept hba => exact OwnByte.opened b hb hkept hba
  | field k hk hmade hd hka hmode hroot hblocks =>
    exact OwnByte.inode k hk hd hka fun _ => hmode

/-- Quiet stores keep everything. -/
theorem Building.quiet (h : Building g X m₀ base F O R s) (hP : P ⊆ O ++ R) {A : Set ℕ}
    (ht : Touches A s t) (hA : ∀ a ∈ A, QuietByte g X D P O s a) (hext4 : t.ext4 = s.ext4) :
    Building g X m₀ base F O R t ∧ Work g D P s t := by
  have hopen : ∀ b ∈ O, DataBlock g b := fun b hb => h.inv.open_data hb
  have hmem : ∀ a, ¬ QuietByte g X D P O s a → t.mem a = s.mem a :=
    fun a ha => ht.mem a fun hin => ha (hA a hin)
  have hbitmaps : ∀ i < blockGroupCount g.sb, ∀ a, blockBitmapAddr g i ≤ a →
      a < inodeTableAddr g i → t.mem a = s.mem a := fun i hi a hlow hhigh =>
    hmem a fun hq => absurd (hq.not_bitmap hg hopen hi hlow) (Nat.not_le.mpr hhigh)
  have hbits : ∀ n, InodePlace g.sb n → inodeBit g t.mem n = inodeBit g s.mem n := by
    intro n hn
    have hlow := (inodeBitmapAddr_le g (inodeGroup g.sb n)).1
    exact bitAt_congr (hbitmaps _ hn.group _ (by omega) (hg.inodeBit_place hn))
  have hmade : ∀ n, Present X t n ↔ Present X s n := fun n => by
    rw [Present, Present, Made, Made, hext4]
  obtain ⟨hinv, hstep⟩ := h.inv.own hg hP ht (fun a ha => (hA a ha).own)
    (by rw [hext4]; exact h.inv.placed) (by rw [hext4])
    (by rw [hext4]; exact ⟨le_rfl, h.inv.firstFree.2⟩) fun n hn hbit => by rwa [hbits n hn]
  refine ⟨⟨hinv, h.reserved, fun n hn hm => ?_, ?_, fun n hn hm a ha => ?_, fun n hn hff => ?_,
    hext4 ▸ h.nodes⟩, ⟨hstep, fun n _ => by rw [hext4], fun hledger => ?_⟩⟩
  · have htree := h.trees n hn ((hmade n).mp hm)
    have heq : treeExtents t n = treeExtents s n := by rw [treeExtents, treeExtents, hext4]
    rw [heq]
    intro hlength
    obtain ⟨leaf, hat, hleaf⟩ := htree hlength
    refine ⟨leaf, hat.congr hg (fun a ha => hmem a fun hq => ?_) fun b hb a ha =>
      hmem a fun hq => ?_, fun b hb => ?_⟩
    · exact (hq.of_inode hg hopen hn (rootBytes_subset ha)).2.2.2.1 ha
    · obtain ⟨-, r, hr, -, -, hblocks⟩ := hleaf b hb
      have hreg : b ∈ r.blocks := by
        rw [hblocks]
        exact List.mem_singleton_self b
      have hopened := (hq.of_data hg (h.inv.registered_data hr hreg) ha).1
      exact (List.nodup_append.mp h.inv.nodup).2.2 b (mem_registeredBlocks.mpr ⟨r, hr, hreg⟩) b
        (List.mem_append_left R hopened) rfl
    · obtain ⟨hmany, r, hr, hrest⟩ := hleaf b hb
      exact ⟨hmany, r, by rw [hext4]; exact hr, hrest⟩
  · intro r hr
    rw [hext4] at hr
    exact (hmade _).mpr (h.owners r hr)
  · rw [hmem a fun hq => hm ((hmade n).mpr (hq.of_inode hg hopen hn ha).1)]
    exact h.blank n hn (fun hold => hm ((hmade n).mpr hold)) a ha
  · rw [hbits n hn]
    exact h.clear n hn (by rwa [hext4] at hff)
  · refine hledger.congr hg h.inv.placed (by rw [hext4]) (by rw [hext4]) hbitmaps fun n hn =>
      ⟨modeOf_congr fun a hlow hhigh => hmem a fun hq => ?_,
        blocksOf_congr fun a ha => hmem a fun hq => ?_⟩
    · have := (hq.of_inode hg hopen hn (modeBytes_subset hlow hhigh)).2.2.1
      omega
    · exact (hq.of_inode hg hopen hn (blocksFields_subset ha)).2.2.2.2 ha

omit hg in
/-- What is built is about the memory, the history and the invariant. -/
theorem Building.transfer (h : Building g X m₀ base F O R s) (hinv : BuildInv g m₀ base F O' R' t)
    (hmem : t.mem = s.mem) (hregistered : t.ext4.registered = s.ext4.registered)
    (hff : t.ext4.firstFreeInodeNo = s.ext4.firstFreeInodeNo) :
    Building g X m₀ base F O' R' t := by
  have hmade : ∀ n, Present X t n ↔ Present X s n := fun n => by
    rw [Present, Present, Made, Made, hff]
  refine ⟨hinv, h.reserved, fun n hn hm => ?_, fun r hr => ?_, fun n hn hm => ?_,
    fun n hn hle => ?_, hregistered ▸ h.nodes⟩
  · have heq : treeExtents t n = treeExtents s n := by rw [treeExtents, treeExtents, hregistered]
    rw [heq]
    intro hlength
    obtain ⟨leaf, hat, hleaf⟩ := h.trees n hn ((hmade n).mp hm) hlength
    refine ⟨leaf, by rw [hmem]; exact hat, fun b hb => ?_⟩
    obtain ⟨hmany, r, hr, hrest⟩ := hleaf b hb
    exact ⟨hmany, r, by rw [hregistered]; exact hr, hrest⟩
  · rw [hregistered] at hr
    exact (hmade _).mpr (h.owners r hr)
  · rw [hmem]
    exact h.blank n hn fun hold => hm ((hmade n).mpr hold)
  · rw [hmem]
    rw [hff] at hle
    exact h.clear n hn hle

end Quiet

/-- The fuel with which every allocation ends. -/
def allocationFuel (g : Globals) : ℕ := ((metaExtents g).length + 2) * 2 ^ 32 + 2

/-- The fuel with which every loop of the second phase ends; the segments of the stream are counted
with 64 bits. -/
def loopFuel (g : Globals) : ℕ := allocationFuel g + 2 ^ 64

/-- How a run of the second phase may stop: the history shows nothing wrong, no null pointer is
followed, and unless the fuel is too `short` no cluster or no inode is left. -/
def SafeStop (g : Globals) (base : State) (F : List ℕ) (short : Prop) (cause : Halt) (t : State) :
    Prop :=
  BuildStop g base F cause t ∧ cause ≠ .fault ∧
    (short ∨ cause = .exit fsIsFullMessage ∨ cause = .exit notEnoughInodesMessage)

section Rules

variable {g : Globals} {m₀ : Mem} {base : State} {F O R O' R' P : List ℕ} {X D : Set ℕ}
  {s t : State} {n b : ℕ} {short : Prop}

/-- Only the log of the reads differs. -/
theorem LogOnly.kept (h : LogOnly s t) : t.ext4.registered = s.ext4.registered ∧
    t.ext4.firstFreeInodeNo = s.ext4.firstFreeInodeNo := by
  obtain ⟨log, rfl⟩ := h
  exact ⟨rfl, rfl⟩

/-- Reading from the stream changes nothing that matters. -/
theorem BuildInv.logOnly (h : BuildInv g m₀ base F O R s) (hst : LogOnly s t) :
    BuildInv g m₀ base F O R t := by
  obtain ⟨log, rfl⟩ := hst
  exact ⟨h.alloc.congr rfl rfl, h.placed, h.nodup, h.data, h.taken, h.foreign, h.firstFree,
    h.log.nodup, h.log.data, h.log.stores, h.log.foreign⟩

/-- The building state does not depend on the log of the reads. -/
theorem Building.logOnly (h : Building g X m₀ base F O R s) (hst : LogOnly s t) :
    Building g X m₀ base F O R t := by
  have hinv := h.inv.logOnly hst
  obtain ⟨log, rfl⟩ := hst
  exact h.transfer hinv rfl rfl rfl

/-- Writing to the log is no work on the partition. -/
theorem Work.logOnly (D : Set ℕ) (P : List ℕ) (hst : LogOnly s t) : Work g D P s t := by
  obtain ⟨log, rfl⟩ := hst
  exact Work.of_eq D P rfl rfl rfl rfl

/-- Registrations that are owed no longer may be dropped. -/
theorem Building.weaken (h : Building g X m₀ base F O R s) (hsub : R'.Sublist R) :
    Building g X m₀ base F O R' s := h.transfer (h.inv.weaken hsub) rfl rfl rfl

/-- The order in which registrations are owed does not matter. -/
theorem Building.perm (h : Building g X m₀ base F O R s) (hp : R'.Perm R) :
    Building g X m₀ base F O R' s := h.transfer (h.inv.perm hp) rfl rfl rfl

/-- A block that is owed may be opened where it is not kept. -/
theorem Building.openBlock (h : Building g X m₀ base F O (b :: R) s) (hf : b ∉ F) :
    Building g X m₀ base F (b :: O) R s := h.transfer (h.inv.openBlock hf) rfl rfl rfl

/-- The blocks of `F` are as they were. -/
theorem Building.agrees (h : Building g X m₀ base F O R s) :
    ∀ b ∈ F, ∀ a, InBlock g b a → s.mem a = base.mem a := h.inv.log.foreign

/-- Running out of fuel is the way in which a run stops that is too short. -/
theorem Building.runsDry (h : Building g X m₀ base F O R s) (hshort : short) :
    SafeStop g base F short .fuel s := ⟨h.inv.stop .fuel, Halt.noConfusion, Or.inl hshort⟩

/-- With enough fuel an allocation stops only when the volume is full. -/
theorem allocateBlock_stops (hg : Accepted g) (h : BuildInv g m₀ base F O R s) {fuel : ℕ}
    (hfuel : short ∨ allocationFuel g ≤ fuel) :
    wp (allocateExtent fuel 1)
      (fun e t => BuildInv g m₀ base F
          (fatClToE4blk g.bootSector g.metaInfo e.physicalStart :: O) R t ∧
        AllocOnly s t ∧ e = ⟨0, 1, e.physicalStart⟩ ∧ DataCluster g e.physicalStart)
      (SafeStop g base F short) s := by
  have hfault := allocateExtent_spec hg.blockedExtents le_rfl (by norm_num) fuel h.alloc
  rcases hfuel with hshort | hfuel
  · exact wp_mono (wp_and (allocateBlock_spec hg h fuel) hfault) (fun _ _ hend => hend.1)
      fun cause t hend => ⟨hend.1, hend.2.1, Or.inl hshort⟩
  · have hroom := cursorRoom_le s
    rw [h.alloc.count] at hroom
    unfold allocationFuel at hfuel
    have hends := allocateExtent_room (h.alloc.startsBounded hg.blockedExtents) fuel 1
      (by omega) (by norm_num)
    refine wp_mono (wp_and (allocateBlock_spec hg h fuel) (wp_and hfault hends))
      (fun _ _ hend => hend.1) ?_
    rintro cause t ⟨hstop, ⟨hno, -⟩, hwithin⟩
    exact ⟨hstop, hno, Or.inr (Or.inl (hwithin.resolve_left hno))⟩

/-- An allocated block may be filled. -/
theorem allocateBlock_building (hg : Accepted g) (h : Building g X m₀ base F O R s) {fuel : ℕ}
    (hfuel : short ∨ allocationFuel g ≤ fuel) :
    wp (allocateExtent fuel 1)
      (fun e t => Building g X m₀ base F
          (fatClToE4blk g.bootSector g.metaInfo e.physicalStart :: O) R t ∧ AllocOnly s t ∧
        e = ⟨0, 1, e.physicalStart⟩ ∧ DataCluster g e.physicalStart)
      (SafeStop g base F short) s := by
  refine wp_mono_ok (allocateBlock_stops hg h.inv hfuel) ?_
  rintro e t ⟨hinv, honly, hrest⟩
  exact ⟨h.transfer hinv honly.mem (by rw [honly.ext4]) (by rw [honly.ext4]), honly, hrest⟩

/-- The allocator does no work on the partition. -/
theorem Work.allocOnly (D : Set ℕ) (P : List ℕ) (hst : AllocOnly s t) : Work g D P s t :=
  Work.of_eq D P hst.mem (by rw [hst.ext4]) (by rw [hst.ext4]) (by rw [hst.ext4])

/-- The blocks of the clusters of some extents. -/
def recordedBlocks (g : Globals) (es : List FatExtent) : List ℕ :=
  (physical es).map (fatClToE4blk g.bootSector g.metaInfo)

/-- The blocks recorded by two lists of extents are those of each. -/
theorem recordedBlocks_append (es es' : List FatExtent) :
    recordedBlocks g (es ++ es') = recordedBlocks g es ++ recordedBlocks g es' := by
  rw [recordedBlocks, physical, List.flatMap_append, List.map_append]
  rfl

/-- The blocks of consecutive clusters are consecutive. -/
theorem Accepted.map_range' (hg : Accepted g) {c k : ℕ}
    (h : ∀ x ∈ List.range' c k, DataCluster g x) :
    (List.range' c k).map (fatClToE4blk g.bootSector g.metaInfo) =
      List.range' (fatClToE4blk g.bootSector g.metaInfo c) k := by
  induction k generalizing c with
  | zero => rfl
  | succ k ih =>
    rw [List.range'_succ] at h ⊢
    have hc := h c List.mem_cons_self
    rw [List.map_cons, ih fun x hx => h x (List.mem_cons_of_mem c hx), List.range'_succ]
    cases k with
    | zero => rfl
    | succ k =>
      have hnext := h (c + 1) (List.mem_cons_of_mem c (by simp))
      have hlow := hc.1
      rw [hg.fatClToE4blk_eq hc.1 hc.2.le, hg.fatClToE4blk_eq hnext.1 hnext.2.le]
      congr 2
      unfold fatStartIndex at hlow
      omega

/-- The blocks that are registered for an extent. -/
theorem recordedBlocks_cons (hg : Accepted g) {e : FatExtent} (es : List FatExtent)
    (hpos : 0 < e.length) (h : ∀ c ∈ e.clusters, DataCluster g c) :
    recordedBlocks g (e :: es) =
      List.range' (toExt4Extent g e).start (toExt4Extent g e).eeLen ++ recordedBlocks g es := by
  have hfirst : DataCluster g e.physicalStart := h _ (by
    rw [FatExtent.mem_clusters, FatExtent.stop]
    omega)
  rw [recordedBlocks, physical, List.flatMap_cons, List.map_append, FatExtent.clusters,
    hg.map_range' h, hg.toExt4Extent_start hfirst]
  rfl

/-- A registered extent reads back from the history. -/
theorem registrationOf_extent (hg : Accepted g) {fext : FatExtent}
    (hc : DataCluster g fext.physicalStart) (n : ℕ) :
    (registrationOf (toExt4Extent g fext) n true).extent = toExt4Extent g fext := by
  have hstart := hg.toExt4Extent_start hc
  rw [registrationOf, Registration.extent, Nat.add_sub_cancel_left, hstart]
  rfl

/-- The ranges that `register_extent` registers for some extents of an inode. -/
def extentRanges (g : Globals) (n : ℕ) (es : List FatExtent) : List Registration :=
  es.map fun e => registrationOf (toExt4Extent g e) n true

/-- The ranges of two lists of extents are those of each. -/
theorem extentRanges_append (n : ℕ) (es es' : List FatExtent) :
    extentRanges g n (es ++ es') = extentRanges g n es ++ extentRanges g n es' := List.map_append

/-- What registering extents of an inode does besides keeping the invariant, with what is read from
the stream. -/
structure Registers (g : Globals) (D : Set ℕ) (P : List ℕ) (n : ℕ) (es : List FatExtent)
    (log : List StreamRead) (s t : State) : Prop where
  work : Work g D P s t
  tree : inTreeOf t.ext4.registered n = inTreeOf s.ext4.registered n ++ extentRanges g n es
  reads : t.ext4.reads = s.ext4.reads ++ log
  firstFree : t.ext4.firstFreeInodeNo = s.ext4.firstFreeInodeNo
  fields : ∀ a ∈ inodeBytes g n, a ∉ rootBytes g n → a ∉ blocksFields g n → t.mem a = s.mem a

/-- Registering one list of extents and then another registers both. -/
theorem Registers.trans {es es' : List FatExtent} {log log' : List StreamRead} {u : State}
    (h : Registers g D P n es log s t) (h' : Registers g D P n es' log' t u) :
    Registers g D P n (es ++ es') (log ++ log') s u := by
  refine ⟨h.work.trans h'.work, ?_, ?_, h'.firstFree.trans h.firstFree,
    fun a ha hroot hblocks => (h'.fields a ha hroot hblocks).trans (h.fields a ha hroot hblocks)⟩
  · rw [h'.tree, h.tree, List.append_assoc, extentRanges_append]
  · rw [h'.reads, h.reads, List.append_assoc]

/-- A call on the stream registers nothing. -/
theorem Registers.logRead (g : Globals) (D : Set ℕ) (P : List ℕ) (n : ℕ) (s : State) (d : ℕ)
    (x : Option (List UInt8)) : Registers g D P n [] [⟨d, x⟩] s (s.logRead d x) :=
  ⟨Work.logOnly D P (LogOnly.logRead s d x), (List.append_nil _).symm, rfl, rfl,
    fun _ _ _ _ => rfl⟩

/-- The tree's part of a longer log is that of each part. -/
theorem inTreeOf_append (log log' : List Registration) (n : ℕ) :
    inTreeOf (log ++ log') n = inTreeOf log n ++ inTreeOf log' n := List.filter_append log log'

/-- The nodes of an inode are the registrations for it outside its extents. -/
theorem mem_nodesOf {log : List Registration} {r : Registration} :
    r ∈ nodesOf log n ↔ r ∈ log ∧ r.inTree = false ∧ r.inodeNo = n := by
  simp [nodesOf, rangesOf]

/-- The history behind `register_extent`, for its inode and for the others. -/
theorem registered_append (log : List Registration) {nodes : List Registration} (e : Ext4Extent)
    (hnodes : ∀ r ∈ nodes, r.inTree = false ∧ r.inodeNo = n) :
    inTreeOf (log ++ (nodes ++ [registrationOf e n true])) n =
        inTreeOf log n ++ [registrationOf e n true] ∧
      nodesOf (log ++ (nodes ++ [registrationOf e n true])) n = nodesOf log n ++ nodes ∧
      ∀ k, k ≠ n → rangesOf (log ++ (nodes ++ [registrationOf e n true])) k = rangesOf log k := by
  have hnone : inTreeOf nodes n = [] := by
    rw [inTreeOf, List.filter_eq_nil_iff]
    intro r hr
    rw [(hnodes r hr).1]
    exact Bool.false_ne_true
  have hone : inTreeOf [registrationOf e n true] n = [registrationOf e n true] :=
    List.filter_cons_of_pos (by simp [registrationOf])
  have hranges : rangesOf nodes n = nodes :=
    List.filter_eq_self.mpr fun r hr => decide_eq_true (hnodes r hr).2
  have hall : nodes.filter (fun r => !r.inTree) = nodes :=
    List.filter_eq_self.mpr fun r hr => by rw [(hnodes r hr).1, Bool.not_false]
  refine ⟨?_, ?_, fun k hk => ?_⟩
  · rw [inTreeOf_append, inTreeOf_append, hnone, hone, List.nil_append]
  · have hlast : nodesOf [registrationOf e n true] n = [] := by
      simp [nodesOf, rangesOf, registrationOf]
    rw [nodesOf] at hlast
    rw [nodesOf, rangesOf_append, rangesOf_append, List.filter_append, List.filter_append, hranges,
      hall, hlast, List.append_nil, nodesOf]
  · have hothers : rangesOf (nodes ++ [registrationOf e n true]) k = [] := by
      rw [rangesOf, List.filter_eq_nil_iff]
      intro r hr
      have hown : r.inodeNo = n := by
        rcases List.mem_append.mp hr with hr | hr
        · exact (hnodes r hr).2
        · rw [List.mem_singleton.mp hr]
          rfl
      rw [decide_eq_true_eq, hown]
      exact Ne.symm hk
    rw [rangesOf_append, hothers, List.append_nil]

/-- The number of nodes stays right. -/
theorem NodeLaw.append {log nodes : List Registration} (h : NodeLaw g log) (e : Ext4Extent)
    (hnodes : ∀ r ∈ nodes, r.inTree = false ∧ r.inodeNo = n)
    (hcount : nodes.length = if (inTreeOf log n).length = 4 then 1 else 0) :
    NodeLaw g (log ++ (nodes ++ [registrationOf e n true])) := by
  intro k hk
  obtain ⟨htree, hall, hothers⟩ := registered_append log e hnodes
  by_cases hkn : k = n
  · subst hkn
    rw [htree, List.length_append, List.length_singleton] at hk ⊢
    have hlaw := h k (by omega)
    rw [hall, List.length_append, hlaw, hcount]
    split_ifs <;> omega
  · rw [inTreeOf_eq_filter, hothers k hkn, ← inTreeOf_eq_filter] at hk ⊢
    rw [nodesOf, hothers k hkn, ← nodesOf]
    exact h k hk

/-- `add_extent` registers a node exactly if the root has been full. -/
theorem addExtent_nodes (hg : Accepted g) (h : BuildInv g m₀ base F O R s)
    (hn : InodePlace g.sb n) {es : List Ext4Extent} (htree : Tree g s n es)
    (hlength : es.length ≤ maxEntries g)
    (hnone : es.length ≤ 4 → nodesOf s.ext4.registered n = []) (e : Ext4Extent) (fuel : ℕ) :
    wp (addExtent g fuel e n (inodeAddr g n))
      (fun _ t => ∃ nodes : List Registration,
        t.ext4.registered = s.ext4.registered ++ nodes ∧
        nodes.length = if es.length = 4 then 1 else 0) (fun _ _ => True) s := by
  obtain ⟨hmax, -, hmax', -⟩ := hg.maxEntries_eq
  have hsize := hg.blockSize_ge
  obtain ⟨leaf, hat, hleaf⟩ := htree hlength
  simp only [addExtent, wp_bind]
  refine wp_mono_ok (appendToExtentTree_spec (D := {n}) (P := []) hg h hn rfl (List.nil_subset _)
    hat (fun b hb => (hleaf b hb).2) hlength fuel fun _ => trivial) ?_
  intro ok t ht
  rcases ht with ⟨rfl, hstep, hgrown⟩ | ⟨rfl, rfl, hfour, hroot⟩
  · rw [if_pos rfl, wp_pure]
    refine ⟨[], hstep.registered, ?_⟩
    rw [if_neg, List.length_nil]
    intro hfour
    -- five extents need a node, and none has been registered
    obtain ⟨leaf', hat', hleaf'⟩ := hgrown.grown (by
      rw [List.length_append, List.length_singleton]
      omega)
    cases leaf' with
    | none =>
      have hfits := NodeAt.fits hat'
      rw [List.length_append, List.length_singleton] at hfits
      omega
    | some b =>
      obtain ⟨-, r, hr, hnode, hown, -⟩ := hleaf' b rfl
      rw [hstep.registered, List.append_nil] at hr
      have hin := mem_nodesOf.mpr ⟨hr, hnode, hown⟩
      rw [hnone hfour.le] at hin
      exact absurd hin List.not_mem_nil
  · rw [if_neg (by decide), wp_bind]
    refine wp_mono_ok (makeTreeDeeper_spec (D := {n}) (P := []) hg h hn rfl (List.nil_subset _)
      hroot hfour fuel (wp_mono (allocateBlock_spec hg h fuel) (fun _ _ _ => trivial)
        fun _ _ _ => trivial)) ?_
    intro _ u hu
    obtain ⟨b, hstep, hdata, hindex, hnode⟩ := hu
    have hblock : ∀ c, some b = some c → NodeBlock u n c := by
      intro c hc
      obtain rfl := Option.some.inj hc
      refine ⟨⟨n, 0, b, b + 1, false⟩, ?_, rfl, rfl, ?_⟩
      · rw [hstep.registered]
        exact List.mem_append_right _ (List.mem_singleton_self _)
      · rw [Registration.blocks, Nat.add_sub_cancel_left, List.range'_one]
    have hat' : TreeAt g u.mem n es (some b) := ⟨hindex, hfour.ge, hnode⟩
    rw [wp_bind]
    refine wp_mono_ok (appendToExtentTree_spec (D := {n}) (P := []) hg hstep.inv hn rfl
      (List.nil_subset _) hat' hblock hlength fuel fun _ => trivial) ?_
    intro ok v hv
    rw [wp_pure, if_pos hfour]
    refine ⟨[⟨n, 0, b, b + 1, false⟩], ?_, rfl⟩
    rcases hv with ⟨-, hstep', -⟩ | ⟨-, rfl, -, -⟩
    · rw [hstep'.registered, hstep.registered, List.append_nil]
    · exact hstep.registered

/-- `register_extent` with the number of nodes that it registers. -/
theorem registerExtent_grows (hg : Accepted g) (h : BuildInv g m₀ base F O R s)
    (hn : InodePlace g.sb n) (hP : P ⊆ O ++ R) {es : List Ext4Extent} (htree : Tree g s n es)
    (hlength : es.length ≤ maxEntries g)
    (hnone : es.length ≤ 4 → nodesOf s.ext4.registered n = []) {fext : FatExtent}
    (hpos : 0 < (toExt4Extent g fext).eeLen)
    (hperm : (List.range' (toExt4Extent g fext).start (toExt4Extent g fext).eeLen ++
      (O' ++ R')).Perm (O ++ R))
    (hopen : O ⊆ List.range' (toExt4Extent g fext).start (toExt4Extent g fext).eeLen ++ O')
    (hsub : O' ⊆ O) {fuel : ℕ} (hfuel : short ∨ allocationFuel g ≤ fuel) :
    wp (registerExtent g fuel fext n)
      (fun _ t => ∃ nodes, (∀ r ∈ nodes, r.inTree = false ∧ r.inodeNo = n) ∧
        nodes.length = (if es.length = 4 then 1 else 0) ∧
        TreeStep g m₀ base F O' R' {n} P n
          (nodes ++ [registrationOf (toExt4Extent g fext) n true]) s t ∧
        TreeGrown g t n es (toExt4Extent g fext)) (SafeStop g base F short) s := by
  have hdry : fuel < 2 → ∀ t, BuildInv g m₀ base F O R t → SafeStop g base F short .fuel t := by
    intro hfew t ht
    refine ⟨ht.stop .fuel, Halt.noConfusion, Or.inl (hfuel.resolve_right fun hle => ?_)⟩
    unfold allocationFuel at hle
    omega
  simp only [registerExtent, wp_bind]
  refine getExistingInode_spec hg h.placed hn ?_
  refine wp_mono (wp_and (addExtent_spec (D := {n}) hg h hn rfl hP htree hlength fuel hdry fun _ =>
    wp_mono (allocateBlock_stops hg h hfuel) (fun _ _ _ => trivial) fun _ _ hend => hend)
    (addExtent_nodes hg h hn htree hlength hnone _ fuel)) ?_ (fun _ _ hend => hend.1)
  rintro _ t ⟨⟨nodes, hnodes, hstep, hgrown⟩, nodes', hregistered, hcount⟩
  rw [hstep.registered, List.append_cancel_left_eq] at hregistered
  subst hregistered
  refine wp_mono_ok (accountExtent_treeStep (D := {n}) hg hstep.inv hn rfl hP hpos true hperm hopen
    hsub (fun h => Bool.noConfusion h)) ?_
  rintro _ u ⟨hstep', hmem⟩
  exact ⟨nodes, hnodes, hcount, hstep.trans hstep',
    hgrown.congr hg hstep.inv (by rw [hstep'.registered]; exact List.prefix_append _ _) hmem⟩

/-- `register_extent` takes the blocks of an extent from their owner. -/
theorem registerExtent_building (O' R' : List ℕ) (hg : Accepted g)
    (h : Building g X m₀ base F O R s) (hn : InodePlace g.sb n) (hmade : Present X s n) (hd : n ∈ D)
    (hP : P ⊆ O ++ R) {fext : FatExtent} (hpos : 0 < fext.length)
    (hc : DataCluster g fext.physicalStart)
    (hperm : (List.range' (toExt4Extent g fext).start (toExt4Extent g fext).eeLen ++
      (O' ++ R')).Perm (O ++ R))
    (hopen : O ⊆ List.range' (toExt4Extent g fext).start (toExt4Extent g fext).eeLen ++ O')
    (hsub : O' ⊆ O) {fuel : ℕ} (hfuel : short ∨ allocationFuel g ≤ fuel) :
    wp (registerExtent g fuel fext n)
      (Within g fun _ t => Building g X m₀ base F O' R' t ∧ Registers g D P n [fext] [] s t)
      (Within g (SafeStop g base F short)) s := by
  refine wp_within (TreesGrow.registerExtent g fuel fext n) fun hroomy => within_of_wp ?_
  have hlength : (treeExtents s n).length ≤ maxEntries g := by
    rw [treeExtents, List.length_map]
    exact hroomy n
  have hnone : (treeExtents s n).length ≤ 4 → nodesOf s.ext4.registered n = [] := by
    intro hfew
    have hlaw := h.nodes n (hroomy n)
    rw [treeExtents, List.length_map] at hfew
    rwa [if_pos hfew, List.length_eq_zero_iff] at hlaw
  refine wp_mono_ok (registerExtent_grows (P := P) hg h.inv hn hP (h.trees n hn hmade) hlength hnone
    hpos hperm hopen hsub hfuel) ?_
  rintro _ t ⟨nodes, hnodes, hcount, hstep, hgrown⟩
  have hmade' : ∀ k, Present X t k ↔ Present X s k := fun k => by
    rw [Present, Present, Made, Made, hstep.firstFree]
  obtain ⟨htree, -, hothers⟩ := registered_append s.ext4.registered
    (toExt4Extent g fext) hnodes
  rw [← hstep.registered] at htree hothers
  have hwork : Work g {n} P s t := ⟨hstep.step, hothers, hstep.ledger⟩
  refine ⟨⟨hstep.inv, h.reserved, fun k hk hm => ?_, fun r hr => ?_, fun k hk hm a ha => ?_,
    fun k hk hle => ?_, ?_⟩, hwork.mono (Set.singleton_subset_iff.mpr hd) (List.Subset.refl P), htree,
    by rw [hstep.reads, List.append_nil], hstep.firstFree, hstep.fields⟩
  · by_cases hkn : k = n
    · subst hkn
      have heq : treeExtents t k = treeExtents s k ++ [toExt4Extent g fext] := by
        rw [treeExtents, htree, List.map_append, List.map_singleton, registrationOf_extent hg hc]
        rfl
      rw [heq]
      intro hfits
      exact hgrown.grown hfits
    · have heq : treeExtents t k = treeExtents s k := by
        rw [treeExtents, treeExtents, hwork.inTreeOf_eq (by simpa using hkn)]
      rw [heq]
      exact (h.trees k hk ((hmade' k).mp hm)).step hg hk hstep.step (by simpa using hkn)
  · by_cases hown : r.inodeNo = n
    · rw [hown]
      exact (hmade' n).mpr hmade
    · have hin : r ∈ rangesOf t.ext4.registered r.inodeNo := by simp [rangesOf, hr]
      rw [hothers _ hown] at hin
      exact (hmade' _).mpr (h.owners r (List.mem_of_mem_filter hin))
  · have hnot : ¬ Present X s k := fun hold => hm ((hmade' k).mpr hold)
    have hkn : k ≠ n := fun heq => hnot (heq ▸ hmade)
    rw [hstep.step.inodes k hk (by simpa using hkn) a ha]
    exact h.blank k hk hnot a ha
  · rw [hstep.inodeBits k hk]
    rw [hstep.firstFree] at hle
    exact h.clear k hk hle
  · rw [hstep.registered]
    rw [treeExtents, List.length_map] at hcount
    exact h.nodes.append _ hnodes hcount

/-- The tree of a new inode is empty. -/
theorem treeAt_new {m : Mem} {inode : Ext4Inode}
    (hread : m.read (inodeAddr g n) sizeofExt4Inode = inode.bytes)
    (hheader : inode.extHeader = initExtentHeader) : TreeAt g m n [] none := by
  have hbytes : m.read (rootHeader g n) sizeofExtentHeader = initExtentHeader.bytes := by
    obtain ⟨-, -, -, hpiece, -⟩ := inode.pieces
    rw [← hheader, ← hpiece, ← hread, Mem.read_drop_take _ _ _ _ _ (by decide), rootHeader]
  have hpart : ∀ i w, i + w ≤ sizeofExtentHeader →
      m.readLE (rootHeader g n + i) w = leNat ((initExtentHeader.bytes.drop i).take w) := by
    intro i w hiw
    rw [Mem.readLE, ← hbytes, Mem.read_drop_take _ _ _ _ _ hiw]
  refine ⟨?_, ?_, ?_, ?_, Nat.zero_le _, rfl⟩
  · exact (hpart 0 2 (by decide)).trans (by decide)
  · exact (hpart 2 2 (by decide)).trans (by decide)
  · exact (hpart 4 2 (by decide)).trans (by decide)
  · exact (hpart 6 2 (by decide)).trans (by decide)

/-- The mode of a built inode fits into 16 bits. -/
theorem inodeOf_iMode_lt (env : Env) (dentry : FatDentry) : (inodeOf env dentry).iMode < 2 ^ 16 := by
  unfold inodeOf
  dsimp only
  split <;> decide

/-- What `save_inode` does besides keeping the invariant. -/
structure Saves (g : Globals) (D : Set ℕ) (P : List ℕ) (inode : Ext4Inode) (n : ℕ)
    (s t : State) : Prop where
  number : n = s.ext4.firstFreeInodeNo
  place : InodePlace g.sb n
  work : Work g D P s t
  registered : t.ext4.registered = s.ext4.registered
  reads : t.ext4.reads = s.ext4.reads
  firstFree : t.ext4.firstFreeInodeNo = n + 1
  stored : t.mem.read (inodeAddr g n) sizeofExt4Inode = inode.bytes
  bit : inodeBit g t.mem n = true

/-- There are a few numbers behind those of the inodes. -/
theorem InodePlace.succ_lt (hg : Accepted g) (hn : InodePlace g.sb n) : n + 1 < 2 ^ 32 := by
  have hle := hg.inodes_le
  have hgroup := Nat.mul_le_mul_right g.sb.sInodesPerGroup (Nat.succ_le_of_lt hn.group)
  obtain ⟨hno, hindex⟩ := hg.inodeNo_eq hn
  rw [Nat.succ_eq_add_one, Nat.add_mul] at hgroup
  omega

/-- `save_inode` makes the next inode, or stops because there is none. -/
theorem saveInode_building (hg : Accepted g) (h : Building g X m₀ base F O R s) (inode : Ext4Inode)
    (hmode : inode.iMode < 2 ^ 16) (hheader : inode.extHeader = initExtentHeader)
    (hd : s.ext4.firstFreeInodeNo ∈ D) (hP : P ⊆ O ++ R) :
    wp (saveInode g inode)
      (fun n t => Building g X m₀ base F O R t ∧ Saves g D P inode n s t)
      (SafeStop g base F short) s := by
  obtain ⟨hlow, hhigh⟩ := h.inv.firstFree
  by_cases hgroup : inodeGroup g.sb s.ext4.firstFreeInodeNo < blockGroupCount g.sb
  swap
  · exact saveInode_full inode (Nat.not_lt.mp hgroup)
      ⟨h.inv.stop _, Halt.noConfusion, Or.inr (Or.inr rfl)⟩
  have hplace : InodePlace g.sb s.ext4.firstFreeInodeNo := ⟨by omega, hhigh, hgroup⟩
  have hsucc := hplace.succ_lt hg
  have hnew : ¬ Present X s s.ext4.firstFreeInodeNo := by
    rintro ((hroot | hmade) | hreserved)
    · unfold ext4RootInode at hroot
      omega
    · omega
    · have hlt := h.reserved _ hreserved
      omega
  obtain ⟨bg, hbg, hdesc⟩ := h.inv.placed.get hgroup
  refine wp_mono (wp_and (saveInode_spec (E := fun _ _ => False) hg h.inv.placed inode hplace hbg)
    (saveInode_ledger (E := fun _ _ => False) hg h.inv.placed inode hmode hplace
      (h.blank _ hplace hnew) (h.clear _ hplace le_rfl))) ?_ (fun _ _ hend => hend.1.elim)
  rintro _ t ⟨⟨rfl, htouch, hread, ⟨m, hbits, hmem⟩, hext4⟩, hledger⟩
  generalize hno : s.ext4.firstFreeInodeNo = n at *
  have hff : t.ext4.firstFreeInodeNo = n + 1 := by
    rw [hext4]
    exact u32_of_lt hsucc
  have hregistered : t.ext4.registered = s.ext4.registered := by
    rw [hext4]
    rfl
  have hreads : t.ext4.reads = s.ext4.reads := by
    rw [hext4]
    rfl
  have hlength : inode.bytes.length ≤ ext4InodeSize := by
    rw [length_inode_bytes]
    decide
  have hown : ∀ a ∈ inodeBitByte g n ∪ inodeBytes g n, OwnByte g {n} P O s a := by
    rintro a (ha | ha)
    · have hbyte := hg.inodeBit_place hplace
      have hlow := ha.1
      have hhigh := ha.2
      exact OwnByte.inodeBitmap _ hgroup (by omega) (by omega)
    · exact OwnByte.inode n hplace rfl ha fun hmade => absurd (Or.inl hmade) hnew
  -- the bits of all inodes but the new one are as they were
  have hbitOf : ∀ k, InodePlace g.sb k →
      inodeBit g t.mem k = (inodeBit g s.mem k || decide (k = n)) := by
    intro k hk
    obtain ⟨hkno, hkindex⟩ := hg.inodeNo_eq hk
    obtain ⟨hnno, hnindex⟩ := hg.inodeNo_eq hplace
    obtain ⟨-, -, -, -, -, hfits, -⟩ := hg.numbers
    rw [← hg.blockSize_eq] at hfits
    rw [inodeBit, hmem, bitAt_write_inode hg hplace m hlength hk.group (by omega)]
    by_cases hsame : inodeGroup g.sb k = inodeGroup g.sb n
    · rw [hsame, hbits.bits, inodeBit, hsame]
      congr 1
      rw [decide_eq_decide]
      rw [hsame] at hkno
      omega
    · have hbyte := hg.inodeBit_place hplace
      have hbyte' := hg.inodeBit_place hk
      have hle := (inodeBitmapAddr_le g (inodeGroup g.sb k)).1
      have hle' := (inodeBitmapAddr_le g (inodeGroup g.sb n)).1
      rw [decide_eq_false (fun heq => hsame (by rw [heq])), Bool.or_false, inodeBit]
      refine bitAt_congr (hbits.byte_eq ?_)
      by_contra hin
      exact hsame (hg.bitmaps_unique hk.group hgroup (by omega) hbyte'
        (a := inodeBitmapAddr g (inodeGroup g.sb k) + inodeIndex g.sb k / 8) (by omega) (by omega))
  obtain ⟨hinv, hstep⟩ := h.inv.own (D := {n}) (P := P) hg hP htouch hown
    (by rw [hext4]; exact h.inv.placed.set (hdesc.useInode.countDir _)) hregistered
    (by rw [hno, hff]; exact ⟨Nat.le_succ n, hsucc⟩) fun k hk hbit => by
      rw [hbitOf k hk, hbit, Bool.true_or]
  have hmade : ∀ k, Present X t k ↔ Present X s k ∨ k = n := by
    intro k
    have hmade : Made t k ↔ Made s k ∨ k = n := by
      rw [Made, Made, hff, hno]
      omega
    rw [Present, Present, hmade, or_right_comm]
  have hwork : Work g {n} P s t := ⟨hstep, fun k _ => by rw [hregistered], hledger⟩
  have hnone : treeExtents t n = [] := by
    rw [treeExtents, List.map_eq_nil_iff, inTreeOf, List.filter_eq_nil_iff]
    intro r hr
    rw [hregistered] at hr
    have hne : r.inodeNo ≠ n := fun heq => hnew (heq ▸ h.owners r hr)
    simp [hne]
  refine ⟨⟨hinv, h.reserved, fun k hk hm => ?_, fun r hr => ?_, fun k hk hm a ha => ?_,
    fun k hk hle => ?_, hregistered ▸ h.nodes⟩, hno.symm, hplace,
    hwork.mono (Set.singleton_subset_iff.mpr hd) (List.Subset.refl P), hregistered, hreads, hff,
    hread, ?_⟩
  · by_cases hkn : k = n
    · subst hkn
      rw [hnone]
      exact fun _ => ⟨none, treeAt_new hread hheader, by simp⟩
    · have heq : treeExtents t k = treeExtents s k := by
        rw [treeExtents, treeExtents, hregistered]
      rw [heq]
      refine (h.trees k hk (((hmade k).mp hm).resolve_right hkn)).step hg hk hstep ?_
      simpa using hkn
  · rw [hregistered] at hr
    exact (hmade _).mpr (Or.inl (h.owners r hr))
  · have hkn : k ≠ n := fun heq => hm ((hmade k).mpr (Or.inr heq))
    rw [hstep.inodes k hk (by simpa using hkn) a ha]
    exact h.blank k hk (fun hold => hm ((hmade k).mpr (Or.inl hold))) a ha
  · rw [hff] at hle
    rw [hbitOf k hk, h.clear k hk (by omega), decide_eq_false (by omega), Bool.or_false]
  · rw [hbitOf n hplace, decide_eq_true rfl, Bool.or_true]

end Rules

end OfsConvert
