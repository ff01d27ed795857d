import OfsConvert.GroupInit
import OfsConvert.Ext4Extent

/-!
# The state while the directory tree is built

Blocks have one owner: a registered range, a directory that is filling the block (`O`), or
something that keeps what it holds (`R`). `BuildInv` states this with what the stores so far may have
touched, relative to the state `base` in which the second phase started and to the blocks `F` of
the stream and of the recorded files. `Step` bounds what a part of a run changes.
-/

namespace OfsConvert

/-- The blocks of a registered range. -/
def Registration.blocks (r : Registration) : List ℕ :=
  List.range' r.blocksBegin (r.blocksEnd - r.blocksBegin)

/-- The blocks that a log registers. -/
def registeredBlocks (log : List Registration) : List ℕ := log.flatMap Registration.blocks

/-- The ranges in the extent tree of an inode, in the order of their registration. -/
def inTreeOf (log : List Registration) (inodeNo : ℕ) : List Registration :=
  log.filter fun r => r.inTree && r.inodeNo == inodeNo

/-- The cluster of a block is not free any more. -/
def BlockTaken (g : Globals) (s : State) (b : ℕ) : Prop :=
  isFree s.allocationBitmap (e4blkToFatCl g.bootSector g.metaInfo b) = false

/-- A byte that may be stored to: of a metadata prefix, of a block that is being filled or of a
node of an extent tree. -/
def Writable (g : Globals) (O : List ℕ) (log : List Registration) (a : ℕ) : Prop :=
  ∃ b, InBlock g b a ∧
    (MetaBlock g b ∨ b ∈ O ∨ ∃ r ∈ log, r.inTree = false ∧ b ∈ r.blocks)

/-- A byte that a store may have touched: of a metadata prefix or of a registered block or one that
is being filled, but none of `F`. -/
def Written (g : Globals) (F O : List ℕ) (log : List Registration) (a : ℕ) : Prop :=
  ∃ b, InBlock g b a ∧ (MetaBlock g b ∨ b ∉ F ∧ b ∈ O ++ registeredBlocks log)

/-- What the history shows: every registered block is a data block and registered once, and the
stores since `base` touched none of `F`. -/
structure BuildLog (g : Globals) (base : State) (F O : List ℕ) (s : State) : Prop where
  nodup : (registeredBlocks s.ext4.registered).Nodup
  data : ∀ b ∈ registeredBlocks s.ext4.registered, DataBlock g b
  stores : ∃ new, s.stores = new ++ base.stores ∧ ∀ store ∈ new, ∀ a,
    store.address ≤ a → a < store.address + store.length → Written g F O s.ext4.registered a
  foreign : ∀ b ∈ F, ∀ a, InBlock g b a → s.mem a = base.mem a

/-- The invariant of the second phase. -/
structure BuildInv (g : Globals) (m₀ : Mem) (base : State) (F O R : List ℕ) (s : State) :
    Prop where
  alloc : AllocatorInv g m₀ (metaExtents g) s
  placed : Placed g s.ext4.groupDescs
  nodup : (registeredBlocks s.ext4.registered ++ (O ++ R)).Nodup
  data : ∀ b ∈ registeredBlocks s.ext4.registered ++ (O ++ R), DataBlock g b
  taken : ∀ b ∈ F ++ (registeredBlocks s.ext4.registered ++ (O ++ R)), BlockTaken g s b
  foreign : ∀ b ∈ F, DataBlock g b ∧ b ∉ O ∧
    ∀ r ∈ s.ext4.registered, r.inTree = false → b ∉ r.blocks
  firstFree : 12 ≤ s.ext4.firstFreeInodeNo ∧ s.ext4.firstFreeInodeNo < 2 ^ 32
  log : BuildLog g base F O s

/-- Inode numbers that have been handed out, and the root. -/
def Made (s : State) (inodeNo : ℕ) : Prop :=
  inodeNo = ext4RootInode ∨ 12 ≤ inodeNo ∧ inodeNo < s.ext4.firstFreeInodeNo

/-- The bit of an inode in the bitmap of its group. -/
def inodeBit (g : Globals) (m : Mem) (inodeNo : ℕ) : Bool :=
  bitAt m (inodeBitmapAddr g (inodeGroup g.sb inodeNo)) (inodeIndex g.sb inodeNo)

/-- The inode `d` and the numbers that are not handed out yet. -/
def ownInodes (d : ℕ) (s : State) : Set ℕ := {n | n = d ∨ s.ext4.firstFreeInodeNo ≤ n}

/-- A part of a run that works on the inodes of `D`: it keeps the blocks of `P`, what is registered
and not a node of one of these inodes, and all other inodes. -/
structure Step (g : Globals) (D : Set ℕ) (P : List ℕ) (s t : State) : Prop where
  registered : s.ext4.registered <+: t.ext4.registered
  firstFree : s.ext4.firstFreeInodeNo ≤ t.ext4.firstFreeInodeNo
  kept : ∀ b ∈ P, ∀ a, InBlock g b a → t.mem a = s.mem a
  blocks : ∀ r ∈ s.ext4.registered, r.inTree = true ∨ r.inodeNo ∉ D → ∀ b ∈ r.blocks, ∀ a,
    InBlock g b a → t.mem a = s.mem a
  inodes : ∀ n, InodePlace g.sb n → n ∉ D → ∀ a ∈ inodeBytes g n, t.mem a = s.mem a
  modes : ∀ n, InodePlace g.sb n → Made s n → t.mem.readLE (inodeAddr g n) 2 =
    s.mem.readLE (inodeAddr g n) 2
  bits : ∀ n, InodePlace g.sb n → inodeBit g s.mem n = true → inodeBit g t.mem n = true

/-- A block is registered if one entry of the log has it. -/
theorem mem_registeredBlocks {log : List Registration} {b : ℕ} :
    b ∈ registeredBlocks log ↔ ∃ r ∈ log, b ∈ r.blocks := List.mem_flatMap

/-- The blocks of two logs are those of each. -/
theorem registeredBlocks_append (log log' : List Registration) :
    registeredBlocks (log ++ log') = registeredBlocks log ++ registeredBlocks log' :=
  List.flatMap_append

/-- An entry registers its own blocks. -/
theorem registeredBlocks_singleton (r : Registration) : registeredBlocks [r] = r.blocks := by
  rw [registeredBlocks, List.flatMap_cons, List.flatMap_nil, List.append_nil]

/-- A block that is registered once belongs to one range. -/
theorem registered_unique {log : List Registration} (h : (registeredBlocks log).Nodup)
    {r r' : Registration} (hr : r ∈ log) (hr' : r' ∈ log) {b : ℕ} (hb : b ∈ r.blocks)
    (hb' : b ∈ r'.blocks) : r = r' := by
  induction log with
  | nil => exact absurd hr List.not_mem_nil
  | cons d log ih =>
    obtain ⟨-, hlog, hdisjoint⟩ := List.nodup_append.mp h
    rcases List.mem_cons.mp hr with rfl | hmem
    · rcases List.mem_cons.mp hr' with rfl | hmem'
      · rfl
      · exact absurd rfl (hdisjoint b hb b (mem_registeredBlocks.mpr ⟨r', hmem', hb'⟩))
    · rcases List.mem_cons.mp hr' with rfl | hmem'
      · exact absurd rfl (hdisjoint b hb' b (mem_registeredBlocks.mpr ⟨r, hmem, hb⟩))
      · exact ih hlog hmem hmem'

/-- The invariant of the allocator is about the allocator only. -/
theorem AllocatorInv.congr {g : Globals} {m₀ : Mem} {blocked : List FatExtent} {s t : State}
    (h : AllocatorInv g m₀ blocked s) (hallocator : t.allocator = s.allocator)
    (hbitmap : t.allocationBitmap = s.allocationBitmap) : AllocatorInv g m₀ blocked t := by
  cases s
  cases t
  cases hallocator
  cases hbitmap
  exact ⟨h.extents, h.count, h.current, h.passed, h.cursor, h.free⟩

/-- An inode that was made stays made. -/
theorem Made.mono {s t : State} {n : ℕ} (h : Made s n)
    (hle : s.ext4.firstFreeInodeNo ≤ t.ext4.firstFreeInodeNo) : Made t n :=
  h.imp_right fun hn => ⟨hn.1, hn.2.trans_le hle⟩

section Written

variable {g : Globals} {F O O' : List ℕ} {log log' : List Registration} {a : ℕ}

/-- A written byte stays written where the open and registered blocks grow. -/
theorem Written.mono (h : Written g F O log a)
    (hsub : ∀ b ∈ O ++ registeredBlocks log, b ∈ O' ++ registeredBlocks log') :
    Written g F O' log' a := by
  obtain ⟨b, hin, hb⟩ := h
  exact ⟨b, hin, hb.imp_right fun hb => ⟨hb.1, hsub b hb.2⟩⟩

end Written

namespace Step

variable {g : Globals} {D D' : Set ℕ} {P P' : List ℕ} {s t u : State}

/-- A step that does nothing is one. -/
theorem refl (g : Globals) (D : Set ℕ) (P : List ℕ) (s : State) : Step g D P s s :=
  ⟨List.prefix_rfl, le_rfl, fun _ _ _ _ => rfl, fun _ _ _ _ _ _ _ => rfl,
    fun _ _ _ _ _ => rfl, fun _ _ _ => rfl, fun _ _ h => h⟩

/-- Steps compose. -/
theorem trans (h : Step g D P s t) (h' : Step g D P t u) : Step g D P s u := by
  refine ⟨h.registered.trans h'.registered, h.firstFree.trans h'.firstFree,
    fun b hb a ha => (h'.kept b hb a ha).trans (h.kept b hb a ha), ?_,
    fun n hn hd a ha => (h'.inodes n hn hd a ha).trans (h.inodes n hn hd a ha), ?_,
    fun n hn hbit => h'.bits n hn (h.bits n hn hbit)⟩
  · intro r hr hd b hb a ha
    exact (h'.blocks r (h.registered.subset hr) hd b hb a ha).trans (h.blocks r hr hd b hb a ha)
  · intro n hn hmade
    exact (h'.modes n hn (hmade.mono h.firstFree)).trans (h.modes n hn hmade)

/-- A step on fewer inodes and blocks is a step on more of them. -/
theorem mono (h : Step g D P s t) (hd : D ⊆ D') (hp : P' ⊆ P) : Step g D' P' s t :=
  ⟨h.registered, h.firstFree, fun b hb => h.kept b (hp hb),
    fun r hr hkeep => h.blocks r hr (hkeep.imp_right fun hnot hin => hnot (hd hin)),
    fun n hn hnot => h.inodes n hn fun hin => hnot (hd hin), h.modes, h.bits⟩

/-- Only the memory, the registered ranges and the next inode number matter to a step. -/
theorem of_eq {s' t' : State} (h : Step g D P s t) (hs : s'.mem = s.mem)
    (hsr : s'.ext4.registered = s.ext4.registered)
    (hsf : s'.ext4.firstFreeInodeNo = s.ext4.firstFreeInodeNo) (ht : t'.mem = t.mem)
    (htr : t'.ext4.registered = t.ext4.registered)
    (htf : t'.ext4.firstFreeInodeNo = t.ext4.firstFreeInodeNo) : Step g D P s' t' := by
  refine ⟨?_, ?_, ?_, ?_, ?_, ?_, ?_⟩
  · rw [hsr, htr]
    exact h.registered
  · rw [hsf, htf]
    exact h.firstFree
  · rw [hs, ht]
    exact h.kept
  · rw [hsr, hs, ht]
    exact h.blocks
  · rw [hs, ht]
    exact h.inodes
  · intro n hn hmade
    rw [hs, ht]
    exact h.modes n hn (hmade.imp_right fun hn => ⟨hn.1, hsf ▸ hn.2⟩)
  · rw [hs, ht]
    exact h.bits

/-- The inodes that a step keeps do not come back into play later. -/
theorem ownInodes_subset {d d' : ℕ} (hff : s.ext4.firstFreeInodeNo ≤ t.ext4.firstFreeInodeNo)
    (hd : d' = d ∨ s.ext4.firstFreeInodeNo ≤ d') : ownInodes d' t ⊆ ownInodes d s := by
  intro n hn
  rcases hn with rfl | hn
  · exact hd
  · exact Or.inr (hff.trans hn)

end Step

namespace BuildInv

variable {g : Globals} {m₀ : Mem} {base : State} {F O R O' R' : List ℕ} {s t : State}

/-- Open blocks are data blocks. -/
theorem open_data (h : BuildInv g m₀ base F O R s) {b : ℕ} (hb : b ∈ O) : DataBlock g b :=
  h.data b (by simp [hb])

/-- Registered blocks are data blocks. -/
theorem registered_data (h : BuildInv g m₀ base F O R s) {r : Registration}
    (hr : r ∈ s.ext4.registered) {b : ℕ} (hb : b ∈ r.blocks) : DataBlock g b :=
  h.data b (List.mem_append_left _ (mem_registeredBlocks.mpr ⟨r, hr, hb⟩))

/-- Blocks may be dropped. -/
theorem weaken (h : BuildInv g m₀ base F O R s) (hsub : R'.Sublist R) :
    BuildInv g m₀ base F O R' s := by
  have hall : (registeredBlocks s.ext4.registered ++ (O ++ R')).Sublist
      (registeredBlocks s.ext4.registered ++ (O ++ R)) :=
    (hsub.append_left O).append_left _
  exact ⟨h.alloc, h.placed, h.nodup.sublist hall, fun b hb => h.data b (hall.subset hb),
    fun b hb => h.taken b ((hall.append_left F).subset hb), h.foreign, h.firstFree, h.log⟩

/-- The order of the blocks does not matter. -/
theorem perm (h : BuildInv g m₀ base F O R s) (hp : R'.Perm R) :
    BuildInv g m₀ base F O R' s := by
  have hall : (registeredBlocks s.ext4.registered ++ (O ++ R')).Perm
      (registeredBlocks s.ext4.registered ++ (O ++ R)) :=
    (hp.append_left O).append_left _
  exact ⟨h.alloc, h.placed, hall.nodup_iff.mpr h.nodup, fun b hb => h.data b (hall.subset hb),
    fun b hb => h.taken b ((hall.append_left F).subset hb), h.foreign, h.firstFree, h.log⟩

/-- A kept block that is none of `F` is taken to be filled. -/
theorem openBlock {b : ℕ} (h : BuildInv g m₀ base F O (b :: R) s) (hf : b ∉ F) :
    BuildInv g m₀ base F (b :: O) R s := by
  have hall : (registeredBlocks s.ext4.registered ++ (b :: O ++ R)).Perm
      (registeredBlocks s.ext4.registered ++ (O ++ b :: R)) := by
    apply List.Perm.append_left
    exact List.perm_middle.symm
  refine ⟨h.alloc, h.placed, hall.nodup_iff.mpr h.nodup, fun c hc => h.data c (hall.subset hc),
    fun c hc => h.taken c ((hall.append_left F).subset hc), fun c hc => ?_, h.firstFree, ?_⟩
  · obtain ⟨hdata, hopen, hnodes⟩ := h.foreign c hc
    refine ⟨hdata, ?_, hnodes⟩
    rw [List.mem_cons]
    rintro (rfl | hmem)
    · exact hf hc
    · exact hopen hmem
  · obtain ⟨new, hnew, hwritten⟩ := h.log.stores
    refine ⟨h.log.nodup, h.log.data, ⟨new, hnew, fun store hstore a hlow hhigh => ?_⟩,
      h.log.foreign⟩
    exact (hwritten store hstore a hlow hhigh).mono fun c hc => List.mem_cons_of_mem b hc

/-- What may be stored to is none of the blocks that are kept. -/
theorem writable_disjoint (h : BuildInv g m₀ base F O R s) {a : ℕ}
    (ha : Writable g O s.ext4.registered a) :
    (∀ b ∈ F ++ R, ¬ InBlock g b a) ∧
      ∀ r ∈ s.ext4.registered, r.inTree = true → ∀ b ∈ r.blocks, ¬ InBlock g b a := by
  obtain ⟨b, hin, hb⟩ := ha
  have hnodup := List.nodup_append.mp h.nodup
  have hopen := List.nodup_append.mp hnodup.2.1
  have hkept : ∀ c, DataBlock g c → c ∉ O →
      (∀ r ∈ s.ext4.registered, r.inTree = false → c ∉ r.blocks) → ¬ InBlock g c a := by
    intro c hc hnot hnodes hca
    obtain rfl := inBlock_unique hin hca
    rcases hb with hmeta | hmem | ⟨r, hr, hnode, hmem⟩
    · exact hc.outside hmeta
    · exact hnot hmem
    · exact hnodes r hr hnode hmem
  refine ⟨fun c hc => ?_, fun r hr htree c hc => ?_⟩
  · rcases List.mem_append.mp hc with hf | hr
    · obtain ⟨hdata, hopen', hnodes⟩ := h.foreign c hf
      exact hkept c hdata hopen' hnodes
    · refine hkept c (h.data c (by simp [hr])) (fun ho => hopen.2.2 c ho c hr rfl) ?_
      intro r hlog _ hmem
      exact hnodup.2.2 c (mem_registeredBlocks.mpr ⟨r, hlog, hmem⟩) c (by simp [hr]) rfl
  · refine hkept c (h.registered_data hr hc) ?_ ?_
    · intro ho
      exact hnodup.2.2 c (mem_registeredBlocks.mpr ⟨r, hr, hc⟩) c (by simp [ho]) rfl
    · intro r' hr' hnode hmem
      obtain rfl := registered_unique hnodup.1 hr hr' hc hmem
      rw [htree] at hnode
      cases hnode

/-- Stores to writable bytes and changes of the descriptors keep the invariant. -/
theorem touches (h : BuildInv g m₀ base F O R s) {A : Set ℕ} (ht : Touches A s t)
    (hA : ∀ a ∈ A, Writable g O s.ext4.registered a) (hplaced : Placed g t.ext4.groupDescs)
    (hreg : t.ext4.registered = s.ext4.registered)
    (hff : 12 ≤ t.ext4.firstFreeInodeNo ∧ t.ext4.firstFreeInodeNo < 2 ^ 32) :
    BuildInv g m₀ base F O R t := by
  refine ⟨h.alloc.congr ht.allocator ht.allocationBitmap, hplaced, by rw [hreg]; exact h.nodup,
    by rw [hreg]; exact h.data, ?_, ?_, hff, ?_⟩
  · intro b hb
    rw [BlockTaken, ht.allocationBitmap]
    exact h.taken b (by rwa [hreg] at hb)
  · intro b hb
    rw [hreg]
    exact h.foreign b hb
  · obtain ⟨new, hnew, hin⟩ := ht.stores
    obtain ⟨old, hold, hwritten⟩ := h.log.stores
    refine ⟨by rw [hreg]; exact h.log.nodup, by rw [hreg]; exact h.log.data,
      ⟨new ++ old, by rw [hnew, hold, List.append_assoc], ?_⟩, ?_⟩
    · rw [hreg]
      intro store hstore a hlow hhigh
      rcases List.mem_append.mp hstore with hmem | hmem
      · have hwritable := hA a (hin store hmem a hlow hhigh)
        have houtside := (h.writable_disjoint hwritable).1
        obtain ⟨b, hba, hb⟩ := hwritable
        have hf : b ∉ F := fun hmem => houtside b (List.mem_append_left R hmem) hba
        refine ⟨b, hba, hb.imp_right fun hb => ⟨hf, ?_⟩⟩
        rcases hb with ho | ⟨r, hr, -, hmem⟩
        · exact List.mem_append_left _ ho
        · exact List.mem_append_right _ (mem_registeredBlocks.mpr ⟨r, hr, hmem⟩)
      · exact hwritten store hmem a hlow hhigh
    · intro b hb a ha
      rw [← h.log.foreign b hb a ha]
      apply ht.mem
      intro hin
      exact (h.writable_disjoint (hA a hin)).1 b (List.mem_append_left R hb) ha

end BuildInv

/-- A byte that an operation on the inodes of `D` may store to when it keeps the blocks of `P`. -/
inductive OwnByte (g : Globals) (D : Set ℕ) (P O : List ℕ) (s : State) (a : ℕ) : Prop where
  | opened (b : ℕ) (hb : b ∈ O) (hkept : b ∉ P) (hin : InBlock g b a)
  | node (r : Registration) (hr : r ∈ s.ext4.registered) (hnode : r.inTree = false)
      (hd : r.inodeNo ∈ D) (b : ℕ) (hb : b ∈ r.blocks) (hin : InBlock g b a)
  | inode (n : ℕ) (hn : InodePlace g.sb n) (hd : n ∈ D) (hin : a ∈ inodeBytes g n)
      (hmode : Made s n → inodeAddr g n + 2 ≤ a)
  | blockBitmap (i : ℕ) (hi : i < blockGroupCount g.sb) (hlow : blockBitmapAddr g i ≤ a)
      (hhigh : a < inodeBitmapAddr g i)
  | inodeBitmap (i : ℕ) (hi : i < blockGroupCount g.sb) (hlow : inodeBitmapAddr g i ≤ a)
      (hhigh : a < inodeTableAddr g i)

section OwnByte

variable {g : Globals} (hg : Accepted g) {m₀ : Mem} {base : State} {F O R P : List ℕ} {D : Set ℕ}
  {s t : State} {a : ℕ}
include hg

/-- A byte that a step owns may be written. -/
theorem OwnByte.writable (h : OwnByte g D P O s a) : Writable g O s.ext4.registered a := by
  cases h with
  | opened b hb hkept hin => exact ⟨b, hin, Or.inr (Or.inl hb)⟩
  | node r hr hnode hd b hb hin => exact ⟨b, hin, Or.inr (Or.inr ⟨r, hr, hnode, hb⟩)⟩
  | inode n hn hd hin hmode =>
    obtain ⟨b, hb, -, hba⟩ := hg.inodeAddr_inPrefix hn hin.1 hin.2
    exact ⟨b, hba, Or.inl ⟨_, hn.group, hb⟩⟩
  | blockBitmap i hi hlow hhigh =>
    obtain ⟨b, hb, -, hba⟩ :=
      hg.bitmap_inPrefix hi hlow (hhigh.trans_le (inodeBitmapAddr_le g i).2)
    exact ⟨b, hba, Or.inl ⟨i, hi, hb⟩⟩
  | inodeBitmap i hi hlow hhigh =>
    obtain ⟨b, hb, -, hba⟩ :=
      hg.bitmap_inPrefix hi ((inodeBitmapAddr_le g i).1.trans hlow) hhigh
    exact ⟨b, hba, Or.inl ⟨i, hi, hb⟩⟩

/-- A byte of an inode that an operation may store to is a byte of an inode of `D`. -/
theorem OwnByte.of_inode (h : BuildInv g m₀ base F O R s) (ha : OwnByte g D P O s a) {n : ℕ}
    (hn : InodePlace g.sb n) (hin : a ∈ inodeBytes g n) :
    n ∈ D ∧ (Made s n → inodeAddr g n + 2 ≤ a) := by
  obtain ⟨b, hb, -, hba⟩ := hg.inodeAddr_inPrefix hn hin.1 hin.2
  have hmeta : MetaBlock g b := ⟨_, hn.group, hb⟩
  cases ha with
  | opened c hc hkept hca =>
    obtain rfl := inBlock_unique hba hca
    exact absurd hmeta (h.open_data hc).outside
  | node r hr hnode hd c hc hca =>
    obtain rfl := inBlock_unique hba hca
    exact absurd hmeta (h.registered_data hr hc).outside
  | inode k hk hd hka hmode =>
    obtain rfl := hg.inodeAddr_unique hn hk hin hka
    exact ⟨hd, hmode⟩
  | blockBitmap i hi hlow hhigh =>
    have hbehind' := hg.inode_behind_bitmaps hn hin hi hlow
    exact absurd (hhigh.trans_le (inodeBitmapAddr_le g i).2) (Nat.not_lt.mpr hbehind')
  | inodeBitmap i hi hlow hhigh =>
    have hbehind' := hg.inode_behind_bitmaps hn hin hi ((inodeBitmapAddr_le g i).1.trans hlow)
    exact absurd hhigh (Nat.not_lt.mpr hbehind')

/-- A byte of a data block that an operation may store to is in a block being filled that is not
kept, or in a node of an inode of `D`. -/
theorem OwnByte.of_data (ha : OwnByte g D P O s a) {b : ℕ} (hb : DataBlock g b)
    (hba : InBlock g b a) :
    (b ∈ O ∧ b ∉ P) ∨
      ∃ r ∈ s.ext4.registered, r.inTree = false ∧ r.inodeNo ∈ D ∧ b ∈ r.blocks := by
  have hmeta : ∀ c i, i < blockGroupCount g.sb → InPrefix g i c → ¬ InBlock g c a := by
    intro c i hi hc hca
    obtain rfl := inBlock_unique hba hca
    exact hb.outside ⟨i, hi, hc⟩
  cases ha with
  | opened c hc hkept hca =>
    obtain rfl := inBlock_unique hba hca
    exact Or.inl ⟨hc, hkept⟩
  | node r hr hnode hd c hc hca =>
    obtain rfl := inBlock_unique hba hca
    exact Or.inr ⟨r, hr, hnode, hd, hc⟩
  | inode k hk hd hka hmode =>
    obtain ⟨c, hc, -, hca⟩ := hg.inodeAddr_inPrefix hk hka.1 hka.2
    exact absurd hca (hmeta c _ hk.group hc)
  | blockBitmap i hi hlow hhigh =>
    obtain ⟨c, hc, -, hca⟩ :=
      hg.bitmap_inPrefix hi hlow (hhigh.trans_le (inodeBitmapAddr_le g i).2)
    exact absurd hca (hmeta c i hi hc)
  | inodeBitmap i hi hlow hhigh =>
    obtain ⟨c, hc, -, hca⟩ :=
      hg.bitmap_inPrefix hi ((inodeBitmapAddr_le g i).1.trans hlow) hhigh
    exact absurd hca (hmeta c i hi hc)

/-- Stores to own bytes that clear no bit of an inode bitmap are a step. -/
theorem BuildInv.step (h : BuildInv g m₀ base F O R s) (hP : P ⊆ O ++ R)
    (hmem : ∀ a, ¬ OwnByte g D P O s a → t.mem a = s.mem a)
    (hreg : s.ext4.registered <+: t.ext4.registered)
    (hff : s.ext4.firstFreeInodeNo ≤ t.ext4.firstFreeInodeNo)
    (hbits : ∀ n, InodePlace g.sb n → inodeBit g s.mem n = true → inodeBit g t.mem n = true) :
    Step g D P s t := by
  have hnodup := List.nodup_append.mp h.nodup
  refine ⟨hreg, hff, fun b hb a ha => hmem a fun hown => ?_, ?_, ?_, ?_, hbits⟩
  · have hmemb := hP hb
    rcases hown.of_data hg (h.data b (List.mem_append_right _ hmemb)) ha with
      ⟨-, hnot⟩ | ⟨r, hr, -, -, hin⟩
    · exact hnot hb
    · exact hnodup.2.2 b (mem_registeredBlocks.mpr ⟨r, hr, hin⟩) b hmemb rfl
  · intro r hr hkeep b hb a ha
    refine hmem a fun hown => ?_
    rcases hown.of_data hg (h.registered_data hr hb) ha with ⟨hopen, -⟩ | ⟨r', hr', hnode, hd, hin⟩
    · exact hnodup.2.2 b (mem_registeredBlocks.mpr ⟨r, hr, hb⟩) b (by simp [hopen]) rfl
    · obtain rfl := registered_unique hnodup.1 hr hr' hb hin
      rcases hkeep with htree | hnot
      · rw [htree] at hnode
        cases hnode
      · exact hnot hd
  · intro n hn hnot a ha
    exact hmem a fun hown => hnot (hown.of_inode hg h hn ha).1
  · intro n hn hmade
    apply Mem.readLE_congr
    intro i hi
    refine hmem _ fun hown => ?_
    have hlow := (hown.of_inode hg h hn ⟨Nat.le_add_right _ _, by
      unfold ext4InodeSize
      omega⟩).2 hmade
    omega

/-- The same for stores whose places are known. -/
theorem BuildInv.own (h : BuildInv g m₀ base F O R s) (hP : P ⊆ O ++ R) {A : Set ℕ}
    (ht : Touches A s t) (hA : ∀ a ∈ A, OwnByte g D P O s a)
    (hplaced : Placed g t.ext4.groupDescs)
    (hreg : t.ext4.registered = s.ext4.registered)
    (hff : s.ext4.firstFreeInodeNo ≤ t.ext4.firstFreeInodeNo ∧
      t.ext4.firstFreeInodeNo < 2 ^ 32)
    (hbits : ∀ n, InodePlace g.sb n → inodeBit g s.mem n = true → inodeBit g t.mem n = true) :
    BuildInv g m₀ base F O R t ∧ Step g D P s t := by
  refine ⟨h.touches ht (fun a ha => (hA a ha).writable hg) hplaced hreg
    ⟨h.firstFree.1.trans hff.1, hff.2⟩, ?_⟩
  exact h.step hg hP (fun a ha => ht.mem a fun hin => ha (hA a hin)) (hreg ▸ List.prefix_rfl)
    hff.1 hbits

end OwnByte

end OfsConvert
