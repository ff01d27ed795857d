import OfsConvert.MetadataPlaces

/-!
# Updates of the block groups

What the operations of `ext4_bg.cpp` change: `Touches` bounds the stores of a part of a run, the
rest is said about the descriptors and the bits of the bitmaps. The descriptors keep the places
that `init_ext4_group_descs` chose.
-/

namespace OfsConvert

/-- A part of a run that stores to bytes of `A` only and leaves the allocator alone. -/
structure Touches (A : Set ℕ) (s t : State) : Prop where
  stores : ∃ new, t.stores = new ++ s.stores ∧
    ∀ store ∈ new, ∀ a, store.address ≤ a → a < store.address + store.length → a ∈ A
  mem : ∀ a, a ∉ A → t.mem a = s.mem a
  allocator : t.allocator = s.allocator
  allocationBitmap : t.allocationBitmap = s.allocationBitmap

/-- The bytes from `a` up to `b`. -/
def bytesFrom (a b : ℕ) : Set ℕ := {x | a ≤ x ∧ x < b}

namespace Touches

variable {A B : Set ℕ} {s t u : State}

/-- A step that does nothing touches nothing. -/
theorem refl (A : Set ℕ) (s : State) : Touches A s s :=
  ⟨⟨[], rfl, fun _ h => absurd h List.not_mem_nil⟩, fun _ _ => rfl, rfl, rfl⟩

/-- What two steps touch together. -/
theorem trans (h : Touches A s t) (h' : Touches A t u) : Touches A s u := by
  obtain ⟨new, hnew, hin⟩ := h.stores
  obtain ⟨new', hnew', hin'⟩ := h'.stores
  refine ⟨⟨new' ++ new, ?_, ?_⟩, fun a ha => (h'.mem a ha).trans (h.mem a ha),
    h'.allocator.trans h.allocator, h'.allocationBitmap.trans h.allocationBitmap⟩
  · rw [hnew', hnew, List.append_assoc]
  · intro store hstore
    rcases List.mem_append.mp hstore with hmem | hmem
    · exact hin' store hmem
    · exact hin store hmem

/-- What touches less touches no more than this. -/
theorem mono (h : Touches A s t) (hab : A ⊆ B) : Touches B s t := by
  obtain ⟨new, hnew, hin⟩ := h.stores
  exact ⟨⟨new, hnew, fun store hstore a hlow hhigh => hab (hin store hstore a hlow hhigh)⟩,
    fun a ha => h.mem a fun hin => ha (hab hin), h.allocator, h.allocationBitmap⟩

/-- One store. -/
theorem stored (s : State) {p n : ℕ} {m : Mem} (hin : ∀ a, p ≤ a → a < p + n → a ∈ A)
    (hm : Mem.SameOutside p n s.mem m) : Touches A s (s.stored p n m) := by
  refine ⟨⟨[⟨p, n, m⟩], rfl, ?_⟩, ?_, rfl, rfl⟩
  · intro store hstore
    rw [List.mem_singleton] at hstore
    subst hstore
    exact hin
  · intro a ha
    apply hm
    by_contra hout
    exact ha (hin a (by omega) (by omega))

/-- A change of the descriptors and counters. -/
theorem ofExt4 {e : Ext4State} (h : Touches A s t) : Touches A s { t with ext4 := e } :=
  ⟨h.stores, h.mem, h.allocator, h.allocationBitmap⟩

/-- The bytes touched do not depend on the file system's own records. -/
theorem ofExt4_left {e : Ext4State} (h : Touches A s t) : Touches A { s with ext4 := e } t :=
  ⟨h.stores, h.mem, h.allocator, h.allocationBitmap⟩

/-- Bytes outside what was touched are read as before. -/
theorem read_eq (h : Touches A s t) {a n : ℕ} (hout : ∀ i < n, a + i ∉ A) :
    t.mem.read a n = s.mem.read a n := Mem.read_congr fun i hi => h.mem _ (hout i hi)

/-- Numbers outside what was touched are read as before. -/
theorem readLE_eq (h : Touches A s t) {a n : ℕ} (hout : ∀ i < n, a + i ∉ A) :
    t.mem.readLE a n = s.mem.readLE a n := by
  rw [Mem.readLE, Mem.readLE, h.read_eq hout]

end Touches

section Bitmaps

variable {s : State} {E : Halt → State → Prop}

/-- The bits of `fillLSBs`. -/
theorem testBit_fillLSBs (len i : ℕ) : (fillLSBs len).testBit i = decide (i < len) := by
  rw [fillLSBs, Nat.shiftLeft_eq, Nat.one_mul, Nat.testBit_two_pow_sub_one]

/-- The bits of the complement of `fillLSBs`. -/
theorem testBit_fillLSBs_not {len i : ℕ} (hlen : len < 32) (hi : i < 32) :
    (0xFFFFFFFF - fillLSBs len).testBit i = decide (len ≤ i) := by
  have hlt : fillLSBs len < 2 ^ 32 := by
    rw [fillLSBs, Nat.shiftLeft_eq, Nat.one_mul]
    have hpow : 2 ^ len < 2 ^ 32 := Nat.pow_lt_pow_right (by norm_num) hlen
    omega
  have hsub : 0xFFFFFFFF - fillLSBs len = 2 ^ 32 - (fillLSBs len + 1) := by omega
  rw [hsub, Nat.testBit_two_pow_sub_succ hlt, testBit_fillLSBs]
  by_cases h : len ≤ i
  · simp [hi, h, Nat.not_lt.mpr h]
  · simp [hi, h, Nat.not_le.mp h]

/-- A word joined with a mask that has the bits from `b` up to `e` of the bitmap. -/
theorem bitsSet_orLE (m : Mem) {a k mask b e : ℕ} (hlow : 32 * k ≤ b) (hhigh : e ≤ 32 * k + 32)
    (hmask : ∀ i < 32, mask.testBit i = decide (b ≤ 32 * k + i ∧ 32 * k + i < e)) :
    BitsSet a b e m (m.orLE (a + 4 * k) 4 mask) := by
  refine ⟨fun i => ?_, fun x hx => m.sameOutside_orLE _ _ _ _ (by omega)⟩
  rw [bitAt_orLE]
  congr 1
  by_cases hin : 8 * (4 * k) ≤ i ∧ i < 8 * (4 * k + 4)
  · rw [decide_eq_true hin, Bool.true_and, hmask _ (by omega), decide_eq_decide]
    omega
  · rw [decide_eq_false hin, Bool.false_and, eq_comm, decide_eq_false_iff_not]
    omega

/-- The words set as a whole. -/
theorem fillSegments_spec (count a k : ℕ) :
    wp (fillSegments count (a + 4 * k))
      (fun _ t => Touches (bytesFrom (a + 4 * k) (a + 4 * (k + count))) s t ∧ t.ext4 = s.ext4 ∧
        BitsSet a (32 * k) (32 * (k + count)) s.mem t.mem) E s := by
  induction count generalizing k s with
  | zero => exact ⟨Touches.refl _ s, rfl, BitsSet.refl _ _ _⟩
  | succ count ih =>
    rw [fillSegments, wp_bind, wp_storeLE]
    have hones : s.mem.write (a + 4 * k) (leBytes 4 0xFFFFFFFF) =
        s.mem.fill (a + 4 * k) 4 0xFF := by
      funext x
      simp only [Mem.write, Mem.fill, length_leBytes]
      split
      · have hbytes : leBytes 4 0xFFFFFFFF = List.replicate 4 0xFF := by decide
        rw [hbytes, List.getD_replicate _ (by omega)]
      · rfl
    have hfirst : Touches (bytesFrom (a + 4 * k) (a + 4 * (k + (count + 1)))) s
        (s.stored (a + 4 * k) 4 (s.mem.write (a + 4 * k) (leBytes 4 0xFFFFFFFF))) := by
      apply Touches.stored
      · intro x hlow hhigh
        exact ⟨hlow, by omega⟩
      · rw [hones]
        exact Mem.sameOutside_fill _ _ _ _
    have hbits : BitsSet a (32 * k) (32 * (k + 1)) s.mem
        (s.mem.write (a + 4 * k) (leBytes 4 0xFFFFFFFF)) := by
      rw [hones]
      refine ⟨fun i => ?_, fun x hx => Mem.sameOutside_fill _ _ _ _ _ (by omega)⟩
      rw [bitAt_fill_ones]
      congr 1
      rw [decide_eq_decide]
      omega
    refine wp_mono_ok (ih (k + 1)) ?_
    intro _ t ht
    obtain ⟨htouch, hext4, hrest⟩ := ht
    refine ⟨hfirst.trans (htouch.mono ?_), hext4, ?_⟩
    · intro x hx
      exact ⟨by have := hx.1; omega, by have := hx.2; omega⟩
    · have hall := hbits.trans hrest (by omega) (by omega)
      rwa [show k + 1 + count = k + (count + 1) by omega] at hall

/-- `bitmap_set_bits` sets the bits of its range. The word that holds the end is stored even if
no bit of it is in the range. -/
theorem bitmapSetBits_spec {a b e : ℕ} (hbe : b ≤ e) :
    wp (bitmapSetBits a b e)
      (fun _ t => Touches (bytesFrom (a + 4 * (b / 32)) (a + 4 * (e / 32) + 4)) s t ∧
        t.ext4 = s.ext4 ∧ BitsSet a b e s.mem t.mem) E s := by
  have hdiv : b / 32 ≤ e / 32 := Nat.div_le_div_right hbe
  have hword : ∀ (u : State) (k mask : ℕ), b / 32 ≤ k → k ≤ e / 32 →
      Touches (bytesFrom (a + 4 * (b / 32)) (a + 4 * (e / 32) + 4)) u
        (u.stored (a + 4 * k) 4 (u.mem.orLE (a + 4 * k) 4 mask)) := by
    intro u k mask hlow hhigh
    exact Touches.stored u (fun x hx hx' => ⟨by omega, by omega⟩) (u.mem.sameOutside_orLE _ _ _)
  rw [bitmapSetBits]
  refine wp_ite (fun hlt => ?_) (fun hge => ?_)
  · have hfirst : BitsSet a b (32 * (b / 32 + 1)) s.mem
        (s.mem.orLE (a + 4 * (b / 32)) 4 (0xFFFFFFFF - fillLSBs (b % 32))) := by
      apply bitsSet_orLE _ (by omega) (by omega)
      intro i hi
      rw [testBit_fillLSBs_not (Nat.mod_lt _ (by norm_num)) hi, decide_eq_decide]
      omega
    rw [wp_bind, wp_orWord, wp_bind, show a + 4 * (b / 32) + 4 = a + 4 * (b / 32 + 1) by omega]
    refine wp_mono_ok (fillSegments_spec _ a (b / 32 + 1)) ?_
    intro _ t ht
    obtain ⟨htouch, hext4, hmiddle⟩ := ht
    rw [wp_orWord]
    have hcount : b / 32 + 1 + (e / 32 - b / 32 - 1) = e / 32 := by omega
    rw [hcount] at htouch hmiddle
    have hlast : BitsSet a (32 * (e / 32)) e t.mem
        (t.mem.orLE (a + 4 * (e / 32)) 4 (fillLSBs (e % 32))) := by
      apply bitsSet_orLE _ le_rfl (by omega)
      intro i hi
      rw [testBit_fillLSBs, decide_eq_decide]
      omega
    refine ⟨?_, hext4, ?_⟩
    · refine ((hword s _ _ le_rfl hdiv).trans (htouch.mono ?_)).trans (hword t _ _ hdiv le_rfl)
      intro x hx
      exact ⟨by have := hx.1; omega, by have := hx.2; omega⟩
    · exact (hfirst.trans hmiddle (by omega) (by omega)).trans hlast (by omega) (by omega)
  · have heq : b / 32 = e / 32 := by omega
    rw [if_pos (by rw [heq]), wp_orWord]
    refine ⟨hword s _ _ le_rfl hdiv, rfl, ?_⟩
    apply bitsSet_orLE _ (by omega) (by omega)
    intro i hi
    rw [Nat.testBit_and, testBit_fillLSBs_not (Nat.mod_lt _ (by norm_num)) hi, testBit_fillLSBs,
      ← Bool.decide_and, decide_eq_decide]
    omega

/-- `bitmap_set_bit` sets its bit. -/
theorem bitmapSetBit_spec (a n : ℕ) :
    wp (bitmapSetBit a n)
      (fun _ t => Touches (bytesFrom (a + n / 8) (a + n / 8 + 1)) s t ∧ t.ext4 = s.ext4 ∧
        BitsSet a n (n + 1) s.mem t.mem) E s := by
  rw [bitmapSetBit, wp_orWord]
  refine ⟨Touches.stored s (fun x hx hx' => ⟨hx, hx'⟩) (s.mem.sameOutside_orLE _ _ _), rfl,
    fun i => ?_, fun x hx => s.mem.sameOutside_orLE _ _ _ _ (by omega)⟩
  rw [State.stored_mem, bitAt_orLE]
  congr 1
  rw [Nat.shiftLeft_eq, Nat.one_mul, Nat.testBit_two_pow, ← Bool.decide_and, decide_eq_decide]
  omega

end Bitmaps

/-- The places that a descriptor names. -/
structure PlacedDesc (g : Globals) (i : ℕ) (bg : Ext4GroupDesc) : Prop where
  blockBitmap : bg.blockBitmap g = blockBitmapAddr g i
  inodeBitmap : bg.inodeBitmap g = inodeBitmapAddr g i
  inodeTable : bg.inodeTable g = inodeTableAddr g i

/-- There is a descriptor for every group, and it names the places of its group. -/
structure Placed (g : Globals) (descs : List Ext4GroupDesc) : Prop where
  length : descs.length = blockGroupCount g.sb
  desc : ∀ i bg, descs[i]? = some bg → PlacedDesc g i bg

/-- Replace the descriptor of a group. -/
def Ext4State.setDesc (e : Ext4State) (i : ℕ) (bg : Ext4GroupDesc) : Ext4State :=
  { e with groupDescs := e.groupDescs.set i bg }

section Groups

variable {g : Globals} {s : State} {E : Halt → State → Prop}

/-- Each group has its descriptor. -/
theorem Placed.get (h : Placed g s.ext4.groupDescs) {i : ℕ} (hi : i < blockGroupCount g.sb) :
    ∃ bg, s.ext4.groupDescs[i]? = some bg ∧ PlacedDesc g i bg := by
  rw [← h.length] at hi
  exact ⟨_, List.getElem?_eq_getElem hi, h.desc i _ (List.getElem?_eq_getElem hi)⟩

/-- A descriptor with the same places may take the place of one. -/
theorem Placed.set {descs : List Ext4GroupDesc} (h : Placed g descs) {i : ℕ} {bg : Ext4GroupDesc}
    (hbg : PlacedDesc g i bg) : Placed g (descs.set i bg) := by
  refine ⟨by rw [List.length_set, h.length], fun j d hd => ?_⟩
  by_cases hij : i = j
  · subst hij
    have hlt : i < descs.length := by
      have hlen := (List.getElem?_eq_some_iff.mp hd).1
      rwa [List.length_set] at hlen
    rw [List.getElem?_set_self hlt, Option.some_inj] at hd
    exact hd ▸ hbg
  · rw [List.getElem?_set_ne hij] at hd
    exact h.desc j d hd

/-- A descriptor that is there is returned. -/
theorem wp_getGroupDesc {i : ℕ} {bg : Ext4GroupDesc} (h : s.ext4.groupDescs[i]? = some bg)
    {Q : Ext4GroupDesc → State → Prop} : wp (getGroupDesc i) Q E s ↔ Q bg s := by
  simp only [getGroupDesc, wp_bind, wp_get, h, wp_pure]

/-- Storing a descriptor changes only this one. -/
@[simp] theorem wp_setGroupDesc (i : ℕ) (bg : Ext4GroupDesc) (Q : Unit → State → Prop) :
    wp (setGroupDesc i bg) Q E s ↔ Q () { s with ext4 := s.ext4.setDesc i bg } := Iff.rfl

/-- `get_existing_inode` finds the place of the inode. -/
theorem getExistingInode_spec (hg : Accepted g) (h : Placed g s.ext4.groupDescs) {inodeNo : ℕ}
    (hplace : InodePlace g.sb inodeNo) {Q : ℕ → State → Prop} (hQ : Q (inodeAddr g inodeNo) s) :
    wp (getExistingInode g inodeNo) Q E s := by
  obtain ⟨bg, hbg, hdesc⟩ := h.get hplace.group
  obtain ⟨-, hindex⟩ := hg.inodeNo_eq hplace
  obtain ⟨-, -, -, -, hinodes, -⟩ := hg.numbers
  rw [getExistingInode, wp_bind, wp_getGroupDesc hbg, wp_pure, hdesc.inodeTable,
    hg.superBlockOf.inodeSize, u32_of_lt (by unfold ext4InodeSize; omega)]
  exact hQ

/-- The bytes of an inode that `add_inode` stores. -/
def inodeBytes (g : Globals) (inodeNo : ℕ) : Set ℕ :=
  bytesFrom (inodeAddr g inodeNo) (inodeAddr g inodeNo + ext4InodeSize)

/-- The byte of the inode bitmap that has the bit of an inode. -/
def inodeBitByte (g : Globals) (inodeNo : ℕ) : Set ℕ :=
  bytesFrom (inodeBitmapAddr g (inodeGroup g.sb inodeNo) + inodeIndex g.sb inodeNo / 8)
    (inodeBitmapAddr g (inodeGroup g.sb inodeNo) + inodeIndex g.sb inodeNo / 8 + 1)

/-- The words of the block bitmap of a group that hold the bits of a range, the word behind
included. -/
def blockBitBytes (g : Globals) (i b e : ℕ) : Set ℕ :=
  bytesFrom (blockBitmapAddr g i + 4 * ((b - blockGroupStart g.sb i) / 32))
    (blockBitmapAddr g i + 4 * ((e - blockGroupStart g.sb i) / 32) + 4)

/-- The descriptor behind `add_inode`. -/
def Ext4GroupDesc.useInode (bg : Ext4GroupDesc) : Ext4GroupDesc :=
  let freeInodes := decrLoHi32 bg.bgFreeInodesCountLo bg.bgFreeInodesCountHi 1
  { bg with bgFreeInodesCountLo := freeInodes.1, bgFreeInodesCountHi := freeInodes.2 }

/-- The descriptor behind `add_extent_to_block_bitmap`. -/
def Ext4GroupDesc.useBlocks (bg : Ext4GroupDesc) (count : ℕ) : Ext4GroupDesc :=
  let freeBlocks := decrLoHi32 bg.bgFreeBlocksCountLo bg.bgFreeBlocksCountHi count
  { bg with bgFreeBlocksCountLo := freeBlocks.1, bgFreeBlocksCountHi := freeBlocks.2 }

/-- Counting a directory leaves the places of a group. -/
theorem PlacedDesc.countDir {i : ℕ} {bg : Ext4GroupDesc} (h : PlacedDesc g i bg)
    (isDirectory : Bool) : PlacedDesc g i (bg.countDir isDirectory) := by
  cases isDirectory
  · exact h
  · exact ⟨h.blockBitmap, h.inodeBitmap, h.inodeTable⟩

/-- Taking an inode leaves the places of a group. -/
theorem PlacedDesc.useInode {i : ℕ} {bg : Ext4GroupDesc} (h : PlacedDesc g i bg) :
    PlacedDesc g i bg.useInode := ⟨h.blockBitmap, h.inodeBitmap, h.inodeTable⟩

/-- Taking blocks leaves the places of a group. -/
theorem PlacedDesc.useBlocks {i : ℕ} {bg : Ext4GroupDesc} (h : PlacedDesc g i bg) (count : ℕ) :
    PlacedDesc g i (bg.useBlocks count) := ⟨h.blockBitmap, h.inodeBitmap, h.inodeTable⟩

/-- `add_inode` for a number with a place: the inode and its bit are stored. -/
theorem addInode_spec (hg : Accepted g) (h : Placed g s.ext4.groupDescs) {inodeNo : ℕ}
    (hplace : InodePlace g.sb inodeNo) {inode : List UInt8} (hlength : inode.length ≤ ext4InodeSize)
    (isDirectory : Bool) {bg : Ext4GroupDesc}
    (hbg : s.ext4.groupDescs[inodeGroup g.sb inodeNo]? = some bg) :
    wp (addInode g inode isDirectory inodeNo)
      (fun _ t => Touches (inodeBitByte g inodeNo ∪ inodeBytes g inodeNo) s t ∧
        t.mem.read (inodeAddr g inodeNo) inode.length = inode ∧
        (∃ m, BitsSet (inodeBitmapAddr g (inodeGroup g.sb inodeNo)) (inodeIndex g.sb inodeNo)
            (inodeIndex g.sb inodeNo + 1) s.mem m ∧
          t.mem = m.write (inodeAddr g inodeNo) inode) ∧
        t.ext4 = s.ext4.setDesc (inodeGroup g.sb inodeNo) (bg.useInode.countDir isDirectory)) E s := by
  have hdesc := h.desc _ _ hbg
  obtain ⟨-, hindex⟩ := hg.inodeNo_eq hplace
  obtain ⟨-, -, -, -, hinodes, -⟩ := hg.numbers
  rw [addInode]
  dsimp only
  rw [if_neg (Nat.not_le.mpr hplace.group), wp_bind, wp_getGroupDesc hbg, hdesc.inodeBitmap,
    hdesc.inodeTable, hg.superBlockOf.inodeSize, u32_of_lt (by unfold ext4InodeSize; omega),
    ← inodeAddr, wp_bind]
  refine wp_mono_ok (bitmapSetBit_spec _ _) ?_
  intro _ t ht
  obtain ⟨htouch, hext4, hbits⟩ := ht
  simp only [wp_bind, wp_storeBytes, wp_setGroupDesc, State.stored_ext4, State.stored_mem]
  have hstore : Touches (inodeBitByte g inodeNo ∪ inodeBytes g inodeNo) t
      (t.stored (inodeAddr g inodeNo) inode.length (t.mem.write (inodeAddr g inodeNo) inode)) :=
    Touches.stored t (fun x hx hx' => Or.inr ⟨hx, by omega⟩) (Mem.sameOutside_write _ _ _)
  refine ⟨((htouch.mono Set.subset_union_left).trans hstore).ofExt4, Mem.read_write _ _ _,
    ⟨t.mem, hbits, rfl⟩, ?_⟩
  rw [hext4]
  rfl

/-- `add_inode` for a number behind the last group. -/
theorem addInode_full {inodeNo : ℕ} (hgroup : blockGroupCount g.sb ≤ inodeGroup g.sb inodeNo)
    {inode : List UInt8} {isDirectory : Bool} {Q : Unit → State → Prop}
    (hE : E (.exit notEnoughInodesMessage) s) : wp (addInode g inode isDirectory inodeNo) Q E s := by
  rw [addInode]
  dsimp only
  rw [if_pos hgroup, wp_throw]
  exact hE

/-- `add_reserved_inode` stores the inode only. -/
theorem addReservedInode_spec (hg : Accepted g) (h : Placed g s.ext4.groupDescs) {inodeNo : ℕ}
    (hplace : InodePlace g.sb inodeNo) {inode : List UInt8} (hlength : inode.length ≤ ext4InodeSize)
    (isDirectory : Bool) {bg : Ext4GroupDesc}
    (hbg : s.ext4.groupDescs[inodeGroup g.sb inodeNo]? = some bg) :
    wp (addReservedInode g inode isDirectory inodeNo)
      (fun _ t => Touches (inodeBytes g inodeNo) s t ∧
        t.mem = s.mem.write (inodeAddr g inodeNo) inode ∧
        t.ext4 = s.ext4.setDesc (inodeGroup g.sb inodeNo) (bg.countDir isDirectory)) E s := by
  have hdesc := h.desc _ _ hbg
  obtain ⟨-, hindex⟩ := hg.inodeNo_eq hplace
  obtain ⟨-, -, -, -, hinodes, -⟩ := hg.numbers
  rw [addReservedInode]
  rw [wp_bind, wp_getGroupDesc hbg, hdesc.inodeTable, hg.superBlockOf.inodeSize,
    u32_of_lt (by unfold ext4InodeSize; omega), ← inodeAddr]
  simp only [wp_bind, wp_storeBytes, wp_setGroupDesc]
  have hstore : Touches (inodeBytes g inodeNo) s
      (s.stored (inodeAddr g inodeNo) inode.length (s.mem.write (inodeAddr g inodeNo) inode)) :=
    Touches.stored s (fun x hx hx' => ⟨hx, by omega⟩) (Mem.sameOutside_write _ _ _)
  exact ⟨hstore.ofExt4, rfl, rfl⟩

/-- `add_extent_to_block_bitmap` for a range of data blocks. -/
theorem addExtentToBlockBitmap_spec (hg : Accepted g) (h : Placed g s.ext4.groupDescs) {b n : ℕ}
    (hpos : 0 < n) (hdata : ∀ k < n, DataBlock g (b + k)) (bg : Ext4GroupDesc)
    (hbg : s.ext4.groupDescs[groupOfBlock g.sb b]? = some bg) :
    wp (addExtentToBlockBitmap g b (b + n))
      (fun _ t => Touches (blockBitBytes g (groupOfBlock g.sb b) b (b + n)) s t ∧
        BitsSet (blockBitmapAddr g (groupOfBlock g.sb b))
          (b - blockGroupStart g.sb (groupOfBlock g.sb b))
          (b + n - blockGroupStart g.sb (groupOfBlock g.sb b)) s.mem t.mem ∧
        t.ext4 = s.ext4.setDesc (groupOfBlock g.sb b) (bg.useBlocks n)) E s := by
  have hdesc := h.desc _ _ hbg
  have hpartition := hg.partitionBlocks_lt
  have hfirst := hg.sFirstDataBlock_le
  have hblockPos := hg.dataBlock_pos
  obtain ⟨hgroups, -⟩ := hg.numbers
  have hb : DataBlock g b := hdata 0 hpos
  have hlast := (hdata (n - 1) (by omega)).upper
  have hlower := hb.lower
  rw [hg.blockCount_eq] at hlast
  obtain ⟨hi, hover, -, hlt⟩ := hg.groupOfBlock_spec hb
  have hdiv : (b - g.sb.sFirstDataBlock) / g.sb.sBlocksPerGroup ≤ b - g.sb.sFirstDataBlock :=
    Nat.div_le_self _ _
  have hnum : u32 (sub64 b g.sb.sFirstDataBlock / g.sb.sBlocksPerGroup) = groupOfBlock g.sb b := by
    rw [sub64_of_le (by omega) (by omega), u32_of_lt (by omega), groupOfBlock]
  rw [addExtentToBlockBitmap]
  dsimp only
  rw [hnum, wp_bind, wp_getGroupDesc hbg, hdesc.blockBitmap, sub64_of_le (by omega) (by omega),
    sub64_of_le (by omega) (by omega), sub64_of_le (by omega) (by omega), u32_of_lt (by omega),
    u32_of_lt (by omega), u32_of_lt (by omega), wp_bind, Nat.add_sub_cancel_left]
  refine wp_mono_ok (bitmapSetBits_spec (by omega)) ?_
  intro _ t ht
  obtain ⟨htouch, hext4, hbits⟩ := ht
  rw [wp_setGroupDesc]
  refine ⟨htouch.ofExt4, hbits, ?_⟩
  rw [hext4]
  rfl

end Groups

end OfsConvert
