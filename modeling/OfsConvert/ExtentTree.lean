import OfsConvert.RangeRegistration

/-!
# Extent trees of an inode and one leaf

The first four extents of an inode are in the inode itself. With the fifth the tree gets one leaf,
which `append_to_extent_tree` fills; `TreeAt` describes the tree up to there.
-/

namespace OfsConvert

/-- The node at a header holds the given extents. -/
structure NodeAt (m : Mem) (header max : ℕ) (es : List Ext4Extent) : Prop where
  magic : m.readLE header 2 = ehMagic
  count : ehEntries m header = es.length
  capacity : ehMax m header = max
  depth : ehDepth m header = 0
  fits : es.length ≤ max
  holds : m.read (header + sizeofExtentHeader) (sizeofExtent * es.length) =
    es.flatMap Ext4Extent.bytes

/-- The node at a header has one index entry, for the leaf at block `b`. -/
structure IndexAt (m : Mem) (header b : ℕ) : Prop where
  magic : m.readLE header 2 = ehMagic
  count : ehEntries m header = 1
  capacity : ehMax m header = 4
  depth : ehDepth m header = 1
  eiBlock : m.readLE (header + sizeofExtentHeader) 4 = 0
  leafLo : m.readLE (header + sizeofExtentHeader + 4) 4 = b
  leafHi : m.readLE (header + sizeofExtentHeader + 8) 2 = 0

/-- The address of the root of the extent tree of an inode. -/
def rootHeader (g : Globals) (n : ℕ) : ℕ := inodeAddr g n + extHeaderOffset

/-- The bytes of the root. -/
def rootBytes (g : Globals) (n : ℕ) : Set ℕ :=
  bytesFrom (rootHeader g n) (rootHeader g n + 5 * sizeofExtentHeader)

/-- The extent tree of an inode holds the given extents, in the inode or in the leaf at a block. -/
def TreeAt (g : Globals) (m : Mem) (n : ℕ) (es : List Ext4Extent) : Option ℕ → Prop
  | none => NodeAt m (rootHeader g n) 4 es
  | some b => IndexAt m (rootHeader g n) b ∧ 4 ≤ es.length ∧
      NodeAt m (blockStart g.metaInfo g.sb b) (maxEntries g) es

/-- The tree after one more extent than the leaf has room for: the index entry is overwritten. -/
structure SpilledAt (g : Globals) (m : Mem) (n : ℕ) (es : List Ext4Extent) (e : Ext4Extent)
    (b : ℕ) : Prop where
  magic : m.readLE (rootHeader g n) 2 = ehMagic
  count : ehEntries m (rootHeader g n) = 1
  capacity : ehMax m (rootHeader g n) = 4
  depth : ehDepth m (rootHeader g n) = 1
  overwritten : m.read (rootHeader g n + sizeofExtentHeader) sizeofExtent = e.bytes
  leaf : NodeAt m (blockStart g.metaInfo g.sb b) (maxEntries g) es
  full : es.length = maxEntries g

/-- A packed extent has twelve bytes. -/
theorem length_extent_bytes (e : Ext4Extent) : e.bytes.length = sizeofExtent := by
  unfold Ext4Extent.bytes sizeofExtent
  simp only [List.length_append, length_leBytes]

/-- Packed extents have twelve bytes each. -/
theorem length_extents_bytes (es : List Ext4Extent) :
    (es.flatMap Ext4Extent.bytes).length = sizeofExtent * es.length := by
  induction es with
  | nil => rfl
  | cons e es ih =>
    rw [List.flatMap_cons, List.length_append, ih, length_extent_bytes, List.length_cons,
      Nat.mul_succ, Nat.add_comm]

section

variable {m m' : Mem} {header max b : ℕ} {es : List Ext4Extent}

/-- A node depends on its own bytes only. -/
theorem NodeAt.congr (h : NodeAt m header max es)
    (hm : ∀ a, header ≤ a → a < header + sizeofExtent * (max + 1) → m' a = m a) :
    NodeAt m' header max es := by
  have hfits := h.fits
  unfold sizeofExtent at hm
  have hfield : ∀ i w, i + w ≤ 12 → m'.readLE (header + i) w = m.readLE (header + i) w :=
    fun i w hiw => Mem.readLE_congr fun j hj => hm _ (by omega) (by omega)
  refine ⟨?_, ?_, ?_, ?_, hfits, ?_⟩
  · rw [← h.magic]
    exact hfield 0 2 (by omega)
  · rw [← h.count]
    exact hfield 2 2 (by omega)
  · rw [← h.capacity]
    exact hfield 4 2 (by omega)
  · rw [← h.depth]
    exact hfield 6 2 (by omega)
  · rw [← h.holds]
    unfold sizeofExtentHeader sizeofExtent
    exact Mem.read_congr fun i hi => hm _ (by omega) (by omega)

/-- An index node depends on its own bytes only. -/
theorem IndexAt.congr (h : IndexAt m header b)
    (hm : ∀ a, header ≤ a → a < header + 5 * sizeofExtentHeader → m' a = m a) :
    IndexAt m' header b := by
  unfold sizeofExtentHeader at hm
  have hfield : ∀ i w, i + w ≤ 24 → m'.readLE (header + i) w = m.readLE (header + i) w :=
    fun i w hiw => Mem.readLE_congr fun j hj => hm _ (by omega) (by omega)
  refine ⟨?_, ?_, ?_, ?_, ?_, ?_, ?_⟩
  · rw [← h.magic]
    exact hfield 0 2 (by omega)
  · rw [← h.count]
    exact hfield 2 2 (by omega)
  · rw [← h.capacity]
    exact hfield 4 2 (by omega)
  · rw [← h.depth]
    exact hfield 6 2 (by omega)
  · rw [← h.eiBlock]
    exact hfield 12 4 (by omega)
  · rw [← h.leafLo]
    exact hfield 16 4 (by omega)
  · rw [← h.leafHi]
    exact hfield 20 2 (by omega)

end

section

variable {g : Globals} {s t : State} {E : Halt → State → Prop} {header max b n : ℕ}
  {es : List Ext4Extent} {e : Ext4Extent}

/-- A store of a number keeps the numbers beside it. -/
theorem readLE_write_other {m : Mem} {a w v p k : ℕ} (hd : p + k ≤ a ∨ a + w ≤ p) :
    (m.write a (leBytes w v)).readLE p k = m.readLE p k := by
  have hwrite := Mem.sameOutside_write m a (leBytes w v)
  rw [length_leBytes] at hwrite
  exact hwrite.readLE_eq hd

/-- A store of a number. -/
theorem Touches.storedLE (s : State) {A : Set ℕ} {p w v : ℕ}
    (hin : ∀ a, p ≤ a → a < p + w → a ∈ A) :
    Touches A s (s.stored p w (s.mem.write p (leBytes w v))) := by
  have hwrite := Mem.sameOutside_write s.mem p (leBytes w v)
  rw [length_leBytes] at hwrite
  exact Touches.stored s hin hwrite

/-- `append_in_block` when there is room. -/
theorem appendInBlock_room (h : NodeAt s.mem header max es) (hroom : es.length < max)
    (hmax : max < 2 ^ 16) :
    wp (appendInBlock header e)
      (fun ok t => ok = true ∧
        Touches (bytesFrom header (header + sizeofExtent * (max + 1))) s t ∧
        t.ext4 = s.ext4 ∧ NodeAt t.mem header max (es ++ [e])) E s := by
  have hlen := length_extent_bytes e
  have hcount := h.count
  unfold sizeofExtent at hlen
  rw [appendInBlock]
  simp only [wp_bind, wp_getMem]
  rw [if_neg (by rw [h.capacity, h.count]; omega), h.count]
  simp only [wp_bind, wp_storeBytes, wp_getMem, wp_storeLE, wp_pure, State.stored_mem]
  have hwrite : Mem.SameOutside (entryAddr header es.length) 12 s.mem
      (s.mem.write (entryAddr header es.length) e.bytes) := by
    have hw := Mem.sameOutside_write s.mem (entryAddr header es.length) e.bytes
    rwa [hlen] at hw
  have hcount' : ehEntries (s.mem.write (entryAddr header es.length) e.bytes) header =
      es.length := by
    refine Eq.trans ?_ hcount
    exact hwrite.readLE_eq (Or.inl (by unfold entryAddr sizeofExtent; omega))
  rw [hcount', u16_of_lt (by omega)]
  have hfield : ∀ i w, i + w ≤ 2 ∨ 4 ≤ i ∧ i + w ≤ 12 →
      ((s.mem.write (entryAddr header es.length) e.bytes).write (header + 2)
        (leBytes 2 (es.length + 1))).readLE (header + i) w = s.mem.readLE (header + i) w := by
    intro i w hiw
    rw [readLE_write_other (by omega)]
    exact hwrite.readLE_eq (Or.inl (by unfold entryAddr sizeofExtent; omega))
  refine ⟨trivial, ?_, rfl, ⟨?_, ?_, ?_, ?_, ?_, ?_⟩⟩
  · refine (Touches.stored s (fun a hlow hhigh => ?_) (Mem.sameOutside_write _ _ _)).trans
      (Touches.storedLE _ fun a hlow hhigh => ?_)
    · rw [hlen] at hhigh
      unfold entryAddr sizeofExtent at *
      exact ⟨by omega, by omega⟩
    · unfold sizeofExtent
      exact ⟨by omega, by omega⟩
  · rw [← h.magic]
    exact hfield 0 2 (by omega)
  · rw [List.length_append, List.length_singleton]
    exact Mem.readLE_write_leBytes (by omega)
  · rw [← h.capacity]
    exact hfield 4 2 (by omega)
  · rw [← h.depth]
    exact hfield 6 2 (by omega)
  · rw [List.length_append, List.length_singleton]
    exact hroom
  · have hsecond := Mem.sameOutside_write (s.mem.write (entryAddr header es.length) e.bytes)
      (header + 2) (leBytes 2 (es.length + 1))
    rw [length_leBytes] at hsecond
    rw [hsecond.read_eq (Or.inr (by unfold sizeofExtentHeader; omega)), List.length_append,
      List.length_singleton, Nat.mul_add, Mem.read_add, List.flatMap_append, List.flatMap_cons,
      List.flatMap_nil, List.append_nil, ← h.holds]
    congr 1
    · exact hwrite.read_eq (Or.inl (by
        unfold entryAddr sizeofExtentHeader sizeofExtent
        omega))
    · have haddr : header + sizeofExtentHeader + sizeofExtent * es.length =
          entryAddr header es.length := by
        unfold entryAddr sizeofExtentHeader sizeofExtent
        omega
      rw [haddr]
      exact Mem.read_write_of_length (length_extent_bytes e)

/-- `append_in_block` when the node is full. -/
theorem appendInBlock_full (h : NodeAt s.mem header max es) (hfull : es.length = max)
    {Q : Bool → State → Prop} (hQ : Q false s) : wp (appendInBlock header e) Q E s := by
  rw [appendInBlock]
  simp only [wp_bind, wp_getMem]
  rw [if_pos (by rw [h.capacity, h.count, hfull]), wp_pure]
  exact hQ

/-- A leaf has at least 84 entries, and they fit its block. -/
theorem Accepted.maxEntries_eq (hg : Accepted g) :
    maxEntries g = (blockSize g.sb - 12) / 12 ∧ 84 ≤ maxEntries g ∧ maxEntries g < 2 ^ 16 ∧
      sizeofExtent * (maxEntries g + 1) ≤ blockSize g.sb := by
  have hlow := hg.blockSize_ge
  have hhigh := hg.blockSize_le
  have heq : maxEntries g = (blockSize g.sb - 12) / 12 := by
    rw [maxEntries, sizeofExtentHeader, sizeofExtent, sub64_of_le (by omega) (by omega),
      u16_of_lt (by omega)]
  rw [heq]
  unfold sizeofExtent
  refine ⟨rfl, by omega, by omega, by omega⟩

/-- Appending to a tree that is in the inode. -/
theorem appendToExtentTree_root (h : TreeAt g s.mem n es none) (hroom : es.length < 4)
    (fuel : ℕ) :
    wp (appendToExtentTree g e n (fuel + 1) (rootHeader g n))
      (fun ok t => ok = true ∧ Touches (rootBytes g n) s t ∧ t.ext4 = s.ext4 ∧
        TreeAt g t.mem n (es ++ [e]) none) E s := by
  have hnode : NodeAt s.mem (rootHeader g n) 4 es := h
  rw [appendToExtentTree]
  simp only [wp_bind, wp_getMem]
  rw [if_pos hnode.depth]
  exact appendInBlock_room hnode hroom (by norm_num)

/-- A full root in the inode takes no further extent. -/
theorem appendToExtentTree_rootFull (h : TreeAt g s.mem n es none) (hfull : es.length = 4)
    (fuel : ℕ) {Q : Bool → State → Prop} (hQ : Q false s) :
    wp (appendToExtentTree g e n (fuel + 1) (rootHeader g n)) Q E s := by
  have hnode : NodeAt s.mem (rootHeader g n) 4 es := h
  rw [appendToExtentTree]
  simp only [wp_bind, wp_getMem]
  rw [if_pos hnode.depth]
  exact appendInBlock_full hnode hfull hQ

/-- The child that the index entry of a root names. -/
theorem IndexAt.childBlock (h : IndexAt s.mem header b) (hb : b < 2 ^ 32) :
    u32 (fromLoHi (s.mem.readLE (header + sizeofExtent * ehEntries s.mem header + 4) 4)
      (s.mem.readLE (header + sizeofExtent * ehEntries s.mem header + 8) 2)) = b := by
  have hlo := h.leafLo
  have hhi := h.leafHi
  unfold sizeofExtentHeader at hlo hhi
  rw [h.count, sizeofExtent, Nat.mul_one, hlo, hhi, fromLoHi_eq hb, Nat.zero_mul, Nat.zero_add,
    u32_of_lt hb]

/-- Appending to a tree whose leaf has room. -/
theorem appendToExtentTree_leaf (hg : Accepted g) (h : TreeAt g s.mem n es (some b))
    (hb : b < 2 ^ 32) (hroom : es.length < maxEntries g) (fuel : ℕ) :
    wp (appendToExtentTree g e n (fuel + 2) (rootHeader g n))
      (fun ok t => ok = true ∧
        Touches (bytesFrom (blockStart g.metaInfo g.sb b)
          (blockStart g.metaInfo g.sb b + blockSize g.sb)) s t ∧ t.ext4 = s.ext4 ∧
        NodeAt t.mem (blockStart g.metaInfo g.sb b) (maxEntries g) (es ++ [e])) E s := by
  obtain ⟨hindex, -, hnode⟩ := h
  obtain ⟨-, -, hmax, hsize⟩ := hg.maxEntries_eq
  rw [appendToExtentTree]
  simp only [wp_bind, wp_getMem]
  rw [if_neg (by rw [hindex.depth]; decide), hindex.childBlock hb, wp_bind, appendToExtentTree]
  simp only [wp_bind, wp_getMem]
  rw [if_pos hnode.depth]
  refine wp_mono_ok (appendInBlock_room hnode hroom hmax) ?_
  intro ok t ht
  obtain ⟨rfl, htouch, hext4, hnode'⟩ := ht
  rw [if_pos rfl, wp_pure]
  refine ⟨rfl, htouch.mono ?_, hext4, hnode'⟩
  intro a ha
  exact ⟨ha.1, ha.2.trans_le (by omega)⟩

/-- Appending to a tree whose leaf is full overwrites the index entry of the root. -/
theorem appendToExtentTree_spill (h : TreeAt g s.mem n es (some b))
    (hb : b < 2 ^ 32) (hfull : es.length = maxEntries g) (fuel : ℕ) :
    wp (appendToExtentTree g e n (fuel + 2) (rootHeader g n))
      (fun ok t => ok = true ∧ t = s.stored (rootHeader g n + sizeofExtentHeader) sizeofExtent
        (s.mem.write (rootHeader g n + sizeofExtentHeader) e.bytes)) E s := by
  obtain ⟨hindex, -, hnode⟩ := h
  have hlen := length_extent_bytes e
  rw [appendToExtentTree]
  simp only [wp_bind, wp_getMem]
  rw [if_neg (by rw [hindex.depth]; decide), hindex.childBlock hb, wp_bind, appendToExtentTree]
  simp only [wp_bind, wp_getMem]
  rw [if_pos hnode.depth]
  refine appendInBlock_full hnode hfull ?_
  rw [if_neg (by decide)]
  simp only [wp_bind, wp_getMem, hindex.count, hindex.capacity, hindex.depth]
  rw [if_pos (by norm_num), wp_bind, appendToNewIdxPath, newIdxPath]
  have hzero : u16 (sub32 1 1) = 0 := by decide
  rw [hzero, if_neg (Nat.lt_irrefl 0)]
  simp only [wp_bind, wp_pure, wp_storeBytes, hlen]
  exact ⟨trivial, rfl⟩

end

end OfsConvert
