import OfsConvert.TreeDeepening

/-!
# Appending to a tree of any depth

`append_to_extent_tree` follows the last entries of a tree down to a leaf. If the leaf has room, the
tree keeps all its extents and gets one more. If it has none, the entry of an index node is
overwritten, and the tree is no tree any more.
-/

namespace OfsConvert

/-- The block that the last entry of an index node names. -/
def lastChildBlock (m : Mem) (header : ℕ) : ℕ :=
  fromLoHi (m.readLE (header + sizeofExtent * ehEntries m header + 4) 4)
    (m.readLE (header + sizeofExtent * ehEntries m header + 8) 2)

/-- The leaf that the last entries lead to. -/
def lastLeafOf (g : Globals) (m : Mem) : ℕ → ℕ → ℕ
  | 0, header => header
  | depth + 1, header => lastLeafOf g m depth (blockStart g.metaInfo g.sb (lastChildBlock m header))

/-- The last entries lead to a block that holds no data. -/
inductive BrokenSpine (g : Globals) (m : Mem) : ℕ → ℕ → Prop where
  | here {depth header : ℕ} (hbad : ¬ DataBlock g (lastChildBlock m header)) :
      BrokenSpine g m (depth + 1) header
  | deeper {depth header : ℕ}
      (hbelow : BrokenSpine g m depth (blockStart g.metaInfo g.sb (lastChildBlock m header))) :
      BrokenSpine g m (depth + 1) header

/-- The root of an inode, or a node in an owned block, with its capacity. -/
inductive IsNode (g : Globals) (n : ℕ) (owned : ℕ → Prop) : ℕ → ℕ → Prop where
  | root : IsNode g n owned (rootHeader g n) 4
  | block {b : ℕ} (hb : owned b) :
      IsNode g n owned (blockStart g.metaInfo g.sb b) (maxEntries g)

/-- The bytes of a node. -/
def nodeBytes (header max : ℕ) : Set ℕ := bytesFrom header (header + sizeofExtent * (max + 1))

section Nodes

variable {g : Globals} {n : ℕ} {owned : ℕ → Prop} {m m' : Mem}
  {header header' max max' depth count p : ℕ} {es : List Ext4Extent} {e last : Ext4Extent}

/-- A node has less than 2^16 entries. -/
theorem IsNode.max_lt (hg : Accepted g) (h : IsNode g n owned header max) : max < 2 ^ 16 := by
  obtain ⟨-, -, hmax, -⟩ := hg.maxEntries_eq
  cases h with
  | root => norm_num
  | block => exact hmax

/-- Different nodes share no byte. -/
theorem IsNode.apart (hg : Accepted g) (hn : InodePlace g.sb n)
    (howned : ∀ b, owned b → DataBlock g b) (h : IsNode g n owned header max)
    (h' : IsNode g n owned header' max') (hne : header ≠ header') {a : ℕ}
    (ha : a ∈ nodeBytes header max) : a ∉ nodeBytes header' max' := by
  obtain ⟨-, -, -, hsize⟩ := hg.maxEntries_eq
  have hroot : ∀ {c a}, owned c → a ∈ nodeBytes (rootHeader g n) 4 →
      a ∉ nodeBytes (blockStart g.metaInfo g.sb c) (maxEntries g) := by
    intro c a hc hin hin'
    have hrootByte : a ∈ rootBytes g n := hin
    have hinode := rootBytes_subset hrootByte
    obtain ⟨d, hd, -, hda⟩ := hg.inodeAddr_inPrefix hn hinode.1 hinode.2
    obtain rfl := inBlock_unique ⟨hin'.1, hin'.2.trans_le (Nat.add_le_add_left hsize _)⟩ hda
    exact (howned _ hc).outside ⟨_, hn.group, hd⟩
  intro ha'
  cases h with
  | root =>
    cases h' with
    | root => exact hne rfl
    | block hb => exact hroot hb ha ha'
  | block hb =>
    cases h' with
    | root => exact hroot hb ha' ha
    | block hb' =>
      refine hne (congrArg _ (inBlock_unique (a := a) ⟨ha.1, ?_⟩ ⟨ha'.1, ?_⟩))
      · exact ha.2.trans_le (Nat.add_le_add_left hsize _)
      · exact ha'.2.trans_le (Nat.add_le_add_left hsize _)

/-- The last entry of an index node names the tree with the last extents. -/
theorem ExtentChildren.lastEntry (hnode : NodeHeader m header max (depth + 1) (count + 1))
    (h : ExtentChildren g m owned depth (header + sizeofExtentHeader) (count + 1) es) :
    ∃ front e₀ rest, es = front ++ e₀ :: rest ∧
      ExtentChildren g m owned depth (header + sizeofExtentHeader) count front ∧
      m.readLE (header + sizeofExtentHeader + sizeofExtent * count) 4 = e₀.eeBlock ∧
      owned (lastChildBlock m header) ∧
      ExtentSubtree g m owned (blockStart g.metaInfo g.sb (lastChildBlock m header)) (maxEntries g)
        depth (e₀ :: rest) := by
  rw [lastChildBlock, hnode.lastPlace]
  exact h.last

/-- A tree that has a broken spine is not well formed. -/
theorem BrokenSpine.not_subtree (h : BrokenSpine g m depth header)
    (howned : ∀ b, owned b → DataBlock g b) : ¬ ExtentSubtree g m owned header max depth es := by
  induction h generalizing max es with
  | here hbad =>
    intro htree
    cases htree with
    | index hnode hchildren =>
      obtain ⟨count, rfl⟩ := hnode.exists_succ
      obtain ⟨-, -, -, -, -, -, hown, -⟩ := hchildren.lastEntry hnode
      exact hbad (howned _ hown)
  | deeper _ ih =>
    intro htree
    cases htree with
    | index hnode hchildren =>
      obtain ⟨count, rfl⟩ := hnode.exists_succ
      obtain ⟨_, _, _, -, -, -, -, hchild⟩ := hchildren.lastEntry hnode
      exact ih hchild

/-- Stores to another node keep a header. -/
theorem NodeHeader.keep (h : NodeHeader m header max depth count)
    (hm : ∀ a ∈ nodeBytes header max, m' a = m a) : NodeHeader m' header max depth count := by
  refine h.move fun i hi => hm _ ⟨Nat.le_add_right _ _, ?_⟩
  unfold sizeofExtent
  omega

/-- The last child is read from the node. -/
theorem lastChildBlock_congr (hfits : ehEntries m header ≤ max)
    (hm : ∀ a ∈ nodeBytes header max, m' a = m a) :
    lastChildBlock m' header = lastChildBlock m header := by
  have hfield : ∀ i w, i + w ≤ sizeofExtent * (max + 1) →
      m'.readLE (header + i) w = m.readLE (header + i) w :=
    fun i w hiw => Mem.readLE_congr fun j hj => hm _ ⟨by omega, by omega⟩
  unfold sizeofExtent at hfield
  have hcount : ehEntries m' header = ehEntries m header := hfield 2 2 (by omega)
  unfold lastChildBlock sizeofExtent
  rw [hcount, Nat.add_assoc, Nat.add_assoc, hfield _ 4 (by omega), hfield _ 2 (by omega)]

/-- A tree without the last extent of a leaf does not reach this leaf, so changes there keep it. -/
theorem ExtentSubtree.keep (hg : Accepted g) (hn : InodePlace g.sb n)
    (howned : ∀ b, owned b → DataBlock g b) {leaf leafMax : ℕ}
    (hleaf : IsNode g n owned leaf leafMax) (hdepth : ehDepth m leaf = 0)
    (hm : ∀ a, a ∉ nodeBytes leaf leafMax → m' a = m a)
    (hnode : IsNode g n owned header max) (h : ExtentSubtree g m owned header max depth es)
    (htyped : ∀ e ∈ es, e.Typed)
    (hlast : ext4ExtentAt m (leaf + sizeofExtent * ehEntries m leaf) ∉ es) :
    ExtentSubtree g m' owned header max depth es := by
  have hsame : ∀ {h' max'}, IsNode g n owned h' max' → h' ≠ leaf →
      ∀ a ∈ nodeBytes h' max', m' a = m a :=
    fun hnode' hne a ha => hm a (hnode'.apart hg hn howned hleaf hne ha)
  induction depth generalizing header max es with
  | zero =>
    cases h with
    | leaf hheader hholds =>
      have hne : header ≠ leaf := by
        rintro rfl
        exact hlast (List.mem_of_getLast? (getLast_of_leaf hheader hholds htyped))
      have hfits := hheader.fits
      refine ExtentSubtree.leaf (hheader.keep (hsame hnode hne)) ?_
      rw [← hholds]
      refine Mem.read_congr fun i hi => hsame hnode hne _ ⟨?_, ?_⟩
      · unfold sizeofExtentHeader
        omega
      · unfold sizeofExtent at *
        unfold sizeofExtentHeader
        omega
  | succ depth ih =>
    cases h with
    | @index _ _ _ count _ hheader hchildren =>
      have hne : header ≠ leaf := by
        rintro rfl
        rw [hheader.depth] at hdepth
        exact Nat.succ_ne_zero depth hdepth
      have hfits := hheader.fits
      refine ExtentSubtree.index (hheader.keep (hsame hnode hne)) (hchildren.move (fun i hi => ?_)
        (fun _ hb => hb) fun b es' hb hsub hchild => ?_)
      · refine hsame hnode hne _ ⟨?_, ?_⟩
        · unfold sizeofExtentHeader
          omega
        · unfold sizeofExtent at *
          unfold sizeofExtentHeader
          omega
      · exact ih (IsNode.block hb) hchild (fun e he => htyped e (hsub he)) fun he =>
          hlast (hsub he)

/-- One more index entry behind others. -/
theorem ExtentChildren.snoc {front rest : List Ext4Extent} {b : ℕ}
    (h : ExtentChildren g m owned depth p count front) (hown : owned b)
    (heiBlock : m.readLE (p + sizeofExtent * count) 4 = e.eeBlock)
    (hleaf : fromLoHi (m.readLE (p + sizeofExtent * count + 4) 4)
      (m.readLE (p + sizeofExtent * count + 8) 2) = b)
    (hchild : ExtentSubtree g m owned (blockStart g.metaInfo g.sb b) (maxEntries g) depth
      (e :: rest)) :
    ExtentChildren g m owned depth p (count + 1) (front ++ e :: rest) := by
  induction count generalizing p front with
  | zero =>
    cases h
    rw [List.nil_append, ← List.append_nil (e :: rest), List.cons_append]
    exact ExtentChildren.cons hown heiBlock hleaf hchild ExtentChildren.nil
  | succ count ih =>
    have hplace : p + sizeofExtent * (count + 1) = p + sizeofExtent + sizeofExtent * count := by
      unfold sizeofExtent
      omega
    rw [hplace] at heiBlock hleaf
    cases h with
    | cons hown' heiBlock' hleaf' hchild' hrest =>
      rw [List.append_assoc]
      exact ExtentChildren.cons hown' heiBlock' hleaf' hchild' (ih hrest heiBlock hleaf)

end Nodes

section Appending

variable {g : Globals} {s t : State} {E : Halt → State → Prop} {n : ℕ} {owned : ℕ → Prop}
  {header max depth fuel : ℕ} {es : List Ext4Extent} {e last : Ext4Extent}

/-- The child that `append_to_extent_tree` goes to. -/
theorem childBlock_eq (hg : Accepted g) (hdata : DataBlock g (lastChildBlock s.mem header)) :
    u32 (fromLoHi (s.mem.readLE (header + sizeofExtent * ehEntries s.mem header + 4) 4)
      (s.mem.readLE (header + sizeofExtent * ehEntries s.mem header + 8) 2)) =
        lastChildBlock s.mem header := u32_of_lt (hdata.lt_word hg)

/-- Stores to the leaf that ends with the given extent. -/
def LeafTouched (g : Globals) (n : ℕ) (owned : ℕ → Prop) (last : Ext4Extent) (s t : State) : Prop :=
  ∃ leaf max, IsNode g n owned leaf max ∧ ehDepth s.mem leaf = 0 ∧
    ext4ExtentAt s.mem (leaf + sizeofExtent * ehEntries s.mem leaf) = last ∧
    Touches (nodeBytes leaf max) s t

/-- Where the last leaf has room, one more extent is appended. -/
theorem appendToExtentTree_room (hg : Accepted g) (hn : InodePlace g.sb n)
    (howned : ∀ b, owned b → DataBlock g b) (hnode : IsNode g n owned header max)
    (h : ExtentSubtree g s.mem owned header max depth es) (hnodup : es.Nodup)
    (htyped : ∀ e ∈ es, e.Typed) (hlast : es.getLast? = some last)
    (hroom : ehEntries s.mem (lastLeafOf g s.mem depth header) <
      ehMax s.mem (lastLeafOf g s.mem depth header)) (hfuel : depth < fuel) :
    wp (appendToExtentTree g e n fuel header)
      (fun ok t => ok = true ∧ t.ext4 = s.ext4 ∧ LeafTouched g n owned last s t ∧
        ExtentSubtree g t.mem owned header max depth (es ++ [e])) E s := by
  induction depth generalizing header max es fuel with
  | zero =>
    obtain ⟨fuel, rfl⟩ := Nat.exists_eq_succ_of_ne_zero (by omega : fuel ≠ 0)
    cases h with
    | leaf hheader hholds =>
      rw [lastLeafOf, hheader.entries, hheader.capacity] at hroom
      have hat : NodeAt s.mem header max es := ⟨hheader.magic, hheader.entries, hheader.capacity,
        hheader.depth, hheader.fits, hholds⟩
      have hend := (getLast_of_leaf hheader hholds htyped).symm.trans hlast
      rw [appendToExtentTree]
      simp only [wp_bind, wp_getMem]
      rw [if_pos hheader.depth]
      refine wp_mono_ok (appendInBlock_room hat hroom (hnode.max_lt hg)) ?_
      intro ok t ht
      obtain ⟨hok, htouch, hext4, hat'⟩ := ht
      exact ⟨hok, hext4, ⟨header, max, hnode, hheader.depth, Option.some.inj hend, htouch⟩,
        hat'.subtree (by simp)⟩
  | succ depth ih =>
    obtain ⟨fuel, rfl⟩ := Nat.exists_eq_succ_of_ne_zero (by omega : fuel ≠ 0)
    cases h with
    | index hheader hchildren =>
      obtain ⟨count, rfl⟩ := hheader.exists_succ
      obtain ⟨front, e₀, rest, rfl, hfront, heiBlock, hown, hchild⟩ := hchildren.lastEntry hheader
      have hparts := List.nodup_append.mp hnodup
      have hlast' : (e₀ :: rest).getLast? = some last := by
        rwa [List.getLast?_append_of_ne_nil _ (List.cons_ne_nil _ _)] at hlast
      rw [appendToExtentTree]
      simp only [wp_bind, wp_getMem]
      rw [if_neg (by rw [hheader.depth]; exact Nat.succ_ne_zero depth),
        childBlock_eq hg (howned _ hown), wp_bind]
      refine wp_mono_ok (ih (IsNode.block hown) hchild hparts.2.1
        (fun d hd => htyped d (List.mem_append_right _ hd)) hlast' hroom (by omega)) ?_
      intro ok t ht
      obtain ⟨rfl, hext4, hleaf, hgrown⟩ := ht
      rw [if_pos rfl, wp_pure]
      refine ⟨rfl, hext4, hleaf, ?_⟩
      obtain ⟨leaf, leafMax, hleaf, hleafDepth, hleafLast, htouch⟩ := hleaf
      have hne : header ≠ leaf := by
        rintro rfl
        rw [hheader.depth] at hleafDepth
        exact Nat.succ_ne_zero depth hleafDepth
      have hsame : ∀ a ∈ nodeBytes header max, t.mem a = s.mem a :=
        fun a ha => htouch.mem a (hnode.apart hg hn howned hleaf hne ha)
      have hfits := hheader.fits
      have hentry : ∀ i w, i + w ≤ sizeofExtent * (count + 1) →
          t.mem.readLE (header + sizeofExtentHeader + i) w =
            s.mem.readLE (header + sizeofExtentHeader + i) w := by
        intro i w hiw
        refine Mem.readLE_congr fun j hj => hsame _ ⟨?_, ?_⟩
        · omega
        · unfold sizeofExtent at *
          unfold sizeofExtentHeader
          omega
      have hchildBlock := hheader.lastPlace
      rw [List.append_assoc, List.cons_append]
      refine ExtentSubtree.index (hheader.keep hsame) (ExtentChildren.snoc (hfront.move
        (fun i hi => hsame _ ⟨?_, ?_⟩) (fun _ hb => hb) fun b es' hb hsub htree => ?_) hown ?_ ?_
        hgrown)
      · omega
      · unfold sizeofExtent at *
        unfold sizeofExtentHeader
        omega
      · refine htree.keep hg hn howned hleaf hleafDepth htouch.mem (IsNode.block hb)
          (fun d hd => htyped d (List.mem_append_left _ (hsub hd))) fun hin => ?_
        rw [hleafLast] at hin
        exact hparts.2.2 last (hsub hin) last (List.mem_of_getLast? hlast') rfl
      · rw [hentry _ 4 (by unfold sizeofExtent; omega)]
        exact heiBlock
      · rw [lastChildBlock, hchildBlock]
        rw [Nat.add_assoc _ _ 4, Nat.add_assoc _ _ 8,
          hentry _ 4 (by unfold sizeofExtent; omega), hentry _ 2 (by unfold sizeofExtent; omega)]

/-- An extent that is read as an index entry names a block with its length and its start mixed. -/
theorem lastChildBlock_extent {m : Mem} (he : e.Typed)
    (hread : m.read (header + sizeofExtent * ehEntries m header) sizeofExtent = e.bytes) :
    lastChildBlock m header =
      e.eeStartLo % 2 ^ 16 * 2 ^ 32 + (e.eeLen + 2 ^ 16 * e.eeStartHi) := by
  have hextent := ext4ExtentAt_eq he hread
  have hlen := congrArg Ext4Extent.eeLen hextent
  have hhi := congrArg Ext4Extent.eeStartHi hextent
  have hlo := congrArg Ext4Extent.eeStartLo hextent
  dsimp only [ext4ExtentAt] at hlen hhi hlo
  have hfirst := m.readLE_add (header + sizeofExtent * ehEntries m header + 4) 2 2
  have hsecond := m.readLE_add (header + sizeofExtent * ehEntries m header + 8) 2 2
  have hlt := m.readLE_lt (header + sizeofExtent * ehEntries m header + 8) 2
  rw [Nat.add_assoc _ 4 2, hlen, hhi] at hfirst
  rw [hlo] at hsecond
  have hlenLt := he.eeLen
  have hhiLt := he.eeStartHi
  rw [lastChildBlock, hfirst, fromLoHi_eq (by omega)]
  omega

/-- Such an entry names no data block. -/
theorem not_dataBlock_extent (hg : Accepted g) {m : Mem} (he : e.Typed) (hone : e.eeLen = 1)
    (hhi : e.eeStartHi = 0)
    (hread : m.read (header + sizeofExtent * ehEntries m header) sizeofExtent = e.bytes) :
    ¬ DataBlock g (lastChildBlock m header) := by
  rw [lastChildBlock_extent he hread, hone, hhi]
  intro hdata
  have hlt := hdata.lt_word hg
  have hstart : e.eeStartLo % 2 ^ 16 * 2 ^ 32 + (1 + 2 ^ 16 * 0) = 1 := by omega
  have hfirst := hg.sFirstDataBlock_le
  have hoverhead := hg.blockGroupOverhead_ge 0
  rw [hstart] at hdata
  refine hdata.outside ⟨0, hg.blockGroupCount_pos, ?_, ?_⟩
  · rw [blockGroupStart, Nat.mul_zero, Nat.zero_add, u32_of_lt (by omega)]
    exact hfirst
  · omega

/-- Where the last leaf is full, either every node on the way is full and nothing happens, or the
last entry of an index node is overwritten. -/
theorem appendToExtentTree_full (hg : Accepted g) (hn : InodePlace g.sb n)
    (howned : ∀ b, owned b → DataBlock g b) (hnode : IsNode g n owned header max)
    (h : ExtentSubtree g s.mem owned header max depth es)
    (hfull : ehMax s.mem (lastLeafOf g s.mem depth header) ≤
      ehEntries s.mem (lastLeafOf g s.mem depth header))
    (he : e.Typed) (hone : e.eeLen = 1) (hhi : e.eeStartHi = 0) (hfuel : depth < fuel) :
    wp (appendToExtentTree g e n fuel header)
      (fun ok t => (ok = false ∧ t = s ∧ ehMax s.mem header ≤ ehEntries s.mem header) ∨
        (ok = true ∧ t.ext4 = s.ext4 ∧ BrokenSpine g t.mem depth header ∧
          ehDepth t.mem header = depth ∧
          ∃ node nodeMax, IsNode g n owned node nodeMax ∧ ehDepth s.mem node ≤ depth ∧
            Touches (nodeBytes node nodeMax) s t)) E s := by
  induction depth generalizing header max es fuel with
  | zero =>
    obtain ⟨fuel, rfl⟩ := Nat.exists_eq_succ_of_ne_zero (by omega : fuel ≠ 0)
    rw [lastLeafOf] at hfull
    rw [appendToExtentTree]
    simp only [wp_bind, wp_getMem]
    rw [if_pos h.rootNode.depth, appendInBlock]
    simp only [wp_bind, wp_getMem]
    rw [if_pos hfull, wp_pure]
    exact Or.inl ⟨rfl, rfl, hfull⟩
  | succ depth ih =>
    obtain ⟨fuel, rfl⟩ := Nat.exists_eq_succ_of_ne_zero (by omega : fuel ≠ 0)
    cases h with
    | index hheader hchildren =>
      obtain ⟨count, rfl⟩ := hheader.exists_succ
      obtain ⟨_, _, _, -, -, -, hown, hchild⟩ := hchildren.lastEntry hheader
      have hentries := hheader.entries
      have hfits := hheader.fits
      rw [appendToExtentTree]
      simp only [wp_bind, wp_getMem]
      rw [if_neg (by rw [hheader.depth]; exact Nat.succ_ne_zero depth),
        childBlock_eq hg (howned _ hown), wp_bind]
      refine wp_mono_ok (ih (IsNode.block hown) hchild hfull (by omega)) ?_
      intro ok t ht
      rcases ht with ⟨rfl, rfl, -⟩ | ⟨rfl, hext4, hbroken, -, node, nodeMax, hnode', hlow, htouch⟩
      · rw [if_neg (by decide)]
        simp only [wp_bind, wp_getMem]
        refine wp_ite (fun hroom => ?_) (fun hfull' => ?_)
        · -- the last entry is overwritten
          have hlen := length_extent_bytes e
          have hwrite := Mem.sameOutside_write t.mem
            (header + sizeofExtent * ehEntries t.mem header) e.bytes
          rw [hlen] at hwrite
          rw [wp_bind, appendToNewIdxPath, newIdxPath, if_neg (Nat.lt_irrefl _)]
          simp only [wp_bind, wp_pure, wp_storeBytes, hlen]
          have hcount : ehEntries (t.mem.write (header + sizeofExtent * ehEntries t.mem header)
              e.bytes) header = ehEntries t.mem header := by
            refine hwrite.readLE_eq (Or.inl ?_)
            rw [hentries]
            unfold sizeofExtent
            omega
          refine Or.inr ⟨trivial, rfl, BrokenSpine.here (not_dataBlock_extent hg he hone hhi ?_), ?_,
            header, max, hnode, hheader.depth.le, Touches.stored t (fun a hlow hhigh => ⟨?_, ?_⟩)
              hwrite⟩
          · rw [State.stored_mem, hcount]
            exact Mem.read_write_of_length hlen
          · rw [State.stored_mem, ← hheader.depth]
            refine hwrite.readLE_eq (Or.inl ?_)
            rw [hentries]
            unfold sizeofExtent
            omega
          · omega
          · rw [hentries] at hhigh
            unfold sizeofExtent at *
            omega
        · rw [wp_pure]
          exact Or.inl ⟨rfl, rfl, Nat.le_of_not_lt hfull'⟩
      · rw [if_pos rfl, wp_pure]
        have hne : header ≠ node := by
          rintro rfl
          rw [hheader.depth] at hlow
          omega
        have hsame : ∀ a ∈ nodeBytes header max, t.mem a = s.mem a :=
          fun a ha => htouch.mem a (hnode.apart hg hn howned hnode' hne ha)
        refine Or.inr ⟨rfl, hext4, BrokenSpine.deeper ?_, (hheader.keep hsame).depth, node, nodeMax,
          hnode', hlow.trans (Nat.le_succ depth), htouch⟩
        rwa [lastChildBlock_congr (by omega) hsame]

/-- Changes elsewhere keep the last leaf. -/
theorem ExtentSubtree.lastLeaf_congr (hg : Accepted g) {m m' : Mem} {b : ℕ}
    (h : ExtentSubtree g m owned (blockStart g.metaInfo g.sb b) (maxEntries g) depth es)
    (hb : owned b) (hm : ∀ c, owned c → ∀ a, InBlock g c a → m' a = m a) :
    lastLeafOf g m' depth (blockStart g.metaInfo g.sb b) =
        lastLeafOf g m depth (blockStart g.metaInfo g.sb b) ∧
      ehEntries m' (lastLeafOf g m depth (blockStart g.metaInfo g.sb b)) =
        ehEntries m (lastLeafOf g m depth (blockStart g.metaInfo g.sb b)) ∧
      ehMax m' (lastLeafOf g m depth (blockStart g.metaInfo g.sb b)) =
        ehMax m (lastLeafOf g m depth (blockStart g.metaInfo g.sb b)) := by
  obtain ⟨-, -, -, hsize⟩ := hg.maxEntries_eq
  have hnode : ∀ c, owned c →
      ∀ a ∈ nodeBytes (blockStart g.metaInfo g.sb c) (maxEntries g), m' a = m a :=
    fun c hc a ha => hm c hc a ⟨ha.1, ha.2.trans_le (Nat.add_le_add_left hsize _)⟩
  induction depth generalizing b es with
  | zero =>
    have hheader := h.rootNode
    have hkept := hheader.keep (hnode b hb)
    exact ⟨rfl, hkept.entries, hkept.capacity.trans hheader.capacity.symm⟩
  | succ depth ih =>
    cases h with
    | index hheader hchildren =>
      obtain ⟨count, rfl⟩ := hheader.exists_succ
      obtain ⟨_, _, _, -, -, -, hown, hchild⟩ := hchildren.lastEntry hheader
      have hfits := hheader.fits
      have hentries := hheader.entries
      rw [lastLeafOf, lastLeafOf, lastChildBlock_congr (by omega) (hnode b hb)]
      exact ih hchild hown

end Appending

/-- The tree in an inode is well formed, of the given depth and with the given extents in its
leaves, which follow each other in the file. -/
structure StoredTree (g : Globals) (s : State) (inodeNo depth : ℕ) (es : List Ext4Extent) :
    Prop where
  tree : ExtentSubtree g s.mem (NodeBlock s inodeNo) (rootHeader g inodeNo) 4 depth es
  typed : ∀ e ∈ es, e.Typed
  positive : ∀ e ∈ es, 0 < e.eeLen
  ascending : es.Pairwise fun e e' => e.eeBlock + e.eeLen ≤ e'.eeBlock

/-- There is room behind the last extent: the leaf with it is not full, or it is the root itself and
the first extent starts at logical block 0. -/
def Appendable (g : Globals) (m : Mem) (n depth : ℕ) (es : List Ext4Extent) : Prop :=
  ehEntries m (lastLeafOf g m depth (rootHeader g n)) <
      ehMax m (lastLeafOf g m depth (rootHeader g n)) ∨
    depth = 0 ∧ ∀ e ∈ es.head?, e.eeBlock = 0

/-- What becomes of a tree that gets one more extent. -/
structure AppendOutcome (g : Globals) (s t : State) (n depth : ℕ) (es : List Ext4Extent)
    (e : Ext4Extent) : Prop where
  kept : Appendable g s.mem n depth es →
    ∃ d, ExtentSubtree g t.mem (NodeBlock t n) (rootHeader g n) 4 d (es ++ [e])
  lost : ¬ Appendable g s.mem n depth es →
    ∀ d e', ¬ ExtentSubtree g t.mem (DataBlock g) (rootHeader g n) 4 d (es ++ [e'])

section Registering

variable {g : Globals} {s t u : State} {m₀ : Mem} {base : State} {F O R : List ℕ} {n depth b : ℕ}
  {es : List Ext4Extent} {e last : Ext4Extent} {E : Halt → State → Prop} {fuel : ℕ}

/-- No extent is stored twice in a tree. -/
theorem StoredTree.nodup (h : StoredTree g s n depth es) : es.Nodup := by
  refine h.ascending.imp_of_mem ?_
  rintro e e' he - hle rfl
  have hpos := h.positive e he
  omega

/-- The accounting keeps the tree. -/
theorem AppendOutcome.transfer (hg : Accepted g) (hinv : BuildInv g m₀ base F O R u)
    (h : AppendOutcome g s u n depth es e) (hregistered : u.ext4.registered <+: t.ext4.registered)
    (hm : ∀ a, a ∈ rootBytes g n ∨ (∃ b, DataBlock g b ∧ InBlock g b a) → t.mem a = u.mem a) :
    AppendOutcome g s t n depth es e := by
  refine ⟨fun hroom => ?_, fun hfull d e' htree => ?_⟩
  · obtain ⟨d, htree⟩ := h.kept hroom
    refine ⟨d, htree.transfer hg ?_ (fun _ hb => hinv.nodeBlock_data hb) hm⟩
    rintro b ⟨r, hr, hrest⟩
    exact ⟨r, hregistered.subset hr, hrest⟩
  · exact h.lost hfull d e'
      (htree.transfer hg (fun _ hb => hb) (fun _ hb => hb) fun a ha => (hm a ha).symm)

/-- A tree with one index entry starts with the logical block of this entry. -/
theorem ExtentSubtree.first_eq {m : Mem} {owned : ℕ → Prop} {header max d : ℕ}
    (h : ExtentSubtree g m owned header max d es) (hdepth : ehDepth m header ≠ 0) :
    ∀ e ∈ es.head?, m.readLE (header + sizeofExtentHeader) 4 = e.eeBlock := by
  cases h with
  | leaf hheader _ => exact absurd hheader.depth hdepth
  | index hheader hchildren =>
    obtain ⟨count, rfl⟩ := hheader.exists_succ
    cases hchildren with
    | cons _ heiBlock _ _ _ =>
      intro e he
      obtain rfl := Option.some.inj he
      exact heiBlock

/-- `add_extent` on a tree that is in the inode. -/
theorem addExtent_root (hg : Accepted g) (h : BuildInv g m₀ base F O R s) (hn : InodePlace g.sb n)
    (htree : StoredTree g s n 0 es) (hfuel : 2 ≤ fuel)
    (hstop : wp (allocateExtent fuel 1) (fun _ _ => True) E s) :
    wp (addExtent g fuel e n (inodeAddr g n))
      (fun _ t => ∃ nodes, TreeStep g m₀ base F O R Set.univ [] n nodes s t ∧
        AppendOutcome g s t n 0 es e) E s := by
  obtain ⟨-, hentries, -, -⟩ := hg.maxEntries_eq
  obtain ⟨e₀, rest, hes⟩ := List.exists_cons_of_ne_nil htree.tree.ne_nil
  cases htree.tree with
  | leaf hheader hholds =>
    have hat : NodeAt s.mem (rootHeader g n) 4 es := ⟨hheader.magic, hheader.entries,
      hheader.capacity, hheader.depth, hheader.fits, hholds⟩
    have hfits := hheader.fits
    have hroom : Appendable g s.mem n 0 es ↔ es.length < 4 ∨ ∀ e ∈ es.head?, e.eeBlock = 0 := by
      rw [Appendable, lastLeafOf, hheader.entries, hheader.capacity]
      simp
    have hlength : (es ++ [e]).length = es.length + 1 := by
      rw [List.length_append, List.length_singleton]
    refine wp_mono_ok (addExtent_spec hg h hn (D := Set.univ) (Set.mem_univ n) (P := [])
      (List.nil_subset _) (fun _ => ⟨none, hat, by simp⟩) (by omega) fuel
      (fun hfew => absurd hfew (by omega)) fun _ => hstop) ?_
    intro _ t ht
    obtain ⟨nodes, -, hstep, hgrown⟩ := ht
    obtain ⟨leaf, hgrownAt, hleaf⟩ := hgrown.grown (by omega)
    refine ⟨nodes, hstep, fun hcond => ?_, fun hcond d e' hsub => ?_⟩
    · refine hgrownAt.holds (by simp) (fun b hb => ?_) fun b hb => ?_
      · have hblock := (hleaf b hb).2
        exact ⟨(hstep.inv.nodeBlock_data hblock).lt_word hg, hblock⟩
      · have hmany := (hleaf b hb).1
        have hzero := (hroom.mp hcond).resolve_left (by omega)
        rw [hes] at hzero ⊢
        exact hzero
    · rw [hroom, not_or] at hcond
      cases leaf with
      | none =>
        have hnone := NodeAt.fits hgrownAt
        exact hcond.1 (by omega)
      | some b =>
        obtain ⟨hindex, -, -⟩ := hgrownAt
        have hfirst := hsub.first_eq (by rw [hindex.depth]; exact one_ne_zero)
        rw [hindex.eiBlock, hes] at hfirst
        rw [hes] at hcond
        exact hcond.2 fun d hd => (hfirst d hd).symm

/-- What is stored to the nodes of a tree keeps the invariant. -/
theorem BuildInv.nodeTouches (hg : Accepted g) (h : BuildInv g m₀ base F O R s)
    (hn : InodePlace g.sb n) {node max : ℕ} (hnode : IsNode g n (NodeBlock s n) node max)
    (ht : Touches (nodeBytes node max) s t) (hext4 : t.ext4 = s.ext4) :
    TreeStep g m₀ base F O R Set.univ [] n [] s t := by
  obtain ⟨-, -, -, hsize⟩ := hg.maxEntries_eq
  refine h.treeTouches hg hn (Set.mem_univ n) (List.nil_subset _) ht (fun a ha => ?_) hext4
  cases hnode with
  | root => exact Or.inl ha
  | block hb =>
    obtain ⟨r, hr, htree, hrn, hblocks⟩ := hb
    refine Or.inr ⟨r, hr, htree, hrn, _, ?_, ha.1, ha.2.trans_le (Nat.add_le_add_left hsize _)⟩
    rw [hblocks]
    exact List.mem_singleton_self _

/-- Where the tree has index nodes and the last leaf has room, `add_extent` appends. -/
theorem addExtent_room (hg : Accepted g) (h : BuildInv g m₀ base F O R s) (hn : InodePlace g.sb n)
    (htree : StoredTree g s n depth es)
    (hroom : ehEntries s.mem (lastLeafOf g s.mem depth (rootHeader g n)) <
      ehMax s.mem (lastLeafOf g s.mem depth (rootHeader g n))) (hfuel : depth < fuel) :
    wp (addExtent g fuel e n (inodeAddr g n))
      (fun _ t => ∃ nodes, TreeStep g m₀ base F O R Set.univ [] n nodes s t ∧
        AppendOutcome g s t n depth es e) E s := by
  obtain ⟨last, hlast⟩ := Option.isSome_iff_exists.mp
    (List.getLast?_isSome.mpr htree.tree.ne_nil)
  simp only [addExtent, wp_bind]
  refine wp_mono_ok (appendToExtentTree_room hg hn (fun _ hb => h.nodeBlock_data hb) IsNode.root
    htree.tree htree.nodup htree.typed hlast hroom hfuel) ?_
  intro ok t ht
  obtain ⟨rfl, hext4, ⟨leaf, max, hleaf, -, -, htouch⟩, hgrown⟩ := ht
  rw [if_pos rfl, wp_pure]
  have hblocks : NodeBlock t n = NodeBlock s n := by
    unfold NodeBlock
    rw [hext4]
  exact ⟨[], h.nodeTouches hg hn hleaf htouch hext4, fun _ => ⟨depth, hblocks ▸ hgrown⟩,
    fun hfull => absurd (Or.inl hroom) hfull⟩

/-- A tree with a broken spine is lost. -/
theorem AppendOutcome.of_broken {d : ℕ} (hfull : ¬ Appendable g s.mem n depth es)
    (hbroken : BrokenSpine g t.mem d (rootHeader g n)) (hdepth : ehDepth t.mem (rootHeader g n) = d) :
    AppendOutcome g s t n depth es e := by
  refine ⟨fun hroom => absurd hroom hfull, fun _ d' e' htree => ?_⟩
  have hd := htree.rootNode.depth
  rw [hdepth] at hd
  subst hd
  exact hbroken.not_subtree (fun _ hb => hb) htree

/-- The root that was made refers to the moved node. -/
theorem Moved.lastChild (h : Moved g s t n depth es b) :
    lastChildBlock t.mem (rootHeader g n) = b := by
  rw [lastChildBlock, h.single, sizeofExtent, Nat.mul_one]
  exact h.leaf

/-- The moved node has the entries of the root. -/
theorem Moved.readLE (h : Moved g s t n depth es b) {i w : ℕ} (hi : i + w ≤ 4 ∨ 6 ≤ i)
    (hiw : i + w ≤ 60) :
    t.mem.readLE (blockStart g.metaInfo g.sb b + i) w = s.mem.readLE (rootHeader g n + i) w := by
  unfold Mem.readLE
  rw [Mem.read_shift (b := rootHeader g n + i) fun j hj => ?_]
  rw [Nat.add_assoc, Nat.add_assoc]
  exact h.copied _ (by omega) (by omega)

/-- The moved tree has the last leaf of the tree that was there. -/
theorem Moved.lastLeaf (hg : Accepted g) (h : Moved g s t n (depth + 1) es b)
    (htree : ExtentSubtree g s.mem (NodeBlock s n) (rootHeader g n) 4 (depth + 1) es) :
    ehEntries t.mem (lastLeafOf g t.mem (depth + 1) (blockStart g.metaInfo g.sb b)) =
        ehEntries s.mem (lastLeafOf g s.mem (depth + 1) (rootHeader g n)) ∧
      ehMax t.mem (lastLeafOf g t.mem (depth + 1) (blockStart g.metaInfo g.sb b)) =
        ehMax s.mem (lastLeafOf g s.mem (depth + 1) (rootHeader g n)) := by
  cases htree with
  | @index _ _ _ count _ hheader hchildren =>
    have hfits := hheader.fits
    have hentries := hheader.entries
    obtain ⟨k, rfl⟩ := hheader.exists_succ
    obtain ⟨_, _, _, -, -, -, hown, hchild⟩ := hchildren.lastEntry hheader
    have hcount : ehEntries t.mem (blockStart g.metaInfo g.sb b) = k + 1 :=
      (h.readLE (Or.inl (le_refl 4)) (by norm_num)).trans hentries
    have hlast : lastChildBlock t.mem (blockStart g.metaInfo g.sb b) =
        lastChildBlock s.mem (rootHeader g n) := by
      unfold lastChildBlock sizeofExtent
      rw [hcount, hentries, Nat.add_assoc, Nat.add_assoc, h.readLE (by omega) (by omega),
        h.readLE (by omega) (by omega), Nat.add_assoc, Nat.add_assoc]
    obtain ⟨hleaf, hkept⟩ := hchild.lastLeaf_congr hg hown h.below
    rw [lastLeafOf, lastLeafOf, hlast, hleaf]
    exact hkept

/-- Where the tree has index nodes and the last leaf is full, `add_extent` breaks the tree. -/
theorem addExtent_full (hg : Accepted g) (h : BuildInv g m₀ base F O R s) (hn : InodePlace g.sb n)
    (htree : StoredTree g s n (depth + 1) es) (hdepth : depth + 2 < 2 ^ 16)
    (hfull : ehMax s.mem (lastLeafOf g s.mem (depth + 1) (rootHeader g n)) ≤
      ehEntries s.mem (lastLeafOf g s.mem (depth + 1) (rootHeader g n)))
    (he : e.Typed) (hone : e.eeLen = 1) (hhi : e.eeStartHi = 0) (hfuel : depth + 2 < fuel)
    (hstop : wp (allocateExtent fuel 1) (fun _ _ => True) E s) :
    wp (addExtent g fuel e n (inodeAddr g n))
      (fun _ t => ∃ nodes, TreeStep g m₀ base F O R Set.univ [] n nodes s t ∧
        AppendOutcome g s t n (depth + 1) es e) E s := by
  obtain ⟨-, hentries, -, -⟩ := hg.maxEntries_eq
  have hnot : ¬ Appendable g s.mem n (depth + 1) es := by
    rintro (hroom | ⟨hzero, -⟩)
    · omega
    · exact Nat.succ_ne_zero depth hzero
  simp only [addExtent, wp_bind]
  refine wp_mono_ok (appendToExtentTree_full hg hn (fun _ hb => h.nodeBlock_data hb) IsNode.root
    htree.tree hfull he hone hhi (by omega)) ?_
  intro ok u hu
  rcases hu with ⟨rfl, rfl, -⟩ | ⟨rfl, hext4, hbroken, hu, node, max, hnode, -, htouch⟩
  swap
  · rw [if_pos rfl, wp_pure]
    exact ⟨[], h.nodeTouches hg hn hnode htouch hext4, AppendOutcome.of_broken hnot hbroken hu⟩
  rw [if_neg (by decide), wp_bind]
  refine wp_mono_ok (makeTreeDeeper_moved hg h hn htree.tree hstop) ?_
  intro _ v hv
  obtain ⟨b, hstep, hmoved⟩ := hv
  obtain ⟨hleafEntries, hleafMax⟩ := hmoved.lastLeaf hg htree.tree
  have hroot := htree.tree.rootNode
  have hdepth' : ehDepth v.mem (rootHeader g n) = depth + 2 := by
    rw [hmoved.depth, u16_of_lt hdepth]
  obtain ⟨fuel, rfl⟩ := Nat.exists_eq_succ_of_ne_zero (by omega : fuel ≠ 0)
  have hdata : ∀ k, NodeBlock v n k → DataBlock g k := fun _ hk => hstep.inv.nodeBlock_data hk
  rw [wp_bind, appendToExtentTree]
  simp only [wp_bind, wp_getMem]
  change wp (ite (ehDepth v.mem (rootHeader g n) = 0) _ _) _ _ _
  rw [if_neg (by omega)]
  simp only [wp_bind]
  rw [show inodeAddr g n + extHeaderOffset = rootHeader g n from rfl,
    childBlock_eq hg (by rw [hmoved.lastChild]; exact hmoved.data), hmoved.lastChild]
  refine wp_mono_ok (appendToExtentTree_full hg hn hdata (IsNode.block hmoved.nodeBlock)
    hmoved.child (by omega) he hone hhi (by omega)) ?_
  intro ok t ht
  rcases ht with ⟨rfl, rfl, hchildFull⟩ | ⟨rfl, hext4, hbroken, -, node, max, hnode, hlow, htouch⟩
  · -- the moved node has at most four entries
    have hchild := hmoved.child.rootNode
    have hcount : ehEntries t.mem (blockStart g.metaInfo g.sb b) =
        ehEntries u.mem (rootHeader g n) := hmoved.readLE (Or.inl (le_refl 4)) (by norm_num)
    have hfits := hroot.fits
    rw [hchild.capacity, hcount] at hchildFull
    omega
  · simp only [if_pos, wp_pure]
    have hne : rootHeader g n ≠ node := by
      rintro rfl
      omega
    have hsame : ∀ a ∈ nodeBytes (rootHeader g n) 4, t.mem a = v.mem a :=
      fun a ha => htouch.mem a (IsNode.root.apart hg hn hdata hnode hne ha)
    have hsingle := hmoved.single
    have hdepthKept : ehDepth t.mem (rootHeader g n) = depth + 2 := by
      rw [← hdepth']
      refine Mem.readLE_congr fun i hi => hsame _ ⟨by omega, ?_⟩
      unfold sizeofExtent
      omega
    refine ⟨_, hstep.trans (hstep.inv.nodeTouches hg hn hnode htouch hext4),
      AppendOutcome.of_broken hnot (BrokenSpine.deeper ?_) hdepthKept⟩
    rwa [lastChildBlock_congr (by omega) hsame, hmoved.lastChild]

/-- `add_extent` appends where there is room, and breaks the tree elsewhere. -/
theorem addExtent_appends (hg : Accepted g) (h : BuildInv g m₀ base F O R s)
    (hn : InodePlace g.sb n) (htree : StoredTree g s n depth es) (hdepth : depth + 1 < 2 ^ 16)
    (he : e.Typed) (hone : e.eeLen = 1) (hhi : e.eeStartHi = 0) (hfuel : depth + 1 < fuel)
    (hstop : wp (allocateExtent fuel 1) (fun _ _ => True) E s) :
    wp (addExtent g fuel e n (inodeAddr g n))
      (fun _ t => ∃ nodes, TreeStep g m₀ base F O R Set.univ [] n nodes s t ∧
        AppendOutcome g s t n depth es e) E s := by
  cases depth with
  | zero => exact addExtent_root hg h hn htree (by omega) hstop
  | succ depth =>
    rcases Nat.lt_or_ge (ehEntries s.mem (lastLeafOf g s.mem (depth + 1) (rootHeader g n)))
      (ehMax s.mem (lastLeafOf g s.mem (depth + 1) (rootHeader g n))) with hroom | hfull
    · exact addExtent_room hg h hn htree hroom (by omega)
    · exact addExtent_full hg h hn htree hdepth hfull he hone hhi hfuel hstop

/-- `register_extent` with a block that is about to be registered. -/
theorem registerExtent_appends (hg : Accepted g) {c k : ℕ}
    (h : BuildInv g m₀ base F (fatClToE4blk g.bootSector g.metaInfo c :: O) R s)
    (hc : DataCluster g c) (hn : InodePlace g.sb n) (htree : StoredTree g s n depth es)
    (hdepth : depth + 1 < 2 ^ 16) (hk : k < 2 ^ 32) (hfuel : depth + 1 < fuel)
    (hstop : wp (allocateExtent fuel 1) (fun _ _ => True) E s) :
    wp (registerExtent g fuel ⟨k, 1, c⟩ n)
      (fun _ t => BuildInv g m₀ base F O R t ∧
        AppendOutcome g s t n depth es (toExt4Extent g ⟨k, 1, c⟩)) E s := by
  have hlt := hg.fatClToE4blk_lt hc
  have hstart : (toExt4Extent g ⟨k, 1, c⟩).start = fatClToE4blk g.bootSector g.metaInfo c :=
    hg.toExt4Extent_start hc
  have hrange : List.range' (toExt4Extent g ⟨k, 1, c⟩).start (toExt4Extent g ⟨k, 1, c⟩).eeLen =
      [fatClToE4blk g.bootSector g.metaInfo c] := by
    rw [hstart]
    rfl
  have hhi : (toExt4Extent g ⟨k, 1, c⟩).eeStartHi = 0 := by
    change (setLoHi48 (fatClToE4blk g.bootSector g.metaInfo c)).2 = 0
    rw [setLoHi48_snd, Nat.div_eq_of_lt (by omega), Nat.zero_mod]
  simp only [registerExtent, wp_bind]
  refine getExistingInode_spec hg h.placed hn ?_
  refine wp_mono_ok (addExtent_appends hg h hn htree hdepth (toExt4Extent_typed hk) rfl hhi hfuel
    hstop) ?_
  intro _ t ht
  obtain ⟨nodes, hstep, houtcome⟩ := ht
  have hperm : (List.range' (toExt4Extent g ⟨k, 1, c⟩).start (toExt4Extent g ⟨k, 1, c⟩).eeLen ++
      (O ++ R)).Perm (fatClToE4blk g.bootSector g.metaInfo c :: O ++ R) := by
    rw [hrange]
    exact List.Perm.refl _
  have hopen : fatClToE4blk g.bootSector g.metaInfo c :: O ⊆
      List.range' (toExt4Extent g ⟨k, 1, c⟩).start (toExt4Extent g ⟨k, 1, c⟩).eeLen ++ O := by
    rw [hrange]
    exact List.Subset.refl _
  refine wp_mono_ok (accountExtent_treeStep hg hstep.inv hn (Set.mem_univ n) (P := [])
    (List.nil_subset _) Nat.one_pos true hperm hopen (List.subset_cons_self _ O)
    (fun h => Bool.noConfusion h)) ?_
  intro _ u hu
  obtain ⟨hstep', hmem⟩ := hu
  refine ⟨hstep'.inv, houtcome.transfer hg hstep.inv ?_ hmem⟩
  rw [hstep'.registered]
  exact List.prefix_append _ _

end Registering

end OfsConvert
