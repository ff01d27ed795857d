import OfsConvert.ExtentTreeLaw
import OfsConvert.Fragments
import OfsConvert.TreeHistory

/-!
# Deepening an extent tree and finding its last extent

`make_tree_deeper` moves the root of a tree of any depth to a new block. The nodes below stay where
they are, so the moved tree has the same leaves; `last_extent` follows the last entries down to
them.
-/

namespace OfsConvert

/-- The fields of an extent have the widths of `ext4_extent`. -/
structure Ext4Extent.Typed (e : Ext4Extent) : Prop where
  eeBlock : e.eeBlock < 2 ^ 32
  eeLen : e.eeLen < 2 ^ 16
  eeStartHi : e.eeStartHi < 2 ^ 16
  eeStartLo : e.eeStartLo < 2 ^ 32

/-- An extent of one block has the widths of `ext4_extent`. -/
theorem toExt4Extent_typed {g : Globals} {k c : ℕ} (hk : k < 2 ^ 32) : (toExt4Extent g ⟨k, 1, c⟩).Typed :=
  ⟨hk, by norm_num [toExt4Extent], u16_lt _, Nat.and_lt_two_pow _ (by norm_num)⟩

section Moving

variable {g : Globals} {m m' : Mem} {owned owned' : ℕ → Prop} {header header' max max' : ℕ}
  {depth count p p' : ℕ} {es : List Ext4Extent}

/-- A header is its first eight bytes. -/
theorem NodeHeader.move (h : NodeHeader m header max depth count)
    (hm : ∀ i < 8, m' (header' + i) = m (header + i)) :
    NodeHeader m' header' max depth count := by
  have hfield : ∀ i, i + 2 ≤ 8 → m'.readLE (header' + i) 2 = m.readLE (header + i) 2 := by
    intro i hi
    unfold Mem.readLE
    rw [Mem.read_shift (b := header + i) fun j hj => ?_]
    rw [Nat.add_assoc, Nat.add_assoc]
    exact hm _ (by omega)
  exact ⟨(hfield 0 (by omega)).trans h.magic, (hfield 2 (by omega)).trans h.entries,
    (hfield 4 (by omega)).trans h.capacity, (hfield 6 (by omega)).trans h.depth, h.positive, h.fits⟩

/-- An index node has a last entry. -/
theorem NodeHeader.exists_succ (h : NodeHeader m header max depth count) :
    ∃ k, count = k + 1 := Nat.exists_eq_succ_of_ne_zero (Nat.one_le_iff_ne_zero.mp h.positive)

/-- The place of the last entry of an index node. -/
theorem NodeHeader.lastPlace (h : NodeHeader m header max depth (count + 1)) :
    header + sizeofExtent * ehEntries m header =
      header + sizeofExtentHeader + sizeofExtent * count := by
  rw [h.entries]
  unfold sizeofExtent sizeofExtentHeader
  omega

/-- Index entries may be moved when the trees below them are kept. -/
theorem ExtentChildren.move (h : ExtentChildren g m owned depth p count es)
    (hentries : ∀ i < sizeofExtent * count, m' (p' + i) = m (p + i))
    (howned : ∀ b, owned b → owned' b)
    (hsubtree : ∀ b es', owned b → es' ⊆ es →
      ExtentSubtree g m owned (blockStart g.metaInfo g.sb b) (maxEntries g) depth es' →
      ExtentSubtree g m' owned' (blockStart g.metaInfo g.sb b) (maxEntries g) depth es') :
    ExtentChildren g m' owned' depth p' count es := by
  induction count generalizing p p' es with
  | zero =>
    cases h
    exact ExtentChildren.nil
  | succ count ih =>
    unfold sizeofExtent at hentries
    have hfield : ∀ i w, i + w ≤ 12 → m'.readLE (p' + i) w = m.readLE (p + i) w := by
      intro i w hiw
      unfold Mem.readLE
      rw [Mem.read_shift (b := p + i) fun j hj => ?_]
      rw [Nat.add_assoc, Nat.add_assoc]
      exact hentries _ (by omega)
    cases h with
    | cons hown heiBlock hleaf hchild hrest =>
      refine ExtentChildren.cons (howned _ hown) ((hfield 0 4 (by omega)).trans heiBlock) ?_
        (hsubtree _ _ hown (List.subset_append_left _ _) hchild) (ih hrest ?_ fun b es' hb hsub =>
          hsubtree b es' hb (List.Subset.trans hsub (List.subset_append_right _ _)))
      · rw [hfield 4 4 (by omega), hfield 8 2 (by omega)]
        exact hleaf
      · intro i hi
        unfold sizeofExtent at hi ⊢
        rw [Nat.add_assoc, Nat.add_assoc]
        exact hentries _ (by omega)

/-- A tree may be moved with its header and entries when the blocks below are kept. -/
theorem ExtentSubtree.move (hg : Accepted g)
    (h : ExtentSubtree g m owned header max depth es)
    (hheader : ∀ count, NodeHeader m header max depth count →
      NodeHeader m' header' max' depth count)
    (hentries : ∀ i < sizeofExtent * max,
      m' (header' + sizeofExtentHeader + i) = m (header + sizeofExtentHeader + i))
    (howned : ∀ b, owned b → owned' b)
    (hblocks : ∀ b, owned b → ∀ a, InBlock g b a → m' a = m a) :
    ExtentSubtree g m' owned' header' max' depth es := by
  obtain ⟨-, -, -, hsize⟩ := hg.maxEntries_eq
  induction depth generalizing header header' max max' es with
  | zero =>
    cases h with
    | leaf hnode hholds =>
      refine ExtentSubtree.leaf (hheader _ hnode) ?_
      rw [← hholds]
      refine Mem.read_shift fun i hi => hentries i (hi.trans_le ?_)
      exact Nat.mul_le_mul_left _ hnode.fits
  | succ depth ih =>
    cases h with
    | index hnode hchildren =>
      refine ExtentSubtree.index (hheader _ hnode) (hchildren.move
        (fun i hi => hentries i (hi.trans_le (Nat.mul_le_mul_left _ hnode.fits))) howned ?_)
      intro b es' hb _ hchild
      unfold sizeofExtent at hsize
      refine ih hchild (fun count hcount => hcount.move fun i hi => hblocks b hb _ ?_) fun i hi =>
        hblocks b hb _ ?_
      · exact ⟨Nat.le_add_right _ _, by have := hg.blockSize_ge; omega⟩
      · unfold sizeofExtent at hi
        unfold sizeofExtentHeader
        exact ⟨by omega, by omega⟩

/-- A well-formed tree has extents. -/
theorem ExtentSubtree.ne_nil (h : ExtentSubtree g m owned header max depth es) : es ≠ [] := by
  cases h with
  | leaf hnode _ => exact List.ne_nil_of_length_pos hnode.positive
  | index hnode hchildren =>
    cases hchildren with
    | nil => exact absurd hnode.positive (Nat.not_succ_le_zero 0)
    | cons => exact List.cons_ne_nil _ _

/-- The number of entries in the root of a tree. -/
theorem ExtentSubtree.rootNode (h : ExtentSubtree g m owned header max depth es) :
    NodeHeader m header max depth (ehEntries m header) := by
  cases h with
  | leaf hnode _ => exact hnode.entries ▸ hnode
  | index hnode _ => exact hnode.entries ▸ hnode

/-- The child made by `make_tree_deeper` is the tree that was there. -/
theorem deepened_childSubtree (hg : Accepted g) {b c : ℕ}
    (h : ExtentSubtree g m owned header 4 depth es) (hd : c + 60 ≤ header ∨ header + 60 ≤ c)
    (howned : ∀ b, owned b → owned' b)
    (hblocks : ∀ k, owned k → ∀ a, InBlock g k a →
      deepened m header c b (maxEntries g) a = m a) :
    ExtentSubtree g (deepened m header c b (maxEntries g)) owned' c (maxEntries g) depth es := by
  obtain ⟨-, hentries, hmax, -⟩ := hg.maxEntries_eq
  obtain ⟨hmoved, hmaxEntries⟩ := deepened_child (m := m) (b := b) hd hmax
  refine h.move hg (fun count hnode => ⟨?_, ?_, hmaxEntries, ?_, hnode.positive, ?_⟩) ?_ howned
    hblocks
  · rw [← hnode.magic]
    exact deepened_childField (i := 0) hd hmax (by omega) (by omega)
  · rw [← hnode.entries]
    exact deepened_childField (i := 2) hd hmax (by omega) (by omega)
  · rw [← hnode.depth]
    exact deepened_childField (i := 6) hd hmax (by omega) (by omega)
  · exact hnode.fits.trans (by omega)
  · intro i hi
    unfold sizeofExtent at hi
    rw [Nat.add_assoc, Nat.add_assoc]
    unfold sizeofExtentHeader
    exact hmoved _ (by omega) (by omega)

/-- The tree of an inode stays when its root and the data blocks do. -/
theorem ExtentSubtree.transfer (hg : Accepted g) {n : ℕ}
    (h : ExtentSubtree g m owned (rootHeader g n) 4 depth es) (howned : ∀ b, owned b → owned' b)
    (hdata : ∀ b, owned b → DataBlock g b)
    (hm : ∀ a, a ∈ rootBytes g n ∨ (∃ b, DataBlock g b ∧ InBlock g b a) → m' a = m a) :
    ExtentSubtree g m' owned' (rootHeader g n) 4 depth es := by
  refine h.move hg (fun count hnode => hnode.move fun i hi => ?_) (fun i hi => ?_) howned
    fun k hk a ha => ?_
  · exact hm _ (Or.inl ⟨Nat.le_add_right _ _, by unfold sizeofExtentHeader; omega⟩)
  · unfold sizeofExtent at hi
    exact hm _ (Or.inl ⟨by omega, by unfold sizeofExtentHeader; omega⟩)
  · exact hm a (Or.inr ⟨k, hdata k hk, ha⟩)

end Moving

section Deepening

variable {g : Globals} {s : State} {m₀ : Mem} {base : State} {F O R : List ℕ} {n depth : ℕ}
  {es : List Ext4Extent}

/-- What `make_tree_deeper` makes of a tree: a child with everything that was in the root, in a new
block, and a root with one entry for it. -/
structure Moved (g : Globals) (s t : State) (n depth : ℕ) (es : List Ext4Extent) (b : ℕ) :
    Prop where
  data : DataBlock g b
  registered : t.ext4.registered = s.ext4.registered ++ [⟨n, 0, b, b + 1, false⟩]
  child : ExtentSubtree g t.mem (NodeBlock t n) (blockStart g.metaInfo g.sb b) (maxEntries g) depth
    es
  copied : ∀ i < 60, i < 4 ∨ 6 ≤ i →
    t.mem (blockStart g.metaInfo g.sb b + i) = s.mem (rootHeader g n + i)
  below : ∀ k, NodeBlock s n k → ∀ a, InBlock g k a → t.mem a = s.mem a
  magic : t.mem.readLE (rootHeader g n) 2 = ehMagic
  single : ehEntries t.mem (rootHeader g n) = 1
  capacity : ehMax t.mem (rootHeader g n) = 4
  depth : ehDepth t.mem (rootHeader g n) = u16 (depth + 1)
  eiBlock : t.mem.readLE (rootHeader g n + sizeofExtentHeader) 4 = 0
  leaf : fromLoHi (t.mem.readLE (rootHeader g n + sizeofExtentHeader + 4) 4)
    (t.mem.readLE (rootHeader g n + sizeofExtentHeader + 8) 2) = b

/-- The block that a root moved to is a node of its tree. -/
theorem Moved.nodeBlock {t : State} {b : ℕ} (h : Moved g s t n depth es b) : NodeBlock t n b := by
  refine ⟨⟨n, 0, b, b + 1, false⟩, ?_, rfl, rfl, ?_⟩
  · rw [h.registered]
    exact List.mem_append_right _ (List.mem_singleton_self _)
  · rw [Registration.blocks, Nat.add_sub_cancel_left, List.range'_one]

/-- The blocks of the nodes of an inode are data blocks. -/
theorem BuildInv.nodeBlock_data (h : BuildInv g m₀ base F O R s) {b : ℕ} (hb : NodeBlock s n b) :
    DataBlock g b := by
  obtain ⟨r, hr, -, -, hblocks⟩ := hb
  refine h.registered_data hr ?_
  rw [hblocks]
  exact List.mem_singleton_self b

/-- `make_tree_deeper` moves the root of a well-formed tree. It stops only where the allocation
does. -/
theorem makeTreeDeeper_moved (hg : Accepted g) (h : BuildInv g m₀ base F O R s)
    (hn : InodePlace g.sb n)
    (htree : ExtentSubtree g s.mem (NodeBlock s n) (rootHeader g n) 4 depth es) {fuel : ℕ}
    {E : Halt → State → Prop} (hstop : wp (allocateExtent fuel 1) (fun _ _ => True) E s) :
    wp (makeTreeDeeper g fuel (rootHeader g n) n)
      (fun _ t => ∃ b, TreeStep g m₀ base F O R Set.univ [] n [⟨n, 0, b, b + 1, false⟩] s t ∧
        Moved g s t n depth es b) E s := by
  obtain ⟨-, -, hmax, -⟩ := hg.maxEntries_eq
  refine wp_mono_ok (makeTreeDeeper_moves hg h hn (D := Set.univ) (Set.mem_univ n) (P := [])
    (List.nil_subset _) fuel hstop) ?_
  intro _ t ht
  obtain ⟨b, m, hstep, hdata, hfresh, hkeeps, hmem⟩ := ht
  have hd := hg.root_apart hn hdata
  have hb := hdata.lt_word hg
  obtain ⟨hmagic, hcount, hcapacity, hdepth, heiBlock, hlo, hhi⟩ :=
    deepened_root (m := m) (maxEntries g) hd hb
  have hmoved := (deepened_child (m := m) (b := b) hd hmax).1
  have htree' : ExtentSubtree g m (NodeBlock s n) (rootHeader g n) 4 depth es :=
    htree.transfer hg (fun _ hk => hk) (fun _ hk => h.nodeBlock_data hk) hkeeps
  have hroot := htree'.rootNode
  have howned : ∀ k, NodeBlock s n k → NodeBlock t n k := by
    rintro k ⟨r, hr, hrest⟩
    exact ⟨r, by rw [hstep.registered]; exact List.mem_append_left _ hr, hrest⟩
  have hbelow : ∀ k, NodeBlock s n k → ∀ a, InBlock g k a →
      deepened m (rootHeader g n) (blockStart g.metaInfo g.sb b) b (maxEntries g) a = m a := by
    rintro k ⟨r, hr, hnode, hrn, hblocks⟩ a ha
    have hk : k ∈ r.blocks := by
      rw [hblocks]
      exact List.mem_singleton_self k
    have hsize := hg.blockSize_ge
    apply deepened_outside
    · by_contra hin
      obtain rfl := inBlock_unique (g := g) (b := b) ⟨by omega, by omega⟩ ha
      exact hfresh (mem_registeredBlocks.mpr ⟨r, hr, hk⟩)
    · by_contra hin
      have hrootByte : a ∈ rootBytes g n := ⟨by omega, by unfold sizeofExtentHeader; omega⟩
      have hinode := rootBytes_subset hrootByte
      obtain ⟨c, hc, -, hca⟩ := hg.inodeAddr_inPrefix hn hinode.1 hinode.2
      obtain rfl := inBlock_unique ha hca
      exact (h.registered_data hr hk).outside ⟨_, hn.group, hc⟩
  rw [← hmem] at hmagic hcount hcapacity hdepth heiBlock hlo hhi hmoved
  refine ⟨b, hstep, hdata, hstep.registered, ?_, fun i hi hout => ?_, fun k hk a ha => ?_,
    hmagic.trans hroot.magic, hcount, hcapacity.trans hroot.capacity, ?_, heiBlock, ?_⟩
  · rw [hmem]
    exact deepened_childSubtree hg htree' hd howned hbelow
  · rw [hmoved i hi hout]
    exact hkeeps _ (Or.inl ⟨Nat.le_add_right _ _, by unfold sizeofExtentHeader; omega⟩)
  · rw [hmem, hbelow k hk a ha]
    exact hkeeps a (Or.inr ⟨k, h.nodeBlock_data hk, ha⟩)
  · rw [hdepth, hroot.depth]
  · rw [hlo, hhi, fromLoHi_eq hb, Nat.zero_mul, Nat.zero_add]

/-- The moved tree is one level below a root with one entry. -/
theorem Moved.subtree {t : State} {b : ℕ} (h : Moved g s t n depth es b)
    (hfirst : ∀ e ∈ es.head?, e.eeBlock = 0) (hdepth : depth + 1 < 2 ^ 16) :
    ExtentSubtree g t.mem (NodeBlock t n) (rootHeader g n) 4 (depth + 1) es := by
  have hchild := h.child
  obtain ⟨e, rest, rfl⟩ := List.exists_cons_of_ne_nil hchild.ne_nil
  have hheader : NodeHeader t.mem (rootHeader g n) 4 (depth + 1) 1 :=
    ⟨h.magic, h.single, h.capacity, by rw [h.depth, u16_of_lt hdepth], le_rfl, by norm_num⟩
  refine ExtentSubtree.index hheader ?_
  rw [← List.append_nil (e :: rest), List.cons_append]
  exact ExtentChildren.cons h.nodeBlock (by rw [h.eiBlock, hfirst e rfl]) h.leaf hchild
    ExtentChildren.nil

/-- With enough fuel one block is allocated unless the file system is full. -/
theorem allocateOne_ends (hg : Accepted g) (h : BuildInv g m₀ base F O R s) {fuel : ℕ}
    (hfuel : cursorRoom s < fuel) :
    wp (allocateExtent fuel 1) (fun _ t => cursorRoom t < cursorRoom s)
      (fun cause _ => cause = .exit fsIsFullMessage) s := by
  refine wp_mono (wp_and (allocateExtent_spec hg.blockedExtents le_rfl (by norm_num) fuel h.alloc)
    (allocateExtent_room (h.alloc.startsBounded hg.blockedExtents) fuel 1 hfuel (by norm_num)))
    (fun _ _ ht => ht.2.2.1) ?_
  intro cause _ hend
  exact hend.2.resolve_left hend.1.1

end Deepening

section Last

variable {g : Globals} {s : State} {E : Halt → State → Prop} {m : Mem} {owned : ℕ → Prop}
  {header max depth count p n : ℕ} {es : List Ext4Extent} {e : Ext4Extent}

/-- Reading an extent gives the extent that was stored. -/
theorem ext4ExtentAt_eq (he : e.Typed) (hread : m.read p sizeofExtent = e.bytes) :
    ext4ExtentAt m p = e := by
  have hpart : ∀ i w, i + w ≤ sizeofExtent → m.read (p + i) w = (e.bytes.drop i).take w := by
    intro i w hiw
    rw [← hread]
    exact (Mem.read_drop_take m p sizeofExtent i w hiw).symm
  have hblock : m.readLE p 4 = e.eeBlock := by
    have hzero := hpart 0 4 (by decide)
    rw [Nat.add_zero] at hzero
    rw [Mem.readLE, hzero, List.drop_zero, Ext4Extent.bytes, List.append_assoc, List.append_assoc,
      List.take_left' (length_leBytes _ _), leNat_leBytes_of_lt he.eeBlock]
  have hlen : m.readLE (p + 4) 2 = e.eeLen := by
    rw [Mem.readLE, hpart 4 2 (by decide), Ext4Extent.bytes, List.append_assoc, List.append_assoc,
      List.drop_left' (length_leBytes _ _), List.take_left' (length_leBytes _ _),
      leNat_leBytes_of_lt he.eeLen]
  have hhi : m.readLE (p + 6) 2 = e.eeStartHi := by
    rw [Mem.readLE, hpart 6 2 (by decide), Ext4Extent.bytes, List.append_assoc,
      List.drop_left' (by simp), List.take_left' (length_leBytes _ _),
      leNat_leBytes_of_lt he.eeStartHi]
  have hlo : m.readLE (p + 8) 4 = e.eeStartLo := by
    rw [Mem.readLE, hpart 8 4 (by decide), Ext4Extent.bytes, List.drop_left' (by simp),
      List.take_of_length_le (by simp), leNat_leBytes_of_lt he.eeStartLo]
  rw [ext4ExtentAt, hblock, hlen, hhi, hlo]

/-- The last of some index entries names the tree with the last extents. -/
theorem ExtentChildren.last (h : ExtentChildren g m owned depth p (count + 1) es) :
    ∃ front e₀ rest, es = front ++ e₀ :: rest ∧ ExtentChildren g m owned depth p count front ∧
      m.readLE (p + sizeofExtent * count) 4 = e₀.eeBlock ∧
      owned (fromLoHi (m.readLE (p + sizeofExtent * count + 4) 4)
        (m.readLE (p + sizeofExtent * count + 8) 2)) ∧
      ExtentSubtree g m owned
        (blockStart g.metaInfo g.sb (fromLoHi (m.readLE (p + sizeofExtent * count + 4) 4)
          (m.readLE (p + sizeofExtent * count + 8) 2))) (maxEntries g) depth (e₀ :: rest) := by
  induction count generalizing p es with
  | zero =>
    cases h with
    | cons hown heiBlock hleaf hchild hrest =>
      cases hrest
      subst hleaf
      exact ⟨[], _, _, by rw [List.append_nil, List.nil_append], ExtentChildren.nil, heiBlock, hown,
        hchild⟩
  | succ count ih =>
    cases h with
    | cons hown heiBlock hleaf hchild hrest =>
      obtain ⟨front, e₀, rest, rfl, hfront, heiBlock₀, hown₀, hlast⟩ := ih hrest
      have hplace : p + sizeofExtent + sizeofExtent * count = p + sizeofExtent * (count + 1) := by
        rw [Nat.mul_succ]
        omega
      rw [hplace] at heiBlock₀ hown₀ hlast
      exact ⟨_, e₀, rest, (List.append_assoc _ _ _).symm,
        ExtentChildren.cons hown heiBlock hleaf hchild hfront, heiBlock₀, hown₀, hlast⟩

/-- The last extent of a leaf is behind the number of extents before it. -/
theorem getLast_of_leaf (hnode : NodeHeader m header max 0 es.length)
    (hholds : m.read (header + sizeofExtentHeader) (sizeofExtent * es.length) =
      es.flatMap Ext4Extent.bytes) (htyped : ∀ e ∈ es, e.Typed) :
    es.getLast? = some (ext4ExtentAt m (header + sizeofExtent * ehEntries m header)) := by
  rcases List.eq_nil_or_concat es with rfl | ⟨front, e, rfl⟩
  · exact absurd hnode.positive (Nat.not_succ_le_zero 0)
  rw [List.concat_eq_append] at hnode hholds htyped ⊢
  have hread : m.read (header + sizeofExtentHeader + sizeofExtent * front.length)
      sizeofExtent = e.bytes := by
    have hpart := Mem.read_drop_take m (header + sizeofExtentHeader)
      (sizeofExtent * (front ++ [e]).length) (sizeofExtent * front.length) sizeofExtent
      (by rw [List.length_append, List.length_singleton, Nat.mul_succ])
    rw [← hpart, hholds, List.flatMap_append, List.drop_left' (length_extents_bytes front),
      List.flatMap_singleton, List.take_of_length_le (length_extent_bytes e).le]
  have hplace : header + sizeofExtent * ehEntries m header =
      header + sizeofExtentHeader + sizeofExtent * front.length := by
    rw [hnode.entries, List.length_append, List.length_singleton]
    unfold sizeofExtent sizeofExtentHeader
    omega
  rw [hplace, ext4ExtentAt_eq (htyped e (by simp)) hread, List.getLast?_append]
  rfl

/-- The loop of `last_extent` ends at the leaf with the last extent. -/
theorem lastLeaf_spec (h : ExtentSubtree g s.mem owned header max depth es)
    (htyped : ∀ e ∈ es, e.Typed) {fuel : ℕ} (hfuel : depth < fuel) :
    wp (lastLeaf g fuel header)
      (fun leaf t => t = s ∧
        es.getLast? = some (ext4ExtentAt s.mem (leaf + sizeofExtent * ehEntries s.mem leaf))) E
      s := by
  induction depth generalizing header max es fuel with
  | zero =>
    obtain ⟨fuel, rfl⟩ := Nat.exists_eq_succ_of_ne_zero (by omega : fuel ≠ 0)
    cases h with
    | leaf hnode hholds =>
      rw [lastLeaf]
      simp only [wp_bind, wp_getMem]
      rw [if_neg (not_not.mpr hnode.depth), wp_pure]
      exact ⟨rfl, getLast_of_leaf hnode hholds htyped⟩
  | succ depth ih =>
    obtain ⟨fuel, rfl⟩ := Nat.exists_eq_succ_of_ne_zero (by omega : fuel ≠ 0)
    cases h with
    | index hnode hchildren =>
      rw [lastLeaf]
      simp only [wp_bind, wp_getMem]
      rw [if_pos (by rw [hnode.depth]; exact Nat.succ_ne_zero depth)]
      obtain ⟨count, rfl⟩ := hnode.exists_succ
      obtain ⟨front, e₀, rest, rfl, -, -, -, hlast⟩ := hchildren.last
      rw [hnode.lastPlace]
      refine wp_mono_ok (ih hlast (fun e he => htyped e (List.mem_append_right front he))
        (Nat.lt_of_succ_lt_succ hfuel)) ?_
      intro leaf t ht
      refine ⟨ht.1, ?_⟩
      rw [List.getLast?_append, ht.2]
      rfl

/-- `last_extent` returns the last extent of the leaves. -/
theorem lastExtent_spec (hg : Accepted g) (hplaced : Placed g s.ext4.groupDescs)
    (hn : InodePlace g.sb n)
    (htree : ExtentSubtree g s.mem owned (rootHeader g n) max depth es)
    (htyped : ∀ e ∈ es, e.Typed) {fuel : ℕ} (hfuel : depth < fuel) :
    wp (lastExtent g fuel n) (fun e t => t = s ∧ es.getLast? = some e) E s := by
  rw [lastExtent, wp_bind]
  refine getExistingInode_spec hg hplaced hn ?_
  rw [wp_bind]
  refine wp_mono_ok (lastLeaf_spec htree htyped hfuel) ?_
  intro leaf t ht
  obtain ⟨rfl, hlast⟩ := ht
  simp only [wp_bind, wp_getMem, wp_pure]
  exact ⟨trivial, hlast⟩

end Last

/-- A header that is read as it was stored. -/
theorem NodeHeader.of_read {m : Mem} {p : ℕ} {h : Ext4ExtentHeader}
    (hread : m.read p sizeofExtentHeader = h.bytes) (hpositive : 1 ≤ h.ehEntries)
    (hfits : h.ehEntries ≤ h.ehMax) (hmax : h.ehMax < 2 ^ 16) (hdepth : h.ehDepth < 2 ^ 16) :
    NodeHeader m p h.ehMax h.ehDepth h.ehEntries := by
  have hpart : ∀ i w, i + w ≤ sizeofExtentHeader → m.read (p + i) w = (h.bytes.drop i).take w := by
    intro i w hiw
    rw [← hread]
    exact (Mem.read_drop_take m p sizeofExtentHeader i w hiw).symm
  have hmagic := hpart 0 2 (by decide)
  rw [Nat.add_zero] at hmagic
  refine ⟨?_, ?_, ?_, ?_, hpositive, hfits⟩
  · rw [Mem.readLE, hmagic, List.drop_zero, Ext4ExtentHeader.bytes]
    simp only [List.append_assoc]
    rw [List.take_left' (length_leBytes _ _), leNat_leBytes_of_lt (by decide)]
  · rw [ehEntries, Mem.readLE, hpart 2 2 (by decide), Ext4ExtentHeader.bytes]
    simp only [List.append_assoc]
    rw [List.drop_left' (length_leBytes _ _), List.take_left' (length_leBytes _ _),
      leNat_leBytes_of_lt (by omega)]
  · rw [ehMax, Mem.readLE, hpart 4 2 (by decide), Ext4ExtentHeader.bytes, List.append_assoc,
      List.append_assoc, List.drop_left' (by simp), List.take_left' (length_leBytes _ _),
      leNat_leBytes_of_lt (by omega)]
  · rw [ehDepth, Mem.readLE, hpart 6 2 (by decide), Ext4ExtentHeader.bytes, List.append_assoc,
      List.drop_left' (by simp), List.take_left' (length_leBytes _ _),
      leNat_leBytes_of_lt (by omega)]

/-- A packed header has twelve bytes. -/
theorem length_header_bytes (h : Ext4ExtentHeader) : h.bytes.length = sizeofExtentHeader := by
  simp [Ext4ExtentHeader.bytes, sizeofExtentHeader]

end OfsConvert
