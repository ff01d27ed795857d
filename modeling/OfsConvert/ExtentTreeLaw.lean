import OfsConvert.ExtentRegistration

/-!
# What register_extent makes of the extent tree

`ExtentSubtree` is a well-formed extent tree with the extents of its leaves in order. Extents are
registered one after the other; the tree stays well formed up to one full leaf, and from the fifth
extent on only if the first one starts at logical block 0, the block that `make_tree_deeper` writes
into the index entry.
-/

namespace OfsConvert

/-- The header of a node with the given capacity, depth and number of entries. -/
structure NodeHeader (m : Mem) (header max depth count : ℕ) : Prop where
  magic : m.readLE header 2 = ehMagic
  entries : ehEntries m header = count
  capacity : ehMax m header = max
  depth : ehDepth m header = depth
  positive : 1 ≤ count
  fits : count ≤ max

mutual

/-- A well-formed tree below a header with room for `max` entries, of a depth, with the extents in
its leaves in order. -/
inductive ExtentSubtree (g : Globals) (m : Mem) (owned : ℕ → Prop) :
    ℕ → ℕ → ℕ → List Ext4Extent → Prop where
  | leaf {header max : ℕ} {es : List Ext4Extent} (hheader : NodeHeader m header max 0 es.length)
      (hholds : m.read (header + sizeofExtentHeader) (sizeofExtent * es.length) =
        es.flatMap Ext4Extent.bytes) :
      ExtentSubtree g m owned header max 0 es
  | index {header max depth count : ℕ} {es : List Ext4Extent}
      (hheader : NodeHeader m header max (depth + 1) count)
      (hchildren : ExtentChildren g m owned depth (header + sizeofExtentHeader) count es) :
      ExtentSubtree g m owned header max (depth + 1) es

/-- The index entries from an address on, with the extents below them. -/
inductive ExtentChildren (g : Globals) (m : Mem) (owned : ℕ → Prop) :
    ℕ → ℕ → ℕ → List Ext4Extent → Prop where
  | nil {depth p : ℕ} : ExtentChildren g m owned depth p 0 []
  | cons {depth p count b : ℕ} {e : Ext4Extent} {es es' : List Ext4Extent} (howned : owned b)
      (heiBlock : m.readLE p 4 = e.eeBlock)
      (hleaf : fromLoHi (m.readLE (p + 4) 4) (m.readLE (p + 8) 2) = b)
      (hchild : ExtentSubtree g m owned (blockStart g.metaInfo g.sb b) (maxEntries g) depth
        (e :: es))
      (hrest : ExtentChildren g m owned depth (p + sizeofExtent) count es') :
      ExtentChildren g m owned depth p (count + 1) (e :: es ++ es')

end

/-- The tree in an inode is well formed and its leaves hold the given extents. -/
def TreeHolds (g : Globals) (s : State) (inodeNo : ℕ) (es : List Ext4Extent) : Prop :=
  ∃ depth, ExtentSubtree g s.mem (NodeBlock s inodeNo) (rootHeader g inodeNo) 4 depth es

/-- Calls of `register_extent` for the extents of an inode, one after the other. -/
def registerAll (g : Globals) (fuel inodeNo : ℕ) : List FatExtent → Prog Unit
  | [] => pure ()
  | fext :: fexts => do
    registerExtent g fuel fext inodeNo
    registerAll g fuel inodeNo fexts

/-- The extents that `register_extent` makes of those it is given. -/
def ext4Extents (g : Globals) (fexts : List FatExtent) : List Ext4Extent :=
  fexts.map (toExt4Extent g)

/-- The blocks of extents. -/
def extentBlocks (es : List Ext4Extent) : List ℕ :=
  es.flatMap fun e => List.range' e.start e.eeLen

/-- After every call the tree holds exactly the extents that were registered so far. -/
def TreeKept (g : Globals) (fuel inodeNo : ℕ) (fexts : List FatExtent) (s : State) : Prop :=
  ∀ done, done <+: fexts → done ≠ [] → ∀ t, registerAll g fuel inodeNo done s = .ok () t →
    TreeHolds g t inodeNo (ext4Extents g done)

section

variable {g : Globals} {s t : State} {m : Mem} {m₀ : Mem} {base : State} {F O R : List ℕ}
  {n b fuel : ℕ} {es : List Ext4Extent} {e : Ext4Extent} {fexts done rest : List FatExtent}
  {leaf : Option ℕ}

/-- A node with entries, as a leaf of a tree. -/
theorem NodeAt.subtree {header max : ℕ} {owned : ℕ → Prop} (h : NodeAt m header max es)
    (hes : es ≠ []) : ExtentSubtree g m owned header max 0 es :=
  ExtentSubtree.leaf ⟨h.magic, h.count, h.capacity, h.depth, List.length_pos_iff.mpr hes, h.fits⟩
    h.holds

/-- The tree up to one full leaf is well formed. -/
theorem TreeAt.holds (h : TreeAt g s.mem n es leaf) (hes : es ≠ [])
    (hleaf : ∀ b, leaf = some b → b < 2 ^ 32 ∧ NodeBlock s n b)
    (hfirst : ∀ b, leaf = some b → ∀ e, es.head? = some e → e.eeBlock = 0) :
    TreeHolds g s n es := by
  cases leaf with
  | none => exact ⟨0, NodeAt.subtree h hes⟩
  | some b =>
    obtain ⟨hindex, -, hnode⟩ := h
    obtain ⟨hb, howned⟩ := hleaf b rfl
    cases es with
    | nil => exact absurd rfl hes
    | cons e es =>
      have hheader : NodeHeader s.mem (rootHeader g n) 4 (0 + 1) 1 :=
        ⟨hindex.magic, hindex.count, hindex.capacity, hindex.depth, le_rfl, by norm_num⟩
      refine ⟨1, ExtentSubtree.index hheader ?_⟩
      rw [← List.append_nil (e :: es), List.cons_append]
      refine ExtentChildren.cons howned ?_ ?_ (hnode.subtree (List.cons_ne_nil e es))
        ExtentChildren.nil
      · rw [hindex.eiBlock, hfirst b rfl e rfl]
      · rw [hindex.leafLo, hindex.leafHi, fromLoHi_eq hb, Nat.zero_mul, Nat.zero_add]

/-- A well-formed tree with one index entry. -/
theorem TreeHolds.child (h : TreeHolds g s n es) (hdepth : ehDepth s.mem (rootHeader g n) = 1)
    (hcount : ehEntries s.mem (rootHeader g n) = 1) :
    ∃ e rest, es = e :: rest ∧
      s.mem.readLE (rootHeader g n + sizeofExtentHeader) 4 = e.eeBlock ∧
      es.length ≤ maxEntries g := by
  obtain ⟨depth, htree⟩ := h
  cases htree with
  | leaf hheader _ =>
    rw [hheader.depth] at hdepth
    exact absurd hdepth Nat.zero_ne_one
  | index hheader hchildren =>
    rw [hheader.depth] at hdepth
    rw [hheader.entries] at hcount
    obtain rfl : _ = 0 := Nat.succ.inj hdepth
    subst hcount
    cases hchildren with
    | cons howned heiBlock hleaf hchild hrest =>
      cases hrest
      rw [List.append_nil]
      cases hchild with
      | leaf hleafHeader _ => exact ⟨_, _, rfl, heiBlock, hleafHeader.fits⟩

/-- The tree with an overwritten index entry is not well formed. -/
theorem SpilledAt.not_holds (h : SpilledAt g s.mem n es e b) :
    ¬ TreeHolds g s n (es ++ [e]) := by
  intro hholds
  obtain ⟨-, -, -, -, hfits⟩ := hholds.child h.depth h.count
  rw [List.length_append, List.length_singleton, h.full] at hfits
  omega

/-- The extents of two lists follow one another. -/
theorem ext4Extents_append : ext4Extents g (done ++ rest) = ext4Extents g done ++ ext4Extents g rest :=
  List.map_append

/-- The blocks of two lists of extents are those of each. -/
theorem extentBlocks_append {es es' : List Ext4Extent} :
    extentBlocks (es ++ es') = extentBlocks es ++ extentBlocks es' := List.flatMap_append

/-- The calls for a list of extents and then for another. -/
theorem registerAll_append : registerAll g fuel n (done ++ rest) = (do
    registerAll g fuel n done
    registerAll g fuel n rest) := by
  induction done with
  | nil => rfl
  | cons fext done ih =>
    rw [List.cons_append, registerAll, ih, registerAll, bind_assoc]

/-- A run that returns returned from its first calls. -/
theorem registerAll_initial (hrun : registerAll g fuel n (done ++ rest) s = .ok () t) :
    ∃ u, registerAll g fuel n done s = .ok () u ∧ registerAll g fuel n rest u = .ok () t := by
  have hwp : wp (registerAll g fuel n (done ++ rest)) (fun _ u => u = t) (fun _ _ => False) s := by
    unfold wp
    rw [hrun]
  rw [registerAll_append, wp_bind] at hwp
  obtain ⟨_, u, hu, hrest⟩ := exists_ok_of_wp hwp
  obtain ⟨_, v, hv, rfl⟩ := exists_ok_of_wp hrest
  exact ⟨u, hu, hv⟩

/-- One call, on a tree that has not spilled. -/
theorem registerExtent_kept (fuel : ℕ) (hg : Accepted g) {fext : FatExtent}
    (hlength : 0 < fext.length)
    (h : BuildInv g m₀ base F O (extentBlocks [toExt4Extent g fext] ++ R) s)
    (hn : InodePlace g.sb n) (htree : Tree g s n es) (hroom : es.length ≤ maxEntries g)
    {E : Halt → State → Prop}
    (hfuel : fuel < 2 → ∀ t, BuildInv g m₀ base F O (extentBlocks [toExt4Extent g fext] ++ R) t →
      E .fuel t)
    (hstop : es.length = 4 → wp (allocateExtent fuel 1) (fun _ _ => True) E s) :
    wp (registerExtent g fuel fext n)
      (fun _ t => BuildInv g m₀ base F O R t ∧ TreeGrown g t n es (toExt4Extent g fext)) E s := by
  have hblocks : extentBlocks [toExt4Extent g fext] =
      List.range' (toExt4Extent g fext).start (toExt4Extent g fext).eeLen := by
    rw [extentBlocks, List.flatMap_cons, List.flatMap_nil, List.append_nil]
  rw [hblocks] at h hfuel
  have hperm : (List.range' (toExt4Extent g fext).start (toExt4Extent g fext).eeLen ++
      (O ++ R)).Perm (O ++ (List.range' (toExt4Extent g fext).start (toExt4Extent g fext).eeLen ++
        R)) := by
    rw [← List.append_assoc, ← List.append_assoc]
    exact List.perm_append_comm.append_right R
  refine wp_mono_ok (registerExtent_outcome hg h hn (D := Set.univ) (Set.mem_univ n) (P := [])
    (List.nil_subset _) htree hroom hlength hperm ?_ (List.Subset.refl O) fuel hfuel hstop) ?_
  · exact List.subset_append_right _ _
  · intro _ t ht
    obtain ⟨nodes, -, hstep, hgrown⟩ := ht
    exact ⟨hstep.inv, hgrown⟩

/-- The calls up to one full leaf. -/
theorem registerAll_spec (hg : Accepted g) (hn : InodePlace g.sb n)
    (hlength : ∀ fext ∈ fexts, 0 < fext.length)
    (h : BuildInv g m₀ base F O (extentBlocks (ext4Extents g fexts) ++ R) s)
    (htree : Tree g s n es) (hroom : es.length + fexts.length ≤ maxEntries g) :
    wp (registerAll g fuel n fexts)
      (fun _ t => BuildInv g m₀ base F O R t ∧ Tree g t n (es ++ ext4Extents g fexts))
      (BuildStop g base F) s := by
  induction fexts generalizing s es with
  | nil =>
    rw [registerAll, wp_pure, ext4Extents, List.map_nil, List.append_nil]
    exact ⟨h, htree⟩
  | cons fext fexts ih =>
    rw [List.length_cons] at hroom
    have hsplit : extentBlocks (ext4Extents g (fext :: fexts)) =
        extentBlocks [toExt4Extent g fext] ++ extentBlocks (ext4Extents g fexts) := by
      rw [← extentBlocks_append]
      rfl
    rw [hsplit, List.append_assoc] at h
    rw [registerAll, wp_bind]
    refine wp_mono_ok (registerExtent_kept fuel hg (hlength fext List.mem_cons_self) h hn htree
      (by omega) (fun _ _ ht => ht.stop .fuel) fun _ =>
        wp_mono (allocateBlock_spec hg h fuel) (fun _ _ _ => trivial) fun _ _ hend => hend) ?_
    intro _ u hu
    obtain ⟨hinv, hgrown⟩ := hu
    refine wp_mono_ok (ih (fun f hf => hlength f (List.mem_cons_of_mem fext hf)) hinv hgrown.grown
      ?_) ?_
    · rw [List.length_append, List.length_singleton]
      omega
    · intro _ t ht
      rw [List.append_assoc] at ht
      exact ht

/-- Once there is a leaf, the calls that fill it return, and so does the first one that spills. -/
theorem registerAll_returns (hg : Accepted g) (hn : InodePlace g.sb n)
    (hlength : ∀ fext ∈ fexts, 0 < fext.length)
    (h : BuildInv g m₀ base F O (extentBlocks (ext4Extents g fexts) ++ R) s)
    (htree : Tree g s n es) (hleaf : 4 < es.length)
    (hroom : es.length + fexts.length ≤ maxEntries g + 1) (hfuel : 2 ≤ fuel) :
    wp (registerAll g fuel n fexts) (fun _ _ => True) (fun _ _ => False) s := by
  induction fexts generalizing s es with
  | nil => exact trivial
  | cons fext fexts ih =>
    rw [List.length_cons] at hroom
    have hsplit : extentBlocks (ext4Extents g (fext :: fexts)) =
        extentBlocks [toExt4Extent g fext] ++ extentBlocks (ext4Extents g fexts) := by
      rw [← extentBlocks_append]
      rfl
    rw [hsplit, List.append_assoc] at h
    rw [registerAll, wp_bind]
    refine wp_mono_ok (registerExtent_kept fuel hg (hlength fext List.mem_cons_self) h hn htree
      (by omega) (fun hfew => absurd hfew (by omega)) fun hfour => absurd hfour (by omega)) ?_
    intro _ u hu
    refine ih (fun f hf => hlength f (List.mem_cons_of_mem fext hf)) hu.1 hu.2.grown ?_ ?_
    · rw [List.length_append]
      omega
    · rw [List.length_append, List.length_singleton]
      omega

/-- The blocks of the first calls are among those of all. -/
theorem BuildInv.extentBlocks_extends
    (h : BuildInv g m₀ base F O (extentBlocks (ext4Extents g (done ++ rest)) ++ R) s) :
    BuildInv g m₀ base F O (extentBlocks (ext4Extents g done) ++
      (extentBlocks (ext4Extents g rest) ++ R)) s := by
  rwa [ext4Extents_append, extentBlocks_append, List.append_assoc] at h

/-- After calls up to one full leaf. -/
theorem registerAll_tree (hg : Accepted g) (hn : InodePlace g.sb n)
    (hempty : TreeAt g s.mem n [] none) (hlength : ∀ fext ∈ fexts, 0 < fext.length)
    (h : BuildInv g m₀ base F O (extentBlocks (ext4Extents g fexts) ++ R) s)
    (hroom : fexts.length ≤ maxEntries g) (hrun : registerAll g fuel n fexts s = .ok () t) :
    BuildInv g m₀ base F O R t ∧ ∃ leaf, TreeAt g t.mem n (ext4Extents g fexts) leaf ∧
      ∀ b, leaf = some b → 4 < fexts.length ∧ NodeBlock t n b := by
  have hstart : Tree g s n [] := fun _ => ⟨none, hempty, nofun⟩
  obtain ⟨hinv, htree⟩ := wp_ok (registerAll_spec hg hn hlength h hstart
    (by rw [List.length_nil]; omega)) hrun
  rw [List.nil_append] at htree
  have hsame : (ext4Extents g fexts).length = fexts.length := List.length_map _
  rw [Tree, hsame] at htree
  exact ⟨hinv, htree hroom⟩

/-- A tree that is kept well formed holds no more than one leaf, and more than the inode only from
logical block 0 on. -/
theorem TreeKept.fits (hg : Accepted g) (hn : InodePlace g.sb n)
    (hempty : TreeAt g s.mem n [] none) (hlength : ∀ fext ∈ fexts, 0 < fext.length)
    (h : BuildInv g m₀ base F O (extentBlocks (ext4Extents g fexts) ++ R) s)
    (hrun : registerAll g fuel n fexts s = .ok () t) (hkept : TreeKept g fuel n fexts s) :
    fexts.length ≤ 4 ∨
      fexts.length ≤ maxEntries g ∧ ∀ fext, fexts.head? = some fext → fext.logicalStart = 0 := by
  obtain ⟨-, hentries, -, -⟩ := hg.maxEntries_eq
  by_contra hcond
  rw [not_or, not_and_or] at hcond
  obtain ⟨hmany, hcond⟩ := hcond
  -- the first calls after which the tree has another shape
  have hfirst : ∀ k, k ≤ fexts.length → 0 < k → ∃ u,
      registerAll g fuel n (fexts.take k) s = .ok () u ∧
      TreeHolds g u n (ext4Extents g (fexts.take k)) := by
    intro k hk hpos
    have hsplit : fexts = fexts.take k ++ fexts.drop k := (List.take_append_drop k fexts).symm
    rw [hsplit] at hrun
    obtain ⟨u, hu, -⟩ := registerAll_initial hrun
    refine ⟨u, hu, hkept _ (List.take_prefix k fexts) ?_ u hu⟩
    rw [← List.length_pos_iff, List.length_take]
    omega
  have htaken : ∀ k, BuildInv g m₀ base F O (extentBlocks (ext4Extents g (fexts.take k)) ++
      (extentBlocks (ext4Extents g (fexts.drop k)) ++ R)) s := by
    intro k
    rw [← List.take_append_drop k fexts] at h
    exact h.extentBlocks_extends
  rcases hcond with hlong | hstart
  · obtain ⟨u, hu, hholds⟩ := hfirst (maxEntries g + 1) (by omega) (by omega)
    have hget : maxEntries g < fexts.length := by omega
    have hsplit : fexts.take (maxEntries g + 1) = fexts.take (maxEntries g) ++
        [fexts[maxEntries g]] := List.take_succ_eq_append_getElem hget
    rw [hsplit] at hu
    obtain ⟨v, hv, hlast⟩ := registerAll_initial hu
    have htakenLength : (fexts.take (maxEntries g)).length = maxEntries g := by
      rw [List.length_take]
      omega
    have hinv := htaken (maxEntries g + 1)
    rw [hsplit] at hinv
    obtain ⟨hinv', leaf, htree, hleaf⟩ := registerAll_tree hg hn hempty
      (fun f hf => hlength f (List.mem_of_mem_take hf)) hinv.extentBlocks_extends
      (by omega) hv
    have hspec := registerExtent_kept fuel hg
      (hlength fexts[maxEntries g] (List.getElem_mem hget)) hinv' hn
      (fun _ => ⟨leaf, htree, fun b hb => ⟨by rw [ext4Extents, List.length_map]; exact
        (hleaf b hb).1, (hleaf b hb).2⟩⟩) (by rw [ext4Extents, List.length_map]; omega)
      (E := fun _ _ => True) (fun _ _ _ => trivial) fun _ =>
        wp_mono (allocateBlock_spec hg hinv' fuel) (fun _ _ _ => trivial) fun _ _ _ => trivial
    have hcall : wp (registerExtent g fuel fexts[maxEntries g] n) (fun _ w => w = u)
        (fun _ _ => False) v := by
      have hwp : wp (registerAll g fuel n [fexts[maxEntries g]]) (fun _ w => w = u)
          (fun _ _ => False) v := by
        unfold wp
        rw [hlast]
      rw [registerAll, wp_bind] at hwp
      exact hwp
    obtain ⟨_, w, hw, rfl⟩ := exists_ok_of_wp hcall
    obtain ⟨b, -, hspilled⟩ := (wp_ok hspec hw).2.spilled
      (by rw [ext4Extents, List.length_map]; omega)
    apply hspilled.not_holds
    rw [hsplit, ext4Extents_append] at hholds
    exact hholds
  · obtain ⟨u, hu, hholds⟩ := hfirst 5 (by omega) (by norm_num)
    obtain ⟨-, leaf, htree, -⟩ := registerAll_tree hg hn hempty
      (fun f hf => hlength f (List.mem_of_mem_take hf)) (htaken 5)
      (by rw [List.length_take]; omega) hu
    have hfive : (ext4Extents g (fexts.take 5)).length = 5 := by
      rw [ext4Extents, List.length_map, List.length_take]
      omega
    cases leaf with
    | none =>
      have hfits := NodeAt.fits htree
      omega
    | some b =>
      obtain ⟨hindex, -, -⟩ := htree
      obtain ⟨e, behind, hes, heiBlock, -⟩ := hholds.child hindex.depth hindex.count
      rw [hindex.eiBlock] at heiBlock
      apply hstart
      intro fext hfext
      cases fexts with
      | nil => exact absurd hfext (by simp)
      | cons f fs =>
        obtain rfl := Option.some.inj hfext
        have hhead := congrArg List.head? hes
        rw [ext4Extents, List.take_succ_cons, List.map_cons, List.head?_cons, List.head?_cons]
          at hhead
        have heq := Option.some.inj hhead
        rw [← heq] at heiBlock
        exact heiBlock.symm

/-- The tree is kept well formed as long as its extents fit. -/
theorem treeKept_of_fits (hg : Accepted g) (hn : InodePlace g.sb n)
    (hempty : TreeAt g s.mem n [] none) (hlength : ∀ fext ∈ fexts, 0 < fext.length)
    (h : BuildInv g m₀ base F O (extentBlocks (ext4Extents g fexts) ++ R) s)
    (hcond : fexts.length ≤ 4 ∨
      fexts.length ≤ maxEntries g ∧ ∀ fext, fexts.head? = some fext → fext.logicalStart = 0) :
    TreeKept g fuel n fexts s := by
  obtain ⟨-, hentries, -, -⟩ := hg.maxEntries_eq
  intro done hpre hdone u hu
  obtain ⟨rest, rfl⟩ := hpre
  have hle : done.length ≤ (done ++ rest).length := by
    rw [List.length_append]
    omega
  have hroom : done.length ≤ maxEntries g := by omega
  obtain ⟨hinv, leaf, htree, hleaf⟩ := registerAll_tree hg hn hempty
    (fun f hf => hlength f (List.mem_append_left rest hf)) h.extentBlocks_extends hroom hu
  refine htree.holds ?_ (fun b hb => ⟨?_, (hleaf b hb).2⟩) ?_
  · rw [ext4Extents]
    exact fun hnil => hdone (List.map_eq_nil_iff.mp hnil)
  · obtain ⟨-, r, hr, -, -, hblocks⟩ := hleaf b hb
    have hupper := (hinv.registered_data hr (b := b) (by
      rw [hblocks]; exact List.mem_singleton_self b)).upper
    have hlt := hg.partitionBlocks_lt
    rw [hg.blockCount_eq] at hupper
    omega
  · intro b hb e he
    have hmany := (hleaf b hb).1
    cases done with
    | nil => exact absurd rfl hdone
    | cons f fs =>
      obtain rfl := Option.some.inj he
      rcases hcond with hfew | ⟨-, hzero⟩
      · omega
      · exact hzero f rfl

/-- Calls for one extent more than a leaf holds return if the first five do, and the tree is not
kept. -/
theorem not_treeKept_of_spilled (hg : Accepted g) (hn : InodePlace g.sb n)
    (hempty : TreeAt g s.mem n [] none) (hlength : ∀ fext ∈ fexts, 0 < fext.length)
    (h : BuildInv g m₀ base F O (extentBlocks (ext4Extents g fexts) ++ R) s)
    (hmany : fexts.length = maxEntries g + 1) (hfuel : 2 ≤ fuel)
    (hreturns : returns (registerAll g fuel n (fexts.take 5)) s = true) :
    ¬ TreeKept g fuel n fexts s := by
  obtain ⟨-, hentries, -, -⟩ := hg.maxEntries_eq
  have hinv := h
  rw [← List.take_append_drop 5 fexts] at hinv
  have htaken : (fexts.take 5).length = 5 := by
    rw [List.length_take]
    omega
  have hextents : ([] ++ ext4Extents g (fexts.take 5)).length = 5 := by
    rw [List.nil_append, ext4Extents, List.length_map, htaken]
  have hstart : Tree g s n [] := fun _ => ⟨none, hempty, by simp⟩
  obtain ⟨_, u, hfirst, hinv', htree⟩ := exists_of_returns (registerAll_spec hg hn
    (fun f hf => hlength f (List.mem_of_mem_take hf)) hinv.extentBlocks_extends hstart
    (by rw [htaken, List.length_nil]; omega)) hreturns
  have hrest := registerAll_returns hg hn (fun f hf => hlength f (List.mem_of_mem_drop hf)) hinv'
    htree (by rw [hextents]; norm_num) (by rw [hextents, List.length_drop]; omega) hfuel
  have hall : wp (registerAll g fuel n fexts) (fun _ _ => True) (fun _ _ => False) s := by
    rw [← List.take_append_drop 5 fexts, registerAll_append, wp_bind]
    unfold wp at hrest ⊢
    rw [hfirst]
    exact hrest
  obtain ⟨_, t, hrun, -⟩ := exists_ok_of_wp hall
  intro hkept
  have hfits := hkept.fits hg hn hempty hlength h hrun
  omega

/-- Registering extents one after the other on an empty tree keeps the tree well formed with exactly
the registered extents in its leaves if and only if they fit into the inode, or they fit into one
leaf and the first of them starts at logical block 0. -/
theorem registerAll_keepsTree (g : Globals) (hg : Accepted g) (m₀ : Mem) (base s t : State)
    (F O R : List ℕ) (n : ℕ) (hn : InodePlace g.sb n) (hempty : TreeAt g s.mem n [] none)
    (fexts : List FatExtent) (hlength : ∀ fext ∈ fexts, 0 < fext.length)
    (h : BuildInv g m₀ base F O (extentBlocks (ext4Extents g fexts) ++ R) s) (fuel : ℕ)
    (hrun : registerAll g fuel n fexts s = .ok () t) :
    TreeKept g fuel n fexts s ↔ fexts.length ≤ 4 ∨
      fexts.length ≤ maxEntries g ∧ ∀ fext, fexts.head? = some fext → fext.logicalStart = 0 :=
  ⟨TreeKept.fits hg hn hempty hlength h hrun, treeKept_of_fits hg hn hempty hlength h⟩

end

/-- A volume of 400 blocks, with 320 entries in its file allocation table. -/
theorem accepted_sample_800 : Accepted (sampleGlobals 800) where
  volume := {
    sectorBytes := ⟨0, by decide⟩
    clusterSectors := ⟨1, by decide⟩
    dataOffset := by decide
    nonempty := by decide
    clusters := by decide
    fats := by decide
    fatCovers := by decide
    mapped := by decide
    addressable := by decide }
  metaInfo := rfl
  superBlock := rfl

/-- A state of the second phase with nothing registered: the clusters below 240 are in use, those
from there on are free. -/
def emptyBuild (m : Mem) : State where
  mem := m
  allocator := {
    indexInFat := 239
    blockedExtents := metaExtents (sampleGlobals 800) ++ [endSentinel 320]
    blockedExtentCount := 1
    blockedExtentCurrent := 1 }
  allocationBitmap := 2 ^ 240 - 1
  ext4 := {
    groupDescs := (List.range (blockGroupCount (sampleGlobals 800).sb)).map
      (initialGroupDesc (sampleGlobals 800).sb) }

/-- The metadata extent of the volume with one group. -/
theorem metaExtents_sample_800 : metaExtents (sampleGlobals 800) = [⟨0, 51, 2⟩] := by
  decide +kernel

/-- The blocks behind the metadata of that volume are data blocks. -/
theorem dataBlock_sample_800 {b : ℕ} (hlow : 133 ≤ b) (hhigh : b < 400) :
    DataBlock (sampleGlobals 800) b := by
  have hc : DataCluster (sampleGlobals 800) (b - 80) := by
    constructor
    · unfold fatStartIndex
      omega
    · change b - 80 < 320
      omega
  have hback : fatClToE4blk (sampleGlobals 800).bootSector (sampleGlobals 800).metaInfo
      (b - 80) = b := by
    rw [accepted_sample_800.fatClToE4blk_eq hc.1 hc.2.le]
    change 82 + (b - 80 - 2) = b
    omega
  have hdata := accepted_sample_800.dataBlock_of_cluster hc ?_
  · rwa [hback] at hdata
  · rw [metaExtents_sample_800]
    intro e he
    rw [List.mem_singleton] at he
    subst he
    rw [FatExtent.mem_clusters]
    unfold FatExtent.stop
    dsimp only
    omega

/-- The invariant of the second phase holds of that state, for blocks that are in use. -/
theorem buildInv_emptyBuild (m : Mem) {R : List ℕ} (hnodup : R.Nodup)
    (hrange : ∀ b ∈ R, 133 ≤ b ∧ b < 320) :
    BuildInv (sampleGlobals 800) (fun _ => 0) (emptyBuild m) [] [] R (emptyBuild m) := by
  have hfree : ∀ c, isFree (2 ^ 240 - 1) c = true ↔ 240 ≤ c := by
    intro c
    rw [isFree, Nat.testBit_two_pow_sub_one]
    simp
  refine ⟨⟨rfl, ?_, ?_, ?_, ?_, ?_⟩, accepted_sample_800.placed_initial, hnodup, ?_, ?_,
    List.forall_mem_nil _,
    ⟨show 12 ≤ ext4FirstNonRsvInode + 1 by decide,
      show ext4FirstNonRsvInode + 1 < 2 ^ 32 by decide⟩,
    ⟨List.nodup_nil, List.forall_mem_nil _, ⟨[], rfl, List.forall_mem_nil _⟩,
      List.forall_mem_nil _⟩⟩
  · rw [metaExtents_sample_800]
    rfl
  · rw [metaExtents_sample_800]
    exact le_rfl
  · intro i hi e he
    obtain rfl : i = 0 := Nat.lt_one_iff.mp hi
    rw [metaExtents_sample_800] at he
    obtain rfl := Option.some.inj he
    change 2 + 51 ≤ 239
    decide
  · exact (show 239 ≤ 320 + 2 ^ 16 by decide)
  · intro c hc h
    have hlow := (hfree c).mp h
    refine ⟨(show 2 ≤ 240 by decide).trans hlow, ?_⟩
    have hall : ∀ c < 320, isFreeCluster (fatEntry (sampleGlobals 800).metaInfo (fun _ => 0) c) =
        true := by decide +kernel
    exact hall c hc
  · intro b hb
    obtain ⟨hlow, hhigh⟩ := hrange b hb
    exact dataBlock_sample_800 hlow (by omega)
  · intro b hb
    obtain ⟨hlow, hhigh⟩ := hrange b hb
    have hcluster : e4blkToFatCl (sampleGlobals 800).bootSector (sampleGlobals 800).metaInfo b =
        b - 80 := by
      rw [accepted_sample_800.e4blkToFatCl_eq (by omega)]
      change (if b < 82 then 0 else b - 82 + 2) = b - 80
      rw [if_neg (by omega)]
      omega
    rw [BlockTaken, hcluster]
    have hused : ¬ isFree (2 ^ 240 - 1) (b - 80) = true := fun h => by
      have hlow := (hfree _).mp h
      omega
    exact Bool.eq_false_iff.mpr hused

/-- The root of an extent tree in an inode, in a memory that is 0 elsewhere. -/
def rootMem (inodeNo : ℕ) (es : List Ext4Extent) : Mem :=
  Mem.write (fun _ => 0) (rootHeader (sampleGlobals 800) inodeNo)
    (({ initExtentHeader with ehEntries := es.length } : Ext4ExtentHeader).bytes ++
      es.flatMap Ext4Extent.bytes)

/-- Extents of one cluster each, apart from each other. -/
def scatteredExtents (count : ℕ) : List FatExtent :=
  (List.range count).map fun i => ⟨i, 1, 60 + 2 * i⟩

/-- The inode behind the reserved ones has its place. -/
theorem inodePlace_sample_800 : InodePlace (sampleGlobals 800).sb 12 :=
  ⟨by decide, by decide, by decide⟩

/-- The tree of a fresh inode is an empty leaf. -/
theorem treeAt_rootMem_nil :
    TreeAt (sampleGlobals 800) (emptyBuild (rootMem 12 [])).mem 12 [] none :=
  ⟨by decide +kernel, by decide +kernel, by decide +kernel, by decide +kernel, by decide, rfl⟩

/-- The blocks of these extents. -/
theorem extentBlocks_scattered (count : ℕ) (hcount : count ≤ 90) :
    extentBlocks (ext4Extents (sampleGlobals 800) (scatteredExtents count)) =
      (List.range count).map fun i => 140 + 2 * i := by
  have hall : ∀ i < 90, (fun e : Ext4Extent => List.range' e.start e.eeLen)
      (toExt4Extent (sampleGlobals 800) ⟨i, 1, 60 + 2 * i⟩) = [140 + 2 * i] := by decide +kernel
  unfold extentBlocks ext4Extents scatteredExtents
  rw [List.map_map, List.flatMap_map]
  rw [List.map_eq_flatMap]
  refine List.flatMap_congr fun i hi => hall i ?_
  exact (List.mem_range.mp hi).trans_le hcount

/-- The invariant holds before these extents are registered. -/
theorem buildInv_scattered {count : ℕ} (hcount : count ≤ 90) :
    BuildInv (sampleGlobals 800) (fun _ => 0) (emptyBuild (rootMem 12 [])) [] []
      (extentBlocks (ext4Extents (sampleGlobals 800) (scatteredExtents count)) ++ [])
      (emptyBuild (rootMem 12 [])) := by
  rw [extentBlocks_scattered count hcount, List.append_nil]
  apply buildInv_emptyBuild
  · apply List.nodup_range.map
    intro i j hij
    have heq : 140 + 2 * i = 140 + 2 * j := hij
    omega
  · intro b hb
    obtain ⟨i, hi, rfl⟩ := List.mem_map.mp hb
    have hlt := List.mem_range.mp hi
    omega

/-- As many scattered extents as are asked for. -/
theorem length_scatteredExtents (count : ℕ) : (scatteredExtents count).length = count := by
  rw [scatteredExtents, List.length_map, List.length_range]

/-- Each of these extents is one cluster long. -/
theorem scatteredExtents_pos (count : ℕ) : ∀ fext ∈ scatteredExtents count, 0 < fext.length := by
  intro fext hfext
  obtain ⟨i, -, rfl⟩ := List.mem_map.mp hfext
  exact Nat.one_pos

/-- Four extents and one more: the fifth goes to a leaf. -/
theorem registerAll_keepsTree_sample :
    ∃ t, registerAll (sampleGlobals 800) 100 12 (scatteredExtents 5) (emptyBuild (rootMem 12 [])) =
        .ok () t ∧
      (TreeKept (sampleGlobals 800) 100 12 (scatteredExtents 5) (emptyBuild (rootMem 12 [])) ↔
        (scatteredExtents 5).length ≤ 4 ∨
          (scatteredExtents 5).length ≤ maxEntries (sampleGlobals 800) ∧
            ∀ fext, (scatteredExtents 5).head? = some fext → fext.logicalStart = 0) := by
  have hreturns : returns (registerAll (sampleGlobals 800) 100 12 (scatteredExtents 5))
      (emptyBuild (rootMem 12 [])) = true := by decide +kernel
  obtain ⟨_, t, hrun⟩ := exists_ok_of_returns hreturns
  have hkept := registerAll_keepsTree (sampleGlobals 800) accepted_sample_800 (fun _ => 0)
    (emptyBuild (rootMem 12 [])) (emptyBuild (rootMem 12 [])) t [] [] [] 12 inodePlace_sample_800
    treeAt_rootMem_nil (scatteredExtents 5) (scatteredExtents_pos 5)
    (buildInv_scattered (by norm_num)) 100 hrun
  exact ⟨t, hrun, hkept⟩

/-- A file of 85 extents: the last one overwrites the index entry of the leaf with the others. -/
theorem not_treeKept_scattered :
    ¬ TreeKept (sampleGlobals 800) 100 12 (scatteredExtents 85) (emptyBuild (rootMem 12 [])) := by
  have hreturns : returns (registerAll (sampleGlobals 800) 100 12 ((scatteredExtents 85).take 5))
      (emptyBuild (rootMem 12 [])) = true := by decide +kernel
  have hmany : (scatteredExtents 85).length = maxEntries (sampleGlobals 800) + 1 := by
    rw [length_scatteredExtents]
    decide
  exact not_treeKept_of_spilled accepted_sample_800 inodePlace_sample_800 treeAt_rootMem_nil
    (scatteredExtents_pos 85) (buildInv_scattered (by norm_num)) hmany (by norm_num) hreturns

end OfsConvert
