import OfsConvert.RangeRegistration
import OfsConvert.ReadingSafety
import OfsConvert.TreeBuilder

/-!
# The history of the extent trees

Only `register_extent` adds a range to the tree of an inode, and only to that of its own. Every
other part of the second phase leaves the trees that the history shows as they are.
-/

namespace OfsConvert

/-- The history shows no further range in the extent tree of an inode. -/
def SameTrees (s t : State) : Prop :=
  ∀ n, inTreeOf t.ext4.registered n = inTreeOf s.ext4.registered n

namespace SameTrees

/-- A step that does nothing registers nothing. -/
theorem refl (s : State) : SameTrees s s := fun _ => rfl

/-- Steps that register nothing compose. -/
theorem trans {s t u : State} (h : SameTrees s t) (h' : SameTrees t u) : SameTrees s u :=
  fun n => (h' n).trans (h n)

/-- A sequence registers nothing if its parts do not. -/
theorem bind {α β : Type} {x : Prog α} {f : α → Prog β} (hx : Keeps SameTrees x)
    (hf : ∀ a, Keeps SameTrees (f a)) : Keeps SameTrees (x >>= f) :=
  Keeps.bind (fun h h' => h.trans h') hx hf

/-- Returning registers nothing. -/
theorem pure {α : Type} (a : α) : Keeps SameTrees (pure a : Prog α) := Keeps.pure refl a

/-- A step that leaves the history alone. -/
theorem of_modify {f : State → State} (h : ∀ s, (f s).ext4.registered = s.ext4.registered) :
    Keeps SameTrees (modify f : Prog PUnit) := by
  apply Keeps.modify
  intro s n
  rw [h]

/-- A store registers nothing. -/
theorem storeBytes (address : ℕ) (bytes : List UInt8) :
    Keeps SameTrees (storeBytes address bytes) := of_modify fun _ => rfl

/-- Storing a number registers nothing. -/
theorem storeLE (address w value : ℕ) : Keeps SameTrees (storeLE address w value) :=
  storeBytes _ _

/-- Reading the memory registers nothing. -/
theorem getMem : Keeps SameTrees getMem := bind (Keeps.get refl) fun _ => pure _

/-- `can_be_used` registers nothing. -/
theorem canBeUsed : Keeps SameTrees OfsConvert.canBeUsed := by
  intro s
  simp only [OfsConvert.canBeUsed, wp_bind, wp_get]
  cases s.allocator.blockedExtents[s.allocator.blockedExtentCurrent]? with
  | none => exact refl s
  | some blocked =>
    refine wp_ite (fun _ => ?_) (fun _ => ?_)
    · exact fun _ => rfl
    · simp only [wp_bind, wp_set]
      exact wp_ite (fun _ _ => rfl) (fun _ _ => rfl)

/-- Taking a cluster registers nothing. -/
theorem takeCurrent : Keeps SameTrees takeCurrent := fun _ _ => rfl

/-- The allocator registers nothing. -/
theorem allocateExtent (fuel maxLength : ℕ) :
    Keeps SameTrees (allocateExtent fuel maxLength) := by
  have hfind : ∀ fuel, Keeps SameTrees (findUsable fuel) := by
    intro fuel
    induction fuel with
    | zero => exact Keeps.throw refl _
    | succ fuel ih => exact bind canBeUsed fun _ => Keeps.ite (pure _) ih
  have hgrow : ∀ fuel e, Keeps SameTrees (growExtent maxLength fuel e) := by
    intro fuel
    induction fuel with
    | zero => exact fun _ => Keeps.throw refl _
    | succ fuel ih =>
      intro e
      refine Keeps.ite (bind canBeUsed fun _ => Keeps.ite ?_ (pure _)) (pure _)
      exact bind takeCurrent fun _ => ih _
  exact bind (hfind fuel) fun _ => bind takeCurrent fun _ => hgrow _ _

/-- Reading a descriptor registers nothing. -/
theorem getGroupDesc (i : ℕ) : Keeps SameTrees (getGroupDesc i) := by
  refine bind (Keeps.get refl) fun s => ?_
  cases s.ext4.groupDescs[i]? with
  | none => exact Keeps.throw refl _
  | some bg => exact pure bg

/-- `get_existing_inode` registers nothing. -/
theorem getExistingInode (g : Globals) (n : ℕ) : Keeps SameTrees (getExistingInode g n) :=
  bind (getGroupDesc _) fun _ => pure _

/-- `bitmap_set_bits` registers nothing. -/
theorem bitmapSetBits (bitmap first last : ℕ) :
    Keeps SameTrees (bitmapSetBits bitmap first last) := by
  have hword : ∀ address w mask, Keeps SameTrees (orWord address w mask) :=
    fun _ _ _ => of_modify fun _ => rfl
  have hsegments : ∀ count ptr, Keeps SameTrees (fillSegments count ptr) := by
    intro count
    induction count with
    | zero => exact fun _ => pure _
    | succ count ih => exact fun ptr => bind (storeLE _ _ _) fun _ => ih _
  refine Keeps.ite (bind (hword _ _ _) fun _ => bind (hsegments _ _) fun _ => hword _ _ _) ?_
  exact Keeps.ite (hword _ _ _) (pure _)

/-- `add_extent_to_block_bitmap` registers nothing. -/
theorem addExtentToBlockBitmap (g : Globals) (first last : ℕ) :
    Keeps SameTrees (addExtentToBlockBitmap g first last) :=
  bind (getGroupDesc _) fun _ => bind (bitmapSetBits _ _ _) fun _ => of_modify fun _ => rfl

/-- The range of a node is not in a tree. -/
theorem registerIdxExtent (g : Globals) (fext : FatExtent) (n : ℕ) :
    Keeps SameTrees (registerIdxExtent g fext n) := by
  refine bind (getExistingInode g n) fun inode => bind getMem fun _ => bind (storeLE _ _ _) fun _ =>
    bind (storeLE _ _ _) fun _ => bind (Keeps.modify fun s k => ?_) fun _ =>
      addExtentToBlockBitmap _ _ _
  simp [inTreeOf]

/-- `append_in_block` registers nothing. -/
theorem appendInBlock (header : ℕ) (e : Ext4Extent) : Keeps SameTrees (appendInBlock header e) :=
  bind getMem fun _ => Keeps.ite (pure _) <| bind (storeBytes _ _) fun _ => bind getMem fun _ =>
    bind (storeLE _ _ _) fun _ => pure _

/-- The loop of `append_to_new_idx_path` registers nothing. -/
theorem newIdxPath (g : Globals) (depth : ℕ) (e : Ext4Extent) (n fuel i idx : ℕ) :
    Keeps SameTrees (newIdxPath g depth e n fuel i idx) := by
  induction fuel generalizing i idx with
  | zero => exact Keeps.throw refl _
  | succ fuel ih =>
    refine Keeps.ite (bind (allocateExtent _ _) fun _ => bind (registerIdxExtent _ _ _) fun _ => ?_)
      (pure _)
    exact bind (storeBytes _ _) fun _ => bind (storeLE _ _ _) fun _ => bind (storeLE _ _ _) fun _ =>
      bind (storeLE _ _ _) fun _ => ih _ _

/-- `append_to_extent_tree` registers nothing of its own. -/
theorem appendToExtentTree (g : Globals) (e : Ext4Extent) (n fuel header : ℕ) :
    Keeps SameTrees (appendToExtentTree g e n fuel header) := by
  induction fuel generalizing header with
  | zero => exact Keeps.throw refl _
  | succ fuel ih =>
    refine bind getMem fun _ => Keeps.ite (appendInBlock _ _) (bind (ih _) fun _ => ?_)
    refine Keeps.ite (pure _) (bind getMem fun _ => Keeps.ite (bind ?_ fun _ => pure _) (pure _))
    exact bind (newIdxPath _ _ _ _ _ _ _) fun _ => storeBytes _ _

/-- `add_extent` registers nothing of its own. -/
theorem addExtent (g : Globals) (fuel : ℕ) (e : Ext4Extent) (n inode : ℕ) :
    Keeps SameTrees (addExtent g fuel e n inode) := by
  refine bind (appendToExtentTree _ _ _ _ _) fun _ => Keeps.ite (pure _) (bind ?_ fun _ =>
    bind (appendToExtentTree _ _ _ _ _) fun _ => pure _)
  refine bind (allocateExtent _ _) fun _ => bind (registerIdxExtent _ _ _) fun _ => ?_
  exact bind (of_modify fun _ => rfl) fun _ => bind (storeLE _ _ _) fun _ => bind getMem fun _ =>
    bind (storeLE _ _ _) fun _ => bind (storeLE _ _ _) fun _ => bind (storeLE _ _ _) fun _ =>
      bind (storeLE _ _ _) fun _ => storeLE _ _ _

/-- `set_size` registers nothing. -/
theorem setSize (g : Globals) (n size : ℕ) : Keeps SameTrees (setSize g n size) :=
  bind (getExistingInode _ _) fun _ => bind (storeLE _ _ _) fun _ => storeLE _ _ _

/-- `get_size` registers nothing. -/
theorem getSize (g : Globals) (n : ℕ) : Keeps SameTrees (getSize g n) :=
  bind (getExistingInode _ _) fun _ => bind getMem fun _ => pure _

/-- `build_lost_found_inode` registers nothing. -/
theorem buildLostFoundInode (g : Globals) (env : Env) :
    Keeps SameTrees (buildLostFoundInode g env) :=
  bind (getGroupDesc _) fun _ => bind (storeBytes _ _) fun _ => of_modify fun _ => rfl

/-- `build_dot_dirs` registers nothing. -/
theorem buildDotDirs (env : Env) (d parent p : ℕ) :
    Keeps SameTrees (buildDotDirs env d parent p) :=
  bind (storeBytes _ _) fun _ => bind (storeBytes _ _) fun _ => pure _

end SameTrees

/-- `register_extent` adds one range to the trees, that of its inode. -/
theorem registerExtent_logs (g : Globals) (fuel : ℕ) (fext : FatExtent) (n : ℕ) (s : State) :
    wp (registerExtent g fuel fext n)
      (fun _ t => ∀ k, inTreeOf t.ext4.registered k = inTreeOf s.ext4.registered k ++
        if n = k then [registrationOf (toExt4Extent g fext) n true] else [])
      (fun _ t => SameTrees s t ∨ ∀ k, inTreeOf t.ext4.registered k =
        inTreeOf s.ext4.registered k ++
          if n = k then [registrationOf (toExt4Extent g fext) n true] else []) s := by
  simp only [registerExtent, accountExtent, wp_bind, wp_getMem, wp_storeLE, wp_modify]
  refine wp_mono (SameTrees.getExistingInode g n s) ?_ (fun _ _ h => Or.inl h)
  intro inode u hu
  refine wp_mono (SameTrees.addExtent g fuel _ n inode u) ?_ (fun _ _ h => Or.inl (hu.trans h))
  intro _ v hv
  have hadded : ∀ t w : State, SameTrees v w → SameTrees { w with ext4 := { w.ext4 with
      registered := w.ext4.registered ++ [registrationOf (toExt4Extent g fext) n true] } } t →
      ∀ k, inTreeOf t.ext4.registered k = inTreeOf s.ext4.registered k ++
        if n = k then [registrationOf (toExt4Extent g fext) n true] else [] := by
    intro t w hw ht k
    rw [ht k, ← hu k, ← hv k, ← hw k]
    by_cases hk : n = k
    · simp [inTreeOf, registrationOf, hk]
    · simp [inTreeOf, registrationOf, hk]
  refine wp_mono (SameTrees.addExtentToBlockBitmap g _ _ _) ?_ ?_
  · exact fun _ t ht => hadded t _ (SameTrees.refl v) ht
  · exact fun _ t ht => Or.inr (hadded t _ (SameTrees.refl v) ht)

/-- The trees that the history shows are only added to. -/
def TreesGrow (s t : State) : Prop :=
  ∀ n, inTreeOf s.ext4.registered n <+: inTreeOf t.ext4.registered n

namespace TreesGrow

/-- A step that does nothing adds nothing to the trees. -/
theorem refl (s : State) : TreesGrow s s := fun _ => List.prefix_rfl

/-- Additions to the trees compose. -/
theorem trans {s t u : State} (h : TreesGrow s t) (h' : TreesGrow t u) : TreesGrow s u :=
  fun n => (h n).trans (h' n)

/-- What registers nothing adds nothing to the trees. -/
theorem of_sameTrees {s t : State} (h : SameTrees s t) : TreesGrow s t := by
  intro n
  rw [h n]

/-- A part that registers nothing only adds to the trees. -/
theorem of_keeps {α : Type} {x : Prog α} (hx : Keeps SameTrees x) : Keeps TreesGrow x :=
  fun s => wp_mono (hx s) (fun _ _ h => of_sameTrees h) fun _ _ h => of_sameTrees h

/-- A sequence only adds to the trees if its parts do. -/
theorem bind {α β : Type} {x : Prog α} {f : α → Prog β} (hx : Keeps TreesGrow x)
    (hf : ∀ a, Keeps TreesGrow (f a)) : Keeps TreesGrow (x >>= f) :=
  Keeps.bind (fun h h' => h.trans h') hx hf

/-- Returning adds nothing to the trees. -/
theorem pure {α : Type} (a : α) : Keeps TreesGrow (pure a : Prog α) := Keeps.pure refl a

/-- `register_extent` only adds to the trees. -/
theorem registerExtent (g : Globals) (fuel : ℕ) (fext : FatExtent) (n : ℕ) :
    Keeps TreesGrow (registerExtent g fuel fext n) := by
  intro s
  have hlogs : ∀ t : State, (∀ k, inTreeOf t.ext4.registered k = inTreeOf s.ext4.registered k ++
      if n = k then [registrationOf (toExt4Extent g fext) n true] else []) → TreesGrow s t := by
    intro t ht k
    rw [ht k]
    exact List.prefix_append _ _
  refine wp_mono (registerExtent_logs g fuel fext n s) (fun _ t ht => hlogs t ht) ?_
  rintro _ t (ht | ht)
  · exact of_sameTrees ht
  · exact hlogs t ht

end TreesGrow

namespace SameTrees

/-- A null check registers nothing. -/
theorem notNull (p : ℕ) : Keeps SameTrees (notNull p) := Keeps.ite (Keeps.throw refl _) (pure _)

/-- A part that changes nothing registers nothing. -/
theorem of_frame {α : Type} {x : Prog α}
    (h : ∀ s, wp x (fun _ t => t = s) (fun _ t => t = s) s) : Keeps SameTrees x := by
  intro s
  refine wp_mono (h s) ?_ ?_
  · rintro _ t rfl
    exact refl t
  · rintro _ t rfl
    exact refl t

/-- `getNext` registers nothing. -/
theorem getNext (g : Globals) (size : ℕ) (r : StreamArchiver) : Keeps SameTrees (getNext g size r) :=
  of_frame (getNext_frame g size r)

/-- The iterator registers nothing. -/
theorem nextClusterNo (g : Globals) (fuel : ℕ) (it : ExtentIterator) :
    Keeps SameTrees (nextClusterNo g fuel it) := of_frame (nextClusterNo_frame g fuel it)

/-- Reading from the stream registers nothing. -/
theorem readNext (g : Globals) (dirInodeNo size : ℕ) (r : StreamArchiver) :
    Keeps SameTrees (readNext g dirInodeNo size r) :=
  bind (getNext _ _ _) fun _ => bind (of_modify fun _ => rfl) fun _ => pure _

/-- Skipping a segment registers nothing. -/
theorem skipSegment (g : Globals) (dirInodeNo size fuel : ℕ) (r : StreamArchiver) :
    Keeps SameTrees (skipSegment g dirInodeNo size fuel r) := by
  induction fuel generalizing r with
  | zero => exact Keeps.throw refl _
  | succ fuel ih => exact bind (readNext _ _ _ _) fun x => Keeps.ite (ih _) (pure _)

/-- `build_dentry` registers nothing. -/
theorem buildDentry (g : Globals) (dirInodeNo fuel : ℕ) (fresh : Ext4Dentry) (inodeNumber : ℕ)
    (r : StreamArchiver) : Keeps SameTrees (buildDentry g dirInodeNo fuel fresh inodeNumber r) := by
  have happend : ∀ fuel d r, Keeps SameTrees (appendSegments g dirInodeNo fuel d r) := by
    intro fuel
    induction fuel with
    | zero => exact fun _ _ => Keeps.throw refl _
    | succ fuel ih =>
      exact fun d r => bind (readNext _ _ _ _) fun x => Keeps.ite (bind getMem fun _ => ih _ _) (pure _)
  exact bind (happend _ _ _) fun _ => pure _

/-- `build_inode` registers nothing. -/
theorem buildInode (g : Globals) (env : Env) (dentry : ℕ) :
    Keeps SameTrees (buildInode g env dentry) := by
  have haddInode : ∀ inode isDirectory n, Keeps SameTrees (addInode g inode isDirectory n) := by
    intro inode isDirectory n
    refine Keeps.ite (Keeps.throw refl _) (bind (getGroupDesc _) fun bg => ?_)
    exact bind (of_modify fun _ => rfl) fun _ => bind (storeBytes _ _) fun _ => of_modify fun _ => rfl
  exact bind (notNull _) fun _ => bind getMem fun _ => bind (Keeps.get refl) fun _ =>
    bind (haddInode _ _ _) fun _ => bind (of_modify fun _ => rfl) fun _ => pure _

/-- `incr_links_count` registers nothing. -/
theorem incrLinksCount (g : Globals) (n : ℕ) : Keeps SameTrees (incrLinksCount g n) :=
  bind (getExistingInode _ _) fun _ => bind getMem fun _ => storeLE _ _ _

/-- Going to the next block of a directory registers nothing. -/
theorem nextDirBlock (g : Globals) (fuel : ℕ) (it : ExtentIterator) :
    Keeps SameTrees (nextDirBlock g fuel it) := by
  refine bind (nextClusterNo _ _ _) fun x => bind ?_ fun _ => pure _
  exact Keeps.ite (bind (allocateExtent _ _) fun _ => pure _) (pure _)

/-- Stretching the last entry registers nothing. -/
theorem stretchDentry (g : Globals) (previousDentry positionInBlock : ℕ) :
    Keeps SameTrees (stretchDentry g previousDentry positionInBlock) :=
  bind getMem fun _ => storeLE _ _ _

end SameTrees

namespace TreesGrow

/-- Registering the extents of a file only adds to its tree. -/
theorem registerExtents (g : Globals) (dirInodeNo inodeNumber fuel : ℕ) (r : StreamArchiver) :
    Keeps TreesGrow (registerExtents g dirInodeNo inodeNumber fuel r) := by
  induction fuel generalizing r with
  | zero => exact Keeps.throw refl _
  | succ fuel ih =>
    refine bind (of_keeps (SameTrees.readNext _ _ _ _)) fun x => Keeps.ite ?_ (pure _)
    exact bind (of_keeps SameTrees.getMem) fun _ => bind (registerExtent _ _ _ _) fun _ => ih _

/-- `set_extents` only adds to the trees. -/
theorem setExtents (g : Globals) (dirInodeNo fuel inodeNumber dentry : ℕ) (r : StreamArchiver) :
    Keeps TreesGrow (setExtents g dirInodeNo fuel inodeNumber dentry r) :=
  bind (of_keeps SameTrees.getMem) fun _ => bind (of_keeps (SameTrees.setSize _ _ _)) fun _ =>
    registerExtents _ _ _ _ _

/-- Registering a block of a directory only adds to its tree. -/
theorem registerDirExtent (g : Globals) (fuel blockNo logicalNo inodeNo : ℕ) :
    Keeps TreesGrow (registerDirExtent g fuel blockNo logicalNo inodeNo) := registerExtent _ _ _ _

/-- Going to the next block, where it is needed, only adds to the trees. -/
theorem nextBlockIfFull (g : Globals) (dirInodeNo fuel recLen : ℕ) (d : DirState) :
    Keeps TreesGrow (nextBlockIfFull g dirInodeNo fuel recLen d) := by
  refine Keeps.ite (bind (of_keeps (SameTrees.stretchDentry _ _ _)) fun _ => ?_) (pure _)
  exact bind (registerDirExtent _ _ _ _ _) fun _ =>
    bind (of_keeps (SameTrees.nextDirBlock _ _ _)) fun _ => pure _

/-- A child only adds to the trees if the descent does. -/
theorem buildChild (g : Globals) (env : Env)
    {descend : ℕ → ℕ → StreamArchiver → Prog StreamArchiver}
    (hdescend : ∀ n d r, Keeps TreesGrow (descend n d r)) (dirInodeNo fuel i : ℕ) (d : DirState) :
    Keeps TreesGrow (buildChild g env descend dirInodeNo fuel i d) := by
  refine bind (of_keeps (SameTrees.readNext _ _ _ _)) fun _ =>
    bind (of_keeps (SameTrees.readNext _ _ _ _)) fun _ =>
    bind (of_keeps (SameTrees.buildInode _ _ _)) fun _ =>
    bind (of_keeps (SameTrees.buildDentry _ _ _ _ _ _)) fun _ =>
    bind (nextBlockIfFull _ _ _ _ _) fun _ =>
    bind (of_keeps (SameTrees.storeBytes _ _)) fun _ =>
    bind (of_keeps SameTrees.getMem) fun _ => bind (Keeps.ite ?_ ?_) fun _ => pure _
  · exact bind (of_keeps (SameTrees.incrLinksCount _ _)) fun _ => hdescend _ _ _
  · exact bind (setExtents _ _ _ _ _ _) fun _ => of_keeps (SameTrees.skipSegment _ _ _ _ _)

/-- The children only add to the trees if the descent does. -/
theorem buildChildren (g : Globals) (env : Env)
    {descend : ℕ → ℕ → StreamArchiver → Prog StreamArchiver}
    (hdescend : ∀ n d r, Keeps TreesGrow (descend n d r)) (dirInodeNo fuel count i : ℕ)
    (d : DirState) : Keeps TreesGrow (buildChildren g env descend dirInodeNo fuel count i d) := by
  induction count generalizing i d with
  | zero => exact pure _
  | succ count ih => exact bind (buildChild g env hdescend _ _ _ _) fun _ => ih _ _

/-- Building the metadata tree only adds to the trees. -/
theorem buildExt4MetadataTree (g : Globals) (env : Env) (fuel dirInodeNo parentInodeNo : ℕ)
    (r : StreamArchiver) :
    Keeps TreesGrow (buildExt4MetadataTree g env fuel dirInodeNo parentInodeNo r) := by
  induction fuel generalizing dirInodeNo parentInodeNo r with
  | zero => exact Keeps.throw refl _
  | succ fuel ih =>
    have hlast : ∀ d : DirState, Keeps TreesGrow (do
        OfsConvert.registerDirExtent g fuel d.dentryBlockNo (sub32 d.blockCount 1) dirInodeNo
        setSize g dirInodeNo (u32 (d.blockCount * blockSize g.sb))
        Pure.pure d.readStream) := fun d =>
      bind (registerDirExtent _ _ _ _ _) fun _ =>
        bind (of_keeps (SameTrees.setSize _ _ _)) fun _ => pure _
    refine bind (of_keeps (SameTrees.bind (SameTrees.getNext _ _ _) fun _ => SameTrees.pure _))
      fun _ => bind (of_keeps (SameTrees.nextDirBlock _ _ _)) fun _ =>
      bind (of_keeps (SameTrees.skipSegment _ _ _ _ _)) fun _ =>
      bind (of_keeps (SameTrees.readNext _ _ _ _)) fun _ =>
      bind (of_keeps (SameTrees.notNull _)) fun _ => bind (of_keeps SameTrees.getMem) fun _ =>
      bind (of_keeps (SameTrees.readNext _ _ _ _)) fun _ =>
      bind (of_keeps (SameTrees.buildDotDirs _ _ _ _)) fun _ =>
      bind (buildChildren g env ih _ _ _ _ _) fun d =>
        Keeps.ite (bind (of_keeps (SameTrees.stretchDentry _ _ _)) fun _ => hlast d) (hlast d)

end TreesGrow

end OfsConvert
