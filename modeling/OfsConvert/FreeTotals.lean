import OfsConvert.GroupLayout
import Mathlib.Algebra.BigOperators.Group.List.Basic
import Mathlib.Algebra.Order.BigOperators.Group.List

/-!
# The free counts of the super block

The loop of `finalize_block_groups_on_disk`. Its counter has 16 bits, and the `from_lo_hi` that
`ext4_bg.cpp` sees joins the halves 32 bits apart, so the high half of a 16-bit pair is counted
at 2³² instead of 2¹⁶: the inode total loses it and the block total is too large by it.
-/

namespace OfsConvert

/-- The free inode count that the two halves of a descriptor stand for. -/
def Ext4GroupDesc.freeInodes (d : Ext4GroupDesc) : ℕ :=
  fromLoHi16 d.bgFreeInodesCountLo d.bgFreeInodesCountHi

/-- The free block count that the two halves of a descriptor stand for. -/
def Ext4GroupDesc.freeBlocks (d : Ext4GroupDesc) : ℕ :=
  fromLoHi16 d.bgFreeBlocksCountLo d.bgFreeBlocksCountHi

/-- The counter halves fit their 16-bit fields. -/
structure Ext4GroupDesc.Typed (d : Ext4GroupDesc) : Prop where
  freeInodesLo : d.bgFreeInodesCountLo < 2 ^ 16
  freeInodesHi : d.bgFreeInodesCountHi < 2 ^ 16
  freeBlocksLo : d.bgFreeBlocksCountLo < 2 ^ 16
  freeBlocksHi : d.bgFreeBlocksCountHi < 2 ^ 16

/-- The body of the loop: add the counts of one group. -/
def addFreeCounts (sb : Ext4SuperBlock) (bg : Ext4GroupDesc) : Ext4SuperBlock :=
  let blocks := incrLoHi64 sb.sFreeBlocksCountLo sb.sFreeBlocksCountHi
    (fromLoHi bg.bgFreeBlocksCountLo bg.bgFreeBlocksCountHi)
  { sb with
    sFreeInodesCount := u32 (u64 (sb.sFreeInodesCount +
      fromLoHi bg.bgFreeInodesCountLo bg.bgFreeInodesCountHi))
    sFreeBlocksCountLo := blocks.1
    sFreeBlocksCountHi := blocks.2 }

/-- The loop with its `uint16_t` counter; the list records the groups visited. -/
def freeCountsLoop (groupDescs : List Ext4GroupDesc) (bgCount : ℕ) :
    ℕ → ℕ → Ext4SuperBlock → List ℕ → Option (Ext4SuperBlock × List ℕ)
  | 0, _, _, _ => none
  | fuel + 1, i, sb, visited =>
    if i < bgCount then
      freeCountsLoop groupDescs bgCount fuel (u16 (i + 1))
        (addFreeCounts sb (groupDescs.getD i default)) (visited ++ [i])
    else some (sb, visited)

/-- `finalize_block_groups_on_disk` up to the copies it writes; `none` when the fuel runs out. -/
def finalizeFreeCounts (groupDescs : List Ext4GroupDesc) (fuel : ℕ) (sb : Ext4SuperBlock) :
    Option (Ext4SuperBlock × List ℕ) :=
  freeCountsLoop groupDescs (blockGroupCount sb) fuel 0 sb []

/-- With at most 65535 groups the loop visits the remaining ones in order and returns, given one
unit of fuel for each and one to stop. -/
theorem freeCountsLoop_eq (before rest : List Ext4GroupDesc)
    (hcount : (before ++ rest).length < 2 ^ 16) (fuel : ℕ) (sb : Ext4SuperBlock)
    (visited : List ℕ) :
    freeCountsLoop (before ++ rest) (before ++ rest).length fuel before.length sb visited =
      if rest.length < fuel then
        some (rest.foldl addFreeCounts sb, visited ++ List.range' before.length rest.length)
      else none := by
  induction rest generalizing before fuel sb visited with
  | nil =>
    cases fuel with
    | zero => rfl
    | succ fuel => simp [freeCountsLoop]
  | cons d rest ih =>
    cases fuel with
    | zero => rfl
    | succ fuel =>
      have hlen : before.length + 1 < 2 ^ 16 := by simp at hcount; omega
      have hnext := ih (before ++ [d]) (by simpa using hcount) fuel (addFreeCounts sb d)
        (visited ++ [before.length])
      rw [freeCountsLoop, if_pos (by simp), u16_of_lt hlen]
      simp only [List.append_assoc, List.singleton_append, List.length_append, List.length_cons,
        List.length_nil, Nat.zero_add] at hnext ⊢
      rw [List.getD_append_right _ _ _ _ le_rfl, Nat.sub_self, List.getD_cons_zero, hnext]
      simp only [Nat.add_lt_add_iff_right, List.foldl_cons, List.range'_succ]

/-- The inode total keeps the low halves only. -/
theorem foldl_addFreeCounts_inodes (descs : List Ext4GroupDesc) (sb : Ext4SuperBlock)
    (htyped : ∀ d ∈ descs, d.Typed) (hsb : sb.sFreeInodesCount < 2 ^ 32) :
    (descs.foldl addFreeCounts sb).sFreeInodesCount =
      u32 (sb.sFreeInodesCount + (descs.map fun d => d.bgFreeInodesCountLo).sum) := by
  induction descs generalizing sb with
  | nil => simp [u32_of_lt hsb]
  | cons d rest ih =>
    have hd := htyped d (by simp)
    have hlo := hd.freeInodesLo
    rw [List.foldl_cons, ih _ (fun e he => htyped e (by simp [he])) (u32_lt _), addFreeCounts]
    simp only [List.map_cons, List.sum_cons]
    rw [fromLoHi_eq (by omega)]
    unfold u32 u64
    omega

/-- The block total joins the halves as if they had 32 bits. -/
theorem foldl_addFreeCounts_blocks (descs : List Ext4GroupDesc) (sb : Ext4SuperBlock)
    (hlo : sb.sFreeBlocksCountLo < 2 ^ 32) (hhi : sb.sFreeBlocksCountHi < 2 ^ 32) :
    fromLoHi (descs.foldl addFreeCounts sb).sFreeBlocksCountLo
        (descs.foldl addFreeCounts sb).sFreeBlocksCountHi =
      u64 (fromLoHi sb.sFreeBlocksCountLo sb.sFreeBlocksCountHi +
        (descs.map fun d => fromLoHi d.bgFreeBlocksCountLo d.bgFreeBlocksCountHi).sum) := by
  induction descs generalizing sb with
  | nil =>
    rw [List.foldl_nil, List.map_nil, List.sum_nil, Nat.add_zero, u64_of_lt]
    rw [fromLoHi_eq hlo]
    omega
  | cons d rest ih =>
    have hfst : (addFreeCounts sb d).sFreeBlocksCountLo < 2 ^ 32 := by
      rw [addFreeCounts]
      dsimp only
      rw [incrLoHi64, setLoHi64_fst]
      exact Nat.mod_lt _ (by norm_num)
    have hsnd : (addFreeCounts sb d).sFreeBlocksCountHi < 2 ^ 32 := by
      rw [addFreeCounts]
      dsimp only
      rw [incrLoHi64, setLoHi64_snd]
      exact Nat.mod_lt _ (by norm_num)
    rw [List.foldl_cons, ih _ hfst hsnd, addFreeCounts]
    simp only [List.map_cons, List.sum_cons, incrLoHi64]
    rw [fromLoHi_setLoHi64 (u64_lt _)]
    unfold u64
    omega

end OfsConvert
