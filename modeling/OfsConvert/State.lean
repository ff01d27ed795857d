import OfsConvert.Ext4
import OfsConvert.Lib.Program

/-!
# The state of a conversion

The mapped partition is a memory. The globals that change during a run are fields of the
state; the boot sector, the derived geometry and the super block are fixed once they are
computed and are passed as `Globals`. Some fields record history and are read by no operation:
every store with the memory it left, every range that reaches the block bitmap and every element
that the second phase reads from the stream.
-/

namespace OfsConvert

/-- The globals `boot_sector`, `meta_info` and `sb`. -/
structure Globals where
  bootSector : BootSector
  metaInfo : MetaInfo
  sb : Ext4SuperBlock

/-- A store to the mapped partition: where it falls and the memory after it. -/
structure Store where
  address : ℕ
  length : ℕ
  after : Mem

/-- `struct extent_allocator`; `blockedExtents` holds `blockedExtentCount` extents and the end
sentinel, `blockedExtentCurrent` is the index that the pointer stands for. -/
structure ExtentAllocator where
  indexInFat : ℕ := 0
  blockedExtents : List FatExtent := []
  blockedExtentCount : ℕ := 0
  blockedExtentCurrent : ℕ := 0

/-- `struct ext4_group_desc`, the fields that the conversion reads or writes. -/
structure Ext4GroupDesc where
  bgBlockBitmapLo : ℕ := 0
  bgBlockBitmapHi : ℕ := 0
  bgInodeBitmapLo : ℕ := 0
  bgInodeBitmapHi : ℕ := 0
  bgInodeTableLo : ℕ := 0
  bgInodeTableHi : ℕ := 0
  bgFreeBlocksCountLo : ℕ := 0
  bgFreeBlocksCountHi : ℕ := 0
  bgFreeInodesCountLo : ℕ := 0
  bgFreeInodesCountHi : ℕ := 0
  bgUsedDirsCountLo : ℕ := 0
  bgUsedDirsCountHi : ℕ := 0
  deriving DecidableEq, Repr, Inhabited

/-- A range that reaches `add_extent_to_block_bitmap`: the inode it is registered for, its first
logical block, its blocks and whether it goes into the extent tree or is a node of it. -/
structure Registration where
  inodeNo : ℕ
  logicalBlock : ℕ
  blocksBegin : ℕ
  blocksEnd : ℕ
  inTree : Bool
  deriving DecidableEq, Repr

/-- What a call on the read stream returns: an element, or none at the end of a segment; with the
directory that is being built. -/
structure StreamRead where
  dirInodeNo : ℕ
  element : Option (List UInt8)
  deriving DecidableEq, Repr

/-- What only the second phase changes: `group_descs`, `first_free_inode_no` and the history. -/
structure Ext4State where
  groupDescs : List Ext4GroupDesc := []
  firstFreeInodeNo : ℕ := ext4FirstNonRsvInode + 1
  registered : List Registration := []
  reads : List StreamRead := []
  deriving DecidableEq

/-- The state threaded through a run. Bit `c` of `allocationBitmap` is bit `c % 8` of byte
`c / 8` of the array that `create_allocation_bitmap` allocates. -/
structure State where
  mem : Mem
  stores : List Store := []
  allocator : ExtentAllocator := {}
  allocationBitmap : ℕ := 0
  ext4 : Ext4State := {}

/-- A program of the conversion. -/
abbrev Prog := EStateM Halt State

namespace State

/-- Replace the memory by one that differs on `length` bytes from `address`. -/
def stored (s : State) (address length : ℕ) (m : Mem) : State :=
  { s with mem := m, stores := ⟨address, length, m⟩ :: s.stores }

/-- The memory behind a store is the new one. -/
@[simp] theorem stored_mem (s : State) (a n : ℕ) (m : Mem) : (s.stored a n m).mem = m := rfl

/-- A store is added to the list of stores. -/
@[simp] theorem stored_stores (s : State) (a n : ℕ) (m : Mem) :
    (s.stored a n m).stores = ⟨a, n, m⟩ :: s.stores := rfl

/-- A store leaves the allocator. -/
@[simp] theorem stored_allocator (s : State) (a n : ℕ) (m : Mem) :
    (s.stored a n m).allocator = s.allocator := rfl

/-- A store leaves the bitmap of the allocator. -/
@[simp] theorem stored_allocationBitmap (s : State) (a n : ℕ) (m : Mem) :
    (s.stored a n m).allocationBitmap = s.allocationBitmap := rfl

/-- A store leaves the records of the file system. -/
@[simp] theorem stored_ext4 (s : State) (a n : ℕ) (m : Mem) : (s.stored a n m).ext4 = s.ext4 := rfl

end State

/-- The current memory. -/
def getMem : Prog Mem := do
  let s ← get
  pure s.mem

/-- Store bytes. -/
def storeBytes (address : ℕ) (bytes : List UInt8) : Prog Unit :=
  modify fun s => s.stored address bytes.length (s.mem.write address bytes)

/-- Store a `w`-byte integer. -/
def storeLE (address w value : ℕ) : Prog Unit := storeBytes address (leBytes w value)

/-- `memcpy`. -/
def memcpy (dst src n : ℕ) : Prog Unit :=
  modify fun s => s.stored dst n (s.mem.copy dst src n)

/-- `memset`. -/
def memset (address : ℕ) (value : UInt8) (n : ℕ) : Prog Unit :=
  modify fun s => s.stored address n (s.mem.fill address n value)

/-- An access through a pointer that may be null. -/
def notNull (p : ℕ) : Prog Unit := if p = 0 then throw .fault else pure ()

/-- The run stopped for another reason than an access through a null pointer. -/
def NoFault (cause : Halt) (_ : State) : Prop := cause ≠ .fault

/-- Continue with a computed value, or stop with its cause. -/
def liftExcept {α : Type} (x : Except Halt α) : Prog α :=
  match x with
  | .ok a => pure a
  | .error e => throw e

section Rules

variable {α : Type} (Q : α → State → Prop) (QU : Unit → State → Prop) (QM : Mem → State → Prop)
  (E : Halt → State → Prop) (s : State)

/-- The memory is read. -/
@[simp] theorem wp_getMem : wp getMem QM E s ↔ QM s.mem s := Iff.rfl

/-- Storing bytes is one store. -/
@[simp] theorem wp_storeBytes (a : ℕ) (bs : List UInt8) :
    wp (storeBytes a bs) QU E s ↔ QU () (s.stored a bs.length (s.mem.write a bs)) := Iff.rfl

/-- Storing a number is one store. -/
@[simp] theorem wp_storeLE (a w v : ℕ) :
    wp (storeLE a w v) QU E s ↔ QU () (s.stored a w (s.mem.write a (leBytes w v))) := by
  rw [storeLE, wp_storeBytes, length_leBytes]

/-- Copying is one store. -/
@[simp] theorem wp_memcpy (dst src n : ℕ) :
    wp (memcpy dst src n) QU E s ↔ QU () (s.stored dst n (s.mem.copy dst src n)) := Iff.rfl

/-- Filling is one store. -/
@[simp] theorem wp_memset (a : ℕ) (v : UInt8) (n : ℕ) :
    wp (memset a v n) QU E s ↔ QU () (s.stored a n (s.mem.fill a n v)) := Iff.rfl

/-- A null pointer stops the run. -/
@[simp] theorem wp_notNull (p : ℕ) :
    wp (notNull p) QU E s ↔ (p = 0 → E .fault s) ∧ (p ≠ 0 → QU () s) := by
  unfold notNull
  split <;> simp [*]

/-- A result without an error is returned. -/
@[simp] theorem wp_liftExcept_ok (a : α) : wp (liftExcept (.ok a)) Q E s ↔ Q a s := Iff.rfl

/-- An error stops the run. -/
@[simp] theorem wp_liftExcept_error (e : Halt) :
    wp (liftExcept (.error e : Except Halt α)) Q E s ↔ E e s := Iff.rfl

end Rules

end OfsConvert
