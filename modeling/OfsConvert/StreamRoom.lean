import OfsConvert.Fragments

/-!
# The room of the write stream

Everything that the reading phase records takes room in the write stream, and a new page takes
steps of the allocator's cursor. `streamRoom` counts both; it bounds how long the loops over
chains can go on, whatever the FAT holds.
-/

namespace OfsConvert

/-- The elements that the write stream has room for at most. -/
def streamRoom (g : Globals) (w : StreamArchiver) (s : State) : ℕ :=
  cursorRoom s * (pageSize g + 1) + (pageSize g - w.offsetInPage)

/-- At least `n` elements have been recorded. -/
structure Spends (g : Globals) (w : StreamArchiver) (s : State) (n : ℕ) (w' : StreamArchiver)
    (t : State) : Prop where
  starts : StartsBounded t
  same : SameBlocked s t
  room : streamRoom g w' t + n ≤ streamRoom g w s

section

variable {g : Globals} {w w' w'' : StreamArchiver} {s t u : State} {n k : ℕ}

/-- Nothing is recorded by no step. -/
theorem Spends.refl (g : Globals) (w : StreamArchiver) (h : StartsBounded s) :
    Spends g w s 0 w s := ⟨h, SameBlocked.refl s, le_rfl⟩

/-- What two steps record adds up. -/
theorem Spends.trans (h : Spends g w s n w' t) (h' : Spends g w' t k w'' u) :
    Spends g w s (n + k) w'' u := by
  have hroom := h.room
  have hroom' := h'.room
  exact ⟨h'.starts, h.same.trans h'.same, by omega⟩

/-- At least `n` elements are at least fewer. -/
theorem Spends.mono (h : Spends g w s n w' t) (hle : k ≤ n) : Spends g w s k w' t :=
  ⟨h.starts, h.same, (Nat.add_le_add_left hle _).trans h.room⟩

/-- The cursor does not get more room. -/
theorem Spends.cursorRoom_le (h : Spends g w s n w' t) : cursorRoom t ≤ cursorRoom s := by
  have hroom := h.room
  unfold streamRoom at hroom
  by_contra hmore
  have hpage := Nat.mul_le_mul_right (pageSize g + 1) (Nat.succ_le_of_lt (Nat.lt_of_not_le hmore))
  rw [Nat.succ_mul] at hpage
  omega

/-- Stores take no room. -/
theorem Spends.stored (h : Spends g w s n w' t) (a l : ℕ) (m : Mem) :
    Spends g w s n w' (t.stored a l m) := ⟨h.starts, ⟨h.same.extents, h.same.count⟩, h.room⟩

end

section

variable {g : Globals} {s : State} (h : StartsBounded s)
include h

end

end OfsConvert
