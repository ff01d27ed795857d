import OfsConvert.Ext4Dentry
import OfsConvert.Geometry
import Mathlib.Data.List.TakeWhile

/-!
# Long names

`build_dentry` cuts each segment of a name on its own, at a limit of 254 bytes, and goes on with
the next segment behind a cut. The name is the longest prefix of at most 255 bytes exactly when no
prefix has 255 bytes and nothing behind the cut is kept.
-/

namespace OfsConvert

/-- The name that segments spell: the units in front of the first 0. -/
def spelled (segments : List (List ℕ)) : List ℕ := segments.flatten.takeWhile (· ≠ 0)

/-- The bytes of a segment. -/
def segmentBytes (segment : List ℕ) : List UInt8 := segment.flatMap (leBytes 2)

/-- A segment that starts with 0 or with a character that does not fit. -/
def Stops (room : ℕ) (segment : List ℕ) : Prop :=
  ∀ u ∈ segment.head?, u ≠ 0 → room < utf8Width u

/-- Whether a segment stops the name can be computed. -/
instance (room : ℕ) (segment : List ℕ) : Decidable (Stops room segment) :=
  inferInstanceAs (Decidable (∀ u ∈ segment.head?, u ≠ 0 → room < utf8Width u))

/-- The entry `d` has the longest prefix of `name` that fits into the name array, and only the
array was written to. -/
structure KeepsName (fresh d : Ext4Dentry) (name kept : List ℕ) : Prop where
  longest : LongestFit utf8Width ext4NameLen name kept
  nameLen : d.nameLen = (utf8 kept).length
  bytes : d.name.read 0 d.nameLen = utf8 kept
  decodes : utf8Decode (d.name.read 0 d.nameLen) = kept
  whole : (utf8 name).length ≤ ext4NameLen → kept = name
  inside : Mem.SameOutside 0 ext4NameLen fresh.name d.name

section Cut

variable {room : ℕ} {segment : List ℕ} {segments : List (List ℕ)}

/-- Nothing of a segment is kept exactly if it stops the name. -/
theorem keptUnits_eq_nil_iff : keptUnits room segment = [] ↔ Stops room segment := by
  cases segment with
  | nil => simp [keptUnits, fitting, Stops]
  | cons u us =>
    by_cases hzero : u = 0
    · rw [hzero, keptUnits_zero]
      simp [Stops]
    · rw [keptUnits_cons _ _ hzero]
      simp [Stops, hzero]

/-- Nothing is kept of segments that stop. -/
theorem keptName_eq_nil_iff : keptName room segments = [] ↔ ∀ x ∈ segments, Stops room x := by
  induction segments with
  | nil => simp [keptName]
  | cons x xs ih =>
    rw [keptName, List.append_eq_nil_iff, List.forall_mem_cons, ← keptUnits_eq_nil_iff]
    refine and_congr_right fun hnil => ?_
    rw [hnil, textWidth_nil, Nat.sub_zero]
    exact ih

/-- A segment without 0 is followed by the others. -/
theorem spelled_cons_of_ne (h : ∀ u ∈ segment, u ≠ 0) :
    spelled (segment :: segments) = segment ++ spelled segments := by
  rw [spelled, List.flatten_cons, List.takeWhile_append_of_pos (by simpa using h)]
  rfl

/-- A segment with a 0 ends the name. -/
theorem spelled_cons_of_zero (h : 0 ∈ segment) :
    spelled (segment :: segments) = segment.takeWhile (· ≠ 0) := by
  have hne : (segment.takeWhile (· ≠ 0)).length ≠ segment.length := by
    intro hlength
    have heq := (List.takeWhile_prefix (fun u : ℕ => decide (u ≠ 0))).eq_of_length hlength
    rw [← heq] at h
    simpa using List.mem_takeWhile_imp h
  rw [spelled, List.flatten_cons, List.takeWhile_append, if_neg hne]

/-- Cutting segment by segment gives the longest prefix that fits exactly when the segments behind
the cut stop. -/
theorem keptName_eq_fitting_iff (hsegments : ∀ x ∈ segments, x.length = lfnEntryLength) :
    keptName room segments = fitting utf8Width room (spelled segments) ↔
      ∀ x ∈ segments.drop
          ((fitting utf8Width room (spelled segments)).length / lfnEntryLength + 1),
        Stops (room - textWidth utf8Width (fitting utf8Width room (spelled segments))) x := by
  induction segments generalizing room with
  | nil => simp [keptName, spelled, fitting]
  | cons x xs ih =>
    have hlength := hsegments x (by simp)
    have hrest := fun y hy => hsegments y (List.mem_cons_of_mem x hy)
    -- the name is cut inside the first segment
    have hcut : fitting utf8Width room (spelled (x :: xs)) = keptUnits room x →
        (keptUnits room x).length < lfnEntryLength →
        (keptName room (x :: xs) = fitting utf8Width room (spelled (x :: xs)) ↔
          ∀ y ∈ (x :: xs).drop
              ((fitting utf8Width room (spelled (x :: xs))).length / lfnEntryLength + 1),
            Stops (room - textWidth utf8Width (fitting utf8Width room (spelled (x :: xs)))) y) := by
      intro hfirst hshort
      rw [hfirst, Nat.div_eq_of_lt hshort, Nat.zero_add, List.drop_succ_cons, List.drop_zero,
        keptName, ← keptName_eq_nil_iff]
      exact List.append_right_eq_self
    by_cases hzero : 0 ∈ x
    · apply hcut
      · rw [spelled_cons_of_zero hzero, keptUnits]
      · refine lt_of_lt_of_le ?_ hlength.le
        have hpre : fitting utf8Width room (x.takeWhile (· ≠ 0)) <+: x :=
          (fitting_isPrefix room _).trans ( List.takeWhile_prefix _)
        refine lt_of_le_of_ne hpre.length_le fun heq => ?_
        rw [← hpre.eq_of_length heq] at hzero
        have hmem := (fitting_isPrefix room (x.takeWhile (· ≠ 0))).subset hzero
        simpa using List.mem_takeWhile_imp hmem
    · have hne : ∀ u ∈ x, u ≠ 0 := fun u hu h => hzero (h ▸ hu)
      have hkept : keptUnits room x = fitting utf8Width room x := by
        rw [keptUnits, List.takeWhile_eq_self_iff.mpr (by simpa using hne)]
      by_cases hfits : textWidth utf8Width x ≤ room
      · -- the first segment fits
        have hall : keptUnits room x = x := hkept.trans (fitting_eq_self hfits)
        rw [spelled_cons_of_ne hne, fitting_append hfits, keptName, hall,
          List.append_cancel_left_eq, ih hrest, List.length_append, hlength,
          Nat.add_div_left _ (by decide), List.drop_succ_cons, textWidth_append, Nat.sub_sub]
      · apply hcut
        · rw [spelled_cons_of_ne hne, fitting_append_of_lt (Nat.lt_of_not_le hfits), hkept]
        · rw [hkept, ← hlength]
          have hpre : fitting utf8Width room x <+: x := fitting_isPrefix room x
          refine lt_of_le_of_ne hpre.length_le fun heq => hfits ?_
          rw [← hpre.eq_of_length heq]
          exact textWidth_fitting_le room x

end Cut

section Units

variable {segment : List ℕ}

/-- The bytes of a segment spell its units. -/
theorem unitsOf_segmentBytes (hlength : segment.length = lfnEntryLength)
    (hunits : ∀ u ∈ segment, u < 2 ^ 16) : unitsOf (segmentBytes segment) = segment := by
  have hget : ∀ (us : List ℕ), (∀ u ∈ us, u < 2 ^ 16) → ∀ i (hi : i < us.length),
      leNat (((segmentBytes us).drop (2 * i)).take 2) = us[i] := by
    intro us hus i hi
    induction us generalizing i with
    | nil => exact absurd hi (Nat.not_lt_zero i)
    | cons u us ih =>
      rw [segmentBytes, List.flatMap_cons, ← segmentBytes]
      cases i with
      | zero =>
        rw [Nat.mul_zero, List.drop_zero, List.take_left' (length_leBytes 2 u)]
        exact leNat_leBytes_of_lt (hus u (by simp))
      | succ i =>
        rw [Nat.mul_succ, Nat.add_comm, ← List.drop_drop, List.drop_left' (length_leBytes 2 u)]
        exact ih (fun v hv => hus v (by simp [hv])) i (by simpa using hi)
  refine List.ext_getElem (by simp [unitsOf, hlength]) fun i hi hi' => ?_
  simp only [unitsOf, List.getElem_map, List.getElem_range]
  exact hget segment hunits i hi'

end Units

/-- A prefix of exactly `limit + 1` bytes is what one byte less of room loses. -/
theorem fitting_pred_iff {limit : ℕ} {name kept : List ℕ}
    (hkept : textWidth utf8Width kept ≤ limit) :
    kept = fitting utf8Width (limit + 1) name ↔
      (∀ us, us <+: name → textWidth utf8Width us ≠ limit + 1) ∧
        kept = fitting utf8Width limit name := by
  constructor
  · intro h
    have hexact : textWidth utf8Width (fitting utf8Width (limit + 1) name) ≠ limit + 1 := by
      rw [← h]
      omega
    exact ⟨fun us hpre heq => hexact (textWidth_fitting_of_isPrefix hpre heq),
      h.trans (fitting_succ_of_ne hexact)⟩
  · intro h
    rw [fitting_succ_of_ne (h.1 _ (fitting_isPrefix _ _))]
    exact h.2

/-- The name of an entry reads back. -/
theorem read_namedDentry (fresh : Ext4Dentry) (inodeNo : ℕ) (name : List UInt8) :
    (namedDentry fresh inodeNo name).name.read 0 name.length = name := by
  have hall := Mem.read_write fresh.name 0 (name ++ [0])
  rw [List.length_append, Mem.read_add] at hall
  exact (List.append_inj hall (Mem.length_read _ _ _)).1

/-- The entry has what is kept of the name exactly when that is the longest prefix that fits. -/
theorem keepsName_namedDentry_iff (fresh : Ext4Dentry) (inodeNo : ℕ) {name kept us : List ℕ}
    (hus : ∀ u ∈ us, u < 2 ^ 16)
    (hfits : (utf8 us).length ≤ ext4NameLen - 1) :
    KeepsName fresh (namedDentry fresh inodeNo (utf8 us)) name kept ↔
      us = kept ∧ kept = fitting utf8Width ext4NameLen name := by
  have hread : (namedDentry fresh inodeNo (utf8 us)).name.read 0
      (namedDentry fresh inodeNo (utf8 us)).nameLen = utf8 us :=
    read_namedDentry fresh inodeNo (utf8 us)
  constructor
  · intro h
    refine ⟨?_, h.longest.eq_fitting⟩
    rw [← h.decodes, hread, utf8Decode_utf8 hus]
  · intro h
    obtain ⟨rfl, hkept⟩ := h
    refine ⟨?_, rfl, hread, ?_, fun hwhole => ?_, ?_⟩
    · rw [hkept]
      exact fitting_longestFit _ _
    · rw [hread, utf8Decode_utf8 hus]
    · rw [hkept]
      rw [length_utf8] at hwhole
      exact fitting_eq_self hwhole
    · refine Mem.SameOutside.mono (Mem.sameOutside_write fresh.name 0 (utf8 us ++ [0])) le_rfl ?_
      unfold ext4NameLen at *
      simp only [List.length_append, List.length_singleton]
      omega

/-- The kept code units are those of the segments. -/
theorem mem_keptName {room : ℕ} {segments : List (List ℕ)} {u : ℕ}
    (hu : u ∈ keptName room segments) : ∃ x ∈ segments, u ∈ x := by
  induction segments generalizing room with
  | nil => exact absurd hu (by simp [keptName])
  | cons x xs ih =>
    rw [keptName, List.mem_append] at hu
    cases hu with
    | inl hfirst =>
      exact ⟨x, by simp, (List.takeWhile_prefix _).subset ((fitting_isPrefix _ _).subset hfirst)⟩
    | inr hrest =>
      obtain ⟨y, hy, huy⟩ := ih hrest
      exact ⟨y, by simp [hy], huy⟩

/-- `build_dentry` builds an entry with the longest prefix of the name that has at most 255 bytes
exactly when no prefix has 255 bytes, and each segment that starts behind the longest prefix of at
most 254 bytes starts with 0 or with a character too wide for what is left of them. -/
theorem buildDentry_keepsName_iff (g : Globals) (s : State) (readStream readStream' : StreamArchiver)
    (segments : List (List ℕ))
    (hsegments : ∀ x ∈ segments, x.length = lfnEntryLength ∧ ∀ u ∈ x, u < 2 ^ 16)
    (hyields : Yields g (lfnEntryLength * 2) s.mem (segments.map segmentBytes) readStream
      readStream')
    (dirInodeNo fuel : ℕ) (hfuel : segments.length < fuel) (fresh : Ext4Dentry) (inodeNo : ℕ) :
    (∃ d t, buildDentry g dirInodeNo fuel fresh inodeNo readStream s = .ok (d, readStream') t ∧
      ∃ kept, KeepsName fresh d (spelled segments) kept) ↔
    (∀ us, us <+: spelled segments → (utf8 us).length ≠ ext4NameLen) ∧
      ∀ x ∈ segments.drop
          ((fitting utf8Width (ext4NameLen - 1) (spelled segments)).length / lfnEntryLength + 1),
        Stops (ext4NameLen - 1 -
          textWidth utf8Width (fitting utf8Width (ext4NameLen - 1) (spelled segments))) x := by
  have hunits : (segments.map segmentBytes).map unitsOf = segments := by
    rw [List.map_map]
    refine (List.map_congr_left fun x hx => ?_).trans (List.map_id segments)
    exact unitsOf_segmentBytes (hsegments x hx).1 (hsegments x hx).2
  have hbounded : ∀ x ∈ segments, ∀ u ∈ x, u < 2 ^ 16 := fun x hx => (hsegments x hx).2
  have hkeptUnits : ∀ u ∈ keptName (ext4NameLen - 1) segments, u < 2 ^ 16 := by
    intro u hu
    obtain ⟨x, hx, hux⟩ := mem_keptName hu
    exact hbounded x hx u hux
  have hfits := textWidth_keptName_le (ext4NameLen - 1) segments
  obtain ⟨x, t, hrun, -, hx⟩ := exists_ok_of_wp (buildDentry_spec (E := fun _ _ => False) (s := s)
    dirInodeNo (Or.inl (by rw [List.length_map]; exact hfuel)) fresh inodeNo hyields)
  rw [hunits] at hx
  -- the one outcome of the run
  have hone : (∃ d t, buildDentry g dirInodeNo fuel fresh inodeNo readStream s =
      .ok (d, readStream') t ∧ ∃ kept, KeepsName fresh d (spelled segments) kept) ↔
      keptName (ext4NameLen - 1) segments = fitting utf8Width ext4NameLen (spelled segments) := by
    constructor
    · rintro ⟨d, u, hrun', kept, hkept⟩
      rw [hrun, hx] at hrun'
      injection hrun' with hpair
      injection hpair with hd
      rw [← hd] at hkept
      obtain ⟨rfl, heq⟩ := (keepsName_namedDentry_iff fresh inodeNo hkeptUnits
        (by rw [length_utf8]; exact hfits)).mp hkept
      exact heq
    · intro h
      refine ⟨_, t, hx ▸ hrun, _, (keepsName_namedDentry_iff fresh inodeNo hkeptUnits
        (by rw [length_utf8]; exact hfits)).mpr ⟨rfl, h⟩⟩
  rw [hone, ← keptName_eq_fitting_iff fun x hx => (hsegments x hx).1]
  refine (fitting_pred_iff hfits).trans (and_congr_left fun _ => forall_congr' fun us => ?_)
  rw [length_utf8]
  rfl

/-- Six segments of characters with three bytes each and one with 13 bytes; the next one has room for
six of its characters, and one byte is left. The last segment starts with a character of one byte. -/
def sampleName : List (List ℕ) :=
  List.replicate 6 (List.replicate 13 0x20AC) ++ [List.replicate 13 0x61,
    List.replicate 6 0x62 ++ 0x20AC :: List.replicate 6 0x63, 0x64 :: 0 :: List.replicate 11 0xFFFF]

/-- Segments of a name on the first page of a stream on a volume of 200 blocks. -/
def nameMem (segments : List (List ℕ)) : Mem :=
  Mem.write (fun _ => 0) (clusterStart (sampleGlobals 400).metaInfo 2 + sizeofPage)
    (leBytes 8 segments.length ++ segments.flatMap segmentBytes)

/-- The stream in front of that name. -/
def nameStream : StreamArchiver where
  page := clusterStart (sampleGlobals 400).metaInfo 2
  offsetInPage := sizeofPage + sizeofHeader
  elementIndex := 0
  header := clusterStart (sampleGlobals 400).metaInfo 2 + sizeofPage

/-- A name that fits on the page is yielded. -/
theorem nameMem_yields (segments : List (List ℕ)) (hfits : segments.length < 30)
    (hsizes : ∀ e ∈ segments.map segmentBytes, e.length = lfnEntryLength * 2)
    (hcount : (nameMem segments).readLE
      (Pos.addr (sampleGlobals 400) [2] ⟨0, sizeofPage⟩) sizeofHeader = segments.length)
    (hcells : HoldsCells (sampleGlobals 400) [2] (nameMem segments) ⟨0, sizeofPage + sizeofHeader⟩
      (segments.map segmentBytes))
    (hend : ((cellsEnd (pageSize (sampleGlobals 400)) ⟨0, sizeofPage + sizeofHeader⟩
      (sizes (segments.map segmentBytes))).cell (pageSize (sampleGlobals 400)) sizeofHeader).index <
        1) :
    ∃ r', Yields (sampleGlobals 400) (lfnEntryLength * 2) (nameMem segments)
      (segments.map segmentBytes) nameStream r' := by
  have hstream : StreamAt (sampleGlobals 400) [2] (nameMem segments) := by
    refine ⟨fun c hc => ?_, fun i hi => absurd hi (by simp)⟩
    rw [List.mem_singleton.mp hc]
    exact ⟨by decide, by decide⟩
  have hreader : Reader (sampleGlobals 400) [2] ⟨0, sizeofPage⟩ ⟨0, sizeofPage + sizeofHeader⟩ 0
      nameStream := ⟨rfl, rfl, rfl, rfl⟩
  obtain ⟨r', hyields, -⟩ := hcells.yields accepted_sample_400.area hstream hreader (by decide)
    (by rw [List.length_map, Nat.zero_add]; exact hcount) (by rw [List.length_map]; omega) hsizes
    hend
  exact ⟨r', hyields⟩

/-- Eight segments with characters of one, two and three bytes: 254 bytes fit, and the eighth segment
starts with a character that is too wide for what is left. -/
def mixedSegments : List (List ℕ) :=
  ([0xE9, 0x61, 0x62, 0x63] ++ List.replicate 9 0x4E2D) ::
    List.replicate 7 (List.replicate 13 0x4E2D)

/-- The longest prefix of that name is kept. -/
theorem buildDentry_keepsName_sample :
    ∃ r' d t, buildDentry (sampleGlobals 400) 2 9 default 12 nameStream
        { mem := nameMem mixedSegments } = .ok (d, r') t ∧
      ∃ kept, KeepsName default d (spelled mixedSegments) kept := by
  obtain ⟨r', hyields⟩ := nameMem_yields mixedSegments (by decide) (by decide)
    (by decide +kernel) (by decide +kernel) (by decide)
  refine ⟨r', (buildDentry_keepsName_iff (sampleGlobals 400) { mem := nameMem mixedSegments }
    nameStream r' mixedSegments (by decide) hyields 2 9 (by decide) default 12).mpr ⟨?_, ?_⟩⟩
  · have hprefixes : ∀ us ∈ (spelled mixedSegments).inits, (utf8 us).length ≠ ext4NameLen := by
      decide +kernel
    exact fun us hpre => hprefixes us (List.mem_inits _ _ |>.mpr hpre)
  · decide +kernel

/-- An entry of another length than the longest prefix that fits does not keep the name. -/
theorem not_keepsName_of_length {g : Globals} {s : State} {r r' : StreamArchiver} {es : Segment}
    (hyields : Yields g (lfnEntryLength * 2) s.mem es r r') {dirInodeNo fuel inodeNo : ℕ}
    (hfuel : es.length < fuel) {fresh : Ext4Dentry} {name : List ℕ}
    (hne : (utf8 (keptName (ext4NameLen - 1) (es.map unitsOf))).length ≠
      (utf8 (fitting utf8Width ext4NameLen name)).length) :
    ¬ ∃ d t, buildDentry g dirInodeNo fuel fresh inodeNo r s = .ok (d, r') t ∧
      ∃ kept, KeepsName fresh d name kept := by
  rintro ⟨d, t, hrun, kept, hkeeps⟩
  have hspec := wp_ok (buildDentry_spec (E := fun _ _ => False) _ (Or.inl hfuel) fresh inodeNo
    hyields) hrun
  have hbuilt := congrArg (fun x => x.1.nameLen) hspec.2
  have hkept := hkeeps.nameLen
  rw [hkeeps.longest.eq_fitting] at hkept
  exact hne (hbuilt.symm.trans hkept)

/-- The character with three bytes is dropped from the middle: the entry gets 254 bytes, but the
longest prefix that fits has 253. -/
theorem not_keepsName_sampleName :
    ∃ r', Yields (sampleGlobals 400) (lfnEntryLength * 2) (nameMem sampleName)
        (sampleName.map segmentBytes) nameStream r' ∧
      ¬ ∃ d t, buildDentry (sampleGlobals 400) 2 10 default 12 nameStream
          { mem := nameMem sampleName } = .ok (d, r') t ∧
        ∃ kept, KeepsName default d (spelled sampleName) kept := by
  obtain ⟨r', hyields⟩ := nameMem_yields sampleName (by decide) (by decide +kernel)
    (by decide +kernel) (by decide +kernel) (by decide +kernel)
  exact ⟨r', hyields, not_keepsName_of_length (s := ⟨nameMem sampleName, [], {}, 0, {}⟩) hyields
    (by decide +kernel) (by decide +kernel)⟩

end OfsConvert
