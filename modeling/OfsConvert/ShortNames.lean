import OfsConvert.MetadataReader
import Mathlib.Data.List.DropRight

/-!
# Short names

A short name is stored in two fields that are padded with spaces. `read_short_name` stops at the
first space of a field, which is where the padding begins unless the field has a space inside.
-/

namespace OfsConvert

/-- A character that FAT allows in a short name, the space included. -/
def isShortNameChar (c : UInt8) : Bool :=
  0x20 ≤ c && !(0x61 ≤ c && c ≤ 0x7A) && c ∉
    ([0x22, 0x2A, 0x2B, 0x2C, 0x2E, 0x2F, 0x3A, 0x3B, 0x3C, 0x3D, 0x3E, 0x3F, 0x5B, 0x5C, 0x5D,
      0x7C, 0x7F] : List UInt8)

/-- The base of a short name. -/
def shortBase (d : FatDentry) : List UInt8 := d.take 8

/-- The extension of a short name. -/
def shortExtension (d : FatDentry) : List UInt8 := (d.drop 8).take 3

/-- A field of nothing but padding. -/
def isBlank (field : List UInt8) : Bool := field.all (· == 0x20)

/-- An entry whose short name has legal characters, and no space in front of a field that is not
blank. The base name is not blank. -/
structure LegalShortName (d : FatDentry) : Prop where
  size : d.length = sizeofFatDentry
  characters : ∀ c ∈ shortBase d ++ shortExtension d, isShortNameChar c = true
  base : (shortBase d).head? ≠ some 0x20
  extension : (shortExtension d).head? = some 0x20 → isBlank (shortExtension d) = true

/-- A field without the padding at its end. -/
def withoutPadding (field : List UInt8) : List UInt8 := field.rdropWhile (· == 0x20)

/-- The units of a short name: the base name without its padding, then a dot and the extension
without its padding if the extension is not blank, in lower case where the flags say so, then 0. -/
def expectedUnits (d : FatDentry) : List ℕ :=
  let lowered (lower : Bool) (field : List UInt8) : List UInt8 :=
    field.map fun c => if lower then tolower c else c
  let base := lowered (hasLowerName d) (withoutPadding (shortBase d))
  let extension :=
    if isBlank (shortExtension d) then []
    else 0x2E :: lowered (hasLowerExtension d) (withoutPadding (shortExtension d))
  (base ++ extension).map UInt8.toNat ++ [0]

/-- Behind a space of the field come only spaces. -/
def SpacesLast (field : List UInt8) : Prop :=
  ∀ i j : ℕ, i < j → field[i]? = some 0x20 → ∀ c, field[j]? = some c → c = 0x20

/-- Two short names that are the same up to letter case. -/
def SameBeyondCase (d d' : FatDentry) : Prop :=
  (shortBase d).map tolower = (shortBase d').map tolower ∧
    (shortExtension d).map tolower = (shortExtension d').map tolower

/-- `read_short_name` writes the expected units and nothing else, within the 13 units of its
destination. -/
def ReadsShortName (d : FatDentry) : Prop :=
  (expectedUnits d).length ≤ lfnEntryLength ∧
    ∀ (s : State) (dentry name : ℕ), dentryAt s.mem dentry = d →
      readShortName dentry name s = .ok () (s.stored name (2 * (expectedUnits d).length)
        (s.mem.write name ((expectedUnits d).flatMap (leBytes 2))))

section

variable {field field' : List UInt8} {d d' : FatDentry}

/-- The padding comes back. -/
theorem withoutPadding_append (field : List UInt8) :
    ∃ k, withoutPadding field ++ List.replicate k 0x20 = field := by
  refine ⟨(field.rtakeWhile (· == 0x20)).length, ?_⟩
  have hspaces : field.rtakeWhile (· == 0x20) =
      List.replicate (field.rtakeWhile (· == 0x20)).length 0x20 := by
    rw [List.eq_replicate_iff]
    refine ⟨rfl, fun c hc => ?_⟩
    exact eq_of_beq (List.mem_rtakeWhile_imp (p := (· == 0x20)) hc)
  rw [← hspaces, withoutPadding]
  exact List.rdropWhile_append_rtakeWhile

/-- A character that is no space ends the padding. -/
theorem withoutPadding_cons {c : UInt8} (hc : c ≠ 0x20) (field : List UInt8) :
    withoutPadding (c :: field) = c :: withoutPadding field := by
  rw [withoutPadding, withoutPadding, List.rdropWhile, List.rdropWhile, List.reverse_cons,
    List.dropWhile_append]
  cases hdrop : field.reverse.dropWhile (· == 0x20) with
  | nil => simp [hc]
  | cons b rest => simp

/-- Only padding is blank. -/
theorem withoutPadding_eq_nil_iff : withoutPadding field = [] ↔ isBlank field = true := by
  rw [withoutPadding, List.rdropWhile_eq_nil_iff, isBlank, List.all_eq_true]

/-- A space ends the field. -/
theorem takeWhile_space (field : List UInt8) :
    (0x20 :: field).takeWhile (· != 0x20) = [] := by
  rw [List.takeWhile_cons_of_neg (by decide)]

/-- Other characters do not end the field. -/
theorem takeWhile_cons {c : UInt8} (hc : c ≠ 0x20) (field : List UInt8) :
    (c :: field).takeWhile (· != 0x20) = c :: field.takeWhile (· != 0x20) :=
  List.takeWhile_cons_of_pos (bne_iff_ne.mpr hc)

/-- Behind a character that is no space the rest decides. -/
theorem spacesLast_cons {c : UInt8} (hc : c ≠ 0x20) : SpacesLast (c :: field) ↔ SpacesLast field := by
  constructor
  · intro h i j hij hspace x hx
    exact h (i + 1) (j + 1) (by omega) (by rwa [List.getElem?_cons_succ]) x
      (by rwa [List.getElem?_cons_succ])
  · intro h i j hij hspace x hx
    cases i with
    | zero => exact absurd (Option.some.inj hspace) hc
    | succ i =>
      obtain ⟨j, rfl⟩ : ∃ k, j = k + 1 := ⟨j - 1, by omega⟩
      rw [List.getElem?_cons_succ] at hspace hx
      exact h i j (by omega) hspace x hx

/-- Behind a space there may be only spaces. -/
theorem spacesLast_space : SpacesLast (0x20 :: field) ↔ isBlank field = true := by
  rw [isBlank, List.all_eq_true]
  constructor
  · intro h x hx
    obtain ⟨j, hj⟩ := List.mem_iff_getElem?.mp hx
    refine beq_iff_eq.mpr (h 0 (j + 1) (by omega) rfl x ?_)
    rwa [List.getElem?_cons_succ]
  · intro h i j hij _ x hx
    obtain ⟨j, rfl⟩ : ∃ k, j = k + 1 := ⟨j - 1, by omega⟩
    rw [List.getElem?_cons_succ] at hx
    exact eq_of_beq (h x (List.mem_of_getElem? hx))

/-- Stopping at the first space removes the padding and nothing else if and only if no space is in
front of another character. -/
theorem takeWhile_eq_withoutPadding (field : List UInt8) :
    field.takeWhile (· != 0x20) = withoutPadding field ↔ SpacesLast field := by
  induction field with
  | nil => exact iff_of_true rfl fun i j _ h => by simp at h
  | cons c field ih =>
    by_cases hc : c = 0x20
    · subst hc
      rw [takeWhile_space, eq_comm, withoutPadding_eq_nil_iff, spacesLast_space, isBlank, isBlank,
        List.all_cons]
      rfl
    · rw [takeWhile_cons hc, withoutPadding_cons hc, List.cons_inj_right, spacesLast_cons hc, ih]

/-- Stopping at the first space takes no padding. -/
theorem takeWhile_prefix_withoutPadding (field : List UInt8) :
    field.takeWhile (· != 0x20) <+: withoutPadding field := by
  induction field with
  | nil => exact List.nil_prefix
  | cons c field ih =>
    by_cases hc : c = 0x20
    · subst hc
      rw [takeWhile_space]
      exact List.nil_prefix
    · rw [takeWhile_cons hc, withoutPadding_cons hc, List.cons_prefix_cons]
      exact ⟨rfl, ih⟩

/-- Lowering twice is lowering once. -/
theorem tolower_tolower (c : UInt8) : tolower (tolower c) = tolower c := by
  unfold tolower
  split
  · rename_i hupper
    rw [if_neg]
    intro htwice
    have hlow := hupper.1
    have hhigh := hupper.2
    have hagain := htwice.2
    rw [UInt8.le_iff_toNat_le] at *
    rw [UInt8.toNat_add] at hagain
    simp at *
    omega
  · rfl

/-- Lowering makes no dot. -/
theorem tolower_ne_dot {c : UInt8} (hc : c ≠ 0x2E) : tolower c ≠ 0x2E := by
  unfold tolower
  split
  · rename_i hupper
    intro heq
    have hlow := hupper.1
    have hhigh := hupper.2
    have hdot := congrArg UInt8.toNat heq
    rw [UInt8.le_iff_toNat_le] at *
    rw [UInt8.toNat_add] at hdot
    simp at *
    omega
  · exact hc

end

/-- A field in the letter case of a flag. -/
def loweredField (lower : Bool) (field : List UInt8) : List UInt8 :=
  field.map fun c => if lower then tolower c else c

/-- What stands behind the base name, for a field that was cut off at `stop`. -/
def extensionPart (lower blank : Bool) (stop : List UInt8) : List UInt8 :=
  if blank then [] else 0x2E :: loweredField lower stop

section

variable {field field' : List UInt8} {d d' : FatDentry}

/-- The expected name from base and extension. -/
theorem expectedUnits_eq (d : FatDentry) :
    expectedUnits d = (loweredField (hasLowerName d) (withoutPadding (shortBase d)) ++
      extensionPart (hasLowerExtension d) (isBlank (shortExtension d))
        (withoutPadding (shortExtension d))).map UInt8.toNat ++ [0] := rfl

/-- The test for an extension looks at its first character only. -/
theorem LegalShortName.hasExtension (h : LegalShortName d) :
    hasExtension d = !isBlank (shortExtension d) := by
  have hsize := h.size
  unfold sizeofFatDentry at hsize
  have hfirst : (shortExtension d).head? = some (d.byte 8) := by
    rw [shortExtension, List.head?_take, if_neg (by decide), List.head?_drop, FatDentry.byte,
      List.getD_eq_getElem?_getD, List.getElem?_eq_getElem (by omega)]
    rfl
  by_cases hspace : d.byte 8 = 0x20
  · have hblank := h.extension (by rw [hfirst, hspace])
    rw [OfsConvert.hasExtension, hspace, hblank]
    rfl
  · have hblank : isBlank (shortExtension d) = false := by
      rw [Bool.eq_false_iff]
      intro hall
      rw [isBlank, List.all_eq_true] at hall
      exact hspace (eq_of_beq (hall _ (List.mem_of_mem_head? hfirst)))
    rw [OfsConvert.hasExtension, hblank, bne_iff_ne.mpr hspace]
    rfl

/-- What the code reads of a legal short name. -/
theorem LegalShortName.shortNameUnits_eq (h : LegalShortName d) :
    shortNameUnits d = (loweredField (hasLowerName d) ((shortBase d).takeWhile (· != 0x20)) ++
      extensionPart (hasLowerExtension d) (isBlank (shortExtension d))
        ((shortExtension d).takeWhile (· != 0x20))).map UInt8.toNat ++ [0] := by
  rw [shortNameUnits, h.hasExtension, extensionPart]
  cases isBlank (shortExtension d) <;> rfl

/-- Lowering keeps the length. -/
theorem length_loweredField (lower : Bool) (field : List UInt8) :
    (loweredField lower field).length = field.length := List.length_map _

/-- The extension takes one more unit for its dot. -/
theorem length_extensionPart_le (lower blank : Bool) (stop : List UInt8) :
    (extensionPart lower blank stop).length ≤ stop.length + 1 := by
  cases blank with
  | true => exact Nat.zero_le _
  | false => exact le_of_eq (by rw [extensionPart, if_neg (by decide), List.length_cons,
      length_loweredField])

/-- The expected units fit into the destination. -/
theorem LegalShortName.length_expectedUnits_le (d : FatDentry) :
    (expectedUnits d).length ≤ lfnEntryLength := by
  have hpadding : ∀ field : List UInt8, (withoutPadding field).length ≤ field.length :=
    fun field => (List.rdropWhile_prefix _ _).length_le
  have hbase := hpadding (shortBase d)
  have hextension := hpadding (shortExtension d)
  have h8 : (shortBase d).length ≤ 8 := List.length_take_le 8 d
  have h3 : (shortExtension d).length ≤ 3 := List.length_take_le 3 _
  have hpart := length_extensionPart_le (hasLowerExtension d) (isBlank (shortExtension d))
    (withoutPadding (shortExtension d))
  rw [expectedUnits_eq, List.length_append, List.length_map, List.length_append,
    length_loweredField, List.length_singleton, lfnEntryLength]
  omega

/-- The units of the code are the expected ones if and only if no field has a space inside. -/
theorem LegalShortName.shortNameUnits_iff (h : LegalShortName d) :
    shortNameUnits d = expectedUnits d ↔
      SpacesLast (shortBase d) ∧ SpacesLast (shortExtension d) := by
  rw [h.shortNameUnits_eq, expectedUnits_eq, ← takeWhile_eq_withoutPadding,
    ← takeWhile_eq_withoutPadding]
  constructor
  · intro heq
    have hbytes := List.map_injective_iff.mpr (fun a b hab => UInt8.toNat_inj.mp hab)
      (List.append_cancel_right heq)
    have hlength := congrArg List.length hbytes
    rw [List.length_append, List.length_append, length_loweredField, length_loweredField] at hlength
    have hbase := takeWhile_prefix_withoutPadding (shortBase d)
    have hextension := takeWhile_prefix_withoutPadding (shortExtension d)
    have hbaseLength := hbase.length_le
    have hextensionLength := hextension.length_le
    cases hblank : isBlank (shortExtension d) with
    | true =>
      rw [hblank, extensionPart, extensionPart, if_pos rfl, if_pos rfl] at hlength
      have hnone := withoutPadding_eq_nil_iff.mpr hblank
      refine ⟨hbase.eq_of_length (by omega), ?_⟩
      rw [hnone] at hextension ⊢
      exact List.prefix_nil.mp hextension
    | false =>
      rw [hblank, extensionPart, extensionPart, if_neg (by decide), if_neg (by decide),
        List.length_cons, List.length_cons, length_loweredField, length_loweredField] at hlength
      exact ⟨hbase.eq_of_length (by omega), hextension.eq_of_length (by omega)⟩
  · rintro ⟨hbase, hextension⟩
    rw [hbase, hextension]

/-- Lowering everything hides what was lowered before. -/
theorem map_tolower_loweredField (lower : Bool) (field : List UInt8) :
    (loweredField lower field).map tolower = field.map tolower := by
  rw [loweredField, List.map_map]
  apply List.map_congr_left
  intro c _
  cases lower with
  | true => exact tolower_tolower c
  | false => rfl

/-- Fields of one length that agree without their padding agree. -/
theorem map_tolower_of_withoutPadding (hlength : field.length = field'.length)
    (h : (withoutPadding field).map tolower = (withoutPadding field').map tolower) :
    field.map tolower = field'.map tolower := by
  obtain ⟨k, hk⟩ := withoutPadding_append field
  obtain ⟨k', hk'⟩ := withoutPadding_append field'
  have hsame := congrArg List.length h
  rw [List.length_map, List.length_map] at hsame
  have hcount : k = k' := by
    rw [← hk, ← hk', List.length_append, List.length_append, List.length_replicate,
      List.length_replicate] at hlength
    omega
  rw [← hk, ← hk', List.map_append, List.map_append, h, hcount]

/-- A base name has no dot in it. -/
theorem LegalShortName.base_no_dot (h : LegalShortName d) (lower : Bool) :
    ∀ c ∈ loweredField lower (withoutPadding (shortBase d)), (c != 0x2E) = true := by
  intro c hc
  obtain ⟨b, hb, rfl⟩ := List.mem_map.mp hc
  have hmem : b ∈ shortBase d := (List.rdropWhile_prefix _ _).subset hb
  have hchar := h.characters b (List.mem_append_left _ hmem)
  have hb : b ≠ 0x2E := by
    rintro rfl
    exact absurd hchar (by decide)
  rw [bne_iff_ne]
  cases lower with
  | true => exact tolower_ne_dot hb
  | false => exact hb

/-- What is in front of the extension part is the base name. -/
theorem takeWhile_dot {base stop : List UInt8} (hbase : ∀ c ∈ base, (c != 0x2E) = true)
    (lower blank : Bool) :
    (base ++ extensionPart lower blank stop).takeWhile (· != 0x2E) = base := by
  rw [List.takeWhile_append_of_pos hbase]
  cases blank with
  | true => exact List.append_nil base
  | false =>
    rw [extensionPart, if_neg (by decide), List.takeWhile_cons_of_neg (by decide),
      List.append_nil]

/-- Names with equal expected units are the same up to letter case. -/
theorem LegalShortName.sameBeyondCase (h : LegalShortName d) (h' : LegalShortName d')
    (heq : expectedUnits d = expectedUnits d') : SameBeyondCase d d' := by
  rw [expectedUnits_eq, expectedUnits_eq] at heq
  have hbytes := List.map_injective_iff.mpr (fun a b hab => UInt8.toNat_inj.mp hab)
    (List.append_cancel_right heq)
  have hbase := congrArg (List.takeWhile (· != 0x2E)) hbytes
  rw [takeWhile_dot (h.base_no_dot _), takeWhile_dot (h'.base_no_dot _)] at hbase
  rw [hbase] at hbytes
  have hextension := List.append_cancel_left hbytes
  have hsize := h.size
  have hsize' := h'.size
  unfold sizeofFatDentry at hsize hsize'
  constructor
  · apply map_tolower_of_withoutPadding
    · rw [shortBase, shortBase, List.length_take, List.length_take, hsize, hsize']
    · rw [← map_tolower_loweredField (hasLowerName d), hbase, map_tolower_loweredField]
  · have hlength : (shortExtension d).length = (shortExtension d').length := by
      rw [shortExtension, shortExtension, List.length_take, List.length_take, List.length_drop,
        List.length_drop, hsize, hsize']
    apply map_tolower_of_withoutPadding hlength
    cases hblank : isBlank (shortExtension d) with
    | true =>
      cases hblank' : isBlank (shortExtension d') with
      | true => rw [withoutPadding_eq_nil_iff.mpr hblank, withoutPadding_eq_nil_iff.mpr hblank']
      | false =>
        rw [hblank, hblank'] at hextension
        exact absurd hextension (List.cons_ne_nil _ _).symm
    | false =>
      cases hblank' : isBlank (shortExtension d') with
      | true =>
        rw [hblank, hblank'] at hextension
        exact absurd hextension (List.cons_ne_nil _ _)
      | false =>
        rw [hblank, hblank'] at hextension
        have htail := (List.cons.inj hextension).2
        rw [← map_tolower_loweredField (hasLowerExtension d), htail, map_tolower_loweredField]

/-- A code unit has two bytes. -/
theorem length_units_bytes (units : List ℕ) :
    (units.flatMap (leBytes 2)).length = 2 * units.length := by
  induction units with
  | nil => rfl
  | cons u units ih =>
    rw [List.flatMap_cons, List.length_append, length_leBytes, ih, List.length_cons]
    omega

/-- Units are given by their bytes. -/
theorem units_eq_of_bytes {us vs : List ℕ} (hus : ∀ u ∈ us, u < 2 ^ 16) (hvs : ∀ v ∈ vs, v < 2 ^ 16)
    (h : us.flatMap (leBytes 2) = vs.flatMap (leBytes 2)) : us = vs := by
  have hlength := congrArg List.length h
  rw [length_units_bytes, length_units_bytes] at hlength
  induction us generalizing vs with
  | nil =>
    rw [List.length_nil] at hlength
    exact (List.length_eq_zero_iff.mp (by omega)).symm
  | cons u us ih =>
    cases vs with
    | nil =>
      rw [List.length_cons, List.length_nil] at hlength
      omega
    | cons v vs =>
      rw [List.flatMap_cons, List.flatMap_cons] at h
      obtain ⟨hfirst, hrest⟩ := List.append_inj h (by rw [length_leBytes, length_leBytes])
      have hu := leNat_leBytes_of_lt (w := 2) (n := u) (hus u List.mem_cons_self)
      have hv := leNat_leBytes_of_lt (w := 2) (n := v) (hvs v List.mem_cons_self)
      rw [List.length_cons, List.length_cons] at hlength
      rw [← hu, ← hv, hfirst, ih (fun x hx => hus x (List.mem_cons_of_mem u hx))
        (fun x hx => hvs x (List.mem_cons_of_mem v hx)) hrest (by omega)]

/-- The code units that are read have 16 bits. -/
theorem shortNameUnits_lt (d : FatDentry) : ∀ u ∈ shortNameUnits d, u < 2 ^ 16 := by
  intro u hu
  rw [shortNameUnits] at hu
  rcases List.mem_append.mp hu with hchar | hend
  · obtain ⟨c, -, rfl⟩ := List.mem_map.mp hchar
    exact c.toNat_lt.trans (by norm_num)
  · rw [List.mem_singleton.mp hend]
    norm_num

/-- The expected code units have 16 bits. -/
theorem expectedUnits_lt (d : FatDentry) : ∀ u ∈ expectedUnits d, u < 2 ^ 16 := by
  intro u hu
  rw [expectedUnits_eq] at hu
  rcases List.mem_append.mp hu with hchar | hend
  · obtain ⟨c, -, rfl⟩ := List.mem_map.mp hchar
    exact c.toNat_lt.trans (by norm_num)
  · rw [List.mem_singleton.mp hend]
    norm_num

/-- What `read_short_name` does. -/
theorem readShortName_run {s : State} {dentry name : ℕ} (hd : dentryAt s.mem dentry = d) :
    readShortName dentry name s = .ok () (s.stored name (2 * (shortNameUnits d).length)
      (s.mem.write name ((shortNameUnits d).flatMap (leBytes 2)))) := by
  apply eq_ok_of_wp
  simp only [readShortName, wp_bind, wp_getMem, wp_storeBytes, hd, length_units_bytes]
  trivial

/-- Every entry is in some memory. -/
theorem exists_dentryAt (hsize : d.length = sizeofFatDentry) :
    ∃ (s : State) (dentry : ℕ), dentryAt s.mem dentry = d :=
  ⟨{ mem := Mem.write (fun _ => 0) 1 d }, 1, Mem.read_write_of_length hsize⟩

/-- The name of an entry is read as expected if and only if no field has a space inside. -/
theorem LegalShortName.reads_iff (h : LegalShortName d) :
    ReadsShortName d ↔ SpacesLast (shortBase d) ∧ SpacesLast (shortExtension d) := by
  rw [← h.shortNameUnits_iff]
  constructor
  · rintro ⟨-, hreads⟩
    obtain ⟨s, dentry, hd⟩ := exists_dentryAt h.size
    have hrun := hreads s dentry 0 hd
    rw [readShortName_run hd, EStateM.Result.ok.injEq] at hrun
    have hstores := congrArg State.stores hrun.2
    rw [State.stored_stores, State.stored_stores, List.cons.injEq, Store.mk.injEq] at hstores
    have hlength := hstores.1.2.1
    have hmem := congrArg State.mem hrun.2
    rw [State.stored_mem, State.stored_mem] at hmem
    apply units_eq_of_bytes (shortNameUnits_lt d) (expectedUnits_lt d)
    have hread := Mem.read_write s.mem 0 ((shortNameUnits d).flatMap (leBytes 2))
    rw [hmem, length_units_bytes, hlength, ← length_units_bytes, Mem.read_write] at hread
    exact hread.symm
  · intro heq
    refine ⟨LegalShortName.length_expectedUnits_le d, fun s dentry name hd => ?_⟩
    rw [readShortName_run hd, heq]

end

/-- Two legal short names are both written as expected, and decode to one name only if they are the
same up to letter case, if and only if none of their fields has a space in front of another
character. -/
theorem readShortName_keepsNames (d d' : FatDentry) (h : LegalShortName d)
    (h' : LegalShortName d') :
    ReadsShortName d ∧ ReadsShortName d' ∧
        (shortNameUnits d = shortNameUnits d' → SameBeyondCase d d') ↔
      (SpacesLast (shortBase d) ∧ SpacesLast (shortExtension d)) ∧
        SpacesLast (shortBase d') ∧ SpacesLast (shortExtension d') := by
  rw [h.reads_iff, h'.reads_iff]
  constructor
  · rintro ⟨hd, hd', -⟩
    exact ⟨hd, hd'⟩
  · rintro ⟨hd, hd'⟩
    refine ⟨hd, hd', fun heq => h.sameBeyondCase h' ?_⟩
    rwa [← h.shortNameUnits_iff.mpr hd, ← h'.shortNameUnits_iff.mpr hd']

/-- The entry of a file with a space in its short name; `c` is the character behind it. -/
def spacedEntry (c : UInt8) : FatDentry :=
  [0x41, 0x20, c, 0x20, 0x20, 0x20, 0x20, 0x20, 0x54, 0x58, 0x54, 0x20] ++ List.replicate 20 0

/-- The two entries with a space inside are legal. -/
theorem legal_spacedEntry : LegalShortName (spacedEntry 0x42) ∧ LegalShortName (spacedEntry 0x43) :=
  ⟨⟨rfl, by decide +kernel, by decide, by decide⟩,
    ⟨rfl, by decide +kernel, by decide, by decide⟩⟩

/-- The names `A B.TXT` and `A C.TXT` are both read as `A.TXT`. -/
theorem readShortName_merges_spaced :
    LegalShortName (spacedEntry 0x42) ∧ LegalShortName (spacedEntry 0x43) ∧
      ¬ ReadsShortName (spacedEntry 0x42) ∧
      shortNameUnits (spacedEntry 0x42) = shortNameUnits (spacedEntry 0x43) ∧
      ¬ SameBeyondCase (spacedEntry 0x42) (spacedEntry 0x43) := by
  refine ⟨legal_spacedEntry.1, legal_spacedEntry.2, ?_, by decide, ?_⟩
  · rw [legal_spacedEntry.1.reads_iff]
    rintro ⟨hspaces, -⟩
    exact absurd (hspaces 1 2 (by norm_num) rfl 0x42 rfl) (by decide)
  · rintro ⟨hbase, -⟩
    exact absurd hbase (by decide)

/-- An entry named `FILE.TXT`. -/
def plainEntry : FatDentry :=
  [0x46, 0x49, 0x4C, 0x45, 0x20, 0x20, 0x20, 0x20, 0x54, 0x58, 0x54, 0x20] ++ List.replicate 20 0

/-- The iff for a plain entry and one with a space inside. -/
theorem readShortName_keepsNames_plain :
    ReadsShortName plainEntry ∧ ReadsShortName (spacedEntry 0x42) ∧
        (shortNameUnits plainEntry = shortNameUnits (spacedEntry 0x42) →
          SameBeyondCase plainEntry (spacedEntry 0x42)) ↔
      (SpacesLast (shortBase plainEntry) ∧ SpacesLast (shortExtension plainEntry)) ∧
        SpacesLast (shortBase (spacedEntry 0x42)) ∧ SpacesLast (shortExtension (spacedEntry 0x42)) :=
  readShortName_keepsNames plainEntry (spacedEntry 0x42)
    ⟨rfl, by decide +kernel, by decide, by decide⟩ ⟨rfl, by decide +kernel, by decide, by decide⟩

end OfsConvert
