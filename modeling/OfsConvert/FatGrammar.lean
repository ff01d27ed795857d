import OfsConvert.PayloadRelocation

/-!
# The grammar of a directory table

A well-formed table is a list of items in front of an end entry or of the end of the last cluster.
`Walks` is the walk of `traverse` over the live entries alone. The walk takes every entry with one
of the four low attribute bits for the start of a long name, so it agrees with the grammar exactly
on tables without volume labels and without read-only, hidden or system entries that have no long
name.
-/

namespace OfsConvert

/-- What a well-formed directory table is made of. -/
inductive TableItem where
  | deleted (d : FatDentry)
  | dot (d : FatDentry)
  | label (d : FatDentry)
  | run (parts : List FatDentry) (d : FatDentry)
  | plain (d : FatDentry)
  deriving DecidableEq, Repr

/-- The attribute bit of a volume label, also set in long-name entries. -/
def FatDentry.isLabel (d : FatDentry) : Bool := d.attrs &&& 0x08 != 0

/-- An entry that is in use and whose space-padded name holds no 0 byte. -/
structure NamedEntry (d : FatDentry) : Prop where
  live : isLive d = true
  name : ∀ i < 11, d.byte i ≠ 0

/-- The entries of a long name from the last part to the first, numbered downwards; the first
entry carries the mark 0x40. -/
structure LongNameRun (parts : List FatDentry) : Prop where
  nonempty : parts ≠ []
  length : parts.length ≤ 20
  order : ∀ i (h : i < parts.length),
    (parts[i]).byte 0 = UInt8.ofNat (parts.length - i) ||| (if i = 0 then 0x40 else 0)
  attrs : ∀ part ∈ parts, part.attrs &&& 0x3F = 0x0F

namespace TableItem

/-- The entries of an item. -/
def entries : TableItem → List FatDentry
  | deleted d => [d]
  | dot d => [d]
  | label d => [d]
  | run parts d => parts ++ [d]
  | plain d => [d]

/-- The item is as the file system demands. -/
def WellFormed : TableItem → Prop
  | deleted d => isInvalid d = true
  | dot d => isDotDir d = true
  | label d => NamedEntry d ∧ d.isLabel = true ∧ d.attrs &&& 0x3F ≠ 0x0F
  | run parts d => LongNameRun parts ∧ NamedEntry d ∧ d.isLabel = false
  | plain d => NamedEntry d ∧ d.isLabel = false

/-- The child that an item stands for. -/
def child : TableItem → Option ChildEntry
  | deleted _ => none
  | dot _ => none
  | label _ => none
  | run parts d => some ⟨d, .long (parts.reverse.map lfnUnits)⟩
  | plain d => some ⟨d, .short (shortNameUnits d)⟩

/-- The walk reads the item as the grammar does. -/
def readable : TableItem → Bool
  | label _ => false
  | plain d => !isLfn d
  | _ => true

end TableItem

/-- The table consists of the items and of whatever follows the end entry. -/
structure TableOfItems (items : List TableItem) (table : List FatDentry) : Prop where
  wellFormed : ∀ item ∈ items, item.WellFormed
  entries : ∃ behind, table = items.flatMap TableItem.entries ++ behind ∧ tableEnds behind = true

/-- The children of a table. -/
def childrenOf (items : List TableItem) : List ChildEntry := items.filterMap TableItem.child

/-- The stream's record of a child. -/
def RecordedChild (child : ChildEntry) (r : Record) : Prop :=
  r.dentry = child.dentry ∧ child.name.RecordedAs r.name

/-- The records of a directory are one for each child of its table, in order, and the recorded
count is their number. -/
def RecordsTable (items : List TableItem) (records : Forest Record) : Prop :=
  u32 records.count = (childrenOf items).length ∧
    List.Forall₂ RecordedChild (childrenOf items) records.top

/-- No item is misread, and the count fits. -/
def ReadableTable (items : List TableItem) : Prop :=
  (∀ item ∈ items, item.readable = true) ∧ (childrenOf items).length < 2 ^ 32

/-- The walk of `traverse` over live entries takes these children. -/
inductive Walks : List FatDentry → List ChildEntry → Prop where
  | done {entries : List FatDentry} (hend : tableEnds entries = true) : Walks entries []
  | step {entries rest : List FatDentry} {child : ChildEntry} {children : List ChildEntry}
      (hmore : tableEnds entries = false) (hnext : nextChild entries = some (child, rest))
      (hrest : Walks rest children) : Walks entries (child :: children)

section Entries

/-- A property of bytes may be checked value by value. -/
theorem forall_byte {P : UInt8 → Prop} (h : ∀ i : Fin 256, P (UInt8.ofFin i)) (a : UInt8) : P a :=
  h a.toFin

/-- The attributes of a long-name entry include those of a label. -/
theorem attrs_run {a : UInt8} (h : a &&& 0x3F = 0x0F) : a &&& 0x0F ≠ 0 ∧ a &&& 0x08 ≠ 0 :=
  forall_byte (P := fun a => a &&& 0x3F = 0x0F → a &&& 0x0F ≠ 0 ∧ a &&& 0x08 ≠ 0)
    (by decide +kernel) a h

/-- A label has one of the low attributes. -/
theorem attrs_label {a : UInt8} (h : a &&& 0x08 ≠ 0) : a &&& 0x0F ≠ 0 :=
  forall_byte (P := fun a => a &&& 0x08 ≠ 0 → a &&& 0x0F ≠ 0) (by decide +kernel) a h

variable {d : FatDentry}

/-- A label counts as a long-name entry. -/
theorem isLfn_of_isLabel (h : d.isLabel = true) : isLfn d = true := by
  rw [FatDentry.isLabel, bne_iff_ne] at h
  rw [isLfn, bne_iff_ne]
  exact attrs_label h

/-- An entry with a name does not end the table. -/
theorem NamedEntry.not_end (h : NamedEntry d) : isDirTableEnd d = false := by
  rw [isDirTableEnd, beq_eq_false_iff_ne]
  exact h.name 0 (by decide)

/-- The numbers of long-name entries are no marks. -/
theorem runNumber {n : ℕ} (hn : n ≤ 20) (hpos : 1 ≤ n) (mark : UInt8)
    (hmark : mark = 0x40 ∨ mark = 0) :
    (UInt8.ofNat n ||| mark) ≠ 0xE5 ∧ (UInt8.ofNat n ||| mark) ≠ 0x2E ∧
      (UInt8.ofNat n ||| mark) ≠ 0 ∧ ((UInt8.ofNat n ||| mark) &&& 0x1F).toNat = n := by
  rcases hmark with rfl | rfl
  · interval_cases n <;> decide
  · interval_cases n <;> decide

variable {parts : List FatDentry}

/-- What each entry of a long-name run is. -/
theorem LongNameRun.part (h : LongNameRun parts) {i : ℕ} (hi : i < parts.length) :
    isLive parts[i] = true ∧ isDirTableEnd parts[i] = false ∧ isLfn parts[i] = true ∧
      parts[i].isLabel = true ∧ lfnEntrySequenceNo parts[i] = parts.length - i := by
  have hlength := h.length
  have hattrs := attrs_run (h.attrs parts[i] (List.getElem_mem hi))
  obtain ⟨hinvalid, hdot, hend, hnumber⟩ := runNumber (n := parts.length - i) (by omega)
    (by omega) (if i = 0 then 0x40 else 0) (by split <;> simp)
  rw [← h.order i hi] at hinvalid hdot hend hnumber
  refine ⟨?_, ?_, ?_, ?_, hnumber⟩
  · rw [isLive, isInvalid, isDotDir, Bool.not_eq_true', Bool.or_eq_false_iff]
    exact ⟨beq_eq_false_iff_ne.mpr hinvalid, beq_eq_false_iff_ne.mpr hdot⟩
  · exact beq_eq_false_iff_ne.mpr hend
  · exact bne_iff_ne.mpr hattrs.1
  · exact bne_iff_ne.mpr hattrs.2

/-- A long-name run is live as a whole. -/
theorem LongNameRun.live (h : LongNameRun parts) : liveEntries parts = parts := by
  rw [liveEntries, List.filter_eq_self]
  intro part hpart
  obtain ⟨i, hi, rfl⟩ := List.getElem_of_mem hpart
  exact (h.part hi).1

/-- The second byte of a short name is 0. -/
theorem shortNameUnits_second (d : FatDentry) (element : List UInt8)
    (h : (shortNameUnits d).flatMap (leBytes 2) <+: element) : element[1]? = some 0 := by
  obtain ⟨u, units, hunits, hu⟩ : ∃ u units, shortNameUnits d = u :: units ∧ u < 256 := by
    rw [shortNameUnits]
    cases hchars : shortNamePart (hasLowerName d) (d.take 8) ++
        (if hasExtension d then
          0x2E :: shortNamePart (hasLowerExtension d) ((d.drop 8).take 3) else []) with
    | nil => exact ⟨0, [], rfl, by decide⟩
    | cons c cs => exact ⟨c.toNat, cs.map UInt8.toNat ++ [0], rfl, c.toNat_lt⟩
  obtain ⟨rest, rfl⟩ := h
  have hhigh : u / 256 = 0 := Nat.div_eq_of_lt hu
  rw [hunits, List.flatMap_cons]
  simp [leBytes, hhigh]

/-- The second byte of what is copied from an entry is a byte of its name. -/
theorem NamedEntry.lfnUnits_second (h : NamedEntry d) : (lfnUnits d)[1]? = some (d.byte 2) := by
  have hbyte := h.name 2 (by decide)
  have hlength : 2 < d.length := by
    by_contra hshort
    exact hbyte (List.getD_eq_default _ _ (Nat.le_of_not_lt hshort))
  rw [FatDentry.byte, List.getD_eq_getElem _ _ hlength, lfnUnits, List.append_assoc,
    List.getElem?_append_left (by simp; omega), List.getElem?_take_of_lt (by decide),
    List.getElem?_drop, List.getElem?_eq_getElem hlength]

/-- A name of one part is no short name. -/
theorem NamedEntry.not_shortName (h : NamedEntry d) (d' : FatDentry) :
    ¬ (shortNameUnits d').flatMap (leBytes 2) <+: lfnUnits d := by
  intro hinitial
  have hzero := shortNameUnits_second d' _ hinitial
  rw [h.lfnUnits_second, Option.some_inj] at hzero
  exact h.name 2 (by decide) hzero

end Entries

section Walk

variable {entries rest : List FatDentry} {cs cs' : List ChildEntry} {items : List TableItem}

/-- The walk takes one list of children only. -/
theorem Walks.unique (h : Walks entries cs) (h' : Walks entries cs') : cs = cs' := by
  induction h generalizing cs' with
  | done hend =>
    cases h' with
    | done _ => rfl
    | step hmore _ _ =>
      rw [hend] at hmore
      exact absurd hmore (by decide)
  | step hmore hnext _ ih =>
    cases h' with
    | done hend =>
      rw [hend] at hmore
      exact absurd hmore (by decide)
    | step _ hnext' hrest' =>
      rw [hnext, Option.some.injEq, Prod.mk.injEq] at hnext'
      obtain ⟨rfl, rfl⟩ := hnext'
      rw [ih hrest']

/-- The walk over a described table. -/
theorem Describes.walks {g : Globals} {m : Mem} {forest : Forest FatNode}
    (h : Describes g m entries forest) : Walks entries (forest.top.map FatNode.entry) := by
  induction forest generalizing entries with
  | nil => exact Walks.done h
  | file node rest ih =>
    obtain ⟨hmore, -, -, behind, hnext, hrest⟩ := h
    exact Walks.step hmore hnext (ih hrest)
  | dir node children rest _ ih =>
    obtain ⟨hmore, -, -, -, behind, hnext, hrest⟩ := h
    exact Walks.step hmore hnext (ih hrest)

/-- The live entries of an item. -/
def TableItem.live : TableItem → List FatDentry
  | deleted _ => []
  | dot _ => []
  | label d => [d]
  | run parts d => parts ++ [d]
  | plain d => [d]

/-- The live entries of an item. -/
theorem TableItem.liveEntries_eq {item : TableItem} (h : item.WellFormed) :
    liveEntries item.entries = item.live := by
  cases item with
  | deleted d =>
    have hdead : isLive d = false := by rw [isLive, show isInvalid d = true from h]; rfl
    rw [entries, live, liveEntries, List.filter_cons_of_neg (by simp [hdead]), List.filter_nil]
  | dot d =>
    have hdead : isLive d = false := by
      rw [isLive, show isDotDir d = true from h, Bool.or_true]
      rfl
    rw [entries, live, liveEntries, List.filter_cons_of_neg (by simp [hdead]), List.filter_nil]
  | label d => exact List.filter_cons_of_pos h.1.live
  | run parts d =>
    rw [entries, live, liveEntries, List.filter_append]
    exact congrArg₂ _ h.1.live (List.filter_cons_of_pos h.2.1.live)
  | plain d => exact List.filter_cons_of_pos h.1.live

/-- The live entries of a table of items. -/
theorem TableOfItems.live {table : List FatDentry} (h : TableOfItems items table) :
    ∃ behind, liveEntries table = items.flatMap TableItem.live ++ behind ∧
      tableEnds behind = true := by
  obtain ⟨behind, rfl, hend⟩ := h.entries
  have hwf := h.wellFormed
  refine ⟨liveEntries behind, ?_, ?_⟩
  · rw [liveEntries, List.filter_append, List.filter_flatMap]
    refine congrArg (· ++ _) (List.flatMap_congr fun item hitem => ?_)
    exact TableItem.liveEntries_eq (hwf item hitem)
  · cases behind with
    | nil => rfl
    | cons d rest =>
      have hzero : d.byte 0 = 0 := by simpa [tableEnds, isDirTableEnd] using hend
      have hlive : isLive d = true := by simp [isLive, isInvalid, isDotDir, hzero]
      rw [liveEntries, List.filter_cons_of_pos hlive]
      exact hend

/-- The walk takes the child of an item that it reads as the grammar does. -/
theorem TableItem.next {item : TableItem} (h : item.WellFormed) (hreadable : item.readable = true)
    (rest : List FatDentry) :
    (item.child = none ∧ item.live = []) ∨ ∃ child, item.child = some child ∧
      tableEnds (item.live ++ rest) = false ∧
      nextChild (item.live ++ rest) = some (child, rest) := by
  cases item with
  | deleted d => exact Or.inl ⟨rfl, rfl⟩
  | dot d => exact Or.inl ⟨rfl, rfl⟩
  | label d => exact absurd hreadable (by simp [readable])
  | plain d =>
    have hshort : isLfn d = false := by simpa [readable] using hreadable
    refine Or.inr ⟨_, rfl, h.1.not_end, ?_⟩
    rw [live, List.singleton_append, nextChild, hshort, if_neg (by decide)]
  | run parts d =>
    obtain ⟨hrun, -, -⟩ := h
    obtain ⟨first, behind, hparts⟩ := List.exists_cons_of_ne_nil hrun.nonempty
    obtain ⟨-, hmore, hlfn, -, hnumber⟩ := hrun.part (i := 0) (by simp [hparts])
    simp only [hparts, List.getElem_cons_zero, Nat.sub_zero] at hmore hlfn hnumber
    have hsplit : (run parts d).live ++ rest = first :: (behind ++ d :: rest) := by
      simp [live, hparts]
    rw [hsplit]
    refine Or.inr ⟨_, rfl, hmore, ?_⟩
    rw [nextChild, if_pos hlfn, hnumber, ← List.cons_append, List.drop_left, List.take_left,
      hparts]

/-- The children of an item come in front of those behind it. -/
theorem childrenOf_cons (item : TableItem) (items : List TableItem) :
    childrenOf (item :: items) = item.child.toList ++ childrenOf items := by
  rw [childrenOf, List.filterMap_cons, childrenOf]
  cases item.child with
  | none => rfl
  | some c => rfl

/-- The walk takes the children of a table without misread items. -/
theorem walks_of_readable (hwf : ∀ item ∈ items, item.WellFormed)
    (hreadable : ∀ item ∈ items, item.readable = true) (hend : tableEnds rest = true) :
    Walks (items.flatMap TableItem.live ++ rest) (childrenOf items) := by
  induction items with
  | nil => exact Walks.done hend
  | cons item items ih =>
    have hrest := ih (fun i hi => hwf i (by simp [hi])) fun i hi => hreadable i (by simp [hi])
    rw [List.flatMap_cons, List.append_assoc, childrenOf_cons]
    rcases TableItem.next (hwf item (by simp)) (hreadable item (by simp))
      (items.flatMap TableItem.live ++ rest) with ⟨hchild, hlive⟩ | ⟨child, hchild, hmore, hnext⟩
    · rw [hchild, hlive]
      exact hrest
    · rw [hchild]
      exact Walks.step hmore hnext hrest

/-- The walk takes a misread entry for the first of a long name. -/
theorem Walks.misread {d : FatDentry} (h : Walks (d :: rest) cs) (hnamed : NamedEntry d)
    (hlfn : isLfn d = true) :
    ∃ dentry others, (d :: rest)[lfnEntrySequenceNo d]? = some dentry ∧
      cs = ⟨dentry, .long (((d :: rest).take (lfnEntrySequenceNo d)).reverse.map lfnUnits)⟩ ::
        others := by
  cases h with
  | done hend => exact absurd hend (by simp [tableEnds, hnamed.not_end])
  | @step _ behind child children hmore hnext hrest =>
    rw [nextChild, if_pos hlfn] at hnext
    cases hdrop : (d :: rest).drop (lfnEntrySequenceNo d) with
    | nil =>
      rw [hdrop] at hnext
      exact absurd hnext (by simp)
    | cons dentry rest' =>
      rw [hdrop, Option.some.injEq, Prod.mk.injEq] at hnext
      refine ⟨dentry, children, ?_, by rw [← hnext.1]⟩
      have hhead := congrArg List.head? hdrop
      rwa [List.head?_drop, List.head?_cons] at hhead

/-- A record of a misread entry is none of a short name. -/
theorem NamedEntry.misread_short {d : FatDentry} (h : NamedEntry d) {n : ℕ} {child : ChildEntry}
    {dentry d' : FatDentry} {r : Record} (hname : child.name = .short (shortNameUnits d'))
    (hchild : RecordedChild child r)
    (hmisread : RecordedChild ⟨dentry, .long (((d :: rest).take n).reverse.map lfnUnits)⟩ r) :
    False := by
  obtain ⟨-, hshort⟩ := hchild
  rw [hname] at hshort
  obtain ⟨element, helement, -, hinitial⟩ := hshort
  have hlong : r.name = ((d :: rest).take n).reverse.map lfnUnits := hmisread.2
  cases n with
  | zero => simp [helement] at hlong
  | succ n =>
    rw [List.take_succ_cons, List.reverse_cons, List.map_append, List.map_singleton] at hlong
    have hlast := congrArg List.getLast? (helement.symm.trans hlong)
    rw [List.getLast?_singleton, List.getLast?_concat, Option.some_inj] at hlast
    rw [hlast] at hinitial
    exact h.not_shortName d' hinitial

/-- A record of a misread volume label is none of the next child. -/
theorem NamedEntry.misread_label {d dentry : FatDentry} (h : NamedEntry d)
    (hlabel : d.isLabel = true) (hwf : ∀ item ∈ items, item.WellFormed) {behind : List FatDentry}
    {child : ChildEntry} {children : List ChildEntry} (hchildren : childrenOf items = child :: children)
    {r : Record} (hchild : RecordedChild child r) {n : ℕ}
    (hdentry : (d :: (items.flatMap TableItem.live ++ behind))[n]? = some dentry)
    (hmisread : RecordedChild ⟨dentry, .long
      (((d :: (items.flatMap TableItem.live ++ behind)).take n).reverse.map lfnUnits)⟩ r) :
    False := by
  obtain ⟨quiet, item, others, rfl, hquiet, hitem, -⟩ := List.filterMap_eq_cons_iff.mp hchildren
  -- the entries in front of the child's own item are volume labels
  have hlabels : ∀ e ∈ d :: quiet.flatMap TableItem.live, e.isLabel = true := by
    intro e he
    rcases List.mem_cons.mp he with rfl | hmem
    · exact hlabel
    · obtain ⟨q, hq, hin⟩ := List.mem_flatMap.mp hmem
      have hnone := hquiet q hq
      have hwfq := hwf q (by simp [hq])
      cases q with
      | deleted _ => exact absurd hin List.not_mem_nil
      | dot _ => exact absurd hin List.not_mem_nil
      | label d' =>
        rw [List.mem_singleton.mp hin]
        exact hwfq.2.1
      | run _ _ => exact absurd hnone (by simp [TableItem.child])
      | plain _ => exact absurd hnone (by simp [TableItem.child])
  have hwfItem := hwf item (by simp)
  cases item with
  | deleted _ => exact absurd hitem (by simp [TableItem.child])
  | dot _ => exact absurd hitem (by simp [TableItem.child])
  | label _ => exact absurd hitem (by simp [TableItem.child])
  | plain d' =>
    rw [TableItem.child, Option.some_inj] at hitem
    exact h.misread_short (by rw [← hitem]) hchild hmisread
  | run parts d' =>
    obtain ⟨hrun, -, hfile⟩ := hwfItem
    rw [TableItem.child, Option.some_inj] at hitem
    subst hitem
    -- as many parts, so the misread entry is no later than the last part
    obtain ⟨hlt, hget⟩ := List.getElem?_eq_some_iff.mp hdentry
    have hlengths := congrArg List.length ((show r.name = _ from hmisread.2).symm.trans
      (show r.name = parts.reverse.map lfnUnits from hchild.2))
    rw [List.length_map, List.length_reverse, List.length_take, Nat.min_eq_left hlt.le,
      List.length_map, List.length_reverse] at hlengths
    have hsplit : d :: ((quiet ++ TableItem.run parts d' :: others).flatMap TableItem.live ++
        behind) = (d :: (quiet.flatMap TableItem.live ++ parts)) ++
          (d' :: (others.flatMap TableItem.live ++ behind)) := by
      simp [TableItem.live]
    have hmem : dentry ∈ d :: (quiet.flatMap TableItem.live ++ parts) := by
      rw [hsplit, List.getElem?_append_left (by simp; omega)] at hdentry
      exact List.mem_of_getElem? hdentry
    have hisLabel : dentry.isLabel = true := by
      rw [← List.cons_append, List.mem_append] at hmem
      rcases hmem with hin | hin
      · exact hlabels dentry hin
      · obtain ⟨i, hi, rfl⟩ := List.getElem_of_mem hin
        exact (hrun.part hi).2.2.2.1
    have hsame : dentry = d' := hmisread.1.symm.trans hchild.1
    rw [hsame, hfile] at hisLabel
    exact absurd hisLabel (by decide)

/-- The record of a misread entry stands where the grammar has its next child. -/
theorem Walks.clash {d : FatDentry} (h : Walks (d :: rest) cs) (hnamed : NamedEntry d)
    (hlfn : isLfn d = true) {records : List Record}
    (hcs : List.Forall₂ RecordedChild cs records) {expected : List ChildEntry}
    (hrecords : List.Forall₂ RecordedChild expected records) :
    ∃ child children r dentry, expected = child :: children ∧ RecordedChild child r ∧
      (d :: rest)[lfnEntrySequenceNo d]? = some dentry ∧
      RecordedChild ⟨dentry, .long
        (((d :: rest).take (lfnEntrySequenceNo d)).reverse.map lfnUnits)⟩ r := by
  obtain ⟨dentry, others, hdentry, rfl⟩ := h.misread hnamed hlfn
  cases hcs with
  | cons hfirst _ =>
    cases hrecords with
    | cons hchild _ => exact ⟨_, _, _, dentry, rfl, hchild, hdentry, hfirst⟩

/-- Records that agree with the walk and with the grammar show that no item was misread. -/
theorem readable_of_recorded (hwf : ∀ item ∈ items, item.WellFormed)
    (hwalk : Walks (items.flatMap TableItem.live ++ rest) cs) {records : List Record}
    (hcs : List.Forall₂ RecordedChild cs records)
    (hrecords : List.Forall₂ RecordedChild (childrenOf items) records) :
    ∀ item ∈ items, item.readable = true := by
  induction items generalizing cs records with
  | nil => simp
  | cons item items ih =>
    have hitem := hwf item (by simp)
    have hitems : ∀ i ∈ items, i.WellFormed := fun i hi => hwf i (by simp [hi])
    rw [List.flatMap_cons, List.append_assoc] at hwalk
    by_cases hreadable : item.readable = true
    · rw [childrenOf_cons] at hrecords
      have hrest : ∀ i ∈ items, i.readable = true := by
        rcases TableItem.next hitem hreadable (items.flatMap TableItem.live ++ rest) with
          ⟨hchild, hlive⟩ | ⟨child, hchild, hmore, hnext⟩
        · rw [hlive] at hwalk
          rw [hchild] at hrecords
          exact ih hitems hwalk hcs hrecords
        · rw [hchild] at hrecords
          cases hwalk with
          | done hend => exact absurd hend (by simp [hmore])
          | step _ hnext' hbehind =>
            rw [hnext, Option.some.injEq, Prod.mk.injEq] at hnext'
            obtain ⟨-, rfl⟩ := hnext'
            cases hcs with
            | cons _ hothers =>
              cases hrecords with
              | cons _ hothers' => exact ih hitems hbehind hothers hothers'
      intro i hi
      rcases List.mem_cons.mp hi with rfl | hmem
      · exact hreadable
      · exact hrest i hmem
    · exfalso
      cases item with
      | deleted _ => exact hreadable rfl
      | dot _ => exact hreadable rfl
      | run _ _ => exact hreadable rfl
      | label d =>
        obtain ⟨child, children, r, dentry, hchildren, hchild, hdentry, hmisread⟩ :=
          Walks.clash hwalk hitem.1 (isLfn_of_isLabel hitem.2.1) hcs hrecords
        exact hitem.1.misread_label hitem.2.1 hitems hchildren hchild hdentry hmisread
      | plain d =>
        have hlfn : isLfn d = true := by simpa [TableItem.readable] using hreadable
        obtain ⟨child, children, r, dentry, hchildren, hchild, -, hmisread⟩ :=
          Walks.clash hwalk hitem.1 hlfn hcs hrecords
        rw [childrenOf_cons, TableItem.child, Option.toList_some, List.singleton_append,
          List.cons.injEq] at hchildren
        exact hitem.1.misread_short (by rw [← hchildren.1]) hchild hmisread

/-- A directory of items is recorded as the grammar has it exactly if no item is misread. -/
theorem recordsTable_iff {table : List FatDentry} (hitems : TableOfItems items table) {g : Globals}
    {m₀ m m' : Mem} {blocked : List FatExtent} {forest : Forest FatNode}
    (hforest : Describes g m' (liveEntries table) forest) {records : Forest Record}
    (hrecords : Forest.Rel (Records g m₀ blocked m) forest records) :
    RecordsTable items records ↔ ReadableTable items := by
  obtain ⟨behind, hlive, hend⟩ := hitems.live
  have hwalk := hforest.walks
  have hcount := records.length_top
  rw [hlive] at hwalk
  have htop : List.Forall₂ RecordedChild (forest.top.map FatNode.entry) records.top := by
    rw [List.forall₂_map_left_iff]
    exact hrecords.top.imp fun _ _ h => ⟨h.dentry, h.name⟩
  constructor
  · intro h
    refine ⟨readable_of_recorded hitems.wellFormed hwalk htop h.2, ?_⟩
    rw [← h.1]
    exact u32_lt _
  · intro h
    have hsame := hwalk.unique (walks_of_readable hitems.wellFormed h.1 hend)
    rw [hsame] at htop
    refine ⟨?_, htop⟩
    rw [← hcount, ← htop.length_eq, u32_of_lt h.2]

end Walk

/-- The tree below a directory as the grammar has it; every table is readable. -/
inductive ReadableTree (g : Globals) (m : Mem) : List ChildEntry → Forest FatNode → Prop where
  | nil : ReadableTree g m [] .nil
  | file {node : FatNode} {children : List ChildEntry} {rest : Forest FatNode}
      (hfile : isDir node.entry.dentry = false)
      (hchain : IsChain g m (fileClusterNo node.entry.dentry) node.chain)
      (hrest : ReadableTree g m children rest) :
      ReadableTree g m (node.entry :: children) (.file node rest)
  | dir {node : FatNode} {children : List ChildEntry} {items : List TableItem}
      {below rest : Forest FatNode} (hdir : isDir node.entry.dentry = true)
      (hchain : IsChain g m (fileClusterNo node.entry.dentry) node.chain)
      (hitems : TableOfItems items (tableOf g m node.chain))
      (hreadable : ∀ item ∈ items, item.readable = true)
      (hbelow : ReadableTree g m (childrenOf items) below)
      (hrest : ReadableTree g m children rest) :
      ReadableTree g m (node.entry :: children) (.dir node below rest)

/-- On readable tables the walk finds the tree that the grammar has. -/
theorem ReadableTree.describes {g : Globals} {m : Mem} {children : List ChildEntry}
    {forest : Forest FatNode} (h : ReadableTree g m children forest)
    {entries : List FatDentry} (hwalk : Walks entries children) :
    Describes g m entries forest := by
  induction h generalizing entries with
  | nil =>
    cases hwalk with
    | done hend => exact hend
  | file hfile hchain _ ih =>
    cases hwalk with
    | step hmore hnext hrest => exact ⟨hmore, hfile, hchain, _, hnext, ih hrest⟩
  | dir hdir hchain hitems hreadable _ _ ihBelow ih =>
    cases hwalk with
    | step hmore hnext hrest =>
      obtain ⟨behind, hlive, hend⟩ := hitems.live
      refine ⟨hmore, hdir, hchain, ihBelow ?_, _, hnext, ih hrest⟩
      rw [hlive]
      exact walks_of_readable hitems.wellFormed hreadable hend

/-- A volume as the grammar of directories has it: every table is readable, and the chains are
pairwise disjoint. -/
structure ReadableVolume (g : Globals) (m : Mem) (rootChain : List ℕ) (forest : Forest FatNode) :
    Prop where
  root : IsChain g m g.bootSector.rootClusterNo.toNat rootChain
  tree : ∃ items, TableOfItems items (tableOf g m rootChain) ∧
    (∀ item ∈ items, item.readable = true) ∧ ReadableTree g m (childrenOf items) forest
  disjoint : (rootChain ++ forest.toList.flatMap FatNode.chain).Nodup

/-- The walk finds that volume. -/
theorem ReadableVolume.isVolume {g : Globals} {m : Mem} {rootChain : List ℕ}
    {forest : Forest FatNode} (h : ReadableVolume g m rootChain forest) :
    IsVolume g m rootChain forest := by
  obtain ⟨items, hitems, hreadable, htree⟩ := h.tree
  obtain ⟨behind, hlive, hend⟩ := hitems.live
  refine ⟨h.root, ?_, h.disjoint⟩
  rw [hlive]
  exact htree.describes (walks_of_readable hitems.wellFormed hreadable hend)

/-- A directory of the volume, well formed as a table, is recorded as the grammar has it exactly if
the walk misreads none of its items and their children can be counted. -/
theorem readingPhase_tables_iff (g : Globals) (hg : Accepted g) (m : Mem) (rootChain : List ℕ)
    (forest : Forest FatNode) (hv : IsVolume g m rootChain forest) (fuel : ℕ) :
    wp (readingPhase g fuel)
      (fun streams t => ∃ (pages : List ℕ) (rootExtents : List FatExtent) (records : Forest Record),
        Reader g pages ⟨0, sizeofPage⟩ ⟨0, sizeofPage + sizeofHeader⟩ 0 streams.1 ∧
        StreamAt g pages t.mem ∧
        HoldsSegments g pages t.mem ⟨0, sizeofPage⟩
          (rootExtents.map fatExtentBytes :: dirSegments records) ∧
        (∀ items, TableOfItems items (tableOf g m rootChain) →
          (RecordsTable items records ↔ ReadableTable items)) ∧
        List.Forall₂ (fun (d : FatNode × Forest FatNode) (e : Record × Forest Record) =>
            ∀ items, TableOfItems items (tableOf g m d.1.chain) →
              (RecordsTable items e.2 ↔ ReadableTable items))
          forest.directories records.directories)
      NoFault { mem := m } := by
  refine wp_mono_ok (readingPhase_spec hg rfl hv fuel) ?_
  intro streams t ht
  obtain ⟨-, pages, rootExtents, records, h⟩ := ht
  refine ⟨pages, rootExtents, records, h.reader, h.stream, h.holds, ?_, ?_⟩
  · exact fun items hitems => recordsTable_iff hitems hv.children h.children
  · refine forall₂_imp_of_mem h.children.directories fun d e hd _ hde items hitems => ?_
    exact recordsTable_iff hitems (hv.children.directories d hd) hde.2

/-- The walk over the volume with one file. -/
theorem readingPhase_tables_sample :
    wp (readingPhase (sampleGlobals 400) 100)
      (fun streams t => ∃ (pages : List ℕ) (rootExtents : List FatExtent) (records : Forest Record),
        Reader (sampleGlobals 400) pages ⟨0, sizeofPage⟩ ⟨0, sizeofPage + sizeofHeader⟩ 0
          streams.1 ∧
        StreamAt (sampleGlobals 400) pages t.mem ∧
        HoldsSegments (sampleGlobals 400) pages t.mem ⟨0, sizeofPage⟩
          (rootExtents.map fatExtentBytes :: dirSegments records) ∧
        (∀ items, TableOfItems items (tableOf (sampleGlobals 400) sampleVolume [2]) →
          (RecordsTable items records ↔ ReadableTable items)) ∧
        List.Forall₂ (fun (d : FatNode × Forest FatNode) (e : Record × Forest Record) =>
            ∀ items, TableOfItems items (tableOf (sampleGlobals 400) sampleVolume d.1.chain) →
              (RecordsTable items e.2 ↔ ReadableTable items))
          sampleForest.directories records.directories)
      NoFault { mem := sampleVolume } :=
  readingPhase_tables_iff (sampleGlobals 400) accepted_sample_400 sampleVolume [2] _
    isVolume_sample 100

/-- The entry of a read-only file README.TXT without a long name. -/
def readOnlyEntry : FatDentry :=
  [0x52, 0x45, 0x41, 0x44, 0x4D, 0x45, 0x20, 0x20, 0x54, 0x58, 0x54, 0x01, 0, 0, 0, 0,
    0, 0, 0, 0, 0, 0, 0, 0, 0, 0, 3, 0, 5, 0, 0, 0]

/-- A volume of 200 blocks with that file in its root directory. -/
def readOnlyVolume : Mem :=
  (Mem.write (fun _ => 0) 81928 [0xFF, 0xFF, 0xFF, 0x0F, 0xFF, 0xFF, 0xFF, 0x0F]).write 149504
    readOnlyEntry

/-- The table of the root directory with a read-only file. -/
theorem tableOf_readOnlyVolume : tableOf (sampleGlobals 400) readOnlyVolume [2] =
    readOnlyEntry :: List.replicate 31 (List.replicate 32 0) := by decide +kernel

/-- The root directory is well formed, with one file. -/
theorem tableOfItems_readOnlyVolume :
    TableOfItems [.plain readOnlyEntry] (tableOf (sampleGlobals 400) readOnlyVolume [2]) := by
  refine ⟨?_, List.replicate 31 (List.replicate 32 0), tableOf_readOnlyVolume, by decide⟩
  intro item hitem
  rw [List.mem_singleton.mp hitem]
  exact ⟨⟨by decide, by decide⟩, by decide⟩

/-- 'R' has the number 18, so the walk takes the file for an 18-part name of the 0 entry behind. -/
theorem isVolume_readOnlyVolume : IsVolume (sampleGlobals 400) readOnlyVolume [2]
    (.file ⟨⟨List.replicate 32 0, .long (((readOnlyEntry ::
      List.replicate 17 (List.replicate 32 0))).reverse.map lfnUnits)⟩, []⟩ .nil) := by
  have hroot : fatEntry (sampleGlobals 400).metaInfo readOnlyVolume 2 = 0x0FFFFFFF := by
    decide +kernel
  have hlast : ChainFrom (sampleGlobals 400) readOnlyVolume 0x0FFFFFFF [] :=
    show fatEndOfChain ≤ 0x0FFFFFFF by decide
  have hlive : liveEntries (tableOf (sampleGlobals 400) readOnlyVolume [2]) =
      readOnlyEntry :: List.replicate 31 (List.replicate 32 0) := by
    rw [tableOf_readOnlyVolume]
    decide
  refine ⟨Or.inr ⟨by simp, rfl, by decide, by decide, ?_, hroot ▸ hlast⟩, ?_, by decide⟩
  · rw [hroot]
    decide
  · rw [hlive]
    exact ⟨by decide, by decide, Or.inl ⟨by decide, rfl⟩, List.replicate 13 (List.replicate 32 0),
      by decide, show tableEnds _ = true by decide⟩

/-- The phase returns with a record of the root directory that is not its one file. -/
theorem not_recordsTable_readOnlyVolume :
    ∃ streams t pages, ∃ (rootExtents : List FatExtent) (records : Forest Record),
      readingPhase (sampleGlobals 400) 100 { mem := readOnlyVolume } = .ok streams t ∧
      Reader (sampleGlobals 400) pages ⟨0, sizeofPage⟩ ⟨0, sizeofPage + sizeofHeader⟩ 0
        streams.1 ∧
      StreamAt (sampleGlobals 400) pages t.mem ∧
      HoldsSegments (sampleGlobals 400) pages t.mem ⟨0, sizeofPage⟩
        (rootExtents.map fatExtentBytes :: dirSegments records) ∧
      TableOfItems [.plain readOnlyEntry] (tableOf (sampleGlobals 400) readOnlyVolume [2]) ∧
      ¬ RecordsTable [.plain readOnlyEntry] records := by
  have hreturns : returns (readingPhase (sampleGlobals 400) 100) { mem := readOnlyVolume } =
      true := by decide +kernel
  obtain ⟨streams, t, hrun, -, pages, rootExtents, records, h⟩ := exists_of_returns
    (readingPhase_spec accepted_sample_400 rfl isVolume_readOnlyVolume 100) hreturns
  refine ⟨streams, t, pages, rootExtents, records, hrun, h.reader, h.stream, h.holds,
    tableOfItems_readOnlyVolume, ?_⟩
  rw [recordsTable_iff tableOfItems_readOnlyVolume isVolume_readOnlyVolume.children h.children]
  intro hreadable
  exact absurd (hreadable.1 _ (List.mem_singleton.mpr rfl)) (by decide)

end OfsConvert
