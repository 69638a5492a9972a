import SqlEngine.Opened
/-!
# Legacy — the v1 decoder of the migration tool

`read_legacy` of `sql_migrate_v1.cpp` takes whole files apart and is stricter than the table constructor, which reads
record by record.  On the files it accepts the two find the same table, and the v2 image of that table holds it
(`readLegacy_preserved`).
-/
namespace Sql
namespace Storage

open Wire Effects

structure LegacyTable where
  fields : List Bytes
  rows : List (List Bytes)

def readBytes (files : Files) (path : String) : Except StorageError Bytes :=
  match files path with
  | none => .error (.runtimeError ("Unable to open v1 file read-only: " ++ path))
  | some bytes => .ok bytes

def decodeSlot (context : String) (slot : Bytes) : Except StorageError Bytes := do
  throwIf (∃ b ∈ slot.dropWhile (· ≠ 0), b ≠ 0) (.runtimeError (context ++ " has non-zero bytes after its terminator"))
  pure (truncated slot)

/-- The loop over the names, with those that came before. -/
def decodeNames : List Bytes → List Bytes → Except StorageError (List Bytes)
  | _, [] => .ok []
  | unique, slot :: slots => do
    let name ← decodeSlot "V1 field name" slot
    throwIf (name = [] ∨ name ∈ unique) (.runtimeError "V1 schema contains empty or duplicate fields")
    let names ← decodeNames (name :: unique) slots
    pure (name :: names)

/-- The field metadata. -/
def decodeFields (schema : Bytes) : Except StorageError (List Bytes) := do
  throwIf (schema.length < slotSize ∨ schema.length % slotSize ≠ 0) (.runtimeError "V1 field metadata size is invalid")
  let countText ← decodeSlot "V1 field count" (block slotSize schema 0)
  throwIf (countText = [] ∨ countText.all isDigit = false) (.runtimeError "V1 field count is invalid")
  match stoul countText with
  | none => .error (.outOfRange "stoull")
  | some (rawCount, parsed) =>
    throwIf (parsed ≠ countText.length ∨ rawCount = 0 ∨ rawCount > maxFields) (.runtimeError "V1 field count is invalid")
    throwIf (schema.length ≠ (rawCount + 1) * slotSize) (.runtimeError "V1 field metadata size is invalid")
    decodeNames [] ((List.range rawCount).map (fun field => block slotSize schema (field + 1)))

/-- The values of one row, by the number of its first slot. -/
def decodeRow (rowBytes : Bytes) (fieldCount row : Nat) : Except StorageError (List Bytes) :=
  (List.range fieldCount).mapM (fun field => decodeSlot "V1 row value" (block slotSize rowBytes (row * fieldCount + field)))

def decodeRows (rowBytes : Bytes) (fieldCount : Nat) : Except StorageError (List (List Bytes)) := do
  throwIf (fieldCount > (2 ^ 64 - 1) / slotSize) (.runtimeError "V1 row width overflows this build")
  throwIf (rowBytes.length % (fieldCount * slotSize) ≠ 0) (.runtimeError "V1 record file contains a partial row")
  (List.range (rowBytes.length / (fieldCount * slotSize))).mapM (decodeRow rowBytes fieldCount)

def readLegacy (source : Bytes) (files : Files) : Except StorageError LegacyTable := do
  let schema ← readBytes files (Table.fieldFile source)
  let fields ← decodeFields schema
  let rowBytes ← readBytes files (Table.tableFile source)
  let rows ← decodeRows rowBytes fields.length
  pure ⟨fields, rows⟩

/-! ## Slots -/

theorem readBytes_ok {files : Files} {path : String} {bytes : Bytes} :
    readBytes files path = .ok bytes ↔ files path = some bytes := by
  unfold readBytes
  cases files path with
  | none => simp
  | some found => simp

/-- What a padded slot holds, the other decoder finds too. -/
theorem decodeSlot_ok {context : String} {slot value : Bytes} (h : decodeSlot context slot = .ok value) :
    value = truncated slot := by
  unfold decodeSlot at h
  obtain ⟨_, -, h⟩ := except_bind_ok.1 h
  exact (Except.ok.inj h).symm

theorem length_truncated_le {slot : Bytes} (h : slot.length ≤ slotSize) : (truncated slot).length ≤ maxValueLength :=
  Nat.le_trans (List.takeWhile_prefix _).length_le h

theorem length_block_le (k : Nat) (bytes : Bytes) (i : Nat) : (block k bytes i).length ≤ k := List.length_take_le _ _

/-- The values in consecutive slots, from slot `first` on. -/
def slots (bytes : Bytes) (first count : Nat) : List Bytes :=
  (List.range count).map (fun i => truncated (block slotSize bytes (first + i)))

@[simp] theorem length_slots (bytes : Bytes) (first count : Nat) : (slots bytes first count).length = count := by
  simp [slots]

theorem slots_succ (bytes : Bytes) (first count : Nat) : slots bytes first (count + 1) =
    truncated (block slotSize bytes first) :: slots bytes (first + 1) count := by
  rw [slots, List.range_succ_eq_map, List.map_cons, List.map_map, Nat.add_zero, slots]
  congr 1
  apply List.map_congr_left
  intro i _
  rw [Function.comp_apply, Nat.add_assoc, Nat.add_comm 1 i]

theorem length_slots_le {bytes : Bytes} {first count : Nat} :
    ∀ v ∈ slots bytes first count, v.length ≤ maxValueLength := by
  intro v hv
  obtain ⟨i, -, rfl⟩ := List.mem_map.1 hv
  exact length_truncated_le (length_block_le slotSize bytes (first + i))

/-- **Reading a record** slot by slot, where the file is long enough. -/
theorem readValues_slots (file : Bytes) : ∀ (count first : Nat), (first + count) * slotSize ≤ file.length →
    readValues count (file.drop (first * slotSize)) = .ok (slots file first count)
  | 0, _, _ => rfl
  | count + 1, first, h => by
    have hsize : slotSize = 100 := rfl
    have hfull : ((file.drop (first * slotSize)).take slotSize).length = slotSize := by
      rw [List.length_take, List.length_drop, hsize]
      rw [hsize] at h
      omega
    rw [readValues, throwIf_neg (not_not.2 hfull), List.drop_drop, ← Nat.succ_mul, slots_succ]
    exact congrArg (fun x => x >>= fun values => Except.ok (truncated (block slotSize file first) :: values))
      (readValues_slots file count (first + 1) (by rwa [Nat.add_right_comm]))

theorem readRecord_slots {file : Bytes} {count recno : Nat} (hpos : 0 < count)
    (h : (recno + 1) * count * slotSize ≤ file.length) :
    readRecord count recno file = .ok (some (slots file (recno * count) count)) := by
  have hoffset : recno * slotSize * count = recno * count * slotSize := Nat.mul_right_comm _ _ _
  have hend : (recno + 1) * count * slotSize = recno * count * slotSize + count * slotSize := by ring
  have hwidth : 0 < count * slotSize := Nat.mul_pos hpos (by decide)
  have hmore : file.drop (recno * count * slotSize) ≠ [] := by
    rw [Ne, List.drop_eq_nil_iff]
    omega
  unfold readRecord
  rw [throwIf_neg (Nat.ne_of_gt hpos), hoffset]
  simp only [hmore, if_false]
  rw [readValues_slots file count (recno * count) (by rw [Nat.add_mul]; omega)]
  rfl

theorem readRecord_end {file : Bytes} {count recno : Nat} (hpos : 0 < count)
    (h : file.length ≤ recno * (count * slotSize)) : readRecord count recno file = .ok none := by
  have hoffset : recno * slotSize * count = recno * (count * slotSize) := by ring
  unfold readRecord
  rw [throwIf_neg (Nat.ne_of_gt hpos), hoffset]
  simp only [List.drop_eq_nil_iff.2 h, if_true]
  rfl

/-! ## Two decoders, one table -/

/-- The names are different and none is empty. -/
theorem decodeNames_ok : ∀ {slots unique names : List Bytes}, decodeNames unique slots = .ok names →
    names = slots.map truncated ∧ names.Nodup ∧ [] ∉ names ∧ ∀ name ∈ names, name ∉ unique
  | [], unique, names, h => by
    obtain rfl := Except.ok.inj h
    simp
  | slot :: slots, unique, names, h => by
    rw [decodeNames] at h
    obtain ⟨name, hname, h1⟩ := except_bind_ok.1 h
    obtain ⟨_, hcheck, h2⟩ := except_bind_ok.1 h1
    obtain ⟨rest, hrest, h3⟩ := except_bind_ok.1 h2
    obtain rfl := Except.ok.inj h3
    obtain ⟨hne, hnew⟩ := not_or.1 (throwIf_ok.1 hcheck)
    obtain ⟨rfl, hnodup, hempty, hold⟩ := decodeNames_ok hrest
    obtain rfl := decodeSlot_ok hname
    refine ⟨rfl, List.nodup_cons.2 ⟨fun hmem => hold _ hmem List.mem_cons_self, hnodup⟩, ?_, fun other hother => ?_⟩
    · rw [List.mem_cons, not_or]
      exact ⟨Ne.symm hne, hempty⟩
    · rcases List.mem_cons.1 hother with rfl | hother
      · exact hnew
      · exact fun hmem => hold other hother (List.mem_cons_of_mem _ hmem)

theorem decodeRow_ok {rowBytes : Bytes} {fieldCount row : Nat} {values : List Bytes}
    (h : decodeRow rowBytes fieldCount row = .ok values) : values = slots rowBytes (row * fieldCount) fieldCount := by
  rw [slots]
  exact except_mapM_eq (fun _ _ hv => decodeSlot_ok hv) h

theorem decodeRows_ok {rowBytes : Bytes} {fieldCount : Nat} {rows : List (List Bytes)}
    (h : decodeRows rowBytes fieldCount = .ok rows) : rowBytes.length % (fieldCount * slotSize) = 0 ∧
      rows = (List.range (rowBytes.length / (fieldCount * slotSize))).map
        (fun row => slots rowBytes (row * fieldCount) fieldCount) := by
  unfold decodeRows at h
  obtain ⟨_, -, h1⟩ := except_bind_ok.1 h
  obtain ⟨_, hpartial, h2⟩ := except_bind_ok.1 h1
  refine ⟨by simpa using throwIf_ok.1 hpartial, ?_⟩
  exact except_mapM_eq (fun _ _ hv => decodeRow_ok hv) h2

/-- **The field metadata** that the tool accepts, the constructor reads alike. -/
theorem decodeFields_ok {schema : Bytes} {fields : List Bytes} (h : decodeFields schema = .ok fields) :
    FieldsOk fields ∧ ∀ tableName, Table.loadFields tableName schema = .ok fields := by
  unfold decodeFields at h
  obtain ⟨_, hsize, h1⟩ := except_bind_ok.1 h
  obtain ⟨countText, hcount, h2⟩ := except_bind_ok.1 h1
  obtain ⟨_, -, h3⟩ := except_bind_ok.1 h2
  obtain rfl := decodeSlot_ok hcount
  cases hstoul : stoul (truncated (block slotSize schema 0)) with
  | none =>
    rw [hstoul] at h3
    cases h3
  | some pair =>
    obtain ⟨rawCount, parsed⟩ := pair
    rw [hstoul] at h3
    obtain ⟨_, hraw, h4⟩ := except_bind_ok.1 h3
    obtain ⟨_, hlen, h5⟩ := except_bind_ok.1 h4
    obtain ⟨hnames, hnodup, hempty, -⟩ := decodeNames_ok h5
    have hraw' := throwIf_ok.1 hraw
    have hlen' : schema.length = (rawCount + 1) * slotSize := by simpa using throwIf_ok.1 hlen
    have hfields : fields = slots schema 1 rawCount := by
      rw [hnames, List.map_map, slots]
      apply List.map_congr_left
      intro i _
      rw [Function.comp_apply, Nat.add_comm]
    have hlength : fields.length = rawCount := by rw [hfields, length_slots]
    refine ⟨⟨by omega, by omega, fun f hf => length_slots_le f (hfields ▸ hf), hempty, hnodup⟩, fun tableName => ?_⟩
    have hfirst : readRecord 1 0 schema = .ok (some [truncated (block slotSize schema 0)]) :=
      readRecord_slots (by decide) (by rw [hlen']; exact Nat.mul_le_mul_right _ (by omega))
    have hrecord : readRecord (rawCount + 1) 0 schema =
        .ok (some (truncated (block slotSize schema 0) :: slots schema 1 rawCount)) := by
      rw [readRecord_slots (Nat.succ_pos rawCount) (by rw [hlen', Nat.zero_add, Nat.one_mul]), Nat.zero_mul, slots_succ]
    have hcount' : ¬ (parsed ≠ (truncated (block slotSize schema 0)).length ∨ rawCount < 1 ∨ rawCount > maxFields) := by
      omega
    have hsize' : ¬ schema.length ≠ slotSize * (rawCount + 1) := by
      rw [hlen', Nat.mul_comm]
      exact not_not.2 rfl
    rw [← hfields] at hrecord
    unfold Table.loadFields
    refine except_bind_ok.2 ⟨_, hfirst, ?_⟩
    simp only [List.headD_cons, hstoul]
    refine except_bind_ok.2 ⟨(), throwIf_ok.2 hcount', except_bind_ok.2 ⟨(), throwIf_ok.2 hsize', ?_⟩⟩
    exact except_bind_ok.2 ⟨_, hrecord, except_bind_ok.2 ⟨(), throwIf_ok.2 (not_or.2 ⟨not_not.2 hnodup, hempty⟩), rfl⟩⟩

/-- **The records** from one on, as many as the file has. -/
theorem loadRecords_slots {file : Bytes} {fieldCount : Nat} (hpos : 0 < fieldCount) :
    ∀ (count index : Nat) (table : Table), file.length = (index + count) * (fieldCount * slotSize) →
      Table.loadRecords fieldCount file index table = .ok (table.addRecords index
        ((List.range' index count).map (fun row => slots file (row * fieldCount) fieldCount)))
  | 0, index, table, h => by
    rw [Nat.add_zero] at h
    rw [loadRecords_eq, readRecord_end hpos (Nat.le_of_eq h)]
    rfl
  | count + 1, index, table, h => by
    have hread : readRecord fieldCount index file = .ok (some (slots file (index * fieldCount) fieldCount)) := by
      apply readRecord_slots hpos
      rw [h, Nat.mul_assoc]
      exact Nat.mul_le_mul_right _ (by omega)
    rw [loadRecords_eq, hread, List.range'_succ, List.map_cons, Table.addRecords]
    exact loadRecords_slots hpos count (index + 1) _ (by rw [h]; ring)

theorem openV1_legacy {tableName schema rowBytes : Bytes} {fields : List Bytes} {rows : List (List Bytes)}
    (hfields : decodeFields schema = .ok fields) (hrows : decodeRows rowBytes fields.length = .ok rows) :
    Table.openV1 tableName schema rowBytes = .ok (Table.filled tableName fields rows) := by
  obtain ⟨hok, hload⟩ := decodeFields_ok hfields
  obtain ⟨hwhole, rfl⟩ := decodeRows_ok hrows
  have hlen := Nat.div_add_mod' rowBytes.length (fields.length * slotSize)
  unfold Table.openV1
  rw [hload tableName]
  simp only [bind, Except.bind]
  rw [throwIf_neg (by rw [Nat.mul_comm]; exact not_not.2 hwhole)]
  simp only
  rw [loadRecords_slots hok.pos (rowBytes.length / (fields.length * slotSize)) 0 _ (by rw [Nat.zero_add]; omega),
    ← List.range_eq_range']
  rfl

theorem readLegacy_ok {source : Bytes} {files : Files} {legacy : LegacyTable} (h : readLegacy source files = .ok legacy) :
    ∃ schema rowBytes, files (Table.fieldFile source) = some schema ∧ files (Table.tableFile source) = some rowBytes ∧
      decodeFields schema = .ok legacy.fields ∧ decodeRows rowBytes legacy.fields.length = .ok legacy.rows := by
  unfold readLegacy at h
  obtain ⟨schema, hschema, h1⟩ := except_bind_ok.1 h
  obtain ⟨fields, hfields, h2⟩ := except_bind_ok.1 h1
  obtain ⟨rowBytes, hbytes, h3⟩ := except_bind_ok.1 h2
  obtain ⟨rows, hrows, h4⟩ := except_bind_ok.1 h3
  obtain rfl := Except.ok.inj h4
  exact ⟨schema, rowBytes, readBytes_ok.1 hschema, readBytes_ok.1 hbytes, hfields, hrows⟩

/-- What the tool accepts, the v2 encoder accepts. -/
theorem readLegacy_schema {source : Bytes} {files : Files} {legacy : LegacyTable}
    (h : readLegacy source files = .ok legacy) : validateSchema legacy.fields legacy.rows = .ok () := by
  obtain ⟨schema, rowBytes, -, -, hfields, hrows⟩ := readLegacy_ok h
  refine validateSchema_ok.2 ⟨(decodeFields_ok hfields).1, fun row hrow => ?_⟩
  rw [(decodeRows_ok hrows).2] at hrow
  obtain ⟨i, -, rfl⟩ := List.mem_map.1 hrow
  exact ⟨length_slots _ _ _, length_slots_le⟩

/-! ## The image of a legacy table -/

theorem buildImage_ok {fields : List Bytes} {rows : List (List Bytes)} (hv : validateSchema fields rows = .ok ()) :
    ∃ image, buildImage fields rows 1 = .ok image := by
  obtain ⟨pages, L, hrun, hs, -⟩ := buildPages_spec hv 1
  exact ⟨imageOf pages, except_bind_ok.2 ⟨pages, hrun, encodePages_ok hs⟩⟩

/-- The table constructor finds what `read_legacy` found. -/
theorem load_legacy {source : Bytes} {files : Files} {legacy : LegacyTable} (h : readLegacy source files = .ok legacy)
    (hnone : files (Table.databasePath source) = none) :
    Table.load source files = ⟨[], .ok (Table.filled source legacy.fields legacy.rows)⟩ := by
  obtain ⟨schema, rowBytes, hschema, hbytes, hfields, hrows⟩ := readLegacy_ok h
  unfold Table.load
  rw [observe_bind]
  simp only [id, hnone, hschema, hbytes, Option.isSome_none, reduceCtorEq, false_and, and_false, or_false,
    Bool.false_eq_true, if_false]
  rw [openV1_legacy hfields hrows]
  rfl

/-- **Migration preserves the table**: as long as there is no v2 file, the table constructor finds in the files what
`read_legacy` found, and the image of it that the page buffer takes parses to the same fields and rows. -/
theorem readLegacy_preserved {source : Bytes} {files : Files} {legacy : LegacyTable}
    (h : readLegacy source files = .ok legacy) :
    (files (Table.databasePath source) = none → ∃ table, Table.load source files = ⟨[], .ok table⟩ ∧
      table.fieldNames = legacy.fields ∧ table.storedRows = legacy.rows ∧
      table = Table.filled source legacy.fields legacy.rows) ∧
    ∃ image, buildImage legacy.fields legacy.rows 1 = .ok image ∧
      ∀ buffer, PageBuffer.make image ∅ = .ok buffer → ∀ walPresent, ∃ P, parseImage image walPresent = .ok P ∧
        P.table.fields = legacy.fields ∧ P.table.rows = legacy.rows := by
  constructor
  · intro hnone
    have hshows := (filled_shows source legacy.fields legacy.rows).1
    exact ⟨_, load_legacy h hnone, hshows.fields_eq, hshows.rows_eq, rfl⟩
  · obtain ⟨image, himage⟩ := buildImage_ok (readLegacy_schema h)
    refine ⟨image, himage, fun buffer hbuffer walPresent => ?_⟩
    obtain ⟨P, hP, hholds⟩ := (buildImage_buffer himage hbuffer).parse walPresent
    exact ⟨P, hP, hholds.fields_eq, hholds.rows_eq⟩

/-- A value in its slot. -/
def slotOf (value : Bytes) : Bytes := value ++ List.replicate (slotSize - value.length) 0

/-- The v1 files of a table `t` alone. -/
def legacyFiles (schema rows : Bytes) : Files := Function.update (Function.update (fun _ => none)
  (Table.fieldFile (ascii "t")) (some schema)) (Table.tableFile (ascii "t")) (some rows)

/-- The table with one field and one row. -/
def oneLegacy : Files := legacyFiles (slotOf (ascii "1") ++ slotOf [97]) (slotOf [120])

/-- The table with two fields and two rows, one value in three of the four slots. -/
def twoLegacy : Files := legacyFiles ((ascii "2" :: oneFields).flatMap slotOf) (oneRows.flatten.flatMap slotOf)

theorem tableFile_ne_fieldFile (source : Bytes) : Table.tableFile source ≠ Table.fieldFile source := fun h => by
  have := congrArg String.length h
  exact absurd (by simpa [Table.tableFile, Table.fieldFile] using this) (by decide : ".bin".length ≠ "_fields.bin".length)

theorem databasePath_ne_fieldFile (source : Bytes) : Table.databasePath source ≠ Table.fieldFile source := fun h => by
  have := congrArg String.length h
  exact absurd (by simpa [Table.databasePath, Table.fieldFile] using this)
    (by decide : ".sql2".length ≠ "_fields.bin".length)

theorem databasePath_ne_tableFile (source : Bytes) : Table.databasePath source ≠ Table.tableFile source := fun h => by
  have := congrArg String.length h
  exact absurd (by simpa [Table.databasePath, Table.tableFile] using this) (by decide : ".sql2".length ≠ ".bin".length)

theorem legacyFiles_schema (schema rows : Bytes) : legacyFiles schema rows (Table.fieldFile (ascii "t")) = some schema := by
  rw [legacyFiles, Function.update_of_ne (tableFile_ne_fieldFile _).symm, Function.update_self]

theorem legacyFiles_rows (schema rows : Bytes) : legacyFiles schema rows (Table.tableFile (ascii "t")) = some rows :=
  Function.update_self _ _ _

theorem legacyFiles_other (schema rows : Bytes) {path : String} (h : path ≠ Table.tableFile (ascii "t"))
    (hf : path ≠ Table.fieldFile (ascii "t")) : legacyFiles schema rows path = none := by
  rw [legacyFiles, Function.update_of_ne h, Function.update_of_ne hf]

/-- The table has no v2 file. -/
theorem legacyFiles_database (schema rows : Bytes) : legacyFiles schema rows (Table.databasePath (ascii "t")) = none :=
  legacyFiles_other schema rows (databasePath_ne_tableFile _) (databasePath_ne_fieldFile _)

theorem readLegacy_files {schema rowBytes : Bytes} {fields : List Bytes} {rows : List (List Bytes)}
    (hfields : (decodeFields schema).toOption = some fields)
    (hrows : (decodeRows rowBytes fields.length).toOption = some rows) :
    readLegacy (ascii "t") (legacyFiles schema rowBytes) = .ok ⟨fields, rows⟩ := by
  unfold readLegacy
  exact except_bind_ok.2 ⟨_, readBytes_ok.2 (legacyFiles_schema _ _), except_bind_ok.2 ⟨_, toOption_ok.1 hfields,
    except_bind_ok.2 ⟨_, readBytes_ok.2 (legacyFiles_rows _ _), except_bind_ok.2 ⟨_, toOption_ok.1 hrows, rfl⟩⟩⟩⟩

theorem readLegacy_oneLegacy : readLegacy (ascii "t") oneLegacy = .ok ⟨[[97]], [[[120]]]⟩ :=
  readLegacy_files (by decide +kernel) (by decide)

theorem readLegacy_twoLegacy : readLegacy (ascii "t") twoLegacy = .ok ⟨oneFields, oneRows⟩ :=
  readLegacy_files (by decide +kernel) (by decide +kernel)

theorem readLegacy_preserved_twoLegacy : ∃ table P, Table.load (ascii "t") twoLegacy = ⟨[], .ok table⟩ ∧
    table.fieldNames = oneFields ∧ table.storedRows = oneRows ∧
    buildImage oneFields oneRows 1 = .ok (imageOf onePages) ∧ parseImage (imageOf onePages) false = .ok P ∧
    P.table.fields = oneFields ∧ P.table.rows = oneRows := by
  obtain ⟨hload, image, himage, hparse⟩ := readLegacy_preserved readLegacy_twoLegacy
  obtain ⟨table, htable, hfields, hrows, -⟩ := hload (legacyFiles_database _ _)
  obtain rfl := Except.ok.inj (buildImage_onePages.symm.trans himage)
  obtain ⟨buffer, hbuffer, -⟩ := onePages_written.buffer
  obtain ⟨P, hP, hfields', hrows'⟩ := hparse buffer hbuffer false
  exact ⟨table, P, htable, hfields, hrows, buildImage_onePages, hP, hfields', hrows'⟩

end Storage
end Sql
