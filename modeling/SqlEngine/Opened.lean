import SqlEngine.Crash
import SqlEngine.Valid
/-!
# Opened — what the constructors and `insert_into` leave

A table that was opened from any files, created or inserted into is valid (`load_valid`, `create_valid`,
`insertInto_valid`), and the two formats answer alike (`selectHelp_agrees`).
-/
namespace Sql
namespace Storage

open Wire Effects Maps Query

/-- **A table that was opened** is what its file holds, and nothing is pending. -/
theorem openTable_after {path : String} {disk : Disk} {es : List DiskEffect} {loaded : LoadedTable}
    (h : openTable path disk = ⟨es, .ok loaded⟩) : walPresent (after disk es) = false ∧
      ∃ image P, (after disk es).database = some image ∧ parseImage image false = .ok P ∧ P.table = loaded := by
  unfold openTable at h
  obtain ⟨es₁, u, es₂, hrecover, hread, rfl⟩ := run_bind_ok.1 h
  rw [observe_bind] at hread
  obtain ⟨bytes, hbytes, hparse⟩ := attempt_bind_ok.1 hread
  obtain ⟨P, hP, hreturn⟩ := attempt_bind_ok.1 hparse
  obtain ⟨rfl, rfl⟩ := return_ok.1 hreturn
  rw [List.append_nil]
  rw [id] at hbytes hP
  have hwal : walPresent (after disk es₁) = false := by
    rcases recover_cases disk with ⟨hp, hrun⟩ | ⟨wal, e, -, -, hrun, -⟩ |
      ⟨wal, walImage, buffer, -, -, -, -, himage, hdirty, hrun⟩
    · rw [hrun] at hrecover
      cases hrecover
      exact hp
    · rw [hrun] at hrecover
      cases hrecover
    · rw [hrun] at hrecover
      cases hrecover
      rw [after_recovery himage hdirty]
      rfl
  rw [hwal] at hP
  cases hdb : (after disk es₁).database with
  | none =>
    rw [hdb] at hbytes
    cases hbytes
  | some image =>
    rw [hdb] at hbytes
    obtain rfl : image = bytes := Except.ok.inj hbytes
    exact ⟨hwal, image, P, rfl, hP, rfl⟩

theorem loadFields_ok {tableName file : Bytes} {fields : List Bytes} (h : Table.loadFields tableName file = .ok fields) :
    fields.Nodup ∧ [] ∉ fields := by
  unfold Table.loadFields at h
  obtain ⟨first, -, h⟩ := except_bind_ok.1 h
  cases first with
  | none => cases h
  | some sizes =>
    simp only at h
    cases hcount : stoul (sizes.headD []) with
    | none =>
      rw [hcount] at h
      cases h
    | some count =>
      rw [hcount] at h
      obtain ⟨_, -, h⟩ := except_bind_ok.1 h
      obtain ⟨_, -, h⟩ := except_bind_ok.1 h
      obtain ⟨record, -, h⟩ := except_bind_ok.1 h
      cases record with
      | none => cases h
      | some slots =>
        obtain ⟨_, hcheck, h⟩ := except_bind_ok.1 h
        obtain rfl := Except.ok.inj h
        simpa [not_or] using throwIf_ok.1 hcheck

/-- A v1 table is its records, filled in one after another. -/
theorem openV1_ok {tableName fields records : Bytes} {table : Table}
    (h : Table.openV1 tableName fields records = .ok table) :
    ∃ fieldNames rows, fieldNames.Nodup ∧ (∀ row ∈ rows, row.length = fieldNames.length) ∧
      table = Table.filled tableName fieldNames rows := by
  unfold Table.openV1 at h
  obtain ⟨fieldNames, hfields, h⟩ := except_bind_ok.1 h
  obtain ⟨_, -, h⟩ := except_bind_ok.1 h
  obtain ⟨rows, rfl, hrows⟩ := loadRecords_ok h
  exact ⟨fieldNames, rows, (loadFields_ok hfields).1, hrows, rfl⟩

theorem ofLoaded_ok {tableName : Bytes} {loaded : LoadedTable} {table : Table}
    (h : Table.ofLoaded tableName loaded = .ok table) :
    table.Shows tableName loaded.fields loaded.rows ∧ table.usesV2Storage = true := by
  unfold Table.ofLoaded at h
  obtain ⟨_, -, h⟩ := except_bind_ok.1 h
  obtain rfl := Except.ok.inj h
  exact ⟨⟨rfl, rfl, rfl, rfl, rfl, rfl, rfl, rfl⟩, rfl⟩

/-- A table that shows what its clean file holds is valid. -/
theorem Table.Shows.valid {table : Table} {tableName : Bytes} {fieldNames : List Bytes} {rows : List (List Bytes)}
    {files : Files} {image : Bytes} {P : ParsedImage} (h : table.Shows tableName fieldNames rows)
    (hv2 : table.usesV2Storage = true) (hwal : walPresent (diskAt files (Table.databasePath tableName)) = false)
    (hdb : files (Table.databasePath tableName) = some image) (hP : parseImage image false = .ok P)
    (hfields : P.table.fields = fieldNames) (hrows : P.table.rows = rows) : table.Valid files := by
  obtain ⟨-, L, hL, hPL⟩ := parseImage_ok hP
  have hLf : L.fields = fieldNames := by rw [← hfields, hPL]; rfl
  have hLr : L.rows = rows := by rw [← hrows, hPL]; rfl
  refine ⟨?_, ?_, fun row hrow => ?_, ?_, fun _ => ?_, fun hv1 => ?_⟩
  · rw [h.fields_eq, ← hLf]
    exact hL.fields_ok.nodup
  · rw [h.names_at, h.fields_eq]
  · rw [h.rows_eq, ← hLr] at hrow
    rw [h.fields_eq, ← hLf]
    exact (hL.rows_ok row hrow).arity
  · rw [h.count_eq, h.rows_eq]
  · rw [Table.OnFile, h.name_eq, h.fields_eq, h.rows_eq]
    exact ⟨hwal, image, P, hdb, hP, hfields, hrows⟩
  · rw [hv2] at hv1
    cases hv1

theorem onDisk_ok {α : Type} {path : String} {call : Call α} {files : Files} {es : List FileEffect} {a : α}
    (h : onDisk path call files = ⟨es, .ok a⟩) :
    ∃ des, call (diskAt files path) = ⟨des, .ok a⟩ ∧ es = des.map (FileEffect.disk path) := by
  unfold onDisk at h
  rcases hc : call (diskAt files path) with ⟨des, x⟩
  rw [hc] at h
  cases h
  exact ⟨des, rfl, rfl⟩

/-- **Whatever the files are**, a table that was opened from them is valid. -/
theorem load_valid {tableName : Bytes} {files : Files} {es : List FileEffect} {table : Table}
    (h : Table.load tableName files = ⟨es, .ok table⟩) :
    table.Valid (after files es) ∧ ∃ fieldNames rows, table.Shows tableName fieldNames rows := by
  unfold Table.load at h
  rw [observe_bind] at h
  by_cases hv2 : (files (Table.databasePath tableName)).isSome ∨ files (Table.databasePath tableName) = none ∧
      files (Table.tableFile tableName) = none ∧ files (Table.fieldFile tableName) = none ∧
      walPresent (diskAt files (Table.databasePath tableName)) = true
  · replace h := (congrFun (if_pos hv2) files).symm.trans h
    obtain ⟨es₁, loaded, es₂, hopen, hload, rfl⟩ := run_bind_ok.1 h
    obtain ⟨htable, rfl⟩ := attempt_ok.1 hload
    obtain ⟨des, hdisk, rfl⟩ := onDisk_ok hopen
    obtain ⟨hwal, image, P, hdb, hP, rfl⟩ := openTable_after hdisk
    rw [← diskAt_after] at hwal hdb
    obtain ⟨hshows, huses⟩ := ofLoaded_ok htable
    rw [List.append_nil]
    exact ⟨hshows.valid huses hwal hdb hP rfl rfl, _, _, hshows⟩
  · replace h := (congrFun (if_neg hv2) files).symm.trans h
    cases hfields : files (Table.fieldFile tableName) with
    | none =>
      simp only [id, hfields] at h
      cases (attempt_ok.1 h).1
    | some fields =>
      cases hrecords : files (Table.tableFile tableName) with
      | none =>
        simp only [id, hfields, hrecords] at h
        cases (attempt_ok.1 h).1
      | some records =>
        simp only [id, hfields, hrecords] at h
        obtain ⟨htable, rfl⟩ := attempt_ok.1 h
        obtain ⟨fieldNames, rows, hnd, hrows, rfl⟩ := openV1_ok htable
        exact ⟨filled_valid tableName hnd hrows _, fieldNames, rows, (filled_shows tableName fieldNames rows).1⟩

/-- `get_fields()` of a table that was opened: all fields. -/
theorem load_selected {tableName : Bytes} {files : Files} {es : List FileEffect} {table : Table}
    (h : Table.load tableName files = ⟨es, .ok table⟩) : table.selectedFields = table.fieldNames := by
  obtain ⟨-, fieldNames, rows, hshows⟩ := load_valid h
  rw [hshows.selected_eq, hshows.fields_eq]

/-- A call that created a table. -/
theorem create_ok {tableName : Bytes} {fieldNames : List Bytes} {files : Files} {es : List FileEffect} {table : Table}
    (h : Table.create tableName fieldNames files = ⟨es, .ok table⟩) :
    onDisk (Table.databasePath tableName) (createTable (Table.databasePath tableName) fieldNames) files = ⟨es, .ok ()⟩ ∧
      table.usesV2Storage = true ∧ table.Shows tableName fieldNames [] := by
  unfold Table.create at h
  rw [observe_bind] at h
  obtain ⟨_, -, h1⟩ := attempt_bind_ok.1 h
  obtain ⟨_, -, h2⟩ := attempt_bind_ok.1 h1
  obtain ⟨_, -, h3⟩ := attempt_bind_ok.1 h2
  obtain ⟨es₁, u, es₂, hcreate, hreturn, rfl⟩ := run_bind_ok.1 h3
  obtain ⟨rfl, rfl⟩ := return_ok.1 hreturn
  rw [List.append_nil]
  exact ⟨hcreate, rfl, rfl, rfl, rfl, rfl, rfl, rfl, rfl, rfl⟩

/-- **A table that was created** is valid, and clean in its first generation. -/
theorem create_valid {tableName : Bytes} {fieldNames : List Bytes} {files : Files} {es : List FileEffect} {table : Table}
    (h : Table.create tableName fieldNames files = ⟨es, .ok table⟩) : table.Valid (after files es) ∧
      table.Shows tableName fieldNames [] ∧
      Clean (diskAt (after files es) (Table.databasePath tableName)) fieldNames [] 1 := by
  obtain ⟨hcreate, hv2, hshows⟩ := create_ok h
  obtain ⟨des, hdisk, rfl⟩ := onDisk_ok hcreate
  have hcall : createFromRows (Table.databasePath tableName) fieldNames []
      (diskAt files (Table.databasePath tableName)) = ⟨des, .ok ()⟩ := hdisk
  have hclean := createFromRows_clean (congrArg Outcome.result hcall)
  rw [hcall, ← diskAt_after] at hclean
  obtain ⟨hwal, image, hdb, hw⟩ := id hclean
  obtain ⟨P, hP, hholds⟩ := hw.parse false
  exact ⟨hshows.valid hv2 hwal hdb hP hholds.fields_eq hholds.rows_eq, hshows, hclean⟩

/-- A call that inserted a row. -/
theorem insertInto_ok {table table' : Table} {files : Files} {values : List Bytes} {es : List FileEffect} {str : Bytes}
    (h : table.insertInto values files = ⟨es, .ok (str, table')⟩) :
    values.length = table.fieldNames.length ∧ table.usesV2Storage = true ∧
      onDisk (Table.databasePath table.tableName) (insertRow (Table.databasePath table.tableName) values) files =
        ⟨es, .ok ()⟩ ∧ table' = table.addRecord table.numRecords values := by
  unfold Table.insertInto at h
  obtain ⟨_, hlen, h1⟩ := attempt_bind_ok.1 h
  obtain ⟨_, -, h2⟩ := attempt_bind_ok.1 h1
  obtain ⟨_, hv1, h3⟩ := attempt_bind_ok.1 h2
  obtain ⟨es₁, u, es₂, hrow, hreturn, rfl⟩ := run_bind_ok.1 h3
  obtain ⟨hpair, rfl⟩ := return_ok.1 hreturn
  rw [List.append_nil]
  exact ⟨by simpa using throwIf_ok.1 hlen, by simpa using throwIf_ok.1 hv1, hrow, (congrArg Prod.snd hpair).symm⟩

/-- **An insert that returned** keeps a table valid that stands. -/
theorem insertInto_valid {table table' : Table} {files : Files} {values : List Bytes} {es : List FileEffect} {str : Bytes}
    {generation : Nat} (h : table.Valid files)
    (hstands : Stands (diskAt files (Table.databasePath table.tableName)) table.fieldNames table.storedRows generation)
    (hinsert : table.insertInto values files = ⟨es, .ok (str, table')⟩) : table'.Valid (after files es) ∧
      Clean (diskAt (after files es) (Table.databasePath table.tableName)) table.fieldNames (table.storedRows ++ [values])
        (generation + 1) := by
  obtain ⟨hlen', hv2, hrow, rfl⟩ := insertInto_ok hinsert
  obtain ⟨des, hdisk, rfl⟩ := onDisk_ok hrow
  obtain ⟨es', result, hrun, hclean, -⟩ := insertRow_cuts (Table.databasePath table.tableName) values hstands
  rw [hdisk] at hrun
  cases hrun
  have hdone := hclean () rfl
  rw [← diskAt_after] at hdone
  refine ⟨?_, hdone⟩
  obtain ⟨hwal, image, hdb, hw⟩ := hdone
  obtain ⟨P, hP, hholds⟩ := hw.parse false
  refine ⟨h.nodup, h.names_at, fun row hmem => ?_, ?_, fun _ => ?_, fun hv => absurd (hv.symm.trans hv2) Bool.false_ne_true⟩
  · rcases List.mem_append.1 hmem with hmem | hmem
    · exact h.arity row hmem
    · rw [List.mem_singleton.1 hmem]
      exact hlen'
  · rw [Table.addRecord, h.count, List.length_append, List.length_singleton]
  · exact ⟨hwal, image, P, hdb, hP, hholds.fields_eq, hholds.rows_eq⟩

/-! ## Two formats, one answer -/

/-- **The v1 path and the v2 path agree**: for each of the six operators, the multimap filled row by row and the index of
any image with those rows select the same list, the matching records by value and record number. -/
theorem selectHelp_agrees (tableName : Bytes) {fieldNames : List Bytes} (hnd : fieldNames.Nodup) {rows : List (List Bytes)}
    (hrows : ∀ row ∈ rows, row.length = fieldNames.length) {field : Nat} {fieldName : Bytes}
    (hfield : fieldNames[field]? = some fieldName) {operation : Bytes} (hop : operation ∈ relationalTexts)
    (value : Bytes) : ∃ records : List Nat,
      (∀ files, ∃ table', (Table.filled tableName fieldNames rows).selectHelp fieldName operation value files =
        ⟨[], .ok (records, table')⟩) ∧
      (∀ (path : String) (image : Bytes) (wal : Option Bytes) (P : ParsedImage), parseImage image false = .ok P →
        P.table.fields = fieldNames → P.table.rows = rows → walPresent ⟨some image, wal⟩ = false →
        queryIndex path field operation value ⟨some image, wal⟩ = ⟨[], .ok records⟩) ∧
      ∃ entries : List Entry, records = entries.map Entry.record ∧ entries.Pairwise (· < ·) ∧
        ∀ e, e ∈ entries ↔ e.record < rows.length ∧ e.key = valueAt rows e.record field ∧
          compareValues operation e.key value = some true := by
  refine ⟨matching rows field (satisfies operation value), fun files => ?_, fun path image wal P hP hf hr hwal => ?_,
    (sortedIndex rows field).filter (fun e => satisfies operation value e.key), rfl,
    (sortedIndex_strict rows field).filter _, fun e => ?_⟩
  · obtain ⟨hshows, hv1⟩ := filled_shows tableName fieldNames rows
    refine ⟨_, selectHelp_v1 hv1 ?_ (filled_indexes tableName hnd hfield hrows) hop value files⟩
    rw [hshows.names_at]
    exact (positions_contains hnd fieldName).2 (List.mem_of_getElem? hfield)
  · have hlt : field < P.table.fields.length := by rw [hf]; exact lt_of_getElem?_some hfield
    have hopen : openTable path ⟨some image, wal⟩ = ⟨[], .ok P.table⟩ := openTable_clean hwal rfl hP
    have hquery := queryIndex_ok hopen (parseImage_index hP hlt) hop value
    rw [hr] at hquery
    exact hquery
  · rw [List.mem_filter, mem_sortedIndex, satisfies, decide_eq_true_eq, and_assoc]

theorem selectHelp_agrees_onePages : ∃ records : List Nat,
    (∀ files, ∃ table', (Table.filled (ascii "t") oneFields oneRows).selectHelp [98] (ascii ">=") [120] files =
      ⟨[], .ok (records, table')⟩) ∧
    queryIndex "t.sql2" 1 (ascii ">=") [120] ⟨some (imageOf onePages), none⟩ = ⟨[], .ok records⟩ := by
  obtain ⟨records, hv1, hv2, -⟩ := selectHelp_agrees (ascii "t") (by decide : oneFields.Nodup)
    (by decide : ∀ row ∈ oneRows, row.length = oneFields.length) (rfl : oneFields[1]? = some [98])
    (by decide : ascii ">=" ∈ relationalTexts) [120]
  exact ⟨records, hv1, hv2 "t.sql2" (imageOf onePages) none _ (parseImage_imageOf oneLayout_on false) rfl rfl rfl⟩

end Storage
end Sql
