import SqlEngine.Columns
/-!
# Valid — a table in memory and its files agree

What the constructors establish and `insert_into` keeps: names without repetition and their positions, rows of one
length, and the rows behind a condition, in the multimaps of a v1 table or in the file of a v2 table.  In such a state
`selectHelp` has no effect on the files and selects the matching records (`selectHelp_known`).
-/
namespace Sql
namespace Storage

open Wire Effects Maps Query

/-! ## Positions -/

theorem positions_append (fields : List Bytes) (field : Bytes) :
    Table.positions (fields ++ [field]) = (Table.positions fields).assign field fields.length := by
  rw [Table.positions, Table.positions, List.zipIdx_append, List.foldl_append]
  simp

/-- **The map of positions** finds exactly the names. -/
theorem positions_lookup {fields : List Bytes} (h : fields.Nodup) (name : Bytes) (i : Nat) :
    (Table.positions fields).lookup name = some i ↔ fields[i]? = some name := by
  induction fields using List.reverseRecOn generalizing i with
  | nil => simp [Table.positions]
  | append_singleton fields field ih =>
    obtain ⟨hfields, -, hnew⟩ := List.nodup_append.1 h
    rw [positions_append, OrderedMap.lookup_assign]
    by_cases hname : name = field
    · subst hname
      rw [if_pos rfl, List.getElem?_append]
      have hout : ∀ j, fields[j]? ≠ some name := fun j hj =>
        hnew name (List.mem_of_getElem? hj) name List.mem_cons_self rfl
      by_cases hi : i < fields.length
      · rw [if_pos hi]
        exact ⟨fun he => absurd (Option.some.inj he) (by omega), fun he => absurd he (hout i)⟩
      · rw [if_neg hi, List.getElem?_singleton]
        by_cases hz : i - fields.length = 0
        · rw [if_pos hz]
          exact ⟨fun _ => rfl, fun _ => congrArg some (by omega)⟩
        · rw [if_neg hz]
          exact ⟨fun he => absurd (Option.some.inj he) (by omega), fun he => by cases he⟩
    · rw [if_neg hname, ih hfields, List.getElem?_append]
      by_cases hi : i < fields.length
      · rw [if_pos hi]
      · rw [if_neg hi, List.getElem?_eq_none (by omega), List.getElem?_singleton]
        split
        · exact ⟨fun he => (by cases he), fun he => absurd (Option.some.inj he).symm hname⟩
        · exact Iff.rfl

theorem positions_contains {fields : List Bytes} (h : fields.Nodup) (name : Bytes) :
    (Table.positions fields).contains name = true ↔ name ∈ fields := by
  rw [OrderedMap.contains, Option.isSome_iff_exists]
  constructor
  · rintro ⟨i, hi⟩
    exact List.mem_of_getElem? ((positions_lookup h name i).1 hi)
  · intro hmem
    obtain ⟨i, hi⟩ := List.getElem?_of_mem hmem
    exact ⟨i, (positions_lookup h name i).2 hi⟩

/-! ## Columns filled row by row -/

/-- One record goes into the multimap of each field. -/
theorem lookup_insertInColumn (index : Nat) (name : Bytes) : ∀ (cells : List (Bytes × Bytes))
    (cache : OrderedMap Bytes (MMap Bytes Nat)), (cells.map Prod.fst).Nodup →
    (cells.foldl (Table.insertInColumn index) cache).lookup name =
      match cells.find? (fun cell => decide (cell.1 = name)) with
      | none => cache.lookup name
      | some cell => some (((cache.lookup name).getD .empty).insert cell.2 index)
  | [], cache, _ => rfl
  | cell :: cells, cache, h => by
    obtain ⟨hnew, hcells⟩ := List.nodup_cons.1 h
    rw [List.foldl_cons, lookup_insertInColumn index name cells _ hcells, Table.insertInColumn, OrderedMap.lookup_alter,
      List.find?_cons]
    by_cases hname : cell.1 = name
    · have hnone : cells.find? (fun cell => decide (cell.1 = name)) = none := by
        rw [List.find?_eq_none]
        intro other hother heq
        exact hnew (List.mem_map.2 ⟨other, hother, (of_decide_eq_true heq).trans hname.symm⟩)
      rw [hnone, decide_eq_true hname]
      simp only [hname, if_true]
    · rw [decide_eq_false hname]
      simp only [if_neg (Ne.symm hname)]

theorem find?_of_mem {name value : Bytes} : ∀ {cells : List (Bytes × Bytes)}, (cells.map Prod.fst).Nodup →
    (name, value) ∈ cells → cells.find? (fun cell => decide (cell.1 = name)) = some (name, value)
  | cell :: cells, h, hmem => by
    obtain ⟨hnew, hcells⟩ := List.nodup_cons.1 h
    rw [List.find?_cons]
    rcases List.mem_cons.1 hmem with rfl | hmem
    · simp
    · have hname : cell.1 ≠ name := fun heq => hnew (List.mem_map.2 ⟨_, hmem, heq.symm⟩)
      rw [decide_eq_false hname]
      exact find?_of_mem hcells hmem

/-- The column of a field behind one record more. -/
theorem column_addRecord {table : Table} {entry : List Bytes} {name : Bytes} {field : Nat} (hnd : table.fieldNames.Nodup)
    (hlen : entry.length = table.fieldNames.length) (hfield : table.fieldNames[field]? = some name) (index : Nat) :
    (table.addRecord index entry).column name = (table.column name).insert (entry.getD field []) index := by
  have hlt := lt_of_getElem?_some hfield
  have hcell : (table.fieldNames.zip entry).find? (fun cell => decide (cell.1 = name)) =
      some (name, entry.getD field []) := by
    have hmem : (name, entry.getD field []) ∈ table.fieldNames.zip entry := by
      refine List.mem_of_getElem? (i := field) ?_
      rw [List.getElem?_zip_eq_some]
      exact ⟨hfield, by simp [List.getElem?_eq_getElem (by omega : field < entry.length)]⟩
    exact find?_of_mem (by rw [List.map_fst_zip (by omega)]; exact hnd) hmem
  rw [Table.column, Table.addRecord]
  simp only
  rw [lookup_insertInColumn index name _ _ (by rw [List.map_fst_zip (by omega)]; exact hnd), hcell]
  rfl

/-! ## Tables and their files -/

/-- The file of a v2 table holds its rows, and nothing is pending. -/
def Table.OnFile (table : Table) (files : Files) : Prop :=
  walPresent (diskAt files (Table.databasePath table.tableName)) = false ∧
    ∃ image P, files (Table.databasePath table.tableName) = some image ∧ parseImage image false = .ok P ∧
      P.table.fields = table.fieldNames ∧ P.table.rows = table.storedRows

structure Table.Valid (table : Table) (files : Files) : Prop where
  nodup : table.fieldNames.Nodup
  names_at : table.fieldNameMap = Table.positions table.fieldNames
  arity : ∀ row ∈ table.storedRows, row.length = table.fieldNames.length
  count : table.numRecords = table.storedRows.length
  on_file : table.usesV2Storage = true → table.OnFile files
  in_cache : table.usesV2Storage = false → ∀ field name, table.fieldNames[field]? = some name →
    Indexes (table.column name) table.storedRows field

theorem Table.Valid.contains {table : Table} {files : Files} (h : table.Valid files) (name : Bytes) :
    table.fieldNameMap.contains name = true ↔ name ∈ table.fieldNames := by
  rw [h.names_at]
  exact positions_contains h.nodup name

/-- Reading a column may only insert it where it was missing. -/
theorem column_touchColumn (table : Table) (name other : Bytes) :
    (table.touchColumn name).column other = table.column other := by
  rw [Table.column, Table.touchColumn]
  simp only
  rw [OrderedMap.lookup_alter]
  by_cases h : other = name
  · rw [if_pos h, h]
    rfl
  · rw [if_neg h]
    rfl

theorem Table.Valid.touchColumn {table : Table} {files : Files} (h : table.Valid files) (name : Bytes) :
    (table.touchColumn name).Valid files where
  nodup := h.nodup
  names_at := h.names_at
  arity := h.arity
  count := h.count
  on_file := h.on_file
  in_cache hv1 field other hother := by
    rw [column_touchColumn]
    exact h.in_cache hv1 field other hother

theorem matching_lt_length {rows : List (List Bytes)} {field : Nat} {p : Bytes → Bool} {record : Nat}
    (h : record ∈ matching rows field p) : record < rows.length := by
  obtain ⟨e, he, rfl⟩ := List.mem_map.1 h
  exact (mem_sortedIndex.1 (List.mem_filter.1 he).1).1

/-- `query_index` on the file of a valid table. -/
theorem Table.Valid.openTable {table : Table} {files : Files} (h : table.Valid files) (hv2 : table.usesV2Storage = true) :
    ∃ loaded, Storage.openTable (Table.databasePath table.tableName)
        (diskAt files (Table.databasePath table.tableName)) = ⟨[], .ok loaded⟩ ∧
      loaded.rows = table.storedRows ∧ loaded.rows.length < 2 ^ 63 ∧
      ∀ field < table.fieldNames.length, loaded.indexes[field]? = some (sortedIndex table.storedRows field) := by
  obtain ⟨hwal, image, P, hdb, hP, hfields, hrows⟩ := h.on_file hv2
  refine ⟨P.table, openTable_clean hwal hdb hP, hrows, ?_, fun field hf => ?_⟩
  · obtain ⟨-, L, hL, hparsed⟩ := parseImage_ok hP
    have hle := hL.rows_le
    have heq : P.table.rows = L.rows := by rw [hparsed]; rfl
    have hmax : rowsMaxSize = 384307168202282325 := by decide
    rw [heq]
    omega
  · rw [← hfields] at hf
    rw [parseImage_index hP hf, hrows]

/-- **A known comparison selects the matching records** and changes no file. -/
theorem selectHelp_known {table : Table} {files : Files} (h : table.Valid files) {name operation : Bytes} {field : Nat}
    (hfield : table.fieldNames[field]? = some name) (hop : operation ∈ relationalTexts) (value : Bytes) :
    ∃ cache, table.selectHelp name operation value files =
      ⟨[], .ok (matching table.storedRows field (satisfies operation value), { table with cache := cache })⟩ ∧
      ({ table with cache := cache } : Table).Valid files := by
  have hknown : table.fieldNameMap.contains name = true := (h.contains name).2 (List.mem_of_getElem? hfield)
  by_cases hv2 : table.usesV2Storage = true
  · refine ⟨table.cache, ?_, h⟩
    obtain ⟨loaded, hopen, hrows, hlen, hindex⟩ := h.openTable hv2
    have hlookup : table.fieldNameMap.lookup name = some field := by
      rw [h.names_at]
      exact (positions_lookup h.nodup name field).2 hfield
    have hquery := queryIndex_ok hopen (by rw [hrows]; exact hindex field (lt_of_getElem?_some hfield)) hop value
    rw [hrows] at hquery hlen
    unfold Table.selectHelp
    rw [throwIf_neg (by simp [hknown]), attempt_ok_bind, if_pos hv2, hlookup, Option.getD_some,
      bind_run_pure (show onDisk _ _ files = ⟨[], .ok _⟩ by rw [onDisk, hquery]; rfl),
      throwIf_neg (fun ⟨record, hr, hbig⟩ => absurd (matching_lt_length hr) (by omega)), attempt_ok_bind]
    rfl
  · have hv1 := Bool.eq_false_iff.2 hv2
    exact ⟨(table.touchColumn name).cache, selectHelp_v1 hv1 hknown (h.in_cache hv1 field name hfield) hop value files,
      h.touchColumn name⟩

/-! ## Format v1 -/

/-- The records one after another. -/
def Table.addRecords (table : Table) : Nat → List (List Bytes) → Table
  | _, [] => table
  | index, row :: rows => (table.addRecord index row).addRecords (index + 1) rows

/-- A v1 table with its multimaps filled row by row. -/
def Table.filled (tableName : Bytes) (fieldNames : List Bytes) (rows : List (List Bytes)) : Table :=
  (Table.emptyV1 tableName fieldNames).addRecords 0 rows

theorem addRecords_append (row : List Bytes) : ∀ (rows : List (List Bytes)) (table : Table) (index : Nat),
    table.addRecords index (rows ++ [row]) = (table.addRecords index rows).addRecord (index + rows.length) row
  | [], _, _ => rfl
  | first :: rows, table, index => by
    rw [List.cons_append, Table.addRecords, addRecords_append row rows, Table.addRecords, List.length_cons,
      show index + 1 + rows.length = index + (rows.length + 1) by omega]

theorem filled_append (tableName : Bytes) (fieldNames : List Bytes) (rows : List (List Bytes)) (row : List Bytes) :
    Table.filled tableName fieldNames (rows ++ [row]) =
      (Table.filled tableName fieldNames rows).addRecord rows.length row := by
  rw [Table.filled, addRecords_append, Nat.zero_add, Table.filled]

/-- A filled table, without its multimaps. -/
structure Table.Shows (table : Table) (tableName : Bytes) (fieldNames : List Bytes) (rows : List (List Bytes)) : Prop where
  name_eq : table.tableName = tableName
  fields_eq : table.fieldNames = fieldNames
  selected_eq : table.selectedFields = fieldNames
  rows_eq : table.storedRows = rows
  count_eq : table.numRecords = rows.length
  indices_eq : table.recordIndices = List.range rows.length
  print_eq : table.printQueue = rows.flatten
  names_at : table.fieldNameMap = Table.positions fieldNames

theorem Table.Shows.addRecord {table : Table} {tableName : Bytes} {fieldNames : List Bytes} {rows : List (List Bytes)}
    (h : table.Shows tableName fieldNames rows) (row : List Bytes) :
    (table.addRecord rows.length row).Shows tableName fieldNames (rows ++ [row]) where
  name_eq := h.name_eq
  fields_eq := h.fields_eq
  selected_eq := h.selected_eq
  rows_eq := by rw [Table.addRecord, h.rows_eq]
  count_eq := by rw [Table.addRecord, h.count_eq, List.length_append, List.length_singleton]
  indices_eq := by rw [Table.addRecord, h.indices_eq, List.length_append, List.length_singleton, List.range_succ]
  print_eq := by rw [Table.addRecord, h.print_eq, List.flatten_append, List.flatten_singleton]
  names_at := h.names_at

theorem filled_shows (tableName : Bytes) (fieldNames : List Bytes) (rows : List (List Bytes)) :
    (Table.filled tableName fieldNames rows).Shows tableName fieldNames rows ∧
      (Table.filled tableName fieldNames rows).usesV2Storage = false := by
  induction rows using List.reverseRecOn with
  | nil => exact ⟨⟨rfl, rfl, rfl, rfl, rfl, rfl, rfl, rfl⟩, rfl⟩
  | append_singleton rows row ih =>
    rw [filled_append]
    exact ⟨ih.1.addRecord row, ih.2⟩

theorem filled_indexes (tableName : Bytes) {fieldNames : List Bytes} (hnd : fieldNames.Nodup) {field : Nat} {name : Bytes}
    (hname : fieldNames[field]? = some name) {rows : List (List Bytes)}
    (hrows : ∀ row ∈ rows, row.length = fieldNames.length) :
    Indexes ((Table.filled tableName fieldNames rows).column name) rows field := by
  induction rows using List.reverseRecOn with
  | nil => exact Indexes.empty field
  | append_singleton rows row ih =>
    have hfields := (filled_shows tableName fieldNames rows).1.fields_eq
    rw [filled_append, column_addRecord (by rw [hfields]; exact hnd)
      (by rw [hfields]; exact hrows row (List.mem_append_right _ List.mem_cons_self)) (by rw [hfields]; exact hname)]
    exact (ih (fun r hr => hrows r (List.mem_append_left _ hr))).insert row

/-- **A filled table is valid**, whatever the files are. -/
theorem filled_valid (tableName : Bytes) {fieldNames : List Bytes} (hnd : fieldNames.Nodup) {rows : List (List Bytes)}
    (hrows : ∀ row ∈ rows, row.length = fieldNames.length) (files : Files) :
    (Table.filled tableName fieldNames rows).Valid files := by
  obtain ⟨hshows, hv1⟩ := filled_shows tableName fieldNames rows
  refine ⟨by rw [hshows.fields_eq]; exact hnd, by rw [hshows.names_at, hshows.fields_eq],
    by rw [hshows.rows_eq, hshows.fields_eq]; exact hrows, by rw [hshows.count_eq, hshows.rows_eq],
    fun hv2 => absurd (hv1.symm.trans hv2) Bool.false_ne_true, fun _ field name hname => ?_⟩
  rw [hshows.rows_eq]
  rw [hshows.fields_eq] at hname
  exact filled_indexes tableName hnd hname hrows

theorem length_readValues : ∀ {columns : Nat} {stream : Bytes} {values : List Bytes},
    readValues columns stream = .ok values → values.length = columns
  | 0, _, _, h => by rw [← Except.ok.inj h]; rfl
  | columns + 1, stream, values, h => by
    rw [readValues] at h
    obtain ⟨-, -, h⟩ := except_bind_ok.1 h
    obtain ⟨rest, hrest, h⟩ := except_bind_ok.1 h
    rw [← Except.ok.inj h, List.length_cons, length_readValues hrest]

theorem length_readRecord {columns recno : Nat} {file : Bytes} {values : List Bytes}
    (h : readRecord columns recno file = .ok (some values)) : values.length = columns := by
  unfold readRecord at h
  obtain ⟨-, -, h⟩ := except_bind_ok.1 h
  by_cases hs : file.drop (recno * slotSize * columns) = []
  · simp only [hs, if_true] at h
    cases h
  · simp only [hs, if_false] at h
    obtain ⟨values', hvalues, h⟩ := except_bind_ok.1 h
    obtain rfl : values' = values := Option.some.inj (Except.ok.inj h)
    exact length_readValues hvalues

theorem loadRecords_eq (columns : Nat) (file : Bytes) (index : Nat) (table : Table) :
    Table.loadRecords columns file index table = (do
      let record ← readRecord columns index file
      match record with
      | none => .ok table
      | some entry => Table.loadRecords columns file (index + 1) (table.addRecord index entry)) := by
  rw [Table.loadRecords]
  split
  · rename_i h
    rw [h]
    rfl
  · rename_i h
    rw [h]
    rfl
  · rename_i h
    rw [h]
    rfl

/-- The loop over the records only adds records. -/
theorem loadRecords_ok {columns : Nat} {file : Bytes} {index : Nat} {table loaded : Table}
    (h : Table.loadRecords columns file index table = .ok loaded) :
    ∃ rows, loaded = table.addRecords index rows ∧ ∀ row ∈ rows, row.length = columns := by
  induction index, table using Table.loadRecords.induct columns file with
  | case1 index table e he =>
    rw [loadRecords_eq, he] at h
    cases h
  | case2 index table hn =>
    rw [loadRecords_eq, hn] at h
    exact ⟨[], (Except.ok.inj h).symm, fun row hrow => by cases hrow⟩
  | case3 index table entry he ih =>
    rw [loadRecords_eq, he] at h
    obtain ⟨rows, hloaded, hrows⟩ := ih h
    refine ⟨entry :: rows, hloaded, fun row hrow => ?_⟩
    rcases List.mem_cons.1 hrow with rfl | hrow
    · exact length_readRecord he
    · exact hrows row hrow

end Storage
end Sql
