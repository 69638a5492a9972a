import SqlEngine.Command
import SqlEngine.Relation
import SqlEngine.Growth
import SqlEngine.Overstated
/-!
# Database — a directory of tables as a map from names to relations

The abstract side of `SQL::command`.  A directory shows a map from table names to entries (`shown`), and a statement on
such a map is a pure function (`Statement.exec`) that changes one entry.  `create_agrees`, `insert_agrees` and
`select_agrees` compare the statements with those entries; where all tables are tidy a statement always does what it says
(`statement_exact`).
-/
namespace Sql
namespace Storage

open Wire Effects Maps Query

/-! ## Statements -/

/-- What a parse tree asks for. -/
inductive Statement where
  | create (tableName : Bytes) (fields : List Bytes)
  | insert (tableName : Bytes) (values : List Bytes)
  | select (tableName : Bytes) (projection : List Bytes) (condition : Option (List Bytes))
  deriving DecidableEq

/-- The statement of a parse tree; `none` is where a vector is read behind its end. -/
def Statement.ofTree (tree : MMap Bytes Bytes) : Except StorageError (Option Statement) := do
  throwIf (tree.items = []) (.invalidArgument "Invalid command syntax")
  match tree.get (ascii "table_name"), tree.get (ascii "command") with
  | tableName :: _, commandName :: _ =>
    requireIdentifier tableName "Table name"
    if commandName = ascii "create" then .ok (some (.create tableName (tree.get (ascii "fields"))))
    else if commandName = ascii "insert" then .ok (some (.insert tableName (tree.get (ascii "values"))))
    else if commandName = ascii "select" then .ok (some (.select tableName (tree.get (ascii "fields"))
      (if tree.contains (ascii "where") = false then none else some (tree.get (ascii "condition")))))
    else .error (.invalidArgument "Unsupported command")
  | _, _ => .ok none

/-- A statement against the files. -/
def Statement.run : Statement → FileCall (Option Table)
  | create tableName fields => do
    attempt (fields.forM (fun field => requireIdentifier field "Field name"))
    let table ← Table.create tableName fields
    pure (some table)
  | insert tableName values => do
    let table ← Table.load tableName
    let (_, table) ← table.insertInto values
    pure (some table)
  | select tableName projection condition => do
    let table ← Table.load tableName
    match projection with
    | [] => pure none
    | first :: fields =>
      let selectedFields := if first = ascii "*" then table.selectedFields else first :: fields
      let (result, _) ← match condition with
        | none => table.selectStrings selectedFields []
        | some expression => table.selectStrings selectedFields expression
      pure (some result)

/-- **The try block of `SQL::command` runs the statement of its tree.** -/
theorem run_statement (tree : MMap Bytes Bytes) (files : Files) : SQL.run tree files =
    match Statement.ofTree tree with
    | .error e => ⟨[], .error e⟩
    | .ok none => ⟨[], .ok none⟩
    | .ok (some statement) => statement.run files := by
  unfold SQL.run Statement.ofTree
  by_cases hempty : tree.items = []
  · rw [throwIf, if_pos hempty]
    rfl
  rw [throwIf_neg hempty, attempt_ok_bind, except_ok_bind]
  rcases tree.get (ascii "table_name") with _ | ⟨tableName, tableNames⟩
  · rfl
  rcases tree.get (ascii "command") with _ | ⟨commandName, commandNames⟩
  · rfl
  dsimp only
  cases hid : requireIdentifier tableName "Table name" with
  | error e => rfl
  | ok u =>
    rw [attempt_ok_bind, except_ok_bind]
    by_cases hcreate : commandName = ascii "create"
    · rw [if_pos hcreate, if_pos hcreate]
      rfl
    by_cases hinsert : commandName = ascii "insert"
    · rw [if_neg hcreate, if_neg hcreate, if_pos hinsert, if_pos hinsert]
      rfl
    by_cases hselect : commandName = ascii "select"
    · rw [if_neg hcreate, if_neg hcreate, if_neg hinsert, if_neg hinsert, if_pos hselect, if_pos hselect]
      unfold SQL.select
      cases tree.contains (ascii "where") <;> cases tree.get (ascii "fields") <;> rfl
    · rw [if_neg hcreate, if_neg hcreate, if_neg hinsert, if_neg hinsert, if_neg hselect, if_neg hselect]
      rfl

/-! ## Databases -/

/-- What opening a table by its name shows. -/
inductive TableEntry where
  /-- No file of the table is there. -/
  | absent
  /-- Files are there, and opening them throws. -/
  | broken (e : StorageError)
  /-- A part of a log record is in the way. -/
  | blocked (c : Corruption)
  /-- A table; one of storage format v1 takes no rows. -/
  | stored (relation : Relation) (writable : Bool)
  deriving DecidableEq

abbrev Database := Bytes → TableEntry

/-- Is there any file of the table? -/
def TableEntry.taken : TableEntry → Bool
  | .absent => false
  | _ => true

def TableEntry.load (tableName : Bytes) : TableEntry → Except StorageError (Relation × Bool)
  | .absent => .error (.runtimeError ("Table does not exist: " ++ text tableName))
  | .broken e => .error e
  | .blocked c => .error (.corruption c)
  | .stored relation writable => .ok (relation, writable)

/-- What a new table is refused for. -/
def TableEntry.checkNew (tableName : Bytes) (fields : List Bytes) (entry : TableEntry) : Except StorageError Unit := do
  throwIf (entry.taken = true) (.runtimeError ("Table already exists: " ++ text tableName))
  throwIf (fields = [] ∨ fields.length > maxFields) (.invalidArgument "A table must have between 1 and 64 fields")
  validateFields fields []

/-- What a new row is refused for. -/
def Relation.checkRow (relation : Relation) (writable : Bool) (values : List Bytes) : Except StorageError Unit := do
  throwIf (values.length ≠ relation.fieldNames.length) (.invalidArgument
    ("Expected " ++ toString relation.fieldNames.length ++ " values, received " ++ toString values.length))
  validateValues values
  throwIf (writable = false) (.runtimeError "Storage format v1 is read-only; run sql_migrate_v1 before inserting")

/-- A new table object. -/
def Table.created (tableName : Bytes) (fieldNames : List Bytes) : Table := { Table.new with
  tableName := tableName
  fieldNames := fieldNames
  selectedFields := fieldNames
  usesV2Storage := true
  fieldNameMap := Table.positions fieldNames
  cache := fieldNames.foldl (fun cache field => cache.assign field .empty) .empty }

/-- The object of a v2 table that was opened. -/
def Table.opened (tableName : Bytes) (relation : Relation) : Table := { Table.new with
  tableName := tableName
  fieldNames := relation.fieldNames
  selectedFields := relation.fieldNames
  storedRows := relation.rows
  usesV2Storage := true
  numRecords := relation.rows.length
  fieldNameMap := Table.positions relation.fieldNames
  recordIndices := List.range relation.rows.length
  printQueue := relation.rows.flatten }

def Statement.tableName : Statement → Bytes
  | create tableName _ => tableName
  | insert tableName _ => tableName
  | select tableName _ _ => tableName

/-- **A statement on the entry of its table**: the table it answers with and the entry behind it, or why it is refused. -/
def Statement.answer : Statement → TableEntry → Except StorageError (Option (Table × TableEntry))
  | create tableName fields, entry => do
    fields.forM (fun field => requireIdentifier field "Field name")
    entry.checkNew tableName fields
    pure (some (Table.created tableName fields, .stored ⟨fields, []⟩ true))
  | insert tableName values, entry => do
    let (relation, writable) ← entry.load tableName
    relation.checkRow writable values
    pure (some ((Table.opened tableName relation).addRecord relation.rows.length values,
      .stored ⟨relation.fieldNames, relation.rows ++ [values]⟩ true))
  | select tableName projection condition, entry => do
    let (relation, _) ← entry.load tableName
    match projection with
    | [] => pure none
    | first :: fields =>
      let result ← relation.select tableName (if first = ascii "*" then relation.fieldNames else first :: fields)
        (condition.getD [])
      pure (some (result, entry))

/-- A statement on a database changes the entry of its table and no other. -/
def Statement.exec (statement : Statement) (db : Database) : Except StorageError (Option (Table × Database)) :=
  (statement.answer (db statement.tableName)).map (Option.map (Prod.map id (Function.update db statement.tableName)))

section
variable {statement : Statement} {db : Database}

theorem exec_error {e : StorageError} (h : statement.answer (db statement.tableName) = .error e) :
    statement.exec db = .error e := by
  rw [Statement.exec, h]
  rfl

theorem exec_none (h : statement.answer (db statement.tableName) = .ok none) : statement.exec db = .ok none := by
  rw [Statement.exec, h]
  rfl

theorem exec_ok {table : Table} {entry : TableEntry} (h :
    statement.answer (db statement.tableName) = .ok (some (table, entry))) :
    statement.exec db = .ok (some (table, Function.update db statement.tableName entry)) := by
  rw [Statement.exec, h]
  rfl

theorem exec_same {table : Table} (h : statement.answer (db statement.tableName) =
    .ok (some (table, db statement.tableName))) :
    statement.exec db = .ok (some (table, db)) :=
  (exec_ok h).trans (congrArg (fun db => Except.ok (some (table, db))) (Function.update_eq_self _ _))

end

/-- The try block of a command on a database. -/
def Database.run (db : Database) (tree : MMap Bytes Bytes) : Except StorageError (Option (Table × Database)) := do
  match ← Statement.ofTree tree with
  | none => pure none
  | some statement => statement.exec db

/-- **A command on a database.** -/
def Database.command (db : Database) (cmd : Bytes) : Option (SQL × Database) :=
  match db.run (parseTree cmd) with
  | .error .diverges => none
  | .error e => some (⟨Table.new, true, e.what, parseTree cmd⟩, db)
  | .ok none => none
  | .ok (some (table, db')) => some (⟨table, false, "", parseTree cmd⟩, db')

/-! ## What a directory shows -/

/-- **What the files show**, table by table. -/
def shown (files : Files) : Database := fun tableName =>
  if (files (Table.tableFile tableName)).isSome ∨ (files (Table.fieldFile tableName)).isSome ∨
      (files (Table.databasePath tableName)).isSome then
    match (Table.load tableName files).result with
    | .error e => .broken e
    | .ok table => .stored table.relation table.usesV2Storage
  else .absent

theorem shown_absent {files : Files} {tableName : Bytes} : shown files tableName = .absent ↔
    files (Table.tableFile tableName) = none ∧ files (Table.fieldFile tableName) = none ∧
      files (Table.databasePath tableName) = none := by
  unfold shown
  split_ifs with h
  · refine ⟨fun habs => ?_, fun ⟨h1, h2, h3⟩ => by simp [h1, h2, h3] at h⟩
    cases hload : (Table.load tableName files).result with
    | error e => rw [hload] at habs; cases habs
    | ok table => rw [hload] at habs; cases habs
  · simp only [not_or, Bool.not_eq_true, Option.isSome_eq_false_iff, Option.isNone_iff_eq_none] at h
    exact ⟨fun _ => h, fun _ => rfl⟩

theorem taken_iff {entry : TableEntry} : entry.taken = true ↔ entry ≠ .absent := by
  cases entry <;> simp [TableEntry.taken]

theorem shown_taken {files : Files} {tableName : Bytes} : (shown files tableName).taken = true ↔
    ((files (Table.tableFile tableName)).isSome ∨ (files (Table.fieldFile tableName)).isSome ∨
      (files (Table.databasePath tableName)).isSome) := by
  rw [taken_iff, ne_eq, not_congr shown_absent]
  simp only [Option.isSome_iff_ne_none]
  tauto

/-- The files of one table are the same. -/
structure SameTable (tableName : Bytes) (files files' : Files) : Prop where
  database : files' (Table.databasePath tableName) = files (Table.databasePath tableName)
  wal : files' (walPath (Table.databasePath tableName)) = files (walPath (Table.databasePath tableName))
  records : files' (Table.tableFile tableName) = files (Table.tableFile tableName)
  fields : files' (Table.fieldFile tableName) = files (Table.fieldFile tableName)

section
variable {tableName : Bytes} {files files' : Files} (h : SameTable tableName files files')
include h

theorem SameTable.disk : diskAt files' (Table.databasePath tableName) = diskAt files (Table.databasePath tableName) := by
  rw [diskAt, diskAt, h.database, h.wal]

/-- The files of other tables do not matter. -/
theorem SameTable.load : Table.load tableName files' = Table.load tableName files := by
  have hopen : onDisk (Table.databasePath tableName) (openTable (Table.databasePath tableName)) files' =
      onDisk (Table.databasePath tableName) (openTable (Table.databasePath tableName)) files := by
    rw [onDisk, onDisk, h.disk]
  unfold Table.load
  rw [observe_bind, observe_bind]
  simp only [id, h.database, h.disk, h.records, h.fields]
  split_ifs
  · rcases hrun : onDisk (Table.databasePath tableName)
      (openTable (Table.databasePath tableName)) files with ⟨es, e | loaded⟩
    · rw [bind_run_error hrun, bind_run_error (hopen.trans hrun)]
    · rw [bind_run_ok hrun, bind_run_ok (hopen.trans hrun)]
      rfl
  · cases files (Table.fieldFile tableName) <;> cases files (Table.tableFile tableName) <;> rfl

theorem SameTable.shown : shown files' tableName = Storage.shown files tableName := by
  rw [Storage.shown, Storage.shown, h.load, h.records, h.fields, h.database]

end

/-! ## Opening -/

/-- A v2 table that was opened is rebuilt from its fields and rows. -/
theorem load_opened {tableName : Bytes} {files : Files} {es : List FileEffect} {table : Table}
    (h : Table.load tableName files = ⟨es, .ok table⟩) (hv2 : table.usesV2Storage = true) :
    table = Table.opened tableName table.relation := by
  unfold Table.load at h
  rw [observe_bind] at h
  by_cases hpath : (files (Table.databasePath tableName)).isSome ∨ files (Table.databasePath tableName) = none ∧
      files (Table.tableFile tableName) = none ∧ files (Table.fieldFile tableName) = none ∧
      walPresent (diskAt files (Table.databasePath tableName)) = true
  · replace h := (congrFun (if_pos hpath) files).symm.trans h
    obtain ⟨es₁, loaded, es₂, hopen, hload, rfl⟩ := run_bind_ok.1 h
    obtain ⟨htable, rfl⟩ := attempt_ok.1 hload
    unfold Table.ofLoaded at htable
    obtain ⟨_, -, htable⟩ := except_bind_ok.1 htable
    obtain rfl := Except.ok.inj htable
    rfl
  · replace h := (congrFun (if_neg hpath) files).symm.trans h
    cases hfields : files (Table.fieldFile tableName) with
    | none =>
      simp only [id, hfields] at h
      cases (attempt_ok.1 h).1
    | some fields =>
      cases hrecords : files (Table.tableFile tableName) with
      | none =>
        simp only [id, hfields, hrecords] at h
        cases (attempt_ok.1 h).1
      | some records =>
        simp only [id, hfields, hrecords] at h
        obtain ⟨fieldNames, rows, -, -, rfl⟩ := openV1_ok (attempt_ok.1 h).1
        exact absurd hv2 (by rw [(filled_shows tableName fieldNames rows).2]; simp)

/-- The files of one table, and no others. -/
def solo (tableName : Bytes) (files : Files) : Files := fun path =>
  if path = Table.databasePath tableName ∨ path = walPath (Table.databasePath tableName) ∨
    path = Table.tableFile tableName ∨ path = Table.fieldFile tableName then files path else none

theorem load_solo (tableName : Bytes) (files : Files) :
    Table.load tableName (solo tableName files) = Table.load tableName files :=
  SameTable.load ⟨if_pos (Or.inl rfl), if_pos (Or.inr (Or.inl rfl)), if_pos (Or.inr (Or.inr (Or.inl rfl))),
    if_pos (Or.inr (Or.inr (Or.inr rfl)))⟩

theorem solo_settled {tableName : Bytes} {files : Files}
    (h : walPresent (diskAt files (Table.databasePath tableName)) = false) : Settled (solo tableName files) :=
      fun other => by
  by_cases heq : other = tableName
  · subst heq
    rw [diskAt, solo, solo, if_pos (Or.inl rfl), if_pos (Or.inr (Or.inl rfl))]
    exact h
  · have hwal : solo tableName files (walPath (Table.databasePath other)) = none := by
      refine if_neg (fun hpath => ?_)
      rcases hpath with hpath | hpath | hpath | hpath
      · exact (paths_apart tableName other).1 hpath.symm
      · exact heq (databasePath_injective (walPath_injective hpath))
      · exact (paths_apart tableName other).2.2.1 hpath.symm
      · exact (paths_apart tableName other).2.2.2.2 hpath.symm
    rw [diskAt, hwal]
    rfl

section
variable {files : Files} {tableName : Bytes} (hsettled : walPresent (diskAt files (Table.databasePath tableName)) = false)
include hsettled

/-- **Opening a table is looking it up.** -/
theorem load_shown :
    (∃ e, (shown files tableName).load tableName = .error e ∧ Table.load tableName files = ⟨[], .error e⟩) ∨
    ∃ table, (shown files tableName).load tableName = .ok (table.relation, table.usesV2Storage) ∧
      Table.load tableName files = ⟨[], .ok table⟩ ∧ table.Valid files ∧ table.tableName = tableName := by
  have hquiet := load_quiet (solo_settled hsettled) tableName
  rw [load_solo] at hquiet
  by_cases habsent : shown files tableName = .absent
  · refine Or.inl ⟨_, by rw [habsent]; rfl, ?_⟩
    obtain ⟨htable, hfield, hdb⟩ := shown_absent.1 habsent
    have hpath : ¬((files (Table.databasePath tableName)).isSome ∨ files (Table.databasePath tableName) = none ∧
        files (Table.tableFile tableName) = none ∧ files (Table.fieldFile tableName) = none ∧
        walPresent (diskAt files (Table.databasePath tableName)) = true) := by
      simp [hdb, hsettled]
    unfold Table.load
    rw [observe_bind]
    refine (congrFun (if_neg hpath) files).trans ?_
    simp only [id, hfield]
    rfl
  · have htaken := mt shown_absent.2 habsent
    rcases hload : Table.load tableName files with ⟨es, e | table⟩
    · rw [hload] at hquiet
      obtain rfl : es = [] := hquiet
      refine Or.inl ⟨e, ?_, rfl⟩
      rw [shown, if_pos (by simp only [Option.isSome_iff_ne_none]; tauto), hload]
      rfl
    · rw [hload] at hquiet
      obtain rfl : es = [] := hquiet
      obtain ⟨hvalid, fieldNames, rows, hshows⟩ := load_valid hload
      have hname := hshows.name_eq
      refine Or.inr ⟨table, ?_, rfl, hvalid, hname⟩
      rw [shown, if_pos (by simp only [Option.isSome_iff_ne_none]; tauto), hload]
      rfl

end

section
variable {files : Files}

theorem ofLoaded_opened (tableName : Bytes) {loaded : LoadedTable} (hlen : loaded.rows.length < 2 ^ 63) :
    Table.ofLoaded tableName loaded = .ok (Table.opened tableName ⟨loaded.fields, loaded.rows⟩) := by
  unfold Table.ofLoaded
  rw [throwIf_neg (by omega)]
  rfl

/-- A v2 table at rest is shown. -/
theorem Rests.shown {tableName : Bytes} {fields : List Bytes} {rows : List (List Bytes)}
    (h : Rests (diskAt files (Table.databasePath tableName)) fields rows) :
    Storage.shown files tableName = .stored ⟨fields, rows⟩ true := by
  obtain ⟨loaded, rfl, rfl, hlen, hload⟩ := load_rests h
  obtain ⟨-, image, -, hdb, -⟩ := h
  have htaken : (files (Table.databasePath tableName)).isSome := Option.isSome_iff_exists.2 ⟨image, hdb⟩
  rw [Storage.shown, if_pos (Or.inr (Or.inr htaken)), hload, ofLoaded_opened tableName hlen]
  rfl

section
variable {files' : Files} {tableName : Bytes} (honly : OnlyTable tableName files files')
include honly

/-- Other tables stay. -/
theorem OnlyTable.other {other : Bytes} (hne : other ≠ tableName) : SameTable other files files' := by
  obtain ⟨hpath, htable, htable', hfield, hfield'⟩ := paths_apart other tableName
  exact ⟨honly _ (fun heq => hne (databasePath_injective heq)) hpath,
    honly _ (fun heq => (paths_apart tableName other).1 heq.symm)
      (fun heq => hne (databasePath_injective (walPath_injective heq))),
    honly _ htable htable', honly _ hfield hfield'⟩

/-- **What is written to one table** changes its entry only. -/
theorem written_shown {fields : List Bytes} {rows : List (List Bytes)}
    (h : Rests (diskAt files' (Table.databasePath tableName)) fields rows) :
    Storage.shown files' = Function.update (Storage.shown files) tableName (.stored ⟨fields, rows⟩ true) ∧
      (Settled files → Settled files') := by
  refine ⟨funext (fun other => ?_), fun hsettled other => ?_⟩
  · by_cases heq : other = tableName
    · rw [heq, Function.update_self, h.shown]
    · rw [Function.update_of_ne heq, (honly.other heq).shown]
  · by_cases heq : other = tableName
    · rw [heq]
      exact h.1
    · rw [(honly.other heq).disk]
      exact hsettled other

end

end

/-! ## Statements against the files -/

section
variable {files : Files} {tableName : Bytes}

/-- A table is made unless the checks or the storage refuse it. -/
theorem create_shown (fields : List Bytes) :
    (∃ e, (shown files tableName).checkNew tableName fields = .error e ∧
      Table.create tableName fields files = ⟨[], .error e⟩) ∨
    (shown files tableName).checkNew tableName fields = .ok () ∧ shown files tableName = .absent ∧ FieldsOk fields ∧
      ∀ des result, createTable (Table.databasePath tableName) fields (diskAt files (Table.databasePath tableName)) =
          ⟨des, result⟩ → Table.create tableName fields files =
        ⟨des.map (FileEffect.disk (Table.databasePath tableName)),
          result.map (fun _ => Table.created tableName fields)⟩ := by
  unfold TableEntry.checkNew Table.create
  rw [observe_bind, id]
  by_cases htaken : (shown files tableName).taken = true
  · refine Or.inl ⟨_, by rw [throwIf, if_pos htaken]; rfl, bind_run_error ?_⟩
    rw [throwIf, if_pos (shown_taken.1 htaken)]
    rfl
  rw [throwIf_neg htaken, except_ok_bind, throwIf_neg (mt shown_taken.2 htaken), attempt_ok_bind]
  by_cases hcount : fields = [] ∨ fields.length > maxFields
  · refine Or.inl ⟨_, by rw [throwIf, if_pos hcount]; rfl, bind_run_error ?_⟩
    rw [throwIf, if_pos hcount]
    rfl
  rw [throwIf_neg hcount, except_ok_bind, attempt_ok_bind]
  cases hvalidate : validateFields fields [] with
  | error e => exact Or.inl ⟨e, rfl, rfl⟩
  | ok u =>
    rw [attempt_ok_bind]
    obtain ⟨hne, hlen⟩ := not_or.1 hcount
    obtain ⟨hnames, hnodup, -⟩ := validateFields_ok.1 hvalidate
    refine Or.inr ⟨rfl, by simpa [taken_iff] using htaken, ⟨List.length_pos_iff.2 hne, Nat.le_of_not_lt hlen,
      fun f hm => (hnames f hm).2, fun hm => (hnames [] hm).1 rfl, hnodup⟩, fun des result hrun => ?_⟩
    have hdisk : onDisk (Table.databasePath tableName) (createTable (Table.databasePath tableName) fields) files =
        ⟨des.map (FileEffect.disk (Table.databasePath tableName)), result⟩ := by
      rw [onDisk, hrun]
    cases result with
    | error e => exact bind_run_error hdisk
    | ok u =>
      rw [bind_run_ok hdisk]
      exact congrArg (fun effects => Outcome.mk effects _) (List.append_nil _)

/-- **A create** is refused as on the entry, or it is what the storage makes of it. -/
theorem create_agrees (fields : List Bytes) :
    (∃ e, (Statement.create tableName fields).answer (shown files tableName) = .error e ∧
      (Statement.create tableName fields).run files = ⟨[], .error e⟩) ∨
    (Statement.create tableName fields).answer (shown files tableName) =
        .ok (some (Table.created tableName fields, .stored ⟨fields, []⟩ true)) ∧
      shown files tableName = .absent ∧ FieldsOk fields ∧
      ∀ des result, createTable (Table.databasePath tableName) fields (diskAt files (Table.databasePath tableName)) =
          ⟨des, result⟩ → (Statement.create tableName fields).run files =
        ⟨des.map (FileEffect.disk (Table.databasePath tableName)),
          result.map (fun _ => some (Table.created tableName fields))⟩ := by
  simp only [Statement.answer, Statement.run]
  cases hrequire : fields.forM (fun field => requireIdentifier field "Field name") with
  | error e => exact Or.inl ⟨e, rfl, rfl⟩
  | ok u =>
    rw [attempt_ok_bind, except_ok_bind]
    rcases @create_shown files tableName fields with ⟨e, hcheck, hcreate⟩ | ⟨hcheck, habsent, hf, hcreate⟩
    · exact Or.inl ⟨e, by rw [hcheck]; rfl, bind_run_error hcreate⟩
    · refine Or.inr ⟨by rw [hcheck]; rfl, habsent, hf, fun des result hrun => ?_⟩
      cases result with
      | error e => exact bind_run_error (hcreate des _ hrun)
      | ok u =>
        rw [bind_run_ok (hcreate des _ hrun)]
        exact congrArg (fun effects => Outcome.mk effects _) (List.append_nil _)

/-- There is always room for a new table. -/
theorem created_tidy {fields : List Bytes} (hsettled : walPresent (diskAt files (Table.databasePath tableName)) = false)
    (habsent : shown files tableName = .absent) (hf : FieldsOk fields) : ∃ des,
      createTable (Table.databasePath tableName) fields (diskAt files (Table.databasePath tableName)) = ⟨des, .ok ()⟩ ∧
      Tidy (after (diskAt files (Table.databasePath tableName)) des) fields [] 1 := by
  obtain ⟨hresult, htidy⟩ := @createTable_tidy _ _ (Table.databasePath tableName) (shown_absent.1 habsent).2.2 hsettled hf
  rcases hrun : createTable (Table.databasePath tableName) fields (diskAt files (Table.databasePath tableName)) with
    ⟨des, result⟩
  rw [hrun] at hresult htidy
  obtain rfl : result = .ok () := hresult
  exact ⟨des, rfl, htidy⟩

/-- A row is added unless the checks or the storage refuse it. -/
theorem insertInto_shown {table : Table} (h : table.Valid files) (values : List Bytes) :
    (∃ e, table.relation.checkRow table.usesV2Storage values = .error e ∧ table.insertInto values files = ⟨[], .error e⟩) ∨
    (table.relation.checkRow table.usesV2Storage values = .ok () ∧ table.usesV2Storage = true ∧
      RowOk table.fieldNames.length values ∧
      ∀ des result, insertRow (Table.databasePath table.tableName) values
          (diskAt files (Table.databasePath table.tableName)) = ⟨des, result⟩ →
        table.insertInto values files = ⟨des.map (FileEffect.disk (Table.databasePath table.tableName)),
          result.map (fun _ => (ascii "insert success", table.addRecord table.storedRows.length values))⟩) := by
  have hcheck : table.relation.checkRow table.usesV2Storage values = (do
      throwIf (values.length ≠ table.fieldNames.length) (.invalidArgument
        ("Expected " ++ toString table.fieldNames.length ++ " values, received " ++ toString values.length))
      validateValues values
      throwIf (table.usesV2Storage = false)
        (.runtimeError "Storage format v1 is read-only; run sql_migrate_v1 before inserting")) := rfl
  unfold Table.insertInto
  rw [hcheck]
  by_cases harity : values.length ≠ table.fieldNames.length
  · refine Or.inl ⟨_, by rw [throwIf, if_pos harity]; rfl, bind_run_error ?_⟩
    rw [throwIf, if_pos harity]
    rfl
  rw [throwIf_neg harity, except_ok_bind, attempt_ok_bind]
  cases hvalues : validateValues values with
  | error e => exact Or.inl ⟨e, rfl, rfl⟩
  | ok u =>
    rw [attempt_ok_bind, except_ok_bind]
    by_cases hv1 : table.usesV2Storage = false
    · refine Or.inl ⟨_, by rw [throwIf, if_pos hv1], bind_run_error ?_⟩
      rw [throwIf, if_pos hv1]
      rfl
    rw [throwIf_neg hv1, attempt_ok_bind]
    refine Or.inr ⟨rfl, by simpa using hv1, ⟨not_not.1 harity, validateValues_ok.1 hvalues⟩, fun des result hrow => ?_⟩
    have hdisk : onDisk (Table.databasePath table.tableName) (insertRow (Table.databasePath table.tableName) values) files =
        ⟨des.map (FileEffect.disk (Table.databasePath table.tableName)), result⟩ := by
      rw [onDisk, hrow]
    rw [h.count]
    cases result with
    | error e => exact bind_run_error hdisk
    | ok u =>
      rw [bind_run_ok hdisk]
      exact congrArg (fun effects => Outcome.mk effects _) (List.append_nil _)

/-- An insert always returns or throws. -/
theorem insertRow_ends {path : String} {row : List Bytes} {disk : Disk} {fields : List Bytes} {rows : List (List Bytes)}
    (h : Rests disk fields rows) {des : List DiskEffect} {e : StorageError}
    (he : insertRow path row disk = ⟨des, .error e⟩) : des = [] ∧ e ≠ .diverges := by
  obtain ⟨hwal, image, P, hdb, hP, -, -⟩ := h
  obtain ⟨hok, herror⟩ := @insertRow_run path row disk [] image (recover_clean hwal) hdb
  cases hnext : buildIncrementalInsert image row with
  | ok next =>
    obtain ⟨P', hP', hw⟩ := buildIncrementalInsert_extends hnext
    obtain ⟨es, hcommit, -⟩ := commit_cuts hwal hdb hw hnext
    rw [hok next hnext, after_nil, hcommit] at he
    cases he
  | error e' =>
    obtain ⟨rfl, rfl⟩ : [] = des ∧ e' = e := by
      have := (herror e' hnext).symm.trans he
      exact ⟨congrArg Outcome.effects this, Except.error.inj (congrArg Outcome.result this)⟩
    refine ⟨rfl, ?_⟩
    obtain ⟨rfl, L, hL, hPL⟩ := parseImage_ok hP
    rcases insertRowPages_accepted hL row with ⟨e, hrefused, hrefusal⟩ | ⟨hins, hrow, hgen⟩
    · unfold buildIncrementalInsert at hnext
      rw [hP, hPL, except_ok_bind, hrefused] at hnext
      obtain rfl : e = e' := Except.error.inj hnext
      cases hrefusal <;> simp
    · -- the pages are built, and parsing them throws
      obtain ⟨w, L', hrun, hs, -⟩ := insertRowPages_spec hL hins hrow hgen
      unfold buildIncrementalInsert at hnext
      rw [hP, hPL, except_ok_bind, hrun, except_ok_bind, encodePages_ok hs, except_ok_bind] at hnext
      rcases except_bind_error.1 hnext with hparse | ⟨_, -, hreturn⟩
      · rcases parseImage_pages (imageOf w.pages) false with ⟨c, hc⟩ | ⟨pages, himage, hpages, hlen, hpages'⟩
        · rw [hc] at hparse
          cases hparse
          simp
        · rcases front_of_error hpages hlen (hpages'.symm.trans hparse) with ⟨c, rfl⟩ | ⟨F, hF, hmax⟩
          · simp
          · rw [hpages', parsePages_front hF hmax] at hparse
            cases hparse
            simp
      · cases hreturn

variable (hsettled : walPresent (diskAt files (Table.databasePath tableName)) = false)
include hsettled

/-- **An insert** is refused as on the entry, or it is what the storage makes of it. -/
theorem insert_agrees (values : List Bytes) :
    (∃ e, (Statement.insert tableName values).answer (shown files tableName) = .error e ∧
      (Statement.insert tableName values).run files = ⟨[], .error e⟩) ∨
    ∃ relation, (Statement.insert tableName values).answer (shown files tableName) =
        .ok (some ((Table.opened tableName relation).addRecord relation.rows.length values,
          .stored ⟨relation.fieldNames, relation.rows ++ [values]⟩ true)) ∧
      Rests (diskAt files (Table.databasePath tableName)) relation.fieldNames relation.rows ∧
      RowOk relation.fieldNames.length values ∧
      ∀ des result, insertRow (Table.databasePath tableName) values (diskAt files (Table.databasePath tableName)) =
          ⟨des, result⟩ → (Statement.insert tableName values).run files =
        ⟨des.map (FileEffect.disk (Table.databasePath tableName)),
          result.map (fun _ => some ((Table.opened tableName relation).addRecord relation.rows.length values))⟩ := by
  simp only [Statement.answer, Statement.run]
  rcases load_shown hsettled with ⟨e, hshown, hload⟩ | ⟨table, hshown, hload, hvalid, rfl⟩
  · exact Or.inl ⟨e, by rw [hshown]; rfl, bind_run_error hload⟩
  rw [hshown, except_ok_bind, bind_run_pure hload]
  rcases insertInto_shown hvalid values with ⟨e, hcheck, hinsert⟩ | ⟨hcheck, hv2, hrow, hinsert⟩
  · exact Or.inl ⟨e, by dsimp only; rw [hcheck]; rfl, bind_run_error hinsert⟩
  · refine Or.inr ⟨table.relation, by dsimp only; rw [hcheck]; rfl, hvalid.rests hv2, hrow, fun des result hrun => ?_⟩
    rw [← load_opened hload hv2]
    cases result with
    | error e => exact bind_run_error (hinsert des _ hrun)
    | ok u =>
      rw [bind_run_ok (hinsert des _ hrun)]
      exact congrArg (fun effects => Outcome.mk effects _) (List.append_nil _)

/-- **A select** answers as on the entry, and leaves it. -/
theorem select_agrees (projection : List Bytes) (condition : Option (List Bytes)) :
    (Statement.select tableName projection condition).run files = ⟨[],
        ((Statement.select tableName projection condition).answer (shown files tableName)).map (Option.map Prod.fst)⟩ ∧
      ∀ table entry, (Statement.select tableName projection condition).answer (shown files tableName) =
        .ok (some (table, entry)) → entry = shown files tableName := by
  simp only [Statement.answer, Statement.run]
  rcases load_shown hsettled with ⟨e, hshown, hload⟩ | ⟨table, hshown, hload, hvalid, rfl⟩
  · exact ⟨by rw [hshown]; exact bind_run_error hload, fun t entry h => by rw [hshown] at h; cases h⟩
  rw [hshown, except_ok_bind, bind_run_pure hload, load_selected hload]
  cases projection with
  | nil => exact ⟨rfl, fun t entry h => by cases h⟩
  | cons first fields =>
    dsimp only [Table.relation]
    generalize (if first = ascii "*" then table.fieldNames else first :: fields) = selectedFields
    have hselect : ∀ call : FileCall (Table × Table), (call files).effects = [] →
        (call files).result.map Prod.fst =
          table.relation.select table.tableName selectedFields (condition.getD []) →
        (do let (result, _) ← call
            pure (some result) : FileCall (Option Table)) files = ⟨[], ((do
              let result ← table.relation.select table.tableName selectedFields (condition.getD [])
              pure (some (result, shown files table.tableName)) : Except StorageError (Option (Table × TableEntry)))).map
                (Option.map Prod.fst)⟩ := fun call hquiet hresult => by
      rcases hcall : call files with ⟨es, e | ⟨result, t⟩⟩
      · rw [hcall] at hquiet hresult
        obtain rfl : es = [] := hquiet
        rw [bind_run_error hcall, ← hresult]
        rfl
      · rw [hcall] at hquiet hresult
        obtain rfl : es = [] := hquiet
        rw [bind_run_pure hcall, ← hresult]
        rfl
    refine ⟨?_, fun t entry h => ?_⟩
    · cases condition with
      | none =>
        obtain ⟨hquiet, hresult⟩ := selectStrings_relation hvalid selectedFields []
        exact hselect (table.selectStrings selectedFields []) hquiet hresult
      | some expression =>
        obtain ⟨hquiet, hresult⟩ := selectStrings_relation hvalid selectedFields expression
        exact hselect (table.selectStrings selectedFields expression) hquiet hresult
    · obtain ⟨result, -, hresult⟩ := except_bind_ok.1 h
      cases hresult
      rfl

end

theorem onlyTable_disk (tableName : Bytes) (files : Files) (des : List DiskEffect) :
    OnlyTable tableName files (after files (des.map (FileEffect.disk (Table.databasePath tableName)))) :=
  fun _ hdb hwal => after_onDisk_other hdb hwal des files

/-- Effects on the disk of one table that leave it at rest. -/
theorem wrote_shown {files : Files} {tableName : Bytes} {fields : List Bytes} {rows : List (List Bytes)}
    {des : List DiskEffect} (hsettled : Settled files)
    (h : Rests (after (diskAt files (Table.databasePath tableName)) des) fields rows) :
    let files' := after files (des.map (FileEffect.disk (Table.databasePath tableName)))
    shown files' = Function.update (shown files) tableName (.stored ⟨fields, rows⟩ true) ∧ Settled files' := by
  obtain ⟨hshown, hsettled'⟩ := written_shown (onlyTable_disk tableName files des)
    (show Rests (diskAt _ (Table.databasePath tableName)) fields rows by rwa [diskAt_after])
  exact ⟨hshown, hsettled' hsettled⟩

/-! ## Tidy directories -/

/-- No log holds anything, and every v2 table came about in `n` steps at most. -/
structure Fits (n : Nat) (files : Files) : Prop where
  settled : Settled files
  tidy : ∀ tableName, (files (Table.databasePath tableName)).isSome → ∃ fields rows generation,
    Tidy (diskAt files (Table.databasePath tableName)) fields rows generation ∧ rows.length ≤ n ∧ generation ≤ n + 1

theorem Fits.mono {n m : Nat} {files : Files} (h : Fits n files) (hle : n ≤ m) : Fits m files := by
  refine ⟨h.settled, fun tableName hsome => ?_⟩
  obtain ⟨fields, rows, generation, htidy, hrows, hgen⟩ := h.tidy tableName hsome
  exact ⟨fields, rows, generation, htidy, Nat.le_trans hrows hle, Nat.le_trans hgen (Nat.succ_le_succ hle)⟩

/-- A directory without v2 tables and without logs. -/
theorem fits_start {files : Files} (hsettled : Settled files)
    (h : ∀ tableName, files (Table.databasePath tableName) = none) :
    Fits 0 files :=
  ⟨hsettled, fun tableName hsome => by rw [h tableName] at hsome; cases hsome⟩

theorem Fits.wrote {n : Nat} {files : Files} (h : Fits n files) {tableName : Bytes} {des : List DiskEffect}
    {fields : List Bytes} {rows : List (List Bytes)} {generation : Nat}
    (htidy : Tidy (after (diskAt files (Table.databasePath tableName)) des) fields rows generation)
    (hrows : rows.length ≤ n + 1) (hgen : generation ≤ n + 2) :
    Fits (n + 1) (after files (des.map (FileEffect.disk (Table.databasePath tableName)))) := by
  have honly := onlyTable_disk tableName files des
  refine ⟨(wrote_shown h.settled htidy.clean.rests).2, fun other hsome => ?_⟩
  by_cases heq : other = tableName
  · subst heq
    exact ⟨fields, rows, generation, by rwa [diskAt_after], hrows, hgen⟩
  · have hsame := honly.other heq
    rw [hsame.disk]
    exact (h.mono (Nat.le_succ n)).tidy other (hsame.database ▸ hsome)

/-- **A statement against a tidy directory** does exactly what it does to what the files show, as long as the tables have
less than 2²⁴ rows. -/
theorem statement_exact {n : Nat} {files : Files} (h : Fits n files) (hn : n < 2 ^ 24) (statement : Statement) :
    (∃ e, statement.exec (shown files) = .error e ∧ statement.run files = ⟨[], .error e⟩) ∨
    (statement.exec (shown files) = .ok none ∧ statement.run files = ⟨[], .ok none⟩) ∨
    ∃ es table, statement.exec (shown files) = .ok (some (table, shown (after files es))) ∧
      statement.run files = ⟨es, .ok (some table)⟩ ∧ Fits (n + 1) (after files es) := by
  cases statement with
  | create tableName fields =>
    rcases @create_agrees files tableName fields with ⟨e, hanswer, hrun⟩ | ⟨hanswer, habsent, hf, hrun⟩
    · exact Or.inl ⟨e, exec_error hanswer, hrun⟩
    · obtain ⟨des, hdes, htidy⟩ := created_tidy (h.settled tableName) habsent hf
      obtain ⟨hshown, -⟩ := wrote_shown h.settled htidy.clean.rests
      exact Or.inr (Or.inr ⟨_, _, by rw [hshown]; exact exec_ok hanswer, hrun _ _ hdes,
        h.wrote htidy (Nat.zero_le _) (by omega)⟩)
  | insert tableName values =>
    rcases insert_agrees (h.settled tableName) values with ⟨e, hanswer, hrun⟩ | ⟨relation, hanswer, hrests, hrow, hrun⟩
    · exact Or.inl ⟨e, exec_error hanswer, hrun⟩
    · obtain ⟨fields, rows, generation, htidy, hrows, hgen⟩ := h.tidy tableName (by
        obtain ⟨-, image, -, hdb, -⟩ := hrests
        exact Option.isSome_iff_exists.2 ⟨image, hdb⟩)
      obtain ⟨rfl, rfl⟩ : relation.fieldNames = fields ∧ relation.rows = rows := by
        have hsame := hrests.shown.symm.trans htidy.clean.rests.shown
        injection hsame with hrelation
        exact Relation.mk.inj hrelation
      rcases hdes : insertRow (Table.databasePath tableName) values (diskAt files (Table.databasePath tableName)) with
        ⟨des, result⟩
      obtain ⟨hresult, htidy'⟩ := @insertRow_fits _ _ _ _ _ (Table.databasePath tableName) htidy hrow (by omega) (by omega)
      rw [hdes] at hresult htidy'
      obtain rfl : result = .ok () := hresult
      obtain ⟨hshown, -⟩ := wrote_shown h.settled htidy'.clean.rests
      refine Or.inr (Or.inr ⟨_, _, by rw [hshown]; exact exec_ok hanswer, hrun _ _ hdes, h.wrote htidy' ?_ (by omega)⟩)
      rw [List.length_append, List.length_singleton]
      omega
  | select tableName projection condition =>
    obtain ⟨hrun, hsame⟩ := select_agrees (h.settled tableName) projection condition
    rcases hanswer : (Statement.select tableName projection condition).answer (shown files tableName) with
      e | _ | ⟨table, entry⟩
    · exact Or.inl ⟨e, exec_error hanswer, by rw [hrun, hanswer]; rfl⟩
    · exact Or.inr (Or.inl ⟨exec_none hanswer, by rw [hrun, hanswer]; rfl⟩)
    · obtain rfl := hsame table entry hanswer
      exact Or.inr (Or.inr ⟨[], table, exec_same hanswer, by rw [hrun, hanswer]; rfl, h.mono (Nat.le_succ n)⟩)

end Storage
end Sql
