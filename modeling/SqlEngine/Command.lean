import SqlEngine.Parser
import SqlEngine.Session
import SqlEngine.Runs
import SqlEngine.Growth
/-!
# Command — one command against the files

`SQL::command`: the parse tree says what is done to which table.  A command on tables whose logs are clean either changes
the two files of the first table that it names, or no file at all (`command_atomic`).
-/
namespace Sql
namespace Storage

open Wire Effects Maps Query

/-! ## Identifiers -/

/-- `isalpha` in the C locale. -/
def isAlpha (b : UInt8) : Bool := (65 ≤ b ∧ b ≤ 90) ∨ (97 ≤ b ∧ b ≤ 122)

def isAlnum (b : UInt8) : Bool := isAlpha b ∨ (48 ≤ b ∧ b ≤ 57)

def isIdentifier : Bytes → Bool
  | [] => false
  | first :: rest => (isAlpha first ∨ first = 95) ∧ (first :: rest).all (fun b => isAlnum b ∨ b = 95)

def requireIdentifier (value : Bytes) (label : String) : Except StorageError Unit :=
  throwIf (isIdentifier value = false) (.invalidArgument (label ++ " must be a valid identifier"))

/-! ## The command -/

/-- What the members show behind a command. -/
structure SQL where
  table : Table
  error : Bool
  lastError : String
  ptree : MMap Bytes Bytes

/-! The three branches of the try block.  `none` is where a vector is read behind its end. -/

def SQL.create (tree : MMap Bytes Bytes) (tableName : Bytes) : FileCall (Option Table) := do
  let fields := tree.get (ascii "fields")
  attempt (fields.forM (fun field => requireIdentifier field "Field name"))
  let table ← Table.create tableName fields
  pure (some table)

def SQL.insert (tree : MMap Bytes Bytes) (tableName : Bytes) : FileCall (Option Table) := do
  let table ← Table.load tableName
  let (_, table) ← table.insertInto (tree.get (ascii "values"))
  pure (some table)

def SQL.select (tree : MMap Bytes Bytes) (tableName : Bytes) : FileCall (Option Table) := do
  let table ← Table.load tableName
  match tree.get (ascii "fields") with
  | [] => pure none
  | first :: fields =>
    let selectedFields := if first = ascii "*" then table.selectedFields else first :: fields
    let (result, _) ← if tree.contains (ascii "where") = false then table.selectStrings selectedFields []
      else table.selectStrings selectedFields (tree.get (ascii "condition"))
    pure (some result)

/-- The try block behind the parser. -/
def SQL.run (tree : MMap Bytes Bytes) : FileCall (Option Table) := do
  attempt (throwIf (tree.items = []) (.invalidArgument "Invalid command syntax"))
  match tree.get (ascii "table_name"), tree.get (ascii "command") with
  | tableName :: _, commandName :: _ =>
    attempt (requireIdentifier tableName "Table name")
    if commandName = ascii "create" then SQL.create tree tableName
    else if commandName = ascii "insert" then SQL.insert tree tableName
    else if commandName = ascii "select" then SQL.select tree tableName
    else attempt (.error (.invalidArgument "Unsupported command"))
  | _, _ => pure none

/-- `SQL::command`; `none` when it does not return. -/
def SQL.command (cmd : Bytes) (files : Files) : Option (SQL × Files) :=
  match SQL.run (parseTree cmd) files with
  | ⟨_, .error .diverges⟩ => none
  | ⟨es, .error e⟩ => some (⟨Table.new, true, e.what, parseTree cmd⟩, after files es)
  | ⟨_, .ok none⟩ => none
  | ⟨es, .ok (some table)⟩ => some (⟨table, false, "", parseTree cmd⟩, after files es)

/-! ## Calls that change nothing -/

/-- No log holds anything. -/
def Settled (files : Files) : Prop := ∀ tableName, walPresent (diskAt files (Table.databasePath tableName)) = false

theorem openTable_quiet {path : String} {disk : Disk} (h : walPresent disk = false) :
    (openTable path disk).effects = [] := by
  unfold openTable
  rw [bind_run_pure (recover_clean h), observe_bind]
  exact bind_quiet rfl (fun bytes _ => bind_quiet rfl (fun parsed _ => rfl))

theorem queryIndex_quiet {path : String} {disk : Disk} (h : walPresent disk = false) (fieldIndex : Nat)
    (operation value : Bytes) : (queryIndex path fieldIndex operation value disk).effects = [] := by
  unfold queryIndex
  refine bind_quiet (openTable_quiet h) (fun table _ => ?_)
  cases table.indexes[fieldIndex]? with
  | none => rfl
  | some index => rfl

theorem onDisk_quiet {α : Type} {path : String} {call : Call α} {files : Files}
    (h : (call (diskAt files path)).effects = []) : (onDisk path call files).effects = [] := by
  rw [onDisk, h]
  rfl

section
variable {files : Files} (hsettled : Settled files)
include hsettled

theorem load_quiet (tableName : Bytes) : (Table.load tableName files).effects = [] := by
  unfold Table.load
  rw [observe_bind]
  by_cases hv2 : (files (Table.databasePath tableName)).isSome ∨ files (Table.databasePath tableName) = none ∧
      files (Table.tableFile tableName) = none ∧ files (Table.fieldFile tableName) = none ∧
      walPresent (diskAt files (Table.databasePath tableName)) = true
  · refine (congrArg Outcome.effects (congrFun (if_pos hv2) files)).trans ?_
    exact bind_quiet (onDisk_quiet (openTable_quiet (hsettled tableName))) (fun loaded _ => rfl)
  · refine (congrArg Outcome.effects (congrFun (if_neg hv2) files)).trans ?_
    cases hfields : files (Table.fieldFile tableName) with
    | none => simp only [id, hfields, attempt]
    | some fields =>
      cases hrecords : files (Table.tableFile tableName) with
      | none => simp only [id, hfields, hrecords, attempt]
      | some records => simp only [id, hfields, hrecords, attempt]

theorem selectHelp_quiet (table : Table) (fieldName operation value : Bytes) :
    (table.selectHelp fieldName operation value files).effects = [] := by
  unfold Table.selectHelp
  refine bind_quiet rfl (fun _ _ => ?_)
  by_cases hv2 : table.usesV2Storage = true
  · rw [if_pos hv2]
    exact bind_quiet (onDisk_quiet (queryIndex_quiet (hsettled table.tableName) _ operation value))
      (fun records _ => bind_quiet rfl (fun _ _ => rfl))
  · rw [if_neg hv2]
    split_ifs
    all_goals rfl

theorem evalLoop_quiet : ∀ (queue : List Token) (s : List Bytes) (indices : List (List Nat)) (table : Table),
    (Table.evalLoop queue s indices table files).effects = [] := by
  intro queue
  induction queue with
  | nil =>
    intro s indices table
    cases s with
    | cons str s => rw [Table.evalLoop]; all_goals simp [attempt]
    | nil =>
      rcases indices with _ | ⟨result, _ | ⟨second, indices⟩⟩
      · rw [Table.evalLoop]; all_goals simp [attempt]
      · rw [Table.evalLoop]; rfl
      · rw [Table.evalLoop]; all_goals simp [attempt]
  | cons token queue ih =>
    intro s indices table
    cases token with
    | tokenStr str => rw [Table.evalLoop]; exact ih _ _ _
    | leftParen => rw [Table.evalLoop]; exact ih _ _ _
    | rightParen => rw [Table.evalLoop]; exact ih _ _ _
    | relational operation =>
      rcases s with _ | ⟨value, _ | ⟨name, s⟩⟩
      · rw [Table.evalLoop]; all_goals simp [attempt]
      · rw [Table.evalLoop]; all_goals simp [attempt]
      · rw [Table.evalLoop]
        exact bind_quiet (selectHelp_quiet hsettled table name operation value) (fun x _ => ih _ _ _)
    | logical operation =>
      rcases indices with _ | ⟨first, _ | ⟨second, indices⟩⟩
      · rw [Table.evalLoop]; all_goals simp [attempt]
      · rw [Table.evalLoop]; all_goals simp [attempt]
      · rw [Table.evalLoop]; exact ih _ _ _

theorem select_quiet (table : Table) (selected : List Bytes) (expression : List Token) :
    (table.select selected expression files).effects = [] := by
  unfold Table.select
  refine bind_quiet rfl (fun _ _ => ?_)
  by_cases hempty : expression = []
  · rw [if_neg (not_not.2 hempty)]
    exact bind_quiet rfl (fun x _ => bind_quiet rfl (fun values _ => rfl))
  · rw [if_pos hempty]
    exact bind_quiet (evalLoop_quiet hsettled _ _ _ _) (fun x _ => bind_quiet rfl (fun values _ => rfl))

theorem selectStrings_quiet (table : Table) (selected expression : List Bytes) :
    (table.selectStrings selected expression files).effects = [] := by
  unfold Table.selectStrings
  cases toPostfix (expression.map Table.allocateToken) with
  | none => rfl
  | some postfixQueue => exact select_quiet hsettled table selected postfixQueue

end

/-! ## Calls that are refused -/

theorem create_refused {tableName : Bytes} {fieldNames : List Bytes} {files : Files} {es : List FileEffect}
    {e : StorageError}
    (h : Table.create tableName fieldNames files = ⟨es, .error e⟩) : es = [] := by
  unfold Table.create at h
  rw [observe_bind] at h
  rcases run_bind_error.1 h with h1 | ⟨es₁, _, es₂, hcheck, h1, rfl⟩
  · exact (attempt_error.1 h1).2
  obtain ⟨-, rfl⟩ := attempt_ok.1 hcheck
  rcases run_bind_error.1 h1 with h2 | ⟨es₁, _, es₃, hcheck, h2, rfl⟩
  · exact (attempt_error.1 h2).2
  obtain ⟨-, rfl⟩ := attempt_ok.1 hcheck
  rcases run_bind_error.1 h2 with h3 | ⟨es₁, _, es₄, hcheck, h3, rfl⟩
  · exact (attempt_error.1 h3).2
  obtain ⟨-, rfl⟩ := attempt_ok.1 hcheck
  rcases run_bind_error.1 h3 with h4 | ⟨es₁, _, es₅, -, h4, -⟩
  · have hquiet := @onDisk_quiet _ _ _ files (createFromRows_refused (congrArg Outcome.result h4))
    exact (congrArg Outcome.effects h4).symm.trans hquiet
  · cases h4

theorem insertInto_refused {table : Table} {files : Files} (h : table.Valid files) {fieldValues : List Bytes}
    {es : List FileEffect} {e : StorageError} (hinsert : table.insertInto fieldValues files = ⟨es, .error e⟩) : es = [] := by
  cases hv2 : table.usesV2Storage with
  | true =>
    rcases insertInto_run h hv2 fieldValues with ⟨e', he'⟩ | ⟨es', hrun, -⟩
    · cases he'.symm.trans hinsert
      rfl
    · cases hrun.symm.trans hinsert
  | false =>
    refine (congrArg Outcome.effects hinsert).symm.trans ?_
    unfold Table.insertInto
    rw [throwIf, throwIf, if_pos hv2]
    exact bind_quiet rfl (fun _ _ => bind_quiet rfl (fun _ _ => rfl))

/-! ## The cases of a command -/

/-- The first table that a tree names, and what is done to it. -/
def Names (tree : MMap Bytes Bytes) (tableName commandName : Bytes) : Prop :=
  (tree.get (ascii "table_name")).head? = some tableName ∧ (tree.get (ascii "command")).head? = some commandName

theorem Names.run {tree : MMap Bytes Bytes} {tableName commandName : Bytes} (h : Names tree tableName commandName)
    (hid : isIdentifier tableName = true) : SQL.run tree =
      if commandName = ascii "create" then SQL.create tree tableName
      else if commandName = ascii "insert" then SQL.insert tree tableName
      else if commandName = ascii "select" then SQL.select tree tableName
      else attempt (.error (.invalidArgument "Unsupported command")) := by
  obtain ⟨hname, hcommand⟩ := h
  have hne : tree.items ≠ [] := fun hempty => by
    rw [show tree.get (ascii "command") = [] by rw [MMap.get, OrderedMap.lookup, hempty]; rfl] at hcommand
    cases hcommand
  obtain ⟨tableNames, hnames⟩ := List.head?_eq_some_iff.1 hname
  obtain ⟨commandNames, hcommands⟩ := List.head?_eq_some_iff.1 hcommand
  funext files
  unfold SQL.run
  rw [throwIf_neg hne, attempt_ok_bind, hnames, hcommands]
  simp only [requireIdentifier]
  rw [throwIf_neg (by simp [hid]), attempt_ok_bind]

/-- **Where a command goes**: it stops in front of the first call on a table, or is one of the three. -/
theorem run_cases (tree : MMap Bytes Bytes) (files : Files) :
    (∃ e, SQL.run tree files = ⟨[], .error e⟩) ∨ SQL.run tree files = ⟨[], .ok none⟩ ∨
    ∃ tableName commandName, Names tree tableName commandName ∧ isIdentifier tableName = true ∧
      ((commandName = ascii "create" ∧ SQL.run tree files = SQL.create tree tableName files) ∨
      (commandName = ascii "insert" ∧ SQL.run tree files = SQL.insert tree tableName files) ∨
      (commandName = ascii "select" ∧ SQL.run tree files = SQL.select tree tableName files)) := by
  by_cases hnamed : ∃ tableName commandName, Names tree tableName commandName ∧ isIdentifier tableName = true
  · obtain ⟨tableName, commandName, h, hid⟩ := hnamed
    have hrun := h.run hid
    by_cases hcreate : commandName = ascii "create"
    · rw [if_pos hcreate] at hrun
      exact Or.inr (Or.inr ⟨_, _, h, hid, Or.inl ⟨hcreate, congrFun hrun files⟩⟩)
    by_cases hinsert : commandName = ascii "insert"
    · rw [if_neg hcreate, if_pos hinsert] at hrun
      exact Or.inr (Or.inr ⟨_, _, h, hid, Or.inr (Or.inl ⟨hinsert, congrFun hrun files⟩)⟩)
    by_cases hselect : commandName = ascii "select"
    · rw [if_neg hcreate, if_neg hinsert, if_pos hselect] at hrun
      exact Or.inr (Or.inr ⟨_, _, h, hid, Or.inr (Or.inr ⟨hselect, congrFun hrun files⟩)⟩)
    rw [if_neg hcreate, if_neg hinsert, if_neg hselect] at hrun
    exact Or.inl ⟨_, congrFun hrun files⟩
  unfold SQL.run
  by_cases hempty : tree.items = []
  · exact Or.inl ⟨_, by rw [throwIf, if_pos hempty]; rfl⟩
  rw [throwIf_neg hempty, attempt_ok_bind]
  rcases hnames : tree.get (ascii "table_name") with _ | ⟨tableName, tableNames⟩
  · exact Or.inr (Or.inl rfl)
  rcases hcommands : tree.get (ascii "command") with _ | ⟨commandName, commandNames⟩
  · exact Or.inr (Or.inl rfl)
  refine Or.inl ⟨.invalidArgument ("Table name" ++ " must be a valid identifier"), bind_run_error ?_⟩
  have hid : isIdentifier tableName = false := Bool.eq_false_iff.2 (fun hid =>
    hnamed ⟨tableName, commandName, ⟨by rw [hnames]; rfl, by rw [hcommands]; rfl⟩, hid⟩)
  rw [requireIdentifier, throwIf, if_pos hid]
  rfl

section
variable {tree : MMap Bytes Bytes} {files : Files} {es : List FileEffect} {tableName : Bytes}

theorem sqlCreate_ok {result : Option Table} (h : SQL.create tree tableName files = ⟨es, .ok result⟩) :
    ∃ table, result = some table ∧ Table.create tableName (tree.get (ascii "fields")) files = ⟨es, .ok table⟩ := by
  unfold SQL.create at h
  obtain ⟨_, -, h1⟩ := attempt_bind_ok.1 h
  obtain ⟨es₁, table, es₂, hcreate, hreturn, rfl⟩ := run_bind_ok.1 h1
  obtain ⟨rfl, rfl⟩ := return_ok.1 hreturn
  exact ⟨table, rfl, by rw [List.append_nil]; exact hcreate⟩

theorem sqlCreate_refused {e : StorageError} (h : SQL.create tree tableName files = ⟨es, .error e⟩) : es = [] := by
  unfold SQL.create at h
  rcases run_bind_error.1 h with h1 | ⟨es₁, _, es₂, hcheck, h1, rfl⟩
  · exact (attempt_error.1 h1).2
  obtain ⟨-, rfl⟩ := attempt_ok.1 hcheck
  rcases run_bind_error.1 h1 with h2 | ⟨es₁, _, es₃, -, h2, -⟩
  · exact create_refused h2
  · cases h2

theorem sqlCreate_run {table : Table} {fieldNames : List Bytes} (hfields : tree.get (ascii "fields") = fieldNames)
    (hids : fieldNames.forM (fun field => requireIdentifier field "Field name") = .ok ())
    (hcreate : Table.create tableName fieldNames files = ⟨es, .ok table⟩) :
    SQL.create tree tableName files = ⟨es ++ [], .ok (some table)⟩ := by
  unfold SQL.create
  rw [hfields, hids, attempt_ok_bind]
  exact bind_run_ok hcreate

theorem sqlInsert_run {before table : Table} {str : Bytes} (hload : Table.load tableName files = ⟨[], .ok before⟩)
    (hinsert : before.insertInto (tree.get (ascii "values")) files = ⟨es, .ok (str, table)⟩) :
    SQL.insert tree tableName files = ⟨es ++ [], .ok (some table)⟩ := by
  unfold SQL.insert
  rw [bind_run_pure hload]
  exact bind_run_ok hinsert

theorem sqlInsert_throws {before : Table} {e : StorageError} (hload : Table.load tableName files = ⟨[], .ok before⟩)
    (hinsert : before.insertInto (tree.get (ascii "values")) files = ⟨es, .error e⟩) :
    SQL.insert tree tableName files = ⟨es, .error e⟩ := by
  unfold SQL.insert
  rw [bind_run_pure hload]
  exact bind_run_error hinsert

variable (hsettled : Settled files)
include hsettled

theorem load_settled {es : List FileEffect} {table : Table} (h : Table.load tableName files = ⟨es, .ok table⟩) :
    es = [] ∧ table.Valid files ∧ table.tableName = tableName := by
  obtain rfl : es = [] := (congrArg Outcome.effects h).symm.trans (load_quiet hsettled tableName)
  obtain ⟨hvalid, fieldNames, rows, hshows⟩ := load_valid h
  exact ⟨rfl, hvalid, hshows.name_eq⟩

theorem sqlInsert_ok {result : Option Table} (h : SQL.insert tree tableName files = ⟨es, .ok result⟩) :
    ∃ before table str, result = some table ∧ Table.load tableName files = ⟨[], .ok before⟩ ∧ before.Valid files ∧
      before.tableName = tableName ∧ before.insertInto (tree.get (ascii "values")) files = ⟨es, .ok (str, table)⟩ := by
  unfold SQL.insert at h
  obtain ⟨es₁, before, es₂, hload, h1, rfl⟩ := run_bind_ok.1 h
  obtain ⟨rfl, hvalid, hname⟩ := load_settled hsettled hload
  obtain ⟨es₁, ⟨str, table⟩, es₃, hinsert, hreturn, rfl⟩ := run_bind_ok.1 h1
  obtain ⟨rfl, rfl⟩ := return_ok.1 hreturn
  exact ⟨before, table, str, rfl, hload, hvalid, hname, by rw [List.nil_append, List.append_nil]; exact hinsert⟩

theorem sqlInsert_refused {e : StorageError} (h : SQL.insert tree tableName files = ⟨es, .error e⟩) : es = [] := by
  unfold SQL.insert at h
  rcases run_bind_error.1 h with h1 | ⟨es₁, before, es₂, hload, h1, rfl⟩
  · exact (congrArg Outcome.effects h1).symm.trans (load_quiet hsettled tableName)
  obtain ⟨rfl, hvalid, -⟩ := load_settled hsettled hload
  rcases run_bind_error.1 h1 with h2 | ⟨es₁, _, es₃, -, h2, -⟩
  · exact insertInto_refused hvalid h2
  · cases h2

/-- A select changes no file. -/
theorem sqlSelect_quiet (tree : MMap Bytes Bytes) (tableName : Bytes) : (SQL.select tree tableName files).effects = [] := by
  unfold SQL.select
  refine bind_quiet (load_quiet hsettled tableName) (fun table _ => ?_)
  cases tree.get (ascii "fields") with
  | nil => rfl
  | cons first fields =>
    simp only
    by_cases hwhere : tree.contains (ascii "where") = false
    · rw [if_pos hwhere]
      exact bind_quiet (selectStrings_quiet hsettled table _ []) (fun _ _ => rfl)
    · rw [if_neg hwhere]
      exact bind_quiet (selectStrings_quiet hsettled table _ _) (fun _ _ => rfl)

/-- **A command that throws has done nothing.** -/
theorem run_refused {e : StorageError} (h : SQL.run tree files = ⟨es, .error e⟩) : es = [] := by
  rcases run_cases tree files with ⟨e', hrun⟩ | hrun | ⟨tableName, commandName, -, -, ⟨-, hrun⟩ | ⟨-, hrun⟩ | ⟨-, hrun⟩⟩
  · exact (congrArg Outcome.effects (hrun.symm.trans h)).symm
  · cases hrun.symm.trans h
  · exact sqlCreate_refused (hrun.symm.trans h)
  · exact sqlInsert_refused hsettled (hrun.symm.trans h)
  · rw [hrun] at h
    exact (congrArg Outcome.effects h).symm.trans (sqlSelect_quiet hsettled tree tableName)

end

/-! ## Paths -/

theorem text_injective : Function.Injective text := fun a b h => by
  have hlist := congrArg String.toList h
  simp only [text, String.toList_ofList] at hlist
  refine (List.map_injective_iff.2 (fun x y hxy => ?_)) hlist
  have hx : ∀ b : UInt8, (Char.ofNat b.toNat).toNat = b.toNat := fun b => by
    have hchar : ∀ n : Fin 256, (Char.ofNat n.val).toNat = n.val := by decide +kernel
    exact hchar ⟨b.toNat, b.toNat_lt⟩
  have hnat := congrArg Char.toNat hxy
  rw [hx, hx] at hnat
  exact UInt8.toNat_inj.1 hnat

theorem databasePath_injective : Function.Injective Table.databasePath := fun a b h => by
  have hlist := congrArg String.toList h
  simp only [Table.databasePath, String.toList_append] at hlist
  exact text_injective (String.toList_injective (List.append_cancel_right hlist))

theorem walPath_injective : Function.Injective walPath := fun a b h => by
  have hlist := congrArg String.toList h
  simp only [walPath, String.toList_append] at hlist
  exact String.toList_injective (List.append_cancel_right hlist)

/-- The last characters of the paths: `2` and `l` for the two files of a v2 table, `n` for those of a v1 table. -/
theorem paths_apart (a b : Bytes) : Table.databasePath a ≠ walPath (Table.databasePath b) ∧
    Table.tableFile a ≠ Table.databasePath b ∧ Table.tableFile a ≠ walPath (Table.databasePath b) ∧
    Table.fieldFile a ≠ Table.databasePath b ∧ Table.fieldFile a ≠ walPath (Table.databasePath b) := by
  refine ⟨fun h => ?_, fun h => ?_, fun h => ?_, fun h => ?_, fun h => ?_⟩
  all_goals
    have hlast := congrArg (fun s : String => s.toList.getLast?) h
    simp [Table.databasePath, Table.tableFile, Table.fieldFile, walPath] at hlast

/-! ## All or nothing -/

/-- Only the two files of a table differ. -/
def OnlyTable (tableName : Bytes) (files files' : Files) : Prop :=
  ∀ path, path ≠ Table.databasePath tableName → path ≠ walPath (Table.databasePath tableName) → files' path = files path

theorem onDisk_only {α : Type} {tableName : Bytes} {call : Call α} {files : Files} {es : List FileEffect}
    {result : Except StorageError α} (h : onDisk (Table.databasePath tableName) call files = ⟨es, result⟩) :
    OnlyTable tableName files (after files es) := fun path hdb hwal => by
  cases h
  exact after_onDisk_other hdb hwal _ files

theorem create_only {tableName : Bytes} {fieldNames : List Bytes} {files : Files} {es : List FileEffect} {table : Table}
    (h : Table.create tableName fieldNames files = ⟨es, .ok table⟩) : OnlyTable tableName files (after files es) := by
  obtain ⟨hcreate, -⟩ := create_ok h
  exact onDisk_only hcreate

theorem insertInto_only {table table' : Table} {files : Files} {values : List Bytes} {str : Bytes} {es : List FileEffect}
    (h : table.insertInto values files = ⟨es, .ok (str, table')⟩) : OnlyTable table.tableName files (after files es) := by
  obtain ⟨-, -, hinsert, -⟩ := insertInto_ok h
  exact onDisk_only hinsert

/-- What opening a v2 table shows. -/
theorem load_shows {tableName : Bytes} {files : Files} {fields : List Bytes} {rows : List (List Bytes)}
    (h : Rests (diskAt files (Table.databasePath tableName)) fields rows) :
    ∃ fresh, Table.load tableName files = ⟨[], .ok fresh⟩ ∧ fresh.fieldNames = fields ∧ fresh.storedRows = rows := by
  obtain ⟨loaded, hfields, hrows, hlen, hload⟩ := load_rests h
  obtain ⟨fresh, hfresh⟩ : ∃ fresh, Table.ofLoaded tableName loaded = .ok fresh := by
    unfold Table.ofLoaded
    rw [hrows, throwIf_neg (by omega)]
    exact ⟨_, rfl⟩
  obtain ⟨hshows, -⟩ := ofLoaded_ok hfresh
  exact ⟨fresh, by rw [hload, hfresh], hshows.fields_eq.trans hfields, hshows.rows_eq.trans hrows⟩

/-- What a command returned from. -/
theorem command_inv {cmd : Bytes} {files files' : Files} {sql : SQL} (h : SQL.command cmd files = some (sql, files')) :
    sql.ptree = parseTree cmd ∧ ∃ es, files' = after files es ∧
      ((sql.error = true ∧ ∃ e, SQL.run (parseTree cmd) files = ⟨es, .error e⟩) ∨
      (sql.error = false ∧ SQL.run (parseTree cmd) files = ⟨es, .ok (some sql.table)⟩)) := by
  unfold SQL.command at h
  rcases hrun : SQL.run (parseTree cmd) files with ⟨es, e | _ | table⟩
  · rw [hrun] at h
    cases e with
    | diverges => cases h
    | _ =>
      cases h
      exact ⟨rfl, es, rfl, Or.inl ⟨rfl, _, rfl⟩⟩
  · rw [hrun] at h
    cases h
  · rw [hrun] at h
    cases h
    exact ⟨rfl, es, rfl, Or.inr ⟨rfl, rfl⟩⟩

/-- **A command changes nothing, or one table.**  Where no log holds anything, a command that reports an error leaves every
file as it was; one that creates or inserts changes the two files of the first table it names, and opening that table shows
the fields of the tree without rows, or one more row. -/
theorem command_atomic {cmd : Bytes} {files files' : Files} {sql : SQL} (hsettled : Settled files)
    (h : SQL.command cmd files = some (sql, files')) :
    (sql.error = true → files' = files) ∧
    (sql.error = false → ∀ tableName, (sql.ptree.get (ascii "table_name")).head? = some tableName →
      ((sql.ptree.get (ascii "command")).head? = some (ascii "create") → OnlyTable tableName files files' ∧
        ∃ fresh, Table.load tableName files' = ⟨[], .ok fresh⟩ ∧ fresh.fieldNames = sql.ptree.get (ascii "fields") ∧
          fresh.storedRows = []) ∧
      ((sql.ptree.get (ascii "command")).head? = some (ascii "insert") → OnlyTable tableName files files' ∧
        ∃ before fresh, Table.load tableName files = ⟨[], .ok before⟩ ∧ Table.load tableName files' = ⟨[], .ok fresh⟩ ∧
          fresh.fieldNames = before.fieldNames ∧
          fresh.storedRows = before.storedRows ++ [sql.ptree.get (ascii "values")])) := by
  obtain ⟨htree, es, rfl, ⟨herror, e, hrun⟩ | ⟨hok, hrun⟩⟩ := command_inv h
  · refine ⟨fun _ => ?_, fun hok => absurd (herror.symm.trans hok) (by simp)⟩
    rw [run_refused hsettled hrun]
    rfl
  · refine ⟨fun herror => absurd (hok.symm.trans herror) (by simp), fun _ tableName hname => ?_⟩
    rw [htree] at hname ⊢
    rcases run_cases (parseTree cmd) files with ⟨e, hcase⟩ | hcase | ⟨tableName', commandName, hnamed, -, hcase⟩
    · cases hcase.symm.trans hrun
    · cases hcase.symm.trans hrun
    obtain rfl : tableName' = tableName := Option.some.inj (hnamed.1.symm.trans hname)
    rw [hnamed.2]
    refine ⟨fun hcommand => ?_, fun hcommand => ?_⟩
    · obtain rfl := Option.some.inj hcommand
      replace hcase := hcase.resolve_right (by rintro (⟨heq, -⟩ | ⟨heq, -⟩) <;> exact absurd heq (by decide))
      obtain ⟨table, -, hcreate⟩ := sqlCreate_ok (hcase.2.symm.trans hrun)
      obtain ⟨-, -, hclean⟩ := create_valid hcreate
      exact ⟨create_only hcreate, load_shows hclean.rests⟩
    · obtain rfl := Option.some.inj hcommand
      replace hcase := (hcase.resolve_left (fun heq => absurd heq.1 (by decide))).resolve_right
        (fun heq => absurd heq.1 (by decide))
      obtain ⟨before, table, str, -, hload, hvalid, rfl, hinsert⟩ := sqlInsert_ok hsettled (hcase.2.symm.trans hrun)
      rcases insertInto_run hvalid (insertInto_ok hinsert).2.1 ((parseTree cmd).get (ascii "values")) with
        ⟨e, he⟩ | ⟨es', hrun', -, hrests⟩
      · cases he.symm.trans hinsert
      · cases hrun'.symm.trans hinsert
        obtain ⟨fresh, hfresh, hfields, hrows⟩ := load_shows hrests
        exact ⟨insertInto_only hinsert, before, fresh, hload, hfresh, hfields, hrows⟩

theorem oneFile_settled : Settled oneFile := fun tableName => by
  have hwal : oneFile (walPath (Table.databasePath tableName)) = none :=
    Function.update_of_ne (paths_apart (ascii "t") tableName).1.symm _ _
  rw [diskAt, hwal]
  rfl

/-- A tree with three entries, two of which name a table and a command. -/
theorem names_of_items {tree : MMap Bytes Bytes} {tableName commandName : Bytes} {k : Bytes} {values : List Bytes}
    (h : tree.items.Perm [(ascii "table_name", [tableName]), (ascii "command", [commandName]), (k, values)]) :
    Names tree tableName commandName ∧ tree.get k = values := by
  have hmem : ∀ item ∈ [(ascii "table_name", [tableName]), (ascii "command", [commandName]), (k, values)],
      tree.get item.1 = item.2 := fun item hi => by
    rw [MMap.get, OrderedMap.mem_items.1 (h.mem_iff.2 hi : (item.1, item.2) ∈ tree.items)]
    rfl
  exact ⟨⟨by rw [hmem _ List.mem_cons_self]; rfl, by rw [hmem _ (List.mem_cons_of_mem _ List.mem_cons_self)]; rfl⟩,
    hmem (k, values) (by simp)⟩

/-- The trees of three commands. -/
theorem parseTree_texts :
    (Names (parseTree (ascii "create table u fields a")) (ascii "u") (ascii "create") ∧
      (parseTree (ascii "create table u fields a")).get (ascii "fields") = [ascii "a"]) ∧
    (Names (parseTree (ascii "insert into t values x, y")) (ascii "t") (ascii "insert") ∧
      (parseTree (ascii "insert into t values x, y")).get (ascii "values") = [[120], [121]]) ∧
    Names (parseTree (ascii "insert into t values x")) (ascii "t") (ascii "insert") ∧
      (parseTree (ascii "insert into t values x")).get (ascii "values") = [[120]] :=
  ⟨names_of_items (by decide +kernel), names_of_items (by decide +kernel), names_of_items (by decide +kernel)⟩

/-- A second table is created. -/
theorem create_oneFile : ∃ es table, SQL.run (parseTree (ascii "create table u fields a")) oneFile =
    ⟨es, .ok (some table)⟩ := by
  obtain ⟨⟨hnamed, hfields⟩, -⟩ := parseTree_texts
  have hother : ∀ path, path ≠ Table.databasePath (ascii "t") → oneFile path = none := fun path hne =>
    Function.update_of_ne hne _ _
  obtain ⟨hwal, htable, -, hfield, -⟩ := paths_apart (ascii "u") (ascii "t")
  have hdatabase : Table.databasePath (ascii "u") ≠ Table.databasePath (ascii "t") := fun heq =>
    absurd (databasePath_injective heq) (by decide)
  have hat : diskAt oneFile (Table.databasePath (ascii "u")) = ⟨none, none⟩ := by
    rw [diskAt, hother _ hdatabase, hother _ (paths_apart (ascii "t") (ascii "u")).1.symm]
  obtain ⟨des, hcall⟩ : ∃ des, createTable (Table.databasePath (ascii "u")) [ascii "a"] ⟨none, none⟩ = ⟨des, .ok ()⟩ := by
    have hok : FieldsOk [ascii "a"] := ⟨by decide, by decide, by decide, by decide, by decide⟩
    have hresult : (createTable (Table.databasePath (ascii "u")) [ascii "a"] ⟨none, none⟩).result = .ok () :=
      (createTable_tidy rfl rfl hok).1
    rcases hcall : createTable (Table.databasePath (ascii "u")) [ascii "a"] ⟨none, none⟩ with ⟨des, result⟩
    rw [hcall] at hresult
    exact ⟨des, congrArg (Outcome.mk des) hresult⟩
  have hon : onDisk (Table.databasePath (ascii "u")) (createTable (Table.databasePath (ascii "u")) [ascii "a"]) oneFile =
      ⟨des.map (FileEffect.disk (Table.databasePath (ascii "u"))), .ok ()⟩ := by
    rw [onDisk, hat, hcall]
  have hvalidate : validateFields [ascii "a"] [] = .ok () := by decide
  have hrequire : [ascii "a"].forM (fun field => requireIdentifier field "Field name") = .ok () := by decide
  obtain ⟨es, table, hcreate⟩ : ∃ es table, Table.create (ascii "u") [ascii "a"] oneFile = ⟨es, .ok table⟩ := by
    unfold Table.create
    rw [observe_bind, throwIf_neg (by simp [hother _ htable, hother _ hfield, hother _ hdatabase]), attempt_ok_bind,
      throwIf_neg (by decide), attempt_ok_bind, hvalidate, attempt_ok_bind]
    exact ⟨_, _, bind_run_ok hon⟩
  have hrun := congrFun (hnamed.run (by decide)) oneFile
  rw [if_pos rfl] at hrun
  exact ⟨_, _, hrun.trans (sqlCreate_run hfields hrequire hcreate)⟩

/-- The table takes one more row. -/
theorem insert_oneFile : ∃ es table, SQL.run (parseTree (ascii "insert into t values x, y")) oneFile =
    ⟨es, .ok (some table)⟩ := by
  obtain ⟨-, ⟨hnamed, hvalues⟩, -⟩ := parseTree_texts
  obtain ⟨table, hload, hv2, hshows⟩ := oneFile_load
  obtain ⟨es, hinsert, -⟩ := @insertRow_onePages (Table.databasePath (ascii "t"))
    (diskAt oneFile (Table.databasePath (ascii "t"))) oneFile_rests.1 (by rw [diskAt, oneFile, Function.update_self])
  rw [← hshows.name_eq] at hinsert
  have hinto := @insertInto_stored table oneFile [[120], [121]] (by rw [hshows.fields_eq]; rfl)
    (by decide) hv2 es hinsert
  rw [← hvalues] at hinto
  have hrun := congrFun (hnamed.run (by decide)) oneFile
  rw [if_neg (by decide), if_pos rfl] at hrun
  exact ⟨_, _, hrun.trans (sqlInsert_run hload hinto)⟩

/-- It refuses a row that is too short. -/
theorem insert_short_oneFile : ∃ e, e ≠ .diverges ∧
    SQL.run (parseTree (ascii "insert into t values x")) oneFile = ⟨[], .error e⟩ := by
  obtain ⟨-, -, hnamed, hvalues⟩ := parseTree_texts
  obtain ⟨table, hload, -, hshows⟩ := oneFile_load
  obtain ⟨what, hrefused⟩ : ∃ what, table.insertInto [[120]] oneFile = ⟨[], .error (.invalidArgument what)⟩ := by
    unfold Table.insertInto
    rw [throwIf, if_pos (show ([[120]] : List Bytes).length ≠ table.fieldNames.length by rw [hshows.fields_eq]; decide)]
    exact ⟨_, rfl⟩
  rw [← hvalues] at hrefused
  have hrun := congrFun (hnamed.run (by decide)) oneFile
  rw [if_neg (by decide), if_pos rfl] at hrun
  exact ⟨_, by simp, hrun.trans (sqlInsert_throws hload hrefused)⟩

/-- A table is created, a row is inserted into another one, and a row is refused. -/
theorem command_atomic_oneFile :
    (∃ sql files, SQL.command (ascii "create table u fields a") oneFile = some (sql, files) ∧ sql.error = false ∧
      OnlyTable (ascii "u") oneFile files ∧ ∃ fresh, Table.load (ascii "u") files = ⟨[], .ok fresh⟩ ∧
        fresh.fieldNames = [ascii "a"] ∧ fresh.storedRows = []) ∧
    (∃ sql files, SQL.command (ascii "insert into t values x, y") oneFile = some (sql, files) ∧ sql.error = false ∧
      OnlyTable (ascii "t") oneFile files ∧ ∃ fresh, Table.load (ascii "t") files = ⟨[], .ok fresh⟩ ∧
        fresh.fieldNames = oneFields ∧ fresh.storedRows = oneRows ++ [[[120], [121]]]) ∧
    ∃ sql files, SQL.command (ascii "insert into t values x") oneFile = some (sql, files) ∧ sql.error = true ∧
      files = oneFile := by
  refine ⟨?_, ?_, ?_⟩
  · obtain ⟨es, table, hrun⟩ := create_oneFile
    have hcommand : SQL.command (ascii "create table u fields a") oneFile =
        some (⟨table, false, "", parseTree (ascii "create table u fields a")⟩, after oneFile es) := by rw [SQL.command, hrun]
    obtain ⟨⟨hnamed, hfields⟩, -⟩ := parseTree_texts
    have hatomic := (command_atomic oneFile_settled hcommand).2 rfl (ascii "u")
    dsimp only at hatomic
    obtain ⟨honly, fresh, hfresh, hnames, hrows⟩ := (hatomic hnamed.1).1 hnamed.2
    exact ⟨_, _, hcommand, rfl, honly, fresh, hfresh, hnames.trans hfields, hrows⟩
  · obtain ⟨es, table, hrun⟩ := insert_oneFile
    have hcommand : SQL.command (ascii "insert into t values x, y") oneFile =
        some (⟨table, false, "", parseTree (ascii "insert into t values x, y")⟩, after oneFile es) := by
      rw [SQL.command, hrun]
    obtain ⟨-, ⟨hnamed, hvalues⟩, -⟩ := parseTree_texts
    have hatomic := (command_atomic oneFile_settled hcommand).2 rfl (ascii "t")
    dsimp only at hatomic
    obtain ⟨honly, before, fresh, hbefore, hfresh, hnames, hrows⟩ := (hatomic hnamed.1).2 hnamed.2
    obtain ⟨loaded, hload, -, hshows⟩ := oneFile_load
    obtain rfl := Except.ok.inj (congrArg Outcome.result (hbefore.symm.trans hload))
    rw [hshows.fields_eq] at hnames
    rw [hshows.rows_eq, hvalues] at hrows
    exact ⟨_, _, hcommand, rfl, honly, fresh, hfresh, hnames, hrows⟩
  · obtain ⟨e, he, hrun⟩ := insert_short_oneFile
    have hcommand : SQL.command (ascii "insert into t values x") oneFile =
        some (⟨Table.new, true, e.what, parseTree (ascii "insert into t values x")⟩, oneFile) := by
      rw [SQL.command, hrun]
      cases e <;> first | rfl | exact absurd rfl he
    exact ⟨_, _, hcommand, rfl, (command_atomic oneFile_settled hcommand).1 rfl⟩

end Storage
end Sql
