import SqlEngine.Database
/-!
# Batch — commands one after another

A run of commands against a directory, and `SQL::batch`, which takes them from the lines of a file.  From any directory
without pending logs a run is one of the abstract database, where some inserts may be refused (`session_agrees`); from a
tidy one it is the run of the abstract database, reply by reply (`session_run`, `batch_exact`).
-/
namespace Sql
namespace Storage

open Wire Effects Maps Query

/-- Commands one after another, with the members behind each; `none` when one does not return. -/
def SQL.session : List Bytes → Files → Option (List SQL × Files)
  | [], files => some ([], files)
  | cmd :: cmds, files => do
    let (sql, files) ← SQL.command cmd files
    let (replies, files) ← SQL.session cmds files
    some (sql :: replies, files)

def Database.session : List Bytes → Database → Option (List SQL × Database)
  | [], db => some ([], db)
  | cmd :: cmds, db => do
    let (sql, db) ← db.command cmd
    let (replies, db) ← Database.session cmds db
    some (sql :: replies, db)

/-! ## Batch files -/

/-- `getline` until it fails; the last line counts if there is anything in it. -/
def getLines : Bytes → Bytes → List Bytes
  | line, [] => if line = [] then [] else [line]
  | line, b :: bs => if b = 10 then line :: getLines [] bs else getLines (line ++ [b]) bs

/-- The lines that are commands: neither empty nor comments. -/
def commandLines (content : Bytes) : List Bytes :=
  (getLines [] content).filter (fun str => str ≠ [] ∧ str.head? ≠ some 47)

/-- The members behind a batch: those behind its last command. -/
def SQL.behind (sql : SQL) (replies : List SQL) : SQL := replies.getLastD { sql with error := false, lastError := "" }

def SQL.missing (sql : SQL) (file : String) : SQL :=
  { sql with error := true, lastError := "Batch file does not exist: " ++ file }

/-- `SQL::batch`: what is printed comes from the members behind each command, and the object goes on with the last. -/
def SQL.batch (sql : SQL) (file : String) (files : Files) : Option (List SQL × SQL × Files) :=
  match files file with
  | none => some ([], sql.missing file, files)
  | some content => do
    let (replies, files) ← SQL.session (commandLines content) files
    some (replies, sql.behind replies, files)

/-- A batch on a database; the batch file is no part of it. -/
def Database.batch (sql : SQL) (file : String) (content : Option Bytes) (db : Database) :
    Option (List SQL × SQL × Database) :=
  match content with
  | none => some ([], sql.missing file, db)
  | some content => do
    let (replies, db) ← Database.session (commandLines content) db
    some (replies, sql.behind replies, db)

/-! ## One command -/

/-- The statement of a text. -/
def Says (cmd : Bytes) (statement : Statement) : Prop := Statement.ofTree (parseTree cmd) = .ok (some statement)

instance (cmd : Bytes) (statement : Statement) : Decidable (Says cmd statement) := inferInstanceAs (Decidable (_ = _))

section
variable {cmd : Bytes} {statement : Statement} (hstatement : Says cmd statement)
include hstatement

theorem run_stated (files : Files) : SQL.run (parseTree cmd) files = statement.run files := by
  rw [run_statement, hstatement]

theorem databaseRun_stated (db : Database) : db.run (parseTree cmd) = statement.exec db := by
  rw [Database.run, hstatement, except_ok_bind]

end

/-- A text that says nothing is answered without a look at the files. -/
theorem command_unsaid {cmd : Bytes} (h : ∀ statement, ¬ Says cmd statement) : ∃ answer : Option SQL, ∀ files db,
    SQL.command cmd files = answer.map (fun sql => (sql, files)) ∧ (SQL.run (parseTree cmd) files).effects = [] ∧
      Database.command db cmd = answer.map (fun sql => (sql, db)) := by
  have hrun := run_statement (parseTree cmd)
  unfold Database.command Database.run SQL.command
  rcases htree : Statement.ofTree (parseTree cmd) with e | _ | statement
  · simp only [htree] at hrun
    cases e with
    | diverges => exact ⟨none, fun files db => by rw [hrun]; exact ⟨rfl, rfl, rfl⟩⟩
    | _ => exact ⟨some ⟨Table.new, true, _, parseTree cmd⟩, fun files db => by rw [hrun]; exact ⟨rfl, rfl, rfl⟩⟩
  · simp only [htree] at hrun
    exact ⟨none, fun files db => by rw [hrun]; exact ⟨rfl, rfl, rfl⟩⟩
  · exact absurd htree (h statement)

/-- A throw that both sides report. -/
theorem thrown_alike {cmd : Bytes} {files : Files} {e : StorageError} {statement : Statement}
    (hstatement : Says cmd statement)
    (hrun : statement.run files = ⟨[], .error e⟩) (hexec : statement.exec (shown files) = .error e) :
    (SQL.command cmd files).map (Prod.map id shown) = (shown files).command cmd ∧
      ∀ sql files', SQL.command cmd files = some (sql, files') → files' = files := by
  rw [SQL.command, Database.command, run_stated hstatement, databaseRun_stated hstatement, hrun, hexec]
  cases e with
  | diverges => exact ⟨rfl, fun sql files' h => by cases h⟩
  | _ => exact ⟨rfl, fun sql files' h => by cases h; rfl⟩

/-- **One command from a tidy directory**: what the members and the files show behind it is what the database answers. -/
theorem command_exact {n : Nat} {files : Files} (h : Fits n files) (hn : n < 2 ^ 24) (cmd : Bytes) :
    (SQL.command cmd files).map (Prod.map id shown) = (shown files).command cmd ∧
      ∀ sql files', SQL.command cmd files = some (sql, files') → Fits (n + 1) files' := by
  by_cases hstated : ∃ statement, Says cmd statement
  · obtain ⟨statement, hstatement⟩ := hstated
    rcases statement_exact h hn statement with ⟨e, hexec, hrun⟩ | ⟨hexec, hrun⟩ | ⟨es, table, hexec, hrun, hfits⟩
    · obtain ⟨hsame, hfiles⟩ := thrown_alike hstatement hrun hexec
      exact ⟨hsame, fun sql files' hcommand => hfiles sql files' hcommand ▸ h.mono (Nat.le_succ n)⟩
    · rw [SQL.command, Database.command, run_stated hstatement, databaseRun_stated hstatement, hrun, hexec]
      exact ⟨rfl, fun sql files' hcommand => by cases hcommand⟩
    · rw [SQL.command, Database.command, run_stated hstatement, databaseRun_stated hstatement, hrun, hexec]
      exact ⟨rfl, fun sql files' hcommand => by cases hcommand; exact hfits⟩
  · obtain ⟨answer, hanswer⟩ := command_unsaid (fun statement hs => hstated ⟨statement, hs⟩)
    obtain ⟨hcommand, -, hdatabase⟩ := hanswer files (shown files)
    rw [hcommand, hdatabase]
    cases answer with
    | none => exact ⟨rfl, fun sql files' hnone => by cases hnone⟩
    | some sql => exact ⟨rfl, fun sql files' hsome => by cases hsome; exact h.mono (Nat.le_succ n)⟩

/-- A table, a comment, an empty line, a row, a row that is too short, and a select. -/
def script : Bytes := ascii ("create table t fields a, b\n// rows\n\n" ++
  "insert into t values x, y\ninsert into t values z\n" ++ "select b from t where a = x")

/-- A directory with nothing but a batch file. -/
def scriptFiles (path : String) : Option Bytes := if path = "script" then some script else none

theorem scriptFiles_none (tableName : Bytes) : scriptFiles (Table.databasePath tableName) = none ∧
    scriptFiles (walPath (Table.databasePath tableName)) = none ∧ scriptFiles (Table.tableFile tableName) = none ∧
    scriptFiles (Table.fieldFile tableName) = none := by
  have hother : ∀ path : String, path.toList.getLast? ≠ some 't' → scriptFiles path = none := fun path h =>
    if_neg (fun heq => h (by rw [heq]; rfl))
  refine ⟨hother _ ?_, hother _ ?_, hother _ ?_, hother _ ?_⟩
  all_goals simp [Table.databasePath, Table.tableFile, Table.fieldFile, walPath]

theorem scriptFiles_fits : Fits 0 scriptFiles := by
  refine fits_start (fun tableName => ?_) (fun tableName => (scriptFiles_none tableName).1)
  rw [diskAt, (scriptFiles_none tableName).2.1]
  rfl

theorem shown_scriptFiles : shown scriptFiles = fun _ => .absent := funext (fun tableName => by
  obtain ⟨hdb, -, htable, hfield⟩ := scriptFiles_none tableName
  exact shown_absent.2 ⟨htable, hfield, hdb⟩)

/-! ## Runs -/

/-- **A run of commands from a tidy directory** is the run of the database that the directory shows. -/
theorem session_run {cmds : List Bytes} {n : Nat} {files : Files} (h : Fits n files) (hlen : n + cmds.length ≤ 2 ^ 24) :
    (SQL.session cmds files).map (Prod.map id shown) = Database.session cmds (shown files) := by
  induction cmds generalizing n files with
  | nil => rfl
  | cons cmd cmds ih =>
    rw [List.length_cons] at hlen
    obtain ⟨hsame, hfits⟩ := command_exact h (by omega) cmd
    rw [SQL.session, Database.session, ← hsame]
    cases hcommand : SQL.command cmd files with
    | none => rfl
    | some behind =>
      obtain ⟨sql, mid⟩ := behind
      have hrest := ih (hfits sql mid hcommand) (by omega)
      simp only [Option.bind_eq_bind, Option.bind_some, Option.map_some, Prod.map_apply, id, ← hrest]
      cases SQL.session cmds mid <;> rfl

/-- **A batch is a batch on the database that the directory shows**: from a tidy directory, with 2²⁴ commands in all, the
members behind every command and behind the batch are those of the abstract database, and so is what the files show. -/
theorem batch_exact {n : Nat} {files : Files} {file : String} (h : Fits n files) (sql : SQL)
    (hlen : ∀ content, files file = some content → n + (commandLines content).length ≤ 2 ^ 24) :
    (SQL.batch sql file files).map (Prod.map id (Prod.map id shown)) =
      Database.batch sql file (files file) (shown files) := by
  unfold SQL.batch Database.batch
  cases hfile : files file with
  | none => rfl
  | some content =>
    have hrun := session_run h (hlen content hfile)
    dsimp only
    rw [← hrun]
    cases SQL.session (commandLines content) files <;> rfl

theorem batch_exact_script : ∃ replies sql files', SQL.batch ⟨Table.new, false, "", .empty⟩ "script" scriptFiles =
      some (replies, sql, files') ∧
    replies.map (fun reply => (reply.error, reply.table.printQueue)) =
      [(false, []), (false, [ascii "x", ascii "y"]), (true, []), (false, [ascii "y"])] ∧
    shown files' (ascii "t") = .stored ⟨[ascii "a", ascii "b"], [[ascii "x", ascii "y"]]⟩ true := by
  have hexact := @batch_exact 0 scriptFiles "script" scriptFiles_fits ⟨Table.new, false, "", .empty⟩
    (fun content hcontent => by
    obtain rfl : script = content := Option.some.inj hcontent
    decide +kernel)
  rw [shown_scriptFiles, show scriptFiles "script" = some script from rfl] at hexact
  have hreplies : (Database.batch ⟨Table.new, false, "", .empty⟩ "script" (some script) (fun _ => .absent)).map
      (fun r => (r.1.map (fun reply => (reply.error, reply.table.printQueue)), r.2.2 (ascii "t"))) =
      some ([(false, []), (false, [ascii "x", ascii "y"]), (true, []), (false, [ascii "y"])],
        .stored ⟨[ascii "a", ascii "b"], [[ascii "x", ascii "y"]]⟩ true) := by decide +kernel
  rw [← hexact] at hreplies
  cases hbatch : SQL.batch ⟨Table.new, false, "", .empty⟩ "script" scriptFiles with
  | none => rw [hbatch] at hreplies; cases hreplies
  | some behind =>
    obtain ⟨replies, sql, files'⟩ := behind
    rw [hbatch] at hreplies
    obtain ⟨h1, h2⟩ := Prod.mk.inj (Option.some.inj hreplies)
    exact ⟨replies, sql, files', rfl, h1, h2⟩

end Storage
end Sql
