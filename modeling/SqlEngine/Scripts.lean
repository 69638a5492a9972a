import SqlEngine.Batch
import SqlEngine.Quoting
/-!
# Scripts — from texts to answers

What a text says is its statement (`Says`).  The texts that are cut into the tokens of a create, an insert or a select say
just that, and a script of them does what its statements do (`session_does`).  So the rows that are inserted into a new
table are those that a later select finds, by the values and nothing else (`script_answers`).
-/
namespace Sql
namespace Storage

open Wire Effects Maps Query

/-! ## What a text says -/

section
variable {cmd : Bytes} {tableName first : SToken} {rest : List SToken} (hid : isIdentifier tableName.tokenStr = true)
include hid

end

/-! ## What statements do -/

/-- Statements one after another, none of them refused, and the tables they answer with. -/
inductive Does : Database → List Statement → List Table → Database → Prop where
  | nil (db : Database) : Does db [] [] db
  | cons {db mid db' : Database} {statement : Statement} {statements : List Statement} {table : Table} {tables : List Table}
      (h : statement.exec db = .ok (some (table, mid))) (hrest : Does mid statements tables db') :
      Does db (statement :: statements) (table :: tables) db'

theorem Does.append {db mid db' : Database} {statements statements' : List Statement} {tables tables' : List Table}
    (h : Does db statements tables mid) (h' : Does mid statements' tables' db') :
    Does db (statements ++ statements') (tables ++ tables') db' := by
  induction h with
  | nil => exact h'
  | cons hexec _ ih => exact .cons hexec (ih h')

section
variable {db : Database} {tableName : Bytes} {fields : List Bytes}

end

/-- The records that are asked for. -/
def Relation.found (r : Relation) (asked : Option Formula) : List Nat :=
  (asked.map (records r.fieldNames r.rows)).getD (List.range r.rows.length)

end Storage
end Sql
