import SqlEngine.Table
import SqlEngine.ShuntingYard
/-!
# Select — conditions and projections

`query_index`, `Table::selectHelp`, `Table::Eval` and `Table::select`.  A call that may insert a missing key into the
cache of its table returns the table after it; what a select changes in its table is thrown away by every caller, and
kept here all the same.
-/
namespace Sql
namespace Storage

open Wire Effects Maps Query

/-! ## The index of a file -/

/-- The six comparisons; any other operator is none of them. -/
def compareValues (operation key value : Bytes) : Option Bool :=
  if operation = ascii "=" then some (key = value)
  else if operation = ascii "!=" then some (key ≠ value)
  else if operation = ascii "<" then some (key < value)
  else if operation = ascii "<=" then some (key ≤ value)
  else if operation = ascii ">" then some (key > value)
  else if operation = ascii ">=" then some (key ≥ value)
  else none

/-- The loop over the entries of an index. -/
def matchEntries (operation value : Bytes) : List Entry → Except StorageError (List Nat)
  | [] => .ok []
  | entry :: entries =>
    match compareValues operation entry.key value with
    | none => .error (.invalidArgument ("Unsupported comparison operator: " ++ text operation))
    | some isMatch => do
      let records ← matchEntries operation value entries
      pure (if isMatch then entry.record :: records else records)

def queryIndex (path : String) (fieldIndex : Nat) (operation value : Bytes) : Call (List Nat) := do
  let table ← openTable path
  match table.indexes[fieldIndex]? with
  | none => attempt (.error (.invalidArgument "Unknown field index"))
  | some index => attempt (matchEntries operation value index)

/-! ## The multimap of a field -/

/-- `get_record_indices`: the values between two iterators, none from a null one. -/
def recordIndicesBetween (first last : List (Bytes × List Nat)) : List Nat :=
  match first with
  | [] => []
  | item :: items => if item :: items = last then [] else item.2 ++ recordIndicesBetween items last

/-- The loop of `!=`. -/
def recordIndicesExcept (value : Bytes) (items : List (Bytes × List Nat)) : List Nat :=
  items.flatMap (fun item => if item.1 = value then [] else item.2)

namespace Table

def selectHelp (table : Table) (fieldName operation value : Bytes) : FileCall (List Nat × Table) := do
  attempt (throwIf (table.fieldNameMap.contains fieldName = false)
    (.invalidArgument ("Unknown field: " ++ text fieldName)))
  if table.usesV2Storage then
    let records ← onDisk (databasePath table.tableName) (queryIndex (databasePath table.tableName)
      ((table.fieldNameMap.lookup fieldName).getD 0) operation value)
    attempt (throwIf (∃ record ∈ records, record > 2 ^ 63 - 1)
      (.runtimeError "Record identifier exceeds the public API range"))
    pure (records, table)
  else
    let column := table.column fieldName
    let touched := table.touchColumn fieldName
    if operation = ascii "=" ∧ column.contains value then pure (column.get value, touched)
    else if operation = ascii "<=" then pure (recordIndicesBetween column.begin (column.upperBound value), touched)
    else if operation = ascii "<" then pure (recordIndicesBetween column.begin (column.lowerBound value), touched)
    else if operation = ascii ">=" then pure (recordIndicesBetween (column.lowerBound value) [], touched)
    else if operation = ascii ">" then pure (recordIndicesBetween (column.upperBound value) [], touched)
    else if operation = ascii "!=" then pure (recordIndicesExcept value column.begin, touched)
    -- `=` has looked for the value in the cache
    else pure ([], if operation = ascii "=" then touched else table)

/-! ## Conditions -/

/-- `set_intersection` of two sorted vectors. -/
def intersectSorted : List Nat → List Nat → List Nat
  | [], _ => []
  | _, [] => []
  | a :: as, b :: bs =>
    if a < b then intersectSorted as (b :: bs)
    else if b < a then intersectSorted (a :: as) bs
    else a :: intersectSorted as bs
termination_by as bs => as.length + bs.length

def myIntersection (a b : List Nat) : List Nat :=
  intersectSorted (a.insertionSort (· ≤ ·)) (b.insertionSort (· ≤ ·))

/-- `unique`: equal neighbours become one. -/
def uniqueSorted : List Nat → List Nat
  | [] => []
  | [a] => [a]
  | a :: b :: bs => if a = b then uniqueSorted (b :: bs) else a :: uniqueSorted (b :: bs)

def myUnion (a b : List Nat) : List Nat := uniqueSorted ((a ++ b).insertionSort (· ≤ ·))

/-- The loop of `Eval`: the operands and the record sets are on two stacks. -/
def evalLoop : List Token → List Bytes → List (List Nat) → Table → FileCall (List Nat × Table)
  | [], [], [result], table => pure (result, table)
  | [], _, _, _ => attempt (.error (.invalidArgument "Malformed WHERE expression"))
  | .tokenStr str :: postfixQueue, s, indices, table => evalLoop postfixQueue (str :: s) indices table
  | .relational operation :: postfixQueue, value :: fieldName :: s, indices, table => do
    let (records, table) ← table.selectHelp fieldName operation value
    evalLoop postfixQueue s (records :: indices) table
  | .relational _ :: _, _, _, _ => attempt (.error (.invalidArgument "Malformed relational expression"))
  | .logical operation :: postfixQueue, s, first :: second :: indices, table =>
    let both := if operation = ascii "and" then myIntersection first second else []
    let either := if operation = ascii "or" then myUnion first second else both
    evalLoop postfixQueue s (either :: indices) table
  | .logical _ :: _, _, _, _ => attempt (.error (.invalidArgument "Malformed logical expression"))
  | .leftParen :: postfixQueue, s, indices, table => evalLoop postfixQueue s indices table
  | .rightParen :: postfixQueue, s, indices, table => evalLoop postfixQueue s indices table

def eval (table : Table) (postfixQueue : List Token) : FileCall (List Nat × Table) := evalLoop postfixQueue [] [] table

/-! ## Projections -/

/-- All fields, or each of them known. -/
def validateProjection (table : Table) (fields : List Bytes) : Except StorageError Unit :=
  if fields = [] ∨ fields = [ascii "*"] then .ok ()
  else fields.forM (fun field => throwIf (table.fieldNameMap.contains field = false)
    (.invalidArgument ("Unknown selected field: " ++ text field)))

/-- `permutate_fields`: the names in the order of the table.  Unknown names would be erased at the positions they had in
the whole list. -/
def permutateFields (table : Table) (fields : List Bytes) : List Bytes :=
  let invalid := (fields.zipIdx.filter (fun field => !table.fieldNameMap.contains field.1)).map Prod.snd
  let permutated := invalid.foldl List.eraseIdx fields
  let sortIndices := permutated.map (fun field => (table.fieldNameMap.lookup field).getD 0)
  ((permutated.zip sortIndices).insertionSort (fun a b => a.2 ≤ b.2)).map Prod.fst

/-- The values of the selected records, in the columns that are named. -/
def collect (table : Table) (fieldNames : List Bytes) : List Nat → Except StorageError (List Bytes)
  | [] => .ok []
  | index :: indices =>
    match table.storedRows[index]? with
    | none => .error (.runtimeError "Selected record identifier is out of range")
    | some entry => do
      let values ← collect table fieldNames indices
      pure (((entry.zip table.fieldNames).filter (fun cell => decide (cell.2 ∈ fieldNames))).map Prod.fst ++ values)

/-- `select` on a typed condition: the result, and the table after the call. -/
def select (table : Table) (selected : List Bytes) (expression : List Token) : FileCall (Table × Table) := do
  attempt (table.validateProjection selected)
  let chosen := if selected = [] ∨ selected.head? = some (ascii "*") then table.fieldNames else selected
  let reordered := table.permutateFields chosen
  let table := { table with selectedFields := chosen }
  let (indices, table) ← if expression ≠ [] then table.eval expression
    else pure (List.range table.numRecords, table)
  let values ← attempt (table.collect reordered indices)
  pure ({ new with
    tableName := table.tableName
    fieldNames := reordered
    selectedFields := chosen
    numRecords := table.numRecords
    recordIndices := indices
    printQueue := values }, { table with recordIndices := indices })

/-- `select` on one comparison.  The names in the order of the table are worked out, and not used. -/
def selectComparison (table : Table) (selected : List Bytes) (fieldName operation fieldValue : Bytes) :
    FileCall (Table × Table) := do
  attempt (table.validateProjection selected)
  let chosen := if selected = [] ∨ selected.head? = some (ascii "*") then table.fieldNames else selected
  let _reordered := table.permutateFields chosen
  let table := { table with selectedFields := chosen }
  let (indices, table) ← table.selectHelp fieldName operation fieldValue
  let table := { table with recordIndices := indices }
  let values ← attempt (table.collect chosen indices)
  pure ({ new with
    tableName := table.tableName
    fieldNames := table.fieldNames
    selectedFields := chosen
    numRecords := table.numRecords
    recordIndices := indices
    printQueue := values }, table)

/-- `allocate_tokens_memory`: every string is typed by its text. -/
def allocateToken (str : Bytes) : Token :=
  if str ∈ relationalTexts then .relational str
  else if str = ascii "(" then .leftParen
  else if str = ascii ")" then .rightParen
  else if str = ascii "and" ∨ str = ascii "or" then .logical str
  else .tokenStr str

/-- `select` on a condition of strings. -/
def selectStrings (table : Table) (selected expression : List Bytes) : FileCall (Table × Table) :=
  match toPostfix (expression.map allocateToken) with
  | none => attempt (.error (.invalidArgument "Invalid parenthesis structure in WHERE clause"))
  | some postfixQueue => table.select selected postfixQueue

/-! ## Printing -/

/-- `setw(20) << right`. -/
def padded (value : Bytes) : Bytes := List.replicate (20 - value.length) 32 ++ value

def printLoop (columns : Nat) : Nat → List Bytes → Bytes
  | _, [] => []
  | i, value :: values =>
    (if i % columns = 0 then 10 :: padded (ascii (toString (i / columns))) else []) ++ padded value ++
      printLoop columns (i + 1) values

/-- `operator<<`. -/
def print (table : Table) : Bytes :=
  padded (ascii "record") ++ table.fieldNames.flatMap padded ++ printLoop table.fieldNames.length 0 table.printQueue

end Table
end Storage
end Sql
