import SqlEngine.Files
import SqlEngine.FileRecord
import SqlEngine.OrderedMap
/-!
# Table — a table in memory, opened, created and inserted into

`Table` of `table.h` with its constructors and `insert_into`.  A table of storage format v2 keeps its rows in memory and
asks the file for conditions; one of format v1 is read-only and keeps a multimap from values to record numbers for each
field.
-/
namespace Sql
namespace Storage

open Wire Effects Maps

structure Table where
  tableName : Bytes
  fieldNames : List Bytes
  selectedFields : List Bytes
  numRecords : Nat
  recordIndices : List Nat
  cache : OrderedMap Bytes (MMap Bytes Nat)
  fieldNameMap : OrderedMap Bytes Nat
  printQueue : List Bytes
  storedRows : List (List Bytes)
  usesV2Storage : Bool

namespace Table

/-- The default constructor. -/
def new : Table := ⟨[], [], [], 0, [], .empty, .empty, [], [], false⟩

def tableFile (tableName : Bytes) : String := text tableName ++ ".bin"
def fieldFile (tableName : Bytes) : String := text tableName ++ "_fields.bin"
def databasePath (tableName : Bytes) : String := text tableName ++ ".sql2"

/-- `fieldNameMap[fields[i]] = i`. -/
def positions (fields : List Bytes) : OrderedMap Bytes Nat :=
  fields.zipIdx.foldl (fun positions field => positions.assign field.1 field.2) .empty

/-- `cache[field]` as it is read; a missing field is inserted with an empty multimap. -/
def column (table : Table) (field : Bytes) : MMap Bytes Nat := (table.cache.lookup field).getD .empty

def touchColumn (table : Table) (field : Bytes) : Table :=
  { table with cache := table.cache.alter field (fun column => column.getD .empty) }

/-- `cache[field].insert(value, index)`. -/
def insertInColumn (index : Nat) (cache : OrderedMap Bytes (MMap Bytes Nat)) (cell : Bytes × Bytes) :
    OrderedMap Bytes (MMap Bytes Nat) :=
  cache.alter cell.1 (fun column => (column.getD .empty).insert cell.2 index)

/-- A record at the end of the table. -/
def addRecord (table : Table) (index : Nat) (entry : List Bytes) : Table :=
  { table with
    cache := (table.fieldNames.zip entry).foldl (insertInColumn index) table.cache
    recordIndices := table.recordIndices ++ [index]
    printQueue := table.printQueue ++ entry
    storedRows := table.storedRows ++ [entry]
    numRecords := table.numRecords + 1 }

/-! ## Create -/

def create (tableName : Bytes) (fieldNames : List Bytes) : FileCall Table := do
  let files ← observe id
  attempt (throwIf ((files (tableFile tableName)).isSome ∨ (files (fieldFile tableName)).isSome ∨
    (files (databasePath tableName)).isSome) (.runtimeError ("Table already exists: " ++ text tableName)))
  attempt (throwIf (fieldNames = [] ∨ fieldNames.length > maxFields)
    (.invalidArgument "A table must have between 1 and 64 fields"))
  attempt (validateFields fieldNames [])
  onDisk (databasePath tableName) (createTable (databasePath tableName) fieldNames)
  pure { new with
    tableName := tableName
    fieldNames := fieldNames
    selectedFields := fieldNames
    usesV2Storage := true
    fieldNameMap := positions fieldNames
    cache := fieldNames.foldl (fun cache field => cache.assign field .empty) .empty }

/-! ## Open -/

/-- The names in the field metadata of format v1. -/
def loadFields (tableName : Bytes) (file : Bytes) : Except StorageError (List Bytes) := do
  let incomplete := StorageError.runtimeError ("Field metadata is incomplete for table: " ++ text tableName)
  let first ← readRecord 1 0 file
  match first with
  | none => .error incomplete
  | some sizes =>
    let rawSize := sizes.headD []
    match stoul rawSize with
    | none => .error (.runtimeError ("Field metadata is invalid for table: " ++ text tableName))
    | some (rawCount, parsed) =>
      throwIf (parsed ≠ rawSize.length ∨ rawCount < 1 ∨ rawCount > maxFields)
        (.runtimeError ("Field count is invalid for table: " ++ text tableName))
      throwIf (file.length ≠ slotSize * (rawCount + 1))
        (.runtimeError ("Field metadata size is invalid for table: " ++ text tableName))
      let record ← readRecord (rawCount + 1) 0 file
      match record with
      | none => .error incomplete
      | some slots =>
        throwIf (¬ slots.tail.Nodup ∨ [] ∈ slots.tail)
          (.runtimeError ("Field metadata contains invalid names for table: " ++ text tableName))
        pure slots.tail

/-- The loop over the records of format v1, from record `index` on. -/
def loadRecords (columns : Nat) (file : Bytes) (index : Nat) (table : Table) : Except StorageError Table :=
  match _h : readRecord columns index file with
  | .error e => .error e
  | .ok none => .ok table
  | .ok (some entry) => loadRecords columns file (index + 1) (table.addRecord index entry)
termination_by file.length - index * slotSize * columns
decreasing_by
  obtain ⟨hpos, hlt⟩ := readRecord_some _h
  have hstep : (index + 1) * slotSize * columns = index * slotSize * columns + slotSize * columns := by ring
  have : 0 < slotSize * columns := Nat.mul_pos (by decide) hpos
  omega

/-- A v1 table in front of its first record. -/
def emptyV1 (tableName : Bytes) (fieldNames : List Bytes) : Table :=
  { new with
    tableName := tableName
    fieldNames := fieldNames
    selectedFields := fieldNames
    fieldNameMap := positions fieldNames }

/-- The v1 path of the constructor. -/
def openV1 (tableName fields records : Bytes) : Except StorageError Table := do
  let fieldNames ← loadFields tableName fields
  throwIf (records.length % (slotSize * fieldNames.length) ≠ 0)
    (.runtimeError ("Record file contains a partial row for table: " ++ text tableName))
  loadRecords fieldNames.length records 0 (emptyV1 tableName fieldNames)

/-- The v2 path of the constructor, behind `open_table`. -/
def ofLoaded (tableName : Bytes) (loaded : LoadedTable) : Except StorageError Table := do
  throwIf (loaded.rows.length > 2 ^ 63 - 1) (.runtimeError "Table contains too many records for this build")
  pure { new with
    tableName := tableName
    fieldNames := loaded.fields
    selectedFields := loaded.fields
    storedRows := loaded.rows
    usesV2Storage := true
    numRecords := loaded.rows.length
    fieldNameMap := positions loaded.fields
    recordIndices := List.range loaded.rows.length
    printQueue := loaded.rows.flatten }

def load (tableName : Bytes) : FileCall Table := do
  let files ← observe id
  let path := databasePath tableName
  let orphan := files path = none ∧ files (tableFile tableName) = none ∧ files (fieldFile tableName) = none ∧
    walPresent (diskAt files path) = true
  if (files path).isSome ∨ orphan then
    let loaded ← onDisk path (openTable path)
    attempt (ofLoaded tableName loaded)
  else
    match files (fieldFile tableName), files (tableFile tableName) with
    | some fields, some records => attempt (openV1 tableName fields records)
    | _, _ => attempt (.error (.runtimeError ("Table does not exist: " ++ text tableName)))

/-! ## Insert -/

/-- `insert_into`: what it returns, and the table after it. -/
def insertInto (table : Table) (fieldValues : List Bytes) : FileCall (Bytes × Table) := do
  attempt (throwIf (fieldValues.length ≠ table.fieldNames.length) (.invalidArgument
    ("Expected " ++ toString table.fieldNames.length ++ " values, received " ++ toString fieldValues.length)))
  attempt (validateValues fieldValues)
  attempt (throwIf (table.usesV2Storage = false)
    (.runtimeError "Storage format v1 is read-only; run sql_migrate_v1 before inserting"))
  onDisk (databasePath table.tableName) (insertRow (databasePath table.tableName) fieldValues)
  pure (ascii "insert success", table.addRecord table.numRecords fieldValues)

end Table
end Storage
end Sql
