import Mathlib.Data.Prod.Lex
import SqlEngine.Page
/-!
# Image — `parse_image`, the validator of a whole database image

The readers of every payload, the two traversals of untrusted page links (`readChain`, `validateIndexNode`) and
`parseImage`, in the order of checks and with the messages of `storage_v2.cpp`.  Both traversals end on any page
vector: each step adds a page below the page count to a set that did not hold it.
-/
namespace Sql
namespace Storage

open Wire

/-! ## Index entries -/

/-- A key with its record identifier, ordered as `std::pair<std::string, std::uint64_t>`. -/
structure Entry where
  key : Bytes
  record : Nat
  deriving Repr, Inhabited

instance : LinearOrder Entry :=
  LinearOrder.lift' (fun e => toLex (e.key, e.record)) (fun a b h => by
    cases a; cases b; simpa using h)

theorem Entry.lt_iff {a b : Entry} : a < b ↔ a.key < b.key ∨ a.key = b.key ∧ a.record < b.record :=
  Prod.Lex.toLex_lt_toLex

/-! ## Readers of the payloads -/

def partialRecord (context : String) : Corruption := ⟨context ++ " contains a partial record"⟩

def u16 (context : String) : Reader Corruption Nat := num (partialRecord context) 2
def u32 (context : String) : Reader Corruption Nat := num (partialRecord context) 4
def u64 (context : String) : Reader Corruption Nat := num (partialRecord context) 8

def string (context : String) : Reader Corruption Bytes :=
  blob (partialRecord context) ⟨context ++ " string exceeds 100 bytes"⟩ 2 maxValueLength

def entry (context : String) : Reader Corruption Entry := do
  let key ← string context
  let record ← u64 context
  pure ⟨key, record⟩

/-- A `Reader` over a whole byte string. -/
def readAll {ε α : Type} (p : Reader ε α) (bytes : Bytes) : Except ε α := do
  let (a, _) ← p bytes
  pure a

/-- The fields of an index leaf: the previous leaf and the entries.  The validator refuses an empty leaf, the insert
path does not look. -/
def readLeaf (refuseEmpty : Bool) : Reader Corruption (Nat × List Entry) := do
  let count ← u16 "index leaf"
  let previous ← u32 "index leaf"
  let reserved ← u16 "index leaf"
  refuseIf (reserved ≠ 0) ⟨"index leaf reserved value is not zero"⟩
  refuseIf (refuseEmpty = true ∧ count = 0) ⟨"index leaf is empty"⟩
  let entries ← many (entry "index leaf") count
  atEnd ⟨"index leaf has trailing bytes"⟩
  pure (previous, entries)

def separator : Reader Corruption (Entry × Nat) := do
  let e ← entry "internal index page"
  let child ← u32 "internal index page"
  pure (e, child)

/-- The fields of an internal index page: the level, the first child, and each separator with its right child. -/
def readInternal (refuseEmpty : Bool) : Reader Corruption (Nat × Nat × List (Entry × Nat)) := do
  let level ← u16 "internal index page"
  let keyCount ← u16 "internal index page"
  refuseIf (refuseEmpty = true ∧ (level = 0 ∨ keyCount = 0)) ⟨"internal index key count is invalid"⟩
  let first ← u32 "internal index page"
  let rest ← many separator keyCount
  atEnd ⟨"internal index page has trailing bytes"⟩
  pure (level, first, rest)

structure Superblock where
  generation : Nat
  pageCount : Nat
  schemaHead : Nat
  rowsHead : Nat
  indexDirectoryHead : Nat
  freeHead : Nat
  fieldCount : Nat
  rowCount : Nat
  deriving DecidableEq, Repr

def readSuperblock : Reader Corruption Superblock := do
  let generation ← u64 "superblock"
  let size ← u32 "superblock"
  refuseIf (size ≠ pageSize) ⟨"superblock page size is invalid"⟩
  let pageCount ← u32 "superblock"
  let schemaHead ← u32 "superblock"
  let rowsHead ← u32 "superblock"
  let indexDirectoryHead ← u32 "superblock"
  let freeHead ← u32 "superblock"
  let fieldCount ← u32 "superblock"
  let rowCount ← u64 "superblock"
  atEnd ⟨"superblock has trailing bytes"⟩
  pure ⟨generation, pageCount, schemaHead, rowsHead, indexDirectoryHead, freeHead, fieldCount, rowCount⟩

def readSchema (fieldCount : Nat) : Reader Corruption (List Bytes) := do
  let count ← u32 "schema"
  refuseIf (count ≠ fieldCount) ⟨"schema field count mismatch"⟩
  let fields ← many (string "schema") fieldCount
  atEnd ⟨"schema has trailing bytes"⟩
  pure fields

def readRow (fieldCount : Nat) : Reader Corruption (List Bytes) := do
  let count ← u32 "row stream"
  refuseIf (count ≠ fieldCount) ⟨"stored row field count mismatch"⟩
  many (string "row stream") fieldCount

def readRows (fieldCount rowCount : Nat) : Reader Corruption (List (List Bytes)) := do
  let rows ← many (readRow fieldCount) rowCount
  atEnd ⟨"row stream has trailing bytes"⟩
  pure rows

def readDirectory (fieldCount : Nat) : Reader Corruption (List Nat) := do
  let count ← u32 "index directory"
  refuseIf (count ≠ fieldCount) ⟨"index directory field count mismatch"⟩
  let roots ← many (u32 "index directory") fieldCount
  atEnd ⟨"index directory has trailing bytes"⟩
  pure roots

/-! ## Page chains -/

/-- The pages that are not in a set of visited ones get fewer with every new page. -/
theorem unvisited_lt {n current : Nat} {visited : Finset Nat} (hn : current < n) (hv : current ∉ visited) :
    (Finset.range n \ insert current visited).card < (Finset.range n \ visited).card := by
  refine Finset.card_lt_card ⟨fun x hx => ?_, fun h => ?_⟩
  · simp only [Finset.mem_sdiff, Finset.mem_insert] at hx ⊢
    exact ⟨hx.1, fun hxv => hx.2 (Or.inr hxv)⟩
  · have := h (Finset.mem_sdiff.2 ⟨Finset.mem_range.2 hn, hv⟩)
    simp at this

theorem lt_of_getElem?_some {α : Type} {l : List α} {i : Nat} {a : α} (h : l[i]? = some a) : i < l.length :=
  (List.getElem?_eq_some_iff.1 h).1

/-- The bytes of a page chain from `current` on, and the pages owned so far. -/
def readChain (pages : List Page) (expectedType : PageType) (current : Nat) (chain owned : Finset Nat) :
    Except Corruption (Bytes × Finset Nat) :=
  if current = noPage then .ok ([], owned) else
  match _hp : pages[current]? with
  | none => .error ⟨"page chain points outside the file"⟩
  | some page =>
    if _hc : current ∈ chain then .error ⟨"page chain contains a cycle"⟩ else
    if current ∈ owned then .error ⟨"page belongs to multiple structures"⟩ else
    if page.type ≠ expectedType then .error ⟨"page chain contains the wrong page type"⟩ else do
    let (rest, owned) ← readChain pages expectedType page.next (insert current chain) (insert current owned)
    pure (page.payload ++ rest, owned)
termination_by (Finset.range pages.length \ chain).card
decreasing_by exact unvisited_lt (lt_of_getElem?_some _hp) _hc

/-! ## Index trees -/

structure ValidatedNode where
  level : Nat
  entries : List Entry
  leaves : List Nat

/-- The loop over the children of an internal page, each with the separator in front of it. -/
def joinChildren (validate : Nat → Finset Nat → Except Corruption (ValidatedNode × Finset Nat)) (level : Nat) :
    List (Option Entry × Nat) → ValidatedNode → Finset Nat → Except Corruption (ValidatedNode × Finset Nat)
  | [], result, owned => .ok (result, owned)
  | (sep, id) :: children, result, owned => do
    let (child, owned) ← validate id owned
    throwIf (child.level + 1 ≠ level) ⟨"index child level is invalid"⟩
    throwIf (sep.isSome ∧ sep ≠ child.entries.head?) ⟨"index separator does not match child minimum"⟩
    throwIf (∃ last ∈ result.entries.getLast?, ∃ front ∈ child.entries.head?, front < last)
      ⟨"index child ranges overlap out of order"⟩
    joinChildren validate level children
      ⟨result.level, result.entries ++ child.entries, result.leaves ++ child.leaves⟩ owned

def validateIndexNode (pages : List Page) (id : Nat) (owned active : Finset Nat) :
    Except Corruption (ValidatedNode × Finset Nat) :=
  match _hp : pages[id]? with
  | none => .error ⟨"index child pointer is outside the file"⟩
  | some page =>
    if _ha : id ∈ active then .error ⟨"index contains a child cycle"⟩ else
    if id ∈ owned then .error ⟨"index page is referenced more than once"⟩ else
    match page.type with
    | .indexLeaf => do
      let (_, entries) ← readAll (readLeaf true) page.payload
      throwIf (¬ entries.IsChain (· ≤ ·)) ⟨"index leaf entries are not ordered"⟩
      pure (⟨0, entries, [id]⟩, insert id owned)
    | .indexInternal => do
      throwIf (page.next ≠ noPage) ⟨"internal index page has a sibling link"⟩
      let (level, first, rest) ← readAll (readInternal true) page.payload
      throwIf (¬ (rest.map Prod.fst).IsChain (· ≤ ·)) ⟨"internal index separators are not ordered"⟩
      joinChildren (fun child owned => validateIndexNode pages child owned (insert id active)) level
        ((none, first) :: rest.map (fun r => (some r.1, r.2))) ⟨level, [], []⟩ (insert id owned)
    | _ => .error ⟨"index root or child has the wrong page type"⟩
termination_by (Finset.range pages.length \ active).card
decreasing_by exact unvisited_lt (lt_of_getElem?_some _hp) _ha

/-- The sibling links of the leaves, left to right. -/
def checkLeaves (pages : List Page) : Nat → List Nat → Except Corruption Unit
  | _, [] => .ok ()
  | expectedPrevious, leaf :: leaves => do
    match pages[leaf]? with
    | none => .error ⟨"index leaf sibling chain is invalid"⟩  -- not reached: the leaf was validated
    | some page =>
      let (_, rest) ← u16 "index leaf" page.payload
      let (previous, _) ← u32 "index leaf" rest
      throwIf (previous ≠ expectedPrevious ∨ page.next ≠ leaves.headD noPage) ⟨"index leaf sibling chain is invalid"⟩
      checkLeaves pages leaf leaves

/-- Each record once, under the value its row stores. -/
def checkEntries (rows : List (List Bytes)) (field : Nat) : List Entry → Finset Nat → Except Corruption Unit
  | [], _ => .ok ()
  | e :: entries, seen => do
    throwIf (e.record ≥ rows.length) ⟨"index record identifier is out of range"⟩
    throwIf (e.record ∈ seen) ⟨"index record identifier is duplicated"⟩
    throwIf ((rows[e.record]?.bind (·[field]?)) ≠ some e.key) ⟨"index key does not match stored row"⟩
    checkEntries rows field entries (insert e.record seen)

def checkIndex (pages : List Page) (rows : List (List Bytes)) (field root : Nat) (owned : Finset Nat) :
    Except Corruption (List Entry × Finset Nat) :=
  if root = noPage then do
    throwIf (rows ≠ []) ⟨"non-empty table has an empty index root"⟩
    pure ([], owned)
  else do
    let (node, owned) ← validateIndexNode pages root owned ∅
    throwIf (node.entries.length ≠ rows.length) ⟨"index entry count mismatch"⟩
    checkLeaves pages noPage node.leaves
    checkEntries rows field node.entries ∅
    pure (node.entries, owned)

def checkIndexes (pages : List Page) (rows : List (List Bytes)) :
    Nat → List Nat → Finset Nat → Except Corruption (List (List Entry) × Finset Nat)
  | _, [], owned => .ok ([], owned)
  | field, root :: roots, owned => do
    let (index, owned) ← checkIndex pages rows field root owned
    let (indexes, owned) ← checkIndexes pages rows (field + 1) roots owned
    pure (index :: indexes, owned)

/-! ## The image -/

structure Inspection where
  generation : Nat
  pageCount : Nat
  rowCount : Nat
  fieldCount : Nat
  indexRoots : List Nat
  walPresent : Bool
  deriving DecidableEq, Repr

structure LoadedTable where
  fields : List Bytes
  rows : List (List Bytes)
  indexes : List (List Entry)
  inspection : Inspection

structure ParsedImage where
  table : LoadedTable
  pages : List Page

/-- `max_size()` of a `std::vector` of 24-byte elements. -/
def rowsMaxSize : Nat := (2 ^ 63 - 1) / 24

/-- The bytes of page `id` in an image. -/
def pageSlice (image : Bytes) (id : Nat) : Bytes := (image.drop (id * pageSize)).take pageSize

def decodePages (image : Bytes) : Except Corruption (List Page) :=
  (List.range (image.length / pageSize)).mapM (fun id => decodePage (pageSlice image id) id)

/-- Page zero: the superblock and its own consistency. -/
def parseSuperblock (pages : List Page) : Except Corruption Superblock :=
  match pages with
  | [] => .error ⟨"page zero is not a standalone superblock"⟩
  | page :: _ => do
    throwIf (page.type ≠ .superblock ∨ page.next ≠ noPage) ⟨"page zero is not a standalone superblock"⟩
    let super ← readAll readSuperblock page.payload
    throwIf (super.pageCount ≠ pages.length) ⟨"superblock page count is invalid"⟩
    throwIf (super.freeHead ≠ noPage) ⟨"unsupported non-empty free-page list"⟩
    throwIf (super.fieldCount = 0 ∨ super.fieldCount > maxFields) ⟨"superblock field count is invalid"⟩
    pure super

def parseSchema (pages : List Page) (super : Superblock) (owned : Finset Nat) :
    Except Corruption (List Bytes × Finset Nat) := do
  let (schemaBytes, owned) ← readChain pages .schema super.schemaHead ∅ owned
  let fields ← readAll (readSchema super.fieldCount) schemaBytes
  throwIf (¬ fields.Nodup ∨ [] ∈ fields) ⟨"schema contains empty or duplicate fields"⟩
  pure (fields, owned)

/-- The row stream.  `reserve` throws for a count no vector can hold. -/
def parseRows (pages : List Page) (super : Superblock) (owned : Finset Nat) :
    Except StorageError (List (List Bytes) × Finset Nat) := do
  let (rowBytes, owned) ← liftCorruption (readChain pages .rows super.rowsHead ∅ owned)
  let (count, rest) ← liftCorruption (u64 "row stream" rowBytes)
  throwIf (count ≠ super.rowCount) (.corruption ⟨"row count mismatch"⟩)
  throwIf (super.rowCount > rowsMaxSize) (.lengthError "vector::reserve")
  let rows ← liftCorruption (readAll (readRows super.fieldCount super.rowCount) rest)
  pure (rows, owned)

def parseDirectory (pages : List Page) (super : Superblock) (owned : Finset Nat) :
    Except Corruption (List Nat × Finset Nat) := do
  let (directoryBytes, owned) ← readChain pages .indexDirectory super.indexDirectoryHead ∅ owned
  let roots ← readAll (readDirectory super.fieldCount) directoryBytes
  pure (roots, owned)

/-- `parse_image` behind the page decoder. -/
def parsePages (pages : List Page) (walPresent : Bool) : Except StorageError ParsedImage := do
  let super ← liftCorruption (parseSuperblock pages)
  let (fields, owned) ← liftCorruption (parseSchema pages super {0})
  let (rows, owned) ← parseRows pages super owned
  let (roots, owned) ← liftCorruption (parseDirectory pages super owned)
  let (indexes, owned) ← liftCorruption (checkIndexes pages rows 0 roots owned)
  throwIf (owned.card ≠ pages.length) (.corruption ⟨"database contains unreferenced pages"⟩)
  pure ⟨⟨fields, rows, indexes,
    ⟨super.generation, super.pageCount, super.rowCount, super.fieldCount, roots, walPresent⟩⟩, pages⟩

def parseImage (image : Bytes) (walPresent : Bool) : Except StorageError ParsedImage := do
  throwIf (image = [] ∨ image.length % pageSize ≠ 0) (.corruption ⟨"database file is not a complete page image"⟩)
  throwIf (image.length / pageSize > 2 ^ 32 - 1) (.corruption ⟨"database contains too many pages"⟩)
  let pages ← liftCorruption (decodePages image)
  parsePages pages walPresent

end Storage
end Sql
