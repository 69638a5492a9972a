import SqlEngine.Frame
/-!
# Build — `build_image`, a whole image from fields and rows

`validate_schema`, the page chains, the bulk loader of an index (greedy leaves, relinking by patching payload bytes,
levels of parents) and `build_image`, as `storage_v2.cpp` has them.  A page number is the position of the page; the code
casts it to 32 bits, which changes nothing below 2³² pages.
-/
namespace Sql
namespace Storage

open Wire BTree

/-! ## Checks and strings -/

/-- A byte string in an error text, one character a byte. -/
def text (bytes : Bytes) : String := String.ofList (bytes.map (fun b => Char.ofNat b.toNat))

def validateFields : List Bytes → List Bytes → Except StorageError Unit
  | [], _ => .ok ()
  | field :: fields, unique => do
    throwIf (field = [] ∨ field.length > maxValueLength)
      (.invalidArgument "Field names must be between 1 and 100 bytes")
    throwIf (field ∈ unique) (.invalidArgument ("Duplicate field name: " ++ text field))
    validateFields fields (field :: unique)

def validateValues : List Bytes → Except StorageError Unit
  | [] => .ok ()
  | value :: values => do
    throwIf (value.length > maxValueLength) (.lengthError "Values must not exceed 100 bytes")
    validateValues values

def validateRows (fieldCount : Nat) : List (List Bytes) → Except StorageError Unit
  | [] => .ok ()
  | row :: rows => do
    throwIf (row.length ≠ fieldCount) (.invalidArgument "Stored row field count does not match schema")
    validateValues row
    validateRows fieldCount rows

def validateSchema (fields : List Bytes) (rows : List (List Bytes)) : Except StorageError Unit := do
  throwIf (fields = [] ∨ fields.length > maxFields) (.invalidArgument "A table must have between 1 and 64 fields")
  validateFields fields []
  validateRows fields.length rows

def appendString (value : Bytes) : Except StorageError Bytes := do
  throwIf (value.length > maxValueLength) (.lengthError "Values must not exceed 100 bytes")
  pure (putBlob 2 value)

def appendStrings (values : List Bytes) : Except StorageError Bytes := do
  let parts ← values.mapM appendString
  pure parts.flatten

/-- Bytes overwritten from an offset on. -/
def patch (bytes : Bytes) (offset : Nat) (value : Bytes) : Bytes :=
  bytes.take offset ++ value ++ bytes.drop (offset + value.length)

/-! ## Page chains -/

/-- Link the last page to a new one when it belongs to the chain that starts at `first`. -/
def linkLast (type : PageType) (first next : Nat) (pages : List Page) : List Page :=
  match pages.getLast? with
  | none => pages
  | some back =>
    if back.type = type ∧ back.next = noPage ∧ back.id ≥ first then pages.dropLast ++ [{ back with next := next }]
    else pages

/-- The loop of `add_chain`. -/
def addChainPages (type : PageType) (first : Nat) (pages : List Page) (bytes : Bytes) : List Page :=
  if _h : bytes = [] then pages else
  let page : Page := ⟨type, pages.length, noPage, bytes.take pagePayloadSize⟩
  addChainPages type first (linkLast type first page.id pages ++ [page]) (bytes.drop pagePayloadSize)
termination_by bytes.length
decreasing_by
  have := List.length_pos_iff.2 _h
  have : pagePayloadSize = 4064 := rfl
  simp only [List.length_drop]
  omega

def addChain (pages : List Page) (type : PageType) (bytes : Bytes) : Nat × List Page :=
  if bytes = [] then (pages.length, pages ++ [⟨type, pages.length, noPage, []⟩])
  else (pages.length, addChainPages type pages.length pages bytes)

/-! ## Indexes -/

structure ChildDescriptor where
  id : Nat
  minimum : Entry
  level : Nat

/-- The inner loop of a leaf: entries as long as they fit. -/
def fillLeaf : Bytes → Nat → List Entry → Except StorageError (Bytes × Nat × List Entry)
  | payload, count, [] => .ok (payload, count, [])
  | payload, count, e :: entries =>
    if payload.length + (2 + e.key.length + 8) > pagePayloadSize then .ok (payload, count, e :: entries) else do
    let key ← appendString e.key
    fillLeaf (payload ++ key ++ le 8 e.record) (count + 1) entries

theorem fillLeaf_length : ∀ {entries : List Entry} {payload payload' : Bytes} {count count' : Nat} {rest : List Entry},
    fillLeaf payload count entries = .ok (payload', count', rest) →
    count' + rest.length = count + entries.length
  | [], payload, payload', count, count', rest, h => by
    obtain ⟨rfl, rfl, rfl⟩ : payload = payload' ∧ count = count' ∧ [] = rest := by simpa [fillLeaf] using h
    rfl
  | e :: entries, payload, payload', count, count', rest, h => by
    rw [fillLeaf] at h
    split at h
    · obtain ⟨rfl, rfl, rfl⟩ : payload = payload' ∧ count = count' ∧ e :: entries = rest := by simpa using h
      rfl
    · obtain ⟨key, -, h1⟩ := except_bind_ok.1 h
      have := fillLeaf_length h1
      simp only [List.length_cons]
      omega

/-- The leaves, each with as many entries as fit. -/
def buildLeaves (pages : List Page) (entries : List Entry) : Except StorageError (List ChildDescriptor × List Page) :=
  match entries with
  | [] => .ok ([], pages)
  | first :: others =>
    match _h : fillLeaf (le 2 0 ++ le 4 noPage ++ le 2 0) 0 (first :: others) with
    | .error e => .error e
    | .ok (payload, count, rest) =>
      if _hc : count = 0 then .error (.logicError "Index entry does not fit in a page") else do
      let page : Page := ⟨.indexLeaf, pages.length, noPage, patch payload 0 (le 2 count)⟩
      let (level, pages) ← buildLeaves (pages ++ [page]) rest
      pure (⟨page.id, first, 0⟩ :: level, pages)
termination_by entries.length
decreasing_by
  have := fillLeaf_length _h
  simp only [List.length_cons] at this ⊢
  omega

/-- Link the leaves at some positions: the next leaf in the page, the previous one in its payload. -/
def relinkLeaves : List Page → Nat → List Nat → List Page
  | pages, _, [] => pages
  | pages, previous, position :: positions =>
    let pages := pages.modify position (fun leaf =>
      { leaf with next := positions.headD noPage, payload := patch leaf.payload 2 (le 4 previous) })
    relinkLeaves pages position positions

/-- How many of these children fit behind the first child of a page. -/
def fitting : Nat → List ChildDescriptor → Nat
  | _, [] => 0
  | encodedSize, c :: children =>
    let entrySize := 2 + c.minimum.key.length + 8 + 4
    if encodedSize + entrySize > pagePayloadSize then 0 else fitting (encodedSize + entrySize) children + 1

/-- The number of children of the next parent: as many as fit, but never leaving a single one behind. -/
def groupSize (level : List ChildDescriptor) : Nat :=
  let size := fitting 8 level.tail + 1
  if level.length - size = 1 ∧ size > 2 then size - 1 else size

def encodeSeparators (children : List ChildDescriptor) : Except StorageError Bytes := do
  let parts ← children.mapM (fun c => do
    let key ← appendString c.minimum.key
    pure (key ++ le 8 c.minimum.record ++ le 4 c.id))
  pure parts.flatten

/-- One level of parents. -/
def buildParents (pages : List Page) (level : List ChildDescriptor) :
    Except StorageError (List ChildDescriptor × List Page) :=
  match level with
  | [] => .ok ([], pages)
  | first :: others =>
    let size := groupSize (first :: others)
    if _h : size < 2 then .error (.logicError "Internal index page must contain at least two children") else do
    let group := others.take (size - 1)
    let separators ← encodeSeparators group
    let payload := patch (le 2 (first.level + 1) ++ le 2 0 ++ le 4 first.id ++ separators) 2 (le 2 group.length)
    let page : Page := ⟨.indexInternal, pages.length, noPage, payload⟩
    let (parents, pages) ← buildParents (pages ++ [page]) (others.drop (size - 1))
    pure (⟨page.id, first.minimum, first.level + 1⟩ :: parents, pages)
termination_by level.length
decreasing_by
  simp only [List.length_cons, List.length_drop]
  omega

theorem fitting_le : ∀ (children : List ChildDescriptor) (encodedSize : Nat),
    fitting encodedSize children ≤ children.length
  | [], _ => Nat.le_refl 0
  | c :: children, encodedSize => by
    have := fitting_le children (encodedSize + (2 + c.minimum.key.length + 8 + 4))
    simp only [fitting, List.length_cons]
    split <;> omega

theorem groupSize_le (first : ChildDescriptor) (others : List ChildDescriptor) :
    groupSize (first :: others) ≤ others.length + 1 := by
  have := fitting_le others 8
  unfold groupSize
  dsimp only [List.tail_cons]
  split_ifs <;> omega

/-- Every parent has at least two children. -/
theorem buildParents_length : ∀ (pages : List Page) (level : List ChildDescriptor) {parents : List ChildDescriptor}
    {pages' : List Page}, buildParents pages level = .ok (parents, pages') → 2 * parents.length ≤ level.length
  | pages, [], parents, pages', h => by
    rw [buildParents] at h
    obtain ⟨rfl, rfl⟩ : [] = parents ∧ pages = pages' := by simpa using h
    rfl
  | pages, first :: others, parents, pages', h => by
    have hsize := groupSize_le first others
    rw [buildParents] at h
    split at h
    · cases h
    obtain ⟨_, -, h1⟩ := except_bind_ok.1 h
    obtain ⟨⟨ps, pages''⟩, h2, h3⟩ := except_bind_ok.1 h1
    obtain ⟨rfl, rfl⟩ := Prod.mk.inj (Except.ok.inj h3)
    have := buildParents_length _ _ h2
    simp only [List.length_cons, List.length_drop] at this ⊢
    omega
termination_by _ level => level.length
decreasing_by
  simp only [List.length_cons, List.length_drop]
  omega

/-- Levels of parents until one is left. -/
def buildLevels (pages : List Page) (level : List ChildDescriptor) : Except StorageError (Nat × List Page) :=
  match level with
  | [] => .error (.logicError "")  -- not reached: an index has an entry
  | [top] => .ok (top.id, pages)
  | first :: second :: others =>
    match _h : buildParents pages (first :: second :: others) with
    | .error e => .error e
    | .ok (parents, pages) => buildLevels pages parents
termination_by level.length
decreasing_by
  have := buildParents_length _ _ _h
  simp only [List.length_cons] at this ⊢
  omega

def buildIndex (pages : List Page) (entries : List Entry) : Except StorageError (Nat × List Page) :=
  if entries = [] then .ok (noPage, pages) else do
  let (level, pages) ← buildLeaves pages entries
  buildLevels (relinkLeaves pages noPage (level.map ChildDescriptor.id)) level

/-- The indexes of some fields, one after another.  The entries of a field come sorted from `std::sort`. -/
def buildIndexes (pages : List Page) (rows : List (List Bytes)) : List Nat → Except StorageError (List Nat × List Page)
  | [] => .ok ([], pages)
  | field :: fields => do
    let (root, pages) ← buildIndex pages (sortedIndex rows field)
    let (roots, pages) ← buildIndexes pages rows fields
    pure (root :: roots, pages)

/-! ## The image -/

def encodeSchema (fields : List Bytes) : Except StorageError Bytes := do
  let names ← appendStrings fields
  pure (le 4 fields.length ++ names)

def encodeRow (row : List Bytes) : Except StorageError Bytes := do
  let values ← appendStrings row
  pure (le 4 row.length ++ values)

def encodeRows (rows : List (List Bytes)) : Except StorageError Bytes := do
  let parts ← rows.mapM encodeRow
  pure (le 8 rows.length ++ parts.flatten)

def setPayload (pages : List Page) (id : Nat) (payload : Bytes) : List Page :=
  pages.modify id (fun page => { page with payload := payload })

/-- The pages of `build_image`. -/
def buildPages (fields : List Bytes) (rows : List (List Bytes)) (generation : Nat) : Except StorageError (List Page) := do
  validateSchema fields rows
  let pages : List Page := [⟨.superblock, 0, noPage, []⟩]
  let schema ← encodeSchema fields
  let (schemaHead, pages) := addChain pages .schema schema
  let rowBytes ← encodeRows rows
  let (rowsHead, pages) := addChain pages .rows rowBytes
  let indexDirectoryHead := pages.length
  let pages := pages ++ [⟨.indexDirectory, indexDirectoryHead, noPage, []⟩]
  let (roots, pages) ← buildIndexes pages rows (List.range fields.length)
  let pages := setPayload pages indexDirectoryHead (le 4 roots.length ++ roots.flatMap (le 4))
  pure (setPayload pages 0 (le 8 generation ++ le 4 pageSize ++ le 4 pages.length ++ le 4 schemaHead ++ le 4 rowsHead ++
    le 4 indexDirectoryHead ++ le 4 noPage ++ le 4 fields.length ++ le 8 rows.length))

def encodePages (pages : List Page) : Except StorageError Bytes := do
  let encoded ← pages.mapM encodePage
  pure encoded.flatten

def buildImage (fields : List Bytes) (rows : List (List Bytes)) (generation : Nat) : Except StorageError Bytes := do
  let pages ← buildPages fields rows generation
  encodePages pages

end Storage
end Sql
