import SqlEngine.Built
/-!
# Insert — `build_incremental_insert`, one row into an existing image

The page vector and the set of dirty pages are passed along (`Work`); every mutation of a page stands next to the
`dirty.insert` of the source.  A subscript the source does not check is `pageAt`; the recursion over child pages and the
walk along the row chain take fuel, and `insertRowPages_spec` (in `Inserted`) shows that they never run out of it.
-/
namespace Sql
namespace Storage

open Wire BTree

/-- The pages and the numbers of the changed ones. -/
structure Work where
  pages : List Page
  dirty : Finset Nat

def pageAt (pages : List Page) (id : Nat) : Except StorageError Page :=
  match pages[id]? with
  | some page => .ok page
  | none => .error (.outOfRange "page")

def writeU32 (bytes : Bytes) (offset value : Nat) : Except StorageError Bytes := do
  throwIf (offset + 4 > bytes.length) (.logicError "u32 write exceeds payload")
  pure (patch bytes offset (le 4 value))

def writeU64 (bytes : Bytes) (offset value : Nat) : Except StorageError Bytes := do
  throwIf (offset + 8 > bytes.length) (.logicError "u64 write exceeds payload")
  pure (patch bytes offset (le 8 value))

/-! ## Contents of index pages -/

structure LeafContents where
  previous : Nat
  entries : List Entry

def decodeLeafContents (page : Page) : Except StorageError LeafContents := do
  throwIf (page.type ≠ .indexLeaf) (.logicError "Expected an index leaf")
  let (previous, entries) ← liftCorruption (readAll (readLeaf false) page.payload)
  pure ⟨previous, entries⟩

def appendEntry (e : Entry) : Except StorageError Bytes := do
  let key ← appendString e.key
  pure (key ++ le 8 e.record)

def encodeLeafPayload (previous : Nat) (entries : List Entry) : Except StorageError Bytes := do
  throwIf (entries = [] ∨ entries.length > 2 ^ 16 - 1) (.logicError "Index leaf entry count is invalid")
  let parts ← entries.mapM appendEntry
  pure (le 2 entries.length ++ le 4 previous ++ le 2 0 ++ parts.flatten)

structure InternalContents where
  level : Nat
  separators : List Entry
  children : List Nat

def decodeInternalContents (page : Page) : Except StorageError InternalContents := do
  throwIf (page.type ≠ .indexInternal) (.logicError "Expected an internal index page")
  let (level, first, rest) ← liftCorruption (readAll (readInternal false) page.payload)
  pure ⟨level, rest.map Prod.fst, first :: rest.map Prod.snd⟩

def appendSeparator (r : Entry × Nat) : Except StorageError Bytes := do
  let e ← appendEntry r.1
  pure (e ++ le 4 r.2)

def encodeInternalPayload (contents : InternalContents) : Except StorageError Bytes := do
  throwIf (contents.level = 0 ∨ contents.children.length < 2 ∨
    contents.separators.length + 1 ≠ contents.children.length ∨ contents.separators.length > 2 ^ 16 - 1)
    (.logicError "Internal index shape is invalid")
  let parts ← (contents.separators.zip contents.children.tail).mapM appendSeparator
  pure (le 2 contents.level ++ le 2 contents.separators.length ++ le 4 (contents.children.headD noPage) ++ parts.flatten)

def nodeLevel (page : Page) : Except StorageError Nat :=
  if page.type = .indexLeaf then .ok 0 else do
  let contents ← decodeInternalContents page
  pure contents.level

/-! ## One entry into one tree -/

structure NodeSplit where
  separator : Entry
  rightPage : Nat

/-- The leaf behind a split one gets a new previous link. -/
def relinkSibling (oldNext rightId : Nat) (w : Work) : Except StorageError Work :=
  if oldNext = noPage then .ok w else
  match w.pages[oldNext]? with
  | none => .error (.corruption ⟨"leaf sibling points outside its index"⟩)
  | some sibling => do
    throwIf (sibling.type ≠ .indexLeaf) (.corruption ⟨"leaf sibling points outside its index"⟩)
    let payload ← writeU32 sibling.payload 2 rightId
    pure ⟨w.pages.set oldNext { sibling with payload := payload }, insert oldNext w.dirty⟩

/-- The leaf case: into the leaf, or into two halves of it. -/
def insertLeafEntry (page : Page) (pageId : Nat) (entry : Entry) (w : Work) :
    Except StorageError (Option NodeSplit × Work) := do
  let leaf ← decodeLeafContents page
  throwIf ((leaf.entries.dropWhile (· < entry)).head? = some entry)
    (.corruption ⟨"index already contains the inserted record identifier"⟩)
  let entries := lowerInsert entry leaf.entries
  let payload ← encodeLeafPayload leaf.previous entries
  if payload.length ≤ pagePayloadSize then
    pure (none, ⟨w.pages.set pageId { page with payload := payload }, insert pageId w.dirty⟩)
  else do
    let left := entries.take (entries.length / 2)
    let right := entries.drop (entries.length / 2)
    let rightId := w.pages.length
    let leftPayload ← encodeLeafPayload leaf.previous left
    let rightPayload ← encodeLeafPayload pageId right
    let pages := w.pages.set pageId { page with next := rightId, payload := leftPayload } ++
      [⟨.indexLeaf, rightId, page.next, rightPayload⟩]
    let w ← relinkSibling page.next rightId ⟨pages, insert rightId (insert pageId w.dirty)⟩
    pure (some ⟨right.headD default, rightId⟩, w)

/-- What a split child asks of its parent: a new separator and child, and perhaps a split of its own. -/
def insertChild (internal : InternalContents) (pageId childIndex : Nat) (split : NodeSplit) (w : Work) :
    Except StorageError (Option NodeSplit × Work) := do
  let separators := internal.separators.insertIdx childIndex split.separator
  let children := internal.children.insertIdx (childIndex + 1) split.rightPage
  let payload ← encodeInternalPayload ⟨internal.level, separators, children⟩
  if payload.length ≤ pagePayloadSize then
    pure (none, ⟨setPayload w.pages pageId payload, insert pageId w.dirty⟩)
  else do
    let rightChildBegin := children.length / 2
    throwIf (rightChildBegin < 2 ∨ children.length - rightChildBegin < 2)
      (.logicError "Internal split cannot produce two valid nodes")
    let promoted := separators.getD (rightChildBegin - 1) default
    let leftPayload ← encodeInternalPayload
      ⟨internal.level, separators.take (rightChildBegin - 1), children.take rightChildBegin⟩
    let rightId := w.pages.length
    let rightPayload ← encodeInternalPayload
      ⟨internal.level, separators.drop rightChildBegin, children.drop rightChildBegin⟩
    let pages := setPayload w.pages pageId leftPayload ++ [⟨.indexInternal, rightId, noPage, rightPayload⟩]
    pure (some ⟨promoted, rightId⟩, ⟨pages, insert rightId (insert pageId w.dirty)⟩)

def insertIndexEntry : Nat → Nat → Entry → Work → Except StorageError (Option NodeSplit × Work)
  | 0, _, _, _ => .error .diverges
  | fuel + 1, pageId, entry, w =>
    match w.pages[pageId]? with
    | none => .error (.corruption ⟨"index insert points outside the file"⟩)
    | some page =>
      match page.type with
      | .indexLeaf => insertLeafEntry page pageId entry w
      | .indexInternal => do
        let internal ← decodeInternalContents page
        let childIndex := route entry internal.separators
        let (split, w) ← insertIndexEntry fuel (internal.children.getD childIndex noPage) entry w
        match split with
        | none => pure (none, w)
        | some split => insertChild internal pageId childIndex split w
      | _ => .error (.corruption ⟨"index insert encountered a non-index page"⟩)

/-! ## All fields -/

/-- The entry of one field: a first leaf, an insertion, or an insertion that grows a new root. -/
def insertField (root : Nat) (entry : Entry) (w : Work) : Except StorageError (Nat × Work) :=
  if root = noPage then do
    let id := w.pages.length
    let payload ← encodeLeafPayload noPage [entry]
    pure (id, ⟨w.pages ++ [⟨.indexLeaf, id, noPage, payload⟩], insert id w.dirty⟩)
  else do
    let (split, w) ← insertIndexEntry w.pages.length root entry w
    match split with
    | none => pure (root, w)
    | some split => do
      let id := w.pages.length
      let oldRoot ← pageAt w.pages root
      let level ← nodeLevel oldRoot
      let payload ← encodeInternalPayload ⟨level + 1, [split.separator], [root, split.rightPage]⟩
      pure (id, ⟨w.pages ++ [⟨.indexInternal, id, noPage, payload⟩], insert id w.dirty⟩)

/-- The fields from one on, each with its root, and their places in the directory. -/
def insertFields (directoryHead : Nat) (row : List Bytes) (record : Nat) :
    Nat → List Nat → Work → Except StorageError Work
  | _, [], w => .ok w
  | field, root :: roots, w => do
    let (root, w) ← insertField root ⟨row.getD field [], record⟩ w
    let directory ← pageAt w.pages directoryHead
    let payload ← writeU32 directory.payload (4 + field * 4) root
    insertFields directoryHead row record (field + 1) roots
      ⟨w.pages.set directoryHead { directory with payload := payload }, w.dirty⟩

/-! ## The row -/

/-- The last page of the row chain. -/
def lastRowPage (pages : List Page) : Nat → Nat → Except StorageError Nat
  | 0, _ => .error .diverges
  | fuel + 1, rowPage => do
    let page ← pageAt pages rowPage
    if page.next = noPage then pure rowPage else lastRowPage pages fuel page.next

/-- The loop that appends the encoded row, over as many new pages as it takes. -/
def appendRow : Nat → Nat → Bytes → Work → Except StorageError Work
  | 0, _, _, _ => .error .diverges
  | fuel + 1, rowPage, bytes, w =>
    if bytes = [] then .ok w else do
    let target ← pageAt w.pages rowPage
    let copied := min (pagePayloadSize - target.payload.length) bytes.length
    let payload := target.payload ++ bytes.take copied
    if copied < bytes.length then
      let next := w.pages.length
      let pages := w.pages.set rowPage { target with next := next, payload := payload } ++ [⟨.rows, next, noPage, []⟩]
      appendRow fuel next (bytes.drop copied) ⟨pages, insert next (insert rowPage w.dirty)⟩
    else
      pure ⟨w.pages.set rowPage { target with payload := payload }, insert rowPage w.dirty⟩

/-! ## The image -/

/-- The fields of page zero an insert reads: row head, directory head, field count and row count. -/
def superHeads : Reader Corruption (Nat × Nat × Nat × Nat) := do
  let _ ← u64 "superblock"
  let _ ← u32 "superblock"
  let _ ← u32 "superblock"
  let _ ← u32 "superblock"
  let rowsHead ← u32 "superblock"
  let directoryHead ← u32 "superblock"
  let _ ← u32 "superblock"
  let fieldCount ← u32 "superblock"
  let rowCount ← u64 "superblock"
  pure (rowsHead, directoryHead, fieldCount, rowCount)

def directoryRoots (fieldCount : Nat) : Reader Corruption (List Nat) := do
  let count ← u32 "index directory"
  refuseIf (count ≠ fieldCount) ⟨"index field count mismatch"⟩
  many (u32 "index directory") fieldCount

/-- The row count and the row itself. -/
def insertRowChain (rowsHead fieldCount rowCount : Nat) (row : List Bytes) (w : Work) : Except StorageError Work :=
  match w.pages[rowsHead]? with
  | none => .error (.corruption ⟨"row chain head is invalid"⟩)
  | some head => do
    throwIf (head.type ≠ .rows) (.corruption ⟨"row chain head is invalid"⟩)
    let payload ← writeU64 head.payload 0 (rowCount + 1)
    let pages := w.pages.set rowsHead { head with payload := payload }
    let values ← appendStrings row
    let encodedRow := le 4 fieldCount ++ values
    let rowPage ← lastRowPage pages (pages.length + 1) rowsHead
    appendRow (encodedRow.length + 2) rowPage encodedRow ⟨pages, insert rowsHead w.dirty⟩

def insertDirectory (directoryHead fieldCount rowCount : Nat) (row : List Bytes) (w : Work) : Except StorageError Work :=
  match w.pages[directoryHead]? with
  | none => .error (.corruption ⟨"index directory head is invalid"⟩)
  | some directory => do
    throwIf (directory.type ≠ .indexDirectory) (.corruption ⟨"index directory head is invalid"⟩)
    let roots ← liftCorruption (readAll (directoryRoots fieldCount) directory.payload)
    let w ← insertFields directoryHead row rowCount 0 roots w
    pure ⟨w.pages, insert directoryHead w.dirty⟩

/-- The new generation, page count and row count in page zero. -/
def updateSuperblock (generation rowCount : Nat) (w : Work) : Except StorageError Work := do
  let super ← pageAt w.pages 0
  let payload ← writeU64 super.payload 0 generation
  let payload ← writeU32 payload 12 w.pages.length
  let payload ← writeU64 payload 36 rowCount
  pure ⟨w.pages.set 0 { super with payload := payload }, insert 0 w.dirty⟩

/-- `build_incremental_insert` between its two calls of `parse_image`. -/
def insertRowPages (parsed : ParsedImage) (row : List Bytes) : Except StorageError Work := do
  throwIf (row.length ≠ parsed.table.fields.length) (.invalidArgument
    ("Expected " ++ toString parsed.table.fields.length ++ " values, received " ++ toString row.length))
  validateValues row
  throwIf (parsed.table.inspection.generation = 2 ^ 64 - 1) (.overflowError "Database generation is exhausted")
  throwIf (parsed.table.rows.length = 2 ^ 64 - 1) (.overflowError "Record identifier space is exhausted")
  let super ← pageAt parsed.pages 0
  let (rowsHead, directoryHead, fieldCount, rowCount) ← liftCorruption (readAll superHeads super.payload)
  let w ← insertRowChain rowsHead fieldCount rowCount row ⟨parsed.pages, ∅⟩
  let w ← insertDirectory directoryHead fieldCount rowCount row w
  updateSuperblock (parsed.table.inspection.generation + 1) (rowCount + 1) w

structure IncrementalImage where
  image : Bytes
  dirtyPages : Finset Nat
  generation : Nat

def buildIncrementalInsert (currentImage : Bytes) (row : List Bytes) : Except StorageError IncrementalImage := do
  let parsed ← parseImage currentImage false
  let w ← insertRowPages parsed row
  let image ← encodePages w.pages
  let _ ← parseImage image false
  pure ⟨image, w.dirty, parsed.table.inspection.generation + 1⟩

end Storage
end Sql
