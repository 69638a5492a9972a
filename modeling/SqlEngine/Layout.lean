import SqlEngine.BTree
import SqlEngine.Payload
/-!
# Layout — what a valid database image is

The abstract side of the storage format: a table (fields, rows, generation) with the places its parts occupy.
`Layout.On pages` says that a page vector holds exactly that layout: a superblock, three page chains, one B+ tree per
field with its leaves linked left to right, and every page in exactly one of these.  `parse_image` accepts a page
vector if and only if it holds some layout (`parsePages_iff`, in `Parse`), so everything about accepted images is
said here.
-/
namespace Sql
namespace Storage

open Wire BTree

/-! ## Pages by number -/

/-- Page `i` of the vector carries identifier `i`, and its fields fit. -/
def PagesOk (pages : List Page) : Prop := ∀ i (page : Page), pages[i]? = some page → page.id = i ∧ page.Fits

/-- The image of a page vector. -/
def imageOf (pages : List Page) : Bytes := pages.flatMap pageImage

/-! ## Chains -/

/-- The first page of a chain, or the null link. -/
def chainHead (chain : List (Nat × Bytes)) : Nat := (chain.map Prod.fst).headD noPage

/-- **A page chain**: each page has the type, and links to the next. -/
def ChainAt (pages : List Page) (type : PageType) : List (Nat × Bytes) → Prop
  | [] => True
  | (id, payload) :: chain => pages[id]? = some ⟨type, id, chainHead chain, payload⟩ ∧ ChainAt pages type chain

/-- The byte stream of a chain. -/
def chainBytes (chain : List (Nat × Bytes)) : Bytes := chain.flatMap Prod.snd

/-! ## Index trees on pages -/

/-- The separators of a node with the pages right of them. -/
def separators (n : Nat) (kids : List (Tree Entry n)) : List (Entry × Nat) :=
  kids.tail.map (fun k => (least n k, root n k))

def firstChild (n : Nat) (kids : List (Tree Entry n)) : Nat := (kids.map (root n)).headD noPage

/-- The payload of the internal page over some children. -/
def nodePayload (n : Nat) (kids : List (Tree Entry n)) : Bytes :=
  internalPayload (n + 1) (firstChild n kids) (separators n kids)

/-- The inner nodes of a tree are on their pages: the separators are the least entries of the right children. -/
def InnerAt (pages : List Page) : (n : Nat) → Tree Entry n → Prop
  | 0, _ => True
  | n + 1, t => pages[t.node.id]? = some ⟨.indexInternal, t.node.id, noPage, nodePayload n t.node.kids⟩ ∧
      ∀ k ∈ t.node.kids, InnerAt pages n k

/-- The first of some leaves, or what comes behind them. -/
def leafHead (leaves : List (Leaf Entry)) (next : Nat) : Nat := (leaves.map Leaf.id).headD next

/-- The last of some leaves, or what comes before them. -/
def leafLast (previous : Nat) (leaves : List (Leaf Entry)) : Nat := (leaves.map Leaf.id).getLastD previous

/-- **Leaves on their pages, linked left to right**, after `previous` and before `next`. -/
def LeafChain (pages : List Page) : Nat → List (Leaf Entry) → Nat → Prop
  | _, [], _ => True
  | previous, l :: ls, next =>
    pages[l.id]? = some ⟨.indexLeaf, l.id, leafHead ls next, leafPayload previous l.entries⟩ ∧
      LeafChain pages l.id ls next

/-- An index of some depth, or none for a table without rows. -/
abbrev Index := Option (Σ n, Tree Entry n)

def Index.root : Index → Nat
  | none => noPage
  | some ⟨n, t⟩ => BTree.root n t

def Index.ids : Index → List Nat
  | none => []
  | some ⟨n, t⟩ => BTree.ids n t

/-! ## The index a table asks for -/

/-- The value of a record in a field. -/
def valueAt (rows : List (List Bytes)) (record field : Nat) : Bytes := ((rows[record]?).bind (·[field]?)).getD []

/-- One entry per record, in record order. -/
def column (rows : List (List Bytes)) (field : Nat) : List Entry :=
  (List.range rows.length).map (fun r => ⟨valueAt rows r field, r⟩)

/-- **The index of a field**: its entries sorted by value and record identifier. -/
def sortedIndex (rows : List (List Bytes)) (field : Nat) : List Entry := (column rows field).insertionSort (· ≤ ·)

theorem length_column (rows : List (List Bytes)) (field : Nat) : (column rows field).length = rows.length := by
  simp [column]

theorem column_nodup (rows : List (List Bytes)) (field : Nat) : (column rows field).Nodup :=
  List.Nodup.map (fun a b h => by simpa using congrArg Entry.record h) List.nodup_range

theorem sortedIndex_perm (rows : List (List Bytes)) (field : Nat) : (sortedIndex rows field).Perm (column rows field) :=
  List.perm_insertionSort _ _

theorem sortedIndex_sorted (rows : List (List Bytes)) (field : Nat) : (sortedIndex rows field).Pairwise (· ≤ ·) :=
  List.pairwise_insertionSort _ _

theorem length_sortedIndex (rows : List (List Bytes)) (field : Nat) : (sortedIndex rows field).length = rows.length := by
  rw [(sortedIndex_perm rows field).length_eq, length_column]

theorem sortedIndex_nodup (rows : List (List Bytes)) (field : Nat) : (sortedIndex rows field).Nodup :=
  (sortedIndex_perm rows field).nodup_iff.2 (column_nodup rows field)

/-- The index is strictly increasing. -/
theorem sortedIndex_strict (rows : List (List Bytes)) (field : Nat) : (sortedIndex rows field).Pairwise (· < ·) :=
  (List.pairwise_and_iff.2 ⟨sortedIndex_sorted rows field, sortedIndex_nodup rows field⟩).imp
    (fun h => lt_of_le_of_ne h.1 h.2)

theorem mem_sortedIndex {rows : List (List Bytes)} {field : Nat} {e : Entry} :
    e ∈ sortedIndex rows field ↔ e.record < rows.length ∧ e.key = valueAt rows e.record field := by
  rw [(sortedIndex_perm rows field).mem_iff, column, List.mem_map]
  constructor
  · rintro ⟨r, hr, rfl⟩
    exact ⟨List.mem_range.1 hr, rfl⟩
  · rintro ⟨hr, hk⟩
    exact ⟨e.record, List.mem_range.2 hr, by rw [← hk]⟩

/-- A sorted permutation of the column is the index. -/
theorem eq_sortedIndex {rows : List (List Bytes)} {field : Nat} {entries : List Entry}
    (hp : entries.Perm (column rows field)) (hs : entries.Pairwise (· ≤ ·)) : entries = sortedIndex rows field :=
  eq_of_perm_of_sorted (hp.trans (sortedIndex_perm rows field).symm) hs (sortedIndex_sorted rows field)

theorem valueAt_of_rowOk {n : Nat} {rows : List (List Bytes)} (h : ∀ r ∈ rows, RowOk n r) {record field : Nat}
    (hr : record < rows.length) (hf : field < n) :
    (rows[record]?).bind (·[field]?) = some (valueAt rows record field) := by
  have hrow := h _ (List.getElem_mem hr)
  have hf' : field < rows[record].length := by rw [hrow.arity]; exact hf
  simp [valueAt, hr, hf']

theorem valueAt_length_le {n : Nat} {rows : List (List Bytes)} (h : ∀ r ∈ rows, RowOk n r) (record field : Nat) :
    (valueAt rows record field).length ≤ maxValueLength := by
  unfold valueAt
  cases hr : rows[record]? with
  | none => simp
  | some row =>
    cases hv : row[field]? with
    | none => simp [hv]
    | some v => simpa [hv] using (h row (List.mem_of_getElem? hr)).value_le v (List.mem_of_getElem? hv)

/-! ## Layouts -/

/-- A table and the places of its parts. -/
structure Layout where
  generation : Nat
  fields : List Bytes
  rows : List (List Bytes)
  schema : List (Nat × Bytes)
  rowChain : List (Nat × Bytes)
  directory : List (Nat × Bytes)
  trees : List Index

def Layout.roots (L : Layout) : List Nat := L.trees.map Index.root

def Layout.super (L : Layout) (pageCount : Nat) : Superblock :=
  ⟨L.generation, pageCount, chainHead L.schema, chainHead L.rowChain, chainHead L.directory, noPage,
    L.fields.length, L.rows.length⟩

/-- Every page with the part it belongs to, part by part. -/
def Layout.ids (L : Layout) : List Nat :=
  0 :: (L.schema.map Prod.fst ++ L.rowChain.map Prod.fst ++ L.directory.map Prod.fst ++ L.trees.flatMap Index.ids)

/-- In the order in which the parts are read. -/
theorem Layout.toFinset_ids (L : Layout) : L.ids.toFinset = {0} ∪ (L.schema.map Prod.fst).toFinset ∪
    (L.rowChain.map Prod.fst).toFinset ∪ (L.directory.map Prod.fst).toFinset ∪ (L.trees.flatMap Index.ids).toFinset := by
  rw [Layout.ids, List.toFinset_cons, List.toFinset_append, List.toFinset_append, List.toFinset_append, Finset.insert_eq]
  simp only [Finset.union_assoc]

/-- The parts of an image. -/
inductive Part where
  | superblock | schema | rows | directory
  | index (field : Nat)

/-- The pages of a part. -/
def Layout.part (L : Layout) : Part → List Nat
  | .superblock => [0]
  | .schema => L.schema.map Prod.fst
  | .rows => L.rowChain.map Prod.fst
  | .directory => L.directory.map Prod.fst
  | .index field => (L.trees[field]?).elim [] Index.ids

theorem mem_flatMap_iff_getElem? {α : Type} {f : α → List Nat} {l : List α} {i : Nat} :
    i ∈ l.flatMap f ↔ ∃ k : Nat, i ∈ (l[k]?).elim [] f := by
  rw [List.mem_flatMap]
  constructor
  · rintro ⟨a, ha, hi⟩
    obtain ⟨k, hk⟩ := List.getElem?_of_mem ha
    exact ⟨k, by rw [hk]; exact hi⟩
  · rintro ⟨k, hi⟩
    cases hk : l[k]? with
    | none => rw [hk] at hi; cases hi
    | some a => rw [hk] at hi; exact ⟨a, List.mem_of_getElem? hk, hi⟩

/-- Lists joined without repetition share no element. -/
theorem getElem?_unique_of_nodup_flatMap {α : Type} {f : α → List Nat} : ∀ {l : List α} {i j k : Nat},
    (l.flatMap f).Nodup → i ∈ (l[j]?).elim [] f → i ∈ (l[k]?).elim [] f → j = k
  | [], _, _, _, _, h, _ => by cases h
  | a :: l, i, j, k, hnd, hj, hk => by
    rw [List.flatMap_cons, List.nodup_append] at hnd
    match j, k with
    | 0, 0 => rfl
    | 0, k + 1 => exact absurd rfl (hnd.2.2 i (by simpa using hj) i (mem_flatMap_iff_getElem?.2 ⟨k, by simpa using hk⟩))
    | j + 1, 0 => exact absurd rfl (hnd.2.2 i (by simpa using hk) i (mem_flatMap_iff_getElem?.2 ⟨j, by simpa using hj⟩))
    | j + 1, k + 1 =>
      have hjk : j = k := getElem?_unique_of_nodup_flatMap hnd.2.1 (by simpa using hj) (by simpa using hk)
      rw [hjk]

theorem mem_ids_iff {L : Layout} {i : Nat} : i ∈ L.ids ↔ ∃ p, i ∈ L.part p := by
  simp only [Layout.ids, List.mem_cons, List.mem_append]
  constructor
  · rintro (rfl | ((hi | hi) | hi) | hi)
    · exact ⟨.superblock, by simp [Layout.part]⟩
    · exact ⟨.schema, hi⟩
    · exact ⟨.rows, hi⟩
    · exact ⟨.directory, hi⟩
    · obtain ⟨k, hk⟩ := mem_flatMap_iff_getElem?.1 hi
      exact ⟨.index k, hk⟩
  · rintro ⟨p, hp⟩
    cases p with
    | superblock => exact Or.inl (by simpa [Layout.part] using hp)
    | schema => exact Or.inr (Or.inl (Or.inl (Or.inl hp)))
    | rows => exact Or.inr (Or.inl (Or.inl (Or.inr hp)))
    | directory => exact Or.inr (Or.inl (Or.inr hp))
    | index k => exact Or.inr (Or.inr (mem_flatMap_iff_getElem?.2 ⟨k, hp⟩))

/-- **Distinct parts share no page** when no page is listed twice. -/
theorem Layout.part_unique {L : Layout} (hnd : L.ids.Nodup) {i : Nat} {p q : Part} (hp : i ∈ L.part p)
    (hq : i ∈ L.part q) : p = q := by
  rw [Layout.ids, List.nodup_cons, List.nodup_append, List.nodup_append, List.nodup_append] at hnd
  obtain ⟨h0, ⟨⟨-, -, dsr⟩, -, dsd⟩, hndt, dst⟩ := hnd
  simp only [List.mem_append] at h0 dsd dst
  have htree : ∀ {k}, i ∈ L.part (.index k) → i ∈ L.trees.flatMap Index.ids := fun h => mem_flatMap_iff_getElem?.2 ⟨_, h⟩
  have hsuper : ∀ {r}, i ∈ L.part .superblock → i ∈ L.part r → r = .superblock := fun {r} hs hr => by
    obtain rfl : i = 0 := by simpa [Layout.part] using hs
    cases r with
    | superblock => rfl
    | schema => exact absurd (Or.inl (Or.inl (Or.inl hr))) h0
    | rows => exact absurd (Or.inl (Or.inl (Or.inr hr))) h0
    | directory => exact absurd (Or.inl (Or.inr hr)) h0
    | index k => exact absurd (Or.inr (htree hr)) h0
  cases p with
  | superblock => exact (hsuper hp hq).symm
  | schema =>
    cases q with
    | superblock => exact hsuper hq hp
    | schema => rfl
    | rows => exact absurd rfl (dsr i hp i hq)
    | directory => exact absurd rfl (dsd i (Or.inl hp) i hq)
    | index k => exact absurd rfl (dst i (Or.inl (Or.inl hp)) i (htree hq))
  | rows =>
    cases q with
    | superblock => exact hsuper hq hp
    | schema => exact absurd rfl (dsr i hq i hp)
    | rows => rfl
    | directory => exact absurd rfl (dsd i (Or.inr hp) i hq)
    | index k => exact absurd rfl (dst i (Or.inl (Or.inr hp)) i (htree hq))
  | directory =>
    cases q with
    | superblock => exact hsuper hq hp
    | schema => exact absurd rfl (dsd i (Or.inl hq) i hp)
    | rows => exact absurd rfl (dsd i (Or.inr hq) i hp)
    | directory => rfl
    | index k => exact absurd rfl (dst i (Or.inr hp) i (htree hq))
  | index j =>
    cases q with
    | superblock => exact hsuper hq hp
    | schema => exact absurd rfl (dst i (Or.inl (Or.inl hq)) i (htree hp))
    | rows => exact absurd rfl (dst i (Or.inl (Or.inr hq)) i (htree hp))
    | directory => exact absurd rfl (dst i (Or.inr hq) i (htree hp))
    | index k => rw [getElem?_unique_of_nodup_flatMap hndt hp hq]

/-- Field names a table may have. -/
structure FieldsOk (fields : List Bytes) : Prop where
  pos : 0 < fields.length
  le : fields.length ≤ maxFields
  name_le : ∀ f ∈ fields, f.length ≤ maxValueLength
  name_ne : [] ∉ fields
  nodup : fields.Nodup

/-- **The index of one field on its pages.** -/
def IndexAt (pages : List Page) (rows : List (List Bytes)) (field : Nat) : Index → Prop
  | none => rows = []
  | some ⟨n, t⟩ => Full n t ∧ InnerAt pages n t ∧ LeafChain pages noPage (leaves n t) noPage ∧
      entries n t = sortedIndex rows field

/-- **The page vector holds the layout.** -/
structure Layout.On (L : Layout) (pages : List Page) : Prop where
  pages_ok : PagesOk pages
  length_lt : pages.length < 2 ^ 32
  generation_lt : L.generation < 2 ^ 64
  fields_ok : FieldsOk L.fields
  rows_ok : ∀ r ∈ L.rows, RowOk L.fields.length r
  rows_le : L.rows.length ≤ rowsMaxSize
  super_at : pages[0]? = some ⟨.superblock, 0, noPage, superPayload (L.super pages.length)⟩
  schema_at : ChainAt pages .schema L.schema
  schema_bytes : chainBytes L.schema = schemaBytes L.fields
  rows_at : ChainAt pages .rows L.rowChain
  rows_bytes : chainBytes L.rowChain = rowStream L.rows
  directory_at : ChainAt pages .indexDirectory L.directory
  directory_bytes : chainBytes L.directory = directoryBytes L.roots
  trees_length : L.trees.length = L.fields.length
  trees_at : ∀ field index, L.trees[field]? = some index → IndexAt pages L.rows field index
  /-- Every page belongs to exactly one part. -/
  partition : L.ids.Perm (List.range pages.length)

/-- What an insert relies on beyond the validator: the row count lies in the first row page and all roots in the first
page of the directory.  Every image the code writes is like that. -/
structure Layout.Insertable (L : Layout) : Prop where
  row_head : ∃ id payload rest, L.rowChain = (id, payload) :: rest ∧ 8 ≤ payload.length
  directory_head : ∃ id rest, L.directory = (id, directoryBytes L.roots) :: rest

/-- What `parse_image` returns for a layout. -/
def Layout.parsed (L : Layout) (pages : List Page) (walPresent : Bool) : ParsedImage :=
  ⟨⟨L.fields, L.rows, (List.range L.fields.length).map (sortedIndex L.rows),
    ⟨L.generation, pages.length, L.rows.length, L.fields.length, L.roots, walPresent⟩⟩, pages⟩

end Storage
end Sql
