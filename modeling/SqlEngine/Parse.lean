import SqlEngine.Validate
/-!
# Parse — accepted images are exactly the images of layouts

`parsePages_iff`: the checks of `parse_image`, done one page at a time on untrusted links, accept a page vector if and
only if it holds a layout, and return what the layout says.
-/
namespace Sql
namespace Storage

open Wire BTree

/-! ## Sibling links -/

/-- The sibling check of one leaf: what it reads from the page. -/
theorem checkLeaves_cons {pages : List Page} {expected previous next : Nat} {l : Leaf Entry} {ls : List Nat}
    (hp : pages[l.id]? = some ⟨.indexLeaf, l.id, next, leafPayload previous l.entries⟩)
    (hok : LeafOk previous l.entries) : checkLeaves pages expected (l.id :: ls) = .ok () ↔
      (previous = expected ∧ next = ls.headD noPage) ∧ checkLeaves pages l.id ls = .ok () := by
  have h1 : u16 "index leaf" (leafPayload previous l.entries) =
      .ok (l.entries.length, le 4 previous ++ (le 2 0 ++ l.entries.flatMap putEntry)) := by
    simp only [leafPayload, List.append_assoc]
    exact (reads_u16 _).intro _ _ hok.length_lt
  have h2 : u32 "index leaf" (le 4 previous ++ (le 2 0 ++ l.entries.flatMap putEntry)) =
      .ok (previous, le 2 0 ++ l.entries.flatMap putEntry) := (reads_u32 _).intro _ _ hok.previous_lt
  rw [checkLeaves]
  simp only [hp, h1, h2, bind, Except.bind]
  by_cases hc : previous ≠ expected ∨ next ≠ ls.headD noPage
  · simp only [throwIf, if_pos hc]
    constructor
    · intro h; cases h
    · rintro ⟨h, -⟩; exact absurd h (by tauto)
  · simp only [throwIf, if_neg hc]
    exact ⟨fun h => ⟨by tauto, h⟩, fun h => h.2⟩

theorem LeafPage.lt {pages : List Page} {l : Leaf Entry} (h : LeafPage pages l) : l.id < pages.length := by
  obtain ⟨_, _, hp, _⟩ := h
  exact lt_of_getElem?_some hp

/-- **The sibling check accepts linked leaves only**, and all of them. -/
theorem checkLeaves_iff {pages : List Page} (hlen : pages.length < 2 ^ 32) :
    ∀ (ls : List (Leaf Entry)) (expected : Nat), expected < 2 ^ 32 → (∀ l ∈ ls, LeafPage pages l) →
      (checkLeaves pages expected (ls.map Leaf.id) = .ok () ↔ LeafChain pages expected ls noPage)
  | [], _, _, _ => by simp [checkLeaves, LeafChain]
  | l :: ls, expected, hexp, hls => by
    obtain ⟨previous, next, hp, hok⟩ := hls l List.mem_cons_self
    have hl := (hls l List.mem_cons_self).lt
    have ih := checkLeaves_iff hlen ls l.id (Nat.lt_trans hl hlen) (fun k hk => hls k (List.mem_cons_of_mem l hk))
    rw [List.map_cons, checkLeaves_cons hp hok, ih, LeafChain, hp]
    refine and_congr_left (fun _ => ⟨?_, fun h => ?_⟩)
    · rintro ⟨rfl, rfl⟩; rfl
    · simp only [Option.some.injEq, Page.mk.injEq, true_and] at h
      exact ⟨(leafPayload_inj hok ⟨hok.length_lt, hexp, hok.entries_ok⟩ h.2).1, h.1⟩

/-- Entries take at least 10 bytes each. -/
theorem length_flatMap_putEntry (es : List Entry) : 10 * es.length ≤ (es.flatMap putEntry).length :=
  le_length_flatMap (fun e _ => by rw [length_putEntry]; omega)

theorem LeafChain.leafPage {pages : List Page} (hpages : PagesOk pages) (hlen : pages.length < 2 ^ 32) {next : Nat} :
    ∀ {ls : List (Leaf Entry)} {previous : Nat}, LeafChain pages previous ls next → previous < 2 ^ 32 →
      (∀ l ∈ ls, ∀ e ∈ l.entries, EntryOk e) → ∀ l ∈ ls, LeafPage pages l
  | [], _, _, _, _, _, hl => by cases hl
  | k :: ls, previous, h, hprev, he, l, hl => by
    rcases List.mem_cons.1 hl with rfl | hl
    · have h1 := (hpages _ _ h.1).2.payload_le
      have h2 := length_flatMap_putEntry l.entries
      rw [length_leafPayload] at h1
      have : pagePayloadSize = 4064 := rfl
      exact ⟨_, _, h.1, by omega, hprev, he l List.mem_cons_self⟩
    · have hk := lt_of_getElem?_some h.1
      exact LeafChain.leafPage hpages hlen h.2 (Nat.lt_trans hk hlen)
        (fun l' hl' => he l' (List.mem_cons_of_mem k hl')) l hl

/-! ## Entries and rows -/

theorem checkEntries_ok {rows : List (List Bytes)} {field : Nat} : ∀ {es : List Entry} {seen : Finset Nat},
    checkEntries rows field es seen = .ok () → (es.map Entry.record).Nodup ∧
      ∀ e ∈ es, e.record ∉ seen ∧ e.record < rows.length ∧ e.key = valueAt rows e.record field
  | [], _, _ => by simp
  | e :: es, seen, h => by
    rw [checkEntries] at h
    obtain ⟨_, h1, h⟩ := except_bind_ok.1 h
    obtain ⟨_, h2, h⟩ := except_bind_ok.1 h
    obtain ⟨_, h3, h⟩ := except_bind_ok.1 h
    obtain ⟨hnd, hes⟩ := checkEntries_ok h
    simp only [throwIf_ok, not_le, ge_iff_le, ne_eq, not_not] at h1 h2 h3
    refine ⟨?_, fun e' he' => ?_⟩
    · rw [List.map_cons, List.nodup_cons]
      refine ⟨fun hm => ?_, hnd⟩
      obtain ⟨e', he', heq⟩ := List.mem_map.1 hm
      exact (hes e' he').1 (heq ▸ Finset.mem_insert_self _ _)
    · rcases List.mem_cons.1 he' with rfl | he'
      · exact ⟨h2, h1, by simp [valueAt, h3]⟩
      · obtain ⟨hs, hr⟩ := hes e' he'
        exact ⟨fun h => hs (Finset.mem_insert_of_mem h), hr⟩

theorem checkEntries_of_mem {rows : List (List Bytes)} {field n : Nat} (hrows : ∀ r ∈ rows, RowOk n r) (hf : field < n) :
    ∀ (es : List Entry) (seen : Finset Nat), (es.map Entry.record).Nodup →
      (∀ e ∈ es, e.record ∉ seen ∧ e.record < rows.length ∧ e.key = valueAt rows e.record field) →
      checkEntries rows field es seen = .ok ()
  | [], _, _, _ => rfl
  | e :: es, seen, hnd, hes => by
    rw [List.map_cons, List.nodup_cons] at hnd
    obtain ⟨hs, hr, hk⟩ := hes e List.mem_cons_self
    have ih := checkEntries_of_mem hrows hf es (insert e.record seen) hnd.2 (fun e' he' => by
      obtain ⟨hs', hr'⟩ := hes e' (List.mem_cons_of_mem e he')
      refine ⟨fun h => ?_, hr'⟩
      rcases Finset.mem_insert.1 h with h | h
      · exact hnd.1 (h ▸ List.mem_map_of_mem he')
      · exact hs' h)
    have hv := valueAt_of_rowOk hrows hr hf
    rw [← hk] at hv
    rw [checkEntries]
    simp only [throwIf_neg (Nat.not_le.2 hr), throwIf_neg hs, throwIf_neg (not_not.2 hv), bind, Except.bind, ih]

/-- Entries with each record once and the values of the rows are the column, reordered. -/
theorem perm_column {rows : List (List Bytes)} {field : Nat} {es : List Entry} (hl : es.length = rows.length)
    (hnd : (es.map Entry.record).Nodup) (hes : ∀ e ∈ es, e.record < rows.length ∧ e.key = valueAt rows e.record field) :
    es.Perm (column rows field) := by
  have hsub : (es.map Entry.record).Subperm (List.range rows.length) :=
    List.subperm_of_subset hnd (fun r hr => by
      obtain ⟨e, he, rfl⟩ := List.mem_map.1 hr
      exact List.mem_range.2 (hes e he).1)
  have hperm := hsub.perm_of_length_le (by simp [hl])
  have heq : es = (es.map Entry.record).map (fun r => ⟨valueAt rows r field, r⟩) := by
    rw [List.map_map]
    conv => lhs; rw [← List.map_id es]
    refine List.map_congr_left (fun e he => ?_)
    obtain ⟨-, hk⟩ := hes e he
    cases e
    simp only [id, Function.comp] at hk ⊢
    rw [hk]
  rw [heq]
  exact hperm.map _

theorem sortedIndex_records_nodup (rows : List (List Bytes)) (field : Nat) :
    ((sortedIndex rows field).map Entry.record).Nodup := by
  rw [((sortedIndex_perm rows field).map _).nodup_iff, column, List.map_map]
  simpa [Function.comp_def] using List.nodup_range

theorem sortedIndex_entryOk {rows : List (List Bytes)} {n : Nat} (hrows : ∀ r ∈ rows, RowOk n r)
    (hle : rows.length ≤ rowsMaxSize) (field : Nat) : ∀ e ∈ sortedIndex rows field, EntryOk e := fun e he => by
  obtain ⟨hr, hk⟩ := mem_sortedIndex.1 he
  have : rowsMaxSize < 2 ^ 64 := by decide
  exact ⟨hk ▸ valueAt_length_le hrows _ _, by omega⟩

/-! ## One index -/

theorem IndexAt.treeOn {pages : List Page} (hpages : PagesOk pages) (hlen : pages.length < 2 ^ 32)
    {rows : List (List Bytes)} {m : Nat} (hrows : ∀ r ∈ rows, RowOk m r) (hle : rows.length ≤ rowsMaxSize) {field n : Nat}
    {t : Tree Entry n} (h : IndexAt pages rows field (some ⟨n, t⟩)) : TreeOn pages n t where
  full := h.1
  inner := h.2.1
  leaf := h.2.2.1.leafPage hpages hlen (by decide) (fun l hl e he => by
    refine sortedIndex_entryOk hrows hle field e ?_
    rw [← h.2.2.2]
    exact List.mem_flatMap.2 ⟨l, hl, he⟩)

theorem checkIndex_ok {pages : List Page} (hpages : PagesOk pages) (hlen : pages.length < 2 ^ 32)
    {rows : List (List Bytes)} {field root : Nat} {owned owned' : Finset Nat} {index : List Entry}
    (h : checkIndex pages rows field root owned = .ok (index, owned')) :
    ∃ t : Index, t.root = root ∧ index = sortedIndex rows field ∧ IndexAt pages rows field t ∧ t.ids.Nodup ∧
      (∀ i ∈ t.ids, i ∉ owned ∧ i < pages.length) ∧ owned' = owned ∪ t.ids.toFinset := by
  unfold checkIndex at h
  split at h
  · rename_i hroot
    obtain ⟨_, h1, h⟩ := except_bind_ok.1 h
    obtain ⟨rfl, rfl⟩ : [] = index ∧ owned = owned' := by simpa [pure, Except.pure] using h
    obtain rfl : rows = [] := by simpa using throwIf_ok.1 h1
    exact ⟨none, hroot.symm, rfl, rfl, List.nodup_nil, by simp [Index.ids], by simp [Index.ids]⟩
  · obtain ⟨⟨node, ow⟩, h1, h⟩ := except_bind_ok.1 h
    obtain ⟨_, h2, h⟩ := except_bind_ok.1 h
    obtain ⟨_, h3, h⟩ := except_bind_ok.1 h
    obtain ⟨_, h4, h⟩ := except_bind_ok.1 h
    obtain ⟨rfl, rfl⟩ : node.entries = index ∧ ow = owned' := by simpa [pure, Except.pure] using h
    obtain ⟨n, t, ht⟩ := validateIndexNode_ok hpages _ _ _ h1
    obtain ⟨hnd, hes⟩ := checkEntries_ok h4
    have hidx : node.entries = sortedIndex rows field :=
      eq_sortedIndex (perm_column (by simpa using throwIf_ok.1 h2) hnd (fun e he => (hes e he).2))
        (ht.entries_eq ▸ ht.sorted)
    have hchain : LeafChain pages noPage (leaves n t) noPage := by
      rw [ht.leaves_eq] at h3
      exact (checkLeaves_iff hlen _ _ (by decide) ht.tree.leaf).1 h3
    exact ⟨some ⟨n, t⟩, ht.root_eq, hidx, ⟨ht.tree.full, ht.tree.inner, hchain, by rw [← ht.entries_eq, hidx]⟩,
      ht.nodup, fun i hi => ⟨ht.fresh i hi, ht.tree.ids_lt i hi⟩, ht.owned_eq⟩

theorem checkIndex_indexAt {pages : List Page} (hpages : PagesOk pages) (hlen : pages.length < 2 ^ 32)
    {rows : List (List Bytes)} {n field : Nat} (hrows : ∀ r ∈ rows, RowOk n r) (hle : rows.length ≤ rowsMaxSize)
    (hf : field < n) (owned : Finset Nat) {t : Index} (h : IndexAt pages rows field t) (hnd : t.ids.Nodup)
    (hfresh : ∀ i ∈ t.ids, i ∉ owned) :
    checkIndex pages rows field t.root owned = .ok (sortedIndex rows field, owned ∪ t.ids.toFinset) := by
  unfold checkIndex
  match t, h with
  | none, h =>
    obtain rfl : rows = [] := h
    rw [if_pos (show Index.root none = noPage from rfl)]
    simp [throwIf, bind, Except.bind, pure, Except.pure, Index.ids, sortedIndex, column]
  | some ⟨d, t⟩, h =>
    have hon := h.treeOn hpages hlen hrows hle
    have hne : BTree.root d t ≠ noPage := by
      have := hon.root_lt
      unfold noPage
      omega
    obtain ⟨-, -, hchain, hent⟩ := h
    have hv := validateIndexNode_tree hpages hlen d t owned ∅ hon (hent ▸ sortedIndex_sorted rows field) hnd
      (fun i hi => ⟨hfresh i hi, by simp⟩)
    have hleaves := (checkLeaves_iff hlen (leaves d t) noPage (by decide) hon.leaf).2 hchain
    have hentries := checkEntries_of_mem hrows hf _ ∅ (sortedIndex_records_nodup rows field)
      (fun e he => ⟨by simp, mem_sortedIndex.1 he⟩)
    rw [show Index.root (some ⟨d, t⟩) = BTree.root d t from rfl, if_neg hne]
    simp only [hv, bind, Except.bind, hent, hleaves, hentries]
    rw [throwIf_neg (not_not.2 (length_sortedIndex rows field))]
    rfl

/-! ## All indexes -/

theorem checkIndexes_ok {pages : List Page} (hpages : PagesOk pages) (hlen : pages.length < 2 ^ 32)
    {rows : List (List Bytes)} : ∀ {field : Nat} {roots : List Nat} {owned owned' : Finset Nat}
    {indexes : List (List Entry)}, checkIndexes pages rows field roots owned = .ok (indexes, owned') →
    ∃ trees : List Index, trees.map Index.root = roots ∧
      indexes = (List.range' field roots.length).map (sortedIndex rows) ∧
      (∀ i index, trees[i]? = some index → IndexAt pages rows (field + i) index) ∧
      (trees.flatMap Index.ids).Nodup ∧ (∀ i ∈ trees.flatMap Index.ids, i ∉ owned ∧ i < pages.length) ∧
      owned' = owned ∪ (trees.flatMap Index.ids).toFinset
  | field, [], owned, owned', indexes, h => by
    obtain ⟨rfl, rfl⟩ : [] = indexes ∧ owned = owned' := by simpa [checkIndexes] using h
    exact ⟨[], rfl, rfl, by simp, List.nodup_nil, by simp, by simp⟩
  | field, root :: roots, owned, owned', indexes, h => by
    rw [checkIndexes] at h
    obtain ⟨⟨index, ow⟩, h1, h⟩ := except_bind_ok.1 h
    obtain ⟨⟨rest, ow'⟩, h2, h⟩ := except_bind_ok.1 h
    obtain ⟨rfl, rfl⟩ : index :: rest = indexes ∧ ow' = owned' := by simpa [pure, Except.pure] using h
    obtain ⟨t, hroot, rfl, hat, hnd, hnew, rfl⟩ := checkIndex_ok hpages hlen h1
    obtain ⟨ts, hroots, rfl, hats, hnds, hnews, rfl⟩ := checkIndexes_ok hpages hlen h2
    refine ⟨t :: ts, by simp [hroot, hroots], by simp [List.range'_succ], fun i ix hi => ?_, ?_, ?_, ?_⟩
    · match i with
      | 0 =>
        obtain rfl : t = ix := by simpa using hi
        exact hat
      | i + 1 =>
        have := hats i ix (by simpa using hi)
        rwa [Nat.add_assoc, Nat.add_comm 1] at this
    · rw [List.flatMap_cons, List.nodup_append]
      refine ⟨hnd, hnds, fun a ha b hb hab => (hnews b hb).1 ?_⟩
      exact Finset.mem_union_right _ (by simpa [← hab] using ha)
    · intro i hi
      rcases List.mem_append.1 (List.flatMap_cons ▸ hi) with hi | hi
      · exact hnew i hi
      · exact ⟨fun h => (hnews i hi).1 (Finset.mem_union_left _ h), (hnews i hi).2⟩
    · rw [List.flatMap_cons, List.toFinset_append, Finset.union_assoc]

theorem checkIndexes_indexAt {pages : List Page} (hpages : PagesOk pages) (hlen : pages.length < 2 ^ 32)
    {rows : List (List Bytes)} {n : Nat} (hrows : ∀ r ∈ rows, RowOk n r) (hle : rows.length ≤ rowsMaxSize) :
    ∀ (trees : List Index) (field : Nat) (owned : Finset Nat), field + trees.length ≤ n →
      (∀ i index, trees[i]? = some index → IndexAt pages rows (field + i) index) →
      (trees.flatMap Index.ids).Nodup → (∀ i ∈ trees.flatMap Index.ids, i ∉ owned) →
      checkIndexes pages rows field (trees.map Index.root) owned =
        .ok ((List.range' field trees.length).map (sortedIndex rows), owned ∪ (trees.flatMap Index.ids).toFinset)
  | [], field, owned, _, _, _, _ => by simp [checkIndexes]
  | t :: ts, field, owned, hn, hat, hnd, hfresh => by
    rw [List.length_cons] at hn
    rw [List.flatMap_cons] at hnd hfresh
    obtain ⟨hnd1, hnd2, hdisj⟩ := List.nodup_append.1 hnd
    have h1 := checkIndex_indexAt hpages hlen hrows hle (by omega) owned (hat 0 t rfl) hnd1
      (fun i hi => hfresh i (List.mem_append_left _ hi))
    have h2 := checkIndexes_indexAt hpages hlen hrows hle ts (field + 1) (owned ∪ t.ids.toFinset) (by omega)
      (fun i index hi => by
        have := hat (i + 1) index (by simpa using hi)
        rwa [Nat.add_comm i, ← Nat.add_assoc] at this)
      hnd2 (fun i hi h => by
        rcases Finset.mem_union.1 h with h | h
        · exact hfresh i (List.mem_append_right _ hi) h
        · exact hdisj i (by simpa using h) i hi rfl)
    rw [Nat.add_zero] at h1
    rw [List.map_cons, checkIndexes, h1]
    simp only [bind, Except.bind, h2, pure, Except.pure]
    simp [List.range'_succ, Finset.union_assoc]

/-! ## The whole image -/

theorem parseSuperblock_ok {pages : List Page} (hpages : PagesOk pages) {super : Superblock}
    (h : parseSuperblock pages = .ok super) :
    pages[0]? = some ⟨.superblock, 0, noPage, superPayload super⟩ ∧ super.Fits ∧ super.pageCount = pages.length ∧
      super.freeHead = noPage ∧ 0 < super.fieldCount ∧ super.fieldCount ≤ maxFields := by
  cases pages with
  | nil => cases h
  | cons page pages =>
    unfold parseSuperblock at h
    obtain ⟨_, h1, h⟩ := except_bind_ok.1 h
    obtain ⟨s, h2, h⟩ := except_bind_ok.1 h
    obtain ⟨_, h3, h⟩ := except_bind_ok.1 h
    obtain ⟨_, h4, h⟩ := except_bind_ok.1 h
    obtain ⟨_, h5, h⟩ := except_bind_ok.1 h
    obtain rfl : s = super := by simpa [pure, Except.pure] using h
    simp only [throwIf_ok, not_or, ne_eq, not_not] at h1 h3 h4 h5
    obtain ⟨hfits, hpay⟩ := readSuperblock_ok h2
    refine ⟨?_, hfits, h3, h4, Nat.pos_of_ne_zero h5.1, Nat.le_of_not_lt h5.2⟩
    exact congrArg some (page_eta h1.1 (hpages 0 page rfl).1 h1.2 hpay)

theorem parseSchema_ok {pages : List Page} (hpages : PagesOk pages) {super : Superblock} {owned owned' : Finset Nat}
    {fields : List Bytes} (h : parseSchema pages super owned = .ok (fields, owned')) :
    ∃ ch, chainHead ch = super.schemaHead ∧ ChainAt pages .schema ch ∧ chainBytes ch = schemaBytes fields ∧
      fields.length = super.fieldCount ∧ (∀ f ∈ fields, f.length ≤ maxValueLength) ∧ fields.Nodup ∧ [] ∉ fields ∧
      (ch.map Prod.fst).Nodup ∧ (∀ i ∈ ch.map Prod.fst, i ∉ owned ∧ i < pages.length) ∧
      owned' = owned ∪ (ch.map Prod.fst).toFinset := by
  unfold parseSchema at h
  obtain ⟨⟨bs, ow⟩, h1, h⟩ := except_bind_ok.1 h
  obtain ⟨fs, h2, h⟩ := except_bind_ok.1 h
  obtain ⟨_, h3, h⟩ := except_bind_ok.1 h
  obtain ⟨rfl, rfl⟩ : fs = fields ∧ ow = owned' := by simpa [pure, Except.pure] using h
  obtain ⟨ch, hhead, hat, rfl, hnd, hnew, rfl⟩ := readChain_ok hpages _ _ _ h1
  obtain ⟨hl, hle, hbs⟩ := readSchema_ok h2
  have h3' := throwIf_ok.1 h3
  simp only [not_or, not_not] at h3'
  exact ⟨ch, hhead, hat, hbs, hl, hle, h3'.1, h3'.2, hnd, fun i hi => ⟨(hnew i hi).1, (hnew i hi).2.2⟩, rfl⟩

theorem parseRows_ok {pages : List Page} (hpages : PagesOk pages) {super : Superblock} (hn : super.fieldCount < 2 ^ 32)
    {owned owned' : Finset Nat} {rows : List (List Bytes)} (h : parseRows pages super owned = .ok (rows, owned')) :
    ∃ ch, chainHead ch = super.rowsHead ∧ ChainAt pages .rows ch ∧ chainBytes ch = rowStream rows ∧
      rows.length = super.rowCount ∧ rows.length ≤ rowsMaxSize ∧ (∀ r ∈ rows, RowOk super.fieldCount r) ∧
      (ch.map Prod.fst).Nodup ∧ (∀ i ∈ ch.map Prod.fst, i ∉ owned ∧ i < pages.length) ∧
      owned' = owned ∪ (ch.map Prod.fst).toFinset := by
  unfold parseRows at h
  obtain ⟨⟨bs, ow⟩, h1, h⟩ := except_bind_ok.1 h
  obtain ⟨⟨count, rest⟩, h2, h⟩ := except_bind_ok.1 h
  obtain ⟨_, h3, h⟩ := except_bind_ok.1 h
  obtain ⟨_, h4, h⟩ := except_bind_ok.1 h
  obtain ⟨rs, h5, h⟩ := except_bind_ok.1 h
  obtain ⟨rfl, rfl⟩ : rs = rows ∧ ow = owned' := by simpa [pure, Except.pure] using h
  obtain ⟨ch, hhead, hat, rfl, hnd, hnew, rfl⟩ := readChain_ok hpages _ _ _ (liftCorruption_ok.1 h1)
  obtain ⟨-, hbs⟩ := (reads_u64 _).elim (liftCorruption_ok.1 h2)
  obtain ⟨hl, hok, rfl⟩ := readRows_ok hn (liftCorruption_ok.1 h5)
  have h3' := throwIf_ok.1 h3
  have h4' := throwIf_ok.1 h4
  simp only [not_not, not_lt, ne_eq, gt_iff_lt] at h3' h4'
  refine ⟨ch, hhead, hat, ?_, hl, hl ▸ h4', hok, hnd, fun i hi => ⟨(hnew i hi).1, (hnew i hi).2.2⟩, rfl⟩
  rw [hbs, h3', ← hl, rowStream]

theorem parseDirectory_ok {pages : List Page} (hpages : PagesOk pages) {super : Superblock} {owned owned' : Finset Nat}
    {roots : List Nat} (h : parseDirectory pages super owned = .ok (roots, owned')) :
    ∃ ch, chainHead ch = super.indexDirectoryHead ∧ ChainAt pages .indexDirectory ch ∧
      chainBytes ch = directoryBytes roots ∧ roots.length = super.fieldCount ∧ (ch.map Prod.fst).Nodup ∧
      (∀ i ∈ ch.map Prod.fst, i ∉ owned ∧ i < pages.length) ∧ owned' = owned ∪ (ch.map Prod.fst).toFinset := by
  unfold parseDirectory at h
  obtain ⟨⟨bs, ow⟩, h1, h⟩ := except_bind_ok.1 h
  obtain ⟨rs, h2, h⟩ := except_bind_ok.1 h
  obtain ⟨rfl, rfl⟩ : rs = roots ∧ ow = owned' := by simpa [pure, Except.pure] using h
  obtain ⟨ch, hhead, hat, rfl, hnd, hnew, rfl⟩ := readChain_ok hpages _ _ _ h1
  obtain ⟨hl, -, hbs⟩ := readDirectory_ok h2
  exact ⟨ch, hhead, hat, hbs, hl, hnd, fun i hi => ⟨(hnew i hi).1, (hnew i hi).2.2⟩, rfl⟩

/-- Parts found one after another, each on pages the earlier ones do not own, share no page. -/
theorem nodup_append_of_owned {xs ys : List Nat} (owned : Finset Nat) (hx : xs.Nodup) (hy : ys.Nodup)
    (h : ∀ i ∈ ys, i ∉ owned ∪ xs.toFinset) : (xs ++ ys).Nodup := by
  rw [List.nodup_append]
  exact ⟨hx, hy, fun a ha b hb hab => h b hb (Finset.mem_union_right _ (by simpa [← hab] using ha))⟩

/-- **What `parse_image` accepts is a layout**, and the layout is what it returns. -/
theorem parsePages_ok {pages : List Page} (hpages : PagesOk pages) (hlen : pages.length < 2 ^ 32) {walPresent : Bool}
    {P : ParsedImage} (h : parsePages pages walPresent = .ok P) : ∃ L : Layout, L.On pages ∧
      P = L.parsed pages walPresent := by
  unfold parsePages at h
  obtain ⟨super, h1, h⟩ := except_bind_ok.1 h
  obtain ⟨⟨fields, ow1⟩, h2, h⟩ := except_bind_ok.1 h
  obtain ⟨⟨rows, ow2⟩, h3, h⟩ := except_bind_ok.1 h
  obtain ⟨⟨roots, ow3⟩, h4, h⟩ := except_bind_ok.1 h
  obtain ⟨⟨indexes, ow4⟩, h5, h⟩ := except_bind_ok.1 h
  obtain ⟨_, h6, h7⟩ := except_bind_ok.1 h
  obtain ⟨hsuper, hfits, hcount, hfree, hpos, hmax⟩ := parseSuperblock_ok hpages (liftCorruption_ok.1 h1)
  obtain ⟨sch, hs1, hs2, hs3, hs4, hs5, hs6, hs7, hs8, hs9, rfl⟩ := parseSchema_ok hpages (liftCorruption_ok.1 h2)
  obtain ⟨rch, hr1, hr2, hr3, hr4, hr5, hr6, hr7, hr8, rfl⟩ := parseRows_ok hpages hfits.fieldCount_lt h3
  obtain ⟨dch, hd1, hd2, hd3, hd4, hd5, hd6, rfl⟩ := parseDirectory_ok hpages (liftCorruption_ok.1 h4)
  obtain ⟨trees, ht1, rfl, ht2, ht3, ht4, rfl⟩ := checkIndexes_ok hpages hlen (liftCorruption_ok.1 h5)
  have hcard := throwIf_ok.1 h6
  rw [not_not] at hcard
  have hlt : trees.length = fields.length := by
    rw [← List.length_map (f := Index.root), ht1, hd4, hs4]
  have hsup : super = ⟨super.generation, pages.length, chainHead sch, chainHead rch, chainHead dch, noPage,
      fields.length, rows.length⟩ := by
    rw [hs1, hr1, hd1, hs4, hr4, ← hcount, ← hfree]
  let L : Layout := ⟨super.generation, fields, rows, sch, rch, dch, trees⟩
  have hnd : L.ids.Nodup := by
    have e1 := nodup_append_of_owned {0} hs8 hr7 (fun i hi => (hr8 i hi).1)
    have e2 := nodup_append_of_owned {0} e1 hd5 (fun i hi => by
      rw [List.toFinset_append, ← Finset.union_assoc]; exact (hd6 i hi).1)
    have e3 := nodup_append_of_owned {0} e2 ht3 (fun i hi => by
      rw [List.toFinset_append, List.toFinset_append, ← Finset.union_assoc, ← Finset.union_assoc]; exact (ht4 i hi).1)
    refine List.nodup_cons.2 ⟨fun hm => ?_, e3⟩
    simp only [List.mem_append] at hm
    rcases hm with ((hm | hm) | hm) | hm
    · exact (hs9 0 hm).1 (by simp)
    · exact (hr8 0 hm).1 (by simp)
    · exact (hd6 0 hm).1 (by simp)
    · exact (ht4 0 hm).1 (by simp)
  have hlts : ∀ i ∈ L.ids, i < pages.length := fun i hi => by
    rcases List.mem_cons.1 hi with rfl | hi
    · exact lt_of_getElem?_some hsuper
    · simp only [List.mem_append] at hi
      rcases hi with ((hi | hi) | hi) | hi
      · exact (hs9 i hi).2
      · exact (hr8 i hi).2
      · exact (hd6 i hi).2
      · exact (ht4 i hi).2
  have hidslen : L.ids.length = pages.length := by
    rw [← List.toFinset_card_of_nodup hnd, ← hcard, Layout.toFinset_ids]
  refine ⟨L, ?_, ?_⟩
  · exact {
      pages_ok := hpages
      length_lt := hlen
      generation_lt := hfits.generation_lt
      fields_ok := ⟨hs4 ▸ hpos, hs4 ▸ hmax, hs5, hs7, hs6⟩
      rows_ok := hs4 ▸ hr6
      rows_le := hr5
      super_at := by rw [hsuper, hsup]; rfl
      schema_at := hs2
      schema_bytes := hs3
      rows_at := hr2
      rows_bytes := hr3
      directory_at := hd2
      directory_bytes := by rw [Layout.roots, hd3, ht1]
      trees_length := hlt
      trees_at := fun field index hi => by simpa using ht2 field index hi
      partition := (List.subperm_of_subset hnd (fun i hi => List.mem_range.2 (hlts i hi))).perm_of_length_le (by
        simp [hidslen]) }
  · rw [← Except.ok.inj h7, Layout.parsed, Layout.roots, ht1, List.range_eq_range', hd4, ← hs4, ← hr4, ← hcount]

theorem mem_ids_lt {L : Layout} {pages : List Page} (h : L.On pages) : ∀ i ∈ L.ids, i < pages.length := fun _ hi =>
  List.mem_range.1 (h.partition.mem_iff.1 hi)

theorem Layout.On.super_fits {L : Layout} {pages : List Page} (h : L.On pages) : (L.super pages.length).Fits := by
  have hlen := h.length_lt
  have hf := h.fields_ok.le
  have hm : maxFields = 64 := rfl
  have hr : rowsMaxSize < 2 ^ 64 := by decide
  have hhead : ∀ ch : List (Nat × Bytes), (∀ i ∈ ch.map Prod.fst, i ∈ L.ids) → chainHead ch < 2 ^ 32 := fun ch hch => by
    cases ch with
    | nil => simp [chainHead, noPage]
    | cons c ch => exact Nat.lt_trans (mem_ids_lt h c.1 (hch c.1 (by simp))) hlen
  refine ⟨h.generation_lt, hlen, hhead _ ?_, hhead _ ?_, hhead _ ?_, by simp [Layout.super, noPage], ?_, ?_⟩
  · intro i hi; simp [Layout.ids, hi]
  · intro i hi; simp [Layout.ids, hi]
  · intro i hi; simp [Layout.ids, hi]
  · simp only [Layout.super]; omega
  · have := h.rows_le
    simp only [Layout.super]; omega

theorem Layout.On.roots_lt {L : Layout} {pages : List Page} (h : L.On pages) : ∀ r ∈ L.roots, r < 2 ^ 32 := fun r hr => by
  obtain ⟨t, ht, rfl⟩ := List.mem_map.1 hr
  match t, ht with
  | none, _ => decide
  | some ⟨n, t⟩, ht =>
    refine Nat.lt_trans (mem_ids_lt h (BTree.root n t) ?_) h.length_lt
    simp only [Layout.ids, List.mem_cons, List.mem_append]
    exact Or.inr (Or.inr (List.mem_flatMap.2 ⟨_, ht, root_mem_ids n t⟩))

/-- **A layout is accepted.** -/
theorem parsePages_layout {pages : List Page} {L : Layout} (h : L.On pages) (walPresent : Bool) :
    parsePages pages walPresent = .ok (L.parsed pages walPresent) := by
  have hlen := h.length_lt
  have hfits := h.super_fits
  have hnd : L.ids.Nodup := h.partition.nodup_iff.2 List.nodup_range
  have hnd' := hnd
  rw [Layout.ids, List.nodup_cons, List.nodup_append, List.nodup_append, List.nodup_append] at hnd'
  obtain ⟨h0, ⟨⟨hnds, hndr, dsr⟩, hndd, dsd⟩, hndt, dst⟩ := hnd'
  have hsuper : parseSuperblock pages = .ok (L.super pages.length) := by
    have hp := h.super_at
    cases pages with
    | nil => cases hp
    | cons page pages =>
      obtain rfl : page = ⟨.superblock, 0, noPage, superPayload (L.super (pages.length + 1))⟩ := by simpa using hp
      have hf := h.fields_ok
      have hc : ¬ ((L.super (pages.length + 1)).fieldCount = 0 ∨ (L.super (pages.length + 1)).fieldCount > maxFields) := by
        have := hf.pos
        have := hf.le
        simp only [Layout.super]; omega
      simp only [parseSuperblock, List.length_cons] at hfits ⊢
      rw [throwIf_neg (by simp)]
      simp only [bind, Except.bind, readSuperblock_superPayload hfits, throwIf_neg hc]
      simp [throwIf, Layout.super, pure, Except.pure]
  have hschema : parseSchema pages (L.super pages.length) {0} = .ok (L.fields, {0} ∪ (L.schema.map Prod.fst).toFinset) := by
    have hf := h.fields_ok
    have hread := readChain_chainAt hlen L.schema ∅ {0} h.schema_at hnds (fun i hi => ⟨fun hm => h0 (by
      rw [Finset.mem_singleton] at hm; subst hm; simp [hi]), by simp⟩)
    have hn : L.fields.length < 2 ^ 32 := Nat.lt_of_le_of_lt hf.le (by decide)
    unfold parseSchema
    simp only [Layout.super, hread, h.schema_bytes, readSchema_schemaBytes hn hf.name_le, bind, Except.bind]
    rw [throwIf_neg (by simp [hf.nodup, hf.name_ne])]
    rfl
  have hrows : parseRows pages (L.super pages.length) ({0} ∪ (L.schema.map Prod.fst).toFinset) =
      .ok (L.rows, {0} ∪ (L.schema.map Prod.fst).toFinset ∪ (L.rowChain.map Prod.fst).toFinset) := by
    have hread := readChain_chainAt hlen L.rowChain ∅ ({0} ∪ (L.schema.map Prod.fst).toFinset) h.rows_at hndr (fun i hi => by
      refine ⟨fun hm => ?_, by simp⟩
      simp only [Finset.mem_union, Finset.mem_singleton, List.mem_toFinset] at hm
      rcases hm with rfl | hm
      · exact h0 (by simp [hi])
      · exact dsr i hm i hi rfl)
    have hn : L.fields.length < 2 ^ 32 := Nat.lt_of_le_of_lt h.fields_ok.le (by decide)
    have hcount := (reads_u64 "row stream").intro L.rows.length (L.rows.flatMap rowBytes)
      (Nat.lt_of_le_of_lt h.rows_le (by decide))
    unfold parseRows
    simp only [Layout.super, hread, h.rows_bytes, rowStream, liftCorruption, hcount, bind, Except.bind]
    simp only [throwIf, ne_eq, not_true_eq_false, ite_false, gt_iff_lt, Nat.not_lt.2 h.rows_le,
      readRows_flatMap hn h.rows_ok]
    rfl
  have hdir : parseDirectory pages (L.super pages.length)
      ({0} ∪ (L.schema.map Prod.fst).toFinset ∪ (L.rowChain.map Prod.fst).toFinset) =
      .ok (L.roots, {0} ∪ (L.schema.map Prod.fst).toFinset ∪ (L.rowChain.map Prod.fst).toFinset ∪
        (L.directory.map Prod.fst).toFinset) := by
    have hread := readChain_chainAt hlen L.directory ∅
      ({0} ∪ (L.schema.map Prod.fst).toFinset ∪ (L.rowChain.map Prod.fst).toFinset) h.directory_at hndd (fun i hi => by
        refine ⟨fun hm => ?_, by simp⟩
        simp only [Finset.mem_union, Finset.mem_singleton, List.mem_toFinset] at hm
        rcases hm with (rfl | hm) | hm
        · exact h0 (by simp [hi])
        · exact dsd i (by simp [hm]) i hi rfl
        · exact dsd i (by simp [hm]) i hi rfl)
    have hrl : L.roots.length = L.fields.length := by rw [Layout.roots, List.length_map, h.trees_length]
    have hn : L.roots.length < 2 ^ 32 := by
      have := h.fields_ok.le
      have : maxFields = 64 := rfl
      omega
    have hroots := h.roots_lt
    unfold parseDirectory
    simp only [Layout.super, hread, h.directory_bytes, bind, Except.bind]
    rw [← hrl, readDirectory_directoryBytes hn hroots]
    rfl
  have hidx : checkIndexes pages L.rows 0 L.roots _ = _ := checkIndexes_indexAt h.pages_ok hlen h.rows_ok h.rows_le L.trees 0
    ({0} ∪ (L.schema.map Prod.fst).toFinset ∪ (L.rowChain.map Prod.fst).toFinset ∪ (L.directory.map Prod.fst).toFinset)
    (by rw [h.trees_length]; omega) (fun i index hi => by simpa using h.trees_at i index hi) hndt (fun i hi hm => by
      simp only [Finset.mem_union, Finset.mem_singleton, List.mem_toFinset] at hm
      rcases hm with ((rfl | hm) | hm) | hm
      · exact h0 (List.mem_append_right _ hi)
      · exact dst i (by simp [hm]) i hi rfl
      · exact dst i (by simp [hm]) i hi rfl
      · exact dst i (by simp [hm]) i hi rfl)
  unfold parsePages
  simp only [hsuper, liftCorruption, hschema, bind, Except.bind, hrows, hdir, hidx]
  rw [throwIf_neg]
  · simp [pure, Except.pure, Layout.parsed, Layout.super, h.trees_length, List.range_eq_range', Layout.roots]
  · rw [not_not, ← List.length_range (n := pages.length), ← h.partition.length_eq, ← List.toFinset_card_of_nodup hnd,
      Layout.toFinset_ids]

/-- **Accepted page vectors are those that hold a layout.** -/
theorem parsePages_iff {pages : List Page} (hpages : PagesOk pages) (hlen : pages.length < 2 ^ 32) {walPresent : Bool}
    {P : ParsedImage} : parsePages pages walPresent = .ok P ↔ ∃ L : Layout, L.On pages ∧ P = L.parsed pages walPresent := by
  refine ⟨parsePages_ok hpages hlen, ?_⟩
  rintro ⟨L, hL, rfl⟩
  exact parsePages_layout hL walPresent

/-- What is not the image of fewer than 2³² pages is corrupt. -/
theorem parseImage_pages (image : Bytes) (walPresent : Bool) : (∃ c, parseImage image walPresent = .error (.corruption c)) ∨
    ∃ pages, image = imageOf pages ∧ PagesOk pages ∧ pages.length < 2 ^ 32 ∧
      parseImage image walPresent = parsePages pages walPresent := by
  unfold parseImage
  by_cases hsize : image = [] ∨ image.length % pageSize ≠ 0
  · rw [throwIf, if_pos hsize]
    exact Or.inl ⟨_, rfl⟩
  rw [throwIf_neg hsize, except_ok_bind]
  by_cases hcount : image.length / pageSize > 2 ^ 32 - 1
  · rw [throwIf, if_pos hcount]
    exact Or.inl ⟨_, rfl⟩
  rw [throwIf_neg hcount, except_ok_bind]
  cases hpages : decodePages image with
  | error c => exact Or.inl ⟨c, rfl⟩
  | ok pages =>
    obtain ⟨hok, himage⟩ := decodePages_ok (not_not.1 (not_or.1 hsize).2) hpages
    refine Or.inr ⟨pages, himage, hok, ?_, rfl⟩
    rw [himage, length_imageOf hok, Nat.mul_div_cancel _ (by decide)] at hcount
    omega

theorem parseImage_ok {image : Bytes} {walPresent : Bool} {P : ParsedImage} (h : parseImage image walPresent = .ok P) :
    image = imageOf P.pages ∧ ∃ L : Layout, L.On P.pages ∧ P = L.parsed P.pages walPresent := by
  rcases parseImage_pages image walPresent with ⟨c, hc⟩ | ⟨pages, himage, hpages, hlen, hparse⟩
  · cases h.symm.trans hc
  · obtain ⟨L, hL, rfl⟩ := parsePages_ok hpages hlen (hparse.symm.trans h)
    exact ⟨himage, L, hL, rfl⟩

/-- An image of good pages is parsed page by page. -/
theorem parseImage_pagesOk {pages : List Page} (hok : PagesOk pages) (hpos : 0 < pages.length) (hlen : pages.length < 2 ^ 32)
    (walPresent : Bool) : parseImage (imageOf pages) walPresent = parsePages pages walPresent := by
  have hl := length_imageOf hok
  have hp : 0 < pageSize := by decide
  have hne : imageOf pages ≠ [] := by
    rw [← List.length_pos_iff, hl]; exact Nat.mul_pos hpos hp
  unfold parseImage
  rw [throwIf_neg (by rw [hl]; simp [hne]), throwIf_neg (by rw [hl, Nat.mul_div_cancel _ hp]; omega)]
  simp only [bind, Except.bind, decodePages_imageOf hok, liftCorruption]

theorem parseImage_imageOf {pages : List Page} {L : Layout} (h : L.On pages) (walPresent : Bool) :
    parseImage (imageOf pages) walPresent = .ok (L.parsed pages walPresent) := by
  rw [parseImage_pagesOk h.pages_ok (lt_of_getElem?_some h.super_at) h.length_lt]
  exact parsePages_layout h walPresent

/-! ## Soundness on arbitrary bytes -/

theorem sortedIndex_records_perm (rows : List (List Bytes)) (field : Nat) :
    ((sortedIndex rows field).map Entry.record).Perm (List.range rows.length) := by
  refine ((sortedIndex_perm rows field).map _).trans ?_
  simp [column, Function.comp_def]

/-- **Every byte string `parse_image` accepts is a sound image**: each page in exactly one part, rows of the right
shape, and per field a B+ tree of one depth with exact separators and sibling links whose entries are the strictly
increasing list of values and record identifiers. -/
theorem parseImage_sound {image : Bytes} {walPresent : Bool} {P : ParsedImage}
    (h : parseImage image walPresent = .ok P) : image = imageOf P.pages ∧ ∃ L : Layout, L.On P.pages ∧
      P = L.parsed P.pages walPresent ∧ (∀ id < P.pages.length, ∃! part : Part, id ∈ L.part part) ∧
      (∀ row ∈ P.table.rows, row.length = P.table.fields.length ∧ ∀ v ∈ row, v.length ≤ maxValueLength) ∧
      ∀ field < P.table.fields.length, ∃ index list, L.trees[field]? = some index ∧
        P.table.indexes[field]? = some list ∧ IndexAt P.pages P.table.rows field index ∧
        (∀ n t, index = some ⟨n, t⟩ → Separated n t ∧ entries n t = list) ∧ list.Pairwise (· < ·) ∧
        (∀ e, e ∈ list ↔ e.record < P.table.rows.length ∧ e.key = valueAt P.table.rows e.record field) ∧
        (list.map Entry.record).Perm (List.range P.table.rows.length) := by
  obtain ⟨himage, L, hL, hP⟩ := parseImage_ok h
  have hfields : P.table.fields = L.fields := by rw [hP]; rfl
  have hrows : P.table.rows = L.rows := by rw [hP]; rfl
  refine ⟨himage, L, hL, hP, fun id hid => ?_, fun row hrow => ?_, fun field hf => ?_⟩
  · obtain ⟨p, hp⟩ := mem_ids_iff.1 (hL.partition.mem_iff.2 (List.mem_range.2 hid))
    exact ⟨p, hp, fun q hq => Layout.part_unique (hL.partition.nodup_iff.2 List.nodup_range) hq hp⟩
  · rw [hrows] at hrow
    rw [hfields]
    exact ⟨(hL.rows_ok row hrow).arity, (hL.rows_ok row hrow).value_le⟩
  · rw [hfields] at hf
    have hft : field < L.trees.length := by rw [hL.trees_length]; exact hf
    have hat := hL.trees_at field _ (List.getElem?_eq_getElem hft)
    have hlist : P.table.indexes[field]? = some (sortedIndex L.rows field) := by
      rw [hP]
      simp [Layout.parsed, hf]
    rw [hrows]
    refine ⟨L.trees[field], sortedIndex L.rows field, List.getElem?_eq_getElem hft, hlist, hat, fun n t ht => ?_,
      sortedIndex_strict _ _, fun e => mem_sortedIndex, sortedIndex_records_perm _ _⟩
    rw [ht] at hat
    obtain ⟨hfull, -, -, hent⟩ := hat
    exact ⟨separated_of_sorted n t hfull (hent ▸ sortedIndex_sorted _ _), hent⟩

/-- A table with two fields, and a value that is in both rows of the second. -/
def oneFields : List Bytes := [[97], [98]]

def oneRows : List (List Bytes) := [[[120], [120]], [[121], [120]]]

def onePages : List Page :=
  [⟨.superblock, 0, noPage, superPayload ⟨1, 6, 1, 2, 3, noPage, 2, 2⟩⟩, ⟨.schema, 1, noPage, schemaBytes oneFields⟩,
    ⟨.rows, 2, noPage, rowStream oneRows⟩, ⟨.indexDirectory, 3, noPage, directoryBytes [4, 5]⟩,
    ⟨.indexLeaf, 4, noPage, leafPayload noPage [⟨[120], 0⟩, ⟨[121], 1⟩]⟩,
    ⟨.indexLeaf, 5, noPage, leafPayload noPage [⟨[120], 0⟩, ⟨[120], 1⟩]⟩]

def oneLayout : Layout :=
  ⟨1, oneFields, oneRows, [(1, schemaBytes oneFields)], [(2, rowStream oneRows)], [(3, directoryBytes [4, 5])],
    [some ⟨0, Tree.mkLeaf 4 [⟨[120], 0⟩, ⟨[121], 1⟩]⟩, some ⟨0, Tree.mkLeaf 5 [⟨[120], 0⟩, ⟨[120], 1⟩]⟩]⟩

theorem sortedIndex_oneRows : sortedIndex oneRows 0 = [⟨[120], 0⟩, ⟨[121], 1⟩] ∧
    sortedIndex oneRows 1 = [⟨[120], 0⟩, ⟨[120], 1⟩] := by
  decide

theorem oneLayout_on : oneLayout.On onePages where
  pages_ok i page h := by
    match i with
    | 0 | 1 | 2 | 3 | 4 | 5 =>
      obtain rfl := Option.some.inj h
      exact ⟨rfl, by decide, by decide, by decide⟩
    | i + 6 => simp [onePages] at h
  length_lt := by decide
  generation_lt := by decide
  fields_ok := ⟨by decide, by decide, by decide, by decide, by decide⟩
  rows_ok r hr := by
    have hall : ∀ row ∈ oneRows, row.length = 2 ∧ ∀ v ∈ row, v.length ≤ maxValueLength := by decide
    exact ⟨(hall r hr).1, (hall r hr).2⟩
  rows_le := by decide
  super_at := rfl
  schema_at := ⟨rfl, trivial⟩
  schema_bytes := rfl
  rows_at := ⟨rfl, trivial⟩
  rows_bytes := rfl
  directory_at := ⟨rfl, trivial⟩
  directory_bytes := rfl
  trees_length := rfl
  trees_at field index h := by
    match field with
    | 0 =>
      obtain rfl := Option.some.inj h
      exact ⟨by simp [Full], trivial, ⟨rfl, trivial⟩, by simp [oneLayout, sortedIndex_oneRows]⟩
    | 1 =>
      obtain rfl := Option.some.inj h
      exact ⟨by simp [Full], trivial, ⟨rfl, trivial⟩, by simp [oneLayout, sortedIndex_oneRows]⟩
    | field + 2 => simp [oneLayout] at h
  partition := List.Perm.refl _

theorem parseImage_sound_onePages : ∃ L : Layout, L.On onePages ∧ (∀ id < 6, ∃! part : Part, id ∈ L.part part) ∧
    (sortedIndex oneRows 1).Pairwise (· < ·) ∧ ((sortedIndex oneRows 1).map Entry.record).Perm [0, 1] := by
  obtain ⟨-, L, hL, -, hpart, -, hindex⟩ := parseImage_sound (parseImage_imageOf oneLayout_on false)
  obtain ⟨_, list, _, hlist, _, _, hstrict, _, hperm⟩ := hindex 1 (by decide)
  obtain rfl := Option.some.inj hlist
  exact ⟨L, hL, hpart, hstrict, hperm⟩

end Storage
end Sql
