import SqlEngine.Build
/-!
# Built — the image `build_image` writes holds the layout of its table

One lemma for each loop of the builder, each saying what the loop adds at the end of the page vector: a chain
(`addChain_spec`), leaves (`buildLeaves_spec`, then linked by `relinkLeaves_spec`), a level of parents
(`buildParents_spec`), a whole tree (`buildLevels_spec`).  Neither logic error of the bulk loader is reachable: an entry
always fits an empty leaf, and the adjustment for a lone last child never leaves a group of one.
-/
namespace Sql
namespace Storage

open Wire BTree

/-! ## Checks -/

theorem validateFields_ok {u : Unit} : ∀ {fields unique : List Bytes}, validateFields fields unique = .ok u ↔
    (∀ f ∈ fields, f ≠ [] ∧ f.length ≤ maxValueLength) ∧ fields.Nodup ∧ ∀ f ∈ fields, f ∉ unique
  | [], _ => by simp [validateFields]
  | field :: fields, unique => by
    rw [validateFields, except_bind_ok]
    simp only [except_bind_ok, throwIf_ok, validateFields_ok, not_or, not_lt, exists_const, gt_iff_lt,
      List.nodup_cons, List.mem_cons, ne_eq, forall_eq_or_imp]
    constructor
    · rintro ⟨h1, h2, h3, h4, h5⟩
      exact ⟨⟨h1, h3⟩, ⟨fun hm => (h5 field hm).1 rfl, h4⟩, h2, fun f hf => (h5 f hf).2⟩
    · rintro ⟨⟨h1, h3⟩, ⟨hm, h4⟩, h2, h5⟩
      exact ⟨h1, h2, h3, h4, fun f hf => ⟨fun heq => hm (heq ▸ hf), h5 f hf⟩⟩

theorem validateValues_ok {u : Unit} : ∀ {values : List Bytes}, validateValues values = .ok u ↔
    ∀ v ∈ values, v.length ≤ maxValueLength
  | [] => by simp [validateValues]
  | value :: values => by
    rw [validateValues, except_bind_ok]
    simp only [throwIf_ok, not_lt, gt_iff_lt, validateValues_ok, exists_const, List.forall_mem_cons]

theorem validateRows_ok {u : Unit} {n : Nat} : ∀ {rows : List (List Bytes)}, validateRows n rows = .ok u ↔
    ∀ r ∈ rows, RowOk n r
  | [] => by simp [validateRows]
  | row :: rows => by
    rw [validateRows, except_bind_ok]
    simp only [except_bind_ok, throwIf_ok, ne_eq, not_not, validateValues_ok, validateRows_ok, exists_const,
      List.forall_mem_cons]
    constructor
    · rintro ⟨h1, h2, h3⟩
      exact ⟨⟨h1, h2⟩, h3⟩
    · rintro ⟨h1, h3⟩
      exact ⟨h1.arity, h1.value_le, h3⟩

/-- **`validate_schema` accepts exactly the tables of the format.** -/
theorem validateSchema_ok {fields : List Bytes} {rows : List (List Bytes)} :
    validateSchema fields rows = .ok () ↔ FieldsOk fields ∧ ∀ r ∈ rows, RowOk fields.length r := by
  unfold validateSchema
  simp only [except_bind_ok, throwIf_ok, not_or, not_lt, gt_iff_lt, validateFields_ok, validateRows_ok, exists_const,
    List.not_mem_nil, not_false_eq_true, implies_true, and_true]
  constructor
  · rintro ⟨⟨h1, h2⟩, ⟨h3, h4⟩, h5⟩
    exact ⟨⟨List.length_pos_iff.2 h1, h2, fun f hf => (h3 f hf).2, fun hm => (h3 [] hm).1 rfl, h4⟩, h5⟩
  · rintro ⟨h1, h5⟩
    exact ⟨⟨List.length_pos_iff.1 h1.pos, h1.le⟩,
      ⟨fun f hf => ⟨fun h => h1.name_ne (h ▸ hf), h1.name_le f hf⟩, h1.nodup⟩, h5⟩

/-! ## Strings and streams -/

theorem appendString_ok {value : Bytes} (h : value.length ≤ maxValueLength) :
    appendString value = .ok (putBlob 2 value) := by
  unfold appendString
  rw [throwIf_neg (Nat.not_lt.2 h)]
  rfl

theorem appendStrings_ok {values : List Bytes} (h : ∀ v ∈ values, v.length ≤ maxValueLength) :
    appendStrings values = .ok (values.flatMap (putBlob 2)) := by
  unfold appendStrings
  rw [except_mapM_map (fun v hv => appendString_ok (h v hv))]
  simp [bind, Except.bind, pure, Except.pure, List.flatMap_def]

theorem encodeSchema_ok {fields : List Bytes} (h : FieldsOk fields) : encodeSchema fields = .ok (schemaBytes fields) := by
  unfold encodeSchema
  rw [appendStrings_ok h.name_le]
  rfl

theorem encodeRow_ok {n : Nat} {row : List Bytes} (h : RowOk n row) : encodeRow row = .ok (rowBytes row) := by
  unfold encodeRow
  rw [appendStrings_ok h.value_le]
  rfl

theorem encodeRows_ok {n : Nat} {rows : List (List Bytes)} (h : ∀ r ∈ rows, RowOk n r) :
    encodeRows rows = .ok (rowStream rows) := by
  unfold encodeRows
  rw [except_mapM_map (fun r hr => encodeRow_ok (h r hr))]
  simp [bind, Except.bind, pure, Except.pure, List.flatMap_def, rowStream]

theorem patch_append {a old b value : Bytes} {offset : Nat} (ha : a.length = offset) (hl : value.length = old.length) :
    patch (a ++ (old ++ b)) offset value = a ++ (value ++ b) := by
  subst ha
  rw [patch, List.take_left, ← List.drop_drop, List.drop_left, hl, List.drop_left, List.append_assoc]

theorem patch_front {old b value : Bytes} (hl : value.length = old.length) :
    patch (old ++ b) 0 value = value ++ b := by
  simpa using patch_append (a := []) (b := b) rfl hl

/-- The previous link of a leaf is four bytes of its payload. -/
theorem patch_leafPayload (previous previous' : Nat) (es : List Entry) :
    patch (leafPayload previous es) 2 (le 4 previous') = leafPayload previous' es := by
  simp only [leafPayload, List.append_assoc]
  exact patch_append (by simp) (by simp)

/-! ## Chains -/

theorem Sized.getLast_lt {pages : List Page} (h : Sized pages) {page : Page} (hp : pages.getLast? = some page) :
    page.id < pages.length := by
  rw [List.getLast?_eq_getElem?] at hp
  have := (h _ _ hp).1
  have := lt_of_getElem?_some hp
  omega

/-- The page in front of a chain is older than its first page. -/
theorem linkLast_old {pages : List Page} (h : Sized pages) (type : PageType) (next : Nat) :
    linkLast type pages.length next pages = pages := by
  unfold linkLast
  cases hl : pages.getLast? with
  | none => rfl
  | some back =>
    have := h.getLast_lt hl
    exact if_neg (fun h => by omega)

theorem linkLast_concat {pages : List Page} {type : PageType} {first id : Nat} (hid : first ≤ id) (next : Nat)
    (payload : Bytes) : linkLast type first next (pages ++ [⟨type, id, noPage, payload⟩]) =
      pages ++ [⟨type, id, next, payload⟩] := by
  unfold linkLast
  simp only [List.getLast?_concat, ge_iff_le, hid, and_self, if_true, List.dropLast_concat]

/-- The loop of `add_chain` behind its first page. -/
theorem addChainPages_spec (type : PageType) (first : Nat) : ∀ (bytes : Bytes) (pages : List Page) (payload : Bytes),
    first ≤ pages.length → Sized pages → payload.length ≤ pagePayloadSize →
    ∃ ch pages', addChainPages type first (pages ++ [⟨type, pages.length, noPage, payload⟩]) bytes = pages' ∧
      Grows pages pages' ∧ Sized pages' ∧ pages'.length = pages.length + 1 + ch.length ∧
      ChainAt pages' type ((pages.length, payload) :: ch) ∧ chainBytes ch = bytes ∧
      ch.map Prod.fst = List.range' (pages.length + 1) ch.length
  | bytes, pages, payload, hfirst, hs, hpay => by
    by_cases hb : bytes = []
    · subst hb
      refine ⟨[], _, rfl, ?_, ?_, ?_, ?_, rfl, rfl⟩
      all_goals rw [addChainPages, dif_pos rfl]
      · exact Grows.append _ _
      · exact hs.append rfl hpay (Or.inl (by decide : noPage < 2 ^ 32))
      · simp
      · exact ⟨by simp [chainHead], trivial⟩
    · -- the page is linked to the next one, from which the loop goes on
      have hpos := List.length_pos_iff.2 hb
      have hsize : pagePayloadSize = 4064 := rfl
      have hs1 : Sized (pages ++ [⟨type, pages.length, pages.length + 1, payload⟩]) :=
        hs.append rfl hpay (Or.inr (Nat.le_refl _))
      obtain ⟨ch, pages', heq, hg, hs', hlen, hch, hbytes, hids⟩ :=
        addChainPages_spec type first (bytes.drop pagePayloadSize)
        (pages ++ [⟨type, pages.length, pages.length + 1, payload⟩]) (bytes.take pagePayloadSize)
        (by simp; omega) hs1 (by simp)
      have hl : (pages ++ [(⟨type, pages.length, pages.length + 1, payload⟩ : Page)]).length = pages.length + 1 := by simp
      rw [hl] at heq hlen hch hids
      refine ⟨(pages.length + 1, bytes.take pagePayloadSize) :: ch, pages', ?_, (Grows.append _ _).trans hg, hs', ?_, ?_,
        ?_, ?_⟩
      · rw [addChainPages, dif_neg hb]
        simp only [linkLast_concat hfirst]
        rw [List.length_append, List.length_singleton]
        exact heq
      · rw [hlen, List.length_cons]; omega
      · exact ⟨hg.page (getElem?_append_new _ _), hch⟩
      · rw [chainBytes, List.flatMap_cons, ← chainBytes, hbytes, List.take_append_drop]
      · rw [List.map_cons, hids, List.length_cons, List.range'_succ]
termination_by bytes => bytes.length
decreasing_by
  have := List.length_pos_iff.2 hb
  have : pagePayloadSize = 4064 := rfl
  simp only [List.length_drop]
  omega

/-- **`add_chain` adds a chain that carries the bytes.** -/
theorem addChain_spec {pages : List Page} (hs : Sized pages) (type : PageType) (bytes : Bytes) :
    ∃ ch pages', addChain pages type bytes = (chainHead ch, pages') ∧ Grows pages pages' ∧ Sized pages' ∧
      pages'.length = pages.length + ch.length ∧ ChainAt pages' type ch ∧ chainBytes ch = bytes ∧
      ch.map Prod.fst = List.range' pages.length ch.length ∧ ch.head? = some (pages.length, bytes.take pagePayloadSize) := by
  unfold addChain
  by_cases hb : bytes = []
  · subst hb
    refine ⟨[(pages.length, [])], _, rfl, Grows.append _ _, hs.append rfl (by simp) (Or.inl (by decide : noPage < 2 ^ 32)),
      by simp, ⟨?_, trivial⟩, rfl, rfl, rfl⟩
    exact getElem?_append_new _ _
  · obtain ⟨ch, pages', heq, hg, hs', hlen, hch, hbytes, hids⟩ := addChainPages_spec type pages.length
      (bytes.drop pagePayloadSize) pages (bytes.take pagePayloadSize) (Nat.le_refl _) hs (by simp)
    refine ⟨(pages.length, bytes.take pagePayloadSize) :: ch, pages', ?_, hg, hs', by rw [hlen, List.length_cons]; omega,
      hch, ?_, ?_, rfl⟩
    · rw [if_neg hb, addChainPages, dif_neg hb]
      simp only [linkLast_old hs, heq]
      rfl
    · rw [chainBytes, List.flatMap_cons, ← chainBytes, hbytes, List.take_append_drop]
    · rw [List.map_cons, hids, List.length_cons, List.range'_succ]

/-! ## Leaves -/

/-- **The inner loop of a leaf** takes entries while they fit, and at least one. -/
theorem fillLeaf_spec : ∀ (entries : List Entry) (payload : Bytes) (count : Nat),
    (∀ e ∈ entries, e.key.length ≤ maxValueLength) → payload.length ≤ pagePayloadSize →
    ∃ taken rest, entries = taken ++ rest ∧
      fillLeaf payload count entries = .ok (payload ++ taken.flatMap putEntry, count + taken.length, rest) ∧
      (payload ++ taken.flatMap putEntry).length ≤ pagePayloadSize ∧
      (payload.length + 110 ≤ pagePayloadSize → entries ≠ [] → taken ≠ [])
  | [], payload, count, _, hp => ⟨[], [], rfl, by simp [fillLeaf], by simpa using hp, fun _ h => absurd rfl h⟩
  | e :: entries, payload, count, hkeys, hp => by
    have hkey := hkeys e List.mem_cons_self
    have hmax : maxValueLength = 100 := rfl
    by_cases hfull : payload.length + (2 + e.key.length + 8) > pagePayloadSize
    · refine ⟨[], e :: entries, rfl, ?_, by simpa using hp, fun h => by omega⟩
      rw [fillLeaf, if_pos hfull]
      simp
    · have hput : payload ++ putBlob 2 e.key ++ le 8 e.record = payload ++ putEntry e := by
        rw [putEntry, List.append_assoc]
      obtain ⟨taken, rest, hsplit, hrun, hle, -⟩ := fillLeaf_spec entries (payload ++ putEntry e) (count + 1)
        (fun x hx => hkeys x (List.mem_cons_of_mem e hx)) (by rw [List.length_append, length_putEntry]; omega)
      refine ⟨e :: taken, rest, by rw [hsplit]; rfl, ?_, ?_, fun _ _ => by simp⟩
      · rw [fillLeaf, if_neg hfull, appendString_ok hkey]
        simp only [bind, Except.bind]
        rw [hput, hrun]
        simp only [List.flatMap_cons, List.append_assoc, List.length_cons]
        congr 3
        omega
      · simpa [List.append_assoc] using hle

/-- A leaf before its links are set. -/
def rawLeaf (l : Leaf Entry) : Page := ⟨.indexLeaf, l.id, noPage, leafPayload noPage l.entries⟩

/-- What the bulk loader keeps about a subtree. -/
def descriptor (n : Nat) (t : Tree Entry n) : ChildDescriptor := ⟨root n t, least n t, n⟩

def leafDescriptor (l : Leaf Entry) : ChildDescriptor := descriptor 0 (Tree.mkLeaf l.id l.entries)

/-- **The leaves**: consecutive pages that hold the entries in order, none of them empty. -/
theorem buildLeaves_spec : ∀ (entries : List Entry) (pages : List Page), Sized pages →
    (∀ e ∈ entries, e.key.length ≤ maxValueLength) → ∃ (ls : List (Leaf Entry)) (pages' : List Page),
      buildLeaves pages entries = .ok (ls.map leafDescriptor, pages') ∧ Grows pages pages' ∧ Sized pages' ∧
      pages'.length = pages.length + ls.length ∧ ls.map Leaf.id = List.range' pages.length ls.length ∧
      ls.flatMap Leaf.entries = entries ∧ (∀ l ∈ ls, l.entries ≠ []) ∧ ∀ l ∈ ls, pages'[l.id]? = some (rawLeaf l)
  | [], pages, hs, _ => ⟨[], pages, by rw [buildLeaves]; rfl, Grows.refl _, hs, rfl, rfl, rfl, by simp, by simp⟩
  | first :: others, pages, hs, hkeys => by
    obtain ⟨taken, rest, hsplit, hrun, hle, hne⟩ := fillLeaf_spec (first :: others) (le 2 0 ++ le 4 noPage ++ le 2 0) 0
      hkeys (by decide)
    have hne := hne (by decide) (by simp)
    have hpay : patch (le 2 0 ++ le 4 noPage ++ le 2 0 ++ taken.flatMap putEntry) 0 (le 2 (0 + taken.length)) =
        leafPayload noPage taken := by
      simp only [leafPayload, List.append_assoc, Nat.zero_add]
      exact patch_front (by rw [length_le, length_le])
    have hsize : (leafPayload noPage taken).length ≤ pagePayloadSize := by
      simpa [leafPayload] using hle
    have hs1 : Sized (pages ++ [rawLeaf ⟨pages.length, taken⟩]) :=
      hs.append rfl hsize (Or.inl (by decide : noPage < 2 ^ 32))
    have hrest : rest.length < (first :: others).length := by
      rw [hsplit, List.length_append]
      have := List.length_pos_iff.2 hne
      omega
    obtain ⟨ls, pages', hrun', hg, hs', hlen, hids, hents, hfull, hat⟩ := buildLeaves_spec rest _ hs1
      (fun e he => hkeys e (by rw [hsplit]; exact List.mem_append_right _ he))
    have hl : (pages ++ [rawLeaf ⟨pages.length, taken⟩]).length = pages.length + 1 := by simp
    refine ⟨⟨pages.length, taken⟩ :: ls, pages', ?_, (Grows.append _ _).trans hg, hs', ?_, ?_, ?_, ?_, ?_⟩
    · rw [buildLeaves]
      split
      · rename_i h; rw [hrun] at h; cases h
      rename_i payload count rest' h
      rw [hrun] at h
      obtain ⟨rfl, h1⟩ := Prod.mk.inj (Except.ok.inj h)
      obtain ⟨rfl, rfl⟩ := Prod.mk.inj h1
      have hc : 0 + taken.length ≠ 0 := by
        have := List.length_pos_iff.2 hne
        omega
      have hhead : taken.headD default = first := by
        cases taken with
        | nil => exact absurd rfl hne
        | cons x xs => exact (List.cons.inj hsplit).1.symm
      rw [dif_neg hc, hpay]
      simp only [rawLeaf] at hrun'
      simp only [hrun', bind, Except.bind, pure, Except.pure, List.map_cons, leafDescriptor, descriptor, root_mkLeaf, least,
        entries_mkLeaf, hhead]
    · rw [hlen, hl, List.length_cons]; omega
    · rw [List.map_cons, hids, hl, List.length_cons, List.range'_succ]
    · rw [List.flatMap_cons, hents, hsplit]
    · intro l hlm
      rcases List.mem_cons.1 hlm with rfl | hlm
      · exact hne
      · exact hfull l hlm
    · intro l hlm
      rcases List.mem_cons.1 hlm with rfl | hlm
      · exact hg.page (getElem?_append_new _ _)
      · exact hat l hlm
termination_by entries => entries.length
decreasing_by exact hrest

/-- **Relinking** turns raw leaves into a linked run and changes no other page. -/
theorem relinkLeaves_spec : ∀ (ls : List (Leaf Entry)) (pages : List Page) (previous : Nat), Sized pages →
    (ls.map Leaf.id).Nodup → (∀ l ∈ ls, pages[l.id]? = some (rawLeaf l)) →
    ∃ pages', relinkLeaves pages previous (ls.map Leaf.id) = pages' ∧ pages'.length = pages.length ∧ Sized pages' ∧
      (∀ i, i ∉ ls.map Leaf.id → pages'[i]? = pages[i]?) ∧ LeafChain pages' previous ls noPage
  | [], pages, _, hs, _, _ => ⟨pages, rfl, rfl, hs, fun _ _ => rfl, trivial⟩
  | l :: ls, pages, previous, hs, hnd, hat => by
    rw [List.map_cons, List.nodup_cons] at hnd
    have hl := hat l List.mem_cons_self
    have hlt := lt_of_getElem?_some hl
    let linked : Page := ⟨.indexLeaf, l.id, leafHead ls noPage, leafPayload previous l.entries⟩
    have hmod : pages.modify l.id (fun leaf =>
        { leaf with next := (ls.map Leaf.id).headD noPage, payload := patch leaf.payload 2 (le 4 previous) }) =
        pages.set l.id linked := by
      refine List.ext_getElem? (fun i => ?_)
      rw [List.getElem?_modify, List.getElem?_set]
      by_cases hi : l.id = i
      · subst hi
        simp only [if_true, hl, if_pos hlt, rawLeaf]
        rfl
      · simp [hi]
    have hpay : linked.payload.length ≤ pagePayloadSize := by
      have := (hs _ _ hl).2.1
      simp only [rawLeaf, length_leafPayload] at this
      simpa only [linked, length_leafPayload] using this
    have hnext : linked.next < 2 ^ 32 ∨ linked.next ≤ (pages.length) := by
      cases ls with
      | nil => exact Or.inl (by decide : noPage < 2 ^ 32)
      | cons k ks => exact Or.inr (Nat.le_of_lt (lt_of_getElem?_some (hat k (by simp))))
    obtain ⟨pages', hrun, hlen, hs', hframe, hchain⟩ := relinkLeaves_spec ls (pages.set l.id linked) l.id
      (hs.set rfl hpay hnext) hnd.2 (fun k hk => by
        have hne : k.id ≠ l.id := fun h => hnd.1 (h ▸ List.mem_map_of_mem hk)
        rw [getElem?_set_other hne]
        exact hat k (List.mem_cons_of_mem l hk))
    refine ⟨pages', ?_, by rw [hlen, List.length_set], hs', fun i hi => ?_, ?_, hchain⟩
    · rw [List.map_cons, relinkLeaves]
      simp only [hmod]
      exact hrun
    · rw [List.map_cons, List.mem_cons, not_or] at hi
      rw [hframe i hi.2, getElem?_set_other hi.1]
    · rw [hframe l.id hnd.1, getElem?_set_same hl]

/-! ## Parents -/

/-- The bytes a separator takes in an internal page. -/
def separatorSize (c : ChildDescriptor) : Nat := 2 + c.minimum.key.length + 8 + 4

/-- What fits behind the first child fits, and where it stops the page is nearly full. -/
theorem fitting_spec : ∀ (children : List ChildDescriptor) (encodedSize : Nat),
    (∀ c ∈ children, c.minimum.key.length ≤ maxValueLength) → encodedSize ≤ pagePayloadSize →
    encodedSize + ((children.take (fitting encodedSize children)).map separatorSize).sum ≤ pagePayloadSize ∧
    (fitting encodedSize children < children.length →
      pagePayloadSize < encodedSize + 114 * (fitting encodedSize children + 1))
  | [], _, _, h => by simpa [fitting] using h
  | c :: children, encodedSize, hkeys, h => by
    have hkey := hkeys c List.mem_cons_self
    have hmax : maxValueLength = 100 := rfl
    rw [fitting]
    by_cases hfull : encodedSize + (2 + c.minimum.key.length + 8 + 4) > pagePayloadSize
    · simp only [if_pos hfull, List.take_zero, List.map_nil, List.sum_nil, Nat.add_zero, List.length_cons]
      exact ⟨h, fun _ => by omega⟩
    · obtain ⟨h1, h2⟩ := fitting_spec children (encodedSize + (2 + c.minimum.key.length + 8 + 4))
        (fun x hx => hkeys x (List.mem_cons_of_mem c hx)) (by omega)
      simp only [if_neg hfull, List.take_succ_cons, List.map_cons, List.sum_cons, List.length_cons, separatorSize] at h1 h2 ⊢
      exact ⟨by omega, fun hlt => by have := h2 (by omega); omega⟩

theorem sum_take_le (l : List Nat) {i j : Nat} (h : i ≤ j) : (l.take i).sum ≤ (l.take j).sum := by
  have : l.take j = l.take i ++ (l.drop i).take (j - i) := by
    rw [← List.take_add, Nat.add_sub_cancel' h]
  rw [this, List.sum_append]
  omega

/-- **A group has at least two children, fits its page and never leaves a single child behind.** -/
theorem groupSize_spec (first : ChildDescriptor) {others : List ChildDescriptor} (hne : others ≠ [])
    (hkeys : ∀ c ∈ others, c.minimum.key.length ≤ maxValueLength) :
    2 ≤ groupSize (first :: others) ∧ others.length + 1 - groupSize (first :: others) ≠ 1 ∧
      8 + ((others.take (groupSize (first :: others) - 1)).map separatorSize).sum ≤ pagePayloadSize := by
  obtain ⟨h1, h2⟩ := fitting_spec others 8 hkeys (by decide)
  have hle := fitting_le others 8
  have hpos := List.length_pos_iff.2 hne
  have hsize : pagePayloadSize = 4064 := rfl
  unfold groupSize
  dsimp only [List.tail_cons, List.length_cons]
  split_ifs with hc
  · refine ⟨by omega, by omega, ?_⟩
    rw [List.map_take] at h1 ⊢
    exact Nat.le_trans (Nat.add_le_add_left (sum_take_le _ (by omega)) 8) h1
  · refine ⟨?_, ?_, by simpa using h1⟩
    · rcases Nat.lt_or_ge (fitting 8 others) others.length with h | h
      · have := h2 h; omega
      · omega
    · intro hone
      have := h2 (by omega)
      exact hc ⟨hone, by omega⟩

theorem encodeSeparators_ok {n : Nat} {kids : List (Tree Entry n)}
    (hkeys : ∀ k ∈ kids, (least n k).key.length ≤ maxValueLength) :
    encodeSeparators (kids.map (descriptor n)) =
      .ok ((kids.map (fun k => (least n k, root n k))).flatMap putSeparator) := by
  have hmap : (kids.map (descriptor n)).mapM (fun c => do
      let key ← appendString c.minimum.key
      pure (key ++ le 8 c.minimum.record ++ le 4 c.id)) =
      Except.ok ((kids.map (descriptor n)).map (fun c => putSeparator (c.minimum, c.id))) := by
    refine except_mapM_map (fun c hc => ?_)
    obtain ⟨k, hk, rfl⟩ := List.mem_map.1 hc
    rw [show (descriptor n k).minimum = least n k from rfl, appendString_ok (hkeys k hk)]
    rfl
  unfold encodeSeparators
  rw [hmap]
  simp [bind, Except.bind, pure, Except.pure, List.flatMap_def, Function.comp_def, descriptor]

theorem length_putSeparators {n : Nat} (kids : List (Tree Entry n)) :
    ((kids.map (fun k => (least n k, root n k))).flatMap putSeparator).length =
      ((kids.map (descriptor n)).map separatorSize).sum := by
  induction kids with
  | nil => rfl
  | cons k kids ih =>
    simp only [List.map_cons, List.flatMap_cons, List.length_append, List.sum_cons, length_putSeparator, ih]
    rfl

theorem least_mkNode {n : Nat} (id : Nat) {k : Tree Entry n} (hk : Full n k) (ks : List (Tree Entry n)) :
    least (n + 1) (Tree.mkNode id (k :: ks)) = least n k := by
  have hh := head?_entries hk
  unfold least
  rw [entries_mkNode, List.flatMap_cons]
  cases he : entries n k with
  | nil => rw [he] at hh; cases hh
  | cons x xs => rfl

/-- A subtree the bulk loader has built: its pages are written, its keys are short. -/
structure Loaded (pages : List Page) (n : Nat) (t : Tree Entry n) : Prop where
  full : Full n t
  inner : InnerAt pages n t
  keys : ∀ e ∈ entries n t, e.key.length ≤ maxValueLength

theorem Loaded.grow {a b : List Page} (h : Grows a b) {n : Nat} {t : Tree Entry n} (ht : Loaded a n t) : Loaded b n t :=
  ⟨ht.full, ht.inner.grow h, ht.keys⟩

theorem Loaded.least_key {pages : List Page} {n : Nat} {t : Tree Entry n} (h : Loaded pages n t) :
    (least n t).key.length ≤ maxValueLength := h.keys _ (least_mem h.full)

/-- **One level of parents**: consecutive pages over the children in order, each with at least two. -/
theorem buildParents_spec {n : Nat} : ∀ (kids : List (Tree Entry n)) (pages : List Page), Sized pages →
    (∀ k ∈ kids, Loaded pages n k) → kids.length ≠ 1 → ∃ (ps : List (Tree Entry (n + 1))) (pages' : List Page),
      buildParents pages (kids.map (descriptor n)) = .ok (ps.map (descriptor (n + 1)), pages') ∧ Grows pages pages' ∧
      Sized pages' ∧ pages'.length = pages.length + ps.length ∧
      ps.map (root (n + 1)) = List.range' pages.length ps.length ∧ ps.flatMap (fun p => p.node.kids) = kids ∧
      ∀ p ∈ ps, Loaded pages' (n + 1) p
  | [], pages, hs, _, _ => ⟨[], pages, by rw [List.map_nil, buildParents]; rfl, Grows.refl _, hs, rfl, rfl, rfl, by simp⟩
  | k :: others, pages, hs, hk, hlen => by
    have hne : others ≠ [] := by rintro rfl; exact hlen rfl
    have hle := groupSize_le (descriptor n k) (others.map (descriptor n))
    obtain ⟨h2, hlone, hfit⟩ := groupSize_spec (descriptor n k)
      (show others.map (descriptor n) ≠ [] by simpa using hne) (fun c hc => by
        obtain ⟨j, hj, rfl⟩ := List.mem_map.1 hc
        exact (hk j (List.mem_cons_of_mem k hj)).least_key)
    generalize hsize : groupSize (descriptor n k :: others.map (descriptor n)) = size at hle h2 hlone hfit
    rw [List.length_map] at hle hlone
    rw [← List.map_take] at hfit
    let node : Tree Entry (n + 1) := Tree.mkNode pages.length (k :: others.take (size - 1))
    let page : Page := ⟨.indexInternal, pages.length, noPage, nodePayload n (k :: others.take (size - 1))⟩
    have hpaylen : page.payload.length ≤ pagePayloadSize := by
      simp only [page, nodePayload, length_internalPayload, separators, List.tail_cons, length_putSeparators]
      exact hfit
    have hs1 : Sized (pages ++ [page]) := hs.append rfl hpaylen (Or.inl (by decide : noPage < 2 ^ 32))
    have hgroup : ∀ j ∈ k :: others.take (size - 1), Loaded pages n j := fun j hj => by
      rcases List.mem_cons.1 hj with rfl | hj
      · exact hk _ List.mem_cons_self
      · exact hk j (List.mem_cons_of_mem k (List.mem_of_mem_take hj))
    have hnode : Loaded (pages ++ [page]) (n + 1) node := by
      refine ⟨⟨?_, fun j hj => (hgroup j hj).full⟩, ⟨getElem?_append_new _ _, fun j hj =>
        ((hgroup j hj).grow (Grows.append _ _)).inner⟩, fun e he => ?_⟩
      · simp only [node, Tree.node_mkNode, List.length_cons, List.length_take]; omega
      · rw [entries_mkNode] at he
        obtain ⟨j, hj, he⟩ := List.mem_flatMap.1 he
        exact (hgroup j hj).keys e he
    have hdrop : (others.drop (size - 1)).length < (k :: others).length := by
      simp only [List.length_drop, List.length_cons]; omega
    obtain ⟨ps, pages', hrun, hg, hs', hcount, hids, hkids, hat⟩ := buildParents_spec (others.drop (size - 1))
      (pages ++ [page]) hs1 (fun j hj => (hk j (List.mem_cons_of_mem k (List.mem_of_mem_drop hj))).grow (Grows.append _ _))
      (by rw [List.length_drop]; omega)
    have hl : (pages ++ [page]).length = pages.length + 1 := by simp
    refine ⟨node :: ps, pages', ?_, (Grows.append _ _).trans hg, hs', ?_, ?_, ?_, ?_⟩
    · have hpay : patch (le 2 (n + 1) ++ le 2 0 ++ le 4 (root n k) ++
          ((others.take (size - 1)).map (fun k => (least n k, root n k))).flatMap putSeparator) 2
          (le 2 (others.take (size - 1)).length) = page.payload := by
        simp only [page, nodePayload, internalPayload, separators, firstChild, List.tail_cons, List.map_cons,
          List.headD_cons, List.append_assoc, List.length_map]
        exact patch_append (by simp) (by simp)
      rw [List.map_cons, buildParents]
      simp only [hsize]
      rw [dif_neg (by omega), ← List.map_take, ← List.map_drop, encodeSeparators_ok (fun j hj =>
        (hk j (List.mem_cons_of_mem k (List.mem_of_mem_take hj))).least_key)]
      simp only [bind, Except.bind, List.length_map, pure, Except.pure]
      rw [show (descriptor n k).level = n from rfl, show (descriptor n k).id = root n k from rfl, hpay]
      simp only [page] at hrun
      simp only [page, hrun, List.map_cons]
      simp only [node, descriptor, least_mkNode _ (hk k List.mem_cons_self).full, root_mkNode]
    · rw [hcount, hl, List.length_cons]; omega
    · rw [List.map_cons, hids, hl, List.length_cons, List.range'_succ]
      rfl
    · rw [List.flatMap_cons, hkids]
      simp only [node, Tree.node_mkNode, List.cons_append, List.take_append_drop]
    · intro p hp
      rcases List.mem_cons.1 hp with rfl | hp
      · exact hnode.grow hg
      · exact hat p hp
termination_by kids => kids.length

/-! ## Levels -/

theorem flatMap_inner_perm {n : Nat} (ps : List (Tree Entry (n + 1))) : (ps.flatMap (inner (n + 1))).Perm
    (ps.map (root (n + 1)) ++ (ps.flatMap (fun p => p.node.kids)).flatMap (inner n)) := by
  have h := List.flatMap_append_perm ps (fun p => [root (n + 1) p]) (fun p => p.node.kids.flatMap (inner n))
  rw [List.flatMap_assoc, List.map_eq_flatMap]
  exact h.symm

/-- **Levels of parents end in one tree** over the same leaves, with the new pages as its new inner nodes. -/
theorem buildLevels_spec : ∀ (n : Nat) (kids : List (Tree Entry n)) (pages : List Page), kids ≠ [] → Sized pages →
    (∀ k ∈ kids, Loaded pages n k) → ∃ (N : Nat) (T : Tree Entry N) (pages' : List Page),
      buildLevels pages (kids.map (descriptor n)) = .ok (root N T, pages') ∧ Grows pages pages' ∧ Sized pages' ∧
      Loaded pages' N T ∧ leaves N T = kids.flatMap (leaves n) ∧
      (inner N T).Perm (kids.flatMap (inner n) ++ newIds pages pages')
  | n, [k], pages, _, hs, hk => by
    refine ⟨n, k, pages, by rw [List.map_singleton, buildLevels]; rfl, Grows.refl _, hs, hk k List.mem_cons_self, by simp,
      ?_⟩
    simp
  | n, k :: k' :: others, pages, _, hs, hk => by
    obtain ⟨ps, pages1, hrun, hg, hs1, hcount, hids, hkids, hat⟩ := buildParents_spec (k :: k' :: others) pages hs hk
      (by simp)
    have hne : ps ≠ [] := by rintro rfl; cases hkids
    have hless : ps.length < (k :: k' :: others).length := by
      have := buildParents_length _ _ hrun
      simp only [List.length_map, List.length_cons] at this ⊢
      omega
    obtain ⟨N, T, pages', hrun', hg', hs', hT, hleaves, hinner⟩ := buildLevels_spec (n + 1) ps pages1 hne hs1 hat
    refine ⟨N, T, pages', ?_, hg.trans hg', hs', hT, ?_, ?_⟩
    · rw [List.map_cons, List.map_cons, buildLevels, ← List.map_cons, ← List.map_cons]
      split
      · rename_i h; rw [hrun] at h; cases h
      rename_i parents pages2 h
      obtain ⟨rfl, rfl⟩ := Prod.mk.inj (Except.ok.inj (hrun.symm.trans h))
      exact hrun'
    · rw [hleaves, ← hkids, List.flatMap_assoc]
      rfl
    · refine hinner.trans (((flatMap_inner_perm ps).append_right _).trans ?_)
      rw [hkids, hids, ← newIds_join hg.le hg'.le, newIds_eq hcount]
      refine (List.perm_append_comm.append_right _).trans ?_
      rw [List.append_assoc]
termination_by _ kids => kids.length
decreasing_by exact hless

/-- **`build_index` writes the index of a field**, on new pages. -/
theorem buildIndex_spec {pages : List Page} (hs : Sized pages) {n : Nat} {rows : List (List Bytes)}
    (hrows : ∀ r ∈ rows, RowOk n r) (field : Nat) : ∃ (t : Index) (pages' : List Page),
      buildIndex pages (sortedIndex rows field) = .ok (t.root, pages') ∧ Grows pages pages' ∧ Sized pages' ∧
      IndexAt pages' rows field t ∧ t.ids.Perm (newIds pages pages') := by
  unfold buildIndex
  by_cases hempty : sortedIndex rows field = []
  · refine ⟨none, pages, if_pos hempty, Grows.refl _, hs, ?_, by simp [Index.ids]⟩
    have := length_sortedIndex rows field
    rw [hempty, List.length_nil] at this
    exact List.length_eq_zero_iff.1 this.symm
  · have hkeys : ∀ e ∈ sortedIndex rows field, e.key.length ≤ maxValueLength := fun e he => by
      rw [(mem_sortedIndex.1 he).2]
      exact valueAt_length_le hrows _ _
    obtain ⟨ls, pages1, hrun, hg, hs1, hcount, hids, hents, hfull, hraw⟩ := buildLeaves_spec _ pages hs hkeys
    have hlevel : ls.map leafDescriptor = (ls.map (fun l => Tree.mkLeaf l.id l.entries)).map (descriptor 0) := by
      rw [List.map_map]; rfl
    have hpos : (ls.map leafDescriptor).map ChildDescriptor.id = ls.map Leaf.id := by
      rw [List.map_map]; rfl
    have hnd : (ls.map Leaf.id).Nodup := by rw [hids]; exact List.nodup_range'
    obtain ⟨pages2, hlink, hlen2, hs2, hframe, hchain⟩ := relinkLeaves_spec ls pages1 noPage hs1 hnd hraw
    have hold : ∀ i < pages.length, i ∉ ls.map Leaf.id := fun i hi hm => by
      rw [hids, List.mem_range'_1] at hm
      omega
    have hg2 : Grows pages pages2 := ⟨by omega, fun i hi => by rw [hframe i (hold i hi), hg.same i hi]⟩
    have hne : ls.map (fun l => Tree.mkLeaf l.id l.entries) ≠ [] := by
      intro h
      rw [List.map_eq_nil_iff] at h
      rw [h] at hents
      exact hempty hents.symm
    have hleafentries : ∀ l ∈ ls, ∀ e ∈ l.entries, e ∈ sortedIndex rows field := fun l hl e he => by
      rw [← hents]
      exact List.mem_flatMap.2 ⟨l, hl, he⟩
    obtain ⟨N, T, pages', hrun', hg', hs', hT, hleaves, hinner⟩ := buildLevels_spec 0
      (ls.map (fun l => Tree.mkLeaf l.id l.entries)) pages2 hne hs2 (fun k hk => by
        obtain ⟨l, hl, rfl⟩ := List.mem_map.1 hk
        refine ⟨hfull l hl, trivial, fun e he => hkeys e (hleafentries l hl e (by simpa using he))⟩)
    have hTleaves : leaves N T = ls := by
      rw [hleaves, List.flatMap_map]
      simp
    refine ⟨some ⟨N, T⟩, pages', ?_, hg2.trans hg', hs', ⟨hT.full, hT.inner, ?_, ?_⟩, ?_⟩
    · rw [if_neg hempty, hrun]
      simp only [bind, Except.bind, hpos, hlink]
      rw [hlevel, hrun']
      rfl
    · rw [hTleaves]
      exact hchain.grow hg'
    · unfold entries
      rw [hTleaves, hents]
    · have hzero : (ls.map (fun l => Tree.mkLeaf l.id l.entries)).flatMap (inner 0) = [] := by
        simp [BTree.inner]
      rw [hzero, List.nil_append] at hinner
      rw [← newIds_join hg2.le hg'.le, newIds_eq (b := pages2) (hlen2.trans hcount), ← hids,
        show Index.ids (some ⟨N, T⟩) = inner N T ++ (leaves N T).map Leaf.id from rfl, hTleaves]
      exact (hinner.append_right _).trans List.perm_append_comm

theorem buildIndexes_spec {n : Nat} {rows : List (List Bytes)} (hrows : ∀ r ∈ rows, RowOk n r) :
    ∀ (fields : List Nat) (pages : List Page), Sized pages → ∃ (ts : List Index) (pages' : List Page),
      buildIndexes pages rows fields = .ok (ts.map Index.root, pages') ∧ Grows pages pages' ∧ Sized pages' ∧
      List.Forall₂ (fun field t => IndexAt pages' rows field t) fields ts ∧
      (ts.flatMap Index.ids).Perm (newIds pages pages')
  | [], pages, hs => ⟨[], pages, rfl, Grows.refl _, hs, .nil, by simp⟩
  | field :: fields, pages, hs => by
    obtain ⟨t, pages1, hrun, hg, hs1, hat, hids⟩ := buildIndex_spec hs hrows field
    obtain ⟨ts, pages', hrun', hg', hs', hats, hidss⟩ := buildIndexes_spec hrows fields pages1 hs1
    refine ⟨t :: ts, pages', ?_, hg.trans hg', hs', .cons (hat.grow hg') hats, ?_⟩
    · rw [buildIndexes, hrun]
      simp only [bind, Except.bind, hrun', pure, Except.pure, List.map_cons]
    · rw [List.flatMap_cons, ← newIds_join hg.le hg'.le]
      exact hids.append hidss

/-! ## The image -/

theorem setPayload_eq {pages : List Page} {id : Nat} {page : Page} (h : pages[id]? = some page) (payload : Bytes) :
    setPayload pages id payload = pages.set id { page with payload := payload } := by
  refine List.ext_getElem? (fun i => ?_)
  rw [setPayload, List.getElem?_modify, List.getElem?_set]
  by_cases hi : id = i
  · subst hi
    simp only [if_true, if_pos (lt_of_getElem?_some h), h]
    rfl
  · simp [hi]

/-- The rows of a chain are far fewer than a vector can hold. -/
theorem rows_le_of_chain {pages : List Page} (hs : Sized pages) (hlen : pages.length < 2 ^ 32) {rows : List (List Bytes)}
    {ch : List (Nat × Bytes)} (hat : ChainAt pages .rows ch) (hbytes : chainBytes ch = rowStream rows)
    (hnd : (ch.map Prod.fst).Nodup) : rows.length ≤ rowsMaxSize := by
  have hcount : ch.length ≤ pages.length := by
    have := (List.subperm_of_subset hnd (fun i hi => List.mem_range.2 (hat.lt i hi))).length_le
    simpa using this
  have hchain : ∀ {ch : List (Nat × Bytes)}, ChainAt pages .rows ch →
    (chainBytes ch).length ≤ pagePayloadSize * ch.length := by
    intro ch
    induction ch with
    | nil => simp [chainBytes]
    | cons c ch ih =>
      intro h
      have h1 := ih h.2
      have h2 := (hs _ _ h.1).2.1
      dsimp only at h2
      simp only [chainBytes, List.flatMap_cons, List.length_append, List.length_cons, Nat.mul_add, Nat.mul_one] at h1 ⊢
      omega
  have hrows : ∀ rows : List (List Bytes), 4 * rows.length ≤ (rows.flatMap rowBytes).length := by
    intro rows
    induction rows with
    | nil => simp
    | cons r rows ih =>
      simp only [List.flatMap_cons, List.length_append, List.length_cons, rowBytes, length_le]
      omega
  have h1 := hchain hat
  have h2 := hrows rows
  rw [hbytes, rowStream, List.length_append, length_le] at h1
  have hsize : pagePayloadSize = 4064 := rfl
  have hmax : rowsMaxSize = 384307168202282325 := by decide
  rw [hsize] at h1
  omega

theorem length_directoryBytes (roots : List Nat) : (directoryBytes roots).length = 4 + 4 * roots.length := by
  have : (roots.flatMap (le 4)).length = roots.length * 4 := length_flatMap_block (fun r _ => length_le 4 r)
  rw [directoryBytes, List.length_append, length_le, this]
  omega

/-- **`build_image` lays out its table.** -/
theorem buildPages_spec {fields : List Bytes} {rows : List (List Bytes)} (hv : validateSchema fields rows = .ok ())
    (generation : Nat) : ∃ (pages : List Page) (L : Layout), buildPages fields rows generation = .ok pages ∧ Sized pages ∧
      L.generation = generation ∧ L.fields = fields ∧ L.rows = rows ∧ L.Insertable ∧
      (pages.length < 2 ^ 32 → generation < 2 ^ 64 → L.On pages) := by
  obtain ⟨hf, hr⟩ := validateSchema_ok.1 hv
  let pages0 : List Page := [⟨.superblock, 0, noPage, []⟩]
  have hs0 : Sized pages0 := fun i page hp => by
    have hi := lt_of_getElem?_some hp
    obtain rfl : i = 0 := by simpa [pages0] using hi
    obtain rfl := Option.some.inj hp
    exact ⟨rfl, by decide, Or.inl (by decide)⟩
  obtain ⟨sch, pages1, hrun1, hg1, hs1, hlen1, hat1, hbytes1, hids1, -⟩ := addChain_spec hs0 .schema (schemaBytes fields)
  obtain ⟨rch, pages2, hrun2, hg2, hs2, hlen2, hat2, hbytes2, hids2, hhead2⟩ := addChain_spec hs1 .rows (rowStream rows)
  let pages3 := pages2 ++ [⟨.indexDirectory, pages2.length, noPage, []⟩]
  have hs3 : Sized pages3 := hs2.append rfl (by simp) (Or.inl (by decide : noPage < 2 ^ 32))
  have hg3 : Grows pages2 pages3 := Grows.append _ _
  have hlen3 : pages3.length = pages2.length + 1 := by simp [pages3]
  obtain ⟨ts, pages4, hrun4, hg4, hs4, hats, hids4⟩ := buildIndexes_spec hr (List.range fields.length) pages3 hs3
  have hts : ts.length = fields.length := by simpa using hats.length_eq.symm
  -- the two payloads filled in at the end
  let dir : Page := ⟨.indexDirectory, pages2.length, noPage, directoryBytes (ts.map Index.root)⟩
  let sup : Page := ⟨.superblock, 0, noPage, superPayload ⟨generation, pages4.length, chainHead sch, chainHead rch,
    pages2.length, noPage, fields.length, rows.length⟩⟩
  have hdir4 : pages4[pages2.length]? = some ⟨.indexDirectory, pages2.length, noPage, []⟩ :=
    hg4.page (getElem?_append_new _ _)
  have hsup4 : pages4[0]? = some ⟨.superblock, 0, noPage, []⟩ :=
    ((hg1.trans hg2).trans (hg3.trans hg4)).page (by rfl : pages0[0]? = some _)
  have hpos : 0 < pages2.length := by have := hg1.le; have := hg2.le; simp only [pages0, List.length_singleton] at *; omega
  have hset5 : setPayload pages4 pages2.length (directoryBytes (ts.map Index.root)) = pages4.set pages2.length dir :=
    setPayload_eq hdir4 _
  have hsup5 : (pages4.set pages2.length dir)[0]? = some ⟨.superblock, 0, noPage, []⟩ := by
    rw [getElem?_set_other (by omega), hsup4]
  let pages := (pages4.set pages2.length dir).set 0 sup
  have hframe : ∀ i, i ≠ 0 → i ≠ pages2.length → pages[i]? = pages4[i]? := fun i h0 hd => by
    rw [getElem?_set_other h0, getElem?_set_other hd]
  have hlen : pages.length = pages4.length := by simp [pages]
  have hs : Sized pages := by
    have hdirlen : dir.payload.length ≤ pagePayloadSize := by
      have := hf.le
      have : maxFields = 64 := rfl
      have : pagePayloadSize = 4064 := rfl
      simp only [dir, length_directoryBytes, List.length_map]
      omega
    have hsuplen : sup.payload.length ≤ pagePayloadSize := by
      simp only [sup, length_superPayload]
      decide
    have hnext : noPage < 2 ^ 32 := by decide
    have h5 : Sized (pages4.set pages2.length dir) := hs4.set rfl hdirlen (Or.inl hnext)
    exact h5.set rfl hsuplen (Or.inl hnext)
  have hold : ∀ i, i ∈ newIds pages0 pages2 → i ≠ 0 ∧ i ≠ pages2.length := fun i hi => by
    have := mem_newIds.1 hi
    simp only [pages0, List.length_singleton] at this
    omega
  have hsch : sch.map Prod.fst = newIds pages0 pages1 := by rw [hids1, newIds_eq hlen1]
  have hrch : rch.map Prod.fst = newIds pages1 pages2 := by rw [hids2, newIds_eq hlen2]
  have hpartition : (0 :: (sch.map Prod.fst ++ rch.map Prod.fst ++ [pages2.length] ++ ts.flatMap Index.ids)).Perm
      (List.range pages.length) := by
    have hrange : List.range pages.length = 0 :: newIds pages0 pages4 := by
      have h1 := hg1.le
      have h2 := hg2.le
      have h4 := hg4.le
      have : pages.length = (pages4.length - 1) + 1 := by
        simp only [pages0, List.length_singleton] at h1; omega
      rw [List.range_eq_range', this, List.range'_succ]
      rfl
    have hone : [pages2.length] = newIds pages2 pages3 := by rw [newIds_eq hlen3]; rfl
    rw [hrange, ← newIds_join (hg1.trans (hg2.trans hg3)).le hg4.le, ← newIds_join (hg1.trans hg2).le hg3.le,
      ← newIds_join hg1.le hg2.le, ← hsch, ← hrch, ← hone]
    exact List.Perm.cons _ (hids4.append_left _)
  let L : Layout := ⟨generation, fields, rows, sch, rch, [(pages2.length, directoryBytes (ts.map Index.root))], ts⟩
  refine ⟨pages, L, ?_, hs, rfl, rfl, rfl, ⟨?_, pages2.length, [], rfl⟩, fun hbound hgen => ?_⟩
  · unfold buildPages
    rw [hv, encodeSchema_ok hf, encodeRows_ok hr]
    simp only [bind, Except.bind, pages0] at hrun1 ⊢
    simp only [hrun1, hrun2]
    simp only [pages3] at hrun4
    simp only [hrun4]
    rw [show (le 4 (ts.map Index.root).length ++ (ts.map Index.root).flatMap (le 4)) =
      directoryBytes (ts.map Index.root) from rfl, hset5, setPayload_eq hsup5]
    simp only [pure, Except.pure, List.length_set, pages, sup, superPayload]
  · cases rch with
    | nil => cases hhead2
    | cons c ch =>
      obtain rfl := Option.some.inj hhead2
      refine ⟨_, _, _, rfl, ?_⟩
      have : pagePayloadSize = 4064 := rfl
      simp only [rowStream, List.length_take, List.length_append, length_le]
      omega
  · have hnd : (rch.map Prod.fst).Nodup := by rw [hids2]; exact List.nodup_range'
    have hrows_at : ChainAt pages .rows rch :=
      (hat2.grow (hg3.trans hg4)).congr (fun i hi => by
        have hi' : i ∈ newIds pages0 pages2 := by
          rw [← newIds_join hg1.le hg2.le, ← hrch]
          exact List.mem_append_right _ hi
        exact hframe i (hold i hi').1 (hold i hi').2)
    exact {
      pages_ok := hs.pagesOk hbound
      length_lt := hbound
      generation_lt := hgen
      fields_ok := hf
      rows_ok := hr
      rows_le := rows_le_of_chain hs hbound hrows_at hbytes2 hnd
      super_at := by
        rw [hlen]
        exact getElem?_set_same hsup5
      schema_at := (hat1.grow (hg2.trans (hg3.trans hg4))).congr (fun i hi => by
        have hi' : i ∈ newIds pages0 pages2 := by
          rw [← newIds_join hg1.le hg2.le, ← hsch]
          exact List.mem_append_left _ hi
        exact hframe i (hold i hi').1 (hold i hi').2)
      schema_bytes := hbytes1
      rows_at := hrows_at
      rows_bytes := hbytes2
      directory_at := by
        refine ⟨?_, trivial⟩
        rw [getElem?_set_other (by omega)]
        exact getElem?_set_same hdir4
      directory_bytes := by
        simp only [L, chainBytes, List.flatMap_cons, List.flatMap_nil, List.append_nil]
        rfl
      trees_length := hts
      trees_at := fun field index hi => by
        have hlt := lt_of_getElem?_some hi
        have hat := (List.forall₂_iff_get.1 hats).2 field (by simpa [L, hts] using hlt) hlt
        obtain ⟨_, hget⟩ := List.getElem?_eq_some_iff.1 hi
        simp only [List.get_eq_getElem, List.getElem_range] at hat
        rw [hget] at hat
        refine hat.congr (fun i hii => ?_)
        have hmem := hids4.mem_iff.1 (List.mem_flatMap.2 ⟨index, List.mem_of_getElem? hi, hii⟩)
        have := mem_newIds.1 hmem
        exact hframe i (by omega) (by omega)
      partition := hpartition }

theorem encodePages_ok {pages : List Page} (h : Sized pages) : encodePages pages = .ok (imageOf pages) := by
  have hall : ∀ page ∈ pages, encodePage page = .ok (pageImage page) := fun page hp => by
    obtain ⟨i, hi⟩ := List.getElem?_of_mem hp
    exact encodePage_ok.2 ⟨(h i page hi).2.1, rfl⟩
  unfold encodePages
  rw [except_mapM_map hall]
  simp [bind, Except.bind, pure, Except.pure, imageOf, List.flatMap_def]

theorem encodePages_inv {pages : List Page} {bytes : Bytes} (h : encodePages pages = .ok bytes) :
    bytes = imageOf pages ∧ ∀ page ∈ pages, (pageImage page).length = pageSize := by
  unfold encodePages at h
  obtain ⟨encoded, h1, h2⟩ := except_bind_ok.1 h
  obtain rfl := Except.ok.inj h2
  have hall := except_mapM_ok.1 h1
  have hpage : ∀ page ∈ pages, page.payload.length ≤ pagePayloadSize := fun page hp => by
    obtain ⟨i, hi, rfl⟩ := List.getElem_of_mem hp
    exact (encodePage_ok.1 ((List.forall₂_iff_get.1 hall).2 i hi (hall.length_eq ▸ hi))).1
  have hmap : pages.mapM encodePage = .ok (pages.map pageImage) :=
    except_mapM_map (fun page hp => encodePage_ok.2 ⟨hpage page hp, rfl⟩)
  refine ⟨?_, fun page hp => length_pageImage (hpage page hp)⟩
  rw [h1] at hmap
  rw [Except.ok.inj hmap, imageOf, List.flatMap_def]

/-- **Full round trip**: `build_image` throws nothing on a table it accepts, and its image parses to that table, as long
as its pages can be numbered. -/
theorem buildImage_roundTrip {fields : List Bytes} {rows : List (List Bytes)} {generation : Nat}
    (hv : validateSchema fields rows = .ok ()) (hgen : generation < 2 ^ 64)
    (hcount : ∀ pages, buildPages fields rows generation = .ok pages → pages.length < 2 ^ 32) (walPresent : Bool) :
    ∃ image P, buildImage fields rows generation = .ok image ∧ parseImage image walPresent = .ok P ∧
      P.table.fields = fields ∧ P.table.rows = rows ∧ P.table.inspection.generation = generation ∧
      P.table.indexes = (List.range fields.length).map (sortedIndex rows) := by
  obtain ⟨pages, L, hrun, hs, rfl, rfl, rfl, -, hon⟩ := buildPages_spec hv generation
  have hL := hon (hcount pages hrun) hgen
  refine ⟨imageOf pages, L.parsed pages walPresent, ?_, parseImage_imageOf hL walPresent, rfl, rfl, rfl, rfl⟩
  unfold buildImage
  rw [hrun]
  simp only [bind, Except.bind, encodePages_ok hs]

theorem buildImage_roundTrip_onePages : ∃ image P, buildImage oneFields oneRows 1 = .ok image ∧
    parseImage image false = .ok P ∧ P.table.rows = oneRows ∧
      P.table.indexes = [[⟨[120], 0⟩, ⟨[121], 1⟩], [⟨[120], 0⟩, ⟨[120], 1⟩]] := by
  have hpages : (buildPages oneFields oneRows 1).toOption.map List.length = some 6 := by decide +kernel
  obtain ⟨image, P, h1, h2, -, h3, -, h4⟩ := buildImage_roundTrip
    (by decide : validateSchema oneFields oneRows = .ok ()) (by decide : 1 < 2 ^ 64) (fun pages h => by
      rw [h] at hpages
      have : pages.length = 6 := by simpa [Except.toOption] using hpages
      omega) false
  refine ⟨image, P, h1, h2, h3, ?_⟩
  rw [h4, show List.range oneFields.length = [0, 1] from rfl, List.map_cons, List.map_singleton, sortedIndex_oneRows.1,
    sortedIndex_oneRows.2]

end Storage
end Sql
