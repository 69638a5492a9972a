import SqlEngine.Accepted
/-!
# Growth — how many pages a table has

A page belongs to an index or it does not.  An index has less than two pages for each row (`length_ids_lt`); an insert
keeps the type of every page and adds at most two pages that belong to no index (`insertRowPages_plain`).  So a table
that the code made has pages in proportion to its rows (`Compact`), and below 2²⁴ rows no insert of a valid row fails for
want of page numbers (`insertRow_fits`).
-/
namespace Sql
namespace Storage

open Wire BTree Blocks Effects

def PageType.isIndex : PageType → Bool
  | indexLeaf | indexInternal => true
  | _ => false

/-- The pages that belong to no index. -/
def plainPages (pages : List Page) : Nat := (pages.map Page.type).countP (fun type => !type.isIndex)

/-! ## Pages keep their types -/

/-- Every page keeps its type, and the new ones have one of `S`. -/
def Extends (S : PageType → Prop) (pages pages' : List Page) : Prop :=
  ∃ new, pages'.map Page.type = pages.map Page.type ++ new ∧ ∀ type ∈ new, S type

section
variable {S : PageType → Prop} {pages pages' pages'' : List Page}

theorem Extends.refl (pages : List Page) : Extends S pages pages := ⟨[], (List.append_nil _).symm, by simp⟩

theorem Extends.trans (h : Extends S pages pages') (h' : Extends S pages' pages'') : Extends S pages pages'' := by
  obtain ⟨new, heq, hnew⟩ := h
  obtain ⟨new', heq', hnew'⟩ := h'
  refine ⟨new ++ new', by rw [heq', heq, List.append_assoc], fun type ht => ?_⟩
  exact (List.mem_append.1 ht).elim (hnew type) (hnew' type)

theorem Extends.mono {T : PageType → Prop} (h : Extends S pages pages') (hst : ∀ type, S type → T type) :
    Extends T pages pages' := by
  obtain ⟨new, heq, hnew⟩ := h
  exact ⟨new, heq, fun type ht => hst type (hnew type ht)⟩

theorem extends_set {i : Nat} {page page' : Page} (h : pages[i]? = some page) (htype : page'.type = page.type) :
    Extends S pages (pages.set i page') := by
  refine ⟨[], ?_, by simp⟩
  have hat : (pages.map Page.type)[i]? = some page.type := by rw [List.getElem?_map, h]; rfl
  obtain ⟨hlt, hget⟩ := List.getElem?_eq_some_iff.1 hat
  rw [List.append_nil, List.map_set, htype, ← hget, List.set_getElem_self]

theorem extends_modify {i : Nat} {f : Page → Page} (hf : ∀ page, (f page).type = page.type) :
    Extends S pages (pages.modify i f) := by
  refine ⟨[], ?_, by simp⟩
  rw [List.append_nil]
  refine List.ext_getElem? (fun j => ?_)
  rw [List.getElem?_map, List.getElem?_map, List.getElem?_modify]
  cases pages[j]? with
  | none => rfl
  | some page =>
    by_cases hij : i = j
    · simp [hij, hf]
    · simp [hij]

theorem extends_append {page : Page} (h : S page.type) : Extends S pages (pages ++ [page]) :=
  ⟨[page.type], by rw [List.map_append, List.map_singleton], fun type ht => List.mem_singleton.1 ht ▸ h⟩

abbrev OfIndex (type : PageType) : Prop := type.isIndex = true

/-- The pages of no index are those from before and perhaps the new ones. -/
theorem Extends.plain (h : Extends S pages pages') : plainPages pages' + pages.length ≤
    plainPages pages + pages'.length := by
  obtain ⟨new, heq, -⟩ := h
  have hlen := congrArg List.length heq
  rw [List.length_map, List.length_append, List.length_map] at hlen
  have hcount := List.countP_le_length (p := fun type : PageType => !type.isIndex) (l := new)
  rw [plainPages, heq, List.countP_append, ← plainPages]
  omega

theorem Extends.plain_index (h : Extends OfIndex pages pages') :
    plainPages pages' = plainPages pages := by
  obtain ⟨new, heq, hnew⟩ := h
  rw [plainPages, heq, List.countP_append, (List.countP_eq_zero (l := new)).2 (fun type ht => by simp [hnew type ht]),
    Nat.add_zero, plainPages]

end

/-! ## An insert -/

theorem relinkSibling_types {oldNext rightId : Nat} {w w' : Work} (h : relinkSibling oldNext rightId w = .ok w') :
    Extends OfIndex w.pages w'.pages := by
  unfold relinkSibling at h
  split_ifs at h with hnext
  · rw [← Except.ok.inj h]
    exact Extends.refl _
  · cases hpage : w.pages[oldNext]? with
    | none => rw [hpage] at h; cases h
    | some sibling =>
      rw [hpage] at h
      obtain ⟨_, -, h⟩ := except_bind_ok.1 h
      obtain ⟨payload, -, h⟩ := except_bind_ok.1 h
      rw [← Except.ok.inj h]
      exact extends_set hpage rfl

theorem insertLeafEntry_types {page : Page} {pageId : Nat} {entry : Entry} {w w' : Work} {split : Option NodeSplit}
    (hpage : w.pages[pageId]? = some page) (h : insertLeafEntry page pageId entry w = .ok (split, w')) :
    Extends OfIndex w.pages w'.pages := by
  unfold insertLeafEntry at h
  obtain ⟨leaf, -, h⟩ := except_bind_ok.1 h
  obtain ⟨_, -, h⟩ := except_bind_ok.1 h
  obtain ⟨payload, -, h⟩ := except_bind_ok.1 h
  split_ifs at h with hfits
  · obtain ⟨-, rfl⟩ := Prod.mk.inj (Except.ok.inj h)
    exact extends_set hpage rfl
  · obtain ⟨left, -, h⟩ := except_bind_ok.1 h
    obtain ⟨right, -, h⟩ := except_bind_ok.1 h
    obtain ⟨w1, hsibling, h⟩ := except_bind_ok.1 h
    obtain ⟨-, rfl⟩ := Prod.mk.inj (Except.ok.inj h)
    have hset : Extends OfIndex w.pages (w.pages.set pageId { page with next := w.pages.length, payload := left }) :=
      extends_set hpage rfl
    exact (hset.trans (extends_append rfl)).trans (relinkSibling_types hsibling)

theorem setPayload_types {S : PageType → Prop} (pages : List Page) (id : Nat) (payload : Bytes) :
    Extends S pages (setPayload pages id payload) := extends_modify (fun _ => rfl)

theorem insertChild_types {internal : InternalContents} {pageId childIndex : Nat} {split : NodeSplit} {w w' : Work}
    {result : Option NodeSplit} (h : insertChild internal pageId childIndex split w = .ok (result, w')) :
    Extends OfIndex w.pages w'.pages := by
  unfold insertChild at h
  obtain ⟨payload, -, h⟩ := except_bind_ok.1 h
  split_ifs at h with hfits
  · obtain ⟨-, rfl⟩ := Prod.mk.inj (Except.ok.inj h)
    exact setPayload_types _ _ _
  · obtain ⟨_, -, h⟩ := except_bind_ok.1 h
    obtain ⟨left, -, h⟩ := except_bind_ok.1 h
    obtain ⟨right, -, h⟩ := except_bind_ok.1 h
    obtain ⟨-, rfl⟩ := Prod.mk.inj (Except.ok.inj h)
    exact (setPayload_types _ _ _).trans (extends_append (S := OfIndex) rfl)

/-- **One entry into one tree** keeps every type. -/
theorem insertIndexEntry_types : ∀ (fuel : Nat) {pageId : Nat} {entry : Entry} {w w' : Work} {split : Option NodeSplit},
    insertIndexEntry fuel pageId entry w = .ok (split, w') → Extends OfIndex w.pages w'.pages
  | 0, _, _, _, _, _, h => by cases h
  | fuel + 1, pageId, entry, w, w', split, h => by
    rw [insertIndexEntry] at h
    cases hpage : w.pages[pageId]? with
    | none => rw [hpage] at h; cases h
    | some page =>
      simp only [hpage] at h
      split at h
      · exact insertLeafEntry_types hpage h
      · obtain ⟨internal, -, h⟩ := except_bind_ok.1 h
        obtain ⟨⟨below, w1⟩, hbelow, h⟩ := except_bind_ok.1 h
        have hstep := insertIndexEntry_types fuel hbelow
        cases below with
        | none =>
          obtain ⟨-, rfl⟩ := Prod.mk.inj (Except.ok.inj h)
          exact hstep
        | some below => exact hstep.trans (insertChild_types h)
      · cases h

theorem insertField_types {root root' : Nat} {entry : Entry} {w w' : Work} (h : insertField root entry w = .ok (root', w')) :
    Extends OfIndex w.pages w'.pages := by
  unfold insertField at h
  split_ifs at h with hroot
  · obtain ⟨payload, -, h⟩ := except_bind_ok.1 h
    obtain ⟨-, rfl⟩ := Prod.mk.inj (Except.ok.inj h)
    exact extends_append rfl
  · obtain ⟨⟨split, w1⟩, hinsert, h⟩ := except_bind_ok.1 h
    have hstep := insertIndexEntry_types _ hinsert
    cases split with
    | none =>
      obtain ⟨-, rfl⟩ := Prod.mk.inj (Except.ok.inj h)
      exact hstep
    | some split =>
      obtain ⟨oldRoot, -, h⟩ := except_bind_ok.1 h
      obtain ⟨level, -, h⟩ := except_bind_ok.1 h
      obtain ⟨payload, -, h⟩ := except_bind_ok.1 h
      obtain ⟨-, rfl⟩ := Prod.mk.inj (Except.ok.inj h)
      exact hstep.trans (extends_append (S := OfIndex) rfl)

theorem insertFields_types {directory : Nat} {row : List Bytes} {record : Nat} : ∀ {roots : List Nat} {field : Nat}
    {w w' : Work}, insertFields directory row record field roots w = .ok w' →
    Extends OfIndex w.pages w'.pages
  | [], field, w, w', h => by
    rw [← Except.ok.inj h]
    exact Extends.refl _
  | root :: roots, field, w, w', h => by
    rw [insertFields] at h
    obtain ⟨⟨root', w1⟩, hfield, h⟩ := except_bind_ok.1 h
    obtain ⟨page, hpage, h⟩ := except_bind_ok.1 h
    obtain ⟨payload, -, h⟩ := except_bind_ok.1 h
    refine (insertField_types hfield).trans (Extends.trans ?_ (insertFields_types h))
    exact extends_set (pageAt_ok hpage) rfl

/-- **The loop that appends a row** takes a page for each 4064 bytes that its first page has no room for. -/
theorem appendRow_types : ∀ (fuel : Nat) {rowPage : Nat} {bytes : Bytes} {w w' : Work} {page : Page},
    appendRow fuel rowPage bytes w = .ok w' → w.pages[rowPage]? = some page →
    Extends (fun _ => True) w.pages w'.pages ∧ w'.pages.length ≤ w.pages.length +
      (bytes.length - (pagePayloadSize - page.payload.length) + (pagePayloadSize - 1)) / pagePayloadSize
  | 0, _, _, _, _, _, h, _ => by cases h
  | fuel + 1, rowPage, bytes, w, w', page, h, hpage => by
    have hsize : pagePayloadSize = 4064 := rfl
    rw [appendRow] at h
    split_ifs at h with hempty
    · rw [← Except.ok.inj h]
      exact ⟨Extends.refl _, Nat.le_add_right _ _⟩
    · obtain ⟨target, htarget, h⟩ := except_bind_ok.1 h
      obtain rfl : page = target := Option.some.inj (hpage.symm.trans (pageAt_ok htarget))
      dsimp only at h
      split_ifs at h with hmore
      · -- the page is full: the rest goes into a new one
        obtain ⟨hext, hlen⟩ := @appendRow_types fuel _ _ _ _ ⟨.rows, w.pages.length, noPage, []⟩ h (by
          rw [List.getElem?_append_right (by rw [List.length_set]), List.length_set, Nat.sub_self]
          rfl)
        have hset : Extends (fun _ => True) w.pages (w.pages.set rowPage { page with
            next := w.pages.length
            payload := page.payload ++ bytes.take (min (pagePayloadSize - page.payload.length) bytes.length) }) :=
          extends_set hpage rfl
        refine ⟨(hset.trans (extends_append trivial)).trans hext, ?_⟩
        simp only [List.length_append, List.length_set, List.length_singleton, List.length_drop, List.length_nil, hsize]
          at hlen hmore ⊢
        omega
      · obtain rfl := Except.ok.inj h
        exact ⟨extends_set hpage rfl, by simp⟩

theorem appendRow_bound {fuel rowPage : Nat} {bytes : Bytes} {w w' : Work} (h : appendRow fuel rowPage bytes w = .ok w') :
    Extends (fun _ => True) w.pages w'.pages ∧
      w'.pages.length ≤ w.pages.length + (bytes.length + (pagePayloadSize - 1)) / pagePayloadSize := by
  cases fuel with
  | zero => cases h
  | succ fuel =>
    by_cases hempty : bytes = []
    · rw [appendRow, if_pos hempty] at h
      rw [← Except.ok.inj h]
      exact ⟨Extends.refl _, Nat.le_add_right _ _⟩
    · have hloop := h
      rw [appendRow, if_neg hempty] at h
      obtain ⟨page, hpage, -⟩ := except_bind_ok.1 h
      obtain ⟨hext, hlen⟩ := appendRow_types _ hloop (pageAt_ok hpage)
      have hdiv := Nat.div_le_div_right (c := pagePayloadSize)
        (Nat.add_le_add_right (Nat.sub_le bytes.length (pagePayloadSize - page.payload.length)) (pagePayloadSize - 1))
      exact ⟨hext, hlen.trans (Nat.add_le_add_left hdiv _)⟩

theorem length_rowBytes_le {n : Nat} {row : List Bytes} (h : RowOk n row) : (rowBytes row).length ≤ 4 + 102 * n := by
  have hvalues : ∀ values : List Bytes, (∀ v ∈ values, v.length ≤ maxValueLength) →
      (values.flatMap (putBlob 2)).length ≤ 102 * values.length := by
    intro values
    induction values with
    | nil => exact fun _ => Nat.le_refl _
    | cons v values ih =>
      intro hv
      have hmax : maxValueLength = 100 := rfl
      have hhead := hv v List.mem_cons_self
      have hrest := ih (fun v' hv' => hv v' (List.mem_cons_of_mem v hv'))
      rw [List.flatMap_cons, List.length_append, length_putBlob, List.length_cons]
      omega
  have hrow := hvalues row h.value_le
  rw [h.arity] at hrow
  rw [rowBytes, List.length_append, length_le]
  omega

/-- A row takes two new pages at most. -/
theorem insertRowChain_types {rowsHead n rowCount : Nat} {row : List Bytes} {w w' : Work} (hrow : RowOk n row)
    (hn : n ≤ maxFields) (h : insertRowChain rowsHead n rowCount row w = .ok w') :
    Extends (fun _ => True) w.pages w'.pages ∧ w'.pages.length ≤ w.pages.length + 2 := by
  unfold insertRowChain at h
  cases hhead : w.pages[rowsHead]? with
  | none => rw [hhead] at h; cases h
  | some head =>
    rw [hhead] at h
    obtain ⟨_, -, h⟩ := except_bind_ok.1 h
    obtain ⟨payload, -, h⟩ := except_bind_ok.1 h
    obtain ⟨values, hvalues, h⟩ := except_bind_ok.1 h
    obtain rfl := Except.ok.inj ((appendStrings_ok hrow.value_le).symm.trans hvalues)
    obtain ⟨rowPage, -, h⟩ := except_bind_ok.1 h
    have hset : Extends (fun _ => True) w.pages (w.pages.set rowsHead { head with payload := payload }) :=
      extends_set hhead rfl
    have hlen : (le 4 n ++ row.flatMap (putBlob 2)).length ≤ 4 + 102 * n := by
      rw [← hrow.arity]
      exact length_rowBytes_le ⟨rfl, hrow.value_le⟩
    have hmax : maxFields = 64 := rfl
    have hsize : pagePayloadSize = 4064 := rfl
    obtain ⟨hext, hgrow⟩ := appendRow_bound h
    refine ⟨hset.trans hext, hgrow.trans ?_⟩
    simp only [List.length_set, hsize]
    omega

theorem insertDirectory_types {directory n rowCount : Nat} {row : List Bytes} {w w' : Work}
    (h : insertDirectory directory n rowCount row w = .ok w') : Extends OfIndex w.pages w'.pages := by
  unfold insertDirectory at h
  cases hhead : w.pages[directory]? with
  | none => rw [hhead] at h; cases h
  | some head =>
    rw [hhead] at h
    obtain ⟨_, -, h⟩ := except_bind_ok.1 h
    obtain ⟨roots, -, h⟩ := except_bind_ok.1 h
    obtain ⟨w1, hfields, h⟩ := except_bind_ok.1 h
    rw [← Except.ok.inj h]
    have hext := insertFields_types hfields
    exact hext

theorem updateSuperblock_types {generation rowCount : Nat} {w w' : Work}
    (h : updateSuperblock generation rowCount w = .ok w') :
    Extends OfIndex w.pages w'.pages ∧ w'.pages.length = w.pages.length := by
  unfold updateSuperblock at h
  obtain ⟨super, hsuper, h⟩ := except_bind_ok.1 h
  obtain ⟨payload, -, h⟩ := except_bind_ok.1 h
  obtain ⟨payload', -, h⟩ := except_bind_ok.1 h
  obtain ⟨payload'', -, h⟩ := except_bind_ok.1 h
  obtain rfl := Except.ok.inj h
  exact ⟨extends_set (pageAt_ok hsuper) rfl, by simp⟩

/-- **An insert adds two pages of no index at most.** -/
theorem insertRowPages_plain {L : Layout} {pages : List Page} {row : List Bytes} {w : Work} (h : L.On pages)
    (hrow : RowOk L.fields.length row) (hgen : L.generation + 1 < 2 ^ 64)
    (hrun : insertRowPages (L.parsed pages false) row = .ok w) : plainPages w.pages ≤ plainPages pages + 2 := by
  rw [insertRowPages_run h hrow hgen] at hrun
  obtain ⟨w1, hchain, hrun⟩ := except_bind_ok.1 hrun
  obtain ⟨w2, hdirectory, hsuper⟩ := except_bind_ok.1 hrun
  obtain ⟨hext, hlen⟩ := insertRowChain_types hrow h.fields_ok.le hchain
  have hplain := hext.plain
  dsimp only at hlen hplain
  rw [(updateSuperblock_types hsuper).1.plain_index, (insertDirectory_types hdirectory).plain_index]
  omega

/-! ## Indexes -/

theorem IndexAt.length_le {pages : List Page} {rows : List (List Bytes)} {field : Nat} {t : Index}
    (h : IndexAt pages rows field t) : t.ids.length ≤ 2 * rows.length := by
  match t, h with
  | none, _ => exact Nat.zero_le _
  | some ⟨n, t⟩, ⟨hfull, _, _, hentries⟩ =>
    obtain ⟨hinner, hleaves⟩ := length_ids_lt n t hfull
    rw [hentries, length_sortedIndex] at hleaves
    rw [Index.ids, ids, List.length_append, List.length_map]
    omega

/-- **The new pages of the indexes of some fields**: a tree that has taken the row has less than two pages for each row. -/
theorem insertFields_growth {rows : List (List Bytes)} {row : List Bytes} {n directory : Nat} (hrows : ∀ r ∈ rows, RowOk n r)
    (hle : rows.length ≤ rowsMaxSize) (hrow : RowOk n row) : ∀ (trees : List Index) (field : Nat) {w w' : Work},
    Sized w.pages → (∀ i index, trees[i]? = some index → IndexAt w.pages rows (field + i) index) →
    (trees.flatMap Index.ids).Nodup → (∀ i ∈ trees.flatMap Index.ids, i < noPage) → directory ∉ trees.flatMap Index.ids →
    insertFields directory row rows.length field (trees.map Index.root) w = .ok w' →
    w'.pages.length + (trees.flatMap Index.ids).length ≤ w.pages.length + trees.length * (2 * (rows.length + 1))
  | [], field, w, w', _, _, _, _, _, h => by
    rw [← Except.ok.inj h]
    simp
  | t :: trees, field, w, w', hs, hat, hnd, hlt, hfresh, h => by
    rw [List.flatMap_cons, List.nodup_append] at hnd
    obtain ⟨hnd1, hnd2, hdisj⟩ := hnd
    simp only [List.flatMap_cons, List.mem_append, not_or] at hlt hfresh
    have htree : ∀ i index, trees[i]? = some index → IndexAt w.pages rows (field + 1 + i) index := fun i index hi => by
      rw [Nat.add_assoc, Nat.add_comm 1]
      exact hat (i + 1) index (by simpa using hi)
    obtain ⟨t', w1, hrun, hle1, hs1, hat1, hperm1, hframe1⟩ := insertField_spec hs hrows hle hrow (hat 0 t rfl) hnd1
      (fun i hi => hlt i (Or.inl hi))
    rw [Nat.add_zero] at hrun hat1
    rw [List.map_cons, insertFields] at h
    obtain ⟨⟨root, w1'⟩, hfield, h⟩ := except_bind_ok.1 h
    obtain ⟨-, rfl⟩ := Prod.mk.inj (Except.ok.inj (hrun.symm.trans hfield))
    obtain ⟨page, hpage, h⟩ := except_bind_ok.1 h
    obtain ⟨payload, hpayload, h⟩ := except_bind_ok.1 h
    have hpage := pageAt_ok hpage
    -- the root is written over four bytes of the directory
    have hwritten : payload.length = page.payload.length := by
      unfold writeU32 at hpayload
      obtain ⟨_, hroom, hpayload⟩ := except_bind_ok.1 hpayload
      have hroom := throwIf_ok.1 hroom
      rw [← Except.ok.inj hpayload, patch]
      simp only [List.length_append, List.length_take, List.length_drop, length_le]
      omega
    have hs2 : Sized (w1.pages.set directory { page with payload := payload }) :=
      hs1.set (hs1 _ _ hpage).1 (by rw [hwritten]; exact (hs1 _ _ hpage).2.1) (hs1 _ _ hpage).2.2
    have hkept : ∀ i index, trees[i]? = some index →
        IndexAt (w1.pages.set directory { page with payload := payload }) rows (field + 1 + i) index := fun i index hi =>
      (htree i index hi).congr (fun j hj => by
        have hmem : j ∈ trees.flatMap Index.ids := List.mem_flatMap.2 ⟨index, List.mem_of_getElem? hi, hj⟩
        rw [getElem?_set_other (fun heq : j = directory => hfresh.2 (heq ▸ hmem)),
          hframe1 j ((htree i index hi).lt j hj) (fun hm => hdisj j hm j hmem rfl) (Nat.ne_of_lt (hlt j (Or.inr hmem)))])
    have hrest := insertFields_growth hrows hle hrow trees (field + 1) hs2 hkept hnd2
      (fun i hi => hlt i (Or.inr hi)) hfresh.2 h
    have hsize := hat1.length_le
    rw [hperm1.length_eq, List.length_append, newIds, List.length_range', List.length_append, List.length_singleton] at hsize
    rw [List.length_set] at hrest
    rw [List.flatMap_cons, List.length_append, List.length_cons, Nat.succ_mul]
    omega

/-! ## A whole table -/

def typeAt (pages : List Page) (i : Nat) : PageType := ((pages[i]?).map Page.type).getD .superblock

theorem plainPages_range (pages : List Page) :
    plainPages pages = (List.range pages.length).countP (fun i => !(typeAt pages i).isIndex) := by
  have htypes : pages.map Page.type = (List.range pages.length).map (typeAt pages) := by
    refine List.ext_getElem (by simp) (fun i h1 h2 => ?_)
    rw [List.length_map] at h1
    rw [List.getElem_map, List.getElem_map, List.getElem_range, typeAt, List.getElem?_eq_getElem h1]
    rfl
  rw [plainPages, htypes, List.countP_map]
  rfl

theorem ChainAt.typeAt {pages : List Page} {type : PageType} : ∀ {chain : List (Nat × Bytes)}, ChainAt pages type chain →
    ∀ i ∈ chain.map Prod.fst, typeAt pages i = type
  | (id, payload) :: chain, ⟨hpage, hchain⟩, i, hi => by
    rcases List.mem_cons.1 hi with rfl | hi
    · rw [Storage.typeAt, hpage]
      rfl
    · exact hchain.typeAt i hi

/-- **A page of a table is of no index, or of a tree.** -/
theorem Layout.On.length_le {L : Layout} {pages : List Page} (h : L.On pages) :
    pages.length ≤ plainPages pages + (L.trees.flatMap Index.ids).length := by
  have hzero : typeAt pages 0 = .superblock := by rw [typeAt, h.super_at]; rfl
  have hfront : ∀ i ∈ 0 :: (L.schema.map Prod.fst ++ L.rowChain.map Prod.fst ++ L.directory.map Prod.fst),
      (!(typeAt pages i).isIndex) = true := fun i hi => by
    simp only [List.mem_cons, List.mem_append] at hi
    rcases hi with rfl | (hi | hi) | hi
    · rw [hzero]; rfl
    · rw [h.schema_at.typeAt i hi]; rfl
    · rw [h.rows_at.typeAt i hi]; rfl
    · rw [h.directory_at.typeAt i hi]; rfl
  have hlen := h.partition.length_eq
  have hcount := h.partition.countP_eq (fun i => !(typeAt pages i).isIndex)
  rw [List.length_range] at hlen
  rw [Layout.ids, ← List.cons_append, List.countP_append, List.countP_eq_length.2 hfront, ← plainPages_range] at hcount
  rw [Layout.ids, ← List.cons_append, List.length_append] at hlen
  omega

theorem length_flatMap_ids {pages : List Page} {rows : List (List Bytes)} : ∀ {trees : List Index} {field : Nat},
    (∀ i index, trees[i]? = some index → IndexAt pages rows (field + i) index) →
    (trees.flatMap Index.ids).length ≤ trees.length * (2 * rows.length)
  | [], _, _ => Nat.zero_le _
  | t :: trees, field, h => by
    have hhead := (h 0 t rfl).length_le
    have hrest := @length_flatMap_ids _ _ trees (field + 1) (fun i index hi => by
      rw [Nat.add_assoc, Nat.add_comm 1]
      exact h (i + 1) index (by simpa using hi))
    rw [List.flatMap_cons, List.length_append, List.length_cons, Nat.succ_mul]
    omega

/-- The pages of no index are in proportion to the rows. -/
def Compact (image : Bytes) : Prop := ∀ P, parseImage image false = .ok P → plainPages P.pages ≤ 2 * P.table.rows.length + 5

/-- **The pages of an insert can be numbered** below 2²⁴ rows. -/
theorem insertRowPages_small {L : Layout} {pages : List Page} {row : List Bytes} {w : Work} (h : L.On pages)
    (hins : L.Insertable) (hrow : RowOk L.fields.length row) (hgen : L.generation + 1 < 2 ^ 64)
    (hplain : plainPages pages ≤ 2 * L.rows.length + 5) (hrows : L.rows.length < 2 ^ 24)
    (hrun : insertRowPages (L.parsed pages false) row = .ok w) : w.pages.length < 2 ^ 32 := by
  have hap := h.apart
  obtain ⟨directory, others, hdir, -, -, -, hdirat⟩ := h.directory_front hins
  have hlt : ∀ i ∈ L.trees.flatMap Index.ids, i < pages.length := fun i hi => (hap.lt i (by
    simp only [Layout.ids, List.mem_cons, List.mem_append]
    exact Or.inr (Or.inr hi))).1
  have hdmem : directory ∈ L.directory.map Prod.fst := by rw [hdir]; simp
  have hcount : L.roots.length = L.fields.length := by rw [Layout.roots, List.length_map, h.trees_length]
  have hmax : maxFields = 64 := rfl
  have hfields := h.fields_ok.le
  rw [insertRowPages_run h hrow hgen] at hrun
  obtain ⟨w1, hchain, hrun⟩ := except_bind_ok.1 hrun
  obtain ⟨w2, hdirectory, hsuper⟩ := except_bind_ok.1 hrun
  -- the rows, then the indexes from what the rows left
  obtain ⟨rowChain', w1', hchain', hle1, hs1, -, -, -, -, -, hframe1⟩ := insertRowChain_spec
    (w := ⟨pages, ∅⟩) h.pages_ok.sized hrow h.rows_at h.rows_bytes hap.rows_nodup
    (fun i hi => (hap.lt i (by simp only [Layout.ids, List.mem_cons, List.mem_append]; tauto)).2) hins.row_head
  obtain rfl := Except.ok.inj (hchain'.symm.trans hchain)
  have hlen1 := (insertRowChain_types hrow h.fields_ok.le hchain).2
  dsimp only at hle1 hframe1 hlen1
  have hdirpage : w1'.pages[directory]? = some ⟨.indexDirectory, directory, chainHead others, directoryBytes L.roots⟩ := by
    rw [hframe1 directory (hap.lt directory (by simp only [Layout.ids, List.mem_cons, List.mem_append]; tauto)).1
      (fun hm => (hap.rows directory hm).1 hdmem)]
    exact hdirat
  have htrees1 : ∀ i index, L.trees[i]? = some index → IndexAt w1'.pages L.rows (0 + i) index := fun i index hi => by
    rw [Nat.zero_add]
    refine (h.trees_at i index hi).congr (fun j hj => ?_)
    have hj' : j ∈ L.trees.flatMap Index.ids := List.mem_flatMap.2 ⟨index, List.mem_of_getElem? hi, hj⟩
    exact hframe1 j (hlt j hj') (fun hm => (hap.rows j hm).2 hj')
  rw [show chainHead L.directory = directory by rw [hdir]; rfl] at hdirectory
  have hlast : ∀ i ∈ L.trees.flatMap Index.ids, i < noPage := fun i hi => (hap.lt i (by
    simp only [Layout.ids, List.mem_cons, List.mem_append]
    exact Or.inr (Or.inr hi))).2
  have hdlast : directory < noPage :=
    (hap.lt directory (by simp only [Layout.ids, List.mem_cons, List.mem_append]; tauto)).2
  obtain ⟨trees', w2', hfields2, -⟩ := insertFields_spec h.rows_ok h.rows_le hrow hdlast L.trees [] w1' hs1
    (by simpa [h.trees_length] using hfields) htrees1 hap.trees_nodup hlast (hap.directory directory hdmem) hdirpage
  have hdirectory' := insertDirectory_run hdirpage (by omega) h.roots_lt hfields2
  rw [hcount] at hdirectory'
  obtain rfl := Except.ok.inj (hdirectory'.symm.trans hdirectory)
  have hgrowth := insertFields_growth h.rows_ok h.rows_le hrow L.trees 0 hs1 htrees1 hap.trees_nodup hlast
    (hap.directory directory hdmem) hfields2
  have hlen := h.length_le
  rw [(updateSuperblock_types hsuper).2]
  have hproduct : L.trees.length * (2 * (L.rows.length + 1)) ≤ 64 * (2 * (L.rows.length + 1)) :=
    Nat.mul_le_mul_right _ (by rw [h.trees_length]; omega)
  dsimp only
  omega

/-! ## A new table -/

theorem linkLast_types {S : PageType → Prop} (type : PageType) (first next : Nat) (pages : List Page) :
    Extends S pages (linkLast type first next pages) := by
  unfold linkLast
  cases hlast : pages.getLast? with
  | none => exact Extends.refl _
  | some back =>
    simp only
    split_ifs
    · refine ⟨[], ?_, by simp⟩
      obtain ⟨front, rfl⟩ := List.getLast?_eq_some_iff.1 hlast
      simp
    · exact Extends.refl _

theorem Extends.length_eq {S : PageType → Prop} {pages pages' : List Page} (h : Extends S pages pages') :
    pages.length ≤ pages'.length := by
  obtain ⟨new, heq, -⟩ := h
  have hlen := congrArg List.length heq
  rw [List.length_map, List.length_append, List.length_map] at hlen
  omega

theorem length_linkLast (type : PageType) (first next : Nat) (pages : List Page) :
    (linkLast type first next pages).length = pages.length := by
  unfold linkLast
  cases hlast : pages.getLast? with
  | none => rfl
  | some back =>
    simp only
    obtain ⟨front, rfl⟩ := List.getLast?_eq_some_iff.1 hlast
    split_ifs <;> simp

/-- A chain has a page for each 4064 bytes, and at least one. -/
theorem addChainPages_types (type : PageType) (first : Nat) : ∀ (bytes : Bytes) (pages : List Page),
    Extends (fun _ => True) pages (addChainPages type first pages bytes) ∧
      (addChainPages type first pages bytes).length ≤ pages.length + (bytes.length + (pagePayloadSize - 1)) / pagePayloadSize
  | bytes, pages => by
    have hsize : pagePayloadSize = 4064 := rfl
    rw [addChainPages]
    by_cases hempty : bytes = []
    · rw [dif_pos hempty]
      exact ⟨Extends.refl _, Nat.le_add_right _ _⟩
    · rw [dif_neg hempty]
      have hpos := List.length_pos_iff.2 hempty
      obtain ⟨hext, hlen⟩ := addChainPages_types type first (bytes.drop pagePayloadSize)
        (linkLast type first pages.length pages ++ [⟨type, pages.length, noPage, bytes.take pagePayloadSize⟩])
      refine ⟨((linkLast_types type first pages.length pages).trans (extends_append trivial)).trans hext, hlen.trans ?_⟩
      simp only [List.length_append, length_linkLast, List.length_singleton, List.length_drop, hsize]
      omega
termination_by bytes => bytes.length
decreasing_by
  have := List.length_pos_iff.2 hempty
  have : pagePayloadSize = 4064 := rfl
  simp only [List.length_drop]
  omega

theorem addChain_types (pages : List Page) (type : PageType) (bytes : Bytes) :
    Extends (fun _ => True) pages (addChain pages type bytes).2 ∧
      (addChain pages type bytes).2.length ≤ pages.length + (bytes.length / pagePayloadSize + 1) := by
  have hsize : pagePayloadSize = 4064 := rfl
  unfold addChain
  by_cases hempty : bytes = []
  · rw [if_pos hempty]
    exact ⟨extends_append trivial, by simp [hempty]⟩
  · rw [if_neg hempty]
    obtain ⟨hext, hlen⟩ := addChainPages_types type pages.length bytes pages
    refine ⟨hext, hlen.trans ?_⟩
    rw [hsize]
    omega

theorem buildLeaves_types : ∀ {entries : List Entry} {pages pages' : List Page} {level : List ChildDescriptor},
    buildLeaves pages entries = .ok (level, pages') → Extends OfIndex pages pages'
  | [], pages, pages', level, h => by
    rw [buildLeaves] at h
    rw [(Prod.mk.inj (Except.ok.inj h)).2]
    exact Extends.refl _
  | first :: others, pages, pages', level, h => by
    rw [buildLeaves] at h
    split at h
    · cases h
    · rename_i payload count rest hfill
      split_ifs at h with hcount
      obtain ⟨⟨level', pages1⟩, hrest, h⟩ := except_bind_ok.1 h
      obtain ⟨-, rfl⟩ := Prod.mk.inj (Except.ok.inj h)
      refine Extends.trans (extends_append ?_) (buildLeaves_types hrest)
      rfl
termination_by entries => entries.length
decreasing_by
  have := fillLeaf_length ‹fillLeaf _ _ _ = _›
  simp only [List.length_cons] at this ⊢
  omega

theorem relinkLeaves_types {S : PageType → Prop} : ∀ {positions : List Nat} (pages : List Page) (previous : Nat),
    Extends S pages (relinkLeaves pages previous positions)
  | [], pages, previous => Extends.refl _
  | position :: positions, pages, previous => by
    rw [relinkLeaves]
    refine Extends.trans (extends_modify ?_) (relinkLeaves_types _ _)
    exact fun _ => rfl

theorem buildParents_types : ∀ {level : List ChildDescriptor} {pages pages' : List Page} {parents : List ChildDescriptor},
    buildParents pages level = .ok (parents, pages') → Extends OfIndex pages pages'
  | [], pages, pages', parents, h => by
    rw [buildParents] at h
    rw [(Prod.mk.inj (Except.ok.inj h)).2]
    exact Extends.refl _
  | first :: others, pages, pages', parents, h => by
    rw [buildParents] at h
    split at h
    · cases h
    obtain ⟨separators, -, h⟩ := except_bind_ok.1 h
    obtain ⟨⟨parents', pages1⟩, hrest, h⟩ := except_bind_ok.1 h
    obtain ⟨-, rfl⟩ := Prod.mk.inj (Except.ok.inj h)
    refine Extends.trans (extends_append ?_) (buildParents_types hrest)
    rfl
termination_by level => level.length
decreasing_by
  simp only [List.length_cons, List.length_drop]
  omega

theorem buildLevels_types : ∀ {level : List ChildDescriptor} {pages pages' : List Page} {root : Nat},
    buildLevels pages level = .ok (root, pages') → Extends OfIndex pages pages'
  | [], pages, pages', root, h => by
    rw [buildLevels] at h
    cases h
  | [top], pages, pages', root, h => by
    rw [buildLevels] at h
    rw [(Prod.mk.inj (Except.ok.inj h)).2]
    exact Extends.refl _
  | first :: second :: others, pages, pages', root, h => by
    rw [buildLevels] at h
    split at h
    · cases h
    · rename_i parents pages1 hparents
      exact (buildParents_types hparents).trans (buildLevels_types h)
termination_by level => level.length
decreasing_by
  have := buildParents_length _ _ ‹buildParents _ _ = _›
  simp only [List.length_cons] at this ⊢
  omega

theorem buildIndexes_types {rows : List (List Bytes)} : ∀ {fields : List Nat} {pages pages' : List Page} {roots : List Nat},
    buildIndexes pages rows fields = .ok (roots, pages') → Extends OfIndex pages pages'
  | [], pages, pages', roots, h => by
    rw [buildIndexes] at h
    rw [(Prod.mk.inj (Except.ok.inj h)).2]
    exact Extends.refl _
  | field :: fields, pages, pages', roots, h => by
    rw [buildIndexes] at h
    obtain ⟨⟨root, pages1⟩, hindex, h⟩ := except_bind_ok.1 h
    obtain ⟨⟨roots', pages2⟩, hrest, h⟩ := except_bind_ok.1 h
    obtain ⟨-, rfl⟩ := Prod.mk.inj (Except.ok.inj h)
    refine Extends.trans ?_ (buildIndexes_types hrest)
    unfold buildIndex at hindex
    split_ifs at hindex with hentries
    · rw [(Prod.mk.inj (Except.ok.inj hindex)).2]
      exact Extends.refl _
    · obtain ⟨⟨level, pages3⟩, hleaves, hlevels⟩ := except_bind_ok.1 hindex
      exact ((buildLeaves_types hleaves).trans (relinkLeaves_types _ _)).trans (buildLevels_types hlevels)

theorem length_schemaBytes_le {fields : List Bytes} (h : FieldsOk fields) :
    (schemaBytes fields).length ≤ 4 + 102 * fields.length :=
  length_rowBytes_le ⟨rfl, h.name_le⟩

theorem length_rowStream_le {n : Nat} {rows : List (List Bytes)} (h : ∀ r ∈ rows, RowOk n r) :
    (rowStream rows).length ≤ 8 + rows.length * (4 + 102 * n) := by
  have hrows : (rows.flatMap rowBytes).length ≤ rows.length * (4 + 102 * n) := by
    induction rows with
    | nil => exact Nat.zero_le _
    | cons row rows ih =>
      have hhead := length_rowBytes_le (h row List.mem_cons_self)
      have hrest := ih (fun r hr => h r (List.mem_cons_of_mem row hr))
      rw [List.flatMap_cons, List.length_append, List.length_cons, Nat.succ_mul]
      omega
  rw [rowStream, List.length_append, length_le]
  omega

/-- **The pages of a new table**: those of no index and those of an index, in proportion to the rows. -/
theorem buildPages_small {fields : List Bytes} {rows : List (List Bytes)} {generation : Nat} {pages : List Page}
    (hv : validateSchema fields rows = .ok ()) (hrun : buildPages fields rows generation = .ok pages) :
    plainPages pages ≤ 2 * rows.length + 5 ∧ (rows.length < 2 ^ 24 → pages.length < 2 ^ 32) := by
  obtain ⟨hf, hr⟩ := validateSchema_ok.1 hv
  have hmax : maxFields = 64 := rfl
  have hsize : pagePayloadSize = 4064 := rfl
  have hfields := hf.le
  unfold buildPages at hrun
  obtain ⟨_, -, hrun⟩ := except_bind_ok.1 hrun
  obtain ⟨schema, hschema, hrun⟩ := except_bind_ok.1 hrun
  obtain rfl := Except.ok.inj ((encodeSchema_ok hf).symm.trans hschema)
  have hs0 : Sized [⟨.superblock, 0, noPage, []⟩] := fun i page hp => by
    have hi := lt_of_getElem?_some hp
    obtain rfl : i = 0 := by simpa using hi
    obtain rfl := Option.some.inj hp
    exact ⟨rfl, by decide, Or.inl (by decide)⟩
  obtain ⟨sch, pages1, hrun1, -, hs1, -⟩ := addChain_spec hs0 .schema (schemaBytes fields)
  obtain ⟨hext1, hlen1⟩ := addChain_types [⟨.superblock, 0, noPage, []⟩] .schema (schemaBytes fields)
  rw [hrun1] at hrun hext1 hlen1
  obtain ⟨rowData, hrowData, hrun⟩ := except_bind_ok.1 hrun
  obtain rfl := Except.ok.inj ((encodeRows_ok hr).symm.trans hrowData)
  obtain ⟨rch, pages2, hrun2, -, hs2, -⟩ := addChain_spec hs1 .rows (rowStream rows)
  obtain ⟨hext2, hlen2⟩ := addChain_types pages1 .rows (rowStream rows)
  rw [hrun2] at hrun hext2 hlen2
  dsimp only at hlen1 hlen2 hext1 hext2 hrun
  have hs3 : Sized (pages2 ++ [⟨.indexDirectory, pages2.length, noPage, []⟩]) :=
    hs2.append rfl (by simp) (Or.inl (by decide : noPage < 2 ^ 32))
  obtain ⟨ts, pages4, hrun4, hg4, -, hats, hids⟩ := buildIndexes_spec hr (List.range fields.length) _ hs3
  obtain ⟨⟨roots, pages4'⟩, hindexes, hrun⟩ := except_bind_ok.1 hrun
  obtain ⟨rfl, rfl⟩ := Prod.mk.inj (Except.ok.inj (hrun4.symm.trans hindexes))
  obtain rfl := Except.ok.inj hrun
  have hext4 := buildIndexes_types hindexes
  have hext3 : Extends (fun _ => True) pages2 (pages2 ++ [⟨.indexDirectory, pages2.length, noPage, []⟩]) :=
    extends_append trivial
  have hset : ∀ payload payload' : Bytes, Extends OfIndex pages4
      (setPayload (setPayload pages4 pages2.length payload) 0 payload') := fun payload payload' =>
    (setPayload_types _ _ _).trans (setPayload_types _ _ _)
  have hplain4 := hext4.plain_index
  have hplain3 := ((hext1.trans hext2).trans hext3).plain
  have hplain0 : plainPages [⟨.superblock, 0, noPage, []⟩] = 1 := rfl
  have hschemaLen := length_schemaBytes_le hf
  have hrowsLen := length_rowStream_le hr
  have hcolumns : rows.length * (4 + 102 * fields.length) ≤ rows.length * 6532 := Nat.mul_le_mul_left _ (by omega)
  -- every tree is on its own pages
  have htrees : (ts.flatMap Index.ids).length ≤ ts.length * (2 * rows.length) := by
    refine @length_flatMap_ids pages4 _ _ 0 (fun i index hi => ?_)
    rw [Nat.zero_add]
    obtain ⟨hlt, hget⟩ := List.getElem?_eq_some_iff.1 hi
    have hat := (List.forall₂_iff_get.1 hats).2 i (by rw [hats.length_eq]; exact hlt) hlt
    rw [List.get_eq_getElem, List.get_eq_getElem, List.getElem_range, hget] at hat
    exact hat
  have hcount : ts.length = fields.length := by simpa using hats.length_eq.symm
  have hproduct : ts.length * (2 * rows.length) ≤ 64 * (2 * rows.length) := Nat.mul_le_mul_right _ (by omega)
  have hle4 := hg4.le
  rw [hids.length_eq, newIds, List.length_range'] at htrees
  simp only [List.length_append, List.length_singleton] at hplain3 hle4 htrees hlen1
  rw [hsize] at hlen1 hlen2
  refine ⟨?_, fun hrows => ?_⟩
  · rw [(hset _ _).plain_index, hplain4]
    omega
  · simp only [setPayload, List.length_modify]
    omega

/-! ## Tables that never run out of pages -/

/-- The log is empty and the database is the table, in few pages. -/
def Tidy (disk : Disk) (fields : List Bytes) (rows : List (List Bytes)) (generation : Nat) : Prop :=
  walPresent disk = false ∧ ∃ image, disk.database = some image ∧ Written image fields rows generation ∧ Compact image

section
variable {fields : List Bytes} {rows : List (List Bytes)} {row : List Bytes} {generation : Nat} {disk : Disk} {path : String}

theorem Tidy.clean (h : Tidy disk fields rows generation) : Clean disk fields rows generation := by
  obtain ⟨hwal, image, hdb, hw, -⟩ := h
  exact ⟨hwal, image, hdb, hw⟩

theorem Layout.On.compact {L : Layout} {pages : List Page} (h : L.On pages)
    (hplain : plainPages pages ≤ 2 * L.rows.length + 5) : Compact (imageOf pages) := fun P hP => by
  obtain rfl := Except.ok.inj ((parseImage_imageOf h false).symm.trans hP)
  exact hplain

/-- A commit of the pages of an insert leaves their image in the database, and nothing in the log. -/
theorem commitImage_pages {L L' : Layout} {pages : List Page} {w : Work} (hL : L.On pages) (hL' : L'.On w.pages)
    (hrun : insertRowPages (L.parsed pages false) row = .ok w) (hdb : disk.database = some (imageOf pages)) :
    (commitImage (imageOf w.pages) generation w.dirty disk).result = .ok () ∧
      after disk (commitImage (imageOf w.pages) generation w.dirty disk).effects = ⟨some (imageOf w.pages), some []⟩ := by
  have htracks := insertRowPages_tracks hrun
  have hpages' := hL'.pages_ok.length_pageImage
  have hlt : ∀ id ∈ w.dirty, id < w.pages.length := fun id hid => (htracks.bound id hid).resolve_left (by simp)
  obtain ⟨buffer, hmake, himage, hdirty⟩ := PageBuffer.make_ok hL'.pages_ok (lt_of_getElem?_some hL'.super_at)
    hL'.length_lt hlt
  rw [if_neg (Finset.ne_empty_of_mem (insertRowPages_zero hrun))] at hdirty
  have hbound := hL'.length_lt
  have hsize : pageSize = 4096 := rfl
  have hoff : offsetMax = 2 ^ 63 - 1 := rfl
  have hlen : (imageOf w.pages).length ≤ offsetMax := by rw [length_imageOf hL'.pages_ok, hsize, hoff]; omega
  have horder : ∀ i, i ∈ buffer.order ↔ i ∈ w.dirty := fun i => by rw [PageBuffer.mem_order, hdirty]
  have hover := overwrite_tracked hL.pages_ok.length_pageImage hpages' htracks horder
  rw [commitImage_run hmake himage hlen disk]
  refine ⟨rfl, ?_⟩
  rw [List.cons_append, after_cons, after_append]
  have hwrites : writeEffects (walRecord (imageOf w.pages) generation) =
      (List.range (walRecord (imageOf w.pages) generation).length).map
        (fun n => DiskEffect.writeWal (walRecord (imageOf w.pages) generation) (n + 1)) := rfl
  have hrecord := after_writes (walRecord (imageOf w.pages) generation) disk (walRecord (imageOf w.pages) generation).length
  rw [after_cons, ← hwrites] at hrecord
  rw [hrecord, after_append, after_applyEffects, hdb, Option.getD_some, himage]
  simp only [imageOf] at hover ⊢
  rw [hover]
  rfl

/-- **No insert of a valid row runs out of pages** in a table of less than 2²⁴ rows. -/
theorem insertRow_fits (h : Tidy disk fields rows generation) (hrow : RowOk fields.length row)
    (hgen : generation + 1 < 2 ^ 64) (hrows : rows.length < 2 ^ 24) : (insertRow path row disk).result = .ok () ∧
      Tidy (after disk (insertRow path row disk).effects) fields (rows ++ [row]) (generation + 1) := by
  obtain ⟨hwal, image, hdb, ⟨pages, L, rfl, hL, hins, rfl, rfl, rfl⟩, hcompact⟩ := h
  have hplain : plainPages pages ≤ 2 * L.rows.length + 5 := hcompact _ (parseImage_imageOf hL false)
  obtain ⟨w, L', hrun, hs, hg, hf, hr, hins', hon⟩ := insertRowPages_spec hL hins hrow hgen
  have hL' := hon (insertRowPages_small hL hins hrow hgen hplain hrows hrun)
  have hplain' := insertRowPages_plain hL hrow hgen hrun
  have hnext : buildIncrementalInsert (imageOf pages) row = .ok ⟨imageOf w.pages, w.dirty, L.generation + 1⟩ := by
    unfold buildIncrementalInsert
    simp only [parseImage_imageOf hL false, hrun, encodePages_ok hs, parseImage_imageOf hL' false, bind, Except.bind, pure,
      Except.pure]
    rfl
  rw [(insertRow_run path (recover_clean hwal) hdb).1 _ hnext]
  obtain ⟨hresult, hafter⟩ := @commitImage_pages _ (L.generation + 1) _ _ _ _ _ hL hL' hrun hdb
  refine ⟨hresult, ?_⟩
  rw [List.nil_append, after_nil, hafter]
  refine ⟨rfl, imageOf w.pages, rfl, ⟨w.pages, L', rfl, hL', hins', hf, hr, hg⟩, hL'.compact ?_⟩
  rw [hr, List.length_append, List.length_singleton]
  omega

/-- **A new table is always made** from valid rows, if there are less than 2²⁴. -/
theorem createFromRows_tidy (hdb : disk.database = none) (hwal : walPresent disk = false)
    (hv : validateSchema fields rows = .ok ()) (hrows : rows.length < 2 ^ 24) :
    (createFromRows path fields rows disk).result = .ok () ∧
      Tidy (after disk (createFromRows path fields rows disk).effects) fields rows 1 := by
  obtain ⟨pages, L, hrun, hs, hg, hfields, hr, hins, hon⟩ := buildPages_spec hv 1
  obtain ⟨hplain, hsmall⟩ := buildPages_small hv hrun
  have hL := hon (hsmall hrows) (by decide)
  have hw : Written (imageOf pages) fields rows 1 := ⟨pages, L, rfl, hL, hins, hfields, hr, hg⟩
  have himage : buildImage fields rows 1 = .ok (imageOf pages) := by
    unfold buildImage
    rw [hrun]
    simp only [bind, Except.bind, encodePages_ok hs]
  rw [createFromRows_ok hdb hwal himage]
  obtain ⟨hresult, hafter⟩ := @after_commitImage _ _ _ disk _ hw
  refine ⟨hresult, ?_⟩
  rw [hafter]
  refine ⟨rfl, imageOf pages, rfl, hw, hL.compact ?_⟩
  rw [hr]
  exact hplain

theorem createTable_tidy (hdb : disk.database = none) (hwal : walPresent disk = false) (hf : FieldsOk fields) :
    (createTable path fields disk).result = .ok () ∧
      Tidy (after disk (createTable path fields disk).effects) fields [] 1 :=
  createFromRows_tidy hdb hwal (validateSchema_ok.2 ⟨hf, by simp⟩) (by decide)

/-- Rows inserted one after another. -/
def insertEach (path : String) : List (List Bytes) → Call Unit
  | [] => pure ()
  | row :: rows => do
    insertRow path row
    insertEach path rows

theorem insertEach_fits : ∀ {new rows : List (List Bytes)} {generation : Nat} {disk : Disk},
    Tidy disk fields rows generation → (∀ row ∈ new, RowOk fields.length row) → generation + new.length < 2 ^ 64 →
    rows.length + new.length ≤ 2 ^ 24 → (insertEach path new disk).result = .ok () ∧
      Tidy (after disk (insertEach path new disk).effects) fields (rows ++ new) (generation + new.length)
  | [], rows, generation, disk, h, _, _, _ => ⟨rfl, by rw [List.append_nil]; exact h⟩
  | row :: new, rows, generation, disk, h, hnew, hgen, hrows => by
    rw [List.length_cons] at hgen hrows
    obtain ⟨hresult, htidy⟩ := @insertRow_fits _ _ _ _ _ path h (hnew row List.mem_cons_self) (by omega) (by omega)
    rcases hrun : insertRow path row disk with ⟨es, result⟩
    rw [hrun] at hresult htidy
    obtain rfl : result = .ok () := hresult
    obtain ⟨hresult', htidy'⟩ := insertEach_fits htidy (fun r hr => hnew r (List.mem_cons_of_mem row hr)) (by omega)
      (by rw [List.length_append, List.length_singleton]; omega)
    rw [insertEach, bind_run_ok hrun]
    refine ⟨hresult', ?_⟩
    rw [after_append, List.length_cons, Nat.add_comm new.length, ← Nat.add_assoc, ← List.singleton_append,
      ← List.append_assoc]
    exact htidy'

/-- **The pages of a table** are in proportion to its values. -/
theorem Tidy.pages_le (h : Tidy disk fields rows generation) : ∃ image, disk.database = some image ∧
    image.length ≤ (2 * rows.length + 5 + fields.length * (2 * rows.length)) * pageSize := by
  obtain ⟨-, image, hdb, ⟨pages, L, rfl, hL, -, rfl, rfl, rfl⟩, hcompact⟩ := h
  have hplain : plainPages pages ≤ 2 * L.rows.length + 5 := hcompact _ (parseImage_imageOf hL false)
  have htrees : (L.trees.flatMap Index.ids).length ≤ L.trees.length * (2 * L.rows.length) :=
    @length_flatMap_ids pages _ _ 0 (fun i index hi => by rw [Nat.zero_add]; exact hL.trees_at i index hi)
  rw [hL.trees_length] at htrees
  have hlen := hL.length_le
  refine ⟨_, hdb, ?_⟩
  rw [length_imageOf hL.pages_ok]
  exact Nat.mul_le_mul_right _ (by omega)

/-- **A table never runs out of room below 2²⁴ rows.**  Where there is no table, one is made for any field names that the
schema allows, and any rows that fit them are inserted one after another without a refusal; then the table opens with those
rows in that order, and its file is in proportion to the values in it. -/
theorem table_grows (hdb : disk.database = none) (hwal : walPresent disk = false) (hf : FieldsOk fields)
    (hrows : ∀ row ∈ rows, RowOk fields.length row) (hcount : rows.length ≤ 2 ^ 24) :
    let outcome := (do createTable path fields; insertEach path rows : Call Unit) disk
    outcome.result = .ok () ∧
    (∃ table, openTable path (after disk outcome.effects) = ⟨[], .ok table⟩ ∧ table.fields = fields ∧ table.rows = rows) ∧
    ∃ image, (after disk outcome.effects).database = some image ∧
      image.length ≤ (2 * rows.length + 5 + fields.length * (2 * rows.length)) * pageSize := by
  intro outcome
  obtain ⟨hresult, htidy⟩ := @createTable_tidy _ _ path hdb hwal hf
  rcases hrun : createTable path fields disk with ⟨es, result⟩
  rw [hrun] at hresult htidy
  obtain rfl : result = .ok () := hresult
  obtain ⟨hresult', htidy'⟩ := @insertEach_fits _ path _ _ _ _ htidy hrows (by omega) (by simpa using hcount)
  have houtcome : outcome = ⟨es ++ (insertEach path rows (after disk es)).effects,
    (insertEach path rows (after disk es)).result⟩ :=
    bind_run_ok hrun
  rw [houtcome, after_append]
  exact ⟨hresult', openTable_rests path htidy'.clean.rests, htidy'.pages_le⟩

theorem table_grows_two : ∃ table, openTable "t" (after (⟨none, none⟩ : Disk)
      ((do createTable "t" [[97], [98]]; insertEach "t" [[[120], []], [[121], [122]]] : Call Unit) ⟨none, none⟩).effects) =
    ⟨[], .ok table⟩ ∧ table.rows = [[[120], []], [[121], [122]]] := by
  obtain ⟨-, ⟨table, hopen, -, hrows⟩, -⟩ := @table_grows [[97], [98]] [[[120], []], [[121], [122]]] ⟨none, none⟩ "t" rfl rfl
    ⟨by decide, by decide, by decide, by decide, by decide⟩
    (fun row hr => by
      have hall : ∀ row ∈ ([[[120], []], [[121], [122]]] : List (List Bytes)),
          row.length = 2 ∧ ∀ v ∈ row, v.length ≤ maxValueLength := by decide
      exact ⟨(hall row hr).1, (hall row hr).2⟩) (by decide)
  exact ⟨table, hopen, hrows⟩

end

end Storage
end Sql
