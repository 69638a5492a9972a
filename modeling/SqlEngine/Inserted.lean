import SqlEngine.Descent
/-!
# Inserted — the layout after `build_incremental_insert`

One lemma for each part an insert touches: the index of one field (`insertField_spec`), all fields with their places in
the directory (`insertFields_spec`), the row chain (`appendRow_spec`) and page zero.  `insertRowPages_spec` puts them
together: the pages of an insert hold the layout of the table with the row at its end.
-/
namespace Sql
namespace Storage

open Wire BTree

/-! ## The index with one more row -/

theorem valueAt_append {rows : List (List Bytes)} {row : List Bytes} {record field : Nat} (h : record < rows.length) :
    valueAt (rows ++ [row]) record field = valueAt rows record field := by
  rw [valueAt, valueAt, List.getElem?_append_left h]

theorem column_append (rows : List (List Bytes)) (row : List Bytes) (field : Nat) :
    column (rows ++ [row]) field = column rows field ++ [⟨row.getD field [], rows.length⟩] := by
  have hold : (List.range rows.length).map (fun r => (⟨valueAt (rows ++ [row]) r field, r⟩ : Entry)) =
      column rows field :=
    List.map_congr_left (fun r hr => by rw [valueAt_append (List.mem_range.1 hr)])
  have hnew : valueAt (rows ++ [row]) rows.length field = row.getD field [] := by
    simp [valueAt, List.getD_eq_getElem?_getD]
  rw [column, List.length_append, List.length_singleton, List.range_succ, List.map_append, hold, List.map_singleton, hnew]

/-- **The new row is one entry more in the index.** -/
theorem sortedIndex_append (rows : List (List Bytes)) (row : List Bytes) (field : Nat) :
    lowerInsert ⟨row.getD field [], rows.length⟩ (sortedIndex rows field) = sortedIndex (rows ++ [row]) field := by
  refine eq_sortedIndex ?_ (lowerInsert_sorted (sortedIndex_sorted rows field))
  rw [column_append]
  refine (lowerInsert_perm _ _).trans (List.Perm.trans ?_ List.perm_append_comm)
  exact (sortedIndex_perm rows field).cons _

theorem rowOk_getD {n : Nat} {row : List Bytes} (h : RowOk n row) (field : Nat) :
    (row.getD field []).length ≤ maxValueLength := by
  rw [List.getD_eq_getElem?_getD]
  cases hv : row[field]? with
  | none => simp
  | some v => exact h.value_le v (List.mem_of_getElem? hv)

/-! ## One field -/

/-- The root of a tree says how deep the tree is. -/
theorem nodeLevel_root {pages : List Page} {n p q : Nat} {t : Tree Entry n} {ts : List (Tree Entry n)} (hs : Sized pages)
    (hfull : Full n t) (hat : InnerAt pages n t) (hchain : LeafChain pages p ((t :: ts).flatMap (leaves n)) q)
    (hdepth : n < 33) (hentries : ∀ x ∈ entries n t, EntryOk x) :
    ∃ page, pages[root n t]? = some page ∧ nodeLevel page = .ok n := by
  match n, t, ts, hfull, hat, hchain, hentries with
  | 0, t, ts, _, _, hchain, _ => exact ⟨_, hchain.1, if_pos rfl⟩
  | n + 1, t, ts, hfull, hat, _, hentries =>
    exact ⟨_, hat.1, nodeLevel_ok (separatorsOk_of_page hs hfull hat (by omega) hentries)⟩

/-- **The index of one field after an insert.** -/
theorem insertField_spec {w : Work} {rows : List (List Bytes)} {row : List Bytes} {n field : Nat} {t : Index}
    (hs : Sized w.pages) (hrows : ∀ r ∈ rows, RowOk n r) (hle : rows.length ≤ rowsMaxSize) (hrow : RowOk n row)
    (ht : IndexAt w.pages rows field t) (hnd : t.ids.Nodup) (hlt : ∀ i ∈ t.ids, i < noPage) :
    ∃ (t' : Index) (w' : Work), insertField t.root ⟨row.getD field [], rows.length⟩ w = .ok (t'.root, w') ∧
      w.pages.length ≤ w'.pages.length ∧ Sized w'.pages ∧ IndexAt w'.pages (rows ++ [row]) field t' ∧
      t'.ids.Perm (t.ids ++ newIds w.pages w'.pages) ∧
      ∀ i < w.pages.length, i ∉ t.ids → i ≠ noPage → w'.pages[i]? = w.pages[i]? := by
  have hbound : rowsMaxSize < 2 ^ 64 := by decide
  have he : EntryOk ⟨row.getD field [], rows.length⟩ := ⟨rowOk_getD hrow field, by simp only; omega⟩
  have hidx := sortedIndex_append rows row field
  have hnew : (⟨row.getD field [], rows.length⟩ : Entry) ∉ sortedIndex rows field := fun hm =>
    Nat.lt_irrefl _ (mem_sortedIndex.1 hm).1
  generalize (⟨row.getD field [], rows.length⟩ : Entry) = e at he hidx hnew ⊢
  have hnext : noPage < 2 ^ 32 := by decide
  have hsize : pagePayloadSize = 4064 := rfl
  match t, ht, hnd, hlt with
  | none, ht, _, _ =>
    -- the first row makes a first leaf
    obtain rfl : rows = [] := ht
    have hkeys : ∀ x ∈ [e], x.key.length ≤ maxValueLength := fun x hx => by
      obtain rfl := List.mem_singleton.1 hx
      exact he.key_le
    have hpay : (leafPayload noPage [e]).length ≤ pagePayloadSize := by
      have := he.size
      rw [length_leafPayload, List.flatMap_singleton]
      omega
    refine ⟨some ⟨0, Tree.mkLeaf w.pages.length [e]⟩, ⟨w.pages ++ [⟨.indexLeaf, w.pages.length, noPage,
      leafPayload noPage [e]⟩], insert w.pages.length w.dirty⟩, ?_, by simp, hs.append rfl hpay (Or.inl hnext),
      ⟨by simp [Full], trivial, ⟨getElem?_append_new _ _, trivial⟩, ?_⟩, ?_, fun i hi _ _ => getElem?_append_old hi⟩
    · unfold insertField
      rw [if_pos (show Index.root none = noPage from rfl), encodeLeafPayload_ok noPage (by simp) (by simp) hkeys]
      rfl
    · rw [entries_mkLeaf, ← hidx]
      rfl
    · rw [newIds_eq (k := 1) (by simp)]
      simp [Index.ids, List.range']
  | some ⟨m, t⟩, ht, hnd, hlt =>
    have hroot : BTree.root m t ≠ noPage := Nat.ne_of_lt (hlt _ (root_mem_ids m t))
    have hI : ([t] : List (Tree Entry m)).flatMap (ids m) = ids m t := by simp
    have hL : ([t] : List (Tree Entry m)).flatMap (leaves m) = leaves m t := by simp
    have hE : ([t] : List (Tree Entry m)).flatMap (entries m) = sortedIndex rows field := by
      simpa using ht.2.2.2
    have hready : Ready w.pages m [t] noPage noPage e := {
      sized := hs
      full := fun k hk => List.mem_singleton.1 hk ▸ ht.1
      inner := fun k hk => List.mem_singleton.1 hk ▸ ht.2.1
      chain := by rw [hL]; exact ht.2.2.1
      sibling := Or.inl rfl
      nodup := by rw [hI]; exact hnd
      fresh := fun hm => Nat.lt_irrefl _ (hlt noPage (by rwa [hI] at hm))
      ids_lt := fun i hi => hlt i (by rwa [hI] at hi)
      prev_lt := hnext
      sorted := by rw [hE]; exact sortedIndex_sorted rows field
      not_mem := by rw [hE]; exact hnew
      entries_ok := by rw [hE]; exact sortedIndex_entryOk hrows hle field
      entry_ok := he }
    have hfuel : m < w.pages.length := by
      have h1 := two_pow_le_leaves m t ht.1
      have h2 : (leaves m t).length ≤ (ids m t).length := by simp [ids]
      have h3 := (List.subperm_of_subset hnd (fun i hi => List.mem_range.2 (hready.lt i (by rwa [hI])))).length_le
      have h4 : m < 2 ^ m := Nat.lt_two_pow_self
      rw [List.length_range, show (Index.ids (some ⟨m, t⟩)) = ids m t from rfl] at h3
      omega
    obtain ⟨split, w1, hrun, hout⟩ := insertIndexEntry_spec m t w.pages.length noPage noPage w hfuel hready
    unfold insertField
    rw [show Index.root (some ⟨m, t⟩) = BTree.root m t from rfl, if_neg hroot]
    simp only [hrun, bind, Except.bind]
    cases hout with
    | one k hk hins =>
      have hentries := hins.entries_eq
      have hchain := hins.chain
      have hperm := hins.ids_perm
      simp only [List.flatMap_cons, List.flatMap_nil, List.append_nil] at hentries hchain hperm
      refine ⟨some ⟨m, k⟩, w1, by rw [← hk]; rfl, hins.le, hins.sized, ⟨hins.full k List.mem_cons_self,
        hins.inner k List.mem_cons_self, hchain, ?_⟩, hperm, fun i hi hm hne => hins.frame i hi (by rwa [hI]) hne⟩
      rw [hentries, ht.2.2.2, hidx]
    | two l r hl hins =>
      -- the tree grows a new root over its two halves
      have hdepth := hready.depth_lt
      have hentries := hins.entries_eq
      rw [hE, hidx] at hentries
      have hok : ∀ x ∈ entries m l, EntryOk x := fun x hx => by
        have hx' : x ∈ [l, r].flatMap (entries m) := List.mem_flatMap.2 ⟨l, List.mem_cons_self, hx⟩
        rw [hins.entries_eq] at hx'
        exact lowerInsert_entryOk hready.entries_ok he x hx'
      obtain ⟨page, hpage, hlevel⟩ := nodeLevel_root hins.sized (hins.full l List.mem_cons_self)
        (hins.inner l List.mem_cons_self) hins.chain hdepth hok
      have hsep : SeparatorsOk m [l, r] := ⟨by simp, by omega, by simp, hins.least_ok hready⟩
      have hpay : (nodePayload m [l, r]).length ≤ pagePayloadSize := by
        have := putSeparator_size (r := (least m r, BTree.root m r)) (hins.least_ok hready r (by simp))
        rw [length_nodePayload]
        simp only [separators, List.tail_cons, List.map_cons, List.map_nil, List.flatMap_singleton]
        omega
      have hcontents : (⟨m + 1, [least m r], [BTree.root m t, BTree.root m r]⟩ : InternalContents) = contents m [l, r] := by
        rw [← hl]; rfl
      rw [hl] at hpage
      simp only [pageAt, hpage, hlevel, hcontents, encodeInternalPayload_ok hsep]
      let new : Page := ⟨.indexInternal, w1.pages.length, noPage, nodePayload m [l, r]⟩
      have hg : Grows w1.pages (w1.pages ++ [new]) := Grows.append _ _
      refine ⟨some ⟨m + 1, Tree.mkNode w1.pages.length [l, r]⟩, ⟨w1.pages ++ [new], insert w1.pages.length w1.dirty⟩, rfl,
        by have := hins.le; simp only [List.length_append]; omega, hins.sized.append rfl hpay (Or.inl hnext),
        ⟨⟨by simp, hins.full⟩, ⟨getElem?_append_new _ _, fun k hk => (hins.inner k hk).grow hg⟩, hins.chain.grow hg, ?_⟩,
        ?_, fun i hi hm hne => ?_⟩
      · rw [entries_mkNode, hentries]
      · refine (ids_mkNode_perm _ _).trans ((hins.ids_perm.cons _).trans ?_)
        rw [hI, ← newIds_join hins.le hg.le, newIds_eq (a := w1.pages) (k := 1) (by simp)]
        exact (List.perm_append_singleton _ _).symm.trans (by rw [List.append_assoc]; rfl)
      · rw [hg.same i (Nat.lt_of_lt_of_le hi hins.le), hins.frame i hi (by rwa [hI]) hne]

/-! ## All fields -/

theorem IndexAt.lt {pages : List Page} {rows : List (List Bytes)} {field : Nat} {t : Index}
    (ht : IndexAt pages rows field t) : ∀ i ∈ t.ids, i < pages.length := fun i hi => by
  match t, ht, hi with
  | some ⟨_, t⟩, ht, hi =>
    rcases List.mem_append.1 hi with hin | hleaf
    · exact ht.2.1.lt i hin
    · obtain ⟨l, hl, rfl⟩ := List.mem_map.1 hleaf
      exact ht.2.2.1.lt l hl

/-- The place of a field in the directory. -/
theorem patch_directory (done rest : List Nat) (root root' : Nat) :
    patch (directoryBytes (done ++ root :: rest)) (4 + done.length * 4) (le 4 root') =
      directoryBytes (done ++ root' :: rest) := by
  have hdone : (done.flatMap (le 4)).length = done.length * 4 := length_flatMap_block (fun r _ => length_le 4 r)
  have hfront : (le 4 (done.length + (rest.length + 1)) ++ done.flatMap (le 4)).length = 4 + done.length * 4 := by
    rw [List.length_append, length_le, hdone]
  have h := patch_append (b := rest.flatMap (le 4)) hfront
    ((length_le 4 root').trans (length_le 4 root).symm : (le 4 root').length = (le 4 root).length)
  simpa [directoryBytes] using h

/-- **All indexes after an insert**, each from its own pages, with their roots in the directory. -/
theorem insertFields_spec {rows : List (List Bytes)} {row : List Bytes} {n directory next : Nat}
    (hrows : ∀ r ∈ rows, RowOk n r) (hle : rows.length ≤ rowsMaxSize) (hrow : RowOk n row) (hdir : directory < noPage) :
    ∀ (trees : List Index) (done : List Nat) (w : Work), Sized w.pages → done.length + trees.length ≤ maxFields →
      (∀ i index, trees[i]? = some index → IndexAt w.pages rows (done.length + i) index) →
      (trees.flatMap Index.ids).Nodup → (∀ i ∈ trees.flatMap Index.ids, i < noPage) →
      directory ∉ trees.flatMap Index.ids → w.pages[directory]? =
        some ⟨.indexDirectory, directory, next, directoryBytes (done ++ trees.map Index.root)⟩ →
      ∃ (trees' : List Index) (w' : Work),
        insertFields directory row rows.length done.length (trees.map Index.root) w = .ok w' ∧
        trees'.length = trees.length ∧ w.pages.length ≤ w'.pages.length ∧ Sized w'.pages ∧
        w'.pages[directory]? =
          some ⟨.indexDirectory, directory, next, directoryBytes (done ++ trees'.map Index.root)⟩ ∧
        (w'.pages.length < 2 ^ 32 →
          ∀ i index, trees'[i]? = some index → IndexAt w'.pages (rows ++ [row]) (done.length + i) index) ∧
        (trees'.flatMap Index.ids).Perm (trees.flatMap Index.ids ++ newIds w.pages w'.pages) ∧
        ∀ i < w.pages.length, i ∉ trees.flatMap Index.ids → i ≠ directory → i ≠ noPage → w'.pages[i]? = w.pages[i]?
  | [], done, w, hs, _, _, _, _, _, hpage =>
    ⟨[], w, rfl, rfl, Nat.le_refl _, hs, hpage, fun _ i index h => by simp at h, by simp, fun _ _ _ _ _ => rfl⟩
  | t :: trees, done, w, hs, hmax, hat, hnd, hlt, hfresh, hpage => by
    rw [List.flatMap_cons, List.nodup_append] at hnd
    obtain ⟨hnd1, hnd2, hdisj⟩ := hnd
    simp only [List.flatMap_cons, List.mem_append, not_or] at hlt hfresh
    have htree : ∀ i index, trees[i]? = some index → IndexAt w.pages rows (done.length + (i + 1)) index :=
      fun i index h => hat (i + 1) index (by simpa using h)
    have hrestlt : ∀ i ∈ trees.flatMap Index.ids, i < w.pages.length := fun i hi => by
      obtain ⟨k, hk⟩ := mem_flatMap_iff_getElem?.1 hi
      cases hkt : trees[k]? with
      | none => rw [hkt] at hk; cases hk
      | some index => rw [hkt] at hk; exact (htree k index hkt).lt i hk
    have hdirlt : directory < w.pages.length := lt_of_getElem?_some hpage
    obtain ⟨t', w1, hrun, hle1, hs1, hat1, hperm1, hframe1⟩ := insertField_spec hs hrows hle hrow (hat 0 t rfl) hnd1
      (fun i hi => hlt i (Or.inl hi))
    rw [Nat.add_zero] at hrun hat1
    -- the directory page is none of the tree's, and gets the new root
    have hdir1 : w1.pages[directory]? = some ⟨.indexDirectory, directory, next,
        directoryBytes (done ++ t.root :: trees.map Index.root)⟩ := by
      rw [hframe1 directory hdirlt hfresh.1 (Nat.ne_of_lt hdir), hpage, List.map_cons]
    let page : Page := ⟨.indexDirectory, directory, next, directoryBytes ((done ++ [t'.root]) ++ trees.map Index.root)⟩
    have hlenpay : ∀ r : Nat, (directoryBytes (done ++ r :: trees.map Index.root)).length =
        4 + 4 * (done.length + (trees.length + 1)) := fun r => by
      rw [length_directoryBytes, List.length_append, List.length_cons, List.length_map]
    rw [List.length_cons] at hmax
    have hs2 : Sized (w1.pages.set directory page) := by
      refine hs1.set rfl ?_ (hs1 _ _ hdir1).2.2
      have : maxFields = 64 := rfl
      have : pagePayloadSize = 4064 := rfl
      simp only [page, List.append_assoc, List.singleton_append, hlenpay]
      omega
    have hsame2 : ∀ i ∈ trees.flatMap Index.ids, (w1.pages.set directory page)[i]? = w.pages[i]? := fun i hi => by
      have hne : i ≠ directory := fun h => hfresh.2 (h ▸ hi)
      rw [getElem?_set_other hne, hframe1 i (hrestlt i hi) (fun h => hdisj i h i hi rfl)
        (Nat.ne_of_lt (hlt i (Or.inr hi)))]
    have hlen2 : (w1.pages.set directory page).length = w1.pages.length := List.length_set
    obtain ⟨trees', w', hrun', hcount, hle', hs', hpage', hats, hperm', hframe'⟩ :=
      insertFields_spec hrows hle hrow hdir trees
      (done ++ [t'.root]) ⟨w1.pages.set directory page, w1.dirty⟩ hs2 (by simp; omega) (fun i index h => by
        rw [List.length_append, List.length_singleton, Nat.add_assoc, Nat.add_comm 1]
        exact (htree i index h).congr (fun j hj => hsame2 j (List.mem_flatMap.2 ⟨index, List.mem_of_getElem? h, hj⟩)))
      hnd2 (fun i hi => hlt i (Or.inr hi)) hfresh.2 (getElem?_set_same hdir1)
    simp only [hlen2] at hle' hframe'
    have hnew : newIds (w1.pages.set directory page) w'.pages = newIds w1.pages w'.pages := by simp only [newIds, hlen2]
    simp only [hnew] at hperm'
    refine ⟨t' :: trees', w', ?_, by simp [hcount], Nat.le_trans hle1 hle', hs', ?_, fun hbound i index h => ?_, ?_,
      fun i hi hm hd hne => ?_⟩
    · rw [List.map_cons, insertFields]
      have hwrite : ¬ (4 + done.length * 4 + 4 > (directoryBytes (done ++ t.root :: trees.map Index.root)).length) := by
        rw [hlenpay]; omega
      rw [List.length_append, List.length_singleton] at hrun'
      simp only [hrun, pageAt, hdir1, writeU32, throwIf_neg hwrite, patch_directory, bind, Except.bind, pure, Except.pure]
      simp only [page, List.append_assoc, List.singleton_append] at hrun'
      exact hrun'
    · simpa using hpage'
    · cases i with
      | zero =>
        obtain rfl := Option.some.inj h
        refine hat1.congr (fun i hi => ?_)
        have hilt := hat1.lt i hi
        have hirest : i ∉ trees.flatMap Index.ids ∧ i ≠ directory := by
          rcases List.mem_append.1 (hperm1.mem_iff.1 hi) with hit | hit
          · exact ⟨fun hm => hdisj i hit i hm rfl, fun heq => hfresh.1 (heq ▸ hit)⟩
          · have := mem_newIds.1 hit
            exact ⟨fun hm => by have := hrestlt i hm; omega, by omega⟩
        have hne : i ≠ noPage := by unfold noPage; omega
        rw [hframe' i hilt hirest.1 hirest.2 hne, getElem?_set_other hirest.2]
      | succ i =>
        have := hats hbound i index (by simpa using h)
        rw [List.length_append, List.length_singleton, Nat.add_assoc, Nat.add_comm 1] at this
        exact this
    · rw [List.flatMap_cons, List.flatMap_cons, ← newIds_join hle1 hle']
      refine (hperm1.append hperm').trans ?_
      simp only [List.append_assoc]
      refine List.Perm.append_left _ ?_
      rw [← List.append_assoc, ← List.append_assoc]
      exact List.perm_append_comm.append_right _
    · simp only [List.flatMap_cons, List.mem_append, not_or] at hm
      rw [hframe' i (Nat.lt_of_lt_of_le hi hle1) hm.2 hd hne, getElem?_set_other hd, hframe1 i hi hm.1 hne]

/-! ## The row chain -/

theorem chainBytes_append (xs ys : List (Nat × Bytes)) : chainBytes (xs ++ ys) = chainBytes xs ++ chainBytes ys :=
  List.flatMap_append

/-- The end of a chain may be exchanged for one that starts at the same page. -/
theorem ChainAt.replace {pages pages' : List Page} {type : PageType} {rest rest' : List (Nat × Bytes)} :
    ∀ {xs : List (Nat × Bytes)}, ChainAt pages type (xs ++ rest) → (∀ i ∈ xs.map Prod.fst, pages'[i]? = pages[i]?) →
    chainHead rest' = chainHead rest → ChainAt pages' type rest' → ChainAt pages' type (xs ++ rest')
  | [], _, _, _, h' => h'
  | (i, payload) :: xs, h, hsame, hhead, h' => by
    rw [List.cons_append] at h ⊢
    obtain ⟨h1, h2⟩ := h
    rw [List.map_cons] at hsame
    have hnext : chainHead (xs ++ rest') = chainHead (xs ++ rest) := by
      cases xs with
      | nil => exact hhead
      | cons x xs => rfl
    refine ⟨?_, h2.replace (fun j hj => hsame j (List.mem_cons_of_mem i hj)) hhead h'⟩
    rw [hsame i List.mem_cons_self, hnext]
    exact h1

theorem ChainAt.right {pages : List Page} {type : PageType} {rest : List (Nat × Bytes)} :
    ∀ {xs : List (Nat × Bytes)}, ChainAt pages type (xs ++ rest) → ChainAt pages type rest
  | [], h => h
  | _ :: _, h => h.2.right

/-- The walk along a chain ends at its last page. -/
theorem lastRowPage_spec {pages : List Page} {type : PageType} {last : Nat} {payload : Bytes} :
    ∀ (xs : List (Nat × Bytes)) (fuel : Nat), ChainAt pages type (xs ++ [(last, payload)]) → xs.length < fuel →
      (∀ i ∈ (xs ++ [(last, payload)]).map Prod.fst, i ≠ noPage) →
      lastRowPage pages fuel (chainHead (xs ++ [(last, payload)])) = .ok last
  | _, 0, _, hf, _ => by cases hf
  | [], fuel + 1, h, _, _ => by
    rw [List.nil_append, show chainHead [(last, payload)] = last from rfl, lastRowPage]
    simp only [pageAt, h.1, bind, Except.bind]
    rfl
  | (i, bytes) :: xs, fuel + 1, h, hf, hne => by
    rw [List.cons_append] at h hne
    obtain ⟨h1, h2⟩ := h
    rw [List.map_cons] at hne
    have ih := lastRowPage_spec xs fuel h2 (by simpa using hf) (fun j hj => hne j (List.mem_cons_of_mem i hj))
    have hnext : chainHead (xs ++ [(last, payload)]) ≠ noPage := by
      refine hne _ (List.mem_cons_of_mem i ?_)
      cases xs with
      | nil => simp [chainHead]
      | cons x xs => simp [chainHead]
    rw [List.cons_append, show chainHead ((i, bytes) :: (xs ++ [(last, payload)])) = i from rfl, lastRowPage]
    simp only [pageAt, h1, bind, Except.bind, if_neg hnext, ih]

/-- **Bytes appended to the last page of a chain** fill it up and go on over new pages. -/
theorem appendRow_spec : ∀ (fuel last : Nat) (bytes payload : Bytes) (w : Work), Sized w.pages →
    w.pages[last]? = some ⟨.rows, last, noPage, payload⟩ →
    bytes.length + 1 + (if payload.length = pagePayloadSize then 1 else 0) ≤ fuel →
    ∃ (payload' : Bytes) (new : List (Nat × Bytes)) (w' : Work), appendRow fuel last bytes w = .ok w' ∧
      w.pages.length ≤ w'.pages.length ∧ Sized w'.pages ∧ ChainAt w'.pages .rows ((last, payload') :: new) ∧
      payload' ++ chainBytes new = payload ++ bytes ∧ payload.length ≤ payload'.length ∧
      new.map Prod.fst = newIds w.pages w'.pages ∧ ∀ i < w.pages.length, i ≠ last → w'.pages[i]? = w.pages[i]?
  | 0, _, _, _, _, _, _, hf => by omega
  | fuel + 1, last, bytes, payload, w, hs, hpage, hf => by
    have hnext : noPage < 2 ^ 32 := by decide
    obtain ⟨-, hpay, -⟩ := hs _ _ hpage
    dsimp only at hpay
    rw [appendRow]
    by_cases hb : bytes = []
    · subst hb
      exact ⟨payload, [], w, if_pos rfl, Nat.le_refl _, hs, ⟨hpage, trivial⟩, rfl, Nat.le_refl _, by simp, fun _ _ _ => rfl⟩
    have hpos := List.length_pos_iff.2 hb
    rw [if_neg hb]
    simp only [pageAt, hpage, bind, Except.bind]
    generalize hcopied : min (pagePayloadSize - payload.length) bytes.length = copied
    have hfull : (payload ++ bytes.take copied).length ≤ pagePayloadSize := by
      rw [List.length_append, List.length_take]; omega
    by_cases hmore : copied < bytes.length
    · -- the page is full now, and a new one takes over
      rw [if_pos hmore]
      let old : Page := ⟨.rows, last, w.pages.length, payload ++ bytes.take copied⟩
      let new : Page := ⟨.rows, w.pages.length, noPage, []⟩
      have hlt := lt_of_getElem?_some hpage
      have hs1 : Sized (w.pages.set last old) := hs.set rfl hfull (Or.inr (Nat.le_refl _))
      have hs2 : Sized (w.pages.set last old ++ [new]) := hs1.append (by simp [new]) (by simp [new]) (Or.inl hnext)
      have hnew : (w.pages.set last old ++ [new])[w.pages.length]? = some new := by
        have := getElem?_append_new (w.pages.set last old) new
        rwa [List.length_set] at this
      have hlen : (w.pages.set last old ++ [new]).length = w.pages.length + 1 := by simp
      have hsize : pagePayloadSize = 4064 := rfl
      obtain ⟨payload', more, w', hrun, hle, hs', hchain, hbytes, -, hids, hframe⟩ := appendRow_spec fuel w.pages.length
        (bytes.drop copied) [] ⟨w.pages.set last old ++ [new], insert w.pages.length (insert last w.dirty)⟩ hs2 hnew (by
          rw [List.length_drop, if_neg (by simp [hsize])]
          split at hf <;> omega)
      simp only [hlen] at hle hframe
      have hold : w'.pages[last]? = some old := by
        rw [hframe last (by omega) (by omega), getElem?_append_old (by simpa using hlt), getElem?_set_same hpage]
      refine ⟨payload ++ bytes.take copied, (w.pages.length, payload') :: more, w', hrun, by omega, hs', ⟨hold, hchain⟩, ?_,
        by simp, ?_, fun i hi hne => ?_⟩
      · rw [chainBytes, List.flatMap_cons, ← chainBytes, hbytes, List.nil_append, List.append_assoc, List.take_append_drop]
      · rw [List.map_cons, hids, ← newIds_join (a := w.pages) (b := w.pages.set last old ++ [new]) (by rw [hlen]; omega)
          (by rw [hlen]; exact hle), newIds_eq hlen]
        rfl
      · rw [hframe i (by omega) (by omega), getElem?_append_old (by simpa using hi), getElem?_set_other hne]
    · rw [if_neg hmore]
      have htake : bytes.take copied = bytes := List.take_of_length_le (by omega)
      rw [htake] at hfull ⊢
      refine ⟨payload ++ bytes, [], _, rfl, by simp, hs.set rfl hfull (Or.inl hnext), ⟨getElem?_set_same hpage, trivial⟩,
        by simp [chainBytes], by simp, by simp [newIds], fun i hi hne => getElem?_set_other hne⟩

/-- The walk to the end of the chain and the loop that appends there. -/
theorem appendToChain_spec {w : Work} {chain : List (Nat × Bytes)} (hs : Sized w.pages) (hat : ChainAt w.pages .rows chain)
    (hne : chain ≠ []) (hnd : (chain.map Prod.fst).Nodup) (hlt : ∀ i ∈ chain.map Prod.fst, i < noPage) (bytes : Bytes) :
    ∃ (last : Nat) (chain' : List (Nat × Bytes)) (w' : Work),
      lastRowPage w.pages (w.pages.length + 1) (chainHead chain) = .ok last ∧
      appendRow (bytes.length + 2) last bytes w = .ok w' ∧ w.pages.length ≤ w'.pages.length ∧ Sized w'.pages ∧
      ChainAt w'.pages .rows chain' ∧ chainBytes chain' = chainBytes chain ++ bytes ∧
      chain'.map Prod.fst = chain.map Prod.fst ++ newIds w.pages w'.pages ∧
      (∀ id payload rest, chain = (id, payload) :: rest →
        ∃ payload' rest', chain' = (id, payload') :: rest' ∧ payload.length ≤ payload'.length) ∧
      ∀ i < w.pages.length, i ∉ chain.map Prod.fst → w'.pages[i]? = w.pages[i]? := by
  obtain ⟨xs, ⟨last, payload⟩, rfl⟩ : ∃ xs c, chain = xs ++ [c] :=
    ⟨chain.dropLast, chain.getLast hne, (List.dropLast_append_getLast hne).symm⟩
  have hcount : xs.length < w.pages.length + 1 := by
    have := (List.subperm_of_subset hnd (fun i hi => List.mem_range.2 (hat.lt i hi))).length_le
    simp only [List.length_map, List.length_append, List.length_singleton, List.length_range] at this
    omega
  have hwalk := lastRowPage_spec xs (w.pages.length + 1) hat hcount (fun i hi => Nat.ne_of_lt (hlt i hi))
  obtain ⟨payload', new, w', hrun, hle, hs', hchain, hbytes, hgrow, hids, hframe⟩ := appendRow_spec (bytes.length + 2) last
    bytes payload w hs hat.right.1 (by split <;> omega)
  rw [List.map_append, List.map_singleton] at hnd ⊢
  have hlast : ∀ i ∈ xs.map Prod.fst, i ≠ last := fun i hi h =>
    (List.nodup_append.1 hnd).2.2 i hi last (List.mem_singleton.2 rfl) h
  have hxs : ∀ i ∈ xs.map Prod.fst, w'.pages[i]? = w.pages[i]? := fun i hi =>
    hframe i (hat.lt i (by rw [List.map_append]; exact List.mem_append_left _ hi)) (hlast i hi)
  refine ⟨last, xs ++ (last, payload') :: new, w', hwalk, hrun, hle, hs', hat.replace hxs rfl hchain, ?_,
    by rw [List.map_append, List.map_cons, hids, List.append_assoc]; rfl, fun id p0 rest heq => ?_, fun i hi hm => ?_⟩
  · rw [chainBytes_append, chainBytes_append, List.append_assoc]
    congr 1
    simpa [chainBytes] using hbytes
  · cases xs with
    | nil =>
      obtain ⟨h1, rfl⟩ := List.cons.inj heq
      obtain ⟨rfl, rfl⟩ := Prod.mk.inj h1
      exact ⟨payload', new, rfl, hgrow⟩
    | cons x xs =>
      obtain ⟨rfl, rfl⟩ := List.cons.inj heq
      exact ⟨p0, _, rfl, Nat.le_refl _⟩
  · rw [List.mem_append, List.mem_singleton, not_or] at hm
    exact hframe i hi hm.2

/-- **The row chain after an insert**: the count in its first page, the row behind its last byte. -/
theorem insertRowChain_spec {w : Work} {n : Nat} {rows : List (List Bytes)} {row : List Bytes} {chain : List (Nat × Bytes)}
    (hs : Sized w.pages) (hrow : RowOk n row) (hat : ChainAt w.pages .rows chain)
      (hbytes : chainBytes chain = rowStream rows)
    (hnd : (chain.map Prod.fst).Nodup) (hlt : ∀ i ∈ chain.map Prod.fst, i < noPage)
    (hhead : ∃ id payload rest, chain = (id, payload) :: rest ∧ 8 ≤ payload.length) :
    ∃ (chain' : List (Nat × Bytes)) (w' : Work), insertRowChain (chainHead chain) n rows.length row w = .ok w' ∧
      w.pages.length ≤ w'.pages.length ∧ Sized w'.pages ∧ ChainAt w'.pages .rows chain' ∧
      chainBytes chain' = rowStream (rows ++ [row]) ∧ chainHead chain' = chainHead chain ∧
      chain'.map Prod.fst = chain.map Prod.fst ++ newIds w.pages w'.pages ∧
      (∃ id payload rest, chain' = (id, payload) :: rest ∧ 8 ≤ payload.length) ∧
      ∀ i < w.pages.length, i ∉ chain.map Prod.fst → w'.pages[i]? = w.pages[i]? := by
  obtain ⟨head, first, rest, rfl, h8⟩ := hhead
  -- the first page starts with the row count
  obtain ⟨body, rfl⟩ : ∃ body, first = le 8 rows.length ++ body := by
    have htake := congrArg (List.take 8) hbytes
    rw [chainBytes, List.flatMap_cons, List.take_append_of_le_length h8, rowStream, List.take_left' (length_le 8 _)] at htake
    exact ⟨first.drop 8, by rw [← htake, List.take_append_drop]⟩
  have hheadpage := hat.1
  obtain ⟨-, hpay, hnext⟩ := hs _ _ hheadpage
  let counted : Page := ⟨.rows, head, chainHead rest, le 8 (rows.length + 1) ++ body⟩
  have hs1 : Sized (w.pages.set head counted) := hs.set rfl (by simpa [counted] using hpay) hnext
  have hnotin : ∀ i ∈ rest.map Prod.fst, i ≠ head := fun i hi h => by
    rw [List.map_cons, List.nodup_cons] at hnd
    exact hnd.1 (h ▸ hi)
  have hat1 : ChainAt (w.pages.set head counted) .rows ((head, le 8 (rows.length + 1) ++ body) :: rest) :=
    ⟨getElem?_set_same hheadpage, hat.2.congr (fun i hi => getElem?_set_other (hnotin i hi))⟩
  have hstream : chainBytes ((head, le 8 (rows.length + 1) ++ body) :: rest) ++ rowBytes row =
    rowStream (rows ++ [row]) := by
    simp only [chainBytes, List.flatMap_cons, rowStream, List.append_assoc] at hbytes ⊢
    have hrest := List.append_cancel_left hbytes
    rw [← List.append_assoc body, hrest]
    simp [List.flatMap_append]
  obtain ⟨last, chain', w', hwalk, hrun, hle, hs', hchain, hbytes', hids, hfirst, hframe⟩ := appendToChain_spec
    (w := ⟨w.pages.set head counted, insert head w.dirty⟩) hs1 hat1 (by simp) hnd hlt (rowBytes row)
  have hlen : (w.pages.set head counted).length = w.pages.length := List.length_set
  have hnew : newIds (w.pages.set head counted) w'.pages = newIds w.pages w'.pages := by simp only [newIds, hlen]
  obtain ⟨payload', rest', rfl, hgrow⟩ := hfirst _ _ _ rfl
  simp only [hlen] at hle hframe hwalk
  refine ⟨(head, payload') :: rest', w', ?_, hle, hs', hchain, hbytes'.trans hstream, rfl,
    hids.trans (by simp only [hnew]; rfl),
    ⟨_, _, _, rfl, by rw [List.length_append, length_le] at hgrow; omega⟩, fun i hi hm => ?_⟩
  · have hwrite : ¬ (0 + 8 > (le 8 rows.length ++ body).length) := by rw [List.length_append, length_le]; omega
    have hpatch : patch (le 8 rows.length ++ body) 0 (le 8 (rows.length + 1)) = le 8 (rows.length + 1) ++ body :=
      patch_front (by simp)
    unfold insertRowChain
    rw [show chainHead ((head, le 8 rows.length ++ body) :: rest) = head from rfl]
    simp only [hheadpage, ne_eq, not_true_eq_false, throwIf, ite_false, writeU64, hwrite, hpatch,
      appendStrings_ok hrow.value_le, bind, Except.bind, pure, Except.pure, ← hrow.arity]
    rw [show (le 4 row.length ++ row.flatMap (putBlob 2)) = rowBytes row from rfl]
    rw [show chainHead ((head, le 8 (rows.length + 1) ++ body) :: rest) = head from rfl] at hwalk
    simp only [counted] at hwalk hrun
    rw [List.length_set, hwalk]
    exact hrun
  · have hne : i ≠ head := fun h => hm (h ▸ List.mem_cons_self)
    rw [hframe i hi hm, getElem?_set_other hne]

/-! ## The whole insert -/

theorem superHeads_superPayload {s : Superblock} (h : s.Fits) :
    readAll superHeads (superPayload s) = .ok (s.rowsHead, s.indexDirectoryHead, s.fieldCount, s.rowCount) := by
  refine readAll_ok.2 ⟨[], ?_⟩
  unfold superHeads superPayload
  have hlast := (reads_u64 "superblock").intro s.rowCount [] h.rowCount_lt
  rw [List.append_nil] at hlast
  simp only [List.append_assoc]
  rw [run_bind ((reads_u64 _).intro _ _ h.generation_lt), run_bind ((reads_u32 _).intro pageSize _ (by decide)),
    run_bind ((reads_u32 _).intro _ _ h.pageCount_lt), run_bind ((reads_u32 _).intro _ _ h.schemaHead_lt),
    run_bind ((reads_u32 _).intro _ _ h.rowsHead_lt), run_bind ((reads_u32 _).intro _ _ h.indexDirectoryHead_lt),
    run_bind ((reads_u32 _).intro _ _ h.freeHead_lt), run_bind ((reads_u32 _).intro _ _ h.fieldCount_lt), run_bind hlast,
    run_pure]

/-- The three numbers an insert writes into page zero. -/
theorem patch_superPayload (s : Superblock) (generation pageCount rowCount : Nat) :
    patch (patch (patch (superPayload s) 0 (le 8 generation)) 12 (le 4 pageCount)) 36 (le 8 rowCount) =
      superPayload { s with generation := generation, pageCount := pageCount, rowCount := rowCount } := by
  simp only [superPayload, List.append_assoc]
  rw [patch_front (by simp)]
  have h1 : ∀ tail, patch (le 8 generation ++ (le 4 pageSize ++ (le 4 s.pageCount ++ tail))) 12 (le 4 pageCount) =
      le 8 generation ++ (le 4 pageSize ++ (le 4 pageCount ++ tail)) := fun tail => by
    have := patch_append (b := tail) (by simp : (le 8 generation ++ le 4 pageSize).length = 12)
      ((length_le 4 pageCount).trans (length_le 4 s.pageCount).symm)
    simpa using this
  rw [h1]
  have h2 := patch_append (b := []) (by simp : (le 8 generation ++ (le 4 pageSize ++ (le 4 pageCount ++ (le 4 s.schemaHead ++
    (le 4 s.rowsHead ++ (le 4 s.indexDirectoryHead ++ (le 4 s.freeHead ++ le 4 s.fieldCount))))))).length = 36)
    ((length_le 8 rowCount).trans (length_le 8 s.rowCount).symm)
  simpa using h2

theorem updateSuperblock_spec {w : Work} {s : Superblock} (hs : Sized w.pages)
    (hpage : w.pages[0]? = some ⟨.superblock, 0, noPage, superPayload s⟩) (generation rowCount : Nat) :
    ∃ w', updateSuperblock generation rowCount w = .ok w' ∧ w'.pages.length = w.pages.length ∧ Sized w'.pages ∧
      w'.pages[0]? = some ⟨.superblock, 0, noPage, superPayload { s with
        generation := generation, pageCount := w.pages.length, rowCount := rowCount }⟩ ∧
      ∀ i, i ≠ 0 → w'.pages[i]? = w.pages[i]? := by
  have hlen := length_superPayload s
  have hp1 : (patch (superPayload s) 0 (le 8 generation)).length = 44 := by
    simp [patch, hlen]
  have hp2 : (patch (patch (superPayload s) 0 (le 8 generation)) 12 (le 4 w.pages.length)).length = 44 := by
    simp [patch, hlen]
  refine ⟨⟨w.pages.set 0 ⟨.superblock, 0, noPage, superPayload { s with
    generation := generation, pageCount := w.pages.length, rowCount := rowCount }⟩, insert 0 w.dirty⟩, ?_, by simp,
    hs.set rfl (by rw [length_superPayload]; decide) (Or.inl (by decide : noPage < 2 ^ 32)), getElem?_set_same hpage,
    fun i hi => getElem?_set_other hi⟩
  unfold updateSuperblock
  simp only [pageAt, hpage, writeU64, writeU32, bind, Except.bind]
  rw [throwIf_neg (by omega)]
  simp only [pure, Except.pure]
  rw [throwIf_neg (by omega)]
  simp only
  rw [throwIf_neg (by omega)]
  simp only [patch_superPayload]

theorem directoryRoots_directoryBytes {roots : List Nat} (hn : roots.length < 2 ^ 32) (hr : ∀ r ∈ roots, r < 2 ^ 32) :
    readAll (directoryRoots roots.length) (directoryBytes roots) = .ok roots := by
  refine readAll_ok.2 ⟨[], ?_⟩
  have hm := ((reads_u32 "index directory").many roots.length).intro roots [] ⟨rfl, hr⟩
  rw [List.append_nil] at hm
  unfold directoryRoots directoryBytes
  rw [run_bind ((reads_u32 _).intro _ _ hn), run_bind (run_refuseIf (by simp) _), hm]

/-- What the parts of a layout share: nothing. -/
structure Apart (L : Layout) (pages : List Page) : Prop where
  zero : 0 ∉ L.rowChain.map Prod.fst ∧ 0 ∉ L.directory.map Prod.fst ∧ 0 ∉ L.trees.flatMap Index.ids
  schema : ∀ i ∈ L.schema.map Prod.fst, i ≠ 0 ∧ i ∉ L.rowChain.map Prod.fst ∧ i ∉ L.directory.map Prod.fst ∧
    i ∉ L.trees.flatMap Index.ids
  rows : ∀ i ∈ L.rowChain.map Prod.fst, i ∉ L.directory.map Prod.fst ∧ i ∉ L.trees.flatMap Index.ids
  directory : ∀ i ∈ L.directory.map Prod.fst, i ∉ L.trees.flatMap Index.ids
  rows_nodup : (L.rowChain.map Prod.fst).Nodup
  trees_nodup : (L.trees.flatMap Index.ids).Nodup
  lt : ∀ i ∈ L.ids, i < pages.length ∧ i < noPage

theorem Layout.On.apart {L : Layout} {pages : List Page} (h : L.On pages) : Apart L pages := by
  have hnd : L.ids.Nodup := h.partition.nodup_iff.2 List.nodup_range
  rw [Layout.ids, List.nodup_cons, List.nodup_append, List.nodup_append, List.nodup_append] at hnd
  obtain ⟨h0, ⟨⟨-, hndr, dsr⟩, -, dsd⟩, hndt, dst⟩ := hnd
  simp only [List.mem_append, not_or] at h0 dsd dst
  have hlen := h.length_lt
  refine ⟨⟨h0.1.1.2, h0.1.2, h0.2⟩, fun i hi => ⟨fun heq => h0.1.1.1 (heq ▸ hi), fun hm => dsr i hi i hm rfl,
    fun hm => dsd i (Or.inl hi) i hm rfl, fun hm => dst i (Or.inl (Or.inl hi)) i hm rfl⟩, fun i hi =>
    ⟨fun hm => dsd i (Or.inr hi) i hm rfl, fun hm => dst i (Or.inl (Or.inr hi)) i hm rfl⟩,
    fun i hi hm => dst i (Or.inr hi) i hm rfl, hndr, hndt, fun i hi => ?_⟩
  have := mem_ids_lt h i hi
  exact ⟨this, by unfold noPage; omega⟩

theorem range_append_newIds {a b : List Page} (h : a.length ≤ b.length) :
    List.range a.length ++ newIds a b = List.range b.length := by
  rw [List.range_eq_range', List.range_eq_range', newIds]
  have := List.range'_append_1 (s := 0) (m := a.length) (n := b.length - a.length)
  rw [Nat.zero_add, Nat.add_sub_cancel' h] at this
  exact this

/-- Behind the checks of the row and the generation an insert starts at the heads that the superblock names. -/
theorem insertRowPages_run {L : Layout} {pages : List Page} {row : List Bytes} (h : L.On pages)
    (hrow : RowOk L.fields.length row) (hgen : L.generation + 1 < 2 ^ 64) : insertRowPages (L.parsed pages false) row = (do
      let w ← insertRowChain (chainHead L.rowChain) L.fields.length L.rows.length row ⟨pages, ∅⟩
      let w ← insertDirectory (chainHead L.directory) L.fields.length L.rows.length row w
      updateSuperblock (L.generation + 1) (L.rows.length + 1) w) := by
  have hrle := h.rows_le
  have hrmax : rowsMaxSize < 2 ^ 64 - 1 := by decide
  have harity : row.length = (L.parsed pages false).table.fields.length := hrow.arity
  have hgen' : ¬ (L.parsed pages false).table.inspection.generation = 2 ^ 64 - 1 :=
    show ¬ L.generation = 2 ^ 64 - 1 by omega
  have hrows : ¬ (L.parsed pages false).table.rows.length = 2 ^ 64 - 1 := show ¬ L.rows.length = 2 ^ 64 - 1 by omega
  have hpage : pageAt (L.parsed pages false).pages 0 =
      .ok ⟨.superblock, 0, noPage, superPayload (L.super pages.length)⟩ := by
    unfold pageAt
    rw [show (L.parsed pages false).pages = pages from rfl, h.super_at]
  unfold insertRowPages
  rw [throwIf_neg (not_not.2 harity), (validateValues_ok (u := ())).2 hrow.value_le, throwIf_neg hgen', throwIf_neg hrows,
    hpage]
  simp only [bind, Except.bind, superHeads_superPayload h.super_fits, liftCorruption]
  rfl

/-- The directory is in its first page; the pages behind that one are empty. -/
theorem Layout.On.directory_front {L : Layout} {pages : List Page} (h : L.On pages) (hins : L.Insertable) :
    ∃ directory others, L.directory = (directory, directoryBytes L.roots) :: others ∧ chainBytes others = [] ∧
      directory ∉ others.map Prod.fst ∧ ChainAt pages .indexDirectory others ∧
      pages[directory]? = some ⟨.indexDirectory, directory, chainHead others, directoryBytes L.roots⟩ := by
  obtain ⟨directory, others, hdir⟩ := hins.directory_head
  have hempty : chainBytes others = [] := by
    have hbytes := h.directory_bytes
    rw [hdir, chainBytes, List.flatMap_cons] at hbytes
    exact List.append_right_eq_self.1 hbytes
  have hothers : directory ∉ others.map Prod.fst := by
    have hnd : L.ids.Nodup := h.partition.nodup_iff.2 List.nodup_range
    rw [Layout.ids, List.nodup_cons, List.nodup_append, List.nodup_append, hdir] at hnd
    exact (List.nodup_cons.1 hnd.2.1.2.1).1
  have hat := h.directory_at
  rw [hdir] at hat
  exact ⟨directory, others, hdir, hempty, hothers, hat.2, hat.1⟩

/-- Behind a directory that reads as its roots, the fields are inserted into. -/
theorem insertDirectory_run {w w' : Work} {directory next rowCount : Nat} {roots : List Nat} {row : List Bytes}
    (hpage : w.pages[directory]? = some ⟨.indexDirectory, directory, next, directoryBytes roots⟩)
    (hcount : roots.length < 2 ^ 32) (hroots : ∀ r ∈ roots, r < 2 ^ 32)
    (hrun : insertFields directory row rowCount 0 roots w = .ok w') :
    insertDirectory directory roots.length rowCount row w = .ok ⟨w'.pages, insert directory w'.dirty⟩ := by
  have hread := directoryRoots_directoryBytes hcount hroots
  unfold insertDirectory
  simp only [hpage, ne_eq, not_true_eq_false, throwIf, ite_false, hread, liftCorruption, bind, Except.bind, hrun, pure,
    Except.pure]

/-- **The pages of an insert hold the table with the row at its end**, and an insert into a layout of the code's own never
throws. -/
theorem insertRowPages_spec {L : Layout} {pages : List Page} {row : List Bytes} (h : L.On pages) (hins : L.Insertable)
    (hrow : RowOk L.fields.length row) (hgen : L.generation + 1 < 2 ^ 64) : ∃ (w : Work) (L' : Layout),
      insertRowPages (L.parsed pages false) row = .ok w ∧ Sized w.pages ∧ L'.generation = L.generation + 1 ∧
      L'.fields = L.fields ∧ L'.rows = L.rows ++ [row] ∧ L'.Insertable ∧ (w.pages.length < 2 ^ 32 → L'.On w.pages) := by
  have hap := h.apart
  obtain ⟨directory, others, hdir, hempty, hothers, hothersat, hdirat⟩ := h.directory_front hins
  have hmem : ∀ {i}, (i = 0 ∨ i ∈ L.schema.map Prod.fst ∨ i ∈ L.rowChain.map Prod.fst ∨ i ∈ L.directory.map Prod.fst ∨
      i ∈ L.trees.flatMap Index.ids) → i < pages.length ∧ i < noPage := fun {i} hi => hap.lt i (by
    simp only [Layout.ids, List.mem_cons, List.mem_append]
    tauto)
  have hdmem : directory ∈ L.directory.map Prod.fst := by rw [hdir]; simp
  have hdlt := hmem (Or.inr (Or.inr (Or.inr (Or.inl hdmem))))
  -- the row chain
  obtain ⟨rowChain', w1, hrun1, hle1, hs1, hchain1, hbytes1, hhead1, hids1, hfirst1, hframe1⟩ := insertRowChain_spec
    (w := ⟨pages, ∅⟩) h.pages_ok.sized hrow h.rows_at h.rows_bytes hap.rows_nodup
    (fun i hi => (hmem (Or.inr (Or.inr (Or.inl hi)))).2) hins.row_head
  dsimp only at hle1 hframe1 hids1
  -- the indexes and the directory
  have hdirpage : w1.pages[directory]? = some ⟨.indexDirectory, directory, chainHead others, directoryBytes L.roots⟩ := by
    rw [hframe1 directory hdlt.1 (fun hm => (hap.rows directory hm).1 hdmem)]
    exact hdirat
  have htrees1 : ∀ i index, L.trees[i]? = some index → IndexAt w1.pages L.rows i index := fun i index hi =>
    (h.trees_at i index hi).congr (fun j hj => by
      have hj' : j ∈ L.trees.flatMap Index.ids := List.mem_flatMap.2 ⟨index, List.mem_of_getElem? hi, hj⟩
      exact hframe1 j (hmem (Or.inr (Or.inr (Or.inr (Or.inr hj'))))).1 (fun hm => (hap.rows j hm).2 hj'))
  obtain ⟨trees', w2, hrun2, hcount2, hle2, hs2, hdir2, hats2, hperm2, hframe2⟩ := insertFields_spec h.rows_ok h.rows_le hrow
    hdlt.2 L.trees [] w1 hs1 (by simpa [h.trees_length] using h.fields_ok.le) (fun i index hi => by
      simpa using htrees1 i index hi) hap.trees_nodup (fun i hi => (hmem (Or.inr (Or.inr (Or.inr (Or.inr hi))))).2)
    (hap.directory directory hdmem) hdirpage
  -- page zero
  have hnp : (0 : Nat) ≠ noPage := by decide
  have hsup2 : w2.pages[0]? = some ⟨.superblock, 0, noPage, superPayload (L.super pages.length)⟩ := by
    have h0 := hmem (i := 0) (Or.inl rfl)
    rw [hframe2 0 (by omega) hap.zero.2.2 (fun heq => hap.zero.2.1 (heq ▸ hdmem)) hnp, hframe1 0 h0.1 hap.zero.1, h.super_at]
  obtain ⟨w3, hrun3, hlen3, hs3, hsup3, hframe3⟩ := updateSuperblock_spec
    (w := ⟨w2.pages, insert directory w2.dirty⟩) hs2 hsup2 (L.generation + 1) (L.rows.length + 1)
  dsimp only at hlen3 hsup3 hframe3
  let L' : Layout := ⟨L.generation + 1, L.fields, L.rows ++ [row], L.schema, rowChain',
    (directory, directoryBytes (trees'.map Index.root)) :: others, trees'⟩
  refine ⟨w3, L', ?_, hs3, rfl, rfl, rfl, ⟨hfirst1, directory, others, rfl⟩, fun hbound => ?_⟩
  · -- no check of the code fails
    have hcount : L.roots.length = L.fields.length := by rw [Layout.roots, List.length_map, h.trees_length]
    have hmax : maxFields = 64 := rfl
    have hle := h.fields_ok.le
    have hw2 : insertDirectory directory L.fields.length L.rows.length row w1 =
      .ok ⟨w2.pages, insert directory w2.dirty⟩ := by
      rw [← hcount]
      exact insertDirectory_run hdirpage (by omega) h.roots_lt hrun2
    rw [insertRowPages_run h hrow hgen, hrun1]
    simp only [bind, Except.bind]
    rw [show chainHead L.directory = directory by rw [hdir]; rfl, hw2]
    exact hrun3
  · -- what is outside the parts an insert writes has not changed
    have hnp3 : ∀ i < w3.pages.length, i ≠ noPage := fun i hi => by unfold noPage; omega
    have hsame : ∀ i < pages.length, i ≠ 0 → i ∉ L.rowChain.map Prod.fst → i ≠ directory →
        i ∉ L.trees.flatMap Index.ids → w3.pages[i]? = pages[i]? := fun i hi h0 hr hd ht => by
      rw [hframe3 i h0, hframe2 i (by omega) ht hd (hnp3 i (by omega)), hframe1 i hi hr]
    have hchain3 : ChainAt w3.pages .rows rowChain' := hchain1.congr (fun i hi => by
      have hilt := hchain1.lt i hi
      have hout : i ≠ 0 ∧ i ≠ directory ∧ i ∉ L.trees.flatMap Index.ids := by
        rw [hids1] at hi
        rcases List.mem_append.1 hi with hi | hi
        · exact ⟨fun heq => hap.zero.1 (heq ▸ hi), fun heq => (hap.rows i hi).1 (heq ▸ hdmem), (hap.rows i hi).2⟩
        · have := mem_newIds.1 hi
          exact ⟨by omega, by omega, fun hm => by
            have := (hmem (Or.inr (Or.inr (Or.inr (Or.inr hm))))).1
            omega⟩
      rw [hframe3 i hout.1, hframe2 i hilt hout.2.2 hout.2.1 (hnp3 i (by omega))])
    have hpart : L'.ids.Perm (List.range w3.pages.length) := by
      have hrange : List.range w3.pages.length =
          List.range pages.length ++ (newIds pages w1.pages ++ newIds w1.pages w2.pages) := by
        rw [newIds_join hle1 hle2, range_append_newIds (Nat.le_trans hle1 hle2), hlen3]
      rw [hrange]
      refine List.perm_iff_count.2 (fun a => ?_)
      have h1 := h.partition.count_eq a
      have h2 := hperm2.count_eq a
      simp only [L', Layout.ids, hids1, hdir, List.map_cons, List.count_cons, List.count_append] at h1 h2 ⊢
      omega
    have hnd' : L'.ids.Nodup := hpart.nodup_iff.2 List.nodup_range
    have hrnd : (rowChain'.map Prod.fst).Nodup := by
      rw [Layout.ids, List.nodup_cons, List.nodup_append, List.nodup_append, List.nodup_append] at hnd'
      exact hnd'.2.1.1.2.1
    have hrows : ∀ r ∈ L.rows ++ [row], RowOk L.fields.length r := fun r hr => by
      rcases List.mem_append.1 hr with hr | hr
      · exact h.rows_ok r hr
      · exact List.mem_singleton.1 hr ▸ hrow
    have htrees' : ∀ i ∈ trees'.flatMap Index.ids, i ≠ 0 := fun i hi heq => by
      rcases List.mem_append.1 (hperm2.mem_iff.1 hi) with hi | hi
      · exact hap.zero.2.2 (heq ▸ hi)
      · have := mem_newIds.1 hi
        have := (hmem (i := 0) (Or.inl rfl)).1
        omega
    exact {
      pages_ok := hs3.pagesOk hbound
      length_lt := hbound
      generation_lt := hgen
      fields_ok := h.fields_ok
      rows_ok := hrows
      rows_le := rows_le_of_chain hs3 hbound hchain3 hbytes1 hrnd
      super_at := by
        rw [hsup3, hlen3]
        simp only [L', Layout.super, hhead1, hdir, List.length_append, List.length_singleton]
        rfl
      schema_at := h.schema_at.congr (fun i hi => by
        obtain ⟨h0, hr, hd, ht⟩ := hap.schema i hi
        exact hsame i (hmem (Or.inr (Or.inl hi))).1 h0 hr (fun heq => hd (heq ▸ hdmem)) ht)
      schema_bytes := h.schema_bytes
      rows_at := hchain3
      rows_bytes := hbytes1
      directory_at := by
        refine ⟨?_, hothersat.congr (fun i hi => ?_)⟩
        · rw [hframe3 directory (fun heq => hap.zero.2.1 (heq ▸ hdmem)), hdir2]
          rfl
        · have him : i ∈ L.directory.map Prod.fst := by rw [hdir]; exact List.mem_cons_of_mem _ hi
          exact hsame i (hmem (Or.inr (Or.inr (Or.inr (Or.inl him))))).1 (fun heq => hap.zero.2.1 (heq ▸ him))
            (fun hr => (hap.rows i hr).1 him) (fun heq => hothers (heq ▸ hi)) (hap.directory i him)
      directory_bytes := by
        rw [chainBytes, List.flatMap_cons, show others.flatMap Prod.snd = [] from hempty, List.append_nil]
        rfl
      trees_length := hcount2.trans h.trees_length
      trees_at := fun field index hi => by
        have hat := hats2 (by omega) field index hi
        rw [List.length_nil, Nat.zero_add] at hat
        exact hat.congr (fun i hii => hframe3 i (htrees' i (List.mem_flatMap.2 ⟨index, List.mem_of_getElem? hi, hii⟩)))
      partition := hpart }

/-! ## Runs of inserts -/

/-- The parsed image is this table. -/
structure Holds (P : ParsedImage) (fields : List Bytes) (rows : List (List Bytes)) (generation : Nat) : Prop where
  fields_eq : P.table.fields = fields
  rows_eq : P.table.rows = rows
  generation_eq : P.table.inspection.generation = generation
  indexes_eq : P.table.indexes = (List.range fields.length).map (sortedIndex rows)

/-- An image of this table as the code writes it. -/
def Written (image : Bytes) (fields : List Bytes) (rows : List (List Bytes)) (generation : Nat) : Prop :=
  ∃ (pages : List Page) (L : Layout), image = imageOf pages ∧ L.On pages ∧ L.Insertable ∧ L.fields = fields ∧
    L.rows = rows ∧ L.generation = generation

theorem Written.parse {image : Bytes} {fields : List Bytes} {rows : List (List Bytes)} {generation : Nat}
    (h : Written image fields rows generation) (walPresent : Bool) :
    ∃ P, parseImage image walPresent = .ok P ∧ Holds P fields rows generation := by
  obtain ⟨pages, L, rfl, hL, -, rfl, rfl, rfl⟩ := h
  exact ⟨_, parseImage_imageOf hL walPresent, rfl, rfl, rfl, rfl⟩

theorem buildImage_written {fields : List Bytes} {rows : List (List Bytes)} {generation : Nat}
    (hv : validateSchema fields rows = .ok ()) (hgen : generation < 2 ^ 64)
    (hcount : ∀ pages, buildPages fields rows generation = .ok pages → pages.length < 2 ^ 32) :
    ∃ image, buildImage fields rows generation = .ok image ∧ Written image fields rows generation := by
  obtain ⟨pages, L, hrun, hs, hg, hf, hr, hins, hon⟩ := buildPages_spec hv generation
  refine ⟨imageOf pages, ?_, pages, L, rfl, hon (hcount pages hrun) hgen, hins, hf, hr, hg⟩
  unfold buildImage
  rw [hrun]
  simp only [bind, Except.bind, encodePages_ok hs]

/-- **One insert** builds its pages without a throw, and returns the image of the table with the row at its end when they
can be numbered. -/
theorem buildIncrementalInsert_written {image : Bytes} {fields : List Bytes} {rows : List (List Bytes)} {generation : Nat}
    {row : List Bytes} (h : Written image fields rows generation) (hrow : RowOk fields.length row)
    (hgen : generation + 1 < 2 ^ 64) : ∃ (P : ParsedImage) (w : Work), parseImage image false = .ok P ∧
      insertRowPages P row = .ok w ∧ (w.pages.length < 2 ^ 32 → ∃ I, buildIncrementalInsert image row = .ok I ∧
        I.generation = generation + 1 ∧ Written I.image fields (rows ++ [row]) (generation + 1)) := by
  obtain ⟨pages, L, rfl, hL, hins, rfl, rfl, rfl⟩ := h
  obtain ⟨w, L', hrun, hs, hg, hf, hr, hins', hon⟩ := insertRowPages_spec hL hins hrow hgen
  refine ⟨_, w, parseImage_imageOf hL false, hrun, fun hbound => ?_⟩
  have hL' := hon hbound
  refine ⟨⟨imageOf w.pages, w.dirty, L.generation + 1⟩, ?_, rfl, w.pages, L', rfl, hL', hins', hf, hr, hg⟩
  unfold buildIncrementalInsert
  simp only [parseImage_imageOf hL false, hrun, encodePages_ok hs, parseImage_imageOf hL' false, bind, Except.bind, pure,
    Except.pure]
  rfl

/-- Rows inserted one after another, with the image after each. -/
def insertRows : Bytes → List (List Bytes) → Except StorageError (List IncrementalImage)
  | _, [] => .ok []
  | image, row :: rows => do
    let I ← buildIncrementalInsert image row
    let rest ← insertRows I.image rows
    pure (I :: rest)

/-- The page count stays below 2³² − 1 along the run. -/
def Small : Bytes → List (List Bytes) → Prop
  | _, [] => True
  | image, row :: rows =>
    (∀ P w, parseImage image false = .ok P → insertRowPages P row = .ok w → w.pages.length < 2 ^ 32 - 1) ∧
      ∀ I, buildIncrementalInsert image row = .ok I → Small I.image rows

/-- **A run of inserts from an image the code wrote**: the step lemma, repeated. -/
theorem insertRows_written {fields : List Bytes} : ∀ (inserted : List (List Bytes)) {image : Bytes}
    {rows : List (List Bytes)} {generation : Nat}, Written image fields rows generation →
    (∀ row ∈ inserted, RowOk fields.length row) → generation + inserted.length < 2 ^ 64 → Small image inserted →
    ∃ images, insertRows image inserted = .ok images ∧ images.length = inserted.length ∧
      ∀ k I, images[k]? = some I → Written I.image fields (rows ++ inserted.take (k + 1)) (generation + (k + 1))
  | [], _, _, _, _, _, _, _ => ⟨[], rfl, rfl, fun k I h => by simp at h⟩
  | row :: inserted, image, rows, generation, h, hrows, hgen, hsmall => by
    rw [List.length_cons] at hgen
    obtain ⟨P, w, hparse, hrun, hstep⟩ := buildIncrementalInsert_written h (hrows row List.mem_cons_self) (by omega)
    have hw := hsmall.1 P w hparse hrun
    obtain ⟨I, hI, -, hwritten⟩ := hstep (by omega)
    obtain ⟨images, hrest, hlen, hall⟩ := insertRows_written inserted hwritten
      (fun r hr => hrows r (List.mem_cons_of_mem row hr)) (by omega) (hsmall.2 I hI)
    refine ⟨I :: images, ?_, by simp [hlen], fun k J hk => ?_⟩
    · rw [insertRows, hI]
      simp only [bind, Except.bind, hrest, pure, Except.pure]
    · match k with
      | 0 =>
        obtain rfl := Option.some.inj hk
        simpa using hwritten
      | k + 1 =>
        have hJ := hall k J (by simpa using hk)
        rw [List.append_assoc, List.singleton_append] at hJ
        rw [List.take_succ_cons, show generation + (k + 1 + 1) = generation + 1 + (k + 1) by omega]
        exact hJ

/-- **Incremental inserts are correct on every reachable image**: from a table `build_image` accepts, any run of inserts of
valid rows throws nothing, and the image after each step parses to the rows so far, their indexes and the next generation. -/
theorem insertRows_correct {fields : List Bytes} {rows inserted : List (List Bytes)} {generation : Nat}
    (hv : validateSchema fields rows = .ok ())
    (hcount : ∀ pages, buildPages fields rows generation = .ok pages → pages.length < 2 ^ 32 - 1)
    (hrows : ∀ row ∈ inserted, row.length = fields.length ∧ ∀ v ∈ row, v.length ≤ maxValueLength)
    (hgen : generation + inserted.length < 2 ^ 64)
    (hsmall : ∀ image, buildImage fields rows generation = .ok image → Small image inserted) :
    ∃ image images, buildImage fields rows generation = .ok image ∧ insertRows image inserted = .ok images ∧
      images.length = inserted.length ∧ ∀ k I, images[k]? = some I → ∃ P, parseImage I.image false = .ok P ∧
        P.table.fields = fields ∧ P.table.rows = rows ++ inserted.take (k + 1) ∧
        P.table.indexes = (List.range fields.length).map (sortedIndex P.table.rows) ∧
        P.table.inspection.generation = generation + (k + 1) := by
  have hgen0 : generation < 2 ^ 64 := by omega
  obtain ⟨image, himage, hwritten⟩ := buildImage_written hv hgen0 (fun pages h => by
    have := hcount pages h
    omega)
  obtain ⟨images, hrun, hlen, hall⟩ := insertRows_written inserted hwritten
    (fun row hrow => ⟨(hrows row hrow).1, (hrows row hrow).2⟩) hgen (hsmall image himage)
  refine ⟨image, images, himage, hrun, hlen, fun k I hk => ?_⟩
  obtain ⟨P, hP, hholds⟩ := (hall k I hk).parse false
  exact ⟨P, hP, hholds.fields_eq, hholds.rows_eq, by rw [hholds.indexes_eq, hholds.rows_eq], hholds.generation_eq⟩

/-- What `build_incremental_insert` went through when it returned. -/
theorem buildIncrementalInsert_ok {image : Bytes} {row : List Bytes} {next : IncrementalImage}
    (h : buildIncrementalInsert image row = .ok next) : ∃ (P P' : ParsedImage) (w : Work),
      parseImage image false = .ok P ∧ insertRowPages P row = .ok w ∧ encodePages w.pages = .ok next.image ∧
      parseImage next.image false = .ok P' ∧ next.dirtyPages = w.dirty ∧
      next.generation = P.table.inspection.generation + 1 := by
  unfold buildIncrementalInsert at h
  obtain ⟨P, h1, h2⟩ := except_bind_ok.1 h
  obtain ⟨w, h3, h4⟩ := except_bind_ok.1 h2
  obtain ⟨image', h5, h6⟩ := except_bind_ok.1 h4
  obtain ⟨P', h7, h8⟩ := except_bind_ok.1 h6
  obtain rfl := Except.ok.inj h8
  exact ⟨P, P', w, h1, h3, h5, h7, rfl, rfl⟩

theorem buildPages_onePages : buildPages oneFields oneRows 1 = .ok onePages := by
  have h : (buildPages oneFields oneRows 1).toOption = some onePages := by decide +kernel
  exact toOption_ok.1 h

theorem buildImage_onePages : buildImage oneFields oneRows 1 = .ok (imageOf onePages) := by
  unfold buildImage
  rw [buildPages_onePages]
  exact encodePages_ok oneLayout_on.pages_ok.sized

theorem onePages_written : Written (imageOf onePages) oneFields oneRows 1 :=
  ⟨onePages, oneLayout, rfl, oneLayout_on, ⟨⟨2, _, [], rfl, by decide⟩, ⟨3, [], rfl⟩⟩, rfl, rfl, rfl⟩

/-- Two more rows; both bring a second value, which the first of them has not in the first field. -/
def oneInserted : List (List Bytes) := [[[120], [121]], [[121], [121]]]

/-- The pages behind the first of them. -/
def grownPages : List Page :=
  [⟨.superblock, 0, noPage, superPayload ⟨2, 6, 1, 2, 3, noPage, 2, 3⟩⟩, ⟨.schema, 1, noPage, schemaBytes oneFields⟩,
    ⟨.rows, 2, noPage, rowStream (oneRows ++ [[[120], [121]]])⟩, ⟨.indexDirectory, 3, noPage, directoryBytes [4, 5]⟩,
    ⟨.indexLeaf, 4, noPage, leafPayload noPage [⟨[120], 0⟩, ⟨[120], 2⟩, ⟨[121], 1⟩]⟩,
    ⟨.indexLeaf, 5, noPage, leafPayload noPage [⟨[120], 0⟩, ⟨[120], 1⟩, ⟨[121], 2⟩]⟩]

theorem grownPages_ok : PagesOk grownPages := fun i page h => by
  match i with
  | 0 | 1 | 2 | 3 | 4 | 5 =>
    obtain rfl := Option.some.inj h
    exact ⟨rfl, by decide, by decide, by decide⟩
  | i + 6 => simp [grownPages] at h

theorem insert_onePages_pages {P : ParsedImage} {w : Work} (hP : parseImage (imageOf onePages) false = .ok P)
    (hw : insertRowPages P [[120], [121]] = .ok w) : w.pages = grownPages := by
  rw [parseImage_imageOf oneLayout_on] at hP
  obtain rfl := Except.ok.inj hP
  have hpages : (insertRowPages (oneLayout.parsed onePages false) [[120], [121]]).toOption.map (·.pages) =
      some grownPages := by
    decide
  rw [hw] at hpages
  exact Option.some.inj hpages

theorem insert_grownPages_length {P : ParsedImage} {w : Work} (hP : parseImage (imageOf grownPages) false = .ok P)
    (hw : insertRowPages P [[121], [121]] = .ok w) : w.pages.length = 6 := by
  rw [parseImage_pagesOk grownPages_ok (by decide) (by decide)] at hP
  have hlen : (parsePages grownPages false).toOption.bind (fun P =>
      (insertRowPages P [[121], [121]]).toOption.map (·.pages.length)) = some 6 := by
    decide +kernel
  rw [hP, Except.toOption, Option.bind_some, hw] at hlen
  exact Option.some.inj hlen

theorem insert_onePages : ∃ next, buildIncrementalInsert (imageOf onePages) [[120], [121]] = .ok next := by
  obtain ⟨P, w, hP, hw, hnext⟩ := buildIncrementalInsert_written onePages_written
    (⟨rfl, by decide⟩ : RowOk 2 [[120], [121]]) (by decide)
  obtain ⟨next, h, -⟩ := hnext (by rw [insert_onePages_pages hP hw]; decide)
  exact ⟨next, h⟩

theorem next_onePages {next : IncrementalImage} (h : buildIncrementalInsert (imageOf onePages) [[120], [121]] = .ok next) :
    next.image = imageOf grownPages := by
  obtain ⟨P, P', w, hP, hw, hencode, -⟩ := buildIncrementalInsert_ok h
  rw [(encodePages_inv hencode).1, insert_onePages_pages hP hw]

theorem insertRows_correct_onePages : ∃ image images, buildImage oneFields oneRows 1 = .ok image ∧
    insertRows image oneInserted = .ok images ∧ ∃ I P, images[1]? = some I ∧ parseImage I.image false = .ok P ∧
      P.table.rows = oneRows ++ oneInserted ∧ P.table.indexes[1]? =
        some [⟨[120], 0⟩, ⟨[120], 1⟩, ⟨[121], 2⟩, ⟨[121], 3⟩] := by
  have hsmall : ∀ image, buildImage oneFields oneRows 1 = .ok image → Small image oneInserted := fun image himage => by
    obtain rfl := Except.ok.inj (buildImage_onePages.symm.trans himage)
    refine ⟨fun P w hP hw => ?_, fun I hI => ⟨fun P w hP hw => ?_, fun _ _ => trivial⟩⟩
    · rw [insert_onePages_pages hP hw]
      decide
    · rw [next_onePages hI] at hP
      rw [insert_grownPages_length hP hw]
      decide
  obtain ⟨image, images, h1, h2, h3, h4⟩ := insertRows_correct
    (by decide : validateSchema oneFields oneRows = .ok ())
    (fun pages h => by
      rw [buildPages_onePages] at h
      obtain rfl := Except.ok.inj h
      decide)
    (by decide : ∀ row ∈ oneInserted, row.length = 2 ∧ ∀ v ∈ row, v.length ≤ maxValueLength) (by decide) hsmall
  obtain ⟨I, hI⟩ : ∃ I, images[1]? = some I := ⟨_, List.getElem?_eq_getElem (by rw [h3]; decide)⟩
  obtain ⟨P, hP, -, hrows, hindexes, -⟩ := h4 1 I hI
  refine ⟨image, images, h1, h2, I, P, hI, hP, hrows, ?_⟩
  rw [hindexes, hrows]
  decide

end Storage
end Sql
